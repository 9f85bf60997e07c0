import DuoFirmware.Lib.Bitmap
import DuoFirmware.Lib.Bytes
import DuoFirmware.Lib.Cbc
import DuoFirmware.Lib.Divergence
import DuoFirmware.Lib.DnsMessage
import DuoFirmware.Lib.Gf256
import DuoFirmware.Lib.Interleaving
import DuoFirmware.Lib.KeyedLog
import DuoFirmware.Lib.LinkedList
import DuoFirmware.Lib.Monitor
import DuoFirmware.Lib.OrderedMap
import DuoFirmware.Lib.Rijndael
import DuoFirmware.Lib.RingBuffer
import DuoFirmware.Lib.StateProgram
import DuoFirmware.Comm.ChunkedTransfer
import DuoFirmware.Comm.Delivery
import DuoFirmware.Comm.EventContainment
import DuoFirmware.Comm.FailedAdd
import DuoFirmware.Comm.FunctionCalls
import DuoFirmware.Comm.KeyedMessages
import DuoFirmware.Comm.MessageChannel
import DuoFirmware.Comm.Ping
import DuoFirmware.Comm.Publisher
import DuoFirmware.Comm.RejectedAttempts
import DuoFirmware.Comm.Retransmission
import DuoFirmware.Comm.SubscribingTwice
import DuoFirmware.Comm.TimeSync
import DuoFirmware.Services.Appender
import DuoFirmware.Services.ExactlyOnce
import DuoFirmware.Services.FixedQueue
import DuoFirmware.Services.NearestExpiry
import DuoFirmware.Services.RingHelper
import DuoFirmware.Services.Ticks
import DuoFirmware.Wiring.Async
import DuoFirmware.Wiring.HashMap
import DuoFirmware.Wiring.VectorCounts
import DuoFirmware.Wiring.VectorMoves
import DuoFirmware.System.AppendList
import DuoFirmware.System.ChannelAsserts
import DuoFirmware.System.PoolRecovery
import DuoFirmware.System.Select
import DuoFirmware.Eeprom.Bounds
import DuoFirmware.Eeprom.ByteArray
import DuoFirmware.Eeprom.DirtyFlash
import DuoFirmware.Eeprom.Enumeration
import DuoFirmware.Eeprom.Operations
import DuoFirmware.Eeprom.PowerFail
import DuoFirmware.Eeprom.Swap
import DuoFirmware.Dcd.CrashConsistency
import DuoFirmware.Dcd.Fallback
import DuoFirmware.Dcd.Migration
import DuoFirmware.Hal.InternalFlashStore
import DuoFirmware.Hal.ServerAddressBounds
import DuoFirmware.Mdns.Atomicity
import DuoFirmware.Mdns.Containment
import DuoFirmware.Mdns.Responses
import DuoFirmware.Mdns.RoundTrip
import DuoFirmware.Mdns.TxtData
import DuoFirmware.Crypto.AesCbc
import DuoFirmware.Json.Containers
import DuoFirmware.Json.CutShort
import DuoFirmware.Json.DynamicParse
import DuoFirmware.Json.Pretty
import DuoFirmware.Json.Reparse
import DuoFirmware.Json.Scalars
