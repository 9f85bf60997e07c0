import DuoFirmware.Comm.CoapOption
import DuoFirmware.Comm.MessageChannel
import DuoFirmware.Comm.Subscriptions

/-!
# Event messages

`Subscriptions::handle_event`, as a program over the buffer of the message. Pointers are positions
in that buffer; the program fails when it reads or writes outside of it.

The name of an event is spread over the path options of the message. It is put together in place: a
slash takes the place of each header, and the value is moved down if the header was longer.
-/

namespace DuoFirmware.Comm

open Bytes

/-- The channel that a message has come from. -/
structure Channel where
  isUnreliable : Bool
  buffer : BufferMessageChannel
  /-- No object takes more than half of the address space. -/
  max_le : buffer.max ≤ 2147483647
  send : Message → List UInt8 → ProtocolError

theorem max_dtls_le : BufferMessageChannel.dtls.max ≤ 2147483647 := by decide

/-- A call of an event handler, with the pointers to the name of the event and to its data. -/
inductive Invocation where
  | handler (handler : UInt32) (eventName : ℕ) (data : Option ℕ)
  | handlerWithData (handler handlerData : UInt32) (eventName : ℕ) (data : Option ℕ)
  | callEventHandler (h : FilteringEventHandler) (eventName : ℕ) (data : Option ℕ)
  deriving DecidableEq, Repr

/-- `Messages::empty_ack`. -/
def emptyAck (buf : ℕ) (messageIdMsb messageIdLsb : UInt8) : BufferM ℕ := do
  writeRange buf [0x60, 0, messageIdMsb, messageIdLsb]
  pure 4

namespace Subscriptions

variable (coap : CoAP) (channel : Channel)

/-- `CoAP::option_decode`; returns the length, and the pointer behind the header. -/
def optionDecode (option : ℕ) : BufferM (ℕ × ℕ) := fun mem ↦
  (coap.optionDecode (mem.drop option)).map fun r ↦ ((r.1, option + r.2), mem)

/-- A confirmable message on an unreliable channel is acknowledged, if there is room for it. -/
def acknowledge (message : Message) : BufferM ProtocolError :=
  match channel.buffer.response message .new 5 with
  | (.noError, message, response) => do
    let buf := response.buf - message.buf
    let len ← emptyAck buf 0 0
    let response := (response.setLength len).setId message.getId
    let bytes ← readRange buf len
    pure (channel.send response bytes)
  | _ => pure .noError

/-- A round of the loop over the path options: another one follows, for a name with slashes. -/
def pathRound (src dst : ℕ) : BufferM (ℕ × ℕ) := do
  let (optionLen, src) ← optionDecode coap src
  write dst 47
  let dst := dst + 1
  if dst ≠ src then
    -- more bytes than one were used to encode the header
    memmove dst src optionLen
  pure (src + optionLen, dst + optionLen)

/-- The loop over the path options; `e` is the end of the message. Each round moves the source on or
gets the destination nearer to it, so that three rounds for each byte are enough. -/
def pathLoop (e : ℕ) : ℕ → ℕ → ℕ → BufferM (ℕ × ℕ)
  | rounds, src, dst =>
    if src < e then do
      let b ← read src
      if b &&& 0xf0 = 0 then
        match rounds with
        | 0 => failure
        | rounds + 1 => do
          let (src, dst) ← pathRound coap src dst
          pathLoop e rounds src dst
      else pure (src, dst)
    else pure (src, dst)

/-- A Max-Age option is ignored. -/
def skipMaxAge (e src : ℕ) : BufferM ℕ :=
  if src < e then do
    let b ← read src
    if b &&& 0xf0 = 0x30 then do
      let (nextLen, src) ← optionDecode coap src
      pure (src + nextLen)
    else pure src
  else pure src

/-- The payload, which is made a string. -/
def payload (e src : ℕ) : BufferM (Option ℕ) :=
  if src < e then do
    let b ← read src
    if b = 0xff then do
      write e 0
      pure (some (src + 1))
    else pure none
  else pure none

/-- The call for an entry that matches. -/
def invocation (callEventHandler : Bool) (h : FilteringEventHandler) (eventName : ℕ)
    (data : Option ℕ) : Invocation :=
  if callEventHandler then .callEventHandler h eventName data
  else if h.handlerData ≠ 0 then .handlerWithData h.handler h.handlerData eventName data
  else .handler h.handler eventName data

/-- The loop over the entries of the table. -/
def dispatch (callEventHandler : Bool) (eventName eventNameLength : ℕ) (data : Option ℕ) :
    List FilteringEventHandler → BufferM (List Invocation)
  | [] => pure []
  | h :: hs =>
    if h.handler = 0 then pure []
    else
      let filterLength := strnlen h.filter.bytes 64
      if eventNameLength < filterLength then
        dispatch callEventHandler eventName eventNameLength data hs
      else do
        let name ← readRange eventName filterLength
        let calls ← dispatch callEventHandler eventName eventNameLength data hs
        if memcmp h.filter.bytes name filterLength then
          pure (invocation callEventHandler h eventName data :: calls)
        else pure calls

/-- What follows the acknowledgement; `e` is the end of the message. -/
def parseEvent (callEventHandler : Bool) (s : Subscriptions) (e : ℕ) :
    BufferM (ProtocolError × List Invocation) := do
  let first ← read 0
  let (eventNameLength, eventName) ← optionDecode coap (6 + first.toNat % 16)
  if eventNameLength = 0 then pure (.malformedMessage, [])
  else do
    let (src, dst) ← pathLoop coap e (3 * e) (eventName + eventNameLength)
      (eventName + eventNameLength)
    let eventNameLength := dst - eventName
    let src ← skipMaxAge coap e src
    let data ← payload e src
    write (eventName + eventNameLength) 0
    let calls ← dispatch callEventHandler eventName eventNameLength data s.eventHandlers
    pure (.noError, calls)

/-- `handle_event`. -/
def handleEvent (callEventHandler : Bool) (s : Subscriptions) (message : Message) :
    BufferM (ProtocolError × List Invocation) := do
  let first ← read 0
  let error ← if coap.type first = .con ∧ channel.isUnreliable then acknowledge channel message
    else pure .noError
  if error ≠ .noError then pure (error, [])
  else parseEvent coap callEventHandler s message.length

end Subscriptions

end DuoFirmware.Comm
