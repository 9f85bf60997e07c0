/-!
# Results of the communication library
-/

namespace DuoFirmware.Comm

inductive ProtocolError where
  | noError
  | pingTimeout
  | ioError
  | invalidState
  | insufficientStorage
  | malformedMessage
  | decryptionError
  | encryptionError
  | authenticationError
  | bandwidthExceeded
  | messageTimeout
  | missingMessageId
  | messageReset
  | sessionResumed
  | ioErrorForwardMessageChannel
  | ioErrorSetDataMaxExceeded
  | ioErrorParsingServerPublicKey
  | ioErrorGenericEstablish
  | ioErrorGenericReceive
  | ioErrorGenericSend
  | ioErrorGenericMbedtlsSslWrite
  | ioErrorDiscardSession
  | ioErrorLightsslBlockingSend
  | ioErrorLightsslBlockingReceive
  | ioErrorLightsslReceive
  | ioErrorLightsslHandshakeNonce
  | ioErrorLightsslHandshakeRecvKey
  | unknown
  deriving DecidableEq, Repr

end DuoFirmware.Comm
