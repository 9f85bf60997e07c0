import DuoFirmware.Comm.HandleEvent

/-!
# Calls of functions

`Functions::handle_function_call`, as a program over the buffer of the message, and how a key is
read by `Variables`. Positions are those in the buffer; the programs fail when they read outside of
it, or write outside of it, of the key or of the argument.

The argument stays where it is until another one is copied over it. What is done with the result of
the function that is called is left out.
-/

namespace DuoFirmware.Comm

open Bytes

def maxFunctionArgLength : ℕ := 64

structure Functions where
  functionArg : Field maxFunctionArgLength
  deriving DecidableEq, Repr

/-- A message that is sent, or a call of the user function, with what its pointers point to. -/
inductive Effect where
  | send (message : Message) (bytes : List UInt8)
  | callFunction (functionKey : Field 13) (functionArg : Field maxFunctionArgLength)

/-- `RESPONSE_CODE`. -/
def responseCode (x y : UInt8) : UInt8 := x <<< 5 ||| y

/-- `Messages::coded_ack`, without a token. -/
def codedAck (buf : ℕ) (code messageIdMsb messageIdLsb : UInt8) : BufferM ℕ := do
  writeRange buf [0x60, code, messageIdMsb, messageIdLsb]
  pure 4

namespace Functions

/-- The key and its length. -/
def copyKey : BufferM (Field 13 × ℕ) := do
  let b ← read 7
  let functionKeyLength := b.toNat % 16
  let bytes ← readRange 8 functionKeyLength
  let functionKey ← copyTo (.zero 13) 0 bytes
  pure (functionKey, functionKeyLength)

/-- How long the argument is; `q_index` is moved to the last byte before it. -/
def readQueryLength (qIndex : ℕ) : BufferM (ℕ × ℕ) := do
  let b ← read qIndex
  let queryLength := b.toNat % 16
  if queryLength = 13 then do
    let qIndex := qIndex + 1
    let b ← read qIndex
    pure (qIndex, 13 + b.toNat)
  else if queryLength = 14 then do
    let qIndex := qIndex + 1
    let high ← read qIndex
    let qIndex := qIndex + 1
    let low ← read qIndex
    pure (qIndex, (high.toNat <<< 8 ||| low.toNat) + 269)
  else pure (qIndex, queryLength)

/-- Save a copy of the argument, if there is room for it. -/
def copyArg (s : Functions) (qIndex queryLength : ℕ) : BufferM (Bool × Functions) :=
  if queryLength < maxFunctionArgLength then do
    let bytes ← readRange (qIndex + 1) queryLength
    let functionArg ← copyTo s.functionArg 0 bytes
    let functionArg ← copyTo functionArg queryLength [0]
    pure (true, ⟨functionArg⟩)
  else pure (false, s)

/-- What is read from the message: the key, `has_function`, and the argument. -/
def decode (s : Functions) : BufferM (Field 13 × Bool × Functions) := do
  let (functionKey, functionKeyLength) ← copyKey
  let (qIndex, queryLength) ← readQueryLength (8 + functionKeyLength)
  let (hasFunction, s) ← copyArg s qIndex queryLength
  pure (functionKey, hasFunction, s)

variable (channel : Channel) (messageId : UInt16) (message : Message)

/-- Send the acknowledgement. The error of `response` is ignored: without a response buffer it is
written to a null pointer. -/
def acknowledge (hasFunction : Bool) : BufferM (ProtocolError × Effect) :=
  match channel.buffer.response message .new 16 with
  | (.noError, message, response) => do
    let buf := response.buf - message.buf
    let responseLength ← codedAck buf (if hasFunction then 0 else responseCode 4 0) 0 0
    let response := (response.setId messageId).setLength responseLength
    let bytes ← readRange buf responseLength
    pure (channel.send response bytes, .send response bytes)
  | _ => failure

/-- `handle_function_call`; returns the error, the new state and what was done. -/
def handleFunctionCall (s : Functions) : BufferM (ProtocolError × Functions × List Effect) := do
  let (functionKey, hasFunction, s) ← decode s
  let (error, sent) ← acknowledge channel messageId message hasFunction
  if error ≠ .noError then pure (error, s, [sent])
  else
    -- call the given user function
    pure (.noError, s, [sent, .callFunction functionKey s.functionArg])

end Functions

namespace Variables

/-- `decode_variable_request`. -/
def decodeVariableRequest (variableKey : Field 13) : BufferM (Field 13) := do
  let b ← read 7
  let variableKeyLength := if 12 < b.toNat % 16 then 12 else b.toNat % 16
  let bytes ← readRange 8 variableKeyLength
  let variableKey ← copyTo variableKey 0 bytes
  copyTo variableKey variableKeyLength (List.replicate (13 - variableKeyLength) 0)

end Variables

end DuoFirmware.Comm
