import DuoFirmware.Comm.MessageChannel
import DuoFirmware.Comm.RateLimit
import DuoFirmware.Lib.Bytes
import DuoFirmware.Services.CompletionHandler

/-!
# Publishing events

`Protocol::send_event` and `Publisher::send_event`. The handler of the caller is passed on by value:
the publisher owns it, and its destructor invokes it when the publisher fails, before the protocol
gets to report the error.
-/

namespace DuoFirmware.Comm

open Bytes Services

inductive EventType where
  | «public»
  | «private»
  deriving DecidableEq, Repr

namespace EventType

/-- Flags. -/
def noAck : UInt32 := 0x2

def withAck : UInt32 := 0x8

end EventType

/-- What the publisher calls and is not defined here: the channel, `Messages::event`, which returns
the bytes of a message, and `add_ack_handler`, which returns what it invokes. -/
structure PublishContext where
  create : Message → ProtocolError × Message
  isUnreliable : Bool
  send : Message → List UInt8 → ProtocolError × Message
  event : UInt16 → CString → Option CString → ℤ → EventType → Bool → List UInt8
  addAckHandler : UInt16 → CompletionHandler → List Services.Invocation
  toSystemError : ProtocolError → ℤ

/-- The state of the rate limiter, and the counter of the events that it has held back. -/
structure PublishState where
  limiter : RateLimiter
  rateLimitedEventsCounter : UInt16

/-- `is_system`. -/
def isSystem (eventName : CString) : Bool :=
  strncmp 5 eventName.bytes [115, 112, 97, 114, 107, 0]

variable (ctx : PublishContext) (s : PublishState) (eventName : CString) (data : Option CString)
  (ttl : ℤ) (eventType : EventType) (flags time : UInt32) (handler : CompletionHandler)

namespace Publisher

/-- The message of an event, and its bytes. -/
def eventMessage : Message × List UInt8 :=
  let (_, message) := ctx.create .new
  let confirmable :=
    if flags &&& EventType.noAck ≠ 0 then false
    else if flags &&& EventType.withAck ≠ 0 then true
    else ctx.isUnreliable
  let bytes := ctx.event 0 eventName data ttl eventType confirmable
  let message := message.setLength bytes.length
  (message, bytes.take message.length)

/-- `Publisher::send_event`; the handler is destroyed at the end. -/
def sendEvent : ProtocolError × PublishState × List Services.Invocation :=
  let isSystemEvent := isSystem eventName
  let (rateLimited, limiter) := s.limiter.isRateLimited isSystemEvent time
  if rateLimited then
    (.bandwidthExceeded, ⟨limiter, s.rateLimitedEventsCounter + 1⟩, handler.delete)
  else
    let s := { s with limiter := limiter }
    let (message, bytes) := eventMessage ctx eventName data ttl eventType flags
    let (result, message) := ctx.send message bytes
    if result = .noError then
      -- an acknowledgement was requested explicitly
      if flags &&& EventType.withAck ≠ 0 ∧ message.hasId then
        (result, s, ctx.addAckHandler message.getId handler ++ handler.movedFrom.delete)
      else
        let (handler, invocations) := handler.setResult none
        (result, s, invocations ++ handler.delete)
    else (result, s, handler.delete)

end Publisher

namespace Protocol

/-- `Protocol::send_event`; `isUpdating` tells whether there is a chunked transfer. -/
def sendEvent (isUpdating : Bool) : Bool × PublishState × List Services.Invocation :=
  if isUpdating then
    let (handler, invocations) := handler.setError SystemError.busy none
    (false, s, invocations ++ handler.delete)
  else
    let (error, s, invocations) :=
      Publisher.sendEvent ctx s eventName data ttl eventType flags time handler
    let handler := handler.movedFrom
    if error ≠ .noError then
      let (handler, reported) := handler.setError (ctx.toSystemError error) none
      (false, s, invocations ++ reported ++ handler.delete)
    else (true, s, invocations ++ handler.delete)

/-! ## Errors -/

/-- When the publisher fails, it destroys the handler. -/
theorem sendEvent_invocations
    (h : (Publisher.sendEvent ctx s eventName data ttl eventType flags time handler).1 ≠ .noError) :
    (Publisher.sendEvent ctx s eventName data ttl eventType flags time handler).2.2 =
      handler.delete := by
  rw [Publisher.sendEvent] at h ⊢
  dsimp only at h ⊢
  by_cases hlimited : (s.limiter.isRateLimited (isSystem eventName) time).1 = true
  · rw [if_pos hlimited]
  · rw [if_neg hlimited] at h ⊢
    generalize Publisher.eventMessage ctx eventName data ttl eventType flags = message at h ⊢
    split at h
    · rename_i hsent
      split at h <;> exact absurd hsent h
    · rename_i hfailed
      rw [if_neg hfailed]

/-- **The handler of an event that could not be published** gets the error if and only if that is an
internal error: it is invoked once, by its destructor. -/
theorem sendEvent_reports_iff (callback : Services.Ptr)
    (hcallback : handler.callback = some callback) (error : ProtocolError)
    (herror : error ≠ .noError) (hfails :
      (Publisher.sendEvent ctx s eventName data ttl eventType flags time handler).1 = error) :
    (sendEvent ctx s eventName data ttl eventType flags time handler false).2.2 =
        [⟨callback, ctx.toSystemError error, none, handler.data⟩] ↔
      ctx.toSystemError error = SystemError.internal := by
  have hinvocations := sendEvent_invocations ctx s eventName data ttl eventType flags time handler
    (hfails.symm ▸ herror)
  have hdelete : handler.delete = [⟨callback, SystemError.internal, none, handler.data⟩] := by
    rw [CompletionHandler.delete, CompletionHandler.setError, CompletionHandler.invoke, hcallback]
  have hlog : (sendEvent ctx s eventName data ttl eventType flags time handler false).2.2 =
      [⟨callback, SystemError.internal, none, handler.data⟩] := by
    rw [sendEvent, if_neg Bool.false_ne_true]
    dsimp only
    rw [if_pos (hfails.symm ▸ herror), hinvocations, hdelete]
    rfl
  rw [hlog]
  constructor
  · intro h
    injection h with hinvocation
    injection hinvocation with _ hcode
    exact hcode.symm
  · intro h
    rw [h]

/-- A channel that cannot send anything, with errors that are not internal. -/
def brokenContext : PublishContext where
  create m := (.noError, m)
  isUnreliable := true
  send m _ := (.messageTimeout, m)
  event _ name _ _ _ _ := name.chars
  addAckHandler _ _ := []
  toSystemError error := if error = .noError then SystemError.none else SystemError.timeout

/-- The same, with internal errors. -/
def internalContext : PublishContext :=
  { brokenContext with toSystemError := fun _ ↦ SystemError.internal }

theorem eventA_nonzero : ∀ c ∈ [(97 : UInt8)], c ≠ 0 := by simp

/-- The event `a`. -/
def eventA : CString := ⟨[97], eventA_nonzero⟩

theorem sendEvent_reports_iff_internal :
    (sendEvent internalContext ⟨.new, 0⟩ eventA none 60 .private 0 5 ⟨some 0x08020001, 7⟩
      false).2.2 = [⟨0x08020001, SystemError.internal, none, 7⟩] ↔
      SystemError.internal = SystemError.internal :=
  sendEvent_reports_iff internalContext ⟨.new, 0⟩ eventA none 60 .private 0 5 ⟨some 0x08020001, 7⟩
    0x08020001 rfl .messageTimeout (by decide) (by decide)

/-- A timeout is reported as an internal error. -/
theorem sendEvent_reports_internal :
    (Publisher.sendEvent brokenContext ⟨.new, 0⟩ eventA none 60 .private 0 5
      ⟨some 0x08020001, 7⟩).1 = .messageTimeout ∧
    brokenContext.toSystemError .messageTimeout = SystemError.timeout ∧
    (sendEvent brokenContext ⟨.new, 0⟩ eventA none 60 .private 0 5 ⟨some 0x08020001, 7⟩ false).2.2 =
      [⟨0x08020001, SystemError.internal, none, 7⟩] :=
  ⟨by decide, by decide, by decide⟩

end Protocol

end DuoFirmware.Comm
