import Mathlib.Tactic
import DuoFirmware.Comm.ProtocolError

/-!
# Requests for the time

`TimeSyncManager` remembers that it waits for the time, and does not ask for it again meanwhile. It
does so before it asks, and when the request cannot be sent it goes on waiting. A run is in step if
what it waits for was sent; this depends on the first request after each answer and each reset.
-/

namespace DuoFirmware.Comm

structure TimeSyncManager where
  lastSyncMillis : UInt32
  requestSentMillis : UInt32
  lastSyncTime : ℤ
  expectingResponse : Bool
  deriving DecidableEq, Repr

namespace TimeSyncManager

variable (m : TimeSyncManager)

/-- The constructor. -/
def new : TimeSyncManager := ⟨0, 0, 0, false⟩

def reset : TimeSyncManager := { m with expectingResponse := false, requestSentMillis := 0 }

/-- `send_request`; the callback that sends it may change a state of its own. -/
def sendRequest {σ : Type} (mil : UInt32) (sendTimeRequest : σ → Bool × σ) (state : σ) :
    Bool × TimeSyncManager × σ :=
  if m.expectingResponse then (true, m, state)
  else
    let m := { m with requestSentMillis := mil, expectingResponse := true }
    let (result, state) := sendTimeRequest state
    (result, m, state)

/-- `handle_time_response`, with the time that is set. -/
def handleTimeResponse (tm : ℤ) (mil : UInt32) : Bool × TimeSyncManager × ℤ :=
  (true, { m with expectingResponse := false, lastSyncTime := tm, lastSyncMillis := mil }, tm)

def isRequestPending : Bool := m.expectingResponse

/-- `last_sync`: when the time was set, and to what. -/
def lastSync : UInt32 × ℤ := (m.lastSyncMillis, m.lastSyncTime)

end TimeSyncManager

/-! ## Requests of the protocol -/

/-- What `Protocol::send_time_request` calls and is not defined here: `Messages::time_request`, and
the channel. -/
structure TimeContext where
  timeRequest : UInt16 → UInt8 → List UInt8
  send : List UInt8 → ProtocolError

/-- The fields of `Protocol` for time requests, and the messages that the channel has sent. -/
structure TimeState where
  timesync : TimeSyncManager
  token : UInt8
  sent : List (List UInt8)

namespace TimeState

variable (ctx : TimeContext) (s : TimeState)

/-- The callback of `send_time_request`, with the token and the messages. -/
def transmit (state : UInt8 × List (List UInt8)) : Bool × UInt8 × List (List UInt8) :=
  let token := state.1 + 1
  let message := ctx.timeRequest 0 token
  let error := ctx.send message
  (error = .noError, token, if error = .noError then state.2 ++ [message] else state.2)

/-- `Protocol::send_time_request`; `isUpdating` tells whether there is a chunked transfer. -/
def sendTimeRequest (isUpdating : Bool) (millis : UInt32) : Bool × TimeState :=
  if isUpdating then (false, s)
  else
    let (result, timesync, token, sent) :=
      s.timesync.sendRequest millis (transmit ctx) (s.token, s.sent)
    (result, ⟨timesync, token, sent⟩)

/-- `Protocol::time_request_pending`. -/
def timeRequestPending : Bool := s.timesync.isRequestPending

end TimeState

namespace TimeSyncManager

/-! ## Runs -/

/-- A call, with the error that sending the request returns. -/
inductive Call where
  | sendRequest (mil : UInt32) (sent : ProtocolError)
  | handleTimeResponse (tm : ℤ) (mil : UInt32)
  | reset

/-- A manager, and the number of requests that were sent since the last response or reset. -/
structure Session where
  manager : TimeSyncManager
  requests : ℕ

namespace Session

def new : Session := ⟨.new, 0⟩

/-- `send_request`, with a callback that sends the request or fails. -/
def request (s : Session) (mil : UInt32) (sent : ProtocolError) : Bool × Session :=
  let (result, manager, requests) := s.manager.sendRequest mil
    (fun requests ↦ (sent = .noError, if sent = .noError then requests + 1 else requests))
    s.requests
  (result, ⟨manager, requests⟩)

def perform (s : Session) : Call → Session
  | .sendRequest mil sent => (s.request mil sent).2
  | .handleTimeResponse tm mil => ⟨(s.manager.handleTimeResponse tm mil).2.1, 0⟩
  | .reset => ⟨s.manager.reset, 0⟩

def run (s : Session) (calls : List Call) : Session := calls.foldl perform s

/-- The next call of `send_request` sends a request. -/
def CanTransmit (s : Session) : Prop :=
  ∀ mil, (s.request mil .noError).2.requests = s.requests + 1

end Session

/-- In every state of a run, a request is pending only if it was sent, and a request that cannot be
sent is reported and can be sent by the next call. -/
structure InStep (s : Session) (calls : List Call) : Prop where
  pending : ∀ before, before <+: calls →
    (s.run before).manager.isRequestPending = true → 0 < (s.run before).requests
  failure : ∀ before mil sent, before ++ [.sendRequest mil sent] <+: calls →
    (s.run before).manager.isRequestPending = false → sent ≠ .noError →
      ((s.run before).request mil sent).1 = false ∧ ((s.run before).request mil sent).2.CanTransmit

/-- The first request of a run, and that after each response and each reset, is sent. -/
def FirstSent : Bool → List Call → Prop
  | _, [] => True
  | first, .sendRequest _ sent :: calls => (first = true → sent = .noError) ∧ FirstSent false calls
  | _, .handleTimeResponse _ _ :: calls => FirstSent true calls
  | _, .reset :: calls => FirstSent true calls

variable {s : Session} {calls : List Call} {mil : UInt32} {sent : ProtocolError}

/-! ## One call -/

/-- While a request is pending, no other one is sent. -/
theorem Session.request_pending (h : s.manager.isRequestPending = true) (mil : UInt32)
    (sent : ProtocolError) : s.request mil sent = (true, s) := by
  have hexpecting : s.manager.expectingResponse = true := h
  rw [Session.request, sendRequest, if_pos hexpecting]

/-- Otherwise one is pending afterwards, whether it could be sent or not. -/
theorem Session.request_idle (h : s.manager.isRequestPending = false) (mil : UInt32)
    (sent : ProtocolError) :
    (s.request mil sent).1 = decide (sent = .noError) ∧
      (s.request mil sent).2.manager.isRequestPending = true ∧
      (s.request mil sent).2.requests =
        if sent = .noError then s.requests + 1 else s.requests := by
  have hexpecting : ¬ (s.manager.expectingResponse = true) := Bool.eq_false_iff.mp h
  rw [Session.request, sendRequest, if_neg hexpecting]
  exact ⟨rfl, rfl, rfl⟩

theorem Session.canTransmit_iff : s.CanTransmit ↔ s.manager.isRequestPending = false := by
  constructor
  · intro h
    by_contra hpending
    have hnext := h 0
    rw [Session.request_pending (Bool.eq_true_of_not_eq_false hpending)] at hnext
    exact Nat.ne_of_lt (Nat.lt_succ_self _) hnext
  · intro h mil
    rw [(Session.request_idle h mil .noError).2.2, if_pos rfl]

/-- Each call keeps what is pending sent, if the request it sends is the first one and is sent. -/
theorem Session.perform_sent {call : Call}
    (h : s.manager.isRequestPending = true → 0 < s.requests)
    (hfirst : FirstSent (!s.manager.isRequestPending) (call :: calls)) :
    ((s.perform call).manager.isRequestPending = true → 0 < (s.perform call).requests) ∧
      FirstSent (!(s.perform call).manager.isRequestPending) calls := by
  cases call with
  | sendRequest mil sent =>
    obtain ⟨hsent, hrest⟩ := hfirst
    rw [Session.perform]
    cases hpending : s.manager.isRequestPending with
    | true =>
      rw [Session.request_pending hpending, hpending]
      exact ⟨fun _ ↦ h hpending, hrest⟩
    | false =>
      obtain ⟨-, hafter, hrequests⟩ := Session.request_idle hpending mil sent
      rw [hpending] at hsent
      rw [hafter, hrequests, if_pos (hsent rfl)]
      exact ⟨fun _ ↦ Nat.succ_pos _, hrest⟩
  | handleTimeResponse tm mil => exact ⟨fun hpending ↦ absurd hpending Bool.false_ne_true, hfirst⟩
  | reset => exact ⟨fun hpending ↦ absurd hpending Bool.false_ne_true, hfirst⟩

/-! ## Runs in step -/

theorem InStep.tail {call : Call} (h : InStep s (call :: calls)) :
    InStep (s.perform call) calls where
  pending before hbefore := h.pending (call :: before) (List.cons_prefix_cons.mpr ⟨rfl, hbefore⟩)
  failure before mil sent hbefore := h.failure (call :: before) mil sent
    (List.cons_prefix_cons.mpr ⟨rfl, hbefore⟩)

/-- **A run in step** sends its first requests. -/
theorem InStep.firstSent (h : InStep s calls) :
    FirstSent (!s.manager.isRequestPending) calls := by
  induction calls generalizing s with
  | nil => trivial
  | cons call calls ih =>
    have hrest := ih h.tail
    cases call with
    | sendRequest mil sent =>
      cases hpending : s.manager.isRequestPending with
      | true =>
        rw [Session.perform, Session.request_pending hpending, hpending] at hrest
        exact ⟨fun hc ↦ absurd hc Bool.false_ne_true, hrest⟩
      | false =>
        obtain ⟨-, hafter, -⟩ := Session.request_idle hpending mil sent
        rw [Session.perform, hafter] at hrest
        refine ⟨fun _ ↦ ?_, hrest⟩
        by_contra hfails
        have hcan := (h.failure [] mil sent (List.prefix_append _ _) hpending hfails).2
        rw [Session.canTransmit_iff] at hcan
        exact Bool.false_ne_true (hcan.symm.trans hafter)
    | handleTimeResponse tm mil => exact hrest
    | reset => exact hrest

/-- **A run that sends its first requests** is in step. -/
theorem FirstSent.inStep (h : s.manager.isRequestPending = true → 0 < s.requests)
    (hfirst : FirstSent (!s.manager.isRequestPending) calls) : InStep s calls := by
  induction calls generalizing s with
  | nil =>
    refine ⟨fun before hbefore ↦ ?_, fun before mil sent hbefore ↦ ?_⟩
    · rw [List.prefix_nil.mp hbefore]
      exact h
    · exact absurd (List.prefix_nil.mp hbefore) (List.append_ne_nil_of_right_ne_nil _ (by simp))
  | cons call calls ih =>
    obtain ⟨hsent, hrest⟩ := Session.perform_sent h hfirst
    have htail := ih hsent hrest
    refine ⟨fun before hbefore ↦ ?_, fun before mil sent hbefore hpending hfails ↦ ?_⟩
    · rcases before with _ | ⟨call', before⟩
      · exact h
      · obtain ⟨rfl, hprefix⟩ := List.cons_prefix_cons.mp hbefore
        exact htail.pending before hprefix
    · rcases before with _ | ⟨call', before⟩
      · -- the first request cannot fail
        obtain ⟨rfl, -⟩ := List.cons_prefix_cons.mp hbefore
        have hidle : s.manager.isRequestPending = false := hpending
        rw [hidle] at hfirst
        exact absurd (hfirst.1 rfl) hfails
      · obtain ⟨rfl, hprefix⟩ := List.cons_prefix_cons.mp hbefore
        exact htail.failure before mil sent hprefix hpending hfails

/-- **The manager and the channel are in step** if and only if the first request of the run, and
that after each response and each reset, can be sent. -/
theorem inStep_iff (calls : List Call) : InStep .new calls ↔ FirstSent true calls :=
  ⟨InStep.firstSent, FirstSent.inStep (s := .new) fun h ↦ absurd h Bool.false_ne_true⟩

/-- A request that cannot be sent is pending, and the next one is not sent. -/
theorem not_inStep_failed : ¬ ∀ calls, InStep .new calls := by
  intro h
  have hpending := (h [.sendRequest 0 .ioErrorGenericSend]).pending _ List.prefix_rfl rfl
  exact absurd hpending (by decide)

end TimeSyncManager

namespace TimeState

open TimeSyncManager

/-- A request of the protocol is one of the manager, unless there is a chunked transfer. -/
theorem sendTimeRequest_request (ctx : TimeContext) (s : TimeState) (millis : UInt32) :
    (s.sendTimeRequest ctx false millis).1 = (Session.request ⟨s.timesync, s.sent.length⟩ millis
        (ctx.send (ctx.timeRequest 0 (s.token + 1)))).1 ∧
      (s.sendTimeRequest ctx false millis).2.timesync = (Session.request
        ⟨s.timesync, s.sent.length⟩ millis (ctx.send (ctx.timeRequest 0 (s.token + 1)))).2.manager ∧
      (s.sendTimeRequest ctx false millis).2.sent.length = (Session.request
        ⟨s.timesync, s.sent.length⟩ millis
        (ctx.send (ctx.timeRequest 0 (s.token + 1)))).2.requests := by
  rw [sendTimeRequest, if_neg Bool.false_ne_true, sendRequest, Session.request, sendRequest]
  by_cases hpending : s.timesync.expectingResponse = true
  · rw [if_pos hpending, if_pos hpending]
    exact ⟨rfl, rfl, rfl⟩
  · rw [if_neg hpending, if_neg hpending, transmit]
    refine ⟨rfl, rfl, ?_⟩
    dsimp only
    split
    · exact List.length_append
    · rfl

/-! ## Requests that are never sent -/

/-- The calls of `send_time_request` until the time is received or the connection is reset. -/
def requests (s : TimeState) : List (TimeContext × Bool × UInt32) → TimeState
  | [] => s
  | (ctx, isUpdating, millis) :: calls => requests (s.sendTimeRequest ctx isUpdating millis).2 calls

/-- While a request is pending, none is sent. -/
theorem requests_of_pending {s : TimeState} (h : s.timeRequestPending = true)
    (calls : List (TimeContext × Bool × UInt32)) : s.requests calls = s := by
  induction calls with
  | nil => rfl
  | cons call calls ih =>
    obtain ⟨ctx, isUpdating, millis⟩ := call
    have hexpecting : s.timesync.expectingResponse = true := h
    have hsame : (s.sendTimeRequest ctx isUpdating millis).2 = s := by
      rw [sendTimeRequest]
      split
      · rfl
      · rw [TimeSyncManager.sendRequest, if_pos hexpecting]
    rw [requests, hsame, ih]

/-- **After a request that could not be sent**, none is sent any more. -/
theorem requests_after_failure {ctx : TimeContext} {s : TimeState} {millis : UInt32}
    (hidle : s.timeRequestPending = false)
    (hfails : ctx.send (ctx.timeRequest 0 (s.token + 1)) ≠ .noError)
    (calls : List (TimeContext × Bool × UInt32)) :
    (s.sendTimeRequest ctx false millis).1 = false ∧
      ((s.sendTimeRequest ctx false millis).2.requests calls).sent = s.sent := by
  have hexpecting : ¬ (s.timesync.expectingResponse = true) := Bool.eq_false_iff.mp hidle
  have hsend : s.sendTimeRequest ctx false millis =
      (false, ⟨{ s.timesync with requestSentMillis := millis, expectingResponse := true },
        s.token + 1, s.sent⟩) := by
    rw [sendTimeRequest, if_neg Bool.false_ne_true, TimeSyncManager.sendRequest,
      if_neg hexpecting, transmit]
    simp only [hfails, decide_false, if_false]
  rw [hsend]
  exact ⟨rfl, by rw [requests_of_pending rfl]⟩

end TimeState

end DuoFirmware.Comm
