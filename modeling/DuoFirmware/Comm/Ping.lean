import Mathlib.Data.List.Induction
import Mathlib.Tactic
import DuoFirmware.Comm.ProtocolError

/-!
# Pings

`Pinger` sends a ping when nothing was received for a while, and then waits for a message. While it
waits, each call of `process` that is not late takes back the waiting; so a timeout is detected or
not depending on how often `process` was called in between.
-/

namespace DuoFirmware.Comm

structure Pinger where
  expectingPingAck : Bool
  pingInterval : UInt32
  pingTimeout : UInt32
  deriving DecidableEq, Repr

namespace Pinger

variable (p : Pinger)

/-- The constructor. -/
def new : Pinger := ⟨false, 0, 10000⟩

def init (interval timeout : UInt32) : Pinger :=
  { p with pingInterval := interval, pingTimeout := timeout }

def setInterval (interval : UInt32) : Pinger := { p with pingInterval := interval }

def reset : Pinger := { p with expectingPingAck := false }

def messageReceived : Pinger := { p with expectingPingAck := false }

/-- `process`; the callback that sends a ping may change a state of its own. -/
def process {σ : Type} (millisSinceLastMessage : UInt32) (ping : σ → ProtocolError × σ)
    (state : σ) : ProtocolError × Pinger × σ :=
  if p.expectingPingAck then
    -- timed out, disconnect
    if p.pingTimeout < millisSinceLastMessage then (.pingTimeout, p, state)
    else (.noError, { p with expectingPingAck := false }, state)
  else if p.pingInterval ≠ 0 ∧ p.pingInterval < millisSinceLastMessage then
    let (error, state) := ping state
    (error, { p with expectingPingAck := true }, state)
  else (.noError, p, state)

/-! ## Runs -/

/-- A call, with the error that sending a ping returns. -/
inductive Call where
  | init (interval timeout : UInt32)
  | setInterval (interval : UInt32)
  | process (millisSinceLastMessage : UInt32) (sent : ProtocolError)
  | messageReceived
  | reset

/-- `process`, with the number of pings that were sent. -/
def poll (millis : UInt32) (sent : ProtocolError) : ProtocolError × Pinger × ℕ :=
  p.process millis (fun pings ↦ (sent, pings + 1)) 0

def perform : Call → Pinger
  | .init interval timeout => p.init interval timeout
  | .setInterval interval => p.setInterval interval
  | .process millis sent => (p.poll millis sent).2.1
  | .messageReceived => p.messageReceived
  | .reset => p.reset

def run (calls : List Call) : Pinger := calls.foldl perform p

/-- A ping would be due after some time. -/
def Due (millis : UInt32) : Prop := p.pingInterval ≠ 0 ∧ p.pingInterval < millis

instance (millis : UInt32) : Decidable (p.Due millis) := inferInstanceAs (Decidable (_ ∧ _))

/-- Calls in which nothing is received, and the timeout is not exceeded. -/
def Waits (p : Pinger) : List Call → Prop
  | [] => True
  | call :: calls => (match call with
    | .process millis _ => millis ≤ p.pingTimeout
    | .messageReceived => False
    | .reset => False
    | _ => True) ∧ Waits (p.perform call) calls

/-- For each call of `process`, whether a ping would have been due. -/
def dues (p : Pinger) : List Call → List Bool
  | [] => []
  | .process millis sent :: calls =>
    decide (p.Due millis) :: dues (p.perform (.process millis sent)) calls
  | call :: calls => dues (p.perform call) calls

variable {p} {millis : UInt32} {sent : ProtocolError} {calls : List Call}

/-- A ping is sent if it is due and none is waited for. -/
theorem poll_pings_iff : (p.poll millis sent).2.2 = 1 ↔
    p.expectingPingAck = false ∧ p.Due millis := by
  rw [poll, process]
  cases p.expectingPingAck with
  | true =>
    rw [if_pos rfl]
    refine iff_of_false ?_ fun hc ↦ absurd hc.1 (by decide)
    split <;> exact Nat.zero_ne_one
  | false =>
    rw [if_neg Bool.false_ne_true]
    by_cases hdue : p.pingInterval ≠ 0 ∧ p.pingInterval < millis
    · rw [if_pos hdue]
      exact iff_of_true rfl ⟨rfl, hdue⟩
    · rw [if_neg hdue]
      exact iff_of_false Nat.zero_ne_one fun hc ↦ hdue hc.2

/-- **While nothing is received**, a call waits if the one before it did not and a ping is due. -/
theorem expecting_poll (h : millis ≤ p.pingTimeout) :
    (p.poll millis sent).2.1.expectingPingAck = (!p.expectingPingAck && decide (p.Due millis)) := by
  rw [poll, process]
  cases hexpecting : p.expectingPingAck with
  | true =>
    rw [if_pos rfl, if_neg (UInt32.not_lt.mpr h)]
    rfl
  | false =>
    rw [if_neg Bool.false_ne_true]
    by_cases hdue : p.pingInterval ≠ 0 ∧ p.pingInterval < millis
    · have hdecide : decide (p.Due millis) = true := decide_eq_true hdue
      rw [if_pos hdue, hdecide]
      rfl
    · have hdecide : decide (p.Due millis) = false := decide_eq_false hdue
      rw [if_neg hdue, hdecide]
      exact hexpecting

/-- Whether a ping is waited for at the end. -/
theorem expecting_run (h : Waits p calls) : (p.run calls).expectingPingAck =
    (p.dues calls).foldl (fun expecting due ↦ !expecting && due) p.expectingPingAck := by
  induction calls generalizing p with
  | nil => rfl
  | cons call calls ih =>
    obtain ⟨hcall, hrest⟩ := h
    have hrun := ih hrest
    cases call with
    | process millis sent =>
      rw [dues, List.foldl_cons, ← expecting_poll hcall]
      exact hrun
    | init interval timeout => exact hrun
    | setInterval interval => exact hrun
    | messageReceived => exact hcall.elim
    | reset => exact hcall.elim

/-- The number of calls at the end for which a ping was due. -/
def trailing (dues : List Bool) : ℕ := (dues.reverse.takeWhile id).length

/-- A ping is waited for: after an even number of calls if a ping was due at all of them, and else
after an odd number since the last one at which none was due. -/
def Armed (dues : List Bool) : Prop :=
  if trailing dues = dues.length then trailing dues % 2 = 0 else trailing dues % 2 = 1

instance (dues : List Bool) : Decidable (Armed dues) := inferInstanceAs (Decidable (ite _ _ _))

theorem trailing_le (dues : List Bool) : trailing dues ≤ dues.length :=
  (List.takeWhile_sublist _).length_le.trans List.length_reverse.le

theorem foldl_eq_armed (dues : List Bool) :
    dues.foldl (fun expecting due ↦ !expecting && due) true = decide (Armed dues) := by
  induction dues using List.reverseRecOn with
  | nil => rfl
  | append_singleton dues due ih =>
    have hlen : (dues ++ [due]).length = dues.length + 1 := List.length_append
    have hle := trailing_le dues
    rw [List.foldl_append, ih, List.foldl_cons, List.foldl_nil]
    cases due with
    | true =>
      have htrailing : trailing (dues ++ [true]) = trailing dues + 1 := by
        rw [trailing, List.reverse_append]
        rfl
      rw [Bool.and_true, ← decide_not]
      apply decide_eq_decide.mpr
      rw [Armed, Armed, htrailing, hlen]
      by_cases hall : trailing dues = dues.length
      · rw [if_pos hall, if_pos (congrArg Nat.succ hall)]
        omega
      · rw [if_neg hall, if_neg fun hc ↦ hall (Nat.succ.inj hc)]
        omega
    | false =>
      have htrailing : trailing (dues ++ [false]) = 0 := by
        rw [trailing, List.reverse_append]
        rfl
      rw [Bool.and_false]
      refine (decide_eq_false ?_).symm
      rw [Armed, htrailing, hlen, if_neg (Nat.succ_ne_zero _).symm]
      exact Nat.zero_ne_one

/-- A call that exceeds the timeout. -/
theorem poll_exceeding (h : p.pingTimeout < millis) : (p.poll millis sent).1 = .pingTimeout ↔
    p.expectingPingAck = true ∨
      p.expectingPingAck = false ∧ p.Due millis ∧ sent = .pingTimeout := by
  rw [poll, process]
  cases p.expectingPingAck with
  | true =>
    rw [if_pos rfl, if_pos h]
    exact iff_of_true rfl (.inl rfl)
  | false =>
    rw [if_neg Bool.false_ne_true, or_iff_right Bool.false_ne_true, and_iff_right rfl]
    by_cases hdue : p.pingInterval ≠ 0 ∧ p.pingInterval < millis
    · rw [if_pos hdue]
      exact (and_iff_right hdue).symm
    · rw [if_neg hdue]
      exact iff_of_false (fun hc ↦ by cases hc) fun hc ↦ hdue hc.1

/-- **A timeout is detected**, after a ping was sent and nothing received since, if and only if the
calls in between have left the pinger waiting, or another ping is due and sending it returns that
error. -/
theorem pingTimeout_iff (before between : List Call) (p : Pinger) (millis₀ millis : UInt32)
    (sent₀ sent : ProtocolError) (hping : ((new.run before).poll millis₀ sent₀).2 = (p, 1))
    (hwaits : p.Waits between) (hexceeds : (p.run between).pingTimeout < millis) :
    ((p.run between).poll millis sent).1 = .pingTimeout ↔
      Armed (p.dues between) ∨ (p.run between).Due millis ∧ sent = .pingTimeout := by
  have hexpecting : p.expectingPingAck = true := by
    obtain ⟨hidle, hdue⟩ := poll_pings_iff.mp (congrArg Prod.snd hping)
    have hp : ((new.run before).poll millis₀ sent₀).2.1 = p := congrArg Prod.fst hping
    rw [← hp, poll, process, hidle, if_neg Bool.false_ne_true, if_pos (show _ ∧ _ from hdue)]
  have hend := expecting_run hwaits
  rw [hexpecting, foldl_eq_armed] at hend
  rw [poll_exceeding hexceeds, hend, decide_eq_true_iff, decide_eq_false_iff_not]
  constructor
  · rintro (harmed | ⟨-, hdue⟩)
    · exact .inl harmed
    · exact .inr hdue
  · intro h
    by_cases harmed : Armed (p.dues between)
    · exact .inl harmed
    · exact .inr ⟨harmed, h.resolve_left harmed⟩

/-- A pinger that has sent a ping after 1001 milliseconds. -/
def waiting : Pinger := ⟨true, 1000, 500⟩

theorem pingTimeout_iff_noCalls : ((waiting.run []).poll 501 .noError).1 = .pingTimeout ↔
    Armed (waiting.dues []) ∨ (waiting.run []).Due 501 ∧ ProtocolError.noError = .pingTimeout :=
  pingTimeout_iff [.init 1000 500] [] waiting 1001 501 .noError .noError (by decide) trivial
    (by decide)

/-- One call in between is enough to miss the timeout. -/
theorem pingTimeout_missed :
    ((new.run [.init 1000 500]).poll 1001 .noError).2 = (waiting, 1) ∧
    waiting.Waits [.process 1 .noError] ∧
    (waiting.run [.process 1 .noError]).pingTimeout < 501 ∧
    ((waiting.run [.process 1 .noError]).poll 501 .noError).1 = .noError :=
  ⟨by decide, ⟨by decide, trivial⟩, by decide, by decide⟩

end Pinger

/-! ## The event loop -/

/-- The part of the protocol that has to do with pings. -/
structure PingState where
  pinger : Pinger
  lastMessageMillis : UInt32

namespace PingState

/-- `Protocol::ping`: the time is taken, and the ping sent. -/
def ping (now : UInt32) (sent : ProtocolError) : UInt32 → ProtocolError × UInt32 :=
  fun _ ↦ (sent, now)

/-- `event_loop_idle`; `now` and `later` are the times when the pinger is called and when a ping is
sent, and `updating` is the result of a chunked transfer if there is one. -/
def eventLoopIdle (s : PingState) (updating : Option ProtocolError) (now later : UInt32)
    (sent : ProtocolError) : ProtocolError × PingState :=
  match updating with
  | some error => (error, s)
  | none =>
    let (error, pinger, lastMessageMillis) :=
      s.pinger.process (now - s.lastMessageMillis) (ping later sent) s.lastMessageMillis
    (error, ⟨pinger, lastMessageMillis⟩)

/-- An idle round of the event loop in time makes the pinger forget that it has sent a ping. -/
theorem eventLoopIdle_forgets (s : PingState) (now later : UInt32) (sent : ProtocolError)
    (hexpecting : s.pinger.expectingPingAck = true)
    (h : now - s.lastMessageMillis ≤ s.pinger.pingTimeout) :
    s.eventLoopIdle none now later sent =
      (.noError, { s with pinger := { s.pinger with expectingPingAck := false } }) := by
  rw [eventLoopIdle, Pinger.process, if_pos hexpecting, if_neg (UInt32.not_lt.mpr h)]

end PingState

end DuoFirmware.Comm
