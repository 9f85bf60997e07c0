import Mathlib.Tactic
import DuoFirmware.Lib.Interleaving

/-!
# Futures

`FutureImpl` is shared between the threads that complete it and the threads that register callbacks.
Each atomic operation of a call, and each access to the result or to the error, is a step; any other
thread may run between two of them. The memory orders do not matter, since the steps are taken one
after the other.

The result and the error lie in a union, and their functions differ only in the atomic that holds
the callback; so these are given for an outcome. Without a result type there is nothing to write for
a result, which is then a value of the type `Unit`.
-/

namespace DuoFirmware.Wiring

open Interleaving

/-- What a callback is registered for. -/
inductive Outcome where
  | success
  | error
  deriving DecidableEq, Repr

/-- The state of a future. -/
inductive FutureState where
  | running
  | succeeded
  | failed
  | cancelled
  deriving DecidableEq, Repr

def Outcome.state : Outcome → FutureState
  | success => .succeeded
  | error => .failed

/-- A callback is invoked with what is in the union, if that is of the right type. -/
structure CallbackInvocation (Callback : Type) (Value : Outcome → Type) where
  outcome : Outcome
  callback : Callback
  argument : Option (Value outcome)

/-- A future, with the callbacks that were invoked. -/
structure FutureImpl (Callback : Type) (Value : Outcome → Type) where
  state : FutureState
  done : Bool
  /-- `onSuccess_` and `onError_`. -/
  callback : Outcome → Option Callback
  /-- The union of `result_` and `error_`. -/
  data : Option ((o : Outcome) × Value o)
  invocations : List (CallbackInvocation Callback Value)

/-- A call that works on a future. -/
inductive FutureCall (Callback : Type) (Value : Outcome → Type) where
  | setResult (result : Value .success)
  | setError (error : Value .error)
  | cancel
  | onSuccess (callback : Callback)
  | onError (callback : Callback)

/-- The next step of a call. -/
inductive FutureThread (Callback : Type) (Value : Outcome → Type) where
  /-- The compare-exchange of `setResult` and `setError`. -/
  | changeState (o : Outcome) (value : Value o)
  | write (o : Outcome) (value : Value o)
  | releaseDone (o : Outcome)
  | cancel
  | releaseCancelled
  /-- The exchange of `onSuccess` and `onError`. -/
  | setCallback (o : Outcome) (callback : Callback)
  | acquireDone (o : Outcome)
  | wait (o : Outcome)
  | checkState (o : Outcome)
  /-- The exchange of `invokeCallback`. -/
  | takeCallback (o : Outcome)
  | invoke (o : Outcome) (callback : Callback)
  | finished

variable {Callback : Type} {Value : Outcome → Type}

namespace FutureImpl

variable (f : FutureImpl Callback Value)

/-- A future that is running. -/
def new : FutureImpl Callback Value := ⟨.running, false, fun _ ↦ none, none, []⟩

/-- The object in the union, if it is of the right type. -/
def get (o : Outcome) : Option (Value o) :=
  match f.data with
  | some ⟨o', value⟩ => if h : o' = o then some (h ▸ value) else none
  | none => none

/-- The callback of an outcome is replaced. -/
def setSlot (o : Outcome) (callback : Option Callback) : FutureImpl Callback Value :=
  { f with callback := Function.update f.callback o callback }

/-- A step of a thread, which may be the thread of the application. -/
def step (isApplicationThread : Bool) (f : FutureImpl Callback Value) :
    FutureThread Callback Value → FutureImpl Callback Value × FutureThread Callback Value
  | .changeState o value =>
    if f.state = .running then ({ f with state := o.state }, .write o value) else (f, .finished)
  | .write o value => ({ f with data := some ⟨o, value⟩ }, .releaseDone o)
  | .releaseDone o => ({ f with done := true }, .takeCallback o)
  | .cancel =>
    if f.state = .running then ({ f with state := .cancelled }, .releaseCancelled)
    else (f, .finished)
  | .releaseCancelled => ({ f with done := true }, .finished)
  | .setCallback o callback => (f.setSlot o callback, .acquireDone o)
  | .acquireDone o => if f.done then (f, .wait o) else (f, .finished)
  -- only the thread of the application waits
  | .wait o => if isApplicationThread && !f.done then (f, .wait o) else (f, .checkState o)
  | .checkState o => if f.state = o.state then (f, .takeCallback o) else (f, .finished)
  | .takeCallback o =>
    match f.callback o with
    | some callback => (f.setSlot o none, .invoke o callback)
    | none => (f, .finished)
  | .invoke o callback =>
    ({ f with invocations := f.invocations ++ [⟨o, callback, f.get o⟩] }, .finished)
  | .finished => (f, .finished)

end FutureImpl

namespace FutureCall

/-- The first step of a call. -/
def start : FutureCall Callback Value → FutureThread Callback Value
  | setResult result => .changeState .success result
  | setError error => .changeState .error error
  | cancel => .cancel
  | onSuccess callback => .setCallback .success callback
  | onError callback => .setCallback .error callback

/-- The call that sets the result or the error. -/
def complete : (o : Outcome) → Value o → FutureCall Callback Value
  | .success, result => .setResult result
  | .error, error => .setError error

end FutureCall

namespace FutureImpl

open FutureCall

/-- The callbacks that are registered for an outcome. -/
def registered (o : Outcome) (calls : List (FutureCall Callback Value)) : List Callback :=
  calls.filterMap fun
    | .onSuccess callback => if o = .success then some callback else none
    | .onError callback => if o = .error then some callback else none
    | _ => none

/-- Some calls on a running future, under a schedule. -/
def run (calls : List (FutureCall Callback Value)) (schedule : List (ℕ × Bool)) :
    System (FutureImpl Callback Value) (FutureThread Callback Value) :=
  System.run step ⟨new, calls.map start⟩ schedule

/-! ## Single steps -/

variable {f : FutureImpl Callback Value} {t t' : FutureThread Callback Value} {x : Bool}
  {o o' : Outcome}

theorem get_eq {value : Value o} (h : f.data = some ⟨o, value⟩) : f.get o = some value := by
  rw [get, h]
  exact dif_pos rfl

theorem state_injective (h : o.state = o'.state) : o = o' := by
  cases o <;> cases o' <;> first | rfl | cases h

theorem state_ne_running (o : Outcome) : o.state ≠ .running := by
  cases o <;> exact FutureState.noConfusion

theorem state_ne_cancelled (o : Outcome) : o.state ≠ .cancelled := by
  cases o <;> exact FutureState.noConfusion

/-- A thread that has changed the state, and not set the flag yet. -/
def Pending : FutureThread Callback Value → Bool
  | .write _ _ => true
  | .releaseDone _ => true
  | .releaseCancelled => true
  | _ => false

/-- **The state** is left once. -/
theorem step_state (h : f.state ≠ .running) : (step x f t).1.state = f.state := by
  cases t with
  | changeState o value => rw [step, if_neg h]
  | cancel => rw [step, if_neg h]
  | acquireDone o => rw [step]; split <;> rfl
  | wait o => rw [step]; split <;> rfl
  | checkState o => rw [step]; split <;> rfl
  | takeCallback o => rw [step]; split <;> rfl
  | _ => rfl

theorem step_done (h : f.done = true) : (step x f t).1.done = true := by
  cases t with
  | changeState o value => rw [step]; split <;> exact h
  | cancel => rw [step]; split <;> exact h
  | releaseDone o => rfl
  | releaseCancelled => rfl
  | acquireDone o => rw [step]; split <;> exact h
  | wait o => rw [step]; split <;> exact h
  | checkState o => rw [step]; split <;> exact h
  | takeCallback o => rw [step]; split <;> exact h
  | _ => exact h

/-- The flag and the union are left alone by the other threads. -/
theorem step_not_pending (h : Pending t = false) :
    (step x f t).1.done = f.done ∧ (step x f t).1.data = f.data := by
  cases t with
  | changeState o value => rw [step]; split <;> exact ⟨rfl, rfl⟩
  | cancel => rw [step]; split <;> exact ⟨rfl, rfl⟩
  | write o value => cases h
  | releaseDone o => cases h
  | releaseCancelled => cases h
  | acquireDone o => rw [step]; split <;> exact ⟨rfl, rfl⟩
  | wait o => rw [step]; split <;> exact ⟨rfl, rfl⟩
  | checkState o => rw [step]; split <;> exact ⟨rfl, rfl⟩
  | takeCallback o => rw [step]; split <;> exact ⟨rfl, rfl⟩
  | _ => exact ⟨rfl, rfl⟩

/-- A step that invokes a callback is the last one of its thread. -/
theorem step_invocations : (step x f t).1.invocations = f.invocations ∨
    ∃ o callback, t = .invoke o callback ∧
      (step x f t).1.invocations = f.invocations ++ [⟨o, callback, f.get o⟩] := by
  cases t with
  | invoke o callback => exact .inr ⟨o, callback, rfl, rfl⟩
  | changeState o value => rw [step]; split <;> exact .inl rfl
  | cancel => rw [step]; split <;> exact .inl rfl
  | acquireDone o => rw [step]; split <;> exact .inl rfl
  | wait o => rw [step]; split <;> exact .inl rfl
  | checkState o => rw [step]; split <;> exact .inl rfl
  | takeCallback o => rw [step]; split <;> exact .inl rfl
  | _ => exact .inl rfl

/-- A thread that changes the state goes on to write the data, unless it has cancelled. -/
theorem step_state_cases : (step x f t).1.state = f.state ∨ (step x f t).1.state = .cancelled ∨
    ∃ o value, (step x f t).1.state = o.state ∧ (step x f t).2 = .write o value := by
  cases t with
  | changeState o value =>
    rw [step]
    split
    · exact .inr (.inr ⟨o, value, rfl, rfl⟩)
    · exact .inl rfl
  | cancel =>
    rw [step]
    split
    · exact .inr (.inl rfl)
    · exact .inl rfl
  | acquireDone o => rw [step]; split <;> exact .inl rfl
  | wait o => rw [step]; split <;> exact .inl rfl
  | checkState o => rw [step]; split <;> exact .inl rfl
  | takeCallback o => rw [step]; split <;> exact .inl rfl
  | _ => exact .inl rfl

/-- A callback in an atomic was there before, or is just registered. -/
theorem step_callback (h : ((step x f t).1.callback o).isSome) :
    (f.callback o).isSome ∨ ∃ callback, t = .setCallback o callback := by
  cases t with
  | setCallback o' callback =>
    by_cases ho : o' = o
    · exact .inr ⟨callback, by rw [ho]⟩
    · rw [step, setSlot] at h
      dsimp only at h
      rw [Function.update_of_ne (Ne.symm ho)] at h
      exact .inl h
  | takeCallback o' =>
    rw [step] at h
    split at h
    · by_cases ho : o' = o
      · subst ho
        simp [setSlot] at h
      · rw [setSlot] at h
        dsimp only at h
        rw [Function.update_of_ne (Ne.symm ho)] at h
        exact .inl h
    · exact .inl h
  | changeState o value => rw [step] at h; split at h <;> exact .inl h
  | cancel => rw [step] at h; split at h <;> exact .inl h
  | acquireDone o => rw [step] at h; split at h <;> exact .inl h
  | wait o => rw [step] at h; split at h <;> exact .inl h
  | checkState o => rw [step] at h; split at h <;> exact .inl h
  | _ => exact .inl h

/-! ## The invariant -/

variable (calls : List (FutureCall Callback Value))

/-- What a thread has found out, or done, already. -/
def Ok (f : FutureImpl Callback Value) : FutureThread Callback Value → Prop
  | .changeState o value => complete o value ∈ calls
  | .write o value => f.state = o.state ∧ complete o value ∈ calls
  | .releaseDone o =>
    f.state = o.state ∧ ∃ value, f.data = some ⟨o, value⟩ ∧ complete o value ∈ calls
  | .releaseCancelled => f.state = .cancelled
  | .wait _ => f.done = true
  | .checkState _ => f.done = true
  | .takeCallback o => f.state = o.state ∧ f.done = true
  | .invoke o _ => f.state = o.state ∧ f.done = true
  | _ => True

/-- A thread that is going to take a callback, if there is one. -/
def Claims (f : FutureImpl Callback Value) (o : Outcome) : FutureThread Callback Value → Prop
  | .write o' _ => o' = o
  | .releaseDone o' => o' = o
  | .takeCallback o' => o' = o
  | .acquireDone o' => o' = o ∧ f.done = true
  | .wait o' => o' = o ∧ f.done = true
  | .checkState o' => o' = o ∧ f.done = true
  | _ => False

/-- The callback that a thread holds. -/
def held (o : Outcome) : FutureThread Callback Value → Option Callback
  | .setCallback o' callback => if o' = o then some callback else none
  | .invoke o' callback => if o' = o then some callback else none
  | _ => none

/-- The callback of an invocation. -/
def invoked (o : Outcome) (i : CallbackInvocation Callback Value) : Option Callback :=
  if i.outcome = o then some i.callback else none

/-- The callbacks for an outcome: those that threads hold, the one in the atomic, and those that
were invoked. -/
def callbacks (o : Outcome) (f : FutureImpl Callback Value)
    (ts : List (FutureThread Callback Value)) : Multiset Callback :=
  ts.filterMap (held o) + (f.callback o).toList + f.invocations.filterMap (invoked o)

structure Invariant (f : FutureImpl Callback Value) (ts : List (FutureThread Callback Value)) :
    Prop where
  running : f.state = .running → f.done = false
  /-- Between the change of the state and the flag there is one thread. -/
  pending : ts.countP Pending = if f.state ≠ .running ∧ f.done = false then 1 else 0
  ok : ∀ t ∈ ts, Ok calls f t
  data : f.done = true → ∀ o, f.state = o.state →
    ∃ value, f.data = some ⟨o, value⟩ ∧ complete o value ∈ calls
  invocations : ∀ i ∈ f.invocations, f.done = true ∧ f.state = i.outcome.state ∧
    ∃ value, i.argument = some value ∧ f.data = some ⟨i.outcome, value⟩
  callbacks : ∀ o, callbacks o f ts = registered o calls
  claimed : ∀ o, (f.callback o).isSome → f.state = o.state → ∃ t ∈ ts, Claims f o t

variable {calls : List (FutureCall Callback Value)} {a b : List (FutureThread Callback Value)}
  {ts : List (FutureThread Callback Value)}

/-- Once the flag is set, nobody is about to set it. -/
theorem Invariant.not_pending_of_done (h : Invariant calls f ts) (hdone : f.done = true) :
    ∀ t ∈ ts, Pending t = false := by
  have hcount := h.pending
  rw [if_neg fun hc ↦ Bool.false_ne_true (hc.2.symm.trans hdone)] at hcount
  exact fun t ht ↦ Bool.eq_false_iff.mpr (List.countP_eq_zero.mp hcount t ht)

theorem Invariant.not_done_of_pending (h : Invariant calls f ts) (ht : t ∈ ts)
    (hpending : Pending t = true) : f.done = false := by
  apply Bool.eq_false_iff.mpr
  intro hdone
  rw [h.not_pending_of_done hdone t ht] at hpending
  cases hpending

/-- The other threads are not pending if one is. -/
theorem Invariant.others (h : Invariant calls f (a ++ t :: b)) (hpending : Pending t = true) :
    ∀ t' ∈ a ++ b, Pending t' = false := by
  have hcount := h.pending
  rw [List.countP_append, List.countP_cons_of_pos hpending, ← Nat.add_assoc,
    ← List.countP_append] at hcount
  have hzero : (a ++ b).countP Pending = 0 := by
    split at hcount
    · exact Nat.succ.inj hcount
    · cases hcount
  exact fun t' ht' ↦ Bool.eq_false_iff.mpr (List.countP_eq_zero.mp hzero t' ht')

/-- What the other threads know stays true. -/
theorem ok_step_other (hok : Ok calls f t') (hothers : Pending t = true → Pending t' = false) :
    Ok calls (step x f t).1 t' := by
  have hstate : ∀ {o : Outcome}, f.state = o.state → (step x f t).1.state = o.state :=
    fun ho ↦ (step_state (ho.symm ▸ state_ne_running _)).trans ho
  cases t' with
  | write o value => exact ⟨hstate hok.1, hok.2⟩
  | releaseDone o =>
    have hpending : Pending t = false := Bool.eq_false_iff.mpr fun hc ↦ by cases hothers hc
    obtain ⟨ho, value, hdata, hvalue⟩ := hok
    exact ⟨hstate ho, value, (step_not_pending hpending).2.trans hdata, hvalue⟩
  | releaseCancelled => exact (step_state (hok.symm ▸ FutureState.noConfusion)).trans hok
  | wait o => exact step_done hok
  | checkState o => exact step_done hok
  | takeCallback o => exact ⟨hstate hok.1, step_done hok.2⟩
  | invoke o callback => exact ⟨hstate hok.1, step_done hok.2⟩
  | _ => exact hok

/-- What a thread finds out. -/
theorem ok_step_self (hok : Ok calls f t) : Ok calls (step x f t).1 (step x f t).2 := by
  cases t with
  | changeState o value =>
    rw [step]
    split
    · exact ⟨rfl, hok⟩
    · trivial
  | write o value => exact ⟨hok.1, value, rfl, hok.2⟩
  | releaseDone o => exact ⟨hok.1, rfl⟩
  | cancel =>
    rw [step]
    split
    · exact rfl
    · trivial
  | acquireDone o =>
    rw [step]
    split
    · rename_i hdone
      exact hdone
    · trivial
  | wait o =>
    rw [step]
    split <;> exact hok
  | checkState o =>
    rw [step]
    split
    · rename_i hstate
      exact ⟨hstate, hok⟩
    · trivial
  | takeCallback o =>
    rw [step]
    split
    · exact hok
    · trivial
  | _ => trivial

theorem Invariant.ok_step (h : Invariant calls f (a ++ t :: b)) :
    ∀ t' ∈ a ++ (step x f t).2 :: b, Ok calls (step x f t).1 t' := by
  intro t' ht'
  have hother : t' ∈ a ++ b → Ok calls (step x f t).1 t' := fun hab ↦
    ok_step_other
      (h.ok t' (List.mem_append.mpr ((List.mem_append.mp hab).imp_right (List.mem_cons_of_mem _))))
      fun hpending ↦ h.others hpending t' hab
  rcases List.mem_append.mp ht' with ha | hcons
  · exact hother (List.mem_append_left _ ha)
  · rcases List.mem_cons.mp hcons with rfl | hb
    · exact ok_step_self (h.ok t (List.mem_append_right _ List.mem_cons_self))
    · exact hother (List.mem_append_right _ hb)

theorem countP_middle (p : FutureThread Callback Value → Bool) :
    (a ++ t :: b).countP p = (a ++ b).countP p + (p t).toNat := by
  rw [List.countP_append, List.countP_cons, ← Nat.add_assoc, ← List.countP_append]
  cases p t <;> rfl

/-- A step changes the state and the flag as it changes what is pending. -/
theorem Invariant.pending_step (h : Invariant calls f (a ++ t :: b)) :
    (a ++ (step x f t).2 :: b).countP Pending =
      if (step x f t).1.state ≠ .running ∧ (step x f t).1.done = false then 1 else 0 := by
  have hcount := h.pending
  rw [countP_middle] at hcount ⊢
  cases t with
  | changeState o value =>
    rw [step]
    by_cases hrunning : f.state = .running
    · rw [if_neg fun hc ↦ hc.1 hrunning] at hcount
      rw [if_pos hrunning, if_pos ⟨state_ne_running o, h.running hrunning⟩]
      exact congrArg Nat.succ hcount
    · rw [if_neg hrunning]
      exact hcount
  | write o value => exact hcount
  | releaseDone o =>
    have hnone : (a ++ b).countP Pending = 0 := by
      change (a ++ b).countP Pending + 1 = _ at hcount
      split at hcount <;> omega
    rw [hnone, if_neg fun hc ↦ Bool.false_ne_true hc.2.symm]
    rfl
  | cancel =>
    rw [step]
    by_cases hrunning : f.state = .running
    · rw [if_neg fun hc ↦ hc.1 hrunning] at hcount
      rw [if_pos hrunning, if_pos ⟨FutureState.noConfusion, h.running hrunning⟩]
      exact congrArg Nat.succ hcount
    · rw [if_neg hrunning]
      exact hcount
  | releaseCancelled =>
    have hnone : (a ++ b).countP Pending = 0 := by
      change (a ++ b).countP Pending + 1 = _ at hcount
      split at hcount <;> omega
    rw [hnone, if_neg fun hc ↦ Bool.false_ne_true hc.2.symm]
    rfl
  | setCallback o callback => exact hcount
  | acquireDone o =>
    rw [step]
    split <;> exact hcount
  | wait o =>
    rw [step]
    split <;> exact hcount
  | checkState o =>
    rw [step]
    split <;> exact hcount
  | takeCallback o =>
    rw [step]
    split <;> exact hcount
  | invoke o callback => exact hcount
  | finished => exact hcount

/-- The flag is set after the state was changed. -/
theorem Invariant.running_step (h : Invariant calls f (a ++ t :: b))
    (hrunning : (step x f t).1.state = .running) : (step x f t).1.done = false := by
  have ht := h.ok t (List.mem_append_right _ List.mem_cons_self)
  have hbefore : f.state = .running := by
    by_contra hc
    exact hc ((step_state hc).symm.trans hrunning)
  have hpending : Pending t = false := by
    cases t with
    | write o value => exact absurd (ht.1.symm.trans hbefore) (state_ne_running o)
    | releaseDone o => exact absurd (ht.1.symm.trans hbefore) (state_ne_running o)
    | releaseCancelled => exact absurd (ht.symm.trans hbefore) FutureState.noConfusion
    | _ => rfl
  exact (step_not_pending hpending).1.trans (h.running hbefore)

/-- **The data is written** before the flag is set. -/
theorem Invariant.data_step (h : Invariant calls f (a ++ t :: b))
    (hdone : (step x f t).1.done = true) (o : Outcome) (hstate : (step x f t).1.state = o.state) :
    ∃ value, (step x f t).1.data = some ⟨o, value⟩ ∧ complete o value ∈ calls := by
  have hmem : t ∈ a ++ t :: b := List.mem_append_right _ List.mem_cons_self
  have ht := h.ok t hmem
  cases hpending : Pending t with
  | false =>
    obtain ⟨hdone', hdata⟩ := step_not_pending (x := x) (f := f) hpending
    rw [hdone'] at hdone
    rw [hdata]
    apply h.data hdone o
    rwa [step_state fun hc ↦ Bool.false_ne_true ((h.running hc).symm.trans hdone)] at hstate
  | true =>
    cases t with
    | write o' value =>
      exact absurd ((h.not_done_of_pending hmem hpending).symm.trans hdone) Bool.false_ne_true
    | releaseDone o' =>
      obtain ⟨hstate', value, hdata⟩ := ht
      obtain rfl := state_injective (hstate'.symm.trans hstate)
      exact ⟨value, hdata⟩
    | releaseCancelled => exact absurd (hstate.symm.trans ht) (state_ne_cancelled o)
    | _ => cases hpending

/-- **A callback is invoked** with the data of its outcome. -/
theorem Invariant.invocations_step (h : Invariant calls f (a ++ t :: b)) :
    ∀ i ∈ (step x f t).1.invocations, (step x f t).1.done = true ∧
      (step x f t).1.state = i.outcome.state ∧
      ∃ value, i.argument = some value ∧ (step x f t).1.data = some ⟨i.outcome, value⟩ := by
  have hmem : t ∈ a ++ t :: b := List.mem_append_right _ List.mem_cons_self
  have ht := h.ok t hmem
  -- those that were invoked before
  have hold : ∀ i ∈ f.invocations, (step x f t).1.done = true ∧
      (step x f t).1.state = i.outcome.state ∧
      ∃ value, i.argument = some value ∧ (step x f t).1.data = some ⟨i.outcome, value⟩ := by
    intro i hi
    obtain ⟨hdone, hstate, value, harg, hdata⟩ := h.invocations i hi
    have hpending := h.not_pending_of_done hdone t hmem
    exact ⟨step_done hdone, (step_state (hstate.symm ▸ state_ne_running _)).trans hstate,
      value, harg, (step_not_pending hpending).2.trans hdata⟩
  intro i hi
  rcases step_invocations (x := x) (f := f) (t := t) with heq | ⟨o, callback, rfl, heq⟩
  · rw [heq] at hi
    exact hold i hi
  · rw [heq] at hi
    rcases List.mem_append.mp hi with hi | hi
    · exact hold i hi
    · obtain rfl := List.mem_singleton.mp hi
      obtain ⟨value, hdata, -⟩ := h.data ht.2 o ht.1
      exact ⟨ht.2, ht.1, value, get_eq hdata, hdata⟩

/-! ## The callbacks -/

theorem callbacks_middle (o : Outcome) : callbacks o f (a ++ t :: b) =
    (held o t).toList + ((a ++ b).filterMap (held o) + (f.callback o).toList +
      f.invocations.filterMap (invoked o)) := by
  have hthreads : ((a ++ t :: b).filterMap (held o) : Multiset Callback) =
      (held o t).toList + (a ++ b).filterMap (held o) := by
    rw [Multiset.coe_add, Multiset.coe_eq_coe]
    apply (List.perm_middle.filterMap (held o)).trans
    cases hheld : held o t <;> simp [hheld]
  rw [callbacks, hthreads, add_assoc, add_assoc, add_assoc]

/-- A thread that registers a callback finds none, if there is just one to register. -/
theorem Invariant.slot_eq_none {callback : Callback}
    (h : Invariant calls f (a ++ .setCallback o callback :: b))
    (hcard : (registered o calls).length ≤ 1) : f.callback o = none := by
  have hcount := congrArg Multiset.card (h.callbacks o)
  rw [callbacks_middle] at hcount
  simp only [held, if_true, Option.toList_some, Multiset.card_add, Multiset.coe_card,
    List.length_singleton] at hcount
  have hnil : (f.callback o).toList = [] := List.length_eq_zero_iff.mp (by omega)
  cases hslot : f.callback o with
  | none => rfl
  | some callback' =>
    rw [hslot] at hnil
    cases hnil

/-- **No callback is lost** or invoked twice: it stays somewhere. -/
theorem Invariant.callbacks_step (h : Invariant calls f (a ++ t :: b))
    (hcard : ∀ o, (registered o calls).length ≤ 1) (o : Outcome) :
    FutureImpl.callbacks o (step x f t).1 (a ++ (step x f t).2 :: b) = registered o calls := by
  rw [← h.callbacks o, callbacks_middle, callbacks_middle]
  generalize (((a ++ b).filterMap (held o) : List Callback) : Multiset Callback) = others
  cases t with
  | setCallback o' callback =>
    by_cases ho : o' = o
    · -- the callback goes from the thread to the atomic
      subst ho
      rw [h.slot_eq_none (hcard o')]
      simp only [step, setSlot, held, if_true, Function.update_self]
      abel
    · simp only [step, setSlot, held, if_neg ho, Function.update_of_ne (Ne.symm ho)]
  | takeCallback o' =>
    rw [step]
    split
    · rename_i callback hcallback
      by_cases ho : o' = o
      · -- it goes back to a thread
        subst ho
        simp only [setSlot, held, if_true, Function.update_self, hcallback]
        abel
      · simp only [setSlot, held, if_neg ho, Function.update_of_ne (Ne.symm ho)]
    · rfl
  | invoke o' callback =>
    by_cases ho : o' = o
    · -- and is invoked
      simp only [step, held, invoked, if_pos ho, List.filterMap_append, List.filterMap_cons,
        List.filterMap_nil, ← Multiset.coe_add, Option.toList_some, Option.toList_none,
        Multiset.coe_nil]
      abel
    · simp only [step, held, invoked, if_neg ho, List.filterMap_append, List.filterMap_cons,
        List.filterMap_nil, List.append_nil]
  | changeState o value => rw [step]; split <;> rfl
  | cancel => rw [step]; split <;> rfl
  | acquireDone o => rw [step]; split <;> rfl
  | wait o => rw [step]; split <;> rfl
  | checkState o => rw [step]; split <;> rfl
  | _ => rfl

/-- A claim is kept. -/
theorem claims_step (hclaims : Claims f o t') : Claims (step x f t).1 o t' := by
  cases t' with
  | acquireDone o' => exact ⟨hclaims.1, step_done hclaims.2⟩
  | wait o' => exact ⟨hclaims.1, step_done hclaims.2⟩
  | checkState o' => exact ⟨hclaims.1, step_done hclaims.2⟩
  | _ => exact hclaims

/-- A thread keeps its claim until it takes the callback. -/
theorem claims_step_self (hclaims : Claims f o t) (hstate : f.state = o.state) :
    ((step x f t).1.callback o).isSome → Claims (step x f t).1 o (step x f t).2 := by
  intro hsome
  cases t with
  | write o' value => exact hclaims
  | releaseDone o' => exact hclaims
  | takeCallback o' =>
    obtain rfl := hclaims
    rw [step] at hsome
    split at hsome
    · simp [setSlot] at hsome
    · rename_i hnone
      rw [hnone] at hsome
      cases hsome
  | acquireDone o' =>
    rw [step, if_pos hclaims.2]
    exact hclaims
  | wait o' =>
    rw [step]
    split <;> exact hclaims
  | checkState o' =>
    obtain ⟨rfl, -⟩ := hclaims
    rw [step, if_pos hstate]
    rfl
  | _ => exact hclaims.elim

/-- While the flag is not set, the thread that is going to set it claims the callback. -/
theorem Invariant.claims_of_not_done (h : Invariant calls f ts) (hstate : f.state = o.state)
    (hdone : f.done = false) : ∃ t ∈ ts, Pending t = true ∧ Claims f o t := by
  have hcount := h.pending
  rw [if_pos ⟨hstate.symm ▸ state_ne_running o, hdone⟩] at hcount
  obtain ⟨t, ht, hpending⟩ := List.countP_pos_iff.mp (hcount.symm ▸ Nat.one_pos)
  have hok := h.ok t ht
  refine ⟨t, ht, hpending, ?_⟩
  cases t with
  | write o' value => exact state_injective (hok.1.symm.trans hstate)
  | releaseDone o' => exact state_injective (hok.1.symm.trans hstate)
  | releaseCancelled => exact absurd (hstate.symm.trans hok) (state_ne_cancelled o)
  | _ => cases hpending

/-- **A callback that is registered will be taken**, if the future ends with its outcome. -/
theorem Invariant.claimed_step (h : Invariant calls f (a ++ t :: b)) (o : Outcome)
    (hsome : ((step x f t).1.callback o).isSome) (hstate : (step x f t).1.state = o.state) :
    ∃ t' ∈ a ++ (step x f t).2 :: b, Claims (step x f t).1 o t' := by
  have hself : (step x f t).2 ∈ a ++ (step x f t).2 :: b :=
    List.mem_append_right _ List.mem_cons_self
  -- a claim by another thread, or by this one
  have hkeep : f.state = o.state → ∀ t' ∈ a ++ t :: b, Claims f o t' →
      ∃ t' ∈ a ++ (step x f t).2 :: b, Claims (step x f t).1 o t' := by
    intro hbefore t' ht' hclaims
    rcases List.mem_append.mp ht' with ha | hcons
    · exact ⟨t', List.mem_append_left _ ha, claims_step hclaims⟩
    · rcases List.mem_cons.mp hcons with rfl | hb
      · exact ⟨_, hself, claims_step_self hclaims hbefore hsome⟩
      · exact ⟨t', List.mem_append_right _ (List.mem_cons_of_mem _ hb), claims_step hclaims⟩
  rcases step_state_cases (x := x) (f := f) (t := t) with hsame | hcancelled | ⟨o', value, ho', heq⟩
  · rw [hsame] at hstate
    cases hdone : f.done with
    | false =>
      obtain ⟨t', ht', -, hclaims⟩ := h.claims_of_not_done hstate hdone
      exact hkeep hstate t' ht' hclaims
    | true =>
      rcases step_callback hsome with hbefore | ⟨callback, rfl⟩
      · obtain ⟨t', ht', hclaims⟩ := h.claimed o hbefore hstate
        exact hkeep hstate t' ht' hclaims
      · -- whoever registers a callback sees the flag
        exact ⟨_, hself, rfl, hdone⟩
  · exact absurd (hstate.symm.trans hcancelled) (state_ne_cancelled o)
  · refine ⟨_, hself, ?_⟩
    rw [heq]
    exact state_injective (ho'.symm.trans hstate)

/-- **A step preserves the invariant**, whichever thread takes it. -/
theorem Invariant.step (h : Invariant calls f (a ++ t :: b))
    (hcard : ∀ o, (registered o calls).length ≤ 1) :
    Invariant calls (FutureImpl.step x f t).1 (a ++ (FutureImpl.step x f t).2 :: b) where
  running := h.running_step
  pending := h.pending_step
  ok := h.ok_step
  data := h.data_step
  invocations := h.invocations_step
  callbacks := h.callbacks_step hcard
  claimed := h.claimed_step

/-! ## Runs -/

theorem invariant_new (calls : List (FutureCall Callback Value)) :
    Invariant calls new (calls.map start) where
  running _ := rfl
  pending := by
    rw [if_neg fun hc ↦ hc.1 rfl]
    apply List.countP_eq_zero.mpr
    intro t ht
    obtain ⟨call, -, rfl⟩ := List.mem_map.mp ht
    cases call <;> exact Bool.false_ne_true
  ok t ht := by
    obtain ⟨call, hcall, rfl⟩ := List.mem_map.mp ht
    cases call with
    | setResult result => exact hcall
    | setError error => exact hcall
    | _ => trivial
  data hdone := absurd hdone Bool.false_ne_true
  invocations i hi := absurd hi List.not_mem_nil
  callbacks o := by
    have hheld : held o ∘ start = fun call : FutureCall Callback Value ↦ match call with
        | .onSuccess callback => if o = .success then some callback else none
        | .onError callback => if o = .error then some callback else none
        | _ => none := by
      funext call
      cases call with
      | onSuccess callback => exact if_congr eq_comm rfl rfl
      | onError callback => exact if_congr eq_comm rfl rfl
      | _ => rfl
    rw [FutureImpl.callbacks, List.filterMap_map, hheld]
    exact (add_zero _).trans (add_zero _)
  claimed o hsome := absurd hsome Bool.false_ne_true

theorem invariant_run (hcard : ∀ o, (registered o calls).length ≤ 1)
    (schedule : List (ℕ × Bool)) :
    Invariant calls (run calls schedule).shared (run calls schedule).threads :=
  System.run_invariant (fun _ _ _ _ _ h ↦ h.step hcard) (invariant_new calls) schedule

/-- A state that is not running is the last one. -/
theorem run_state (schedule schedule' : List (ℕ × Bool))
    (h : (run calls schedule).shared.state ≠ .running) :
    (run calls (schedule ++ schedule')).shared.state = (run calls schedule).shared.state := by
  rw [run, System.run_append]
  refine System.run_invariant
    (P := fun (f : FutureImpl Callback Value) _ ↦ f.state = (run calls schedule).shared.state)
    ?_ rfl schedule'
  exact fun x f _ t _ hf ↦ (step_state (hf.symm ▸ h)).trans hf

/-- All invocations are for the outcome of the future. -/
theorem Invariant.invoked_eq (h : Invariant calls f ts) (hstate : f.state = o.state) :
    f.invocations.filterMap (invoked o) = f.invocations.map (·.callback) := by
  rw [← List.filterMap_eq_map]
  apply List.filterMap_congr
  intro i hi
  obtain ⟨-, hi, -⟩ := h.invocations i hi
  exact if_pos (state_injective (hi.symm.trans hstate))

/-- There is at most one invocation. -/
theorem Invariant.length_invocations_le (h : Invariant calls f ts)
    (hcard : ∀ o, (registered o calls).length ≤ 1) : f.invocations.length ≤ 1 := by
  rcases hinv : f.invocations with _ | ⟨i, is⟩
  · exact Nat.zero_le _
  · obtain ⟨-, hstate, -⟩ := h.invocations i (hinv ▸ List.mem_cons_self)
    have hcount := congrArg Multiset.card (h.callbacks i.outcome)
    have hone := hcard i.outcome
    rw [FutureImpl.callbacks, h.invoked_eq hstate, Multiset.card_add, Multiset.coe_card,
      Multiset.coe_card, List.length_map, hinv] at hcount
    omega

/-- When all calls have finished, the callback for the outcome has been invoked. -/
theorem Invariant.invocations_eq (h : Invariant calls f ts)
    (hcard : ∀ o, (registered o calls).length ≤ 1) (hfinished : ∀ t ∈ ts, t = .finished)
    (hstate : f.state = o.state) {callback : Callback} (hmem : callback ∈ registered o calls) :
    ∃ value, complete o value ∈ calls ∧ f.data = some ⟨o, value⟩ ∧
      f.invocations = [⟨o, callback, some value⟩] := by
  have hregistered : registered o calls = [callback] := by
    obtain ⟨c, hc⟩ := List.length_eq_one_iff.mp
      (le_antisymm (hcard o) (List.length_pos_of_mem hmem))
    rw [hc] at hmem ⊢
    rw [List.mem_singleton.mp hmem]
  have hslot : f.callback o = none := by
    by_contra hc
    obtain ⟨t, ht, hclaims⟩ := h.claimed o (Option.isSome_iff_ne_none.mpr hc) hstate
    rw [hfinished t ht] at hclaims
    exact hclaims
  have hthreads : ts.filterMap (held o) = [] :=
    List.filterMap_eq_nil_iff.mpr fun t ht ↦ by rw [hfinished t ht]; rfl
  have hinvoked := h.callbacks o
  rw [FutureImpl.callbacks, hthreads, hslot, h.invoked_eq hstate, hregistered] at hinvoked
  have hmap : f.invocations.map (·.callback) = [callback] := by
    refine List.perm_singleton.mp (Multiset.coe_eq_coe.mp ?_)
    rw [← hinvoked]
    exact ((congrArg (· + _) (add_zero _)).trans (zero_add _)).symm
  obtain ⟨i, hi, hcallback⟩ := List.map_eq_singleton_iff.mp hmap
  obtain ⟨hdone, hi', value, harg, hdata⟩ := h.invocations i (hi ▸ List.mem_singleton_self i)
  obtain rfl := state_injective (hi'.symm.trans hstate)
  obtain rfl := hcallback
  obtain ⟨value', hdata', hvalue⟩ := h.data hdone i.outcome hstate
  obtain rfl : value' = value := by
    rw [hdata] at hdata'
    injection hdata' with heq
    injection heq with _ heq
    exact heq.symm
  exact ⟨value', hvalue, hdata, by rw [hi, ← harg]⟩

/-- **A future has one outcome**, in every run of any number of calls with at most one registration
for each outcome: the state is left once; no callback is invoked but that of the outcome, once, and
with the data that was written for it; and when all calls have finished, it has been invoked. -/
theorem one_outcome (calls : List (FutureCall Callback Value))
    (hcard : ∀ o, (registered o calls).length ≤ 1) (schedule : List (ℕ × Bool)) :
    (∀ schedule', (run calls schedule).shared.state ≠ .running →
      (run calls (schedule ++ schedule')).shared.state = (run calls schedule).shared.state) ∧
    (run calls schedule).shared.invocations.length ≤ 1 ∧
    (∀ i ∈ (run calls schedule).shared.invocations,
      (run calls schedule).shared.state = i.outcome.state ∧
        ∃ value, i.argument = some value ∧
          (run calls schedule).shared.data = some ⟨i.outcome, value⟩) ∧
    ((∀ t ∈ (run calls schedule).threads, t = .finished) →
      ∀ o, (run calls schedule).shared.state = o.state → ∀ callback ∈ registered o calls,
        ∃ value, complete o value ∈ calls ∧
          (run calls schedule).shared.data = some ⟨o, value⟩ ∧
          (run calls schedule).shared.invocations = [⟨o, callback, some value⟩]) := by
  have h := invariant_run hcard schedule
  refine ⟨run_state schedule, h.length_invocations_le hcard, fun i hi ↦ (h.invocations i hi).2, ?_⟩
  exact fun hfinished o hstate callback hmem ↦ h.invocations_eq hcard hfinished hstate hmem

/-- A result, and a callback for it. -/
def twoCalls : List (FutureCall ℕ fun _ ↦ ℕ) := [.setResult 5, .onSuccess 7]

/-- The callback is registered first, and its thread goes on when the result is set. -/
def race : List (ℕ × Bool) := [1, 0, 0, 0, 1, 1, 1, 0, 1, 0].map (·, true)

example : ∀ t ∈ (run twoCalls race).threads, t = .finished := by
  intro t ht
  have hthreads : (run twoCalls race).threads = [.finished, .finished] := rfl
  rw [hthreads] at ht
  exact List.eq_of_mem_replicate (n := 2) ht

theorem one_outcome_success :
    (∀ schedule', (run twoCalls race).shared.state ≠ .running →
      (run twoCalls (race ++ schedule')).shared.state =
        (run twoCalls race).shared.state) ∧
    (run twoCalls race).shared.invocations.length ≤ 1 ∧
    (∀ i ∈ (run twoCalls race).shared.invocations,
      (run twoCalls race).shared.state = i.outcome.state ∧
        ∃ value, i.argument = some value ∧
          (run twoCalls race).shared.data = some ⟨i.outcome, value⟩) ∧
    ((∀ t ∈ (run twoCalls race).threads, t = .finished) →
      ∀ o, (run twoCalls race).shared.state = o.state → ∀ callback ∈ registered o twoCalls,
        ∃ value, complete o value ∈ twoCalls ∧
          (run twoCalls race).shared.data = some ⟨o, value⟩ ∧
          (run twoCalls race).shared.invocations = [⟨o, callback, some value⟩]) :=
  one_outcome twoCalls (fun o ↦ by cases o <;> decide) race

end FutureImpl

end DuoFirmware.Wiring
