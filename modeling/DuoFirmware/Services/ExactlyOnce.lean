import DuoFirmware.Services.Runs

/-!
# Exactly-once completion

Every callback that is handed to a container is accounted for: it has been invoked, or its handler
is still in the container, or in a handler that was taken from it. No action changes the balance.
When the container and the handlers taken from it are gone, only invocations are left.
-/

namespace DuoFirmware.Services

open ObjectMemory Wiring Pending

variable {K : Type}

/-! ## Accounts -/

/-- Whose callback it is. -/
def Invocation.who (i : Invocation) : Ptr × Ptr := (i.callback, i.callbackData)

/-- The callbacks that some handlers still have to invoke. -/
def owedAll (hs : List (Handler K)) : List (Ptr × Ptr) := hs.flatMap fun h ↦ h.handler.owed

@[simp] theorem CompletionHandler.map_who_invoke (h : CompletionHandler) (error : ℤ)
    (arg : Option Ptr) : (h.invoke error arg).map Invocation.who = h.owed := by
  rw [invoke, owed]
  cases h.callback <;> rfl

@[simp] theorem CompletionHandler.map_who_delete (h : CompletionHandler) :
    h.delete.map Invocation.who = h.owed := h.map_who_invoke ..

@[simp] theorem CompletionHandler.owed_movedFrom (h : CompletionHandler) : h.movedFrom.owed = [] :=
  rfl

theorem CompletionHandler.owed_of_not_isSet {h : CompletionHandler} (hset : h.isSet = false) :
    h.owed = [] := by
  rw [isSet, Option.isSome_eq_false_iff, Option.isNone_iff_eq_none] at hset
  rw [owed, hset]

@[simp] theorem map_who_invokeAll (hs : List (Handler K)) (error : ℤ) (arg : Option Ptr) :
    (invokeAll hs error arg).map Invocation.who = owedAll hs := by
  rw [invokeAll, owedAll, List.map_flatMap]
  exact congrArg (hs.flatMap ·) (funext fun h ↦ h.handler.map_who_invoke ..)

theorem owedAll_append (hs hs' : List (Handler K)) :
    owedAll (hs ++ hs') = owedAll hs ++ owedAll hs' := List.flatMap_append

theorem owedAll_singleton (h : Handler K) : owedAll [h] = h.handler.owed :=
  List.flatMap_singleton ..

/-- Handlers split by a condition owe together what they owe. -/
theorem count_owedAll_filter (q : Handler K → Prop) [DecidablePred q] (hs : List (Handler K))
    (w : Ptr × Ptr) : (owedAll (hs.filter fun h ↦ q h)).count w +
      (owedAll (hs.filter fun h ↦ ¬ q h)).count w = (owedAll hs).count w := by
  have hperm := (List.filter_append_perm (fun h ↦ decide (q h)) hs).flatMap_right
    fun h ↦ h.handler.owed
  rw [List.flatMap_append] at hperm
  have hcount := hperm.count_eq w
  rw [List.count_append] at hcount
  simp only [decide_not]
  exact hcount

theorem owedAll_rebased (hs : List (Handler K)) (now : UInt32) :
    owedAll (rebased hs now) = owedAll (hs.filter fun h ↦ ¬ now ≥ h.ticks) := List.flatMap_map ..

/-- A handler that was taken, with those around it. -/
theorem exists_of_getElem? {hs : List CompletionHandler} {i : ℕ} {h : CompletionHandler}
    (hi : hs[i]? = some h) : ∃ as bs, hs = as ++ h :: bs ∧ as.length = i := by
  obtain ⟨hlt, rfl⟩ := List.getElem?_eq_some_iff.mp hi
  refine ⟨hs.take i, hs.drop (i + 1), ?_, List.length_take_of_le hlt.le⟩
  rw [List.getElem_cons_drop, List.take_append_drop]

/-! ## The balance -/

/-- Each callback was invoked as often as it was handed over and is not owed any more. -/
def Ledger.Balanced (l : Ledger K) : Prop := ∀ w, (l.log.map Invocation.who).count w +
  (owedAll l.pending.handlers).count w + (l.taken.flatMap CompletionHandler.owed).count w =
    l.handed.count w

theorem balanced_new : Ledger.Balanced (.new : Ledger K) := fun _ ↦ rfl

variable {l : Ledger K}

theorem Ledger.count_addHandler (l : Ledger K) (ok : Bool) (key : K) (handler : CompletionHandler)
    (timeout : UInt32) (w : Ptr × Ptr) :
    ((l.pending.addHandler ok key handler timeout).2.2.map Invocation.who).count w +
      (owedAll (l.pending.addHandler ok key handler timeout).2.1.handlers).count w =
    (owedAll l.pending.handlers).count w + handler.owed.count w := by
  rw [Pending.addHandler]
  cases hset : handler.isSet with
  | false =>
    rw [CompletionHandler.owed_of_not_isSet hset]
    exact Nat.add_comm ..
  | true =>
    cases ok with
    | false =>
      simp only [if_true, Bool.false_eq_true, if_false, CompletionHandler.map_who_delete]
      exact Nat.add_comm ..
    | true =>
      simp only [if_true, owedAll_append, List.count_append, List.map_nil, List.count_nil,
        Nat.zero_add, owedAll_singleton]

theorem count_update (p : Pending K) (ticks : UInt32) (w : Ptr × Ptr) :
    ((p.update ticks).2.2.map Invocation.who).count w +
      (owedAll (p.update ticks).2.1.handlers).count w = (owedAll p.handlers).count w := by
  rw [Pending.update]
  by_cases hnil : p.handlers = []
  · rw [if_pos hnil]
    exact Nat.zero_add _
  rw [if_neg hnil]
  by_cases hdue : p.ticks + ticks ≥ p.timeoutTicks
  · rw [if_pos hdue]
    simp only [map_who_invokeAll, owedAll_rebased]
    exact count_owedAll_filter (fun h ↦ p.ticks + ticks ≥ h.ticks) p.handlers w
  · rw [if_neg hdue]
    exact Nat.zero_add _

variable [DecidableEq K]

theorem count_takeHandler (p : Pending K) (key : K) (w : Ptr × Ptr) :
    ((p.takeHandler key).2.2.map Invocation.who).count w + (p.takeHandler key).1.owed.count w +
      (owedAll (p.takeHandler key).2.1.handlers).count w = (owedAll p.handlers).count w := by
  have hsplit := count_owedAll_filter (fun h ↦ h.key = key) p.handlers w
  change (owedAll (withKey p.handlers key)).count w +
      (owedAll (withoutKey p.handlers key)).count w =
    _ at hsplit
  rw [Pending.takeHandler, ← hsplit]
  simp only [map_who_invokeAll, Nat.add_right_cancel_iff]
  cases hlast : (withKey p.handlers key).getLast? with
  | none =>
    rw [List.getLast?_eq_none_iff] at hlast
    rw [hlast]
    rfl
  | some h =>
    -- the last one is taken and the others are invoked
    conv_rhs => rw [← List.dropLast_append_getLast? h hlast, owedAll_append, List.count_append]
    rw [Option.map_some, Option.getD_some, owedAll_singleton]

/-- **No action changes the balance.** -/
theorem Action.balanced (a : Action K) (h : l.Balanced) : (a.perform l).Balanced := by
  intro w
  have hw := h w
  cases a with
  | add ok key handler timeout =>
    have hadd := l.count_addHandler ok key handler timeout w
    simp only [perform, List.map_append, List.count_append]
    omega
  | completeAll error arg =>
    simp only [perform, List.map_append, List.count_append, map_who_invokeAll]
    change _ + _ + 0 + _ = _
    omega
  | take key =>
    have htake := count_takeHandler l.pending key w
    simp only [perform, List.map_append, List.count_append, List.flatMap_append,
      List.flatMap_singleton]
    omega
  | completeKey key error arg =>
    have htake := count_takeHandler l.pending key w
    simp only [perform, List.map_append, List.count_append, CompletionHandler.map_who_invoke]
    omega
  | update ticks =>
    have hupdate := count_update l.pending ticks w
    simp only [perform, List.map_append, List.count_append]
    omega
  | completeTaken i error arg =>
    rw [perform]
    cases hi : l.taken[i]? with
    | none => exact hw
    | some t =>
      obtain ⟨as, bs, htaken, hlen⟩ := exists_of_getElem? hi
      rw [htaken] at hw
      simp only [htaken, ← hlen, List.set_append_right _ _ le_rfl, Nat.sub_self, List.set_cons_zero,
        List.map_append, List.count_append, List.flatMap_append, List.flatMap_cons,
        CompletionHandler.map_who_invoke, CompletionHandler.owed_movedFrom, List.count_nil] at hw ⊢
      omega
  | dropTaken i =>
    rw [perform]
    cases hi : l.taken[i]? with
    | none => exact hw
    | some t =>
      obtain ⟨as, bs, htaken, hlen⟩ := exists_of_getElem? hi
      rw [htaken] at hw
      simp only [htaken, ← hlen, List.eraseIdx_append_of_length_le le_rfl, Nat.sub_self,
        List.eraseIdx_cons_zero, List.map_append, List.count_append, List.flatMap_append,
        List.flatMap_cons, CompletionHandler.map_who_delete] at hw ⊢
      omega

theorem Ledger.Balanced.run (h : l.Balanced) (as : List (Action K)) : (l.run as).Balanced := by
  induction as generalizing l with
  | nil => exact h
  | cons a as ih => exact ih (a.balanced h)

/-! ## The end -/

/-- The container is destroyed; whatever is called after that is called on another one. -/
def Machine.destroyContainer (s : Machine K) : Option (Machine K) :=
  (s.container.delete s.memory).map fun r ↦ { s with container := .new, memory := r.2 }

/-- The handlers that were taken are destroyed. -/
def Machine.destroyTaken (s : Machine K) : Machine K :=
  { s with
    taken := []
    memory := ⟨s.memory.slots, s.memory.log ++ s.taken.flatMap CompletionHandler.delete⟩ }

omit [DecidableEq K] in
theorem Machine.destroyContainer_spec {s : Machine K} (h : Matches s l) (hbal : l.Balanced) :
    ∃ s' l', s.destroyContainer = some s' ∧ Matches s' l' ∧ l'.Balanced ∧
      l'.pending.handlers = [] ∧ l'.taken = l.taken := by
  refine ⟨{ s with
    container := .new
    memory := ⟨fun _ ↦ none, s.memory.log ++ l.pending.handlers.flatMap Handler.object.destroy⟩ },
    { l with
    pending := .empty
    log := l.log ++ invokeAll l.pending.handlers SystemError.internal none }, ?_,
    ⟨?_, h.taken, ?_, h.handed⟩, fun w ↦ ?_, rfl, rfl⟩
  · rw [destroyContainer, Handlers.delete, Vector.delete, Vector.destruct_spec h.pending.elements]
    rfl
  · exact ⟨⟨rfl, rfl, le_rfl⟩, rfl, rfl⟩
  · change s.memory.log ++ _ = _
    rw [h.log]
    rfl
  · have hw := hbal w
    simp only [List.map_append, List.count_append, map_who_invokeAll]
    change _ + _ + 0 + _ = _
    omega

/-- Nothing is ever taken from a list. -/
theorem CompletionHandlerList.taken_run (s : Machine Unit) (l : Ledger Unit)
    (ops : List CompletionHandlerList.Op) : (l.run (calls.actions s ops)).taken = l.taken := by
  induction ops generalizing s l with
  | nil => rfl
  | cons op ops ih =>
    have hop : ((op.action (op.succeeds s)).perform l).taken = l.taken := by cases op <;> rfl
    rw [Calls.actions]
    cases calls.perform s op with
    | none => exact hop
    | some s' => exact (ih s' _).trans hop

omit [DecidableEq K] in
theorem Machine.destroyTaken_log (s : Machine K) : s.destroyTaken.memory.log.map Invocation.who =
    s.memory.log.map Invocation.who ++ s.taken.flatMap CompletionHandler.owed := by
  rw [destroyTaken, List.map_append, List.map_flatMap]
  exact congrArg (_ ++ s.taken.flatMap ·) (funext fun h ↦ h.map_who_delete)

/-- **Every callback is invoked exactly once**: after any calls on a list or a map, from which
handlers were taken and used in between and may still be used when the container is gone, and in
which any allocation may have failed, the callbacks that were invoked until everything is destroyed
are those that were handed over, each as often as it was. -/
theorem exactly_once :
    (∀ ops : List CompletionHandlerList.Op, ∃ s,
      (CompletionHandlerList.calls.run .new ops).bind Machine.destroyContainer = some s ∧
        (s.memory.log.map Invocation.who).Perm s.handed) ∧
    ∀ (K : Type) [DecidableEq K] (ops later : List (CompletionHandlerMap.Op K)), ∃ s,
      (((CompletionHandlerMap.calls K).run .new ops).bind Machine.destroyContainer).bind
        (fun s ↦ ((CompletionHandlerMap.calls K).run s later).bind Machine.destroyContainer) =
          some s ∧
        (s.destroyTaken.memory.log.map Invocation.who).Perm s.destroyTaken.handed := by
  constructor
  · intro ops
    obtain ⟨s₁, hrun, h₁⟩ := Calls.run_spec (I := CompletionHandlerList.calls) matches_new ops
    obtain ⟨s, l, hdestroy, h, hbal, hnil, htaken⟩ :=
      Machine.destroyContainer_spec h₁ (balanced_new.run _)
    refine ⟨s, by rw [hrun, Option.bind_some, hdestroy], List.perm_iff_count.mpr fun w ↦ ?_⟩
    have hw := hbal w
    rw [hnil, htaken, CompletionHandlerList.taken_run, ← h.log, ← h.handed] at hw
    exact hw
  · intro K _ ops later
    obtain ⟨s₁, hrun, h₁⟩ := Calls.run_spec (I := CompletionHandlerMap.calls K) matches_new ops
    obtain ⟨s₂, l₂, hdestroy, h₂, hbal₂, -, -⟩ :=
      Machine.destroyContainer_spec h₁ (balanced_new.run _)
    obtain ⟨s₃, hrun', h₃⟩ := Calls.run_spec (I := CompletionHandlerMap.calls K) h₂ later
    obtain ⟨s, l, hdestroy', h, hbal, hnil, -⟩ :=
      Machine.destroyContainer_spec h₃ (hbal₂.run _)
    refine ⟨s, ?_, List.perm_iff_count.mpr fun w ↦ ?_⟩
    · rw [hrun, Option.bind_some, hdestroy, Option.bind_some, hrun', Option.bind_some, hdestroy']
    · have hw := hbal w
      rw [hnil, ← h.log, ← h.taken, ← h.handed] at hw
      rw [Machine.destroyTaken_log, List.count_append]
      exact hw

end DuoFirmware.Services
