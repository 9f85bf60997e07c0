import DuoFirmware.Services.Runs

/-!
# Timeouts

What becomes of a handler that was added depends on its timeout and on the actions after it, and on
no other handler: `Waiting.run` follows a single handler through them, and `waiting` collects those
that are still waiting after a run. As long as no sum of ticks overflows, these are the handlers of
the container, for which one tick counter, expiration times relative to it and a nearest
expiration time are kept.
-/

namespace DuoFirmware.Services

open ObjectMemory Wiring Pending

variable {K : Type}

/-! ## A handler of its own -/

/-- A handler that is waiting, the ticks it may wait for and those that have passed. -/
structure Waiting (K : Type) where
  key : K
  handler : CompletionHandler
  timeout : ℕ
  elapsed : ℕ

namespace Action

/-- The handler that an action starts to wait for. -/
def starts : Action K → Option (Waiting K)
  | add ok key handler timeout =>
    if ok && handler.isSet then some ⟨key, handler, timeout.toNat, 0⟩ else none
  | _ => none

/-- The ticks that an action lets pass. -/
def passed : Action K → ℕ
  | update ticks => ticks.toNat
  | _ => 0

/-- The 32-bit sum of an action does not overflow, for a tick counter of a container. The sum of
`update` is only computed when there are handlers. -/
def Fits (ticks : UInt32) (idle : Bool) : Action K → Prop
  | add _ _ handler timeout => handler.isSet = true → ticks.toNat + timeout.toNat < 4294967296
  | update t => idle = false → ticks.toNat + t.toNat < 4294967296
  | _ => True

variable [DecidableEq K]

/-- An action completes or takes a waiting handler, or lets it expire. -/
def ends (w : Waiting K) : Action K → Bool
  | update ticks => w.timeout ≤ w.elapsed + ticks.toNat
  | completeAll _ _ => true
  | take key | completeKey key _ _ => w.key = key
  | _ => false

end Action

namespace Waiting

variable [DecidableEq K]

/-- A waiting handler after one more action. -/
def step (a : Action K) (w : Waiting K) : Option (Waiting K) :=
  if a.ends w then none else some { w with elapsed := w.elapsed + a.passed }

/-- A waiting handler after some actions. -/
def run (w : Waiting K) : List (Action K) → Option (Waiting K)
  | [] => some w
  | a :: as => (w.step a).bind fun w' ↦ run w' as

theorem run_concat (w : Waiting K) (as : List (Action K)) (a : Action K) :
    w.run (as ++ [a]) = (w.run as).bind (step a) := by
  induction as generalizing w with
  | nil => exact Option.bind_fun_some ..
  | cons b as ih =>
    rw [List.cons_append, run, run, Option.bind_assoc]
    exact congrArg ((w.step b).bind ·) (funext fun w' ↦ ih w')

end Waiting

variable [DecidableEq K]

/-- The handlers that are waiting after some actions, in the order in which they were added. -/
def waiting : List (Action K) → List (Waiting K)
  | [] => []
  | a :: as => (a.starts.bind fun w ↦ w.run as).toList ++ waiting as

theorem waiting_concat (as : List (Action K)) (a : Action K) :
    waiting (as ++ [a]) = (waiting as).filterMap (Waiting.step a) ++ a.starts.toList := by
  induction as with
  | nil =>
    change (a.starts.bind fun w ↦ some w).toList ++ [] = _
    rw [Option.bind_fun_some, List.append_nil]
    rfl
  | cons b as ih =>
    have hhead : (b.starts.bind fun w ↦ w.run (as ++ [a])).toList =
        (b.starts.bind fun w ↦ w.run as).toList.filterMap (Waiting.step a) := by
      cases b.starts with
      | none => rfl
      | some w =>
        rw [Option.bind_some, Option.bind_some, Waiting.run_concat]
        cases hrun : w.run as with
        | none => rfl
        | some w' =>
          rw [Option.bind_some, Option.toList_some]
          cases hstep : Waiting.step a w' <;> simp [hstep]
    rw [List.cons_append, waiting, waiting, ih, hhead, List.filterMap_append, List.append_assoc]

/-! ## The nearest expiration time -/

omit [DecidableEq K] in
theorem toNat_nearer (t t' : UInt32) : (Handlers.nearer t t').toNat = min t.toNat t'.toNat := by
  rw [Handlers.nearer]
  split
  · rename_i h
    rw [UInt32.lt_iff_toNat_lt] at h
    omega
  · rename_i h
    rw [UInt32.lt_iff_toNat_lt] at h
    omega

omit [DecidableEq K] in
theorem nearest_concat (hs : List (Handler K)) (h : Handler K) :
    nearest (hs ++ [h]) = Handlers.nearer h.ticks (nearest hs) := List.foldl_concat ..

omit [DecidableEq K] in
/-- No handler expires before the nearest expiration time. -/
theorem nearest_le {hs : List (Handler K)} {h : Handler K} (hmem : h ∈ hs) :
    (nearest hs).toNat ≤ h.ticks.toNat := by
  induction hs using List.reverseRecOn with
  | nil => cases hmem
  | append_singleton hs b ih =>
    rw [nearest_concat, toNat_nearer]
    rcases List.mem_append.mp hmem with hmem | hmem
    · have := ih hmem
      omega
    · rw [List.mem_singleton.mp hmem]
      exact Nat.min_le_left ..

/-! ## Containers keep the time -/

/-- The time that is left to a handler of the container is that of a waiting handler. -/
structure InStep (ticks : UInt32) (h : Handler K) (w : Waiting K) : Prop where
  key : h.key = w.key
  handler : h.handler = w.handler
  left : h.ticks.toNat + w.elapsed = ticks.toNat + w.timeout
  elapsed : w.elapsed ≤ w.timeout

/-- The container keeps the time of the waiting handlers. -/
structure Tracks (p : Pending K) (ws : List (Waiting K)) : Prop where
  handlers : List.Forall₂ (InStep p.ticks) p.handlers ws
  nearest : p.timeoutTicks = nearest p.handlers
  idle : p.handlers = [] → p.ticks = 0

omit [DecidableEq K] in
theorem tracks_empty : Tracks (.empty : Pending K) [] := ⟨.nil, rfl, fun _ ↦ rfl⟩

variable {p : Pending K} {ws : List (Waiting K)} {hs : List (Handler K)} {t n : UInt32}

/-- Handlers that an action neither ends nor lets wait. -/
theorem filterMap_step_eq {a : Action K} (h : ∀ w : Waiting K, a.ends w = false)
    (hpassed : a.passed = 0) : ws.filterMap (Waiting.step a) = ws := by
  have hstep : Waiting.step a = some := funext fun w ↦ by
    rw [Waiting.step, h w, hpassed]
    rfl
  rw [hstep, List.filterMap_some]

omit [DecidableEq K] in
theorem Tracks.add (h : Tracks p ws) (key : K) (handler : CompletionHandler) (timeout : UInt32)
    (hfits : p.ticks.toNat + timeout.toNat < 4294967296) :
    Tracks ⟨p.handlers ++ [⟨key, handler, p.ticks + timeout⟩],
      Handlers.nearer (p.ticks + timeout) p.timeoutTicks, p.ticks⟩
      (ws ++ [⟨key, handler, timeout.toNat, 0⟩]) := by
  refine ⟨List.rel_append h.handlers (.cons ⟨rfl, rfl, ?_, Nat.zero_le _⟩ .nil), ?_, fun hc ↦ ?_⟩
  · change (p.ticks + timeout).toNat + 0 = _
    rw [UInt32.toNat_add, Nat.mod_eq_of_lt hfits]
    rfl
  · rw [nearest_concat, ← h.nearest]
  · exact absurd hc (List.append_ne_nil_of_right_ne_nil _ (List.cons_ne_nil _ _))

/-- The handlers that an update ends are those that are due. -/
theorem InStep.ends_iff {h : Handler K} {w : Waiting K} (hw : InStep t h w)
    (hfits : t.toNat + n.toNat < 4294967296) :
    (Action.update n).ends w = true ↔ t + n ≥ h.ticks := by
  have hleft := hw.left
  have helapsed := hw.elapsed
  rw [Action.ends, decide_eq_true_eq, ge_iff_le, UInt32.le_iff_toNat_le, UInt32.toNat_add,
    Nat.mod_eq_of_lt hfits]
  omega

theorem forall₂_rebased (h : List.Forall₂ (InStep t) hs ws)
    (hfits : t.toNat + n.toNat < 4294967296) : List.Forall₂ (InStep 0) (rebased hs (t + n))
      (ws.filterMap (Waiting.step (.update n))) := by
  induction h with
  | nil => exact .nil
  | @cons b w hs ws hw _ ih =>
    have hends := hw.ends_iff (n := n) hfits
    by_cases hdue : t + n ≥ b.ticks
    · rw [rebased_cons_of_le hs hdue,
        List.filterMap_cons_none (by rw [Waiting.step, if_pos (hends.mpr hdue)])]
      exact ih
    · have hnot : ¬ (Action.update n).ends w = true := fun hc ↦ hdue (hends.mp hc)
      rw [rebased_cons_of_lt hs hdue,
        List.filterMap_cons_some (by rw [Waiting.step, if_neg hnot])]
      refine .cons ⟨hw.key, hw.handler, ?_, ?_⟩ ih
      · have hleft := hw.left
        have hlt : t + n ≤ b.ticks := by
          rw [ge_iff_le, UInt32.le_iff_toNat_le, not_le] at hdue
          exact UInt32.le_iff_toNat_le.mpr hdue.le
        change (b.ticks - (t + n)).toNat + (w.elapsed + n.toNat) = 0 + w.timeout
        rw [UInt32.toNat_sub_of_le _ _ hlt, UInt32.toNat_add, Nat.mod_eq_of_lt hfits]
        rw [UInt32.le_iff_toNat_le, UInt32.toNat_add, Nat.mod_eq_of_lt hfits] at hlt
        omega
      · rw [Action.ends, decide_eq_true_eq, not_le] at hnot
        exact hnot.le

/-- While nothing is due the handlers stay as they are. -/
theorem forall₂_later (h : List.Forall₂ (InStep t) hs ws)
    (hfits : t.toNat + n.toNat < 4294967296) (hdue : ∀ h ∈ hs, ¬ t + n ≥ h.ticks) :
    List.Forall₂ (InStep (t + n)) hs (ws.filterMap (Waiting.step (.update n))) := by
  induction h with
  | nil => exact .nil
  | @cons b w hs ws hw _ ih =>
    have hnot : ¬ (Action.update n).ends w = true := fun hc ↦
      hdue b List.mem_cons_self ((hw.ends_iff hfits).mp hc)
    rw [List.filterMap_cons_some (by rw [Waiting.step, if_neg hnot])]
    refine .cons ⟨hw.key, hw.handler, ?_, ?_⟩ (ih fun h hh ↦ hdue h (List.mem_cons_of_mem _ hh))
    · have hleft := hw.left
      change b.ticks.toNat + (w.elapsed + n.toNat) = _ + w.timeout
      rw [UInt32.toNat_add, Nat.mod_eq_of_lt hfits]
      omega
    · rw [Action.ends, decide_eq_true_eq, not_le] at hnot
      exact hnot.le

/-- The due handlers, and what they log. -/
theorem invokeAll_due (h : List.Forall₂ (InStep t) hs ws)
    (hfits : t.toNat + n.toNat < 4294967296) (error : ℤ) (arg : Option Ptr) :
    invokeAll (due hs (t + n)) error arg =
      (ws.filter (Action.update n).ends).flatMap fun w ↦ w.handler.invoke error arg := by
  induction h with
  | nil => rfl
  | @cons b w hs ws hw _ ih =>
    have hends := hw.ends_iff (n := n) hfits
    by_cases hdue : t + n ≥ b.ticks
    · have hf : (w :: ws).filter (Action.update n).ends = w :: ws.filter (Action.update n).ends :=
        List.filter_cons_of_pos (hends.mpr hdue)
      rw [due_cons_of_le hs hdue, hf, invokeAll_cons, List.flatMap_cons, ih, hw.handler]
    · have hf : (w :: ws).filter (Action.update n).ends = ws.filter (Action.update n).ends :=
        List.filter_cons_of_neg fun hc ↦ hdue (hends.mp hc)
      rw [due_cons_of_lt hs hdue, hf, ih]

/-- **An update** ends the handlers whose time has come, and no others. -/
theorem Tracks.update (h : Tracks p ws)
    (hfits : p.handlers.isEmpty = false → p.ticks.toNat + n.toNat < 4294967296) :
    Tracks (p.update n).2.1 (ws.filterMap (Waiting.step (.update n))) ∧
      (p.update n).2.2 = (ws.filter (Action.update n).ends).flatMap fun w ↦
        w.handler.invoke SystemError.timeout none := by
  rw [Pending.update]
  by_cases hnil : p.handlers = []
  · have hws : ws = [] := by
      have := h.handlers
      rw [hnil, List.forall₂_nil_left_iff] at this
      exact this
    subst hws
    rw [if_pos hnil]
    exact ⟨h, rfl⟩
  replace hfits := hfits (by rwa [List.isEmpty_eq_false_iff])
  rw [if_neg hnil]
  by_cases hdue : p.ticks + n ≥ p.timeoutTicks
  · rw [if_pos hdue]
    exact ⟨⟨forall₂_rebased h.handlers hfits, rfl, fun _ ↦ rfl⟩,
      invokeAll_due h.handlers hfits ..⟩
  · rw [if_neg hdue]
    -- no handler is due before the nearest expiration time
    have hnone : ∀ b ∈ p.handlers, ¬ p.ticks + n ≥ b.ticks := by
      intro b hb hc
      have hle := nearest_le hb
      rw [← h.nearest] at hle
      rw [ge_iff_le, UInt32.le_iff_toNat_le] at hdue hc
      omega
    refine ⟨⟨forall₂_later h.handlers hfits hnone, h.nearest, fun hc ↦ absurd hc hnil⟩, ?_⟩
    rw [← invokeAll_due h.handlers hfits, due, List.filter_eq_nil_iff.mpr]
    · rfl
    · simpa using hnone

/-- An action that ends the handlers with a key. -/
theorem forall₂_withoutKey (h : List.Forall₂ (InStep t) hs ws) (key : K) {a : Action K}
    (hends : ∀ w : Waiting K, a.ends w = decide (w.key = key)) (hpassed : a.passed = 0) :
    List.Forall₂ (InStep t) (withoutKey hs key) (ws.filterMap (Waiting.step a)) := by
  induction h with
  | nil => exact .nil
  | @cons b w hs ws hw _ ih =>
    by_cases hkey : b.key = key
    · have hend : a.ends w = true := by rw [hends, ← hw.key, decide_eq_true hkey]
      rw [withoutKey_cons_of_eq hs hkey,
        List.filterMap_cons_none (by rw [Waiting.step, if_pos hend])]
      exact ih
    · have hend : ¬ a.ends w = true := by
        rw [hends, ← hw.key, decide_eq_true_eq]
        exact hkey
      rw [withoutKey_cons_of_ne hs hkey,
        List.filterMap_cons_some (by rw [Waiting.step, if_neg hend, hpassed])]
      exact .cons hw ih

theorem Tracks.take (h : Tracks p ws) (key : K) {a : Action K}
    (hends : ∀ w : Waiting K, a.ends w = decide (w.key = key)) (hpassed : a.passed = 0) :
    Tracks (p.takeHandler key).2.1 (ws.filterMap (Waiting.step a)) := by
  have hrest := forall₂_withoutKey h.handlers key hends hpassed
  rw [Pending.takeHandler]
  by_cases hempty : withKey p.handlers key ≠ [] ∧ withoutKey p.handlers key = []
  · rw [hempty.2] at hrest
    refine ⟨?_, rfl, fun _ ↦ if_pos hempty⟩
    simp only [hempty.2]
    rw [List.forall₂_nil_left_iff] at hrest ⊢
    exact hrest
  · refine ⟨?_, rfl, fun hnil ↦ ?_⟩ <;> simp only [if_neg hempty]
    · exact hrest
    · -- nothing was left, and nothing taken: there was nothing
      refine h.idle (eq_nil_of_withKey (not_not.mp fun hc ↦ hempty ⟨hc, hnil⟩) hnil)

/-- **One action.** -/
theorem Tracks.perform {l : Ledger K} (h : Tracks l.pending ws) (a : Action K)
    (hfits : a.Fits l.pending.ticks l.pending.handlers.isEmpty) :
    Tracks (a.perform l).pending (ws.filterMap (Waiting.step a) ++ a.starts.toList) := by
  cases a with
  | add ok key handler timeout =>
    rw [filterMap_step_eq (fun _ ↦ rfl) rfl]
    simp only [Action.perform, Pending.addHandler, Action.starts]
    cases hset : handler.isSet with
    | false =>
      rw [Bool.and_false, if_neg Bool.false_ne_true, if_neg Bool.false_ne_true, Option.toList_none,
        List.append_nil]
      exact h
    | true =>
      cases ok with
      | false =>
        simp only [if_true, Bool.and_true, Bool.false_eq_true, if_false, Option.toList_none,
          List.append_nil]
        exact h
      | true => exact h.add key handler timeout (hfits hset)
  | completeAll error arg =>
    have hnone : ws.filterMap (Waiting.step (.completeAll error arg)) = [] :=
      List.filterMap_eq_nil_iff.mpr fun _ _ ↦ rfl
    rw [hnone]
    exact tracks_empty
  | take key =>
    change Tracks _ (_ ++ [])
    rw [List.append_nil]
    exact h.take key (fun _ ↦ rfl) rfl
  | completeKey key error arg =>
    change Tracks _ (_ ++ [])
    rw [List.append_nil]
    exact h.take key (fun _ ↦ rfl) rfl
  | update ticks =>
    change Tracks _ (_ ++ [])
    rw [List.append_nil]
    exact (h.update hfits).1
  | completeTaken i error arg =>
    change Tracks _ (_ ++ [])
    rw [List.append_nil, filterMap_step_eq (fun _ ↦ rfl) rfl, Action.perform]
    cases l.taken[i]? <;> exact h
  | dropTaken i =>
    change Tracks _ (_ ++ [])
    rw [List.append_nil, filterMap_step_eq (fun _ ↦ rfl) rfl, Action.perform]
    cases l.taken[i]? <;> exact h

/-! ## Runs -/

omit [DecidableEq K] in
theorem Matches.isEmpty_eq {s : Machine K} {l : Ledger K} (h : Matches s l) :
    s.container.handlers.isEmpty = l.pending.handlers.isEmpty := by
  rw [Vector.isEmpty, h.pending.elements.size]
  cases l.pending.handlers <;> rfl

namespace Calls

variable {Op : Type} {I : Calls K Op} {s : Machine K} {l : Ledger K}

/-- The 32-bit sum that a call computes does not overflow. -/
def Fits (I : Calls K Op) (s : Machine K) (op : Op) : Prop :=
  (I.action (I.succeeds s op) op).Fits s.container.ticks s.container.handlers.isEmpty

/-- **A run keeps the time**, after any actions before it. -/
theorem run_tracks (before : List (Action K)) {ops : List Op} (h : Matches s l)
    (htracks : Tracks l.pending (waiting before)) (hfits : I.Along I.Fits s ops) :
    ∃ s' l', I.run s ops = some s' ∧ Matches s' l' ∧
      Tracks l'.pending (waiting (before ++ I.actions s ops)) := by
  induction ops generalizing s l before with
  | nil => exact ⟨s, l, rfl, h, by rwa [actions, List.append_nil]⟩
  | cons op ops ih =>
    obtain ⟨hop, hops⟩ := hfits
    obtain ⟨s₁, hperform, h₁, -⟩ := I.spec h op
    rw [Fits, h.pending.ticks, h.isEmpty_eq] at hop
    have htracks₁ := htracks.perform _ hop
    rw [← waiting_concat] at htracks₁
    obtain ⟨s', l', hrun, h', htracks'⟩ := ih _ h₁ htracks₁ (hops s₁ hperform)
    refine ⟨s', l', by rw [run, hperform, Option.bind_some, hrun], h', ?_⟩
    rw [List.append_assoc] at htracks'
    rw [actions, hperform]
    exact htracks'

/-- The handlers in the container are those that are waiting, and an update completes those whose
time has come. -/
theorem update_log (I : Calls K Op) (ops : List Op) (op : Op) (n : UInt32)
    (hop : ∀ ok, I.action ok op = .update n) (hfits : I.Along I.Fits .new (ops ++ [op])) :
    ∃ s s' hs, I.run .new ops = some s ∧ I.perform s op = some s' ∧
      s.container.handlers.Elements s.memory hs ∧
      List.Forall₂ (fun h w ↦ h.key = w.key ∧ h.handler = w.handler) hs
        (waiting (I.actions .new ops)) ∧
      s'.memory.log = s.memory.log ++
        ((waiting (I.actions .new ops)).filter fun w ↦ w.timeout ≤ w.elapsed + n.toNat).flatMap
          fun w ↦ w.handler.invoke SystemError.timeout none := by
  obtain ⟨s₀, hrun₀, -⟩ := I.run_spec matches_new ops
  obtain ⟨hbefore, hlast, -⟩ := (along_append hrun₀).mp hfits
  obtain ⟨s, l, hrun, h, htracks⟩ := run_tracks [] matches_new tracks_empty hbefore
  obtain rfl : s₀ = s := Option.some.inj (hrun₀.symm.trans hrun)
  obtain ⟨s', hperform, h', -⟩ := I.spec h op
  rw [Fits, hop, h.pending.ticks, h.isEmpty_eq] at hlast
  rw [hop] at h'
  refine ⟨s₀, s', l.pending.handlers, hrun, hperform, h.pending.elements,
    htracks.handlers.imp fun _ _ hw ↦ ⟨hw.key, hw.handler⟩, ?_⟩
  rw [h'.log, h.log]
  exact congrArg (l.log ++ ·) (htracks.update hlast).2

end Calls

/-- **Timeouts.** After any calls on a list or a map in which no 32-bit sum of ticks overflows, the
handlers in the container are those that were added, not completed or taken since, and whose
timeout was longer than the ticks passed so far, after every update since they were added. The next
update completes with a timeout those for which the ticks passed now reach the timeout, in the
order in which they were added, and no others. -/
theorem update_completes_due :
    (∀ (ops : List CompletionHandlerList.Op) (n : UInt32),
      CompletionHandlerList.calls.Along CompletionHandlerList.calls.Fits .new
        (ops ++ [.update n]) →
      ∃ s s' hs, CompletionHandlerList.calls.run .new ops = some s ∧
        CompletionHandlerList.Op.perform s (.update n) = some s' ∧
        s.container.handlers.Elements s.memory hs ∧
        List.Forall₂ (fun h w ↦ h.key = w.key ∧ h.handler = w.handler) hs
          (waiting (CompletionHandlerList.calls.actions .new ops)) ∧
        s'.memory.log = s.memory.log ++ ((waiting (CompletionHandlerList.calls.actions .new
          ops)).filter fun w ↦ w.timeout ≤ w.elapsed + n.toNat).flatMap
            fun w ↦ w.handler.invoke SystemError.timeout none) ∧
    ∀ (K : Type) [DecidableEq K] (ops : List (CompletionHandlerMap.Op K)) (n : UInt32),
      (CompletionHandlerMap.calls K).Along (CompletionHandlerMap.calls K).Fits .new
        (ops ++ [.update n]) →
      ∃ s s' hs, (CompletionHandlerMap.calls K).run .new ops = some s ∧
        CompletionHandlerMap.Op.perform s (.update n) = some s' ∧
        s.container.handlers.Elements s.memory hs ∧
        List.Forall₂ (fun h w ↦ h.key = w.key ∧ h.handler = w.handler) hs
          (waiting ((CompletionHandlerMap.calls K).actions .new ops)) ∧
        s'.memory.log = s.memory.log ++ ((waiting ((CompletionHandlerMap.calls K).actions .new
          ops)).filter fun w ↦ w.timeout ≤ w.elapsed + n.toNat).flatMap
            fun w ↦ w.handler.invoke SystemError.timeout none :=
  ⟨fun ops n ↦ Calls.update_log _ ops (.update n) n fun _ ↦ rfl,
    fun K _ ops n ↦ Calls.update_log (CompletionHandlerMap.calls K) ops (.update n) n fun _ ↦ rfl⟩

/-- A handler that may wait for five ticks, after three and two more. -/
theorem update_completes_due_fiveTicks :
    let ops : List CompletionHandlerList.Op := [.addHandler (some 0) ⟨some 1, 2⟩ 5, .update 3]
    ∃ s s' hs, CompletionHandlerList.calls.run .new ops = some s ∧
      CompletionHandlerList.Op.perform s (.update 2) = some s' ∧
      s.container.handlers.Elements s.memory hs ∧
      List.Forall₂ (fun h w ↦ h.key = w.key ∧ h.handler = w.handler) hs
        (waiting (CompletionHandlerList.calls.actions .new ops)) ∧
      s'.memory.log = s.memory.log ++ ((waiting (CompletionHandlerList.calls.actions .new
        ops)).filter fun w ↦ w.timeout ≤ w.elapsed + (2 : UInt32).toNat).flatMap
          fun w ↦ w.handler.invoke SystemError.timeout none := by
  refine update_completes_due.1 _ _ ⟨fun _ ↦ by decide, ?_⟩
  rintro s ⟨⟩
  refine ⟨fun _ ↦ by decide, ?_⟩
  rintro s ⟨⟩
  exact ⟨fun _ ↦ by decide, fun _ _ ↦ trivial⟩

end DuoFirmware.Services
