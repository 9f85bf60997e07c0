import DuoFirmware.Services.Timeouts

/-!
# The tick counters of the containers

The counter of a container starts at zero again when a handler expires, and when no handler is left.
A list therefore never counts beyond its nearest expiration time, which is at most a timeout away
from zero. A map can have its nearest handler taken, and then goes on counting towards the next one;
so its counter grows without bound when requests overlap and are answered in time.
-/

namespace DuoFirmware.Services

open ObjectMemory Wiring Pending

variable {K : Type} {p : Pending K} {bound : ℕ} {n : UInt32}

/-- Timeouts and the arguments of `update` are at most a minute. -/
def Action.UpToMinute : Action K → Prop
  | add _ _ _ timeout => timeout.toNat ≤ 60000
  | update ticks => ticks.toNat ≤ 60000
  | _ => True

/-- The counter stays below a bound that some handler expires by. -/
structure Clocked (bound : ℕ) (p : Pending K) : Prop where
  idle : p.handlers = [] → p.ticks = 0
  nearest : p.timeoutTicks = nearest p.handlers
  near : ∀ h ∈ p.handlers, h.ticks.toNat ≤ p.ticks.toNat + 60000
  soon : p.handlers ≠ [] → ∃ h ∈ p.handlers, h.ticks.toNat ≤ bound
  ticks : p.ticks.toNat < bound

theorem clocked_empty (h : 0 < bound) : Clocked bound (.empty : Pending K) :=
  ⟨fun _ ↦ rfl, rfl, fun _ h ↦ absurd h List.not_mem_nil, fun h ↦ absurd rfl h, h⟩

theorem Clocked.add (h : Clocked bound p) (hbound : 60000 ≤ bound) (hmax : bound ≤ 4294907296)
    (key : K) (handler : CompletionHandler) (timeout : UInt32) (htimeout : timeout.toNat ≤ 60000) :
    Clocked bound ⟨p.handlers ++ [⟨key, handler, p.ticks + timeout⟩],
      Handlers.nearer (p.ticks + timeout) p.timeoutTicks, p.ticks⟩ := by
  have hticks := h.ticks
  have hsum : (p.ticks + timeout).toNat = p.ticks.toNat + timeout.toNat := by
    rw [UInt32.toNat_add, Nat.mod_eq_of_lt (by omega)]
  refine ⟨fun hc ↦ ?_, ?_, fun b hb ↦ ?_, fun _ ↦ ?_, hticks⟩
  · exact absurd hc (List.append_ne_nil_of_right_ne_nil _ (List.cons_ne_nil _ _))
  · rw [nearest_concat, ← h.nearest]
  · rcases List.mem_append.mp hb with hb | hb
    · exact h.near b hb
    · rw [List.mem_singleton.mp hb]
      change (p.ticks + timeout).toNat ≤ p.ticks.toNat + 60000
      omega
  · by_cases hnil : p.handlers = []
    · -- the counter is at zero, and the new handler expires soon
      refine ⟨⟨key, handler, p.ticks + timeout⟩, by simp, ?_⟩
      change (p.ticks + timeout).toNat ≤ bound
      rw [hsum, h.idle hnil]
      exact (Nat.zero_add _).trans_le (htimeout.trans hbound)
    · obtain ⟨b, hb, hle⟩ := h.soon hnil
      exact ⟨b, List.mem_append_left _ hb, hle⟩

/-- An expiration that is rebased is at most a minute away. -/
theorem rebased_le {h : Handler K} (hnear : ∀ h ∈ p.handlers, h.ticks.toNat ≤ p.ticks.toNat + 60000)
    (hfits : p.ticks.toNat + n.toNat < 4294967296)
    (hmem : h ∈ rebased p.handlers (p.ticks + n)) : h.ticks.toNat ≤ 60000 := by
  obtain ⟨b, hb, rfl⟩ := List.mem_map.mp hmem
  obtain ⟨hb, hlate⟩ := List.mem_filter.mp hb
  have hle := hnear b hb
  have hlt : p.ticks + n ≤ b.ticks := by
    rw [decide_eq_true_eq, ge_iff_le, UInt32.le_iff_toNat_le, not_le] at hlate
    exact UInt32.le_iff_toNat_le.mpr hlate.le
  change (b.ticks - (p.ticks + n)).toNat ≤ 60000
  rw [UInt32.toNat_sub_of_le _ _ hlt, UInt32.toNat_add, Nat.mod_eq_of_lt hfits]
  omega

theorem Clocked.update (h : Clocked bound p) (hbound : 60000 ≤ bound) (hmax : bound ≤ 4294907296)
    (hn : n.toNat ≤ 60000) : Clocked bound (p.update n).2.1 := by
  have hticks := h.ticks
  have hfits : p.ticks.toNat + n.toNat < 4294967296 := by omega
  rw [Pending.update]
  by_cases hnil : p.handlers = []
  · rw [if_pos hnil]
    exact h
  rw [if_neg hnil]
  by_cases hdue : p.ticks + n ≥ p.timeoutTicks
  · rw [if_pos hdue]
    -- the counter starts again, and what is left expires within a minute
    have hleft : ∀ h ∈ rebased p.handlers (p.ticks + n), h.ticks.toNat ≤ 60000 :=
      fun b hb ↦ rebased_le h.near hfits hb
    refine ⟨fun _ ↦ rfl, rfl, fun b hb ↦ (hleft b hb).trans (Nat.le_add_left ..), fun hne ↦ ?_,
      (Nat.succ_pos 59999).trans_le hbound⟩
    obtain ⟨b, hb⟩ := List.exists_mem_of_ne_nil _ hne
    exact ⟨b, hb, (hleft b hb).trans hbound⟩
  · rw [if_neg hdue]
    have hsum : (p.ticks + n).toNat = p.ticks.toNat + n.toNat := by
      rw [UInt32.toNat_add, Nat.mod_eq_of_lt hfits]
    refine ⟨fun hc ↦ absurd hc hnil, h.nearest, fun b hb ↦ ?_, h.soon, ?_⟩
    · have := h.near b hb
      change b.ticks.toNat ≤ (p.ticks + n).toNat + 60000
      omega
    · -- the counter is still below the nearest expiration time
      obtain ⟨b, hb, hle⟩ := h.soon hnil
      have hnearest := nearest_le hb
      rw [← h.nearest] at hnearest
      rw [ge_iff_le, UInt32.le_iff_toNat_le, not_le] at hdue
      exact Nat.lt_of_lt_of_le hdue (hnearest.trans hle)

variable [DecidableEq K]

/-- When the handlers with a key are taken, none is left or one of the others expires by the
bound. -/
def KeepsNear (bound : ℕ) (hs : List (Handler K)) (key : K) : Prop :=
  withoutKey hs key = [] ∨ ∃ h ∈ withoutKey hs key, h.ticks.toNat ≤ bound

theorem Clocked.take (h : Clocked bound p) {key : K} (hkeep : KeepsNear bound p.handlers key) :
    Clocked bound (p.takeHandler key).2.1 := by
  have hticks := h.ticks
  rw [Pending.takeHandler]
  by_cases hempty : withKey p.handlers key ≠ [] ∧ withoutKey p.handlers key = []
  · rw [if_pos hempty, hempty.2]
    exact clocked_empty (Nat.zero_lt_of_lt hticks)
  · rw [if_neg hempty]
    refine ⟨fun hnil ↦ ?_, rfl, fun b hb ↦ h.near b (List.mem_of_mem_filter hb), fun hne ↦ ?_,
      hticks⟩
    · exact h.idle (eq_nil_of_withKey (not_not.mp fun hc ↦ hempty ⟨hc, hnil⟩) hnil)
    · exact hkeep.resolve_left hne

/-- The condition on an action, given the handlers. -/
def Action.KeepsNear (bound : ℕ) (hs : List (Handler K)) : Action K → Prop
  | take key | completeKey key _ _ => Services.KeepsNear bound hs key
  | _ => True

/-- **One action** keeps the counter below its bound, and computes its sums without overflow. -/
theorem Clocked.perform {l : Ledger K} (h : Clocked bound l.pending) (hbound : 60000 ≤ bound)
    (hmax : bound ≤ 4294907296) {a : Action K} (ha : a.UpToMinute)
    (hkeep : a.KeepsNear bound l.pending.handlers) : Clocked bound (a.perform l).pending ∧
      a.Fits l.pending.ticks l.pending.handlers.isEmpty := by
  have hticks := h.ticks
  cases a with
  | add ok key handler timeout =>
    have hle : timeout.toNat ≤ 60000 := ha
    refine ⟨?_, fun _ ↦ by omega⟩
    simp only [Action.perform, Pending.addHandler]
    cases handler.isSet with
    | false => exact h
    | true =>
      cases ok with
      | false => exact h
      | true => exact h.add hbound hmax key handler timeout ha
  | completeAll error arg => exact ⟨clocked_empty (Nat.zero_lt_of_lt hticks), trivial⟩
  | take key => exact ⟨h.take hkeep, trivial⟩
  | completeKey key error arg => exact ⟨h.take hkeep, trivial⟩
  | update ticks =>
    have hle : ticks.toNat ≤ 60000 := ha
    exact ⟨h.update hbound hmax ha, fun _ ↦ by omega⟩
  | completeTaken i error arg =>
    refine ⟨?_, trivial⟩
    rw [Action.perform]
    cases l.taken[i]? <;> exact h
  | dropTaken i =>
    refine ⟨?_, trivial⟩
    rw [Action.perform]
    cases l.taken[i]? <;> exact h

/-! ## Runs -/

namespace Calls

variable {Op : Type} {I : Calls K Op} {s : Machine K} {l : Ledger K}

/-- The timeout, or the argument of `update`, of a call is at most a minute. -/
def UpToMinute (I : Calls K Op) (op : Op) : Prop := ∀ ok, (I.action ok op).UpToMinute

/-- A call, where it is made, keeps a handler near. -/
def KeepsNear (I : Calls K Op) (bound : ℕ) (s : Machine K) (op : Op) : Prop :=
  ∀ hs, s.container.handlers.Elements s.memory hs →
    (I.action (I.succeeds s op) op).KeepsNear bound hs

/-- **A run** keeps the counter below its bound. -/
theorem run_clocked {ops : List Op} (h : Matches s l) (hclocked : Clocked bound l.pending)
    (hbound : 60000 ≤ bound) (hmax : bound ≤ 4294907296) (hops : ∀ op ∈ ops, I.UpToMinute op)
    (hkeep : I.Along (I.KeepsNear bound) s ops) : ∃ s' l', I.run s ops = some s' ∧
      Matches s' l' ∧ Clocked bound l'.pending := by
  induction ops generalizing s l with
  | nil => exact ⟨s, l, rfl, h, hclocked⟩
  | cons op ops ih =>
    obtain ⟨hop, hrest⟩ := hkeep
    obtain ⟨s₁, hperform, h₁, -⟩ := I.spec h op
    obtain ⟨hclocked₁, -⟩ := hclocked.perform hbound hmax (hops op List.mem_cons_self _)
      (hop _ h.pending.elements)
    obtain ⟨s', l', hrun, h', hclocked'⟩ := ih h₁ hclocked₁
      (fun op' hop' ↦ hops op' (List.mem_cons_of_mem _ hop')) (hrest s₁ hperform)
    exact ⟨s', l', by rw [run, hperform, Option.bind_some, hrun], h', hclocked'⟩

/-- Behind such a run no sum of ticks overflows. -/
theorem fits_of_run {ops : List Op} {op : Op} (hbound : 60000 ≤ bound) (hmax : bound ≤ 4294907296)
    (hops : ∀ o ∈ ops ++ [op], I.UpToMinute o)
    (hkeep : I.Along (I.KeepsNear bound) .new ops) :
    ∃ s, I.run .new ops = some s ∧ I.Fits s op := by
  obtain ⟨s, l, hrun, h, hclocked⟩ := run_clocked matches_new
    (clocked_empty (Nat.zero_lt_of_lt hbound)) hbound hmax
    (fun o ho ↦ hops o (List.mem_append_left _ ho)) hkeep
  refine ⟨s, hrun, ?_⟩
  have hticks := hclocked.ticks
  have hop := hops op (List.mem_append_right _ (List.mem_singleton_self op)) (I.succeeds s op)
  rw [Fits, h.pending.ticks, h.isEmpty_eq]
  revert hop
  cases I.action (I.succeeds s op) op with
  | add ok key handler timeout =>
    intro (hle : timeout.toNat ≤ 60000) _
    omega
  | update ticks =>
    intro (hle : ticks.toNat ≤ 60000) _
    omega
  | _ => exact fun _ ↦ trivial

end Calls

/-- A call on a list takes nothing. -/
theorem CompletionHandlerList.along_keepsNear (s : Machine Unit)
    (ops : List CompletionHandlerList.Op) : calls.Along (calls.KeepsNear bound) s ops := by
  induction ops generalizing s with
  | nil => trivial
  | cons op ops ih =>
    refine ⟨fun hs _ ↦ ?_, fun s' _ ↦ ih s'⟩
    cases op <;> trivial

/-- **The counters do not wrap** as long as timeouts and updates are at most a minute: those of a
list never, and that of a map when each call that takes the handlers with a key leaves none, or one
that expires by 4294907296 ticks of the counter. -/
theorem fits_of_keepsNear (K : Type) [DecidableEq K] :
    (∀ (ops : List CompletionHandlerList.Op) (op : CompletionHandlerList.Op),
      (∀ o ∈ ops ++ [op], CompletionHandlerList.calls.UpToMinute o) →
      ∃ s, CompletionHandlerList.calls.run .new ops = some s ∧
        CompletionHandlerList.calls.Fits s op) ∧
    ∀ (ops : List (CompletionHandlerMap.Op K)) (op : CompletionHandlerMap.Op K),
      (∀ o ∈ ops ++ [op], (CompletionHandlerMap.calls K).UpToMinute o) →
      (CompletionHandlerMap.calls K).Along ((CompletionHandlerMap.calls K).KeepsNear 4294907296)
        .new ops →
      ∃ s, (CompletionHandlerMap.calls K).run .new ops = some s ∧
        (CompletionHandlerMap.calls K).Fits s op :=
  ⟨fun ops _ hops ↦ Calls.fits_of_run (le_refl 60000) (by decide) hops
      (CompletionHandlerList.along_keepsNear _ ops),
    fun _ _ hops hkeep ↦ Calls.fits_of_run (by decide) (le_refl 4294907296) hops hkeep⟩

/-- A handler is taken from an empty map, and one is added and expires. -/
theorem fits_of_keepsNear_emptyMap : ∃ s,
    (CompletionHandlerMap.calls UInt16).run .new
      [.takeHandler 1, .addHandler none 1 ⟨some 1, 0⟩ 60000, .update 60000] = some s ∧
    (CompletionHandlerMap.calls UInt16).Fits s (.addHandler none 2 ⟨some 1, 0⟩ 60000) := by
  refine (fits_of_keepsNear UInt16).2 _ _ (fun o ho ↦ ?_)
    ⟨fun hs h ↦ ?_, fun _ _ ↦ ⟨fun _ _ ↦ trivial,
      fun _ _ ↦ ⟨fun _ _ ↦ trivial, fun _ _ ↦ trivial⟩⟩⟩
  · simp only [List.cons_append, List.nil_append, List.mem_cons, List.not_mem_nil, or_false] at ho
    rcases ho with rfl | rfl | rfl | rfl <;> intro ok
    · trivial
    · exact (by decide : (60000 : UInt32).toNat ≤ 60000)
    · exact (by decide : (60000 : UInt32).toNat ≤ 60000)
    · exact (by decide : (60000 : UInt32).toNat ≤ 60000)
  · have hnil : hs = [] := List.length_eq_zero_iff.mp h.size.symm
    exact .inl (by rw [hnil]; rfl)

/-! ## A map whose counter wraps -/

namespace CompletionHandlerMap

/-- A second handler is added before the first one is taken, and a bit less than a minute passes. -/
def overlap (a b : UInt16) : List (Op UInt16) :=
  [.addHandler none b ⟨some 1, 0⟩ 60000, .takeHandler a, .update 59999]

/-- This happens again and again. -/
def overlaps : ℕ → UInt16 → UInt16 → List (Op UInt16)
  | 0, _, _ => []
  | n + 1, a, b => overlap a b ++ overlaps n b a

/-- In the beginning there are three handlers for a moment, which makes the vector large enough. -/
def firstCalls : List (Op UInt16) :=
  [.addHandler (some 0) 1 ⟨some 1, 0⟩ 60000, .addHandler (some 1) 2 ⟨some 1, 0⟩ 60000,
    .addHandler (some 3) 3 ⟨some 1, 0⟩ 60000, .takeHandler 2, .takeHandler 3, .update 59999]

/-- A single handler expires with the next tick. -/
def single (key : UInt16) (t : UInt32) : Pending UInt16 := ⟨[⟨key, ⟨some 1, 0⟩, t + 1⟩], t + 1, t⟩

variable {s : Machine UInt16} {l : Ledger UInt16} {a b : UInt16} {t : UInt32}

/-- A call while the vector has room for another handler. -/
theorem perform_of_room (h : Matches s l) (hcap : s.container.handlers.capacity = 3)
    (hlen : l.pending.handlers.length ≤ 2) (op : Op UInt16) : ∃ s',
      (calls UInt16).perform s op = some s' ∧ Matches s' ((op.action true).perform l) ∧
        s'.container.handlers.capacity = 3 := by
  have hroom : s.HasRoom := by
    rw [Machine.HasRoom, hcap, h.pending.elements.size]
    omega
  obtain ⟨s', hrun, h', hkeep⟩ := (calls UInt16).spec h op
  obtain ⟨hcap', heq⟩ := hkeep hroom
  rw [heq] at h'
  exact ⟨s', hrun, h', hcap'.trans hcap⟩

theorem nearest_singleton (h : Handler UInt16) : nearest [h] = h.ticks := by
  apply UInt32.toNat_inj.mp
  have := h.ticks.toNat_lt
  change (Handlers.nearer h.ticks maxTimeout).toNat = _
  rw [toNat_nearer]
  exact Nat.min_eq_left (Nat.le_of_lt_succ this)

/-- A handler is added behind the nearest one. -/
theorem add_single (ht : t.toNat + 60000 < 4294967296) :
    ((single a t).addHandler true b ⟨some 1, 0⟩ 60000).2.1 =
      ⟨[⟨a, ⟨some 1, 0⟩, t + 1⟩, ⟨b, ⟨some 1, 0⟩, t + 60000⟩], t + 1, t⟩ := by
  have hnear : ¬ t + 60000 < t + 1 := by
    rw [UInt32.lt_iff_toNat_lt, UInt32.toNat_add, UInt32.toNat_add, not_lt]
    change (t.toNat + 1) % 4294967296 ≤ (t.toNat + 60000) % 4294967296
    rw [Nat.mod_eq_of_lt ht, Nat.mod_eq_of_lt (by omega)]
    omega
  change Pending.mk _ (Handlers.nearer (t + 60000) (t + 1)) t = _
  rw [Handlers.nearer, if_neg hnear]
  rfl

/-- The nearest handler is taken, and the counter stays. -/
theorem take_nearest (hne : a ≠ b) (u u' : UInt32) :
    (Pending.takeHandler (⟨[⟨a, ⟨some 1, 0⟩, u⟩, ⟨b, ⟨some 1, 0⟩, u'⟩], u, t⟩ : Pending UInt16)
      a).2.1 = ⟨[⟨b, ⟨some 1, 0⟩, u'⟩], u', t⟩ := by
  have hrest : withoutKey [(⟨a, ⟨some 1, 0⟩, u⟩ : Handler UInt16), ⟨b, ⟨some 1, 0⟩, u'⟩] a =
      [⟨b, ⟨some 1, 0⟩, u'⟩] := by
    simp [withoutKey, hne.symm]
  simp only [Pending.takeHandler, hrest, nearest_singleton]
  rw [if_neg fun hc ↦ List.cons_ne_nil _ _ hc.2]

/-- The counter is a tick away from the handler that is left. -/
theorem update_single (ht : t.toNat + 60000 < 4294967296) :
    (Pending.update (⟨[⟨b, ⟨some 1, 0⟩, t + 60000⟩], t + 60000, t⟩ : Pending UInt16) 59999).2.1 =
      single b (t + 59999) := by
  have hearly : ¬ t + 59999 ≥ t + 60000 := by
    rw [ge_iff_le, UInt32.le_iff_toNat_le, UInt32.toNat_add, UInt32.toNat_add, not_le]
    change (t.toNat + 59999) % 4294967296 < (t.toNat + 60000) % 4294967296
    rw [Nat.mod_eq_of_lt ht, Nat.mod_eq_of_lt (by omega)]
    omega
  rw [Pending.update, if_neg (List.cons_ne_nil _ _), if_neg hearly, single, UInt32.add_assoc]
  rfl

/-- **The counter goes on**: the handler that was nearest is gone when its time comes. -/
theorem run_overlap (h : Matches s l) (hcap : s.container.handlers.capacity = 3)
    (hpending : l.pending = single a t) (hne : a ≠ b) (ht : t.toNat + 60000 < 4294967296) :
    ∃ s' l', (calls UInt16).run s (overlap a b) = some s' ∧ Matches s' l' ∧
      s'.container.handlers.capacity = 3 ∧ l'.pending = single b (t + 59999) := by
  obtain ⟨s₁, hrun₁, m₁, hcap₁⟩ := perform_of_room h hcap
    (by rw [hpending]; exact Nat.le_succ 1) (.addHandler none b ⟨some 1, 0⟩ 60000)
  have hp₁ : (((Op.addHandler none b ⟨some 1, 0⟩ 60000).action true).perform l).pending =
      ⟨[⟨a, ⟨some 1, 0⟩, t + 1⟩, ⟨b, ⟨some 1, 0⟩, t + 60000⟩], t + 1, t⟩ := by
    rw [← add_single ht, ← hpending]
    rfl
  generalize ((Op.addHandler none b ⟨some 1, 0⟩ 60000).action true).perform l = l₁ at m₁ hp₁
  obtain ⟨s₂, hrun₂, m₂, hcap₂⟩ := perform_of_room m₁ hcap₁
    (by rw [hp₁]; exact Nat.le_refl 2) (.takeHandler a)
  have hp₂ : (((Op.takeHandler a).action true).perform l₁).pending =
      ⟨[⟨b, ⟨some 1, 0⟩, t + 60000⟩], t + 60000, t⟩ := by
    rw [← take_nearest hne (t + 1) (t + 60000), ← hp₁]
    rfl
  generalize ((Op.takeHandler a).action true).perform l₁ = l₂ at m₂ hp₂
  obtain ⟨s₃, hrun₃, m₃, hcap₃⟩ := perform_of_room m₂ hcap₂
    (by rw [hp₂]; exact Nat.le_succ 1) (.update 59999)
  refine ⟨s₃, _, ?_, m₃, hcap₃, ?_⟩
  · rw [overlap, Calls.run, hrun₁, Option.bind_some, Calls.run, hrun₂, Option.bind_some,
      Calls.run, hrun₃]
    rfl
  · rw [← update_single ht, ← hp₂]
    rfl

theorem run_overlaps {n : ℕ} (h : Matches s l) (hcap : s.container.handlers.capacity = 3)
    (hpending : l.pending = single a t) (hne : a ≠ b)
    (ht : t.toNat + 59999 * n + 1 < 4294967296) : ∃ s' l' key t',
      (calls UInt16).run s (overlaps n a b) = some s' ∧ Matches s' l' ∧
        l'.pending = single key t' ∧ t'.toNat = t.toNat + 59999 * n := by
  induction n generalizing s l a b t with
  | zero =>
    refine ⟨s, l, a, t, ?_, h, hpending, ?_⟩
    · rw [overlaps, Calls.run]
    · rw [Nat.mul_zero, Nat.add_zero]
  | succ n ih =>
    have hnear : t.toNat + 60000 < 4294967296 := by linarith
    obtain ⟨s₁, l₁, hrun₁, h₁, hcap₁, hpending₁⟩ := run_overlap h hcap hpending hne hnear
    have hsum : (t + 59999).toNat = t.toNat + 59999 := by
      rw [UInt32.toNat_add]
      exact Nat.mod_eq_of_lt (Nat.lt_of_succ_lt hnear)
    have hlater : (t + 59999).toNat + 59999 * n + 1 < 4294967296 := by linarith
    obtain ⟨s', l', key, t', hrun, h', hpending', ht'⟩ := ih h₁ hcap₁ hpending₁ hne.symm hlater
    refine ⟨s', l', key, t', ?_, h', hpending', by linarith⟩
    rw [overlaps, Calls.run_append, hrun₁, Option.bind_some, hrun]

/-- The first calls leave a single handler, and room for two others. -/
theorem run_first : ∃ s l, (calls UInt16).run .new firstCalls = some s ∧ Matches s l ∧
    s.container.handlers.capacity = 3 ∧ l.pending = single 1 59999 := by
  obtain ⟨s, hrun, h⟩ := (calls UInt16).run_spec matches_new firstCalls
  have hcap :
      ((calls UInt16).run .new firstCalls).map (·.container.handlers.capacity) = some 3 := by
    decide +kernel
  rw [hrun, Option.map_some, Option.some.injEq] at hcap
  refine ⟨s, _, hrun, h, hcap, ?_⟩
  have hhandlers : (Ledger.new.run ((calls UInt16).actions .new firstCalls)).pending.handlers =
      (single 1 59999).handlers := by decide +kernel
  have hticks : (Ledger.new.run ((calls UInt16).actions .new firstCalls)).pending.ticks =
      59999 := by decide +kernel
  have htimeout : (Ledger.new.run ((calls UInt16).actions .new firstCalls)).pending.timeoutTicks =
      60000 := by decide +kernel
  generalize (Ledger.new.run ((calls UInt16).actions .new firstCalls)).pending = p at *
  cases p
  subst hhandlers hticks htimeout
  rfl

/-- The counter behind some overlaps. -/
theorem run_firstCalls {n : ℕ} (hn : 59999 * (n + 1) + 1 < 4294967296) : ∃ s l key t,
    (calls UInt16).run .new (firstCalls ++ overlaps n 1 2) = some s ∧ Matches s l ∧
      l.pending = single key t ∧ t.toNat = 59999 * (n + 1) := by
  obtain ⟨s₁, l₁, hrun₁, h₁, hcap, hpending⟩ := run_first
  have ht : (59999 : UInt32).toNat = 59999 := by decide
  obtain ⟨s, l, key, t, hrun, h, hl, ht'⟩ :=
    run_overlaps (n := n) h₁ hcap hpending (b := 2) (by decide) (by linarith)
  refine ⟨s, l, key, t, ?_, h, hl, by linarith⟩
  rw [Calls.run_append, hrun₁, Option.bind_some, hrun]

theorem upToMinute_overlaps {n : ℕ} (a b : UInt16) :
    ∀ o ∈ overlaps n a b, (calls UInt16).UpToMinute o := by
  induction n generalizing a b with
  | zero => exact fun _ ho ↦ absurd ho List.not_mem_nil
  | succ n ih =>
    intro o ho
    rcases List.mem_append.mp ho with ho | ho
    · simp only [overlap, List.mem_cons, List.not_mem_nil, or_false] at ho
      rcases ho with rfl | rfl | rfl <;> intro ok
      · exact (by decide : (60000 : UInt32).toNat ≤ 60000)
      · trivial
      · exact (by decide : (59999 : UInt32).toNat ≤ 60000)
    · exact ih b a o ho

theorem upToMinute_firstCalls : ∀ o ∈ firstCalls, (calls UInt16).UpToMinute o := by
  intro o ho
  simp only [firstCalls, List.mem_cons, List.not_mem_nil, or_false] at ho
  rcases ho with rfl | rfl | rfl | rfl | rfl | rfl <;> intro ok
  · exact (by decide : (60000 : UInt32).toNat ≤ 60000)
  · exact (by decide : (60000 : UInt32).toNat ≤ 60000)
  · exact (by decide : (60000 : UInt32).toNat ≤ 60000)
  · trivial
  · trivial
  · exact (by decide : (59999 : UInt32).toNat ≤ 60000)

/-- After 71582 overlaps the counter is so large that the next sum overflows. -/
theorem not_fits_overlaps :
    (∀ o ∈ firstCalls ++ overlaps 71582 1 2 ++ [.addHandler none 4 ⟨some 1, 0⟩ 60000],
      (calls UInt16).UpToMinute o) ∧
    ∃ s, (calls UInt16).run .new (firstCalls ++ overlaps 71582 1 2) = some s ∧
      ¬ (calls UInt16).Fits s (.addHandler none 4 ⟨some 1, 0⟩ 60000) := by
  constructor
  · intro o ho
    rcases List.mem_append.mp ho with ho | ho
    · rcases List.mem_append.mp ho with ho | ho
      · exact upToMinute_firstCalls o ho
      · exact upToMinute_overlaps 1 2 o ho
    · rw [List.mem_singleton.mp ho]
      intro ok
      exact (by decide : (60000 : UInt32).toNat ≤ 60000)
  · have hn : 59999 * (71582 + 1) + 1 < 4294967296 := by norm_num
    obtain ⟨s, l, key, t, hrun, h, hpending, ht⟩ := run_firstCalls hn
    refine ⟨s, hrun, fun hc ↦ ?_⟩
    have hsum := hc rfl
    rw [h.pending.ticks, hpending] at hsum
    change t.toNat + 60000 < 4294967296 at hsum
    omega

end CompletionHandlerMap

end DuoFirmware.Services
