import DuoFirmware.Services.Timeouts

/-!
# The nearest expiration time

`update` looks at the handlers only when the nearest expiration time has come, and `nearestTimeout`
subtracts the tick counter from it. Both rest on the cached time, which is lowered, computed again
or reset by each of the functions.
-/

namespace DuoFirmware.Services

open ObjectMemory Wiring Pending

variable {K : Type}

/-- The cached expiration time is that of the handler that expires first, none expires before the
tick counter, and a container without handlers starts from zero. -/
structure Cached (c : Handlers) (hs : List (Handler K)) : Prop where
  le : ∀ h ∈ hs, c.timeoutTicks ≤ h.ticks
  attained : hs ≠ [] → ∃ h ∈ hs, h.ticks = c.timeoutTicks
  maxTimeout : hs = [] → c.timeoutTicks = maxTimeout
  ticks_le : ∀ h ∈ hs, c.ticks ≤ h.ticks
  idle : hs = [] → c.ticks = 0

/-- The nearest expiration time is one of a handler, or the largest number. -/
theorem nearest_attained (hs : List (Handler K)) :
    (∃ h ∈ hs, h.ticks = nearest hs) ∨ nearest hs = maxTimeout := by
  induction hs using List.reverseRecOn with
  | nil => exact .inr rfl
  | append_singleton hs b ih =>
    rw [nearest_concat, Handlers.nearer]
    split
    · exact .inl ⟨b, List.mem_append_right _ List.mem_cons_self, rfl⟩
    · rcases ih with ⟨h, hmem, heq⟩ | hmax
      · exact .inl ⟨h, List.mem_append_left _ hmem, heq⟩
      · exact .inr hmax

theorem le_maxTimeout (t : UInt32) : t ≤ maxTimeout :=
  UInt32.le_iff_toNat_le.mpr (Nat.le_of_lt_succ t.toNat_lt)

/-- A container that keeps the time of its handlers has the nearest one. -/
theorem Tracks.cached {p : Pending K} {ws : List (Waiting K)} {c : Handlers} (h : Tracks p ws)
    (htimeout : c.timeoutTicks = p.timeoutTicks) (hticks : c.ticks = p.ticks) :
    Cached c p.handlers := by
  have hle : ∀ h ∈ p.handlers, c.timeoutTicks ≤ h.ticks := by
    intro b hb
    rw [htimeout, h.nearest]
    exact UInt32.le_iff_toNat_le.mpr (nearest_le hb)
  refine ⟨hle, fun hne ↦ ?_, fun hnil ↦ ?_, fun b hb ↦ ?_, fun hnil ↦ hticks.trans (h.idle hnil)⟩
  · rw [htimeout, h.nearest]
    rcases nearest_attained p.handlers with hattained | hmax
    · exact hattained
    · -- no expiration time is larger than the largest number
      obtain ⟨b, hb⟩ := List.exists_mem_of_ne_nil _ hne
      refine ⟨b, hb, ?_⟩
      have hb' := hle b hb
      rw [htimeout, h.nearest, hmax] at hb'
      rw [hmax]
      exact UInt32.le_antisymm (le_maxTimeout b.ticks) hb'
  · rw [htimeout, h.nearest, hnil]
    rfl
  · obtain ⟨i, hi, rfl⟩ := List.mem_iff_getElem.mp hb
    have hstep := h.handlers.get hi (h.handlers.length_eq ▸ hi)
    have hleft := hstep.left
    have helapsed := hstep.elapsed
    rw [hticks, UInt32.le_iff_toNat_le]
    change p.ticks.toNat ≤ (p.handlers.get ⟨i, hi⟩).ticks.toNat
    omega

namespace Cached

variable {c : Handlers} {hs : List (Handler K)}

/-- **The early exit** of `update` skips no handler that is due. -/
theorem not_due (h : Cached c hs) {now : UInt32} (hearly : ¬ now ≥ c.timeoutTicks) :
    ∀ b ∈ hs, ¬ now ≥ b.ticks :=
  fun b hb hdue ↦ hearly (UInt32.le_trans (h.le b hb) hdue)

theorem ticks_le_timeoutTicks (h : Cached c hs) : c.ticks ≤ c.timeoutTicks := by
  by_cases hnil : hs = []
  · rw [h.maxTimeout hnil]
    exact le_maxTimeout _
  · obtain ⟨b, hb, heq⟩ := h.attained hnil
    rw [← heq]
    exact h.ticks_le b hb

/-- **`nearestTimeout`** does not wrap around. -/
theorem toNat_nearestTimeout (h : Cached c hs) :
    c.nearestTimeout.toNat + c.ticks.toNat = c.timeoutTicks.toNat := by
  have hle := h.ticks_le_timeoutTicks
  rw [Handlers.nearestTimeout, UInt32.toNat_sub_of_le _ _ hle]
  exact Nat.sub_add_cancel (UInt32.le_iff_toNat_le.mp hle)

end Cached

variable [DecidableEq K]

/-- In every state of a run in which no sum of ticks overflows. -/
theorem Calls.run_cached {Op : Type} (I : Calls K Op) (ops : List Op)
    (hfits : I.Along I.Fits .new ops) : ∃ s hs, I.run .new ops = some s ∧
      s.container.handlers.Elements s.memory hs ∧ Cached s.container hs ∧
      (∀ now, ¬ now ≥ s.container.timeoutTicks → ∀ h ∈ hs, ¬ now ≥ h.ticks) ∧
      s.container.nearestTimeout.toNat + s.container.ticks.toNat =
        s.container.timeoutTicks.toNat := by
  obtain ⟨s, l, hrun, h, htracks⟩ := run_tracks [] matches_new tracks_empty hfits
  have hcached : Cached s.container l.pending.handlers :=
    htracks.cached h.pending.timeoutTicks h.pending.ticks
  exact ⟨s, l.pending.handlers, hrun, h.pending.elements, hcached,
    fun _ hearly ↦ hcached.not_due hearly, hcached.toNat_nearestTimeout⟩

/-- **The nearest expiration time is kept** by all functions of both containers: in every state that
calls lead to in which no 32-bit sum of ticks overflows, the cached time is the smallest expiration
time of the handlers, and `maxTimeout` when there is none; no handler expires before the tick
counter, which is zero when there is none. So the early exit of `update` skips no handler that is
due, and `nearestTimeout` does not underflow. -/
theorem nearest_expiry_kept :
    (∀ ops : List CompletionHandlerList.Op,
      CompletionHandlerList.calls.Along CompletionHandlerList.calls.Fits .new ops →
      ∃ s hs, CompletionHandlerList.calls.run .new ops = some s ∧
        s.container.handlers.Elements s.memory hs ∧ Cached s.container hs ∧
        (∀ now, ¬ now ≥ s.container.timeoutTicks → ∀ h ∈ hs, ¬ now ≥ h.ticks) ∧
        s.container.nearestTimeout.toNat + s.container.ticks.toNat =
          s.container.timeoutTicks.toNat) ∧
    ∀ (K : Type) [DecidableEq K] (ops : List (CompletionHandlerMap.Op K)),
      (CompletionHandlerMap.calls K).Along (CompletionHandlerMap.calls K).Fits .new ops →
      ∃ s hs, (CompletionHandlerMap.calls K).run .new ops = some s ∧
        s.container.handlers.Elements s.memory hs ∧ Cached s.container hs ∧
        (∀ now, ¬ now ≥ s.container.timeoutTicks → ∀ h ∈ hs, ¬ now ≥ h.ticks) ∧
        s.container.nearestTimeout.toNat + s.container.ticks.toNat =
          s.container.timeoutTicks.toNat :=
  ⟨Calls.run_cached _, fun K _ ↦ Calls.run_cached (CompletionHandlerMap.calls K)⟩

/-- A handler that may wait for five ticks, after three. -/
theorem nearest_expiry_kept_fiveTicks :
    let ops : List CompletionHandlerList.Op := [.addHandler (some 0) ⟨some 1, 2⟩ 5, .update 3]
    ∃ s hs, CompletionHandlerList.calls.run .new ops = some s ∧
      s.container.handlers.Elements s.memory hs ∧ Cached s.container hs ∧
      (∀ now, ¬ now ≥ s.container.timeoutTicks → ∀ h ∈ hs, ¬ now ≥ h.ticks) ∧
      s.container.nearestTimeout.toNat + s.container.ticks.toNat =
        s.container.timeoutTicks.toNat := by
  refine nearest_expiry_kept.1 _ ⟨fun _ ↦ by decide, ?_⟩
  rintro s ⟨⟩
  exact ⟨fun _ ↦ by decide, fun _ _ ↦ trivial⟩

end DuoFirmware.Services
