import Mathlib.Tactic.Common

/-!
# Programs with a state that may fail

A program ends well when it does not fail and its result and its last state satisfy what is asked.
-/

namespace StateProgram

variable {σ α β : Type} {x : StateT σ Option α} {f : α → StateT σ Option β} {s s' : σ} {a : α}
  {Q Q' : α → σ → Prop} {R : β → σ → Prop}

/-- The program ends from `s`, and with `Q`. -/
def Ends (x : StateT σ Option α) (s : σ) (Q : α → σ → Prop) : Prop :=
  ∃ a s', x s = some (a, s') ∧ Q a s'

theorem Ends.of_eq (h : x s = some (a, s')) (hq : Q a s') : Ends x s Q := ⟨a, s', h, hq⟩

theorem Ends.pure (h : Q a s) : Ends (pure a) s Q := ⟨a, s, rfl, h⟩

theorem Ends.mono (h : Ends x s Q) (hq : ∀ a s', Q a s' → Q' a s') : Ends x s Q' := by
  obtain ⟨a, s', hx, ha⟩ := h
  exact ⟨a, s', hx, hq a s' ha⟩

/-- The first program ends with what the second one needs. -/
theorem Ends.bind (h : Ends x s Q) (hf : ∀ a s', Q a s' → Ends (f a) s' R) :
    Ends (x >>= f) s R := by
  obtain ⟨a, s', hx, ha⟩ := h
  obtain ⟨b, s'', hfa, hb⟩ := hf a s' ha
  refine ⟨b, s'', ?_, hb⟩
  change (x s).bind (fun r ↦ f r.1 r.2) = _
  rw [hx, Option.bind_some, hfa]

theorem Ends.bind_eq (h : x s = some (a, s')) (hf : Ends (f a) s' R) : Ends (x >>= f) s R :=
  (Ends.of_eq (Q := fun b t ↦ b = a ∧ t = s') h ⟨rfl, rfl⟩).bind
    fun _ _ ⟨hb, ht⟩ ↦ hb ▸ ht ▸ hf

/-! ## Invariants -/

/-- What holds of the state before holds after, when the program ends. -/
def Keeps (x : StateT σ Option α) (I : σ → Prop) : Prop := ∀ s a s', x s = some (a, s') → I s → I s'

variable {I : σ → Prop} {y : StateT σ Option α}

theorem Keeps.pure : Keeps (pure a : StateT σ Option α) I := by
  intro s a' s' hx hs
  obtain ⟨-, rfl⟩ := Prod.mk.inj (Option.some.inj hx)
  exact hs

theorem Keeps.fail : Keeps (fun _ ↦ none : StateT σ Option α) I :=
  fun _ _ _ hx ↦ absurd hx.symm (Option.some_ne_none _)

theorem Keeps.bind (h : Keeps x I) (hf : ∀ a, Keeps (f a) I) : Keeps (x >>= f) I := by
  intro s b s'' hrun hs
  change (x s).bind (fun r ↦ f r.1 r.2) = _ at hrun
  obtain ⟨⟨a, s'⟩, hx, hfa⟩ := Option.bind_eq_some_iff.mp hrun
  exact hf a s' b s'' hfa (h s a s' hx hs)

theorem Keeps.ite {c : Prop} [Decidable c] (hx : Keeps x I) (hy : Keeps y I) :
    Keeps (if c then x else y) I := by
  split_ifs
  · exact hx
  · exact hy

end StateProgram
