import Mathlib.Tactic

/-!
# Programs that may run forever

A program changes a state and may fail to return. Its loops are bounded by fuel: a program that
runs out of it is left where it is, and a function with loops is a program for every amount of
fuel. It returns what all large enough amounts of fuel make it return.
-/

namespace Divergence

/-- A program over a state: the value it returns, and the state in which it is left. -/
def Program (σ α : Type) : Type := σ → Option α × σ

variable {σ α β γ : Type} {s s' : σ} {a : α}

namespace Program

instance : Monad (Program σ) where
  pure a := fun s ↦ (some a, s)
  bind m f := fun s ↦
    match m s with
    | (some a, s') => f a s'
    | (none, s') => (none, s')

/-- The program is left here. -/
def cut : Program σ α := fun s ↦ (none, s)

/-- A look at the state. -/
def look (f : σ → α) : Program σ α := fun s ↦ (some (f s), s)

/-- A change of the state. -/
def update (f : σ → σ) : Program σ Unit := fun s ↦ (some (), f s)

theorem run_pure (a : α) (s : σ) : (pure a : Program σ α) s = (some a, s) := rfl

theorem run_bind {m : Program σ α} {f : α → Program σ β} (h : m s = (some a, s')) :
    (m >>= f) s = f a s' := by
  change (match m s with | (some a, s') => f a s' | (none, s') => (none, s')) = _
  rw [h]

theorem run_bind_none {m : Program σ α} {f : α → Program σ β} (h : m s = (none, s')) :
    (m >>= f) s = (none, s') := by
  change (match m s with | (some a, s') => f a s' | (none, s') => (none, s')) = _
  rw [h]

/-- What a sequence returns comes from what its parts return. -/
theorem bind_eq_some {m : Program σ α} {f : α → Program σ β} {b : β}
    (h : (m >>= f) s = (some b, s')) :
    ∃ a t, m s = (some a, t) ∧ f a t = (some b, s') := by
  rcases hm : m s with ⟨_ | a, t⟩
  · rw [run_bind_none hm] at h
    cases h
  · exact ⟨a, t, rfl, (run_bind hm).symm.trans h⟩

/-- A sequence only depends on what its first part does. -/
theorem bind_congr {m m' : Program σ α} (f : α → Program σ β) (h : m s = m' s') :
    (m >>= f) s = (m' >>= f) s' := by
  rcases hm : m' s' with ⟨_ | a, t⟩
  · rw [run_bind_none (h.trans hm), run_bind_none hm]
  · rw [run_bind (h.trans hm), run_bind hm]

theorem bind_assoc (m : Program σ α) (f : α → Program σ β) (g : β → Program σ γ) :
    m >>= f >>= g = m >>= fun a ↦ f a >>= g := by
  funext s
  rcases hm : m s with ⟨_ | a, t⟩
  · rw [run_bind_none hm, run_bind_none (run_bind_none hm)]
  · rw [run_bind hm]
    rcases hf : f a t with ⟨_ | b, u⟩
    · rw [run_bind_none hf, run_bind_none ((run_bind hm).trans hf)]
    · rw [run_bind hf, run_bind ((run_bind hm).trans hf)]

end Program

open Program

/-! ## Returning -/

/-- The function returns `a` in the state `s'`. -/
def Returns (P : ℕ → Program σ α) (s : σ) (a : α) (s' : σ) : Prop :=
  ∃ n, ∀ k ≥ n, P k s = (some a, s')

/-- The function returns. -/
def Terminates (P : ℕ → Program σ α) (s : σ) : Prop := ∃ a s', Returns P s a s'

theorem Returns.of_forall {P : ℕ → Program σ α} (h : ∀ k, P k s = (some a, s')) :
    Returns P s a s' := ⟨0, fun k _ ↦ h k⟩

/-- One unit of fuel is used up. -/
theorem Returns.step {P Q : ℕ → Program σ α} {t : σ} (h : ∀ k, P (k + 1) s = Q k t)
    (hQ : Returns Q t a s') : Returns P s a s' := by
  obtain ⟨n, hn⟩ := hQ
  refine ⟨n + 1, fun k hk ↦ ?_⟩
  obtain ⟨j, rfl⟩ := Nat.exists_eq_add_of_le' ((Nat.succ_pos n).trans_le hk)
  exact (h j).trans (hn j (Nat.le_of_succ_le_succ hk))

/-- No fuel is used up. -/
theorem Returns.of_eq {P Q : ℕ → Program σ α} {t : σ} (h : ∀ k, P k s = Q k t)
    (hQ : Returns Q t a s') : Returns P s a s' :=
  hQ.imp fun _ hn k hk ↦ (h k).trans (hn k hk)

theorem Returns.bind {P : ℕ → Program σ α} {Q : ℕ → α → Program σ β} {b : β} {t : σ}
    (hP : Returns P s a s') (hQ : Returns (fun k ↦ Q k a) s' b t) :
    Returns (fun k ↦ P k >>= Q k) s b t := by
  obtain ⟨n, hn⟩ := hP
  obtain ⟨m, hm⟩ := hQ
  exact ⟨max n m, fun k hk ↦
    (run_bind (hn k (le_of_max_le_left hk))).trans (hm k (le_of_max_le_right hk))⟩

/-- A function returns one thing only. -/
theorem Returns.unique {P : ℕ → Program σ α} {b : α} {t : σ} (hP : Returns P s a s')
    (hQ : Returns P s b t) : a = b ∧ s' = t := by
  obtain ⟨n, hn⟩ := hP
  obtain ⟨m, hm⟩ := hQ
  have h := (hn _ (le_max_left n m)).symm.trans (hm _ (le_max_right n m))
  exact ⟨Option.some.inj (congrArg Prod.fst h), congrArg Prod.snd h⟩

/-! ## What holds all along -/

/-- Wherever the program is left, `I` holds, and if it returns, then with `Q`. -/
structure Keeps (I : σ → Prop) (m : Program σ α) (s : σ) (Q : α → σ → Prop) : Prop where
  always : I (m s).2
  returned : ∀ a, (m s).1 = some a → Q a (m s).2

section Keeps

variable {I : σ → Prop} {Q : α → σ → Prop} {R : β → σ → Prop}

theorem Keeps.of_run {m : Program σ α} (h : m s = (some a, s')) (hI : I s') (hQ : Q a s') :
    Keeps I m s Q := by
  constructor
  · rw [h]
    exact hI
  · intro b hb
    rw [h] at hb ⊢
    cases hb
    exact hQ

theorem keeps_cut (hI : I s) : Keeps I cut s Q :=
  ⟨hI, fun _ h ↦ nomatch h⟩

theorem Keeps.of_eq {m m' : Program σ α} (h : m s = m' s) (hm : Keeps I m' s Q) :
    Keeps I m s Q := by
  obtain ⟨halways, hreturned⟩ := hm
  rw [← h] at halways hreturned
  exact ⟨halways, hreturned⟩

/-- What the program returned, it returned here. -/
theorem Keeps.run {m : Program σ α} (hm : Keeps I m s Q) :
    Keeps I m s fun a s' ↦ Q a s' ∧ m s = (some a, s') :=
  ⟨hm.always, fun a ha ↦ ⟨hm.returned a ha, Prod.ext ha rfl⟩⟩

theorem Keeps.bind {m : Program σ α} {f : α → Program σ β} (hm : Keeps I m s Q)
    (hf : ∀ a s', Q a s' → Keeps I (f a) s' R) : Keeps I (m >>= f) s R := by
  rcases h : m s with ⟨_ | a, t⟩
  · have hI := hm.always
    rw [h] at hI
    constructor
    · rwa [run_bind_none h]
    · intro b hb
      rw [run_bind_none h] at hb
      cases hb
  · have hQ := hm.returned a (by rw [h])
    rw [h] at hQ
    have hfa := hf a t hQ
    constructor
    · rw [run_bind h]
      exact hfa.always
    · rw [run_bind h]
      exact hfa.returned

end Keeps

/-! ## Growth -/

/-- The program only moves the state forward. -/
def Grows (R : σ → σ → Prop) (m : Program σ α) : Prop := ∀ s, R s (m s).2

section Grows

variable {R : σ → σ → Prop}

theorem Grows.bind [IsTrans σ R] {m : Program σ α} {f : α → Program σ β} (hm : Grows R m)
    (hf : ∀ a, Grows R (f a)) : Grows R (m >>= f) := by
  intro s
  have h := hm s
  rcases hr : m s with ⟨_ | a, t⟩
  · rw [run_bind_none hr]
    rwa [hr] at h
  · rw [run_bind hr]
    rw [hr] at h
    exact IsTrans.trans _ _ _ h (hf a t)

/-- The rest of a sequence moves forward from where its first part is left. -/
theorem grows_rest [Std.Refl R] {m : Program σ α} {f : α → Program σ β} (hf : ∀ a, Grows R (f a))
    (s : σ) : R (m s).2 ((m >>= f) s).2 := by
  rcases hr : m s with ⟨_ | a, t⟩
  · rw [run_bind_none hr]
    exact Std.Refl.refl t
  · rw [run_bind hr]
    exact hf a t

theorem Grows.ite {c : Prop} [Decidable c] {m m' : Program σ α} (hm : Grows R m)
    (hm' : Grows R m') : Grows R (if c then m else m') := by
  by_cases hc : c
  · rwa [if_pos hc]
  · rwa [if_neg hc]

end Grows

/-- With enough fuel the function is left where `C` holds. -/
def Passes (P : ℕ → Program σ α) (s : σ) (C : σ → Prop) : Prop := ∃ n, ∀ k ≥ n, C (P k s).2

/-- A part of a sequence passes, and the rest stays there. -/
theorem Passes.bind_left {R : σ → σ → Prop} [Std.Refl R] {P : ℕ → Program σ α}
    {Q : ℕ → α → Program σ β} {C : σ → Prop} (hP : Passes P s C) (hQ : ∀ k a, Grows R (Q k a))
    (hC : ∀ s s', R s s' → C s → C s') : Passes (fun k ↦ P k >>= Q k) s C :=
  hP.imp fun _ hn k hk ↦ hC _ _ (grows_rest (hQ k) s) (hn k hk)

end Divergence
