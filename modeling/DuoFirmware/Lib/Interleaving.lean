import Mathlib.Data.List.Basic

/-!
# Interleavings

Threads that take turns on a shared state. A step of a thread may depend on an input of its own; a
schedule says which thread takes each step, and with which input.
-/

namespace Interleaving

variable {σ τ ι : Type}

/-- A shared state with the threads that work on it. -/
structure System (σ τ : Type) where
  shared : σ
  threads : List τ

namespace System

variable (step : ι → σ → τ → σ × τ)

/-- The `i`-th thread takes a step, if there is one. -/
def turn (s : System σ τ) (i : ℕ) (x : ι) : System σ τ :=
  match s.threads[i]? with
  | none => s
  | some t => ⟨(step x s.shared t).1, s.threads.set i (step x s.shared t).2⟩

/-- A run under a schedule. -/
def run (s : System σ τ) (schedule : List (ℕ × ι)) : System σ τ :=
  schedule.foldl (fun s next ↦ s.turn step next.1 next.2) s

variable {step} {s : System σ τ}

theorem run_append (schedule schedule' : List (ℕ × ι)) :
    s.run step (schedule ++ schedule') = (s.run step schedule).run step schedule' :=
  List.foldl_append

/-- **Invariants.** What every step preserves, whichever thread takes it, holds throughout a run. -/
theorem run_invariant {P : σ → List τ → Prop}
    (hstep : ∀ x f a t b, P f (a ++ t :: b) → P (step x f t).1 (a ++ (step x f t).2 :: b))
    (h : P s.shared s.threads) (schedule : List (ℕ × ι)) :
    P (s.run step schedule).shared (s.run step schedule).threads := by
  induction schedule generalizing s with
  | nil => exact h
  | cons next schedule ih =>
    refine ih ?_
    change P (s.turn step next.1 next.2).shared (s.turn step next.1 next.2).threads
    rw [turn]
    rcases hget : s.threads[next.1]? with _ | t
    · exact h
    · obtain ⟨hlt, rfl⟩ := List.getElem?_eq_some_iff.mp hget
      have hsplit : s.threads = s.threads.take next.1 ++ s.threads[next.1] ::
          s.threads.drop (next.1 + 1) := by
        rw [List.getElem_cons_drop, List.take_append_drop]
      have hset : ∀ t', s.threads.set next.1 t' =
          s.threads.take next.1 ++ t' :: s.threads.drop (next.1 + 1) := fun t' ↦
        List.set_eq_take_append_cons_drop.trans (if_pos hlt)
      rw [hsplit] at h
      dsimp only
      rw [hset]
      exact hstep next.2 _ _ _ _ h

end System

end Interleaving
