import Mathlib.Tactic

/-!
# Bounded queues and rings of cells

A queue that holds at most so many elements, and the elements that lie one behind the other in a
ring of cells, some of which have not been written yet.
-/

namespace RingBuffer

variable {T : Type}

/-! ## Bounded queues -/

/-- A queue with a capacity; the first element is the oldest one. -/
structure Fifo (T : Type) where
  capacity : ℕ
  elements : List T
  length_le : elements.length ≤ capacity

namespace Fifo

def ofCapacity (n : ℕ) : Fifo T := ⟨n, [], Nat.zero_le n⟩

/-- An element is put behind the others, if there is room for it. -/
def push (f : Fifo T) (x : T) : Bool × Fifo T :=
  if h : f.elements.length < f.capacity then
    (true, { f with
      elements := f.elements ++ [x]
      length_le := by rwa [List.length_append, List.length_singleton] })
  else (false, f)

/-- The oldest element is taken out. -/
def pop (f : Fifo T) : Option T × Fifo T :=
  (f.elements.head?, { f with
    elements := f.elements.tail
    length_le := by
      rw [List.length_tail]
      exact (Nat.sub_le _ _).trans f.length_le })

theorem ext_elements {f g : Fifo T} (hcapacity : f.capacity = g.capacity)
    (helements : f.elements = g.elements) : f = g := by
  cases f
  cases g
  cases hcapacity
  cases helements
  rfl

variable {f : Fifo T} {x : T} {xs : List T}

theorem push_of_lt (h : f.elements.length < f.capacity) :
    (f.push x).1 = true ∧ (f.push x).2.capacity = f.capacity ∧
      (f.push x).2.elements = f.elements ++ [x] := by
  rw [push, dif_pos h]
  exact ⟨rfl, rfl, rfl⟩

theorem push_of_le (h : f.capacity ≤ f.elements.length) : f.push x = (false, f) :=
  dif_neg (not_lt.mpr h)

theorem pop_of_nil (h : f.elements = []) : f.pop = (none, f) := by
  refine Prod.ext ?_ (ext_elements rfl ?_)
  · exact congrArg List.head? h
  · exact (congrArg List.tail h).trans h.symm

end Fifo

/-! ## Rings -/

variable {cells : List (Option T)} {head : ℕ} {x : T} {xs : List T}

/-- The elements that lie in a ring of cells from `head` on. -/
structure Window (cells : List (Option T)) (head : ℕ) (xs : List T) : Prop where
  length_le : xs.length ≤ cells.length
  get : ∀ i y, xs[i]? = some y → cells[(head + i) % cells.length]? = some (some y)

theorem window_nil (cells : List (Option T)) (head : ℕ) : Window cells head [] :=
  ⟨Nat.zero_le _, fun _ _ h ↦ by cases h⟩

/-- Cells less than a revolution apart are different. -/
theorem ring_ne {n i j : ℕ} (hij : i < j) (hj : j < n) : (head + i) % n ≠ (head + j) % n := by
  intro h
  have hmod : (head + i) ≡ (head + j) [MOD n] := h
  have heq := Nat.ModEq.add_left_cancel' head hmod
  rw [Nat.ModEq, Nat.mod_eq_of_lt (hij.trans hj), Nat.mod_eq_of_lt hj] at heq
  exact hij.ne heq

/-- **Writing** behind the last element. -/
theorem Window.push (h : Window cells head xs) (hlt : xs.length < cells.length) (x : T) :
    Window (cells.set ((head + xs.length) % cells.length) (some x)) head (xs ++ [x]) := by
  refine ⟨by rwa [List.length_set, List.length_append, List.length_singleton], fun i y hy ↦ ?_⟩
  rw [List.length_set]
  rcases Nat.lt_trichotomy i xs.length with hi | rfl | hi
  · rw [List.getElem?_append_left hi] at hy
    rw [List.getElem?_set_ne (ring_ne hi hlt).symm]
    exact h.get i y hy
  · rw [List.getElem?_concat_length] at hy
    rw [List.getElem?_set_self (Nat.mod_lt _ (Nat.zero_lt_of_lt hlt)), ← hy]
  · rw [List.getElem?_eq_none (by rw [List.length_append]; exact hi)] at hy
    cases hy

/-- **Reading** the first element, and going on to the next one. -/
theorem Window.pop (h : Window cells head (x :: xs)) :
    cells[head % cells.length]? = some (some x) ∧
      Window cells ((head + 1) % cells.length) xs := by
  refine ⟨h.get 0 x rfl, (Nat.le_succ _).trans h.length_le, fun i y hy ↦ ?_⟩
  rw [Nat.mod_add_mod, Nat.add_assoc, Nat.add_comm 1 i]
  exact h.get (i + 1) y hy

theorem Window.congr {head' : ℕ} (h : Window cells head xs)
    (hhead : head % cells.length = head' % cells.length) : Window cells head' xs := by
  refine ⟨h.length_le, fun i y hy ↦ ?_⟩
  rw [← Nat.mod_add_mod, ← hhead, Nat.mod_add_mod]
  exact h.get i y hy

/-! ## Blocks of cells -/

/-- Some elements are written to the cells from `i` on. -/
def fill (cells : List (Option T)) (i : ℕ) : List T → List (Option T)
  | [] => cells
  | y :: ys => fill (cells.set i (some y)) (i + 1) ys

/-- A block of elements is copied into the cells from `i` on, all of which have to be there. -/
def writeBlock (cells : List (Option T)) (i : ℕ) (ys : List T) : Option (List (Option T)) :=
  if i + ys.length ≤ cells.length then some (fill cells i ys) else none

/-- A block of `n` elements is copied out of the cells from `i` on, which have been written. -/
def readBlock (cells : List (Option T)) (i : ℕ) : ℕ → Option (List T)
  | 0 => some []
  | n + 1 => do
    let x ← cells[i]?.join
    let xs ← readBlock cells (i + 1) n
    some (x :: xs)

variable {i : ℕ} {ys zs : List T}

@[simp] theorem length_fill : (fill cells i ys).length = cells.length := by
  induction ys generalizing cells i with
  | nil => rfl
  | cons y ys ih => rw [fill, ih, List.length_set]

/-- **Writing a block** behind the last element, up to the end of the cells at most. -/
theorem Window.fill (h : Window cells head xs)
    (hi : (head + xs.length) % cells.length = i % cells.length)
    (hend : i + ys.length ≤ cells.length) (hroom : xs.length + ys.length ≤ cells.length) :
    Window (fill cells i ys) head (xs ++ ys) := by
  induction ys generalizing cells xs i with
  | nil => rwa [RingBuffer.fill, List.append_nil]
  | cons y ys ih =>
    rw [List.length_cons] at hend hroom
    have hlt : i < cells.length := by omega
    have hpush := h.push (by omega) y
    rw [hi, Nat.mod_eq_of_lt hlt] at hpush
    rw [RingBuffer.fill, List.append_cons]
    refine ih hpush ?_ ?_ ?_
    · rw [List.length_set, List.length_append, List.length_singleton, ← Nat.add_assoc]
      exact Nat.ModEq.add_right 1 hi
    · rw [List.length_set]
      omega
    · rw [List.length_set, List.length_append, List.length_singleton]
      omega

theorem Window.drop (h : Window cells head (ys ++ zs)) : Window cells (head + ys.length) zs := by
  refine ⟨?_, fun i y hy ↦ ?_⟩
  · have hle := h.length_le
    rw [List.length_append] at hle
    omega
  · rw [Nat.add_assoc]
    refine h.get (ys.length + i) y ?_
    rwa [List.getElem?_append_right (Nat.le_add_right _ _), Nat.add_sub_cancel_left]

/-- **Reading a block** from the first element on, up to the end of the cells at most. -/
theorem Window.readBlock (h : Window cells i (ys ++ zs)) (hend : i + ys.length ≤ cells.length) :
    readBlock cells i ys.length = some ys := by
  induction ys generalizing i with
  | nil => rfl
  | cons y ys ih =>
    rw [List.length_cons] at hend
    have hget : cells[i]? = some (some y) := by
      have hfirst := h.get 0 y rfl
      rwa [Nat.add_zero, Nat.mod_eq_of_lt (by omega)] at hfirst
    have hrest : Window cells (i + 1) (ys ++ zs) := by
      rw [List.cons_append, ← List.singleton_append] at h
      exact h.drop
    rw [List.length_cons, RingBuffer.readBlock, hget, ih hrest (by omega)]
    rfl

end RingBuffer
