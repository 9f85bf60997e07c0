import DuoFirmware.Wiring.VectorVariants

/-!
# Moving overlapping ranges

The loops by which a `Vector` moves elements that are not trivially copyable, pointer by pointer.
They start at the end at which no element is overwritten before it is moved, so the destination
range has in the end what `memmove` would leave there.

In the reverse loop, pointers stop at the element in front of the range; they are integers, so that
this one exists for a range at the first slot too.
-/

namespace DuoFirmware.Wiring

open ObjectMemory

variable {T E : Type}

namespace ElementWise

variable (o : Object T E)

/-! ## Functions -/

/-- `new(dest) T(std::move(*p)); p->~T();` -/
def moveOne (dest p : ℤ) : ObjM T E Unit :=
  if 0 ≤ dest ∧ 0 ≤ p then relocate o dest.toNat p.toNat else undefined

/-- `for (; end != p; --end, --dest)`, for at most the given number of rounds. -/
def reverseLoop (rounds : ℕ) (dest p e : ℤ) : ObjM T E Unit :=
  if e = p then pure ()
  else
    match rounds with
    | 0 => undefined
    | rounds + 1 => do
      moveOne o dest e
      reverseLoop rounds (dest - 1) p (e - 1)

/-- `for (; p != end; ++p, ++dest)`, for at most the given number of rounds. -/
def forwardLoop (rounds : ℕ) (dest p e : ℤ) : ObjM T E Unit :=
  if p = e then pure ()
  else
    match rounds with
    | 0 => undefined
    | rounds + 1 => do
      moveOne o dest p
      forwardLoop rounds (dest + 1) (p + 1) e

/-- `move(dest, p, end)`. -/
def move (dest p e : ℤ) : ObjM T E Unit :=
  let rounds := (e - p).toNat
  if dest > p ∧ dest < e then
    -- move elements in reverse order
    let p := p - 1
    let e := e - 1
    let dest := dest + (e - p - 1)
    reverseLoop o rounds dest p e
  else if dest ≠ p then forwardLoop o rounds dest p e
  else pure ()

/-! ## The loops and their ranges -/

theorem moveOne_eq (dest p : ℕ) : moveOne o (dest : ℤ) (p : ℤ) = relocate o dest p :=
  if_pos ⟨Int.natCast_nonneg dest, Int.natCast_nonneg p⟩

/-- The reverse loop ends after as many rounds as there are elements. -/
theorem reverseLoop_eq (n dest p : ℕ) :
    reverseLoop o n (dest + n - 1) (p - 1) (p + n - 1) = moveBackward o n dest p := by
  induction n with
  | zero =>
    rw [reverseLoop, if_pos (by omega), moveBackward]
  | succ n ih =>
    have hdest : (dest + (n + 1 : ℕ) - 1 : ℤ) = (dest + n : ℕ) := by omega
    have he : (p + (n + 1 : ℕ) - 1 : ℤ) = (p + n : ℕ) := by omega
    rw [reverseLoop, if_neg (by omega), hdest, he, moveBackward, ← ih]
    simp only [moveOne_eq]
    push_cast
    rfl

/-- So does the other. -/
theorem forwardLoop_eq (n dest p : ℕ) :
    forwardLoop o n dest p (p + n) = moveForward o n dest p := by
  induction n generalizing dest p with
  | zero => rw [forwardLoop, if_pos (by omega), moveForward]
  | succ n ih =>
    have he : (p + (n + 1 : ℕ) : ℤ) = (p + 1 : ℕ) + n := by omega
    rw [forwardLoop, if_neg (by omega), he, moveForward, ← ih]
    simp only [moveOne_eq]
    push_cast
    rfl

/-- The pointers of both loops are right. -/
theorem move_eq (dest p n : ℕ) :
    move o dest p (p + n : ℕ) = Vector.move o dest p (p + n) := by
  have hrounds : ((p + n : ℕ) - p : ℤ).toNat = n := by omega
  rw [move, Vector.move, hrounds, Nat.add_sub_cancel_left]
  by_cases hback : dest > p ∧ dest < p + n
  · have he : ((p + n : ℕ) - 1 : ℤ) = p + n - 1 := by omega
    have hdest : (dest + ((p + n : ℕ) - 1 - (p - 1) - 1) : ℤ) = dest + n - 1 := by omega
    rw [if_pos hback, if_pos (by omega), ← reverseLoop_eq, ← he, ← hdest]
  rw [if_neg hback, if_neg (by omega)]
  by_cases hne : dest = p
  · rw [if_neg (not_not.mpr hne), if_neg (by omega)]
  · rw [if_pos hne, if_pos (by omega), Nat.cast_add, forwardLoop_eq]

/-! ## Moving as `memmove` does -/

/-- The slots from `p` on hold the objects `xs`, and the destination is raw storage otherwise. -/
structure Movable (mem : Memory T E) (dest p : ℕ) (xs : List T) : Prop where
  live : ∀ i < xs.length, mem.slots (p + i) = xs[i]?
  raw : ∀ a, dest ≤ a → a < dest + xs.length → a < p ∨ p + xs.length ≤ a → mem.slots a = none

/-- Everything that moving the objects `xs` from `p` to `dest` may change. Each object that was
moved has been destroyed once; none is moved to where it is. -/
structure Moved (mem mem' : Memory T E) (dest p : ℕ) (xs : List T) : Prop where
  live : ∀ i < xs.length, mem'.slots (dest + i) = xs[i]?
  raw : ∀ a, p ≤ a → a < p + xs.length → a < dest ∨ dest + xs.length ≤ a → mem'.slots a = none
  frame : ∀ a, a < p ∨ p + xs.length ≤ a → a < dest ∨ dest + xs.length ≤ a →
    mem'.slots a = mem.slots a
  destroyed : ∃ ys, (if dest = p then ys = [] else ys.Perm xs) ∧
    mem'.log = mem.log ++ ys.flatMap fun x ↦ o.destroy (o.movedFrom x)

variable {o} {mem : Memory T E} {dest p : ℕ} {xs : List T}

/-- The memory without the objects of a range. -/
def without (p n : ℕ) (f : ℕ → Option T) : ℕ → Option T := fun a ↦
  if p ≤ a ∧ a < p + n then none else f a

theorem without_of_mem {f : ℕ → Option T} {n a : ℕ} (h : p ≤ a ∧ a < p + n) :
    without p n f a = none := if_pos h

theorem without_of_not_mem {f : ℕ → Option T} {n a : ℕ} (h : a < p ∨ p + n ≤ a) :
    without p n f a = f a := if_neg (by omega)

theorem Movable.slots_eq (h : Movable mem dest p xs) :
    mem.slots = placed p xs (without p xs.length mem.slots) := by
  funext a
  by_cases ha : p ≤ a ∧ a < p + xs.length
  · obtain ⟨i, rfl⟩ := Nat.exists_eq_add_of_le ha.1
    have hi : i < xs.length := by omega
    rw [h.live i hi, placed_apply hi]
  · have ha' : a < p ∨ p + xs.length ≤ a := by omega
    rw [placed_apply_of_not_mem ha', without_of_not_mem ha']

theorem Movable.raw_without (h : Movable mem dest p xs) :
    Raw (without p xs.length mem.slots) dest (dest + xs.length) := fun a h1 h2 ↦ by
  by_cases ha : p ≤ a ∧ a < p + xs.length
  · exact without_of_mem ha
  · have ha' : a < p ∨ p + xs.length ≤ a := by omega
    rw [without_of_not_mem ha', h.raw a h1 h2 ha']

theorem relocated_perm (dest p : ℕ) (xs : List T) :
    if dest = p then Vector.relocated dest p xs = [] else (Vector.relocated dest p xs).Perm xs := by
  rw [Vector.relocated]
  by_cases hne : dest = p
  · rw [if_pos hne, if_neg (by omega), if_neg (not_not.mpr hne)]
  rw [if_neg hne, if_pos hne]
  split
  · exact List.reverse_perm xs
  · exact List.Perm.refl xs

/-- In the destination, `memmove` leaves the slots of the source. -/
theorem memmove_apply (h : Movable mem dest p xs) {mem' : Memory T E}
    (hrun : TriviallyCopyable.memmove dest p xs.length mem = some ((), mem')) {i : ℕ}
    (hi : i < xs.length) : mem'.slots (dest + i) = xs[i]? := by
  cases hrun
  have hmem : dest ≤ dest + i ∧ dest + i < dest + xs.length := by omega
  rw [← h.live i hi]
  change (if _ then _ else _) = _
  rw [if_pos hmem, Nat.add_sub_cancel_left]

/-- **Moving overlapping ranges.** The loops move every object of the source to its place in the
destination, as `memmove` would, without constructing anything in a slot in use, which would
fail. -/
theorem moves_as_memmove (h : Movable mem dest p xs) : ∃ mem' bytes,
    move o dest p (p + xs.length : ℕ) mem = some ((), mem') ∧ Moved o mem mem' dest p xs ∧
      TriviallyCopyable.memmove dest p xs.length mem = some ((), bytes) ∧
      ∀ a, dest ≤ a → a < dest + xs.length → mem'.slots a = bytes.slots a := by
  have hrun := Vector.move_eq (o := o) dest h.slots_eq (fun a h1 h2 ↦ without_of_mem ⟨h1, h2⟩)
    h.raw_without
  have hlive : ∀ i < xs.length,
      placed dest xs (without p xs.length mem.slots) (dest + i) = xs[i]? := fun i ↦ placed_apply
  refine ⟨_, _, by rw [move_eq, hrun], ⟨hlive, fun a h1 h2 ha ↦ ?_, fun a ha ha' ↦ ?_, ?_⟩, rfl, ?_⟩
  · change placed _ _ _ a = none
    rw [placed_apply_of_not_mem ha, without_of_mem ⟨h1, h2⟩]
  · change placed _ _ _ a = _
    rw [placed_apply_of_not_mem ha', without_of_not_mem ha]
  · exact ⟨Vector.relocated dest p xs, relocated_perm dest p xs, rfl⟩
  · intro a h1 h2
    obtain ⟨i, rfl⟩ := Nat.exists_eq_add_of_le h1
    have hi : i < xs.length := by omega
    rw [memmove_apply h rfl hi]
    exact hlive i hi

/-- Objects whose destructors log them. -/
def logged : Object ℕ ℕ := ⟨fun x ↦ x + 100, fun x ↦ [x]⟩

/-- Three objects that are moved up by one slot. -/
theorem moves_as_memmove_upByOne :
    Movable (⟨placed 2 [7, 8, 9] fun _ ↦ none, []⟩ : Memory ℕ ℕ) 3 2 [7, 8, 9] ∧
      ∃ mem' bytes : Memory ℕ ℕ,
        move logged 3 2 5 ⟨placed 2 [7, 8, 9] fun _ ↦ none, []⟩ = some ((), mem') ∧
        Moved logged ⟨placed 2 [7, 8, 9] fun _ ↦ none, []⟩ mem' 3 2 [7, 8, 9] ∧
        TriviallyCopyable.memmove 3 2 3 ⟨placed 2 [7, 8, 9] fun _ ↦ none, []⟩ =
          some ((), bytes) ∧
        ∀ a, 3 ≤ a → a < 6 → mem'.slots a = bytes.slots a := by
  have h : Movable (⟨placed 2 [7, 8, 9] fun _ ↦ none, []⟩ : Memory ℕ ℕ) 3 2 [7, 8, 9] :=
    ⟨fun i ↦ placed_apply, fun a _ _ ha ↦ placed_apply_of_not_mem ha⟩
  exact ⟨h, moves_as_memmove h⟩

end ElementWise

end DuoFirmware.Wiring
