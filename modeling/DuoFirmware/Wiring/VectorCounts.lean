import DuoFirmware.Wiring.VectorRuns

/-!
# Counts of elements

`removeAt` and `copy` take a count of elements, which may be negative or too large to mean all
elements from an index on. The count is compared with the number of elements by a sum of two `int`s,
which is undefined when it is larger than the largest `int`: a caller may not pass that to mean
everything, unless the index is zero.
-/

namespace DuoFirmware.Wiring

open ObjectMemory

namespace Vector

variable {T E : Type} {kind : Kind T E} {sizeof : ℕ} {v : Vector} {mem : Memory T E} {xs : List T}
  {i : ℕ} {n : ℤ}

/-- The elements that are meant by a count are removed, and are copied into a new vector if there is
a block for it. -/
structure Counts (kind : Kind T E) (sizeof : ℕ) (v : Vector) (mem : Memory T E) (xs : List T)
    (i : ℕ) (n : ℤ) : Prop where
  removeAt : ∃ v' mem', (kind.variant sizeof).removeAt v i n mem = some (v', mem') ∧
    Contents kind.Rep v' mem' (unslice xs i n)
  copy : ∀ block, refuses Vector.malloc v block (slice xs i n).length = false → ∃ w mem',
    (kind.variant sizeof).copyOf block v i n mem = some (w, mem') ∧
      w.size = (slice xs i n).length ∧ w.size ≤ w.capacity ∧
      kind.Rep mem' (placed w.data (slice xs i n) (placed v.data xs fun _ ↦ none))

/-- How many elements a count means. -/
theorem length_slice (xs : List T) (i : ℕ) (n : ℤ) : (slice xs i n).length =
    if n < 0 then xs.length - i else min n.toNat (xs.length - i) := by
  rw [slice]
  split
  · exact List.length_drop
  · rw [List.length_take, List.length_drop]

/-- The sum is undefined. -/
theorem clamp_eq_none (hn : ¬ n < 0) (hsum : ¬ i + n.toNat ≤ intMax) :
    Variant.clamp v i n mem = none := by
  rw [Variant.clamp, if_neg hn, addInt, if_neg hsum]
  rfl

theorem removeAt_eq_none (k : Variant T E) (h : Variant.clamp v i n mem = none) :
    k.removeAt v i n mem = none := by
  change (Variant.clamp v i n mem).bind _ = none
  rw [h, Option.bind_none]

/-- Nothing can be removed when the sum is undefined. -/
theorem Counts.sum_le (h : Counts kind sizeof v mem xs i n) : n < 0 ∨ i + n.toNat ≤ intMax := by
  by_contra hc
  obtain ⟨hn, hsum⟩ := not_or.mp hc
  obtain ⟨v', mem', hrun, -⟩ := h.removeAt
  rw [removeAt_eq_none _ (clamp_eq_none hn hsum)] at hrun
  cases hrun

theorem counts_of_sum_le (h : Contents kind.Rep v mem xs) (hfits : SizeFits sizeof v.size)
    (hi : i ≤ v.size) (hsum : n < 0 ∨ i + n.toNat ≤ intMax) : Counts kind sizeof v mem xs i n := by
  have hk := kind.lawful sizeof
  obtain ⟨as, ys, bs, rfl, rfl, -, hclamp, hslice, hunslice⟩ := clamp_split h hi hsum
  constructor
  · rw [hunslice]
    exact hk.removeAt h hclamp
  · intro block hblock
    rw [hslice] at hblock ⊢
    have hle : ys.length ≤ v.size := by
      rw [← hslice, length_slice, ← h.size]
      split <;> omega
    have hbytes : ys.length * sizeof < sizeMax :=
      (Nat.mul_le_mul_right sizeof hle).trans_lt hfits.2
    obtain ⟨w, mem', hrun, hcapacity, hsize, -, hrep⟩ := hk.copyOf block h hclamp hbytes
    rw [hblock, if_neg Bool.false_ne_true] at hsize hrep
    exact ⟨w, mem', hrun, hsize, hcapacity, hrep⟩

/-- **Counts are clamped** if and only if they are negative or the sum of index and count is an
`int`. -/
theorem counts_iff (kind : Kind T E) (sizeof : ℕ) (v : Vector) (mem : Memory T E) (xs : List T)
    (h : Contents kind.Rep v mem xs) (hfits : SizeFits sizeof v.size) (i : ℕ) (hi : i ≤ v.size)
    (n : ℤ) : Counts kind sizeof v mem xs i n ↔ n < 0 ∨ i + n.toNat ≤ intMax :=
  ⟨Counts.sum_le, counts_of_sum_le h hfits hi⟩

/-- A vector of two elements. -/
theorem contents_two : Contents (Kind.elementWise someObject).Rep ⟨10, 2, 4⟩
    ⟨placed 10 [5, 6] fun _ ↦ none, []⟩ [5, 6] := ⟨rfl, rfl, by decide⟩

theorem counts_iff_two : Counts (.elementWise someObject) 4 ⟨10, 2, 4⟩
    ⟨placed 10 [5, 6] fun _ ↦ none, []⟩ [5, 6] 1 3 ↔
      (3 : ℤ) < 0 ∨ 1 + (3 : ℤ).toNat ≤ intMax :=
  counts_iff (.elementWise someObject) 4 ⟨10, 2, 4⟩ _ [5, 6] contents_two (by decide) 1
    (by decide) 3

/-- The largest `int` does not mean all elements from the second one on. -/
theorem not_counts_intMax : (2147483647 : ℤ) ≤ intMax ∧
    ¬ Counts (.elementWise someObject) 4 ⟨10, 2, 4⟩
      ⟨placed 10 [5, 6] fun _ ↦ none, []⟩ [5, 6] 1 2147483647 :=
  ⟨by decide, fun h ↦ h.sum_le.elim (by decide) (by decide)⟩

end Vector

end DuoFirmware.Wiring
