import Mathlib.Data.Nat.Bitwise
import Mathlib.Tactic

/-!
# Sets of numbers as bitmaps

A list of bytes as a set of natural numbers, of which the byte at `i / 8` holds `i` in its bit
`i % 8`.
-/

namespace Bitmap

variable {bitmap : List UInt8} {i j n : ℕ}

def bit (bitmap : List UInt8) (i : ℕ) : Bool := (bitmap.getD (i / 8) 0).toNat.testBit (i % 8)

/-- The byte with one bit. -/
def mask (i : ℕ) : UInt8 := UInt8.ofNat (2 ^ (i % 8))

def setBit (bitmap : List UInt8) (i : ℕ) : List UInt8 :=
  bitmap.set (i / 8) (bitmap.getD (i / 8) 0 ||| mask i)

theorem toNat_mask (i : ℕ) : (mask i).toNat = 2 ^ (i % 8) := by
  have hlt : 2 ^ (i % 8) < 2 ^ 8 := Nat.pow_lt_pow_right (by decide) (Nat.mod_lt i (by decide))
  rw [mask, UInt8.toNat_ofNat']
  exact Nat.mod_eq_of_lt hlt

@[simp] theorem length_setBit (bitmap : List UInt8) (i : ℕ) :
    (setBit bitmap i).length = bitmap.length := List.length_set

theorem length_foldl_setBit (is : List ℕ) (bitmap : List UInt8) :
    (is.foldl setBit bitmap).length = bitmap.length := by
  induction is generalizing bitmap with
  | nil => rfl
  | cons i is ih => rw [List.foldl_cons, ih, length_setBit]

@[simp] theorem bit_replicate (n i : ℕ) : bit (List.replicate n 0) i = false := by
  have hzero : (List.replicate n (0 : UInt8)).getD (i / 8) 0 = 0 := by
    rw [List.getD_eq_getElem?_getD, List.getElem?_replicate]
    split <;> rfl
  rw [bit, hzero]
  exact Nat.zero_testBit _

/-- A bit of a byte is tested with the mask. -/
theorem and_mask_ne_zero (b : UInt8) (i : ℕ) : b &&& mask i ≠ 0 ↔ b.toNat.testBit (i % 8) := by
  rw [ne_eq, ← UInt8.toNat_inj, UInt8.toNat_and, toNat_mask, Nat.and_two_pow]
  cases b.toNat.testBit (i % 8) <;> simp

/-- **A bit is set**, and no other one changes. -/
theorem bit_setBit (h : i / 8 < bitmap.length) (j : ℕ) :
    bit (setBit bitmap i) j = (decide (j = i) || bit bitmap j) := by
  rw [bit, bit, setBit, List.getD_eq_getElem?_getD, List.getD_eq_getElem?_getD]
  by_cases hbyte : i / 8 = j / 8
  · -- the bit lies in the byte that is written
    rw [← hbyte, List.getElem?_set_self h, Option.getD_some, UInt8.toNat_or, toNat_mask,
      Nat.testBit_or, Nat.testBit_two_pow, List.getD_eq_getElem?_getD, Bool.or_comm]
    congr 1
    exact decide_eq_decide.mpr ⟨fun hbit ↦ by omega, fun heq ↦ by rw [heq]⟩
  · have hne : j ≠ i := fun heq ↦ hbyte (by rw [heq])
    rw [List.getElem?_set_ne hbyte, decide_eq_false hne, Bool.false_or,
      List.getD_eq_getElem?_getD]

/-- **A bitmap is a set**: the numbers in it are those that were set. -/
theorem bit_foldl_setBit {is : List ℕ} (h : ∀ i ∈ is, i / 8 < bitmap.length) (j : ℕ) :
    bit (is.foldl setBit bitmap) j = (decide (j ∈ is) || bit bitmap j) := by
  induction is generalizing bitmap with
  | nil => simp
  | cons i is ih =>
    have hi := h i List.mem_cons_self
    have hrest : ∀ k ∈ is, k / 8 < (setBit bitmap i).length := fun k hk ↦ by
      rw [length_setBit]
      exact h k (List.mem_cons_of_mem _ hk)
    rw [List.foldl_cons, ih hrest, bit_setBit hi, ← Bool.or_assoc, Bool.or_comm (decide (j ∈ is)),
      ← Bool.decide_or]
    simp only [List.mem_cons]

end Bitmap
