import Mathlib.Data.FinEnum
import Mathlib.Algebra.Field.Basic
import Mathlib.Tactic.Ring

/-!
# The field with 256 elements

A byte is a polynomial over the field with two elements, bit `i` the coefficient of `x ^ i`, and
bytes are multiplied modulo `x ^ 8 + x ^ 4 + x ^ 3 + x + 1`. Sums of bytes are bitwise, so that a
law of the multiplication, which is linear on both sides, has to be checked on the powers of two
only.
-/

/-- An element, its coefficients as the bits of a byte. -/
structure Gf256 where
  byte : UInt8
  deriving DecidableEq, Repr

namespace Gf256

variable {f g : UInt8 → UInt8}

/-- Multiplication by `x`. -/
def xtime (a : UInt8) : UInt8 := if a &&& 0x80 = 0 then a <<< 1 else a <<< 1 ^^^ 0x1b

/-- The product with the polynomial of the lowest `n` bits. -/
def mulBits : ℕ → UInt8 → UInt8 → UInt8
  | 0, _, _ => 0
  | n + 1, a, b => (if a &&& 1 = 0 then 0 else b) ^^^ mulBits n (a >>> 1) (xtime b)

def mulByte (a b : UInt8) : UInt8 := mulBits 8 a b

/-! ## Linear maps -/

def Linear (f : UInt8 → UInt8) : Prop := ∀ a b, f (a ^^^ b) = f a ^^^ f b

theorem xor_left_comm (a b c : UInt8) : a ^^^ (b ^^^ c) = b ^^^ (a ^^^ c) := by
  rw [← UInt8.xor_assoc, UInt8.xor_comm a, UInt8.xor_assoc]

theorem xor_xor_xor_comm (a b c d : UInt8) : (a ^^^ b) ^^^ (c ^^^ d) = (a ^^^ c) ^^^ (b ^^^ d) := by
  rw [UInt8.xor_assoc, xor_left_comm b, ← UInt8.xor_assoc]

theorem Linear.zero (hf : Linear f) : f 0 = 0 := by
  have h := hf 0 0
  rwa [UInt8.xor_self, UInt8.xor_self] at h

theorem Linear.comp (hf : Linear f) (hg : Linear g) : Linear fun a ↦ f (g a) := fun a b ↦
  (congrArg f (hg a b)).trans (hf _ _)

theorem Linear.sum (hf : Linear f) (as : List UInt8) :
    f (as.foldr (· ^^^ ·) 0) = (as.map f).foldr (· ^^^ ·) 0 := by
  induction as with
  | nil => exact hf.zero
  | cons a as ih => rw [List.foldr_cons, hf, ih, List.map_cons, List.foldr_cons]

/-- The powers of two that a byte is the sum of. -/
def bits (a : UInt8) : List UInt8 :=
  ((List.range 8).filter a.toNat.testBit).map fun i ↦ .ofNat (2 ^ i)

theorem sum_bits : ∀ a, (bits a).foldr (· ^^^ ·) 0 = a := by decide +kernel

/-- Linear maps are equal when they agree on the powers of two. -/
theorem Linear.ext (hf : Linear f) (hg : Linear g)
    (h : ∀ i < 8, f (.ofNat (2 ^ i)) = g (.ofNat (2 ^ i))) (a : UInt8) : f a = g a := by
  have hbits : (bits a).map f = (bits a).map g := by
    refine List.map_congr_left fun b hb ↦ ?_
    obtain ⟨i, hi, rfl⟩ := List.mem_map.mp hb
    exact h i (List.mem_range.mp (List.mem_filter.mp hi).1)
  rw [← sum_bits a, hf.sum, hbits, hg.sum]

theorem xor_and (a b c : UInt8) : (a ^^^ b) &&& c = (a &&& c) ^^^ (b &&& c) := by
  refine UInt8.toBitVec_inj.mp (BitVec.eq_of_getLsbD_eq fun i _ ↦ ?_)
  simp only [UInt8.toBitVec_and, UInt8.toBitVec_xor, BitVec.getLsbD_and, BitVec.getLsbD_xor]
  exact Bool.and_xor_distrib_right _ _ _

theorem and_bit (c : UInt8) (hc : ∀ a, a &&& c = 0 ∨ a &&& c = c) (h0 : c ≠ 0) (a b : UInt8) :
    (a ^^^ b) &&& c = 0 ↔ (a &&& c = 0 ↔ b &&& c = 0) := by
  rw [xor_and]
  rcases hc a with ha | ha <;> rcases hc b with hb | hb <;> simp [ha, hb, h0]

theorem xtime_linear : Linear xtime := by
  intro a b
  have htop := and_bit 0x80 (by decide +kernel) (by decide) a b
  rw [xtime, xtime, xtime, UInt8.shiftLeft_xor]
  by_cases ha : a &&& 0x80 = 0 <;> by_cases hb : b &&& 0x80 = 0
  · rw [if_pos ha, if_pos hb, if_pos (htop.mpr ⟨fun _ ↦ hb, fun _ ↦ ha⟩)]
  · rw [if_pos ha, if_neg hb, if_neg fun h ↦ hb ((htop.mp h).mp ha), UInt8.xor_assoc]
  · rw [if_neg ha, if_pos hb, if_neg fun h ↦ ha ((htop.mp h).mpr hb), UInt8.xor_assoc,
      UInt8.xor_comm (b <<< 1), ← UInt8.xor_assoc]
  · rw [if_neg ha, if_neg hb, if_pos (htop.mpr ⟨fun h ↦ absurd h ha, fun h ↦ absurd h hb⟩),
      xor_xor_xor_comm, UInt8.xor_self, UInt8.xor_zero]

theorem mulBits_right (n : ℕ) (a : UInt8) : Linear (mulBits n a) := by
  intro b c
  induction n generalizing a b c with
  | zero => exact UInt8.xor_self.symm
  | succ n ih =>
    rw [mulBits, mulBits, mulBits, xtime_linear, ih, xor_xor_xor_comm]
    split
    · rw [UInt8.xor_self]
    · rfl

theorem mulBits_left (n : ℕ) (c : UInt8) : Linear fun a ↦ mulBits n a c := by
  intro a b
  dsimp only
  induction n generalizing a b c with
  | zero => exact UInt8.xor_self.symm
  | succ n ih =>
    have hlow := and_bit 1 (by decide +kernel) (by decide) a b
    rw [mulBits, mulBits, mulBits, UInt8.shiftRight_xor, ih, xor_xor_xor_comm]
    congr 1
    by_cases ha : a &&& 1 = 0 <;> by_cases hb : b &&& 1 = 0
    · rw [if_pos ha, if_pos hb, if_pos (hlow.mpr ⟨fun _ ↦ hb, fun _ ↦ ha⟩), UInt8.xor_self]
    · rw [if_pos ha, if_neg hb, if_neg fun h ↦ hb ((hlow.mp h).mp ha), UInt8.zero_xor]
    · rw [if_neg ha, if_pos hb, if_neg fun h ↦ ha ((hlow.mp h).mpr hb), UInt8.xor_zero]
    · rw [if_neg ha, if_neg hb, if_pos (hlow.mpr ⟨fun h ↦ absurd h ha, fun h ↦ absurd h hb⟩),
        UInt8.xor_self]

/-! ## The laws of the multiplication -/

theorem mulByte_right (a : UInt8) : Linear (mulByte a) := mulBits_right 8 a

theorem mulByte_left (b : UInt8) : Linear fun a ↦ mulByte a b := mulBits_left 8 b

theorem mulByte_one : ∀ a, mulByte a 1 = a := by decide +kernel

theorem mulByte_comm_powers : ∀ i < 8, ∀ j < 8, mulByte (.ofNat (2 ^ i)) (.ofNat (2 ^ j)) =
    mulByte (.ofNat (2 ^ j)) (.ofNat (2 ^ i)) := by decide +kernel

theorem mulByte_comm (a b : UInt8) : mulByte a b = mulByte b a :=
  (mulByte_left b).ext (mulByte_right b) (fun i hi ↦
    (mulByte_right _).ext (mulByte_left _) (mulByte_comm_powers i hi) b) a

theorem mulByte_assoc_powers : ∀ i < 8, ∀ j < 8, ∀ k < 8,
    mulByte (mulByte (.ofNat (2 ^ i)) (.ofNat (2 ^ j))) (.ofNat (2 ^ k)) =
      mulByte (.ofNat (2 ^ i)) (mulByte (.ofNat (2 ^ j)) (.ofNat (2 ^ k))) := by decide +kernel

theorem mulByte_assoc (a b c : UInt8) :
    mulByte (mulByte a b) c = mulByte a (mulByte b c) :=
  ((mulByte_left c).comp (mulByte_left b)).ext (mulByte_left _) (fun i hi ↦
    ((mulByte_left c).comp (mulByte_right _)).ext ((mulByte_right _).comp (mulByte_left c))
      (fun j hj ↦ (mulByte_right _).ext ((mulByte_right _).comp (mulByte_right _))
        (mulByte_assoc_powers i hi j hj) c) b) a

instance : Zero Gf256 := ⟨⟨0⟩⟩

instance : One Gf256 := ⟨⟨1⟩⟩

instance : Add Gf256 := ⟨fun a b ↦ ⟨a.byte ^^^ b.byte⟩⟩

instance : Neg Gf256 := ⟨fun a ↦ a⟩

instance : Mul Gf256 := ⟨fun a b ↦ ⟨mulByte a.byte b.byte⟩⟩

instance : CommRing Gf256 where
  nsmul := nsmulRec
  zsmul := zsmulRec
  add_assoc a b c := congrArg mk (UInt8.xor_assoc _ _ _)
  add_comm a b := congrArg mk (UInt8.xor_comm _ _)
  zero_add a := congrArg mk UInt8.zero_xor
  add_zero a := congrArg mk UInt8.xor_zero
  neg_add_cancel a := congrArg mk UInt8.xor_self
  mul_assoc a b c := congrArg mk (mulByte_assoc _ _ _)
  mul_comm a b := congrArg mk (mulByte_comm _ _)
  one_mul a := congrArg mk ((mulByte_comm _ _).trans (mulByte_one _))
  mul_one a := congrArg mk (mulByte_one _)
  left_distrib a b c := congrArg mk (mulByte_right _ _ _)
  right_distrib a b c := congrArg mk (mulByte_left _ _ _)
  zero_mul a := congrArg mk (mulByte_left _).zero
  mul_zero a := congrArg mk (mulByte_right _).zero

/-! ## Inverses -/

theorem add_self (a : Gf256) : a + a = 0 := congrArg mk UInt8.xor_self

theorem sq_add (a b : Gf256) : (a + b) ^ 2 = a ^ 2 + b ^ 2 := by
  rw [add_sq, mul_assoc, two_mul, add_self, add_zero]

/-- Squaring `n` times is linear. -/
theorem pow_linear (n : ℕ) : Linear fun a ↦ (mk a ^ 2 ^ n).byte := by
  intro a b
  have hpow : ∀ x y : Gf256, (x + y) ^ 2 ^ n = x ^ 2 ^ n + y ^ 2 ^ n := by
    intro x y
    induction n with
    | zero => rw [pow_zero, pow_one, pow_one, pow_one]
    | succ n ih => rw [pow_succ, pow_mul, pow_mul, pow_mul, ih, sq_add]
  exact congrArg byte (hpow (mk a) (mk b))

theorem pow_card_powers : ∀ i < 8,
    ((fun a : Gf256 ↦ a * a)^[8] (mk (.ofNat (2 ^ i)))).byte = .ofNat (2 ^ i) := by
  decide +kernel

theorem iterate_sq (a : Gf256) (n : ℕ) : (fun a : Gf256 ↦ a * a)^[n] a = a ^ 2 ^ n := by
  induction n with
  | zero => rw [Function.iterate_zero, id, pow_zero, pow_one]
  | succ n ih => rw [Function.iterate_succ_apply', ih, pow_succ, pow_mul, sq]

theorem pow_card (a : Gf256) : a ^ 256 = a := by
  have hpowers : ∀ i < 8, (mk (.ofNat (2 ^ i)) ^ 2 ^ 8).byte = .ofNat (2 ^ i) := by
    intro i hi
    rw [← iterate_sq]
    exact pow_card_powers i hi
  have hid : Linear fun b ↦ b := fun _ _ ↦ rfl
  exact congrArg mk ((pow_linear 8).ext hid hpowers a.byte)

/-- There are no other idempotents. -/
theorem idempotent_byte : ∀ a, mulByte a a = a → a = 0 ∨ a = 1 := by decide +kernel

theorem pow_255 {a : Gf256} (ha : a ≠ 0) : a * a ^ 254 = 1 := by
  have hidempotent : (a * a ^ 254) * (a * a ^ 254) = a * a ^ 254 := by
    calc (a * a ^ 254) * (a * a ^ 254) = a ^ 256 * a ^ 254 := by rw [← pow_succ']; ring
      _ = a * a ^ 254 := by rw [pow_card]
  rcases idempotent_byte _ (congrArg byte hidempotent) with h | h
  · refine absurd ?_ ha
    calc a = a ^ 256 := (pow_card a).symm
      _ = a * (a * a ^ 254) := by ring
      _ = 0 := by rw [show a * a ^ 254 = 0 from congrArg mk h, mul_zero]
  · exact congrArg mk h

instance : Field Gf256 where
  inv a := a ^ 254
  exists_pair_ne := ⟨0, 1, by decide⟩
  mul_inv_cancel a ha := pow_255 ha
  inv_zero := zero_pow (by decide)
  nnqsmul := _
  qsmul := _

end Gf256
