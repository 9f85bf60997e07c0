import DuoFirmware.Lib.Gf256
import Mathlib.LinearAlgebra.Matrix.Circulant
import Mathlib.Logic.Equiv.Basic

/-!
# The block cipher

The steps of the cipher as permutations of the state, each with its inverse, and the expansion of
the key. The state is four columns of four bytes. Decryption is the inverse of encryption, which has
the inverses of the steps in the opposite order.
-/

namespace Rijndael

/-- A column, or a word of the key. -/
abbrev Word := Fin 4 → Gf256

/-- The columns. -/
abbrev State := Fin 4 → Word

/-! ## The steps -/

def rotate (a : UInt8) (n : UInt8) : UInt8 := a <<< n ||| a >>> (8 - n)

/-- The affine map of the S-box. -/
def affine (a : UInt8) : UInt8 :=
  a ^^^ rotate a 1 ^^^ rotate a 2 ^^^ rotate a 3 ^^^ rotate a 4 ^^^ 0x63

def unaffine (a : UInt8) : UInt8 := rotate a 1 ^^^ rotate a 3 ^^^ rotate a 6 ^^^ 0x05

theorem unaffine_affine : ∀ a, unaffine (affine a) = a := by decide +kernel

theorem affine_unaffine : ∀ a, affine (unaffine a) = a := by decide +kernel

/-- The S-box: the inverse in the field, then the affine map. -/
def subByte : Equiv.Perm Gf256 where
  toFun a := ⟨affine a⁻¹.byte⟩
  invFun b := (⟨unaffine b.byte⟩ : Gf256)⁻¹
  left_inv a := by
    dsimp only
    rw [unaffine_affine]
    exact inv_inv a
  right_inv b := by
    dsimp only
    rw [inv_inv, affine_unaffine]

def subBytes : Equiv.Perm State := .piCongrRight fun _ ↦ .piCongrRight fun _ ↦ subByte

/-- Row `r` goes `r` columns to the left. -/
def shiftRows : Equiv.Perm State where
  toFun s c r := s (c + r) r
  invFun s c r := s (c - r) r
  left_inv s := funext fun c ↦ funext fun r ↦ congrArg (s · r) (sub_add_cancel c r)
  right_inv s := funext fun c ↦ funext fun r ↦ congrArg (s · r) (add_sub_cancel_right c r)

/-- The rows are `2 3 1 1`, and so on. -/
def mixMatrix : Matrix (Fin 4) (Fin 4) Gf256 := .circulant ![⟨2⟩, ⟨1⟩, ⟨1⟩, ⟨3⟩]

/-- The rows are `14 11 13 9`, and so on. -/
def unmixMatrix : Matrix (Fin 4) (Fin 4) Gf256 := .circulant ![⟨14⟩, ⟨9⟩, ⟨13⟩, ⟨11⟩]

theorem unmix_mul_mix : unmixMatrix * mixMatrix = 1 := by
  have hproduct : (Matrix.circulant ![⟨14⟩, ⟨9⟩, ⟨13⟩, ⟨11⟩]).mulVec
      (![⟨2⟩, ⟨1⟩, ⟨1⟩, ⟨3⟩] : Fin 4 → Gf256) = Pi.single 0 1 := by decide +kernel
  rw [unmixMatrix, mixMatrix, Matrix.circulant_mul, hproduct, Matrix.circulant_single_one]

theorem mix_mul_unmix : mixMatrix * unmixMatrix = 1 := by
  rw [mixMatrix, unmixMatrix, Matrix.circulant_mul_comm]
  exact unmix_mul_mix

def mixColumn : Equiv.Perm Word where
  toFun := mixMatrix.mulVec
  invFun := unmixMatrix.mulVec
  left_inv w := by rw [Matrix.mulVec_mulVec, unmix_mul_mix, Matrix.one_mulVec]
  right_inv w := by rw [Matrix.mulVec_mulVec, mix_mul_unmix, Matrix.one_mulVec]

def mixColumns : Equiv.Perm State := .piCongrRight fun _ ↦ mixColumn

def addRoundKey (k : State) : Equiv.Perm State := .addRight k

theorem addRoundKey_addRoundKey (k s : State) : addRoundKey k (addRoundKey k s) = s :=
  funext fun c ↦ funext fun r ↦ by
    have hbyte : addRoundKey k (addRoundKey k s) c r = s c r + k c r + k c r := rfl
    rw [hbyte, add_assoc, Gf256.add_self, add_zero]

/-! ## The cipher -/

/-- A round that is not the last one. -/
def round (k : State) : Equiv.Perm State :=
  subBytes.trans (shiftRows.trans (mixColumns.trans (addRoundKey k)))

/-- The first round key and `n` rounds. -/
def rounds (k : ℕ → State) : ℕ → Equiv.Perm State
  | 0 => addRoundKey (k 0)
  | n + 1 => (rounds k n).trans (round (k (n + 1)))

/-- A cipher of `n + 1` rounds. The last one does not mix the columns. -/
def cipher (k : ℕ → State) (n : ℕ) : Equiv.Perm State :=
  (rounds k n).trans (subBytes.trans (shiftRows.trans (addRoundKey (k (n + 1)))))

theorem rounds_congr {k k' : ℕ → State} {n : ℕ} (h : ∀ r ≤ n, k r = k' r) :
    rounds k n = rounds k' n := by
  induction n with
  | zero => rw [rounds, rounds, h 0 le_rfl]
  | succ n ih =>
    rw [rounds, rounds, ih fun r hr ↦ h r (Nat.le_succ_of_le hr), h (n + 1) le_rfl]

theorem cipher_congr {k k' : ℕ → State} {n : ℕ} (h : ∀ r ≤ n + 1, k r = k' r) :
    cipher k n = cipher k' n := by
  rw [cipher, cipher, rounds_congr fun r hr ↦ h r (Nat.le_succ_of_le hr), h (n + 1) le_rfl]

/-! ## The key -/

/-- A key of 128, 192 or 256 bits. -/
structure Key where
  nk : ℕ
  words : Fin nk → Word
  nk_eq : nk = 4 ∨ nk = 6 ∨ nk = 8

def subWord (w : Word) : Word := fun r ↦ subByte (w r)

def rotWord (w : Word) : Word := fun r ↦ w (r + 1)

/-- The constant for the `n`-th multiple of the length of the key. -/
def rcon (n : ℕ) : Word := ![(⟨2⟩ : Gf256) ^ (n - 1), 0, 0, 0]

namespace Key

variable (k : Key)

theorem nk_pos : 0 < k.nk := by
  rcases k.nk_eq with h | h | h <;> rw [h] <;> decide

/-- What is added to the word `nk` places before word `i`. -/
def temp (i : ℕ) (w : Word) : Word :=
  if i % k.nk = 0 then subWord (rotWord w) + rcon (i / k.nk)
  else if 6 < k.nk ∧ i % k.nk = 4 then subWord w
  else w

/-- The words of the key schedule. -/
def expand (i : ℕ) : Word :=
  if h : i < k.nk then k.words ⟨i, h⟩
  else expand (i - k.nk) + k.temp i (expand (i - 1))
termination_by i
decreasing_by
  · have hpos := k.nk_pos
    omega
  · have hpos := k.nk_pos
    omega

theorem expand_of_lt {i : ℕ} (h : i < k.nk) : k.expand i = k.words ⟨i, h⟩ := by
  rw [expand, dif_pos h]

theorem expand_of_le {i : ℕ} (h : k.nk ≤ i) :
    k.expand i = k.expand (i - k.nk) + k.temp i (k.expand (i - 1)) := by
  rw [expand, dif_neg (not_lt.mpr h)]

/-- The key of round `r`. -/
def roundKey (r : ℕ) : State := fun c ↦ k.expand (4 * r + c)

/-- There are `nk + 6` rounds. -/
def cipher : Equiv.Perm State := Rijndael.cipher k.roundKey (k.nk + 5)

end Key

end Rijndael
