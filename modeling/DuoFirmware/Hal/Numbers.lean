import Mathlib.Tactic

/-!
# Numbers in memory

Numbers of 16 and 32 bits and their bytes, which lie in memory with the lowest one first.
-/

namespace DuoFirmware.Hal

/-- A number from its bytes, the highest one first. -/
def word16 (a b : UInt8) : UInt16 := (a.toUInt16 <<< 8) ||| b.toUInt16

def word32 (a b c d : UInt8) : UInt32 :=
  (a.toUInt32 <<< 24) ||| (b.toUInt32 <<< 16) ||| (c.toUInt32 <<< 8) ||| d.toUInt32

/-- The bytes of a number in memory, the lowest one first. -/
def bytes16 (x : UInt16) : List UInt8 := [x.toUInt8, (x >>> 8).toUInt8]

def bytes32 (x : UInt32) : List UInt8 :=
  [x.toUInt8, (x >>> 8).toUInt8, (x >>> 16).toUInt8, (x >>> 24).toUInt8]

def bswap16 (x : UInt16) : UInt16 := word16 x.toUInt8 (x >>> 8).toUInt8

def bswap32 (x : UInt32) : UInt32 :=
  word32 x.toUInt8 (x >>> 8).toUInt8 (x >>> 16).toUInt8 (x >>> 24).toUInt8

theorem bytes16_word16 (a b : UInt8) : bytes16 (word16 a b) = [b, a] := by
  have hlow : (word16 a b).toUInt8 = b := by
    apply UInt8.eq_of_toBitVec_eq
    ext i hi
    simp [word16]
  have hhigh : (word16 a b >>> 8).toUInt8 = a := by
    apply UInt8.eq_of_toBitVec_eq
    ext i hi
    simp (disch := omega) [word16, BitVec.getLsbD_of_ge]
  rw [bytes16, hlow, hhigh]

theorem bytes32_word32 (a b c d : UInt8) : bytes32 (word32 a b c d) = [d, c, b, a] := by
  have h₀ : (word32 a b c d).toUInt8 = d := by
    apply UInt8.eq_of_toBitVec_eq
    ext i hi
    simp [word32]
  have h₁ : (word32 a b c d >>> 8).toUInt8 = c := by
    apply UInt8.eq_of_toBitVec_eq
    ext i hi
    simp (disch := omega) [word32, BitVec.getLsbD_of_ge]
    rintro (⟨h, -⟩ | ⟨h, -⟩) <;> omega
  have h₂ : (word32 a b c d >>> 16).toUInt8 = b := by
    apply UInt8.eq_of_toBitVec_eq
    ext i hi
    simp (disch := omega) [word32, BitVec.getLsbD_of_ge]
    intro h
    omega
  have h₃ : (word32 a b c d >>> 24).toUInt8 = a := by
    apply UInt8.eq_of_toBitVec_eq
    ext i hi
    simp (disch := omega) [word32, BitVec.getLsbD_of_ge]
  rw [bytes32, h₀, h₁, h₂, h₃]

theorem bytes16_bswap16 (x : UInt16) : bytes16 (bswap16 x) = (bytes16 x).reverse :=
  bytes16_word16 _ _

theorem bytes32_bswap32 (x : UInt32) : bytes32 (bswap32 x) = (bytes32 x).reverse :=
  bytes32_word32 _ _ _ _

end DuoFirmware.Hal
