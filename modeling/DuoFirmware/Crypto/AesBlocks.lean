import Mathlib
import DuoFirmware.Crypto.Aes
import DuoFirmware.Lib.Rijndael

/-!
# The blocks of AES

The functions of the class on blocks are the steps of the cipher, several at a time.
-/

namespace DuoFirmware.Crypto

open Rijndael

variable {dt st : Block} {c r : Fin 4}

instance neZeroFour : NeZero 4 := ⟨four_ne_zero⟩

/-- Where a block holds row `r` of column `c`. -/
def cell (c r : Fin 4) : Fin 16 := ⟨4 * c.val + r.val, by omega⟩

/-- A block as the state of the cipher. -/
def state (b : Block) : State := fun c r ↦ ⟨b.get (cell c r)⟩

theorem state_injective : Function.Injective state := by
  intro b b' h
  refine Vector.ext fun i hi ↦ ?_
  have hbyte := congrArg Gf256.byte (congrFun (congrFun h ⟨i / 4, by omega⟩)
    ⟨i % 4, Nat.mod_lt _ (by decide)⟩)
  have hcell : cell ⟨i / 4, by omega⟩ ⟨i % 4, Nat.mod_lt _ (by decide)⟩ = ⟨i, hi⟩ :=
    Fin.ext (Nat.div_add_mod i 4)
  rwa [state, state, hcell] at hbyte

/-! ## Bytes -/

theorem two_mul_byte : ∀ a, (⟨2⟩ : Gf256) * ⟨a⟩ = ⟨f2 a⟩ := by decide +kernel

theorem sBox_inverse : ∀ a, a = 0 ∧ unaffine (sBox a) = 0 ∨
    (⟨unaffine (sBox a)⟩ : Gf256) * ⟨a⟩ = 1 := by decide +kernel

theorem subByte_eq (a : UInt8) : subByte ⟨a⟩ = ⟨sBox a⟩ := by
  have hinverse : (⟨unaffine (sBox a)⟩ : Gf256)⁻¹ = ⟨a⟩ := by
    rcases sBox_inverse a with ⟨rfl, h⟩ | h
    · rw [h]
      exact inv_zero
    · exact inv_eq_of_mul_eq_one_right h
  exact (Equiv.eq_symm_apply subByte).mp hinverse.symm

theorem sBox_isBox : ∀ a, sBox (isBox a) = a := by decide +kernel

/-! ## Columns -/

/-- The bytes of a column that is mixed, as the code adds them up. -/
def mixed (w : Fin 4 → UInt8) : Word :=
  ![⟨f2 (w 0) ^^^ f2 (w 1) ^^^ w 1 ^^^ w 2 ^^^ w 3⟩,
    ⟨w 0 ^^^ f2 (w 1) ^^^ f2 (w 2) ^^^ w 2 ^^^ w 3⟩,
    ⟨w 0 ^^^ w 1 ^^^ f2 (w 2) ^^^ f2 (w 3) ^^^ w 3⟩,
    ⟨f2 (w 0) ^^^ w 0 ^^^ w 1 ^^^ w 2 ^^^ f2 (w 3)⟩]

theorem mixColumn_bytes (w : Fin 4 → UInt8) : mixColumn (fun r ↦ ⟨w r⟩) = mixed w := by
  have hone : (⟨1⟩ : Gf256) = 1 := rfl
  have hthree : (⟨3⟩ : Gf256) = ⟨2⟩ + 1 := rfl
  have happly : mixColumn (fun r ↦ ⟨w r⟩) = mixMatrix.mulVec fun r ↦ ⟨w r⟩ := rfl
  rw [happly]
  funext r
  rw [Matrix.mulVec, dotProduct, Fin.sum_univ_four]
  fin_cases r
  · calc (⟨2⟩ : Gf256) * ⟨w 0⟩ + ⟨3⟩ * ⟨w 1⟩ + ⟨1⟩ * ⟨w 2⟩ + ⟨1⟩ * ⟨w 3⟩
      _ = ⟨2⟩ * ⟨w 0⟩ + ⟨2⟩ * ⟨w 1⟩ + ⟨w 1⟩ + ⟨w 2⟩ + ⟨w 3⟩ := by rw [hone, hthree]; ring
      _ = mixed w 0 := by rw [two_mul_byte, two_mul_byte]; rfl
  · calc (⟨1⟩ : Gf256) * ⟨w 0⟩ + ⟨2⟩ * ⟨w 1⟩ + ⟨3⟩ * ⟨w 2⟩ + ⟨1⟩ * ⟨w 3⟩
      _ = ⟨w 0⟩ + ⟨2⟩ * ⟨w 1⟩ + ⟨2⟩ * ⟨w 2⟩ + ⟨w 2⟩ + ⟨w 3⟩ := by rw [hone, hthree]; ring
      _ = mixed w 1 := by rw [two_mul_byte, two_mul_byte]; rfl
  · calc (⟨1⟩ : Gf256) * ⟨w 0⟩ + ⟨1⟩ * ⟨w 1⟩ + ⟨2⟩ * ⟨w 2⟩ + ⟨3⟩ * ⟨w 3⟩
      _ = ⟨w 0⟩ + ⟨w 1⟩ + ⟨2⟩ * ⟨w 2⟩ + ⟨2⟩ * ⟨w 3⟩ + ⟨w 3⟩ := by rw [hone, hthree]; ring
      _ = mixed w 2 := by rw [two_mul_byte, two_mul_byte]; rfl
  · calc (⟨3⟩ : Gf256) * ⟨w 0⟩ + ⟨1⟩ * ⟨w 1⟩ + ⟨1⟩ * ⟨w 2⟩ + ⟨2⟩ * ⟨w 3⟩
      _ = ⟨2⟩ * ⟨w 0⟩ + ⟨w 0⟩ + ⟨w 1⟩ + ⟨w 2⟩ + ⟨2⟩ * ⟨w 3⟩ := by rw [hone, hthree]; ring
      _ = mixed w 3 := by rw [two_mul_byte, two_mul_byte]; rfl

/-- The bytes of a column that is unmixed, before the S-box. -/
def unmixed (w : Fin 4 → UInt8) : Fin 4 → UInt8 :=
  let x2 r := f2 (w r)
  let x4 r := f2 (x2 r)
  let x8 r := f2 (x4 r)
  let x9 r := x8 r ^^^ w r
  let xc r := x8 r ^^^ x4 r
  ![xc 0 ^^^ x2 0 ^^^ x9 1 ^^^ x2 1 ^^^ xc 2 ^^^ w 2 ^^^ x9 3,
    x9 0 ^^^ xc 1 ^^^ x2 1 ^^^ x9 2 ^^^ x2 2 ^^^ xc 3 ^^^ w 3,
    xc 0 ^^^ w 0 ^^^ x9 1 ^^^ xc 2 ^^^ x2 2 ^^^ x9 3 ^^^ x2 3,
    x9 0 ^^^ x2 0 ^^^ xc 1 ^^^ w 1 ^^^ x9 2 ^^^ xc 3 ^^^ x2 3]

theorem nine_mul_byte : ∀ a, (⟨9⟩ : Gf256) * ⟨a⟩ = ⟨f2 (f2 (f2 a)) ^^^ a⟩ := by decide +kernel

theorem eleven_mul_byte (a : UInt8) :
    (⟨11⟩ : Gf256) * ⟨a⟩ = ⟨f2 (f2 (f2 a)) ^^^ a⟩ + ⟨f2 a⟩ := by
  have heleven : (⟨11⟩ : Gf256) = ⟨9⟩ + ⟨2⟩ := rfl
  rw [heleven, add_mul, nine_mul_byte, two_mul_byte]

theorem twelve_mul_byte : ∀ a, (⟨12⟩ : Gf256) * ⟨a⟩ = ⟨f2 (f2 (f2 a)) ^^^ f2 (f2 a)⟩ := by
  decide +kernel

theorem thirteen_mul_byte (a : UInt8) :
    (⟨13⟩ : Gf256) * ⟨a⟩ = ⟨f2 (f2 (f2 a)) ^^^ f2 (f2 a)⟩ + ⟨a⟩ := by
  have hthirteen : (⟨13⟩ : Gf256) = ⟨12⟩ + 1 := rfl
  rw [hthirteen, add_mul, twelve_mul_byte, one_mul]

theorem fourteen_mul_byte (a : UInt8) :
    (⟨14⟩ : Gf256) * ⟨a⟩ = ⟨f2 (f2 (f2 a)) ^^^ f2 (f2 a)⟩ + ⟨f2 a⟩ := by
  have hfourteen : (⟨14⟩ : Gf256) = ⟨12⟩ + ⟨2⟩ := rfl
  rw [hfourteen, add_mul, twelve_mul_byte, two_mul_byte]

theorem unmixColumn_bytes (w : Fin 4 → UInt8) :
    mixColumn.symm (fun r ↦ ⟨w r⟩) = fun r ↦ ⟨unmixed w r⟩ := by
  have happly : mixColumn.symm (fun r ↦ ⟨w r⟩) = unmixMatrix.mulVec fun r ↦ ⟨w r⟩ := rfl
  rw [happly]
  funext r
  rw [Matrix.mulVec, dotProduct, Fin.sum_univ_four]
  fin_cases r
  · calc (⟨14⟩ : Gf256) * ⟨w 0⟩ + ⟨11⟩ * ⟨w 1⟩ + ⟨13⟩ * ⟨w 2⟩ + ⟨9⟩ * ⟨w 3⟩
      _ = ⟨unmixed w 0⟩ := by
        rw [fourteen_mul_byte, eleven_mul_byte, thirteen_mul_byte, nine_mul_byte, ← add_assoc,
          ← add_assoc]
        rfl
  · calc (⟨9⟩ : Gf256) * ⟨w 0⟩ + ⟨14⟩ * ⟨w 1⟩ + ⟨11⟩ * ⟨w 2⟩ + ⟨13⟩ * ⟨w 3⟩
      _ = ⟨unmixed w 1⟩ := by
        rw [nine_mul_byte, fourteen_mul_byte, eleven_mul_byte, thirteen_mul_byte, ← add_assoc,
          ← add_assoc, ← add_assoc]
        rfl
  · calc (⟨13⟩ : Gf256) * ⟨w 0⟩ + ⟨9⟩ * ⟨w 1⟩ + ⟨14⟩ * ⟨w 2⟩ + ⟨11⟩ * ⟨w 3⟩
      _ = ⟨unmixed w 2⟩ := by
        rw [thirteen_mul_byte, nine_mul_byte, fourteen_mul_byte, eleven_mul_byte, ← add_assoc,
          ← add_assoc]
        rfl
  · calc (⟨11⟩ : Gf256) * ⟨w 0⟩ + ⟨13⟩ * ⟨w 1⟩ + ⟨9⟩ * ⟨w 2⟩ + ⟨14⟩ * ⟨w 3⟩
      _ = ⟨unmixed w 3⟩ := by
        rw [eleven_mul_byte, thirteen_mul_byte, nine_mul_byte, fourteen_mul_byte, ← add_assoc,
          ← add_assoc]
        rfl

/-! ## Steps -/

theorem get_put (i j : Fin 16) (b : UInt8) :
    (put dt i b).get j = if i = j then b else dt.get j := by
  have hset : (put dt i b).get j = if i.val = j.val then b else dt.get j :=
    Vector.getElem_set i.isLt j.isLt
  rw [hset]
  simp only [Fin.val_inj]

theorem get_mixSubColumns : (mixSubColumns dt st).get (cell c r) =
    (mixed (fun r ↦ sBox (st.get (cell (c + r) r))) r).byte := by
  simp only [mixSubColumns, mixSubColumn, List.foldl, get_put, cell, mixed]
  fin_cases c <;> fin_cases r <;> simp

theorem get_invMixSubColumns : (invMixSubColumns dt st).get (cell (c + r) r) =
    isBox (unmixed (fun r ↦ st.get (cell c r)) r) := by
  simp only [invMixSubColumns, invMixSubColumn, List.foldl, get_put, cell, unmixed]
  fin_cases c <;> fin_cases r <;> simp

theorem get_eq_getElem (b : Block) {i : ℕ} (hi : i < 16) : b.get ⟨i, hi⟩ = b[i] := rfl

theorem get_shiftSubRows : (shiftSubRows st).get (cell c r) =
    sBox (st.get (cell (c + r) r)) := by
  simp only [get_eq_getElem, shiftSubRows, Vector.getElem_set, cell]
  fin_cases c <;> fin_cases r <;> simp

theorem get_invShiftSubRows : (invShiftSubRows st).get (cell (c + r) r) =
    isBox (st.get (cell c r)) := by
  simp only [get_eq_getElem, invShiftSubRows, Vector.getElem_set, cell]
  fin_cases c <;> fin_cases r <;> simp

theorem state_copyAndKey (s k : Block) :
    state (copyAndKey s k) = addRoundKey (state k) (state s) := by
  funext c r
  exact congrArg Gf256.mk (Vector.getElem_zipWith (cell c r).isLt)

theorem state_shiftSubRows : state (shiftSubRows st) = shiftRows (subBytes (state st)) := by
  funext c r
  have hbyte : shiftRows (subBytes (state st)) c r = subByte (state st (c + r) r) := rfl
  rw [hbyte, state, state, subByte_eq, get_shiftSubRows]

theorem state_mixSubColumns :
    state (mixSubColumns dt st) = mixColumns (shiftRows (subBytes (state st))) := by
  funext c
  have hshift : (fun r ↦ ⟨sBox (st.get (cell (c + r) r))⟩) = shiftRows (subBytes (state st)) c :=
    funext fun r ↦ (subByte_eq _).symm
  have hcol : mixColumns (shiftRows (subBytes (state st))) c =
      mixColumn (shiftRows (subBytes (state st)) c) := rfl
  rw [hcol, ← hshift, mixColumn_bytes]
  exact funext fun r ↦ congrArg Gf256.mk get_mixSubColumns

theorem state_invShiftSubRows :
    shiftRows (subBytes (state (invShiftSubRows st))) = state st := by
  funext c r
  have hbyte : shiftRows (subBytes (state (invShiftSubRows st))) c r =
      subByte (state (invShiftSubRows st) (c + r) r) := rfl
  rw [hbyte, state, subByte_eq, get_invShiftSubRows, sBox_isBox, state]

theorem state_invMixSubColumns :
    mixColumns (shiftRows (subBytes (state (invMixSubColumns dt st)))) = state st := by
  funext c
  have hbytes : shiftRows (subBytes (state (invMixSubColumns dt st))) c =
      mixColumn.symm (state st c) := by
    refine .trans ?_ (unmixColumn_bytes fun r ↦ st.get (cell c r)).symm
    funext r
    have hbyte : shiftRows (subBytes (state (invMixSubColumns dt st))) c r =
        subByte (state (invMixSubColumns dt st) (c + r) r) := rfl
    rw [hbyte, state, subByte_eq, get_invMixSubColumns, sBox_isBox]
  have hcol : mixColumns (shiftRows (subBytes (state (invMixSubColumns dt st)))) c =
      mixColumn (shiftRows (subBytes (state (invMixSubColumns dt st))) c) := rfl
  rw [hcol, hbytes, Equiv.apply_symm_apply]

/-! ## The rounds -/

namespace Aes

variable (a : Aes)

/-- The key of a round. -/
def key (r : ℕ) : State := state (a.roundKey r)

theorem state_encryptLoop (s : Block) (n : ℕ) :
    state (a.encryptLoop (copyAndKey s (a.roundKey 0)) (n + 1)) = rounds a.key n (state s) := by
  rw [encryptLoop, Nat.add_sub_cancel]
  induction n with
  | zero => exact state_copyAndKey _ _
  | succ n ih =>
    rw [List.range'_concat, List.foldl_append, List.foldl_cons, List.foldl_nil, state_copyAndKey,
      state_mixSubColumns, ih, Nat.one_mul, Nat.add_comm 1 n]
    rfl

theorem state_encryptBlock (n : ℕ) (h : a.round = n + 1) (s : Block) :
    state (a.encryptBlock s) = cipher a.key n (state s) := by
  rw [encryptBlock, state_copyAndKey, state_shiftSubRows, h, state_encryptLoop]
  rfl

theorem state_decryptLoop (s : Block) (n : ℕ) :
    rounds a.key n (state (copyAndKey (a.decryptLoop n s) (a.roundKey 0))) = state s := by
  induction n generalizing s with
  | zero =>
    rw [state_copyAndKey]
    exact addRoundKey_addRoundKey _ _
  | succ n ih =>
    have hround (x : State) : rounds a.key (n + 1) x = addRoundKey (a.key (n + 1))
        (mixColumns (shiftRows (subBytes (rounds a.key n x)))) := rfl
    rw [hround, decryptLoop, ih, state_invMixSubColumns, state_copyAndKey]
    exact addRoundKey_addRoundKey _ _

theorem state_decryptBlock (n : ℕ) (h : a.round = n + 1) (s : Block) :
    state (a.decryptBlock s) = (cipher a.key n).symm (state s) := by
  rw [Equiv.eq_symm_apply]
  have hcipher (x : State) : cipher a.key n x =
      addRoundKey (a.key (n + 1)) (shiftRows (subBytes (rounds a.key n x))) := rfl
  rw [hcipher, decryptBlock, h, Nat.add_sub_cancel, state_decryptLoop, state_invShiftSubRows,
    state_copyAndKey]
  exact addRoundKey_addRoundKey _ _

end Aes

end DuoFirmware.Crypto
