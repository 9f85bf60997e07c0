import DuoFirmware.Crypto.AesKeys
import Mathlib.Data.List.GetD

/-!
# Blocks in memory

What the functions of AES do to a block somewhere in memory, with the key that was set last.
-/

namespace DuoFirmware.Crypto

open Rijndael Bytes

variable {mem : List UInt8} {p q : ℕ} {k : Key} {a a' : Aes}

/-- The block at an address. -/
def blockAt (mem : List UInt8) (p : ℕ) : Block := .ofFn fun i ↦ mem.getD (p + i) 0

def stateAt (mem : List UInt8) (p : ℕ) : State := state (blockAt mem p)

/-- The block of a state. -/
def block (s : State) : Block :=
  .ofFn fun i ↦ (s ⟨i / 4, by omega⟩ ⟨i % 4, by omega⟩).byte

def bytes (s : State) : List UInt8 := (block s).toList

theorem length_bytes (s : State) : (bytes s).length = 16 := Vector.length_toList

theorem state_block (s : State) : state (block s) = s := by
  funext c r
  have hcol : (4 * c.val + r.val) / 4 = c.val := by omega
  have hrow : (4 * c.val + r.val) % 4 = r.val := by omega
  have hbyte : (block s).get (cell c r) =
      (s ⟨(4 * c.val + r.val) / 4, by omega⟩ ⟨(4 * c.val + r.val) % 4, by omega⟩).byte :=
    Vector.getElem_ofFn (cell c r).isLt
  simp only [state, hbyte, hcol, hrow, Fin.eta]

theorem bytes_state (b : Block) : bytes (state b) = b.toList :=
  congrArg Vector.toList (state_injective (state_block (state b)))

theorem getElem_blockAt (mem : List UInt8) (p : ℕ) {i : ℕ} (hi : i < 16) :
    (blockAt mem p)[i] = mem.getD (p + i) 0 := Vector.getElem_ofFn hi

theorem toList_blockAt (h : p + 16 ≤ mem.length) :
    (blockAt mem p).toList = (mem.drop p).take 16 := by
  have hlen : ((mem.drop p).take 16).length = 16 := by
    rw [List.length_take, List.length_drop]
    omega
  refine List.ext_getElem (by rw [hlen, Vector.length_toList]) fun i hi _ ↦ ?_
  rw [Vector.length_toList] at hi
  rw [Vector.getElem_toList, getElem_blockAt mem p hi, List.getElem_take, List.getElem_drop,
    List.getD_eq_getElem]

theorem readBlock_eq (h : p + 16 ≤ mem.length) : readBlock p mem = some (blockAt mem p, mem) := by
  have hblock : blockAt mem p = .ofFn fun i : Fin 16 ↦ ((mem.drop p).take 16).getD i 0 := by
    refine Vector.ext fun i hi ↦ ?_
    have hlen : i < (blockAt mem p).toList.length := hi.trans_eq Vector.length_toList.symm
    rw [getElem_blockAt mem p hi, Vector.getElem_ofFn, ← toList_blockAt h,
      List.getD_eq_getElem _ _ hlen, Vector.getElem_toList, getElem_blockAt mem p hi]
  rw [readBlock, run_bind (readRange_eq h), run_pure, hblock]

theorem writeBlock_eq (b : Block) (h : p + 16 ≤ mem.length) :
    writeBlock p b mem = some ((), splice mem p b.toList) :=
  writeRange_eq (by rwa [Vector.length_toList])

/-! ## Encryption and decryption -/

theorem encrypt_run (hround : a.round ≠ 0) (hp : p + 16 ≤ mem.length) (hq : q + 16 ≤ mem.length) :
    a.encrypt p q mem = some (SUCCESS, splice mem q (a.encryptBlock (blockAt mem p)).toList) := by
  rw [Aes.encrypt, if_pos hround, run_bind (readBlock_eq hp), run_bind (writeBlock_eq _ hq)]
  rfl

theorem decrypt_run (hround : a.round ≠ 0) (hp : p + 16 ≤ mem.length) (hq : q + 16 ≤ mem.length) :
    a.decrypt p q mem = some (SUCCESS, splice mem q (a.decryptBlock (blockAt mem p)).toList) := by
  rw [Aes.decrypt, if_pos hround, run_bind (readBlock_eq hp), run_bind (writeBlock_eq _ hq)]
  rfl

theorem encrypt_none (hround : a.round = 0) : a.encrypt p q mem = some (FAILURE, mem) := by
  rw [Aes.encrypt, if_neg (not_not.mpr hround), run_pure]

theorem decrypt_none (hround : a.round = 0) : a.decrypt p q mem = some (FAILURE, mem) := by
  rw [Aes.decrypt, if_neg (not_not.mpr hround), run_pure]

theorem Aes.Has.round_ne_zero (h : a.Has k) : a.round ≠ 0 := by
  rw [h.round_eq]
  exact Nat.succ_ne_zero _

/-- **The last call that sets or deletes the key** decides what encryption and decryption do to a
block, whatever the object held before: they apply the cipher with that key and its inverse, or
fail and change nothing. -/
theorem last_key_decides (h : a.perform call = some a') (hp : p + 16 ≤ mem.length)
    (hq : q + 16 ≤ mem.length) :
    (∀ k, call.key = some k →
      a'.encrypt p q mem = some (SUCCESS, splice mem q (bytes (k.cipher (stateAt mem p)))) ∧
        a'.decrypt p q mem =
          some (SUCCESS, splice mem q (bytes (k.cipher.symm (stateAt mem p))))) ∧
      (call.key = none →
        a'.encrypt p q mem = some (FAILURE, mem) ∧ a'.decrypt p q mem = some (FAILURE, mem)) := by
  rcases perform_spec h with ⟨hkey, hround⟩ | ⟨k, hkey, hhas⟩
  · refine ⟨fun k hk ↦ ?_, fun _ ↦ ⟨encrypt_none hround, decrypt_none hround⟩⟩
    rw [hkey] at hk
    cases hk
  · refine ⟨fun k' hk ↦ ?_, fun hk ↦ ?_⟩
    · obtain rfl := Option.some.inj (hkey.symm.trans hk)
      rw [encrypt_run hhas.round_ne_zero hp hq, decrypt_run hhas.round_ne_zero hp hq, stateAt,
        ← hhas.encryptBlock, ← hhas.decryptBlock, bytes_state, bytes_state]
      exact ⟨rfl, rfl⟩
    · rw [hkey] at hk
      cases hk

/-- A key of 128 bits, on an object that had none. -/
theorem last_key_decides_128 : ∃ a',
    Aes.clean.perform (.setKey (List.replicate 16 7) 128) = some a' ∧
    (∀ k, (KeyCall.setKey (List.replicate 16 7) 128).key = some k →
      a'.encrypt 0 4 (List.replicate 20 1) = some (SUCCESS, splice (List.replicate 20 1) 4
        (bytes (k.cipher (stateAt (List.replicate 20 1) 0)))) ∧
      a'.decrypt 0 4 (List.replicate 20 1) = some (SUCCESS, splice (List.replicate 20 1) 4
        (bytes (k.cipher.symm (stateAt (List.replicate 20 1) 0))))) ∧
    ((KeyCall.setKey (List.replicate 16 7) 128).key = none →
      a'.encrypt 0 4 (List.replicate 20 1) = some (FAILURE, List.replicate 20 1) ∧
        a'.decrypt 0 4 (List.replicate 20 1) = some (FAILURE, List.replicate 20 1)) :=
  ⟨_, rfl, last_key_decides (a := Aes.clean) rfl (by decide) (by decide)⟩

end DuoFirmware.Crypto
