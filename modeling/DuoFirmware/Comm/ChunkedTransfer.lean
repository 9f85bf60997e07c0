import Mathlib.Algebra.Order.Floor.Div
import Mathlib.Data.Rat.Floor
import DuoFirmware.Lib.Bitmap
import DuoFirmware.Lib.Bytes

/-!
# File transfer in chunks

A file arrives in chunks of one size, in any order. A bitmap has a bit for each chunk that was
received. The number of chunks and the size of the bitmap are computed with sums of 32 bits.

The bitmap is a buffer of its own; a program fails when it accesses a byte outside of it.
-/

namespace DuoFirmware.Comm

open Bytes Bitmap

/-- `FileTransfer::Descriptor`. -/
structure Descriptor where
  fileLength : UInt32

def Descriptor.chunkCount (d : Descriptor) (chunkSize : UInt32) : UInt32 :=
  if chunkSize ≠ 0 then (d.fileLength + chunkSize - 1) / chunkSize else 0

structure ChunkedTransfer where
  file : Descriptor
  chunkSize : UInt16

namespace ChunkedTransfer

def chunkBitmapSize (t : ChunkedTransfer) : UInt32 :=
  (t.file.chunkCount t.chunkSize.toUInt32 + 7) / 8

/-- `uint8_t(1 << (idx & 7))`. -/
def chunkMask (idx : UInt16) : UInt8 := ((1 : UInt16) <<< (idx &&& 7)).toUInt8

def flagChunkReceived (idx : UInt16) : BufferM Unit := do
  let b ← read (idx >>> 3).toNat
  write (idx >>> 3).toNat (b ||| chunkMask idx)

def isChunkReceived (idx : UInt16) : BufferM Bool := do
  let b ← read (idx >>> 3).toNat
  pure (b &&& chunkMask idx ≠ 0)

/-- Some chunks are flagged, one after the other. -/
def flagChunksReceived : List UInt16 → BufferM Unit
  | [] => pure ()
  | idx :: idxs => do
    flagChunkReceived idx
    flagChunksReceived idxs

/-! ## The bitmap -/

variable {bitmap : List UInt8} {idx : UInt16} {idxs : List UInt16}

/-- An index has its bit inside the bitmap. -/
def Inside (bitmap : List UInt8) (idx : UInt16) : Prop := idx.toNat / 8 < bitmap.length

theorem toNat_byteIndex (idx : UInt16) : (idx >>> 3).toNat = idx.toNat / 8 := by
  rw [UInt16.toNat_shiftRight, Nat.shiftRight_eq_div_pow]
  rfl

theorem chunkMask_eq (idx : UInt16) : chunkMask idx = mask idx.toNat := by
  have hlow : (idx &&& 7).toNat = idx.toNat % 8 := by
    rw [UInt16.toNat_and]
    exact Nat.and_two_pow_sub_one_eq_mod _ 3
  have hall : ∀ n < 8, ((1 : UInt16) <<< UInt16.ofNat n).toUInt8 = UInt8.ofNat (2 ^ n) := by
    decide
  rw [chunkMask, mask, ← hall _ (Nat.mod_lt _ (by decide)), ← hlow, UInt16.ofNat_toNat]

theorem read_inside (h : Inside bitmap idx) :
    read (idx >>> 3).toNat bitmap = some (bitmap.getD (idx.toNat / 8) 0, bitmap) := by
  rw [toNat_byteIndex]
  refine read_eq_some ?_
  rw [List.getD_eq_getElem?_getD, List.getElem?_eq_getElem h, Option.getD_some]

/-- **Flagging** sets the bit, -/
theorem flagChunkReceived_eq (h : Inside bitmap idx) :
    flagChunkReceived idx bitmap = some ((), setBit bitmap idx.toNat) := by
  rw [flagChunkReceived, run_bind (read_inside h), toNat_byteIndex, write_eq _ h,
    splice_singleton h, chunkMask_eq]
  rfl

/-- and fails outside the bitmap. -/
theorem flagChunkReceived_eq_none (h : ¬ Inside bitmap idx) :
    flagChunkReceived idx bitmap = none := by
  rw [flagChunkReceived, toNat_byteIndex]
  exact run_bind_none (read_eq_none (not_lt.mp h))

/-- **Testing** reads the bit. -/
theorem isChunkReceived_eq (h : Inside bitmap idx) :
    isChunkReceived idx bitmap = some (bit bitmap idx.toNat, bitmap) := by
  have hbit : decide (bitmap.getD (idx.toNat / 8) 0 &&& mask idx.toNat ≠ 0) =
      bit bitmap idx.toNat := by
    rw [Bool.eq_iff_iff, decide_eq_true_eq, and_mask_ne_zero, bit]
  rw [isChunkReceived, run_bind (read_inside h), chunkMask_eq, hbit]
  rfl

theorem flagChunksReceived_eq (h : ∀ idx ∈ idxs, Inside bitmap idx) :
    flagChunksReceived idxs bitmap = some ((), (idxs.map UInt16.toNat).foldl setBit bitmap) := by
  induction idxs generalizing bitmap with
  | nil => rfl
  | cons idx idxs ih =>
    have hrest : ∀ i ∈ idxs, Inside (setBit bitmap idx.toNat) i := fun i hi ↦ by
      rw [Inside, length_setBit]
      exact h i (List.mem_cons_of_mem _ hi)
    rw [flagChunksReceived, run_bind (flagChunkReceived_eq (h idx List.mem_cons_self)), ih hrest]
    rfl

/-- **The chunk bitmap is a set.** After any sequence of chunks is flagged in an empty bitmap, those
are the chunks that were received; and in every bitmap, flagging a chunk does not change the answer
for another one. -/
theorem bitmap_is_set (size : ℕ) :
    (∀ idxs : List UInt16, (∀ idx ∈ idxs, Inside (List.replicate size 0) idx) →
      ∃ bitmap, flagChunksReceived idxs (List.replicate size 0) = some ((), bitmap) ∧
        bitmap.length = size ∧ ∀ idx, Inside bitmap idx →
          isChunkReceived idx bitmap = some (decide (idx ∈ idxs), bitmap)) ∧
    ∀ (bitmap : List UInt8) (idx other : UInt16), bitmap.length = size → Inside bitmap idx →
      Inside bitmap other → other ≠ idx → ∃ bitmap',
        flagChunkReceived idx bitmap = some ((), bitmap') ∧
          (isChunkReceived other bitmap').map Prod.fst =
            (isChunkReceived other bitmap).map Prod.fst := by
  constructor
  · intro idxs h
    have hlength : ((idxs.map UInt16.toNat).foldl setBit (List.replicate size 0)).length = size :=
      (length_foldl_setBit _ _).trans List.length_replicate
    refine ⟨_, flagChunksReceived_eq h, hlength, fun idx hidx ↦ ?_⟩
    have hinside : ∀ i ∈ idxs.map UInt16.toNat,
        i / 8 < (List.replicate size (0 : UInt8)).length := by
      intro i hi
      obtain ⟨idx', hidx', rfl⟩ := List.mem_map.mp hi
      exact h idx' hidx'
    rw [isChunkReceived_eq hidx, bit_foldl_setBit hinside, bit_replicate, Bool.or_false]
    congr 2
    exact decide_eq_decide.mpr (List.mem_map_of_injective fun _ _ ↦ UInt16.toNat_inj.mp)
  · intro bitmap idx other _ hidx hother hne
    have hother' : Inside (setBit bitmap idx.toNat) other := by rwa [Inside, length_setBit]
    have hbit : decide (other.toNat = idx.toNat) = false :=
      decide_eq_false fun heq ↦ hne (UInt16.toNat_inj.mp heq)
    refine ⟨_, flagChunkReceived_eq hidx, ?_⟩
    rw [isChunkReceived_eq hother, isChunkReceived_eq hother', bit_setBit hidx, hbit, Bool.false_or]
    rfl

/-- Chunks that arrive out of order, one of them twice. -/
theorem bitmap_is_set_nine : ∃ bitmap,
    flagChunksReceived [9, 2, 9] (List.replicate 2 0) = some ((), bitmap) ∧ bitmap.length = 2 ∧
      ∀ idx, Inside bitmap idx →
        isChunkReceived idx bitmap = some (decide (idx ∈ [9, 2, 9]), bitmap) :=
  (bitmap_is_set 2).1 [9, 2, 9] fun idx h ↦ by
    rcases List.mem_cons.mp h with rfl | h
    · exact Nat.lt_succ_self 1
    · rcases List.mem_cons.mp h with rfl | h
      · exact Nat.zero_lt_two
      · rw [List.mem_singleton.mp h]
        exact Nat.lt_succ_self 1

/-! ## The number of chunks -/

/-- The number of chunks that a file has. -/
def chunks (t : ChunkedTransfer) : ℕ := ⌈(t.file.fileLength.toNat : ℚ) / t.chunkSize.toNat⌉₊

/-- The number of chunks is right, and the bitmap has a bit for each of them that has an index. -/
structure Accounts (t : ChunkedTransfer) : Prop where
  count : (t.file.chunkCount t.chunkSize.toUInt32).toNat = t.chunks
  flag : ∀ idx : UInt16, idx.toNat < t.chunks →
    ∃ r, flagChunkReceived idx (List.replicate t.chunkBitmapSize.toNat 0) = some r

variable {t : ChunkedTransfer}

/-- Rounding up a quotient. -/
theorem ceil_div_eq {n k : ℕ} (hk : 0 < k) : ⌈(n : ℚ) / k⌉₊ = (n + k - 1) / k := by
  rw [← Nat.ceilDiv_eq_add_pred_div]
  refine eq_of_forall_ge_iff fun m ↦ ?_
  have hk' : (0 : ℚ) < k := Nat.cast_pos.mpr hk
  rw [Nat.ceil_le, div_le_iff₀ hk', ceilDiv_le_iff_le_mul hk, mul_comm k]
  exact_mod_cast Iff.rfl

theorem chunkSize_pos (h : t.chunkSize ≠ 0) : 0 < t.chunkSize.toNat :=
  Nat.pos_of_ne_zero fun hc ↦ h (UInt16.toNat_inj.mp hc)

/-- The number that is computed, from the sum that may wrap around. -/
theorem toNat_chunkCount (h : t.chunkSize ≠ 0) :
    (t.file.chunkCount t.chunkSize.toUInt32).toNat =
      (t.file.fileLength.toNat + t.chunkSize.toNat - 1) % 4294967296 / t.chunkSize.toNat := by
  have hpos := chunkSize_pos h
  have hne : t.chunkSize.toUInt32 ≠ 0 := fun hc ↦ by
    have hzero := congrArg UInt32.toNat hc
    rw [UInt16.toNat_toUInt32] at hzero
    exact hpos.ne' hzero
  rw [Descriptor.chunkCount, if_pos hne, UInt32.toNat_div, UInt32.toNat_sub, UInt32.toNat_add,
    UInt16.toNat_toUInt32]
  have hone : (1 : UInt32).toNat = 1 := rfl
  congr 1
  omega

theorem toNat_chunkBitmapSize : t.chunkBitmapSize.toNat =
    ((t.file.chunkCount t.chunkSize.toUInt32).toNat + 7) % 4294967296 / 8 := by
  rw [chunkBitmapSize, UInt32.toNat_div, UInt32.toNat_add]
  rfl

/-- Flagging a chunk in the bitmap, or failing. -/
theorem flag_iff {size : ℕ} {idx : UInt16} :
    (∃ r, flagChunkReceived idx (List.replicate size 0) = some r) ↔ idx.toNat / 8 < size := by
  have hinside : Inside (List.replicate size 0) idx ↔ idx.toNat / 8 < size := by
    rw [Inside, List.length_replicate]
  rw [← hinside]
  constructor
  · rintro ⟨r, hr⟩
    by_contra hc
    rw [flagChunkReceived_eq_none hc] at hr
    cases hr
  · exact fun h ↦ ⟨_, flagChunkReceived_eq h⟩

/-- **The count is right** if and only if the first sum does not wrap around. -/
theorem chunkCount_eq_iff (h : t.chunkSize ≠ 0) :
    (t.file.chunkCount t.chunkSize.toUInt32).toNat = t.chunks ↔
      t.file.fileLength.toNat + t.chunkSize.toNat ≤ 4294967296 := by
  have hpos := chunkSize_pos h
  have hsize := t.chunkSize.toNat_lt
  have hlength := t.file.fileLength.toNat_lt
  rw [toNat_chunkCount h, chunks, ceil_div_eq hpos]
  generalize t.file.fileLength.toNat = n at *
  generalize t.chunkSize.toNat = k at *
  constructor
  · intro heq
    by_contra hwraps
    -- the sum that wraps around is less than the size of a chunk
    have hmod : (n + k - 1) % 4294967296 / k = 0 := Nat.div_eq_of_lt (by omega)
    have hone : 1 ≤ (n + k - 1) / k := (Nat.one_le_div_iff hpos).mpr (by omega)
    omega
  · intro hle
    rw [Nat.mod_eq_of_lt (by omega)]

/-- **The bitmap is large enough** if and only if the second sum does not wrap around. -/
theorem bitmapSize_iff {n : ℕ} (hn : n < 4294967296) :
    (∀ idx : UInt16, idx.toNat < n → idx.toNat / 8 < (n + 7) % 4294967296 / 8) ↔
      n < 4294967289 := by
  constructor
  · intro hfits
    by_contra hwraps
    have hfirst := hfits 0 (by rw [UInt16.toNat_zero]; omega)
    omega
  · intro hlt idx hidx
    rw [Nat.mod_eq_of_lt (by omega)]
    omega

/-- When a file has so many chunks that the second sum wraps around. -/
theorem chunks_lt_iff (h : t.chunkSize ≠ 0)
    (hle : t.file.fileLength.toNat + t.chunkSize.toNat ≤ 4294967296) :
    t.chunks < 4294967289 ↔ (t.chunkSize = 1 → t.file.fileLength.toNat < 4294967289) := by
  have hpos := chunkSize_pos h
  have hone : t.chunkSize = 1 ↔ t.chunkSize.toNat = 1 := UInt16.toNat_inj.symm
  rw [chunks, ceil_div_eq hpos, hone]
  generalize t.file.fileLength.toNat = n at *
  generalize t.chunkSize.toNat = k at *
  rcases Nat.eq_or_lt_of_le hpos with rfl | htwo
  · rw [Nat.add_sub_cancel, Nat.div_one]
    exact ⟨fun hn _ ↦ hn, fun hn ↦ hn rfl⟩
  · have hhalf : (n + k - 1) / k ≤ (n + k - 1) / 2 := Nat.div_le_div_left htwo (by decide)
    exact ⟨fun _ hk ↦ absurd hk.symm htwo.ne, fun _ ↦ by omega⟩

/-- **The chunks are accounted for** if and only if neither sum wraps around. -/
theorem accounts_iff (t : ChunkedTransfer) (h : t.chunkSize ≠ 0) :
    Accounts t ↔ t.file.fileLength.toNat + t.chunkSize.toNat ≤ 4294967296 ∧
      (t.chunkSize = 1 → t.file.fileLength.toNat < 4294967289) := by
  have hsize : (t.file.chunkCount t.chunkSize.toUInt32).toNat = t.chunks →
      ((∀ idx : UInt16, idx.toNat < t.chunks →
        ∃ r, flagChunkReceived idx (List.replicate t.chunkBitmapSize.toNat 0) = some r) ↔
          t.chunks < 4294967289) := by
    intro hcount
    have hlt := (t.file.chunkCount t.chunkSize.toUInt32).toNat_lt
    rw [hcount] at hlt
    simp only [flag_iff, toNat_chunkBitmapSize, hcount]
    exact bitmapSize_iff hlt
  constructor
  · rintro ⟨hcount, hflag⟩
    have hle := (chunkCount_eq_iff h).mp hcount
    exact ⟨hle, (chunks_lt_iff h hle).mp ((hsize hcount).mp hflag)⟩
  · rintro ⟨hle, hone⟩
    have hcount := (chunkCount_eq_iff h).mpr hle
    exact ⟨hcount, (hsize hcount).mpr ((chunks_lt_iff h hle).mpr hone)⟩

/-- A file of 1 MB in chunks of 512 bytes. -/
theorem accounts_iff_oneMB : Accounts ⟨⟨1048576⟩, 512⟩ ↔
    (1048576 : UInt32).toNat + (512 : UInt16).toNat ≤ 4294967296 ∧
      ((512 : UInt16) = 1 → (1048576 : UInt32).toNat < 4294967289) :=
  accounts_iff ⟨⟨1048576⟩, 512⟩ (by decide)

/-- The largest length has no chunks. -/
theorem not_accounts_largest :
    ((⟨⟨4294967295⟩, 512⟩ : ChunkedTransfer).file.chunkCount 512).toNat = 0 ∧
      ¬ Accounts ⟨⟨4294967295⟩, 512⟩ := by
  have hcount : (⟨⟨4294967295⟩, 512⟩ : ChunkedTransfer).chunkSize ≠ 0 := by decide
  refine ⟨by decide, fun h ↦ ?_⟩
  have hle := (chunkCount_eq_iff hcount).mp h.count
  exact absurd hle (by decide)

end ChunkedTransfer

end DuoFirmware.Comm
