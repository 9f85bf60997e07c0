import DuoFirmware.Lib.Bytes
import DuoFirmware.Mdns.Emission

/-!
# The data of the TXT record

`TxtData::addEntry` should put an entry behind the ones that are there, or return false and leave
them alone. It takes the length of the entry from 8 bits and the size of the data from 16 bits, and
gives up the data that is there when it gets no memory for more.
-/

namespace DuoFirmware.Mdns

open Bytes

namespace TxtData

/-! ## What is meant -/

/-- A call of `addEntry`: what it is given, and what the memory answers, which has blocks of just
the size that it is asked for. -/
structure Call where
  key : List UInt8
  value : List UInt8
  malloc : ℕ → Option (List UInt8)
  length_malloc : ∀ n block, malloc n = some block → block.length = n

namespace Call

variable (c : Call)

/-- The number of bytes of `key=value`. -/
def length : ℕ := c.key.length + c.value.length + 1

/-- The entry: its length, and behind it `key=value`. -/
def bytes : List UInt8 := .ofNat c.length :: (c.key ++ 61 :: c.value)

theorem length_bytes : c.bytes.length = c.length + 1 := by
  rw [bytes, length, List.length_cons, List.length_append, List.length_cons]
  rfl

end Call

variable (nullData : List UInt8) (t : TxtData)

/-- What `write` writes. -/
def emitted : List UInt8 := bytes16 t.size ++ (List.range t.size).map (t.byte nullData)

theorem write_eq (out : Output) :
    t.write nullData out = (t.emitted nullData).foldl Output.writeUInt8 out := by
  rw [emitted, List.foldl_append, List.foldl_map]
  rfl

/-- **The data is kept**: what is written now is the size of the entries `bs` in 16 bits and these
themselves, and each of some calls puts an entry behind them that has its length in a byte, or
returns false and changes nothing. -/
def Kept : TxtData → List UInt8 → List Call → Prop
  | t, bs, [] => bs.length < 65536 ∧ t.emitted nullData = bytes16 bs.length ++ bs
  | t, bs, c :: calls =>
    (bs.length < 65536 ∧ t.emitted nullData = bytes16 bs.length ++ bs) ∧
      ((∃ t', t.addEntry c.malloc c.key c.value = some (true, t') ∧ c.length ≤ 255 ∧
          Kept t' (bs ++ c.bytes) calls) ∨
        t.addEntry c.malloc c.key c.value = some (false, t) ∧ Kept t bs calls)

/-- The entries fit, behind data of some size: each is less than 255 bytes long, the size stays
below 65536, and there is memory. Without memory only a call changes nothing that finds no data and
asks for none. -/
def Fits : ℕ → List Call → Prop
  | _, [] => True
  | size, c :: calls =>
    (c.length < 255 ∧ size + (c.length + 1) < 65536 ∧
        c.malloc (size + (c.length + 1)) ≠ none ∧ Fits (size + (c.length + 1)) calls) ∨
      size = 0 ∧ (c.length + 1) % 256 = 0 ∧ c.malloc 0 = none ∧ Fits 0 calls

/-! ## What a call does -/

/-- The data as it is after calls that were kept. -/
def Stores (t : TxtData) (bs : List UInt8) : Prop :=
  bs.length < 65536 ∧ t = ⟨if bs = [] then none else some bs, bs.length⟩

variable {nullData t} {bs : List UInt8} {c : Call}

theorem length_emitted : (t.emitted nullData).length = t.size + 2 := by
  rw [emitted, List.length_append, List.length_map, List.length_range, length_bytes16,
    Nat.add_comm]

theorem store_eq {block bytes : List UInt8} {i : ℕ} (h : i + bytes.length ≤ block.length) :
    store block i bytes = splice block i bytes := by
  induction bytes generalizing block i with
  | nil => exact (splice_nil block i).symm
  | cons b bytes ih =>
    rw [List.length_cons] at h
    have hi : i < block.length := by omega
    have hset : i + 1 + bytes.length ≤ (block.set i b).length := by rw [List.length_set]; omega
    have hrest := ih hset
    have hjoin := splice_splice (l := block) (i := i) (s := [b]) (t := bytes) hi.le
    rw [splice_singleton hi, List.length_singleton] at hjoin
    exact hrest.trans hjoin

theorem Stores.emitted (h : t.Stores bs) : t.emitted nullData = bytes16 bs.length ++ bs := by
  rw [TxtData.emitted, h.2]
  refine congrArg (bytes16 bs.length ++ ·) (List.ext_getElem ?_ fun i hi hi' ↦ ?_)
  · rw [List.length_map, List.length_range]
  · rw [List.getElem_map, List.getElem_range, byte, if_neg (List.ne_nil_of_length_pos (by omega)),
      Option.getD_some, List.getD_eq_getElem?_getD, List.getElem?_eq_getElem hi', Option.getD_some]

theorem Stores.getD_take (h : t.Stores bs) : (t.data.getD []).take t.size = bs := by
  rw [h.2]
  by_cases hnil : bs = []
  · rw [hnil]
    rfl
  · rw [if_neg hnil, Option.getD_some, List.take_length]

/-- The length byte of an entry is cut to 8 bits like its length. -/
theorem entry_eq (c : Call) : entry c.key c.value = c.bytes := by
  have hlength : UInt8.ofNat (addedSize c.key c.value) - 1 = .ofNat c.length := by
    rw [← UInt8.toNat_inj, UInt8.toNat_sub, UInt8.toNat_ofNat', UInt8.toNat_ofNat',
      UInt8.toNat_one, addedSize, Call.length]
    omega
  rw [entry, hlength]
  rfl

/-- **A call that stores its entry**, with no sum that is cut. -/
theorem Stores.addEntry (h : t.Stores bs) (hlength : c.length < 255)
    (hsize : bs.length + (c.length + 1) < 65536)
    (hmalloc : c.malloc (bs.length + (c.length + 1)) ≠ none) :
    ∃ t', t.addEntry c.malloc c.key c.value = some (true, t') ∧ Stores t' (bs ++ c.bytes) := by
  obtain ⟨block, hblock⟩ := Option.ne_none_iff_exists'.mp hmalloc
  have hadded : addedSize c.key c.value = c.length + 1 := by
    rw [Call.length] at hlength ⊢
    rw [addedSize]
    omega
  have hshort : c.key.length < 256 ∧ c.value.length < 256 := by
    rw [Call.length] at hlength
    omega
  have hblocksize := c.length_malloc _ _ hblock
  have hdata : t.size = bs.length := by rw [h.2]
  have hbytes := c.length_bytes
  -- the old data fills the block up to the entry, and the entry fills the rest
  have hstored : store (store block 0 bs) bs.length c.bytes = bs ++ c.bytes := by
    have hfirst : store block 0 bs = splice block 0 bs := store_eq (by omega)
    have hlen : (splice block 0 bs).length = block.length := length_splice (by omega)
    have hjoin := splice_splice (l := block) (i := 0) (s := bs) (t := c.bytes) (Nat.zero_le _)
    rw [Nat.zero_add] at hjoin
    rw [hfirst, store_eq (by omega), hjoin, splice, List.take_zero, List.nil_append,
      List.drop_eq_nil_of_le (by rw [List.length_append]; omega), List.append_nil]
  refine ⟨⟨some (bs ++ c.bytes), (bs ++ c.bytes).length⟩, ?_, ?_, ?_⟩
  · rw [TxtData.addEntry, hadded, hdata, Nat.mod_eq_of_lt hsize]
    dsimp only
    rw [hblock]
    dsimp only
    rw [if_pos hshort, ← hdata, h.getD_take, hdata, entry_eq, hstored, List.length_append, hbytes]
  · rw [List.length_append, hbytes]
    exact hsize
  · have hne : bs ++ c.bytes ≠ [] :=
      List.append_ne_nil_of_right_ne_nil _ (List.cons_ne_nil _ _)
    rw [if_neg hne]

/-- **A call without memory** changes nothing only if there is no data and none is asked for. -/
theorem Stores.addEntry_failed (h : t.Stores bs)
    (hmalloc : c.malloc ((bs.length + (c.length + 1) % 256) % 65536) = none) :
    ∃ t', t.addEntry c.malloc c.key c.value = some (false, t') ∧
      (t' = t ↔ bs = [] ∧ (c.length + 1) % 256 = 0) := by
  have hdata : t.size = bs.length := by rw [h.2]
  have hlt := h.1
  have hadded : addedSize c.key c.value = (c.length + 1) % 256 := rfl
  refine ⟨⟨none, (bs.length + (c.length + 1) % 256) % 65536⟩, ?_, ?_⟩
  · rw [TxtData.addEntry, hdata, hadded]
    dsimp only
    rw [hmalloc]
  · rw [h.2, TxtData.mk.injEq]
    constructor
    · rintro ⟨hnone, hsize⟩
      by_cases hnil : bs = []
      · rw [hnil, List.length_nil] at hsize
        exact ⟨hnil, by omega⟩
      · rw [if_neg hnil] at hnone
        cases hnone
    · rintro ⟨rfl, hzero⟩
      rw [hzero]
      exact ⟨rfl, rfl⟩

theorem addEntry_true {malloc : ℕ → Option (List UInt8)} {key value : List UInt8} {t' : TxtData}
    (h : t.addEntry malloc key value = some (true, t')) :
    malloc ((t.size + addedSize key value) % 65536) ≠ none ∧
      t'.size = (t.size + addedSize key value) % 65536 := by
  rw [TxtData.addEntry] at h
  dsimp only at h
  cases hmalloc : malloc ((t.size + addedSize key value) % 65536) with
  | none =>
    rw [hmalloc] at h
    cases h
  | some block =>
    rw [hmalloc] at h
    dsimp only at h
    split at h
    · cases h
      exact ⟨Option.some_ne_none _, rfl⟩
    · cases h

theorem addEntry_false {malloc : ℕ → Option (List UInt8)} {key value : List UInt8} {t' : TxtData}
    (h : t.addEntry malloc key value = some (false, t')) :
    malloc ((t.size + addedSize key value) % 65536) = none := by
  rw [TxtData.addEntry] at h
  dsimp only at h
  cases hmalloc : malloc ((t.size + addedSize key value) % 65536) with
  | none => rfl
  | some block =>
    rw [hmalloc] at h
    dsimp only at h
    split at h
    · cases h
    · cases h

/-! ## Runs -/

theorem Kept.emits {calls : List Call} (h : Kept nullData t bs calls) :
    bs.length < 65536 ∧ t.emitted nullData = bytes16 bs.length ++ bs := by
  cases calls with
  | nil => exact h
  | cons c calls => exact h.1

/-- A call that is kept and succeeds has an entry that fits. -/
theorem Stores.fits_of_kept (h : t.Stores bs) {t' : TxtData} {calls : List Call}
    (hcall : t.addEntry c.malloc c.key c.value = some (true, t')) (hle : c.length ≤ 255)
    (hkept : Kept nullData t' (bs ++ c.bytes) calls) :
    c.length < 255 ∧ bs.length + (c.length + 1) < 65536 ∧
      c.malloc (bs.length + (c.length + 1)) ≠ none := by
  obtain ⟨hlt, hemitted⟩ := hkept.emits
  obtain ⟨hmalloc, hsize⟩ := addEntry_true hcall
  have hlength := congrArg List.length hemitted
  have hdata : t.size = bs.length := by rw [h.2]
  have hadded : addedSize c.key c.value = (c.length + 1) % 256 := rfl
  rw [length_emitted, hsize, hdata, hadded, List.length_append, length_bytes16, List.length_append,
    c.length_bytes] at hlength
  rw [List.length_append, c.length_bytes] at hlt
  rw [hdata, hadded, show (bs.length + (c.length + 1) % 256) % 65536 =
    bs.length + (c.length + 1) by omega] at hmalloc
  exact ⟨by omega, hlt, hmalloc⟩

theorem Stores.kept_iff (h : t.Stores bs) (calls : List Call) :
    Kept nullData t bs calls ↔ Fits bs.length calls := by
  induction calls generalizing t bs with
  | nil => exact ⟨fun _ ↦ trivial, fun _ ↦ ⟨h.1, h.emitted⟩⟩
  | cons c calls ih =>
    have hdata : t.size = bs.length := by rw [h.2]
    have hrequest : (t.size + addedSize c.key c.value) % 65536 =
        (bs.length + (c.length + 1) % 256) % 65536 := by
      rw [hdata]
      rfl
    constructor
    · rintro ⟨-, ⟨t', hcall, hle, hkept⟩ | ⟨hcall, hkept⟩⟩
      · obtain ⟨hlt, hsize, hmalloc⟩ := h.fits_of_kept hcall hle hkept
        obtain ⟨t₁, hcall₁, h₁⟩ := h.addEntry hlt hsize hmalloc
        rw [hcall₁] at hcall
        cases hcall
        have hrest := (ih h₁).mp hkept
        rw [List.length_append, c.length_bytes] at hrest
        exact .inl ⟨hlt, hsize, hmalloc, hrest⟩
      · have hmalloc := hrequest ▸ addEntry_false hcall
        obtain ⟨t₁, hcall₁, hsame⟩ := h.addEntry_failed hmalloc
        rw [hcall₁] at hcall
        obtain ⟨rfl, hzero⟩ := hsame.mp (congrArg (fun r ↦ r.2) (Option.some.inj hcall))
        rw [hzero] at hmalloc
        exact .inr ⟨rfl, hzero, hmalloc, (ih h).mp hkept⟩
    · rintro (⟨hlt, hsize, hmalloc, hrest⟩ | ⟨hzero, hadded, hmalloc, hrest⟩)
      · obtain ⟨t₁, hcall, h₁⟩ := h.addEntry hlt hsize hmalloc
        refine ⟨⟨h.1, h.emitted⟩, .inl ⟨t₁, hcall, hlt.le, (ih h₁).mpr ?_⟩⟩
        rw [List.length_append, c.length_bytes]
        exact hrest
      · obtain rfl := List.length_eq_zero_iff.mp hzero
        obtain ⟨t₁, hcall, hsame⟩ := h.addEntry_failed (c := c) (by rw [hadded]; exact hmalloc)
        obtain rfl := hsame.mpr ⟨rfl, hadded⟩
        exact ⟨⟨h.1, h.emitted⟩, .inr ⟨hcall, (ih h).mpr hrest⟩⟩

/-- **When the data of the TXT record is kept**: `write` always writes the size and the data, and
in a run that starts without data these are the accepted entries, and refused calls change nothing,
if and only if the entries fit. -/
theorem kept_iff_fits (nullData : List UInt8) (calls : List Call) :
    (∀ (t : TxtData) (out : Output),
        t.write nullData out = (t.emitted nullData).foldl Output.writeUInt8 out) ∧
      (Kept nullData {} [] calls ↔ Fits 0 calls) :=
  have hnew : Stores {} [] := ⟨show 0 < 65536 by decide, rfl⟩
  ⟨fun t out ↦ t.write_eq nullData out, hnew.kept_iff calls⟩

/-- `a=b`, with memory or without it. -/
def shortEntry (memory : Bool) : Call where
  key := [97]
  value := [98]
  malloc n := if memory then some (List.replicate n 0) else none
  length_malloc n block h := by
    cases memory with
    | false => cases h
    | true =>
      cases h
      exact List.length_replicate

/-- Without memory for a second entry, the first one is lost. -/
theorem shortEntry_lost : ¬ Kept [] {} [] [shortEntry true, shortEntry false] := by
  rintro ⟨-, ⟨t', hcall, -, -, ⟨t₂, hcall₂, -⟩ | ⟨hcall₂, -⟩⟩ | ⟨hcall, -⟩⟩
  · cases hcall
    cases hcall₂
  · cases hcall
    cases hcall₂
  · cases hcall

end TxtData

end DuoFirmware.Mdns
