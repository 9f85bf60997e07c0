import DuoFirmware.Eeprom.Log

/-!
# Appending records

`writeRangeChanged` writes the records of the changed values from the highest slot down to the
first empty one, so the log does not grow before the very last record. Two things can still go
wrong: a slot above the empty one may hold what an interrupted write left there, which a store that
verifies notices, and power may fail while the last record is half written.

The four bytes of a record go to flash in the order data, status, low and high byte of the index.
The slot turns valid with the third byte already: the high byte of its index is then still `0xFF`.
That is harmless only when the low byte is `0xFF` too.
-/

namespace DuoFirmware.EEPROMEmulation

open NorFlash FlashM KeyedLog

variable (E : Layout)

/-! ## Rules for the store -/

theorem frozen_storeWrite (a : ℕ) (bs : List UInt8) : Frozen (storeWrite E a bs) :=
  (frozen_programBytes _ _).bind fun _ ↦
    .ite ((frozen_look _).bind fun _ ↦ .ite (frozen_pure _) (frozen_pure _)) (frozen_pure _)

theorem frozen_writePageStatus (page : LogicalPage) (status : ℕ) :
    Frozen (writePageStatus E page status) :=
  (frozen_storeWrite E _ _).bind fun _ ↦ frozen_pure _

theorem frozen_erasePage (page : LogicalPage) : Frozen (erasePage E page) :=
  (frozen_step _).bind fun _ ↦ frozen_pure _

theorem frozen_writeRecord (writeAddress endAddress : ℕ) (r : Record) :
    Frozen (writeRecord E writeAddress endAddress r) :=
  .ite (frozen_pure _) ((frozen_storeWrite E _ _).bind fun _ ↦ frozen_pure _)

/-- The store takes `bs` at `a`: it does not verify, or what reads back is `bs`. -/
def accepts (mem : Memory) (a : ℕ) (bs : List UInt8) : Bool :=
  !E.verifies || (mem.program a bs).bytes a bs.length == bs

variable {E} {mem mem' : Memory} {page : LogicalPage} {C : ℕ → Memory → Prop}

theorem accepts_of_erased {a : ℕ} {bs : List UInt8} (h : mem.Erased a (a + bs.length)) :
    accepts E mem a bs = true := by
  rw [accepts, Memory.bytes_program_of_erased h, beq_self_eq_true, Bool.or_true]

theorem wpc_storeWrite {a : ℕ} {bs : List UInt8} {Q : ℤ → ℕ → Memory → Prop}
    (hQ : Q (if accepts E mem a bs then 0 else -1) bs.length (mem.program a bs))
    (hC : ∀ k, 1 ≤ k → k ≤ bs.length → C k (mem.program a (bs.take k))) :
    wpc (storeWrite E a bs) Q C mem := by
  refine wpc_bind (fun _ ↦ .ite ((frozen_look _).bind fun _ ↦ .ite (frozen_pure _) (frozen_pure _))
    (frozen_pure _)) (wpc_programBytes ?_ hC)
  refine wpc_look_bind ?_
  by_cases h : accepts E mem a bs = true
  · have hc : (E.verifies && (mem.program a bs).bytes a bs.length != bs) = false := by
      rw [accepts] at h
      cases hv : E.verifies <;> simp_all
    rw [if_pos h] at hQ
    rw [hc]
    exact wpc_pure hQ
  · have hc : (E.verifies && (mem.program a bs).bytes a bs.length != bs) = true := by
      rw [accepts] at h
      cases hv : E.verifies <;> simp_all
    rw [if_neg h] at hQ
    rw [hc]
    exact wpc_pure hQ

theorem wpc_writePageStatus {status : ℕ} {Q : Bool → ℕ → Memory → Prop}
    (hQ : Q (accepts E mem (E.getPageBegin page) (PageHeader.toBytes status)) 4
      (mem.program (E.getPageBegin page) (PageHeader.toBytes status)))
    (hC : ∀ k, 1 ≤ k → k ≤ 4 →
      C k (mem.program (E.getPageBegin page) ((PageHeader.toBytes status).take k))) :
    wpc (writePageStatus E page status) Q C mem := by
  refine wpc_bind (fun _ ↦ frozen_pure _) (wpc_storeWrite (wpc_pure ?_) hC)
  by_cases h : accepts E mem (E.getPageBegin page) (PageHeader.toBytes status) = true <;>
    simpa [h] using hQ

theorem wpc_erasePage {Q : Unit → ℕ → Memory → Prop}
    (hQ : Q () 1 (mem.erase (E.getPageBegin page) (E.getPageEnd page)))
    (hC : C 1 (mem.erase (E.getPageBegin page) (E.getPageEnd page))) :
    wpc (erasePage E page) Q C mem :=
  wpc_bind (fun _ ↦ frozen_pure _) (wpc_step (wpc_pure hQ) hC)

/-- A record that fits is written; the result says whether the store took it. -/
theorem wpc_writeRecord {a e : ℕ} {r : Record} {Q : Bool → ℕ → Memory → Prop} (hfit : a + 4 ≤ e)
    (hQ : Q (accepts E mem a r.toBytes) 4 (mem.program a r.toBytes))
    (hC : ∀ k, 1 ≤ k → k ≤ 4 → C k (mem.program a (r.toBytes.take k))) :
    wpc (writeRecord E a e r) Q C mem := by
  rw [writeRecord, if_neg (by omega)]
  refine wpc_bind (fun _ ↦ frozen_pure _) (wpc_storeWrite (wpc_pure ?_) hC)
  by_cases h : accepts E mem a r.toBytes = true <;> simpa [h] using hQ

/-- A record that does not fit leaves the page alone. -/
theorem wpc_writeRecord_of_lt {a e : ℕ} {r : Record} {Q : Bool → ℕ → Memory → Prop}
    (hfit : e < a + 4) (hQ : Q false 0 mem) : wpc (writeRecord E a e r) Q C mem := by
  rw [writeRecord, if_pos (by omega)]
  exact wpc_pure hQ

/-! ## The changed values as records -/

/-- The records of the values that differ from the existing ones, by increasing index. -/
def changedRecords : ℕ → List UInt8 → List UInt8 → List Record
  | index, e :: existingData, d :: data =>
    if e ≠ d then .of index d :: changedRecords (index + 1) existingData data
    else changedRecords (index + 1) existingData data
  | _, _, _ => []

/-- Write records downwards from `writeAddress`. -/
def writeBackward (E : Layout) (endAddress : ℕ) : ℕ → List Record → FlashM Bool
  | _, [] => pure true
  | writeAddress, r :: rs => do
    let success ← writeRecord E (writeAddress - 4) endAddress r
    if success then writeBackward E endAddress (writeAddress - 4) rs else pure false

theorem frozen_writeBackward (E : Layout) (e a : ℕ) (rs : List Record) :
    Frozen (writeBackward E e a rs) := by
  induction rs generalizing a with
  | nil => exact frozen_pure _
  | cons r rs ih =>
    exact (frozen_writeRecord E _ _ _).bind fun _ ↦ .ite (ih _) (frozen_pure _)

/-- The writing loop is a loop over the changed records. -/
theorem writeChangedLoop_eq (E : Layout) (e a index : ℕ) (existingData data : List UInt8) :
    writeChangedLoop E e a index existingData data =
      writeBackward E e a (changedRecords index existingData data) := by
  induction existingData generalizing a index data with
  | nil => rfl
  | cons x existingData ih =>
    cases data with
    | nil => rfl
    | cons d data =>
      rw [writeChangedLoop, changedRecords]
      by_cases h : x ≠ d
      · rw [if_pos h, if_pos h, writeBackward]
        simp only [ih]
      · rw [if_neg h, if_neg h, ih]

theorem length_changedRecords (index : ℕ) (existingData data : List UInt8) :
    (changedRecords index existingData data).length =
      (existingData.zip data).countP fun p ↦ p.1 ≠ p.2 := by
  induction existingData generalizing index data with
  | nil => rfl
  | cons x existingData ih =>
    cases data with
    | nil => rfl
    | cons d data =>
      rw [changedRecords, List.zip_cons_cons]
      by_cases h : x = d <;> simp [h, ih]

theorem mem_changedRecords {index : ℕ} {existingData data : List UInt8} {r : Record}
    (h : r ∈ changedRecords index existingData data) :
    ∃ j d, r = .of (index + j) d ∧ data[j]? = some d ∧ existingData[j]? ≠ some d := by
  induction existingData generalizing index data with
  | nil => simp [changedRecords] at h
  | cons x existingData ih =>
    cases data with
    | nil => simp [changedRecords] at h
    | cons d data =>
      have hrec : r ∈ changedRecords (index + 1) existingData data →
          ∃ j d', r = .of (index + j) d' ∧
            (d :: data)[j]? = some d' ∧ (x :: existingData)[j]? ≠ some d' := fun h ↦ by
        obtain ⟨j, d', h1, h2, h3⟩ := ih h
        exact ⟨j + 1, d', by rw [h1, Nat.add_assoc, Nat.add_comm 1], h2, h3⟩
      rw [changedRecords] at h
      split at h
      · rename_i hx
        rcases List.mem_cons.mp h with rfl | h
        · exact ⟨0, d, rfl, rfl, by simpa using hx⟩
        · exact hrec h
      · exact hrec h

/-- The map after a put: `data` from `index` on, `arr` elsewhere. -/
def putRange (arr : ℕ → UInt8) (index : ℕ) (data : List UInt8) (i : ℕ) : UInt8 :=
  if index ≤ i then data[i - index]?.getD (arr i) else arr i

/-- There is one record for each changed value, as long as the indices do not wrap around. -/
theorem entries_changedRecords {index i : ℕ} {existingData data : List UInt8}
    (hlen : existingData.length = data.length)
    (hlt : ∀ j, existingData[j]? ≠ data[j]? → index + j < 65536) :
    entries Record.index (changedRecords index existingData data) i =
      if index ≤ i ∧ existingData[i - index]? ≠ data[i - index]? then
        (data[i - index]?.map (Record.of i)).toList
      else [] := by
  induction existingData generalizing index data with
  | nil =>
    obtain rfl : data = [] := by simpa using hlen.symm
    simp [changedRecords]
  | cons x existingData ih =>
    cases data with
    | nil => simp at hlen
    | cons d data =>
      simp only [List.length_cons, Nat.add_right_cancel_iff] at hlen
      have ih := @ih (index + 1) data hlen fun j hj ↦ by
        have := hlt (j + 1) hj
        omega
      have hcons : entries Record.index (changedRecords index (x :: existingData) (d :: data)) i =
          (if index = i ∧ x ≠ d then [Record.of index d] else []) ++
            entries Record.index (changedRecords (index + 1) existingData data) i := by
        rw [changedRecords]
        by_cases hx : x = d
        · simp [hx]
        · have hidx : (Record.of index d).index = index :=
            Nat.mod_eq_of_lt (hlt 0 (by simpa using hx))
          simp [hx, entries_cons, hidx]
          split <;> rfl
      rw [hcons, ih]
      rcases Nat.lt_trichotomy i index with hi | rfl | hi
      · simp [show ¬ index ≤ i by omega, show ¬ index + 1 ≤ i by omega,
          show ¬ index = i by omega]
      · by_cases hx : x = d <;> simp [hx]
      · obtain ⟨j, rfl⟩ : ∃ j, i = index + 1 + j := ⟨i - index - 1, by omega⟩
        have h1 : index + 1 + j - index = j + 1 := by omega
        have h2 : index + 1 + j - (index + 1) = j := by omega
        simp [h1, h2, show ¬ index = index + 1 + j by omega, show index ≤ index + 1 + j by omega]

/-- Appending the changed records to a log overwrites the changed values. -/
theorem latest_append_changedRecords (l : List Record) {index : ℕ} {existingData data : List UInt8}
    (hlen : existingData.length = data.length)
    (hlt : ∀ j, existingData[j]? ≠ data[j]? → index + j < 65536) (i : ℕ) :
    ((latest Record.index (l ++ (changedRecords index existingData data).reverse) i).map
        Record.data).getD 0xFF =
      if index ≤ i ∧ existingData[i - index]? ≠ data[i - index]? then data[i - index]?.getD 0xFF
      else ((latest Record.index l i).map Record.data).getD 0xFF := by
  have hent : latest Record.index (changedRecords index existingData data).reverse i =
      if index ≤ i ∧ existingData[i - index]? ≠ data[i - index]? then
        data[i - index]?.map (Record.of i) else none := by
    apply latest_eq_of_entries
    rw [entries, List.filter_reverse, ← entries, entries_changedRecords hlen hlt]
    split
    · cases data[i - index]? <;> rfl
    · rfl
  rw [latest_append, hent]
  split
  · rename_i h
    -- a changed value is one of the data
    obtain ⟨d, hd⟩ : ∃ d, data[i - index]? = some d := by
      rw [← Option.ne_none_iff_exists']
      intro hnone
      have hex : existingData[i - index]? = none := by
        rw [List.getElem?_eq_none_iff] at hnone ⊢
        omega
      exact h.2 (by rw [hex, hnone])
    simp [hd, Record.of]
  · rfl

/-- Over the existing values, that is the map after a put. -/
theorem putRange_eq (arr : ℕ → UInt8) (index : ℕ) (data : List UInt8) (i : ℕ) :
    let existingData := (List.range data.length).map fun j ↦ arr (index + j)
    (if index ≤ i ∧ existingData[i - index]? ≠ data[i - index]? then data[i - index]?.getD 0xFF
      else arr i) = putRange arr index data i := by
  intro existingData
  rw [putRange]
  by_cases hi : index ≤ i
  · by_cases hlt' : i - index < data.length
    · have hexi : existingData[i - index]? = some (arr i) := by
        simp [existingData, hlt', show index + (i - index) = i by omega]
      have hdi : data[i - index]? = some data[i - index] := List.getElem?_eq_getElem hlt'
      by_cases hx : arr i = data[i - index]
      · simp [hi, hexi, hdi, hx]
      · simp [hi, hexi, hdi, hx]
    · have hexi : existingData[i - index]? = none := by simpa [existingData] using hlt'
      have hdi : data[i - index]? = none := by simpa using hlt'
      simp [hexi, hdi]
  · simp [hi]

/-! ## Writing backwards -/

/-- The contents after records were programmed downwards from an address. -/
def programBackward : Memory → ℕ → List Record → Memory
  | mem, _, [] => mem
  | mem, a, r :: rs => programBackward (mem.program (a - 4) r.toBytes) (a - 4) rs

/-- The store takes every one of the records. -/
def acceptsBackward (E : Layout) : Memory → ℕ → List Record → Bool
  | _, _, [] => true
  | mem, a, r :: rs =>
    accepts E mem (a - 4) r.toBytes &&
      acceptsBackward E (mem.program (a - 4) r.toBytes) (a - 4) rs

theorem slotAddr_succ_sub (E : Layout) (page : LogicalPage) (k : ℕ) :
    E.slotAddr page (k + 1) - 4 = E.slotAddr page k := by
  simp only [Layout.slotAddr]
  omega

theorem slotAddr_succ (E : Layout) (page : LogicalPage) (k : ℕ) :
    E.slotAddr page (k + 1) = E.slotAddr page k + 4 := by
  simp only [Layout.slotAddr]
  omega

theorem slotAddr_le_iff {j k : ℕ} : E.slotAddr page j ≤ E.slotAddr page k ↔ j ≤ k := by
  simp only [Layout.slotAddr]
  omega

/-- Programming a record changes its slot only. -/
theorem program_slot_differsIn (E : Layout) (page : LogicalPage) (mem : Memory) (k : ℕ)
    (bs : List UInt8) (h : bs.length ≤ 4) :
    Memory.DiffersIn (E.slotAddr page k) (E.slotAddr page (k + 1)) mem
      (mem.program (E.slotAddr page k) bs) :=
  (mem.program_differsIn _ bs).mono le_rfl (by rw [slotAddr_succ]; omega)

theorem programBackward_differsIn (E : Layout) (page : LogicalPage) (mem : Memory) (k : ℕ)
    (rs : List Record) :
    Memory.DiffersIn (E.slotAddr page k) (E.slotAddr page (k + rs.length)) mem
      (programBackward mem (E.slotAddr page (k + rs.length)) rs) := by
  induction rs generalizing mem with
  | nil => exact .refl _ _ _
  | cons r rs ih =>
    rw [programBackward, List.length_cons, ← Nat.add_assoc, slotAddr_succ_sub]
    have hone := program_slot_differsIn E page mem (k + rs.length) r.toBytes (by simp)
    exact (hone.mono (slotAddr_le_iff.mpr (by omega)) le_rfl).trans
      ((ih _).mono le_rfl (slotAddr_le_iff.mpr (by omega)))

/-- Below the first slot written, everything but the last record is as before. -/
theorem slot_programBackward_cons (E : Layout) (page : LogicalPage) (mem : Memory) (k : ℕ)
    (r : Record) (rs : List Record) :
    slot E (programBackward mem (E.slotAddr page (k + (r :: rs).length)) (r :: rs)) page
        (k + rs.length) =
      slot E (mem.program (E.slotAddr page (k + rs.length)) r.toBytes) page (k + rs.length) := by
  rw [programBackward, List.length_cons, ← Nat.add_assoc, slotAddr_succ_sub]
  exact slot_congr fun x h1 _ ↦ programBackward_differsIn E page _ k rs x (Or.inr h1)

/-- What a verifying store took reads back. -/
theorem slot_program_of_accepts {k : ℕ} {r : Record} (hv : E.verifies = true)
    (hr : r.index < 65536) (h : accepts E mem (E.slotAddr page k) r.toBytes = true) :
    slot E (mem.program (E.slotAddr page k) r.toBytes) page k = r := by
  have hread : (mem.program (E.slotAddr page k) r.toBytes).bytes (E.slotAddr page k) 4 =
      r.toBytes := by
    simpa [accepts, hv] using h
  exact readRecord_of_bytes hr hread

/-- The new slots hold the records, the last one written first. -/
theorem slots_programBackward (hv : E.verifies = true) {k : ℕ} {rs : List Record}
    (hidx : ∀ r ∈ rs, r.index < 65536)
    (hacc : acceptsBackward E mem (E.slotAddr page (k + rs.length)) rs = true) :
    ((List.range rs.length).map fun j ↦
      slot E (programBackward mem (E.slotAddr page (k + rs.length)) rs) page (k + j)) =
        rs.reverse := by
  induction rs generalizing mem with
  | nil => rfl
  | cons r rs ih =>
    have hacc' := hacc
    rw [acceptsBackward, List.length_cons, ← Nat.add_assoc, slotAddr_succ_sub,
      Bool.and_eq_true] at hacc'
    have hhead := slot_programBackward_cons E page mem k r rs
    rw [slot_program_of_accepts hv (hidx r List.mem_cons_self) hacc'.1] at hhead
    have htail := ih (fun r' hr' ↦ hidx r' (List.mem_cons_of_mem _ hr')) hacc'.2
    rw [List.length_cons, List.range_succ, List.map_append, List.map_singleton,
      List.reverse_cons]
    rw [List.length_cons] at hhead
    rw [hhead]
    exact congrArg (· ++ [r]) htail

/-- A byte and-ed in is at most what was written. -/
private theorem word16_program_le (mem : Memory) (a : ℕ) (r : Record) :
    (readRecord (mem.program a r.toBytes) a).index ≤ r.index % 65536 := by
  have h2 : mem.program a r.toBytes (a + 2) = mem (a + 2) &&& UInt8.ofNat r.index := by
    rw [Memory.program_apply]
    rfl
  have h3 : mem.program a r.toBytes (a + 3) = mem (a + 3) &&& UInt8.ofNat (r.index / 256) := by
    rw [Memory.program_apply]
    rfl
  have hlo : (mem.program a r.toBytes (a + 2)).toNat ≤ r.index % 256 := by
    rw [h2, UInt8.toNat_and, UInt8.toNat_ofNat']
    exact Nat.and_le_right
  have hhi : (mem.program a r.toBytes (a + 3)).toNat ≤ r.index / 256 % 256 := by
    rw [h3, UInt8.toNat_and, UInt8.toNat_ofNat']
    exact Nat.and_le_right
  simp only [readRecord, Memory.word16, show a + 2 + 1 = a + 3 from rfl]
  omega

/-- Whatever was in the slots, valid records with small indices leave such records. -/
theorem sane_programBackward (mem : Memory) {bound k : ℕ} {rs : List Record} (hb : bound ≤ 65535)
    (hrs : ∀ r ∈ rs, r.status = Record.validStatus ∧ r.index < bound) {j : ℕ}
    (hj : j < rs.length) :
    let r' := slot E (programBackward mem (E.slotAddr page (k + rs.length)) rs) page (k + j)
    r'.valid = true ∧ r'.index < bound := by
  induction rs generalizing mem j with
  | nil => simp at hj
  | cons r rs ih =>
    by_cases hlast : j = rs.length
    · subst hlast
      obtain ⟨hst, hlt⟩ := hrs r List.mem_cons_self
      have hle := word16_program_le mem (E.slotAddr page (k + rs.length)) r
      rw [Nat.mod_eq_of_lt (by omega)] at hle
      have hstatus : (slot E (mem.program (E.slotAddr page (k + rs.length)) r.toBytes) page
          (k + rs.length)).status = Record.validStatus := by
        have happ := mem.program_apply (E.slotAddr page (k + rs.length)) 1 r.toBytes
        have hzero : ∀ b : UInt8, b &&& 0 = 0 := fun b ↦ by
          apply UInt8.toNat_inj.mp
          rw [UInt8.toNat_and]
          exact Nat.and_zero _
        rw [slot, readRecord, happ]
        simp [Record.toBytes, hst, Record.validStatus, hzero]
      have hindex : (slot E (mem.program (E.slotAddr page (k + rs.length)) r.toBytes) page
          (k + rs.length)).index < bound := lt_of_le_of_lt hle hlt
      simp only [slot_programBackward_cons]
      refine ⟨?_, hindex⟩
      rw [Record.valid, hstatus]
      have : (slot E (mem.program (E.slotAddr page (k + rs.length)) r.toBytes) page
          (k + rs.length)).index ≠ Record.emptyIndex := by rw [Record.emptyIndex]; omega
      simp [this]
    · have hj' : j < rs.length := by
        rw [List.length_cons] at hj
        omega
      have := ih (mem.program (E.slotAddr page (k + rs.length)) r.toBytes)
        (fun r' hr' ↦ hrs r' (List.mem_cons_of_mem _ hr')) hj'
      rwa [programBackward, List.length_cons, ← Nat.add_assoc, slotAddr_succ_sub]

/-- **Writing backwards** over an empty slot `k`: until the last record is begun nothing changes at
or below it. -/
theorem wpc_writeBackward {e k : ℕ} {rs : List Record} {last : Record}
    {Q : Bool → ℕ → Memory → Prop}
    (hk : mem.Erased (E.slotAddr page k) (E.slotAddr page (k + 1)))
    (hfit : E.slotAddr page (k + rs.length + 1) ≤ e)
    (hQ : acceptsBackward E mem (E.slotAddr page (k + rs.length + 1)) (rs ++ [last]) = true →
      Q true (4 * (rs.length + 1))
        (programBackward mem (E.slotAddr page (k + rs.length + 1)) (rs ++ [last])))
    (hfail : acceptsBackward E mem (E.slotAddr page (k + rs.length + 1)) (rs ++ [last]) = false →
      ∀ n mem', Memory.DiffersIn (E.slotAddr page (k + 1))
        (E.slotAddr page (k + rs.length + 1)) mem mem' → Q false n mem')
    (hcut : ∀ b mem', Memory.DiffersIn (E.slotAddr page (k + 1))
      (E.slotAddr page (k + rs.length + 1)) mem mem' → C b mem')
    (hlast : acceptsBackward E mem (E.slotAddr page (k + rs.length + 1)) (rs ++ [last]) = true →
      ∀ t, 1 ≤ t → t ≤ 4 → C (4 * rs.length + t)
        ((programBackward mem (E.slotAddr page (k + rs.length + 1)) rs).program
          (E.slotAddr page k) (last.toBytes.take t))) :
    wpc (writeBackward E e (E.slotAddr page (k + rs.length + 1)) (rs ++ [last])) Q C mem := by
  induction rs generalizing mem Q C with
  | nil =>
    have hacc : accepts E mem (E.slotAddr page k) last.toBytes = true :=
      accepts_of_erased (by simpa [slotAddr_succ] using hk)
    simp only [List.length_nil, Nat.add_zero, Nat.mul_zero, Nat.zero_add, List.nil_append,
      acceptsBackward, programBackward, slotAddr_succ_sub, hacc, Bool.and_true,
      forall_const] at hfit hQ hlast ⊢
    rw [writeBackward, slotAddr_succ_sub]
    refine wpc_bind (fun _ ↦ .ite (frozen_writeBackward _ _ _ _) (frozen_pure _))
      (wpc_writeRecord (by rw [← slotAddr_succ]; exact hfit) ?_ hlast)
    rw [hacc, if_pos rfl]
    exact wpc_pure hQ
  | cons r rs ih =>
    set a := E.slotAddr page (k + rs.length + 1) with ha
    have htop : E.slotAddr page (k + (r :: rs).length + 1) = a + 4 := by
      rw [ha, List.length_cons, ← slotAddr_succ]
      congr 1
    have hsub : a + 4 - 4 = a := by omega
    -- one record up there leaves the empty slot alone
    have hone : ∀ bs : List UInt8, bs.length ≤ 4 →
        Memory.DiffersIn (E.slotAddr page (k + 1)) (a + 4) mem (mem.program a bs) := by
      intro bs hbs
      exact (mem.program_differsIn a bs).mono (slotAddr_le_iff.mpr (by omega)) (by omega)
    have hcomp : ∀ mem', Memory.DiffersIn (E.slotAddr page (k + 1)) a
        (mem.program a r.toBytes) mem' →
        Memory.DiffersIn (E.slotAddr page (k + 1)) (a + 4) mem mem' := fun mem' h ↦
      (hone r.toBytes (by simp)).trans (h.mono le_rfl (by omega))
    rw [htop] at hfit hQ hfail hcut hlast ⊢
    simp only [List.cons_append, acceptsBackward, programBackward, hsub, List.length_cons]
      at hQ hfail hlast ⊢
    rw [writeBackward, hsub]
    refine wpc_bind (fun _ ↦ .ite (frozen_writeBackward _ _ _ _) (frozen_pure _))
      (wpc_writeRecord hfit ?_ fun t _ ht ↦ hcut _ _ (hone _ (by
        rw [List.length_take]; omega)))
    by_cases hacc : accepts E mem a r.toBytes = true
    · rw [if_pos hacc]
      refine ih ?_ (by omega) ?_ ?_ ?_ ?_
      · exact Memory.DiffersIn.erased (program_slot_differsIn E page mem
          (k + rs.length + 1) r.toBytes (by simp))
          hk (Or.inl (slotAddr_le_iff.mpr (by omega)))
      · intro h
        rw [show 4 + 4 * (rs.length + 1) = 4 * (rs.length + 1 + 1) by omega]
        exact hQ (by rw [hacc, h]; rfl)
      · exact fun h n mem' h' ↦ hfail (by rw [hacc, h]; rfl) _ _ (hcomp mem' h')
      · exact fun b mem' h ↦ hcut _ _ (hcomp mem' h)
      · intro h t h1 h2
        rw [show 4 + (4 * rs.length + t) = 4 * (rs.length + 1) + t by omega]
        exact hlast (by rw [hacc, h]; rfl) t h1 h2
    · rw [if_neg hacc]
      exact wpc_pure (hfail (by simp [hacc]) _ _ (hone _ (by simp)))

/-- There is room for some records behind the log, and an empty slot or the end of the page behind
them. -/
def HasRoom (E : Layout) (mem : Memory) (page : LogicalPage) (count : ℕ) : Prop :=
  let top := logLength E mem page + count
  top ≤ E.slotCount page ∧ (top < E.slotCount page → (slot E mem page top).empty = true)

section Log

variable {rs : List Record}

/-- The log grows by the slots that are written. -/
theorem log_programBackward (hrs : ∀ r ∈ rs, r.status = Record.validStatus ∧ r.index < 65535)
    (hroom : HasRoom E mem page rs.length) :
    let mem' := programBackward mem (E.slotAddr page (logLength E mem page + rs.length)) rs
    logLength E mem' page = logLength E mem page + rs.length ∧
      log E mem' page = log E mem page ++
        (List.range rs.length).map fun j ↦ slot E mem' page (logLength E mem page + j) := by
  intro mem'
  obtain ⟨h1, h2, -⟩ := logLength_spec E mem page
  have hdiff : Memory.DiffersIn (E.slotAddr page (logLength E mem page))
      (E.slotAddr page (logLength E mem page + rs.length)) mem mem' :=
    programBackward_differsIn E page mem _ rs
  have hbelow : ∀ j < logLength E mem page, slot E mem' page j = slot E mem page j := fun j hj ↦
    slot_congr fun x _ hx ↦ hdiff x
      (Or.inl (lt_of_lt_of_le hx (slotAddr_le_iff.mpr (by omega))))
  have hnew : ∀ j < rs.length, (slot E mem' page (logLength E mem page + j)).valid = true :=
    fun j hj ↦ (sane_programBackward mem le_rfl hrs hj).1
  have hlen : logLength E mem' page = logLength E mem page + rs.length := by
    refine logLength_eq_of hroom.1 (fun j hj ↦ ?_) fun hlt' ↦ ?_
    · by_cases hjk : j < logLength E mem page
      · rw [hbelow j hjk]
        exact h2 j hjk
      · obtain ⟨i, rfl⟩ : ∃ i, j = logLength E mem page + i := ⟨j - logLength E mem page, by omega⟩
        exact hnew i (by omega)
    · rw [slot_congr fun x hx _ ↦ hdiff x (Or.inr hx)]
      exact Record.valid_eq_false_of_empty (hroom.2 hlt')
  refine ⟨hlen, ?_⟩
  rw [log, hlen, List.range_add, List.map_append, log, List.map_map]
  congr 1
  exact List.map_congr_left fun j hj ↦ hbelow j (List.mem_range.mp hj)

/-- The page can be appended to again. -/
theorem appendable_programBackward
    (hrs : ∀ r ∈ rs, r.status = Record.validStatus ∧ r.index < 65535)
    (hroom : HasRoom E mem page rs.length) :
    Appendable E
      (programBackward mem (E.slotAddr page (logLength E mem page + rs.length)) rs) page := by
  intro hlt
  rw [(log_programBackward hrs hroom).1] at hlt ⊢
  rw [slot_congr fun x hx _ ↦ programBackward_differsIn E page mem _ rs x (Or.inr hx)]
  exact hroom.2 hlt

/-- On a store that verifies, the log grows by the records. -/
theorem log_programBackward_of_accepts (hv : E.verifies = true)
    (hrs : ∀ r ∈ rs, r.status = Record.validStatus ∧ r.index < 65535)
    (hroom : HasRoom E mem page rs.length)
    (hacc : acceptsBackward E mem (E.slotAddr page (logLength E mem page + rs.length)) rs = true) :
    log E (programBackward mem (E.slotAddr page (logLength E mem page + rs.length)) rs) page =
      log E mem page ++ rs.reverse := by
  have hidx : ∀ r ∈ rs, r.index < 65536 := fun r hr ↦ (hrs r hr).2.trans (by omega)
  rw [(log_programBackward hrs hroom).2, slots_programBackward hv hidx hacc]

end Log

/-! ## Appending a batch

`batch` is what `writeRangeChanged` writes for a put; it goes behind the log. -/

/-- The existing values of a range. -/
def existingRange (E : Layout) (mem : Memory) (page : LogicalPage) (index length : ℕ) :
    List UInt8 := (List.range length).map fun j ↦ contents E mem page (index + j)

/-- The records of the values a put changes. -/
def batch (E : Layout) (mem : Memory) (page : LogicalPage) (index : ℕ) (data : List UInt8) :
    List Record := changedRecords index (existingRange E mem page index data.length) data

/-- There is room for the batch, and an empty slot or the end of the page behind it. -/
def Fits (E : Layout) (mem : Memory) (page : LogicalPage) (index : ℕ) (data : List UInt8) :
    Prop :=
  let top := logLength E mem page + (batch E mem page index data).length
  top ≤ E.slotCount page ∧ (top < E.slotCount page → (slot E mem page top).empty = true)

/-- The address behind the slots of the batch. -/
def batchEnd (E : Layout) (mem : Memory) (page : LogicalPage) (index : ℕ) (data : List UInt8) :
    ℕ := E.slotAddr page (logLength E mem page + (batch E mem page index data).length)

/-- The contents with the batch written. -/
def appended (E : Layout) (mem : Memory) (page : LogicalPage) (index : ℕ) (data : List UInt8) :
    Memory :=
  programBackward mem (batchEnd E mem page index data) (batch E mem page index data)

/-- The store takes the whole batch. -/
def acceptsBatch (E : Layout) (mem : Memory) (page : LogicalPage) (index : ℕ)
    (data : List UInt8) : Bool :=
  acceptsBackward E mem (batchEnd E mem page index data) (batch E mem page index data)

variable {index : ℕ} {data : List UInt8}

theorem batch_spec (hlt : index + data.length ≤ E.capacity) :
    ∀ r ∈ batch E mem page index data,
      r.status = Record.validStatus ∧ r.index < E.capacity := by
  intro r hr
  obtain ⟨j, d, rfl, hd, -⟩ := mem_changedRecords hr
  obtain ⟨hj, -⟩ := List.getElem?_eq_some_iff.mp hd
  have := E.capacity_le_8192
  refine ⟨rfl, ?_⟩
  change (index + j) % 65536 < E.capacity
  omega

theorem batch_spec' (hlt : index + data.length ≤ E.capacity) :
    ∀ r ∈ batch E mem page index data, r.status = Record.validStatus ∧ r.index < 65535 := by
  have hcap := E.capacity_le_8192
  exact fun r hr ↦ (batch_spec hlt r hr).imp_right fun h ↦ h.trans_le (by omega)

/-- The map of a log behind which the batch is appended. -/
theorem latest_append_batch (hlt : index + data.length ≤ 65536) (i : ℕ) :
    ((latest Record.index (log E mem page ++ (batch E mem page index data).reverse) i).map
      Record.data).getD 0xFF = putRange (contents E mem page) index data i := by
  rw [batch, latest_append_changedRecords _ (by simp [existingRange]) ?_ i, ← contents,
    existingRange, putRange_eq]
  intro j hj
  by_contra hge
  refine hj ?_
  rw [List.getElem?_eq_none (by rw [existingRange, List.length_map, List.length_range]; omega),
    List.getElem?_eq_none (by omega)]

theorem erased_of_appendable (happ : Appendable E mem page)
    (h : logLength E mem page < E.slotCount page) :
    mem.Erased (E.slotAddr page (logLength E mem page))
      (E.slotAddr page (logLength E mem page + 1)) := by
  rw [slotAddr_succ]
  exact empty_readRecord_iff.mp (happ h)

theorem appended_differsIn (E : Layout) (mem : Memory) (page : LogicalPage) (index : ℕ)
    (data : List UInt8) :
    Memory.DiffersIn (E.slotAddr page (logLength E mem page)) (batchEnd E mem page index data) mem
      (appended E mem page index data) :=
  programBackward_differsIn E page mem _ _

/-- The log grows by the slots of the batch. -/
theorem log_appended (hlt : index + data.length ≤ E.capacity)
    (hfit : Fits E mem page index data) :
    log E (appended E mem page index data) page = log E mem page ++
      (List.range (batch E mem page index data).length).map fun j ↦
        slot E (appended E mem page index data) page (logLength E mem page + j) :=
  (log_programBackward (batch_spec' hlt) hfit).2

theorem log_appended_sane (hlt : index + data.length ≤ E.capacity)
    (hfit : Fits E mem page index data) (hlog : ∀ r ∈ log E mem page, r.index < E.capacity) :
    ∀ r ∈ log E (appended E mem page index data) page, r.index < E.capacity := by
  have hcap := E.capacity_le_8192
  intro r hr
  rw [log_appended hlt hfit] at hr
  rcases List.mem_append.mp hr with hr | hr
  · exact hlog r hr
  · obtain ⟨j, hj, rfl⟩ := List.mem_map.mp hr
    exact (sane_programBackward mem (by omega) (batch_spec hlt) (List.mem_range.mp hj)).2

/-- **A batch that a verifying store took** updates the contents. -/
theorem contents_appended (hv : E.verifies = true) (hlt : index + data.length ≤ E.capacity)
    (hfit : Fits E mem page index data) (hacc : acceptsBatch E mem page index data = true) :
    contents E (appended E mem page index data) page =
      putRange (contents E mem page) index data := by
  have hcap := E.capacity_le_8192
  have hlog : log E (appended E mem page index data) page =
      log E mem page ++ (batch E mem page index data).reverse :=
    log_programBackward_of_accepts hv (batch_spec' hlt) hfit hacc
  funext i
  rw [contents, hlog]
  exact latest_append_batch (by omega) i

/-- An empty batch is a put that changes nothing. -/
theorem putRange_of_batch_eq_nil (hlt : index + data.length ≤ E.capacity)
    (h : batch E mem page index data = []) :
    putRange (contents E mem page) index data = contents E mem page := by
  have hcap := E.capacity_le_8192
  funext i
  rw [← latest_append_batch (by omega) i, h, List.reverse_nil, List.append_nil, contents]

/-- A half-written last record leaves the log alone, unless its index looks complete. -/
theorem log_halfWritten {rs : List Record} {last : Record} {t : ℕ}
    (happ : Appendable E mem page)
    (hfit : logLength E mem page + rs.length + 1 ≤ E.slotCount page) (ht : t ≤ 3)
    (hbyte : t = 3 → last.index % 256 = 255) :
    log E ((programBackward mem
        (E.slotAddr page (logLength E mem page + rs.length + 1)) rs).program
        (E.slotAddr page (logLength E mem page)) (last.toBytes.take t)) page =
      log E mem page := by
  set k := logLength E mem page with hk
  have hup : Memory.DiffersIn (E.slotAddr page (k + 1)) (E.slotAddr page (k + rs.length + 1)) mem
      (programBackward mem (E.slotAddr page (k + rs.length + 1)) rs) := by
    have := programBackward_differsIn E page mem (k + 1) rs
    rwa [Nat.add_right_comm] at this
  set mem₁ := programBackward mem (E.slotAddr page (k + rs.length + 1)) rs with hmem₁
  have herased : mem₁.Erased (E.slotAddr page k) (E.slotAddr page (k + 1)) :=
    hup.erased (erased_of_appendable happ (by omega)) (Or.inl le_rfl)
  have hdown := program_slot_differsIn E page mem₁ k (last.toBytes.take t)
    (by rw [List.length_take]; simp)
  refine log_congr (fun x _ hx ↦ ?_) fun _ ↦ ?_
  · rw [hdown x (Or.inl hx), hup x (Or.inl (hx.trans_le (slotAddr_le_iff.mpr (by omega))))]
  · -- bytes that were not reached are still erased
    have hbyte' : ∀ i < 4, mem₁.program (E.slotAddr page k) (last.toBytes.take t)
        (E.slotAddr page k + i) = (last.toBytes.take t)[i]?.getD 0xFF := fun i hi ↦ by
      rw [Memory.program_apply, herased _ (by omega) (by rw [slotAddr_succ]; omega), erased_and]
    have b1 := hbyte' 1 (by omega)
    have b2 := hbyte' 2 (by omega)
    have b3 := hbyte' 3 (by omega)
    rw [← hk, slot, readRecord, Record.valid, Memory.word16, Nat.add_assoc, b1, b2, b3]
    obtain rfl | rfl | rfl | rfl : t = 0 ∨ t = 1 ∨ t = 2 ∨ t = 3 := by omega
    · simp [Record.validStatus]
    · simp [Record.toBytes, Record.validStatus]
    · simp [Record.toBytes, Record.emptyIndex]
    · have := hbyte rfl
      simp [Record.toBytes, Record.emptyIndex, this]

/-- Power fails before operation `b + 1` of a put that appends, between the two index bytes of the
record that completes the batch, and the low byte does not happen to read as erased. -/
def HalfIndex (E : Layout) (mem : Memory) (page : LogicalPage) (index : ℕ) (data : List UInt8)
    (b : ℕ) : Prop :=
  Appendable E mem page ∧ Fits E mem page index data ∧ acceptsBatch E mem page index data = true ∧
    ∃ last, (batch E mem page index data).getLast? = some last ∧
      b + 1 = 4 * (batch E mem page index data).length ∧ last.index % 256 ≠ 255

theorem programBackward_concat (mem : Memory) (k : ℕ) (rs : List Record) (last : Record) :
    programBackward mem (E.slotAddr page (k + rs.length + 1)) (rs ++ [last]) =
      (programBackward mem (E.slotAddr page (k + rs.length + 1)) rs).program
        (E.slotAddr page k) last.toBytes := by
  induction rs generalizing mem with
  | nil =>
    rw [List.nil_append, programBackward, programBackward, programBackward, List.length_nil,
      Nat.add_zero, slotAddr_succ_sub]
  | cons r rs ih =>
    rw [List.cons_append, programBackward, programBackward, slotAddr_succ_sub, List.length_cons,
      ← Nat.add_assoc, ih]

/-- Nothing changes for a reader above an empty slot. -/
theorem log_of_differsIn {hi : ℕ} (happ : Appendable E mem page)
    (h : Memory.DiffersIn (E.slotAddr page (logLength E mem page + 1)) hi mem mem') :
    log E mem' page = log E mem page := by
  refine log_congr (fun x _ hx ↦ h x (Or.inl (hx.trans_le (slotAddr_le_iff.mpr ?_))))
    fun hlt ↦ ?_
  · omega
  · rw [slot_congr fun x _ hx ↦ h x (Or.inl hx)]
    exact Record.valid_eq_false_of_empty (happ hlt)

/-- The part of a crash condition that a batch establishes, at operation `b`. -/
def BatchCut (E : Layout) (mem : Memory) (page : LogicalPage) (index : ℕ) (data : List UInt8)
    (b : ℕ) (mem' : Memory) : Prop :=
  log E mem' page = log E mem page ∨
    (Fits E mem page index data ∧ acceptsBatch E mem page index data = true ∧
      mem' = appended E mem page index data) ∨
    HalfIndex E mem page index data b

/-- Writing a batch that fits. -/
theorem wpc_writeBatch {Q : Bool → ℕ → Memory → Prop} (hp : page ≠ .noPage)
    (happ : Appendable E mem page) (hne : batch E mem page index data ≠ [])
    (hfits : Fits E mem page index data)
    (hdone : acceptsBatch E mem page index data = true →
      Q true (4 * (batch E mem page index data).length) (appended E mem page index data))
    (hfail : acceptsBatch E mem page index data = false → ∀ n mem',
      Memory.DiffersIn (E.slotAddr page (logLength E mem page + 1)) (E.getPageEnd page) mem mem' →
      Q false n mem')
    (hcut : ∀ b mem', Memory.DiffersIn (E.slotAddr page (logLength E mem page))
      (E.getPageEnd page) mem mem' → BatchCut E mem page index data b mem' → C b mem') :
    wpc (writeBackward E (E.getPageEnd page) (batchEnd E mem page index data)
      (batch E mem page index data)) Q C mem := by
  have hend := E.slotAddr_slotCount hp
  rcases List.eq_nil_or_concat (batch E mem page index data) with hnil | ⟨rs, last, hrs⟩
  · exact absurd hnil hne
  rw [List.concat_eq_append] at hrs
  have hlen : (batch E mem page index data).length = rs.length + 1 := by rw [hrs]; simp
  have hbatchEnd : batchEnd E mem page index data =
      E.slotAddr page (logLength E mem page + rs.length + 1) := by
    rw [batchEnd, hlen, Nat.add_assoc]
  have hacceq : acceptsBackward E mem (E.slotAddr page (logLength E mem page + rs.length + 1))
      (rs ++ [last]) = acceptsBatch E mem page index data := by
    rw [acceptsBatch, hbatchEnd, hrs]
  have happended : programBackward mem (E.slotAddr page (logLength E mem page + rs.length + 1))
      (rs ++ [last]) = appended E mem page index data := by
    rw [appended, hbatchEnd, hrs]
  have hroom : logLength E mem page + rs.length + 1 ≤ E.slotCount page := by
    have := hfits.1
    omega
  have hle : E.slotAddr page (logLength E mem page + rs.length + 1) ≤ E.getPageEnd page := by
    rw [← hend]
    exact slotAddr_le_iff.mpr hroom
  rw [hbatchEnd, hrs]
  refine wpc_writeBackward (erased_of_appendable happ (by omega)) hle ?_ ?_ ?_ ?_
  · intro h
    rw [happended, ← hlen]
    exact hdone (hacceq ▸ h)
  · exact fun h n mem' hd ↦ hfail (hacceq ▸ h) n mem' (hd.mono le_rfl hle)
  · exact fun b mem' hd ↦ hcut b mem' (hd.mono (slotAddr_le_iff.mpr (by omega)) hle)
      (Or.inl (log_of_differsIn happ hd))
  · intro h t ht1 ht4
    have hbackward := programBackward_differsIn E page mem
      (logLength E mem page + 1) rs
    rw [Nat.add_right_comm] at hbackward
    have hslot := program_slot_differsIn E page
      (programBackward mem (E.slotAddr page (logLength E mem page + rs.length + 1)) rs)
      (logLength E mem page) (last.toBytes.take t) (by rw [List.length_take]; simp)
    refine hcut _ _ ((hbackward.mono (slotAddr_le_iff.mpr (by omega)) hle).trans
      (hslot.mono le_rfl ((slotAddr_le_iff.mpr (by omega)).trans hle))) ?_
    by_cases ht : t = 4
    · subst ht
      exact Or.inr (Or.inl ⟨hfits, hacceq ▸ h, by
        rw [← happended, programBackward_concat]
        rfl⟩)
    · by_cases hidx : t = 3 → last.index % 256 = 255
      · exact Or.inl (log_halfWritten happ hroom (by omega) hidx)
      · refine Or.inr (Or.inr ⟨happ, hfits, hacceq ▸ h, last, ?_, ?_, fun hc ↦ hidx fun _ ↦ hc⟩)
        · rw [hrs, List.getLast?_append]
          rfl
        · rw [hlen]
          omega

/-- What `writeRangeChanged` does, by the changed records. -/
theorem writeRangeChanged_apply (E : Layout) (page : LogicalPage) (mem : Memory)
    {a index top : ℕ} {data existingData : List UInt8} {rs : List Record}
    (hrs : changedRecords index existingData data = rs) (htop : a + rs.length * 4 = top)
    (w : Option ℕ) :
    writeRangeChanged E page a index data existingData ⟨mem, w⟩ =
      (if rs = [] then pure true
      else if top < E.getPageEnd page ∧ (readRecord mem top).empty = false then pure false
      else writeBackward E (E.getPageEnd page) top rs : FlashM Bool) ⟨mem, w⟩ := by
  have hcount : (existingData.zip data).countP (fun p ↦ p.1 ≠ p.2) = rs.length := by
    rw [← hrs, length_changedRecords]
  rw [writeRangeChanged]
  simp only [hcount, htop, writeChangedLoop_eq, hrs]
  by_cases hnil : rs = []
  · have hzero : ¬ rs.length > 0 := by simp [hnil]
    rw [if_pos hnil, if_neg hzero]
  · rw [if_neg hnil, if_pos (List.length_pos_of_ne_nil hnil)]
    change (if (decide (top < E.getPageEnd page) && !(readRecord mem top).empty) = true then _
      else _ : FlashM Bool) _ = _
    simp only [Bool.and_eq_true, decide_eq_true_eq, Bool.not_eq_true']

/-- **The outcome of `writeRangeChanged`** on a page that can be appended to. -/
theorem wpc_writeRangeChanged {Q : Bool → ℕ → Memory → Prop} (hp : page ≠ .noPage)
    (happ : Appendable E mem page)
    (hsame : batch E mem page index data = [] → Q true 0 mem)
    (hdone : batch E mem page index data ≠ [] → Fits E mem page index data →
      acceptsBatch E mem page index data = true →
      Q true (4 * (batch E mem page index data).length) (appended E mem page index data))
    (hfail : batch E mem page index data ≠ [] →
      ¬ (Fits E mem page index data ∧ acceptsBatch E mem page index data = true) →
      ∀ n mem', Memory.DiffersIn (E.slotAddr page (logLength E mem page + 1)) (E.getPageEnd page)
        mem mem' → Q false n mem')
    (hcut : ∀ b mem', Memory.DiffersIn (E.slotAddr page (logLength E mem page))
      (E.getPageEnd page) mem mem' → BatchCut E mem page index data b mem' → C b mem') :
    wpc (writeRangeChanged E page (E.slotAddr page (logLength E mem page)) index data
      (existingRange E mem page index data.length)) Q C mem := by
  have hend := E.slotAddr_slotCount hp
  have htop : E.slotAddr page (logLength E mem page) +
      (batch E mem page index data).length * 4 = batchEnd E mem page index data := by
    simp only [batchEnd, Layout.slotAddr]
    omega
  have hbelow : batchEnd E mem page index data < E.getPageEnd page ↔
      logLength E mem page + (batch E mem page index data).length < E.slotCount page := by
    rw [← hend]
    simp only [batchEnd, Layout.slotAddr]
    omega
  have hstay : Memory.DiffersIn (E.slotAddr page (logLength E mem page + 1)) (E.getPageEnd page)
      mem mem := .refl _ _ _
  refine wpc_congr (writeRangeChanged_apply E page mem
    (show _ = batch E mem page index data from rfl) htop) ?_
  by_cases hnil : batch E mem page index data = []
  · rw [if_pos hnil]
    exact wpc_pure (hsame hnil)
  have hpos : 0 < (batch E mem page index data).length := List.length_pos_of_ne_nil hnil
  rw [if_neg hnil]
  by_cases hsep : batchEnd E mem page index data < E.getPageEnd page ∧
      (readRecord mem (batchEnd E mem page index data)).empty = false
  · -- the slot behind the batch is not empty
    rw [if_pos hsep]
    refine wpc_pure (hfail hnil (fun hc ↦ Bool.false_ne_true ?_) _ _ hstay)
    exact hsep.2.symm.trans (hc.1.2 (hbelow.mp hsep.1))
  rw [if_neg hsep]
  by_cases hroom : logLength E mem page + (batch E mem page index data).length ≤ E.slotCount page
  · have hfits : Fits E mem page index data := by
      refine ⟨hroom, fun hlt ↦ ?_⟩
      by_contra hne
      exact hsep ⟨hbelow.mpr hlt, Bool.eq_false_iff.mpr hne⟩
    exact wpc_writeBatch hp happ hnil hfits (hdone hnil hfits)
      (fun h ↦ hfail hnil fun hc ↦ by simp [h] at hc) hcut
  · -- the batch runs over the end of the page: its first record is refused
    have hover : E.getPageEnd page < batchEnd E mem page index data - 4 + 4 := by
      rw [← hend]
      simp only [batchEnd, Layout.slotAddr]
      omega
    rcases hbatch : batch E mem page index data with _ | ⟨r, rs⟩
    · exact absurd hbatch hnil
    · rw [writeBackward]
      refine wpc_bind (fun _ ↦ .ite (frozen_writeBackward _ _ _ _) (frozen_pure _))
        (wpc_writeRecord_of_lt hover ?_)
      exact wpc_pure (hfail hnil (fun hc ↦ hroom hc.1.1) _ _ hstay)

end DuoFirmware.EEPROMEmulation
