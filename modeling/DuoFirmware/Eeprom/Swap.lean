import DuoFirmware.Eeprom.Compaction

/-!
# Swapping pages

A page swap compacts the active page to the alternate one, leaving out the cells that are being
written and those that are `0xFF`, adds the new values, and then moves the active status over. The
destination counts as active from the moment its second status byte is `0`; by then it holds the
complete new map, and up to then the source page has not been touched.

While a page is being filled it is described by `Filled`: its first slots hold the given records
and the rest of it is erased.
-/

namespace DuoFirmware.EEPROMEmulation

open NorFlash FlashM KeyedLog

variable {E : Layout} {mem mem' : Memory} {page src dst : LogicalPage}

/-! ## Status words -/

/-- A status is what the four header bytes say. -/
theorem readPageStatus_eq_iff {status : ℕ} (h : status < 4294967296) :
    readPageStatus E mem page = status ↔
      mem.bytes (E.getPageBegin page) 4 = PageHeader.toBytes status :=
  Memory.word32_eq_iff h

theorem readPageStatus_eq_active_iff :
    readPageStatus E mem page = PageHeader.active ↔
      mem.bytes (E.getPageBegin page) 4 = [0, 0, 0xFF, 0xFF] :=
  readPageStatus_eq_iff (by decide)

theorem readPageStatus_congr
    (h : ∀ x, E.getPageBegin page ≤ x → x < E.getPageBegin page + 4 → mem' x = mem x) :
    readPageStatus E mem' page = readPageStatus E mem page := Memory.word32_congr h

/-- The pages do not overlap. -/
theorem getPageEnd_le_or (E : Layout) {src dst : LogicalPage} (hsrc : src ≠ .noPage)
    (hdst : dst ≠ .noPage) (hne : src ≠ dst) :
    E.getPageEnd src ≤ E.getPageBegin dst ∨ E.getPageEnd dst ≤ E.getPageBegin src := by
  have := E.apart
  cases src <;> cases dst <;> simp_all [Layout.getPageBegin, Layout.getPageEnd, or_comm]

theorem getPageBegin_add_le (E : Layout) {page : LogicalPage} (hp : page ≠ .noPage) :
    E.getPageBegin page + 8 ≤ E.getPageEnd page := by
  have h1 := E.size1
  have h2 := E.size2
  cases page
  · exact absurd rfl hp
  all_goals
    simp only [Layout.getPageBegin, Layout.getPageEnd]
    omega

theorem Layout.apart_pages (E : Layout) : E.getPageEnd .page1 ≤ E.getPageBegin .page2 ∨
    E.getPageEnd .page2 ≤ E.getPageBegin .page1 := E.apart

theorem slotAddr_zero (E : Layout) (page : LogicalPage) :
    E.slotAddr page 0 = E.getPageBegin page + 4 := by
  simp [Layout.slotAddr]

theorem verifyPage_iff (hp : page ≠ .noPage) :
    verifyPage E mem page = true ↔ mem.Erased (E.getPageBegin page) (E.getPageEnd page) := by
  have hle := getPageBegin_add_le E hp
  rw [verifyPage, Memory.bytes, List.all_map, List.all_eq_true]
  constructor
  · intro h x h1 h2
    have := h (x - E.getPageBegin page) (List.mem_range.mpr (by omega))
    simpa [show E.getPageBegin page + (x - E.getPageBegin page) = x by omega] using this
  · intro h i hi
    have hi := List.mem_range.mp hi
    simpa using h (E.getPageBegin page + i) (by omega) (by omega)

/-! ## Filling a page -/

/-- The destination holds `rs` in its first slots and nothing behind; its header is as in `mem₁`. -/
structure Filled (E : Layout) (page : LogicalPage) (mem₁ : Memory) (rs : List Record)
    (mem : Memory) : Prop where
  differs : Memory.DiffersIn (E.slotAddr page 0) (E.getPageEnd page) mem₁ mem
  slots : (List.range rs.length).map (slot E mem page) = rs
  erased : mem.Erased (E.slotAddr page rs.length) (E.getPageEnd page)

variable {mem₁ : Memory} {rs : List Record} {C : ℕ → Memory → Prop}

theorem Filled.nil (h : mem₁.Erased (E.slotAddr page 0) (E.getPageEnd page)) :
    Filled E page mem₁ [] mem₁ := ⟨.refl _ _ _, rfl, h⟩

/-- One more record. -/
theorem wpc_writeRecord_filled {r : Record} {Q : Bool → ℕ → Memory → Prop} (hp : page ≠ .noPage)
    (hfill : Filled E page mem₁ rs mem) (hroom : rs.length < E.slotCount page)
    (hr : r.index < 65536)
    (hQ : ∀ mem', Filled E page mem₁ (rs ++ [r]) mem' → Q true 4 mem')
    (hC : ∀ b mem', Memory.DiffersIn (E.slotAddr page 0) (E.getPageEnd page) mem₁ mem' →
      C b mem') :
    wpc (writeRecord E (E.slotAddr page rs.length) (E.getPageEnd page) r) Q C mem := by
  have hend := E.slotAddr_slotCount hp
  have htop : E.slotAddr page (rs.length + 1) ≤ E.getPageEnd page := by
    rw [← hend]
    exact slotAddr_le_iff.mpr hroom
  have herased : mem.Erased (E.slotAddr page rs.length)
      (E.slotAddr page rs.length + r.toBytes.length) :=
    hfill.erased.mono le_rfl (by rw [Record.length_toBytes, ← slotAddr_succ]; exact htop)
  have hdiff : ∀ bs : List UInt8, bs.length ≤ 4 →
      Memory.DiffersIn (E.slotAddr page 0) (E.getPageEnd page) mem₁
        (mem.program (E.slotAddr page rs.length) bs) := fun bs hbs ↦
    hfill.differs.trans ((program_slot_differsIn E page mem rs.length bs hbs).mono
      (slotAddr_le_iff.mpr (by omega)) htop)
  refine wpc_writeRecord (by rw [← slotAddr_succ]; exact htop) ?_ fun k _ hk ↦ hC _ _ ?_
  · rw [accepts_of_erased herased]
    have hone := program_slot_differsIn E page mem rs.length r.toBytes (by simp)
    refine hQ _ ⟨hdiff _ (by simp), ?_, ?_⟩
    · have hlast : slot E (mem.program (E.slotAddr page rs.length) r.toBytes) page rs.length = r :=
        readRecord_of_bytes hr (Memory.bytes_program_of_erased herased)
      rw [List.length_append, List.length_singleton, List.range_succ, List.map_append,
        List.map_singleton, hlast]
      congr 1
      rw [← hfill.slots]
      simp only [List.length_map, List.length_range]
      exact List.map_congr_left fun j hj ↦ slot_congr fun x _ hx ↦ hone x
        (Or.inl (hx.trans_le (slotAddr_le_iff.mpr (by
          have := List.mem_range.mp hj
          omega))))
    · rw [List.length_append, List.length_singleton]
      exact hone.erased (hfill.erased.mono (slotAddr_le_iff.mpr (by omega)) le_rfl) (Or.inr le_rfl)
  · exact hdiff _ (by rw [List.length_take]; simp)

/-- A filled page has its records as log. -/
theorem Filled.log_eq (hp : page ≠ .noPage) (hfill : Filled E page mem₁ rs mem)
    (hroom : rs.length ≤ E.slotCount page) (hv : ∀ r ∈ rs, r.valid = true) :
    log E mem page = rs := by
  have hend := E.slotAddr_slotCount hp
  have hlen : logLength E mem page = rs.length := by
    refine logLength_eq_of hroom (fun j hj ↦ ?_) fun hlt ↦ ?_
    · refine hv _ ?_
      rw [← hfill.slots]
      exact List.mem_map.mpr ⟨j, List.mem_range.mpr (by simpa using hj), rfl⟩
    · refine Record.valid_eq_false_of_empty (empty_readRecord_iff.mpr
        (hfill.erased.mono le_rfl ?_))
      rw [← hend, ← slotAddr_succ]
      exact slotAddr_le_iff.mpr hlt
  rw [log, hlen, hfill.slots]

/-! ## The new records -/

/-- What is copied of a list of records, except the range `[b, e)`. -/
def copied (b e : ℕ) (l : List Record) : List Record :=
  (l.filter fun r ↦ ¬ (b ≤ r.index ∧ r.index < e) ∧ r.data ≠ 0xFF).map fun r ↦
    .of r.index r.data

/-- The records that `writeRangeDirect` writes. -/
def directRecords : ℕ → List UInt8 → List Record
  | _, [] => []
  | index, d :: data =>
    if d ≠ 0xFF then .of index d :: directRecords (index + 1) data
    else directRecords (index + 1) data

/-- The records of the destination page after a swap. -/
def swappedRecords (l : List Record) (index : ℕ) (data : List UInt8) : List Record :=
  copied index (index + data.length) (uniqueRecords l) ++ directRecords index data

theorem length_directRecords_le (index : ℕ) (data : List UInt8) :
    (directRecords index data).length ≤ data.length := by
  induction data generalizing index with
  | nil => exact le_rfl
  | cons d data ih =>
    have := ih (index + 1)
    rw [directRecords]
    split <;> simp only [List.length_cons] <;> omega

theorem mem_directRecords {index : ℕ} {data : List UInt8} {r : Record}
    (h : r ∈ directRecords index data) :
    ∃ i d, r = .of i d ∧ index ≤ i ∧ i < index + data.length := by
  induction data generalizing index with
  | nil => simp [directRecords] at h
  | cons d data ih =>
    have hrec : r ∈ directRecords (index + 1) data →
        ∃ i d', r = .of i d' ∧ index ≤ i ∧ i < index + (d :: data).length := fun h ↦ by
      obtain ⟨i, d', h1, h2, h3⟩ := ih h
      exact ⟨i, d', h1, by omega, by simp only [List.length_cons]; omega⟩
    rw [directRecords] at h
    split at h
    · rcases List.mem_cons.mp h with rfl | h
      · exact ⟨index, d, rfl, le_rfl, by simp only [List.length_cons]; omega⟩
      · exact hrec h
    · exact hrec h

/-- The records a cell needs for a value: none if it is `0xFF`. -/
def valueRecords (index : ℕ) (value : UInt8) : List Record :=
  if value ≠ 0xFF then [.of index value] else []

theorem entries_directRecords {index i : ℕ} {data : List UInt8}
    (hlt : index + data.length ≤ 65536) :
    entries Record.index (directRecords index data) i =
      if index ≤ i then valueRecords i (data[i - index]?.getD 0xFF) else [] := by
  induction data generalizing index with
  | nil => simp [directRecords, valueRecords]
  | cons d data ih =>
    simp only [List.length_cons] at hlt
    have ih := ih (show index + 1 + data.length ≤ 65536 by omega)
    have hidx : (Record.of index d).index = index := Nat.mod_eq_of_lt (by omega)
    have hcons : entries Record.index (directRecords index (d :: data)) i =
        (if index = i then valueRecords index d else []) ++
          entries Record.index (directRecords (index + 1) data) i := by
      rw [directRecords]
      by_cases hd : d = 0xFF
      · simp [hd, valueRecords]
      · simp only [ne_eq, hd, not_false_eq_true, if_true, entries_cons, hidx, valueRecords]
        split <;> rfl
    rw [hcons, ih]
    rcases Nat.lt_trichotomy i index with hi | rfl | hi
    · rw [if_neg (by omega), if_neg (by omega), if_neg (by omega)]
      rfl
    · simp
    · obtain ⟨j, rfl⟩ : ∃ j, i = index + 1 + j := ⟨i - index - 1, by omega⟩
      have h1 : index + 1 + j - index = j + 1 := by omega
      have h2 : index + 1 + j - (index + 1) = j := by omega
      rw [if_neg (by omega), if_pos (by omega), if_pos (by omega), h1, h2]
      rfl

/-- Copied records have one entry for each index outside the range that has a value. -/
theorem entries_copied {b e i : ℕ} {l : List Record} (hi : i < 65536) :
    entries Record.index (copied b e (uniqueRecords l)) i =
      if b ≤ i ∧ i < e then []
      else valueRecords i (((latest Record.index l i).map Record.data).getD 0xFF) := by
  have hidx : ∀ r ∈ uniqueRecords l, r.index < 65536 := by
    intro r hr
    obtain ⟨k, hk, hr⟩ := mem_compact_iff.mp hr
    rw [(mem_of_latest hr).2]
    exact List.mem_range.mp hk
  have huniq : entries Record.index (uniqueRecords l) i = (latest Record.index l i).toList := by
    rw [uniqueRecords, entries_compact List.nodup_range, if_pos (List.mem_range.mpr hi)]
  generalize uniqueRecords l = u at hidx huniq
  have hfilter : entries Record.index (copied b e u) i =
      ((entries Record.index u i).filter fun r ↦
        ¬ (b ≤ r.index ∧ r.index < e) ∧ r.data ≠ 0xFF).map fun r ↦ .of r.index r.data := by
    rw [copied, entries, entries, List.filter_map, List.filter_filter, List.filter_filter]
    refine congrArg _ (List.filter_congr fun r hr ↦ ?_)
    have : (Record.of r.index r.data).index = r.index := Nat.mod_eq_of_lt (hidx r hr)
    simp [this, Bool.and_comm]
  rw [hfilter, huniq]
  rcases ho : latest Record.index l i with _ | r
  · simp [valueRecords]
  · have hri := (mem_of_latest ho).2
    by_cases hin : b ≤ i ∧ i < e
    · rw [if_pos hin]
      simp [hri, hin]
    · rw [if_neg hin]
      by_cases hd : r.data = 0xFF
      · simp [hd, valueRecords]
      · have hkeep : i < b ∨ e ≤ i := by omega
        simp [hri, hd, hkeep, valueRecords]

/-- **The new records are the new map**: one record for each cell that is not `0xFF`. -/
theorem entries_swappedRecords {l : List Record} {index i : ℕ} {data : List UInt8}
    (hi : i < 65536) (hlt : index + data.length ≤ 65536) :
    entries Record.index (swappedRecords l index data) i =
      valueRecords i (putRange (fun i ↦ ((latest Record.index l i).map Record.data).getD 0xFF) index
        data i) := by
  rw [swappedRecords, entries_append, entries_copied hi, entries_directRecords hlt, putRange]
  by_cases hin : index ≤ i ∧ i < index + data.length
  · have hget : data[i - index]? = some data[i - index] := List.getElem?_eq_getElem _
    rw [if_pos hin, if_pos hin.1, if_pos hin.1, hget]
    rfl
  · rw [if_neg hin]
    by_cases hle : index ≤ i
    · rw [if_pos hle, if_pos hle, List.getElem?_eq_none (by omega)]
      simp [valueRecords]
    · rw [if_neg hle, if_neg hle, List.append_nil]

/-- The new records fit in a page. -/
theorem length_swappedRecords_le {l : List Record} {index : ℕ} {data : List UInt8}
    (hl : ∀ r ∈ l, r.index < E.capacity) (hput : index + data.length ≤ E.capacity) :
    (swappedRecords l index data).length ≤ E.capacity := by
  have hcap := E.capacity_le_8192
  obtain ⟨m, hm⟩ : ∃ m, E.capacity = index + data.length + m := ⟨_, (Nat.add_sub_cancel' hput).symm⟩
  -- what is copied has its index below the range or above it
  have hmid : ((List.range data.length).filterMap fun j ↦
      latest Record.index l (index + j)).filter (fun r ↦
        ¬ (index ≤ r.index ∧ r.index < index + data.length) ∧ r.data ≠ 0xFF) = [] := by
    rw [List.filter_eq_nil_iff]
    intro r hr
    obtain ⟨j, hj, hr⟩ := List.mem_filterMap.mp hr
    have hj := List.mem_range.mp hj
    rw [decide_eq_true_eq, (mem_of_latest hr).2]
    omega
  have hcopied : (copied index (index + data.length) (uniqueRecords l)).length ≤ index + m := by
    rw [uniqueRecords_eq (n := index + data.length + m) (by omega) fun r hr ↦ hm ▸ hl r hr,
      compact_range_add, compact_range_add, copied, List.length_map, List.filter_append,
      List.filter_append, hmid, List.append_nil, List.length_append]
    refine Nat.add_le_add ((List.length_filter_le ..).trans ?_)
      ((List.length_filter_le ..).trans ?_)
    · simpa using length_compact_le Record.index l (List.range index)
    · simpa using List.length_filterMap_le
        (fun j ↦ latest Record.index l (index + data.length + j)) (List.range m)
  have hdirect := length_directRecords_le index data
  rw [swappedRecords, List.length_append]
  omega

theorem copied_concat (b e : ℕ) (l : List Record) (r : Record) :
    copied b e (l ++ [r]) = copied b e l ++
      if ¬ (b ≤ r.index ∧ r.index < e) ∧ r.data ≠ 0xFF then [.of r.index r.data] else [] := by
  rw [copied, List.filter_append, List.map_append, ← copied]
  simp only [List.filter_cons, List.filter_nil, decide_eq_true_eq]
  split <;> rfl

theorem length_copied_le_of_prefix {b e : ℕ} {l l' : List Record} (h : l <+: l') :
    (copied b e l).length ≤ (copied b e l').length := by
  rw [copied, copied, List.length_map, List.length_map]
  exact (h.filter _).length_le

theorem valid_of_mem_swappedRecords {l : List Record} {index : ℕ} {data : List UInt8}
    (hl : ∀ r ∈ l, r.index < E.capacity) (hput : index + data.length ≤ E.capacity) {r : Record}
    (h : r ∈ swappedRecords l index data) : r.valid = true ∧ r.index < E.capacity := by
  have hcap := E.capacity_le_8192
  have hof : ∀ i d, i < E.capacity →
      (Record.of i d).valid = true ∧ (Record.of i d).index < E.capacity := fun i d hi ↦
    ⟨Record.valid_of (by omega) d, (Nat.mod_le i 65536).trans_lt hi⟩
  rcases List.mem_append.mp h with h | h
  · obtain ⟨r', hr', rfl⟩ := List.mem_map.mp h
    obtain ⟨k, -, hk⟩ := mem_compact_iff.mp (List.mem_filter.mp hr').1
    exact hof _ _ (hl _ (mem_of_latest hk).1)
  · obtain ⟨i, d, rfl, -, hi⟩ := mem_directRecords h
    exact hof _ _ (by omega)

/-! ## Filling the destination page -/

/-- The address of the slot behind the records of a filled page, and that all went well. -/
private def fillState (E : Layout) (page : LogicalPage) (rs : List Record) : Bool × ℕ :=
  (true, E.slotAddr page rs.length)

theorem frozen_copyAllRecordsToPageExcept (src dst : LogicalPage) (a b e : ℕ) :
    Frozen (copyAllRecordsToPageExcept E src dst a b e) :=
  frozen_forEachUniqueValidRecord (fun _ _ _ ↦
    .ite (((frozen_writeRecord E _ _ _).andThen _).bind fun _ ↦ frozen_pure _) (frozen_pure _)) _

/-- **Copying** fills an erased destination with what is kept of the source. -/
theorem wpc_copyAllRecordsToPageExcept {b e : ℕ} {Q : Bool × ℕ → ℕ → Memory → Prop}
    (hsrc : src ≠ .noPage) (hdst : dst ≠ .noPage) (hne : src ≠ dst)
    (hlog : ∀ r ∈ log E mem src, r.index < E.capacity)
    (herased : mem.Erased (E.slotAddr dst 0) (E.getPageEnd dst))
    (hroom : (copied b e (uniqueRecords (log E mem src))).length ≤ E.slotCount dst)
    (hQ : ∀ n mem', Filled E dst mem (copied b e (uniqueRecords (log E mem src))) mem' →
      Q (true, E.slotAddr dst (copied b e (uniqueRecords (log E mem src))).length) n mem')
    (hC : ∀ n mem', Memory.DiffersIn (E.slotAddr dst 0) (E.getPageEnd dst) mem mem' →
      C n mem') :
    wpc (copyAllRecordsToPageExcept E src dst (E.getPageBegin dst + 4) b e) Q C mem := by
  have hcap := E.capacity_le_8192
  have hapart := getPageEnd_le_or E hsrc hdst hne
  have hzero := slotAddr_zero E dst
  have hrule : wpc (copyAllRecordsToPageExcept E src dst (E.getPageBegin dst + 4) b e)
      (fun s _ mem' ↦ Filled E dst mem (copied b e (uniqueRecords (log E mem src))) mem' ∧
        s = fillState E dst (copied b e (uniqueRecords (log E mem src))))
      (fun _ ↦ Memory.DiffersIn (E.slotAddr dst 0) (E.getPageEnd dst) mem) mem := by
    refine wpc_forEachUniqueValidRecord mem (I := fun done s mem' ↦
      Filled E dst mem (copied b e done) mem' ∧ s = fillState E dst (copied b e done))
      ?_ hsrc ?_ ?_ ?_ ⟨.nil herased, ?_⟩
    · exact fun _ _ _ ↦ .ite (((frozen_writeRecord E _ _ _).andThen _).bind fun _ ↦ frozen_pure _)
        (frozen_pure _)
    · exact fun r hr ↦ (hlog r hr).trans_le (by omega)
    · -- the source page is not part of what changes
      intro done s mem' h x hx1 hx2
      exact h.1.differs x (by omega)
    · rintro done s mem' a r ⟨hfill, rfl⟩ hpre
      have hlen := length_copied_le_of_prefix (b := b) (e := e) hpre
      rw [copied_concat] at hlen
      by_cases hkeep : ¬ (b ≤ r.index ∧ r.index < e) ∧ r.data ≠ 0xFF
      · simp only [copied_concat, if_pos hkeep, List.length_append, List.length_singleton] at hlen ⊢
        refine wpc_bind (fun _ ↦ frozen_pure _) (wpc_andThen_true
          (wpc_writeRecord_filled hdst hfill (by omega) (Nat.mod_lt _ (by omega))
            (fun mem'' h ↦ wpc_pure ⟨h, ?_⟩) fun _ _ h ↦ h))
        rw [fillState, fillState, List.length_append, List.length_singleton, slotAddr_succ]
      · simp only [copied_concat, if_neg hkeep, List.append_nil]
        exact wpc_pure ⟨hfill, rfl⟩
    · rw [← hzero]
      rfl
  refine wpc_mono hrule (fun s n mem' h ↦ ?_) fun n mem' h ↦ hC n mem' h
  rw [h.2]
  exact hQ n mem' h.1

theorem frozen_writeRangeDirect (endAddress a index : ℕ) (data : List UInt8) :
    Frozen (writeRangeDirect E endAddress a index data) := by
  induction data generalizing a index with
  | nil => exact frozen_pure _
  | cons d data ih =>
    exact .ite ((frozen_writeRecord E _ _ _).bind fun _ ↦ .ite (ih _ _) (frozen_pure _)) (ih _ _)

/-- **Writing the range** appends its records to the filled page. -/
theorem wpc_writeRangeDirect {index : ℕ} {data : List UInt8} {Q : Bool → ℕ → Memory → Prop}
    (hp : page ≠ .noPage) (hfill : Filled E page mem₁ rs mem)
    (hroom : rs.length + (directRecords index data).length ≤ E.slotCount page)
    (hQ : ∀ n mem', Filled E page mem₁ (rs ++ directRecords index data) mem' → Q true n mem')
    (hC : ∀ n mem', Memory.DiffersIn (E.slotAddr page 0) (E.getPageEnd page) mem₁ mem' →
      C n mem') :
    wpc (writeRangeDirect E (E.getPageEnd page) (E.slotAddr page rs.length) index data) Q C
      mem := by
  induction data generalizing index rs mem Q C with
  | nil => exact wpc_pure (hQ 0 mem (by simpa [directRecords] using hfill))
  | cons d data ih =>
    rw [writeRangeDirect]
    rw [directRecords] at hroom hQ
    by_cases hd : d ≠ 0xFF
    · rw [if_pos hd, List.length_cons] at hroom
      rw [if_pos hd] at hQ ⊢
      refine wpc_bind (fun _ ↦ .ite (frozen_writeRangeDirect _ _ _ _) (frozen_pure _))
        (wpc_writeRecord_filled hp hfill (by omega) (Nat.mod_lt _ (by omega))
          (fun mem' h ↦ ?_) fun _ _ h ↦ hC _ _ h)
      have ih := ih (Q := fun a n ↦ Q a (4 + n)) (C := fun n ↦ C (4 + n)) h
        (show _ + (directRecords (index + 1) data).length ≤ _ by
          rw [List.length_append, List.length_singleton]; omega)
        (fun n mem'' h' ↦ hQ _ _ (by simpa using h')) fun n mem'' h' ↦ hC _ _ h'
      rwa [List.length_append, List.length_singleton, slotAddr_succ] at ih
    · rw [if_neg hd] at hroom hQ ⊢
      exact ih hfill hroom hQ hC

/-! ## Switching the pages -/

/-- The destination as the copying starts: marked, and erased behind the header. -/
def Marked (E : Layout) (dst : LogicalPage) (mem : Memory) : Prop :=
  mem.bytes (E.getPageBegin dst) 4 = [0xEE, 0xEE, 0xFF, 0xFF] ∧
    mem.Erased (E.slotAddr dst 0) (E.getPageEnd dst)

/-- `dst` is active and holds the records of a swap that started in `mem`; the records of `src`
are still there. -/
structure Swapped (E : Layout) (src dst : LogicalPage) (index : ℕ) (data : List UInt8)
    (mem mem' : Memory) : Prop where
  source : ∀ x, E.slotAddr src 0 ≤ x → x < E.getPageEnd src → mem' x = mem x
  active : readPageStatus E mem' dst = PageHeader.active
  records : log E mem' dst = swappedRecords (log E mem src) index data

/-- What a swap that is cut leaves behind: only an inactive destination has changed, or the swap is
complete but for the status of the source. -/
def SwapCut (E : Layout) (src dst : LogicalPage) (index : ℕ) (data : List UInt8)
    (mem mem' : Memory) : Prop :=
  (readPageStatus E mem' dst ≠ PageHeader.active ∧
    Memory.DiffersIn (E.getPageBegin dst) (E.getPageEnd dst) mem mem') ∨
  Swapped E src dst index data mem mem'

/-- A header whose first byte is not `0` is not active. -/
theorem readPageStatus_ne_active (h : mem (E.getPageBegin page) ≠ 0) :
    readPageStatus E mem page ≠ PageHeader.active := fun hc ↦ by
  have := readPageStatus_eq_active_iff.mp hc
  rw [Memory.bytes_succ, List.cons.injEq] at this
  exact h this.1

theorem header_of_differsIn {n : ℕ} {mem₂ : Memory}
    (h : Memory.DiffersIn (E.slotAddr dst 0) n mem₁ mem₂) :
    mem₂.bytes (E.getPageBegin dst) 4 = mem₁.bytes (E.getPageBegin dst) 4 :=
  Memory.bytes_congr fun x _ hx ↦ h x (Or.inl (by rw [slotAddr_zero]; exact hx))

theorem program_header_differsIn (hp : page ≠ .noPage) (mem : Memory) {bs : List UInt8}
    (h : bs.length ≤ 4) :
    Memory.DiffersIn (E.getPageBegin page) (E.getPageEnd page) mem
      (mem.program (E.getPageBegin page) bs) :=
  (mem.program_differsIn _ bs).mono le_rfl (by have := getPageBegin_add_le E hp; omega)

/-- Marking an erased destination. -/
theorem wpc_writePageStatus_copy {Q : Bool → ℕ → Memory → Prop} {C : ℕ → Memory → Prop}
    (hdst : dst ≠ .noPage) (herased : mem.Erased (E.getPageBegin dst) (E.getPageEnd dst))
    (hQ : ∀ mem', Marked E dst mem' →
      Memory.DiffersIn (E.getPageBegin dst) (E.getPageEnd dst) mem mem' → Q true 4 mem')
    (hC : ∀ n mem', readPageStatus E mem' dst ≠ PageHeader.active →
      Memory.DiffersIn (E.getPageBegin dst) (E.getPageEnd dst) mem mem' → C n mem') :
    wpc (writePageStatus E dst PageHeader.copy) Q C mem := by
  have hle := getPageBegin_add_le E hdst
  have hheader : mem.Erased (E.getPageBegin dst) (E.getPageBegin dst + 4) :=
    herased.mono le_rfl (by omega)
  have hbytes : mem.bytes (E.getPageBegin dst) 4 = [0xFF, 0xFF, 0xFF, 0xFF] :=
    Memory.bytes_of_erased hheader
  refine wpc_writePageStatus ?_ fun t h1 h4 ↦ hC t _ ?_ (program_header_differsIn hdst mem ?_)
  · rw [accepts_of_erased (by simpa using hheader)]
    refine hQ _ ⟨?_, ?_⟩ (program_header_differsIn hdst mem (by simp))
    · rw [Memory.bytes_program, hbytes]
      decide
    · refine (mem.program_differsIn _ _).erased (herased.mono ?_ le_rfl) (Or.inr ?_) <;>
        simp [slotAddr_zero]
  · refine readPageStatus_ne_active ?_
    have hfirst := mem.program_apply (E.getPageBegin dst) 0 ((PageHeader.toBytes
      PageHeader.copy).take t)
    rw [Nat.add_zero, hheader _ le_rfl (by omega), List.getElem?_take, if_pos (by omega)] at hfirst
    rw [hfirst]
    decide
  · rw [List.length_take]
    simp

/-- Activating a destination that was marked: from the second byte on it is active. -/
theorem wpc_writePageStatus_active {Q : Bool → ℕ → Memory → Prop} {C : ℕ → Memory → Prop}
    (hmark : mem.bytes (E.getPageBegin dst) 4 = [0xEE, 0xEE, 0xFF, 0xFF])
    (hdone : ∀ mem', readPageStatus E mem' dst = PageHeader.active →
      Memory.DiffersIn (E.getPageBegin dst) (E.slotAddr dst 0) mem mem' →
      Q true 4 mem' ∧ ∀ n, C n mem')
    (hC : ∀ n mem', readPageStatus E mem' dst ≠ PageHeader.active →
      Memory.DiffersIn (E.getPageBegin dst) (E.slotAddr dst 0) mem mem' → C n mem') :
    wpc (writePageStatus E dst PageHeader.active) Q C mem := by
  have hdiff : ∀ t, Memory.DiffersIn (E.getPageBegin dst) (E.slotAddr dst 0) mem
      (mem.program (E.getPageBegin dst) ((PageHeader.toBytes PageHeader.active).take t)) :=
    fun t ↦ (mem.program_differsIn _ _).mono le_rfl (by
      rw [List.length_take, slotAddr_zero, PageHeader.length_toBytes]
      omega)
  have hactive : ∀ t, 2 ≤ t → t ≤ 4 → readPageStatus E (mem.program (E.getPageBegin dst)
      ((PageHeader.toBytes PageHeader.active).take t)) dst = PageHeader.active := by
    intro t h2 h4
    rw [readPageStatus_eq_active_iff, Memory.bytes_program, hmark]
    obtain rfl | rfl | rfl : t = 2 ∨ t = 3 ∨ t = 4 := by omega
    all_goals decide
  have haccepts : accepts E mem (E.getPageBegin dst) (PageHeader.toBytes PageHeader.active) =
      true := by
    rw [accepts, PageHeader.length_toBytes, Memory.bytes_program, hmark, Bool.or_eq_true]
    exact Or.inr (by decide)
  refine wpc_writePageStatus ?_ fun t h1 h4 ↦ ?_
  · rw [haccepts]
    exact (hdone _ (hactive 4 (by omega) le_rfl) (hdiff 4)).1
  · by_cases h2 : 2 ≤ t
    · exact (hdone _ (hactive t h2 h4) (hdiff t)).2 t
    · obtain rfl : t = 1 := by omega
      refine hC 1 _ (fun hc ↦ ?_) (hdiff 1)
      rw [readPageStatus_eq_active_iff, Memory.bytes_program, hmark] at hc
      exact absurd hc (by decide)

/-- Retiring an active source. -/
theorem wpc_writePageStatus_inactive {Q : Bool → ℕ → Memory → Prop} {C : ℕ → Memory → Prop}
    (hactive : readPageStatus E mem src = PageHeader.active)
    (hdone : ∀ mem', readPageStatus E mem' src = PageHeader.inactive →
      Memory.DiffersIn (E.getPageBegin src) (E.slotAddr src 0) mem mem' → Q true 4 mem')
    (hC : ∀ n mem', Memory.DiffersIn (E.getPageBegin src) (E.slotAddr src 0) mem mem' →
      C n mem') :
    wpc (writePageStatus E src PageHeader.inactive) Q C mem := by
  have hdiff : ∀ t, Memory.DiffersIn (E.getPageBegin src) (E.slotAddr src 0) mem
      (mem.program (E.getPageBegin src) ((PageHeader.toBytes PageHeader.inactive).take t)) :=
    fun t ↦ (mem.program_differsIn _ _).mono le_rfl (by
      rw [List.length_take, slotAddr_zero, PageHeader.length_toBytes]
      omega)
  have hbytes := readPageStatus_eq_active_iff.mp hactive
  have haccepts : accepts E mem (E.getPageBegin src) (PageHeader.toBytes PageHeader.inactive) =
      true := by
    rw [accepts, PageHeader.length_toBytes, Memory.bytes_program, hbytes, Bool.or_eq_true]
    exact Or.inr (by decide)
  refine wpc_writePageStatus ?_ fun t _ _ ↦ hC t _ (hdiff t)
  rw [haccepts]
  refine hdone _ ?_ (hdiff 4)
  rw [readPageStatus_eq_iff (by decide), Memory.bytes_program, hbytes]
  decide

/-! ## The whole swap -/

variable {index : ℕ} {data : List UInt8}

/-- What a try does once the destination is marked as a copy. -/
def copyAndSwitch (E : Layout) (src dst : LogicalPage) (index : ℕ) (data : List UInt8)
    (success : Bool) : FlashM Bool := do
  let writeAddress := E.getPageBegin dst + 4
  let copied ←
    (if success then
      copyAllRecordsToPageExcept E src dst writeAddress index ((index + data.length) % 65536)
    else pure (false, writeAddress))
  let success ← andThen copied.1 (writeRangeDirect E (E.getPageEnd dst) copied.2 index data)
  let success ← andThen success (writePageStatus E dst PageHeader.active)
  andThen success (writePageStatus E src PageHeader.inactive)

theorem swapTry_eq (E : Layout) (src dst : LogicalPage) (index : ℕ) (data : List UInt8)
    (tries : ℕ) : swapTry E src dst index data tries = (do
      let erased ← look fun mem ↦ verifyPage E mem dst
      let _ ← (if tries > 0 || !erased then erasePage E dst else pure ())
      let success ← writePageStatus E dst PageHeader.copy
      copyAndSwitch E src dst index data success) := rfl

theorem frozen_copyAndSwitch (src dst : LogicalPage) (index : ℕ) (data : List UInt8)
    (success : Bool) : Frozen (copyAndSwitch E src dst index data success) :=
  (Frozen.ite (frozen_copyAllRecordsToPageExcept _ _ _ _ _) (frozen_pure _)).bind fun _ ↦
    ((frozen_writeRangeDirect _ _ _ _).andThen _).bind fun _ ↦
      ((frozen_writePageStatus E _ _).andThen _).bind fun _ ↦
        (frozen_writePageStatus E _ _).andThen _

theorem frozen_swapTry (src dst : LogicalPage) (index : ℕ) (data : List UInt8) (tries : ℕ) :
    Frozen (swapTry E src dst index data tries) :=
  (frozen_look _).bind fun _ ↦ (Frozen.ite (frozen_erasePage E _) (frozen_pure _)).bind fun _ ↦
    (frozen_writePageStatus E _ _).bind fun _ ↦ frozen_copyAndSwitch _ _ _ _ _

/-- A swap starts from an erased destination. -/
theorem wpc_eraseUnlessVerified {tries : ℕ} {Q : Unit → ℕ → Memory → Prop}
    {C : ℕ → Memory → Prop} (hdst : dst ≠ .noPage)
    (hQ : ∀ n mem', mem'.Erased (E.getPageBegin dst) (E.getPageEnd dst) →
      Memory.DiffersIn (E.getPageBegin dst) (E.getPageEnd dst) mem mem' → Q () n mem')
    (hC : ∀ n mem', readPageStatus E mem' dst ≠ PageHeader.active →
      Memory.DiffersIn (E.getPageBegin dst) (E.getPageEnd dst) mem mem' → C n mem') :
    wpc (if tries > 0 || !verifyPage E mem dst then erasePage E dst else pure ()) Q C mem := by
  have hle := getPageBegin_add_le E hdst
  have herase := mem.erase_erased (E.getPageBegin dst) (E.getPageEnd dst)
  have hdiff := mem.erase_differsIn (E.getPageBegin dst) (E.getPageEnd dst)
  split
  · refine wpc_erasePage (hQ _ _ herase hdiff) (hC _ _ (readPageStatus_ne_active ?_) hdiff)
    rw [herase _ le_rfl (by omega)]
    decide
  · rename_i hc
    have hverify : verifyPage E mem dst = true := by
      simp only [gt_iff_lt, Bool.or_eq_true, decide_eq_true_eq, Bool.not_eq_true', not_or,
        Bool.not_eq_false] at hc
      exact hc.2
    exact wpc_pure (hQ _ _ ((verifyPage_iff hdst).mp hverify) (.refl _ _ _))

/-- A destination with its records that has become active, and a source that may be retired. -/
theorem swapped_of_active {mem₄ mem₅ mem' : Memory} (hsrc : src ≠ .noPage) (hdst : dst ≠ .noPage)
    (hne : src ≠ dst)
    (hlog₄ : log E mem₄ dst = swappedRecords (log E mem src) index data)
    (hact : readPageStatus E mem₅ dst = PageHeader.active)
    (hd₄ : Memory.DiffersIn (E.getPageBegin dst) (E.getPageEnd dst) mem mem₄)
    (hd₅ : Memory.DiffersIn (E.getPageBegin dst) (E.slotAddr dst 0) mem₄ mem₅)
    (hd₆ : Memory.DiffersIn (E.getPageBegin src) (E.slotAddr src 0) mem₅ mem') :
    Swapped E src dst index data mem mem' := by
  have hapart := getPageEnd_le_or E hsrc hdst hne
  have hsrcle := getPageBegin_add_le E hsrc
  have hdstle := getPageBegin_add_le E hdst
  have hs0 := slotAddr_zero E src
  have hd0 := slotAddr_zero E dst
  refine ⟨fun x h1 h2 ↦ ?_, ?_, ?_⟩
  · rw [hd₆ x (by omega), hd₅ x (by omega), hd₄ x (by omega)]
  · rw [← hact]
    exact readPageStatus_congr fun x h1 h2 ↦ hd₆ x (by omega)
  · rw [← hlog₄]
    exact log_congr_page hdst fun x h1 h2 ↦ by rw [hd₆ x (by omega), hd₅ x (by omega)]

/-- **One try of a swap** succeeds, and cut anywhere it leaves a page that can be read. -/
theorem wpc_swapTry {tries : ℕ} {Q : Bool → ℕ → Memory → Prop} {C : ℕ → Memory → Prop}
    (hsrc : src ≠ .noPage) (hdst : dst ≠ .noPage) (hne : src ≠ dst)
    (hactive : readPageStatus E mem src = PageHeader.active)
    (hlog : ∀ r ∈ log E mem src, r.index < E.capacity)
    (hput : index + data.length ≤ E.capacity)
    (hQ : ∀ n mem', Swapped E src dst index data mem mem' →
      readPageStatus E mem' src = PageHeader.inactive → Q true n mem')
    (hC : ∀ n mem', SwapCut E src dst index data mem mem' → C n mem') :
    wpc (swapTry E src dst index data tries) Q C mem := by
  have hcap := E.capacity_le_8192
  have hslots := (E.capacity_le dst hdst).1
  have hlen := length_swappedRecords_le hlog hput
  have happ : (swappedRecords (log E mem src) index data).length =
      (copied index (index + data.length) (uniqueRecords (log E mem src))).length +
        (directRecords index data).length := List.length_append
  have hapart := getPageEnd_le_or E hsrc hdst hne
  have hsrcle := getPageBegin_add_le E hsrc
  have hdstle := getPageBegin_add_le E hdst
  have hs0 := slotAddr_zero E src
  have hd0 := slotAddr_zero E dst
  -- what follows each step is frozen
  have f₅ := fun s ↦ (frozen_writePageStatus E src PageHeader.inactive).andThen s
  have f₄ := fun s ↦ ((frozen_writePageStatus E dst PageHeader.active).andThen s).bind f₅
  have f₃ := fun c : Bool × ℕ ↦
    ((frozen_writeRangeDirect (E := E) (E.getPageEnd dst) c.2 index data).andThen c.1).bind f₄
  have f₂ := fun s : Bool ↦ (Frozen.ite (c := s = true)
    (frozen_copyAllRecordsToPageExcept (E := E) src dst (E.getPageBegin dst + 4) index
      ((index + data.length) % 65536)) (frozen_pure (false, E.getPageBegin dst + 4))).bind f₃
  have f₁ := (frozen_writePageStatus E dst PageHeader.copy).bind f₂
  refine wpc_look_bind (wpc_bind (fun _ ↦ f₁)
    (wpc_eraseUnlessVerified hdst (fun n₁ mem₁ herased hd₁ ↦ ?_)
      fun n mem' h hd ↦ hC _ _ (Or.inl ⟨h, hd⟩)))
  -- the destination is marked
  refine wpc_bind f₂ (wpc_writePageStatus_copy hdst herased (fun mem₂ hmark hd₂ ↦ ?_)
    fun n mem' h hd ↦ hC _ _ (Or.inl ⟨h, hd₁.trans hd⟩))
  have hd₂ := hd₁.trans hd₂
  have hlog₂ : log E mem₂ src = log E mem src :=
    log_congr_page hsrc fun x h1 h2 ↦ hd₂ x (by omega)
  have hcut₂ : ∀ mem', Memory.DiffersIn (E.slotAddr dst 0) (E.getPageEnd dst) mem₂ mem' →
      SwapCut E src dst index data mem mem' := fun mem' hd ↦ by
    refine Or.inl ⟨fun hc ↦ ?_, hd₂.trans (hd.mono (by omega) le_rfl)⟩
    rw [readPageStatus_eq_active_iff, header_of_differsIn hd, hmark.1] at hc
    exact absurd hc (by decide)
  -- it is filled
  refine wpc_bind f₃ ?_
  rw [if_pos rfl, Nat.mod_eq_of_lt (by omega)]
  refine wpc_copyAllRecordsToPageExcept hsrc hdst hne (by rwa [hlog₂]) hmark.2
    (by rw [hlog₂]; omega) (fun n₃ mem₃ hfill₃ ↦ ?_) fun n mem' hd ↦ hC _ _ (hcut₂ _ hd)
  rw [hlog₂] at hfill₃ ⊢
  refine wpc_bind f₄ (wpc_andThen_true
    (wpc_writeRangeDirect hdst hfill₃ (by omega) (fun n₄ mem₄ hfill₄ ↦ ?_)
      fun n mem' hd ↦ hC _ _ (hcut₂ _ hd)))
  have hlog₄ : log E mem₄ dst = swappedRecords (log E mem src) index data :=
    hfill₄.log_eq hdst (hlen.trans hslots)
      fun r hr ↦ (valid_of_mem_swappedRecords hlog hput hr).1
  have hd₄ := hd₂.trans (hfill₄.differs.mono (by omega) le_rfl)
  -- it becomes active, and from then on the swap is complete
  have hswapped : ∀ mem₅ mem', readPageStatus E mem₅ dst = PageHeader.active →
      Memory.DiffersIn (E.getPageBegin dst) (E.slotAddr dst 0) mem₄ mem₅ →
      Memory.DiffersIn (E.getPageBegin src) (E.slotAddr src 0) mem₅ mem' →
      Swapped E src dst index data mem mem' := fun mem₅ mem' hact ↦
    swapped_of_active hsrc hdst hne hlog₄ hact hd₄
  refine wpc_bind f₅ (wpc_andThen_true
    (wpc_writePageStatus_active (by rw [header_of_differsIn hfill₄.differs, hmark.1])
      (fun mem₅ hact hd₅ ↦ ⟨?_, fun n ↦ hC _ _ (Or.inr (hswapped _ _ hact hd₅ (.refl _ _ _)))⟩)
      fun n mem' h hd ↦ hC _ _ (Or.inl ⟨h, hd₄.trans (hd.mono le_rfl (by omega))⟩)))
  have hactive₅ : readPageStatus E mem₅ src = PageHeader.active := by
    rw [← hactive]
    exact readPageStatus_congr fun x h1 h2 ↦ by rw [hd₅ x (by omega), hd₄ x (by omega)]
  refine wpc_andThen_true (wpc_writePageStatus_inactive hactive₅ (fun mem' h hd ↦ ?_)
    fun n mem' hd ↦ hC _ _ (Or.inr (hswapped _ _ hact hd₅ hd)))
  exact hQ _ _ (hswapped _ _ hact hd₅ hd) h

/-! ## The page that is read -/

theorem updateActivePage_eq (hsrc : src ≠ .noPage) (hdst : dst ≠ .noPage) (hne : src ≠ dst)
    (h : readPageStatus E mem src = PageHeader.active)
    (h' : readPageStatus E mem dst ≠ PageHeader.active) : updateActivePage E mem = ⟨src, dst⟩ := by
  cases src <;> cases dst <;> simp_all [updateActivePage]

theorem updateActivePage_spec (hpages : updateActivePage E mem = ⟨src, dst⟩)
    (hsrc : src ≠ .noPage) :
    dst ≠ .noPage ∧ src ≠ dst ∧ readPageStatus E mem src = PageHeader.active := by
  rw [updateActivePage] at hpages
  by_cases h1 : readPageStatus E mem .page1 = PageHeader.active
  · rw [if_pos h1] at hpages
    cases hpages
    exact ⟨by decide, by decide, h1⟩
  · rw [if_neg h1] at hpages
    by_cases h2 : readPageStatus E mem .page2 = PageHeader.active
    · rw [if_pos h2] at hpages
      cases hpages
      exact ⟨by decide, by decide, h2⟩
    · rw [if_neg h2] at hpages
      cases hpages
      exact absurd rfl hsrc

theorem frozen_swapPagesAndWrite (pages : Pages) (index : ℕ) (data : List UInt8) :
    Frozen (swapPagesAndWrite E pages index data) :=
  (frozen_swapTry _ _ _ _ _).bind fun _ ↦ .ite ((frozen_look _).bind fun _ ↦ frozen_pure _)
    ((frozen_swapTry _ _ _ _ _).bind fun _ ↦
      .ite ((frozen_look _).bind fun _ ↦ frozen_pure _) (frozen_pure _))

/-- **The swap** makes the destination the active page. -/
theorem wpc_swapPagesAndWrite {Q : Bool × Pages → ℕ → Memory → Prop} {C : ℕ → Memory → Prop}
    (hpages : updateActivePage E mem = ⟨src, dst⟩) (hsrc : src ≠ .noPage)
    (hlog : ∀ r ∈ log E mem src, r.index < E.capacity)
    (hput : index + data.length ≤ E.capacity)
    (hQ : ∀ n mem', Swapped E src dst index data mem mem' →
      readPageStatus E mem' src = PageHeader.inactive →
      updateActivePage E mem' = ⟨dst, src⟩ → Q (true, ⟨dst, src⟩) n mem')
    (hC : ∀ n mem', SwapCut E src dst index data mem mem' → C n mem') :
    wpc (swapPagesAndWrite E ⟨src, dst⟩ index data) Q C mem := by
  obtain ⟨hdst, hne, hactive⟩ := updateActivePage_spec hpages hsrc
  refine wpc_bind (fun _ ↦ .ite ((frozen_look _).bind fun _ ↦ frozen_pure _)
    ((frozen_swapTry _ _ _ _ _).bind fun _ ↦
      .ite ((frozen_look _).bind fun _ ↦ frozen_pure _) (frozen_pure _)))
    (wpc_swapTry hsrc hdst hne hactive hlog hput (fun n mem' hsw hin ↦ ?_) hC)
  have hnew : updateActivePage E mem' = ⟨dst, src⟩ :=
    updateActivePage_eq hdst hsrc hne.symm hsw.active (by rw [hin]; decide)
  rw [if_pos rfl]
  refine wpc_look_bind (wpc_pure ?_)
  rw [hnew]
  exact hQ _ _ hsw hin hnew

/-- The records after a swap: one for each cell that is not `0xFF`. -/
theorem Swapped.entries_eq (h : Swapped E src dst index data mem mem')
    (hlog : ∀ r ∈ log E mem src, r.index < E.capacity)
    (hput : index + data.length ≤ E.capacity) (i : ℕ) :
    entries Record.index (log E mem' dst) i =
      valueRecords i (putRange (contents E mem src) index data i) := by
  have hcap := E.capacity_le_8192
  rw [h.records]
  by_cases hi : i < 65536
  · exact entries_swappedRecords hi (by omega)
  · -- no record has such an index, and no cell
    have hcell : contents E mem src i = 0xFF := contents_of_le (by omega)
    have hdata : data[i - index]? = none := List.getElem?_eq_none (by omega)
    rw [entries_eq_nil_iff.mpr fun r hr ↦ by
      have := (valid_of_mem_swappedRecords hlog hput hr).2
      omega]
    simp [putRange, hcell, hdata, valueRecords]

theorem contents_of_entries {v : UInt8} {i : ℕ}
    (h : entries Record.index (log E mem page) i = valueRecords i v) :
    contents E mem page i = v := by
  rw [contents, latest, h, valueRecords]
  by_cases hv : v = 0xFF <;> simp [hv, Record.of]

theorem Swapped.contents_eq (h : Swapped E src dst index data mem mem')
    (hlog : ∀ r ∈ log E mem src, r.index < E.capacity)
    (hput : index + data.length ≤ E.capacity) :
    contents E mem' dst = putRange (contents E mem src) index data :=
  funext fun i ↦ contents_of_entries (h.entries_eq hlog hput i)

/-- What a cut swap leaves is readable: the selected page is the untouched source, or the
destination with the complete new map. -/
theorem SwapCut.selected (h : SwapCut E src dst index data mem mem')
    (hpages : updateActivePage E mem = ⟨src, dst⟩) (hsrc : src ≠ .noPage) :
    (updateActivePage E mem' = ⟨src, dst⟩ ∧
      ∀ x, E.slotAddr src 0 ≤ x → x < E.getPageEnd src → mem' x = mem x) ∨
    ((updateActivePage E mem').activePage = dst ∧ Swapped E src dst index data mem mem') := by
  obtain ⟨hdst, hne, hactive⟩ := updateActivePage_spec hpages hsrc
  have hapart := getPageEnd_le_or E hsrc hdst hne
  have hsrcle := getPageBegin_add_le E hsrc
  have hs0 := slotAddr_zero E src
  rcases h with ⟨hnot, hd⟩ | hsw
  · refine Or.inl ⟨updateActivePage_eq hsrc hdst hne ?_ hnot, fun x h1 h2 ↦ hd x (by omega)⟩
    rw [← hactive]
    exact readPageStatus_congr fun x h1 h2 ↦ hd x (by omega)
  · -- the source may still be active too, and then the first page is selected
    have hsel : updateActivePage E mem' = ⟨src, dst⟩ ∨
        (updateActivePage E mem').activePage = dst := by
      have hact := hsw.active
      cases src <;> cases dst <;> simp_all [updateActivePage]
      all_goals split <;> simp_all
    rcases hsel with hsel | hsel
    · exact Or.inl ⟨hsel, hsw.source⟩
    · exact Or.inr ⟨hsel, hsw⟩

/-- **Page swaps are safe.** Cut anywhere, a swap leaves either the source page selected with all
its slots as they were, or the destination page selected with the complete new map. A swap that is
not cut ends with the destination active, one record in it for each cell that is not `0xFF`, and
the source inactive. -/
theorem swapPagesAndWrite_safe (hpages : updateActivePage E mem = ⟨src, dst⟩)
    (hsrc : src ≠ .noPage) (hlog : ∀ r ∈ log E mem src, r.index < E.capacity)
    (hput : index + data.length ≤ E.capacity) :
    (∀ n, let mem' := cutAfter (swapPagesAndWrite E ⟨src, dst⟩ index data) n mem
      ((updateActivePage E mem').activePage = src ∧
        ∀ k < E.slotCount src, slot E mem' src k = slot E mem src k) ∨
      ((updateActivePage E mem').activePage = dst ∧
        contents E mem' dst = putRange (contents E mem src) index data)) ∧
    ∃ mem', complete (swapPagesAndWrite E ⟨src, dst⟩ index data) mem =
        some ((true, ⟨dst, src⟩), mem') ∧
      updateActivePage E mem' = ⟨dst, src⟩ ∧
      (∀ i, entries Record.index (log E mem' dst) i =
        valueRecords i (putRange (contents E mem src) index data i)) ∧
      readPageStatus E mem' src = PageHeader.inactive := by
  have hend := E.slotAddr_slotCount hsrc
  have hspec := wpc_swapPagesAndWrite
    (Q := fun r _ mem' ↦ r = (true, ⟨dst, src⟩) ∧ Swapped E src dst index data mem mem' ∧
      readPageStatus E mem' src = PageHeader.inactive ∧ updateActivePage E mem' = ⟨dst, src⟩)
    (C := fun _ mem' ↦ SwapCut E src dst index data mem mem') hpages hsrc hlog hput
    (fun _ _ h1 h2 h3 ↦ ⟨rfl, h1, h2, h3⟩) fun _ _ h ↦ h
  refine ⟨fun n ↦ ?_, ?_⟩
  · rcases hspec.cut (frozen_swapPagesAndWrite _ _ _) n with
      ⟨-, hsame⟩ | ⟨r, k, -, -, hsw, -, hsel⟩ | ⟨-, hcut⟩
    · exact Or.inl ⟨by simp only [hsame, hpages], fun k _ ↦ by rw [hsame]⟩
    · exact Or.inr ⟨by simp only [hsel], hsw.contents_eq hlog hput⟩
    · rcases hcut.selected hpages hsrc with ⟨hsel, hkept⟩ | ⟨hsel, hsw⟩
      · refine Or.inl ⟨by simp only [hsel], fun k hk ↦ slot_congr fun x h1 h2 ↦ hkept x ?_ ?_⟩
        · exact (slotAddr_le_iff.mpr (Nat.zero_le k)).trans h1
        · rw [← hend]
          exact h2.trans_le (slotAddr_le_iff.mpr hk)
      · exact Or.inr ⟨hsel, hsw.contents_eq hlog hput⟩
  · obtain ⟨r, n, mem', hrun, rfl, hsw, hin, hsel⟩ := hspec.complete
    exact ⟨mem', hrun, hsel, hsw.entries_eq hlog hput, hin⟩

/-- The first page is active and has the value 7 for cell 5. -/
def oneRecord : Memory :=
  Memory.blank.program duo.pageBase1
    (PageHeader.toBytes PageHeader.active ++ (Record.of 5 7).toBytes)

theorem swapPagesAndWrite_safe_oneRecord :
    (∀ n, let mem' := cutAfter (swapPagesAndWrite duo ⟨.page1, .page2⟩ 6 [1, 2]) n oneRecord
      ((updateActivePage duo mem').activePage = .page1 ∧
        ∀ k < duo.slotCount .page1, slot duo mem' .page1 k = slot duo oneRecord .page1 k) ∨
      ((updateActivePage duo mem').activePage = .page2 ∧
        contents duo mem' .page2 = putRange (contents duo oneRecord .page1) 6 [1, 2])) ∧
    ∃ mem', complete (swapPagesAndWrite duo ⟨.page1, .page2⟩ 6 [1, 2]) oneRecord =
        some ((true, ⟨.page2, .page1⟩), mem') ∧
      updateActivePage duo mem' = ⟨.page2, .page1⟩ ∧
      (∀ i, entries Record.index (log duo mem' .page2) i =
        valueRecords i (putRange (contents duo oneRecord .page1) 6 [1, 2] i)) ∧
      readPageStatus duo mem' .page1 = PageHeader.inactive :=
  swapPagesAndWrite_safe (by decide) (by decide) (by decide +kernel) (by decide)

end DuoFirmware.EEPROMEmulation
