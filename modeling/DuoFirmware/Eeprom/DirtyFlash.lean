import DuoFirmware.Eeprom.Append

/-!
# Changed values over flash that is not erased

Behind the empty slot at the end of the log there may be anything that interrupted writes have
left. `writeRangeChanged` looks at one slot of it, the one behind its batch, and relies on the
store for the rest: a record reads back when no bit that it needs set is cleared in its slot. Here
is what the function does on any such page and for any existing values, and when a put that
reports success is one.

The existing values come from `readRangeAndFindEmpty`, which computes the end of the range in 16
bits. When it wraps around, every value counts as `0xFF`, and the put is right only for bytes that
stay below the index of an empty record and that overwrite nothing with `0xFF`.
-/

namespace DuoFirmware.EEPROMEmulation

open NorFlash FlashM KeyedLog

variable {E : Layout} {mem mem' : Memory} {page : LogicalPage}

/-! ## Runs -/

theorem runs_storeWrite (E : Layout) (mem : Memory) (a : ℕ) (bs : List UInt8) :
    Runs (storeWrite E a bs) mem (if accepts E mem a bs then 0 else -1) bs.length
      (mem.program a bs) := by
  refine (runs_programBytes mem a bs).bind (k := 0) ?_
  rw [if_pos rfl]
  refine runs_look_bind ?_
  rw [accepts]
  cases E.verifies
  · exact runs_pure _ _
  · by_cases h : (mem.program a bs).bytes a bs.length = bs
    · rw [h, beq_self_eq_true, bne_self_eq_false]
      exact runs_pure _ _
    · rw [bne_iff_ne.mpr h, beq_false_of_ne h]
      exact runs_pure _ _

theorem runs_writeRecord {a e : ℕ} (hfit : a + 4 ≤ e) (mem : Memory) (r : Record) :
    Runs (writeRecord E a e r) mem (accepts E mem a r.toBytes) 4 (mem.program a r.toBytes) := by
  rw [writeRecord, if_neg (by omega)]
  refine (runs_storeWrite E mem a r.toBytes).bind (k := 0) ?_
  cases accepts E mem a r.toBytes <;> exact runs_pure _ _

theorem runs_writeRecord_of_lt {a e : ℕ} (h : e < a + 4) (mem : Memory) (r : Record) :
    Runs (writeRecord E a e r) mem false 0 mem := by
  rw [writeRecord, if_pos h]
  exact runs_pure _ _

/-- Writing backwards ends with the first record that the store refuses. -/
theorem runs_writeBackward {e k : ℕ} {rs : List Record}
    (hfit : E.slotAddr page (k + rs.length) ≤ e) (mem : Memory) :
    let top := E.slotAddr page (k + rs.length)
    ∃ n mem', Runs (writeBackward E e top rs) mem (acceptsBackward E mem top rs) n mem' ∧
      (acceptsBackward E mem top rs = true → mem' = programBackward mem top rs) := by
  induction rs generalizing mem with
  | nil => exact ⟨0, mem, runs_pure _ _, fun _ ↦ rfl⟩
  | cons r rs ih =>
    rw [List.length_cons, ← Nat.add_assoc] at hfit ⊢
    have hslot := slotAddr_succ E page (k + rs.length)
    simp only [writeBackward, acceptsBackward, programBackward, slotAddr_succ_sub]
    have hrec := runs_writeRecord (E := E) (a := E.slotAddr page (k + rs.length)) (e := e)
      (by omega) mem r
    by_cases hacc : accepts E mem (E.slotAddr page (k + rs.length)) r.toBytes = true
    · obtain ⟨n, mem', hrun, hdone⟩ := ih (by omega)
        (mem.program (E.slotAddr page (k + rs.length)) r.toBytes)
      rw [hacc] at hrec ⊢
      refine ⟨4 + n, mem', hrec.bind ?_, fun h ↦ hdone (by simpa using h)⟩
      rw [if_pos rfl, Bool.true_and]
      exact hrun
    · rw [Bool.not_eq_true] at hacc
      rw [hacc] at hrec ⊢
      refine ⟨4, mem.program (E.slotAddr page (k + rs.length)) r.toBytes,
        hrec.bind (k := 0) ?_, fun h ↦ by simp at h⟩
      exact runs_pure _ _

/-- **The outcome of `writeRangeChanged`** for any existing values: it succeeds if and only if
there is room and the store takes every record, and without room it does nothing. -/
theorem runs_writeRangeChanged (hp : page ≠ .noPage) (happ : Appendable E mem page) (index : ℕ)
    (data existingData : List UInt8) :
    let rs := changedRecords index existingData data
    let top := E.slotAddr page (logLength E mem page + rs.length)
    ∃ ok n mem', Runs (writeRangeChanged E page (E.slotAddr page (logLength E mem page)) index data
        existingData) mem ok n mem' ∧
      (ok = true ↔ HasRoom E mem page rs.length ∧ acceptsBackward E mem top rs = true) ∧
      (ok = true → mem' = programBackward mem top rs) ∧
      (¬ HasRoom E mem page rs.length → mem' = mem) := by
  intro rs top
  have hend := E.slotAddr_slotCount hp
  have hle := (logLength_spec E mem page).1
  have htop : E.slotAddr page (logLength E mem page) + rs.length * 4 = top := by
    simp only [top, Layout.slotAddr]
    omega
  have hbelow : top < E.getPageEnd page ↔ logLength E mem page + rs.length < E.slotCount page := by
    rw [← hend]
    simp only [top, Layout.slotAddr]
    omega
  have happly := writeRangeChanged_apply E page mem
    (show changedRecords index existingData data = rs from rfl) htop
  by_cases hnil : rs = []
  · simp only [if_pos hnil] at happly
    have hroom : HasRoom E mem page rs.length := by
      rw [hnil]
      exact ⟨hle, happ⟩
    have hacc : acceptsBackward E mem top rs = true := by rw [hnil]; rfl
    refine ⟨true, 0, mem, (runs_pure _ _).congr happly, iff_of_true rfl ⟨hroom, hacc⟩,
      fun _ ↦ by rw [hnil]; rfl, fun _ ↦ rfl⟩
  simp only [if_neg hnil] at happly
  by_cases hsep : top < E.getPageEnd page ∧ (readRecord mem top).empty = false
  · -- the slot behind the batch is not empty
    simp only [if_pos hsep] at happly
    have hroom : ¬ HasRoom E mem page rs.length := by
      intro h
      exact Bool.false_ne_true (hsep.2.symm.trans (h.2 (hbelow.mp hsep.1)))
    exact ⟨false, 0, mem, (runs_pure _ _).congr happly,
      iff_of_false Bool.false_ne_true fun h ↦ hroom h.1, fun h ↦ absurd h Bool.false_ne_true,
      fun _ ↦ rfl⟩
  simp only [if_neg hsep] at happly
  by_cases hroom : logLength E mem page + rs.length ≤ E.slotCount page
  · have hroom' : HasRoom E mem page rs.length := by
      refine ⟨hroom, fun hlt ↦ ?_⟩
      by_contra hne
      exact hsep ⟨hbelow.mpr hlt, Bool.eq_false_iff.mpr hne⟩
    obtain ⟨n, mem', hrun, hdone⟩ := runs_writeBackward
      (show E.slotAddr page (logLength E mem page + rs.length) ≤ E.getPageEnd page by
        rw [← hend]; exact slotAddr_le_iff.mpr hroom) mem
    exact ⟨_, n, mem', hrun.congr happly, ⟨fun h ↦ ⟨hroom', h⟩, fun h ↦ h.2⟩, hdone,
      fun h ↦ absurd hroom' h⟩
  · -- the batch runs over the end of the page: its first record is refused
    obtain ⟨r, rs', hrs⟩ := List.exists_cons_of_ne_nil hnil
    have hrefused : Runs (writeBackward E (E.getPageEnd page) top rs) mem false 0 mem := by
      rw [hrs, writeBackward]
      refine (runs_writeRecord_of_lt ?_ mem r).bind (k := 0) (runs_pure _ _)
      rw [← hend]
      simp only [top, Layout.slotAddr]
      omega
    exact ⟨false, 0, mem, hrefused.congr happly,
      iff_of_false Bool.false_ne_true fun h ↦ hroom h.1.1, fun h ↦ absurd h Bool.false_ne_true,
      fun _ ↦ rfl⟩

/-! ## What the slots can take -/

/-- No bit that a record needs set is cleared where it is to be written. -/
def Takes (mem : Memory) (a : ℕ) (r : Record) : Prop :=
  ∀ i b, r.toBytes[i]? = some b → mem (a + i) &&& b = b

/-- The records fit behind the log, with an empty slot or the end of the page behind them, and
each of their slots, the last record's first, can take its record. -/
def Taken (E : Layout) (mem : Memory) (page : LogicalPage) (rs : List Record) : Prop :=
  HasRoom E mem page rs.length ∧ ∀ j r, rs.reverse[j]? = some r →
    Takes mem (E.slotAddr page (logLength E mem page + j)) r

theorem takes_congr {a : ℕ} {r : Record} (h : ∀ x, a ≤ x → x < a + 4 → mem' x = mem x) :
    Takes mem' a r ↔ Takes mem a r := by
  refine forall_congr' fun i ↦ forall_congr' fun b ↦ imp_congr_right fun hi ↦ ?_
  have hlt : i < 4 := (List.getElem?_eq_some_iff.mp hi).1
  rw [h (a + i) (by omega) (by omega)]

/-- A store that verifies accepts what the flash can take. -/
theorem accepts_iff_takes (hv : E.verifies = true) {a : ℕ} {r : Record} :
    accepts E mem a r.toBytes = true ↔ Takes mem a r := by
  rw [accepts, hv, Bool.not_true, Bool.false_or, beq_iff_eq]
  constructor
  · intro h i b hi
    have hlt : i < 4 := (List.getElem?_eq_some_iff.mp hi).1
    have hget := congrArg (·[i]?) h
    simpa [Memory.bytes, List.getElem?_range hlt, Memory.program_apply, hi] using hget
  · intro h
    refine List.ext_getElem (by simp) fun i h1 h2 ↦ ?_
    have hi := List.getElem?_eq_getElem h2
    simp [Memory.bytes, Memory.program_apply, hi, h i _ hi]

theorem acceptsBackward_iff (hv : E.verifies = true) {k : ℕ} {rs : List Record} :
    acceptsBackward E mem (E.slotAddr page (k + rs.length)) rs = true ↔
      ∀ j r, rs.reverse[j]? = some r → Takes mem (E.slotAddr page (k + j)) r := by
  induction rs generalizing mem with
  | nil => simp [acceptsBackward]
  | cons r rs ih =>
    rw [List.length_cons, ← Nat.add_assoc, acceptsBackward, slotAddr_succ_sub, Bool.and_eq_true,
      accepts_iff_takes hv, ih]
    have hlen : rs.reverse.length = rs.length := List.length_reverse
    -- what is programmed at the top is not in the slots below
    have hlower : ∀ j < rs.length, ∀ r', Takes (mem.program (E.slotAddr page (k + rs.length))
        r.toBytes) (E.slotAddr page (k + j)) r' ↔ Takes mem (E.slotAddr page (k + j)) r' :=
      fun j hj r' ↦ takes_congr fun x _ hx ↦ Memory.program_apply_of_not_mem (Or.inl (by
        simp only [Layout.slotAddr] at *
        omega))
    rw [List.reverse_cons]
    constructor
    · rintro ⟨htop, hrest⟩ j r' hj
      rcases Nat.lt_or_ge j rs.length with hlt | hge
      · rw [List.getElem?_append_left (by omega)] at hj
        exact (hlower j hlt r').mp (hrest j r' hj)
      · rw [List.getElem?_append_right (by omega), List.getElem?_singleton] at hj
        obtain ⟨hj0, hr⟩ := Option.ite_none_right_eq_some.mp hj
        obtain rfl : j = rs.length := by omega
        rwa [← Option.some.inj hr]
    · intro h
      refine ⟨h rs.length r ?_, fun j r' hj ↦ ?_⟩
      · rw [List.getElem?_append_right (by omega), hlen, Nat.sub_self]
        rfl
      · have hlt : j < rs.length := by
          rw [← hlen]
          exact (List.getElem?_eq_some_iff.mp hj).1
        exact (hlower j hlt r').mpr (h j r' (by rwa [List.getElem?_append_left (by omega)]))

/-! ## Puts that are carried out -/

section Batch

variable {index : ℕ} {data existingData : List UInt8}

/-- The changed records are valid if none of them is for an index that is too large. -/
theorem changedRecords_spec
    (hlt : ∀ j, existingData[j]? ≠ data[j]? → index + j < 65535) :
    ∀ r ∈ changedRecords index existingData data,
      r.status = Record.validStatus ∧ r.index < 65535 := by
  intro r hr
  obtain ⟨j, d, rfl, hd, hne⟩ := mem_changedRecords hr
  have := hlt j (by rwa [hd])
  refine ⟨rfl, ?_⟩
  change (index + j) % 65536 < 65535
  omega

/-- **A batch that is taken** overwrites the changed values, and the page stays appendable. -/
theorem taken_spec (hv : E.verifies = true) (hlen : existingData.length = data.length)
    (hlt : ∀ j, existingData[j]? ≠ data[j]? → index + j < 65535) :
    let rs := changedRecords index existingData data
    let mem' := programBackward mem (E.slotAddr page (logLength E mem page + rs.length)) rs
    Taken E mem page rs → Appendable E mem' page ∧ ∀ i, contents E mem' page i =
      if index ≤ i ∧ existingData[i - index]? ≠ data[i - index]? then data[i - index]?.getD 0xFF
      else contents E mem page i := by
  rintro rs mem' ⟨hroom, htakes⟩
  have hrs := changedRecords_spec hlt
  refine ⟨appendable_programBackward hrs hroom, fun i ↦ ?_⟩
  have hlog : log E mem' page = log E mem page ++ rs.reverse :=
    log_programBackward_of_accepts hv hrs hroom ((acceptsBackward_iff hv).mpr htakes)
  rw [contents, hlog]
  exact latest_append_changedRecords _ hlen (fun j hj ↦ (hlt j hj).trans (by omega)) i

/-! ## Safety -/

/-- The records that a put writes for the existing values it is told. -/
def putRecords (E : Layout) (mem : Memory) (page : LogicalPage) (index : ℕ) (data : List UInt8) :
    List Record :=
  changedRecords index (readRangeAndFindEmpty E mem page index data.length).existingData data

/-- The contents once these records are written. -/
def putMemory (E : Layout) (mem : Memory) (page : LogicalPage) (index : ℕ) (data : List UInt8) :
    Memory :=
  let rs := putRecords E mem page index data
  programBackward mem (E.slotAddr page (logLength E mem page + rs.length)) rs

/-- **`writeRangeChanged` is safe** for a put, with what `readRangeAndFindEmpty` says: it returns,
when it returns `true` the put is done and the page can be appended to again, and when the changed
values do not fit before the end of the page it returns `false` and leaves the flash alone. -/
def WritesSafely (E : Layout) (mem : Memory) (page : LogicalPage) (index : ℕ)
    (data : List UInt8) : Prop :=
  let found := readRangeAndFindEmpty E mem page index data.length
  let changedCount := (found.existingData.zip data).countP fun p ↦ p.1 ≠ p.2
  ∃ ok mem', complete
      (writeRangeChanged E page found.emptyAddress index data found.existingData) mem =
        some (ok, mem') ∧
    (ok = true → contents E mem' page = putRange (contents E mem page) index data ∧
      Appendable E mem' page) ∧
    (E.getPageEnd page < found.emptyAddress + 4 * changedCount → ok = false ∧ mem' = mem)

/-- Every byte is `0xFF` for a cell without a value, or for an index that a record can have. -/
def Recordable (E : Layout) (mem : Memory) (page : LogicalPage) (index : ℕ)
    (data : List UInt8) : Prop :=
  ∀ j d, data[j]? = some d →
    if d = 0xFF then contents E mem page (index + j) = 0xFF else index + j < 65535

/-- Safety is a question of puts that are taken. -/
theorem writesSafely_iff_taken (hv : E.verifies = true) (hp : page ≠ .noPage)
    (happ : Appendable E mem page) :
    WritesSafely E mem page index data ↔
      (Taken E mem page (putRecords E mem page index data) →
        contents E (putMemory E mem page index data) page =
            putRange (contents E mem page) index data ∧
          Appendable E (putMemory E mem page index data) page) := by
  have hend := E.slotAddr_slotCount hp
  obtain ⟨-, hinvalid, hempty⟩ := readRangeAndFindEmpty_eq mem hp index data.length
  obtain ⟨ok, n, mem', hrun, hok, hdone, hroom⟩ := runs_writeRangeChanged hp happ index data
    (readRangeAndFindEmpty E mem page index data.length).existingData
  rw [← putRecords, acceptsBackward_iff hv, ← Taken] at hok
  have hcomplete := hrun.complete_eq
  rw [WritesSafely, hempty (hinvalid.mpr happ), ← length_changedRecords index, ← putRecords]
  have hfull : E.getPageEnd page < E.slotAddr page (logLength E mem page) +
      4 * (putRecords E mem page index data).length → ok = false ∧ mem' = mem := by
    intro h
    have hnot : ¬ HasRoom E mem page (putRecords E mem page index data).length := by
      rintro ⟨hle, -⟩
      rw [← hend] at h
      simp only [Layout.slotAddr] at h
      omega
    exact ⟨Bool.eq_false_iff.mpr fun h ↦ hnot (hok.mp h).1, hroom hnot⟩
  constructor
  · rintro ⟨ok', mem'', hcomplete', hput, -⟩ htaken
    obtain ⟨rfl, rfl⟩ : ok = ok' ∧ mem' = mem'' := by simpa [hcomplete] using hcomplete'
    have hmem : mem' = putMemory E mem page index data := hdone (hok.mpr htaken)
    rw [← hmem]
    exact hput (hok.mpr htaken)
  · intro h
    refine ⟨ok, mem', hcomplete, fun htrue ↦ ?_, hfull⟩
    have hmem : mem' = putMemory E mem page index data := hdone htrue
    rw [hmem]
    exact h (hok.mp htrue)

/-- The existing values of a range whose end does not wrap around are the contents. -/
theorem existingData_of_lt (E : Layout) (mem : Memory) (hp : page ≠ .noPage)
    (h : index + data.length < 65536) :
    (readRangeAndFindEmpty E mem page index data.length).existingData =
      (List.range data.length).map fun j ↦ contents E mem page (index + j) := by
  rw [(readRangeAndFindEmpty_eq mem hp index data.length).1, foldl_storeData_log E mem page h]

/-- When it does, there seem to be none. -/
theorem existingData_of_wrap (E : Layout) (mem : Memory) (hp : page ≠ .noPage)
    (hindex : index < 65536) (hlen : data.length < 65536) (h : 65536 ≤ index + data.length) :
    (readRangeAndFindEmpty E mem page index data.length).existingData =
      List.replicate data.length 0xFF := by
  rw [(readRangeAndFindEmpty_eq mem hp index data.length).1, foldl_storeData_of_le (by omega)]

/-- A put that is taken is done, if its range does not wrap around. -/
theorem writesSafely_of_lt (hv : E.verifies = true) (hp : page ≠ .noPage)
    (happ : Appendable E mem page) (h : index + data.length ≤ 65535) :
    WritesSafely E mem page index data := by
  have hex := existingData_of_lt E mem hp (show index + data.length < 65536 by omega)
  have hlt : ∀ j, ((List.range data.length).map fun j ↦ contents E mem page (index + j))[j]? ≠
      data[j]? → index + j < 65535 := by
    intro j hj
    by_contra hge
    refine hj ?_
    rw [List.getElem?_eq_none (by rw [List.length_map, List.length_range]; omega),
      List.getElem?_eq_none (by omega)]
  refine (writesSafely_iff_taken hv hp happ).mpr fun htaken ↦ ?_
  rw [putRecords, hex] at htaken
  obtain ⟨happ', hcells⟩ := taken_spec hv (by simp) hlt htaken
  rw [putMemory, putRecords, hex]
  refine ⟨funext fun i ↦ ?_, happ'⟩
  rw [hcells, putRange_eq]

/-- Next to no existing values, the changed ones are those that are not `0xFF`. -/
theorem lt_of_ne_replicate (h : ∀ j d, data[j]? = some d → d ≠ 0xFF → index + j < 65535) (j : ℕ)
    (hj : (List.replicate data.length (0xFF : UInt8))[j]? ≠ data[j]?) : index + j < 65535 := by
  rcases hd : data[j]? with _ | d
  · refine absurd ?_ hj
    rw [hd, List.getElem?_eq_none (by simpa using hd)]
  · have hjlt := (List.getElem?_eq_some_iff.mp hd).1
    refine h j d hd ?_
    rintro rfl
    exact hj (by rw [hd, List.getElem?_replicate, if_pos hjlt])

/-- A put whose range wraps around is done when every byte is recordable. -/
theorem writesSafely_of_recordable (hv : E.verifies = true) (hp : page ≠ .noPage)
    (happ : Appendable E mem page) (hindex : index < 65536) (hlen : data.length < 65536)
    (hwrap : 65536 ≤ index + data.length) (h : Recordable E mem page index data) :
    WritesSafely E mem page index data := by
  have hex := existingData_of_wrap E mem hp hindex hlen hwrap
  have hlt := lt_of_ne_replicate fun j d hd hne ↦ by
    have := h j d hd
    rwa [if_neg hne] at this
  refine (writesSafely_iff_taken hv hp happ).mpr fun htaken ↦ ?_
  rw [putRecords, hex] at htaken
  obtain ⟨happ', hcells⟩ := taken_spec hv (by simp) hlt htaken
  rw [putMemory, putRecords, hex]
  refine ⟨funext fun i ↦ ?_, happ'⟩
  rw [hcells, putRange]
  by_cases hi : index ≤ i
  · rcases hd : data[i - index]? with _ | d
    · rw [if_neg (fun hc ↦ hc.2 (List.getElem?_eq_none (by simpa using hd))), if_pos hi]
      rfl
    · have hjlt := (List.getElem?_eq_some_iff.mp hd).1
      have hrec := h (i - index) d hd
      rw [Nat.add_sub_cancel' hi] at hrec
      rw [List.getElem?_replicate, if_pos hjlt, if_pos hi, Option.getD_some, Option.getD_some]
      by_cases hff : d = 0xFF
      · rw [if_pos hff] at hrec
        rw [if_neg (fun hc ↦ hc.2 (by rw [hff])), hrec, hff]
      · rw [if_pos ⟨hi, fun hc ↦ hff (Option.some.inj hc).symm⟩]
  · rw [if_neg (fun hc ↦ hi hc.1), if_neg hi]

/-- **A safe put that is taken** has no byte for an index beyond those of records. -/
theorem WritesSafely.lt_of_ne_erased (hv : E.verifies = true) (hp : page ≠ .noPage)
    (happ : Appendable E mem page) (h : WritesSafely E mem page index data)
    (htaken : Taken E mem page (putRecords E mem page index data)) {j : ℕ} {d : UInt8}
    (hd : data[j]? = some d) (hne : d ≠ 0xFF) : index + j < 65535 := by
  by_contra hge
  have hput := congrFun ((writesSafely_iff_taken hv hp happ).mp h htaken).1 (index + j)
  rw [contents_of_le (by omega), putRange, if_pos (Nat.le_add_right _ _), Nat.add_sub_cancel_left,
    hd, Option.getD_some] at hput
  exact hne hput.symm

/-- When its range wraps around, it overwrites nothing with `0xFF` either. -/
theorem WritesSafely.recordable (hv : E.verifies = true) (hp : page ≠ .noPage)
    (happ : Appendable E mem page) (hindex : index < 65536) (hlen : data.length < 65536)
    (hwrap : 65536 ≤ index + data.length) (h : WritesSafely E mem page index data)
    (htaken : Taken E mem page (putRecords E mem page index data)) :
    Recordable E mem page index data := by
  intro j d hd
  by_cases hff : d = 0xFF
  · have hex := existingData_of_wrap E mem hp hindex hlen hwrap
    have hlt := lt_of_ne_replicate fun j d hd hne ↦
      h.lt_of_ne_erased hv hp happ htaken hd hne
    have hput := congrFun ((writesSafely_iff_taken hv hp happ).mp h htaken).1 (index + j)
    rw [putRecords, hex] at htaken
    have hcell := (taken_spec hv (by simp) hlt htaken).2 (index + j)
    have hjlt := (List.getElem?_eq_some_iff.mp hd).1
    rw [putMemory, putRecords, hex, hcell, putRange, if_pos (Nat.le_add_right _ _),
      Nat.add_sub_cancel_left, hd, if_neg, Option.getD_some] at hput
    · rw [if_pos hff, hput, hff]
    · rintro ⟨-, hc⟩
      exact hc (by rw [List.getElem?_replicate, if_pos hjlt, hff])
  · rw [if_neg hff]
    exact h.lt_of_ne_erased hv hp happ htaken hd hff

/-- **When `writeRangeChanged` is safe.** -/
theorem writesSafely_iff (hv : E.verifies = true) (hp : page ≠ .noPage)
    (happ : Appendable E mem page) (hindex : index < 65536) (hlen : data.length < 65536) :
    WritesSafely E mem page index data ↔ index + data.length ≤ 65535 ∨
      ¬ Taken E mem page (putRecords E mem page index data) ∨
      Recordable E mem page index data := by
  constructor
  · intro h
    by_cases hwrap : index + data.length ≤ 65535
    · exact Or.inl hwrap
    by_cases htaken : Taken E mem page (putRecords E mem page index data)
    · exact Or.inr (Or.inr (h.recordable hv hp happ hindex hlen (by omega) htaken))
    · exact Or.inr (Or.inl htaken)
  · rintro (hlt | hnot | hrec)
    · exact writesSafely_of_lt hv hp happ hlt
    · exact (writesSafely_iff_taken hv hp happ).mpr fun htaken ↦ absurd htaken hnot
    · by_cases hwrap : index + data.length ≤ 65535
      · exact writesSafely_of_lt hv hp happ hwrap
      · exact writesSafely_of_recordable hv hp happ hindex hlen (by omega) hrec

end Batch

theorem writesSafely_cleared : WritesSafely duo cleared .page1 0 [0x42] :=
  (writesSafely_iff rfl (by decide) appendable_cleared (by decide) (by decide)).mpr
    (Or.inl (by decide))

/-- The last index there is belongs to the empty record: the record written for it is not valid. -/
theorem not_writesSafely_lastIndex : ¬ WritesSafely duo cleared .page1 65535 [0x42] := by
  intro h
  have hrecords : putRecords duo cleared .page1 65535 [0x42] = [Record.of 65535 0x42] := by
    rw [putRecords, existingData_of_wrap _ _ (by decide) (by decide) (by decide) (by decide)]
    rfl
  have htaken : Taken duo cleared .page1 (putRecords duo cleared .page1 65535 [0x42]) := by
    rw [hrecords, Taken, HasRoom, logLength_cleared, ← acceptsBackward_iff rfl]
    decide +kernel
  have := h.lt_of_ne_erased rfl (by decide) appendable_cleared htaken (j := 0) rfl (by decide)
  omega

end DuoFirmware.EEPROMEmulation
