import DuoFirmware.Eeprom.DirtyFlash
import DuoFirmware.Eeprom.Enumeration
import DuoFirmware.Eeprom.Operations

/-!
# Ranges beyond the capacity

A put that does not lie within the capacity should change nothing, and what is read beyond the
capacity should be `0xFF`. The end of a range is computed in 16 bits and `writeRange` compares only
the end, so a range that wraps around passes the check: the put goes on to append records or to
swap the pages, and does nothing only when there is nothing to write. A read of such a range finds
no records at all. A read that does not wrap around has no check, it returns what is there.
-/

namespace DuoFirmware.EEPROMEmulation

open NorFlash FlashM KeyedLog

variable {E : Layout} {mem mem' : Memory} {page src dst : LogicalPage} {pages : Pages}
  {index length : ℕ} {data : List UInt8} {allocated : Bool}

/-- A put that does not lie within the capacity changes nothing in flash, however long power
lasts. -/
def PutBounded (E : Layout) (pages : Pages) (mem : Memory) (index : ℕ) (data : List UInt8)
    (allocated : Bool) : Prop :=
  E.capacity < index + data.length →
    ∀ w, (writeRange E pages index data allocated ⟨mem, w⟩).2.memory = mem

/-- What is read is the contents within the capacity and `0xFF` beyond. -/
def GetBounded (E : Layout) (mem : Memory) (page : LogicalPage) (index length : ℕ) : Prop :=
  readRange E mem page index length = (List.range length).map fun i ↦
    if index + i < E.capacity then contents E mem page (index + i) else 0xFF

/-! ## The first operation of a swap -/

theorem stops_erasePage (page : LogicalPage) (mem : Memory) :
    Stops (erasePage E page) mem 1 (mem.erase (E.getPageBegin page) (E.getPageEnd page)) :=
  (runs_step _ mem).stops.bind fun _ ↦ frozen_pure _

/-- The first byte of the header of a copy. -/
theorem stops_writePageStatus_copy (page : LogicalPage) (mem : Memory) :
    Stops (writePageStatus E page PageHeader.copy) mem 1
      (mem.program (E.getPageBegin page) [0xEE]) := by
  have hheader : PageHeader.toBytes PageHeader.copy = 0xEE :: [0xEE, 0xFF, 0xFF] := by decide
  have hbyte : Stops (programBytes (E.getPageBegin page) (PageHeader.toBytes PageHeader.copy))
      mem 1 (mem.program (E.getPageBegin page) [0xEE]) := by
    rw [hheader]
    exact (runs_step _ mem).stops.bind fun _ ↦ .ite (frozen_programBytes _ _) (frozen_pure _)
  exact (hbyte.bind fun _ ↦ .ite ((frozen_look _).bind fun _ ↦
    .ite (frozen_pure _) (frozen_pure _)) (frozen_pure _)).bind fun _ ↦ frozen_pure _

/-- The first operation of a swap already changes the flash: it erases the destination, or turns
the header of an erased one into that of a copy. -/
theorem stops_swapTry (hdst : dst ≠ .noPage) (mem : Memory) (src : LogicalPage) (index : ℕ)
    (data : List UInt8) :
    ∃ mem', Stops (swapTry E src dst index data 0) mem 1 mem' ∧ mem' ≠ mem := by
  have hle := getPageBegin_add_le E hdst
  by_cases hverify : verifyPage E mem dst = true
  · have herased := (verifyPage_iff hdst).mp hverify
    refine ⟨mem.program (E.getPageBegin dst) [0xEE], ?_, fun hc ↦ ?_⟩
    · rw [swapTry_eq]
      change Stops ((if 0 > 0 || !verifyPage E mem dst then erasePage E dst else pure ()) >>= _)
        mem (0 + 1) _
      rw [hverify]
      exact (runs_pure () mem).stops_bind
        ((stops_writePageStatus_copy dst mem).bind (frozen_copyAndSwitch _ _ _ _))
    · have hbyte := congrFun hc (E.getPageBegin dst)
      have happly := mem.program_apply (E.getPageBegin dst) 0 [0xEE]
      rw [Nat.add_zero, hbyte, herased _ le_rfl (by omega)] at happly
      exact absurd happly (by decide)
  · refine ⟨mem.erase (E.getPageBegin dst) (E.getPageEnd dst), ?_, fun hc ↦ ?_⟩
    · rw [swapTry_eq]
      change Stops ((if 0 > 0 || !verifyPage E mem dst then erasePage E dst else pure ()) >>= _)
        mem 1 _
      rw [Bool.not_eq_true] at hverify
      rw [hverify]
      exact (stops_erasePage dst mem).bind fun _ ↦
        (frozen_writePageStatus E _ _).bind (frozen_copyAndSwitch _ _ _ _)
    · refine hverify ((verifyPage_iff hdst).mpr ?_)
      rw [← hc]
      exact mem.erase_erased _ _

theorem stops_swapPagesAndWrite (hdst : pages.alternatePage ≠ .noPage) (mem : Memory) (index : ℕ)
    (data : List UInt8) :
    ∃ mem', Stops (swapPagesAndWrite E pages index data) mem 1 mem' ∧ mem' ≠ mem := by
  obtain ⟨mem', hstops, hne⟩ := stops_swapTry (E := E) hdst mem pages.activePage index data
  refine ⟨mem', hstops.bind fun _ ↦ .ite ((frozen_look _).bind fun _ ↦ frozen_pure _)
    ((frozen_swapTry _ _ _ _ _).bind fun _ ↦
      .ite ((frozen_look _).bind fun _ ↦ frozen_pure _) (frozen_pure _)), hne⟩

/-! ## Puts -/

/-- Next to no existing values, nothing changes when all the data is `0xFF`. -/
theorem changedRecords_replicate_eq_nil_iff (index : ℕ) (data : List UInt8) :
    changedRecords index (List.replicate data.length 0xFF) data = [] ↔ ∀ d ∈ data, d = 0xFF := by
  induction data generalizing index with
  | nil => simp [changedRecords]
  | cons d data ih =>
    rw [List.length_cons, List.replicate_succ, changedRecords, List.forall_mem_cons]
    by_cases hd : (0xFF : UInt8) = d
    · rw [if_neg (not_not.mpr hd), ih]
      exact ⟨fun h ↦ ⟨hd.symm, h⟩, fun h ↦ h.2⟩
    · rw [if_pos hd]
      exact iff_of_false (List.cons_ne_nil _ _) fun h ↦ hd h.1.symm

/-- A batch of records changes the empty slot that it ends in. -/
theorem programBackward_ne (happ : Appendable E mem page) {rs : List Record} (hne : rs ≠ [])
    (hroom : HasRoom E mem page rs.length) (hrs : ∀ r ∈ rs, r.status = Record.validStatus) :
    programBackward mem (E.slotAddr page (logLength E mem page + rs.length)) rs ≠ mem := by
  intro hc
  obtain ⟨rs', last, hlast⟩ : ∃ rs' last, rs = rs' ++ [last] := by
    obtain ⟨rs', last, h⟩ := (List.eq_nil_or_concat rs).resolve_left hne
    exact ⟨rs', last, h.trans (List.concat_eq_append ..)⟩
  have hlen : rs.length = rs'.length + 1 := by rw [hlast, List.length_append]; rfl
  have hlt : logLength E mem page < E.slotCount page := by
    have := hroom.1
    omega
  have hbyte := congrFun hc (E.slotAddr page (logLength E mem page) + 1)
  have hstatus : last.toBytes[1]? = some 0 := by
    rw [← Record.validStatus, ← hrs last (by rw [hlast]; simp)]
    rfl
  rw [hlen, ← Nat.add_assoc, hlast, programBackward_concat, Memory.program_apply, hstatus,
    erased_of_appendable happ hlt _ (by omega) (by rw [slotAddr_succ]; omega), Option.getD_some,
    UInt8.and_zero] at hbyte
  exact absurd hbyte (by decide)

/-- A put that passes the check and gets its memory. -/
theorem writeRange_of_le (hbound : ¬ (index + data.length) % 65536 > E.capacity) :
    writeRange E pages index data true = (do
      let found ← look fun mem ↦
        readRangeAndFindEmpty E mem pages.activePage index data.length
      let success ← andThen (!found.hasInvalidRecords)
        (writeRangeChanged E pages.activePage found.emptyAddress index data found.existingData)
      swapUnless E pages index data success) := if_neg hbound

/-- A put of nothing but `0xFF` to a range that wraps around has nothing to write. -/
theorem runs_writeRange_erased (hsrc : pages.activePage ≠ .noPage) (hindex : index < 65536)
    (hlen : data.length < 65536) (hwrap : 65536 ≤ index + data.length)
    (hbound : ¬ (index + data.length) % 65536 > E.capacity)
    (happ : Appendable E mem pages.activePage) (herased : ∀ d ∈ data, d = 0xFF) :
    Runs (writeRange E pages index data true) mem pages 0 mem := by
  have hex := existingData_of_wrap E mem hsrc hindex hlen hwrap
  obtain ⟨-, hinvalid, hempty⟩ := readRangeAndFindEmpty_eq mem hsrc index data.length
  have hinv := hinvalid.mpr happ
  rw [writeRange_of_le hbound]
  refine runs_look_bind ?_
  rw [hinv, hempty hinv, hex]
  have hsame : Runs (andThen (!false) (writeRangeChanged E pages.activePage
      (E.slotAddr pages.activePage (logLength E mem pages.activePage)) index data
      (List.replicate data.length 0xFF))) mem true 0 mem := by
    intro w hw
    have hnone := (changedRecords_replicate_eq_nil_iff index data).mpr herased
    change writeRangeChanged E pages.activePage _ index data _ _ = _
    rw [writeRangeChanged_apply E _ mem hnone rfl, if_pos rfl]
    exact runs_pure true mem w hw
  exact hsame.bind (k := 0) (runs_pure pages mem)

/-- **A put to a range that wraps around** changes the flash, unless there is nothing to write. -/
theorem PutBounded.nothing_to_write (h : PutBounded E pages mem index data true)
    (hsrc : pages.activePage ≠ .noPage) (hdst : pages.alternatePage ≠ .noPage)
    (hindex : index < 65536) (hlen : data.length < 65536) (hwrap : 65536 ≤ index + data.length)
    (hbound : ¬ (index + data.length) % 65536 > E.capacity) :
    Appendable E mem pages.activePage ∧ ∀ d ∈ data, d = 0xFF := by
  have hex := existingData_of_wrap E mem hsrc hindex hlen hwrap
  have hcap := E.capacity_le_8192
  obtain ⟨-, hinvalid, hempty⟩ := readRangeAndFindEmpty_eq mem hsrc index data.length
  have hkept := h (by omega)
  rw [writeRange_of_le hbound] at hkept
  set found := readRangeAndFindEmpty E mem pages.activePage index data.length
  -- wherever the attempt to append leaves the flash, a failed one is followed by a swap
  have hattempt : ∀ ok n mem', Runs (andThen (!found.hasInvalidRecords)
      (writeRangeChanged E pages.activePage found.emptyAddress index data found.existingData)) mem
      ok n mem' → mem' = mem ∧ ok = true := by
    intro ok n mem' hrun
    have hstop := hrun.stops.bind (frozen_swapUnless E pages index data)
    have hsame : mem' = mem := (congrArg Device.memory hstop).symm.trans (hkept (some n))
    refine ⟨hsame, ?_⟩
    by_contra hok
    obtain ⟨mem'', hswap, hne⟩ := stops_swapPagesAndWrite (E := E) hdst mem' index data
    rw [Bool.not_eq_true] at hok
    rw [hok] at hrun
    have hthen : Stops (swapUnless E pages index data false) mem' 1 mem'' :=
      hswap.bind fun _ ↦ frozen_pure _
    have hstop' := hrun.stops_bind hthen
    refine hne ?_
    rw [hsame]
    exact (congrArg Device.memory hstop').symm.trans (hkept (some (n + 1)))
  by_cases hinv : found.hasInvalidRecords = false
  · have happ := hinvalid.mp hinv
    refine ⟨happ, (changedRecords_replicate_eq_nil_iff index data).mp ?_⟩
    by_contra hne
    obtain ⟨ok, n, mem', hrun, hok, hdone, -⟩ := runs_writeRangeChanged hsrc happ index data
      (List.replicate data.length 0xFF)
    rw [← hempty hinv, ← hex] at hrun
    obtain ⟨hsame, rfl⟩ := hattempt ok n mem' (by rwa [hinv])
    refine programBackward_ne happ hne (hok.mp rfl).1 (fun r hr ↦ ?_) ((hdone rfl).symm.trans hsame)
    obtain ⟨j, d, rfl, -, -⟩ := mem_changedRecords hr
    rfl
  · rw [Bool.not_eq_false] at hinv
    refine absurd (hattempt false 0 mem ?_).2 Bool.false_ne_true
    rw [hinv]
    exact runs_pure false mem

/-- **When a put is bounded.** -/
theorem putBounded_iff (hsrc : pages.activePage ≠ .noPage) (hdst : pages.alternatePage ≠ .noPage)
    (hindex : index < 65536) (hlen : data.length < 65536) :
    PutBounded E pages mem index data allocated ↔
      index + data.length ≤ E.capacity ∨ E.capacity < (index + data.length) % 65536 ∨
        allocated = false ∨ (Appendable E mem pages.activePage ∧ ∀ d ∈ data, d = 0xFF) := by
  by_cases hin : index + data.length ≤ E.capacity
  · exact iff_of_true (fun h ↦ absurd hin (by omega)) (Or.inl hin)
  by_cases hbound : (index + data.length) % 65536 > E.capacity
  · refine iff_of_true (fun _ w ↦ ?_) (Or.inr (Or.inl hbound))
    rw [writeRange, if_pos hbound]
    rfl
  have hwrap : 65536 ≤ index + data.length := by
    by_contra hlt
    rw [Nat.mod_eq_of_lt (by omega)] at hbound
    omega
  cases allocated with
  | false =>
    refine iff_of_true (fun _ w ↦ ?_) (Or.inr (Or.inr (Or.inl rfl)))
    rw [writeRange, if_neg hbound]
    rfl
  | true =>
    constructor
    · intro h
      exact Or.inr (Or.inr (Or.inr (h.nothing_to_write hsrc hdst hindex hlen hwrap hbound)))
    · rintro (h | h | h | ⟨happ, herased⟩)
      · exact absurd h hin
      · exact absurd h hbound
      · exact absurd h (by decide)
      · intro _ w
        have hrun := runs_writeRange_erased hsrc hindex hlen hwrap hbound happ herased
        rw [hrun w fun _ _ ↦ Nat.zero_le _]

/-- **A put that is not bounded** can leave a page that is not enumerated: it is enough that one of
its bytes goes to the last batch of indices. -/
theorem not_enumerates_putMemory (hv : E.verifies = true) (hp : page ≠ .noPage)
    (hindex : index < 65536) (hlen : data.length < 65536) (hwrap : 65536 ≤ index + data.length)
    (hbytes : ∀ j d, data[j]? = some d → d ≠ 0xFF → index + j < 65535)
    (htaken : Taken E mem page (putRecords E mem page index data)) {j : ℕ} {d : UInt8}
    (hd : data[j]? = some d) (hne : d ≠ 0xFF) (hlast : batchLimit ≤ index + j) :
    ¬ Enumerates E (putMemory E mem page index data) page := by
  have hex := existingData_of_wrap E mem hp hindex hlen hwrap
  have hjlt := (List.getElem?_eq_some_iff.mp hd).1
  rw [putRecords, hex] at htaken
  have hcell := (taken_spec hv (by simp) (lt_of_ne_replicate hbytes) htaken).2 (index + j)
  rw [Nat.add_sub_cancel_left, hd, List.getElem?_replicate, if_pos hjlt,
    if_pos ⟨Nat.le_add_right _ _, fun hc ↦ hne (Option.some.inj hc).symm⟩] at hcell
  rw [putMemory, putRecords, hex]
  refine not_enumerates hp ?_
  by_contra hnone
  refine hne (hcell.symm.trans (contents_of_forall_ne fun r hr hi ↦ hnone ⟨r, hr, ?_⟩))
  rwa [hi]

/-! ## Gets -/

/-- **When a get is bounded.** -/
theorem getBounded_iff (hindex : index < 65536) (hlen : length < 65536) :
    GetBounded E mem page index length ↔
      if index + length < 65536 then
        ∀ i < length, E.capacity ≤ index + i → contents E mem page (index + i) = 0xFF
      else ∀ i < length, index + i < E.capacity → contents E mem page (index + i) = 0xFF := by
  split
  · rename_i hlt
    rw [GetBounded, readRange_eq E mem page hlt, List.map_inj_left]
    simp only [List.mem_range]
    refine forall_congr' fun i ↦ imp_congr_right fun _ ↦ ?_
    by_cases hc : index + i < E.capacity
    · rw [if_pos hc]
      exact iff_of_true rfl fun h ↦ absurd hc (by omega)
    · rw [if_neg hc]
      exact ⟨fun h _ ↦ h, fun h ↦ h (by omega)⟩
  · rename_i hge
    have herased : List.replicate length (0xFF : UInt8) = (List.range length).map fun _ ↦ 0xFF := by
      rw [List.map_const', List.length_range]
    rw [GetBounded, readRange_of_wrap E mem page hindex hlen (by omega), herased,
      List.map_inj_left]
    simp only [List.mem_range]
    refine forall_congr' fun i ↦ imp_congr_right fun _ ↦ ?_
    by_cases hc : index + i < E.capacity
    · rw [if_pos hc]
      exact ⟨fun h _ ↦ h.symm, fun h ↦ (h hc).symm⟩
    · rw [if_neg hc]
      exact iff_of_true rfl fun h ↦ absurd h hc

/-! ## Both -/

/-- **The bounds of puts and gets**, for every range. -/
theorem bounds_iff (E : Layout) (pages : Pages) (mem : Memory) (index length : ℕ)
    (data : List UInt8) (allocated : Bool) (hsrc : pages.activePage ≠ .noPage)
    (hdst : pages.alternatePage ≠ .noPage) (hindex : index < 65536) (hdata : data.length < 65536)
    (hlen : length < 65536) :
    (PutBounded E pages mem index data allocated ↔
      index + data.length ≤ E.capacity ∨ E.capacity < (index + data.length) % 65536 ∨
        allocated = false ∨ (Appendable E mem pages.activePage ∧ ∀ d ∈ data, d = 0xFF)) ∧
    (GetBounded E mem pages.activePage index length ↔
      if index + length < 65536 then
        ∀ i < length, E.capacity ≤ index + i → contents E mem pages.activePage (index + i) = 0xFF
      else
        ∀ i < length, index + i < E.capacity →
          contents E mem pages.activePage (index + i) = 0xFF) :=
  ⟨putBounded_iff hsrc hdst hindex hdata, getBounded_iff hindex hlen⟩

/-- Ranges that begin with the last cell and run over the capacity by one. -/
theorem bounds_lastCell : PutBounded duo ⟨.page1, .page2⟩ cleared 2047 [1, 2] true ∧
    GetBounded duo cleared .page1 2047 2 := by
  have hlog : log duo cleared .page1 = [] := by rw [log, logLength_cleared]; rfl
  obtain ⟨hput, hget⟩ := bounds_iff duo ⟨.page1, .page2⟩ cleared 2047 2 [1, 2] true (by decide)
    (by decide) (by decide) (by decide) (by decide)
  refine ⟨hput.mpr (Or.inr (Or.inl (by decide))), hget.mpr ?_⟩
  rw [if_pos (by decide)]
  intro i _ _
  rw [contents_of_log_eq_nil hlog, erasedCells]

/-- A put of the very last index and a get from index 1 of the greatest length there is. -/
theorem not_bounds_of_wrap : ¬ PutBounded duo ⟨.page1, .page2⟩ cleared 65535 [0x42] true ∧
    ¬ GetBounded duo (singleRecord 5 0x42) .page1 1 65535 := by
  constructor
  · intro h
    have hdata := (h.nothing_to_write (by decide) (by decide) (by decide) (by decide) (by decide)
      (by decide)).2 0x42 (List.mem_singleton_self _)
    exact absurd hdata (by decide)
  · intro h
    have hget := (getBounded_iff (by decide) (by decide)).mp h
    rw [if_neg (by decide)] at hget
    have hcell : contents duo (singleRecord 5 0x42) .page1 5 = 0x42 := by
      rw [contents, log_singleRecord (by decide +kernel) (by decide +kernel)]
      decide +kernel
    have herased := hget 4 (by decide) (by decide)
    exact absurd (hcell.symm.trans herased) (by decide)

end DuoFirmware.EEPROMEmulation
