import DuoFirmware.Lib.KeyedLog
import DuoFirmware.Eeprom.Emulation

/-!
# The log of a page

A page represents a map from indices to bytes through the valid records at its front: what is
behind the first record that is not valid does not count. Here the reading functions are connected
to that view. Everything about a page is stated by slot number, and the length of the log is
characterized by the slots alone, so that a writer only has to say which slots it changed.
-/

namespace DuoFirmware.EEPROMEmulation

open NorFlash KeyedLog

variable (E : Layout)

/-- The record in a slot. -/
def slot (mem : Memory) (page : LogicalPage) (k : ℕ) : Record := readRecord mem (E.slotAddr page k)

/-- The addresses of the valid records at the front of a page. -/
def logAddrs (mem : Memory) (page : LogicalPage) : List ℕ :=
  (E.slotAddrs page).takeWhile fun a ↦ (readRecord mem a).valid

def logLength (mem : Memory) (page : LogicalPage) : ℕ := (logAddrs E mem page).length

/-- The valid records at the front of a page. -/
def log (mem : Memory) (page : LogicalPage) : List Record :=
  (List.range (logLength E mem page)).map (slot E mem page)

/-- The byte a page holds for an index. -/
def contents (mem : Memory) (page : LogicalPage) (index : ℕ) : UInt8 :=
  ((latest Record.index (log E mem page) index).map Record.data).getD 0xFF

variable {E} {mem mem' : Memory} {page : LogicalPage}

/-! ## The length of the log -/

/-- The log ends at the end of the page or at the first slot that is not valid. -/
theorem logAddrs_eq_of {k : ℕ} (hk : k ≤ E.slotCount page)
    (hv : ∀ j < k, (slot E mem page j).valid = true)
    (hs : k < E.slotCount page → (slot E mem page k).valid = false) :
    logAddrs E mem page = (List.range k).map (E.slotAddr page) := by
  obtain ⟨m, hm⟩ : ∃ m, E.slotCount page = k + m := ⟨E.slotCount page - k, by omega⟩
  have hfront : ∀ a ∈ (List.range k).map (E.slotAddr page), (readRecord mem a).valid = true := by
    intro a ha
    obtain ⟨j, hj, rfl⟩ := List.mem_map.mp ha
    exact hv j (List.mem_range.mp hj)
  rw [logAddrs, Layout.slotAddrs, hm, List.range_add, List.map_append,
    List.takeWhile_append_of_pos hfront]
  rcases m with _ | m
  · simp
  · have hstop : (readRecord mem (E.slotAddr page k)).valid = false := hs (by omega)
    rw [List.range_succ_eq_map]
    simp [hstop]

theorem logLength_eq_of {k : ℕ} (hk : k ≤ E.slotCount page)
    (hv : ∀ j < k, (slot E mem page j).valid = true)
    (hs : k < E.slotCount page → (slot E mem page k).valid = false) :
    logLength E mem page = k := by
  rw [logLength, logAddrs_eq_of hk hv hs]
  simp

/-- The same facts about the log there is. -/
theorem logLength_spec (E : Layout) (mem : Memory) (page : LogicalPage) :
    logLength E mem page ≤ E.slotCount page ∧
      (∀ j < logLength E mem page, (slot E mem page j).valid = true) ∧
      (logLength E mem page < E.slotCount page →
        (slot E mem page (logLength E mem page)).valid = false) := by
  classical
  -- the log ends at the least slot that is not valid, if there is one
  by_cases h : ∃ k, k < E.slotCount page ∧ (slot E mem page k).valid = false
  · have hk := Nat.find_spec h
    have hv : ∀ j < Nat.find h, (slot E mem page j).valid = true := fun j hj ↦ by
      have hlt : j < E.slotCount page := hj.trans hk.1
      simpa [hlt] using Nat.find_min h hj
    rw [logLength_eq_of hk.1.le hv fun _ ↦ hk.2]
    exact ⟨hk.1.le, hv, fun _ ↦ hk.2⟩
  · have hv : ∀ j < E.slotCount page, (slot E mem page j).valid = true := fun j hj ↦ by
      by_contra hc
      exact h ⟨j, hj, by simpa using hc⟩
    rw [logLength_eq_of le_rfl hv fun hlt ↦ absurd hlt (lt_irrefl _)]
    exact ⟨le_rfl, hv, fun hlt ↦ absurd hlt (lt_irrefl _)⟩

theorem logAddrs_eq (E : Layout) (mem : Memory) (page : LogicalPage) :
    logAddrs E mem page = (List.range (logLength E mem page)).map (E.slotAddr page) := by
  obtain ⟨h1, h2, h3⟩ := logLength_spec E mem page
  exact logAddrs_eq_of h1 h2 h3

theorem log_eq_map (E : Layout) (mem : Memory) (page : LogicalPage) :
    log E mem page = (logAddrs E mem page).map (readRecord mem) := by
  rw [logAddrs_eq, List.map_map]
  rfl

/-! ## The cells -/

/-- Every index of a log is below that of an empty record. -/
theorem index_lt_of_mem_log {r : Record} (hr : r ∈ log E mem page) : r.index < 65535 := by
  obtain ⟨k, hk, rfl⟩ := List.mem_map.mp hr
  have hvalid := (logLength_spec E mem page).2.1 k (List.mem_range.mp hk)
  rw [Record.valid, decide_eq_true_eq] at hvalid
  have hne := hvalid.1
  simp only [slot, readRecord, Memory.word16, Record.emptyIndex] at hne ⊢
  have h2 := (mem (E.slotAddr page k + 2)).toNat_lt
  have h3 := (mem (E.slotAddr page k + 2 + 1)).toNat_lt
  omega

/-- A cell without a record is erased. -/
theorem contents_of_forall_ne {i : ℕ} (h : ∀ r ∈ log E mem page, r.index ≠ i) :
    contents E mem page i = 0xFF := by
  rw [contents, latest_eq_none_iff.mpr h]
  rfl

theorem contents_of_le {i : ℕ} (h : 65535 ≤ i) : contents E mem page i = 0xFF :=
  contents_of_forall_ne fun _ hr ↦ ((index_lt_of_mem_log hr).trans_le h).ne

/-! ## Frames -/

theorem slot_congr {k : ℕ}
    (h : ∀ x, E.slotAddr page k ≤ x → x < E.slotAddr page (k + 1) → mem' x = mem x) :
    slot E mem' page k = slot E mem page k :=
  readRecord_congr fun x h1 h2 ↦ h x h1 (by simp only [Layout.slotAddr] at *; omega)

/-- A log only depends on its own records and on the next slot not being valid. -/
theorem log_congr
    (h : ∀ x, E.slotAddr page 0 ≤ x → x < E.slotAddr page (logLength E mem page) → mem' x = mem x)
    (hs : logLength E mem page < E.slotCount page →
      (slot E mem' page (logLength E mem page)).valid = false) :
    log E mem' page = log E mem page := by
  obtain ⟨h1, h2, -⟩ := logLength_spec E mem page
  have hslot : ∀ j < logLength E mem page, slot E mem' page j = slot E mem page j :=
    fun j hj ↦ slot_congr fun x hx1 hx2 ↦
      h x (by simp only [Layout.slotAddr] at *; omega) (by simp only [Layout.slotAddr] at *; omega)
  have hlen : logLength E mem' page = logLength E mem page :=
    logLength_eq_of h1 (fun j hj ↦ by rw [hslot j hj]; exact h2 j hj) hs
  rw [log, log, hlen]
  exact List.map_congr_left fun j hj ↦ hslot j (List.mem_range.mp hj)

/-- A page whose bytes are all kept keeps its log. -/
theorem log_congr_page (hp : page ≠ .noPage)
    (h : ∀ x, E.getPageBegin page + 4 ≤ x → x < E.getPageEnd page → mem' x = mem x) :
    log E mem' page = log E mem page := by
  obtain ⟨h1, -, h3⟩ := logLength_spec E mem page
  have hend := E.slotAddr_slotCount hp
  refine log_congr (fun x hx1 hx2 ↦ h x ?_ ?_) fun hlt ↦ ?_
  · simpa [Layout.slotAddr] using hx1
  · simp only [Layout.slotAddr] at *
    omega
  · rw [← h3 hlt]
    refine congrArg _ (slot_congr fun x hx1 hx2 ↦ h x ?_ ?_) <;>
      simp only [Layout.slotAddr] at * <;> omega

/-! ## Iterating over the log -/

section Iteration

variable {σ : Type}

/-- `forEachValidRecord` folds over the log. -/
theorem forEachValidRecord_eq (f : σ → ℕ → Record → σ) (s : σ) :
    forEachValidRecord E mem page f s =
      (logAddrs E mem page).foldl (fun s a ↦ f s a (readRecord mem a)) s := by
  rw [forEachValidRecord, forEachRecord, logAddrs]
  generalize E.slotAddrs page = addresses
  induction addresses generalizing s with
  | nil => rfl
  | cons a addresses ih =>
    rw [forEachRecordAt, List.takeWhile_cons]
    by_cases hv : (readRecord mem a).valid = true
    · rw [if_pos hv, if_pos hv, List.foldl_cons]
      exact ih _
    · rw [if_neg hv, if_neg hv]
      rfl

end Iteration

/-! ## Reading a range -/

@[simp] theorem length_storeData (b e : ℕ) (data : List UInt8) (r : Record) :
    (storeData b e data r).length = data.length := by
  rw [storeData]
  split <;> simp

theorem length_foldl_storeData (b e : ℕ) (l : List Record) (data : List UInt8) :
    (l.foldl (storeData b e) data).length = data.length := by
  induction l generalizing data with
  | nil => rfl
  | cons r l ih => rw [List.foldl_cons, ih, length_storeData]

/-- Storing all records of a log leaves the latest one of each index in the range. -/
theorem getElem?_foldl_storeData {b e j : ℕ} (l : List Record) {data : List UInt8}
    (hj : j < data.length) (he : b + j < e) :
    (l.foldl (storeData b e) data)[j]? =
      some (((latest Record.index l (b + j)).map Record.data).getD data[j]) := by
  induction l using List.reverseRecOn with
  | nil => simp [hj]
  | append_singleton l r ih =>
    have hlen := length_foldl_storeData b e l data
    rw [List.foldl_append, List.foldl_cons, List.foldl_nil, latest_concat, storeData]
    by_cases hr : r.index = b + j
    · have hin : b ≤ r.index ∧ r.index < e := by omega
      have hsub : r.index - b = j := by omega
      rw [if_pos hin, if_pos hr, hsub, List.getElem?_set_self (by omega)]
      rfl
    · rw [if_neg hr, ← ih]
      split
      · rw [List.getElem?_set_ne (by omega)]
      · rfl

/-- Nothing is stored in an empty range. -/
theorem foldl_storeData_of_le {b e : ℕ} (h : e ≤ b) (l : List Record) (data : List UInt8) :
    l.foldl (storeData b e) data = data := by
  induction l generalizing data with
  | nil => rfl
  | cons r l ih =>
    have hr : ¬ (b ≤ r.index ∧ r.index < e) := by omega
    rw [List.foldl_cons, ih, storeData, if_neg hr]

theorem readRange_eq_foldl (E : Layout) (mem : Memory) (page : LogicalPage) (b n : ℕ) :
    readRange E mem page b n =
      (log E mem page).foldl (storeData b ((b + n) % 65536)) (List.replicate n 0xFF) := by
  rw [readRange, forEachValidRecord_eq, log_eq_map, List.foldl_map]

/-- Storing the log over erased data gives the contents. -/
theorem foldl_storeData_log (E : Layout) (mem : Memory) (page : LogicalPage) {b n : ℕ}
    (h : b + n < 65536) :
    (log E mem page).foldl (storeData b ((b + n) % 65536)) (List.replicate n 0xFF) =
      (List.range n).map fun j ↦ contents E mem page (b + j) := by
  refine List.ext_getElem? fun j ↦ ?_
  by_cases hj : j < n
  · rw [getElem?_foldl_storeData _ (by simpa using hj) (by omega)]
    simp [hj, contents]
  · rw [List.getElem?_eq_none (by rw [length_foldl_storeData]; simpa using hj),
      List.getElem?_eq_none (by simpa using hj)]

/-- **Reading a range** yields the contents, as long as its end does not wrap around. -/
theorem readRange_eq (E : Layout) (mem : Memory) (page : LogicalPage) {b n : ℕ}
    (h : b + n < 65536) :
    readRange E mem page b n = (List.range n).map fun j ↦ contents E mem page (b + j) := by
  rw [readRange_eq_foldl, foldl_storeData_log E mem page h]

/-- A range whose end wraps around reads as erased. -/
theorem readRange_of_wrap (E : Layout) (mem : Memory) (page : LogicalPage) {b n : ℕ}
    (hb : b < 65536) (hn : n < 65536) (h : 65536 ≤ b + n) :
    readRange E mem page b n = List.replicate n 0xFF := by
  rw [readRange_eq_foldl, foldl_storeData_of_le (by omega)]

/-! ## Finding the empty slot -/

/-- The first slot behind the log can be written: the page ends there or the slot is empty. -/
def Appendable (E : Layout) (mem : Memory) (page : LogicalPage) : Prop :=
  logLength E mem page < E.slotCount page →
    (slot E mem page (logLength E mem page)).empty = true

/-- The loop of `readRangeAndFindEmpty` reads the valid records and then looks at one more. -/
private theorem forEachRecordAt_find (mem : Memory) (b e : ℕ) (addresses : List ℕ) (found : Found) :
    forEachRecordAt mem
        (fun (found : Found) address record ↦
          if record.empty then ({ found with emptyAddress := address }, true)
          else if record.valid then
            ({ found with existingData := storeData b e found.existingData record }, false)
          else ({ found with hasInvalidRecords := true }, true)) addresses found =
      let front := addresses.takeWhile fun a ↦ (readRecord mem a).valid
      let existingData := (front.map (readRecord mem)).foldl (storeData b e) found.existingData
      match addresses[front.length]? with
      | none => { found with existingData }
      | some a =>
        if (readRecord mem a).empty then { found with existingData, emptyAddress := a }
        else { found with existingData, hasInvalidRecords := true } := by
  induction addresses generalizing found with
  | nil => rfl
  | cons a addresses ih =>
    rw [forEachRecordAt]
    by_cases hv : (readRecord mem a).valid = true
    · have hne : (readRecord mem a).empty = false := by
        by_contra hc
        rw [Record.valid_eq_false_of_empty (by simpa using hc)] at hv
        exact Bool.false_ne_true hv
      simp [hv, hne, ih]
    · by_cases hne : (readRecord mem a).empty = true <;> simp [hv, hne]

theorem readRangeAndFindEmpty_eq (mem : Memory) (hp : page ≠ .noPage) (b n : ℕ) :
    let found := readRangeAndFindEmpty E mem page b n
    found.existingData =
        (log E mem page).foldl (storeData b ((b + n) % 65536)) (List.replicate n 0xFF) ∧
      (found.hasInvalidRecords = false ↔ Appendable E mem page) ∧
      (found.hasInvalidRecords = false →
        found.emptyAddress = E.slotAddr page (logLength E mem page)) := by
  have hle := (logLength_spec E mem page).1
  have hget : (E.slotAddrs page)[logLength E mem page]? =
      if logLength E mem page < E.slotCount page then
        some (E.slotAddr page (logLength E mem page)) else none := by
    by_cases h : logLength E mem page < E.slotCount page <;> simp [Layout.slotAddrs, h]
  have hread : readRangeAndFindEmpty E mem page b n =
      let existingData :=
        (log E mem page).foldl (storeData b ((b + n) % 65536)) (List.replicate n 0xFF)
      match (E.slotAddrs page)[logLength E mem page]? with
      | none => ⟨existingData, E.getPageEnd page, false⟩
      | some a =>
        if (readRecord mem a).empty then ⟨existingData, a, false⟩
        else ⟨existingData, E.getPageEnd page, true⟩ := by
    rw [log_eq_map]
    exact forEachRecordAt_find mem b ((b + n) % 65536) (E.slotAddrs page)
      ⟨List.replicate n 0xFF, E.getPageEnd page, false⟩
  rw [hread, hget, Appendable, slot]
  by_cases h : logLength E mem page < E.slotCount page
  · by_cases he : (readRecord mem (E.slotAddr page (logLength E mem page))).empty = true <;>
      simp [h, he]
  · have heq : logLength E mem page = E.slotCount page := by omega
    simp [heq, E.slotAddr_slotCount hp]

/-! ## A cleared flash -/

/-- The flash of the Duo after it was cleared. -/
def cleared : Memory :=
  Memory.blank.program (duo.getPageBegin .page1) (PageHeader.toBytes PageHeader.active)

theorem logLength_cleared : logLength duo cleared .page1 = 0 :=
  logLength_eq_of (Nat.zero_le _) (fun _ h ↦ absurd h (Nat.not_lt_zero _)) fun _ ↦ by
    decide +kernel

theorem appendable_cleared : Appendable duo cleared .page1 := by
  intro _
  rw [logLength_cleared]
  decide +kernel

end DuoFirmware.EEPROMEmulation
