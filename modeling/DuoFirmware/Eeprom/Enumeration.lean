import DuoFirmware.Eeprom.Compaction

/-!
# What an enumeration yields

`forEachUniqueValidRecord` is meant to call its callback once for each index on a page, with the
latest record of that index, by increasing index. For a callback that leaves the page alone this
is an equality of programs: the enumeration is the callback run on the latest records in turn.

The bounds of a batch have 16 bits. The batch that starts at `65408` should end at `65536`, which
wraps around to `0`: no record falls into it, and every record of the page seems to belong to a
later one. An index in that batch keeps the enumeration going forever.
-/

namespace DuoFirmware.EEPROMEmulation

open NorFlash FlashM KeyedLog

/-- Where the batch starts whose end wraps around. -/
def batchLimit : ℕ := 65408

/-- The addresses of the latest records from an index on, by increasing index. -/
def latestAddrsFrom (E : Layout) (mem : Memory) (page : LogicalPage) (index : ℕ) : List ℕ :=
  (List.range (65536 - index)).filterMap fun j ↦
    (latestSlot E mem page (index + j)).map (E.slotAddr page)

/-- The addresses of the latest records of a page, one for each index that occurs. -/
def latestAddrs (E : Layout) (mem : Memory) (page : LogicalPage) : List ℕ :=
  latestAddrsFrom E mem page 0

/-- The bytes of the page are the same. -/
def SamePage (E : Layout) (page : LogicalPage) (mem mem' : Memory) : Prop :=
  ∀ x, E.getPageBegin page ≤ x → x < E.getPageEnd page → mem' x = mem x

section Callback

variable {σ : Type}

/-- The callback does not change the page, whatever it does to the rest of the flash. -/
def KeepsPage (E : Layout) (page : LogicalPage) (f : σ → ℕ → Record → FlashM σ) : Prop :=
  ∀ s a r d, SamePage E page d.memory (f s a r d).2.memory

/-- The callback never runs forever. -/
def Returns (f : σ → ℕ → Record → FlashM σ) : Prop := ∀ s a r d, (f s a r d).1.isSome = true

end Callback

/-- **The enumeration of a page is total and complete.** It returns when its callback does, and it
is the callback run on the latest record of each index, by increasing index. -/
structure Enumerates (E : Layout) (mem : Memory) (page : LogicalPage) : Prop where
  terminates : ∀ (σ : Type) (f : σ → ℕ → Record → FlashM σ), KeepsPage E page f → Returns f →
    ∀ s w, (forEachUniqueValidRecord E f page s ⟨mem, w⟩).1.isSome = true
  yields : ∀ (σ : Type) (f : σ → ℕ → Record → FlashM σ), KeepsPage E page f →
    ∀ s w, forEachUniqueValidRecord E f page s ⟨mem, w⟩ =
      yieldAddrs f (latestAddrs E mem page) s ⟨mem, w⟩

variable {E : Layout} {mem mem' : Memory} {page : LogicalPage}

/-! ## The addresses to yield -/

/-- The latest records are the compaction of the log. -/
theorem map_readRecord_latestAddrs (E : Layout) (mem : Memory) (page : LogicalPage) :
    (latestAddrs E mem page).map (readRecord mem) = uniqueRecords (log E mem page) := by
  rw [latestAddrs, latestAddrsFrom, List.map_filterMap, uniqueRecords, compact]
  refine List.filterMap_congr fun j _ ↦ ?_
  rw [latest_log, Nat.zero_add, Option.map_map]
  rfl

/-- A batch comes before the addresses behind it. -/
theorem latestAddrsFrom_batch (E : Layout) (mem : Memory) (page : LogicalPage) {index : ℕ}
    (h : index + 128 ≤ 65536) :
    latestAddrsFrom E mem page index =
      ((List.range 128).filterMap fun j ↦
        (latestSlot E mem page (index + j)).map (E.slotAddr page)) ++
      latestAddrsFrom E mem page (index + 128) := by
  obtain ⟨m, hm⟩ : ∃ m, 65536 - index = 128 + m := ⟨65536 - index - 128, by omega⟩
  have hrest : 65536 - (index + 128) = m := by omega
  rw [latestAddrsFrom, latestAddrsFrom, hm, hrest, List.range_add, List.filterMap_append,
    List.filterMap_map]
  simp only [Function.comp_def, Nat.add_assoc]

/-- There is nothing to yield behind the largest index. -/
theorem latestAddrsFrom_eq_nil {index : ℕ} (h : ∀ r ∈ log E mem page, r.index < index) :
    latestAddrsFrom E mem page index = [] := by
  refine List.filterMap_eq_nil_iff.mpr fun j _ ↦ ?_
  rw [Option.map_eq_none_iff, latestSlot, latest_eq_none_iff]
  intro k hk hindex
  have := h (slot E mem page k) (List.mem_map_of_mem hk)
  omega

/-! ## Yielding -/

section Yield

variable {σ : Type} {f : σ → ℕ → Record → FlashM σ}

theorem yieldAddrs_append (f : σ → ℕ → Record → FlashM σ) (as bs : List ℕ) (s : σ) (d : Device) :
    yieldAddrs f (as ++ bs) s d = (yieldAddrs f as s >>= yieldAddrs f bs) d := by
  induction as generalizing s d with
  | nil => rfl
  | cons a as ih =>
    change (f s a (readRecord d.memory a) >>= fun s' ↦ yieldAddrs f (as ++ bs) s') d =
      ((f s a (readRecord d.memory a) >>= fun s' ↦ yieldAddrs f as s') >>= yieldAddrs f bs) d
    rcases hr : f s a (readRecord d.memory a) d with ⟨_ | s', d'⟩
    · rw [bind_apply_none hr, bind_apply_none (bind_apply_none hr)]
    · rw [bind_apply_some hr, ih]
      rcases hr' : yieldAddrs f as s' d' with ⟨_ | s'', d''⟩
      · rw [bind_apply_none hr', bind_apply_none (by rw [bind_apply_some hr, hr'])]
      · rw [bind_apply_some hr', bind_apply_some (by rw [bind_apply_some hr, hr'])]

theorem samePage_yieldAddrs (hf : KeepsPage E page f) (as : List ℕ) (s : σ) (d : Device) :
    SamePage E page d.memory (yieldAddrs f as s d).2.memory := by
  induction as generalizing s d with
  | nil => exact fun _ _ _ ↦ rfl
  | cons a as ih =>
    change SamePage E page d.memory
      ((f s a (readRecord d.memory a) >>= fun s' ↦ yieldAddrs f as s') d).2.memory
    have hcall := hf s a (readRecord d.memory a) d
    rcases hr : f s a (readRecord d.memory a) d with ⟨_ | s', d'⟩
    · rw [bind_apply_none hr]
      rwa [hr] at hcall
    · rw [hr] at hcall
      rw [bind_apply_some hr]
      exact fun x h1 h2 ↦ (ih s' d' x h1 h2).trans (hcall x h1 h2)

theorem isSome_yieldAddrs (hf : Returns f) (as : List ℕ) (s : σ) (d : Device) :
    (yieldAddrs f as s d).1.isSome = true := by
  induction as generalizing s d with
  | nil => rfl
  | cons a as ih =>
    change ((f s a (readRecord d.memory a) >>= fun s' ↦ yieldAddrs f as s') d).1.isSome = true
    have hcall := hf s a (readRecord d.memory a) d
    rcases hr : f s a (readRecord d.memory a) d with ⟨_ | s', d'⟩
    · rw [hr] at hcall
      exact absurd hcall Bool.false_ne_true
    · rw [bind_apply_some hr]
      exact ih s' d'

/-! ## The passes -/

/-- One pass: yield the batch, then go on if there are more records. -/
theorem batchLoop_succ (fuel first last : ℕ) (s : σ) (d : Device) :
    batchLoop E f page (fuel + 1) first last s d =
      (yieldAddrs f (((findBatch E d.memory page first last).recordAddresses.filter
          (· ≠ 0)).map (E.getPageBegin page + ·)) s >>= fun s' ↦
        if (findBatch E d.memory page first last).hasMoreRecords then
          batchLoop E f page fuel ((first + 128) % 65536) ((last + 128) % 65536) s'
        else pure s') d := by
  rw [← yieldBatch_eq]
  rfl

/-- As long as no index is in the last batch, the passes from one on yield what is behind it. -/
theorem batchLoop_eq_yieldAddrs (hp : page ≠ .noPage) (hf : KeepsPage E page f)
    (hlog : ∀ r ∈ log E mem page, r.index < batchLimit) (fuel b : ℕ) (s : σ) (d : Device)
    (hfuel : fuel + b = 512) (hb : b ≤ 510) (hd : SamePage E page mem d.memory) :
    batchLoop E f page fuel (128 * b) (128 * b + 128) s d =
      yieldAddrs f (latestAddrsFrom E mem page (128 * b)) s d := by
  induction fuel generalizing b s d with
  | zero => omega
  | succ fuel ih =>
    obtain ⟨hyield, hmore⟩ := findBatch_spec mem hp (128 * b)
    rw [batchLoop_succ, findBatch_congr hp hd, hyield, latestAddrsFrom_batch E mem page (by omega),
      yieldAddrs_append]
    set batchAddrs := (List.range 128).filterMap fun j ↦
      (latestSlot E mem page (128 * b + j)).map (E.slotAddr page)
    have hkeeps := samePage_yieldAddrs hf batchAddrs s d
    rcases hrun : yieldAddrs f batchAddrs s d with ⟨_ | s', d'⟩
    · rw [bind_apply_none hrun, bind_apply_none hrun]
    · rw [bind_apply_some hrun, bind_apply_some hrun]
      rw [hrun] at hkeeps
      by_cases hm : (findBatch E mem page (128 * b) (128 * b + 128)).hasMoreRecords = true
      · -- the record that is left says that the next batch does not wrap around
        obtain ⟨r, hr, hge⟩ := hmore.mp hm
        have hlt := hlog r hr
        rw [batchLimit] at hlt
        rw [if_pos hm, Nat.mod_eq_of_lt (by omega), Nat.mod_eq_of_lt (by omega)]
        exact ih (b + 1) s' d' (by omega) (by omega) fun x h1 h2 ↦
          (hkeeps x h1 h2).trans (hd x h1 h2)
      · have hnone : ∀ r ∈ log E mem page, r.index < 128 * b + 128 := by
          intro r hr
          by_contra hge
          exact hm (hmore.mpr ⟨r, hr, by omega⟩)
        rw [if_neg hm, latestAddrsFrom_eq_nil hnone]
        rfl

/-- **An index in the last batch** is beyond the end of every batch, the last one included: for no
number of passes do they come to an end. -/
theorem batchLoop_endless (hp : page ≠ .noPage) (hf : KeepsPage E page f)
    (hlog : ∃ r ∈ log E mem page, batchLimit ≤ r.index) (fuel b : ℕ) (s : σ) (d : Device)
    (hb : b < 512) (hd : SamePage E page mem d.memory) :
    (batchLoop E f page fuel (128 * b) ((128 * b + 128) % 65536) s d).1 = none := by
  induction fuel generalizing b s d with
  | zero => rfl
  | succ fuel ih =>
    obtain ⟨r, hr, hge⟩ := hlog
    have hmore : (findBatch E mem page (128 * b) ((128 * b + 128) % 65536)).hasMoreRecords =
        true := by
      rw [hasMoreRecords_findBatch]
      rw [batchLimit] at hge
      exact ⟨r, hr, by omega⟩
    rw [batchLoop_succ, findBatch_congr hp hd]
    generalize ((findBatch E mem page (128 * b) ((128 * b + 128) % 65536)).recordAddresses.filter
      (· ≠ 0)).map (E.getPageBegin page + ·) = batchAddrs
    have hkeeps := samePage_yieldAddrs hf batchAddrs s d
    rcases hrun : yieldAddrs f batchAddrs s d with ⟨_ | s', d'⟩
    · rw [bind_apply_none hrun]
    · rw [hrun] at hkeeps
      have hnext : (128 * b + 128) % 65536 = 128 * ((b + 1) % 512) := by omega
      have hlast : ((128 * b + 128) % 65536 + 128) % 65536 =
          (128 * ((b + 1) % 512) + 128) % 65536 := by omega
      rw [bind_apply_some hrun, if_pos hmore, hnext, ← hnext, hlast, hnext]
      exact ih _ s' d' (Nat.mod_lt _ (by omega)) fun x h1 h2 ↦
        (hkeeps x h1 h2).trans (hd x h1 h2)

end Yield

/-! ## The pages that are enumerated -/

/-- A callback that only keeps a list of what it was called with. -/
def collect (calls : List (ℕ × Record)) (address : ℕ) (record : Record) :
    FlashM (List (ℕ × Record)) := pure (calls ++ [(address, record)])

theorem keepsPage_collect : KeepsPage E page collect := fun _ _ _ _ _ _ _ ↦ rfl

theorem returns_collect : Returns collect := fun _ _ _ _ ↦ rfl

theorem yieldAddrs_collect (as : List ℕ) (calls : List (ℕ × Record)) (d : Device) :
    yieldAddrs collect as calls d =
      (some (calls ++ as.map fun a ↦ (a, readRecord d.memory a)), d) := by
  induction as generalizing calls with
  | nil => simp [yieldAddrs]; rfl
  | cons a as ih =>
    change yieldAddrs collect as (calls ++ [(a, readRecord d.memory a)]) d = _
    rw [ih, List.append_assoc, List.map_cons, List.singleton_append]

/-- What is collected from a page that is enumerated is the compaction of its log. -/
theorem Enumerates.collected (h : Enumerates E mem page) :
    ∃ calls, complete (forEachUniqueValidRecord E collect page []) mem = some (calls, mem) ∧
      calls.map Prod.snd = uniqueRecords (log E mem page) := by
  refine ⟨(latestAddrs E mem page).map fun a ↦ (a, readRecord mem a), ?_, ?_⟩
  · rw [complete, h.yields _ collect keepsPage_collect, yieldAddrs_collect, List.nil_append]
    rfl
  · rw [List.map_map, ← map_readRecord_latestAddrs]
    rfl

/-- A page with an index in the last batch is not enumerated. -/
theorem not_enumerates (hp : page ≠ .noPage) (hlog : ∃ r ∈ log E mem page, batchLimit ≤ r.index) :
    ¬ Enumerates E mem page := by
  intro h
  have hret := h.terminates _ collect keepsPage_collect returns_collect [] none
  rw [forEachUniqueValidRecord, batchLoop_endless hp keepsPage_collect hlog 512 0 [] _ (by omega)
    fun _ _ _ ↦ rfl] at hret
  exact absurd hret Bool.false_ne_true

/-- **The pages that are enumerated** are those without an index in the last batch. -/
theorem enumerates_iff (hp : page ≠ .noPage) :
    Enumerates E mem page ↔ ∀ r ∈ log E mem page, r.index < batchLimit := by
  constructor
  · intro h r hr
    by_contra hge
    exact not_enumerates hp ⟨r, hr, by omega⟩ h
  · intro hlog
    have hyields : ∀ (σ : Type) (f : σ → ℕ → Record → FlashM σ), KeepsPage E page f →
        ∀ s w, forEachUniqueValidRecord E f page s ⟨mem, w⟩ =
          yieldAddrs f (latestAddrs E mem page) s ⟨mem, w⟩ := fun σ f hf s w ↦
      batchLoop_eq_yieldAddrs hp hf hlog 512 0 s ⟨mem, w⟩ rfl (by omega) fun _ _ _ ↦ rfl
    refine ⟨fun σ f hf hret s w ↦ ?_, hyields⟩
    rw [hyields σ f hf]
    exact isSome_yieldAddrs hret _ _ _

/-- The first page of the Duo with a record of one index after its header. -/
def singleRecord (index : ℕ) (data : UInt8) : Memory :=
  cleared.program (duo.slotAddr .page1 0) (Record.of index data).toBytes

theorem log_singleRecord {index : ℕ} {data : UInt8}
    (h : (slot duo (singleRecord index data) .page1 0).valid = true)
    (h' : (slot duo (singleRecord index data) .page1 1).valid = false) :
    log duo (singleRecord index data) .page1 = [slot duo (singleRecord index data) .page1 0] := by
  have hlen : logLength duo (singleRecord index data) .page1 = 1 :=
    logLength_eq_of (by decide) (fun j hj ↦ by rwa [Nat.lt_one_iff.mp hj]) fun _ ↦ h'
  rw [log, hlen]
  rfl

theorem enumerates_singleRecord : Enumerates duo (singleRecord 0xFF7F 0x42) .page1 := by
  refine (enumerates_iff (by decide)).mpr ?_
  rw [log_singleRecord (by decide +kernel) (by decide +kernel), List.forall_mem_singleton]
  decide +kernel

/-- One index more, and the passes never end. -/
theorem not_enumerates_singleRecord : ¬ Enumerates duo (singleRecord 0xFF80 0x42) .page1 := by
  refine not_enumerates (by decide) ⟨slot duo (singleRecord 0xFF80 0x42) .page1 0, ?_, ?_⟩
  · rw [log_singleRecord (by decide +kernel) (by decide +kernel)]
    exact List.mem_singleton_self _
  · decide +kernel

end DuoFirmware.EEPROMEmulation
