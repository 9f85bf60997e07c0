import DuoFirmware.Eeprom.Append

/-!
# Iterating over the latest records

`forEachUniqueValidRecord` goes through a page once for every 128 indices, remembers for each index
of the batch where its last record was, and yields those records. Its callback may write to flash,
so the passes are interleaved with changes; they have to be changes to another page.

What it yields is the compaction of the log, by increasing index. It terminates when no index
reaches the last batch before the 16-bit counters wrap around.
-/

namespace DuoFirmware.EEPROMEmulation

open NorFlash FlashM KeyedLog

variable {E : Layout} {mem mem' : Memory} {page : LogicalPage}

/-! ## One pass -/

theorem getD_saveOffset (offsets : List ℕ) (i v j : ℕ) :
    (saveOffset offsets i v)[j]?.getD 0 = if j = i then v else offsets[j]?.getD 0 := by
  rw [saveOffset]
  by_cases hji : j = i
  · subst hji
    rw [if_pos rfl, List.getElem?_set_self (by
      rw [List.length_append, List.length_replicate]; omega)]
    rfl
  · rw [if_neg hji, List.getElem?_set_ne (Ne.symm hji)]
    by_cases hj : j < offsets.length
    · rw [List.getElem?_append_left hj]
    · rw [List.getElem?_append_right (by omega), List.getElem?_replicate,
        List.getElem?_eq_none (by omega)]
      split <;> rfl

theorem length_saveOffset (offsets : List ℕ) (i v : ℕ) :
    (saveOffset offsets i v).length = max offsets.length (i + 1) := by
  rw [saveOffset, List.length_set, List.length_append, List.length_replicate]
  omega

/-- The fold of a pass over records `g a` at offsets `o a`. -/
private theorem foldl_pass {ι : Type} (g : ι → Record) (o : ι → ℕ) (first last : ℕ) (S : List ι) :
    let batch := S.foldl (fun (batch : Batch) a ↦
      { recordAddresses :=
          if first ≤ (g a).index ∧ (g a).index < last then
            saveOffset batch.recordAddresses ((g a).index - first) (o a)
          else batch.recordAddresses
        hasMoreRecords := batch.hasMoreRecords || decide (last ≤ (g a).index) }) ⟨[], false⟩
    (∀ j, first + j < last → batch.recordAddresses[j]?.getD 0 =
        ((latest (fun a ↦ (g a).index) S (first + j)).map o).getD 0) ∧
      batch.recordAddresses.length ≤ last - first ∧
      (batch.hasMoreRecords = true ↔ ∃ a ∈ S, last ≤ (g a).index) := by
  induction S using List.reverseRecOn with
  | nil => simp
  | append_singleton S a ih =>
    rw [List.foldl_append, List.foldl_cons, List.foldl_nil]
    obtain ⟨h1, h2, h3⟩ := ih
    refine ⟨fun j hj ↦ ?_, ?_, ?_⟩
    · rw [latest_concat]
      by_cases hin : first ≤ (g a).index ∧ (g a).index < last
      · rw [if_pos hin, getD_saveOffset, h1 j hj]
        by_cases ha : (g a).index = first + j
        · rw [if_pos ha, if_pos (by omega)]
          rfl
        · rw [if_neg ha, if_neg (by omega)]
      · rw [if_neg hin, if_neg (by omega), h1 j hj]
    · split
      · rw [length_saveOffset]
        omega
      · exact h2
    · rw [Bool.or_eq_true, h3, decide_eq_true_eq]
      simp only [List.mem_append, List.mem_singleton]
      constructor
      · rintro (⟨b, hb, hlast⟩ | hlast)
        · exact ⟨b, Or.inl hb, hlast⟩
        · exact ⟨a, Or.inr rfl, hlast⟩
      · rintro ⟨b, hb | rfl, hlast⟩
        · exact Or.inl ⟨b, hb, hlast⟩
        · exact Or.inr hlast

/-- The nonzero entries of a vector of offsets are the values of a partial map. -/
private theorem filter_ne_zero_eq (f : ℕ → Option ℕ) (offsets : List ℕ) (n : ℕ)
    (hlen : offsets.length ≤ n) (h : ∀ j < n, offsets[j]?.getD 0 = (f j).getD 0)
    (hf : ∀ j < n, f j ≠ some 0) :
    offsets.filter (· ≠ 0) = (List.range n).filterMap f := by
  induction offsets generalizing f n with
  | nil =>
    symm
    refine List.filterMap_eq_nil_iff.mpr fun j hj ↦ ?_
    have hj := List.mem_range.mp hj
    have h0 := h j hj
    rcases hfj : f j with _ | v
    · rfl
    · rw [hfj] at h0
      obtain rfl : 0 = v := by simpa using h0
      exact absurd hfj (hf j hj)
  | cons a offsets ih =>
    rcases n with _ | n
    · simp at hlen
    · have h0 := h 0 (by omega)
      have ih := ih (fun j ↦ f (j + 1)) n (by simpa using hlen)
        (fun j hj ↦ by simpa using h (j + 1) (by omega)) (fun j hj ↦ hf (j + 1) (by omega))
      rw [List.range_succ_eq_map, List.filterMap_cons, List.filterMap_map]
      rcases hf0 : f 0 with _ | v
      · obtain rfl : a = 0 := by simpa [hf0] using h0
        simpa [Function.comp_def] using ih
      · obtain rfl : a = v := by simpa [hf0] using h0
        have ha : a ≠ 0 := fun hc ↦ hf 0 (by omega) (by rw [hf0, hc])
        simpa [ha, Function.comp_def] using ih

/-- The slot of the latest record of an index. -/
def latestSlot (E : Layout) (mem : Memory) (page : LogicalPage) (index : ℕ) : Option ℕ :=
  latest (fun k ↦ (slot E mem page k).index) (List.range (logLength E mem page)) index

theorem latest_log (E : Layout) (mem : Memory) (page : LogicalPage) (index : ℕ) :
    latest Record.index (log E mem page) index =
      (latestSlot E mem page index).map (slot E mem page) := by
  rw [log, latest_map]
  rfl

theorem lt_of_latestSlot {index k : ℕ} (h : latestSlot E mem page index = some k) :
    k < logLength E mem page := List.mem_range.mp (mem_of_latest h).1

/-- Offsets of slots fit in 16 bits. -/
theorem offset_slotAddr {k : ℕ} (hp : page ≠ .noPage) (hk : k < E.slotCount page) :
    (E.slotAddr page k - E.getPageBegin page) % 65536 = 4 + 4 * k := by
  have h1 := E.size1
  have h2 := E.size2
  cases page
  · exact absurd rfl hp
  all_goals
    simp only [Layout.slotCount, Layout.getPageSize, Layout.slotAddr, Layout.getPageBegin] at *
    omega

/-- A pass folds over the slots of the log. -/
private theorem findBatch_eq_foldl (mem : Memory) (page : LogicalPage) (first last : ℕ) :
    findBatch E mem page first last =
      (List.range (logLength E mem page)).foldl (fun (batch : Batch) k ↦
        { recordAddresses :=
            if first ≤ (slot E mem page k).index ∧ (slot E mem page k).index < last then
              saveOffset batch.recordAddresses ((slot E mem page k).index - first)
                ((E.slotAddr page k - E.getPageBegin page) % 65536)
            else batch.recordAddresses
          hasMoreRecords := batch.hasMoreRecords || decide (last ≤ (slot E mem page k).index) })
        ⟨[], false⟩ := by
  rw [findBatch, forEachValidRecord_eq, logAddrs_eq, List.foldl_map]
  rfl

/-- A pass sees that there are more records, whatever the batch. -/
theorem hasMoreRecords_findBatch (mem : Memory) (page : LogicalPage) (first last : ℕ) :
    (findBatch E mem page first last).hasMoreRecords = true ↔
      ∃ r ∈ log E mem page, last ≤ r.index := by
  obtain ⟨-, -, hmore⟩ := foldl_pass (slot E mem page)
    (fun k ↦ (E.slotAddr page k - E.getPageBegin page) % 65536) first last
    (List.range (logLength E mem page))
  rw [findBatch_eq_foldl, hmore, log]
  simp

/-- **A pass** finds the latest record of each index of the batch. -/
theorem findBatch_spec (mem : Memory) (hp : page ≠ .noPage) (first : ℕ) :
    ((findBatch E mem page first (first + 128)).recordAddresses.filter (· ≠ 0)).map
        (E.getPageBegin page + ·) =
      (List.range 128).filterMap (fun j ↦
        (latestSlot E mem page (first + j)).map (E.slotAddr page)) ∧
    ((findBatch E mem page first (first + 128)).hasMoreRecords = true ↔
      ∃ r ∈ log E mem page, first + 128 ≤ r.index) := by
  have hle := (logLength_spec E mem page).1
  obtain ⟨h1, h2, -⟩ := foldl_pass (slot E mem page)
    (fun k ↦ (E.slotAddr page k - E.getPageBegin page) % 65536) first (first + 128)
    (List.range (logLength E mem page))
  rw [← findBatch_eq_foldl] at h1 h2
  constructor
  · rw [filter_ne_zero_eq (fun j ↦ (latestSlot E mem page (first + j)).map fun k ↦
      (E.slotAddr page k - E.getPageBegin page) % 65536) _ 128 (by omega)
      (fun j hj ↦ h1 j (by omega)) ?_, List.map_filterMap]
    · refine List.filterMap_congr fun j hj ↦ ?_
      rcases hs : latestSlot E mem page (first + j) with _ | k
      · rfl
      · have hk := lt_of_latestSlot hs
        simp only [Option.map_some, Option.some.injEq]
        rw [offset_slotAddr hp (by omega), Layout.slotAddr]
        omega
    · intro j hj hc
      rcases hs : latestSlot E mem page (first + j) with _ | k
      · simp [hs] at hc
      · have hk := lt_of_latestSlot hs
        rw [hs, Option.map_some, Option.some.injEq, offset_slotAddr hp (by omega)] at hc
        omega
  · exact hasMoreRecords_findBatch mem page first (first + 128)

theorem findBatch_congr (hp : page ≠ .noPage)
    (h : ∀ x, E.getPageBegin page ≤ x → x < E.getPageEnd page → mem' x = mem x)
    (first last : ℕ) : findBatch E mem' page first last = findBatch E mem page first last := by
  have hend := E.slotAddr_slotCount hp
  have hread : ∀ a ∈ E.slotAddrs page, readRecord mem' a = readRecord mem a := by
    intro a ha
    obtain ⟨k, hk, rfl⟩ := List.mem_map.mp ha
    have hk := List.mem_range.mp hk
    refine slot_congr fun x h1 h2 ↦ h x ?_ ?_ <;> simp only [Layout.slotAddr] at * <;> omega
  have haddrs : logAddrs E mem' page = logAddrs E mem page := by
    rw [logAddrs, logAddrs]
    generalize E.slotAddrs page = addresses at hread
    induction addresses with
    | nil => rfl
    | cons a addresses ih =>
      rw [List.takeWhile_cons, List.takeWhile_cons, hread a List.mem_cons_self,
        ih fun b hb ↦ hread b (List.mem_cons_of_mem _ hb)]
  rw [findBatch, findBatch, forEachValidRecord_eq, forEachValidRecord_eq, haddrs]
  have hsub : ∀ a ∈ logAddrs E mem page, readRecord mem' a = readRecord mem a := fun a ha ↦
    hread a ((List.takeWhile_sublist _).subset ha)
  generalize logAddrs E mem page = addresses at hsub
  generalize (⟨[], false⟩ : Batch) = s
  induction addresses generalizing s with
  | nil => rfl
  | cons a addresses ih =>
    rw [List.foldl_cons, List.foldl_cons, hsub a List.mem_cons_self]
    exact ih (fun b hb ↦ hsub b (List.mem_cons_of_mem _ hb)) _

/-! ## Yielding -/

section Yield

variable {σ : Type} {f : σ → ℕ → Record → FlashM σ}

/-- Yield the records at the given addresses. -/
def yieldAddrs (f : σ → ℕ → Record → FlashM σ) : List ℕ → σ → FlashM σ
  | [], s => pure s
  | address :: addresses, s => do
    let record ← look fun mem ↦ readRecord mem address
    let s' ← f s address record
    yieldAddrs f addresses s'

theorem yieldBatch_eq (f : σ → ℕ → Record → FlashM σ) (base : ℕ) (offsets : List ℕ) (s : σ) :
    yieldBatch f base offsets s =
      yieldAddrs f ((offsets.filter (· ≠ 0)).map (base + ·)) s := by
  induction offsets generalizing s with
  | nil => rfl
  | cons o offsets ih =>
    rw [yieldBatch]
    by_cases h : o ≠ 0
    · rw [if_pos h, List.filter_cons_of_pos (by simpa using h), List.map_cons, yieldAddrs]
      simp only [ih]
    · rw [if_neg h, List.filter_cons_of_neg (by simpa using h), ih]

theorem frozen_yieldAddrs (hf : ∀ s a r, Frozen (f s a r)) (addresses : List ℕ) (s : σ) :
    Frozen (yieldAddrs f addresses s) := by
  induction addresses generalizing s with
  | nil => exact frozen_pure _
  | cons a addresses ih =>
    exact (frozen_look _).bind fun _ ↦ (hf _ _ _).bind fun _ ↦ ih _

theorem frozen_batchLoop (hf : ∀ s a r, Frozen (f s a r)) (fuel first last : ℕ) (s : σ) :
    Frozen (batchLoop E f page fuel first last s) := by
  induction fuel generalizing first last s with
  | zero => exact frozen_hang
  | succ fuel ih =>
    refine (frozen_look _).bind fun _ ↦ ?_
    rw [yieldBatch_eq]
    exact (frozen_yieldAddrs hf _ _).bind fun _ ↦ .ite (ih _ _ _) (frozen_pure _)

theorem frozen_forEachUniqueValidRecord (hf : ∀ s a r, Frozen (f s a r)) (s : σ) :
    Frozen (forEachUniqueValidRecord E f page s) := frozen_batchLoop hf _ _ _ _

/-- The latest record of each index, by increasing index. -/
def uniqueRecords (l : List Record) : List Record := compact Record.index l (List.range 65536)

/-- Only indices up to a bound of the log contribute. -/
theorem uniqueRecords_eq {l : List Record} {n : ℕ} (hn : n ≤ 65536)
    (h : ∀ r ∈ l, r.index < n) : uniqueRecords l = compact Record.index l (List.range n) := by
  obtain ⟨m, hm⟩ : ∃ m, 65536 = n + m := ⟨65536 - n, by omega⟩
  have hnone : compact Record.index l ((List.range m).map (n + ·)) = [] := by
    refine compact_eq_nil fun k hk r hr ↦ ?_
    obtain ⟨j, -, rfl⟩ := List.mem_map.mp hk
    have := h r hr
    omega
  rw [uniqueRecords, hm, List.range_add, compact_append, hnone, List.append_nil]

theorem compact_range_add {l : List Record} (n m : ℕ) :
    compact Record.index l (List.range (n + m)) = compact Record.index l (List.range n) ++
      (List.range m).filterMap fun j ↦ latest Record.index l (n + j) := by
  rw [List.range_add, compact_append, compact, compact, List.filterMap_map]
  rfl

variable {I : List Record → σ → Memory → Prop} {C : Memory → Prop} (mem₀ : Memory)

/-- The rule for one batch: the callback extends the records done. -/
theorem wpc_yieldAddrs (hf : ∀ s a r, Frozen (f s a r)) {addresses : List ℕ} {done : List Record}
    {s : σ} (hread : ∀ done s mem, I done s mem → ∀ a ∈ addresses,
      readRecord mem a = readRecord mem₀ a)
    (hstep : ∀ done' s mem a, I done' s mem → a ∈ addresses →
      done' ++ [readRecord mem₀ a] <+: done ++ addresses.map (readRecord mem₀) →
      wpc (f s a (readRecord mem₀ a)) (fun s' _ mem' ↦ I (done' ++ [readRecord mem₀ a]) s' mem')
        (fun _ ↦ C) mem)
    (hI : I done s mem) :
    wpc (yieldAddrs f addresses s)
      (fun s' _ mem' ↦ I (done ++ addresses.map (readRecord mem₀)) s' mem') (fun _ ↦ C) mem := by
  induction addresses generalizing done s mem with
  | nil => exact wpc_pure (by simpa using hI)
  | cons a addresses ih =>
    refine wpc_look_bind ?_
    rw [hread _ _ _ hI a List.mem_cons_self]
    have hassoc : done ++ (a :: addresses).map (readRecord mem₀) =
        done ++ [readRecord mem₀ a] ++ addresses.map (readRecord mem₀) := by simp
    rw [hassoc] at hstep ⊢
    refine wpc_bind (fun _ ↦ frozen_yieldAddrs hf _ _)
      (wpc_mono (hstep _ _ _ _ hI List.mem_cons_self (List.prefix_append _ _))
        (fun s' n mem' h ↦ ?_) fun _ _ h ↦ h)
    exact ih (fun done s mem h b hb ↦ hread done s mem h b (List.mem_cons_of_mem _ hb))
      (fun done' s mem b h hb hp ↦ hstep done' s mem b h (List.mem_cons_of_mem _ hb) hp) h

/-- **The rule for `forEachUniqueValidRecord`.** The callback keeps the page it is called for as it
was in `mem₀` and extends the records done, which grow to the compaction of the log. -/
theorem wpc_forEachUniqueValidRecord (hf : ∀ s a r, Frozen (f s a r)) (hp : page ≠ .noPage)
    (hlog : ∀ r ∈ log E mem₀ page, r.index < 65408) {s : σ}
    (hframe : ∀ done s mem, I done s mem →
      ∀ x, E.getPageBegin page ≤ x → x < E.getPageEnd page → mem x = mem₀ x)
    (hstep : ∀ done s mem a r, I done s mem → done ++ [r] <+: uniqueRecords (log E mem₀ page) →
      wpc (f s a r) (fun s' _ mem' ↦ I (done ++ [r]) s' mem') (fun _ ↦ C) mem)
    (hI : I [] s mem) :
    wpc (forEachUniqueValidRecord E f page s)
      (fun s' _ mem' ↦ I (uniqueRecords (log E mem₀ page)) s' mem') (fun _ ↦ C) mem := by
  set l := log E mem₀ page with hl
  have hend := E.slotAddr_slotCount hp
  have hle := (logLength_spec E mem₀ page).1
  -- the pass with fuel `512 - b` starts at index `128 * b`
  have hloop : ∀ fuel b s mem, fuel + b = 512 → b ≤ 510 →
      I (compact Record.index l (List.range (128 * b))) s mem →
      wpc (batchLoop E f page fuel (128 * b) (128 * b + 128) s)
        (fun s' _ mem' ↦ I (uniqueRecords l) s' mem') (fun _ ↦ C) mem := by
    intro fuel
    induction fuel with
    | zero => intro b _ _ h1 h2; omega
    | succ fuel ih =>
      intro b s mem hfuel hb hI
      have hbatch : ∀ first last, findBatch E mem page first last =
          findBatch E mem₀ page first last := findBatch_congr hp (hframe _ _ _ hI)
      obtain ⟨hyield, hmore⟩ := findBatch_spec mem₀ hp (128 * b)
      rw [← hl] at hmore
      have hnext : compact Record.index l (List.range (128 * b)) ++
          ((List.range 128).filterMap fun j ↦ (latestSlot E mem₀ page (128 * b + j)).map
            (E.slotAddr page)).map (readRecord mem₀) =
          compact Record.index l (List.range (128 * (b + 1))) := by
        rw [show 128 * (b + 1) = 128 * b + 128 by omega, compact_range_add, List.map_filterMap]
        congr 2
        funext j
        rw [hl, latest_log, Option.map_map]
        rfl
      have hprefix : compact Record.index l (List.range (128 * (b + 1))) <+:
          uniqueRecords l := by
        rw [uniqueRecords, show 65536 = 128 * (b + 1) + (65536 - 128 * (b + 1)) by omega,
          compact_range_add]
        exact List.prefix_append _ _
      refine wpc_look_bind ?_
      rw [hbatch, yieldBatch_eq, hyield]
      refine wpc_bind (fun _ ↦ .ite (frozen_batchLoop hf _ _ _ _) (frozen_pure _))
        (wpc_mono (wpc_yieldAddrs mem₀ hf ?_ ?_ hI) (fun s' n mem' h ↦ ?_)
          fun _ _ h ↦ h)
      · intro done s mem h a ha
        obtain ⟨j, -, hj⟩ := List.mem_filterMap.mp ha
        obtain ⟨k, hk, rfl⟩ := Option.map_eq_some_iff.mp hj
        have hk := lt_of_latestSlot hk
        refine slot_congr fun x hx1 hx2 ↦ hframe _ _ _ h x ?_ ?_ <;>
          simp only [Layout.slotAddr] at * <;> omega
      · rw [hnext]
        exact fun done' s mem a h _ hpre ↦ hstep _ _ _ _ _ h (hpre.trans hprefix)
      · rw [hnext] at h
        by_cases hm : (findBatch E mem₀ page (128 * b) (128 * b + 128)).hasMoreRecords = true
        · obtain ⟨r, hr, hge⟩ := hmore.mp hm
          have := hlog r hr
          rw [if_pos hm, Nat.mod_eq_of_lt (by omega), Nat.mod_eq_of_lt (by omega)]
          exact ih (b + 1) s' mem' (by omega) (by omega) h
        · rw [if_neg hm]
          refine wpc_pure ?_
          rwa [uniqueRecords_eq (n := 128 * (b + 1)) (by omega) fun r hr ↦ ?_]
          by_contra hc
          exact hm (hmore.mpr ⟨r, hr, by omega⟩)
  exact hloop 512 0 s mem rfl (by omega) hI

end Yield

end DuoFirmware.EEPROMEmulation
