import DuoFirmware.Eeprom.Swap

/-!
# The public operations

What a reader sees of the flash is a function of the contents: the map of the page that
`updateActivePage` selects. Here each public operation gets one rule about that view, for a run
that completes and for one that is cut. The rules ask for `Sane` contents, whose selected page has
no index beyond the capacity, and give them back.
-/

namespace DuoFirmware.EEPROMEmulation

open NorFlash FlashM KeyedLog

/-- The cells of the emulated EEPROM as the next initialization will find them. -/
def view (E : Layout) (mem : Memory) : ℕ → UInt8 :=
  contents E mem (updateActivePage E mem).activePage

/-- The cells after a `clear`. -/
def erasedCells : ℕ → UInt8 := fun _ ↦ 0xFF

/-- No record of the selected page is beyond the capacity. -/
def Sane (E : Layout) (mem : Memory) : Prop :=
  ∀ r ∈ log E mem (updateActivePage E mem).activePage, r.index < E.capacity

/-- The members of the class are up to date, and there is a page to read from. -/
def Ready (E : Layout) (pages : Pages) (mem : Memory) : Prop :=
  updateActivePage E mem = pages ∧ pages.activePage ≠ .noPage ∧ Sane E mem

variable {E : Layout} {mem mem' mem₁ : Memory} {page src dst : LogicalPage} {pages : Pages}
  {index : ℕ} {data : List UInt8}

theorem log_noPage (E : Layout) (mem : Memory) : log E mem .noPage = [] := by
  have : logLength E mem .noPage = 0 := Nat.le_zero.mp (by
    simpa [Layout.slotCount, Layout.getPageSize] using (logLength_spec E mem .noPage).1)
  rw [log, this]
  rfl

theorem log_of_erased (hp : page ≠ .noPage)
    (h : mem.Erased (E.slotAddr page 0) (E.getPageEnd page)) : log E mem page = [] :=
  (Filled.nil h).log_eq hp (Nat.zero_le _) (by simp)

theorem contents_of_log_eq_nil (h : log E mem page = []) : contents E mem page = erasedCells :=
  funext fun _ ↦ contents_of_forall_ne (by simp [h])

theorem contents_congr (h : log E mem' page = log E mem page) :
    contents E mem' page = contents E mem page := by
  funext i
  rw [contents, contents, h]

theorem view_eq_of_active (h : (updateActivePage E mem).activePage = page) :
    view E mem = contents E mem page := by rw [view, h]

theorem Sane.of_active (h : (updateActivePage E mem).activePage = page)
    (hlog : ∀ r ∈ log E mem page, r.index < E.capacity) : Sane E mem := by
  rwa [Sane, h]

/-- Contents that select the same page with the same log look the same. -/
theorem view_congr (h : (updateActivePage E mem).activePage = page)
    (h' : (updateActivePage E mem').activePage = page) (hlog : log E mem' page = log E mem page) :
    view E mem' = view E mem ∧ (Sane E mem → Sane E mem') := by
  refine ⟨?_, fun hsane ↦ Sane.of_active h' ?_⟩
  · rw [view_eq_of_active h, view_eq_of_active h', contents_congr hlog]
  · rw [hlog]
    rwa [Sane, h] at hsane

/-- Both selections depend on the two headers only. -/
theorem updateActivePage_congr
    (h1 : readPageStatus E mem' .page1 = readPageStatus E mem .page1)
    (h2 : readPageStatus E mem' .page2 = readPageStatus E mem .page2) :
    updateActivePage E mem' = updateActivePage E mem := by
  rw [updateActivePage, updateActivePage, h1, h2]

/-- Writing to the slots of a page changes no header. -/
theorem updateActivePage_of_differsIn (hp : page ≠ .noPage)
    (h : Memory.DiffersIn (E.slotAddr page 0) (E.getPageEnd page) mem mem') :
    updateActivePage E mem' = updateActivePage E mem := by
  have hz := slotAddr_zero E page
  have hle1 := getPageBegin_add_le E (show LogicalPage.page1 ≠ LogicalPage.noPage by decide)
  have hle2 := getPageBegin_add_le E (show LogicalPage.page2 ≠ LogicalPage.noPage by decide)
  have hapart := E.apart_pages
  cases page
  · exact absurd rfl hp
  all_goals
    refine updateActivePage_congr (readPageStatus_congr fun x h1 h2 ↦ h x ?_)
      (readPageStatus_congr fun x h1 h2 ↦ h x ?_) <;> omega

/-! ## Putting -/

/-- A put is carried out by appending: the log ends at an empty slot, and the batch fits and is
taken by the store. -/
def Appends (E : Layout) (mem : Memory) (page : LogicalPage) (index : ℕ) (data : List UInt8) :
    Prop :=
  Appendable E mem page ∧ Fits E mem page index data ∧ acceptsBatch E mem page index data = true

open Classical in
/-- The cells after a put. A store that does not verify may have mixed an appended batch with what
was left in its slots. -/
noncomputable def putView (E : Layout) (mem : Memory) (page : LogicalPage) (index : ℕ)
    (data : List UInt8) : ℕ → UInt8 :=
  if Appends E mem page index data then contents E (appended E mem page index data) page
  else putRange (contents E mem page) index data

/-- On a store that verifies, a put updates the cells. -/
theorem putView_eq (hv : E.verifies = true) (hput : index + data.length ≤ E.capacity) :
    putView E mem page index data = putRange (contents E mem page) index data := by
  rw [putView]
  split
  · rename_i h
    exact contents_appended hv hput h.2.1 h.2.2
  · rfl

/-- A put of which nothing differs changes nothing. -/
theorem putView_of_batch_eq_nil (hput : index + data.length ≤ E.capacity)
    (h : batch E mem page index data = []) :
    putView E mem page index data = contents E mem page := by
  rw [putView]
  split
  · rw [appended, h]
    rfl
  · exact putRange_of_batch_eq_nil hput h

/-- Between the operations of a put: the cells are the old ones or the new ones, unless power
failed inside the last index. -/
def PutCut (E : Layout) (src : LogicalPage) (index : ℕ) (data : List UInt8) (mem : Memory)
    (b : ℕ) (mem' : Memory) : Prop :=
  HalfIndex E mem src index data b ∨
    (Sane E mem' ∧ (view E mem' = contents E mem src ∨
      view E mem' = putView E mem src index data))

/-- The swap of a put, which starts from contents that look as they did before the put. -/
theorem wpc_swapPagesAndWrite_view {Q : Bool × Pages → ℕ → Memory → Prop}
    (hpages : updateActivePage E mem₁ = ⟨src, dst⟩) (hsrc : src ≠ .noPage)
    (hsame : log E mem₁ src = log E mem src)
    (hlog : ∀ r ∈ log E mem src, r.index < E.capacity) (hput : index + data.length ≤ E.capacity)
    (hnot : ¬ Appends E mem src index data)
    (hQ : ∀ n mem', Ready E ⟨dst, src⟩ mem' → view E mem' = putView E mem src index data →
      Q (true, ⟨dst, src⟩) n mem') :
    wpc (swapPagesAndWrite E ⟨src, dst⟩ index data) Q
      (fun _ mem' ↦ ∀ b, PutCut E src index data mem b mem') mem₁ := by
  obtain ⟨hdst, hne, -⟩ := updateActivePage_spec hpages hsrc
  have hlog₁ : ∀ r ∈ log E mem₁ src, r.index < E.capacity := by rwa [hsame]
  have hview : ∀ mem', (updateActivePage E mem').activePage = dst →
      Swapped E src dst index data mem₁ mem' →
      Sane E mem' ∧ view E mem' = putView E mem src index data := by
    intro mem' hsel hsw
    refine ⟨Sane.of_active hsel fun r hr ↦ ?_, ?_⟩
    · rw [hsw.records] at hr
      exact (valid_of_mem_swappedRecords hlog₁ hput hr).2
    · rw [view_eq_of_active hsel, hsw.contents_eq hlog₁ hput, contents_congr hsame, putView,
        if_neg hnot]
  refine wpc_swapPagesAndWrite hpages hsrc hlog₁ hput (fun n mem' hsw _ hsel ↦ ?_)
    fun n mem' hcut b ↦ Or.inr ?_
  · have hact : (updateActivePage E mem').activePage = dst := by rw [hsel]
    obtain ⟨hsane, hv⟩ := hview mem' hact hsw
    exact hQ n mem' ⟨hsel, hdst, hsane⟩ hv
  · rcases hcut.selected hpages hsrc with ⟨hsel, hkept⟩ | ⟨hsel, hsw⟩
    · have hz := slotAddr_zero E src
      have hold : log E mem' src = log E mem src := by
        rw [← hsame]
        exact log_congr_page hsrc fun x h1 h2 ↦ hkept x (by omega) h2
      have hact : (updateActivePage E mem').activePage = src := by rw [hsel]
      refine ⟨Sane.of_active hact (by rwa [hold]), Or.inl ?_⟩
      rw [view_eq_of_active hact, contents_congr hold]
    · exact (hview mem' hsel hsw).imp_right Or.inr

theorem frozen_writeChangedLoop (e a index : ℕ) (existingData data : List UInt8) :
    Frozen (writeChangedLoop E e a index existingData data) := by
  rw [writeChangedLoop_eq]
  exact frozen_writeBackward _ _ _ _

theorem frozen_writeRangeChanged (page : LogicalPage) (a index : ℕ)
    (data existingData : List UInt8) :
    Frozen (writeRangeChanged E page a index data existingData) :=
  .ite ((frozen_look _).bind fun _ ↦ .ite (frozen_pure _) (frozen_writeChangedLoop _ _ _ _ _))
    (frozen_pure _)

/-- What a put does after it tried to append. -/
def swapUnless (E : Layout) (pages : Pages) (index : ℕ) (data : List UInt8) (success : Bool) :
    FlashM Pages := do
  if success then pure pages
  else
    let (_, pages') ← swapPagesAndWrite E pages index data
    pure pages'

theorem frozen_swapUnless (E : Layout) (pages : Pages) (index : ℕ) (data : List UInt8)
    (success : Bool) : Frozen (swapUnless E pages index data success) :=
  .ite (frozen_pure _) ((frozen_swapPagesAndWrite _ _ _).bind fun _ ↦ frozen_pure _)

theorem frozen_writeRange (pages : Pages) (index : ℕ) (data : List UInt8) (allocated : Bool) :
    Frozen (writeRange E pages index data allocated) :=
  .ite (frozen_pure _) (.ite (frozen_pure _) ((frozen_look _).bind fun _ ↦
    ((frozen_writeRangeChanged _ _ _ _ _).andThen _).bind fun _ ↦ frozen_swapUnless E _ _ _ _))

/-- A put that the bounds check refuses, or that gets no memory, does nothing. -/
theorem wpc_writeRange_refused {Q : Pages → ℕ → Memory → Prop} {C : ℕ → Memory → Prop}
    {allocated : Bool}
    (h : E.capacity < (index + data.length) % 65536 ∨ allocated = false)
    (hQ : Q pages 0 mem) : wpc (writeRange E pages index data allocated) Q C mem := by
  rw [writeRange]
  by_cases hbound : (index + data.length) % 65536 > E.capacity
  · rw [if_pos hbound]
    exact wpc_pure hQ
  · obtain rfl := h.resolve_left hbound
    rw [if_neg hbound]
    exact wpc_pure hQ

/-- **Putting a range.** -/
theorem wpc_writeRange (hready : Ready E pages mem) (hput : index + data.length ≤ E.capacity) :
    wpc (writeRange E pages index data true)
      (fun pages' _ mem' ↦ Ready E pages' mem' ∧
        view E mem' = putView E mem pages.activePage index data)
      (fun b mem' ↦ PutCut E pages.activePage index data mem b mem') mem := by
  obtain ⟨src, dst⟩ := pages
  obtain ⟨hpages, hsrc, hsane⟩ := hready
  have hcap := E.capacity_le_8192
  have hz := slotAddr_zero E src
  have hlog : ∀ r ∈ log E mem src, r.index < E.capacity := by rwa [Sane, hpages] at hsane
  -- the swap that follows when the batch could not be appended
  have hswap : ∀ mem₁, log E mem₁ src = log E mem src → updateActivePage E mem₁ = ⟨src, dst⟩ →
      ¬ Appends E mem src index data → ∀ k,
      wpc (do let (_, pages') ← swapPagesAndWrite E ⟨src, dst⟩ index data; pure pages')
        (fun pages' _ mem' ↦ Ready E pages' mem' ∧ view E mem' = putView E mem src index data)
        (fun b mem' ↦ PutCut E src index data mem (k + b) mem') mem₁ := by
    intro mem₁ hsame hsel hnot k
    refine wpc_bind (fun _ ↦ frozen_pure _) (wpc_mono
      (wpc_swapPagesAndWrite_view
        (Q := fun r _ mem' ↦ Ready E r.2 mem' ∧ view E mem' = putView E mem src index data)
        hsel hsrc hsame hlog hput hnot fun n mem' h1 h2 ↦ ⟨h1, h2⟩)
      (fun r n mem' h ↦ wpc_pure h) fun b mem' h ↦ h _)
  obtain ⟨hfound, hinvalid, hempty⟩ :=
    readRangeAndFindEmpty_eq mem hsrc index data.length
  rw [foldl_storeData_log E mem src (by omega), ← existingRange] at hfound
  rw [writeRange, if_neg (by omega)]
  refine wpc_look_bind ?_
  generalize readRangeAndFindEmpty E mem src index data.length = found at hfound hinvalid hempty
  by_cases happ : Appendable E mem src
  · have hinv := hinvalid.mpr happ
    rw [hinv, hempty hinv, hfound]
    have hstays : ∀ mem₁, Memory.DiffersIn (E.slotAddr src (logLength E mem src))
        (E.getPageEnd src) mem mem₁ → updateActivePage E mem₁ = ⟨src, dst⟩ := fun mem₁ hd ↦ by
      rw [← hpages]
      exact updateActivePage_of_differsIn hsrc
        (hd.mono (slotAddr_le_iff.mpr (Nat.zero_le _)) le_rfl)
    refine wpc_bind (frozen_swapUnless E ⟨src, dst⟩ index data)
      (wpc_andThen_true (wpc_writeRangeChanged hsrc happ ?_ ?_ ?_ ?_))
    · -- nothing differs
      intro hnil
      refine wpc_pure ⟨⟨hpages, hsrc, hsane⟩, ?_⟩
      rw [putView_of_batch_eq_nil hput hnil, view_eq_of_active (by rw [hpages])]
    · -- the batch is appended
      intro _ hfits hacc
      have hsel := hstays _ ((appended_differsIn E mem src index data).mono le_rfl (by
        rw [batchEnd, ← E.slotAddr_slotCount hsrc]
        exact slotAddr_le_iff.mpr hfits.1))
      have hact : (updateActivePage E (appended E mem src index data)).activePage = src := by
        rw [hsel]
      refine wpc_pure ⟨⟨hsel, hsrc, Sane.of_active hact (log_appended_sane hput hfits hlog)⟩, ?_⟩
      rw [view_eq_of_active hact, putView, if_pos ⟨happ, hfits, hacc⟩]
    · intro _ hnot n mem₁ hd
      exact hswap mem₁ (log_of_differsIn happ hd)
        (hstays _ (hd.mono (slotAddr_le_iff.mpr (Nat.le_succ _)) le_rfl)) (fun hc ↦ hnot hc.2) n
    · intro b mem' hd hcut
      have hsel := hstays _ hd
      have hact : (updateActivePage E mem').activePage = src := by rw [hsel]
      rcases hcut with hsame | ⟨hfits, hacc, rfl⟩ | hhalf
      · refine Or.inr ⟨Sane.of_active hact (by rwa [hsame]), Or.inl ?_⟩
        rw [view_eq_of_active hact, contents_congr hsame]
      · refine Or.inr ⟨Sane.of_active hact (log_appended_sane hput hfits hlog), Or.inr ?_⟩
        rw [view_eq_of_active hact, putView, if_pos ⟨happ, hfits, hacc⟩]
      · exact Or.inl hhalf
  · have hinv : found.hasInvalidRecords = true := by
      rw [← Bool.not_eq_false]
      exact fun hc ↦ happ (hinvalid.mp hc)
    rw [hinv]
    refine wpc_bind (frozen_swapUnless E ⟨src, dst⟩ index data) (wpc_pure ?_)
    exact hswap mem rfl hpages (fun hc ↦ happ hc.1) 0

/-! ## Clearing -/

/-- Both pages are active: a swap was cut just before it could retire its source. -/
def BothActive (E : Layout) (mem : Memory) : Prop :=
  readPageStatus E mem .page1 = PageHeader.active ∧ readPageStatus E mem .page2 = PageHeader.active

/-- Contents whose active page has no records have no cells. -/
theorem view_of_log_eq_nil (h : (updateActivePage E mem).activePage = page)
    (hlog : log E mem page = []) : Sane E mem ∧ view E mem = erasedCells := by
  refine ⟨Sane.of_active h (by simp [hlog]), ?_⟩
  rw [view_eq_of_active h, contents_of_log_eq_nil hlog]

theorem view_of_noPage (h : (updateActivePage E mem).activePage = .noPage) :
    Sane E mem ∧ view E mem = erasedCells := view_of_log_eq_nil h (log_noPage E mem)

theorem updateActivePage_page1 (h : readPageStatus E mem .page1 = PageHeader.active) :
    updateActivePage E mem = ⟨.page1, .page2⟩ := if_pos h

theorem updateActivePage_noPage (h1 : readPageStatus E mem .page1 ≠ PageHeader.active)
    (h2 : readPageStatus E mem .page2 ≠ PageHeader.active) :
    updateActivePage E mem = ⟨.noPage, .noPage⟩ := by
  rw [updateActivePage, if_neg h1, if_neg h2]

theorem readPageStatus_of_erased (hp : page ≠ .noPage)
    (h : mem.Erased (E.getPageBegin page) (E.getPageEnd page)) :
    readPageStatus E mem page ≠ PageHeader.active := by
  have hle := getPageBegin_add_le E hp
  refine readPageStatus_ne_active ?_
  rw [h _ le_rfl (by omega)]
  decide

theorem frozen_clear : Frozen (clear E) :=
  (frozen_erasePage E _).bind fun _ ↦ (frozen_erasePage E _).bind fun _ ↦
    (frozen_writePageStatus E _ _).bind fun _ ↦ frozen_look _

/-- Whatever is written to the header of the first of two erased pages, there are no cells. -/
theorem view_of_erased (h1 : mem.Erased (E.getPageBegin .page1) (E.getPageEnd .page1))
    (h2 : mem.Erased (E.getPageBegin .page2) (E.getPageEnd .page2)) {bs : List UInt8}
    (hbs : bs.length ≤ 4) : Sane E (mem.program (E.getPageBegin .page1) bs) ∧
      view E (mem.program (E.getPageBegin .page1) bs) = erasedCells := by
  have hle1 := getPageBegin_add_le E (show LogicalPage.page1 ≠ LogicalPage.noPage by decide)
  have hz1 := slotAddr_zero E .page1
  have hapart := E.apart_pages
  have hd := mem.program_differsIn (E.getPageBegin .page1) bs
  have hs1 : Memory.Erased (E.slotAddr .page1 0) (E.getPageEnd .page1)
      (mem.program (E.getPageBegin .page1) bs) :=
    hd.erased (h1.mono (by omega) le_rfl) (Or.inr (by omega))
  by_cases hact : readPageStatus E (mem.program (E.getPageBegin .page1) bs) .page1 =
      PageHeader.active
  · exact view_of_log_eq_nil (by rw [updateActivePage_page1 hact]) (log_of_erased (by decide) hs1)
  · have hle2 := getPageBegin_add_le E (show LogicalPage.page2 ≠ LogicalPage.noPage by decide)
    have hsel := updateActivePage_noPage hact (readPageStatus_of_erased (by decide)
      (hd.erased h2 (by omega)))
    exact view_of_noPage (by rw [hsel])

/-- When the first page is erased, the cells of the second one are left, or none. -/
theorem view_of_erased_page1 (hsane : Sane E mem) (hnot : ¬ BothActive E mem)
    (hd : Memory.DiffersIn (E.getPageBegin .page1) (E.getPageEnd .page1) mem mem')
    (herased : mem'.Erased (E.getPageBegin .page1) (E.getPageEnd .page1)) :
    Sane E mem' ∧ (view E mem' = view E mem ∨ view E mem' = erasedCells) := by
  have hapart := E.apart_pages
  have hz2 := slotAddr_zero E .page2
  have hle2 := getPageBegin_add_le E (show LogicalPage.page2 ≠ LogicalPage.noPage by decide)
  have hstatus₁ : readPageStatus E mem' .page1 ≠ PageHeader.active :=
    readPageStatus_of_erased (by decide) herased
  have hstatus₂ : readPageStatus E mem' .page2 = readPageStatus E mem .page2 :=
    readPageStatus_congr fun x h1 h2 ↦ hd x (by omega)
  by_cases h2 : readPageStatus E mem .page2 = PageHeader.active
  · have h1 : readPageStatus E mem .page1 ≠ PageHeader.active := fun h1 ↦ hnot ⟨h1, h2⟩
    -- the second page is the active one, and is still there
    have hsel : updateActivePage E mem = ⟨.page2, .page1⟩ :=
      updateActivePage_eq (by decide) (by decide) (by decide) h2 h1
    have hsel' : updateActivePage E mem' = ⟨.page2, .page1⟩ :=
      updateActivePage_eq (by decide) (by decide) (by decide) (hstatus₂.trans h2) hstatus₁
    have hlog : log E mem' .page2 = log E mem .page2 :=
      log_congr_page (by decide) fun x h1 h2 ↦ hd x (by omega)
    have hkept := view_congr (by rw [hsel]) (by rw [hsel']) hlog
    exact ⟨hkept.2 hsane, Or.inl hkept.1⟩
  · have hsel : updateActivePage E mem' = ⟨.noPage, .noPage⟩ :=
      updateActivePage_noPage hstatus₁ (by rwa [hstatus₂])
    exact (view_of_noPage (by rw [hsel])).imp_right Or.inr

/-- **Clearing.** The only point at which neither the old cells nor none are left is between the
two erasures, when the second page is a stale active one. -/
theorem wpc_clear (hsane : Sane E mem) :
    wpc (clear E)
      (fun pages' _ mem' ↦ Ready E pages' mem' ∧ view E mem' = erasedCells)
      (fun b mem' ↦ (b = 1 ∧ BothActive E mem) ∨
        (Sane E mem' ∧ (view E mem' = view E mem ∨ view E mem' = erasedCells))) mem := by
  have hle1 := getPageBegin_add_le E (show LogicalPage.page1 ≠ LogicalPage.noPage by decide)
  have hapart := E.apart_pages
  set mem₁ := mem.erase (E.getPageBegin .page1) (E.getPageEnd .page1) with hmem₁
  have hd₁ := mem.erase_differsIn (E.getPageBegin .page1) (E.getPageEnd .page1)
  rw [← hmem₁] at hd₁
  have herased₁ : mem₁.Erased (E.getPageBegin .page1) (E.getPageEnd .page1) :=
    mem.erase_erased _ _
  set mem₂ := mem₁.erase (E.getPageBegin .page2) (E.getPageEnd .page2) with hmem₂
  have hd₂ := mem₁.erase_differsIn (E.getPageBegin .page2) (E.getPageEnd .page2)
  rw [← hmem₂] at hd₂
  have herased₂ : mem₂.Erased (E.getPageBegin .page2) (E.getPageEnd .page2) :=
    mem₁.erase_erased _ _
  have herased₁₂ : mem₂.Erased (E.getPageBegin .page1) (E.getPageEnd .page1) :=
    hd₂.erased herased₁ (by omega)
  refine wpc_bind (fun _ ↦ (frozen_erasePage E _).bind fun _ ↦
    (frozen_writePageStatus E _ _).bind fun _ ↦ frozen_look _) (wpc_erasePage ?_ ?_)
  · refine wpc_bind (fun _ ↦ (frozen_writePageStatus E _ _).bind fun _ ↦ frozen_look _)
      (wpc_erasePage ?_ ?_)
    · refine wpc_bind (fun _ ↦ frozen_look _) (wpc_writePageStatus ?_ fun t _ _ ↦ Or.inr ?_)
      · have hact : readPageStatus E (mem₂.program (E.getPageBegin .page1)
            (PageHeader.toBytes PageHeader.active)) .page1 = PageHeader.active := by
          rw [readPageStatus_eq_active_iff, Memory.bytes_program,
            Memory.bytes_of_erased (herased₁₂.mono le_rfl (by omega))]
          decide
        have hlength : (PageHeader.toBytes PageHeader.active).length ≤ 4 := by simp
        obtain ⟨h1, h2⟩ := view_of_erased herased₁₂ herased₂ hlength
        refine wpc_look ⟨⟨rfl, ?_, h1⟩, h2⟩
        rw [updateActivePage_page1 hact]
        decide
      · exact (view_of_erased herased₁₂ herased₂ (by rw [List.length_take]; simp)).imp_right
          Or.inr
    · have hlength : ([] : List UInt8).length ≤ 4 := Nat.zero_le 4
      have hempty := view_of_erased herased₁₂ herased₂ hlength
      rw [Memory.program_nil] at hempty
      exact Or.inr (hempty.imp_right Or.inr)
  · by_cases hboth : BothActive E mem
    · exact Or.inl ⟨rfl, hboth⟩
    · exact Or.inr (view_of_erased_page1 hsane hboth hd₁ herased₁)

/-! ## Initializing and erasing the old page -/

theorem frozen_init : Frozen (init E) :=
  (frozen_look _).bind fun _ ↦ .ite frozen_clear (frozen_pure _)

/-- **Initializing** changes no cell, cut or not. -/
theorem wpc_init (hsane : Sane E mem) :
    wpc (init E)
      (fun pages' _ mem' ↦ Ready E pages' mem' ∧ view E mem' = view E mem)
      (fun _ mem' ↦ Sane E mem' ∧ view E mem' = view E mem) mem := by
  refine wpc_look_bind ?_
  by_cases h : (updateActivePage E mem).activePage = .noPage
  · rw [if_pos h]
    have hview : view E mem = erasedCells := (view_of_noPage h).2
    rw [hview]
    refine wpc_mono (wpc_clear hsane) (fun _ _ _ h ↦ h) fun b mem' hcut ↦ ?_
    rcases hcut with ⟨-, hboth, -⟩ | ⟨hs, hv⟩
    · rw [updateActivePage_page1 hboth] at h
      exact absurd h (by decide)
    · exact ⟨hs, hv.elim (fun h ↦ h.trans hview) id⟩
  · rw [if_neg h]
    exact wpc_pure ⟨⟨rfl, h, hsane⟩, rfl⟩

theorem frozen_performPendingErase (pages : Pages) : Frozen (performPendingErase E pages) :=
  (frozen_look _).bind fun _ ↦ .ite (frozen_erasePage E _) (frozen_pure _)

/-- **Erasing the old page** changes no cell, cut or not. -/
theorem wpc_performPendingErase (hready : Ready E pages mem) :
    wpc (performPendingErase E pages)
      (fun _ _ mem' ↦ Ready E pages mem' ∧ view E mem' = view E mem)
      (fun _ mem' ↦ Ready E pages mem' ∧ view E mem' = view E mem) mem := by
  obtain ⟨src, dst⟩ := pages
  obtain ⟨hpages, hsrc, hsane⟩ := hready
  change src ≠ .noPage at hsrc
  obtain ⟨hdst, hne, hactive⟩ := updateActivePage_spec hpages hsrc
  have hapart := getPageEnd_le_or E hsrc hdst hne
  have hsrcle := getPageBegin_add_le E hsrc
  have herase : Ready E ⟨src, dst⟩ (mem.erase (E.getPageBegin dst) (E.getPageEnd dst)) ∧
      view E (mem.erase (E.getPageBegin dst) (E.getPageEnd dst)) = view E mem := by
    have hd := mem.erase_differsIn (E.getPageBegin dst) (E.getPageEnd dst)
    have hact : readPageStatus E (mem.erase (E.getPageBegin dst) (E.getPageEnd dst)) src =
        PageHeader.active := by
      rw [← hactive]
      exact readPageStatus_congr fun x h1 h2 ↦ hd x (by omega)
    have hsel := updateActivePage_eq hsrc hdst hne hact
      (readPageStatus_of_erased hdst (mem.erase_erased _ _))
    have hlog : log E (mem.erase (E.getPageBegin dst) (E.getPageEnd dst)) src = log E mem src :=
      log_congr_page hsrc fun x h1 h2 ↦ hd x (by omega)
    have hkept := view_congr (by rw [hpages]) (by rw [hsel]) hlog
    exact ⟨⟨hsel, hsrc, hkept.2 hsane⟩, hkept.1⟩
  refine wpc_look_bind ?_
  rw [getPendingErasePage]
  by_cases hpending : readPageStatus E mem dst ≠ PageHeader.erased
  · rw [if_pos hpending, if_pos hdst]
    exact wpc_erasePage herase herase
  · rw [if_neg hpending, if_neg (fun h ↦ h rfl)]
    exact wpc_pure ⟨⟨hpages, hsrc, hsane⟩, rfl⟩

end DuoFirmware.EEPROMEmulation
