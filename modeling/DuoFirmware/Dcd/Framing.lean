import DuoFirmware.Dcd.CrashConsistency

/-!
# Bounds and framing of a write

A write checks its range with a 32-bit sum before it touches the flash. When the sum does not wrap,
a range that leaves the image is refused, and one that does not changes the image in this range
only, whatever the sectors held before. A sum that wraps around to the image passes the check: the
sector is rewritten, and success is reported.
-/

namespace DuoFirmware.DCD

open NorFlash FlashM

variable {D : Config} {mem mem' : Memory} {s : Sector} {c : ℕ} {image data : List UInt8}
  {offset : ℕ}

/-! ## The image of any contents -/

/-- The image that a read finds: that of the current sector, or an erased one. -/
def imageOf (D : Config) (mem : Memory) : List UInt8 :=
  match currentSector D mem with
  | some s => body D mem s
  | none => List.replicate D.length 0xFF

/-- A sector with the data of the image is found, or made. -/
def Located (D : Config) (mem : Memory) (s : Sector) (mem' : Memory) : Prop :=
  body D mem' s = imageOf D mem ∧
    (sealOf D mem' s = Header.sealValid ∨ sealOf D mem' s = Header.sealInvalidV2)

theorem sealOf_of_isValid (h : (sectorHeader D mem s).isValid = true) :
    sealOf D mem s = Header.sealValid ∨ sealOf D mem s = Header.sealInvalidV2 := by
  rw [Header.isValid, decide_eq_true_eq] at h
  exact h.2

theorem isValid_of_findValidSector (h : findValidSector D mem = some s) :
    (sectorHeader D mem s).isValid = true := by
  rw [findValidSector] at h
  split at h
  · rename_i hvalid
    rwa [← Option.some.inj h]
  · split at h
    · rename_i hvalid
      rwa [← Option.some.inj h]
    · cases h

theorem eq_or_eq_alternate (s t : Sector) : t = s ∨ t = alternateSectorTo s := by
  cases s <;> cases t <;> simp [alternateSectorTo]

/-- One of the two sectors is chosen, and the other one only if its seal counts. -/
theorem evaluateSectors_cases (mem : Memory) (s : Sector) (count0 count1 : ℕ) :
    evaluateSectors D mem s (alternateSectorTo s) (sealOf D mem (alternateSectorTo s)) count0
        count1 = s ∨
      sealOf D mem (alternateSectorTo s) = Header.sealValid ∨
      sealOf D mem (alternateSectorTo s) = Header.sealInvalidV2 := by
  by_cases hvalid : sealOf D mem (alternateSectorTo s) = Header.sealValid
  · exact Or.inr (Or.inl hvalid)
  · by_cases hinvalid : sealOf D mem (alternateSectorTo s) = Header.sealInvalidV2
    · exact Or.inr (Or.inr hinvalid)
    · rw [evaluateSectors, if_neg hvalid, if_neg hinvalid]
      exact Or.inl rfl

/-- The current sector has one of the seals that count. -/
theorem sealOf_of_currentSector (h : currentSector D mem = some s) :
    sealOf D mem s = Header.sealValid ∨ sealOf D mem s = Header.sealInvalidV2 := by
  rcases hfind : findValidSector D mem with _ | primary
  · rw [currentSector, hfind] at h
    cases h
  · have hprimary := sealOf_of_isValid (isValid_of_findValidSector hfind)
    rw [currentSector, hfind] at h
    simp only [Option.some.injEq] at h
    rcases eq_or_eq_alternate primary s with rfl | rfl
    · exact hprimary
    · rcases evaluateSectors_cases mem primary (sectorFooter D mem primary).counter
        (sectorFooter D mem (alternateSectorTo primary)).counter with hsame | hseal
      · rw [hsame] at h
        rwa [← h]
      · exact hseal

theorem wpc_currentValidSector_located (stack : Footer) (mem : Memory) :
    wpc (currentValidSector D stack) (fun s _ mem' ↦ Located D mem s mem') (fun _ _ ↦ True)
      mem := by
  refine wpc_look_bind ?_
  rcases hcur : currentSector D mem with _ | s
  · refine wpc_bind (fun _ ↦ frozen_pure _) (wpc_initializeSector stack
      (fun n mem' _ hcomplete hsealed ↦ wpc_pure ⟨?_, Or.inl hsealed⟩) fun _ _ _ ↦ trivial)
    rw [imageOf, hcur]
    exact hcomplete.body
  · refine wpc_pure ⟨?_, sealOf_of_currentSector hcur⟩
    rw [imageOf, hcur]

/-- **Reading** returns the image, whatever the sectors hold. -/
theorem readImage_eq_imageOf (D : Config) (stack : Footer) (mem : Memory) :
    readImage D stack mem = some (imageOf D mem) := by
  have hread : wpc (read D stack 0) (fun a _ mem' ↦ mem'.bytes a D.length = imageOf D mem)
      (fun _ _ ↦ True) mem :=
    wpc_bind (fun _ ↦ frozen_pure _) (wpc_mono (wpc_currentValidSector_located stack mem)
      (fun s n mem' h ↦ wpc_pure h.1) fun _ _ _ ↦ trivial)
  obtain ⟨a, _, mem', hrun, himage⟩ := hread.complete
  rw [readImage, hrun, Option.map_some, himage]

/-! ## Writing inside the image -/

/-- Downgrading a sector leaves it with the seal of an older one. -/
theorem sealOf_makeInvalid
    (h : sealOf D mem s = Header.sealValid ∨ sealOf D mem s = Header.sealInvalidV2) :
    sealOf D (mem.program (D.addressOf s) Header.makeInvalid.toBytes) s = Header.sealInvalidV2 := by
  have hbytes : mem.bytes (D.addressOf s + 4) 4 = le32 (sealOf D mem s) :=
    (Memory.word32_eq_iff (by rcases h with h | h <;> rw [h] <;> decide)).mp rfl
  have hkept : (mem.program (D.addressOf s) (le32 watermark)).bytes (D.addressOf s + 4) 4 =
      le32 (sealOf D mem s) := by
    rw [← hbytes]
    exact Memory.bytes_congr fun x h1 _ ↦
      Memory.program_apply_of_not_mem (Or.inr (by rwa [length_le32]))
  refine (Memory.word32_eq_iff (by decide)).mpr ?_
  have hsplit : Header.makeInvalid.toBytes = le32 watermark ++ le32 Header.sealInvalidV2 := rfl
  rw [hsplit, Memory.program_append, length_le32, Memory.bytes_program, hkept]
  rcases h with h | h <;> rw [h] <;> decide

/-- **The rewritten sector is chosen**: the other one is marked as older, and its counter is the one
before if it can be trusted. -/
theorem currentSector_of_rewritten (hnew : Complete D mem s c image)
    (hvalid : sealOf D mem s = Header.sealValid)
    (hold : sealOf D mem (alternateSectorTo s) = Header.sealInvalidV2)
    (hcounter : isCRCValid D mem (alternateSectorTo s) = true →
      ((sectorFooter D mem (alternateSectorTo s)).counter + 1) % 4 = c) :
    currentSector D mem = some s := by
  have hheader := hnew.isValid (Or.inl hvalid)
  have hne : sealOf D mem (alternateSectorTo s) ≠ Header.sealValid := by
    rw [hold]
    decide
  -- the older sector is consulted only if the rewritten one is damaged
  have hsecondary : ∀ count0 count1, evaluateSectors D mem s (alternateSectorTo s)
      (sealOf D mem (alternateSectorTo s)) count0 count1 = s := fun _ _ ↦ by
    rw [evaluateSectors, if_neg hne, if_pos hold, hnew.crc, if_pos rfl]
  cases s with
  | sector0 =>
    rw [currentSector, findValidSector_eq_sector0 hheader]
    exact congrArg some (hsecondary _ _)
  | sector1 =>
    by_cases hprimary : (sectorHeader D mem .sector0).isValid = true
    · -- the older sector is examined first
      rw [currentSector, findValidSector_eq_sector0 hprimary]
      refine congrArg some ?_
      change evaluateSectors D mem .sector0 .sector1 (sealOf D mem .sector1)
        (sectorFooter D mem .sector0).counter (sectorFooter D mem .sector1).counter = .sector1
      rw [evaluateSectors, if_pos hvalid, hnew.crc]
      rcases hcrc : isCRCValid D mem .sector0 with _ | _
      · rfl
      · have hnext : ((sectorFooter D mem .sector0).counter + 1) % 4 = c := hcounter hcrc
        rw [hnew.counter, currentSectorOf, if_pos hnext]
        rfl
    · rw [currentSector, findValidSector_eq hheader (Bool.eq_false_iff.mpr hprimary)]
      exact congrArg some (hsecondary _ _)

/-- The counter of a footer that can be trusted. -/
theorem nextCounter_of_isCRCValid (h : isCRCValid D mem s = true) :
    ((sectorFooter D mem s).counter + 1) % 4 =
      nextCounter (validFooter D mem (some (D.addressOf s))) := by
  have hvalid : (sectorFooter D mem s).isValid = true := by
    rw [isCRCValid] at h
    by_contra hc
    rw [if_neg hc] at h
    exact Bool.false_ne_true h
  have hfooter : validFooter D mem (some (D.addressOf s)) = some (sectorFooter D mem s) :=
    if_pos hvalid
  rw [hfooter, nextCounter]

/-- **Downgrading** the old sector leaves everything else as it is, and the rewritten one is
chosen. -/
theorem imageOf_downgraded {mem₁ mem₂ : Memory}
    (honly : OnlySector D (alternateSectorTo s) mem₁ mem₂)
    (hseal : sealOf D mem₁ s = Header.sealValid ∨ sealOf D mem₁ s = Header.sealInvalidV2)
    (hnew : Complete D mem₂ (alternateSectorTo s)
      (nextCounter (validFooter D mem₁ (some (D.addressOf s)))) image)
    (hvalid : sealOf D mem₂ (alternateSectorTo s) = Header.sealValid) :
    imageOf D (mem₂.program (D.addressOf s) Header.makeInvalid.toBytes) = image := by
  have hsize := D.size
  have hkept : ∀ x, D.addressOf s ≤ x → x < D.addressOf s + D.sectorSize → mem₂ x = mem₁ x :=
    fun x h1 h2 ↦ honly.kept h1 h2
  have hold : sealOf D (mem₂.program (D.addressOf s) Header.makeInvalid.toBytes) s =
      Header.sealInvalidV2 := sealOf_makeInvalid (by rwa [sealOf_congr hkept])
  generalize hmem : mem₂.program (D.addressOf s) Header.makeInvalid.toBytes = mem₃ at hold ⊢
  have hheader : OnlySector D s mem₂ mem₃ := by
    rw [← hmem]
    exact (mem₂.program_differsIn _ _).mono le_rfl (by rw [Header.length_toBytes]; omega)
  have hapart : ∀ x, D.addressOf (alternateSectorTo s) ≤ x →
      x < D.addressOf (alternateSectorTo s) + D.sectorSize → mem₃ x = mem₂ x := fun x h1 h2 ↦
    OnlySector.kept (by rwa [alternateSectorTo_alternateSectorTo]) h1 h2
  have hbehind : ∀ x, D.addressOf s + 8 ≤ x → x < D.addressOf s + D.sectorSize →
      mem₃ x = mem₁ x := by
    intro x h1 h2
    rw [← hkept x (by omega) h2, ← hmem]
    exact Memory.program_apply_of_not_mem (Or.inr (by rwa [Header.length_toBytes]))
  have hnew₃ := hnew.congr hapart
  have hvalid₃ : sealOf D mem₃ (alternateSectorTo s) = Header.sealValid := by
    rwa [sealOf_congr hapart]
  have hcurrent : currentSector D mem₃ = some (alternateSectorTo s) := by
    refine currentSector_of_rewritten hnew₃ hvalid₃ ?_ ?_ <;>
      rw [alternateSectorTo_alternateSectorTo]
    · exact hold
    · intro hcrc
      rw [isCRCValid_congr hbehind] at hcrc
      rw [sectorFooter_congr hbehind, nextCounter_of_isCRCValid hcrc]
  rw [imageOf, hcurrent]
  exact hnew₃.body

/-- **Writing** some data in the image replaces it there. -/
theorem wpc_write_imageOf (stack : Footer) (mem : Memory) (hpos : data ≠ [])
    (hin : offset + data.length ≤ D.length) :
    wpc (write D stack offset data)
      (fun e _ mem' ↦ e = 0 ∧ imageOf D mem' = splice (imageOf D mem) offset data)
      (fun _ _ ↦ True) mem := by
  have hlen := D.length_add
  have hstore := D.addressable
  have hsector := D.inStore1
  have hpos := List.length_pos_of_ne_nil hpos
  rw [write, if_neg (by omega), if_neg (by omega), if_neg (by omega)]
  refine wpc_bind (fun _ ↦ frozen_checked (frozen_writeSector _ _ _ _ _) (frozen_storeWrite D _ _))
    (wpc_mono (wpc_currentValidSector_located stack mem) ?_ fun _ _ _ ↦ trivial)
  rintro s n₁ mem₁ ⟨himage, hseal⟩
  refine wpc_checked (frozen_storeWrite D _ _) (wpc_writeSector_body stack hin ?_
    fun _ _ _ ↦ trivial)
  intro n₂ mem₂ honly hnew hvalid
  refine ⟨rfl, wpc_storeWrite (D.isValidRange_sector s (show 0 + 8 ≤ D.sectorSize by omega))
    ⟨rfl, ?_⟩ fun _ _ _ ↦ trivial⟩
  rw [imageOf_downgraded honly hseal hnew hvalid, himage]

/-! ## Writing across the end of the address space -/

/-- While power lasts, the program reports success. -/
def Succeeds (m : FlashM ℤ) : Prop := ∀ mem, ∃ n mem', Runs m mem 0 n mem'

theorem succeeds_pure : Succeeds (pure 0) := fun mem ↦ ⟨0, mem, runs_pure 0 mem⟩

theorem runs_checked {m rest : FlashM ℤ} {n k : ℕ} {mem mem₁ mem₂ : Memory} {e : ℤ}
    (h : Runs m mem 0 n mem₁) (h' : Runs rest mem₁ e k mem₂) :
    Runs (checked m rest) mem e (n + k) mem₂ :=
  Runs.bind h (by rwa [if_neg (by simp)])

theorem stops_checked {m rest : FlashM ℤ} {n k : ℕ} {mem mem₁ mem₂ : Memory}
    (h : Runs m mem 0 n mem₁) (h' : Stops rest mem₁ k mem₂) :
    Stops (checked m rest) mem (n + k) mem₂ :=
  Runs.stops_bind h (by rwa [if_neg (by simp)])

theorem Succeeds.checked {m rest : FlashM ℤ} (hm : Succeeds m) (hrest : Succeeds rest) :
    Succeeds (checked m rest) := by
  intro mem
  obtain ⟨n, mem₁, h₁⟩ := hm mem
  obtain ⟨k, mem₂, h₂⟩ := hrest mem₁
  exact ⟨n + k, mem₂, runs_checked h₁ h₂⟩

theorem Succeeds.look_bind {α : Type} {g : Memory → α} {f : α → FlashM ℤ}
    (h : ∀ a, Succeeds (f a)) : Succeeds (look g >>= f) := by
  intro mem
  obtain ⟨n, mem', hrun⟩ := h (g mem) mem
  exact ⟨n, mem', runs_look_bind hrun⟩

theorem succeeds_storeWrite {a : ℕ} {bs : List UInt8}
    (h : D.isValidRange a bs.length = true) : Succeeds (storeWrite D a bs) := by
  intro mem
  have hrun : Runs (storeWrite D a bs) mem 0 (bs.length + 0) (mem.program a bs) := by
    rw [storeWrite, if_pos h]
    exact (runs_programBytes mem a bs).bind (runs_pure 0 _)
  exact ⟨_, _, hrun⟩

theorem succeeds_storeCopy {a source n : ℕ} (h : D.isValidRange a n = true) :
    Succeeds (storeCopy D a source n) := by
  intro mem
  have hlength : D.isValidRange a (mem.bytes source n).length = true := by
    rwa [Memory.length_bytes]
  exact succeeds_storeWrite hlength mem

/-- While power lasts, the sector is erased. -/
theorem runs_erase (D : Config) (s : Sector) (mem : Memory) : ∃ n mem',
    Runs (erase D s) mem 0 n mem' ∧
      mem'.Erased (D.addressOf s) (D.addressOf s + D.sectorSize) ∧ OnlySector D s mem mem' := by
  by_cases h : requiresErase D mem (D.addressOf s) = true
  · have hrange : D.isValidRange (D.addressOf s) 0 = true :=
      D.isValidRange_sector s (show 0 + 0 ≤ D.sectorSize from Nat.zero_le _)
    have hrun : Runs (eraseSector D (D.addressOf s)) mem 0 (1 + 0)
        (mem.erase (D.addressOf s) (D.addressOf s + D.sectorSize)) := by
      rw [eraseSector, if_pos hrange]
      exact (runs_step _ mem).bind (runs_pure 0 _)
    exact ⟨_, _, runs_look_bind (by rwa [if_pos h]), mem.erase_erased _ _,
      mem.erase_differsIn _ _⟩
  · exact ⟨0, mem, runs_look_bind (by rw [if_neg h]; exact runs_pure 0 mem),
      requiresErase_eq_false (by simpa using h), .refl _ _ _⟩

theorem succeeds_erase (s : Sector) : Succeeds (erase D s) := by
  intro mem
  obtain ⟨n, mem', hrun, -⟩ := runs_erase D s mem
  exact ⟨n, mem', hrun⟩

theorem succeeds_finishSector (stack : Footer) (existing : Option ℕ) (s : Sector) :
    Succeeds (finishSector D stack existing s) := by
  have hsize := D.size
  refine Succeeds.checked (Succeeds.look_bind fun _ ↦ succeeds_storeWrite ?_)
    (Succeeds.checked (Succeeds.look_bind fun _ ↦ succeeds_storeWrite ?_)
      (succeeds_storeWrite ?_))
  · rw [Footer.length_toBytes]
    exact D.isValidRange_sector s (by rw [Config.footerOffset]; omega)
  · rw [length_le32]
    exact D.isValidRange_sector s (by omega)
  · rw [Header.length_toBytes]
    exact D.isValidRange_sector s (show 0 + 8 ≤ D.sectorSize by omega)

/-- The length wraps, and the sum of offset and length lies in the image again. -/
structure Wraps (D : Config) (offset length : ℕ) : Prop where
  offset_lt : offset < D.length
  overflow : 4294967296 ≤ offset + length
  wrapped_le : (offset + length) % 4294967296 ≤ D.length

instance (D : Config) (offset length : ℕ) : Decidable (Wraps D offset length) :=
  decidable_of_iff (offset < D.length ∧ 4294967296 ≤ offset + length ∧
      (offset + length) % 4294967296 ≤ D.length)
    ⟨fun ⟨h1, h2, h3⟩ ↦ ⟨h1, h2, h3⟩, fun ⟨h1, h2, h3⟩ ↦ ⟨h1, h2, h3⟩⟩

/-- A range that wraps is taken for one that ends before it starts. -/
theorem Wraps.succeeds_writeSector (h : Wraps D offset data.length) (stack : Footer)
    (address : ℕ) (s : Sector) :
    Succeeds (writeSector D stack offset data (some address) s) := by
  have hlen := D.length_add
  have hstore := D.addressable
  have hsector := D.addressOf_inStore s
  obtain ⟨hoff, hover, hwrapped⟩ := h
  have hafter : (8 + offset + data.length) % 4294967296 =
      8 + (offset + data.length) % 4294967296 := by omega
  have hrange : D.isValidRange (D.addressOf s + (8 + offset)) data.length = true := by
    rw [Config.isValidRange, decide_eq_true_eq]
    omega
  simp only [writeSector, Option.isSome_some, if_true, hafter]
  refine (succeeds_erase s).checked (Succeeds.checked (succeeds_storeCopy ?_)
    (Succeeds.checked ?_ (Succeeds.checked (succeeds_storeCopy ?_)
      (succeeds_finishSector stack _ s))))
  · exact D.isValidRange_sector s (by omega)
  · rw [if_pos (by omega)]
    exact succeeds_storeWrite hrange
  · exact D.isValidRange_sector s (by omega)

theorem succeeds_initializeSector (stack : Footer) (s : Sector) :
    Succeeds (initializeSector D stack s) :=
  (succeeds_erase s).checked (succeeds_pure.checked (succeeds_pure.checked
    (succeeds_pure.checked (succeeds_finishSector stack none s))))

/-- **A write that wraps** goes through, whatever the sectors held before. -/
theorem Wraps.succeeds_write (h : Wraps D offset data.length) (stack : Footer) :
    Succeeds (write D stack offset data) := by
  have hlen := D.length_add
  have hstore := D.addressable
  have hsector := D.addressOf_inStore .sector0
  have hoff := h.offset_lt
  have hover := h.overflow
  have hwrapped := h.wrapped_le
  -- once a sector is found, it is rewritten and downgraded
  have hrest : ∀ s, Succeeds (checked (writeSector D stack offset data (some (D.addressOf s))
      (alternateSectorTo s)) (writeHeader D s Header.makeInvalid)) := fun s ↦
    (h.succeeds_writeSector stack _ _).checked (succeeds_storeWrite
      (D.isValidRange_sector s (show 0 + 8 ≤ D.sectorSize by omega)))
  rw [write, if_neg (by omega), if_neg (by omega), if_neg (by omega)]
  intro mem
  rcases hcur : currentSector D mem with _ | s
  · obtain ⟨n, mem₁, hinit⟩ := succeeds_initializeSector (D := D) stack .sector1 mem
    obtain ⟨k, mem₂, hrun⟩ := hrest .sector1 mem₁
    have hmade : Runs (currentValidSector D stack) mem .sector1 (n + 0) mem₁ := by
      refine runs_look_bind ?_
      rw [hcur]
      exact hinit.bind (runs_pure _ _)
    exact ⟨_, _, hmade.bind hrun⟩
  · obtain ⟨k, mem₂, hrun⟩ := hrest s mem
    have hfound : Runs (currentValidSector D stack) mem s 0 mem := by
      refine runs_look_bind ?_
      rw [hcur]
      exact runs_pure _ _
    exact ⟨_, _, hfound.bind hrun⟩

/-! ## Every write -/

/-- A write that leaves the image is refused without a change; one that succeeds changes the image
in its range only. -/
structure Framed (D : Config) (stack : Footer) (offset : ℕ) (data : List UInt8) (mem : Memory) :
    Prop where
  refused : D.length < offset + data.length →
    ∃ e, e ≠ 0 ∧ complete (write D stack offset data) mem = some (e, mem)
  framed : ∀ mem', complete (write D stack offset data) mem = some (0, mem') →
    ∃ image, (∀ stack', readImage D stack' mem = some image) ∧
      ∀ stack', readImage D stack' mem' = some (splice image offset data)

theorem not_framed_of_wraps (h : Wraps D offset data.length) (stack : Footer) (mem : Memory) :
    ¬ Framed D stack offset data mem := by
  intro hframed
  obtain ⟨n, mem', hrun⟩ := h.succeeds_write stack mem
  have hover := h.overflow
  have hlen := D.length_add
  have hstore := D.addressable
  have hsectors := D.inStore1
  obtain ⟨e, hne, herror⟩ := hframed.refused (by omega)
  rw [hrun.complete_eq] at herror
  exact hne (Prod.mk.inj (Option.some.inj herror)).1.symm

/-- **Bounds and framing.** A write is refused without a change when it leaves the image, and
changes the image in its range only when it succeeds, if and only if its length does not wrap around
into the image. -/
theorem framed_iff (D : Config) (stack : Footer) (offset : ℕ) (data : List UInt8) (mem : Memory) :
    Framed D stack offset data mem ↔ ¬ Wraps D offset data.length := by
  refine ⟨fun h hwraps ↦ not_framed_of_wraps hwraps stack mem h, fun h ↦ ?_⟩
  have hlen := D.length_add
  have hstore := D.addressable
  have hsector := D.addressOf_inStore .sector0
  have hrefused : D.length < offset + data.length →
      ∃ e, e ≠ 0 ∧ complete (write D stack offset data) mem = some (e, mem) := by
    intro hout
    by_cases hoff : offset ≥ D.length
    · refine ⟨1, by decide, ?_⟩
      rw [write, if_pos hoff]
      rfl
    · have hsum : (offset + data.length) % 4294967296 > D.length := by
        by_contra hc
        exact h ⟨by omega, by omega, by omega⟩
      refine ⟨2, by decide, ?_⟩
      rw [write, if_neg hoff, if_pos hsum]
      rfl
  refine ⟨hrefused, fun mem' hrun ↦ ⟨imageOf D mem, fun stack' ↦ readImage_eq_imageOf D stack' mem,
    fun stack' ↦ ?_⟩⟩
  rw [readImage_eq_imageOf]
  by_cases hin : offset + data.length ≤ D.length
  · by_cases hempty : data = []
    · -- nothing is written
      subst hempty
      rw [splice_nil]
      have hsame : complete (write D stack offset []) mem = some (0, mem') →
          mem' = mem := by
        rw [write]
        split
        · intro hc
          cases hc
        · rw [if_neg (by simp only [List.length_nil] at hin ⊢; omega), if_pos List.length_nil]
          intro hc
          exact (Prod.mk.inj (Option.some.inj hc)).2.symm
      rw [hsame hrun]
    · obtain ⟨e, _, mem₁, hrun', -, himage⟩ := (wpc_write_imageOf stack mem hempty hin).complete
      rw [hrun] at hrun'
      obtain ⟨-, rfl⟩ := Prod.mk.inj (Option.some.inj hrun')
      rw [himage]
  · obtain ⟨e, hne, herror⟩ := hrefused (by omega)
    rw [hrun] at herror
    exact absurd (Prod.mk.inj (Option.some.inj herror)).1.symm hne

/-- A length that wraps to the beginning of the image. -/
theorem not_framed_eightBytes :
    (List.replicate 4294967292 (0 : UInt8)).length = 4294967292 ∧
      ¬ Framed eightBytes (readFooter .blank 0) 4 (List.replicate 4294967292 0) .blank := by
  refine ⟨List.length_replicate, not_framed_of_wraps ?_ _ _⟩
  rw [List.length_replicate]
  decide

end DuoFirmware.DCD
