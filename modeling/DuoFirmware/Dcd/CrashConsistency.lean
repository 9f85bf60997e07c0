import DuoFirmware.Dcd.Rewrite

/-!
# Crash consistency of the device configuration data

Between operations one sector is current, and the other one either does not count or is the sector
before it: complete, with the preceding counter, and perhaps with a seal that is still valid because
power failed before it was downgraded. Before the first operation neither sector counts and the
image is erased. `Holds` says this for an image; every step of a read or a write keeps it, for the
old image up to the last byte of the new sector's header and for the new image from there on.
-/

namespace DuoFirmware.DCD

open NorFlash FlashM

variable {D : Config} {mem mem' : Memory} {s : Sector} {c : ℕ} {image : List UInt8}

/-! ## Choosing the current sector -/

/-- `s` is a complete sector with a valid seal, and the other one does not compete with it. -/
structure Current (D : Config) (mem : Memory) (s : Sector) (c : ℕ) (image : List UInt8) :
    Prop where
  complete : Complete D mem s c image
  sealed : sealOf D mem s = Header.sealValid
  other : Unsealed D mem (alternateSectorTo s) ∨
    ∃ c' image', Complete D mem (alternateSectorTo s) c' image' ∧ (c' + 1) % 4 = c ∧
      (sealOf D mem (alternateSectorTo s) = Header.sealValid ∨
        sealOf D mem (alternateSectorTo s) = Header.sealInvalidV2)

theorem isValid_eq_false (h : Unsealed D mem s) : (sectorHeader D mem s).isValid = false := by
  rw [Header.isValid, decide_eq_false_iff_not]
  rintro ⟨-, hc | hc⟩
  · exact h.1 hc
  · exact h.2 hc

theorem Complete.isValid (h : Complete D mem s c image)
    (hseal : sealOf D mem s = Header.sealValid ∨ sealOf D mem s = Header.sealInvalidV2) :
    (sectorHeader D mem s).isValid = true := by
  rw [Header.isValid, decide_eq_true_eq]
  exact ⟨h.header, hseal⟩

theorem findValidSector_eq (h : (sectorHeader D mem s).isValid = true)
    (h' : (sectorHeader D mem (alternateSectorTo s)).isValid = false) :
    findValidSector D mem = some s := by
  cases s
  · rw [findValidSector, if_pos h]
  · have h0 : (sectorHeader D mem .sector0).isValid = false := h'
    rw [findValidSector, h0, if_neg Bool.false_ne_true, if_pos h]

/-- With two valid headers the first sector is examined first. -/
theorem findValidSector_eq_sector0 (h : (sectorHeader D mem .sector0).isValid = true) :
    findValidSector D mem = some .sector0 := if_pos h

theorem currentSectorOf_eq {c' : ℕ} (h : (c' + 1) % 4 = c) (s : Sector) :
    currentSectorOf c c' s (alternateSectorTo s) = s ∧
      currentSectorOf c' c (alternateSectorTo s) s = s := by
  have hne : (c + 1) % 4 ≠ c' := by omega
  rw [currentSectorOf, currentSectorOf, if_neg hne, if_pos h, if_pos h]
  exact ⟨rfl, rfl⟩

/-- **The current sector is chosen**, whichever of the two it is. -/
theorem Current.currentSector_eq (h : Current D mem s c image) : currentSector D mem = some s := by
  have hvalid := h.complete.isValid (Or.inl h.sealed)
  have hcrc := h.complete.crc
  have hcounter := h.complete.counter
  have hseal : (sectorHeader D mem s).sealWord = Header.sealValid := h.sealed
  rcases h.other with hother | ⟨c', image', hother, hnext, hsealed⟩
  · -- the other sector does not count
    rw [currentSector, findValidSector_eq hvalid (isValid_eq_false hother)]
    simp only [Option.some.injEq]
    rw [evaluateSectors, if_neg hother.1, if_neg hother.2]
  · have hcrc' := hother.crc
    have hcounter' := hother.counter
    have hvalid' := hother.isValid hsealed
    obtain ⟨hnew, hnew'⟩ := currentSectorOf_eq hnext s
    cases s
    · -- the current sector is examined, the other one is the older
      rw [currentSector, findValidSector_eq_sector0 hvalid]
      simp only [Option.some.injEq]
      rcases hsealed with hs | hs
      · rw [evaluateSectors, if_pos hs, hcrc, hcrc', hcounter, hcounter', hnew]
        rfl
      · have hs' : (sectorHeader D mem (alternateSectorTo .sector0)).sealWord ≠
            Header.sealValid := by
          change sealOf D mem _ ≠ _
          rw [hs]
          decide
        rw [evaluateSectors, if_neg hs', if_pos hs, hcrc, if_pos rfl]
    · -- the other sector is examined, and the current one is its secondary
      rw [currentSector, findValidSector_eq_sector0 hvalid']
      simp only [Option.some.injEq]
      change evaluateSectors D mem (alternateSectorTo .sector1) .sector1
        (sectorHeader D mem .sector1).sealWord
        (sectorFooter D mem (alternateSectorTo .sector1)).counter
        (sectorFooter D mem .sector1).counter = .sector1
      rw [evaluateSectors, if_pos hseal, hcrc, hcrc', hcounter, hcounter', hnew']
      rfl

/-- The contents hold an image: it is that of the current sector, or no sector counts yet. -/
def Holds (D : Config) (mem : Memory) (image : List UInt8) : Prop :=
  (Unsealed D mem .sector0 ∧ Unsealed D mem .sector1 ∧ image = List.replicate D.length 0xFF) ∨
    ∃ s c, Current D mem s c image

theorem Unsealed.congr (h : Unsealed D mem s)
    (hkept : ∀ x, D.addressOf s ≤ x → x < D.addressOf s + D.sectorSize → mem' x = mem x) :
    Unsealed D mem' s := by
  rwa [Unsealed, sealOf_congr hkept]

/-- No sector counts in blank flash. -/
theorem holds_blank (D : Config) : Holds D .blank (List.replicate D.length 0xFF) :=
  Or.inl ⟨unsealed_of_erased fun _ _ _ ↦ rfl, unsealed_of_erased fun _ _ _ ↦ rfl, rfl⟩

/-! ## Finding or making the current sector -/

theorem frozen_currentValidSector (stack : Footer) : Frozen (currentValidSector D stack) := by
  refine (frozen_look _).bind fun current ↦ ?_
  cases current
  · exact (frozen_writeSector _ _ _ _ _).bind fun _ ↦ frozen_pure _
  · exact frozen_pure _

/-- After the first sector is made. -/
theorem current_of_initialized (h0 : Unsealed D mem .sector0)
    (honly : OnlySector D .sector1 mem mem') (hcomplete : Complete D mem' .sector1 c image)
    (hsealed : sealOf D mem' .sector1 = Header.sealValid) : Current D mem' .sector1 c image :=
  ⟨hcomplete, hsealed, Or.inl (h0.congr fun _ h1 h2 ↦ OnlySector.kept honly h1 h2)⟩

theorem wpc_currentValidSector (stack : Footer) (h : Holds D mem image) :
    wpc (currentValidSector D stack)
      (fun s _ mem' ↦ ∃ c, Current D mem' s c image ∧
        (currentSector D mem = some s ∨ (currentSector D mem = none ∧ s = .sector1)))
      (fun _ mem' ↦ Holds D mem' image) mem := by
  refine wpc_look_bind ?_
  rcases h with ⟨h0, h1, rfl⟩ | ⟨s, c, hcur⟩
  · have hnone : currentSector D mem = none := by
      rw [currentSector, findValidSector, isValid_eq_false h0, isValid_eq_false h1]
      rfl
    rw [hnone]
    refine wpc_bind (fun _ ↦ frozen_pure _) (wpc_initializeSector stack
      (fun n mem' honly hcomplete hsealed ↦ wpc_pure
        ⟨0, current_of_initialized h0 honly hcomplete hsealed, Or.inr ⟨rfl, rfl⟩⟩) ?_)
    rintro n mem' ⟨honly, hun | ⟨hcomplete, hsealed⟩⟩
    · exact Or.inl ⟨h0.congr fun _ h1 h2 ↦ OnlySector.kept honly h1 h2, hun, rfl⟩
    · exact Or.inr ⟨_, _, current_of_initialized h0 honly hcomplete hsealed⟩
  · rw [hcur.currentSector_eq]
    exact wpc_pure ⟨c, hcur, Or.inl rfl⟩

/-! ## Downgrading the old sector -/

theorem bytes_of_sectorHeader {h : Header} (hw : h.watermark < 4294967296)
    (hs : h.sealWord < 4294967296) (hh : sectorHeader D mem s = h) :
    mem.bytes (D.addressOf s) 8 = h.toBytes := by
  rw [← hh] at hw hs
  rw [show 8 = 4 + 4 from rfl, Memory.bytes_add, (Memory.word32_eq_iff hw).mp rfl,
    (Memory.word32_eq_iff hs).mp rfl, ← hh]
  rfl

/-- The bytes of a valid header after some of those of an invalid one are written over it. -/
theorem bytes_downgraded (h : Complete D mem s c image)
    (hsealed : sealOf D mem s = Header.sealValid) (t : ℕ) :
    (mem.program (D.addressOf s) (Header.makeInvalid.toBytes.take t)).bytes (D.addressOf s) 8 =
      (List.range 8).map fun i ↦ Header.makeValid.toBytes[i]?.getD 0xFF &&&
        (Header.makeInvalid.toBytes.take t)[i]?.getD 0xFF := by
  have hheader : sectorHeader D mem s = Header.makeValid := by
    have h1 : (sectorHeader D mem s).watermark = watermark := by
      have := h.header
      rwa [Header.isHeader, decide_eq_true_eq] at this
    have h2 : (sectorHeader D mem s).sealWord = Header.sealValid := hsealed
    rw [Header.makeValid, ← h1, ← h2]
  rw [Memory.bytes_program, bytes_of_sectorHeader (by decide) (by decide) hheader]

/-- The sector stays complete under its new seal. -/
theorem complete_downgraded (h : Complete D mem s c image)
    (hsealed : sealOf D mem s = Header.sealValid) {t sealWord : ℕ} (ht : t ≤ 8)
    (hlt : sealWord < 4294967296)
    (heq : (Header.mk watermark sealWord).toBytes = (List.range 8).map fun i ↦
      Header.makeValid.toBytes[i]?.getD 0xFF &&&
        (Header.makeInvalid.toBytes.take t)[i]?.getD 0xFF) :
    sealOf D (mem.program (D.addressOf s) (Header.makeInvalid.toBytes.take t)) s = sealWord ∧
      Complete D (mem.program (D.addressOf s) (Header.makeInvalid.toBytes.take t)) s c
        image := by
  have hheader := sectorHeader_of_bytes (h := ⟨watermark, sealWord⟩)
    (show watermark < 4294967296 by decide) hlt ((bytes_downgraded h hsealed t).trans heq.symm)
  have hkept : ∀ x, D.addressOf s + 8 ≤ x → x < D.addressOf s + D.sectorSize →
      mem.program (D.addressOf s) (Header.makeInvalid.toBytes.take t) x = mem x :=
    fun x h1 _ ↦ Memory.program_apply_of_not_mem (Or.inr (by rw [List.length_take]; omega))
  refine ⟨by rw [sealOf, hheader], by rw [hheader]; exact decide_eq_true rfl, ?_, ?_, ?_⟩
  · rw [isCRCValid_congr hkept]
    exact h.crc
  · rw [sectorFooter_congr hkept]
    exact h.counter
  · rw [body_congr hkept]
    exact h.body

/-- The seal of a sector that is being downgraded goes from valid over none to invalid. -/
theorem wpc_writeHeader_makeInvalid {Q : ℤ → ℕ → Memory → Prop} {C : ℕ → Memory → Prop}
    (h : Complete D mem s c image) (hsealed : sealOf D mem s = Header.sealValid)
    (hQ : ∀ n mem', OnlySector D s mem mem' → Complete D mem' s c image →
      sealOf D mem' s = Header.sealInvalidV2 → Q 0 n mem')
    (hC : ∀ n mem', OnlySector D s mem mem' → (Unsealed D mem' s ∨ (Complete D mem' s c image ∧
      (sealOf D mem' s = Header.sealValid ∨ sealOf D mem' s = Header.sealInvalidV2))) →
      C n mem') :
    wpc (writeHeader D s Header.makeInvalid) Q C mem := by
  have hsize := D.size
  have honly : ∀ t, t ≤ 8 → OnlySector D s mem
      (mem.program (D.addressOf s) (Header.makeInvalid.toBytes.take t)) := fun t ht ↦
    (mem.program_differsIn _ _).mono le_rfl (by rw [List.length_take]; omega)
  have hend := complete_downgraded h hsealed le_rfl
    (show Header.sealInvalidV2 < 4294967296 by decide) (by decide)
  refine wpc_storeWrite (D.isValidRange_sector s (show 0 + 8 ≤ D.sectorSize by omega))
    (hQ _ _ (honly 8 le_rfl) hend.2 hend.1) fun t h1 h8 ↦ hC _ _ (honly t h8) ?_
  rw [Header.length_toBytes] at h8
  by_cases h5 : t ≤ 5
  · have hv := complete_downgraded h hsealed h8 (show Header.sealValid < 4294967296 by decide) (by
      obtain rfl | rfl | rfl | rfl | rfl : t = 1 ∨ t = 2 ∨ t = 3 ∨ t = 4 ∨ t = 5 := by omega
      all_goals decide)
    exact Or.inr ⟨hv.2, Or.inl hv.1⟩
  · obtain rfl | rfl | rfl : t = 6 ∨ t = 7 ∨ t = 8 := by omega
    · have hv := complete_downgraded h hsealed h8 (show 0xEDA10C00 < 4294967296 by decide)
        (by decide)
      exact Or.inl ⟨by rw [hv.1]; decide, by rw [hv.1]; decide⟩
    · have hv := complete_downgraded h hsealed h8 (show 0xEDA00C00 < 4294967296 by decide)
        (by decide)
      exact Or.inl ⟨by rw [hv.1]; decide, by rw [hv.1]; decide⟩
    · exact Or.inr ⟨hend.2, Or.inr hend.1⟩

/-! ## Writing -/

/-- The sector before the current one is complete and downgraded; `previous` is its image. -/
def Settled (D : Config) (mem : Memory) (s : Sector) (c : ℕ) (image previous : List UInt8) : Prop :=
  Complete D mem s c image ∧ sealOf D mem s = Header.sealValid ∧
    ∃ c', Complete D mem (alternateSectorTo s) c' previous ∧ (c' + 1) % 4 = c ∧
      sealOf D mem (alternateSectorTo s) = Header.sealInvalidV2

theorem Settled.current {previous : List UInt8} (h : Settled D mem s c image previous) :
    Current D mem s c image := by
  obtain ⟨hcomplete, hsealed, c', hprevious, hnext, hinvalid⟩ := h
  exact ⟨hcomplete, hsealed, Or.inr ⟨c', previous, hprevious, hnext, Or.inr hinvalid⟩⟩

/-- The rewritten sector counts from now on, next to the one it was made from. -/
theorem Complete.next {o : Sector} {image' : List UInt8} (h : Complete D mem s c image)
    (hsealed : sealOf D mem s = Header.sealValid ∨ sealOf D mem s = Header.sealInvalidV2)
    (ho : o = alternateSectorTo s) (hnew : Complete D mem o ((c + 1) % 4) image')
    (hvalid : sealOf D mem o = Header.sealValid) : Current D mem o ((c + 1) % 4) image' := by
  subst ho
  refine ⟨hnew, hvalid, Or.inr ⟨c, image, ?_⟩⟩
  rw [alternateSectorTo_alternateSectorTo]
  exact ⟨h, rfl, hsealed⟩

theorem frozen_write (stack : Footer) (offset : ℕ) (data : List UInt8) :
    Frozen (write D stack offset data) :=
  .ite (frozen_pure _) (.ite (frozen_pure _) (.ite (frozen_pure _)
    ((frozen_currentValidSector _).bind fun _ ↦
      frozen_checked (frozen_writeSector _ _ _ _ _) (frozen_storeWrite D _ _))))

theorem splice_nil {offset : ℕ} : splice image offset [] = image := by
  simp [splice]

/-- The sector that a write rewrites. -/
def writtenSector (D : Config) (mem : Memory) : Sector :=
  alternateSectorTo ((currentSector D mem).getD .sector1)

/-- **Writing.** The new image takes over with the last byte of the new sector's header. -/
theorem wpc_write (stack : Footer) {offset : ℕ} {data : List UInt8} (h : Holds D mem image)
    (hin : offset + data.length ≤ D.length) :
    wpc (write D stack offset data)
      (fun e _ mem' ↦ Holds D mem' (splice image offset data) ∧ (offset < D.length → e = 0) ∧
        (data ≠ [] → ∃ c, Settled D mem' (writtenSector D mem) c (splice image offset data) image))
      (fun _ mem' ↦ Holds D mem' image ∨ Holds D mem' (splice image offset data)) mem := by
  have hlen := D.length_add
  have hstore := D.addressable
  have hsector := D.inStore1
  rw [write]
  by_cases hempty : data = []
  · subst hempty
    rw [splice_nil]
    by_cases hoff : offset ≥ D.length
    · rw [if_pos hoff]
      exact wpc_pure ⟨h, fun hc ↦ by omega, fun hc ↦ absurd rfl hc⟩
    · rw [if_neg hoff, if_neg (by simp only [List.length_nil]; omega), if_pos List.length_nil]
      exact wpc_pure ⟨h, fun _ ↦ rfl, fun hc ↦ absurd rfl hc⟩
  have hpos : 0 < data.length := List.length_pos_of_ne_nil hempty
  rw [if_neg (by omega), if_neg (by omega), if_neg (by omega)]
  refine wpc_bind (fun _ ↦ frozen_checked (frozen_writeSector _ _ _ _ _) (frozen_storeWrite D _ _))
    (wpc_mono (wpc_currentValidSector stack h) ?_ fun n mem' h ↦ Or.inl h)
  rintro s n₁ mem₁ ⟨c, hcur, hsel⟩
  have hwritten : writtenSector D mem = alternateSectorTo s := by
    rcases hsel with hsel | ⟨hsel, rfl⟩ <;> rw [writtenSector, hsel] <;> rfl
  rw [hwritten]
  -- while the other sector is rewritten the current one stays
  have hkept : ∀ mem', OnlySector D (alternateSectorTo s) mem₁ mem' →
      Complete D mem' s c image ∧ sealOf D mem' s = Header.sealValid := fun mem' honly ↦
    ⟨hcur.complete.congr fun x h1 h2 ↦ honly.kept h1 h2, by
      rw [sealOf_congr fun x h1 h2 ↦ honly.kept h1 h2, hcur.sealed]⟩
  refine wpc_checked (frozen_storeWrite D _ _) (wpc_writeSector stack hcur.complete hin ?_ ?_)
  · intro n₂ mem₂ honly hnew hvalid
    obtain ⟨hold, hsealed⟩ := hkept mem₂ honly
    -- while it is downgraded the new one stays
    have hkept' : ∀ mem', OnlySector D s mem₂ mem' →
        Complete D mem' (alternateSectorTo s) ((c + 1) % 4) (splice image offset data) ∧
          sealOf D mem' (alternateSectorTo s) = Header.sealValid := fun mem' honly' ↦ by
      have honly'' : OnlySector D (alternateSectorTo (alternateSectorTo s)) mem₂ mem' := by
        rwa [alternateSectorTo_alternateSectorTo]
      exact ⟨hnew.congr fun x h1 h2 ↦ honly''.kept h1 h2, by
        rw [sealOf_congr fun x h1 h2 ↦ honly''.kept h1 h2, hvalid]⟩
    refine ⟨rfl, wpc_writeHeader_makeInvalid hold hsealed ?_ ?_⟩
    · intro n₃ mem₃ honly' hold' hinvalid
      obtain ⟨hnew', hvalid'⟩ := hkept' mem₃ honly'
      have hsettled : Settled D mem₃ (alternateSectorTo s) ((c + 1) % 4)
          (splice image offset data) image :=
        ⟨hnew', hvalid', c, by rwa [alternateSectorTo_alternateSectorTo], rfl, by
          rwa [alternateSectorTo_alternateSectorTo]⟩
      exact ⟨Or.inr ⟨_, _, hsettled.current⟩, fun _ ↦ rfl, fun _ ↦ ⟨_, hsettled⟩⟩
    · intro n₃ mem₃ honly' hstate
      obtain ⟨hnew', hvalid'⟩ := hkept' mem₃ honly'
      refine Or.inr (Or.inr ⟨alternateSectorTo s, (c + 1) % 4, ?_⟩)
      rcases hstate with hun | ⟨hold', hseal⟩
      · exact ⟨hnew', hvalid', Or.inl (by rwa [alternateSectorTo_alternateSectorTo])⟩
      · exact hold'.next hseal rfl hnew' hvalid'
  · rintro n₂ mem₂ ⟨honly, hun | ⟨hnew, hvalid⟩⟩
    · obtain ⟨hold, hsealed⟩ := hkept mem₂ honly
      exact Or.inl (Or.inr ⟨s, c, hold, hsealed, Or.inl hun⟩)
    · obtain ⟨hold, hsealed⟩ := hkept mem₂ honly
      exact Or.inr (Or.inr ⟨_, _, hold.next (Or.inl hsealed) rfl hnew hvalid⟩)

/-! ## Reading -/

theorem frozen_read (stack : Footer) (offset : ℕ) : Frozen (read D stack offset) :=
  (frozen_currentValidSector _).bind fun _ ↦ frozen_pure _

theorem wpc_read (stack : Footer) (offset : ℕ) (h : Holds D mem image) :
    wpc (read D stack offset)
      (fun a _ mem' ↦ Holds D mem' image ∧ (offset = 0 → mem'.bytes a D.length = image))
      (fun _ mem' ↦ Holds D mem' image) mem := by
  refine wpc_bind (fun _ ↦ frozen_pure _) (wpc_mono (wpc_currentValidSector stack h) ?_
    fun _ _ h ↦ h)
  rintro s n mem' ⟨c, hcur, -⟩
  refine wpc_pure ⟨Or.inr ⟨s, c, hcur⟩, ?_⟩
  rintro rfl
  exact hcur.complete.body

/-- The image a read returns: the data its pointer leads to. -/
def readImage (D : Config) (stack : Footer) (mem : Memory) : Option (List UInt8) :=
  (complete (read D stack 0) mem).map fun r ↦ r.2.bytes r.1 D.length

theorem readImage_eq (stack : Footer) (h : Holds D mem image) :
    readImage D stack mem = some image := by
  obtain ⟨a, _, mem', hrun, -, himage⟩ := (wpc_read stack 0 h).complete
  rw [readImage, hrun, Option.map_some, himage rfl]

/-! ## Runs -/

/-- What happens to a device: a read or a write, to its end or until power fails after so many
flash operations of it. The footer is what the call finds on its stack. -/
inductive Event where
  | read (stack : Footer) (offset : ℕ)
  | write (stack : Footer) (offset : ℕ) (data : List UInt8)
  | cutRead (stack : Footer) (offset : ℕ) (n : ℕ)
  | cutWrite (stack : Footer) (offset : ℕ) (data : List UInt8) (n : ℕ)

namespace Event

/-- The contents after an event. -/
def after (D : Config) (mem : Memory) : Event → Option Memory
  | read stack offset => (complete (DCD.read D stack offset) mem).map (·.2)
  | write stack offset data => (complete (DCD.write D stack offset data) mem).map (·.2)
  | cutRead stack offset n => some (cutAfter (DCD.read D stack offset) n mem)
  | cutWrite stack offset data n => some (cutAfter (DCD.write D stack offset data) n mem)

/-- The data written lies inside the image. -/
def InRange (D : Config) : Event → Prop
  | write _ offset data | cutWrite _ offset data _ => offset + data.length ≤ D.length
  | _ => True

/-- How an event may change the image. -/
def Explains (image image' : List UInt8) : Event → Prop
  | write _ offset data => image' = splice image offset data
  | cutWrite _ offset data _ => image' = image ∨ image' = splice image offset data
  | _ => image' = image

/-- A write that is not cut returns success, unless it starts behind the image. -/
def Succeeds (D : Config) (mem : Memory) : Event → Prop
  | write stack offset data =>
    offset < D.length → (complete (DCD.write D stack offset data) mem).map (·.1) = some 0
  | _ => True

end Event

/-- The contents after events one after the other. -/
def after (D : Config) : Memory → List Event → Option Memory
  | mem, [] => some mem
  | mem, e :: es => (e.after D mem).bind fun mem' ↦ after D mem' es

theorem after_append (es es' : List Event) (mem : Memory) :
    after D mem (es ++ es') = (after D mem es).bind fun mem' ↦ after D mem' es' := by
  induction es generalizing mem with
  | nil => rfl
  | cons e es ih =>
    rw [List.cons_append, after, after]
    cases e.after D mem with
    | none => rfl
    | some mem' => exact ih mem'

/-- One event. -/
theorem Event.after_spec {e : Event} (h : Holds D mem image) (he : e.InRange D) :
    ∃ mem' image', e.after D mem = some mem' ∧ Holds D mem' image' ∧ e.Explains image image' ∧
      e.Succeeds D mem := by
  cases e with
  | read stack offset =>
    obtain ⟨a, _, mem', hrun, h', -⟩ := (wpc_read stack offset h).complete
    exact ⟨mem', image, by rw [after, hrun]; rfl, h', rfl, trivial⟩
  | write stack offset data =>
    obtain ⟨e, _, mem', hrun, h', hok, -⟩ := (wpc_write stack h he).complete
    refine ⟨mem', splice image offset data, by rw [after, hrun]; rfl, h', rfl, fun hlt ↦ ?_⟩
    rw [hrun, Option.map_some, hok hlt]
  | cutRead stack offset n =>
    rcases (wpc_read stack offset h).cut (frozen_read _ _) n with
      ⟨-, heq⟩ | ⟨_, _, -, h', -⟩ | ⟨-, h'⟩
    · exact ⟨_, image, rfl, by rwa [heq], rfl, trivial⟩
    · exact ⟨_, image, rfl, h', rfl, trivial⟩
    · exact ⟨_, image, rfl, h', rfl, trivial⟩
  | cutWrite stack offset data n =>
    rcases (wpc_write stack h he).cut (frozen_write _ _ _) n with
      ⟨-, heq⟩ | ⟨_, _, -, h', -⟩ | ⟨-, h' | h'⟩
    · exact ⟨_, image, rfl, by rwa [heq], Or.inl rfl, trivial⟩
    · exact ⟨_, _, rfl, h', Or.inr rfl, trivial⟩
    · exact ⟨_, image, rfl, h', Or.inl rfl, trivial⟩
    · exact ⟨_, _, rfl, h', Or.inr rfl, trivial⟩

/-- A run of events keeps the invariant for some image. -/
theorem after_spec {es : List Event} (h : Holds D mem image) (hes : ∀ e ∈ es, e.InRange D) :
    ∃ mem' image', after D mem es = some mem' ∧ Holds D mem' image' := by
  induction es generalizing mem image with
  | nil => exact ⟨mem, image, rfl, h⟩
  | cons e es ih =>
    obtain ⟨mem₁, image₁, hafter, h₁, -⟩ := Event.after_spec h (hes e List.mem_cons_self)
    obtain ⟨mem', image', hrun, h'⟩ := ih h₁ fun e' he' ↦ hes e' (List.mem_cons_of_mem _ he')
    exact ⟨mem', image', by rw [after, hafter]; exact hrun, h'⟩

/-- **The device configuration data is crash consistent.** After any history of reads and writes,
cut or not, a read returns an image, which is erased in the beginning; and whatever happens next, a
read then returns the image that this event explains: the new one after a write that was carried
out, which reports success, the old or the new one after a write that was cut, and the old one
after a read, cut or not. -/
theorem readImage_after (D : Config) (es : List Event) (e : Event)
    (hes : ∀ e' ∈ es ++ [e], e'.InRange D) :
    (∀ stack, readImage D stack .blank = some (List.replicate D.length 0xFF)) ∧
    ∃ mem mem' image image', after D .blank es = some mem ∧ after D .blank (es ++ [e]) = some mem' ∧
      (∀ stack, readImage D stack mem = some image) ∧
      (∀ stack, readImage D stack mem' = some image') ∧
      e.Explains image image' ∧ e.Succeeds D mem := by
  refine ⟨fun stack ↦ readImage_eq stack (holds_blank D), ?_⟩
  obtain ⟨mem, image, hrun, h⟩ := after_spec (holds_blank D) fun e' he' ↦
    hes e' (List.mem_append_left _ he')
  obtain ⟨mem', image', hafter, h', hexplains, hok⟩ :=
    Event.after_spec h (hes e (List.mem_append_right _ (List.mem_singleton_self e)))
  refine ⟨mem, mem', image, image', hrun, ?_, fun stack ↦ readImage_eq stack h,
    fun stack ↦ readImage_eq stack h', hexplains, hok⟩
  rw [after_append, hrun]
  change (e.after D mem).bind (fun mem' ↦ after D mem' []) = some mem'
  rw [hafter]
  rfl

/-- Two sectors with eight bytes of data each, and a CRC that is always zero. -/
def eightBytes : Config where
  sectorSize := 48
  dcd1 := 0
  dcd2 := 48
  calculateCRC := fun _ ↦ 0
  storeBase := 0
  storeSize := 96
  size := by decide
  apart := by decide
  inStore1 := by decide
  inStore2 := by decide
  addressable := by decide

/-- A first write, a second one that is cut, and a third. -/
theorem readImage_after_eightBytes :
    let stack := readFooter .blank 0
    let es : List Event := [.write stack 0 [1, 2], .cutWrite stack 1 [3] 40]
    let e : Event := .write stack 6 [7, 8]
    ∃ mem mem' image image', after eightBytes .blank es = some mem ∧
      after eightBytes .blank (es ++ [e]) = some mem' ∧
      (∀ stack, readImage eightBytes stack mem = some image) ∧
      (∀ stack, readImage eightBytes stack mem' = some image') ∧
      e.Explains image image' ∧ e.Succeeds eightBytes mem := by
  intro stack es e
  refine (readImage_after eightBytes es e fun e' he ↦ ?_).2
  simp only [es, e, List.cons_append, List.nil_append, List.mem_cons, List.not_mem_nil,
    or_false] at he
  obtain rfl | rfl | rfl := he <;> simp only [Event.InRange] <;> decide

end DuoFirmware.DCD
