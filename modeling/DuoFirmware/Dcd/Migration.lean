import DuoFirmware.Dcd.Framing

/-!
# Migrating the old layout

`UpdateDCD::migrate` copies the data of the old layout, which starts at a higher offset of one of
the two sectors, to the other sector, and makes that one valid. As long as there is no valid sector
it starts again. Which sector has the old layout is told by two bytes of it; the other sector may
have them too when it is partly written, because its data comes to lie there.
-/

namespace DuoFirmware.DCD

open NorFlash FlashM

variable (D : Config)

/-- Where the data of the old layout starts. -/
def oldFormatOffset : ℕ := 7548

def isInitialized (mem : Memory) : Bool :=
  (sectorHeader D mem .sector1).isValid || (sectorHeader D mem .sector0).isValid

/-- Whether a sector has the old layout. -/
def isCurrent (mem : Memory) (s : Sector) : Bool :=
  mem (D.addressOf s + 8) = 0 ∧ mem (D.addressOf s + 9) = 1

/-- `initializeFromSector`, for the address of the old sector. -/
def initializeFromSector (stack : Footer) (oldSector : ℕ) (newSector : Sector) : FlashM Unit := do
  let data ← look fun mem ↦ mem.bytes (oldSector + oldFormatOffset) (D.sectorSize - oldFormatOffset)
  let _ ← writeSector D stack 0 data none newSector
  pure ()

/-- `migrate`. -/
def migrate (stack : Footer) : FlashM Unit := do
  let initialized ← look (isInitialized D)
  if initialized then pure ()
  else do
    let current0 ← look fun mem ↦ isCurrent D mem .sector0
    let current1 ← look fun mem ↦ isCurrent D mem .sector1
    if current0 then initializeFromSector D stack (D.addressOf .sector0) .sector1
    else if current1 then initializeFromSector D stack (D.addressOf .sector1) .sector0
    else pure ()

variable {D} {mem mem' mem₁ : Memory} {s : Sector}

/-! ## Copying a sector -/

/-- The data of the old layout. -/
def oldData (D : Config) (mem : Memory) (s : Sector) : List UInt8 :=
  mem.bytes (D.addressOf s + oldFormatOffset) (D.sectorSize - oldFormatOffset)

/-- The image that is made of it. -/
def migratedImage (D : Config) (mem : Memory) (s : Sector) : List UInt8 :=
  oldData D mem s ++ List.replicate (D.length - (D.sectorSize - oldFormatOffset)) 0xFF

/-- A sector that the copying may leave behind: its first two bytes of data are erased or copied. -/
def PartlyCopied (D : Config) (s : Sector) (mem mem' : Memory) : Prop :=
  Unsealed D mem' (alternateSectorTo s) ∧ ∀ i < 2,
    mem' (D.addressOf (alternateSectorTo s) + 8 + i) = 0xFF ∨
      mem' (D.addressOf (alternateSectorTo s) + 8 + i) = mem (D.addressOf s + oldFormatOffset + i)

/-- The sector is migrated. -/
def Migrated (D : Config) (s : Sector) (image : List UInt8) (mem' : Memory) : Prop :=
  Complete D mem' (alternateSectorTo s) 0 image ∧
    sealOf D mem' (alternateSectorTo s) = Header.sealValid

theorem length_oldData : (oldData D mem s).length = D.sectorSize - oldFormatOffset :=
  Memory.length_bytes _ _ _

theorem oldData_get {i : ℕ} (hi : i < D.sectorSize - oldFormatOffset) :
    (oldData D mem s)[i]? = some (mem (D.addressOf s + oldFormatOffset + i)) := by
  rw [oldData, Memory.bytes, List.getElem?_map, List.getElem?_range hi]
  rfl

theorem migratedImage_get {i : ℕ} (hi : i < D.sectorSize - oldFormatOffset) :
    (migratedImage D mem s)[i]? = some (mem (D.addressOf s + oldFormatOffset + i)) := by
  rw [migratedImage, List.getElem?_append_left (by rwa [length_oldData]), oldData_get hi]

theorem length_migratedImage (hsize : oldFormatOffset + 2 ≤ D.sectorSize) :
    (migratedImage D mem s).length = D.length := by
  have hlen := D.length_add
  rw [oldFormatOffset] at hsize
  rw [migratedImage, List.length_append, length_oldData, List.length_replicate, oldFormatOffset]
  omega

/-- What follows the data leaves its first bytes. -/
theorem leaves_finishSector (hsize : oldFormatOffset + 2 ≤ D.sectorSize) (stack : Footer)
    (existing : Option ℕ) : Leaves (D.addressOf s + 8) (D.addressOf s + 8 + 2)
      (finishSector D stack existing s) := by
  have hlen := D.length_add
  rw [oldFormatOffset] at hsize
  have hstore : ∀ (a : ℕ) (bs : List UInt8),
      a + bs.length ≤ D.addressOf s + 8 ∨ D.addressOf s + 8 + 2 ≤ a →
      Leaves (D.addressOf s + 8) (D.addressOf s + 8 + 2) (storeWrite D a bs) := fun a bs h ↦
    .ite ((leaves_programBytes h).bind fun _ ↦ .ite (leaves_pure _) (leaves_pure _)) (leaves_pure _)
  have hchecked : ∀ {m rest : FlashM ℤ}, Leaves (D.addressOf s + 8) (D.addressOf s + 8 + 2) m →
      Leaves (D.addressOf s + 8) (D.addressOf s + 8 + 2) rest →
      Leaves (D.addressOf s + 8) (D.addressOf s + 8 + 2) (checked m rest) := fun hm hrest ↦
    hm.bind fun _ ↦ .ite (leaves_pure _) hrest
  refine hchecked ((leaves_look _).bind fun _ ↦ hstore _ _ (Or.inr ?_))
    (hchecked ((leaves_look _).bind fun _ ↦ hstore _ _ (Or.inr ?_)) (hstore _ _ (Or.inl ?_)))
  · rw [Config.footerOffset]
    omega
  · omega
  · rw [Header.length_toBytes]

theorem partlyCopied_of_erased (hbounds : 8 + 2 ≤ D.sectorSize)
    (h : mem'.Erased (D.addressOf (alternateSectorTo s))
      (D.addressOf (alternateSectorTo s) + D.sectorSize)) : PartlyCopied D s mem mem' :=
  ⟨unsealed_of_erasedSector h, fun _ _ ↦ Or.inl (h _ (by omega) (by omega))⟩

/-- Some of the data is programmed into the erased sector. -/
theorem partlyCopied_program (hsize : oldFormatOffset + 2 ≤ D.sectorSize) (mem : Memory)
    (herased : mem₁.Erased (D.addressOf (alternateSectorTo s))
      (D.addressOf (alternateSectorTo s) + D.sectorSize)) (k : ℕ) :
    PartlyCopied D s mem
      (mem₁.program (D.addressOf (alternateSectorTo s) + 8) ((oldData D mem s).take k)) := by
  have hold : oldFormatOffset = 7548 := rfl
  refine ⟨unsealed_of_program herased le_rfl, fun i hi ↦ ?_⟩
  rw [Memory.program_apply, herased _ (by omega) (by omega), erased_and]
  rcases Nat.lt_or_ge i k with hik | hik
  · rw [List.getElem?_take_of_lt hik, oldData_get (by omega)]
    exact Or.inr rfl
  · rw [List.getElem?_eq_none ((List.length_take_le _ _).trans hik)]
    exact Or.inl rfl

theorem onlySector_program (hsize : oldFormatOffset + 2 ≤ D.sectorSize) (mem mem₁ : Memory)
    (s : Sector) (k : ℕ) : OnlySector D (alternateSectorTo s) mem₁
      (mem₁.program (D.addressOf (alternateSectorTo s) + 8) ((oldData D mem s).take k)) := by
  have hold : oldFormatOffset = 7548 := rfl
  refine (mem₁.program_differsIn _ _).mono (by omega) ?_
  rw [List.length_take, length_oldData]
  omega

/-- **Copying** the old layout makes the other sector valid with its last byte. -/
theorem wpc_initializeFromSector {Q : Unit → ℕ → Memory → Prop} {C : ℕ → Memory → Prop}
    (hsize : oldFormatOffset + 2 ≤ D.sectorSize) (stack : Footer)
    (hQ : ∀ n mem', OnlySector D (alternateSectorTo s) mem mem' →
      Migrated D s (migratedImage D mem s) mem' → Q () n mem')
    (hC : ∀ n mem', OnlySector D (alternateSectorTo s) mem mem' →
      PartlyCopied D s mem mem' ∨ Migrated D s (migratedImage D mem s) mem' → C n mem') :
    wpc (initializeFromSector D stack (D.addressOf s) (alternateSectorTo s)) Q C mem := by
  have hlen := D.length_add
  have himage : (migratedImage D mem s).length = D.length := length_migratedImage hsize
  have hold : oldFormatOffset = 7548 := rfl
  have hdata : (oldData D mem s).length = D.sectorSize - oldFormatOffset := length_oldData
  refine wpc_look_bind ?_
  change wpc (writeSector D stack 0 (oldData D mem s) none (alternateSectorTo s) >>= _) Q C mem
  refine wpc_bind (fun _ ↦ frozen_pure _) ?_
  have f₅ := frozen_finishSector (D := D) stack none (alternateSectorTo s)
  have f₄ := frozen_checked (frozen_pure 0) f₅
  have f₃ := frozen_checked (Frozen.ite (c := (oldData D mem s).length ≠ 0)
    (frozen_storeWrite D (D.addressOf (alternateSectorTo s) + (8 + 0)) (oldData D mem s))
    (frozen_pure 0)) f₄
  have f₂ := frozen_checked (frozen_pure 0) f₃
  refine wpc_checked f₂ (wpc_erase (fun n₁ mem₁ herased honly ↦ ⟨rfl, ?_⟩) fun n mem' h1 h2 ↦ ?_)
  · refine wpc_checked f₃ (wpc_pure ⟨rfl, ?_⟩)
    refine wpc_checked f₄ ?_
    rw [if_pos (by omega)]
    have hrange : D.isValidRange (D.addressOf (alternateSectorTo s) + (8 + 0))
        (oldData D mem s).length = true := D.isValidRange_sector _ (by omega)
    refine wpc_storeWrite hrange ⟨rfl, ?_⟩ fun k _ _ ↦
      hC _ _ (honly.trans (onlySector_program hsize mem mem₁ s k))
        (Or.inl (partlyCopied_program hsize mem herased k))
    have honly₂ := honly.trans (onlySector_program hsize mem mem₁ s (oldData D mem s).length)
    obtain ⟨-, hbytes₂⟩ := partlyCopied_program hsize mem herased (oldData D mem s).length
    rw [List.take_length] at honly₂ hbytes₂
    -- the rest of the sector stays erased
    have hfill : FilledWith D (alternateSectorTo s) mem₁ (migratedImage D mem s)
        (mem₁.program (D.addressOf (alternateSectorTo s) + (8 + 0)) (oldData D mem s)) := by
      rw [FilledWith, migratedImage, Memory.program_append, Memory.program_replicate]
    refine wpc_checked f₅ (wpc_pure ⟨rfl, ?_⟩)
    refine wpc_mono (wpc.leaves (wpc_finishSector (Q := fun e _ mem' ↦ e = 0 ∧
        OnlySector D (alternateSectorTo s) mem mem' ∧ Migrated D s (migratedImage D mem s) mem')
      (C := fun _ mem' ↦ OnlySector D (alternateSectorTo s) mem mem' ∧
        (Unsealed D mem' (alternateSectorTo s) ∨ Migrated D s (migratedImage D mem s) mem'))
      herased himage hfill rfl (fun n mem' h1 h2 h3 ↦ ?_) fun n mem' h1 h2 ↦ ?_)
      (leaves_finishSector hsize stack none)) ?_ ?_
    · have hmigrated : Migrated D s (migratedImage D mem s) mem' := by
        refine ⟨?_, h3⟩
        rwa [counter_newFooter] at h2
      exact ⟨⟨rfl, honly.trans h1, hmigrated⟩, honly.trans h1, Or.inr hmigrated⟩
    · exact ⟨honly.trans h2, Or.inl h1⟩
    · rintro e n mem' ⟨⟨rfl, h1, h2⟩, -⟩
      exact wpc_pure (hQ _ _ h1 h2)
    · rintro n mem' ⟨⟨h1, hun | hmigrated⟩, hkept⟩
      · refine hC _ _ h1 (Or.inl ⟨hun, fun i hi ↦ ?_⟩)
        rw [hkept _ (by omega) (by omega)]
        exact hbytes₂ i hi
      · exact hC _ _ h1 (Or.inr hmigrated)
  · exact hC _ _ h2 (Or.inl (partlyCopied_of_erased (by omega) h1))

/-! ## Runs with power failures -/

theorem frozen_initializeFromSector (stack : Footer) (oldSector : ℕ) (newSector : Sector) :
    Frozen (initializeFromSector D stack oldSector newSector) :=
  (frozen_look _).bind fun _ ↦ (frozen_writeSector _ _ _ _ _).bind fun _ ↦ frozen_pure _

theorem frozen_migrate (stack : Footer) : Frozen (migrate D stack) :=
  (frozen_look _).bind fun _ ↦ .ite (frozen_pure _) ((frozen_look _).bind fun _ ↦
    (frozen_look _).bind fun _ ↦ .ite (frozen_initializeFromSector _ _ _)
      (.ite (frozen_initializeFromSector _ _ _) (frozen_pure _)))

theorem isInitialized_eq_false (h : (sectorHeader D mem s).isValid = false)
    (h' : (sectorHeader D mem (alternateSectorTo s)).isValid = false) :
    isInitialized D mem = false := by
  cases s
  · rw [isInitialized, h, Bool.or_false]
    exact h'
  · rw [isInitialized, h, Bool.false_or]
    exact h'

theorem isInitialized_of_isValid (h : (sectorHeader D mem s).isValid = true) :
    isInitialized D mem = true := by
  cases s <;> rw [isInitialized, h]
  · exact Bool.or_true _
  · exact Bool.true_or _

/-- The old layout is copied from a sector: it is asked for first, or the first one has not got
it. -/
def Source (D : Config) (mem : Memory) (s : Sector) : Prop :=
  isCurrent D mem s = true ∧ (s = .sector1 → isCurrent D mem .sector0 = false)

theorem migrate_run (h : (sectorHeader D mem s).isValid = false)
    (h' : (sectorHeader D mem (alternateSectorTo s)).isValid = false) (hsource : Source D mem s)
    (stack : Footer) (w : Option ℕ) : migrate D stack ⟨mem, w⟩ =
      initializeFromSector D stack (D.addressOf s) (alternateSectorTo s) ⟨mem, w⟩ := by
  change (if isInitialized D mem then pure () else _ : FlashM Unit) ⟨mem, w⟩ = _
  rw [isInitialized_eq_false h h', if_neg Bool.false_ne_true]
  change (if isCurrent D mem .sector0 then
      initializeFromSector D stack (D.addressOf .sector0) .sector1
    else if isCurrent D mem .sector1 then
      initializeFromSector D stack (D.addressOf .sector1) .sector0
    else pure ()) (⟨mem, w⟩ : Device) = _
  obtain ⟨hcurrent, hother⟩ := hsource
  cases s
  · rw [if_pos hcurrent]
    rfl
  · rw [hother rfl, if_neg Bool.false_ne_true, if_pos hcurrent]
    rfl

theorem migrate_initialized (h : isInitialized D mem = true) (stack : Footer) (w : Option ℕ) :
    migrate D stack ⟨mem, w⟩ = (pure () : FlashM Unit) ⟨mem, w⟩ := by
  change (if isInitialized D mem then pure () else _ : FlashM Unit) ⟨mem, w⟩ = _
  rw [if_pos h]

/-- The old sector starts with the two bytes that tell a sector of the old layout. -/
def StartsCurrent (D : Config) (mem : Memory) (s : Sector) : Prop :=
  mem (D.addressOf s + oldFormatOffset) = 0 ∧ mem (D.addressOf s + oldFormatOffset + 1) = 1

/-- Between two attempts: the old sector is untouched, and the other one is migrated, or it is not
valid and the old sector is still the source. -/
structure Migrating (D : Config) (mem₀ : Memory) (s : Sector) (mem : Memory) : Prop where
  kept : OnlySector D (alternateSectorTo s) mem₀ mem
  state : Migrated D s (migratedImage D mem₀ s) mem ∨
    ((sectorHeader D mem (alternateSectorTo s)).isValid = false ∧ Source D mem s)

variable {mem₀ : Memory}

theorem isCurrent_congr
    (h : ∀ x, D.addressOf s ≤ x → x < D.addressOf s + D.sectorSize → mem' x = mem x) :
    isCurrent D mem' s = isCurrent D mem s := by
  have hsize := D.size
  rw [isCurrent, isCurrent, h _ (by omega) (by omega), h _ (by omega) (by omega)]

theorem oldData_congr
    (h : ∀ x, D.addressOf s ≤ x → x < D.addressOf s + D.sectorSize → mem' x = mem x) :
    oldData D mem' s = oldData D mem s :=
  Memory.bytes_congr fun x h1 h2 ↦ h x (by omega) (by rw [oldFormatOffset] at *; omega)

theorem sectorHeader_kept (honly : OnlySector D (alternateSectorTo s) mem mem') :
    sectorHeader D mem' s = sectorHeader D mem s := by
  have hsize := D.size
  exact sectorHeader_congr fun x h1 h2 ↦ honly.kept h1 (by omega)

/-- A sector that is partly copied is no source itself, unless its data starts like one. -/
theorem PartlyCopied.source (h : PartlyCopied D s mem₀ mem) (hcurrent : isCurrent D mem s = true)
    (hstart : s = .sector1 → ¬ StartsCurrent D mem₀ s) : Source D mem s := by
  refine ⟨hcurrent, fun hs ↦ ?_⟩
  subst hs
  obtain ⟨-, hbytes⟩ := h
  rw [isCurrent, decide_eq_false_iff_not]
  rintro ⟨h0, h1⟩
  refine hstart rfl ⟨?_, ?_⟩
  · rcases hbytes 0 (by decide) with hb | hb
    · exact absurd (h0.symm.trans hb) (by decide)
    · exact hb.symm.trans h0
  · rcases hbytes 1 (by decide) with hb | hb
    · exact absurd (h1.symm.trans hb) (by decide)
    · exact hb.symm.trans h1

/-- **One attempt**, to its end or cut. -/
theorem wpc_migrate (hsize : oldFormatOffset + 2 ≤ D.sectorSize)
    (hinvalid : (sectorHeader D mem₀ s).isValid = false)
    (hcurrent : isCurrent D mem₀ s = true)
    (hstart : s = .sector1 → ¬ StartsCurrent D mem₀ s) (h : Migrating D mem₀ s mem)
    (stack : Footer) :
    wpc (migrate D stack)
      (fun _ _ mem' ↦ Migrating D mem₀ s mem' ∧ Migrated D s (migratedImage D mem₀ s) mem')
      (fun _ mem' ↦ Migrating D mem₀ s mem') mem := by
  obtain ⟨hkept, hmigrated | ⟨hother, hsource⟩⟩ := h
  · have hinit := isInitialized_of_isValid (hmigrated.1.isValid (Or.inl hmigrated.2))
    exact wpc_congr (migrate_initialized hinit stack)
      (wpc_pure ⟨⟨hkept, Or.inl hmigrated⟩, hmigrated⟩)
  · have hsame : ∀ mem', OnlySector D (alternateSectorTo s) mem₀ mem' →
        ∀ x, D.addressOf s ≤ x → x < D.addressOf s + D.sectorSize → mem' x = mem₀ x :=
      fun mem' h x h1 h2 ↦ OnlySector.kept h h1 h2
    have hheader : (sectorHeader D mem s).isValid = false := by
      rw [sectorHeader_kept hkept, hinvalid]
    have himage : migratedImage D mem s = migratedImage D mem₀ s := by
      rw [migratedImage, migratedImage, oldData_congr (hsame mem hkept)]
    refine wpc_congr (migrate_run hheader hother hsource stack)
      (wpc_initializeFromSector hsize stack (fun n mem' honly hdone ↦ ?_)
        fun n mem' honly hstate ↦ ?_)
    · rw [himage] at hdone
      exact ⟨⟨hkept.trans honly, Or.inl hdone⟩, hdone⟩
    · refine ⟨hkept.trans honly, ?_⟩
      rw [himage] at hstate
      rcases hstate with hpart | hdone
      · refine Or.inr ⟨isValid_eq_false hpart.1, ?_⟩
        have hpart₀ : PartlyCopied D s mem₀ mem' := by
          refine ⟨hpart.1, fun i hi ↦ ?_⟩
          have hbyte := hsame mem hkept (D.addressOf s + oldFormatOffset + i) (by omega) (by omega)
          rw [← hbyte]
          exact hpart.2 i hi
        refine hpart₀.source ?_ hstart
        rw [isCurrent_congr (hsame mem' (hkept.trans honly)), hcurrent]
      · exact Or.inl hdone

/-- The contents after attempts that were cut, each with what was on its stack and the number of
operations that it carried out. -/
def afterCuts (D : Config) : Memory → List (Footer × ℕ) → Memory
  | mem, [] => mem
  | mem, (stack, n) :: cuts => afterCuts D (cutAfter (migrate D stack) n mem) cuts

theorem Migrating.afterCuts (hsize : oldFormatOffset + 2 ≤ D.sectorSize)
    (hinvalid : (sectorHeader D mem₀ s).isValid = false)
    (hcurrent : isCurrent D mem₀ s = true)
    (hstart : s = .sector1 → ¬ StartsCurrent D mem₀ s) (cuts : List (Footer × ℕ))
    (h : Migrating D mem₀ s mem) : Migrating D mem₀ s (afterCuts D mem cuts) := by
  induction cuts generalizing mem with
  | nil => exact h
  | cons cut cuts ih =>
    obtain ⟨stack, n⟩ := cut
    refine ih ?_
    rcases (wpc_migrate hsize hinvalid hcurrent hstart h stack).cut (frozen_migrate _) n with
      ⟨-, heq⟩ | ⟨_, _, -, h', -⟩ | ⟨-, h'⟩
    · rwa [heq]
    · exact h'
    · exact h'

/-- The attempt that is not cut migrates the sector. -/
theorem Migrating.complete_afterCuts (hsize : oldFormatOffset + 2 ≤ D.sectorSize)
    (hinvalid : (sectorHeader D mem₀ s).isValid = false)
    (hcurrent : isCurrent D mem₀ s = true)
    (hstart : s = .sector1 → ¬ StartsCurrent D mem₀ s) (cuts : List (Footer × ℕ)) (stack : Footer)
    (h : Migrating D mem₀ s mem) : ∃ mem',
      complete (migrate D stack) (DCD.afterCuts D mem cuts) = some ((), mem') ∧
        OnlySector D (alternateSectorTo s) mem₀ mem' ∧
        Migrated D s (migratedImage D mem₀ s) mem' := by
  obtain ⟨⟨⟩, _, mem', hrun, hdone, hmigrated⟩ := (wpc_migrate hsize hinvalid hcurrent hstart
    (h.afterCuts hsize hinvalid hcurrent hstart cuts) stack).complete
  exact ⟨mem', hrun, hdone.kept, hmigrated⟩

/-! ## Reading the migrated data -/

/-- The byte that a read at a logical offset leads to. -/
def readByte (D : Config) (stack : Footer) (i : ℕ) (mem : Memory) : Option UInt8 :=
  (complete (read D stack i) mem).map fun r ↦ r.2 r.1

theorem readByte_of_currentSector (h : currentSector D mem = some s) (stack : Footer) (i : ℕ) :
    readByte D stack i mem = some (mem (D.addressOf s + 8 + i)) := by
  have hrun : complete (read D stack i) mem = some (D.addressOf s + 8 + i, mem) := by
    rw [read, currentValidSector, complete_look_bind_bind, h]
    rfl
  rw [readByte, hrun]
  rfl

/-- A sector that is not valid is preferred to a migrated one: it has the seal of a valid sector
behind a wrong watermark, and a CRC that holds with a later counter. -/
structure Shadows (D : Config) (mem : Memory) (s : Sector) : Prop where
  sealed : sealOf D mem s = Header.sealValid
  crc : isCRCValid D mem s = true
  counter : (sectorFooter D mem s).counter = 1

theorem Shadows.congr (h : Shadows D mem s)
    (hkept : ∀ x, D.addressOf s ≤ x → x < D.addressOf s + D.sectorSize → mem' x = mem x) :
    Shadows D mem' s := by
  obtain ⟨hsealed, hcrc, hcounter⟩ := h
  refine ⟨?_, ?_, ?_⟩
  · rwa [sealOf_congr hkept]
  · rwa [isCRCValid_congr fun x h1 h2 ↦ hkept x (by omega) h2]
  · rwa [sectorFooter_congr fun x h1 h2 ↦ hkept x (by omega) h2]

/-- **The migrated sector is chosen**, unless the old one shadows it. -/
theorem Migrated.currentSector_eq {image : List UInt8} (h : Migrated D s image mem)
    (hinvalid : (sectorHeader D mem s).isValid = false) :
    (¬ Shadows D mem s → currentSector D mem = some (alternateSectorTo s)) ∧
      (Shadows D mem s → currentSector D mem = some s) := by
  obtain ⟨hnew, hvalid⟩ := h
  have hfind : findValidSector D mem = some (alternateSectorTo s) :=
    findValidSector_eq (hnew.isValid (Or.inl hvalid))
      (by rwa [alternateSectorTo_alternateSectorTo])
  rw [currentSector, hfind]
  simp only [alternateSectorTo_alternateSectorTo, Option.some.injEq]
  rw [hnew.counter]
  change (_ → evaluateSectors D mem _ s (sealOf D mem s) 0 _ = _) ∧
    (_ → evaluateSectors D mem _ s (sealOf D mem s) 0 _ = _)
  constructor
  · intro hshadows
    rw [evaluateSectors, hnew.crc]
    by_cases hsealed : sealOf D mem s = Header.sealValid
    · rw [if_pos hsealed]
      rcases hcrc : isCRCValid D mem s with _ | _
      · rfl
      · have hcounter : ¬ (0 + 1) % 4 = (sectorFooter D mem s).counter := fun hc ↦
          hshadows ⟨hsealed, hcrc, hc.symm⟩
        simp only [Bool.xor_self, Bool.false_eq_true, if_false, if_true]
        rw [currentSectorOf, if_neg hcounter, ite_self]
    · rw [if_neg hsealed, if_pos rfl, ite_self]
  · rintro ⟨hsealed, hcrc, hcounter⟩
    rw [evaluateSectors, if_pos hsealed, hnew.crc, hcrc, hcounter]
    rfl

theorem Migrated.readByte_eq {image : List UInt8} (h : Migrated D s image mem)
    (hinvalid : (sectorHeader D mem s).isValid = false) (hshadows : ¬ Shadows D mem s)
    (stack : Footer) {i : ℕ} (hi : i < D.length) : readByte D stack i mem = image[i]? := by
  rw [readByte_of_currentSector ((h.currentSector_eq hinvalid).1 hshadows), ← h.1.body, body,
    Memory.bytes, List.getElem?_map, List.getElem?_range hi]
  rfl

/-! ## What survives -/

/-- After any attempts that were cut, and one that was not, a read finds the old data. -/
def Survives (D : Config) (mem : Memory) (s : Sector) : Prop :=
  ∀ (cuts : List (Footer × ℕ)) (stack : Footer), ∃ mem',
    complete (migrate D stack) (afterCuts D mem cuts) = some ((), mem') ∧
      ∀ stack' i, i < D.sectorSize - oldFormatOffset →
        readByte D stack' i mem' = some (mem (D.addressOf s + oldFormatOffset + i))

/-- An attempt that is cut after the first two bytes. -/
theorem stops_initializeFromSector (hsize : oldFormatOffset + 2 ≤ D.sectorSize) (stack : Footer)
    (mem : Memory) (s : Sector) : ∃ n mem₁,
      Stops (initializeFromSector D stack (D.addressOf s) (alternateSectorTo s)) mem n
        (mem₁.program (D.addressOf (alternateSectorTo s) + 8) ((oldData D mem s).take 2)) ∧
      mem₁.Erased (D.addressOf (alternateSectorTo s))
        (D.addressOf (alternateSectorTo s) + D.sectorSize) ∧
      OnlySector D (alternateSectorTo s) mem mem₁ := by
  have hold : oldFormatOffset = 7548 := rfl
  have hdata : (oldData D mem s).length = D.sectorSize - oldFormatOffset := length_oldData
  obtain ⟨n, mem₁, hrun, herased, honly⟩ := runs_erase D (alternateSectorTo s) mem
  refine ⟨n + (0 + 2), mem₁, ?_, herased, honly⟩
  have hrange : D.isValidRange (D.addressOf (alternateSectorTo s) + (8 + 0))
      (oldData D mem s).length = true := D.isValidRange_sector _ (by omega)
  have hstop : Stops (storeWrite D (D.addressOf (alternateSectorTo s) + (8 + 0)) (oldData D mem s))
      mem₁ 2
      (mem₁.program (D.addressOf (alternateSectorTo s) + 8) ((oldData D mem s).take 2)) := by
    rw [storeWrite, if_pos hrange]
    exact (stops_programBytes (by omega)).bind fun _ ↦ .ite (frozen_pure _) (frozen_pure _)
  have hrest : Stops (checked (if (oldData D mem s).length ≠ 0 then
        storeWrite D (D.addressOf (alternateSectorTo s) + (8 + 0)) (oldData D mem s) else pure 0)
      (checked (pure 0) (finishSector D stack none (alternateSectorTo s)))) mem₁ 2
      (mem₁.program (D.addressOf (alternateSectorTo s) + 8) ((oldData D mem s).take 2)) := by
    rw [if_pos (by omega)]
    exact hstop.bind fun _ ↦ .ite (frozen_pure _)
      (frozen_checked (frozen_pure 0) (frozen_finishSector _ _ _))
  have hwrite : Stops (writeSector D stack 0 (oldData D mem s) none (alternateSectorTo s)) mem
      (n + (0 + 2))
      (mem₁.program (D.addressOf (alternateSectorTo s) + 8) ((oldData D mem s).take 2)) :=
    stops_checked hrun (stops_checked (runs_pure 0 mem₁) hrest)
  exact stops_look_bind (f := fun data ↦
    writeSector D stack 0 data none (alternateSectorTo s) >>= fun _ ↦ pure ())
    (hwrite.bind fun _ ↦ frozen_pure _)

/-- Contents in which the first sector is taken for one of the old layout, although it holds no more
than two bytes of the data. -/
structure Misled (D : Config) (mem : Memory) : Prop where
  current : isCurrent D mem .sector0 = true
  unsealed : Unsealed D mem .sector0
  header : (sectorHeader D mem .sector1).isValid = false
  erased : mem (D.addressOf .sector0 + oldFormatOffset) = 0xFF

theorem misled_program (hsize : oldFormatOffset + 2 ≤ D.sectorSize)
    (hinvalid : (sectorHeader D mem .sector1).isValid = false)
    (herased : mem₁.Erased (D.addressOf .sector0) (D.addressOf .sector0 + D.sectorSize))
    (honly : OnlySector D .sector0 mem mem₁) :
    Misled D (mem₁.program (D.addressOf .sector0 + 8) [0, 1]) := by
  have hold : oldFormatOffset = 7548 := rfl
  have hbyte : ∀ i ≤ 7540,
      mem₁.program (D.addressOf .sector0 + 8) [0, 1] (D.addressOf .sector0 + 8 + i) =
        ([0, 1] : List UInt8)[i]?.getD 0xFF := fun i hi ↦ by
    rw [Memory.program_apply, herased _ (by omega) (by omega), erased_and]
  refine ⟨?_, unsealed_of_program herased le_rfl, ?_, hbyte 7540 (by omega)⟩
  · rw [isCurrent, decide_eq_true_eq]
    exact ⟨hbyte 0 (by omega), hbyte 1 (by omega)⟩
  · have hprogram : OnlySector D .sector0 mem₁
        (mem₁.program (D.addressOf .sector0 + 8) [0, 1]) :=
      (mem₁.program_differsIn _ _).mono (by omega)
        (by simp only [List.length_cons, List.length_nil]; omega)
    have hkept : OnlySector D (alternateSectorTo .sector1) mem
        (mem₁.program (D.addressOf .sector0 + 8) [0, 1]) := honly.trans hprogram
    rw [sectorHeader_kept hkept, hinvalid]

/-- An attempt that is cut misleads the next one, if the data in the second sector starts like a
sector of the old layout. -/
theorem exists_misled (hsize : oldFormatOffset + 2 ≤ D.sectorSize)
    (hinvalid : ∀ s, (sectorHeader D mem s).isValid = false)
    (hcurrent : isCurrent D mem .sector1 = true) (hother : isCurrent D mem .sector0 = false)
    (hstart : StartsCurrent D mem .sector1) (stack : Footer) :
    ∃ n, Misled D (cutAfter (migrate D stack) n mem) := by
  have hold : oldFormatOffset = 7548 := rfl
  obtain ⟨n, mem₁, hstops, herased, honly⟩ := stops_initializeFromSector hsize stack mem .sector1
  have htake : (oldData D mem .sector1).take 2 = [0, 1] := by
    obtain ⟨h0, h1⟩ := hstart
    rw [oldData, Memory.bytes_take _ _ (by omega), Memory.bytes_succ, Memory.bytes_succ, h0, h1]
    rfl
  rw [htake] at hstops
  refine ⟨n, ?_⟩
  rw [cutAfter, migrate_run (hinvalid _) (hinvalid _) ⟨hcurrent, fun _ ↦ hother⟩, hstops]
  exact misled_program hsize (hinvalid _) herased honly

/-- The next attempt copies the first sector, and a read finds erased data. -/
theorem Misled.readByte_zero (h : Misled D mem) (hsize : oldFormatOffset + 2 ≤ D.sectorSize)
    (stack : Footer) : ∃ mem', complete (migrate D stack) mem = some ((), mem') ∧
      readByte D stack 0 mem' = some 0xFF := by
  have hlen := D.length_add
  have hold : oldFormatOffset = 7548 := rfl
  have hmigrating : Migrating D mem .sector0 mem :=
    ⟨.refl _ _ _, Or.inr ⟨h.header, h.current, fun hc ↦ by cases hc⟩⟩
  obtain ⟨mem', hrun, honly, hmigrated⟩ := hmigrating.complete_afterCuts hsize
    (isValid_eq_false h.unsealed) h.current (fun hc ↦ by cases hc) [] stack
  refine ⟨mem', hrun, ?_⟩
  have hunsealed : Unsealed D mem' .sector0 := h.unsealed.congr fun x h1 h2 ↦ honly.kept h1 h2
  rw [hmigrated.readByte_eq (isValid_eq_false hunsealed) (fun hc ↦ hunsealed.1 hc.sealed) stack
    (show 0 < D.length by omega), migratedImage_get (by omega), Nat.add_zero, h.erased]

/-- **The old data is lost** when it lies in the second sector and starts like a sector of the old
layout: cut after two bytes, the first sector is taken for the old one, and the second is erased. -/
theorem not_survives (hsize : oldFormatOffset + 2 ≤ D.sectorSize)
    (hinvalid : ∀ s, (sectorHeader D mem s).isValid = false)
    (hcurrent : isCurrent D mem .sector1 = true) (hother : isCurrent D mem .sector0 = false)
    (hstart : StartsCurrent D mem .sector1) : ¬ Survives D mem .sector1 := by
  intro hsurvives
  let stack : Footer := readFooter .blank 0
  obtain ⟨n, hmisled⟩ := exists_misled hsize hinvalid hcurrent hother hstart stack
  obtain ⟨mem₁, hrun₁, herased⟩ := hmisled.readByte_zero hsize stack
  obtain ⟨mem', hrun, hfound⟩ := hsurvives [(stack, n)] stack
  rw [afterCuts, afterCuts, hrun₁] at hrun
  obtain ⟨-, rfl⟩ := Prod.mk.inj (Option.some.inj hrun)
  -- the first byte of the data
  have hzero : mem (D.addressOf .sector1 + oldFormatOffset + 0) = 0 := hstart.1
  rw [hfound stack 0 (by omega), hzero] at herased
  exact absurd (Option.some.inj herased) (by decide)

/-- **Migration and power loss.** Whatever attempts to migrate the old layout of a sector are cut,
its data is found when one is carried out, if and only if it does not lie in the second sector and
start like a sector of the old layout, and the old sector does not shadow the migrated one with
other data. -/
theorem survives_iff (D : Config) (mem : Memory) (s : Sector)
    (hsize : oldFormatOffset + 2 ≤ D.sectorSize)
    (hinvalid : ∀ s, (sectorHeader D mem s).isValid = false)
    (hcurrent : isCurrent D mem s = true)
    (hother : isCurrent D mem (alternateSectorTo s) = false) :
    Survives D mem s ↔ (s = .sector1 → ¬ StartsCurrent D mem s) ∧
      (Shadows D mem s → ∀ i < D.sectorSize - oldFormatOffset,
        mem (D.addressOf s + 8 + i) = mem (D.addressOf s + oldFormatOffset + i)) := by
  have hlen := D.length_add
  have hold : oldFormatOffset = 7548 := rfl
  have hmigrating : Migrating D mem s mem := by
    refine ⟨.refl _ _ _, Or.inr ⟨hinvalid _, hcurrent, fun hs ↦ ?_⟩⟩
    subst hs
    exact hother
  have hheader : ∀ mem', OnlySector D (alternateSectorTo s) mem mem' →
      (sectorHeader D mem' s).isValid = false := fun mem' honly ↦ by
    rw [sectorHeader_kept honly, hinvalid]
  constructor
  · intro hsurvives
    have hstart : s = .sector1 → ¬ StartsCurrent D mem s := by
      rintro rfl hstart
      exact not_survives hsize hinvalid hcurrent hother hstart hsurvives
    refine ⟨hstart, fun hshadows i hi ↦ ?_⟩
    let stack : Footer := readFooter .blank 0
    obtain ⟨mem', hrun, honly, hmigrated⟩ :=
      hmigrating.complete_afterCuts hsize (hinvalid s) hcurrent hstart [] stack
    obtain ⟨mem₁, hrun₁, hread⟩ := hsurvives [] stack
    rw [hrun] at hrun₁
    obtain ⟨-, rfl⟩ := Prod.mk.inj (Option.some.inj hrun₁)
    have hshadows' := hshadows.congr fun x h1 h2 ↦ honly.kept h1 h2
    have hbyte := hread stack i hi
    rw [readByte_of_currentSector ((hmigrated.currentSector_eq (hheader mem' honly)).2 hshadows'),
      honly.kept (by omega) (by omega)] at hbyte
    exact Option.some.inj hbyte
  · rintro ⟨hstart, hshadow⟩ cuts stack
    obtain ⟨mem', hrun, honly, hmigrated⟩ :=
      hmigrating.complete_afterCuts hsize (hinvalid s) hcurrent hstart cuts stack
    refine ⟨mem', hrun, fun stack' i hi ↦ ?_⟩
    by_cases hshadows : Shadows D mem' s
    · have hshadows₀ : Shadows D mem s := hshadows.congr fun x h1 h2 ↦ (honly.kept h1 h2).symm
      rw [readByte_of_currentSector
        ((hmigrated.currentSector_eq (hheader mem' honly)).2 hshadows),
        honly.kept (by omega) (by omega), hshadow hshadows₀ i hi]
    · rw [hmigrated.readByte_eq (hheader mem' honly) hshadows stack' (by omega),
        migratedImage_get hi]

/-- Two sectors of 16 KB. -/
def sixteenKB : Config where
  sectorSize := 16384
  dcd1 := 0
  dcd2 := 16384
  calculateCRC := fun _ ↦ 0
  storeBase := 0
  storeSize := 32768
  size := by decide
  apart := by decide
  inStore1 := by decide
  inStore2 := by decide
  addressable := by decide

/-- The old layout in the first sector, with erased data. -/
def oldFirst : Memory := fun a ↦ if a = 8 then 0 else if a = 9 then 1 else 0xFF

/-- The old layout in the second sector, with data that starts in the same way. -/
def oldSecond : Memory := fun a ↦
  if a = 16392 ∨ a = 23932 then 0 else if a = 16393 ∨ a = 23933 then 1 else 0xFF

theorem survives_iff_oldFirst :
    Survives sixteenKB oldFirst .sector0 ↔
      ((.sector0 : Sector) = .sector1 → ¬ StartsCurrent sixteenKB oldFirst .sector0) ∧
      (Shadows sixteenKB oldFirst .sector0 → ∀ i < sixteenKB.sectorSize - oldFormatOffset,
        oldFirst (sixteenKB.addressOf .sector0 + 8 + i) =
          oldFirst (sixteenKB.addressOf .sector0 + oldFormatOffset + i)) :=
  survives_iff sixteenKB oldFirst .sector0 (by decide) (by rintro ⟨⟩ <;> decide +kernel)
    (by decide +kernel) (by decide +kernel)

theorem not_survives_oldSecond :
    (∀ s, (sectorHeader sixteenKB oldSecond s).isValid = false) ∧
      isCurrent sixteenKB oldSecond .sector1 = true ∧
      isCurrent sixteenKB oldSecond .sector0 = false ∧
      ¬ Survives sixteenKB oldSecond .sector1 := by
  have hinvalid : ∀ s, (sectorHeader sixteenKB oldSecond s).isValid = false := by
    rintro ⟨⟩ <;> decide +kernel
  have hcurrent : isCurrent sixteenKB oldSecond .sector1 = true := by decide +kernel
  have hother : isCurrent sixteenKB oldSecond .sector0 = false := by decide +kernel
  have hstart : StartsCurrent sixteenKB oldSecond .sector1 :=
    ⟨by decide +kernel, by decide +kernel⟩
  exact ⟨hinvalid, hcurrent, hother,
    not_survives (by decide) hinvalid hcurrent hother hstart⟩

end DuoFirmware.DCD
