import DuoFirmware.Dcd.Dcd

/-!
# Rewriting a sector

`writeSector` erases its sector and then fills it from the front: the data, the footer, the CRC over
both, and last of all the header that makes it count. Up to the last byte of the header the seal is
one that no reader takes for valid; from then on the sector is complete.
-/

namespace DuoFirmware.DCD

open NorFlash FlashM

variable {D : Config} {mem mem' mem₁ : Memory} {s o : Sector}

/-! ## Sectors -/

/-- The application data of a sector. -/
def body (D : Config) (mem : Memory) (s : Sector) : List UInt8 :=
  mem.bytes (D.addressOf s + 8) D.length

abbrev sealOf (D : Config) (mem : Memory) (s : Sector) : ℕ := (sectorHeader D mem s).sealWord

/-- The seal is none of those that make a sector count. -/
def Unsealed (D : Config) (mem : Memory) (s : Sector) : Prop :=
  sealOf D mem s ≠ Header.sealValid ∧ sealOf D mem s ≠ Header.sealInvalidV2

/-- A complete sector, whatever its seal. -/
structure Complete (D : Config) (mem : Memory) (s : Sector) (counter : ℕ) (image : List UInt8) :
    Prop where
  header : (sectorHeader D mem s).isHeader = true
  crc : isCRCValid D mem s = true
  counter : (sectorFooter D mem s).counter = counter
  body : DCD.body D mem s = image

/-- Only the sector may differ. -/
def OnlySector (D : Config) (s : Sector) (mem mem' : Memory) : Prop :=
  Memory.DiffersIn (D.addressOf s) (D.addressOf s + D.sectorSize) mem mem'

theorem readFooter_congr {a : ℕ} (h : ∀ x, a ≤ x → x < a + 32 → mem' x = mem x) :
    readFooter mem' a = readFooter mem a := by
  rw [readFooter, readFooter, Footer.mk.injEq]
  refine ⟨Memory.bytes_congr fun x h1 h2 ↦ h x h1 (by omega), h _ (by omega) (by omega),
    Memory.bytes_congr fun x h1 h2 ↦ h x (by omega) (by omega),
    Memory.word16_congr fun x h1 h2 ↦ h x (by omega) (by omega),
    Memory.word32_congr fun x h1 h2 ↦ h x (by omega) (by omega),
    Memory.word32_congr fun x h1 h2 ↦ h x (by omega) (by omega)⟩

theorem sectorFooter_congr
    (h : ∀ x, D.addressOf s + 8 ≤ x → x < D.addressOf s + D.sectorSize → mem' x = mem x) :
    sectorFooter D mem' s = sectorFooter D mem s := by
  have hsize := D.size
  refine readFooter_congr fun x h1 h2 ↦ h x ?_ ?_ <;> rw [Config.footerOffset] at * <;> omega

theorem isCRCValid_congr
    (h : ∀ x, D.addressOf s + 8 ≤ x → x < D.addressOf s + D.sectorSize → mem' x = mem x) :
    isCRCValid D mem' s = isCRCValid D mem s := by
  have hsize := D.size
  have hbytes : mem'.bytes (D.addressOf s + 8) (D.sectorSize - 8 - 4) =
      mem.bytes (D.addressOf s + 8) (D.sectorSize - 8 - 4) :=
    Memory.bytes_congr fun x h1 h2 ↦ h x h1 (by omega)
  rw [isCRCValid, isCRCValid, sectorFooter_congr h, computeCRC, computeCRC, hbytes]

theorem sectorHeader_congr
    (h : ∀ x, D.addressOf s ≤ x → x < D.addressOf s + 8 → mem' x = mem x) :
    sectorHeader D mem' s = sectorHeader D mem s := by
  rw [sectorHeader, sectorHeader, Memory.word32_congr fun x h1 h2 ↦ h x h1 (by omega),
    Memory.word32_congr fun x h1 h2 ↦ h x (by omega) (by omega)]

theorem body_congr
    (h : ∀ x, D.addressOf s + 8 ≤ x → x < D.addressOf s + D.sectorSize → mem' x = mem x) :
    body D mem' s = body D mem s := by
  have hlen := D.length_add
  exact Memory.bytes_congr fun x h1 h2 ↦ h x h1 (by omega)

theorem OnlySector.trans {mem₂ : Memory} (h : OnlySector D s mem mem₁)
    (h' : OnlySector D s mem₁ mem₂) : OnlySector D s mem mem₂ := Memory.DiffersIn.trans h h'

/-- The other sector is untouched. -/
theorem OnlySector.kept (h : OnlySector D (alternateSectorTo s) mem mem') {x : ℕ}
    (h1 : D.addressOf s ≤ x) (h2 : x < D.addressOf s + D.sectorSize) : mem' x = mem x := by
  have := D.apart_alternate s
  exact h x (by omega)

theorem Complete.congr {c : ℕ} {image : List UInt8} (h : Complete D mem s c image)
    (hkept : ∀ x, D.addressOf s ≤ x → x < D.addressOf s + D.sectorSize → mem' x = mem x) :
    Complete D mem' s c image := by
  have hsize := D.size
  have hcontent : ∀ x, D.addressOf s + 8 ≤ x → x < D.addressOf s + D.sectorSize →
      mem' x = mem x := fun x h1 h2 ↦ hkept x (by omega) h2
  refine ⟨?_, ?_, ?_, ?_⟩
  · rw [sectorHeader_congr fun x h1 h2 ↦ hkept x h1 (by omega)]
    exact h.header
  · rw [isCRCValid_congr hcontent]
    exact h.crc
  · rw [sectorFooter_congr hcontent]
    exact h.counter
  · rw [body_congr hcontent]
    exact h.body

theorem sealOf_congr (h : ∀ x, D.addressOf s ≤ x → x < D.addressOf s + D.sectorSize →
    mem' x = mem x) : sealOf D mem' s = sealOf D mem s := by
  have hsize := D.size
  rw [sealOf, sealOf, sectorHeader_congr fun x h1 h2 ↦ h x h1 (by omega)]

theorem Complete.footer_isValid {c : ℕ} {image : List UInt8} (h : Complete D mem s c image) :
    (sectorFooter D mem s).isValid = true := by
  have := h.crc
  rw [isCRCValid] at this
  by_contra hc
  rw [if_neg hc] at this
  exact Bool.false_ne_true this

/-! ## Rules -/

theorem frozen_storeWrite (D : Config) (a : ℕ) (bs : List UInt8) : Frozen (storeWrite D a bs) :=
  .ite ((frozen_programBytes _ _).bind fun _ ↦ .ite (frozen_pure _) (frozen_pure _))
    (frozen_pure _)

theorem frozen_storeCopy (D : Config) (a source n : ℕ) : Frozen (storeCopy D a source n) :=
  (frozen_look _).bind fun _ ↦ frozen_storeWrite D _ _

theorem frozen_erase (D : Config) (s : Sector) : Frozen (erase D s) :=
  (frozen_look _).bind fun _ ↦ .ite (.ite ((frozen_step _).bind fun _ ↦
    .ite (frozen_pure _) (frozen_pure _)) (frozen_pure _)) (frozen_pure _)

theorem frozen_checked {m rest : FlashM ℤ} (hm : Frozen m) (hrest : Frozen rest) :
    Frozen (checked m rest) :=
  hm.bind fun _ ↦ .ite (frozen_pure _) hrest

variable {Q : ℤ → ℕ → Memory → Prop} {C : ℕ → Memory → Prop}

/-- Going on after a call that succeeds. -/
theorem wpc_checked {m rest : FlashM ℤ} (hrest : Frozen rest)
    (h : wpc m (fun e n mem' ↦ e = 0 ∧ wpc rest (fun e k ↦ Q e (n + k)) (fun k ↦ C (n + k)) mem')
      C mem) : wpc (checked m rest) Q C mem := by
  refine wpc_bind (fun _ ↦ .ite (frozen_pure _) hrest) (wpc_mono h ?_ fun _ _ h ↦ h)
  rintro e n mem' ⟨rfl, h⟩
  exact h

theorem wpc_storeWrite {a : ℕ} {bs : List UInt8} (hrange : D.isValidRange a bs.length = true)
    (hQ : Q 0 bs.length (mem.program a bs))
    (hC : ∀ k, 1 ≤ k → k ≤ bs.length → C k (mem.program a (bs.take k))) :
    wpc (storeWrite D a bs) Q C mem := by
  rw [storeWrite, if_pos hrange]
  exact wpc_bind (fun _ ↦ .ite (frozen_pure _) (frozen_pure _))
    (wpc_programBytes (wpc_pure hQ) hC)

theorem requiresErase_eq_false {a : ℕ} (h : requiresErase D mem a = false) :
    mem.Erased a (a + D.sectorSize) := by
  rw [requiresErase, Memory.bytes, List.any_map, List.any_eq_false] at h
  intro x h1 h2
  have := h (x - a) (List.mem_range.mpr (by omega))
  simpa [show a + (x - a) = x by omega] using this

theorem unsealed_of_erased (h : mem.Erased (D.addressOf s) (D.addressOf s + 8)) :
    Unsealed D mem s := by
  have hinit : sealOf D mem s = Header.sealInit :=
    (Memory.word32_eq_iff (by decide)).mpr (Memory.bytes_of_erased (h.mono (by omega) (by omega)))
  rw [Unsealed, hinit]
  decide

/-- Erasing a sector. -/
theorem wpc_erase
    (hQ : ∀ n mem', mem'.Erased (D.addressOf s) (D.addressOf s + D.sectorSize) →
      OnlySector D s mem mem' → Q 0 n mem')
    (hC : ∀ n mem', mem'.Erased (D.addressOf s) (D.addressOf s + D.sectorSize) →
      OnlySector D s mem mem' → C n mem') :
    wpc (erase D s) Q C mem := by
  have hsize := D.size
  have herase := mem.erase_erased (D.addressOf s) (D.addressOf s + D.sectorSize)
  have hdiff := mem.erase_differsIn (D.addressOf s) (D.addressOf s + D.sectorSize)
  have hrange : D.isValidRange (D.addressOf s) 0 = true :=
    D.isValidRange_sector s (show 0 + 0 ≤ D.sectorSize by omega)
  refine wpc_look_bind ?_
  by_cases h : requiresErase D mem (D.addressOf s) = true
  · rw [if_pos h, eraseSector, if_pos hrange]
    exact wpc_bind (fun _ ↦ .ite (frozen_pure _) (frozen_pure _))
      (wpc_step (wpc_pure (hQ _ _ herase hdiff)) (hC _ _ herase hdiff))
  · rw [if_neg h]
    exact wpc_pure (hQ _ _ (requiresErase_eq_false (by simpa using h)) (.refl _ _ _))

/-- An erased sector is unsealed. -/
theorem unsealed_of_erasedSector
    (h : mem.Erased (D.addressOf s) (D.addressOf s + D.sectorSize)) : Unsealed D mem s := by
  have hsize := D.size
  exact unsealed_of_erased (h.mono le_rfl (by omega))

/-! ## Filling a sector -/

/-- A sector with a header and these contents is complete. -/
theorem complete_of_content {image : List UInt8} {f : Footer} {crc : ℕ}
    (hheader : (sectorHeader D mem s).isHeader = true) (himage : image.length = D.length)
    (hw : f.watermark = watermark)
    (hcrc : crc = (D.calculateCRC (image ++ f.toBytes)).toNat)
    (h : mem.bytes (D.addressOf s + 8) (D.length + (28 + 4)) = image ++ (f.toBytes ++ le32 crc)) :
    Complete D mem s f.counter image := by
  have hlen := D.length_add
  have hfo : D.addressOf s + D.footerOffset = D.addressOf s + 8 + D.length := by
    rw [Config.footerOffset]
    omega
  rw [Memory.bytes_add, Memory.bytes_add] at h
  obtain ⟨hbody, h⟩ := List.append_inj h (by rw [Memory.length_bytes, himage])
  obtain ⟨hfooter, hword⟩ := List.append_inj h (by rw [Memory.length_bytes, f.length_toBytes])
  rw [← hfo] at hfooter hword
  obtain ⟨hcounter, hwm⟩ := readFooter_of_bytes (by rw [hw]; decide) hfooter
  have hlt : crc < 4294967296 := by
    rw [hcrc]
    exact UInt32.toNat_lt _
  refine ⟨hheader, ?_, hcounter, hbody⟩
  have hvalid : (sectorFooter D mem s).isValid = true := by
    rw [Footer.isValid, sectorFooter, hwm, hw]
    decide
  have hcover : mem.bytes (D.addressOf s + 8) (D.sectorSize - 8 - 4) = image ++ f.toBytes := by
    rw [show D.sectorSize - 8 - 4 = D.length + 28 by omega, Memory.bytes_add, hbody, ← hfo,
      hfooter]
  rw [isCRCValid, if_pos hvalid, decide_eq_true_eq, computeCRC, hcover, ← hcrc]
  exact ((Memory.word32_eq_iff hlt).mpr hword).symm

/-- A header is what was written over erased bytes. -/
theorem sectorHeader_of_bytes {h : Header} (hw : h.watermark < 4294967296)
    (hs : h.sealWord < 4294967296) (hb : mem.bytes (D.addressOf s) 8 = h.toBytes) :
    sectorHeader D mem s = h := by
  rw [show 8 = 4 + 4 from rfl, Memory.bytes_add, Header.toBytes] at hb
  obtain ⟨h1, h2⟩ := List.append_inj hb (by simp)
  rw [sectorHeader, (Memory.word32_eq_iff hw).mpr h1, (Memory.word32_eq_iff hs).mpr h2]

/-- The sector is erased up to what has been filled in behind the header. -/
def FilledWith (D : Config) (s : Sector) (mem₁ : Memory) (bs : List UInt8) (mem' : Memory) : Prop :=
  mem' = mem₁.program (D.addressOf s + 8) bs

/-- What happens behind the header of an erased sector does not seal it. -/
theorem unsealed_of_program {a : ℕ} {bs : List UInt8}
    (herased : mem₁.Erased (D.addressOf s) (D.addressOf s + D.sectorSize))
    (ha : D.addressOf s + 8 ≤ a) : Unsealed D (mem₁.program a bs) s := by
  have hsize := D.size
  exact unsealed_of_erased ((mem₁.program_differsIn a bs).erased
    (herased.mono le_rfl (by omega)) (Or.inl ha))

/-- **Filling in** more behind what is there. -/
theorem wpc_storeWrite_fill {bs cs : List UInt8} {a : ℕ}
    (herased : mem₁.Erased (D.addressOf s) (D.addressOf s + D.sectorSize))
    (hfill : FilledWith D s mem₁ bs mem) (ha : a = D.addressOf s + (8 + bs.length))
    (hfit : 8 + bs.length + cs.length ≤ D.sectorSize)
    (hQ : ∀ n mem', FilledWith D s mem₁ (bs ++ cs) mem' → Q 0 n mem')
    (hC : ∀ n mem', Unsealed D mem' s → OnlySector D s mem₁ mem' → C n mem') :
    wpc (storeWrite D a cs) Q C mem := by
  subst ha
  have hmore : ∀ ds, mem.program (D.addressOf s + (8 + bs.length)) ds =
      mem₁.program (D.addressOf s + 8) (bs ++ ds) := fun ds ↦ by
    rw [hfill, Memory.program_append, Nat.add_assoc]
  refine wpc_storeWrite (D.isValidRange_sector s hfit) (hQ _ _ (hmore cs)) fun k _ hk ↦ ?_
  rw [hmore]
  refine hC _ _ (unsealed_of_program herased le_rfl)
    ((mem₁.program_differsIn _ _).mono (by omega) ?_)
  rw [List.length_append, List.length_take]
  omega

/-- Filling in a part that may be empty. -/
theorem wpc_storeWrite_fill_part {bs cs : List UInt8} {a : ℕ}
    (herased : mem₁.Erased (D.addressOf s) (D.addressOf s + D.sectorSize))
    (hfill : FilledWith D s mem₁ bs mem) (ha : a = D.addressOf s + (8 + bs.length))
    (hfit : 8 + bs.length + cs.length ≤ D.sectorSize)
    (hQ : ∀ n mem', FilledWith D s mem₁ (bs ++ cs) mem' → Q 0 n mem')
    (hC : ∀ n mem', Unsealed D mem' s → OnlySector D s mem₁ mem' → C n mem') :
    wpc (if cs.length ≠ 0 then storeWrite D a cs else pure 0) Q C mem := by
  by_cases hcs : cs.length ≠ 0
  · rw [if_pos hcs]
    exact wpc_storeWrite_fill herased hfill ha hfit hQ hC
  · obtain rfl : cs = [] := by simpa using hcs
    rw [if_neg hcs]
    exact wpc_pure (hQ _ _ (by rwa [List.append_nil]))

/-- The bytes of a header, as far as it has been written over erased ones. -/
theorem bytes_partHeader (hheader : mem.Erased (D.addressOf s) (D.addressOf s + 8)) (t : ℕ) :
    (mem.program (D.addressOf s) (Header.makeValid.toBytes.take t)).bytes (D.addressOf s) 8 =
      (List.range 8).map fun i ↦ (List.replicate 8 (0xFF : UInt8))[i]?.getD 0xFF &&&
        (Header.makeValid.toBytes.take t)[i]?.getD 0xFF := by
  rw [Memory.bytes_program, Memory.bytes_of_erased hheader]

/-- Only the last byte of the header seals the sector. -/
theorem unsealed_of_partHeader (hheader : mem.Erased (D.addressOf s) (D.addressOf s + 8)) {t : ℕ}
    (hpos : 0 < t) (hlt : t < 8) :
    Unsealed D (mem.program (D.addressOf s) (Header.makeValid.toBytes.take t)) s := by
  have hseal : (mem.program (D.addressOf s) (Header.makeValid.toBytes.take t)).bytes
      (D.addressOf s + 4) 4 = ((List.range 8).map fun i ↦
        (List.replicate 8 (0xFF : UInt8))[i]?.getD 0xFF &&&
          (Header.makeValid.toBytes.take t)[i]?.getD 0xFF).drop 4 := by
    rw [← bytes_partHeader hheader t, show 8 = 4 + 4 from rfl, Memory.bytes_add]
    rfl
  have hne : ∀ n, n = Header.sealValid ∨ n = Header.sealInvalidV2 →
      sealOf D (mem.program (D.addressOf s) (Header.makeValid.toBytes.take t)) s ≠ n := by
    intro n hn hc
    have hn32 : n < 4294967296 := by
      rcases hn with rfl | rfl <;> decide
    have hn' := (Memory.word32_eq_iff hn32).mp hc
    rw [hseal] at hn'
    obtain rfl | rfl | rfl | rfl | rfl | rfl | rfl :
      t = 1 ∨ t = 2 ∨ t = 3 ∨ t = 4 ∨ t = 5 ∨ t = 6 ∨ t = 7 := by omega
    all_goals rcases hn with rfl | rfl <;> exact absurd hn' (by decide)
  exact ⟨hne _ (Or.inl rfl), hne _ (Or.inr rfl)⟩

/-- Writing the header of a filled sector, which seals it with the last byte. -/
theorem wpc_writeHeader_makeValid {image : List UInt8} {f : Footer}
    (herased : mem₁.Erased (D.addressOf s) (D.addressOf s + D.sectorSize))
    (himage : image.length = D.length) (hw : f.watermark = watermark)
    (hfill : FilledWith D s mem₁ (image ++ (f.toBytes ++
      le32 (D.calculateCRC (image ++ f.toBytes)).toNat)) mem)
    (hQ : ∀ n mem', OnlySector D s mem₁ mem' → Complete D mem' s f.counter image →
      sealOf D mem' s = Header.sealValid → Q 0 n mem' ∧ C n mem')
    (hC : ∀ n mem', Unsealed D mem' s → OnlySector D s mem₁ mem' → C n mem') :
    wpc (writeHeader D s Header.makeValid) Q C mem := by
  have hsize := D.size
  have hlen := D.length_add
  have hcontent : (image ++ (f.toBytes ++
      le32 (D.calculateCRC (image ++ f.toBytes)).toNat)).length = D.length + (28 + 4) := by
    simp [himage]
  have honly : ∀ t, OnlySector D s mem₁
      (mem.program (D.addressOf s) (Header.makeValid.toBytes.take t)) := by
    intro t
    refine OnlySector.trans ?_ ((mem.program_differsIn _ _).mono le_rfl ?_)
    · rw [hfill]
      exact (mem₁.program_differsIn _ _).mono (by omega) (by rw [hcontent]; omega)
    · rw [List.length_take, Header.length_toBytes]
      omega
  have hheader : mem.Erased (D.addressOf s) (D.addressOf s + 8) := by
    rw [hfill]
    exact (mem₁.program_differsIn _ _).erased (herased.mono le_rfl (by omega)) (Or.inl le_rfl)
  have hback : mem.bytes (D.addressOf s + 8) (D.length + (28 + 4)) =
      image ++ (f.toBytes ++ le32 (D.calculateCRC (image ++ f.toBytes)).toNat) := by
    have hregion : mem₁.Erased (D.addressOf s + 8) (D.addressOf s + 8 + (image ++ (f.toBytes ++
        le32 (D.calculateCRC (image ++ f.toBytes)).toNat)).length) :=
      herased.mono (by omega) (by rw [hcontent]; omega)
    rw [hfill, ← hcontent]
    exact Memory.bytes_program_of_erased hregion
  have hdone : Q 0 8 (mem.program (D.addressOf s) Header.makeValid.toBytes) ∧
      C 8 (mem.program (D.addressOf s) Header.makeValid.toBytes) := by
    have hhead : sectorHeader D (mem.program (D.addressOf s) Header.makeValid.toBytes) s =
        Header.makeValid :=
      sectorHeader_of_bytes (by decide) (by decide)
        ((bytes_partHeader hheader 8).trans (by decide))
    refine hQ 8 _ (honly 8) (complete_of_content (by rw [hhead]; decide) himage hw rfl ?_)
      (by rw [sealOf, hhead]; rfl)
    refine (Memory.bytes_congr fun x h1 h2 ↦ ?_).trans hback
    exact Memory.program_apply_of_not_mem (Or.inr (by simpa using h1))
  refine wpc_storeWrite (D.isValidRange_sector s (show 0 + 8 ≤ D.sectorSize by omega))
    hdone.1 fun t h1 h8 ↦ ?_
  rw [Header.length_toBytes] at h8
  by_cases ht : t = 8
  · subst ht
    exact hdone.2
  · exact hC _ _ (unsealed_of_partHeader hheader h1 (lt_of_le_of_ne h8 ht)) (honly t)

/-! ## The whole rewrite -/

/-- The footer that a rewrite stores. -/
def newFooter (stack : Footer) : Option Footer → Footer
  | some footer => footer.setCounter ((footer.counter + 1) % 4)
  | none => stack.initialized.setCounter 0

/-- Replace a part of an image. -/
def splice (image : List UInt8) (offset : ℕ) (data : List UInt8) : List UInt8 :=
  image.take offset ++ data ++ image.drop (offset + data.length)

theorem length_splice {image data : List UInt8} {offset : ℕ}
    (h : offset + data.length ≤ image.length) :
    (splice image offset data).length = image.length := by
  simp only [splice, List.length_append, List.length_take, List.length_drop]
  omega

/-- What a rewrite of `o` may leave behind when it is cut: nothing, or all of it. -/
def RewriteCut (D : Config) (o : Sector) (c : ℕ) (image : List UInt8) (mem mem' : Memory) : Prop :=
  OnlySector D o mem mem' ∧ (Unsealed D mem' o ∨
    (Complete D mem' o c image ∧ sealOf D mem' o = Header.sealValid))

/-- The end of a rewrite: footer, CRC and header. -/
theorem wpc_finishSector {image : List UInt8} {stack : Footer} {existing : Option ℕ}
    (herased : mem₁.Erased (D.addressOf s) (D.addressOf s + D.sectorSize))
    (himage : image.length = D.length) (hfill : FilledWith D s mem₁ image mem)
    (hw : (newFooter stack (validFooter D mem existing)).watermark = watermark)
    (hQ : ∀ n mem', OnlySector D s mem₁ mem' →
      Complete D mem' s (newFooter stack (validFooter D mem existing)).counter image →
      sealOf D mem' s = Header.sealValid → Q 0 n mem' ∧ C n mem')
    (hC : ∀ n mem', Unsealed D mem' s → OnlySector D s mem₁ mem' → C n mem') :
    wpc (finishSector D stack existing s) Q C mem := by
  have hsize := D.size
  have hlen := D.length_add
  set f := newFooter stack (validFooter D mem existing) with hf
  have f₂ : Frozen (do
      let crc ← look fun mem ↦ computeCRC D mem (D.addressOf s)
      storeWrite D (D.addressOf s + (D.sectorSize - 4)) (le32 crc)) :=
    (frozen_look _).bind fun _ ↦ frozen_storeWrite D _ _
  have f₃ : Frozen (writeHeader D s Header.makeValid) := frozen_storeWrite D _ _
  refine wpc_checked (frozen_checked f₂ f₃) (wpc_look_bind ?_)
  have hfooter : ∀ existingFooter,
      writeV2Footer D stack s existingFooter (nextCounter existingFooter) =
        storeWrite D (D.addressOf s + D.footerOffset) (newFooter stack existingFooter).toBytes := by
    rintro (_ | _) <;> rfl
  rw [hfooter, ← hf]
  refine wpc_storeWrite_fill herased hfill (by rw [Config.footerOffset]; omega)
    (by rw [f.length_toBytes]; omega) (fun n₁ mem₂ hfill₂ ↦ ⟨rfl, ?_⟩) hC
  -- the CRC is computed over what has been filled in so far
  have hcrc : computeCRC D mem₂ (D.addressOf s) =
      (D.calculateCRC (image ++ f.toBytes)).toNat := by
    have hcover : (image ++ f.toBytes).length = D.sectorSize - 8 - 4 := by
      rw [List.length_append, f.length_toBytes]
      omega
    have hregion : mem₁.Erased (D.addressOf s + 8)
        (D.addressOf s + 8 + (image ++ f.toBytes).length) :=
      herased.mono (by omega) (by omega)
    rw [computeCRC, hfill₂, ← hcover, Memory.bytes_program_of_erased hregion]
  refine wpc_checked f₃ (wpc_look_bind ?_)
  rw [hcrc]
  refine wpc_storeWrite_fill herased hfill₂ ?_ ?_ (fun n₂ mem₃ hfill₃ ↦ ⟨rfl, ?_⟩)
    fun n mem' h1 h2 ↦ hC _ _ h1 h2
  · rw [List.length_append, f.length_toBytes]
    omega
  · rw [List.length_append, f.length_toBytes, length_le32]
    omega
  · rw [List.append_assoc] at hfill₃
    exact wpc_writeHeader_makeValid herased himage hw hfill₃
      (fun n mem' h1 h2 h3 ↦ ⟨(hQ _ _ h1 h2 h3).1, (hQ _ _ h1 h2 h3).2⟩)
      fun n mem' h1 h2 ↦ hC _ _ h1 h2

theorem frozen_finishSector (stack : Footer) (existing : Option ℕ) (newSector : Sector) :
    Frozen (finishSector D stack existing newSector) :=
  frozen_checked ((frozen_look _).bind fun _ ↦ frozen_storeWrite D _ _) (frozen_checked
    ((frozen_look _).bind fun _ ↦ frozen_storeWrite D _ _) (frozen_storeWrite D _ _))

theorem frozen_writeSector (stack : Footer) (offset : ℕ) (data : List UInt8)
    (existing : Option ℕ) (newSector : Sector) :
    Frozen (writeSector D stack offset data existing newSector) := by
  refine frozen_checked (frozen_erase D _) (frozen_checked ?_ (frozen_checked
    (.ite (frozen_storeWrite D _ _) (frozen_pure _)) (frozen_checked ?_
      (frozen_finishSector _ _ _))))
  all_goals
    cases existing
    · exact frozen_pure _
    · exact frozen_storeCopy D _ _ _

/-- Initializing a sector makes it complete with erased data. -/
theorem wpc_initializeSector (stack : Footer)
    (hQ : ∀ n mem', OnlySector D s mem mem' →
      Complete D mem' s 0 (List.replicate D.length 0xFF) →
      sealOf D mem' s = Header.sealValid → Q 0 n mem')
    (hC : ∀ n mem', RewriteCut D s 0 (List.replicate D.length 0xFF) mem mem' → C n mem') :
    wpc (initializeSector D stack s) Q C mem := by
  have f₅ := frozen_finishSector (D := D) stack none s
  have f₄ := frozen_checked (frozen_pure 0) f₅
  have f₃ := frozen_checked (frozen_pure 0) f₄
  have f₂ := frozen_checked (frozen_pure 0) f₃
  refine wpc_checked f₂ (wpc_erase (fun n mem₁ herased honly ↦ ⟨rfl, ?_⟩)
    fun n mem' h1 h2 ↦ hC _ _ ⟨h2, Or.inl (unsealed_of_erasedSector h1)⟩)
  -- there is nothing to write before the footer
  refine wpc_checked f₃ (wpc_pure ⟨rfl, ?_⟩)
  refine wpc_checked f₄ (wpc_pure ⟨rfl, ?_⟩)
  refine wpc_checked f₅ (wpc_pure ⟨rfl, ?_⟩)
  refine wpc_finishSector herased (List.length_replicate ..)
    (mem₁.program_replicate _ _).symm rfl (fun n mem' h1 h2 h3 ↦ ?_) fun n mem' h1 h2 ↦ ?_
  · have h2' : Complete D mem' s 0 (List.replicate D.length 0xFF) := by
      simpa [newFooter, validFooter] using h2
    exact ⟨hQ _ _ (honly.trans h1) h2' h3, hC _ _ ⟨honly.trans h1, Or.inr ⟨h2', h3⟩⟩⟩
  · exact hC _ _ ⟨honly.trans h2, Or.inl h1⟩

/-- The data of a sector, from an offset on. -/
theorem bytes_body (D : Config) (mem : Memory) (s : Sector) {i n : ℕ} (hin : i + n ≤ D.length) :
    mem.bytes (D.addressOf s + 8 + i) n = ((body D mem s).drop i).take n := by
  rw [body, Memory.bytes_drop _ _ (show i ≤ D.length by omega),
    Memory.bytes_take _ _ (show n ≤ D.length - i by omega)]

theorem validFooter_congr
    (h : ∀ x, D.addressOf s + 8 ≤ x → x < D.addressOf s + D.sectorSize → mem' x = mem x) :
    validFooter D mem' (some (D.addressOf s)) = validFooter D mem (some (D.addressOf s)) := by
  have hfooter : sectorFooter D mem' s = sectorFooter D mem s := sectorFooter_congr h
  change (if (sectorFooter D mem' s).isValid then some (sectorFooter D mem' s) else none) = _
  rw [hfooter]
  rfl

theorem counter_newFooter (stack : Footer) (existingFooter : Option Footer) :
    (newFooter stack existingFooter).counter = nextCounter existingFooter := by
  cases existingFooter
  · exact Footer.counter_setCounter _ _
  · rw [newFooter, Footer.counter_setCounter, nextCounter, Nat.mod_mod]

/-- What is stored as a footer is one. -/
theorem watermark_newFooter (stack : Footer) (mem : Memory) (existing : Option ℕ) :
    (newFooter stack (validFooter D mem existing)).watermark = watermark := by
  rcases hfooter : validFooter D mem existing with _ | footer
  · rfl
  · rw [newFooter, Footer.watermark_setCounter]
    rcases existing with _ | address
    · cases hfooter
    · rw [validFooter] at hfooter
      split at hfooter
      · rename_i hvalid
        rw [Footer.isValid, decide_eq_true_eq] at hvalid
        rwa [← Option.some.inj hfooter]
      · cases hfooter

/-- Whatever is filled in, the other sector stays. -/
theorem FilledWith.kept {bs : List UInt8} (hfill : FilledWith D (alternateSectorTo s) mem₁ bs mem')
    (honly : OnlySector D (alternateSectorTo s) mem mem₁) (hbs : bs.length ≤ D.length) {x : ℕ}
    (h1 : D.addressOf s + 8 ≤ x) (h2 : x < D.addressOf s + D.sectorSize) : mem' x = mem x := by
  have hsize := D.size
  have hlen := D.length_add
  refine (honly.trans ?_).kept (by omega) h2
  rw [hfill]
  exact (mem₁.program_differsIn _ _).mono (by omega) (by omega)

/-- **Rewriting a sector** makes the other one complete, with the next counter and with the new data
in place; cut anywhere before its last byte, it leaves it unsealed. -/
theorem wpc_writeSector_body (stack : Footer) {offset : ℕ} {data : List UInt8}
    (hin : offset + data.length ≤ D.length)
    (hQ : ∀ n mem', OnlySector D (alternateSectorTo s) mem mem' →
      Complete D mem' (alternateSectorTo s)
        (nextCounter (validFooter D mem (some (D.addressOf s))))
        (splice (body D mem s) offset data) →
      sealOf D mem' (alternateSectorTo s) = Header.sealValid → Q 0 n mem')
    (hC : ∀ n mem', RewriteCut D (alternateSectorTo s)
        (nextCounter (validFooter D mem (some (D.addressOf s))))
        (splice (body D mem s) offset data) mem mem' → C n mem') :
    wpc (writeSector D stack offset data (some (D.addressOf s)) (alternateSectorTo s)) Q C mem := by
  have hsize := D.size
  have hlen := D.length_add
  have hstore := D.addressable
  have hsector := D.inStore1
  generalize himage : body D mem s = image at hQ hC
  have hlength : image.length = D.length := by
    rw [← himage, body, Memory.length_bytes]
  have hafterMod : (8 + offset + data.length) % 4294967296 = 8 + offset + data.length :=
    Nat.mod_eq_of_lt (by omega)
  have f₅ := frozen_finishSector (D := D) stack (some (D.addressOf s)) (alternateSectorTo s)
  have f₄ := frozen_checked (frozen_storeCopy D
    (D.addressOf (alternateSectorTo s) + (8 + offset + data.length))
    (D.addressOf s + (8 + offset + data.length))
    (D.sectorSize - (8 + offset + data.length) - 32)) f₅
  have f₃ := frozen_checked (Frozen.ite (c := data.length ≠ 0)
    (frozen_storeWrite D (D.addressOf (alternateSectorTo s) + (8 + offset)) data)
    (frozen_pure 0)) f₄
  have f₂ := frozen_checked (frozen_storeCopy D (D.addressOf (alternateSectorTo s) + 8)
    (D.addressOf s + 8) offset) f₃
  simp only [writeSector, Option.isSome_some, if_true, hafterMod]
  refine wpc_checked f₂ (wpc_erase (fun n₁ mem₁ herased honly ↦ ⟨rfl, ?_⟩)
    fun n mem' h1 h2 ↦ hC _ _ ⟨h2, Or.inl (unsealed_of_erasedSector h1)⟩)
  have hcut : ∀ n mem', Unsealed D mem' (alternateSectorTo s) →
      OnlySector D (alternateSectorTo s) mem₁ mem' → C n mem' :=
    fun n mem' h1 h2 ↦ hC _ _ ⟨honly.trans h2, Or.inl h1⟩
  have hfill₁ : FilledWith D (alternateSectorTo s) mem₁ [] mem₁ := (mem₁.program_nil _).symm
  have hbefore : mem₁.bytes (D.addressOf s + 8) offset = image.take offset := by
    have hbody := bytes_body D mem₁ s (i := 0) (n := offset) (by omega)
    have hkept₁ : body D mem₁ s = body D mem s :=
      body_congr fun x h1 h2 ↦ hfill₁.kept honly (Nat.zero_le _) h1 h2
    rwa [hkept₁, himage] at hbody
  -- the data before the range, the range, and the data after it
  refine wpc_checked f₃ (wpc_look_bind ?_)
  rw [hbefore]
  refine wpc_storeWrite_fill herased hfill₁ rfl
    (by simp only [List.length_nil, List.length_take]; omega) (fun n₂ mem₂ hfill₂ ↦ ⟨rfl, ?_⟩)
    fun n mem' h1 h2 ↦ hcut _ _ h1 h2
  rw [List.nil_append] at hfill₂
  have htake : (image.take offset).length = offset := by
    rw [List.length_take]
    omega
  refine wpc_checked f₄ (wpc_storeWrite_fill_part herased hfill₂ (by rw [htake]) (by omega)
    (fun n₃ mem₃ hfill₃ ↦ ⟨rfl, ?_⟩) fun n mem' h1 h2 ↦ hcut _ _ h1 h2)
  have hkept₃ : body D mem₃ s = body D mem s :=
    body_congr fun x h1 h2 ↦
      hfill₃.kept honly (by rw [List.length_append, htake]; omega) h1 h2
  have hafter : mem₃.bytes (D.addressOf s + (8 + offset + data.length))
      (D.sectorSize - (8 + offset + data.length) - 32) = image.drop (offset + data.length) := by
    rw [show D.addressOf s + (8 + offset + data.length) =
        D.addressOf s + 8 + (offset + data.length) by omega,
      bytes_body D mem₃ s (by omega), hkept₃, himage, List.take_of_length_le]
    rw [List.length_drop]
    omega
  refine wpc_checked f₅ (wpc_look_bind ?_)
  rw [hafter]
  refine wpc_storeWrite_fill herased hfill₃ (by rw [List.length_append, htake]; omega) ?_
    (fun n₄ mem₄ hfill₄ ↦ ⟨rfl, ?_⟩) fun n mem' h1 h2 ↦ hcut _ _ h1 h2
  · rw [List.length_append, htake, List.length_drop]
    omega
  have hnew : (splice image offset data).length = D.length := by
    rw [length_splice (by omega), hlength]
  have hkept₄ : validFooter D mem₄ (some (D.addressOf s)) =
      validFooter D mem (some (D.addressOf s)) :=
    validFooter_congr fun x h1 h2 ↦ hfill₄.kept honly (by rw [← splice, hnew]) h1 h2
  -- the footer is the existing one with the next counter, if it is valid
  refine wpc_finishSector herased hnew hfill₄ (watermark_newFooter stack mem₄ _)
    (fun n mem' h1 h2 h3 ↦ ?_) fun n mem' h1 h2 ↦ hcut _ _ h1 h2
  rw [counter_newFooter, hkept₄] at h2
  exact ⟨hQ _ _ (honly.trans h1) h2 h3, hC _ _ ⟨honly.trans h1, Or.inr ⟨h2, h3⟩⟩⟩

/-- Rewriting from a complete sector. -/
theorem wpc_writeSector {c : ℕ} {image : List UInt8} (stack : Footer) {offset : ℕ}
    {data : List UInt8} (hcomplete : Complete D mem s c image)
    (hin : offset + data.length ≤ D.length)
    (hQ : ∀ n mem', OnlySector D (alternateSectorTo s) mem mem' →
      Complete D mem' (alternateSectorTo s) ((c + 1) % 4) (splice image offset data) →
      sealOf D mem' (alternateSectorTo s) = Header.sealValid → Q 0 n mem')
    (hC : ∀ n mem', RewriteCut D (alternateSectorTo s) ((c + 1) % 4) (splice image offset data)
      mem mem' → C n mem') :
    wpc (writeSector D stack offset data (some (D.addressOf s)) (alternateSectorTo s)) Q C mem := by
  have hfooter : validFooter D mem (some (D.addressOf s)) = some (sectorFooter D mem s) :=
    if_pos hcomplete.footer_isValid
  have hcounter : nextCounter (validFooter D mem (some (D.addressOf s))) = (c + 1) % 4 := by
    rw [hfooter, nextCounter, hcomplete.counter]
  refine wpc_writeSector_body stack hin ?_ ?_
  · rw [hcounter, hcomplete.body]
    exact hQ
  · rw [hcounter, hcomplete.body]
    exact hC

end DuoFirmware.DCD
