import DuoFirmware.Dcd.CrashConsistency

/-!
# Falling back to the sector before

Every write that completes leaves two complete sectors behind: the one it wrote, and the one it
read from, which it marks as invalid but which still has its data and its CRC. The counters of the
two are neighbours modulo 4. When the newer sector is damaged behind its header, the older one is
chosen, through a different branch of `evaluateSectors` for each of the two physical orders.
-/

namespace DuoFirmware.DCD

open NorFlash FlashM

variable {D : Config} {mem mem' : Memory} {s : Sector} {c : ℕ} {image previous : List UInt8}

/-! ## A damaged sector -/

/-- The body or the footer of a sector is altered so that its CRC no longer holds. -/
structure Damaged (D : Config) (s : Sector) (mem mem' : Memory) : Prop where
  outside : Memory.DiffersIn (D.addressOf s + 8) (D.addressOf s + D.sectorSize) mem mem'
  crc : isCRCValid D mem' s = false

theorem Damaged.header (h : Damaged D s mem mem') :
    sectorHeader D mem' s = sectorHeader D mem s :=
  sectorHeader_congr fun x _ h2 ↦ h.outside x (Or.inl h2)

theorem Damaged.kept (h : Damaged D s mem mem') {x : ℕ} (h1 : D.addressOf (alternateSectorTo s) ≤ x)
    (h2 : x < D.addressOf (alternateSectorTo s) + D.sectorSize) : mem' x = mem x := by
  have := D.apart_alternate s
  exact h.outside x (by omega)

/-- **The older sector is chosen when the newer one is damaged.** -/
theorem Settled.currentSector_of_damaged (h : Settled D mem s c image previous)
    (hdamaged : Damaged D s mem mem') : currentSector D mem' = some (alternateSectorTo s) := by
  obtain ⟨hnew, hsealed, c', hold, -, hinvalid⟩ := h
  have hseal' : sealOf D mem' s = Header.sealValid := by
    rw [sealOf, hdamaged.header]
    exact hsealed
  have hvalid : (sectorHeader D mem' s).isValid = true := by
    rw [hdamaged.header]
    exact hnew.isValid (Or.inl hsealed)
  have hold' := hold.congr fun x h1 h2 ↦ hdamaged.kept h1 h2
  have hinvalid' : sealOf D mem' (alternateSectorTo s) = Header.sealInvalidV2 := by
    rw [sealOf_congr fun x h1 h2 ↦ hdamaged.kept h1 h2, hinvalid]
  cases s with
  | sector0 =>
    -- the damaged sector is examined first, and its secondary is the one marked as invalid
    rw [currentSector, findValidSector_eq_sector0 hvalid]
    have hne : (sectorHeader D mem' (alternateSectorTo .sector0)).sealWord ≠ Header.sealValid := by
      change sealOf D mem' _ ≠ _
      rw [hinvalid']
      decide
    simp only [Option.some.injEq]
    rw [evaluateSectors, if_neg hne, if_pos hinvalid', hdamaged.crc, if_neg Bool.false_ne_true]
  | sector1 =>
    -- the sector marked as invalid is examined first, and its secondary is the damaged one
    have hvalid' := hold'.isValid (Or.inr hinvalid')
    rw [currentSector, findValidSector_eq_sector0 hvalid']
    have hseal : (sectorHeader D mem' (alternateSectorTo .sector0)).sealWord =
        Header.sealValid := hseal'
    have hcrc : isCRCValid D mem' (alternateSectorTo .sector0) = false := hdamaged.crc
    have hcrc' : isCRCValid D mem' .sector0 = true := hold'.crc
    simp only [Option.some.injEq]
    rw [evaluateSectors, if_pos hseal, hcrc, hcrc']
    rfl

theorem readImage_of_currentSector (stack : Footer) (h : currentSector D mem = some s) :
    readImage D stack mem = some (body D mem s) := by
  have hrun : complete (read D stack 0) mem = some (D.addressOf s + 8 + 0, mem) := by
    rw [read, currentValidSector, complete_look_bind_bind, h]
    rfl
  rw [readImage, hrun]
  rfl

/-- Reading falls back to the previous image. -/
theorem Settled.readImage_of_damaged (h : Settled D mem s c image previous)
    (hdamaged : Damaged D s mem mem') (stack : Footer) :
    readImage D stack mem' = some previous := by
  rw [readImage_of_currentSector stack (h.currentSector_of_damaged hdamaged)]
  obtain ⟨-, -, c', hold, -, -⟩ := h
  rw [(hold.congr fun x h1 h2 ↦ hdamaged.kept h1 h2).body]

/-! ## Runs of writes -/

/-- Arguments of a write; the footer is what the call finds on its stack. -/
structure WriteCall where
  stack : Footer
  offset : ℕ
  data : List UInt8

/-- A write of some data completes with success. Offset and length are those of a buffer, whose sum
does not leave the address space. -/
structure WriteCall.Completes (D : Config) (w : WriteCall) (mem mem' : Memory) : Prop where
  nonempty : w.data ≠ []
  fits : w.offset + w.data.length < 4294967296
  run : complete (write D w.stack w.offset w.data) mem = some (0, mem')

/-- The contents after completed writes one after the other, from blank flash on. -/
inductive Written (D : Config) : ℕ → Memory → Prop
  | blank : Written D 0 .blank
  | write {n : ℕ} {mem mem' : Memory} {w : WriteCall} :
      Written D n mem → w.Completes D mem mem' → Written D (n + 1) mem'

/-- A write that succeeds stays inside the image. -/
theorem WriteCall.Completes.inRange {w : WriteCall} (h : w.Completes D mem mem') :
    w.offset + w.data.length ≤ D.length := by
  obtain ⟨-, hfits, hrun⟩ := h
  by_contra hc
  rw [write] at hrun
  by_cases hoff : w.offset ≥ D.length
  · rw [if_pos hoff] at hrun
    cases hrun
  · rw [if_neg hoff, Nat.mod_eq_of_lt hfits, if_pos (by omega)] at hrun
    cases hrun

/-- What one write leaves behind. -/
theorem WriteCall.Completes.settled {w : WriteCall} (h : w.Completes D mem mem')
    (hholds : Holds D mem image) : ∃ c,
    Settled D mem' (writtenSector D mem) c (splice image w.offset w.data) image := by
  obtain ⟨e, _, mem₁, hrun, -, -, hsettled⟩ := (wpc_write w.stack hholds h.inRange).complete
  rw [h.run, Option.some.injEq, Prod.mk.injEq] at hrun
  obtain ⟨-, rfl⟩ := hrun
  exact hsettled h.nonempty

/-- Whatever was written, the contents hold an image. -/
theorem Written.holds {n : ℕ} (h : Written D n mem) : ∃ image, Holds D mem image := by
  induction h with
  | blank => exact ⟨_, holds_blank D⟩
  | write _ hw ih =>
    obtain ⟨image, hholds⟩ := ih
    obtain ⟨c, hsettled⟩ := hw.settled hholds
    exact ⟨_, Or.inr ⟨_, _, hsettled.current⟩⟩

/-- **The last write can be undone by its CRC.** After any number of completed writes, of which the
last rewrote a sector: the counters of the two sectors are neighbours modulo 4; the rewritten
sector, which has the new data, is chosen, whichever it is; and if it is damaged behind its header,
a read returns the image from before that write. -/
theorem Written.fallback {n : ℕ} {w : WriteCall} (h : Written D n mem)
    (hw : w.Completes D mem mem') :
    ((sectorFooter D mem' (alternateSectorTo (writtenSector D mem))).counter + 1) % 4 =
        (sectorFooter D mem' (writtenSector D mem)).counter ∧
      currentSector D mem' = some (writtenSector D mem) ∧
      (∃ image, (∀ stack, readImage D stack mem = some image) ∧
        body D mem' (writtenSector D mem) = splice image w.offset w.data) ∧
      ∀ mem'', Damaged D (writtenSector D mem) mem' mem'' →
        ∀ stack, readImage D stack mem'' = readImage D stack mem := by
  obtain ⟨image, hholds⟩ := h.holds
  obtain ⟨c, hsettled⟩ := hw.settled hholds
  have himage := fun stack ↦ readImage_eq stack hholds
  refine ⟨?_, hsettled.current.currentSector_eq, ⟨image, himage, hsettled.1.body⟩, ?_⟩
  · obtain ⟨hnew, -, c', hold, hnext, -⟩ := hsettled
    rw [hold.counter, hnew.counter, hnext]
  · intro mem'' hdamaged stack
    rw [hsettled.readImage_of_damaged hdamaged, himage]

/-- The first write to blank flash. -/
theorem Written.fallback_eightBytes :
    let w : WriteCall := ⟨readFooter .blank 0, 0, [1, 2]⟩
    ∃ mem', w.Completes eightBytes .blank mem' ∧
      ((sectorFooter eightBytes mem'
          (alternateSectorTo (writtenSector eightBytes .blank))).counter +
          1) % 4 = (sectorFooter eightBytes mem' (writtenSector eightBytes .blank)).counter ∧
      currentSector eightBytes mem' = some (writtenSector eightBytes .blank) ∧
      (∃ image, (∀ stack, readImage eightBytes stack .blank = some image) ∧
        body eightBytes mem' (writtenSector eightBytes .blank) = splice image w.offset w.data) ∧
      ∀ mem'', Damaged eightBytes (writtenSector eightBytes .blank) mem' mem'' →
        ∀ stack, readImage eightBytes stack mem'' = readImage eightBytes stack .blank := by
  intro w
  have hin : w.offset + w.data.length ≤ eightBytes.length := by decide
  obtain ⟨e, _, mem', hrun, -, hok, -⟩ :=
    (wpc_write w.stack (holds_blank eightBytes) hin).complete
  obtain rfl : e = 0 := hok (show 0 < 8 by decide)
  have hw : w.Completes eightBytes .blank mem' := ⟨List.cons_ne_nil _ _, by decide, hrun⟩
  exact ⟨mem', hw, Written.fallback .blank hw⟩

end DuoFirmware.DCD
