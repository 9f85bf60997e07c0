import DuoFirmware.Eeprom.ByteArray

/-!
# Power failures

A device is on, with the members of the class in memory, or off, with nothing but the flash. Power
can fail after any number of flash operations of any call, and during the initialization that
follows, any number of times.

Two places break the promise that an interrupted put or clear is all or nothing. One is the last
index of an appended batch, of which the low byte alone already makes a valid record. The other is
the gap between the two erasures of a clear when a swap was interrupted before it retired its
source, so that the second page is still active with old records. A third, a put whose range wraps
around the 16-bit index space, writes records that no page swap can deal with. `SafeStep` names the
three; a device that avoids them keeps the promise after every sequence of calls and failures.
-/

namespace DuoFirmware.EEPROMEmulation

open NorFlash FlashM

/-- What happens to a device. -/
inductive Event where
  /-- An operation is carried out. -/
  | op (o : Op)
  /-- Power fails after so many flash operations of it. -/
  | cut (o : Op) (n : ℕ)
  /-- The device starts and is initialized. -/
  | boot
  /-- Power fails while the device is initialized. -/
  | bootCut (n : ℕ)

inductive Machine where
  | on (s : State)
  | off (mem : Memory)

/-- What is left in flash when power fails after `n` flash operations of a call. -/
def cutStep (E : Layout) (s : State) (n : ℕ) : Op → Memory
  | .init => cutAfter (init E) n s.memory
  | .get _ _ => s.memory
  | .put index data allocated =>
    cutAfter (writeRange E s.pages index.toNat data.1 allocated) n s.memory
  | .clear => cutAfter (clear E) n s.memory
  | .performPendingErase => cutAfter (performPendingErase E s.pages) n s.memory

/-- Initialize the flash. -/
def boot (E : Layout) (mem : Memory) : Option State :=
  (complete (init E) mem).map fun r ↦ ⟨r.2, r.1⟩

def Machine.step (E : Layout) : Machine → Event → Option Machine
  | on s, .op o => (EEPROMEmulation.step E s o).map fun r ↦ on r.2
  | on s, .cut o n => some (off (cutStep E s n o))
  | off mem, .boot => (EEPROMEmulation.boot E mem).map on
  | off mem, .bootCut n => some (off (cutAfter (init E) n mem))
  | _, _ => none

/-- The devices that come out of a blank one by events that meet a condition. -/
inductive Reachable (E : Layout) (P : Machine → Event → Prop) : Machine → Prop where
  | blank : Reachable E P (.off .blank)
  | step {m m' : Machine} {e : Event} :
      Reachable E P m → P m e → m.step E e = some m' → Reachable E P m'

/-- The gets of all cells together. -/
def image (E : Layout) (s : State) : List UInt8 :=
  readRange E s.memory s.pages.activePage 0 E.capacity

/-! ## The condition -/

namespace Op

/-- The range of a put goes around the index space and ends inside the capacity again. -/
def Wraps (E : Layout) : Op → Prop
  | put index data _ =>
    E.capacity < index.toNat + data.1.length ∧
      (index.toNat + data.1.length) % 65536 ≤ E.capacity
  | _ => False

/-- Power fails at one of the points from which an operation does not recover. -/
def BadCut (E : Layout) (s : State) (n : ℕ) : Op → Prop
  | put index data allocated =>
    allocated = true ∧ index.toNat + data.1.length ≤ E.capacity ∧
      HalfIndex E s.memory s.pages.activePage index.toNat data.1 n
  | clear => n = 1 ∧ BothActive E s.memory
  | _ => False

end Op

/-- The condition on a step: no put wraps, and no cut is a bad one. -/
def SafeStep (E : Layout) : Machine → Event → Prop
  | .on _, .op o => ¬ o.Wraps E
  | .on s, .cut o n => ¬ o.Wraps E ∧ ¬ o.BadCut E s n
  | _, _ => True

/-! ## Operations -/

variable {E : Layout} {s : State} {op : Op}

open Classical in
/-- The cells after an operation that was carried out. -/
noncomputable def newView (E : Layout) (s : State) : Op → ℕ → UInt8
  | .put index data true =>
    if index.toNat + data.1.length ≤ E.capacity then
      putView E s.memory s.pages.activePage index.toNat data.1
    else view E s.memory
  | .clear => erasedCells
  | _ => view E s.memory

/-- The rule for a put of any kind. -/
theorem wpc_put {index : UInt16} {data : Block} {allocated : Bool}
    (hready : Ready E s.pages s.memory) (hop : ¬ (Op.put index data allocated).Wraps E) :
    wpc (writeRange E s.pages index.toNat data.1 allocated)
      (fun pages' _ mem' ↦ Ready E pages' mem' ∧
        view E mem' = newView E s (.put index data allocated))
      (fun b mem' ↦ (Op.put index data allocated).BadCut E s b ∨
        (Sane E mem' ∧ (view E mem' = view E s.memory ∨
          view E mem' = newView E s (.put index data allocated)))) s.memory := by
  by_cases hput : index.toNat + data.1.length ≤ E.capacity ∧ allocated = true
  · obtain ⟨hput, rfl⟩ := hput
    have hsel : (updateActivePage E s.memory).activePage = s.pages.activePage := by rw [hready.1]
    rw [newView, if_pos hput, view_eq_of_active hsel]
    exact wpc_mono (wpc_writeRange hready hput) (fun _ _ _ h ↦ h)
      fun _ _ h ↦ h.imp_left fun h ↦ ⟨rfl, hput, h⟩
  · have hnew : newView E s (.put index data allocated) = view E s.memory := by
      cases allocated
      · rfl
      · exact if_neg fun hc ↦ hput ⟨hc, rfl⟩
    refine wpc_writeRange_refused ?_ ⟨hready, hnew.symm⟩
    simp only [Op.Wraps] at hop
    cases allocated
    · exact Or.inr rfl
    · simp only [and_true] at hput
      exact Or.inl (by omega)

/-- An operation that is carried out leaves the device ready. -/
theorem step_newView (hready : Ready E s.pages s.memory) (hop : ¬ op.Wraps E) :
    ∃ out s', step E s op = some (out, s') ∧ Ready E s'.pages s'.memory ∧
      view E s'.memory = newView E s op := by
  cases op with
  | init =>
    obtain ⟨pages, _, mem', hrun, hr, hview⟩ := (wpc_init hready.2.2).complete
    exact ⟨[], ⟨mem', pages⟩, by rw [step, hrun]; rfl, hr, hview⟩
  | get index length => exact ⟨_, s, rfl, hready, rfl⟩
  | put index data allocated =>
    obtain ⟨pages, _, mem', hrun, hr, hview⟩ := (wpc_put hready hop).complete
    exact ⟨[], ⟨mem', pages⟩, by rw [step, hrun]; rfl, hr, hview⟩
  | clear =>
    obtain ⟨pages, _, mem', hrun, hr, hview⟩ := (wpc_clear hready.2.2).complete
    exact ⟨[], ⟨mem', pages⟩, by rw [step, hrun]; rfl, hr, hview⟩
  | performPendingErase =>
    obtain ⟨_, _, mem', hrun, hr, hview⟩ := (wpc_performPendingErase hready).complete
    exact ⟨[], ⟨mem', s.pages⟩, by rw [step, hrun]; rfl, hr, hview⟩

/-- **An operation that is cut** leaves the old cells or the new ones. -/
theorem cutStep_newView (hready : Ready E s.pages s.memory) (hop : ¬ op.Wraps E) {n : ℕ}
    (hcut : ¬ op.BadCut E s n) :
    Sane E (cutStep E s n op) ∧
      (view E (cutStep E s n op) = view E s.memory ∨
        view E (cutStep E s n op) = newView E s op) := by
  have hsane := hready.2.2
  cases op with
  | init =>
    rcases (wpc_init hsane).cut frozen_init n with ⟨-, h⟩ | ⟨_, _, -, hr, hview⟩ | ⟨-, hs, hview⟩
    · rw [cutStep, h]
      exact ⟨hsane, Or.inl rfl⟩
    · exact ⟨hr.2.2, Or.inl hview⟩
    · exact ⟨hs, Or.inl hview⟩
  | get index length => exact ⟨hsane, Or.inl rfl⟩
  | put index data allocated =>
    rcases (wpc_put hready hop).cut (frozen_writeRange _ _ _ _) n with
      ⟨-, h⟩ | ⟨_, _, -, hr, hview⟩ | ⟨-, hhalf | hs⟩
    · rw [cutStep, h]
      exact ⟨hsane, Or.inl rfl⟩
    · exact ⟨hr.2.2, Or.inr hview⟩
    · exact absurd hhalf hcut
    · exact hs
  | clear =>
    rcases (wpc_clear hsane).cut frozen_clear n with
      ⟨-, h⟩ | ⟨_, _, -, hr, hview⟩ | ⟨-, hboth | hs⟩
    · rw [cutStep, h]
      exact ⟨hsane, Or.inl rfl⟩
    · exact ⟨hr.2.2, Or.inr hview⟩
    · exact absurd hboth hcut
    · exact hs
  | performPendingErase =>
    rcases (wpc_performPendingErase hready).cut (frozen_performPendingErase _) n with
      ⟨-, h⟩ | ⟨_, _, -, hr, hview⟩ | ⟨-, hr, hview⟩
    · rw [cutStep, h]
      exact ⟨hsane, Or.inl rfl⟩
    · exact ⟨hr.2.2, Or.inl hview⟩
    · exact ⟨hr.2.2, Or.inl hview⟩

theorem boot_spec {mem : Memory} (hsane : Sane E mem) :
    ∃ s, boot E mem = some s ∧ Ready E s.pages s.memory ∧ view E s.memory = view E mem := by
  obtain ⟨pages, _, mem', hrun, hr, hview⟩ := (wpc_init hsane).complete
  exact ⟨⟨mem', pages⟩, by rw [boot, hrun]; rfl, hr, hview⟩

theorem image_congr {s' : State} (hready : Ready E s.pages s.memory)
    (hready' : Ready E s'.pages s'.memory) (h : view E s'.memory = view E s.memory) :
    image E s' = image E s := by
  have hcap := E.capacity_le_8192
  have hview : ∀ t : State, Ready E t.pages t.memory →
      view E t.memory = contents E t.memory t.pages.activePage := fun t ht ↦
    view_eq_of_active (by rw [ht.1])
  rw [image, image, readRange_eq E _ _ (by omega), readRange_eq E _ _ (by omega),
    ← hview s hready, ← hview s' hready', h]

/-! ## Runs -/

/-- A device that is on is ready, and one that is off can be started. -/
def Machine.Sound (E : Layout) : Machine → Prop
  | on s => Ready E s.pages s.memory
  | off mem => Sane E mem

/-- One event. -/
theorem Machine.sound_step {m m' : Machine} {e : Event} (hm : m.Sound E) (he : SafeStep E m e)
    (hstep : m.step E e = some m') : m'.Sound E := by
  rcases m with s | mem <;> rcases e with o | ⟨o, n⟩ | _ | n
  · obtain ⟨out, s', hs, hr, -⟩ := step_newView hm he
    rw [Machine.step, hs] at hstep
    obtain rfl : on s' = m' := by simpa using hstep
    exact hr
  · obtain rfl : off (cutStep E s n o) = m' := by simpa [Machine.step] using hstep
    exact (cutStep_newView hm he.1 he.2).1
  · simp [Machine.step] at hstep
  · simp [Machine.step] at hstep
  · simp [Machine.step] at hstep
  · simp [Machine.step] at hstep
  · obtain ⟨s, hs, hr, -⟩ := boot_spec hm
    rw [Machine.step, hs] at hstep
    obtain rfl : on s = m' := by simpa using hstep
    exact hr
  · obtain rfl : off (cutAfter (init E) n mem) = m' := by simpa [Machine.step] using hstep
    rcases (wpc_init hm).cut frozen_init n with ⟨-, h⟩ | ⟨_, _, -, hr, -⟩ | ⟨-, hs, -⟩
    · rw [Sound, h]
      exact hm
    · exact hr.2.2
    · exact hs

/-- Every device that gets there safely is sound. -/
theorem Reachable.sound {m : Machine} (h : Reachable E (SafeStep E) m) : m.Sound E := by
  induction h with
  | blank => exact (blank_sane E).1
  | step _ he hstep ih => exact Machine.sound_step ih he hstep

/-- **Puts and clears are atomic** on a device that avoids the three bad steps: power may fail
after any number of flash operations, and after the next initialization all cells together are as
before or as after the operation. -/
theorem image_boot_cutStep (hs : Reachable E (SafeStep E) (.on s)) {n : ℕ}
    (hsafe : SafeStep E (.on s) (.cut op n)) :
    ∃ s' out s'', boot E (cutStep E s n op) = some s' ∧ step E s op = some (out, s'') ∧
      (image E s' = image E s ∨ image E s' = image E s'') := by
  have hready : Ready E s.pages s.memory := hs.sound
  obtain ⟨hsane, hview⟩ := cutStep_newView hready hsafe.1 hsafe.2
  obtain ⟨s', hboot, hready', hview'⟩ := boot_spec hsane
  obtain ⟨out, s'', hstep, hready'', hview''⟩ := step_newView hready hsafe.1
  refine ⟨s', out, s'', hboot, hstep, ?_⟩
  rcases hview with h | h
  · exact Or.inl (image_congr hready hready' (hview'.trans h))
  · exact Or.inr (image_congr hready'' hready' ((hview'.trans h).trans hview''.symm))

/-! ## A put that is torn -/

/-- The flash of the Duo after its first initialization. -/
def formatted : Memory :=
  ((((((Memory.blank.erase 0xB8000 0xBC000).erase 0xBC000 0xC0000).program 0xB8000 [0]).program
    0xB8001 [0]).program 0xB8002 [0xFF]).program 0xB8003 [0xFF])

theorem boot_blank : boot duo .blank = some ⟨formatted, .mk .page1 .page2⟩ := by
  have hnone : updateActivePage duo .blank = ⟨.noPage, .noPage⟩ := by decide +kernel
  have hfirst : updateActivePage duo formatted = ⟨.page1, .page2⟩ := by decide +kernel
  have hclear : complete (clear duo) .blank = some (updateActivePage duo formatted, formatted) :=
    rfl
  rw [boot, init, complete_look_bind, hnone, if_pos rfl, hclear, hfirst]
  rfl

/-- Values for the cells 0 and 1. -/
def twoCells : Block := ⟨[1, 2], by decide⟩

/-- Cut anywhere but after the seventh operation, the put of two cells is atomic. -/
theorem image_boot_cutStep_twoCells :
    ∃ s' out s'', boot duo (cutStep duo ⟨formatted, .mk .page1 .page2⟩ 6 (.put 0 twoCells true)) =
        some s' ∧
      step duo ⟨formatted, .mk .page1 .page2⟩ (.put 0 twoCells true) = some (out, s'') ∧
      (image duo s' = image duo ⟨formatted, .mk .page1 .page2⟩ ∨ image duo s' = image duo s'') :=
  image_boot_cutStep (.step .blank (e := .boot) trivial (by rw [Machine.step, boot_blank]; rfl))
    ⟨fun ⟨h, _⟩ ↦ absurd h (by decide), fun ⟨_, _, _, _, _, _, _, h, _⟩ ↦ by omega⟩

/-- What the cut after the seventh operation leaves. -/
theorem cutStep_twoCells :
    cutStep duo ⟨formatted, .mk .page1 .page2⟩ 7 (.put 0 twoCells true) =
      cutAfter (writeRangeChanged duo .page1 0xB8004 0 [1, 2] [0xFF, 0xFF]) 7 formatted := by
  have hfound : readRangeAndFindEmpty duo formatted .page1 0 2 =
      ⟨[0xFF, 0xFF], 0xB8004, false⟩ := by decide +kernel
  have hput : cutStep duo ⟨formatted, .mk .page1 .page2⟩ 7 (.put 0 twoCells true) =
      cutAfter (writeRange duo ⟨.page1, .page2⟩ 0 [1, 2] true) 7 formatted := rfl
  rw [hput, writeRange, if_neg (by decide), if_neg (by decide), cutAfter_look_bind]
  simp only [List.length_cons, List.length_nil]
  rw [hfound, cutAfter_bind]
  · rfl
  · exact fun _ ↦
      .ite (frozen_pure _) ((frozen_swapPagesAndWrite _ _ _).bind fun _ ↦ frozen_pure _)
  · decide +kernel

/-- A put of two cells that is cut after its seventh operation is found half done. -/
theorem image_torn :
    ¬ ∀ (s : State) (index : UInt16) (data : Block) (n : ℕ),
      Reachable duo (fun _ _ ↦ True) (.on s) → (Op.put index data true).InRange duo →
      ∃ s' out s'', boot duo (cutStep duo s n (.put index data true)) = some s' ∧
        step duo s (.put index data true) = some (out, s'') ∧
        (image duo s' = image duo s ∨ image duo s' = image duo s'') := by
  intro h
  have hreach : Reachable duo (fun _ _ ↦ True) (.on ⟨formatted, .mk .page1 .page2⟩) :=
    .step .blank (e := .boot) trivial (by rw [Machine.step, boot_blank]; rfl)
  obtain ⟨s', out, s'', hboot, hstep, himage⟩ := h _ 0 twoCells 7 hreach (by decide)
  have htorn : ((boot duo (cutAfter (writeRangeChanged duo .page1 0xB8004 0 [1, 2] [0xFF, 0xFF])
      7 formatted)).map fun s ↦ (image duo s).take 2) = some [1, 0xFF] := by decide +kernel
  have hnew : ((step duo ⟨formatted, .mk .page1 .page2⟩ (.put 0 twoCells true)).map fun s ↦
      (image duo s.2).take 2) = some [1, 2] := by decide +kernel
  have hold : (image duo ⟨formatted, .mk .page1 .page2⟩).take 2 = [0xFF, 0xFF] := by decide +kernel
  rw [← cutStep_twoCells, hboot, Option.map_some, Option.some.injEq] at htorn
  rw [hstep, Option.map_some, Option.some.injEq] at hnew
  rcases himage with himage | himage
  · rw [himage, hold] at htorn
    exact absurd htorn (by decide)
  · rw [himage, hnew] at htorn
    exact absurd htorn (by decide)

end DuoFirmware.EEPROMEmulation
