import DuoFirmware.Eeprom.Operations

/-!
# The emulated EEPROM is a byte array

Callers see a sequence of public operations. Here they run one after the other, as long as power
lasts, and are compared with an array of cells that every put overwrites and every clear erases.
On a store that verifies, every run returns and the array is what the flash holds.

What a get returns is the array's range only if its end does not wrap around: `readRange` computes
the end of the range in 16 bits, and a range that wraps is read as erased. `Readable` says exactly
which gets that leaves right.
-/

namespace DuoFirmware.EEPROMEmulation

open NorFlash FlashM

/-- A block of data: its length is passed in 16 bits. -/
abbrev Block := { data : List UInt8 // data.length < 65536 }

/-- The public operations and what a caller passes; a put also depends on whether its buffer can
be allocated. -/
inductive Op where
  | init
  | get (index length : UInt16)
  | put (index : UInt16) (data : Block) (allocated : Bool)
  | clear
  | performPendingErase
  deriving DecidableEq, Repr

/-- The flash and the members of the class. -/
structure State where
  memory : Memory
  pages : Pages

/-- Carry out an operation, with the data a get returns. -/
def step (E : Layout) (s : State) : Op → Option (List (List UInt8) × State)
  | .init => (complete (init E) s.memory).map fun r ↦ ([], ⟨r.2, r.1⟩)
  | .get index length =>
    some ([readRange E s.memory s.pages.activePage index.toNat length.toNat], s)
  | .put index data allocated =>
    (complete (writeRange E s.pages index.toNat data.1 allocated) s.memory).map fun r ↦
      ([], ⟨r.2, r.1⟩)
  | .clear => (complete (clear E) s.memory).map fun r ↦ ([], ⟨r.2, r.1⟩)
  | .performPendingErase =>
    (complete (performPendingErase E s.pages) s.memory).map fun r ↦ ([], ⟨r.2, s.pages⟩)

/-- Carry out operations one after the other. -/
def run (E : Layout) : State → List Op → Option (List (List UInt8) × State)
  | s, [] => some ([], s)
  | s, op :: ops => do
    let (out, s') ← step E s op
    let (outs, s'') ← run E s' ops
    pure (out ++ outs, s'')

/-! ## The array -/

namespace Op

/-- The cells after an operation. -/
def apply (cells : ℕ → UInt8) : Op → ℕ → UInt8
  | put index data true => putRange cells index.toNat data.1
  | clear => erasedCells
  | _ => cells

/-- What a get should return. -/
def expected (cells : ℕ → UInt8) : Op → List (List UInt8)
  | get index length => [(List.range length.toNat).map fun j ↦ cells (index.toNat + j)]
  | _ => []

/-- A put lies inside the capacity and gets its buffer. -/
def InRange (E : Layout) : Op → Prop
  | put index data allocated =>
    index.toNat + data.1.length ≤ E.capacity ∧ allocated = true
  | _ => True

instance (E : Layout) : DecidablePred (InRange E)
  | put _ _ _ => inferInstanceAs (Decidable (_ ∧ _))
  | init | get _ _ | clear | performPendingErase => isTrue trivial

/-- The end of a get fits in 16 bits, or there is nothing to be read in its range. -/
def Readable (cells : ℕ → UInt8) : Op → Prop
  | get index length =>
    index.toNat + length.toNat < 65536 ∨ ∀ j < length.toNat, cells (index.toNat + j) = 0xFF
  | _ => True

end Op

/-- What the gets of a run should return. -/
def expectedOutputs : (ℕ → UInt8) → List Op → List (List UInt8)
  | _, [] => []
  | cells, op :: ops => op.expected cells ++ expectedOutputs (op.apply cells) ops

/-- Every get of a run is readable in the array at that point. -/
def AllReadable : (ℕ → UInt8) → List Op → Prop
  | _, [] => True
  | cells, op :: ops => op.Readable cells ∧ AllReadable (op.apply cells) ops

/-! ## Refinement -/

variable {E : Layout} {s : State} {op : Op} {ops : List Op}

/-- **Getting a range** returns the cells exactly when the range is readable. -/
theorem readRange_eq_iff (mem : Memory) (page : LogicalPage) (index length : UInt16) :
    [readRange E mem page index.toNat length.toNat] =
        (Op.get index length).expected (contents E mem page) ↔
      (Op.get index length).Readable (contents E mem page) := by
  have hi := index.toNat_lt
  have hl := length.toNat_lt
  rw [Op.expected, Op.Readable, List.cons.injEq, and_iff_left rfl]
  by_cases hfit : index.toNat + length.toNat < 65536
  · simp only [readRange_eq E mem page hfit, hfit, true_or]
  · rw [readRange_of_wrap E mem page hi hl (by omega), or_iff_right hfit, eq_comm,
      List.eq_replicate_iff]
    simp

/-- One operation. -/
theorem step_spec (hv : E.verifies = true) (hready : Ready E s.pages s.memory)
    (hop : op.InRange E) :
    ∃ out s', step E s op = some (out, s') ∧ Ready E s'.pages s'.memory ∧
      view E s'.memory = op.apply (view E s.memory) ∧
      out.length = (op.expected (view E s.memory)).length ∧
      (out = op.expected (view E s.memory) ↔ op.Readable (view E s.memory)) := by
  have hsel : (updateActivePage E s.memory).activePage = s.pages.activePage := by rw [hready.1]
  cases op with
  | init =>
    obtain ⟨pages, _, mem', hrun, hr, hview⟩ := (wpc_init hready.2.2).complete
    refine ⟨[], ⟨mem', pages⟩, ?_, hr, hview, rfl, iff_of_true rfl trivial⟩
    rw [step, hrun]
    rfl
  | get index length =>
    refine ⟨_, s, rfl, hready, rfl, rfl, ?_⟩
    rw [view_eq_of_active hsel]
    exact readRange_eq_iff _ _ _ _
  | put index data allocated =>
    obtain ⟨hput, rfl⟩ := hop
    obtain ⟨pages, _, mem', hrun, hr, hview⟩ := (wpc_writeRange hready hput).complete
    refine ⟨[], ⟨mem', pages⟩, ?_, hr, ?_, rfl, iff_of_true rfl trivial⟩
    · rw [step, hrun]
      rfl
    · rw [hview, putView_eq hv hput, ← view_eq_of_active hsel]
      rfl
  | clear =>
    obtain ⟨pages, _, mem', hrun, hr, hview⟩ := (wpc_clear hready.2.2).complete
    refine ⟨[], ⟨mem', pages⟩, ?_, hr, hview, rfl, iff_of_true rfl trivial⟩
    rw [step, hrun]
    rfl
  | performPendingErase =>
    obtain ⟨_, _, mem', hrun, hr, hview⟩ := (wpc_performPendingErase hready).complete
    refine ⟨[], ⟨mem', s.pages⟩, ?_, hr, hview, rfl, iff_of_true rfl trivial⟩
    rw [step, hrun]
    rfl

/-- A run of operations. -/
theorem run_spec (hv : E.verifies = true) (hready : Ready E s.pages s.memory)
    (hops : ∀ op ∈ ops, op.InRange E) :
    ∃ outs s', run E s ops = some (outs, s') ∧
      (outs = expectedOutputs (view E s.memory) ops ↔ AllReadable (view E s.memory) ops) := by
  induction ops generalizing s with
  | nil => exact ⟨[], s, rfl, iff_of_true rfl trivial⟩
  | cons op ops ih =>
    obtain ⟨out, s', hstep, hr, hview, hlen, hiff⟩ :=
      step_spec hv hready (hops op List.mem_cons_self)
    obtain ⟨outs, s'', hrun, hiff'⟩ := ih hr fun o ho ↦ hops o (List.mem_cons_of_mem _ ho)
    rw [hview] at hiff'
    refine ⟨out ++ outs, s'', ?_, ?_⟩
    · rw [run, hstep]
      simp [hrun]
    · rw [expectedOutputs, AllReadable, ← hiff, ← hiff']
      constructor
      · exact fun h ↦ List.append_inj h hlen
      · rintro ⟨rfl, h⟩
        rw [h]

theorem blank_sane (E : Layout) : Sane E .blank ∧ view E .blank = erasedCells := by
  have h : ∀ page, page ≠ .noPage → readPageStatus E .blank page ≠ PageHeader.active :=
    fun page hp ↦ readPageStatus_of_erased hp fun _ _ _ ↦ rfl
  exact view_of_noPage (by
    rw [updateActivePage_noPage (h _ (by decide)) (h _ (by decide))])

/-- A run that starts with the initialization of blank flash. -/
theorem run_init_spec (hv : E.verifies = true) (pages : Pages) (hops : ∀ op ∈ ops, op.InRange E) :
    ∃ outs s, run E ⟨.blank, pages⟩ (.init :: ops) = some (outs, s) ∧
      (outs = expectedOutputs erasedCells ops ↔ AllReadable erasedCells ops) := by
  obtain ⟨hsane, hview⟩ := blank_sane E
  obtain ⟨pages', _, mem', hrun, hr, hview'⟩ := (wpc_init hsane).complete
  obtain ⟨outs, s, hrun', hiff⟩ := run_spec (s := ⟨mem', pages'⟩) hv hr hops
  refine ⟨outs, s, ?_, ?_⟩
  · rw [run, step, hrun]
    simp [hrun']
  · rwa [← hview, ← hview']

/-- **The emulated EEPROM of the Duo refines a byte array**, except for gets whose end wraps around
and whose range has a cell that is not `0xFF`: a run of operations whose puts are in range
completes, and its gets return the cells of the array if and only if all of them are readable. -/
theorem outputs_eq_iff_allReadable (pages : Pages) (ops : List Op)
    (hops : ∀ op ∈ ops, op.InRange duo) :
    ∃ outs s, run duo ⟨.blank, pages⟩ (.init :: ops) = some (outs, s) ∧
      (outs = expectedOutputs erasedCells ops ↔ AllReadable erasedCells ops) :=
  run_init_spec rfl pages hops

/-- A cell is put, then read, then read again with the rest of the index space: the second get
wraps. -/
def wrappingOps : List Op := [.put 1 ⟨[7], by decide⟩ true, .get 0 3, .get 1 65535]

/-- The condition is met up to the first get of these operations. -/
theorem outputs_eq_iff_allReadable_duo :
    ∃ outs s, run duo ⟨.blank, .mk .noPage .noPage⟩ (.init :: wrappingOps.take 2) = some (outs, s) ∧
      (outs = expectedOutputs erasedCells (wrappingOps.take 2) ↔
        AllReadable erasedCells (wrappingOps.take 2)) :=
  outputs_eq_iff_allReadable _ _ (by decide)

/-- A get whose end wraps around misses a cell that was put. -/
theorem outputs_ne_expected :
    ¬ ∀ ops : List Op, (∀ op ∈ ops, op.InRange duo) →
      ∃ outs s, run duo ⟨.blank, .mk .noPage .noPage⟩ (.init :: ops) = some (outs, s) ∧
        outs = expectedOutputs erasedCells ops := by
  intro h
  have hops : ∀ op ∈ wrappingOps, op.InRange duo := by decide
  obtain ⟨outs, s, hrun, houts⟩ := h wrappingOps hops
  obtain ⟨outs', s', hrun', hiff⟩ := run_init_spec (E := duo) rfl (.mk .noPage .noPage) hops
  obtain ⟨rfl, rfl⟩ : outs = outs' ∧ s = s' := by simpa [hrun] using hrun'
  -- the second get is not readable: it wraps, and its first cell is 7
  obtain ⟨-, -, hread, -⟩ := hiff.mp houts
  rcases hread with hfit | hcells
  · exact absurd hfit (by decide)
  · exact absurd (hcells 0 (by decide)) (by decide)

end DuoFirmware.EEPROMEmulation
