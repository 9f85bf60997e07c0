import DuoFirmware.Hal.Numbers
import DuoFirmware.NorFlash.Memory

/-!
# The store in the internal flash

`InternalFlashStore::write` programs words, half-words and bytes, as the alignment of the
destination and the rest of the data allow. The functions that program the flash are parameters
here, and their calls are recorded. What is known about them is that they complete at an aligned
address when the flash is unlocked, and program the bytes of their argument there.
-/

namespace DuoFirmware.Hal

open NorFlash

inductive FlashStatus where
  | busy
  | errorPgs
  | errorPgp
  | errorPga
  | errorWrp
  | errorProgram
  | errorOperation
  | complete
  deriving DecidableEq, Repr

/-! ## Programming the flash -/

/-- A call of one of the functions `FLASH_ProgramWord`, `FLASH_ProgramHalfWord` and
`FLASH_ProgramByte`. -/
inductive Programming where
  | word (address data : UInt32)
  | halfWord (address : UInt32) (data : UInt16)
  | byte (address : UInt32) (data : UInt8)
  deriving DecidableEq, Repr

/-- Bytes at consecutive addresses, which wrap around. -/
def cellsFrom (address : UInt32) : List UInt8 → List (UInt32 × UInt8)
  | [] => []
  | b :: bs => (address, b) :: cellsFrom (address + 1) bs

namespace Programming

def address : Programming → UInt32
  | word address _ | halfWord address _ | byte address _ => address

def bytes : Programming → List UInt8
  | word _ data => bytes32 data
  | halfWord _ data => bytes16 data
  | byte _ data => [data]

/-- The number of bytes. -/
def size (p : Programming) : ℕ := p.bytes.length

/-- The addresses that are programmed, with their bytes. -/
def cells (p : Programming) : List (UInt32 × UInt8) := cellsFrom p.address p.bytes

/-- The address is a multiple of the size. -/
def Aligned (p : Programming) : Prop := p.address.toNat % p.size = 0

instance (p : Programming) : Decidable p.Aligned := inferInstanceAs (Decidable (_ = _))

end Programming

/-- The contents of the flash when some bytes were programmed: each one is and-ed in. -/
def programCells (mem : UInt32 → UInt8) (cells : List (UInt32 × UInt8)) : UInt32 → UInt8 :=
  cells.foldl (fun mem c ↦ Function.update mem c.1 (mem c.1 &&& c.2)) mem

/-- The functions of the flash peripheral, over some state of the device. -/
structure FlashDriver (σ : Type) where
  unlock : σ → σ
  clearFlag : σ → σ
  program : Programming → σ → FlashStatus × σ
  lock : σ → σ
  /-- Whether the control register is unlocked. -/
  unlocked : σ → Bool
  /-- The byte at an address. -/
  memory : σ → UInt32 → UInt8

/-- When the control register is unlocked, programming at an aligned address completes. Nothing else
changes the contents. -/
structure FlashDriver.Completes {σ : Type} (driver : FlashDriver σ) : Prop where
  program : ∀ p s, driver.unlocked s → p.Aligned → (driver.program p s).1 = .complete ∧
    driver.unlocked (driver.program p s).2 ∧
    driver.memory (driver.program p s).2 = programCells (driver.memory s) p.cells
  unlock : ∀ s, driver.unlocked (driver.unlock s) ∧
    driver.memory (driver.unlock s) = driver.memory s
  clearFlag : ∀ s, driver.unlocked (driver.clearFlag s) = driver.unlocked s ∧
    driver.memory (driver.clearFlag s) = driver.memory s
  lock : ∀ s, driver.memory (driver.lock s) = driver.memory s

namespace InternalFlashStore

variable {σ : Type} (driver : FlashDriver σ)

/-! ## Writing -/

def maxTries : ℕ := 10

/-- The call is made until it completes, and again for so many tries at most. -/
def tryProgramming (p : Programming) : ℕ → σ → List Programming × σ
  | 0, s => ([p], (driver.program p s).2)
  | tries + 1, s =>
    let (status, s) := driver.program p s
    if status ≠ .complete then
      let (calls, s) := tryProgramming p tries s
      (p :: calls, s)
    else ([p], s)

/-- The difference of two pointers, for the number of bytes between them; it has 32 bits and a
sign. -/
def ptrdiff (n : ℕ) : ℤ := ((n + 2147483648) % 4294967296 : ℕ) - 2147483648

/-- The call for the destination and the data that is left. -/
def nextProgramming (destination : UInt32) (data : List UInt8) : Programming :=
  if destination &&& 0x03 = 0 ∧ ptrdiff data.length ≥ 4 then
    .word destination (word32 (data.getD 3 0) (data.getD 2 0) (data.getD 1 0) (data.getD 0 0))
  else if destination &&& 0x01 = 0 ∧ ptrdiff data.length ≥ 2 then
    .halfWord destination (word16 (data.getD 1 0) (data.getD 0 0))
  else .byte destination (data.getD 0 0)

theorem size_pos (p : Programming) : 0 < p.size := by
  cases p <;> exact Nat.succ_pos _

/-- The loop of `write`. -/
def writeLoop (destination : UInt32) (data : List UInt8) (s : σ) : List Programming × σ :=
  if hdata : data = [] then ([], s)
  else
    let p := nextProgramming destination data
    let (calls, s) := tryProgramming driver p maxTries s
    let (rest, s) := writeLoop (destination + .ofNat p.size) (data.drop p.size) s
    (calls ++ rest, s)
termination_by data.length
decreasing_by
  rw [List.length_drop]
  exact Nat.sub_lt (List.length_pos_of_ne_nil hdata) (size_pos _)

/-- What `memcmp` compares with the data. -/
def readBack (s : σ) (offset : UInt32) (n : ℕ) : List UInt8 :=
  (List.range n).map fun i ↦ driver.memory s (offset + .ofNat i)

/-- `write`: the result, the calls that program the flash, and the state after it. -/
def write (offset : UInt32) (data : List UInt8) (s : σ) : ℤ × List Programming × σ :=
  let s := driver.clearFlag (driver.unlock s)
  let (calls, s) := writeLoop driver offset data s
  let s := driver.lock s
  (if readBack driver s offset data.length = data then 0 else -1, calls, s)

/-- Programming byte by byte. -/
def writeBytes : UInt32 → List UInt8 → σ → List Programming × σ
  | _, [], s => ([], s)
  | destination, b :: bs, s =>
    let (calls, s) := tryProgramming driver (.byte destination b) maxTries s
    let (rest, s) := writeBytes (destination + 1) bs s
    (calls ++ rest, s)

variable {driver} {offset : UInt32} {data : List UInt8} {s : σ}

/-! ## Tiling -/

theorem cellsFrom_append (a : UInt32) (bs cs : List UInt8) :
    cellsFrom a (bs ++ cs) = cellsFrom a bs ++ cellsFrom (a + .ofNat bs.length) cs := by
  induction bs generalizing a with
  | nil => simp [cellsFrom]
  | cons b bs ih =>
    rw [List.cons_append, cellsFrom, cellsFrom, ih, List.cons_append, List.length_cons]
    have hnext : a + 1 + UInt32.ofNat bs.length = a + UInt32.ofNat (bs.length + 1) := by
      rw [UInt32.ofNat_add, UInt32.add_assoc, UInt32.add_comm 1]
      rfl
    rw [hnext]

theorem cellsFrom_eq_mapIdx (a : UInt32) (bs : List UInt8) :
    cellsFrom a bs = bs.mapIdx fun i b ↦ (a + .ofNat i, b) := by
  induction bs using List.reverseRecOn with
  | nil => rfl
  | append_singleton bs b ih =>
    rw [cellsFrom_append, ih, List.mapIdx_concat]
    rfl

theorem programCells_append (mem : UInt32 → UInt8) (cs ds : List (UInt32 × UInt8)) :
    programCells mem (cs ++ ds) = programCells (programCells mem cs) ds := List.foldl_append

theorem le_of_ptrdiff {k n : ℕ} (h : ptrdiff n ≥ k) : k ≤ n := by
  rw [ptrdiff] at h
  omega

theorem toNat_mod_four {a : UInt32} (h : a &&& 0x03 = 0) : a.toNat % 4 = 0 := by
  have hnat := congrArg UInt32.toNat h
  rwa [UInt32.toNat_and, show (0x03 : UInt32).toNat = 2 ^ 2 - 1 from rfl,
    Nat.and_two_pow_sub_one_eq_mod] at hnat

theorem toNat_mod_two {a : UInt32} (h : a &&& 0x01 = 0) : a.toNat % 2 = 0 := by
  have hnat := congrArg UInt32.toNat h
  rwa [UInt32.toNat_and, show (0x01 : UInt32).toNat = 2 ^ 1 - 1 from rfl,
    Nat.and_two_pow_sub_one_eq_mod] at hnat

theorem exists_cons_two (h : 2 ≤ data.length) : ∃ b₀ b₁ rest, data = b₀ :: b₁ :: rest := by
  match data, h with
  | b₀ :: b₁ :: rest, _ => exact ⟨b₀, b₁, rest, rfl⟩

theorem exists_cons_four (h : 4 ≤ data.length) :
    ∃ b₀ b₁ b₂ b₃ rest, data = b₀ :: b₁ :: b₂ :: b₃ :: rest := by
  match data, h with
  | b₀ :: b₁ :: b₂ :: b₃ :: rest, _ => exact ⟨b₀, b₁, b₂, b₃, rest, rfl⟩

/-- **The next call** programs the bytes at the front of the data, at an aligned address. -/
theorem nextProgramming_spec (destination : UInt32) (hdata : data ≠ []) :
    (nextProgramming destination data).address = destination ∧
      (nextProgramming destination data).bytes =
        data.take (nextProgramming destination data).size ∧
      (nextProgramming destination data).Aligned := by
  rw [nextProgramming]
  split
  · rename_i hword
    obtain ⟨b₀, b₁, b₂, b₃, rest, rfl⟩ := exists_cons_four (le_of_ptrdiff hword.2)
    refine ⟨rfl, ?_, ?_⟩
    · exact bytes32_word32 b₃ b₂ b₁ b₀
    · change destination.toNat % 4 = 0
      exact toNat_mod_four hword.1
  · split
    · rename_i hhalf
      obtain ⟨b₀, b₁, rest, rfl⟩ := exists_cons_two (le_of_ptrdiff hhalf.2)
      refine ⟨rfl, ?_, ?_⟩
      · exact bytes16_word16 b₁ b₀
      · change destination.toNat % 2 = 0
        exact toNat_mod_two hhalf.1
    · obtain ⟨b, rest, rfl⟩ := List.exists_cons_of_ne_nil hdata
      exact ⟨rfl, rfl, Nat.mod_one _⟩

/-- One call is enough. -/
theorem tryProgramming_eq (h : driver.Completes) {p : Programming} (hs : driver.unlocked s)
    (hp : p.Aligned) (tries : ℕ) :
    tryProgramming driver p tries s = ([p], (driver.program p s).2) := by
  cases tries with
  | zero => rfl
  | succ tries =>
    rw [tryProgramming]
    dsimp only
    rw [if_neg (not_not.mpr (h.program p s hs hp).1)]

/-- **The loop** tiles the range: its calls program the bytes of the data one after the other. -/
theorem writeLoop_spec (h : driver.Completes) (offset : UInt32) (data : List UInt8)
    (hs : driver.unlocked s) :
    (writeLoop driver offset data s).1.flatMap Programming.cells = cellsFrom offset data ∧
      (∀ p ∈ (writeLoop driver offset data s).1, p.Aligned) ∧
      driver.memory (writeLoop driver offset data s).2 =
        programCells (driver.memory s) (cellsFrom offset data) := by
  induction hn : data.length using Nat.strong_induction_on generalizing offset data s with
  | h n ih =>
    rw [writeLoop]
    by_cases hdata : data = []
    · subst hdata
      rw [dif_pos rfl]
      exact ⟨rfl, fun p hp ↦ absurd hp List.not_mem_nil, rfl⟩
    · obtain ⟨haddress, hbytes, haligned⟩ := nextProgramming_spec offset hdata
      rw [dif_neg hdata]
      generalize nextProgramming offset data = p at haddress hbytes haligned
      obtain ⟨-, hunlocked, hprogram⟩ := h.program p s hs haligned
      dsimp only
      rw [tryProgramming_eq h hs haligned]
      -- the cells of the call are those at the front
      have hcells : cellsFrom offset data =
          p.cells ++ cellsFrom (offset + .ofNat p.size) (data.drop p.size) := by
        have happend := cellsFrom_append offset p.bytes (data.drop p.size)
        have hfront : p.bytes ++ data.drop p.size = data := by
          rw [hbytes, List.take_append_drop]
        rw [hfront, ← Programming.size] at happend
        rw [happend, Programming.cells, haddress]
      obtain ⟨hrest, halignedRest, hmemory⟩ := ih (data.drop p.size).length
        (by
          rw [List.length_drop, ← hn]
          exact Nat.sub_lt (List.length_pos_of_ne_nil hdata) (size_pos _))
        (offset + .ofNat p.size) (data.drop p.size) hunlocked rfl
      refine ⟨?_, ?_, ?_⟩
      · rw [List.singleton_append, List.flatMap_cons, hrest, hcells]
      · intro q hq
        rcases List.mem_cons.mp hq with rfl | hq
        · exact haligned
        · exact halignedRest q hq
      · rw [hmemory, hprogram, ← programCells_append, ← hcells]

theorem writeBytes_spec (h : driver.Completes) (offset : UInt32) (data : List UInt8)
    (hs : driver.unlocked s) :
    driver.memory (writeBytes driver offset data s).2 =
      programCells (driver.memory s) (cellsFrom offset data) := by
  induction data generalizing offset s with
  | nil => rfl
  | cons b bs ih =>
    have haligned : (Programming.byte offset b).Aligned := Nat.mod_one _
    obtain ⟨-, hunlocked, hprogram⟩ := h.program _ s hs haligned
    rw [writeBytes]
    dsimp only
    rw [tryProgramming_eq h hs haligned, ih _ hunlocked, hprogram]
    rfl

/-- The device is ready for the loop, with the contents it had. -/
theorem prepared (h : driver.Completes) (s : σ) :
    driver.unlocked (driver.clearFlag (driver.unlock s)) ∧
      driver.memory (driver.clearFlag (driver.unlock s)) = driver.memory s := by
  obtain ⟨hunlocked, hunlock⟩ := h.unlock s
  obtain ⟨hclear, hmemory⟩ := h.clearFlag (driver.unlock s)
  constructor
  · rw [hclear]
    exact hunlocked
  · rw [hmemory, hunlock]

theorem ofNat_injective {i j : ℕ} (hi : i < 4294967296) (hj : j < 4294967296)
    (h : offset + UInt32.ofNat i = offset + UInt32.ofNat j) : i = j := by
  have hnat := congrArg UInt32.toNat ((UInt32.add_right_inj offset).mp h)
  rwa [UInt32.toNat_ofNat', UInt32.toNat_ofNat', Nat.mod_eq_of_lt hi, Nat.mod_eq_of_lt hj] at hnat

/-- **Programming in mixed widths** is programming byte by byte: each byte of the range is
programmed exactly once, with the byte of the data for it, and nothing else is. -/
theorem write_tiles (h : driver.Completes) (offset : UInt32) (data : List UInt8)
    (hsize : data.length < 4294967296) (s : σ) :
    (write driver offset data s).2.1.flatMap Programming.cells =
        data.mapIdx (fun i b ↦ (offset + .ofNat i, b)) ∧
      (((write driver offset data s).2.1.flatMap Programming.cells).map Prod.fst).Nodup ∧
      (∀ p ∈ (write driver offset data s).2.1, p.Aligned) ∧
      driver.memory (write driver offset data s).2.2 = driver.memory
        (writeBytes driver offset data (driver.clearFlag (driver.unlock s))).2 := by
  obtain ⟨hunlocked, -⟩ := prepared h s
  obtain ⟨hcells, haligned, hmemory⟩ := writeLoop_spec h offset data hunlocked
  have htiles : (write driver offset data s).2.1.flatMap Programming.cells =
      data.mapIdx (fun i b ↦ (offset + .ofNat i, b)) :=
    hcells.trans (cellsFrom_eq_mapIdx offset data)
  refine ⟨htiles, ?_, haligned, ?_⟩
  · have haddresses : (data.mapIdx fun i b ↦ (offset + UInt32.ofNat i, b)).map Prod.fst =
        (List.range data.length).map fun i ↦ offset + UInt32.ofNat i := by
      refine List.ext_getElem (by simp) fun i h1 h2 ↦ ?_
      simp
    rw [htiles, haddresses]
    refine List.Nodup.map_on (fun i hi j hj hij ↦ ?_) List.nodup_range
    have hi := List.mem_range.mp hi
    have hj := List.mem_range.mp hj
    exact ofNat_injective (by omega) (by omega) hij
  · rw [writeBytes_spec h offset data hunlocked, ← hmemory]
    exact h.lock _

/-- A device that only fails at an address that is not aligned, or while it is locked. -/
def simulated : FlashDriver (Bool × (UInt32 → UInt8)) where
  unlock s := (true, s.2)
  clearFlag s := s
  program p s :=
    if !s.1 then (.errorWrp, s)
    else if p.Aligned then (.complete, s.1, programCells s.2 p.cells)
    else (.errorPga, s)
  lock s := (false, s.2)
  unlocked s := s.1
  memory s := s.2

theorem simulated_completes : simulated.Completes where
  program p s hs hp := by
    obtain ⟨unlocked, mem⟩ := s
    obtain rfl : unlocked = true := hs
    have hprogram : simulated.program p (true, mem) =
        (.complete, true, programCells mem p.cells) := if_pos hp
    rw [hprogram]
    exact ⟨rfl, rfl, rfl⟩
  unlock _ := ⟨rfl, rfl⟩
  clearFlag _ := ⟨rfl, rfl⟩
  lock _ := rfl

/-- Seven bytes at an odd address are programmed as a byte, a half-word and a word. -/
theorem write_tiles_seven :
    (write simulated 0x08004001 [1, 2, 3, 4, 5, 6, 7] (false, fun _ ↦ 0xFF)).2.1 =
        [.byte 0x08004001 1, .halfWord 0x08004002 0x0302, .word 0x08004004 0x07060504] ∧
      (((write simulated 0x08004001 [1, 2, 3, 4, 5, 6, 7]
        (false, fun _ ↦ 0xFF)).2.1.flatMap Programming.cells).map Prod.fst).Nodup :=
  ⟨by decide +kernel, (write_tiles simulated_completes _ _ (by decide) _).2.1⟩

/-! ## The flash as an array -/

/-- The contents by address. -/
def toMemory (mem : UInt32 → UInt8) : Memory := fun x ↦ mem (.ofNat x)

theorem toMemory_update (mem : UInt32 → UInt8) (offset : UInt32) (b : UInt8) {x : ℕ}
    (hx : x < 4294967296) :
    toMemory (Function.update mem offset (mem offset &&& b)) x =
      (toMemory mem).program offset.toNat [b] x := by
  by_cases h : x = offset.toNat
  · subst h
    have happly := Memory.program_apply (toMemory mem) offset.toNat 0 [b]
    rw [Nat.add_zero] at happly
    rw [happly, toMemory, toMemory, UInt32.ofNat_toNat, Function.update_self]
    rfl
  · have hne : UInt32.ofNat x ≠ offset := by
      rintro rfl
      rw [UInt32.toNat_ofNat', Nat.mod_eq_of_lt hx] at h
      exact h rfl
    have happly : (toMemory mem).program offset.toNat [b] x = toMemory mem x := by
      refine Memory.program_apply_of_not_mem ?_
      rw [List.length_singleton]
      omega
    rw [happly, toMemory, Function.update_of_ne hne, toMemory]

/-- Below the end of the address space, the range is programmed as in a NOR flash. -/
theorem programCells_eq_program (mem : UInt32 → UInt8) (offset : UInt32) (data : List UInt8)
    (hrange : offset.toNat + data.length ≤ 4294967296) {x : ℕ} (hx : x < 4294967296) :
    toMemory (programCells mem (cellsFrom offset data)) x =
      (toMemory mem).program offset.toNat data x := by
  induction data generalizing mem offset with
  | nil =>
    rw [Memory.program_nil]
    rfl
  | cons b bs ih =>
    have hupdate := toMemory_update mem offset b hx
    rw [Memory.program_cons]
    rcases bs with _ | ⟨c, cs⟩
    · rw [Memory.program_nil]
      exact hupdate
    · rw [List.length_cons, List.length_cons] at hrange
      have hnext : (offset + 1).toNat = offset.toNat + 1 := by
        rw [UInt32.toNat_add, show (1 : UInt32).toNat = 1 from rfl]
        omega
      have hrest := ih (Function.update mem offset (mem offset &&& b)) (offset + 1) (by
        rw [List.length_cons, hnext]
        omega)
      rw [hnext, Memory.program, hupdate] at hrest
      exact hrest

/-- `write` programs the store that the other proofs about flash work on. -/
theorem write_program (h : driver.Completes) (offset : UInt32) (data : List UInt8) (s : σ)
    (hrange : offset.toNat + data.length ≤ 4294967296) {x : ℕ} (hx : x < 4294967296) :
    toMemory (driver.memory (write driver offset data s).2.2) x =
      (toMemory (driver.memory s)).program offset.toNat data x := by
  obtain ⟨hunlocked, hprepared⟩ := prepared h s
  obtain ⟨-, -, hmemory⟩ := writeLoop_spec h offset data hunlocked
  have hlock : driver.memory (write driver offset data s).2.2 =
      programCells (driver.memory s) (cellsFrom offset data) := by
    rw [← hprepared, ← hmemory]
    exact h.lock _
  rw [hlock, programCells_eq_program _ _ _ hrange hx]

end InternalFlashStore

end DuoFirmware.Hal
