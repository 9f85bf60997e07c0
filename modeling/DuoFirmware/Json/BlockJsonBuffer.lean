import Mathlib.Tactic

/-!
# The dynamic buffer

`BlockJsonBuffer` hands out memory from the newest of the blocks that it got from `malloc`. As long
as `malloc` and the callers keep to half of the address space, what is handed out lies inside of the
blocks and apart from all that was handed out before.
-/

namespace DuoFirmware.Json

/-- A block, and the number of bytes that `malloc` was asked for. -/
structure Block where
  allocated : ℕ
  capacity : ℕ
  size : ℕ

/-- `BlockJsonBuffer`, with the blocks from its head on; numbers have 32 bits. -/
structure BlockJsonBuffer where
  blocks : List Block
  nextBlockSize : ℕ

/-- A pointer into the data of a block; blocks are counted from the oldest one on. -/
structure Place where
  block : ℕ
  offset : ℕ

namespace BlockJsonBuffer

/-- `sizeof(EmptyBlock)`: a pointer and two sizes. -/
def sizeofEmptyBlock : ℕ := 12

def roundSizeUp (bytes : ℕ) : ℕ := (bytes + 3) % 2 ^ 32 / 4 * 4

def new (initialSize : ℕ) : BlockJsonBuffer := ⟨[], initialSize⟩

variable (b : BlockJsonBuffer) (malloc : ℕ → Bool)

def canAllocInHead (bytes : ℕ) : Bool :=
  match b.blocks with
  | [] => false
  | head :: _ => (head.size + bytes) % 2 ^ 32 ≤ head.capacity

def allocInHead (bytes : ℕ) : Option Place × BlockJsonBuffer :=
  match b.blocks with
  | [] => (none, b)
  | head :: rest =>
    let newSize := (head.size + roundSizeUp bytes) % 2 ^ 32
    (some ⟨rest.length, head.size⟩, { b with blocks := { head with size := newSize } :: rest })

/-- `addNewBlock`; `malloc` says how much memory it would give at this time. -/
def addNewBlock (capacity : ℕ) : Option BlockJsonBuffer :=
  let bytes := (sizeofEmptyBlock + capacity) % 2 ^ 32
  if malloc bytes then some { b with blocks := ⟨bytes, capacity, 0⟩ :: b.blocks } else none

def allocInNewBlock (bytes : ℕ) : Option Place × BlockJsonBuffer :=
  let capacity := if bytes > b.nextBlockSize then bytes else b.nextBlockSize
  match b.addNewBlock malloc capacity with
  | none => (none, b)
  | some b' => allocInHead { b' with nextBlockSize := b'.nextBlockSize * 2 % 2 ^ 32 } bytes

def alloc (bytes : ℕ) : Option Place × BlockJsonBuffer :=
  if b.canAllocInHead bytes then b.allocInHead bytes else b.allocInNewBlock malloc bytes

/-- What is handed out in a run of requests, with the sizes that were asked for. -/
def run : BlockJsonBuffer → List (ℕ × (ℕ → Bool)) → List (Place × ℕ) × BlockJsonBuffer
  | b, [] => ([], b)
  | b, (bytes, malloc) :: requests =>
    let (p, b') := b.alloc malloc bytes
    let (rest, b'') := run b' requests
    ((p.map fun p ↦ (p, bytes)).toList ++ rest, b'')

/-! ## Areas -/

/-- What was handed out first lies in an older block, or in front in the same one. -/
def Before (a a' : Place × ℕ) : Prop :=
  a.1.block < a'.1.block ∨ a.1.block = a'.1.block ∧ a.1.offset + a.2 ≤ a'.1.offset

/-- The block is inside the memory that it was given, and not filled beyond the last word. -/
structure SoundBlock (block : Block) : Prop where
  allocated_eq : block.allocated = sizeofEmptyBlock + block.capacity
  allocated_lt : block.allocated < 2 ^ 31
  size_le : block.size ≤ block.capacity + 3
  aligned : block.size % 4 = 0

/-- An area lies in the filled part of a block, and starts at a word. -/
structure Inside (block : Block) (a : Place × ℕ) : Prop where
  capacity : a.1.offset + a.2 ≤ block.capacity
  size : a.1.offset + a.2 ≤ block.size
  aligned : a.1.offset % 4 = 0

/-- The areas that were handed out lie inside of the blocks and apart from each other. -/
structure Sound (b : BlockJsonBuffer) (areas : List (Place × ℕ)) : Prop where
  next_lt : b.nextBlockSize < 2 ^ 32
  next_mod : b.nextBlockSize % 16 = 0
  blocks : ∀ block ∈ b.blocks, SoundBlock block
  inside : ∀ a ∈ areas, ∃ block, b.blocks.reverse[a.1.block]? = some block ∧ Inside block a
  before : areas.Pairwise Before

variable {b malloc} {areas : List (Place × ℕ)} {head : Block} {rest : List Block} {bytes : ℕ}

theorem roundSizeUp_spec (h : bytes ≤ 2 ^ 31) : bytes ≤ roundSizeUp bytes ∧
    roundSizeUp bytes ≤ bytes + 3 ∧ roundSizeUp bytes % 4 = 0 := by
  rw [roundSizeUp, Nat.mod_eq_of_lt (by omega)]
  omega

theorem sound_new {initialSize : ℕ} (hlt : initialSize < 2 ^ 32) (hmod : initialSize % 16 = 0) :
    Sound (new initialSize) [] where
  next_lt := hlt
  next_mod := hmod
  blocks := fun _ h ↦ absurd h List.not_mem_nil
  inside := fun _ h ↦ absurd h List.not_mem_nil
  before := .nil

/-- **An area in the head** lies behind all others. -/
theorem Sound.allocInHead (h : Sound b areas) (hb : b.blocks = head :: rest)
    (hbytes : bytes ≤ 2 ^ 31) (hfits : head.size + bytes ≤ head.capacity) :
    ∃ p b', b.allocInHead bytes = (some p, b') ∧ Sound b' (areas ++ [(p, bytes)]) := by
  obtain ⟨hhead, hrest⟩ := List.forall_mem_cons.mp (hb ▸ h.blocks)
  obtain ⟨hle, hround, hmod⟩ := roundSizeUp_spec hbytes
  have hallocated := hhead.allocated_eq
  have hlt := hhead.allocated_lt
  have haligned := hhead.aligned
  rw [sizeofEmptyBlock] at hallocated
  have hsize : (head.size + roundSizeUp bytes) % 2 ^ 32 = head.size + roundSizeUp bytes :=
    Nat.mod_eq_of_lt (by omega)
  refine ⟨⟨rest.length, head.size⟩, { b with blocks :=
    { head with size := head.size + roundSizeUp bytes } :: rest }, ?_, ?_⟩
  · simp only [BlockJsonBuffer.allocInHead, hb, hsize]
  refine ⟨h.next_lt, h.next_mod, List.forall_mem_cons.mpr ⟨?_, hrest⟩, ?_, ?_⟩
  · exact ⟨hhead.allocated_eq, hlt, by dsimp only; omega, by dsimp only; omega⟩
  · intro a ha
    rw [List.reverse_cons]
    rcases List.mem_append.mp ha with ha | ha
    · obtain ⟨block, hblock, hinside⟩ := h.inside a ha
      rw [hb, List.reverse_cons] at hblock
      rcases lt_or_ge a.1.block rest.length with hold | hnew
      · rw [List.getElem?_append_left (by rwa [List.length_reverse])] at hblock ⊢
        exact ⟨block, hblock, hinside⟩
      · rw [List.getElem?_append_right (by rwa [List.length_reverse])] at hblock ⊢
        obtain ⟨hindex, hblock'⟩ := List.getElem?_eq_some_iff.mp hblock
        rw [List.length_singleton, Nat.lt_one_iff] at hindex
        rw [hindex] at hblock ⊢
        obtain rfl : head = block := Option.some.inj hblock
        exact ⟨_, rfl, hinside.capacity, hinside.size.trans (Nat.le_add_right ..), hinside.aligned⟩
    · obtain rfl := List.mem_singleton.mp ha
      refine ⟨{ head with size := head.size + roundSizeUp bytes }, ?_, ?_⟩
      · rw [List.getElem?_append_right (by rw [List.length_reverse]), List.length_reverse,
          Nat.sub_self]
        rfl
      · exact ⟨hfits, by dsimp only; omega, haligned⟩
  · refine List.pairwise_append.mpr ⟨h.before, List.pairwise_singleton .., fun a ha a' ha' ↦ ?_⟩
    obtain rfl := List.mem_singleton.mp ha'
    obtain ⟨block, hblock, hinside⟩ := h.inside a ha
    rw [hb, List.reverse_cons] at hblock
    rcases lt_or_ge a.1.block rest.length with hold | hnew
    · exact .inl hold
    · rw [List.getElem?_append_right (by rwa [List.length_reverse])] at hblock
      obtain ⟨hindex, -⟩ := List.getElem?_eq_some_iff.mp hblock
      rw [List.length_singleton, Nat.lt_one_iff] at hindex
      rw [hindex] at hblock
      obtain rfl : head = block := Option.some.inj hblock
      rw [List.length_reverse] at hindex
      exact .inr ⟨by dsimp only; omega, hinside.size⟩

/-- **A new block** holds nothing yet. -/
theorem Sound.addNewBlock {capacity : ℕ} (h : Sound b areas)
    (hmalloc : ∀ n, malloc n = true → n < 2 ^ 31)
    (hcapacity : sizeofEmptyBlock + capacity < 2 ^ 32) {b' : BlockJsonBuffer}
    (hrun : b.addNewBlock malloc capacity = some b') :
    b'.blocks = ⟨sizeofEmptyBlock + capacity, capacity, 0⟩ :: b.blocks ∧
      b'.nextBlockSize = b.nextBlockSize ∧ Sound b' areas := by
  simp only [BlockJsonBuffer.addNewBlock, Nat.mod_eq_of_lt hcapacity] at hrun
  split_ifs at hrun with hgiven
  obtain rfl := Option.some.inj hrun
  refine ⟨rfl, rfl, h.next_lt, h.next_mod, List.forall_mem_cons.mpr ⟨?_, h.blocks⟩, ?_, h.before⟩
  · exact ⟨rfl, hmalloc _ hgiven, Nat.zero_le _, rfl⟩
  · intro a ha
    obtain ⟨block, hblock, hinside⟩ := h.inside a ha
    refine ⟨block, ?_, hinside⟩
    rw [List.reverse_cons, List.getElem?_append_left (List.getElem?_eq_some_iff.mp hblock).1]
    exact hblock

/-- **One request** adds an area, or nothing. -/
theorem Sound.alloc (h : Sound b areas)
    (hmalloc : ∀ n, malloc n = true → n < 2 ^ 31) (hbytes : bytes ≤ 2 ^ 31) :
    ∃ p b', b.alloc malloc bytes = (p, b') ∧
      Sound b' (areas ++ (p.map fun p ↦ (p, bytes)).toList) := by
  by_cases hcan : b.canAllocInHead bytes = true
  · cases hb : b.blocks with
    | nil =>
      rw [canAllocInHead, hb] at hcan
      exact absurd hcan Bool.false_ne_true
    | cons head rest =>
      have hhead := h.blocks head (hb ▸ List.mem_cons_self)
      have hfits : (head.size + bytes) % 2 ^ 32 ≤ head.capacity := by
        simpa only [canAllocInHead, hb, decide_eq_true_eq] using hcan
      have hsize := hhead.size_le
      have hallocated := hhead.allocated_eq
      have hlt := hhead.allocated_lt
      rw [sizeofEmptyBlock] at hallocated
      rw [Nat.mod_eq_of_lt (by omega)] at hfits
      obtain ⟨p, b', hrun, hb'⟩ := h.allocInHead hb hbytes hfits
      exact ⟨some p, b', by rw [BlockJsonBuffer.alloc, if_pos hcan, hrun], hb'⟩
  · have hlt := h.next_lt
    have hmod := h.next_mod
    rw [BlockJsonBuffer.alloc, if_neg hcan, allocInNewBlock]
    generalize hcapacity : (if bytes > b.nextBlockSize then bytes else b.nextBlockSize) = capacity
    have hfits : bytes ≤ capacity ∧ sizeofEmptyBlock + capacity < 2 ^ 32 := by
      rw [sizeofEmptyBlock]
      split_ifs at hcapacity <;> omega
    cases hrun : b.addNewBlock malloc capacity with
    | none => exact ⟨none, b, rfl, by simpa using h⟩
    | some b' =>
      obtain ⟨hblocks, hnext, hb'⟩ := h.addNewBlock hmalloc hfits.2 hrun
      have hdoubled : Sound { b' with nextBlockSize := b'.nextBlockSize * 2 % 2 ^ 32 } areas :=
        ⟨Nat.mod_lt _ (by decide), by rw [hnext]; dsimp only; omega, hb'.blocks, hb'.inside,
          hb'.before⟩
      obtain ⟨p, b'', hhead, hb''⟩ := hdoubled.allocInHead hblocks hbytes (by simpa using hfits.1)
      exact ⟨some p, b'', hhead, hb''⟩

/-- A request is for at most half of the address space, and `malloc` does not give more. -/
def Moderate (request : ℕ × (ℕ → Bool)) : Prop :=
  request.1 ≤ 2 ^ 31 ∧ ∀ n, request.2 n = true → n < 2 ^ 31

theorem Sound.run (h : Sound b areas) {requests : List (ℕ × (ℕ → Bool))}
    (hrequests : ∀ request ∈ requests, Moderate request) :
    Sound (run b requests).2 (areas ++ (run b requests).1) := by
  induction requests generalizing b areas with
  | nil =>
    rw [BlockJsonBuffer.run, List.append_nil]
    exact h
  | cons request requests ih =>
    obtain ⟨⟨hbytes, hmalloc⟩, hrequests⟩ := List.forall_mem_cons.mp hrequests
    obtain ⟨p, b', hrun, hb'⟩ := h.alloc hmalloc hbytes
    have hrest := ih hb' hrequests
    rw [List.append_assoc] at hrest
    rw [BlockJsonBuffer.run, hrun]
    exact hrest

/-- **Every run of requests** on a new buffer hands out areas inside of its blocks that do not
overlap. -/
theorem areas_are_apart {initialSize : ℕ} (hlt : initialSize < 2 ^ 32) (hmod : initialSize % 16 = 0)
    {requests : List (ℕ × (ℕ → Bool))} (hrequests : ∀ request ∈ requests, Moderate request) :
    Sound (run (new initialSize) requests).2 (run (new initialSize) requests).1 :=
  (sound_new hlt hmod).run hrequests

/-- A request that wraps around gets a block that is too small for its header. -/
example : ((new 256).alloc (fun _ ↦ true) (2 ^ 32 - 4)).2.blocks =
    [⟨8, 2 ^ 32 - 4, 2 ^ 32 - 4⟩] := rfl

/-- The default size, and a second request that `malloc` refuses. -/
def threeRequests : List (ℕ × (ℕ → Bool)) :=
  [(10, fun n ↦ n ≤ 1000), (300, fun _ ↦ false), (7, fun n ↦ n ≤ 1000)]

theorem areas_are_apart_three : (run (new 256) threeRequests).1 = [(⟨0, 0⟩, 10), (⟨0, 12⟩, 7)] ∧
    Sound (run (new 256) threeRequests).2 [(⟨0, 0⟩, 10), (⟨0, 12⟩, 7)] := by
  refine ⟨rfl, areas_are_apart (by decide) (by decide) fun request hrequest ↦ ?_⟩
  simp only [threeRequests, List.mem_cons, List.not_mem_nil, or_false] at hrequest
  rcases hrequest with rfl | rfl | rfl
  · exact ⟨by decide, fun n hn ↦ (of_decide_eq_true hn).trans_lt (by decide)⟩
  · exact ⟨by decide, fun n hn ↦ absurd hn Bool.false_ne_true⟩
  · exact ⟨by decide, fun n hn ↦ (of_decide_eq_true hn).trans_lt (by decide)⟩

end BlockJsonBuffer

end DuoFirmware.Json
