import Mathlib.Tactic

/-!
# The list that only grows

`append_list` counts its elements, and the elements it adds to its storage at a time, in bytes.
The parameter of `expand` hides the member `capacity`, which therefore stays zero, and every call
of `add` asks for storage again. A program fails when it stores an element behind the storage.
-/

namespace DuoFirmware.System

structure AppendList (T : Type) where
  count : UInt8
  capacity : UInt8
  blockSize : UInt8
  /-- The elements at `store`, with nothing in those that have not been written. -/
  store : List (Option T)

namespace AppendList

variable {T : Type}

/-! ## Functions -/

/-- The constructor. -/
def new (block : UInt32) : AppendList T := ⟨0, 0, block.toUInt8, []⟩

/-- Storage for `n` elements that keeps the old ones. -/
def realloc (store : List (Option T)) (n : ℕ) : List (Option T) :=
  store.take n ++ List.replicate (n - store.length) none

variable (s : AppendList T)

/-- `expand`; `memory` says whether there is storage. -/
def expand (capacity : UInt32) (memory : Bool) : Bool × AppendList T :=
  if capacity > 255 then (false, s)
  else if memory then (true, { s with store := realloc s.store capacity.toNat })
  else (false, s)

def add (item : T) (memory : Bool) : Option (Bool × AppendList T) :=
  let (space, s) :=
    if s.count < s.capacity then (true, s)
    else s.expand (s.count.toUInt32 + s.blockSize.toUInt32) memory
  if space then
    if s.count.toNat < s.store.length then
      some (true, { s with
        store := s.store.set s.count.toNat (some item)
        count := s.count + 1 })
    else none
  else some (false, s)

/-- `add` of an element that is initialised with its value; the pointer that it returns, as an
index into the storage. -/
def addNew [Inhabited T] (memory : Bool) : Option (Option ℤ × AppendList T) := do
  let (ok, s) ← s.add default memory
  some (if ok then some (s.count.toNat - 1) else none, s)

/-- Access to an element. -/
def get (index : ℕ) : Option T := s.store[index]?.join

def size : UInt32 := s.count.toUInt32

/-! ## Calls -/

inductive Call (T : Type) where
  | add (item : T)
  | addNew

inductive Result where
  | added (ok : Bool)
  | pointer (index : Option ℤ)

def Call.item [Inhabited T] : Call T → T
  | .add item => item
  | .addNew => default

def call [Inhabited T] (memory : Bool) : Call T → Option (Result × AppendList T)
  | .add item => (s.add item memory).map fun r ↦ (.added r.1, r.2)
  | .addNew => (s.addNew memory).map fun r ↦ (.pointer r.1, r.2)

/-- The result of a call that has added the element at an index. -/
def succeeded (n : ℕ) : Call T → Result
  | .add _ => .added true
  | .addNew => .pointer (some n)

def failed : Call T → Result
  | .add _ => .added false
  | .addNew => .pointer none

/-- Indexing from zero to the size yields some elements in order. -/
structure Elements (s : AppendList T) (xs : List T) : Prop where
  size : s.size.toNat = xs.length
  get : ∀ i x, xs[i]? = some x → s.get i = some x

/-- **The list stays inside its storage** and has the elements `xs`: so it is now, and each of some
calls stores its element inside the storage and leaves a list with one element more, or fails and
changes nothing. With each call goes whether there is storage then. -/
def StaysInside [Inhabited T] : AppendList T → List T → List (Call T × Bool) → Prop
  | s, xs, [] => Elements s xs
  | s, xs, (c, memory) :: calls => Elements s xs ∧
    ((∃ s', s.call memory c = some (succeeded xs.length c, s') ∧
        StaysInside s' (xs ++ [c.item]) calls) ∨
      s.call memory c = some (failed c, s) ∧ StaysInside s xs calls)

/-! ## What a call does -/

variable {s} {xs : List T} {x : T} {memory : Bool}

theorem length_realloc (store : List (Option T)) (n : ℕ) : (realloc store n).length = n := by
  rw [realloc, List.length_append, List.length_take, List.length_replicate]
  omega

theorem getElem?_realloc {store : List (Option T)} {n i : ℕ} (hi : i < store.length)
    (hn : i < n) : (realloc store n)[i]? = store[i]? := by
  rw [realloc, List.getElem?_append_left (by rw [List.length_take]; omega),
    List.getElem?_take_of_lt hn]

/-- **A call of `add`**, where the member `capacity` is still zero: it needs storage, and a block
that is not empty. -/
theorem add_eq (hcapacity : s.capacity = 0) (x : T) (memory : Bool) : s.add x memory =
    if memory = true ∧ s.count.toNat + s.blockSize.toNat ≤ 255 then
      if 0 < s.blockSize.toNat then
        some (true, { s with
          store := (realloc s.store (s.count.toNat + s.blockSize.toNat)).set s.count.toNat (some x)
          count := s.count + 1 })
      else none
    else some (false, s) := by
  have hcount := s.count.toNat_lt
  have hblock := s.blockSize.toNat_lt
  have hsum : (s.count.toUInt32 + s.blockSize.toUInt32).toNat =
      s.count.toNat + s.blockSize.toNat := by
    rw [UInt32.toNat_add, UInt8.toNat_toUInt32, UInt8.toNat_toUInt32]
    omega
  have hlimit : s.count.toUInt32 + s.blockSize.toUInt32 > 255 ↔
      ¬ s.count.toNat + s.blockSize.toNat ≤ 255 := by
    rw [gt_iff_lt, UInt32.lt_iff_toNat_lt, hsum, not_le]
    rfl
  have hzero : ¬ s.count < s.capacity := by
    rw [hcapacity]
    exact UInt8.not_lt_zero
  rw [add, if_neg hzero, expand, hsum]
  by_cases hle : s.count.toNat + s.blockSize.toNat ≤ 255
  · rw [if_neg (fun h ↦ hlimit.mp h hle)]
    cases memory with
    | false => rfl
    | true =>
      rw [if_pos rfl, if_pos ⟨rfl, hle⟩]
      dsimp only
      rw [if_pos rfl, length_realloc]
      by_cases hpos : 0 < s.blockSize.toNat
      · rw [if_pos hpos, if_pos (by omega)]
      · rw [if_neg hpos, if_neg (by omega)]
  · rw [if_pos (hlimit.mpr hle), if_neg (fun h ↦ hle h.2)]
    rfl

theorem call_failed [Inhabited T] {c : Call T} (h : s.add c.item memory = some (false, s)) :
    s.call memory c = some (failed c, s) := by
  cases c with
  | add item =>
    rw [Call.item] at h
    rw [call, h]
    rfl
  | addNew =>
    rw [Call.item] at h
    rw [call, addNew, h]
    rfl

theorem call_succeeded [Inhabited T] {c : Call T} {s' : AppendList T} {n : ℕ}
    (h : s.add c.item memory = some (true, s')) (hcount : s'.count.toNat = n + 1) :
    s.call memory c = some (succeeded n c, s') := by
  cases c with
  | add item =>
    rw [Call.item] at h
    rw [call, h]
    rfl
  | addNew =>
    have hindex : (s'.count.toNat : ℤ) - 1 = n := by
      rw [hcount]
      omega
    rw [Call.item] at h
    rw [call, addNew, h, succeeded, ← hindex]
    rfl

theorem call_eq_none [Inhabited T] {c : Call T} (h : s.add c.item memory = none) :
    s.call memory c = none := by
  cases c with
  | add item =>
    rw [Call.item] at h
    rw [call, h]
    rfl
  | addNew =>
    rw [Call.item] at h
    rw [call, addNew, h]
    rfl

theorem Elements.count_eq (h : Elements s xs) : s.count.toNat = xs.length := by
  rw [← h.size, AppendList.size, UInt8.toNat_toUInt32]

/-- **Storing an element** behind the others, in storage that has room for it. -/
theorem Elements.stored (h : Elements s xs) {n : ℕ} (hn : s.count.toNat < n) (hmax : n ≤ 255)
    (x : T) : Elements { s with
      store := (realloc s.store n).set s.count.toNat (some x)
      count := s.count + 1 } (xs ++ [x]) := by
  have hcount : (s.count + 1).toNat = s.count.toNat + 1 := by
    rw [UInt8.toNat_add, UInt8.toNat_one]
    omega
  refine ⟨?_, fun i y hy ↦ ?_⟩
  · rw [AppendList.size, UInt8.toNat_toUInt32, hcount, h.count_eq, List.length_append,
      List.length_singleton]
  · rw [AppendList.get]
    rcases Nat.lt_trichotomy i xs.length with hi | rfl | hi
    · rw [List.getElem?_append_left hi] at hy
      have hold := h.get i y hy
      have hlt : i < s.store.length := by
        by_contra hge
        rw [AppendList.get, List.getElem?_eq_none (not_lt.mp hge)] at hold
        cases hold
      rw [List.getElem?_set_ne (by rw [h.count_eq]; omega),
        getElem?_realloc hlt (by rw [h.count_eq] at hn; omega)]
      exact hold
    · rw [List.getElem?_concat_length] at hy
      rw [h.count_eq] at hn ⊢
      rw [List.getElem?_set_self (by rwa [length_realloc]), ← hy]
      rfl
    · rw [List.getElem?_eq_none (by rw [List.length_append]; exact hi)] at hy
      cases hy

/-! ## Runs -/

theorem elements_new (block : UInt32) : Elements (new block : AppendList T) [] :=
  ⟨rfl, fun _ _ h ↦ by cases h⟩

section

variable [Inhabited T] {calls : List (Call T × Bool)}

/-- A list that asks for a block with elements stays inside its storage. -/
theorem Elements.staysInside (h : Elements s xs) (hcapacity : s.capacity = 0)
    (hblock : 0 < s.blockSize.toNat) : s.StaysInside xs calls := by
  induction calls generalizing s xs with
  | nil => exact h
  | cons c calls ih =>
    obtain ⟨c, memory⟩ := c
    refine ⟨h, ?_⟩
    have hadd := add_eq hcapacity c.item memory
    by_cases hroom : memory = true ∧ s.count.toNat + s.blockSize.toNat ≤ 255
    · have hstored := h.stored (by omega) hroom.2 c.item
      rw [if_pos hroom, if_pos hblock] at hadd
      refine .inl ⟨_, call_succeeded hadd ?_, ih hstored hcapacity hblock⟩
      rw [hstored.count_eq, List.length_append, List.length_singleton]
    · rw [if_neg hroom] at hadd
      exact .inr ⟨call_failed hadd, ih h hcapacity hblock⟩

/-- Without storage every call fails. -/
theorem Elements.staysInside_of_failing (h : Elements s xs) (hcapacity : s.capacity = 0)
    (hfail : ∀ c ∈ calls, c.2 = false) : s.StaysInside xs calls := by
  induction calls with
  | nil => exact h
  | cons c calls ih =>
    obtain ⟨hmemory, hrest⟩ := List.forall_mem_cons.mp hfail
    obtain ⟨c, memory⟩ := c
    have hadd := add_eq hcapacity c.item memory
    rw [if_neg (fun hroom ↦ absurd hroom.1 (ne_true_of_eq_false hmemory))] at hadd
    exact ⟨h, .inr ⟨call_failed hadd, ih hrest⟩⟩

/-- An empty block has no place for the first element. -/
theorem failing_of_staysInside (hcapacity : s.capacity = 0) (hblock : s.blockSize = 0)
    (h : s.StaysInside xs calls) : ∀ c ∈ calls, c.2 = false := by
  induction calls with
  | nil => exact fun _ hc ↦ absurd hc List.not_mem_nil
  | cons c calls ih =>
    obtain ⟨c, memory⟩ := c
    have hadd := add_eq hcapacity c.item memory
    have hcount := s.count.toNat_lt
    rw [hblock, UInt8.toNat_zero, Nat.add_zero] at hadd
    cases memory with
    | true =>
      rw [if_pos ⟨rfl, by omega⟩, if_neg (lt_irrefl 0)] at hadd
      have hnone := call_eq_none hadd
      rcases h.2 with ⟨s', hcall, -⟩ | ⟨hcall, -⟩
      · rw [hnone] at hcall
        cases hcall
      · rw [hnone] at hcall
        cases hcall
    | false =>
      rw [if_neg (fun hroom ↦ Bool.false_ne_true hroom.1)] at hadd
      rcases h.2 with ⟨s', hcall, -⟩ | ⟨-, hrest⟩
      · rw [call_failed hadd] at hcall
        cases c <;> cases hcall
      · exact List.forall_mem_cons.mpr ⟨rfl, ih hrest⟩

end

end AppendList

end DuoFirmware.System
