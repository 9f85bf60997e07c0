import DuoFirmware.Lib.RingBuffer

/-!
# The queue with a fixed number of elements

`FixedQueue` keeps its elements in an array that is used as a ring, with the indices of the first
element and behind the last one, and the number of elements apart from these. Elements of the array
are not initialised when it is allocated; a program fails when it reads one of these, accesses the
array outside its bounds, or divides by zero.
-/

namespace DuoFirmware.Services

open RingBuffer

structure FixedQueue (T : Type) where
  capacity : UInt32
  size : UInt32
  head : UInt32
  tail : UInt32
  /-- The array, with nothing in the elements that have not been written. -/
  data : List (Option T)

namespace FixedQueue

variable {T : Type}

/-! ## Functions -/

/-- The default constructor. -/
def new : FixedQueue T := ⟨0, 0, 0, 0, []⟩

variable (q : FixedQueue T)

def clear : FixedQueue T := { q with size := 0, head := 0, tail := 0 }

def reallocate (capacity : UInt32) : FixedQueue T :=
  clear { q with capacity := capacity, data := List.replicate capacity.toNat none }

/-- The constructor with a capacity. -/
def ofCapacity (capacity : UInt32) : FixedQueue T := new.reallocate capacity

def empty : Bool := q.size = 0

def full : Bool := q.size ≥ q.capacity

/-- Access to the array. -/
def load (i : UInt32) : Option T := q.data[i.toNat]?.join

def store (i : UInt32) (value : T) : Option (List (Option T)) :=
  if i.toNat < q.data.length then some (q.data.set i.toNat (some value)) else none

/-- The index after `i`. -/
def next (i : UInt32) : Option UInt32 :=
  if q.capacity = 0 then none else some ((i + 1) % q.capacity)

def push (value : T) : Option (Bool × FixedQueue T) :=
  if q.full then some (false, q)
  else do
    let data ← q.store q.tail value
    let tail ← q.next q.tail
    some (true, { q with data := data, tail := tail, size := q.size + 1 })

/-- `pop`; the default is the element that is initialised with its value. -/
def pop [Inhabited T] : Option (T × FixedQueue T) :=
  if q.empty then some (default, q)
  else do
    let value ← q.load q.head
    let head ← q.next q.head
    some (value, { q with head := head, size := q.size - 1 })

/-! ## The elements of a queue -/

/-- The elements in the array are those of a bounded queue. -/
structure Represents (q : FixedQueue T) (f : Fifo T) : Prop where
  capacity : q.capacity.toNat = f.capacity
  length_data : q.data.length = f.capacity
  size : q.size.toNat = f.elements.length
  window : Window q.data q.head.toNat f.elements
  head : q.head.toNat % f.capacity = q.head.toNat
  tail : (q.head.toNat + f.elements.length) % f.capacity = q.tail.toNat

variable {q} {f : Fifo T} {x : T} {xs : List T}

theorem represents_clear (h : Represents q f) : Represents q.clear (.ofCapacity f.capacity) :=
  ⟨h.capacity, h.length_data, rfl, window_nil _ _, Nat.zero_mod _, Nat.zero_mod _⟩

theorem represents_reallocate (q : FixedQueue T) (n : UInt32) :
    Represents (q.reallocate n) (.ofCapacity n.toNat) :=
  ⟨rfl, List.length_replicate, rfl, window_nil _ _, Nat.zero_mod _, Nat.zero_mod _⟩

theorem represents_new : Represents (new : FixedQueue T) (.ofCapacity 0) :=
  ⟨rfl, rfl, rfl, window_nil _ _, rfl, rfl⟩

theorem Represents.empty_iff (h : Represents q f) : q.empty = true ↔ f.elements = [] := by
  rw [empty, decide_eq_true_eq, ← UInt32.toNat_inj, h.size]
  exact List.length_eq_zero_iff

theorem Represents.full_iff (h : Represents q f) :
    q.full = true ↔ f.capacity ≤ f.elements.length := by
  rw [full, decide_eq_true_eq, ge_iff_le, UInt32.le_iff_toNat_le, h.capacity, h.size]

theorem Represents.capacity_lt (h : Represents q f) : f.capacity < 4294967296 :=
  h.capacity ▸ q.capacity.toNat_lt

/-- The index after one of the array does not wrap around before it is reduced. -/
theorem Represents.next_eq (h : Represents q f) {i : UInt32} (hi : i.toNat < f.capacity) :
    ∃ j, q.next i = some j ∧ j.toNat = (i.toNat + 1) % f.capacity := by
  have hpos : q.capacity ≠ 0 := by
    rintro hzero
    rw [← h.capacity, hzero] at hi
    exact Nat.not_lt_zero _ hi
  have hlt : i.toNat + 1 < 4294967296 := (Nat.succ_le_of_lt hi).trans_lt h.capacity_lt
  refine ⟨(i + 1) % q.capacity, if_neg hpos, ?_⟩
  rw [UInt32.toNat_mod, UInt32.toNat_add, h.capacity]
  exact congrArg (· % f.capacity) (Nat.mod_eq_of_lt hlt)

/-- **A push** that finds room. -/
theorem Represents.push (h : Represents q f) (x : T) :
    ∃ q', q.push x = some ((f.push x).1, q') ∧ Represents q' (f.push x).2 := by
  rcases Nat.lt_or_ge f.elements.length f.capacity with hroom | hfull
  · obtain ⟨hok, hcapacity, helements⟩ := Fifo.push_of_lt (x := x) hroom
    have hpos : 0 < f.capacity := Nat.zero_lt_of_lt hroom
    have htail : q.tail.toNat < f.capacity := h.tail ▸ Nat.mod_lt _ hpos
    obtain ⟨tail, hnext, htail'⟩ := h.next_eq htail
    have hstore : q.store q.tail x = some (q.data.set q.tail.toNat (some x)) :=
      if_pos (by rwa [h.length_data])
    refine ⟨{ q with data := q.data.set q.tail.toNat (some x), tail := tail, size := q.size + 1 },
      ?_, ⟨?_, ?_, ?_, ?_, ?_, ?_⟩⟩
    · rw [FixedQueue.push, if_neg (fun hc ↦ absurd (h.full_iff.mp hc) (not_le.mpr hroom)), hstore,
        hnext, hok]
      rfl
    · rw [hcapacity]
      exact h.capacity
    · rw [hcapacity, List.length_set]
      exact h.length_data
    · have hlt : q.size.toNat + 1 < 4294967296 := by
        rw [h.size]
        exact (Nat.succ_le_of_lt hroom).trans_lt h.capacity_lt
      rw [helements, List.length_append, List.length_singleton, ← h.size, UInt32.toNat_add]
      exact Nat.mod_eq_of_lt hlt
    · have hwindow := h.window.push (h.length_data ▸ hroom) x
      rw [h.length_data, h.tail] at hwindow
      rw [helements]
      exact hwindow
    · rw [hcapacity]
      exact h.head
    · rw [hcapacity, helements, List.length_append, List.length_singleton, htail', ← h.tail,
        Nat.mod_add_mod, Nat.add_assoc]
  · rw [Fifo.push_of_le hfull]
    exact ⟨q, if_pos (h.full_iff.mpr hfull), h⟩

/-- **A pop** finds the oldest element. -/
theorem Represents.pop [Inhabited T] (h : Represents q f) :
    ∃ q', q.pop = some (f.pop.1.getD default, q') ∧ Represents q' f.pop.2 := by
  rcases hxs : f.elements with _ | ⟨x, xs⟩
  · rw [Fifo.pop_of_nil hxs]
    exact ⟨q, if_pos (h.empty_iff.mpr hxs), h⟩
  · have hwindow := h.window
    have hlength := f.length_le
    have hsize := h.size
    have htail := h.tail
    rw [hxs, List.length_cons] at hlength hsize htail
    rw [hxs] at hwindow
    obtain ⟨hget, hrest⟩ := hwindow.pop
    rw [h.length_data] at hrest
    rw [h.length_data, h.head] at hget
    have hhead : q.head.toNat < f.capacity := h.head ▸ Nat.mod_lt _ (Nat.zero_lt_of_lt hlength)
    obtain ⟨head, hnext, hhead'⟩ := h.next_eq hhead
    have hload : q.load q.head = some x := congrArg Option.join hget
    have hnonempty : ¬ q.empty = true := fun hc ↦ by
      rw [h.empty_iff, hxs] at hc
      cases hc
    refine ⟨{ q with head := head, size := q.size - 1 }, ?_, ⟨h.capacity, h.length_data, ?_, ?_, ?_,
      ?_⟩⟩
    · have hfirst : f.pop.1.getD default = x := congrArg (·.head?.getD default) hxs
      rw [FixedQueue.pop, if_neg hnonempty, hload, hnext, hfirst]
      rfl
    · have hle : (1 : UInt32) ≤ q.size := UInt32.le_iff_toNat_le.mpr (by
        rw [hsize]
        exact Nat.succ_le_succ (Nat.zero_le _))
      change (q.size - 1).toNat = f.elements.tail.length
      rw [hxs, UInt32.toNat_sub_of_le _ _ hle, hsize]
      rfl
    · change Window q.data head.toNat f.elements.tail
      rw [hxs, hhead']
      exact hrest
    · change head.toNat % f.capacity = head.toNat
      rw [hhead', Nat.mod_mod]
    · change (head.toNat + f.elements.tail.length) % f.capacity = q.tail.toNat
      rw [hhead', hxs, ← htail, Nat.mod_add_mod, List.tail_cons, Nat.add_assoc, Nat.add_comm 1]

/-! ## Refinement -/

/-- A call of a function that changes the queue. -/
inductive Op (T : Type) where
  | push (value : T)
  | pop
  | clear
  | reallocate (capacity : UInt32)

/-- What a call returns. -/
inductive Result (T : Type) where
  | pushed (ok : Bool)
  | popped (value : T)
  | nothing
  deriving DecidableEq, Repr

/-- What the functions return that leave the queue as it is. -/
structure Status where
  size : ℕ
  capacity : ℕ
  empty : Bool
  full : Bool
  deriving DecidableEq, Repr

def status (q : FixedQueue T) : Status := ⟨q.size.toNat, q.capacity.toNat, q.empty, q.full⟩

/-- The status of a bounded queue, by its elements. -/
def fifoStatus (f : Fifo T) : Status :=
  ⟨f.elements.length, f.capacity, f.elements.isEmpty, f.capacity ≤ f.elements.length⟩

theorem Represents.status (h : Represents q f) : q.status = fifoStatus f := by
  have hempty : q.empty = f.elements.isEmpty := by
    rw [Bool.eq_iff_iff, h.empty_iff, List.isEmpty_iff]
  have hfull : q.full = decide (f.capacity ≤ f.elements.length) := by
    rw [Bool.eq_iff_iff, h.full_iff, decide_eq_true_eq]
  rw [FixedQueue.status, fifoStatus, h.size, h.capacity, hempty, hfull]

section

variable [Inhabited T]

def step (q : FixedQueue T) : Op T → Option (Result T × FixedQueue T)
  | .push value => do
    let (ok, q) ← q.push value
    some (.pushed ok, q)
  | .pop => do
    let (value, q) ← q.pop
    some (.popped value, q)
  | .clear => some (.nothing, q.clear)
  | .reallocate capacity => some (.nothing, q.reallocate capacity)

/-- The results of some calls, each with the status after it. -/
def run (q : FixedQueue T) : List (Op T) → Option (List (Result T × Status) × FixedQueue T)
  | [] => some ([], q)
  | op :: ops => do
    let (r, q) ← q.step op
    let (rs, q') ← q.run ops
    some ((r, q.status) :: rs, q')

/-- **The operations of a bounded queue.** -/
def fifoStep (f : Fifo T) : Op T → Result T × Fifo T
  | .push value => (.pushed (f.push value).1, (f.push value).2)
  | .pop => (.popped (f.pop.1.getD default), f.pop.2)
  | .clear => (.nothing, .ofCapacity f.capacity)
  | .reallocate capacity => (.nothing, .ofCapacity capacity.toNat)

def fifoRun (f : Fifo T) : List (Op T) → List (Result T × Status) × Fifo T
  | [] => ([], f)
  | op :: ops =>
    let (r, f) := fifoStep f op
    let (rs, f') := fifoRun f ops
    ((r, fifoStatus f) :: rs, f')

/-- **A call** does what the bounded queue does. -/
theorem Represents.step (h : Represents q f) (op : Op T) : ∃ q',
    q.step op = some ((fifoStep f op).1, q') ∧ Represents q' (fifoStep f op).2 := by
  cases op with
  | push value =>
    obtain ⟨q', hrun, h'⟩ := h.push value
    refine ⟨q', ?_, h'⟩
    rw [FixedQueue.step, hrun]
    rfl
  | pop =>
    obtain ⟨q', hrun, h'⟩ := h.pop
    refine ⟨q', ?_, h'⟩
    rw [FixedQueue.step, hrun]
    rfl
  | clear => exact ⟨q.clear, rfl, represents_clear h⟩
  | reallocate capacity => exact ⟨_, rfl, represents_reallocate q capacity⟩

theorem Represents.run (h : Represents q f) (ops : List (Op T)) : ∃ q',
    q.run ops = some ((fifoRun f ops).1, q') ∧ Represents q' (fifoRun f ops).2 := by
  induction ops generalizing q f with
  | nil => exact ⟨q, rfl, h⟩
  | cons op ops ih =>
    obtain ⟨q₁, hstep, h₁⟩ := h.step op
    obtain ⟨q', hrun, h'⟩ := ih h₁
    refine ⟨q', ?_, h'⟩
    rw [FixedQueue.run, hstep, Option.bind_eq_bind, Option.bind_some]
    dsimp only
    rw [hrun, h₁.status]
    rfl

/-- **The queue is a bounded queue**: from either constructor, every sequence of calls returns what
it returns there, and so do `size`, `empty` and `full` after each call. -/
theorem refines_fifo (ops : List (Op T)) :
    (∃ q, new.run ops = some ((fifoRun (.ofCapacity 0) ops).1, q) ∧
      Represents q (fifoRun (.ofCapacity 0) ops).2) ∧
    ∀ capacity : UInt32, ∃ q,
      (ofCapacity capacity).run ops = some ((fifoRun (.ofCapacity capacity.toNat) ops).1, q) ∧
        Represents q (fifoRun (.ofCapacity capacity.toNat) ops).2 :=
  ⟨represents_new.run ops, fun capacity ↦ (represents_reallocate new capacity).run ops⟩

/-- The indices wrap around. -/
example : ((ofCapacity 2).run [.push 5, .push 6, .pop, .push 7, .push 8, .pop, .pop, .pop]).map
    (fun r ↦ r.1.map Prod.fst) = some [.pushed true, .pushed true, .popped 5, .pushed true,
      .pushed false, .popped 6, .popped 7, .popped (0 : ℕ)] := by decide +kernel

end

end FixedQueue

end DuoFirmware.Services
