import DuoFirmware.Lib.ObjectMemory

/-!
# Vectors

`Vector`, for elements that are not trivially copyable: they are constructed, moved and destroyed
one by one in the slots of an allocated block. Addresses count elements.

What `malloc` returns is not determined by the program. Each function that may allocate is given
the address, if any; an address whose block overlaps the one in use counts as a failure, since no
allocator returns it.
-/

namespace DuoFirmware.Wiring

open ObjectMemory

structure Vector where
  data : ℕ
  size : ℕ
  capacity : ℕ
  deriving DecidableEq, Repr

namespace Vector

variable {T E : Type} (o : Object T E)

/-! ## Functions -/

/-- The constructor. -/
def new : Vector := ⟨0, 0, 0⟩

def isEmpty (v : Vector) : Bool := v.size = 0

/-- `AllocatorT::malloc`, which returned `block`. -/
def malloc (v : Vector) (block : Option ℕ) (n : ℕ) : Option ℕ :=
  match block with
  | none => none
  | some d => if d + n ≤ v.data ∨ v.data + v.capacity ≤ d then some d else none

/-- `move(dest, p, end)`. -/
def move (dest p e : ℕ) : ObjM T E Unit :=
  if dest > p ∧ dest < e then
    -- move elements in reverse order
    moveBackward o (e - p) dest p
  else if dest ≠ p then moveForward o (e - p) dest p
  else pure ()

def destruct (p e : ℕ) : ObjM T E Unit := destroyRange o (e - p) p

/-- `realloc`; false when there is no memory. -/
def realloc (block : Option ℕ) (n : ℕ) (v : Vector) : ObjM T E (Bool × Vector) :=
  if n > 0 then
    match v.malloc block n with
    | none => pure (false, v)
    | some d => do
      move o d v.data (v.data + v.size)
      pure (true, { v with data := d, capacity := n })
  else pure (true, { v with data := 0, capacity := 0 })

/-- Room for `n` more elements. -/
def makeRoom (block : Option ℕ) (n : ℕ) (v : Vector) : ObjM T E (Bool × Vector) :=
  if v.size + n > v.capacity then realloc o block (v.size + n) v else pure (true, v)

/-- `insert(i, value)`. The value is moved out of the parameter, which is destroyed on return. -/
def insert (block : Option ℕ) (v : Vector) (i : ℕ) (value : T) : ObjM T E (Bool × Vector) := do
  let (ok, v) ← makeRoom o block 1 v
  if ok then do
    let p := v.data + i
    move o (p + 1) p (v.data + v.size)
    construct p value
    emit (o.destroy (o.movedFrom value))
    pure (true, { v with size := v.size + 1 })
  else do
    emit (o.destroy value)
    pure (false, v)

/-- `append(value)`; its own parameter is moved into that of `insert`. -/
def append (block : Option ℕ) (v : Vector) (value : T) : ObjM T E (Bool × Vector) := do
  let r ← v.insert o block v.size value
  emit (o.destroy (o.movedFrom value))
  pure r

/-- `takeAt(i)`. -/
def takeAt (v : Vector) (i : ℕ) : ObjM T E (T × Vector) := do
  let p := v.data + i
  let value ← moveOut o p
  destroyAt o p
  move o p (p + 1) (v.data + v.size)
  -- the local variable is moved into the result
  emit (o.destroy (o.movedFrom value))
  pure (value, { v with size := v.size - 1 })

/-- A reference to an element is used to look at it, -/
def at' (v : Vector) (i : ℕ) : ObjM T E T := readAt (v.data + i)

/-- or to change it. -/
def setAt (v : Vector) (i : ℕ) (value : T) : ObjM T E Unit := writeAt (v.data + i) value

def clear (v : Vector) : ObjM T E Vector := do
  destruct o v.data (v.data + v.size)
  pure { v with size := 0 }

/-- The destructor. -/
def delete (v : Vector) : ObjM T E Unit := destruct o v.data (v.data + v.size)

/-! ## The elements of a vector -/

variable {o} {v v' : Vector} {mem mem' : Memory T E} {as bs xs : List T} {x : T}
  {f : ℕ → Option T}

/-- The live objects are the elements `xs` of the vector. -/
structure Elements (v : Vector) (mem : Memory T E) (xs : List T) : Prop where
  slots : mem.slots = placed v.data xs fun _ ↦ none
  size : v.size = xs.length
  fits : v.size ≤ v.capacity

theorem elements_new : Elements new (⟨fun _ ↦ none, []⟩ : Memory T E) [] := ⟨rfl, rfl, le_rfl⟩

theorem raw_none (lo hi : ℕ) : Raw (fun _ ↦ none : ℕ → Option T) lo hi := fun _ _ _ ↦ rfl

theorem raw_placed {p lo hi : ℕ} (h : hi ≤ p ∨ p + xs.length ≤ lo) :
    Raw (placed p xs fun _ ↦ none) lo hi := fun a h1 h2 ↦ placed_apply_of_not_mem (by omega)

/-- The objects that `move` relocates, in the order in which it does. -/
def relocated (dest p : ℕ) (xs : List T) : List T :=
  if dest > p ∧ dest < p + xs.length then xs.reverse else if dest ≠ p then xs else []

/-- **Moving elements**, in whichever direction. -/
theorem move_eq (dest : ℕ) {p : ℕ} (hslots : mem.slots = placed p xs f)
    (hp : Raw f p (p + xs.length)) (hdest : Raw f dest (dest + xs.length)) :
    move o dest p (p + xs.length) mem = some ((), ⟨placed dest xs f,
      mem.log ++ (relocated dest p xs).flatMap fun x ↦ o.destroy (o.movedFrom x)⟩) := by
  rw [move, relocated, Nat.add_sub_cancel_left]
  by_cases hback : dest > p ∧ dest < p + xs.length
  · rw [if_pos hback, if_pos hback, moveBackward_spec hslots hp hdest hback.1]
  rw [if_neg hback, if_neg hback]
  by_cases hne : dest = p
  · subst hne
    rw [if_neg (not_not.mpr rfl), if_neg (not_not.mpr rfl), run_pure, ← hslots, List.flatMap_nil,
      List.append_nil]
  · rw [if_pos hne, if_pos hne, moveForward_spec hslots hp hdest (by omega)]

theorem move_spec (hquiet : o.Quiet) (dest : ℕ) {p : ℕ} (hslots : mem.slots = placed p xs f)
    (hp : Raw f p (p + xs.length)) (hdest : Raw f dest (dest + xs.length)) :
    move o dest p (p + xs.length) mem = some ((), ⟨placed dest xs f, mem.log⟩) := by
  have hlog : (relocated dest p xs).flatMap (fun x ↦ o.destroy (o.movedFrom x)) = [] :=
    List.flatMap_eq_nil_iff.mpr fun x _ ↦ hquiet x
  rw [move_eq dest hslots hp hdest, hlog, List.append_nil]

/-- Growing keeps the elements; it fails when there is no memory. -/
theorem realloc_spec (hquiet : o.Quiet) (block : Option ℕ) {n : ℕ} (h : Elements v mem xs)
    (hn : v.size < v.size + n) : ∃ ok v' mem',
      realloc o block (v.size + n) v mem = some ((ok, v'), mem') ∧ Elements v' mem' xs ∧
        mem'.log = mem.log ∧ (ok = true → v'.size + n ≤ v'.capacity) := by
  rw [realloc, if_pos (Nat.zero_lt_of_lt hn)]
  cases v.malloc block (v.size + n) with
  | none => exact ⟨false, v, mem, rfl, h, rfl, fun hc ↦ (by cases hc)⟩
  | some d =>
    have hmove := move_spec hquiet d h.slots (raw_none _ _) (raw_none _ _)
    rw [← h.size] at hmove
    exact ⟨true, _, _, run_bind hmove, ⟨rfl, h.size, hn.le⟩, rfl, fun _ ↦ le_rfl⟩

theorem makeRoom_spec (hquiet : o.Quiet) (block : Option ℕ) (n : ℕ) (h : Elements v mem xs) :
    ∃ ok v' mem', makeRoom o block n v mem = some ((ok, v'), mem') ∧ Elements v' mem' xs ∧
      mem'.log = mem.log ∧ (ok = true → v'.size + n ≤ v'.capacity) ∧
      (v.size + n ≤ v.capacity → ok = true ∧ v'.capacity = v.capacity) := by
  rw [makeRoom]
  by_cases hfull : v.size + n > v.capacity
  · rw [if_pos hfull]
    have hfits := h.fits
    obtain ⟨ok, v', mem', hrun, h', hlog, hcap⟩ :=
      realloc_spec hquiet block h (show v.size < v.size + n by omega)
    exact ⟨ok, v', mem', hrun, h', hlog, hcap, fun hc ↦ absurd hc (not_le.mpr hfull)⟩
  · rw [if_neg hfull]
    exact ⟨true, v, mem, rfl, h, rfl, fun _ ↦ not_lt.mp hfull, fun _ ↦ ⟨rfl, rfl⟩⟩

/-- **Inserting** an element between others, or failing for lack of memory. -/
theorem insert_spec (hquiet : o.Quiet) (block : Option ℕ) (h : Elements v mem (as ++ bs)) (x : T) :
    ∃ ok v' mem', v.insert o block as.length x mem = some ((ok, v'), mem') ∧
      Elements v' mem' (if ok then as ++ x :: bs else as ++ bs) ∧
      mem'.log = mem.log ++ (if ok then [] else o.destroy x) ∧
      (v.size + 1 ≤ v.capacity → ok = true ∧ v'.capacity = v.capacity) := by
  rw [insert]
  obtain ⟨ok, v₁, mem₁, hroom, h₁, hlog, hcap, hkeep⟩ := makeRoom_spec hquiet block 1 h
  rw [run_bind hroom]
  cases ok with
  | false =>
    refine ⟨false, v₁, ⟨mem₁.slots, mem₁.log ++ o.destroy x⟩, rfl, ?_, by rw [hlog]; rfl,
      hkeep⟩
    exact ⟨h₁.slots, h₁.size, h₁.fits⟩
  | true =>
    have hsize := h₁.size
    rw [List.length_append] at hsize
    -- the elements from the position on are moved up by one
    have hslots :
        mem₁.slots = placed (v₁.data + as.length) bs (placed v₁.data as fun _ ↦ none) := by
      rw [h₁.slots, placed_append, placed_comm (Or.inl le_rfl)]
    have hmove := move_spec hquiet (v₁.data + as.length + 1) hslots
      (raw_placed (Or.inr le_rfl)) (raw_placed (Or.inr (Nat.le_succ _)))
    rw [show v₁.data + as.length + bs.length = v₁.data + v₁.size by omega] at hmove
    have hraw : placed (v₁.data + as.length + 1) bs (placed v₁.data as fun _ ↦ none)
        (v₁.data + as.length) = none := by
      rw [placed_apply_of_not_mem (by omega), placed_apply_of_not_mem (Or.inr le_rfl)]
    refine ⟨true, { v₁ with size := v₁.size + 1 }, ⟨placed v₁.data (as ++ x :: bs) fun _ ↦ none,
      mem₁.log⟩, ?_, ⟨rfl, ?_, hcap rfl⟩, by rw [hlog]; exact (List.append_nil _).symm, hkeep⟩
    · simp only [if_true]
      rw [run_bind hmove, run_bind (construct_eq hraw x), placed_append,
        placed_comm (Or.inl le_rfl), placed_cons]
      change some _ = some _
      rw [hquiet x, List.append_nil]
    · simp only [if_true, List.length_append, List.length_cons]
      omega

theorem append_spec (hquiet : o.Quiet) (block : Option ℕ) (h : Elements v mem xs) (x : T) :
    ∃ ok v' mem', v.append o block x mem = some ((ok, v'), mem') ∧
      Elements v' mem' (if ok then xs ++ [x] else xs) ∧
      mem'.log = mem.log ++ (if ok then [] else o.destroy x) ∧
      (v.size + 1 ≤ v.capacity → ok = true ∧ v'.capacity = v.capacity) := by
  have h' : Elements v mem (xs ++ []) := by rwa [List.append_nil]
  obtain ⟨ok, v', mem', hrun, helements, hlog, hkeep⟩ := insert_spec hquiet block h' x
  rw [← h.size] at hrun
  rw [List.append_nil] at helements
  refine ⟨ok, v', mem', ?_, helements, hlog, hkeep⟩
  rw [append, run_bind hrun]
  change some _ = some _
  rw [hquiet x, List.append_nil]

/-- **Taking** an element out. -/
theorem takeAt_spec (hquiet : o.Quiet) (h : Elements v mem (as ++ x :: bs)) :
    ∃ v' mem', v.takeAt o as.length mem = some ((x, v'), mem') ∧
      Elements v' mem' (as ++ bs) ∧ mem'.log = mem.log ∧ v'.capacity = v.capacity := by
  have hsize := h.size
  simp only [List.length_append, List.length_cons] at hsize
  have hslots : mem.slots = Function.update (placed (v.data + as.length + 1) bs
      (placed v.data as fun _ ↦ none)) (v.data + as.length) (some x) := by
    rw [h.slots, placed_append, placed_comm (Or.inl le_rfl), placed_cons]
  have hx : mem.slots (v.data + as.length) = some x := by rw [hslots, Function.update_self]
  have hgap : placed (v.data + as.length + 1) bs (placed v.data as fun _ ↦ none)
      (v.data + as.length) = none := by
    rw [placed_apply_of_not_mem (by omega), placed_apply_of_not_mem (Or.inr le_rfl)]
  have hslots' : (⟨Function.update (Function.update mem.slots (v.data + as.length)
      (some (o.movedFrom x))) (v.data + as.length) none, mem.log⟩ : Memory T E).slots =
      placed (v.data + as.length + 1) bs (placed v.data as fun _ ↦ none) := by
    change Function.update (Function.update _ _ _) _ _ = _
    rw [Function.update_idem, hslots, Function.update_idem, update_none hgap]
  have hmove := move_spec hquiet (v.data + as.length) hslots' (raw_placed (Or.inr (by omega)))
    (raw_placed (Or.inr le_rfl))
  rw [show v.data + as.length + 1 + bs.length = v.data + v.size by omega] at hmove
  refine ⟨{ v with size := v.size - 1 }, ⟨placed v.data (as ++ bs) fun _ ↦ none, mem.log⟩, ?_,
    ⟨rfl, ?_, ?_⟩, rfl, rfl⟩
  · rw [takeAt, run_bind (moveOut_eq hx), run_bind (destroyAt_eq (Function.update_self ..))]
    rw [hquiet x, List.append_nil, run_bind hmove, placed_append, placed_comm (Or.inl le_rfl)]
    change some _ = some _
    rw [List.append_nil]
  · change v.size - 1 = _
    rw [List.length_append]
    omega
  · have := h.fits
    change v.size - 1 ≤ v.capacity
    omega

theorem at_spec (h : Elements v mem (as ++ x :: bs)) : v.at' as.length mem = some (x, mem) := by
  apply readAt_eq
  rw [h.slots, placed_apply (by simp), List.getElem?_append_right le_rfl, Nat.sub_self]
  rfl

theorem setAt_spec (h : Elements v mem (as ++ x :: bs)) (y : T) : ∃ mem',
    v.setAt as.length y mem = some ((), mem') ∧ Elements v mem' (as ++ y :: bs) ∧
      mem'.log = mem.log := by
  have hx : mem.slots (v.data + as.length) = some x := by
    rw [h.slots, placed_apply (by simp), List.getElem?_append_right le_rfl, Nat.sub_self]
    rfl
  refine ⟨_, writeAt_eq hx y, ⟨?_, ?_, h.fits⟩, rfl⟩
  · change Function.update mem.slots _ _ = _
    rw [h.slots, placed_append, placed_append, placed_cons, placed_cons,
      placed_update (Or.inr le_rfl), ← placed_update (Or.inr le_rfl),
      ← placed_update (Or.inr le_rfl), Function.update_idem]
  · rw [h.size]
    simp

theorem destruct_spec (h : Elements v mem xs) : destruct o v.data (v.data + v.size) mem =
    some ((), ⟨fun _ ↦ none, mem.log ++ xs.flatMap o.destroy⟩) := by
  rw [destruct, h.size, Nat.add_sub_cancel_left]
  exact destroyRange_spec h.slots (raw_none _ _)

theorem clear_spec (h : Elements v mem xs) : ∃ v' mem', v.clear o mem = some (v', mem') ∧
    Elements v' mem' [] ∧ mem'.log = mem.log ++ xs.flatMap o.destroy ∧
      v'.capacity = v.capacity :=
  ⟨_, _, run_bind (destruct_spec h), ⟨rfl, rfl, Nat.zero_le _⟩, rfl, rfl⟩

end Vector

end DuoFirmware.Wiring
