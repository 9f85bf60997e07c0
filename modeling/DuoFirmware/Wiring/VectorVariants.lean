import DuoFirmware.Wiring.Vector

/-!
# The two variants of vectors

`realloc`, `copy` and `move` of a `Vector` exist twice. Elements that are trivially copyable are
moved as bytes; other elements are constructed, moved and destroyed one by one. All other functions
are the same for both.

In the bytes of elements that are trivially copyable, nothing distinguishes a slot in use from a raw
one: to construct an element is to write it, and its destructor does nothing.
-/

namespace DuoFirmware.Wiring

open ObjectMemory

/-- The largest `int`. -/
def intMax : ℕ := 2147483647

/-- The range of `size_t`. -/
def sizeMax : ℕ := 4294967296

variable {T E : Type}

/-- Behaviour that is undefined. -/
def undefined {α : Type} : ObjM T E α := fun _ ↦ none

/-- A sum of two numbers that are not negative, as an `int`. -/
def addInt (a b : ℕ) : ObjM T E ℕ := if a + b ≤ intMax then pure (a + b) else undefined

/-- What depends on the type of the elements. -/
structure Variant (T E : Type) where
  realloc : Option ℕ → ℕ → Vector → ObjM T E (Bool × Vector)
  copy : ℕ → List T → ObjM T E Unit
  move : ℕ → ℕ → ℕ → ObjM T E Unit
  constructAt : ℕ → T → ObjM T E Unit
  moveOut : ℕ → ObjM T E T
  destroyAt : ℕ → ObjM T E Unit
  /-- The end of a local variable, -/
  discard : T → ObjM T E Unit
  /-- and of one whose value was moved out. -/
  discardMoved : T → ObjM T E Unit

/-! ## Elements that are moved one by one -/

namespace ElementWise

variable (o : Object T E) (sizeof : ℕ)

/-- `realloc`. When the bytes of the new block do not fit in `size_t`, the block that is returned is
too small. -/
def realloc (block : Option ℕ) (n : ℕ) (v : Vector) : ObjM T E (Bool × Vector) :=
  if n > 0 ∧ (v.malloc block n).isSome ∧ sizeMax ≤ n * sizeof then undefined
  else Vector.realloc o block n v

/-- `copy`. -/
def copy : ℕ → List T → ObjM T E Unit
  | _, [] => pure ()
  | dest, x :: xs => do
    construct dest x
    copy (dest + 1) xs

def variant : Variant T E where
  realloc := realloc o sizeof
  copy := copy
  move := Vector.move o
  constructAt := construct
  moveOut := ObjectMemory.moveOut o
  destroyAt := ObjectMemory.destroyAt o
  discard x := emit (o.destroy x)
  discardMoved x := emit (o.destroy (o.movedFrom x))

end ElementWise

/-! ## Elements that are trivially copyable -/

namespace TriviallyCopyable

variable (sizeof : ℕ)

def memmove (dest p n : ℕ) : ObjM T E Unit := fun mem ↦
  some ((), { mem with
    slots := fun a ↦ if dest ≤ a ∧ a < dest + n then mem.slots (p + (a - dest)) else mem.slots a })

def memcpy (dest : ℕ) (values : List T) : ObjM T E Unit := fun mem ↦
  some ((), { mem with slots := placed dest values mem.slots })

def write (p : ℕ) (x : T) : ObjM T E Unit := fun mem ↦
  some ((), { mem with slots := Function.update mem.slots p (some x) })

/-- `realloc`. The block that `AllocatorT::realloc` returns has the bytes of the previous one. -/
def realloc (block : Option ℕ) (n : ℕ) (v : Vector) : ObjM T E (Bool × Vector) :=
  if n > 0 then
    match block with
    | none => pure (false, v)
    | some d =>
      if sizeMax ≤ n * sizeof then undefined
      else do
        memmove d v.data (min v.capacity n)
        pure (true, { v with data := d, capacity := n })
  else pure (true, { v with data := 0, capacity := 0 })

def variant : Variant T E where
  realloc := realloc sizeof
  copy := memcpy
  move dest p e := memmove dest p (e - p)
  constructAt := write
  moveOut := readAt
  destroyAt _ := pure ()
  discard _ := pure ()
  discardMoved _ := pure ()

end TriviallyCopyable

/-! ## Functions -/

namespace Variant

variable (k : Variant T E)

/-- `construct(p, p + n, value)`. -/
def construct : ℕ → ℕ → T → ObjM T E Unit
  | 0, _, _ => pure ()
  | n + 1, p, value => do
    k.constructAt p value
    construct n (p + 1) value

/-- `destruct(p, p + n)`. -/
def destruct : ℕ → ℕ → ObjM T E Unit
  | 0, _ => pure ()
  | n + 1, p => do
    k.destroyAt p
    destruct n (p + 1)

/-- Room for `n` elements. -/
def grow (block : Option ℕ) (n : ℕ) (v : Vector) : ObjM T E (Bool × Vector) :=
  if n > v.capacity then k.realloc block n v else pure (true, v)

/-- Room for `n` more elements. -/
def makeRoom (block : Option ℕ) (n : ℕ) (v : Vector) : ObjM T E (Bool × Vector) := do
  let n ← addInt v.size n
  k.grow block n v

/-- `insert(i, value)`. -/
def insert (block : Option ℕ) (v : Vector) (i : ℕ) (value : T) : ObjM T E (Bool × Vector) := do
  let (ok, v) ← k.makeRoom block 1 v
  if ok then do
    let p := v.data + i
    k.move (p + 1) p (v.data + v.size)
    k.constructAt p value
    k.discardMoved value
    pure (true, { v with size := v.size + 1 })
  else do
    k.discard value
    pure (false, v)

/-- `insert(i, n, value)`. -/
def insertCopies (block : Option ℕ) (v : Vector) (i n : ℕ) (value : T) :
    ObjM T E (Bool × Vector) := do
  let (ok, v) ← k.makeRoom block n v
  if ok then do
    let p := v.data + i
    k.move (p + n) p (v.data + v.size)
    k.construct n p value
    pure (true, { v with size := v.size + n })
  else pure (false, v)

/-- `insert(i, values, n)`; the values are somewhere else. -/
def insertRange (block : Option ℕ) (v : Vector) (i : ℕ) (values : List T) :
    ObjM T E (Bool × Vector) := do
  let (ok, v) ← k.makeRoom block values.length v
  if ok then do
    let p := v.data + i
    k.move (p + values.length) p (v.data + v.size)
    k.copy p values
    pure (true, { v with size := v.size + values.length })
  else pure (false, v)

/-- `append(value)` and `prepend(value)`; their parameter is moved into that of `insert`. -/
def append (block : Option ℕ) (v : Vector) (value : T) : ObjM T E (Bool × Vector) := do
  let r ← k.insert block v v.size value
  k.discardMoved value
  pure r

def prepend (block : Option ℕ) (v : Vector) (value : T) : ObjM T E (Bool × Vector) := do
  let r ← k.insert block v 0 value
  k.discardMoved value
  pure r

/-- The number of elements from `i` on that are meant by a count `n`. -/
def clamp (v : Vector) (i : ℕ) (n : ℤ) : ObjM T E ℕ :=
  if n < 0 then pure (v.size - i)
  else do
    let e ← addInt i n.toNat
    pure (if e > v.size then v.size - i else n.toNat)

/-- `removeAt(i, n)`. -/
def removeAt (v : Vector) (i : ℕ) (n : ℤ) : ObjM T E Vector := do
  let n ← clamp v i n
  let p := v.data + i
  k.destruct n p
  k.move p (p + n) (v.data + v.size)
  pure { v with size := v.size - n }

/-- `takeAt(i)`. -/
def takeAt (v : Vector) (i : ℕ) : ObjM T E (T × Vector) := do
  let p := v.data + i
  let value ← k.moveOut p
  k.destroyAt p
  k.move p (p + 1) (v.data + v.size)
  k.discardMoved value
  pure (value, { v with size := v.size - 1 })

def takeFirst (v : Vector) : ObjM T E (T × Vector) := k.takeAt v 0

def takeLast (v : Vector) : ObjM T E (T × Vector) := k.takeAt v (v.size - 1)

/-- The elements of a range. -/
def readRange : ℕ → ℕ → ObjM T E (List T)
  | 0, _ => pure []
  | n + 1, p => do
    let x ← readAt p
    let xs ← readRange n (p + 1)
    pure (x :: xs)

/-- `copy(i, n)`; the block of the result is not that of the vector. -/
def copyOf (block : Option ℕ) (v : Vector) (i : ℕ) (n : ℤ) : ObjM T E Vector := do
  let n ← clamp v i n
  if n > 0 then do
    let (ok, w) ← k.realloc (v.malloc block n) n Vector.new
    if ok then do
      let values ← readRange n (v.data + i)
      k.copy w.data values
      pure { w with size := n }
    else pure w
  else pure Vector.new

/-- `resize(n)`. -/
def resize [Inhabited T] (block : Option ℕ) (v : Vector) (n : ℤ) : ObjM T E (Bool × Vector) :=
  if n > v.size then do
    let (ok, v) ← k.grow block n.toNat v
    if ok then do
      k.construct (n.toNat - v.size) (v.data + v.size) default
      pure (true, { v with size := n.toNat })
    else pure (false, v)
  else if n ≥ 0 then do
    k.destruct (v.size - n.toNat) (v.data + n.toNat)
    pure (true, { v with size := n.toNat })
  else pure (true, v)

/-- `reserve(n)`. -/
def reserve (block : Option ℕ) (v : Vector) (n : ℤ) : ObjM T E (Bool × Vector) :=
  k.grow block n.toNat v

/-- `trimToSize()`. -/
def trimToSize (block : Option ℕ) (v : Vector) : ObjM T E (Bool × Vector) :=
  if v.capacity > v.size then k.realloc block v.size v else pure (true, v)

def clear (v : Vector) : ObjM T E Vector := do
  k.destruct v.size v.data
  pure { v with size := 0 }

/-- `fill(value)`. -/
def fill (v : Vector) (value : T) : ObjM T E Vector := do
  k.destruct v.size v.data
  k.construct v.size v.data value
  pure v

/-- The destructor. -/
def delete (v : Vector) : ObjM T E Unit := k.destruct v.size v.data

variable [BEq T]

/-- `find(p, p + n, value)`. -/
def find : ℕ → ℕ → T → ObjM T E (Option ℕ)
  | 0, _, _ => pure none
  | n + 1, p, value => do
    let x ← readAt p
    if x == value then pure (some p) else find n (p + 1) value

/-- `rfind(p + n - 1, p - 1, value)`. -/
def rfind : ℕ → ℕ → T → ObjM T E (Option ℕ)
  | 0, _, _ => pure none
  | n + 1, p, value => do
    let x ← readAt (p + n)
    if x == value then pure (some (p + n)) else rfind n p value

/-- `removeOne(value)`. -/
def removeOne (v : Vector) (value : T) : ObjM T E (Bool × Vector) := do
  match ← find v.size v.data value with
  | none => pure (false, v)
  | some p =>
    k.destroyAt p
    k.move p (p + 1) (v.data + v.size)
    pure (true, { v with size := v.size - 1 })

/-- The loop of `removeAll`, from `p` to `e`; the result is the last value of `e`. -/
def removeLoop : ℕ → ℕ → ℕ → T → ObjM T E ℕ
  | rounds, p, e, value => do
    match ← find (e - p) p value with
    | none => pure e
    | some p =>
      match rounds with
      | 0 => undefined
      | rounds + 1 =>
        k.destroyAt p
        k.move p (p + 1) e
        removeLoop rounds p (e - 1) value

/-- `removeAll(value)`. -/
def removeAll (v : Vector) (value : T) : ObjM T E (ℕ × Vector) := do
  let e ← k.removeLoop v.size v.data (v.data + v.size) value
  let n := v.size - (e - v.data)
  pure (n, { v with size := v.size - n })

/-- A pointer as an index. -/
def index (v : Vector) (p : Option ℕ) : ℤ :=
  match p with
  | none => -1
  | some p => p - v.data

/-- `indexOf(value, i)`. -/
def indexOf (v : Vector) (value : T) (i : ℕ) : ObjM T E ℤ := do
  let p ← find (v.size - i) (v.data + i) value
  pure (index v p)

/-- `lastIndexOf(value, i)`. -/
def lastIndexOf (v : Vector) (value : T) (i : ℤ) : ObjM T E ℤ := do
  let p ← rfind (i + 1).toNat v.data value
  pure (index v p)

def contains (v : Vector) (value : T) : ObjM T E Bool := do
  let p ← find v.size v.data value
  pure p.isSome

end Variant

/-! ## Vectors of objects -/

namespace ElementWise

variable (o : Object T E) {sizeof n : ℕ} {v : Vector} (block : Option ℕ)

theorem takeAt_eq (sizeof : ℕ) : (variant o sizeof).takeAt = Vector.takeAt o := rfl

theorem makeRoom_eq (hint : v.size + n ≤ intMax) (hbytes : (v.size + n) * sizeof < sizeMax) :
    (variant o sizeof).makeRoom block n v = Vector.makeRoom o block n v := by
  have hrealloc : realloc o sizeof block (v.size + n) v = Vector.realloc o block (v.size + n) v :=
    if_neg fun h ↦ absurd h.2.2 (not_le.mpr hbytes)
  have hsum : (addInt v.size n : ObjM T E ℕ) = pure (v.size + n) := if_pos hint
  rw [Variant.makeRoom, hsum, pure_bind, Variant.grow, Vector.makeRoom, ← hrealloc]
  rfl

/-- When sizes fit, an element is inserted as the functions for objects insert it. -/
theorem insert_eq (hint : v.size + 1 ≤ intMax) (hbytes : (v.size + 1) * sizeof < sizeMax) (i : ℕ)
    (value : T) : (variant o sizeof).insert block v i value = Vector.insert o block v i value := by
  rw [Variant.insert, makeRoom_eq o block hint hbytes]
  rfl

theorem append_eq (hint : v.size + 1 ≤ intMax) (hbytes : (v.size + 1) * sizeof < sizeMax)
    (value : T) : (variant o sizeof).append block v value = Vector.append o block v value := by
  rw [Variant.append, insert_eq o block hint hbytes]
  rfl

end ElementWise

end DuoFirmware.Wiring
