import Mathlib.Tactic

/-!
# Objects in raw memory

Memory slots that are raw or hold a live object, for programs that construct, move and destroy
objects in place. Moving an object leaves another one behind, which is destroyed like any other;
a destructor may have effects, which are logged. A program fails when it constructs an object in a
slot that holds one, or uses an object that is not there.

`placed p xs f` is the memory `f` with the objects `xs` from `p` on. Relocating a range, forwards or
backwards, takes `placed p xs f` to `placed dest xs f`, whether or not the two ranges overlap.
-/

namespace ObjectMemory

variable {T E α β : Type}

/-- How objects behave: what a move leaves behind, and the effects of a destructor. -/
structure Object (T E : Type) where
  movedFrom : T → T
  destroy : T → List E

/-- Destroying what a move has left behind has no effect. -/
def Object.Quiet (o : Object T E) : Prop := ∀ x, o.destroy (o.movedFrom x) = []

structure Memory (T E : Type) where
  slots : ℕ → Option T
  log : List E

/-- Programs over a memory. -/
abbrev ObjM (T E α : Type) := StateT (Memory T E) Option α

variable {o : Object T E} {mem mem' : Memory T E} {f : ℕ → Option T} {p q a dest : ℕ} {x : T}
  {xs ys : List T}

theorem run_bind {m : ObjM T E α} {k : α → ObjM T E β} {a : α} (h : m mem = some (a, mem')) :
    (m >>= k) mem = k a mem' := by
  change (m mem).bind (fun r ↦ k r.1 r.2) = _
  rw [h, Option.bind_some]

theorem run_pure (a : α) : (pure a : ObjM T E α) mem = some (a, mem) := rfl

/-! ## Single objects -/

/-- The effects of a destructor, or of a call. -/
def emit (es : List E) : ObjM T E Unit := fun mem ↦ some ((), { mem with log := mem.log ++ es })

/-- Construct an object in a raw slot. -/
def construct (p : ℕ) (x : T) : ObjM T E Unit := fun mem ↦
  match mem.slots p with
  | none => some ((), { mem with slots := Function.update mem.slots p (some x) })
  | some _ => none

/-- Look at a live object. -/
def readAt (p : ℕ) : ObjM T E T := fun mem ↦ (mem.slots p).map fun x ↦ (x, mem)

/-- Change a live object. -/
def writeAt (p : ℕ) (x : T) : ObjM T E Unit := fun mem ↦
  match mem.slots p with
  | none => none
  | some _ => some ((), { mem with slots := Function.update mem.slots p (some x) })

/-- Move the value out of a live object. -/
def moveOut (o : Object T E) (p : ℕ) : ObjM T E T := do
  let x ← readAt p
  writeAt p (o.movedFrom x)
  pure x

/-- Destroy a live object; its slot is raw from then on. -/
def destroyAt (o : Object T E) (p : ℕ) : ObjM T E Unit := fun mem ↦
  match mem.slots p with
  | none => none
  | some x => some ((), ⟨Function.update mem.slots p none, mem.log ++ o.destroy x⟩)

theorem construct_eq (h : mem.slots p = none) (x : T) :
    construct p x mem = some ((), ⟨Function.update mem.slots p (some x), mem.log⟩) := by
  rw [construct, h]

theorem readAt_eq (h : mem.slots p = some x) : readAt p mem = some (x, mem) := by
  rw [readAt, h]
  rfl

theorem writeAt_eq (h : mem.slots p = some x) (y : T) :
    writeAt p y mem = some ((), ⟨Function.update mem.slots p (some y), mem.log⟩) := by
  rw [writeAt, h]

theorem destroyAt_eq (h : mem.slots p = some x) : destroyAt o p mem =
    some ((), ⟨Function.update mem.slots p none, mem.log ++ o.destroy x⟩) := by
  rw [destroyAt, h]

theorem moveOut_eq (h : mem.slots p = some x) : moveOut o p mem =
    some (x, ⟨Function.update mem.slots p (some (o.movedFrom x)), mem.log⟩) := by
  rw [moveOut, run_bind (readAt_eq h), run_bind (writeAt_eq h _)]
  rfl

/-! ## Ranges of objects -/

/-- The memory `f` with the objects `xs` from `p` on. -/
def placed : ℕ → List T → (ℕ → Option T) → ℕ → Option T
  | _, [], f => f
  | p, x :: xs, f => Function.update (placed (p + 1) xs f) p (some x)

@[simp] theorem placed_nil : placed p [] f = f := rfl

theorem placed_cons : placed p (x :: xs) f = Function.update (placed (p + 1) xs f) p (some x) := rfl

/-- Outside the range nothing changes. -/
theorem placed_apply_of_not_mem (h : a < p ∨ p + xs.length ≤ a) : placed p xs f a = f a := by
  induction xs generalizing p with
  | nil => rfl
  | cons x xs ih =>
    simp only [List.length_cons] at h
    rw [placed_cons, Function.update_of_ne (by omega), ih (by omega)]

theorem placed_apply {i : ℕ} (h : i < xs.length) : placed p xs f (p + i) = xs[i]? := by
  induction xs generalizing p i with
  | nil => cases h
  | cons x xs ih =>
    rw [placed_cons]
    cases i with
    | zero => exact Function.update_self ..
    | succ i =>
      rw [Function.update_of_ne (by omega), show p + (i + 1) = p + 1 + i by omega,
        ih (Nat.lt_of_succ_lt_succ h), List.getElem?_cons_succ]

theorem placed_append : placed p (xs ++ ys) f = placed p xs (placed (p + xs.length) ys f) := by
  induction xs generalizing p with
  | nil => rfl
  | cons x xs ih =>
    rw [List.cons_append, placed_cons, placed_cons, ih, List.length_cons,
      show p + 1 + xs.length = p + (xs.length + 1) by omega]

theorem update_none (h : f a = none) : Function.update f a none = f :=
  Function.update_eq_self_iff.mpr h.symm

/-- Writing outside the range. -/
theorem placed_update (h : a < p ∨ p + xs.length ≤ a) (v : Option T) :
    placed p xs (Function.update f a v) = Function.update (placed p xs f) a v := by
  induction xs generalizing p with
  | nil => rfl
  | cons x xs ih =>
    simp only [List.length_cons] at h
    rw [placed_cons, placed_cons, ih (by omega), Function.update_comm (by omega)]

/-- Two ranges next to each other. -/
theorem placed_comm (h : p + xs.length ≤ q ∨ q + ys.length ≤ p) :
    placed p xs (placed q ys f) = placed q ys (placed p xs f) := by
  induction xs generalizing p with
  | nil => rfl
  | cons x xs ih =>
    simp only [List.length_cons] at h
    rw [placed_cons, placed_cons, ih (by omega), placed_update (by omega)]

/-- Nothing but raw slots. -/
def Raw (f : ℕ → Option T) (lo hi : ℕ) : Prop := ∀ a, lo ≤ a → a < hi → f a = none

theorem Raw.update {lo hi : ℕ} (h : Raw f lo hi) (ha : a < lo ∨ hi ≤ a) (v : Option T) :
    Raw (Function.update f a v) lo hi := fun b h1 h2 ↦ by
  rw [Function.update_of_ne (by omega), h b h1 h2]

theorem Raw.mono {lo hi lo' hi' : ℕ} (h : Raw f lo hi) (h1 : lo ≤ lo') (h2 : hi' ≤ hi) :
    Raw f lo' hi' := fun b hb1 hb2 ↦ h b (by omega) (by omega)

/-! ## Relocating -/

/-- Relocate one object. -/
def relocate (o : Object T E) (dest p : ℕ) : ObjM T E Unit := do
  let x ← moveOut o p
  construct dest x
  destroyAt o p

theorem relocate_eq (hp : mem.slots p = some x) (hdest : mem.slots dest = none) :
    relocate o dest p mem = some ((),
      ⟨Function.update (Function.update mem.slots p none) dest (some x),
        mem.log ++ o.destroy (o.movedFrom x)⟩) := by
  have hne : dest ≠ p := fun hc ↦ by
    rw [hc, hp] at hdest
    cases hdest
  have h2 : Function.update mem.slots p (some (o.movedFrom x)) dest = none := by
    rw [Function.update_of_ne hne, hdest]
  have h3 : Function.update (Function.update mem.slots p (some (o.movedFrom x))) dest (some x) p =
      some (o.movedFrom x) := by
    rw [Function.update_of_ne hne.symm, Function.update_self]
  rw [relocate, run_bind (moveOut_eq hp), run_bind (construct_eq h2 x), destroyAt_eq h3,
    Function.update_comm hne, Function.update_idem]

/-- Relocate a range, from its first object on. -/
def moveForward (o : Object T E) : ℕ → ℕ → ℕ → ObjM T E Unit
  | 0, _, _ => pure ()
  | n + 1, dest, p => do
    relocate o dest p
    moveForward o n (dest + 1) (p + 1)

/-- Relocate a range, from its last object on. -/
def moveBackward (o : Object T E) : ℕ → ℕ → ℕ → ObjM T E Unit
  | 0, _, _ => pure ()
  | n + 1, dest, p => do
    relocate o (dest + n) (p + n)
    moveBackward o n dest p

/-- **Moving forwards** works when the range does not start inside its source. -/
theorem moveForward_spec (hslots : mem.slots = placed p xs f) (hp : Raw f p (p + xs.length))
    (hdest : Raw f dest (dest + xs.length)) (h : dest < p ∨ p + xs.length ≤ dest) :
    moveForward o xs.length dest p mem =
      some ((), ⟨placed dest xs f, mem.log ++ xs.flatMap fun x ↦ o.destroy (o.movedFrom x)⟩) := by
  induction xs generalizing p dest f mem with
  | nil =>
    rw [placed_nil] at hslots
    rw [List.length_nil, moveForward, run_pure, placed_nil, List.flatMap_nil, List.append_nil,
      ← hslots]
  | cons x xs ih =>
    simp only [List.length_cons] at hp hdest h
    have hx : mem.slots p = some x := by rw [hslots, placed_cons, Function.update_self]
    have hraw : mem.slots dest = none := by
      rw [hslots, placed_apply_of_not_mem (by simp only [List.length_cons]; omega),
        hdest dest le_rfl (by omega)]
    -- the relocated object now belongs to the rest of the memory
    have hslots' : Function.update (Function.update mem.slots p none) dest (some x) =
        placed (p + 1) xs (Function.update f dest (some x)) := by
      have hpf : placed (p + 1) xs f p = none := by
        rw [placed_apply_of_not_mem (by omega), hp p le_rfl (by omega)]
      rw [hslots, placed_cons, Function.update_idem, update_none hpf, placed_update (by omega)]
    rw [List.length_cons, moveForward, run_bind (relocate_eq hx hraw),
      ih hslots' ((hp.mono (by omega) (by omega)).update (by omega) _)
        ((hdest.mono (by omega) (by omega)).update (by omega) _) (by omega),
      placed_update (by omega), ← placed_cons, List.flatMap_cons, List.append_assoc]

/-- **Moving backwards** works when the range starts behind its source. -/
theorem moveBackward_spec (hslots : mem.slots = placed p xs f) (hp : Raw f p (p + xs.length))
    (hdest : Raw f dest (dest + xs.length)) (h : p < dest) :
    moveBackward o xs.length dest p mem = some ((),
      ⟨placed dest xs f, mem.log ++ xs.reverse.flatMap fun x ↦ o.destroy (o.movedFrom x)⟩) := by
  induction xs using List.reverseRecOn generalizing f mem with
  | nil =>
    rw [placed_nil] at hslots
    rw [List.length_nil, moveBackward, run_pure, placed_nil, List.reverse_nil, List.flatMap_nil,
      List.append_nil, ← hslots]
  | append_singleton xs x ih =>
    simp only [List.length_append, List.length_singleton] at hp hdest
    have hsplit : ∀ q, placed q (xs ++ [x]) f =
        placed q xs (Function.update f (q + xs.length) (some x)) := fun q ↦ by
      rw [placed_append, placed_cons, placed_nil]
    rw [hsplit] at hslots
    have hx : mem.slots (p + xs.length) = some x := by
      rw [hslots, placed_apply_of_not_mem (Or.inr le_rfl), Function.update_self]
    have hraw : mem.slots (dest + xs.length) = none := by
      rw [hslots, placed_apply_of_not_mem (by omega), Function.update_of_ne (by omega),
        hdest _ (by omega) (by omega)]
    have hslots' : Function.update (Function.update mem.slots (p + xs.length) none)
        (dest + xs.length) (some x) =
        placed p xs (Function.update f (dest + xs.length) (some x)) := by
      have hpf : f (p + xs.length) = none := hp _ (by omega) (by omega)
      rw [hslots, ← placed_update (by omega), Function.update_idem, update_none hpf,
        placed_update (by omega)]
    rw [List.length_append, List.length_singleton, moveBackward,
      run_bind (relocate_eq hx hraw), hsplit,
      ih hslots' ((hp.mono le_rfl (by omega)).update (by omega) _)
        ((hdest.mono le_rfl (by omega)).update (by omega) _),
      List.reverse_append, List.reverse_singleton, List.singleton_append, List.flatMap_cons,
      List.append_assoc]

/-! ## Destroying -/

/-- Destroy a range, from its first object on. -/
def destroyRange (o : Object T E) : ℕ → ℕ → ObjM T E Unit
  | 0, _ => pure ()
  | n + 1, p => do
    destroyAt o p
    destroyRange o n (p + 1)

theorem destroyRange_spec (hslots : mem.slots = placed p xs f) (hp : Raw f p (p + xs.length)) :
    destroyRange o xs.length p mem = some ((), ⟨f, mem.log ++ xs.flatMap o.destroy⟩) := by
  induction xs generalizing p mem with
  | nil =>
    rw [placed_nil] at hslots
    rw [List.length_nil, destroyRange, run_pure, List.flatMap_nil, List.append_nil, ← hslots]
  | cons x xs ih =>
    simp only [List.length_cons] at hp
    have hx : mem.slots p = some x := by rw [hslots, placed_cons, Function.update_self]
    have hslots' : Function.update mem.slots p none = placed (p + 1) xs f := by
      have hpf : placed (p + 1) xs f p = none := by
        rw [placed_apply_of_not_mem (by omega), hp p le_rfl (by omega)]
      rw [hslots, placed_cons, Function.update_idem, update_none hpf]
    rw [List.length_cons, destroyRange, run_bind (destroyAt_eq hx),
      ih hslots' (hp.mono (by omega) (by omega)), List.flatMap_cons, List.append_assoc]

end ObjectMemory
