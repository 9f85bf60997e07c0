import DuoFirmware.Wiring.VectorVariants

/-!
# What the variants of vectors have in common

Both variants work on a memory that represents some live objects: for elements that are moved one by
one, its slots hold exactly these, and for elements that are trivially copyable at least these.
`Lawful` says what the functions of a variant do to the live objects, and both variants are lawful.
-/

namespace DuoFirmware.Wiring

open ObjectMemory

variable {T E : Type}

/-- **The laws of a variant**, for memories that represent some live objects. -/
structure Variant.Lawful (k : Variant T E) (sizeof : ℕ)
    (answer : Vector → Option ℕ → ℕ → Option ℕ)
    (Rep : Memory T E → (ℕ → Option T) → Prop) : Prop where
  readAt {mem f p x} (h : Rep mem f) (hp : f p = some x) : readAt p mem = some (x, mem)
  constructAt {mem f p} (x : T) (h : Rep mem f) (hp : f p = none) :
    ∃ mem', k.constructAt p x mem = some ((), mem') ∧ Rep mem' (Function.update f p (some x))
  moveOut {mem f p x} (h : Rep mem f) (hp : f p = some x) :
    ∃ mem' y, k.moveOut p mem = some (x, mem') ∧ Rep mem' (Function.update f p (some y))
  destroyAt {mem f p x} (h : Rep mem f) (hp : f p = some x) :
    ∃ mem', k.destroyAt p mem = some ((), mem') ∧ Rep mem' (Function.update f p none)
  discard {mem f} (x : T) (h : Rep mem f) : ∃ mem', k.discard x mem = some ((), mem') ∧ Rep mem' f
  discardMoved {mem f} (x : T) (h : Rep mem f) :
    ∃ mem', k.discardMoved x mem = some ((), mem') ∧ Rep mem' f
  copy {mem f dest xs} (h : Rep mem f) (hdest : Raw f dest (dest + xs.length)) :
    ∃ mem', k.copy dest xs mem = some ((), mem') ∧ Rep mem' (placed dest xs f)
  move {mem f p xs} (dest : ℕ) (h : Rep mem (placed p xs f)) (hp : Raw f p (p + xs.length))
    (hdest : Raw f dest (dest + xs.length)) :
    ∃ mem', k.move dest p (p + xs.length) mem = some ((), mem') ∧ Rep mem' (placed dest xs f)
  /-- An allocation that fails changes nothing. -/
  realloc_none {mem v block n} (hn : 0 < n) (hanswer : answer v block n = none) :
    k.realloc block n v mem = some ((false, v), mem)
  realloc_some {mem f xs v block n d} (h : Rep mem (placed v.data xs f))
    (hsize : v.size = xs.length) (hfits : v.size ≤ v.capacity) (hle : v.size ≤ n) (hn : 0 < n)
    (hbytes : n * sizeof < sizeMax) (hanswer : answer v block n = some d)
    (hraw : Raw f v.data (v.data + v.size)) (hd : Raw f d (d + n)) :
    ∃ mem', k.realloc block n v mem =
      some ((true, { v with data := d, capacity := n }), mem') ∧ Rep mem' (placed d xs f)
  realloc_zero {mem v block} :
    k.realloc block 0 v mem = some ((true, { v with data := 0, capacity := 0 }), mem)
  /-- A vector without a block does not restrict where its first block is. -/
  answer_new (block : Option ℕ) (n : ℕ) : answer Vector.new block n = block

variable {mem mem' : Memory T E} {f : ℕ → Option T} {p q dest a n : ℕ} {x : T} {xs : List T}

theorem placed_eq_some : placed p xs f a = some x ↔
    (∃ i, a = p + i ∧ xs[i]? = some x) ∨ (a < p ∨ p + xs.length ≤ a) ∧ f a = some x := by
  by_cases ha : a < p ∨ p + xs.length ≤ a
  · rw [placed_apply_of_not_mem ha]
    constructor
    · exact fun h ↦ .inr ⟨ha, h⟩
    · rintro (⟨i, rfl, hi⟩ | ⟨-, h⟩)
      · obtain ⟨hlt, -⟩ := List.getElem?_eq_some_iff.mp hi
        omega
      · exact h
  · obtain ⟨i, rfl⟩ := Nat.exists_eq_add_of_le (not_lt.mp (not_or.mp ha).1)
    have hlt : i < xs.length := by omega
    rw [placed_apply hlt]
    constructor
    · exact fun h ↦ .inl ⟨i, rfl, h⟩
    · rintro (⟨j, heq, hj⟩ | ⟨hc, -⟩)
      · obtain rfl := Nat.add_left_cancel heq
        exact hj
      · exact absurd hc ha

/-! ## Elements that are moved one by one -/

namespace ElementWise

variable (o : Object T E) (sizeof : ℕ)

/-- The slots hold exactly the live objects. -/
def Rep (mem : Memory T E) (f : ℕ → Option T) : Prop := mem.slots = f

variable {o sizeof}

theorem Rep.update (h : Rep mem f) {v : Option T} {log : List E} :
    Rep ⟨Function.update mem.slots p v, log⟩ (Function.update f p v) := by
  rw [← h]
  rfl

theorem rep_copy (h : Rep mem f) (hdest : Raw f dest (dest + xs.length)) :
    ∃ mem', copy dest xs mem = some ((), mem') ∧ Rep mem' (placed dest xs f) := by
  induction xs generalizing dest mem f with
  | nil => exact ⟨mem, rfl, h⟩
  | cons x xs ih =>
    rw [List.length_cons] at hdest
    have hx : mem.slots dest = none := h ▸ hdest dest le_rfl (by omega)
    have hrep : Rep (⟨Function.update mem.slots dest (some x), mem.log⟩ : Memory T E)
        (Function.update f dest (some x)) := h.update
    have hraw : Raw (Function.update f dest (some x)) (dest + 1) (dest + 1 + xs.length) :=
      (hdest.mono (by omega) (by omega)).update (by omega) _
    obtain ⟨mem', hrun, h'⟩ := ih hrep hraw
    rw [placed_update (by omega)] at h'
    exact ⟨mem', (run_bind (construct_eq hx x)).trans hrun, h'⟩

theorem rep_move (dest : ℕ) (h : Rep mem (placed p xs f)) (hp : Raw f p (p + xs.length))
    (hdest : Raw f dest (dest + xs.length)) : ∃ mem',
      Vector.move o dest p (p + xs.length) mem = some ((), mem') ∧ Rep mem' (placed dest xs f) := by
  rw [Vector.move, Nat.add_sub_cancel_left]
  by_cases hback : dest > p ∧ dest < p + xs.length
  · rw [if_pos hback]
    exact ⟨_, moveBackward_spec h hp hdest hback.1, rfl⟩
  · rw [if_neg hback]
    by_cases hne : dest = p
    · subst hne
      rw [if_neg (not_not.mpr rfl)]
      exact ⟨mem, rfl, h⟩
    · rw [if_pos hne]
      exact ⟨_, moveForward_spec h hp hdest (by omega), rfl⟩

theorem lawful : (variant o sizeof).Lawful sizeof Vector.malloc Rep where
  readAt h hp := readAt_eq (h ▸ hp)
  constructAt x h hp := ⟨_, construct_eq (h ▸ hp) x, h.update⟩
  moveOut h hp := ⟨_, _, moveOut_eq (h ▸ hp), h.update⟩
  destroyAt h hp := ⟨_, destroyAt_eq (h ▸ hp), h.update⟩
  discard _ h := ⟨_, rfl, h⟩
  discardMoved _ h := ⟨_, rfl, h⟩
  copy := rep_copy
  move := rep_move
  realloc_none := by
    intro mem v block n hn hanswer
    change realloc o sizeof block n v mem = _
    rw [realloc, if_neg (by simp [hanswer]), Vector.realloc, if_pos hn, hanswer]
    rfl
  realloc_some := by
    intro mem f xs v block n d h hsize _ hle hn hbytes hanswer hraw hd
    change ∃ mem', realloc o sizeof block n v mem = _ ∧ _
    rw [hsize] at hle hraw
    obtain ⟨mem', hmove, h'⟩ := rep_move (o := o) d h hraw (hd.mono le_rfl (by omega))
    rw [← hsize] at hmove
    rw [realloc, if_neg (by omega), Vector.realloc, if_pos hn, hanswer]
    exact ⟨mem', run_bind hmove, h'⟩
  realloc_zero := rfl
  answer_new block n := by
    cases block with
    | none => rfl
    | some d => exact if_pos (.inr (Nat.zero_le d))

end ElementWise

/-! ## Elements that are trivially copyable -/

namespace TriviallyCopyable

variable (sizeof : ℕ)

/-- The slots hold at least the live objects. -/
def Rep (mem : Memory T E) (f : ℕ → Option T) : Prop := ∀ a x, f a = some x → mem.slots a = some x

variable {sizeof}

theorem Rep.update (h : Rep mem f) (x : T) :
    Rep (⟨Function.update mem.slots p (some x), mem.log⟩ : Memory T E)
      (Function.update f p (some x)) := by
  intro a y ha
  change Function.update mem.slots p (some x) a = some y
  by_cases hap : a = p
  · subst hap
    rw [Function.update_self] at ha ⊢
    exact ha
  · rw [Function.update_of_ne hap] at ha ⊢
    exact h a y ha

theorem Rep.mono {g : ℕ → Option T} (h : Rep mem f) (hg : ∀ a x, g a = some x → f a = some x) :
    Rep mem g := fun a x ha ↦ h a x (hg a x ha)

theorem Rep.placed (h : Rep mem f) :
    Rep (⟨placed dest xs mem.slots, mem.log⟩ : Memory T E) (placed dest xs f) := by
  intro a y ha
  refine placed_eq_some.mpr ((placed_eq_some.mp ha).imp_right fun ⟨hout, hf⟩ ↦ ?_)
  exact ⟨hout, h a y hf⟩

/-- **Moving bytes** moves the live objects, also when the block that is moved is longer. -/
theorem Rep.memmove (h : Rep mem (ObjectMemory.placed p xs f)) (hn : xs.length ≤ n)
    (hp : Raw f p (p + xs.length)) (hdest : Raw f dest (dest + n)) :
    ∃ mem', memmove dest p n mem = some ((), mem') ∧ Rep mem' (ObjectMemory.placed dest xs f) := by
  refine ⟨_, rfl, fun a y ha ↦ ?_⟩
  change (if dest ≤ a ∧ a < dest + n then _ else _) = _
  rcases placed_eq_some.mp ha with ⟨i, rfl, hi⟩ | ⟨hout, hf⟩
  · obtain ⟨hlt, -⟩ := List.getElem?_eq_some_iff.mp hi
    rw [if_pos (by omega), Nat.add_sub_cancel_left]
    exact h _ _ (placed_eq_some.mpr (.inl ⟨i, rfl, hi⟩))
  · have hin : ¬ (dest ≤ a ∧ a < dest + n) := by
      rintro ⟨hle, hlt⟩
      rw [hdest a hle hlt] at hf
      cases hf
    have hout' : a < p ∨ p + xs.length ≤ a := by
      by_contra hc
      rw [hp a (by omega) (by omega)] at hf
      cases hf
    rw [if_neg hin]
    exact h _ _ (placed_eq_some.mpr (.inr ⟨hout', hf⟩))

theorem lawful : (variant sizeof : Variant T E).Lawful sizeof (fun _ block _ ↦ block) Rep where
  readAt h hp := readAt_eq (h _ _ hp)
  constructAt x h _ := ⟨_, rfl, h.update x⟩
  moveOut {mem f p x} h hp := by
    refine ⟨mem, x, readAt_eq (h _ _ hp), ?_⟩
    rwa [Function.update_eq_self_iff.mpr hp.symm]
  destroyAt {mem f p x} h _ := by
    refine ⟨mem, rfl, h.mono fun a y ha ↦ ?_⟩
    by_cases hap : a = p
    · rw [hap, Function.update_self] at ha
      cases ha
    · rwa [Function.update_of_ne hap] at ha
  discard _ h := ⟨_, rfl, h⟩
  discardMoved _ h := ⟨_, rfl, h⟩
  copy h _ := ⟨_, rfl, h.placed⟩
  move {mem f p xs} dest h hp hdest := by
    change ∃ mem', memmove dest p (p + xs.length - p) mem = _ ∧ _
    rw [Nat.add_sub_cancel_left]
    exact h.memmove le_rfl hp hdest
  realloc_none := by
    rintro mem v _ n hn rfl
    exact congrFun (if_pos hn) mem
  realloc_some := by
    rintro mem f xs v _ n d h hsize hfits hle hn hbytes rfl hraw hd
    change ∃ mem', realloc sizeof (some d) n v mem = _ ∧ _
    rw [hsize] at hle hraw hfits
    obtain ⟨mem', hmove, h'⟩ := h.memmove (le_min hfits hle) hraw
      (hd.mono le_rfl (by omega) : Raw f d (d + min v.capacity n))
    rw [realloc, if_pos hn, if_neg (not_le.mpr hbytes)]
    exact ⟨mem', run_bind hmove, h'⟩
  realloc_zero := rfl
  answer_new _ _ := rfl

end TriviallyCopyable

end DuoFirmware.Wiring
