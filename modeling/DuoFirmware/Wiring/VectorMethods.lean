import DuoFirmware.Wiring.VectorLaws

/-!
# The functions of vectors on their elements

For every lawful variant, each function of a vector does to the elements what the corresponding
function does to a list, unless an allocation fails.
-/

namespace DuoFirmware.Wiring

open ObjectMemory

variable {T E : Type} {k : Variant T E} {sizeof : ℕ} {answer : Vector → Option ℕ → ℕ → Option ℕ}
  {Rep : Memory T E → (ℕ → Option T) → Prop} {v v' : Vector} {mem mem' : Memory T E}
  {f : ℕ → Option T} {as bs xs ys : List T} {x : T} {n p : ℕ}

/-- The live objects are the elements `xs` of the vector. -/
structure Contents (Rep : Memory T E → (ℕ → Option T) → Prop) (v : Vector) (mem : Memory T E)
    (xs : List T) : Prop where
  rep : Rep mem (placed v.data xs fun _ ↦ none)
  size : v.size = xs.length
  fits : v.size ≤ v.capacity

/-- The request for a block of `n` elements is refused. -/
def refuses (answer : Vector → Option ℕ → ℕ → Option ℕ) (v : Vector) (block : Option ℕ) (n : ℕ) :
    Bool :=
  decide (0 < n) && (answer v block n).isNone

/-- There is no room for `n` elements, and no block for them. -/
def growthFails (answer : Vector → Option ℕ → ℕ → Option ℕ) (v : Vector) (block : Option ℕ)
    (n : ℕ) : Bool :=
  decide (v.capacity < n) && refuses answer v block n

/-- An index that was found, or `-1`. -/
def found : Option ℕ → ℤ
  | none => -1
  | some i => i

/-- The index of the last element that satisfies a predicate. -/
def lastIdx? (q : T → Bool) (xs : List T) : Option ℕ :=
  (xs.reverse.findIdx? q).map fun i ↦ xs.length - 1 - i

theorem findIdx?_middle {q : T → Bool} (has : ∀ a ∈ as, q a = false) (hx : q x = true) :
    (as ++ [x] ++ bs).findIdx? q = some as.length := by
  rw [List.append_assoc, List.findIdx?_append, List.findIdx?_eq_none_iff.mpr has,
    List.singleton_append, List.findIdx?_cons, if_pos hx]
  exact congrArg some (Nat.zero_add _)

theorem index_add (v : Vector) (i : ℕ) : Variant.index v (some (v.data + i)) = found (some i) := by
  change ((v.data + i : ℕ) : ℤ) - v.data = i
  omega

/-! ## Ranges of elements -/

/-- Two ranges of elements next to each other. -/
theorem placed_split : placed p (as ++ bs) f = placed (p + as.length) bs (placed p as f) := by
  rw [placed_append, placed_comm (.inl le_rfl)]

theorem placed_gap :
    placed (p + as.length) ys (placed (p + as.length + ys.length) bs (placed p as f)) =
      placed p (as ++ ys ++ bs) f := by
  rw [placed_split, placed_split, placed_comm (.inl le_rfl), List.length_append, Nat.add_assoc]

namespace Variant.Lawful

variable (hk : k.Lawful sizeof answer Rep)
include hk

/-- **Constructing** copies of a value. -/
theorem construct (h : Rep mem f) (hraw : Raw f p (p + n)) (x : T) : ∃ mem',
    k.construct n p x mem = some ((), mem') ∧ Rep mem' (placed p (List.replicate n x) f) := by
  induction n generalizing p mem f with
  | zero => exact ⟨mem, rfl, h⟩
  | succ n ih =>
    obtain ⟨mem₁, hrun₁, h₁⟩ := hk.constructAt x h (hraw p le_rfl (by omega))
    obtain ⟨mem₂, hrun₂, h₂⟩ := ih h₁ ((hraw.mono (Nat.le_succ p) (by omega)).update (by omega) _)
    rw [placed_update (by omega)] at h₂
    exact ⟨mem₂, (run_bind hrun₁).trans hrun₂, h₂⟩

/-- **Destroying** a range of elements. -/
theorem destruct (h : Rep mem (placed p xs f)) (hraw : Raw f p (p + xs.length)) :
    ∃ mem', k.destruct xs.length p mem = some ((), mem') ∧ Rep mem' f := by
  induction xs generalizing p mem with
  | nil => exact ⟨mem, rfl, h⟩
  | cons x xs ih =>
    rw [List.length_cons] at hraw
    obtain ⟨mem₁, hrun₁, h₁⟩ := hk.destroyAt h (Function.update_self _ _ _)
    have hgap : placed (p + 1) xs f p = none := by
      rw [placed_apply_of_not_mem (by omega), hraw p le_rfl (by omega)]
    rw [placed_cons, Function.update_idem, update_none hgap] at h₁
    obtain ⟨mem₂, hrun₂, h₂⟩ := ih h₁ (hraw.mono (Nat.le_succ p) (by omega))
    exact ⟨mem₂, (run_bind hrun₁).trans hrun₂, h₂⟩

theorem readRange (h : Rep mem (placed p xs f)) :
    readRange xs.length p mem = some (xs, mem) := by
  induction xs generalizing p f with
  | nil => rfl
  | cons x xs ih =>
    have hx := hk.readAt h (Function.update_self _ _ _)
    rw [placed_cons, ← placed_update (by omega)] at h
    rw [List.length_cons, Variant.readRange, run_bind hx, run_bind (ih h)]
    rfl

/-! ## Allocation -/

/-- **A new block** for the elements, or none. -/
theorem realloc (block : Option ℕ) (h : Contents Rep v mem xs) (hle : v.size ≤ n)
    (hbytes : n * sizeof < sizeMax) :
    ∃ v' mem', k.realloc block n v mem = some ((!refuses answer v block n, v'), mem') ∧
      Contents Rep v' mem' xs ∧ (refuses answer v block n = false → v'.capacity = n) := by
  rcases Nat.eq_zero_or_pos n with rfl | hn
  · have hxs : xs = [] := List.eq_nil_of_length_eq_zero (h.size ▸ Nat.le_zero.mp hle)
    have hrep := h.rep
    rw [hxs] at hrep ⊢
    refine ⟨_, mem, hk.realloc_zero, ⟨hrep, Nat.le_zero.mp hle, hle⟩, fun _ ↦ rfl⟩
  · rw [refuses, decide_eq_true hn, Bool.true_and]
    rcases hanswer : answer v block n with _ | d
    · exact ⟨v, mem, hk.realloc_none hn hanswer, h, fun hc ↦ by cases hc⟩
    · obtain ⟨mem', hrun, h'⟩ := hk.realloc_some h.rep h.size h.fits hle hn hbytes hanswer
        (fun _ _ _ ↦ rfl) (fun _ _ _ ↦ rfl)
      exact ⟨_, mem', hrun, ⟨h', h.size, hle⟩, fun _ ↦ rfl⟩

/-- **Growing** to `n` elements, if there is no room for them. -/
theorem grow (block : Option ℕ) (h : Contents Rep v mem xs) (hbytes : n * sizeof < sizeMax) :
    ∃ v' mem', k.grow block n v mem = some ((!growthFails answer v block n, v'), mem') ∧
      Contents Rep v' mem' xs ∧ (growthFails answer v block n = false → n ≤ v'.capacity) := by
  rw [Variant.grow]
  by_cases hfull : n > v.capacity
  · obtain ⟨v', mem', hrun, h', hcapacity⟩ := hk.realloc block h (h.fits.trans hfull.le) hbytes
    rw [if_pos hfull, growthFails, decide_eq_true hfull, Bool.true_and]
    exact ⟨v', mem', hrun, h', fun hc ↦ (hcapacity hc).ge⟩
  · rw [if_neg hfull, growthFails, decide_eq_false hfull, Bool.false_and]
    exact ⟨v, mem, rfl, h, fun _ ↦ not_lt.mp hfull⟩

theorem makeRoom (block : Option ℕ) (h : Contents Rep v mem xs) (hint : v.size + n ≤ intMax)
    (hbytes : (v.size + n) * sizeof < sizeMax) : ∃ v' mem',
    k.makeRoom block n v mem = some ((!growthFails answer v block (v.size + n), v'), mem') ∧
      Contents Rep v' mem' xs ∧
      (growthFails answer v block (v.size + n) = false → v.size + n ≤ v'.capacity) := by
  have hsum : addInt v.size n mem = some (v.size + n, mem) := by
    rw [addInt, if_pos hint]
    rfl
  rw [Variant.makeRoom, run_bind hsum]
  exact hk.grow block h hbytes

/-! ## Insertion -/

/-- **Opening a gap** between elements. -/
theorem openGap (h : Contents Rep v mem (as ++ bs)) (n : ℕ) : ∃ mem',
    k.move (v.data + as.length + n) (v.data + as.length) (v.data + v.size) mem = some ((), mem') ∧
      Rep mem' (placed (v.data + as.length + n) bs (placed v.data as fun _ ↦ none)) := by
  have hrep := h.rep
  rw [placed_split] at hrep
  have hend : v.data + v.size = v.data + as.length + bs.length := by
    rw [h.size, List.length_append, Nat.add_assoc]
  rw [hend]
  refine hk.move _ hrep (Vector.raw_placed (.inr le_rfl)) (Vector.raw_placed (.inr ?_))
  exact Nat.le_add_right _ _

omit hk in
/-- The gap is raw. -/
theorem raw_gap (p n : ℕ) : Raw (placed (p + as.length + n) bs (placed p as fun _ ↦ none))
    (p + as.length) (p + as.length + n) := by
  intro a hle hlt
  rw [placed_apply_of_not_mem (.inl hlt), placed_apply_of_not_mem (.inr hle)]

omit hk in
/-- The gap is filled. -/
theorem fillGap (h : Contents Rep v mem (as ++ bs)) (hys : ys.length = n)
    (hroom : v.size + n ≤ v.capacity) (h' : Rep mem' (placed (v.data + as.length) ys
      (placed (v.data + as.length + n) bs (placed v.data as fun _ ↦ none)))) :
    Contents Rep { v with size := v.size + n } mem' (as ++ ys ++ bs) := by
  subst hys
  rw [placed_gap] at h'
  refine ⟨h', ?_, hroom⟩
  rw [List.append_assoc, List.length_append, List.length_append, Nat.add_left_comm,
    ← List.length_append, ← h.size, Nat.add_comm]

/-- **Room between elements**: there is none, or a gap that can be filled. -/
theorem room (block : Option ℕ) (h : Contents Rep v mem (as ++ bs)) (hint : v.size + n ≤ intMax)
    (hbytes : (v.size + n) * sizeof < sizeMax) : ∃ v₁ mem₁,
    k.makeRoom block n v mem = some ((!growthFails answer v block (v.size + n), v₁), mem₁) ∧
      (growthFails answer v block (v.size + n) = true → Contents Rep v₁ mem₁ (as ++ bs)) ∧
      (growthFails answer v block (v.size + n) = false → ∃ mem₂ f,
        k.move (v₁.data + as.length + n) (v₁.data + as.length) (v₁.data + v₁.size) mem₁ =
            some ((), mem₂) ∧ Rep mem₂ f ∧
          Raw f (v₁.data + as.length) (v₁.data + as.length + n) ∧
          ∀ ys mem₃, ys.length = n → Rep mem₃ (placed (v₁.data + as.length) ys f) →
            Contents Rep { v₁ with size := v₁.size + n } mem₃ (as ++ ys ++ bs)) := by
  obtain ⟨v₁, mem₁, hrun, h₁, hcapacity⟩ := hk.makeRoom block h hint hbytes
  refine ⟨v₁, mem₁, hrun, fun _ ↦ h₁, fun hfails ↦ ?_⟩
  have hroom : v₁.size + n ≤ v₁.capacity := by
    rw [h₁.size, ← h.size]
    exact hcapacity hfails
  obtain ⟨mem₂, hmove, h₂⟩ := hk.openGap h₁ n
  exact ⟨mem₂, _, hmove, h₂, raw_gap _ _, fun ys mem₃ hys h₃ ↦ fillGap h₁ hys hroom h₃⟩

/-- **Inserting a range.** -/
theorem insertRange (block : Option ℕ) (h : Contents Rep v mem (as ++ bs)) (ys : List T)
    (hint : v.size + ys.length ≤ intMax) (hbytes : (v.size + ys.length) * sizeof < sizeMax) :
    ∃ v' mem', k.insertRange block v as.length ys mem =
        some ((!growthFails answer v block (v.size + ys.length), v'), mem') ∧
      Contents Rep v' mem' (if growthFails answer v block (v.size + ys.length) then as ++ bs
        else as ++ ys ++ bs) := by
  obtain ⟨v₁, mem₁, hroom, hfailed, hgap⟩ := hk.room block h hint hbytes
  rw [Variant.insertRange, run_bind hroom]
  cases hfails : growthFails answer v block (v.size + ys.length) with
  | true => exact ⟨v₁, mem₁, rfl, hfailed hfails⟩
  | false =>
    obtain ⟨mem₂, f, hmove, h₂, hraw, hfill⟩ := hgap hfails
    obtain ⟨mem₃, hcopy, h₃⟩ := hk.copy h₂ hraw
    exact ⟨_, mem₃, (run_bind hmove).trans (run_bind hcopy), hfill ys mem₃ rfl h₃⟩

/-- **Inserting copies.** -/
theorem insertCopies (block : Option ℕ) (h : Contents Rep v mem (as ++ bs)) (n : ℕ) (x : T)
    (hint : v.size + n ≤ intMax) (hbytes : (v.size + n) * sizeof < sizeMax) :
    ∃ v' mem', k.insertCopies block v as.length n x mem =
        some ((!growthFails answer v block (v.size + n), v'), mem') ∧
      Contents Rep v' mem' (if growthFails answer v block (v.size + n) then as ++ bs
        else as ++ List.replicate n x ++ bs) := by
  obtain ⟨v₁, mem₁, hroom, hfailed, hgap⟩ := hk.room block h hint hbytes
  rw [Variant.insertCopies, run_bind hroom]
  cases hfails : growthFails answer v block (v.size + n) with
  | true => exact ⟨v₁, mem₁, rfl, hfailed hfails⟩
  | false =>
    obtain ⟨mem₂, f, hmove, h₂, hraw, hfill⟩ := hgap hfails
    obtain ⟨mem₃, hconstruct, h₃⟩ := hk.construct h₂ hraw x
    exact ⟨_, mem₃, (run_bind hmove).trans (run_bind hconstruct),
      hfill _ mem₃ List.length_replicate h₃⟩

/-- **Inserting an element.** -/
theorem insert (block : Option ℕ) (h : Contents Rep v mem (as ++ bs)) (x : T)
    (hint : v.size + 1 ≤ intMax) (hbytes : (v.size + 1) * sizeof < sizeMax) :
    ∃ v' mem', k.insert block v as.length x mem =
        some ((!growthFails answer v block (v.size + 1), v'), mem') ∧
      Contents Rep v' mem' (if growthFails answer v block (v.size + 1) then as ++ bs
        else as ++ [x] ++ bs) := by
  obtain ⟨v₁, mem₁, hroom, hfailed, hgap⟩ := hk.room block h hint hbytes
  rw [Variant.insert, run_bind hroom]
  cases hfails : growthFails answer v block (v.size + 1) with
  | true =>
    have h₁ := hfailed hfails
    obtain ⟨mem₂, hdiscard, h₂⟩ := hk.discard x h₁.rep
    exact ⟨v₁, mem₂, run_bind hdiscard, h₂, h₁.size, h₁.fits⟩
  | false =>
    obtain ⟨mem₂, f, hmove, h₂, hraw, hfill⟩ := hgap hfails
    obtain ⟨mem₃, hconstruct, h₃⟩ := hk.constructAt x h₂ (hraw _ le_rfl (Nat.lt_succ_self _))
    obtain ⟨mem₄, hdiscard, h₄⟩ := hk.discardMoved x h₃
    refine ⟨_, mem₄, ?_, hfill [x] mem₄ rfl h₄⟩
    exact (run_bind hmove).trans ((run_bind hconstruct).trans (run_bind hdiscard))

/-- Appending an element inserts it at the end, -/
theorem append (block : Option ℕ) (h : Contents Rep v mem xs) (x : T) (hint : v.size + 1 ≤ intMax)
    (hbytes : (v.size + 1) * sizeof < sizeMax) : ∃ v' mem',
    k.append block v x mem = some ((!growthFails answer v block (v.size + 1), v'), mem') ∧
      Contents Rep v' mem' (if growthFails answer v block (v.size + 1) then xs ++ []
        else xs ++ [x] ++ []) := by
  rw [← List.append_nil xs] at h
  obtain ⟨v₁, mem₁, hrun, h₁⟩ := hk.insert block h x hint hbytes
  obtain ⟨mem₂, hdiscard, h₂⟩ := hk.discardMoved x h₁.rep
  have hsize : v.size = xs.length := by rw [h.size, List.append_nil]
  rw [← hsize] at hrun
  refine ⟨v₁, mem₂, ?_, h₂, h₁.size, h₁.fits⟩
  rw [Variant.append, run_bind hrun, run_bind hdiscard]
  rfl

/-- and prepending one at the beginning. -/
theorem prepend (block : Option ℕ) (h : Contents Rep v mem xs) (x : T) (hint : v.size + 1 ≤ intMax)
    (hbytes : (v.size + 1) * sizeof < sizeMax) : ∃ v' mem',
    k.prepend block v x mem = some ((!growthFails answer v block (v.size + 1), v'), mem') ∧
      Contents Rep v' mem' (if growthFails answer v block (v.size + 1) then [] ++ xs
        else [] ++ [x] ++ xs) := by
  have h₀ : Contents Rep v mem ([] ++ xs) := h
  obtain ⟨v₁, mem₁, hrun, h₁⟩ := hk.insert block h₀ x hint hbytes
  obtain ⟨mem₂, hdiscard, h₂⟩ := hk.discardMoved x h₁.rep
  refine ⟨v₁, mem₂, ?_, h₂, h₁.size, h₁.fits⟩
  rw [Variant.prepend]
  exact (run_bind hrun).trans (run_bind hdiscard)

/-! ## Removal -/

/-- **Closing a gap** between elements. -/
theorem closeGap {d : ℕ} (n : ℕ)
    (h : Rep mem (placed (d + as.length + n) bs (placed d as fun _ ↦ none))) : ∃ mem',
    k.move (d + as.length) (d + as.length + n) (d + as.length + n + bs.length) mem =
        some ((), mem') ∧ Rep mem' (placed d (as ++ bs) fun _ ↦ none) := by
  rw [placed_split]
  refine hk.move _ h (Vector.raw_placed (.inr ?_)) (Vector.raw_placed (.inr le_rfl))
  exact Nat.le_add_right _ _

omit hk in
/-- The gap is closed. -/
theorem removed (h : Contents Rep v mem (as ++ xs ++ bs))
    (h' : Rep mem' (placed v.data (as ++ bs) fun _ ↦ none)) :
    Contents Rep { v with size := v.size - xs.length } mem' (as ++ bs) := by
  have hsize := h.size
  have hfits := h.fits
  simp only [List.length_append] at hsize
  refine ⟨h', ?_, (Nat.sub_le _ _).trans hfits⟩
  change v.size - xs.length = _
  rw [List.length_append]
  omega

omit hk in
/-- A range of elements in the middle. -/
theorem rep_middle (h : Contents Rep v mem (as ++ xs ++ bs)) :
    Rep mem (placed (v.data + as.length) xs
      (placed (v.data + as.length + xs.length) bs (placed v.data as fun _ ↦ none))) := by
  rw [placed_gap]
  exact h.rep

omit hk in
theorem end_eq (h : Contents Rep v mem (as ++ xs ++ bs)) :
    v.data + v.size = v.data + as.length + xs.length + bs.length := by
  rw [h.size, List.length_append, List.length_append, ← Nat.add_assoc, ← Nat.add_assoc]

omit hk in
/-- The number of elements from `i` on that are meant by a count. -/
theorem clamp {i : ℕ} {n : ℤ} (hint : n < 0 ∨ i + n.toNat ≤ intMax) :
    Variant.clamp v i n mem =
      some (if n < 0 then v.size - i else min n.toNat (v.size - i), mem) := by
  rw [Variant.clamp]
  by_cases hn : n < 0
  · rw [if_pos hn, if_pos hn]
    rfl
  · have hsum : addInt i n.toNat mem = some (i + n.toNat, mem) := by
      rw [addInt, if_pos (hint.resolve_left hn)]
      rfl
    rw [if_neg hn, if_neg hn, run_bind hsum]
    change some _ = some _
    congr 2
    split <;> omega

/-- **Removing a range.** -/
theorem removeAt {n : ℤ} (h : Contents Rep v mem (as ++ xs ++ bs))
    (hn : Variant.clamp v as.length n mem = some (xs.length, mem)) : ∃ v' mem',
    k.removeAt v as.length n mem = some (v', mem') ∧ Contents Rep v' mem' (as ++ bs) := by
  obtain ⟨mem₁, hdestruct, h₁⟩ := hk.destruct (rep_middle h) (raw_gap _ _)
  obtain ⟨mem₂, hmove, h₂⟩ := hk.closeGap _ h₁
  rw [← end_eq h] at hmove
  refine ⟨_, mem₂, ?_, removed h h₂⟩
  rw [Variant.removeAt, run_bind hn]
  exact (run_bind hdestruct).trans (run_bind hmove)

/-- An element in the middle is destroyed. -/
theorem destroyMiddle (h : Rep mem (placed (p + as.length) [x]
    (placed (p + as.length + 1) bs (placed p as fun _ ↦ none)))) :
    ∃ mem', k.destroyAt (p + as.length) mem = some ((), mem') ∧
      Rep mem' (placed (p + as.length + 1) bs (placed p as fun _ ↦ none)) := by
  obtain ⟨mem', hrun, h'⟩ := hk.destroyAt h (Function.update_self _ _ _)
  rw [placed_cons, placed_nil, Function.update_idem,
    update_none (raw_gap _ _ _ le_rfl (Nat.lt_succ_self _))] at h'
  exact ⟨mem', hrun, h'⟩

/-- **Taking an element out.** -/
theorem takeAt (h : Contents Rep v mem (as ++ [x] ++ bs)) : ∃ v' mem',
    k.takeAt v as.length mem = some ((x, v'), mem') ∧ Contents Rep v' mem' (as ++ bs) := by
  obtain ⟨mem₁, y, hmoveOut, h₁⟩ := hk.moveOut (rep_middle h) (Function.update_self _ _ _)
  rw [placed_cons, placed_nil, Function.update_idem] at h₁
  obtain ⟨mem₂, hdestroy, h₂⟩ := hk.destroyMiddle (x := y) h₁
  obtain ⟨mem₃, hmove, h₃⟩ := hk.closeGap _ h₂
  obtain ⟨mem₄, hdiscard, h₄⟩ := hk.discardMoved x h₃
  have hend : v.data + v.size = v.data + as.length + 1 + bs.length := end_eq h
  rw [← hend] at hmove
  refine ⟨_, mem₄, ?_, removed h h₄⟩
  rw [Variant.takeAt, run_bind hmoveOut]
  exact (run_bind hdestroy).trans ((run_bind hmove).trans (run_bind hdiscard))

/-! ## Searching -/

section

variable [BEq T]

/-- **Searching forwards** finds the first element that equals a value. -/
theorem find (h : Rep mem (placed p xs f)) (value : T) :
    ((∀ x ∈ xs, (x == value) = false) ∧ find xs.length p value mem = some (none, mem)) ∨
      ∃ as x bs, xs = as ++ [x] ++ bs ∧ (∀ a ∈ as, (a == value) = false) ∧ (x == value) = true ∧
        find xs.length p value mem = some (some (p + as.length), mem) := by
  induction xs generalizing p f with
  | nil => exact .inl ⟨fun _ hx ↦ absurd hx List.not_mem_nil, rfl⟩
  | cons x xs ih =>
    have hx := hk.readAt h (Function.update_self _ _ _)
    rw [placed_cons, ← placed_update (by omega)] at h
    rw [List.length_cons, Variant.find, run_bind hx]
    cases heq : x == value with
    | true => exact .inr ⟨[], x, xs, rfl, fun _ ha ↦ absurd ha List.not_mem_nil, heq, rfl⟩
    | false =>
      rcases ih h with ⟨hnone, hrun⟩ | ⟨as, y, bs, rfl, has, hy, hrun⟩
      · exact .inl ⟨List.forall_mem_cons.mpr ⟨heq, hnone⟩, hrun⟩
      · refine .inr ⟨x :: as, y, bs, rfl, List.forall_mem_cons.mpr ⟨heq, has⟩, hy, ?_⟩
        apply hrun.trans
        rw [List.length_cons, Nat.add_right_comm, Nat.add_assoc]

/-- **Searching backwards** finds the last one. -/
theorem rfind (h : Rep mem (placed p xs f)) (value : T) :
    ((∀ x ∈ xs, (x == value) = false) ∧ rfind xs.length p value mem = some (none, mem)) ∨
      ∃ as x bs, xs = as ++ [x] ++ bs ∧ (∀ b ∈ bs, (b == value) = false) ∧ (x == value) = true ∧
        rfind xs.length p value mem = some (some (p + as.length), mem) := by
  induction xs using List.reverseRecOn generalizing f with
  | nil => exact .inl ⟨fun _ hx ↦ absurd hx List.not_mem_nil, rfl⟩
  | append_singleton xs x ih =>
    have hlast := h
    rw [placed_split] at hlast
    have hx := hk.readAt hlast (Function.update_self _ _ _)
    rw [placed_append] at h
    rw [List.length_append, List.length_singleton, Variant.rfind, run_bind hx]
    cases heq : x == value with
    | true => exact .inr ⟨xs, x, [], by simp, fun _ hb ↦ absurd hb List.not_mem_nil, heq, rfl⟩
    | false =>
      rcases ih h with ⟨hnone, hrun⟩ | ⟨as, y, bs, rfl, hbs, hy, hrun⟩
      · refine .inl ⟨fun z hz ↦ ?_, hrun⟩
        rcases List.mem_append.mp hz with hz | hz
        · exact hnone z hz
        · exact List.mem_singleton.mp hz ▸ heq
      · refine .inr ⟨as, y, bs ++ [x], by simp, fun z hz ↦ ?_, hy, hrun⟩
        rcases List.mem_append.mp hz with hz | hz
        · exact hbs z hz
        · exact List.mem_singleton.mp hz ▸ heq

/-- **Removing the first** element that equals a value. -/
theorem removeOne (h : Contents Rep v mem xs) (value : T) : ∃ v' mem',
    k.removeOne v value mem = some ((xs.any (· == value), v'), mem') ∧
      Contents Rep v' mem' (xs.eraseP (· == value)) := by
  rw [Variant.removeOne, h.size]
  rcases hk.find h.rep value with ⟨hnone, hrun⟩ | ⟨as, x, bs, rfl, has, hx, hrun⟩
  · rw [run_bind hrun]
    have hany : xs.any (· == value) = false := by simpa using hnone
    rw [hany, List.eraseP_of_forall_not (by simpa using hnone)]
    exact ⟨v, mem, rfl, h⟩
  · obtain ⟨mem₁, hdestroy, h₁⟩ := hk.destroyMiddle (rep_middle h)
    obtain ⟨mem₂, hmove, h₂⟩ := hk.closeGap _ h₁
    have hend : v.data + v.size = v.data + as.length + 1 + bs.length := end_eq h
    rw [← hend, h.size] at hmove
    have hany : (as ++ [x] ++ bs).any (· == value) = true := by simp [hx]
    have herase : (as ++ [x] ++ bs).eraseP (· == value) = as ++ bs := by
      rw [List.append_assoc, List.eraseP_append_right _ (by simpa using has), List.singleton_append,
        List.eraseP_cons_of_pos (p := (· == value)) hx]
    rw [run_bind hrun, hany, herase]
    refine ⟨_, mem₂, ?_, removed h h₂⟩
    rw [h.size]
    exact (run_bind hdestroy).trans (run_bind hmove)

/-- **The loop of `removeAll`**, when the elements in front of it are kept. -/
theorem removeLoop {rounds d : ℕ} (h : Rep mem (placed d (as ++ xs) fun _ ↦ none))
    (hrounds : xs.length ≤ rounds) (value : T) : ∃ mem',
    k.removeLoop rounds (d + as.length) (d + as.length + xs.length) value mem =
        some (d + (as ++ xs.filter fun x ↦ !(x == value)).length, mem') ∧
      Rep mem' (placed d (as ++ xs.filter fun x ↦ !(x == value)) fun _ ↦ none) := by
  induction rounds generalizing as xs mem with
  | zero =>
    obtain rfl := List.eq_nil_of_length_eq_zero (Nat.le_zero.mp hrounds)
    refine ⟨mem, ?_, h⟩
    rw [Variant.removeLoop, Nat.add_sub_cancel_left, List.length_nil, Nat.add_zero,
      List.filter_nil, List.append_nil]
    rfl
  | succ rounds ih =>
    have hfind := h
    rw [placed_split] at hfind
    rw [Variant.removeLoop, Nat.add_sub_cancel_left]
    rcases hk.find hfind value with ⟨hnone, hrun⟩ | ⟨bs, x, cs, rfl, hbs, hx, hrun⟩
    · have hfilter : (xs.filter fun x ↦ !(x == value)) = xs :=
        List.filter_eq_self.mpr fun x hx ↦ by rw [hnone x hx]; rfl
      rw [run_bind hrun, hfilter, List.length_append, ← Nat.add_assoc]
      exact ⟨mem, rfl, h⟩
    · -- the elements in front of the one that was found are kept
      have hfilter : ((bs ++ [x] ++ cs).filter fun x ↦ !(x == value)) =
          bs ++ cs.filter fun x ↦ !(x == value) := by
        rw [List.filter_append, List.filter_append, List.filter_singleton, hx,
          List.filter_eq_self.mpr fun b hb ↦ by rw [hbs b hb]; rfl]
        exact congrArg (· ++ _) (List.append_nil bs)
      have hsplit : as ++ (bs ++ [x] ++ cs) = as ++ bs ++ [x] ++ cs := by simp
      have hp : d + as.length + bs.length = d + (as ++ bs).length := by
        rw [List.length_append, Nat.add_assoc]
      have he : d + as.length + (bs ++ [x] ++ cs).length =
          d + (as ++ bs).length + 1 + cs.length := by
        simp only [List.length_append, List.length_singleton]
        omega
      rw [hsplit, ← placed_gap] at h
      obtain ⟨mem₁, hdestroy, h₁⟩ := hk.destroyMiddle h
      obtain ⟨mem₂, hmove, h₂⟩ := hk.closeGap _ h₁
      have hcs : cs.length ≤ rounds := by
        simp only [List.length_append, List.length_singleton] at hrounds
        omega
      obtain ⟨mem₃, hloop, h₃⟩ := ih h₂ hcs
      rw [List.append_assoc as bs, ← hfilter] at hloop h₃
      refine ⟨mem₃, ?_, h₃⟩
      rw [run_bind hrun, hp, he]
      refine (run_bind hdestroy).trans ((run_bind hmove).trans ?_)
      rw [← hloop, Nat.add_right_comm, Nat.add_sub_cancel]

/-- **Removing all** elements that equal a value. -/
theorem removeAll (h : Contents Rep v mem xs) (value : T) : ∃ v' mem',
    k.removeAll v value mem = some ((xs.countP (· == value), v'), mem') ∧
      Contents Rep v' mem' (xs.filter fun x ↦ !(x == value)) := by
  obtain ⟨mem', hrun, h'⟩ := hk.removeLoop
    (show Rep mem (placed v.data ([] ++ xs) fun _ ↦ none) from h.rep) le_rfl value
  rw [List.nil_append, List.length_nil, Nat.add_zero, ← h.size] at hrun
  rw [List.nil_append] at h'
  have hcount : xs.length = xs.countP (· == value) + (xs.filter fun x ↦ !(x == value)).length := by
    rw [List.countP_eq_length_filter]
    exact List.length_eq_length_filter_add _
  rw [Variant.removeAll, run_bind hrun, Nat.add_sub_cancel_left, h.size, hcount, Nat.add_sub_cancel]
  have hfits := h.fits
  rw [h.size, hcount] at hfits
  exact ⟨_, mem', rfl, ⟨h', Nat.add_sub_cancel_left _ _, (Nat.sub_le _ _).trans hfits⟩⟩

theorem indexOf (h : Contents Rep v mem (as ++ bs)) (value : T) :
    indexOf v value as.length mem =
      some (found ((bs.findIdx? (· == value)).map (as.length + ·)), mem) := by
  have hrep := h.rep
  rw [placed_split] at hrep
  have hsize : v.size - as.length = bs.length := by
    rw [h.size, List.length_append, Nat.add_sub_cancel_left]
  rw [Variant.indexOf, hsize]
  rcases hk.find hrep value with ⟨hnone, hrun⟩ | ⟨cs, x, ds, rfl, hcs, hx, hrun⟩
  · rw [run_bind hrun, List.findIdx?_eq_none_iff.mpr hnone]
    rfl
  · rw [run_bind hrun, findIdx?_middle hcs hx, Nat.add_assoc]
    exact congrArg (fun i ↦ some (i, mem)) (index_add v _)

theorem lastIndexOf (h : Contents Rep v mem (as ++ bs)) (value : T) :
    lastIndexOf v value (as.length - 1) mem = some (found (lastIdx? (· == value) as), mem) := by
  have hrep := h.rep
  rw [placed_append] at hrep
  have hlength : ((as.length : ℤ) - 1 + 1).toNat = as.length := by omega
  rw [Variant.lastIndexOf, hlength, lastIdx?]
  rcases hk.rfind hrep value with ⟨hnone, hrun⟩ | ⟨cs, x, ds, rfl, hds, hx, hrun⟩
  · rw [run_bind hrun, List.findIdx?_eq_none_iff.mpr fun x hx ↦ hnone x (List.mem_reverse.mp hx)]
    rfl
  · have hreverse : (cs ++ [x] ++ ds).reverse = ds.reverse ++ [x] ++ cs.reverse := by simp
    have hindex : (cs ++ [x] ++ ds).length - 1 - ds.reverse.length = cs.length := by
      simp only [List.length_append, List.length_singleton, List.length_reverse]
      omega
    rw [run_bind hrun, hreverse,
      findIdx?_middle (fun d hd ↦ hds d (List.mem_reverse.mp hd)) hx, Option.map_some, hindex]
    exact congrArg (fun i ↦ some (i, mem)) (index_add v _)

theorem contains (h : Contents Rep v mem xs) (value : T) :
    contains v value mem = some (xs.any (· == value), mem) := by
  rw [Variant.contains, h.size]
  rcases hk.find h.rep value with ⟨hnone, hrun⟩ | ⟨as, x, bs, rfl, -, hx, hrun⟩
  · rw [run_bind hrun, show xs.any (· == value) = false by simpa using hnone]
    rfl
  · rw [run_bind hrun, show (as ++ [x] ++ bs).any (· == value) = true by simp [hx]]
    rfl

end

/-! ## Sizes and copies -/

theorem clear (h : Contents Rep v mem xs) : ∃ v' mem',
    k.clear v mem = some (v', mem') ∧ Contents Rep v' mem' [] := by
  obtain ⟨mem', hrun, h'⟩ := hk.destruct h.rep (Vector.raw_none _ _)
  rw [Variant.clear, h.size, run_bind hrun]
  exact ⟨_, mem', rfl, h', rfl, Nat.zero_le _⟩

theorem fill (h : Contents Rep v mem xs) (x : T) : ∃ v' mem',
    k.fill v x mem = some (v', mem') ∧ Contents Rep v' mem' (List.replicate xs.length x) := by
  obtain ⟨mem₁, hdestruct, h₁⟩ := hk.destruct h.rep (Vector.raw_none _ _)
  obtain ⟨mem₂, hconstruct, h₂⟩ := hk.construct (n := xs.length) h₁ (Vector.raw_none v.data _) x
  refine ⟨v, mem₂, ?_, h₂, h.size.trans List.length_replicate.symm, h.fits⟩
  rw [Variant.fill, h.size, run_bind hdestruct, run_bind hconstruct]
  rfl

theorem reserve {n : ℤ} (block : Option ℕ) (h : Contents Rep v mem xs)
    (hbytes : n.toNat * sizeof < sizeMax) : ∃ v' mem', k.reserve block v n mem =
      some ((!growthFails answer v block n.toNat, v'), mem') ∧ Contents Rep v' mem' xs := by
  obtain ⟨v', mem', hrun, h', -⟩ := hk.grow block h hbytes
  exact ⟨v', mem', hrun, h'⟩

theorem trimToSize (block : Option ℕ) (h : Contents Rep v mem xs)
    (hbytes : v.size * sizeof < sizeMax) : ∃ v' mem', k.trimToSize block v mem =
      some ((!(decide (v.size < v.capacity) && refuses answer v block v.size), v'), mem') ∧
        Contents Rep v' mem' xs := by
  rw [Variant.trimToSize]
  by_cases hlarge : v.capacity > v.size
  · obtain ⟨v', mem', hrun, h', -⟩ := hk.realloc block h le_rfl hbytes
    rw [if_pos hlarge, decide_eq_true hlarge, Bool.true_and]
    exact ⟨v', mem', hrun, h'⟩
  · rw [if_neg hlarge, decide_eq_false hlarge, Bool.false_and]
    exact ⟨v, mem, rfl, h⟩

/-- **Resizing**: elements at the end are destroyed, or default ones are constructed. -/
theorem resize [Inhabited T] {n : ℤ} (block : Option ℕ) (h : Contents Rep v mem xs) (hn : 0 ≤ n)
    (hbytes : n.toNat * sizeof < sizeMax) : ∃ v' mem', k.resize block v n mem =
      some ((!growthFails answer v block n.toNat, v'), mem') ∧
        Contents Rep v' mem' (if growthFails answer v block n.toNat then xs
          else xs.take n.toNat ++ List.replicate (n.toNat - xs.length) default) := by
  obtain ⟨n, rfl⟩ := Int.eq_ofNat_of_zero_le hn
  rw [Int.toNat_natCast] at hbytes ⊢
  rw [Variant.resize]
  by_cases hgrow : v.size < n
  · obtain ⟨v₁, mem₁, hrun, h₁, hcapacity⟩ := hk.grow block h hbytes
    rw [if_pos (Nat.cast_lt.mpr hgrow), Int.toNat_natCast, run_bind hrun]
    cases hfails : growthFails answer v block n with
    | true => exact ⟨v₁, mem₁, rfl, h₁⟩
    | false =>
      have hsize : v₁.size = v.size := h₁.size.trans h.size.symm
      obtain ⟨mem₂, hconstruct, h₂⟩ := hk.construct (n := n - v₁.size) (p := v₁.data + v₁.size)
        h₁.rep (Vector.raw_placed (.inr (by rw [h₁.size]))) default
      have htake : xs.take n = xs := List.take_of_length_le (h.size ▸ hgrow.le)
      rw [h₁.size, ← placed_split] at h₂
      rw [if_neg Bool.false_ne_true, htake]
      refine ⟨_, mem₂, run_bind hconstruct, h₂, ?_, hcapacity hfails⟩
      rw [List.length_append, List.length_replicate, ← h₁.size, hsize]
      exact (Nat.add_sub_of_le hgrow.le).symm
  · have hle : n ≤ v.size := not_lt.mp hgrow
    have hfails : growthFails answer v block n = false := by
      rw [growthFails, decide_eq_false (not_lt.mpr (hle.trans h.fits)), Bool.false_and]
    have hlength : (xs.take n).length = n := List.length_take_of_le (h.size ▸ hle)
    have hrep := h.rep
    rw [← List.take_append_drop n xs, placed_split, hlength] at hrep
    have hraw : Raw (placed v.data (xs.take n) fun _ ↦ none) (v.data + n)
        (v.data + n + (xs.drop n).length) := Vector.raw_placed (.inr (by rw [hlength]))
    obtain ⟨mem₁, hdestruct, h₁⟩ := hk.destruct hrep hraw
    rw [List.length_drop, ← h.size] at hdestruct
    rw [if_neg (mt Nat.cast_lt.mp hgrow), if_pos hn, Int.toNat_natCast, run_bind hdestruct, hfails,
      if_neg Bool.false_ne_true, Nat.sub_eq_zero_of_le (h.size ▸ hle), List.replicate_zero,
      List.append_nil]
    exact ⟨_, mem₁, rfl, h₁, hlength.symm, hle.trans h.fits⟩

omit hk in
/-- What `malloc` returns does not overlap the block in use. -/
theorem malloc_apart {block : Option ℕ} {d : ℕ} (h : v.malloc block n = some d) :
    d + n ≤ v.data ∨ v.data + v.capacity ≤ d := by
  rw [Vector.malloc.eq_def] at h
  cases block with
  | none => cases h
  | some e =>
    dsimp only at h
    split at h
    · rename_i happart
      exact Option.some.inj h ▸ happart
    · cases h

/-- **Copying** elements into a new vector, which is empty if there is no block for them. -/
theorem copyOf {n : ℤ} (block : Option ℕ) (h : Contents Rep v mem (as ++ xs ++ bs))
    (hn : Variant.clamp v as.length n mem = some (xs.length, mem))
    (hbytes : xs.length * sizeof < sizeMax) : ∃ w mem', k.copyOf block v as.length n mem =
      some (w, mem') ∧ w.size ≤ w.capacity ∧
      w.size = (if refuses Vector.malloc v block xs.length then [] else xs).length ∧
      Raw (placed v.data (as ++ xs ++ bs) fun _ ↦ none) w.data (w.data + w.size) ∧
      Rep mem' (placed w.data (if refuses Vector.malloc v block xs.length then [] else xs)
        (placed v.data (as ++ xs ++ bs) fun _ ↦ none)) := by
  rw [Variant.copyOf, run_bind hn]
  by_cases hpos : xs.length > 0
  · rw [if_pos hpos, refuses, decide_eq_true hpos, Bool.true_and]
    rcases hmalloc : v.malloc block xs.length with _ | d
    · have hrun : k.realloc none xs.length Vector.new mem = some ((false, Vector.new), mem) :=
        hk.realloc_none hpos (hk.answer_new none _)
      rw [run_bind hrun]
      exact ⟨Vector.new, mem, rfl, le_rfl, rfl, fun a _ ha ↦ absurd ha (Nat.not_lt_zero a), h.rep⟩
    · have happart := malloc_apart hmalloc
      have hfits := h.fits
      have hsize := h.size
      have hd : Raw (placed v.data (as ++ xs ++ bs) fun _ ↦ none) d (d + xs.length) :=
        Vector.raw_placed (by omega)
      have hnew :
          Rep mem (placed Vector.new.data [] (placed v.data (as ++ xs ++ bs) fun _ ↦ none)) := h.rep
      obtain ⟨mem₁, hrun, h₁⟩ := hk.realloc_some hnew rfl le_rfl (Nat.zero_le _) hpos hbytes
        (hk.answer_new (some d) xs.length)
        (fun a _ ha ↦ absurd ha (Nat.not_lt_zero a)) hd
      rw [placed_nil, ← placed_gap] at h₁
      have hread := hk.readRange h₁
      rw [placed_gap] at h₁
      obtain ⟨mem₂, hcopy, h₂⟩ := hk.copy h₁ hd
      rw [run_bind hrun]
      exact ⟨_, mem₂, (run_bind hread).trans (run_bind hcopy), le_rfl, rfl, hd, h₂⟩
  · obtain rfl := List.eq_nil_of_length_eq_zero (Nat.eq_zero_of_not_pos hpos)
    rw [if_neg hpos, ite_self]
    exact ⟨Vector.new, mem, rfl, le_rfl, rfl, fun a _ ha ↦ absurd ha (Nat.not_lt_zero a), h.rep⟩

end Variant.Lawful

end DuoFirmware.Wiring
