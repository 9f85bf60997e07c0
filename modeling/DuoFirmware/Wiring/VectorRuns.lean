import DuoFirmware.Wiring.VectorMethods

/-!
# Vectors and lists

A vector is used through its functions, while the allocator answers each request for a block, or
refuses it. Both variants of vectors return what a list returns under the same operations, where an
operation whose request was refused does nothing.
-/

namespace DuoFirmware.Wiring

open ObjectMemory

variable {T E : Type}

namespace Vector

inductive Op (T : Type) where
  | append (value : T)
  | appendCopies (n : ℕ) (value : T)
  | appendRange (values : List T)
  | prepend (value : T)
  | prependCopies (n : ℕ) (value : T)
  | prependRange (values : List T)
  | insert (i : ℕ) (value : T)
  | insertCopies (i n : ℕ) (value : T)
  | insertRange (i : ℕ) (values : List T)
  | removeAt (i : ℕ) (n : ℤ)
  | removeOne (value : T)
  | removeAll (value : T)
  | takeFirst
  | takeLast
  | takeAt (i : ℕ)
  | resize (n : ℤ)
  | reserve (n : ℤ)
  | trimToSize
  | clear
  | fill (value : T)
  | copy (i : ℕ) (n : ℤ)
  | indexOf (value : T) (i : ℕ)
  | lastIndexOf (value : T) (i : ℤ)
  | lastIndex (value : T)
  | contains (value : T)

/-- What a function returns. -/
inductive Result (T : Type) where
  | nothing
  | bool (b : Bool)
  | int (n : ℤ)
  | value (x : T)
  | values (xs : List T)
  deriving DecidableEq

/-! ## Vectors -/

section

variable [Inhabited T] [BEq T] (k : Variant T E)

/-- A function is called, while the allocator answers with `block`. The elements of a copy are
looked at before it is deleted. -/
def step (block : Option ℕ) (v : Vector) : Op T → ObjM T E (Result T × Vector)
  | .append value => do
    let (ok, v) ← k.append block v value
    pure (.bool ok, v)
  | .appendCopies n value => do
    let (ok, v) ← k.insertCopies block v v.size n value
    pure (.bool ok, v)
  | .appendRange values => do
    let (ok, v) ← k.insertRange block v v.size values
    pure (.bool ok, v)
  | .prepend value => do
    let (ok, v) ← k.prepend block v value
    pure (.bool ok, v)
  | .prependCopies n value => do
    let (ok, v) ← k.insertCopies block v 0 n value
    pure (.bool ok, v)
  | .prependRange values => do
    let (ok, v) ← k.insertRange block v 0 values
    pure (.bool ok, v)
  | .insert i value => do
    let (ok, v) ← k.insert block v i value
    pure (.bool ok, v)
  | .insertCopies i n value => do
    let (ok, v) ← k.insertCopies block v i n value
    pure (.bool ok, v)
  | .insertRange i values => do
    let (ok, v) ← k.insertRange block v i values
    pure (.bool ok, v)
  | .removeAt i n => do
    let v ← k.removeAt v i n
    pure (.nothing, v)
  | .removeOne value => do
    let (ok, v) ← k.removeOne v value
    pure (.bool ok, v)
  | .removeAll value => do
    let (n, v) ← k.removeAll v value
    pure (.int n, v)
  | .takeFirst => do
    let (x, v) ← k.takeFirst v
    pure (.value x, v)
  | .takeLast => do
    let (x, v) ← k.takeLast v
    pure (.value x, v)
  | .takeAt i => do
    let (x, v) ← k.takeAt v i
    pure (.value x, v)
  | .resize n => do
    let (ok, v) ← k.resize block v n
    pure (.bool ok, v)
  | .reserve n => do
    let (ok, v) ← k.reserve block v n
    pure (.bool ok, v)
  | .trimToSize => do
    let (ok, v) ← k.trimToSize block v
    pure (.bool ok, v)
  | .clear => do
    let v ← k.clear v
    pure (.nothing, v)
  | .fill value => do
    let v ← k.fill v value
    pure (.nothing, v)
  | .copy i n => do
    let w ← k.copyOf block v i n
    let values ← Variant.readRange w.size w.data
    k.delete w
    pure (.values values, v)
  | .indexOf value i => do
    let n ← Variant.indexOf v value i
    pure (.int n, v)
  | .lastIndexOf value i => do
    let n ← Variant.lastIndexOf v value i
    pure (.int n, v)
  | .lastIndex value => do
    let n ← Variant.lastIndexOf v value (v.size - 1)
    pure (.int n, v)
  | .contains value => do
    let b ← Variant.contains v value
    pure (.bool b, v)

variable (answer : Vector → Option ℕ → ℕ → Option ℕ)

/-- The function requests a block, and the request is refused. -/
def requestFails (block : Option ℕ) (v : Vector) : Op T → Bool
  | .append _ | .prepend _ | .insert _ _ => growthFails answer v block (v.size + 1)
  | .appendCopies n _ | .prependCopies n _ | .insertCopies _ n _ =>
    growthFails answer v block (v.size + n)
  | .appendRange values | .prependRange values | .insertRange _ values =>
    growthFails answer v block (v.size + values.length)
  | .resize n | .reserve n => growthFails answer v block n.toNat
  | .trimToSize => decide (v.size < v.capacity) && refuses answer v block v.size
  | .copy i n =>
    refuses malloc v block (if n < 0 then v.size - i else min n.toNat (v.size - i))
  | _ => false

/-- Some calls; each result comes with whether a request for a block was refused. -/
def run : Vector → List (Option ℕ × Op T) → ObjM T E (List (Result T × Bool) × Vector)
  | v, [] => pure ([], v)
  | v, (block, op) :: calls => do
    let (r, v') ← step k block v op
    let (rs, v'') ← run v' calls
    pure ((r, requestFails answer block v op) :: rs, v'')

/-- The numbers of elements that an `int` can count and whose bytes a `size_t` can count. -/
def SizeFits (sizeof n : ℕ) : Prop := n ≤ intMax ∧ n * sizeof < sizeMax

/-- A call is allowed: its indices are valid, and sizes fit. -/
def Allowed (sizeof : ℕ) (v : Vector) : Op T → Prop
  | .append _ | .prepend _ => SizeFits sizeof (v.size + 1)
  | .appendCopies n _ | .prependCopies n _ => SizeFits sizeof (v.size + n)
  | .appendRange values | .prependRange values => SizeFits sizeof (v.size + values.length)
  | .insert i _ => i ≤ v.size ∧ SizeFits sizeof (v.size + 1)
  | .insertCopies i n _ => i ≤ v.size ∧ SizeFits sizeof (v.size + n)
  | .insertRange i values => i ≤ v.size ∧ SizeFits sizeof (v.size + values.length)
  | .removeAt i n => i ≤ v.size ∧ (n < 0 ∨ i + n.toNat ≤ intMax)
  | .takeFirst | .takeLast => 0 < v.size
  | .takeAt i => i < v.size
  | .resize n => 0 ≤ n ∧ SizeFits sizeof n.toNat
  | .reserve n => SizeFits sizeof n.toNat
  | .trimToSize => SizeFits sizeof v.size
  | .copy i n => i ≤ v.size ∧ (n < 0 ∨ i + n.toNat ≤ intMax) ∧ SizeFits sizeof v.size
  | .indexOf _ i => i ≤ v.size
  | .lastIndexOf _ i => -1 ≤ i ∧ i < v.size
  | .removeOne _ | .removeAll _ | .clear | .fill _ | .lastIndex _ | .contains _ => True

instance (sizeof n : ℕ) : Decidable (SizeFits sizeof n) := inferInstanceAs (Decidable (_ ∧ _))

instance (sizeof : ℕ) (v : Vector) : ∀ op : Op T, Decidable (Allowed sizeof v op)
  | .append _ | .prepend _ => inferInstanceAs (Decidable (SizeFits _ _))
  | .appendCopies _ _ | .prependCopies _ _ => inferInstanceAs (Decidable (SizeFits _ _))
  | .appendRange _ | .prependRange _ => inferInstanceAs (Decidable (SizeFits _ _))
  | .insert _ _ | .insertCopies _ _ _ | .insertRange _ _ =>
    inferInstanceAs (Decidable (_ ≤ _ ∧ SizeFits _ _))
  | .removeAt _ _ => inferInstanceAs (Decidable (_ ≤ _ ∧ (_ < _ ∨ _ ≤ _)))
  | .takeFirst | .takeLast | .takeAt _ => inferInstanceAs (Decidable (_ < _))
  | .resize _ => inferInstanceAs (Decidable (_ ≤ _ ∧ SizeFits _ _))
  | .reserve _ | .trimToSize => inferInstanceAs (Decidable (SizeFits _ _))
  | .copy _ _ => inferInstanceAs (Decidable (_ ≤ _ ∧ (_ < _ ∨ _ ≤ _) ∧ SizeFits _ _))
  | .indexOf _ _ => inferInstanceAs (Decidable (_ ≤ _))
  | .lastIndexOf _ _ => inferInstanceAs (Decidable (_ ≤ _ ∧ _ < _))
  | .removeOne _ | .removeAll _ | .clear | .fill _ | .lastIndex _ | .contains _ => .isTrue trivial

def AllowedRun (sizeof : ℕ) : Vector → Memory T E → List (Option ℕ × Op T) → Prop
  | _, _, [] => True
  | v, mem, (block, op) :: calls => Allowed sizeof v op ∧
    ∀ r ∈ step k block v op mem, AllowedRun sizeof r.1.2 r.2 calls

instance decidableAllowedRun (sizeof : ℕ) : ∀ (calls : List (Option ℕ × Op T)) (v : Vector)
    (mem : Memory T E), Decidable (AllowedRun k sizeof v mem calls)
  | [], _, _ => .isTrue trivial
  | (block, op) :: calls, v, mem =>
    have := decidableAllowedRun sizeof calls
    inferInstanceAs (Decidable (Allowed sizeof v op ∧
      ∀ r ∈ step k block v op mem, AllowedRun k sizeof r.1.2 r.2 calls))

end

/-! ## Lists -/

section

variable [Inhabited T] [BEq T]

/-- A range of elements: those from `i` on, at most `n` of them unless `n` is negative. -/
def slice (xs : List T) (i : ℕ) (n : ℤ) : List T :=
  if n < 0 then xs.drop i else (xs.drop i).take n.toNat

/-- The rest of the elements. -/
def unslice (xs : List T) (i : ℕ) (n : ℤ) : List T :=
  if n < 0 then xs.take i else xs.take i ++ xs.drop (i + n.toNat)

/-- An element is taken out. -/
def pick (xs : List T) (i : ℕ) : Result T × List T :=
  match xs[i]? with
  | none => (.nothing, xs)
  | some x => (.value x, xs.eraseIdx i)

/-- Elements are put in, unless the request for a block fails. -/
def splice (fails : Bool) (xs : List T) (i : ℕ) (values : List T) : Result T × List T :=
  (.bool !fails, if fails then xs else xs.take i ++ values ++ xs.drop i)

/-- **The operations of a list.** -/
def listStep (fails : Bool) (xs : List T) : Op T → Result T × List T
  | .append value => splice fails xs xs.length [value]
  | .appendCopies n value => splice fails xs xs.length (List.replicate n value)
  | .appendRange values => splice fails xs xs.length values
  | .prepend value => splice fails xs 0 [value]
  | .prependCopies n value => splice fails xs 0 (List.replicate n value)
  | .prependRange values => splice fails xs 0 values
  | .insert i value => splice fails xs i [value]
  | .insertCopies i n value => splice fails xs i (List.replicate n value)
  | .insertRange i values => splice fails xs i values
  | .removeAt i n => (.nothing, unslice xs i n)
  | .removeOne value => (.bool (xs.any (· == value)), xs.eraseP (· == value))
  | .removeAll value => (.int (xs.countP (· == value)), xs.filter fun x ↦ !(x == value))
  | .takeFirst => pick xs 0
  | .takeLast => pick xs (xs.length - 1)
  | .takeAt i => pick xs i
  | .resize n => (.bool !fails, if fails then xs
      else xs.take n.toNat ++ List.replicate (n.toNat - xs.length) default)
  | .reserve _ => (.bool !fails, xs)
  | .trimToSize => (.bool !fails, xs)
  | .clear => (.nothing, [])
  | .fill value => (.nothing, List.replicate xs.length value)
  | .copy i n => (.values (if fails then [] else slice xs i n), xs)
  | .indexOf value i => (.int (found (((xs.drop i).findIdx? (· == value)).map (i + ·))), xs)
  | .lastIndexOf value i => (.int (found (lastIdx? (· == value) (xs.take (i + 1).toNat))), xs)
  | .lastIndex value => (.int (found (lastIdx? (· == value) xs)), xs)
  | .contains value => (.bool (xs.any (· == value)), xs)

def listRun : List T → List (Op T × Bool) → List (Result T) × List T
  | xs, [] => ([], xs)
  | xs, (op, fails) :: ops =>
    let (r, xs') := listStep fails xs op
    let (rs, xs'') := listRun xs' ops
    (r :: rs, xs'')

end

/-! ## Refinement -/

section

variable {k : Variant T E} {sizeof : ℕ} {answer : Vector → Option ℕ → ℕ → Option ℕ}
  {Rep : Memory T E → (ℕ → Option T) → Prop} {v : Vector} {mem : Memory T E} {as bs xs ys : List T}
  {block : Option ℕ} {i : ℕ} {n : ℤ} {fails : Bool}

theorem split_at (hi : i ≤ xs.length) : ∃ as bs, xs = as ++ bs ∧ as.length = i :=
  ⟨xs.take i, xs.drop i, (List.take_append_drop i xs).symm, List.length_take_of_le hi⟩

theorem split_element (hi : i < xs.length) : ∃ as x bs, xs = as ++ [x] ++ bs ∧ as.length = i := by
  refine ⟨xs.take i, xs[i], xs.drop (i + 1), ?_, List.length_take_of_le hi.le⟩
  rw [List.append_assoc, List.singleton_append, List.getElem_cons_drop, List.take_append_drop]

theorem split_range {c : ℕ} (hi : i + c ≤ xs.length) :
    ∃ as ys bs, xs = as ++ ys ++ bs ∧ as.length = i ∧ ys.length = c := by
  obtain ⟨as, bs, rfl, rfl⟩ := split_at ((Nat.le_add_right _ _).trans hi)
  rw [List.length_append] at hi
  obtain ⟨ys, bs, rfl, rfl⟩ := split_at (Nat.le_of_add_le_add_left hi)
  exact ⟨as, ys, bs, (List.append_assoc _ _ _).symm, rfl, rfl⟩

/-- The elements that are meant by a count. -/
theorem slice_middle (hys : ys.length = if n < 0 then (as ++ ys ++ bs).length - as.length
    else min n.toNat ((as ++ ys ++ bs).length - as.length)) :
    slice (as ++ ys ++ bs) as.length n = ys ∧ unslice (as ++ ys ++ bs) as.length n = as ++ bs := by
  simp only [List.length_append] at hys
  rw [slice, unslice, List.append_assoc, List.drop_left, List.take_left]
  split
  · rename_i hn
    rw [if_pos hn] at hys
    obtain rfl := List.eq_nil_of_length_eq_zero (show bs.length = 0 by omega)
    exact ⟨List.append_nil ys, (List.append_nil as).symm⟩
  · rename_i hn
    rw [if_neg hn] at hys
    rw [List.drop_append, List.drop_eq_nil_of_le (Nat.le_add_right _ _), Nat.add_sub_cancel_left]
    rcases Nat.eq_or_lt_of_le (show ys.length ≤ n.toNat by omega) with heq | hlt
    · rw [← heq, List.take_left, List.drop_left]
      exact ⟨rfl, rfl⟩
    · obtain rfl := List.eq_nil_of_length_eq_zero (show bs.length = 0 by omega)
      rw [List.append_nil, List.take_of_length_le hlt.le, List.drop_eq_nil_of_le hlt.le]
      exact ⟨rfl, rfl⟩

theorem pick_middle (x : T) : pick (as ++ [x] ++ bs) as.length = (.value x, as ++ bs) := by
  have hget : (as ++ [x] ++ bs)[as.length]? = some x := by simp
  rw [pick, hget, List.append_assoc, List.eraseIdx_append_of_length_le le_rfl, Nat.sub_self]
  rfl

/-- A function that returns whether it succeeded. -/
theorem boolStep {m : ObjM T E (Bool × Vector)} (h : ∃ v' mem', m mem = some ((!fails, v'), mem') ∧
    Contents Rep v' mem' xs) : ∃ v' mem', (do
      let (ok, v) ← m
      pure (Result.bool ok, v) : ObjM T E (Result T × Vector)) mem =
        some ((.bool !fails, v'), mem') ∧ Contents Rep v' mem' xs := by
  obtain ⟨v', mem', hrun, h'⟩ := h
  exact ⟨v', mem', run_bind hrun, h'⟩

/-- Insertion is splicing. -/
theorem splice_middle : splice fails (as ++ bs) as.length ys =
    (.bool !fails, if fails then as ++ bs else as ++ ys ++ bs) := by
  rw [splice, List.take_left, List.drop_left]

theorem splice_end : splice fails xs xs.length ys =
    (.bool !fails, if fails then xs ++ [] else xs ++ ys ++ []) := by
  rw [splice, List.take_length, List.drop_length]
  simp only [List.append_nil]

theorem splice_start : splice fails xs 0 ys =
    (.bool !fails, if fails then [] ++ xs else [] ++ ys ++ xs) := rfl

theorem step_takeAt (hk : k.Lawful sizeof answer Rep) (h : Contents Rep v mem xs)
    (hi : i < v.size) : ∃ v' mem', (do
      let (x, v) ← k.takeAt v i
      pure (.value x, v) : ObjM T E (Result T × Vector)) mem =
        some (((pick xs i).1, v'), mem') ∧ Contents Rep v' mem' (pick xs i).2 := by
  rw [h.size] at hi
  obtain ⟨as, x, bs, rfl, rfl⟩ := split_element hi
  obtain ⟨v', mem', hrun, h'⟩ := hk.takeAt h
  rw [pick_middle]
  exact ⟨v', mem', run_bind hrun, h'⟩

/-- The range of elements that is meant by a count. -/
theorem clamp_split (h : Contents Rep v mem xs) (hi : i ≤ v.size)
    (hint : n < 0 ∨ i + n.toNat ≤ intMax) : ∃ as ys bs, xs = as ++ ys ++ bs ∧ as.length = i ∧
      ys.length = (if n < 0 then v.size - i else min n.toNat (v.size - i)) ∧
      Variant.clamp v i n mem = some (ys.length, mem) ∧ slice xs i n = ys ∧
      unslice xs i n = as ++ bs := by
  have hcount : i + (if n < 0 then v.size - i else min n.toNat (v.size - i)) ≤ xs.length := by
    rw [← h.size]
    split <;> omega
  obtain ⟨as, ys, bs, rfl, rfl, hys⟩ := split_range hcount
  have hclamp : Variant.clamp v as.length n mem = _ := Variant.Lawful.clamp hint
  rw [← hys] at hclamp
  refine ⟨as, ys, bs, rfl, rfl, hys, hclamp, slice_middle ?_⟩
  rw [← h.size]
  exact hys

variable [Inhabited T] [BEq T]

/-- **A call** of a function does what the list does. -/
theorem step_spec (block : Option ℕ) (hk : k.Lawful sizeof answer Rep)
    (h : Contents Rep v mem xs) {op : Op T} (hop : Allowed sizeof v op) :
    ∃ v' mem', step k block v op mem =
      some (((listStep (requestFails answer block v op) xs op).1, v'), mem') ∧
        Contents Rep v' mem' (listStep (requestFails answer block v op) xs op).2 := by
  have hsize := h.size
  cases op with
  | append x =>
    rw [listStep, splice_end]
    exact boolStep (hk.append block h x hop.1 hop.2)
  | appendCopies n x =>
    rw [← List.append_nil xs] at h
    have hrun := hk.insertCopies block h n x hop.1 hop.2
    rw [← hsize] at hrun
    rw [listStep, splice_end]
    exact boolStep hrun
  | appendRange values =>
    rw [← List.append_nil xs] at h
    have hrun := hk.insertRange block h values hop.1 hop.2
    rw [← hsize] at hrun
    rw [listStep, splice_end]
    exact boolStep hrun
  | prepend x =>
    rw [listStep, splice_start]
    exact boolStep (hk.prepend block h x hop.1 hop.2)
  | prependCopies n x =>
    rw [listStep, splice_start]
    have h₀ : Contents Rep v mem ([] ++ xs) := h
    exact boolStep (hk.insertCopies block h₀ n x hop.1 hop.2)
  | prependRange values =>
    rw [listStep, splice_start]
    have h₀ : Contents Rep v mem ([] ++ xs) := h
    exact boolStep (hk.insertRange block h₀ values hop.1 hop.2)
  | insert i x =>
    obtain ⟨hi, hint, hbytes⟩ := hop
    obtain ⟨as, bs, rfl, rfl⟩ := split_at (hsize ▸ hi)
    rw [listStep, splice_middle]
    exact boolStep (hk.insert block h x hint hbytes)
  | insertCopies i n x =>
    obtain ⟨hi, hint, hbytes⟩ := hop
    obtain ⟨as, bs, rfl, rfl⟩ := split_at (hsize ▸ hi)
    rw [listStep, splice_middle]
    exact boolStep (hk.insertCopies block h n x hint hbytes)
  | insertRange i values =>
    obtain ⟨hi, hint, hbytes⟩ := hop
    obtain ⟨as, bs, rfl, rfl⟩ := split_at (hsize ▸ hi)
    rw [listStep, splice_middle]
    exact boolStep (hk.insertRange block h values hint hbytes)
  | removeAt i n =>
    obtain ⟨as, ys, bs, rfl, rfl, -, hclamp, -, hrest⟩ := clamp_split h hop.1 hop.2
    obtain ⟨v', mem', hrun, h'⟩ := hk.removeAt h hclamp
    rw [listStep, hrest]
    exact ⟨v', mem', run_bind hrun, h'⟩
  | removeOne x =>
    obtain ⟨v', mem', hrun, h'⟩ := hk.removeOne h x
    exact ⟨v', mem', run_bind hrun, h'⟩
  | removeAll x =>
    obtain ⟨v', mem', hrun, h'⟩ := hk.removeAll h x
    exact ⟨v', mem', run_bind hrun, h'⟩
  | takeFirst => exact step_takeAt hk h hop
  | takeLast =>
    rw [listStep, ← hsize]
    exact step_takeAt hk h (Nat.sub_lt hop Nat.one_pos)
  | takeAt i => exact step_takeAt hk h hop
  | resize n => exact boolStep (hk.resize block h hop.1 hop.2.2)
  | reserve n => exact boolStep (hk.reserve block h hop.2)
  | trimToSize => exact boolStep (hk.trimToSize block h hop.2)
  | clear =>
    obtain ⟨v', mem', hrun, h'⟩ := hk.clear h
    exact ⟨v', mem', run_bind hrun, h'⟩
  | fill x =>
    obtain ⟨v', mem', hrun, h'⟩ := hk.fill h x
    exact ⟨v', mem', run_bind hrun, h'⟩
  | copy i n =>
    obtain ⟨hi, hint, -, hbytes⟩ := hop
    obtain ⟨as, ys, bs, rfl, rfl, hys, hclamp, hslice, -⟩ := clamp_split h hi hint
    have hle : ys.length * sizeof < sizeMax := by
      refine (Nat.mul_le_mul_right _ ?_).trans_lt hbytes
      rw [hys]
      split <;> omega
    obtain ⟨w, mem₁, hrun, -, hw, hraw, h₁⟩ := hk.copyOf block h hclamp hle
    rw [hw] at hraw
    obtain ⟨mem₂, hdelete, h₂⟩ := hk.destruct h₁ hraw
    have hread := hk.readRange h₁
    rw [← hw] at hread hdelete
    rw [listStep, requestFails, ← hys, hslice]
    refine ⟨v, mem₂, (run_bind hrun).trans ((run_bind hread).trans (run_bind hdelete)), h₂, hsize,
      h.fits⟩
  | indexOf x i =>
    have hi : i ≤ v.size := hop
    obtain ⟨as, bs, rfl, rfl⟩ := split_at (hsize ▸ hi)
    rw [listStep, List.drop_left]
    exact ⟨v, mem, run_bind (hk.indexOf h x), h⟩
  | lastIndexOf x i =>
    obtain ⟨hlow, hhigh⟩ := hop
    obtain ⟨as, bs, rfl, has⟩ := split_at (show (i + 1).toNat ≤ xs.length by omega)
    have hi : i = as.length - 1 := by omega
    rw [listStep, ← has, List.take_left, hi]
    exact ⟨v, mem, run_bind (hk.lastIndexOf h x), h⟩
  | lastIndex x =>
    rw [← List.append_nil xs] at h
    have hrun := hk.lastIndexOf h x
    rw [← hsize] at hrun
    rw [List.append_nil] at h
    exact ⟨v, mem, run_bind hrun, h⟩
  | contains x => exact ⟨v, mem, run_bind (hk.contains h x), h⟩

/-- **Some calls** do what the list does, when the same requests fail. -/
theorem run_spec (hk : k.Lawful sizeof answer Rep) {calls : List (Option ℕ × Op T)}
    (h : Contents Rep v mem xs) (hcalls : AllowedRun k sizeof v mem calls) : ∃ trace v' mem',
      run k answer v calls mem = some ((trace, v'), mem') ∧ trace.length = calls.length ∧
      trace.map Prod.fst = (listRun xs ((calls.map Prod.snd).zip (trace.map Prod.snd))).1 ∧
      Contents Rep v' mem' (listRun xs ((calls.map Prod.snd).zip (trace.map Prod.snd))).2 := by
  induction calls generalizing v mem xs with
  | nil => exact ⟨[], v, mem, rfl, rfl, rfl, h⟩
  | cons call calls ih =>
    obtain ⟨block, op⟩ := call
    obtain ⟨hop, hrest⟩ := hcalls
    obtain ⟨v₁, mem₁, hstep, h₁⟩ := step_spec block hk h hop
    obtain ⟨trace, v₂, mem₂, hrun, hlength, hresults, h₂⟩ := ih h₁ (hrest _ hstep)
    refine ⟨((listStep (requestFails answer block v op) xs op).1, requestFails answer block v op) ::
      trace, v₂, mem₂, ?_, congrArg (· + 1) hlength, ?_, h₂⟩
    · rw [run, run_bind hstep]
      exact run_bind hrun
    · exact congrArg (_ :: ·) hresults

end

/-! ## Both variants -/

/-- The elements of a vector are trivially copyable, or objects. -/
inductive Kind (T E : Type) where
  | triviallyCopyable
  | elementWise (o : Object T E)

namespace Kind

def variant (sizeof : ℕ) : Kind T E → Variant T E
  | triviallyCopyable => TriviallyCopyable.variant sizeof
  | elementWise o => ElementWise.variant o sizeof

/-- What the allocator returns. `malloc` does not return a block that overlaps the one in use,
`realloc` may return the block in use. -/
def answer : Kind T E → Vector → Option ℕ → ℕ → Option ℕ
  | triviallyCopyable => fun _ block _ ↦ block
  | elementWise _ => Vector.malloc

def Rep : Kind T E → Memory T E → (ℕ → Option T) → Prop
  | triviallyCopyable => TriviallyCopyable.Rep
  | elementWise _ => ElementWise.Rep

theorem lawful (kind : Kind T E) (sizeof : ℕ) :
    (kind.variant sizeof).Lawful sizeof kind.answer kind.Rep := by
  cases kind with
  | triviallyCopyable => exact TriviallyCopyable.lawful
  | elementWise o => exact ElementWise.lawful

end Kind

variable [Inhabited T] [BEq T]

/-- **Vectors refine lists.** Under allowed calls, and whichever requests for a block are refused, a
vector of either kind returns what a list returns under the same operations, and has its
elements. -/
theorem refines_list (kind : Kind T E) (sizeof : ℕ) (mem : Memory T E)
    (hmem : kind.Rep mem fun _ ↦ none) (calls : List (Option ℕ × Op T))
    (hcalls : AllowedRun (kind.variant sizeof) sizeof new mem calls) : ∃ trace v mem',
      run (kind.variant sizeof) kind.answer new calls mem = some ((trace, v), mem') ∧
      trace.length = calls.length ∧
      trace.map Prod.fst = (listRun [] ((calls.map Prod.snd).zip (trace.map Prod.snd))).1 ∧
      Contents kind.Rep v mem' (listRun [] ((calls.map Prod.snd).zip (trace.map Prod.snd))).2 ∧
      v.size ≤ v.capacity := by
  have hnew : Contents kind.Rep new mem ([] : List T) := ⟨hmem, rfl, le_rfl⟩
  obtain ⟨trace, v, mem', hrun, hlength, hresults, h'⟩ :=
    run_spec (kind.lawful sizeof) hnew hcalls
  exact ⟨trace, v, mem', hrun, hlength, hresults, h', h'.fits⟩

/-- Some calls, with a request for a block that is refused. -/
def someCalls : List (Option ℕ × Op ℕ) :=
  [(some 10, .append 5), (none, .append 6), (some 20, .prependCopies 2 7), (none, .insert 1 8),
    (some 40, .resize 6), (some 60, .copy 1 3), (none, .takeLast), (none, .lastIndex 7),
    (none, .removeAll 7), (none, .trimToSize)]

/-- Objects which are zero after a move. -/
def someObject : Object ℕ Unit := ⟨fun _ ↦ 0, fun _ ↦ []⟩

theorem refines_list_someCalls :
    (∃ trace v mem', run (ElementWise.variant someObject 4) malloc new someCalls
      ⟨fun _ ↦ none, []⟩ = some ((trace, v), mem') ∧ trace.length = someCalls.length ∧
      trace.map Prod.fst =
        (listRun [] ((someCalls.map Prod.snd).zip (trace.map Prod.snd))).1 ∧
      Contents ElementWise.Rep v mem'
        (listRun [] ((someCalls.map Prod.snd).zip (trace.map Prod.snd))).2 ∧
      v.size ≤ v.capacity) ∧
    (∃ trace v mem', run (TriviallyCopyable.variant 4) (fun _ block _ ↦ block) new someCalls
      (⟨fun _ ↦ some 9, []⟩ : Memory ℕ Unit) = some ((trace, v), mem') ∧
      trace.length = someCalls.length ∧
      trace.map Prod.fst =
        (listRun [] ((someCalls.map Prod.snd).zip (trace.map Prod.snd))).1 ∧
      Contents TriviallyCopyable.Rep v mem'
        (listRun [] ((someCalls.map Prod.snd).zip (trace.map Prod.snd))).2 ∧
      v.size ≤ v.capacity) :=
  ⟨refines_list (.elementWise someObject) 4 ⟨fun _ ↦ none, []⟩ rfl someCalls (by decide +kernel),
    refines_list .triviallyCopyable 4 ⟨fun _ ↦ some 9, []⟩ (fun _ _ h ↦ by cases h) someCalls
      (by decide +kernel)⟩

/-- **A copy cannot report a failure**: when its block is refused, it is empty. Also, sizes may fit
in an `int` while their bytes do not fit in a `size_t`, and the end of a range may not fit in an
`int`. -/
theorem copy_empty :
    ((run (ElementWise.variant someObject 4) malloc new [(some 10, .append 5), (none, .copy 0 1)]
        ⟨fun _ ↦ none, []⟩).map fun r ↦ r.1.1.map Prod.fst) = some [.bool true, .values []] ∧
    (listRun [] [(.append 5, false), (.copy 0 1, false)]).1 = [.bool true, .values [5]] ∧
    (run (ElementWise.variant someObject 4) malloc new [(some 10, .resize 1073741824)]
      ⟨fun _ ↦ none, []⟩).isNone ∧
    (run (ElementWise.variant someObject 4) malloc new
      [(some 10, .append 5), (none, .removeAt 1 2147483647)] ⟨fun _ ↦ none, []⟩).isNone := by
  decide +kernel

end Vector

end DuoFirmware.Wiring
