import Mathlib.Tactic

/-!
# Bounded maps that keep their keys in the order in which they were added

Keys are told apart up to an equivalence only.
-/

/-- How keys are compared. -/
structure KeyEquiv (K : Type) where
  eq : K → K → Bool
  equivalence : Equivalence fun a b ↦ eq a b = true

/-- A map with at most `capacity` keys. -/
@[ext] structure OrderedMap {K : Type} (e : KeyEquiv K) (V : Type) (capacity : ℕ) where
  entries : List (K × V)
  distinct : entries.Pairwise fun a b ↦ e.eq a.1 b.1 = false
  length_le : entries.length ≤ capacity

namespace KeyEquiv

variable {K : Type} (e : KeyEquiv K) {a b c : K}

theorem eq_symm (h : e.eq a b = true) : e.eq b a = true := e.equivalence.symm h

theorem eq_trans (hab : e.eq a b = true) (hbc : e.eq b c = true) : e.eq a c = true :=
  e.equivalence.trans hab hbc

theorem eq_comm : e.eq a b = e.eq b a :=
  Bool.eq_iff_iff.mpr ⟨e.eq_symm, e.eq_symm⟩

/-- Equivalent keys compare in the same way with a third one. -/
theorem eq_congr (h : e.eq a b = true) : e.eq a c = e.eq b c :=
  Bool.eq_iff_iff.mpr ⟨e.eq_trans (e.eq_symm h), e.eq_trans h⟩

end KeyEquiv

namespace OrderedMap

variable {K V : Type} {e : KeyEquiv K} {capacity : ℕ}

def empty : OrderedMap e V capacity := ⟨[], .nil, Nat.zero_le _⟩

variable (o : OrderedMap e V capacity) (k : K) (v : V)

def contains : Bool := o.entries.any fun x ↦ e.eq k x.1

def lookup : Option V := (o.entries.find? fun x ↦ e.eq k x.1).map Prod.snd

def indexOf : Option ℕ := o.entries.findIdx? fun x ↦ e.eq k x.1

/-- A key that is not there yet is put behind the others, if there is room. -/
def add : OrderedMap e V capacity :=
  if h : o.contains k = false ∧ o.entries.length < capacity then {
    entries := o.entries ++ [(k, v)]
    distinct := by
      refine List.pairwise_append.mpr ⟨o.distinct, List.pairwise_singleton _ _, ?_⟩
      intro x hx y hy
      rw [List.mem_singleton.mp hy, e.eq_comm]
      exact Bool.eq_false_iff.mpr (List.any_eq_false.mp h.1 x hx)
    length_le := by
      rw [List.length_append, List.length_singleton]
      exact h.2 }
  else o

/-- The value of a key is replaced. -/
def set : OrderedMap e V capacity where
  entries := o.entries.map fun x ↦ if e.eq k x.1 then (x.1, v) else x
  distinct := by
    refine List.pairwise_map.mpr (o.distinct.imp fun {a b} h ↦ ?_)
    split_ifs <;> exact h
  length_le := by
    rw [List.length_map]
    exact o.length_le

/-- A key is taken out, and all others stay as they are. -/
def remove : OrderedMap e V capacity where
  entries := o.entries.filter fun x ↦ !e.eq k x.1
  distinct := o.distinct.sublist List.filter_sublist
  length_le := (List.length_filter_le _ _).trans o.length_le

variable {o k v} {k' : K}

/-- Only one entry has a key: those in front of it and behind it have others. -/
theorem unique {xs ys : List (K × V)} {x : K × V} (h : o.entries = xs ++ x :: ys)
    (hx : e.eq k x.1 = true) :
    (∀ y ∈ xs, e.eq k y.1 = false) ∧ ∀ y ∈ ys, e.eq k y.1 = false := by
  have hdistinct := o.distinct
  rw [h] at hdistinct
  obtain ⟨-, hright, hcross⟩ := List.pairwise_append.mp hdistinct
  refine ⟨fun y hy ↦ ?_, fun y hy ↦ ?_⟩
  · rw [e.eq_congr hx, e.eq_comm]
    exact hcross y hy x List.mem_cons_self
  · rw [e.eq_congr hx]
    exact List.rel_of_pairwise_cons hright hy

/-! ## Positions -/

/-- Where a key is found. -/
theorem indexOf_eq_some {i : ℕ} (h : o.indexOf k = some i) :
    ∃ xs x ys, o.entries = xs ++ x :: ys ∧ xs.length = i ∧ e.eq k x.1 = true := by
  obtain ⟨hi, hx, -⟩ := List.findIdx?_eq_some_iff_getElem.mp h
  refine ⟨o.entries.take i, o.entries[i], o.entries.drop (i + 1), ?_, ?_, hx⟩
  · rw [List.cons_getElem_drop_succ, List.take_append_drop]
  · rw [List.length_take, Nat.min_eq_left hi.le]

theorem contains_eq : o.contains k = (o.indexOf k).isSome := List.findIdx?_isSome.symm

/-- The value lies where the key is found. -/
theorem lookup_eq : o.lookup k = (o.indexOf k).bind fun i ↦ o.entries[i]?.map Prod.snd := by
  rw [lookup, indexOf]
  induction o.entries with
  | nil => rfl
  | cons x xs ih =>
    rw [List.find?_cons, List.findIdx?_cons]
    cases e.eq k x.1 with
    | true => rfl
    | false =>
      rw [ih]
      cases xs.findIdx? fun x ↦ e.eq k x.1 <;> rfl

/-- **Replacing a value** changes the entry with the key. -/
theorem entries_set {i : ℕ} (h : o.indexOf k = some i) :
    ∃ x, o.entries[i]? = some x ∧ (o.set k v).entries = o.entries.set i (x.1, v) := by
  obtain ⟨xs, x, ys, hsplit, rfl, hx⟩ := indexOf_eq_some h
  obtain ⟨hleft, hright⟩ := unique hsplit hx
  refine ⟨x, by rw [hsplit, List.getElem?_append_right le_rfl, Nat.sub_self]; rfl, ?_⟩
  have hkeep : ∀ zs : List (K × V), (∀ y ∈ zs, e.eq k y.1 = false) →
      zs.map (fun x ↦ if e.eq k x.1 then (x.1, v) else x) = zs := by
    intro zs hzs
    refine (List.map_congr_left fun y hy ↦ ?_).trans zs.map_id
    rw [hzs y hy]
    rfl
  rw [set]
  dsimp only
  rw [hsplit, List.map_append, List.map_cons, hkeep xs hleft, hkeep ys hright, if_pos hx,
    List.set_append_right _ _ le_rfl, Nat.sub_self, List.set_cons_zero]

theorem set_of_not_contains (h : o.contains k = false) : (o.set k v).entries = o.entries := by
  refine (List.map_congr_left fun y hy ↦ ?_).trans o.entries.map_id
  rw [Bool.eq_false_iff.mpr (List.any_eq_false.mp h y hy)]
  rfl

/-- **Taking a key out** leaves the entries in front of it and behind it. -/
theorem entries_remove {i : ℕ} (h : o.indexOf k = some i) :
    (o.remove k).entries = o.entries.eraseIdx i := by
  obtain ⟨xs, x, ys, hsplit, rfl, hx⟩ := indexOf_eq_some h
  obtain ⟨hleft, hright⟩ := unique hsplit hx
  have hkeep : ∀ zs : List (K × V), (∀ y ∈ zs, e.eq k y.1 = false) →
      zs.filter (fun x ↦ !e.eq k x.1) = zs := by
    intro zs hzs
    refine List.filter_eq_self.mpr fun y hy ↦ ?_
    rw [hzs y hy]
    rfl
  rw [remove]
  dsimp only
  rw [hsplit, List.filter_append, List.filter_cons_of_neg (by rw [hx]; exact Bool.false_ne_true),
    hkeep xs hleft, hkeep ys hright, List.eraseIdx_append_of_length_le le_rfl, Nat.sub_self]
  rfl

theorem remove_of_not_contains (h : o.contains k = false) : o.remove k = o := by
  refine OrderedMap.ext (List.filter_eq_self.mpr fun y hy ↦ ?_)
  rw [Bool.eq_false_iff.mpr (List.any_eq_false.mp h y hy)]
  rfl

/-! ## Values -/

theorem lookup_add : (o.add k v).lookup k' =
    if o.contains k = false ∧ o.entries.length < capacity ∧ e.eq k k' = true then some v
    else o.lookup k' := by
  by_cases hadd : o.contains k = false ∧ o.entries.length < capacity
  · have hentries : (o.add k v).entries = o.entries ++ [(k, v)] := by rw [add, dif_pos hadd]
    rw [lookup, hentries, List.find?_append, List.find?_singleton, e.eq_comm]
    by_cases hk : e.eq k k' = true
    · have hnone : o.entries.find? (fun x ↦ e.eq k' x.1) = none := by
        refine List.find?_eq_none.mpr fun x hx ↦ ?_
        rw [← e.eq_congr hk]
        exact List.any_eq_false.mp hadd.1 x hx
      rw [if_pos hk, hnone, if_pos ⟨hadd.1, hadd.2, hk⟩]
      rfl
    · rw [if_neg hk, if_neg (fun h ↦ hk h.2.2), Option.or_none]
      rfl
  · rw [add, dif_neg hadd, if_neg (fun h ↦ hadd ⟨h.1, h.2.1⟩)]

theorem lookup_set : (o.set k v).lookup k' =
    if e.eq k k' = true then (o.lookup k').map fun _ ↦ v else o.lookup k' := by
  rw [lookup, lookup, set]
  dsimp only
  induction o.entries with
  | nil => split_ifs <;> rfl
  | cons x xs ih =>
    have hkey : (if e.eq k x.1 = true then (x.1, v) else x).1 = x.1 := by split_ifs <;> rfl
    rw [List.map_cons, List.find?_cons, List.find?_cons, hkey]
    cases hx : e.eq k' x.1 with
    | true =>
      have hsame : e.eq k x.1 = e.eq k k' := by
        rw [e.eq_comm, e.eq_comm (a := k) (b := k')]
        exact (e.eq_congr hx).symm
      dsimp only [Option.map_some]
      rw [hsame]
      split_ifs <;> rfl
    | false => exact ih

theorem lookup_remove : (o.remove k).lookup k' =
    if e.eq k k' = true then none else o.lookup k' := by
  rw [lookup, lookup, remove]
  dsimp only
  rw [List.find?_filter]
  by_cases hk : e.eq k k' = true
  · rw [if_pos hk, Option.map_eq_none_iff, List.find?_eq_none]
    intro x hx
    rw [e.eq_congr hk]
    cases e.eq k' x.1 <;> decide
  · rw [if_neg hk]
    congr 2
    funext x
    cases hx : e.eq k' x.1 with
    | true =>
      have hne : e.eq k x.1 = false := Bool.eq_false_iff.mpr fun h ↦
        hk (e.eq_trans h (e.eq_symm hx))
      rw [hne]
      rfl
    | false => exact decide_eq_false fun h ↦ Bool.false_ne_true h.2

end OrderedMap
