import Mathlib.Data.List.Nodup
import Mathlib.Logic.Function.Basic

/-!
# Singly linked lists in a heap

Cells of a heap that are linked by a pointer field. `Chain` says which cells are met from a pointer
on until the null pointer, and `search` is the usual loop that looks for a cell and remembers its
predecessor. A chain that ends has no cycles; it survives whatever does not change its links, and
a cell is taken out of it by redirecting the link of its predecessor.
-/

namespace LinkedList

variable {Ptr Cell : Type} {link : Cell → Option Ptr} {heap heap' : Ptr → Option Cell}
  {p : Option Ptr} {q : Ptr} {c : Cell} {ps qs : List Ptr}

/-- From `p` on, exactly the cells `ps` are met before the null pointer. -/
def Chain (link : Cell → Option Ptr) (heap : Ptr → Option Cell) : Option Ptr → List Ptr → Prop
  | p, [] => p = none
  | p, q :: ps => p = some q ∧ ∃ c, heap q = some c ∧ Chain link heap (link c) ps

@[simp] theorem chain_nil : Chain link heap p [] ↔ p = none := Iff.rfl

@[simp] theorem chain_cons :
    Chain link heap p (q :: ps) ↔ p = some q ∧ ∃ c, heap q = some c ∧ Chain link heap (link c) ps :=
  Iff.rfl

/-! ## Shape -/

/-- The cells met are determined by where one starts. -/
theorem Chain.unique (h : Chain link heap p ps) (h' : Chain link heap p qs) : ps = qs := by
  induction ps generalizing p qs with
  | nil =>
    cases qs with
    | nil => rfl
    | cons q qs =>
      obtain rfl : p = none := h
      cases h'.1
  | cons q ps ih =>
    obtain ⟨rfl, c, hq, hchain⟩ := h
    cases qs with
    | nil => cases chain_nil.mp h'
    | cons q' qs =>
      obtain ⟨heq, c', hq', hchain'⟩ := h'
      obtain rfl := Option.some.inj heq
      obtain rfl := Option.some.inj (hq.symm.trans hq')
      rw [ih hchain hchain']

/-- A chain starts at its first cell. -/
theorem Chain.head (h : Chain link heap p ps) : p = ps.head? := by
  cases ps with
  | nil => exact h
  | cons q ps => exact h.1

/-- What is met from an inner cell on. -/
theorem Chain.suffix (h : Chain link heap p (ps ++ q :: qs)) :
    Chain link heap (some q) (q :: qs) := by
  induction ps generalizing p with
  | nil => exact ⟨rfl, h.2⟩
  | cons x ps ih =>
    obtain ⟨-, c, -, hchain⟩ := h
    exact ih hchain

/-- **A chain that ends has no cycle.** -/
theorem Chain.nodup (h : Chain link heap p ps) : ps.Nodup := by
  induction ps generalizing p with
  | nil => exact List.nodup_nil
  | cons q ps ih =>
    obtain ⟨rfl, c, hq, hchain⟩ := h
    refine List.nodup_cons.mpr ⟨fun hmem ↦ ?_, ih hchain⟩
    -- a second visit would meet the same cells again, but fewer of them
    obtain ⟨xs, ys, rfl⟩ := List.append_of_mem hmem
    have hlong : Chain link heap (some q) (q :: (xs ++ q :: ys)) := ⟨rfl, c, hq, hchain⟩
    have hlen := congrArg List.length (hlong.unique hchain.suffix)
    simp only [List.length_cons, List.length_append] at hlen
    omega

theorem Chain.mem (h : Chain link heap p ps) (hq : q ∈ ps) : ∃ c, heap q = some c := by
  obtain ⟨xs, ys, rfl⟩ := List.append_of_mem hq
  obtain ⟨-, c, hc, -⟩ := h.suffix
  exact ⟨c, hc⟩

/-! ## Searching -/

/-- Look for a cell, with its predecessor: `(found, previous)`. The result is `none` when a pointer
leads nowhere or the steps do not suffice. -/
def search (link : Cell → Option Ptr) (heap : Ptr → Option Cell) (wanted : Cell → Bool) :
    ℕ → Option Ptr → Option Ptr → Option (Option Ptr × Option Ptr)
  | _, previous, none => some (none, previous)
  | 0, _, some _ => none
  | steps + 1, previous, some q =>
    match heap q with
    | none => none
    | some c =>
      if wanted c then some (some q, previous)
      else search link heap wanted steps (some q) (link c)

/-- No cell of the list is wanted. -/
def NoneWanted (heap : Ptr → Option Cell) (wanted : Cell → Bool) (ps : List Ptr) : Prop :=
  ∀ q ∈ ps, ∀ c, heap q = some c → wanted c = false

/-- **Searching a chain** finds the first wanted cell and the one in front of it. -/
theorem Chain.search_spec {steps : ℕ} (h : Chain link heap p ps) (hsteps : ps.length ≤ steps)
    (wanted : Cell → Bool) (previous : Option Ptr) :
    (NoneWanted heap wanted ps ∧
        ∃ last, search link heap wanted steps previous p = some (none, last)) ∨
      ∃ xs q ys c, ps = xs ++ q :: ys ∧ heap q = some c ∧ wanted c = true ∧
        NoneWanted heap wanted xs ∧
        search link heap wanted steps previous p = some (some q, xs.getLast?.or previous) := by
  induction ps generalizing p steps previous with
  | nil =>
    obtain rfl : p = none := h
    refine Or.inl ⟨fun q hq ↦ absurd hq List.not_mem_nil, previous, ?_⟩
    cases steps <;> rfl
  | cons q ps ih =>
    obtain ⟨rfl, c, hq, hchain⟩ := h
    obtain ⟨steps, rfl⟩ : ∃ n, steps = n + 1 :=
      Nat.exists_eq_add_one.mpr (Nat.lt_of_lt_of_le (Nat.succ_pos _) hsteps)
    rw [search, hq]
    by_cases hc : wanted c = true
    · refine Or.inr ⟨[], q, ps, c, rfl, hq, hc, fun x hx ↦ absurd hx List.not_mem_nil, ?_⟩
      exact if_pos hc
    · have hc' : wanted c = false := Bool.eq_false_iff.mpr hc
      have hcons : ∀ {xs}, NoneWanted heap wanted xs → NoneWanted heap wanted (q :: xs) := by
        intro xs hxs x hx d hd
        rcases List.mem_cons.mp hx with rfl | hx
        · rw [← Option.some.inj (hq.symm.trans hd), hc']
        · exact hxs x hx d hd
      simp only [hc', Bool.false_eq_true, if_false]
      rcases ih hchain (Nat.le_of_succ_le_succ hsteps) (some q) with
        ⟨hnone, hrun⟩ | ⟨xs, r, ys, d, rfl, hr, hd, hnone, hrun⟩
      · exact Or.inl ⟨hcons hnone, hrun⟩
      · refine Or.inr ⟨q :: xs, r, ys, d, rfl, hr, hd, hcons hnone, ?_⟩
        rw [hrun]
        cases xs with
        | nil => rfl
        | cons x xs =>
          rw [List.getLast?_cons_cons, List.getLast?_cons]
          rfl

/-! ## Walking -/

/-- A loop over the cells. The result is `none` when a pointer leads nowhere or the steps do not
suffice. -/
def walk {α : Type} (link : Cell → Option Ptr) (heap : Ptr → Option Cell) (f : α → Ptr → α) :
    ℕ → α → Option Ptr → Option α
  | _, x, none => some x
  | 0, _, some _ => none
  | steps + 1, x, some q =>
    match heap q with
    | none => none
    | some c => walk link heap f steps (f x q) (link c)

/-- **Walking a chain** is folding over its cells. -/
theorem Chain.walk_eq {α : Type} {steps : ℕ} (h : Chain link heap p ps) (hsteps : ps.length ≤ steps)
    (f : α → Ptr → α) (x : α) : walk link heap f steps x p = some (ps.foldl f x) := by
  induction ps generalizing p steps x with
  | nil =>
    obtain rfl : p = none := h
    cases steps <;> rfl
  | cons q ps ih =>
    obtain ⟨rfl, c, hq, hchain⟩ := h
    obtain ⟨steps, rfl⟩ : ∃ n, steps = n + 1 :=
      Nat.exists_eq_add_one.mpr (Nat.lt_of_lt_of_le (Nat.succ_pos _) hsteps)
    rw [walk, hq]
    exact ih hchain (Nat.le_of_succ_le_succ hsteps) (f x q)

/-! ## Changing the heap -/

/-- A chain only depends on the links of its cells. -/
theorem Chain.congr (h : Chain link heap p ps)
    (hlinks : ∀ q ∈ ps, (heap' q).map link = (heap q).map link) : Chain link heap' p ps := by
  induction ps generalizing p with
  | nil => exact h
  | cons q ps ih =>
    obtain ⟨rfl, c, hq, hchain⟩ := h
    have hlink := hlinks q List.mem_cons_self
    rw [hq, Option.map_some, Option.map_eq_some_iff] at hlink
    obtain ⟨c', hq', hlink⟩ := hlink
    refine ⟨rfl, c', hq', ?_⟩
    rw [hlink]
    exact ih hchain fun x hx ↦ hlinks x (List.mem_cons_of_mem _ hx)

/-- **Putting in a cell** behind another one, whose link it is given. -/
theorem Chain.insert {a : Ptr} {b d e : Cell} (h : Chain link heap p (ps ++ a :: qs))
    (hq : q ∉ ps ++ a :: qs) (ha : heap a = some d) (hb : link b = some q) (he : link e = link d)
    (hlinks : ∀ x, x ≠ a → x ≠ q → (heap' x).map link = (heap x).map link)
    (ha' : heap' a = some b) (hq' : heap' q = some e) :
    Chain link heap' p (ps ++ a :: q :: qs) := by
  have hnodup := h.nodup
  induction ps generalizing p with
  | nil =>
    obtain ⟨rfl, d', had, hchain⟩ := h
    obtain rfl := Option.some.inj (ha.symm.trans had)
    refine ⟨rfl, b, ha', hb, e, hq', ?_⟩
    rw [he]
    refine hchain.congr fun x hx ↦ hlinks x ?_ ?_
    · exact fun hxa ↦ (List.nodup_cons.mp hnodup).1 (hxa ▸ hx)
    · exact fun hxq ↦ hq (List.mem_cons_of_mem _ (hxq ▸ hx))
  | cons x ps ih =>
    obtain ⟨rfl, c', hx, hchain⟩ := h
    obtain ⟨hmem, hnodup⟩ := List.nodup_cons.mp hnodup
    have hxa : x ≠ a := fun hc ↦ hmem (by simp [hc])
    have hxq : x ≠ q := fun hc ↦ hq (by simp [hc])
    have hlink := hlinks x hxa hxq
    rw [hx, Option.map_some, Option.map_eq_some_iff] at hlink
    obtain ⟨c'', hx', hlink⟩ := hlink
    refine ⟨rfl, c'', hx', ?_⟩
    rw [hlink]
    exact ih hchain (fun hc ↦ hq (List.mem_cons_of_mem _ hc)) hnodup

variable [DecidableEq Ptr]

/-- Writing to a cell outside a chain. -/
theorem Chain.update_of_not_mem (h : Chain link heap p ps) (hq : q ∉ ps) (o : Option Cell) :
    Chain link (Function.update heap q o) p ps :=
  h.congr fun x hx ↦ by rw [Function.update_of_ne (ne_of_mem_of_not_mem hx hq)]

/-- A new first cell. -/
theorem Chain.push (h : Chain link heap p ps) (hq : q ∉ ps) (hc : link c = p) :
    Chain link (Function.update heap q (some c)) (some q) (q :: ps) := by
  refine ⟨rfl, c, Function.update_self .., ?_⟩
  rw [hc]
  exact h.update_of_not_mem hq _

/-- **Taking out a cell** by giving its predecessor the link of the cell itself. -/
theorem Chain.unlink {a : Ptr} {b d : Cell} (h : Chain link heap p (ps ++ a :: q :: qs))
    (hq : heap q = some d) (hb : link b = link d) :
    Chain link (Function.update heap a (some b)) p (ps ++ a :: qs) := by
  have hnodup := h.nodup
  induction ps generalizing p with
  | nil =>
    obtain ⟨rfl, c, ha, -, d', hq', hchain⟩ := h
    obtain rfl := Option.some.inj (hq.symm.trans hq')
    have hmem : a ∉ qs := fun hc ↦ (List.nodup_cons.mp hnodup).1 (List.mem_cons_of_mem _ hc)
    refine ⟨rfl, b, Function.update_self .., ?_⟩
    rw [hb]
    exact hchain.update_of_not_mem hmem _
  | cons x ps ih =>
    obtain ⟨rfl, c, hx, hchain⟩ := h
    obtain ⟨hmem, hnodup⟩ := List.nodup_cons.mp hnodup
    have hne : x ≠ a := fun hc ↦ hmem (by simp [hc])
    exact ⟨rfl, c, by rwa [Function.update_of_ne hne], ih hchain hnodup⟩

/-- **Searching for a predecessor** of the last cell. -/
theorem Chain.search_before {steps : ℕ} (h : Chain link heap p (ps ++ [q]))
    (hsteps : (ps ++ [q]).length ≤ steps) :
    (search link heap (fun c ↦ link c = some q) steps none p).map (·.1) = some ps.getLast? := by
  rcases h.search_spec hsteps (fun c ↦ link c = some q) none with
    ⟨hnone, last, hrun⟩ | ⟨xs, r, ys, c, hps, hr, hc, -, hrun⟩
  · rw [hrun]
    rcases List.eq_nil_or_concat ps with rfl | ⟨xs, x, rfl⟩
    · rfl
    · -- the one before the last is linked to it
      rw [List.concat_eq_append, List.append_assoc] at h hnone
      obtain ⟨-, c, hx, hlink, -⟩ := h.suffix
      exact absurd (hnone x (by simp) c hx) (by simp [hlink])
  · rw [hrun]
    have hlink : link c = some q := of_decide_eq_true hc
    rw [hps] at h
    obtain ⟨-, c', hr', hchain⟩ := h.suffix
    obtain rfl := Option.some.inj (hr.symm.trans hr')
    rcases List.eq_nil_or_concat ys with rfl | ⟨zs, z, rfl⟩
    · cases hlink.symm.trans hchain
    · rw [List.concat_eq_append, ← List.cons_append, ← List.append_assoc] at hps
      obtain ⟨rfl, heq⟩ := List.append_inj' hps rfl
      obtain rfl := List.singleton_inj.mp heq
      cases zs with
      | nil => rw [List.getLast?_concat]; rfl
      | cons y zs =>
        rw [List.concat_eq_append, List.cons_append, hlink] at hchain
        obtain rfl := Option.some.inj hchain.1
        have hnodup := hchain.nodup
        exact absurd (by simp) (List.nodup_cons.mp hnodup).1

end LinkedList
