import Mathlib.Tactic

/-!
# Logs of keyed entries in which the last entry of a key counts

An append-only log represents a map: the value of a key is carried by its last entry. This file
collects what a log-structured store needs of that representation: how the last entry behaves
under appending, and that *compaction*, which keeps one entry per key, changes no value.
-/

namespace KeyedLog

variable {ρ κ : Type} [DecidableEq κ] (key : ρ → κ)

/-- The entries of one key, in order. -/
def entries (l : List ρ) (k : κ) : List ρ := l.filter fun r ↦ key r = k

/-- The entry that counts: the last one of its key. -/
def latest (l : List ρ) (k : κ) : Option ρ := (entries key l k).getLast?

variable {key} {l l' : List ρ} {r : ρ} {k : κ}

@[simp] theorem entries_nil : entries key [] k = [] := rfl

theorem entries_append : entries key (l ++ l') k = entries key l k ++ entries key l' k :=
  List.filter_append ..

theorem entries_cons : entries key (r :: l) k =
    if key r = k then r :: entries key l k else entries key l k := by
  by_cases h : key r = k <;> simp [entries, h]

theorem entries_eq_nil_iff : entries key l k = [] ↔ ∀ r ∈ l, key r ≠ k := by
  simp [entries, List.filter_eq_nil_iff]

theorem mem_entries_iff : r ∈ entries key l k ↔ r ∈ l ∧ key r = k := by
  simp [entries]

@[simp] theorem latest_nil : latest key [] k = none := rfl

theorem latest_append : latest key (l ++ l') k = (latest key l' k).or (latest key l k) := by
  rw [latest, entries_append, List.getLast?_append, latest, latest]

theorem latest_concat : latest key (l ++ [r]) k = if key r = k then some r else latest key l k := by
  rw [latest_append]
  by_cases h : key r = k <;> simp [latest, entries_cons, h]

theorem latest_eq_none_iff : latest key l k = none ↔ ∀ r ∈ l, key r ≠ k := by
  rw [latest, List.getLast?_eq_none_iff, entries_eq_nil_iff]

theorem mem_of_latest (h : latest key l k = some r) : r ∈ l ∧ key r = k :=
  mem_entries_iff.mp (List.mem_of_getLast? h)

theorem latest_eq_of_entries {o : Option ρ} (h : entries key l k = o.toList) :
    latest key l k = o := by
  rw [latest, h]
  cases o <;> rfl

theorem latest_map {ρ' : Type} (g : ρ' → ρ) (l : List ρ') :
    latest key (l.map g) k = (latest (fun x ↦ key (g x)) l k).map g := by
  rw [latest, entries, List.filter_map, List.getLast?_map]
  rfl

/-! ## Compaction -/

/-- The last entries of the keys `ks`, in the order of `ks`. -/
def compact (key : ρ → κ) (l : List ρ) (ks : List κ) : List ρ := ks.filterMap (latest key l)

theorem mem_compact_iff {ks : List κ} :
    r ∈ compact key l ks ↔ ∃ k ∈ ks, latest key l k = some r := List.mem_filterMap

/-- A compacted log has exactly one entry for each key that had any. -/
theorem entries_compact {ks : List κ} (hnd : ks.Nodup) :
    entries key (compact key l ks) k = if k ∈ ks then (latest key l k).toList else [] := by
  induction ks with
  | nil => rfl
  | cons j ks ih =>
    obtain ⟨hj, hnd⟩ := List.nodup_cons.mp hnd
    have hstep : compact key l (j :: ks) = (latest key l j).toList ++ compact key l ks := by
      rw [compact, List.filterMap_cons]
      cases latest key l j <;> rfl
    have hhead : entries key (latest key l j).toList k
        = if k = j then (latest key l k).toList else [] := by
      by_cases hk : k = j
      · subst hk
        rw [if_pos rfl]
        rcases ho : latest key l k with _ | r
        · rfl
        · simp [entries, (mem_of_latest ho).2]
      · rw [if_neg hk]
        rcases ho : latest key l j with _ | r
        · rfl
        · simp [entries, (mem_of_latest ho).2, Ne.symm hk]
    rw [hstep, entries_append, hhead, ih hnd]
    by_cases hk : k = j
    · subst hk
      simp [hj]
    · simp [hk]

theorem length_compact_le (key : ρ → κ) (l : List ρ) (ks : List κ) :
    (compact key l ks).length ≤ ks.length := List.length_filterMap_le ..

theorem compact_append (key : ρ → κ) (l : List ρ) (ks ks' : List κ) :
    compact key l (ks ++ ks') = compact key l ks ++ compact key l ks' := List.filterMap_append

/-- Keys without entries leave no trace. -/
theorem compact_eq_nil {ks : List κ} (h : ∀ k ∈ ks, ∀ r ∈ l, key r ≠ k) :
    compact key l ks = [] :=
  List.filterMap_eq_nil_iff.mpr fun k hk ↦ latest_eq_none_iff.mpr (h k hk)

end KeyedLog
