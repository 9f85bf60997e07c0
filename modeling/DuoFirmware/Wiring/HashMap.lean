import DuoFirmware.Lib.OrderedMap

/-!
# The hash map of the Bluetooth stack

`HashMap` keeps its keys and their values in two arrays of `capacity` elements, of which the first
`currentIndex` ones are in use. The elements of a new map are whatever lies in its memory. A program
fails when it accesses an array outside its bounds.
-/

namespace DuoFirmware.Wiring

structure HashMap (K V : Type) where
  keys : List K
  values : List V
  currentIndex : ℕ
  /-- `cb_comparator`, which may be null. -/
  comparator : Option (K → K → Bool)

namespace HashMap

variable {K V : Type}

/-! ## Functions -/

/-- The constructor. -/
def new (compare : Option (K → K → Bool)) (keys : List K) (values : List V) : HashMap K V :=
  ⟨keys, values, 0, compare⟩

variable (m : HashMap K V) (capacity : ℕ) (nil : V)

def size : UInt32 := UInt32.ofNat m.currentIndex

def willOverflow : Bool := m.currentIndex + 1 > capacity

def clear : HashMap K V := { m with currentIndex := 0 }

/-- The loop that moves `n` elements behind `i` down by one. -/
def shift (m : HashMap K V) : ℕ → ℕ → Option (HashMap K V)
  | 0, _ => some m
  | n + 1, i => do
    let k ← m.keys[i + 1]?
    let v ← m.values[i + 1]?
    shift { m with keys := m.keys.set i k, values := m.values.set i v } n (i + 1)

/-- How a key is compared with one in the map. -/
def sameKey [BEq K] (comparator : Option (K → K → Bool)) (key key' : K) : Bool :=
  match comparator with
  | some compare => compare key key'
  | none => key == key'

variable [BEq K]

/-- The loop that looks for a key in `n` elements from `i` on. -/
def search (key : K) : ℕ → ℕ → Option (Option ℕ)
  | 0, _ => some none
  | n + 1, i => do
    let k ← m.keys[i]?
    if sameKey m.comparator key k then some (some i) else search key n (i + 1)

def contains (key : K) : Option Bool := (m.search key m.currentIndex 0).map Option.isSome

/-- The index of a key, and the largest number when it is not found. -/
def indexOf (key : K) : Option UInt32 :=
  (m.search key m.currentIndex 0).map fun i ↦ (i.map UInt32.ofNat).getD (-1)

def addKey (key : K) (value : V) : Option (ℤ × HashMap K V) := do
  let found ← m.contains key
  if !found && !m.willOverflow capacity then
    if m.currentIndex < m.keys.length ∧ m.currentIndex < m.values.length then
      some (0, { m with
        keys := m.keys.set m.currentIndex key
        values := m.values.set m.currentIndex value
        currentIndex := m.currentIndex + 1 })
    else none
  else some (-1, m)

def valueOf (key : K) : Option V := do
  let found ← m.contains key
  if found then
    let i ← m.indexOf key
    m.values[i.toNat]?
  else some nil

/-- `setValue`, which returns the same number in every case. -/
def setValue (key : K) (value : V) : Option (ℤ × HashMap K V) := do
  let found ← m.contains key
  if found then
    let i ← m.indexOf key
    if i.toNat < m.values.length then
      some (-1, { m with values := m.values.set i.toNat value })
    else none
  else some (-1, m)

def remove (key : K) : Option (HashMap K V) := do
  let i ← m.indexOf key
  let found ← m.contains key
  if found then
    let m ← m.shift (capacity - 1 - i.toNat) i.toNat
    some { m with currentIndex := m.currentIndex - 1 }
  else some m

/-! ## The map that it stands for -/

/-- **The contents**: the entries of a map lie in the arrays, in order. -/
structure Represents {e : KeyEquiv K} {capacity : ℕ} (m : HashMap K V)
    (o : OrderedMap e V capacity) : Prop where
  length_keys : m.keys.length = capacity
  length_values : m.values.length = capacity
  currentIndex : m.currentIndex = o.entries.length
  comparator : sameKey m.comparator = e.eq
  get : ∀ (i : ℕ) (x : K × V), o.entries[i]? = some x →
    m.keys[i]? = some x.1 ∧ m.values[i]? = some x.2

variable {m capacity nil} {e : KeyEquiv K} {o : OrderedMap e V capacity} {key : K} {value : V}

theorem Represents.search_from (h : Represents m o) (key : K) {xs ys : List (K × V)}
    (hentries : o.entries = xs ++ ys) :
    m.search key ys.length xs.length =
      some ((ys.findIdx? fun x ↦ e.eq key x.1).map (· + xs.length)) := by
  induction ys generalizing xs with
  | nil => rfl
  | cons y ys ih =>
    have hget : m.keys[xs.length]? = some y.1 := by
      refine (h.get xs.length y ?_).1
      rw [hentries, List.getElem?_append_right le_rfl, Nat.sub_self]
      rfl
    have hsplit : o.entries = (xs ++ [y]) ++ ys := by rw [hentries, List.append_assoc]; rfl
    have hrest := ih hsplit
    rw [List.length_append, List.length_singleton] at hrest
    rw [List.length_cons, search, hget, Option.bind_eq_bind, Option.bind_some, h.comparator,
      List.findIdx?_cons]
    cases e.eq key y.1 with
    | true =>
      rw [if_pos rfl, if_pos rfl, Option.map_some, Nat.zero_add]
    | false =>
      rw [if_neg Bool.false_ne_true, if_neg Bool.false_ne_true, hrest, Option.map_map]
      congr 2
      funext i
      exact Nat.add_left_comm i xs.length 1 ▸ Nat.add_comm _ _

/-- **The search** finds a key where the map has it. -/
theorem Represents.search (h : Represents m o) :
    m.search key m.currentIndex 0 = some (o.indexOf key) := by
  have hsearch := h.search_from key (List.nil_append o.entries).symm
  rw [← h.currentIndex] at hsearch
  refine hsearch.trans (congrArg some ?_)
  exact Option.map_id'

theorem Represents.contains (h : Represents m o) : m.contains key = some (o.contains key) := by
  rw [HashMap.contains, h.search, OrderedMap.contains_eq]
  rfl

theorem Represents.indexOf (h : Represents m o) :
    m.indexOf key = some (((o.indexOf key).map UInt32.ofNat).getD (-1)) := by
  rw [HashMap.indexOf, h.search]
  rfl

/-- The index of a key that is found is in the arrays, and not cut to 32 bits. -/
theorem Represents.indexOf_found (h : Represents m o) (hcapacity : capacity < 2147483648) {i : ℕ}
    (hi : o.indexOf key = some i) :
    ∃ j : UInt32, m.indexOf key = some j ∧ j.toNat = i ∧ i < o.entries.length := by
  obtain ⟨xs, x, ys, hsplit, rfl, -⟩ := OrderedMap.indexOf_eq_some hi
  have hlt : xs.length < o.entries.length := by
    rw [hsplit, List.length_append, List.length_cons]
    omega
  have hle := o.length_le
  refine ⟨UInt32.ofNat xs.length, ?_, UInt32.toNat_ofNat_of_lt' ?_, hlt⟩
  · rw [h.indexOf, hi]
    rfl
  · exact lt_trans (hlt.trans_le hle) (hcapacity.trans (by decide))

theorem Represents.valueOf (h : Represents m o) (hcapacity : capacity < 2147483648) :
    m.valueOf nil key = some ((o.lookup key).getD nil) := by
  rw [HashMap.valueOf, h.contains, OrderedMap.contains_eq, OrderedMap.lookup_eq]
  cases hi : o.indexOf key with
  | none => rfl
  | some i =>
    obtain ⟨j, hj, rfl, hlt⟩ := h.indexOf_found hcapacity hi
    have hentry := List.getElem?_eq_getElem hlt
    rw [Option.bind_some, hentry]
    exact (congrArg (fun r ↦ r.bind fun j : UInt32 ↦ m.values[j.toNat]?) hj).trans
      (h.get _ _ hentry).2

/-! ## Operations -/

/-- **Adding a key**: it is refused when the map has it, or is full. -/
theorem Represents.addKey (h : Represents m o) (key : K) (value : V) :
    ∃ m', m.addKey capacity key value =
        some (if o.contains key = false ∧ o.entries.length < capacity then 0 else -1, m') ∧
      Represents m' (o.add key value) := by
  have hroom : m.willOverflow capacity = false ↔ o.entries.length < capacity := by
    rw [willOverflow, h.currentIndex, decide_eq_false_iff_not]
    exact not_lt.trans Nat.succ_le_iff
  by_cases hadd : o.contains key = false ∧ o.entries.length < capacity
  · have hentries : (o.add key value).entries = o.entries ++ [(key, value)] := by
      rw [OrderedMap.add, dif_pos hadd]
    refine ⟨{ m with
      keys := m.keys.set m.currentIndex key
      values := m.values.set m.currentIndex value
      currentIndex := m.currentIndex + 1 }, ?_, ⟨?_, ?_, ?_, h.comparator, fun i x hx ↦ ?_⟩⟩
    · have hfits : m.currentIndex < m.keys.length ∧ m.currentIndex < m.values.length := by
        rw [h.currentIndex, h.length_keys, h.length_values]
        exact ⟨hadd.2, hadd.2⟩
      rw [HashMap.addKey, h.contains, if_pos hfits, if_pos hadd, hadd.1, hroom.mpr hadd.2]
      rfl
    · exact List.length_set.trans h.length_keys
    · exact List.length_set.trans h.length_values
    · rw [hentries, List.length_append, List.length_singleton, h.currentIndex]
    · rw [hentries] at hx
      rcases Nat.lt_trichotomy i o.entries.length with hi | rfl | hi
      · rw [List.getElem?_append_left hi] at hx
        dsimp only
        rw [h.currentIndex, List.getElem?_set_ne hi.ne', List.getElem?_set_ne hi.ne']
        exact h.get i x hx
      · rw [List.getElem?_concat_length] at hx
        obtain rfl := Option.some.inj hx
        dsimp only
        rw [h.currentIndex, List.getElem?_set_self (by rw [h.length_keys]; exact hadd.2),
          List.getElem?_set_self (by rw [h.length_values]; exact hadd.2)]
        exact ⟨rfl, rfl⟩
      · rw [List.getElem?_eq_none (by rw [List.length_append]; exact hi)] at hx
        cases hx
  · have hsame : o.add key value = o := dif_neg hadd
    refine ⟨m, ?_, hsame.symm ▸ h⟩
    have hrefused : ¬ (!o.contains key && !m.willOverflow capacity) = true := by
      rw [Bool.and_eq_true, Bool.not_eq_true', Bool.not_eq_true', hroom]
      exact hadd
    rw [HashMap.addKey, h.contains, if_neg hadd]
    exact if_neg hrefused

/-- **Replacing a value.** -/
theorem Represents.setValue (h : Represents m o) (hcapacity : capacity < 2147483648) (key : K)
    (value : V) : ∃ m', m.setValue key value = some (-1, m') ∧ Represents m' (o.set key value) := by
  rw [HashMap.setValue, h.contains]
  cases hi : o.indexOf key with
  | none =>
    have hcontains : o.contains key = false := by rw [OrderedMap.contains_eq, hi]; rfl
    have hsame : o.set key value = o := OrderedMap.ext (OrderedMap.set_of_not_contains hcontains)
    rw [hcontains, hsame]
    exact ⟨m, rfl, h⟩
  | some i =>
    have hcontains : o.contains key = true := by rw [OrderedMap.contains_eq, hi]; rfl
    obtain ⟨j, hj, rfl, hlt⟩ := h.indexOf_found hcapacity hi
    obtain ⟨x, hx, hentries⟩ := OrderedMap.entries_set (v := value) hi
    have hvalues : j.toNat < m.values.length := by
      rw [h.length_values]
      exact hlt.trans_le o.length_le
    refine ⟨{ m with values := m.values.set j.toNat value }, ?_,
      ⟨h.length_keys, List.length_set.trans h.length_values, ?_, h.comparator, fun i y hy ↦ ?_⟩⟩
    · rw [hcontains, hj]
      exact if_pos hvalues
    · rw [hentries, List.length_set]
      exact h.currentIndex
    · rw [hentries] at hy
      dsimp only
      by_cases hij : j.toNat = i
      · subst hij
        rw [List.getElem?_set_self hlt] at hy
        obtain rfl := Option.some.inj hy
        exact ⟨(h.get _ x hx).1, List.getElem?_set_self hvalues⟩
      · rw [List.getElem?_set_ne hij] at hy
        rw [List.getElem?_set_ne hij]
        exact h.get i y hy

omit [BEq K] in
/-- **The loop of `remove`** moves each element that it passes down by one. -/
theorem shift_spec {n i : ℕ} (hkeys : i + n < m.keys.length) (hvalues : i + n < m.values.length) :
    ∃ m', m.shift n i = some m' ∧ m'.keys.length = m.keys.length ∧
      m'.values.length = m.values.length ∧ m'.currentIndex = m.currentIndex ∧
      m'.comparator = m.comparator ∧
      (∀ j, m'.keys[j]? = if i ≤ j ∧ j < i + n then m.keys[j + 1]? else m.keys[j]?) ∧
      ∀ j, m'.values[j]? = if i ≤ j ∧ j < i + n then m.values[j + 1]? else m.values[j]? := by
  induction n generalizing m i with
  | zero =>
    refine ⟨m, rfl, rfl, rfl, rfl, rfl, fun j ↦ ?_, fun j ↦ ?_⟩
    · rw [if_neg (by omega)]
    · rw [if_neg (by omega)]
  | succ n ih =>
    have hkey := List.getElem?_eq_getElem (show i + 1 < m.keys.length by omega)
    have hvalue := List.getElem?_eq_getElem (show i + 1 < m.values.length by omega)
    obtain ⟨m', hrun, hlk, hlv, hindex, hcmp, hk, hv⟩ := ih (i := i + 1)
      (m := { m with keys := m.keys.set i m.keys[i + 1], values := m.values.set i m.values[i + 1] })
      (by dsimp only; rw [List.length_set]; omega) (by dsimp only; rw [List.length_set]; omega)
    have hmoved : ∀ {T : Type} (l : List T) (h : i + 1 < l.length) (j : ℕ),
        (if i + 1 ≤ j ∧ j < i + 1 + n then (l.set i l[i + 1])[j + 1]?
          else (l.set i l[i + 1])[j]?) =
        if i ≤ j ∧ j < i + (n + 1) then l[j + 1]? else l[j]? := by
      intro T l h j
      rcases Nat.lt_trichotomy j i with hj | rfl | hj
      · rw [if_neg (by omega), if_neg (by omega), List.getElem?_set_ne hj.ne']
      · rw [if_neg (by omega), if_pos (by omega), List.getElem?_set_self (by omega),
          List.getElem?_eq_getElem h]
      · rw [List.getElem?_set_ne (by omega), List.getElem?_set_ne (by omega)]
        exact if_congr (by omega) rfl rfl
    refine ⟨m', ?_, hlk.trans List.length_set, hlv.trans List.length_set, hindex, hcmp,
      fun j ↦ (hk j).trans (hmoved m.keys (by omega) j),
      fun j ↦ (hv j).trans (hmoved m.values (by omega) j)⟩
    rw [HashMap.shift, hkey, hvalue]
    exact hrun

/-- **Taking a key out.** -/
theorem Represents.remove (h : Represents m o) (hcapacity : capacity < 2147483648) (key : K) :
    ∃ m', m.remove capacity key = some m' ∧ Represents m' (o.remove key) := by
  rw [HashMap.remove, h.contains]
  cases hi : o.indexOf key with
  | none =>
    have hcontains : o.contains key = false := by rw [OrderedMap.contains_eq, hi]; rfl
    rw [hcontains, OrderedMap.remove_of_not_contains hcontains, h.indexOf, hi]
    exact ⟨m, rfl, h⟩
  | some i =>
    have hcontains : o.contains key = true := by rw [OrderedMap.contains_eq, hi]; rfl
    have hle := o.length_le
    obtain ⟨j, hj, rfl, hlt⟩ := h.indexOf_found hcapacity hi
    have hentries := OrderedMap.entries_remove hi
    have hend : j.toNat + (capacity - 1 - j.toNat) < capacity := by omega
    obtain ⟨m', hshift, hlk, hlv, hindex, hcmp, hk, hv⟩ := shift_spec (m := m)
      (n := capacity - 1 - j.toNat) (i := j.toNat) (by rwa [h.length_keys])
      (by rwa [h.length_values])
    refine ⟨{ m' with currentIndex := m'.currentIndex - 1 }, ?_, ⟨hlk.trans h.length_keys,
      hlv.trans h.length_values, ?_, ?_, fun i x hx ↦ ?_⟩⟩
    · rw [hcontains, hj]
      exact congrArg (fun r ↦ r.bind fun m : HashMap K V ↦
        some { m with currentIndex := m.currentIndex - 1 }) hshift
    · rw [hentries, List.length_eraseIdx_of_lt hlt]
      exact congrArg (· - 1) (hindex.trans h.currentIndex)
    · exact (congrArg sameKey hcmp).trans h.comparator
    · dsimp only
      rw [hk, hv]
      rw [hentries, List.getElem?_eraseIdx] at hx
      split_ifs at hx with hij
      · rw [if_neg (by omega), if_neg (by omega)]
        exact h.get i x hx
      · have hlast : i + 1 < o.entries.length := (List.getElem?_eq_some_iff.mp hx).1
        rw [if_pos (by omega), if_pos (by omega)]
        exact h.get (i + 1) x hx

theorem Represents.clear (h : Represents m o) :
    Represents m.clear (OrderedMap.empty : OrderedMap e V capacity) :=
  ⟨h.length_keys, h.length_values, rfl, h.comparator, fun _ _ hx ↦ by cases hx⟩

/-! ## Refinement -/

/-- A call. -/
inductive Op (K V : Type) where
  | addKey (key : K) (value : V)
  | setValue (key : K) (value : V)
  | remove (key : K)
  | clear
  | contains (key : K)
  | valueOf (key : K)
  | indexOf (key : K)

/-- What a call returns. -/
inductive Result (V : Type) where
  | code (n : ℤ)
  | found (b : Bool)
  | value (v : V)
  | index (i : UInt32)
  | nothing
  deriving DecidableEq

def step (capacity : ℕ) (nil : V) (m : HashMap K V) : Op K V → Option (Result V × HashMap K V)
  | .addKey key value => (m.addKey capacity key value).map fun r ↦ (.code r.1, r.2)
  | .setValue key value => (m.setValue key value).map fun r ↦ (.code r.1, r.2)
  | .remove key => (m.remove capacity key).map fun m ↦ (.nothing, m)
  | .clear => some (.nothing, m.clear)
  | .contains key => (m.contains key).map fun b ↦ (.found b, m)
  | .valueOf key => (m.valueOf nil key).map fun v ↦ (.value v, m)
  | .indexOf key => (m.indexOf key).map fun i ↦ (.index i, m)

def run (capacity : ℕ) (nil : V) (m : HashMap K V) :
    List (Op K V) → Option (List (Result V) × HashMap K V)
  | [] => some ([], m)
  | op :: ops => do
    let (r, m) ← step capacity nil m op
    let (rs, m) ← run capacity nil m ops
    some (r :: rs, m)

/-- **The operations of a map** with at most `capacity` keys. -/
def mapStep (nil : V) (o : OrderedMap e V capacity) :
    Op K V → Result V × OrderedMap e V capacity
  | .addKey key value =>
    (.code (if o.contains key = false ∧ o.entries.length < capacity then 0 else -1),
      o.add key value)
  | .setValue key value => (.code (-1), o.set key value)
  | .remove key => (.nothing, o.remove key)
  | .clear => (.nothing, .empty)
  | .contains key => (.found (o.contains key), o)
  | .valueOf key => (.value ((o.lookup key).getD nil), o)
  | .indexOf key => (.index (((o.indexOf key).map UInt32.ofNat).getD (-1)), o)

def mapRun (nil : V) (o : OrderedMap e V capacity) :
    List (Op K V) → List (Result V) × OrderedMap e V capacity
  | [] => ([], o)
  | op :: ops =>
    let (r, o) := mapStep nil o op
    let (rs, o) := mapRun nil o ops
    (r :: rs, o)

/-- The value that a call leaves stored for a key, by what it returned. -/
def stored (e : KeyEquiv K) (key : K) (v : Option V) : Op K V × Result V → Option V
  | (.addKey k value, .code 0) => if e.eq k key then some value else v
  | (.setValue k value, _) => if e.eq k key then v.map fun _ ↦ value else v
  | (.remove k, _) => if e.eq k key then none else v
  | (.clear, _) => none
  | _ => v

/-- **The value last stored** for a key in a run. -/
def lastStored (e : KeyEquiv K) (key : K) (v : Option V) (calls : List (Op K V × Result V)) :
    Option V := calls.foldl (stored e key) v

omit [BEq K] in
theorem lookup_mapStep (op : Op K V) :
    (mapStep nil o op).2.lookup key = stored e key (o.lookup key) (op, (mapStep nil o op).1) := by
  cases op with
  | addKey k value =>
    change (o.add k value).lookup key = _
    rw [OrderedMap.lookup_add, mapStep]
    by_cases hadd : o.contains k = false ∧ o.entries.length < capacity
    · rw [if_pos hadd, stored]
      exact if_congr ⟨fun h ↦ h.2.2, fun h ↦ ⟨hadd.1, hadd.2, h⟩⟩ rfl rfl
    · rw [if_neg hadd, if_neg (fun h ↦ hadd ⟨h.1, h.2.1⟩)]
      rfl
  | setValue k value => exact OrderedMap.lookup_set
  | remove k => exact OrderedMap.lookup_remove
  | clear => rfl
  | contains k => rfl
  | valueOf k => rfl
  | indexOf k => rfl

omit [BEq K] in
theorem lookup_mapRun (ops : List (Op K V)) : (mapRun nil o ops).2.lookup key =
    lastStored e key (o.lookup key) (ops.zip (mapRun nil o ops).1) := by
  induction ops generalizing o with
  | nil => rfl
  | cons op ops ih =>
    rw [mapRun]
    dsimp only
    rw [ih, lookup_mapStep]
    rfl

/-- **A call** does what the map does. -/
theorem Represents.step (h : Represents m o) (hcapacity : capacity < 2147483648) (nil : V)
    (op : Op K V) : ∃ m', m.step capacity nil op = some ((mapStep nil o op).1, m') ∧
      Represents m' (mapStep nil o op).2 := by
  cases op with
  | addKey key value =>
    obtain ⟨m', hrun, h'⟩ := h.addKey key value
    exact ⟨m', by rw [HashMap.step, hrun]; rfl, h'⟩
  | setValue key value =>
    obtain ⟨m', hrun, h'⟩ := h.setValue hcapacity key value
    exact ⟨m', by rw [HashMap.step, hrun]; rfl, h'⟩
  | remove key =>
    obtain ⟨m', hrun, h'⟩ := h.remove hcapacity key
    exact ⟨m', by rw [HashMap.step, hrun]; rfl, h'⟩
  | clear => exact ⟨m.clear, rfl, h.clear⟩
  | contains key => exact ⟨m, by rw [HashMap.step, h.contains]; rfl, h⟩
  | valueOf key => exact ⟨m, by rw [HashMap.step, h.valueOf hcapacity]; rfl, h⟩
  | indexOf key => exact ⟨m, by rw [HashMap.step, h.indexOf]; rfl, h⟩

theorem Represents.run (h : Represents m o) (hcapacity : capacity < 2147483648) (nil : V)
    (ops : List (Op K V)) : ∃ m', m.run capacity nil ops = some ((mapRun nil o ops).1, m') ∧
      Represents m' (mapRun nil o ops).2 := by
  induction ops generalizing m o with
  | nil => exact ⟨m, rfl, h⟩
  | cons op ops ih =>
    obtain ⟨m₁, hstep, h₁⟩ := h.step hcapacity nil op
    obtain ⟨m', hrun, h'⟩ := ih h₁
    refine ⟨m', ?_, h'⟩
    rw [HashMap.run, hstep, Option.bind_eq_bind, Option.bind_some]
    dsimp only
    rw [hrun]
    rfl

/-- **The hash map is a bounded map** that keeps its keys in order, for every comparison that is an
equivalence, every capacity that is an `int` and whatever lies in the arrays at first: every
sequence of calls returns what it returns there, the arrays have its entries in the end, and the
value of a key is the one last stored for it. -/
theorem refines_ordered_map (compare : Option (K → K → Bool))
    (hcompare : Equivalence fun a b ↦ sameKey compare a b = true)
    (hcapacity : capacity < 2147483648) (nil : V) (keys : List K) (values : List V)
    (hkeys : keys.length = capacity) (hvalues : values.length = capacity) (ops : List (Op K V)) :
    ∃ m', run capacity nil (new compare keys values) ops = some ((mapRun nil
        (.empty : OrderedMap ⟨sameKey compare, hcompare⟩ V capacity) ops).1, m') ∧
      Represents m' (mapRun nil
        (.empty : OrderedMap ⟨sameKey compare, hcompare⟩ V capacity) ops).2 ∧
      ∀ key, m'.valueOf nil key = some ((lastStored ⟨sameKey compare, hcompare⟩ key none
        (ops.zip (mapRun nil
          (.empty : OrderedMap ⟨sameKey compare, hcompare⟩ V capacity) ops).1)).getD nil) := by
  have hnew : Represents (new compare keys values)
      (.empty : OrderedMap ⟨sameKey compare, hcompare⟩ V capacity) :=
    ⟨hkeys, hvalues, rfl, rfl, fun _ _ hx ↦ by cases hx⟩
  obtain ⟨m', hrun, h'⟩ := hnew.run hcapacity nil ops
  refine ⟨m', hrun, h', fun key ↦ ?_⟩
  rw [h'.valueOf hcapacity, lookup_mapRun]
  rfl

/-- Keys with the same last digit are equivalent. -/
def sameDigit (a b : ℕ) : Bool := a % 10 = b % 10

theorem sameDigit_equivalence :
    Equivalence fun a b ↦ sameKey (some sameDigit) a b = true where
  refl _ := decide_eq_true rfl
  symm h := decide_eq_true (of_decide_eq_true h).symm
  trans h h' := decide_eq_true ((of_decide_eq_true h).trans (of_decide_eq_true h'))

/-- A key that is there already, one for which there is no room, and the first one taken out. -/
def fiveCalls : List (Op ℕ ℕ) :=
  [.addKey 1 10, .addKey 11 20, .addKey 2 30, .addKey 3 40, .remove 21]

theorem refines_ordered_map_fiveCalls :
    ∃ m', run 2 0 (new (some sameDigit) [7, 7] [8, 8]) fiveCalls = some ((mapRun 0
        (.empty : OrderedMap ⟨sameKey (some sameDigit), sameDigit_equivalence⟩ ℕ 2)
          fiveCalls).1, m') ∧
      Represents m' (mapRun 0
        (.empty : OrderedMap ⟨sameKey (some sameDigit), sameDigit_equivalence⟩ ℕ 2)
          fiveCalls).2 ∧
      ∀ key, m'.valueOf 0 key = some ((lastStored
        ⟨sameKey (some sameDigit), sameDigit_equivalence⟩ key none (fiveCalls.zip (mapRun 0
          (.empty : OrderedMap ⟨sameKey (some sameDigit), sameDigit_equivalence⟩ ℕ 2)
            fiveCalls).1)).getD 0) :=
  refines_ordered_map (some sameDigit) sameDigit_equivalence (by decide) 0 [7, 7] [8, 8] rfl rfl
    fiveCalls

end HashMap

end DuoFirmware.Wiring
