import DuoFirmware.Json.Nodes

/-!
# Arrays and objects that a program edits

`JsonArray` and `JsonObject` answer calls as a list of values and a list of named members would.
Memory may be refused at any call: the list then keeps its values, except that a new member whose
key cannot be copied stays behind without a key.
-/

namespace DuoFirmware.Json

/-- What the containers use of `JsonVariant`: its default, a null string, and `as<bool>`. -/
structure VariantType (V : Type) where
  undefined : V
  nullString : V
  asBool : V → Bool

/-- A value that is passed to a container. A `String` is copied, if there is memory. -/
inductive Argument (V : Type)
  | plain (value : V)
  | copied (value : V) (memory : Bool)

/-- A key that is passed to a container; `memory` is for its copy. -/
structure JsonObjectKey (K : Type) where
  value : K
  needsCopy : Bool
  memory : Bool

inductive Result (V : Type)
  | success (done : Bool)
  | found (value : V)
  | removed
  | count (n : ℕ)

variable {K V : Type} (t : VariantType V)

/-! ## Arrays -/

namespace JsonArray

variable (l : NodeList V)

/-- `getNodeAt`, from a node on. -/
def getNodeAt : ℕ → Option ℕ → Option (Option ℕ)
  | _, none => some none
  | 0, some p => some (some p)
  | index + 1, some p => do
    let node ← l.nodes[p]?
    getNodeAt index node.next

def setNodeValue (p : ℕ) : Argument V → Option (Result V × NodeList V)
  | .plain value => do
    let l' ← l.setContent p value
    some (.success true, l')
  | .copied value true => do
    let l' ← l.setContent p value
    some (.success true, l')
  | .copied _ false => some (.success false, l)

/-- `add`; `memory` is for the node. -/
def add (value : Argument V) (memory : Bool) : Option (Result V × NodeList V) := do
  let (newNode, l') ← l.addNewNode t.undefined memory
  match newNode with
  | none => some (.success false, l')
  | some p => setNodeValue l' p value

def set (index : ℕ) (value : Argument V) : Option (Result V × NodeList V) := do
  match ← getNodeAt l index l.firstNode with
  | none => some (.success false, l)
  | some p => setNodeValue l p value

def get (index : ℕ) : Option V := do
  match ← getNodeAt l index l.firstNode with
  | none => some t.undefined
  | some p => (l.nodes[p]?).map ListNode.content

def removeAt (index : ℕ) : Option (NodeList V) := do
  l.removeNode (← getNodeAt l index l.firstNode)

inductive Call (V : Type)
  | add (value : Argument V) (memory : Bool)
  | set (index : ℕ) (value : Argument V)
  | get (index : ℕ)
  | removeAt (index : ℕ)
  | size

def step : Call V → Option (Result V × NodeList V)
  | .add value memory => add t l value memory
  | .set index value => set l index value
  | .get index => (get t l index).map fun v ↦ (.found v, l)
  | .removeAt index => (removeAt l index).map fun l' ↦ (.removed, l')
  | .size => l.size.map fun n ↦ (.count n, l)

def run : NodeList V → List (Call V) → Option (List (Result V) × NodeList V)
  | l, [] => some ([], l)
  | l, c :: cs => do
    let (r, l') ← step t l c
    let (rs, l'') ← run l' cs
    some (r :: rs, l'')

end JsonArray

/-- Whether a value is stored: its copy has memory. -/
def Argument.fits : Argument V → Bool
  | .plain _ => true
  | .copied _ memory => memory

/-- The value of an element after it was assigned. -/
def Argument.over (old : V) : Argument V → V
  | .plain value => value
  | .copied value memory => if memory then value else old

namespace JsonArray

/-- The same call for a list of values. -/
def listStep (xs : List V) : Call V → Result V × List V
  | .add value memory =>
    if memory then (.success value.fits, xs ++ [value.over t.undefined]) else (.success false, xs)
  | .set index value =>
    match xs[index]? with
    | none => (.success false, xs)
    | some old => (.success value.fits, xs.set index (value.over old))
  | .get index => (.found (xs.getD index t.undefined), xs)
  | .removeAt index => (.removed, xs.eraseIdx index)
  | .size => (.count xs.length, xs)

def listRun : List V → List (Call V) → List (Result V) × List V
  | xs, [] => ([], xs)
  | xs, c :: cs =>
    let (r, xs') := listStep t xs c
    let (rs, xs'') := listRun xs' cs
    (r :: rs, xs'')

variable {l : NodeList V} {ps : List ℕ} {xs : List V} {p i : ℕ} {first : Option ℕ}

/-- **The node at an index** is the one at this place of the chain. -/
theorem getNodeAt_eq (h : LinkedList.Chain ListNode.next (NodeList.heap l.nodes) first ps) (i : ℕ) :
    getNodeAt l i first = some ps[i]? := by
  induction ps generalizing first i with
  | nil =>
    obtain rfl : first = none := h
    cases i <;> rfl
  | cons p ps ih =>
    obtain ⟨rfl, node, hnode, hchain⟩ := h
    cases i with
    | zero => rfl
    | succ i =>
      have hnode : l.nodes[p]? = some node := hnode
      simp only [getNodeAt, hnode, Option.bind_eq_bind, Option.bind_some, ih hchain,
        List.getElem?_cons_succ]

theorem setNodeValue_spec (h : l.Holds ps xs) (hp : ps[i]? = some p) {old : V}
    (hold : xs[i]? = some old) (value : Argument V) :
    ∃ l', setNodeValue l p value = some (.success value.fits, l') ∧
      l'.Holds ps (xs.set i (value.over old)) := by
  have hstored (v : V) : ∃ l', setNodeValue l p (.plain v) = some (.success true, l') ∧
      l'.Holds ps (xs.set i v) := by
    obtain ⟨l', hrun, hl'⟩ := h.setContent_at hp v
    exact ⟨l', by rw [setNodeValue, hrun]; rfl, hl'⟩
  cases value with
  | plain v => exact hstored v
  | copied v memory =>
    cases memory with
    | true => exact hstored v
    | false =>
      refine ⟨l, rfl, ?_⟩
      have hsame : xs.set i old = xs := by
        obtain ⟨hi, rfl⟩ := List.getElem?_eq_some_iff.mp hold
        exact List.set_getElem_self hi
      exact hsame.symm ▸ h

/-- **One call** does to the nodes what it does to the values. -/
theorem step_refines (h : l.Holds ps xs) (c : Call V) :
    ∃ l' ps', step t l c = some ((listStep t xs c).1, l') ∧ l'.Holds ps' (listStep t xs c).2 := by
  cases c with
  | add value memory =>
    obtain ⟨⟨l', hrun, hl'⟩, hrefused⟩ := h.addNewNode t.undefined
    cases memory with
    | true =>
      have hp : (ps ++ [l.nodes.length])[ps.length]? = some l.nodes.length :=
        List.getElem?_concat_length
      have hold : (xs ++ [t.undefined])[ps.length]? = some t.undefined :=
        h.length ▸ List.getElem?_concat_length
      obtain ⟨l'', hset, hl''⟩ := setNodeValue_spec hl' hp hold value
      refine ⟨l'', ps ++ [l.nodes.length], ?_, ?_⟩
      · simp only [step, add, hrun, Option.bind_eq_bind, Option.bind_some, hset]
        rfl
      · rw [h.length, List.set_append_right _ _ le_rfl, Nat.sub_self] at hl''
        exact hl''
    | false =>
      refine ⟨l, ps, ?_, h⟩
      simp only [step, add, hrefused, Option.bind_eq_bind, Option.bind_some]
      rfl
  | set index value =>
    have hnode := getNodeAt_eq h.chain index
    cases hp : ps[index]? with
    | none =>
      have hnone := h.getElem?_eq_none hp
      refine ⟨l, ps, ?_, ?_⟩
      · simp only [step, set, hnode, hp, Option.bind_eq_bind, Option.bind_some, listStep, hnone]
      · simp only [listStep, hnone]
        exact h
    | some p =>
      obtain ⟨old, -, hold, -⟩ := h.getElem? hp
      obtain ⟨l', hset, hl'⟩ := setNodeValue_spec h hp hold value
      refine ⟨l', ps, ?_, ?_⟩
      · simp only [step, set, hnode, hp, Option.bind_eq_bind, Option.bind_some, hset, listStep,
          hold]
      · simp only [listStep, hold]
        exact hl'
  | get index =>
    have hnode := getNodeAt_eq h.chain index
    refine ⟨l, ps, ?_, h⟩
    cases hp : ps[index]? with
    | none =>
      simp only [step, get, hnode, hp, Option.bind_eq_bind, Option.bind_some, listStep,
        List.getD_eq_getElem?_getD, h.getElem?_eq_none hp]
      rfl
    | some p =>
      obtain ⟨y, next, hy, hcontent⟩ := h.getElem? hp
      simp only [step, get, hnode, hp, Option.bind_eq_bind, Option.bind_some, listStep,
        List.getD_eq_getElem?_getD, hy, hcontent]
      rfl
  | removeAt index =>
    have hnode := getNodeAt_eq h.chain index
    cases hp : ps[index]? with
    | none =>
      have hlength : xs.length ≤ index := List.getElem?_eq_none_iff.mp (h.getElem?_eq_none hp)
      refine ⟨l, ps, ?_, ?_⟩
      · simp only [step, removeAt, hnode, hp, Option.bind_eq_bind, Option.bind_some]
        rfl
      · simp only [listStep, List.eraseIdx_of_length_le hlength]
        exact h
    | some p =>
      obtain ⟨l', hrun, hl'⟩ := h.removeNode_at hp
      refine ⟨l', ps.eraseIdx index, ?_, hl'⟩
      simp only [step, removeAt, hnode, hp, Option.bind_eq_bind, Option.bind_some, hrun]
      rfl
  | size => exact ⟨l, ps, by rw [step, h.size_eq]; rfl, h⟩

/-- A run from a list that holds some values. -/
theorem run_refines (h : l.Holds ps xs) (calls : List (Call V)) :
    ∃ l' ps', run t l calls = some ((listRun t xs calls).1, l') ∧
      l'.Holds ps' (listRun t xs calls).2 := by
  induction calls generalizing l ps xs with
  | nil => exact ⟨l, ps, rfl, h⟩
  | cons c cs ih =>
    obtain ⟨l', ps', hstep, hl'⟩ := step_refines t h c
    obtain ⟨l'', ps'', hrun, hl''⟩ := ih hl'
    refine ⟨l'', ps'', ?_, hl''⟩
    simp only [run, hstep, hrun, Option.bind_eq_bind, Option.bind_some]
    rfl

/-- **Every run of calls** on a new array is answered as by a list of values, whatever memory the
buffer refuses. -/
theorem runs_as_list (calls : List (Call V)) :
    ∃ l ps, run t NodeList.new calls = some ((listRun t [] calls).1, l) ∧
      l.Holds ps (listRun t [] calls).2 :=
  run_refines t NodeList.holds_new calls

end JsonArray

/-! ## Objects -/

namespace JsonObject

variable [DecidableEq K]

/-- `JsonPair`; a key whose copy failed is a null pointer. -/
abbrev JsonPair (K V : Type) := Option K × V

variable (l : NodeList (JsonPair K V))

/-- `getNodeAt`, from a node on. Comparing with a null pointer is undefined behaviour. -/
def getNodeAt (key : K) : ℕ → Option ℕ → Option (Option ℕ)
  | _, none => some none
  | 0, some _ => none
  | steps + 1, some p => do
    let node ← l.nodes[p]?
    let nodeKey ← node.content.1
    if nodeKey = key then some (some p) else getNodeAt key steps node.next

def setNodeKey (p : ℕ) (key : JsonObjectKey K) : Option (Bool × NodeList (JsonPair K V)) := do
  let node ← l.nodes[p]?
  if key.needsCopy && !key.memory then
    let l' ← l.setContent p (none, node.content.2)
    some (false, l')
  else
    let l' ← l.setContent p (some key.value, node.content.2)
    some (true, l')

/-- `setNodeValue`: for a `String` it returns the copy, converted to `bool`. -/
def setNodeValue (p : ℕ) : Argument V → Option (Result V × NodeList (JsonPair K V))
  | .plain value => do
    let node ← l.nodes[p]?
    let l' ← l.setContent p (node.content.1, value)
    some (.success true, l')
  | .copied value memory => do
    let copy := if memory then value else t.nullString
    let node ← l.nodes[p]?
    let l' ← l.setContent p (node.content.1, copy)
    some (.success (t.asBool copy), l')

/-- `setNodeAt`; `memory` is for a new node. -/
def setNodeAt (key : JsonObjectKey K) (value : Argument V) (memory : Bool) :
    Option (Result V × NodeList (JsonPair K V)) := do
  match ← getNodeAt l key.value l.nodes.length l.firstNode with
  | some p => setNodeValue t l p value
  | none =>
    -- the key of a new node is not initialised: it is assigned next
    let (newNode, l') ← l.addNewNode (none, t.undefined) memory
    match newNode with
    | none => some (.success false, l')
    | some p =>
      let (done, l'') ← setNodeKey l' p key
      if done then setNodeValue t l'' p value else some (.success false, l'')

def get (key : K) : Option V := do
  match ← getNodeAt l key l.nodes.length l.firstNode with
  | none => some t.undefined
  | some p => (l.nodes[p]?).map fun node ↦ node.content.2

def containsKey (key : K) : Option Bool :=
  (getNodeAt l key l.nodes.length l.firstNode).map Option.isSome

def remove (key : K) : Option (NodeList (JsonPair K V)) := do
  l.removeNode (← getNodeAt l key l.nodes.length l.firstNode)

inductive Call (K V : Type)
  | set (key : JsonObjectKey K) (value : Argument V) (memory : Bool)
  | get (key : K)
  | containsKey (key : K)
  | remove (key : K)
  | size

def step : Call K V → Option (Result V × NodeList (JsonPair K V))
  | .set key value memory => setNodeAt t l key value memory
  | .get key => (get t l key).map fun v ↦ (.found v, l)
  | .containsKey key => (containsKey l key).map fun b ↦ (.success b, l)
  | .remove key => (remove l key).map fun l' ↦ (.removed, l')
  | .size => l.size.map fun n ↦ (.count n, l)

def run : NodeList (JsonPair K V) → List (Call K V) →
    Option (List (Result V) × NodeList (JsonPair K V))
  | l, [] => some ([], l)
  | l, c :: cs => do
    let (r, l') ← step t l c
    let (rs, l'') ← run l' cs
    some (r :: rs, l'')

end JsonObject

/-- The value of a member after it was assigned. -/
def Argument.stored : Argument V → V
  | .plain value => value
  | .copied value memory => if memory then value else t.nullString

/-- What assigning the value of a member answers. -/
def Argument.answer : Argument V → Bool
  | .plain _ => true
  | value@(.copied ..) => t.asBool (value.stored t)

/-- The members of an object, in order. Behind them may be one whose key could not be copied. -/
structure Members (K V : Type) where
  entries : List (K × V)
  nameless : Bool
  distinct : (entries.map Prod.fst).Nodup

namespace Members

variable [DecidableEq K] (m : Members K V) (key : K) (v : V)

def new : Members K V := ⟨[], false, List.nodup_nil⟩

def keys : List K := m.entries.map Prod.fst

def named (e : K × V) : JsonObject.JsonPair K V := (some e.1, e.2)

/-- What the nodes store. -/
def pairs : List (JsonObject.JsonPair K V) :=
  m.entries.map named ++ if m.nameless then [(none, t.undefined)] else []

def lookup : Option V := (m.entries.find? fun e ↦ e.1 = key).map Prod.snd

/-- Looking for a key does not meet the null pointer. -/
def Findable : Prop := key ∈ m.keys ∨ m.nameless = false

instance : Decidable (m.Findable key) := inferInstanceAs (Decidable (_ ∨ _))

def assign : Members K V where
  entries := m.entries.map fun e ↦ if e.1 = key then (key, v) else e
  nameless := m.nameless
  distinct := by
    have hkeys : (m.entries.map fun e ↦ if e.1 = key then (key, v) else e).map Prod.fst =
        m.keys := by
      rw [List.map_map]
      refine List.map_congr_left fun e _ ↦ ?_
      rw [Function.comp_apply]
      split_ifs with h
      · exact h.symm
      · rfl
    exact hkeys ▸ m.distinct

def append (h : key ∉ m.keys) : Members K V where
  entries := m.entries ++ [(key, v)]
  nameless := m.nameless
  distinct := by
    rw [List.map_append]
    refine List.nodup_append_comm.mp ?_
    exact List.nodup_cons.mpr ⟨h, m.distinct⟩

def remove : Members K V where
  entries := m.entries.filter fun e ↦ e.1 ≠ key
  nameless := m.nameless
  distinct := m.distinct.sublist (List.filter_sublist.map Prod.fst)

end Members

namespace JsonObject

variable [DecidableEq K]

/-- The same call for the members; none when its behaviour is undefined. -/
def memberStep (m : Members K V) : Call K V → Option (Result V × Members K V)
  | .set key value memory =>
    if h : key.value ∈ m.keys then
      some (.success (value.answer t), m.assign key.value (value.stored t))
    else if m.nameless then none
    else if !memory then some (.success false, m)
    else if key.needsCopy && !key.memory then some (.success false, { m with nameless := true })
    else some (.success (value.answer t), m.append key.value (value.stored t) h)
  | .get key =>
    if m.Findable key then some (.found ((m.lookup key).getD t.undefined), m) else none
  | .containsKey key =>
    if m.Findable key then some (.success (decide (key ∈ m.keys)), m) else none
  | .remove key => if m.Findable key then some (.removed, m.remove key) else none
  | .size => some (.count (m.entries.length + m.nameless.toNat), m)

def memberRun : Members K V → List (Call K V) → Option (List (Result V) × Members K V)
  | m, [] => some ([], m)
  | m, c :: cs => do
    let (r, m') ← memberStep t m c
    let (rs, m'') ← memberRun m' cs
    some (r :: rs, m'')

end JsonObject

namespace Members

variable [DecidableEq K] {t} {m : Members K V} {key : K} {v : V} {us vs : List (K × V)}

omit [DecidableEq K] in
/-- A member, with those in front of it and behind it. -/
theorem split (h : key ∈ m.keys) : ∃ us v vs, m.entries = us ++ (key, v) :: vs ∧
    (∀ e ∈ us, e.1 ≠ key) ∧ ∀ e ∈ vs, e.1 ≠ key := by
  obtain ⟨⟨k, v⟩, hmem, rfl⟩ := List.mem_map.mp h
  obtain ⟨us, vs, hsplit⟩ := List.append_of_mem hmem
  have hdistinct := m.distinct
  rw [hsplit, List.map_append, List.map_cons] at hdistinct
  obtain ⟨-, hright, hcross⟩ := List.nodup_append.mp hdistinct
  refine ⟨us, v, vs, hsplit, fun e he ↦ ?_, fun e he hk ↦ ?_⟩
  · exact hcross e.1 (List.mem_map_of_mem he) k List.mem_cons_self
  · exact (List.nodup_cons.mp hright).1 (hk ▸ List.mem_map_of_mem he)

theorem lookup_of_split (h : m.entries = us ++ (key, v) :: vs) (hus : ∀ e ∈ us, e.1 ≠ key) :
    m.lookup key = some v := by
  have hnone : us.find? (fun e ↦ e.1 = key) = none :=
    List.find?_eq_none.mpr fun e he ↦ by simpa using hus e he
  rw [lookup, h, List.find?_append, hnone, List.find?_cons_of_pos (by simp)]
  rfl

theorem lookup_eq_none (h : key ∉ m.keys) : m.lookup key = none := by
  rw [lookup, Option.map_eq_none_iff, List.find?_eq_none]
  intro e he
  simpa using fun hk : e.1 = key ↦ h (hk ▸ List.mem_map_of_mem he)

theorem assign_entries {w : V} (h : m.entries = us ++ (key, v) :: vs)
    (hus : ∀ e ∈ us, e.1 ≠ key) (hvs : ∀ e ∈ vs, e.1 ≠ key) :
    (m.assign key w).entries = us ++ (key, w) :: vs := by
  have hkeep (es : List (K × V)) (hes : ∀ e ∈ es, e.1 ≠ key) :
      es.map (fun e ↦ if e.1 = key then (key, w) else e) = es :=
    (List.map_congr_left fun e he ↦ if_neg (hes e he)).trans es.map_id
  rw [assign]
  dsimp only
  rw [h, List.map_append, List.map_cons, hkeep us hus, hkeep vs hvs, if_pos rfl]

theorem remove_entries (h : m.entries = us ++ (key, v) :: vs)
    (hus : ∀ e ∈ us, e.1 ≠ key) (hvs : ∀ e ∈ vs, e.1 ≠ key) :
    (m.remove key).entries = us ++ vs := by
  have hkeep (es : List (K × V)) (hes : ∀ e ∈ es, e.1 ≠ key) :
      es.filter (fun e ↦ e.1 ≠ key) = es :=
    List.filter_eq_self.mpr fun e he ↦ decide_eq_true (hes e he)
  rw [remove]
  dsimp only
  rw [h, List.filter_append, List.filter_cons_of_neg (by simp), hkeep us hus, hkeep vs hvs]

theorem remove_eq_self (h : key ∉ m.keys) : m.remove key = m := by
  have hkeep : m.entries.filter (fun e ↦ e.1 ≠ key) = m.entries :=
    List.filter_eq_self.mpr fun e he ↦ decide_eq_true fun hk ↦ h (hk ▸ List.mem_map_of_mem he)
  obtain ⟨entries, nameless, distinct⟩ := m
  simp only [remove] at hkeep ⊢
  simp only [hkeep]

end Members

namespace JsonObject

variable [DecidableEq K] {t} {l : NodeList (JsonPair K V)} {m : Members K V} {ps : List ℕ}
  {xs : List (JsonPair K V)} {us : List (K × V)} {key : K} {v : V} {p i : ℕ} {first : Option ℕ}

/-- Where a key is among pairs; none when a null pointer stands in front of it. -/
def locate (key : K) : List (JsonPair K V) → Option (Option ℕ)
  | [] => some none
  | (none, _) :: _ => none
  | (some k, _) :: xs => if k = key then some (some 0) else (locate key xs).map (Option.map (· + 1))

/-- **The node of a key** is the one where the key is. -/
theorem getNodeAt_eq {steps : ℕ}
    (h : LinkedList.Chain ListNode.next (NodeList.heap l.nodes) first ps)
    (hvalues : ps.map (fun p ↦ (NodeList.heap l.nodes p).map ListNode.content) = xs.map some)
    (hsteps : ps.length ≤ steps) :
    getNodeAt l key steps first = (locate key xs).map fun i ↦ i.bind fun i ↦ ps[i]? := by
  induction ps generalizing first xs steps with
  | nil =>
    obtain rfl : first = none := h
    obtain rfl : xs = [] := List.map_eq_nil_iff.mp hvalues.symm
    cases steps <;> rfl
  | cons p ps ih =>
    obtain ⟨rfl, node, hnode, hchain⟩ := h
    obtain ⟨steps, rfl⟩ := Nat.exists_eq_add_of_le' hsteps
    obtain ⟨x, xs, rfl, hx, hxs⟩ := List.map_eq_cons_iff.mp hvalues.symm
    have hnode' : l.nodes[p]? = some node := hnode
    dsimp only at hx
    rw [hnode] at hx
    obtain rfl : x = node.content := Option.some.inj hx
    have ih := ih hchain hxs.symm (Nat.le_add_left ps.length steps)
    obtain ⟨⟨nodeKey, value⟩, next⟩ := node
    rw [List.length_cons, ← Nat.add_assoc]
    cases nodeKey with
    | none =>
      simp only [getNodeAt, hnode', Option.bind_eq_bind, Option.bind_some, Option.bind_none, locate,
        Option.map_none]
    | some k =>
      simp only [getNodeAt, hnode', Option.bind_eq_bind, Option.bind_some, locate]
      by_cases hk : k = key
      · rw [if_pos hk, if_pos hk]
        rfl
      · rw [if_neg hk, if_neg hk, ih, Option.map_map]
        congr 1
        funext i
        cases i <;> rfl

theorem locate_append (h : ∀ e ∈ us, e.1 ≠ key) : locate key (us.map Members.named ++ xs) =
    (locate key xs).map (Option.map (· + us.length)) := by
  induction us with
  | nil =>
    rw [List.map_nil, List.nil_append]
    cases locate key xs with
    | none => rfl
    | some i => cases i <;> rfl
  | cons e us ih =>
    have hne := h e List.mem_cons_self
    rw [List.map_cons, List.cons_append, Members.named, locate, if_neg hne,
      ih fun e' he' ↦ h e' (List.mem_cons_of_mem _ he'), Option.map_map]
    congr 1
    funext i
    cases i <;> rfl

theorem locate_of_split (h : m.entries = us ++ (key, v) :: vs) (hus : ∀ e ∈ us, e.1 ≠ key) :
    locate key (m.pairs t) = some (some us.length) := by
  rw [Members.pairs, h, List.map_append, List.append_assoc, locate_append hus, List.map_cons,
    List.cons_append, Members.named, locate, if_pos rfl]
  simp only [Option.map_some, Nat.zero_add]

theorem locate_of_not_mem (h : key ∉ m.keys) :
    locate key (m.pairs t) = if m.nameless then none else some none := by
  have hne : ∀ e ∈ m.entries, e.1 ≠ key := fun e he hk ↦ h (hk ▸ List.mem_map_of_mem he)
  rw [Members.pairs, locate_append hne]
  cases m.nameless <;> rfl

theorem getNodeAt_of_split (h : l.Holds ps (m.pairs t)) (hsplit : m.entries = us ++ (key, v) :: vs)
    (hus : ∀ e ∈ us, e.1 ≠ key) : ∃ p next, ps[us.length]? = some p ∧
      getNodeAt l key l.nodes.length l.firstNode = some (some p) ∧
      l.nodes[p]? = some ⟨(some key, v), next⟩ := by
  have hpair : (m.pairs t)[us.length]? = some (some key, v) := by
    rw [Members.pairs, hsplit, List.map_append, List.append_assoc,
      List.getElem?_append_right (by rw [List.length_map]), List.length_map, Nat.sub_self]
    rfl
  cases hp : ps[us.length]? with
  | none => exact absurd (h.getElem?_eq_none hp) (by rw [hpair]; exact Option.some_ne_none _)
  | some p =>
    obtain ⟨y, next, hy, hnode⟩ := h.getElem? hp
    obtain rfl : (some key, v) = y := Option.some.inj (hpair.symm.trans hy)
    refine ⟨p, next, rfl, ?_, hnode⟩
    rw [getNodeAt_eq h.chain h.values (NodeList.length_le h.chain), locate_of_split hsplit hus,
      Option.map_some, Option.bind_some, hp]

theorem getNodeAt_of_not_mem (h : l.Holds ps (m.pairs t)) (hkey : key ∉ m.keys) :
    getNodeAt l key l.nodes.length l.firstNode = if m.nameless then none else some none := by
  rw [getNodeAt_eq h.chain h.values (NodeList.length_le h.chain), locate_of_not_mem hkey]
  cases m.nameless <;> rfl

omit [DecidableEq K] in
/-- Assigning a value leaves the key. -/
theorem setNodeValue_spec {k : Option K} {next : Option ℕ} (h : l.Holds ps xs)
    (hp : ps[i]? = some p) (hnode : l.nodes[p]? = some ⟨(k, v), next⟩) (value : Argument V) :
    ∃ l', setNodeValue t l p value = some (.success (value.answer t), l') ∧
      l'.Holds ps (xs.set i (k, value.stored t)) := by
  obtain ⟨l', hrun, hl'⟩ := h.setContent_at hp (k, value.stored t)
  refine ⟨l', ?_, hl'⟩
  cases value <;> simp only [Argument.stored] at hrun <;>
    simp only [setNodeValue, hnode, Option.bind_eq_bind, Option.bind_some, hrun, Argument.answer,
      Argument.stored]

omit [DecidableEq K] in
theorem setNodeKey_spec {next : Option ℕ} (h : l.Holds ps xs) (hp : ps[i]? = some p)
    (hnode : l.nodes[p]? = some ⟨(none, v), next⟩) (key : JsonObjectKey K) :
    ∃ l', setNodeKey l p key = some (!(key.needsCopy && !key.memory), l') ∧ l'.Holds ps
      (xs.set i (if key.needsCopy && !key.memory then none else some key.value, v)) := by
  by_cases hcopy : (key.needsCopy && !key.memory) = true
  · obtain ⟨l', hrun, hl'⟩ := h.setContent_at hp (none, v)
    refine ⟨l', ?_, by rwa [if_pos hcopy]⟩
    simp only [setNodeKey, hnode, Option.bind_eq_bind, Option.bind_some, hrun, hcopy]
    rfl
  · obtain ⟨l', hrun, hl'⟩ := h.setContent_at hp (some key.value, v)
    refine ⟨l', ?_, by rwa [if_neg hcopy]⟩
    simp only [setNodeKey, hnode, Option.bind_eq_bind, Option.bind_some, hrun,
      Bool.not_eq_true _ ▸ hcopy]
    rfl

/-- The nodes store the members. -/
def Corresponds (t : VariantType V) {α : Type} :
    Option (α × NodeList (JsonPair K V)) → Option (α × Members K V) → Prop
  | none, none => True
  | some (r, l), some (r', m) => r = r' ∧ ∃ ps, l.Holds ps (m.pairs t)
  | _, _ => False

omit [DecidableEq K] in
/-- What follows on corresponding results corresponds. -/
theorem Corresponds.bind {α β : Type} {x : Option (α × NodeList (JsonPair K V))}
    {y : Option (α × Members K V)}
    {f : α × NodeList (JsonPair K V) → Option (β × NodeList (JsonPair K V))}
    {g : α × Members K V → Option (β × Members K V)} (h : Corresponds t x y)
    (hf : ∀ r l m ps, l.Holds ps (m.pairs t) → Corresponds t (f (r, l)) (g (r, m))) :
    Corresponds t (x.bind f) (y.bind g) := by
  cases x with
  | none =>
    cases y with
    | none => exact h
    | some b => exact h.elim
  | some a =>
    cases y with
    | none => exact h.elim
    | some b =>
      obtain ⟨hr, ps, hl⟩ := h
      obtain ⟨r, m⟩ := b
      obtain rfl : a.1 = r := hr
      exact hf _ _ _ ps hl

theorem assign_pairs {w : V} (hsplit : m.entries = us ++ (key, v) :: vs)
    (hus : ∀ e ∈ us, e.1 ≠ key) (hvs : ∀ e ∈ vs, e.1 ≠ key) :
    (m.assign key w).pairs t = (m.pairs t).set us.length (some key, w) := by
  rw [Members.pairs, Members.assign_entries hsplit hus hvs, Members.pairs, hsplit, List.map_append,
    List.map_append, List.append_assoc, List.append_assoc, List.set_append_right _ _ (by simp),
    List.length_map, Nat.sub_self]
  rfl

theorem remove_pairs (hsplit : m.entries = us ++ (key, v) :: vs)
    (hus : ∀ e ∈ us, e.1 ≠ key) (hvs : ∀ e ∈ vs, e.1 ≠ key) :
    (m.remove key).pairs t = (m.pairs t).eraseIdx us.length := by
  rw [Members.pairs, Members.remove_entries hsplit hus hvs, Members.pairs, hsplit, List.map_append,
    List.map_append, List.append_assoc, List.append_assoc,
    List.eraseIdx_append_of_length_le (by simp), List.length_map, Nat.sub_self]
  rfl

omit [DecidableEq K] in
theorem append_pairs (hkey : key ∉ m.keys) (hnamed : m.nameless = false) :
    (m.append key v hkey).pairs t = m.pairs t ++ [(some key, v)] := by
  have hnamed' : (m.append key v hkey).nameless = false := hnamed
  rw [Members.pairs, Members.pairs, hnamed, hnamed', Members.append, List.map_append]
  simp only [Bool.false_eq_true, if_false, List.append_nil]
  rfl

/-- A call of `set` for a key that is not there. -/
theorem setNodeAt_new (h : l.Holds ps (m.pairs t)) {key : JsonObjectKey K}
    (hkey : key.value ∉ m.keys) (value : Argument V) (memory : Bool) :
    Corresponds t (setNodeAt t l key value memory)
      (memberStep t m (.set key value memory)) := by
  have hnode := getNodeAt_of_not_mem h hkey
  cases hnameless : m.nameless with
  | true =>
    rw [hnameless, if_pos rfl] at hnode
    simp only [setNodeAt, hnode, Option.bind_eq_bind, Option.bind_none, memberStep, dif_neg hkey,
      hnameless, if_true]
    trivial
  | false =>
    rw [hnameless, if_neg Bool.false_ne_true] at hnode
    obtain ⟨⟨l₁, hadd, hl₁⟩, hrefused⟩ := h.addNewNode (none, t.undefined)
    cases memory with
    | false =>
      simp only [setNodeAt, hnode, hrefused, Option.bind_eq_bind, Option.bind_some, memberStep,
        dif_neg hkey, hnameless]
      exact ⟨rfl, ps, h⟩
    | true =>
      have hp : (ps ++ [l.nodes.length])[ps.length]? = some l.nodes.length :=
        List.getElem?_concat_length
      obtain ⟨y, next, hy, hnew⟩ := hl₁.getElem? hp
      rw [h.length, List.getElem?_concat_length] at hy
      obtain rfl := Option.some.inj hy
      obtain ⟨l₂, hrun, hl₂⟩ := setNodeKey_spec hl₁ hp hnew key
      rw [h.length, List.set_append_right _ _ le_rfl, Nat.sub_self] at hl₂
      by_cases hcopy : (key.needsCopy && !key.memory) = true
      · rw [if_pos hcopy] at hl₂
        simp only [setNodeAt, hnode, hadd, Option.bind_eq_bind, Option.bind_some, hrun, memberStep,
          dif_neg hkey, hnameless, hcopy]
        refine ⟨rfl, ps ++ [l.nodes.length], ?_⟩
        have hpairs : m.pairs t ++ [(none, t.undefined)] =
            ({ m with nameless := true } : Members K V).pairs t := by
          rw [Members.pairs, Members.pairs, hnameless]
          simp only [Bool.false_eq_true, if_false, List.append_nil, if_true]
        exact hpairs ▸ hl₂
      · rw [if_neg hcopy] at hl₂
        obtain ⟨z, next', hz, hnamed⟩ := hl₂.getElem? hp
        rw [h.length] at hz
        obtain rfl : (some key.value, t.undefined) = z :=
          Option.some.inj (List.getElem?_concat_length.symm.trans hz)
        obtain ⟨l₃, hset, hl₃⟩ := setNodeValue_spec (t := t) hl₂ hp hnamed value
        rw [h.length, List.set_append_right _ _ le_rfl, Nat.sub_self] at hl₃
        simp only [setNodeAt, hnode, hadd, Option.bind_eq_bind, Option.bind_some, hrun, memberStep,
          dif_neg hkey, hnameless, Bool.not_eq_true _ ▸ hcopy]
        simp only [Bool.not_false, if_true, hset, Bool.not_true, Bool.false_eq_true, if_false]
        exact ⟨rfl, ps ++ [l.nodes.length], append_pairs hkey hnameless ▸ hl₃⟩

theorem get_eq (h : l.Holds ps (m.pairs t)) (key : K) : get t l key =
    if m.Findable key then some ((m.lookup key).getD t.undefined) else none := by
  by_cases hkey : key ∈ m.keys
  · obtain ⟨us, v, vs, hsplit, hus, -⟩ := Members.split hkey
    obtain ⟨p, next, hp, hnode, hcontent⟩ := getNodeAt_of_split h hsplit hus
    have hfind : m.Findable key := Or.inl hkey
    rw [if_pos hfind, Members.lookup_of_split hsplit hus]
    simp only [get, hnode, Option.bind_eq_bind, Option.bind_some, hcontent]
    rfl
  · simp only [get, getNodeAt_of_not_mem h hkey, Members.Findable, hkey, false_or,
      Members.lookup_eq_none hkey]
    cases m.nameless <;> rfl

theorem containsKey_eq (h : l.Holds ps (m.pairs t)) (key : K) : containsKey l key =
    if m.Findable key then some (decide (key ∈ m.keys)) else none := by
  by_cases hkey : key ∈ m.keys
  · obtain ⟨us, v, vs, hsplit, hus, -⟩ := Members.split hkey
    obtain ⟨p, next, hp, hnode, -⟩ := getNodeAt_of_split h hsplit hus
    have hfind : m.Findable key := Or.inl hkey
    rw [if_pos hfind, decide_eq_true hkey, containsKey, hnode]
    rfl
  · rw [containsKey, getNodeAt_of_not_mem h hkey]
    simp only [Members.Findable, hkey, false_or]
    cases m.nameless <;> rfl

/-- **One call** does to the nodes what it does to the members. -/
theorem step_corresponds (h : l.Holds ps (m.pairs t)) (c : Call K V) :
    Corresponds t (step t l c) (memberStep t m c) := by
  cases c with
  | set key value memory =>
    by_cases hkey : key.value ∈ m.keys
    · obtain ⟨us, v, vs, hsplit, hus, hvs⟩ := Members.split hkey
      obtain ⟨p, next, hp, hnode, hcontent⟩ := getNodeAt_of_split h hsplit hus
      obtain ⟨l', hrun, hl'⟩ := setNodeValue_spec (t := t) h hp hcontent value
      simp only [step, setNodeAt, hnode, Option.bind_eq_bind, Option.bind_some, hrun, memberStep,
        dif_pos hkey]
      exact ⟨rfl, ps, assign_pairs hsplit hus hvs ▸ hl'⟩
    · exact setNodeAt_new h hkey value memory
  | get key =>
    rw [step, memberStep, get_eq h]
    split_ifs
    · exact ⟨rfl, ps, h⟩
    · trivial
  | containsKey key =>
    rw [step, memberStep, containsKey_eq h]
    split_ifs
    · exact ⟨rfl, ps, h⟩
    · trivial
  | remove key =>
    by_cases hkey : key ∈ m.keys
    · obtain ⟨us, v, vs, hsplit, hus, hvs⟩ := Members.split hkey
      obtain ⟨p, next, hp, hnode, -⟩ := getNodeAt_of_split h hsplit hus
      obtain ⟨l', hrun, hl'⟩ := h.removeNode_at hp
      have hfind : m.Findable key := Or.inl hkey
      simp only [step, remove, hnode, Option.bind_eq_bind, Option.bind_some, hrun, Option.map_some,
        memberStep, hfind, if_true]
      exact ⟨rfl, ps.eraseIdx us.length, remove_pairs hsplit hus hvs ▸ hl'⟩
    · simp only [step, remove, getNodeAt_of_not_mem h hkey, memberStep, Members.Findable, hkey,
        false_or, Members.remove_eq_self hkey]
      cases m.nameless with
      | true => trivial
      | false => exact ⟨rfl, ps, h⟩
  | size =>
    have hlength : (m.pairs t).length = m.entries.length + m.nameless.toNat := by
      rw [Members.pairs, List.length_append, List.length_map]
      cases m.nameless <;> rfl
    simp only [step, h.size_eq, Option.map_some, memberStep, hlength]
    exact ⟨rfl, ps, h⟩

theorem run_corresponds (h : l.Holds ps (m.pairs t)) (calls : List (Call K V)) :
    Corresponds t (run t l calls) (memberRun t m calls) := by
  induction calls generalizing l m ps with
  | nil => exact ⟨rfl, ps, h⟩
  | cons c cs ih =>
    rw [run, memberRun]
    refine (step_corresponds h c).bind fun r l' m' ps' hl' ↦ ?_
    exact (ih hl').bind fun rs l'' m'' ps'' hl'' ↦ ⟨rfl, ps'', hl''⟩

/-- `JsonVariant`, with texts for its strings. -/
def jsonVariants : VariantType (JsonVariant (List UInt8)) where
  undefined := .undefined
  nullString := .string none
  asBool v := v.asInteger id ≠ 0

/-- A `String` is stored, but `set` answers whether it reads as a number other than zero. -/
example : (memberStep jsonVariants Members.new
    (.set ⟨1, false, false⟩ (.copied (.string (some [0x61])) true) true)).map (·.1) =
      some (.success false) := rfl

end JsonObject

/-! ## Objects as dictionaries -/

namespace Members

variable [DecidableEq K] {m : Members K V} {key key' : K} {v w : V} {us vs : List (K × V)}

/-- Members with other keys do not matter for a key. -/
theorem find_of_ne (hne : key' ≠ key) :
    (us ++ (key, v) :: vs).find? (fun e ↦ e.1 = key') = (us ++ vs).find? fun e ↦ e.1 = key' := by
  rw [List.find?_append, List.find?_append, List.find?_cons_of_neg]
  simpa using hne.symm

theorem lookup_isSome : (m.lookup key).isSome = decide (key ∈ m.keys) := by
  by_cases h : key ∈ m.keys
  · obtain ⟨us, v, vs, hsplit, hus, -⟩ := split h
    rw [lookup_of_split hsplit hus, decide_eq_true h]
    rfl
  · rw [lookup_eq_none h, decide_eq_false h]
    rfl

theorem lookup_assign (h : key ∈ m.keys) :
    (m.assign key w).lookup = Function.update m.lookup key (some w) := by
  obtain ⟨us, v, vs, hsplit, hus, hvs⟩ := split h
  have hassigned := assign_entries (w := w) hsplit hus hvs
  funext k
  rcases eq_or_ne k key with rfl | hne
  · rw [Function.update_self, lookup_of_split hassigned hus]
  · rw [Function.update_of_ne hne, lookup, lookup, hassigned, hsplit, find_of_ne hne,
      find_of_ne hne]

theorem lookup_append (h : key ∉ m.keys) :
    (m.append key v h).lookup = Function.update m.lookup key (some v) := by
  have hentries : (m.append key v h).entries = m.entries ++ (key, v) :: [] := rfl
  funext k
  rcases eq_or_ne k key with rfl | hne
  · rw [Function.update_self]
    exact lookup_of_split hentries fun e he hk ↦ h (hk ▸ List.mem_map_of_mem he)
  · rw [Function.update_of_ne hne, lookup, hentries, find_of_ne hne, List.append_nil]
    rfl

theorem lookup_remove : (m.remove key).lookup = Function.update m.lookup key none := by
  funext k
  by_cases h : key ∈ m.keys
  · obtain ⟨us, v, vs, hsplit, hus, hvs⟩ := split h
    have hremoved := remove_entries hsplit hus hvs
    rcases eq_or_ne k key with rfl | hne
    · rw [Function.update_self]
      refine lookup_eq_none fun hmem ↦ ?_
      rw [keys, hremoved] at hmem
      obtain ⟨e, he, hk⟩ := List.mem_map.mp hmem
      exact (List.mem_append.mp he).elim (fun he ↦ hus e he hk) fun he ↦ hvs e he hk
    · rw [Function.update_of_ne hne, lookup, lookup, hremoved, hsplit, find_of_ne hne]
  · rw [remove_eq_self h]
    rcases eq_or_ne k key with rfl | hne
    · rw [Function.update_self, lookup_eq_none h]
    · rw [Function.update_of_ne hne]

end Members

namespace JsonObject

variable [DecidableEq K]

/-- A key that has to be copied finds memory. -/
def Call.KeepsKey : Call K V → Prop
  | .set key _ _ => key.needsCopy = true → key.memory = true
  | _ => True

/-- What a call stores in a dictionary: the value of a key that is new, if there is memory for a
node, or of one that is there. -/
def remember (f : K → Option V) : Call K V → K → Option V
  | .set key value memory =>
    if (f key.value).isSome || memory then Function.update f key.value (some (value.stored t))
    else f
  | .remove key => Function.update f key none
  | _ => f

variable {t} {m : Members K V}

/-- One call, as long as no key lacks memory. -/
theorem memberStep_remember {c : Call K V} (hc : c.KeepsKey) (hm : m.nameless = false) :
    ∃ r m', memberStep t m c = some (r, m') ∧ m'.nameless = false ∧
      m'.lookup = remember t m.lookup c := by
  cases c with
  | set key value memory =>
    have hcopy : (key.needsCopy && !key.memory) = false := by
      cases hneeds : key.needsCopy with
      | true => rw [hc hneeds]; rfl
      | false => rfl
    rw [memberStep, remember, Members.lookup_isSome]
    by_cases hkey : key.value ∈ m.keys
    · rw [dif_pos hkey, decide_eq_true hkey, Bool.true_or, if_pos rfl]
      exact ⟨_, _, rfl, hm, Members.lookup_assign hkey⟩
    · rw [dif_neg hkey, decide_eq_false hkey, Bool.false_or, hm, if_neg Bool.false_ne_true, hcopy,
        if_neg (c := false = true) Bool.false_ne_true]
      cases memory with
      | true => exact ⟨_, _, rfl, hm, Members.lookup_append hkey⟩
      | false => exact ⟨_, _, rfl, hm, rfl⟩
  | get key => exact ⟨_, m, if_pos (Or.inr hm), hm, rfl⟩
  | containsKey key => exact ⟨_, m, if_pos (Or.inr hm), hm, rfl⟩
  | remove key => exact ⟨_, m.remove key, if_pos (Or.inr hm), hm, Members.lookup_remove⟩
  | size => exact ⟨_, m, rfl, hm, rfl⟩

theorem memberRun_remember {calls : List (Call K V)} (h : ∀ c ∈ calls, c.KeepsKey)
    (hm : m.nameless = false) : ∃ rs m', memberRun t m calls = some (rs, m') ∧
      m'.nameless = false ∧ m'.lookup = calls.foldl (remember t) m.lookup := by
  induction calls generalizing m with
  | nil => exact ⟨[], m, rfl, hm, rfl⟩
  | cons c cs ih =>
    obtain ⟨r, m₁, hstep, hm₁, hlookup⟩ := memberStep_remember (t := t) (h c List.mem_cons_self) hm
    obtain ⟨rs, m₂, hrun, hm₂, hrest⟩ := ih (fun c hc ↦ h c (List.mem_cons_of_mem _ hc)) hm₁
    refine ⟨r :: rs, m₂, ?_, hm₂, ?_⟩
    · simp only [memberRun, hstep, hrun, Option.bind_eq_bind, Option.bind_some]
    · rw [hrest, hlookup, List.foldl_cons]

/-- A member that is set twice, and one that is removed. -/
def fourCalls : List (Call ℕ (JsonVariant (List UInt8))) :=
  [.set ⟨1, true, true⟩ (.plain (.integer 3)) true, .set ⟨2, false, false⟩ (.plain .undefined) true,
    .set ⟨1, false, false⟩ (.plain (.integer 4)) false, .remove 2]

end JsonObject

end DuoFirmware.Json
