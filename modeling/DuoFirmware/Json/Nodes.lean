import DuoFirmware.Json.Scalars
import DuoFirmware.Lib.LinkedList

/-!
# Linked lists of nodes

`List`, which `JsonArray` and `JsonObject` are derived from, keeps its values in nodes that a
`JsonBuffer` hands out and never takes back. Its operations do to the values in order what they
would do to a list.
-/

namespace DuoFirmware.Json

open LinkedList

structure ListNode (T : Type) where
  content : T
  next : Option ℕ

/-- `List`; a pointer is the number of a node among those that were handed out. -/
structure NodeList (T : Type) where
  firstNode : Option ℕ
  nodes : List (ListNode T)

namespace NodeList

variable {T : Type} (l : NodeList T)

def new : NodeList T := ⟨none, []⟩

def heap (nodes : List (ListNode T)) (p : ℕ) : Option (ListNode T) := nodes[p]?

/-- `size`, as long as no pointer leads nowhere. -/
def size : Option ℕ :=
  walk ListNode.next (heap l.nodes) (fun nodeCount _ ↦ nodeCount + 1) l.nodes.length 0 l.firstNode

/-- `addNewNode`; `memory` says whether the buffer has room for a node. -/
def addNewNode (content : T) (memory : Bool) : Option (Option ℕ × NodeList T) :=
  let newNode := if memory then some l.nodes.length else none
  let nodes := if memory then l.nodes ++ [⟨content, none⟩] else l.nodes
  match l.firstNode with
  | none => some (newNode, ⟨newNode, nodes⟩)
  | some first => do
    let lastNode ← walk ListNode.next (heap nodes) (fun _ p ↦ p) nodes.length first (some first)
    let node ← nodes[lastNode]?
    some (newNode, ⟨some first, nodes.set lastNode { node with next := newNode }⟩)

def removeLoop (nodeToRemove : ℕ) :
    ℕ → Option ℕ → List (ListNode T) → Option (List (ListNode T))
  | _, none, nodes => some nodes
  | 0, some _, _ => none
  | steps + 1, some p, nodes => do
    let node ← nodes[p]?
    if node.next = some nodeToRemove then
      let removed ← nodes[nodeToRemove]?
      removeLoop nodeToRemove steps removed.next (nodes.set p { node with next := removed.next })
    else removeLoop nodeToRemove steps node.next nodes

def removeNode (nodeToRemove : Option ℕ) : Option (NodeList T) :=
  match nodeToRemove with
  | none => some l
  | some q => do
    if l.firstNode = some q then
      let removed ← l.nodes[q]?
      some { l with firstNode := removed.next }
    else
      let nodes ← removeLoop q l.nodes.length l.firstNode l.nodes
      some { l with nodes := nodes }

/-- The content of a node is replaced. -/
def setContent (p : ℕ) (content : T) : Option (NodeList T) := do
  let node ← l.nodes[p]?
  some { l with nodes := l.nodes.set p { node with content := content } }

/-! ## Nodes and values -/

/-- The nodes `ps` of the list, in order, hold the values `xs`. -/
structure Holds (l : NodeList T) (ps : List ℕ) (xs : List T) : Prop where
  chain : Chain ListNode.next (heap l.nodes) l.firstNode ps
  values : ps.map (fun p ↦ (heap l.nodes p).map ListNode.content) = xs.map some

theorem holds_new : Holds (new : NodeList T) [] [] := ⟨rfl, rfl⟩

variable {l} {nodes : List (ListNode T)} {node : ListNode T} {ps qs : List ℕ} {xs ys : List T}
  {p q : ℕ} {x y : T} {first : Option ℕ}

theorem heap_append : heap (nodes ++ [node]) = Function.update (heap nodes) nodes.length node := by
  funext p
  rcases lt_trichotomy p nodes.length with hp | rfl | hp
  · rw [Function.update_of_ne hp.ne, heap, List.getElem?_append_left hp]
    rfl
  · rw [Function.update_self, heap, List.getElem?_append_right le_rfl, Nat.sub_self]
    rfl
  · rw [Function.update_of_ne hp.ne', heap, heap, List.getElem?_eq_none (by simp; omega),
      List.getElem?_eq_none hp.le]

theorem heap_set (hp : p < nodes.length) :
    heap (nodes.set p node) = Function.update (heap nodes) p node := by
  funext q
  rcases eq_or_ne q p with rfl | hne
  · rw [Function.update_self, heap, List.getElem?_set_self hp]
  · rw [Function.update_of_ne hne, heap, List.getElem?_set_ne hne.symm]
    rfl

theorem lt_of_heap (h : heap nodes p = some node) : p < nodes.length :=
  (List.getElem?_eq_some_iff.mp h).1

/-- All nodes of a chain were handed out, so there are not more of them. -/
theorem lt_of_mem (h : Chain ListNode.next (heap nodes) first ps) (hp : p ∈ ps) :
    p < nodes.length := by
  obtain ⟨node, hnode⟩ := h.mem hp
  exact lt_of_heap hnode

theorem length_le (h : Chain ListNode.next (heap nodes) first ps) : ps.length ≤ nodes.length := by
  have hsub : ps ⊆ List.range nodes.length := fun p hp ↦ List.mem_range.mpr (lt_of_mem h hp)
  exact (h.nodup.subperm hsub).length_le.trans_eq List.length_range

theorem Holds.length (h : Holds l ps xs) : ps.length = xs.length := by
  have hlen := congrArg List.length h.values
  rwa [List.length_map, List.length_map] at hlen

/-- **The size** is the number of values. -/
theorem Holds.size_eq (h : Holds l ps xs) : l.size = some xs.length := by
  rw [size, h.chain.walk_eq (length_le h.chain), ← h.length]
  have hcount (qs : List ℕ) (n : ℕ) :
      qs.foldl (fun nodeCount _ ↦ nodeCount + 1) n = n + qs.length := by
    induction qs generalizing n with
    | nil => rfl
    | cons q qs ih => rw [List.foldl_cons, ih, List.length_cons, Nat.add_assoc, Nat.add_comm 1]
  rw [hcount, Nat.zero_add]

/-- What the values are depends on the nodes of the list only. -/
theorem values_congr {heap' : ℕ → Option (ListNode T)}
    (hvalues : ps.map (fun p ↦ (heap nodes p).map ListNode.content) = xs.map some)
    (h : ∀ p ∈ ps, (heap' p).map ListNode.content = (heap nodes p).map ListNode.content) :
    ps.map (fun p ↦ (heap' p).map ListNode.content) = xs.map some :=
  (List.map_congr_left h).trans hvalues

/-- Nodes and values in front of a node, and behind it. -/
theorem Holds.split (h : Holds l ps (xs ++ y :: ys)) : ∃ as q bs, ps = as ++ q :: bs ∧
    as.length = xs.length ∧ ∃ next, heap l.nodes q = some ⟨y, next⟩ := by
  obtain ⟨hchain, hvalues⟩ := h
  rw [List.map_append, List.map_cons] at hvalues
  obtain ⟨as, cs, rfl, has, hcs⟩ := List.map_eq_append_iff.mp hvalues
  obtain ⟨q, bs, rfl, hq, -⟩ := List.map_eq_cons_iff.mp hcs
  have hlen := congrArg List.length has
  rw [List.length_map, List.length_map] at hlen
  obtain ⟨node, hnode, hcontent⟩ := Option.map_eq_some_iff.mp hq
  exact ⟨as, q, bs, rfl, hlen, node.next, by rw [hnode, ← hcontent]⟩

/-! ## Adding a node -/

/-- A new node is not in a list yet. -/
theorem length_not_mem (h : Chain ListNode.next (heap nodes) first ps) : nodes.length ∉ ps :=
  fun hmem ↦ (lt_of_mem h hmem).false

/-- The last node of a list with nodes is found from its first node on. -/
theorem walk_last (h : Chain ListNode.next (heap nodes) (some p) (ps ++ [q])) :
    walk ListNode.next (heap nodes) (fun _ p ↦ p) nodes.length p (some p) = some q ∧
      ∃ node, nodes[q]? = some node ∧ node.next = none := by
  obtain ⟨-, node, hnode, hnext⟩ := h.suffix
  refine ⟨?_, node, hnode, hnext⟩
  rw [h.walk_eq (length_le h), List.foldl_append]
  rfl

/-- `addNewNode` when the last node is known. -/
theorem addNewNode_last (x : T) (memory : Bool) {nodes' : List (ListNode T)}
    {newNode : Option ℕ} (hnew : newNode = if memory then some nodes.length else none)
    (hnodes : nodes' = if memory then nodes ++ [⟨x, none⟩] else nodes)
    (hwalk : walk ListNode.next (heap nodes') (fun _ p ↦ p) nodes'.length p (some p) = some q)
    (hnode : nodes'[q]? = some node) : addNewNode ⟨some p, nodes⟩ x memory =
      some (newNode, ⟨some p, nodes'.set q { node with next := newNode }⟩) := by
  simp only [addNewNode, ← hnodes, ← hnew, hwalk, Option.bind_eq_bind, Option.bind_some, hnode]

/-- The last node is linked to a new one. -/
theorem holds_linked (hchain : Chain ListNode.next (heap nodes) first (ps ++ [q]))
    (hvalues : (ps ++ [q]).map (fun p ↦ (heap nodes p).map ListNode.content) = xs.map some)
    (hnode : nodes[q]? = some node) (hnext : node.next = none) :
    Holds ⟨first, (nodes ++ [(⟨x, none⟩ : ListNode T)]).set q
      { node with next := some nodes.length }⟩
      (ps ++ [q] ++ [nodes.length]) (xs ++ [x]) := by
  have hq : q < nodes.length := lt_of_heap hnode
  have hnew := length_not_mem hchain
  have hheap : heap ((nodes ++ [(⟨x, none⟩ : ListNode T)]).set q
      { node with next := some nodes.length }) =
      Function.update (Function.update (heap nodes) nodes.length (some ⟨x, none⟩)) q
        (some { node with next := some nodes.length }) := by
    rw [heap_set (by rw [List.length_append]; omega), heap_append]
  have hb : ({ node with next := some nodes.length } : ListNode T).next = some nodes.length := rfl
  have he : (⟨x, none⟩ : ListNode T).next = node.next := hnext.symm
  refine ⟨?_, ?_⟩
  · rw [List.append_assoc]
    refine hchain.insert hnew hnode hb he ?_ ?_ ?_
    · intro r hrq hr
      rw [hheap, Function.update_of_ne hrq, Function.update_of_ne hr]
    · rw [hheap, Function.update_self]
    · rw [hheap, Function.update_of_ne hq.ne', Function.update_self]
  · have hxs : (xs ++ [x]).map some = xs.map some ++ [some x] := List.map_append
    rw [hheap, List.map_append, hxs]
    congr 1
    · refine values_congr hvalues fun r hr ↦ ?_
      rcases eq_or_ne r q with rfl | hrq
      · rw [Function.update_self, heap, hnode]
        rfl
      · rw [Function.update_of_ne hrq, Function.update_of_ne (ne_of_mem_of_not_mem hr hnew)]
    · rw [List.map_singleton, Function.update_of_ne hq.ne', Function.update_self]
      rfl

/-- Linking the last node to none leaves it. -/
theorem set_last (hnode : nodes[q]? = some node) (hnext : node.next = none) :
    nodes.set q { node with next := none } = nodes := by
  refine List.ext_getElem? fun i ↦ ?_
  rcases eq_or_ne q i with rfl | hi
  · rw [List.getElem?_set_self (lt_of_heap hnode), hnode, ← hnext]
  · rw [List.getElem?_set_ne hi]

/-- **A new node** is put behind the others; without room for it nothing changes. -/
theorem Holds.addNewNode (h : Holds l ps xs) (x : T) :
    (∃ l', l.addNewNode x true = some (some l.nodes.length, l') ∧
        Holds l' (ps ++ [l.nodes.length]) (xs ++ [x])) ∧
      l.addNewNode x false = some (none, l) := by
  obtain ⟨first, nodes⟩ := l
  obtain ⟨hchain, hvalues⟩ := h
  dsimp only at hchain hvalues ⊢
  rcases List.eq_nil_or_concat ps with rfl | ⟨ps, a, rfl⟩
  · obtain rfl : first = none := hchain
    obtain rfl : xs = [] := List.map_eq_nil_iff.mp hvalues.symm
    have hnode : heap (nodes ++ [⟨x, none⟩]) nodes.length = some ⟨x, none⟩ := by
      rw [heap_append, Function.update_self]
    refine ⟨⟨⟨some nodes.length, nodes ++ [⟨x, none⟩]⟩, rfl, ?_, ?_⟩, rfl⟩
    · exact ⟨rfl, ⟨x, none⟩, hnode, rfl⟩
    · exact congrArg (fun n ↦ [Option.map ListNode.content n]) hnode
  · rw [List.concat_eq_append] at hchain hvalues ⊢
    obtain ⟨p, rfl⟩ : ∃ p, first = some p := by
      have hhead := hchain.head
      cases ps with
      | nil => exact ⟨a, hhead⟩
      | cons p ps => exact ⟨p, hhead⟩
    have hchain' : Chain ListNode.next (heap (nodes ++ [⟨x, none⟩])) (some p) (ps ++ [a]) := by
      rw [heap_append]
      exact hchain.update_of_not_mem (length_not_mem hchain) _
    obtain ⟨hwalk, node, hnode, hnext⟩ := walk_last hchain
    obtain ⟨hwalk', node', hnode', -⟩ := walk_last hchain'
    obtain rfl : node = node' := by
      rw [List.getElem?_append_left (lt_of_heap hnode), hnode] at hnode'
      exact Option.some.inj hnode'
    constructor
    · exact ⟨_, addNewNode_last x true (if_pos rfl).symm (if_pos rfl).symm hwalk' hnode',
        holds_linked hchain hvalues hnode hnext⟩
    · have hrun := addNewNode_last x false rfl rfl hwalk hnode
      simp only [Bool.false_eq_true, if_false] at hrun
      rw [hrun, set_last hnode hnext]

/-! ## Replacing a content -/

/-- Where the value behind `xs` is. -/
theorem Holds.at_append (h : Holds l (ps ++ q :: qs) (xs ++ y :: ys))
    (hps : ps.length = xs.length) :
    ps.map (fun p ↦ (heap l.nodes p).map ListNode.content) = xs.map some ∧
      (∃ next, l.nodes[q]? = some ⟨y, next⟩) ∧
        qs.map (fun p ↦ (heap l.nodes p).map ListNode.content) = ys.map some := by
  have hvalues := h.values
  rw [List.map_append, List.map_append, List.map_cons, List.map_cons] at hvalues
  obtain ⟨hleft, hright⟩ := List.append_inj hvalues (by rw [List.length_map, List.length_map, hps])
  obtain ⟨hq, hqs⟩ := List.cons.inj hright
  obtain ⟨node, hnode, rfl⟩ := Option.map_eq_some_iff.mp hq
  exact ⟨hleft, ⟨node.next, hnode⟩, hqs⟩

/-- **The content of a node** is the value at its place. -/
theorem Holds.setContent (h : Holds l (ps ++ q :: qs) (xs ++ y :: ys)) (hps : ps.length = xs.length)
    (x : T) : ∃ l', l.setContent q x = some l' ∧ Holds l' (ps ++ q :: qs) (xs ++ x :: ys) := by
  obtain ⟨hleft, ⟨next, hnode⟩, hright⟩ := h.at_append hps
  have hq : q < l.nodes.length := lt_of_heap hnode
  have hnodup := h.chain.nodup
  have hheap : heap (l.nodes.set q ⟨x, next⟩) = Function.update (heap l.nodes) q (some ⟨x, next⟩) :=
    heap_set hq
  have hother : ∀ r, r ≠ q → heap (l.nodes.set q ⟨x, next⟩) r = heap l.nodes r := by
    intro r hr
    rw [hheap, Function.update_of_ne hr]
  have hself : heap (l.nodes.set q ⟨x, next⟩) q = some ⟨x, next⟩ := by
    rw [hheap, Function.update_self]
  refine ⟨{ l with nodes := l.nodes.set q ⟨x, next⟩ }, ?_, ?_, ?_⟩
  · simp only [NodeList.setContent, hnode, Option.bind_eq_bind, Option.bind_some]
  · refine h.chain.congr fun r _ ↦ ?_
    rcases eq_or_ne r q with rfl | hr
    · rw [hself]
      exact (congrArg (Option.map ListNode.next) hnode).symm
    · rw [hother r hr]
  · obtain ⟨-, hnodup', hcross⟩ := List.nodup_append.mp hnodup
    have hqs := (List.nodup_cons.mp hnodup').1
    rw [List.map_append, List.map_append, List.map_cons, List.map_cons]
    refine congrArg₂ (· ++ ·) (values_congr hleft fun r hr ↦ ?_) (congrArg₂ List.cons ?_ ?_)
    · rw [hother r fun hrq ↦ hcross r hr q List.mem_cons_self hrq]
    · rw [hself]
      rfl
    · refine values_congr hright fun r hr ↦ ?_
      rw [hother r (ne_of_mem_of_not_mem hr hqs)]

/-! ## Removing a node -/

/-- Nodes that are not in front of the removed one are passed. -/
theorem removeLoop_skip {steps : ℕ} (hnode : nodes[p]? = some node) (hnext : node.next ≠ some q) :
    removeLoop q (steps + 1) (some p) nodes = removeLoop q steps node.next nodes := by
  simp only [removeLoop, hnode, Option.bind_eq_bind, Option.bind_some, if_neg hnext]

/-- Nothing changes when the removed node does not follow. -/
theorem removeLoop_of_not_mem {steps : ℕ} (h : Chain ListNode.next (heap nodes) first ps)
    (hq : q ∉ ps) (hsteps : ps.length ≤ steps) : removeLoop q steps first nodes = some nodes := by
  induction ps generalizing first steps with
  | nil =>
    obtain rfl : first = none := h
    cases steps <;> rfl
  | cons p ps ih =>
    obtain ⟨rfl, node, hnode, hchain⟩ := h
    obtain ⟨steps, rfl⟩ := Nat.exists_eq_add_of_le' hsteps
    have hnext : node.next ≠ some q := by
      rw [hchain.head]
      intro hhead
      exact hq (List.mem_cons_of_mem _ (List.mem_of_mem_head? hhead))
    rw [List.length_cons, ← Nat.add_assoc, removeLoop_skip hnode hnext]
    exact ih hchain (fun hmem ↦ hq (List.mem_cons_of_mem _ hmem)) (Nat.le_add_left ..)

/-- A node that has another one in front of it is not the first. -/
theorem head?_ne {a : ℕ} (h : (ps ++ a :: q :: qs).Nodup) :
    (ps ++ a :: q :: qs).head? ≠ some q := by
  intro hhead
  cases ps with
  | nil =>
    obtain rfl : a = q := Option.some.inj hhead
    exact (List.nodup_cons.mp h).1 List.mem_cons_self
  | cons r ps =>
    obtain rfl : r = q := Option.some.inj hhead
    exact (List.nodup_cons.mp h).1 (by simp)

/-- The node in front of the removed one is the one that changes. -/
theorem removeLoop_found {a : ℕ} {removed : ListNode T} {steps : ℕ}
    (h : Chain ListNode.next (heap nodes) first (ps ++ a :: q :: qs)) (ha : nodes[a]? = some node)
    (hremoved : nodes[q]? = some removed) (hsteps : (ps ++ a :: q :: qs).length ≤ steps) :
    removeLoop q steps first nodes = some (nodes.set a { node with next := removed.next }) := by
  have hnodup := h.nodup
  induction ps generalizing first steps with
  | nil =>
    obtain ⟨rfl, node', ha', hlink, removed', hremoved', hchain⟩ := h
    obtain rfl : node = node' := Option.some.inj (ha.symm.trans ha')
    obtain rfl : removed = removed' := Option.some.inj (hremoved.symm.trans hremoved')
    obtain ⟨steps, rfl⟩ := Nat.exists_eq_add_of_le' hsteps
    obtain ⟨hmem, hnodup⟩ := List.nodup_cons.mp hnodup
    have hqs : q ∉ qs := (List.nodup_cons.mp hnodup).1
    have haqs : a ∉ qs := fun hc ↦ hmem (List.mem_cons_of_mem _ hc)
    have hrest : Chain ListNode.next (heap (nodes.set a { node with next := removed.next }))
        removed.next qs := by
      rw [heap_set (lt_of_heap ha)]
      exact hchain.update_of_not_mem haqs _
    have hlength : qs.length ≤ steps + (q :: qs).length := by
      rw [List.length_cons]
      omega
    rw [List.nil_append, List.length_cons, ← Nat.add_assoc]
    simp only [removeLoop, ha, hremoved, Option.bind_eq_bind, Option.bind_some, if_pos hlink]
    exact removeLoop_of_not_mem hrest hqs hlength
  | cons p ps ih =>
    obtain ⟨rfl, node', hp, hchain⟩ := h
    obtain ⟨steps, rfl⟩ := Nat.exists_eq_add_of_le' hsteps
    obtain ⟨-, hnodup⟩ := List.nodup_cons.mp hnodup
    -- the link leads to the next of `ps` or to `a`, but not yet to `q`
    have hnext : node'.next ≠ some q := by
      rw [hchain.head]
      exact head?_ne hnodup
    rw [List.cons_append, List.length_cons, ← Nat.add_assoc, removeLoop_skip hp hnext]
    exact ih hchain (Nat.le_add_left ..) hnodup

/-- **A removed node** is left out of the chain. -/
theorem Holds.removeNode (h : Holds l (ps ++ q :: qs) (xs ++ y :: ys))
    (hps : ps.length = xs.length) :
    ∃ l', l.removeNode (some q) = some l' ∧ Holds l' (ps ++ qs) (xs ++ ys) := by
  obtain ⟨hleft, ⟨next, hnode⟩, hright⟩ := h.at_append hps
  obtain ⟨hchain, -⟩ := h
  rcases List.eq_nil_or_concat ps with rfl | ⟨ps, a, rfl⟩
  · obtain rfl : xs = [] := List.eq_nil_of_length_eq_zero hps.symm
    obtain ⟨hfirst, node, hnode', hrest⟩ := hchain
    obtain rfl : node = ⟨y, next⟩ := Option.some.inj (hnode'.symm.trans hnode)
    refine ⟨{ l with firstNode := next }, ?_, hrest, hright⟩
    simp only [NodeList.removeNode, if_pos hfirst, hnode, Option.bind_eq_bind, Option.bind_some]
  · rw [List.concat_eq_append] at hchain hleft ⊢
    rw [List.append_assoc] at hchain
    have hnodup := hchain.nodup
    obtain ⟨node, ha⟩ := hchain.mem (q := a) (by simp)
    have hrun := removeLoop_found hchain ha hnode (length_le hchain)
    have hfirst : l.firstNode ≠ some q := by
      rw [hchain.head]
      exact head?_ne hnodup
    have hb : ({ node with next := next } : ListNode T).next = (⟨y, next⟩ : ListNode T).next := rfl
    have hcontent : ∀ r, (heap (l.nodes.set a { node with next := next }) r).map ListNode.content =
        (heap l.nodes r).map ListNode.content := by
      intro r
      rw [heap_set (lt_of_heap ha)]
      rcases eq_or_ne r a with rfl | hr
      · rw [Function.update_self, ha]
        rfl
      · rw [Function.update_of_ne hr]
    refine ⟨{ l with nodes := l.nodes.set a { node with next := next } }, ?_, ?_, ?_⟩
    · simp only [NodeList.removeNode, if_neg hfirst, hrun, Option.bind_eq_bind, Option.bind_some]
    · rw [List.append_assoc]
      dsimp only
      rw [heap_set (lt_of_heap ha)]
      exact hchain.unlink hnode hb
    · have hvalues := congrArg₂ (· ++ ·) (values_congr hleft fun r _ ↦ hcontent r)
        (values_congr hright fun r _ ↦ hcontent r)
      exact List.map_append.trans (hvalues.trans List.map_append.symm)

/-! ## Places in the list -/

/-- A place in the list, with what is in front of it and behind it. -/
theorem Holds.place {i : ℕ} (h : Holds l ps xs) (hq : ps[i]? = some q) :
    ∃ as bs us y vs, ps = as ++ q :: bs ∧ xs = us ++ y :: vs ∧ as.length = i ∧ us.length = i := by
  obtain ⟨hi, rfl⟩ := List.getElem?_eq_some_iff.mp hq
  have hi' : i < xs.length := h.length ▸ hi
  refine ⟨ps.take i, ps.drop (i + 1), xs.take i, xs[i], xs.drop (i + 1), ?_, ?_, ?_, ?_⟩
  · rw [List.cons_getElem_drop_succ, List.take_append_drop]
  · rw [List.cons_getElem_drop_succ, List.take_append_drop]
  · exact List.length_take_of_le hi.le
  · exact List.length_take_of_le hi'.le

theorem Holds.getElem? {i : ℕ} (h : Holds l ps xs) (hq : ps[i]? = some q) :
    ∃ y next, xs[i]? = some y ∧ l.nodes[q]? = some ⟨y, next⟩ := by
  obtain ⟨as, bs, us, y, vs, rfl, rfl, has, rfl⟩ := h.place hq
  obtain ⟨-, ⟨next, hnode⟩, -⟩ := h.at_append has
  exact ⟨y, next, List.getElem?_append_right le_rfl ▸ by rw [Nat.sub_self]; rfl, hnode⟩

theorem Holds.getElem?_eq_none {i : ℕ} (h : Holds l ps xs) (hi : ps[i]? = none) :
    xs[i]? = none := by
  rw [List.getElem?_eq_none_iff] at hi ⊢
  exact h.length ▸ hi

theorem Holds.setContent_at {i : ℕ} (h : Holds l ps xs) (hq : ps[i]? = some q) (x : T) :
    ∃ l', l.setContent q x = some l' ∧ Holds l' ps (xs.set i x) := by
  obtain ⟨as, bs, us, y, vs, rfl, rfl, has, rfl⟩ := h.place hq
  rw [List.set_append_right _ _ le_rfl, Nat.sub_self, List.set_cons_zero]
  exact h.setContent has x

theorem Holds.removeNode_at {i : ℕ} (h : Holds l ps xs) (hq : ps[i]? = some q) :
    ∃ l', l.removeNode (some q) = some l' ∧ Holds l' (ps.eraseIdx i) (xs.eraseIdx i) := by
  obtain ⟨as, bs, us, y, vs, rfl, rfl, has, rfl⟩ := h.place hq
  rw [List.eraseIdx_append_of_length_le le_rfl, Nat.sub_self,
    List.eraseIdx_append_of_length_le has.le, has, Nat.sub_self]
  exact h.removeNode has

end NodeList

end DuoFirmware.Json
