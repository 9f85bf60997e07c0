import DuoFirmware.Comm.CoapMessageStore

/-!
# The message store is a keyed list

`Linked` says that the messages of a store are a given list of addresses, newest first: they form a
chain that ends, no two have the same id, and every other message has a null link. Each function of
the store keeps it, and returns. From this the store can be told apart from a map of ids to
messages only by the order of its list, which no removal changes.
-/

namespace DuoFirmware.Comm.CoAPMessageStore

open LinkedList

variable {s s' : CoAPMessageStore} {p q : Ptr} {ps : List Ptr} {m : CoAPMessage} {id : UInt16}

/-! ## Messages and their links -/

/-- A message apart from its link. -/
def content (s : CoAPMessageStore) (p : Ptr) : Option CoAPMessage :=
  (s.heap p).map fun m ↦ { m with next := none }

def idOf (s : CoAPMessageStore) (p : Ptr) : Option UInt16 := (s.heap p).map CoAPMessage.id

theorem idOf_of_content (h : s'.content p = s.content p) : s'.idOf p = s.idOf p := by
  have hid : ∀ t : CoAPMessageStore, t.idOf p = (t.content p).map CoAPMessage.id := fun t ↦ by
    rw [idOf, content, Option.map_map]
    rfl
  rw [hid, hid, h]

theorem exists_of_content (h : s'.content p = s.content p) (hm : s.heap p = some m) :
    ∃ m', s'.heap p = some m' ∧ m'.id = m.id := by
  rw [content, content, hm, Option.map_some, Option.map_eq_some_iff] at h
  obtain ⟨m', hm', heq⟩ := h
  exact ⟨m', hm', (congrArg CoAPMessage.id heq : _)⟩

theorem heap_put_self (p : Ptr) (o : Option CoAPMessage) : (s.put p o).heap p = o :=
  Function.update_self ..

theorem heap_put_of_ne (h : p ≠ q) (o : Option CoAPMessage) : (s.put q o).heap p = s.heap p :=
  Function.update_of_ne h ..

theorem setNext_eq (h : s.heap p = some m) (next : Option Ptr) :
    s.setNext p next = some (s.put p (some { m with next := next })) := by
  rw [setNext, h]
  rfl

theorem delete_some_eq (h : s.heap p = some m) : s.delete (some p) = some (s.put p none) := by
  rw [delete, h]
  rfl

/-- Writing the link of a message changes no content. -/
theorem content_put (h : s.heap p = some m) (next : Option Ptr) (q : Ptr) :
    (s.put p (some { m with next := next })).content q = s.content q := by
  rw [content, content]
  by_cases hq : q = p
  · subst hq
    rw [heap_put_self, h]
    rfl
  · rw [heap_put_of_ne hq]

/-! ## The list of a store -/

/-- The messages of the store are `ps`. -/
structure Linked (s : CoAPMessageStore) (ps : List Ptr) : Prop where
  chain : Chain CoAPMessage.next s.heap s.head ps
  distinct : (ps.map s.idOf).Nodup
  unlinked : ∀ p m, s.heap p = some m → p ∉ ps → m.next = none

theorem linked_empty : Linked empty [] := ⟨rfl, List.nodup_nil, fun _ _ h ↦ by cases h⟩

theorem Linked.nodup (h : Linked s ps) : ps.Nodup := h.chain.nodup

theorem length_le_addresses (h : ps.Nodup) : ps.length ≤ addresses := by
  have hnodup : (ps.map UInt32.toFin).Nodup := h.map fun a b hab ↦ UInt32.toFin_inj.mp hab
  have hlen := hnodup.length_le_card
  rwa [List.length_map, Fintype.card_fin] at hlen

theorem Linked.length_le (h : Linked s ps) : ps.length ≤ addresses := length_le_addresses h.nodup

/-- Two messages of the list with the same id are the same. -/
theorem Linked.eq_of_idOf (h : Linked s ps) (hp : p ∈ ps) (hq : q ∈ ps)
    (hid : s.idOf p = s.idOf q) : p = q := List.inj_on_of_nodup_map h.distinct hp hq hid

/-- The message of the list with an id. -/
def stored (s : CoAPMessageStore) (ps : List Ptr) (id : UInt16) : Option Ptr :=
  ps.find? fun p ↦ s.idOf p = some id

/-- The list without a message. -/
def without (ps : List Ptr) : Option Ptr → List Ptr
  | none => ps
  | some q => ps.erase q

theorem stored_eq_none_iff : s.stored ps id = none ↔ ∀ q ∈ ps, s.idOf q ≠ some id := by
  simp [stored]

theorem mem_of_stored (h : s.stored ps id = some q) : q ∈ ps ∧ s.idOf q = some id := by
  refine ⟨List.mem_of_find?_eq_some h, ?_⟩
  simpa using List.find?_some h

theorem Linked.stored_eq_some_iff (h : Linked s ps) :
    s.stored ps id = some q ↔ q ∈ ps ∧ s.idOf q = some id := by
  refine ⟨mem_of_stored, fun ⟨hq, hid⟩ ↦ ?_⟩
  cases hstored : s.stored ps id with
  | none => exact absurd hid (stored_eq_none_iff.mp hstored q hq)
  | some r =>
    obtain ⟨hr, hid'⟩ := mem_of_stored hstored
    rw [h.eq_of_idOf hr hq (hid'.trans hid.symm)]

theorem mem_without {o : Option Ptr} (h : q ∈ without ps o) : q ∈ ps := by
  cases o with
  | none => exact h
  | some r => exact List.mem_of_mem_erase h

theorem Linked.mem_without_iff (h : Linked s ps) {o : Option Ptr} :
    q ∈ without ps o ↔ q ∈ ps ∧ o ≠ some q := by
  cases o with
  | none => simp [without]
  | some r =>
    rw [without, h.nodup.mem_erase_iff, and_comm, ne_comm (a := q), ne_eq, ne_eq, Option.some.injEq]

/-- Ids stay distinct when messages are taken out. -/
theorem Linked.distinct_without (h : Linked s ps) (o : Option Ptr)
    (hids : ∀ q ∈ without ps o, s'.idOf q = s.idOf q) :
    ((without ps o).map s'.idOf).Nodup := by
  rw [List.map_congr_left hids]
  cases o with
  | none => exact h.distinct
  | some r => exact h.distinct.sublist ((List.erase_sublist ..).map _)

/-! ## Searching -/

/-- Searching finds the first message with the id, and the one in front of it. -/
theorem forId_spec (h : Chain CoAPMessage.next s.heap s.head ps) (id : UInt16) :
    (s.stored ps id = none ∧ ∃ last, s.forId id = some (none, last)) ∨
      ∃ xs q ys, ps = xs ++ q :: ys ∧ s.stored xs id = none ∧ s.stored ps id = some q ∧
        s.forId id = some (some q, xs.getLast?) := by
  have hmatch : ∀ {q c}, s.heap q = some c →
      (CoAPMessage.isMatch id c = true ↔ s.idOf q = some id) := by
    intro q c hc
    simp [CoAPMessage.isMatch, idOf, hc]
  have hnoneWanted : ∀ {xs}, (∀ q ∈ xs, ∃ c, s.heap q = some c) →
      NoneWanted s.heap (CoAPMessage.isMatch id) xs → s.stored xs id = none := by
    intro xs hmem hnone
    refine stored_eq_none_iff.mpr fun q hq hid ↦ ?_
    obtain ⟨c, hc⟩ := hmem q hq
    rw [← hmatch hc, hnone q hq c hc] at hid
    exact Bool.false_ne_true hid
  rcases h.search_spec (length_le_addresses h.nodup) (CoAPMessage.isMatch id) none with
    ⟨hnone, last, hrun⟩ | ⟨xs, q, ys, c, rfl, hc, hwanted, hnone, hrun⟩
  · exact Or.inl ⟨hnoneWanted (fun q hq ↦ h.mem hq) hnone, last, hrun⟩
  · have hxs := hnoneWanted (fun q hq ↦ h.mem (List.mem_append_left _ hq)) hnone
    refine Or.inr ⟨xs, q, ys, rfl, hxs, ?_, by rw [forId, hrun, Option.or_none]⟩
    rw [stored, List.find?_append, ← stored, hxs, Option.none_or]
    exact List.find?_cons_of_pos (decide_eq_true ((hmatch hc).mp hwanted))

theorem fromId_eq (h : Chain CoAPMessage.next s.heap s.head ps) (id : UInt16) :
    s.fromId id = some (s.stored ps id) := by
  rcases forId_spec h id with ⟨hstored, last, hrun⟩ | ⟨xs, q, ys, -, -, hstored, hrun⟩
  · rw [fromId, hrun, hstored]
    rfl
  · rw [fromId, hrun, hstored]
    rfl

/-! ## Removing -/

/-- Detaching a message behind its predecessor. What is not in front of it stays as it is. -/
theorem removeAfter_spec {xs ys : List Ptr}
    (h : Chain CoAPMessage.next s.heap s.head (xs ++ q :: ys)) :
    ∃ s', s.removeAfter q xs.getLast? = some s' ∧
      Chain CoAPMessage.next s'.heap s'.head (xs ++ ys) ∧
      (∀ p, s'.content p = s.content p) ∧ (∀ p, p ∉ xs → p ≠ q → s'.heap p = s.heap p) ∧
      ∃ m', s'.heap q = some m' ∧ m'.next = none := by
  obtain ⟨d, hd⟩ := h.mem (List.mem_append_right xs List.mem_cons_self)
  have hq : q ∉ xs ++ ys := (List.nodup_middle.mp h.nodup |> List.nodup_cons.mp).1
  rcases List.eq_nil_or_concat xs with rfl | ⟨zs, a, rfl⟩
  · -- the first message: the head takes its link
    obtain ⟨hhead, d', hd', hchain⟩ := h
    obtain rfl := Option.some.inj (hd.symm.trans hd')
    have hcontent := content_put (s := { s with head := d.next }) hd none
    refine ⟨_, ?_, hchain.update_of_not_mem hq _, hcontent, ?_, { d with next := none },
      heap_put_self .., rfl⟩
    · rw [removeAfter, hd]
      exact setNext_eq (s := { s with head := d.next }) hd none
    · exact fun p _ hpq ↦ heap_put_of_ne hpq _
  · -- otherwise its predecessor does
    rw [List.concat_eq_append] at *
    obtain ⟨ca, hca⟩ := h.mem (List.mem_append_left _ (by simp : a ∈ zs ++ [a]))
    have hqa : q ≠ a := by
      rintro rfl
      exact hq (by simp)
    have hd' : (s.put a (some { ca with next := d.next })).heap q = some d := by
      rw [heap_put_of_ne hqa, hd]
    refine ⟨(s.put a (some { ca with next := d.next })).put q (some { d with next := none }),
      ?_, ?_, ?_, ?_, { d with next := none }, heap_put_self .., rfl⟩
    · rw [List.getLast?_concat, removeAfter, hd]
      change ((s.setNext a d.next).bind fun s ↦ s.setNext q none) = _
      rw [setNext_eq hca, Option.bind_some, setNext_eq hd']
    · rw [List.append_assoc, List.singleton_append] at h hq ⊢
      exact (h.unlink (b := { ca with next := d.next }) hd rfl).update_of_not_mem hq _
    · intro p
      rw [content_put hd', content_put hca]
    · intro p hp hpq
      have hpa : p ≠ a := by
        rintro rfl
        exact hp (by simp)
      rw [heap_put_of_ne hpq, heap_put_of_ne hpa]

/-- **Removing** detaches the first message with the id. Another one with that id stays as it is. -/
theorem remove_chain (h : Chain CoAPMessage.next s.heap s.head ps) (id : UInt16) :
    ∃ s', s.remove id = some (s.stored ps id, s') ∧
      Chain CoAPMessage.next s'.heap s'.head (without ps (s.stored ps id)) ∧
      (∀ p, s'.content p = s.content p) ∧
      (∀ p, s.stored ps id ≠ some p → p ∉ ps ∨ s.idOf p = some id → s'.heap p = s.heap p) ∧
      ∀ q, s.stored ps id = some q → ∃ m', s'.heap q = some m' ∧ m'.next = none := by
  rcases forId_spec h id with ⟨hstored, last, hrun⟩ | ⟨xs, q, ys, rfl, hxs, hstored, hrun⟩
  · rw [hstored]
    exact ⟨s, by rw [remove, hrun]; rfl, h, fun _ ↦ rfl, fun _ _ _ ↦ rfl, fun q hq ↦ by cases hq⟩
  · obtain ⟨s', hs', hchain, hcontent, hsame, hq⟩ := removeAfter_spec h
    have hnot : q ∉ xs := fun hc ↦
      (List.nodup_cons.mp (List.nodup_middle.mp h.nodup)).1 (List.mem_append_left _ hc)
    rw [hstored]
    refine ⟨s', ?_, ?_, hcontent, ?_, ?_⟩
    · rw [remove, hrun]
      change ((s.removeAfter q xs.getLast?).bind fun s ↦ some (some q, s)) = _
      rw [hs', Option.bind_some]
    · rw [without, List.erase_append_right _ hnot, List.erase_cons_head]
      exact hchain
    · intro p hpq hp
      refine hsame p (fun hc ↦ ?_) fun hc ↦ hpq (congrArg some hc.symm)
      rcases hp with hp | hp
      · exact hp (List.mem_append_left _ hc)
      · exact stored_eq_none_iff.mp hxs p hc hp
    · rintro r hr
      obtain rfl := Option.some.inj hr
      exact hq

theorem remove_spec (h : Linked s ps) (id : UInt16) :
    ∃ s', s.remove id = some (s.stored ps id, s') ∧ Linked s' (without ps (s.stored ps id)) ∧
      (∀ p, s'.content p = s.content p) ∧
      ∀ q, s.stored ps id = some q → ∃ m', s'.heap q = some m' ∧ m'.next = none := by
  obtain ⟨s', hremove, hchain, hcontent, hsame, hq⟩ := remove_chain h.chain id
  refine ⟨s', hremove, ⟨hchain, ?_, ?_⟩, hcontent, hq⟩
  · exact h.distinct_without _ fun r _ ↦ idOf_of_content (hcontent r)
  · -- what is not in the new list is the removed message, or was not in the old one
    intro p m hm hp
    by_cases hstored : s.stored ps id = some p
    · obtain ⟨m', hm', hnext⟩ := hq p hstored
      rwa [← Option.some.inj (hm'.symm.trans hm)]
    · have hps : p ∉ ps := fun hc ↦ hp (h.mem_without_iff.mpr ⟨hc, hstored⟩)
      rw [hsame p hstored (Or.inl hps)] at hm
      exact h.unlinked p m hm hps

/-- What is not in the list may change, as long as it is not linked. -/
theorem Linked.put (h : Linked s ps) (hq : q ∉ ps) {o : Option CoAPMessage}
    (ho : ∀ m, o = some m → m.next = none) : Linked (s.put q o) ps := by
  refine ⟨h.chain.update_of_not_mem hq o, ?_, ?_⟩
  · rw [List.map_congr_left fun r hr ↦ ?_]
    · exact h.distinct
    · rw [idOf, idOf, heap_put_of_ne (ne_of_mem_of_not_mem hr hq)]
  · intro p m hm hp
    by_cases hpq : p = q
    · subst hpq
      rw [heap_put_self] at hm
      exact ho m hm
    · rw [heap_put_of_ne hpq] at hm
      exact h.unlinked p m hm hp

/-- **Clearing** a message removes and deletes it. -/
theorem clearMessage_chain (h : Chain CoAPMessage.next s.heap s.head ps) (id : UInt16) :
    ∃ s', s.clearMessage id = some ((s.stored ps id).isSome, s') ∧
      Chain CoAPMessage.next s'.heap s'.head (without ps (s.stored ps id)) ∧
      (∀ q, s.stored ps id = some q → s'.heap q = none) ∧
      (∀ p, s.stored ps id ≠ some p → s'.content p = s.content p) ∧
      ∀ p, s.stored ps id ≠ some p → p ∉ ps ∨ s.idOf p = some id → s'.heap p = s.heap p := by
  obtain ⟨s₁, hremove, hchain, hcontent, hsame, hnext⟩ := remove_chain h id
  cases hstored : s.stored ps id with
  | none =>
    rw [hstored] at hremove hchain hsame
    exact ⟨s₁, by rw [clearMessage, hremove]; rfl, hchain, fun q hq ↦ (by cases hq),
      fun p _ ↦ hcontent p, hsame⟩
  | some q =>
    obtain ⟨m', hm', -⟩ := hnext q hstored
    rw [hstored] at hremove hchain hsame
    have hq : q ∉ without ps (some q) := fun hc ↦ (h.nodup.mem_erase_iff.mp hc).1 rfl
    have hne : ∀ {p}, some q ≠ some p → p ≠ q := fun hpq hc ↦ hpq (by rw [hc])
    refine ⟨s₁.put q none, ?_, hchain.update_of_not_mem hq _, ?_, ?_, ?_⟩
    · rw [clearMessage, hremove]
      change ((s₁.delete (some q)).bind fun s ↦ some (true, s)) = _
      rw [delete_some_eq hm']
      rfl
    · rintro r hr
      obtain rfl := Option.some.inj hr
      exact heap_put_self ..
    · intro p hpq
      rw [← hcontent p, content, content, heap_put_of_ne (hne hpq)]
    · intro p hpq hp
      rw [heap_put_of_ne (hne hpq), hsame p hpq hp]

theorem clearMessage_spec (h : Linked s ps) (id : UInt16) :
    ∃ s', s.clearMessage id = some ((s.stored ps id).isSome, s') ∧
      Linked s' (without ps (s.stored ps id)) ∧
      (∀ q, s.stored ps id = some q → s'.heap q = none) ∧
      ∀ p, s.stored ps id ≠ some p → s'.content p = s.content p := by
  obtain ⟨s', hclear, hchain, hgone, hcontent, hsame⟩ := clearMessage_chain h.chain id
  refine ⟨s', hclear, ⟨hchain, ?_, ?_⟩, hgone, hcontent⟩
  · exact h.distinct_without _ fun r hr ↦
      idOf_of_content (hcontent r (h.mem_without_iff.mp hr).2)
  · intro p m hm hp
    by_cases hstored : s.stored ps id = some p
    · rw [hgone p hstored] at hm
      cases hm
    · have hps : p ∉ ps := fun hc ↦ hp (h.mem_without_iff.mpr ⟨hc, hstored⟩)
      rw [hsame p hstored (Or.inl hps)] at hm
      exact h.unlinked p m hm hps

/-- `clear` leaves nothing of the list. -/
theorem clearLoop_spec {steps : ℕ} (h : Linked s ps) (hsteps : ps.length ≤ steps) :
    ∃ s', clearLoop steps s = some s' ∧ Linked s' [] ∧ (∀ q ∈ ps, s'.heap q = none) ∧
      ∀ p, p ∉ ps → s'.content p = s.content p := by
  induction ps generalizing s steps with
  | nil =>
    have hhead : s.head = none := h.chain
    refine ⟨s, ?_, h, fun q hq ↦ absurd hq List.not_mem_nil, fun _ _ ↦ rfl⟩
    rw [clearLoop, hhead]
  | cons q ps ih =>
    obtain ⟨steps, rfl⟩ : ∃ n, steps = n + 1 :=
      Nat.exists_eq_add_one.mpr (Nat.lt_of_lt_of_le (Nat.succ_pos _) hsteps)
    obtain ⟨hhead, m, hm, -⟩ := h.chain
    have hstored : s.stored (q :: ps) m.id = some q :=
      h.stored_eq_some_iff.mpr ⟨List.mem_cons_self, by rw [idOf, hm, Option.map_some]⟩
    have hq : q ∉ ps := (List.nodup_cons.mp h.nodup).1
    obtain ⟨s₁, hclear, hlinked, hgone, hcontent⟩ := clearMessage_spec h m.id
    rw [hstored, without, List.erase_cons_head] at hlinked
    rw [hstored] at hgone hcontent
    obtain ⟨s', hrun, hlinked', hgone', hcontent'⟩ := ih hlinked (Nat.le_of_succ_le_succ hsteps)
    refine ⟨s', ?_, hlinked', ?_, ?_⟩
    · -- one round is what `clearMessage` does
      rw [clearMessage, hstored] at hclear
      rw [clearLoop, hhead]
      simp only [Option.bind_eq_bind, hm, Option.bind_some] at hclear ⊢
      rcases hremove : s.remove m.id with _ | ⟨message, s₂⟩
      · rw [hremove] at hclear
        cases hclear
      · rw [hremove] at hclear
        simp only [Option.bind_some] at hclear ⊢
        rcases hdelete : s₂.delete message with _ | s₃
        · rw [hdelete] at hclear
          cases hclear
        · rw [hdelete] at hclear
          obtain rfl : s₃ = s₁ := congrArg Prod.snd (Option.some.inj hclear)
          exact hrun
    · intro r hr
      rcases List.mem_cons.mp hr with rfl | hr
      · have hnone : s'.content r = s₁.content r := hcontent' r hq
        rw [content, content, hgone r rfl, Option.map_none, Option.map_eq_none_iff] at hnone
        exact hnone
      · exact hgone' r hr
    · intro p hp
      rw [hcontent' p fun hc ↦ hp (List.mem_cons_of_mem _ hc), hcontent p fun hc ↦ hp ?_]
      rw [Option.some.inj hc]
      exact List.mem_cons_self

/-! ## Adding -/

/-- **Adding** puts a message in front, in the place of the one with its id. -/
theorem add_spec (h : Linked s ps) (hm : s.heap p = some m) :
    ∃ s', s.add p = some (.noError, s') ∧ ((p ∈ ps ∧ s' = s) ∨
      p ∉ ps ∧ Linked s' (p :: without ps (s.stored ps m.id)) ∧
        ∀ q, s.stored ps m.id ≠ some q → s'.content q = s.content q) := by
  have hid : s.idOf p = some m.id := by rw [idOf, hm, Option.map_some]
  rw [add, hm]
  simp only [Option.bind_eq_bind, Option.bind_some, fromId_eq h.chain]
  by_cases hstored : s.stored ps m.id = some p
  · exact ⟨s, if_pos hstored, Or.inl ⟨(mem_of_stored hstored).1, rfl⟩⟩
  rw [if_neg hstored]
  have hp : p ∉ ps := fun hc ↦ hstored (h.stored_eq_some_iff.mpr ⟨hc, hid⟩)
  obtain ⟨s₁, hclear, hlinked, -, hcontent⟩ := clearMessage_spec h m.id
  obtain ⟨m₁, hm₁, hid₁⟩ := exists_of_content (hcontent p hstored) hm
  have hp₁ : p ∉ without ps (s.stored ps m.id) := fun hc ↦ hp (mem_without hc)
  have hnext : m₁.next = none := hlinked.unlinked p m₁ hm₁ hp₁
  have hcontent' := content_put hm₁ s₁.head
  refine ⟨{ s₁.put p (some { m₁ with next := s₁.head }) with head := some p }, ?_,
    Or.inr ⟨hp, ⟨hlinked.chain.push hp₁ rfl, ?_, ?_⟩, fun q hq ↦ ?_⟩⟩
  · simp only [hclear, Option.bind_some, hm₁, hnext, setNext_eq hm₁]
    rfl
  · -- no message that stays has the id of the new one
    have hids : ∀ q, q ∈ without ps (s.stored ps m.id) →
        idOf { s₁.put p (some { m₁ with next := s₁.head }) with head := some p } q = s.idOf q :=
      fun q hq ↦ (idOf_of_content (hcontent' q)).trans
        (idOf_of_content (hcontent q (h.mem_without_iff.mp hq).2))
    rw [List.map_cons, List.nodup_cons]
    refine ⟨fun hc ↦ ?_, h.distinct_without _ hids⟩
    obtain ⟨q, hq, heq⟩ := List.mem_map.mp hc
    obtain ⟨hmem, hne⟩ := h.mem_without_iff.mp hq
    refine hne (h.stored_eq_some_iff.mpr ⟨hmem, ?_⟩)
    rw [← hids q hq, heq, ← hid]
    exact (idOf_of_content (hcontent' p)).trans (idOf_of_content (hcontent p hstored))
  · intro q m' hm' hq
    obtain ⟨hqp, hq⟩ := not_or.mp (List.mem_cons.not.mp hq)
    exact hlinked.unlinked q m' (by rwa [← heap_put_of_ne hqp]) hq
  · exact (hcontent' q).trans (hcontent q hq)

end DuoFirmware.Comm.CoAPMessageStore
