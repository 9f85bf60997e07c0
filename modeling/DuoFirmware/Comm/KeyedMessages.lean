import DuoFirmware.Comm.CoapMessageList

/-!
# Runs of the message store

Any sequence of calls on a store, between which messages are created, and deleted while they are
not in the store. Along such a run the store behaves as a map of ids to messages, which is kept
here next to it as a ghost: it records for each id the message that was last added under it and not
removed since.
-/

namespace DuoFirmware.Comm.CoAPMessageStore

open LinkedList

variable {s s' : CoAPMessageStore} {ps ps' : List Ptr} {recent : UInt16 → Option Ptr}
  {id k : UInt16} {p q : Ptr} {m : CoAPMessage}

/-! ## Operations -/

/-- The calls on a store, and what its owner does to messages outside it. -/
inductive Op where
  | create (p : Ptr) (id : UInt16) (buf : List UInt8) (dataLen : ℕ)
  | destroy (p : Ptr)
  | add (p : Ptr)
  | remove (id : UInt16)
  | clearMessage (id : UInt16)
  | clear

/-- What a call returns. -/
inductive Reply where
  | done
  | error (e : ProtocolError)
  | message (p : Option Ptr)
  | flag (b : Bool)

namespace Op

def perform (s : CoAPMessageStore) : Op → Option (Reply × CoAPMessageStore)
  | create p id buf dataLen => some (.done, s.put p (some (.create id buf dataLen)))
  | destroy p => (s.delete (some p)).map fun s' ↦ (.done, s')
  | add p => (s.add p).map fun r ↦ (.error r.1, r.2)
  | remove id => (s.remove id).map fun r ↦ (.message r.1, r.2)
  | clearMessage id => (s.clearMessage id).map fun r ↦ (.flag r.1, r.2)
  | clear => s.clear.map fun s' ↦ (.done, s')

/-- A message is created at a free address, added while it exists, and deleted by its owner only
while it exists and the store does not list it. -/
def Allowed (s : CoAPMessageStore) : Op → Prop
  | create p _ _ _ => s.heap p = none
  | destroy p => s.heap p ≠ none ∧ ∀ ps, Chain CoAPMessage.next s.heap s.head ps → p ∉ ps
  | add p => s.heap p ≠ none
  | _ => True

/-- The message last successfully added under each id and not removed since. -/
def remember (s : CoAPMessageStore) (reply : Reply) (recent : UInt16 → Option Ptr) :
    Op → UInt16 → Option Ptr
  | add p =>
    match s.heap p, reply with
    | some m, .error .noError => Function.update recent m.id (some p)
    | _, _ => recent
  | remove id | clearMessage id => Function.update recent id none
  | clear => fun _ ↦ none
  | _ => recent

theorem remember_add (h : s.heap p = some m) : (add p).remember s (.error .noError) recent =
    Function.update recent m.id (some p) := by
  simp only [remember, h]

/-- How an operation changes the list and what it returns. -/
def Effect (recent : UInt16 → Option Ptr) (s s' : CoAPMessageStore) (reply : Reply)
    (ps ps' : List Ptr) : Op → Prop
  | create _ _ _ _ | destroy _ => ps' = ps
  | add p => reply = .error .noError ∧ ∃ m, s.heap p = some m ∧
      ps' = if p ∈ ps then ps else p :: without ps (recent m.id)
  | remove id => reply = .message (recent id) ∧ ps' = without ps (recent id) ∧
      ∀ q, recent id = some q → q ∈ ps ∧ ∃ m, s'.heap q = some m ∧ m.next = none
  | clearMessage id => reply = .flag (recent id).isSome ∧ ps' = without ps (recent id) ∧
      ∀ q, recent id = some q → q ∈ ps ∧ s'.heap q = none
  | clear => ps' = [] ∧ ∀ q ∈ ps, s'.heap q = none

end Op

/-! ## The map that a list represents -/

/-- The ghost map agrees with the list. -/
def Recalls (s : CoAPMessageStore) (ps : List Ptr) (recent : UInt16 → Option Ptr) : Prop :=
  ∀ id, recent id = s.stored ps id

theorem Linked.stored_congr (h : Linked s ps) (h' : Linked s' ps')
    (hiff : ∀ q, q ∈ ps' ∧ s'.idOf q = some k ↔ q ∈ ps ∧ s.idOf q = some k) :
    s'.stored ps' k = s.stored ps k := by
  ext q
  rw [h'.stored_eq_some_iff, h.stored_eq_some_iff, hiff]

/-- A message outside the list does not count. -/
theorem Recalls.put (h : Linked s ps) (hrec : Recalls s ps recent) (hp : p ∉ ps)
    {o : Option CoAPMessage} (ho : ∀ m, o = some m → m.next = none) :
    Recalls (s.put p o) ps recent := by
  intro k
  rw [hrec k]
  refine ((h.stored_congr (h.put hp ho)) fun q ↦ and_congr_right fun hq ↦ ?_).symm
  rw [idOf, idOf, heap_put_of_ne (ne_of_mem_of_not_mem hq hp)]

/-- After the message with an id is taken out. -/
theorem Recalls.without (h : Linked s ps) (hrec : Recalls s ps recent)
    (h' : Linked s' (without ps (s.stored ps id)))
    (hcontent : ∀ q, s.stored ps id ≠ some q → s'.content q = s.content q) :
    Recalls s' (CoAPMessageStore.without ps (s.stored ps id)) (Function.update recent id none) := by
  have hids : ∀ q, q ∈ CoAPMessageStore.without ps (s.stored ps id) → s'.idOf q = s.idOf q :=
    fun q hq ↦ idOf_of_content (hcontent q (h.mem_without_iff.mp hq).2)
  intro k
  by_cases hk : k = id
  · subst hk
    rw [Function.update_self, eq_comm, stored_eq_none_iff]
    intro q hq hid
    obtain ⟨hmem, hne⟩ := h.mem_without_iff.mp hq
    exact hne (h.stored_eq_some_iff.mpr ⟨hmem, by rw [← hids q hq, hid]⟩)
  · rw [Function.update_of_ne hk, hrec k]
    refine ((h.stored_congr h') fun q ↦ ⟨fun ⟨hq, hid⟩ ↦ ?_, fun ⟨hq, hid⟩ ↦ ?_⟩).symm
    · exact ⟨mem_without hq, by rw [← hids q hq, hid]⟩
    · -- a message with another id is not the one taken out
      have hmem : q ∈ CoAPMessageStore.without ps (s.stored ps id) := by
        refine h.mem_without_iff.mpr ⟨hq, fun hstored ↦ hk ?_⟩
        exact Option.some.inj (hid.symm.trans (mem_of_stored hstored).2)
      exact ⟨hmem, by rw [hids q hmem, hid]⟩

/-- After a message is put in front. -/
theorem Recalls.push (h : Linked s ps) (hrec : Recalls s ps recent) (hm : s.heap p = some m)
    (hstored : s.stored ps m.id ≠ some p)
    (h' : Linked s' (p :: CoAPMessageStore.without ps (s.stored ps m.id)))
    (hcontent : ∀ q, s.stored ps m.id ≠ some q → s'.content q = s.content q) :
    Recalls s' (p :: CoAPMessageStore.without ps (s.stored ps m.id))
      (Function.update recent m.id (some p)) := by
  have hids : ∀ q, q ∈ CoAPMessageStore.without ps (s.stored ps m.id) → s'.idOf q = s.idOf q :=
    fun q hq ↦ idOf_of_content (hcontent q (h.mem_without_iff.mp hq).2)
  have hid : s'.idOf p = some m.id := by
    rw [idOf_of_content (hcontent p hstored), idOf, hm, Option.map_some]
  intro k
  by_cases hk : k = m.id
  · subst hk
    rw [Function.update_self, eq_comm, h'.stored_eq_some_iff]
    exact ⟨List.mem_cons_self, hid⟩
  · rw [Function.update_of_ne hk, hrec k]
    refine ((h.stored_congr h') fun q ↦ ⟨?_, ?_⟩).symm
    · rintro ⟨hq, hidq⟩
      rcases List.mem_cons.mp hq with rfl | hq
      · exact absurd (Option.some.inj (hidq.symm.trans hid)) hk
      · exact ⟨mem_without hq, by rw [← hids q hq, hidq]⟩
    · rintro ⟨hq, hidq⟩
      have hmem : q ∈ CoAPMessageStore.without ps (s.stored ps m.id) := by
        refine h.mem_without_iff.mpr ⟨hq, fun hstored ↦ hk ?_⟩
        exact Option.some.inj (hidq.symm.trans (mem_of_stored hstored).2)
      exact ⟨List.mem_cons_of_mem _ hmem, by rw [hids q hmem, hidq]⟩

/-! ## Runs -/

/-- **One operation** returns, keeps the list and its map, and does what it should. -/
theorem Op.perform_spec (e : Op) (h : Linked s ps) (hrec : Recalls s ps recent)
    (he : e.Allowed s) :
    ∃ reply s' ps', e.perform s = some (reply, s') ∧ Linked s' ps' ∧
      Recalls s' ps' (e.remember s reply recent) ∧ e.Effect recent s s' reply ps ps' := by
  cases e with
  | create p id buf dataLen =>
    have hp : p ∉ ps := fun hc ↦ by
      obtain ⟨m, hm⟩ := h.chain.mem hc
      cases hm.symm.trans he
    have ho : ∀ m, some (CoAPMessage.create id buf dataLen) = some m → m.next = none := by
      rintro m ⟨⟩
      exact CoAPMessage.create_next ..
    exact ⟨_, _, ps, rfl, h.put hp ho, Recalls.put h hrec hp ho, rfl⟩
  | destroy p =>
    obtain ⟨hne, hp⟩ := he
    obtain ⟨m, hm⟩ := Option.ne_none_iff_exists'.mp hne
    have ho : ∀ m, (none : Option CoAPMessage) = some m → m.next = none := fun m hm ↦ by cases hm
    refine ⟨.done, s.put p none, ps, ?_, h.put (hp ps h.chain) ho,
      Recalls.put h hrec (hp ps h.chain) ho, rfl⟩
    rw [perform, delete_some_eq hm, Option.map_some]
  | add p =>
    obtain ⟨m, hm⟩ := Option.ne_none_iff_exists'.mp he
    obtain ⟨s', hadd, ⟨hp, rfl⟩ | ⟨hp, h', hcontent⟩⟩ := add_spec h hm
    · refine ⟨.error .noError, s', ps, by rw [perform, hadd, Option.map_some], h, ?_,
        rfl, m, hm, (if_pos hp).symm⟩
      -- the message is remembered already
      have hstored : recent m.id = some p := by
        rw [hrec, h.stored_eq_some_iff]
        exact ⟨hp, by rw [idOf, hm, Option.map_some]⟩
      rw [remember_add hm, ← hstored, Function.update_eq_self]
      exact hrec
    · have hstored : s.stored ps m.id ≠ some p := fun hc ↦ hp (mem_of_stored hc).1
      refine ⟨.error .noError, s', _, by rw [perform, hadd, Option.map_some], h', ?_,
        rfl, m, hm, ?_⟩
      · rw [remember_add hm]
        exact Recalls.push h hrec hm hstored h' hcontent
      · rw [if_neg hp, hrec]
  | remove id =>
    obtain ⟨s', hremove, h', hcontent, hgone⟩ := remove_spec h id
    refine ⟨.message (s.stored ps id), s', _, by rw [perform, hremove, Option.map_some], h',
      Recalls.without h hrec h' fun q _ ↦ hcontent q, ?_⟩
    rw [Effect, hrec]
    exact ⟨rfl, rfl, fun q hq ↦ ⟨(mem_of_stored hq).1, hgone q hq⟩⟩
  | clearMessage id =>
    obtain ⟨s', hclear, h', hgone, hcontent⟩ := clearMessage_spec h id
    refine ⟨.flag (s.stored ps id).isSome, s', _, by rw [perform, hclear, Option.map_some], h',
      Recalls.without h hrec h' hcontent, ?_⟩
    rw [Effect, hrec]
    exact ⟨rfl, rfl, fun q hq ↦ ⟨(mem_of_stored hq).1, hgone q hq⟩⟩
  | clear =>
    obtain ⟨s', hclear, h', hgone, -⟩ := clearLoop_spec h h.length_le
    exact ⟨.done, s', [], by rw [perform, CoAPMessageStore.clear, hclear, Option.map_some], h',
      fun _ ↦ rfl, rfl, hgone⟩

/-- A run, with the ghost map. -/
def run : CoAPMessageStore → (UInt16 → Option Ptr) → List Op →
    Option (CoAPMessageStore × (UInt16 → Option Ptr))
  | s, recent, [] => some (s, recent)
  | s, recent, e :: es => (e.perform s).bind fun r ↦ run r.2 (e.remember s r.1 recent) es

/-- Each operation is allowed where it is performed. -/
def Admissible : CoAPMessageStore → List Op → Prop
  | _, [] => True
  | s, e :: es => e.Allowed s ∧ ∀ reply s', e.perform s = some (reply, s') → Admissible s' es

theorem run_spec {es : List Op} (h : Linked s ps) (hrec : Recalls s ps recent)
    (hes : Admissible s es) : ∃ s' recent' ps', run s recent es = some (s', recent') ∧
      Linked s' ps' ∧ Recalls s' ps' recent' := by
  induction es generalizing s ps recent with
  | nil => exact ⟨s, recent, ps, rfl, h, hrec⟩
  | cons e es ih =>
    obtain ⟨reply, s₁, ps₁, hperform, h₁, hrec₁, -⟩ := e.perform_spec h hrec hes.1
    obtain ⟨s', recent', ps', hrun, h', hrec'⟩ := ih h₁ hrec₁ (hes.2 reply s₁ hperform)
    exact ⟨s', recent', ps', by rw [run, hperform]; exact hrun, h', hrec'⟩

/-- **The message store is a keyed list.** Every run of allowed operations on a new store returns.
Its messages then form a chain without cycles, their ids are distinct, and searching for an id
finds the message last added under it and not removed since. Whatever operation comes next returns
as well, and changes the list as it should: a removal takes out exactly the message with its id,
and the others stay in order. -/
theorem run_keyed (es : List Op) (hes : Admissible empty es) :
    ∃ s recent ps, run empty (fun _ ↦ none) es = some (s, recent) ∧
      Chain CoAPMessage.next s.heap s.head ps ∧ ps.Nodup ∧ (ps.map s.idOf).Nodup ∧
      (∀ id, s.fromId id = some (recent id)) ∧
      ∀ e : Op, e.Allowed s → ∃ reply s' ps', e.perform s = some (reply, s') ∧
        Chain CoAPMessage.next s'.heap s'.head ps' ∧ e.Effect recent s s' reply ps ps' := by
  obtain ⟨s, recent, ps, hrun, h, hrec⟩ := run_spec linked_empty (fun _ ↦ rfl) hes
  refine ⟨s, recent, ps, hrun, h.chain, h.nodup, h.distinct, fun id ↦ ?_, fun e he ↦ ?_⟩
  · rw [fromId_eq h.chain, hrec]
  · obtain ⟨reply, s', ps', hperform, h', -, heffect⟩ := e.perform_spec h hrec he
    exact ⟨reply, s', ps', hperform, h'.chain, heffect⟩

/-- A message is created, added and removed. -/
theorem run_keyed_oneMessage :
    let es : List Op := [.create 1 7 [] 0, .add 1, .remove 7]
    ∃ s recent ps, run empty (fun _ ↦ none) es = some (s, recent) ∧
      Chain CoAPMessage.next s.heap s.head ps ∧ ps.Nodup ∧ (ps.map s.idOf).Nodup ∧
      (∀ id, s.fromId id = some (recent id)) ∧
      ∀ e : Op, e.Allowed s → ∃ reply s' ps', e.perform s = some (reply, s') ∧
        Chain CoAPMessage.next s'.heap s'.head ps' ∧ e.Effect recent s s' reply ps ps' := by
  refine run_keyed _ ⟨rfl, ?_⟩
  rintro _ _ ⟨⟩
  exact ⟨fun hc ↦ (by cases hc), fun _ _ _ ↦ ⟨trivial, fun _ _ _ ↦ trivial⟩⟩

end DuoFirmware.Comm.CoAPMessageStore
