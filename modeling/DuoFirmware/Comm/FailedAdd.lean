import DuoFirmware.Comm.CoapMessageList

/-!
# When adding a message fails

`add` first clears the message of the store that has the id of the new one, and only then looks at
the link of the new message. A message that is linked in another store is not added, but the one
that was cleared is gone. Here a store is any heap with a chain of messages in it.
-/

namespace DuoFirmware.Comm.CoAPMessageStore

open LinkedList

variable {s : CoAPMessageStore} {p : Ptr} {ps : List Ptr} {m : CoAPMessage}

/-- When `add` fails, the messages of the store are those from before, with what they contain. -/
def AddIsAtomic (s : CoAPMessageStore) (ps : List Ptr) (p : Ptr) : Prop :=
  ∃ error s', s.add p = some (error, s') ∧ (error = .invalidState →
    Chain CoAPMessage.next s'.heap s'.head ps ∧ ∀ q ∈ ps, s'.content q = s.content q)

theorem add_of_stored (h : Chain CoAPMessage.next s.heap s.head ps) (hm : s.heap p = some m)
    (hstored : s.stored ps m.id = some p) : s.add p = some (.noError, s) := by
  rw [add, hm]
  simp only [Option.bind_eq_bind, Option.bind_some, fromId_eq h]
  exact if_pos hstored

/-- **Adding** another message than the one in the list clears that one, and looks at the link
then. -/
theorem add_chain (h : Chain CoAPMessage.next s.heap s.head ps) (hm : s.heap p = some m)
    (hstored : s.stored ps m.id ≠ some p) :
    ∃ s', s.clearMessage m.id = some ((s.stored ps m.id).isSome, s') ∧
      Chain CoAPMessage.next s'.heap s'.head (without ps (s.stored ps m.id)) ∧
      (∀ q, s.stored ps m.id ≠ some q → s'.content q = s.content q) ∧
      s.add p = some (if m.next.isSome then (.invalidState, s') else
        (.noError, { s'.put p (some { m with next := s'.head }) with head := some p })) := by
  obtain ⟨s', hclear, hchain, -, hcontent, hsame⟩ := clearMessage_chain h m.id
  have hm' : s'.heap p = some m := by
    rw [hsame p hstored (Or.inr (by rw [idOf, hm, Option.map_some])), hm]
  refine ⟨s', hclear, hchain, hcontent, ?_⟩
  rw [add, hm]
  simp only [Option.bind_eq_bind, Option.bind_some, fromId_eq h]
  rw [if_neg hstored]
  simp only [hclear, Option.bind_some, hm']
  cases m.next.isSome with
  | true => rfl
  | false =>
    rw [setNext_eq hm']
    rfl

/-- **A failed `add` leaves the list as it was** unless another message is stored with the id. -/
theorem add_atomic_iff (h : Chain CoAPMessage.next s.heap s.head ps) (hm : s.heap p = some m) :
    AddIsAtomic s ps p ↔ m.next = none ∨ ∀ q, s.stored ps m.id = some q → q = p := by
  by_cases hstored : s.stored ps m.id = some p
  · constructor
    · intro _
      refine Or.inr fun q hq ↦ ?_
      exact Option.some.inj (hq.symm.trans hstored)
    · intro _
      exact ⟨_, s, add_of_stored h hm hstored, fun herror ↦ by cases herror⟩
  obtain ⟨s', -, hchain, hcontent, hadd⟩ := add_chain h hm hstored
  cases hnext : m.next with
  | none =>
    refine iff_of_true ?_ (Or.inl rfl)
    rw [hnext] at hadd
    exact ⟨_, _, hadd, fun herror ↦ by cases herror⟩
  | some r =>
    rw [hnext] at hadd
    constructor
    · rintro ⟨error, s'', hrun, hatomic⟩
      obtain ⟨rfl, rfl⟩ := Prod.mk.inj (Option.some.inj (hadd.symm.trans hrun))
      refine Or.inr fun q hq ↦ ?_
      -- the list would be the same without a message of it
      have hsame : ps = without ps (some q) := by
        rw [hq] at hchain
        exact (hatomic rfl).1.unique hchain
      have hlen := congrArg List.length hsame
      rw [without, List.length_erase_of_mem (mem_of_stored hq).1] at hlen
      have hpos := List.length_pos_of_mem (mem_of_stored hq).1
      omega
    · rintro (hnone | hall)
      · cases hnone
      · have hnone : s.stored ps m.id = none := by
          cases hq : s.stored ps m.id with
          | none => rfl
          | some q => exact absurd (hq.trans (congrArg some (hall q hq))) hstored
        rw [hnone] at hchain hcontent
        exact ⟨_, s', hadd, fun _ ↦ ⟨hchain, fun q _ ↦ hcontent q (by simp)⟩⟩

/-- Two stores in one heap: one with a message of id 7, the other one with a newer message of id 7
in front of one of id 8. -/
def twoStores : CoAPMessageStore where
  heap p :=
    if p = 16 then some (.new 7)
    else if p = 32 then some { CoAPMessage.new 7 with next := some 48 }
    else if p = 48 then some (.new 8)
    else none
  head := some 16

theorem twoStores_chain : Chain CoAPMessage.next twoStores.heap twoStores.head [16] :=
  ⟨rfl, .new 7, rfl, rfl⟩

theorem add_atomic_iff_first : AddIsAtomic twoStores [16] 16 :=
  (add_atomic_iff twoStores_chain (m := .new 7) rfl).mpr (Or.inl rfl)

/-- The message of the other store is refused, and the store is left empty. -/
theorem not_addIsAtomic_linked :
    ¬ ∀ (s : CoAPMessageStore) (ps : List Ptr) (p : Ptr) (m : CoAPMessage) (other : Option Ptr)
      (qs : List Ptr), Chain CoAPMessage.next s.heap s.head ps → s.heap p = some m →
      Chain CoAPMessage.next s.heap other qs → p ∈ qs → AddIsAtomic s ps p := by
  intro h
  have hother : Chain CoAPMessage.next twoStores.heap (some 32) [32, 48] :=
    ⟨rfl, _, rfl, rfl, .new 8, rfl, rfl⟩
  obtain ⟨error, s', hrun, hatomic⟩ :=
    h twoStores [16] 32 _ _ _ twoStores_chain rfl hother List.mem_cons_self
  have hadd : (twoStores.add 32).map (fun r ↦ (r.1, r.2.head)) = some (.invalidState, none) := by
    decide +kernel
  rw [hrun] at hadd
  obtain ⟨rfl, hhead⟩ := Prod.mk.inj (Option.some.inj hadd)
  obtain ⟨hsome, -⟩ := (hatomic rfl).1
  rw [hhead] at hsome
  cases hsome

end DuoFirmware.Comm.CoAPMessageStore
