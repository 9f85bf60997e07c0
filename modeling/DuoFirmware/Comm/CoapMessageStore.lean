import Mathlib.Data.Fintype.Card
import DuoFirmware.Comm.ProtocolError
import DuoFirmware.Lib.LinkedList

/-!
# The CoAP message store

Messages that may have to be sent again are kept in a singly linked list, through a pointer in each
message. Here are the functions of `CoAPMessage` and `CoAPMessageStore` that keep that list, over a
heap of messages which other parties allocate and delete in.

A function of the store returns `none` when it follows a pointer to a message that does not exist,
or when it does not end. A loop over messages that has not ended after as many steps as there are
addresses has met a message twice, and goes around forever.
-/

namespace DuoFirmware.Comm

open LinkedList

/-- The address of a message; the null pointer is `none`. -/
abbrev Ptr := UInt32

/-- The number of addresses. -/
def addresses : ℕ := 4294967296

structure CoAPMessage where
  next : Option Ptr
  timeout : UInt32
  id : UInt16
  transmitCount : UInt8
  data : List UInt8
  deriving DecidableEq, Repr

namespace CoAPMessage

/-- The constructor. -/
def new (id : UInt16) : CoAPMessage := ⟨none, 0, id, 0, []⟩

def isMatch (id : UInt16) (m : CoAPMessage) : Bool := m.id = id

def setData (m : CoAPMessage) (data : List UInt8) : ProtocolError × CoAPMessage :=
  if data.length > 1500 then (.ioErrorSetDataMaxExceeded, m)
  else (.noError, { m with data := data })

/-- `create`: a message with the first bytes of a buffer; all of them for a length of zero. -/
def create (id : UInt16) (buf : List UInt8) (dataLen : ℕ) : CoAPMessage :=
  let len := if dataLen ≠ 0 ∧ dataLen < buf.length then dataLen else buf.length
  ((new id).setData (buf.take len)).2

theorem setData_snd_next (m : CoAPMessage) (data : List UInt8) :
    (m.setData data).2.next = m.next := by
  rw [setData]
  split <;> rfl

/-- A message is created unlinked. -/
@[simp] theorem create_next (id : UInt16) (buf : List UInt8) (dataLen : ℕ) :
    (create id buf dataLen).next = none := setData_snd_next ..

end CoAPMessage

/-- A store, together with the heap its messages live in. -/
structure CoAPMessageStore where
  heap : Ptr → Option CoAPMessage
  head : Option Ptr

namespace CoAPMessageStore

/-- A new store in an empty heap. -/
def empty : CoAPMessageStore := ⟨fun _ ↦ none, none⟩

variable (s : CoAPMessageStore)

/-! ## Messages -/

/-- What is at an address changes. -/
def put (p : Ptr) (o : Option CoAPMessage) : CoAPMessageStore :=
  { s with heap := Function.update s.heap p o }

@[simp] theorem heap_put (p : Ptr) (o : Option CoAPMessage) :
    (s.put p o).heap = Function.update s.heap p o := rfl

@[simp] theorem head_put (p : Ptr) (o : Option CoAPMessage) : (s.put p o).head = s.head := rfl

def setNext (p : Ptr) (next : Option Ptr) : Option CoAPMessageStore := do
  let m ← s.heap p
  pure (s.put p (some { m with next := next }))

/-- `delete`; nothing is done for the null pointer. -/
def delete : Option Ptr → Option CoAPMessageStore
  | none => some s
  | some p => do
    let _ ← s.heap p
    pure (s.put p none)

/-! ## The list -/

/-- `for_id`: the message with the given id, and the message in front of it. -/
def forId (id : UInt16) : Option (Option Ptr × Option Ptr) :=
  search CoAPMessage.next s.heap (CoAPMessage.isMatch id) addresses none s.head

def fromId (id : UInt16) : Option (Option Ptr) := do
  let (message, _) ← s.forId id
  pure message

/-- `remove`, given the message to remove and the previous entry in the list. -/
def removeAfter (message : Ptr) (previous : Option Ptr) : Option CoAPMessageStore := do
  let m ← s.heap message
  let s ← match previous with
    | some previous => s.setNext previous m.next
    | none => pure { s with head := m.next }
  -- `removed()`
  s.setNext message none

/-- `remove`: removes a message with the given id, and returns it. -/
def remove (id : UInt16) : Option (Option Ptr × CoAPMessageStore) := do
  let (message, previous) ← s.forId id
  match message with
  | none => pure (none, s)
  | some p => do
    let s ← s.removeAfter p previous
    pure (some p, s)

def clearMessage (id : UInt16) : Option (Bool × CoAPMessageStore) := do
  let (message, s) ← s.remove id
  let s ← s.delete message
  pure (message.isSome, s)

def add (p : Ptr) : Option (ProtocolError × CoAPMessageStore) := do
  let m ← s.heap p
  -- trying to add exactly the same message
  if (← s.fromId m.id) = some p then pure (.noError, s)
  else do
    let (_, s) ← s.clearMessage m.id
    let m ← s.heap p
    if m.next.isSome then pure (.invalidState, s)
    else do
      let s ← s.setNext p s.head
      pure (.noError, { s with head := some p })

/-- The loop of `clear`. -/
def clearLoop : ℕ → CoAPMessageStore → Option CoAPMessageStore
  | steps, s =>
    match s.head with
    | none => some s
    | some p =>
      match steps with
      | 0 => none
      | steps + 1 => do
        let m ← s.heap p
        let (message, s) ← s.remove m.id
        let s ← s.delete message
        clearLoop steps s

/-- Removes all knowledge of any messages. -/
def clear : Option CoAPMessageStore := clearLoop addresses s

end CoAPMessageStore

end DuoFirmware.Comm
