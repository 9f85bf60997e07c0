import DuoFirmware.Lib.Bytes
import DuoFirmware.Comm.ProtocolError

/-!
# The subscription table

`Subscriptions` keeps the event handlers of an application in a table of five entries. An entry is
in use when its handler is not null. Names and device ids are stored in fields of bytes; a name that
fills its field has no zero byte behind it.
-/

namespace DuoFirmware.Comm

open Bytes

inductive SubscriptionScope where
  | myDevices
  | firehose
  deriving DecidableEq, Repr

/-- The byte of an enumerator. -/
def SubscriptionScope.toByte : SubscriptionScope → UInt8
  | myDevices => 0
  | firehose => 1

/-- The bytes of a pointer or a 32-bit number in memory. -/
def littleEndian (x : UInt32) : List UInt8 :=
  [x.toUInt8, (x >>> 8).toUInt8, (x >>> 16).toUInt8, (x >>> 24).toUInt8]

/-- An entry of the table; pointers are addresses. -/
structure FilteringEventHandler where
  filter : Field 64
  handler : UInt32
  handlerData : UInt32
  scope : SubscriptionScope
  deviceId : Field 13
  /-- The bytes that align the size of the structure. -/
  padding : Field 2
  deriving DecidableEq, Repr

namespace FilteringEventHandler

/-- All bytes are zero. -/
def zero : FilteringEventHandler := ⟨.zero 64, 0, 0, .myDevices, .zero 13, .zero 2⟩

/-- The bytes in memory. -/
def bytes (h : FilteringEventHandler) : List UInt8 :=
  h.filter.bytes ++ littleEndian h.handler ++ littleEndian h.handlerData ++ [h.scope.toByte] ++
    h.deviceId.bytes ++ h.padding.bytes

variable (h : FilteringEventHandler) (eventName : CString) (handler handlerData : UInt32)
  (scope : SubscriptionScope) (id : Option CString)

/-- The memory at a pointer to a device id, which may be null. -/
def idBytes : Option CString → List UInt8
  | none => []
  | some id => id.bytes

/-- The length of a device id, of which at most twelve characters are stored. -/
def idLen : Option CString → ℕ
  | none => 0
  | some id => strnlen id.bytes 12

theorem idLen_le : idLen id ≤ 12 := by
  cases id with
  | none => exact Nat.zero_le _
  | some id => exact strnlen_le _ _

/-- An entry is written by `add_event_handler`. -/
def fill : FilteringEventHandler :=
  let filterLen := strnlen eventName.bytes 64
  let filter := h.filter.memcpy 0 (eventName.chars.take filterLen) (by
    rw [Nat.zero_add]
    exact (List.length_take_le _ _).trans (strnlen_le _ _))
  let filter := filter.memset filterLen 0 (64 - filterLen)
    (by rw [Nat.add_sub_cancel' (strnlen_le _ _)])
  let deviceId := h.deviceId.memcpy 0 [0] (by decide)
  let deviceId := deviceId.memcpy 0 ((idBytes id).take (idLen id)) (by
    rw [Nat.zero_add]
    exact ((List.length_take_le _ _).trans (idLen_le id)).trans (by decide))
  let deviceId := deviceId.memcpy (idLen id) [0] (Nat.succ_le_succ (idLen_le id))
  { h with filter := filter, handler := handler, handlerData := handlerData, deviceId := deviceId,
           scope := scope }

end FilteringEventHandler

/-- The number of entries. -/
def numHandlers : ℕ := 5

structure Subscriptions where
  eventHandlers : List FilteringEventHandler
  length_eq : eventHandlers.length = numHandlers

namespace Subscriptions

open FilteringEventHandler

variable (s : Subscriptions)

/-- The constructor. -/
def new : Subscriptions := ⟨List.replicate numHandlers zero, List.length_replicate⟩

/-- Another entry is stored at a position. -/
def set (i : ℕ) (h : FilteringEventHandler) : Subscriptions :=
  ⟨s.eventHandlers.set i h, by rw [List.length_set, s.length_eq]⟩

variable (eventName : CString) (handler handlerData : UInt32) (scope : SubscriptionScope)
  (id : Option CString)

/-- The loop of `event_handler_exists`. -/
def existsLoop : List FilteringEventHandler → Bool
  | [] => false
  | h :: hs =>
    if h.handler = handler ∧ h.handlerData = handlerData ∧ h.scope = scope ∧
        strncmp (strnlen eventName.bytes 64) h.filter.bytes eventName.bytes then
      if idLen id ≠ 0 then strncmp (idLen id) h.deviceId.bytes (idBytes id)
      else h.deviceId.bytes.head? = some 0
    else existsLoop hs

/-- `event_handler_exists`. -/
def eventHandlerExists : Bool :=
  existsLoop eventName handler handlerData scope id s.eventHandlers

/-- The loop of `add_event_handler` over the entries from the `i`-th on. -/
def addLoop : ℕ → List FilteringEventHandler → ProtocolError × Subscriptions
  | _, [] => (.insufficientStorage, s)
  | i, h :: hs =>
    if h.handler = 0 then (.noError, s.set i (h.fill eventName handler handlerData scope id))
    else addLoop (i + 1) hs

/-- `add_event_handler`. -/
def addEventHandler : ProtocolError × Subscriptions :=
  if s.eventHandlerExists eventName handler handlerData scope id then (.noError, s)
  else s.addLoop eventName handler handlerData scope id 0 s.eventHandlers

/-- A round of the loop of `remove_event_handlers`: the entry at `i` is removed, or moved to
`dest`. -/
def removeAt (s : Subscriptions) (dest i : ℕ) : Subscriptions × ℕ :=
  let h := s.eventHandlers.getD i zero
  if strcmp eventName.bytes h.bytes then (s.set i zero, dest)
  else (if dest ≠ i then (s.set dest h).set i zero else s, dest + 1)

/-- The loop over the entries from the `i`-th on. -/
def removeLoop : ℕ → Subscriptions → ℕ → ℕ → Subscriptions
  | 0, s, _, _ => s
  | n + 1, s, dest, i =>
    let (s, dest) := removeAt eventName s dest i
    removeLoop n s dest (i + 1)

/-- `remove_event_handlers`; without a name all entries are removed. -/
def removeEventHandlers : Option CString → Subscriptions
  | none => .new
  | some eventName => removeLoop eventName numHandlers s 0 0

/-- `for_each`: the callback may change a state of its own. -/
def forEach {σ : Type} (callback : σ → FilteringEventHandler → ProtocolError × σ) (state : σ) :
    ProtocolError × σ :=
  loop s.eventHandlers .noError state
where
  loop : List FilteringEventHandler → ProtocolError → σ → ProtocolError × σ
    | [], error, state => (error, state)
    | h :: hs, error, state =>
      if h.handler ≠ 0 then
        let (error, state) := callback state h
        if error ≠ .noError then (error, state) else loop hs error state
      else loop hs error state

/-- `compute_subscriptions_checksum`. -/
def computeSubscriptionsChecksum (calculateCrc : List UInt8 → UInt32) : UInt32 :=
  (s.forEach (fun checksum h ↦
    let chk := littleEndian checksum ++ littleEndian (calculateCrc h.deviceId.bytes) ++
      littleEndian (calculateCrc h.filter.bytes) ++ littleEndian (calculateCrc [h.scope.toByte])
    (.noError, calculateCrc chk)) 0).2

end Subscriptions

end DuoFirmware.Comm
