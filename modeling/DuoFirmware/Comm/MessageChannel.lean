import Mathlib.Tactic
import DuoFirmware.Comm.ProtocolError

/-!
# Messages and the buffer of a channel

A `Message` points into the buffer of a channel. The channel keeps some bytes before and behind each
message for itself, to encrypt it in place. A response is placed behind the message that it is for,
in what is left of the buffer.

Addresses are natural numbers; sums of sizes are taken modulo the range of `size_t`.
-/

namespace DuoFirmware.Comm

/-- The range of `size_t`. -/
def sizeMax : ℕ := 4294967296

structure Message where
  buffer : ℕ
  bufferLength : ℕ
  messageLength : ℕ
  /-- Not defined if negative. -/
  id : ℤ
  confirmReceived : Bool
  length_le : messageLength ≤ bufferLength

namespace Message

variable (m : Message)

/-- The default constructor. -/
def new : Message := ⟨0, 0, 0, -1, false, le_rfl⟩

def clear : Message := { m with id := -1 }

def capacity : ℕ := m.bufferLength

def buf : ℕ := m.buffer

def length : ℕ := m.messageLength

def setLength (length : ℕ) : Message :=
  if h : length ≤ m.bufferLength then { m with messageLength := length, length_le := h } else m

def setBuffer (buffer length : ℕ) : Message :=
  { m with
    buffer := buffer, bufferLength := length, messageLength := 0, length_le := Nat.zero_le _ }

def setId (id : UInt16) : Message := { m with id := id.toNat }

def hasId : Bool := 0 ≤ m.id

def getId : UInt16 := UInt16.ofInt m.id

/-- `trim_capacity`: returns what was cut off. -/
def trimCapacity : ℕ × Message :=
  (m.bufferLength - m.messageLength,
    { m with bufferLength := m.messageLength, length_le := le_rfl })

def bufferAvailable : ℕ := m.bufferLength - m.messageLength

/-- `splinter`: the message is trimmed, and the target placed behind it. What is cut off is kept in
an `int` on the way, and is the same size again when it is used. -/
def splinter (target : Message) (sizeRequired offset : ℕ) : Bool × Message × Message :=
  if m.bufferAvailable < (sizeRequired + offset) % sizeMax then (false, m, target)
  else
    let (excess, m) := m.trimCapacity
    (true, m, target.setBuffer (m.buf + m.length + offset) excess)

end Message

/-- The template `BufferMessageChannel<max, prefix, suffix>`, with the address of its queue. -/
structure BufferMessageChannel where
  queue : ℕ
  max : ℕ
  prefixLen : ℕ
  suffixLen : ℕ
  reserved_le : prefixLen + suffixLen ≤ max
  queue_le : queue + max ≤ sizeMax

namespace BufferMessageChannel

variable (c : BufferMessageChannel)

def create (message : Message) (minimumSize : ℕ) : ProtocolError × Message :=
  if minimumSize > c.max - c.prefixLen - c.suffixLen then (.insufficientStorage, message)
  else
    (.noError, (message.clear.setBuffer (c.queue + c.prefixLen)
      (c.max - c.suffixLen - c.prefixLen)).setLength 0)

/-- `response`: the original message is trimmed. -/
def response (original response : Message) (required : ℕ) : ProtocolError × Message × Message :=
  let (ok, original, response) := original.splinter response required (c.prefixLen + c.suffixLen)
  (if ok then .noError else .insufficientStorage, original, response)

/-! ## Reserved space -/

/-- A message lies in the queue, with the reserved bytes around it. -/
structure Reserves (m : Message) : Prop where
  before : c.queue + c.prefixLen ≤ m.buf
  behind : m.buf + m.capacity + c.suffixLen ≤ c.queue + c.max

/-- A response is large enough and lies in the queue, with the bytes reserved behind it; with those
before it, it is apart from the original message. -/
structure Responds (original response : Message) (required : ℕ) : Prop where
  inside : c.queue ≤ response.buf
  behind : response.buf + response.capacity + c.suffixLen ≤ c.queue + c.max
  required_le : required ≤ response.capacity
  apart : original.buf + original.length + c.prefixLen ≤ response.buf ∨
    response.buf + response.capacity ≤ original.buf

variable {c} {m message original response : Message} {minimumSize len required : ℕ}

/-- **A message that is created** has its reserved space. -/
theorem create_reserves (h : c.create message minimumSize = (.noError, m)) : c.Reserves m ∧
    m.buf = c.queue + c.prefixLen ∧ m.capacity = c.max - c.suffixLen - c.prefixLen := by
  rw [create] at h
  split at h
  · cases h
  · obtain ⟨-, rfl⟩ := Prod.mk.inj h
    have hle := c.reserved_le
    refine ⟨⟨le_rfl, ?_⟩, rfl, rfl⟩
    change c.queue + c.prefixLen + (c.max - c.suffixLen - c.prefixLen) + c.suffixLen ≤ _
    omega

theorem create_noError (message : Message) : ∃ m, c.create message 0 = (.noError, m) :=
  ⟨_, if_neg (Nat.not_lt_zero _)⟩

theorem setLength_eq (h : len ≤ m.capacity) : m.setLength len =
    { m with messageLength := len, length_le := h } := dif_pos h

/-- When there is room for a response, and where it is. -/
theorem response_eq (m response : Message) (required : ℕ) :
    c.response m response required =
      if m.bufferAvailable < (required + (c.prefixLen + c.suffixLen)) % sizeMax then
        (.insufficientStorage, m, response)
      else (.noError, m.trimCapacity.2,
        response.setBuffer (m.buf + m.length + (c.prefixLen + c.suffixLen)) m.bufferAvailable) := by
  rw [BufferMessageChannel.response, Message.splinter]
  by_cases h : m.bufferAvailable < (required + (c.prefixLen + c.suffixLen)) % sizeMax
  · rw [if_pos h, if_pos h]
    rfl
  · rw [if_neg h, if_neg h]
    rfl

/-- A response goes beyond the end of the message it is cut from by what is reserved. -/
theorem response_end (h : c.response m message required = (.noError, original, response)) :
    ¬ m.bufferAvailable < (required + (c.prefixLen + c.suffixLen)) % sizeMax ∧
      original.buf = m.buf ∧ original.length = m.length ∧
      response.buf = m.buf + m.length + (c.prefixLen + c.suffixLen) ∧
      response.capacity = m.bufferAvailable := by
  rw [response_eq] at h
  split at h
  · cases h
  · rename_i hroom
    simp only [Prod.mk.injEq] at h
    obtain ⟨-, rfl, rfl⟩ := h
    exact ⟨hroom, rfl, rfl, rfl, rfl⟩

/-- What is left of a message behind its length. -/
theorem available_of_create (h : c.create message minimumSize = (.noError, m))
    (hlen : len ≤ c.max - c.suffixLen - c.prefixLen) :
    (m.setLength len).buf = c.queue + c.prefixLen ∧ (m.setLength len).length = len ∧
      (m.setLength len).bufferAvailable = c.max - c.suffixLen - c.prefixLen - len := by
  obtain ⟨-, hbuf, hcap⟩ := create_reserves h
  rw [← hcap] at hlen ⊢
  rw [setLength_eq hlen]
  exact ⟨hbuf, rfl, rfl⟩

/-- Every message of the channel, with its length set and a response cut from it. -/
def ReservesSpace (c : BufferMessageChannel) (len required : ℕ) : Prop :=
  ∀ message minimumSize m, c.create message minimumSize = (.noError, m) → c.Reserves m ∧
    ∀ message' original response,
      c.response (m.setLength len) message' required = (.noError, original, response) →
        c.Responds original response required

/-- **Reserved space is kept** exactly if nothing is reserved, or no response fits. -/
theorem reservesSpace_iff (c : BufferMessageChannel) {len required : ℕ}
    (hlen : len ≤ c.max - c.suffixLen - c.prefixLen) (hrequired : required < sizeMax) :
    c.ReservesSpace len required ↔ c.prefixLen + c.suffixLen = 0 ∨
      c.max - c.suffixLen - c.prefixLen - len <
        (required + (c.prefixLen + c.suffixLen)) % sizeMax := by
  have hle := c.reserved_le
  constructor
  · intro h
    by_contra hc
    obtain ⟨hpos, hroom⟩ := not_or.mp hc
    obtain ⟨m, hm⟩ := c.create_noError .new
    obtain ⟨hbuf, hlength, havail⟩ := available_of_create hm hlen
    have hresponse := response_eq (c := c) (m.setLength len) .new required
    rw [havail, if_neg hroom] at hresponse
    -- the response that fits goes beyond the space behind the message
    have hbehind := ((h .new 0 m hm).2 _ _ _ hresponse).behind
    obtain ⟨-, -, -, hb, hcap⟩ := response_end hresponse
    rw [hb, hcap, havail, hbuf, hlength] at hbehind
    omega
  · intro h message minimumSize m hm
    refine ⟨(create_reserves hm).1, fun message' original response hresponse ↦ ?_⟩
    obtain ⟨hbuf, hlength, havail⟩ := available_of_create hm hlen
    obtain ⟨hroom, hb, hl, hb', hcap'⟩ := response_end hresponse
    rw [havail] at hroom hcap'
    rw [hbuf] at hb hb'
    rw [hlength] at hl hb'
    have hzero := h.resolve_right hroom
    rw [hzero, Nat.add_zero, Nat.mod_eq_of_lt hrequired, not_lt] at hroom
    constructor <;> omega

/-- The buffer of the channel with TCP encryption. -/
def lightSSL : BufferMessageChannel := ⟨536870912, 800, 2, 16, by decide, by decide⟩

/-- The buffer of the channel with DTLS encryption. -/
def dtls : BufferMessageChannel := ⟨536870912, 800, 0, 0, by decide, by decide⟩

theorem reservesSpace_iff_dtls : dtls.ReservesSpace 10 100 :=
  (reservesSpace_iff dtls (by decide) (by decide)).mpr (.inl rfl)

/-- A response of 100 bytes to a message of 10 bytes ends two bytes behind the queue. -/
theorem not_reservesSpace_lightSSL : ¬ lightSSL.ReservesSpace 10 100 := by
  intro h
  have hm : lightSSL.create .new 0 = (.noError, (lightSSL.create .new 0).2) := rfl
  have hbehind := ((h .new 0 _ hm).2 .new _ _ rfl).behind
  exact absurd hbehind (by decide)

end BufferMessageChannel

end DuoFirmware.Comm
