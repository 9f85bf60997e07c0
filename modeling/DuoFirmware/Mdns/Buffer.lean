import DuoFirmware.Lib.Divergence

/-!
# The packet buffer of the mDNS library

One buffer holds the received packet and then the answer. Reading is not bounded: the offset runs
on through the memory behind the packet, and `available` only compares it with the length of the
packet. Writing stops at the end of the buffer.
-/

namespace DuoFirmware.Mdns

open Divergence Program

/-- `INVALID_MARK_OFFSET`. -/
def invalidMarkOffset : ℕ := 0xffff

/-- `BUFFER_SIZE`. -/
def bufferSize : ℕ := 512

/-- `LABEL_POINTER`. -/
def labelPointer : UInt8 := 0xc0

/-- A received packet: the memory it was read into, and how many bytes of it were received. -/
structure Packet where
  /-- The memory from the buffer's first byte on. -/
  data : ℕ → UInt8
  /-- The number of bytes received. -/
  limit : ℕ
  /-- A buffer is not larger than `bufferSize`. -/
  limit_lt : limit < invalidMarkOffset

/-- A packet of some bytes. -/
def Packet.ofBytes (bytes : List UInt8) (h : bytes.length < invalidMarkOffset) : Packet :=
  ⟨fun i ↦ bytes.getD i 0, bytes.length, h⟩

structure Buffer extends Packet where
  size : ℕ
  offset : ℕ
  markOffset : ℕ
  /-- The offsets that were read, the last one first. -/
  reads : List ℕ

namespace Buffer

variable (b : Buffer)

def available : ℕ := if b.offset < b.limit then b.limit - b.offset else b.offset - b.limit

def mark : Buffer :=
  if b.markOffset = invalidMarkOffset then { b with markOffset := b.offset } else b

def reset : Buffer :=
  if b.markOffset ≠ invalidMarkOffset then
    { b with offset := b.markOffset, markOffset := invalidMarkOffset }
  else b

def setOffset (offset : ℕ) : Buffer := { b with offset := offset }

/-- One byte was read. -/
def advance : Buffer :=
  { b with offset := (b.offset + 1) % 65536, reads := b.offset :: b.reads }

/-- `writeUInt8`; behind the end of the buffer nothing is written. -/
def writeUInt8 (value : UInt8) : Buffer :=
  if b.offset < b.size then
    { b with data := Function.update b.data b.offset value, offset := b.offset + 1 }
  else b

def writeUInt16 (value : ℕ) : Buffer :=
  (b.writeUInt8 (.ofNat (value / 256))).writeUInt8 (.ofNat value)

def writeUInt32 (value : ℕ) : Buffer :=
  (((b.writeUInt8 (.ofNat (value / 16777216))).writeUInt8 (.ofNat (value / 65536))).writeUInt8
    (.ofNat (value / 256))).writeUInt8 (.ofNat value)

def clear : Buffer := { b with offset := 0, limit := 0, limit_lt := Nat.zero_lt_succ _ }

end Buffer

/-- The buffer into which a packet was read. -/
def Packet.received (p : Packet) : Buffer := ⟨p, bufferSize, 0, invalidMarkOffset, []⟩

/-- `readUInt8`. -/
def readUInt8 : Program Buffer UInt8 := fun b ↦ (some (b.data b.offset), b.advance)

/-- `readUInt16`. -/
def readUInt16 : Program Buffer ℕ := do
  let high ← readUInt8
  let low ← readUInt8
  pure (high.toNat * 256 + low.toNat)

/-! ## Availability -/

namespace Buffer

variable {b : Buffer}

/-- Only directly behind the packet nothing is available: further behind there is something
again. -/
theorem available_pos : 0 < b.available ↔ b.offset ≠ b.limit := by
  rw [available]
  split <;> omega

end Buffer

end DuoFirmware.Mdns
