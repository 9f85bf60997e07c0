import DuoFirmware.NorFlash.CrashLogic

/-!
# Sectors of the device configuration data

The device configuration data is kept in one of two flash sectors. A sector starts with a header, a
watermark and a seal, and ends with a footer; the last word of the footer is a CRC over everything
between the header and itself. This file has what is persisted and where it lies.

The template parameters of the source become a `Config`: the sectors, the CRC, which may be any
function of the bytes it covers, and the range of addresses the store accepts.
-/

namespace DuoFirmware.DCD

open NorFlash

/-- The template parameters, and the store they are used with. -/
structure Config where
  /-- Size of a sector in bytes. -/
  sectorSize : ℕ
  /-- Address of the first sector. -/
  dcd1 : ℕ
  /-- Address of the second sector. -/
  dcd2 : ℕ
  calculateCRC : List UInt8 → UInt32
  /-- First address of the store. -/
  storeBase : ℕ
  /-- Size of the store in bytes. -/
  storeSize : ℕ
  size : 40 ≤ sectorSize
  apart : dcd1 + sectorSize ≤ dcd2 ∨ dcd2 + sectorSize ≤ dcd1
  inStore1 : storeBase ≤ dcd1 ∧ dcd1 + sectorSize ≤ storeBase + storeSize
  inStore2 : storeBase ≤ dcd2 ∧ dcd2 + sectorSize ≤ storeBase + storeSize
  addressable : storeBase + storeSize < 4294967296

inductive Sector where
  | sector0
  | sector1
  deriving DecidableEq, Repr

def watermark : ℕ := 0x1E1C279A

/-! ## Headers -/

/-- The first eight bytes of a sector. -/
structure Header where
  watermark : ℕ
  sealWord : ℕ
  deriving DecidableEq, Repr

namespace Header

def sealInit : ℕ := 0xFFFFFFFF

def sealValid : ℕ := 0xEDA15E00

def sealInvalidV2 : ℕ := 0x69A00C00

def isHeader (h : Header) : Bool := h.watermark = DCD.watermark

/-- The sector holds data: it is valid, or was until a newer one was written. -/
def isValid (h : Header) : Bool :=
  h.isHeader ∧ (h.sealWord = sealValid ∨ h.sealWord = sealInvalidV2)

def makeValid : Header := ⟨DCD.watermark, sealValid⟩

def makeInvalid : Header := ⟨DCD.watermark, sealInvalidV2⟩

def toBytes (h : Header) : List UInt8 := le32 h.watermark ++ le32 h.sealWord

@[simp] theorem length_toBytes (h : Header) : h.toBytes.length = 8 := rfl

end Header

/-! ## Footers -/

/-- The last 32 bytes of a sector. The counter is in the two low bits of the flags; `pad` has the
other reserved bytes up to the size field. -/
structure Footer where
  reserved : List UInt8
  flags : UInt8
  pad : List UInt8
  mysize : ℕ
  watermark : ℕ
  crc : ℕ
  length_reserved : reserved.length = 16
  length_pad : pad.length = 5

namespace Footer

def isValid (f : Footer) : Bool := f.watermark = DCD.watermark

def counter (f : Footer) : ℕ := f.flags.toNat % 4

/-- The same footer with another counter. -/
def setCounter (f : Footer) (counter : ℕ) : Footer :=
  { f with flags := .ofNat (f.flags.toNat / 4 * 4 + counter % 4) }

/-- Initialize a footer; only the watermark and the size are set, to the size of a pointer. -/
def initialized (f : Footer) : Footer := { f with watermark := DCD.watermark, mysize := 4 }

/-- The bytes of a footer up to its CRC. -/
def toBytes (f : Footer) : List UInt8 :=
  f.reserved ++ (f.flags :: f.pad ++ (le16 f.mysize ++ le32 f.watermark))

@[simp] theorem length_toBytes (f : Footer) : f.toBytes.length = 28 := by
  simp [toBytes, f.length_reserved, f.length_pad]

@[simp] theorem counter_setCounter (f : Footer) (c : ℕ) : (f.setCounter c).counter = c % 4 := by
  have := f.flags.toNat_lt
  rw [counter, setCounter, UInt8.toNat_ofNat']
  omega

@[simp] theorem watermark_setCounter (f : Footer) (c : ℕ) :
    (f.setCounter c).watermark = f.watermark := rfl

end Footer

/-- The footer in the 32 bytes at an address. -/
def readFooter (mem : Memory) (a : ℕ) : Footer where
  reserved := mem.bytes a 16
  flags := mem (a + 16)
  pad := mem.bytes (a + 17) 5
  mysize := mem.word16 (a + 22)
  watermark := mem.word32 (a + 24)
  crc := mem.word32 (a + 28)
  length_reserved := by simp
  length_pad := by simp

/-- Reading back the bytes of a footer gives its counter and watermark. -/
theorem readFooter_of_bytes {mem : Memory} {a : ℕ} {f : Footer} (hw : f.watermark < 4294967296)
    (h : mem.bytes a 28 = f.toBytes) :
    (readFooter mem a).counter = f.counter ∧ (readFooter mem a).watermark = f.watermark := by
  have hsplit : mem.bytes a 28 = mem.bytes a 16 ++
      (mem (a + 16) :: mem.bytes (a + 17) 5 ++ (mem.bytes (a + 22) 2 ++ mem.bytes (a + 24) 4)) := by
    rw [show 28 = 16 + (1 + 5 + (2 + 4)) from rfl, Memory.bytes_add, Memory.bytes_add,
      Memory.bytes_add, Memory.bytes_add, Memory.bytes_succ]
    simp [Memory.bytes]
  rw [hsplit, Footer.toBytes] at h
  obtain ⟨-, h⟩ := List.append_inj h (by rw [Memory.length_bytes, f.length_reserved])
  rw [List.cons_append, List.cons_append, List.cons.injEq] at h
  obtain ⟨hflags, h⟩ := h
  obtain ⟨-, h⟩ := List.append_inj h (by rw [Memory.length_bytes, f.length_pad])
  obtain ⟨-, h⟩ := List.append_inj h (by simp)
  refine ⟨?_, (Memory.word32_eq_iff hw).mpr h⟩
  rw [Footer.counter, Footer.counter, readFooter, hflags]

/-! ## Addresses -/

namespace Config

variable (D : Config)

/-- Retrieve the address of a given sector. -/
def addressOf : Sector → ℕ
  | .sector0 => D.dcd1
  | .sector1 => D.dcd2

/-- The offset in each sector where the footer is written. -/
def footerOffset : ℕ := D.sectorSize - 32

/-- The logical size of the data that can be stored. -/
def length : ℕ := D.sectorSize - 8 - 32

/-- `isValidRange` of the store, in 32-bit arithmetic. -/
def isValidRange (address size : ℕ) : Bool :=
  D.storeBase ≤ address ∧ (address + size - D.storeBase) % 4294967296 ≤ D.storeSize

theorem length_add : D.length + 40 = D.sectorSize := by
  have := D.size
  rw [length]
  omega

/-- The sectors lie in the store. -/
theorem addressOf_inStore (s : Sector) :
    D.storeBase ≤ D.addressOf s ∧ D.addressOf s + D.sectorSize ≤ D.storeBase + D.storeSize := by
  cases s
  · exact D.inStore1
  · exact D.inStore2

theorem isValidRange_sector (s : Sector) {offset n : ℕ} (h : offset + n ≤ D.sectorSize) :
    D.isValidRange (D.addressOf s + offset) n = true := by
  have haddr := D.addressOf_inStore s
  have h3 := D.addressable
  rw [isValidRange, decide_eq_true_eq, Nat.mod_eq_of_lt (by omega)]
  omega

end Config

def alternateSectorTo : Sector → Sector
  | .sector0 => .sector1
  | .sector1 => .sector0

theorem Config.apart_alternate (D : Config) (s : Sector) :
    D.addressOf s + D.sectorSize ≤ D.addressOf (alternateSectorTo s) ∨
      D.addressOf (alternateSectorTo s) + D.sectorSize ≤ D.addressOf s := by
  have := D.apart
  cases s <;> simp only [Config.addressOf, alternateSectorTo] <;> omega

@[simp] theorem alternateSectorTo_alternateSectorTo (s : Sector) :
    alternateSectorTo (alternateSectorTo s) = s := by cases s <;> rfl

end DuoFirmware.DCD
