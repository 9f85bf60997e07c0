import DuoFirmware.NorFlash.CrashLogic

/-!
# Pages and records of the emulated EEPROM

The EEPROM emulation keeps one record per written byte in the active one of two flash pages. This
file has what is persisted in flash, the page header and the record, and where it lies: a page is a
four-byte status word followed by four-byte records up to the end of the page.

The template parameters of the source become a `Layout`. Its two pages are apart, hold a whole
number of words, at least one record, and at most the 64 KiB that the source asserts statically.
Addresses are natural numbers: the pages lie far below the end of the address space.
-/

namespace DuoFirmware.EEPROMEmulation

open NorFlash

/-- The template parameters: the kind of store and where the pages are. -/
structure Layout where
  /-- Whether the store reads a write back and reports a difference. The serial flash of the Duo
  does, the RAM store that stands in for flash in tests does not. -/
  verifies : Bool
  /-- Address of the first page. -/
  pageBase1 : ℕ
  /-- Size of the first page in bytes. -/
  pageSize1 : ℕ
  /-- Address of the second page. -/
  pageBase2 : ℕ
  /-- Size of the second page in bytes. -/
  pageSize2 : ℕ
  size1 : pageSize1 % 4 = 0 ∧ 8 ≤ pageSize1 ∧ pageSize1 ≤ 65536
  size2 : pageSize2 % 4 = 0 ∧ 8 ≤ pageSize2 ∧ pageSize2 ≤ 65536
  apart : pageBase1 + pageSize1 ≤ pageBase2 ∨ pageBase2 + pageSize2 ≤ pageBase1

/-- The pages of the Duo, `FlashEEPROM` over the serial flash. -/
def duo : Layout where
  verifies := true
  pageBase1 := 0x000B8000
  pageSize1 := 16 * 1024
  pageBase2 := 0x000BC000
  pageSize2 := 16 * 1024
  size1 := by decide
  size2 := by decide
  apart := by decide

inductive LogicalPage where
  | noPage
  | page1
  | page2
  deriving DecidableEq, Repr

/-! ## Page headers -/

namespace PageHeader

def erased : ℕ := 0xFFFFFFFF

/-- Destination of a page swap that has not finished. -/
def copy : ℕ := 0xFFFFEEEE

def active : ℕ := 0xFFFF0000

def inactive : ℕ := 0xCCCC0000

/-- The bytes of a header, as written to flash. -/
def toBytes (status : ℕ) : List UInt8 := le32 status

@[simp] theorem length_toBytes (status : ℕ) : (toBytes status).length = 4 := rfl

end PageHeader

/-! ## Records -/

/-- The value of one byte of the emulated EEPROM. -/
structure Record where
  data : UInt8
  status : UInt8
  index : ℕ
  deriving DecidableEq, Repr

namespace Record

def emptyIndex : ℕ := 0xFFFF

def validStatus : UInt8 := 0

/-- The record of a value; the index is stored in 16 bits. -/
def of (index : ℕ) (data : UInt8) : Record := ⟨data, validStatus, index % 65536⟩

def empty (r : Record) : Bool := r.index = emptyIndex ∧ r.status = 0xFF ∧ r.data = 0xFF

def valid (r : Record) : Bool := r.index ≠ emptyIndex ∧ r.status = validStatus

/-- The four bytes of a record in flash. -/
def toBytes (r : Record) : List UInt8 := [r.data, r.status, .ofNat r.index, .ofNat (r.index / 256)]

@[simp] theorem length_toBytes (r : Record) : r.toBytes.length = 4 := rfl

theorem valid_of {index : ℕ} (h : index < 65535) (data : UInt8) : (of index data).valid = true := by
  have : index % 65536 ≠ emptyIndex := by rw [emptyIndex]; omega
  simp [valid, of, this]

theorem valid_eq_false_of_empty {r : Record} (h : r.empty = true) : r.valid = false := by
  simp only [empty, decide_eq_true_eq] at h
  simp [valid, h.1]

end Record

/-- The record in the four bytes at an address. -/
def readRecord (mem : Memory) (address : ℕ) : Record :=
  ⟨mem address, mem (address + 1), mem.word16 (address + 2)⟩

theorem readRecord_congr {mem mem' : Memory} {a : ℕ}
    (h : ∀ x, a ≤ x → x < a + 4 → mem' x = mem x) : readRecord mem' a = readRecord mem a := by
  rw [readRecord, readRecord, h a (by omega) (by omega), h (a + 1) (by omega) (by omega),
    Memory.word16_congr fun x h1 h2 ↦ h x (by omega) (by omega)]

/-- Reading back the bytes of a record gives the record. -/
theorem readRecord_of_bytes {mem : Memory} {a : ℕ} {r : Record} (hr : r.index < 65536)
    (h : mem.bytes a 4 = r.toBytes) : readRecord mem a = r := by
  have h' : [mem a, mem (a + 1), mem (a + 2), mem (a + 3)] = r.toBytes := by
    rw [← h]
    simp [Memory.bytes, List.range_succ]
  simp only [Record.toBytes, List.cons.injEq, and_true] at h'
  obtain ⟨h0, h1, h2, h3⟩ := h'
  have hword : mem.word16 (a + 2) = r.index := by
    rw [Memory.word16, h2, show a + 2 + 1 = a + 3 from rfl, h3, UInt8.toNat_ofNat',
      UInt8.toNat_ofNat']
    omega
  rw [readRecord, h0, h1, hword]

/-- A record slot is empty exactly when its bytes are erased. -/
theorem empty_readRecord_iff {mem : Memory} {a : ℕ} :
    (readRecord mem a).empty = true ↔ mem.Erased a (a + 4) := by
  have hword : mem.word16 (a + 2) = 0xFFFF ↔ mem (a + 2) = 0xFF ∧ mem (a + 3) = 0xFF := by
    have b2 := (mem (a + 2)).toNat_lt
    have b3 := (mem (a + 3)).toNat_lt
    rw [← UInt8.toNat_inj, ← UInt8.toNat_inj, Memory.word16, show a + 2 + 1 = a + 3 from rfl]
    change _ ↔ _ = 255 ∧ _ = 255
    omega
  simp only [Record.empty, readRecord, Record.emptyIndex, hword, decide_eq_true_eq]
  constructor
  · rintro ⟨⟨h2, h3⟩, h1, h0⟩ x hx1 hx2
    obtain rfl | rfl | rfl | rfl : x = a ∨ x = a + 1 ∨ x = a + 2 ∨ x = a + 3 := by omega
    all_goals assumption
  · intro h
    exact ⟨⟨h _ (by omega) (by omega), h _ (by omega) (by omega)⟩, h _ (by omega) (by omega),
      h _ (by omega) (by omega)⟩

namespace Layout

variable (E : Layout)

/-! ## Addresses -/

def smallestPageSize : ℕ := if E.pageSize1 < E.pageSize2 then E.pageSize1 else E.pageSize2

/-- The number of bytes of the emulated EEPROM: half of the records of the smallest page. -/
def capacity : ℕ := E.smallestPageSize / 4 / 2

def getPageBegin : LogicalPage → ℕ
  | .page1 => E.pageBase1
  | .page2 => E.pageBase2
  | .noPage => 0

def getPageEnd : LogicalPage → ℕ
  | .page1 => E.pageBase1 + E.pageSize1
  | .page2 => E.pageBase2 + E.pageSize2
  | .noPage => 0

def getPageSize : LogicalPage → ℕ
  | .page1 => E.pageSize1
  | .page2 => E.pageSize2
  | .noPage => 0

/-- The number of record slots behind the header of a page. -/
def slotCount (page : LogicalPage) : ℕ := (E.getPageSize page - 4) / 4

/-- The address of a record slot. -/
def slotAddr (page : LogicalPage) (k : ℕ) : ℕ := E.getPageBegin page + 4 + 4 * k

/-- The record slots of a page, first to last. -/
def slotAddrs (page : LogicalPage) : List ℕ :=
  (List.range (E.slotCount page)).map (E.slotAddr page)

/-- The slots fill the page. -/
theorem slotAddr_slotCount {page : LogicalPage} (h : page ≠ .noPage) :
    E.slotAddr page (E.slotCount page) = E.getPageEnd page := by
  have h1 := E.size1
  have h2 := E.size2
  cases page
  · exact absurd rfl h
  all_goals
    simp only [slotAddr, slotCount, getPageSize, getPageBegin, getPageEnd]
    omega

theorem capacity_le (page : LogicalPage) (h : page ≠ .noPage) :
    E.capacity ≤ E.slotCount page ∧ E.capacity ≤ 8192 ∧ 1 ≤ E.capacity := by
  have h1 := E.size1
  have h2 := E.size2
  simp only [capacity, smallestPageSize]
  cases page
  · exact absurd rfl h
  all_goals
    simp only [slotCount, getPageSize]
    split <;> omega

theorem capacity_le_8192 : E.capacity ≤ 8192 := (E.capacity_le .page1 (by decide)).2.1

end Layout

end DuoFirmware.EEPROMEmulation
