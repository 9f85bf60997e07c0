import DuoFirmware.Dcd.Format

/-!
# The device configuration data

The functions of `DCD`. What only looks at the flash is a function of the contents, what writes is
a flash program. A result is `0` when all went well; a nonzero one is passed on at once, which
`checked` expresses.

A pointer into flash is its address. A footer that the source leaves uninitialized on the stack is
a parameter: any value may be there.
-/

namespace DuoFirmware.DCD

open NorFlash FlashM

variable (D : Config)

/-! ## The store -/

/-- `Store::write`: nonzero when the range is not valid or power failed before the last byte. -/
def storeWrite (offset : ℕ) (data : List UInt8) : FlashM ℤ := do
  if D.isValidRange offset data.length then
    if ← programBytes offset data then pure 0 else pure (-1)
  else pure 1

/-- `Store::eraseSector`, for the address a sector starts at. -/
def eraseSector (address : ℕ) : FlashM ℤ := do
  if D.isValidRange address 0 then
    if ← eraseRange address (address + D.sectorSize) then pure 0 else pure (-1)
  else pure 1

/-- `error = m; if (error) return error;` and then the rest of a function. -/
def checked (m rest : FlashM ℤ) : FlashM ℤ := do
  let error ← m
  if error ≠ 0 then pure error else rest

/-! ## Looking at sectors -/

def sectorHeader (mem : Memory) (s : Sector) : Header :=
  ⟨mem.word32 (D.addressOf s), mem.word32 (D.addressOf s + 4)⟩

def sectorFooter (mem : Memory) (s : Sector) : Footer :=
  readFooter mem (D.addressOf s + D.footerOffset)

/-- The CRC of the sector at an address. -/
def computeCRC (mem : Memory) (sectorStart : ℕ) : ℕ :=
  (D.calculateCRC (mem.bytes (sectorStart + 8) (D.sectorSize - 8 - 4))).toNat

def isCRCValid (mem : Memory) (s : Sector) : Bool :=
  if (sectorFooter D mem s).isValid then
    computeCRC D mem (D.addressOf s) = (sectorFooter D mem s).crc
  else false

/-- Determine if a sector contains any cleared bits that requires erasing. -/
def requiresErase (mem : Memory) (address : ℕ) : Bool :=
  (mem.bytes address D.sectorSize).any (· ≠ 0xFF)

/-- Determines which sector is valid; `none` for `Sector_Unknown`. The CRC is not checked. -/
def findValidSector (mem : Memory) : Option Sector :=
  if (sectorHeader D mem .sector0).isValid then some .sector0
  else if (sectorHeader D mem .sector1).isValid then some .sector1
  else none

/-- `_currentSector`: the newer of two sectors by their counters, which go around after 3. -/
def currentSectorOf (count0 count1 : ℕ) (sector0 sector1 : Sector) : Sector :=
  if (count0 + 1) % 4 = count1 then sector1
  else if (count1 + 1) % 4 = count0 then sector0
  else sector0

/-- Determine the current sector, given one that is marked as valid. -/
def evaluateSectors (mem : Memory) (primary secondary : Sector) (secondarySeal : ℕ)
    (primaryCounter secondaryCounter : ℕ) : Sector :=
  if secondarySeal = Header.sealValid then
    let crcValidPrimary := isCRCValid D mem primary
    let crcValidSecondary := isCRCValid D mem secondary
    if crcValidPrimary ^^ crcValidSecondary then
      if crcValidPrimary then primary else secondary
    else if crcValidPrimary then currentSectorOf primaryCounter secondaryCounter primary secondary
    else .sector1
  else if secondarySeal = Header.sealInvalidV2 then
    if isCRCValid D mem primary then primary else secondary
  else
    -- written by v1 code: there is nothing to fall back to
    primary

/-- Determine the sector that contains the latest valid data. -/
def currentSector (mem : Memory) : Option Sector :=
  match findValidSector D mem with
  | none => none
  | some primary =>
    let secondary := alternateSectorTo primary
    some (evaluateSectors D mem primary secondary (sectorHeader D mem secondary).sealWord
      (sectorFooter D mem primary).counter (sectorFooter D mem secondary).counter)

/-! ## Writing sectors -/

/-- Erase the given sector if it requires it. -/
def erase (s : Sector) : FlashM ℤ := do
  let required ← look fun mem ↦ requiresErase D mem (D.addressOf s)
  if required then eraseSector D (D.addressOf s) else pure 0

def writeHeader (s : Sector) (header : Header) : FlashM ℤ :=
  storeWrite D (D.addressOf s) header.toBytes

/-- `store.write` of bytes that are themselves in flash. -/
def storeCopy (offset source n : ℕ) : FlashM ℤ := do
  let data ← look fun mem ↦ mem.bytes source n
  storeWrite D offset data

/-- `_write_v2_footer`: write the footer to the sector, excluding the CRC. -/
def writeV2Footer (stack : Footer) (s : Sector) (existingFooter : Option Footer) (counter : ℕ) :
    FlashM ℤ :=
  let footer := match existingFooter with
    | some footer => footer
    | none => stack.initialized
  storeWrite D (D.addressOf s + D.footerOffset) (footer.setCounter counter).toBytes

/-- The footer of the existing sector, if there is one and its footer is valid. -/
def validFooter (mem : Memory) (existing : Option ℕ) : Option Footer :=
  match existing with
  | some address =>
    let footer := readFooter mem (address + D.footerOffset)
    if footer.isValid then some footer else none
  | none => none

/-- The counter of a rewritten sector, given the valid footer of the existing one. -/
def nextCounter : Option Footer → ℕ
  | some existingFooter => (existingFooter.counter + 1) % 4
  | none => 0

/-- The end of `_writeSector`, when the data is in place: the footer, the CRC and the header. -/
def finishSector (stack : Footer) (existing : Option ℕ) (newSector : Sector) : FlashM ℤ :=
  let destination := D.addressOf newSector
  checked (do
    let existingFooter ← look fun mem ↦ validFooter D mem existing
    writeV2Footer D stack newSector existingFooter (nextCounter existingFooter)) <|
  checked (do
    let crc ← look fun mem ↦ computeCRC D mem destination
    storeWrite D (destination + (D.sectorSize - 4)) (le32 crc)) <|
  writeHeader D newSector Header.makeValid

/-- `_writeSector`: perform a rewrite of a sector, with new data from a logical offset on and
everything else from the existing sector. -/
def writeSector (stack : Footer) (offset : ℕ) (data : List UInt8) (existing : Option ℕ)
    (newSector : Sector) : FlashM ℤ :=
  let destination := D.addressOf newSector
  -- `offset` only counts when there is an existing sector
  let before := if existing.isSome then offset else 0
  -- the offset behind the data, a 32-bit sum
  let after := (8 + before + data.length) % 4294967296
  checked (erase D newSector) <|
  checked (match existing with
    | some address => storeCopy D (destination + 8) (address + 8) offset
    | none => pure 0) <|
  checked (if data.length ≠ 0 then storeWrite D (destination + (8 + before)) data else pure 0) <|
  checked (match existing with
    | some address =>
      storeCopy D (destination + after) (address + after) (D.sectorSize - after - 32)
    | none => pure 0) <|
  finishSector D stack existing newSector

/-- Creates the sector as a valid sector, with data initialized to `0xFF`. -/
def initializeSector (stack : Footer) (s : Sector) : FlashM ℤ := writeSector D stack 0 [] none s

/-- Fetches a valid sector, initializing a sector if there is no valid one. -/
def currentValidSector (stack : Footer) : FlashM Sector := do
  let current ← look (currentSector D)
  match current with
  | some current => pure current
  | none => do
    let _ ← initializeSector D stack .sector1
    pure .sector1

/-! ## Reading and writing -/

/-- `read`: a pointer to the data at a logical offset. -/
def read (stack : Footer) (offset : ℕ) : FlashM ℕ := do
  let current ← currentValidSector D stack
  pure (D.addressOf current + 8 + offset)

/-- `write`: write data at a logical offset. The sum of offset and length is a 32-bit one. -/
def write (stack : Footer) (offset : ℕ) (data : List UInt8) : FlashM ℤ :=
  if offset ≥ D.length then pure 1
  else if (offset + data.length) % 4294967296 > D.length then pure 2
  else if data.length = 0 then pure 0
  else do
    let current ← currentValidSector D stack
    checked (writeSector D stack offset data (some (D.addressOf current))
        (alternateSectorTo current)) <|
      writeHeader D current Header.makeInvalid

end DuoFirmware.DCD
