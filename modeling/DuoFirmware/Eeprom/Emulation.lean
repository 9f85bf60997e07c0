import DuoFirmware.Eeprom.Layout

/-!
# The EEPROM emulation

The functions of `EEPROMEmulation`, over a store that can lose power. What the class reads from
flash without changing it is a function of the contents; what it writes is a flash program. The
two members that survive between calls, the active and the alternate page, are passed in and
returned.

`Index` is a 16-bit type, so every index computed from another one is reduced modulo `65536`.
-/

namespace DuoFirmware.EEPROMEmulation

open NorFlash FlashM

/-- Which page is read and written, and which one the next page swap writes to. -/
structure Pages where
  activePage : LogicalPage
  alternatePage : LogicalPage
  deriving DecidableEq, Repr

variable (E : Layout)

/-! ## The store -/

/-- `Store::write`: `0` when the data was written, `-1` when power failed before the last byte or,
for a store that verifies, when what reads back is not what was written. -/
def storeWrite (offset : ℕ) (data : List UInt8) : FlashM ℤ := do
  if ← programBytes offset data then
    let back ← look fun mem ↦ mem.bytes offset data.length
    if E.verifies && back != data then pure (-1) else pure 0
  else pure (-1)

/-- Get the current status of a page. -/
def readPageStatus (mem : Memory) (page : LogicalPage) : ℕ := mem.word32 (E.getPageBegin page)

/-- Update the status of a page. -/
def writePageStatus (page : LogicalPage) (status : ℕ) : FlashM Bool := do
  let result ← storeWrite E (E.getPageBegin page) (PageHeader.toBytes status)
  pure (result = 0)

/-- Figure out which page to read from and write to: the first active one. -/
def updateActivePage (mem : Memory) : Pages :=
  if readPageStatus E mem .page1 = PageHeader.active then ⟨.page1, .page2⟩
  else if readPageStatus E mem .page2 = PageHeader.active then ⟨.page2, .page1⟩
  else ⟨.noPage, .noPage⟩

/-- Reset an entire page to `0xFF`. The result of `eraseSector` is ignored. -/
def erasePage (page : LogicalPage) : FlashM Unit := do
  let _ ← eraseRange (E.getPageBegin page) (E.getPageEnd page)
  pure ()

/-- Verify that an entire page is erased. -/
def verifyPage (mem : Memory) (page : LogicalPage) : Bool :=
  (mem.bytes (E.getPageBegin page) (E.getPageEnd page - E.getPageBegin page)).all (· = 0xFF)

/-! ## Iterating over records -/

section Iteration

variable {σ : Type}

/-- Yield the records at the given addresses to `f`, which updates what it captured and says
whether to break early. -/
def forEachRecordAt (mem : Memory) (f : σ → ℕ → Record → σ × Bool) : List ℕ → σ → σ
  | [], s => s
  | address :: addresses, s =>
    match f s address (readRecord mem address) with
    | (s', true) => s'
    | (s', false) => forEachRecordAt mem f addresses s'

/-- Iterate through a page and yield each record, valid or not. -/
def forEachRecord (mem : Memory) (page : LogicalPage) (f : σ → ℕ → Record → σ × Bool) (s : σ) : σ :=
  forEachRecordAt mem f (E.slotAddrs page) s

/-- Iterate through a page and yield each valid record up to the first one that is not. -/
def forEachValidRecord (mem : Memory) (page : LogicalPage) (f : σ → ℕ → Record → σ) (s : σ) : σ :=
  forEachRecord E mem page
    (fun s address record ↦ if record.valid then (f s address record, false) else (s, true)) s

end Iteration

/-! ## Reading -/

/-- Store the data of a record in a range that starts at `indexBegin`. -/
def storeData (indexBegin indexEnd : ℕ) (data : List UInt8) (record : Record) : List UInt8 :=
  if indexBegin ≤ record.index ∧ record.index < indexEnd then
    data.set (record.index - indexBegin) record.data
  else data

/-- Extract the latest value of each index of a range; `0xFF` for those that have none. -/
def readRange (mem : Memory) (page : LogicalPage) (indexBegin length : ℕ) : List UInt8 :=
  let indexEnd := (indexBegin + length) % 65536
  forEachValidRecord E mem page (fun data _ record ↦ storeData indexBegin indexEnd data record)
    (List.replicate length 0xFF)

/-- What `readRangeAndFindEmpty` finds out. -/
structure Found where
  existingData : List UInt8
  emptyAddress : ℕ
  hasInvalidRecords : Bool
  deriving DecidableEq, Repr

/-- Read values and find the address where to write new records. -/
def readRangeAndFindEmpty (mem : Memory) (page : LogicalPage) (indexBegin length : ℕ) : Found :=
  let indexEnd := (indexBegin + length) % 65536
  forEachRecord E mem page
    (fun found address record ↦
      if record.empty then ({ found with emptyAddress := address }, true)
      else if record.valid then
        ({ found with
            existingData := storeData indexBegin indexEnd found.existingData record }, false)
      else ({ found with hasInvalidRecords := true }, true))
    ⟨List.replicate length 0xFF, E.getPageEnd page, false⟩

/-! ## Appending records -/

/-- Write a record to an empty slot; `false` when it does not fit or the store fails. -/
def writeRecord (writeAddress endAddress : ℕ) (record : Record) : FlashM Bool := do
  if writeAddress + 4 > endAddress then pure false
  else
    let result ← storeWrite E writeAddress record.toBytes
    pure (result ≥ 0)

/-- The writing loop of `writeRangeChanged`: each changed value goes in the slot before
`writeAddress`. -/
def writeChangedLoop (endAddress : ℕ) : ℕ → ℕ → List UInt8 → List UInt8 → FlashM Bool
  | writeAddress, index, e :: existingData, d :: data =>
    if e ≠ d then do
      let success ← writeRecord E (writeAddress - 4) endAddress (.of index d)
      if success then writeChangedLoop endAddress (writeAddress - 4) (index + 1) existingData data
      else pure false
    else writeChangedLoop endAddress writeAddress (index + 1) existingData data
  | _, _, _, _ => pure true

/-- Write new records backwards in flash, so that none of them is read before the last one is
complete. -/
def writeRangeChanged (activePage : LogicalPage) (writeAddressBegin indexBegin : ℕ)
    (data existingData : List UInt8) : FlashM Bool := do
  let changedCount := (existingData.zip data).countP fun p ↦ p.1 ≠ p.2
  if changedCount > 0 then
    let writeAddress := writeAddressBegin + changedCount * 4
    let endAddress := E.getPageEnd activePage
    -- an empty record has to separate the new ones from whatever follows
    let separatorRecord ← look fun mem ↦ readRecord mem writeAddress
    if writeAddress < endAddress && !separatorRecord.empty then pure false
    else writeChangedLoop E endAddress writeAddress indexBegin existingData data
  else pure true

/-! ## Compaction -/

/-- The addresses of the latest records of a batch, as offsets in the page by index in the batch,
and whether a record belongs to a later batch. -/
structure Batch where
  recordAddresses : List ℕ
  hasMoreRecords : Bool
  deriving DecidableEq, Repr

/-- `recordAddresses[indexOffset] = addressOffset`, growing the vector with zeros as needed. -/
def saveOffset (recordAddresses : List ℕ) (indexOffset addressOffset : ℕ) : List ℕ :=
  (recordAddresses ++ List.replicate (indexOffset + 1 - recordAddresses.length) 0).set indexOffset
    addressOffset

/-- One pass through the page: save the records with `firstIndex ≤ index < lastIndex`. -/
def findBatch (mem : Memory) (page : LogicalPage) (firstIndex lastIndex : ℕ) : Batch :=
  let baseAddress := E.getPageBegin page
  forEachValidRecord E mem page
    (fun batch address record ↦
      { recordAddresses :=
          if firstIndex ≤ record.index ∧ record.index < lastIndex then
            saveOffset batch.recordAddresses (record.index - firstIndex)
              ((address - baseAddress) % 65536)
          else batch.recordAddresses
        hasMoreRecords := batch.hasMoreRecords || decide (lastIndex ≤ record.index) })
    ⟨[], false⟩

section Unique

variable {σ : Type} (f : σ → ℕ → Record → FlashM σ)

/-- Yield the records of a batch that have a value. -/
def yieldBatch (baseAddress : ℕ) : List ℕ → σ → FlashM σ
  | [], s => pure s
  | addressOffset :: offsets, s =>
    if addressOffset ≠ 0 then do
      let address := baseAddress + addressOffset
      let record ← look fun mem ↦ readRecord mem address
      let s' ← f s address record
      yieldBatch baseAddress offsets s'
    else yieldBatch baseAddress offsets s

/-- The passes of `forEachUniqueValidRecord`, in batches of 128 indices. Out of fuel is a loop
that goes on. -/
def batchLoop (page : LogicalPage) : ℕ → ℕ → ℕ → σ → FlashM σ
  | 0, _, _, _ => hang
  | fuel + 1, firstIndex, lastIndex, s => do
    let batch ← look fun mem ↦ findBatch E mem page firstIndex lastIndex
    let s' ← yieldBatch f (E.getPageBegin page) batch.recordAddresses s
    if batch.hasMoreRecords then
      batchLoop page fuel ((firstIndex + 128) % 65536) ((lastIndex + 128) % 65536) s'
    else pure s'

/-- Iterate through a page and yield each valid record once, with the latest value. After 512
passes `firstIndex` is back at `0` and the loop repeats itself. -/
def forEachUniqueValidRecord (page : LogicalPage) (s : σ) : FlashM σ :=
  batchLoop E f page 512 0 128 s

end Unique

/-- Copy the records of the active page during a page swap, except those of a range. Returns the
success flag and the address behind the last record. -/
def copyAllRecordsToPageExcept (sourcePage destinationPage : LogicalPage)
    (writeAddress exceptIndexBegin exceptIndexEnd : ℕ) : FlashM (Bool × ℕ) :=
  forEachUniqueValidRecord E
    (fun s _ record ↦
      if ¬ (exceptIndexBegin ≤ record.index ∧ record.index < exceptIndexEnd) ∧
          record.data ≠ 0xFF then do
        let success ← andThen s.1 (writeRecord E s.2 (E.getPageEnd destinationPage)
          (.of record.index record.data))
        pure (success, s.2 + 4)
      else pure s)
    sourcePage (true, writeAddress)

/-- Write a range of records from an address on, without those that are `0xFF`. -/
def writeRangeDirect (endAddress : ℕ) : ℕ → ℕ → List UInt8 → FlashM Bool
  | _, _, [] => pure true
  | writeAddress, index, d :: data =>
    if d ≠ 0xFF then do
      let success ← writeRecord E writeAddress endAddress (.of index d)
      if success then writeRangeDirect endAddress (writeAddress + 4) (index + 1) data
      else pure false
    else writeRangeDirect endAddress writeAddress (index + 1) data

/-- One try of a page swap. -/
def swapTry (sourcePage destinationPage : LogicalPage) (indexBegin : ℕ) (data : List UInt8)
    (tries : ℕ) : FlashM Bool := do
  let erased ← look fun mem ↦ verifyPage E mem destinationPage
  let _ ← (if tries > 0 || !erased then erasePage E destinationPage else pure ())
  let success ← writePageStatus E destinationPage PageHeader.copy
  let writeAddress := E.getPageBegin destinationPage + 4
  let copied ←
    (if success then
      copyAllRecordsToPageExcept E sourcePage destinationPage writeAddress indexBegin
        ((indexBegin + data.length) % 65536)
    else pure (false, writeAddress))
  let success ← andThen copied.1
    (writeRangeDirect E (E.getPageEnd destinationPage) copied.2 indexBegin data)
  let success ← andThen success (writePageStatus E destinationPage PageHeader.active)
  andThen success (writePageStatus E sourcePage PageHeader.inactive)

/-- Compact the active page to the alternate one, write the new records there and switch the
pages. A second try starts from an erased page. -/
def swapPagesAndWrite (pages : Pages) (indexBegin : ℕ) (data : List UInt8) :
    FlashM (Bool × Pages) := do
  let sourcePage := pages.activePage
  let destinationPage := pages.alternatePage
  if ← swapTry E sourcePage destinationPage indexBegin data 0 then
    let pages' ← look (updateActivePage E)
    pure (true, pages')
  else if ← swapTry E sourcePage destinationPage indexBegin data 1 then
    let pages' ← look (updateActivePage E)
    pure (true, pages')
  else pure (false, pages)

/-- Write each byte in the range if its value has changed. `allocated` says whether the buffer for
the existing data could be allocated. -/
def writeRange (pages : Pages) (indexBegin : ℕ) (data : List UInt8) (allocated : Bool) :
    FlashM Pages := do
  -- don't write anything if the range is not inside the capacity
  let indexEnd := (indexBegin + data.length) % 65536
  if indexEnd > E.capacity then pure pages
  else if !allocated then pure pages
  else
    let found ← look fun mem ↦
      readRangeAndFindEmpty E mem pages.activePage indexBegin data.length
    let success ← andThen (!found.hasInvalidRecords)
      (writeRangeChanged E pages.activePage found.emptyAddress indexBegin data found.existingData)
    if success then pure pages
    else
      let (_, pages') ← swapPagesAndWrite E pages indexBegin data
      pure pages'

/-! ## Public operations -/

/-- Destroys all the data. -/
def clear : FlashM Pages := do
  erasePage E .page1
  erasePage E .page2
  let _ ← writePageStatus E .page1 PageHeader.active
  look (updateActivePage E)

/-- Initialize the EEPROM pages. -/
def init : FlashM Pages := do
  let pages ← look (updateActivePage E)
  if pages.activePage = .noPage then clear E else pure pages

/-- Which page needs to be erased after a page swap. -/
def getPendingErasePage (mem : Memory) (pages : Pages) : LogicalPage :=
  if readPageStatus E mem pages.alternatePage ≠ PageHeader.erased then pages.alternatePage
  else .noPage

/-- Erases the old page after a page swap, if necessary. -/
def performPendingErase (pages : Pages) : FlashM Unit := do
  let pending ← look fun mem ↦ getPendingErasePage E mem pages
  if pending ≠ .noPage then erasePage E pending else pure ()

end DuoFirmware.EEPROMEmulation
