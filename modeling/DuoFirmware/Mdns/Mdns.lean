import DuoFirmware.Mdns.Queries

/-!
# The configuration and the answers of the mDNS library

The setters build the chains of labels for the host, the service and its instance, which share the
labels of their domain, and collect the entries of the TXT record. `writeResponses` writes the
records of a mask: first the answers, then the additional records, each kind in the same order.

Labels are numbered as they are allocated; whether there is memory for the characters of a label
is a function of its number.
-/

namespace DuoFirmware.Mdns

/-- `MAX_LABEL_SIZE`. -/
def maxLabelSize : ℕ := 63

/-! ## TXT data -/

structure TxtData where
  /-- The block of memory, unless it is a null pointer. -/
  data : Option (List UInt8) := none
  size : ℕ := 0
  deriving DecidableEq, Repr

namespace TxtData

/-- The length byte of an entry, which `addEntry` takes from 8 bits. -/
def addedSize (key value : List UInt8) : ℕ := (key.length + value.length + 2) % 256

/-- An entry as it is written into the block. -/
def entry (key value : List UInt8) : List UInt8 :=
  (.ofNat (addedSize key value) - 1) :: (key ++ 61 :: value)

/-- Bytes are stored from `i` on; what lies behind the block is lost. -/
def store (block : List UInt8) (i : ℕ) (bytes : List UInt8) : List UInt8 :=
  (bytes.foldl (fun (s : List UInt8 × ℕ) b ↦ (s.1.set s.2 b, s.2 + 1)) (block, i)).1

/-- `TxtData::addEntry`; `malloc` answers with a block or without one. The loops over the key and
the value count in 8 bits, and do not end for 256 bytes or more. -/
def addEntry (malloc : ℕ → Option (List UInt8)) (key value : List UInt8) (t : TxtData) :
    Option (Bool × TxtData) :=
  let size := (t.size + addedSize key value) % 65536
  match malloc size with
  | none => some (false, ⟨none, size⟩)
  | some block =>
    if key.length < 256 ∧ value.length < 256 then
      let block := store block 0 ((t.data.getD []).take t.size)
      some (true, ⟨some (store block t.size (entry key value)), size⟩)
    else none

/-- A byte that is written; a null pointer leads to the memory from address zero. -/
def byte (nullData : List UInt8) (t : TxtData) (i : ℕ) : UInt8 :=
  (t.data.getD nullData).getD i 0

/-- `TxtData::write`. -/
def write (nullData : List UInt8) (t : TxtData) (out : Output) : Output :=
  (List.range t.size).foldl (fun out i ↦ out.writeUInt8 (t.byte nullData i))
    (out.writeUInt16 t.size)

end TxtData

/-! ## The configuration -/

/-- Letters, digits and hyphens. -/
def isAlphaDigitHyphen (string : List UInt8) : Bool :=
  string.all fun c ↦
    (97 ≤ c && c ≤ 122) || (65 ≤ c && c ≤ 90) || (48 ≤ c && c ≤ 57) || c == 45

def isNetUnicode (string : List UInt8) : Bool := string.all fun c ↦ 0x1f ≤ c && c != 0x7f

/-- `MDNS`, with the null pointer for a chain that was not set. -/
structure MDNS where
  localName : Chain
  host : Chain := []
  service : Chain := []
  inst : Chain := []
  port : ℕ := 0
  txtData : TxtData := {}
  /-- The number of the next label. -/
  fresh : ℕ := 2

/-- What the memory answers: the bytes at address zero, and whether there is memory for a label. -/
structure Memory where
  nullData : List UInt8
  malloc : ℕ → Bool
  /-- At address zero lies the initial stack pointer, `0x20020000`. -/
  nullData_zero : nullData.getD 0 0 = 0

namespace MDNS

section Setters

variable (mem : Memory)

/-- A label of the configuration. -/
def newLabel (address : ℕ) (name : List UInt8) (caseSensitive : Bool) : Label :=
  .new mem.nullData (mem.malloc address) address name caseSensitive

/-- The labels that every name ends with. -/
def new : MDNS where
  localName := [newLabel mem 1 [108, 111, 99, 97, 108] false, newLabel mem 0 [] false]

variable (m : MDNS)

/-- `labels`. -/
def labels : List Chain := [m.host, m.service, m.inst]

/-- `setHostname`. -/
def setHostname (hostname : List UInt8) : Bool × MDNS :=
  if hostname.length < maxLabelSize ∧ isAlphaDigitHyphen hostname then
    let label := newLabel mem m.fresh hostname false
    (label.getSize.toNat = hostname.length,
      { m with host := label :: m.localName, fresh := m.fresh + 1 })
  else (false, m)

/-- The part of `setService` for the instance. -/
def setInstance (inst : List UInt8) : Bool × MDNS :=
  let label := newLabel mem m.fresh inst true
  (label.getSize.toNat = inst.length,
    { m with inst := label :: m.service, fresh := m.fresh + 1 })

/-- The part of `setService` for the service, behind the label of the protocol. -/
def setServiceName (protoLabel : Label) (service inst : List UInt8) : Bool × MDNS :=
  let label := newLabel mem m.fresh (95 :: service) false
  let m := { m with service := label :: protoLabel :: m.localName, fresh := m.fresh + 1 }
  if label.getSize.toNat = service.length + 1 then setInstance mem m inst else (false, m)

/-- The part of `setService` for the labels. -/
def setServiceLabels (protocol service inst : List UInt8) : Bool × MDNS :=
  let label := newLabel mem m.fresh (95 :: protocol) false
  let m := { m with fresh := m.fresh + 1 }
  if label.getSize.toNat = protocol.length + 1 then setServiceName mem m label service inst
  else (false, m)

/-- `setService`, which takes over the port in any case. -/
def setService (protocol service : List UInt8) (port : ℕ) (inst : List UInt8) : Bool × MDNS :=
  let (success, m) :=
    if protocol.length < maxLabelSize - 1 ∧ service.length < maxLabelSize - 1 ∧
        inst.length < maxLabelSize ∧ isAlphaDigitHyphen protocol ∧ isAlphaDigitHyphen service ∧
        isNetUnicode inst then
      setServiceLabels mem m protocol service inst
    else (false, m)
  (success, { m with port := port })

end Setters

/-! ## Answers -/

/-- The loop of `count`. -/
def countLoop : ℕ → UInt16 → UInt8 → UInt8
  | 0, _, count => count
  | n + 1, bits, count => countLoop n (bits >>> 1) (count + (bits &&& 1).toUInt8)

def count (bits : UInt16) : UInt8 := countLoop 6 bits 0

def ttl2Min : ℕ := 120

def ttl75Min : ℕ := 4500

section Records

variable (mem : Memory) (m : MDNS) (ip : ℕ → UInt8)

/-- `writeRecord`, for one of the names. -/
def writeRecord (name : Chain) (type ttl : ℕ) (out : Output) : Output :=
  (((out.writeName name).writeUInt16 type).writeUInt16 1).writeUInt32 ttl

def writeARecord (out : Output) : Output :=
  let out := (writeRecord m.host aType ttl2Min out).writeUInt16 4
  (List.range 4).foldl (fun out i ↦ out.writeUInt8 (ip i)) out

def writePTRRecord (out : Output) : Output :=
  let out := writeRecord m.service ptrType ttl75Min out
  (out.writeUInt16 (out.getWriteSize m.inst).toNat).writeName m.inst

def writeSRVRecord (out : Output) : Output :=
  let out := writeRecord m.inst srvType ttl2Min out
  let out := out.writeUInt16 (6 + (out.getWriteSize m.host).toNat)
  (((out.writeUInt16 0).writeUInt16 0).writeUInt16 m.port).writeName m.host

def writeTXTRecord (out : Output) : Output :=
  m.txtData.write mem.nullData (writeRecord m.inst txtType ttl75Min out)

def writeNSECHostRecord (out : Output) : Output :=
  let out := (writeRecord m.host nsecType ttl2Min out).writeUInt16 5
  (((out.writeName m.host).writeUInt8 0).writeUInt8 1).writeUInt8 0x40

def writeNSECInstanceRecord (out : Output) : Output :=
  let out := ((writeRecord m.inst nsecType ttl2Min out).writeUInt16 9).writeName m.inst
  [0, 5, 0, 0, 0x80, 0, 0x40].foldl Output.writeUInt8 out

/-- The records of the lowest six flags of a mask. -/
def writeRecords (responses : UInt16) (out : Output) : Output :=
  let out := if responses &&& aFlag ≠ 0 then m.writeARecord ip out else out
  let out := if responses &&& ptrFlag ≠ 0 then m.writePTRRecord out else out
  let out := if responses &&& srvFlag ≠ 0 then m.writeSRVRecord out else out
  let out := if responses &&& txtFlag ≠ 0 then m.writeTXTRecord mem out else out
  let out := if responses &&& nsecHostFlag ≠ 0 then m.writeNSECHostRecord out else out
  if responses &&& nsecInstanceFlag ≠ 0 then m.writeNSECInstanceRecord out else out

/-- The loop of `writeResponses`; 16 bits are used up after three passes. -/
def recordLoop : ℕ → UInt16 → Output → Output
  | 0, _, out => out
  | n + 1, responses, out =>
    if 0 < responses then
      recordLoop n (responses >>> 6) (m.writeRecords mem ip responses out)
    else out

/-- Records that are answers are not sent again as additional ones. -/
def withoutRepeated (responses : UInt16) : UInt16 := responses &&& ~~~(responses <<< 6)

/-- `writeResponses`. -/
def writeResponses (responses : UInt16) (out : Output) : Output :=
  let out := m.labels.foldl (fun out label ↦ out.resetName label) out
  let responses := withoutRepeated responses
  let out := ((out.writeUInt16 0).writeUInt16 0x8400).writeUInt16 0
  let out := (out.writeUInt16 (count responses).toNat).writeUInt16 0
  m.recordLoop mem ip 3 responses (out.writeUInt16 (count (responses >>> 6)).toNat)

end Records

end MDNS

/-- The bytes that `Buffer::write` sends. -/
def Buffer.sent (b : Buffer) : List UInt8 := (List.range b.offset).map b.data

end DuoFirmware.Mdns
