import DuoFirmware.Mdns.Buffer

/-!
# Labels of mDNS names

A name that the device answers to is a chain of labels, each with its size before its characters,
and the last of them empty. Names in a packet are read byte by byte; a byte from `0xc0` on is the
first half of a pointer, wherever it is met. All registered chains are compared with the name at
the same time, by one iterator each.
-/

namespace DuoFirmware.Mdns

open Divergence Program

/-- `UNKNOWN_NAME`. -/
def unknownName : ℤ := -1

/-- `BUFFER_UNDERFLOW`. -/
def bufferUnderflow : ℤ := -2

/-- `DOT`. -/
def dot : UInt8 := 46

structure Label where
  /-- Where the label lies. -/
  address : ℕ
  /-- The size, and then the characters. -/
  data : List UInt8
  caseSensitive : Bool
  deriving DecidableEq, Repr

namespace Label

/-- `Label::Label`, for names of fewer than 256 bytes; `malloc` says whether there was memory.
`EMPTY_DATA` is a null pointer, so that without memory a label takes its data from address zero. -/
def new (nullData : List UInt8) (malloc : Bool) (address : ℕ) (name : List UInt8)
    (caseSensitive : Bool) : Label where
  address := address
  data := if malloc then .ofNat name.length :: name else nullData
  caseSensitive := caseSensitive

/-- A byte of `data`. -/
def byte (l : Label) (i : ℕ) : UInt8 := l.data.getD i 0

def getSize (l : Label) : UInt8 := l.byte 0

/-- The characters. -/
def chars (l : Label) : List UInt8 := (l.data.drop 1).take l.getSize.toNat

end Label

/-- A label and what its `nextLabel` leads to, up to the null pointer. -/
abbrev Chain := List Label

/-! ## Reading -/

/-- Whether a byte is the first half of a pointer. -/
def isPointer (c : UInt8) : Prop := c &&& labelPointer = labelPointer

instance (c : UInt8) : Decidable (isPointer c) := inferInstanceAs (Decidable (_ = _))

/-- The offset in a pointer. -/
def pointerOffset (c c₂ : UInt8) : ℕ := (c &&& ~~~labelPointer).toNat * 256 + c₂.toNat

/-- `Label::Reader::hasNext`, where `c` is the reader's last byte. -/
def hasNext (c : UInt8) (b : Buffer) : Prop := c ≠ 0 ∧ 0 < b.available

instance (c : UInt8) (b : Buffer) : Decidable (hasNext c b) := inferInstanceAs (Decidable (_ ∧ _))

/-- The loop of `next` over pointers. -/
def followPointers : ℕ → UInt8 → Program Buffer UInt8
  | 0, _ => cut
  | hops + 1, c =>
    if isPointer c then do
      let more ← look fun b ↦ decide (0 < b.available)
      if more then
        let c₂ ← readUInt8
        update Buffer.mark
        update fun b ↦ b.setOffset (pointerOffset c c₂)
        let c ← readUInt8
        followPointers hops c
      else followPointers hops c
    else pure c

/-- `Label::Reader::next`. -/
def next (hops : ℕ) : Program Buffer UInt8 := do
  let c ← readUInt8
  followPointers hops c

/-! ## Comparing -/

/-- `Label::Iterator`. -/
structure Iterator where
  label : Chain
  size : UInt8
  offset : UInt8
  matched : Bool
  deriving DecidableEq, Repr

namespace Iterator

/-- The size of the label a pointer leads to. -/
def sizeOf : Chain → UInt8
  | [] => 0
  | l :: _ => l.getSize

def new (label : Chain) : Iterator := ⟨label, sizeOf label, 0, true⟩

/-- `equalsIgnoreCase`, for a character of the label. -/
def equalsIgnoreCase (d c : UInt8) : Bool :=
  (97 ≤ c && c ≤ 122 && d == c - 32) || (65 ≤ c && c ≤ 90 && d == c + 32)

/-- The loop of `match` over labels that are used up. A null pointer is taken to a label of size
zero, which ends the loop; nothing matches there. -/
def nextLabel (size offset : UInt8) : Chain → Chain × UInt8 × UInt8
  | [] => ([], size, offset)
  | l :: label =>
    if size < offset then
      nextLabel (sizeOf label) 0 label
    else (l :: label, size, offset)

/-- Whether the label accepts a byte. -/
def accepts (offset size c : UInt8) : Chain → Bool
  | [] => false
  | l :: _ => offset ≤ size &&
      (l.byte offset.toNat == c || (!l.caseSensitive && equalsIgnoreCase (l.byte offset.toNat) c))

/-- `Label::Iterator::match`. -/
def feed (it : Iterator) (c : UInt8) : Iterator :=
  if it.matched then
    let (label, size, offset) := nextLabel it.size it.offset it.label
    ⟨label, size, offset + 1, accepts offset size c label⟩
  else it

end Iterator

/-- What `Label::Matcher::match` carries through its loops: the reader's last byte, the iterators
and the name read so far. -/
structure Matching where
  c : UInt8
  iterators : List Iterator
  lastName : List UInt8
  deriving DecidableEq, Repr

namespace Matching

def start (labels : List Chain) : Matching := ⟨1, labels.map Iterator.new, []⟩

/-- The reader returned a byte, and all iterators are given it. -/
def feed (m : Matching) (c : UInt8) : Matching :=
  { m with c := c, iterators := m.iterators.map (·.feed c) }

def append (m : Matching) (c : UInt8) : Matching := { m with lastName := m.lastName ++ [c] }

end Matching

/-- The loop of `match` over the bytes of one label, of which `left` are missing. -/
def labelLoop (hops : ℕ) : ℕ → Matching → Program Buffer Matching
  | 0, m => pure m
  | left + 1, m => do
    let more ← look fun b ↦ decide (hasNext m.c b)
    if more then
      let c ← next hops
      labelLoop hops left ((m.feed c).append c)
    else pure m

/-- The loop of `match` over labels. -/
def nameLoop (hops : ℕ) : ℕ → Matching → Program Buffer Matching
  | 0, _ => cut
  | rounds + 1, m => do
    let more ← look fun b ↦ decide (hasNext m.c b)
    if more then
      let size ← next hops
      let m ← labelLoop hops size.toNat (m.feed size)
      nameLoop hops rounds (if 0 < size then m.append dot else m)
    else pure m

/-- The loop that selects the name: `idx` iterators were looked at. The result of a match is
overwritten. -/
def selectLoop (nameIndex : ℤ) (idx : ℕ) : List Iterator → ℤ
  | [] => nameIndex
  | it :: iterators =>
    if nameIndex = unknownName then
      let _nameIndex := if it.matched then (idx : ℤ) else nameIndex
      selectLoop 1 (idx + 1) iterators
    else nameIndex

/-- What `match` returns, with `getLastName`. -/
structure Match where
  nameIndex : ℤ
  lastName : List UInt8
  deriving DecidableEq, Repr

/-- The result of `match` after its loops. -/
def Matching.select (m : Matching) : Match :=
  ⟨if m.c = 0 then selectLoop unknownName 0 m.iterators else bufferUnderflow, m.lastName⟩

/-- `Label::Matcher::match`. -/
def matchName (labels : List Chain) (fuel : ℕ) : Program Buffer Match := do
  let m ← nameLoop fuel fuel (.start labels)
  update Buffer.reset
  pure m.select

/-! ## Writing -/

/-- The buffer that is written, and the `writeOffset` of each label. -/
structure Output where
  buffer : Buffer
  writeOffset : ℕ → Option ℕ

namespace Output

variable (out : Output)

def writeUInt8 (value : UInt8) : Output := { out with buffer := out.buffer.writeUInt8 value }

def writeUInt16 (value : ℕ) : Output := { out with buffer := out.buffer.writeUInt16 value }

def writeUInt32 (value : ℕ) : Output := { out with buffer := out.buffer.writeUInt32 value }

/-- `Label::write`. -/
def writeName : Chain → Output → Output
  | [], out => out
  | l :: label, out =>
    match out.writeOffset l.address with
    | none =>
      let out := { out with
        writeOffset := Function.update out.writeOffset l.address (some out.buffer.offset) }
      writeName label
        ((List.range (l.getSize + 1).toNat).foldl (fun out i ↦ out.writeUInt8 (l.byte i)) out)
    | some writeOffset => out.writeUInt16 (labelPointer.toNat * 256 ||| writeOffset)

/-- `Label::getWriteSize`, which adds in 8 bits. -/
def getWriteSize (out : Output) : Chain → UInt8
  | [] => 0
  | l :: label =>
    match out.writeOffset l.address with
    | none => l.getSize + 1 + out.getWriteSize label
    | some _ => 2

/-- `Label::reset`. -/
def resetName : Chain → Output → Output
  | [], out => out
  | l :: label, out =>
    resetName label { out with writeOffset := Function.update out.writeOffset l.address none }

end Output

end DuoFirmware.Mdns
