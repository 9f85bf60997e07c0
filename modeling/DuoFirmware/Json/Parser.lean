import DuoFirmware.Json.Variant
import DuoFirmware.Lib.Bytes

/-!
# The parser

`JsonParser` works in place: what it reads is the text, and it writes the strings that it finds,
with a zero behind each, over the part of the text that it has read. A program fails when it reads
or writes outside of the memory. Loops get a number of rounds that they fail after.
-/

namespace DuoFirmware.Json

variable {S β : Type}

/-- `sizeof` of the objects that are allocated. -/
structure Sizes where
  array : ℕ
  arrayNode : ℕ
  object : ℕ
  objectNode : ℕ

/-- `JsonBuffer`: an allocation of some bytes, unless it fails. -/
structure JsonBuffer (β : Type) where
  alloc : ℕ → β → Option β
  sizes : Sizes

/-- `StaticJsonBuffer`, after its `_size`; sizes have 32 bits and are rounded up to words. -/
def staticJsonBuffer (capacity : ℕ) (sizes : Sizes) : JsonBuffer ℕ where
  alloc bytes size :=
    if (size + bytes) % 2 ^ 32 > capacity then none
    else some ((size + (bytes + 3) / 4 * 4) % 2 ^ 32)
  sizes := sizes

theorem staticJsonBuffer_sizes (capacity : ℕ) (sizes : Sizes) :
    (staticJsonBuffer capacity sizes).sizes = sizes := rfl

/-- `JsonParser`, the memory and the state of the buffer. -/
structure Parser (β : Type) where
  mem : List UInt8
  readPtr : ℕ
  writePtr : ℕ
  buffer : β

abbrev ParserM (β α : Type) := StateT (Parser β) Option α

/-! ## Comments -/

section Comments

variable (mem : List UInt8)

def skipCStyleComment : ℕ → ℕ → Option ℕ
  | 0, _ => none
  | n + 1, ptr => do
    let c ← mem[ptr]?
    if c = 0 then some ptr
    else if c = star then do
      let d ← mem[ptr + 1]?
      if d = slash then some (ptr + 2) else skipCStyleComment n (ptr + 1)
    else skipCStyleComment n (ptr + 1)

def skipCppStyleComment : ℕ → ℕ → Option ℕ
  | 0, _ => none
  | n + 1, ptr => do
    let c ← mem[ptr]?
    if c = 0 ∨ c = lf then some ptr else skipCppStyleComment n (ptr + 1)

def isSpace (c : UInt8) : Bool := c = space ∨ c = tab ∨ c = cr ∨ c = lf

def skipSpacesAndComments : ℕ → ℕ → Option ℕ
  | 0, _ => none
  | n + 1, ptr => do
    let c ← mem[ptr]?
    if isSpace c then skipSpacesAndComments n (ptr + 1)
    else if c = slash then do
      let d ← mem[ptr + 1]?
      if d = star then do
        let ptr ← skipCStyleComment mem n (ptr + 2)
        skipSpacesAndComments n ptr
      else if d = slash then do
        let ptr ← skipCppStyleComment mem n (ptr + 2)
        skipSpacesAndComments n ptr
      else some ptr
    else some ptr

end Comments

/-! ## Strings -/

def isInRange (c low high : UInt8) : Bool := low ≤ c ∧ c ≤ high

def isLetterOrNumber (c : UInt8) : Bool :=
  isInRange c 0x30 0x39 ∨ isInRange c 0x61 0x7a ∨ isInRange c 0x41 0x5a ∨ c = minus ∨ c = dot

def isQuote (c : UInt8) : Bool := c = apostrophe ∨ c = quote

/-- `*ptr = c`. -/
def store (mem : List UInt8) (ptr : ℕ) (c : UInt8) : Option (List UInt8) :=
  if ptr < mem.length then some (mem.set ptr c) else none

/-- The loop of `parseString` with quotes, after the memory and the two pointers. -/
def quotedLoop (stopChar : UInt8) : ℕ → List UInt8 → ℕ → ℕ → Option (List UInt8 × ℕ × ℕ)
  | 0, _, _, _ => none
  | n + 1, mem, readPtr, writePtr => do
    let readPtr := readPtr + 1
    let c ← mem[readPtr]?
    if c = 0 then some (mem, readPtr, writePtr)
    else if c = stopChar then some (mem, readPtr + 1, writePtr)
    else if c = backslash then do
      let readPtr := readPtr + 1
      let c := unescapeChar (← mem[readPtr]?)
      if c = 0 then some (mem, readPtr, writePtr)
      else do
        let mem ← store mem writePtr c
        quotedLoop stopChar n mem readPtr (writePtr + 1)
    else do
      let mem ← store mem writePtr c
      quotedLoop stopChar n mem readPtr (writePtr + 1)

/-- The loop without quotes. -/
def bareLoop : ℕ → List UInt8 → ℕ → ℕ → Option (List UInt8 × ℕ × ℕ)
  | 0, _, _, _ => none
  | n + 1, mem, readPtr, writePtr => do
    let c ← mem[readPtr]?
    if !isLetterOrNumber c then some (mem, readPtr, writePtr)
    else do
      let mem ← store mem writePtr c
      bareLoop n mem (readPtr + 1) (writePtr + 1)

namespace Parser

variable (B : JsonBuffer β) (n : ℕ)

/-- The character at `_readPtr`. -/
def peek : ParserM β UInt8 := fun p ↦ p.mem[p.readPtr]?.map fun c ↦ (c, p)

def skipSpaces : ParserM β Unit := fun p ↦
  (skipSpacesAndComments p.mem n p.readPtr).map fun ptr ↦ ((), { p with readPtr := ptr })

def skip (charToSkip : UInt8) : ParserM β Bool := fun p ↦ do
  let ptr ← skipSpacesAndComments p.mem n p.readPtr
  if (← p.mem[ptr]?) ≠ charToSkip then some (false, p)
  else do
    let ptr ← skipSpacesAndComments p.mem n (ptr + 1)
    some (true, { p with readPtr := ptr })

/-- The string is where `_writePtr` was. -/
def parseString : ParserM β ℕ := fun p ↦ do
  let c ← p.mem[p.readPtr]?
  let (mem, readPtr, writePtr) ←
    if isQuote c then quotedLoop c n p.mem p.readPtr p.writePtr
    else bareLoop n p.mem p.readPtr p.writePtr
  let mem ← store mem writePtr 0
  some (p.writePtr, ⟨mem, readPtr, writePtr + 1, p.buffer⟩)

def parseStringTo : ParserM β (JsonVariant ℕ) := do
  let hasQuotes := isQuote (← peek)
  let value ← parseString n
  pure (if hasQuotes then .string (some value) else .unparsed value)

/-! ## Arrays and objects -/

/-- Whether `new` with some bytes succeeds. -/
def alloc (bytes : ℕ) : ParserM β Bool := fun p ↦
  match B.alloc bytes p.buffer with
  | some b => some (true, { p with buffer := b })
  | none => some (false, p)

/-- `addNewNode`: an invalid array or object has no buffer. -/
def addNewNode (valid : Bool) (bytes : ℕ) : ParserM β Bool :=
  if valid then alloc B bytes else pure false

/-- What `parseArray` and `parseObject` do: an empty array or object is created, which may fail, and
`loop` goes on unless the text is closed at once. Nothing is returned for an invalid one. -/
def parseEnclosed {α : Type} (bytes : ℕ) (opening closing : UInt8)
    (loop : Bool → ParserM β (Option (List α))) : ParserM β (Option (List α)) := do
  let valid ← alloc B bytes
  if !(← skip n opening) then pure none
  else if ← skip n closing then pure (if valid then some [] else none)
  else loop valid

/-- More values: the end of the array or of the object, or a comma and the next round. -/
def parseMore {α : Type} (closing : UInt8) (nodes : α) (next : ParserM β (Option α)) :
    ParserM β (Option α) := do
  if ← skip n closing then pure (some nodes)
  else if ← skip n comma then next
  else pure none

/-- The values of an array, one after the other. -/
def arrayLoop (parseAnything : ParserM β (Option (JsonVariant ℕ))) (valid : Bool) :
    ℕ → List (JsonVariant ℕ) → ParserM β (Option (List (JsonVariant ℕ)))
  | 0, _ => fun _ ↦ none
  | m + 1, nodes => do
    match ← parseAnything with
    | none => pure none
    | some value =>
      if !(← addNewNode B valid B.sizes.arrayNode) then pure none
      else
        let nodes := nodes ++ [value]
        parseMore n rbracket nodes (arrayLoop parseAnything valid m nodes)

def parseArray (parseAnything : ParserM β (Option (JsonVariant ℕ))) :
    ParserM β (Option (List (JsonVariant ℕ))) :=
  parseEnclosed B n B.sizes.array lbracket rbracket fun valid ↦
    arrayLoop B n parseAnything valid n []

/-- `getNodeAt` of an object: the first node with the key. -/
def getNodeAt (mem : List UInt8) (nodes : List (ℕ × JsonVariant ℕ)) (key : ℕ) : Option ℕ :=
  nodes.findIdx? fun m ↦ Bytes.strcmp (mem.drop m.1) (mem.drop key)

/-- `set` of an object: a node that has the key gets the value and keeps its own key. -/
def set (valid : Bool) (nodes : List (ℕ × JsonVariant ℕ)) (key : ℕ) (value : JsonVariant ℕ) :
    ParserM β (Option (List (ℕ × JsonVariant ℕ))) := do
  match getNodeAt (← get).mem nodes key with
  | some i => pure (some (nodes.modify i fun m ↦ (m.1, value)))
  | none =>
    if !(← addNewNode B valid B.sizes.objectNode) then pure none
    else pure (some (nodes ++ [(key, value)]))

/-- The keys and the values of an object. -/
def objectLoop (parseAnything : ParserM β (Option (JsonVariant ℕ))) (valid : Bool) :
    ℕ → List (ℕ × JsonVariant ℕ) → ParserM β (Option (List (ℕ × JsonVariant ℕ)))
  | 0, _ => fun _ ↦ none
  | m + 1, nodes => do
    let key ← parseString n
    if !(← skip n colon) then pure none
    else
      match ← parseAnything with
      | none => pure none
      | some value =>
        match ← set B valid nodes key value with
        | none => pure none
        | some nodes => parseMore n rbrace nodes (objectLoop parseAnything valid m nodes)

def parseObject (parseAnything : ParserM β (Option (JsonVariant ℕ))) :
    ParserM β (Option (List (ℕ × JsonVariant ℕ))) :=
  parseEnclosed B n B.sizes.object lbrace rbrace fun valid ↦
    objectLoop B n parseAnything valid n []

/-- `parseAnythingTo`; the argument is `_nestingLimit`. -/
def parseAnything : ℕ → ParserM β (Option (JsonVariant ℕ))
  | 0 => pure none
  | nestingLimit + 1 => do
    skipSpaces n
    let c ← peek
    if c = lbracket then
      return (← parseArray B n (parseAnything nestingLimit)).map .array
    else if c = lbrace then
      return (← parseObject B n (parseAnything nestingLimit)).map .object
    else
      return some (← parseStringTo n)

end Parser

/-- `JsonBuffer::parseArray` of the string at the beginning of a memory, and the memory after. -/
def parseArray (B : JsonBuffer β) (b : β) (mem : List UInt8) (nestingLimit : ℕ) :
    Option (Option (List (JsonVariant ℕ)) × Parser β) :=
  Parser.parseArray B (mem.length + 1) (Parser.parseAnything B (mem.length + 1) nestingLimit)
    ⟨mem, 0, 0, b⟩

/-- `JsonBuffer::parseObject`. -/
def parseObject (B : JsonBuffer β) (b : β) (mem : List UInt8) (nestingLimit : ℕ) :
    Option (Option (List (ℕ × JsonVariant ℕ)) × Parser β) :=
  Parser.parseObject B (mem.length + 1) (Parser.parseAnything B (mem.length + 1) nestingLimit)
    ⟨mem, 0, 0, b⟩

end DuoFirmware.Json
