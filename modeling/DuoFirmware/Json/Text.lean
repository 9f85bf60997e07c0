import DuoFirmware.Json.Parser

/-!
# What a text means

The values that a text stands for, with strings as they are and no memory. The parser in place
computes these.
-/

namespace DuoFirmware.Json.Text

variable {α β : Type}

/-! ## Spaces and comments -/

mutual

/-- The text behind spaces and comments. -/
def skipSpacesAndComments : List UInt8 → List UInt8
  | [] => []
  | [c] => if isSpace c then [] else [c]
  | c :: d :: text =>
    if isSpace c then skipSpacesAndComments (d :: text)
    else if c = slash ∧ d = star then skipCStyleComment text
    else if c = slash ∧ d = slash then skipCppStyleComment text
    else c :: d :: text

def skipCStyleComment : List UInt8 → List UInt8
  | [] => []
  | [_] => []
  | c :: d :: text =>
    if c = star ∧ d = slash then skipSpacesAndComments text else skipCStyleComment (d :: text)

def skipCppStyleComment : List UInt8 → List UInt8
  | [] => []
  | c :: text => if c = lf then skipSpacesAndComments text else skipCppStyleComment text

end

theorem skipSpacesAndComments_cons (c : UInt8) (text : List UInt8) :
    skipSpacesAndComments (c :: text) =
      if isSpace c then skipSpacesAndComments text
      else if c = slash ∧ text.head? = some star then skipCStyleComment text.tail
      else if c = slash ∧ text.head? = some slash then skipCppStyleComment text.tail
      else c :: text := by
  cases text with
  | nil =>
    rw [skipSpacesAndComments, skipSpacesAndComments]
    simp
  | cons d text =>
    rw [skipSpacesAndComments]
    simp

theorem skipCStyleComment_cons (c : UInt8) (text : List UInt8) :
    skipCStyleComment (c :: text) =
      if c = star ∧ text.head? = some slash then skipSpacesAndComments text.tail
      else skipCStyleComment text := by
  cases text with
  | nil =>
    rw [skipCStyleComment, skipCStyleComment]
    simp
  | cons d text =>
    rw [skipCStyleComment]
    simp

def skip (charToSkip : UInt8) (text : List UInt8) : Option (List UInt8) :=
  match skipSpacesAndComments text with
  | c :: text => if c = charToSkip then some (skipSpacesAndComments text) else none
  | [] => none

/-! ## Strings -/

/-- The characters up to the quote and the text behind it; a quote that is missing is at the end. -/
def quoted (stopChar : UInt8) : List UInt8 → List UInt8 × List UInt8
  | [] => ([], [])
  | [c] => if c = stopChar ∨ c = backslash then ([], []) else ([c], [])
  | c :: d :: text =>
    if c = stopChar then ([], d :: text)
    else if c = backslash then ((quoted stopChar text).map (unescapeChar d :: ·) id)
    else (quoted stopChar (d :: text)).map (c :: ·) id

theorem quoted_cons (stopChar c : UInt8) (text : List UInt8) :
    quoted stopChar (c :: text) =
      if c = stopChar then ([], text)
      else if c = backslash then
        if text = [] then ([], [])
        else (quoted stopChar text.tail).map (unescapeChar (text.headD 0) :: ·) id
      else (quoted stopChar text).map (c :: ·) id := by
  cases text with
  | nil =>
    rw [quoted, quoted]
    split_ifs <;> simp_all
  | cons d text =>
    rw [quoted]
    simp

def parseString : List UInt8 → List UInt8 × List UInt8
  | [] => ([], [])
  | c :: text =>
    if isQuote c then quoted c text
    else ((c :: text).takeWhile isLetterOrNumber, (c :: text).dropWhile isLetterOrNumber)

def parseStringTo (text : List UInt8) : JsonVariant (List UInt8) × List UInt8 :=
  let (value, rest) := parseString text
  (if text.head?.any isQuote then .string (some value) else .unparsed value, rest)

/-! ## Arrays and objects -/

/-- A reader gives a value, the rest of the text and the state of the buffer. -/
abbrev Reader (β α : Type) := List UInt8 → β → Option (α × List UInt8 × β)

variable (B : JsonBuffer β)

def parseEnclosed (bytes : ℕ) (opening closing : UInt8) (loop : Reader β (List α)) :
    Reader β (List α) := fun text b ↦ do
  let b ← B.alloc bytes b
  let text ← skip opening text
  match skip closing text with
  | some text => some ([], text, b)
  | none => loop text b

def parseMore (closing : UInt8) (nodes : α) (next : Reader β α) : Reader β α := fun text b ↦
  match skip closing text with
  | some text => some (nodes, text, b)
  | none => do
    let text ← skip comma text
    next text b

/-- The values of an array, with a bound on their number. -/
def arrayLoop (parseAnything : Reader β (JsonVariant (List UInt8))) :
    ℕ → List (JsonVariant (List UInt8)) → Reader β (List (JsonVariant (List UInt8)))
  | 0, _ => fun _ _ ↦ none
  | m + 1, nodes => fun text b ↦ do
    let (value, text, b) ← parseAnything text b
    let b ← B.alloc B.sizes.arrayNode b
    parseMore rbracket (nodes ++ [value]) (arrayLoop parseAnything m (nodes ++ [value])) text b

theorem arrayLoop_succ (f : Reader β (JsonVariant (List UInt8))) (m : ℕ)
    (nodes : List (JsonVariant (List UInt8))) (text : List UInt8) (b : β) :
    arrayLoop B f (m + 1) nodes text b = (f text b).bind fun x ↦
      (B.alloc B.sizes.arrayNode x.2.2).bind fun b ↦
        parseMore rbracket (nodes ++ [x.1]) (arrayLoop B f m (nodes ++ [x.1])) x.2.1 b :=
  rfl

def parseArray (m : ℕ) (parseAnything : Reader β (JsonVariant (List UInt8))) :
    Reader β (List (JsonVariant (List UInt8))) :=
  parseEnclosed B B.sizes.array lbracket rbracket (arrayLoop B parseAnything m [])

/-- A key that is there gets the value; another one is put behind the others. -/
def set (nodes : List (List UInt8 × JsonVariant (List UInt8))) (key : List UInt8)
    (value : JsonVariant (List UInt8)) (b : β) :
    Option (List (List UInt8 × JsonVariant (List UInt8)) × β) :=
  match nodes.findIdx? fun m ↦ m.1 = key with
  | some i => some (nodes.modify i fun m ↦ (m.1, value), b)
  | none => (B.alloc B.sizes.objectNode b).map fun b ↦ (nodes ++ [(key, value)], b)

def objectLoop (parseAnything : Reader β (JsonVariant (List UInt8))) :
    ℕ → List (List UInt8 × JsonVariant (List UInt8)) →
      Reader β (List (List UInt8 × JsonVariant (List UInt8)))
  | 0, _ => fun _ _ ↦ none
  | m + 1, nodes => fun text b ↦ do
    let (key, text) := parseString text
    let text ← skip colon text
    let (value, text, b) ← parseAnything text b
    let (nodes, b) ← set B nodes key value b
    parseMore rbrace nodes (objectLoop parseAnything m nodes) text b

theorem objectLoop_succ (f : Reader β (JsonVariant (List UInt8))) (m : ℕ)
    (nodes : List (List UInt8 × JsonVariant (List UInt8))) (text : List UInt8) (b : β) :
    objectLoop B f (m + 1) nodes text b =
      (skip colon (parseString text).2).bind fun rest ↦ (f rest b).bind fun x ↦
        (set B nodes (parseString text).1 x.1 x.2.2).bind fun y ↦
          parseMore rbrace y.1 (objectLoop B f m y.1) x.2.1 y.2 :=
  rfl

def parseObject (m : ℕ) (parseAnything : Reader β (JsonVariant (List UInt8))) :
    Reader β (List (List UInt8 × JsonVariant (List UInt8))) :=
  parseEnclosed B B.sizes.object lbrace rbrace (objectLoop B parseAnything m [])

/-- A value with at most `nestingLimit` levels. -/
def parseAnything (m : ℕ) : ℕ → Reader β (JsonVariant (List UInt8))
  | 0 => fun _ _ ↦ none
  | nestingLimit + 1 => fun text b ↦
    let text := skipSpacesAndComments text
    if text.head? = some lbracket then
      (parseArray B m (parseAnything m nestingLimit) text b).map (.map .array id)
    else if text.head? = some lbrace then
      (parseObject B m (parseAnything m nestingLimit) text b).map (.map .object id)
    else
      let (value, text) := parseStringTo text
      some (value, text, b)

/-- A text that is an array; the rest of it is not looked at. -/
def readArray (b : β) (text : List UInt8) (nestingLimit : ℕ) :
    Option (List (JsonVariant (List UInt8)) × List UInt8 × β) :=
  parseArray B (text.length + 1) (parseAnything B (text.length + 1) nestingLimit) text b

def readObject (b : β) (text : List UInt8) (nestingLimit : ℕ) :
    Option (List (List UInt8 × JsonVariant (List UInt8)) × List UInt8 × β) :=
  parseObject B (text.length + 1) (parseAnything B (text.length + 1) nestingLimit) text b

end DuoFirmware.Json.Text
