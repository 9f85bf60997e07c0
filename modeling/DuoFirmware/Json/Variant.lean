import Mathlib

/-!
# JSON values

`JsonVariant` with the nodes of the arrays and of the objects, and what `JsonWriter` writes for one.
Strings are pointers in the code; here they are of any type, with a function that gives their
characters. Floating-point variants are left out.
-/

namespace DuoFirmware.Json

/-! ## Characters -/

abbrev space : UInt8 := 0x20
abbrev tab : UInt8 := 0x09
abbrev cr : UInt8 := 0x0d
abbrev lf : UInt8 := 0x0a
abbrev quote : UInt8 := 0x22
abbrev apostrophe : UInt8 := 0x27
abbrev star : UInt8 := 0x2a
abbrev comma : UInt8 := 0x2c
abbrev minus : UInt8 := 0x2d
abbrev dot : UInt8 := 0x2e
abbrev slash : UInt8 := 0x2f
abbrev zero : UInt8 := 0x30
abbrev colon : UInt8 := 0x3a
abbrev lbracket : UInt8 := 0x5b
abbrev backslash : UInt8 := 0x5c
abbrev rbracket : UInt8 := 0x5d
abbrev lbrace : UInt8 := 0x7b
abbrev rbrace : UInt8 := 0x7d

/-- `null`, `true` and `false`. -/
def nullText : List UInt8 := [0x6e, 0x75, 0x6c, 0x6c]

def trueText : List UInt8 := [0x74, 0x72, 0x75, 0x65]

def falseText : List UInt8 := [0x66, 0x61, 0x6c, 0x73, 0x65]

/-! ## Encoding -/

/-- The characters to use and the special characters in turn, and a zero behind them. -/
def escapeTable : List UInt8 :=
  [quote, quote, backslash, backslash, 0x62, 0x08, 0x66, 0x0c, 0x6e, lf, 0x72, cr, 0x74, tab, 0]

def escapeLoop (c : UInt8) : List UInt8 → UInt8
  | p0 :: p1 :: p => if p0 ≠ 0 ∧ p1 ≠ c then escapeLoop c p else p0
  | [p0] => p0
  | [] => 0

def escapeChar (c : UInt8) : UInt8 := escapeLoop c escapeTable

def unescapeLoop (c : UInt8) : List UInt8 → UInt8
  | p0 :: p1 :: p => if p0 = 0 then c else if p0 = c then p1 else unescapeLoop c p
  | [_] => c
  | [] => c

def unescapeChar (c : UInt8) : UInt8 := unescapeLoop c (escapeTable.drop 4)

/-! ## Values -/

inductive JsonVariant (S : Type) where
  | undefined
  | unparsed (s : S)
  /-- The string may be a null pointer. -/
  | string (s : Option S)
  | boolean (value : Bool)
  | integer (value : Int32)
  | array (nodes : List (JsonVariant S))
  | object (nodes : List (S × JsonVariant S))

namespace JsonVariant

variable {S T U : Type}

/-- A property that arrays and objects have when their values do. -/
theorem ofNodes {P : JsonVariant S → Prop} (hundefined : P undefined)
    (hunparsed : ∀ s, P (unparsed s)) (hstring : ∀ s, P (string s))
    (hboolean : ∀ b, P (boolean b)) (hinteger : ∀ i, P (integer i))
    (harray : ∀ nodes, (∀ v ∈ nodes, P v) → P (array nodes))
    (hobject : ∀ nodes : List (S × JsonVariant S), (∀ m ∈ nodes, P m.2) → P (object nodes)) :
    ∀ v, P v :=
  @JsonVariant.rec S P (fun nodes ↦ ∀ v ∈ nodes, P v) (fun nodes ↦ ∀ m ∈ nodes, P m.2)
    (fun m ↦ P m.2) hundefined hunparsed hstring hboolean hinteger harray hobject
    (fun _ h ↦ absurd h List.not_mem_nil)
    (fun _ _ hv hnodes ↦ List.forall_mem_cons.mpr ⟨hv, hnodes⟩)
    (fun _ h ↦ absurd h List.not_mem_nil)
    (fun _ _ hm hnodes ↦ List.forall_mem_cons.mpr ⟨hm, hnodes⟩) (fun _ _ hv ↦ hv)

/-! ### Strings -/

mutual

/-- The strings of a value. -/
def strings : JsonVariant S → List S
  | undefined => []
  | unparsed s => [s]
  | string s => s.toList
  | boolean _ => []
  | integer _ => []
  | array nodes => nodeStrings nodes
  | object nodes => pairStrings nodes

def nodeStrings : List (JsonVariant S) → List S
  | [] => []
  | v :: nodes => strings v ++ nodeStrings nodes

def pairStrings : List (S × JsonVariant S) → List S
  | [] => []
  | (key, v) :: nodes => key :: strings v ++ pairStrings nodes

end

mutual

/-- The value with its strings replaced. -/
def map (f : S → T) : JsonVariant S → JsonVariant T
  | undefined => undefined
  | unparsed s => unparsed (f s)
  | string s => string (s.map f)
  | boolean b => boolean b
  | integer i => integer i
  | array nodes => array (mapNodes f nodes)
  | object nodes => object (mapPairs f nodes)

def mapNodes (f : S → T) : List (JsonVariant S) → List (JsonVariant T)
  | [] => []
  | v :: nodes => map f v :: mapNodes f nodes

def mapPairs (f : S → T) : List (S × JsonVariant S) → List (T × JsonVariant T)
  | [] => []
  | (key, v) :: nodes => (f key, map f v) :: mapPairs f nodes

end

theorem nodeStrings_eq (nodes : List (JsonVariant S)) :
    nodeStrings nodes = nodes.flatMap strings := by
  induction nodes with
  | nil => rfl
  | cons v nodes ih => rw [nodeStrings, ih, List.flatMap_cons]

theorem pairStrings_eq (nodes : List (S × JsonVariant S)) :
    pairStrings nodes = nodes.flatMap fun m ↦ m.1 :: m.2.strings := by
  induction nodes with
  | nil => rfl
  | cons m nodes ih => rw [pairStrings, ih, List.flatMap_cons]

theorem mapNodes_eq (f : S → T) (nodes : List (JsonVariant S)) :
    mapNodes f nodes = nodes.map (map f) := by
  induction nodes with
  | nil => rfl
  | cons v nodes ih => rw [mapNodes, ih, List.map_cons]

theorem mapPairs_eq (f : S → T) (nodes : List (S × JsonVariant S)) :
    mapPairs f nodes = nodes.map (Prod.map f (map f)) := by
  induction nodes with
  | nil => rfl
  | cons m nodes ih => rw [mapPairs, ih, List.map_cons, Prod.map]

/-- Only the strings of a value matter. -/
theorem map_congr {f g : S → T} (v : JsonVariant S) (h : ∀ s ∈ v.strings, f s = g s) :
    v.map f = v.map g := by
  induction v using ofNodes with
  | hundefined => rfl
  | hunparsed s => rw [map, map, h s (List.mem_singleton_self s)]
  | hstring s => rw [map, map, Option.map_congr fun x hx ↦ h x (Option.mem_toList.mpr hx)]
  | hboolean b => rfl
  | hinteger i => rfl
  | harray nodes ih =>
    rw [strings, nodeStrings_eq] at h
    rw [map, map, mapNodes_eq, mapNodes_eq, List.map_congr_left fun v hv ↦
      ih v hv fun s hs ↦ h s (List.mem_flatMap.mpr ⟨v, hv, hs⟩)]
  | hobject nodes ih =>
    rw [strings, pairStrings_eq] at h
    rw [map, map, mapPairs_eq, mapPairs_eq, List.map_congr_left fun m hm ↦ ?_]
    rw [Prod.map, Prod.map, h m.1 (List.mem_flatMap.mpr ⟨m, hm, List.mem_cons_self⟩),
      ih m hm fun s hs ↦ h s (List.mem_flatMap.mpr ⟨m, hm, List.mem_cons_of_mem _ hs⟩)]

end JsonVariant

/-! ## Writing -/

/-- The loop that finds the digits of an integer, the last one first. -/
def digitsLoop : ℕ → Int32 → List UInt8
  | 0, _ => []
  | n + 1, value =>
    let digit := value % 10
    let c := if 0 ≤ digit then 0x30 + digit.toInt else 0x30 - digit.toInt
    .ofNat c.toNat :: if value / 10 = 0 then [] else digitsLoop n (value / 10)

/-- `print` of an integer: its digits are found in a buffer of 22 characters. -/
def printInteger (value : Int32) : List UInt8 :=
  if value < 0 then minus :: (digitsLoop 22 (-value)).reverse else (digitsLoop 22 value).reverse

def writeChar (c : UInt8) : List UInt8 :=
  let specialChar := escapeChar c
  if specialChar ≠ 0 then [backslash, specialChar] else [c]

def writeString : Option (List UInt8) → List UInt8
  | none => nullText
  | some value => quote :: value.flatMap writeChar ++ [quote]

namespace JsonVariant

variable {S : Type} (chars : S → List UInt8)

mutual

/-- What is written for a value. -/
def writeTo : JsonVariant S → List UInt8
  | undefined => []
  | unparsed s => chars s
  | string s => writeString (s.map chars)
  | boolean value => if value then trueText else falseText
  | integer value => printInteger value
  | array nodes => lbracket :: writeNodes nodes ++ [rbracket]
  | object nodes => lbrace :: writePairs nodes ++ [rbrace]

def writeNodes : List (JsonVariant S) → List UInt8
  | [] => []
  | [child] => writeTo child
  | child :: next :: nodes => writeTo child ++ comma :: writeNodes (next :: nodes)

def writePairs : List (S × JsonVariant S) → List UInt8
  | [] => []
  | [(key, value)] => writeString (some (chars key)) ++ colon :: writeTo value
  | (key, value) :: next :: nodes =>
    writeString (some (chars key)) ++ colon :: writeTo value ++ comma :: writePairs (next :: nodes)

end

/-- Writing looks at the characters of the strings only. -/
theorem writeTo_map (f : S → List UInt8) (v : JsonVariant S) :
    (v.map f).writeTo id = v.writeTo f := by
  induction v using ofNodes with
  | hundefined => rfl
  | hunparsed s => rfl
  | hstring s => rw [map, writeTo, writeTo, Option.map_id, id]
  | hboolean b => rfl
  | hinteger i => rfl
  | harray nodes ih =>
    have hnodes : writeNodes id (mapNodes f nodes) = writeNodes f nodes := by
      induction nodes with
      | nil => rfl
      | cons v nodes ih' =>
        rw [List.forall_mem_cons] at ih
        cases nodes with
        | nil => exact ih.1
        | cons next nodes =>
          rw [writeNodes, ← ih.1, ← ih' ih.2]
          rfl
    rw [map, writeTo, writeTo, hnodes]
  | hobject nodes ih =>
    have hnodes : writePairs id (mapPairs f nodes) = writePairs f nodes := by
      induction nodes with
      | nil => rfl
      | cons n nodes ih' =>
        obtain ⟨key, v⟩ := n
        rw [List.forall_mem_cons] at ih
        cases nodes with
        | nil =>
          rw [writePairs, ← ih.1]
          rfl
        | cons next nodes =>
          rw [writePairs, ← ih.1, ← ih' ih.2]
          rfl
    rw [map, writeTo, writeTo, hnodes]

end JsonVariant

end DuoFirmware.Json
