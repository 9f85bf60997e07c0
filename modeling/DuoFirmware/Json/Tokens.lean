import DuoFirmware.Json.Text

/-!
# Tokens

A value is written as tokens, and a text consists of tokens with spaces and comments between them
as the parser skips them. What is read back is the value with all scalars as texts.
-/

namespace DuoFirmware.Json

/-- Strings are their own characters here. -/
abbrev Value := JsonVariant (List UInt8)

namespace JsonVariant

/-! ## Values as tokens -/

mutual

def tokens : Value → List (List UInt8)
  | undefined => [[]]
  | unparsed s => [s]
  | string s => [writeString s]
  | boolean value => [if value then trueText else falseText]
  | integer value => [printInteger value]
  | array nodes => [lbracket] :: nodeTokens nodes ++ [[rbracket]]
  | object nodes => [lbrace] :: pairTokens nodes ++ [[rbrace]]

def nodeTokens : List Value → List (List UInt8)
  | [] => []
  | [child] => tokens child
  | child :: next :: nodes => tokens child ++ [comma] :: nodeTokens (next :: nodes)

def pairTokens : List (List UInt8 × Value) → List (List UInt8)
  | [] => []
  | [(key, value)] => writeString (some key) :: [colon] :: tokens value
  | (key, value) :: next :: nodes =>
    writeString (some key) :: [colon] :: tokens value ++ [comma] :: pairTokens (next :: nodes)

end

/-- The tokens are what is written. -/
theorem flatten_tokens (v : Value) : v.tokens.flatten = v.writeTo id := by
  induction v using ofNodes with
  | hundefined => rfl
  | hunparsed s => exact List.append_nil s
  | hstring s =>
    rw [tokens, writeTo, Option.map_id]
    exact List.append_nil _
  | hboolean b => exact List.append_nil _
  | hinteger i => exact List.append_nil _
  | harray nodes ih =>
    have hnodes : (nodeTokens nodes).flatten = writeNodes id nodes := by
      induction nodes with
      | nil => rfl
      | cons v nodes ih' =>
        rw [List.forall_mem_cons] at ih
        cases nodes with
        | nil => exact ih.1
        | cons next nodes =>
          rw [nodeTokens, writeNodes, List.flatten_append, List.flatten_cons, ih.1, ih' ih.2]
          rfl
    rw [tokens, writeTo, List.flatten_append, List.flatten_cons, hnodes]
    rfl
  | hobject nodes ih =>
    have hnodes : (pairTokens nodes).flatten = writePairs id nodes := by
      induction nodes with
      | nil => rfl
      | cons m nodes ih' =>
        obtain ⟨key, v⟩ := m
        rw [List.forall_mem_cons] at ih
        cases nodes with
        | nil =>
          rw [pairTokens, writePairs, List.flatten_cons, List.flatten_cons, ih.1]
          rfl
        | cons next nodes =>
          rw [pairTokens, writePairs, List.flatten_append, List.flatten_cons, List.flatten_cons,
            List.flatten_cons, ih.1, ih' ih.2]
          simp only [id, List.append_assoc, List.cons_append, List.nil_append]
    rw [tokens, writeTo, List.flatten_append, List.flatten_cons, hnodes]
    rfl

/-! ## Values as they are read -/

mutual

/-- What is read for a value: numbers and constants stay texts. -/
def asRead : Value → Value
  | undefined => unparsed []
  | unparsed s => unparsed s
  | string none => unparsed nullText
  | string (some s) => string (some s)
  | boolean value => unparsed (if value then trueText else falseText)
  | integer value => unparsed (printInteger value)
  | array nodes => array (asReadNodes nodes)
  | object nodes => object (asReadPairs nodes)

def asReadNodes : List Value → List Value
  | [] => []
  | v :: nodes => asRead v :: asReadNodes nodes

def asReadPairs : List (List UInt8 × Value) → List (List UInt8 × Value)
  | [] => []
  | (key, v) :: nodes => (key, asRead v) :: asReadPairs nodes

end

theorem asReadNodes_eq (nodes : List Value) : asReadNodes nodes = nodes.map asRead := by
  induction nodes with
  | nil => rfl
  | cons v nodes ih => rw [asReadNodes, ih, List.map_cons]

theorem asReadPairs_eq (nodes : List (List UInt8 × Value)) :
    asReadPairs nodes = nodes.map (Prod.map id asRead) := by
  induction nodes with
  | nil => rfl
  | cons m nodes ih => rw [asReadPairs, ih, List.map_cons, Prod.map, id]

mutual

/-- The levels of a value. -/
def nesting : Value → ℕ
  | array nodes => nodeNesting nodes + 1
  | object nodes => pairNesting nodes + 1
  | _ => 1

def nodeNesting : List Value → ℕ
  | [] => 0
  | v :: nodes => max (nesting v) (nodeNesting nodes)

def pairNesting : List (List UInt8 × Value) → ℕ
  | [] => 0
  | (_, v) :: nodes => max (nesting v) (pairNesting nodes)

end

/-- A value that can be told from its text: strings end nowhere inside, what is not a string
consists of letters and numbers, no array has a single value that leaves no text, and no object has
a key twice. -/
inductive Plain : Value → Prop where
  | undefined : Plain undefined
  | unparsed {s : List UInt8} (h : ∀ c ∈ s, isLetterOrNumber c = true) : Plain (unparsed s)
  | string {s : Option (List UInt8)} (h : ∀ x ∈ s, 0 ∉ x) : Plain (string s)
  | boolean (value : Bool) : Plain (boolean value)
  | integer (value : Int32) : Plain (integer value)
  | array {nodes : List Value} (h : ∀ v ∈ nodes, Plain v)
      (hsingle : ∀ v, nodes = [v] → v.writeTo id ≠ []) : Plain (array nodes)
  | object {nodes : List (List UInt8 × Value)} (h : ∀ m ∈ nodes, 0 ∉ m.1)
      (hvalues : ∀ m ∈ nodes, Plain m.2) (hkeys : (nodes.map Prod.fst).Nodup) :
      Plain (object nodes)

theorem Plain.of_mem_array {nodes : List Value} {v : Value} (h : (JsonVariant.array nodes).Plain)
    (hv : v ∈ nodes) : v.Plain := by
  cases h with
  | array h => exact h v hv

theorem Plain.of_mem_object {nodes : List (List UInt8 × Value)} {m : List UInt8 × Value}
    (h : (JsonVariant.object nodes).Plain) (hm : m ∈ nodes) : m.2.Plain := by
  cases h with
  | object _ hvalues => exact hvalues m hm

theorem Plain.keys_nodup {nodes : List (List UInt8 × Value)}
    (h : (JsonVariant.object nodes).Plain) : (nodes.map Prod.fst).Nodup := by
  cases h with
  | object _ _ hkeys => exact hkeys

end JsonVariant

/-! ## Spaces between tokens -/

namespace Text

/-- What is left of a text when all was skipped that can be. -/
def Trimmed (text rest : List UInt8) : Prop := skipSpacesAndComments rest = rest ∧ rest <:+ text

theorem Trimmed.cons {text rest : List UInt8} (c : UInt8) (h : Trimmed text rest) :
    Trimmed (c :: text) rest :=
  ⟨h.1, h.2.trans (List.suffix_cons c text)⟩

theorem trimmed_all (text : List UInt8) : Trimmed text (skipSpacesAndComments text) ∧
    Trimmed text (skipCStyleComment text) ∧ Trimmed text (skipCppStyleComment text) := by
  induction h : text.length using Nat.strong_induction_on generalizing text with
  | _ k ih =>
    cases text with
    | nil => exact ⟨⟨rfl, List.suffix_rfl⟩, ⟨rfl, List.suffix_rfl⟩, ⟨rfl, List.suffix_rfl⟩⟩
    | cons c text =>
      rw [List.length_cons] at h
      have hrest := ih text.length (by omega) text rfl
      have htail := ih text.tail.length (by rw [List.length_tail]; omega) text.tail rfl
      have hcons {rest : List UInt8} (ht : Trimmed text.tail rest) : Trimmed (c :: text) rest :=
        ⟨ht.1, ht.2.trans ((List.tail_suffix text).trans (List.suffix_cons c text))⟩
      refine ⟨?_, ?_, ?_⟩
      · have hstep := skipSpacesAndComments_cons c text
        rw [hstep]
        split_ifs at hstep ⊢
        · exact hrest.1.cons c
        · exact hcons htail.2.1
        · exact hcons htail.2.2
        · exact ⟨hstep, List.suffix_rfl⟩
      · rw [skipCStyleComment_cons]
        split_ifs
        · exact hcons htail.1
        · exact hrest.2.1.cons c
      · rw [skipCppStyleComment]
        split_ifs
        · exact hrest.1.cons c
        · exact hrest.2.2.cons c

theorem skipSpacesAndComments_idem (text : List UInt8) :
    skipSpacesAndComments (skipSpacesAndComments text) = skipSpacesAndComments text :=
  (trimmed_all text).1.1

theorem length_skipSpacesAndComments (text : List UInt8) :
    (skipSpacesAndComments text).length ≤ text.length :=
  (trimmed_all text).1.2.length_le

/-- A text that consists of tokens and a tail, with what the parser skips between them. -/
def Spaced (tail : List UInt8) : List (List UInt8) → List UInt8 → Prop
  | [], text => skipSpacesAndComments text = tail
  | t :: ts, text => ∃ rest, skipSpacesAndComments text = t ++ rest ∧ Spaced tail ts rest

variable {ts : List (List UInt8)} {tail text rest t : List UInt8} {c d : UInt8}

/-- Only what is behind the spaces matters. -/
theorem spaced_skip : Spaced tail ts (skipSpacesAndComments text) ↔ Spaced tail ts text := by
  cases ts with
  | nil => rw [Spaced, Spaced, skipSpacesAndComments_idem text]
  | cons t ts => rw [Spaced, Spaced, skipSpacesAndComments_idem text]

theorem spaced_nil_cons : Spaced tail ([] :: ts) text ↔ Spaced tail ts text := by
  rw [Spaced, ← @spaced_skip ts tail text]
  simp

/-- A token of one character is skipped. -/
theorem Spaced.skip_self (h : Spaced tail ([c] :: ts) text) :
    ∃ rest, skip c text = some rest ∧ Spaced tail ts rest ∧ skipSpacesAndComments rest = rest ∧
      rest.length < text.length := by
  obtain ⟨rest, htext, hrest⟩ := h
  have hlen := length_skipSpacesAndComments text
  rw [htext] at hlen
  refine ⟨skipSpacesAndComments rest, ?_, spaced_skip.mpr hrest, skipSpacesAndComments_idem _,
    (Nat.lt_succ_of_le (length_skipSpacesAndComments rest)).trans_le hlen⟩
  rw [skip, htext]
  exact if_pos rfl

/-- No other token is. -/
theorem Spaced.skip_other (h : Spaced tail ((c :: t) :: ts) text) (hc : c ≠ d) :
    skip d text = none := by
  obtain ⟨rest, htext, -⟩ := h
  rw [skip, htext]
  exact if_neg hc

/-- A character that is neither a space nor a slash is not skipped. -/
theorem skipSpacesAndComments_solid (hspace : isSpace c = false) (hslash : c ≠ slash) :
    skipSpacesAndComments (c :: text) = c :: text := by
  rw [skipSpacesAndComments_cons, hspace, if_neg Bool.false_ne_true, if_neg fun h ↦ hslash h.1,
    if_neg fun h ↦ hslash h.1]

/-- A token that starts with a character that is not skipped, or is empty. -/
def Solid (t : List UInt8) : Prop := ∀ c ∈ t.head?, isSpace c = false ∧ c ≠ slash

/-- Spaces in front of a token. -/
theorem Spaced.cons (ht : Solid t) (h : Spaced tail ts rest) :
    Spaced tail (t :: ts) (t ++ rest) := by
  cases t with
  | nil => exact spaced_nil_cons.mpr h
  | cons c t => exact ⟨rest, skipSpacesAndComments_solid (ht c rfl).1 (ht c rfl).2, h⟩

theorem spaced_flatten (h : ∀ t ∈ ts, Solid t) :
    Spaced (skipSpacesAndComments tail) ts (ts.flatten ++ tail) := by
  induction ts with
  | nil => rfl
  | cons t ts ih =>
    rw [List.forall_mem_cons] at h
    rw [List.flatten_cons, List.append_assoc]
    exact (ih h.2).cons h.1

end Text

end DuoFirmware.Json
