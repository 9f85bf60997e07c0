import DuoFirmware.Json.Refinement
import DuoFirmware.Json.RoundTrip

/-!
# Writing and parsing with a static buffer

What is written for a value is parsed in place, in the memory that `JSON_ARRAY_SIZE` and
`JSON_OBJECT_SIZE` give and in no less.
-/

namespace DuoFirmware.Json

open JsonVariant

variable {v : Value} {nodes : List Value} {pairs : List (List UInt8 × Value)} {c : UInt8}

/-! ## Tokens of plain values -/

theorem letters_solid {s : List UInt8} (hs : ∀ c ∈ s, isLetterOrNumber c = true) : Text.Solid s :=
  fun c hc ↦ letter_solid (hs c (List.mem_of_head? hc))

theorem letters_nonzero {s : List UInt8} (hs : ∀ c ∈ s, isLetterOrNumber c = true) : 0 ∉ s :=
  fun hz ↦ absurd (hs 0 hz) (by decide)

theorem writeChar_nonzero (hc : 0 ≠ c) : 0 ∉ writeChar c := by
  rcases writeChar_cases c with ⟨-, -, -, h⟩ | ⟨d, hd, -, -, h, -⟩
  · rw [h, List.mem_singleton]
    exact hc
  · rw [h, List.mem_cons, List.mem_singleton]
    exact fun hz ↦ hz.elim (by decide) hd.symm

theorem writeString_nonzero {s : List UInt8} (hs : 0 ∉ s) : 0 ∉ writeString (some s) := by
  rw [writeString, List.mem_append, List.mem_cons, List.mem_flatMap]
  rintro ((h | ⟨c, hc, hz⟩) | h)
  · exact absurd h (by decide)
  · exact writeChar_nonzero (fun hzero ↦ hs (hzero ▸ hc)) hz
  · exact absurd h (by decide)

theorem writeString_solid (s : List UInt8) : Text.Solid (writeString (some s)) := by
  rintro c ⟨⟩
  decide

theorem forall_nodeTokens {P : List UInt8 → Prop} (hcomma : P [comma])
    (h : ∀ v ∈ nodes, ∀ t ∈ v.tokens, P t) : ∀ t ∈ nodeTokens nodes, P t := by
  induction nodes with
  | nil => exact fun t ht ↦ absurd ht List.not_mem_nil
  | cons v nodes ih =>
    rw [List.forall_mem_cons] at h
    cases nodes with
    | nil => exact h.1
    | cons next nodes =>
      rw [nodeTokens, List.forall_mem_append, List.forall_mem_cons]
      exact ⟨h.1, hcomma, ih h.2⟩

theorem forall_pairTokens {P : List UInt8 → Prop} (hcolon : P [colon]) (hcomma : P [comma])
    (h : ∀ n ∈ pairs, P (writeString (some n.1)) ∧ ∀ t ∈ n.2.tokens, P t) :
    ∀ t ∈ pairTokens pairs, P t := by
  induction pairs with
  | nil => exact fun t ht ↦ absurd ht List.not_mem_nil
  | cons n pairs ih =>
    rw [List.forall_mem_cons] at h
    cases pairs with
    | nil =>
      rw [pairTokens, List.forall_mem_cons, List.forall_mem_cons]
      exact ⟨h.1.1, hcolon, h.1.2⟩
    | cons next pairs =>
      rw [pairTokens, List.forall_mem_append, List.forall_mem_cons, List.forall_mem_cons,
        List.forall_mem_cons]
      exact ⟨⟨h.1.1, hcolon, h.1.2⟩, hcomma, ih h.2⟩

/-- A property that the tokens of a plain value have. -/
theorem forall_tokens {P : List UInt8 → Prop}
    (hletters : ∀ s, (∀ c ∈ s, isLetterOrNumber c = true) → P s)
    (hmarks : ∀ c ∈ [lbracket, rbracket, lbrace, rbrace, comma, colon], P [c])
    (hv : v.Plain) (hstrings : ∀ s ∈ v.strings, 0 ∉ s → P (writeString (some s))) :
    ∀ t ∈ v.tokens, P t := by
  induction hv with
  | undefined => exact List.forall_mem_singleton.mpr (hletters _ (by simp))
  | unparsed hs => exact List.forall_mem_singleton.mpr (hletters _ hs)
  | @string s hs =>
    cases s with
    | none => exact List.forall_mem_singleton.mpr (hletters nullText (List.all_eq_true.mp rfl))
    | some s =>
      exact List.forall_mem_singleton.mpr (hstrings s (List.mem_singleton_self s) (hs s rfl))
  | boolean value =>
    cases value with
    | false => exact List.forall_mem_singleton.mpr (hletters falseText (List.all_eq_true.mp rfl))
    | true => exact List.forall_mem_singleton.mpr (hletters trueText (List.all_eq_true.mp rfl))
  | integer value => exact List.forall_mem_singleton.mpr (hletters _ (printInteger_letters value))
  | array _ _ ih =>
    rw [strings, nodeStrings_eq] at hstrings
    rw [tokens, List.forall_mem_append, List.forall_mem_cons, List.forall_mem_singleton]
    exact ⟨⟨hmarks lbracket (by decide), forall_nodeTokens (hmarks comma (by decide))
      fun v hv ↦ ih v hv fun s hs ↦ hstrings s (List.mem_flatMap.mpr ⟨v, hv, hs⟩)⟩,
      hmarks rbracket (by decide)⟩
  | object hkeys _ _ ih =>
    rw [strings, pairStrings_eq] at hstrings
    have hpair {n : List UInt8 × Value} (hn : n ∈ _) {s : List UInt8}
        (hs : s ∈ n.1 :: n.2.strings) := hstrings s (List.mem_flatMap.mpr ⟨n, hn, hs⟩)
    rw [tokens, List.forall_mem_append, List.forall_mem_cons, List.forall_mem_singleton]
    exact ⟨⟨hmarks lbrace (by decide), forall_pairTokens (hmarks colon (by decide))
      (hmarks comma (by decide)) fun n hn ↦ ⟨hpair hn List.mem_cons_self (hkeys n hn),
        ih n hn fun s hs ↦ hpair hn (List.mem_cons_of_mem _ hs)⟩⟩, hmarks rbrace (by decide)⟩

theorem tokens_solid (hv : v.Plain) : ∀ t ∈ v.tokens, Text.Solid t :=
  forall_tokens (fun _ ↦ letters_solid)
    (fun c hc d hd ↦ by
      obtain rfl := Option.some.inj hd
      simp only [List.mem_cons, List.not_mem_nil, or_false] at hc
      rcases hc with rfl | rfl | rfl | rfl | rfl | rfl <;> decide)
    hv fun s _ _ ↦ writeString_solid s

theorem tokens_nonzero (hv : v.Plain) : ∀ t ∈ v.tokens, 0 ∉ t :=
  forall_tokens (fun _ ↦ letters_nonzero)
    (fun c hc hz ↦ by
      obtain rfl := List.mem_singleton.mp hz
      exact absurd hc (by decide))
    hv fun _ _ ↦ writeString_nonzero

/-- What is written consists of the tokens, and has no zero. -/
theorem spaced_writeTo (hv : v.Plain) : Text.Spaced [] v.tokens (v.writeTo id) := by
  have h : Text.Spaced (Text.skipSpacesAndComments []) v.tokens (v.tokens.flatten ++ []) :=
    Text.spaced_flatten (tokens_solid hv)
  rwa [List.append_nil, flatten_tokens] at h

theorem writeTo_nonzero (hv : v.Plain) : 0 ∉ v.writeTo id := by
  rw [← flatten_tokens, List.mem_flatten]
  rintro ⟨t, ht, hz⟩
  exact tokens_nonzero hv t ht hz

/-! ## Memory of a static buffer -/

section Memory

variable (sizes : Sizes)

/-- `JSON_ARRAY_SIZE`. -/
def jsonArraySize (numberOfElements : ℕ) : ℕ := sizes.array + numberOfElements * sizes.arrayNode

/-- `JSON_OBJECT_SIZE`. -/
def jsonObjectSize (numberOfElements : ℕ) : ℕ := sizes.object + numberOfElements * sizes.objectNode

namespace JsonVariant

mutual

/-- The memory of a value: that of its own nodes and that of its values. -/
def memory : Value → ℕ
  | array nodes => jsonArraySize sizes nodes.length + nodeMemory nodes
  | object nodes => jsonObjectSize sizes nodes.length + pairMemory nodes
  | _ => 0

def nodeMemory : List Value → ℕ
  | [] => 0
  | v :: nodes => memory v + nodeMemory nodes

def pairMemory : List (List UInt8 × Value) → ℕ
  | [] => 0
  | (_, v) :: nodes => memory v + pairMemory nodes

end

end JsonVariant

/-- The sizes are those of words, and the buffer does not reach the end of the address space. -/
structure Sizes.Fit (capacity : ℕ) : Prop where
  array : 4 ∣ sizes.array ∧ capacity + sizes.array < 2 ^ 32
  arrayNode : 4 ∣ sizes.arrayNode ∧ capacity + sizes.arrayNode < 2 ^ 32
  object : 4 ∣ sizes.object ∧ capacity + sizes.object < 2 ^ 32
  objectNode : 4 ∣ sizes.objectNode ∧ capacity + sizes.objectNode < 2 ^ 32

end Memory

variable {sizes : Sizes} {capacity size bytes limit : ℕ}

theorem staticJsonBuffer_alloc (hbytes : 4 ∣ bytes ∧ capacity + bytes < 2 ^ 32)
    (hsize : size ≤ capacity) : (staticJsonBuffer capacity sizes).alloc bytes size =
      if size + bytes ≤ capacity then some (size + bytes) else none := by
  obtain ⟨⟨words, rfl⟩, hfit⟩ := hbytes
  have hround : (4 * words + 3) / 4 * 4 = 4 * words := by omega
  rw [staticJsonBuffer]
  dsimp only
  rw [hround, Nat.mod_eq_of_lt (by omega)]
  split_ifs <;> first | rfl | omega

/-- Whether a value can be read, as far as its levels and its memory go. -/
def Fits (sizes : Sizes) (capacity : ℕ) (v : Value) : Prop :=
  ∀ limit size, size ≤ capacity → v.build (staticJsonBuffer capacity sizes) limit size =
    if v.nesting ≤ limit ∧ size + v.memory sizes ≤ capacity then some (size + v.memory sizes)
    else none

/-- A value and the node that it is put in. -/
theorem Fits.bind_alloc (h : Fits sizes capacity v) (hbytes : 4 ∣ bytes ∧ capacity + bytes < 2 ^ 32)
    (hsize : size ≤ capacity) {f : ℕ → Option ℕ} :
    ((v.build (staticJsonBuffer capacity sizes) limit size).bind fun b ↦
        ((staticJsonBuffer capacity sizes).alloc bytes b).bind f) =
      if v.nesting ≤ limit ∧ size + v.memory sizes + bytes ≤ capacity
      then f (size + v.memory sizes + bytes) else none := by
  rw [h limit size hsize]
  by_cases hv : v.nesting ≤ limit ∧ size + v.memory sizes ≤ capacity
  · rw [if_pos hv, Option.bind_some, staticJsonBuffer_alloc hbytes hv.2]
    by_cases hnode : size + v.memory sizes + bytes ≤ capacity
    · rw [if_pos hnode, Option.bind_some, if_pos ⟨hv.1, hnode⟩]
    · rw [if_neg hnode, Option.bind_none, if_neg (by omega)]
  · rw [if_neg hv, Option.bind_none, if_neg (by omega)]

theorem buildNodes_static (hfit : sizes.Fit capacity) (hnodes : ∀ v ∈ nodes, Fits sizes capacity v)
    (hsize : size ≤ capacity) : buildNodes (staticJsonBuffer capacity sizes) nodes limit size =
      if nodeNesting nodes ≤ limit ∧
        size + (nodes.length * sizes.arrayNode + nodeMemory sizes nodes) ≤ capacity
      then some (size + (nodes.length * sizes.arrayNode + nodeMemory sizes nodes)) else none := by
  induction nodes generalizing size with
  | nil =>
    rw [buildNodes, nodeNesting, nodeMemory, List.length_nil, Nat.zero_mul]
    exact (if_pos ⟨Nat.zero_le _, hsize⟩).symm
  | cons v nodes ih =>
    rw [List.forall_mem_cons] at hnodes
    rw [buildNodes, nodeNesting, nodeMemory, List.length_cons, Nat.succ_mul,
      staticJsonBuffer_sizes, hnodes.1.bind_alloc hfit.arrayNode hsize]
    by_cases hv : v.nesting ≤ limit ∧ size + v.memory sizes + sizes.arrayNode ≤ capacity
    · rw [if_pos hv, ih hnodes.2 hv.2]
      split_ifs <;> first | rfl | omega | exact congrArg some (by omega)
    · rw [if_neg hv, if_neg (by omega)]

theorem buildPairs_static (hfit : sizes.Fit capacity)
    (hpairs : ∀ n ∈ pairs, Fits sizes capacity n.2) (hsize : size ≤ capacity) :
    buildPairs (staticJsonBuffer capacity sizes) pairs limit size =
      if pairNesting pairs ≤ limit ∧
        size + (pairs.length * sizes.objectNode + pairMemory sizes pairs) ≤ capacity
      then some (size + (pairs.length * sizes.objectNode + pairMemory sizes pairs)) else none := by
  induction pairs generalizing size with
  | nil =>
    rw [buildPairs, pairNesting, pairMemory, List.length_nil, Nat.zero_mul]
    exact (if_pos ⟨Nat.zero_le _, hsize⟩).symm
  | cons n pairs ih =>
    obtain ⟨key, v⟩ := n
    rw [List.forall_mem_cons] at hpairs
    rw [buildPairs, pairNesting, pairMemory, List.length_cons, Nat.succ_mul,
      staticJsonBuffer_sizes, hpairs.1.bind_alloc hfit.objectNode hsize]
    by_cases hv : v.nesting ≤ limit ∧ size + v.memory sizes + sizes.objectNode ≤ capacity
    · rw [if_pos hv, ih hpairs.2 hv.2]
      split_ifs <;> first | rfl | omega | exact congrArg some (by omega)
    · rw [if_neg hv, if_neg (by omega)]

/-- A static buffer has room for a value when it has room for its memory. -/
theorem build_static (hfit : sizes.Fit capacity) (v : Value) : Fits sizes capacity v := by
  have hscalar (limit size : ℕ) (hsize : size ≤ capacity) :
      (if limit = 0 then none else some size) =
        if 1 ≤ limit ∧ size + 0 ≤ capacity then some (size + 0) else none := by
    split_ifs <;> first | rfl | omega
  induction v using ofNodes with
  | hundefined => exact hscalar
  | hunparsed s => exact hscalar
  | hstring s => exact hscalar
  | hboolean b => exact hscalar
  | hinteger i => exact hscalar
  | harray nodes ih =>
    intro limit size hsize
    rw [build, nesting, memory, jsonArraySize, staticJsonBuffer_sizes]
    by_cases hlimit : limit = 0
    · rw [if_pos hlimit, if_neg (by omega)]
    · rw [if_neg hlimit, staticJsonBuffer_alloc hfit.array hsize]
      by_cases harray : size + sizes.array ≤ capacity
      · rw [if_pos harray, Option.bind_some, buildNodes_static hfit ih harray]
        split_ifs <;> first | rfl | omega | exact congrArg some (by omega)
      · rw [if_neg harray, Option.bind_none, if_neg (by omega)]
  | hobject nodes ih =>
    intro limit size hsize
    rw [build, nesting, memory, jsonObjectSize, staticJsonBuffer_sizes]
    by_cases hlimit : limit = 0
    · rw [if_pos hlimit, if_neg (by omega)]
    · rw [if_neg hlimit, staticJsonBuffer_alloc hfit.object hsize]
      by_cases hobject : size + sizes.object ≤ capacity
      · rw [if_pos hobject, Option.bind_some, buildPairs_static hfit ih hobject]
        split_ifs <;> first | rfl | omega | exact congrArg some (by omega)
      · rw [if_neg hobject, Option.bind_none, if_neg (by omega)]

/-! ## Texts of plain values -/

/-- What is read of a text, when there is room for it and it has not too many levels. -/
def readBack (sizes : Sizes) (capacity limit : ℕ) (v : Value) : Option Value :=
  if v.nesting ≤ limit + 1 ∧ v.memory sizes ≤ capacity then some v.asRead else none

theorem readArray_spaced (hfit : sizes.Fit capacity) {text : List UInt8}
    (hv : (JsonVariant.array nodes).Plain)
    (h : Text.Spaced [] (JsonVariant.array nodes).tokens text) :
    ((Text.readArray (staticJsonBuffer capacity sizes) 0 text limit).map (.map .array id)).map
      Prod.fst = readBack sizes capacity limit (.array nodes) := by
  rw [← List.append_nil (tokens _)] at h
  obtain ⟨rest, -, -, hrun⟩ := Text.readsArray (staticJsonBuffer capacity sizes) hv
    (fun v hmem ↦ Text.readsValue _ (hv.of_mem_array hmem)) h (Nat.lt_succ_self _)
  rw [Text.readArray, hrun, staticJsonBuffer_sizes, readBack, nesting, memory, jsonArraySize,
    asRead, staticJsonBuffer_alloc hfit.array (Nat.zero_le _), Nat.zero_add]
  by_cases harray : sizes.array ≤ capacity
  · rw [if_pos harray, Option.bind_some,
      buildNodes_static hfit (fun v _ ↦ build_static hfit v) harray]
    split_ifs <;> first | rfl | omega
  · rw [if_neg harray, if_neg (by omega)]
    rfl

theorem readObject_spaced (hfit : sizes.Fit capacity) {text : List UInt8}
    (hv : (JsonVariant.object pairs).Plain)
    (h : Text.Spaced [] (JsonVariant.object pairs).tokens text) :
    ((Text.readObject (staticJsonBuffer capacity sizes) 0 text limit).map (.map .object id)).map
      Prod.fst = readBack sizes capacity limit (.object pairs) := by
  rw [← List.append_nil (tokens _)] at h
  obtain ⟨rest, -, -, hrun⟩ := Text.readsObject (staticJsonBuffer capacity sizes) hv.keys_nodup
    (fun n hmem ↦ Text.readsValue _ (hv.of_mem_object hmem)) h (Nat.lt_succ_self _)
  rw [Text.readObject, hrun, staticJsonBuffer_sizes, readBack, nesting, memory, jsonObjectSize,
    asRead, staticJsonBuffer_alloc hfit.object (Nat.zero_le _), Nat.zero_add]
  by_cases hobject : sizes.object ≤ capacity
  · rw [if_pos hobject, Option.bind_some,
      buildPairs_static hfit (fun n _ ↦ build_static hfit n.2) hobject]
    split_ifs <;> first | rfl | omega
  · rw [if_neg hobject, if_neg (by omega)]
    rfl

/-- The parser in place reads back a value from a text that consists of its tokens: it returns the
value when there is room, and changes nothing behind the text. -/
def ParsedArray (sizes : Sizes) (capacity limit : ℕ) (text behind : List UInt8)
    (nodes : List Value) : Prop :=
  ∃ r p, parseArray (staticJsonBuffer capacity sizes) 0 (text ++ 0 :: behind) limit = some (r, p) ∧
    (r.map fun ns ↦ (JsonVariant.array ns).map (stringAt p.mem)) =
      readBack sizes capacity limit (.array nodes) ∧ p.mem.drop text.length = 0 :: behind

def ParsedObject (sizes : Sizes) (capacity limit : ℕ) (text behind : List UInt8)
    (pairs : List (List UInt8 × Value)) : Prop :=
  ∃ r p, parseObject (staticJsonBuffer capacity sizes) 0 (text ++ 0 :: behind) limit = some (r, p) ∧
    (r.map fun ns ↦ (JsonVariant.object ns).map (stringAt p.mem)) =
      readBack sizes capacity limit (.object pairs) ∧ p.mem.drop text.length = 0 :: behind

theorem parsedArray_spaced (hfit : sizes.Fit capacity) (limit : ℕ) {text : List UInt8}
    (hnonzero : 0 ∉ text) (behind : List UInt8) (hv : (JsonVariant.array nodes).Plain)
    (h : Text.Spaced [] (JsonVariant.array nodes).tokens text) :
    ParsedArray sizes capacity limit text behind nodes := by
  obtain ⟨r, p, hrun, hreading⟩ :=
    (parse_in_place (staticJsonBuffer capacity sizes) 0 behind limit hnonzero).1
  refine ⟨r, p, hrun, ?_, hreading.behind⟩
  rw [← readArray_spaced hfit hv h, ← hreading.value, Option.map_map]
  rfl

theorem parsedObject_spaced (hfit : sizes.Fit capacity) (limit : ℕ) {text : List UInt8}
    (hnonzero : 0 ∉ text) (behind : List UInt8) (hv : (JsonVariant.object pairs).Plain)
    (h : Text.Spaced [] (JsonVariant.object pairs).tokens text) :
    ParsedObject sizes capacity limit text behind pairs := by
  obtain ⟨r, p, hrun, hreading⟩ :=
    (parse_in_place (staticJsonBuffer capacity sizes) 0 behind limit hnonzero).2
  refine ⟨r, p, hrun, ?_, hreading.behind⟩
  rw [← readObject_spaced hfit hv h, ← hreading.value, Option.map_map]
  rfl

theorem fit_words : (Sizes.mk 8 12 8 16).Fit 64 :=
  ⟨by decide, by decide, by decide, by decide⟩

theorem plain_numbers : (JsonVariant.array [.integer 5, .string (some [quote, 0x61])]).Plain := by
  refine .array (fun v hv ↦ ?_) nofun
  rw [List.mem_pair] at hv
  rcases hv with rfl | rfl
  · exact .integer 5
  · exact .string (by rintro _ ⟨⟩; decide)

theorem plain_member : (JsonVariant.object [([0x6b], .boolean true)]).Plain :=
  .object (by decide) (fun _ hm ↦ List.mem_singleton.mp hm ▸ .boolean true) (by decide)

end DuoFirmware.Json
