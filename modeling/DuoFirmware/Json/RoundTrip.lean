import DuoFirmware.Json.Tokens

/-!
# Values that were written are read again
-/

namespace DuoFirmware.Json

variable {β : Type} {ts : List (List UInt8)} {tail text rest s : List UInt8} {c : UInt8} {m : ℕ}
  {v : Value}

/-! ## Characters -/

/-- No letter and no digit is one of these. -/
theorem letter_ne {d : UInt8} (h : isLetterOrNumber c = true)
    (hd : isLetterOrNumber d = false) : c ≠ d := by
  rintro rfl
  rw [h] at hd
  cases hd

theorem letter_solid (h : isLetterOrNumber c = true) : isSpace c = false ∧ c ≠ slash := by
  refine ⟨decide_eq_false ?_, letter_ne h (by decide)⟩
  rintro (rfl | rfl | rfl | rfl)
  all_goals exact absurd h (by decide)

/-- Special characters are written as a backslash and another character, and no line is broken. -/
theorem writeChar_cases (c : UInt8) :
    (c ≠ quote ∧ c ≠ backslash ∧ c ≠ lf ∧ writeChar c = [c]) ∨
      ∃ d, d ≠ 0 ∧ d ≠ lf ∧ (d = backslash → c = backslash) ∧ writeChar c = [backslash, d] ∧
        unescapeChar d = c := by
  by_cases hc : c = quote ∨ c = backslash ∨ c = 0x08 ∨ c = 0x0c ∨ c = lf ∨ c = cr ∨ c = tab
  · rcases hc with rfl | rfl | rfl | rfl | rfl | rfl | rfl
    all_goals exact .inr ⟨_, by decide, by decide, by decide, rfl, rfl⟩
  · have hzero : escapeChar c = 0 := by
      simp only [not_or] at hc
      simp only [escapeChar, escapeTable, escapeLoop, eq_comm (b := c), hc, not_false_eq_true,
        and_true, ne_eq]
      rfl
    simp only [not_or] at hc
    rw [writeChar, hzero]
    exact .inl ⟨hc.1, hc.2.1, hc.2.2.2.2.1, rfl⟩

/-! ## Scalars -/

namespace Text

theorem quoted_writeChar (text : List UInt8) :
    quoted quote (writeChar c ++ text) = (quoted quote text).map (c :: ·) id := by
  rcases writeChar_cases c with ⟨hquote, hback, -, h⟩ | ⟨d, -, -, -, h, hd⟩
  · rw [h, List.singleton_append, quoted_cons, if_neg hquote, if_neg hback]
  · rw [h, List.cons_append, List.singleton_append, quoted_cons, if_neg (by decide), if_pos rfl,
      if_neg (List.cons_ne_nil _ _), List.tail_cons, List.headD_cons, hd]

theorem quoted_flatMap (s rest : List UInt8) :
    quoted quote (s.flatMap writeChar ++ quote :: rest) = (s, rest) := by
  induction s with
  | nil =>
    rw [List.flatMap_nil, List.nil_append, quoted_cons, if_pos rfl]
  | cons c s ih =>
    rw [List.flatMap_cons, List.append_assoc, quoted_writeChar, ih]
    rfl

theorem parseString_writeString (s rest : List UInt8) :
    parseString (writeString (some s) ++ rest) = (s, rest) := by
  rw [writeString, List.append_assoc, List.cons_append, List.singleton_append, parseString,
    if_pos (by decide), quoted_flatMap]

/-- Behind a value: a comma or the end of an array or object. -/
def Closing (ts : List (List UInt8)) : Prop :=
  ∃ c ts', ts = [c] :: ts' ∧ (c = comma ∨ c = rbracket ∨ c = rbrace)

theorem Closing.head (hts : Closing ts) (h : Spaced tail ts rest) :
    ∀ c ∈ rest.head?, isLetterOrNumber c = false := by
  obtain ⟨d, ts', rfl, hd⟩ := hts
  obtain ⟨rest', hrest, -⟩ := h
  intro c hc
  obtain ⟨text, rfl⟩ : ∃ text, rest = c :: text := by
    cases rest with
    | nil => cases hc
    | cons e text => exact ⟨text, by rw [Option.some.inj hc]⟩
  rw [← Bool.not_eq_true]
  intro hletter
  have hsolid := letter_solid hletter
  rw [skipSpacesAndComments_solid hsolid.1 hsolid.2] at hrest
  obtain rfl : c = d := (List.cons.inj hrest).1
  rcases hd with rfl | rfl | rfl <;> exact absurd hletter (by decide)

theorem takeWhile_letters (hs : ∀ c ∈ s, isLetterOrNumber c = true)
    (hrest : ∀ c ∈ rest.head?, isLetterOrNumber c = false) :
    (s ++ rest).takeWhile isLetterOrNumber = s ∧ (s ++ rest).dropWhile isLetterOrNumber = rest := by
  rw [List.takeWhile_append_of_pos hs, List.dropWhile_append_of_pos hs]
  cases rest with
  | nil => exact ⟨List.append_nil s, rfl⟩
  | cons c rest =>
    have hc := hrest c rfl
    rw [List.takeWhile_cons_of_neg (by rw [hc]; decide),
      List.dropWhile_cons_of_neg (by rw [hc]; decide)]
    exact ⟨List.append_nil s, rfl⟩

variable (B : JsonBuffer β)

/-- A text of letters and numbers is read as it is, also when it is empty. -/
theorem parse_bare (hs : ∀ c ∈ s, isLetterOrNumber c = true) (hts : Closing ts)
    (h : Spaced tail (s :: ts) text) : ∃ rest, Spaced tail ts rest ∧ rest.length ≤ text.length ∧
      ∀ limit b, parseAnything B m (limit + 1) text b = some (.unparsed s, rest, b) := by
  obtain ⟨rest, htext, hrest⟩ := h
  have hlen := length_skipSpacesAndComments text
  rw [htext, List.length_append] at hlen
  refine ⟨rest, hrest, by omega, fun limit b ↦ ?_⟩
  -- the first character is a letter or one that closes, hence no bracket, brace or quote
  have hfirst (d : UInt8) (hd : isLetterOrNumber d = false)
      (hclose : d ≠ comma ∧ d ≠ rbracket ∧ d ≠ rbrace) : (s ++ rest).head? ≠ some d := by
    cases s with
    | nil =>
      obtain ⟨e, ts', rfl, he⟩ := hts
      obtain ⟨rest', hrest', -⟩ := hrest
      rw [List.nil_append] at htext ⊢
      rw [← htext, skipSpacesAndComments_idem, htext] at hrest'
      rw [hrest', List.singleton_append, List.head?_cons]
      rintro ⟨⟩
      rcases he with he | he | he
      · exact hclose.1 he
      · exact hclose.2.1 he
      · exact hclose.2.2 he
    | cons c s =>
      rw [List.cons_append, List.head?_cons]
      exact fun heq ↦ letter_ne (hs c List.mem_cons_self) hd (Option.some.inj heq)
  have hquote : (s ++ rest).head?.any isQuote = false := by
    rw [Option.any_eq_false]
    intro c hc
    rw [isQuote, decide_eq_false_iff_not]
    rintro (rfl | rfl)
    · exact hfirst _ (by decide) (by decide) hc
    · exact hfirst _ (by decide) (by decide) hc
  obtain ⟨htake, hdrop⟩ := takeWhile_letters hs (hts.head hrest)
  simp only [parseAnything, htext, if_neg (hfirst lbracket (by decide) (by decide)),
    if_neg (hfirst lbrace (by decide) (by decide)), parseStringTo, hquote]
  have hstring : parseString (s ++ rest) = (s, rest) := by
    cases htext' : s ++ rest with
    | nil =>
      obtain ⟨rfl, rfl⟩ := List.append_eq_nil_iff.mp htext'
      rfl
    | cons c text' =>
      rw [htext', List.head?_cons] at hquote
      rw [parseString, if_neg (by simpa using hquote), ← htext', htake, hdrop]
  rw [hstring]
  rfl

theorem parse_quoted (h : Spaced tail (writeString (some s) :: ts) text) :
    ∃ rest, Spaced tail ts rest ∧ rest.length ≤ text.length ∧
      ∀ limit b, parseAnything B m (limit + 1) text b = some (.string (some s), rest, b) := by
  obtain ⟨rest, htext, hrest⟩ := h
  have hlen := length_skipSpacesAndComments text
  rw [htext, List.length_append] at hlen
  refine ⟨rest, hrest, by omega, fun limit b ↦ ?_⟩
  have hhead : (writeString (some s) ++ rest).head? = some quote := rfl
  simp only [parseAnything, htext, hhead, parseStringTo, parseString_writeString]
  rfl

end Text

/-! ## Integers -/

/-- The character of a digit, also of one with a minus. -/
theorem digit_char (value : Int32) :
    (if 0 ≤ value % 10 then 0x30 + (value % 10).toInt else 0x30 - (value % 10).toInt).toNat =
      0x30 + value.toInt.natAbs % 10 := by
  have hdigit : (value % 10).toInt = value.toInt.tmod 10 := Int32.toInt_mod value 10
  have hsize := Int.natAbs_tmod value.toInt 10
  have hten : (10 : ℤ).natAbs = 10 := rfl
  have hzero : (0 : Int32).toInt = 0 := rfl
  rw [← hdigit, hten] at hsize
  split_ifs with hsign
  · have hle := Int32.le_iff_toInt_le.mp hsign
    omega
  · have hlt := mt Int32.le_iff_toInt_le.mpr hsign
    omega

theorem digitsLoop_chars (n : ℕ) (value : Int32) :
    ∀ c ∈ digitsLoop n value, ∃ d < 10, c = .ofNat (0x30 + d) := by
  induction n generalizing value with
  | zero => exact fun c hc ↦ absurd hc List.not_mem_nil
  | succ n ih =>
    rw [digitsLoop, digit_char, List.forall_mem_cons]
    refine ⟨⟨_, Nat.mod_lt _ (by decide), rfl⟩, ?_⟩
    split_ifs
    · exact fun c hc ↦ absurd hc List.not_mem_nil
    · exact ih _

theorem digit_letter {d : ℕ} (hd : d < 10) : isLetterOrNumber (.ofNat (0x30 + d)) = true := by
  revert d
  decide

theorem digitsLoop_letters (n : ℕ) (value : Int32) :
    ∀ c ∈ digitsLoop n value, isLetterOrNumber c = true := by
  intro c hc
  obtain ⟨d, hd, rfl⟩ := digitsLoop_chars n value c hc
  exact digit_letter hd

theorem printInteger_letters (value : Int32) :
    ∀ c ∈ printInteger value, isLetterOrNumber c = true := by
  rw [printInteger]
  split_ifs
  · rw [List.forall_mem_cons]
    exact ⟨by decide, fun c hc ↦ digitsLoop_letters _ _ c (List.mem_reverse.mp hc)⟩
  · exact fun c hc ↦ digitsLoop_letters _ _ c (List.mem_reverse.mp hc)

/-! ## Arrays and objects -/

namespace JsonVariant

variable (B : JsonBuffer β)

mutual

/-- The allocations that are needed to read a value, when it has not too many levels. -/
def build : Value → ℕ → β → Option β
  | array nodes, limit, b =>
    if limit = 0 then none
    else (B.alloc B.sizes.array b).bind (buildNodes nodes (limit - 1))
  | object nodes, limit, b =>
    if limit = 0 then none
    else (B.alloc B.sizes.object b).bind (buildPairs nodes (limit - 1))
  | _, limit, b => if limit = 0 then none else some b

def buildNodes : List Value → ℕ → β → Option β
  | [], _, b => some b
  | v :: nodes, limit, b =>
    (build v limit b).bind fun b ↦ (B.alloc B.sizes.arrayNode b).bind (buildNodes nodes limit)

def buildPairs : List (List UInt8 × Value) → ℕ → β → Option β
  | [], _, b => some b
  | (_, v) :: nodes, limit, b =>
    (build v limit b).bind fun b ↦ (B.alloc B.sizes.objectNode b).bind (buildPairs nodes limit)

end

end JsonVariant

open JsonVariant

namespace Text

variable (B : JsonBuffer β)

/-- What is read of a text that starts with the tokens of a value. -/
def ReadsValue (v : Value) : Prop :=
  ∀ ⦃ts tail text m⦄, Spaced tail (v.tokens ++ ts) text → Closing ts → text.length < m →
    ∃ rest, Spaced tail ts rest ∧ rest.length ≤ text.length ∧ ∀ limit b,
      parseAnything B m limit text b = (v.build B limit b).map fun b ↦ (v.asRead, rest, b)

/-- What is read of a scalar does not depend on the level. -/
theorem readsValue_of_scalar {v w : Value} (hbuild : ∀ limit b,
      v.build B limit b = if limit = 0 then none else some b) (hread : v.asRead = w)
    (h : ∀ ⦃ts tail text m⦄, Spaced tail (v.tokens ++ ts) text → Closing ts →
      ∃ rest, Spaced tail ts rest ∧ rest.length ≤ text.length ∧
        ∀ limit b, parseAnything B m (limit + 1) text b = some (w, rest, b)) : ReadsValue B v := by
  intro ts tail text m htext hts _
  obtain ⟨rest, hrest, hlen, hrun⟩ := h (m := m) htext hts
  refine ⟨rest, hrest, hlen, fun limit b ↦ ?_⟩
  rw [hbuild, hread]
  cases limit with
  | zero => rfl
  | succ limit => exact hrun limit b

theorem closing_cons (hc : c = comma ∨ c = rbracket ∨ c = rbrace) : Closing ([c] :: ts) :=
  ⟨c, ts, rfl, hc⟩

/-- What is not a string, an array or an object is written as letters and digits. -/
theorem plain_cases (hv : v.Plain) :
    (∃ s, v.tokens = [s] ∧ (∀ c ∈ s, isLetterOrNumber c = true) ∧ v.asRead = .unparsed s ∧
        ∀ {β : Type} (B : JsonBuffer β) limit b,
          v.build B limit b = if limit = 0 then none else some b) ∨
      (∃ s, v = .string (some s) ∧ 0 ∉ s) ∨ (∃ nodes, v = .array nodes) ∨
      ∃ nodes, v = .object nodes := by
  cases hv with
  | undefined => exact .inl ⟨[], rfl, fun c hc ↦ absurd hc List.not_mem_nil, rfl, fun _ _ _ ↦ rfl⟩
  | @unparsed s hs => exact .inl ⟨s, rfl, hs, rfl, fun _ _ _ ↦ rfl⟩
  | @string s hs =>
    cases s with
    | none => exact .inl ⟨nullText, rfl, List.all_eq_true.mp rfl, rfl, fun _ _ _ ↦ rfl⟩
    | some s => exact .inr (.inl ⟨s, rfl, hs s rfl⟩)
  | boolean value =>
    cases value with
    | false => exact .inl ⟨falseText, rfl, List.all_eq_true.mp rfl, rfl, fun _ _ _ ↦ rfl⟩
    | true => exact .inl ⟨trueText, rfl, List.all_eq_true.mp rfl, rfl, fun _ _ _ ↦ rfl⟩
  | integer value =>
    exact .inl ⟨printInteger value, rfl, printInteger_letters value, rfl, fun _ _ _ ↦ rfl⟩
  | @array nodes => exact .inr (.inr (.inl ⟨nodes, rfl⟩))
  | @object nodes => exact .inr (.inr (.inr ⟨nodes, rfl⟩))

/-- An array does not end where one of its values is. -/
theorem skip_rbracket (hv : v.Plain) (hne : v.writeTo id ≠ [])
    (h : Spaced tail (v.tokens ++ ts) text) : skip rbracket text = none := by
  rcases plain_cases hv with
    ⟨s, htokens, hs, -⟩ | ⟨s, rfl, -⟩ | ⟨nodes, rfl⟩ | ⟨nodes, rfl⟩
  · rw [← flatten_tokens, htokens, List.flatten_singleton] at hne
    obtain ⟨c, s, rfl⟩ := List.exists_cons_of_ne_nil hne
    rw [htokens] at h
    exact h.skip_other (letter_ne (hs c List.mem_cons_self) (by decide))
  · exact Spaced.skip_other (c := quote) h (by decide)
  · rw [tokens, List.cons_append, List.cons_append] at h
    exact h.skip_other (by decide)
  · rw [tokens, List.cons_append, List.cons_append] at h
    exact h.skip_other (by decide)

theorem skip_rbracket_nodes {nodes : List Value} (hv : (JsonVariant.array nodes).Plain)
    (hne : nodes ≠ []) (h : Spaced tail (nodeTokens nodes ++ ts) text) :
    skip rbracket text = none := by
  obtain ⟨v, nodes, rfl⟩ := List.exists_cons_of_ne_nil hne
  have hfirst := hv.of_mem_array List.mem_cons_self
  by_cases hempty : v.writeTo id = []
  · -- an empty text is not the only one: a comma follows
    have htokens : v.tokens = [[]] := by
      rcases plain_cases hfirst with ⟨s, htokens, -⟩ | ⟨s, rfl, -⟩ | ⟨nodes, rfl⟩ | ⟨nodes, rfl⟩
      · rw [← flatten_tokens, htokens, List.flatten_singleton] at hempty
        rw [htokens, hempty]
      all_goals exact absurd hempty (List.cons_ne_nil _ _)
    cases nodes with
    | nil =>
      cases hv with
      | array _ hsingle => exact absurd hempty (hsingle v rfl)
    | cons next nodes =>
      rw [nodeTokens, htokens] at h
      exact (spaced_nil_cons.mp h).skip_other (by decide)
  · cases nodes with
    | nil => exact skip_rbracket hfirst hempty h
    | cons next nodes =>
      rw [nodeTokens, List.append_assoc] at h
      exact skip_rbracket hfirst hempty h

theorem parse_arrayLoop {nodes : List Value} (hne : nodes ≠ [])
    (hreads : ∀ v ∈ nodes, ReadsValue B v) {k : ℕ} (hk : text.length < k) (hm : text.length < m)
    (h : Spaced tail (nodeTokens nodes ++ [rbracket] :: ts) text) :
    ∃ rest, Spaced tail ts rest ∧ rest.length ≤ text.length ∧ ∀ limit acc b,
      arrayLoop B (parseAnything B m limit) k acc text b =
        (buildNodes B nodes limit b).map fun b ↦ (acc ++ asReadNodes nodes, rest, b) := by
  induction nodes generalizing text k with
  | nil => exact absurd rfl hne
  | cons v nodes ih =>
    obtain ⟨k, rfl⟩ := Nat.exists_eq_add_of_le' (Nat.one_le_of_lt hk)
    rw [List.forall_mem_cons] at hreads
    cases nodes with
    | nil =>
      obtain ⟨rest, hrest, hlen, hrun⟩ := hreads.1 h (closing_cons (by decide)) hm
      obtain ⟨rest', hskip, hrest', -, hless⟩ := hrest.skip_self
      refine ⟨rest', hrest', by omega, fun limit acc b ↦ ?_⟩
      rw [arrayLoop_succ, hrun, buildNodes, asReadNodes, asReadNodes]
      cases v.build B limit b with
      | none => rfl
      | some b =>
        cases halloc : B.alloc B.sizes.arrayNode b with
        | none => simp [halloc]
        | some b => simp [halloc, parseMore, hskip, buildNodes]
    | cons next nodes =>
      rw [nodeTokens, List.append_assoc, List.cons_append] at h
      obtain ⟨rest, hrest, hlen, hrun⟩ := hreads.1 h (closing_cons (by decide)) hm
      have hother := hrest.skip_other (d := rbracket) (by decide)
      obtain ⟨rest', hskip, hrest', -, hless⟩ := hrest.skip_self
      obtain ⟨last, hlast, hlen', hrun'⟩ := ih (List.cons_ne_nil _ _) hreads.2 (k := k)
        (by omega) (by omega) hrest'
      refine ⟨last, hlast, by omega, fun limit acc b ↦ ?_⟩
      rw [arrayLoop_succ, hrun, buildNodes, asReadNodes]
      cases v.build B limit b with
      | none => rfl
      | some b =>
        cases halloc : B.alloc B.sizes.arrayNode b with
        | none => simp [halloc]
        | some b => simp [halloc, parseMore, hother, hskip, hrun']

theorem set_new {nodes : List (List UInt8 × Value)} {key : List UInt8} {b : β}
    (h : key ∉ nodes.map Prod.fst) : set B nodes key v b =
      (B.alloc B.sizes.objectNode b).map fun b ↦ (nodes ++ [(key, v)], b) := by
  have hnone : nodes.findIdx? (fun m ↦ m.1 = key) = none := by
    rw [List.findIdx?_eq_none_iff]
    exact fun m hm ↦ decide_eq_false fun heq ↦ h (List.mem_map.mpr ⟨m, hm, heq⟩)
  rw [set, hnone]

/-- A key and its value, as far as the comma or the brace behind them. -/
theorem parse_member {key : List UInt8} (hreads : ReadsValue B v) (hts : Closing ts)
    (hm : text.length < m) (htrim : skipSpacesAndComments text = text)
    (h : Spaced tail (writeString (some key) :: [colon] :: (v.tokens ++ ts)) text) :
    ∃ rest, Spaced tail ts rest ∧ rest.length < text.length ∧
      ∀ limit k acc b, key ∉ acc.map Prod.fst →
        objectLoop B (parseAnything B m limit) (k + 1) acc text b =
          (v.build B limit b).bind fun b ↦ (B.alloc B.sizes.objectNode b).bind
            (parseMore rbrace (acc ++ [(key, v.asRead)])
              (objectLoop B (parseAnything B m limit) k (acc ++ [(key, v.asRead)])) rest) := by
  obtain ⟨rest₁, htext, hrest₁⟩ := h
  rw [htrim] at htext
  have hlen := congrArg List.length htext
  rw [List.length_append] at hlen
  obtain ⟨rest₂, hskip, hrest₂, -, hless⟩ := hrest₁.skip_self
  obtain ⟨rest, hrest, hshort, hrun⟩ := hreads hrest₂ hts (m := m) (by omega)
  refine ⟨rest, hrest, by omega, fun limit k acc b hkey ↦ ?_⟩
  rw [objectLoop_succ, htext, parseString_writeString, hskip, Option.bind_some, hrun]
  cases v.build B limit b with
  | none => rfl
  | some b =>
    rw [Option.map_some, Option.bind_some, Option.bind_some, set_new B hkey, Option.bind_map]
    rfl

theorem parse_objectLoop {nodes : List (List UInt8 × Value)} (hne : nodes ≠ [])
    (hreads : ∀ n ∈ nodes, ReadsValue B n.2) {k : ℕ} (hk : text.length < k) (hm : text.length < m)
    (htrim : skipSpacesAndComments text = text)
    (h : Spaced tail (pairTokens nodes ++ [rbrace] :: ts) text) :
    ∃ rest, Spaced tail ts rest ∧ rest.length ≤ text.length ∧
      ∀ limit acc b, (acc.map Prod.fst ++ nodes.map Prod.fst).Nodup →
        objectLoop B (parseAnything B m limit) k acc text b =
          (buildPairs B nodes limit b).map fun b ↦ (acc ++ asReadPairs nodes, rest, b) := by
  induction nodes generalizing text k with
  | nil => exact absurd rfl hne
  | cons n nodes ih =>
    obtain ⟨key, v⟩ := n
    obtain ⟨k, rfl⟩ := Nat.exists_eq_add_of_le' (Nat.one_le_of_lt hk)
    rw [List.forall_mem_cons] at hreads
    have hnew {acc : List (List UInt8 × Value)}
        (hkeys : (acc.map Prod.fst ++ key :: nodes.map Prod.fst).Nodup) : key ∉ acc.map Prod.fst :=
      fun hmem ↦ (List.nodup_append.mp hkeys).2.2 _ hmem _ List.mem_cons_self rfl
    cases nodes with
    | nil =>
      obtain ⟨rest, hrest, hlen, hrun⟩ :=
        parse_member B hreads.1 (closing_cons (.inr (.inr rfl))) hm htrim h
      obtain ⟨rest', hskip, hrest', -, hless⟩ := hrest.skip_self
      refine ⟨rest', hrest', by omega, fun limit acc b hkeys ↦ ?_⟩
      rw [hrun _ _ _ _ (hnew hkeys), buildPairs, asReadPairs, asReadPairs]
      cases v.build B limit b with
      | none => rfl
      | some b =>
        cases halloc : B.alloc B.sizes.objectNode b with
        | none => simp [halloc]
        | some b => simp [halloc, parseMore, hskip, buildPairs]
    | cons next nodes =>
      rw [pairTokens, List.append_assoc, List.cons_append, List.cons_append] at h
      obtain ⟨rest, hrest, hlen, hrun⟩ :=
        parse_member B hreads.1 (closing_cons (.inl rfl)) hm htrim h
      have hother := hrest.skip_other (d := rbrace) (by decide)
      obtain ⟨rest', hskip, hrest', htrim', hless⟩ := hrest.skip_self
      obtain ⟨last, hlast, hlen', hrun'⟩ := ih (List.cons_ne_nil _ _) hreads.2 (k := k)
        (by omega) (by omega) htrim' hrest'
      refine ⟨last, hlast, by omega, fun limit acc b hkeys ↦ ?_⟩
      rw [hrun _ _ _ _ (hnew hkeys), buildPairs, asReadPairs]
      have hkeys' : ((acc ++ [(key, v.asRead)]).map Prod.fst ++
          (next :: nodes).map Prod.fst).Nodup := by simpa using hkeys
      cases v.build B limit b with
      | none => rfl
      | some b =>
        cases halloc : B.alloc B.sizes.objectNode b with
        | none => simp [halloc]
        | some b => simp [halloc, parseMore, hother, hskip, hrun' _ _ _ hkeys']

theorem readsValue_of_plain (hv : v.Plain) (harray : ∀ nodes, v = .array nodes → ReadsValue B v)
    (hobject : ∀ nodes, v = .object nodes → ReadsValue B v) : ReadsValue B v := by
  rcases plain_cases hv with ⟨s, htokens, hs, hread, hbuild⟩ | ⟨s, rfl, -⟩ | ⟨nodes, rfl⟩ |
    ⟨nodes, rfl⟩
  · refine readsValue_of_scalar B (hbuild B) hread fun ts tail text m h hts ↦ ?_
    rw [htokens] at h
    exact parse_bare B hs hts h
  · exact readsValue_of_scalar B (fun _ _ ↦ rfl) rfl fun ts tail text m h _ ↦ parse_quoted B h
  · exact harray nodes rfl
  · exact hobject nodes rfl

theorem readsArray {nodes : List Value} (hv : (JsonVariant.array nodes).Plain)
    (hreads : ∀ v ∈ nodes, ReadsValue B v)
    (h : Spaced tail ((JsonVariant.array nodes).tokens ++ ts) text) (hm : text.length < m) :
    ∃ rest, Spaced tail ts rest ∧ rest.length ≤ text.length ∧ ∀ limit b,
      parseArray B m (parseAnything B m limit) text b =
        ((B.alloc B.sizes.array b).bind (buildNodes B nodes limit)).map
          fun b ↦ (asReadNodes nodes, rest, b) := by
  rw [tokens, List.cons_append, List.cons_append, List.append_assoc, List.singleton_append] at h
  obtain ⟨rest, hskip, hrest, -, hless⟩ := h.skip_self
  rcases eq_or_ne nodes [] with rfl | hne
  · obtain ⟨rest', hskip', hrest', -, hless'⟩ := hrest.skip_self
    refine ⟨rest', hrest', by omega, fun limit b ↦ ?_⟩
    cases halloc : B.alloc B.sizes.array b with
    | none => simp [parseArray, parseEnclosed, halloc]
    | some b => simp [parseArray, parseEnclosed, halloc, hskip, hskip', buildNodes, asReadNodes]
  · have hnone := skip_rbracket_nodes hv hne hrest
    obtain ⟨last, hlast, hlen, hrun⟩ := parse_arrayLoop B (m := m) (k := m) hne hreads
      (by omega) (by omega) hrest
    refine ⟨last, hlast, by omega, fun limit b ↦ ?_⟩
    cases halloc : B.alloc B.sizes.array b with
    | none => simp [parseArray, parseEnclosed, halloc]
    | some b => simp [parseArray, parseEnclosed, halloc, hskip, hnone, hrun]

theorem readsObject {nodes : List (List UInt8 × Value)} (hkeys : (nodes.map Prod.fst).Nodup)
    (hreads : ∀ n ∈ nodes, ReadsValue B n.2)
    (h : Spaced tail ((JsonVariant.object nodes).tokens ++ ts) text) (hm : text.length < m) :
    ∃ rest, Spaced tail ts rest ∧ rest.length ≤ text.length ∧ ∀ limit b,
      parseObject B m (parseAnything B m limit) text b =
        ((B.alloc B.sizes.object b).bind (buildPairs B nodes limit)).map
          fun b ↦ (asReadPairs nodes, rest, b) := by
  rw [tokens, List.cons_append, List.cons_append, List.append_assoc, List.singleton_append] at h
  obtain ⟨rest, hskip, hrest, htrim, hless⟩ := h.skip_self
  rcases eq_or_ne nodes [] with rfl | hne
  · obtain ⟨rest', hskip', hrest', -, hless'⟩ := hrest.skip_self
    refine ⟨rest', hrest', by omega, fun limit b ↦ ?_⟩
    cases halloc : B.alloc B.sizes.object b with
    | none => simp [parseObject, parseEnclosed, halloc]
    | some b => simp [parseObject, parseEnclosed, halloc, hskip, hskip', buildPairs, asReadPairs]
  · have hnone : skip rbrace rest = none := by
      obtain ⟨⟨key, v⟩, nodes, rfl⟩ := List.exists_cons_of_ne_nil hne
      cases nodes with
      | nil => exact Spaced.skip_other (c := quote) hrest (by decide)
      | cons next nodes => exact Spaced.skip_other (c := quote) hrest (by decide)
    obtain ⟨last, hlast, hlen, hrun⟩ := parse_objectLoop B (m := m) (k := m) hne hreads
      (by omega) (by omega) htrim hrest
    refine ⟨last, hlast, by omega, fun limit b ↦ ?_⟩
    cases halloc : B.alloc B.sizes.object b with
    | none => simp [parseObject, parseEnclosed, halloc]
    | some b => simp [parseObject, parseEnclosed, halloc, hskip, hnone, hrun _ [] b hkeys]

/-- **A value is read from its tokens**, whatever spaces and comments are between them. -/
theorem readsValue (hv : v.Plain) : ReadsValue B v := by
  induction v using ofNodes with
  | hundefined => exact readsValue_of_plain B hv nofun nofun
  | hunparsed s => exact readsValue_of_plain B hv nofun nofun
  | hstring s => exact readsValue_of_plain B hv nofun nofun
  | hboolean b => exact readsValue_of_plain B hv nofun nofun
  | hinteger i => exact readsValue_of_plain B hv nofun nofun
  | harray nodes ih =>
    intro ts tail text m h _ hm
    obtain ⟨rest', htext, -⟩ := id h
    have hshort := (length_skipSpacesAndComments text).trans_lt hm
    obtain ⟨rest, hrest, hlen, hrun⟩ := readsArray B hv
      (fun v hmem ↦ ih v hmem (hv.of_mem_array hmem)) (spaced_skip.mpr h) hshort
    refine ⟨rest, hrest, hlen.trans (length_skipSpacesAndComments text), fun limit b ↦ ?_⟩
    cases limit with
    | zero => rfl
    | succ limit =>
      have hhead : (skipSpacesAndComments text).head? = some lbracket := by rw [htext]; rfl
      simp only [parseAnything, if_pos hhead, hrun, Option.map_map]
      rfl
  | hobject nodes ih =>
    intro ts tail text m h _ hm
    obtain ⟨rest', htext, -⟩ := id h
    have hshort := (length_skipSpacesAndComments text).trans_lt hm
    obtain ⟨rest, hrest, hlen, hrun⟩ := readsObject B hv.keys_nodup
      (fun n hmem ↦ ih n hmem (hv.of_mem_object hmem)) (spaced_skip.mpr h) hshort
    refine ⟨rest, hrest, hlen.trans (length_skipSpacesAndComments text), fun limit b ↦ ?_⟩
    cases limit with
    | zero => rfl
    | succ limit =>
      have hhead : (skipSpacesAndComments text).head? = some lbrace := by rw [htext]; rfl
      have hother : ¬(skipSpacesAndComments text).head? = some lbracket := by rw [hhead]; decide
      simp only [parseAnything, if_neg hother, if_pos hhead, hrun, Option.map_map]
      rfl

end Text

end DuoFirmware.Json
