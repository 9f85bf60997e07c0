import DuoFirmware.Json.Print

/-!
# Pretty texts

`Prettyfier` adds spaces between the tokens of a text only, unless a string ends in a backslash: it
then takes the end of the string for a character of it.
-/

namespace DuoFirmware.Json

variable {text s pre post rest : List UInt8} {c : UInt8} {p q : Prettyfier}

/-- Spaces and line ends. -/
def Blank (text : List UInt8) : Prop := ∀ c ∈ text, isSpace c = true

theorem Blank.of_all (h : text.all isSpace = true) : Blank text := List.all_eq_true.mp h

theorem Blank.append (h : Blank pre) (h' : Blank post) : Blank (pre ++ post) :=
  List.forall_mem_append.mpr ⟨h, h'⟩

theorem Blank.nil : Blank [] := fun _ hc ↦ absurd hc List.not_mem_nil

theorem Blank.nonzero (h : Blank text) : 0 ∉ text := fun hz ↦ absurd (h 0 hz) (by decide)

theorem Blank.skip (h : Blank pre) (text : List UInt8) :
    Text.skipSpacesAndComments (pre ++ text) = Text.skipSpacesAndComments text := by
  induction pre with
  | nil => rfl
  | cons c pre ih =>
    rw [Blank, List.forall_mem_cons] at h
    rw [List.cons_append, Text.skipSpacesAndComments_cons, if_pos h.1, ih h.2]

/-! ## Sinks -/

namespace IndentedPrint

variable (p : IndentedPrint)

theorem blank_writeTabs : Blank p.writeTabs := fun c hc ↦ by
  rw [List.eq_of_mem_replicate hc]
  rfl

theorem write_spec (c : UInt8) : ∃ pre, (p.write c).1 = pre ++ [c] ∧ Blank pre := by
  refine ⟨_, rfl, ?_⟩
  split_ifs
  · exact blank_writeTabs p
  · exact .nil

theorem blank_println : Blank p.println.1 := by
  obtain ⟨pre, hcr, hpre⟩ := p.write_spec cr
  obtain ⟨post, hlf, hpost⟩ := (p.write cr).2.write_spec lf
  have hout : p.println.1 = (p.write cr).1 ++ ((p.write cr).2.write lf).1 := rfl
  rw [hout, hcr, hlf]
  exact (hpre.append (.of_all rfl)).append (hpost.append (.of_all rfl))

end IndentedPrint

namespace Prettyfier

/-! ## Characters -/

/-- The text is written with spaces in front and behind, and no string is open. -/
def Writes (p : Prettyfier) (text : List UInt8) (r : List UInt8 × Prettyfier) : Prop :=
  ∃ pre post, r.1 = pre ++ text ++ post ∧ Blank pre ∧ Blank post ∧ r.2.inString = p.inString

theorem blank_indentIfNeeded (p : Prettyfier) :
    Blank (indentIfNeeded p).1 ∧ (indentIfNeeded p).2.inString = p.inString := by
  rw [indentIfNeeded]
  split_ifs
  · exact ⟨.nil, rfl⟩
  · exact ⟨IndentedPrint.blank_println _, rfl⟩

theorem blank_unindentIfNeeded (p : Prettyfier) :
    Blank (unindentIfNeeded p).1 ∧ (unindentIfNeeded p).2.inString = p.inString := by
  rw [unindentIfNeeded]
  split_ifs
  · exact ⟨.nil, rfl⟩
  · exact ⟨IndentedPrint.blank_println _, rfl⟩

/-- Spaces and then a character. -/
theorem writes_call {f : Prettyfier → List UInt8 × Prettyfier}
    (h : Blank (f p).1 ∧ (f p).2.inString = p.inString) (c : UInt8) :
    Writes p [c] (andThen f (call (IndentedPrint.write c)) p) := by
  obtain ⟨pre, hout, hpre⟩ := (f p).2.sink.write_spec c
  refine ⟨(f p).1 ++ pre, [], ?_, h.1.append hpre, .nil, h.2⟩
  rw [List.append_nil, List.append_assoc, ← hout]
  rfl

theorem write_markup (hp : p.inString = false) (c : UInt8) : write c p =
    ((handleMarkupChar c p).1, { (handleMarkupChar c p).2 with previousChar := c }) := by
  rw [write, hp]
  rfl

theorem writes_mark (hc : c ∈ [lbracket, rbracket, lbrace, rbrace, comma, colon])
    (hp : p.inString = false) : Writes p [c] (write c p) := by
  have hmarkup : Writes p [c] (handleMarkupChar c p) := by
    simp only [List.mem_cons, List.not_mem_nil, or_false] at hc
    rcases hc with rfl | rfl | rfl | rfl | rfl | rfl
    · exact writes_call (blank_indentIfNeeded p) lbracket
    · exact writes_call (blank_unindentIfNeeded p) rbracket
    · exact writes_call (blank_indentIfNeeded p) lbrace
    · exact writes_call (blank_unindentIfNeeded p) rbrace
    · obtain ⟨pre, hout, hpre⟩ := p.sink.write_spec comma
      refine ⟨pre, _, ?_, hpre, IndentedPrint.blank_println (p.sink.write comma).2, rfl⟩
      rw [← hout]
      rfl
    · obtain ⟨pre, hout, hpre⟩ := p.sink.write_spec colon
      refine ⟨pre, [space], ?_, hpre, .of_all rfl, rfl⟩
      rw [← hout]
      rfl
  rw [write_markup hp]
  exact hmarkup

/-! ## Texts -/

theorem print_append (text rest : List UInt8) (p : Prettyfier) :
    print (text ++ rest) p = andThen (print text) (print rest) p := by
  induction text generalizing p with
  | nil => rfl
  | cons c text ih =>
    have hstep : print (c :: text ++ rest) p = andThen (write c) (print (text ++ rest)) p := rfl
    rw [hstep, andThen, ih]
    simp only [andThen, print, List.append_assoc]

/-- Nothing is added in front of the next character. -/
structure Inside (p : Prettyfier) : Prop where
  newLine : p.sink.isNewLine = false
  block : p.inEmptyBlock = false

/-- Letters and digits are not markup. -/
theorem handleMarkupChar_letter (hc : isLetterOrNumber c = true) :
    handleMarkupChar c = handleNormalChar c := by
  have hne {d : UInt8} (hd : isLetterOrNumber d = false) : c ≠ d := letter_ne hc hd
  rw [handleMarkupChar, if_neg (not_or.mpr ⟨hne rfl, hne rfl⟩),
    if_neg (not_or.mpr ⟨hne rfl, hne rfl⟩), if_neg (hne rfl), if_neg (hne rfl), if_neg (hne rfl)]

theorem inside_letter (hc : isLetterOrNumber c = true) (hq : q.previousChar = c)
    (hnew : q.sink.isNewLine = false) : Inside q := by
  refine ⟨hnew, ?_⟩
  rw [inEmptyBlock, hq, decide_eq_false_iff_not, not_or]
  exact ⟨letter_ne hc rfl, letter_ne hc rfl⟩

/-- A letter is written, behind spaces unless something is in front of it. -/
theorem write_letter (hc : isLetterOrNumber c = true) (hp : p.inString = false) :
    ∃ pre q, write c p = (pre ++ [c], q) ∧ Blank pre ∧ q.inString = false ∧ Inside q ∧
      (Inside p → pre = []) := by
  have hlf : decide (c = lf) = false := decide_eq_false (letter_ne hc rfl)
  obtain ⟨hblank, hstring⟩ := blank_indentIfNeeded p
  obtain ⟨tabs, hout, htabs⟩ := (indentIfNeeded p).2.sink.write_spec c
  refine ⟨(indentIfNeeded p).1 ++ tabs, _, ?_, hblank.append htabs, ?_,
    inside_letter hc (q := { (handleMarkupChar c p).2 with previousChar := c }) rfl ?_, ?_⟩
  · rw [write_markup hp, List.append_assoc, ← hout, handleMarkupChar_letter hc]
    rfl
  · rw [handleMarkupChar_letter hc, ← hp, ← hstring]
    rfl
  · rw [handleMarkupChar_letter hc, ← hlf]
    rfl
  · intro hinside
    have hnone : indentIfNeeded p = ([], p) := by
      rw [indentIfNeeded, hinside.block]
      rfl
    rw [hnone] at hout ⊢
    have hplain : (p.sink.write c).1 = [c] := by
      rw [IndentedPrint.write, hinside.newLine]
      rfl
    rw [hplain] at hout
    exact (List.append_cancel_right (hout : [] ++ [c] = tabs ++ [c])).symm

theorem print_letters_inside (hs : ∀ c ∈ s, isLetterOrNumber c = true) (hp : p.inString = false)
    (hinside : Inside p) : ∃ q, print s p = (s, q) ∧ q.inString = false := by
  induction s generalizing p with
  | nil => exact ⟨p, rfl, hp⟩
  | cons c s ih =>
    rw [List.forall_mem_cons] at hs
    obtain ⟨pre, q, hwrite, -, hq, hinside', hpre⟩ := write_letter hs.1 hp
    obtain ⟨q', hprint, hq'⟩ := ih hs.2 hq hinside'
    refine ⟨q', ?_, hq'⟩
    rw [print, andThen, hwrite, hpre hinside]
    dsimp only
    rw [hprint]
    rfl

theorem writes_letters (hs : ∀ c ∈ s, isLetterOrNumber c = true) (hp : p.inString = false) :
    Writes p s (print s p) := by
  cases s with
  | nil => exact ⟨[], [], rfl, .nil, .nil, rfl⟩
  | cons c s =>
    rw [List.forall_mem_cons] at hs
    obtain ⟨pre, q, hwrite, hblank, hq, hinside, -⟩ := write_letter hs.1 hp
    obtain ⟨q', hprint, hq'⟩ := print_letters_inside hs.2 hq hinside
    refine ⟨pre, [], ?_, hblank, .nil, ?_⟩
    · rw [print, andThen, hwrite]
      dsimp only
      rw [hprint, List.append_nil, List.append_assoc, List.singleton_append]
    · rw [print, andThen, hwrite, hp]
      dsimp only
      rw [hprint]
      exact hq'

/-! ## Strings -/

/-- In a string characters are passed on. -/
theorem write_inString (hp : p.inString = true) (hnew : p.sink.isNewLine = false) (hc : c ≠ lf)
    (hquote : c = quote → p.previousChar = backslash) :
    ∃ q, write c p = ([c], q) ∧ q.inString = true ∧ q.sink.isNewLine = false ∧
      q.previousChar = c := by
  have hnot : ¬(c = quote ∧ p.previousChar ≠ backslash) := fun h ↦ h.2 (hquote h.1)
  have hstring : handleStringChar c p = call (IndentedPrint.write c) p := by
    rw [handleStringChar, if_neg hnot]
  refine ⟨{ (call (IndentedPrint.write c) p).2 with previousChar := c }, ?_, hp, decide_eq_false hc,
    rfl⟩
  rw [write, hp, if_pos rfl, hstring, call, IndentedPrint.write, hnew]
  rfl

theorem print_body (hp : p.inString = true) (hnew : p.sink.isNewLine = false) :
    ∃ q, print (s.flatMap writeChar) p = (s.flatMap writeChar, q) ∧ q.inString = true ∧
      q.sink.isNewLine = false ∧ (q.previousChar = backslash →
        s.getLast? = some backslash ∨ s = [] ∧ p.previousChar = backslash) := by
  induction s generalizing p with
  | nil => exact ⟨p, rfl, hp, hnew, fun h ↦ .inr ⟨rfl, h⟩⟩
  | cons c s ih =>
    -- one character or two, the last of them a backslash if `c` is one
    obtain ⟨q₁, hwrite, hq₁, hnew₁, hprev₁⟩ : ∃ q, print (writeChar c) p = (writeChar c, q) ∧
        q.inString = true ∧ q.sink.isNewLine = false ∧
          (q.previousChar = backslash → c = backslash) := by
      rcases writeChar_cases c with ⟨hquote, -, hlf, h⟩ | ⟨d, -, hlf, hback, h, -⟩
      · obtain ⟨q, hwrite, hq, hnew, hprev⟩ :=
          write_inString hp hnew hlf fun hc ↦ absurd hc hquote
        refine ⟨q, ?_, hq, hnew, fun hb ↦ hprev ▸ hb⟩
        rw [h, print, andThen, hwrite]
        rfl
      · obtain ⟨q, hwrite, hq, hnew, hprev⟩ :=
          write_inString (c := backslash) hp hnew (by decide) fun hc ↦ absurd hc (by decide)
        obtain ⟨q', hwrite', hq', hnew', hprev'⟩ := write_inString hq hnew hlf fun _ ↦ hprev
        refine ⟨q', ?_, hq', hnew', fun hb ↦ hback (hprev' ▸ hb)⟩
        rw [h, print, andThen, hwrite]
        dsimp only
        rw [print, andThen, hwrite']
        rfl
    obtain ⟨q, hprint, hq, hnewq, hprev⟩ := ih hq₁ hnew₁
    refine ⟨q, ?_, hq, hnewq, fun hb ↦ .inl ?_⟩
    · rw [List.flatMap_cons, print_append, andThen, hwrite]
      dsimp only
      rw [hprint]
    · rcases hprev hb with hlast | ⟨rfl, hlast⟩
      · rw [List.getLast?_cons_of_ne_nil (by rintro rfl; cases hlast), hlast]
      · rw [hprev₁ hlast]
        rfl

theorem write_quoteOpen (hp : p.inString = false) : ∃ pre q, write quote p = (pre ++ [quote], q) ∧
    Blank pre ∧ q.inString = true ∧ q.sink.isNewLine = false ∧ q.previousChar = quote := by
  obtain ⟨hblank, hstring⟩ := blank_indentIfNeeded { p with inString := true }
  obtain ⟨tabs, hout, htabs⟩ :=
    (indentIfNeeded { p with inString := true }).2.sink.write_spec quote
  refine ⟨_, { (handleMarkupChar quote p).2 with previousChar := quote }, ?_,
    hblank.append htabs, hstring, rfl, rfl⟩
  rw [write_markup hp, List.append_assoc, ← hout]
  rfl

theorem write_quoteClose (hp : p.inString = true) (hnew : p.sink.isNewLine = false)
    (hprev : p.previousChar ≠ backslash) :
    ∃ q, write quote p = ([quote], q) ∧ q.inString = false := by
  have hstring : handleStringChar quote p =
      call (IndentedPrint.write quote) { p with inString := false } := by
    rw [handleStringChar, if_pos ⟨rfl, hprev⟩]
  refine ⟨{ (call (IndentedPrint.write quote) { p with inString := false }).2 with
    previousChar := quote }, ?_, rfl⟩
  rw [write, hp, if_pos rfl, hstring, call, IndentedPrint.write, hnew]
  rfl

/-- A string is passed on when its end is seen, as it is unless its last character is a
backslash. -/
theorem writes_string (hs : s.getLast? ≠ some backslash) (hp : p.inString = false) :
    Writes p (writeString (some s)) (print (writeString (some s)) p) := by
  obtain ⟨pre, q, hopen, hblank, hq, hnew, hprev⟩ := write_quoteOpen hp
  obtain ⟨q', hbody, hq', hnew', hprev'⟩ := print_body (s := s) hq hnew
  have hend : q'.previousChar ≠ backslash := fun hback ↦
    (hprev' hback).elim hs fun h ↦ absurd (hprev ▸ h.2) (by decide)
  obtain ⟨q'', hclose, hq''⟩ := write_quoteClose hq' hnew' hend
  have hprint : print (writeString (some s)) p = (pre ++ writeString (some s), q'') := by
    rw [writeString, print_append, andThen, print, andThen, hopen]
    dsimp only
    rw [hbody]
    dsimp only
    rw [print, andThen, hclose]
    simp only [print, List.append_nil, List.append_assoc, List.cons_append, List.nil_append]
  refine ⟨pre, [], ?_, hblank, .nil, ?_⟩
  · rw [hprint, List.append_nil]
  · rw [hprint, hp]
    exact hq''

/-! ## Tokens -/

variable {ts : List (List UInt8)}

/-- Tokens stay as they are, with spaces between them. -/
theorem spaced_print (hsolid : ∀ t ∈ ts, Text.Solid t) (hp : p.inString = false)
    (hwrites : ∀ t ∈ ts, ∀ p : Prettyfier, p.inString = false → Writes p t (print t p)) :
    Text.Spaced [] ts (print ts.flatten p).1 := by
  induction ts generalizing p with
  | nil => rfl
  | cons t ts ih =>
    rw [List.forall_mem_cons] at hsolid hwrites
    obtain ⟨pre, post, hout, hpre, hpost, hstring⟩ := hwrites.1 p hp
    have hrest := ih hsolid.2 (hstring.trans hp) hwrites.2
    rw [List.flatten_cons, print_append, andThen, hout]
    rw [← Text.spaced_skip, ← hpost.skip, Text.spaced_skip] at hrest
    rw [List.append_assoc, List.append_assoc, ← Text.spaced_skip, hpre.skip, Text.spaced_skip]
    exact hrest.cons hsolid.1

theorem print_nonzero (hzero : ∀ t ∈ ts, 0 ∉ t) (hp : p.inString = false)
    (hwrites : ∀ t ∈ ts, ∀ p : Prettyfier, p.inString = false → Writes p t (print t p)) :
    0 ∉ (print ts.flatten p).1 := by
  induction ts generalizing p with
  | nil => exact List.not_mem_nil
  | cons t ts ih =>
    rw [List.forall_mem_cons] at hzero hwrites
    obtain ⟨pre, post, hout, hpre, hpost, hstring⟩ := hwrites.1 p hp
    have hrest := ih hzero.2 (hstring.trans hp) hwrites.2
    rw [List.flatten_cons, print_append, andThen, hout]
    simp only [List.mem_append, not_or]
    exact ⟨⟨⟨hpre.nonzero, hzero.1⟩, hpost.nonzero⟩, hrest⟩

end Prettyfier

/-! ## Values -/

variable {v : Value}

/-- No string of the value ends in a backslash. -/
def NoBackslashEnd (v : Value) : Prop := ∀ s ∈ v.strings, s.getLast? ≠ some backslash

instance : DecidablePred NoBackslashEnd := fun v ↦
  inferInstanceAs (Decidable (∀ s ∈ v.strings, s.getLast? ≠ some backslash))

/-- All tokens of a value pass. -/
theorem writes_tokens (hv : v.Plain) (hends : NoBackslashEnd v) : ∀ t ∈ v.tokens,
    ∀ p : Prettyfier, p.inString = false → p.Writes t (Prettyfier.print t p) :=
  forall_tokens (fun _ hs _ hp ↦ Prettyfier.writes_letters hs hp)
    (fun c hc p hp ↦ by
      have hone : Prettyfier.print [c] p = Prettyfier.write c p := by
        simp [Prettyfier.print, Prettyfier.andThen]
      rw [hone]
      exact Prettyfier.writes_mark hc hp)
    hv fun s hs _ _ hp ↦ Prettyfier.writes_string (hends s hs) hp

theorem spaced_pretty (hv : v.Plain) (hends : NoBackslashEnd v) :
    Text.Spaced [] v.tokens (pretty (v.writeTo id)) := by
  rw [pretty, ← JsonVariant.flatten_tokens]
  exact Prettyfier.spaced_print (tokens_solid hv) rfl (writes_tokens hv hends)

theorem pretty_nonzero (hv : v.Plain) (hends : NoBackslashEnd v) :
    0 ∉ pretty (v.writeTo id) := by
  rw [pretty, ← JsonVariant.flatten_tokens]
  exact Prettyfier.print_nonzero (tokens_nonzero hv) rfl (writes_tokens hv hends)

/-! ## Printing to a buffer and parsing it -/

theorem printed_all {text buffer : List UInt8} {size : ℕ} (hfit : text.length < size)
    (hsize : size ≤ buffer.length) (hsize' : size < 2 ^ 32) : printed text buffer size =
      some (text.length, text ++ 0 :: buffer.drop (text.length + 1)) := by
  have hcapacity : (size + (2 ^ 32 - 1)) % 2 ^ 32 = size - 1 := by omega
  rw [printed, hcapacity, Nat.min_eq_left (by omega), if_pos (by omega), List.take_length]

/-- A string that ends in a backslash hides its end, and the next string gets a space. -/
example : pretty ((JsonVariant.array [.string (some [backslash]),
    .string (some [0x61, colon, 0x62])]).writeTo id) =
      [lbracket, cr, lf, space, space, quote, backslash, backslash, quote, comma, quote, 0x61,
        colon, space, 0x62, quote, rbracket] := rfl

end DuoFirmware.Json
