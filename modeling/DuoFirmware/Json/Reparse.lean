import DuoFirmware.Json.Written

/-!
# Parsing what was parsed and written

What the parser finds in a text, whatever the text, is a plain value that is written as it would be
read. So a second round changes nothing.
-/

namespace DuoFirmware.Json

open JsonVariant

variable {β : Type} {B : JsonBuffer β} {text rest : List UInt8} {v : Value} {c : UInt8}
  {m limit : ℕ} {b b' : β}

/-! ## What is left of a text -/

namespace Text

theorem skip_suffix (h : skip c text = some rest) : rest <:+ text := by
  have htrim := (trimmed_all text).1.2
  rw [skip] at h
  cases hs : skipSpacesAndComments text with
  | nil =>
    rw [hs] at h
    cases h
  | cons d text' =>
    rw [hs] at h htrim
    dsimp only at h
    split_ifs at h
    obtain rfl := Option.some.inj h
    exact (trimmed_all text').1.2.trans ((List.suffix_cons d text').trans htrim)

/-- The characters of a quoted string, and what is behind it. -/
theorem quoted_nonzero (stopChar : UInt8) (hnonzero : 0 ∉ text) :
    0 ∉ (quoted stopChar text).1 ∧ (quoted stopChar text).2 <:+ text := by
  induction h : text.length using Nat.strong_induction_on generalizing text with
  | _ k ih =>
    cases text with
    | nil => exact ⟨hnonzero, List.suffix_rfl⟩
    | cons c text =>
      rw [List.length_cons] at h
      rw [List.mem_cons, not_or] at hnonzero
      obtain ⟨hc, hnonzero⟩ := hnonzero
      rw [quoted_cons]
      split_ifs with hstop hescape hend
      · exact ⟨List.not_mem_nil, List.suffix_cons c text⟩
      · exact ⟨List.not_mem_nil, List.nil_suffix⟩
      · obtain ⟨d, text, rfl⟩ := List.exists_cons_of_ne_nil hend
        rw [List.mem_cons, not_or] at hnonzero
        obtain ⟨hd, hnonzero⟩ := hnonzero
        obtain ⟨hvalue, hrest⟩ := ih text.length (by rw [List.length_cons] at h; omega) hnonzero rfl
        exact ⟨List.not_mem_cons_of_ne_of_not_mem (unescapeChar_ne_zero hd).symm hvalue,
          hrest.trans ((List.suffix_cons d text).trans (List.suffix_cons c _))⟩
      · obtain ⟨hvalue, hrest⟩ := ih text.length (by omega) hnonzero rfl
        exact ⟨List.not_mem_cons_of_ne_of_not_mem hc hvalue, hrest.trans (List.suffix_cons c text)⟩

theorem parseString_nonzero (hnonzero : 0 ∉ text) :
    0 ∉ (parseString text).1 ∧ (parseString text).2 <:+ text := by
  cases text with
  | nil => exact ⟨List.not_mem_nil, List.suffix_rfl⟩
  | cons c text =>
    rw [parseString]
    split_ifs
    · obtain ⟨hvalue, hrest⟩ := quoted_nonzero c (List.not_mem_of_not_mem_cons hnonzero)
      exact ⟨hvalue, hrest.trans (List.suffix_cons c text)⟩
    · exact ⟨fun hz ↦ hnonzero ((List.takeWhile_sublist _).subset hz), List.dropWhile_suffix _⟩

end Text

/-! ## What was parsed -/

/-- What the parser finds: a plain value with few levels, whose scalars are texts. -/
structure Found (limit : ℕ) (v : Value) : Prop where
  plain : v.Plain
  same : v.asRead = v
  nesting : v.nesting ≤ limit

/-- A reader that finds such values and leaves an end of the text; an empty value leaves all of it
but spaces. -/
structure FindsPlain (limit : ℕ) (f : Text.Reader β Value) : Prop where
  found : ∀ {text b v rest b'}, 0 ∉ text → f text b = some (v, rest, b') → Found limit v
  suffix : ∀ {text b v rest b'}, 0 ∉ text → f text b = some (v, rest, b') → rest <:+ text
  empty : ∀ {text b v rest b'}, 0 ∉ text → f text b = some (v, rest, b') → v.writeTo id = [] →
    rest = Text.skipSpacesAndComments text

namespace Text

theorem found_unparsed {s : List UInt8} (hs : ∀ c ∈ s, isLetterOrNumber c = true) :
    Found (limit + 1) (.unparsed s) :=
  ⟨.unparsed hs, rfl, Nat.succ_le_succ (Nat.zero_le _)⟩

theorem parseStringTo_finds (hnonzero : 0 ∉ text) :
    Found (limit + 1) (parseStringTo text).1 ∧ (parseStringTo text).2 <:+ text ∧
      ((parseStringTo text).1.writeTo id = [] → (parseStringTo text).2 = text) := by
  obtain ⟨hvalue, hrest⟩ := parseString_nonzero hnonzero
  cases text with
  | nil => exact ⟨found_unparsed (List.all_eq_true.mp rfl), hrest, fun _ ↦ rfl⟩
  | cons c text =>
    have hstep : parseStringTo (c :: text) =
        (if isQuote c then .string (some (parseString (c :: text)).1)
          else .unparsed (parseString (c :: text)).1, (parseString (c :: text)).2) := rfl
    rw [hstep]
    cases hquote : isQuote c with
    | true =>
      refine ⟨⟨.string ?_, rfl, Nat.succ_le_succ (Nat.zero_le _)⟩, hrest,
        fun h ↦ absurd h (List.cons_ne_nil _ _)⟩
      rintro _ ⟨⟩
      exact hvalue
    | false =>
      have hbare : parseString (c :: text) =
          ((c :: text).takeWhile isLetterOrNumber, (c :: text).dropWhile isLetterOrNumber) := by
        rw [parseString, hquote]
        exact if_neg Bool.false_ne_true
      rw [hbare] at hrest ⊢
      refine ⟨found_unparsed fun c hc ↦ List.mem_takeWhile_imp hc, hrest, fun hempty ↦ ?_⟩
      have hall := List.takeWhile_append_dropWhile (p := isLetterOrNumber) (l := c :: text)
      change (c :: text).takeWhile isLetterOrNumber = [] at hempty
      rw [hempty, List.nil_append] at hall
      exact hall

/-! ### Arrays -/

/-- The end of an array or object, or its next round. -/
theorem parseMore_cases {α : Type} {closing : UInt8} {nodes out : α} {next : Reader β α}
    (h : parseMore closing nodes next text b = some (out, rest, b')) :
    (skip closing text = some rest ∧ out = nodes ∧ b' = b) ∨
      ∃ text', skip closing text = none ∧ skip comma text = some text' ∧
        next text' b = some (out, rest, b') := by
  rw [parseMore] at h
  cases hclose : skip closing text with
  | some text' =>
    rw [hclose] at h
    cases h
    exact .inl ⟨rfl, rfl, rfl⟩
  | none =>
    rw [hclose] at h
    obtain ⟨text', hcomma, hnext⟩ := Option.bind_eq_some_iff.mp h
    exact .inr ⟨text', rfl, hcomma, hnext⟩

theorem parseEnclosed_cases {α : Type} {bytes : ℕ} {opening closing : UInt8} {out : List α}
    {loop : Reader β (List α)}
    (h : parseEnclosed B bytes opening closing loop text b = some (out, rest, b')) :
    ∃ b₁ text', skip opening text = some text' ∧
      ((skip closing text' = some rest ∧ out = []) ∨
        skip closing text' = none ∧ loop text' b₁ = some (out, rest, b')) := by
  rw [parseEnclosed] at h
  obtain ⟨b₁, -, h⟩ := Option.bind_eq_some_iff.mp h
  obtain ⟨text', hopen, h⟩ := Option.bind_eq_some_iff.mp h
  refine ⟨b₁, text', hopen, ?_⟩
  cases hclose : skip closing text' with
  | some text'' =>
    rw [hclose] at h
    cases h
    exact .inl ⟨rfl, rfl⟩
  | none =>
    rw [hclose] at h
    exact .inr ⟨rfl, h⟩

/-- Characters are skipped behind spaces only. -/
theorem skip_skipSpaces : skip c (skipSpacesAndComments text) = skip c text := by
  rw [skip, skip, skipSpacesAndComments_idem]

theorem arrayLoop_finds {f : Reader β Value} (hf : FindsPlain limit f) {acc nodes : List Value}
    (hnonzero : 0 ∉ text) (hacc : ∀ v ∈ acc, Found limit v)
    (hfirst : acc = [] → skip rbracket text = none)
    (h : arrayLoop B f m acc text b = some (nodes, rest, b')) :
    (∀ v ∈ nodes, Found limit v) ∧ (∀ v, nodes = [v] → v.writeTo id ≠ []) ∧ rest <:+ text := by
  induction m generalizing acc text b with
  | zero => cases h
  | succ m ih =>
    rw [arrayLoop_succ] at h
    obtain ⟨⟨v, text₁, b₁⟩, hv, h⟩ := Option.bind_eq_some_iff.mp h
    obtain ⟨b₂, -, h⟩ := Option.bind_eq_some_iff.mp h
    dsimp only at h
    have hsuffix := hf.suffix hnonzero hv
    have hboth : ∀ w ∈ acc ++ [v], Found limit w := by
      rw [List.forall_mem_append, List.forall_mem_singleton]
      exact ⟨hacc, hf.found hnonzero hv⟩
    rcases parseMore_cases h with ⟨hclose, rfl, -⟩ | ⟨text₂, -, hcomma, hnext⟩
    · refine ⟨hboth, fun w hw hempty ↦ ?_, (skip_suffix hclose).trans hsuffix⟩
      obtain ⟨rfl, rfl⟩ : acc = [] ∧ v = w := by
        cases acc with
        | nil => exact ⟨rfl, List.singleton_inj.mp hw⟩
        | cons u acc => cases acc <;> cases hw
      rw [hf.empty hnonzero hv hempty, skip_skipSpaces, hfirst rfl] at hclose
      cases hclose
    · have hsub := (skip_suffix hcomma).trans hsuffix
      obtain ⟨hnodes, hsingle, hrest⟩ := ih (fun hz ↦ hnonzero (hsub.subset hz)) hboth
        (fun hnil ↦ absurd hnil (List.append_ne_nil_of_right_ne_nil _ (List.cons_ne_nil _ _))) hnext
      exact ⟨hnodes, hsingle, hrest.trans hsub⟩

/-! ### Objects -/

theorem forall_modify {α : Type} {P : α → Prop} {g : α → α} (hg : ∀ x, P x → P (g x)) {xs : List α}
    (h : ∀ x ∈ xs, P x) (i : ℕ) : ∀ x ∈ xs.modify i g, P x := by
  induction xs generalizing i with
  | nil => rwa [List.modify_nil]
  | cons y xs ih =>
    rw [List.forall_mem_cons] at h
    cases i with
    | zero => exact List.forall_mem_cons.mpr ⟨hg y h.1, h.2⟩
    | succ i => exact List.forall_mem_cons.mpr ⟨h.1, ih h.2 i⟩

theorem map_modify {α γ : Type} {f : α → γ} {g : α → α} (hg : ∀ x, f (g x) = f x) (xs : List α)
    (i : ℕ) : (xs.modify i g).map f = xs.map f := by
  induction xs generalizing i with
  | nil => rw [List.modify_nil]
  | cons y xs ih =>
    cases i with
    | zero => exact congrArg (· :: xs.map f) (hg y)
    | succ i => exact congrArg (f y :: ·) (ih i)

/-- Members as the parser finds them. -/
structure FoundMembers (limit : ℕ) (nodes : List (List UInt8 × Value)) : Prop where
  members : ∀ n ∈ nodes, 0 ∉ n.1 ∧ Found limit n.2
  nodup : (nodes.map Prod.fst).Nodup

theorem set_finds {nodes out : List (List UInt8 × Value)} {key : List UInt8}
    (h : FoundMembers limit nodes) (hkey : 0 ∉ key) (hv : Found limit v)
    (hset : set B nodes key v b = some (out, b')) : FoundMembers limit out := by
  rw [set] at hset
  cases hfind : nodes.findIdx? fun n ↦ n.1 = key with
  | some i =>
    rw [hfind] at hset
    cases hset
    have hkeys := map_modify (f := Prod.fst) (g := fun n ↦ (n.1, v)) (fun _ ↦ rfl) nodes i
    refine ⟨forall_modify (fun n hn ↦ ?_) h.members i, hkeys ▸ h.nodup⟩
    exact ⟨hn.1, hv⟩
  | none =>
    rw [hfind] at hset
    obtain ⟨b₁, -, hout⟩ := Option.map_eq_some_iff.mp hset
    cases hout
    have hnew : key ∉ nodes.map Prod.fst := by
      rw [List.mem_map]
      rintro ⟨n, hn, rfl⟩
      exact of_decide_eq_false (List.findIdx?_eq_none_iff.mp hfind n hn) rfl
    refine ⟨List.forall_mem_append.mpr
      ⟨h.members, List.forall_mem_singleton.mpr ⟨hkey, hv⟩⟩, ?_⟩
    rw [List.map_append, List.map_singleton, List.nodup_append]
    refine ⟨h.nodup, List.nodup_singleton key, fun x hx y hy hxy ↦ hnew ?_⟩
    obtain rfl : y = key := List.mem_singleton.mp hy
    rwa [← hxy]

theorem objectLoop_finds {f : Reader β Value} (hf : FindsPlain limit f)
    {acc nodes : List (List UInt8 × Value)} (hnonzero : 0 ∉ text) (hacc : FoundMembers limit acc)
    (h : objectLoop B f m acc text b = some (nodes, rest, b')) :
    FoundMembers limit nodes ∧ rest <:+ text := by
  induction m generalizing acc text b with
  | zero => cases h
  | succ m ih =>
    rw [objectLoop_succ] at h
    obtain ⟨text₁, hcolon, h⟩ := Option.bind_eq_some_iff.mp h
    obtain ⟨⟨v, text₂, b₂⟩, hv, h⟩ := Option.bind_eq_some_iff.mp h
    obtain ⟨⟨acc', b₃⟩, hset, h⟩ := Option.bind_eq_some_iff.mp h
    dsimp only at h hset
    obtain ⟨hkey, hsuffix⟩ := parseString_nonzero hnonzero
    have hsuffix := (skip_suffix hcolon).trans hsuffix
    have hnonzero₁ : 0 ∉ text₁ := fun hz ↦ hnonzero (hsuffix.subset hz)
    have hfound := hf.found hnonzero₁ hv
    have hsuffix := (hf.suffix hnonzero₁ hv).trans hsuffix
    have hacc' := set_finds hacc hkey hfound hset
    rcases parseMore_cases h with ⟨hclose, rfl, -⟩ | ⟨text₃, -, hcomma, hnext⟩
    · exact ⟨hacc', (skip_suffix hclose).trans hsuffix⟩
    · have hsub := (skip_suffix hcomma).trans hsuffix
      obtain ⟨hnodes, hrest⟩ := ih (fun hz ↦ hnonzero (hsub.subset hz)) hacc' hnext
      exact ⟨hnodes, hrest.trans hsub⟩

end Text

/-! ## Values -/

theorem asReadNodes_same {nodes : List Value} (h : ∀ v ∈ nodes, Found limit v) :
    asReadNodes nodes = nodes := by
  induction nodes with
  | nil => rfl
  | cons v nodes ih =>
    rw [List.forall_mem_cons] at h
    rw [asReadNodes, h.1.same, ih h.2]

theorem nodeNesting_le {nodes : List Value} (h : ∀ v ∈ nodes, Found limit v) :
    nodeNesting nodes ≤ limit := by
  induction nodes with
  | nil => exact Nat.zero_le _
  | cons v nodes ih =>
    rw [List.forall_mem_cons] at h
    exact max_le h.1.nesting (ih h.2)

theorem found_array {nodes : List Value} (h : ∀ v ∈ nodes, Found limit v)
    (hsingle : ∀ v, nodes = [v] → v.writeTo id ≠ []) : Found (limit + 1) (.array nodes) where
  plain := .array (fun v hv ↦ (h v hv).plain) hsingle
  same := by rw [asRead, asReadNodes_same h]
  nesting := Nat.succ_le_succ (nodeNesting_le h)

theorem asReadPairs_same {nodes : List (List UInt8 × Value)}
    (h : ∀ n ∈ nodes, 0 ∉ n.1 ∧ Found limit n.2) : asReadPairs nodes = nodes := by
  induction nodes with
  | nil => rfl
  | cons n nodes ih =>
    rw [List.forall_mem_cons] at h
    rw [asReadPairs, h.1.2.same, ih h.2]

theorem pairNesting_le {nodes : List (List UInt8 × Value)}
    (h : ∀ n ∈ nodes, 0 ∉ n.1 ∧ Found limit n.2) : pairNesting nodes ≤ limit := by
  induction nodes with
  | nil => exact Nat.zero_le _
  | cons n nodes ih =>
    rw [List.forall_mem_cons] at h
    exact max_le h.1.2.nesting (ih h.2)

theorem found_object {nodes : List (List UInt8 × Value)} (h : Text.FoundMembers limit nodes) :
    Found (limit + 1) (.object nodes) where
  plain := .object (fun n hn ↦ (h.members n hn).1) (fun n hn ↦ (h.members n hn).2.plain) h.nodup
  same := by rw [asRead, asReadPairs_same h.members]
  nesting := Nat.succ_le_succ (pairNesting_le h.members)

namespace Text

theorem parseArray_finds {f : Reader β Value} (hf : FindsPlain limit f) {nodes : List Value}
    (hnonzero : 0 ∉ text) (h : parseArray B m f text b = some (nodes, rest, b')) :
    Found (limit + 1) (.array nodes) ∧ rest <:+ text := by
  obtain ⟨b₁, text', hopen, ⟨hclose, rfl⟩ | ⟨hnone, hloop⟩⟩ := parseEnclosed_cases h
  · exact ⟨found_array (fun v hv ↦ absurd hv List.not_mem_nil) nofun,
      (skip_suffix hclose).trans (skip_suffix hopen)⟩
  · have hsub := skip_suffix hopen
    obtain ⟨hnodes, hsingle, hrest⟩ := arrayLoop_finds hf (fun hz ↦ hnonzero (hsub.subset hz))
      (fun v hv ↦ absurd hv List.not_mem_nil) (fun _ ↦ hnone) hloop
    exact ⟨found_array hnodes hsingle, hrest.trans hsub⟩

theorem parseObject_finds {f : Reader β Value} (hf : FindsPlain limit f)
    {nodes : List (List UInt8 × Value)} (hnonzero : 0 ∉ text)
    (h : parseObject B m f text b = some (nodes, rest, b')) :
    Found (limit + 1) (.object nodes) ∧ rest <:+ text := by
  have hnil : FoundMembers limit [] :=
    ⟨fun n hn ↦ absurd hn List.not_mem_nil, List.nodup_nil⟩
  obtain ⟨b₁, text', hopen, ⟨hclose, rfl⟩ | ⟨-, hloop⟩⟩ := parseEnclosed_cases h
  · exact ⟨found_object hnil, (skip_suffix hclose).trans (skip_suffix hopen)⟩
  · have hsub := skip_suffix hopen
    obtain ⟨hnodes, hrest⟩ := objectLoop_finds hf (fun hz ↦ hnonzero (hsub.subset hz)) hnil hloop
    exact ⟨found_object hnodes, hrest.trans hsub⟩

/-- What is found behind spaces. -/
theorem parseAnything_cases {x : Value × List UInt8 × β}
    (h : parseAnything B m (limit + 1) text b = some x) :
    (∃ nodes, parseArray B m (parseAnything B m limit) (skipSpacesAndComments text) b =
        some (nodes, x.2) ∧ x.1 = .array nodes) ∨
      (∃ nodes, parseObject B m (parseAnything B m limit) (skipSpacesAndComments text) b =
        some (nodes, x.2) ∧ x.1 = .object nodes) ∨
      x = ((parseStringTo (skipSpacesAndComments text)).1,
        (parseStringTo (skipSpacesAndComments text)).2, b) := by
  simp only [parseAnything] at h
  split_ifs at h
  · obtain ⟨y, hy, rfl⟩ := Option.map_eq_some_iff.mp h
    exact .inl ⟨y.1, hy, rfl⟩
  · obtain ⟨y, hy, rfl⟩ := Option.map_eq_some_iff.mp h
    exact .inr (.inl ⟨y.1, hy, rfl⟩)
  · exact .inr (.inr (Option.some.inj h).symm)

theorem parseAnything_findsPlain (B : JsonBuffer β) (m limit : ℕ) :
    FindsPlain limit (parseAnything B m limit) := by
  induction limit with
  | zero => exact ⟨fun _ h ↦ (nomatch h), fun _ h ↦ (nomatch h), fun _ h ↦ (nomatch h)⟩
  | succ limit ih =>
    have hall {text : List UInt8} {b : β} {v : Value} {rest : List UInt8} {b' : β}
        (hnonzero : 0 ∉ text) (h : parseAnything B m (limit + 1) text b = some (v, rest, b')) :
        Found (limit + 1) v ∧ rest <:+ text ∧
          (v.writeTo id = [] → rest = skipSpacesAndComments text) := by
      have hsub := (trimmed_all text).1.2
      have hnonzero' : 0 ∉ skipSpacesAndComments text := fun hz ↦ hnonzero (hsub.subset hz)
      rcases parseAnything_cases h with ⟨nodes, hrun, rfl⟩ | ⟨nodes, hrun, rfl⟩ | heq
      · obtain ⟨hfound, hrest⟩ := parseArray_finds ih hnonzero' hrun
        exact ⟨hfound, hrest.trans hsub, fun hempty ↦ absurd hempty (List.cons_ne_nil _ _)⟩
      · obtain ⟨hfound, hrest⟩ := parseObject_finds ih hnonzero' hrun
        exact ⟨hfound, hrest.trans hsub, fun hempty ↦ absurd hempty (List.cons_ne_nil _ _)⟩
      · cases heq
        obtain ⟨hfound, hrest, hempty⟩ := parseStringTo_finds  hnonzero'
        exact ⟨hfound, hrest.trans hsub, hempty⟩
    exact ⟨fun hnonzero h ↦ (hall hnonzero h).1, fun hnonzero h ↦ (hall hnonzero h).2.1,
      fun hnonzero h ↦ (hall hnonzero h).2.2⟩

end Text

/-! ## The second round -/

variable {sizes : Sizes} {capacity : ℕ} {p : Parser β} {behind : List UInt8}

theorem readBack_found (h : Found (limit + 1) v) (hroom : v.memory sizes ≤ capacity) :
    readBack sizes capacity limit v = some v := by
  rw [readBack, if_pos ⟨h.nesting, hroom⟩, h.same]

theorem found_of_parseArray {nodes : List (JsonVariant ℕ)} (hnonzero : 0 ∉ text)
    (h : parseArray B b (text ++ 0 :: behind) limit = some (some nodes, p)) :
    ∃ ns, (JsonVariant.array nodes).map (stringAt p.mem) = .array ns ∧
      Found (limit + 1) (.array ns) := by
  obtain ⟨r, p', hrun, hreading⟩ := (parse_in_place B b behind limit hnonzero).1
  rw [h] at hrun
  cases hrun
  have hvalue := hreading.value
  rw [Option.map_some, Option.map_some, Option.map_map, eq_comm, Option.map_eq_some_iff] at hvalue
  obtain ⟨⟨ns, rest, b'⟩, hread, hns⟩ := hvalue
  exact ⟨ns, hns.symm, (Text.parseArray_finds (Text.parseAnything_findsPlain B _ limit) hnonzero
    hread).1⟩

theorem found_of_parseObject {nodes : List (ℕ × JsonVariant ℕ)} (hnonzero : 0 ∉ text)
    (h : parseObject B b (text ++ 0 :: behind) limit = some (some nodes, p)) :
    ∃ ns, (JsonVariant.object nodes).map (stringAt p.mem) = .object ns ∧
      Found (limit + 1) (.object ns) := by
  obtain ⟨r, p', hrun, hreading⟩ := (parse_in_place B b behind limit hnonzero).2
  rw [h] at hrun
  cases hrun
  have hvalue := hreading.value
  rw [Option.map_some, Option.map_some, Option.map_map, eq_comm, Option.map_eq_some_iff] at hvalue
  obtain ⟨⟨ns, rest, b'⟩, hread, hns⟩ := hvalue
  exact ⟨ns, hns.symm, (Text.parseObject_finds (Text.parseAnything_findsPlain B _ limit) hnonzero
    hread).1⟩

/-- **A second round changes nothing**: whatever text was parsed, and with whatever buffer, the
value that was found is found again in the text that is written for it, with the same limit and in
a buffer with room for it. -/
theorem parsed_again (hfit : sizes.Fit capacity) (hnonzero : 0 ∉ text) (behind' : List UInt8) :
    (∀ nodes p, parseArray B b (text ++ 0 :: behind) limit = some (some nodes, p) →
      ((JsonVariant.array nodes).map (stringAt p.mem)).memory sizes ≤ capacity →
      ∃ nodes' p', parseArray (staticJsonBuffer capacity sizes) 0
          ((JsonVariant.array nodes).writeTo (stringAt p.mem) ++ 0 :: behind') limit =
            some (some nodes', p') ∧
        (JsonVariant.array nodes').map (stringAt p'.mem) =
          (JsonVariant.array nodes).map (stringAt p.mem)) ∧
    (∀ nodes p, parseObject B b (text ++ 0 :: behind) limit = some (some nodes, p) →
      ((JsonVariant.object nodes).map (stringAt p.mem)).memory sizes ≤ capacity →
      ∃ nodes' p', parseObject (staticJsonBuffer capacity sizes) 0
          ((JsonVariant.object nodes).writeTo (stringAt p.mem) ++ 0 :: behind') limit =
            some (some nodes', p') ∧
        (JsonVariant.object nodes').map (stringAt p'.mem) =
          (JsonVariant.object nodes).map (stringAt p.mem)) := by
  constructor
  · intro nodes p hrun hroom
    obtain ⟨ns, hns, hfound⟩ := found_of_parseArray hnonzero hrun
    rw [hns] at hroom
    rw [← writeTo_map, hns]
    obtain ⟨r, p', hrun', hvalue, -⟩ := parsedArray_spaced hfit limit
      (writeTo_nonzero hfound.plain) behind' hfound.plain (spaced_writeTo hfound.plain)
    rw [readBack_found hfound hroom, Option.map_eq_some_iff] at hvalue
    obtain ⟨nodes', rfl, hvalue⟩ := hvalue
    exact ⟨nodes', p', hrun', hvalue⟩
  · intro nodes p hrun hroom
    obtain ⟨ns, hns, hfound⟩ := found_of_parseObject hnonzero hrun
    rw [hns] at hroom
    rw [← writeTo_map, hns]
    obtain ⟨r, p', hrun', hvalue, -⟩ := parsedObject_spaced hfit limit
      (writeTo_nonzero hfound.plain) behind' hfound.plain (spaced_writeTo hfound.plain)
    rw [readBack_found hfound hroom, Option.map_eq_some_iff] at hvalue
    obtain ⟨nodes', rfl, hvalue⟩ := hvalue
    exact ⟨nodes', p', hrun', hvalue⟩

theorem parsed_again_one : ∃ nodes' p',
    parseArray (staticJsonBuffer 64 ⟨8, 12, 8, 16⟩) 0
        ((JsonVariant.array [.unparsed 0]).writeTo (stringAt [0x31, 0, rbracket, 0, 7]) ++ [0, 9])
        10 = some (some nodes', p') ∧
      (JsonVariant.array nodes').map (stringAt p'.mem) =
        (JsonVariant.array [.unparsed 0]).map (stringAt [0x31, 0, rbracket, 0, 7]) :=
  have hrun : parseArray (staticJsonBuffer 64 ⟨8, 12, 8, 16⟩) 0
      ([lbracket, 0x31, rbracket] ++ 0 :: [7]) 10 =
        some (some [.unparsed 0], ⟨[0x31, 0, rbracket, 0, 7], 3, 2, 20⟩) := rfl
  have hroom : ((JsonVariant.array [.unparsed 0]).map
      (stringAt [0x31, 0, rbracket, 0, 7])).memory ⟨8, 12, 8, 16⟩ ≤ 64 := by decide
  have hnonzero : 0 ∉ [lbracket, 0x31, rbracket] := by decide
  have hagain := (parsed_again fit_words hnonzero [9]).1 _ _ hrun hroom
  hagain

end DuoFirmware.Json
