import DuoFirmware.Json.Print

/-!
# Texts that were cut short

A text that was written for an array or object, and whose end is missing, is not parsed: it never
passes for another value, whatever the buffer and the limit.
-/

namespace DuoFirmware.Json

open JsonVariant

variable {β : Type} {B : JsonBuffer β} {text rest s t : List UInt8} {ts : List (List UInt8)}
  {c : UInt8} {v : Value} {nodes : List Value} {pairs : List (List UInt8 × Value)}
  {m limit : ℕ} {b : β}

namespace Text

/-! ## Beginnings of texts -/

theorem Solid.of_le (h : Solid t) (hs : s <+: t) : Solid s := by
  obtain ⟨rest, rfl⟩ := hs
  intro c hc
  exact h c (by rw [List.head?_append_of_ne_nil s (by rintro rfl; cases hc)]; exact hc)

theorem Solid.append (hs : Solid s) (ht : Solid t) : Solid (s ++ t) := by
  cases s with
  | nil => exact ht
  | cons c s => exact hs

theorem Solid.skipSpaces (h : Solid t) : skipSpacesAndComments t = t := by
  cases t with
  | nil => rfl
  | cons c t => exact skipSpacesAndComments_solid (h c rfl).1 (h c rfl).2

theorem solid_flatten (h : ∀ t ∈ ts, Solid t) : Solid ts.flatten := by
  induction ts with
  | nil => exact fun c hc ↦ nomatch hc
  | cons t ts ih =>
    rw [List.forall_mem_cons] at h
    exact h.1.append (ih h.2)

theorem skip_solid (h : Solid (c :: t)) (ht : Solid t) : skip c (c :: t) = some t := by
  have hstep : skip c (c :: t) = some (skipSpacesAndComments t) := by
    rw [skip, h.skipSpaces]
    exact if_pos rfl
  rw [hstep, ht.skipSpaces]

/-- A beginning of a text does not start with what the text does not start with. -/
theorem skip_of_le (ht : Solid t) (hs : s <+: t) (h : skip c t = none) : skip c s = none := by
  have hsolid := ht.of_le hs
  obtain ⟨rest, rfl⟩ := hs
  rw [skip, ht.skipSpaces] at h
  rw [skip, hsolid.skipSpaces]
  cases s with
  | nil => rfl
  | cons d s =>
    dsimp only [List.cons_append] at h ⊢
    split_ifs at h ⊢
    rfl

theorem skip_none (h : skipSpacesAndComments text = []) (c : UInt8) : skip c text = none := by
  rw [skip, h]

theorem parseMore_none {α : Type} {nodes : α} {next : Reader β α}
    (h : skipSpacesAndComments text = []) : parseMore c nodes next text b = none := by
  rw [parseMore, skip_none h, skip_none h]
  rfl

/-! ## Strings -/

/-- A beginning of two texts ends in the first one or in the second one. -/
theorem cut_cases (h : text <+: s ++ t) : text <+: s ∨ ∃ rest, text = s ++ rest ∧ rest <+: t := by
  rcases List.prefix_or_prefix_of_prefix h (List.prefix_append s t) with hin | ⟨rest, rfl⟩
  · exact .inl hin
  · exact .inr ⟨rest, rfl, (List.prefix_append_right_inj s).mp h⟩

/-- What is left of a string that ends inside a character. -/
theorem quoted_cut_char (h : text <+: writeChar c) : (quoted quote text).2 = [] := by
  rcases writeChar_cases c with ⟨hquote, hback, -, hc⟩ | ⟨d, -, -, -, hc, -⟩
  · rw [hc, List.prefix_cons_iff] at h
    obtain rfl | ⟨rest, rfl, hrest⟩ := h
    · rfl
    · rw [List.prefix_nil.mp hrest, quoted, if_neg (not_or.mpr ⟨hquote, hback⟩)]
  · rw [hc, List.prefix_cons_iff] at h
    obtain rfl | ⟨rest, rfl, hrest⟩ := h
    · rfl
    · rw [List.prefix_cons_iff] at hrest
      obtain rfl | ⟨rest, rfl, hrest⟩ := hrest
      · rfl
      · rw [List.prefix_nil.mp hrest]
        rfl

/-- A string whose closing quote is missing takes all of the text. -/
theorem quoted_cut (h : text <+: s.flatMap writeChar ++ [quote]) : (quoted quote text).2 = [] := by
  induction s generalizing text with
  | nil =>
    rw [List.flatMap_nil, List.nil_append, List.prefix_cons_iff] at h
    obtain rfl | ⟨rest, rfl, hrest⟩ := h
    · rfl
    · rw [List.prefix_nil.mp hrest]
      rfl
  | cons c s ih =>
    rw [List.flatMap_cons, List.append_assoc] at h
    obtain h | ⟨rest, rfl, hrest⟩ := cut_cases h
    · exact quoted_cut_char h
    · rw [quoted_writeChar]
      exact ih hrest

theorem parseString_cut (h : text <+: writeString (some s)) : (parseString text).2 = [] := by
  cases text with
  | nil => rfl
  | cons c text =>
    rw [writeString, List.cons_append] at h
    obtain ⟨rfl, hbody⟩ := List.cons_prefix_cons.mp h
    exact quoted_cut hbody

theorem parseString_letters (hs : ∀ c ∈ s, isLetterOrNumber c = true) : (parseString s).2 = [] := by
  cases s with
  | nil => rfl
  | cons c s =>
    have hc := hs c List.mem_cons_self
    have hquote : ¬isQuote c = true := fun h ↦ (of_decide_eq_true h).elim
      (letter_ne hc (by decide)) (letter_ne hc (by decide))
    rw [parseString, if_neg hquote]
    exact List.dropWhile_eq_nil_iff.mpr hs

/-! ## Values -/

/-- Of a beginning of what is written for a value nothing is left but spaces. -/
def CutValue (B : JsonBuffer β) (v : Value) : Prop :=
  ∀ ⦃text m limit b r⦄, text <+: v.writeTo id → text.length < m →
    parseAnything B m limit text b = some r → skipSpacesAndComments r.2.1 = []

theorem cutValue_of_string (hsolid : Solid (v.writeTo id))
    (hhead : ∀ c ∈ (v.writeTo id).head?, c ≠ lbracket ∧ c ≠ lbrace)
    (hcut : ∀ ⦃text⦄, text <+: v.writeTo id → (parseString text).2 = []) : CutValue B v := by
  intro text m limit b r h _ hrun
  have hfirst : ∀ c ∈ text.head?, c ≠ lbracket ∧ c ≠ lbrace := by
    intro c hc
    obtain ⟨rest, heq⟩ := h
    refine hhead c ?_
    rw [← heq, List.head?_append_of_ne_nil _ (by rintro rfl; cases hc)]
    exact hc
  cases limit with
  | zero => cases hrun
  | succ limit =>
    have hbracket : text.head? ≠ some lbracket := fun hc ↦ (hfirst _ hc).1 rfl
    have hbrace : text.head? ≠ some lbrace := fun hc ↦ (hfirst _ hc).2 rfl
    simp only [parseAnything, (hsolid.of_le h).skipSpaces] at hrun
    rw [if_neg hbracket, if_neg hbrace] at hrun
    obtain rfl := Option.some.inj hrun
    have hrest : (parseStringTo text).2 = (parseString text).2 := rfl
    rw [hrest, hcut h]
    rfl

theorem parseMore_comma {α : Type} {nodes : α} {next : Reader β α} (hc : skip c text = none)
    (h : skip comma text = some rest) : parseMore c nodes next text b = next rest b := by
  rw [parseMore, hc, h]
  rfl

/-- A value with a comma behind it: the text ends in the value, or goes on behind the comma. -/
theorem cut_comma (hv : v.Plain) {next : List UInt8} (hnext : Solid next)
    (h : text <+: v.writeTo id ++ comma :: next) (hm : text.length < m) :
    text <+: v.writeTo id ∨ ∃ rest, text = v.writeTo id ++ comma :: rest ∧ rest <+: next ∧
      ∀ limit b r, parseAnything B m limit text b = some r →
        skip comma r.2.1 = some rest ∧ ∀ c ≠ comma, skip c r.2.1 = none := by
  obtain hin | ⟨rest, rfl, hrest⟩ := cut_cases h
  · exact .inl hin
  rw [List.prefix_cons_iff] at hrest
  obtain rfl | ⟨rest, rfl, hrest⟩ := hrest
  · exact .inl (by rw [List.append_nil])
  refine .inr ⟨rest, rfl, hrest, fun limit b r hrun ↦ ?_⟩
  have hsolid : ∀ t ∈ v.tokens ++ [[comma]], Solid t := by
    rw [List.forall_mem_append, List.forall_mem_singleton]
    exact ⟨tokens_solid hv, by rintro c ⟨⟩; decide⟩
  have hspaced : Spaced (skipSpacesAndComments rest) (v.tokens ++ [[comma]])
      ((v.tokens ++ [[comma]]).flatten ++ rest) := spaced_flatten hsolid
  rw [List.flatten_append, flatten_tokens, List.flatten_singleton, List.append_assoc] at hspaced
  obtain ⟨rest₁, hspaced₁, -, hread⟩ := readsValue B hv hspaced (closing_cons (.inl rfl)) hm
  have hr : r.2.1 = rest₁ := by
    rw [List.singleton_append, hread, Option.map_eq_some_iff] at *
    obtain ⟨b', -, rfl⟩ := hrun
    rfl
  obtain ⟨rest₂, hskip, htail, htrim, -⟩ := hspaced₁.skip_self
  have htail' : skipSpacesAndComments rest₂ = skipSpacesAndComments rest := htail
  rw [htrim, (hnext.of_le hrest).skipSpaces] at htail'
  rw [hr]
  exact ⟨htail' ▸ hskip, fun c hc ↦ hspaced₁.skip_other hc.symm⟩

/-! ## Arrays -/

theorem writeTo_solid (hv : v.Plain) : Solid (v.writeTo id) :=
  flatten_tokens v ▸ solid_flatten (tokens_solid hv)

theorem solid_cons (hspace : isSpace c = false) (hslash : c ≠ slash) : Solid (c :: t) := by
  rintro d ⟨⟩
  exact ⟨hspace, hslash⟩

theorem solid_nodes (hplain : ∀ v ∈ nodes, v.Plain) :
    Solid (writeNodes id nodes ++ [rbracket]) := by
  cases nodes with
  | nil => exact solid_cons rfl (by decide)
  | cons v nodes =>
    have hv := writeTo_solid (hplain v List.mem_cons_self)
    cases nodes with
    | nil => exact hv.append (solid_cons rfl (by decide))
    | cons next nodes =>
      have hcomma : Solid (comma :: writeNodes id (next :: nodes)) := solid_cons rfl (by decide)
      exact (hv.append hcomma).append (solid_cons rfl (by decide))

theorem arrayLoop_none {f : Reader β Value} {k : ℕ} {acc : List Value}
    (h : ∀ r, f text b = some r → ∀ b', parseMore rbracket (acc ++ [r.1])
      (arrayLoop B f k (acc ++ [r.1])) r.2.1 b' = none) :
    arrayLoop B f (k + 1) acc text b = none := by
  rw [arrayLoop_succ]
  cases hr : f text b with
  | none => rfl
  | some r =>
    rw [Option.bind_some]
    cases B.alloc B.sizes.arrayNode r.2.2 with
    | none => rfl
    | some b' => exact h r hr b'

theorem parseAnything_nil {r : Value × List UInt8 × β} (h : parseAnything B m limit [] b = some r) :
    r.2.1 = [] := by
  cases limit with
  | zero => cases h
  | succ limit =>
    obtain rfl := Option.some.inj h
    rfl

theorem cut_arrayLoop (hplain : ∀ v ∈ nodes, v.Plain) (hcut : ∀ v ∈ nodes, CutValue B v)
    (hm : text.length < m) (h : text <+: writeNodes id nodes ++ [rbracket])
    (hne : text ≠ writeNodes id nodes ++ [rbracket]) (k : ℕ) (acc : List Value) (b : β) :
    arrayLoop B (parseAnything B m limit) k acc text b = none := by
  induction nodes generalizing text k acc b with
  | nil =>
    rw [List.prefix_nil.mp ((List.prefix_concat_iff.mp h).resolve_left hne)]
    cases k with
    | zero => rfl
    | succ k =>
      refine arrayLoop_none fun r hr b' ↦ parseMore_none ?_
      rw [parseAnything_nil hr]
      rfl
  | cons v nodes ih =>
    cases k with
    | zero => rfl
    | succ k =>
      rw [List.forall_mem_cons] at hplain hcut
      refine arrayLoop_none fun r hr b' ↦ ?_
      have hends (hin : text <+: v.writeTo id) : parseMore rbracket (acc ++ [r.1])
          (arrayLoop B (parseAnything B m limit) k (acc ++ [r.1])) r.2.1 b' = none :=
        parseMore_none (hcut.1 hin hm hr)
      cases nodes with
      | nil => exact hends ((List.prefix_concat_iff.mp h).resolve_left hne)
      | cons next nodes =>
        rw [writeNodes, List.append_assoc, List.cons_append] at h hne
        obtain hin | ⟨rest, rfl, hrest, hmore⟩ := cut_comma hplain.1 (solid_nodes hplain.2) h hm
        · exact hends hin
        · obtain ⟨hskip, hother⟩ := hmore limit b r hr
          rw [parseMore_comma (hother _ (by decide)) hskip]
          refine ih hplain.2 hcut.2 ?_ hrest ?_ k _ b'
          · rw [List.length_append, List.length_cons] at hm
            omega
          · rintro rfl
            exact hne rfl

/-! ## Objects -/

theorem solid_pairs : Solid (writePairs id pairs ++ [rbrace]) := by
  cases pairs with
  | nil => exact solid_cons rfl (by decide)
  | cons n pairs => cases pairs <;> exact solid_cons rfl (by decide)

theorem objectLoop_none {f : Reader β Value} {k : ℕ} {acc : List (List UInt8 × Value)}
    (h : ∀ rest, skip colon (parseString text).2 = some rest → ∀ r, f rest b = some r →
      ∀ acc' b', parseMore rbrace acc' (objectLoop B f k acc') r.2.1 b' = none) :
    objectLoop B f (k + 1) acc text b = none := by
  rw [objectLoop_succ]
  cases hskip : skip colon (parseString text).2 with
  | none => rfl
  | some rest =>
    rw [Option.bind_some]
    cases hr : f rest b with
    | none => rfl
    | some r =>
      rw [Option.bind_some]
      cases set B acc (parseString text).1 r.1 r.2.2 with
      | none => rfl
      | some y => exact h rest hskip r hr y.1 y.2

/-- A key: the text ends in it, or goes on behind the colon. -/
theorem cut_colon {key next : List UInt8} (hnext : Solid next)
    (h : text <+: writeString (some key) ++ colon :: next) :
    skip colon (parseString text).2 = none ∨
      ∃ rest, text = writeString (some key) ++ colon :: rest ∧ rest <+: next ∧
        skip colon (parseString text).2 = some rest := by
  obtain hin | ⟨rest, rfl, hrest⟩ := cut_cases h
  · exact .inl (by rw [parseString_cut hin]; rfl)
  rw [List.prefix_cons_iff] at hrest
  obtain rfl | ⟨rest, rfl, hrest⟩ := hrest
  · exact .inl (by rw [List.append_nil, parseString_cut List.prefix_rfl]; rfl)
  · refine .inr ⟨rest, rfl, hrest, ?_⟩
    rw [parseString_writeString]
    exact skip_solid (solid_cons rfl (by decide)) (hnext.of_le hrest)

theorem cut_objectLoop (hplain : ∀ n ∈ pairs, n.2.Plain) (hcut : ∀ n ∈ pairs, CutValue B n.2)
    (hm : text.length < m) (h : text <+: writePairs id pairs ++ [rbrace])
    (hne : text ≠ writePairs id pairs ++ [rbrace]) (k : ℕ) (acc : List (List UInt8 × Value))
    (b : β) : objectLoop B (parseAnything B m limit) k acc text b = none := by
  induction pairs generalizing text k acc b with
  | nil =>
    rw [List.prefix_nil.mp ((List.prefix_concat_iff.mp h).resolve_left hne)]
    cases k with
    | zero => rfl
    | succ k => exact objectLoop_none fun _ hrest ↦ nomatch hrest
  | cons n pairs ih =>
    obtain ⟨key, v⟩ := n
    cases k with
    | zero => rfl
    | succ k =>
      rw [List.forall_mem_cons] at hplain hcut
      refine objectLoop_none fun value hvalue r hr acc' b' ↦ ?_
      have hends (hin : value <+: v.writeTo id) (hlen : value.length < m) :
          parseMore rbrace acc' (objectLoop B (parseAnything B m limit) k acc') r.2.1 b' = none :=
        parseMore_none (hcut.1 hin hlen hr)
      have hvsolid := writeTo_solid hplain.1
      cases pairs with
      | nil =>
        rw [writePairs, List.append_assoc, List.cons_append] at h hne
        obtain hnone | ⟨rest, rfl, hrest, hsome⟩ :=
          cut_colon (hvsolid.append (solid_cons rfl (by decide))) h
        · rw [hnone] at hvalue
          cases hvalue
        · obtain rfl := Option.some.inj (hsome.symm.trans hvalue)
          rw [List.length_append, List.length_cons] at hm
          refine hends ((List.prefix_concat_iff.mp hrest).resolve_left ?_) (by omega)
          rintro rfl
          exact hne rfl
      | cons next pairs =>
        rw [writePairs, List.append_assoc, List.append_assoc, List.cons_append, List.cons_append]
          at h hne
        obtain hnone | ⟨rest, rfl, hrest, hsome⟩ :=
          cut_colon (hvsolid.append (solid_cons rfl (by decide))) h
        · rw [hnone] at hvalue
          cases hvalue
        · obtain rfl := Option.some.inj (hsome.symm.trans hvalue)
          rw [List.length_append, List.length_cons] at hm
          obtain hin | ⟨rest, rfl, hrest, hmore⟩ := cut_comma hplain.1 solid_pairs hrest
            (m := m) (by omega)
          · exact hends hin (by omega)
          · obtain ⟨hskip, hother⟩ := hmore limit b r hr
            rw [parseMore_comma (hother _ (by decide)) hskip]
            refine ih hplain.2 hcut.2 ?_ hrest ?_ k _ b'
            · rw [List.length_append, List.length_cons] at hm
              omega
            · rintro rfl
              exact hne rfl

/-! ## All values -/

theorem skip_solid_other {d : UInt8} (h : Solid (c :: t)) (hd : c ≠ d) :
    skip d (c :: t) = none := by
  rw [skip, h.skipSpaces]
  exact if_neg hd

theorem parseEnclosed_none {α : Type} {bytes : ℕ} {opening closing : UInt8}
    {loop : Reader β (List α)} (h : ∀ rest, skip opening text = some rest →
      skip closing rest = none ∧ ∀ b, loop rest b = none) :
    parseEnclosed B bytes opening closing loop text b = none := by
  rw [parseEnclosed]
  cases B.alloc bytes b with
  | none => rfl
  | some b =>
    cases hskip : skip opening text with
    | none => rfl
    | some rest =>
      obtain ⟨hclosing, hloop⟩ := h rest hskip
      simp [hclosing, hloop b]

theorem cut_parseArray (hv : (JsonVariant.array nodes).Plain) (hcut : ∀ v ∈ nodes, CutValue B v)
    (hm : text.length < m) (h : text <+: (JsonVariant.array nodes).writeTo id)
    (hne : text ≠ (JsonVariant.array nodes).writeTo id) :
    parseArray B m (parseAnything B m limit) text b = none := by
  refine parseEnclosed_none fun rest hrest ↦ ?_
  have hplain : ∀ v ∈ nodes, v.Plain := fun v hmem ↦ hv.of_mem_array hmem
  have hsolid := solid_nodes hplain
  rw [writeTo, List.cons_append, List.prefix_cons_iff] at h
  obtain rfl | ⟨text, rfl, htext⟩ := h
  · cases hrest
  obtain rfl : text = rest := Option.some.inj
    ((skip_solid (solid_cons rfl (by decide)) (hsolid.of_le htext)).symm.trans hrest)
  have hne' : text ≠ writeNodes id nodes ++ [rbracket] := by
    rintro rfl
    exact hne rfl
  rw [List.length_cons] at hm
  refine ⟨?_, cut_arrayLoop hplain hcut (by omega) htext hne' m []⟩
  rcases eq_or_ne nodes [] with rfl | hnodes
  · rw [List.prefix_nil.mp ((List.prefix_concat_iff.mp htext).resolve_left hne')]
    rfl
  · have hspaced := spaced_writeTo hv
    rw [writeTo, tokens, List.cons_append, List.cons_append] at hspaced
    obtain ⟨rest, hskip, hnodesTokens, -⟩ := hspaced.skip_self
    obtain rfl := Option.some.inj
      ((skip_solid (solid_cons rfl (by decide)) hsolid).symm.trans hskip)
    exact skip_of_le hsolid htext (skip_rbracket_nodes hv hnodes hnodesTokens)

theorem cut_parseObject (hv : (JsonVariant.object pairs).Plain)
    (hcut : ∀ n ∈ pairs, CutValue B n.2) (hm : text.length < m)
    (h : text <+: (JsonVariant.object pairs).writeTo id)
    (hne : text ≠ (JsonVariant.object pairs).writeTo id) :
    parseObject B m (parseAnything B m limit) text b = none := by
  refine parseEnclosed_none fun rest hrest ↦ ?_
  have hsolid : Solid (writePairs id pairs ++ [rbrace]) := solid_pairs
  rw [writeTo, List.cons_append, List.prefix_cons_iff] at h
  obtain rfl | ⟨text, rfl, htext⟩ := h
  · cases hrest
  obtain rfl : text = rest := Option.some.inj
    ((skip_solid (solid_cons rfl (by decide)) (hsolid.of_le htext)).symm.trans hrest)
  have hne' : text ≠ writePairs id pairs ++ [rbrace] := by
    rintro rfl
    exact hne rfl
  rw [List.length_cons] at hm
  refine ⟨?_, cut_objectLoop (fun n hmem ↦ hv.of_mem_object hmem) hcut (by omega) htext hne' m []⟩
  cases pairs with
  | nil =>
    rw [List.prefix_nil.mp ((List.prefix_concat_iff.mp htext).resolve_left hne')]
    rfl
  | cons n pairs =>
    refine skip_of_le hsolid htext ?_
    cases pairs <;> exact skip_solid_other (solid_cons rfl (by decide)) (by decide)

theorem cutValue_array (hv : (JsonVariant.array nodes).Plain) (hcut : ∀ v ∈ nodes, CutValue B v) :
    CutValue B (.array nodes) := by
  intro text m limit b r h hm hrun
  cases limit with
  | zero => cases hrun
  | succ limit =>
    simp only [parseAnything, ((writeTo_solid hv).of_le h).skipSpaces] at hrun
    by_cases hall : text = (JsonVariant.array nodes).writeTo id
    · subst hall
      have hspaced := spaced_writeTo hv
      rw [← List.append_nil (tokens _)] at hspaced
      obtain ⟨rest, hrest, -, hread⟩ := readsArray B hv
        (fun v hmem ↦ readsValue B (hv.of_mem_array hmem)) hspaced hm
      have hhead : (writeTo id (.array nodes)).head? = some lbracket := rfl
      rw [if_pos hhead, hread, Option.map_map, Option.map_eq_some_iff] at hrun
      obtain ⟨b', -, rfl⟩ := hrun
      exact hrest
    · rw [cut_parseArray hv hcut hm h hall] at hrun
      rw [writeTo, List.cons_append, List.prefix_cons_iff] at h
      obtain rfl | ⟨text, rfl, -⟩ := h
      · obtain rfl := Option.some.inj hrun
        rfl
      · cases hrun

theorem cutValue_object (hv : (JsonVariant.object pairs).Plain)
    (hcut : ∀ n ∈ pairs, CutValue B n.2) : CutValue B (.object pairs) := by
  intro text m limit b r h hm hrun
  cases limit with
  | zero => cases hrun
  | succ limit =>
    simp only [parseAnything, ((writeTo_solid hv).of_le h).skipSpaces] at hrun
    by_cases hall : text = (JsonVariant.object pairs).writeTo id
    · subst hall
      have hspaced := spaced_writeTo hv
      rw [← List.append_nil (tokens _)] at hspaced
      obtain ⟨rest, hrest, -, hread⟩ := readsObject B hv.keys_nodup
        (fun n hmem ↦ readsValue B (hv.of_mem_object hmem)) hspaced hm
      have hhead : (writeTo id (.object pairs)).head? = some lbrace := rfl
      have hbracket : (writeTo id (.object pairs)).head? ≠ some lbracket := by
        rw [hhead]
        decide
      rw [if_neg hbracket, if_pos hhead, hread, Option.map_map, Option.map_eq_some_iff] at hrun
      obtain ⟨b', -, rfl⟩ := hrun
      exact hrest
    · rw [cut_parseObject hv hcut hm h hall] at hrun
      rw [writeTo, List.cons_append, List.prefix_cons_iff] at h
      obtain rfl | ⟨text, rfl, -⟩ := h
      · obtain rfl := Option.some.inj hrun
        rfl
      · cases hrun

theorem cutValue_scalar (hv : v.Plain) (harray : ∀ nodes, v ≠ .array nodes)
    (hobject : ∀ pairs, v ≠ .object pairs) : CutValue B v := by
  have hsolid := writeTo_solid hv
  rcases plain_cases hv with ⟨s, htokens, hs, -⟩ | ⟨s, rfl, -⟩ | ⟨nodes, rfl⟩ | ⟨nodes, rfl⟩
  · have hflatten := flatten_tokens v
    rw [htokens, List.flatten_singleton] at hflatten
    rw [hflatten] at hs
    refine cutValue_of_string hsolid (fun c hc ↦ ?_) fun text htext ↦
      parseString_letters fun c hc ↦ hs c (htext.subset hc)
    have hletter := hs c (List.mem_of_head? hc)
    exact ⟨letter_ne hletter rfl, letter_ne hletter rfl⟩
  · refine cutValue_of_string hsolid ?_ fun text htext ↦ parseString_cut htext
    rintro c ⟨⟩
    decide
  · exact absurd rfl (harray nodes)
  · exact absurd rfl (hobject nodes)

theorem cutValue (hv : v.Plain) : CutValue B v := by
  induction v using ofNodes with
  | harray nodes ih => exact cutValue_array hv fun v hmem ↦ ih v hmem (hv.of_mem_array hmem)
  | hobject pairs ih => exact cutValue_object hv fun n hmem ↦ ih n hmem (hv.of_mem_object hmem)
  | _ => exact cutValue_scalar hv nofun nofun

end Text

/-! ## Printing to a buffer that is too small -/

theorem parseArray_cut (hv : (JsonVariant.array nodes).Plain) {k : ℕ}
    (hk : k < ((JsonVariant.array nodes).writeTo id).length) (behind : List UInt8) (b : β)
    (limit : ℕ) : ∃ p, parseArray B b
      (((JsonVariant.array nodes).writeTo id).take k ++ 0 :: behind) limit = some (none, p) := by
  have hle := List.take_prefix k ((JsonVariant.array nodes).writeTo id)
  have hnonzero : 0 ∉ ((JsonVariant.array nodes).writeTo id).take k :=
    fun hz ↦ writeTo_nonzero hv (hle.subset hz)
  have hne : ((JsonVariant.array nodes).writeTo id).take k ≠ (JsonVariant.array nodes).writeTo id :=
    fun heq ↦ hk.not_ge (List.take_eq_self_iff _ |>.mp heq)
  obtain ⟨r, p, hrun, hreading⟩ := (parse_in_place B b behind limit hnonzero).1
  have hvalue := hreading.value
  rw [Text.readArray, Text.cut_parseArray hv (fun v hmem ↦ Text.cutValue (hv.of_mem_array hmem))
    (Nat.lt_succ_self _) hle hne] at hvalue
  cases r with
  | none => exact ⟨p, hrun⟩
  | some r => cases hvalue

theorem parseObject_cut (hv : (JsonVariant.object pairs).Plain) {k : ℕ}
    (hk : k < ((JsonVariant.object pairs).writeTo id).length) (behind : List UInt8) (b : β)
    (limit : ℕ) : ∃ p, parseObject B b
      (((JsonVariant.object pairs).writeTo id).take k ++ 0 :: behind) limit = some (none, p) := by
  have hle := List.take_prefix k ((JsonVariant.object pairs).writeTo id)
  have hnonzero : 0 ∉ ((JsonVariant.object pairs).writeTo id).take k :=
    fun hz ↦ writeTo_nonzero hv (hle.subset hz)
  have hne : ((JsonVariant.object pairs).writeTo id).take k ≠
      (JsonVariant.object pairs).writeTo id :=
    fun heq ↦ hk.not_ge (List.take_eq_self_iff _ |>.mp heq)
  obtain ⟨r, p, hrun, hreading⟩ := (parse_in_place B b behind limit hnonzero).2
  have hvalue := hreading.value
  rw [Text.readObject, Text.cut_parseObject hv
    (fun n hmem ↦ Text.cutValue (hv.of_mem_object hmem)) (Nat.lt_succ_self _) hle hne] at hvalue
  cases r with
  | none => exact ⟨p, hrun⟩
  | some r => cases hvalue

end DuoFirmware.Json
