import DuoFirmware.Json.InPlace

/-!
# The parser finds what the text means

The strings of what it returns lie in the part of the memory that was written, and stay there while
the parser goes on.
-/

namespace DuoFirmware.Json

open StateProgram

variable {β A A' : Type} {k k' text behind rest : List UInt8} {n s : ℕ} {c : UInt8}
  {v : JsonVariant ℕ} {v' : JsonVariant (List UInt8)} {p p' : Parser β}

/-! ## Strings in memory -/

def stringAt (mem : List UInt8) (s : ℕ) : List UInt8 := (mem.drop s).takeWhile (· ≠ 0)

theorem zero_mem_drop (hs : 0 ∈ k.drop s) (h : k <+: k') : 0 ∈ k'.drop s :=
  (h.drop s).subset hs

theorem takeWhile_kept (hs : 0 ∈ k) (h : k <+: k') :
    k'.takeWhile (· ≠ 0) = k.takeWhile (· ≠ 0) := by
  obtain ⟨more, rfl⟩ := h
  obtain ⟨front, back, rfl, hfront⟩ := List.eq_append_cons_of_mem hs
  have hstop (l : List UInt8) : (front ++ 0 :: l).takeWhile (· ≠ 0) = front :=
    Bytes.takeWhile_chars ⟨front, fun _ hc hzero ↦ hfront (hzero ▸ hc)⟩ l
  rw [hstop, List.append_assoc, List.cons_append, hstop]

/-- A string with an end stays as it is when more is written behind it. -/
theorem stringAt_kept (hs : 0 ∈ k.drop s) (h : k <+: k') :
    stringAt k' s = stringAt k s :=
  takeWhile_kept hs (h.drop s)

/-- `v` stands for `v'`: its strings have their ends in the memory. -/
structure Means (k : List UInt8) (v : JsonVariant ℕ) (v' : JsonVariant (List UInt8)) : Prop where
  ends : ∀ s ∈ v.strings, 0 ∈ k.drop s
  eq : v.map (stringAt k) = v'

theorem Means.mono (h : Means k v v') (hkept : k <+: k') : Means k' v v' where
  ends s hs := zero_mem_drop (h.ends s hs) hkept
  eq := (v.map_congr fun s hs ↦ stringAt_kept (h.ends s hs) hkept).trans h.eq

theorem means_iff : Means k v v' ↔ (∀ s ∈ v.strings, 0 ∈ k.drop s) ∧ v.map (stringAt k) = v' :=
  ⟨fun h ↦ ⟨h.ends, h.eq⟩, fun h ↦ ⟨h.1, h.2⟩⟩

theorem map_eq_iff_forall₂ {f : A → A'} {xs : List A} {ys : List A'} :
    xs.map f = ys ↔ List.Forall₂ (fun x y ↦ f x = y) xs ys := by
  rw [← List.forall₂_map_left_iff, List.forall₂_eq_eq_eq]

/-- An array stands for the array of what its values stand for. -/
theorem means_array {nodes : List (JsonVariant ℕ)} {nodes' : List (JsonVariant (List UInt8))} :
    Means k (.array nodes) (.array nodes') ↔ List.Forall₂ (Means k) nodes nodes' := by
  rw [means_iff, JsonVariant.strings, JsonVariant.nodeStrings_eq, JsonVariant.map,
    JsonVariant.mapNodes_eq, JsonVariant.array.injEq, map_eq_iff_forall₂]
  change _ ↔ List.Forall₂ (fun v v' ↦ Means k v v') nodes nodes'
  simp only [means_iff, List.forall₂_and_left, List.forall_mem_flatMap]

/-- A member stands for another one. -/
def MeansMember (k : List UInt8) (m : ℕ × JsonVariant ℕ)
    (m' : List UInt8 × JsonVariant (List UInt8)) : Prop :=
  0 ∈ k.drop m.1 ∧ stringAt k m.1 = m'.1 ∧ Means k m.2 m'.2

theorem means_object {nodes : List (ℕ × JsonVariant ℕ)}
    {nodes' : List (List UInt8 × JsonVariant (List UInt8))} :
    Means k (.object nodes) (.object nodes') ↔ List.Forall₂ (MeansMember k) nodes nodes' := by
  rw [means_iff, JsonVariant.strings, JsonVariant.pairStrings_eq, JsonVariant.map,
    JsonVariant.mapPairs_eq, JsonVariant.object.injEq, map_eq_iff_forall₂]
  change _ ↔ List.Forall₂ (fun m m' ↦ MeansMember k m m') nodes nodes'
  simp only [MeansMember, means_iff, List.forall_mem_flatMap, List.forall_mem_cons]
  have hsplit (m : ℕ × JsonVariant ℕ) (m' : List UInt8 × JsonVariant (List UInt8)) :
      (0 ∈ k.drop m.1 ∧ stringAt k m.1 = m'.1 ∧ (∀ s ∈ m.2.strings, 0 ∈ k.drop s) ∧
        m.2.map (stringAt k) = m'.2) ↔
      (0 ∈ k.drop m.1 ∧ ∀ s ∈ m.2.strings, 0 ∈ k.drop s) ∧
        Prod.map (stringAt k) (JsonVariant.map (stringAt k)) m = m' := by
    rw [Prod.ext_iff, Prod.map_fst, Prod.map_snd]
    tauto
  simp only [hsplit, List.forall₂_and_left]

theorem MeansMember.mono {m : ℕ × JsonVariant ℕ} {m' : List UInt8 × JsonVariant (List UInt8)}
    (h : MeansMember k m m') (hkept : k <+: k') : MeansMember k' m m' :=
  ⟨zero_mem_drop h.1 hkept, (stringAt_kept h.1 hkept).trans h.2.1, h.2.2.mono hkept⟩

/-- The values of an array. -/
abbrev MeansArray (k : List UInt8) :
    List (JsonVariant ℕ) → List (JsonVariant (List UInt8)) → Prop :=
  List.Forall₂ (Means k)

/-- The members of an object. -/
abbrev MeansObject (k : List UInt8) :
    List (ℕ × JsonVariant ℕ) → List (List UInt8 × JsonVariant (List UInt8)) → Prop :=
  List.Forall₂ (MeansMember k)

/-! ## States of the parser -/

/-- What the parser has written. -/
def Parser.kept (p : Parser β) : List UInt8 := p.mem.take p.writePtr

/-- The text that is left starts at the character that is read next, and the next one that is
written is not behind it. -/
structure Holds (p : Parser β) (text behind : List UInt8) : Prop where
  reads : At p.mem p.readPtr text behind
  le : p.writePtr ≤ p.readPtr
  nonzero : 0 ∉ text

/-- `p'` is a state that `p` leads to. -/
structure After (p p' : Parser β) (text rest behind : List UInt8) : Prop where
  holds : Holds p' rest behind
  length : p'.mem.length = p.mem.length
  kept : p.kept <+: p'.kept
  shorter : rest.length ≤ text.length

theorem Holds.after (h : Holds p text behind) : After p p text text behind :=
  ⟨h, rfl, List.prefix_rfl, le_rfl⟩

theorem After.trans {p'' : Parser β} {text' : List UInt8} (h : After p p' text text' behind)
    (h' : After p' p'' text' rest behind) : After p p'' text rest behind :=
  ⟨h'.holds, h'.length.trans h.length, h.kept.trans h'.kept, h'.shorter.trans h.shorter⟩

/-- The result is the one that the text has. -/
def Agrees (M : List UInt8 → A → A' → Prop) (r : Option A) (p' : Parser β) (rest : List UInt8) :
    Option (A' × List UInt8 × β) → Prop
  | none => r = none
  | some (a', rest', b) => rest = rest' ∧ p'.buffer = b ∧ ∃ a, r = some a ∧ M p'.kept a a'

/-- The run ends in a state that `p` leads to, with the result that the text has. -/
def Outcome (M : List UInt8 → A → A' → Prop) (p : Parser β) (text behind : List UInt8)
    (result : Option (A' × List UInt8 × β)) (r : Option A) (p' : Parser β) : Prop :=
  ∃ rest, After p p' text rest behind ∧ Agrees M r p' rest result

theorem After.outcome {M : List UInt8 → A → A' → Prop} {text' : List UInt8}
    {result : Option (A' × List UInt8 × β)} {r : Option A} {p'' : Parser β}
    (h : After p p' text text' behind) (ho : Outcome M p' text' behind result r p'') :
    Outcome M p text behind result r p'' := by
  obtain ⟨rest, hafter, hagrees⟩ := ho
  exact ⟨rest, h.trans hafter, hagrees⟩

theorem After.fails {M : List UInt8 → A → A' → Prop} (h : After p p' text rest behind) :
    Outcome M p text behind none none p' :=
  ⟨rest, h, rfl⟩

theorem After.found {M : List UInt8 → A → A' → Prop} {a : A} {a' : A'} {b : β}
    (h : After p p' text rest behind) (hb : p'.buffer = b) (ha : M p'.kept a a') :
    Outcome M p text behind (some (a', rest, b)) (some a) p' :=
  ⟨rest, h, rfl, hb, a, rfl, ha⟩

theorem Outcome.map {C C' : Type} {M : List UInt8 → A → A' → Prop} {M' : List UInt8 → C → C' → Prop}
    {result : Option (A' × List UInt8 × β)} {r : Option A} {g : A → C} {g' : A' → C'}
    (h : Outcome M p text behind result r p') (hg : ∀ k a a', M k a a' → M' k (g a) (g' a')) :
    Outcome M' p text behind (result.map (Prod.map g' id)) (r.map g) p' := by
  obtain ⟨rest, hafter, hagrees⟩ := h
  cases result with
  | none =>
    obtain rfl : r = none := hagrees
    exact hafter.fails
  | some result =>
    obtain ⟨rfl, hb, a, rfl, ha⟩ := hagrees
    exact ⟨_, hafter, rfl, hb, g a, rfl, hg _ _ _ ha⟩

/-- A program finds what a reader reads, where a character was read that was not written over. -/
def Finds (behind : List UInt8) (n : ℕ) (M : List UInt8 → A → A' → Prop)
    (x : ParserM β (Option A)) (f : Text.Reader β A') : Prop :=
  ∀ p text, Holds p text behind → p.writePtr < p.readPtr → text.length < n →
    Ends x p (Outcome M p text behind (f text p.buffer))

/-! ## Spaces and strings -/

theorem Holds.skipSpaces (h : Holds p text behind) (hn : text.length < n) :
    Ends (Parser.skipSpaces n) p fun _ p' ↦
      After p p' text (Text.skipSpacesAndComments text) behind ∧ p'.buffer = p.buffer ∧
        (p.writePtr < p.readPtr → p'.writePtr < p'.readPtr) := by
  obtain ⟨gone, htext, hrun⟩ := skipSpacesAndComments_spec h.nonzero h.reads hn
  have hsub : Text.skipSpacesAndComments text <:+ text := ⟨gone, htext.symm⟩
  refine ⟨(), { p with readPtr := p.readPtr + gone.length }, by rw [Parser.skipSpaces, hrun]; rfl,
    ⟨⟨?_, ?_, ?_⟩, rfl, List.prefix_rfl, ?_⟩, rfl, ?_⟩
  · exact (htext ▸ h.reads).append
  · exact h.le.trans (Nat.le_add_right _ _)
  · exact fun hz ↦ h.nonzero (hsub.subset hz)
  · exact hsub.length_le
  · exact fun hlt ↦ hlt.trans_le (Nat.le_add_right _ _)

theorem Holds.peek (h : Holds p text behind) : Parser.peek p = some (text.headD 0, p) := by
  rw [Parser.peek, h.reads.get, Option.map_some]

theorem Holds.skip_none (h : Holds p text behind) (hn : text.length < n) (hc : c ≠ 0)
    (hskip : Text.skip c text = none) : Parser.skip n c p = some (false, p) := by
  obtain ⟨gone, htext, hrun⟩ := skipSpacesAndComments_spec h.nonzero h.reads hn
  have hget := ((htext ▸ h.reads : At p.mem p.readPtr (gone ++ _) behind)).append.get
  rw [Parser.skip, hrun, Option.bind_eq_bind, Option.bind_some, hget, Option.bind_eq_bind,
    Option.bind_some, if_pos]
  rw [Text.skip] at hskip
  cases hs : Text.skipSpacesAndComments text with
  | nil => exact hc.symm
  | cons d rest =>
    rw [hs] at hskip
    intro hd
    rw [List.headD_cons] at hd
    simp [hd] at hskip

theorem Holds.skip_some (h : Holds p text behind) (hn : text.length < n)
    (hskip : Text.skip c text = some rest) :
    ∃ p', Parser.skip n c p = some (true, p') ∧ After p p' text rest behind ∧
      p'.buffer = p.buffer ∧ p'.writePtr < p'.readPtr ∧ rest.length < text.length := by
  obtain ⟨gone, htext, hrun⟩ := skipSpacesAndComments_spec h.nonzero h.reads hn
  have hat : At p.mem (p.readPtr + gone.length) (Text.skipSpacesAndComments text) behind :=
    (htext ▸ h.reads : At p.mem p.readPtr (gone ++ _) behind).append
  rw [Text.skip] at hskip
  cases hs : Text.skipSpacesAndComments text with
  | nil =>
    rw [hs] at hskip
    cases hskip
  | cons d text' =>
    rw [hs] at hskip htext hat
    dsimp only at hskip
    split_ifs at hskip with hd
    obtain rfl := hd
    obtain rfl := Option.some.inj hskip
    have hlen := congrArg List.length htext
    rw [List.length_append, List.length_cons] at hlen
    have hnonzero : 0 ∉ text' := fun hz ↦ h.nonzero (htext ▸ List.mem_append_right _ (.tail _ hz))
    obtain ⟨gone', htext', hrun'⟩ :=
      skipSpacesAndComments_spec (n := n) hnonzero hat.next (by omega)
    have hsub : Text.skipSpacesAndComments text' <:+ text' := ⟨gone', htext'.symm⟩
    have hle := hsub.length_le
    have hptr := h.le
    refine ⟨{ p with readPtr := p.readPtr + gone.length + 1 + gone'.length }, ?_,
      ⟨⟨(htext' ▸ hat.next : At p.mem _ (gone' ++ _) behind).append, ?_,
        fun hz ↦ hnonzero (hsub.subset hz)⟩, rfl, List.prefix_rfl, ?_⟩, rfl, ?_, ?_⟩
    · rw [Parser.skip, hrun, Option.bind_eq_bind, Option.bind_some, hat.get, List.headD_cons,
        Option.bind_eq_bind, Option.bind_some, if_neg (not_not.mpr rfl), hrun']
      rfl
    · exact h.le.trans (by rw [Nat.add_assoc, Nat.add_assoc]; exact Nat.le_add_right _ _)
    · omega
    · dsimp only
      omega
    · omega

theorem length_parseString (text : List UInt8) :
    (Text.parseString text).2.length ≤ text.length := by
  cases text with
  | nil => exact le_rfl
  | cons c text =>
    rw [Text.parseString]
    split_ifs
    · exact (Text.length_quoted c text).trans (Nat.le_succ _)
    · exact (List.dropWhile_sublist _).length_le

/-- The string is put behind what was written, with a zero. -/
theorem Holds.parseString (h : Holds p text behind) (hlt : p.writePtr < p.readPtr)
    (hn : text.length < n) :
    Ends (Parser.parseString n) p fun s p' ↦
      After p p' text (Text.parseString text).2 behind ∧ p'.buffer = p.buffer ∧
        0 ∈ p'.kept.drop s ∧ stringAt p'.kept s = (Text.parseString text).1 := by
  obtain ⟨r, hrun, hr⟩ : ∃ r,
      (if isQuote (text.headD 0) then quotedLoop (text.headD 0) n p.mem p.readPtr p.writePtr
        else bareLoop n p.mem p.readPtr p.writePtr) = some r ∧
      Leaves p.mem p.writePtr (Text.parseString text).1 (Text.parseString text).2 behind r := by
    cases text with
    | nil => exact bareLoop_spec h.nonzero h.reads hlt hn
    | cons c text =>
      rw [Text.parseString, List.headD_cons]
      split_ifs
      · exact quotedLoop_spec c (List.not_mem_of_not_mem_cons h.nonzero) h.reads.next h.le
          (Nat.lt_of_succ_lt hn)
      · exact bareLoop_spec h.nonzero h.reads hlt hn
  obtain ⟨mem, readPtr, writePtr⟩ := r
  obtain ⟨hlength, hreads, hless, hkept, hvalue, hnonzero⟩ := hr
  dsimp only at hlength hreads hless hkept
  have hfits := hless.trans hreads.lt_length
  have hwrite : p.kept.length = p.writePtr :=
    List.length_take_of_le (hlt.trans h.reads.lt_length).le
  have hafter : (mem.set writePtr 0).take (writePtr + 1) =
      p.kept ++ ((Text.parseString text).1 ++ [0]) := by
    rw [take_set_succ hfits, hkept, List.append_assoc, Parser.kept]
  have hdrop : (p.kept ++ ((Text.parseString text).1 ++ [0])).drop p.writePtr =
      (Text.parseString text).1 ++ [0] := by
    rw [← hwrite, List.drop_left]
  refine ⟨p.writePtr, ⟨mem.set writePtr 0, readPtr, writePtr + 1, p.buffer⟩, ?_,
    ⟨⟨hreads.set hless, hless, hnonzero⟩, ?_, ?_, length_parseString text⟩, rfl, ?_, ?_⟩
  · rw [Parser.parseString, h.reads.get]
    generalize text.headD 0 = d at hrun
    cases hquote : isQuote d with
    | false =>
      rw [hquote, if_neg Bool.false_ne_true] at hrun
      simp [hquote, hrun, store_eq hfits]
    | true =>
      rw [hquote, if_pos rfl] at hrun
      simp [hquote, hrun, store_eq hfits]
  · rw [List.length_set, hlength]
  · exact ⟨_, hafter.symm⟩
  · rw [Parser.kept, hafter, hdrop]
    exact List.mem_append_right _ (List.mem_singleton_self 0)
  · rw [Parser.kept, hafter, stringAt, hdrop]
    exact Bytes.takeWhile_chars ⟨_, fun _ hc hzero ↦ hvalue (hzero ▸ hc)⟩ []

theorem Holds.parseStringTo (h : Holds p text behind) (hlt : p.writePtr < p.readPtr)
    (hn : text.length < n) :
    Ends (Parser.parseStringTo n) p fun v p' ↦
      After p p' text (Text.parseStringTo text).2 behind ∧ p'.buffer = p.buffer ∧
        Means p'.kept v (Text.parseStringTo text).1 := by
  refine .bind_eq h.peek ((h.parseString hlt hn).bind fun s p' ⟨hafter, hb, hend, hs⟩ ↦ .pure ?_)
  have hquote : text.head?.any isQuote = isQuote (text.headD 0) := by cases text <;> rfl
  refine ⟨hafter, hb, ?_⟩
  have hvalue : (Text.parseStringTo text).1 = if isQuote (text.headD 0)
      then .string (some (stringAt p'.kept s)) else .unparsed (stringAt p'.kept s) := by
    rw [hs, ← hquote]
    rfl
  rw [hvalue]
  cases isQuote (text.headD 0) with
  | false => exact ⟨fun _ hmem ↦ List.mem_singleton.mp hmem ▸ hend, rfl⟩
  | true => exact ⟨fun _ hmem ↦ List.mem_singleton.mp hmem ▸ hend, rfl⟩

/-! ## Arrays -/

variable {B : JsonBuffer β} {bytes : ℕ} {b : β}

theorem Holds.withBuffer (h : Holds p text behind) (b : β) :
    After p { p with buffer := b } text text behind :=
  ⟨⟨h.reads, h.le, h.nonzero⟩, rfl, List.prefix_rfl, le_rfl⟩

theorem alloc_none (h : B.alloc bytes p.buffer = none) :
    Parser.alloc B bytes p = some (false, p) := by
  rw [Parser.alloc, h]

theorem alloc_some (h : B.alloc bytes p.buffer = some b) :
    Parser.alloc B bytes p = some (true, { p with buffer := b }) := by
  rw [Parser.alloc, h]

section Parts

variable {M : List UInt8 → A → A' → Prop}

theorem parseMore_spec {closing : UInt8} (hclosing : closing ≠ 0) {a : A} {a' : A'}
    {next : ParserM β (Option A)} {g : Text.Reader β A'} (h : Holds p text behind)
    (hn : text.length < n) (ha : ∀ k, p.kept <+: k → M k a a')
    (hnext : ∀ p' rest, After p p' text rest behind → p'.writePtr < p'.readPtr →
      rest.length < text.length → Ends next p' (Outcome M p' rest behind (g rest p'.buffer))) :
    Ends (Parser.parseMore n closing a next) p
      (Outcome M p text behind (Text.parseMore closing a' g text p.buffer)) := by
  rw [Text.parseMore]
  cases hclose : Text.skip closing text with
  | some rest =>
    obtain ⟨p', hrun, hafter, hb, -⟩ := h.skip_some hn hclose
    exact .bind_eq hrun (.pure (hafter.found hb (ha _ hafter.kept)))
  | none =>
    refine .bind_eq (h.skip_none hn hclosing hclose) ?_
    cases hcomma : Text.skip comma text with
    | none => exact .bind_eq (h.skip_none hn (by decide) hcomma) (.pure h.after.fails)
    | some rest =>
      obtain ⟨p', hrun, hafter, hb, hlt, hless⟩ := h.skip_some hn hcomma
      refine .bind_eq hrun ?_
      have hrest := hnext p' rest hafter hlt hless
      rw [hb] at hrest
      exact hrest.mono fun _ _ ↦ hafter.outcome

/-- An array or object is found when its values are, and fails when it could not be created. -/
theorem parseEnclosed_spec {M : List UInt8 → List A → List A' → Prop} {opening closing : UInt8}
    (hopening : opening ≠ 0) (hclosing : closing ≠ 0) (hnil : ∀ k, M k [] [])
    {loop : Bool → ParserM β (Option (List A))} {g : Text.Reader β (List A')}
    (h : Holds p text behind) (hn : text.length < n)
    (hloop : ∀ p rest, Holds p rest behind → p.writePtr < p.readPtr → rest.length < text.length →
      Ends (loop true) p (Outcome M p rest behind (g rest p.buffer)) ∧
        Ends (loop false) p (Outcome M p rest behind none)) :
    Ends (Parser.parseEnclosed B n bytes opening closing loop) p
      (Outcome M p text behind (Text.parseEnclosed B bytes opening closing g text p.buffer)) := by
  simp only [Text.parseEnclosed, Option.bind_eq_bind]
  cases halloc : B.alloc bytes p.buffer with
  | none =>
    refine .bind_eq (alloc_none halloc) ?_
    cases hopen : Text.skip opening text with
    | none => exact .bind_eq (h.skip_none hn hopening hopen) (.pure h.after.fails)
    | some rest =>
      obtain ⟨p₁, hrun, hafter, -, hlt, hless⟩ := h.skip_some hn hopen
      refine .bind_eq hrun ?_
      cases hclose : Text.skip closing rest with
      | some rest' =>
        obtain ⟨p₂, hrun₂, hafter₂, -⟩ := hafter.holds.skip_some (hless.trans hn) hclose
        exact .bind_eq hrun₂ (.pure (hafter.trans hafter₂).fails)
      | none =>
        refine .bind_eq (hafter.holds.skip_none (hless.trans hn) hclosing hclose) ?_
        exact (hloop p₁ rest hafter.holds hlt hless).2.mono fun _ _ ↦ hafter.outcome
  | some b =>
    refine .bind_eq (alloc_some halloc) ?_
    have hbuffer := h.withBuffer b
    rw [Option.bind_some]
    cases hopen : Text.skip opening text with
    | none => exact .bind_eq (hbuffer.holds.skip_none hn hopening hopen) (.pure hbuffer.fails)
    | some rest =>
      obtain ⟨p₁, hrun, hafter₁, hb, hlt, hless⟩ := hbuffer.holds.skip_some hn hopen
      refine .bind_eq hrun ?_
      have hafter := hbuffer.trans hafter₁
      rw [Option.bind_some]
      cases hclose : Text.skip closing rest with
      | some rest' =>
        obtain ⟨p₂, hrun₂, hafter₂, hb₂, -⟩ := hafter.holds.skip_some (hless.trans hn) hclose
        exact .bind_eq hrun₂ (.pure ((hafter.trans hafter₂).found (hb₂.trans hb) (hnil p₂.kept)))
      | none =>
        refine .bind_eq (hafter.holds.skip_none (hless.trans hn) hclosing hclose) ?_
        have hrest := (hloop p₁ rest hafter.holds hlt hless).1
        rw [hb] at hrest
        exact hrest.mono fun _ _ ↦ hafter.outcome

end Parts

section Values

variable {x : ParserM β (Option (JsonVariant ℕ))} {f : Text.Reader β (JsonVariant (List UInt8))}
  {l m : ℕ}

/-- An invalid array fails at its first value. -/
theorem arrayLoop_invalid (hx : Finds behind l Means x f) {nodes : List (JsonVariant ℕ)}
    (h : Holds p text behind) (hlt : p.writePtr < p.readPtr) (hl : text.length < l)
    (hm : text.length < m) :
    Ends (Parser.arrayLoop B n x false m nodes) p (Outcome MeansArray p text behind none) := by
  obtain ⟨m, rfl⟩ := Nat.exists_eq_add_of_le' (Nat.one_le_of_lt hm)
  refine (hx p text h hlt hl).bind fun r p₁ ⟨rest, hafter, _⟩ ↦ ?_
  cases r with
  | none => exact .pure hafter.fails
  | some v => exact .bind_eq (rfl : _ = some (_, p₁)) (.pure hafter.fails)

theorem arrayLoop_spec (hx : Finds behind l Means x f) {k : ℕ} {nodes : List (JsonVariant ℕ)}
    {nodes' : List (JsonVariant (List UInt8))} (h : Holds p text behind)
    (hlt : p.writePtr < p.readPtr) (hl : text.length < l) (hn : l ≤ n) (hm : text.length < m)
    (hk : text.length < k) (hnodes : MeansArray p.kept nodes nodes') :
    Ends (Parser.arrayLoop B n x true m nodes) p
      (Outcome MeansArray p text behind (Text.arrayLoop B f k nodes' text p.buffer)) := by
  induction m generalizing p text nodes nodes' k with
  | zero => exact absurd hm (Nat.not_lt_zero _)
  | succ m ih =>
    obtain ⟨k, rfl⟩ := Nat.exists_eq_add_of_le' (Nat.one_le_of_lt hk)
    simp only [Text.arrayLoop, Option.bind_eq_bind]
    refine (hx p text h hlt hl).bind fun r p₁ ⟨rest, hafter, hagrees⟩ ↦ ?_
    cases hf : f text p.buffer with
    | none =>
      rw [Option.bind_none]
      obtain rfl : r = none := by rwa [hf] at hagrees
      exact .pure hafter.fails
    | some result =>
      obtain ⟨v', rest', b⟩ := result
      rw [hf] at hagrees
      obtain ⟨rfl, rfl, v, rfl, hv⟩ := hagrees
      have hshort := hafter.shorter
      rw [Option.bind_some]
      dsimp only
      cases halloc : B.alloc B.sizes.arrayNode p₁.buffer with
      | none => exact .bind_eq (alloc_none halloc) (.pure hafter.fails)
      | some b =>
        refine .bind_eq (alloc_some halloc) ?_
        rw [Option.bind_some]
        have hafter₂ := hafter.trans (hafter.holds.withBuffer b)
        have hboth : MeansArray p₁.kept (nodes ++ [v]) (nodes' ++ [v']) :=
          List.rel_append (hnodes.imp fun _ _ h ↦ h.mono hafter.kept) (.cons hv .nil)
        refine (parseMore_spec (by decide) hafter₂.holds (hshort.trans_lt (hl.trans_le hn))
          (fun _ hkept ↦ hboth.imp fun _ _ h ↦ h.mono hkept) ?_).mono fun _ _ ↦ hafter₂.outcome
        intro p₃ rest' hafter₃ hlt₃ hless
        exact ih hafter₃.holds hlt₃ (by omega) (by omega) (by omega)
          (hboth.imp fun _ _ h ↦ h.mono hafter₃.kept)

theorem parseArray_spec (hx : Finds behind l Means x f) (h : Holds p text behind)
    (hl : text.length < l) (hn : l ≤ n) (hm : text.length < m) :
    Ends (Parser.parseArray B n x) p
      (Outcome MeansArray p text behind (Text.parseArray B m f text p.buffer)) :=
  parseEnclosed_spec (by decide) (by decide) (fun _ ↦ .nil) h (hl.trans_le hn) fun _ _ h hlt hless ↦
    ⟨arrayLoop_spec hx h hlt (hless.trans hl) hn (hless.trans (hl.trans_le hn)) (hless.trans hm)
        .nil,
      arrayLoop_invalid hx h hlt (hless.trans hl) (hless.trans (hl.trans_le hn))⟩

/-! ## Objects -/

/-- Two strings with their ends in memory compare as strings. -/
theorem strcmp_eq_decide {a b : List UInt8} (ha : 0 ∈ a) (hb : 0 ∈ b) :
    Bytes.strcmp a b = decide (a.takeWhile (· ≠ 0) = b.takeWhile (· ≠ 0)) := by
  induction a generalizing b with
  | nil => exact absurd ha List.not_mem_nil
  | cons c a ih =>
    obtain ⟨d, b, rfl⟩ := List.exists_cons_of_ne_nil (List.ne_nil_of_mem hb)
    rw [Bytes.strcmp]
    rcases eq_or_ne c d with rfl | hne
    · rcases eq_or_ne c 0 with rfl | hc
      · simp
      · rw [List.mem_cons] at ha hb
        rw [ih (ha.resolve_left hc.symm) (hb.resolve_left hc.symm)]
        simp [hc]
    · rw [decide_eq_false hne, Bool.false_and, eq_comm, decide_eq_false_iff_not]
      rcases eq_or_ne c 0 with rfl | hc
      · simp [hne.symm]
      · rcases eq_or_ne d 0 with rfl | hd
        · simp [hc]
        · simp [hc, hd, hne]

theorem findIdx?_of_forall₂ {R : A → A' → Prop} {q : A → Bool} {q' : A' → Bool}
    {xs : List A} {ys : List A'} (h : List.Forall₂ R xs ys) (hq : ∀ x y, R x y → q x = q' y) :
    xs.findIdx? q = ys.findIdx? q' := by
  induction h with
  | nil => rfl
  | cons hxy _ ih => rw [List.findIdx?_cons, List.findIdx?_cons, hq _ _ hxy, ih]

theorem forall₂_modify {R : A → A' → Prop} {g : A → A} {g' : A' → A'} {xs : List A} {ys : List A'}
    (h : List.Forall₂ R xs ys) (hg : ∀ x y, R x y → R (g x) (g' y)) (i : ℕ) :
    List.Forall₂ R (xs.modify i g) (ys.modify i g') := by
  induction h generalizing i with
  | nil => rw [List.modify_nil, List.modify_nil]; exact .nil
  | cons hxy hrest ih =>
    cases i with
    | zero => exact .cons (hg _ _ hxy) hrest
    | succ i => exact .cons hxy (ih i)

variable {nodes : List (ℕ × JsonVariant ℕ)} {nodes' : List (List UInt8 × JsonVariant (List UInt8))}
  {key : ℕ}

theorem kept_le_mem (p : Parser β) : p.kept <+: p.mem := List.take_prefix _ _

theorem getNodeAt_eq (hnodes : MeansObject p.kept nodes nodes') (hkey : 0 ∈ p.kept.drop key) :
    Parser.getNodeAt p.mem nodes key = nodes'.findIdx? fun m ↦ m.1 = stringAt p.kept key := by
  refine findIdx?_of_forall₂ hnodes fun m m' ⟨hend, hname, _⟩ ↦ ?_
  have hstring {s : ℕ} (hs : 0 ∈ p.kept.drop s) :
      (p.mem.drop s).takeWhile (· ≠ 0) = stringAt p.kept s :=
    stringAt_kept hs (kept_le_mem p)
  rw [strcmp_eq_decide (zero_mem_drop hend (kept_le_mem p)) (zero_mem_drop hkey (kept_le_mem p)),
    hstring hend, hstring hkey, hname]

/-- `set` of an object does what the text asks for, without a change in the memory. -/
theorem set_spec (hnodes : MeansObject p.kept nodes nodes') (hkey : 0 ∈ p.kept.drop key)
    (hv : Means p.kept v v') :
    Ends (Parser.set B true nodes key v) p fun r p' ↦ ∃ b, p' = { p with buffer := b } ∧
      ((Text.set B nodes' (stringAt p.kept key) v' p.buffer = none ∧ r = none) ∨
        ∃ new new', Text.set B nodes' (stringAt p.kept key) v' p.buffer = some (new', b) ∧
          r = some new ∧ MeansObject p.kept new new') := by
  refine .bind_eq (rfl : _ = some (_, p)) ?_
  have hfind := getNodeAt_eq hnodes hkey
  rw [Text.set]
  cases hi : nodes'.findIdx? fun m ↦ m.1 = stringAt p.kept key with
  | some i =>
    rw [hi] at hfind
    rw [hfind]
    refine .pure ⟨p.buffer, rfl, .inr ⟨_, _, rfl, rfl, ?_⟩⟩
    refine forall₂_modify hnodes (fun m m' h ↦ ?_) i
    exact ⟨h.1, h.2.1, hv⟩
  | none =>
    rw [hi] at hfind
    rw [hfind]
    dsimp only
    cases halloc : B.alloc B.sizes.objectNode p.buffer with
    | none => exact .bind_eq (alloc_none halloc) (.pure ⟨p.buffer, rfl, .inl ⟨rfl, rfl⟩⟩)
    | some b =>
      refine .bind_eq (alloc_some halloc) (.pure ⟨b, rfl, .inr ⟨_, _, rfl, rfl, ?_⟩⟩)
      exact List.rel_append hnodes (.cons ⟨hkey, rfl, hv⟩ .nil)

/-- An invalid object fails when its first value is set. -/
theorem objectLoop_invalid (hx : Finds behind l Means x f) (h : Holds p text behind)
    (hlt : p.writePtr < p.readPtr) (hl : text.length < l) (hn : l ≤ n) (hm : text.length < m) :
    Ends (Parser.objectLoop B n x false m []) p (Outcome MeansObject p text behind none) := by
  obtain ⟨m, rfl⟩ := Nat.exists_eq_add_of_le' (Nat.one_le_of_lt hm)
  refine (h.parseString hlt (hl.trans_le hn)).bind fun key p₁ ⟨hafter, _⟩ ↦ ?_
  have hshort := hafter.shorter.trans_lt (hl.trans_le hn)
  cases hcolon : Text.skip colon (Text.parseString text).2 with
  | none => exact .bind_eq (hafter.holds.skip_none hshort (by decide) hcolon) (.pure hafter.fails)
  | some rest =>
    obtain ⟨p₂, hrun, hafter₂, -, hlt₂, hless⟩ := hafter.holds.skip_some hshort hcolon
    refine .bind_eq hrun ?_
    have hshort₁ := hafter.shorter
    have hafter := hafter.trans hafter₂
    refine (hx p₂ rest hafter.holds hlt₂ (hless.trans (hshort₁.trans_lt hl))).bind
      fun r p₃ ⟨_, hafter₃, _⟩ ↦ ?_
    cases r with
    | none => exact .pure (hafter.trans hafter₃).fails
    | some v => exact .bind_eq (rfl : _ = some (_, p₃)) (.pure (hafter.trans hafter₃).fails)

theorem objectLoop_spec (hx : Finds behind l Means x f) {k : ℕ} (h : Holds p text behind)
    (hlt : p.writePtr < p.readPtr) (hl : text.length < l) (hn : l ≤ n) (hm : text.length < m)
    (hk : text.length < k) (hnodes : MeansObject p.kept nodes nodes') :
    Ends (Parser.objectLoop B n x true m nodes) p
      (Outcome MeansObject p text behind (Text.objectLoop B f k nodes' text p.buffer)) := by
  induction m generalizing p text nodes nodes' k with
  | zero => exact absurd hm (Nat.not_lt_zero _)
  | succ m ih =>
    obtain ⟨k, rfl⟩ := Nat.exists_eq_add_of_le' (Nat.one_le_of_lt hk)
    simp only [Text.objectLoop, Option.bind_eq_bind]
    refine (h.parseString hlt (hl.trans_le hn)).bind fun key p₁ ⟨hafter, hb, hend, hkey⟩ ↦ ?_
    have hshort := hafter.shorter.trans_lt (hl.trans_le hn)
    cases hcolon : Text.skip colon (Text.parseString text).2 with
    | none =>
      exact .bind_eq (hafter.holds.skip_none hshort (by decide) hcolon) (.pure hafter.fails)
    | some rest =>
      obtain ⟨p₂, hrun, hafter₂, hb₂, hlt₂, hless⟩ := hafter.holds.skip_some hshort hcolon
      refine .bind_eq hrun ?_
      rw [Option.bind_some, ← hb, ← hb₂, ← hkey]
      have hkept := hafter₂.kept
      have hshort₁ := hafter.shorter
      have hafter := hafter.trans hafter₂
      refine (hx p₂ rest hafter.holds hlt₂ (hless.trans (hshort₁.trans_lt hl))).bind
        fun r p₃ ⟨rest₃, hafter₃, hagrees⟩ ↦ ?_
      cases hf : f rest p₂.buffer with
      | none =>
        rw [Option.bind_none]
        obtain rfl : r = none := by rwa [hf] at hagrees
        exact .pure (hafter.trans hafter₃).fails
      | some result =>
        obtain ⟨v', rest', b⟩ := result
        rw [hf] at hagrees
        obtain ⟨rfl, rfl, v, rfl, hv⟩ := hagrees
        have hkept := hkept.trans hafter₃.kept
        have hshort₃ := hafter₃.shorter
        have hafter := hafter.trans hafter₃
        rw [Option.bind_some, ← stringAt_kept hend hkept]
        refine (set_spec (hnodes.imp fun _ _ h ↦ h.mono hafter.kept) (zero_mem_drop hend hkept)
          hv).bind fun r p₄ ⟨b, hp, hset⟩ ↦ ?_
        subst hp
        have hafter := hafter.trans (hafter.holds.withBuffer b)
        rcases hset with ⟨hset, rfl⟩ | ⟨new, new', hset, rfl, hnew⟩
        · dsimp only
          rw [hset, Option.bind_none]
          exact .pure hafter.fails
        · dsimp only
          rw [hset, Option.bind_some]
          refine (parseMore_spec (by decide) hafter.holds (hafter.shorter.trans_lt (hl.trans_le hn))
            (fun _ hkept ↦ hnew.imp fun _ _ h ↦ h.mono hkept) ?_).mono fun _ _ ↦ hafter.outcome
          intro p₅ rest' hafter₅ hlt₅ hless₅
          exact ih hafter₅.holds hlt₅ (by omega) (by omega) (by omega)
            (hnew.imp fun _ _ h ↦ h.mono hafter₅.kept)

theorem parseObject_spec (hx : Finds behind l Means x f) (h : Holds p text behind)
    (hl : text.length < l) (hn : l ≤ n) (hm : text.length < m) :
    Ends (Parser.parseObject B n x) p
      (Outcome MeansObject p text behind (Text.parseObject B m f text p.buffer)) :=
  parseEnclosed_spec (by decide) (by decide) (fun _ ↦ .nil) h (hl.trans_le hn) fun _ _ h hlt hless ↦
    ⟨objectLoop_spec hx h hlt (hless.trans hl) hn (hless.trans (hl.trans_le hn)) (hless.trans hm)
        .nil,
      objectLoop_invalid hx h hlt (hless.trans hl) hn (hless.trans (hl.trans_le hn))⟩

/-- **The parser finds what the text means**, as far as the text goes. -/
theorem parseAnything_finds (hn : l ≤ n) (hm : l ≤ m) (nestingLimit : ℕ) :
    Finds behind l Means (Parser.parseAnything B n nestingLimit)
      (Text.parseAnything B m nestingLimit) := by
  induction nestingLimit with
  | zero => exact fun p text h _ _ ↦ .pure h.after.fails
  | succ nestingLimit ih =>
    intro p text h hlt hl
    simp only [Text.parseAnything]
    refine (h.skipSpaces (hl.trans_le hn)).bind fun _ p₁ ⟨hafter, hb, hlt₁⟩ ↦ ?_
    have hshort := hafter.shorter.trans_lt hl
    refine .bind_eq hafter.holds.peek ?_
    rw [← hb]
    generalize Text.skipSpacesAndComments text = rest at hafter hshort
    simp only [headD_eq_iff (c := lbracket) (by decide), headD_eq_iff (c := lbrace) (by decide)]
    split_ifs with harray hobject
    · exact (parseArray_spec ih hafter.holds hshort hn (hshort.trans_le hm)).bind fun _ _ ho ↦
        .pure (hafter.outcome (ho.map fun _ _ _ ↦ means_array.mpr))
    · exact (parseObject_spec ih hafter.holds hshort hn (hshort.trans_le hm)).bind fun _ _ ho ↦
        .pure (hafter.outcome (ho.map fun _ _ _ ↦ means_object.mpr))
    · refine (hafter.holds.parseStringTo (hlt₁ hlt) (hshort.trans_le hn)).bind
        fun v p₂ ⟨hafter₂, hb₂, hv⟩ ↦ .pure ?_
      exact (hafter.trans hafter₂).found hb₂ hv

end Values

/-! ## Memories with a text -/

/-- The parser returned the value of the text and wrote only over the text. -/
structure Reading (text behind : List UInt8) (v : Option (JsonVariant ℕ)) (p : Parser β)
    (result : Option (JsonVariant (List UInt8) × List UInt8 × β)) : Prop where
  value : v.map (JsonVariant.map (stringAt p.mem)) = result.map Prod.fst
  strings : ∀ w ∈ v, ∀ s ∈ w.strings, 0 ∈ (p.mem.take text.length).drop s
  buffer : ∀ x ∈ result, p.buffer = x.2.2
  behind : p.mem.drop text.length = 0 :: behind

/-- The state that the parser starts in. -/
abbrev start (text behind : List UInt8) (b : β) : Parser β := ⟨text ++ 0 :: behind, 0, 0, b⟩

theorem start_holds (hnonzero : 0 ∉ text) : Holds (start text behind b) text behind :=
  ⟨rfl, le_rfl, hnonzero⟩

theorem Outcome.reading {result : Option (JsonVariant (List UInt8) × List UInt8 × β)}
    {r : Option (JsonVariant ℕ)} (h : Outcome Means (start text behind b) text behind result r p) :
    Reading text behind r p result := by
  obtain ⟨rest, ⟨hholds, hlength, -, -⟩, hagrees⟩ := h
  change p.mem.length = (text ++ 0 :: behind).length at hlength
  rw [List.length_append] at hlength
  have hsuffix := List.suffix_iff_eq_drop.mp hholds.reads.suffix
  rw [hlength, Nat.add_sub_cancel] at hsuffix
  cases result with
  | none =>
    obtain rfl : r = none := hagrees
    exact ⟨rfl, by simp, by simp, hsuffix.symm⟩
  | some result =>
    obtain ⟨rfl, hb, v, rfl, hv⟩ := hagrees
    have hle : p.writePtr ≤ text.length := by
      have hread := congrArg List.length hholds.reads
      have := hholds.le
      rw [List.length_drop, List.length_append, hlength] at hread
      rw [List.length_cons] at hread
      omega
    have hkept := hv.mono (List.take_prefix_take_left hle)
    refine ⟨congrArg some (hkept.mono (List.take_prefix _ _)).eq, ?_, ?_, hsuffix.symm⟩
    · exact fun w hw ↦ Option.some.inj hw ▸ hkept.ends
    · exact fun x hx ↦ Option.some.inj hx ▸ hb

/-- **Parsing in place.** On every text with a zero behind it the parser stays inside of the text,
changes nothing behind it, and returns what the text means; its strings lie in the text's memory. -/
theorem parse_in_place (B : JsonBuffer β) (b : β) (behind : List UInt8) (nestingLimit : ℕ)
    (hnonzero : 0 ∉ text) :
    (∃ r p, parseArray B b (text ++ 0 :: behind) nestingLimit = some (r, p) ∧
      Reading text behind (r.map .array) p
        ((Text.readArray B b text nestingLimit).map (.map .array id))) ∧
    ∃ r p, parseObject B b (text ++ 0 :: behind) nestingLimit = some (r, p) ∧
      Reading text behind (r.map .object) p
        ((Text.readObject B b text nestingLimit).map (.map .object id)) := by
  have hn : text.length + 1 ≤ (text ++ 0 :: behind).length + 1 := by simp
  have hx : Finds behind (text.length + 1) Means _ _ :=
    parseAnything_finds (B := B) hn le_rfl nestingLimit
  constructor
  · obtain ⟨r, p, hrun, ho⟩ := parseArray_spec (B := B) hx (start_holds hnonzero)
      (Nat.lt_succ_self _) hn (Nat.lt_succ_self _)
    exact ⟨r, p, hrun, (ho.map fun _ _ _ ↦ means_array.mpr).reading⟩
  · obtain ⟨r, p, hrun, ho⟩ := parseObject_spec (B := B) hx (start_holds hnonzero)
      (Nat.lt_succ_self _) hn (Nat.lt_succ_self _)
    exact ⟨r, p, hrun, (ho.map fun _ _ _ ↦ means_object.mpr).reading⟩

theorem parse_in_place_one :
    (∃ r p, parseArray (staticJsonBuffer 64 ⟨8, 12, 8, 16⟩) 0 ([lbracket, 0x31, rbracket] ++ [0, 7])
        10 = some (r, p) ∧
      Reading [lbracket, 0x31, rbracket] [7] (r.map .array) p
        ((Text.readArray (staticJsonBuffer 64 ⟨8, 12, 8, 16⟩) 0 [lbracket, 0x31, rbracket]
          10).map (.map .array id))) ∧
    ∃ r p, parseObject (staticJsonBuffer 64 ⟨8, 12, 8, 16⟩) 0 ([lbracket, 0x31, rbracket] ++ [0, 7])
        10 = some (r, p) ∧
      Reading [lbracket, 0x31, rbracket] [7] (r.map .object) p
        ((Text.readObject (staticJsonBuffer 64 ⟨8, 12, 8, 16⟩) 0 [lbracket, 0x31, rbracket]
          10).map (.map .object id)) :=
  parse_in_place _ 0 [7] 10 (by decide)

end DuoFirmware.Json
