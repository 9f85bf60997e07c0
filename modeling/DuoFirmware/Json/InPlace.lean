import DuoFirmware.Json.Text
import DuoFirmware.Lib.StateProgram

/-!
# Parsing in place

The parser writes over the text that it reads, and still it finds what the text means: it never
writes at the character that it reads next or behind it.
-/

namespace DuoFirmware.Json

open StateProgram

variable {α β : Type} {mem text behind rest : List UInt8} {n ptr w : ℕ} {c : UInt8}

/-! ## The text that is left -/

/-- The text is at `ptr`, with a zero and other data behind it. -/
def At (mem : List UInt8) (ptr : ℕ) (text behind : List UInt8) : Prop :=
  mem.drop ptr = text ++ 0 :: behind

namespace At

/-- The character at `ptr`; it is zero at the end. -/
theorem get (h : At mem ptr text behind) : mem[ptr]? = some (text.headD 0) := by
  have hget : (mem.drop ptr)[0]? = mem[ptr + 0]? := List.getElem?_drop
  rw [h] at hget
  rw [← Nat.add_zero ptr, ← hget]
  cases text <;> rfl

theorem append (h : At mem ptr (text ++ rest) behind) : At mem (ptr + text.length) rest behind := by
  rw [At, ← List.drop_drop, h, List.append_assoc, List.drop_left]

theorem next (h : At mem ptr (c :: text) behind) : At mem (ptr + 1) text behind :=
  have hone : At mem ptr ([c] ++ text) behind := h
  hone.append

theorem lt_length (h : At mem ptr text behind) : ptr < mem.length := by
  by_contra hle
  have hnil := List.drop_eq_nil_of_le (Nat.le_of_not_lt hle)
  rw [h] at hnil
  exact absurd hnil (by simp)

/-- What lies behind is where it was as long as the memory has the same length. -/
theorem suffix (h : At mem ptr text behind) : 0 :: behind <:+ mem :=
  (List.suffix_append text _).trans (h ▸ List.drop_suffix ptr mem)

/-- A character written in front of the text leaves it alone. -/
theorem set (h : At mem ptr text behind) (hw : w < ptr) : At (mem.set w c) ptr text behind := by
  rw [At, List.drop_set_of_lt hw, h]

end At

theorem store_eq (h : w < mem.length) : store mem w c = some (mem.set w c) := if_pos h

theorem take_set_succ (h : w < mem.length) : (mem.set w c).take (w + 1) = mem.take w ++ [c] := by
  rw [List.take_succ_eq_append_getElem (by rwa [List.length_set]), List.getElem_set_self,
    List.take_set_of_le le_rfl]

/-! ## Comments -/

theorem headD_eq_iff (hc : c ≠ 0) : text.headD 0 = c ↔ text.head? = some c := by
  cases text with
  | nil => exact ⟨fun h ↦ absurd h.symm hc, fun h ↦ absurd h (by simp)⟩
  | cons d text => simp

theorem ne_nil_of_head? (h : text.head? = some c) : text ≠ [] := by
  rintro rfl
  cases h

/-- What is skipped ends at a text that means the same. -/
theorem skipCStyleComment_spec (hnonzero : 0 ∉ text) (h : At mem ptr text behind)
    (hn : text.length < n) : ∃ gone rest, text = gone ++ rest ∧
      skipCStyleComment mem n ptr = some (ptr + gone.length) ∧
      Text.skipCStyleComment text = Text.skipSpacesAndComments rest := by
  induction text generalizing ptr n with
  | nil =>
    obtain ⟨n, rfl⟩ := Nat.exists_eq_add_of_le' (Nat.one_le_of_lt hn)
    exact ⟨[], [], rfl, by simp [skipCStyleComment, h.get], rfl⟩
  | cons c text ih =>
    obtain ⟨n, rfl⟩ := Nat.exists_eq_add_of_le' (Nat.one_le_of_lt hn)
    rw [List.mem_cons, not_or] at hnonzero
    obtain ⟨hc, hnonzero⟩ := hnonzero
    have hstep : skipCStyleComment mem (n + 1) ptr =
        if c = star ∧ text.head? = some slash then some (ptr + 2)
        else skipCStyleComment mem n (ptr + 1) := by
      simp only [skipCStyleComment, h.get, h.next.get, Option.bind_eq_bind, Option.bind_some,
        List.headD_cons, if_neg (Ne.symm hc), headD_eq_iff (c := slash) (by decide)]
      split_ifs <;> simp_all
    rw [hstep, Text.skipCStyleComment_cons]
    split_ifs with hend
    · obtain ⟨d, rest, rfl⟩ := List.exists_cons_of_ne_nil (ne_nil_of_head? hend.2)
      exact ⟨[c, d], rest, rfl, rfl, rfl⟩
    · obtain ⟨gone, rest, htext, hrun, hrest⟩ := ih hnonzero h.next (Nat.lt_of_succ_lt_succ hn)
      refine ⟨c :: gone, rest, by rw [htext, List.cons_append], ?_, hrest⟩
      rw [hrun, List.length_cons, Nat.add_right_comm, Nat.add_assoc]

theorem skipCppStyleComment_spec (hnonzero : 0 ∉ text) (h : At mem ptr text behind)
    (hn : text.length < n) : ∃ gone rest, text = gone ++ rest ∧
      skipCppStyleComment mem n ptr = some (ptr + gone.length) ∧
      Text.skipCppStyleComment text = Text.skipSpacesAndComments rest := by
  induction text generalizing ptr n with
  | nil =>
    obtain ⟨n, rfl⟩ := Nat.exists_eq_add_of_le' (Nat.one_le_of_lt hn)
    exact ⟨[], [], rfl, by simp [skipCppStyleComment, h.get], rfl⟩
  | cons c text ih =>
    obtain ⟨n, rfl⟩ := Nat.exists_eq_add_of_le' (Nat.one_le_of_lt hn)
    rw [List.mem_cons, not_or] at hnonzero
    obtain ⟨hc, hnonzero⟩ := hnonzero
    have hstep : skipCppStyleComment mem (n + 1) ptr =
        if c = lf then some ptr else skipCppStyleComment mem n (ptr + 1) := by
      simp only [skipCppStyleComment, h.get, Option.bind_eq_bind, Option.bind_some,
        List.headD_cons, Ne.symm hc, false_or]
    rw [hstep, Text.skipCppStyleComment]
    split_ifs with hend
    · exact ⟨[], c :: text, rfl, rfl, by
        rw [Text.skipSpacesAndComments_cons, if_pos (by rw [hend]; decide)]⟩
    · obtain ⟨gone, rest, htext, hrun, hrest⟩ := ih hnonzero h.next (Nat.lt_of_succ_lt_succ hn)
      refine ⟨c :: gone, rest, by rw [htext, List.cons_append], ?_, hrest⟩
      rw [hrun, List.length_cons, Nat.add_right_comm, Nat.add_assoc]

theorem skipSpacesAndComments_spec (hnonzero : 0 ∉ text) (h : At mem ptr text behind)
    (hn : text.length < n) : ∃ gone, text = gone ++ Text.skipSpacesAndComments text ∧
      skipSpacesAndComments mem n ptr = some (ptr + gone.length) := by
  induction n generalizing text ptr with
  | zero => exact absurd hn (Nat.not_lt_zero _)
  | succ n ih =>
    cases text with
    | nil =>
      refine ⟨[], rfl, ?_⟩
      rw [skipSpacesAndComments, h.get]
      rfl
    | cons c text =>
      have hlen := Nat.lt_of_succ_lt_succ hn
      rw [List.mem_cons, not_or] at hnonzero
      obtain ⟨hc, hnonzero⟩ := hnonzero
      -- skipping goes on where a space or a comment ended
      have hrest {gone rest : List UInt8} (htext : c :: text = gone ++ rest)
          (hgone : 0 < gone.length) : ∃ gone',
            c :: text = gone' ++ Text.skipSpacesAndComments rest ∧
              skipSpacesAndComments mem n (ptr + gone.length) = some (ptr + gone'.length) := by
        have hall := congrArg List.length htext
        rw [List.length_append, List.length_cons] at hall
        obtain ⟨gone', hrest, hrun⟩ := @ih rest (ptr + gone.length)
          (fun hz ↦ (List.mem_cons.mp (htext ▸ List.mem_append_right gone hz)).elim hc hnonzero)
          (htext ▸ h).append (by omega)
        refine ⟨gone ++ gone', ?_, ?_⟩
        · rw [List.append_assoc, ← hrest, htext]
        · rw [hrun, List.length_append, Nat.add_assoc]
      have hcomment {d : UInt8} {text' : List UInt8} {x : Option ℕ} {t : List UInt8}
          (htext : text = d :: text') (hx : ∃ gone rest, text' = gone ++ rest ∧
            x = some (ptr + 2 + gone.length) ∧ t = Text.skipSpacesAndComments rest) :
          ∃ gone, c :: text = gone ++ t ∧
            x.bind (skipSpacesAndComments mem n) = some (ptr + gone.length) := by
        obtain ⟨gone, rest, rfl, rfl, rfl⟩ := hx
        have hboth := @hrest (c :: d :: gone) rest (by rw [htext]; rfl)
          (Nat.succ_pos _)
        rw [List.length_cons, List.length_cons] at hboth
        rwa [Option.bind_some, Nat.add_assoc ptr 2, Nat.add_comm 2]
      have hstep : skipSpacesAndComments mem (n + 1) ptr =
          if isSpace c then skipSpacesAndComments mem n (ptr + 1)
          else if c = slash ∧ text.head? = some star then
            (skipCStyleComment mem n (ptr + 2)).bind (skipSpacesAndComments mem n)
          else if c = slash ∧ text.head? = some slash then
            (skipCppStyleComment mem n (ptr + 2)).bind (skipSpacesAndComments mem n)
          else some ptr := by
        simp only [skipSpacesAndComments, h.get, h.next.get, Option.bind_eq_bind, Option.bind_some,
          List.headD_cons, headD_eq_iff (c := slash) (by decide),
          headD_eq_iff (c := star) (by decide)]
        split_ifs <;> simp_all
      rw [hstep, Text.skipSpacesAndComments_cons]
      split_ifs with hspace hopen hopen'
      · exact @hrest [c] text rfl Nat.one_pos
      · obtain ⟨d, text, rfl⟩ := List.exists_cons_of_ne_nil (ne_nil_of_head? hopen.2)
        exact hcomment rfl (skipCStyleComment_spec (List.not_mem_of_not_mem_cons hnonzero)
          h.next.next (Nat.lt_of_succ_lt hlen))
      · obtain ⟨d, text, rfl⟩ := List.exists_cons_of_ne_nil (ne_nil_of_head? hopen'.2)
        exact hcomment rfl (skipCppStyleComment_spec (List.not_mem_of_not_mem_cons hnonzero)
          h.next.next (Nat.lt_of_succ_lt hlen))
      · exact ⟨[], rfl, rfl⟩

/-! ## Strings -/

theorem unescapeChar_ne_zero (hc : 0 ≠ c) : unescapeChar c ≠ 0 := by
  have hsteps : unescapeChar c =
      if (0x62 : UInt8) = c then 0x08 else if (0x66 : UInt8) = c then 0x0c
      else if (0x6e : UInt8) = c then lf else if (0x72 : UInt8) = c then cr
      else if (0x74 : UInt8) = c then tab else c := rfl
  rw [hsteps]
  split_ifs
  all_goals first | decide | exact hc.symm

namespace Text

theorem length_quoted (stopChar : UInt8) (text : List UInt8) :
    (quoted stopChar text).2.length ≤ text.length := by
  induction h : text.length using Nat.strong_induction_on generalizing text with
  | _ k ih =>
    cases text with
    | nil => exact Nat.zero_le _
    | cons c text =>
      rw [List.length_cons] at h
      rw [quoted_cons]
      split_ifs with hstop hescape hend
      · exact h ▸ Nat.le_succ _
      · exact Nat.zero_le _
      · obtain ⟨d, text, rfl⟩ := List.exists_cons_of_ne_nil hend
        have := ih text.length (by rw [List.length_cons] at h; omega) text rfl
        simp only [Prod.map_snd, id, List.tail_cons, List.length_cons] at h ⊢
        omega
      · have := ih text.length (by omega) text rfl
        simp only [Prod.map_snd, id]
        omega

end Text

/-- The loop leaves the string behind what was kept, in front of the rest of the text. -/
structure Leaves (mem : List UInt8) (w : ℕ) (value rest behind : List UInt8)
    (r : List UInt8 × ℕ × ℕ) : Prop where
  length : r.1.length = mem.length
  reads : At r.1 r.2.1 rest behind
  lt : r.2.2 < r.2.1
  kept : r.1.take r.2.2 = mem.take w ++ value
  value_nonzero : 0 ∉ value
  nonzero : 0 ∉ rest

/-- One more character in front. -/
theorem Leaves.cons {value : List UInt8} {r : List UInt8 × ℕ × ℕ} (hw : w < mem.length)
    (hc : 0 ≠ c) (h : Leaves (mem.set w c) (w + 1) value rest behind r) :
    Leaves mem w (c :: value) rest behind r where
  length := h.length.trans List.length_set
  reads := h.reads
  lt := h.lt
  kept := by rw [h.kept, take_set_succ hw, List.append_assoc, List.singleton_append]
  value_nonzero := List.not_mem_cons_of_ne_of_not_mem hc h.value_nonzero
  nonzero := h.nonzero

theorem quotedLoop_spec {r : ℕ} (stopChar : UInt8) (hnonzero : 0 ∉ text)
    (h : At mem (r + 1) text behind) (hw : w ≤ r) (hn : text.length < n) :
    ∃ s, quotedLoop stopChar n mem r w = some s ∧
      Leaves mem w (Text.quoted stopChar text).1 (Text.quoted stopChar text).2 behind s := by
  induction n generalizing text mem r w with
  | zero => exact absurd hn (Nat.not_lt_zero _)
  | succ n ih =>
    have hlen : w < mem.length := hw.trans_lt (Nat.lt_of_succ_lt h.lt_length)
    cases text with
    | nil =>
      refine ⟨(mem, r + 1, w), ?_, rfl, h, Nat.lt_succ_of_le hw, (List.append_nil _).symm, hnonzero,
        hnonzero⟩
      rw [quotedLoop, h.get]
      rfl
    | cons c text =>
      rw [List.length_cons] at hn
      rw [List.mem_cons, not_or] at hnonzero
      obtain ⟨hc, hnonzero⟩ := hnonzero
      rw [quotedLoop, Text.quoted_cons]
      simp only [h.get, List.headD_cons, Option.bind_eq_bind, Option.bind_some, if_neg (Ne.symm hc),
        store_eq hlen]
      split_ifs with hstop hescape hend
      · exact ⟨_, rfl, rfl, h.next, Nat.lt_succ_of_lt (Nat.lt_succ_of_le hw),
          (List.append_nil _).symm, List.not_mem_nil, hnonzero⟩
      · subst hend
        refine ⟨(mem, r + 2, w), ?_, rfl, h.next, Nat.lt_succ_of_le (Nat.le_succ_of_le hw),
          (List.append_nil _).symm, hnonzero, hnonzero⟩
        rw [h.next.get]
        rfl
      · obtain ⟨d, text, rfl⟩ := List.exists_cons_of_ne_nil hend
        rw [List.length_cons] at hn
        rw [List.mem_cons, not_or] at hnonzero
        obtain ⟨hd, hnonzero⟩ := hnonzero
        obtain ⟨s, hrun, hs⟩ := ih hnonzero
          (h.next.next.set (c := unescapeChar d) (hw.trans_lt (by omega)))
          (Nat.succ_le_succ (Nat.le_succ_of_le hw)) (by omega)
        refine ⟨s, ?_, hs.cons hlen (unescapeChar_ne_zero hd).symm⟩
        rw [h.next.get, Option.bind_some, List.headD_cons, if_neg (unescapeChar_ne_zero hd)]
        exact hrun
      · obtain ⟨s, hrun, hs⟩ := ih hnonzero
          (h.next.set (c := c) (Nat.lt_succ_of_le (Nat.le_succ_of_le hw)))
          (Nat.succ_le_succ hw) (by omega)
        exact ⟨s, hrun, hs.cons hlen hc⟩

theorem bareLoop_spec (hnonzero : 0 ∉ text) (h : At mem ptr text behind) (hw : w < ptr)
    (hn : text.length < n) :
    ∃ s, bareLoop n mem ptr w = some s ∧
      Leaves mem w (text.takeWhile isLetterOrNumber) (text.dropWhile isLetterOrNumber) behind
        s := by
  induction text generalizing mem ptr w n with
  | nil =>
    obtain ⟨n, rfl⟩ := Nat.exists_eq_add_of_le' (Nat.one_le_of_lt hn)
    refine ⟨(mem, ptr, w), ?_, rfl, h, hw, (List.append_nil _).symm, hnonzero, hnonzero⟩
    rw [bareLoop, h.get]
    rfl
  | cons c text ih =>
    obtain ⟨n, rfl⟩ := Nat.exists_eq_add_of_le' (Nat.one_le_of_lt hn)
    have hlen := hw.trans h.lt_length
    rw [List.takeWhile_cons, List.dropWhile_cons]
    rw [bareLoop, h.get, List.headD_cons, Option.bind_eq_bind, Option.bind_some, store_eq hlen]
    cases hletter : isLetterOrNumber c with
    | false =>
      exact ⟨_, rfl, rfl, h, hw, (List.append_nil _).symm, List.not_mem_nil, hnonzero⟩
    | true =>
      rw [List.mem_cons, not_or] at hnonzero
      obtain ⟨s, hrun, hs⟩ := ih hnonzero.2 (h.next.set (c := c) (Nat.lt_succ_of_lt hw))
        (Nat.succ_lt_succ hw) (Nat.lt_of_succ_lt_succ hn)
      exact ⟨s, hrun, hs.cons hlen hnonzero.1⟩

end DuoFirmware.Json
