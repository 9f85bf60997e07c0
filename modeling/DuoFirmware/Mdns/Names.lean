import DuoFirmware.Mdns.NameWalk

/-!
# Names in a packet

A name is a sequence of labels of 1 to 63 bytes, each behind its size, and ends with a zero byte or
with a pointer to an earlier name. `Label::Matcher::match` should tell which registered chain is
the name that stands at the offset of the buffer.

## What it tells

The selection of the name overwrites its result: for every complete name `match` returns 1, the
index of the service, if anything is registered at all. And the bytes of a label are searched for
pointers and zero bytes like those between labels, so that a label may hold only other bytes if the
name is to be read as it stands.
-/

namespace DuoFirmware.Mdns

open Divergence Program Relation

/-! ## Names -/

/-- At `o` stands a name with these labels, and it ends before `e`. -/
inductive Name (p : Packet) : ℕ → List (List UInt8) → ℕ → Prop
  | root {o : ℕ} (hlt : o < p.limit) (h : p.data o = 0) : Name p o [] (o + 1)
  | label {o e : ℕ} {l : List UInt8} {ls : List (List UInt8)} (hpos : 1 ≤ l.length)
      (hle : l.length ≤ 63) (hsize : p.data o = .ofNat l.length)
      (hbytes : ∀ (i : ℕ) (hi : i < l.length), p.data (o + 1 + i) = l[i])
      (hrest : Name p (o + 1 + l.length) ls e) : Name p o (l :: ls) e
  | pointer {o e : ℕ} {ls : List (List UInt8)} (hp : isPointer (p.data o))
      (hlt : o + 1 < p.limit)
      (hearlier : pointerOffset (p.data o) (p.data (o + 1)) < o)
      (hrest : Name p (pointerOffset (p.data o) (p.data (o + 1))) ls e) : Name p o ls (o + 2)

/-- The name at `o` runs past the end of the packet. -/
inductive Truncated (p : Packet) : ℕ → Prop
  | empty {o : ℕ} (h : o = p.limit) : Truncated p o
  | inside {o n : ℕ} (hlt : o < p.limit) (hpos : 1 ≤ n) (hle : n ≤ 63)
      (hsize : p.data o = .ofNat n) (hcut : p.limit < o + 1 + n) : Truncated p o
  | behind {o n : ℕ} (hpos : 1 ≤ n) (hle : n ≤ 63) (hsize : p.data o = .ofNat n)
      (hfits : o + 1 + n ≤ p.limit) (hrest : Truncated p (o + 1 + n)) : Truncated p o
  | half {o : ℕ} (hp : isPointer (p.data o)) (hcut : o + 1 = p.limit) : Truncated p o
  | pointer {o : ℕ} (hp : isPointer (p.data o)) (hlt : o + 1 < p.limit)
      (hearlier : pointerOffset (p.data o) (p.data (o + 1)) < o)
      (hrest : Truncated p (pointerOffset (p.data o) (p.data (o + 1)))) : Truncated p o

theorem Name.lt_limit {p : Packet} {o e : ℕ} {ls : List (List UInt8)} (h : Name p o ls e) :
    o < p.limit := by
  induction h with
  | root hlt _ => exact hlt
  | label _ _ _ _ _ ih => omega
  | pointer _ hlt _ _ _ => exact Nat.lt_of_succ_lt hlt

theorem Truncated.le_limit {p : Packet} {o : ℕ} (h : Truncated p o) : o ≤ p.limit := by
  cases h with
  | empty h => exact h.le
  | inside hlt _ _ _ _ => exact hlt.le
  | behind _ _ _ hfits _ => omega
  | half _ hcut => omega
  | pointer _ hlt _ _ => omega

/-! ## The registered chain that is a name -/

/-- ASCII letters in lower case. -/
def toLower (c : UInt8) : UInt8 := if 65 ≤ c ∧ c ≤ 90 then c + 32 else c

/-- The label is this one, in the way it is compared. -/
def Label.equals (l : Label) (cs : List UInt8) : Bool :=
  if l.caseSensitive then l.chars = cs else l.chars.map toLower = cs.map toLower

/-- The chain is the name with these labels; the empty label ends it. -/
def isName : Chain → List (List UInt8) → Bool
  | [root], [] => root.getSize = 0
  | l :: label, cs :: ls => l.equals cs && isName label ls
  | _, _ => false

/-- The first registered chain that is the name. -/
def firstIndex (labels : List Chain) (ls : List (List UInt8)) : ℤ :=
  match labels.findIdx? (isName · ls) with
  | some i => i
  | none => unknownName

/-- At this offset `match` finds the first chain that is the name there, and goes on behind it, or
finds that the packet ends. -/
structure MatchesExactly (labels : List Chain) (p : Packet) (o : ℕ) : Prop where
  complete : ∀ ls e, Name p o ls e → ∃ r b',
    Returns (matchName labels) (p.received.setOffset o) r b' ∧
      r.nameIndex = firstIndex labels ls ∧ b'.offset = e
  truncated : Truncated p o → ∃ r b',
    Returns (matchName labels) (p.received.setOffset o) r b' ∧ r.nameIndex = bufferUnderflow

/-! ## What `match` returns -/

theorem selectLoop_eq (iterators : List Iterator) :
    selectLoop unknownName 0 iterators = if iterators = [] then unknownName else 1 := by
  cases iterators with
  | nil => rfl
  | cons it iterators =>
    rw [selectLoop, if_pos rfl, if_neg (List.cons_ne_nil _ _)]
    cases iterators with
    | nil => rfl
    | cons _ _ => rfl

namespace Matching

@[simp] theorem length_feed (m : Matching) (c : UInt8) :
    (m.feed c).iterators.length = m.iterators.length := List.length_map _

@[simp] theorem length_append (m : Matching) (c : UInt8) :
    (m.append c).iterators.length = m.iterators.length := rfl

@[simp] theorem length_feedLabel (m : Matching) (cs : List UInt8) :
    (m.feedLabel cs).iterators.length = m.iterators.length := by
  induction cs generalizing m with
  | nil => rfl
  | cons c cs ih => rw [feedLabel_cons, ih, length_append, length_feed]

@[simp] theorem length_feedName (m : Matching) (cs : List UInt8) :
    (m.feedName cs).iterators.length = m.iterators.length := by
  induction cs, m using feedName.induct with
  | case1 m => rw [feedName]
  | case2 size cs m m₁ ih =>
    rw [feedName]
    rw [dite_eq_ite] at ih
    refine ih.trans ?_
    split <;> simp [m₁]

end Matching

/-- The index that a walk leads to. -/
theorem Walk.nameIndex_eq {labels : List Chain} {b b' : Buffer} {cs : List UInt8} {e : UInt8}
    (h : Walk 1 b cs e b') : ((Matching.start labels).feedName cs).select.nameIndex =
      if e = 0 then if labels = [] then unknownName else 1 else bufferUnderflow := by
  have hc := Walk.feedName_c (m := Matching.start labels) h
  have hlength : ((Matching.start labels).feedName cs).iterators = [] ↔ labels = [] := by
    rw [← List.length_eq_zero_iff, Matching.length_feedName, Matching.start, List.length_map,
      List.length_eq_zero_iff]
  simp only [Matching.select, hc, selectLoop_eq, hlength]

/-- The walk from an offset inside of a packet. -/
theorem exists_walk_of_final {p : Packet} {b : Buffer} {f : ℕ} (hb : b.toPacket = p)
    (hmark : b.markOffset = invalidMarkOffset) (hlt : b.offset < p.limit) (hf : Final p f)
    (h : ReflTransGen (Leads p) b.offset f) : ∃ cs b', Walk 1 b cs (p.data f) b' ∧
      Resumes p f b.offset b'.reset.offset := by
  obtain ⟨c, b₁, cs, b', hnext, hwalk⟩ := exists_walk hb hf h
  obtain ⟨g, hg, -, hresumes⟩ := Walk.resumes hb hmark hlt hnext hwalk
  obtain rfl := hf.unique hg h hresumes.reaches
  have hmore : b.offset ≠ b.limit := by
    rw [hb]
    exact hlt.ne
  exact ⟨c :: cs, b', walk_cons hmore hnext hwalk, hresumes⟩

/-- What `match` returns inside of a packet. -/
theorem matchName_resumes {labels : List Chain} {p : Packet} {fuel : ℕ} {b b' : Buffer} {r : Match}
    (hb : b.toPacket = p) (hmark : b.markOffset = invalidMarkOffset) (hlt : b.offset < p.limit)
    (h : matchName labels fuel b = (some r, b')) :
    ∃ f, Final p f ∧ Resumes p f b.offset b'.offset ∧ b'.toPacket = p ∧ r.nameIndex =
      if p.data f = 0 then if labels = [] then unknownName else 1 else bufferUnderflow := by
  obtain ⟨cs, e, b₁, hwalk, rfl, rfl⟩ := matchName_walk h
  have hmore : b.offset ≠ b.limit := by
    rw [hb]
    exact hlt.ne
  obtain ⟨c, b₂, ds, hnext, hrest, -⟩ := hwalk.exists_next hmore
  obtain ⟨f, hf, rfl, hresumes⟩ := Walk.resumes hb hmark hlt hnext hrest
  refine ⟨f, hf, hresumes, ?_, hwalk.nameIndex_eq⟩
  rw [Buffer.reset_toPacket, hwalk.steps.toPacket_eq, hb]

theorem firstIndex_ne_underflow (labels : List Chain) (ls : List (List UInt8)) :
    firstIndex labels ls ≠ bufferUnderflow := by
  rw [firstIndex, bufferUnderflow]
  split
  · omega
  · decide

theorem firstIndex_nil (ls : List (List UInt8)) : firstIndex [] ls = unknownName := rfl

/-- **When `match` tells the name.** A complete name has to be the second of the registered ones,
and read byte by byte it has to end where it ends; a name that is cut off has to be cut off when it
is read byte by byte. -/
theorem matchesExactly_iff (labels : List Chain) (p : Packet) (o : ℕ) :
    MatchesExactly labels p o ↔
      (∀ ls e, Name p o ls e → (labels = [] ∨ firstIndex labels ls = 1) ∧
        ∃ f, Resumes p f o e ∧ p.data f = 0) ∧
      (Truncated p o → o = p.limit ∨
        ∃ f, ReflTransGen (Leads p) o f ∧ Final p f ∧ p.data f ≠ 0) := by
  constructor
  · intro h
    constructor
    · intro ls e hname
      obtain ⟨r, b', hreturns, hindex, rfl⟩ := h.complete ls e hname
      obtain ⟨n, hn⟩ := hreturns
      obtain ⟨f, hf, hresumes, -, hr⟩ :=
        matchName_resumes (p := p) rfl rfl hname.lt_limit (hn n le_rfl)
      by_cases hzero : p.data f = 0
      · refine ⟨?_, f, hresumes, hzero⟩
        rw [hindex, if_pos hzero] at hr
        by_cases hlabels : labels = []
        · exact .inl hlabels
        · rw [if_neg hlabels] at hr
          exact .inr hr
      · rw [hindex, if_neg hzero] at hr
        exact absurd hr (firstIndex_ne_underflow labels ls)
    · intro htruncated
      by_cases hlimit : o = p.limit
      · exact .inl hlimit
      · obtain ⟨r, b', hreturns, hindex⟩ := h.truncated htruncated
        have hlt := lt_of_le_of_ne htruncated.le_limit hlimit
        obtain ⟨n, hn⟩ := hreturns
        obtain ⟨f, hf, hresumes, -, hr⟩ := matchName_resumes (p := p) rfl rfl hlt (hn n le_rfl)
        refine .inr ⟨f, hresumes.reaches, hf, fun hzero ↦ ?_⟩
        rw [hindex, if_pos hzero] at hr
        split at hr <;> cases hr
  · rintro ⟨hcomplete, hcut⟩
    constructor
    · intro ls e hname
      obtain ⟨hindex, f, hresumes, hzero⟩ := hcomplete ls e hname
      have hf : Final p f := ⟨hzero ▸ not_isPointer_zero, .inl hzero⟩
      obtain ⟨cs, b', hwalk, hresumes'⟩ := exists_walk_of_final (p := p)
        (b := p.received.setOffset o) rfl rfl hname.lt_limit hf hresumes.reaches
      refine ⟨_, _, hwalk.matchName labels, ?_, hresumes'.unique hf hresumes⟩
      rw [hwalk.nameIndex_eq, if_pos hzero]
      rcases hindex with rfl | hindex
      · rw [if_pos rfl, firstIndex_nil]
      · rw [hindex, if_neg]
        rintro rfl
        cases hindex
    · intro htruncated
      rcases hcut htruncated with hlimit | ⟨f, hreach, hf, hne⟩
      · refine ⟨_, _, (walk_nil (b := p.received.setOffset o) hlimit).matchName labels, ?_⟩
        rw [Walk.nameIndex_eq (walk_nil (b := p.received.setOffset o) hlimit), if_neg (by decide)]
      · by_cases hlimit : o = p.limit
        · refine ⟨_, _, (walk_nil (b := p.received.setOffset o) hlimit).matchName labels, ?_⟩
          rw [Walk.nameIndex_eq (walk_nil (b := p.received.setOffset o) hlimit),
            if_neg (by decide)]
        · have hlt := lt_of_le_of_ne htruncated.le_limit hlimit
          obtain ⟨cs, b', hwalk, -⟩ :=
            exists_walk_of_final (p := p) (b := p.received.setOffset o) rfl rfl hlt hf hreach
          refine ⟨_, _, hwalk.matchName labels, ?_⟩
          rw [hwalk.nameIndex_eq, if_neg hne]

/-! ## A host that is taken for a service -/

/-- The chains of the host `a.local` and of the service `_s._udp.local`. -/
def hostAndService : List Chain :=
  let root := Label.new [] true 0 [] false
  let loc := Label.new [] true 1 [108, 111, 99, 97, 108] false
  [[Label.new [] true 2 [97] false, loc, root],
    [Label.new [] true 4 [95, 115] false, Label.new [] true 3 [95, 117, 100, 112] false, loc, root]]

/-- A query for the address of `a.local`. -/
def hostQuery : Packet :=
  .ofBytes [0, 0, 0, 0, 0, 1, 0, 0, 0, 0, 0, 0, 1, 97, 5, 108, 111, 99, 97, 108, 0, 0, 1, 0, 1]
    (by decide)

theorem hostQuery_name : Name hostQuery 12 [[97], [108, 111, 99, 97, 108]] 21 :=
  .label (by decide) (by decide) rfl (by decide)
    (.label (by decide) (by decide) rfl (by decide) (.root (by decide) rfl))

theorem hostQuery_mismatched : ¬MatchesExactly hostAndService hostQuery 12 := by
  intro h
  obtain ⟨r, b', hreturns, hindex, -⟩ := h.complete _ _ hostQuery_name
  obtain ⟨n, hn⟩ := hreturns
  obtain ⟨f, -, -, -, hr⟩ :=
    matchName_resumes (p := hostQuery) rfl rfl hostQuery_name.lt_limit (hn n le_rfl)
  rw [hindex, show firstIndex hostAndService _ = 0 by decide] at hr
  split at hr
  · cases hr
  · cases hr

end DuoFirmware.Mdns
