import DuoFirmware.Mdns.Names

/-!
# Names of plain bytes

Neither a zero byte nor a byte from `0xc0` on means anything to the reader but what stands in a
label. A name without such bytes in its labels is read as it stands, through all its pointers, and
the iterators then tell exactly which registered chains are this name: only the selection after the
loops does not use what they tell.
-/

namespace DuoFirmware.Mdns

open Divergence Program Relation

/-- A byte that the reader only passes on. -/
def Plain (c : UInt8) : Prop := c ≠ 0 ∧ ¬isPointer c

instance (c : UInt8) : Decidable (Plain c) := inferInstanceAs (Decidable (_ ∧ _))

/-- A name without pointers: each label behind its size, and a zero byte. -/
def encode (ls : List (List UInt8)) : List UInt8 :=
  ls.flatMap (fun l ↦ .ofNat l.length :: l) ++ [0]

theorem encode_cons (l : List UInt8) (ls : List (List UInt8)) :
    encode (l :: ls) = .ofNat l.length :: (l ++ encode ls) := by
  rw [encode, List.flatMap_cons, List.cons_append, List.cons_append, List.append_assoc, encode]

theorem encode_ne_nil (ls : List (List UInt8)) : encode ls ≠ [] :=
  List.append_ne_nil_of_right_ne_nil _ (List.cons_ne_nil _ _)

theorem isPointer_iff (c : UInt8) : isPointer c ↔ 192 ≤ c.toNat := by
  have h : ∀ i : Fin 256, isPointer (.ofFin i) ↔ 192 ≤ i.val := by decide +kernel
  exact h c.toFin

theorem plain_size {n : ℕ} (hpos : 1 ≤ n) (hle : n ≤ 63) : Plain (.ofNat n) := by
  have hnat : (UInt8.ofNat n).toNat = n := by
    rw [UInt8.toNat_ofNat']
    omega
  constructor
  · intro h
    rw [h] at hnat
    exact absurd hnat (by rw [UInt8.toNat_zero]; omega)
  · rw [isPointer_iff, hnat]
    omega

/-! ## Reading them -/

/-- The reader passes on plain bytes. -/
theorem Steps.plain {p : Packet} {b : Buffer} {c : UInt8} {cs : List UInt8} (hb : b.toPacket = p)
    (hc : c ≠ 0) (hbytes : ∀ (i : ℕ) (hi : i < cs.length), p.data (b.offset + i) = cs[i])
    (hplain : ∀ d ∈ cs, Plain d) (hlt : b.offset + cs.length < p.limit) :
    ∃ e b₁, Steps c b cs e b₁ ∧ e ≠ 0 ∧ b₁.toPacket = p ∧ b₁.offset = b.offset + cs.length := by
  induction cs generalizing b c with
  | nil => exact ⟨c, b, .nil, hc, hb, rfl⟩
  | cons d cs ih =>
    have hlimit := p.limit_lt
    rw [invalidMarkOffset] at hlimit
    rw [List.length_cons] at hlt
    have hoffset : b.advance.offset = b.offset + 1 := Nat.mod_eq_of_lt (by omega)
    have hd : b.data b.offset = d := by
      have h := hbytes 0 (Nat.zero_lt_succ _)
      rwa [← hb] at h
    have hrest : ∀ (i : ℕ) (hi : i < cs.length), p.data (b.advance.offset + i) = cs[i] := by
      intro i hi
      have h := hbytes (i + 1) (Nat.succ_lt_succ hi)
      rwa [List.getElem_cons_succ, Nat.add_comm i 1, ← Nat.add_assoc, ← hoffset] at h
    obtain ⟨hne, hp⟩ := hplain d List.mem_cons_self
    obtain ⟨e, b₁, hsteps, he, hpacket, hend⟩ := ih (b := b.advance) hb hne hrest
      (fun x hx ↦ hplain x (List.mem_cons_of_mem _ hx)) (by omega)
    refine ⟨e, b₁, ?_, he, hpacket, by rw [hend, hoffset, List.length_cons]; omega⟩
    have hmore : hasNext c b := by
      rw [hasNext_iff, hb]
      exact ⟨hc, by omega⟩
    have hnext := Next.byte (b := b) (by rwa [hd])
    rw [hd] at hnext
    exact .cons hmore hnext hsteps

/-- The way over plain bytes. -/
theorem Resumes.plain {p : Packet} {f o r n : ℕ} (hplain : ∀ i < n, Plain (p.data (o + i)))
    (hlt : o + n < p.limit) (h : Resumes p f (o + n) r) : Resumes p f o r := by
  induction n generalizing o with
  | zero => exact h
  | succ n ih =>
    have hlimit := p.limit_lt
    rw [invalidMarkOffset] at hlimit
    have hmod : (o + 1) % 65536 = o + 1 := Nat.mod_eq_of_lt (by omega)
    obtain ⟨hc, hp⟩ := hplain 0 (Nat.succ_pos n)
    refine .byte hc hp (by omega) ?_
    rw [hmod]
    refine ih (fun i hi ↦ ?_) (by omega) ?_
    · have hi' := hplain (i + 1) (Nat.succ_lt_succ hi)
      rwa [Nat.add_comm i 1, ← Nat.add_assoc] at hi'
    · rwa [Nat.add_assoc, Nat.add_comm 1 n]

section Name

variable {p : Packet} {o e : ℕ} {ls : List (List UInt8)}

theorem Name.length_le (h : Name p o ls e) : ∀ l ∈ ls, 1 ≤ l.length ∧ l.length ≤ 63 := by
  induction h with
  | root _ _ => exact fun _ h ↦ absurd h List.not_mem_nil
  | label hpos hle _ _ _ ih => exact List.forall_mem_cons.mpr ⟨⟨hpos, hle⟩, ih⟩
  | pointer _ _ _ _ ih => exact ih

/-- The reader comes to the end of the name. -/
theorem Name.resumes (h : Name p o ls e) (hplain : ∀ l ∈ ls, ∀ c ∈ l, Plain c) :
    ∃ f, Resumes p f o e ∧ p.data f = 0 := by
  have hlimit := p.limit_lt
  rw [invalidMarkOffset] at hlimit
  induction h with
  | @root o hlt hzero =>
    refine ⟨o, ?_, hzero⟩
    have hlast := Resumes.last (p := p) (f := o)
    rwa [Nat.mod_eq_of_lt (show o + 1 < 65536 by omega)] at hlast
  | @label o e l ls hpos hle hsize hbytes hrest ih =>
    obtain ⟨f, hresumes, hzero⟩ := ih fun l' hl' ↦ hplain l' (List.mem_cons_of_mem _ hl')
    refine ⟨f, ?_, hzero⟩
    rw [Nat.add_assoc] at hresumes
    refine Resumes.plain (fun i hi ↦ ?_) ?_ hresumes
    · rcases Nat.eq_zero_or_pos i with rfl | hi'
      · rw [Nat.add_zero, hsize]
        exact plain_size hpos hle
      · obtain ⟨j, rfl⟩ := Nat.exists_eq_add_of_le hi'
        have hj : j < l.length := by omega
        rw [← Nat.add_assoc, hbytes j hj]
        exact hplain l List.mem_cons_self _ (List.getElem_mem hj)
    · have := hrest.lt_limit
      omega
  | @pointer o e ls hp hlt hearlier hrest ih =>
    obtain ⟨f, hresumes, hzero⟩ := ih hplain
    have hmod : (o + 1) % 65536 = o + 1 := Nat.mod_eq_of_lt (by omega)
    have hmod' : (o + 2) % 65536 = o + 2 := Nat.mod_eq_of_lt (by omega)
    refine ⟨f, ?_, hzero⟩
    rw [← hmod']
    refine .pointer hp ?_ ?_
    · rw [hmod]
      exact hlt.ne
    · rw [hmod]
      exact hresumes.reaches

/-- The reader reads the labels. -/
theorem Name.walk (h : Name p o ls e) (hplain : ∀ l ∈ ls, ∀ c ∈ l, Plain c) {b : Buffer}
    (hb : b.toPacket = p) (ho : b.offset = o) :
    ∃ c b₁ cs b', Next b c b₁ ∧ Walk c b₁ cs 0 b' ∧ c :: cs = encode ls := by
  have hlimit := p.limit_lt
  rw [invalidMarkOffset] at hlimit
  induction h generalizing b with
  | root hlt hzero =>
    subst hb ho
    have hnext := Next.byte (b := b) (hzero ▸ not_isPointer_zero)
    rw [hzero] at hnext
    exact ⟨0, _, [], _, hnext, ⟨.nil, fun hmore ↦ hmore.1 rfl⟩, rfl⟩
  | @label o e l ls hpos hle hsize hbytes hrest ih =>
    have hlt := hrest.lt_limit
    obtain ⟨hne, hp⟩ := plain_size hpos hle
    have hdata : b.data b.offset = .ofNat l.length := by rw [← hsize, ← ho, hb]
    have hnext := Next.byte (b := b) (hdata ▸ hp)
    rw [hdata] at hnext
    have hoffset : b.advance.offset = o + 1 := by
      rw [Buffer.advance_offset, ho]
      exact Nat.mod_eq_of_lt (by omega)
    obtain ⟨d, b₂, hsteps, hd, hb₂, ho₂⟩ := Steps.plain (b := b.advance) hb hne
      (hoffset ▸ hbytes) (hplain l List.mem_cons_self) (by omega)
    obtain ⟨c, b₃, cs, b', hnext', hwalk, hcs⟩ := ih
      (fun l' hl' ↦ hplain l' (List.mem_cons_of_mem _ hl')) hb₂ (by rw [ho₂, hoffset])
    have hmore : hasNext d b₂ := by
      rw [hasNext_iff, hb₂, ho₂, hoffset]
      exact ⟨hd, hlt.ne⟩
    refine ⟨_, _, l ++ c :: cs, b', hnext,
      ⟨hsteps.append (.cons hmore hnext' hwalk.steps), hwalk.stops⟩, ?_⟩
    rw [encode_cons, hcs]
  | @pointer o e ls hp hlt hearlier hrest ih =>
    have hmod : (o + 1) % 65536 = o + 1 := Nat.mod_eq_of_lt (by omega)
    obtain ⟨c, b₁, cs, b', hnext, hwalk, hcs⟩ := ih hplain (b := b.hop)
      ((Buffer.hop_toPacket b).trans hb) (by rw [Buffer.hop_offset, hb, ho, hmod])
    subst hb ho
    exact ⟨c, b₁, cs, b', .hop hp (by rw [hmod]; exact hlt.ne) hnext, hwalk, hcs⟩

end Name

/-! ## What is collected -/

/-- The labels of a name, with a dot behind each. -/
def dotted (ls : List (List UInt8)) : List UInt8 := ls.flatMap (· ++ [dot])

namespace Matching

theorem lastName_feedLabel (m : Matching) (cs : List UInt8) :
    (m.feedLabel cs).lastName = m.lastName ++ cs := by
  induction cs generalizing m with
  | nil => rw [feedLabel_nil, List.append_nil]
  | cons c cs ih => rw [feedLabel_cons, ih, append, feed, List.append_assoc, List.singleton_append]

/-- One label of a name. -/
theorem feedName_label {n : ℕ} (m : Matching) (l cs : List UInt8) (hn : l.length = n)
    (hpos : 1 ≤ n) (hle : n ≤ 63) : m.feedName (.ofNat n :: (l ++ cs)) =
      (((m.feed (.ofNat n)).feedLabel l).append dot).feedName cs := by
  have hnat : (UInt8.ofNat n).toNat = l.length := by
    rw [UInt8.toNat_ofNat', hn]
    omega
  have hsize : (0 : UInt8) < .ofNat n := by
    rw [UInt8.lt_iff_toNat_lt, hnat, hn]
    exact hpos
  rw [feedName, hnat, List.take_left, List.drop_left, if_pos hsize]

theorem feedName_zero (m : Matching) : m.feedName [0] = m.feed 0 := by
  rw [feedName]
  exact feedName.eq_1 _

/-- The name that is collected. -/
theorem lastName_feedName (m : Matching) (ls : List (List UInt8))
    (hls : ∀ l ∈ ls, 1 ≤ l.length ∧ l.length ≤ 63) :
    (m.feedName (encode ls)).lastName = m.lastName ++ dotted ls := by
  induction ls generalizing m with
  | nil => rw [encode, List.flatMap_nil, List.nil_append, feedName_zero, dotted, List.flatMap_nil,
      List.append_nil, feed]
  | cons l ls ih =>
    obtain ⟨hpos, hle⟩ := hls l List.mem_cons_self
    rw [encode_cons, feedName_label _ _ _ rfl hpos hle,
      ih _ fun l' hl' ↦ hls l' (List.mem_cons_of_mem _ hl'), append, lastName_feedLabel, feed,
      dotted, dotted, List.flatMap_cons]
    simp only [List.append_assoc]

theorem iterators_feedLabel (m : Matching) (cs : List UInt8) :
    (m.feedLabel cs).iterators = m.iterators.map (cs.foldl Iterator.feed) := by
  induction cs generalizing m with
  | nil => exact (List.map_id _).symm
  | cons c cs ih =>
    rw [feedLabel_cons, ih, append, feed, List.map_map]
    rfl

/-- Every iterator is given every byte. -/
theorem iterators_feedName (m : Matching) (cs : List UInt8) :
    (m.feedName cs).iterators = m.iterators.map (cs.foldl Iterator.feed) := by
  induction cs, m using feedName.induct with
  | case1 m =>
    rw [feedName]
    exact (List.map_id _).symm
  | case2 size cs m m₁ ih =>
    rw [dite_eq_ite] at ih
    have hm₁ : (if 0 < size then m₁.append dot else m₁).iterators = m₁.iterators := by
      split <;> rfl
    rw [feedName]
    refine ih.trans ?_
    rw [hm₁, iterators_feedLabel, feed, List.map_map, List.map_map]
    refine List.map_congr_left fun it _ ↦ ?_
    rw [Function.comp_apply, Function.comp_apply, ← List.foldl_append, List.take_append_drop,
      List.foldl_cons]

end Matching

/-! ## What the iterators tell -/

/-- A chain of labels with 1 to 63 characters each, up to the empty label. -/
inductive Registered : Chain → Prop
  | root {l : Label} (h : l.getSize = 0) : Registered [l]
  | label {l : Label} {label : Chain} (hlength : l.data.length = l.getSize.toNat + 1)
      (hpos : 1 ≤ l.getSize.toNat) (hle : l.getSize.toNat ≤ 63) (hrest : Registered label) :
      Registered (l :: label)

namespace Iterator

theorem feed_of_not_matched {it : Iterator} (h : it.matched = false) (c : UInt8) :
    it.feed c = it := by rw [feed, h, if_neg Bool.false_ne_true]

theorem foldl_of_not_matched {it : Iterator} (h : it.matched = false) (cs : List UInt8) :
    cs.foldl feed it = it := by
  induction cs with
  | nil => rfl
  | cons c cs ih => rw [List.foldl_cons, feed_of_not_matched h, ih]

/-- Inside of a label. -/
theorem feed_inside {l : Label} {label : Chain} {size offset : UInt8} (h : offset ≤ size)
    (c : UInt8) : feed ⟨l :: label, size, offset, true⟩ c =
      ⟨l :: label, size, offset + 1, accepts offset size c (l :: label)⟩ := by
  rw [feed, if_pos rfl, nextLabel, if_neg (UInt8.not_lt.mpr h)]

theorem nextLabel_zero (label : Chain) :
    nextLabel (sizeOf label) 0 label = (label, sizeOf label, 0) := by
  cases label with
  | nil => rfl
  | cons l label => rw [nextLabel, if_neg (UInt8.not_lt.mpr UInt8.zero_le)]

/-- Behind a label. -/
theorem feed_behind {l : Label} {label : Chain} {size offset : UInt8} (h : size < offset)
    (c : UInt8) : feed ⟨l :: label, size, offset, true⟩ c = feed (new label) c := by
  rw [feed, feed, new, if_pos rfl, if_pos rfl, nextLabel, if_pos h, nextLabel_zero]

end Iterator

/-- Whether a byte of a label is this one, in the way the label is compared. -/
def Label.equalsByte (l : Label) (d c : UInt8) : Bool :=
  if l.caseSensitive then d = c else toLower d = toLower c

theorem equalsIgnoreCase_iff (d c : UInt8) :
    (d = c ∨ Iterator.equalsIgnoreCase d c = true) ↔ toLower d = toLower c := by
  have hd := d.toNat_lt
  have hc := c.toNat_lt
  simp only [Iterator.equalsIgnoreCase, toLower, Bool.or_eq_true, Bool.and_eq_true,
    decide_eq_true_eq, beq_iff_eq, UInt8.le_iff_toNat_le, apply_ite UInt8.toNat,
    ← UInt8.toNat_inj, UInt8.toNat_sub, UInt8.toNat_add, UInt8.reduceToNat]
  split_ifs <;> omega

namespace Label

theorem equals_iff (l : Label) (cs : List UInt8) :
    l.equals cs = true ↔ List.Forall₂ (fun d c ↦ l.equalsByte d c = true) l.chars cs := by
  by_cases hcase : l.caseSensitive = true
  · simp only [equals, equalsByte, if_pos hcase, decide_eq_true_eq]
    rw [List.forall₂_eq_eq_eq]
  · simp only [equals, equalsByte, if_neg hcase, decide_eq_true_eq]
    rw [← List.forall₂_eq_eq_eq, List.forall₂_map_left_iff, List.forall₂_map_right_iff]

theorem accepts_iff (l : Label) (label : Chain) {i size : UInt8} (h : i ≤ size) (c : UInt8) :
    Iterator.accepts i size c (l :: label) = l.equalsByte (l.byte i.toNat) c := by
  rw [Bool.eq_iff_iff, Iterator.accepts, equalsByte]
  simp only [h, decide_true, Bool.true_and, Bool.or_eq_true, beq_iff_eq, Bool.and_eq_true,
    Bool.not_eq_true']
  cases l.caseSensitive with
  | true => simp
  | false => simp [← equalsIgnoreCase_iff]

/-- A size is only equal to itself. -/
theorem equalsByte_size (l : Label) {d c : UInt8} (hd : d.toNat ≤ 63) (hc : c.toNat ≤ 63) :
    l.equalsByte d c = decide (d = c) := by
  have hlower : ∀ {x : UInt8}, x.toNat ≤ 63 → toLower x = x := by
    intro x hx
    refine if_neg fun h ↦ ?_
    have h' : 65 ≤ x.toNat := UInt8.le_iff_toNat_le.mp h.1
    omega
  rw [equalsByte]
  split
  · rfl
  · rw [hlower hd, hlower hc]

end Label

section Registered

variable {l : Label} {label : Chain}

/-- The characters of one label, from one of them on. -/
theorem foldl_inside (label : Chain) (hlength : l.data.length = l.getSize.toNat + 1)
    (hle : l.getSize.toNat ≤ 63) {i : ℕ} {cs : List UInt8}
    (hi : i + cs.length = l.getSize.toNat + 1) :
    (List.Forall₂ (fun d c ↦ l.equalsByte d c = true) (l.data.drop i) cs →
      cs.foldl Iterator.feed ⟨l :: label, l.getSize, .ofNat i, true⟩ =
        ⟨l :: label, l.getSize, l.getSize + 1, true⟩) ∧
    (¬List.Forall₂ (fun d c ↦ l.equalsByte d c = true) (l.data.drop i) cs →
      (cs.foldl Iterator.feed ⟨l :: label, l.getSize, .ofNat i, true⟩).matched = false) := by
  induction cs generalizing i with
  | nil =>
    rw [List.length_nil, Nat.add_zero] at hi
    subst hi
    rw [List.drop_eq_nil_of_le hlength.le]
    refine ⟨fun _ ↦ ?_, fun h ↦ absurd .nil h⟩
    rw [List.foldl_nil, UInt8.ofNat_add, UInt8.ofNat_toNat]
    rfl
  | cons c cs ih =>
    rw [List.length_cons] at hi
    have hnat : (UInt8.ofNat i).toNat = i := by
      rw [UInt8.toNat_ofNat']
      omega
    have hsize : UInt8.ofNat i ≤ l.getSize := by
      rw [UInt8.le_iff_toNat_le, hnat]
      omega
    have hdata : i < l.data.length := by omega
    have hbyte : l.byte i = l.data[i] := by
      rw [Label.byte, List.getD_eq_getElem?_getD, List.getElem?_eq_getElem hdata, Option.getD_some]
    have hnext : UInt8.ofNat i + 1 = .ofNat (i + 1) := (UInt8.ofNat_add i 1).symm
    rw [List.foldl_cons, Iterator.feed_inside hsize, Label.accepts_iff l label hsize, hnat, hnext,
      List.drop_eq_getElem_cons hdata, List.forall₂_cons, ← hbyte]
    obtain ⟨hyes, hno⟩ := ih (i := i + 1) (by omega)
    constructor
    · rintro ⟨hc, hrest⟩
      rw [hc]
      exact hyes hrest
    · intro h
      by_cases hc : l.equalsByte (l.byte i) c = true
      · rw [hc]
        exact hno fun hrest ↦ h ⟨hc, hrest⟩
      · rw [Bool.not_eq_true] at hc
        rw [hc, Iterator.foldl_of_not_matched rfl]

theorem Registered.ne_nil (h : Registered label) : label ≠ [] := by
  cases h with
  | root _ => exact List.cons_ne_nil _ _
  | label _ _ _ _ => exact List.cons_ne_nil _ _

/-- The size of a label is compared. -/
theorem feed_size (hle : l.getSize.toNat ≤ 63) {n : UInt8} (hn : n.toNat ≤ 63) :
    (Iterator.new (l :: label)).feed n = ⟨l :: label, l.getSize, 1, decide (l.getSize = n)⟩ := by
  rw [Iterator.new, Iterator.sizeOf, Iterator.feed_inside UInt8.zero_le,
    Label.accepts_iff l label UInt8.zero_le]
  rw [UInt8.toNat_zero, ← Label.getSize, Label.equalsByte_size l hle hn]
  rfl

theorem drop_data (hlength : l.data.length = l.getSize.toNat + 1) : l.data.drop 1 = l.chars := by
  rw [Label.chars, List.take_of_length_le]
  rw [List.length_drop, hlength, Nat.add_sub_cancel]

/-- **The iterators tell the name.** An iterator that is given a name accepts all of it if and only
if its chain is this name. -/
theorem Registered.matched_encode (h : Registered label) {ls : List (List UInt8)}
    (hls : ∀ l ∈ ls, 1 ≤ l.length ∧ l.length ≤ 63) :
    ((encode ls).foldl Iterator.feed (.new label)).matched = isName label ls := by
  induction h generalizing ls with
  | @root l h =>
    cases ls with
    | nil =>
      rw [encode, List.flatMap_nil, List.nil_append, List.foldl_cons, feed_size (by rw [h]; decide)
        (by decide), isName, h]
      rfl
    | cons cs ls =>
      obtain ⟨hpos, hle⟩ := hls cs List.mem_cons_self
      have hnat : (UInt8.ofNat cs.length).toNat = cs.length := by
        rw [UInt8.toNat_ofNat']
        omega
      have hne : (0 : UInt8) ≠ .ofNat cs.length := (plain_size hpos hle).1.symm
      rw [encode_cons, List.foldl_cons, feed_size (by rw [h]; decide) (by rw [hnat]; exact hle), h,
        decide_eq_false hne, Iterator.foldl_of_not_matched rfl]
      rw [isName, show isName [] ls = false by cases ls <;> rfl, Bool.and_false]
  | @label l label hlength hpos hle hrest ih =>
    obtain ⟨r, tail, rfl⟩ := List.exists_cons_of_ne_nil hrest.ne_nil
    cases ls with
    | nil =>
      have hne : l.getSize ≠ 0 := by
        rintro h
        rw [h, UInt8.toNat_zero] at hpos
        omega
      rw [encode, List.flatMap_nil, List.nil_append, List.foldl_cons, feed_size hle (by decide),
        decide_eq_false hne]
      rfl
    | cons cs ls =>
      obtain ⟨hpos', hle'⟩ := hls cs List.mem_cons_self
      have hnat : (UInt8.ofNat cs.length).toNat = cs.length := by
        rw [UInt8.toNat_ofNat']
        omega
      rw [encode_cons, List.foldl_cons, feed_size hle (by rw [hnat]; exact hle'), isName]
      by_cases hsize : l.getSize = .ofNat cs.length
      · have hi : 1 + cs.length = l.getSize.toNat + 1 := by
          rw [hsize, hnat, Nat.add_comm]
        obtain ⟨hyes, hno⟩ := foldl_inside (r :: tail) hlength hle hi
        rw [drop_data hlength, ← Label.equals_iff] at hyes hno
        rw [decide_eq_true hsize, List.foldl_append, show (1 : UInt8) = .ofNat 1 from rfl]
        by_cases hequals : l.equals cs = true
        · obtain ⟨c, rest, hc⟩ := List.exists_cons_of_ne_nil (encode_ne_nil ls)
          have hbehind : l.getSize < l.getSize + 1 := by
            rw [UInt8.lt_iff_toNat_lt, UInt8.toNat_add]
            change _ < (_ + 1) % 256
            omega
          rw [hyes hequals, hequals, Bool.true_and,
            ← ih fun l' hl' ↦ hls l' (List.mem_cons_of_mem _ hl'), hc, List.foldl_cons,
            List.foldl_cons, Iterator.feed_behind hbehind]
        · rw [Iterator.foldl_of_not_matched (hno hequals), hno hequals,
            Bool.eq_false_iff.mpr hequals, Bool.false_and]
      · have hequals : l.equals cs = false := by
          rw [Bool.eq_false_iff, ne_eq, Label.equals_iff]
          intro h
          apply hsize
          rw [← h.length_eq, ← drop_data hlength, List.length_drop, hlength, Nat.add_sub_cancel,
            UInt8.ofNat_toNat]
        rw [decide_eq_false hsize, Iterator.foldl_of_not_matched rfl, hequals]
        rfl

end Registered

/-- **Only the selection is wrong.** After a name of plain bytes the iterators tell exactly which of
the registered chains are this name. -/
theorem Name.matched {p : Packet} {o e : ℕ} {ls : List (List UInt8)} {labels : List Chain}
    (h : Name p o ls e) (hplain : ∀ l ∈ ls, ∀ c ∈ l, Plain c)
    (hlabels : ∀ label ∈ labels, Registered label) :
    ∃ cs b', Walk 1 (p.received.setOffset o) cs 0 b' ∧
      ((Matching.start labels).feedName cs).iterators.map (·.matched) =
        labels.map (isName · ls) := by
  obtain ⟨c, b₁, cs, b', hnext, hwalk, hcs⟩ :=
    h.walk hplain (b := p.received.setOffset o) rfl rfl
  refine ⟨c :: cs, b', walk_cons h.lt_limit.ne hnext hwalk, ?_⟩
  rw [hcs, Matching.iterators_feedName, Matching.start, List.map_map, List.map_map]
  exact List.map_congr_left fun label hlabel ↦ (hlabels label hlabel).matched_encode h.length_le

end DuoFirmware.Mdns
