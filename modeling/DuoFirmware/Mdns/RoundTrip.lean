import DuoFirmware.Mdns.Configuration
import Mathlib.Data.List.TakeWhile

/-!
# Writing a name and reading it again

`Label::write` writes the labels of a name up to the first one that was written before, and then a
pointer to it. What stands in the packet then is the name, whichever labels were written before;
`Label::Reader` reads it back unless one of its labels is empty, which ends the name for the reader,
or holds a byte from `0xc0` on, which is the beginning of a pointer for the reader.
-/

namespace DuoFirmware.Mdns

open Divergence Program Relation

/-! ## Pointers -/

theorem pointerBytes_eq {w : ℕ} (h : w < 16384) :
    pointerBytes w = [.ofNat (192 + w / 256), .ofNat w] := by
  have hor : labelPointer.toNat * 256 ||| w = 49152 + w := by
    have h14 : 2 ^ 14 * 3 + w = 2 ^ 14 * 3 ||| w := Nat.two_pow_add_eq_or_of_lt h 3
    exact h14.symm
  have hmod : UInt8.ofNat (49152 + w) = .ofNat w := by
    rw [← UInt8.toNat_inj, UInt8.toNat_ofNat', UInt8.toNat_ofNat']
    omega
  rw [pointerBytes, bytes16, hor, hmod, show (49152 + w) / 256 = 192 + w / 256 by omega]

theorem isPointer_pointerBytes {w : ℕ} (h : w < 16384) : isPointer (.ofNat (192 + w / 256)) := by
  rw [isPointer_iff, UInt8.toNat_ofNat']
  omega

theorem pointerOffset_pointerBytes {w : ℕ} (h : w < 16384) :
    pointerOffset (.ofNat (192 + w / 256)) (.ofNat w) = w := by
  have hhigh : ∀ i : Fin 64, (UInt8.ofNat (192 + i.val) &&& ~~~labelPointer).toNat = i.val := by
    decide +kernel
  have hi : (UInt8.ofNat (192 + w / 256) &&& ~~~labelPointer).toNat = w / 256 :=
    hhigh ⟨w / 256, by omega⟩
  rw [pointerOffset, hi, UInt8.toNat_ofNat']
  omega

/-! ## Names in the bytes that were written -/

/-- From `o` on and before `e` stands a chain, with pointers to what stands before. -/
inductive Stands (bytes : List UInt8) : ℕ → Chain → ℕ → Prop
  | nil {o : ℕ} : Stands bytes o [] o
  | label {o e : ℕ} {l : Label} {label : Chain} (h : l.written <+: bytes.drop o)
      (hrest : Stands bytes (o + l.written.length) label e) : Stands bytes o (l :: label) e
  | pointer {o w e : ℕ} {label : Chain} (h : pointerBytes w <+: bytes.drop o) (hlt : w < o)
      (hne : label ≠ []) (hrest : Stands bytes w label e) : Stands bytes o label (o + 2)

theorem Stands.mono {bytes bytes' : List UInt8} (hsub : bytes <+: bytes') {o e : ℕ} {label : Chain}
    (h : Stands bytes o label e) : Stands bytes' o label e := by
  induction h with
  | nil => exact .nil
  | label h _ ih => exact .label (h.trans (hsub.drop _)) ih
  | pointer h hlt hne _ ih => exact .pointer (h.trans (hsub.drop _)) hlt hne ih

/-- Where a label of the table was written, its chain stands; labels that are just being written
are left out. -/
def NamesStand (table : Table) (pending : List ℕ) (em : Emission) : Prop :=
  ∀ a label w, table a = some label → a ∉ pending → em.writeOffset a = some w →
    w < em.bytes.length ∧ ∃ e, Stands em.bytes w label e

section Names

variable {table : Table} {fresh : ℕ} {pending : List ℕ} {em : Emission}

theorem NamesStand.emit (h : NamesStand table pending em) (bs : List UInt8) :
    NamesStand table pending (em.emit bs) := by
  intro a label w ha hpending hw
  obtain ⟨hlt, e, hstands⟩ := h a label w ha hpending hw
  refine ⟨?_, e, hstands.mono (List.prefix_append _ _)⟩
  rw [Emission.emit_bytes, List.length_append]
  omega

theorem NamesStand.emitLabel (h : NamesStand table pending em) (l : Label) :
    NamesStand table (l.address :: pending) (em.emitLabel l) := by
  intro a label w ha hpending hw
  rw [List.mem_cons, not_or] at hpending
  rw [Emission.emitLabel_writeOffset_of_ne l em hpending.1] at hw
  obtain ⟨hlt, e, hstands⟩ := h a label w ha hpending.2 hw
  refine ⟨?_, e, hstands.mono (List.prefix_append _ _)⟩
  rw [Emission.length_emitLabel]
  omega

theorem prefix_drop_append (bytes bs : List UInt8) : bs <+: (bytes ++ bs).drop bytes.length := by
  rw [List.drop_left]

/-- **A name stands where it is written.** -/
theorem NamesStand.emitName (hT : table.Valid fresh) (h : NamesStand table pending em)
    {label : Chain} (hlabel : label = [] ∨ ∃ a, table a = some label)
    (hpending : ∀ l ∈ label, l.address ∉ pending) :
    NamesStand table pending (em.emitName label) ∧
      Stands (em.emitName label).bytes em.bytes.length label (em.emitName label).bytes.length := by
  induction label generalizing em pending with
  | nil => exact ⟨h, .nil⟩
  | cons l label ih =>
    obtain ⟨a, ha⟩ := hlabel.resolve_left (List.cons_ne_nil _ _)
    obtain ⟨_, _, heq, rfl, hsound, hrest⟩ := hT.cons a _ ha
    cases heq
    have hnodup := hT.nodup ha
    rw [List.map_cons, List.nodup_cons] at hnodup
    rw [List.forall_mem_cons] at hpending
    cases hw : em.writeOffset l.address with
    | none =>
      have hrest' : ∀ l' ∈ label, l'.address ∉ l.address :: pending := by
        intro l' hl' hmem
        rcases List.mem_cons.mp hmem with heq | hmem
        · exact hnodup.1 (heq ▸ List.mem_map_of_mem hl')
        · exact hpending.2 l' hl' hmem
      obtain ⟨hnames, hstands⟩ := ih (h.emitLabel l)
        (hrest.imp And.left fun ⟨b, _, hb⟩ ↦ ⟨b, hb⟩) hrest'
      have hsub := Emission.prefix_emitName label (em.emitLabel l)
      have hlength := Emission.length_emitLabel l em
      have hself : Stands ((em.emitLabel l).emitName label).bytes em.bytes.length (l :: label)
          ((em.emitLabel l).emitName label).bytes.length :=
        .label ((prefix_drop_append _ _).trans (hsub.drop _)) (hlength ▸ hstands)
      rw [Emission.emitName_of_none hw]
      refine ⟨fun a' label' w ha' hpending' hw' ↦ ?_, hself⟩
      rcases eq_or_ne a' l.address with rfl | hne
      · rw [ha, Option.some.injEq] at ha'
        subst ha'
        rw [Emission.emitName_writeOffset _ hnodup.1, Emission.emitLabel_writeOffset_self,
          Option.some.injEq] at hw'
        subst hw'
        refine ⟨?_, _, hself⟩
        have hle := hsub.length_le
        rw [hlength, hsound.written, List.length_cons] at hle
        omega
      · exact hnames a' label' w ha' (by rw [List.mem_cons, not_or]; exact ⟨hne, hpending'⟩) hw'
    | some w =>
      obtain ⟨hlt, e, hstands⟩ := h l.address (l :: label) w ha hpending.1 hw
      have hlength : (em.emit (pointerBytes w)).bytes.length = em.bytes.length + 2 := by
        rw [Emission.emit_bytes, List.length_append, length_pointerBytes]
      rw [Emission.emitName_of_some hw, hlength]
      exact ⟨h.emit _, .pointer (prefix_drop_append _ _) hlt (List.cons_ne_nil _ _)
        (hstands.mono (List.prefix_append _ _))⟩

end Names

/-! ## The packet that is read -/

/-- The labels of a chain, up to the first empty one. -/
def leading (label : Chain) : List (List UInt8) := (label.map Label.chars).takeWhile (· ≠ [])

/-- The characters of all labels but the last, empty one. -/
def characters (label : Chain) : List (List UInt8) := label.dropLast.map Label.chars

theorem prefix_drop_iff {bs bytes : List UInt8} {o : ℕ} :
    bs <+: bytes.drop o ↔ ∀ (i : ℕ) (hi : i < bs.length), bytes[o + i]? = some bs[i] := by
  rw [List.prefix_iff_getElem?]
  simp only [List.getElem?_drop]

/-- The packet holds the bytes that were written. -/
structure InPacket (p : Packet) (bytes : List UInt8) : Prop where
  data : ∀ i b, bytes[i]? = some b → p.data i = b
  le_limit : bytes.length ≤ p.limit
  le_size : bytes.length ≤ bufferSize

theorem InPacket.data_of_prefix {p : Packet} {bytes bs : List UInt8} (hp : InPacket p bytes)
    {o : ℕ} (h : bs <+: bytes.drop o) (i : ℕ) (hi : i < bs.length) : p.data (o + i) = bs[i] :=
  hp.data _ _ (prefix_drop_iff.mp h i hi)

theorem le_of_prefix_drop {bytes bs : List UInt8} {o : ℕ} (h : bs <+: bytes.drop o)
    (hne : bs ≠ []) : o + bs.length ≤ bytes.length := by
  have hle := h.length_le
  have hpos := List.length_pos_iff.mpr hne
  rw [List.length_drop] at hle
  omega

theorem leading_cons_of_empty {l : Label} (label : Chain) (h : l.chars = []) :
    leading (l :: label) = [] := by
  rw [leading, List.map_cons, List.takeWhile_cons_of_neg (by simpa using h)]

theorem leading_cons_of_ne {l : Label} (label : Chain) (h : l.chars ≠ []) :
    leading (l :: label) = l.chars :: leading label := by
  rw [leading, List.map_cons, List.takeWhile_cons_of_pos (by simpa using h), leading]

theorem characters_cons {l : Label} {label : Chain} (h : label ≠ []) :
    characters (l :: label) = l.chars :: characters label := by
  rw [characters, List.dropLast_cons_of_ne_nil h, List.map_cons, characters]

/-- **What stands in a packet is a name**: the labels of the chain up to the first empty one. If
that is the last one, the name ends where the chain does. -/
theorem Stands.name {p : Packet} {bytes : List UInt8} (hp : InPacket p bytes) {o e : ℕ}
    {label : Chain} (h : Stands bytes o label e) (hends : Ends label) :
    ∃ e', Name p o (leading label) e' ∧ (leading label = characters label → e' = e) := by
  induction h with
  | nil => exact absurd rfl hends.ne_nil
  | @label o e l label h hrest ih =>
    have hsound := hends.sound l List.mem_cons_self
    rw [hsound.written] at h hrest ih
    have hle := (le_of_prefix_drop h (List.cons_ne_nil _ _)).trans hp.le_limit
    rw [List.length_cons] at hle
    have hsize : p.data o = l.getSize := hp.data_of_prefix h 0 (Nat.zero_lt_succ _)
    by_cases hempty : l.chars = []
    · refine ⟨o + 1, ?_, fun heq ↦ ?_⟩
      · rw [leading_cons_of_empty label hempty]
        exact .root (by omega) (hsize.trans (hsound.chars_eq_nil_iff.mp hempty))
      · rw [leading_cons_of_empty label hempty] at heq
        by_cases hlast : label = []
        · subst hlast
          rw [hempty] at hrest
          cases hrest with
          | nil => rfl
          | pointer _ _ hne _ => exact absurd rfl hne
        · rw [characters_cons hlast] at heq
          cases heq
    · have hends' : Ends label := by
        cases hends with
        | root _ hzero => exact absurd (hsound.chars_eq_nil_iff.mpr hzero) hempty
        | cons _ hrest => exact hrest
      obtain ⟨e', hname, he'⟩ := ih hends'
      refine ⟨e', ?_, fun heq ↦ he' ?_⟩
      · rw [leading_cons_of_ne label hempty]
        refine .label (List.length_pos_iff.mpr hempty) (hsound.length_chars ▸ hsound.size_le)
          ?_ (fun i hi ↦ ?_) ?_
        · rw [hsize, hsound.length_chars, UInt8.ofNat_toNat]
        · have hdata := hp.data_of_prefix h (i + 1) (Nat.succ_lt_succ hi)
          rwa [List.getElem_cons_succ, Nat.add_comm i 1, ← Nat.add_assoc] at hdata
        · rwa [List.length_cons, Nat.add_comm l.chars.length 1, ← Nat.add_assoc] at hname
      · rw [leading_cons_of_ne label hempty, characters_cons hends'.ne_nil,
          List.cons.injEq] at heq
        exact heq.2
  | @pointer o w e label h hlt hne hrest ih =>
    obtain ⟨e', hname, -⟩ := ih hends
    have hle := le_of_prefix_drop h (List.cons_ne_nil _ _)
    have hsize := hp.le_size
    rw [length_pointerBytes] at hle
    have hw : w < 16384 := by
      rw [bufferSize] at hsize
      omega
    have h₀ := hp.data_of_prefix h 0 (by simp)
    have h₁ := hp.data_of_prefix h 1 (by simp)
    simp only [pointerBytes_eq hw, List.getElem_cons_zero, List.getElem_cons_succ,
      Nat.add_zero] at h₀ h₁
    have hoffset : pointerOffset (p.data o) (p.data (o + 1)) = w := by
      rw [h₀, h₁, pointerOffset_pointerBytes hw]
    refine ⟨o + 2, .pointer (h₀ ▸ isPointer_pointerBytes hw) ?_ (hoffset ▸ hlt) (hoffset ▸ hname),
      fun _ ↦ rfl⟩
    have := hp.le_limit
    omega

/-! ## What the reader returns -/

theorem Ends.leading_eq {label : Chain} (h : Ends label) :
    leading label = (characters label).takeWhile (· ≠ []) := by
  induction h with
  | @root l hsound h =>
    rw [leading_cons_of_empty [] (hsound.chars_eq_nil_iff.mpr h)]
    rfl
  | @cons l label hsound hrest ih =>
    rw [characters_cons hrest.ne_nil]
    by_cases hempty : l.chars = []
    · rw [leading_cons_of_empty label hempty, List.takeWhile_cons_of_neg (by simpa using hempty)]
    · rw [leading_cons_of_ne label hempty, List.takeWhile_cons_of_pos (by simpa using hempty), ih]

theorem Ends.leading_subset {label : Chain} (h : Ends label) :
    leading label ⊆ characters label := by
  rw [h.leading_eq]
  exact (List.takeWhile_prefix _).subset

theorem Ends.leading_eq_characters_iff {label : Chain} (h : Ends label) :
    leading label = characters label ↔ ∀ l ∈ label.dropLast, l.chars ≠ [] := by
  rw [h.leading_eq, List.takeWhile_eq_self_iff, characters, List.forall_mem_map]
  simp only [ne_eq, decide_not, Bool.not_eq_true', decide_eq_false_iff_not]

/-- A name from which labels are missing has fewer characters and dots. -/
theorem Ends.eq_of_dotted_eq {label : Chain} (h : Ends label)
    (heq : dotted (leading label) = dotted (characters label)) :
    leading label = characters label := by
  obtain ⟨rest, hrest⟩ := h.leading_eq ▸ List.takeWhile_prefix (l := characters label) (· ≠ [])
  rw [← hrest, dotted, dotted, List.flatMap_append, List.self_eq_append_right,
    List.flatMap_eq_nil_iff] at heq
  cases rest with
  | nil => rw [← hrest, List.append_nil]
  | cons l rest =>
    have hdot := heq l List.mem_cons_self
    exact absurd hdot (List.append_ne_nil_of_right_ne_nil _ (List.cons_ne_nil _ _))

theorem Next.not_isPointer {b b' : Buffer} {c : UInt8} (h : Next b c b') : ¬isPointer c := by
  induction h with
  | byte hp => exact hp
  | hop _ _ _ ih => exact ih

/-- The reader never returns the first half of a pointer. -/
theorem Steps.not_isPointer {c e : UInt8} {b b' : Buffer} {cs : List UInt8}
    (h : Steps c b cs e b') : ∀ x ∈ cs, ¬isPointer x := by
  induction h with
  | nil => exact fun _ h ↦ absurd h List.not_mem_nil
  | cons _ hnext _ ih => exact List.forall_mem_cons.mpr ⟨hnext.not_isPointer, ih⟩

/-- The name consists of bytes that were read, and of dots. -/
theorem Matching.mem_lastName_feedName (m : Matching) (cs : List UInt8) :
    ∀ x ∈ (m.feedName cs).lastName, x ∈ m.lastName ∨ x ∈ cs ∨ x = dot := by
  induction cs, m using feedName.induct with
  | case1 m =>
    intro x hx
    rw [feedName] at hx
    exact .inl hx
  | case2 size cs m m₁ ih =>
    rw [dite_eq_ite] at ih
    intro x hx
    rw [feedName] at hx
    have hm₁ : x ∈ (if 0 < size then m₁.append dot else m₁).lastName →
        x ∈ m.lastName ∨ x ∈ cs.take size.toNat ∨ x = dot := by
      have hlast : m₁.lastName = m.lastName ++ cs.take size.toNat := lastName_feedLabel _ _
      intro hx
      split at hx
      · rw [append, hlast, List.mem_append, List.mem_append, List.mem_singleton] at hx
        tauto
      · rw [hlast, List.mem_append] at hx
        tauto
    rcases ih x hx with hx | hx | hx
    · exact (hm₁ hx).imp_right (.imp_left fun h ↦ List.mem_cons_of_mem _ (List.mem_of_mem_take h))
    · exact .inr (.inl (List.mem_cons_of_mem _ (List.mem_of_mem_drop hx)))
    · exact .inr (.inr hx)

/-! ## The round trip -/

/-- What is written of one packet: numbers and other bytes, and names of the configuration. -/
inductive Written (m : MDNS) : Output → Prop
  | start {out : Output} (hsize : out.buffer.size = bufferSize) (hoffset : out.buffer.offset = 0)
      (hreset : ∀ c ∈ m.labels, ∀ l ∈ c, out.writeOffset l.address = none) : Written m out
  | byte {out : Output} (h : Written m out) (value : UInt8) : Written m (out.writeUInt8 value)
  | name {out : Output} (h : Written m out) {c : Chain} (hc : c ∈ m.labels) :
      Written m (out.writeName c)

theorem Written.exists_holds {m : MDNS} {table : Table} (hm : m.Valid table) {out : Output}
    (h : Written m out) : ∃ em, Holds m.Known out em ∧ NamesStand table [] em := by
  induction h with
  | @start out hsize hoffset hreset =>
    refine ⟨.empty, ⟨hsize, hoffset, fun i b h ↦ ?_, ?_, fun _ _ _ h ↦ ?_⟩, fun _ _ _ _ _ h ↦ ?_⟩
    · cases h
    · rintro a ⟨c, hc, l, hl, rfl⟩
      exact hreset c hc l hl
    · cases h
    · cases h
  | byte _ value ih =>
    obtain ⟨em, hholds, hnames⟩ := ih
    exact ⟨em.emit [value], hholds.writeUInt8 value, hnames.emit _⟩
  | @name out _ c hc ih =>
    obtain ⟨em, hholds, hnames⟩ := ih
    exact ⟨em.emitName c, hholds.writeName (MDNS.known hc),
      (hnames.emitName hm.valid (hm.chains c hc) fun _ _ ↦ List.not_mem_nil).1⟩

/-- **The size of a name is known before it is written**: in every state of a packet, writing a
chain of a configuration moves the offset on by the number that `getWriteSize` returns, up to the
end of the buffer at most; with room for them, this is how many bytes are written. -/
theorem Written.offset_writeName {mem : Memory} {m : MDNS} (hm : MDNS.Reachable mem m)
    {out : Output} (hout : Written m out) {c : Chain} (hc : c ∈ m.labels) :
    (out.writeName c).buffer.offset =
        min (out.buffer.offset + (out.getWriteSize c).toNat) bufferSize ∧
      (out.buffer.offset + (out.getWriteSize c).toNat ≤ bufferSize →
        (out.writeName c).buffer.offset = out.buffer.offset + (out.getWriteSize c).toNat) := by
  obtain ⟨table, hvalid⟩ := hm.valid
  obtain ⟨em, hholds, -⟩ := hout.exists_holds hvalid
  have hsize := hholds.toNat_getWriteSize hvalid hc
  have hlength := Emission.length_emitName em (hvalid.nodup hc)
  have hbefore := hholds.offset
  have hafter := (hholds.writeName (MDNS.known hc)).offset
  have hmin : (out.writeName c).buffer.offset =
      min (out.buffer.offset + (out.getWriteSize c).toNat) bufferSize := by
    rw [hafter, hbefore, hsize, hlength]
    omega
  exact ⟨hmin, fun hroom ↦ hmin.trans (min_eq_left hroom)⟩

/-- The buffer from an offset on, as a packet that is read. -/
def Output.reread (out : Output) (offset limit : ℕ) (h : limit ≤ bufferSize) : Buffer :=
  { out.buffer with
    limit, offset, limit_lt := h.trans_lt (by decide), markOffset := invalidMarkOffset }

/-- From where a name was written, the reader reads the name and goes on behind it. -/
def RoundTrips (labels : List Chain) (out : Output) (c : Chain) (limit : ℕ)
    (h : limit ≤ bufferSize) : Prop :=
  ∃ r b', Returns (matchName labels)
      ((out.writeName c).reread out.buffer.offset limit h) r b' ∧
    r.lastName = dotted (characters c) ∧ b'.offset = (out.writeName c).buffer.offset

/-- A name with room for it is written as meant. -/
theorem Holds.writeName_of_room {known : ℕ → Prop} {out : Output} {em : Emission} {c : Chain}
    (h : Holds known out em) (hknown : ∀ l ∈ c, known l.address) (hends : Ends c)
    (hnodup : (c.map Label.address).Nodup) (hsize : chainSize c ≤ 199)
    (hroom : out.buffer.offset + (out.getWriteSize c).toNat ≤ bufferSize) :
    em.bytes.length = out.buffer.offset ∧ (em.emitName c).bytes.length ≤ bufferSize ∧
      (out.writeName c).buffer.offset = (em.emitName c).bytes.length := by
  have hpos := nameSize_pos em hends
  have hle := em.nameSize_le c
  have hlength := Emission.length_emitName em hnodup
  have hoffset := h.offset
  rw [h.getWriteSize hknown, Nat.mod_eq_of_lt (by omega)] at hroom
  have hstart : em.bytes.length = out.buffer.offset := by omega
  have hfits : (em.emitName c).bytes.length ≤ bufferSize := by omega
  refine ⟨hstart, hfits, ?_⟩
  rw [(h.writeName hknown).offset, min_eq_left hfits]

/-- What stands in the packet from the offset on where a name was written. -/
theorem exists_name {mem : Memory} {m : MDNS} (hm : MDNS.Reachable mem m) {out : Output}
    (hout : Written m out) {c : Chain} (hc : c ∈ m.labels) (hne : c ≠ [])
    (hroom : out.buffer.offset + (out.getWriteSize c).toNat ≤ bufferSize) {limit : ℕ}
    (hlimit : (out.writeName c).buffer.offset ≤ limit) (hmax : limit ≤ bufferSize) :
    Ends c ∧ ∃ e, Name ((out.writeName c).reread out.buffer.offset limit hmax).toPacket
        out.buffer.offset (leading c) e ∧
      (leading c = characters c → e = (out.writeName c).buffer.offset) := by
  obtain ⟨table, hvalid⟩ := hm.valid
  obtain ⟨em, hholds, hnames⟩ := hout.exists_holds hvalid
  obtain ⟨a, ha⟩ := (hvalid.chains c hc).resolve_left hne
  have hends := hvalid.valid.ends ha
  have hknown := MDNS.known hc
  obtain ⟨hstart, hfits, hend⟩ := hholds.writeName_of_room hknown hends
    (hvalid.valid.nodup ha) (hvalid.size c hc) hroom
  obtain ⟨-, hstands⟩ :=
    hnames.emitName hvalid.valid (.inr ⟨a, ha⟩) fun _ _ ↦ List.not_mem_nil
  have hpacket : InPacket ((out.writeName c).reread out.buffer.offset limit hmax).toPacket
      (em.emitName c).bytes := by
    refine ⟨fun i b hi ↦ ?_, by rw [← hend]; exact hlimit, hfits⟩
    have hlt := (List.getElem?_eq_some_iff.mp hi).1
    exact (hholds.writeName hknown).data i b hi (hlt.trans_le hfits)
  rw [hstart, ← hend] at hstands
  exact ⟨hends, hstands.name hpacket hends⟩

/-- The reader returns no byte from `0xc0` on, so that a name that comes back holds none. -/
theorem RoundTrips.not_isPointer {labels : List Chain} {out : Output} {c : Chain} {limit : ℕ}
    {h : limit ≤ bufferSize} (hround : RoundTrips labels out c limit h) :
    ∀ l ∈ c.dropLast, ∀ x ∈ l.chars, ¬isPointer x := by
  obtain ⟨r, b', ⟨n, hn⟩, hlast, -⟩ := hround
  obtain ⟨cs, d, b₁, hwalk, rfl, -⟩ := matchName_walk (hn n le_rfl)
  intro l hl x hx
  have hmem : x ∈ dotted (characters c) :=
    List.mem_flatMap.mpr ⟨l.chars, List.mem_map_of_mem hl, List.mem_append_left _ hx⟩
  rw [← hlast] at hmem
  rcases Matching.mem_lastName_feedName _ cs x hmem with h | h | rfl
  · cases h
  · exact hwalk.steps.not_isPointer x h
  · decide

/-- **When a name is read as it was written.** None of its labels is empty, but the last, and none
holds a byte from `0xc0` on. -/
theorem roundTrips_iff {mem : Memory} {m : MDNS} (hm : MDNS.Reachable mem m) {out : Output}
    (hout : Written m out) {c : Chain} (hc : c ∈ m.labels) (hne : c ≠ [])
    (hroom : out.buffer.offset + (out.getWriteSize c).toNat ≤ bufferSize) (labels : List Chain)
    {limit : ℕ} (hlimit : (out.writeName c).buffer.offset ≤ limit) (hmax : limit ≤ bufferSize) :
    RoundTrips labels out c limit hmax ↔
      ∀ l ∈ c.dropLast, l.chars ≠ [] ∧ ∀ x ∈ l.chars, ¬isPointer x := by
  obtain ⟨hends, e, hname, he⟩ := exists_name hm hout hc hne hroom hlimit hmax
  have hnonzero : ∀ l ∈ leading c, ∀ x ∈ l, x ≠ 0 := by
    intro l hl
    obtain ⟨l', hl', rfl⟩ := List.mem_map.mp (hends.leading_subset hl)
    exact (hends.sound l' (List.dropLast_subset c hl')).nonzero
  have hplain : (∀ l ∈ c.dropLast, ∀ x ∈ l.chars, ¬isPointer x) →
      ∀ l ∈ leading c, ∀ x ∈ l, Plain x := by
    intro h l hl x hx
    obtain ⟨l', hl', rfl⟩ := List.mem_map.mp (hends.leading_subset hl)
    exact ⟨hnonzero _ hl x hx, h l' hl' x hx⟩
  constructor
  · intro hround
    have hpointer := hround.not_isPointer
    obtain ⟨r, b', ⟨n, hn⟩, hlast, -⟩ := hround
    obtain ⟨cs, d, b₁, hwalk, rfl, -⟩ := matchName_walk (hn n le_rfl)
    obtain ⟨c₁, b₂, ds, b₃, hnext, hrest, hds⟩ := hname.walk (hplain hpointer) rfl rfl
    obtain ⟨rfl, -⟩ := hwalk.unique (walk_cons hname.lt_limit.ne hnext hrest)
    have hdotted : dotted (leading c) = dotted (characters c) := by
      rw [← hlast, hds]
      exact (Matching.lastName_feedName (.start labels) _ hname.length_le).symm
    have hnonempty := hends.leading_eq_characters_iff.mp (hends.eq_of_dotted_eq hdotted)
    exact fun l hl ↦ ⟨hnonempty l hl, hpointer l hl⟩
  · intro h
    have heq := hends.leading_eq_characters_iff.mpr fun l hl ↦ (h l hl).1
    have hplain := hplain fun l hl ↦ (h l hl).2
    obtain ⟨c₁, b₁, cs, b', hnext, hrest, hcs⟩ := hname.walk hplain rfl rfl
    have hwalk := walk_cons hname.lt_limit.ne hnext hrest
    -- the place where the reader stops is the end of the name
    obtain ⟨f, hresumes, hzero⟩ := hname.resumes hplain
    obtain ⟨g, hg, -, hresumes'⟩ := Walk.resumes rfl rfl hname.lt_limit hnext hrest
    have hf : Final _ f := ⟨hzero ▸ not_isPointer_zero, .inl hzero⟩
    obtain rfl := hf.unique hg hresumes.reaches hresumes'.reaches
    refine ⟨_, _, hwalk.matchName labels, ?_, ?_⟩
    · rw [← heq, hcs]
      exact Matching.lastName_feedName (.start labels) _ hname.length_le
    · rw [← he heq]
      exact hresumes'.unique hf hresumes

/-! ### Accented and plain instances -/

/-- The service `_h._tcp.local` and an instance of it. -/
def instanceOf (inst : List UInt8) : Bool × MDNS :=
  (MDNS.new ampleMemory).setService ampleMemory [116, 99, 112] [104] 80 inst

theorem reachable_instanceOf (inst : List UInt8) : MDNS.Reachable ampleMemory (instanceOf inst).2 :=
  .setService .new _ _ _ _

theorem written_blankOutput (m : MDNS) : Written m blankOutput := .start rfl rfl fun _ _ _ _ ↦ rfl

/-- The instance `a` takes two bytes and a pointer, behind the service that was written first. -/
theorem plainInstance_offset_writeName :
    (((blankOutput.writeName (instanceOf [97]).2.service).writeName
        (instanceOf [97]).2.inst).buffer.offset =
      min ((blankOutput.writeName (instanceOf [97]).2.service).buffer.offset +
        ((blankOutput.writeName (instanceOf [97]).2.service).getWriteSize
          (instanceOf [97]).2.inst).toNat) bufferSize) ∧
    ((blankOutput.writeName (instanceOf [97]).2.service).buffer.offset +
        ((blankOutput.writeName (instanceOf [97]).2.service).getWriteSize
          (instanceOf [97]).2.inst).toNat ≤ bufferSize →
      ((blankOutput.writeName (instanceOf [97]).2.service).writeName
          (instanceOf [97]).2.inst).buffer.offset =
        (blankOutput.writeName (instanceOf [97]).2.service).buffer.offset +
          ((blankOutput.writeName (instanceOf [97]).2.service).getWriteSize
            (instanceOf [97]).2.inst).toNat) :=
  Written.offset_writeName (reachable_instanceOf [97])
    ((written_blankOutput _).name (MDNS.service_mem _)) (MDNS.inst_mem _)

/-- The instance `a` comes back, behind the service that was written first. -/
theorem plainInstance_roundTrips :
    RoundTrips [] (blankOutput.writeName (instanceOf [97]).2.service) (instanceOf [97]).2.inst 512
      le_rfl :=
  (roundTrips_iff (reachable_instanceOf [97]) ((written_blankOutput _).name (by simp [MDNS.labels]))
    (by simp [MDNS.labels]) (by decide) (by decide +kernel) [] (by decide +kernel) le_rfl).mpr
    (by decide +kernel)

/-- The instance `é` is accepted, and its first byte is taken for the first half of a pointer. -/
theorem accentedInstance_lost :
    (instanceOf [0xc3, 0xa9]).1 = true ∧
      ¬RoundTrips [] blankOutput (instanceOf [0xc3, 0xa9]).2.inst 512 le_rfl := by
  refine ⟨by decide +kernel, fun h ↦ ?_⟩
  exact h.not_isPointer _ List.mem_cons_self 0xc3 (by decide +kernel) (by decide)

end DuoFirmware.Mdns
