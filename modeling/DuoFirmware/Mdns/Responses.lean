import DuoFirmware.Lib.DnsMessage
import DuoFirmware.Mdns.PacketSize

/-!
# Well-formed answers

The header of an answer counts the records that follow, and each record gives the length of its
data; both are computed ahead. They are right for what `writeResponses` means to write, as long as
the empty label that ends a name is the only empty one in it, and the packet is this as long as the
buffer does not drop its end.
-/

namespace DuoFirmware.Mdns

open Divergence Program DnsMessage

/-! ## Names -/

/-- No label of the name is empty but the last. -/
def Filled (c : Chain) : Prop := ∀ l ∈ c.dropLast, l.chars ≠ []

instance : DecidablePred Filled :=
  fun c ↦ inferInstanceAs (Decidable (∀ l ∈ c.dropLast, l.chars ≠ []))

theorem behindName_zero (s : List UInt8) : behindName (0 :: s) = some s := by
  rw [behindName, if_pos rfl]

theorem behindName_written {l : Label} (hsound : l.Sound) (hne : l.chars ≠ []) (s : List UInt8) :
    behindName (l.written ++ s) = behindName s := by
  have hlength := hsound.length_chars
  rw [hsound.written, List.cons_append, behindName,
    if_neg fun h ↦ hne (hsound.chars_eq_nil_iff.mpr h), if_pos hsound.size_le,
    if_pos (by rw [List.length_append]; omega), ← hlength, List.drop_left]

theorem written_of_empty {l : Label} (hsound : l.Sound) (h : l.chars = []) : l.written = [0] := by
  rw [hsound.written, h, hsound.chars_eq_nil_iff.mp h]

/-- Whatever the offset is, a pointer has its two highest bits. -/
theorem exists_pointerBytes (w : ℕ) :
    ∃ a b : UInt8, pointerBytes w = [a, b] ∧ 192 ≤ a.toNat := by
  refine ⟨_, _, rfl, ?_⟩
  have hmod : (labelPointer.toNat * 256 ||| w) % 65536 = 49152 ||| w % 65536 :=
    Nat.or_mod_two_pow (n := 16)
  have hle : 49152 ≤ 49152 ||| w % 65536 := Nat.left_le_or
  rw [UInt8.toNat_ofNat']
  omega

theorem behindName_pointerBytes (w : ℕ) (s : List UInt8) :
    behindName (pointerBytes w ++ s) = some s := by
  obtain ⟨a, b, heq, ha⟩ := exists_pointerBytes w
  have hzero : a ≠ 0 := by
    rintro rfl
    exact absurd ha (by decide)
  rw [heq, List.cons_append, behindName, if_neg hzero, if_neg (by omega),
    if_pos ⟨ha, List.cons_ne_nil _ _⟩]
  rfl

namespace Ends

/-- A name whose labels are not empty is passed over as a whole. -/
theorem behindName_nameBytes {c : Chain} (hends : Ends c) (h : Filled c) (em : Emission)
    (s : List UInt8) : behindName (em.nameBytes c ++ s) = some s := by
  induction hends with
  | @root l hsound hsize =>
    rw [Emission.nameBytes]
    cases em.writeOffset l.address with
    | none =>
      rw [written_of_empty hsound (hsound.chars_eq_nil_iff.mpr hsize)]
      exact behindName_zero s
    | some w => exact behindName_pointerBytes w s
  | @cons l c hsound hrest ih =>
    rw [Filled, List.dropLast_cons_of_ne_nil hrest.ne_nil, List.forall_mem_cons] at h
    rw [Emission.nameBytes]
    cases em.writeOffset l.address with
    | none =>
      dsimp only
      rw [List.append_assoc, behindName_written hsound h.1]
      exact ih h.2
    | some w => exact behindName_pointerBytes w s

end Ends

/-! ## Empty labels -/

/-- Behind two empty labels there is nothing but the end of the name. -/
def Separated (c : Chain) : Prop :=
  ∀ l₁ l₂ l₃ rest, l₁ :: l₂ :: l₃ :: rest <:+ c → l₁.chars = [] → l₂.chars = [] → l₃.chars = []

/-- Bytes that no type begins with, even before a type. -/
def Strange (bs : List UInt8) : Prop :=
  ∀ x s, ∃ n r, number16 (bs ++ 0 :: x :: s) = some (n, r) ∧ n ∉ types

theorem strange_of_le {a b : UInt8} {s : List UInt8} (h : 1 ≤ a.toNat) : Strange (a :: b :: s) := by
  refine fun x s' ↦ ⟨_, _, rfl, ?_⟩
  simp only [types, List.mem_cons, List.not_mem_nil, or_false]
  omega

theorem strange_zero : Strange [0] := fun _ _ ↦ ⟨0, _, rfl, by decide⟩

theorem strange_pointerBytes (w : ℕ) : Strange (pointerBytes w) := by
  obtain ⟨a, b, heq, ha⟩ := exists_pointerBytes w
  rw [heq]
  exact strange_of_le (by omega)

/-- What stands in a packet behind an empty label is not the type of a record. -/
theorem strange_nameBytes {c : Chain} (hends : Ends c) {l : Label} (hl : l.chars = [])
    (h : Separated (l :: c)) (em : Emission) : Strange (em.nameBytes c) := by
  cases hends with
  | @root l' hsound hsize =>
    rw [Emission.nameBytes]
    cases em.writeOffset l'.address with
    | none =>
      dsimp only
      rw [written_of_empty hsound (hsound.chars_eq_nil_iff.mpr hsize)]
      exact strange_zero
    | some w => exact strange_pointerBytes w
  | @cons l' c hsound hrest =>
    rw [Emission.nameBytes]
    cases em.writeOffset l'.address with
    | some w => exact strange_pointerBytes w
    | none =>
      dsimp only
      by_cases hempty : l'.chars = []
      · -- the label behind it is empty, too, or was written before
        obtain ⟨l'', c, rfl⟩ := List.exists_cons_of_ne_nil hrest.ne_nil
        have hlast := h l l' l'' c List.suffix_rfl hl hempty
        rw [written_of_empty hsound hempty, Emission.nameBytes]
        cases em.writeOffset l''.address with
        | none =>
          dsimp only
          rw [written_of_empty (hrest.sound l'' List.mem_cons_self) hlast]
          exact fun x s ↦ ⟨0, _, rfl, by decide⟩
        | some w =>
          obtain ⟨a, b, heq, ha⟩ := exists_pointerBytes w
          dsimp only
          rw [heq]
          refine fun x s ↦ ⟨_, _, rfl, ?_⟩
          simp only [types, List.mem_cons, List.not_mem_nil, or_false, UInt8.toNat_zero]
          omega
      · obtain ⟨x, xs, hx⟩ := List.exists_cons_of_ne_nil hempty
        rw [hsound.written, hx]
        refine strange_of_le ?_
        rw [← hsound.length_chars, hx, List.length_cons]
        omega

section Names

variable {m : MDNS} {em : Emission} {s : Finset Label} {table : Table} {c : Chain}

/-- The labels that were written are not empty, but the last ones of names. -/
def Sane (m : MDNS) (s : Finset Label) : Prop :=
  ∀ c ∈ m.labels, ∀ l ∈ c.dropLast, l ∈ s → l.chars ≠ []

theorem Separated.suffix {d : Chain} (h : Separated c) (hd : d <:+ c) : Separated d :=
  fun l₁ l₂ l₃ rest hs ↦ h l₁ l₂ l₃ rest (hs.trans hd)

theorem Separated.cons {l : Label} (h : Separated c) (hl : ∀ l₂ l₃ rest, c = l₂ :: l₃ :: rest →
    l.chars = [] → l₂.chars = [] → l₃.chars = []) : Separated (l :: c) := by
  intro l₁ l₂ l₃ rest hs
  rcases List.suffix_cons_iff.mp hs with heq | hs
  · obtain ⟨rfl, hc⟩ := List.cons.inj heq
    exact hl l₂ l₃ rest hc.symm
  · exact h l₁ l₂ l₃ rest hs

theorem mem_dropLast_of_suffix {l : Label} {d : Chain} (hd : l :: d <:+ c) (hne : d ≠ []) :
    l ∈ c.dropLast := by
  obtain ⟨before, rfl⟩ := hd
  rw [List.dropLast_append_of_ne_nil (List.cons_ne_nil _ _), List.dropLast_cons_of_ne_nil hne]
  exact List.mem_append_right _ List.mem_cons_self

theorem dropLast_subset_of_suffix {d : Chain} (hd : d <:+ c) : d.dropLast ⊆ c.dropLast := by
  rcases eq_or_ne d [] with rfl | hne
  · exact List.nil_subset _
  · obtain ⟨before, rfl⟩ := hd
    rw [List.dropLast_append_of_ne_nil hne]
    exact List.subset_append_right _ _

theorem nameBytes_ne_nil (hends : Ends c) (em : Emission) : em.nameBytes c ≠ [] := by
  rw [← List.length_pos_iff, Emission.length_nameBytes]
  exact nameSize_pos em hends

theorem exists_suffix_of_mem_dropLast {l : Label} (h : l ∈ c.dropLast) :
    ∃ rest ≠ [], l :: rest <:+ c := by
  obtain ⟨before, rest, heq⟩ := List.append_of_mem h
  have hne : c ≠ [] := List.ne_nil_of_mem (List.dropLast_subset c h)
  refine ⟨rest ++ [c.getLast hne], List.append_ne_nil_of_right_ne_nil _ (List.cons_ne_nil _ _),
    before, ?_⟩
  rw [← List.cons_append, ← List.append_assoc, ← heq, List.dropLast_append_getLast]

/-- A name without empty labels is written. -/
theorem Sane.union (h : Sane m s) (hm : m.Valid table) (hc : c ∈ m.labels) (hfilled : Filled c) :
    Sane m (s ∪ c.toFinset) := by
  intro d hd l hl hmem
  rw [Finset.mem_union, List.mem_toFinset] at hmem
  rcases hmem with hmem | hmem
  · exact h d hd l hl hmem
  · obtain ⟨rest, hne, hs⟩ := exists_suffix_of_mem_dropLast hl
    obtain ⟨rest', hs'⟩ := MDNS.exists_suffix hmem
    have heq := (hm.of_suffix hd hs).symm.trans (hm.of_suffix hc hs')
    cases heq
    exact hfilled l (mem_dropLast_of_suffix hs' hne)

/-- A name with an empty label is not passed over as a whole. -/
theorem Wrote.behindName_nameBytes (h : Wrote m em s) (hm : m.Valid table) (hsane : Sane m s)
    (hc : c ∈ m.labels) (hseparated : Separated c) (hfilled : ¬Filled c) :
    ∃ bs ≠ [], Strange bs ∧ ∀ r, behindName (em.nameBytes c ++ r) = some (bs ++ r) := by
  have hsuffix : ∀ d, d <:+ c → ¬Filled d →
      ∃ bs ≠ [], Strange bs ∧ ∀ r, behindName (em.nameBytes d ++ r) = some (bs ++ r) := by
    intro d hd hfilled
    induction d with
    | nil => exact absurd (fun _ h ↦ absurd h List.not_mem_nil) hfilled
    | cons l d ih =>
      have hl := hd.subset List.mem_cons_self
      have hends := (hm.ends hc (List.ne_nil_of_mem hl)).suffix hd (List.cons_ne_nil _ _)
      have hsound := hends.sound l List.mem_cons_self
      -- the last label alone is filled, so there is one behind
      have hne : d ≠ [] := by
        rintro rfl
        exact hfilled fun _ h ↦ absurd h List.not_mem_nil
      have hrest := hends.suffix (List.suffix_cons l d) hne
      rw [Filled, List.dropLast_cons_of_ne_nil hne, List.forall_mem_cons, not_and_or,
        not_not] at hfilled
      have hwritten : em.writeOffset l.address = none := by
        by_contra hw
        have hls := (h.written c hc l hl).mp hw
        rcases hfilled with hempty | hfilled
        · exact hsane c hc l (mem_dropLast_of_suffix hd hne) hls hempty
        · refine hfilled fun l' hl' ↦ hsane c hc l' ?_ ?_
          · exact dropLast_subset_of_suffix ((List.suffix_cons l d).trans hd) hl'
          · exact h.closed c hc l d hd hls l' (List.dropLast_subset d hl')
      rw [Emission.nameBytes, hwritten]
      by_cases hempty : l.chars = []
      · refine ⟨em.nameBytes d, ?_, strange_nameBytes hrest hempty (hseparated.suffix hd) em,
          fun r ↦ ?_⟩
        · exact nameBytes_ne_nil hrest em
        · dsimp only
          rw [written_of_empty hsound hempty, List.append_assoc]
          exact behindName_zero _
      · obtain ⟨bs, hbs, hstrange, hbehind⟩ := ih ((List.suffix_cons l d).trans hd)
          (hfilled.resolve_left hempty)
        refine ⟨bs, hbs, hstrange, fun r ↦ ?_⟩
        dsimp only
        rw [List.append_assoc, behindName_written hsound hempty]
        exact hbehind r
  exact hsuffix c List.suffix_rfl hfilled

end Names

/-! ## Records -/

theorem number16_bytes16 {n : ℕ} (h : n < 65536) (s : List UInt8) :
    number16 (bytes16 n ++ s) = some (n, s) := by
  have hn : (UInt8.ofNat (n / 256)).toNat * 256 + (UInt8.ofNat n).toNat = n := by
    rw [UInt8.toNat_ofNat', UInt8.toNat_ofNat']
    omega
  change some (_, s) = some (n, s)
  rw [hn]

/-- The data of a record, with the bytes of the name in it. -/
def RecordForm.data (f : RecordForm) (name : List UInt8) : List UInt8 := f.before ++ name ++ f.after

namespace Emission

/-- The bytes of the name in a record's data. -/
def targetBytes (em : Emission) (f : RecordForm) : List UInt8 :=
  (em.emitHead f.name f.type f.ttl).nameBytes f.target

/-- The bytes of a record behind its name. -/
def fieldBytes (em : Emission) (f : RecordForm) : List UInt8 :=
  bytes16 f.type ++ (bytes16 1 ++ (bytes32 f.ttl ++
    (bytes16 (f.data (em.targetBytes f)).length ++ f.data (em.targetBytes f))))

def recordBytes (em : Emission) (f : RecordForm) : List UInt8 :=
  em.nameBytes f.name ++ em.fieldBytes f

theorem bytes_emitRecord (em : Emission) {f : RecordForm}
    (hname : (f.name.map Label.address).Nodup) (htarget : (f.target.map Label.address).Nodup) :
    (em.emitRecord f).bytes = em.bytes ++ em.recordBytes f := by
  have hsize : f.before.length + (em.emitHead f.name f.type f.ttl).nameSize f.target +
      f.after.length = (f.data (em.targetBytes f)).length := by
    rw [RecordForm.data, List.length_append, List.length_append, targetBytes, length_nameBytes]
  have hhead : (em.emitHead f.name f.type f.ttl).bytes =
      em.bytes ++ em.nameBytes f.name ++ (bytes16 f.type ++ bytes16 1 ++ bytes32 f.ttl) := by
    rw [emitHead, emit_bytes, bytes_emitName em hname]
  rw [emitRecord, emitData, hsize, emit_bytes, bytes_emitName _ htarget, nameBytes_emit,
    nameBytes_emit, emit_bytes, emit_bytes, hhead, recordBytes, fieldBytes, RecordForm.data,
    ← targetBytes]
  simp only [List.append_assoc]

/-- The bytes of records. -/
def recordsBytes (em : Emission) : List RecordForm → List UInt8
  | [] => []
  | f :: fs => em.recordBytes f ++ (em.emitRecord f).recordsBytes fs

end Emission

section Records

variable {mem : Memory} {m : MDNS} {ip : ℕ → UInt8} {em : Emission} {s : Finset Label}
  {table : Table}

theorem type_form (mem : Memory) (m : MDNS) (ip : ℕ → UInt8) (k : Kind) :
    (m.form mem ip k).type < 256 := by
  cases k <;> exact Nat.le_of_ble_eq_true rfl

/-- The data of a record is what its type says, if the name in it is passed over. -/
theorem fits_form (k : Kind) {name : List UInt8} (hname : (m.form mem ip k).target = [] → name = [])
    (hbehind : (m.form mem ip k).target ≠ [] → ∀ s, behindName (name ++ s) = some s)
    (hhost : m.host ≠ []) (hinst : m.inst ≠ []) :
    (Record.mk (m.form mem ip k).type 1 ((m.form mem ip k).data name)).fits = true := by
  cases k with
  | a =>
    rw [hname rfl]
    rfl
  | ptr =>
    change (behindName ([] ++ name ++ []) == some []) = true
    rw [List.nil_append, hbehind hinst []]
    rfl
  | srv =>
    change (decide (6 ≤ (bytes16 0 ++ bytes16 0 ++ bytes16 m.port ++ name ++ []).length) &&
      behindName (name ++ []) == some []) = true
    rw [hbehind hhost [], decide_eq_true (by simp only [List.length_append, length_bytes16]; omega)]
    rfl
  | txt => rfl
  | nsecHost =>
    have hrest : behindName ([] ++ name ++ [0, 1, 0x40]) = some [0, 1, 0x40] := by
      rw [List.nil_append, hbehind hhost]
    exact fits_nsec hrest (by decide) rfl
  | nsecInstance =>
    have hrest : behindName ([] ++ name ++ [0, 5, 0, 0, 0x80, 0, 0x40]) =
        some [0, 5, 0, 0, 0x80, 0, 0x40] := by
      rw [List.nil_append, hbehind hinst]
    exact fits_nsec hrest (by decide) rfl

/-- The data of a record is not what its type says, if something of another name is left over. -/
theorem not_fits_form (k : Kind) {name bs : List UInt8} (htarget : (m.form mem ip k).target ≠ [])
    (hname : (m.form mem ip k).target ≠ (m.form mem ip k).name) (hbs : bs ≠ [])
    (hbehind : ∀ s, behindName (name ++ s) = some (bs ++ s)) :
    (Record.mk (m.form mem ip k).type 1 ((m.form mem ip k).data name)).fits = false := by
  have hleft : (some (bs ++ []) == some []) = false := by
    rw [List.append_nil, beq_eq_false_iff_ne]
    exact fun h ↦ hbs (Option.some.inj h)
  cases k with
  | a => exact absurd rfl htarget
  | ptr =>
    change (behindName ([] ++ name ++ []) == some []) = false
    rw [List.nil_append, hbehind, hleft]
  | srv =>
    change (decide (6 ≤ (bytes16 0 ++ bytes16 0 ++ bytes16 m.port ++ name ++ []).length) &&
      behindName (name ++ []) == some []) = false
    rw [hbehind, hleft, Bool.and_false]
  | txt => exact absurd rfl htarget
  | nsecHost => exact absurd rfl hname
  | nsecInstance => exact absurd rfl hname

/-- The names of a record are names of the configuration. -/
theorem names_form (mem : Memory) (m : MDNS) (ip : ℕ → UInt8) (k : Kind) :
    ∀ c ∈ (m.form mem ip k).names, c ∈ m.labels := by
  rw [RecordForm.forall_names]
  cases k with
  | a => exact ⟨m.host_mem, fun h ↦ absurd rfl h⟩
  | ptr => exact ⟨m.service_mem, fun _ ↦ m.inst_mem⟩
  | srv => exact ⟨m.inst_mem, fun _ ↦ m.host_mem⟩
  | txt => exact ⟨m.inst_mem, fun h ↦ absurd rfl h⟩
  | nsecHost => exact ⟨m.host_mem, fun _ ↦ m.host_mem⟩
  | nsecInstance => exact ⟨m.inst_mem, fun _ ↦ m.inst_mem⟩

/-- The length of a record's data fits its field. -/
theorem length_data_lt (hm : m.Valid table) (htxt : m.txtData.size < 65536) (mem : Memory)
    (ip : ℕ → UInt8) (k : Kind) (em : Emission) :
    ((m.form mem ip k).data (em.targetBytes (m.form mem ip k))).length < 65536 := by
  have hhost := hm.size m.host m.host_mem
  have hinst := hm.size m.inst m.inst_mem
  rw [RecordForm.data, List.length_append, List.length_append, Emission.targetBytes,
    Emission.length_nameBytes]
  have hle := (em.emitHead (m.form mem ip k).name (m.form mem ip k).type
    (m.form mem ip k).ttl).nameSize_le (m.form mem ip k).target
  cases k with
  | a => exact Nat.le_of_ble_eq_true rfl
  | txt =>
    change ((List.range m.txtData.size).map _).length + 0 + 0 < 65536
    rwa [List.length_map, List.length_range]
  | ptr => exact lt_of_le_of_lt (Nat.add_le_add_right (Nat.add_le_add_left hle _) _) (by
      change 0 + (chainSize m.inst + 2) + 0 < 65536
      omega)
  | srv => exact lt_of_le_of_lt (Nat.add_le_add_right (Nat.add_le_add_left hle _) _) (by
      change 6 + (chainSize m.host + 2) + 0 < 65536
      omega)
  | nsecHost => exact lt_of_le_of_lt (Nat.add_le_add_right (Nat.add_le_add_left hle _) _) (by
      change 0 + (chainSize m.host + 2) + 3 < 65536
      omega)
  | nsecInstance => exact lt_of_le_of_lt (Nat.add_le_add_right (Nat.add_le_add_left hle _) _) (by
      change 0 + (chainSize m.inst + 2) + 7 < 65536
      omega)

/-- A record that is read as far as its data. -/
theorem record_recordBytes {f : RecordForm} (htype : f.type < 256)
    (hname : ∀ r, behindName (em.nameBytes f.name ++ r) = some r)
    (hlength : (f.data (em.targetBytes f)).length < 65536) (r : List UInt8) :
    record (em.recordBytes f ++ r) =
      if (Record.mk f.type 1 (f.data (em.targetBytes f))).fits then
        some (⟨f.type, 1, f.data (em.targetBytes f)⟩, r)
      else none := by
  have hfields : em.fieldBytes f ++ r = bytes16 f.type ++ (bytes16 1 ++ (bytes32 f.ttl ++
      (bytes16 (f.data (em.targetBytes f)).length ++ (f.data (em.targetBytes f) ++ r)))) := by
    simp only [Emission.fieldBytes, List.append_assoc]
  have hbehind : behindName (em.recordBytes f ++ r) = some (em.fieldBytes f ++ r) := by
    rw [Emission.recordBytes, List.append_assoc]
    exact hname _
  exact record_eq hbehind hfields (number16_bytes16 (by omega)) (number16_bytes16 (by omega)) rfl
    (number16_bytes16 hlength) rfl

/-- A record whose name has an empty label is not accepted. -/
theorem record_of_strange {f : RecordForm} (htype : f.type < 256) {bs : List UInt8}
    (hbs : Strange bs) (hname : ∀ r, behindName (em.nameBytes f.name ++ r) = some (bs ++ r))
    (r : List UInt8) : record (em.recordBytes f ++ r) = none := by
  have hzero : UInt8.ofNat (f.type / 256) = 0 := by
    rw [Nat.div_eq_of_lt htype]
    rfl
  obtain ⟨n, t, hn, htypes⟩ := hbs (.ofNat f.type) (bytes16 1 ++ (bytes32 f.ttl ++
    (bytes16 (f.data (em.targetBytes f)).length ++ f.data (em.targetBytes f))) ++ r)
  have hbehind : behindName (em.recordBytes f ++ r) = some (bs ++ (em.fieldBytes f ++ r)) := by
    rw [Emission.recordBytes, List.append_assoc]
    exact hname _
  have htype' : number16 (bs ++ (em.fieldBytes f ++ r)) = some (n, t) := by
    rw [← hn, ← hzero]
    rfl
  exact record_of_type hbehind htype' htypes

end Records

/-! ## Whole packets -/

/-- What a packet needs of the configuration. -/
structure MDNS.Complete (m : MDNS) (table : Table) : Prop where
  valid : m.Valid table
  ne_nil : ∀ c ∈ m.labels, c ≠ []
  separated : ∀ c ∈ m.labels, Separated c
  common : ∃ r, ∀ c ∈ m.labels, r ∈ c
  txtSize : m.txtData.size < 65536

section Packets

variable {mem : Memory} {m : MDNS} {ip : ℕ → UInt8} {em : Emission} {s : Finset Label}
  {table : Table}

/-- A record is accepted if its names have no empty label but the last. -/
theorem Wrote.decides_record (h : Wrote m em s) (hm : m.Complete table) (hsane : Sane m s)
    (mem : Memory) (ip : ℕ → UInt8) (k : Kind) :
    Decides record (em.recordBytes (m.form mem ip k))
      (∀ c ∈ (m.form mem ip k).names, Filled c) := by
  have hhost := hm.ne_nil _ m.host_mem
  have hinst := hm.ne_nil _ m.inst_mem
  have htype := type_form mem m ip k
  have hlength := length_data_lt hm.valid hm.txtSize mem ip k em
  have hnames := names_form mem m ip k
  have hname := hnames _ (m.form mem ip k).name_mem
  have hends := hm.valid.ends hname (hm.ne_nil _ hname)
  constructor
  · intro hfilled
    have hbehind := hends.behindName_nameBytes (hfilled _ (m.form mem ip k).name_mem) em
    refine ⟨_, fun r ↦ (record_recordBytes htype hbehind hlength r).trans (if_pos ?_)⟩
    refine fits_form k (fun htarget ↦ ?_) (fun htarget s ↦ ?_) hhost hinst
    · rw [Emission.targetBytes, htarget]
      rfl
    · have htarget := (m.form mem ip k).target_mem htarget
      exact (hm.valid.ends (hnames _ htarget) (hm.ne_nil _ (hnames _ htarget))).behindName_nameBytes
        (hfilled _ htarget) _ s
  · intro hfilled r
    by_cases hfilled' : Filled (m.form mem ip k).name
    · -- it is the name in the data
      rw [RecordForm.forall_names, and_iff_right hfilled', Classical.not_imp] at hfilled
      obtain ⟨hne, hempty⟩ := hfilled
      have hhead := (h.emitName hm.valid hname).emit
        (bytes16 (m.form mem ip k).type ++ bytes16 1 ++ bytes32 (m.form mem ip k).ttl)
      have htarget := hnames _ ((m.form mem ip k).target_mem hne)
      obtain ⟨bs, hbs, -, hbehind⟩ := hhead.behindName_nameBytes hm.valid
        (hsane.union hm.valid hname hfilled') htarget (hm.separated _ htarget) hempty
      have hrecord := record_recordBytes htype (hends.behindName_nameBytes hfilled' em) hlength r
      have hfits := not_fits_form k hne (fun heq ↦ hempty (heq ▸ hfilled')) hbs hbehind
      exact hrecord.trans (if_neg (by rw [Emission.targetBytes, Emission.emitHead, hfits]; decide))
    · obtain ⟨bs, -, hstrange, hbehind⟩ := h.behindName_nameBytes hm.valid hsane hname
        (hm.separated _ hname) hfilled'
      exact record_of_strange htype hstrange hbehind r

theorem Sane.union_names {cs : List Chain} (h : Sane m s) (hm : m.Valid table)
    (hcs : ∀ c ∈ cs, c ∈ m.labels) (hfilled : ∀ c ∈ cs, Filled c) :
    Sane m (s ∪ cs.flatten.toFinset) := by
  induction cs generalizing s with
  | nil => rwa [List.flatten_nil, List.toFinset_nil, Finset.union_empty]
  | cons c cs ih =>
    rw [List.forall_mem_cons] at hcs hfilled
    rw [List.flatten_cons, List.toFinset_append, ← Finset.union_assoc]
    exact ih (h.union hm hcs.1 hfilled.1) hcs.2 hfilled.2

/-- All names have no empty label but the last. -/
def AllFilled (fs : List RecordForm) : Prop := ∀ f ∈ fs, ∀ c ∈ f.names, Filled c

instance : DecidablePred AllFilled :=
  fun fs ↦ inferInstanceAs (Decidable (∀ f ∈ fs, ∀ c ∈ f.names, Filled c))

theorem allFilled_cons {f : RecordForm} {fs : List RecordForm} :
    AllFilled (f :: fs) ↔ (∀ c ∈ f.names, Filled c) ∧ AllFilled fs := List.forall_mem_cons

theorem allFilled_append {fs gs : List RecordForm} :
    AllFilled (fs ++ gs) ↔ AllFilled fs ∧ AllFilled gs := List.forall_mem_append

/-- Behind the records. -/
theorem Wrote.foldl (h : Wrote m em s) (hm : m.Complete table) (mem : Memory) (ip : ℕ → UInt8)
    (ks : List Kind) : ∃ s', Wrote m ((ks.map (m.form mem ip)).foldl Emission.emitRecord em) s' ∧
      (Sane m s → AllFilled (ks.map (m.form mem ip)) → Sane m s') := by
  induction ks generalizing em s with
  | nil => exact ⟨s, h, fun hsane _ ↦ hsane⟩
  | cons k ks ih =>
    have hnames := names_form mem m ip k
    obtain ⟨s', hs', hsane'⟩ := ih (h.emitRecord hm.valid hnames)
    refine ⟨s', hs', fun hsane hall ↦ ?_⟩
    rw [List.map_cons, allFilled_cons] at hall
    exact hsane' (hsane.union_names hm.valid hnames hall.1) hall.2

/-- Records are accepted if no name in them has an empty label but the last. -/
theorem Wrote.decides_records (h : Wrote m em s) (hm : m.Complete table) (hsane : Sane m s)
    (mem : Memory) (ip : ℕ → UInt8) (ks : List Kind) :
    Decides (records ks.length) (em.recordsBytes (ks.map (m.form mem ip)))
      (AllFilled (ks.map (m.form mem ip))) := by
  induction ks generalizing em s with
  | nil => exact (Decides.pure []).iff (iff_of_true trivial fun _ h ↦ absurd h List.not_mem_nil)
  | cons k ks ih =>
    have hnames := names_form mem m ip k
    have hk := h.emitRecord hm.valid hnames
    exact (decides_records_succ (h.decides_record hm hsane mem ip k) fun hfilled ↦
      ih hk (hsane.union_names hm.valid hnames hfilled)).iff allFilled_cons.symm

theorem bytes_foldl (hm : m.Valid table) {fs : List RecordForm}
    (hnames : ∀ f ∈ fs, ∀ c ∈ f.names, c ∈ m.labels) (em : Emission) :
    (fs.foldl Emission.emitRecord em).bytes = em.bytes ++ em.recordsBytes fs := by
  induction fs generalizing em with
  | nil => exact (List.append_nil _).symm
  | cons f fs ih =>
    rw [List.forall_mem_cons] at hnames
    have hname := hm.nodup (hnames.1 f.name f.name_mem)
    have htarget : (f.target.map Label.address).Nodup := by
      by_cases hne : f.target = []
      · rw [hne]
        exact List.nodup_nil
      · exact hm.nodup (hnames.1 f.target (f.target_mem hne))
    rw [List.foldl_cons, ih hnames.2, Emission.bytes_emitRecord em hname htarget,
      Emission.recordsBytes, List.append_assoc]

theorem recordsBytes_append (em : Emission) (fs gs : List RecordForm) :
    em.recordsBytes (fs ++ gs) =
      em.recordsBytes fs ++ (fs.foldl Emission.emitRecord em).recordsBytes gs := by
  induction fs generalizing em with
  | nil => rfl
  | cons f fs ih =>
    rw [List.cons_append, Emission.recordsBytes, Emission.recordsBytes, ih, List.foldl_cons,
      List.append_assoc]

/-- The header counts the records behind it. -/
theorem message_header (responses : UInt16) (bytes : List UInt8) :
    message (header responses ++ bytes) = sections (Kind.flagged responses).length 0
      (Kind.flagged (responses >>> 6)).length bytes := by
  have hle : ∀ r, (Kind.flagged r).length < 65536 := fun r ↦
    (List.length_filter_le _ _).trans_lt (by decide)
  simp only [header, List.append_assoc]
  exact message_eq (number16_bytes16 (by decide) _) (number16_bytes16 (by decide) _)
    (number16_bytes16 (by decide) _) (number16_bytes16 (hle _) _)
    (number16_bytes16 (by decide) _) (number16_bytes16 (hle _) _)

/-- **What `writeResponses` means to write.** It is a message if no name in it has an empty label
but the last. -/
theorem decides_emission (hm : m.Complete table) (mem : Memory) (ip : ℕ → UInt8)
    (responses : UInt16) : Decides message (m.emission mem ip responses).bytes
      (AllFilled (m.forms mem ip responses)) := by
  set r := MDNS.withoutRepeated responses with hr
  have hempty : Wrote m (Emission.empty.emit (header r)) ∅ := .empty m _
  have hsane : Sane m ∅ := fun _ _ _ _ h ↦ absurd h (Finset.notMem_empty _)
  have hanswers := hempty.decides_records hm hsane mem ip (Kind.flagged r)
  obtain ⟨s', hs', hsane'⟩ := hempty.foldl hm mem ip (Kind.flagged r)
  have hsections := decides_sections hanswers fun hfilled ↦
    hs'.decides_records hm (hsane' hsane hfilled) mem ip (Kind.flagged (r >>> 6))
  have hnames : ∀ f ∈ m.forms mem ip responses, ∀ c ∈ f.names, c ∈ m.labels :=
    List.forall_mem_map.mpr fun k _ ↦ names_form mem m ip k
  have hbytes : (m.emission mem ip responses).bytes = header r ++ _ :=
    bytes_foldl hm.valid hnames _
  rw [hbytes, MDNS.forms, List.map_append, recordsBytes_append, allFilled_append]
  constructor
  · intro h
    obtain ⟨a, ha⟩ := hsections.accepts h
    refine ⟨a, fun t ↦ ?_⟩
    rw [List.append_assoc, message_header]
    exact ha t
  · intro h t
    rw [List.append_assoc, message_header]
    exact hsections.refuses h t

theorem length_emission (hm : m.Complete table) (mem : Memory) (ip : ℕ → UInt8)
    (responses : UInt16) :
    (m.emission mem ip responses).bytes.length = m.packetSize mem ip responses := by
  have hnames : ∀ f ∈ m.forms mem ip responses, ∀ c ∈ f.names, c ∈ m.labels :=
    List.forall_mem_map.mpr fun k _ ↦ names_form mem m ip k
  obtain ⟨r, hr⟩ := hm.common
  have hr' : ∀ c ∈ (m.forms mem ip responses).flatMap RecordForm.names, r ∈ c := by
    intro c hc
    obtain ⟨f, hf, hc⟩ := List.mem_flatMap.mp hc
    exact hr c (hnames f hf c hc)
  rw [MDNS.emission, (Wrote.empty m _).length_foldl hm.valid hnames, namesCost_empty hr',
    MDNS.packetSize, ← Nat.add_assoc]
  rfl

/-- The bytes that are sent are the ones there is room for. -/
theorem Holds.sent {known : ℕ → Prop} {out : Output} (h : Holds known out em) :
    out.buffer.sent = em.bytes.take bufferSize := by
  rw [Buffer.sent, h.offset]
  refine List.ext_getElem ?_ fun i hi hi' ↦ ?_
  · rw [List.length_map, List.length_range, List.length_take, Nat.min_comm]
  · rw [List.length_take] at hi'
    rw [List.getElem_map, List.getElem_range, List.getElem_take]
    exact h.data i _ (List.getElem?_eq_getElem (by omega)) (by omega)

/-- What is sent is a message if it is complete and no name in it has an empty label but the
last. -/
theorem wellFormed_sent (hm : m.Complete table) (mem : Memory) (ip : ℕ → UInt8) {responses : UInt16}
    (hlt : responses.toNat < 4096) {out : Output} (hsize : out.buffer.size = bufferSize)
    (hoffset : out.buffer.offset = 0) :
    WellFormed (m.writeResponses mem ip responses out).buffer.sent ↔
      AllFilled (m.forms mem ip responses) ∧ m.packetSize mem ip responses ≤ bufferSize := by
  have hholds := Holds.writeResponses mem ip hm.valid (hm.ne_nil _ m.host_mem)
    (hm.ne_nil _ m.inst_mem) hsize hoffset hlt
  rw [hholds.sent, ← length_emission hm]
  exact (decides_emission hm mem ip responses).take_iff local_message bufferSize

end Packets

/-! ## Accepted configurations and masks -/

namespace MDNS

variable {mem : Memory} {m : MDNS}

/-- A configuration with a host and a service. -/
theorem Configured.complete (h : Configured mem m) (hhost : m.host ≠ [])
    (hservice : m.service ≠ []) : ∃ table, m.Complete table := by
  obtain ⟨table, hm⟩ := h.reachable.valid
  obtain ⟨⟨l, r, hlocal⟩, hhost', hservice', htxt⟩ := h.shaped
  obtain ⟨h, hhost'⟩ := hhost'.resolve_left hhost
  obtain ⟨i, s, p, hs, hp, hservice', hinst⟩ := hservice'.resolve_left fun h ↦ hservice h.1
  rw [hlocal] at hhost' hservice'
  rw [hservice'] at hinst
  have hr : r.chars = [] := by
    have hends := hm.ends m.host_mem hhost
    rw [hhost'] at hends
    exact Ends.last (show Ends ([h, l] ++ [r]) from hends)
  have hdomain : Separated [l, r] := fun _ _ _ _ hs ↦ by
    have hle := hs.length_le
    simp only [List.length_cons, List.length_nil] at hle
    omega
  have hseparated : Separated [s, p, l, r] :=
    (hdomain.cons fun _ _ _ _ hempty ↦ absurd hempty hp).cons fun _ _ _ _ hempty ↦
      absurd hempty hs
  refine ⟨table, hm, ?_, ?_, ⟨r, ?_⟩, htxt⟩
  · simp [labels, hhost', hservice', hinst]
  · simp only [labels, List.forall_mem_cons]
    refine ⟨?_, ?_, ?_, fun _ h ↦ absurd h List.not_mem_nil⟩
    · rw [hhost']
      refine hdomain.cons fun l₂ l₃ rest heq _ _ ↦ ?_
      cases heq
      exact hr
    · rwa [hservice']
    · rw [hinst]
      refine hseparated.cons fun l₂ l₃ rest heq _ hempty ↦ ?_
      cases heq
      exact absurd hempty hs
  · simp [labels, hhost', hservice', hinst]

end MDNS

/-- A mask that `getResponses` returns, whatever the packet and the names found in it are. -/
def Answered (responses : UInt16) : Prop :=
  ∃ malloc answers rounds b q b',
    getResponses malloc answers rounds b = (some q, b') ∧ q.responses = responses

theorem answered_of_run {malloc : Bool} {answers : ℕ → Program Buffer Match} {rounds : ℕ}
    {b : Buffer} {responses : UInt16}
    (h : (getResponses malloc answers rounds b).1.map QuerySet.responses = some responses) :
    Answered responses := by
  rcases hrun : getResponses malloc answers rounds b with ⟨_ | q, b'⟩
  · rw [hrun] at h
    cases h
  · rw [hrun] at h
    exact ⟨malloc, answers, rounds, b, q, b', hrun, Option.some.inj h⟩

theorem responsesTo_lt (matchedName : ℤ) (type : ℕ) :
    (responsesTo matchedName type).toNat < 2 ^ 12 := by
  rw [responsesTo]
  repeat' split
  all_goals decide

theorem respond_lt {s : Answering} (h : s.responses.toNat < 2 ^ 12) (qdcount : ℕ)
    (matchedName : ℤ) (type : ℕ) :
    (s.respond qdcount matchedName type).responses.toNat < 2 ^ 12 := by
  rw [Answering.respond]
  split
  · change (s.responses ||| responsesTo matchedName type).toNat < 2 ^ 12
    rw [UInt16.toNat_or]
    exact Nat.or_lt_two_pow h (responsesTo_lt matchedName type)
  · split
    · exact h
    · exact h

theorem question_lt {answer : Program Buffer Match} {qdcount : ℕ} {s s' : Answering}
    (h : s.responses.toNat < 2 ^ 12) {b b' : Buffer}
    (hrun : question answer qdcount s b = (some s', b')) : s'.responses.toNat < 2 ^ 12 := by
  obtain ⟨m, b₁, -, hrest⟩ := bind_eq_some hrun
  obtain ⟨type, b₂, -, hrest⟩ := bind_eq_some hrest
  obtain ⟨_, b₃, -, hrest⟩ := bind_eq_some hrest
  cases hrest
  exact respond_lt h qdcount m.nameIndex type

theorem questionLoop_lt {answers : ℕ → Program Buffer Match} {qdcount rounds asked : ℕ}
    {s s' : Answering} (h : s.responses.toNat < 2 ^ 12) {b b' : Buffer}
    (hrun : questionLoop answers qdcount rounds asked s b = (some s', b')) :
    s'.responses.toNat < 2 ^ 12 := by
  induction rounds generalizing asked s b with
  | zero =>
    rw [questionLoop] at hrun
    split at hrun
    · cases hrun
    · cases hrun
      exact h
  | succ rounds ih =>
    rw [questionLoop] at hrun
    split at hrun
    · obtain ⟨s₁, b₁, hquestion, hrest⟩ := bind_eq_some hrun
      exact ih (question_lt (s := s.increment) h hquestion) hrest
    · cases hrun
      exact h

/-- Before the questions are read no flag is set. -/
theorem readHeader_responses {malloc : Bool} {b b' : Buffer} {header : Bool × QuerySet}
    (hrun : QuerySet.readHeader malloc {} b = (some header, b')) : header.2.responses = 0 := by
  obtain ⟨more, b₁, -, hrest⟩ := bind_eq_some hrun
  split at hrest
  · obtain ⟨q, b₂, hfields, hrest⟩ := bind_eq_some hrest
    cases hrest
    obtain ⟨id, b₃, -, hfields⟩ := bind_eq_some hfields
    obtain ⟨flags, b₄, -, hfields⟩ := bind_eq_some hfields
    obtain ⟨qdcount, b₅, -, hfields⟩ := bind_eq_some hfields
    obtain ⟨ancount, b₆, -, hfields⟩ := bind_eq_some hfields
    obtain ⟨nscount, b₇, -, hfields⟩ := bind_eq_some hfields
    obtain ⟨arcount, b₈, -, hfields⟩ := bind_eq_some hfields
    cases hfields
    rfl
  · cases hrest
    rfl

/-- The flags of a mask are those of answers and of additional records. -/
theorem Answered.lt {responses : UInt16} (h : Answered responses) : responses.toNat < 4096 := by
  obtain ⟨malloc, answers, rounds, b, q, b', hrun, rfl⟩ := h
  obtain ⟨header, b₁, hheader, hrest⟩ := bind_eq_some hrun
  have hzero := readHeader_responses hheader
  split at hrest
  · split at hrest
    · obtain ⟨s, b₂, hloop, hrest⟩ := bind_eq_some hrest
      cases hrest
      exact questionLoop_lt (s := ⟨0, 0, header.2.status⟩) (Nat.two_pow_pos 12) hloop
    · cases hrest
      rw [hzero]
      decide
  · cases hrest
    change header.2.responses.toNat < 4096
    rw [hzero]
    decide

/-! ## The claim of the header -/

/-- The host `a.local`. -/
def named : MDNS := ((MDNS.new ampleMemory).setHostname ampleMemory [97]).2

/-- The host with the service `_h._tcp.local`. -/
def advertised : MDNS := (named.setService ampleMemory [116, 99, 112] [104] 80 [97]).2

theorem configured_advertised : advertised.Configured ampleMemory := by
  have hhost : (MDNS.new ampleMemory).setHostname ampleMemory [97] = (true, named) := rfl
  have hservice : named.setService ampleMemory [116, 99, 112] [104] 80 [97] =
      (true, advertised) := rfl
  exact (MDNS.Configured.new.setHostname hhost).setService hservice

/-- A question for the service. -/
def serviceQuery : Packet :=
  .ofBytes [0, 0, 0, 0, 0, 1, 0, 0, 0, 0, 0, 0, 2, 95, 104, 4, 95, 116, 99, 112, 5, 108, 111, 99,
    97, 108, 0, 0, 12, 0, 1] (by decide)

/-- The answer to it. -/
def serviceResponses : UInt16 :=
  ptrFlag ||| additional srvFlag ||| additional txtFlag ||| additional aFlag

theorem answered_serviceResponses : Answered serviceResponses := by
  have hrun : (getResponses true (fun _ ↦ matchName advertised.labels 32) 1
      serviceQuery.received).1.map QuerySet.responses = some serviceResponses := by
    decide +kernel
  exact answered_of_run hrun

/-- A text of 255 bytes is added. -/
def longEntry (t : TxtData) : Option (Bool × TxtData) :=
  t.addEntry (fun n ↦ some (List.replicate n 0)) (List.replicate 127 97) (List.replicate 126 97)

theorem exists_longEntry {t : TxtData} (h : t.size ≤ 1024) :
    ∃ t', longEntry t = some (true, t') ∧ t'.size = t.size + 255 := by
  have hlength : (List.replicate 127 (97 : UInt8)).length < 256 ∧
      (List.replicate 126 (97 : UInt8)).length < 256 := by
    simp
  have hsize : TxtData.addedSize (List.replicate 127 97) (List.replicate 126 97) = 255 := by
    simp [TxtData.addedSize]
  rw [longEntry, TxtData.addEntry]
  dsimp only
  rw [if_pos hlength, hsize]
  exact ⟨_, rfl, Nat.mod_eq_of_lt (by omega)⟩

/-- The texts take at least their size. -/
theorem size_le_packetSize (mem : Memory) (m : MDNS) (ip : ℕ → UInt8) {responses : UInt16}
    (h : Kind.txt ∈ Kind.flagged (MDNS.withoutRepeated responses) ++
      Kind.flagged (MDNS.withoutRepeated responses >>> 6)) :
    22 + m.txtData.size ≤ m.packetSize mem ip responses := by
  have hmem : (m.form mem ip .txt).size ∈ (m.forms mem ip responses).map RecordForm.size :=
    List.mem_map_of_mem (List.mem_map_of_mem h)
  have hle := List.le_sum_of_mem hmem
  have hsize : (m.form mem ip .txt).size = 10 + m.txtData.size := by
    change 10 + ((List.range m.txtData.size).map _).length + 0 = _
    rw [List.length_map, List.length_range, Nat.add_zero]
  rw [MDNS.packetSize]
  omega

end DuoFirmware.Mdns
