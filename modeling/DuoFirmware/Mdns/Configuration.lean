import DuoFirmware.Mdns.Emission
import DuoFirmware.Mdns.PlainNames

/-!
# Configurations

The configurations that the setters lead to, and what their chains of labels have in common: every
label was allocated once, behind a chain that was there before. A table with the chain of every
label that was allocated says this; a label's number tells which chain it begins, so that two names
with a label in common go on alike from there.
-/

namespace DuoFirmware.Mdns

/-! ## Labels -/

/-- A label as the setters make it. -/
structure Label.Sound (l : Label) : Prop where
  written : l.written = l.getSize :: l.chars
  length_chars : l.chars.length = l.getSize.toNat
  size_le : l.getSize.toNat ≤ 63
  nonzero : ∀ c ∈ l.chars, c ≠ 0

theorem Label.Sound.length_written {l : Label} (h : l.Sound) :
    l.written.length = l.getSize.toNat + 1 := by
  rw [h.written, List.length_cons, h.length_chars]

theorem Label.Sound.chars_eq_nil_iff {l : Label} (h : l.Sound) : l.chars = [] ↔ l.getSize = 0 := by
  rw [← List.length_eq_zero_iff, h.length_chars, ← UInt8.toNat_inj, UInt8.toNat_zero]

/-- The number of bytes of a chain. -/
def chainSize (label : Chain) : ℕ := (label.map (·.written.length)).sum

theorem chainSize_cons (l : Label) (label : Chain) :
    chainSize (l :: label) = l.written.length + chainSize label := by
  rw [chainSize, List.map_cons, List.sum_cons, chainSize]

/-- A name takes no more bytes than its chain and a pointer. -/
theorem Emission.nameSize_le (em : Emission) (label : Chain) :
    em.nameSize label ≤ chainSize label + 2 := by
  induction label with
  | nil => exact Nat.zero_le _
  | cons l label ih =>
    rw [nameSize, chainSize_cons]
    split <;> omega

/-- A chain that ends with its empty label. -/
inductive Ends : Chain → Prop
  | root {l : Label} (hsound : l.Sound) (h : l.getSize = 0) : Ends [l]
  | cons {l : Label} {label : Chain} (hsound : l.Sound) (hrest : Ends label) : Ends (l :: label)

theorem Ends.ne_nil {label : Chain} (h : Ends label) : label ≠ [] := by
  cases h with
  | root _ _ => exact List.cons_ne_nil _ _
  | cons _ _ => exact List.cons_ne_nil _ _

/-- The last label is empty. -/
theorem Ends.last {label : Chain} {l : Label} (h : Ends (label ++ [l])) : l.chars = [] := by
  induction label with
  | nil =>
    cases h with
    | root hsound hzero => exact hsound.chars_eq_nil_iff.mpr hzero
    | cons _ hrest => exact absurd rfl hrest.ne_nil
  | cons l' label ih =>
    rw [List.cons_append] at h
    generalize hrest' : label ++ [l] = rest at h
    cases h with
    | root _ _ => exact absurd hrest' (List.append_ne_nil_of_right_ne_nil _ (List.cons_ne_nil _ _))
    | cons _ hrest => exact ih (hrest' ▸ hrest)

theorem Ends.suffix {label rest : Chain} (h : Ends label) (hs : rest <:+ label) (hne : rest ≠ []) :
    Ends rest := by
  induction h with
  | @root l hsound hzero =>
    rcases List.suffix_cons_iff.mp hs with rfl | hs
    · exact .root hsound hzero
    · exact absurd (List.suffix_nil.mp hs) hne
  | @cons l label hsound hrest ih =>
    rcases List.suffix_cons_iff.mp hs with rfl | hs
    · exact .cons hsound hrest
    · exact ih hs

theorem Ends.sound {label : Chain} (h : Ends label) : ∀ l ∈ label, l.Sound := by
  induction h with
  | root hsound _ => exact List.forall_mem_singleton.mpr hsound
  | cons hsound _ ih => exact List.forall_mem_cons.mpr ⟨hsound, ih⟩

theorem nameSize_pos (em : Emission) {c : Chain} (h : Ends c) : 1 ≤ em.nameSize c := by
  obtain ⟨l, c, rfl⟩ := List.exists_cons_of_ne_nil h.ne_nil
  have hlength := (h.sound l List.mem_cons_self).length_written
  rw [Emission.nameSize]
  split <;> omega

theorem toNat_ofNat_of_le {n : ℕ} (h : n ≤ 63) : (UInt8.ofNat n).toNat = n := by
  rw [UInt8.toNat_ofNat']
  omega

/-- A label whose data is complete. -/
theorem Label.sound_of_data {l : Label} {name : List UInt8}
    (h : l.data = .ofNat name.length :: name) (hle : name.length ≤ 63)
    (hname : ∀ c ∈ name, c ≠ 0) : l.Sound := by
  have hsize : l.getSize = .ofNat name.length := by
    rw [getSize, byte, h]
    rfl
  have hnat : l.getSize.toNat = name.length := by rw [hsize, toNat_ofNat_of_le hle]
  have hchars : l.chars = name := by
    rw [chars, h, hnat]
    exact List.take_length
  have hsucc : (l.getSize + 1).toNat = name.length + 1 := by
    rw [UInt8.toNat_add, hnat]
    change (name.length + 1) % 256 = _
    omega
  refine ⟨?_, by rw [hchars, hnat], by rwa [hnat], by rwa [hchars]⟩
  rw [hsize, hchars, ← h, written, hsucc]
  refine List.ext_getElem (by rw [List.length_map, List.length_range, h, List.length_cons]) ?_
  intro i hi hi'
  rw [List.getElem_map, List.getElem_range, byte, List.getD_eq_getElem?_getD,
    List.getElem?_eq_getElem hi', Option.getD_some]

namespace MDNS

/-- A label is sound, whether there was memory for it or not. -/
theorem newLabel_sound (mem : Memory) (address : ℕ) {name : List UInt8} (caseSensitive : Bool)
    (hle : name.length ≤ 63) (hname : ∀ c ∈ name, c ≠ 0) :
    (newLabel mem address name caseSensitive).Sound := by
  cases hmalloc : mem.malloc address with
  | true =>
    have hdata : (newLabel mem address name caseSensitive).data = .ofNat name.length :: name := by
      rw [newLabel, hmalloc]
      rfl
    exact Label.sound_of_data hdata hle hname
  | false =>
    have hsize : (newLabel mem address name caseSensitive).getSize = 0 := by
      rw [newLabel, hmalloc]
      exact mem.nullData_zero
    have hchars : (newLabel mem address name caseSensitive).chars = [] := by
      rw [Label.chars, hsize]
      exact List.take_zero
    have hwritten : (newLabel mem address name caseSensitive).written = [0] := by
      rw [Label.written, hsize]
      change [(newLabel mem address name caseSensitive).getSize] = [0]
      rw [hsize]
    refine ⟨by rw [hwritten, hsize, hchars], by rw [hchars, hsize]; rfl, by rw [hsize]; decide, ?_⟩
    rw [hchars]
    exact fun _ h ↦ absurd h List.not_mem_nil

theorem newLabel_size_le (mem : Memory) (address : ℕ) (name : List UInt8) (caseSensitive : Bool)
    (hle : name.length ≤ 63) :
    (newLabel mem address name caseSensitive).getSize.toNat ≤ name.length := by
  cases hmalloc : mem.malloc address with
  | true =>
    have hsize : (newLabel mem address name caseSensitive).getSize = .ofNat name.length := by
      rw [newLabel, hmalloc]
      rfl
    rw [hsize, toNat_ofNat_of_le hle]
  | false =>
    have hsize : (newLabel mem address name caseSensitive).getSize = 0 := by
      rw [newLabel, hmalloc]
      exact mem.nullData_zero
    rw [hsize]
    exact Nat.zero_le _

@[simp] theorem newLabel_address (mem : Memory) (address : ℕ) (name : List UInt8)
    (caseSensitive : Bool) : (newLabel mem address name caseSensitive).address = address := rfl

theorem ne_zero_of_isAlphaDigitHyphen {string : List UInt8} (h : isAlphaDigitHyphen string) :
    ∀ c ∈ string, c ≠ 0 := by
  rintro c hc rfl
  exact absurd (List.all_eq_true.mp h 0 hc) (by decide)

theorem ne_zero_of_isNetUnicode {string : List UInt8} (h : isNetUnicode string) :
    ∀ c ∈ string, c ≠ 0 := by
  rintro c hc rfl
  exact absurd (List.all_eq_true.mp h 0 hc) (by decide)

end MDNS

/-! ## The labels that were allocated -/

/-- For the number of each label the chain that it begins. -/
abbrev Table := ℕ → Option Chain

/-- Every label lies before one that was allocated earlier, or is an empty one. -/
structure Table.Valid (table : Table) (fresh : ℕ) : Prop where
  lt : ∀ a c, table a = some c → a < fresh
  cons : ∀ a c, table a = some c → ∃ l rest, c = l :: rest ∧ l.address = a ∧ l.Sound ∧
    (rest = [] ∧ l.getSize = 0 ∨ ∃ b < a, table b = some rest)

namespace Table.Valid

variable {table : Table} {fresh : ℕ}

/-- One more label. -/
theorem push (h : table.Valid fresh) {l : Label} {b : ℕ} {c : Chain} (hl : l.address = fresh)
    (hsound : l.Sound) (hc : table b = some c) :
    Table.Valid (Function.update table fresh (some (l :: c))) (fresh + 1) := by
  have hkeep : ∀ a c', table a = some c' →
      Function.update table fresh (some (l :: c)) a = some c' := by
    intro a c' ha
    rw [Function.update_of_ne (h.lt a c' ha).ne, ha]
  constructor
  · intro a c' ha
    rcases eq_or_ne a fresh with rfl | hne
    · exact Nat.lt_succ_self a
    · rw [Function.update_of_ne hne] at ha
      exact Nat.lt_succ_of_lt (h.lt a c' ha)
  · intro a c' ha
    rcases eq_or_ne a fresh with rfl | hne
    · rw [Function.update_self] at ha
      cases ha
      exact ⟨l, c, rfl, hl, hsound, .inr ⟨b, h.lt b c hc, hkeep b c hc⟩⟩
    · rw [Function.update_of_ne hne] at ha
      obtain ⟨l', rest, rfl, hl', hsound', hrest⟩ := h.cons a c' ha
      refine ⟨l', rest, rfl, hl', hsound', hrest.imp_right ?_⟩
      rintro ⟨b', hlt, hb'⟩
      exact ⟨b', hlt, hkeep b' rest hb'⟩

theorem address_le (h : table.Valid fresh) {a : ℕ} {c : Chain} (hc : table a = some c) :
    ∀ l ∈ c, l.address ≤ a := by
  induction c generalizing a with
  | nil => exact fun _ hl ↦ absurd hl List.not_mem_nil
  | cons l c ih =>
    obtain ⟨_, _, heq, hl, -, hrest⟩ := h.cons a _ hc
    cases heq
    rw [List.forall_mem_cons]
    refine ⟨hl.le, ?_⟩
    rcases hrest with ⟨rfl, -⟩ | ⟨b, hlt, hb⟩
    · exact fun _ hl ↦ absurd hl List.not_mem_nil
    · exact fun l' hl' ↦ (ih hb l' hl').trans hlt.le

/-- The labels of a chain are different ones. -/
theorem nodup (h : table.Valid fresh) {a : ℕ} {c : Chain} (hc : table a = some c) :
    (c.map Label.address).Nodup := by
  induction c generalizing a with
  | nil => exact List.nodup_nil
  | cons l c ih =>
    obtain ⟨_, _, heq, hl, -, hrest⟩ := h.cons a _ hc
    cases heq
    rw [List.map_cons, List.nodup_cons]
    rcases hrest with ⟨rfl, -⟩ | ⟨b, hlt, hb⟩
    · exact ⟨List.not_mem_nil, List.nodup_nil⟩
    · refine ⟨fun hmem ↦ ?_, ih hb⟩
      obtain ⟨l', hl', heq⟩ := List.mem_map.mp hmem
      have := h.address_le hb l' hl'
      omega

theorem ne_nil (h : table.Valid fresh) {a : ℕ} {c : Chain} (hc : table a = some c) : c ≠ [] := by
  obtain ⟨_, _, rfl, -⟩ := h.cons a _ hc
  exact List.cons_ne_nil _ _

/-- A chain of the table ends with an empty label. -/
theorem ends (h : table.Valid fresh) {a : ℕ} {c : Chain} (hc : table a = some c) : Ends c := by
  induction c generalizing a with
  | nil => exact absurd rfl (h.ne_nil hc)
  | cons l c ih =>
    obtain ⟨_, _, heq, -, hsound, hrest⟩ := h.cons a _ hc
    cases heq
    rcases hrest with ⟨rfl, hsize⟩ | ⟨b, -, hb⟩
    · exact .root hsound hsize
    · exact .cons hsound (ih hb)

/-- A label's number tells how a chain goes on behind it. -/
theorem of_suffix (h : table.Valid fresh) {a : ℕ} {c : Chain} (hc : table a = some c) {l : Label}
    {rest : Chain} (hs : l :: rest <:+ c) : table l.address = some (l :: rest) := by
  induction c generalizing a with
  | nil => exact absurd (List.suffix_nil.mp hs) (List.cons_ne_nil _ _)
  | cons l' c ih =>
    obtain ⟨_, _, heq, rfl, -, hrest⟩ := h.cons a _ hc
    cases heq
    rcases List.suffix_cons_iff.mp hs with heq | hs
    · cases heq
      exact hc
    · rcases hrest with ⟨rfl, -⟩ | ⟨b, -, hb⟩
      · exact absurd (List.suffix_nil.mp hs) (List.cons_ne_nil _ _)
      · exact ih hb hs

end Table.Valid

/-! ## Reachable configurations -/

/-- A configuration that any calls of the setters lead to, whatever the memory answers. -/
inductive MDNS.Reachable (mem : Memory) : MDNS → Prop
  | new : MDNS.Reachable mem (MDNS.new mem)
  | setHostname {m : MDNS} (h : MDNS.Reachable mem m) (hostname : List UInt8) :
      MDNS.Reachable mem (m.setHostname mem hostname).2
  | setService {m : MDNS} (h : MDNS.Reachable mem m) (protocol service : List UInt8) (port : ℕ)
      (inst : List UInt8) : MDNS.Reachable mem (m.setService mem protocol service port inst).2
  | addTXTEntry {m : MDNS} (h : MDNS.Reachable mem m) {malloc : ℕ → Option (List UInt8)}
      {key value : List UInt8} {success : Bool} {txtData : TxtData}
      (hadd : m.txtData.addEntry malloc key value = some (success, txtData)) :
      MDNS.Reachable mem { m with txtData }

/-- The chains of a configuration are in a table. -/
structure MDNS.Valid (m : MDNS) (table : Table) : Prop where
  valid : table.Valid m.fresh
  localName : table 1 = some m.localName
  localSize : chainSize m.localName ≤ 7
  chains : ∀ c ∈ m.labels, c = [] ∨ ∃ a, table a = some c
  size : ∀ c ∈ m.labels, chainSize c ≤ 199

namespace MDNS

variable {mem : Memory} {m : MDNS} {table : Table}

/-- A new label behind a chain of the table, which may become one of the configuration's chains. -/
theorem Valid.push (h : m.Valid table) (mem : Memory) {name : List UInt8} (caseSensitive : Bool)
    (hle : name.length ≤ 63) (hname : ∀ c ∈ name, c ≠ 0) {b : ℕ} {c : Chain}
    (hc : table b = some c) (hsize : chainSize c ≤ 135) (m' : MDNS)
    (hfresh : m'.fresh = m.fresh + 1) (hlocal : m'.localName = m.localName)
    (hchains : ∀ d ∈ m'.labels, d ∈ m.labels ∨ d = newLabel mem m.fresh name caseSensitive :: c) :
    ∃ table', m'.Valid table' ∧ (∀ a d, table a = some d → table' a = some d) ∧
      table' m.fresh = some (newLabel mem m.fresh name caseSensitive :: c) := by
  have hkeep : ∀ a d, table a = some d →
      Function.update table m.fresh (some (newLabel mem m.fresh name caseSensitive :: c)) a =
        some d := by
    intro a d ha
    rw [Function.update_of_ne (h.valid.lt a d ha).ne, ha]
  have hsound := newLabel_sound mem m.fresh caseSensitive hle hname
  refine ⟨_, ⟨?_, ?_, hlocal ▸ h.localSize, ?_, ?_⟩, hkeep, Function.update_self _ _ _⟩
  · rw [hfresh]
    exact h.valid.push rfl hsound hc
  · rw [hlocal]
    exact hkeep 1 _ h.localName
  · intro d hd
    rcases hchains d hd with hd | rfl
    · exact (h.chains d hd).imp_right fun ⟨a, ha⟩ ↦ ⟨a, hkeep a d ha⟩
    · exact .inr ⟨m.fresh, Function.update_self _ _ _⟩
  · intro d hd
    rcases hchains d hd with hd | rfl
    · exact h.size d hd
    · have hle' := hsound.size_le
      rw [chainSize_cons, hsound.length_written]
      omega

theorem valid_new (mem : Memory) : ∃ table, (new mem).Valid table := by
  let root := newLabel mem 0 [] false
  let loc := newLabel mem 1 [108, 111, 99, 97, 108] false
  have hroot : root.Sound :=
    newLabel_sound mem 0 false (by decide) fun _ h ↦ absurd h List.not_mem_nil
  have hloc : loc.Sound :=
    newLabel_sound mem 1 false (by decide) (ne_zero_of_isAlphaDigitHyphen rfl)
  have hsize : root.getSize = 0 := by
    change (newLabel mem 0 [] false).getSize = 0
    rw [newLabel]
    cases mem.malloc 0 with
    | true => rfl
    | false => exact mem.nullData_zero
  let table : Table := fun a ↦ if a = 0 then some [root] else none
  have hvalid : table.Valid 1 := by
    constructor
    · intro a c hc
      by_contra hne
      rw [show table a = none from if_neg (by omega)] at hc
      cases hc
    · intro a c hc
      by_cases ha : a = 0
      · subst ha
        cases hc
        exact ⟨root, [], rfl, rfl, hroot, .inl ⟨rfl, hsize⟩⟩
      · rw [show table a = none from if_neg ha] at hc
        cases hc
  have hnil : ∀ c ∈ (new mem).labels, c = [] := by
    intro c hc
    simpa [labels, new] using hc
  refine ⟨_, hvalid.push (l := loc) rfl hloc (show table 0 = some [root] from rfl),
    Function.update_self 1 _ _, ?_, fun c hc ↦ .inl (hnil c hc), fun c hc ↦ ?_⟩
  · have hle := newLabel_size_le mem 1 [108, 111, 99, 97, 108] false (by decide)
    rw [List.length_cons] at hle
    change loc.written.length + (root.written.length + 0) ≤ 7
    rw [hloc.length_written, hroot.length_written, hsize]
    exact Nat.add_le_add_right hle 2
  · rw [hnil c hc]
    exact Nat.zero_le _

theorem Valid.setHostname (h : m.Valid table) (mem : Memory) (hostname : List UInt8) :
    ∃ table', (m.setHostname mem hostname).2.Valid table' := by
  rw [MDNS.setHostname]
  split
  · rename_i hok
    obtain ⟨hlt, hchars⟩ := hok
    obtain ⟨table', h', -⟩ := h.push mem false
      (by rw [maxLabelSize] at hlt; omega) (ne_zero_of_isAlphaDigitHyphen hchars) h.localName
      (h.localSize.trans (by decide))
      { m with host := newLabel mem m.fresh hostname false :: m.localName,
               fresh := m.fresh + 1 } rfl rfl (by
        intro d hd
        simp only [labels, List.mem_cons, List.not_mem_nil, or_false] at hd ⊢
        tauto)
    exact ⟨table', h'⟩
  · exact ⟨table, h⟩

theorem Valid.setInstance (h : m.Valid table) (mem : Memory) {inst : List UInt8}
    (hle : inst.length ≤ 63) (hchars : ∀ c ∈ inst, c ≠ 0) {b : ℕ}
    (hservice : table b = some m.service) (hsize : chainSize m.service ≤ 135) :
    ∃ table', (m.setInstance mem inst).2.Valid table' := by
  obtain ⟨table', h', -⟩ := h.push mem true hle hchars hservice hsize
    (m.setInstance mem inst).2 rfl rfl (by
      intro d hd
      simp only [labels, MDNS.setInstance, List.mem_cons, List.not_mem_nil, or_false] at hd ⊢
      tauto)
  exact ⟨table', h'⟩

theorem Valid.setServiceName (h : m.Valid table) (mem : Memory) {protoLabel : Label}
    {service inst : List UInt8} (hle : service.length ≤ 62) (hchars : ∀ c ∈ service, c ≠ 0)
    (hle' : inst.length ≤ 63) (hchars' : ∀ c ∈ inst, c ≠ 0) {b : ℕ}
    (hproto : table b = some (protoLabel :: m.localName))
    (hsize : chainSize (protoLabel :: m.localName) ≤ 71) :
    ∃ table', (m.setServiceName mem protoLabel service inst).2.Valid table' := by
  have hname : ∀ c ∈ (95 : UInt8) :: service, c ≠ 0 :=
    List.forall_mem_cons.mpr ⟨by decide, hchars⟩
  obtain ⟨table', h', -, hself⟩ := h.push mem false
    (by rw [List.length_cons]; omega) hname hproto (by omega)
    { m with service := newLabel mem m.fresh (95 :: service) false :: protoLabel :: m.localName,
             fresh := m.fresh + 1 } rfl rfl (by
      intro d hd
      simp only [labels, List.mem_cons, List.not_mem_nil, or_false] at hd ⊢
      tauto)
  rw [MDNS.setServiceName]
  split
  · refine h'.setInstance mem hle' hchars' hself ?_
    have hsound := newLabel_sound mem m.fresh false (by rw [List.length_cons]; omega) hname
    have hle := hsound.size_le
    rw [chainSize_cons, hsound.length_written]
    omega
  · exact ⟨table', h'⟩

theorem Valid.setServiceLabels (h : m.Valid table) (mem : Memory)
    {protocol service inst : List UInt8} (hle : protocol.length ≤ 62)
    (hchars : ∀ c ∈ protocol, c ≠ 0) (hle' : service.length ≤ 62) (hchars' : ∀ c ∈ service, c ≠ 0)
    (hle'' : inst.length ≤ 63) (hchars'' : ∀ c ∈ inst, c ≠ 0) :
    ∃ table', (m.setServiceLabels mem protocol service inst).2.Valid table' := by
  have hname : ∀ c ∈ (95 : UInt8) :: protocol, c ≠ 0 :=
    List.forall_mem_cons.mpr ⟨by decide, hchars⟩
  obtain ⟨table', h', -, hself⟩ := h.push mem false
    (by rw [List.length_cons]; omega) hname h.localName (h.localSize.trans (by decide))
    { m with fresh := m.fresh + 1 } rfl rfl fun d hd ↦ .inl hd
  rw [MDNS.setServiceLabels]
  split
  · refine h'.setServiceName mem hle' hchars' hle'' hchars'' hself ?_
    have hsound := newLabel_sound mem m.fresh false (by rw [List.length_cons]; omega) hname
    have hle := hsound.size_le
    have hlocal := h.localSize
    rw [chainSize_cons, hsound.length_written]
    change _ + 1 + chainSize m.localName ≤ 71
    omega
  · exact ⟨table', h'⟩

theorem Valid.setService (h : m.Valid table) (mem : Memory) (protocol service : List UInt8)
    (port : ℕ) (inst : List UInt8) :
    ∃ table', (m.setService mem protocol service port inst).2.Valid table' := by
  rw [MDNS.setService]
  split
  rename_i success m' heq
  split at heq
  · rename_i hok
    simp only [maxLabelSize] at hok
    obtain ⟨hp, hs, hi, hpc, hsc, hic⟩ := hok
    obtain ⟨table', h'⟩ := h.setServiceLabels mem (Nat.le_of_lt_succ (hp.trans (by decide)))
      (ne_zero_of_isAlphaDigitHyphen hpc) (Nat.le_of_lt_succ (hs.trans (by decide)))
      (ne_zero_of_isAlphaDigitHyphen hsc) hi.le (ne_zero_of_isNetUnicode hic)
    rw [heq] at h'
    exact ⟨table', h'.valid, h'.localName, h'.localSize, h'.chains, h'.size⟩
  · cases heq
    exact ⟨table, h.valid, h.localName, h.localSize, h.chains, h.size⟩

end MDNS

/-- Every reachable configuration has a table of its labels. -/
theorem MDNS.Reachable.valid {mem : Memory} {m : MDNS} (h : MDNS.Reachable mem m) :
    ∃ table, m.Valid table := by
  induction h with
  | new => exact MDNS.valid_new mem
  | setHostname _ hostname ih =>
    obtain ⟨table, hvalid⟩ := ih
    exact hvalid.setHostname mem hostname
  | setService _ protocol service port inst ih =>
    obtain ⟨table, hvalid⟩ := ih
    exact hvalid.setService mem protocol service port inst
  | addTXTEntry _ _ ih =>
    obtain ⟨table, hvalid⟩ := ih
    exact ⟨table, hvalid.valid, hvalid.localName, hvalid.localSize, hvalid.chains, hvalid.size⟩

/-! ## The labels of a configuration -/

namespace MDNS

variable {m : MDNS} {table : Table}

/-- The label belongs to a chain of the configuration. -/
def Known (m : MDNS) (a : ℕ) : Prop := ∃ c ∈ m.labels, ∃ l ∈ c, l.address = a

theorem known {c : Chain} (h : c ∈ m.labels) : ∀ l ∈ c, m.Known l.address :=
  fun l hl ↦ ⟨c, h, l, hl, rfl⟩

theorem Valid.nodup (h : m.Valid table) {c : Chain} (hc : c ∈ m.labels) :
    (c.map Label.address).Nodup := by
  rcases h.chains c hc with rfl | ⟨a, ha⟩
  · exact List.nodup_nil
  · exact h.valid.nodup ha

theorem Valid.ends (h : m.Valid table) {c : Chain} (hc : c ∈ m.labels) (hne : c ≠ []) : Ends c := by
  obtain ⟨a, ha⟩ := (h.chains c hc).resolve_left hne
  exact h.valid.ends ha

theorem Valid.of_suffix (h : m.Valid table) {c : Chain} (hc : c ∈ m.labels) {l : Label}
    {rest : Chain} (hs : l :: rest <:+ c) : table l.address = some (l :: rest) := by
  rcases h.chains c hc with rfl | ⟨a, ha⟩
  · exact absurd (List.suffix_nil.mp hs) (List.cons_ne_nil _ _)
  · exact h.valid.of_suffix ha hs

theorem exists_suffix {l : Label} {c : Chain} (h : l ∈ c) : ∃ rest, l :: rest <:+ c := by
  obtain ⟨before, rest, rfl⟩ := List.append_of_mem h
  exact ⟨rest, List.suffix_append before (l :: rest)⟩

/-- Two chains that have a label in common go on alike from there. -/
theorem Valid.rest_subset (h : m.Valid table) {c d : Chain} (hc : c ∈ m.labels)
    (hd : d ∈ m.labels) {l : Label} {rest : Chain} (hs : l :: rest <:+ c) (hl : l ∈ d) :
    rest ⊆ d := by
  obtain ⟨rest', hs'⟩ := exists_suffix hl
  have heq := (h.of_suffix hc hs).symm.trans (h.of_suffix hd hs')
  cases heq
  exact fun l' hl' ↦ hs'.subset (List.mem_cons_of_mem _ hl')

theorem Valid.address_inj (h : m.Valid table) {c d : Chain} (hc : c ∈ m.labels)
    (hd : d ∈ m.labels) {l l' : Label} (hl : l ∈ c) (hl' : l' ∈ d) (heq : l.address = l'.address) :
    l = l' := by
  obtain ⟨rest, hs⟩ := exists_suffix hl
  obtain ⟨rest', hs'⟩ := exists_suffix hl'
  have htable := h.of_suffix hc hs
  rw [heq, h.of_suffix hd hs'] at htable
  cases htable
  rfl

theorem host_mem (m : MDNS) : m.host ∈ m.labels := List.mem_cons_self

theorem service_mem (m : MDNS) : m.service ∈ m.labels :=
  List.mem_cons_of_mem _ List.mem_cons_self

theorem inst_mem (m : MDNS) : m.inst ∈ m.labels :=
  List.mem_cons_of_mem _ (List.mem_cons_of_mem _ List.mem_cons_self)

end MDNS

/-- The size of a name is not larger than what `getWriteSize` can return. -/
theorem Holds.toNat_getWriteSize {m : MDNS} {table : Table} {out : Output} {em : Emission}
    (h : Holds m.Known out em) (hm : m.Valid table) {c : Chain} (hc : c ∈ m.labels) :
    (out.getWriteSize c).toNat = em.nameSize c := by
  have hle := em.nameSize_le c
  have hsize := hm.size c hc
  rw [h.getWriteSize (MDNS.known hc)]
  omega

/-! ## Accepted calls -/

/-- A configuration that accepted calls of the setters lead to. -/
inductive MDNS.Configured (mem : Memory) : MDNS → Prop
  | new : MDNS.Configured mem (MDNS.new mem)
  | setHostname {m m' : MDNS} (h : MDNS.Configured mem m) {hostname : List UInt8}
      (hok : m.setHostname mem hostname = (true, m')) : MDNS.Configured mem m'
  | setService {m m' : MDNS} (h : MDNS.Configured mem m) {protocol service : List UInt8} {port : ℕ}
      {inst : List UInt8} (hok : m.setService mem protocol service port inst = (true, m')) :
      MDNS.Configured mem m'
  | addTXTEntry {m : MDNS} (h : MDNS.Configured mem m) {malloc : ℕ → Option (List UInt8)}
      {key value : List UInt8} {txtData : TxtData}
      (hok : m.txtData.addEntry malloc key value = some (true, txtData)) :
      MDNS.Configured mem { m with txtData }

/-- The labels that accepted calls lead to; only those for the host, for the instance and for the
domain may be empty. -/
structure MDNS.Shaped (m : MDNS) : Prop where
  localName : ∃ l r, m.localName = [l, r]
  host : m.host = [] ∨ ∃ h, m.host = h :: m.localName
  service : m.service = [] ∧ m.inst = [] ∨ ∃ i s p, s.chars ≠ [] ∧ p.chars ≠ [] ∧
    m.service = s :: p :: m.localName ∧ m.inst = i :: m.service
  txtSize : m.txtData.size < 65536

namespace MDNS

variable {mem : Memory} {m m' : MDNS}

theorem Configured.reachable (h : Configured mem m) : Reachable mem m := by
  induction h with
  | new => exact .new
  | @setHostname m m' _ hostname hok ih =>
    have hm := ih.setHostname hostname
    rwa [hok] at hm
  | @setService m m' _ protocol service port inst hok ih =>
    have hm := ih.setService protocol service port inst
    rwa [hok] at hm
  | addTXTEntry _ hok ih => exact ih.addTXTEntry hok

/-- A label that was accepted has as many characters as its name. -/
theorem chars_ne_nil (mem : Memory) (address : ℕ) {name : List UInt8} (caseSensitive : Bool)
    (hle : name.length ≤ 63) (hname : ∀ c ∈ name, c ≠ 0)
    (hsize : (newLabel mem address name caseSensitive).getSize.toNat = name.length)
    (hne : name ≠ []) : (newLabel mem address name caseSensitive).chars ≠ [] := by
  have hsound := newLabel_sound mem address caseSensitive hle hname
  rw [← List.length_pos_iff, hsound.length_chars, hsize]
  exact List.length_pos_iff.mpr hne

theorem Shaped.setHostname (h : m.Shaped) {hostname : List UInt8}
    (hok : m.setHostname mem hostname = (true, m')) : m'.Shaped := by
  rw [MDNS.setHostname] at hok
  split at hok
  · obtain rfl := congrArg Prod.snd hok
    exact ⟨h.localName, .inr ⟨_, rfl⟩, h.service, h.txtSize⟩
  · cases hok

theorem Shaped.setService (h : m.Shaped) {protocol service inst : List UInt8} {port : ℕ}
    (hok : m.setService mem protocol service port inst = (true, m')) : m'.Shaped := by
  rw [MDNS.setService] at hok
  split at hok
  rename_i success m₁ heq
  obtain ⟨rfl, rfl⟩ := Prod.mk.inj hok
  split at heq
  · rename_i hok
    obtain ⟨hp, hs, -, hpc, hsc, -⟩ := hok
    have hpname : ∀ c ∈ (95 : UInt8) :: protocol, c ≠ 0 :=
      List.forall_mem_cons.mpr ⟨by decide, ne_zero_of_isAlphaDigitHyphen hpc⟩
    have hsname : ∀ c ∈ (95 : UInt8) :: service, c ≠ 0 :=
      List.forall_mem_cons.mpr ⟨by decide, ne_zero_of_isAlphaDigitHyphen hsc⟩
    rw [maxLabelSize] at hp hs
    rw [setServiceLabels] at heq
    split at heq
    · rename_i hproto
      rw [setServiceName] at heq
      split at heq
      · rename_i hservice
        obtain rfl := congrArg Prod.snd heq
        refine ⟨h.localName, h.host, .inr ⟨_, _, _, ?_, ?_, rfl, rfl⟩, h.txtSize⟩
        · exact chars_ne_nil mem _ false (by rw [List.length_cons]; omega) hsname hservice
            (List.cons_ne_nil _ _)
        · exact chars_ne_nil mem _ false (by rw [List.length_cons]; omega) hpname hproto
            (List.cons_ne_nil _ _)
      · cases heq
    · cases heq
  · cases heq

theorem addEntry_size_lt {malloc : ℕ → Option (List UInt8)} {key value : List UInt8}
    {t t' : TxtData} {success : Bool}
    (h : t.addEntry malloc key value = some (success, t')) : t'.size < 65536 := by
  rw [TxtData.addEntry] at h
  split at h
  · obtain ⟨-, rfl⟩ := Prod.mk.inj (Option.some.inj h)
    exact Nat.mod_lt _ (by decide)
  · split at h
    · obtain ⟨-, rfl⟩ := Prod.mk.inj (Option.some.inj h)
      exact Nat.mod_lt _ (by decide)
    · cases h

theorem Configured.shaped (h : Configured mem m) : m.Shaped := by
  induction h with
  | new => exact ⟨⟨_, _, rfl⟩, .inl rfl, .inl ⟨rfl, rfl⟩, show 0 < 65536 by decide⟩
  | setHostname _ hok ih => exact ih.setHostname hok
  | setService _ hok ih => exact ih.setService hok
  | addTXTEntry _ hok ih => exact ⟨ih.localName, ih.host, ih.service, addEntry_size_lt hok⟩

end MDNS

/-- A memory that is never used up. -/
def ampleMemory : Memory := ⟨[], fun _ ↦ true, rfl⟩

/-- An answer of which nothing was written. -/
def blankOutput : Output := ⟨(Packet.ofBytes [] (by decide)).received, fun _ ↦ none⟩

end DuoFirmware.Mdns
