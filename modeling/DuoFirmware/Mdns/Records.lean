import DuoFirmware.Mdns.Configuration
import Mathlib.Algebra.BigOperators.Group.Finset.Basic
import Mathlib.Data.Nat.Bitwise

/-!
# The records of an answer

All records are written in one form: a name, the type, the class and the time to live, and behind
the length of the data the data itself, which holds at most one other name. What `writeResponses`
writes is the header and then the forms of the flags that are set, one after the other; and how many
bytes this takes is known from the labels in these forms, because every label is written once and
every name but the first ends in a pointer.
-/

namespace DuoFirmware.Mdns

/-! ## Forms -/

/-- What a flag stands for. -/
inductive Kind
  | a
  | ptr
  | srv
  | txt
  | nsecHost
  | nsecInstance
  deriving DecidableEq, Repr

namespace Kind

/-- In the order in which they are written. -/
def all : List Kind := [.a, .ptr, .srv, .txt, .nsecHost, .nsecInstance]

def flag : Kind → UInt16
  | .a => aFlag
  | .ptr => ptrFlag
  | .srv => srvFlag
  | .txt => txtFlag
  | .nsecHost => nsecHostFlag
  | .nsecInstance => nsecInstanceFlag

/-- The flags among the lowest six that are set. -/
def flagged (responses : UInt16) : List Kind := all.filter fun k ↦ responses &&& k.flag ≠ 0

end Kind

/-- What is written for a record; the target is the name in its data, if there is one. -/
structure RecordForm where
  name : Chain
  type : ℕ
  ttl : ℕ
  before : List UInt8
  target : Chain
  after : List UInt8

namespace RecordForm

/-- The names that are written. -/
def names (f : RecordForm) : List Chain := if f.target = [] then [f.name] else [f.name, f.target]

theorem name_mem (f : RecordForm) : f.name ∈ f.names := by
  rw [names]
  split
  · exact List.mem_cons_self
  · exact List.mem_cons_self

theorem target_mem (f : RecordForm) (h : f.target ≠ []) : f.target ∈ f.names := by
  rw [names, if_neg h]
  exact List.mem_cons_of_mem _ List.mem_cons_self

theorem forall_names {f : RecordForm} {P : Chain → Prop} :
    (∀ c ∈ f.names, P c) ↔ P f.name ∧ (f.target ≠ [] → P f.target) := by
  rw [names]
  split
  · rename_i h
    rw [List.forall_mem_singleton]
    exact (and_iff_left fun hne ↦ absurd h hne).symm
  · rename_i h
    rw [List.forall_mem_cons, List.forall_mem_singleton]
    exact and_congr_right' ⟨fun ht _ ↦ ht, fun ht ↦ ht h⟩

/-- The number of bytes beside the names. -/
def size (f : RecordForm) : ℕ := 10 + f.before.length + f.after.length

end RecordForm

namespace MDNS

variable (mem : Memory) (m : MDNS) (ip : ℕ → UInt8)

def form : Kind → RecordForm
  | .a => ⟨m.host, aType, MDNS.ttl2Min, (List.range 4).map ip, [], []⟩
  | .ptr => ⟨m.service, ptrType, ttl75Min, [], m.inst, []⟩
  | .srv => ⟨m.inst, srvType, ttl2Min, bytes16 0 ++ bytes16 0 ++ bytes16 m.port, m.host, []⟩
  | .txt => ⟨m.inst, txtType, ttl75Min,
      (List.range m.txtData.size).map (m.txtData.byte mem.nullData), [], []⟩
  | .nsecHost => ⟨m.host, nsecType, ttl2Min, [], m.host, [0, 1, 0x40]⟩
  | .nsecInstance => ⟨m.inst, nsecType, ttl2Min, [], m.inst, [0, 5, 0, 0, 0x80, 0, 0x40]⟩

/-- The forms of the flags of a mask, first of the answers and then of the additional records. -/
def forms (responses : UInt16) : List RecordForm :=
  (Kind.flagged (withoutRepeated responses) ++
    Kind.flagged (withoutRepeated responses >>> 6)).map (m.form mem ip)

end MDNS

/-! ## What a form is written as -/

namespace Emission

/-- The bytes that a name takes. -/
def nameBytes (em : Emission) : Chain → List UInt8
  | [] => []
  | l :: label =>
    match em.writeOffset l.address with
    | none => l.written ++ em.nameBytes label
    | some w => pointerBytes w

theorem length_nameBytes (em : Emission) (label : Chain) :
    (em.nameBytes label).length = em.nameSize label := by
  induction label with
  | nil => rfl
  | cons l label ih =>
    rw [nameBytes, nameSize]
    cases em.writeOffset l.address with
    | none => rw [List.length_append, ih]
    | some w => rfl

theorem nameBytes_emitLabel {l : Label} {label : Chain} (em : Emission)
    (h : l.address ∉ label.map Label.address) :
    (em.emitLabel l).nameBytes label = em.nameBytes label := by
  induction label with
  | nil => rfl
  | cons l' label ih =>
    rw [List.map_cons, List.mem_cons, not_or] at h
    rw [nameBytes, nameBytes, emitLabel_writeOffset_of_ne l em (Ne.symm h.1), ih h.2]

theorem bytes_emitName {label : Chain} (em : Emission) (h : (label.map Label.address).Nodup) :
    (em.emitName label).bytes = em.bytes ++ em.nameBytes label := by
  induction label generalizing em with
  | nil => exact (List.append_nil _).symm
  | cons l label ih =>
    rw [List.map_cons, List.nodup_cons] at h
    cases hw : em.writeOffset l.address with
    | none =>
      rw [emitName_of_none hw, nameBytes, hw, ih _ h.2, nameBytes_emitLabel em h.1]
      exact List.append_assoc _ _ _
    | some w =>
      rw [emitName_of_some hw, nameBytes, hw, emit_bytes]

theorem nameSize_emit (bs : List UInt8) (em : Emission) (label : Chain) :
    (em.emit bs).nameSize label = em.nameSize label := by
  induction label with
  | nil => rfl
  | cons l label ih => rw [nameSize, nameSize, emit_writeOffset, ih]

theorem nameBytes_emit (bs : List UInt8) (em : Emission) (label : Chain) :
    (em.emit bs).nameBytes label = em.nameBytes label := by
  induction label with
  | nil => rfl
  | cons l label ih => rw [nameBytes, nameBytes, emit_writeOffset, ih]

/-- A name that was just written is a pointer. -/
theorem nameSize_emitName (em : Emission) {label : Chain} (hne : label ≠ [])
    (h : (label.map Label.address).Nodup) : (em.emitName label).nameSize label = 2 := by
  obtain ⟨l, label, rfl⟩ := List.exists_cons_of_ne_nil hne
  rw [List.map_cons, List.nodup_cons] at h
  have hwritten : ∃ w, (em.emitName (l :: label)).writeOffset l.address = some w := by
    cases hw : em.writeOffset l.address with
    | none =>
      rw [emitName_of_none hw, emitName_writeOffset _ h.1]
      exact ⟨_, emitLabel_writeOffset_self l em⟩
    | some w =>
      rw [emitName_of_some hw]
      exact ⟨w, hw⟩
  obtain ⟨w, hw⟩ := hwritten
  rw [nameSize, hw]

/-- `writeRecord`. -/
def emitHead (name : Chain) (type ttl : ℕ) (em : Emission) : Emission :=
  (em.emitName name).emit (bytes16 type ++ bytes16 1 ++ bytes32 ttl)

/-- The data, behind its length. -/
def emitData (before : List UInt8) (target : Chain) (after : List UInt8) (em : Emission) :
    Emission :=
  let size := before.length + em.nameSize target + after.length
  (((em.emit (bytes16 size)).emit before).emitName target).emit after

theorem length_emitHead {name : Chain} (em : Emission) (h : (name.map Label.address).Nodup)
    (type ttl : ℕ) :
    (em.emitHead name type ttl).bytes.length = em.bytes.length + em.nameSize name + 8 := by
  rw [emitHead, emit_bytes, List.length_append, length_emitName em h]
  rfl

theorem length_emitData (before : List UInt8) {target : Chain} (after : List UInt8) (em : Emission)
    (h : (target.map Label.address).Nodup) : (em.emitData before target after).bytes.length =
      em.bytes.length + 2 + before.length + em.nameSize target + after.length := by
  rw [emitData, emit_bytes, List.length_append, length_emitName _ h, nameSize_emit, nameSize_emit,
    emit_bytes, emit_bytes, List.length_append, List.length_append, length_bytes16]

def emitRecord (em : Emission) (f : RecordForm) : Emission :=
  (em.emitHead f.name f.type f.ttl).emitData f.before f.target f.after

end Emission

/-! ## The functions write these forms -/

section Holds

variable {mem : Memory} {m : MDNS} {ip : ℕ → UInt8} {out : Output} {em : Emission} {table : Table}

namespace Holds

theorem writeRecord (h : Holds m.Known out em) {name : Chain} (hname : name ∈ m.labels)
    (type ttl : ℕ) :
    Holds m.Known (MDNS.writeRecord name type ttl out) (em.emitHead name type ttl) := by
  have hname' := h.writeName (MDNS.known hname)
  have hrecord := ((hname'.writeUInt16 type).writeUInt16 1).writeUInt32 ttl
  rwa [Emission.emit_emit, Emission.emit_emit] at hrecord

/-- The data behind its length. -/
theorem writeData (h : Holds m.Known out em) (size : ℕ) (before : List UInt8) (target : Chain)
    (htarget : ∀ l ∈ target, m.Known l.address) (after : List UInt8)
    (hsize : before.length + em.nameSize target + after.length = size) :
    Holds m.Known (after.foldl Output.writeUInt8
      ((before.foldl Output.writeUInt8 (out.writeUInt16 size)).writeName target))
      (em.emitData before target after) := by
  rw [Emission.emitData, hsize]
  exact (((h.writeUInt16 size).foldl_writeUInt8 before).writeName htarget).foldl_writeUInt8 after

theorem writeARecord (h : Holds m.Known out em) :
    Holds m.Known (m.writeARecord ip out) (em.emitRecord (m.form mem ip .a)) := by
  have ha := (h.writeRecord m.host_mem aType MDNS.ttl2Min).writeData 4 ((List.range 4).map ip)
    [] (fun _ h ↦ absurd h List.not_mem_nil) [] rfl
  rwa [List.foldl_map, List.foldl_nil, Output.writeName] at ha

theorem writePTRRecord (h : Holds m.Known out em) (hm : m.Valid table) :
    Holds m.Known (m.writePTRRecord out) (em.emitRecord (m.form mem ip .ptr)) := by
  have hhead := h.writeRecord m.service_mem ptrType MDNS.ttl75Min
  have hsize := hhead.toNat_getWriteSize hm m.inst_mem
  exact hhead.writeData _ [] _ (MDNS.known m.inst_mem) [] (by rw [hsize]; exact Nat.zero_add _)

theorem writeSRVRecord (h : Holds m.Known out em) (hm : m.Valid table) :
    Holds m.Known (m.writeSRVRecord out) (em.emitRecord (m.form mem ip .srv)) := by
  have hhead := h.writeRecord m.inst_mem srvType MDNS.ttl2Min
  have hsize := hhead.toNat_getWriteSize hm m.host_mem
  have hsrv := hhead.writeUInt16
    (6 + ((MDNS.writeRecord m.inst srvType MDNS.ttl2Min out).getWriteSize m.host).toNat)
  rw [hsize] at hsrv
  have hdata := (((hsrv.writeUInt16 0).writeUInt16 0).writeUInt16 m.port).writeName
    (MDNS.known m.host_mem)
  rw [Emission.emit_emit, Emission.emit_emit] at hdata
  rw [MDNS.writeSRVRecord, hsize, Emission.emitRecord, Emission.emitData]
  exact (Emission.emit_nil _).symm ▸ hdata

theorem writeTXTRecord (h : Holds m.Known out em) :
    Holds m.Known (m.writeTXTRecord mem out) (em.emitRecord (m.form mem ip .txt)) := by
  have htxt := (h.writeRecord m.inst_mem txtType MDNS.ttl75Min).writeData m.txtData.size
    ((List.range m.txtData.size).map (m.txtData.byte mem.nullData)) []
    (fun _ h ↦ absurd h List.not_mem_nil) [] (by rw [List.length_map, List.length_range]; rfl)
  rwa [List.foldl_map, List.foldl_nil, Output.writeName] at htxt

/-- Behind a record's name this name is a pointer. -/
theorem nameSize_emitHead {name : Chain} (hne : name ≠ [])
    (hnodup : (name.map Label.address).Nodup) (type ttl : ℕ) :
    (em.emitHead name type ttl).nameSize name = 2 := by
  rw [Emission.emitHead, Emission.nameSize_emit, Emission.nameSize_emitName em hne hnodup]

theorem writeNSECHostRecord (h : Holds m.Known out em) (hne : m.host ≠ [])
    (hnodup : (m.host.map Label.address).Nodup) :
    Holds m.Known (m.writeNSECHostRecord out) (em.emitRecord (m.form mem ip .nsecHost)) :=
  (h.writeRecord m.host_mem nsecType MDNS.ttl2Min).writeData 5 [] _ (MDNS.known m.host_mem)
    [0, 1, 0x40] (by rw [nameSize_emitHead hne hnodup]; rfl)

theorem writeNSECInstanceRecord (h : Holds m.Known out em) (hne : m.inst ≠ [])
    (hnodup : (m.inst.map Label.address).Nodup) :
    Holds m.Known (m.writeNSECInstanceRecord out) (em.emitRecord (m.form mem ip .nsecInstance)) :=
  (h.writeRecord m.inst_mem nsecType MDNS.ttl2Min).writeData 9 [] _ (MDNS.known m.inst_mem)
    [0, 5, 0, 0, 0x80, 0, 0x40] (by rw [nameSize_emitHead hne hnodup]; rfl)

/-- A flag decides whether its record is written. -/
theorem ite (h : Holds m.Known out em) {c : Prop} [Decidable c] {write : Output → Output}
    {k : Kind} (hwrite : ∀ {out em}, Holds m.Known out em →
      Holds m.Known (write out) (em.emitRecord (m.form mem ip k))) :
    Holds m.Known (if c then write out else out)
      (if c then em.emitRecord (m.form mem ip k) else em) := by
  split
  · exact hwrite h
  · exact h

/-- **The records of the lowest six flags.** -/
theorem writeRecords (h : Holds m.Known out em) (hm : m.Valid table) (hhost : m.host ≠ [])
    (hinst : m.inst ≠ []) (mem : Memory) (ip : ℕ → UInt8) (responses : UInt16) :
    Holds m.Known (m.writeRecords mem ip responses out)
      (((Kind.flagged responses).map (m.form mem ip)).foldl Emission.emitRecord em) := by
  have hhost' := hm.nodup m.host_mem
  have hinst' := hm.nodup m.inst_mem
  rw [List.foldl_map, Kind.flagged, List.foldl_filter]
  simp only [Kind.all, List.foldl_cons, List.foldl_nil, decide_eq_true_eq]
  refine .ite ?_ fun h ↦ h.writeNSECInstanceRecord hinst hinst'
  refine .ite ?_ fun h ↦ h.writeNSECHostRecord hhost hhost'
  refine .ite ?_ fun h ↦ h.writeTXTRecord
  refine .ite ?_ fun h ↦ h.writeSRVRecord hm
  refine .ite ?_ fun h ↦ h.writePTRRecord hm
  exact .ite h fun h ↦ h.writeARecord

end Holds

end Holds

/-! ## Masks -/

theorem and_ne_zero_iff (bits : UInt16) {flag : UInt16} {i : ℕ} (h : flag.toNat = 2 ^ i) :
    bits &&& flag ≠ 0 ↔ bits.toNat.testBit i = true := by
  rw [Ne, ← UInt16.toNat_inj, UInt16.toNat_and, h, Nat.and_two_pow]
  cases bits.toNat.testBit i with
  | false => simp
  | true => simp

theorem toNat_countLoop (n : ℕ) (bits : UInt16) (count : UInt8) :
    MDNS.countLoop n bits count =
      count + .ofNat ((List.range n).countP fun i ↦ bits.toNat.testBit i) := by
  induction n generalizing bits count with
  | zero => exact (UInt8.add_zero count).symm
  | succ n ih =>
    have hshift : (bits >>> 1).toNat = bits.toNat / 2 := by
      rw [UInt16.toNat_shiftRight]
      exact Nat.shiftRight_eq_div_pow _ 1
    have hbit : (bits &&& 1).toUInt8 = .ofNat (if bits.toNat.testBit 0 then 1 else 0) := by
      have hand : (bits &&& 1).toNat = (bits.toNat.testBit 0).toNat := by
        rw [UInt16.toNat_and]
        exact (Nat.and_two_pow _ 0).trans (Nat.mul_one _)
      rw [← UInt8.toNat_inj, UInt16.toNat_toUInt8, hand]
      cases bits.toNat.testBit 0 with
      | false => rfl
      | true => rfl
    rw [MDNS.countLoop, ih, hshift, hbit, List.range_succ_eq_map, List.countP_cons, List.countP_map,
      UInt8.add_assoc, ← UInt8.ofNat_add, Nat.add_comm]
    simp only [Function.comp_def, Nat.testBit_succ]

/-- `count` counts the records that are written for the lowest six flags. -/
theorem toNat_count (bits : UInt16) :
    (MDNS.count bits).toNat = (Kind.flagged bits).length := by
  have hflagged : (Kind.flagged bits).length =
      (List.range 6).countP fun i ↦ bits.toNat.testBit i := by
    rw [Kind.flagged, ← List.countP_eq_length_filter]
    simp only [Kind.all, Kind.flag, List.countP_cons, List.countP_nil,
      and_ne_zero_iff bits (i := 0) (show aFlag.toNat = 2 ^ 0 from rfl),
      and_ne_zero_iff bits (i := 1) (show ptrFlag.toNat = 2 ^ 1 from rfl),
      and_ne_zero_iff bits (i := 2) (show srvFlag.toNat = 2 ^ 2 from rfl),
      and_ne_zero_iff bits (i := 3) (show txtFlag.toNat = 2 ^ 3 from rfl),
      and_ne_zero_iff bits (i := 4) (show nsecHostFlag.toNat = 2 ^ 4 from rfl),
      and_ne_zero_iff bits (i := 5) (show nsecInstanceFlag.toNat = 2 ^ 5 from rfl)]
    simp only [List.range_succ_eq_map, List.range_zero, List.map_cons, List.map_nil,
      List.countP_cons, List.countP_nil, Nat.succ_eq_add_one, Nat.reduceAdd, decide_eq_true_eq]
  have hle : (Kind.flagged bits).length ≤ 6 := List.length_filter_le _ _
  rw [MDNS.count, toNat_countLoop, ← hflagged, UInt8.zero_add, UInt8.toNat_ofNat']
  omega

/-! ## The whole packet -/

/-- The header of an answer. -/
def header (responses : UInt16) : List UInt8 :=
  bytes16 0 ++ bytes16 0x8400 ++ bytes16 0 ++ bytes16 (Kind.flagged responses).length ++
    bytes16 0 ++ bytes16 (Kind.flagged (responses >>> 6)).length

/-- What `writeResponses` means to write. -/
def MDNS.emission (mem : Memory) (m : MDNS) (ip : ℕ → UInt8) (responses : UInt16) : Emission :=
  (m.forms mem ip responses).foldl Emission.emitRecord
    (Emission.empty.emit (header (MDNS.withoutRepeated responses)))

/-- A mask without a third group of flags. -/
theorem flagged_shift {responses : UInt16} (h : responses.toNat < 4096) :
    Kind.flagged (responses >>> 6 >>> 6) = [] := by
  have hzero : responses >>> 6 >>> 6 = 0 := by
    rw [← UInt16.toNat_inj, UInt16.toNat_shiftRight, UInt16.toNat_shiftRight]
    change responses.toNat >>> 6 >>> 6 = 0
    rw [Nat.shiftRight_eq_div_pow, Nat.shiftRight_eq_div_pow]
    omega
  rw [hzero]
  rfl

theorem withoutRepeated_lt {responses : UInt16} (h : responses.toNat < 4096) :
    (MDNS.withoutRepeated responses).toNat < 4096 := by
  rw [MDNS.withoutRepeated, UInt16.toNat_and]
  exact Nat.and_le_left.trans_lt h

namespace Output

theorem resetName_buffer (label : Chain) (out : Output) :
    (out.resetName label).buffer = out.buffer := by
  induction label generalizing out with
  | nil => rfl
  | cons l label ih => rw [resetName, ih]

theorem resetName_writeOffset (label : Chain) (out : Output) {a : ℕ}
    (h : a ∈ label.map Label.address ∨ out.writeOffset a = none) :
    (out.resetName label).writeOffset a = none := by
  induction label generalizing out with
  | nil => exact h.resolve_left List.not_mem_nil
  | cons l label ih =>
    rw [resetName]
    refine ih _ ?_
    rw [List.map_cons, List.mem_cons] at h
    rcases eq_or_ne a l.address with rfl | hne
    · exact .inr (Function.update_self _ _ _)
    · exact h.imp (fun h ↦ h.resolve_left hne) fun h ↦ (Function.update_of_ne hne _ _).trans h

/-- The labels of all chains are taken for unwritten. -/
def resetNames (labels : List Chain) (out : Output) : Output :=
  labels.foldl (fun out label ↦ out.resetName label) out

theorem resetNames_buffer (labels : List Chain) (out : Output) :
    (out.resetNames labels).buffer = out.buffer := by
  induction labels generalizing out with
  | nil => rfl
  | cons label labels ih => exact (ih _).trans (resetName_buffer label out)

theorem resetNames_writeOffset (labels : List Chain) (out : Output) {a : ℕ}
    (h : (∃ c ∈ labels, a ∈ c.map Label.address) ∨ out.writeOffset a = none) :
    (out.resetNames labels).writeOffset a = none := by
  induction labels generalizing out with
  | nil => exact h.resolve_left fun ⟨c, hc, _⟩ ↦ absurd hc List.not_mem_nil
  | cons label labels ih =>
    refine ih _ ?_
    rcases h with ⟨c, hc, ha⟩ | h
    · rcases List.mem_cons.mp hc with rfl | hc
      · exact .inr (resetName_writeOffset _ out (.inl ha))
      · exact .inl ⟨c, hc, ha⟩
    · exact .inr (resetName_writeOffset label out (.inr h))

end Output

namespace Holds

variable {mem : Memory} {m : MDNS} {ip : ℕ → UInt8} {out : Output} {em : Emission} {table : Table}

theorem reset (m : MDNS) (hsize : out.buffer.size = bufferSize) (hoffset : out.buffer.offset = 0) :
    Holds m.Known (out.resetNames m.labels) .empty := by
  refine ⟨?_, ?_, fun i b h ↦ ?_, ?_, fun _ _ _ h ↦ ?_⟩
  · rw [Output.resetNames_buffer, hsize]
  · rw [Output.resetNames_buffer, hoffset]
    rfl
  · cases h
  · rintro a ⟨c, hc, l, hl, rfl⟩
    exact Output.resetNames_writeOffset _ _ (.inl ⟨c, hc, List.mem_map_of_mem hl⟩)
  · cases h

/-- A pass over an empty mask writes nothing. -/
theorem recordLoop_succ (n : ℕ) (responses : UInt16) (out : Output) :
    m.recordLoop mem ip (n + 1) responses out =
      m.recordLoop mem ip n (responses >>> 6) (m.writeRecords mem ip responses out) := by
  rw [MDNS.recordLoop]
  split
  · rfl
  · rename_i h
    obtain rfl : responses = 0 := by
      rw [UInt16.lt_iff_toNat_lt, not_lt, UInt16.toNat_zero, Nat.le_zero] at h
      exact UInt16.toNat_inj.mp h
    have hwrite : m.writeRecords mem ip 0 out = out := by simp [MDNS.writeRecords]
    rw [hwrite]
    cases n with
    | zero => rfl
    | succ _ => rfl

/-- The passes over the mask. -/
theorem recordLoop (h : Holds m.Known out em) (hm : m.Valid table) (hhost : m.host ≠ [])
    (hinst : m.inst ≠ []) (mem : Memory) (ip : ℕ → UInt8) {responses : UInt16}
    (hlt : responses.toNat < 4096) :
    Holds m.Known (m.recordLoop mem ip 3 responses out)
      (((Kind.flagged responses ++ Kind.flagged (responses >>> 6)).map (m.form mem ip)).foldl
        Emission.emitRecord em) := by
  rw [recordLoop_succ, recordLoop_succ, recordLoop_succ, MDNS.recordLoop, List.map_append,
    List.foldl_append]
  have hfirst := h.writeRecords hm hhost hinst mem ip responses
  have hsecond := hfirst.writeRecords hm hhost hinst mem ip (responses >>> 6)
  have hthird := hsecond.writeRecords hm hhost hinst mem ip (responses >>> 6 >>> 6)
  rwa [flagged_shift hlt] at hthird

/-- **`writeResponses` writes the header and the forms.** -/
theorem writeResponses (mem : Memory) (ip : ℕ → UInt8) (hm : m.Valid table)
    (hhost : m.host ≠ []) (hinst : m.inst ≠ []) (hsize : out.buffer.size = bufferSize)
    (hoffset : out.buffer.offset = 0) {responses : UInt16} (hlt : responses.toNat < 4096) :
    Holds m.Known (m.writeResponses mem ip responses out) (m.emission mem ip responses) := by
  have hhead := (((Holds.reset m hsize hoffset).writeUInt16 0).writeUInt16 0x8400).writeUInt16 0
  have hanswers := hhead.writeUInt16 (MDNS.count (MDNS.withoutRepeated responses)).toNat
  have hcounts := (hanswers.writeUInt16 0).writeUInt16
    (MDNS.count (MDNS.withoutRepeated responses >>> 6)).toNat
  have hrecords := hcounts.recordLoop hm hhost hinst mem ip (withoutRepeated_lt hlt)
  simp only [Emission.emit_emit] at hrecords
  rw [MDNS.emission, MDNS.forms, header, ← toNat_count, ← toNat_count]
  exact hrecords

end Holds

end DuoFirmware.Mdns
