import DuoFirmware.Mdns.Mdns

/-!
# What is meant to be written

A packet is written into a buffer that drops the bytes behind its end. Here the same functions
append to a list without an end, and remember where each label was written. The buffer holds as
much of the list as there is room for; the labels' offsets agree as far as a pointer can be written
at all.
-/

namespace DuoFirmware.Mdns

/-- What was written so far, and where the labels stand in it. -/
structure Emission where
  bytes : List UInt8
  writeOffset : ℕ → Option ℕ

/-- The bytes of a number, the high one first. -/
def bytes16 (n : ℕ) : List UInt8 := [.ofNat (n / 256), .ofNat n]

def bytes32 (n : ℕ) : List UInt8 :=
  [.ofNat (n / 16777216), .ofNat (n / 65536), .ofNat (n / 256), .ofNat n]

/-- A pointer to an offset. -/
def pointerBytes (w : ℕ) : List UInt8 := bytes16 (labelPointer.toNat * 256 ||| w)

/-- The bytes that `Label::write` writes of a label. -/
def Label.written (l : Label) : List UInt8 := (List.range (l.getSize + 1).toNat).map l.byte

@[simp] theorem length_bytes16 (n : ℕ) : (bytes16 n).length = 2 := rfl

@[simp] theorem length_bytes32 (n : ℕ) : (bytes32 n).length = 4 := rfl

@[simp] theorem length_pointerBytes (w : ℕ) : (pointerBytes w).length = 2 := rfl

namespace Emission

/-- Nothing was written. -/
def empty : Emission := ⟨[], fun _ ↦ none⟩

def emit (bs : List UInt8) (em : Emission) : Emission := { em with bytes := em.bytes ++ bs }

/-- A label is written. -/
def emitLabel (l : Label) (em : Emission) : Emission where
  bytes := em.bytes ++ l.written
  writeOffset := Function.update em.writeOffset l.address (some em.bytes.length)

def emitName : Chain → Emission → Emission
  | [], em => em
  | l :: label, em =>
    match em.writeOffset l.address with
    | none => emitName label (em.emitLabel l)
    | some w => em.emit (pointerBytes w)

/-- How many bytes a name takes. -/
def nameSize (em : Emission) : Chain → ℕ
  | [] => 0
  | l :: label =>
    match em.writeOffset l.address with
    | none => l.written.length + em.nameSize label
    | some _ => 2

@[simp] theorem emit_bytes (bs : List UInt8) (em : Emission) :
    (em.emit bs).bytes = em.bytes ++ bs := rfl

@[simp] theorem emit_writeOffset (bs : List UInt8) (em : Emission) :
    (em.emit bs).writeOffset = em.writeOffset := rfl

@[simp] theorem emit_nil (em : Emission) : em.emit [] = em := by
  rw [emit, List.append_nil]

theorem emit_emit (bs cs : List UInt8) (em : Emission) :
    (em.emit bs).emit cs = em.emit (bs ++ cs) := by
  rw [emit, emit, emit, List.append_assoc]

@[simp] theorem emitLabel_writeOffset_self (l : Label) (em : Emission) :
    (em.emitLabel l).writeOffset l.address = some em.bytes.length := Function.update_self _ _ _

theorem emitLabel_writeOffset_of_ne (l : Label) (em : Emission) {a : ℕ} (h : a ≠ l.address) :
    (em.emitLabel l).writeOffset a = em.writeOffset a := Function.update_of_ne h _ _

@[simp] theorem length_emitLabel (l : Label) (em : Emission) :
    (em.emitLabel l).bytes.length = em.bytes.length + l.written.length := List.length_append

theorem emitName_of_none {l : Label} {label : Chain} {em : Emission}
    (h : em.writeOffset l.address = none) :
    em.emitName (l :: label) = (em.emitLabel l).emitName label := by
  rw [emitName, h]

theorem emitName_of_some {l : Label} {label : Chain} {em : Emission} {w : ℕ}
    (h : em.writeOffset l.address = some w) :
    em.emitName (l :: label) = em.emit (pointerBytes w) := by
  rw [emitName, h]

/-- What was written stays. -/
theorem prefix_emitName (label : Chain) (em : Emission) :
    em.bytes <+: (em.emitName label).bytes := by
  induction label generalizing em with
  | nil => exact List.prefix_rfl
  | cons l label ih =>
    cases h : em.writeOffset l.address with
    | none =>
      rw [emitName_of_none h]
      exact (List.prefix_append _ _).trans (ih (em.emitLabel l))
    | some w =>
      rw [emitName_of_some h]
      exact List.prefix_append _ _

/-- A label that is not in a name does not change how many bytes it takes. -/
theorem nameSize_emitLabel {l : Label} {label : Chain} (em : Emission)
    (h : l.address ∉ label.map Label.address) :
    (em.emitLabel l).nameSize label = em.nameSize label := by
  induction label with
  | nil => rfl
  | cons l' label ih =>
    rw [List.map_cons, List.mem_cons, not_or] at h
    rw [nameSize, nameSize, emitLabel_writeOffset_of_ne l em (Ne.symm h.1), ih h.2]

theorem length_emitName {label : Chain} (em : Emission)
    (h : (label.map Label.address).Nodup) :
    (em.emitName label).bytes.length = em.bytes.length + em.nameSize label := by
  induction label generalizing em with
  | nil => rfl
  | cons l label ih =>
    rw [List.map_cons, List.nodup_cons] at h
    cases hw : em.writeOffset l.address with
    | none =>
      rw [emitName_of_none hw, nameSize, hw, ih _ h.2, nameSize_emitLabel em h.1,
        length_emitLabel, Nat.add_assoc]
    | some w =>
      rw [emitName_of_some hw, nameSize, hw, emit_bytes, List.length_append,
        length_pointerBytes]

/-- Only the labels of the name are written. -/
theorem emitName_writeOffset {label : Chain} (em : Emission) {a : ℕ}
    (h : a ∉ label.map Label.address) : (em.emitName label).writeOffset a = em.writeOffset a := by
  induction label generalizing em with
  | nil => rfl
  | cons l label ih =>
    rw [List.map_cons, List.mem_cons, not_or] at h
    cases hw : em.writeOffset l.address with
    | none =>
      rw [emitName_of_none hw, ih _ h.2, emitLabel_writeOffset_of_ne l em h.1]
    | some w => rw [emitName_of_some hw, emit_writeOffset]

end Emission

/-! ## The buffer -/

/-- A buffer holds what was written, as far as there is room for it; only some labels are known to
be in it or not. -/
structure Holds (known : ℕ → Prop) (out : Output) (em : Emission) : Prop where
  size : out.buffer.size = bufferSize
  offset : out.buffer.offset = min em.bytes.length bufferSize
  data : ∀ i b, em.bytes[i]? = some b → i < bufferSize → out.buffer.data i = b
  written : ∀ a, known a → out.writeOffset a = (em.writeOffset a).map (min · bufferSize)
  earlier : ∀ a w, known a → em.writeOffset a = some w → w ≤ em.bytes.length

namespace Holds

variable {known : ℕ → Prop} {out : Output} {em : Emission}

theorem writeUInt8 (h : Holds known out em) (v : UInt8) :
    Holds known (out.writeUInt8 v) (em.emit [v]) := by
  obtain ⟨hsize, hoffset, hdata, hwritten, hearlier⟩ := h
  have hearlier' : ∀ a w, known a → em.writeOffset a = some w →
      w ≤ (em.bytes ++ [v]).length := by
    intro a w ha hw
    rw [List.length_append]
    exact (hearlier a w ha hw).trans (Nat.le_add_right _ _)
  have hcond : out.buffer.offset < out.buffer.size ↔ em.bytes.length < bufferSize := by
    rw [hoffset, hsize]
    omega
  rw [Output.writeUInt8, Buffer.writeUInt8]
  by_cases hroom : em.bytes.length < bufferSize
  · rw [min_eq_left hroom.le] at hoffset
    rw [if_pos (hcond.mpr hroom)]
    refine ⟨hsize, ?_, fun i b hi hlt ↦ ?_, hwritten, hearlier'⟩
    · change out.buffer.offset + 1 = _
      rw [hoffset, Emission.emit_bytes, List.length_append, List.length_singleton,
        min_eq_left hroom]
    · change Function.update out.buffer.data out.buffer.offset v i = b
      rw [hoffset]
      rcases lt_or_ge i em.bytes.length with hi' | hi'
      · rw [Emission.emit_bytes, List.getElem?_append_left hi'] at hi
        rw [Function.update_of_ne hi'.ne]
        exact hdata i b hi hlt
      · rw [Emission.emit_bytes, List.getElem?_append_right hi',
          List.getElem?_singleton] at hi
        split at hi
        · rename_i hzero
          rw [show i = em.bytes.length by omega, Function.update_self]
          exact Option.some.inj hi
        · cases hi
  · rw [if_neg (mt hcond.mp hroom)]
    rw [not_lt] at hroom
    refine ⟨hsize, ?_, fun i b hi hlt ↦ ?_, hwritten, hearlier'⟩
    · rw [hoffset, Emission.emit_bytes, List.length_append, min_eq_right hroom,
        min_eq_right (hroom.trans (Nat.le_add_right _ _))]
    · rw [Emission.emit_bytes, List.getElem?_append_left (hlt.trans_le hroom)] at hi
      exact hdata i b hi hlt

theorem foldl_writeUInt8 (h : Holds known out em) (bs : List UInt8) :
    Holds known (bs.foldl Output.writeUInt8 out) (em.emit bs) := by
  induction bs generalizing out em with
  | nil => rwa [Emission.emit_nil]
  | cons b bs ih =>
    have hrest := ih (h.writeUInt8 b)
    rwa [Emission.emit_emit] at hrest

theorem writeUInt16 (h : Holds known out em) (n : ℕ) :
    Holds known (out.writeUInt16 n) (em.emit (bytes16 n)) :=
  h.foldl_writeUInt8 (bytes16 n)

theorem writeUInt32 (h : Holds known out em) (n : ℕ) :
    Holds known (out.writeUInt32 n) (em.emit (bytes32 n)) :=
  h.foldl_writeUInt8 (bytes32 n)

/-- A loop that writes one byte after the other. -/
theorem foldl_range (h : Holds known out em) (n : ℕ) (f : ℕ → UInt8) :
    Holds known ((List.range n).foldl (fun out i ↦ out.writeUInt8 (f i)) out)
      (em.emit ((List.range n).map f)) := by
  have hlist := h.foldl_writeUInt8 ((List.range n).map f)
  rwa [List.foldl_map] at hlist

/-- The offset of a label is taken down. -/
theorem setWriteOffset (h : Holds known out em) (a : ℕ) :
    Holds known
      { out with writeOffset := Function.update out.writeOffset a (some out.buffer.offset) }
      { em with writeOffset := Function.update em.writeOffset a (some em.bytes.length) } := by
  obtain ⟨hsize, hoffset, hdata, hwritten, hearlier⟩ := h
  refine ⟨hsize, hoffset, hdata, fun a' ha ↦ ?_, fun a' w ha hw ↦ ?_⟩
  · change Function.update out.writeOffset a (some out.buffer.offset) a' =
      Option.map (min · bufferSize) (Function.update em.writeOffset a (some em.bytes.length) a')
    rcases eq_or_ne a' a with rfl | hne
    · rw [Function.update_self, Function.update_self, hoffset, Option.map_some]
    · rw [Function.update_of_ne hne, Function.update_of_ne hne, hwritten a' ha]
  · change Function.update em.writeOffset a (some em.bytes.length) a' = some w at hw
    rcases eq_or_ne a' a with rfl | hne
    · rw [Function.update_self, Option.some.injEq] at hw
      exact hw.ge
    · rw [Function.update_of_ne hne] at hw
      exact hearlier a' w ha hw

/-- A pointer is dropped where the offset it holds would not be the label's. -/
theorem writePointer (h : Holds known out em) {a w : ℕ} (ha : known a)
    (hw : em.writeOffset a = some w) :
    Holds known (out.writeUInt16 (labelPointer.toNat * 256 ||| min w bufferSize))
      (em.emit (pointerBytes w)) := by
  by_cases hroom : w < bufferSize
  · rw [min_eq_left hroom.le]
    exact h.writeUInt16 _
  · rw [not_lt] at hroom
    have hfull : bufferSize ≤ em.bytes.length := hroom.trans (h.earlier a w ha hw)
    -- nothing is written any more, whatever the bytes are
    have hpointer := h.writeUInt16 (labelPointer.toNat * 256 ||| min w bufferSize)
    refine ⟨hpointer.size, ?_, fun i b hi hlt ↦ ?_, hpointer.written, ?_⟩
    · rw [hpointer.offset, Emission.emit_bytes, Emission.emit_bytes, List.length_append,
        List.length_append, length_bytes16, length_pointerBytes]
    · have hi' : i < em.bytes.length := hlt.trans_le hfull
      rw [Emission.emit_bytes, List.getElem?_append_left hi'] at hi
      refine hpointer.data i b ?_ hlt
      rw [Emission.emit_bytes, List.getElem?_append_left hi', hi]
    · exact (h.writeUInt16 (labelPointer.toNat * 256 ||| w)).earlier

theorem writeName (h : Holds known out em) {label : Chain} (hlabel : ∀ l ∈ label, known l.address) :
    Holds known (out.writeName label) (em.emitName label) := by
  induction label generalizing out em with
  | nil => exact h
  | cons l label ih =>
    rw [List.forall_mem_cons] at hlabel
    have hwritten := h.written l.address hlabel.1
    cases hw : em.writeOffset l.address with
    | none =>
      rw [hw, Option.map_none] at hwritten
      rw [Emission.emitName_of_none hw, Output.writeName, hwritten]
      exact ih ((h.setWriteOffset l.address).foldl_range _ _) hlabel.2
    | some w =>
      rw [hw, Option.map_some] at hwritten
      rw [Emission.emitName_of_some hw, Output.writeName, hwritten]
      exact h.writePointer hlabel.1 hw

/-- `getWriteSize` adds the sizes in 8 bits. -/
theorem getWriteSize (h : Holds known out em) {label : Chain}
    (hlabel : ∀ l ∈ label, known l.address) :
    (out.getWriteSize label).toNat = em.nameSize label % 256 := by
  induction label with
  | nil => rfl
  | cons l label ih =>
    rw [List.forall_mem_cons] at hlabel
    have hwritten := h.written l.address hlabel.1
    cases hw : em.writeOffset l.address with
    | none =>
      rw [hw, Option.map_none] at hwritten
      rw [Output.getWriteSize, hwritten, Emission.nameSize, hw]
      dsimp only
      rw [UInt8.toNat_add, ih hlabel.2, Label.written, List.length_map,
        List.length_range, Nat.add_mod_mod]
    | some w =>
      rw [hw, Option.map_some] at hwritten
      rw [Output.getWriteSize, hwritten, Emission.nameSize, hw]
      rfl

end Holds

end DuoFirmware.Mdns
