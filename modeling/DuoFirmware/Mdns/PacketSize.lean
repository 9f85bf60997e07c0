import DuoFirmware.Mdns.Records

/-!
# How large an answer is

Every label is written once, where the first of its names is written, and every name but the first
ends in a pointer, because all names end with the same labels. So the number of bytes that
`writeResponses` means to write is a sum over the labels of the names in it.
-/

namespace DuoFirmware.Mdns

/-! ## The labels that were written -/

theorem Emission.emitName_writeOffset_iff (em : Emission) {label : Chain}
    (hnodup : (label.map Label.address).Nodup)
    (hclosed : ∀ l rest, l :: rest <:+ label → em.writeOffset l.address ≠ none →
      ∀ l' ∈ rest, em.writeOffset l'.address ≠ none) (a : ℕ) :
    (em.emitName label).writeOffset a ≠ none ↔
      em.writeOffset a ≠ none ∨ a ∈ label.map Label.address := by
  induction label generalizing em with
  | nil => exact (or_iff_left List.not_mem_nil).symm
  | cons l label ih =>
    rw [List.map_cons, List.nodup_cons] at hnodup
    cases hw : em.writeOffset l.address with
    | none =>
      have hother : ∀ l' ∈ label, (em.emitLabel l).writeOffset l'.address =
          em.writeOffset l'.address := fun l' hl' ↦
        emitLabel_writeOffset_of_ne l em fun heq ↦ hnodup.1 (heq ▸ List.mem_map_of_mem hl')
      rw [emitName_of_none hw, ih _ hnodup.2 ?_]
      · rw [List.map_cons, List.mem_cons]
        rcases eq_or_ne a l.address with rfl | hne
        · simp [emitLabel_writeOffset_self]
        · rw [emitLabel_writeOffset_of_ne l em hne, or_iff_right hne]
      · intro l' rest hs hl' l'' hl''
        have hmem := hs.subset
        rw [hother l' (hmem List.mem_cons_self)] at hl'
        rw [hother l'' (hmem (List.mem_cons_of_mem _ hl''))]
        exact hclosed l' rest (hs.trans (List.suffix_cons _ _)) hl' l'' hl''
    | some w =>
      have hne : em.writeOffset l.address ≠ none := by
        rw [hw]
        exact Option.some_ne_none w
      rw [emitName_of_some hw, emit_writeOffset, iff_self_or, List.map_cons, List.mem_cons]
      rintro (rfl | ha)
      · exact hne
      · obtain ⟨l', hl', rfl⟩ := List.mem_map.mp ha
        exact hclosed l label List.suffix_rfl hne l' hl'

/-- The labels that were written are the ones in `s`, and with each of them the labels behind it. -/
structure Wrote (m : MDNS) (em : Emission) (s : Finset Label) : Prop where
  written : ∀ c ∈ m.labels, ∀ l ∈ c, em.writeOffset l.address ≠ none ↔ l ∈ s
  closed : ∀ c ∈ m.labels, ∀ l rest, l :: rest <:+ c → l ∈ s → ∀ l' ∈ rest, l' ∈ s

/-- The size of a label in a packet. -/
def Label.size (l : Label) : ℕ := l.getSize.toNat + 1

/-- What a name adds to a packet that holds the labels in `s`. -/
def nameCost (s : Finset Label) (c : Chain) : ℕ :=
  ∑ l ∈ c.toFinset \ s, l.size + if ∃ l ∈ c, l ∈ s then 2 else 0

theorem nameCost_nil (s : Finset Label) : nameCost s [] = 0 := by
  simp [nameCost]

/-- What names add to it. -/
def namesCost : Finset Label → List Chain → ℕ
  | _, [] => 0
  | s, c :: cs => nameCost s c + namesCost (s ∪ c.toFinset) cs

namespace Wrote

variable {m : MDNS} {em : Emission} {s : Finset Label} {table : Table} {c : Chain}

theorem empty (m : MDNS) (bs : List UInt8) : Wrote m (Emission.empty.emit bs) ∅ where
  written _ _ _ _ := iff_of_false (fun h ↦ h rfl) (Finset.notMem_empty _)
  closed _ _ _ _ _ h := absurd h (Finset.notMem_empty _)

theorem emit (h : Wrote m em s) (bs : List UInt8) : Wrote m (em.emit bs) s := ⟨h.written, h.closed⟩

/-- The labels of a name were written behind it. -/
theorem emitName (h : Wrote m em s) (hm : m.Valid table) (hc : c ∈ m.labels) :
    Wrote m (em.emitName c) (s ∪ c.toFinset) := by
  have hclosed : ∀ l rest, l :: rest <:+ c → em.writeOffset l.address ≠ none →
      ∀ l' ∈ rest, em.writeOffset l'.address ≠ none := by
    intro l rest hs hl l' hl'
    have hmem := hs.subset
    rw [h.written c hc l (hmem List.mem_cons_self)] at hl
    rw [h.written c hc l' (hmem (List.mem_cons_of_mem _ hl'))]
    exact h.closed c hc l rest hs hl l' hl'
  constructor
  · intro d hd l hl
    rw [Emission.emitName_writeOffset_iff em (hm.nodup hc) hclosed, h.written d hd l hl,
      Finset.mem_union, List.mem_toFinset]
    refine or_congr_right ⟨fun hmem ↦ ?_, List.mem_map_of_mem⟩
    obtain ⟨l', hl', heq⟩ := List.mem_map.mp hmem
    rwa [← hm.address_inj hc hd hl' hl heq]
  · intro d hd l rest hs hl l' hl'
    rw [Finset.mem_union, List.mem_toFinset] at hl ⊢
    rcases hl with hl | hl
    · exact .inl (h.closed d hd l rest hs hl l' hl')
    · exact .inr (hm.rest_subset hd hc hs hl hl')

/-- The size of a name. -/
theorem nameSize (h : Wrote m em s) (hm : m.Valid table) (hc : c ∈ m.labels) :
    em.nameSize c = nameCost s c := by
  have hsuffix : ∀ d, d <:+ c → em.nameSize d = nameCost s d := by
    intro d hd
    induction d with
    | nil => rw [Emission.nameSize, nameCost_nil]
    | cons l d ih =>
      have hl := hd.subset List.mem_cons_self
      have hnodup := ((hm.nodup hc).sublist (hd.sublist.map _))
      rw [List.map_cons, List.nodup_cons] at hnodup
      have hmem := h.written c hc l hl
      have ih := ih ((List.suffix_cons _ _).trans hd)
      rw [nameCost, List.toFinset_cons]
      cases hw : em.writeOffset l.address with
      | none =>
        have hl' : l ∉ s := fun hl' ↦ hmem.mpr hl' hw
        have hl'' : l ∉ d.toFinset \ s := by
          rw [Finset.mem_sdiff, List.mem_toFinset]
          exact fun hl'' ↦ hnodup.1 (List.mem_map_of_mem hl''.1)
        rw [Emission.nameSize, hw, Finset.insert_sdiff_of_notMem _ hl', Finset.sum_insert hl'']
        dsimp only
        rw [ih, nameCost, ((hm.ends hc (List.ne_nil_of_mem hl)).sound l hl).length_written,
          Label.size]
        simp only [List.exists_mem_cons_iff, hl', false_or]
        exact (Nat.add_assoc _ _ _).symm
      | some w =>
        have hl' : l ∈ s := hmem.mp (by rw [hw]; exact Option.some_ne_none w)
        have hsubset : insert l d.toFinset \ s = ∅ := by
          rw [Finset.sdiff_eq_empty_iff_subset, Finset.insert_subset_iff]
          exact ⟨hl', fun l' h' ↦ h.closed c hc l d hd hl' l' (List.mem_toFinset.mp h')⟩
        rw [Emission.nameSize, hw, hsubset, Finset.sum_empty,
          if_pos ⟨l, List.mem_cons_self, hl'⟩]
  exact hsuffix c List.suffix_rfl

end Wrote

/-! ## The size of an answer -/

/-- Names that all hold one label that was written each end in a pointer. -/
theorem namesCost_eq {s : Finset Label} {cs : List Chain} {r : Label} (hr : r ∈ s)
    (hcs : ∀ c ∈ cs, r ∈ c) :
    namesCost s cs = ∑ l ∈ cs.flatten.toFinset \ s, l.size + 2 * cs.length := by
  induction cs generalizing s with
  | nil => simp [namesCost]
  | cons c cs ih =>
    rw [List.forall_mem_cons] at hcs
    have hunion : (c :: cs).flatten.toFinset \ s =
        (c.toFinset \ s) ∪ (cs.flatten.toFinset \ (s ∪ c.toFinset)) := by
      ext l
      simp only [List.flatten_cons, List.toFinset_append, Finset.mem_sdiff, Finset.mem_union]
      tauto
    have hdisjoint : Disjoint (c.toFinset \ s) (cs.flatten.toFinset \ (s ∪ c.toFinset)) := by
      rw [Finset.disjoint_left]
      intro l hl hl'
      rw [Finset.mem_sdiff] at hl hl'
      exact hl'.2 (Finset.mem_union_right s hl.1)
    rw [namesCost, nameCost, if_pos ⟨r, hcs.1, hr⟩, ih (Finset.mem_union_left _ hr) hcs.2,
      hunion, Finset.sum_union hdisjoint, List.length_cons]
    omega

/-- The first name is written as a whole. -/
theorem namesCost_empty {cs : List Chain} {r : Label} (hcs : ∀ c ∈ cs, r ∈ c) :
    namesCost ∅ cs = ∑ l ∈ cs.flatten.toFinset, l.size + 2 * (cs.length - 1) := by
  cases cs with
  | nil => rfl
  | cons c cs =>
    rw [List.forall_mem_cons] at hcs
    have hnone : ¬∃ l ∈ c, l ∈ (∅ : Finset Label) := fun ⟨l, _, h⟩ ↦ Finset.notMem_empty l h
    have hsubset : c.toFinset ⊆ (c :: cs).flatten.toFinset := by
      rw [List.flatten_cons, List.toFinset_append]
      exact Finset.subset_union_left
    have hrest : cs.flatten.toFinset \ c.toFinset = (c :: cs).flatten.toFinset \ c.toFinset := by
      rw [List.flatten_cons, List.toFinset_append, Finset.union_sdiff_left]
    rw [namesCost, nameCost, if_neg hnone, Finset.sdiff_empty, Finset.empty_union,
      namesCost_eq (List.mem_toFinset.mpr hcs.1) hcs.2, hrest, ← Finset.sum_sdiff hsubset,
      List.length_cons, Nat.add_sub_cancel]
    omega

theorem namesCost_append (s : Finset Label) (cs ds : List Chain) :
    namesCost s (cs ++ ds) = namesCost s cs + namesCost (s ∪ cs.flatten.toFinset) ds := by
  induction cs generalizing s with
  | nil => rw [List.nil_append, namesCost, List.flatten_nil, List.toFinset_nil,
      Finset.union_empty, Nat.zero_add]
  | cons c cs ih =>
    rw [List.cons_append, namesCost, namesCost, ih, List.flatten_cons, List.toFinset_append,
      Finset.union_assoc, Nat.add_assoc]

namespace Wrote

variable {m : MDNS} {em : Emission} {s : Finset Label} {table : Table}

/-- The labels of a record were written behind it. -/
theorem emitRecord (h : Wrote m em s) (hm : m.Valid table) {f : RecordForm}
    (hnames : ∀ c ∈ f.names, c ∈ m.labels) :
    Wrote m (em.emitRecord f) (s ∪ f.names.flatten.toFinset) := by
  have hname := hnames f.name f.name_mem
  have hhead := (h.emitName hm hname).emit (bytes16 f.type ++ bytes16 1 ++ bytes32 f.ttl)
  have hbefore := (hhead.emit (bytes16 (f.before.length +
    (em.emitHead f.name f.type f.ttl).nameSize f.target + f.after.length))).emit f.before
  by_cases htarget : f.target = []
  · rw [RecordForm.names, if_pos htarget, List.flatten_singleton, Emission.emitRecord,
      Emission.emitData, htarget]
    rw [htarget] at hbefore
    exact hbefore.emit f.after
  · have hmem := hnames f.target (f.target_mem htarget)
    rw [RecordForm.names, if_neg htarget, List.flatten_cons, List.flatten_singleton,
      List.toFinset_append, ← Finset.union_assoc]
    exact (hbefore.emitName hm hmem).emit f.after

/-- The size of a record. -/
theorem length_emitRecord (h : Wrote m em s) (hm : m.Valid table) {f : RecordForm}
    (hnames : ∀ c ∈ f.names, c ∈ m.labels) :
    (em.emitRecord f).bytes.length = em.bytes.length + f.size + namesCost s f.names := by
  have hname := hnames f.name f.name_mem
  have hhead := (h.emitName hm hname).emit (bytes16 f.type ++ bytes16 1 ++ bytes32 f.ttl)
  rw [Emission.emitRecord, Emission.length_emitData, Emission.length_emitHead _ (hm.nodup hname),
    h.nameSize hm hname, RecordForm.names, RecordForm.size]
  · by_cases htarget : f.target = []
    · rw [if_pos htarget, htarget, namesCost, namesCost, Emission.nameSize]
      omega
    · have hmem := hnames f.target (f.target_mem htarget)
      rw [if_neg htarget, namesCost, namesCost, namesCost, ← hhead.nameSize hm hmem]
      change _ + 2 + _ + (em.emitHead f.name f.type f.ttl).nameSize f.target + _ =
        _ + (_ + ((em.emitHead f.name f.type f.ttl).nameSize f.target + 0))
      omega
  · by_cases htarget : f.target = []
    · rw [htarget]
      exact List.nodup_nil
    · exact hm.nodup (hnames f.target (f.target_mem htarget))

/-- The size of records. -/
theorem length_foldl (h : Wrote m em s) (hm : m.Valid table) {fs : List RecordForm}
    (hnames : ∀ f ∈ fs, ∀ c ∈ f.names, c ∈ m.labels) :
    (fs.foldl Emission.emitRecord em).bytes.length =
      em.bytes.length + (fs.map RecordForm.size).sum +
        namesCost s (fs.flatMap RecordForm.names) := by
  induction fs generalizing em s with
  | nil => rfl
  | cons f fs ih =>
    rw [List.forall_mem_cons] at hnames
    rw [List.foldl_cons, ih (h.emitRecord hm hnames.1) hnames.2, h.length_emitRecord hm hnames.1,
      List.map_cons, List.sum_cons, List.flatMap_cons, namesCost_append]
    omega

end Wrote

/-- The number of bytes that `writeResponses` means to write. -/
def MDNS.packetSize (mem : Memory) (m : MDNS) (ip : ℕ → UInt8) (responses : UInt16) : ℕ :=
  let forms := m.forms mem ip responses
  let names := forms.flatMap RecordForm.names
  12 + (forms.map RecordForm.size).sum + ∑ l ∈ names.flatten.toFinset, l.size +
    2 * (names.length - 1)

end DuoFirmware.Mdns
