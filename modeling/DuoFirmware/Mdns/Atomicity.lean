import DuoFirmware.Mdns.Configuration

/-!
# Refused configurations

A call of `setHostname` or `setService` that returns false should leave the configuration as it is.
The setters replace a chain before they look whether there was memory for its label, and
`setService` takes over the port whatever else happens.
-/

namespace DuoFirmware.Mdns

namespace MDNS

variable {mem : Memory} {m : MDNS}

/-- **A call is atomic**: when it fails, the chains and the port are the ones from before. -/
def Atomic (m : MDNS) (r : Bool × MDNS) : Prop :=
  r.1 = false → r.2.labels = m.labels ∧ r.2.port = m.port

/-! ## Labels without memory -/

/-- A label has the size of its name if there is memory for it, or the name is empty. -/
theorem toNat_getSize_newLabel (mem : Memory) (address : ℕ) (name : List UInt8)
    (caseSensitive : Bool) (hle : name.length ≤ 63) :
    (newLabel mem address name caseSensitive).getSize.toNat = name.length ↔
      name = [] ∨ mem.malloc address = true := by
  cases hmalloc : mem.malloc address with
  | true =>
    have hsize : (newLabel mem address name caseSensitive).getSize = .ofNat name.length := by
      rw [newLabel, hmalloc]
      rfl
    rw [hsize, toNat_ofNat_of_le hle]
    exact ⟨fun _ ↦ .inr rfl, fun _ ↦ rfl⟩
  | false =>
    have hsize : (newLabel mem address name caseSensitive).getSize = 0 := by
      rw [newLabel, hmalloc]
      exact mem.nullData_zero
    rw [hsize, UInt8.toNat_zero, eq_comm, List.length_eq_zero_iff]
    exact ⟨.inl, fun h ↦ h.resolve_right Bool.false_ne_true⟩

/-- A chain that begins with a new label is none of the configuration. -/
theorem Reachable.cons_ne (hm : Reachable mem m) {c d : Chain} (hc : c ∈ m.labels) {l : Label}
    (hl : m.fresh ≤ l.address) : l :: d ≠ c := by
  rintro rfl
  obtain ⟨table, hvalid⟩ := hm.valid
  obtain ⟨a, ha⟩ := (hvalid.chains _ hc).resolve_left (List.cons_ne_nil _ _)
  have hlt := hvalid.valid.lt a _ ha
  have hle := hvalid.valid.address_le ha l List.mem_cons_self
  omega

/-! ## The setters -/

/-- The hostname passes the checks. -/
def ValidHostname (hostname : List UInt8) : Prop :=
  hostname.length < maxLabelSize ∧ isAlphaDigitHyphen hostname = true

/-- The names of a service pass the checks. -/
def ValidService (protocol service inst : List UInt8) : Prop :=
  protocol.length < maxLabelSize - 1 ∧ service.length < maxLabelSize - 1 ∧
    inst.length < maxLabelSize ∧ isAlphaDigitHyphen protocol = true ∧
    isAlphaDigitHyphen service = true ∧ isNetUnicode inst = true

theorem atomic_setHostname_iff (hm : Reachable mem m) (hostname : List UInt8) :
    Atomic m (m.setHostname mem hostname) ↔
      ¬ (ValidHostname hostname ∧ hostname ≠ [] ∧ mem.malloc m.fresh = false) := by
  by_cases hok : ValidHostname hostname
  · have hrun : m.setHostname mem hostname =
        (decide ((newLabel mem m.fresh hostname false).getSize.toNat = hostname.length),
          { m with host := newLabel mem m.fresh hostname false :: m.localName,
                   fresh := m.fresh + 1 }) := if_pos hok
    have hsize := toNat_getSize_newLabel mem m.fresh hostname false hok.1.le
    have hne := hm.cons_ne m.host_mem (d := m.localName)
      (newLabel_address mem m.fresh hostname false).ge
    rw [hrun]
    constructor
    · rintro hatomic ⟨-, hnonempty, hmalloc⟩
      have hfailed : ¬ (newLabel mem m.fresh hostname false).getSize.toNat = hostname.length := by
        rw [hsize, hmalloc]
        exact fun h ↦ h.elim hnonempty Bool.false_ne_true
      exact hne (List.cons.inj (hatomic (decide_eq_false hfailed)).1).1
    · intro hcond hfailed
      have hsome := mt hsize.mpr (of_decide_eq_false hfailed)
      rw [not_or] at hsome
      exact absurd ⟨hok, hsome.1, Bool.eq_false_iff.mpr hsome.2⟩ hcond
  · have hrun : m.setHostname mem hostname = (false, m) := if_neg hok
    rw [hrun]
    exact ⟨fun _ h ↦ hok h.1, fun _ _ ↦ ⟨rfl, rfl⟩⟩

/-- The labels of the service and its instance, behind that of the protocol. -/
theorem setServiceName_spec (mem : Memory) (m : MDNS) (protoLabel : Label)
    {service inst : List UInt8} (hservice : service.length < 63) (hinst : inst.length ≤ 63) :
    (∃ d, (m.setServiceName mem protoLabel service inst).2.service =
        newLabel mem m.fresh (95 :: service) false :: d) ∧
      ((m.setServiceName mem protoLabel service inst).1 = true ↔
        mem.malloc m.fresh = true ∧ (inst = [] ∨ mem.malloc (m.fresh + 1) = true)) := by
  have hlabel := toNat_getSize_newLabel mem m.fresh (95 :: service) false hservice
  have hlabel' := toNat_getSize_newLabel mem (m.fresh + 1) inst true hinst
  rw [List.length_cons, or_iff_right (List.cons_ne_nil _ _)] at hlabel
  rw [setServiceName]
  by_cases hmalloc : mem.malloc m.fresh = true
  · rw [if_pos (hlabel.mpr hmalloc)]
    refine ⟨⟨_, rfl⟩, ?_⟩
    rw [setInstance, decide_eq_true_iff]
    exact hlabel'.trans (and_iff_right hmalloc).symm
  · rw [if_neg (mt hlabel.mp hmalloc)]
    exact ⟨⟨_, rfl⟩, fun h ↦ absurd h Bool.false_ne_true, fun h ↦ absurd h.1 hmalloc⟩

/-- **What `setService` can do**: it is refused, or it finds no memory for the label of the
protocol, or it replaces the chain of the service. -/
theorem setService_cases (mem : Memory) (m : MDNS) (protocol service : List UInt8) (port : ℕ)
    (inst : List UInt8) :
    (¬ ValidService protocol service inst ∧
      m.setService mem protocol service port inst = (false, { m with port := port })) ∨
    (ValidService protocol service inst ∧ mem.malloc m.fresh = false ∧
      m.setService mem protocol service port inst =
        (false, { m with fresh := m.fresh + 1, port := port })) ∨
    (ValidService protocol service inst ∧ mem.malloc m.fresh = true ∧
      (∃ d, (m.setService mem protocol service port inst).2.service =
        newLabel mem (m.fresh + 1) (95 :: service) false :: d) ∧
      ((m.setService mem protocol service port inst).1 = true ↔
        mem.malloc (m.fresh + 1) = true ∧ (inst = [] ∨ mem.malloc (m.fresh + 2) = true))) := by
  by_cases hok : ValidService protocol service inst
  · obtain ⟨hp, hs, hi, -⟩ := id hok
    have hlabel := toNat_getSize_newLabel mem m.fresh (95 :: protocol) false
      (Nat.succ_le_of_lt (hp.trans (by decide)))
    rw [List.length_cons, or_iff_right (List.cons_ne_nil _ _)] at hlabel
    have hrun : m.setService mem protocol service port inst =
        ((m.setServiceLabels mem protocol service inst).1,
          { (m.setServiceLabels mem protocol service inst).2 with port := port }) := by
      rw [setService]
      exact congrArg (fun r : Bool × MDNS ↦ (r.1, { r.2 with port := port })) (if_pos hok)
    rw [hrun, setServiceLabels]
    by_cases hmalloc : mem.malloc m.fresh = true
    · dsimp only
      rw [if_pos (hlabel.mpr hmalloc)]
      obtain ⟨hchain, hsuccess⟩ := setServiceName_spec mem
        { m with fresh := m.fresh + 1 } (newLabel mem m.fresh (95 :: protocol) false)
        (Nat.lt_succ_of_lt hs) hi.le
      exact .inr (.inr ⟨hok, hmalloc, hchain, hsuccess⟩)
    · dsimp only
      rw [if_neg (mt hlabel.mp hmalloc)]
      exact .inr (.inl ⟨hok, Bool.eq_false_iff.mpr hmalloc, rfl⟩)
  · refine .inl ⟨hok, ?_⟩
    rw [setService]
    exact congrArg (fun r : Bool × MDNS ↦ (r.1, { r.2 with port := port })) (if_neg hok)

/-- There is memory for all labels that need it. -/
def ServiceMemory (mem : Memory) (m : MDNS) (inst : List UInt8) : Prop :=
  mem.malloc m.fresh = true ∧ mem.malloc (m.fresh + 1) = true ∧
    (inst = [] ∨ mem.malloc (m.fresh + 2) = true)

theorem atomic_setService_iff (hm : Reachable mem m) (protocol service : List UInt8) (port : ℕ)
    (inst : List UInt8) : Atomic m (m.setService mem protocol service port inst) ↔
      ValidService protocol service inst ∧ ServiceMemory mem m inst ∨
        (¬ ValidService protocol service inst ∨ mem.malloc m.fresh = false) ∧ port = m.port := by
  rcases setService_cases mem m protocol service port inst with
    ⟨hrefused, hrun⟩ | ⟨hok, hmalloc, hrun⟩ | ⟨hok, hmalloc, ⟨d, hchain⟩, hsuccess⟩
  · rw [hrun]
    constructor
    · exact fun h ↦ .inr ⟨.inl hrefused, (h rfl).2⟩
    · rintro (h | h)
      · exact absurd h.1 hrefused
      · exact fun _ ↦ ⟨rfl, h.2⟩
  · rw [hrun]
    constructor
    · exact fun h ↦ .inr ⟨.inr hmalloc, (h rfl).2⟩
    · rintro (h | h)
      · exact absurd h.2.1 (ne_true_of_eq_false hmalloc)
      · exact fun _ ↦ ⟨rfl, h.2⟩
  · have hne := hm.cons_ne m.service_mem (d := d)
      (show m.fresh ≤ (newLabel mem (m.fresh + 1) (95 :: service) false).address from Nat.le_succ _)
    constructor
    · intro h
      cases hr : (m.setService mem protocol service port inst).1 with
      | true => exact .inl ⟨hok, hmalloc, hsuccess.mp hr⟩
      | false =>
        have hlabels := (h hr).1
        have hsame := (List.cons.inj (List.cons.inj hlabels).2).1
        exact absurd (hchain.symm.trans hsame) hne
    · rintro (h | h)
      · intro hr
        rw [hsuccess.mpr h.2.2] at hr
        cases hr
      · rcases h.1 with hrefused | hnone
        · exact absurd hok hrefused
        · exact absurd hmalloc (ne_true_of_eq_false hnone)

/-- **When the configuration is atomic**, from every configuration that calls of the setters lead
to. `setHostname` is, unless a hostname that passes the checks and is not empty finds no memory.
`setService` is if it succeeds; and when it fails, if this happened before the label of the
service, and the port is the one from before. -/
theorem atomic_iff (hm : Reachable mem m) :
    (∀ hostname, Atomic m (m.setHostname mem hostname) ↔
      ¬ (ValidHostname hostname ∧ hostname ≠ [] ∧ mem.malloc m.fresh = false)) ∧
    ∀ protocol service port inst, Atomic m (m.setService mem protocol service port inst) ↔
      ValidService protocol service inst ∧ ServiceMemory mem m inst ∨
        (¬ ValidService protocol service inst ∨ mem.malloc m.fresh = false) ∧ port = m.port :=
  ⟨atomic_setHostname_iff hm, atomic_setService_iff hm⟩

/-- For the configuration before all calls. -/
theorem atomic_iff_new :
    (∀ hostname, Atomic (new ampleMemory) ((new ampleMemory).setHostname ampleMemory hostname) ↔
      ¬ (ValidHostname hostname ∧ hostname ≠ [] ∧
        ampleMemory.malloc (new ampleMemory).fresh = false)) ∧
    ∀ protocol service port inst, Atomic (new ampleMemory)
        ((new ampleMemory).setService ampleMemory protocol service port inst) ↔
      ValidService protocol service inst ∧ ServiceMemory ampleMemory (new ampleMemory) inst ∨
        (¬ ValidService protocol service inst ∨
          ampleMemory.malloc (new ampleMemory).fresh = false) ∧ port = (new ampleMemory).port :=
  atomic_iff .new

/-- A protocol that is refused changes the port. -/
theorem not_atomic_refused : ¬ Atomic (new ampleMemory)
    ((new ampleMemory).setService ampleMemory [95] [104] 80 []) := by
  intro h
  exact absurd (h (by decide)).2 (by decide)

end MDNS

end DuoFirmware.Mdns
