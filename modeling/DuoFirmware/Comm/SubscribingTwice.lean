import DuoFirmware.Comm.SubscriptionTable

/-!
# Subscribing twice

`event_handler_exists` stops at the first entry for the handler whose name begins with the name that
is looked for, and then only compares the device ids. A registration that is stored behind such an
entry is not found if the entry has another device id.
-/

namespace DuoFirmware.Comm

open Bytes

namespace Registration

/-- The search for a registration stops at a subscription: it is for the same handler, and its name
begins with that of the registration. -/
def StopsAt (r : Registration) (sub : Subscription) : Prop :=
  sub.handler = r.handler ∧ sub.handlerData = r.handlerData ∧ sub.scope = r.scope ∧
    r.subscription.name.chars <+: sub.name.chars

instance (r : Registration) (sub : Subscription) : Decidable (r.StopsAt sub) :=
  inferInstanceAs (Decidable (_ ∧ _))

/-- The device id of a subscription begins with that of the registration; there is none if the
registration has none. -/
def IdAgrees (r : Registration) (sub : Subscription) : Prop :=
  if r.subscription.id.chars = [] then sub.id.chars = []
  else r.subscription.id.chars <+: sub.id.chars

instance (r : Registration) (sub : Subscription) : Decidable (r.IdAgrees sub) :=
  inferInstanceAs (Decidable (ite _ _ _))

theorem stopsAt_subscription (r : Registration) : r.StopsAt r.subscription :=
  ⟨rfl, rfl, rfl, List.prefix_rfl⟩

end Registration

namespace Subscriptions

open FilteringEventHandler

variable {s : Subscriptions} {subs : List Subscription}

/-! ## Comparing strings -/

theorem strncmp_append {t : List UInt8} (ht : ∀ c ∈ t, c ≠ 0) (l rest : List UInt8) :
    strncmp t.length l (t ++ rest) = true ↔ t <+: l := by
  induction t generalizing l with
  | nil => exact iff_of_true rfl List.nil_prefix
  | cons a t ih =>
    have hrest := fun l ↦ ih (fun c hc ↦ ht c (List.mem_cons_of_mem _ hc)) l
    cases l with
    | nil => exact iff_of_false Bool.false_ne_true (by simp)
    | cons b l =>
      have ha := ht a List.mem_cons_self
      rw [List.length_cons, List.cons_append, strncmp, Bool.and_eq_true, decide_eq_true_iff,
        Bool.or_eq_true, decide_eq_true_iff, hrest l, List.cons_prefix_cons]
      constructor
      · rintro ⟨rfl, hzero | hprefix⟩
        · exact absurd hzero ha
        · exact ⟨rfl, hprefix⟩
      · rintro ⟨rfl, hprefix⟩
        exact ⟨rfl, Or.inr hprefix⟩

/-- `strncmp` of a field with as many characters of a string as fit. -/
theorem strncmp_bytes (t : CString) (n : ℕ) (l : List UInt8) :
    strncmp (strnlen t.bytes n) l t.bytes = true ↔ (t.take n).chars <+: l := by
  have hlen : strnlen t.bytes n = (t.take n).chars.length := by
    rw [strnlen_bytes, Nat.min_comm]
    exact List.length_take.symm
  have hsplit : t.bytes = (t.take n).chars ++ (t.chars.drop n ++ [0]) := by
    rw [← List.append_assoc, CString.bytes]
    exact congrArg (· ++ [0]) (List.take_append_drop n t.chars).symm
  rw [hlen, hsplit, strncmp_append (t.take n).nonzero]

theorem prefix_padded_iff (t u : CString) (n : ℕ) :
    t.chars <+: u.chars ++ List.replicate n 0 ↔ t.chars <+: u.chars := by
  constructor
  · rintro ⟨rest, hrest⟩
    have hstring := congrArg string hrest
    rw [string_padded, string, List.takeWhile_append_of_pos
      fun c hc ↦ decide_eq_true (t.nonzero c hc)] at hstring
    exact ⟨_, hstring⟩
  · exact List.prefix_append_of_prefix

/-! ## The search -/

/-- The names and the handlers are compared. -/
theorem stopsAt_entry (r : Registration) (sub : Subscription) :
    (sub.entry.handler = r.handler ∧ sub.entry.handlerData = r.handlerData ∧
      sub.entry.scope = r.scope ∧
      strncmp (strnlen r.eventName.bytes 64) sub.entry.filter.bytes r.eventName.bytes = true) ↔
    r.StopsAt sub := by
  have hname : strncmp (strnlen r.eventName.bytes 64) sub.entry.filter.bytes r.eventName.bytes =
      true ↔ r.subscription.name.chars <+: sub.name.chars := by
    rw [strncmp_bytes]
    exact prefix_padded_iff _ _ _
  rw [hname]
  exact Iff.rfl

/-- The device ids are compared. -/
theorem idAgrees_entry (r : Registration) (sub : Subscription) :
    (if idLen r.id ≠ 0 then strncmp (idLen r.id) sub.entry.deviceId.bytes (idBytes r.id)
      else decide (sub.entry.deviceId.bytes.head? = some 0)) = decide (r.IdAgrees sub) := by
  have hlen : idLen r.id = r.subscription.id.chars.length := idLen_eq r.id
  have hdevice : sub.entry.deviceId.bytes =
      sub.id.chars ++ List.replicate (13 - sub.id.chars.length) 0 := rfl
  by_cases hempty : r.subscription.id.chars = []
  · have hzero : idLen r.id = 0 := by rw [hlen, hempty, List.length_nil]
    rw [if_neg (not_not.mpr hzero), decide_eq_decide, Registration.IdAgrees, if_pos hempty, hdevice]
    obtain ⟨k, hk⟩ := Nat.exists_eq_add_of_le sub.id_le
    have hpad : 13 - sub.id.chars.length = k + 1 := by omega
    rw [hpad, List.replicate_succ]
    cases hid : sub.id.chars with
    | nil => exact iff_of_true rfl rfl
    | cons c cs =>
      have hc : c ≠ 0 := sub.id.nonzero c (by rw [hid]; exact List.mem_cons_self)
      exact iff_of_false (fun h ↦ hc (Option.some.inj h)) (List.cons_ne_nil c cs)
  · have hpos : idLen r.id ≠ 0 := by
      rw [hlen]
      exact fun h ↦ hempty (List.eq_nil_of_length_eq_zero h)
    rw [if_pos hpos, Bool.eq_iff_iff, decide_eq_true_iff, Registration.IdAgrees, if_neg hempty]
    -- a device id is not null here
    cases hid : r.id with
    | none =>
      rw [hid] at hpos
      exact absurd rfl hpos
    | some id =>
      rw [idLen, idBytes, strncmp_bytes, hdevice, prefix_padded_iff]
      have hchars : r.subscription.id = id.take 12 := by
        change (r.id.getD .empty).take 12 = _
        rw [hid]
        rfl
      rw [hchars]

/-- The first subscription at which the search stops decides. -/
def Known (subs : List Subscription) (r : Registration) : Prop :=
  ∃ sub, subs.find? (fun sub ↦ r.StopsAt sub) = some sub ∧ r.IdAgrees sub

theorem existsLoop_zeros (r : Registration) (n : ℕ) :
    existsLoop r.eventName r.handler r.handlerData r.scope r.id (List.replicate n zero) =
      false := by
  induction n with
  | zero => rfl
  | succ n ih =>
    have hne : ¬ (zero.handler = r.handler) := fun h ↦ r.handler_ne h.symm
    rw [List.replicate_succ, existsLoop, if_neg fun h ↦ hne h.1, ih]

/-- **The search** in a table. -/
theorem eventHandlerExists_iff (h : Holds s subs) (r : Registration) :
    s.eventHandlerExists r.eventName r.handler r.handlerData r.scope r.id = true ↔
      Known subs r := by
  rw [eventHandlerExists, h.eventHandlers]
  generalize numHandlers - subs.length = n
  clear h
  induction subs with
  | nil =>
    rw [List.map_nil, List.nil_append, existsLoop_zeros]
    refine iff_of_false Bool.false_ne_true ?_
    rintro ⟨sub, hfind, -⟩
    cases hfind
  | cons sub subs ih =>
    rw [List.map_cons, List.cons_append, existsLoop]
    by_cases hstop : r.StopsAt sub
    · have hfind : (sub :: subs).find? (fun sub ↦ r.StopsAt sub) = some sub :=
        List.find?_cons_of_pos (decide_eq_true hstop)
      rw [if_pos ((stopsAt_entry r sub).mpr hstop), idAgrees_entry, decide_eq_true_iff, Known,
        hfind]
      constructor
      · exact fun hid ↦ ⟨sub, rfl, hid⟩
      · rintro ⟨sub', hsub', hid⟩
        rwa [Option.some.inj hsub']
    · have hfind : (sub :: subs).find? (fun sub ↦ r.StopsAt sub) =
          subs.find? (fun sub ↦ r.StopsAt sub) :=
        List.find?_cons_of_neg (by rwa [decide_eq_true_iff])
      rw [if_neg fun hc ↦ hstop ((stopsAt_entry r sub).mp hc), ih, Known, Known, hfind]

/-! ## Adding again -/

/-- A registration that is not found changes the table, or there is no room for it. -/
theorem addEventHandler_eq_self_iff (h : Holds s subs) (r : Registration) :
    s.addEventHandler r.eventName r.handler r.handlerData r.scope r.id = (.noError, s) ↔
      Known subs r := by
  rw [← eventHandlerExists_iff h, addEventHandler]
  by_cases hexists : s.eventHandlerExists r.eventName r.handler r.handlerData r.scope r.id = true
  · rw [if_pos hexists]
    exact iff_of_true rfl hexists
  · rw [if_neg hexists]
    refine iff_of_false (fun hadd ↦ ?_) hexists
    obtain ⟨s', hrun, h'⟩ := addLoop_spec h r
    obtain ⟨herror, rfl⟩ := Prod.mk.inj (hrun.symm.trans hadd)
    by_cases hroom : subs.length < numHandlers
    · rw [if_pos hroom] at h'
      have hlen := congrArg List.length (h.active_eq.symm.trans h'.active_eq)
      rw [List.length_map, List.length_map, List.length_append, List.length_singleton] at hlen
      omega
    · rw [if_neg hroom] at herror
      cases herror

/-- **A registration that is in the table** is not stored again if and only if the first entry at
which the search for it stops has its device id. -/
theorem addEventHandler_twice_iff (ops : List Op) (h : Holds (run new ops) subs)
    (r : Registration) (hr : r.subscription ∈ subs) :
    (run new ops).addEventHandler r.eventName r.handler r.handlerData r.scope r.id =
        (.noError, run new ops) ↔
      ∀ sub, subs.find? (fun sub ↦ r.StopsAt sub) = some sub → r.IdAgrees sub := by
  rw [addEventHandler_eq_self_iff h]
  constructor
  · rintro ⟨sub, hfind, hid⟩ sub' hfind'
    rwa [← Option.some.inj (hfind.symm.trans hfind')]
  · intro hall
    cases hfind : subs.find? (fun sub ↦ r.StopsAt sub) with
    | none =>
      have hnone := List.find?_eq_none.mp hfind _ hr
      exact absurd (decide_eq_true r.stopsAt_subscription) hnone
    | some sub => exact ⟨sub, hfind, hall sub hfind⟩

/-- A registration of the name `a` with a device id, and then without one. -/
def withId : Registration := { registration nameA 0 with id := some nameB }

theorem addEventHandler_twice_iff_once :
    (run new [.addEventHandler withId]).addEventHandler nameA withId.handler 0 .firehose
      (some nameB) = (.noError, run new [.addEventHandler withId]) := by
  have h : Holds (run new [.addEventHandler withId]) [withId.subscription] :=
    ⟨by decide +kernel⟩
  refine (addEventHandler_twice_iff [.addEventHandler withId] h withId
    (List.mem_singleton_self _)).mpr fun sub hfind ↦ ?_
  rw [show sub = withId.subscription from List.mem_singleton.mp (List.mem_of_find?_eq_some hfind)]
  decide +kernel

/-- Without the device id the registration is stored, but it is not found behind the other one, and
stored again. -/
theorem not_addEventHandler_twice :
    ¬ ∀ (ops : List Op) (subs : List Subscription) (r : Registration),
      Holds (run new ops) subs → .addEventHandler r ∈ ops → r.subscription ∈ subs →
      (∀ r', .addEventHandler r' ∈ ops → r'.eventName.chars.length ≤ 64) →
      (run new ops).addEventHandler r.eventName r.handler r.handlerData r.scope r.id =
        (.noError, run new ops) := by
  intro hall
  have h : Holds (run new [.addEventHandler withId, .addEventHandler (registration nameA 0)])
      [withId.subscription, (registration nameA 0).subscription] := ⟨by decide +kernel⟩
  have hnames : ∀ r', .addEventHandler r' ∈
      [.addEventHandler withId, Op.addEventHandler (registration nameA 0)] →
      r'.eventName.chars.length ≤ 64 := by
    intro r' hr'
    rcases List.mem_cons.mp hr' with hr' | hr'
    · cases hr'
      decide
    · cases List.mem_singleton.mp hr'
      decide
  have htwice := hall _ _ (registration nameA 0) h (by simp) (by simp) hnames
  have hused := congrArg (fun result ↦ result.2.active.length) htwice
  exact absurd hused (by decide +kernel)

end Subscriptions

end DuoFirmware.Comm
