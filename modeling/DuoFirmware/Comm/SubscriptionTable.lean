import DuoFirmware.Comm.Subscriptions

/-!
# What the subscription table holds

The table is a list of subscriptions, stored one after the other in front of entries that are zero.
`Holds` relates the two; adding appends to the list, and removing filters it. The names are compared
in memory, where a name that fills its field goes on into the pointer behind it; so the filter is
not quite that for a name.
-/

namespace DuoFirmware.Comm

open Bytes

/-- A subscription, as far as it is stored. -/
structure Subscription where
  name : CString
  name_le : name.chars.length ≤ 64
  handler : UInt32
  handler_ne : handler ≠ 0
  handlerData : UInt32
  scope : SubscriptionScope
  id : CString
  id_le : id.chars.length ≤ 12
  deriving DecidableEq

namespace Subscription

variable (sub : Subscription)

theorem id_le_field : sub.id.chars.length ≤ 13 := sub.id_le.trans (by decide)

/-- The entry of a subscription. -/
def entry : FilteringEventHandler :=
  ⟨.padded 64 sub.name.chars sub.name_le, sub.handler, sub.handlerData, sub.scope,
    .padded 13 sub.id.chars sub.id_le_field, .zero 2⟩

theorem entry_handler_ne : sub.entry.handler ≠ 0 := sub.handler_ne

end Subscription

/-- The arguments of `add_event_handler`. -/
structure Registration where
  eventName : CString
  handler : UInt32
  handler_ne : handler ≠ 0
  handlerData : UInt32
  scope : SubscriptionScope
  id : Option CString
  deriving DecidableEq

/-- The subscription that is stored for a registration. -/
def Registration.subscription (r : Registration) : Subscription where
  name := r.eventName.take 64
  name_le := List.length_take_le _ _
  handler := r.handler
  handler_ne := r.handler_ne
  handlerData := r.handlerData
  scope := r.scope
  id := (r.id.getD .empty).take 12
  id_le := List.length_take_le _ _

namespace FilteringEventHandler

/-- The characters of a device id that are stored. -/
theorem take_idBytes (id : Option CString) :
    (idBytes id).take (idLen id) = ((id.getD .empty).take 12).chars := by
  cases id with
  | none => rfl
  | some id =>
    rw [idBytes, idLen, strnlen_bytes, CString.bytes,
      List.take_append_of_le_length (Nat.min_le_left _ _), Nat.min_comm, ← List.take_take,
      List.take_length]
    rfl

theorem idLen_eq (id : Option CString) : idLen id = ((id.getD .empty).take 12).chars.length := by
  cases id with
  | none => rfl
  | some id =>
    rw [idLen, strnlen_bytes, Nat.min_comm]
    exact List.length_take.symm

/-- **An entry that is zero** is filled with a subscription. -/
theorem fill_zero (r : Registration) :
    zero.fill r.eventName r.handler r.handlerData r.scope r.id = r.subscription.entry := by
  have hname : r.eventName.chars.take (strnlen r.eventName.bytes 64) =
      r.subscription.name.chars := by
    rw [strnlen_bytes, Nat.min_comm, ← List.take_take, List.take_length]
    rfl
  have hlen : strnlen r.eventName.bytes 64 = r.subscription.name.chars.length := by
    rw [strnlen_bytes, Nat.min_comm]
    exact List.length_take.symm
  have hid : (idBytes r.id).take (idLen r.id) = r.subscription.id.chars := take_idBytes r.id
  have hidLen : idLen r.id = r.subscription.id.chars.length := idLen_eq r.id
  rw [fill, Subscription.entry]
  congr 1
  · apply Field.ext_bytes
    change splice (splice (List.replicate 64 0) 0 _) _ (List.replicate _ 0) =
      _ ++ List.replicate _ 0
    rw [hname, hlen, splice_replicate r.subscription.name_le,
      splice_zeros _ List.length_replicate.le, List.length_replicate, Nat.sub_self,
      List.replicate_zero, List.append_nil]
  · apply Field.ext_bytes
    change splice (splice (splice (List.replicate 13 0) 0 [0]) 0 _) _ [0] =
      _ ++ List.replicate _ 0
    -- the zero byte at the beginning, and the one behind the id, were there already
    have hfirst : splice (List.replicate 13 0) 0 [0] = List.replicate 13 0 := rfl
    obtain ⟨k, hk⟩ := Nat.exists_eq_add_of_le r.subscription.id_le
    have hrest : 13 - r.subscription.id.chars.length = k + 1 := by omega
    rw [hfirst, hid, hidLen, splice_replicate r.subscription.id_le_field, hrest,
      splice_zeros _ (Nat.succ_le_succ (Nat.zero_le k)), List.append_assoc]
    rfl

end FilteringEventHandler

/-! ## Adding -/

namespace Subscriptions

open FilteringEventHandler

/-- The table holds a list of subscriptions, and is zero behind them. -/
structure Holds (s : Subscriptions) (subs : List Subscription) : Prop where
  eventHandlers : s.eventHandlers = subs.map Subscription.entry ++
    List.replicate (numHandlers - subs.length) zero

variable {s : Subscriptions} {subs : List Subscription}

/-- The entry behind some others is replaced. -/
theorem set_append (a c : List FilteringEventHandler) (x y : FilteringEventHandler) :
    (a ++ x :: c).set a.length y = a ++ y :: c := by
  rw [List.set_append_right _ _ le_rfl, Nat.sub_self, List.set_cons_zero]

theorem holds_new : Holds new [] := ⟨rfl⟩

theorem holds_of_zeros {zs : List FilteringEventHandler}
    (h : s.eventHandlers = subs.map Subscription.entry ++ zs) (hz : ∀ e ∈ zs, e = zero) :
    Holds s subs := by
  have hlen := congrArg List.length h
  rw [s.length_eq, List.length_append, List.length_map] at hlen
  rw [List.eq_replicate_of_mem hz] at h
  exact ⟨by rw [h, hlen, Nat.add_sub_cancel_left]⟩

theorem Holds.length_le (h : Holds s subs) : subs.length ≤ numHandlers := by
  have hlen := congrArg List.length h.eventHandlers
  rw [s.length_eq, List.length_append, List.length_map, List.length_replicate] at hlen
  omega

/-- The loop passes the entries that are in use. -/
theorem addLoop_entries (r : Registration) (i : ℕ) (subs : List Subscription)
    (hs : List FilteringEventHandler) :
    s.addLoop r.eventName r.handler r.handlerData r.scope r.id i
        (subs.map Subscription.entry ++ hs) =
      s.addLoop r.eventName r.handler r.handlerData r.scope r.id (i + subs.length) hs := by
  induction subs generalizing i with
  | nil => rfl
  | cons sub subs ih =>
    rw [List.map_cons, List.cons_append, addLoop, if_neg sub.entry_handler_ne, ih, List.length_cons,
      Nat.add_right_comm, Nat.add_assoc]

/-- **Adding** a registration that is not found appends its subscription, if there is room. -/
theorem addLoop_spec (h : Holds s subs) (r : Registration) : ∃ s',
    s.addLoop r.eventName r.handler r.handlerData r.scope r.id 0 s.eventHandlers =
      (if subs.length < numHandlers then .noError else .insufficientStorage, s') ∧
    Holds s' (if subs.length < numHandlers then subs ++ [r.subscription] else subs) := by
  rw [h.eventHandlers, addLoop_entries, Nat.zero_add]
  by_cases hroom : subs.length < numHandlers
  · obtain ⟨k, hk⟩ := Nat.exists_eq_add_of_lt hroom
    have hfree : numHandlers - subs.length = k + 1 := by omega
    rw [if_pos hroom, if_pos hroom, hfree, List.replicate_succ, addLoop,
      if_pos (show zero.handler = 0 from rfl)]
    refine ⟨_, rfl, ⟨?_⟩⟩
    change s.eventHandlers.set subs.length _ = _
    have hfree' : numHandlers - (subs ++ [r.subscription]).length = k := by
      rw [List.length_append, List.length_singleton]
      omega
    have hpos : subs.length = (subs.map Subscription.entry).length := List.length_map _ |>.symm
    rw [h.eventHandlers, hfree, hfree', fill_zero, List.map_append, List.replicate_succ, hpos,
      set_append, List.append_assoc]
    rfl
  · have hfull : numHandlers - subs.length = 0 := by omega
    rw [if_neg hroom, if_neg hroom, hfull, List.replicate_zero, addLoop]
    exact ⟨s, rfl, h⟩

/-! ## Removing -/

/-- Whether an entry is found in memory under a name. -/
def found (name : CString) (h : FilteringEventHandler) : Bool := strcmp name.bytes h.bytes

/-- **The entries that a removal keeps** are moved together, and zeros are left behind them. -/
theorem removeLoop_spec (name : CString) {kept rest : List FilteringEventHandler} {n : ℕ}
    (h : s.eventHandlers = kept ++ List.replicate n zero ++ rest) : ∃ m,
    (removeLoop name rest.length s kept.length (kept.length + n)).eventHandlers =
      kept ++ rest.filter (fun e ↦ ! found name e) ++ List.replicate m zero := by
  induction rest generalizing s kept n with
  | nil =>
    rw [List.append_nil] at h
    exact ⟨n, by rw [List.length_nil, removeLoop, h, List.filter_nil, List.append_nil]⟩
  | cons e rest ih =>
    have hlen : (kept ++ List.replicate n zero).length = kept.length + n := by
      rw [List.length_append, List.length_replicate]
    have hget : s.eventHandlers.getD (kept.length + n) zero = e := by
      rw [h, ← hlen, List.getD_eq_getElem?_getD, List.getElem?_append_right le_rfl, Nat.sub_self]
      rfl
    rw [List.length_cons, removeLoop, removeAt, hget]
    by_cases hcmp : strcmp name.bytes e.bytes = true
    · -- the entry is removed
      have hset : (s.set (kept.length + n) zero).eventHandlers =
          kept ++ List.replicate (n + 1) zero ++ rest := by
        change s.eventHandlers.set _ _ = _
        rw [h, ← hlen, set_append, List.replicate_succ', List.append_assoc, List.append_assoc,
          List.append_assoc]
        rfl
      have hfilter : (e :: rest).filter (fun e ↦ ! found name e) =
          rest.filter fun e ↦ ! found name e := List.filter_cons_of_neg (by simp [found, hcmp])
      rw [if_pos hcmp, hfilter]
      exact ih hset
    · have hset : (if kept.length ≠ kept.length + n then
          (s.set kept.length e).set (kept.length + n) zero else s).eventHandlers =
          (kept ++ [e]) ++ List.replicate n zero ++ rest := by
        cases n with
        | zero =>
          rw [Nat.add_zero, if_neg (not_not.mpr rfl), h]
          simp
        | succ n =>
          -- the entry is moved over the first zero, and a zero put into its place
          rw [if_pos (by omega)]
          change (s.eventHandlers.set _ _).set _ _ = _
          have hlen' : ((kept ++ [e]) ++ List.replicate n zero).length = kept.length + (n + 1) := by
            simp only [List.length_append, List.length_replicate, List.length_singleton]
            omega
          rw [h, List.replicate_succ, List.append_assoc, List.cons_append, set_append,
            List.append_cons, ← List.append_assoc, ← hlen', set_append, ← List.replicate_succ,
            List.replicate_succ']
          simp
      have hfilter : (e :: rest).filter (fun e ↦ ! found name e) =
          e :: rest.filter fun e ↦ ! found name e := List.filter_cons_of_pos (by simp [found, hcmp])
      obtain ⟨m, hm⟩ := ih hset
      rw [if_neg hcmp, hfilter]
      refine ⟨m, ?_⟩
      rw [List.append_cons, ← hm, List.length_append, List.length_singleton, Nat.add_right_comm]

/-- **Removing** by name filters the subscriptions. -/
theorem removeEventHandlers_spec (h : Holds s subs) (name : CString) :
    Holds (s.removeEventHandlers (some name)) (subs.filter fun sub ↦ ! found name sub.entry) := by
  have hsplit : s.eventHandlers = [] ++ List.replicate 0 zero ++ s.eventHandlers := rfl
  obtain ⟨m, hm⟩ := removeLoop_spec name hsplit
  rw [s.length_eq, h.eventHandlers, List.nil_append, List.filter_append, List.filter_map,
    List.append_assoc] at hm
  apply holds_of_zeros hm
  intro e he
  rcases List.mem_append.mp he with he | he
  · exact List.eq_of_mem_replicate (List.mem_of_mem_filter he)
  · exact List.eq_of_mem_replicate he

theorem removeEventHandlers_none (s : Subscriptions) : Holds (s.removeEventHandlers none) [] :=
  holds_new

/-- The byte behind the name: a zero in its field, or the first byte of the handler. -/
theorem entry_bytes (sub : Subscription) : ∃ c r, sub.entry.bytes = sub.name.chars ++ c :: r ∧
    (sub.name.chars.length < 64 → c = 0) ∧
    (sub.name.chars.length = 64 → c = sub.handler.toUInt8) := by
  have hbytes : sub.entry.bytes = sub.name.chars ++
      (List.replicate (64 - sub.name.chars.length) 0 ++ (littleEndian sub.handler ++
        (littleEndian sub.handlerData ++ ([sub.scope.toByte] ++
          (sub.entry.deviceId.bytes ++ sub.entry.padding.bytes))))) := by
    rw [FilteringEventHandler.bytes]
    simp only [Subscription.entry, Field.padded, List.append_assoc]
  rcases lt_or_eq_of_le sub.name_le with hlt | heq
  · obtain ⟨k, hk⟩ := Nat.exists_eq_add_of_lt hlt
    have hpad : 64 - sub.name.chars.length = k + 1 := by omega
    rw [hpad, List.replicate_succ] at hbytes
    exact ⟨0, _, hbytes, fun _ ↦ rfl, fun hc ↦ absurd hc hlt.ne⟩
  · rw [heq, Nat.sub_self] at hbytes
    exact ⟨sub.handler.toUInt8, _, hbytes, fun hc ↦ absurd hc (not_lt.mpr heq.ge), fun _ ↦ rfl⟩

/-- **A subscription is found under its own name**, except that a name which fills its field goes on
into the pointer to the handler. -/
theorem found_entry (name : CString) (hname : name.chars.length ≤ 64) (sub : Subscription) :
    found name sub.entry = true ↔
      name = sub.name ∧ (sub.name.chars.length = 64 → sub.handler.toUInt8 = 0) := by
  obtain ⟨c, r, hbytes, hshort, hfull⟩ := entry_bytes sub
  have hchars : name = sub.name ↔ name.chars = sub.name.chars :=
    ⟨congrArg CString.chars, CString.ext_chars⟩
  rw [found, strcmp_eq, decide_eq_true_iff, hbytes, hchars]
  rcases lt_or_eq_of_le sub.name_le with hlt | heq
  · rw [bytes_prefix_iff name sub.name c r (.inl (hshort hlt))]
    exact and_congr_right fun _ ↦ ⟨fun _ hc ↦ absurd hc hlt.ne, fun _ ↦ hshort hlt⟩
  · rw [bytes_prefix_iff name sub.name c r (.inr (hname.trans_eq heq.symm)), hfull heq]
    exact and_congr_right fun _ ↦ ⟨fun h _ ↦ h, fun h ↦ h heq⟩

/-! ## Runs -/

/-- The calls that change the table. -/
inductive Op where
  | addEventHandler (r : Registration)
  | removeEventHandlers (eventName : Option CString)

def Op.perform (s : Subscriptions) : Op → Subscriptions
  | addEventHandler r =>
    (s.addEventHandler r.eventName r.handler r.handlerData r.scope r.id).2
  | removeEventHandlers eventName => s.removeEventHandlers eventName

/-- The table after some calls. -/
def run (s : Subscriptions) (ops : List Op) : Subscriptions := ops.foldl Op.perform s

/-- The subscriptions for all registrations, in order. -/
def registered (ops : List Op) : List Subscription :=
  ops.filterMap fun
    | .addEventHandler r => some r.subscription
    | .removeEventHandlers _ => none

/-- A call of `add_event_handler` appends the subscription, or leaves the table as it is. -/
theorem addEventHandler_spec (h : Holds s subs) (r : Registration) : ∃ subs',
    Holds (s.addEventHandler r.eventName r.handler r.handlerData r.scope r.id).2 subs' ∧
      (subs' = subs ∨ subs' = subs ++ [r.subscription]) := by
  rw [addEventHandler]
  by_cases hexists : s.eventHandlerExists r.eventName r.handler r.handlerData r.scope r.id = true
  · rw [if_pos hexists]
    exact ⟨subs, h, .inl rfl⟩
  · obtain ⟨s', hadd, h'⟩ := addLoop_spec h r
    rw [if_neg hexists, hadd]
    by_cases hroom : subs.length < numHandlers
    · rw [if_pos hroom] at h'
      exact ⟨_, h', .inr rfl⟩
    · rw [if_neg hroom] at h'
      exact ⟨_, h', .inl rfl⟩

/-- **After any run** the table holds subscriptions in the order of their registration. -/
theorem run_spec (h : Holds s subs) (ops : List Op) : ∃ subs',
    Holds (s.run ops) subs' ∧ subs'.Sublist (subs ++ registered ops) := by
  induction ops generalizing s subs with
  | nil => exact ⟨subs, h, List.sublist_append_left _ _⟩
  | cons op ops ih =>
    cases op with
    | addEventHandler r =>
      obtain ⟨subs₁, h₁, hsubs⟩ := addEventHandler_spec h r
      obtain ⟨subs', h', hsub⟩ := ih h₁
      refine ⟨subs', h', hsub.trans ?_⟩
      change (subs₁ ++ registered ops).Sublist (subs ++ (r.subscription :: registered ops))
      rcases hsubs with rfl | rfl
      · exact (List.Sublist.refl _).append (List.sublist_cons_self _ _)
      · rw [List.append_assoc]
        exact List.Sublist.refl _
    | removeEventHandlers name =>
      cases name with
      | none =>
        obtain ⟨subs', h', hsub⟩ := ih (removeEventHandlers_none s)
        exact ⟨subs', h', hsub.trans (List.sublist_append_right _ _)⟩
      | some name =>
        obtain ⟨subs', h', hsub⟩ := ih (removeEventHandlers_spec h name)
        exact ⟨subs', h', hsub.trans (List.filter_sublist.append (List.Sublist.refl _))⟩

/-! ## Entries in use -/

/-- The entries in use, in order. -/
def active (s : Subscriptions) : List FilteringEventHandler :=
  s.eventHandlers.filter fun h ↦ h.handler ≠ 0

theorem Holds.active_eq (h : Holds s subs) : s.active = subs.map Subscription.entry := by
  have hused : (subs.map Subscription.entry).filter (fun e ↦ e.handler ≠ 0) =
      subs.map Subscription.entry := by
    apply List.filter_eq_self.mpr
    intro e he
    obtain ⟨sub, -, rfl⟩ := List.mem_map.mp he
    exact decide_eq_true sub.handler_ne
  have hfree : (List.replicate (numHandlers - subs.length) zero).filter
      (fun e ↦ e.handler ≠ 0) = [] := by
    apply List.filter_eq_nil_iff.mpr
    intro e he
    rw [List.eq_of_mem_replicate he]
    decide
  rw [active, h.eventHandlers, List.filter_append, hused, hfree, List.append_nil]

/-- A string in a field. -/
def string (l : List UInt8) : List UInt8 := l.takeWhile (· ≠ 0)

theorem string_padded (t : CString) (n : ℕ) :
    string (t.chars ++ List.replicate n 0) = t.chars := by
  cases n with
  | zero =>
    rw [List.replicate_zero, List.append_nil]
    exact List.takeWhile_eq_self_iff.mpr fun c hc ↦ decide_eq_true (t.nonzero c hc)
  | succ n => exact takeWhile_chars t _

theorem string_filter (sub : Subscription) : string sub.entry.filter.bytes = sub.name.chars :=
  string_padded _ _

theorem string_deviceId (sub : Subscription) : string sub.entry.deviceId.bytes = sub.id.chars :=
  string_padded _ _

/-! ## Removing exactly what has a name -/

/-- A removal is exact if no name that fills its field is followed by a nonzero byte. -/
theorem removeEventHandlers_iff (h : Holds s subs) (name : CString)
    (hname : name.chars.length ≤ 64) :
    Holds (s.removeEventHandlers (some name)) (subs.filter fun sub ↦ sub.name ≠ name) ↔
      ∀ sub ∈ subs, sub.name = name → name.chars.length = 64 → sub.handler.toUInt8 = 0 := by
  have hspec := removeEventHandlers_spec h name
  constructor
  · intro hexact sub hsub heq hlen
    by_contra hc
    -- the subscription is still there, and so is its name
    have hkept : sub ∈ subs.filter fun sub ↦ ! found name sub.entry := by
      refine List.mem_filter.mpr ⟨hsub, ?_⟩
      rw [Bool.not_eq_true', Bool.eq_false_iff, ne_eq, found_entry name hname]
      exact fun hf ↦ hc (hf.2 (by rw [heq]; exact hlen))
    have hmem := List.mem_map_of_mem (f := Subscription.entry) hkept
    rw [← hspec.active_eq, hexact.active_eq] at hmem
    obtain ⟨sub', hsub', hentry⟩ := List.mem_map.mp hmem
    have hne := of_decide_eq_true (List.mem_filter.mp hsub').2
    refine hne (CString.ext_chars ?_)
    rw [← string_filter, hentry, string_filter, heq]
  · intro hcond
    have hfilter : subs.filter (fun sub ↦ sub.name ≠ name) =
        subs.filter fun sub ↦ ! found name sub.entry := by
      apply List.filter_congr
      intro sub hsub
      by_cases heq : sub.name = name
      · have hfound := (found_entry name hname sub).mpr
          ⟨heq.symm, fun hlen ↦ hcond sub hsub heq (by rw [← heq]; exact hlen)⟩
        simp [heq, hfound]
      · have hfound : found name sub.entry = false := Bool.eq_false_iff.mpr fun hf ↦
          heq ((found_entry name hname sub).mp hf).1.symm
        simp [heq, hfound]
    rw [hfilter]
    exact hspec

/-- **The table in every run**: the subscriptions lie one behind the other in the order of their
registration, with zeros behind them. A removal without a name leaves nothing; one with a name is
exact if and only if no subscription with that name fills its field and has a handler whose first
byte is not zero. -/
theorem run_holds (ops : List Op) (name : CString) (hname : name.chars.length ≤ 64) :
    ∃ subs, Holds (run new ops) subs ∧ subs.Sublist (registered ops) ∧
      Holds ((run new ops).removeEventHandlers none) [] ∧
      (Holds ((run new ops).removeEventHandlers (some name))
          (subs.filter fun sub ↦ sub.name ≠ name) ↔
        ∀ sub ∈ subs, sub.name = name → name.chars.length = 64 → sub.handler.toUInt8 = 0) := by
  obtain ⟨subs, h, hsub⟩ := run_spec holds_new ops
  exact ⟨subs, h, hsub, removeEventHandlers_none _, removeEventHandlers_iff h name hname⟩

/-- A name of 64 letters. -/
def longName : CString := ⟨List.replicate 64 97, by simp⟩

/-- The names `a`, `b` and `c`. -/
def nameA : CString := ⟨[97], by simp⟩

def nameB : CString := ⟨[98], by simp⟩

def nameC : CString := ⟨[99], by simp⟩

/-- A registration for all devices, with a handler that has the Thumb bit of its address set. -/
def registration (name : CString) (handlerData : UInt32) : Registration :=
  ⟨name, 0x08020001, by decide, handlerData, .firehose, none⟩

theorem run_holds_shortName : ∃ subs,
    Holds (run new [.addEventHandler (registration nameA 0)]) subs ∧
      subs.Sublist (registered [.addEventHandler (registration nameA 0)]) ∧
      Holds ((run new [.addEventHandler (registration nameA 0)]).removeEventHandlers
        none) [] ∧
      (Holds ((run new [.addEventHandler (registration nameA 0)]).removeEventHandlers
          (some nameA)) (subs.filter fun sub ↦ sub.name ≠ nameA) ↔
        ∀ sub ∈ subs, sub.name = nameA → nameA.chars.length = 64 →
          sub.handler.toUInt8 = 0) :=
  run_holds [.addEventHandler (registration nameA 0)] nameA (by decide)

/-- A subscription with a name of 64 letters cannot be removed by that name. -/
theorem longName_not_removed : longName.chars.length = 64 ∧ ∃ subs,
    Holds (run new [.addEventHandler (registration longName 0)]) subs ∧
      ¬ Holds ((run new [.addEventHandler (registration longName 0)]).removeEventHandlers
        (some longName)) (subs.filter fun sub ↦ sub.name ≠ longName) := by
  have h : Holds (run new [.addEventHandler (registration longName 0)])
      [(registration longName 0).subscription] := ⟨by decide +kernel⟩
  refine ⟨by decide, _, h, fun hc ↦ ?_⟩
  have hcond := (removeEventHandlers_iff h longName (by decide)).mp hc _ (List.mem_singleton_self _)
    (CString.ext_chars (by decide)) (by decide)
  exact absurd hcond (by decide)

/-! ## The checksum -/

/-- What a checksum depends on: the name, the device id and the scope. -/
def triple (h : FilteringEventHandler) : List UInt8 × List UInt8 × SubscriptionScope :=
  (string h.filter.bytes, string h.deviceId.bytes, h.scope)

/-- The contribution of an entry to the checksum. -/
def addChecksum (calculateCrc : List UInt8 → UInt32) (checksum : UInt32)
    (h : FilteringEventHandler) : UInt32 :=
  calculateCrc (littleEndian checksum ++ littleEndian (calculateCrc h.deviceId.bytes) ++
    littleEndian (calculateCrc h.filter.bytes) ++ littleEndian (calculateCrc [h.scope.toByte]))

/-- The checksum is a fold over the entries in use. -/
theorem checksum_eq (calculateCrc : List UInt8 → UInt32) (s : Subscriptions) :
    s.computeSubscriptionsChecksum calculateCrc =
      s.active.foldl (addChecksum calculateCrc) 0 := by
  have hloop : ∀ (hs : List FilteringEventHandler) (error : ProtocolError) (checksum : UInt32),
      (forEach.loop (fun checksum h ↦ (.noError, addChecksum calculateCrc checksum h)) hs error
        checksum).2 =
      (hs.filter fun h ↦ h.handler ≠ 0).foldl (addChecksum calculateCrc) checksum := by
    intro hs
    induction hs with
    | nil => exact fun _ _ ↦ rfl
    | cons h hs ih =>
      intro error checksum
      rw [forEach.loop]
      by_cases hused : h.handler = 0
      · rw [if_neg (not_not.mpr hused), ih, List.filter_cons_of_neg (by simpa using hused)]
      · rw [if_pos hused]
        dsimp only
        rw [if_neg (not_not.mpr rfl), ih, List.filter_cons_of_pos (by simpa using hused),
          List.foldl_cons]
  exact hloop _ _ _

/-- The bytes of an entry are those of its strings, with zeros behind. -/
theorem addChecksum_entry (calculateCrc : List UInt8 → UInt32) {sub sub' : Subscription}
    (h : triple sub.entry = triple sub'.entry) (checksum : UInt32) :
    addChecksum calculateCrc checksum sub.entry =
      addChecksum calculateCrc checksum sub'.entry := by
  simp only [triple, string_filter, string_deviceId, Prod.mk.injEq] at h
  obtain ⟨hname, hid, hscope⟩ := h
  have hfilter : sub.entry.filter.bytes = sub'.entry.filter.bytes := by
    simp only [Subscription.entry, Field.padded, hname]
  have hdevice : sub.entry.deviceId.bytes = sub'.entry.deviceId.bytes := by
    simp only [Subscription.entry, Field.padded, hid]
  rw [addChecksum, addChecksum, hfilter, hdevice, hscope]

theorem foldl_addChecksum (calculateCrc : List UInt8 → UInt32) {subs subs' : List Subscription}
    (h : subs.map (triple ∘ Subscription.entry) = subs'.map (triple ∘ Subscription.entry))
    (checksum : UInt32) :
    (subs.map Subscription.entry).foldl (addChecksum calculateCrc) checksum =
      (subs'.map Subscription.entry).foldl (addChecksum calculateCrc) checksum := by
  induction subs generalizing subs' checksum with
  | nil =>
    obtain rfl := List.map_eq_nil_iff.mp h.symm
    rfl
  | cons sub subs ih =>
    cases subs' with
    | nil => cases h
    | cons sub' subs' =>
      obtain ⟨hhead, htail⟩ := List.cons.inj h
      rw [List.map_cons, List.map_cons, List.foldl_cons, List.foldl_cons,
        addChecksum_entry calculateCrc hhead, ih htail]

/-- **The checksum depends only on the active subscriptions**, whatever has led to them. -/
theorem checksum_eq_of_active (calculateCrc : List UInt8 → UInt32) (ops ops' : List Op)
    (h : (run new ops).active.map triple = (run new ops').active.map triple) :
    (run new ops).computeSubscriptionsChecksum calculateCrc =
      (run new ops').computeSubscriptionsChecksum calculateCrc := by
  obtain ⟨subs, hsubs, -⟩ := run_spec holds_new ops
  obtain ⟨subs', hsubs', -⟩ := run_spec holds_new ops'
  rw [hsubs.active_eq, hsubs'.active_eq, List.map_map, List.map_map] at h
  rw [checksum_eq, checksum_eq, hsubs.active_eq, hsubs'.active_eq,
    foldl_addChecksum calculateCrc h]

/-- An entry that was removed, and one that was shifted, leave no trace. -/
theorem checksum_eq_of_active_shifted :
    (run new [.addEventHandler (registration longName 5),
      .addEventHandler (registration nameB 7),
      .addEventHandler (registration nameC 7),
      .removeEventHandlers (some nameB)]).computeSubscriptionsChecksum
        (fun bytes ↦ bytes.foldl (fun crc b ↦ crc * 31 + b.toUInt32) 0) =
    (run new [.addEventHandler (registration longName 0),
      .addEventHandler (registration nameC 0)]).computeSubscriptionsChecksum
        (fun bytes ↦ bytes.foldl (fun crc b ↦ crc * 31 + b.toUInt32) 0) :=
  checksum_eq_of_active _ _ _ (by decide +kernel)

end Subscriptions

end DuoFirmware.Comm
