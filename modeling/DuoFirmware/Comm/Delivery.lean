import DuoFirmware.Comm.EventDispatch

/-!
# Delivered events

Which events a registered handler gets. The table takes a registration for known if its name is the
beginning of another one for the same handler; it is not stored then, and the events that the other
name does not match are lost.
-/

namespace DuoFirmware.Comm

open Bytes

/-- The handler that is called, with its data. -/
def Invocation.Calls (handler handlerData : UInt32) : Invocation → Prop
  | .handler h _ _ => h = handler ∧ handlerData = 0
  | .handlerWithData h d _ _ => h = handler ∧ d = handlerData
  | .callEventHandler h _ _ => h.handler = handler ∧ h.handlerData = handlerData

namespace Subscriptions

open FilteringEventHandler

variable {coap : CoAP} {channel : Channel} {s : Subscriptions} {subs : List Subscription}
  {handler handlerData : UInt32}

/-- A call is for the handler of its entry. -/
theorem calls_invocation (callEventHandler : Bool) (h : FilteringEventHandler) (p : ℕ)
    (data : Option ℕ) : (invocation callEventHandler h p data).Calls handler handlerData ↔
      h.handler = handler ∧ h.handlerData = handlerData := by
  rw [invocation]
  cases callEventHandler with
  | true => exact Iff.rfl
  | false =>
    rw [if_neg Bool.false_ne_true]
    by_cases hdata : h.handlerData = 0
    · rw [if_neg (not_not.mpr hdata), hdata]
      exact and_congr_right fun _ ↦ eq_comm
    · rw [if_pos hdata]
      exact Iff.rfl

/-- **An entry matches** the names that start with its own. -/
theorem matchesName_entry (name : List UInt8) (sub : Subscription) :
    matchesName name sub.entry = true ↔ sub.name.chars <+: name := by
  have hlen : strnlen sub.entry.filter.bytes 64 = sub.name.chars.length := by
    change strnlen (sub.name.chars ++ List.replicate (64 - sub.name.chars.length) 0) 64 = _
    rcases lt_or_eq_of_le sub.name_le with hlt | heq
    · obtain ⟨k, hk⟩ := Nat.exists_eq_add_of_lt hlt
      rw [show 64 - sub.name.chars.length = k + 1 by omega, List.replicate_succ,
        strnlen_of_lt sub.name _ hlt]
    · rw [heq, Nat.sub_self, strnlen_of_le sub.name _ heq.ge]
  have htake : sub.entry.filter.bytes.take sub.name.chars.length = sub.name.chars :=
    List.take_left
  rw [matchesName, decide_eq_true_iff, hlen, memcmp, decide_eq_true_iff, htake,
    List.prefix_iff_eq_take]
  apply and_iff_right_of_imp
  intro h
  have hle := congrArg List.length h
  rw [List.length_take] at hle
  omega

theorem Holds.takeWhile_eq (h : Holds s subs) :
    s.eventHandlers.takeWhile (·.handler ≠ 0) = subs.map Subscription.entry := by
  rw [h.eventHandlers, List.takeWhile_append_of_pos]
  · cases numHandlers - subs.length with
    | zero => rw [List.replicate_zero, List.takeWhile_nil, List.append_nil]
    | succ n =>
      rw [List.replicate_succ, List.takeWhile_cons_of_neg (by decide), List.append_nil]
  · intro e he
    obtain ⟨sub, -, rfl⟩ := List.mem_map.mp he
    exact decide_eq_true sub.handler_ne

/-- A handler is called when an event is handled. -/
def Delivers (coap : CoAP) (channel : Channel) (callEventHandler : Bool) (s : Subscriptions)
    (m : Message) (mem : List UInt8) (handler handlerData : UInt32) : Prop :=
  ∃ error calls mem', handleEvent coap channel callEventHandler s m mem =
    some ((error, calls), mem') ∧ ∃ c ∈ calls, c.Calls handler handlerData

/-- An acknowledgement, if one has to be sent, is sent. -/
def Acknowledged (coap : CoAP) (channel : Channel) (m : Message) (first : UInt8) : Prop :=
  coap.type first = .con ∧ channel.isUnreliable ∧ HasRoom channel m →
    channel.send (ack channel m) ackBytes = .noError

/-- An event lies in the buffer of a message, with some bytes to spare. -/
structure Carries (m : Message) (ev : Event) (spare : List UInt8) : Prop where
  length_eq : m.length = ev.bytes.length
  capacity_eq : m.capacity = (ev.bytes ++ spare).length

variable {m : Message} {ev : Event} {spare : List UInt8}

/-- The acknowledgement lies behind the event. -/
theorem withAck_event (hm : Carries m ev spare) (hroom : HasRoom channel m) : ∃ spare',
    spare'.length = spare.length ∧ withAck channel m (ev.bytes ++ spare) = ev.bytes ++ spare' := by
  have hle : ev.bytes.length ≤ m.length + reserved channel :=
    hm.length_eq.ge.trans (Nat.le_add_right _ _)
  have hfits := length_withAck hm.capacity_eq hroom
  have htake : (withAck channel m (ev.bytes ++ spare)).take ev.bytes.length = ev.bytes := by
    rw [withAck, take_splice hle (by omega), List.take_left]
  refine ⟨(withAck channel m (ev.bytes ++ spare)).drop ev.bytes.length, ?_, ?_⟩
  · rw [List.length_drop, withAck, length_splice hfits, List.length_append,
      Nat.add_sub_cancel_left]
  · exact (List.take_append_drop _ _).symm.trans (by rw [htake])

/-- An event whose acknowledgement is sent is parsed where it lies. -/
theorem handleEvent_event (callEventHandler : Bool) (s : Subscriptions) (hm : Carries m ev spare)
    (hack : Acknowledged coap channel m ev.first) : ∃ spare', spare'.length = spare.length ∧
      handleEvent coap channel callEventHandler s m (ev.bytes ++ spare) =
        parseEvent coap callEventHandler s ev.bytes.length (ev.bytes ++ spare') := by
  have hfirst := ev.bytes_first spare
  rw [handleEvent_eq callEventHandler s hm.capacity_eq hfirst, hm.length_eq]
  by_cases hasked : coap.type ev.first = .con ∧ channel.isUnreliable ∧ HasRoom channel m
  · obtain ⟨spare', hlength, hspare⟩ := withAck_event hm hasked.2.2
    rw [if_pos hasked, if_neg (not_not.mpr (hack hasked)), hspare]
    exact ⟨spare', hlength, rfl⟩
  · rw [if_neg hasked]
    exact ⟨spare, rfl, rfl⟩

/-- The calls for an event, if it is handled in its buffer. -/
theorem parseEvent_calls (hrfc : FollowsRfc coap) (h : Holds s subs) (callEventHandler : Bool)
    (ev : Event) (spare : List UInt8) :
    (∃ error calls mem', parseEvent coap callEventHandler s ev.bytes.length (ev.bytes ++ spare) =
      some ((error, calls), mem') ∧ ∃ c ∈ calls, c.Calls handler handlerData) ↔
    ParseFits coap (ev.bytes ++ spare) ev.bytes.length ∧ ∃ sub ∈ subs,
      sub.handler = handler ∧ sub.handlerData = handlerData ∧ sub.name.chars <+: ev.name := by
  have hlen : ev.bytes.length ≤ (ev.bytes ++ spare).length :=
    (List.sublist_append_left _ _).length_le
  rw [← parseEvent_isSome_iff hrfc hlen callEventHandler s]
  rcases parseEvent_event ev hrfc callEventHandler s spare with
    ⟨-, hnone⟩ | ⟨p, data, mem', hrun, -⟩
  · rw [hnone]
    refine iff_of_false ?_ fun hc ↦ absurd hc.1 Bool.false_ne_true
    rintro ⟨_, _, _, hc, -⟩
    cases hc
  · rw [hrun, h.takeWhile_eq, Option.isSome_some]
    constructor
    · rintro ⟨_, calls, _, heq, c, hc, hcalls⟩
      cases heq
      obtain ⟨e, he, rfl⟩ := List.mem_map.mp hc
      obtain ⟨he, hmatch⟩ := List.mem_filter.mp he
      obtain ⟨sub, hsub, rfl⟩ := List.mem_map.mp he
      obtain ⟨hhandler, hdata⟩ := (calls_invocation callEventHandler _ p data).mp hcalls
      exact ⟨rfl, sub, hsub, hhandler, hdata, (matchesName_entry _ sub).mp hmatch⟩
    · rintro ⟨-, sub, hsub, hhandler, hdata, hprefix⟩
      refine ⟨_, _, _, rfl, _, List.mem_map_of_mem (List.mem_filter.mpr
        ⟨List.mem_map_of_mem hsub, (matchesName_entry _ sub).mpr hprefix⟩), ?_⟩
      exact (calls_invocation callEventHandler _ p data).mpr ⟨hhandler, hdata⟩

/-- **An event is delivered** to the handlers of the subscriptions that match it, if it is handled
in its buffer and acknowledged. -/
theorem delivers_event (hrfc : FollowsRfc coap) (h : Holds s subs) (callEventHandler : Bool)
    (hm : Carries m ev spare) :
    Delivers coap channel callEventHandler s m (ev.bytes ++ spare) handler handlerData ↔
      (Contained coap channel m (ev.bytes ++ spare) ∧ Acknowledged coap channel m ev.first) ∧
      ∃ sub ∈ subs, sub.handler = handler ∧ sub.handlerData = handlerData ∧
        sub.name.chars <+: ev.name := by
  have hfirst := ev.bytes_first spare
  rw [Delivers, handleEvent_eq callEventHandler s hm.capacity_eq hfirst, contained_iff hfirst,
    Acknowledged]
  by_cases hack : coap.type ev.first = .con ∧ channel.isUnreliable ∧ HasRoom channel m
  · rw [if_pos hack, if_pos hack, imp_iff_right hack]
    by_cases hsent : channel.send (ack channel m) ackBytes = .noError
    · obtain ⟨spare', -, hspare⟩ := withAck_event hm hack.2.2
      rw [if_neg (not_not.mpr hsent), or_iff_right (not_not.mpr hsent), hm.length_eq, hspare,
        parseEvent_calls hrfc h, and_iff_left hsent]
    · rw [if_pos hsent]
      refine iff_of_false ?_ fun hc ↦ hsent hc.1.2
      rintro ⟨_, calls, _, heq, c, hc, -⟩
      cases heq
      cases hc
  · rw [if_neg hack, if_neg hack, hm.length_eq, parseEvent_calls hrfc h, and_assoc,
      and_iff_right (fun hc ↦ absurd hc hack)]

/-! ## Registrations -/

/-- Later registrations leave the subscriptions where they are. -/
theorem run_registrations (h : Holds s subs) (later : List Registration) : ∃ more,
    Holds (s.run (later.map Op.addEventHandler)) (subs ++ more) := by
  induction later generalizing s subs with
  | nil => exact ⟨[], by rw [List.append_nil]; exact h⟩
  | cons r later ih =>
    obtain ⟨subs₁, h₁, hsubs⟩ := addEventHandler_spec h r
    obtain ⟨more, h'⟩ := ih h₁
    rcases hsubs with rfl | rfl
    · exact ⟨more, h'⟩
    · exact ⟨r.subscription :: more, by rw [List.append_cons]; exact h'⟩

/-- A successful registration that is not found is stored. -/
theorem addEventHandler_stored (h : Holds s subs) (r : Registration)
    (hexists : s.eventHandlerExists r.eventName r.handler r.handlerData r.scope r.id = false)
    (hadd : (s.addEventHandler r.eventName r.handler r.handlerData r.scope r.id).1 = .noError) :
    Holds (s.addEventHandler r.eventName r.handler r.handlerData r.scope r.id).2
      (subs ++ [r.subscription]) := by
  rw [addEventHandler, hexists, if_neg Bool.false_ne_true] at hadd ⊢
  obtain ⟨s', heq, h'⟩ := addLoop_spec h r
  rw [heq] at hadd ⊢
  by_cases hroom : subs.length < numHandlers
  · rwa [if_pos hroom] at h'
  · rw [if_neg hroom] at hadd
    cases hadd

/-- The name of an event that starts with a name, and is none of a few others. -/
theorem exists_longer (name : List UInt8) (names : List (List UInt8)) (h : names.length ≤ 5) :
    ∃ c : UInt8, c ≠ 0 ∧ name ++ [c] ∉ names := by
  by_contra hall
  have hmem : ∀ c : UInt8, c ≠ 0 → name ++ [c] ∈ names := fun c hc ↦
    by_contra fun hn ↦ hall ⟨c, hc, hn⟩
  have hnodup : (([1, 2, 3, 4, 5, 6] : List UInt8).map fun c ↦ name ++ [c]).Nodup :=
    List.Nodup.map (fun a b hab ↦ List.singleton_injective (List.append_cancel_left hab))
      (by decide)
  have hsub : (([1, 2, 3, 4, 5, 6] : List UInt8).map fun c ↦ name ++ [c]) ⊆ names := by
    intro n hn
    obtain ⟨c, hc, rfl⟩ := List.mem_map.mp hn
    have hnonzero : ∀ c ∈ ([1, 2, 3, 4, 5, 6] : List UInt8), c ≠ 0 := by simp
    exact hmem c (hnonzero c hc)
  have hle := (hnodup.subperm hsub).length_le
  rw [List.length_map, List.length_cons] at hle
  exact absurd (hle.trans h) (by decide)

/-- The registered handler gets the events with its name: those that are handled in their buffer and
acknowledged, however many other registrations follow. -/
def DeliversAll (coap : CoAP) (s : Subscriptions) (r : Registration) : Prop :=
  ∀ (later : List Registration) (channel : Channel) (callEventHandler : Bool) (m : Message)
    (ev : Event) (spare : List UInt8), Carries m ev spare → r.eventName.chars <+: ev.name →
    (Delivers coap channel callEventHandler (s.run (later.map Op.addEventHandler)) m
        (ev.bytes ++ spare) r.handler r.handlerData ↔
      Contained coap channel m (ev.bytes ++ spare) ∧ Acknowledged coap channel m ev.first)

/-- A subscription in the table gets the events of a registration. -/
def Covers (h : FilteringEventHandler) (r : Registration) : Prop :=
  h.handler = r.handler ∧ h.handlerData = r.handlerData ∧
    string h.filter.bytes <+: r.eventName.chars

theorem covers_entry (sub : Subscription) (r : Registration) : Covers sub.entry r ↔
    sub.handler = r.handler ∧ sub.handlerData = r.handlerData ∧
      sub.name.chars <+: r.eventName.chars := by
  rw [Covers, string_filter]
  exact Iff.rfl

/-- A table delivers all events if it holds a subscription for them. -/
theorem deliversAll_of_covers (hrfc : FollowsRfc coap) (h : Holds s subs) {r : Registration}
    {sub : Subscription} (hsub : sub ∈ subs) (hcovers : Covers sub.entry r) :
    DeliversAll coap s r := by
  intro later channel callEventHandler m ev spare hm hname
  obtain ⟨more, hlater⟩ := run_registrations h later
  obtain ⟨hhandler, hdata, hprefix⟩ := (covers_entry sub r).mp hcovers
  rw [delivers_event hrfc hlater callEventHandler hm]
  exact and_iff_left ⟨sub, List.mem_append_left _ hsub, hhandler, hdata, hprefix.trans hname⟩

/-- A channel that does not ask for acknowledgements. -/
def plainChannel : Channel := ⟨false, .dtls, max_dtls_le, fun _ _ ↦ .noError⟩

/-- A message that is large enough for its event. -/
theorem carries_message (ev : Event) (spare : List UInt8) :
    Carries (ev.message (ev.bytes ++ spare).length) ev spare := by
  have hset : ev.message (ev.bytes ++ spare).length =
      { Message.new.setBuffer 0 (ev.bytes ++ spare).length with
        messageLength := ev.bytes.length, length_le := by simp [Message.setBuffer] } :=
    dif_pos (by simp [Message.setBuffer])
  rw [hset]
  exact ⟨rfl, rfl⟩

/-- With a byte to spare, an event is handled in its buffer. -/
theorem parseFits_event (hrfc : FollowsRfc coap) (ev : Event) (hspare : spare ≠ []) :
    ParseFits coap (ev.bytes ++ spare) ev.bytes.length := by
  rw [← parseEvent_isSome_iff hrfc (List.sublist_append_left _ _).length_le false new]
  rcases parseEvent_event ev hrfc false new spare with ⟨hnil, -⟩ | ⟨p, data, mem', hrun, -⟩
  · exact absurd hnil hspare
  · rw [hrun]
    rfl

theorem contained_plain (hrfc : FollowsRfc coap) (ev : Event) :
    Contained coap plainChannel (ev.message (ev.bytes ++ [0]).length) (ev.bytes ++ [0]) ∧
      Acknowledged coap plainChannel (ev.message (ev.bytes ++ [0]).length) ev.first := by
  have hplain : ¬ (coap.type ev.first = .con ∧ plainChannel.isUnreliable = true ∧
      HasRoom plainChannel (ev.message (ev.bytes ++ [0]).length)) := fun hc ↦
    Bool.false_ne_true hc.2.1
  refine ⟨(contained_iff (ev.bytes_first [0])).mpr ?_, fun hc ↦ absurd hc hplain⟩
  rw [if_neg hplain, (carries_message ev [0]).length_eq]
  exact parseFits_event hrfc ev (List.cons_ne_nil _ _)

/-- A table that delivers all events holds a subscription for them. -/
theorem covers_of_deliversAll (hrfc : FollowsRfc coap) (h : Holds s subs) {r : Registration}
    (hname : r.eventName.chars.length ≤ 64) (hall : DeliversAll coap s r) :
    ∃ sub ∈ subs, Covers sub.entry r := by
  obtain ⟨c, hc, hother⟩ := exists_longer r.eventName.chars (subs.map (·.name.chars))
    (by rw [List.length_map]; exact h.length_le)
  have hlength : (r.eventName.chars ++ [c]).length ≤ maxOptionLength := by
    rw [List.length_append, List.length_singleton, maxOptionLength]
    omega
  have hnonzero : ∀ b ∈ r.eventName.chars ++ [c], b ≠ 0 := by
    intro b hb
    rcases List.mem_append.mp hb with hb | hb
    · exact r.eventName.nonzero b hb
    · rwa [List.mem_singleton.mp hb]
  let ev := Event.ofName (r.eventName.chars ++ [c]) (List.append_ne_nil_of_right_ne_nil _
    (List.cons_ne_nil _ _)) hnonzero hlength
  have hevent : ev.name = r.eventName.chars ++ [c] := List.append_nil _
  have hm := carries_message ev [0]
  have hdelivers := hall [] plainChannel false _ ev [0] hm
    (by rw [hevent]; exact List.prefix_append _ _)
  obtain ⟨-, sub, hsub, hhandler, hdata, hprefix⟩ :=
    (delivers_event hrfc h false hm).mp (hdelivers.mpr (contained_plain hrfc ev))
  refine ⟨sub, hsub, (covers_entry sub r).mpr ⟨hhandler, hdata, ?_⟩⟩
  -- the name of the subscription is not the whole name of the event
  rw [hevent, List.prefix_concat_iff] at hprefix
  refine hprefix.resolve_left fun heq ↦ hother ?_
  rw [← heq]
  exact List.mem_map_of_mem hsub

/-- **A registration gets its events** if and only if it is stored, because it is not taken for a
known one, or a subscription for the same handler and a beginning of its name is in the table. -/
theorem deliversAll_iff (hrfc : FollowsRfc coap) (ops : List Op) (r : Registration)
    (hname : r.eventName.chars.length ≤ 64)
    (hadd : ((run new ops).addEventHandler r.eventName r.handler r.handlerData r.scope r.id).1 =
      .noError) :
    DeliversAll coap (run new (ops ++ [.addEventHandler r])) r ↔
      (run new ops).eventHandlerExists r.eventName r.handler r.handlerData r.scope r.id = false ∨
        ∃ h ∈ (run new ops).active, Covers h r := by
  obtain ⟨subs, h, -⟩ := run_spec holds_new ops
  have hrun : run new (ops ++ [.addEventHandler r]) =
      ((run new ops).addEventHandler r.eventName r.handler r.handlerData r.scope r.id).2 := by
    rw [run, List.foldl_append]
    rfl
  rw [hrun, h.active_eq]
  rcases hexists : (run new ops).eventHandlerExists r.eventName r.handler r.handlerData r.scope r.id
  · -- the registration is stored
    have hstored := addEventHandler_stored h r hexists hadd
    refine iff_of_true (deliversAll_of_covers hrfc hstored
      (List.mem_append_right _ (List.mem_singleton_self _)) ?_) (.inl rfl)
    exact (covers_entry _ r).mpr ⟨rfl, rfl, List.take_prefix _ _⟩
  · rw [addEventHandler, if_pos hexists, or_iff_right (Bool.false_ne_true ∘ Eq.symm)]
    constructor
    · intro hall
      obtain ⟨sub, hsub, hcovers⟩ := covers_of_deliversAll hrfc h hname hall
      exact ⟨sub.entry, List.mem_map_of_mem hsub, hcovers⟩
    · rintro ⟨e, he, hcovers⟩
      obtain ⟨sub, hsub, rfl⟩ := List.mem_map.mp he
      exact deliversAll_of_covers hrfc h hsub hcovers

/-- The names `abc` and `ab`. -/
def abc : CString := ⟨[97, 98, 99], by simp⟩

def ab : CString := ⟨[97, 98], by simp⟩

/-- The event `ab`. -/
def abEvent : Event := .ofName ab.chars (List.cons_ne_nil _ _) ab.nonzero (by decide)

theorem deliversAll_iff_ab :
    DeliversAll .standard (run new ([.addEventHandler (registration ab 0)] ++
        [.addEventHandler (registration abc 0)])) (registration abc 0) ↔
      (run new [.addEventHandler (registration ab 0)]).eventHandlerExists abc 0x08020001 0 .firehose
          none = false ∨
        ∃ h ∈ (run new [.addEventHandler (registration ab 0)]).active,
          Covers h (registration abc 0) :=
  deliversAll_iff followsRfc_standard [.addEventHandler (registration ab 0)] (registration abc 0)
    (by decide) (by decide +kernel)

/-- After `abc`, the name `ab` is taken for registered, and the event `ab` is lost. -/
theorem ab_lost : FollowsRfc .standard ∧
    ((run new [.addEventHandler (registration abc 0)]).addEventHandler ab 0x08020001 0 .firehose
      none).1 = .noError ∧
    handleEvent .standard plainChannel false
        (run new ([.addEventHandler (registration abc 0)] ++
          [.addEventHandler (registration ab 0)])) (abEvent.message 10) (abEvent.bytes ++ [0]) =
      some ((.noError, []), abEvent.bytes ++ [0]) ∧
    ¬ DeliversAll .standard (run new ([.addEventHandler (registration abc 0)] ++
      [.addEventHandler (registration ab 0)])) (registration ab 0) := by
  have hevent : handleEvent .standard plainChannel false
      (run new ([.addEventHandler (registration abc 0)] ++ [.addEventHandler (registration ab 0)]))
      (abEvent.message 10) (abEvent.bytes ++ [0]) =
    some ((.noError, []), abEvent.bytes ++ [0]) := by decide +kernel
  refine ⟨followsRfc_standard, by decide +kernel, hevent, fun hall ↦ ?_⟩
  obtain ⟨_, calls, _, heq, c, hc, -⟩ := (hall [] plainChannel false _ abEvent [0]
    (carries_message abEvent [0]) (List.prefix_refl _)).mpr
      (contained_plain followsRfc_standard abEvent)
  rw [List.map_nil] at heq
  change handleEvent .standard plainChannel false _ (abEvent.message 10) _ = _ at heq
  rw [run, List.foldl_nil, hevent] at heq
  cases heq
  cases hc

/-! ## All handlers of an event -/

/-- **An event is dispatched** to the registered handlers whose filter its name begins with, each
one once and in the order of the table, with the name and the payload as strings. -/
theorem handleEvent_dispatches (hrfc : FollowsRfc coap) (ops : List Op) (callEventHandler : Bool)
    (hm : Carries m ev spare) (hspare : spare ≠ [])
    (hack : Acknowledged coap channel m ev.first) :
    ∃ p data mem', handleEvent coap channel callEventHandler (run new ops) m (ev.bytes ++ spare) =
        some ((.noError, ((run new ops).active.filter fun h ↦
          string h.filter.bytes <+: ev.name).map (invocation callEventHandler · p data)), mem') ∧
      StringAt mem' p ev.name ∧ data.isSome = ev.payload.isSome ∧
      ∀ q ∈ data, ∀ payload ∈ ev.payload, StringAt mem' q payload := by
  obtain ⟨subs, h, -⟩ := run_spec holds_new ops
  obtain ⟨spare', hlength, hhandle⟩ := handleEvent_event callEventHandler (run new ops) hm hack
  rw [hhandle]
  rcases parseEvent_event ev hrfc callEventHandler (run new ops) spare' with
    ⟨rfl, -⟩ | ⟨p, data, mem', hrun, hname, hdata, hpayload⟩
  · exact absurd (List.eq_nil_of_length_eq_zero hlength.symm) hspare
  · refine ⟨p, data, mem', ?_, hname, hdata, hpayload⟩
    have hmatch : ∀ e ∈ subs.map Subscription.entry,
        matchesName ev.name e = decide (string e.filter.bytes <+: ev.name) := by
      intro e he
      obtain ⟨sub, -, rfl⟩ := List.mem_map.mp he
      rw [Bool.eq_iff_iff, matchesName_entry, string_filter, decide_eq_true_iff]
    rw [hrun, h.takeWhile_eq, h.active_eq, List.filter_congr hmatch]

/-- The event `ab/c` with a payload. -/
def slashEvent : Event :=
  { abEvent with
    segments := [[99]]
    payload := some [120]
    nonzero := List.forall_mem_cons.mpr
      ⟨abEvent.nonzero _ List.mem_cons_self, List.forall_mem_singleton.mpr (by simp)⟩
    length_le := List.forall_mem_cons.mpr
      ⟨abEvent.length_le _ List.mem_cons_self, List.forall_mem_singleton.mpr (by decide)⟩ }

theorem handleEvent_dispatches_slash : ∃ p data mem',
    handleEvent .standard plainChannel false
        (run new [.addEventHandler (registration abc 0), .addEventHandler (registration nameA 7)])
        (slashEvent.message (slashEvent.bytes ++ [0]).length) (slashEvent.bytes ++ [0]) =
      some ((.noError, [.handlerWithData 0x08020001 7 p data]), mem') ∧
      StringAt mem' p [97, 98, 47, 99] := by
  obtain ⟨p, data, mem', hrun, hname, -⟩ := handleEvent_dispatches followsRfc_standard
    [.addEventHandler (registration abc 0), .addEventHandler (registration nameA 7)] false
    (carries_message slashEvent [0]) (List.cons_ne_nil _ _)
    (contained_plain followsRfc_standard slashEvent).2
  exact ⟨p, data, mem', hrun, hname⟩

end Subscriptions

end DuoFirmware.Comm
