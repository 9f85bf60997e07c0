import DuoFirmware.Comm.EventContainment
import DuoFirmware.Comm.SubscriptionTable

/-!
# Dispatching events

A well-formed event message, with a spare byte behind it, is dispatched to the entries of the table
whose name its own name starts with. From this it follows which subscriptions are lost: the table
takes a registration for known if its name is the beginning of another one.
-/

namespace DuoFirmware.Comm

open Bytes

/-- A well-formed event message. -/
structure Event where
  /-- The header of the message; the first byte holds the length of the token. -/
  first : UInt8
  code : UInt8
  messageId : UInt16
  token : List UInt8
  token_length : token.length = first.toNat % 16
  /-- The location path. -/
  location : UInt8
  segment : List UInt8
  segments : List (List UInt8)
  maxAge : Option (List UInt8)
  payload : Option (List UInt8)
  segment_ne : segment ≠ []
  nonzero : ∀ s ∈ segment :: segments, ∀ c ∈ s, c ≠ 0
  length_le : ∀ s ∈ segment :: segments, s.length ≤ maxOptionLength
  maxAge_le : ∀ s ∈ maxAge, s.length ≤ maxOptionLength

namespace Event

/-- A path option. -/
def option (delta : ℕ) (value : List UInt8) : List UInt8 :=
  encodeHeader delta value.length ++ value

/-- The name with slashes. -/
def joined (segments : List (List UInt8)) : List UInt8 := segments.flatMap fun s ↦ 47 :: s

variable (ev : Event)

def name : List UInt8 := ev.segment ++ joined ev.segments

/-- What comes before the path options. -/
def head : List UInt8 :=
  [ev.first, ev.code, (ev.messageId >>> 8).toUInt8, ev.messageId.toUInt8] ++ ev.token ++
    [0xb1, ev.location]

def maxAgeBytes : List UInt8 :=
  match ev.maxAge with
  | none => []
  | some value => option 3 value

def payloadBytes : List UInt8 :=
  match ev.payload with
  | none => []
  | some payload => 0xff :: payload

def bytes : List UInt8 :=
  ev.head ++ option 0 ev.segment ++ ev.segments.flatMap (option 0) ++ ev.maxAgeBytes ++
    ev.payloadBytes

/-- What comes before the name. -/
def beforeName : List UInt8 := ev.head ++ encodeHeader 0 ev.segment.length

/-- The message of an event, in a buffer of some size. -/
def message (capacity : ℕ) : Message :=
  (Message.new.setBuffer 0 capacity).setLength ev.bytes.length

/-- An event with a name of one segment, and nothing else. -/
def ofName (name : List UInt8) (hne : name ≠ []) (hnonzero : ∀ c ∈ name, c ≠ 0)
    (hlength : name.length ≤ maxOptionLength) : Event where
  first := 0x50
  code := 0x02
  messageId := 0
  token := []
  token_length := rfl
  location := 69
  segment := name
  segments := []
  maxAge := none
  payload := none
  segment_ne := hne
  nonzero s hs := by
    obtain rfl := List.mem_singleton.mp hs
    exact hnonzero
  length_le s hs := by
    obtain rfl := List.mem_singleton.mp hs
    exact hlength
  maxAge_le := fun _ h ↦ absurd h (Option.not_mem_none _)

theorem bytes_first (spare : List UInt8) : (ev.bytes ++ spare)[0]? = some ev.first := by
  rw [bytes, head]
  rfl

theorem length_head : ev.head.length = 6 + ev.first.toNat % 16 := by
  simp only [head, List.length_append, List.length_cons, List.length_nil, ev.token_length]
  omega

end Event

namespace Subscriptions

variable {coap : CoAP} {e n : ℕ} {mem : List UInt8}

/-! ## The path options of an event -/

/-- Some bytes are moved down over those in front of them. -/
theorem memmove_down (pre junk seg r : List UInt8) :
    memmove pre.length (pre.length + junk.length) seg.length (pre ++ (junk ++ seg) ++ r) =
      some ((), pre ++ seg ++ (junk ++ seg).drop seg.length ++ r) := by
  have hsplit : pre ++ (junk ++ seg) ++ r = (pre ++ junk) ++ (seg ++ r) := by
    simp only [List.append_assoc]
  have hseg : ((pre ++ (junk ++ seg) ++ r).drop (pre.length + junk.length)).take seg.length =
      seg := by
    rw [hsplit, List.drop_left' List.length_append, List.take_left]
  have hmove : memmove pre.length (pre.length + junk.length) seg.length
      (pre ++ (junk ++ seg) ++ r) = some ((), _) :=
    memmove_eq (by simp only [List.length_append]; omega) (by simp only [List.length_append]; omega)
  rwa [hseg, splice_append_of_le _ _ _ (by rw [List.length_append]; omega)] at hmove

/-- **A round of the loop** appends a segment to the name. -/
theorem pathRound_option (hrfc : FollowsRfc coap) (name gap seg r : List UInt8)
    (hseg : seg.length ≤ maxOptionLength) : ∃ gap',
    (name ++ 47 :: seg ++ gap').length = (name ++ gap ++ Event.option 0 seg).length ∧
    pathRound coap (name ++ gap).length name.length (name ++ gap ++ Event.option 0 seg ++ r) =
      some (((name ++ 47 :: seg ++ gap').length, (name ++ 47 :: seg).length),
        name ++ 47 :: seg ++ gap' ++ r) := by
  have hdecode : coap.optionDecode ((name ++ gap ++ Event.option 0 seg ++ r).drop
      (name ++ gap).length) = some (seg.length, (encodeHeader 0 seg.length).length) := by
    rw [List.append_assoc, List.drop_left, Event.option, List.append_assoc]
    exact optionDecode_encodeHeader hrfc (by decide) hseg _
  -- the bytes between the name and the segment, of which there is at least one
  obtain ⟨j, junk, hjunk⟩ := List.exists_cons_of_ne_nil
    (List.append_ne_nil_of_right_ne_nil gap (encodeHeader_ne_nil 0 seg.length))
  have hmem : name ++ gap ++ Event.option 0 seg ++ r = name ++ [j] ++ (junk ++ seg ++ r) := by
    rw [Event.option]
    simp only [List.append_assoc]
    rw [← List.append_assoc gap, hjunk]
    rfl
  have hjunkLen : gap.length + (encodeHeader 0 seg.length).length = junk.length + 1 := by
    rw [← List.length_append, hjunk, List.length_cons]
  have hsrc : (name ++ gap).length + (encodeHeader 0 seg.length).length =
      name.length + 1 + junk.length := by
    rw [List.length_append]
    omega
  have hwrite : write name.length 47 (name ++ [j] ++ (junk ++ seg ++ r)) =
      some ((), name ++ [47] ++ (junk ++ seg ++ r)) := by
    rw [write_eq _ (by simp only [List.length_append, List.length_cons]; omega),
      splice_append name [j] (junk ++ seg ++ r) (s := [47]) rfl]
  have hgap : ((junk ++ seg).drop seg.length).length = junk.length := by
    rw [List.length_drop, List.length_append, Nat.add_sub_cancel]
  refine ⟨(junk ++ seg).drop seg.length, ?_, ?_⟩
  · rw [Event.option]
    simp only [List.length_append, List.length_cons, hgap]
    omega
  rw [pathRound, run_bind (optionDecode_eq hdecode)]
  dsimp only
  rw [hmem, hsrc, run_bind hwrite]
  have hmem₂ : name ++ [47] ++ (junk ++ seg ++ r) = (name ++ [47]) ++ (junk ++ seg) ++ r := by
    simp only [List.append_assoc]
  have hdest : (name ++ [47]).length = name.length + 1 := List.length_append
  have hresult : (name ++ [47]) ++ seg ++ (junk ++ seg).drop seg.length ++ r =
      name ++ 47 :: seg ++ (junk ++ seg).drop seg.length ++ r := by
    simp
  by_cases hone : junk = []
  · -- the segment is where it belongs
    subst hone
    rw [if_neg (by simp), hmem₂, List.nil_append, List.drop_length]
    refine congrArg some (Prod.ext (Prod.ext ?_ ?_) ?_)
    · simp
      omega
    · simp
      omega
    · simp
  · have hpos := List.length_pos_of_ne_nil hone
    have hmove := memmove_down (name ++ [47]) junk seg r
    rw [hdest, hresult] at hmove
    rw [if_pos (by omega), hmem₂, run_bind hmove]
    refine congrArg some (Prod.ext (Prod.ext ?_ ?_) rfl)
    · simp only [List.length_append, List.length_cons, hgap]
      omega
    · simp only [List.length_append, List.length_cons]
      omega

/-- **The loop over the path options** puts the name together. -/
theorem pathLoop_options (hrfc : FollowsRfc coap) {r : List UInt8}
    (hr : ∀ b ∈ r.head?, b &&& 0xf0 ≠ 0) (segments : List (List UInt8))
    (hsegments : ∀ s ∈ segments, s.length ≤ maxOptionLength) (name gap tail : List UInt8)
    {rounds : ℕ} (hrounds : segments.length ≤ rounds)
    (he : e = (name ++ gap ++ segments.flatMap (Event.option 0) ++ r).length) : ∃ gap',
    (name ++ Event.joined segments ++ gap').length =
      (name ++ gap ++ segments.flatMap (Event.option 0)).length ∧
    pathLoop coap e rounds (name ++ gap).length name.length
        (name ++ gap ++ segments.flatMap (Event.option 0) ++ (r ++ tail)) =
      some (((name ++ Event.joined segments ++ gap').length,
          (name ++ Event.joined segments).length),
        name ++ Event.joined segments ++ gap' ++ (r ++ tail)) := by
  induction segments generalizing name gap rounds with
  | nil =>
    have hflat : ([] : List (List UInt8)).flatMap (Event.option 0) = [] := rfl
    have hjoined : Event.joined [] = [] := rfl
    rw [hflat, List.append_nil] at he ⊢
    rw [hjoined, List.append_nil]
    refine ⟨gap, rfl, pathLoop_end rounds fun hlt ↦ ?_⟩
    -- something follows the options, and it is not one of the path
    rcases r with _ | ⟨b, r⟩
    · rw [he, List.append_nil] at hlt
      exact absurd hlt (lt_irrefl _)
    · refine ⟨b, ?_, hr b rfl⟩
      rw [List.getElem?_append_right le_rfl, Nat.sub_self]
      rfl
  | cons seg segments ih =>
    obtain ⟨rounds, rfl⟩ : ∃ k, rounds = k + 1 :=
      Nat.exists_eq_succ_of_ne_zero (Nat.ne_zero_of_lt hrounds)
    have hflat : (seg :: segments).flatMap (Event.option 0) =
        Event.option 0 seg ++ segments.flatMap (Event.option 0) := List.flatMap_cons
    have hjoined : name ++ Event.joined (seg :: segments) =
        name ++ 47 :: seg ++ Event.joined segments := by
      rw [Event.joined, List.flatMap_cons, ← List.append_assoc]
      rfl
    obtain ⟨hb, hrest⟩ := List.forall_mem_cons.mp hsegments
    obtain ⟨b, t, hheader, hdelta⟩ := encodeHeader_eq_cons (show 0 < 13 by decide) seg.length
    obtain ⟨gap₁, hlen₁, hround⟩ := pathRound_option hrfc name gap seg
      (segments.flatMap (Event.option 0) ++ (r ++ tail)) hb
    rw [hflat, ← List.append_assoc] at he ⊢
    have hread : (name ++ gap ++ Event.option 0 seg ++ segments.flatMap (Event.option 0) ++
        (r ++ tail))[(name ++ gap).length]? = some b := by
      simp only [List.append_assoc]
      rw [← List.append_assoc name, List.getElem?_append_right le_rfl, Nat.sub_self,
        Event.option, hheader]
      rfl
    have hend : (name ++ gap).length < e := by
      have hpos : 0 < (Event.option 0 seg).length := by
        rw [Event.option, hheader]
        exact Nat.succ_pos _
      simp only [he, List.length_append] at hpos ⊢
      omega
    have htotal :
        e = (name ++ 47 :: seg ++ gap₁ ++ segments.flatMap (Event.option 0) ++ r).length := by
      rw [he]
      simp only [List.length_append] at hlen₁ ⊢
      omega
    obtain ⟨gap', hlen, hloop⟩ := ih hrest (name ++ 47 :: seg) gap₁
      (Nat.le_of_succ_le_succ hrounds) htotal
    refine ⟨gap', ?_, ?_⟩
    · rw [hjoined, hlen]
      simp only [List.length_append] at hlen₁ ⊢
      omega
    · rw [pathLoop, if_pos hend, run_bind (read_eq_some hread),
        if_pos (show b &&& 0xf0 = 0 from hdelta)]
      rw [← List.append_assoc] at hround
      rw [run_bind hround, hjoined]
      dsimp only
      rw [← List.append_assoc]
      exact hloop

theorem length_le_flatMap (segments : List (List UInt8)) :
    segments.length ≤ (segments.flatMap (Event.option 0)).length := by
  induction segments with
  | nil => exact le_rfl
  | cons seg segments ih =>
    have hpos := List.length_pos_of_ne_nil (encodeHeader_ne_nil 0 seg.length)
    simp only [List.flatMap_cons, List.length_append, Event.option, List.length_cons] at ih ⊢
    omega

/-! ## What follows them -/

/-- A string with its zero byte. -/
def StringAt (mem : List UInt8) (p : ℕ) (s : List UInt8) : Prop := ∃ r, mem.drop p = s ++ 0 :: r

variable (ev : Event)

/-- What follows the path options is none of them. -/
theorem head_maxAge : ∀ b ∈ (ev.maxAgeBytes ++ ev.payloadBytes).head?, b &&& 0xf0 ≠ 0 := by
  intro b hb
  rw [Event.maxAgeBytes, Event.payloadBytes] at hb
  rcases hmax : ev.maxAge with _ | value
  · rcases hpay : ev.payload with _ | payload
    · rw [hmax, hpay] at hb
      cases hb
    · rw [hmax, hpay] at hb
      cases hb
      decide
  · obtain ⟨c, t, hheader, hdelta⟩ := encodeHeader_eq_cons (show 3 < 13 by decide) value.length
    simp only [hmax, Event.option, hheader] at hb
    cases hb
    rw [hdelta]
    decide

/-- **The Max-Age option** is skipped. -/
theorem skipMaxAge_event (hrfc : FollowsRfc coap) (pre tail : List UInt8)
    (he : e = (pre ++ ev.maxAgeBytes ++ ev.payloadBytes).length) :
    skipMaxAge coap e pre.length (pre ++ ev.maxAgeBytes ++ ev.payloadBytes ++ tail) =
      some ((pre ++ ev.maxAgeBytes).length, pre ++ ev.maxAgeBytes ++ ev.payloadBytes ++ tail) := by
  rw [Event.maxAgeBytes] at he ⊢
  rcases hmax : ev.maxAge with _ | value
  · simp only [hmax, List.append_nil] at he ⊢
    rw [Event.payloadBytes] at he ⊢
    rcases hpay : ev.payload with _ | payload
    · simp only [hpay, List.append_nil] at he ⊢
      rw [skipMaxAge, if_neg (by rw [he]; exact lt_irrefl _)]
      rfl
    · simp only [hpay] at he ⊢
      have hread : (pre ++ 0xff :: payload ++ tail)[pre.length]? = some 0xff := by
        rw [List.append_assoc, List.getElem?_append_right le_rfl, Nat.sub_self]
        rfl
      have hlt : pre.length < e := by
        rw [he, List.length_append, List.length_cons]
        omega
      rw [skipMaxAge, if_pos hlt, run_bind (read_eq_some hread), if_neg (by decide)]
      rfl
  · obtain ⟨c, t, hheader, hdelta⟩ := encodeHeader_eq_cons (show 3 < 13 by decide) value.length
    simp only [hmax] at he ⊢
    have hsplit : pre ++ Event.option 3 value ++ ev.payloadBytes ++ tail =
        pre ++ (encodeHeader 3 value.length ++ (value ++ (ev.payloadBytes ++ tail))) := by
      rw [Event.option]
      simp only [List.append_assoc]
    have hread : (pre ++ (encodeHeader 3 value.length ++
        (value ++ (ev.payloadBytes ++ tail))))[pre.length]? = some c := by
      rw [List.getElem?_append_right le_rfl, Nat.sub_self, hheader]
      rfl
    have hlt : pre.length < e := by
      rw [he, Event.option, hheader]
      simp only [List.length_append, List.length_cons]
      omega
    have hdecode := optionDecode_encodeHeader hrfc (show 3 < 13 by decide)
      (ev.maxAge_le value hmax) (value ++ (ev.payloadBytes ++ tail))
    rw [hsplit, skipMaxAge, if_pos hlt, run_bind (read_eq_some hread),
      if_pos (show c &&& 0xf0 = 0x30 from hdelta),
      run_bind (optionDecode_eq (by rw [List.drop_left]; exact hdecode))]
    refine congrArg some (Prod.ext ?_ rfl)
    rw [Event.option, List.length_append, List.length_append]
    exact Nat.add_assoc _ _ _

/-- **The payload** is terminated if there is a byte for it. -/
theorem payload_event (pre spare : List UInt8) (he : e = (pre ++ ev.payloadBytes).length) :
    spare = [] ∧ payload e pre.length (pre ++ ev.payloadBytes ++ spare) = none ∨
    ∃ spare', spare'.length = spare.length ∧ (∀ payload ∈ ev.payload, spare'.head? = some 0) ∧
      payload e pre.length (pre ++ ev.payloadBytes ++ spare) =
        some (ev.payload.map fun _ ↦ pre.length + 1, pre ++ ev.payloadBytes ++ spare') := by
  rw [Event.payloadBytes] at he ⊢
  rcases hpay : ev.payload with _ | bytes
  · simp only [hpay, List.append_nil] at he ⊢
    refine .inr ⟨spare, rfl, fun _ h ↦ absurd h (Option.not_mem_none _), ?_⟩
    rw [payload, if_neg (by rw [he]; exact lt_irrefl _)]
    rfl
  · simp only [hpay] at he ⊢
    have hread : (pre ++ 0xff :: bytes ++ spare)[pre.length]? = some 0xff := by
      rw [List.append_assoc, List.getElem?_append_right le_rfl, Nat.sub_self]
      rfl
    have hlt : pre.length < e := by
      rw [he, List.length_append, List.length_cons]
      omega
    rw [payload, if_pos hlt, run_bind (read_eq_some hread), if_pos rfl]
    rcases spare with _ | ⟨c, spare⟩
    · refine .inl ⟨rfl, run_bind_none (write_eq_none (0 : UInt8) ?_)⟩
      rw [List.append_nil, he]
    · have hsplit :
          pre ++ 0xff :: bytes ++ c :: spare = (pre ++ 0xff :: bytes) ++ [c] ++ spare := by
        rw [List.append_assoc _ [c]]
        rfl
      have hwrite : write e 0 (pre ++ 0xff :: bytes ++ c :: spare) =
          some ((), pre ++ 0xff :: bytes ++ [0] ++ spare) := by
        rw [hsplit, he, write_eq _ (by simp), splice_append (s := [0]) _ [c] _ rfl]
      refine .inr ⟨0 :: spare, rfl, fun _ _ ↦ rfl, ?_⟩
      rw [run_bind hwrite, List.append_assoc _ [0]]
      rfl

theorem bytes_event : ev.bytes = ev.beforeName ++ ev.segment ++
    ev.segments.flatMap (Event.option 0) ++ (ev.maxAgeBytes ++ ev.payloadBytes) := by
  rw [Event.bytes, Event.beforeName, Event.option]
  simp only [List.append_assoc]

/-- The first option with a part of the name is where it is expected. -/
theorem optionDecode_event (hrfc : FollowsRfc coap) (spare : List UInt8) :
    coap.optionDecode ((ev.bytes ++ spare).drop ev.head.length) =
      some (ev.segment.length, (encodeHeader 0 ev.segment.length).length) := by
  rw [bytes_event ev, Event.beforeName]
  simp only [List.append_assoc]
  rw [List.drop_left]
  exact optionDecode_encodeHeader hrfc (by decide) (ev.length_le _ List.mem_cons_self) _

/-- The name of an event is put together, with a gap of unused bytes behind it. -/
theorem pathLoop_event (hrfc : FollowsRfc coap) (spare : List UInt8) : ∃ gap,
    ev.bytes.length =
      (ev.beforeName ++ ev.name ++ gap ++ ev.maxAgeBytes ++ ev.payloadBytes).length ∧
    pathLoop coap ev.bytes.length (3 * ev.bytes.length) (ev.beforeName ++ ev.segment).length
      (ev.beforeName ++ ev.segment).length (ev.bytes ++ spare) =
        some (((ev.beforeName ++ ev.name ++ gap).length, (ev.beforeName ++ ev.name).length),
          ev.beforeName ++ ev.name ++ gap ++ ev.maxAgeBytes ++ ev.payloadBytes ++ spare) := by
  have hsplit := bytes_event ev
  generalize he : ev.bytes.length = e
  have hrounds : ev.segments.length ≤ 3 * e := by
    have := length_le_flatMap ev.segments
    rw [← he, hsplit]
    simp only [List.length_append]
    omega
  have hend₀ : e = (ev.beforeName ++ ev.segment ++ [] ++ ev.segments.flatMap (Event.option 0) ++
      (ev.maxAgeBytes ++ ev.payloadBytes)).length := by
    rw [← he, hsplit, List.append_nil]
  obtain ⟨gap, hlen, hloop⟩ := pathLoop_options hrfc (head_maxAge ev) ev.segments
    (fun s h ↦ ev.length_le s (List.mem_cons_of_mem _ h)) (ev.beforeName ++ ev.segment) [] spare
    hrounds hend₀
  have hname : ev.beforeName ++ ev.segment ++ Event.joined ev.segments =
      ev.beforeName ++ ev.name := List.append_assoc _ _ _
  have hmem : ev.beforeName ++ ev.segment ++ ev.segments.flatMap (Event.option 0) ++
      (ev.maxAgeBytes ++ ev.payloadBytes ++ spare) = ev.bytes ++ spare := by
    rw [hsplit]
    simp only [List.append_assoc]
  rw [List.append_nil, hmem, hname] at hloop
  rw [List.append_nil, hname] at hlen
  refine ⟨gap, ?_, ?_⟩
  · rw [← he, hsplit]
    simp only [List.length_append] at hlen ⊢
    omega
  · rw [hloop]
    simp only [List.append_assoc]

/-- **A well-formed event** is dispatched under its name, and the name and the payload are strings,
unless there is no byte to spare for a zero behind them. -/
theorem parseEvent_event (hrfc : FollowsRfc coap) (callEventHandler : Bool) (s : Subscriptions)
    (spare : List UInt8) :
    spare = [] ∧ parseEvent coap callEventHandler s ev.bytes.length (ev.bytes ++ spare) = none ∨
    ∃ p data mem', parseEvent coap callEventHandler s ev.bytes.length (ev.bytes ++ spare) =
        some ((.noError, ((s.eventHandlers.takeWhile (·.handler ≠ 0)).filter
          (matchesName ev.name)).map (invocation callEventHandler · p data)), mem') ∧
      StringAt mem' p ev.name ∧ data.isSome = ev.payload.isSome ∧
      ∀ q ∈ data, ∀ payload ∈ ev.payload, StringAt mem' q payload := by
  have hlocate : 6 + ev.first.toNat % 16 = ev.head.length := ev.length_head.symm
  have hsegment : ev.segment.length ≠ 0 := fun h ↦ ev.segment_ne (List.length_eq_zero_iff.mp h)
  rw [parseEvent, run_bind (read_eq_some (ev.bytes_first spare)), hlocate,
    run_bind (optionDecode_eq (optionDecode_event ev hrfc spare))]
  dsimp only
  rw [if_neg hsegment]
  -- the path options
  have hstart : ev.head.length + (encodeHeader 0 ev.segment.length).length =
      ev.beforeName.length := List.length_append.symm
  have hsrc : ev.beforeName.length + ev.segment.length =
      (ev.beforeName ++ ev.segment).length := List.length_append.symm
  obtain ⟨gap, hend, hloop⟩ := pathLoop_event ev hrfc spare
  generalize ev.bytes.length = e at hend hloop ⊢
  rw [hstart, hsrc, run_bind hloop]
  dsimp only
  have hd : (ev.beforeName ++ ev.name).length - ev.beforeName.length = ev.name.length := by
    rw [List.length_append, Nat.add_sub_cancel_left]
  -- what follows them
  have hskip := skipMaxAge_event ev hrfc (ev.beforeName ++ ev.name ++ gap) spare hend
  rw [run_bind hskip, hd]
  rcases payload_event ev (ev.beforeName ++ ev.name ++ gap ++ ev.maxAgeBytes) spare hend with
    ⟨hspare, hfail⟩ | ⟨spare', hspare, hzero, hpayload⟩
  · exact .inl ⟨hspare, run_bind_none hfail⟩
  rw [run_bind hpayload, ← List.length_append]
  rcases hrest : gap ++ ev.maxAgeBytes ++ ev.payloadBytes ++ spare' with _ | ⟨c, w⟩
  · -- there is no byte behind the name
    have hnil := (List.append_eq_nil_iff.mp hrest).2
    rw [hnil] at hspare
    refine .inl ⟨List.length_eq_zero_iff.mp hspare.symm,
      run_bind_none (write_eq_none (0 : UInt8) ?_)⟩
    simp only [List.append_assoc] at hrest ⊢
    rw [hrest, List.append_nil]
  have hmem₂ : ev.beforeName ++ ev.name ++ gap ++ ev.maxAgeBytes ++ ev.payloadBytes ++ spare' =
      (ev.beforeName ++ ev.name) ++ [c] ++ w := by
    simp only [List.append_assoc] at hrest ⊢
    rw [hrest]
    rfl
  have hwrite : write (ev.beforeName ++ ev.name).length 0 ((ev.beforeName ++ ev.name) ++ [c] ++ w) =
      some ((), (ev.beforeName ++ ev.name) ++ [0] ++ w) := by
    rw [write_eq _ (by simp), splice_append (s := [0]) _ [c] _ rfl]
  have hresult : (ev.beforeName ++ ev.name) ++ [0] ++ w =
      ev.beforeName ++ (ev.name ++ 0 :: w) := by simp
  rw [hmem₂, run_bind hwrite, hresult, run_bind (dispatch_eq callEventHandler _ (by simp) _)]
  rw [List.drop_left, List.take_left]
  refine .inr ⟨_, _, _, rfl, ⟨w, by rw [List.drop_left]⟩, by rw [Option.isSome_map], ?_⟩
  intro q hq payload hp
  obtain ⟨_, -, rfl⟩ := Option.map_eq_some_iff.mp hq
  obtain ⟨r, rfl⟩ := List.head?_eq_some_iff.mp (hzero payload hp)
  refine ⟨r, ?_⟩
  have hbytes : ev.payloadBytes = 0xff :: payload := by
    rw [Event.payloadBytes, Option.mem_def.mp hp]
  have hpos : (ev.beforeName ++ ev.name ++ gap ++ ev.maxAgeBytes).length + 1 =
      (ev.beforeName ++ ev.name).length + ((gap ++ ev.maxAgeBytes).length + 1) := by
    simp only [List.length_append]
    omega
  have hw : w.drop (gap ++ ev.maxAgeBytes).length = payload ++ 0 :: r := by
    rw [← List.drop_succ_cons (a := c), ← hrest, hbytes, List.append_assoc, List.cons_append,
      ← List.drop_drop, List.drop_left]
    rfl
  rw [← List.append_assoc, hpos, ← List.drop_drop, List.drop_left, List.drop_succ_cons, hw]

end Subscriptions

end DuoFirmware.Comm
