import DuoFirmware.System.Channel

/-!
# Runs of a channel

In every run of any number of threads, the values come out of a channel in the order they went in,
at most `N + 1` of them are in the queue, and a blocking send returns only when at most `N` are. No
wake-up is lost: when all threads wait, either the queue is empty and they receive, or it is full
and they send.
-/

namespace DuoFirmware.System

open Monitor

variable {T : Type} {N n i : ℕ} {c c' : Channel T} {ps ps' : List (Point T)} {p q : Point T} {t : T}
  {x : Input T}

namespace Channel

@[simp] theorem isFull_eq_true : c.isFull N = true ↔ N < c.queue.length := decide_eq_true_iff

@[simp] theorem isFull_eq_false : c.isFull N = false ↔ c.queue.length ≤ N := by
  rw [isFull, decide_eq_false_iff_not, not_lt]

theorem maySend_eq_true : c.maySend N = true ↔
    c.isSendDone = true ∧ c.isTrySendDone = true ∧ c.queue.length ≤ N := by
  rw [maySend, Bool.and_eq_true, Bool.and_eq_true, Bool.not_eq_true', isFull_eq_false, and_assoc]

theorem refusesTrySend_eq_false : c.refusesTrySend N = false ↔
    c.isSendDone = true ∧ c.isTrySendDone = true ∧ c.queue.length ≤ N ∧
      (0 < N - c.queue.length ∨ c.isRecvReady = true) := by
  rw [refusesTrySend, Bool.or_eq_false_iff, Bool.or_eq_false_iff, Bool.or_eq_false_iff,
    Bool.not_eq_false', Bool.not_eq_false', isFull_eq_false, Bool.and_eq_false_iff,
    Bool.not_eq_false', decide_eq_false_iff_not, and_assoc, and_assoc, Nat.pos_iff_ne_zero]

/-! ## What a section does -/

/-- Everything but what `select` and a receiver announce is as before. -/
structure Same (c c' : Channel T) : Prop where
  queue : c'.queue = c.queue
  isSendDone : c'.isSendDone = c.isSendDone
  isTrySendDone : c'.isTrySendDone = c.isTrySendDone
  sent : c'.sent = c.sent
  received : c'.received = c.received

/-- Where a thread goes that has changed nothing: it goes to sleep if it may not go on. -/
inductive Stays (N : ℕ) (c : Channel T) : Point T → Place Condition (Point T) → Prop
  | idle (call : Call T) : Stays N c .idle (.ready call.start)
  | send (t : T) : c.maySend N = false → Stays N c (.send t) (.asleep .sendBegin (.send t))
  | sendEnd (t : T) : c.isFull N = true → Stays N c (.sendEnd t) (.asleep .sendEnd (.sendEnd t))
  | recv : c.queue = [] → Stays N c .recv (.asleep .recv .recvAgain)
  | recvAgain : c.queue = [] → Stays N c .recvAgain (.asleep .recv .recvAgain)
  | trySend (t : T) : Stays N c (.trySend t) (.ready .idle)
  | tryRecv : Stays N c .tryRecv (.ready .idle)

/-- A section that receives. -/
inductive Receives : Point T → Prop
  | recv : Receives .recv
  | recvAgain : Receives .recvAgain
  | tryRecv : Receives .tryRecv

/-- The effects of a section. -/
inductive Does (N id : ℕ) (p : Point T) (c c' : Channel T) : Place Condition (Point T) → Prop
  | stays (q : Place Condition (Point T)) : Same c c' → Stays N c p q → Does N id p c c' q
  | sends (t : T) : p = .send t → c.isSendDone = true → c.isTrySendDone = true →
      c.queue.length ≤ N → c'.queue = c.queue ++ [(id, t)] → c'.isSendDone = false →
      c'.isTrySendDone = true → c'.sent = c.sent ++ [(id, t)] → c'.received = c.received →
      Does N id p c c' (.notifying .recv (.sendEnd t))
  | ends (t : T) : p = .sendEnd t → c.queue.length ≤ N → c' = { c with isSendDone := true } →
      Does N id p c c' (.notifying .sendBegin .idle)
  | receives (front : ℕ × T) : Receives p → c.queue = front :: c'.queue →
      c'.isSendDone = c.isSendDone → c'.isTrySendDone = true → c'.sent = c.sent →
      c'.received = c.received ++ [(id, front)] → Does N id p c c' c.notifySender
  | trySends (t : T) : p = .trySend t → c.isSendDone = true → c.isTrySendDone = true →
      c.queue.length ≤ N → c'.queue = c.queue ++ [(id, t)] → c'.isSendDone = true →
      c'.isTrySendDone = decide (0 < N - c.queue.length) → c'.sent = c.sent ++ [(id, t)] →
      c'.received = c.received → Does N id p c c' (.notifying .recv .idle)

theorem Same.rfl : Same c c := ⟨Eq.refl _, Eq.refl _, Eq.refl _, Eq.refl _, Eq.refl _⟩

theorem send_does (c : Channel T) (id : ℕ) (t : T) :
    Does N id (.send t) c (c.send N id t).1 (c.send N id t).2 := by
  rw [Channel.send]
  split
  · next h =>
    obtain ⟨hdone, htry, hlen⟩ := maySend_eq_true.mp h
    exact .sends t rfl hdone htry hlen rfl rfl htry rfl rfl
  · next h => exact .stays _ .rfl (.send t (Bool.eq_false_iff.mpr h))

theorem sendEnd_does (c : Channel T) (id : ℕ) (t : T) :
    Does N id (.sendEnd t) c (c.sendEnd N t).1 (c.sendEnd N t).2 := by
  rw [Channel.sendEnd]
  split
  · next h => exact .stays _ .rfl (.sendEnd t h)
  · next h => exact .ends t rfl (isFull_eq_false.mp (Bool.eq_false_iff.mpr h)) rfl

theorem recvAgain_does (c : Channel T) (id : ℕ) :
    Does N id .recvAgain c (c.recvAgain id).1 (c.recvAgain id).2 := by
  rw [Channel.recvAgain]
  split
  · next h => exact .stays _ .rfl (.recvAgain h)
  · next front queue h => exact .receives front .recvAgain h rfl rfl rfl rfl

/-- Only the announcement comes before the wait. -/
theorem recv_does (c : Channel T) (id : ℕ) :
    Does N id .recv c (c.recv id).1 (c.recv id).2 := by
  rw [Channel.recv, Channel.recvAgain]
  dsimp only
  split
  · next h => exact .stays _ ⟨rfl, rfl, rfl, rfl, rfl⟩ (.recv h)
  · next front queue h => exact .receives front .recv h rfl rfl rfl rfl

theorem trySend_does (c : Channel T) (id : ℕ) (t : T) :
    Does N id (.trySend t) c (c.trySend N id t).1 (c.trySend N id t).2 := by
  rw [Channel.trySend]
  dsimp only
  split
  · exact .stays _ ⟨rfl, rfl, rfl, rfl, rfl⟩ (.trySend t)
  · next h =>
    obtain ⟨hdone, htry, hlen, -⟩ := refusesTrySend_eq_false.mp (Bool.eq_false_iff.mpr h)
    exact .trySends t rfl hdone htry hlen rfl hdone rfl rfl rfl

theorem tryRecv_does (c : Channel T) (id : ℕ) :
    Does N id .tryRecv c (c.tryRecv id).1 (c.tryRecv id).2 := by
  rw [Channel.tryRecv]
  dsimp only
  split
  · exact .stays _ ⟨rfl, rfl, rfl, rfl, rfl⟩ .tryRecv
  · next front queue h => exact .receives front .tryRecv h rfl rfl rfl rfl

/-- **Sections**, one case per effect. -/
theorem program_does (N id : ℕ) (x : Input T) (p : Point T) (c : Channel T) :
    Does N id p c (program N id x p c).1 (program N id x p c).2 := by
  cases p with
  | idle => exact .stays _ .rfl (.idle x.call)
  | send t => exact send_does c id t
  | sendEnd t => exact sendEnd_does c id t
  | recv => exact recv_does c id
  | recvAgain => exact recvAgain_does c id
  | trySend t =>
    rw [program]
    split
    · exact trySend_does c id t
    · exact .stays _ .rfl (.trySend t)
  | tryRecv =>
    rw [program]
    split
    · exact tryRecv_does c id
    · exact .stays _ .rfl .tryRecv

/-! ## The invariant -/

/-- The queue, and which thread is between the sections of `_send`. -/
structure Sound (N : ℕ) (c : Channel T) (ps : List (Point T)) : Prop where
  fifo : c.received.map Prod.snd ++ c.queue = c.sent
  length_le : c.queue.length ≤ N + 1
  full : c.isTrySendDone = false → c.isSendDone = true ∧ N < c.queue.length
  blocked : N < c.queue.length → c.isSendDone = true → c.isTrySendDone = false
  sending : ∀ (i : ℕ) (t : T), ps[i]? = some (.sendEnd t) →
    c.isSendDone = false ∧ c.sent.getLast? = some (i, t)
  sender : c.isSendDone = false → ∃ (i : ℕ) (t : T), ps[i]? = some (.sendEnd t)

theorem sound_new : Sound N (new : Channel T) (List.replicate n .idle) where
  fifo := rfl
  length_le := Nat.zero_le _
  full := nofun
  blocked h := absurd h (Nat.not_lt_zero N)
  sending i t h := by
    have hmem := List.mem_of_getElem? h
    cases List.eq_of_mem_replicate hmem
  sender := nofun

/-- The threads between the sections of `_send` are the others as before. -/
theorem getElem?_set_sendEnd (hp : ps[i]? = some p) (hne : ∀ t, p ≠ .sendEnd t)
    (hqne : ∀ t, q ≠ .sendEnd t) (j : ℕ) (t : T) :
    (ps.set i q)[j]? = some (.sendEnd t) ↔ ps[j]? = some (.sendEnd t) := by
  by_cases hij : i = j
  · subst hij
    rw [List.getElem?_set_self' , hp]
    constructor
    · intro h
      exact absurd (Option.some.inj h) (hqne t)
    · intro h
      exact absurd (Option.some.inj h) (hne t)
  · rw [List.getElem?_set_ne hij]

theorem Stays.point_ne {q : Place Condition (Point T)} (h : Stays N c p q)
    (hne : ∀ t, p ≠ .sendEnd t) (t : T) : q.point ≠ .sendEnd t := by
  cases h with
  | idle call => cases call <;> exact nofun
  | sendEnd t' => exact absurd rfl (hne t')
  | _ => exact nofun

theorem Sound.same (h : Sound N c ps) (hsame : Same c c')
    (hps : ∀ (j : ℕ) (t : T), ps'[j]? = some (.sendEnd t) ↔ ps[j]? = some (.sendEnd t)) :
    Sound N c' ps' where
  fifo := by
    rw [hsame.queue, hsame.received, hsame.sent]
    exact h.fifo
  length_le := by
    rw [hsame.queue]
    exact h.length_le
  full := by
    rw [hsame.queue, hsame.isSendDone, hsame.isTrySendDone]
    exact h.full
  blocked := by
    rw [hsame.queue, hsame.isSendDone, hsame.isTrySendDone]
    exact h.blocked
  sending j t hj := by
    rw [hsame.isSendDone, hsame.sent]
    exact h.sending j t ((hps j t).mp hj)
  sender hdone := by
    rw [hsame.isSendDone] at hdone
    obtain ⟨j, t, hj⟩ := h.sender hdone
    exact ⟨j, t, (hps j t).mpr hj⟩

/-- **What a section preserves.** -/
theorem Sound.step (h : Sound N c ps) (hp : ps[i]? = some p) {q : Place Condition (Point T)}
    (hdoes : Does N i p c c' q) : Sound N c' (ps.set i q.point) := by
  cases hdoes with
  | stays q hsame hstays =>
    refine h.same hsame ?_
    by_cases hend : ∃ t, p = .sendEnd t
    · obtain ⟨t, rfl⟩ := hend
      cases hstays
      obtain ⟨hi, hget⟩ := List.getElem?_eq_some_iff.mp hp
      intro j t'
      rw [Place.point, ← hget, List.set_getElem_self]
    · have hne : ∀ t, p ≠ .sendEnd t := fun t ht ↦ hend ⟨t, ht⟩
      exact getElem?_set_sendEnd hp hne (hstays.point_ne hne)
  | sends t hpt hdone htry hlen hqueue hdone' htry' hsent hreceived =>
    have hlength : c'.queue.length = c.queue.length + 1 := by
      rw [hqueue, List.length_append, List.length_singleton]
    refine ⟨?_, by omega, ?_, ?_, ?_, fun _ ↦ ⟨i, t, ?_⟩⟩
    · rw [hreceived, hqueue, hsent, ← List.append_assoc, h.fifo]
    · rw [htry']
      exact nofun
    · rw [hdone']
      exact nofun
    · intro j t' hj
      by_cases hij : i = j
      · subst hij
        rw [List.getElem?_set_self', hp] at hj
        cases hj
        rw [hsent]
        exact ⟨hdone', List.getLast?_concat⟩
      · -- no other thread is between its sections
        rw [List.getElem?_set_ne hij] at hj
        exact absurd hdone (ne_true_of_eq_false (h.sending j t' hj).1)
    · rw [List.getElem?_set_self', hp]
      rfl
  | ends t hpt hlen hc =>
    subst hc hpt
    have hsending := h.sending i t hp
    refine ⟨h.fifo, h.length_le, ?_, ?_, ?_, nofun⟩
    · intro htry
      exact absurd (h.full htry).1 (ne_true_of_eq_false hsending.1)
    · intro hlt
      exact absurd hlt (not_lt.mpr hlen)
    · intro j t' hj
      by_cases hij : i = j
      · subst hij
        rw [List.getElem?_set_self', hp] at hj
        cases hj
      · -- the last value that was sent is this thread's
        rw [List.getElem?_set_ne hij] at hj
        have hlast := hsending.2.symm.trans (h.sending j t' hj).2
        exact absurd (congrArg Prod.fst (Option.some.inj hlast)) hij
  | receives front hrecv hqueue hdone htry hsent hreceived =>
    have hlength : c.queue.length = c'.queue.length + 1 := by
      rw [hqueue, List.length_cons]
    have hle := h.length_le
    have hne : ∀ t, p ≠ .sendEnd t := by
      intro t
      cases hrecv <;> exact nofun
    have hps := getElem?_set_sendEnd hp hne (q := .idle) nofun
    refine ⟨?_, by omega, ?_, fun hlt ↦ by omega, ?_, ?_⟩
    · have hfifo := h.fifo
      rw [hqueue] at hfifo
      rw [hreceived, hsent, List.map_append, List.append_assoc, ← hfifo]
      rfl
    · rw [htry]
      exact nofun
    · intro j t hj
      rw [hdone, hsent]
      exact h.sending j t ((hps j t).mp hj)
    · intro hdone'
      obtain ⟨j, t, hj⟩ := h.sender (hdone.symm.trans hdone')
      exact ⟨j, t, (hps j t).mpr hj⟩
  | trySends t hpt hdone htry hlen hqueue hdone' htry' hsent hreceived =>
    have hlength : c'.queue.length = c.queue.length + 1 := by
      rw [hqueue, List.length_append, List.length_singleton]
    have hne : ∀ t', p ≠ .sendEnd t' := by
      rw [hpt]
      exact nofun
    have hps := getElem?_set_sendEnd hp hne (q := .idle) nofun
    refine ⟨?_, by omega, ?_, ?_, ?_, ?_⟩
    · rw [hreceived, hqueue, hsent, ← List.append_assoc, h.fifo]
    · intro hfalse
      have hnot := of_decide_eq_false (htry'.symm.trans hfalse)
      exact ⟨hdone', by omega⟩
    · intro hlt _
      rw [htry']
      exact decide_eq_false (by omega)
    · intro j t' hj
      exact absurd hdone (ne_true_of_eq_false (h.sending j t' ((hps j t').mp hj)).1)
    · rw [hdone']
      exact nofun

variable {acts : List (Action (Input T))}
  {s s' : Monitor.System (Channel T) Condition (Point T)}

theorem points_system : (system n : Monitor.System (Channel T) _ _).points =
    List.replicate n .idle := List.map_replicate

theorem sound_of_run (hrun : (system n).run (program N) acts = some s) :
    Sound N s.shared s.points :=
  Monitor.System.run_invariant (Q := fun _ ↦ True)
    (fun _ x p c _ _ hp h ↦ h.step hp (program_does N _ x p c)) (fun _ _ ↦ trivial)
    (points_system (T := T) ▸ sound_new) hrun

/-! ## First in, first out -/

/-- **A channel is a queue**: in every run, what was received and what is in the queue is what was
sent, in this order, and the queue is as long as the channel allows, with one value more for the
sender that waits. -/
theorem first_in_first_out (hrun : (system n).run (program N) acts = some s) :
    s.shared.received.map Prod.snd ++ s.shared.queue = s.shared.sent ∧
      s.shared.queue.length ≤ N + 1 :=
  ⟨(sound_of_run hrun).fifo, (sound_of_run hrun).length_le⟩

/-- Thread 1 waits for what thread 0 sends. -/
def handover : List (Action (Input ℕ)) :=
  [.run 0 ⟨.send 7, true⟩, .run 1 ⟨.recv, true⟩, .run 1 ⟨.recv, true⟩, .run 0 ⟨.recv, true⟩,
    .notify 0 (some 1), .run 1 ⟨.recv, true⟩]

theorem first_in_first_out_handover : ∃ s, (system 2).run (program 0) handover = some s ∧
    s.shared.received.map Prod.snd ++ s.shared.queue = s.shared.sent ∧
    s.shared.queue.length ≤ 0 + 1 :=
  ⟨_, rfl, first_in_first_out (show (system 2).run (program 0) handover = some _ from rfl)⟩

/-- **A blocking send waits for its receiver**: when it returns, its value is the last one that was
sent, and all but `N` of the values sent were received. So without a buffer its own value was
received. -/
theorem send_returns (hrun : (system n).run (program N) acts = some s)
    (hact : s.act (program N) (.run i x) = some s') (hsending : s.points[i]? = some (.sendEnd t))
    (hreturns : s'.points[i]? = some .idle) :
    s'.shared.sent.getLast? = some (i, t) ∧
      s'.shared.sent.length ≤ s'.shared.received.length + N ∧
      (N = 0 → (s'.shared.received.map Prod.snd).getLast? = some (i, t)) := by
  have hsound := sound_of_run hrun
  obtain ⟨p, hp, rfl⟩ := Monitor.System.act_run_eq_some.mp hact
  have hpoint : p = .sendEnd t :=
    Option.some.inj ((Monitor.System.points_getElem? hp).symm.trans hsending)
  subst hpoint
  have hlen : s.shared.queue.length ≤ N := by
    by_contra hlt
    -- the queue is full, and the thread goes back to sleep
    have hfull : s.shared.isFull N = true := isFull_eq_true.mpr (not_le.mp hlt)
    have hsleeps : program N i x (.sendEnd t) s.shared =
        (s.shared, .asleep .sendEnd (.sendEnd t)) := if_pos hfull
    rw [hsleeps, Monitor.System.points_set, List.getElem?_set_self', hsending] at hreturns
    cases hreturns
  have hends : program N i x (.sendEnd t) s.shared =
      ({ s.shared with isSendDone := true }, .notifying .sendBegin .idle) :=
    if_neg (ne_true_of_eq_false (isFull_eq_false.mpr hlen))
  rw [hends]
  have hlast := (hsound.sending i t hsending).2
  have hfifo := hsound.fifo
  refine ⟨hlast, ?_, ?_⟩
  · have hlength := congrArg List.length hfifo
    rw [List.length_append, List.length_map] at hlength
    dsimp only
    omega
  · rintro rfl
    rw [List.length_eq_zero_iff.mp (Nat.le_zero.mp hlen), List.append_nil] at hfifo
    dsimp only
    rw [hfifo]
    exact hlast

theorem send_returns_handover : ∃ s s', (system 2).run (program 0) handover = some s ∧
    s.act (program 0) (.run 0 ⟨.recv, true⟩) = some s' ∧
    s'.shared.sent.getLast? = some (0, 7) ∧
    s'.shared.sent.length ≤ s'.shared.received.length + 0 ∧
    (0 = 0 → (s'.shared.received.map Prod.snd).getLast? = some (0, 7)) :=
  ⟨_, _, rfl, rfl,
    send_returns (show (system 2).run (program 0) handover = some _ from rfl) rfl rfl rfl⟩

/-! ## Wake-ups -/

/-- Who may go on, and who looks. -/
def accounts (N : ℕ) : Accounts (Channel T) Condition (Point T) where
  need
    | .sendBegin, c => (c.maySend N).toNat
    | .sendEnd, c => (!c.isSendDone && !c.isFull N).toNat
    | .recv, c => c.queue.length
  looks
    | .sendBegin, .send _ => true
    | .sendEnd, .sendEnd _ => true
    | .recv, .recv => true
    | .recv, .recvAgain => true
    | _, _ => false

theorem Same.maySend (h : Same c c') : c'.maySend N = c.maySend N := by
  rw [Channel.maySend, Channel.maySend, isFull, isFull, h.queue, h.isSendDone, h.isTrySendDone]

theorem Same.need (h : Same c c') (k : Condition) :
    (accounts N).need k c' = (accounts N).need k c := by
  cases k with
  | sendBegin => exact congrArg Bool.toNat h.maySend
  | sendEnd =>
    change (!c'.isSendDone && !c'.isFull N).toNat = (!c.isSendDone && !c.isFull N).toNat
    rw [isFull, isFull, h.queue, h.isSendDone]
  | recv => exact congrArg List.length h.queue

theorem need_sendBegin (hdone : c.isSendDone = false) :
    (accounts N).need .sendBegin c = 0 := by
  change (c.maySend N).toNat = 0
  rw [maySend, hdone]
  rfl

theorem need_sendEnd (hdone : c.isSendDone = true) : (accounts N).need .sendEnd c = 0 := by
  change (!c.isSendDone && !c.isFull N).toNat = 0
  rw [hdone]
  rfl

/-- **What a section pays**: every thread that it lets go on is notified. -/
theorem Sound.pays (h : Sound N c ps) (hp : ps[i]? = some p) {q : Place Condition (Point T)}
    (hdoes : Does N i p c c' q) : (accounts N).Pays p c c' q := by
  cases hdoes with
  | stays q hsame hstays =>
    refine ⟨fun k t hq ↦ ?_, fun k hk ↦ ?_⟩
    · subst hq
      rw [hsame.need]
      cases hstays with
      | send t hmay => exact ⟨rfl, congrArg Bool.toNat hmay⟩
      | sendEnd t hfull =>
        refine ⟨rfl, ?_⟩
        change (!c.isSendDone && !c.isFull N).toNat = 0
        rw [hfull, Bool.not_true, Bool.and_false]
        rfl
      | recv hqueue => exact ⟨rfl, congrArg List.length hqueue⟩
      | recvAgain hqueue => exact ⟨rfl, congrArg List.length hqueue⟩
    · rw [hsame.need]
      refine Nat.add_le_add_left ?_ _
      cases hstays with
      | send t hmay => cases k <;> first | exact Nat.zero_le _ | cases hk
      | sendEnd t hfull => cases k <;> first | exact Nat.zero_le _ | cases hk
      | recv hqueue => cases k <;> first | exact Nat.zero_le _ | cases hk
      | recvAgain hqueue => cases k <;> first | exact Nat.zero_le _ | cases hk
      | _ => cases k <;> exact Nat.zero_le _
  | sends t hpt hdone htry hlen hqueue hdone' htry' hsent hreceived =>
    subst hpt
    refine ⟨nofun, fun k _ ↦ ?_⟩
    cases k with
    | sendBegin =>
      have hmay : (accounts N).need .sendBegin c = 1 :=
        congrArg Bool.toNat (maySend_eq_true.mpr ⟨hdone, htry, hlen⟩)
      rw [need_sendBegin hdone', hmay]
      exact le_rfl
    | sendEnd =>
      -- the thread itself looks
      rw [need_sendEnd hdone]
      exact Nat.add_le_add_right (Bool.toNat_le _) 0
    | recv =>
      change c'.queue.length + 0 ≤ c.queue.length + 1
      rw [hqueue, List.length_append, List.length_singleton, Nat.add_zero]
  | ends t hpt hlen hc =>
    subst hc hpt
    refine ⟨nofun, fun k _ ↦ ?_⟩
    cases k with
    | sendBegin =>
      refine (Nat.add_le_add_right (Bool.toNat_le _) 0).trans ?_
      exact Nat.le_add_left 1 _
    | sendEnd =>
      have hneed : (accounts N).need .sendEnd c = 1 := by
        change (!c.isSendDone && !c.isFull N).toNat = 1
        rw [(h.sending i t hp).1, isFull_eq_false.mpr hlen]
        rfl
      rw [need_sendEnd rfl, hneed]
      exact le_rfl
    | recv => exact le_rfl
  | receives front hrecv hqueue hdone htry hsent hreceived =>
    refine ⟨nofun, fun k _ ↦ ?_⟩
    have hlooks : k ≠ .recv → (accounts N).looks k p = false := by
      intro hk
      cases hrecv <;> cases k <;> first | rfl | exact absurd rfl hk
    rw [notifySender]
    cases k with
    | sendBegin =>
      rw [hlooks nofun]
      by_cases hd : c.isSendDone = true
      · rw [if_pos hd]
        exact (Bool.toNat_le _).trans (Nat.le_add_left 1 _)
      · rw [need_sendBegin (hdone.trans (Bool.eq_false_iff.mpr hd))]
        exact Nat.zero_le _
    | sendEnd =>
      rw [hlooks nofun]
      by_cases hd : c.isSendDone = true
      · rw [need_sendEnd (hdone.trans hd)]
        exact Nat.zero_le _
      · rw [if_neg hd]
        exact (Bool.toNat_le _).trans (Nat.le_add_left 1 _)
    | recv =>
      change c'.queue.length + _ ≤ c.queue.length + _
      rw [hqueue, List.length_cons, Nat.add_assoc]
      exact Nat.add_le_add_left ((Bool.toNat_le _).trans (Nat.le_add_right 1 _)) _
  | trySends t hpt hdone htry hlen hqueue hdone' htry' hsent hreceived =>
    subst hpt
    refine ⟨nofun, fun k _ ↦ ?_⟩
    cases k with
    | sendBegin =>
      have hmay : (accounts N).need .sendBegin c = 1 :=
        congrArg Bool.toNat (maySend_eq_true.mpr ⟨hdone, htry, hlen⟩)
      rw [hmay]
      exact Nat.add_le_add (Bool.toNat_le _) le_rfl
    | sendEnd =>
      rw [need_sendEnd hdone']
      exact Nat.zero_le _
    | recv =>
      change c'.queue.length + 0 ≤ c.queue.length + 1
      rw [hqueue, List.length_append, List.length_singleton, Nat.add_zero]

theorem awake_system : (accounts N).Awake (system n : Monitor.System (Channel T) _ _) := by
  intro c t hmem
  cases List.eq_of_mem_replicate hmem

theorem awake_of_run (hrun : (system n).run (program N) acts = some s) :
    (accounts N).Awake s :=
  Accounts.awake_of_run (Q := fun _ ↦ True) (P := Sound N)
    (fun _ x p c _ _ hp h ↦ h.step hp (program_does N _ x p c))
    (fun _ x p c _ _ hp h ↦ h.pays hp (program_does N _ x p c)) (fun _ _ ↦ trivial)
    (points_system (T := T) ▸ sound_new) awake_system hrun

/-- **No wake-up is lost.** When every thread is in no call or asleep, those that receive are asleep
because the queue is empty, and those that send because it is full. -/
theorem asleep_of_quiet (hrun : (system n).run (program N) acts = some s)
    (hquiet : ∀ p ∈ s.threads, p = .ready .idle ∨ ∃ k q, p = .asleep k q) :
    (∀ q, .asleep .recv q ∈ s.threads → s.shared.queue = []) ∧
      ∀ k q, k ≠ .recv → .asleep k q ∈ s.threads → s.shared.queue.length = N + 1 := by
  have hawake := awake_of_run hrun
  have hsound := sound_of_run hrun
  have hnobody : ∀ k, ∀ p ∈ s.threads, (accounts N).token k p = 0 := by
    intro k p hp
    rcases hquiet p hp with rfl | ⟨k', q, rfl⟩
    · cases k <;> rfl
    · rfl
  -- who is between the sections of `_send` could not go on
  have hend : s.shared.isSendDone = false → s.shared.queue.length = N + 1 := by
    intro hdone
    obtain ⟨j, t, hj⟩ := hsound.sender hdone
    obtain ⟨p, hp, hpoint⟩ := List.mem_map.mp (List.mem_of_getElem? hj)
    have hneed : (accounts N).need .sendEnd s.shared = 0 := by
      rcases hquiet p hp with rfl | ⟨k, q, rfl⟩
      · cases hpoint
      · cases hpoint
        have hlooks := (hawake k _ hp).1
        cases k with
        | sendEnd => exact hawake.need_eq_zero hp (hnobody _)
        | sendBegin => cases hlooks
        | recv => cases hlooks
    have hfull : s.shared.isFull N = true := by
      by_contra hfull
      have hone : (accounts N).need .sendEnd s.shared = 1 := by
        change (!s.shared.isSendDone && !s.shared.isFull N).toNat = 1
        rw [hdone, Bool.eq_false_iff.mpr hfull]
        rfl
      omega
    exact le_antisymm hsound.length_le (isFull_eq_true.mp hfull)
  refine ⟨fun q hq ↦ List.length_eq_zero_iff.mp (hawake.need_eq_zero hq (hnobody _)), ?_⟩
  intro k q hk hq
  by_cases hdone : s.shared.isSendDone = false
  · exact hend hdone
  · have hdone : s.shared.isSendDone = true := Bool.eq_true_of_not_eq_false hdone
    cases k with
    | recv => exact absurd rfl hk
    | sendEnd =>
      obtain ⟨j, hj, hget⟩ := List.mem_iff_getElem.mp hq
      have hpoint := Monitor.System.points_getElem? (List.getElem?_eq_some_iff.mpr ⟨hj, hget⟩)
      have hlooks := (hawake _ _ hq).1
      cases q with
      | sendEnd t => exact absurd hdone (ne_true_of_eq_false (hsound.sending j t hpoint).1)
      | _ => cases hlooks
    | sendBegin =>
      have hmay : s.shared.maySend N = false := by
        by_contra hmay
        have hone : (accounts N).need .sendBegin s.shared = 1 :=
          congrArg Bool.toNat (Bool.eq_true_of_not_eq_false hmay)
        have hzero := hawake.need_eq_zero hq (hnobody .sendBegin)
        omega
      by_contra hne
      have hlen : s.shared.queue.length ≤ N := by
        have hle := hsound.length_le
        omega
      have htry : s.shared.isTrySendDone = true := by
        by_contra htry
        exact absurd (hsound.full (Bool.eq_false_iff.mpr htry)).2 (not_lt.mpr hlen)
      exact absurd (maySend_eq_true.mpr ⟨hdone, htry, hlen⟩) (ne_true_of_eq_false hmay)

/-- Two threads that wait to receive. -/
def receivers : List (Action (Input ℕ)) :=
  [.run 0 ⟨.recv, true⟩, .run 1 ⟨.recv, true⟩, .run 0 ⟨.recv, true⟩, .run 1 ⟨.recv, true⟩]

theorem asleep_of_quiet_receivers : ∃ s, (system 2).run (program 3) receivers = some s ∧
    (∀ q, .asleep .recv q ∈ s.threads → s.shared.queue = []) ∧
    ∀ k q, k ≠ .recv → .asleep k q ∈ s.threads → s.shared.queue.length = 3 + 1 := by
  refine ⟨_, rfl, asleep_of_quiet
    (show (system 2).run (program 3) receivers = some _ from rfl) fun p hp ↦ .inr ?_⟩
  rcases List.mem_pair.mp hp with rfl | rfl
  · exact ⟨_, _, rfl⟩
  · exact ⟨_, _, rfl⟩

end Channel

end DuoFirmware.System
