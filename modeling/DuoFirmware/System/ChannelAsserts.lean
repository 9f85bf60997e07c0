import DuoFirmware.System.ChannelRuns

/-!
# The assertions of a channel

The assertions about the protocol between senders and receivers always hold. The one about `select`
holds as long as not both ends of the channel are inside a `select`. The one about the thread that
receives from a full queue what it sent itself holds without a buffer, and without sends inside a
`select`; with a buffer it fails in runs of blocking calls only.
-/

namespace DuoFirmware.System

open Monitor

variable {T : Type} {N n i : ℕ} {c c' : Channel T} {ps : List (Point T)} {p : Point T} {t : T}
  {x : Input T}

namespace Channel

/-- No thread begins to send inside a `select`. -/
def NoTrySend (a : Action (Input T)) : Prop := ∀ i x t, a = .run i x → x.call ≠ .trySend t

/-- No thread begins to receive inside a `select`. -/
def NoTryRecv (a : Action (Input T)) : Prop := ∀ i x, a = .run i x → x.call ≠ .tryRecv

/-! ## The protocol -/

theorem Sound.frontAsserts (h : Sound N c ps) {front : ℕ × T} {queue : List (ℕ × T)}
    (hqueue : c.queue = front :: queue) (b : Bool)
    (hb : (.protocol, b) ∈ c.frontAsserts N i front queue) : b = true := by
  have hle := h.length_le
  rw [hqueue, List.length_cons] at hle
  rw [Channel.frontAsserts] at hb
  simp only [List.mem_cons, Prod.mk.injEq, reduceCtorEq, false_and, true_and, List.not_mem_nil,
    or_false, false_or] at hb
  obtain rfl | rfl | rfl := hb
  · by_cases hfull : c.isFull N = true
    · by_cases hdone : c.isSendDone = true
      · rw [h.blocked (isFull_eq_true.mp hfull) hdone]
        exact Bool.or_true _
      · rw [Bool.eq_false_iff.mpr hdone, Bool.not_false, Bool.or_true, Bool.true_or]
    · rw [Bool.eq_false_iff.mpr hfull]
      rfl
  · by_cases htry : c.isTrySendDone = true
    · rw [htry]
      rfl
    · rw [(h.full (Bool.eq_false_iff.mpr htry)).1]
      exact Bool.or_true _
  · rw [Bool.not_eq_true', decide_eq_false_iff_not]
    omega

theorem Sound.protocol (h : Sound N c ps) (b : Bool)
    (hb : (.protocol, b) ∈ c.asserts N i x p) : b = true := by
  cases p with
  | idle => cases hb
  | sendEnd t => cases hb
  | send t =>
    rw [asserts, sendAsserts] at hb
    split at hb
    · next hmay =>
      obtain ⟨hdone, htry, hlen⟩ := maySend_eq_true.mp hmay
      rw [hdone, htry, isFull_eq_false.mpr hlen] at hb
      simpa using hb
    · cases hb
  | recv =>
    rw [asserts, recvAsserts] at hb
    split at hb
    · cases hb
    · next front queue hqueue =>
      exact h.frontAsserts hqueue b ((List.mem_cons.mp hb).resolve_left nofun)
  | recvAgain =>
    rw [asserts, recvAsserts] at hb
    split at hb
    · cases hb
    · next front queue hqueue =>
      exact h.frontAsserts hqueue b ((List.mem_cons.mp hb).resolve_left nofun)
  | trySend t =>
    rw [asserts] at hb
    split at hb
    · rw [trySendAsserts] at hb
      have hb := (List.mem_cons.mp hb).resolve_left nofun
      dsimp only at hb
      split at hb
      · cases hb
      · next hrefuses =>
        obtain ⟨hdone, htry, hlen, hready⟩ :=
          refusesTrySend_eq_false.mp (Bool.eq_false_iff.mpr hrefuses)
        rw [isFull_eq_false.mpr hlen] at hb
        dsimp only at hdone htry hready
        rw [hdone, htry] at hb
        have hlast : (decide (0 < N - c.queue.length) || c.isRecvReady) = true := by
          rcases hready with hroom | hready
          · rw [decide_eq_true hroom]
            rfl
          · rw [hready]
            exact Bool.or_true _
        rw [hlast] at hb
        simpa using hb
    · cases hb
  | tryRecv =>
    rw [asserts] at hb
    split at hb
    · rw [tryRecvAsserts] at hb
      split at hb
      · cases hb
      · next front queue hqueue => exact h.frontAsserts hqueue b hb
    · cases hb

/-! ## Both ends in a select -/

/-- No thread is about to send inside a `select`, and none has. -/
structure SelectsNoSend (c : Channel T) (ps : List (Point T)) : Prop where
  isTrySendReady : c.isTrySendReady = false
  isTrySendDone : c.isTrySendDone = true
  points : ∀ t, .trySend t ∉ ps

/-- No thread is about to receive inside a `select`, and none has. -/
structure SelectsNoRecv (c : Channel T) (ps : List (Point T)) : Prop where
  isTryRecvReady : c.isTryRecvReady = false
  points : .tryRecv ∉ ps

/-- A thread begins to use a `select` only when it is in no call. -/
theorem Does.point_ne {q : Place Condition (Point T)} (h : Does N i p c c' q) (hp : p ≠ .idle) :
    (∀ t, q.point ≠ .trySend t) ∧ q.point ≠ .tryRecv := by
  cases h with
  | stays q hsame hstays =>
    cases hstays with
    | idle call => exact absurd rfl hp
    | _ => exact ⟨nofun, nofun⟩
  | _ => exact ⟨nofun, nofun⟩

theorem SelectsNoSend.step (h : SelectsNoSend c ps) (hp : ps[i]? = some p)
    (hx : ∀ t, x.call ≠ .trySend t) :
    SelectsNoSend (program N i x p c).1 (ps.set i (program N i x p c).2.point) := by
  have hpoints : ∀ t, .trySend t ∉ ps.set i (program N i x p c).2.point := by
    intro t hmem
    rcases List.mem_or_eq_of_mem_set hmem with hold | heq
    · exact h.points t hold
    · by_cases hidle : p = .idle
      · subst hidle
        rw [program, Place.point] at heq
        cases hcall : x.call with
        | trySend t' => exact hx t' hcall
        | _ =>
          rw [hcall] at heq
          cases heq
      · exact ((program_does N i x p c).point_ne hidle).1 t heq.symm
  cases p with
  | idle => exact ⟨h.isTrySendReady, h.isTrySendDone, hpoints⟩
  | send t =>
    refine ⟨?_, ?_, hpoints⟩ <;> rw [program, Channel.send] <;> split
    · exact h.isTrySendReady
    · exact h.isTrySendReady
    · exact h.isTrySendDone
    · exact h.isTrySendDone
  | sendEnd t =>
    refine ⟨?_, ?_, hpoints⟩ <;> rw [program, Channel.sendEnd] <;> split
    · exact h.isTrySendReady
    · exact h.isTrySendReady
    · exact h.isTrySendDone
    · exact h.isTrySendDone
  | recv =>
    refine ⟨?_, ?_, hpoints⟩ <;> rw [program, Channel.recv, Channel.recvAgain] <;> dsimp only <;>
      split
    · exact h.isTrySendReady
    · rfl
    · exact h.isTrySendDone
    · rfl
  | recvAgain =>
    refine ⟨?_, ?_, hpoints⟩ <;> rw [program, Channel.recvAgain] <;> split
    · exact h.isTrySendReady
    · rfl
    · exact h.isTrySendDone
    · rfl
  | trySend t => exact absurd (List.mem_of_getElem? hp) (h.points t)
  | tryRecv =>
    refine ⟨?_, ?_, hpoints⟩ <;> rw [program] <;> split
    · rw [Channel.tryRecv]
      dsimp only
      split
      · exact h.isTrySendReady
      · rfl
    · exact h.isTrySendReady
    · rw [Channel.tryRecv]
      dsimp only
      split
      · exact h.isTrySendDone
      · rfl
    · exact h.isTrySendDone

theorem SelectsNoRecv.step (h : SelectsNoRecv c ps) (hp : ps[i]? = some p)
    (hx : x.call ≠ .tryRecv) :
    SelectsNoRecv (program N i x p c).1 (ps.set i (program N i x p c).2.point) := by
  have hpoints : .tryRecv ∉ ps.set i (program N i x p c).2.point := by
    intro hmem
    rcases List.mem_or_eq_of_mem_set hmem with hold | heq
    · exact h.points hold
    · by_cases hidle : p = .idle
      · subst hidle
        rw [program, Place.point] at heq
        cases hcall : x.call with
        | tryRecv => exact hx hcall
        | _ =>
          rw [hcall] at heq
          cases heq
      · exact ((program_does N i x p c).point_ne hidle).2 heq.symm
  refine ⟨?_, hpoints⟩
  cases p with
  | idle => exact h.isTryRecvReady
  | send t =>
    rw [program, Channel.send]
    split <;> exact h.isTryRecvReady
  | sendEnd t =>
    rw [program, Channel.sendEnd]
    split <;> exact h.isTryRecvReady
  | recv =>
    rw [program, Channel.recv, Channel.recvAgain]
    dsimp only
    split
    · exact h.isTryRecvReady
    · rfl
  | recvAgain =>
    rw [program, Channel.recvAgain]
    split
    · exact h.isTryRecvReady
    · rfl
  | trySend t =>
    rw [program, Channel.trySend]
    dsimp only
    split
    · split <;> exact h.isTryRecvReady
    · exact h.isTryRecvReady
  | tryRecv => exact absurd (List.mem_of_getElem? hp) h.points

/-- Only `try_send` and the end of a wait look at whether both ends are ready. -/
theorem tryReady_of_mem {b : Bool} (hb : (.tryReady, b) ∈ c.asserts N i x p) :
    b = !c.isTryReady ∨ (∃ t, p = .trySend t) ∧ b = !c.isTryRecvReady := by
  cases p with
  | idle => cases hb
  | sendEnd t => cases hb
  | send t =>
    rw [asserts, sendAsserts] at hb
    split at hb
    · exact .inl (by simpa using hb)
    · cases hb
  | recv =>
    rw [asserts, recvAsserts] at hb
    split at hb
    · cases hb
    · exact .inl (by simpa [Channel.frontAsserts] using hb)
  | recvAgain =>
    rw [asserts, recvAsserts] at hb
    split at hb
    · cases hb
    · exact .inl (by simpa [Channel.frontAsserts] using hb)
  | trySend t =>
    rw [asserts] at hb
    split at hb
    · rw [trySendAsserts] at hb
      refine .inr ⟨⟨t, rfl⟩, ?_⟩
      rcases List.mem_cons.mp hb with heq | hb
      · rw [isTryReady, Bool.and_true] at heq
        exact congrArg Prod.snd heq
      · dsimp only at hb
        split at hb
        · cases hb
        · simp at hb
    · cases hb
  | tryRecv =>
    rw [asserts] at hb
    split at hb
    · rw [tryRecvAsserts] at hb
      split at hb
      · cases hb
      · simp [Channel.frontAsserts] at hb
    · cases hb

theorem SelectsNoSend.tryReady (h : SelectsNoSend c ps) (hp : ps[i]? = some p) (b : Bool)
    (hb : (.tryReady, b) ∈ c.asserts N i x p) : b = true := by
  obtain rfl | ⟨⟨t, rfl⟩, -⟩ := tryReady_of_mem hb
  · rw [isTryReady, h.isTrySendReady, Bool.and_false]
    rfl
  · exact absurd (List.mem_of_getElem? hp) (h.points t)

theorem SelectsNoRecv.tryReady (h : SelectsNoRecv c ps) (b : Bool)
    (hb : (.tryReady, b) ∈ c.asserts N i x p) : b = true := by
  obtain rfl | ⟨-, rfl⟩ := tryReady_of_mem hb
  · rw [isTryReady, h.isTryRecvReady]
    rfl
  · rw [h.isTryRecvReady]
    rfl

/-! ## What a thread sent itself -/

theorem ownValue_of_mem {b : Bool} (hb : (.ownValue, b) ∈ c.asserts N i x p) :
    (∀ t, p ≠ .sendEnd t) ∧ ∃ front queue, c.queue = front :: queue ∧
      b = (!c.isFull N || decide (i ≠ front.1)) := by
  cases p with
  | idle => cases hb
  | sendEnd t => cases hb
  | send t =>
    rw [asserts, sendAsserts] at hb
    split at hb
    · simp at hb
    · cases hb
  | recv =>
    rw [asserts, recvAsserts] at hb
    split at hb
    · cases hb
    · next front queue hqueue =>
      exact ⟨nofun, front, queue, hqueue, by simpa [Channel.frontAsserts] using hb⟩
  | recvAgain =>
    rw [asserts, recvAsserts] at hb
    split at hb
    · cases hb
    · next front queue hqueue =>
      exact ⟨nofun, front, queue, hqueue, by simpa [Channel.frontAsserts] using hb⟩
  | trySend t =>
    rw [asserts] at hb
    split at hb
    · rw [trySendAsserts] at hb
      have hb := (List.mem_cons.mp hb).resolve_left nofun
      dsimp only at hb
      split at hb
      · cases hb
      · simp at hb
    · cases hb
  | tryRecv =>
    rw [asserts] at hb
    split at hb
    · rw [tryRecvAsserts] at hb
      split at hb
      · cases hb
      · next front queue hqueue =>
        exact ⟨nofun, front, queue, hqueue, by simpa [Channel.frontAsserts] using hb⟩
    · cases hb

/-- Without a buffer, the only value in the queue is that of the thread that waits. -/
theorem Sound.ownValue (h : Sound 0 c ps) (hselects : SelectsNoSend c ps) (hp : ps[i]? = some p)
    (b : Bool) (hb : (.ownValue, b) ∈ c.asserts 0 i x p) : b = true := by
  obtain ⟨hne, front, queue, hqueue, rfl⟩ := ownValue_of_mem hb
  by_cases hfull : c.isFull 0 = true
  · have hdone : c.isSendDone = false := by
      by_contra hdone
      have htry := h.blocked (isFull_eq_true.mp hfull) (Bool.eq_true_of_not_eq_false hdone)
      exact absurd hselects.isTrySendDone (ne_true_of_eq_false htry)
    obtain ⟨j, t, hj⟩ := h.sender hdone
    have hle := h.length_le
    rw [hqueue, List.length_cons] at hle
    have hfifo := h.fifo
    rw [hqueue, List.length_eq_zero_iff.mp (Nat.le_zero.mp (Nat.le_of_succ_le_succ hle))] at hfifo
    have hlast := (h.sending j t hj).2
    rw [← hfifo, List.getLast?_concat] at hlast
    have hij : i ≠ front.1 := by
      rw [Option.some.inj hlast]
      rintro rfl
      exact hne t (Option.some.inj (hp.symm.trans hj))
    rw [decide_eq_true hij, Bool.or_true]
  · rw [Bool.eq_false_iff.mpr hfull]
    rfl

variable {acts : List (Action (Input T))} {s : Monitor.System (Channel T) Condition (Point T)}

theorem selectsNoSend_of_run (hacts : ∀ a ∈ acts, NoTrySend a)
    (hrun : (system n).run (program N) acts = some s) : SelectsNoSend s.shared s.points :=
  Monitor.System.run_invariant (Q := NoTrySend)
    (fun i x _ _ _ hx hp h ↦ h.step hp fun t ↦ hx i x t rfl) hacts
    ⟨rfl, rfl, fun t hmem ↦ by
      rw [points_system] at hmem
      cases List.eq_of_mem_replicate hmem⟩ hrun

theorem selectsNoRecv_of_run (hacts : ∀ a ∈ acts, NoTryRecv a)
    (hrun : (system n).run (program N) acts = some s) : SelectsNoRecv s.shared s.points :=
  Monitor.System.run_invariant (Q := NoTryRecv)
    (fun i x _ _ _ hx hp h ↦ h.step hp (hx i x rfl)) hacts
    ⟨rfl, fun hmem ↦ by
      rw [points_system] at hmem
      cases List.eq_of_mem_replicate hmem⟩ hrun

/-! ## With a buffer -/

/-- Thread 0 sends a value that fits in the queue. -/
def sendFirst (t : T) : List (Action (Input T)) :=
  [.run 0 ⟨.send t, true⟩, .run 0 ⟨.recv, true⟩, .notify 0 none, .run 0 ⟨.recv, true⟩,
    .notify 0 none]

/-- Thread 0 fills the buffer, and begins to receive while thread 1 waits to send. -/
def sendAndReceive (N : ℕ) (t : T) : List (Action (Input T)) :=
  (List.replicate N (sendFirst t)).flatten ++
    [.run 1 ⟨.send t, true⟩, .run 1 ⟨.recv, true⟩, .run 0 ⟨.recv, true⟩]

/-- Two threads with some values of thread 0 in the queue. -/
def filled (t : T) (k : ℕ) : Monitor.System (Channel T) Condition (Point T) :=
  ⟨{ (new : Channel T) with
      queue := List.replicate k (0, t)
      sent := List.replicate k (0, t) },
    [.ready .idle, .ready .idle]⟩

/-- The same while the last value of thread 0 is not acknowledged. -/
def sending (t : T) (k : ℕ) (p : Place Condition (Point T)) :
    Monitor.System (Channel T) Condition (Point T) :=
  ⟨{ (filled t (k + 1)).shared with isSendDone := false }, [p, .ready .idle]⟩

theorem replicate_concat (k : ℕ) (v : ℕ × T) :
    List.replicate k v ++ [v] = List.replicate (k + 1) v := List.replicate_succ'.symm

theorem run_sendFirst {k : ℕ} (hk : k < N) :
    (filled t k).run (program N) (sendFirst t) = some (filled t (k + 1)) := by
  have hmay : (filled t k).shared.maySend N = true :=
    maySend_eq_true.mpr ⟨rfl, rfl, List.length_replicate.trans_le hk.le⟩
  have hnotfull : ¬ (sending t k (.ready (.sendEnd t))).shared.isFull N = true := by
    rw [isFull_eq_true, not_lt]
    exact List.length_replicate.trans_le hk
  have hbegin : (⟨(filled t k).shared, [.ready (.send t), .ready .idle]⟩ :
      Monitor.System (Channel T) Condition (Point T)).act (program N) (.run 0 ⟨.recv, true⟩) =
        some (sending t k (.notifying .recv (.sendEnd t))) := by
    refine Monitor.System.act_run_eq_some.mpr ⟨_, rfl, ?_⟩
    rw [program, Channel.send, if_pos hmay, sending, filled, filled, emplaceBack]
    dsimp only
    rw [replicate_concat]
    rfl
  have hend : (sending t k (.ready (.sendEnd t))).act (program N) (.run 0 ⟨.recv, true⟩) =
      some ⟨(filled t (k + 1)).shared, [.notifying .sendBegin .idle, .ready .idle]⟩ := by
    refine Monitor.System.act_run_eq_some.mpr ⟨_, rfl, ?_⟩
    rw [program, Channel.sendEnd, if_neg hnotfull]
    rfl
  rw [sendFirst, Monitor.System.run_of_act
      (u := ⟨(filled t k).shared, [.ready (.send t), .ready .idle]⟩) rfl,
    Monitor.System.run_of_act hbegin,
    Monitor.System.run_of_act (u := sending t k (.ready (.sendEnd t))) rfl,
    Monitor.System.run_of_act hend]
  rfl

theorem run_fill (t : T) {k : ℕ} (hk : k ≤ N) :
    (system 2).run (program N) (List.replicate k (sendFirst t)).flatten = some (filled t k) := by
  induction k with
  | zero => rfl
  | succ k ih =>
    rw [List.replicate_succ', List.flatten_concat, Monitor.System.run_append,
      ih (Nat.le_of_succ_le hk)]
    exact run_sendFirst hk

/-- Both threads are in a call now: thread 0 is about to receive. -/
theorem run_sendAndReceive (N : ℕ) (t : T) :
    (system 2).run (program N) (sendAndReceive N t) =
      some ⟨{ (filled t N).shared.emplaceBack 1 t with isSendDone := false },
        [.ready .recv, .notifying .recv (.sendEnd t)]⟩ := by
  have hmay : (filled t N).shared.maySend N = true :=
    maySend_eq_true.mpr ⟨rfl, rfl, List.length_replicate.le⟩
  have hbegin : (⟨(filled t N).shared, [.ready .idle, .ready (.send t)]⟩ :
      Monitor.System (Channel T) Condition (Point T)).act (program N) (.run 1 ⟨.recv, true⟩) =
        some ⟨{ (filled t N).shared.emplaceBack 1 t with isSendDone := false },
          [.ready .idle, .notifying .recv (.sendEnd t)]⟩ := by
    refine Monitor.System.act_run_eq_some.mpr ⟨_, rfl, ?_⟩
    rw [program, Channel.send, if_pos hmay]
    rfl
  rw [sendAndReceive, Monitor.System.run_append, run_fill t le_rfl, Option.bind_some,
    Monitor.System.run_of_act
      (u := ⟨(filled t N).shared, [.ready .idle, .ready (.send t)]⟩) rfl,
    Monitor.System.run_of_act hbegin]
  rfl

theorem noTrySend_sendAndReceive (N : ℕ) (t : T) :
    ∀ a ∈ sendAndReceive N t, NoTrySend a := by
  intro a ha
  rcases List.mem_append.mp ha with hfill | hlast
  · obtain ⟨as, has, ha⟩ := List.mem_flatten.mp hfill
    obtain rfl := List.eq_of_mem_replicate has
    simp only [sendFirst, List.mem_cons, List.not_mem_nil, or_false] at ha
    rintro i x t' rfl
    obtain h | h | h | h | h := ha <;> cases h <;> exact nofun
  · simp only [List.mem_cons, List.not_mem_nil, or_false] at hlast
    rintro i x t' rfl
    obtain h | h | h := hlast <;> cases h <;> exact nofun

/-- **The assertions** that a thread comes to in a run: those about the protocol hold. That about
`select` does if all sends or all receives are outside of one. That about a thread that receives
from a full queue what it sent holds in all runs with sends outside of a `select` only if there is
no buffer. -/
theorem asserts_hold (T : Type) [Inhabited T] (N : ℕ) :
    (∀ n acts s i x p, (system n).run (program N) acts = some s →
      s.points[i]? = some (p : Point T) →
        (∀ b, (.protocol, b) ∈ s.shared.asserts N i x p → b = true) ∧
        ((∀ a ∈ acts, NoTrySend a) ∨ (∀ a ∈ acts, NoTryRecv a) →
          ∀ b, (.tryReady, b) ∈ s.shared.asserts N i x p → b = true)) ∧
      ((∀ n acts s i x p, (system n).run (program N) acts = some s →
        s.points[i]? = some (p : Point T) → (∀ a ∈ acts, NoTrySend a) →
          ∀ b, (.ownValue, b) ∈ s.shared.asserts N i x p → b = true) ↔ N = 0) := by
  refine ⟨fun n acts s i x p hrun hp ↦ ⟨(sound_of_run hrun).protocol, ?_⟩, ?_, ?_⟩
  · rintro (hacts | hacts)
    · exact (selectsNoSend_of_run hacts hrun).tryReady hp
    · exact (selectsNoRecv_of_run hacts hrun).tryReady
  · intro h
    by_contra hN
    obtain ⟨k, rfl⟩ := Nat.exists_eq_succ_of_ne_zero hN
    -- thread 0 takes its own value from the queue that thread 1 has filled up
    have hfalse : (.ownValue, false) ∈ ({ (filled (default : T) (k + 1)).shared.emplaceBack 1
        default with isSendDone := false } : Channel T).asserts (k + 1) 0 ⟨.recv, true⟩ .recv := by
      have hfull : ({ (filled (default : T) (k + 1)).shared.emplaceBack 1
          default with isSendDone := false } : Channel T).isFull (k + 1) = true := by
        rw [isFull_eq_true]
        change k + 1 < (List.replicate (k + 1) (0, default) ++ [(1, default)]).length
        rw [List.length_append, List.length_replicate, List.length_singleton]
        exact Nat.lt_succ_self _
      rw [asserts, recvAsserts]
      refine List.mem_cons_of_mem _ (List.mem_cons.mpr (.inl ?_))
      rw [hfull]
      rfl
    exact Bool.false_ne_true (h 2 _ _ 0 _ _ (run_sendAndReceive (k + 1) default) rfl
      (noTrySend_sendAndReceive _ _) _ hfalse)
  · rintro rfl n acts s i x p hrun hp hacts
    exact (sound_of_run hrun).ownValue (selectsNoSend_of_run hacts hrun) hp

end Channel

end DuoFirmware.System
