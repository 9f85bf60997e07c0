import Mathlib.Data.List.Rotate
import Mathlib.Tactic

/-!
# The rate limits of published events

`Publisher::is_rate_limited` allows four events of the application in a second and 255 events of the
system in a minute, which is 65536 milliseconds long. For the former it keeps the times of the last
five calls in a ring; for the latter it counts the events of the current minute.
-/

namespace DuoFirmware.Comm

/-- The static variables of `is_rate_limited`. -/
structure RateLimiter where
  lastMinute : UInt16
  eventsThisMinute : UInt8
  recentEventTicks : List UInt32
  evtTickIdx : ℕ
  length_eq : recentEventTicks.length = 5
  idx_lt : evtTickIdx < 5

namespace RateLimiter

variable (s : RateLimiter)

/-- The initial values. -/
def new : RateLimiter := ⟨0, 0, List.replicate 5 (-1000), 0, List.length_replicate, by decide⟩

/-- `is_rate_limited`. -/
def isRateLimited (isSystemEvent : Bool) (millis : UInt32) : Bool × RateLimiter :=
  if isSystemEvent then
    let currentMinute := (millis >>> 16).toUInt16
    if currentMinute = s.lastMinute then
      if s.eventsThisMinute = 255 then (true, s)
      else (false, { s with eventsThisMinute := s.eventsThisMinute + 1 })
    else (false, { s with lastMinute := currentMinute, eventsThisMinute := 0 + 1 })
  else
    let ticks := s.recentEventTicks.set s.evtTickIdx millis
    have hlen : ticks.length = 5 := List.length_set.trans s.length_eq
    let idx := (s.evtTickIdx + 1) % 5
    have hidx : idx < 5 := Nat.mod_lt _ (by decide)
    have hget : idx < ticks.length := hlen ▸ hidx
    -- exceeded allowable burst of 4 events per second
    (millis - ticks[idx] < 1000,
      { s with recentEventTicks := ticks, evtTickIdx := idx, length_eq := hlen, idx_lt := hidx })

/-! ## The ring -/

/-- The times in the ring, from the oldest on. -/
def recent : List UInt32 := s.recentEventTicks.rotate s.evtTickIdx

/-- An element is overwritten, and the ring starts behind it. -/
theorem rotate_set {α : Type} (l : List α) {i : ℕ} (h : i < l.length) (x : α) :
    (l.set i x).rotate (i + 1) = (l.rotate i).tail ++ [x] := by
  have hsplit : l = l.take i ++ l[i] :: l.drop (i + 1) := by
    rw [List.getElem_cons_drop, List.take_append_drop]
  have hlen : (l.take i).length = i := by rw [List.length_take, Nat.min_eq_left h.le]
  generalize l.take i = a at hsplit hlen
  generalize l.drop (i + 1) = b at hsplit
  generalize l[i] = y at hsplit
  subst hsplit hlen
  rw [List.set_append_right _ _ le_rfl, Nat.sub_self, List.set_cons_zero,
    List.rotate_append_length_eq, List.append_cons]
  have hlen : (a ++ [x]).length = a.length + 1 := List.length_append
  rw [← hlen, List.rotate_append_length_eq, List.cons_append, List.tail_cons, List.append_assoc]

/-- **A user event** takes the place of the oldest time. -/
theorem recent_isRateLimited (millis : UInt32) :
    (s.isRateLimited false millis).2.recent = s.recent.tail ++ [millis] := by
  have hlen : (s.recentEventTicks.set s.evtTickIdx millis).length = 5 :=
    List.length_set.trans s.length_eq
  change (s.recentEventTicks.set s.evtTickIdx millis).rotate ((s.evtTickIdx + 1) % 5) = _
  rw [← hlen, List.rotate_mod, rotate_set _ (s.length_eq.symm ▸ s.idx_lt)]
  rfl

/-- It is allowed if the oldest time is long ago then. -/
theorem isRateLimited_user (millis x : UInt32) (r : List UInt32)
    (h : s.recent.tail ++ [millis] = x :: r) :
    (s.isRateLimited false millis).1 = decide (millis - x < 1000) := by
  have hhead := congrArg List.head? ((s.recent_isRateLimited millis).trans h)
  rw [recent, List.head?_rotate (by
    rw [(s.isRateLimited false millis).2.length_eq]
    exact (s.isRateLimited false millis).2.idx_lt)] at hhead
  change (s.recentEventTicks.set s.evtTickIdx millis)[(s.evtTickIdx + 1) % 5]? = some x at hhead
  obtain ⟨hlt, hget⟩ := List.getElem?_eq_some_iff.mp hhead
  rw [← hget]
  rfl

theorem recent_system (millis : UInt32) : (s.isRateLimited true millis).2.recent = s.recent := by
  rw [isRateLimited, if_pos rfl]
  dsimp only
  split
  · split <;> rfl
  · rfl

end RateLimiter

/-! ## Runs -/

/-- A call, at a real time. -/
structure PublishAttempt where
  isSystemEvent : Bool
  time : ℕ

/-- The time as it is passed. -/
def PublishAttempt.ticks (a : PublishAttempt) : UInt32 := UInt32.ofNat a.time

namespace RateLimiter

open PublishAttempt

def attempt (s : RateLimiter) (a : PublishAttempt) : Bool × RateLimiter :=
  s.isRateLimited a.isSystemEvent a.ticks

/-- The state after some calls. -/
def run (attempts : List PublishAttempt) : RateLimiter :=
  attempts.foldl (fun s a ↦ (s.attempt a).2) new

/-- The calls from a state on that were not limited. -/
def acceptedFrom (s : RateLimiter) : List PublishAttempt → List PublishAttempt
  | [] => []
  | a :: attempts =>
    if (s.attempt a).1 then acceptedFrom (s.attempt a).2 attempts
    else a :: acceptedFrom (s.attempt a).2 attempts

/-- The events that were allowed. -/
def accepted (attempts : List PublishAttempt) : List PublishAttempt := acceptedFrom new attempts

variable {attempts : List PublishAttempt} {a : PublishAttempt}

theorem run_concat (attempts : List PublishAttempt) (a : PublishAttempt) :
    run (attempts ++ [a]) = ((run attempts).attempt a).2 := by
  rw [run, List.foldl_append]
  rfl

theorem accepted_concat (attempts : List PublishAttempt) (a : PublishAttempt) :
    accepted (attempts ++ [a]) =
      accepted attempts ++ if ((run attempts).attempt a).1 then [] else [a] := by
  rw [accepted, accepted, run]
  generalize new = s
  induction attempts generalizing s with
  | nil => cases h : (s.attempt a).1 <;> simp [acceptedFrom, h]
  | cons b attempts ih =>
    rw [List.cons_append, acceptedFrom, acceptedFrom, ih, List.foldl_cons]
    split <;> rfl

theorem accepted_sublist (attempts : List PublishAttempt) :
    (accepted attempts).Sublist attempts := by
  induction attempts using List.reverseRecOn with
  | nil => exact List.Sublist.refl _
  | append_singleton attempts a ih =>
    rw [accepted_concat]
    split
    · exact ih.append (List.nil_sublist _)
    · exact ih.append (List.Sublist.refl _)

/-! ## Events of the application -/

/-- The events of the application among some calls. -/
def user (attempts : List PublishAttempt) : List PublishAttempt :=
  attempts.filter (! ·.isSystemEvent)

/-- The ring holds the times of the last calls for events of the application. -/
theorem recent_run (attempts : List PublishAttempt) : (run attempts).recent =
    (List.replicate 5 (-1000) ++ (user attempts).map ticks).drop (user attempts).length := by
  induction attempts using List.reverseRecOn with
  | nil => rfl
  | append_singleton attempts a ih =>
    rw [run_concat, attempt]
    cases hsystem : a.isSystemEvent with
    | true =>
      have huser : user (attempts ++ [a]) = user attempts := by simp [user, hsystem]
      rw [recent_system, ih, huser]
    | false =>
      have huser : user (attempts ++ [a]) = user attempts ++ [a] := by simp [user, hsystem]
      rw [recent_isRateLimited, ih, huser, List.map_append, List.length_append, List.tail_drop,
        ← List.append_assoc]
      refine (List.drop_append_of_le_length ?_).symm
      rw [List.length_append, List.length_map, List.length_replicate]
      omega

/-- A difference of ticks that is not small is one of times. -/
theorem le_of_ticks {a b : PublishAttempt} (hle : b.time ≤ a.time)
    (h : ¬ a.ticks - b.ticks < 1000) : b.time + 1000 ≤ a.time := by
  rw [UInt32.lt_iff_toNat_lt, UInt32.toNat_sub, ticks, ticks, UInt32.toNat_ofNat',
    UInt32.toNat_ofNat'] at h
  change ¬ _ < 1000 at h
  omega

/-- **An event of the application is accepted** only if at most three other calls for such events
were made in the second before. -/
theorem count_user_le (h : (attempts ++ [a]).Pairwise (·.time ≤ ·.time))
    (hsystem : a.isSystemEvent = false) (haccept : ((run attempts).attempt a).1 = false) {x : ℕ}
    (hx : a.time < x + 1000) : (user attempts).countP (x ≤ ·.time) ≤ 3 := by
  obtain ⟨hsorted, -, hlast⟩ := List.pairwise_append.mp h
  rcases Nat.lt_or_ge (user attempts).length 4 with hfew | hmany
  · exact List.countP_le_length.trans (Nat.le_of_lt_succ hfew)
  -- the fourth last of the calls is the one that is compared
  obtain ⟨v, b, w, hsplit, hw⟩ : ∃ v b w, user attempts = v ++ b :: w ∧ w.length = 3 := by
    have hdrop : ((user attempts).drop ((user attempts).length - 4)).length = 4 := by
      rw [List.length_drop]
      omega
    obtain ⟨b, w, hbw⟩ := List.exists_cons_of_length_eq_add_one hdrop
    refine ⟨(user attempts).take ((user attempts).length - 4), b, w, ?_, ?_⟩
    · rw [← hbw, List.take_append_drop]
    · rw [hbw] at hdrop
      exact Nat.succ.inj hdrop
  have htail : (run attempts).recent.tail ++ [a.ticks] = b.ticks :: (w.map ticks ++ [a.ticks]) := by
    have hlen : (List.replicate 5 (-1000) ++ v.map ticks).length = (user attempts).length + 1 := by
      rw [hsplit]
      simp only [List.length_append, List.length_replicate, List.length_map, List.length_cons, hw]
      omega
    rw [recent_run, List.tail_drop, ← hlen, hsplit, List.map_append, ← List.append_assoc,
      List.drop_left]
    rfl
  have hsub : (v ++ b :: w).Sublist attempts := hsplit ▸ List.filter_sublist
  have hlong : b.time + 1000 ≤ a.time := by
    have hb : b ∈ attempts := hsub.subset (List.mem_append_right _ List.mem_cons_self)
    apply le_of_ticks (hlast b hb a (List.mem_singleton_self a))
    rw [attempt, hsystem, isRateLimited_user _ _ _ _ htail] at haccept
    exact of_decide_eq_false haccept
  -- it was made too long ago, and so were those before it
  obtain ⟨-, -, hv⟩ := List.pairwise_append.mp (hsorted.sublist hsub)
  have hzero : v.countP (x ≤ ·.time) = 0 := by
    apply List.countP_eq_zero.mpr
    intro c hc
    have hcb := hv c hc b List.mem_cons_self
    simp only [decide_eq_true_eq]
    omega
  have hb : ¬ x ≤ b.time := by omega
  rw [hsplit, List.countP_append, hzero, Nat.zero_add, List.countP_cons_of_neg (by simpa using hb),
    ← hw]
  exact List.countP_le_length

/-- Whether an event of the application falls in the second from `x` on. -/
def inWindow (x : ℕ) (a : PublishAttempt) : Bool :=
  ! a.isSystemEvent && (x ≤ a.time && a.time < x + 1000)

theorem countP_accepted_window (h : attempts.Pairwise (·.time ≤ ·.time)) (x : ℕ) :
    (accepted attempts).countP (inWindow x) ≤ 4 := by
  induction attempts using List.reverseRecOn with
  | nil => exact Nat.zero_le _
  | append_singleton attempts a ih =>
    have hbefore := ih (List.pairwise_append.mp h).1
    rw [accepted_concat, List.countP_append]
    split
    · exact hbefore
    · rename_i haccept
      rw [List.countP_singleton]
      split
      · rename_i hwindow
        simp only [inWindow, Bool.and_eq_true, Bool.not_eq_true', decide_eq_true_eq] at hwindow
        obtain ⟨hsystem, -, hx⟩ := hwindow
        -- what was accepted before is among the calls
        have hle : (accepted attempts).countP (inWindow x) ≤
            (user attempts).countP (x ≤ ·.time) := by
          rw [user, List.countP_filter]
          refine (accepted_sublist attempts).countP_le.trans
            (List.countP_mono_left fun c _ hc ↦ ?_)
          simp only [inWindow, Bool.and_eq_true, Bool.not_eq_true', decide_eq_true_eq] at hc ⊢
          exact ⟨hc.2.1, hc.1⟩
        have hthree := count_user_le h hsystem (Bool.eq_false_iff.mpr haccept) hx
        omega
      · exact hbefore

/-! ## Events of the system -/

/-- The minute of a time; the code sees it modulo 65536. -/
def minute (a : PublishAttempt) : ℕ := a.time / 65536

theorem currentMinute_eq (a : PublishAttempt) :
    (a.ticks >>> 16).toUInt16 = UInt16.ofNat (minute a) := by
  apply UInt16.toNat.inj
  rw [UInt32.toNat_toUInt16, UInt32.toNat_shiftRight, ticks, UInt32.toNat_ofNat',
    UInt16.toNat_ofNat', Nat.shiftRight_eq_div_pow, minute]
  change a.time % 4294967296 / 65536 % 65536 = a.time / 65536 % 65536
  omega

/-- Whether an event of the system falls in the `j`-th minute. -/
def inMinute (j : ℕ) (a : PublishAttempt) : Bool :=
  a.isSystemEvent && (65536 * j ≤ a.time && a.time < 65536 * (j + 1))

theorem inMinute_iff (j : ℕ) (a : PublishAttempt) :
    inMinute j a = true ↔ a.isSystemEvent = true ∧ minute a = j := by
  simp only [inMinute, minute, Bool.and_eq_true, decide_eq_true_eq]
  apply and_congr_right
  intro _
  omega

/-- The counter of a minute is at least the number of its events, and no later minute has any. -/
structure Counts (s : RateLimiter) (accepted : List PublishAttempt) (last : ℕ) : Prop where
  lastMinute : s.lastMinute = UInt16.ofNat last
  count_le : accepted.countP (inMinute last) ≤ s.eventsThisMinute.toNat
  minute_le : ∀ a ∈ accepted, a.isSystemEvent = true → minute a ≤ last
  countP_le : ∀ j, accepted.countP (inMinute j) ≤ 255

variable {s : RateLimiter} {as : List PublishAttempt} {last : ℕ}

/-- There are no events yet in a later minute. -/
theorem Counts.countP_eq_zero (h : Counts s as last) {j : ℕ} (hj : last < j) :
    as.countP (inMinute j) = 0 := by
  apply List.countP_eq_zero.mpr
  intro a ha hc
  obtain ⟨hsystem, rfl⟩ := (inMinute_iff j a).mp hc
  exact absurd (h.minute_le a ha hsystem) (not_le.mpr hj)

/-- A counter that is large enough for another event of the system. -/
theorem Counts.concat (h : Counts s as last) (hsystem : a.isSystemEvent = true)
    (hle : last ≤ minute a) {s' : RateLimiter} (hminute : s'.lastMinute = UInt16.ofNat (minute a))
    (hcount : as.countP (inMinute (minute a)) + 1 ≤ s'.eventsThisMinute.toNat) :
    Counts s' (as ++ [a]) (minute a) := by
  have hself : inMinute (minute a) a = true := (inMinute_iff _ a).mpr ⟨hsystem, rfl⟩
  refine ⟨hminute, ?_, ?_, ?_⟩
  · rw [List.countP_append, List.countP_singleton, if_pos hself]
    exact hcount
  · intro b hb hsystem'
    rcases List.mem_append.mp hb with hb | hb
    · exact (h.minute_le b hb hsystem').trans hle
    · rw [List.mem_singleton.mp hb]
  · intro j
    rw [List.countP_append, List.countP_singleton]
    split
    · rename_i hj
      obtain ⟨-, rfl⟩ := (inMinute_iff j a).mp hj
      exact hcount.trans (Nat.le_of_lt_succ s'.eventsThisMinute.toNat_lt)
    · exact h.countP_le j

/-- **A call for an event of the system** keeps the counter above the number of events. -/
theorem Counts.attempt (h : Counts s as last) (hsystem : a.isSystemEvent = true)
    (hle : last ≤ minute a) : ∃ last', last' ≤ minute a ∧
      Counts (s.attempt a).2 (as ++ if (s.attempt a).1 then [] else [a]) last' := by
  rw [RateLimiter.attempt, hsystem, isRateLimited, if_pos rfl, currentMinute_eq]
  dsimp only
  by_cases hsame : UInt16.ofNat (minute a) = s.lastMinute
  · rw [if_pos hsame]
    -- if the minute is not the same one, it is later
    have hcount : as.countP (inMinute (minute a)) ≤ s.eventsThisMinute.toNat := by
      rcases hle.eq_or_lt with rfl | hlt
      · exact h.count_le
      · rw [h.countP_eq_zero hlt]
        exact Nat.zero_le _
    by_cases hfull : s.eventsThisMinute = 255
    · rw [if_pos hfull, if_pos rfl, List.append_nil]
      exact ⟨last, hle, h⟩
    · have hlt : s.eventsThisMinute.toNat < 255 := by
        refine lt_of_le_of_ne (Nat.le_of_lt_succ s.eventsThisMinute.toNat_lt) fun hc ↦ hfull ?_
        exact UInt8.toNat.inj hc
      have hnext : (s.eventsThisMinute + 1).toNat = s.eventsThisMinute.toNat + 1 := by
        rw [UInt8.toNat_add]
        exact Nat.mod_eq_of_lt (Nat.succ_lt_succ hlt)
      rw [if_neg hfull, if_neg Bool.false_ne_true]
      refine ⟨minute a, le_rfl, h.concat hsystem hle hsame.symm ?_⟩
      change _ ≤ (s.eventsThisMinute + 1).toNat
      rw [hnext]
      exact Nat.succ_le_succ hcount
  · rw [if_neg hsame, if_neg Bool.false_ne_true]
    have hlt : last < minute a := by
      refine lt_of_le_of_ne hle fun hc ↦ hsame ?_
      rw [← hc, h.lastMinute]
    refine ⟨minute a, le_rfl, h.concat hsystem hle rfl ?_⟩
    rw [h.countP_eq_zero hlt]
    exact le_rfl

/-- The other calls do not touch the counter. -/
theorem Counts.attempt_user (h : Counts s as last) (huser : a.isSystemEvent = false) :
    Counts (s.attempt a).2 (as ++ if (s.attempt a).1 then [] else [a]) last := by
  have hcount : ∀ j, (as ++ if (s.attempt a).1 then [] else [a]).countP (inMinute j) =
      as.countP (inMinute j) := by
    intro j
    rw [List.countP_append]
    split
    · rfl
    · rw [List.countP_singleton, if_neg (by simp [inMinute, huser]), Nat.add_zero]
  refine ⟨?_, ?_, ?_, ?_⟩
  · rw [RateLimiter.attempt, huser]
    exact h.lastMinute
  · rw [hcount, RateLimiter.attempt, huser]
    exact h.count_le
  · intro b hb hsystem
    rcases List.mem_append.mp hb with hb | hb
    · exact h.minute_le b hb hsystem
    · split at hb
      · cases hb
      · rw [List.mem_singleton.mp hb, huser] at hsystem
        cases hsystem
  · intro j
    rw [hcount]
    exact h.countP_le j

theorem counts_run (h : attempts.Pairwise (·.time ≤ ·.time)) : ∃ last,
    Counts (run attempts) (accepted attempts) last ∧
      ∀ t, (∀ a ∈ attempts, a.time ≤ t) → last ≤ t / 65536 := by
  induction attempts using List.reverseRecOn with
  | nil =>
    exact ⟨0, ⟨rfl, Nat.zero_le _, fun a ha ↦ absurd ha List.not_mem_nil,
      fun j ↦ Nat.zero_le _⟩, fun t _ ↦ Nat.zero_le _⟩
  | append_singleton attempts a ih =>
    obtain ⟨hsorted, -, hlast⟩ := List.pairwise_append.mp h
    obtain ⟨last, hcounts, hle⟩ := ih hsorted
    have hla : last ≤ minute a := hle a.time fun b hb ↦ hlast b hb a (List.mem_singleton_self a)
    rw [run_concat, accepted_concat]
    cases hsystem : a.isSystemEvent with
    | true =>
      obtain ⟨last', hle', h'⟩ := hcounts.attempt hsystem hla
      refine ⟨last', h', fun t ht ↦ hle'.trans (Nat.div_le_div_right ?_)⟩
      exact ht a (List.mem_append_right _ (List.mem_singleton_self a))
    | false =>
      exact ⟨last, hcounts.attempt_user hsystem,
        fun t ht ↦ hle t fun b hb ↦ ht b (List.mem_append_left _ hb)⟩

/-- **The rate limits.** In no second are there five events of the application, and in no minute
more than 255 events of the system. -/
theorem rate_limits (attempts : List PublishAttempt) (h : attempts.Pairwise (·.time ≤ ·.time)) :
    (∀ x, (accepted attempts).countP (fun a ↦
      ! a.isSystemEvent && (x ≤ a.time && a.time < x + 1000)) ≤ 4) ∧
    (∀ j, (accepted attempts).countP (fun a ↦
      a.isSystemEvent && (65536 * j ≤ a.time && a.time < 65536 * (j + 1))) ≤ 255) := by
  obtain ⟨last, hcounts, -⟩ := counts_run h
  exact ⟨countP_accepted_window h, hcounts.countP_le⟩

/-- Two seconds with an event each, and one of the system. -/
def threeAttempts : List PublishAttempt := [⟨false, 1⟩, ⟨true, 5⟩, ⟨false, 1001⟩]

theorem rate_limits_three :
    (∀ x, (accepted threeAttempts).countP (fun a ↦
      ! a.isSystemEvent && (x ≤ a.time && a.time < x + 1000)) ≤ 4) ∧
    (∀ j, (accepted threeAttempts).countP (fun a ↦
      a.isSystemEvent && (65536 * j ≤ a.time && a.time < 65536 * (j + 1))) ≤ 255) :=
  rate_limits threeAttempts (by simp [threeAttempts])

end RateLimiter

end DuoFirmware.Comm
