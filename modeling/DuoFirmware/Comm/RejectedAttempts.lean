import Mathlib.Data.List.GetD
import DuoFirmware.Comm.RateLimit

/-!
# Rejected attempts

An attempt to publish goes into the ring of times whether it is accepted or not, so that rejected
attempts keep later ones from being accepted. At the beginning the ring holds times of one second
before the clock starts, or wraps around.

`Spaced` says by the times alone which attempts are accepted. Of those in the second before a
rejected one only the first four can have been: `Justified`, which asks for four accepted ones, is
that they are.
-/

namespace DuoFirmware.Comm.RateLimiter

open PublishAttempt

variable {attempts : List PublishAttempt} {a b : PublishAttempt} {ts : List ℕ} {t i : ℕ}

/-- The times of the calls for events of the application. -/
def userTimes (attempts : List PublishAttempt) : List ℕ := (user attempts).map (·.time)

/-- Calls in the order of their times, less than 2^32 milliseconds apart. -/
structure InOrder (attempts : List PublishAttempt) : Prop where
  sorted : attempts.Pairwise (·.time ≤ ·.time)
  span : ∀ a ∈ attempts, ∀ b ∈ attempts, a.time < b.time + 4294967296

/-- The fourth attempt before a time was made at least a second earlier. If there are less than
four, it is not the last second before the clock wraps around. -/
def Spaced (ts : List ℕ) (t : ℕ) : Prop :=
  if 4 ≤ ts.length then ts.getD (ts.length - 4) 0 + 1000 ≤ t
  else 1000 ≤ (t + 1000) % 4294967296

instance (ts : List ℕ) (t : ℕ) : Decidable (Spaced ts t) := inferInstanceAs (Decidable (ite _ _ _))

/-- An attempt is rejected only after four others were accepted in the second before. -/
def Justified (attempts : List PublishAttempt) (a : PublishAttempt) : Prop :=
  ((run attempts).attempt a).1 = true →
    4 ≤ (accepted attempts).countP fun b ↦ ! b.isSystemEvent && a.time < b.time + 1000

/-! ## Which attempts are accepted -/

theorem InOrder.before (h : InOrder (attempts ++ [a])) : InOrder attempts where
  sorted := (List.pairwise_append.mp h.sorted).1
  span b hb c hc := h.span b (List.mem_append_left _ hb) c (List.mem_append_left _ hc)

theorem ticks_sub_lt_iff (hle : b.time ≤ a.time) (hspan : a.time < b.time + 4294967296) :
    a.ticks - b.ticks < 1000 ↔ a.time < b.time + 1000 := by
  rw [UInt32.lt_iff_toNat_lt, UInt32.toNat_sub, ticks, ticks, UInt32.toNat_ofNat',
    UInt32.toNat_ofNat']
  change _ < 1000 ↔ _
  omega

theorem ticks_sub_initial_lt_iff (a : PublishAttempt) :
    a.ticks - (-1000) < 1000 ↔ (a.time + 1000) % 4294967296 < 1000 := by
  rw [UInt32.lt_iff_toNat_lt, UInt32.toNat_sub, ticks, UInt32.toNat_ofNat',
    show (-1000 : UInt32).toNat = 4294966296 from rfl]
  change _ < 1000 ↔ _
  omega

/-- **An attempt is accepted** if and only if it is spaced from the attempts before it. -/
theorem attempt_eq_false_iff (h : InOrder (attempts ++ [a])) (huser : a.isSystemEvent = false) :
    ((run attempts).attempt a).1 = false ↔ Spaced (userTimes attempts) a.time := by
  have hlen : (userTimes attempts).length = (user attempts).length := List.length_map _
  have hring : (user attempts).length + 1 <
      (List.replicate 5 (-1000) ++ (user attempts).map ticks).length := by
    rw [List.length_append, List.length_replicate, List.length_map]
    omega
  have htail : (run attempts).recent.tail ++ [a.ticks] =
      (List.replicate 5 (-1000) ++ (user attempts).map ticks)[(user attempts).length + 1] ::
        ((List.replicate 5 (-1000) ++ (user attempts).map ticks).drop
          ((user attempts).length + 1 + 1) ++ [a.ticks]) := by
    rw [recent_run, List.tail_drop, List.drop_eq_getElem_cons hring, List.cons_append]
  rw [attempt, huser, isRateLimited_user _ _ _ _ htail, decide_eq_false_iff_not, Spaced, hlen]
  by_cases hmany : 4 ≤ (user attempts).length
  · -- the fourth last attempt is the one that is compared
    have hlt : (user attempts).length - 4 < (user attempts).length := by omega
    obtain ⟨b, hb⟩ : ∃ b, (user attempts)[(user attempts).length - 4]? = some b :=
      ⟨_, List.getElem?_eq_getElem hlt⟩
    have hget : (List.replicate 5 (-1000) ++ (user attempts).map ticks)[
        (user attempts).length + 1] = b.ticks := by
      rw [List.getElem_eq_iff, List.getElem?_append_right (by rw [List.length_replicate]; omega),
        List.length_replicate, show (user attempts).length + 1 - 5 = (user attempts).length - 4 by
          omega, List.getElem?_map, hb, Option.map_some]
    have htime : (userTimes attempts).getD ((user attempts).length - 4) 0 = b.time := by
      rw [List.getD_eq_getElem?_getD, userTimes, List.getElem?_map, hb, Option.map_some,
        Option.getD_some]
    have hmem : b ∈ attempts := List.mem_of_mem_filter (List.mem_of_getElem? hb)
    have hself : a ∈ attempts ++ [a] := List.mem_append_right _ (List.mem_singleton_self a)
    have hle := (List.pairwise_append.mp h.sorted).2.2 b hmem a (List.mem_singleton_self a)
    have hspan := h.span a hself b (List.mem_append_left _ hmem)
    rw [if_pos hmany, hget, htime, ticks_sub_lt_iff hle hspan, not_lt]
  · have hget : (List.replicate 5 (-1000) ++ (user attempts).map ticks)[
        (user attempts).length + 1] = -1000 := by
      rw [List.getElem_append_left (by rw [List.length_replicate]; omega), List.getElem_replicate]
    rw [if_neg hmany, hget, ticks_sub_initial_lt_iff, not_lt]

theorem userTimes_concat (attempts : List PublishAttempt) (huser : a.isSystemEvent = false) :
    userTimes (attempts ++ [a]) = userTimes attempts ++ [a.time] := by
  simp [userTimes, user, huser]

theorem userTimes_concat_system (attempts : List PublishAttempt)
    (hsystem : a.isSystemEvent = true) : userTimes (attempts ++ [a]) = userTimes attempts := by
  simp [userTimes, user, hsystem]

/-- The positions of the accepted attempts whose times have some property. -/
def acceptedAt (ts : List ℕ) (p : ℕ → Bool) : Finset ℕ :=
  (Finset.range ts.length).filter fun i ↦ Spaced (ts.take i) (ts.getD i 0) ∧ p (ts.getD i 0)

theorem acceptedAt_concat (ts : List ℕ) (t : ℕ) (p : ℕ → Bool) :
    acceptedAt (ts ++ [t]) p =
      if Spaced ts t ∧ p t then insert ts.length (acceptedAt ts p) else acceptedAt ts p := by
  have hlast : Spaced ((ts ++ [t]).take ts.length) ((ts ++ [t]).getD ts.length 0) ∧
      p ((ts ++ [t]).getD ts.length 0) ↔ Spaced ts t ∧ p t := by
    have hget : (ts ++ [t]).getD ts.length 0 = t := by
      rw [List.getD_append_right _ _ _ _ le_rfl, Nat.sub_self]
      rfl
    rw [List.take_left, hget]
  have hrest : ((Finset.range ts.length).filter fun i ↦
      Spaced ((ts ++ [t]).take i) ((ts ++ [t]).getD i 0) ∧ p ((ts ++ [t]).getD i 0)) =
      acceptedAt ts p := by
    refine Finset.filter_congr fun i hi ↦ ?_
    have hi := Finset.mem_range.mp hi
    rw [List.take_append_of_le_length hi.le, List.getD_append _ _ _ _ hi]
  rw [acceptedAt, List.length_append, List.length_singleton, Finset.range_add_one,
    Finset.filter_insert, hrest]
  simp only [hlast]

theorem card_acceptedAt_concat (ts : List ℕ) (t : ℕ) (p : ℕ → Bool) :
    (acceptedAt (ts ++ [t]) p).card =
      (acceptedAt ts p).card + if Spaced ts t ∧ p t then 1 else 0 := by
  rw [acceptedAt_concat]
  split
  · rw [Finset.card_insert_of_notMem]
    exact fun hmem ↦ absurd (Finset.mem_range.mp (Finset.mem_filter.mp hmem).1) (lt_irrefl _)
  · rfl

/-- **The accepted attempts** are counted by their positions. -/
theorem countP_accepted (h : InOrder attempts) (p : ℕ → Bool) :
    (accepted attempts).countP (fun b ↦ ! b.isSystemEvent && p b.time) =
      (acceptedAt (userTimes attempts) p).card := by
  induction attempts using List.reverseRecOn with
  | nil => rfl
  | append_singleton attempts a ih =>
    rw [accepted_concat, List.countP_append, ih h.before]
    cases hsystem : a.isSystemEvent with
    | true =>
      rw [userTimes_concat_system attempts hsystem]
      split
      · rfl
      · simp [hsystem]
    | false =>
      have hspaced := attempt_eq_false_iff h hsystem
      rw [userTimes_concat attempts hsystem, card_acceptedAt_concat]
      congr 1
      cases haccept : ((run attempts).attempt a).1 with
      | true =>
        have hnot : ¬ Spaced (userTimes attempts) a.time := by simp [← hspaced, haccept]
        simp [hnot]
      | false => simp [hsystem, hspaced.mp haccept, List.countP_cons]

/-! ## The second before an attempt -/

/-- In order, the times up to some time come first. -/
theorem getD_add_le_iff (h : ts.Pairwise (· ≤ ·)) (hi : i < ts.length) :
    ts.getD i 0 + 1000 ≤ t ↔ i < ts.countP (· + 1000 ≤ t) := by
  induction ts generalizing i with
  | nil => cases hi
  | cons x ts ih =>
    obtain ⟨hx, hsorted⟩ := List.pairwise_cons.mp h
    by_cases hlong : x + 1000 ≤ t
    · rw [List.countP_cons_of_pos (by simpa using hlong)]
      cases i with
      | zero => exact iff_of_true hlong (Nat.succ_pos _)
      | succ i =>
        rw [List.getD_cons_succ, ih hsorted (Nat.lt_of_succ_lt_succ hi), Nat.succ_lt_succ_iff]
    · have hzero : (x :: ts).countP (· + 1000 ≤ t) = 0 := by
        refine List.countP_eq_zero.mpr fun y hy hle ↦ hlong ?_
        have hle := of_decide_eq_true hle
        rcases List.mem_cons.mp hy with rfl | hy
        · exact hle
        · exact (Nat.add_le_add_right (hx y hy) 1000).trans hle
      rw [hzero]
      refine iff_of_false (fun hle ↦ hlong ?_) (Nat.not_lt_zero i)
      rw [List.getD_eq_getElem _ _ hi] at hle
      rcases List.mem_cons.mp (List.getElem_mem hi) with heq | hmem
      · rwa [heq] at hle
      · exact (Nat.add_le_add_right (hx _ hmem) 1000).trans hle

/-- Only the first four attempts of a second can have been accepted. -/
theorem mem_acceptedAt_window (h : (ts ++ [t]).Pairwise (· ≤ ·))
    (hi : i ∈ acceptedAt ts fun x ↦ t < x + 1000) :
    i ∈ Finset.Ico (ts.countP (· + 1000 ≤ t)) (ts.countP (· + 1000 ≤ t) + 4) := by
  obtain ⟨hsorted, -, hlast⟩ := List.pairwise_append.mp h
  obtain ⟨hrange, hspaced, hwindow⟩ := Finset.mem_filter.mp hi
  have hlt := Finset.mem_range.mp hrange
  have hwindow := of_decide_eq_true hwindow
  have hge : ts.countP (· + 1000 ≤ t) ≤ i := by
    rw [← not_lt, ← getD_add_le_iff hsorted hlt]
    omega
  refine Finset.mem_Ico.mpr ⟨hge, ?_⟩
  by_contra hfour
  -- the fourth attempt before it was made in that second too
  have hlen : (ts.take i).length = i := by rw [List.length_take, Nat.min_eq_left hlt.le]
  have hfourth : (ts.take i).getD (i - 4) 0 = ts.getD (i - 4) 0 := by
    rw [List.getD_eq_getElem?_getD, List.getD_eq_getElem?_getD, List.getElem?_take_of_lt (by omega)]
  rw [Spaced, hlen, if_pos (by omega), hfourth] at hspaced
  have hle : ts.getD i 0 ≤ t := by
    rw [List.getD_eq_getElem _ _ hlt]
    exact hlast _ (List.getElem_mem hlt) t (List.mem_singleton_self t)
  have hnear : ¬ ts.getD (i - 4) 0 + 1000 ≤ t := by
    rw [getD_add_le_iff hsorted (by omega)]
    omega
  omega

/-- **Four attempts were accepted** in the second before a time if and only if the first four of
that second were. -/
theorem four_le_card_iff (h : (ts ++ [t]).Pairwise (· ≤ ·)) :
    4 ≤ (acceptedAt ts fun x ↦ t < x + 1000).card ↔
      ∀ i < 4, ts.countP (· + 1000 ≤ t) + i < ts.length ∧
        Spaced (ts.take (ts.countP (· + 1000 ≤ t) + i))
          (ts.getD (ts.countP (· + 1000 ≤ t) + i) 0) := by
  have hsub : acceptedAt ts (fun x ↦ t < x + 1000) ⊆
      Finset.Ico (ts.countP (· + 1000 ≤ t)) (ts.countP (· + 1000 ≤ t) + 4) :=
    fun i hi ↦ mem_acceptedAt_window h hi
  have hcard : (Finset.Ico (ts.countP (· + 1000 ≤ t)) (ts.countP (· + 1000 ≤ t) + 4)).card = 4 := by
    rw [Nat.card_Ico, Nat.add_sub_cancel_left]
  obtain ⟨hsorted, -, -⟩ := List.pairwise_append.mp h
  constructor
  · intro hfour i hi
    have heq := Finset.eq_of_subset_of_card_le hsub (by rwa [hcard])
    have hmem : ts.countP (· + 1000 ≤ t) + i ∈ acceptedAt ts fun x ↦ t < x + 1000 := by
      rw [heq, Finset.mem_Ico]
      omega
    obtain ⟨hrange, hspaced, -⟩ := Finset.mem_filter.mp hmem
    exact ⟨Finset.mem_range.mp hrange, hspaced⟩
  · intro hall
    rw [← hcard]
    refine Finset.card_le_card fun j hj ↦ ?_
    obtain ⟨hle, hlt⟩ := Finset.mem_Ico.mp hj
    obtain ⟨i, rfl⟩ := Nat.exists_eq_add_of_le hle
    obtain ⟨hrange, hspaced⟩ := hall i (Nat.lt_of_add_lt_add_left hlt)
    refine Finset.mem_filter.mpr ⟨Finset.mem_range.mpr hrange, hspaced, decide_eq_true ?_⟩
    have hnear := (getD_add_le_iff (t := t) hsorted hrange).not.mpr (Nat.not_lt.mpr hle)
    omega

/-- **No attempt is rejected without reason** if and only if it is accepted, or the first four
attempts of the second before it were. -/
theorem justified_iff (h : InOrder (attempts ++ [a])) (huser : a.isSystemEvent = false) :
    Justified attempts a ↔ Spaced (userTimes attempts) a.time ∨
      ∀ i < 4, (userTimes attempts).countP (· + 1000 ≤ a.time) + i < (userTimes attempts).length ∧
        Spaced ((userTimes attempts).take ((userTimes attempts).countP (· + 1000 ≤ a.time) + i))
          ((userTimes attempts).getD ((userTimes attempts).countP (· + 1000 ≤ a.time) + i) 0) := by
  have hsorted : (userTimes attempts ++ [a.time]).Pairwise (· ≤ ·) := by
    rw [← userTimes_concat attempts huser]
    exact (h.sorted.sublist List.filter_sublist).map _ fun _ _ hle ↦ hle
  rw [Justified, countP_accepted h.before (fun x ↦ a.time < x + 1000), four_le_card_iff hsorted,
    ← attempt_eq_false_iff h huser]
  cases ((run attempts).attempt a).1 with
  | true => simp
  | false => simp

/-- An attempt every 200 milliseconds. -/
def steady (n : ℕ) : List PublishAttempt := (List.range n).map fun i ↦ ⟨false, 5000 + 200 * i⟩

theorem justified_iff_steady : ((run (steady 4)).attempt ⟨false, 5800⟩).1 = true ∧
    Justified (steady 4) ⟨false, 5800⟩ := by
  have h : InOrder (steady 4 ++ [⟨false, 5800⟩]) := ⟨by decide, by decide⟩
  exact ⟨by decide +kernel, (justified_iff h rfl).mpr (Or.inr (by decide +kernel))⟩

/-- The seventh attempt is rejected, although only three were accepted in the second before it, the
whole millisecond at its beginning included. -/
theorem not_justified_steady :
    ¬ ∀ (attempts : List PublishAttempt) (a : PublishAttempt), InOrder (attempts ++ [a]) →
      (∀ b ∈ attempts ++ [a], b.isSystemEvent = false) → ((run attempts).attempt a).1 = true →
      4 ≤ (accepted attempts).countP fun b ↦ a.time ≤ b.time + 1000 := by
  intro hall
  have h : InOrder (steady 6 ++ [⟨false, 6200⟩]) := ⟨by decide, by decide⟩
  have hfour := hall (steady 6) ⟨false, 6200⟩ h (by decide) (by decide +kernel)
  exact absurd hfour (by decide +kernel)

end DuoFirmware.Comm.RateLimiter
