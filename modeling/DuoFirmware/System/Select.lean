import Mathlib.Tactic

/-!
# Selects

A `select` has a list of cases, each of which tries to send or to receive on a channel. `try_once`
tries all cases once, from a random one on, and `wait` tries them in turn until one succeeds. Both
compute with 32-bit numbers: what `try_once` adds to the random number may wrap around, and then
some case is tried twice and another one not at all, unless the number of cases divides `2 ^ 32`.
-/

namespace DuoFirmware.System.Select

/-- A case changes what is shared, and says whether it has succeeded. -/
abbrev Case (σ : Type) := σ → Bool × σ

variable {σ : Type} (others : ℕ → σ → σ) (tries : List (Case σ))

/-- `m_try_functions.size()`. -/
def size : UInt32 := .ofNat tries.length

/-- The loop of `try_once`, with the number of rounds left; before a round, the other threads may
have changed what is shared. -/
def tryOnceLoop (i : UInt32) : ℕ → UInt32 → σ → Option (Bool × σ)
  | 0, _, s => some (false, s)
  | k + 1, j, s =>
    tries[((i + j) % size tries).toNat]?.bind fun f ↦
      if (f (others k s)).1 then some (f (others k s))
      else tryOnceLoop i k (j + 1) (f (others k s)).2

/-- `try_once`, with what `random_gen` returns. -/
def tryOnce (random : UInt32) (s : σ) : Option (Bool × σ) :=
  tryOnceLoop others tries random tries.length 0 s

/-- The loop of `wait`, for some rounds. -/
def waitLoop : ℕ → UInt32 → σ → Option σ
  | 0, _, _ => none
  | k + 1, i, s =>
    let i := (i + 1) % size tries
    tries[i.toNat]?.bind fun f ↦
      if (f (others k s)).1 then some (f (others k s)).2
      else waitLoop k i (f (others k s)).2

/-! ## Which cases are tried -/

/-- The case in round `j`. -/
def turn (random n j : ℕ) : ℕ := (random + j) % 4294967296 % n

theorem toNat_ofNat {n : ℕ} (hn : n < 4294967296) : (UInt32.ofNat n).toNat = n :=
  (UInt32.toNat_ofNat').trans (Nat.mod_eq_of_lt hn)

variable {others tries} {n random : ℕ}

theorem toNat_turn (hn : tries.length < 4294967296) (i j : UInt32) :
    ((i + j) % size tries).toNat = turn i.toNat tries.length j.toNat := by
  rw [UInt32.toNat_mod, UInt32.toNat_add, size, toNat_ofNat hn]
  rfl

/-- Consecutive numbers have all remainders. -/
theorem exists_mod_eq (a : ℕ) {k : ℕ} (hk : k < n) : ∃ j < n, (a + j) % n = k := by
  have hpos : 0 < n := Nat.zero_lt_of_lt hk
  have hlt := Nat.mod_lt a hpos
  refine ⟨(k + (n - a % n)) % n, Nat.mod_lt _ hpos, ?_⟩
  have hsum : a + (k + (n - a % n)) = k + n * (a / n + 1) := by
    have hdiv := Nat.div_add_mod a n
    rw [Nat.mul_add, Nat.mul_one]
    omega
  rw [Nat.add_mod_mod, hsum, Nat.add_mul_mod_self_left, Nat.mod_eq_of_lt hk]

theorem exists_turn_of_le (h : random + n ≤ 4294967296) {k : ℕ} (hk : k < n) :
    ∃ j < n, turn random n j = k := by
  obtain ⟨j, hj, hmod⟩ := exists_mod_eq random hk
  refine ⟨j, hj, ?_⟩
  rw [turn, Nat.mod_eq_of_lt (show random + j < 4294967296 by omega), hmod]

theorem exists_turn_of_dvd (h : n ∣ 4294967296) {k : ℕ} (hk : k < n) :
    ∃ j < n, turn random n j = k := by
  obtain ⟨j, hj, hmod⟩ := exists_mod_eq random hk
  refine ⟨j, hj, ?_⟩
  rw [turn, Nat.mod_mod_of_dvd _ h, hmod]

/-- If the numbers wrap around in a list that does not divide them, a case is left out: the first
ones are tried twice instead. -/
theorem exists_left_out (hrandom : random < 4294967296) (hn : n < 4294967296)
    (hwraps : 4294967296 < random + n) (hdvd : ¬ n ∣ 4294967296) :
    ∃ k < n, ∀ j < n, turn random n j ≠ k := by
  have hpos : 0 < n := by omega
  obtain ⟨q, r, hq, hr⟩ : ∃ q r, 4294967296 = n * q + r ∧ r < n :=
    ⟨_, _, (Nat.div_add_mod _ n).symm, Nat.mod_lt _ hpos⟩
  have hrpos : 0 < r := by
    rcases Nat.eq_zero_or_pos r with rfl | hrpos
    · exact absurd ⟨q, hq⟩ hdvd
    · exact hrpos
  have hqpos : 0 < q := by
    rcases Nat.eq_zero_or_pos q with rfl | hqpos
    · rw [Nat.mul_zero] at hq
      omega
    · exact hqpos
  obtain ⟨a, ha⟩ : ∃ a, random + a = 4294967296 := ⟨_, Nat.add_sub_of_le hrandom.le⟩
  -- before the wrap, in the last `a` numbers
  have hbefore : ∀ j < a, turn random n j = r + j - a ∧ a ≤ r + j ∨
      turn random n j = n + r + j - a ∧ r + j < a := by
    intro j hj
    rw [turn, Nat.mod_eq_of_lt (show random + j < 4294967296 by omega)]
    by_cases hle : a ≤ r + j
    · refine .inl ⟨?_, hle⟩
      have hsum : random + j = (r + j - a) + n * q := by omega
      rw [hsum, Nat.add_mul_mod_self_left, Nat.mod_eq_of_lt (by omega)]
    · refine .inr ⟨?_, not_le.mp hle⟩
      obtain ⟨q', rfl⟩ := Nat.exists_eq_succ_of_ne_zero hqpos.ne'
      have hsum : random + j = (n + r + j - a) + n * q' := by
        rw [Nat.mul_succ] at hq
        omega
      rw [hsum, Nat.add_mul_mod_self_left, Nat.mod_eq_of_lt (by omega)]
  have hafter : ∀ j, a ≤ j → j < n → turn random n j = j - a := by
    intro j hle hj
    have hsum : random + j = (j - a) + 4294967296 := by omega
    rw [turn, hsum, Nat.add_mod_right, Nat.mod_eq_of_lt (by omega), Nat.mod_eq_of_lt (by omega)]
  by_cases har : a ≤ r
  · refine ⟨n - 1, by omega, fun j hj ↦ ?_⟩
    by_cases hja : j < a
    · obtain ⟨hturn, -⟩ | ⟨-, hlt⟩ := hbefore j hja
      · omega
      · omega
    · have hturn := hafter j (not_lt.mp hja) hj
      omega
  · refine ⟨max r (n - a), by omega, fun j hj ↦ ?_⟩
    by_cases hja : j < a
    · obtain ⟨hturn, hle⟩ | ⟨hturn, hlt⟩ := hbefore j hja
      · omega
      · omega
    · have hturn := hafter j (not_lt.mp hja) hj
      omega

/-! ## The loops -/

theorem getElem?_turn (hn : tries.length < 4294967296) (hpos : 0 < tries.length) (i j : UInt32) :
    ∃ f, tries[((i + j) % size tries).toNat]? = some f := by
  rw [toNat_turn hn]
  exact ⟨_, List.getElem?_eq_getElem (Nat.mod_lt _ hpos)⟩

/-- A case that succeeds whenever it is tried. -/
def Succeeds (f : Case σ) : Prop := ∀ s, (f s).1 = true

theorem toNat_succ {j : UInt32} (h : j.toNat + 1 < 4294967296) : (j + 1).toNat = j.toNat + 1 := by
  rw [UInt32.toNat_add]
  exact Nat.mod_eq_of_lt h

theorem tryOnceLoop_succeeds (hn : tries.length < 4294967296) {i : UInt32} {f : Case σ}
    (hf : Succeeds f) {k m : ℕ} {j : UInt32} (hjm : j.toNat ≤ m) (hmk : m < j.toNat + k)
    (hjk : j.toNat + k ≤ tries.length)
    (hm : tries[turn i.toNat tries.length m]? = some f) (s : σ) :
    ∃ s', tryOnceLoop others tries i k j s = some (true, s') := by
  induction k generalizing j s with
  | zero => omega
  | succ k ih =>
    obtain ⟨g, hg⟩ := getElem?_turn hn (by omega) i j
    rw [tryOnceLoop, hg, Option.bind_some]
    by_cases hok : (g (others k s)).1 = true
    · refine ⟨(g (others k s)).2, ?_⟩
      rw [if_pos hok, ← hok]
    · rw [if_neg hok]
      have hne : m ≠ j.toNat := by
        rintro rfl
        rw [toNat_turn hn, hm] at hg
        cases hg
        exact hok (hf _)
      have hsucc : (j + 1).toNat = j.toNat + 1 := toNat_succ (by omega)
      exact ih (by omega) (by omega) (by omega) _

theorem tryOnceLoop_fails (hn : tries.length < 4294967296) {i : UInt32} {k : ℕ} {j : UInt32}
    (hjk : j.toNat + k ≤ tries.length)
    (hfails : ∀ m, j.toNat ≤ m → m < j.toNat + k → ∀ f,
      tries[turn i.toNat tries.length m]? = some f → ∀ s, (f s).1 = false) (s : σ) :
    ∃ s', tryOnceLoop others tries i k j s = some (false, s') := by
  induction k generalizing j s with
  | zero => exact ⟨s, rfl⟩
  | succ k ih =>
    obtain ⟨g, hg⟩ := getElem?_turn hn (by omega) i j
    rw [tryOnceLoop, hg, Option.bind_some]
    rw [toNat_turn hn] at hg
    rw [if_neg (ne_true_of_eq_false (hfails _ le_rfl (by omega) g hg _))]
    have hsucc : (j + 1).toNat = j.toNat + 1 := by
      by_cases hk : k = 0
      · exact toNat_succ (by omega)
      · exact toNat_succ (by omega)
    exact ih (by omega) (fun m hle hlt ↦ hfails m (by omega) (by omega)) _

/-- The case in a round of `wait` is the one after the last, from case `a` on. -/
theorem waitLoop_succeeds (hn : tries.length < 4294967296) {f : Case σ} (hf : Succeeds f)
    {a k m : ℕ} {i : UInt32} (ha : ((i + 1) % size tries).toNat = a) (halt : a < tries.length)
    (hmk : m < k) (hm : tries[(a + m) % tries.length]? = some f) (s : σ) :
    ∃ s', waitLoop others tries k i s = some s' := by
  induction k generalizing a i m s with
  | zero => omega
  | succ k ih =>
    have hg := List.getElem?_eq_getElem halt
    rw [waitLoop, ha, hg, Option.bind_some]
    by_cases hok : (tries[a] (others k s)).1 = true
    · exact ⟨(tries[a] (others k s)).2, if_pos hok⟩
    · rw [if_neg hok]
      cases m with
      | zero =>
        rw [Nat.add_zero, Nat.mod_eq_of_lt halt, hg] at hm
        cases hm
        exact absurd (hf _) hok
      | succ m =>
        refine ih (a := (a + 1) % tries.length) (m := m) ?_
          (Nat.mod_lt _ (Nat.zero_lt_of_lt halt)) (by omega) ?_ _
        · rw [toNat_turn hn, ha]
          exact congrArg (· % tries.length) (Nat.mod_eq_of_lt (show a + 1 < 4294967296 by omega))
        · rw [Nat.mod_add_mod, ← hm]
          exact congrArg (fun b ↦ tries[b % tries.length]?) (by omega)

/-! ## Selects -/

theorem tryOnce_succeeds (hn : tries.length < 4294967296) {random : UInt32}
    (h : random.toNat + tries.length ≤ 4294967296 ∨ tries.length ∣ 4294967296)
    {f : Case σ} (hmem : f ∈ tries) (hf : Succeeds f) (s : σ) :
    ∃ s', tryOnce others tries random s = some (true, s') := by
  obtain ⟨k, hk, rfl⟩ := List.mem_iff_getElem.mp hmem
  obtain ⟨m, hm, hturn⟩ : ∃ m < tries.length, turn random.toNat tries.length m = k :=
    h.elim (fun hle ↦ exists_turn_of_le hle hk) fun hdvd ↦ exists_turn_of_dvd hdvd hk
  have hlen : (0 : UInt32).toNat + tries.length = tries.length := Nat.zero_add _
  refine tryOnceLoop_succeeds hn hf (Nat.zero_le m) (hm.trans_eq hlen.symm) hlen.le ?_ s
  rw [hturn]
  exact List.getElem?_eq_getElem hk

/-- The cases of which only number `k` succeeds. -/
def only (n k : ℕ) : List (Case Unit) := (List.range n).map fun m s ↦ (m = k, s)

theorem only_succeeds {k : ℕ} (hk : k < n) : ∃ f ∈ only n k, Succeeds f :=
  ⟨_, List.mem_map.mpr ⟨k, List.mem_range.mpr hk, rfl⟩, fun _ ↦ decide_eq_true rfl⟩

/-- **Which cases a select tries.** `try_once` tries all cases, so that it succeeds if one of them
does, if and only if the random number does not wrap around when it is counted up, or the number of
cases divides `2 ^ 32`. `wait` always comes to every case, within as many rounds as there are
cases. -/
theorem select_tries (n : ℕ) (hn : n < 4294967296) (random : UInt32) :
    ((∀ (σ : Type) (others : ℕ → σ → σ) (tries : List (Case σ)) (s : σ), tries.length = n →
        (∃ f ∈ tries, Succeeds f) → ∃ s', tryOnce others tries random s = some (true, s')) ↔
      random.toNat + n ≤ 4294967296 ∨ n ∣ 4294967296) ∧
    ∀ (σ : Type) (others : ℕ → σ → σ) (tries : List (Case σ)) (s : σ), tries.length = n →
      (∃ f ∈ tries, Succeeds f) → ∃ s', waitLoop others tries n random s = some s' := by
  refine ⟨⟨fun h ↦ ?_, ?_⟩, ?_⟩
  · by_contra hnot
    obtain ⟨hwraps, hdvd⟩ := not_or.mp hnot
    obtain ⟨k, hk, hleft⟩ :=
      exists_left_out random.toNat_lt hn (not_le.mp hwraps) hdvd
    have hlen : (only n k).length = n := (List.length_map _).trans List.length_range
    obtain ⟨s', hs'⟩ := h Unit (fun _ s ↦ s) (only n k) () hlen (only_succeeds hk)
    have hzero : (0 : UInt32).toNat + n = n := Nat.zero_add n
    obtain ⟨s₂, hs₂⟩ : ∃ s₂, tryOnceLoop (fun _ s ↦ s) (only n k) random n 0 () =
        some (false, s₂) := by
      refine tryOnceLoop_fails (hlen.trans_lt hn) (hzero.trans hlen.symm).le ?_ ()
      intro m _ hm f hf s
      rw [hlen, only, List.getElem?_map] at hf
      obtain ⟨a, ha, rfl⟩ := Option.map_eq_some_iff.mp hf
      obtain ⟨-, rfl⟩ := List.getElem?_eq_some_iff.mp ha
      rw [List.getElem_range]
      exact decide_eq_false (hleft m (hm.trans_eq hzero))
    rw [tryOnce, hlen, hs₂] at hs'
    cases hs'
  · rintro h σ others tries s rfl ⟨f, hmem, hf⟩
    exact tryOnce_succeeds hn h hmem hf s
  · rintro σ others tries s rfl ⟨f, hmem, hf⟩
    obtain ⟨k, hk, rfl⟩ := List.mem_iff_getElem.mp hmem
    have hpos : 0 < tries.length := Nat.zero_lt_of_lt hk
    have hturn := toNat_turn hn random 1
    obtain ⟨m, hm, hmod⟩ := exists_mod_eq (turn random.toNat tries.length (1 : UInt32).toNat) hk
    refine waitLoop_succeeds hn hf hturn (Nat.mod_lt _ hpos) hm ?_ s
    rw [hmod]
    exact List.getElem?_eq_getElem hk

/-- With three cases, the random number `4294967295` is one too large. -/
theorem select_tries_three :
    3 < 4294967296 ∧ ((∀ (σ : Type) (others : ℕ → σ → σ) (tries : List (Case σ)) (s : σ),
        tries.length = 3 → (∃ f ∈ tries, Succeeds f) →
          ∃ s', tryOnce others tries 4294967295 s = some (true, s')) ↔
      (4294967295 : UInt32).toNat + 3 ≤ 4294967296 ∨ 3 ∣ 4294967296) ∧
    ∀ (σ : Type) (others : ℕ → σ → σ) (tries : List (Case σ)) (s : σ), tries.length = 3 →
      (∃ f ∈ tries, Succeeds f) → ∃ s', waitLoop others tries 3 4294967295 s = some s' :=
  ⟨by decide, select_tries 3 (by decide) 4294967295⟩

end DuoFirmware.System.Select
