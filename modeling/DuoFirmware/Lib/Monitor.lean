import Mathlib.Tactic

/-!
# Monitors

Threads that share a state under a lock, and that wait on condition variables. While a thread has
the lock, nothing else runs; so what it does up to the release of the lock is one section. A section
ends with the thread going on, going to sleep on a condition variable until it tries the section
again, or having a notification to make without the lock.

A notification wakes one thread that is asleep on the condition variable, if there is one, and a
thread may also wake up without any. Nothing is lost in this way as long as every thread that could
go on is accounted for by one that is awake: this is what `Awake` says, and it has to be checked
for single sections only.
-/

namespace Monitor

variable {σ κ τ ι : Type}

/-- Where a thread is, with the section that comes next. -/
inductive Place (κ τ : Type) where
  | ready (t : τ)
  | asleep (c : κ) (t : τ)
  | notifying (c : κ) (t : τ)
  deriving DecidableEq, Repr

/-- The section that comes next. -/
def Place.point : Place κ τ → τ
  | ready t => t
  | asleep _ t => t
  | notifying _ t => t

/-- A thread that is asleep on a condition variable. -/
def Place.asleepOn [DecidableEq κ] (c : κ) : Place κ τ → Bool
  | asleep c' _ => c' = c
  | _ => false

/-- A shared state with the threads. -/
structure System (σ κ τ : Type) where
  shared : σ
  threads : List (Place κ τ)

/-- The sections of the threads. A section knows the number of its thread, and depends on an input
of its own. -/
abbrev Program (σ κ τ ι : Type) := ℕ → ι → τ → σ → σ × Place κ τ

inductive Action (ι : Type) where
  /-- Thread `i` gets the lock. -/
  | run (i : ℕ) (x : ι)
  /-- Thread `i` notifies thread `j`, or nobody if none is asleep. -/
  | notify (i : ℕ) (j : Option ℕ)
  /-- Thread `j` wakes up without a notification. -/
  | wake (j : ℕ)

namespace System

/-- The sections that come next, for all threads. -/
def points (s : System σ κ τ) : List τ := s.threads.map Place.point

variable [DecidableEq κ] (program : Program σ κ τ ι) (s : System σ κ τ)

/-- What an action leads to, if it is possible. -/
def act : Action ι → Option (System σ κ τ)
  | .run i x =>
    match s.threads[i]? with
    | some (.ready t) =>
      some ⟨(program i x t s.shared).1, s.threads.set i (program i x t s.shared).2⟩
    | _ => none
  | .notify i none =>
    match s.threads[i]? with
    | some (.notifying c t) =>
      if s.threads.any (·.asleepOn c) then none
      else some ⟨s.shared, s.threads.set i (.ready t)⟩
    | _ => none
  | .notify i (some j) =>
    match s.threads[i]?, s.threads[j]? with
    | some (.notifying c t), some (.asleep c' t') =>
      if c' = c then some ⟨s.shared, (s.threads.set i (.ready t)).set j (.ready t')⟩ else none
    | _, _ => none
  | .wake j =>
    match s.threads[j]? with
    | some (.asleep _ t) => some ⟨s.shared, s.threads.set j (.ready t)⟩
    | _ => none

/-- A run of actions that are all possible. -/
def run (s : System σ κ τ) : List (Action ι) → Option (System σ κ τ)
  | [] => some s
  | a :: as => (s.act program a).bind fun s' ↦ s'.run as

end System

/-! ## Actions -/

namespace System

section

variable {s : System σ κ τ} {i : ℕ} {p q : Place κ τ} {c : σ}

theorem points_getElem? (h : s.threads[i]? = some p) : s.points[i]? = some p.point := by
  rw [points, List.getElem?_map, h]
  rfl

theorem points_set :
    (⟨c, s.threads.set i p⟩ : System σ κ τ).points = s.points.set i p.point :=
  List.map_set

/-- A thread that wakes up, or that has made its notification, comes to the same section. -/
theorem points_set_self (h : s.threads[i]? = some p)
    (hq : q.point = p.point) :
    (⟨c, s.threads.set i q⟩ : System σ κ τ).points = s.points := by
  rw [points_set, hq]
  obtain ⟨hi, hp⟩ := List.getElem?_eq_some_iff.mp (points_getElem? h)
  rw [← hp]
  exact List.set_getElem_self hi

end

variable [DecidableEq κ] {program : Program σ κ τ ι} {s s' : System σ κ τ} {i j : ℕ} {x : ι}

theorem act_run_eq_some : s.act program (.run i x) = some s' ↔
    ∃ t, s.threads[i]? = some (.ready t) ∧
      s' = ⟨(program i x t s.shared).1, s.threads.set i (program i x t s.shared).2⟩ := by
  constructor
  · intro h
    rw [act] at h
    split at h
    · next t ht => exact ⟨t, ht, (Option.some.inj h).symm⟩
    · cases h
  · rintro ⟨t, ht, rfl⟩
    rw [act, ht]

theorem act_notify_none (h : s.act program (.notify i none) = some s') :
    ∃ c t, s.threads[i]? = some (.notifying c t) ∧ (∀ t', .asleep c t' ∉ s.threads) ∧
      s' = ⟨s.shared, s.threads.set i (.ready t)⟩ := by
  rw [act] at h
  split at h
  · next c t ht =>
    split at h
    · cases h
    · next hany =>
      refine ⟨c, t, ht, fun t' hmem ↦ hany ?_, (Option.some.inj h).symm⟩
      exact List.any_eq_true.mpr ⟨_, hmem, decide_eq_true rfl⟩
  · cases h

theorem act_notify_some (h : s.act program (.notify i (some j)) = some s') :
    ∃ c t t', s.threads[i]? = some (.notifying c t) ∧ s.threads[j]? = some (.asleep c t') ∧
      s' = ⟨s.shared, (s.threads.set i (.ready t)).set j (.ready t')⟩ := by
  rw [act] at h
  split at h
  · next c t c' t' hi hj =>
    split at h
    · next hc =>
      subst hc
      exact ⟨_, t, t', hi, hj, (Option.some.inj h).symm⟩
    · cases h
  · cases h

theorem act_wake (h : s.act program (.wake j) = some s') :
    ∃ c t, s.threads[j]? = some (.asleep c t) ∧
      s' = ⟨s.shared, s.threads.set j (.ready t)⟩ := by
  rw [act] at h
  split at h
  · next c t ht => exact ⟨c, t, ht, (Option.some.inj h).symm⟩
  · cases h

/-- An action is a section of a thread, or it leaves the state and the sections alone. -/
theorem act_cases {a : Action ι} (h : s.act program a = some s') :
    (∃ i x t, a = .run i x ∧ s.points[i]? = some t ∧ s'.shared = (program i x t s.shared).1 ∧
      s'.points = s.points.set i (program i x t s.shared).2.point) ∨
    s'.shared = s.shared ∧ s'.points = s.points := by
  cases a with
  | run i x =>
    obtain ⟨t, ht, rfl⟩ := act_run_eq_some.mp h
    exact .inl ⟨i, x, t, rfl, points_getElem? ht, rfl, points_set⟩
  | notify i j =>
    cases j with
    | none =>
      obtain ⟨c, t, ht, -, rfl⟩ := act_notify_none h
      exact .inr ⟨rfl, points_set_self ht rfl⟩
    | some j =>
      obtain ⟨c, t, t', hi, hj, rfl⟩ := act_notify_some h
      refine .inr ⟨rfl, ?_⟩
      have hne : i ≠ j := by
        rintro rfl
        cases hi.symm.trans hj
      have hj' : (s.threads.set i (.ready t))[j]? = some (.asleep c t') := by
        rw [List.getElem?_set_ne hne, hj]
      rw [points_set_self (s := ⟨s.shared, s.threads.set i (.ready t)⟩) (q := .ready t') hj' rfl]
      exact points_set_self hi rfl
  | wake j =>
    obtain ⟨c, t, ht, rfl⟩ := act_wake h
    exact .inr ⟨rfl, points_set_self ht rfl⟩

/-! ## Runs -/

theorem run_cons {a : Action ι} {as : List (Action ι)} (h : s.run program (a :: as) = some s') :
    ∃ s₁, s.act program a = some s₁ ∧ s₁.run program as = some s' :=
  Option.bind_eq_some_iff.mp h

theorem run_of_act {a : Action ι} {as : List (Action ι)} {u : System σ κ τ}
    (h : s.act program a = some u) : s.run program (a :: as) = u.run program as := by
  rw [run, h, Option.bind_some]

theorem run_append (as bs : List (Action ι)) :
    s.run program (as ++ bs) = (s.run program as).bind fun s₁ ↦ s₁.run program bs := by
  induction as generalizing s with
  | nil => rfl
  | cons a as ih =>
    rw [List.cons_append, run, run, Option.bind_assoc]
    exact Option.bind_congr fun s₁ _ ↦ ih

/-- What every action preserves holds throughout a run. -/
theorem run_preserves {P : System σ κ τ → Prop} {Q : Action ι → Prop}
    (hact : ∀ s s' a, Q a → P s → s.act program a = some s' → P s')
    {as : List (Action ι)} (has : ∀ a ∈ as, Q a) (h : P s) (hrun : s.run program as = some s') :
    P s' := by
  induction as generalizing s with
  | nil =>
    cases hrun
    exact h
  | cons a as ih =>
    obtain ⟨s₁, ha, hrest⟩ := run_cons hrun
    exact ih (fun b hb ↦ has b (List.mem_cons_of_mem a hb))
      (hact s s₁ a (has a List.mem_cons_self) h ha) hrest

/-- **Invariants.** What all sections preserve, of the state and of where the threads are, holds
throughout a run. -/
theorem run_invariant {P : σ → List τ → Prop} {Q : Action ι → Prop}
    (hstep : ∀ i x t c ts, Q (.run i x) → ts[i]? = some t → P c ts →
      P (program i x t c).1 (ts.set i (program i x t c).2.point))
    {as : List (Action ι)} (has : ∀ a ∈ as, Q a) (h : P s.shared s.points)
    (hrun : s.run program as = some s') : P s'.shared s'.points := by
  refine run_preserves (P := fun s ↦ P s.shared s.points) (fun s s' a ha hs hact ↦ ?_) has h hrun
  obtain ⟨i, x, t, rfl, ht, hshared, hpoints⟩ | ⟨hshared, hpoints⟩ := act_cases hact
  · rw [hshared, hpoints]
    exact hstep i x t s.shared s.points ha ht hs
  · rw [hshared, hpoints]
    exact hs

end System

/-! ## Wake-ups -/

/-- How wake-ups are accounted for. -/
structure Accounts (σ κ τ : Type) where
  /-- How many of the threads that wait on a condition variable may go on. -/
  need : κ → σ → ℕ
  /-- A section that looks at what is waited for on a condition variable. -/
  looks : κ → τ → Bool

namespace Accounts

variable [DecidableEq κ] (A : Accounts σ κ τ) {c : κ} {p : Place κ τ} {ts : List (Place κ τ)}
  {i : ℕ}

/-- What a thread counts for: it will look, or let another thread look. -/
def token (c : κ) : Place κ τ → ℕ
  | .ready t => (A.looks c t).toNat
  | .asleep _ _ => 0
  | .notifying c' t => (A.looks c t).toNat + if c' = c then 1 else 0

def tokens (c : κ) (ts : List (Place κ τ)) : ℕ := (ts.map (A.token c)).sum

/-- No thread is asleep that nobody is going to wake up although it may go on. -/
def Awake (s : System σ κ τ) : Prop :=
  ∀ c t, .asleep c t ∈ s.threads → A.looks c t = true ∧ A.need c s.shared ≤ A.tokens c s.threads

/-- A section leaves behind what the threads need that it lets go on. -/
structure Pays (t : τ) (c c' : σ) (p : Place κ τ) : Prop where
  sleeps : ∀ k t', p = .asleep k t' → A.looks k t' = true ∧ A.need k c' = 0
  pays : ∀ k, p.asleepOn k = false →
    A.need k c' + (A.looks k t).toNat ≤ A.need k c + A.token k p

theorem tokens_set (h : ts[i]? = some p) (q : Place κ τ) :
    A.tokens c (ts.set i q) + A.token c p = A.tokens c ts + A.token c q := by
  rw [tokens, tokens]
  induction ts generalizing i with
  | nil => cases h
  | cons a ts ih =>
    cases i with
    | zero =>
      cases h
      rw [List.set_cons_zero, List.map_cons, List.map_cons, List.sum_cons, List.sum_cons]
      omega
    | succ i =>
      have hi := ih h
      rw [List.set_cons_succ, List.map_cons, List.map_cons, List.sum_cons, List.sum_cons]
      omega

variable {A} {program : Program σ κ τ ι} {s s' : System σ κ τ} {x : ι} {t : τ}

theorem Awake.run (h : A.Awake s) (ht : s.threads[i]? = some (.ready t))
    (hpays : A.Pays t s.shared (program i x t s.shared).1 (program i x t s.shared).2) :
    A.Awake ⟨(program i x t s.shared).1, s.threads.set i (program i x t s.shared).2⟩ := by
  intro c t' hmem
  obtain ⟨hsleeps, hpays⟩ := hpays
  generalize (program i x t s.shared).1 = shared, (program i x t s.shared).2 = p at *
  by_cases hp : p.asleepOn c = true
  · -- the thread has found that it cannot go on
    obtain ⟨t₁, rfl⟩ : ∃ t₁, p = .asleep c t₁ := by
      cases p with
      | asleep c' t₁ => exact ⟨t₁, by rw [of_decide_eq_true hp]⟩
      | _ => cases hp
    obtain ⟨hlooks, hzero⟩ := hsleeps c t₁ rfl
    refine ⟨?_, hzero.le.trans (Nat.zero_le _)⟩
    rcases List.mem_or_eq_of_mem_set hmem with hold | heq
    · exact (h c t' hold).1
    · cases heq
      exact hlooks
  · rcases List.mem_or_eq_of_mem_set hmem with hold | heq
    · obtain ⟨hlooks, hneed⟩ := h c t' hold
      have hpay := hpays c (Bool.eq_false_iff.mpr hp)
      have htokens := A.tokens_set (c := c) ht p
      have hready : A.token c (.ready t) = (A.looks c t).toNat := rfl
      refine ⟨hlooks, ?_⟩
      dsimp only
      omega
    · subst heq
      exact absurd (decide_eq_true rfl) hp

/-- A thread that counts for as much as before may be anywhere else. -/
theorem Awake.set (h : A.Awake s) (ht : s.threads[i]? = some p) {q : Place κ τ}
    (hq : ∀ c t', q ≠ .asleep c t')
    (hle : ∀ c t', .asleep c t' ∈ s.threads → A.token c p ≤ A.token c q) :
    A.Awake ⟨s.shared, s.threads.set i q⟩ := by
  intro c t' hmem
  rcases List.mem_or_eq_of_mem_set hmem with hold | heq
  · obtain ⟨hlooks, hneed⟩ := h c t' hold
    have htokens := A.tokens_set (c := c) ht q
    have htoken := hle c t' hold
    refine ⟨hlooks, ?_⟩
    dsimp only
    omega
  · exact absurd heq.symm (hq c t')

theorem Awake.notify_none (h : A.Awake s) (hact : s.act program (.notify i none) = some s') :
    A.Awake s' := by
  obtain ⟨c, t, ht, hnobody, rfl⟩ := System.act_notify_none hact
  refine h.set ht (fun c t' ↦ nofun) fun c₁ t' hmem ↦ ?_
  have hne : c ≠ c₁ := by
    rintro rfl
    exact hnobody t' hmem
  rw [token, token, if_neg hne, Nat.add_zero]

theorem Awake.notify_some {j : ℕ} (h : A.Awake s)
    (hact : s.act program (.notify i (some j)) = some s') : A.Awake s' := by
  obtain ⟨c, t, t', hi, hj, rfl⟩ := System.act_notify_some hact
  have hne : i ≠ j := by
    rintro rfl
    cases hi.symm.trans hj
  have hj' : (s.threads.set i (.ready t))[j]? = some (.asleep c t') := by
    rw [List.getElem?_set_ne hne, hj]
  have hlooks := (h c t' (List.mem_of_getElem? hj)).1
  intro c₁ t₁ hmem
  rcases List.mem_or_eq_of_mem_set hmem with hmem | heq
  · rcases List.mem_or_eq_of_mem_set hmem with hold | heq
    · obtain ⟨hlooks₁, hneed⟩ := h c₁ t₁ hold
      have hfst := A.tokens_set (c := c₁) hi (.ready t)
      have hsnd := A.tokens_set (c := c₁) hj' (.ready t')
      -- what the notification counted for is now counted for the thread that was woken up
      have htoken : (if c = c₁ then 1 else 0) ≤ A.token c₁ (.ready t') := by
        split
        · next hc =>
          subst hc
          rw [token, hlooks]
          exact le_rfl
        · exact Nat.zero_le _
      have hfrom : A.token c₁ (.notifying c t) =
          A.token c₁ (.ready t) + if c = c₁ then 1 else 0 := rfl
      have hasleep : A.token c₁ (.asleep c t') = 0 := rfl
      refine ⟨hlooks₁, ?_⟩
      dsimp only
      omega
    · cases heq
  · cases heq

theorem Awake.wake {j : ℕ} (h : A.Awake s) (hact : s.act program (.wake j) = some s') :
    A.Awake s' := by
  obtain ⟨c, t, ht, rfl⟩ := System.act_wake hact
  exact h.set ht (fun c t' ↦ nofun) fun c₁ t' _ ↦ Nat.zero_le _

/-- **No lost wake-ups.** If all sections pay, by an invariant of the program, no thread is ever
asleep that nobody is going to wake up although it may go on. -/
theorem awake_of_run {P : σ → List τ → Prop} {Q : Action ι → Prop}
    (hstep : ∀ i x t c ts, Q (.run i x) → ts[i]? = some t → P c ts →
      P (program i x t c).1 (ts.set i (program i x t c).2.point))
    (hpays : ∀ i x t c ts, Q (.run i x) → ts[i]? = some t → P c ts →
      A.Pays t c (program i x t c).1 (program i x t c).2)
    {as : List (Action ι)} (has : ∀ a ∈ as, Q a) (h : P s.shared s.points) (hawake : A.Awake s)
    (hrun : s.run program as = some s') : A.Awake s' := by
  refine (System.run_preserves (P := fun s ↦ P s.shared s.points ∧ A.Awake s)
    (fun s s' a ha hs hact ↦ ⟨?_, ?_⟩) has ⟨h, hawake⟩ hrun).2
  · have hone : s.run program [a] = some s' := Option.bind_eq_some_iff.mpr ⟨s', hact, rfl⟩
    exact System.run_invariant hstep (List.forall_mem_singleton.mpr ha) hs.1 hone
  · cases a with
    | run i x =>
      obtain ⟨t, ht, rfl⟩ := System.act_run_eq_some.mp hact
      exact hs.2.run ht (hpays i x t s.shared s.points ha (System.points_getElem? ht) hs.1)
    | notify i j =>
      cases j with
      | none => exact hs.2.notify_none hact
      | some j => exact hs.2.notify_some hact
    | wake j => exact hs.2.wake hact

/-- When no thread looks, those that are asleep could not go on. -/
theorem Awake.need_eq_zero (h : A.Awake s) {c : κ} {t : τ} (hmem : .asleep c t ∈ s.threads)
    (hnobody : ∀ p ∈ s.threads, A.token c p = 0) : A.need c s.shared = 0 := by
  have htokens : A.tokens c s.threads = 0 := by
    refine List.sum_eq_zero fun n hn ↦ ?_
    obtain ⟨p, hp, rfl⟩ := List.mem_map.mp hn
    exact hnobody p hp
  exact Nat.le_zero.mp ((h c t hmem).2.trans_eq htokens)

end Accounts

end Monitor
