import DuoFirmware.NorFlash.Memory

/-!
# A program logic for flash programs that can lose power

A device carries out a bounded number of atomic operations (programming one byte, erasing one
range) and then refuses every further one: that is a power failure, after which the program may
go on running but nothing it does reaches the flash. A program is a state transformer over such a
device that may also fail to return.

## The judgement

`wpc m Q C mem` says of a run of `m` from the contents `mem` that

* if power lasts, `m` returns some `a` after `n` operations with contents satisfying `Q a n`;
* if power fails, that is after exactly `b` operations, the contents left behind satisfy `C b`.

The operation counts are what a statement about a *particular* cut needs; the rules for sequencing
add them up. A run that returns exactly when its power is used up counts as a failed one: nothing
distinguishes it from a failure just before the next operation, so `C` has to cover it.

## Frozen programs

Sequencing needs one more fact, that a program started on a dead device changes nothing. It is a
property of how programs are built, not of any particular run, and is proved once per program.
-/

namespace NorFlash

/-- A device: its contents, and how many atomic operations it still carries out. `none` stands
for power that does not fail. -/
structure Device where
  /-- The bytes of the device. -/
  memory : Memory
  /-- The operations left before power fails. -/
  writeCount : Option ℕ

/-- A flash program. It returns `none` when it runs forever; the device is what it was when the
program stopped touching it. -/
def FlashM (α : Type) : Type := Device → Option α × Device

namespace FlashM

variable {α β : Type}

instance : Monad FlashM where
  pure a := fun d ↦ (some a, d)
  bind m f := fun d ↦
    match m d with
    | (some a, d') => f a d'
    | (none, d') => (none, d')

theorem bind_apply_some {m : FlashM α} {f : α → FlashM β} {d d' : Device} {a : α}
    (h : m d = (some a, d')) : (m >>= f) d = f a d' := by
  change (match m d with | (some a, d') => f a d' | (none, d') => (none, d')) = _
  rw [h]

theorem bind_apply_none {m : FlashM α} {f : α → FlashM β} {d d' : Device}
    (h : m d = (none, d')) : (m >>= f) d = (none, d') := by
  change (match m d with | (some a, d') => f a d' | (none, d') => (none, d')) = _
  rw [h]

/-! ## Primitives -/

/-- Run forever. -/
def hang : FlashM α := fun d ↦ (none, d)

/-- Look at the contents. -/
def look (f : Memory → α) : FlashM α := fun d ↦ (some (f d.memory), d)

/-- One atomic operation; the result says whether it was carried out. -/
def step (f : Memory → Memory) : FlashM Bool := fun d ↦
  if d.writeCount = some 0 then (some false, d)
  else (some true, ⟨f d.memory, d.writeCount.map (· - 1)⟩)

/-- Program one byte. -/
def programByte (a : ℕ) (b : UInt8) : FlashM Bool := step fun mem ↦ mem.program a [b]

/-- Erase a range. -/
def eraseRange (lo hi : ℕ) : FlashM Bool := step fun mem ↦ mem.erase lo hi

/-- Program `bs` from address `a` on, byte by byte, giving up when power fails. -/
def programBytes (a : ℕ) : List UInt8 → FlashM Bool
  | [] => pure true
  | b :: bs => do
    if ← programByte a b then programBytes (a + 1) bs else pure false

/-- Short-circuit conjunction: the program runs only if the flag is set. -/
def andThen (success : Bool) (m : FlashM Bool) : FlashM Bool :=
  if success then m else pure false

/-! ## Frozen programs -/

/-- On a dead device the program changes nothing. -/
def Frozen (m : FlashM α) : Prop := ∀ d : Device, d.writeCount = some 0 → (m d).2 = d

theorem frozen_pure (a : α) : Frozen (pure a : FlashM α) := fun _ _ ↦ rfl

theorem frozen_hang : Frozen (hang : FlashM α) := fun _ _ ↦ rfl

theorem frozen_look (f : Memory → α) : Frozen (look f) := fun _ _ ↦ rfl

theorem frozen_step (f : Memory → Memory) : Frozen (step f) := by
  intro d hd
  rw [step, if_pos hd]

theorem Frozen.bind {m : FlashM α} {f : α → FlashM β} (hm : Frozen m)
    (hf : ∀ a, Frozen (f a)) : Frozen (m >>= f) := by
  intro d hd
  have h2 := hm d hd
  rcases hr : m d with ⟨_ | a, d'⟩
  · rw [bind_apply_none hr]
    simpa [hr] using h2
  · rw [bind_apply_some hr]
    rw [hr] at h2
    subst h2
    exact hf a _ hd

theorem Frozen.ite {c : Prop} [Decidable c] {m m' : FlashM α} (hm : Frozen m)
    (hm' : Frozen m') : Frozen (if c then m else m') := by
  by_cases hc : c
  · rwa [if_pos hc]
  · rwa [if_neg hc]

theorem frozen_programBytes (a : ℕ) (bs : List UInt8) : Frozen (programBytes a bs) := by
  induction bs generalizing a with
  | nil => exact frozen_pure _
  | cons b bs ih =>
    exact (frozen_step _).bind fun _ ↦ .ite (ih _) (frozen_pure _)

theorem Frozen.andThen {m : FlashM Bool} (hm : Frozen m) (success : Bool) :
    Frozen (andThen success m) := .ite hm (frozen_pure _)

/-! ## The judgement -/

/-- The weakest precondition with a crash condition: see the head of the file. -/
def wpc (m : FlashM α) (Q : α → ℕ → Memory → Prop) (C : ℕ → Memory → Prop) (mem : Memory) :
    Prop :=
  ∀ w : Option ℕ, w ≠ some 0 →
    (∃ a n mem', m ⟨mem, w⟩ = (some a, ⟨mem', w.map (· - n)⟩) ∧ (∀ b, w = some b → n < b) ∧
      Q a n mem') ∨
    ∃ b mem', w = some b ∧ (m ⟨mem, w⟩).2 = ⟨mem', some 0⟩ ∧ C b mem'

variable {m : FlashM α} {Q Q' : α → ℕ → Memory → Prop} {C C' : ℕ → Memory → Prop} {mem : Memory}

theorem wpc_mono (h : wpc m Q C mem) (hQ : ∀ a n mem', Q a n mem' → Q' a n mem')
    (hC : ∀ b mem', C b mem' → C' b mem') : wpc m Q' C' mem := by
  intro w hw
  rcases h w hw with ⟨a, n, mem', h1, h2, h3⟩ | ⟨b, mem', h1, h2, h3⟩
  · exact Or.inl ⟨a, n, mem', h1, h2, hQ _ _ _ h3⟩
  · exact Or.inr ⟨b, mem', h1, h2, hC _ _ h3⟩

theorem wpc_congr {m' : FlashM α} (heq : ∀ w, m ⟨mem, w⟩ = m' ⟨mem, w⟩)
    (h : wpc m' Q C mem) : wpc m Q C mem := by
  intro w hw
  rw [heq]
  exact h w hw

theorem wpc_pure {a : α} (h : Q a 0 mem) : wpc (pure a) Q C mem := by
  intro w hw
  refine Or.inl ⟨a, 0, mem, ?_, ?_, h⟩
  · cases w <;> rfl
  · rintro b rfl
    exact Nat.pos_of_ne_zero fun hb ↦ hw (by rw [hb])

theorem wpc_look {f : Memory → α} (h : Q (f mem) 0 mem) : wpc (look f) Q C mem :=
  wpc_pure (a := f mem) h

theorem wpc_step {f : Memory → Memory} {Q : Bool → ℕ → Memory → Prop}
    (hQ : Q true 1 (f mem)) (hC : C 1 (f mem)) : wpc (step f) Q C mem := by
  intro w hw
  rcases w with _ | b
  · exact Or.inl ⟨true, 1, f mem, rfl, by simp, hQ⟩
  · have hstep : step f ⟨mem, some b⟩ = (some true, ⟨f mem, some (b - 1)⟩) := if_neg hw
    by_cases hb : b = 1
    · subst hb
      exact Or.inr ⟨1, f mem, rfl, by rw [hstep], hC⟩
    · have hb0 : b ≠ 0 := fun h ↦ hw (by rw [h])
      refine Or.inl ⟨true, 1, f mem, hstep, ?_, hQ⟩
      rintro b' hb'
      obtain rfl : b = b' := by simpa using hb'
      omega

/-- Sequencing: the counts of the second program start where the first one stopped. -/
theorem wpc_bind {f : α → FlashM β} {Q : β → ℕ → Memory → Prop} (hf : ∀ a, Frozen (f a))
    (h : wpc m (fun a n ↦ wpc (f a) (fun b k ↦ Q b (n + k)) fun k ↦ C (n + k)) C mem) :
    wpc (m >>= f) Q C mem := by
  intro w hw
  rcases h w hw with ⟨a, n, mem₁, h1, h2, h3⟩ | ⟨b, mem₁, rfl, h2, h3⟩
  · have hw' : w.map (· - n) ≠ some 0 := by
      rcases w with _ | b
      · simp
      · have := h2 b rfl
        simp only [Option.map_some, ne_eq, Option.some.injEq]
        omega
    rw [bind_apply_some h1]
    rcases h3 _ hw' with ⟨b, k, mem₂, g1, g2, g3⟩ | ⟨k, mem₂, g1, g2, g3⟩
    · refine Or.inl ⟨b, n + k, mem₂, ?_, ?_, g3⟩
      · rw [g1, Option.map_map]
        congr 3
        funext x
        exact Nat.sub_sub x n k
      · rintro c rfl
        have := h2 c rfl
        have := g2 (c - n) rfl
        omega
    · rcases w with _ | c
      · simp at g1
      · have := h2 c rfl
        have hc : c = n + k := by
          simp only [Option.map_some, Option.some.injEq] at g1
          omega
        exact Or.inr ⟨c, mem₂, rfl, g2, hc ▸ g3⟩
  · refine Or.inr ⟨b, mem₁, rfl, ?_, h3⟩
    rcases hr : m ⟨mem, some b⟩ with ⟨_ | a, d⟩
    · rw [bind_apply_none hr]
      simpa [hr] using h2
    · obtain rfl : d = ⟨mem₁, some 0⟩ := by simpa [hr] using h2
      rw [bind_apply_some hr, hf a _ rfl]

/-- Looking at the contents costs nothing. -/
theorem wpc_look_bind {g : Memory → α} {f : α → FlashM β} {Q : β → ℕ → Memory → Prop}
    (h : wpc (f (g mem)) Q C mem) : wpc (look g >>= f) Q C mem := h

theorem wpc_andThen_true {m : FlashM Bool} {Q : Bool → ℕ → Memory → Prop} (h : wpc m Q C mem) :
    wpc (andThen true m) Q C mem := h

theorem wpc_programBytes {a : ℕ} {bs : List UInt8} {Q : Bool → ℕ → Memory → Prop}
    (hQ : Q true bs.length (mem.program a bs))
    (hC : ∀ k, 1 ≤ k → k ≤ bs.length → C k (mem.program a (bs.take k))) :
    wpc (programBytes a bs) Q C mem := by
  induction bs generalizing a mem Q C with
  | nil => exact wpc_pure (by simpa using hQ)
  | cons b bs ih =>
    have hcons : ∀ cs, mem.program a (b :: cs) = (mem.program a [b]).program (a + 1) cs :=
      mem.program_cons a b
    refine wpc_bind (fun _ ↦ .ite (frozen_programBytes _ _) (frozen_pure _)) (wpc_step ?_ ?_)
    · refine ih ?_ fun k hk1 hk2 ↦ ?_
      · rw [← hcons]
        simpa [Nat.add_comm] using hQ
      · have := hC (1 + k) (by omega) (by simp only [List.length_cons]; omega)
        rwa [Nat.add_comm 1 k, List.take_succ_cons, hcons, Nat.add_comm k 1] at this
    · exact hC 1 le_rfl (by simp)

/-! ## Frames -/

/-- Wherever the program stops, a range is what it was. -/
def Leaves (lo hi : ℕ) (m : FlashM α) : Prop :=
  ∀ d : Device, ∀ x, lo ≤ x → x < hi → (m d).2.memory x = d.memory x

section

variable {lo hi : ℕ}

theorem leaves_pure (a : α) : Leaves lo hi (pure a : FlashM α) := fun _ _ _ _ ↦ rfl

theorem leaves_look (f : Memory → α) : Leaves lo hi (look f) := fun _ _ _ _ ↦ rfl

theorem leaves_step {f : Memory → Memory} (hf : ∀ mem x, lo ≤ x → x < hi → f mem x = mem x) :
    Leaves lo hi (step f) := by
  intro d x h1 h2
  rw [step]
  split
  · rfl
  · exact hf d.memory x h1 h2

theorem Leaves.bind {m : FlashM α} {f : α → FlashM β} (hm : Leaves lo hi m)
    (hf : ∀ a, Leaves lo hi (f a)) : Leaves lo hi (m >>= f) := by
  intro d x h1 h2
  have hd := hm d x h1 h2
  rcases hr : m d with ⟨_ | a, d'⟩
  · rw [bind_apply_none hr]
    simpa [hr] using hd
  · rw [bind_apply_some hr, hf a d' x h1 h2]
    simpa [hr] using hd

theorem Leaves.ite {c : Prop} [Decidable c] {m m' : FlashM α} (hm : Leaves lo hi m)
    (hm' : Leaves lo hi m') : Leaves lo hi (if c then m else m') := by
  split
  · exact hm
  · exact hm'

theorem leaves_programBytes {a : ℕ} {bs : List UInt8} (h : a + bs.length ≤ lo ∨ hi ≤ a) :
    Leaves lo hi (programBytes a bs) := by
  induction bs generalizing a with
  | nil => exact leaves_pure _
  | cons b bs ih =>
    rw [List.length_cons] at h
    refine (leaves_step fun mem x h1 h2 ↦ ?_).bind fun _ ↦ .ite (ih (by omega)) (leaves_pure _)
    exact Memory.program_apply_of_not_mem (by rw [List.length_singleton]; omega)

/-- A judgement, with the range that the program leaves. -/
theorem wpc.leaves (h : wpc m Q C mem) (hm : Leaves lo hi m) :
    wpc m (fun a n mem' ↦ Q a n mem' ∧ ∀ x, lo ≤ x → x < hi → mem' x = mem x)
      (fun n mem' ↦ C n mem' ∧ ∀ x, lo ≤ x → x < hi → mem' x = mem x) mem := by
  intro w hw
  have hkept := hm ⟨mem, w⟩
  rcases h w hw with ⟨a, n, mem', h1, h2, h3⟩ | ⟨b, mem', h1, h2, h3⟩
  · rw [h1] at hkept
    exact Or.inl ⟨a, n, mem', h1, h2, h3, hkept⟩
  · rw [h2] at hkept
    exact Or.inr ⟨b, mem', h1, h2, h3, hkept⟩

end

/-! ## Reading a judgement -/

/-- Run a program while power lasts. -/
def complete (m : FlashM α) (mem : Memory) : Option (α × Memory) :=
  (m ⟨mem, none⟩).1.map fun a ↦ (a, (m ⟨mem, none⟩).2.memory)

/-- What is left when power fails after `n` operations. -/
def cutAfter (m : FlashM α) (n : ℕ) (mem : Memory) : Memory := (m ⟨mem, some n⟩).2.memory

theorem complete_look_bind (g : Memory → α) (f : α → FlashM β) (mem : Memory) :
    complete (look g >>= f) mem = complete (f (g mem)) mem := rfl

theorem complete_look_bind_bind {γ : Type} (g : Memory → α) (f : α → FlashM β) (k : β → FlashM γ)
    (mem : Memory) : complete (look g >>= f >>= k) mem = complete (f (g mem) >>= k) mem := rfl

theorem cutAfter_look_bind (g : Memory → α) (f : α → FlashM β) (n : ℕ) (mem : Memory) :
    cutAfter (look g >>= f) n mem = cutAfter (f (g mem)) n mem := rfl

/-- What runs after the cut does not matter. -/
theorem cutAfter_bind {m : FlashM α} {f : α → FlashM β} {n : ℕ} {mem : Memory}
    (hf : ∀ a, Frozen (f a)) (h : (m ⟨mem, some n⟩).2.writeCount = some 0) :
    cutAfter (m >>= f) n mem = cutAfter m n mem := by
  rw [cutAfter, cutAfter]
  rcases hr : m ⟨mem, some n⟩ with ⟨_ | a, d⟩
  · rw [bind_apply_none hr]
  · rw [hr] at h
    rw [bind_apply_some hr, hf a d h]

/-- Uncut, the program returns. -/
theorem wpc.run (h : wpc m Q C mem) :
    ∃ a n mem', m ⟨mem, none⟩ = (some a, ⟨mem', none⟩) ∧ Q a n mem' := by
  rcases h none (by simp) with ⟨a, n, mem', h1, -, h3⟩ | ⟨b, mem', h1, -, -⟩
  · exact ⟨a, n, mem', h1, h3⟩
  · simp at h1

theorem wpc.complete (h : wpc m Q C mem) :
    ∃ a n mem', complete m mem = some (a, mem') ∧ Q a n mem' := by
  obtain ⟨a, n, mem', hrun, hQ⟩ := h.run
  exact ⟨a, n, mem', by rw [FlashM.complete, hrun]; rfl, hQ⟩

/-- Cut after `n` operations, the contents are the old ones, or those of a program that returned
in time, or those of a program caught at its `n`-th operation. -/
theorem wpc.cut (h : wpc m Q C mem) (hm : Frozen m) (n : ℕ) :
    (n = 0 ∧ cutAfter m n mem = mem) ∨ (∃ a k, k < n ∧ Q a k (cutAfter m n mem)) ∨
      (n ≠ 0 ∧ C n (cutAfter m n mem)) := by
  by_cases hn : n = 0
  · subst hn
    exact Or.inl ⟨rfl, by rw [cutAfter, hm _ rfl]⟩
  · rcases h (some n) (by simpa using hn) with ⟨a, k, mem', h1, h2, h3⟩ | ⟨b, mem', h1, h2, h3⟩
    · exact Or.inr (Or.inl ⟨a, k, h2 n rfl, by rwa [cutAfter, h1]⟩)
    · obtain rfl : n = b := by simpa using h1
      exact Or.inr (Or.inr ⟨hn, by rwa [cutAfter, h2]⟩)

/-! ## Runs by their operations

Where a particular run is followed, two facts compose by addition of the operations: that a
program returns, with any power that lasts long enough, and what it leaves when power fails after
a given operation.
-/

/-- With power for `n` operations or more, the program carries out `n` and returns `a`. -/
def Runs (m : FlashM α) (mem : Memory) (a : α) (n : ℕ) (mem' : Memory) : Prop :=
  ∀ w : Option ℕ, (∀ b, w = some b → n ≤ b) → m ⟨mem, w⟩ = (some a, ⟨mem', w.map (· - n)⟩)

/-- With power for `n` operations, the program uses it up. -/
def Stops (m : FlashM α) (mem : Memory) (n : ℕ) (mem' : Memory) : Prop :=
  (m ⟨mem, some n⟩).2 = ⟨mem', some 0⟩

theorem runs_pure (a : α) (mem : Memory) : Runs (pure a) mem a 0 mem := by
  intro w _
  cases w <;> rfl

theorem runs_step (f : Memory → Memory) (mem : Memory) : Runs (step f) mem true 1 (f mem) := by
  intro w hw
  refine if_neg ?_
  rintro rfl
  exact absurd (hw 0 rfl) (by omega)

section

variable {a : α} {f : α → FlashM β} {b : β} {n k : ℕ} {mem' mem'' : Memory}

theorem Runs.congr {m' : FlashM α} (h : Runs m' mem a n mem')
    (heq : ∀ w, m ⟨mem, w⟩ = m' ⟨mem, w⟩) : Runs m mem a n mem' :=
  fun w hw ↦ (heq w).trans (h w hw)

theorem Runs.bind (h : Runs m mem a n mem') (h' : Runs (f a) mem' b k mem'') :
    Runs (m >>= f) mem b (n + k) mem'' := by
  intro w hw
  have hn : ∀ c, w = some c → n ≤ c := fun c hc ↦ (Nat.le_add_right n k).trans (hw c hc)
  rw [bind_apply_some (h w hn), h' (w.map (· - n)) ?_, Option.map_map]
  · congr 3
    funext x
    exact Nat.sub_sub x n k
  · intro c hc
    obtain ⟨c', hc', rfl⟩ := Option.map_eq_some_iff.mp hc
    have := hw c' hc'
    omega

theorem runs_look_bind {g : Memory → α} (h : Runs (f (g mem)) mem b n mem') :
    Runs (look g >>= f) mem b n mem' := h

theorem runs_programBytes (mem : Memory) (x : ℕ) (bs : List UInt8) :
    Runs (programBytes x bs) mem true bs.length (mem.program x bs) := by
  induction bs generalizing x mem with
  | nil =>
    rw [Memory.program_nil]
    exact runs_pure true mem
  | cons c bs ih =>
    rw [Memory.program_cons, List.length_cons, Nat.add_comm]
    refine (runs_step _ mem).bind ?_
    exact ih (mem.program x [c]) (x + 1)

theorem Runs.complete_eq (h : Runs m mem a n mem') : complete m mem = some (a, mem') := by
  rw [complete, h none (by simp)]
  rfl

theorem Runs.stops (h : Runs m mem a n mem') : Stops m mem n mem' := by
  rw [Stops, h (some n) (by simp)]
  simp

theorem Stops.bind (h : Stops m mem n mem') (hf : ∀ a, Frozen (f a)) :
    Stops (m >>= f) mem n mem' := by
  rw [Stops] at h ⊢
  rcases hr : m ⟨mem, some n⟩ with ⟨_ | a, d⟩
  · rw [bind_apply_none hr]
    simpa [hr] using h
  · obtain rfl : d = ⟨mem', some 0⟩ := by simpa [hr] using h
    rw [bind_apply_some hr, hf a _ rfl]

theorem Runs.stops_bind (h : Runs m mem a n mem') (h' : Stops (f a) mem' k mem'') :
    Stops (m >>= f) mem (n + k) mem'' := by
  rw [Stops, bind_apply_some (h (some (n + k)) (by simp))]
  simpa [Stops] using h'

theorem stops_look_bind {g : Memory → α} (h : Stops (f (g mem)) mem n mem') :
    Stops (look g >>= f) mem n mem' := h

/-- Power that fails between two bytes leaves the first ones programmed. -/
theorem stops_programBytes {mem : Memory} {x k : ℕ} {bs : List UInt8} (hk : k ≤ bs.length) :
    Stops (programBytes x bs) mem k (mem.program x (bs.take k)) := by
  induction bs generalizing x k mem with
  | nil =>
    obtain rfl := Nat.le_zero.mp hk
    exact congrArg (Device.mk · (some 0)) (mem.program_nil x).symm
  | cons c bs ih =>
    cases k with
    | zero =>
      rw [List.take_zero, Memory.program_nil]
      exact frozen_programBytes x (c :: bs) ⟨mem, some 0⟩ rfl
    | succ k =>
      rw [List.take_succ_cons, Memory.program_cons, Nat.add_comm]
      exact (runs_step (fun mem ↦ mem.program x [c]) mem).stops_bind
        (ih (Nat.le_of_succ_le_succ hk))

end

end FlashM

end NorFlash
