import DuoFirmware.Services.CompletionHandler

/-!
# What the containers do to their handlers

`Pending` is a container as a list of handlers, without a vector and its memory. Each function of
the containers is described on it, as a function of the handlers: a loop that removes elements while
it goes on is a filter, and the nearest expiration time that it computes is a fold. `Shows` relates
a container to its list; every function of a container runs without failing, and keeps the relation.
-/

namespace DuoFirmware.Services

open ObjectMemory Wiring

variable {K : Type}

/-- A container as a list. -/
structure Pending (K : Type) where
  handlers : List (Handler K)
  timeoutTicks : UInt32
  ticks : UInt32

namespace Pending

open Handlers

/-- The invocations of some handlers, in order. -/
def invokeAll (hs : List (Handler K)) (error : ℤ) (arg : Option Ptr) : List Invocation :=
  hs.flatMap fun h ↦ h.handler.invoke error arg

@[simp] theorem invokeAll_nil (error : ℤ) (arg : Option Ptr) :
    invokeAll ([] : List (Handler K)) error arg = [] := rfl

theorem invokeAll_cons (h : Handler K) (hs : List (Handler K)) (error : ℤ) (arg : Option Ptr) :
    invokeAll (h :: hs) error arg = h.handler.invoke error arg ++ invokeAll hs error arg := rfl

/-- The nearest expiration time of some handlers. -/
def nearest (hs : List (Handler K)) : UInt32 :=
  hs.foldl (fun t h ↦ nearer h.ticks t) maxTimeout

def empty : Pending K := ⟨[], maxTimeout, 0⟩

variable (p : Pending K)

/-- `addHandler`; `ok` says whether the vector has got room. -/
def addHandler (ok : Bool) (key : K) (handler : CompletionHandler) (timeout : UInt32) :
    Bool × Pending K × List Invocation :=
  if handler.isSet then
    if ok then
      (true, ⟨p.handlers ++ [⟨key, handler, p.ticks + timeout⟩],
        nearer (p.ticks + timeout) p.timeoutTicks, p.ticks⟩, [])
    else (false, p, handler.delete)
  else (false, p, [])

/-- The handlers that expire by a time. -/
def due (hs : List (Handler K)) (now : UInt32) : List (Handler K) := hs.filter fun h ↦ now ≥ h.ticks

/-- The handlers that do not, relative to that time. -/
def rebased (hs : List (Handler K)) (now : UInt32) : List (Handler K) :=
  (hs.filter fun h ↦ ¬ now ≥ h.ticks).map fun h ↦ { h with ticks := h.ticks - now }

section

variable {b : Handler K} {now : UInt32} (hs : List (Handler K))

theorem due_cons_of_le (h : now ≥ b.ticks) : due (b :: hs) now = b :: due hs now :=
  List.filter_cons_of_pos (decide_eq_true h)

theorem due_cons_of_lt (h : ¬ now ≥ b.ticks) : due (b :: hs) now = due hs now :=
  List.filter_cons_of_neg (mt of_decide_eq_true h)

theorem rebased_cons_of_le (h : now ≥ b.ticks) : rebased (b :: hs) now = rebased hs now := by
  rw [rebased, rebased, List.filter_cons_of_neg (by simpa using h)]

theorem rebased_cons_of_lt (h : ¬ now ≥ b.ticks) :
    rebased (b :: hs) now = { b with ticks := b.ticks - now } :: rebased hs now := by
  rw [rebased, rebased, List.filter_cons_of_pos (by simpa using h), List.map_cons]

end

def update (ticks : UInt32) : ℕ × Pending K × List Invocation :=
  if p.handlers = [] then (0, p, [])
  else if p.ticks + ticks ≥ p.timeoutTicks then
    ((due p.handlers (p.ticks + ticks)).length,
      ⟨rebased p.handlers (p.ticks + ticks), nearest (rebased p.handlers (p.ticks + ticks)), 0⟩,
      invokeAll (due p.handlers (p.ticks + ticks)) SystemError.timeout none)
  else (0, { p with ticks := p.ticks + ticks }, [])

variable [DecidableEq K]

/-- The handlers with a key. -/
def withKey (hs : List (Handler K)) (key : K) : List (Handler K) := hs.filter fun h ↦ h.key = key

/-- The handlers with another key. -/
def withoutKey (hs : List (Handler K)) (key : K) : List (Handler K) :=
  hs.filter fun h ↦ ¬ h.key = key

section

variable {b : Handler K} {key : K} (hs : List (Handler K))

theorem withKey_cons_of_eq (h : b.key = key) : withKey (b :: hs) key = b :: withKey hs key :=
  List.filter_cons_of_pos (decide_eq_true h)

theorem withKey_cons_of_ne (h : b.key ≠ key) : withKey (b :: hs) key = withKey hs key :=
  List.filter_cons_of_neg (mt of_decide_eq_true h)

theorem withoutKey_cons_of_eq (h : b.key = key) : withoutKey (b :: hs) key = withoutKey hs key :=
  List.filter_cons_of_neg (by simpa using h)

theorem withoutKey_cons_of_ne (h : b.key ≠ key) :
    withoutKey (b :: hs) key = b :: withoutKey hs key :=
  List.filter_cons_of_pos (decide_eq_true h)

end

/-- `takeHandler`: the last handler with the key is taken, the ones before it are invoked. -/
def takeHandler (key : K) : CompletionHandler × Pending K × List Invocation :=
  (((withKey p.handlers key).getLast?.map Handler.handler).getD .new,
    ⟨withoutKey p.handlers key, nearest (withoutKey p.handlers key),
      if withKey p.handlers key ≠ [] ∧ withoutKey p.handlers key = [] then 0 else p.ticks⟩,
    invokeAll (withKey p.handlers key).dropLast SystemError.internal none)

/-- The handlers are those with the key and those without. -/
theorem eq_nil_of_withKey {hs : List (Handler K)} {key : K} (h : withKey hs key = [])
    (h' : withoutKey hs key = []) : hs = [] := by
  rw [withKey, List.filter_eq_nil_iff] at h
  rw [withoutKey, List.filter_eq_nil_iff] at h'
  apply List.eq_nil_iff_forall_not_mem.mpr
  intro a ha
  have h1 := h a ha
  have h2 := h' a ha
  simp only [decide_eq_true_eq, not_not] at h1 h2
  exact h1 h2

end Pending

/-! ## Containers and lists -/

/-- The container in the memory has the handlers of the list. -/
structure Shows (c : Handlers) (mem : Memory (Handler K) Invocation) (p : Pending K) : Prop where
  elements : c.handlers.Elements mem p.handlers
  timeoutTicks : c.timeoutTicks = p.timeoutTicks
  ticks : c.ticks = p.ticks

namespace Handlers

open Pending

variable {c : Handlers} {v : Wiring.Vector} {mem : Memory (Handler K) Invocation} {p : Pending K}
  {as bs : List (Handler K)}

theorem shows_new : Shows new (⟨fun _ ↦ none, []⟩ : Memory (Handler K) Invocation) .empty :=
  ⟨Vector.elements_new, rfl, rfl⟩

theorem emit_eq (es : List Invocation) :
    (emit es : HandlerM K Unit) mem = some ((), ⟨mem.slots, mem.log ++ es⟩) := rfl

/-- Logging leaves the elements alone. -/
theorem elements_emit (h : v.Elements mem as) (es : List Invocation) :
    v.Elements (⟨mem.slots, mem.log ++ es⟩ : Memory (Handler K) Invocation) as :=
  ⟨h.slots, h.size, h.fits⟩

theorem addHandler_spec (h : Shows c mem p) (block : Option ℕ) (key : K)
    (handler : CompletionHandler) (timeout : UInt32) : ∃ ok c' mem',
      c.addHandler block key handler timeout mem =
        some (((p.addHandler ok key handler timeout).1, c'), mem') ∧
      Shows c' mem' (p.addHandler ok key handler timeout).2.1 ∧
      mem'.log = mem.log ++ (p.addHandler ok key handler timeout).2.2 ∧
      (c.handlers.size + 1 ≤ c.handlers.capacity →
        ok = true ∧ c'.handlers.capacity = c.handlers.capacity) := by
  rw [addHandler]
  cases hset : handler.isSet with
  | false =>
    refine ⟨true, c, mem, ?_, ?_, ?_, fun _ ↦ ⟨rfl, rfl⟩⟩ <;> rw [Pending.addHandler, hset]
    · rfl
    · exact h
    · exact (List.append_nil _).symm
  | true =>
    obtain ⟨ok, v', mem', hrun, helements, hlog, hkeep⟩ :=
      Vector.append_spec Handler.quiet block h.elements ⟨key, handler, c.ticks + timeout⟩
    simp only [if_true]
    rw [run_bind hrun]
    cases ok with
    | false =>
      refine ⟨false, { c with handlers := v' }, mem', ?_, ?_, ?_, hkeep⟩ <;>
        rw [Pending.addHandler, hset]
      · rfl
      · exact ⟨helements, h.timeoutTicks, h.ticks⟩
      · exact hlog
    | true =>
      refine ⟨true, ⟨v', nearer (c.ticks + timeout) c.timeoutTicks, c.ticks⟩, mem', ?_, ?_, ?_,
        hkeep⟩ <;> rw [Pending.addHandler, hset]
      · rfl
      · rw [← h.ticks, ← h.timeoutTicks]
        exact ⟨helements, rfl, rfl⟩
      · exact hlog

/-- The loop invokes the handlers from a position on, and leaves them without callbacks. -/
theorem completeLoop_spec (as : List (Handler K)) (error : ℤ) (arg : Option Ptr)
    (h : v.Elements mem (as ++ bs)) : ∃ mem',
      completeLoop v error arg bs.length as.length mem = some ((), mem') ∧
      v.Elements mem' (as ++ bs.map fun h ↦ { h with handler := h.handler.movedFrom }) ∧
      mem'.log = mem.log ++ invokeAll bs error arg := by
  induction bs generalizing as mem with
  | nil => exact ⟨mem, rfl, h, (List.append_nil _).symm⟩
  | cons b bs ih =>
    obtain ⟨mem₁, hset, h₁, hlog₁⟩ :=
      Vector.setAt_spec h { b with handler := b.handler.movedFrom }
    have h₂ := elements_emit h₁ (b.handler.invoke error arg)
    rw [List.append_cons] at h₂
    obtain ⟨mem', hrun, h', hlog⟩ := ih _ h₂
    refine ⟨mem', ?_, ?_, ?_⟩
    · rw [List.length_cons, completeLoop, run_bind (Vector.at_spec h), run_bind hset,
        run_bind (emit_eq _)]
      rw [List.length_append, List.length_singleton] at hrun
      exact hrun
    · rw [List.map_cons]
      rwa [List.append_assoc, List.singleton_append] at h'
    · rw [hlog, hlog₁, invokeAll_cons, List.append_assoc]

theorem completeAll_spec (h : Shows c mem p) (error : ℤ) (arg : Option Ptr) : ∃ c' mem',
    c.completeAll error arg mem = some (c', mem') ∧ Shows c' mem' (.empty : Pending K) ∧
      mem'.log = mem.log ++ invokeAll p.handlers error arg ∧
      c'.handlers.capacity = c.handlers.capacity := by
  obtain ⟨mem₁, hloop, h₁, hlog₁⟩ := completeLoop_spec [] error arg h.elements
  obtain ⟨v', mem', hclear, h', hlog', hkeep⟩ := Vector.clear_spec h₁
  refine ⟨⟨v', maxTimeout, 0⟩, mem', ?_, ⟨h', rfl, rfl⟩, ?_, hkeep⟩
  · change completeLoop c.handlers error arg p.handlers.length 0 mem = _ at hloop
    rw [completeAll, h.elements.size, run_bind hloop, reset, run_bind hclear]
    rfl
  · -- the handlers are destroyed without callbacks
    rw [hlog', hlog₁]
    simp [Handler.object, CompletionHandler.delete, CompletionHandler.setError]

/-- **The loop of `update`** removes the handlers that are due and rebases the others. -/
theorem expireLoop_spec (as : List (Handler K)) (ticks timeoutTicks : UInt32) (count : ℕ)
    (hbs : bs ≠ []) (h : v.Elements mem (as ++ bs)) : ∃ v' mem',
      expireLoop ticks bs.length v timeoutTicks as.length count mem =
        some ((count + (due bs ticks).length, v',
          (rebased bs ticks).foldl (fun t h ↦ nearer h.ticks t) timeoutTicks), mem') ∧
      v'.Elements mem' (as ++ rebased bs ticks) ∧
      mem'.log = mem.log ++ invokeAll (due bs ticks) SystemError.timeout none ∧
      v'.capacity = v.capacity := by
  induction bs generalizing as v mem timeoutTicks count with
  | nil => exact absurd rfl hbs
  | cons b bs ih =>
    rw [List.length_cons, expireLoop, run_bind (Vector.at_spec h)]
    by_cases hdue : ticks ≥ b.ticks
    · -- the handler is removed, and its place taken by the next one
      obtain ⟨v₁, mem₁, htake, h₁, hlog₁, hkeep⟩ := Vector.takeAt_spec Handler.quiet h
      have h₂ := elements_emit h₁ (b.handler.setError SystemError.timeout none).2
      have hsize := h₁.size
      rw [List.length_append] at hsize
      rw [if_pos hdue, run_bind htake, due_cons_of_le bs hdue, rebased_cons_of_le bs hdue]
      dsimp only
      rw [run_bind (emit_eq _)]
      by_cases hnil : bs = []
      · subst hnil
        rw [if_neg (by rw [hsize]; simp)]
        refine ⟨v₁, _, rfl, h₂, ?_, hkeep⟩
        rw [hlog₁]
        exact congrArg (mem.log ++ ·) (List.append_nil _).symm
      · have hpos := List.length_pos_of_ne_nil hnil
        obtain ⟨v', mem', hrun, h', hlog', hkeep'⟩ := ih _ timeoutTicks (count + 1) hnil h₂
        rw [if_pos (by omega), hrun]
        refine ⟨v', mem', ?_, h', ?_, hkeep'.trans hkeep⟩
        · rw [List.length_cons, Nat.add_right_comm, Nat.add_assoc]
        · rw [hlog', hlog₁, invokeAll_cons, List.append_assoc]
          rfl
    · -- the handler stays, and the loop goes on to the next one
      obtain ⟨mem₁, hset, h₁, hlog₁⟩ :=
        Vector.setAt_spec h { b with ticks := b.ticks - ticks }
      have hsize := h₁.size
      rw [List.length_append, List.length_cons] at hsize
      rw [if_neg hdue, run_bind hset, due_cons_of_lt bs hdue, rebased_cons_of_lt bs hdue,
        List.foldl_cons]
      rw [List.append_cons] at h₁
      by_cases hnil : bs = []
      · subst hnil
        rw [if_neg (by rw [hsize]; simp)]
        refine ⟨v, mem₁, rfl, by simpa [rebased] using h₁, ?_, rfl⟩
        rw [hlog₁]
        exact (List.append_nil _).symm
      · have hpos := List.length_pos_of_ne_nil hnil
        obtain ⟨v', mem', hrun, h', hlog', hkeep'⟩ :=
          ih _ (nearer (b.ticks - ticks) timeoutTicks) count hnil h₁
        rw [List.length_append, List.length_singleton] at hrun
        rw [if_pos (by omega), hrun]
        refine ⟨v', mem', rfl, ?_, by rw [hlog', hlog₁], hkeep'⟩
        rwa [List.append_assoc, List.singleton_append] at h'

theorem update_spec (h : Shows c mem p) (ticks : UInt32) : ∃ c' mem',
    c.update ticks mem = some (((p.update ticks).1, c'), mem') ∧
      Shows c' mem' (p.update ticks).2.1 ∧ mem'.log = mem.log ++ (p.update ticks).2.2 ∧
      c'.handlers.capacity = c.handlers.capacity := by
  rw [update, Pending.update, Vector.isEmpty, h.elements.size, h.ticks, h.timeoutTicks]
  by_cases hnil : p.handlers = []
  · rw [if_pos hnil, if_pos (by rw [hnil]; rfl)]
    exact ⟨c, mem, rfl, h, (List.append_nil _).symm, rfl⟩
  rw [if_neg hnil, if_neg (by simpa using hnil)]
  by_cases hdue : p.ticks + ticks ≥ p.timeoutTicks
  · obtain ⟨v', mem', hrun, h', hlog, hkeep⟩ :=
      expireLoop_spec [] (p.ticks + ticks) maxTimeout 0 hnil h.elements
    change expireLoop _ _ _ _ 0 0 mem = _ at hrun
    rw [if_pos hdue]
    simp only [hdue, if_true]
    refine ⟨⟨v', nearest (rebased p.handlers (p.ticks + ticks)), 0⟩, mem', ?_, ⟨h', rfl, rfl⟩,
      hlog, hkeep⟩
    rw [run_bind hrun, Nat.zero_add]
    rfl
  · rw [if_neg hdue]
    simp only [hdue, if_false]
    exact ⟨⟨c.handlers, p.timeoutTicks, p.ticks + ticks⟩, mem, rfl, ⟨h.elements, rfl, rfl⟩,
      (List.append_nil _).symm, rfl⟩

theorem delete_spec (h : Shows c mem p) : ∃ mem', c.delete mem = some ((), mem') ∧
    mem'.log = mem.log ++ invokeAll p.handlers SystemError.internal none :=
  ⟨_, Vector.destruct_spec h.elements, rfl⟩

variable [DecidableEq K]

/-- The container is empty if nothing is left, now or when the loop has ended. -/
theorem ticks_after_take (key : K) (ticks : UInt32) (hsize : v.size = (as ++ bs).length) :
    (if withKey bs key ≠ [] ∧ as ++ withoutKey bs key = [] then 0
      else if v.isEmpty = true then 0 else ticks) =
      if as ++ withoutKey bs key = [] then 0 else ticks := by
  have hempty : v.isEmpty = true ↔ as ++ bs = [] := by
    rw [Vector.isEmpty, decide_eq_true_iff, hsize, List.length_eq_zero_iff]
  by_cases hrest : as ++ withoutKey bs key = []
  · rw [if_pos hrest]
    by_cases hmore : withKey bs key = []
    · obtain ⟨has, hnil⟩ := List.append_eq_nil_iff.mp hrest
      have hnone : as ++ bs = [] := by rw [has, eq_nil_of_withKey hmore hnil]; rfl
      rw [if_neg fun hc ↦ hc.1 hmore, if_pos (hempty.mpr hnone)]
    · rw [if_pos ⟨hmore, hrest⟩]
  · have hsome : ¬ as ++ bs = [] := by
      intro hc
      obtain ⟨rfl, rfl⟩ := List.append_eq_nil_iff.mp hc
      exact hrest rfl
    rw [if_neg hrest, if_neg fun hc ↦ hrest hc.2, if_neg (mt hempty.mp hsome)]

/-- **The loop of `takeHandler`** removes the handlers with the key and keeps the others. -/
theorem takeLoop_spec (as : List (Handler K)) (key : K) (handler : CompletionHandler)
    (h : c.handlers.Elements mem (as ++ bs)) : ∃ c' mem',
      takeLoop key bs.length handler c as.length mem =
        some ((((withKey bs key).getLast?.map Handler.handler).getD handler, c'), mem') ∧
      c'.handlers.Elements mem' (as ++ withoutKey bs key) ∧
      c'.timeoutTicks = (withoutKey bs key).foldl (fun t h ↦ nearer h.ticks t) c.timeoutTicks ∧
      c'.ticks = (if withKey bs key ≠ [] ∧ as ++ withoutKey bs key = [] then 0 else c.ticks) ∧
      mem'.log = mem.log ++ (if withKey bs key = [] then [] else
        handler.delete ++ invokeAll (withKey bs key).dropLast SystemError.internal none) ∧
      c'.handlers.capacity = c.handlers.capacity := by
  induction bs generalizing as c mem handler with
  | nil =>
    have hsize := h.size
    rw [List.append_nil] at hsize
    rw [List.length_nil, takeLoop, if_neg (by omega)]
    exact ⟨c, mem, rfl, h, rfl, by simp [withKey], by simp [withKey], rfl⟩
  | cons b bs ih =>
    have hsize := h.size
    rw [List.length_append, List.length_cons] at hsize
    rw [List.length_cons, takeLoop, if_pos (by omega)]
    simp only
    rw [run_bind (Vector.at_spec h)]
    by_cases hkey : b.key = key
    · -- the handler is taken, in the place of the one before it
      obtain ⟨v₁, mem₁, htake, h₁, hlog₁, hkeep⟩ := Vector.takeAt_spec Handler.quiet h
      have h₂ := elements_emit h₁ (handler.assign b.handler).2
      obtain ⟨c', mem', hrun, h', htimeout, hticks, hlog, hkeep'⟩ :=
        ih _ (c := { c with handlers := v₁, ticks := if v₁.isEmpty then 0 else c.ticks })
          (handler.assign b.handler).1 h₂
      rw [if_pos hkey, run_bind htake, run_bind (emit_eq _), hrun, withKey_cons_of_eq bs hkey,
        withoutKey_cons_of_eq bs hkey]
      refine ⟨c', mem', ?_, h', htimeout, ?_, ?_, hkeep'.trans hkeep⟩
      · rw [List.getLast?_cons]
        cases (withKey bs key).getLast? <;> rfl
      · rw [hticks, if_congr (and_iff_right (List.cons_ne_nil _ _)) rfl rfl]
        exact ticks_after_take key c.ticks h₁.size
      · rw [hlog, hlog₁, if_neg (List.cons_ne_nil _ _), List.append_assoc]
        change _ ++ (handler.delete ++ _) = _
        by_cases hmore : withKey bs key = []
        · rw [hmore]
          rfl
        · rw [if_neg hmore, List.dropLast_cons_of_ne_nil hmore]
          rfl
    · rw [List.append_cons] at h
      obtain ⟨c', mem', hrun, h', htimeout, hticks, hlog, hkeep⟩ :=
        ih _ (c := { c with timeoutTicks := nearer b.ticks c.timeoutTicks }) handler h
      rw [List.length_append, List.length_singleton] at hrun
      rw [if_neg hkey, hrun, withKey_cons_of_ne bs hkey, withoutKey_cons_of_ne bs hkey]
      rw [List.append_assoc, List.singleton_append] at h' hticks
      exact ⟨c', mem', rfl, h', htimeout, hticks, hlog, hkeep⟩

theorem takeHandler_spec (h : Shows c mem p) (key : K) : ∃ c' mem',
    c.takeHandler key mem = some (((p.takeHandler key).1, c'), mem') ∧
      Shows c' mem' (p.takeHandler key).2.1 ∧ mem'.log = mem.log ++ (p.takeHandler key).2.2 ∧
      c'.handlers.capacity = c.handlers.capacity := by
  obtain ⟨c', mem', hrun, h', htimeout, hticks, hlog, hkeep⟩ :=
    takeLoop_spec [] (c := { c with timeoutTicks := maxTimeout }) key .new h.elements
  refine ⟨c', mem', ?_, ⟨h', htimeout, ?_⟩, ?_, hkeep⟩
  · rw [takeHandler, h.elements.size]
    exact hrun
  · rw [hticks]
    change (if _ then 0 else c.ticks) = _
    rw [h.ticks]
    rfl
  · rw [hlog]
    by_cases hnil : withKey p.handlers key = []
    · rw [if_pos hnil, Pending.takeHandler, hnil]
      rfl
    · rw [if_neg hnil]
      rfl

end Handlers

end DuoFirmware.Services
