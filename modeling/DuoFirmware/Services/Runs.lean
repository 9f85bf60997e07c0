import DuoFirmware.Services.PendingHandlers

/-!
# Runs of the containers

Any sequence of calls on a container, and on the handlers that were taken from it. Each call is one
of a few actions on the list of handlers, up to whether the vector of the container has got room;
so a run of calls is a run of actions, with the same invocations in the same order.
-/

namespace DuoFirmware.Services

open ObjectMemory Wiring

variable {K : Type}

/-- A container and its memory, the handlers that were taken from it and not destroyed yet, and
what callbacks were handed to it, each with its data. -/
structure Machine (K : Type) where
  container : Handlers
  memory : Memory (Handler K) Invocation
  taken : List CompletionHandler
  handed : List (Ptr × Ptr)

/-- A new container. -/
def Machine.new : Machine K := ⟨.new, ⟨fun _ ↦ none, []⟩, [], []⟩

/-- The callback that a handler still has to invoke. -/
def CompletionHandler.owed (h : CompletionHandler) : List (Ptr × Ptr) :=
  match h.callback with
  | some callback => [(callback, h.data)]
  | none => []

namespace Machine

/-- The state after a call on the container. -/
def next (s : Machine K) (r : Option (Handlers × Memory (Handler K) Invocation)) :
    Option (Machine K) :=
  r.map fun r ↦ { s with container := r.1, memory := r.2 }

/-- A handler that was taken is given a result or an error. -/
def completeTaken (s : Machine K) (i : ℕ) (error : ℤ) (arg : Option Ptr) : Machine K :=
  match s.taken[i]? with
  | none => s
  | some h => { s with
      taken := s.taken.set i h.movedFrom
      memory := ⟨s.memory.slots, s.memory.log ++ h.invoke error arg⟩ }

/-- A handler that was taken is destroyed. -/
def dropTaken (s : Machine K) (i : ℕ) : Machine K :=
  match s.taken[i]? with
  | none => s
  | some h => { s with
      taken := s.taken.eraseIdx i
      memory := ⟨s.memory.slots, s.memory.log ++ h.delete⟩ }

end Machine

/-! ## Calls -/

namespace CompletionHandlerList

/-- The calls on a list. The address is what `malloc` returns to a vector that grows. -/
inductive Op where
  | addHandler (block : Option ℕ) (handler : CompletionHandler) (timeout : UInt32)
  | setResult (result : Option Ptr)
  | setError (error : ℤ) (msg : Option Ptr)
  | clear
  | update (ticks : UInt32)

def Op.perform (s : Machine Unit) : Op → Option (Machine Unit)
  | addHandler block handler timeout =>
    (CompletionHandlerList.addHandler s.container block handler timeout s.memory).map fun r ↦
      { s with container := r.1.2, memory := r.2, handed := s.handed ++ handler.owed }
  | setResult result => s.next (CompletionHandlerList.setResult s.container result s.memory)
  | setError error msg => s.next (CompletionHandlerList.setError s.container error msg s.memory)
  | clear => s.next (CompletionHandlerList.clear s.container s.memory)
  | update ticks => (CompletionHandlerList.update s.container ticks s.memory).map fun r ↦
      { s with container := r.1.2, memory := r.2 }

/-- Whether the call succeeds, as far as it says so. -/
def Op.succeeds (s : Machine Unit) : Op → Bool
  | addHandler block handler timeout =>
    ((CompletionHandlerList.addHandler s.container block handler timeout s.memory).map
      (·.1.1)).getD false
  | _ => true

end CompletionHandlerList

namespace CompletionHandlerMap

/-- The calls on a map, and on the handlers that were taken from it. -/
inductive Op (K : Type) where
  | addHandler (block : Option ℕ) (key : K) (handler : CompletionHandler) (timeout : UInt32)
  | takeHandler (key : K)
  | setResult (key : K) (result : Option Ptr)
  | setError (key : K) (error : ℤ) (msg : Option Ptr)
  | clear
  | update (ticks : UInt32)
  | completeTaken (i : ℕ) (error : ℤ) (arg : Option Ptr)
  | dropTaken (i : ℕ)

def Op.perform [DecidableEq K] (s : Machine K) : Op K → Option (Machine K)
  | addHandler block key handler timeout =>
    (CompletionHandlerMap.addHandler s.container block key handler timeout s.memory).map fun r ↦
      { s with container := r.1.2, memory := r.2, handed := s.handed ++ handler.owed }
  | takeHandler key => (CompletionHandlerMap.takeHandler s.container key s.memory).map fun r ↦
      { s with container := r.1.2, memory := r.2, taken := s.taken ++ [r.1.1] }
  | setResult key result => s.next (CompletionHandlerMap.setResult s.container key result s.memory)
  | setError key error msg =>
    s.next (CompletionHandlerMap.setError s.container key error msg s.memory)
  | clear => s.next (CompletionHandlerMap.clear s.container s.memory)
  | update ticks => (CompletionHandlerMap.update s.container ticks s.memory).map fun r ↦
      { s with container := r.1.2, memory := r.2 }
  | completeTaken i error arg => some (s.completeTaken i error arg)
  | dropTaken i => some (s.dropTaken i)

def Op.succeeds (s : Machine K) : Op K → Bool
  | addHandler block key handler timeout =>
    ((CompletionHandlerMap.addHandler s.container block key handler timeout s.memory).map
      (·.1.1)).getD false
  | _ => true

end CompletionHandlerMap

/-! ## Actions -/

/-- What calls do to a list of handlers and the handlers that were taken. -/
structure Ledger (K : Type) where
  pending : Pending K
  taken : List CompletionHandler
  log : List Invocation
  handed : List (Ptr × Ptr)

namespace Ledger

def new : Ledger K := ⟨.empty, [], [], []⟩

end Ledger

inductive Action (K : Type) where
  | add (ok : Bool) (key : K) (handler : CompletionHandler) (timeout : UInt32)
  | completeAll (error : ℤ) (arg : Option Ptr)
  | take (key : K)
  | completeKey (key : K) (error : ℤ) (arg : Option Ptr)
  | update (ticks : UInt32)
  | completeTaken (i : ℕ) (error : ℤ) (arg : Option Ptr)
  | dropTaken (i : ℕ)

open Pending in
def Action.perform [DecidableEq K] (l : Ledger K) : Action K → Ledger K
  | add ok key handler timeout =>
    let r := l.pending.addHandler ok key handler timeout
    { l with pending := r.2.1, log := l.log ++ r.2.2, handed := l.handed ++ handler.owed }
  | completeAll error arg =>
    { l with pending := .empty, log := l.log ++ invokeAll l.pending.handlers error arg }
  | take key =>
    let r := l.pending.takeHandler key
    { l with pending := r.2.1, taken := l.taken ++ [r.1], log := l.log ++ r.2.2 }
  | completeKey key error arg =>
    let r := l.pending.takeHandler key
    { l with pending := r.2.1, log := l.log ++ r.2.2 ++ r.1.invoke error arg }
  | update ticks =>
    let r := l.pending.update ticks
    { l with pending := r.2.1, log := l.log ++ r.2.2 }
  | completeTaken i error arg =>
    match l.taken[i]? with
    | none => l
    | some h => { l with taken := l.taken.set i h.movedFrom, log := l.log ++ h.invoke error arg }
  | dropTaken i =>
    match l.taken[i]? with
    | none => l
    | some h => { l with taken := l.taken.eraseIdx i, log := l.log ++ h.delete }

/-- Actions one after the other. -/
def Ledger.run [DecidableEq K] (l : Ledger K) (as : List (Action K)) : Ledger K :=
  as.foldl (fun l a ↦ a.perform l) l

def CompletionHandlerList.Op.action (ok : Bool) : CompletionHandlerList.Op → Action Unit
  | addHandler _ handler timeout => .add ok () handler timeout
  | setResult result => .completeAll SystemError.none result
  | setError error msg => .completeAll error msg
  | clear => .completeAll SystemError.aborted none
  | update ticks => .update ticks

def CompletionHandlerMap.Op.action (ok : Bool) : CompletionHandlerMap.Op K → Action K
  | addHandler _ key handler timeout => .add ok key handler timeout
  | takeHandler key => .take key
  | setResult key result => .completeKey key SystemError.none result
  | setError key error msg => .completeKey key error msg
  | clear => .completeAll SystemError.aborted none
  | update ticks => .update ticks
  | completeTaken i error arg => .completeTaken i error arg
  | dropTaken i => .dropTaken i

/-! ## Calls are actions -/

/-- The machine is as the ledger has it. -/
structure Matches (s : Machine K) (l : Ledger K) : Prop where
  pending : Shows s.container s.memory l.pending
  taken : s.taken = l.taken
  log : s.memory.log = l.log
  handed : s.handed = l.handed

/-- The vector has room for another element. -/
def Machine.HasRoom (s : Machine K) : Prop :=
  s.container.handlers.size + 1 ≤ s.container.handlers.capacity

theorem matches_new : Matches (.new : Machine K) .new := ⟨Handlers.shows_new, rfl, rfl, rfl⟩

theorem Machine.shows_log {c : Handlers} {mem : Memory (Handler K) Invocation} {p : Pending K}
    (h : Shows c mem p) (es : List Invocation) : Shows c ⟨mem.slots, mem.log ++ es⟩ p :=
  ⟨Handlers.elements_emit h.elements es, h.timeoutTicks, h.ticks⟩

variable [DecidableEq K] {s : Machine K} {l : Ledger K}

theorem Matches.completeAll (h : Matches s l) (error : ℤ) (arg : Option Ptr) : ∃ s',
    s.next (s.container.completeAll error arg s.memory) = some s' ∧
      Matches s' ((Action.completeAll error arg).perform l) ∧
      s'.container.handlers.capacity = s.container.handlers.capacity := by
  obtain ⟨c', mem', hrun, hshows, hlog, hcap⟩ := Handlers.completeAll_spec h.pending error arg
  refine ⟨{ s with container := c', memory := mem' }, by rw [hrun]; rfl, ⟨hshows, h.taken, ?_,
    h.handed⟩, hcap⟩
  rw [hlog, h.log]
  rfl

theorem Matches.completeKey (h : Matches s l) (key : K) (error : ℤ) (arg : Option Ptr) : ∃ s',
    s.next (CompletionHandlerMap.setError s.container key error arg s.memory) = some s' ∧
      Matches s' ((Action.completeKey key error arg).perform l) ∧
      s'.container.handlers.capacity = s.container.handlers.capacity := by
  obtain ⟨c', mem', hrun, hshows, hlog, hcap⟩ := Handlers.takeHandler_spec h.pending key
  refine ⟨{ s with
    container := c'
    memory := ⟨mem'.slots, mem'.log ++ (l.pending.takeHandler key).1.invoke error arg⟩ }, ?_,
    ⟨Machine.shows_log hshows _, h.taken, ?_, h.handed⟩, hcap⟩
  · rw [CompletionHandlerMap.setError, CompletionHandlerMap.takeHandler, run_bind hrun]
    rfl
  · change mem'.log ++ _ = _
    rw [hlog, h.log]
    rfl

theorem Matches.update (h : Matches s l) (ticks : UInt32) : ∃ s',
    (s.container.update ticks s.memory).map (fun r ↦
      { s with container := r.1.2, memory := r.2 }) = some s' ∧
      Matches s' ((Action.update ticks).perform l) ∧
      s'.container.handlers.capacity = s.container.handlers.capacity := by
  obtain ⟨c', mem', hrun, hshows, hlog, hcap⟩ := Handlers.update_spec h.pending ticks
  refine ⟨{ s with container := c', memory := mem' }, by rw [hrun]; rfl, ⟨hshows, h.taken, ?_,
    h.handed⟩, hcap⟩
  rw [hlog, h.log]
  rfl

theorem Matches.addHandler (h : Matches s l) (block : Option ℕ) (key : K)
    (handler : CompletionHandler) (timeout : UInt32) : ∃ ok s',
    ((s.container.addHandler block key handler timeout s.memory).map (·.1.1)).getD false = ok ∧
      (s.container.addHandler block key handler timeout s.memory).map (fun r ↦
        { s with container := r.1.2, memory := r.2, handed := s.handed ++ handler.owed }) =
          some s' ∧
      Matches s' ((Action.add ok key handler timeout).perform l) ∧
      (s.HasRoom → ok = handler.isSet ∧
        s'.container.handlers.capacity = s.container.handlers.capacity) := by
  obtain ⟨ok, c', mem', hrun, hshows, hlog, hcap⟩ :=
    Handlers.addHandler_spec h.pending block key handler timeout
  -- a null handler is refused, whatever room there is
  have hok : l.pending.addHandler ok key handler timeout =
      l.pending.addHandler (l.pending.addHandler ok key handler timeout).1 key handler timeout := by
    rw [Pending.addHandler]
    cases hset : handler.isSet with
    | false =>
      rw [Pending.addHandler, hset]
      rfl
    | true =>
      rw [Pending.addHandler, hset]
      cases ok <;> rfl
  refine ⟨(l.pending.addHandler ok key handler timeout).1,
    { s with container := c', memory := mem', handed := s.handed ++ handler.owed },
    by rw [hrun]; rfl, by rw [hrun]; rfl, ⟨?_, h.taken, ?_, ?_⟩, fun hroom ↦ ?_⟩
  · rw [hok] at hshows
    exact hshows
  · rw [hok] at hlog
    change mem'.log = _
    rw [hlog, h.log]
    rfl
  · change s.handed ++ _ = _
    rw [h.handed]
    rfl
  · obtain ⟨rfl, hkeep⟩ := hcap hroom
    refine ⟨?_, hkeep⟩
    rw [Pending.addHandler]
    cases handler.isSet <;> rfl

/-! ## Calls in general -/

/-- The calls of a class: how they are carried out, whether they succeed, and which actions they
are. A call succeeds when there is room for the handler it adds, if any. -/
structure Calls (K Op : Type) [DecidableEq K] where
  perform : Machine K → Op → Option (Machine K)
  succeeds : Machine K → Op → Bool
  action : Bool → Op → Action K
  spec : ∀ {s : Machine K} {l : Ledger K}, Matches s l → ∀ op, ∃ s', perform s op = some s' ∧
    Matches s' ((action (succeeds s op) op).perform l) ∧
    (s.HasRoom → s'.container.handlers.capacity = s.container.handlers.capacity ∧
      (action (succeeds s op) op).perform l = (action true op).perform l)

namespace Calls

variable {Op : Type} (I : Calls K Op)

/-- Calls one after the other. -/
def run : Machine K → List Op → Option (Machine K)
  | s, [] => some s
  | s, op :: ops => (I.perform s op).bind fun s' ↦ run s' ops

/-- The actions that the calls of a run are. -/
def actions : Machine K → List Op → List (Action K)
  | _, [] => []
  | s, op :: ops => I.action (I.succeeds s op) op ::
    match I.perform s op with
    | none => []
    | some s' => actions s' ops

/-- A condition on calls holds wherever one is made. -/
def Along (P : Machine K → Op → Prop) : Machine K → List Op → Prop
  | _, [] => True
  | s, op :: ops => P s op ∧ ∀ s', I.perform s op = some s' → Along P s' ops

variable {I}

/-- **A run of calls is a run of actions.** -/
theorem run_spec (h : Matches s l) (ops : List Op) : ∃ s', I.run s ops = some s' ∧
    Matches s' (l.run (I.actions s ops)) := by
  induction ops generalizing s l with
  | nil => exact ⟨s, rfl, h⟩
  | cons op ops ih =>
    obtain ⟨s₁, hperform, h₁, -⟩ := I.spec h op
    obtain ⟨s', hrun, h'⟩ := ih h₁
    refine ⟨s', by rw [run, hperform, Option.bind_some, hrun], ?_⟩
    rw [actions, hperform]
    exact h'

theorem run_append (ops ops' : List Op) (s : Machine K) :
    I.run s (ops ++ ops') = (I.run s ops).bind fun s' ↦ I.run s' ops' := by
  induction ops generalizing s with
  | nil => rfl
  | cons op ops ih =>
    rw [List.cons_append, run, run, Option.bind_assoc]
    exact congrArg ((I.perform s op).bind ·) (funext fun s' ↦ ih s')

theorem along_append {P : Machine K → Op → Prop} {ops ops' : List Op} {s s' : Machine K}
    (h : I.run s ops = some s') :
    I.Along P s (ops ++ ops') ↔ I.Along P s ops ∧ I.Along P s' ops' := by
  induction ops generalizing s with
  | nil =>
    obtain rfl := Option.some.inj h
    exact ⟨fun h ↦ ⟨trivial, h⟩, fun h ↦ h.2⟩
  | cons op ops ih =>
    rw [run, Option.bind_eq_some_iff] at h
    obtain ⟨s₁, hperform, hrun⟩ := h
    have hnext : ∀ Q : Machine K → Prop, (∀ t, I.perform s op = some t → Q t) ↔ Q s₁ := fun Q ↦ by
      rw [hperform]
      exact ⟨fun hQ ↦ hQ s₁ rfl, fun hQ t ht ↦ Option.some.inj ht ▸ hQ⟩
    rw [List.cons_append, Along, Along, hnext, hnext, ih hrun, and_assoc]

end Calls

/-- What a call that always succeeds has to satisfy. -/
theorem Matches.spec_of {s' : Machine K} {o : Option (Machine K)} {a : Action K}
    (h : o = some s' ∧ Matches s' (a.perform l) ∧
      s'.container.handlers.capacity = s.container.handlers.capacity) : ∃ s', o = some s' ∧
    Matches s' (a.perform l) ∧ (s.HasRoom →
      s'.container.handlers.capacity = s.container.handlers.capacity ∧
        a.perform l = a.perform l) := ⟨s', h.1, h.2.1, fun _ ↦ ⟨h.2.2, rfl⟩⟩

/-- Adding a handler when there is room. -/
theorem Action.add_isSet (l : Ledger K) (key : K) (handler : CompletionHandler)
    (timeout : UInt32) : (Action.add handler.isSet key handler timeout).perform l =
      (Action.add true key handler timeout).perform l := by
  simp only [perform, Pending.addHandler]
  cases handler.isSet <;> rfl

/-- **A call on a list is an action.** -/
def CompletionHandlerList.calls : Calls Unit CompletionHandlerList.Op where
  perform s op := op.perform s
  succeeds s op := op.succeeds s
  action ok op := op.action ok
  spec := by
    intro s l h op
    cases op with
    | addHandler block handler timeout =>
      obtain ⟨ok, s', hok, hrun, h', hroom⟩ := h.addHandler block () handler timeout
      refine ⟨s', hrun, ?_, fun hr ↦ ⟨(hroom hr).2, ?_⟩⟩ <;>
        simp only [Op.succeeds, CompletionHandlerList.addHandler, hok, Op.action]
      · exact h'
      · rw [(hroom hr).1, Action.add_isSet]
    | setResult result => exact Matches.spec_of (h.completeAll SystemError.none result).choose_spec
    | setError error msg => exact Matches.spec_of (h.completeAll error msg).choose_spec
    | clear => exact Matches.spec_of (h.completeAll SystemError.aborted none).choose_spec
    | update ticks => exact Matches.spec_of (h.update ticks).choose_spec

theorem Matches.takeHandler (h : Matches s l) (key : K) : ∃ s',
    CompletionHandlerMap.Op.perform s (.takeHandler key) = some s' ∧
      Matches s' ((Action.take key).perform l) ∧
      s'.container.handlers.capacity = s.container.handlers.capacity := by
  obtain ⟨c', mem', hrun, hshows, hlog, hcap⟩ := Handlers.takeHandler_spec h.pending key
  refine ⟨{ s with
    container := c', memory := mem', taken := s.taken ++ [(l.pending.takeHandler key).1] }, ?_,
    ⟨hshows, ?_, ?_, h.handed⟩, hcap⟩
  · rw [CompletionHandlerMap.Op.perform, CompletionHandlerMap.takeHandler, hrun]
    rfl
  · change s.taken ++ _ = _
    rw [h.taken]
    rfl
  · rw [hlog, h.log]
    rfl

theorem Matches.completeTaken (h : Matches s l) (i : ℕ) (error : ℤ) (arg : Option Ptr) :
    Matches (s.completeTaken i error arg) ((Action.completeTaken i error arg).perform l) := by
  rw [Machine.completeTaken, Action.perform, ← h.taken]
  cases s.taken[i]? with
  | none => exact h
  | some t => exact ⟨Machine.shows_log h.pending _, rfl, by rw [← h.log], h.handed⟩

theorem Matches.dropTaken (h : Matches s l) (i : ℕ) :
    Matches (s.dropTaken i) ((Action.dropTaken i).perform l) := by
  rw [Machine.dropTaken, Action.perform, ← h.taken]
  cases s.taken[i]? with
  | none => exact h
  | some t => exact ⟨Machine.shows_log h.pending _, rfl, by rw [← h.log], h.handed⟩

/-- **A call on a map is an action.** -/
def CompletionHandlerMap.calls (K : Type) [DecidableEq K] :
    Calls K (CompletionHandlerMap.Op K) where
  perform s op := op.perform s
  succeeds s op := op.succeeds s
  action ok op := op.action ok
  spec := by
    intro s l h op
    cases op with
    | addHandler block key handler timeout =>
      obtain ⟨ok, s', hok, hrun, h', hroom⟩ := h.addHandler block key handler timeout
      refine ⟨s', hrun, ?_, fun hr ↦ ⟨(hroom hr).2, ?_⟩⟩ <;>
        simp only [Op.succeeds, CompletionHandlerMap.addHandler, hok, Op.action]
      · exact h'
      · rw [(hroom hr).1, Action.add_isSet]
    | takeHandler key => exact Matches.spec_of (h.takeHandler key).choose_spec
    | setResult key result =>
      exact Matches.spec_of (h.completeKey key SystemError.none result).choose_spec
    | setError key error msg => exact Matches.spec_of (h.completeKey key error msg).choose_spec
    | clear => exact Matches.spec_of (h.completeAll SystemError.aborted none).choose_spec
    | update ticks => exact Matches.spec_of (h.update ticks).choose_spec
    | completeTaken i error arg =>
      refine Matches.spec_of ⟨rfl, h.completeTaken i error arg, ?_⟩
      rw [Machine.completeTaken]
      cases s.taken[i]? <;> rfl
    | dropTaken i =>
      refine Matches.spec_of ⟨rfl, h.dropTaken i, ?_⟩
      rw [Machine.dropTaken]
      cases s.taken[i]? <;> rfl

end DuoFirmware.Services
