import DuoFirmware.Wiring.Vector

/-!
# Completion handlers

A `CompletionHandler` wraps a callback that is invoked once: with a result, with an error, or by the
destructor. `CompletionHandlerList` and `CompletionHandlerMap` keep handlers in a vector together
with their expiration times, which are relative to a tick counter of the container. The two classes
share most of their code; a list is here a map whose keys do not matter.

A call that invokes callbacks logs its invocations. Temporaries that have been moved from are
destroyed without effect, and are left out.
-/

namespace DuoFirmware.Services

open ObjectMemory Wiring

/-- A pointer to a function, to its data or to a result; where it may be null, `none` is. -/
abbrev Ptr := UInt32

namespace SystemError

def none : ℤ := 0

def busy : ℤ := -110

def aborted : ℤ := -150

def timeout : ℤ := -160

def internal : ℤ := -250

end SystemError

/-- A call of a completion callback. -/
structure Invocation where
  callback : Ptr
  error : ℤ
  /-- The result, or the error message. -/
  data : Option Ptr
  callbackData : Ptr
  deriving DecidableEq, Repr

structure CompletionHandler where
  callback : Option Ptr
  data : Ptr
  deriving DecidableEq, Repr

namespace CompletionHandler

variable (h : CompletionHandler)

/-- The default constructor. -/
def new : CompletionHandler := ⟨none, 0⟩

/-- What a move leaves behind. -/
def movedFrom : CompletionHandler := { h with callback := none }

/-- The invocation by `setResult` or `setError`, after which the callback is null. -/
def invoke (error : ℤ) (arg : Option Ptr) : List Invocation :=
  match h.callback with
  | some callback => [⟨callback, error, arg, h.data⟩]
  | none => []

def setResult (result : Option Ptr) : CompletionHandler × List Invocation :=
  (h.movedFrom, h.invoke SystemError.none result)

def setError (error : ℤ) (msg : Option Ptr) : CompletionHandler × List Invocation :=
  (h.movedFrom, h.invoke error msg)

/-- The destructor. -/
def delete : List Invocation := (h.setError SystemError.internal none).2

/-- Move assignment: the current callback is invoked, and replaced. -/
def assign (handler : CompletionHandler) : CompletionHandler × List Invocation :=
  (handler, (h.setError SystemError.internal none).2)

def isSet : Bool := h.callback.isSome

@[simp] theorem invoke_movedFrom (error : ℤ) (arg : Option Ptr) :
    h.movedFrom.invoke error arg = [] := rfl

@[simp] theorem invoke_new (error : ℤ) (arg : Option Ptr) : new.invoke error arg = [] := rfl

end CompletionHandler

/-- An element of a container. -/
structure Handler (K : Type) where
  key : K
  handler : CompletionHandler
  /-- Expiration time. -/
  ticks : UInt32
  deriving DecidableEq, Repr

namespace Handler

variable {K : Type}

def object : Object (Handler K) Invocation where
  movedFrom h := { h with handler := h.handler.movedFrom }
  destroy h := h.handler.delete

theorem quiet : (object : Object (Handler K) Invocation).Quiet := fun _ ↦ rfl

end Handler

/-! ## Containers -/

/-- The largest value of `system_tick_t`. -/
def maxTimeout : UInt32 := 4294967295

/-- A container of handlers. -/
structure Handlers where
  handlers : Wiring.Vector
  /-- Nearest handler expiration time. -/
  timeoutTicks : UInt32
  ticks : UInt32

/-- Programs over the memory of a container. -/
abbrev HandlerM (K α : Type) := ObjM (Handler K) Invocation α

namespace Handlers

variable {K : Type} (c : Handlers)

def new : Handlers := ⟨.new, maxTimeout, 0⟩

/-- The nearest of two expiration times, as the loops over handlers update it. -/
def nearer (t timeoutTicks : UInt32) : UInt32 := if t < timeoutTicks then t else timeoutTicks

/-- `addHandler`; it is given what `malloc` returns, if the vector has to grow. -/
def addHandler (block : Option ℕ) (key : K) (handler : CompletionHandler) (timeout : UInt32) :
    HandlerM K (Bool × Handlers) :=
  if handler.isSet then do
    let t := c.ticks + timeout
    let (ok, v) ← c.handlers.append Handler.object block ⟨key, handler, t⟩
    if ok then
      pure (true, { c with handlers := v, timeoutTicks := nearer t c.timeoutTicks })
    else pure (false, { c with handlers := v })
  else pure (false, c)

/-- The loop of `setResult` and `setError` over `n` handlers from the `i`-th on. -/
def completeLoop (v : Wiring.Vector) (error : ℤ) (arg : Option Ptr) : ℕ → ℕ → HandlerM K Unit
  | 0, _ => pure ()
  | n + 1, i => do
    let h ← v.at' i
    v.setAt i { h with handler := h.handler.movedFrom }
    emit (h.handler.invoke error arg)
    completeLoop v error arg n (i + 1)

def reset : HandlerM K Handlers := do
  let v ← c.handlers.clear Handler.object
  pure ⟨v, maxTimeout, 0⟩

/-- Invoke every handler, and remove them all. -/
def completeAll (error : ℤ) (arg : Option Ptr) : HandlerM K Handlers := do
  completeLoop c.handlers error arg c.handlers.size 0
  c.reset

/-- The loop of `update`. Each round removes a handler or goes on to the next one, so that there
are as many rounds as handlers. -/
def expireLoop (ticks : UInt32) : ℕ → Wiring.Vector → UInt32 → ℕ → ℕ →
    HandlerM K (ℕ × Wiring.Vector × UInt32)
  | 0, _, _, _, _ => failure
  | rounds + 1, v, timeoutTicks, i, count => do
    let h ← v.at' i
    if ticks ≥ h.ticks then do
      -- remove expired handler
      let (h, v) ← v.takeAt Handler.object i
      emit (h.handler.setError SystemError.timeout none).2
      if i < v.size then expireLoop ticks rounds v timeoutTicks i (count + 1)
      else pure (count + 1, v, timeoutTicks)
    else do
      -- update handler expiration time
      let t := h.ticks - ticks
      v.setAt i { h with ticks := t }
      if i + 1 < v.size then expireLoop ticks rounds v (nearer t timeoutTicks) (i + 1) count
      else pure (count, v, nearer t timeoutTicks)

/-- `update`: returns the number of expired handlers. -/
def update (ticks : UInt32) : HandlerM K (ℕ × Handlers) :=
  if c.handlers.isEmpty then pure (0, c)
  else
    let now := c.ticks + ticks
    if now ≥ c.timeoutTicks then do
      let (count, v, timeoutTicks) ← expireLoop now c.handlers.size c.handlers maxTimeout 0 0
      pure (count, ⟨v, timeoutTicks, 0⟩)
    else pure (0, { c with ticks := now })

def nearestTimeout : UInt32 := c.timeoutTicks - c.ticks

/-- The destructor. -/
def delete : HandlerM K Unit := c.handlers.delete Handler.object

variable [DecidableEq K]

/-- The loop of `takeHandler`; `handler` is the one taken so far. -/
def takeLoop (key : K) : ℕ → CompletionHandler → Handlers → ℕ →
    HandlerM K (CompletionHandler × Handlers)
  | rounds, handler, c, i =>
    if i < c.handlers.size then
      match rounds with
      | 0 => failure
      | rounds + 1 => do
        let h ← c.handlers.at' i
        if h.key = key then do
          let (h, v) ← c.handlers.takeAt Handler.object i
          emit (handler.assign h.handler).2
          let c := { c with handlers := v, ticks := if v.isEmpty then 0 else c.ticks }
          takeLoop key rounds (handler.assign h.handler).1 c i
        else
          takeLoop key rounds handler { c with timeoutTicks := nearer h.ticks c.timeoutTicks }
            (i + 1)
    else pure (handler, c)

/-- `takeHandler`; each round of its loop removes a handler or goes on to the next one. -/
def takeHandler (key : K) : HandlerM K (CompletionHandler × Handlers) :=
  takeLoop key c.handlers.size CompletionHandler.new { c with timeoutTicks := maxTimeout } 0

end Handlers

/-! ## The two classes -/

namespace CompletionHandlerList

def addHandler (c : Handlers) (block : Option ℕ) (handler : CompletionHandler) (timeout : UInt32) :
    HandlerM Unit (Bool × Handlers) := c.addHandler block () handler timeout

def setResult (c : Handlers) (result : Option Ptr) : HandlerM Unit Handlers :=
  c.completeAll SystemError.none result

def setError (c : Handlers) (error : ℤ) (msg : Option Ptr) : HandlerM Unit Handlers :=
  c.completeAll error msg

def clear (c : Handlers) : HandlerM Unit Handlers := setError c SystemError.aborted none

def update (c : Handlers) (ticks : UInt32) : HandlerM Unit (ℕ × Handlers) := c.update ticks

end CompletionHandlerList

namespace CompletionHandlerMap

variable {K : Type}

def addHandler (c : Handlers) (block : Option ℕ) (key : K) (handler : CompletionHandler)
    (timeout : UInt32) : HandlerM K (Bool × Handlers) := c.addHandler block key handler timeout

def clear (c : Handlers) : HandlerM K Handlers := c.completeAll SystemError.aborted none

def update (c : Handlers) (ticks : UInt32) : HandlerM K (ℕ × Handlers) := c.update ticks

variable [DecidableEq K]

def takeHandler (c : Handlers) (key : K) : HandlerM K (CompletionHandler × Handlers) :=
  c.takeHandler key

/-- `setResult`: the handler that is taken is a temporary. -/
def setResult (c : Handlers) (key : K) (result : Option Ptr) : HandlerM K Handlers := do
  let (handler, c) ← takeHandler c key
  emit (handler.setResult result).2
  pure c

def setError (c : Handlers) (key : K) (error : ℤ) (msg : Option Ptr) : HandlerM K Handlers := do
  let (handler, c) ← takeHandler c key
  emit (handler.setError error msg).2
  pure c

end CompletionHandlerMap

end DuoFirmware.Services
