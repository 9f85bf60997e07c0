import DuoFirmware.Lib.Monitor

/-!
# Channels

`cpp::channel<T, N>` hands values from threads to threads through a queue, under a lock and with
three condition variables. A blocking send puts its value in the queue and waits until the queue is
no longer full, so that with `N = 0` it waits for a receiver. The cases of a `select` try to send or
to receive without waiting.

What a function does while it has the lock is one section of a monitor, and any other thread may run
between two sections. A thread that is in no call may begin any call. Assertions do not change the
state; they are given apart from the sections.
-/

namespace DuoFirmware.System

open Monitor

variable {T : Type}

/-- `internal::_channel<T, N>`: the values in the queue come with the threads that sent them. What
went in and out is recorded. -/
structure Channel (T : Type) where
  queue : List (ℕ × T)
  isSendDone : Bool
  isTrySendDone : Bool
  isRecvReady : Bool
  isTrySendReady : Bool
  isTryRecvReady : Bool
  /-- What was put in the queue. -/
  sent : List (ℕ × T)
  /-- Which thread received what. -/
  received : List (ℕ × (ℕ × T))

/-- The condition variables. -/
inductive Condition where
  | sendBegin
  | sendEnd
  | recv
  deriving DecidableEq, Repr

/-- A call of a function of the channel. -/
inductive Call (T : Type) where
  | send (t : T)
  | recv
  | trySend (t : T)
  | tryRecv

/-- The sections of the functions. -/
inductive Point (T : Type) where
  | idle
  | send (t : T)
  | sendEnd (t : T)
  | recv
  /-- The second look of `_pre_blocking_recv` and all after it. -/
  | recvAgain
  | trySend (t : T)
  | tryRecv

def Call.start : Call T → Point T
  | send t => .send t
  | recv => .recv
  | trySend t => .trySend t
  | tryRecv => .tryRecv

/-- The next call of a thread, and whether `try_lock` gets the lock. -/
structure Input (T : Type) where
  call : Call T
  locks : Bool

namespace Channel

variable (N : ℕ) (id : ℕ) (c : Channel T)

def new : Channel T where
  queue := []
  isSendDone := true
  isTrySendDone := true
  isRecvReady := false
  isTrySendReady := false
  isTryRecvReady := false
  sent := []
  received := []

def isFull : Bool := N < c.queue.length

def isTryReady : Bool := c.isTryRecvReady && c.isTrySendReady

def emplaceBack (t : T) : Channel T :=
  { c with queue := c.queue ++ [(id, t)], sent := c.sent ++ [(id, t)] }

/-- The guard of `m_send_begin_cv`. -/
def maySend : Bool := c.isSendDone && c.isTrySendDone && !c.isFull N

/-- The end of a receive: the sender that waits for it, or another one, may go on. -/
def notifySender : Place Condition (Point T) :=
  .notifying (if c.isSendDone then .sendBegin else .sendEnd) .idle

/-- The first section of `_send`. -/
def send (t : T) : Channel T × Place Condition (Point T) :=
  if c.maySend N then
    ({ c.emplaceBack id t with isSendDone := false }, .notifying .recv (.sendEnd t))
  else (c, .asleep .sendBegin (.send t))

/-- The second section of `_send`. -/
def sendEnd (t : T) : Channel T × Place Condition (Point T) :=
  if c.isFull N then (c, .asleep .sendEnd (.sendEnd t))
  else ({ c with isSendDone := true }, .notifying .sendBegin .idle)

/-- A blocking receive, with `_pre_blocking_recv` from its wait on and `_post_blocking_recv`. -/
def recvAgain : Channel T × Place Condition (Point T) :=
  match c.queue with
  | [] => (c, .asleep .recv .recvAgain)
  | front :: queue =>
    ({ c with
        queue := queue
        isTrySendDone := true
        isRecvReady := false
        isTryRecvReady := false
        isTrySendReady := false
        received := c.received ++ [(id, front)] },
      c.notifySender)

/-- A blocking receive. -/
def recv : Channel T × Place Condition (Point T) :=
  { c with isRecvReady := true }.recvAgain id

/-- The test of `try_send`. -/
def refusesTrySend : Bool :=
  !c.isSendDone || !c.isTrySendDone || c.isFull N ||
    (N - c.queue.length = 0 && !c.isRecvReady)

def trySend (t : T) : Channel T × Place Condition (Point T) :=
  let c := { c with isTrySendReady := true }
  if c.refusesTrySend N then (c, .ready .idle)
  else
    ({ c.emplaceBack id t with isTrySendDone := 0 < N - c.queue.length }, .notifying .recv .idle)

/-- `try_recv_ptr`. -/
def tryRecv : Channel T × Place Condition (Point T) :=
  let c := { c with isTryRecvReady := true }
  match c.queue with
  | [] => (c, .ready .idle)
  | front :: queue =>
    ({ c with
        queue := queue
        isTrySendDone := true
        isTryRecvReady := false
        isTrySendReady := false
        received := c.received ++ [(id, front)] },
      c.notifySender)

/-- The sections of the threads that use a channel. -/
def program : Program (Channel T) Condition (Point T) (Input T)
  | _, x, .idle, c => (c, .ready x.call.start)
  | id, _, .send t, c => c.send N id t
  | _, _, .sendEnd t, c => c.sendEnd N t
  | id, _, .recv, c => c.recv id
  | id, _, .recvAgain, c => c.recvAgain id
  | id, x, .trySend t, c => if x.locks then c.trySend N id t else (c, .ready .idle)
  | id, x, .tryRecv, c => if x.locks then c.tryRecv id else (c, .ready .idle)

/-- A new channel with some threads that have not begun a call. -/
def system (n : ℕ) : Monitor.System (Channel T) Condition (Point T) :=
  ⟨new, List.replicate n (.ready .idle)⟩

/-! ## Assertions -/

/-- What an assertion is about. -/
inductive Assertion where
  /-- Both ends of the channel in a `select`. -/
  | tryReady
  /-- A thread that receives from a full queue what it sent. -/
  | ownValue
  | protocol
  deriving DecidableEq, Repr

/-- The assertions about the front of the queue, and of `_post_blocking_recv`. -/
def frontAsserts (front : ℕ × T) (queue : List (ℕ × T)) : List (Assertion × Bool) :=
  [(.ownValue, !c.isFull N || id ≠ front.1),
    (.protocol, !c.isFull N || !c.isSendDone || !c.isTrySendDone),
    (.protocol, c.isTrySendDone || c.isSendDone),
    (.protocol, !decide (N < queue.length))]

def recvAsserts : List (Assertion × Bool) :=
  match c.queue with
  | [] => []
  | front :: queue => (.tryReady, !c.isTryReady) :: c.frontAsserts N id front queue

def tryRecvAsserts : List (Assertion × Bool) :=
  match c.queue with
  | [] => []
  | front :: queue => c.frontAsserts N id front queue

def sendAsserts : List (Assertion × Bool) :=
  if c.maySend N then
    [(.protocol, c.isSendDone), (.protocol, c.isTrySendDone), (.protocol, !c.isFull N),
      (.tryReady, !c.isTryReady)]
  else []

def trySendAsserts : List (Assertion × Bool) :=
  let c := { c with isTrySendReady := true }
  (.tryReady, !c.isTryReady) ::
    if c.refusesTrySend N then []
    else
      [(.protocol, c.isSendDone), (.protocol, c.isTrySendDone), (.protocol, !c.isFull N),
        (.protocol, decide (0 < N - c.queue.length) || c.isRecvReady)]

/-- The assertions that the next section of a thread comes to. -/
def asserts (x : Input T) : Point T → List (Assertion × Bool)
  | .send _ => c.sendAsserts N
  | .recv => c.recvAsserts N id
  | .recvAgain => c.recvAsserts N id
  | .trySend _ => if x.locks then c.trySendAsserts N else []
  | .tryRecv => if x.locks then c.tryRecvAsserts N id else []
  | _ => []

end Channel

end DuoFirmware.System
