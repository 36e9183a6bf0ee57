import SudoOS.Kernel.Pipe
import SudoOS.Kernel.SignalWait
import SudoOS.Kernel.ThreadGroup

/-!
The calls in which the threads of one process sleep, and the marks that `exit_group` and `execve` leave on its threads. Each
call is a loop: it tries, and if it has to wait it blocks under a condition that is tested once more with the scheduler
locked. What the calls wait for may change at any time, and a sleeper may be woken at any time.
-/

namespace SudoOS.Blocking

/-! ### What the calls wait for -/

structure PipeState where
  len : Nat
  readers : Nat
  writers : Nat
  readEpoch : Word
  writeEpoch : Word
deriving DecidableEq

structure Listener where
  nonblock : Bool
  pending : Option (List Nat)
deriving DecidableEq

structure PtyShared where
  input : Nat
  output : Nat
  masterClosed : Bool
  slaveClosed : Bool
deriving DecidableEq

structure FutexQueue where
  word : Option (BitVec 32)
  wakeSequence : Word
deriving DecidableEq

structure Resources where
  pipes : Nat → PipeState
  sockets : Nat → Option SocketInner
  listeners : Nat → Option Listener
  socketIoEpoch : Word
  consoleLen : Nat
  ptys : Nat → PtyShared
  futexes : Nat → FutexQueue
  timeoutFired : Nat → Bool
  signals : SignalState
  masks : Nat → Word
  relations : ProcessRelations
  conflicts : Nat → Bool
  threadCount : Nat

def eintr : Int := -4
def ebadf : Int := -9
def echild : Int := -10
def eagain : Int := -11
def efault : Int := -14
def einval : Int := -22
def epipe : Int := -32
def etimedout : Int := -110

inductive Call
  | pipeRead (pipe : Nat) (nonblock : Bool) (length : Nat)
  | pipeWrite (pipe : Nat) (nonblock : Bool) (length : Nat)
  | socketReceive (call : Receive)
  | accept (socket : Nat)
  | readConsole (length : Nat)
  | ptyMasterRead (pty length : Nat)
  | ptySlaveRead (pty length : Nat)
  | futexWait (address : Nat) (expected : BitVec 32)
  | futexWaitTimed (address : Nat) (expected : BitVec 32)
  | wait4 (call : Wait4)
  | rtSigsuspend (mask : Word)
  | setRecordLock (lock : Nat)
  | waitUntilSingleThread
deriving DecidableEq

/-! ### The try at the head of the loop -/

section attempt
variable (r : Resources)

def pipeRead (pipe : Nat) (nonblock : Bool) (length : Nat) : Option (Int × Resources) :=
  let state := r.pipes pipe
  if state.len = 0 then
    if state.writers = 0 then some (0, r)
    else if nonblock then some (eagain, r)
    else none
  else
    let copied := min state.len length
    some (copied, { r with pipes := Function.update r.pipes pipe { state with len := state.len - copied } })

def pipeWrite (pipe : Nat) (nonblock : Bool) (length : Nat) : Option (Int × Resources) :=
  let state := r.pipes pipe
  if length = 0 then some (0, r)
  else if state.readers = 0 then some (epipe, r)
  else if state.len = pipeCapacity then
    if nonblock then some (eagain, r)
    else none
  else
    let copied := min length (pipeCapacity - state.len)
    some (copied, { r with pipes := Function.update r.pipes pipe { state with len := state.len + copied } })

def socketReceive (i : Nat) (call : Receive) : Option (Int × Resources) :=
  if r.signals.hasUnblocked (r.masks i) then some (eintr, r)
  else
    match r.sockets call.socket with
    | none => some (ebadf, r)
    | some inner =>
      if inner.recvBuf = [] then
        if inner.peerClosed then some (0, r)
        else if call.dontWait || inner.nonblock then some (eagain, r)
        else none
      else
        let (bytes, inner) := call.take inner
        some (bytes.length, { r with sockets := Function.update r.sockets call.socket (some inner) })

/-- The result stands for the socket that has been taken; its file is opened afterwards. -/
def accept (i socket : Nat) : Option (Int × Resources) :=
  if r.signals.hasUnblocked (r.masks i) then some (eintr, r)
  else
    match r.listeners socket with
    | none => some (ebadf, r)
    | some ⟨_, none⟩ => some (einval, r)
    | some ⟨nonblock, some []⟩ => if nonblock then some (eagain, r) else none
    | some ⟨nonblock, some (accepted :: rest)⟩ =>
      some (accepted, { r with listeners := Function.update r.listeners socket (some ⟨nonblock, some rest⟩) })

def readConsole (length : Nat) : Option (Int × Resources) :=
  if r.consoleLen = 0 then none
  else some (min r.consoleLen length, { r with consoleLen := r.consoleLen - min r.consoleLen length })

def ptyMasterRead (pty length : Nat) : Option (Int × Resources) :=
  let shared := r.ptys pty
  if shared.output ≠ 0 then
    let copied := min shared.output length
    some (copied, { r with ptys := Function.update r.ptys pty { shared with output := shared.output - copied } })
  else if shared.slaveClosed then some (0, r)
  else none

def ptySlaveRead (pty length : Nat) : Option (Int × Resources) :=
  let shared := r.ptys pty
  if shared.input ≠ 0 then
    let copied := min shared.input length
    some (copied, { r with ptys := Function.update r.ptys pty { shared with input := shared.input - copied } })
  else if shared.masterClosed then some (0, r)
  else none

def futexWait (address : Nat) (expected : BitVec 32) : Option (Int × Resources) :=
  match (r.futexes address).word with
  | none => some (efault, r)
  | some word => if word ≠ expected then some (eagain, r) else none

def wait4 (i : Nat) (call : Wait4) : Option (Int × Resources) :=
  if call.options &&& ~~~Wait4.knownOptions ≠ 0 then some (einval, r)
  else
    match r.relations.waitZombieChild call.requested with
    | (some (child, _), relations) => some (child, { r with relations })
    | (none, _) =>
      if !r.relations.hasChild call.requested then some (echild, r)
      else if call.options &&& Wait4.wnohang ≠ 0 then some (0, r)
      else if r.signals.interrupting (r.masks i) then some (eintr, r)
      else none

def rtSigsuspend (mask : Word) : Option (Int × Resources) :=
  if r.signals.hasUnblocked mask then some (eintr, r) else none

def setRecordLock (lock : Nat) : Option (Int × Resources) := if r.conflicts lock then none else some (0, r)

def waitUntilSingleThread : Option (Int × Resources) := if r.threadCount ≤ 1 then some (0, r) else none

end attempt

namespace Call

def attempt (r : Resources) (i : Nat) : Call → Option (Int × Resources)
  | pipeRead pipe nonblock length => Blocking.pipeRead r pipe nonblock length
  | pipeWrite pipe nonblock length => Blocking.pipeWrite r pipe nonblock length
  | socketReceive call => Blocking.socketReceive r i call
  | accept socket => Blocking.accept r i socket
  | readConsole length => Blocking.readConsole r length
  | ptyMasterRead pty length => Blocking.ptyMasterRead r pty length
  | ptySlaveRead pty length => Blocking.ptySlaveRead r pty length
  | futexWait address expected => Blocking.futexWait r address expected
  | futexWaitTimed address expected => Blocking.futexWait r address expected
  | wait4 call => Blocking.wait4 r i call
  | rtSigsuspend mask => Blocking.rtSigsuspend r mask
  | setRecordLock lock => Blocking.setRecordLock r lock
  | waitUntilSingleThread => Blocking.waitUntilSingleThread r

def observe (r : Resources) : Call → Word
  | pipeRead pipe _ _ => (r.pipes pipe).readEpoch
  | pipeWrite pipe _ _ => (r.pipes pipe).writeEpoch
  | socketReceive _ => r.socketIoEpoch
  | futexWait address _ | futexWaitTimed address _ => (r.futexes address).wakeSequence
  | _ => 0

def satisfied (r : Resources) (address : Nat) (observed : Word) (marked : Bool) : Bool :=
  (r.futexes address).wakeSequence != observed || marked

def shouldBlock (r : Resources) (i : Nat) (observed : Word) (marked : Bool) : Call → Bool
  | pipeRead pipe _ _ => (r.pipes pipe).readEpoch == observed
  | pipeWrite pipe _ _ => (r.pipes pipe).writeEpoch == observed
  | socketReceive _ => r.socketIoEpoch == observed
  | accept socket =>
    !r.signals.hasUnblocked (r.masks i) &&
      match r.listeners socket with
      | some ⟨_, some []⟩ => true
      | _ => false
  | readConsole _ => r.consoleLen == 0
  | ptyMasterRead pty _ => (r.ptys pty).output == 0 && !(r.ptys pty).slaveClosed
  | ptySlaveRead pty _ => (r.ptys pty).input == 0 && !(r.ptys pty).masterClosed
  | futexWait address _ => (r.futexes address).wakeSequence == observed
  | futexWaitTimed address _ => !satisfied r address observed marked && !r.timeoutFired i
  | wait4 call => !r.relations.hasZombieChild call.requested && r.relations.hasChild call.requested
  | rtSigsuspend mask => !r.signals.hasUnblocked mask
  | setRecordLock lock => r.conflicts lock
  | waitUntilSingleThread => !(r.threadCount ≤ 1)

inductive After
  | checkMark
  | again
  | leave
  | retest (address : Nat)
deriving DecidableEq

def after : Call → After
  | pipeRead .. | pipeWrite .. | socketReceive _ | accept _ | readConsole _ | ptyMasterRead .. | ptySlaveRead .. =>
    .checkMark
  | wait4 _ | rtSigsuspend _ | setRecordLock _ | waitUntilSingleThread => .again
  | futexWait .. => .leave
  | futexWaitTimed address _ => .retest address

def testsMark : Call → Bool
  | futexWaitTimed .. => true
  | _ => false

def endsUnblocked : Call → Bool
  | setRecordLock _ | waitUntilSingleThread => true
  | _ => false

end Call

/-! ### The threads -/

inductive Phase
  | user
  | entered (call : Call)
  | prepared (call : Call) (observed : Word)
  | asleep (call : Call) (observed : Word)
  | back (call : Call) (observed : Word)
  | leaving (result : Int)
  | exited
deriving DecidableEq

structure State where
  resources : Resources
  tasks : List Nat
  forcedExitStatus : Nat → Word
  linked : Nat → Bool
  phase : Nat → Phase

inductive Input
  | call (call : Call)
  | advance
  | exitGroup (status : Word)
  | execve
  | spawn (thread : Nat) (late : Option Word)
  | wake (thread : Nat)
  | change (resources : Resources)

namespace State

variable (s : State)

def isMarked (i : Nat) : Bool := s.forcedExitStatus i != ThreadGroup.noForcedExit

def goto (i : Nat) (phase : Phase) : State := { s with phase := Function.update s.phase i phase }

def requestProcessThreadExit (except : Nat) (status : Word) : State :=
  { s with
    forcedExitStatus := fun j =>
      if j ∈ s.tasks ∧ j ≠ except ∧ s.forcedExitStatus j = ThreadGroup.noForcedExit then status else s.forcedExitStatus j
    linked := fun j => if j ∈ s.tasks ∧ j ≠ except then false else s.linked j }

def attempt (i : Nat) (call : Call) : State :=
  match call.attempt s.resources i with
  | some (result, resources) => { s with resources }.goto i (.leaving result)
  | none => s.goto i (.prepared call (call.observe s.resources))

def block (i : Nat) (call : Call) (observed : Word) : State :=
  if call.shouldBlock s.resources i observed (s.isMarked i) then
    { s with linked := Function.update s.linked i true }.goto i (.asleep call observed)
  else if call.endsUnblocked then s.goto i (.leaving 0)
  else s.goto i (.back call observed)

def back (i : Nat) (call : Call) (observed : Word) : State :=
  match call.after with
  | .checkMark => if s.isMarked i then s.goto i (.leaving eintr) else s.goto i (.entered call)
  | .again => s.goto i (.entered call)
  | .leave => s.goto i (.leaving 0)
  | .retest address =>
    if s.isMarked i then s.goto i (.leaving eintr)
    else if Call.satisfied s.resources address observed (s.isMarked i) then s.goto i (.leaving 0)
    else if s.resources.timeoutFired i then s.goto i (.leaving etimedout)
    else s.goto i (.prepared call observed)

def spawn (thread : Nat) (late : Option Word) : State :=
  { s with
    tasks := thread :: s.tasks
    forcedExitStatus := Function.update s.forcedExitStatus thread (late.getD ThreadGroup.noForcedExit)
    linked := Function.update s.linked thread false
    phase := Function.update s.phase thread .user }

end State

def threadStep (s : State) (i : Nat) (input : Input) : Option State :=
  match s.phase i, input with
  | .user, .call call => some (s.goto i (if s.isMarked i then .exited else .entered call))
  | .user, .exitGroup status =>
    some (if s.isMarked i then s.goto i .exited else (s.requestProcessThreadExit i status).goto i .exited)
  | .user, .execve =>
    some (if s.isMarked i then s.goto i .exited
      else (s.requestProcessThreadExit i 0).goto i (.entered .waitUntilSingleThread))
  | .entered call, .advance => some (s.attempt i call)
  | .prepared call observed, .advance => some (s.block i call observed)
  | .asleep call observed, .advance => if s.linked i then none else some (s.goto i (.back call observed))
  | .back call observed, .advance => some (s.back i call observed)
  | .leaving _, .advance => some (s.goto i (if s.isMarked i then .exited else .user))
  | _, _ => none

def step (s : State) : Nat × Input → Option State
  | (_, .wake thread) => some { s with linked := Function.update s.linked thread false }
  | (_, .change resources) => some { s with resources }
  | (_, .spawn thread late) => if thread ∈ s.tasks then none else some (s.spawn thread late)
  | (i, input) => if i ∈ s.tasks then threadStep s i input else none

def State.Fresh (s : State) : Prop :=
  (∀ i, s.phase i = .user) ∧ (∀ i, s.forcedExitStatus i = ThreadGroup.noForcedExit) ∧ ∀ i, s.linked i = false

def system : TransitionSystem State (Nat × Input) where
  init := State.Fresh
  step s label t := step s label = some t

def Phase.heedsMark : Phase → Bool
  | user | leaving _ | exited => true
  | entered call | prepared call _ => call.testsMark
  | asleep call _ | back call _ => call.after != .again

def heeded (s : State) : Nat × Input → Bool
  | (i, .exitGroup _) | (i, .execve) => s.tasks.all fun j => j == i || (s.phase j).heedsMark
  | _ => true

end SudoOS.Blocking
