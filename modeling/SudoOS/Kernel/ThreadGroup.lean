import SudoOS.Kernel.Signal
import SudoOS.Lib.Threads

/-!
The life and the end of the threads of one process: `clone`, `exit`, `exit_group` and `execve`, the marks for a forced exit,
the delivery of signals and fatal faults, and the drop of retired threads, which records the status of the process. Every
atomic access and every critical section is one step.
-/

namespace SudoOS.ThreadGroup

def noForcedExit : Word := BitVec.intMin 64

inductive GroupExit
  | none
  | publishing (thread : Nat)
  | active (status : Word)
deriving DecidableEq

/-- `ready` threads have joined the group and `inserted` ones have a task that cannot run yet. -/
inductive Life
  | unborn
  | ready
  | inserted
  | runnable
  | running
  | exited
  | dropped
deriving DecidableEq

inductive Cause
  | exit
  | groupCall (first : Bool)
  | groupMark
  | execMark
  | signal
  | fault
deriving DecidableEq

structure Shared where
  leader : Option Nat
  members : List Nat
  groupLock : Option Nat
  schedulerLock : Option Nat
  groupExit : GroupExit
  execInProgress : Bool
  nextId : Nat
  life : Nat → Life
  forced : Nat → Word
  exitStatus : Nat → Word
  signals : SignalState
  masks : Nat → SignalMasks
  recorded : Option Word
  panicked : Bool
  maker : Nat → Nat
  called : Nat → Bool
  departing : Nat → Bool
  markedBy : Nat → Cause
  cause : Nat → Cause
  groupScanned : Bool
  execOwner : Option Nat
  survivor : Option Nat
  /-- The status that a fatal signal or fault stands for. -/
  fatal : Option Word

inductive Frame
  | user
  | kernel (status : Word) (cause : Cause)
deriving DecidableEq

inductive Phase
  | outside
  | bootstrap
  | user
  | dispatch
  | admission
  | admissionExec
  | cloning (child : Nat)
  | lateGroup (child : Nat)
  | lateExec (child : Nat)
  | groupEntry (status : Word)
  | publishing (status : Word)
  | groupScan (status group : Word) (first : Bool)
  | execCount
  | execScan
  | execWait
  | execReplace
  | execFinish
  | epilogue (frame : Frame)
  | deliver (frame : Frame)
  | faulting
  | leaving (status : Word) (cause : Cause)
  | retired
  | gone
deriving DecidableEq

inductive Agent
  | thread (t : Nat)
  | world
deriving DecidableEq

inductive Input
  | advance
  | signal (signal : Nat)
  | syscall
  | interrupt
  | fault
  | resolved
  | fatalFault (active : Bool)
  | exception
  | other (signals : SignalState) (masks : SignalMasks)
  | exit (status : Word)
  | exitGroup (status : Word)
  | exec
  | clone
  | reserve (granted : Bool)
  | install (stored : Bool)

/-! ### The pieces of a step -/

def Shared.forcedExitStatus (s : Shared) (t : Nat) : Option Word :=
  if s.forced t = noForcedExit then none else some (s.forced t)

def Shared.requestForcedExit (s : Shared) (t : Nat) (status : Word) (source : Cause) : Shared :=
  if s.forced t = noForcedExit then
    { s with forced := Function.update s.forced t status, markedBy := Function.update s.markedBy t source }
  else s

def Life.hasTask : Life → Bool
  | .inserted | .runnable | .running | .exited => true
  | .unborn | .ready | .dropped => false

def Shared.requestProcessThreadExit (s : Shared) (except : Nat) (status : Word) (source : Cause) : Shared :=
  let marks (u : Nat) : Bool := u != except && (s.life u).hasTask && s.forced u == noForcedExit
  { s with
    forced := fun u => if marks u then status else s.forced u
    markedBy := fun u => if marks u then source else s.markedBy u }

def Shared.setLife (s : Shared) (t : Nat) (life : Life) : Shared := { s with life := Function.update s.life t life }

def Shared.depart (s : Shared) (t : Nat) : Shared := { s with departing := Function.update s.departing t true }

def checkForced (s : Shared) (t : Nat) (otherwise : Phase) : Shared × Phase :=
  match s.forcedExitStatus t with
  | some status => (s.depart t, .leaving status (s.markedBy t))
  | none => (s, otherwise)

def terminate (s : Shared) (t : Nat) (status meant : Word) (cause : Cause) : Shared × Phase :=
  ({ s.depart t with fatal := some meant }, .leaving status cause)

def join (s : Shared) (t : Nat) (granted : Bool) : Shared × Phase :=
  let released := { s with groupLock := none }
  if s.execInProgress || !granted then (released, .epilogue .user)
  else if s.nextId < 2 ^ 64 - 1 then
    ({ released.setLife s.nextId .ready with
        members := s.members ++ [s.nextId]
        nextId := s.nextId + 1
        maker := Function.update s.maker s.nextId t }, .cloning s.nextId)
  else ({ s with panicked := true }, .admissionExec)

def enqueue (s : Shared) (child : Nat) : Shared × Phase :=
  ({ s.setLife child .runnable with schedulerLock := none }, .epilogue .user)

def Frame.next : Frame → Phase
  | .user => .user
  | .kernel status cause => .leaving status cause

def Frame.stores : Frame → Bool → Bool
  | .user, stored => stored
  | .kernel _ _, _ => false

def handlerMasks (masks : SignalMasks) (action : KernelSigAction) (signal : Nat) (stored : Bool) : SignalMasks :=
  let saved := masks.takeSigsuspendSavedMask
  let bit := (signalBit signal).getD 0
  if stored then saved.2.setBlockedSignals ((masks.blocked ||| action.mask ||| bit) &&& ~~~unblockableMask)
  else saved.2.setBlockedSignals (saved.1.getD masks.blocked)

def deliverPendingSignal (s : Shared) (t : Nat) (frame : Frame) (stored : Bool) : Shared × Phase :=
  match s.signals.takeUnblocked (s.masks t).blocked with
  | none => (s, frame.next)
  | some (signal, signals) =>
    let action := (signals.action signal).getD .default
    let restored := { s with
      signals, masks := Function.update s.masks t (s.masks t).restoreSigsuspendMaskWithoutHandler }
    if action.handler = sigDfl then
      if signal = sigchld then (restored, frame.next)
      else terminate restored t (-BitVec.ofNat 64 signal) (-BitVec.ofNat 64 signal) .signal
    else if action.handler = sigIgn then (restored, frame.next)
    else
      let stores := frame.stores stored
      let handled := { s with
        signals, masks := Function.update s.masks t (handlerMasks (s.masks t) action signal stores) }
      if stores then (handled, frame.next) else (handled.depart t, .leaving Errno.efault.result .signal)

def dropThread (s : Shared) (t : Nat) : Shared × Phase :=
  if t ∈ s.members then
    let members := s.members.erase t
    ({ s.setLife t .dropped with
        members
        leader := if s.leader = some t then none else s.leader
        recorded := if members = [] then some (s.exitStatus t) else s.recorded }, .gone)
  else ({ s with panicked := true }, .retired)

/-! ### Steps -/

def dispatch (s : Shared) (t : Nat) (input : Input) : Option (Shared × Phase) :=
  match input with
  | .other signals masks => some ({ s with signals, masks := Function.update s.masks t masks }, .epilogue .user)
  | .exit status => some (s.depart t, .epilogue (.kernel status .exit))
  | .exitGroup status => some ({ s with called := Function.update s.called t true }, .groupEntry status)
  | .exec =>
    if s.groupLock = none then
      if s.execInProgress then some (s, .epilogue .user)
      else some ({ s with execInProgress := true, execOwner := some t }, .execCount)
    else none
  | .clone =>
    if s.groupLock = none then
      if s.leader = none then some (s, .epilogue .user) else some ({ s with groupLock := some t }, .admission)
    else none
  | _ => none

def threadStep (s : Shared) (t : Nat) (k : Phase) (input : Input) : Option (Shared × Phase) :=
  match k, input with
  | .outside, .advance => if s.life t = .runnable then some (s.setLife t .running, .bootstrap) else none
  | .bootstrap, .advance => some (checkForced s t .user)
  | .user, .syscall => some (checkForced s t .dispatch)
  | .user, .interrupt => some (checkForced s t .user)
  | .user, .fault => some (checkForced s t .faulting)
  | .faulting, .resolved => some (s, .user)
  | .faulting, .fatalFault active =>
    some (terminate s t (if active then Errno.efault.result else -BitVec.ofNat 64 sigsegv) (-BitVec.ofNat 64 sigsegv)
      .fault)
  | .faulting, .exception => some (s.depart t, .leaving Errno.efault.result .fault)
  | .dispatch, input => dispatch s t input
  | .admission, .advance =>
    -- `group_exit_status` spins while the status is being published
    match s.groupExit with
    | .none => some (s, .admissionExec)
    | .publishing _ => none
    | .active _ => some ({ s with groupLock := none }, .epilogue .user)
  | .admissionExec, .reserve granted => some (join s t granted)
  | .cloning child, .advance =>
    if s.schedulerLock = none then some ({ s.setLife child .inserted with schedulerLock := some t }, .lateGroup child)
    else none
  | .lateGroup child, .advance =>
    match s.groupExit with
    | .none => some (s, .lateExec child)
    | .publishing _ => none
    | .active status => some (enqueue (s.requestForcedExit child status .groupMark) child)
  | .lateExec child, .advance =>
    some (enqueue (if s.execInProgress then s.requestForcedExit child 0 .execMark else s) child)
  | .groupEntry status, .advance =>
    match s.groupExit with
    | .none => some ({ s with groupExit := .publishing t }, .publishing status)
    | .publishing _ => none
    | .active group => some (s, .groupScan status group false)
  | .publishing status, .advance => some ({ s with groupExit := .active status }, .groupScan status status true)
  | .groupScan status group first, .advance =>
    if s.schedulerLock = none then
      some ({ (s.requestProcessThreadExit t group .groupMark).depart t with groupScanned := true },
        .epilogue (.kernel status (.groupCall first)))
    else none
  | .execCount, .advance =>
    if s.groupLock = none then
      if 1 < s.members.length then some (s, .execScan) else some ({ s with survivor := some t }, .execReplace)
    else none
  | .execScan, .advance =>
    if s.schedulerLock = none then some ({ s.requestProcessThreadExit t 0 .execMark with survivor := some t }, .execWait)
    else none
  | .execWait, .advance => if s.groupLock = none ∧ s.members.length ≤ 1 then some (s, .execReplace) else none
  | .execReplace, .advance => some ({ s with signals := s.signals.resetActionsForExec }, .execFinish)
  | .execFinish, .advance =>
    if s.execInProgress then
      some ({ s with execInProgress := false, execOwner := none, survivor := none }, .epilogue .user)
    else some ({ s with panicked := true }, .execFinish)
  | .epilogue frame, .advance => some (checkForced s t (.deliver frame))
  | .deliver frame, .install stored => some (deliverPendingSignal s t frame stored)
  | .leaving status cause, .advance =>
    some ({ s.setLife t .exited with
      exitStatus := Function.update s.exitStatus t status, cause := Function.update s.cause t cause }, .retired)
  | .retired, .advance => if s.groupLock = none then some (dropThread s t) else none
  | _, _ => none

def worldStep (s : Shared) (k : Phase) (input : Input) : Option (Shared × Phase) :=
  match input with
  | .signal signal =>
    match s.signals.addPending signal with
    | .ok signals => some ({ s with signals }, k)
    | .error _ => none
  | _ => none

def step (s : Shared) (agent : Agent) (k : Phase) (input : Input) : Option (Shared × Phase) :=
  if s.panicked then none
  else
    match agent with
    | .thread t => threadStep s t k input
    | .world => worldStep s k input

def Fresh (s : Shared) : Prop :=
  ∃ t signals masks, s = {
    leader := some t, members := [t], groupLock := none, schedulerLock := none, groupExit := .none, execInProgress := false
    nextId := t + 1, life := Function.update (fun _ => .unborn) t .runnable, forced := fun _ => noForcedExit
    exitStatus := fun _ => 0, signals, masks, recorded := none, panicked := false, maker := fun _ => t
    called := fun _ => false, departing := fun _ => false, markedBy := fun _ => .exit, cause := fun _ => .exit
    groupScanned := false, execOwner := none, survivor := none, fatal := none }

/-- All interleavings of the threads of a process, as far as their steps are allowed. -/
def threads (allowed : Shared → Agent → Phase → Input → Prop) : Threads Shared Agent Phase where
  init := Fresh
  start _ k := k = .outside
  act agent s k s' k' := ∃ input, allowed s agent k input ∧ step s agent k input = some (s', k')

end SudoOS.ThreadGroup
