import SudoOS.Kernel.WaitQueue
import SudoOS.Lib.Threads

/-!
Counted completions. Every access to an atomic is one step; so are waking a queue and the decision to block, which evaluates
its condition and enters the queue under the scheduler lock. The clock, the moment a timer expires and spurious failures of
a weak exchange are choices of the environment.
-/

namespace SudoOS

/-- The count that stands for `complete_all`: `usize::MAX / 2`. -/
def completionAll : Nat := (2 ^ 64 - 1) / 2

inductive WaitOutcome
  | satisfied
  | timedOut
deriving DecidableEq

inductive TimeoutState
  | waiting
  | fired
  | cancelled
deriving DecidableEq

namespace Completion

/-- A call of `wait` or `wait_timeout`. The last two fields record whether it was made after `complete_all` and whether it
has taken a token. -/
structure Wait where
  timed : Bool
  afterAll : Bool
  consumed : Bool
deriving DecidableEq

structure Shared where
  done : Nat
  waiters : List Nat
  timeout : Nat → TimeoutState
  armed : Nat → Bool
  running : Nat → Bool
  completes : Nat
  successes : Nat
  taken : Nat
  all : Bool
  panicked : Bool

inductive Agent
  | task (i : Nat)
  | callback (i : Nat)
deriving DecidableEq

inductive Phase
  | idle
  | loading (w : Wait) (last : Bool)
  | swapping (w : Wait) (last : Bool) (seen : Nat)
  | checking (w : Wait)
  | blocking (w : Wait)
  | asleep (w : Wait)
  | entering (w : Wait)
  | clock (w : Wait)
  | expired (w : Wait)
  | arming (w : Wait)
  | polling (w : Wait)
  | pollingState (w : Wait)
  | pollingLast (w : Wait)
  | cancelling (w : Wait) (outcome : WaitOutcome)
  | syncing (w : Wait) (outcome : WaitOutcome)
  | closing (w : Wait) (outcome : WaitOutcome)
  | closingState (w : Wait) (outcome : WaitOutcome)
  | returned (w : Wait) (outcome : WaitOutcome)
  | wakingOne
  | wakingAll
  | firing
  | wakingTask
deriving DecidableEq

inductive Input
  | start (timed : Bool)
  | complete
  | completeAll
  | advance
  | spurious
  | late
  | armFails
deriving DecidableEq

def afterFailure (w : Wait) (last : Bool) : Phase :=
  if last then .returned w .timedOut else if w.timed then .entering w else .checking w

def afterWaiting (w : Wait) : WaitOutcome → Phase
  | .satisfied => .loading w false
  | .timedOut => .loading w true

def Shared.isDone (s : Shared) : Bool := s.done != 0

def Shared.succeed (s : Shared) : Shared := { s with successes := s.successes + 1 }

def tryWait (s : Shared) (w : Wait) (last : Bool) : Shared × Phase :=
  if s.done = 0 then (s, afterFailure w last)
  else if s.done = completionAll then (s.succeed, .returned w .satisfied)
  else if s.done < completionAll then (s, .swapping w last s.done)
  else ({ s with panicked := true }, .loading w last)

def swap (s : Shared) (w : Wait) (last : Bool) (seen : Nat) : Shared × Phase :=
  if s.done = seen then
    ({ s.succeed with done := seen - 1, taken := s.taken + 1 }, .returned { w with consumed := true } .satisfied)
  else (s, .loading w last)

def block (s : Shared) (i : Nat) (w : Wait) : Shared × Phase :=
  if !s.isDone && (!w.timed || s.timeout i == .waiting) then
    match WaitQueue.link s.waiters i with
    | some waiters => ({ s with waiters }, .asleep w)
    | none => ({ s with panicked := true }, .blocking w)
  else (s, if w.timed then .polling w else .loading w false)

def complete (s : Shared) : Shared × Phase :=
  if s.done = completionAll then ({ s with completes := s.completes + 1 }, .wakingOne)
  else if s.done + 1 < completionAll then ({ s with done := s.done + 1, completes := s.completes + 1 }, .wakingOne)
  else ({ s with panicked := true }, .idle)

def taskStep (s : Shared) (i : Nat) (k : Phase) (input : Input) : Option (Shared × Phase) :=
  match k, input with
  | .idle, .start timed => some (s, .loading ⟨timed, s.all, false⟩ false)
  | .idle, .complete => some (complete s)
  | .idle, .completeAll => some ({ s with done := completionAll, all := true }, .wakingAll)
  | .wakingOne, .advance => some ({ s with waiters := WaitQueue.wakeOne s.waiters }, .idle)
  | .wakingAll, .advance => some ({ s with waiters := WaitQueue.wakeAll s.waiters }, .idle)
  | .loading w last, .advance => some (tryWait s w last)
  | .swapping w last seen, .advance => some (swap s w last seen)
  | .swapping w last _, .spurious => some (s, .loading w last)
  | .checking w, .advance => some (s, if s.isDone then .loading w false else .blocking w)
  | .blocking w, .advance => some (block s i w)
  | .asleep w, .advance =>
    if i ∈ s.waiters then none else some (s, if w.timed then .polling w else .checking w)
  | .entering w, .advance => some (s, if s.isDone then .loading w false else .clock w)
  | .clock w, .late => some (s, .expired w)
  | .clock w, .advance => some (s, .arming w)
  | .expired w, .advance => some (s, afterWaiting w (if s.isDone then .satisfied else .timedOut))
  | .arming w, .advance =>
    some ({ s with timeout := Function.update s.timeout i .waiting, armed := Function.update s.armed i true }, .polling w)
  | .arming w, .armFails => some ({ s with panicked := true }, .arming w)
  | .polling w, .advance => some (s, if s.isDone then .cancelling w .satisfied else .pollingState w)
  | .pollingState w, .advance => some (s, if s.timeout i = .fired then .pollingLast w else .blocking w)
  | .pollingLast w, .advance => some (s, .cancelling w (if s.isDone then .satisfied else .timedOut))
  | .cancelling w outcome, .advance =>
    some (if outcome = .satisfied ∧ s.timeout i = .waiting then
        { s with timeout := Function.update s.timeout i .cancelled } else s, .syncing w outcome)
  -- `cancel_sync` goes on when the callback is not running
  | .syncing w outcome, .advance =>
    if s.running i then none else some ({ s with armed := Function.update s.armed i false }, .closing w outcome)
  | .closing w outcome, .advance =>
    some (s, if s.isDone then afterWaiting w .satisfied else .closingState w outcome)
  | .closingState w outcome, .advance => some (s, afterWaiting w (if s.timeout i = .fired then .timedOut else outcome))
  | .returned _ _, .advance => some (s, .idle)
  | _, _ => none

def callbackStep (s : Shared) (i : Nat) (k : Phase) (input : Input) : Option (Shared × Phase) :=
  match k, input with
  | .idle, .advance =>
    if s.armed i && !s.running i then
      some ({ s with armed := Function.update s.armed i false, running := Function.update s.running i true }, .firing)
    else none
  | .firing, .advance =>
    if s.timeout i = .waiting then some ({ s with timeout := Function.update s.timeout i .fired }, .wakingTask)
    else some ({ s with running := Function.update s.running i false }, .idle)
  | .wakingTask, .advance =>
    some ({ s with waiters := WaitQueue.wakeTask s.waiters i, running := Function.update s.running i false }, .idle)
  | _, _ => none

def step (s : Shared) (agent : Agent) (k : Phase) (input : Input) : Option (Shared × Phase) :=
  if s.panicked then none
  else
    match agent with
    | .task i => taskStep s i k input
    | .callback i => callbackStep s i k input

/-- All interleavings of any number of waiters, completers and timer callbacks on one completion. -/
def threads : Threads Shared Agent Phase where
  init s := s = ⟨0, [], s.timeout, fun _ => false, fun _ => false, 0, 0, 0, false, false⟩
  start _ k := k = .idle
  act agent s k s' k' := ∃ input, step s agent k input = some (s', k')

end Completion

end SudoOS
