import SudoOS.Kernel.TrapFrame
import SudoOS.Lib.Threads

/-!
Parents and children. A process keeps its running children and its zombies in two lists behind one lock; `fork` adds to the
first, the drop of a child's last thread moves the child to the second, and `wait4` takes it from there. Each critical
section is one step, and the memory for a list may be refused at any of them.
-/

namespace SudoOS

inductive ProcessError
  | metadataOutOfMemory
  | threadNotFound
deriving DecidableEq

structure ProcessRelations where
  parent : Option Nat
  children : List Nat
  zombieChildren : List (Nat × Int)
deriving DecidableEq

namespace ProcessRelations

def new : ProcessRelations := ⟨none, [], []⟩

def isRequested (requested : Int) (id : Nat) : Bool := requested == -1 || requested == (BitVec.ofNat 64 id).toInt

def addChild (r : ProcessRelations) (child : Nat) (reserve : Bool) : Except ProcessError ProcessRelations :=
  if reserve then .ok { r with children := r.children ++ [child] } else .error .metadataOutOfMemory

def markChildZombie (r : ProcessRelations) (child : Nat) (status : Int) (reserve : Bool) :
    Except ProcessError Unit × ProcessRelations :=
  if child ∈ r.children then
    let removed := { r with children := r.children.erase child }
    if reserve then (.ok (), { removed with zombieChildren := r.zombieChildren ++ [(child, status)] })
    else (.error .metadataOutOfMemory, removed)
  else (.error .threadNotFound, r)

def waitZombieChild (r : ProcessRelations) (requested : Int) : Option (Nat × Int) × ProcessRelations :=
  (r.zombieChildren.find? (isRequested requested ·.1),
    { r with zombieChildren := r.zombieChildren.eraseP (isRequested requested ·.1) })

def hasZombieChild (r : ProcessRelations) (requested : Int) : Bool := r.zombieChildren.any (isRequested requested ·.1)

def hasChild (r : ProcessRelations) (requested : Int) : Bool :=
  r.children.any (isRequested requested) || r.hasZombieChild requested

end ProcessRelations

/-! ### The arguments and the results of `wait4` -/

structure Wait4 where
  pid : Word
  statusAddress : Word
  options : Word
  rusageAddress : Word
deriving DecidableEq

namespace Wait4

def wnohang : Word := 1

def knownOptions : Word := 0x1 ||| 0x2 ||| 0x8 ||| 0x20000000 ||| 0x40000000 ||| 0x80000000

def requested (call : Wait4) : Int := if call.pid = 0 ∨ call.pid = BitVec.allOnes 64 then -1 else call.pid.toInt

def encodeStatus (active : Bool) (raw : Int) : BitVec 32 :=
  if active then BitVec.ofInt 32 raw
  else if raw < 0 then BitVec.ofInt 32 (-raw) &&& 0x7f
  else (BitVec.ofInt 32 raw &&& 0xff) <<< 8

end Wait4

inductive Ending
  | exit (code : Word)
  | signal (bit : Fin 64)
  | fault
  | exception
  | lostFrame
deriving DecidableEq

def Ending.status : Ending → Int
  | exit code => code.toInt
  | signal bit => -(bit.val + 1 : Nat)
  | fault => -11
  | exception | lostFrame => -14

inductive WaitResult
  | reaped (child : Nat)
  | nothing
  | eintr
  | echild
  | efault
  | einval
deriving DecidableEq

/-! ### Threads of all processes -/

namespace Family

structure Entry where
  relations : ProcessRelations
  members : Nat
  spawned : Nat
deriving DecidableEq

structure Shared where
  nextId : Nat
  registry : Nat → Option Entry
  maker : Nat → Nat
  forked : List (Nat × Nat)
  reaped : List (Nat × Nat)
  panicked : Bool

inductive Phase
  | unborn
  | user (p : Nat)
  | forking (p child : Nat)
  | starting (p child : Nat)
  | waiting (p : Nat) (call : Wait4)
  | checking (p : Nat) (call : Wait4)
  | interruptible (p : Nat) (call : Wait4)
  | blocking (p : Nat) (call : Wait4)
  | asleep (p : Nat) (call : Wait4)
  | reporting (p : Nat) (call : Wait4) (child : Nat) (raw : Int)
  | reportingUsage (p : Nat) (call : Wait4) (child : Nat) (status : Option (BitVec 32))
  | returned (p : Nat) (call : Wait4) (status : Option (BitVec 32)) (result : WaitResult)
  | retired (p : Nat) (status : Int)
  | dropping (p : Nat) (status : Int)
  | dropped
deriving DecidableEq

inductive Input
  | boot
  | run (p : Nat)
  | discard (p : Nat)
  | fork (copied : Bool)
  | clone (admitted : Bool)
  | exit (status : Int)
  | wait (call : Wait4)
  | advance
  | reserve (granted : Bool)
  | interrupted
  | fault
  | active
deriving DecidableEq

def Shared.put (s : Shared) (p : Nat) (entry : Entry) : Shared :=
  { s with registry := Function.update s.registry p (some entry) }

theorem Shared.put_registry_self (s : Shared) (p : Nat) (entry : Entry) : (s.put p entry).registry p = some entry :=
  Function.update_self _ _ _

theorem Shared.put_registry_of_ne {s : Shared} {p q : Nat} {entry : Entry} (h : q ≠ p) :
    (s.put p entry).registry q = s.registry q := Function.update_of_ne h _ _

def Shared.putRelations (s : Shared) (p : Nat) (entry : Entry) (relations : ProcessRelations) : Shared :=
  s.put p { entry with relations }

/-- `allocate_process_id` and `register_process`; running out of identifiers is a panic. -/
def create (s : Shared) (i : Nat) (entry : Entry) : Option (Shared × Nat) :=
  if s.nextId < 2 ^ 64 - 1 then
    some ({ s.put s.nextId entry with nextId := s.nextId + 1, maker := Function.update s.maker s.nextId i }, s.nextId)
  else none

def boot (s : Shared) (i : Nat) : Shared × Phase :=
  match create s i ⟨.new, 1, 0⟩ with
  | some (s, p) => (s, .user p)
  | none => ({ s with panicked := true }, .unborn)

def discardable (s : Shared) (p : Nat) : Bool :=
  match s.registry p with
  | none => false
  | some entry =>
    entry.members == 0 && (List.range s.nextId).all fun q =>
      match s.registry q with
      | none => true
      | some holder => !(holder.relations.children.contains p || holder.relations.zombieChildren.any (·.1 == p))

def fork (s : Shared) (i p : Nat) (copied : Bool) : Shared × Phase :=
  match create s i ⟨⟨some p, [], []⟩, 0, 0⟩ with
  | none => ({ s with panicked := true }, .user p)
  | some (s', child) =>
    if copied then (s', .forking p child)
    else ({ s' with registry := Function.update s'.registry child none }, .user p)

def addChild (s : Shared) (p child : Nat) (entry : Entry) (granted : Bool) : Shared × Phase :=
  match entry.relations.addChild child granted with
  | .ok relations => ({ s.putRelations p entry relations with forked := s.forked ++ [(p, child)] }, .starting p child)
  | .error _ => ({ s with registry := Function.update s.registry child none }, .user p)

def createInitialThread (s : Shared) (p child : Nat) (granted : Bool) : Shared × Phase :=
  match s.registry child with
  | some entry => if granted then (s.put child { entry with members := 1, spawned := 1 }, .user p) else (s, .user p)
  | none => (s, .user p)

def createThread (s : Shared) (p : Nat) (entry : Entry) (admitted : Bool) : Shared × Phase :=
  if !admitted then (s, .user p)
  else if s.nextId < 2 ^ 64 - 1 then
    ({ s.put p { entry with members := entry.members + 1, spawned := entry.spawned + 1 } with nextId := s.nextId + 1 },
      .user p)
  else ({ s with panicked := true }, .user p)

def waitZombieChild (s : Shared) (i p : Nat) (entry : Entry) (call : Wait4) : Shared × Phase :=
  match entry.relations.waitZombieChild call.requested with
  | (some (child, raw), relations) =>
    ({ s.putRelations p entry relations with reaped := s.reaped ++ [(i, child)] }, .reporting p call child raw)
  | (none, _) => (s, .checking p call)

def hasChild (entry : Entry) (p : Nat) (call : Wait4) : Phase :=
  if !entry.relations.hasChild call.requested then .returned p call none .echild
  else if call.options &&& Wait4.wnohang ≠ 0 then .returned p call none .nothing
  else .interruptible p call

def block (entry : Entry) (p : Nat) (call : Wait4) : Phase :=
  if !entry.relations.hasZombieChild call.requested && entry.relations.hasChild call.requested then .asleep p call
  else .waiting p call

def detach (s : Shared) (p : Nat) (entry : Entry) (status : Int) : Shared × Phase :=
  (s.put p { entry with members := entry.members - 1 }, if entry.members = 1 then .dropping p status else .dropped)

def notifyParent (s : Shared) (p : Nat) (entry : Entry) (status : Int) (granted : Bool) : Shared :=
  match entry.relations.parent with
  | none => s
  | some q =>
    match s.registry q with
    | none => s
    | some parent => s.putRelations q parent (parent.relations.markChildZombie p status granted).2

def report (s : Shared) (p : Nat) (call : Wait4) (child : Nat) (raw : Int) : Shared × Phase :=
  if call.statusAddress = 0 then (s, .reportingUsage p call child none)
  else if raw = -2 ^ 63 then ({ s with panicked := true }, .reporting p call child raw)
  else (s, .reportingUsage p call child (some (Wait4.encodeStatus false raw)))

def enterWait (p : Nat) (call : Wait4) : Phase :=
  if call.options &&& ~~~Wait4.knownOptions ≠ 0 then .returned p call none .einval else .waiting p call

def memberStep (s : Shared) (i p : Nat) (entry : Entry) (k : Phase) (input : Input) : Option (Shared × Phase) :=
  match k, input with
  | .user _, .fork copied => some (fork s i p copied)
  | .forking _ child, .reserve granted => some (addChild s p child entry granted)
  | .starting _ child, .reserve granted => some (createInitialThread s p child granted)
  | .user _, .clone admitted => some (createThread s p entry admitted)
  | .user _, .wait call => some (s, enterWait p call)
  | .waiting _ call, .advance => some (waitZombieChild s i p entry call)
  | .checking _ call, .advance => some (s, hasChild entry p call)
  | .interruptible _ call, .interrupted => some (s, .returned p call none .eintr)
  | .interruptible _ call, .advance => some (s, .blocking p call)
  | .blocking _ call, .advance => some (s, block entry p call)
  -- whoever wakes the task, it looks again
  | .asleep _ call, .advance => some (s, .waiting p call)
  | .reporting _ call child raw, .advance => some (report s p call child raw)
  | .reporting _ call child raw, .active =>
    some (s, .reportingUsage p call child (if call.statusAddress = 0 then none else some (Wait4.encodeStatus true raw)))
  | .reporting _ call _ _, .fault => if call.statusAddress = 0 then none else some (s, .returned p call none .efault)
  | .reportingUsage _ call child status, .advance => some (s, .returned p call status (.reaped child))
  | .reportingUsage _ call _ status, .fault =>
    if call.rusageAddress = 0 then none else some (s, .returned p call status .efault)
  | .returned _ _ _ _, .advance => some (s, .user p)
  | .user _, .exit status => some (s, .retired p status)
  | .retired _ status, .advance => some (detach s p entry status)
  | .dropping _ status, .reserve granted => some (notifyParent s p entry status granted, .dropped)
  | _, _ => none

def Phase.process : Phase → Option Nat
  | .unborn | .dropped => none
  | .user p | .forking p _ | .starting p _ | .waiting p _ | .checking p _ | .interruptible p _ | .blocking p _ | .asleep p _
  | .reporting p _ _ _ | .reportingUsage p _ _ _ | .returned p _ _ _ | .retired p _ | .dropping p _ => some p

def kernelStep (s : Shared) (i : Nat) (input : Input) : Option (Shared × Phase) :=
  match input with
  | .boot => some (boot s i)
  | .run p =>
    match s.registry p with
    | some entry =>
      if 0 < entry.spawned then some (s.put p { entry with spawned := entry.spawned - 1 }, .user p) else none
    | none => none
  | .discard p =>
    if discardable s p then some ({ s with registry := Function.update s.registry p none }, .unborn) else none
  | _ => none

def step (s : Shared) (i : Nat) (k : Phase) (input : Input) : Option (Shared × Phase) :=
  if s.panicked then none
  else
    match k.process with
    | some p =>
      match s.registry p with
      | some entry => memberStep s i p entry k input
      | none => none
    | none => if k = .unborn then kernelStep s i input else none

def threads (allowed : Phase → Input → Prop) : Threads Shared Nat Phase where
  init s := s = ⟨1, fun _ => none, s.maker, [], [], false⟩
  start _ k := k = .unborn
  act i s k s' k' := ∃ input, allowed k input ∧ step s i k input = some (s', k')

end Family

end SudoOS
