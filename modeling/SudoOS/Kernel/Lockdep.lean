import Mathlib

/-!
Lock-order checking: the held-lock stack of each CPU, the two kinds of tracked locks that report to it, and the CPUs that
take and release them. `IrqSpinLock` keeps interrupts off from before its check until it is released, `TrackedSpinLock` does
not.
-/

namespace SudoOS

def maxHeldLocks : Nat := 16

inductive LockRank
  | unknown
  | crossCpu
  | timer
  | workQueue
  | scheduler
  | waitQueue
  | process
  | vfs
  | vm
  | pageTable
  | heap
  | pageAllocator
  | console
deriving DecidableEq

def LockRank.toNat : LockRank → Nat
  | unknown => 0
  | crossCpu => 15
  | timer => 16
  | workQueue => 17
  | scheduler => 20
  | waitQueue => 30
  | process => 35
  | vfs => 36
  | vm => 40
  | pageTable => 50
  | heap => 60
  | pageAllocator => 70
  | console => 80

structure LockClass where
  name : String
  rank : LockRank
  order : Nat
deriving DecidableEq

def LockClass.key (c : LockClass) : Nat := c.rank.toNat * 1024 + c.order

structure HeldLock where
  lockClass : LockClass
  instance' : Nat
deriving DecidableEq

inductive LockPanic
  | recursive
  | depthCorrupted
  | recursiveThroughStack
  | orderViolation
  | stackOverflow
  | emptyStack
  | releaseInstance
  | releaseOrder
  | notOuter
deriving DecidableEq

namespace Lockdep

def checkHeld (new : HeldLock) : List HeldLock → Except LockPanic Unit
  | [] => .ok ()
  | held :: rest =>
    if held.instance' = new.instance' then .error .recursiveThroughStack
    else if held.lockClass.rank = .console ∨ new.lockClass.rank = .console then checkHeld new rest
    else if held.lockClass.key ≤ new.lockClass.key then checkHeld new rest
    else .error .orderViolation

def beforeLock (new : HeldLock) (owner : Option Nat) (current : Nat) (stack : List HeldLock) : Except LockPanic Unit :=
  if owner = some current then .error .recursive
  else if maxHeldLocks < stack.length then .error .depthCorrupted
  else checkHeld new stack

def afterLock (new : HeldLock) (stack : List HeldLock) : Except LockPanic (List HeldLock) :=
  if stack.length < maxHeldLocks then .ok (stack ++ [new]) else .error .stackOverflow

def beforeUnlock (lock : HeldLock) (stack : List HeldLock) : Except LockPanic (List HeldLock) :=
  match stack.getLast? with
  | none => .error .emptyStack
  | some held =>
    if held.instance' ≠ lock.instance' then .error .releaseInstance
    else if held.lockClass.name ≠ lock.lockClass.name then .error .releaseOrder
    else .ok stack.dropLast

def assertIrqEnabledOuterLock (c : LockClass) : Except LockPanic Unit :=
  if c.rank.toNat < LockRank.timer.toNat then .ok () else .error .notOuter

/-! ### The CPUs -/

structure LockInfo where
  lockClass : LockClass
  irq : Bool
deriving DecidableEq

inductive Phase
  | running
  | spinning (lock : Nat)
  | acquired (lock : Nat)
deriving DecidableEq

structure Context where
  guards : List Nat
  phase : Phase
deriving DecidableEq

structure CpuLocks where
  stack : List HeldLock
  current : Context
  interrupted : List Context
deriving DecidableEq

structure LockSystem where
  cpus : Nat → CpuLocks
  holder : Nat → Option Nat
  owner : Nat → Option Nat

inductive LockOp
  | lock (cpu lock : Nat)
  | tryLock (cpu lock : Nat)
  | acquire (cpu : Nat)
  | record (cpu : Nat)
  | unlock (cpu lock : Nat)
  | interrupt (cpu : Nat)
  | interruptReturn (cpu : Nat)
deriving DecidableEq

section
variable (locks : Nat → LockInfo)

def heldLock (lock : Nat) : HeldLock := ⟨(locks lock).lockClass, lock⟩

def Context.masked (c : Context) : Bool :=
  c.guards.any (fun lock => (locks lock).irq) ||
    match c.phase with
    | .running => false
    | .spinning lock | .acquired lock => (locks lock).irq

def LockSystem.putCpu (s : LockSystem) (cpu : Nat) (state : CpuLocks) : LockSystem :=
  { s with cpus := Function.update s.cpus cpu state }

def LockSystem.setPhase (s : LockSystem) (cpu : Nat) (phase : Phase) : LockSystem :=
  s.putCpu cpu { s.cpus cpu with current := { (s.cpus cpu).current with phase := phase } }

def mayLock (s : LockSystem) (cpu lock : Nat) : Bool :=
  (s.cpus cpu).current.phase = .running &&
    ((locks lock).irq || ((s.cpus cpu).interrupted.isEmpty && !(s.cpus cpu).current.masked locks &&
      (assertIrqEnabledOuterLock (locks lock).lockClass).toBool)) &&
    (beforeLock (heldLock locks lock) (s.owner lock) cpu (s.cpus cpu).stack).toBool

/-- One step of a CPU, or `none` if it cannot be taken now or panics. -/
def LockSystem.step (s : LockSystem) : LockOp → Option LockSystem
  | .lock cpu lock => if mayLock locks s cpu lock then some (s.setPhase cpu (.spinning lock)) else none
  | .tryLock cpu lock =>
    if s.owner lock = some cpu ∧ (s.cpus cpu).current.phase = .running then some s
    else if mayLock locks s cpu lock then
      if s.holder lock = none then
        some { s.setPhase cpu (.acquired lock) with holder := Function.update s.holder lock (some cpu) }
      else some s
    else none
  | .acquire cpu =>
    match (s.cpus cpu).current.phase with
    | .spinning lock =>
      if s.holder lock = none then
        some { s.setPhase cpu (.acquired lock) with holder := Function.update s.holder lock (some cpu) }
      else none
    | _ => none
  | .record cpu =>
    match (s.cpus cpu).current.phase with
    | .acquired lock =>
      match afterLock (heldLock locks lock) (s.cpus cpu).stack with
      | .ok stack =>
        some { s.putCpu cpu { s.cpus cpu with
            stack := stack
            current := { guards := (s.cpus cpu).current.guards ++ [lock], phase := .running } } with
          owner := Function.update s.owner lock (some cpu) }
      | .error _ => none
    | _ => none
  | .unlock cpu lock =>
    if (s.cpus cpu).current.phase = .running ∧ lock ∈ (s.cpus cpu).current.guards then
      match beforeUnlock (heldLock locks lock) (s.cpus cpu).stack with
      | .ok stack =>
        some { s.putCpu cpu { s.cpus cpu with
            stack := stack
            current := { (s.cpus cpu).current with guards := (s.cpus cpu).current.guards.erase lock } } with
          owner := Function.update s.owner lock none
          holder := Function.update s.holder lock none }
      | .error _ => none
    else none
  | .interrupt cpu =>
    if (s.cpus cpu).current.masked locks then none
    else some (s.putCpu cpu { s.cpus cpu with
      current := { guards := [], phase := .running }
      interrupted := (s.cpus cpu).current :: (s.cpus cpu).interrupted })
  | .interruptReturn cpu =>
    match (s.cpus cpu).interrupted with
    | outer :: rest =>
      if (s.cpus cpu).current = { guards := [], phase := .running } then
        some (s.putCpu cpu { s.cpus cpu with current := outer, interrupted := rest })
      else none
    | [] => none

end

def LockSystem.boot : LockSystem where
  cpus _ := { stack := [], current := { guards := [], phase := .running }, interrupted := [] }
  holder _ := none
  owner _ := none

end Lockdep

end SudoOS
