import SudoOS.Kernel.Lockdep

/-!
The buffer locks of a pseudo-terminal pair. A call is the sequence of its takes and drops of the two locks; a `read` that
waits looks at its buffer again and again, each time under the lock, and each time is a call here.
-/

namespace SudoOS

open Lockdep

inductive PtyEnd
  | master
  | slave
deriving DecidableEq

inductive PtyOp
  | read (e : PtyEnd)
  | write (e : PtyEnd)
  | poll (e : PtyEnd)
  | close (e : PtyEnd)
deriving DecidableEq

inductive LockStep
  | take (lock : Nat)
  | drop (lock : Nat)
deriving DecidableEq

namespace Pty

def input : Nat := 0

def output : Nat := 1

def ptyLocks (_ : Nat) : LockInfo := { lockClass := ⟨"devpts.pty", .vfs, 7⟩, irq := true }

def readLock : PtyEnd → Nat
  | .master => output
  | .slave => input

def writeLock : PtyEnd → Nat
  | .master => input
  | .slave => output

end Pty

open Pty

def PtyOp.steps : PtyOp → List LockStep
  | read e => [.take (readLock e), .drop (readLock e)]
  | write e => [.take (writeLock e), .drop (writeLock e)]
  | poll e => [.take (readLock e), .take (writeLock e), .drop (writeLock e), .drop (readLock e)]
  | close _ => []

/-- The locks, and on each CPU the last call with what is left of it. -/
structure PtySystem where
  locks : LockSystem
  op : Nat → PtyOp
  rest : Nat → List LockStep

inductive PtyEvent
  | start (cpu : Nat) (op : PtyOp)
  | advance (cpu : Nat)

namespace PtySystem

def phase (s : PtySystem) (cpu : Nat) : Phase := (s.locks.cpus cpu).current.phase

def step (s : PtySystem) : PtyEvent → Option PtySystem
  | .start cpu op =>
    if s.rest cpu = [] then some { s with op := Function.update s.op cpu op, rest := Function.update s.rest cpu op.steps }
    else none
  | .advance cpu =>
    match s.rest cpu with
    | [] => none
    | .take lock :: rest =>
      match s.phase cpu with
      | .running => (s.locks.step ptyLocks (.lock cpu lock)).map fun locks => { s with locks }
      | .spinning _ => (s.locks.step ptyLocks (.acquire cpu)).map fun locks => { s with locks }
      | .acquired _ =>
        (s.locks.step ptyLocks (.record cpu)).map fun locks => { s with locks, rest := Function.update s.rest cpu rest }
    | .drop lock :: rest =>
      (s.locks.step ptyLocks (.unlock cpu lock)).map fun locks => { s with locks, rest := Function.update s.rest cpu rest }

def boot : PtySystem where
  locks := .boot
  op _ := .close .master
  rest _ := []

end PtySystem

end SudoOS
