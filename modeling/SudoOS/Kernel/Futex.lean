import SudoOS.Kernel.Signal
import SudoOS.Lib.TransitionSystem

/-!
Futexes: the table of their queues with the calls that use it, and the words that a thread still owns when it exits. Each
section under a lock is one step.
-/

namespace SudoOS.Futex

/-! ### The table of queues -/

abbrev Key := Nat × Nat

structure FutexQueue where
  wakeSequence : Nat
  waiters : List Nat

abbrev Queues := List (Key × FutexQueue)

def getFutexQueueByKey (queues : Queues) (key : Key) : Queues :=
  if queues.any (·.1 == key) then queues else queues ++ [(key, ⟨0, []⟩)]

def onQueue (key : Key) (f : FutexQueue → FutexQueue) (queues : Queues) : Queues :=
  queues.map fun entry => if entry.1 = key then (entry.1, f entry.2) else entry

def find (queues : Queues) (key : Key) : FutexQueue := ((queues.find? (·.1 == key)).map Prod.snd).getD ⟨0, []⟩

inductive Stage
  | checking (sequence : Nat)
  | blocked
  | waking (left : Nat)
deriving DecidableEq

structure Call where
  tid : Nat
  key : Key
  stage : Stage
deriving DecidableEq

structure State where
  queues : Queues
  calls : List Call
  used : List Key

inductive Event
  | wait (tid : Nat) (key : Key)
  | block (tid : Nat)
  | leave (tid : Nat)
  | wake (tid : Nat) (key : Key) (count : Nat)
  | wakeOne (tid : Nat)

namespace State

def callOf (s : State) (tid : Nat) : Option Call := s.calls.find? (·.tid == tid)

def finish (s : State) (tid : Nat) : List Call := s.calls.filter (·.tid != tid)

def setStage (s : State) (tid : Nat) (stage : Stage) : List Call :=
  s.calls.map fun call => if call.tid = tid then { call with stage } else call

def step (s : State) : Event → Option State
  | .wait tid key =>
    if (s.callOf tid).isSome then none
    else
      let queues := getFutexQueueByKey s.queues key
      some ⟨queues, ⟨tid, key, .checking (find queues key).wakeSequence⟩ :: s.calls, key :: s.used⟩
  | .block tid =>
    match s.callOf tid with
    | some ⟨_, key, .checking sequence⟩ =>
      if (find s.queues key).wakeSequence = sequence then
        some { s with
          queues := onQueue key (fun q => { q with waiters := q.waiters ++ [tid] }) s.queues,
          calls := s.setStage tid .blocked }
      else some { s with calls := s.finish tid }
    | _ => none
  | .leave tid =>
    match s.callOf tid with
    | some ⟨_, key, .checking _⟩ | some ⟨_, key, .blocked⟩ =>
      some { s with
        queues := onQueue key (fun q => { q with waiters := q.waiters.erase tid }) s.queues, calls := s.finish tid }
    | _ => none
  | .wake tid key count =>
    if (s.callOf tid).isSome then none
    else
      let queues := getFutexQueueByKey s.queues key
      let bump (q : FutexQueue) : FutexQueue :=
        if count = 0 then q else { q with wakeSequence := (q.wakeSequence + 1) % 2 ^ 64 }
      some ⟨onQueue key bump queues, ⟨tid, key, .waking count⟩ :: s.calls, key :: s.used⟩
  | .wakeOne tid =>
    match s.callOf tid with
    | some ⟨_, key, .waking left⟩ =>
      if left = 0 ∨ (find s.queues key).waiters = [] then some { s with calls := s.finish tid }
      else
        some { s with
          queues := onQueue key (fun q => { q with waiters := q.waiters.tail }) s.queues
          calls := s.setStage tid (.waking (left - 1)) }
    | _ => none

end State

/-! ### Robust futexes -/

def futexWaiters : Nat := 0x80000000
def futexOwnerDied : Nat := 0x40000000
def futexTidMask : Nat := 0x3fffffff
def maxRobustNodes : Nat := 256

def readNumber (memory : UserMemory) (size address : Nat) : Option Nat :=
  (memory.copyFromUser address size).map LittleEndian.value

structure Cleanup where
  memory : UserMemory
  wakeAddrs : List Nat := []
  visited : List Nat := []
  marked : List Nat := []

def futexAddress (offset node : Nat) : Option Nat :=
  if offset < 2 ^ 63 then checkedAdd node offset else checkedSub node (2 ^ 64 - offset)

def deadWord (word : Nat) : Nat := (word &&& futexWaiters) ||| futexOwnerDied

def Cleanup.mark (head offset tid : Nat) (s : Cleanup) (node : Nat) : Cleanup :=
  let s := { s with visited := s.visited ++ [node] }
  if node = 0 ∨ node = head then s
  else
    match futexAddress offset node with
    | none => s
    | some address =>
      match readNumber s.memory 4 address with
      | none => s
      | some word =>
        if word &&& futexTidMask ≠ tid % 2 ^ 32 then s
        else
          match s.memory.copyToUser address (LittleEndian.bytes 4 (deadWord word)) with
          | none => s
          | some memory =>
            { s with
              memory
              wakeAddrs := if s.wakeAddrs.length < maxRobustNodes then s.wakeAddrs ++ [address] else s.wakeAddrs
              marked := s.marked ++ [address] }

def Cleanup.walk (head offset tid : Nat) : (count node : Nat) → Cleanup → Cleanup
  | 0, _, s => s
  | count + 1, node, s =>
    if node = 0 ∨ node = head then s
    else
      let s := s.mark head offset tid node
      match readNumber s.memory 8 node with
      | none => s
      | some next => walk head offset tid count next s

def robustPending (memory : UserMemory) (head : Nat) : Nat :=
  (readNumber memory 8 (min (head + 16) (usizeLimit - 1))).getD 0

/-- The addresses that are left in `wakeAddrs` are woken one by one. -/
def cleanupRobustListOnExit (memory : UserMemory) (head tid : Nat) : Cleanup :=
  if head = 0 then { memory }
  else
    match readNumber memory 8 head, readNumber memory 8 (min (head + 8) (usizeLimit - 1)) with
    | some first, some offset =>
      let s := Cleanup.walk head offset tid maxRobustNodes first { memory }
      if robustPending memory head ≠ 0 then s.mark head offset tid (robustPending memory head) else s
    | _, _ => { memory }

end SudoOS.Futex
