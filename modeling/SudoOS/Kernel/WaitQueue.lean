import Mathlib

/-!
Wait queues. A queue is the list of the tasks that are linked in it, in the order in which they were linked. Linking, waking
and taking a task off a queue happen under the scheduler lock.
-/

namespace SudoOS

def maxTasks : Nat := 1024

namespace WaitQueue

/-- `link_waiter`; a full queue is a panic. -/
def link (queue : List Nat) (task : Nat) : Option (List Nat) :=
  if queue.length < maxTasks then some (queue ++ [task]) else none

def wakeOne (queue : List Nat) : List Nat := queue.drop 1

def wakeAll (queue : List Nat) : List Nat := queue.drop maxTasks

def wakeTask (queue : List Nat) (task : Nat) : List Nat := queue.erase task

theorem wakeAll_eq_nil {queue : List Nat} (h : queue.length ≤ maxTasks) : wakeAll queue = [] := List.drop_eq_nil_of_le h

theorem length_wakeAll_le (queue : List Nat) : (wakeAll queue).length ≤ queue.length :=
  (List.drop_sublist maxTasks queue).length_le

theorem link_eq_some {queue queue' : List Nat} {task : Nat} :
    link queue task = some queue' ↔ queue.length < maxTasks ∧ queue' = queue ++ [task] := by
  rw [link]
  split_ifs with h
  · simp [h, eq_comm]
  · simp [h]

end WaitQueue

end SudoOS
