import SudoOS.Lib.Threads
import SudoOS.Kernel.Smp

/-!
Inter-processor interrupts. Any number of senders publish messages into the mailbox of a CPU and ring its doorbell, the
pending bit of its software interrupt; the handler of the CPU clears the doorbell and drains the mailbox. Each access to a
shared word is one step.
-/

namespace SudoOS

def IpiMessage.requiresFreshDoorbell : IpiMessage → Bool
  | reschedule => false
  | tlbShootdown | callFunction => true

def IpiMailbox.messages (mailbox : IpiMailbox) : List IpiMessage :=
  [.tlbShootdown, .callFunction, .reschedule].filter fun message => mailbox message

namespace Ipi

structure Shared where
  mailboxes : Nat → IpiMailbox
  doorbells : Nat → Bool
  handled : List (Nat × IpiMessage)
  panicked : Bool

inductive Agent
  | sender (task : Nat)
  | receiver (cpu : Nat)
deriving DecidableEq

inductive Phase
  | idle
  | ringing (cpu : Nat)
  | quiet
  | acknowledging
  | draining
  | handling (rest : List IpiMessage)
deriving DecidableEq

inductive Input
  | send (cpu : Nat) (message : IpiMessage) (ready : Bool)
  | ring (ok : Bool)
  | interrupt
  | advance

def Shared.setMailbox (s : Shared) (cpu : Nat) (mailbox : IpiMailbox) : Shared :=
  { s with mailboxes := Function.update s.mailboxes cpu mailbox }

def Shared.setDoorbell (s : Shared) (cpu : Nat) (pending : Bool) : Shared :=
  { s with doorbells := Function.update s.doorbells cpu pending }

def ringsDoorbell (mailbox : IpiMailbox) (message : IpiMessage) : Bool :=
  mailbox.isEmpty || message.requiresFreshDoorbell

def senderStep (s : Shared) : Phase → Input → Option (Shared × Phase)
  | .idle, .send cpu message ready =>
    if ready then
      some (s.setMailbox cpu ((s.mailboxes cpu).publish message),
        if ringsDoorbell (s.mailboxes cpu) message then .ringing cpu else .idle)
    else some ({ s with panicked := true }, .idle)
  | .ringing cpu, .ring ok =>
    if ok then some (s.setDoorbell cpu true, .idle) else some ({ s with panicked := true }, .ringing cpu)
  | _, _ => none

def receiverStep (s : Shared) (cpu : Nat) : Phase → Input → Option (Shared × Phase)
  | .quiet, .interrupt => if s.doorbells cpu then some (s, .acknowledging) else none
  | .acknowledging, .advance => some (s.setDoorbell cpu false, .draining)
  | .draining, .advance =>
    if (s.mailboxes cpu).isEmpty then some (s, .quiet)
    else some (s.setMailbox cpu .empty, .handling (s.mailboxes cpu).messages)
  | .handling (message :: rest), .advance => some ({ s with handled := (cpu, message) :: s.handled }, .handling rest)
  | .handling [], .advance => some (s, .draining)
  | _, _ => none

def step (s : Shared) (agent : Agent) (k : Phase) (input : Input) : Option (Shared × Phase) :=
  if s.panicked then none
  else
    match agent with
    | .sender _ => senderStep s k input
    | .receiver cpu => receiverStep s cpu k input

def Agent.first : Agent → Phase
  | sender _ => .idle
  | receiver _ => .quiet

/-- All interleavings, from empty mailboxes; a doorbell may be left over from before. -/
def threads : Threads Shared Agent Phase where
  init s := (∀ cpu, s.mailboxes cpu = .empty) ∧ s.handled = [] ∧ s.panicked = false
  start i k := k = i.first
  act i s k s' k' := ∃ input, step s i k input = some (s', k')

end Ipi

end SudoOS
