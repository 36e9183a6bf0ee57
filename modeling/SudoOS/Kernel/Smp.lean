import Mathlib

/-! The CPUs of the machine and the mailboxes through which they interrupt each other. -/

namespace SudoOS

inductive IpiMessage
  | reschedule
  | tlbShootdown
  | callFunction
deriving DecidableEq

abbrev IpiMailbox := IpiMessage → Bool

namespace IpiMailbox

def empty : IpiMailbox := fun _ => false

def publish (mailbox : IpiMailbox) (message : IpiMessage) : IpiMailbox := Function.update mailbox message true

def isEmpty (mailbox : IpiMailbox) : Bool :=
  !mailbox .reschedule && !mailbox .tlbShootdown && !mailbox .callFunction

end IpiMailbox

end SudoOS
