import SudoOS.Kernel.UserMm

/-!
`copy_to_user` as its critical sections: the lock of the address space is given up between the check of the range, the pages
that have to be made resident, and the copy itself.
-/

namespace SudoOS

open Program

namespace UserMm

inductive CopyPhase
  | idle
  | populating (address : Nat) (input : List Nat) (page : Nat)
  | storing (address : Nat) (input : List Nat)
deriving DecidableEq

/-- What a critical section leaves behind, where `done` is the phase after a success; an error ends the copy and a panic
leaves nothing. -/
def sectionResult {α : Type} (done : α → CopyPhase) : EStateM.Result UserMmStop UserMmState α →
    Option (UserMmState × CopyPhase)
  | .ok a t => some (t, done a)
  | .error (.error _) t => some (t, .idle)
  | .error (.panic _) _ => none

def beginCopy (address : Nat) (input : List Nat) (s : UserMmState) : Option (UserMmState × CopyPhase) :=
  if input.isEmpty then some (s, .idle)
  else
    sectionResult (fun copied =>
      if copied then .idle
      else
        match checkedAdd address input.length with
        | none => .idle
        | some _ => .populating address input (address - address % pageSize)) (copyIfMapped address input s)

def continueCopy (s : UserMmState) : CopyPhase → Option (UserMmState × CopyPhase)
  | .idle => none
  | .populating address input page =>
    if page < address + input.length then
      sectionResult (fun _ =>
        match checkedAdd page pageSize with
        | none => .idle
        | some next => .populating address input next) (populatePage page s)
    else some (s, .storing address input)
  | .storing address input => sectionResult (fun _ => .idle) (copyResident address input s)

end UserMm

end SudoOS
