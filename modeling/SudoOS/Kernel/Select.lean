import SudoOS.Kernel.Signal

/-!
`pselect6`: the files of the requested descriptors are polled once, one after the other, and the sets of those that are
ready are stored. If none is ready the call sleeps for the timeout first.
-/

namespace SudoOS.Select

abbrev FdSet := List (BitVec 8)

abbrev PollEvents := BitVec 16

inductive Condition
  | read
  | write
  | except
deriving DecidableEq

def conditions : List Condition := [.read, .write, .except]

def Condition.mask : Condition → PollEvents
  | .read => 0x0001 ||| 0x0010 ||| 0x0008
  | .write => 0x0004 ||| 0x0008
  | .except => 0x0002 ||| 0x0008

def fdIsSet (bytes : FdSet) (fd : Nat) : Bool :=
  match bytes[fd / 8]? with
  | some byte => byte &&& ((1 : BitVec 8) <<< (fd % 8)) != 0
  | none => false

def setFdBit (bytes : FdSet) (fd : Nat) : FdSet := bytes.modify (fd / 8) (· ||| ((1 : BitVec 8) <<< (fd % 8)))

/-- The descriptors that have a file, and what each poll of one finds at the time it is made. -/
structure Files where
  isOpen : Nat → Bool
  poll : Nat → PollEvents → PollEvents

inductive SelectError
  | einval
  | efault
  | ebadf
deriving DecidableEq

structure Scan where
  out : Condition → FdSet
  ready : Nat

section
variable (files : Files) (sets : Condition → FdSet)

def found (fd : Nat) (c : Condition) : Bool := fdIsSet (sets c) fd && files.poll fd c.mask &&& c.mask != 0

def mark (fd : Nat) (out : Condition → FdSet) (c : Condition) : Condition → FdSet :=
  if found files sets fd c then Function.update out c (setFdBit (out c) fd) else out

def scanFd (scan : Scan) (fd : Nat) : Except SelectError Scan :=
  if conditions.any (fun c => fdIsSet (sets c) fd) then
    if files.isOpen fd then
      .ok ⟨conditions.foldl (mark files sets fd) scan.out,
        if conditions.any (found files sets fd) then scan.ready + 1 else scan.ready⟩
    else .error .ebadf
  else .ok scan

end

structure KernelTimespec where
  sec : Word
  nsec : Word
deriving DecidableEq

def KernelTimespec.Valid (t : KernelTimespec) : Prop :=
  ¬(t.sec.toInt < 0 ∨ t.nsec.toInt < 0 ∨ t.nsec.toInt ≥ 1000000000)

instance (t : KernelTimespec) : Decidable t.Valid := inferInstanceAs (Decidable (¬_))

structure Call where
  nfds : Word
  address : Condition → Nat
  timeout : Nat

def copyFdsetFromUser (memory : UserMemory) (address length : Nat) : Option FdSet :=
  if address = 0 then some (List.replicate length 0) else memory.copyFromUser address length

def copyFdsetToUser (memory : UserMemory) (address : Nat) (input : FdSet) : Option UserMemory :=
  if address = 0 then some memory else memory.copyToUser address input

def copySets (memory : UserMemory) (call : Call) (length : Nat) : Option (Condition → FdSet) := do
  let readfds ← copyFdsetFromUser memory (call.address .read) length
  let writefds ← copyFdsetFromUser memory (call.address .write) length
  let exceptfds ← copyFdsetFromUser memory (call.address .except) length
  return fun
    | .read => readfds
    | .write => writefds
    | .except => exceptfds

def storeSets (memory : UserMemory) (call : Call) (out : Condition → FdSet) : Option UserMemory :=
  conditions.foldlM (fun memory c => copyFdsetToUser memory (call.address c) (out c)) memory

def sysNanosleep (memory : UserMemory) (address : Nat) : Except SelectError KernelTimespec :=
  match memory.copyFromUser address 16 with
  | none => .error .efault
  | some bytes =>
    let request : KernelTimespec :=
      ⟨BitVec.ofNat 64 (LittleEndian.value (bytes.take 8)), BitVec.ofNat 64 (LittleEndian.value (bytes.drop 8))⟩
    if request.Valid then .ok request else .error .einval

/-- What a call returns and leaves: the sets it has read and those it stores, and how long it has slept. -/
structure Selected where
  sets : Condition → FdSet
  out : Condition → FdSet
  ready : Nat
  slept : Option KernelTimespec
  memory : UserMemory

end SudoOS.Select
