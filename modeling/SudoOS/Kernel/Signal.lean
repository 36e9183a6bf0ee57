import SudoOS.Lib.LittleEndian
import SudoOS.Kernel.TrapFrame
import SudoOS.Mm.Paging

/-!
Signals: the pending set and the actions of a process, the masks of a thread, and the system calls and the delivery that
change them. Signal frames and the arguments of the calls live in user memory, of which every byte belongs to the program.
-/

namespace SudoOS

inductive Errno
  | eperm
  | esrch
  | eintr
  | eagain
  | enomem
  | efault
  | einval
deriving DecidableEq

namespace Errno

def code : Errno → Nat
  | eperm => 1
  | esrch => 3
  | eintr => 4
  | eagain => 11
  | enomem => 12
  | efault => 14
  | einval => 22

def result (errno : Errno) : Word := -BitVec.ofNat 64 errno.code

end Errno

/-! ### Signal sets and actions -/

def sigkill : Nat := 9
def sigsegv : Nat := 11
def sigchld : Nat := 17

def sigDfl : Word := 0
def sigIgn : Word := 1

def signalBit (signal : Nat) : Option Word := if signal = 0 ∨ 64 ≤ signal then none else some (1#64 <<< (signal - 1))

def unblockableMask : Word := (1#64 <<< (sigkill - 1)) ||| (1#64 <<< (sigsegv - 1))

structure KernelSigAction where
  handler : Word
  flags : Word
  restorer : Word
  mask : Word
deriving DecidableEq

namespace KernelSigAction

def default : KernelSigAction := ⟨0, 0, 0, 0⟩

end KernelSigAction

structure SignalState where
  pending : Word
  actions : Vector KernelSigAction 64

namespace SignalState

def new : SignalState := ⟨0, Vector.replicate 64 .default⟩

def addPending (signals : SignalState) (signal : Nat) : Except Errno SignalState :=
  match signalBit signal with
  | none => .error .einval
  | some bit => .ok { signals with pending := signals.pending ||| bit }

def action (signals : SignalState) (signal : Nat) : Option KernelSigAction :=
  if signal = 0 then none else signals.actions[signal - 1]?

def resetActionsForExec (signals : SignalState) : SignalState :=
  { signals with actions := signals.actions.map fun action => if action.handler = sigIgn then action else .default }

def takeLowest (signals : SignalState) (available : Word) : Option (Nat × SignalState) :=
  (List.range 64).find? (available.getLsbD ·) |>.map fun index =>
    (index + 1, { signals with pending := signals.pending &&& ~~~(1#64 <<< index) })

def takeUnblocked (signals : SignalState) (blocked : Word) : Option (Nat × SignalState) :=
  signals.takeLowest (signals.pending &&& ~~~blocked)

end SignalState

/-! ### User memory -/

/-- The bytes of an address space, and where its areas let the kernel read and write on behalf of the program. -/
structure UserMemory where
  bytes : Nat → BitVec 8
  readable : Nat → Bool
  writable : Nat → Bool

namespace UserMemory

def copyFromUser (memory : UserMemory) (address length : Nat) : Option (List (BitVec 8)) :=
  if address + length ≤ userEnd && (List.range length).all (fun i => memory.readable (address + i)) then
    some ((List.range length).map fun i => memory.bytes (address + i))
  else none

def store (memory : UserMemory) (address : Nat) (input : List (BitVec 8)) : UserMemory :=
  { memory with
    bytes := fun a => if address ≤ a ∧ a < address + input.length then input.getD (a - address) 0 else memory.bytes a }

def copyToUser (memory : UserMemory) (address : Nat) (input : List (BitVec 8)) : Option UserMemory :=
  if address + input.length ≤ userEnd && (List.range input.length).all (fun i => memory.writable (address + i)) then
    some (memory.store address input)
  else none

/-- The eight bytes at an address, as a number. -/
def word (memory : UserMemory) (address : Nat) : Nat :=
  LittleEndian.value ((List.range 8).map fun i => memory.bytes (address + i))

def copyWordsFromUser (memory : UserMemory) (address : Word) (count : Nat) : Option (List Word) :=
  (memory.copyFromUser address.toNat (count * 8)).map fun bytes =>
    (LittleEndian.decode 8 count bytes).map (BitVec.ofNat 64)

def copyWordsToUser (memory : UserMemory) (address : Word) (words : List Word) : Option UserMemory :=
  memory.copyToUser address.toNat (LittleEndian.encode 8 (words.map BitVec.toNat))

end UserMemory

/-! ### Signal frames -/

def signalFrameMagic : Word := 0x5355444f53494731
def userSignalTrampoline : Word := 0x3eff7fe000
def saRestorer : Word := 0x04000000

structure UserSignalFrame where
  magic : Word
  signal : Word
  oldMask : Word
  reserved : Word
  trapFrame : TrapFrame
deriving DecidableEq

namespace UserSignalFrame

def size : Nat := 336

def words (frame : UserSignalFrame) : List Word :=
  [frame.magic, frame.signal, frame.oldMask, frame.reserved] ++ frame.trapFrame.words

def ofWords (words : List Word) : UserSignalFrame where
  magic := words.getD 0 0
  signal := words.getD 1 0
  oldMask := words.getD 2 0
  reserved := words.getD 3 0
  trapFrame := .ofWords (words.drop 4)

end UserSignalFrame

/-! ### The masks of a thread -/

def noSigsuspendSavedMask : Word := BitVec.allOnes 64

structure SignalMasks where
  blocked : Word
  sigsuspendSaved : Word
deriving DecidableEq

namespace SignalMasks

def new : SignalMasks := ⟨0, noSigsuspendSavedMask⟩

def setBlockedSignals (masks : SignalMasks) (mask : Word) : SignalMasks := { masks with blocked := mask }

def beginSigsuspend (masks : SignalMasks) (temporary : Word) : SignalMasks := ⟨temporary, masks.blocked⟩

def takeSigsuspendSavedMask (masks : SignalMasks) : Option Word × SignalMasks :=
  (if masks.sigsuspendSaved = noSigsuspendSavedMask then none else some masks.sigsuspendSaved,
    { masks with sigsuspendSaved := noSigsuspendSavedMask })

def restoreSigsuspendMaskWithoutHandler (masks : SignalMasks) : SignalMasks :=
  match masks.takeSigsuspendSavedMask with
  | (some saved, masks) => masks.setBlockedSignals saved
  | (none, masks) => masks

end SignalMasks

/-! ### System calls -/

/-- What a call sees of the thread that makes it: its masks, the signals of its process and the memory of its address
space. -/
structure Caller where
  masks : SignalMasks
  signals : SignalState
  memory : UserMemory

namespace Caller

def validateSigsetSize (sigsetsize : Word) : Bool := sigsetsize == 8

def sysRtSigsuspend (caller : Caller) (maskAddress sigsetsize : Word) : Except Errno (Word × Caller) :=
  if !validateSigsetSize sigsetsize then .error .einval
  else if maskAddress = 0 then .error .efault
  else
    match caller.memory.copyWordsFromUser maskAddress 1 with
    | none => .error .efault
    | some words =>
      let temporary := words.getD 0 0 &&& ~~~unblockableMask
      .ok (temporary, { caller with masks := caller.masks.beginSigsuspend temporary })

def readSignalFrame (memory : UserMemory) (stackPointer : Word) : Except Errno UserSignalFrame :=
  match memory.copyWordsFromUser stackPointer 42 with
  | none => .error .efault
  | some words =>
    let frame := UserSignalFrame.ofWords words
    if frame.magic = signalFrameMagic then .ok frame else .error .einval

def sysRtSigreturn (caller : Caller) (frame : TrapFrame) : Except Errno (TrapFrame × Caller) :=
  match readSignalFrame caller.memory frame.stackPointer with
  | .error errno => .error errno
  | .ok signalFrame =>
    .ok (signalFrame.trapFrame, { caller with masks := caller.masks.setBlockedSignals signalFrame.oldMask })

/-! ### Delivery -/

def signalStackPointer (frame : TrapFrame) : Option Word :=
  if UserSignalFrame.size ≤ frame.stackPointer.toNat then
    some (BitVec.ofNat 64 ((frame.stackPointer.toNat - UserSignalFrame.size) / 16 * 16))
  else none

def installSignalFrame (caller : Caller) (frame : TrapFrame) (signal : Nat) (action : KernelSigAction) (handler : Word) :
    Option TrapFrame × Caller :=
  let activeMask := caller.masks.blocked
  match signalBit signal with
  | none => (none, caller)
  | some bit =>
    match signalStackPointer frame with
    | none => (none, caller)
    | some signalSp =>
      let newMask := (activeMask ||| action.mask ||| bit) &&& ~~~unblockableMask
      let saved := caller.masks.takeSigsuspendSavedMask
      let restoreMask := saved.1.getD activeMask
      let signalFrame : UserSignalFrame := ⟨signalFrameMagic, BitVec.ofNat 64 signal, restoreMask, 0, frame⟩
      match caller.memory.copyWordsToUser signalSp signalFrame.words with
      | none => (none, { caller with masks := saved.2.setBlockedSignals restoreMask })
      | some memory =>
        let restorer := if action.flags &&& saRestorer ≠ 0 ∧ action.restorer ≠ 0 then action.restorer
        else userSignalTrampoline
        (some (frame.setSignalHandlerFrame signalSp (BitVec.ofNat 64 signal) handler restorer),
          { caller with memory, masks := saved.2.setBlockedSignals newMask })

inductive Delivery
  | resume (frame : TrapFrame)
  | terminate (status : Word)

def deliverPendingSignal (caller : Caller) (frame : TrapFrame) : Delivery × Caller :=
  match caller.signals.takeUnblocked caller.masks.blocked with
  | none => (.resume frame, caller)
  | some (signal, signals) =>
    let caller := { caller with signals }
    let action := (signals.action signal).getD .default
    if action.handler = sigDfl then
      let caller := { caller with masks := caller.masks.restoreSigsuspendMaskWithoutHandler }
      if signal = sigchld then (.resume frame, caller) else (.terminate (-BitVec.ofNat 64 signal), caller)
    else if action.handler = sigIgn then
      (.resume frame, { caller with masks := caller.masks.restoreSigsuspendMaskWithoutHandler })
    else
      match installSignalFrame caller frame signal action action.handler with
      | (none, caller) => (.terminate Errno.efault.result, caller)
      | (some frame, caller) => (.resume frame, caller)

end Caller

end SudoOS
