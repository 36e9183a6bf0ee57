import SudoOS.Kernel.Elf
import SudoOS.Kernel.Signal

/-!
The stack that a new program starts with: strings are pushed downwards from the end of the stack area, and below them lie
the words that point to them.
-/

namespace SudoOS.InitialStack

open Program Elf

abbrev Bytes := List (BitVec 8)

inductive StackError
  | invalidStack
  | addressOverflow
  | metadataOutOfMemory
  | mm
deriving DecidableEq

/-- Which requests for memory are granted: those for lists, and those for the pages of a copy. -/
structure Grants where
  metadata : Nat → Bool
  pages : Nat → Bool

structure StackState where
  memory : UserMemory
  cursor : Nat

abbrev StackM := EStateM StackError StackState

def alignDown16 (value : Nat) : Nat := value - value % 16

def loadBytes (grants : Grants) (address : Nat) (bytes : Bytes) : StackM Unit :=
  if bytes = [] then return ()
  else do
    ensure (grants.pages address) .mm
    let s ← get
    let memory ← okOr (s.memory.copyToUser address bytes) .mm
    set { s with memory }

def validateStackSpan (stack : VirtRange) (start length : Nat) : StackM Unit :=
  if length = 0 then return ()
  else do
    let end_ ← okOr (checkedAdd start length) .addressOverflow
    ensure (end_ ≤ stack.end_ ∧ stack.contains start ∧ stack.contains (end_ - 1)) .invalidStack

section
variable (grants : Grants) (stack : VirtRange)

def pushStackString (value : Bytes) : StackM Nat := do
  let total ← okOr (checkedAdd value.length 1) .addressOverflow
  let start ← okOr (checkedSub (← get).cursor total) .invalidStack
  validateStackSpan stack start total
  loadBytes grants start value
  loadBytes grants (start + value.length) [0]
  modify fun s => { s with cursor := start }
  return start

def pushStackBytes (bytes : Bytes) : StackM Nat := do
  let start ← okOr (checkedSub (← get).cursor bytes.length) .invalidStack
  validateStackSpan stack start bytes.length
  loadBytes grants start bytes
  modify fun s => { s with cursor := start }
  return start

def pushLoop : List Bytes → StackM (List Nat)
  | [] => return []
  | value :: rest => do
    let pointer ← pushStackString grants stack value
    let pointers ← pushLoop rest
    return pointer :: pointers

def pushStrings (request : Nat) (values : List Bytes) : StackM (List Nat) := do
  ensure (grants.metadata request) .metadataOutOfMemory
  let pointers ← pushLoop grants stack values.reverse
  return pointers.reverse

def platform : Bytes := [0x72, 0x69, 0x73, 0x63, 0x76, 0x36, 0x34]

def mix (state : Word) : Word :=
  let state := state ^^^ (state <<< 7)
  let state := state ^^^ (state >>> 9)
  state * 0xd6e8feb86659fd93

def buildAtRandomBytes (entry : Nat) (stack : VirtRange) (execfn : Nat) : Bytes :=
  let state : Word := BitVec.ofNat 64 entry ^^^ (BitVec.ofNat 64 stack.end_).rotateLeft 17 ^^^
    (BitVec.ofNat 64 execfn).rotateRight 11 ^^^ 0x9e3779b97f4a7c15
  LittleEndian.bytes 8 (mix state).toNat ++ LittleEndian.bytes 8 (mix (mix state)).toNat

/-- What the auxiliary vector is made from, apart from the pointers to the stack. -/
structure AuxInfo where
  elf : ElfImage
  interpBase : Option Nat
  mainEntry : Option Nat
  mainPhdr : Option ProgramHeaderInfo

def AuxInfo.phdr (info : AuxInfo) : ProgramHeaderInfo :=
  (info.mainPhdr.orElse fun _ => info.elf.programHeaders).getD ⟨0, 0, 0⟩

def AuxInfo.auxv (info : AuxInfo) (platformPtr randomPtr execfnPtr : Nat) : List (Nat × Nat) :=
  [(3, info.phdr.virtualAddress), (4, info.phdr.entrySize), (5, info.phdr.count), (7, info.interpBase.getD 0), (8, 0),
    (9, info.mainEntry.getD info.elf.entry), (6, pageSize), (11, 0), (12, 0), (13, 0), (14, 0), (17, 100),
    (15, platformPtr),
    (16, 0), (26, 0), (23, 0), (25, randomPtr), (31, execfnPtr)]

def stackWords (argvPtrs envpPtrs : List Nat) (auxv : List (Nat × Nat)) : List Nat :=
  argvPtrs.length :: argvPtrs ++ [0] ++ envpPtrs ++ [0] ++ auxv.flatMap (fun entry => [entry.1, entry.2]) ++ [0, 0]

def pushWords (words : List Nat) : StackM Nat := do
  ensure (grants.metadata 2) .metadataOutOfMemory
  let wordsLen ← okOr (checkedMul words.length 8) .addressOverflow
  let below ← okOr (checkedSub (alignDown16 (← get).cursor) wordsLen) .invalidStack
  validateStackSpan stack (alignDown16 below) wordsLen
  ensure (grants.metadata 3) .metadataOutOfMemory
  loadBytes grants (alignDown16 below) (LittleEndian.encode 8 words)
  return alignDown16 below

def buildInitialStack (argv envp : List Bytes) (info : AuxInfo) : StackM Nat := do
  ensure (argv ≠ []) .invalidStack
  ensure (∀ value ∈ argv ++ envp, value ≠ [] ∧ (0 : BitVec 8) ∉ value) .invalidStack
  ensure (¬stack.isEmpty ∧ stack.end_ % 16 = 0) .invalidStack
  modify fun s => { s with cursor := stack.end_ }
  let argvPtrs ← pushStrings grants stack 0 argv
  let envpPtrs ← pushStrings grants stack 1 envp
  let execfnPtr := argvPtrs.headD 0
  let randomPtr ← pushStackBytes grants stack (buildAtRandomBytes info.elf.entry stack execfnPtr)
  let platformPtr ← pushStackString grants stack platform
  pushWords grants stack (stackWords argvPtrs envpPtrs (info.auxv platformPtr randomPtr execfnPtr))

end

/-! ### The strings of `execve` -/

def maxExecString : Nat := 128 * 1024

def maxExecArgs : Nat := 4096

def maxExecEnvs : Nat := 4096

def maxExecTotalBytes : Nat := 2 * 1024 * 1024

inductive CopyError
  | efault
  | einval
  | e2big
deriving DecidableEq

section
variable (memory : UserMemory) (isUtf8 : Bytes → Bool)

def copyUserCString (address : Nat) : Nat → Bytes → Except CopyError Bytes
  | 0, _ => .error .einval
  | left + 1, bytes =>
    match (checkedAdd address bytes.length).bind (memory.copyFromUser · 1) with
    | some [byte] =>
      if byte = 0 then if isUtf8 bytes then .ok bytes else .error .einval
      else copyUserCString address left (bytes ++ [byte])
    | _ => .error .efault

def accountExecStringBudget (remaining : Nat) (value : Bytes) : Except CopyError Nat :=
  if remaining < value.length + 1 then .error .e2big else .ok (remaining - (value.length + 1))

def finishArray (fallback : Option Bytes) (values : List Bytes) (remaining : Nat) : Except CopyError (List Bytes × Nat) :=
  match values, fallback with
  | [], some value => do return ([value], ← accountExecStringBudget remaining value)
  | values, _ => .ok (values, remaining)

def copyPointers (address : Nat) (fallback : Option Bytes) : Nat → List Bytes → Nat → Except CopyError (List Bytes × Nat)
  | 0, _, _ => .error .e2big
  | left + 1, values, remaining => do
    match (checkedAdd address (values.length * 8)).bind (memory.copyFromUser · 8) with
    | none => .error .efault
    | some pointer =>
      if LittleEndian.value pointer = 0 then finishArray fallback values remaining
      else do
        let value ← copyUserCString memory isUtf8 (LittleEndian.value pointer) maxExecString []
        let remaining ← accountExecStringBudget remaining value
        copyPointers address fallback left (values ++ [value]) remaining

def copyUserStringArray (address maximum : Nat) (fallback : Option Bytes) (remaining : Nat) :
    Except CopyError (List Bytes × Nat) :=
  if address = 0 then finishArray fallback [] remaining else copyPointers memory isUtf8 address fallback
    maximum [] remaining

end

end SudoOS.InitialStack
