import SudoOS.Kernel.InitialStack
import SudoOS.Kernel.Relr

/-!
Loading a program into a new address space: the segments of its image and of its interpreter, the relocations of the one
that is relocated, the page that signal handlers return to, and the initial stack.
-/

namespace SudoOS.Elf

open Program InitialStack

def interpLoadBias : Nat := 0x20000000

def signalTrampolineBytes : List (BitVec 8) := [0x93, 0x08, 0xb0, 0x08, 0x73, 0x00, 0x00, 0x00]

def trampolineRange : VirtRange := ⟨userSignalTrampoline.toNat, userSignalTrampoline.toNat + pageSize, Nat.le_add_right _ _⟩

def newMemory (areas : List VmArea) : Option UserMemory :=
  if areas.Pairwise fun a b => ¬b.range.overlaps a.range then
    some ⟨fun _ => 0, fun a => areas.any fun area => decide (area.range.contains a),
      fun a => areas.any fun area => decide (area.range.contains a)⟩
  else none

/-- The RISC-V loader writes where an area of the new address space lies. -/
def loaderCopyToUser (address : Nat) (bytes : List (BitVec 8)) : RelrM Unit := do
  let memory ← get
  let memory ← okOr (memory.copyToUser address bytes) (.error (.mm ()))
  set memory

def loaderStore (address : Nat) (bytes : List (BitVec 8)) : EStateM Unit UserMemory Unit := do
  let memory ← get
  let memory ← okOr (memory.copyToUser address bytes) ()
  set memory

section
variable (isUtf8 : List (BitVec 8) → Bool) (grants : Nat → Bool)

def loadSegment (image : List (BitVec 8)) (segment : LoadSegment) : RelrM Unit := do
  let sourceEnd ← okOr (checkedAdd segment.fileOffset segment.fileSize) (.error .addressOverflow)
  let source ← okOr (slice image segment.fileOffset sourceEnd) (.error (.elf .invalidSegment))
  loaderCopyToUser segment.virtualAddress source
  let pageStart ← okOr (checkedAdd segment.virtualAddress segment.fileSize) (.error .addressOverflow)
  let pageEnd ← okOr (checkedAdd segment.virtualAddress segment.memorySize) (.error .addressOverflow)
  ensure (pageStart < pageEnd ∧ pageStart % pageSize ≠ 0 → grants pageStart) (.error (.mm ()))

def loadSegments (image : List (BitVec 8)) : List LoadSegment → RelrM Unit
  | [] => pure ()
  | segment :: rest => do
    loadSegment grants image segment
    loadSegments image rest

structure LoadedFile where
  image : List (BitVec 8)
  elf : ElfImage

def loadImages (main : LoadedFile) : Option LoadedFile → RelrM Unit
  | none => do
    loadSegments grants main.image main.elf.segments
    applyStaticPieRelocations loaderStore main.image main.elf
    loaderCopyToUser userSignalTrampoline.toNat signalTrampolineBytes
  | some interp => do
    loadSegments grants main.image main.elf.segments
    loadSegments grants interp.image interp.elf.segments
    applyStaticPieRelocations loaderStore interp.image interp.elf
    loaderCopyToUser userSignalTrampoline.toNat signalTrampolineBytes

def parse (image : List (BitVec 8)) (bias : Option Nat) : Option LoadedFile :=
  match parseImpl isUtf8 grants image bias {} with
  | .ok elf _ => some ⟨image, elf⟩
  | .error _ _ => none

def parseInterp (interpImage : Option (List (BitVec 8))) (main : LoadedFile) : Option (Option LoadedFile) :=
  match main.elf.interpreter with
  | none => some none
  | some _ => (interpImage.bind fun data => parse isUtf8 grants data (some interpLoadBias)).map some

structure ExecConfig where
  argv : List Bytes
  envp : List Bytes
  stack : VirtRange
  extraAreas : List VmArea

def loadProgram (image : List (BitVec 8)) (interpImage : Option (List (BitVec 8))) (config : ExecConfig) :
    Option (LoadedFile × Option LoadedFile × UserMemory) := do
  let main ← parse isUtf8 grants image none
  let interp ← parseInterp isUtf8 grants interpImage main
  let memory ← newMemory (main.elf.areas ++ interp.elim [] (·.elf.areas) ++ config.extraAreas ++
    [⟨trampolineRange, { user := true, private_ := true, read := true, write := true, execute := true }, .anonymous⟩,
      ⟨config.stack, { user := true, private_ := true, read := true, write := true, growDown := true }, .stack⟩])
  match loadImages grants main interp memory with
  | .ok _ later => some (main, interp, later)
  | .error _ _ => none

structure PreparedExec where
  main : LoadedFile
  interp : Option LoadedFile
  mm : UserMemory
  stackPointer : Nat

def prepareElf (stackGrants : Grants) (image : List (BitVec 8)) (interpImage : Option (List (BitVec 8)))
    (config : ExecConfig) : Option PreparedExec := do
  let (main, interp, memory) ← loadProgram isUtf8 grants image interpImage config
  let info : AuxInfo :=
    ⟨main.elf, interp.map fun _ => interpLoadBias, interp.map fun _ => main.elf.entry,
      interp.bind fun _ => main.elf.programHeaders⟩
  match buildInitialStack stackGrants config.stack config.argv config.envp info ⟨memory, 0⟩ with
  | .ok stackPointer s => some ⟨main, interp, s.memory, stackPointer⟩
  | .error _ _ => none

end

end SudoOS.Elf
