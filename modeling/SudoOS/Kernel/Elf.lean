import SudoOS.Lib.LittleEndian
import SudoOS.Mm.Paging
import SudoOS.Mm.Vma

/-!
The reader of executable files and the relocations of a position-independent image. An addition that the source does not
check stops the kernel when it overflows. Whether memory is granted and whether a path is valid text are arguments.
-/

namespace SudoOS

open Program

inductive ElfError
  | addressOverflow
  | invalidAlignment
  | invalidHeader
  | invalidMachine
  | invalidProgramHeader
  | invalidSegment
  | noLoadSegments
  | outOfMemory
  | unsupported
deriving DecidableEq

inductive ElfPanic
  | overflow
  | outOfRange
  | assertion
deriving DecidableEq

inductive ElfKind
  | executable
  | positionIndependent
deriving DecidableEq

structure LoadSegment where
  virtualAddress : Nat
  memorySize : Nat
  fileOffset : Nat
  fileSize : Nat
deriving DecidableEq

structure ProgramHeaderInfo where
  virtualAddress : Nat
  entrySize : Nat
  count : Nat
deriving DecidableEq

structure DynamicInfo where
  virtualAddress : Nat
  memorySize : Nat
  fileOffset : Nat
deriving DecidableEq

structure ElfState where
  areas : List VmArea := []
  segments : List LoadSegment := []
  programHeaders : Option ProgramHeaderInfo := none
  interpreter : Option (List (BitVec 8)) := none
  dynamic : Option DynamicInfo := none
deriving DecidableEq

structure ElfImage extends ElfState where
  kind : ElfKind
  entry : Nat
  loadBias : Nat
deriving DecidableEq

structure ProgramHeaderTable where
  offset : Nat
  entrySize : Nat
  count : Nat
  length : Nat
  end_ : Nat
  loadBias : Nat
deriving DecidableEq

structure ProgramHeader where
  type : Nat
  flags : Nat
  fileOffset : Nat
  virtualAddress : Nat
  fileSize : Nat
  memorySize : Nat
  align : Nat
deriving DecidableEq

abbrev ElfM := EStateM (Stop ElfError ElfPanic) ElfState

namespace Elf

def elfHeaderLen : Nat := 64
def programHeaderLen : Nat := 56
def maxPhdrs : Nat := 32
def maxInterpPath : Nat := 256
def etDynLoadBias : Nat := 0x40000000
def targetMachine : Nat := 243
def ptLoad : Nat := 1
def ptDynamic : Nat := 2
def ptInterp : Nat := 3
def ptPhdr : Nat := 6

def slice (bytes : List (BitVec 8)) (start end_ : Nat) : Option (List (BitVec 8)) :=
  if start ≤ end_ ∧ end_ ≤ bytes.length then some ((bytes.drop start).take (end_ - start)) else none

def read (n : Nat) (bytes : List (BitVec 8)) (offset : Nat) : Option Nat :=
  (slice bytes offset (offset + n)).map LittleEndian.value

def checkedMul (a b : Nat) : Option Nat := if a * b < usizeLimit then some (a * b) else none

def alignPageDown (value : Nat) : Nat := value - value % pageSize

def applyLoadBias (value loadBias : Nat) : ElfM Nat := okOr (checkedAdd value loadBias) (.error .addressOverflow)

def check (c : Prop) [Decidable c] (e : ElfError) : ElfM Unit := ensure c (.error e)

def segmentFlags (raw : Nat) : VmAreaFlags where
  user := true
  private_ := true
  read := raw &&& 4 ≠ 0 ∨ raw &&& 3 ≠ 0
  write := raw &&& 2 ≠ 0
  execute := raw &&& 1 ≠ 0

def readProgramHeader (phdr : List (BitVec 8)) : Option ProgramHeader := do
  return ⟨← read 4 phdr 0, ← read 4 phdr 4, ← read 8 phdr 8, ← read 8 phdr 16, ← read 8 phdr 32, ← read 8 phdr 40,
    ← read 8 phdr 48⟩

def fileHeader (image : List (BitVec 8)) (biasOverride : Option Nat) : ElfM (ElfKind × Nat × ProgramHeaderTable) := do
  let header ← okOr (slice image 0 elfHeaderLen) (.error .invalidHeader)
  let class_ ← okOr header[4]? (.panic .outOfRange)
  let data ← okOr header[5]? (.panic .outOfRange)
  let version ← okOr header[6]? (.panic .outOfRange)
  check (slice header 0 4 = some [0x7f, 0x45, 0x4c, 0x46] ∧ class_ = 2 ∧ data = 1 ∧ version = 1) .invalidHeader
  let fileType ← okOr (read 2 header 16) (.error .invalidHeader)
  let (kind, loadBias) ← okOr (if fileType = 2 then some (ElfKind.executable, 0)
    else if fileType = 3 then some (.positionIndependent, biasOverride.getD etDynLoadBias) else none) (.error .unsupported)
  let machine ← okOr (read 2 header 18) (.error .invalidHeader)
  check (machine = targetMachine) .invalidMachine
  let current ← okOr (read 4 header 20) (.error .invalidHeader)
  check (current = 1) .invalidHeader
  let rawEntry ← okOr (read 8 header 24) (.error .invalidHeader)
  let entry ← applyLoadBias rawEntry loadBias
  check (userRange.contains entry) .invalidHeader
  let phoff ← okOr (read 8 header 32) (.error .invalidHeader)
  let ehsize ← okOr (read 2 header 52) (.error .invalidHeader)
  let phentsize ← okOr (read 2 header 54) (.error .invalidHeader)
  let phnum ← okOr (read 2 header 56) (.error .invalidHeader)
  check (ehsize = elfHeaderLen ∧ phentsize = programHeaderLen ∧ phnum ≠ 0 ∧ phnum ≤ maxPhdrs) .invalidProgramHeader
  let length ← okOr (checkedMul phentsize phnum) (.error .addressOverflow)
  let end_ ← okOr (checkedAdd phoff length) (.error .addressOverflow)
  check (end_ ≤ image.length) .invalidProgramHeader
  return (kind, entry, ⟨phoff, phentsize, phnum, length, end_, loadBias⟩)

def validateSegment (image : List (BitVec 8)) (h : ProgramHeader) : ElfM Unit := do
  check (h.memorySize ≠ 0 ∧ h.fileSize ≤ h.memorySize) .invalidSegment
  check ((checkedAdd h.fileOffset h.fileSize).any (· ≤ image.length)) .invalidSegment
  let _ ← okOr (checkedAdd h.virtualAddress h.memorySize) (.error .addressOverflow)
  check (1 < h.align → isPowerOfTwo h.align) .invalidAlignment
  check (1 < h.align → h.fileOffset &&& (h.align - 1) = h.virtualAddress &&& (h.align - 1)) .invalidAlignment

def findProgramHeaders (table : ProgramHeaderTable) (h : ProgramHeader) (address : Nat) : ElfM Unit := do
  let fileEnd ← okOr (checkedAdd h.fileOffset h.fileSize) (.error .addressOverflow)
  if table.end_ ≤ fileEnd then
    let delta ← okOr (checkedSub table.offset h.fileOffset) (.panic .overflow)
    let virtual_ ← okOr (checkedAdd address delta) (.error .addressOverflow)
    given (decide (userRange.contains virtual_))
      (modify fun s => { s with programHeaders := some ⟨virtual_, table.entrySize, table.count⟩ })
  else return ()

section
variable (isUtf8 : List (BitVec 8) → Bool) (memory : Nat → Bool) (image : List (BitVec 8)) (table : ProgramHeaderTable)

def loadHeader (index : Nat) (h : ProgramHeader) : ElfM Unit := do
  validateSegment image h
  let address ← applyLoadBias h.virtualAddress table.loadBias
  let segmentEnd ← okOr (checkedAdd address h.memorySize) (.error .addressOverflow)
  let end_ ← okOr (alignUp segmentEnd pageSize) (.error .addressOverflow)
  let range ← okOr (VirtRange.new (alignPageDown address) end_) (.panic .assertion)
  check (userRange.containsRange range) .invalidSegment
  let s ← get
  check (∀ area ∈ s.areas, ¬range.overlaps area.range) .invalidSegment
  check (memory (2 * index)) .outOfMemory
  check (memory (2 * index + 1)) .outOfMemory
  set { s with
    areas := s.areas ++ [VmArea.mk range (segmentFlags h.flags) (.fileBacked 1 (alignPageDown h.fileOffset))]
    segments := s.segments ++ [LoadSegment.mk address h.memorySize h.fileOffset h.fileSize] }
  given (s.programHeaders.isNone && decide (h.fileOffset ≤ table.offset)) (findProgramHeaders table h address)

def readInterpreter (index fileOffset fileSize : Nat) : ElfM (List (BitVec 8)) := do
  check (fileSize ≠ 0 ∧ fileSize ≤ maxInterpPath) .invalidProgramHeader
  require (fileOffset + fileSize < usizeLimit) .overflow
  let bytes ← okOr (slice image fileOffset (fileOffset + fileSize)) (.error .invalidProgramHeader)
  let nul ← okOr (bytes.findIdx? (· = 0)) (.error .invalidProgramHeader)
  check (nul ≠ 0) .invalidProgramHeader
  let path ← okOr (slice bytes 0 nul) (.panic .outOfRange)
  check (isUtf8 path) .invalidProgramHeader
  check (memory (2 * index)) .outOfMemory
  return path

def acceptHeader (index : Nat) (h : ProgramHeader) : ElfM Unit := do
  let s ← get
  if h.type = ptLoad then loadHeader memory image table index h
  else if h.type = ptInterp then
    check (s.interpreter = none ∧ h.fileSize ≤ h.memorySize) .invalidProgramHeader
    let path ← readInterpreter isUtf8 memory image index h.fileOffset h.fileSize
    set { s with interpreter := some path }
  else if h.type = ptPhdr then
    check (s.programHeaders = none ∧ table.length ≤ h.memorySize) .invalidProgramHeader
    let virtual_ ← applyLoadBias h.virtualAddress table.loadBias
    check (userRange.contains virtual_) .invalidProgramHeader
    set { s with programHeaders := some ⟨virtual_, table.entrySize, table.count⟩ }
  else if h.type = ptDynamic then
    check (s.dynamic = none ∧ h.memorySize ≠ 0) .invalidProgramHeader
    let virtual_ ← applyLoadBias h.virtualAddress table.loadBias
    check (userRange.contains virtual_) .invalidProgramHeader
    set { s with dynamic := some ⟨virtual_, h.memorySize, h.fileOffset⟩ }
  else return ()

def programHeader (index : Nat) : ElfM Unit := do
  let delta ← okOr (checkedMul index table.entrySize) (.error .addressOverflow)
  let offset ← okOr (checkedAdd table.offset delta) (.error .addressOverflow)
  require (offset + programHeaderLen < usizeLimit) .overflow
  let phdr ← okOr (slice image offset (offset + programHeaderLen)) (.error .invalidProgramHeader)
  let h ← okOr (readProgramHeader phdr) (.error .invalidHeader)
  acceptHeader isUtf8 memory image table index h

/-- `parse_impl`, run on an empty state. -/
def parseImpl (biasOverride : Option Nat) : ElfM ElfImage := do
  let (kind, entry, table) ← fileHeader image biasOverride
  (List.range table.count).forM (programHeader isUtf8 memory image table)
  let s ← get
  check (s.segments ≠ []) .noLoadSegments
  return { s with kind, entry, loadBias := table.loadBias }

end

/-! ### Relocations -/

inductive ExecError (ε : Type)
  | elf (error : ElfError)
  | addressOverflow
  | mm (error : ε)
deriving DecidableEq

structure RelaTable where
  address : Nat := 0
  size : Nat := 0
  entrySize : Nat := 24
deriving DecidableEq

section
variable {ε σ : Type} (load : Nat → List (BitVec 8) → EStateM ε σ Unit)

abbrev ExecM (ε σ : Type) := EStateM (Stop (ExecError ε) ElfPanic) σ

def chunksExact (size : Nat) (bytes : List (BitVec 8)) : List (List (BitVec 8)) :=
  (List.range (bytes.length / size)).map fun i => (bytes.drop (i * size)).take size

def readWord (bytes : List (BitVec 8)) (offset : Nat) : ExecM ε σ Nat :=
  okOr (read 8 bytes offset) (.error (.elf .invalidProgramHeader))

def scanDynamic : List (List (BitVec 8)) → RelaTable → ExecM ε σ RelaTable
  | [], table => pure table
  | entry :: rest, table => do
    let tag ← readWord entry 0
    let value ← readWord entry 8
    if tag = 0 then return table
    else if tag = 7 then scanDynamic rest { table with address := value }
    else if tag = 8 then scanDynamic rest { table with size := value }
    else if tag = 9 then scanDynamic rest { table with entrySize := value }
    else scanDynamic rest table

def virtualToFileOffset (address end_ : Nat) : List LoadSegment → ExecM ε σ Nat
  | [] => throw (.error (.elf .invalidSegment))
  | segment :: rest => do
    let fileEnd ← okOr (checkedAdd segment.virtualAddress segment.fileSize) (.error .addressOverflow)
    if segment.virtualAddress ≤ address ∧ end_ ≤ fileEnd then
      let delta ← okOr (checkedSub address segment.virtualAddress) (.panic .overflow)
      okOr (checkedAdd segment.fileOffset delta) (.error .addressOverflow)
    else virtualToFileOffset address end_ rest

def signed (word : Nat) : Int := if word < 2 ^ 63 then word else word - 2 ^ 64

def relocate (loadBias : Nat) : List (List (BitVec 8)) → Nat → Nat → ExecM ε σ Unit
  | [], _, _ => pure ()
  | entry :: rest, applied, skipped => do
    let rawOffset ← readWord entry 0
    let info ← readWord entry 8
    let addend ← readWord entry 16
    if info % 2 ^ 32 = 3 ∧ info / 2 ^ 32 = 0 then
      let destination ← okOr (checkedAdd rawOffset loadBias) (.error .addressOverflow)
      let sum : Int := loadBias + signed addend
      let value ← okOr (if 0 ≤ sum ∧ sum < usizeLimit then some sum.toNat else none) (.error .addressOverflow)
      zoom id (fun t _ => t) (fun e => .error (.mm e)) (load destination (LittleEndian.bytes 8 value))
      require (applied + 1 < usizeLimit) .overflow
      relocate loadBias rest (applied + 1) skipped
    else
      require (skipped + 1 < usizeLimit) .overflow
      relocate loadBias rest applied (skipped + 1)

def applyStaticPieRelocations (image : List (BitVec 8)) (elf : ElfImage) : ExecM ε σ Unit :=
  match elf.dynamic with
  | none => pure ()
  | some dynamic => do
    require (dynamic.fileOffset + dynamic.memorySize < usizeLimit) .overflow
    let entries ← okOr (slice image dynamic.fileOffset (dynamic.fileOffset + dynamic.memorySize))
      (.error (.elf .invalidProgramHeader))
    let rela ← scanDynamic (chunksExact 16 entries) {}
    if rela.size = 0 then return ()
    else
      ensure (rela.entrySize = 24 ∧ rela.size % rela.entrySize = 0) (.error (.elf .invalidProgramHeader))
      let address ← okOr (checkedAdd rela.address elf.loadBias) (.error .addressOverflow)
      let end_ ← okOr (checkedAdd address rela.size) (.error .addressOverflow)
      let offset ← virtualToFileOffset address end_ elf.segments
      require (offset + rela.size < usizeLimit) .overflow
      let bytes ← okOr (slice image offset (offset + rela.size)) (.error (.elf .invalidSegment))
      require (rela.entrySize ≠ 0) .assertion
      relocate load elf.loadBias (chunksExact rela.entrySize bytes) 0 0

end

end Elf

end SudoOS
