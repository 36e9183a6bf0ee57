import SudoOS.Kernel.Elf
import SudoOS.Kernel.Signal

/-!
RELR relocations, as the LoongArch loader applies them to a static position-independent image. A word of the new address
space can be read and written where an area lies.
-/

namespace SudoOS.Elf

open Program

abbrev RelrM := ExecM Unit UserMemory

/-- The end of the user range on LoongArch. -/
def loongarchUserEnd : Nat := 0x1000000000000

def loaderReadU64Physical (address : Nat) : RelrM Nat := do
  ensure (address % 8 = 0) (.error (.elf .invalidAlignment))
  let memory ← get
  ensure (address + 8 ≤ loongarchUserEnd ∧ ∀ i ∈ List.range 8, memory.readable (address + i) = true) (.error (.mm ()))
  return memory.word address

def loaderCopyToUserPhysical (address : Nat) (bytes : List (BitVec 8)) : RelrM Unit := do
  let memory ← get
  ensure (address + bytes.length ≤ loongarchUserEnd ∧ ∀ i ∈ List.range bytes.length, memory.writable (address + i) = true)
    (.error (.mm ()))
  set (memory.store address bytes)

def applyOneLoongarchRelr (address loadBias : Nat) : RelrM Unit := do
  let current ← loaderReadU64Physical address
  let relocated ← okOr (checkedAdd current loadBias) (.error .addressOverflow)
  loaderCopyToUserPhysical address (LittleEndian.bytes 8 relocated)

def applyBitmap (loadBias cursor bitmap : Nat) : List Nat → Nat → RelrM Nat
  | [], applied => pure applied
  | bit :: rest, applied =>
    if bitmap &&& (1 <<< bit) = 0 then applyBitmap loadBias cursor bitmap rest applied
    else do
      let address ← okOr (checkedAdd cursor (bit * 8)) (.error .addressOverflow)
      applyOneLoongarchRelr address loadBias
      applyBitmap loadBias cursor bitmap rest (applied + 1)

def applyEntries (loadBias : Nat) : List (List (BitVec 8)) → Option Nat → Nat → RelrM Nat
  | [], _, applied => pure applied
  | encoded :: rest, cursor, applied => do
    let entry ← readWord encoded 0
    if entry % 2 = 0 then
      let cursor ← okOr (checkedAdd entry loadBias) (.error .addressOverflow)
      applyOneLoongarchRelr cursor loadBias
      let cursor ← okOr (checkedAdd cursor 8) (.error .addressOverflow)
      applyEntries loadBias rest (some cursor) (applied + 1)
    else
      let cursor ← okOr cursor (.error (.elf .invalidProgramHeader))
      let applied ← applyBitmap loadBias cursor (entry / 2) (List.range 63) applied
      let cursor ← okOr (checkedAdd cursor (63 * 8)) (.error .addressOverflow)
      applyEntries loadBias rest (some cursor) applied

def relrTable (image : List (BitVec 8)) (elf : ElfImage) (relrVaddr relrSize relrEnt : Nat) :
    RelrM (List (List (BitVec 8))) := do
  ensure (relrVaddr ≠ 0 ∧ relrEnt = 8 ∧ relrSize % 8 = 0) (.error (.elf .invalidProgramHeader))
  let address ← okOr (checkedAdd relrVaddr elf.loadBias) (.error .addressOverflow)
  let end_ ← okOr (checkedAdd address relrSize) (.error .addressOverflow)
  let offset ← virtualToFileOffset address end_ elf.segments
  require (offset + relrSize < usizeLimit) .overflow
  let bytes ← okOr (slice image offset (offset + relrSize)) (.error (.elf .invalidSegment))
  return chunksExact 8 bytes

def applyLoongarchRelr (image : List (BitVec 8)) (elf : ElfImage) (relrVaddr relrSize relrEnt : Nat) : RelrM Nat := do
  if relrSize = 0 then return 0
  else
    let table ← relrTable image elf relrVaddr relrSize relrEnt
    applyEntries elf.loadBias table none 0

end SudoOS.Elf
