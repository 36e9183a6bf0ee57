import SudoOS.Mm.Mapping

/-!
The Sv39 page-table format: entries as raw words, and the split of a virtual address into the indices of three levels. A
physical frame is given by its number.
-/

namespace SudoOS

inductive PageTableEntryError
  | invalidMappingOptions (e : MappingOptionsError)
  | unsupportedMemoryType
  | physicalAddressOutOfRange (address : Nat)
deriving DecidableEq

namespace PageTableEntry

def validBit : Nat := 0
def readBit : Nat := 1
def writeBit : Nat := 2
def executeBit : Nat := 3
def userBit : Nat := 4
def globalBit : Nat := 5
def accessedBit : Nat := 6
def dirtyBit : Nat := 7

def ppnShift : Nat := 10
def ppnBits : Nat := 44
def ppnMask : Nat := (2 ^ ppnBits - 1) <<< ppnShift
def physicalAddressLimit : Nat := 2 ^ (pageShift + ppnBits)

def encodeFrame (frame : Nat) : Except PageTableEntryError Nat :=
  let physical := frame * pageSize
  if physical ≥ physicalAddressLimit then .error (.physicalAddressOutOfRange physical)
  else .ok (((physical >>> pageShift) <<< ppnShift) &&& ppnMask)

def table (nextTable : Nat) : Except PageTableEntryError Nat := do
  let ppn ← encodeFrame nextTable
  return ppn ||| 2 ^ validBit

def leafFlags (readable writable executable user global : Bool) : Nat :=
  2 ^ validBit ||| 2 ^ accessedBit |||
    (if readable then 2 ^ readBit else 0) |||
    (if writable then 2 ^ writeBit ||| 2 ^ dirtyBit else 0) |||
    (if executable then 2 ^ executeBit else 0) |||
    (if user then 2 ^ userBit else 0) |||
    (if global then 2 ^ globalBit else 0)

def leaf (frame : Nat) (o : MappingOptions) : Except PageTableEntryError Nat :=
  match o.validate with
  | .error e => .error (.invalidMappingOptions e)
  | .ok () =>
    if o.memoryType = .uncached then .error .unsupportedMemoryType
    else do
      let ppn ← encodeFrame frame
      return ppn |||
        leafFlags o.permissions.readable o.permissions.writable o.permissions.executable o.user o.global

def isValid (raw : Nat) : Bool := raw.testBit validBit

def isLeaf (raw : Nat) : Bool := isValid raw && (raw.testBit readBit || raw.testBit writeBit || raw.testBit executeBit)

def isTable (raw : Nat) : Bool := isValid raw && !(raw.testBit readBit || raw.testBit writeBit || raw.testBit executeBit)

def ppn (raw : Nat) : Nat := (raw &&& ppnMask) >>> ppnShift

def physicalAddress (raw : Nat) : Nat := ppn raw <<< pageShift

def frame (raw : Nat) : Option Nat := if isValid raw then some (ppn raw) else none

end PageTableEntry

/-! ### Address split -/

def levels : Nat := 3

def entriesPerTable : Nat := 512

/-- User addresses end where the lower half of the canonical range ends. -/
def userEnd : Nat := 0x40_0000_0000

def userRange : VirtRange := .fromBounds 0 userEnd

def kernelCanonicalStart : Nat := 0xffff_ffc0_0000_0000

def isCanonical (address : Nat) : Prop := address < userEnd ∨ kernelCanonicalStart ≤ address

instance (address : Nat) : Decidable (isCanonical address) := inferInstanceAs (Decidable (_ ∨ _))

def levelShift : Nat → Nat
  | 0 => 30
  | 1 => 21
  | _ => 12

def pageIndex (address level : Nat) : Nat := (address >>> levelShift level) &&& (entriesPerTable - 1)

structure VirtPage where
  start : Nat
  aligned : start % 4096 = 0
deriving DecidableEq

def VirtPage.containingAddress (address : Nat) : VirtPage where
  start := address - address % 4096
  aligned := by omega

def VirtPage.fromStartAddress (start : Nat) : Option VirtPage :=
  if h : start % 4096 = 0 then some ⟨start, h⟩ else none

end SudoOS
