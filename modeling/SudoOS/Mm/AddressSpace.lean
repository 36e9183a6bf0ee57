import SudoOS.Mm.Vma

/-!
The layout of a user address space: its areas, and the program break that one of them, the heap, follows.
-/

namespace SudoOS

open Program

structure ProgramBreak where
  start : Nat
  current : Nat
  limit : Nat
deriving DecidableEq

def ProgramBreak.new (start current limit : Nat) : Option ProgramBreak :=
  if start ≤ current ∧ current ≤ limit then some ⟨start, current, limit⟩ else none

inductive AddressSpaceError
  | area (e : VmAreaError)
  | rangeOutsideUser
  | invalidProgramBreak
  | programBreakNotConfigured
deriving DecidableEq

structure AddressSpace where
  userRange : VirtRange
  areas : VmAreaSet
  programBreak : Option ProgramBreak
deriving DecidableEq

abbrev AddressSpaceM := EStateM AddressSpaceError AddressSpace

namespace AddressSpace

def new (userRange : VirtRange) : AddressSpace := ⟨userRange, .new, none⟩

def onAreas {α : Type} (x : EStateM VmAreaError VmAreaSet α) : AddressSpaceM α :=
  zoom AddressSpace.areas (fun areas s => { s with areas := areas }) .area x

def findArea (s : AddressSpace) (address : Nat) : Option VmArea := s.areas.find address

def mapArea (capacity : Nat) (reserve : Bool) (area : VmArea) : AddressSpaceM Unit := do
  let s ← get
  if ¬s.userRange.containsRange area.range then throw .rangeOutsideUser
  else onAreas (VmAreaSet.insert capacity reserve area)

def unmapExact (range : VirtRange) : AddressSpaceM VmArea := onAreas (VmAreaSet.removeExact range)

def unmapRange (capacity : Nat) (reserve : Bool) (range : VirtRange) : AddressSpaceM Nat := do
  let s ← get
  if ¬s.userRange.containsRange range then throw .rangeOutsideUser
  else onAreas (VmAreaSet.removeRange capacity reserve range)

def protectRange (capacity : Nat) (reserve : Bool) (range : VirtRange) (access : VmAreaFlags) : AddressSpaceM Nat := do
  let s ← get
  if ¬s.userRange.containsRange range then throw .rangeOutsideUser
  else onAreas (VmAreaSet.protectRange capacity reserve range access)

def configureProgramBreak (start limit : Nat) : AddressSpaceM Unit := do
  let s ← get
  if ¬s.userRange.contains start then throw .rangeOutsideUser
  else if limit < start ∨ ¬s.userRange.contains ((checkedSub limit 1).getD limit) then throw .rangeOutsideUser
  else
    let brk ← okOr (ProgramBreak.new start start limit) .invalidProgramBreak
    set { s with programBreak := some brk }

def setProgramBreak (newBreak : Nat) : AddressSpaceM Nat := do
  let s ← get
  let brk ← okOr s.programBreak .programBreakNotConfigured
  if newBreak < brk.start ∨ brk.limit < newBreak then throw .invalidProgramBreak
  else
    set { s with programBreak := some { brk with current := newBreak } }
    return newBreak

def heapArea (start end_ : Nat) : AddressSpaceM (Option VmArea) :=
  if start < end_ then do
    let range ← okOr (VirtRange.new start end_) .invalidProgramBreak
    return some ⟨range, .userRw, .heap⟩
  else return none

def syncHeap (capacity : Nat) (reserveRemove reserveInsert : Bool) (newBreak : Nat) : AddressSpaceM Nat := do
  let current ← setProgramBreak newBreak
  let _ ← onAreas (VmAreaSet.removeKind capacity reserveRemove .heap)
  let s ← get
  let brk ← okOr s.programBreak .programBreakNotConfigured
  let start ← okOr (alignDown brk.start pageSize) .invalidProgramBreak
  let end_ ← okOr (alignUp current pageSize) .invalidProgramBreak
  match ← heapArea start end_ with
  | some area => mapArea capacity reserveInsert area
  | none => pure ()
  return current

def setProgramBreakAndSyncHeap (capacity : Nat) (reserveRemove reserveInsert : Bool) (newBreak : Nat) :
    AddressSpaceM Nat := do
  let old ← get
  onError (syncHeap capacity reserveRemove reserveInsert newBreak)
    (fun s => { s with programBreak := old.programBreak, areas := old.areas })

def mapAnonymous (capacity : Nat) (reserve : Bool) (search : VirtRange) (size alignment : Nat) (flags : VmAreaFlags) :
    AddressSpaceM VmArea := do
  let s ← get
  if ¬s.userRange.containsRange search then throw .rangeOutsideUser
  else
    match s.areas.findFreeRange search size alignment with
    | .error e => throw (.area e)
    | .ok range =>
      mapArea capacity reserve ⟨range, flags, .anonymous⟩
      return ⟨range, flags, .anonymous⟩

end AddressSpace

end SudoOS
