import SudoOS.Lib.Program
import SudoOS.Lib.TransitionSystem
import SudoOS.Mm.Paging

/-!
The runtime page table of a user address space (Sv39). The state holds the physical page-table memory, the free frames of
the page allocator and the table object itself. What the allocator and `try_reserve` answer is read from the two answer
lists, which each call on the table brings along.
-/

namespace SudoOS

open Program

inductive RuntimePageTableError
  | invalidVirtualAddress
  | alreadyMapped
  | notMapped
  | leafWhereTableExpected (level : Nat)
  | invalidTableEntry (level : Nat)
  | pageAllocator
  | pageTableEntry
  | pageTableAccess
  | metadataOutOfMemory
  | kernelMappingMutationDenied
deriving DecidableEq

structure PageTableState where
  entry : Nat → Nat → Nat
  ram : Nat → Bool
  free : Nat → Bool
  /-- What the allocator answers to the next requests: a frame, or that it has none. -/
  choices : List (Option Nat)
  reserves : List Bool
  kernelRoot : Nat
  kernelOwned : Nat → Bool
  root : Nat
  runtimeTables : List Nat
  retired : List Nat

abbrev PageTableM := EStateM RuntimePageTableError PageTableState

namespace PageTableState

def readEntry (s : PageTableState) (frame index : Nat) : Except RuntimePageTableError Nat :=
  if s.ram frame ∧ index < entriesPerTable then .ok (s.entry frame index) else .error .pageTableAccess

def setEntry (s : PageTableState) (frame index value : Nat) : PageTableState :=
  { s with entry := fun f i => if f = frame ∧ i = index then value else s.entry f i }

def setFree (s : PageTableState) (frame : Nat) (value : Bool) : PageTableState :=
  { s with free := fun f => if f = frame then value else s.free f }

def zeroFrame (s : PageTableState) (frame : Nat) : PageTableState :=
  { s with entry := fun f i => if f = frame then 0 else s.entry f i }

end PageTableState

namespace RuntimePageTable

open PageTableState

def readEntryM (frame index : Nat) : PageTableM Nat := do
  let s ← get
  ofExcept (s.readEntry frame index)

def writeEntry (frame index value : Nat) : PageTableM Unit := do
  let s ← get
  if s.ram frame ∧ index < entriesPerTable then set (s.setEntry frame index value) else throw .pageTableAccess

def allocateZeroedTable : PageTableM (Option Nat) := do
  let s ← get
  set { s with choices := s.choices.tail }
  match s.choices.head? with
  | some (some frame) =>
    if s.free frame then
      modify fun s => (s.setFree frame false).zeroFrame frame
      return some frame
    else return none
  | _ => return none

def freeTable (s : PageTableState) (frame : Nat) : PageTableState := s.setFree frame true

def freeTables (frames : List Nat) (s : PageTableState) : PageTableState := frames.foldl freeTable s

def reserveTables : PageTableM Unit := do
  let s ← get
  set { s with reserves := s.reserves.tail }
  match s.reserves.head? with
  | some true => return ()
  | _ => throw .metadataOutOfMemory

def descend (level raw : Nat) : Except RuntimePageTableError Nat :=
  if PageTableEntry.isLeaf raw then .error (.leafWhereTableExpected level)
  else if !PageTableEntry.isTable raw then .error (.invalidTableEntry level)
  else
    match PageTableEntry.frame raw with
    | some frame => .ok frame
    | none => .error (.invalidTableEntry level)

def tableEntry (frame : Nat) : PageTableM Nat :=
  match PageTableEntry.table frame with
  | .ok raw => return raw
  | .error _ => throw .pageTableEntry

def leafEntryFor (frame : Nat) (options : MappingOptions) : PageTableM Nat :=
  match PageTableEntry.leaf frame options with
  | .ok raw => return raw
  | .error _ => throw .pageTableEntry

def allocateTables : (n : Nat) → (frames : List Nat) → PageTableM (List Nat × Bool)
  | 0, frames => return (frames, true)
  | n + 1, frames => do
    match ← allocateZeroedTable with
    | some frame => allocateTables n (frames ++ [frame])
    | none => return (frames, false)

def linkTables (page leaf : Nat) : (frames : List Nat) → (level : Nat) → PageTableM Unit
  | [], _ => return ()
  | [last], _ => writeEntry last (pageIndex page (levels - 1)) leaf
  | current :: child :: rest, level => do
    linkTables page leaf (child :: rest) (level + 1)
    let entry ← tableEntry child
    writeEntry current (pageIndex page level) entry

def linkChain (parent missingLevel page leaf : Nat) (frames : List Nat) : PageTableM Unit := do
  linkTables page leaf frames (missingLevel + 1)
  match frames with
  | [] => return ()
  | first :: _ =>
    let entry ← tableEntry first
    writeEntry parent (pageIndex page missingLevel) entry

def installMissingChain (parent missingLevel page leaf : Nat) : PageTableM Unit := do
  reserveTables
  let (frames, complete) ← allocateTables (levels - 1 - missingLevel) []
  onError
    (if complete then linkChain parent missingLevel page leaf frames else throw .pageAllocator)
    (freeTables frames)
  modify fun s => { s with runtimeTables := s.runtimeTables ++ frames }

def mapLoop (page leaf : Nat) : (remaining level current : Nat) → PageTableM Unit
  | 0, level, current => do
    let raw ← readEntryM current (pageIndex page level)
    if raw ≠ 0 then throw .alreadyMapped else writeEntry current (pageIndex page level) leaf
  | remaining + 1, level, current => do
    let raw ← readEntryM current (pageIndex page level)
    if raw = 0 then installMissingChain current level page leaf
    else
      let next ← ofExcept (descend level raw)
      mapLoop page leaf remaining (level + 1) next

def ensureMutablePage (page : VirtPage) : PageTableM Unit :=
  if userRange.contains page.start then return () else throw .kernelMappingMutationDenied

def mapPage (page : VirtPage) (frame : Nat) (options : MappingOptions) : PageTableM Unit := do
  ensureMutablePage page
  if ¬isCanonical page.start then throw .invalidVirtualAddress
  else
    let leaf ← leafEntryFor frame options
    let s ← get
    mapLoop page.start leaf (levels - 1) 0 s.root

def leafLoop (s : PageTableState) (page : Nat) :
    (remaining level current : Nat) → Except RuntimePageTableError (Nat × Nat × Nat)
  | 0, level, current => do
    let raw ← s.readEntry current (pageIndex page level)
    if raw = 0 then .error .notMapped
    else if !PageTableEntry.isLeaf raw then .error (.invalidTableEntry level)
    else return (current, pageIndex page level, raw)
  | remaining + 1, level, current => do
    let raw ← s.readEntry current (pageIndex page level)
    if raw = 0 then .error .notMapped
    else
      let next ← descend level raw
      leafLoop s page remaining (level + 1) next

def leafEntry (s : PageTableState) (page : VirtPage) : Except RuntimePageTableError (Nat × Nat × Nat) :=
  if isCanonical page.start then leafLoop s page.start (levels - 1) 0 s.root else .error .invalidVirtualAddress

def mappedLeaf (page : VirtPage) : PageTableM (Nat × Nat × Nat) := do
  ensureMutablePage page
  let s ← get
  let (table, index, old) ← ofExcept (leafEntry s page)
  let frame ← okOr (PageTableEntry.frame old) (.invalidTableEntry (levels - 1))
  return (table, index, frame)

def protectPage (page : VirtPage) (options : MappingOptions) : PageTableM Unit := do
  let (table, index, frame) ← mappedLeaf page
  let new ← leafEntryFor frame options
  writeEntry table index new

def replacePage (page : VirtPage) (frame : Nat) (options : MappingOptions) : PageTableM Nat := do
  let (table, index, oldFrame) ← mappedLeaf page
  let new ← leafEntryFor frame options
  writeEntry table index new
  return oldFrame

def unmapPage (page : VirtPage) : PageTableM Nat := do
  let (table, index, frame) ← mappedLeaf page
  writeEntry table index 0
  return frame

def tableIsFilled (s : PageTableState) (frame expected : Nat) : Except RuntimePageTableError Bool :=
  if s.ram frame then .ok ((List.range entriesPerTable).all fun i => s.entry frame i = expected)
  else .error .pageTableAccess

def reclaimWalk (s : PageTableState) (page : Nat) :
    (remaining level current : Nat) → Except RuntimePageTableError (Option (List Nat))
  | 0, _, _ => .ok (some [])
  | remaining + 1, level, current => do
    let raw ← s.readEntry current (pageIndex page level)
    if raw = 0 then .ok none
    else if !PageTableEntry.isTable raw || PageTableEntry.isLeaf raw then .error (.invalidTableEntry level)
    else
      match PageTableEntry.frame raw with
      | none => .error (.invalidTableEntry level)
      | some next => do
        let below ← reclaimWalk s page remaining (level + 1) next
        return below.map (next :: ·)

def swapRemove (tables : List Nat) (position : Nat) : List Nat :=
  match tables.getLast? with
  | some last => (tables.set position last).dropLast
  | none => []

def reclaimLoop (page : Nat) : (tables : List (Nat × Nat)) → (parentLevel : Nat) → PageTableM Unit
  | [], _ => return ()
  | (parent, table) :: rest, parentLevel => do
    let s ← get
    match s.runtimeTables.findIdx? (· = table) with
    | none => return ()
    | some position =>
      let empty ← ofExcept (tableIsFilled s table 0)
      if !empty then return ()
      else
        let old ← ofExcept (s.readEntry parent (pageIndex page parentLevel))
        if !PageTableEntry.isTable old || PageTableEntry.frame old ≠ some table then throw (.invalidTableEntry parentLevel)
        else
          writeEntry parent (pageIndex page parentLevel) 0
          modify fun s =>
            { s with runtimeTables := swapRemove s.runtimeTables position, retired := s.retired ++ [table] }
          reclaimLoop page rest (parentLevel - 1)

def reclaimEmptyTables (page : VirtPage) : PageTableM Unit := do
  ensureMutablePage page
  if ¬isCanonical page.start then throw .invalidVirtualAddress
  else
    let s ← get
    match ← ofExcept (reclaimWalk s page.start (levels - 1) 0 s.root) with
    | none => return ()
    | some below => reclaimLoop page.start ((s.root :: below).zip below).reverse (levels - 2)

def translateLoop (s : PageTableState) (address : Nat) :
    (remaining level current : Nat) → Except RuntimePageTableError (Option Nat)
  | 0, level, current => do
    let raw ← s.readEntry current (pageIndex address level)
    if raw = 0 then .ok none
    else if !PageTableEntry.isLeaf raw then .error (.invalidTableEntry level)
    else .ok (checkedAdd (PageTableEntry.physicalAddress raw) (address % pageSize))
  | remaining + 1, level, current => do
    let raw ← s.readEntry current (pageIndex address level)
    if raw = 0 then .ok none
    else
      let next ← descend level raw
      translateLoop s address remaining (level + 1) next

def translate (s : PageTableState) (address : Nat) : Except RuntimePageTableError (Option Nat) :=
  if isCanonical address then translateLoop s address (levels - 1) 0 s.root else .error .invalidVirtualAddress

def synchronizeLoop : List Nat → PageTableM Unit
  | [] => return ()
  | index :: rest => do
    let s ← get
    let raw ← ofExcept (s.readEntry s.kernelRoot index)
    writeEntry s.root index raw
    synchronizeLoop rest

def synchronizeKernelMappings : PageTableM Unit :=
  synchronizeLoop ((List.range entriesPerTable).drop (entriesPerTable / 2))

def clearLoop : List Nat → PageTableM Unit
  | [] => return ()
  | index :: rest => do
    let s ← get
    writeEntry s.root index 0
    clearLoop rest

def retireAllPrivateTables : PageTableM Unit := do
  clearLoop (List.range (entriesPerTable / 2))
  modify fun s => { s with runtimeTables := [], retired := s.retired ++ s.runtimeTables }

def newUser : PageTableM Unit := do
  match ← allocateZeroedTable with
  | none => throw .pageAllocator
  | some root =>
    onError
      (do modify fun s => { s with root := root, runtimeTables := [], retired := [] }
          synchronizeKernelMappings)
      (fun s => freeTable s root)

def freeRetired : PageTableM Unit :=
  modify fun s => { freeTables s.retired s with retired := [] }

inductive TableOp
  | mapPage (page : VirtPage) (frame : Nat) (options : MappingOptions)
  | protectPage (page : VirtPage) (options : MappingOptions)
  | replacePage (page : VirtPage) (frame : Nat) (options : MappingOptions)
  | unmapPage (page : VirtPage)
  | reclaimEmptyTables (page : VirtPage)
  | synchronizeKernelMappings
  | retireAllPrivateTables
  | freeRetired

/-- A call returns the frame that was mapped before, where the source returns one. -/
def TableOp.exec : TableOp → PageTableM (Option Nat)
  | .mapPage page frame options => (fun _ => none) <$> RuntimePageTable.mapPage page frame options
  | .protectPage page options => (fun _ => none) <$> RuntimePageTable.protectPage page options
  | .replacePage page frame options => some <$> RuntimePageTable.replacePage page frame options
  | .unmapPage page => some <$> RuntimePageTable.unmapPage page
  | .reclaimEmptyTables page => (fun _ => none) <$> RuntimePageTable.reclaimEmptyTables page
  | .synchronizeKernelMappings => (fun _ => none) <$> RuntimePageTable.synchronizeKernelMappings
  | .retireAllPrivateTables => (fun _ => none) <$> RuntimePageTable.retireAllPrivateTables
  | .freeRetired => (fun _ => none) <$> RuntimePageTable.freeRetired

end RuntimePageTable

end SudoOS
