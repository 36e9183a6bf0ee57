import SudoOS.Kernel.UserMm

/-!
The copy of an address space for a child (`fork_clone_eager`). The child gets a page table and frames of its own in the
memory that it shares with its parent.
-/

namespace SudoOS

open Program RuntimePageTable

namespace UserMm

structure ForkSource where
  areas : List VmArea
  programBreak : Option ProgramBreak
  pages : List MappedPage

def checkSource (mapping : MappedPage) : UserMmM Unit := do
  let area ← okOr ((← get).core.layout.findArea mapping.page.start) (.error .permissionDenied)
  match ← translate mapping.page.start with
  | some physical => if physical ≠ mapping.backing * pageSize then throw (.error .notMapped) else return ()
  | none => if area.flags.accessOnly ≠ .empty then throw (.error .notMapped) else return ()

def forkSource : UserMmM ForkSource := do
  tryReserve
  tryReserve
  let s ← get
  s.pages.forM checkSource
  return ⟨s.core.layout.areas.areas, s.core.layout.programBreak, s.pages⟩

def copyFrame (source destination : Nat) (s : UserMmState) : UserMmState :=
  setTable { s.table with entry := fun f i => if f = destination then s.table.entry source i else s.table.entry f i } s

def copyPhysicalPage (source destination : Nat) : UserMmM Unit := do
  let s ← get
  if s.table.ram source ∧ s.table.ram destination then set (copyFrame source destination s) else throw (.error .notMapped)

def forkPage (source : MappedPage) : UserMmM Unit := do
  let area ← okOr ((← get).core.layout.findArea source.page.start) (.error .permissionDenied)
  tryReserve
  let frame ← allocatePage
  onError (copyPhysicalPage source.backing frame) (freePage frame)
  given (area.flags.accessOnly ≠ .empty)
    (onError (onTable (mapPage source.page frame area.mappingOptions)) (freePage frame))
  modify fun s => { s with pages := s.pages ++ [⟨source.page, frame⟩] }

def forkChild (asid : AsidToken) (source : ForkSource) : UserMmM Unit := do
  new asid source.areas
  match source.programBreak with
  | some brk =>
    configureProgramBreak brk.start brk.limit
    let _ ← setProgramBreak brk.current
    source.pages.forM forkPage
  | none => source.pages.forM forkPage

def shareMemory (s other : UserMmState) : UserMmState :=
  setTable { s.table with
    entry := other.table.entry, free := other.table.free, choices := other.table.choices,
    reserves := other.table.reserves } s

def forkCloneEager (asid : AsidToken) (parent : UserMmState) : Except UserMmStop (UserMmState × UserMmState) :=
  match forkSource parent with
  | .error e _ => .error e
  | .ok source parent =>
    match forkChild asid source parent with
    | .error e _ => .error e
    | .ok _ child => .ok (shareMemory parent child, child)

end UserMm

end SudoOS
