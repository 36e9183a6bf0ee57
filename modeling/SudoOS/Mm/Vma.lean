import SudoOS.Lib.Program
import SudoOS.Lib.TransitionSystem
import SudoOS.Mm.Mapping

/-!
The sorted set of virtual memory areas of one address space. The areas are kept in a list in address order; the outcome of
`try_reserve` on the metadata vector is an argument of each operation that asks for memory.
-/

namespace SudoOS

open Program

/-- The ten attribute bits of an area. -/
structure VmAreaFlags where
  read : Bool := false
  write : Bool := false
  execute : Bool := false
  user : Bool := false
  shared : Bool := false
  private_ : Bool := false
  copyOnWrite : Bool := false
  growDown : Bool := false
  locked : Bool := false
  device : Bool := false
deriving DecidableEq

namespace VmAreaFlags

def empty : VmAreaFlags := {}

def userRw : VmAreaFlags := { read := true, write := true, user := true, private_ := true }

def accessOnly (f : VmAreaFlags) : VmAreaFlags :=
  { read := f.read, write := f.write, execute := f.execute }

def withAccess (f access : VmAreaFlags) : VmAreaFlags :=
  { f with read := access.read, write := access.write, execute := access.execute }

end VmAreaFlags

inductive VmAreaKind
  | anonymous
  | heap
  | stack
  | fileBacked (object offset : Nat)
  | device (physical : Nat)
  | kernel
  | vmalloc
  | ioRemap (physical : Nat)
deriving DecidableEq

structure VmArea where
  range : VirtRange
  flags : VmAreaFlags
  kind : VmAreaKind
deriving DecidableEq

namespace VmArea

def contains (a : VmArea) (address : Nat) : Prop := a.range.contains address

instance (a : VmArea) (address : Nat) : Decidable (a.contains address) := inferInstanceAs (Decidable (_ ∧ _))

/-- What a page of the area is mapped with. Unreadable combinations give no permission at all. -/
def mappingOptions (a : VmArea) : MappingOptions where
  permissions :=
    match a.flags.read, a.flags.write, a.flags.execute with
    | true, true, true => .readWriteExecute
    | true, true, false => .readWrite
    | true, false, true => .readExecute
    | true, false, false => .readOnly
    | _, _, _ => .empty
  user := a.flags.user
  memoryType := if a.flags.device then .device else .normal

end VmArea

inductive VmAreaError
  | emptyRange
  | unalignedRange
  | invalidFlags
  | capacityExceeded
  | metadataOutOfMemory
  | overlap
  | notFound
  | addressOverflow
deriving DecidableEq

def validateArea (area : VmArea) : Except VmAreaError Unit :=
  if area.range.isEmpty then .error .emptyRange
  else if ¬area.range.isPageAligned then .error .unalignedRange
  else if area.flags.write ∧ ¬area.flags.read then .error .invalidFlags
  else if area.flags.shared ∧ area.flags.private_ then .error .invalidFlags
  else if area.flags.copyOnWrite ∧ ¬area.flags.private_ then .error .invalidFlags
  else .ok ()

def validateOperationRange (range : VirtRange) : Except VmAreaError Unit :=
  if range.isEmpty then .error .emptyRange
  else if ¬range.isPageAligned then .error .unalignedRange
  else .ok ()

def appendArea (areas : List VmArea) (area : VmArea) (capacity : Nat) : Except VmAreaError (List VmArea) := do
  validateArea area
  match areas.getLast? with
  | some previous =>
    if previous.range.overlaps area.range ∨ previous.range.start > area.range.start then
      throw .overlap
    else if previous.range.end_ = area.range.start ∧ previous.flags = area.flags ∧ previous.kind = area.kind then
      match VirtRange.new previous.range.start area.range.end_ with
      | some merged => return areas.dropLast ++ [⟨merged, area.flags, area.kind⟩]
      | none => throw .addressOverflow
    else if areas.length = capacity then throw .capacityExceeded
    else return areas ++ [area]
  | none => if areas.length = capacity then throw .capacityExceeded else return areas ++ [area]

def appendPart (areas : List VmArea) (start end_ : Nat) (flags : VmAreaFlags) (kind : VmAreaKind) (capacity : Nat) :
    Except VmAreaError (List VmArea) :=
  match VirtRange.new start end_ with
  | some range => appendArea areas ⟨range, flags, kind⟩ capacity
  | none => .error .addressOverflow

def appendRest (areas : List VmArea) (start end_ : Nat) (flags : VmAreaFlags) (kind : VmAreaKind) (capacity : Nat) :
    Except VmAreaError (List VmArea) :=
  if start < end_ then appendPart areas start end_ flags kind capacity else .ok areas

structure VmAreaSet where
  areas : List VmArea
deriving DecidableEq

namespace VmAreaSet

def new : VmAreaSet := ⟨[]⟩

/-- The binary search of `insertion_index`: `fuel` bounds the halvings. -/
def insertionIndexLoop (areas : List VmArea) (start : Nat) : (fuel left right : Nat) → Nat
  | 0, left, _ => left
  | fuel + 1, left, right =>
    if left < right then
      let mid := left + (right - left) / 2
      match areas[mid]? with
      | some area =>
        if start < area.range.start then insertionIndexLoop areas start fuel left mid
        else insertionIndexLoop areas start fuel (mid + 1) right
      | none => left
    else left

def insertionIndex (s : VmAreaSet) (start : Nat) : Nat :=
  insertionIndexLoop s.areas start s.areas.length 0 s.areas.length

def previousOf (areas : List VmArea) (index : Nat) : Option VmArea :=
  if 0 < index then areas[index - 1]? else none

def nextOf (areas : List VmArea) (index : Nat) : Option VmArea := areas[index]?

def joins (lower upper : VmArea) : Bool :=
  lower.range.end_ = upper.range.start ∧ lower.flags = upper.flags ∧ lower.kind = upper.kind

def insert (capacity : Nat) (reserve : Bool) (area : VmArea) : EStateM VmAreaError VmAreaSet Unit := do
  ofExcept (validateArea area)
  let s ← get
  let index := s.insertionIndex area.range.start
  let previous := previousOf s.areas index
  let next := nextOf s.areas index
  if previous.any fun p => p.range.overlaps area.range then
    throw .overlap
  else if next.any fun n => n.range.overlaps area.range then
    throw .overlap
  else
  let coalescible : Bool := area.kind = .anonymous
  let mergePrevious := if coalescible then previous.filter fun p => joins p area else none
  let mergeNext := if coalescible then next.filter fun n => joins area n else none
  match mergePrevious, mergeNext with
  | some p, some n =>
    let range ← okOr (VirtRange.new p.range.start n.range.end_) .addressOverflow
    set (VmAreaSet.mk ((s.areas.set (index - 1) ⟨range, area.flags, area.kind⟩).eraseIdx index))
  | some p, none =>
    let range ← okOr (VirtRange.new p.range.start area.range.end_) .addressOverflow
    set (VmAreaSet.mk (s.areas.set (index - 1) ⟨range, area.flags, area.kind⟩))
  | none, some n =>
    let range ← okOr (VirtRange.new area.range.start n.range.end_) .addressOverflow
    set (VmAreaSet.mk (s.areas.set index ⟨range, area.flags, area.kind⟩))
  | none, none =>
    if s.areas.length = capacity then throw .capacityExceeded
    else if !reserve then throw .metadataOutOfMemory
    else set (VmAreaSet.mk (s.areas.insertIdx index area))

def findExactIndex (s : VmAreaSet) (range : VirtRange) : Option Nat :=
  s.areas.findIdx? fun area => area.range = range

def removeExact (range : VirtRange) : EStateM VmAreaError VmAreaSet VmArea := do
  let s ← get
  let index ← okOr (s.findExactIndex range) .notFound
  let area ← okOr s.areas[index]? .notFound
  set (VmAreaSet.mk (s.areas.eraseIdx index))
  return area

def removeRangeLoop (capacity : Nat) (range : VirtRange) :
    List VmArea → (rebuilt : List VmArea) → (affected : Nat) → Except VmAreaError (List VmArea × Nat)
  | [], rebuilt, affected => .ok (rebuilt, affected)
  | area :: rest, rebuilt, affected =>
    if ¬area.range.overlaps range then do
      let rebuilt ← appendArea rebuilt area capacity
      removeRangeLoop capacity range rest rebuilt affected
    else do
      let rebuilt ← appendRest rebuilt area.range.start range.start area.flags area.kind capacity
      let rebuilt ← appendRest rebuilt range.end_ area.range.end_ area.flags area.kind capacity
      removeRangeLoop capacity range rest rebuilt (affected + 1)

def removeRange (capacity : Nat) (reserve : Bool) (range : VirtRange) : EStateM VmAreaError VmAreaSet Nat := do
  ofExcept (validateOperationRange range)
  let s ← get
  if !reserve then throw .metadataOutOfMemory
  else
  let (rebuilt, affected) ← ofExcept (removeRangeLoop capacity range s.areas [] 0)
  set (VmAreaSet.mk rebuilt)
  return affected

/-- The coverage scan of `protect_range`: the number of areas met, or `none` at the first gap. -/
def coverLoop (range : VirtRange) : List VmArea → (cursor affected : Nat) → Option Nat
  | [], cursor, affected => if cursor = range.end_ then some affected else none
  | area :: rest, cursor, affected =>
    if area.range.end_ ≤ cursor ∨ range.end_ ≤ area.range.start then coverLoop range rest cursor affected
    else if cursor < area.range.start then none
    else
      let cursor := min area.range.end_ range.end_
      if cursor = range.end_ then some (affected + 1) else coverLoop range rest cursor (affected + 1)

def protectRangeLoop (capacity : Nat) (range : VirtRange) (access : VmAreaFlags) :
    List VmArea → (rebuilt : List VmArea) → Except VmAreaError (List VmArea)
  | [], rebuilt => .ok rebuilt
  | area :: rest, rebuilt =>
    if ¬area.range.overlaps range then do
      let rebuilt ← appendArea rebuilt area capacity
      protectRangeLoop capacity range access rest rebuilt
    else do
      let rebuilt ← appendRest rebuilt area.range.start range.start area.flags area.kind capacity
      let rebuilt ← appendPart rebuilt (max area.range.start range.start) (min area.range.end_ range.end_)
        (area.flags.withAccess access) area.kind capacity
      let rebuilt ← appendRest rebuilt range.end_ area.range.end_ area.flags area.kind capacity
      protectRangeLoop capacity range access rest rebuilt

def protectRange (capacity : Nat) (reserve : Bool) (range : VirtRange) (access : VmAreaFlags) :
    EStateM VmAreaError VmAreaSet Nat := do
  ofExcept (validateOperationRange range)
  if access ≠ access.accessOnly then throw .invalidFlags
  else
  let s ← get
  let affected ← okOr (coverLoop range s.areas range.start 0) .notFound
  if !reserve then throw .metadataOutOfMemory
  else
  let rebuilt ← ofExcept (protectRangeLoop capacity range access s.areas [])
  set (VmAreaSet.mk rebuilt)
  return affected

def removeKindLoop (capacity : Nat) (kind : VmAreaKind) :
    List VmArea → (rebuilt : List VmArea) → (removed : Nat) → Except VmAreaError (List VmArea × Nat)
  | [], rebuilt, removed => .ok (rebuilt, removed)
  | area :: rest, rebuilt, removed =>
    if area.kind = kind then removeKindLoop capacity kind rest rebuilt (removed + 1)
    else do
      let rebuilt ← appendArea rebuilt area capacity
      removeKindLoop capacity kind rest rebuilt removed

def removeKind (capacity : Nat) (reserve : Bool) (kind : VmAreaKind) : EStateM VmAreaError VmAreaSet Nat := do
  let s ← get
  if !reserve then throw .metadataOutOfMemory
  else
  let (rebuilt, removed) ← ofExcept (removeKindLoop capacity kind s.areas [] 0)
  set (VmAreaSet.mk rebuilt)
  return removed

def findLoop (areas : List VmArea) (address : Nat) : (fuel left right : Nat) → Option VmArea
  | 0, _, _ => none
  | fuel + 1, left, right =>
    if left < right then
      let mid := left + (right - left) / 2
      match areas[mid]? with
      | some area =>
        if area.contains address then some area
        else if address < area.range.start then findLoop areas address fuel left mid
        else findLoop areas address fuel (mid + 1) right
      | none => none
    else none

def find (s : VmAreaSet) (address : Nat) : Option VmArea :=
  findLoop s.areas address s.areas.length 0 s.areas.length

def findFreeLoop (search : VirtRange) (size alignment : Nat) :
    List VmArea → (candidate : Nat) → Except VmAreaError VirtRange
  | [], candidate =>
    match VirtRange.fromStartSize candidate size with
    | none => .error .addressOverflow
    | some gap => if search.containsRange gap then .ok gap else .error .capacityExceeded
  | area :: rest, candidate =>
    if area.range.end_ ≤ candidate then findFreeLoop search size alignment rest candidate
    else
      match VirtRange.fromStartSize candidate size with
      | none => .error .addressOverflow
      | some gap =>
        if search.containsRange gap ∧ ¬gap.overlaps area.range then .ok gap
        else
          match alignUp area.range.end_ alignment with
          | none => .error .addressOverflow
          | some candidate => findFreeLoop search size alignment rest candidate

def findFreeRange (s : VmAreaSet) (search : VirtRange) (size alignment : Nat) : Except VmAreaError VirtRange :=
  if size = 0 then .error .emptyRange
  else if alignment < pageSize ∨ !isPowerOfTwo alignment then .error .unalignedRange
  else
    match alignUp size pageSize with
    | none => .error .addressOverflow
    | some size =>
      match alignUp search.start alignment with
      | none => .error .addressOverflow
      | some candidate => findFreeLoop search size alignment s.areas candidate

/-- One call on the set, with the outcome of its metadata reservation. -/
inductive Op
  | insert (reserve : Bool) (area : VmArea)
  | removeExact (range : VirtRange)
  | removeRange (reserve : Bool) (range : VirtRange)
  | protectRange (reserve : Bool) (range : VirtRange) (access : VmAreaFlags)
  | removeKind (reserve : Bool) (kind : VmAreaKind)

def Op.exec (capacity : Nat) : Op → EStateM VmAreaError VmAreaSet Unit
  | .insert reserve area => VmAreaSet.insert capacity reserve area
  | .removeExact range => (fun _ => ()) <$> VmAreaSet.removeExact range
  | .removeRange reserve range => (fun _ => ()) <$> VmAreaSet.removeRange capacity reserve range
  | .protectRange reserve range access => (fun _ => ()) <$> VmAreaSet.protectRange capacity reserve range access
  | .removeKind reserve kind => (fun _ => ()) <$> VmAreaSet.removeKind capacity reserve kind

/-- Histories of one set: calls in any order, failed ones included. -/
def system (capacity : Nat) : TransitionSystem VmAreaSet Op where
  init s := s = new
  step s op t := op.exec capacity s = .ok () t ∨ ∃ e, op.exec capacity s = .error e t

end VmAreaSet

end SudoOS
