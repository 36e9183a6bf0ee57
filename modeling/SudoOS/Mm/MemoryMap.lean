import SudoOS.Lib.Program
import SudoOS.Mm.PhysRange

/-! The table of usable physical memory that the boot code fills from the firmware's report. -/

namespace SudoOS

open Program

inductive MemoryMapError
  | capacityExceeded
deriving DecidableEq

/-- The two ranges that `reserve` expects to be valid. -/
inductive MemoryMapPanic
  | leftRange
  | rightRange
deriving DecidableEq

abbrev MemoryMapStop := Stop MemoryMapError MemoryMapPanic

structure MemoryMap (capacity : Nat) where
  free : Vector (Option PhysRange) capacity
deriving DecidableEq

namespace MemoryMap

variable {capacity : Nat}

def new : MemoryMap capacity := ⟨Vector.replicate capacity none⟩

def iter (m : MemoryMap capacity) : List PhysRange := m.free.toList.filterMap id

def len (m : MemoryMap capacity) : Nat := m.iter.length

structure Output (capacity : Nat) where
  entries : Vector (Option PhysRange) capacity
  length : Nat

def Output.empty : Output capacity := ⟨Vector.replicate capacity none, 0⟩

def pushEntry (output : Output capacity) (range : PhysRange) : Except MemoryMapStop (Output capacity) :=
  if range.isEmpty then .ok output
  else if h : output.length < capacity then
    .ok ⟨output.entries.set output.length (some range) h, output.length + 1⟩
  else .error (.error .capacityExceeded)

def reserveEntry (reserved : PhysRange) (output : Output capacity) (current : PhysRange) :
    Except MemoryMapStop (Output capacity) :=
  if ¬ current.overlaps reserved then pushEntry output current
  else do
    let output ←
      if current.start < reserved.start then
        match PhysRange.new current.start reserved.start with
        | some left => pushEntry output left
        | none => .error (.panic .leftRange)
      else .ok output
    if reserved.end_ < current.end_ then
      match PhysRange.new reserved.end_ current.end_ with
      | some right => pushEntry output right
      | none => .error (.panic .rightRange)
    else .ok output

def mergeEntry (state : Output capacity × Option PhysRange) (current : PhysRange) :
    Except MemoryMapStop (Output capacity × Option PhysRange) :=
  match state with
  | (output, some candidate) =>
    if current.end_ < candidate.start then do return (← pushEntry output current, some candidate)
    else if candidate.end_ < current.start then do
      let output ← pushEntry output candidate
      return (← pushEntry output current, none)
    else .ok (output, some (candidate.span current))
  | (output, none) => do return (← pushEntry output current, none)

abbrev MemoryMapM (capacity : Nat) := EStateM MemoryMapStop (MemoryMap capacity)

def insertMerged (range : PhysRange) : MemoryMapM capacity Unit := do
  let map ← get
  let (output, pending) ← ofExcept (map.iter.foldlM mergeEntry (Output.empty, some range))
  match pending with
  | some candidate =>
    let output ← ofExcept (pushEntry output candidate)
    set (⟨output.entries⟩ : MemoryMap capacity)
  | none => set (⟨output.entries⟩ : MemoryMap capacity)

def addUsable (range : PhysRange) : MemoryMapM capacity Unit :=
  match range.pageAlignedInside with
  | some range => insertMerged range
  | none => pure ()

def reserve (range : PhysRange) : MemoryMapM capacity Unit :=
  match range.coveringPages with
  | some reserved => do
    let map ← get
    let output ← ofExcept (map.iter.foldlM (reserveEntry reserved) Output.empty)
    set (⟨output.entries⟩ : MemoryMap capacity)
  | none => pure ()

inductive Call
  | addUsable (range : PhysRange)
  | reserve (range : PhysRange)
deriving DecidableEq

def Call.run : Call → MemoryMapM capacity Unit
  | .addUsable range => MemoryMap.addUsable range
  | .reserve range => MemoryMap.reserve range

def perform (m : MemoryMap capacity) (call : Call) : MemoryMap capacity :=
  match call.run m with
  | .ok _ t => t
  | .error _ t => t

/-- The table after a sequence of calls. -/
def performAll (m : MemoryMap capacity) (calls : List Call) : MemoryMap capacity := calls.foldl perform m

end MemoryMap

end SudoOS
