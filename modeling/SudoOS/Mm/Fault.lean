import SudoOS.Mm.AddressSpace

/-! What the layout says about a page fault. -/

namespace SudoOS

inductive FaultAccess
  | read
  | write
  | execute
deriving DecidableEq

inductive FaultSource
  | user
  | kernel
deriving DecidableEq

structure PageFault where
  address : Nat
  access : FaultAccess
  source : FaultSource
  present : Bool
deriving DecidableEq

inductive FaultOutcome
  | mapAnonymous (area : VmArea)
  | copyOnWrite (area : VmArea)
  | loadFile (area : VmArea) (object offset : Nat)
  | mapDevice (area : VmArea) (physical : Nat)
  | protectionViolation (area : VmArea)
  | segmentationViolation
  | spurious (area : VmArea)
  | kernelBug
deriving DecidableEq

def accessAllowed (flags : VmAreaFlags) : FaultAccess → Bool
  | .read => flags.read
  | .write => flags.write || flags.copyOnWrite
  | .execute => flags.execute

/-- `resolve`; `none` where the sum of a file offset and the place in the area overflows, which is checked. -/
def PageFault.resolve (f : PageFault) (space : AddressSpace) : Option FaultOutcome :=
  match space.findArea f.address with
  | none =>
    match f.source with
    | .user => some .segmentationViolation
    | .kernel => some .kernelBug
  | some area =>
    if f.present ∧ f.access = .write ∧ area.flags.copyOnWrite then some (.copyOnWrite area)
    else if !accessAllowed area.flags f.access then some (.protectionViolation area)
    else if f.present then some (.spurious area)
    else
      match area.kind with
      | .anonymous | .heap | .stack => some (.mapAnonymous area)
      | .fileBacked object offset =>
        (checkedAdd offset (f.address - area.range.start)).map fun offset => .loadFile area object offset
      | .device physical | .ioRemap physical => some (.mapDevice area physical)
      | .kernel | .vmalloc => some .kernelBug

end SudoOS
