import SudoOS.Mm.Fault
import SudoOS.Mm.Tlb

/-!
The architecture-neutral half of a user address space: its layout, its identifier, the CPUs that run with it and the
sequence number of its invalidations.
-/

namespace SudoOS

open Program

inductive UserMmError
  | addressSpace (e : AddressSpaceError)
  | cpuMask (e : CpuMaskError)
  | asidMismatch
  | tlbGenerationMismatch (expected observed : Nat)
  | tlbGenerationOverflow
  | addressOverflow
  | notStack
  | stackGrowthDenied
  | activeOnCpu
deriving DecidableEq

inductive UserSpacePanic
  | fileOffsetOverflow
  | stackGrowthRollback
deriving DecidableEq

abbrev UserSpaceStop := Stop UserMmError UserSpacePanic

structure UserAddressSpace where
  layout : AddressSpace
  asid : AsidToken
  activeCpus : CpuMask
  tlbGeneration : Nat
deriving DecidableEq

structure StackGrowth where
  oldArea : VmArea
  newArea : VmArea
  faultPage : Nat
deriving DecidableEq

inductive UserFaultPlan
  | mapAnonymous (area : VmArea) (page : Nat)
  | growStack (growth : StackGrowth)
  | copyOnWriteUnsupported (area : VmArea)
  | protectionViolation (area : VmArea)
  | segmentationViolation
  | spurious (area : VmArea)
  | kernelBug
deriving DecidableEq

def stackGuardGap : Nat := pageSize
def stackGrowthStep : Nat := pageSize * 256
def stackSpDistance : Nat := pageSize * 16

abbrev UserSpaceM := EStateM UserSpaceStop UserAddressSpace

namespace UserAddressSpace

def new (userRange : VirtRange) (asid : AsidToken) : UserAddressSpace := ⟨.new userRange, asid, .empty, 0⟩

/-! ### The CPUs that run with the address space -/

def nextTlbGeneration : UserSpaceM Nat := do
  let s ← get
  let next ← okOr (checkedAdd s.tlbGeneration 1) (.error .tlbGenerationOverflow)
  set { s with tlbGeneration := next }
  return next

def planTlbRequest (flush : TlbFlush) : UserSpaceM PerMmTlbRequest := do
  let s ← get
  if flush.scope ≠ .addressSpace s.asid.id then throw (.error .asidMismatch)
  else
    let generation ← nextTlbGeneration
    return ⟨s.asid, s.activeCpus, flush, generation⟩

def planPostInstallTlb (page : Nat) : UserSpaceM PerMmTlbRequest := do
  let page ← okOr (alignDown page pageSize) (.error .addressOverflow)
  let s ← get
  planTlbRequest (.page (.addressSpace s.asid.id) page)

/-! ### The plan for a fault -/

def stackGrowthLoop (userRange : VirtRange) (fault faultPage userSp guardGap growthStep spDistance : Nat) :
    (previous : Option VmArea) → List VmArea → Except UserMmError StackGrowth
  | _, [] => .error .stackGrowthDenied
  | previous, area :: rest =>
    let next := stackGrowthLoop userRange fault faultPage userSp guardGap growthStep spDistance (some area) rest
    if area.kind ≠ .stack ∨ !area.flags.growDown ∨ area.range.start ≤ faultPage then next
    else
      match checkedSub area.range.start growthStep with
      | none => .error .addressOverflow
      | some stepLimit =>
        if ¬(stepLimit ≤ userSp ∧ userSp < area.range.start ∨ area.range.contains userSp ∨ userSp = area.range.end_) then
          next
        else if faultPage < stepLimit then next
        else
          match checkedSub userSp spDistance with
          | none => .error .addressOverflow
          | some spLimit =>
            if fault < spLimit then next
            else
              match previous.map fun p => checkedAdd p.range.end_ guardGap with
              | some none => .error .addressOverflow
              | minimum =>
                if minimum.any fun m => m.any fun start => faultPage < start then next
                else
                  match VirtRange.new faultPage area.range.end_ with
                  | none => .error .addressOverflow
                  | some range =>
                    if ¬userRange.containsRange range then next
                    else .ok ⟨area, ⟨range, area.flags, area.kind⟩, faultPage⟩

def planStackGrowth (s : UserAddressSpace) (fault userSp guardGap growthStep spDistance : Nat) :
    Except UserMmError StackGrowth :=
  match alignDown fault pageSize with
  | none => .error .addressOverflow
  | some faultPage =>
    stackGrowthLoop s.layout.userRange fault faultPage userSp guardGap growthStep spDistance none s.layout.areas.areas

def planUserFaultWithLimits (s : UserAddressSpace) (fault : PageFault) (userSp guardGap growthStep spDistance : Nat) :
    Except UserSpaceStop UserFaultPlan :=
  if fault.source ≠ .user then .ok .kernelBug
  else
    match fault.resolve s.layout with
    | none => .error (.panic .fileOffsetOverflow)
    | some (.mapAnonymous area) | some (.loadFile area _ _) =>
      match alignDown fault.address pageSize with
      | none => .error (.error .addressOverflow)
      | some page => .ok (.mapAnonymous area page)
    | some (.copyOnWrite area) => .ok (.copyOnWriteUnsupported area)
    | some (.mapDevice _ _) => .ok .kernelBug
    | some (.protectionViolation area) => .ok (.protectionViolation area)
    | some (.spurious area) => .ok (.spurious area)
    | some .kernelBug => .ok .kernelBug
    | some .segmentationViolation =>
      match s.planStackGrowth fault.address userSp guardGap growthStep spDistance with
      | .ok growth => .ok (.growStack growth)
      | .error .stackGrowthDenied => .ok .segmentationViolation
      | .error e => .error (.error e)

def planUserFault (s : UserAddressSpace) (fault : PageFault) (userSp : Nat) : Except UserSpaceStop UserFaultPlan :=
  s.planUserFaultWithLimits fault userSp stackGuardGap stackGrowthStep stackSpDistance

/-! ### Changes of the layout -/

def onLayout {α : Type} (x : AddressSpaceM α) : UserSpaceM α :=
  zoom UserAddressSpace.layout (fun layout s => { s with layout := layout }) (fun e => .error (.addressSpace e)) x

def expectLayout {α : Type} (x : AddressSpaceM α) : UserSpaceM α :=
  zoom UserAddressSpace.layout (fun layout s => { s with layout := layout }) (fun _ => .panic .stackGrowthRollback) x

/-- `commit_stack_growth`; the removal leaves room in the vector of areas, so putting an area back needs no memory. -/
def commitStackGrowth (capacity : Nat) (plan : StackGrowth) : UserSpaceM Unit := do
  let removed ← onLayout (AddressSpace.unmapExact plan.oldArea.range)
  if removed ≠ plan.oldArea then
    expectLayout (AddressSpace.mapArea capacity true removed)
    throw (.error .notStack)
  else
    let s ← get
    match AddressSpace.mapArea capacity true plan.newArea s.layout with
    | .ok _ layout => set { s with layout := layout }
    | .error e layout =>
      set { s with layout := layout }
      expectLayout (AddressSpace.mapArea capacity true removed)
      throw (.error (.addressSpace e))

end UserAddressSpace

end SudoOS
