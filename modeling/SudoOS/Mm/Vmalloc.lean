import SudoOS.Mm.Vma

/-!
The allocator of kernel address space. A reservation is the range handed out together with one page on either side of it
that is never mapped.
-/

namespace SudoOS

open Program

inductive VmallocKind
  | vmalloc
  | ioRemap (physical : Nat)
deriving DecidableEq

structure KernelVirtualReservation where
  usable : VirtRange
  reserved : VirtRange
  kind : VmallocKind
deriving DecidableEq

structure KernelVirtualAllocator where
  arena : VirtRange
  areas : VmAreaSet
deriving DecidableEq

namespace VmallocKind

def flags : VmallocKind → VmAreaFlags
  | .vmalloc => { read := true, write := true }
  | .ioRemap _ => { read := true, write := true, device := true }

def areaKind : VmallocKind → VmAreaKind
  | .vmalloc => .vmalloc
  | .ioRemap physical => .ioRemap physical

end VmallocKind

namespace KernelVirtualAllocator

def new (arena : VirtRange) : KernelVirtualAllocator := ⟨arena, .new⟩

def onAreas {α : Type} (x : EStateM VmAreaError VmAreaSet α) : EStateM VmAreaError KernelVirtualAllocator α :=
  zoom KernelVirtualAllocator.areas (fun areas s => { s with areas := areas }) id x

def reserve (capacity : Nat) (memory : Bool) (size alignment : Nat) (kind : VmallocKind) :
    EStateM VmAreaError KernelVirtualAllocator KernelVirtualReservation := do
  let size ← okOr (alignUp size pageSize) .addressOverflow
  let alignment := max alignment pageSize
  ensure (isPowerOfTwo alignment) .unalignedRange
  let guardedSize ← okOr (checkedAdd size (pageSize * 2)) .addressOverflow
  let s ← get
  let reserved ← ofExcept (s.areas.findFreeRange s.arena guardedSize alignment)
  let usableStart ← okOr (checkedAdd reserved.start pageSize) .addressOverflow
  let usable ← okOr (VirtRange.fromStartSize usableStart size) .addressOverflow
  onAreas (VmAreaSet.insert capacity memory ⟨reserved, kind.flags, kind.areaKind⟩)
  return ⟨usable, reserved, kind⟩

def release (reservation : KernelVirtualReservation) : EStateM VmAreaError KernelVirtualAllocator Unit := do
  let _ ← onAreas (VmAreaSet.removeExact reservation.reserved)
  return ()

end KernelVirtualAllocator

structure VmallocHistory where
  allocator : KernelVirtualAllocator
  live : List (Nat × KernelVirtualReservation)

namespace VmallocHistory

inductive Op
  | reserve (memory : Bool) (size alignment : Nat) (kind : VmallocKind)
  | release (reservation : KernelVirtualReservation)

def exec (capacity : Nat) (s : VmallocHistory) : Op → VmallocHistory
  | .reserve memory size alignment kind =>
    match KernelVirtualAllocator.reserve capacity memory size alignment kind s.allocator with
    | .ok r allocator => ⟨allocator, (alignment, r) :: s.live⟩
    | .error _ allocator => ⟨allocator, s.live⟩
  | .release r =>
    match KernelVirtualAllocator.release r s.allocator with
    | .ok _ allocator => ⟨allocator, s.live.eraseP fun h => h.2.reserved = r.reserved⟩
    | .error _ allocator => ⟨allocator, s.live⟩

def Op.Aligned : Op → Prop
  | .reserve _ _ alignment _ => isPowerOfTwo alignment = true ∧ alignment < usizeLimit
  | .release _ => True

def system (arena : VirtRange) (capacity : Nat) : TransitionSystem VmallocHistory Op where
  init s := s = ⟨.new arena, []⟩
  step s op t := op.Aligned ∧ t = s.exec capacity op

end VmallocHistory

end SudoOS
