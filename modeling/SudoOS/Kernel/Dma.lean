import SudoOS.Kernel.PageTable

/-! The physical address that a device is given for a buffer of the kernel. -/

namespace SudoOS

open RuntimePageTable

def directMap : VirtRange := .fromBounds 0xffff_ffd6_0000_0000 0xffff_fff6_0000_0000

def kernelImage : VirtRange := .fromBounds 0xffff_ffff_8000_0000 0xffff_ffff_ffff_f000

def kernelPhysBase : Nat := 0x8040_0000

def kernelLinkBase : Nat := 0xffff_ffff_8000_0000

def directToPhys (address : Nat) : Option Nat :=
  if ¬directMap.contains address then none else some (address - directMap.start)

def kernelImagePhysicalAddress (address : Nat) : Option Nat :=
  if ¬kernelImage.contains address then none
  else (checkedSub address kernelLinkBase).bind (checkedAdd kernelPhysBase)

def kernelTranslate (slot : Option PageTableState) (address : Nat) : Option Nat :=
  match slot with
  | none => none
  | some table =>
    match translate table address with
    | .ok physical => physical
    | .error _ => none

def rangeFits (address size : Nat) (range : VirtRange) : Prop :=
  ∃ end_ ∈ checkedAdd address size, range.contains address ∧ end_ ≤ range.end_

instance (address size : Nat) (range : VirtRange) : Decidable (rangeFits address size range) :=
  match h : checkedAdd address size with
  | none => .isFalse (by simp [rangeFits, h])
  | some end_ => decidable_of_iff (range.contains address ∧ end_ ≤ range.end_) (by simp [rangeFits, h])

def translateKernelContiguous (slot : Option PageTableState) (address size : Nat) : Option Nat := do
  if size = 0 then kernelTranslate slot address
  else
    let end_ ← checkedAdd address (size - 1)
    let startPhys ← kernelTranslate slot address
    let endPhys ← kernelTranslate slot end_
    let expectedEnd ← checkedAdd startPhys (size - 1)
    if expectedEnd = endPhys then some startPhys else none

def virtualToPhysical (slot : Option PageTableState) (address size : Nat) : Option Nat :=
  if rangeFits address size directMap then directToPhys address
  else if rangeFits address size kernelImage then kernelImagePhysicalAddress address
  else translateKernelContiguous slot address size

end SudoOS
