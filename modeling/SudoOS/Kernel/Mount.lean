import SudoOS.Kernel.Vfs

/-!
Mounting on a directory and taking the mount away again: what the calls do to the directory and to the table of mounts.
Finding the directory and reading the device are inputs of the call.
-/

namespace SudoOS

namespace Vfs

open Ext4 Program

inductive MountFsType
  | tmpfs
  | devtmpfs
  | proc
  | sysfs
  | ext4
  | vfat
deriving DecidableEq

structure MountEntry where
  target : Path
  source : Path
  fsType : MountFsType
  flags : Nat
deriving DecidableEq

structure MountState (α η : Type) where
  target : Locked α η
  readOnly : Bool
  mounts : List MountEntry

abbrev MountM (α η : Type) := EStateM Errno (MountState α η)

/-- What a call finds: the node at the target (whether it is a directory), the devices, their superblocks and volumes. -/
structure MountInput where
  lookup : Except Errno Bool
  openDevice : Name → Option Nat
  verifyExt4Superblock : Nat → Except Errno Unit
  openVolume : Nat → Except Ext4Error Unit

/-- What is left to do once the checks of a call have passed. -/
inductive MountPlan
  | ext4 (source : Path) (device : Nat) (empty : Bool)
  | vfat (source : Path) (empty : Bool)
  | filled (source : Path) (fsType : MountFsType) (first : Nat × Name) (rest : List (Nat × Name))
  | plain (source : Path) (fsType : MountFsType)

def parseMountFsType (filesystemType : Path) : Except Errno MountFsType :=
  if filesystemType = str "tmpfs" then .ok .tmpfs
  else if filesystemType = str "devtmpfs" then .ok .devtmpfs
  else if filesystemType = str "proc" then .ok .proc
  else if filesystemType = str "sysfs" then .ok .sysfs
  else if filesystemType = str "ext4" then .ok .ext4
  else if filesystemType = str "vfat" then .ok .vfat
  else .error .enodev

def stripFront (front path : Path) : Option Path := if front.isPrefixOf path then some (path.drop front.length) else none

def normalizeBlockSource (source : Path) : Except Errno Name := do
  let source := (stripFront (str "dev:") source).getD source
  let name := (stripFront (str "/dev/") source).getD source
  validateComponent name
  pure name

section calls
variable {α η : Type} (disk : Nat → Ext4FileSystem) (keep : Node → η → α × η) (make : Name → Nat → η → α × η)
    (i : MountInput)

def inTarget {β : Type} (x : DirectoryM α η β) : MountM α η β :=
  zoom MountState.target (fun target s => { s with target }) id x

def ensureMountTargetFree (target : Path) : MountM α η Unit := do
  let s ← get
  ensure (∀ entry ∈ s.mounts, entry.target ≠ target) .ebusy

def directoryIsEmpty : MountM α η Bool := do
  inTarget (DirectoryM.populate disk keep)
  let s ← get
  pure s.target.directory.children.isEmpty

def insertMount (source target : Path) (fsType : MountFsType) (flags : Nat) : MountM α η Unit := do
  ensureMountTargetFree target
  inTarget (DirectoryM.onMemory do
    reserve
    reserve
    reserve)
  modify fun s => { s with mounts := s.mounts ++ [{ target, source, fsType, flags }] }

def clearTarget : MountM α η Unit :=
  modify fun s => { s with target := { s.target with directory := { children := ∅, overlay := none } } }

def clearUnless (empty : Bool) : MountM α η Unit := if empty then pure () else clearTarget

def snapshotRoot (device : Nat) : Except Errno Nat :=
  match i.openVolume device, (disk device).rootInfo with
  | .error e, _ => .error (ext4Errno e)
  | .ok _, .error e => .error (ext4Errno e)
  | .ok _, .ok root => if root.kind = .directory then .ok root.ino else .error .enotdir

def installExt4Snapshot (device : Nat) : MountM α η Unit := do
  let ino ← ofExcept (snapshotRoot disk i device)
  modify fun s => { s with readOnly := false, target := { s.target with directory := .ofVolume device ino } }

def fillEntry (entry : Nat × Name) : DirectoryM α η Unit := do
  DirectoryM.onMemory ((List.replicate entry.1 ()).forM fun _ => reserve)
  DirectoryM.insertChild entry.2 (make entry.2)

def mountSource (source : Option Path) : MountM α η (Path × Nat) := do
  let source ← okOr source .enodev
  let name ← ofExcept (normalizeBlockSource source)
  let device ← okOr (i.openDevice name) .enodev
  pure (source, device)

def checkFilled (target : Path) : MountM α η Unit := do
  ensureMountTargetFree target
  let empty ← directoryIsEmpty disk keep
  ensure empty .ebusy

def mountChecks (source : Option Path) (target filesystemType : Path) : MountM α η MountPlan := do
  let fsType ← ofExcept (parseMountFsType filesystemType)
  let isDirectory ← ofExcept i.lookup
  ensure isDirectory .enotdir
  match fsType with
  | .ext4 => do
    let (source, device) ← mountSource i source
    ofExcept (i.verifyExt4Superblock device)
    ensureMountTargetFree target
    let empty ← directoryIsEmpty disk keep
    pure (.ext4 source device empty)
  | .vfat => do
    let (source, _) ← mountSource i source
    ensureMountTargetFree target
    let empty ← directoryIsEmpty disk keep
    pure (.vfat source empty)
  | .proc => do
    checkFilled disk keep target
    pure (.filled (source.getD (str "proc")) .proc (0, str "version")
      [(0, str "cpuinfo"), (0, str "meminfo"), (0, str "uptime"), (0, str "mounts")])
  | .sysfs => do
    checkFilled disk keep target
    pure (.filled (source.getD (str "sysfs")) .sysfs (2, str "kernel") [(1, str "devices"), (2, str "class")])
  | fsType => pure (.plain (source.getD (str "none")) fsType)

def mountCommit (target : Path) (flags : Nat) : MountPlan → MountM α η Unit
  | .ext4 source device empty => do
    clearUnless empty
    installExt4Snapshot disk i device
    insertMount source target .ext4 flags
  | .vfat source empty => do
    clearUnless empty
    insertMount source target .vfat flags
  | .filled source fsType first rest => do
    inTarget (fillEntry make first)
    inTarget (rest.forM (fillEntry make))
    insertMount source target fsType flags
  | .plain source fsType => insertMount source target fsType flags

def mount (source : Option Path) (target filesystemType : Path) (flags : Nat) : MountM α η Unit := do
  let plan ← mountChecks disk keep i source target filesystemType
  mountCommit disk make i target flags plan

end calls

end Vfs

end SudoOS
