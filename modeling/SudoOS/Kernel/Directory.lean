import SudoOS.Kernel.Ext4Directory

/-!
Nodes of the VFS and the operations on the entries of one directory, under the lock of its node. What stands for a child is
left open: the operations are about names, and make a child out of an inode of the volume below through `keep`.
-/

namespace SudoOS

namespace Vfs

open Ext4

abbrev Entries (α : Type) := Std.ExtTreeMap Name α compare

abbrev NameSet := Std.ExtTreeSet Name compare

structure Overlay where
  fs : Nat
  ino : Nat
  populated : Bool
  whiteouts : NameSet
  negative : NameSet

structure Directory (α : Type) where
  children : Entries α
  overlay : Option Overlay

inductive DeviceKind
  | null
  | zero
  | console
  | random
  | urandom
  | ptmx
  | rtc
deriving DecidableEq

inductive NodeState
  | directory (entries : Directory Nat)
  | regular (data : List UInt8)
  | ext4Regular (fs ino size : Nat) (overlay : Option (List UInt8))
  | symlink (target : Path)
  | device (kind : DeviceKind)
  | blockDevice (name : Name)
  | procFile

inductive FileType
  | regular
  | directory
  | charDevice
  | blockDevice
  | symlink
  | unknown
deriving DecidableEq

def FileType.ofMode (mode : Nat) : FileType :=
  match mode &&& 0o170000 with
  | 0o100000 => .regular
  | 0o040000 => .directory
  | 0o020000 => .charDevice
  | 0o060000 => .blockDevice
  | 0o120000 => .symlink
  | _ => .unknown

/-- A node. `origin` is only for reasoning: the volume and inode that the node was made from. -/
structure Node where
  ino : Nat
  parentIno : Nat
  nlink : Nat
  mode : Nat
  readOnly : Bool
  state : NodeState
  origin : Option (Nat × Nat)

def Node.fileType (node : Node) : FileType := .ofMode node.mode

def blockErrno : BlockError → Errno
  | .addressOverflow => .eoverflow
  | .badBlockSize | .bufferTooSmall | .invalidArgument | .outOfRange => .einval
  | .deviceReadOnly => .erofs
  | .metadataOutOfMemory => .enomem

def ext4Errno : Ext4Error → Errno
  | .addressOverflow | .fileTooLarge => .eoverflow
  | .badBlockSize | .badDirectory | .badExtentTree | .badGroupDescriptor | .badInode | .invalidSuperblock => .einval
  | .blockIo error => blockErrno error
  | .invalidFeatureSet | .unsupported => .enosys
  | .notFound => .enoent
  | .outOfMemory => .enomem

def Directory.ofVolume {α : Type} (fs ino : Nat) : Directory α :=
  { children := ∅, overlay := some { fs, ino, populated := false, whiteouts := ∅, negative := ∅ } }

section ext4
variable (disk : Nat → Ext4FileSystem)

def ext4State (fs : Nat) (info : Ext4NodeInfo) : Except Errno NodeState :=
  match info.kind with
  | .directory => .ok (.directory (.ofVolume fs info.ino))
  | .regular => .ok (.ext4Regular fs info.ino info.size none)
  | .symlink =>
    match (disk fs).readSymlinkInode info.ino with
    | .ok target => .ok (.symlink target)
    | .error e => .error (ext4Errno e)

def ext4Node (parentIno fs : Nat) (info : Ext4NodeInfo) : Except Errno Node := do
  let state ← ext4State disk fs info
  pure {
    ino := info.ino, parentIno, nlink := 1, mode := info.mode, readOnly := false, state, origin := some (fs, info.ino) }

end ext4

namespace Directory

variable {α : Type}

def setOverlay (d : Directory α) (f : Overlay → Overlay) : Directory α := { d with overlay := d.overlay.map f }

def put (d : Directory α) (name : Name) (child : α) : Directory α := { d with children := d.children.insert name child }

def erase (d : Directory α) (name : Name) : Directory α := { d with children := d.children.erase name }

def forget (d : Directory α) (name : Name) : Directory α :=
  d.setOverlay fun o => { o with negative := o.negative.erase name }

def reveal (d : Directory α) (name : Name) : Directory α :=
  (d.forget name).setOverlay fun o => { o with whiteouts := o.whiteouts.erase name }

def hide (d : Directory α) (name : Name) : Directory α :=
  (d.forget name).setOverlay fun o => { o with whiteouts := o.whiteouts.insert name }

def hides (d : Directory α) (name : Name) : Bool :=
  match d.overlay with
  | some o => o.whiteouts.contains name
  | none => true

def backing (d : Directory α) (name : Name) : Option (Nat × Nat) :=
  match d.overlay with
  | some o => if o.populated ∨ name ∈ o.whiteouts ∨ name ∈ o.negative then none else some (o.fs, o.ino)
  | none => none

def maxNegativeDentries : Nat := 256

def rememberMissing (d : Directory α) (name : Name) : Directory α :=
  d.setOverlay fun o =>
    if o.negative.size < maxNegativeDentries then { o with negative := o.negative.insert name } else o

end Directory

structure Locked (α η : Type) where
  ino : Nat
  directory : Directory α
  memory : Memory
  rest : η

def Locked.place {α η : Type} (s : Locked α η) (name : Name) (made : α × η) : Locked α η :=
  { s with directory := s.directory.put name made.1, rest := made.2 }

abbrev DirectoryM (α η : Type) := EStateM Errno (Locked α η)

namespace DirectoryM

variable {α η : Type}

def onMemory {β : Type} (x : MemoryM β) : DirectoryM α η β :=
  Program.zoom Locked.memory (fun memory s => { s with memory }) id x

def change (f : Directory α → Directory α) : DirectoryM α η Unit := modify fun s => { s with directory := f s.directory }

def insertChild (name : Name) (child : Nat → η → α × η) : DirectoryM α η Unit := do
  change (·.reveal name)
  let s ← get
  Program.ensure (name ∉ s.directory.children) .eexist
  onMemory reserve
  modify fun s => s.place name (child s.ino s.rest)

def insertChildPrepared (name : Name) (child : Nat → η → α × η) (replaceExisting : Bool) : DirectoryM α η Unit := do
  change (·.reveal name)
  let s ← get
  Program.ensure (name ∈ s.directory.children → replaceExisting) .eexist
  modify fun s => s.place name (child s.ino s.rest)

def reserveChildSlot (name : Name) (replaceExisting : Bool) : DirectoryM α η Unit := do
  let s ← get
  Program.ensure (name ∈ s.directory.children → replaceExisting) .eexist

def whiteout (name : Name) : DirectoryM α η Unit := do
  change (·.forget name)
  let s ← get
  if s.directory.hides name = false then
    discard (onMemory (cloneComponent name))
    change (·.hide name)

def removeChildUnchecked (name : Name) : DirectoryM α η α := do
  whiteout name
  let s ← get
  let child ← Program.okOr s.directory.children[name]? .enoent
  change (·.erase name)
  pure child

def renameInsideParent (oldName newName : Name) : DirectoryM α η Unit := do
  change (·.forget newName)
  whiteout oldName
  change fun d => d.setOverlay fun o => { o with whiteouts := o.whiteouts.erase newName }
  if oldName = newName then pure ()
  else do
    let s ← get
    let source ← Program.okOr s.directory.children[oldName]? .enoent
    change fun d => ((d.erase oldName).erase newName).put newName source

section ext4
variable (disk : Nat → Ext4FileSystem) (keep : Node → η → α × η)

def addChild (name : Name) (node : Node) : DirectoryM α η α := do
  let s ← get
  set (s.place name (keep node s.rest))
  pure (keep node s.rest).1

def missing (name : Name) : DirectoryM α η (Option α) := do
  match ← Program.attempt Locked.memory (fun memory s => { s with memory }) (cloneComponent name) with
  | .ok _ =>
    change (·.rememberMissing name)
    pure none
  | .error _ => pure none

def lookupChild (name : Name) : DirectoryM α η (Option α) := do
  let s ← get
  match s.directory.children[name]? with
  | some child => pure (some child)
  | none =>
    match s.directory.backing name with
    | none => pure none
    | some (fs, ino) =>
      match (disk fs).lookupChildInfo ino name with
      | .error .notFound => missing name
      | .error e => throw (ext4Errno e)
      | .ok info => do
        let node ← ofExcept (ext4Node disk s.ino fs info)
        discard (onMemory (cloneComponent name))
        change (·.forget name)
        some <$> addChild keep name node

def loadEntry (entry : Name × Node) : DirectoryM α η Unit := do
  let s ← get
  if s.directory.hides entry.1 ∨ entry.1 ∈ s.directory.children then pure ()
  else discard (addChild keep entry.1 entry.2)

def populate : DirectoryM α η Unit := do
  let s ← get
  match s.directory.overlay with
  | none => pure ()
  | some o =>
    if o.populated then pure ()
    else
      match (disk o.fs).listDirectoryInfo o.ino with
      | .error e => throw (ext4Errno e)
      | .ok entries => do
        onMemory reserve
        let loaded ← ofExcept (entries.mapM fun entry => do
          let node ← ext4Node disk s.ino o.fs entry.2
          pure (entry.1, node))
        loaded.forM (loadEntry keep)
        change (·.setOverlay fun o => { o with negative := ∅, populated := true })

end ext4

end DirectoryM

end Vfs

end SudoOS
