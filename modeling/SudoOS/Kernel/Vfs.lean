import SudoOS.Kernel.Directory
import SudoOS.Lib.TransitionSystem

/-!
The VFS: the nodes, path lookup, and the calls that make, move and remove names. Every call that changes names runs under
the lock of the tree, so calls come one after another.
-/

namespace SudoOS

namespace Vfs

open Ext4 Program

/-- All nodes ever kept, in the order they were made; the root comes first. -/
structure Heap where
  nodes : List Node
  nextInode : Nat
  memory : Memory

abbrev VfsM := EStateM Errno Heap

namespace Heap

def modifyNode (s : Heap) (id : Nat) (f : Node → Node) : Heap := { s with nodes := s.nodes.modify id f }

def setDirectory (s : Heap) (id : Nat) (d : Directory Nat) : Heap :=
  s.modifyNode id fun node => { node with state := .directory d }

def push (s : Heap) (node : Node) : Nat × Heap := (s.nodes.length, { s with nodes := s.nodes ++ [node] })

end Heap

def rootId : Nat := 0

def nodeAt (id : Nat) : VfsM Node := do
  let s ← get
  okOr s.nodes[id]? .enodev

def onMemory {α : Type} (x : MemoryM α) : VfsM α := zoom Heap.memory (fun memory s => { s with memory }) id x

def inDirectory {α : Type} (id : Nat) (x : DirectoryM Nat Heap α) : VfsM α := do
  let node ← nodeAt id
  match node.state with
  | .directory d =>
    zoom (fun s => { ino := node.ino, directory := d, memory := s.memory, rest := s })
      (fun locked _ => { locked.rest with memory := locked.memory }.setDirectory id locked.directory) (fun e => e) x
  | _ => throw .enotdir

def fresh (node : Node) (parentIno : Nat) (s : Heap) : Nat × Heap := s.push { node with parentIno }

def adopt (id : Nat) (parentIno : Nat) (s : Heap) : Nat × Heap := (id, s.modifyNode id fun node => { node with parentIno })

def insertChild (parent : Nat) (name : Name) (child : Nat → Heap → Nat × Heap) : VfsM Unit := do
  ofExcept (validateComponent name)
  inDirectory parent (DirectoryM.insertChild name child)

def insertChildPrepared (parent : Nat) (name : Name) (child : Nat → Heap → Nat × Heap) (replaceExisting : Bool) :
    VfsM Unit := do
  ofExcept (validateComponent name)
  inDirectory parent (DirectoryM.insertChildPrepared name child replaceExisting)

def reserveChildSlot (parent : Nat) (name : Name) (replaceExisting : Bool) : VfsM Unit := do
  ofExcept (validateComponent name)
  inDirectory parent (DirectoryM.reserveChildSlot name replaceExisting)

def removeChildUnchecked (parent : Nat) (name : Name) : VfsM Nat := do
  ofExcept (validateComponent name)
  inDirectory parent (DirectoryM.removeChildUnchecked name)

def renameInsideParent (parent : Nat) (oldName newName : Name) : VfsM Unit := do
  ofExcept (validateComponent oldName)
  ofExcept (validateComponent newName)
  inDirectory parent (DirectoryM.renameInsideParent oldName newName)

def isNodeReadOnly (id : Nat) : VfsM Bool := do
  let node ← nodeAt id
  pure node.readOnly

def ensureWritable (id : Nat) : VfsM Unit := do
  let readOnly ← isNodeReadOnly id
  ensure (readOnly = false) .erofs

/-! ### New nodes -/

def allocateInode : VfsM Nat := do
  let s ← get
  set { s with nextInode := (s.nextInode + 1) % 2 ^ 64 }
  pure s.nextInode

def newNode (mode : Nat) (readOnly : Bool) (state : NodeState) : VfsM Node := do
  let ino ← allocateInode
  pure { ino, parentIno := 0, nlink := 1, mode, readOnly, state, origin := none }

def directory (mode : Nat) : VfsM Node := newNode mode false (.directory { children := ∅, overlay := none })

def regular : VfsM Node := newNode 0o100644 false (.regular [])

def symlinkNode (target : Path) : VfsM Node := newNode 0o120777 false (.symlink target)

def device (kind : DeviceKind) : VfsM Node := newNode 0o020666 false (.device kind)

def blockDeviceNode (name : Name) : VfsM Node := newNode 0o060660 false (.blockDevice name)

section calls
variable (disk : Nat → Ext4FileSystem)

/-! ### Lookup -/

def keep (node : Node) (s : Heap) : Nat × Heap := s.push node

def lookupChild (parent : Nat) (name : Name) : VfsM (Option Nat) := do
  ofExcept (validateComponent name)
  inDirectory parent (DirectoryM.lookupChild disk keep name)

def requireChild (parent : Nat) (name : Name) : VfsM Nat := do
  let child ← lookupChild disk parent name
  okOr child .enoent

def populateExt4Directory (id : Nat) : VfsM Unit := inDirectory id (DirectoryM.populate disk keep)

def maxSymlinkFollows : Nat := 40

/-- The path that a link stands for, with the names that come behind it. -/
def resolveLink (node : Node) (before rest : List Name) : VfsM Path :=
  match node.state with
  | .symlink target => onMemory do
    let cwd ← if target.head? = some slash then pure rootPath else buildAbsolutePath before
    let resolved ← resolvePath cwd target
    appendRemainingComponents resolved rest
  | _ => throw .einval

def walk (follow : Path → VfsM Nat) (followFinal : Bool) : List Name → Nat → List Name → VfsM Nat
  | _, current, [] => pure current
  | before, current, component :: rest => do
    let next ← requireChild disk current component
    let node ← nodeAt next
    if node.fileType = .symlink ∧ (rest ≠ [] ∨ followFinal) then do
      let resolved ← resolveLink node before rest
      follow resolved
    else walk follow followFinal (before ++ [component]) next rest

def lookupFollow (followFinal : Bool) : Nat → Path → VfsM Nat
  | 0, _ => throw .eloop
  | left + 1, path => do
    let parts ← onMemory (components path)
    walk disk (lookupFollow followFinal left) followFinal [] rootId parts

def lookup (path : Path) : VfsM Nat := lookupFollow disk true (maxSymlinkFollows + 1) path

def lookupNofollow (path : Path) : VfsM Nat := lookupFollow disk false (maxSymlinkFollows + 1) path

def parentOf (path : Path) : VfsM (Nat × Name) := do
  let (parentPath, name) ← ofExcept (splitParent path)
  let parent ← lookup disk parentPath
  ensureWritable parent
  pure (parent, name)

def ensureEmptyDirectory (id : Nat) : VfsM Unit := do
  populateExt4Directory disk id
  inDirectory id do
    let s ← get
    ensure s.directory.children.isEmpty .enotempty

/-! ### Calls -/

def mkdir (path : Path) (mode : Nat) : VfsM Unit := do
  ensure (path ≠ rootPath ∧ path ≠ [slash, dot] ∧ path ≠ [slash, slash]) .eexist
  let (parent, name) ← parentOf disk path
  let node ← directory (0o040000 ||| (mode &&& 0o777))
  insertChild parent name (fresh node)

def checkRemovable (child : Nat) (removeDir : Bool) : VfsM Unit := do
  let node ← nodeAt child
  ensure (node.readOnly = false) .erofs
  if node.fileType = .directory then do
    ensure removeDir .eisdir
    ensureEmptyDirectory disk child
  else ensure (removeDir = false) .enotdir

def removeChild (parent : Nat) (name : Name) (removeDir : Bool) : VfsM Unit := do
  let child ← requireChild disk parent name
  checkRemovable disk child removeDir
  let child ← removeChildUnchecked parent name
  modify fun s => s.modifyNode child fun node => { node with nlink := (node.nlink + (2 ^ 64 - 1)) % 2 ^ 64 }

def unlink (path : Path) (removeDir : Bool) : VfsM Unit := do
  let (parent, name) ← parentOf disk path
  removeChild disk parent name removeDir

structure Move where
  oldParent : Nat
  oldName : Name
  newParent : Nat
  newName : Name
  source : Nat

def renameLookup (oldPath newPath : Path) : VfsM Move := do
  let (oldParentPath, oldName) ← ofExcept (splitParent oldPath)
  let (newParentPath, newName) ← ofExcept (splitParent newPath)
  ensure (oldPath ≠ rootPath ∧ newPath ≠ rootPath) .einval
  let oldParent ← lookup disk oldParentPath
  let newParent ← lookup disk newParentPath
  ensureWritable oldParent
  ensureWritable newParent
  let source ← requireChild disk oldParent oldName
  ensureWritable source
  pure { oldParent, oldName, newParent, newName, source }

def validateRenameTarget (source : Node) (target : Option Nat) : VfsM Unit :=
  match target with
  | none => pure ()
  | some target => do
    let node ← nodeAt target
    if source.fileType = .directory then
      if node.fileType = .directory then ensureEmptyDirectory disk target else throw .enotdir
    else if node.fileType = .directory then throw .eisdir
    else pure ()

def rename (oldPath newPath : Path) : VfsM Unit := do
  let move ← renameLookup disk oldPath newPath
  let source ← nodeAt move.source
  ensure (¬ (source.fileType = .directory ∧ isPathDescendant newPath oldPath)) .einval
  let target ← lookupChild disk move.newParent move.newName
  validateRenameTarget disk source target
  let storedName ← onMemory (cloneComponent move.newName)
  if move.oldParent = move.newParent then renameInsideParent move.oldParent move.oldName storedName
  else do
    reserveChildSlot move.newParent storedName target.isSome
    let moved ← removeChildUnchecked move.oldParent move.oldName
    insertChildPrepared move.newParent storedName (adopt moved) target.isSome

def symlink (target linkPath : Path) : VfsM Unit := do
  ensure (target ≠ [] ∧ target.length ≤ 4096 ∧ 0 ∉ target) .einval
  let (parent, name) ← parentOf disk linkPath
  let node ← symlinkNode target
  insertChild parent name (fresh node)

def link (oldPath newPath : Path) (followSource : Bool) : VfsM Unit := do
  let source ← (if followSource then lookup disk oldPath else lookupNofollow disk oldPath : VfsM Nat)
  let node ← nodeAt source
  ensure (node.fileType ≠ .directory) .eperm
  let (parent, name) ← parentOf disk newPath
  insertChild parent name (adopt source)
  modify fun s => s.modifyNode source fun node => { node with nlink := (node.nlink + 1) % 2 ^ 64 }

def createRegular (path : Path) : VfsM Nat := do
  let (parent, name) ← parentOf disk path
  let node ← regular
  insertChild parent name (fresh node)
  let s ← get
  pure (s.nodes.length - 1)

structure OpenFlags where
  accessMode : Nat
  creat : Bool
  excl : Bool
  nofollow : Bool
  directory : Bool
  trunc : Bool
deriving DecidableEq

def OpenFlags.writable (flags : OpenFlags) : Bool := flags.accessMode = 1 || flags.accessMode = 2

def truncateToZero (id : Nat) : VfsM Unit := do
  let node ← nodeAt id
  ensure (node.readOnly = false) .erofs
  match node.state with
  | .regular _ => modify fun s => s.modifyNode id fun node => { node with state := .regular [] }
  | .ext4Regular fs ino size overlay =>
    let size := if overlay = none then 0 else size
    modify fun s => s.modifyNode id fun node => { node with state := .ext4Regular fs ino size (some []) }
  | .directory _ => throw .eisdir
  | .symlink _ => throw .einval
  | .device _ => pure ()
  | .blockDevice _ => throw .einval
  | .procFile => throw .erofs

def lookupOrCreate (path : Path) (flags : OpenFlags) : VfsM Nat := do
  match ← attempt (fun s => s) (fun t _ => t) (lookupFollow disk (!flags.nofollow) (maxSymlinkFollows + 1) path) with
  | .ok id => do
    ensure (¬ (flags.creat ∧ flags.excl)) .eexist
    let node ← nodeAt id
    ensure (¬ (flags.nofollow ∧ node.fileType = .symlink)) .eloop
    pure id
  | .error .enoent => if flags.creat then createRegular disk path else throw .enoent
  | .error e => throw e

def openNode (path : Path) (flags : OpenFlags) : VfsM Nat := do
  ensure (flags.accessMode ≤ 2) .einval
  let id ← lookupOrCreate disk path flags
  let node ← nodeAt id
  ensure (flags.directory → node.fileType = .directory) .enotdir
  ensure (¬ (node.fileType = .directory ∧ flags.writable)) .eisdir
  given (flags.trunc && flags.writable) (truncateToZero id)
  pure id

def mountExt4Overlay (fs : Nat) (target : Path) : VfsM Unit := do
  let id ← lookup disk target
  let node ← nodeAt id
  ensure (node.fileType = .directory) .enotdir
  match (disk fs).rootInfo with
  | .error e => throw (ext4Errno e)
  | .ok root => do
    ensure (root.kind = .directory) .enotdir
    modify fun s => s.modifyNode id fun node => { node with readOnly := false, state := .directory (.ofVolume fs root.ino) }

end calls

/-! ### Boot -/

def str (s : String) : List UInt8 := s.toUTF8.toList

def standardDevices : List (Name × DeviceKind) :=
  [(str "null", .null), (str "zero", .zero), (str "console", .console), (str "random", .random), (str "urandom", .urandom),
    (str "ptmx", .ptmx), (str "rtc", .rtc)]

def installDevices (dev : Nat) (blockDevices : List Name) : VfsM Unit := do
  standardDevices.forM fun (name, kind) => do
    let node ← device kind
    insertChild dev name (fresh node)
  let pts ← directory 0o040755
  insertChild dev (str "pts") (fresh pts)
  blockDevices.forM fun name => do
    let node ← blockDeviceNode name
    insertChild dev name (fresh node)

def emptyRoot : Heap where
  nodes := [{ ino := 1, parentIno := 1, nlink := 1, mode := 0o040755, readOnly := false,
              state := .directory { children := ∅, overlay := none }, origin := none }]
  nextInode := 2
  memory := []

def initialTree (blockDevices : List Name) : VfsM Unit := do
  let dev ← directory 0o040755
  insertChild rootId (str "dev") (fresh dev)
  installDevices 1 blockDevices

structure Stat where
  dev : Nat
  ino : Nat
  mode : Nat
  nlink : Nat
deriving DecidableEq

def statForNode (node : Node) : Stat := { dev := 0, ino := node.ino, mode := node.mode, nlink := node.nlink % 2 ^ 32 }

inductive Op
  | mkdir (path : Path) (mode : Nat)
  | openFile (path : Path) (flags : OpenFlags)
  | symlink (target linkPath : Path)
  | link (oldPath newPath : Path) (followSource : Bool)
  | unlink (path : Path) (removeDir : Bool)
  | rename (oldPath newPath : Path)
  | stat (path : Path) (follow : Bool)
  | readdir (path : Path)
  | mount (fs : Nat) (target : Path)

def Op.run (disk : Nat → Ext4FileSystem) : Op → VfsM Unit
  | .mkdir path mode => Vfs.mkdir disk path mode
  | .openFile path flags => discard (openNode disk path flags)
  | .symlink target linkPath => Vfs.symlink disk target linkPath
  | .link oldPath newPath followSource => Vfs.link disk oldPath newPath followSource
  | .unlink path removeDir => Vfs.unlink disk path removeDir
  | .rename oldPath newPath => Vfs.rename disk oldPath newPath
  | .stat path follow => discard (lookupFollow disk follow (maxSymlinkFollows + 1) path)
  | .readdir path => do
    let id ← lookup disk path
    populateExt4Directory disk id
  | .mount fs target => mountExt4Overlay disk fs target

/-- The heap after a call, whether it succeeds or fails, with the answers that it gets from the allocator. -/
def Op.apply (disk : Nat → Ext4FileSystem) (op : Op) (memory : Memory) (s : Heap) : Heap :=
  match op.run disk { s with memory } with
  | .ok _ t => t
  | .error _ t => t

def boot (blockDevices : List Name) : Option Heap :=
  match initialTree blockDevices emptyRoot with
  | .ok _ t => some t
  | .error _ _ => none

/-- Any calls, one after the other; their paths and the allocator's answers are arbitrary. -/
def system (disk : Nat → Ext4FileSystem) : TransitionSystem Heap (Op × Memory) where
  init s := ∃ blockDevices, boot blockDevices = some s
  step s a t := t = a.1.apply disk a.2 s

end Vfs

end SudoOS
