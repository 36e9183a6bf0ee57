import SudoOS.Kernel.Path

/-!
Directories of an ext4 volume. What the volume's readers return for an inode is taken as given; looking up a name and
listing a directory are the two loops over its records.
-/

namespace SudoOS

inductive BlockError
  | addressOverflow
  | badBlockSize
  | bufferTooSmall
  | deviceReadOnly
  | invalidArgument
  | metadataOutOfMemory
  | outOfRange
deriving DecidableEq

namespace Ext4

inductive Ext4Error
  | addressOverflow
  | badBlockSize
  | badDirectory
  | badExtentTree
  | badGroupDescriptor
  | badInode
  | blockIo (error : BlockError)
  | fileTooLarge
  | invalidFeatureSet
  | invalidSuperblock
  | notFound
  | outOfMemory
  | unsupported
deriving DecidableEq

def rootIno : Nat := 2

structure Ext4Inode where
  mode : Nat
  size : Nat
deriving DecidableEq

inductive Ext4NodeKind
  | directory
  | regular
  | symlink
deriving DecidableEq

structure Ext4NodeInfo where
  ino : Nat
  mode : Nat
  size : Nat
  kind : Ext4NodeKind
deriving DecidableEq

/-- A volume, as its readers see it. -/
structure Ext4FileSystem where
  readInode : Nat → Except Ext4Error Ext4Inode
  readInodeBytes : Nat → Except Ext4Error (List UInt8)
  readSymlink : Nat → Except Ext4Error (List UInt8)

structure DirRecord where
  ino : Nat
  recLen : Nat
  name : Vfs.Name
deriving DecidableEq

def dirRecord (aligned : Bool) : List UInt8 → Except Ext4Error (Option DirRecord)
  | i₀ :: i₁ :: i₂ :: i₃ :: r₀ :: r₁ :: n :: t :: rest =>
    let ino := i₀.toNat + 256 * i₁.toNat + 65536 * i₂.toNat + 16777216 * i₃.toNat
    let recLen := r₀.toNat + 256 * r₁.toNat
    let len := (i₀ :: i₁ :: i₂ :: i₃ :: r₀ :: r₁ :: n :: t :: rest).length
    if recLen = 0 ∨ recLen < 8 ∨ (aligned ∧ recLen % 4 ≠ 0) ∨ len < recLen then .error .badDirectory
    else if recLen - 8 < n.toNat then .error .badDirectory
    else .ok (some { ino, recLen, name := rest.take n.toNat })
  | _ => .ok none

def lookupLoop (name : Vfs.Name) : Nat → List UInt8 → Except Ext4Error Nat
  | 0, _ => .error .notFound
  | fuel + 1, data => do
    match ← dirRecord true data with
    | none => .error .notFound
    | some record =>
      if record.ino ≠ 0 ∧ record.name = name then .ok record.ino else lookupLoop name fuel (data.drop record.recLen)

def validUtf8 (name : Vfs.Name) : Bool := (ByteArray.mk name.toArray).validateUTF8

/-- Names that a listing leaves out. -/
def skipped (name : Vfs.Name) : Prop := name = [Vfs.dot] ∨ name = [Vfs.dot, Vfs.dot] ∨ 0 ∈ name ∨ Vfs.slash ∈ name

instance (name : Vfs.Name) : Decidable (skipped name) := inferInstanceAs (Decidable (_ ∨ _))

def listLoop : Nat → List UInt8 → Except Ext4Error (List (Vfs.Name × Nat))
  | 0, _ => .ok []
  | fuel + 1, data => do
    match ← dirRecord false data with
    | none => .ok []
    | some record =>
      if record.ino = 0 ∨ skipped record.name then listLoop fuel (data.drop record.recLen)
      else if validUtf8 record.name = false then .error .badDirectory
      else do
        let rest ← listLoop fuel (data.drop record.recLen)
        pure ((record.name, record.ino) :: rest)

namespace Ext4FileSystem

variable (fs : Ext4FileSystem)

def inodeInfo (ino : Nat) : Except Ext4Error Ext4NodeInfo := do
  let inode ← fs.readInode ino
  match inode.mode &&& 0o170000 with
  | 0o040000 => pure { ino, mode := inode.mode, size := inode.size, kind := .directory }
  | 0o100000 => pure { ino, mode := inode.mode, size := inode.size, kind := .regular }
  | 0o120000 => pure { ino, mode := inode.mode, size := inode.size, kind := .symlink }
  | _ => .error .unsupported

def directoryBytes (ino : Nat) : Except Ext4Error (List UInt8) := do
  let inode ← fs.readInode ino
  if inode.mode &&& 0o170000 ≠ 0o040000 then .error .badDirectory
  else fs.readInodeBytes ino

def lookupChildIno (parent : Nat) (name : Vfs.Name) : Except Ext4Error Nat := do
  let data ← fs.directoryBytes parent
  lookupLoop name data.length data

def lookupChildInfo (parent : Nat) (name : Vfs.Name) : Except Ext4Error Ext4NodeInfo := do
  let ino ← fs.lookupChildIno parent name
  fs.inodeInfo ino

def listDirectoryInfo (ino : Nat) : Except Ext4Error (List (Vfs.Name × Ext4NodeInfo)) := do
  let data ← fs.directoryBytes ino
  let entries ← listLoop data.length data
  entries.mapM fun entry => do
    let info ← fs.inodeInfo entry.2
    pure (entry.1, info)

def rootInfo : Except Ext4Error Ext4NodeInfo := fs.inodeInfo rootIno

def readSymlinkInode (ino : Nat) : Except Ext4Error (List UInt8) := do
  let inode ← fs.readInode ino
  if inode.mode &&& 0o170000 ≠ 0o120000 then .error .badInode
  else fs.readSymlink ino

end Ext4FileSystem

end Ext4

end SudoOS
