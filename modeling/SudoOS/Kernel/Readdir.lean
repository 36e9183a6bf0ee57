import SudoOS.Kernel.Directory
import SudoOS.Lib.TransitionSystem

/-!
Reading the entries of an open directory. The position of the file is a place in the table of entries, which is sorted by
name and may have changed between two calls.
-/

namespace SudoOS

namespace Vfs

structure DirEntry where
  ino : Nat
  offset : Nat
  fileType : FileType
  name : Name
deriving DecidableEq

def recordLen (name : Name) : Nat := (19 + name.length + 1 + 7) / 8 * 8

def emitDirent64 (remaining used : Nat) (name : Name) : Except Errno Bool :=
  if 0 ∈ name then .error .einval
  else if 65536 ≤ recordLen name then .error .eoverflow
  else if remaining < recordLen name then if used = 0 then .error .einval else .ok false
  else .ok true

def readdirLoop (length : Nat) : List (Nat × FileType × Name) → Nat → Nat → Except Errno Unit × List DirEntry
  | [], _, _ => (.ok (), [])
  | (ino, fileType, name) :: rest, index, used =>
    match emitDirent64 (length - used) used name with
    | .error e => (.error e, [])
    | .ok false => (.ok (), [])
    | .ok true =>
      ((readdirLoop length rest (index + 1) (used + recordLen name)).1,
        { ino, offset := index + 1, fileType, name } :: (readdirLoop length rest (index + 1) (used + recordLen name)).2)

structure DirectoryFile (α η : Type) where
  locked : Locked α η
  parentIno : Nat
  position : Nat

/-- What `getdents64` answers; the records may not reach the caller's memory. -/
inductive Getdents
  | records (entries : List DirEntry)
  | error (errno : Errno)
  | fault
deriving DecidableEq

namespace DirectoryFile

variable {α η : Type} (disk : Nat → Ext4.Ext4FileSystem) (keep : Node → η → α × η) (look : η → α → Nat × FileType)

def children (f : DirectoryFile α η) : Entries α := f.locked.directory.children

def table (f : DirectoryFile α η) : List (Nat × FileType × Name) :=
  (f.locked.ino, .directory, [dot]) :: (f.parentIno, .directory, [dot, dot]) ::
    f.children.toList.map fun c => ((look f.locked.rest c.2).1, (look f.locked.rest c.2).2, c.1)

def readTable (f : DirectoryFile α η) (length : Nat) : Except Errno (List DirEntry) × DirectoryFile α η :=
  let (result, entries) := readdirLoop length ((f.table look).drop f.position) f.position 0
  (result.map fun _ => entries, { f with position := f.position + entries.length })

def readdir (f : DirectoryFile α η) (length : Nat) : Except Errno (List DirEntry) × DirectoryFile α η :=
  match DirectoryM.populate disk keep f.locked with
  | .error e l => (.error e, { f with locked := l })
  | .ok _ l => { f with locked := l : DirectoryFile α η }.readTable look length

def maxDirentBytes : Nat := 4096

def sysGetdents64 (f : DirectoryFile α η) (length : Nat) (writable : Bool) : Getdents × DirectoryFile α η :=
  match f.readdir disk keep look (min length maxDirentBytes) with
  | (.error e, f) => (.error e, f)
  | (.ok entries, f) => (if writable then .records entries else .fault, f)

end DirectoryFile

def DirectoryM.after {α η β : Type} (x : DirectoryM α η β) (l : Locked α η) : Locked α η :=
  match x l with
  | .ok _ l => l
  | .error _ l => l

/-! ### A listing among other calls -/

structure Listing (α η : Type) where
  file : DirectoryFile α η
  returned : List DirEntry

inductive ListingCall (α : Type)
  | getdents (length : Nat) (writable : Bool)
  | create (name : Name) (child : α)
  | remove (name : Name)

namespace Listing

variable {α η : Type} (disk : Nat → Ext4.Ext4FileSystem) (keep : Node → η → α × η) (look : η → α → Nat × FileType)

def next (s : Listing α η) : ListingCall α → Listing α η
  | .getdents length writable =>
    match s.file.sysGetdents64 disk keep look length writable with
    | (.records entries, file) => { file, returned := s.returned ++ entries }
    | (_, file) => { s with file }
  | .create name child =>
    { s with file.locked := (DirectoryM.insertChild name fun _ rest => (child, rest)).after s.file.locked }
  | .remove name => { s with file.locked := (DirectoryM.removeChildUnchecked name).after s.file.locked }

/-- Runs begin with a directory that has just been opened. -/
def system : TransitionSystem (Listing α η) (ListingCall α) where
  init s := s.file.position = 0 ∧ s.returned = []
  step s call t := t = s.next disk keep look call

end Listing

end Vfs

end SudoOS
