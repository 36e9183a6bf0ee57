import SudoOS.Kernel.Path
import SudoOS.Mm.Address

/-!
Regular files: their contents, in memory or on a volume below, and the calls on any number of opens of one file.
-/

namespace SudoOS

namespace Vfs

inductive FileState
  | regular (data : List UInt8)
  | ext4Regular (size : Nat) (overlay : Option (List UInt8))
deriving DecidableEq

structure Resources where
  copy : Bool
  grow : Bool
  io : Option Errno
deriving DecidableEq

def readInodeAt (bytes : List UInt8) (io : Option Errno) (offset length : Nat) : Except Errno (List UInt8) :=
  match io with
  | some e => .error e
  | none => .ok ((bytes.drop offset).take length)

def resize (data : List UInt8) (length : Nat) : List UInt8 :=
  if data.length < length then data ++ List.replicate (length - data.length) 0 else data.take length

inductive SeekWhence
  | set
  | current
  | end
deriving DecidableEq

def SeekWhence.base (whence : SeekWhence) (position length : Nat) : Nat :=
  match whence with
  | .set => 0
  | .current => position
  | .end => length

def i64Limit : Int := 2 ^ 63

namespace FileState

def put (s : FileState) (data : List UInt8) : FileState :=
  match s with
  | .regular _ => .regular data
  | .ext4Regular size _ => .ext4Regular size (some data)

def regularOverlayMut (bytes : List UInt8) (r : Resources) : FileState → Except Errno (List UInt8)
  | .regular data => .ok data
  | .ext4Regular _ (some data) => .ok data
  | .ext4Regular size none =>
    if r.copy = false then .error .enomem
    else
      match readInodeAt bytes r.io 0 size with
      | .error e => .error e
      | .ok data => if data.length ≠ size then .error .eio else .ok data

def read (bytes : List UInt8) (r : Resources) (s : FileState) (position length : Nat) : Except Errno (List UInt8) × Nat :=
  let fromMemory (data : List UInt8) : Except Errno (List UInt8) × Nat :=
    if data.length ≤ position then (.ok [], position)
    else
      let count := min (data.length - position) length
      if position + count < usizeLimit then (.ok ((data.drop position).take count), position + count)
      else (.error .eoverflow, position)
  match s with
  | .regular data => fromMemory data
  | .ext4Regular _ (some data) => fromMemory data
  | .ext4Regular size none =>
    if size ≤ position then (.ok [], position)
    else
      match readInodeAt bytes r.io position (min (size - position) length) with
      | .error e => (.error e, position)
      | .ok data =>
        if position + data.length < usizeLimit then (.ok data, position + data.length) else (.error .eoverflow, position)

def write (bytes : List UInt8) (r : Resources) (append : Bool) (s : FileState) (position : Nat) (input : List UInt8) :
    Except Errno Nat × FileState × Nat :=
  match s.regularOverlayMut bytes r with
  | .error e => (.error e, s, position)
  | .ok data =>
    let start := if append then data.length else position
    if usizeLimit ≤ start + input.length then (.error .eoverflow, s.put data, start)
    else if data.length < start + input.length ∧ r.grow = false then (.error .enomem, s.put data, start)
    else
      let grown := if data.length < start + input.length then resize data (start + input.length) else data
      (.ok input.length, s.put (grown.take start ++ input ++ grown.drop (start + input.length)), start + input.length)

def length : FileState → Nat
  | .regular data => data.length
  | .ext4Regular size none => size
  | .ext4Regular _ (some data) => data.length

def seek (s : FileState) (position : Nat) (offset : Int) (whence : SeekWhence) : Except Errno Nat :=
  let base := whence.base position s.length
  if i64Limit ≤ base then .error .eoverflow
  else if base + offset < -i64Limit ∨ i64Limit ≤ base + offset then .error .eoverflow
  else if base + offset < 0 then .error .einval
  else .ok (base + offset).toNat

def truncateNode (bytes : List UInt8) (r : Resources) (s : FileState) (length : Nat) : Except Errno Unit × FileState :=
  match s, length with
  | .ext4Regular _ none, 0 => (.ok (), .ext4Regular 0 (some []))
  | s, length =>
    match s.regularOverlayMut bytes r with
    | .error e => (.error e, s)
    | .ok data =>
      if data.length < length ∧ r.grow = false then (.error .enomem, s.put data) else (.ok (), s.put (resize data length))

end FileState

/-! ### Opens of one file -/

structure OpenMode where
  readable : Bool
  writable : Bool
  append : Bool
deriving DecidableEq

inductive FileErrno
  | ebadf
  | errno (e : Errno)
deriving DecidableEq

inductive FileOp
  | read (length : Nat)
  | write (input : List UInt8)
  | seek (offset : Int) (whence : SeekWhence)
  | truncate (length : UInt64)
  | truncateNode (length : UInt64)

inductive Reply
  | bytes (data : List UInt8)
  | count (n : Nat)
  | done
deriving DecidableEq

/-- The file as the calls find it. The flags of the opens and the bytes on the volume do not change. -/
structure SharedFile where
  bytes : List UInt8
  readOnly : Bool
  flags : Nat → OpenMode
  state : FileState
  position : Nat → Nat

namespace SharedFile

def move (s : SharedFile) (fd position : Nat) : SharedFile := { s with position := Function.update s.position fd position }

def reply {α : Type} (f : α → Reply) : Except Errno α → Except FileErrno Reply
  | .ok a => .ok (f a)
  | .error e => .error (.errno e)

def truncateNode (s : SharedFile) (r : Resources) (length : UInt64) : Except FileErrno Reply × SharedFile :=
  if s.readOnly then (.error (.errno .erofs), s)
  else
    let (result, state) := s.state.truncateNode s.bytes r length.toNat
    (reply (fun _ => .done) result, { s with state })

def call (s : SharedFile) (fd : Nat) (r : Resources) : FileOp → Except FileErrno Reply × SharedFile
  | .read length =>
    if (s.flags fd).readable then
      let (result, position) := s.state.read s.bytes r (s.position fd) length
      (reply .bytes result, s.move fd position)
    else (.error .ebadf, s)
  | .write input =>
    if (s.flags fd).writable then
      if s.readOnly then (.error (.errno .erofs), s)
      else
        let (result, state, position) := s.state.write s.bytes r (s.flags fd).append (s.position fd) input
        (reply .count result, { s with state }.move fd position)
    else (.error .ebadf, s)
  | .seek offset whence =>
    match s.state.seek (s.position fd) offset whence with
    | .error e => (.error (.errno e), s)
    | .ok position => (.ok (.count position), s.move fd position)
  | .truncate length => if (s.flags fd).writable then s.truncateNode r length else (.error .ebadf, s)
  | .truncateNode length => s.truncateNode r length

end SharedFile

end Vfs

end SudoOS
