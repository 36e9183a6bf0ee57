import SudoOS.Kernel.Syscall

/-! POSIX record locks: the commands of `fcntl` that set and find them, and the two releases, over the table of all
locks. -/

namespace SudoOS

/-- `F_RDLCK`, `F_WRLCK` and `F_UNLCK`. -/
inductive LockType
  | read
  | write
  | unlock
deriving DecidableEq

structure PosixRecordLock where
  dev : Nat
  ino : Nat
  start : Nat
  stop : Nat
  ownerPid : Nat
  lockType : LockType
deriving DecidableEq

structure FileStat where
  dev : Nat
  ino : Nat
  size : Int
deriving DecidableEq

/-- What the commands read off an open file. -/
structure LockFile where
  accessMode : Nat
  position : Nat
  fstat : Except Int FileStat

structure LinuxFlock64 where
  type : Int
  whence : Int
  start : Int
  len : Int
deriving DecidableEq

namespace RecordLock

open Syscall

def fcntlFileKey (file : LockFile) : Except Int (Nat × Nat) := do
  let stat ← file.fstat
  pure (stat.dev, stat.ino)

def fcntlValidateAccess (file : LockFile) (type : Int) : Except Int LockType :=
  if type = 0 then if file.accessMode = 1 then .error (-ebadf) else .ok .read
  else if type = 1 then if file.accessMode = 0 then .error (-ebadf) else .ok .write
  else if type = 2 then .ok .unlock
  else .error (-einval)

def fcntlBase (file : LockFile) (whence : Int) : Except Int Int :=
  if whence = 0 then .ok 0
  else if whence = 1 then .ok file.position
  else if whence = 2 then do
    let stat ← file.fstat
    pure (max stat.size 0)
  else .error (-einval)

def fcntlNormalizeRange (file : LockFile) (lock : LinuxFlock64) : Except Int (Nat × Nat) := do
  let base ← fcntlBase file lock.whence
  let anchor := base + lock.start
  let (start, stop) :=
    if 0 < lock.len then (anchor, anchor + lock.len)
    else if lock.len < 0 then (anchor + lock.len, anchor)
    else (anchor, 2 ^ 64 - 1)
  if start < 0 ∨ stop < 0 ∨ stop ≤ start ∨ 2 ^ 64 - 1 < start ∨ 2 ^ 64 - 1 < stop then .error (-einval)
  else .ok (start.toNat, stop.toNat)

def fcntlRangesOverlap (leftStart leftStop rightStart rightStop : Nat) : Bool :=
  leftStart < rightStop && rightStart < leftStop

def fcntlLockConflicts (existing requested : PosixRecordLock) : Bool :=
  existing.dev = requested.dev && existing.ino = requested.ino && existing.ownerPid ≠ requested.ownerPid &&
    fcntlRangesOverlap existing.start existing.stop requested.start requested.stop &&
    (existing.lockType = .write || requested.lockType = .write)

def fcntlSplit (requested existing : PosixRecordLock) : List PosixRecordLock :=
  if ¬ (existing.ownerPid = requested.ownerPid ∧ existing.dev = requested.dev ∧ existing.ino = requested.ino) ∨
      fcntlRangesOverlap existing.start existing.stop requested.start requested.stop = false then [existing]
  else
    (if existing.start < requested.start then [{ existing with stop := requested.start }] else []) ++
      if requested.stop < existing.stop then [{ existing with start := requested.stop }] else []

def fcntlApplyLock (requested : PosixRecordLock) (locks : List PosixRecordLock) : Bool × List PosixRecordLock :=
  if requested.lockType ≠ .unlock ∧ locks.any (fcntlLockConflicts · requested) then (false, locks)
  else (true, locks.flatMap (fcntlSplit requested) ++ if requested.lockType ≠ .unlock then [requested] else [])

def fcntlReleaseProcessFileLocks (ownerPid dev ino : Nat) (locks : List PosixRecordLock) : List PosixRecordLock :=
  locks.filter fun lock => !(lock.ownerPid = ownerPid && lock.dev = dev && lock.ino = ino)

def fcntlReleaseProcessLocks (ownerPid : Nat) (locks : List PosixRecordLock) : List PosixRecordLock :=
  locks.filter (·.ownerPid ≠ ownerPid)

def fcntlRequest (ownerPid : Nat) (file : LockFile) (lock : LinuxFlock64) : Except Int PosixRecordLock := do
  let lockType ← fcntlValidateAccess file lock.type
  let (start, stop) ← fcntlNormalizeRange file lock
  let (dev, ino) ← fcntlFileKey file
  pure { dev, ino, start, stop, ownerPid, lockType }

def fcntlSetlk (ownerPid : Nat) (file : LockFile) (lock : LinuxFlock64) (locks : List PosixRecordLock) :
    Int × List PosixRecordLock :=
  match fcntlRequest ownerPid file lock with
  | .error errno => (errno, locks)
  | .ok requested =>
    let (acquired, locks) := fcntlApplyLock requested locks
    (if acquired then 0 else -eagain, locks)

def fcntlFindConflict (requested : PosixRecordLock) (locks : List PosixRecordLock) : Option PosixRecordLock :=
  locks.find? (fcntlLockConflicts · requested)

def LockType.code : LockType → Int
  | .read => 0
  | .write => 1
  | .unlock => 2

def describe (conflict : PosixRecordLock) : LinuxFlock64 where
  type := LockType.code conflict.lockType
  whence := 0
  start := min conflict.start (2 ^ 63 - 1)
  len := if conflict.stop = 2 ^ 64 - 1 then 0 else min (conflict.stop - conflict.start : Nat) (2 ^ 63 - 1)

/-- What `F_GETLK` writes back; the process id is apart. -/
def fcntlGetlk (ownerPid : Nat) (file : LockFile) (lock : LinuxFlock64) (locks : List PosixRecordLock) :
    Except Int (LinuxFlock64 × Nat) :=
  if lock.type ≠ 0 ∧ lock.type ≠ 1 then .error (-einval)
  else do
    let requested ← fcntlRequest ownerPid file lock
    match fcntlFindConflict requested locks with
    | some conflict => pure (describe conflict, min conflict.ownerPid (2 ^ 31 - 1))
    | none => pure ({ lock with type := 2 }, 0)

def sysClose (ownerPid : Nat) (file : LockFile) (locks : List PosixRecordLock) : List PosixRecordLock :=
  match fcntlFileKey file with
  | .ok (dev, ino) => fcntlReleaseProcessFileLocks ownerPid dev ino locks
  | .error _ => locks

/-- What processes do to the table. `F_SETLKW` sleeps as long as it is refused. -/
inductive Op
  | setlk (ownerPid : Nat) (file : LockFile) (lock : LinuxFlock64)
  | setlkw (ownerPid : Nat) (file : LockFile) (lock : LinuxFlock64)
  | close (ownerPid : Nat) (file : LockFile)
  | exit (ownerPid : Nat)

def Op.run (locks : List PosixRecordLock) : Op → Option (List PosixRecordLock)
  | setlk ownerPid file lock => some (fcntlSetlk ownerPid file lock locks).2
  | setlkw ownerPid file lock =>
    match fcntlRequest ownerPid file lock with
    | .error _ => some locks
    | .ok requested => if (fcntlApplyLock requested locks).1 then some (fcntlApplyLock requested locks).2 else none
  | close ownerPid file => some (sysClose ownerPid file locks)
  | exit ownerPid => some (fcntlReleaseProcessLocks ownerPid locks)

end RecordLock

end SudoOS
