import SudoOS.Kernel.Loader

/-!
The call `execve`: what it reads and prepares before it begins to replace the program of the caller, and the replacement.
What the call finds outside of the caller (the strings in user memory, the files) is given to it as its input.
-/

namespace SudoOS.Exec

open Elf InitialStack

inductive PrepareErrno
  | given (errno : Int)
  | einval
  | enomem
  | elf
deriving DecidableEq

inductive ExecErrno
  | prepare (e : PrepareErrno)
  | eagain
  | contextReplace
deriving DecidableEq

/-! ### Scripts -/

def maxUserPath : Nat := 256

def blank (b : BitVec 8) : Bool := b = 0x20 ∨ b = 0x09

def trimmed (b : BitVec 8) : Bool := blank b ∨ b = 0x0d

def trim (line : Bytes) : Bytes := ((line.dropWhile trimmed).reverse.dropWhile trimmed).reverse

def parseShebang (isUtf8 : Bytes → Bool) (pathMemory argumentMemory : Bool) (image : Bytes) :
    Except PrepareErrno (Option (Bytes × Option Bytes)) :=
  match image with
  | 0x23 :: 0x21 :: text =>
    let line := text.takeWhile (· ≠ 0x0a)
    if maxUserPath ≤ 2 + line.length then .error .einval
    else if isUtf8 line = false then .error .einval
    else if trim line = [] then .error .einval
    else
      let interpreter := (trim line).takeWhile (¬blank ·)
      let rest := trim ((trim line).dropWhile (¬blank ·))
      if interpreter = [] ∨ maxUserPath ≤ interpreter.length then .error .einval
      else if pathMemory = false then .error .enomem
      else if rest = [] then .ok (some (interpreter, none))
      else if argumentMemory = false then .error .enomem
      else .ok (some (interpreter, some rest))
  | _ => .ok none

/-! ### The caller -/

inductive Lifecycle
  | ready
  | runnable
  | running
  | exiting
  | exited
deriving DecidableEq

/-- A thread. Its stack has been checked when it was created. -/
structure Thread where
  id : Nat
  lifecycle : Lifecycle
  userStack : VirtRange
  userPc : Nat
  userSp : Nat
  trapFrame : Option TrapFrame
  tls : Nat
  stack_nonempty : ¬userStack.isEmpty
  stack_in_user : userRange.containsRange userStack

/-- A new thread of `create_initial_thread` or `create_thread`: both make the same checks of its entry and its stack. -/
def Thread.create (id entry : Nat) (userStack : VirtRange) : Option Thread :=
  if h : userRange.contains entry ∧ ¬userStack.isEmpty ∧ userRange.containsRange userStack then
    some
      { id, lifecycle := .ready, userStack, userPc := entry, userSp := userStack.end_, trapFrame := none, tls := 0
        stack_nonempty := h.2.1, stack_in_user := h.2.2 }
  else none

/-- The thread gets a task of the scheduler. -/
def Thread.bindSchedulerTask (t : Thread) : Option Thread :=
  if t.lifecycle = .ready then some { t with lifecycle := .runnable } else none

/-- The thread runs for the first time. -/
def Thread.markRunning (t : Thread) : Option Thread :=
  if t.lifecycle = .runnable then some { t with lifecycle := .running } else none

theorem Thread.markRunning_running {t later : Thread} (h : t.markRunning = some later) : later.lifecycle = .running := by
  unfold markRunning at h
  split at h
  · cases h
    rfl
  · cases h

def Thread.execReplaceContext (t : Thread) (entry : Nat) (userStack : VirtRange) (stackPointer : Nat) : Option Thread :=
  if t.lifecycle ≠ .running then none
  else if userStack ≠ t.userStack ∨ ¬userRange.contains entry ∨ userStack.isEmpty ∨ ¬userRange.containsRange userStack ∨
    stackPointer % 16 ≠ 0 ∨ ¬(stackPointer = userStack.end_ ∨ userStack.contains stackPointer) then none
  else some { t with userPc := entry, userSp := stackPointer, trapFrame := none }

/-- Only a thread that runs gets a new context, and it goes on running. -/
theorem Thread.execReplaceContext_running {t later : Thread} {entry stackPointer : Nat} {userStack : VirtRange}
    (h : t.execReplaceContext entry userStack stackPointer = some later) : later.lifecycle = .running := by
  unfold execReplaceContext at h
  split at h
  · cases h
  case isFalse hrunning =>
    split at h
    · cases h
    · cases h
      exact not_not.1 hrunning

structure Descriptor where
  file : Nat
  closeOnExec : Bool
deriving DecidableEq

structure Process where
  mm : UserMemory
  files : List (Option Descriptor)
  signals : SignalState
  members : List Nat
  execInProgress : Bool
  vforkDone : Bool

namespace Process

def closeOnExec (p : Process) : Process :=
  { p with files := p.files.map fun slot => if slot.any (·.closeOnExec) then none else slot }

def singleThread (p : Process) (thread : Nat) : Process :=
  if 1 < p.members.length then { p with members := p.members.filter (· = thread) } else p

end Process

/-- The caller: its process, its thread, which has been marked as running before it came to user mode, and the frame of the
call. -/
structure Caller where
  process : Process
  thread : Thread
  frame : TrapFrame
  running : thread.lifecycle = .running

/-- A thread comes to user mode, and so to its calls, only after it was marked as running. -/
def Caller.start (process : Process) (thread : Thread) (frame : TrapFrame) : Option Caller :=
  match h : thread.markRunning with
  | none => none
  | some thread => some { process, thread, frame, running := Thread.markRunning_running h }

/-! ### The call -/

def runtimeStack : Nat := 0x3f_0000_0000 - 8 * 1024 * 1024

def runtimeTlsPage : Nat := runtimeStack - pageSize

theorem runtimeTlsPage_le : runtimeTlsPage ≤ runtimeTlsPage + pageSize := Nat.le_add_right _ _

def tlsArea : VmArea :=
  ⟨⟨runtimeTlsPage, runtimeTlsPage + pageSize, runtimeTlsPage_le⟩, .userRw, .anonymous⟩

/-- What a call finds. The last three are answers of the allocator. -/
structure ExecInput where
  rawPath : Except Int Bytes
  resolve : Bytes → Except Int Bytes
  argv : Bytes → Except Int (List Bytes)
  envp : Except Int (List Bytes)
  loadExecImage : Bytes → Except Int Bytes
  interpImage : Option Bytes
  isUtf8 : Bytes → Bool
  loaderGrants : Nat → Bool
  stackGrants : Grants
  shebangPath : Bool
  shebangArgument : Bool
  rewritten : Bool
  fallback : Bool

namespace ExecInput

variable (i : ExecInput)

def given {α : Type} : Except Int α → Except PrepareErrno α
  | .ok a => .ok a
  | .error e => .error (.given e)

def script (path : Bytes) (argv : List Bytes) (image : Bytes) : Except PrepareErrno (Bytes × List Bytes) := do
  match ← parseShebang i.isUtf8 i.shebangPath i.shebangArgument image with
  | none => pure (image, argv)
  | some (interpreter, argument) =>
    if maxExecArgs < argv.length + 2 + argument.toList.length then .error .einval
    else
      let interpreterPath ← given (i.resolve interpreter)
      if i.rewritten = false then .error .enomem
      else
        let image ← given (i.loadExecImage interpreterPath)
        pure (image, interpreterPath :: argument.toList ++ path :: argv.drop 1)

def binSh : Bytes := [0x2f, 0x62, 0x69, 0x6e, 0x2f, 0x73, 0x68]

def binBusybox : Bytes := [0x2f, 0x62, 0x69, 0x6e, 0x2f, 0x62, 0x75, 0x73, 0x79, 0x62, 0x6f, 0x78]

def shell (path : Bytes) (argv : List Bytes) (image : Bytes) : Except PrepareErrno (Bytes × List Bytes) :=
  if image.take 4 ≠ [0x7f, 0x45, 0x4c, 0x46] ∧ path ≠ binSh ∧ path ≠ binBusybox then
    if maxExecArgs < argv.length + 1 then .error .einval
    else if i.fallback = false then .error .enomem
    else do
      let image ← given (i.loadExecImage binSh)
      pure (image, binSh :: path :: argv.drop 1)
  else .ok (image, argv)

def prepare (stack : VirtRange) : Except PrepareErrno PreparedExec := do
  let rawPath ← given i.rawPath
  let path ← given (i.resolve rawPath)
  let argv ← given (i.argv rawPath)
  let envp ← given i.envp
  let image ← given (i.loadExecImage path)
  let (image, argv) ← i.script path argv image
  let (image, argv) ← i.shell path argv image
  match prepareElf i.isUtf8 i.loaderGrants i.stackGrants image i.interpImage ⟨argv, envp, stack, [tlsArea]⟩ with
  | none => .error .elf
  | some prepared => .ok prepared

end ExecInput

def entry (prepared : PreparedExec) : Nat := (prepared.interp.getD prepared.main).elf.entry

def replace (c : Caller) (prepared : PreparedExec) (stack : VirtRange) : Except ExecErrno Unit × Caller :=
  let p := { c.process with execInProgress := true }
  let p := (p.singleThread c.thread.id).closeOnExec
  let p := { p with signals := p.signals.resetActionsForExec, mm := prepared.mm }
  match h : c.thread.execReplaceContext (entry prepared) stack prepared.stackPointer with
  | none => (.error .contextReplace, { c with process := { p with execInProgress := false } })
  | some thread =>
    let tls := if prepared.interp.isSome then runtimeTlsPage else 0
    (.ok (),
      { process := { p with execInProgress := false, vforkDone := true }
        thread := { thread with tls }
        frame :=
          { c.frame with
            gpr := (c.frame.gpr.set 4 (.ofNat 64 tls)).set 2 (.ofNat 64 prepared.stackPointer) TrapFrame.stackRegister_lt
            sepc := .ofNat 64 (entry prepared) }
        running := show thread.lifecycle = _ from Thread.execReplaceContext_running h })

def execve (i : ExecInput) (c : Caller) : Except ExecErrno Unit × Caller :=
  match i.prepare c.thread.userStack with
  | .error e => (.error (.prepare e), c)
  | .ok prepared => if c.process.execInProgress then (.error .eagain, c) else replace c prepared c.thread.userStack

end SudoOS.Exec
