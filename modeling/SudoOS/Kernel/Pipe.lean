import SudoOS.Kernel.WaitQueue
import SudoOS.Lib.Ring
import SudoOS.Lib.Threads

/-!
Pipes. A critical section under the lock of the pipe is one step. A thread that waits may go on at any time, after a wake-up
or because it has to exit.
-/

namespace SudoOS

def pipeCapacity : Nat := 4096

structure MutableIoBuffer where
  size : Nat
  filled : List UInt8 := []
deriving DecidableEq

namespace MutableIoBuffer

def remaining (b : MutableIoBuffer) : Nat := b.size - b.filled.length

def push (b : MutableIoBuffer) (bytes : List UInt8) : MutableIoBuffer :=
  { b with filled := b.filled ++ bytes.take (min bytes.length b.remaining) }

end MutableIoBuffer

structure PipeState where
  buffer : Nat → UInt8
  head : Nat
  len : Nat
  readers : Nat
  writers : Nat

namespace PipeState

def new : PipeState := ⟨fun _ => 0, 0, 0, 1, 1⟩

def readLoop : Nat → PipeState → MutableIoBuffer → PipeState × MutableIoBuffer
  | 0, s, buf => (s, buf)
  | fuel + 1, s, buf =>
    if 0 < s.len ∧ 0 < buf.remaining then
      let available := min s.len (pipeCapacity - s.head)
      let chunk := min available buf.remaining
      readLoop fuel { s with head := (s.head + chunk) % pipeCapacity, len := s.len - chunk }
        (buf.push (Ring.slice s.buffer s.head chunk))
    else (s, buf)

def writeLoop (input : List UInt8) : Nat → PipeState → Nat → PipeState × Nat
  | 0, s, copied => (s, copied)
  | fuel + 1, s, copied =>
    if copied < input.length ∧ s.len < pipeCapacity then
      let tail := (s.head + s.len) % pipeCapacity
      let writable := if s.head ≤ tail then pipeCapacity - tail else s.head - tail
      let writable := min writable (pipeCapacity - s.len)
      let chunk := min writable (input.length - copied)
      writeLoop input fuel
        { s with buffer := Ring.overwrite s.buffer tail ((input.drop copied).take chunk), len := s.len + chunk }
          (copied + chunk)
    else (s, copied)

end PipeState

namespace Pipe

inductive Side
  | reader
  | writer
deriving DecidableEq

inductive Errno
  | eagain
  | eintr
  | epipe
deriving DecidableEq

inductive Result
  | read (bytes : List UInt8)
  | written (count : Nat)
  | error (e : Errno)
deriving DecidableEq

/-- A call at the head of its loop. It may block unless the file is non-blocking or no user thread runs. A `write` also has
the places in the stream that its bytes have taken so far. -/
inductive Call
  | read (size : Nat) (mayBlock : Bool)
  | write (input : List UInt8) (mayBlock : Bool) (copied : Nat) (places : List Nat)
deriving DecidableEq

structure Shared where
  state : PipeState
  accepted : List UInt8
  delivered : List UInt8

inductive Phase
  | idle
  | calling (call : Call)
  | waiting (call : Call)
  | done (call : Call) (result : Result)
deriving DecidableEq

inductive Input
  | startRead (size : Nat) (mayBlock : Bool)
  | startWrite (input : List UInt8) (mayBlock : Bool)
  | close (side : Side)
  | exit (side : Side)
  | advance
  | forcedExit
deriving DecidableEq

def read (s : Shared) (size : Nat) (mayBlock : Bool) : Shared × Phase :=
  if s.state.len = 0 then
    if s.state.writers = 0 then (s, .done (.read size mayBlock) (.read []))
    else if mayBlock then (s, .waiting (.read size mayBlock))
    else (s, .done (.read size mayBlock) (.error .eagain))
  else
    let (state, buf) := s.state.readLoop s.state.len { size }
    ({ s with state, delivered := s.delivered ++ buf.filled }, .done (.read size mayBlock) (.read buf.filled))

def write (s : Shared) (input : List UInt8) (mayBlock : Bool) (copied : Nat) (places : List Nat) : Shared × Phase :=
  let done result := (s, Phase.done (.write input mayBlock copied places) result)
  if input.length ≤ copied then done (.written copied)
  else if s.state.readers = 0 then done (if copied = 0 then .error .epipe else .written copied)
  else if s.state.len = pipeCapacity then
    if copied ≠ 0 then done (.written copied)
    else if mayBlock then (s, .waiting (.write input mayBlock copied places))
    else done (.error .eagain)
  else
    let (state, copied') := s.state.writeLoop input (pipeCapacity - s.state.len) copied
    ({ s with state, accepted := s.accepted ++ (input.drop copied).take (copied' - copied) },
      .calling (.write input mayBlock copied' (places ++ List.range' s.accepted.length (copied' - copied))))

def call (s : Shared) : Call → Shared × Phase
  | .read size mayBlock => read s size mayBlock
  | .write input mayBlock copied places => write s input mayBlock copied places

def closeSide (s : Shared) (f : Nat → Nat) : Side → Shared
  | .reader => { s with state := { s.state with readers := f s.state.readers } }
  | .writer => { s with state := { s.state with writers := f s.state.writers } }

def step (s : Shared) : Phase → Input → Option (Shared × Phase)
  | .idle, .startRead size mayBlock => some (s, .calling (.read size mayBlock))
  | .idle, .startWrite input mayBlock => some (s, .calling (.write input mayBlock 0 []))
  | .idle, .close side => some (closeSide s (· - 1) side, .idle)
  | .idle, .exit side => some (closeSide s (fun _ => 0) side, .idle)
  | .calling c, .advance => some (call s c)
  | .waiting c, .advance => some (s, .calling c)
  | .waiting c, .forcedExit => some (s, .done c (.error .eintr))
  | .done _ _, .advance => some (s, .idle)
  | _, _ => none

def threads : Threads Shared Nat Phase where
  init s := s = ⟨.new, [], []⟩
  start _ k := k = .idle
  act _ s k s' k' := ∃ input, step s k input = some (s', k')

end Pipe

end SudoOS
