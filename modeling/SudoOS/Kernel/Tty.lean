import SudoOS.Kernel.Pipe

/-! The line discipline of the console: the bytes that are typed and the reads that take them. -/

namespace SudoOS

def ttyBuffer : Nat := 256

def newline : UInt8 := 10

abbrev returnKey (byte : UInt8) : Prop := byte = 13 ∨ byte = newline

abbrev eraseKey (byte : UInt8) : Prop := byte = 8 ∨ byte = 127

def interruptKey : UInt8 := 3

structure TtyState where
  buffer : Nat → UInt8
  head : Nat
  len : Nat
  canonical : Bool
  echo : Bool
  foregroundPgrp : Int

structure TtyEffect where
  echo : List UInt8 := []
  wakes : Bool := false
  interrupts : Option Int := none
deriving DecidableEq

namespace TtyState

def new : TtyState where
  buffer _ := 0
  head := 0
  len := 0
  canonical := true
  echo := true
  foregroundPgrp := 0

def push (s : TtyState) (byte : UInt8) : TtyState :=
  if s.len = ttyBuffer then s
  else { s with buffer := Ring.overwrite s.buffer ((s.head + s.len) % ttyBuffer) [byte], len := s.len + 1 }

def popLoop : Nat → TtyState → MutableIoBuffer → TtyState × MutableIoBuffer
  | 0, s, output => (s, output)
  | fuel + 1, s, output =>
    if 0 < s.len ∧ 0 < output.remaining then
      let byte := s.buffer s.head
      let next := { s with head := (s.head + 1) % ttyBuffer, len := s.len - 1 }
      if s.canonical ∧ byte = newline then (next, output.push [byte]) else popLoop fuel next (output.push [byte])
    else (s, output)

def erase (s : TtyState) : Bool × TtyState := if s.len = 0 then (false, s) else (true, { s with len := s.len - 1 })

def inputByte (s : TtyState) (byte : UInt8) : TtyState × TtyEffect :=
  if returnKey byte then (s.push newline, { echo := if s.echo then [13, 10] else [], wakes := true })
  else if eraseKey byte then
    (s.erase.2, { echo := if s.erase.1 ∧ s.echo then [8, 32, 8] else [] })
  else if byte = interruptKey then
    (s, {
      echo := if s.echo then [94, 67, 13, 10] else []
      interrupts := if 0 < s.foregroundPgrp then some s.foregroundPgrp else none })
  else (s.push byte, { echo := if s.echo then [byte] else [], wakes := true })

end TtyState

inductive TtyReply
  | data (bytes : List UInt8)
  | eagain
  | blocked
deriving DecidableEq

def TtyState.readConsole (s : TtyState) (size : Nat) (canBlock : Bool) : TtyReply × TtyState :=
  if s.len ≠ 0 then
    let (next, output) := popLoop s.len s { size }
    (.data output.filled, next)
  else (if canBlock then .blocked else .eagain, s)

/-! ### The console in use -/

inductive TtyEvent
  | input (byte : UInt8)
  | read (size : Nat) (canBlock : Bool)

/-- What a terminal in canonical mode can be set to. -/
structure TtySettings where
  echo : Bool := true
  foregroundPgrp : Int := 0

structure Console where
  state : TtyState
  typed : List UInt8
  delivered : List UInt8

def TtyReply.bytes : TtyReply → List UInt8
  | data bytes => bytes
  | _ => []

namespace Console

def next (c : Console) : TtyEvent → Console
  | .input byte => { c with state := (c.state.inputByte byte).1, typed := c.typed ++ [byte] }
  | .read size canBlock =>
    { c with
      state := (c.state.readConsole size canBlock).2
      delivered := c.delivered ++ (c.state.readConsole size canBlock).1.bytes }

def after (start : TtySettings) (events : List TtyEvent) : Console :=
  events.foldl next ⟨{ TtyState.new with echo := start.echo, foregroundPgrp := start.foregroundPgrp }, [], []⟩

end Console

end SudoOS
