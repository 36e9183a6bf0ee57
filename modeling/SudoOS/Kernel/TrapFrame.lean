import Mathlib

/-!
The RISC-V trap frame: the registers of an interrupted program, and how a signal handler is entered with it.
-/

namespace SudoOS

abbrev Word := BitVec 64

structure TrapFrame where
  gpr : Vector Word 32
  sstatus : Word
  sepc : Word
  scause : Word
  stval : Word
  guard : Word
  padding : Word
deriving DecidableEq

namespace TrapFrame

theorem stackRegister_lt : 2 < 32 := by decide

def stackPointer (frame : TrapFrame) : Word := frame.gpr[2]

def setSignalHandlerFrame (frame : TrapFrame) (stackPointer signal handler restorer : Word) : TrapFrame :=
  { frame with
    gpr := ((frame.gpr.set 1 restorer).set 2 stackPointer).set 10 signal
    sepc := handler }

def words (frame : TrapFrame) : List Word :=
  frame.gpr.toList ++ [frame.sstatus, frame.sepc, frame.scause, frame.stval, frame.guard, frame.padding]

def ofWords (words : List Word) : TrapFrame where
  gpr := Vector.ofFn fun i => words.getD i 0
  sstatus := words.getD 32 0
  sepc := words.getD 33 0
  scause := words.getD 34 0
  stval := words.getD 35 0
  guard := words.getD 36 0
  padding := words.getD 37 0

end TrapFrame

end SudoOS
