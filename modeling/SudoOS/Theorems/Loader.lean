import SudoOS.Kernel.Loader
import SudoOS.Theorems.Elf
import SudoOS.Theorems.InitialStack
import SudoOS.Theorems.Relr

/-! What a loaded program looks like. -/

namespace SudoOS.Elf

open Program

variable {memory later : UserMemory} {image : List (BitVec 8)} {a : Nat}

/-! ### Writes in order -/

abbrev Write := Nat × List (BitVec 8)

def Write.Covers (w : Write) (a : Nat) : Prop := w.1 ≤ a ∧ a < w.1 + w.2.length

/-- No byte is written twice. -/
def Apart (writes : List Write) : Prop := writes.Pairwise fun w v => ∀ a, w.Covers a → ¬v.Covers a

/-- The byte that the last of the writes to an address has put there. -/
def lastWritten (writes : List Write) (a : Nat) : Option (BitVec 8) :=
  (writes.reverse.find? fun w => decide (w.1 ≤ a ∧ a < w.1 + w.2.length)).map fun w => w.2.getD (a - w.1) 0

abbrev Placement := List (BitVec 8) × LoadSegment

def Fits (p : Placement) (a : VmArea) : Prop :=
  LiesIn p.2 a ∧ p.2.fileOffset + p.2.fileSize ≤ p.1.length ∧ p.2.fileSize ≤ p.2.memorySize

def InMemory (g : LoadSegment) (a : Nat) : Prop := g.virtualAddress ≤ a ∧ a < g.virtualAddress + g.memorySize

theorem Loadable.fits {elf : ElfImage} (h : Loadable image elf.toElfState) :
    List.Forall₂ Fits (elf.segments.map (image, ·)) elf.areas := by
  rw [List.forall₂_map_left_iff]
  exact ((List.forall₂_and_left _ _).2 ⟨h.file, h.matched⟩).imp fun _ _ hg => ⟨hg.2, hg.1⟩

theorem LiesIn.contains {g : LoadSegment} {area : VmArea} (h : LiesIn g area) (ha : InMemory g a) : area.range.contains a :=
  ⟨h.1.trans ha.1, ha.2.trans_le h.2⟩

/-- The page for signal handlers and the stack area. -/
def Reserved (stack : VirtRange) (a : Nat) : Prop := trampolineRange.contains a ∨ stack.contains a

/-- What is written after the relocations: the code for signal handlers and the initial stack. -/
def Overwritten (stack : VirtRange) (a : Nat) : Prop :=
  Write.Covers (userSignalTrampoline.toNat, signalTrampolineBytes) a ∨ stack.contains a

theorem Overwritten.reserved {stack : VirtRange} (h : Overwritten stack a) : Reserved stack a :=
  h.imp (fun hcovers => ⟨hcovers.1, hcovers.2.trans (Nat.add_lt_add_left (by decide) _)⟩) id

section
variable {placed : List Placement} {areas : List VmArea} {words : List Write} {stack : VirtRange}

end

section
variable {isUtf8 : List (BitVec 8) → Bool} {grants : Nat → Bool} {stackGrants : InitialStack.Grants}
  {interpImage : Option (List (BitVec 8))} {config : ExecConfig} {main : LoadedFile} {bias : Option Nat}

end

open LittleEndian

theorem smallConfig_le : 0x10000 ≤ 0x11000 := by decide

def smallConfig : ExecConfig := ⟨[[0x61]], [], ⟨0x10000, 0x11000, smallConfig_le⟩, []⟩

end SudoOS.Elf
