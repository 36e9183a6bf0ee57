import Mathlib

/-!
Machine words, virtual addresses and half-open virtual ranges. A `usize` is a natural number; the places where the code
looks at overflow are the checked operations below.
-/

namespace SudoOS

def usizeLimit : Nat := 2 ^ 64

def checkedAdd (a b : Nat) : Option Nat :=
  if a + b < usizeLimit then some (a + b) else none

def checkedSub (a b : Nat) : Option Nat :=
  if b ≤ a then some (a - b) else none

def isPowerOfTwo (n : Nat) : Bool :=
  n != 0 && n &&& (n - 1) == 0

def pageShift : Nat := 12

def pageSize : Nat := 4096

def alignDown (address alignment : Nat) : Option Nat :=
  if isPowerOfTwo alignment then some (address - address % alignment) else none

def alignUp (address alignment : Nat) : Option Nat :=
  if isPowerOfTwo alignment then
    (checkedAdd address (alignment - 1)).map fun a => a - a % alignment
  else none

def isAligned (address alignment : Nat) : Bool :=
  isPowerOfTwo alignment && address % alignment == 0

/-- A half-open range of virtual addresses. -/
structure VirtRange where
  start : Nat
  end_ : Nat
  start_le_end : start ≤ end_
deriving DecidableEq

namespace VirtRange

def new (start end_ : Nat) : Option VirtRange :=
  if h : start ≤ end_ then some ⟨start, end_, h⟩ else none

def fromBounds (start end_ : Nat) (h : start ≤ end_ := by decide) : VirtRange := ⟨start, end_, h⟩

def fromStartSize (start size : Nat) : Option VirtRange :=
  (checkedAdd start size).bind (new start)

def size (r : VirtRange) : Nat := r.end_ - r.start

def isEmpty (r : VirtRange) : Prop := r.start = r.end_

def contains (r : VirtRange) (address : Nat) : Prop := r.start ≤ address ∧ address < r.end_

def containsRange (r other : VirtRange) : Prop := r.start ≤ other.start ∧ other.end_ ≤ r.end_

def overlaps (r other : VirtRange) : Prop := r.start < other.end_ ∧ other.start < r.end_

def isPageAligned (r : VirtRange) : Prop := isAligned r.start pageSize ∧ isAligned r.end_ pageSize

instance (r : VirtRange) : Decidable r.isEmpty := inferInstanceAs (Decidable (_ = _))

instance (r : VirtRange) (address : Nat) : Decidable (r.contains address) := inferInstanceAs (Decidable (_ ∧ _))

instance (r other : VirtRange) : Decidable (r.containsRange other) := inferInstanceAs (Decidable (_ ∧ _))

instance (r other : VirtRange) : Decidable (r.overlaps other) := inferInstanceAs (Decidable (_ ∧ _))

instance (r : VirtRange) : Decidable r.isPageAligned := inferInstanceAs (Decidable (_ ∧ _))

@[simp] theorem new_eq_some {start end_ : Nat} {r : VirtRange} :
    new start end_ = some r ↔ r.start = start ∧ r.end_ = end_ := by
  unfold new
  constructor
  · intro h
    split at h
    · cases h
      exact ⟨rfl, rfl⟩
    · cases h
  · rintro ⟨rfl, rfl⟩
    exact dif_pos r.start_le_end

@[simp] theorem new_eq_none {start end_ : Nat} : new start end_ = none ↔ end_ < start := by
  unfold new
  split <;> simp <;> omega

end VirtRange

theorem checkedAdd_eq_some {a b c : Nat} : checkedAdd a b = some c ↔ a + b < usizeLimit ∧ a + b = c := by
  simp [checkedAdd]

theorem checkedSub_eq_some {a b c : Nat} : checkedSub a b = some c ↔ b ≤ a ∧ a - b = c := by
  simp [checkedSub]

theorem isPowerOfTwo_4096 : isPowerOfTwo 4096 = true := by decide

theorem isAligned_pageSize {a : Nat} : isAligned a pageSize = true ↔ a % 4096 = 0 := by
  simp [isAligned, isPowerOfTwo_4096, pageSize]

theorem VirtRange.isPageAligned_iff {r : VirtRange} : r.isPageAligned ↔ r.start % 4096 = 0 ∧ r.end_ % 4096 = 0 := by
  simp [VirtRange.isPageAligned, isAligned_pageSize]

theorem alignDown_pageSize (a : Nat) : alignDown a pageSize = some (a - a % 4096) := by
  simp [alignDown, isPowerOfTwo_4096, pageSize]

theorem alignUp_pageSize (a : Nat) :
    alignUp a pageSize = if a + 4095 < usizeLimit then some (a + 4095 - (a + 4095) % 4096) else none := by
  simp only [alignUp, isPowerOfTwo_4096, checkedAdd, pageSize, if_true]
  by_cases h : a + 4095 < usizeLimit <;> simp [h]

end SudoOS
