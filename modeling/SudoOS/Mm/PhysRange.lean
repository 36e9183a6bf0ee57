import SudoOS.Mm.Address

/-! Half-open ranges of physical addresses. -/

namespace SudoOS

/-- A half-open range of physical addresses, which are machine words. -/
@[ext]
structure PhysRange where
  start : Nat
  end_ : Nat
  start_le_end : start ≤ end_
  end_lt_limit : end_ < usizeLimit

instance : DecidableEq PhysRange := fun _ _ => decidable_of_iff _ PhysRange.ext_iff.symm

namespace PhysRange

def isEmpty (r : PhysRange) : Prop := r.start = r.end_

def isPageAligned (r : PhysRange) : Prop := isAligned r.start pageSize ∧ isAligned r.end_ pageSize

instance (r : PhysRange) : Decidable r.isEmpty := inferInstanceAs (Decidable (_ = _))

instance (r : PhysRange) : Decidable r.isPageAligned := inferInstanceAs (Decidable (_ ∧ _))

def new (start end_ : Nat) : Option PhysRange :=
  if h : start ≤ end_ ∧ end_ < usizeLimit then some ⟨start, end_, h.1, h.2⟩ else none

def contains (r : PhysRange) (address : Nat) : Prop := r.start ≤ address ∧ address < r.end_

def overlaps (r other : PhysRange) : Prop := r.start < other.end_ ∧ other.start < r.end_

instance (r : PhysRange) (address : Nat) : Decidable (r.contains address) := inferInstanceAs (Decidable (_ ∧ _))

instance (r other : PhysRange) : Decidable (r.overlaps other) := inferInstanceAs (Decidable (_ ∧ _))

def pageAlignedInside (r : PhysRange) : Option PhysRange := do
  let start ← alignUp r.start pageSize
  let end_ ← alignDown r.end_ pageSize
  if start ≥ end_ then none else new start end_

def coveringPages (r : PhysRange) : Option PhysRange := do
  let start ← alignDown r.start pageSize
  let end_ ← alignUp r.end_ pageSize
  new start end_

def span (r other : PhysRange) : PhysRange where
  start := if r.start ≤ other.start then r.start else other.start
  end_ := if r.end_ ≥ other.end_ then r.end_ else other.end_
  start_le_end := by
    have h := r.start_le_end
    have h' := other.start_le_end
    split_ifs <;> omega
  end_lt_limit := by
    split_ifs
    · exact r.end_lt_limit
    · exact other.end_lt_limit

@[simp] theorem new_eq_some {start end_ : Nat} {r : PhysRange} :
    new start end_ = some r ↔ r.start = start ∧ r.end_ = end_ := by
  unfold new
  constructor
  · intro h
    split at h
    · cases h
      exact ⟨rfl, rfl⟩
    · cases h
  · rintro ⟨rfl, rfl⟩
    exact dif_pos ⟨r.start_le_end, r.end_lt_limit⟩

theorem isPageAligned_iff {r : PhysRange} : r.isPageAligned ↔ r.start % 4096 = 0 ∧ r.end_ % 4096 = 0 := by
  simp [isPageAligned, isAligned_pageSize]

end PhysRange

end SudoOS
