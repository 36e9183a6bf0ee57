import Mathlib

/-! Sets of CPUs as 64-bit masks. -/

namespace SudoOS

inductive CpuMaskError
  | cpuOutOfRange (cpu : Nat)
deriving DecidableEq

abbrev CpuMask := BitVec 64

namespace CpuMask

def cpuMaskBits : Nat := 64

def empty : CpuMask := 0

def cpuBit (cpu : Nat) : Except CpuMaskError CpuMask :=
  if cpu < cpuMaskBits then .ok (1#64 <<< cpu) else .error (.cpuOutOfRange cpu)

def withCpu (m : CpuMask) (cpu : Nat) : Except CpuMaskError CpuMask := do
  return m ||| (← cpuBit cpu)

def withoutCpu (m : CpuMask) (cpu : Nat) : Except CpuMaskError CpuMask := do
  return m &&& ~~~(← cpuBit cpu)

/-- Membership, for statements about masks. -/
def Has (m : CpuMask) (cpu : Nat) : Prop := m.getLsbD cpu = true

instance (m : CpuMask) (cpu : Nat) : Decidable (m.Has cpu) := inferInstanceAs (Decidable (_ = _))

theorem cpuBit_getLsbD {cpu : Nat} {b : CpuMask} (h : cpuBit cpu = .ok b) (c : Nat) : b.getLsbD c = decide (c = cpu) := by
  unfold cpuBit cpuMaskBits at h
  split_ifs at h with hcpu
  cases h
  by_cases hc : c = cpu
  · simp [hc, hcpu]
  · simp only [BitVec.getLsbD_shiftLeft, BitVec.getLsbD_one, hc]
    grind

theorem has_withCpu {m m' : CpuMask} {cpu : Nat} (h : m.withCpu cpu = .ok m') (c : Nat) : m'.Has c ↔ m.Has c ∨ c = cpu := by
  unfold withCpu at h
  cases hb : cpuBit cpu with
  | error e => simp [hb, bind, Except.bind] at h
  | ok b =>
    simp only [hb, bind, Except.bind, pure, Except.pure, Except.ok.injEq] at h
    simp [Has, ← h, cpuBit_getLsbD hb]

theorem has_withoutCpu {m m' : CpuMask} {cpu : Nat} (h : m.withoutCpu cpu = .ok m') (c : Nat) :
    m'.Has c ↔ m.Has c ∧ c ≠ cpu := by
  unfold withoutCpu at h
  cases hb : cpuBit cpu with
  | error e => simp [hb, bind, Except.bind] at h
  | ok b =>
    simp only [hb, bind, Except.bind, pure, Except.pure, Except.ok.injEq] at h
    simp only [Has, ← h, BitVec.getLsbD_and, BitVec.getLsbD_not, cpuBit_getLsbD hb]
    by_cases hc : c < 64
    · simp [hc]
    · simp [hc, BitVec.getLsbD_of_ge m c (Nat.not_lt.1 hc)]

end CpuMask

end SudoOS
