import SudoOS.Mm.CpuMask
import SudoOS.Mm.Address

/-! Address-space identifiers and the requests that invalidate translations. -/

namespace SudoOS

structure AsidToken where
  id : Nat
  generation : Nat
deriving DecidableEq

def AsidToken.isCurrent (token : AsidToken) (generation : Nat) : Bool := token.generation = generation

inductive TlbScope
  | local_
  | allCpus
  | addressSpace (id : Nat)
deriving DecidableEq

inductive TlbFlush
  | all (scope : TlbScope)
  | page (scope : TlbScope) (address : Nat)
  | range (scope : TlbScope) (range : VirtRange)
deriving DecidableEq

def TlbFlush.scope : TlbFlush → TlbScope
  | .all scope | .page scope _ | .range scope _ => scope

/-- A planned invalidation of one address space, with the CPUs that have to carry it out. -/
structure PerMmTlbRequest where
  asid : AsidToken
  targets : CpuMask
  flush : TlbFlush
  generation : Nat
deriving DecidableEq

def PerMmTlbRequest.localOnly (r : PerMmTlbRequest) (cpu : Nat) : Except CpuMaskError PerMmTlbRequest := do
  return { r with targets := ← CpuMask.empty.withCpu cpu }

end SudoOS
