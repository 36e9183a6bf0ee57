import SudoOS.Lib.Threads
import SudoOS.Mm.UserSpace

/-!
The atomic steps of `enter_cpu_after_local_sync`, `leave_cpu_after_local_flush` and `plan_tlb_request` on one user address
space. Any number of CPUs enter and leave, and any number of threads plan requests, in every interleaving.
-/

namespace SudoOS

namespace Handshake

structure Shared where
  space : UserAddressSpace
  requests : List PerMmTlbRequest

inductive Agent
  | cpu (n : Nat)
  | planner (n : Nat)
deriving DecidableEq

/-- Where an agent stands: a CPU in `enter` or `leave`, or between them; a planner inside `plan_tlb_request`. -/
inductive Phase
  | outside
  | inserting (synchronized : Nat)
  | checking (synchronized : Nat)
  | withdrawing
  | entered (generation : Nat)
  | leaving (flushed : Nat)
  | removing
  | leaveFailed
  | idle
  | loading (flush : TlbFlush)
  | exchanging (flush : TlbFlush) (current : Nat)
  | snapshotting (flush : TlbFlush) (generation : Nat)
deriving DecidableEq

/-- What the environment decides: which call is made, and whether an exchange fails for no reason. -/
inductive Input
  | enter (currentAsidGeneration synchronized : Nat)
  | leave (flushed : Nat)
  | plan (flush : TlbFlush)
  | advance
  | spurious
deriving DecidableEq

def Shared.setCpus (s : Shared) (mask : CpuMask) : Shared := { s with space := { s.space with activeCpus := mask } }

def exchange (s : Shared) (flush : TlbFlush) (current : Nat) (succeeds : Bool) : Shared × Phase :=
  match checkedAdd current 1 with
  | none => (s, .idle)
  | some next =>
    if succeeds ∧ s.space.tlbGeneration = current then
      ({ s with space := { s.space with tlbGeneration := next } }, .snapshotting flush next)
    else (s, .exchanging flush s.space.tlbGeneration)

def step (s : Shared) : Agent → Phase → Input → Option (Shared × Phase)
  | .cpu _, .outside, .enter asidGeneration synchronized =>
    if s.space.asid.isCurrent asidGeneration then some (s, .inserting synchronized) else some (s, .outside)
  | .cpu c, .inserting synchronized, .advance =>
    match s.space.activeCpus.withCpu c with
    | .ok mask => some (s.setCpus mask, .checking synchronized)
    | .error _ => some (s, .outside)
  | .cpu _, .checking synchronized, .advance =>
    if s.space.tlbGeneration ≠ synchronized then some (s, .withdrawing) else some (s, .entered synchronized)
  | .cpu c, .withdrawing, .advance =>
    match s.space.activeCpus.withoutCpu c with
    | .ok mask => some (s.setCpus mask, .outside)
    | .error _ => some (s, .outside)
  | .cpu _, .entered _, .leave flushed => some (s, .leaving flushed)
  | .cpu _, .leaveFailed, .leave flushed => some (s, .leaving flushed)
  | .cpu _, .leaving flushed, .advance =>
    if s.space.tlbGeneration ≠ flushed then some (s, .leaveFailed) else some (s, .removing)
  | .cpu c, .removing, .advance =>
    match s.space.activeCpus.withoutCpu c with
    | .ok mask => some (s.setCpus mask, .outside)
    | .error _ => some (s, .leaveFailed)
  | .planner _, .idle, .plan flush =>
    if flush.scope ≠ .addressSpace s.space.asid.id then some (s, .idle) else some (s, .loading flush)
  | .planner _, .loading flush, .advance => some (s, .exchanging flush s.space.tlbGeneration)
  | .planner _, .exchanging flush current, .advance => some (exchange s flush current true)
  | .planner _, .exchanging flush current, .spurious => some (exchange s flush current false)
  | .planner _, .snapshotting flush generation, .advance =>
    some ({ s with requests := s.requests ++ [⟨s.space.asid, s.space.activeCpus, flush, generation⟩] }, .idle)
  | _, _, _ => none

def Agent.first : Agent → Phase
  | .cpu _ => .outside
  | .planner _ => .idle

/-- The protocol on an address space that has just been made. -/
def threads : Threads Shared Agent Phase where
  init s := (∃ userRange asid, s.space = .new userRange asid) ∧ s.requests = []
  start i k := k = i.first
  act i s k s' k' := ∃ input, step s i k input = some (s', k')

end Handshake

end SudoOS
