import SudoOS.Kernel.Socket

/-! The arithmetic and the locks of the socket calls. -/

namespace SudoOS.Socket

variable {memory later : UserMemory} {table : Table} {flags : Word} {sid ptr n base len done iovPtr index : Nat}
    {stop : Stop}

variable {a b count msgPtr : Nat} {bytes : List (BitVec 8)} {moments : List Moment} {s : Sending}

/-! ### Sums and copies -/

/-- A result that is no panic. -/
def Returns {α : Type} (result : Except Stop α) : Prop := ∀ stop, result = .error stop → stop.isPanic = false

structure Counted (limit : Nat) (s : Sending) : Prop where
  exact : s.moved.length = s.total
  bounded : s.total ≤ limit

def reached (flags : Word) (sid : Nat) : List Moment → Option Moment
  | [] => none
  | m :: rest =>
    match m.table sid with
    | none => none
    | some inner =>
      if m.signalled then none
      else if inner.recvBuf ≠ [] then some m
      else if inner.peerClosed || flags &&& msgDontwait ≠ 0 || inner.nonblock || !m.mayBlock || m.forced then none
      else reached flags sid rest

/-- A call with its arguments, what it finds in memory and in the tables, and what happens while it waits. -/
inductive Call
  | sendto (memory : UserMemory) (table : Table) (sid : Except Nat Nat) (bufPtr bufLen flags : Word)
  | sendmsg (memory : UserMemory) (table : Table) (sid : Except Nat Nat) (msgPtr flags : Word)
  | recvfrom (memory : UserMemory) (table : Table) (moments : List Moment) (sid : Except Nat Nat)
    (bufPtr bufLen flags : Word)
  | recvmsg (memory later : UserMemory) (table : Table) (moments : List Moment) (sid : Except Nat Nat) (msgPtr flags : Word)

/-- `none` while a receiver is blocked. -/
def Call.run : Call → Option Reply
  | sendto memory table sid bufPtr bufLen flags => some (sysSendto memory table sid bufPtr bufLen flags)
  | sendmsg memory table sid msgPtr flags => some (sysSendmsg memory table sid msgPtr flags)
  | recvfrom memory table moments sid bufPtr bufLen flags => sysRecvfrom memory table moments sid bufPtr bufLen flags
  | recvmsg memory later table moments sid msgPtr flags => sysRecvmsg memory later table moments sid msgPtr flags

/-- A count that is returned is the number of bytes handed on. -/
def Reply.Counts (reply : Reply) : Prop := ∀ n, reply.result = .ok n → reply.moved.length = n

end SudoOS.Socket
