import SudoOS.Kernel.Family
import SudoOS.Kernel.Signal
import SudoOS.Kernel.WaitQueue

/-!
What the calls that sleep look at: the signals that interrupt them, and the buffer of a socket from which they receive.
-/

namespace SudoOS

namespace SignalState

def isIgnored (signals : SignalState) (signal : Nat) : Bool :=
  let action := (signals.action signal).getD .default
  action.handler == sigIgn || (action.handler == sigDfl && signal == sigchld)

def isUnblocked (signals : SignalState) (blocked : Word) (signal : Nat) : Bool :=
  match signalBit signal with
  | none => false
  | some bit => (signals.pending &&& ~~~blocked) &&& bit != 0

def interrupts (signals : SignalState) (blocked : Word) (signal : Nat) : Bool :=
  signals.isUnblocked blocked signal && !signals.isIgnored signal

def interrupting (signals : SignalState) (blocked : Word) : Bool :=
  (List.range 63).any fun index => signals.interrupts blocked (index + 1)

def hasUnblocked (signals : SignalState) (blocked : Word) : Bool := signals.pending &&& ~~~blocked != 0

end SignalState

/-! ### The receive calls of a socket -/

structure SocketInner where
  recvBuf : List (BitVec 8)
  peerClosed : Bool
  nonblock : Bool
deriving DecidableEq

structure Receive where
  socket : Nat
  dontWait : Bool
  peek : Bool
  capacity : Nat
deriving DecidableEq

namespace Receive

def take (call : Receive) (inner : SocketInner) : List (BitVec 8) × SocketInner :=
  (inner.recvBuf.take call.capacity,
    if call.peek then inner else { inner with recvBuf := inner.recvBuf.drop call.capacity })

end Receive

end SudoOS
