import SudoOS.Kernel.Lockdep
import SudoOS.Kernel.Signal

/-!
The calls that move data through sockets. Sums of addresses and lengths are checked for overflow and locks for their order;
both checks end in a panic.
-/

namespace SudoOS.Socket

/-- Why a call ends early. The first two are panics. -/
inductive Stop
  | overflow
  | lockOrder
  | ebadf
  | eintr
  | eagain
  | efault
  | einval
  | epipe
  | other (errno : Nat)
deriving DecidableEq

def Stop.isPanic : Stop → Bool
  | overflow | lockOrder => true
  | _ => false

def add (a b : Nat) : Except Stop Nat := if a + b < 2 ^ 64 then .ok (a + b) else .error .overflow

inductive Kind
  | connected (peer : List (BitVec 8)) (peerId : Nat)
  | udp
  | unconnected
deriving DecidableEq

structure Inner where
  kind : Kind
  recvBuf : List (BitVec 8)
  peerClosed : Bool
  nonblock : Bool

abbrev Table := Nat → Option Inner

/-! ### Copies -/

def copyFrom (memory : UserMemory) (ptr length : Nat) : Except Stop (List (BitVec 8)) :=
  if length = 0 then .ok []
  else
    match memory.copyFromUser ptr length with
    | some bytes => .ok bytes
    | none => .error .efault

def copyTo (memory : UserMemory) (ptr : Nat) (bytes : List (BitVec 8)) : Except Stop UserMemory :=
  if bytes = [] then .ok memory
  else
    match memory.copyToUser ptr bytes with
    | some memory => .ok memory
    | none => .error .efault

def socketTableLock : HeldLock := ⟨⟨"net.socket_table", .vfs, 10⟩, 0⟩

def schedulerLock : HeldLock := ⟨⟨"scheduler", .scheduler, 1⟩, 1⟩

/-- The scheduler is locked to find the thread that runs, whatever locks are held. -/
def currentUserThread (held : List HeldLock) : Except Stop Unit :=
  match Lockdep.checkHeld schedulerLock held with
  | .ok _ => .ok ()
  | .error _ => .error .lockOrder

def copyUsizeFromUser (held : List HeldLock) (memory : UserMemory) (ptr : Nat) : Except Stop Nat :=
  match currentUserThread held with
  | .error stop => .error stop
  | .ok _ => (copyFrom memory ptr 8).map LittleEndian.value

def copyU32FromUser (memory : UserMemory) (ptr : Nat) : Except Stop Nat := (copyFrom memory ptr 4).map LittleEndian.value

def copyIovFromUser (held : List HeldLock) (memory : UserMemory) (iovPtr index : Nat) : Except Stop (Nat × Nat) := do
  let first ← add iovPtr (index * 16)
  let base ← copyUsizeFromUser held memory first
  let second ← add first 8
  let len ← copyUsizeFromUser held memory second
  return (base, len)

def copyDataFromUser (memory : UserMemory) (ptr len : Nat) : Except Stop (List (BitVec 8)) :=
  copyFrom memory ptr (min len 4096)

/-! ### Sending -/

def queueToPeer (table : Table) (sid : Nat) (input : List (BitVec 8)) : Except Stop (Table × Nat) :=
  match table sid with
  | none => .error .ebadf
  | some inner =>
    if inner.peerClosed then .error .epipe
    else
      match (match inner.kind with
        | .connected _ peerId => some peerId
        | .udp => some sid
        | .unconnected => none) with
      | none => .error .einval
      | some peerId =>
        match table peerId with
        | none => .error .epipe
        | some peer =>
          if peer.peerClosed then .error .epipe
          else .ok (Function.update table peerId (some { peer with recvBuf := peer.recvBuf ++ input }), input.length)

def sendFlags : Word := 0x40 ||| 0x4000 ||| 0x4

def msgDontwait : Word := 0x40
def msgPeek : Word := 0x2

def recvFlags : Word := msgDontwait ||| msgPeek ||| 0x40000000

/-- What a call comes to: its result, the tables and the memory that it leaves, and the bytes that it has handed on, to the
buffer of a peer or to the memory of the program. -/
structure Reply where
  result : Except Stop Nat
  table : Table
  memory : UserMemory
  moved : List (BitVec 8)

def sysSendto (memory : UserMemory) (table : Table) (sid : Except Nat Nat) (bufPtr bufLen flags : Word) : Reply :=
  if flags &&& ~~~sendFlags ≠ 0 then ⟨.error .einval, table, memory, []⟩
  else
    match sid with
    | .error errno => ⟨.error (.other errno), table, memory, []⟩
    | .ok sid =>
      match copyDataFromUser memory bufPtr.toNat bufLen.toNat with
      | .error stop => ⟨.error stop, table, memory, []⟩
      | .ok data =>
        match queueToPeer table sid data with
        | .error stop => ⟨.error stop, table, memory, []⟩
        | .ok (table, sent) => ⟨.ok sent, table, memory, data⟩

structure Sending where
  table : Table
  total : Nat
  moved : List (BitVec 8)

def sendChunk (memory : UserMemory) (sid base len done : Nat) (s : Sending) : Except Stop (Nat × Sending) := do
  let ptr ← add base done
  let data ← copyDataFromUser memory ptr (min (len - done) 4096)
  let (table, sent) ← queueToPeer s.table sid data
  let total ← add s.total sent
  let done ← add done sent
  return (done, ⟨table, total, s.moved ++ data⟩)

def sendVector (memory : UserMemory) (sid base len done : Nat) (s : Sending) : Except Stop Unit × Sending :=
  if done < len then
    match sendChunk memory sid base len done s with
    | .error stop => (.error stop, s)
    | .ok (next, s) => if next ≤ done then (.ok (), s) else sendVector memory sid base len next s
  else (.ok (), s)
termination_by len - done

def sendVectors (memory : UserMemory) (sid iovPtr : Nat) : List Nat → Sending → Except Stop Unit × Sending
  | [], s => (.ok (), s)
  | index :: rest, s =>
    match copyIovFromUser [] memory iovPtr index with
    | .error stop => (.error stop, s)
    | .ok (base, len) =>
      match sendVector memory sid base len 0 s with
      | (.error stop, s) => (.error stop, s)
      | (.ok _, s) => sendVectors memory sid iovPtr rest s

/-- What was done before an error is reported in its place; a panic is a panic. -/
def partialResult (stop : Stop) (count : Nat) : Except Stop Nat :=
  if stop.isPanic then .error stop else if count ≠ 0 then .ok count else .error stop

def sendHeader (memory : UserMemory) (msgPtr : Nat) : Except Stop (Nat × Nat) := do
  let iovPtr ← copyUsizeFromUser [] memory (← add msgPtr 16)
  let iovLen ← copyUsizeFromUser [] memory (← add msgPtr 24)
  if 16 < iovLen then .error .einval else return (iovPtr, iovLen)

def sysSendmsg (memory : UserMemory) (table : Table) (sid : Except Nat Nat) (msgPtr flags : Word) : Reply :=
  if flags &&& ~~~sendFlags ≠ 0 then ⟨.error .einval, table, memory, []⟩
  else
    match sid with
    | .error errno => ⟨.error (.other errno), table, memory, []⟩
    | .ok sid =>
      match sendHeader memory msgPtr.toNat with
      | .error stop => ⟨.error stop, table, memory, []⟩
      | .ok (iovPtr, iovLen) =>
        match sendVectors memory sid iovPtr (List.range iovLen) ⟨table, 0, []⟩ with
        | (.error stop, s) => ⟨partialResult stop s.total, s.table, memory, s.moved⟩
        | (.ok _, s) => ⟨.ok s.total, s.table, memory, s.moved⟩

/-! ### Receiving -/

structure Moment where
  signalled : Bool
  table : Table
  memory : UserMemory
  mayBlock : Bool
  forced : Bool

inductive Received
  | waiting
  | stopped (stop : Stop)
  | closed
  | data (bytes peer : List (BitVec 8)) (table : Table)

def receive (flags : Word) (sid : Nat) (capacity : UserMemory → Except Stop Nat) : List Moment → Received
  | [] => .waiting
  | m :: rest =>
    if m.signalled then .stopped .eintr
    else
      match m.table sid with
      | none => .stopped .ebadf
      | some inner =>
        if inner.recvBuf = [] then
          if inner.peerClosed then .closed
          else if flags &&& msgDontwait ≠ 0 || inner.nonblock || !m.mayBlock then .stopped .eagain
          else if m.forced then .stopped .eintr
          else receive flags sid capacity rest
        else
          match capacity m.memory with
          | .error stop => .stopped stop
          | .ok capacity =>
            let taken := inner.recvBuf.take capacity
            let peer := match inner.kind with
              | .connected peer _ => peer
              | _ => [2, 0, 0, 0, 127, 0, 0, 1] ++ List.replicate 8 0
            .data taken peer (if flags &&& msgPeek ≠ 0 then m.table
              else Function.update m.table sid (some { inner with recvBuf := inner.recvBuf.drop capacity }))

def sysRecvfrom (memory : UserMemory) (table : Table) (moments : List Moment) (sid : Except Nat Nat)
    (bufPtr bufLen flags : Word) : Option Reply :=
  if flags &&& ~~~recvFlags ≠ 0 then some ⟨.error .einval, table, memory, []⟩
  else
    match sid with
    | .error errno => some ⟨.error (.other errno), table, memory, []⟩
    | .ok sid =>
      match receive flags sid (fun _ => .ok bufLen.toNat) moments with
      | .waiting => none
      | .stopped stop => some ⟨.error stop, table, memory, []⟩
      | .closed => some ⟨.ok 0, table, memory, []⟩
      | .data bytes _ table =>
        match copyTo memory bufPtr.toNat bytes with
        | .error stop => some ⟨.error stop, table, memory, []⟩
        | .ok memory => some ⟨.ok bytes.length, table, memory, bytes⟩

/-- The room in the vectors, which `sys_recvmsg` measures while it holds the table. -/
def totalCapacity (iovPtr : Nat) (memory : UserMemory) : List Nat → Nat → Except Stop Nat
  | [], sum => .ok sum
  | index :: rest, sum =>
    match copyIovFromUser [socketTableLock] memory iovPtr index with
    | .ok (_, len) => totalCapacity iovPtr memory rest (min (sum + len) (2 ^ 64 - 1))
    | .error stop => if stop.isPanic then .error stop else totalCapacity iovPtr memory rest sum

structure Storing where
  memory : UserMemory
  written : Nat
  moved : List (BitVec 8)

def storeVectors (bytes : List (BitVec 8)) (iovPtr : Nat) : List Nat → Storing → Except Stop Unit × Storing
  | [], s => (.ok (), s)
  | index :: rest, s =>
    if bytes.length ≤ s.written then (.ok (), s)
    else
      match copyIovFromUser [] s.memory iovPtr index with
      | .error stop => (.error stop, s)
      | .ok (base, len) =>
        let chunk := (bytes.drop s.written).take len
        match copyTo s.memory base chunk with
        | .error stop => (.error stop, s)
        | .ok memory => storeVectors bytes iovPtr rest ⟨memory, s.written + chunk.length, s.moved ++ chunk⟩

structure MessageHeader where
  namePtr : Nat
  nameLen : Nat
  iovPtr : Nat
  iovLen : Nat

def recvHeader (memory : UserMemory) (msgPtr : Nat) : Except Stop MessageHeader := do
  let namePtr ← copyUsizeFromUser [] memory msgPtr
  let nameLen ← copyU32FromUser memory (← add msgPtr 8)
  let iovPtr ← copyUsizeFromUser [] memory (← add msgPtr 16)
  let iovLen ← copyUsizeFromUser [] memory (← add msgPtr 24)
  if 16 < iovLen then .error .einval else return ⟨namePtr, nameLen, iovPtr, iovLen⟩

def storeName (memory : UserMemory) (header : MessageHeader) (peer : List (BitVec 8)) : UserMemory :=
  if header.namePtr ≠ 0 ∧ 16 ≤ header.nameLen then (memory.copyToUser header.namePtr peer).getD memory else memory

def sysRecvmsg (memory later : UserMemory) (table : Table) (moments : List Moment) (sid : Except Nat Nat)
    (msgPtr flags : Word) : Option Reply :=
  if flags &&& ~~~recvFlags ≠ 0 then some ⟨.error .einval, table, memory, []⟩
  else
    match sid with
    | .error errno => some ⟨.error (.other errno), table, memory, []⟩
    | .ok sid =>
      match recvHeader memory msgPtr.toNat with
      | .error stop => some ⟨.error stop, table, memory, []⟩
      | .ok header =>
        match receive flags sid (totalCapacity header.iovPtr · (List.range header.iovLen) 0) moments with
        | .waiting => none
        | .stopped stop => some ⟨.error stop, table, memory, []⟩
        | .closed => some ⟨.ok 0, table, memory, []⟩
        | .data bytes peer table =>
          match storeVectors bytes header.iovPtr (List.range header.iovLen) ⟨later, 0, []⟩ with
          | (.error stop, s) => some ⟨partialResult stop s.written, table, s.memory, s.moved⟩
          | (.ok _, s) => some ⟨.ok s.written, table, storeName s.memory header peer, s.moved⟩

end SudoOS.Socket
