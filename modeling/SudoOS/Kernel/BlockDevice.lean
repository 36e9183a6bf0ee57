import SudoOS.Kernel.Ext4Directory
import SudoOS.Mm.Address

/-!
Access to a block device at byte offsets. A device is an array of blocks of one size; the transfers at any offset are made
of transfers of whole blocks.
-/

namespace SudoOS

structure BlockDevice where
  blockSize : Nat
  blockCount : Nat
  blocks : Nat → List UInt8
  length_blocks : ∀ block, (blocks block).length = blockSize

namespace BlockDevice

/-- `MemoryBlockDevice::new`: a device in memory that holds zeros. There may be no memory for its bytes. -/
def zeroed (blockSize blockCount : Nat) (memory : Bool) : Except BlockError BlockDevice :=
  if blockSize = 0 ∨ isPowerOfTwo blockSize = false ∨ blockCount = 0 then .error .badBlockSize
  else if usizeLimit ≤ blockCount * blockSize then .error .addressOverflow
  else if memory = false then .error .metadataOutOfMemory
  else .ok ⟨blockSize, blockCount, fun _ => List.replicate blockSize 0, fun _ => List.length_replicate⟩

def store (d : BlockDevice) (block : Nat) (input : List UInt8) (h : input.length = d.blockSize) : BlockDevice :=
  { d with
    blocks := Function.update d.blocks block input
    length_blocks := by
      intro b
      by_cases hb : b = block
      · rw [hb, Function.update_self, h]
      · rw [Function.update_of_ne hb, d.length_blocks] }

def readBlock (d : BlockDevice) (block length : Nat) : Except BlockError (List UInt8) :=
  if length ≠ d.blockSize then .error .bufferTooSmall
  else if d.blockCount ≤ block then .error .outOfRange
  else .ok (d.blocks block)

def writeBlock (d : BlockDevice) (block : Nat) (input : List UInt8) : Except BlockError BlockDevice :=
  if h : input.length = d.blockSize then if block < d.blockCount then .ok (d.store block input h) else .error .outOfRange
  else .error .bufferTooSmall

def readChunks (d : BlockDevice) (block : Nat) : Nat → Nat → Except BlockError (List UInt8)
  | _, 0 => .ok []
  | index, left + 1 =>
    match checkedAdd block index with
    | none => .error .addressOverflow
    | some b => do
      let chunk ← d.readBlock b d.blockSize
      let rest ← d.readChunks block (index + 1) left
      pure (chunk ++ rest)

def readBlocks (d : BlockDevice) (block length : Nat) : Except BlockError (List UInt8) :=
  if length = 0 ∨ length % d.blockSize ≠ 0 then .error .badBlockSize else d.readChunks block 0 (length / d.blockSize)

def sizeBytes (d : BlockDevice) : Except BlockError Nat :=
  if d.blockCount * d.blockSize < usizeLimit then .ok (d.blockCount * d.blockSize) else .error .addressOverflow

def validateGeometry (d : BlockDevice) : Except BlockError Unit :=
  if d.blockSize = 0 ∨ isPowerOfTwo d.blockSize = false ∨ pageSize < d.blockSize then .error .badBlockSize
  else if d.blockCount = 0 then .error .outOfRange
  else .ok ()

def transferLoop (d : BlockDevice) (size : Nat) : Nat → Nat → Nat → Except BlockError (List UInt8)
  | 0, _, _ => .ok []
  | fuel + 1, cursor, left =>
    if left = 0 ∨ size ≤ cursor then .ok []
    else
      let block := cursor / d.blockSize
      let blockOffset := cursor % d.blockSize
      let bulk := min left (size - cursor) / d.blockSize * d.blockSize
      if blockOffset = 0 ∧ bulk ≠ 0 then do
        let bytes ← d.readBlocks block bulk
        let rest ← d.transferLoop size fuel (cursor + bulk) (left - bulk)
        pure (bytes ++ rest)
      else do
        let count := min (min (d.blockSize - blockOffset) left) (size - cursor)
        let scratch ← d.readBlock block d.blockSize
        let rest ← d.transferLoop size fuel (cursor + count) (left - count)
        pure ((scratch.drop blockOffset).take count ++ rest)

/-- `read_at`: the bytes that it puts at the front of a buffer of the given length. There may be no memory for the
scratch. -/
def readAt (d : BlockDevice) (memory : Bool) (offset length : Nat) : Except BlockError (List UInt8) := do
  d.validateGeometry
  let size ← d.sizeBytes
  if size ≤ offset then pure []
  else if memory then d.transferLoop size length offset length
  else .error .metadataOutOfMemory

def writeLoop (size : Nat) : Nat → BlockDevice → Nat → Nat → List UInt8 → Except BlockError Nat × BlockDevice
  | 0, d, _, written, _ => (.ok written, d)
  | fuel + 1, d, cursor, written, rest =>
    if rest = [] ∨ size ≤ cursor then (.ok written, d)
    else
      let block := cursor / d.blockSize
      let blockOffset := cursor % d.blockSize
      let count := min (min (d.blockSize - blockOffset) rest.length) (size - cursor)
      match d.readBlock block d.blockSize with
      | .error e => (.error e, d)
      | .ok scratch =>
        match d.writeBlock block (scratch.take blockOffset ++ rest.take count ++ scratch.drop (blockOffset + count)) with
        | .error e => (.error e, d)
        | .ok next => writeLoop size fuel next (cursor + count) (written + count) (rest.drop count)

def writeAt (d : BlockDevice) (memory : Bool) (offset : Nat) (input : List UInt8) : Except BlockError Nat × BlockDevice :=
  match d.validateGeometry, d.sizeBytes with
  | .error e, _ => (.error e, d)
  | .ok _, .error e => (.error e, d)
  | .ok _, .ok size =>
    if size ≤ offset then (.ok 0, d)
    else if memory then writeLoop size input.length d offset 0 input
    else (.error .metadataOutOfMemory, d)

/-! ### The device in use -/

inductive Op
  | read (memory : Bool) (offset length : Nat)
  | write (memory : Bool) (offset : Nat) (input : List UInt8)

def apply (d : BlockDevice) : Op → BlockDevice
  | .read .. => d
  | .write memory offset input => (d.writeAt memory offset input).2

def after (d : BlockDevice) (ops : List Op) : BlockDevice := ops.foldl apply d

end BlockDevice

end SudoOS
