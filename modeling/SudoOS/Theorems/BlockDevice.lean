import SudoOS.Kernel.BlockDevice
import SudoOS.Lib.Splice

/-! A block device accessed at byte offsets is one array of bytes. -/

namespace SudoOS.BlockDevice

variable {d : BlockDevice}

def byte (d : BlockDevice) (i : Nat) : UInt8 := (d.blocks (i / d.blockSize)).getD (i % d.blockSize) 0

def bytes (d : BlockDevice) (offset n : Nat) : List UInt8 := (List.range' offset n).map d.byte

@[simp] theorem store_blockSize {b : Nat} {l : List UInt8} {h} : (d.store b l h).blockSize = d.blockSize := rfl

theorem bytes_append (offset m n : Nat) : d.bytes offset m ++ d.bytes (offset + m) n = d.bytes offset (m + n) := by
  rw [bytes, bytes, bytes, ← List.map_append, List.range'_append_1]

theorem block_bytes (hpos : 0 < d.blockSize) {b o n : Nat} (h : o + n ≤ d.blockSize) :
    ((d.blocks b).drop o).take n = d.bytes (b * d.blockSize + o) n := by
  have hlen := d.length_blocks b
  apply List.ext_getElem
  · rw [List.length_take, List.length_drop, bytes, List.length_map, List.length_range', hlen]
    omega
  · intro i h₁ h₂
    rw [bytes, List.length_map, List.length_range'] at h₂
    have hi : b * d.blockSize + o + i = d.blockSize * b + (o + i) := by rw [Nat.mul_comm, Nat.add_assoc]
    have hdiv : (d.blockSize * b + (o + i)) / d.blockSize = b := by
      rw [Nat.mul_add_div hpos, Nat.div_eq_of_lt (by omega), Nat.add_zero]
    have hmod : (d.blockSize * b + (o + i)) % d.blockSize = o + i := by
      rw [Nat.mul_add_mod, Nat.mod_eq_of_lt (by omega)]
    simp only [bytes, List.getElem_map, List.getElem_range', List.getElem_take, List.getElem_drop, byte, one_mul,
      hi, hdiv, hmod]
    exact (List.getD_eq_getElem _ _ (by omega)).symm

theorem blocks_bytes (hpos : 0 < d.blockSize) (b : Nat) : d.blocks b = d.bytes (b * d.blockSize) d.blockSize := by
  have h := block_bytes hpos (b := b) (o := 0) (n := d.blockSize) (by omega)
  rwa [List.drop_zero, Nat.add_zero, List.take_of_length_le (by rw [d.length_blocks])] at h

theorem readBlock_ok {b : Nat} (h : b < d.blockCount) : d.readBlock b d.blockSize = .ok (d.blocks b) := by
  rw [readBlock, if_neg (by simp), if_neg (by omega)]

theorem readChunks_ok (hpos : 0 < d.blockSize) (hlim : d.blockCount < usizeLimit) (b : Nat) :
    ∀ left index, b + index + left ≤ d.blockCount →
      d.readChunks b index left = .ok (d.bytes ((b + index) * d.blockSize) (left * d.blockSize)) := by
  intro left
  induction left with
  | zero =>
    intro index _
    simp [readChunks, bytes]
  | succ left ih =>
    intro index h
    have hadd : checkedAdd b index = some (b + index) := checkedAdd_eq_some.2 ⟨by omega, rfl⟩
    have hnext : (b + (index + 1)) * d.blockSize = (b + index) * d.blockSize + d.blockSize := by
      rw [← Nat.add_assoc, Nat.succ_mul]
    simp only [readChunks, hadd, readBlock_ok (show b + index < d.blockCount by omega), ih (index + 1) (by omega)]
    change Except.ok _ = _
    rw [blocks_bytes hpos, hnext, bytes_append, Nat.succ_mul, Nat.add_comm d.blockSize]

theorem readBlocks_ok (hpos : 0 < d.blockSize) (hlim : d.blockCount < usizeLimit) {b n : Nat} (hn : n ≠ 0)
    (h : b + n ≤ d.blockCount) :
    d.readBlocks b (n * d.blockSize) = .ok (d.bytes (b * d.blockSize) (n * d.blockSize)) := by
  have hne : ¬ (n * d.blockSize = 0 ∨ n * d.blockSize % d.blockSize ≠ 0) := by
    rw [Nat.mul_mod_left]
    rintro (h | h)
    · exact (Nat.mul_ne_zero hn (by omega)) h
    · exact h rfl
  rw [readBlocks, if_neg hne, Nat.mul_div_cancel _ hpos, readChunks_ok hpos hlim b n 0 (by omega), Nat.add_zero]

structure Valid (d : BlockDevice) : Prop where
  pos : 0 < d.blockSize
  count : 0 < d.blockCount
  fits : d.blockCount * d.blockSize < usizeLimit

theorem Valid.blockCount_lt (h : d.Valid) : d.blockCount < usizeLimit :=
  lt_of_le_of_lt (Nat.le_mul_of_pos_right _ h.pos) h.fits

theorem Valid.div_lt (h : d.Valid) {cursor : Nat} (hc : cursor < d.blockCount * d.blockSize) :
    cursor / d.blockSize < d.blockCount :=
  (Nat.div_lt_iff_lt_mul h.pos).2 hc

theorem div_mul_add_mod (cursor n : Nat) : cursor / n * n + cursor % n = cursor := by
  rw [Nat.mul_comm]
  exact Nat.div_add_mod cursor n

/-- The loop of a read, by the bytes left: each turn takes a front part of what is left of the range. -/
theorem transferLoop_ok (h : d.Valid) {size : Nat} (hsize : d.blockCount * d.blockSize = size) : ∀ fuel cursor left,
    left ≤ fuel → d.transferLoop size fuel cursor left = .ok (d.bytes cursor (min left (size - cursor))) := by
  intro fuel
  induction fuel with
  | zero =>
    intro cursor left hle
    obtain rfl : left = 0 := by omega
    simp [transferLoop, bytes]
  | succ fuel ih =>
    intro cursor left hle
    rw [transferLoop]
    split
    case isTrue hend =>
      have hzero : min left (size - cursor) = 0 := by omega
      simp [hzero, bytes]
    case isFalse hend =>
      obtain ⟨hleft, hcur⟩ := not_or.1 hend
      have hblock := h.div_lt (hsize ▸ Nat.lt_of_not_le hcur)
      have hsplit := div_mul_add_mod cursor d.blockSize
      have hmod := Nat.mod_lt cursor h.pos
      have hpos := h.pos
      dsimp only
      split
      case isTrue hbulk =>
        obtain ⟨hzero, hne⟩ := hbulk
        have hq : min left (size - cursor) / d.blockSize ≠ 0 := fun hq => hne (by rw [hq, Nat.zero_mul])
        have hbound : min left (size - cursor) / d.blockSize * d.blockSize ≤ min left (size - cursor) :=
          Nat.div_mul_le_self _ _
        have hfit : cursor / d.blockSize + min left (size - cursor) / d.blockSize ≤ d.blockCount := by
          refine Nat.le_of_mul_le_mul_right ?_ hpos
          rw [Nat.add_mul]
          omega
        rw [readBlocks_ok hpos h.blockCount_lt hq hfit, ih _ _ (by omega)]
        change Except.ok _ = _
        rw [show cursor / d.blockSize * d.blockSize = cursor by omega, bytes_append]
        congr 2
        omega
      case isFalse =>
        have hcount : cursor % d.blockSize + min (min (d.blockSize - cursor % d.blockSize) left)
          (size - cursor) ≤ d.blockSize := by
          omega
        rw [readBlock_ok hblock, ih _ _ (by omega)]
        change Except.ok _ = _
        rw [block_bytes hpos hcount, hsplit, bytes_append]
        congr 2
        omega

/-! ### Writes -/

def written (old : Nat → UInt8) (offset : Nat) (input : List UInt8) (i : Nat) : UInt8 :=
  if offset ≤ i ∧ i < offset + input.length then input.getD (i - offset) 0 else old i

/-- A block that takes new bytes in its middle changes those bytes of the array. -/
theorem byte_store (hpos : 0 < d.blockSize) {b o : Nat} (input : List UInt8) (h : o + input.length ≤ d.blockSize) (hl) :
    (d.store b ((d.blocks b).take o ++ input ++ (d.blocks b).drop (o + input.length)) hl).byte =
      written d.byte (b * d.blockSize + o) input := by
  funext i
  have hlen := d.length_blocks b
  have hsplit := div_mul_add_mod i d.blockSize
  have hmod := Nat.mod_lt i hpos
  rw [written, byte, store_blockSize]
  by_cases hb : i / d.blockSize = b
  · subst hb
    simp only [store, Function.update_self]
    rw [Splice.getD_splice (by omega), byte]
    by_cases hin : o ≤ i % d.blockSize ∧ i % d.blockSize < o + input.length
    · rw [if_pos hin, if_pos (by omega)]
      congr 1
      omega
    · rw [if_neg hin, if_neg (by omega)]
  · have hne : ¬ (b * d.blockSize + o ≤ i ∧ i < b * d.blockSize + o + input.length) := by
      rintro ⟨h₁, h₂⟩
      refine hb (Nat.div_eq_of_lt_le (by omega) ?_)
      rw [Nat.succ_mul]
      omega
    rw [if_neg hne, byte]
    simp only [store, Function.update_of_ne hb]

theorem written_nil (old : Nat → UInt8) (offset : Nat) : written old offset [] = old := by
  funext i
  exact if_neg (by simp)

/-- Writing a list is writing its front and then the rest behind it. -/
theorem written_split (old : Nat → UInt8) (offset n : Nat) (input : List UInt8) (hn : n ≤ input.length) :
    written (written old offset (input.take n)) (offset + n) (input.drop n) = written old offset input := by
  funext i
  simp only [written, List.length_take, List.length_drop, List.getD_eq_getElem?_getD, List.getElem?_drop]
  by_cases h₁ : offset + n ≤ i ∧ i < offset + n + (input.length - n)
  · rw [if_pos h₁, if_pos (by omega)]
    congr 2
    omega
  · rw [if_neg h₁]
    by_cases h₂ : offset ≤ i ∧ i < offset + min n input.length
    · rw [if_pos h₂, if_pos (by omega), List.getElem?_take_of_lt (by omega)]
    · rw [if_neg h₂, if_neg (by omega)]

structure Holds (d d' : BlockDevice) (array : Nat → UInt8) : Prop where
  blockSize : d'.blockSize = d.blockSize
  blockCount : d'.blockCount = d.blockCount
  byte : d'.byte = array

/-- The loop of a write, by the bytes left: each turn writes a front part of what is left of the input. -/
theorem writeLoop_ok {size : Nat} : ∀ fuel (d : BlockDevice) (cursor done : Nat) (rest : List UInt8), d.Valid →
    d.blockCount * d.blockSize = size → rest.length ≤ fuel →
    ∃ d', writeLoop size fuel d cursor done rest = (.ok (done + min rest.length (size - cursor)), d') ∧
      Holds d d' (written d.byte cursor (rest.take (size - cursor))) := by
  intro fuel
  induction fuel with
  | zero =>
    intro d cursor done rest _ _ hle
    obtain rfl : rest = [] := List.eq_nil_of_length_eq_zero (by omega)
    exact ⟨d, by simp [writeLoop], rfl, rfl, by rw [List.take_nil, written_nil]⟩
  | succ fuel ih =>
    intro d cursor done rest h hsize hle
    rw [writeLoop]
    split
    case isTrue hend =>
      have hzero : min rest.length (size - cursor) = 0 := by
        rcases hend with rfl | hend
        · simp
        · omega
      refine ⟨d, by rw [hzero, Nat.add_zero], rfl, rfl, ?_⟩
      have hnil : rest.take (size - cursor) = [] :=
        List.eq_nil_of_length_eq_zero (by rw [List.length_take, Nat.min_comm, hzero])
      rw [hnil, written_nil]
    case isFalse hend =>
      obtain ⟨hleft, hcur⟩ := not_or.1 hend
      have hpos := h.pos
      have hsplit := div_mul_add_mod cursor d.blockSize
      have hmod := Nat.mod_lt cursor hpos
      have hblock := h.div_lt (hsize ▸ Nat.lt_of_not_le hcur)
      have hrest := List.length_pos_iff.2 hleft
      generalize hcount : min (min (d.blockSize - cursor % d.blockSize) rest.length) (size - cursor) = count
      have htake : (rest.take count).length = count := by rw [List.length_take]; omega
      have hlen := d.length_blocks (cursor / d.blockSize)
      have hl : ((d.blocks (cursor / d.blockSize)).take (cursor % d.blockSize) ++ rest.take count ++
          (d.blocks (cursor / d.blockSize)).drop (cursor % d.blockSize + count)).length = d.blockSize := by
        have h := Splice.length_splice (l := d.blocks (cursor / d.blockSize)) (o := cursor % d.blockSize)
          (show _ + (rest.take count).length ≤ _ by omega)
        rwa [htake, hlen] at h
      have hbyte := byte_store hpos (b := cursor / d.blockSize) (o := cursor % d.blockSize) (rest.take count) (by omega)
        (by rw [htake]; exact hl)
      simp only [htake, hsplit] at hbyte
      obtain ⟨d', hrun, hbs, hcnt, hb⟩ := ih (d.store (cursor / d.blockSize) _ hl) (cursor + count) (done + count)
        (rest.drop count) ⟨h.pos, h.count, h.fits⟩ hsize (by rw [List.length_drop]; omega)
      simp only [store_blockSize] at hbs
      refine ⟨d', ?_, hbs, hcnt, ?_⟩
      · simp only [hcount, readBlock_ok hblock, writeBlock, dif_pos hl, if_pos hblock]
        rw [hrun, List.length_drop]
        congr 2
        omega
      · have hmin : min count (size - cursor) = count := by omega
        have hle : count ≤ (rest.take (size - cursor)).length := by rw [List.length_take]; omega
        rw [hb, hbyte, ← written_split d.byte cursor count _ hle, List.take_take, hmin, List.drop_take, Nat.sub_sub]

/-! ### Runs -/

/-- The number of bytes of a device. -/
def size (d : BlockDevice) : Nat := d.blockCount * d.blockSize

/-- Blocks of a power of two of bytes, up to a page; at least one of them; and a size that is a machine word. -/
def Accepted (d : BlockDevice) : Prop := (∃ k ≤ 12, d.blockSize = 2 ^ k) ∧ 0 < d.blockCount ∧ d.size < 2 ^ 64

theorem isPowerOfTwo_iff {n : Nat} : isPowerOfTwo n = true ↔ ∃ k, n = 2 ^ k := by
  refine ⟨fun h => ?_, ?_⟩
  · rw [isPowerOfTwo, Bool.and_eq_true, bne_iff_ne, beq_iff_eq] at h
    exact (Nat.and_sub_one_eq_zero_iff_isPowerOfTwo h.1).1 h.2
  · rintro ⟨k, rfl⟩
    simp [isPowerOfTwo, Nat.and_two_pow_sub_one_eq_mod]

theorem Accepted.valid (h : d.Accepted) : d.Valid := by
  obtain ⟨⟨k, -, hk⟩, hcount, hsize⟩ := h
  exact ⟨hk ▸ Nat.two_pow_pos k, hcount, hsize⟩

theorem Accepted.geometry (h : d.Accepted) : d.validateGeometry = .ok () ∧ d.sizeBytes = .ok d.size := by
  obtain ⟨⟨k, hle, hk⟩, hcount, hsize⟩ := h
  have hpage : ¬ pageSize < 2 ^ k := Nat.not_lt.2 (Nat.pow_le_pow_right (by decide) hle : 2 ^ k ≤ 2 ^ 12)
  have hpow : isPowerOfTwo (2 ^ k) = true := isPowerOfTwo_iff.2 ⟨k, rfl⟩
  refine ⟨?_, if_pos hsize⟩
  rw [validateGeometry, hk, if_neg (by simp [hpow, hpage]), if_neg (Nat.ne_of_gt hcount)]

theorem refused_of_not_accepted (h : ¬ d.Accepted) :
    (∃ e, d.validateGeometry = .error e) ∨ d.validateGeometry = .ok () ∧ ∃ e, d.sizeBytes = .error e := by
  by_cases hblock : d.blockSize = 0 ∨ isPowerOfTwo d.blockSize = false ∨ pageSize < d.blockSize
  · exact .inl ⟨_, if_pos hblock⟩
  by_cases hcount : d.blockCount = 0
  · exact .inl ⟨_, by rw [validateGeometry, if_neg hblock, if_pos hcount]⟩
  refine .inr ⟨by rw [validateGeometry, if_neg hblock, if_neg hcount], .addressOverflow,
    if_neg fun hsize => h ⟨?_, by omega, hsize⟩⟩
  simp only [not_or, Bool.not_eq_false, Nat.not_lt] at hblock
  obtain ⟨k, hk⟩ := isPowerOfTwo_iff.1 hblock.2.1
  exact ⟨k, (Nat.pow_le_pow_iff_right (by decide)).1 (hk ▸ hblock.2.2), hk⟩

/-- What a transfer of some bytes at an offset answers: an error if there are bytes to transfer and no memory for it. -/
def answer {α : Type} (d : BlockDevice) (memory : Bool) (offset : Nat) (value : α) : Except BlockError α :=
  if memory = true ∨ d.size ≤ offset then .ok value else .error .metadataOutOfMemory

theorem readAt_eq (h : d.Accepted) (memory : Bool) (offset length : Nat) :
    d.readAt memory offset length = d.answer memory offset (d.bytes offset (min length (d.size - offset))) := by
  rw [readAt, h.geometry.1, h.geometry.2]
  change ite _ _ _ = ite _ _ _
  by_cases hend : d.size ≤ offset
  · rw [if_pos hend, if_pos (.inr hend), Nat.sub_eq_zero_of_le hend, Nat.min_zero]
    rfl
  · cases memory
    · rw [if_neg hend, if_neg (by simp), if_neg (by simpa using hend)]
    · rw [if_neg hend, if_pos rfl, if_pos (.inl rfl)]
      exact transferLoop_ok h.valid rfl length offset length le_rfl

/-- The byte that a call puts at a place below the end of the device. -/
def Op.writes (d : BlockDevice) (i : Nat) : Op → Option UInt8
  | .read .. => none
  | .write memory offset input => if memory = true ∧ offset ≤ i ∧ i < d.size then input[i - offset]? else none

theorem writeAt_eq (h : d.Accepted) (memory : Bool) (offset : Nat) (input : List UInt8) :
    ∃ d', d.writeAt memory offset input = (d.answer memory offset (min input.length (d.size - offset)), d') ∧
      Holds d d' fun i => ((Op.write memory offset input).writes d i).getD (d.byte i) := by
  simp only [writeAt, h.geometry, answer, Op.writes]
  by_cases hend : d.size ≤ offset
  · refine ⟨d, ?_, rfl, rfl, ?_⟩
    · rw [if_pos hend, if_pos (.inr hend), Nat.sub_eq_zero_of_le hend, Nat.min_zero]
    · funext i
      rw [if_neg (by omega)]
      rfl
  · cases memory
    · refine ⟨d, ?_, rfl, rfl, ?_⟩
      · rw [if_neg hend, if_neg (by simp), if_neg (by simpa using hend)]
      · funext i
        rw [if_neg (by simp)]
        rfl
    · obtain ⟨d', hrun, hholds⟩ := writeLoop_ok input.length d offset 0 input h.valid (show _ = d.size from rfl) le_rfl
      refine ⟨d', ?_, hholds.blockSize, hholds.blockCount, ?_⟩
      · rw [if_neg hend, if_pos rfl, if_pos (.inl rfl), hrun, Nat.zero_add]
      · rw [hholds.byte]
        funext i
        rw [written, List.length_take]
        by_cases hin : offset ≤ i ∧ i < offset + min (d.size - offset) input.length
        · rw [if_pos hin, if_pos ⟨rfl, by omega⟩, List.getD_eq_getElem?_getD, List.getElem?_take_of_lt (by omega),
            List.getElem?_eq_getElem (by omega)]
          rfl
        · rw [if_neg hin]
          split
          case isTrue h => rw [List.getElem?_eq_none (by omega)]; rfl
          case isFalse => rfl

/-- The last byte that one of the calls put at a place, or the one that was there before all of them. -/
def lastWritten (d : BlockDevice) (ops : List Op) (i : Nat) : UInt8 :=
  (ops.reverse.findSome? (Op.writes d i)).getD (d.byte i)

theorem Holds.size {d d' : BlockDevice} {array : Nat → UInt8} (h : Holds d d' array) : d'.size = d.size := by
  rw [BlockDevice.size, BlockDevice.size, h.blockSize, h.blockCount]

theorem Holds.accepted {d d' : BlockDevice} {array : Nat → UInt8} (h : Holds d d' array) (ha : d.Accepted) :
    d'.Accepted := by
  rwa [Accepted, h.size, h.blockSize, h.blockCount]

theorem apply_holds (h : d.Accepted) (op : Op) : Holds d (d.apply op) fun i => (op.writes d i).getD (d.byte i) := by
  cases op with
  | read => exact ⟨rfl, rfl, rfl⟩
  | write memory offset input =>
    obtain ⟨d', hrun, hholds⟩ := writeAt_eq h memory offset input
    rwa [apply, hrun]

theorem Holds.writes {d d' : BlockDevice} {array : Nat → UInt8} (h : Holds d d' array) (op : Op) (i : Nat) :
    op.writes d' i = op.writes d i := by
  cases op with
  | read => rfl
  | write => simp only [Op.writes, h.size]

theorem after_holds (h : d.Accepted) (ops : List Op) : Holds d (d.after ops) (d.lastWritten ops) := by
  induction ops using List.reverseRecOn with
  | nil => exact ⟨rfl, rfl, rfl⟩
  | append_singleton ops op ih =>
    have hstep := apply_holds (ih.accepted h) op
    have happ : d.after (ops ++ [op]) = (d.after ops).apply op := by rw [after, List.foldl_append]; rfl
    rw [happ]
    refine ⟨hstep.blockSize.trans ih.blockSize, hstep.blockCount.trans ih.blockCount, ?_⟩
    rw [hstep.byte]
    funext i
    rw [lastWritten, List.reverse_append, List.reverse_singleton, List.singleton_append, List.findSome?_cons,
      ih.writes, ih.byte]
    cases op.writes d i <;> rfl

theorem after_of_not_accepted (h : ¬ d.Accepted) (ops : List Op) : d.after ops = d := by
  induction ops with
  | nil => rfl
  | cons op ops ih =>
    have hop : d.apply op = d := by
      cases op with
      | read => rfl
      | write =>
        rw [apply, writeAt]
        rcases refused_of_not_accepted h with ⟨e, he⟩ | ⟨hok, e, he⟩
        · rw [he]
        · rw [hok, he]
    rw [after, List.foldl_cons, hop]
    exact ih

/-- After any calls on a device of accepted geometry, a read gives at each place below the number of blocks times their size
the last byte written there, a write changes only the bytes of its range, and both transfer as many bytes as there are up to
the end. A call fails only without memory, and then changes nothing. A device of another geometry refuses all calls. -/
theorem transfers_as_byte_array (d : BlockDevice) (ops : List Op) (memory : Bool) (offset : Nat) :
    (d.Accepted →
      (∀ length, (d.after ops).readAt memory offset length = d.answer memory offset
        ((List.range' offset (min length (d.blockCount * d.blockSize - offset))).map (d.lastWritten ops))) ∧
      ∀ input, ((d.after ops).writeAt memory offset input).1 =
        d.answer memory offset (min input.length (d.blockCount * d.blockSize - offset))) ∧
    (¬ d.Accepted → d.after ops = d ∧ (∀ length, ∃ e, d.readAt memory offset length = .error e) ∧
      ∀ input, ∃ e, (d.writeAt memory offset input).1 = .error e) := by
  refine ⟨fun ha => ?_, fun hnot => ⟨after_of_not_accepted hnot ops, fun length => ?_, fun input => ?_⟩⟩
  · have h := after_holds ha ops
    constructor
    · intro length
      rw [readAt_eq (h.accepted ha), answer, answer, h.size, bytes, h.byte]
      rfl
    · intro input
      obtain ⟨d', hrun, -⟩ := writeAt_eq (h.accepted ha) memory offset input
      rw [hrun, answer, answer, h.size, size]
  · rw [readAt]
    rcases refused_of_not_accepted hnot with ⟨e, he⟩ | ⟨hok, e, he⟩
    · exact ⟨e, by rw [he]; rfl⟩
    · exact ⟨e, by rw [hok, he]; rfl⟩
  · rw [writeAt]
    rcases refused_of_not_accepted hnot with ⟨e, he⟩ | ⟨hok, e, he⟩
    · exact ⟨e, by rw [he]⟩
    · exact ⟨e, by rw [hok, he]⟩

/-- A write that begins and ends inside of blocks, and a read that goes beyond the end. -/
theorem transfers_as_byte_array_unaligned : ∃ d, zeroed 4 3 true = .ok d ∧
    (d.after [.write true 2 [1, 2, 3, 4, 5]]).readAt true 1 20 = .ok [0, 1, 2, 3, 4, 5, 0, 0, 0, 0, 0] := by
  refine ⟨_, rfl, ?_⟩
  rw [((transfers_as_byte_array _ _ true 1).1 ⟨⟨2, by decide, rfl⟩, by decide, by decide⟩).1 20]
  rfl

end SudoOS.BlockDevice
