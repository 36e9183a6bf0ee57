import SudoOS.Kernel.Rng
import SudoOS.Lib.ChaCha20

/-! What the generator hands out is a stream: the rest of the block in its buffer and then the keystream. -/

namespace SudoOS

namespace ChaCha20

open ChaCha

/-! ### The block -/

/-- The words of a state in rows of four. -/
def matrix (s : Fin 16 → BitVec 32) : Matrix := fun r c => s ⟨4 * r + c, by omega⟩

theorem matrix_columns (s : Fin 16 → BitVec 32) :
    matrix (quarterRound 3 7 11 15 (quarterRound 2 6 10 14 (quarterRound 1 5 9 13 (quarterRound 0 4 8 12 s)))) =
      columnRound (matrix s) := by
  funext r c
  fin_cases r <;> fin_cases c <;> simp [matrix, columnRound, quarter, quarterRound, mix, Function.update]

theorem matrix_diagonals (s : Fin 16 → BitVec 32) :
    matrix (quarterRound 3 4 9 14 (quarterRound 2 7 8 13 (quarterRound 1 6 11 12 (quarterRound 0 5 10 15 s)))) =
      diagonalRound (matrix s) := by
  funext r c
  fin_cases r <;> fin_cases c <;>
    simp [matrix, diagonalRound, columnRound, quarter, quarterRound, mix, Function.update] <;> rfl

theorem matrix_rounds (s : Fin 16 → BitVec 32) : matrix (doubleRound^[10] s) = twentyRounds (matrix s) := by
  have hstep : Function.Semiconj matrix doubleRound (diagonalRound ∘ columnRound) := fun s => by
    rw [doubleRound, matrix_diagonals, matrix_columns, Function.comp_apply]
  exact hstep.iterate_right 10 s

theorem wordByte_eq (w : BitVec 32) (k : Nat) : UInt8.ofBitVec (w.extractLsb' (8 * k) 8) = wordByte w k := by
  apply UInt8.toNat.inj
  simp [wordByte, Nat.shiftRight_eq_div_pow, pow_mul]

theorem block_eq (c : ChaCha20) : c.block = List.ofFn (blockByte (matrix c.state)) := by
  have hwords : List.ofFn (blockByte (matrix c.state)) = (List.finRange 16).flatMap fun i => (List.range 4).map fun k =>
      wordByte (doubleRound^[10] c.state i + c.state i) k := by
    rw [List.ofFn_mul' (m := 4) (n := 16), List.ofFn_eq_map, List.flatMap]
    congr 2
    funext i
    have hword : matrix (doubleRound^[10] c.state) ⟨i / 4, by omega⟩ ⟨i % 4, by omega⟩ = doubleRound^[10] c.state i := by
      simp only [matrix, Nat.div_add_mod]
    rw [show List.range 4 = List.ofFn fun j : Fin 4 => (j : Nat) from rfl, List.map_ofFn]
    congr 1
    funext j
    have hrow : (4 * (i : Nat) + j) / 16 = i / 4 := by omega
    have hcolumn : (4 * (i : Nat) + j) % 16 / 4 = i % 4 := by omega
    have hbyte : (4 * (i : Nat) + j) % 4 = j := by omega
    simp only [blockByte, ← matrix_rounds, hrow, hcolumn, hbyte, hword, Function.comp_apply]
    simp only [matrix, Nat.div_add_mod]
  rw [hwords, block]
  simp only [wordByte_eq]

/-- The word of four bytes of a list. -/
theorem leWord_eq {bytes : List UInt8} {i : Nat} (h : i + 4 ≤ bytes.length) :
    leWord bytes i = wordAt (bytes.getD · 0) i := by
  have hfour : (bytes.drop i).take 4 = [bytes.getD i 0, bytes.getD (i + 1) 0, bytes.getD (i + 2) 0,
    bytes.getD (i + 3) 0] := by
    rw [List.getD_eq_getElem _ 0 (show i < _ by omega), List.getD_eq_getElem _ 0 (show i + 1 < _ by omega),
      List.getD_eq_getElem _ 0 (show i + 2 < _ by omega), List.getD_eq_getElem _ 0 (show i + 3 < _ by omega)]
    refine List.ext_getElem (by rw [List.length_take, List.length_drop]; exact Nat.min_eq_left (by omega)) fun k _ hk => ?_
    have hk : k < 4 := hk
    interval_cases k <;> simp
  simp only [leWord, wordAt, hfour, List.foldr]
  congr 1
  ring

theorem matrix_new {key nonce : List UInt8} {counter n : Nat} (hkey : key.length = 32) (hnonce : nonce.length = 8) :
    matrix ((ChaCha20.new key nonce counter).withCounter n).state = initial (key.getD · 0) (nonce.getD · 0) n := by
  have hword {i : Nat} (hi : i + 4 ≤ 32) : leWord key i = wordAt (key.getD · 0) i := leWord_eq (hkey ▸ hi)
  have hword' {i : Nat} (hi : i + 4 ≤ 8) : leWord nonce i = wordAt (nonce.getD · 0) i := leWord_eq (hnonce ▸ hi)
  funext r c
  fin_cases r <;> fin_cases c <;> simp [matrix, withCounter, new, initial, constants, Function.update, hword, hword']

/-! ### The keystream -/

variable {c : ChaCha20} {n : Nat}

/-- The blocks of a state for its counter and the counters that follow. -/
def keystream (c : ChaCha20) (i : Nat) : UInt8 :=
  blockByte (matrix (c.withCounter ((c.counter + i / chachaBlockSize) % 2 ^ 64)).state) (place i)

theorem counter_lt (c : ChaCha20) : c.counter < 2 ^ 64 := by
  have hlow := (c.state 12).isLt
  have hhigh := (c.state 13).isLt
  unfold counter
  omega

theorem withCounter_counter (c : ChaCha20) : c.withCounter c.counter = c := by
  have hlow := (c.state 12).isLt
  have hword : BitVec.ofNat 32 c.counter = c.state 12 := by
    apply BitVec.eq_of_toNat_eq
    rw [BitVec.toNat_ofNat, counter]
    omega
  have hrest : BitVec.ofNat 32 (c.counter / 2 ^ 32) = c.state 13 := by
    apply BitVec.eq_of_toNat_eq
    have hhigh := (c.state 13).isLt
    rw [BitVec.toNat_ofNat, counter]
    omega
  rw [withCounter, hword, hrest, Function.update_eq_self, Function.update_eq_self]

theorem counter_withCounter (hn : n < 2 ^ 64) : (c.withCounter n).counter = n := by
  simp only [counter, withCounter, Function.update_self, Function.update_of_ne (show (12 : Fin 16) ≠ 13 by decide),
    BitVec.toNat_ofNat]
  omega

theorem withCounter_withCounter (m : Nat) : (c.withCounter m).withCounter n = c.withCounter n := by
  rw [withCounter, withCounter, withCounter]
  congr 1
  funext i
  simp only [Function.update_apply]
  split_ifs <;> rfl

theorem advance_eq (c : ChaCha20) : c.advance = c.withCounter ((c.counter + 1) % 2 ^ 64) := by
  have hne : (13 : Fin 16) ≠ 12 := by decide
  have hlow := (c.state 12).isLt
  have hhigh := (c.state 13).isLt
  have hword : BitVec.ofNat 32 ((c.counter + 1) % 2 ^ 64) = c.state 12 + 1 := by
    apply BitVec.eq_of_toNat_eq
    rw [BitVec.toNat_ofNat, counter, BitVec.toNat_add]
    change _ = ((c.state 12).toNat + 1) % 2 ^ 32
    omega
  rw [advance, withCounter, hword, Function.update_self]
  congr 1
  by_cases hzero : c.state 12 + 1 = 0
  · have hwrap : (c.state 12).toNat + 1 = 2 ^ 32 := by
      have hnat := congrArg BitVec.toNat hzero
      rw [BitVec.toNat_add] at hnat
      change ((c.state 12).toNat + 1) % 2 ^ 32 = 0 at hnat
      omega
    rw [if_pos hzero, Function.update_of_ne hne]
    congr 1
    apply BitVec.eq_of_toNat_eq
    rw [BitVec.toNat_ofNat, counter, BitVec.toNat_add]
    change ((c.state 13).toNat + 1) % 2 ^ 32 = _
    omega
  · have hstay : (c.state 12).toNat + 1 < 2 ^ 32 := by
      by_contra hnot
      apply hzero
      apply BitVec.eq_of_toNat_eq
      rw [BitVec.toNat_add]
      change ((c.state 12).toNat + 1) % 2 ^ 32 = 0
      omega
    have hrest : BitVec.ofNat 32 ((c.counter + 1) % 2 ^ 64 / 2 ^ 32) = c.state 13 := by
      apply BitVec.eq_of_toNat_eq
      rw [BitVec.toNat_ofNat, counter]
      omega
    rw [if_neg hzero, hrest, ← Function.update_of_ne hne (c.state 12 + 1) c.state, Function.update_eq_self]

theorem keystream_block {i : Nat} (hi : i < chachaBlockSize) : c.keystream i = c.block.getD i 0 := by
  have hlen : i < (List.ofFn (blockByte (matrix c.state))).length := by rwa [List.length_ofFn]
  rw [keystream, Nat.div_eq_of_lt hi, Nat.add_zero, Nat.mod_eq_of_lt c.counter_lt, withCounter_counter, block_eq,
    List.getD_eq_getElem _ _ hlen, List.getElem_ofFn]
  congr 1
  exact Fin.ext (Nat.mod_eq_of_lt hi)

theorem keystream_advance (i : Nat) : c.advance.keystream i = c.keystream (chachaBlockSize + i) := by
  have hindex : place (chachaBlockSize + i) = place i := Fin.ext (Nat.add_mod_left _ _)
  rw [keystream, keystream, advance_eq, withCounter_withCounter, counter_withCounter (Nat.mod_lt _ (by decide)),
    Nat.add_div_left _ (by decide), hindex]
  congr 4
  omega

/-- From the counter 0 on, the keystream of a state is that of its key and nonce. -/
theorem keystream_new {key nonce : List UInt8} (hkey : key.length = 32) (hnonce : nonce.length = 8) :
    (ChaCha20.new key nonce 0).keystream = ChaCha.keystream (key.getD · 0) (nonce.getD · 0) := by
  funext i
  have hzero : (ChaCha20.new key nonce 0).counter = 0 := rfl
  rw [keystream, hzero, Nat.zero_add, matrix_new hkey hnonce]
  rfl

end ChaCha20

namespace EntropyPool

variable {p : EntropyPool} {fallback : List UInt8}

def stream (p : EntropyPool) (i : Nat) : UInt8 :=
  if i < chachaBlockSize - p.offset then p.buffer.getD (p.offset + i) 0
  else (p.chacha.map fun c => c.keystream (i - (chachaBlockSize - p.offset))).getD 0

def front (p : EntropyPool) (n : Nat) : List UInt8 := (List.range n).map p.stream

theorem front_add {q : EntropyPool} {m : Nat} (h : ∀ i, q.stream i = p.stream (m + i)) (n : Nat) :
    p.front m ++ q.front n = p.front (m + n) := by
  rw [front, front, front, List.range_add, List.map_append, List.map_map]
  exact congrArg _ (List.map_congr_left fun i _ => h i)

theorem refill_of_chacha {c : ChaCha20} (hc : p.chacha = some c) : p.refill fallback = p.nextBlock c := by
  simp only [refill, hc]

theorem stream_nextBlock {c : ChaCha20} (hc : p.chacha = some c) (hoff : chachaBlockSize ≤ p.offset) :
    (p.nextBlock c).stream = p.stream := by
  funext i
  rw [stream, stream, hc, Nat.sub_eq_zero_of_le hoff, if_neg (Nat.not_lt_zero i)]
  simp only [nextBlock, Option.map_some, Option.getD_some, Nat.sub_zero, Nat.zero_add]
  split
  case isTrue hi => exact (ChaCha20.keystream_block hi).symm
  case isFalse hi => rw [ChaCha20.keystream_advance, Nat.add_sub_cancel' (Nat.not_lt.1 hi)]

theorem stream_take {n : Nat} (hn : n ≤ chachaBlockSize - p.offset) (i : Nat) : (p.take n).stream i = p.stream (n + i) := by
  have hoff := p.offset_le
  have htake : min chachaBlockSize (p.offset + n) = p.offset + n := by omega
  simp only [stream, take, htake]
  by_cases hi : i < chachaBlockSize - (p.offset + n)
  · rw [if_pos hi, if_pos (by omega), Nat.add_assoc]
  · have hindex : i - (chachaBlockSize - (p.offset + n)) = n + i - (chachaBlockSize - p.offset) := by omega
    rw [if_neg hi, if_neg (by omega), hindex]

theorem front_take {n : Nat} (hn : n ≤ chachaBlockSize - p.offset) : (p.buffer.drop p.offset).take n = p.front n := by
  have hlen := p.length_buffer
  have hoff := p.offset_le
  refine List.ext_getElem (by rw [front, List.length_take, List.length_drop, List.length_map, List.length_range]; omega) ?_
  intro i hi _
  rw [List.length_take] at hi
  simp only [List.getElem_take, List.getElem_drop, front, List.getElem_map, List.getElem_range, stream]
  rw [if_pos (by omega), List.getD_eq_getElem]

theorem generateLoop_spec (fallback : List UInt8) : ∀ fuel (p : EntropyPool) left, left ≤ fuel → p.chacha.isSome →
    (generateLoop fallback fuel p left).1 = p.front left ∧
      (generateLoop fallback fuel p left).2.chacha.isSome ∧ (generateLoop fallback fuel p left).2.seeded = p.seeded ∧
      ∀ i, (generateLoop fallback fuel p left).2.stream i = p.stream (left + i) := by
  intro fuel
  induction fuel with
  | zero =>
    intro p left hle hsome
    obtain rfl : left = 0 := by omega
    exact ⟨rfl, hsome, rfl, fun i => by rw [Nat.zero_add]; rfl⟩
  | succ fuel ih =>
    intro p left hle hsome
    by_cases hzero : left = 0
    · subst hzero
      exact ⟨rfl, hsome, rfl, fun i => by rw [Nat.zero_add]; rfl⟩
    · -- the pool whose buffer the turn copies from
      obtain ⟨q, hq, hsome', hseeded, hstream, hoff⟩ : ∃ q : EntropyPool,
          (if chachaBlockSize ≤ p.offset then p.refill fallback else p) = q ∧ q.chacha.isSome ∧ q.seeded = p.seeded ∧
            q.stream = p.stream ∧ q.offset < chachaBlockSize := by
        by_cases hoff : chachaBlockSize ≤ p.offset
        · obtain ⟨c, hc⟩ := Option.isSome_iff_exists.1 hsome
          exact ⟨p.nextBlock c, by
            rw [if_pos hoff, refill_of_chacha hc], rfl, rfl, stream_nextBlock hc hoff, Nat.zero_lt_succ 63⟩
        · exact ⟨p, if_neg hoff, hsome, rfl, rfl, Nat.lt_of_not_le hoff⟩
      have hrun : generateLoop fallback (fuel + 1) p left =
          ((q.buffer.drop q.offset).take (min (chachaBlockSize - q.offset) left) ++
            (generateLoop fallback fuel (q.take (min (chachaBlockSize - q.offset) left))
              (left - min (chachaBlockSize - q.offset) left)).1,
            (generateLoop fallback fuel (q.take (min (chachaBlockSize - q.offset) left))
              (left - min (chachaBlockSize - q.offset) left)).2) := by
        rw [generateLoop, if_neg hzero]
        simp only [hq]
      rw [hrun]
      generalize hchunk : min (chachaBlockSize - q.offset) left = chunk
      obtain ⟨hout, hsome'', hseeded', hrest⟩ := ih (q.take chunk) (left - chunk) (by omega) hsome'
      have hsplit : chunk + (left - chunk) = left := by omega
      refine ⟨?_, hsome'', hseeded'.trans hseeded, fun i => ?_⟩
      · rw [hout, front_take (by omega), front_add (stream_take (by omega)), hsplit, front, front, hstream]
      · rw [hrest, stream_take (by omega), hstream, ← Nat.add_assoc, hsplit]

theorem ready_isSome (p : EntropyPool) (fallback : List UInt8) : (p.ready fallback).chacha.isSome := by
  rw [ready]
  split
  case isTrue hseeded => exact p.chacha_isSome hseeded
  case isFalse => rfl

theorem ready_seeded (p : EntropyPool) (fallback : List UInt8) : (p.ready fallback).seeded = true := by
  rw [ready]
  split
  case isTrue hseeded => exact hseeded
  case isFalse => rfl

/-- A request takes the front of the stream of a pool that is seeded, and leaves the rest. -/
theorem generate_spec (p : EntropyPool) (fallback : List UInt8) (length : Nat) :
    (p.generate fallback length).1 = (p.ready fallback).front length ∧ (p.generate fallback length).2.seeded = true ∧
      ∀ i, (p.generate fallback length).2.stream i = (p.ready fallback).stream (length + i) := by
  obtain ⟨hout, -, hseeded, hrest⟩ := generateLoop_spec fallback length _ length le_rfl (p.ready_isSome fallback)
  exact ⟨hout, hseeded.trans (p.ready_seeded fallback), hrest⟩

theorem serve_seeded (requests : List (List UInt8 × Nat)) : ∀ p : EntropyPool, p.seeded = true →
    serve requests p = p.front (requests.map (·.2)).sum := by
  induction requests with
  | nil =>
    intro p _
    rfl
  | cons request requests ih =>
    intro p hseeded
    obtain ⟨fallback, length⟩ := request
    obtain ⟨hout, hnext, hrest⟩ := p.generate_spec fallback length
    rw [ready, if_pos hseeded] at hout hrest
    rw [serve, hout, ih _ hnext, front_add hrest, List.map_cons, List.sum_cons]

theorem stream_seedFromBytes (p : EntropyPool) (seed : List UInt8) :
    (p.seedFromBytes seed).stream = ChaCha.keystream (fun i => (seed.take 32).getD i 0) fun _ => 0 := by
  have hkey : ∀ i, (seed.take (min seed.length 32) ++ List.replicate (32 - min seed.length 32) 0).getD i (0 : UInt8) =
      (seed.take 32).getD i 0 := by
    intro i
    simp only [List.getD_eq_getElem?_getD, List.getElem?_append, List.getElem?_take, List.getElem?_replicate,
      List.length_take]
    grind
  have hstream : (p.seedFromBytes seed).stream = (ChaCha20.new (seed.take (min seed.length chachaKeySize) ++
      List.replicate (chachaKeySize - min seed.length chachaKeySize) 0) (List.replicate 8 0) 0).keystream := by
    funext i
    rw [stream, if_neg (by simp [seedFromBytes])]
    simp [seedFromBytes]
  rw [hstream, ChaCha20.keystream_new (by simp [chachaKeySize]) List.length_replicate]
  congr 1
  · exact funext hkey
  · funext i
    simp only [List.getD_eq_getElem?_getD, List.getElem?_replicate]
    split <;> rfl

/-- Requests of any lengths get together what one request for all of it gets: the front of the stream of the pool, which is
the rest of its buffer and then the keystream of its state, and which is seeded by the first request if it was not before.
After a seeding, requests get the front of the keystream of the key that the seed is, cut or filled with zeros to 32
bytes. -/
theorem requests_join (p : EntropyPool) (fallback : List UInt8) (length : Nat) (requests : List (List UInt8 × Nat)) :
    serve ((fallback, length) :: requests) p = (p.generate fallback (length + (requests.map (·.2)).sum)).1 ∧
      (p.generate fallback (length + (requests.map (·.2)).sum)).1 =
        (p.ready fallback).front (length + (requests.map (·.2)).sum) ∧
      ∀ seed, serve requests (p.seedFromBytes seed) =
        (List.range (requests.map (·.2)).sum).map (ChaCha.keystream (fun i => (seed.take 32).getD i 0) fun _ => 0) := by
  obtain ⟨hout, hnext, hrest⟩ := p.generate_spec fallback length
  have hone := (p.generate_spec fallback (length + (requests.map (·.2)).sum)).1
  refine ⟨?_, hone, fun seed => ?_⟩
  · rw [serve, hout, serve_seeded _ _ hnext, front_add hrest, hone]
  · rw [serve_seeded _ _ rfl, front, stream_seedFromBytes]

end EntropyPool

end SudoOS
