import Mathlib

/-!
The random generator: a pool that hands out the output of ChaCha20 block by block. The bytes of a fallback seed, which come
from the clock and from an address, are an argument.
-/

namespace SudoOS

def chachaKeySize : Nat := 32

def chachaBlockSize : Nat := 64

structure ChaCha20 where
  state : Fin 16 → BitVec 32

namespace ChaCha20

def leWord (bytes : List UInt8) (offset : Nat) : BitVec 32 :=
  BitVec.ofNat 32 (((bytes.drop offset).take 4).foldr (fun b n => b.toNat + 256 * n) 0)

def new (key nonce : List UInt8) (counter : Nat) : ChaCha20 :=
  ⟨![0x61707865, 0x3320646e, 0x79622d32, 0x6b206574,
    leWord key 0, leWord key 4, leWord key 8, leWord key 12, leWord key 16, leWord key 20, leWord key 24, leWord key 28,
    BitVec.ofNat 32 counter, BitVec.ofNat 32 (counter / 2 ^ 32), leWord nonce 0, leWord nonce 4]⟩

def mix (s : Fin 16 → BitVec 32) (a b d : Fin 16) (n : Nat) : Fin 16 → BitVec 32 :=
  let s := Function.update s a (s a + s b)
  Function.update s d ((s d ^^^ s a).rotateLeft n)

def quarterRound (a b c d : Fin 16) (s : Fin 16 → BitVec 32) : Fin 16 → BitVec 32 :=
  mix (mix (mix (mix s a b d 16) c d b 12) a b d 8) c d b 7

def doubleRound (s : Fin 16 → BitVec 32) : Fin 16 → BitVec 32 :=
  let s := quarterRound 3 7 11 15 (quarterRound 2 6 10 14 (quarterRound 1 5 9 13 (quarterRound 0 4 8 12 s)))
  quarterRound 3 4 9 14 (quarterRound 2 7 8 13 (quarterRound 1 6 11 12 (quarterRound 0 5 10 15 s)))

def block (c : ChaCha20) : List UInt8 :=
  let working := doubleRound^[10] c.state
  (List.finRange 16).flatMap fun i => (List.range 4).map fun k =>
    UInt8.ofBitVec ((working i + c.state i).extractLsb' (8 * k) 8)

def advance (c : ChaCha20) : ChaCha20 :=
  let s := Function.update c.state 12 (c.state 12 + 1)
  ⟨if s 12 = 0 then Function.update s 13 (s 13 + 1) else s⟩

def counter (c : ChaCha20) : Nat := (c.state 12).toNat + 2 ^ 32 * (c.state 13).toNat

def withCounter (c : ChaCha20) (n : Nat) : ChaCha20 :=
  ⟨Function.update (Function.update c.state 12 (BitVec.ofNat 32 n)) 13 (BitVec.ofNat 32 (n / 2 ^ 32))⟩

theorem length_block (c : ChaCha20) : c.block.length = chachaBlockSize := by
  simp [block, List.length_flatMap, chachaBlockSize]

end ChaCha20

structure EntropyPool where
  chacha : Option ChaCha20
  buffer : List UInt8
  offset : Nat
  generated : Nat
  entropyEstimate : Nat
  seeded : Bool
  length_buffer : buffer.length = chachaBlockSize
  offset_le : offset ≤ chachaBlockSize
  chacha_isSome : seeded = true → chacha.isSome

namespace EntropyPool

def new : EntropyPool where
  chacha := none
  buffer := List.replicate chachaBlockSize 0
  offset := chachaBlockSize
  generated := 0
  entropyEstimate := 0
  seeded := false
  length_buffer := List.length_replicate
  offset_le := le_rfl
  chacha_isSome := Bool.noConfusion

def seedFromBytes (p : EntropyPool) (seed : List UInt8) : EntropyPool :=
  let copyLen := min seed.length chachaKeySize
  let key := seed.take copyLen ++ List.replicate (chachaKeySize - copyLen) 0
  { p with
    chacha := some (.new key (List.replicate 8 0) 0)
    offset := chachaBlockSize
    generated := 0
    entropyEstimate := min (copyLen * 8) 256
    seeded := true
    offset_le := le_rfl
    chacha_isSome := fun _ => rfl }

def nextBlock (p : EntropyPool) (c : ChaCha20) : EntropyPool :=
  { p with
    chacha := some c.advance
    buffer := c.block
    offset := 0
    length_buffer := c.length_block
    offset_le := Nat.zero_le _
    chacha_isSome := fun _ => rfl }

def refill (p : EntropyPool) (fallback : List UInt8) : EntropyPool :=
  match p.chacha with
  | some c => p.nextBlock c
  | none =>
    match (p.seedFromBytes fallback).chacha with
    | some c => (p.seedFromBytes fallback).nextBlock c
    | none => { p.seedFromBytes fallback with offset := 0, offset_le := Nat.zero_le _ }

def take (p : EntropyPool) (n : Nat) : EntropyPool :=
  { p with offset := min chachaBlockSize (p.offset + n), offset_le := Nat.min_le_left _ _ }

def generateLoop (fallback : List UInt8) : Nat → EntropyPool → Nat → List UInt8 × EntropyPool
  | 0, p, _ => ([], p)
  | fuel + 1, p, left =>
    if left = 0 then ([], p)
    else
      let p := if chachaBlockSize ≤ p.offset then p.refill fallback else p
      let chunk := min (chachaBlockSize - p.offset) left
      let (rest, q) := generateLoop fallback fuel (p.take chunk) (left - chunk)
      ((p.buffer.drop p.offset).take chunk ++ rest, q)

def ready (p : EntropyPool) (fallback : List UInt8) : EntropyPool := if p.seeded then p else p.seedFromBytes fallback

def generate (p : EntropyPool) (fallback : List UInt8) (length : Nat) : List UInt8 × EntropyPool :=
  let (output, p) := generateLoop fallback length (p.ready fallback) length
  let generated := (p.generated + length) % 2 ^ 64
  (output, { p with
    generated, entropyEstimate := if 1024 * 1024 ≤ generated then p.entropyEstimate - 8 else p.entropyEstimate })

/-- Requests one after another, each with its length and the fallback seed that there would be at its time. -/
def serve : List (List UInt8 × Nat) → EntropyPool → List UInt8
  | [], _ => []
  | (fallback, length) :: requests, p => (p.generate fallback length).1 ++ serve requests (p.generate fallback length).2

end EntropyPool

end SudoOS
