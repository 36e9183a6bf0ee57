import Mathlib

/-!
The block function of ChaCha20, on a matrix of words: a round works on the four columns, or on the four diagonals, of the
matrix at the same time.
-/

namespace SudoOS.ChaCha

/-- Four rows of four words. -/
abbrev Matrix := Fin 4 → Fin 4 → BitVec 32

/-- The four words of a column or diagonal after a quarter round. -/
def quarter (x : Fin 4 → BitVec 32) : Fin 4 → BitVec 32 :=
  let a₁ := x 0 + x 1
  let d₁ := (x 3 ^^^ a₁).rotateLeft 16
  let c₁ := x 2 + d₁
  let b₁ := (x 1 ^^^ c₁).rotateLeft 12
  let a₂ := a₁ + b₁
  let d₂ := (d₁ ^^^ a₂).rotateLeft 8
  let c₂ := c₁ + d₂
  ![a₂, (b₁ ^^^ c₂).rotateLeft 7, c₂, d₂]

/-- A round on the columns. -/
def columnRound (m : Matrix) : Matrix := fun r c => quarter (fun i => m i c) r

/-- A round on the diagonals: row `r` is moved `r` places to the left for a round on the columns, and back. -/
def diagonalRound (m : Matrix) : Matrix := fun r c => columnRound (fun i j => m i (j + i)) r (c - r)

/-- Ten times a round on the columns and one on the diagonals. -/
def twentyRounds (m : Matrix) : Matrix := (diagonalRound ∘ columnRound)^[10] m

/-- Byte `k` of a word, the lowest first. -/
def wordByte (w : BitVec 32) (k : Nat) : UInt8 := UInt8.ofNat (w.toNat / 256 ^ k)

/-- Byte `i` of the block of a matrix: its words are added to those of the matrix after twenty rounds. -/
def blockByte (m : Matrix) (i : Fin 64) : UInt8 :=
  let r : Fin 4 := ⟨i / 16, by omega⟩
  let c : Fin 4 := ⟨i % 16 / 4, by omega⟩
  wordByte (twentyRounds m r c + m r c) (i % 4)

/-- The word at a place of a string of bytes, the lowest byte first. -/
def wordAt (bytes : Nat → UInt8) (i : Nat) : BitVec 32 :=
  BitVec.ofNat 32 ((bytes i).toNat + 256 * (bytes (i + 1)).toNat + 256 ^ 2 * (bytes (i + 2)).toNat +
    256 ^ 3 * (bytes (i + 3)).toNat)

/-- The words of "expand 32-byte k". -/
def constants : Fin 4 → BitVec 32 := ![0x61707865, 0x3320646e, 0x79622d32, 0x6b206574]

/-- The first row holds constants, the next two the key, and the last one the counter of 64 bits and the nonce. -/
def initial (key nonce : Nat → UInt8) (counter : Nat) : Matrix :=
  ![constants, fun c => wordAt key (4 * c), fun c => wordAt key (16 + 4 * c),
    ![BitVec.ofNat 32 counter, BitVec.ofNat 32 (counter / 2 ^ 32), wordAt nonce 0, wordAt nonce 4]]

/-- The place of a byte of the stream in its block. -/
def place (i : Nat) : Fin 64 := Fin.ofNat 64 i

/-- The blocks of a key and nonce for the counters 0, 1, 2 and so on, modulo `2 ^ 64`. -/
def keystream (key nonce : Nat → UInt8) (i : Nat) : UInt8 :=
  blockByte (initial key nonce (i / 64 % 2 ^ 64)) (place i)

end SudoOS.ChaCha
