import Mathlib

/-! Little-endian storage: numbers as bytes, and arrays of numbers of one width as bytes. -/

namespace LittleEndian

/-- The `n` low bytes of `v`, least significant first. -/
def bytes : Nat → Nat → List (BitVec 8)
  | 0, _ => []
  | n + 1, v => BitVec.ofNat 8 v :: bytes n (v / 256)

def value : List (BitVec 8) → Nat
  | [] => 0
  | b :: bs => b.toNat + 256 * value bs

@[simp] theorem length_bytes (n v : Nat) : (bytes n v).length = n := by
  induction n generalizing v with
  | zero => rfl
  | succ n ih => rw [bytes, List.length_cons, ih]

theorem value_bytes (n v : Nat) : value (bytes n v) = v % 256 ^ n := by
  induction n generalizing v with
  | zero => rw [bytes, value, Nat.pow_zero, Nat.mod_one]
  | succ n ih =>
    have hpow : 256 ^ (n + 1) = 256 * 256 ^ n := Nat.pow_succ'
    rw [bytes, value, ih, BitVec.toNat_ofNat, hpow, Nat.mod_mul]

def encode (n : Nat) (vs : List Nat) : List (BitVec 8) := vs.flatMap (bytes n)

def decode (n : Nat) : Nat → List (BitVec 8) → List Nat
  | 0, _ => []
  | count + 1, bs => value (bs.take n) :: decode n count (bs.drop n)

@[simp] theorem length_encode (n : Nat) (vs : List Nat) : (encode n vs).length = vs.length * n := by
  induction vs with
  | nil => simp [encode]
  | cons v vs ih =>
    rw [encode, List.flatMap_cons, List.length_append, length_bytes, List.length_cons, Nat.succ_mul, Nat.add_comm,
      ← encode, ih]

theorem decode_encode {n : Nat} {vs : List Nat} (h : ∀ v ∈ vs, v < 256 ^ n) : decode n vs.length (encode n vs) = vs := by
  induction vs with
  | nil => rfl
  | cons v vs ih =>
    have htake : (encode n (v :: vs)).take n = bytes n v := by
      rw [encode, List.flatMap_cons, List.take_left' (length_bytes n v)]
    have hdrop : (encode n (v :: vs)).drop n = encode n vs := by
      rw [encode, List.flatMap_cons, List.drop_left' (length_bytes n v), encode]
    rw [List.length_cons, decode, htake, hdrop, value_bytes, Nat.mod_eq_of_lt (h v List.mem_cons_self),
      ih fun v hv => h v (List.mem_cons_of_mem _ hv)]

end LittleEndian
