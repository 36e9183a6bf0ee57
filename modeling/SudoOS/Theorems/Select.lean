import SudoOS.Kernel.Select
import SudoOS.Lib.Program

/-! What `pselect6` reports. -/

namespace SudoOS.Select

open Program

variable {files later : Files} {sets : Condition → FdSet} {memory : UserMemory} {call : Call} {r : Selected}

/-! ### Bits -/

theorem and_bit_ne_zero : ∀ (byte : BitVec 8) (k : Fin 8), (byte &&& ((1 : BitVec 8) <<< k.val) != 0) = byte.getLsbD k := by
  decide +kernel

theorem fdIsSet_eq (bytes : FdSet) (fd : Nat) :
    fdIsSet bytes fd = (bytes[fd / 8]?.any fun byte => byte.getLsbD (fd % 8)) := by
  unfold fdIsSet
  cases bytes[fd / 8]? with
  | none => rfl
  | some byte => exact and_bit_ne_zero byte ⟨fd % 8, Nat.mod_lt _ (by decide)⟩

@[simp] theorem length_setFdBit (bytes : FdSet) (fd : Nat) : (setFdBit bytes fd).length = bytes.length :=
  List.length_modify ..

theorem getLsbD_or_bit (byte : BitVec 8) {k j : Nat} (hj : j < 8) :
    (byte ||| ((1 : BitVec 8) <<< k)).getLsbD j = (byte.getLsbD j || decide (j = k)) := by
  rw [BitVec.getLsbD_or]
  congr 1
  simp only [BitVec.getLsbD_shiftLeft, hj]
  by_cases h : j = k
  · simp [h]
  · simp [h]
    omega

theorem fdIsSet_setFdBit {bytes : FdSet} {fd : Nat} (h : fd / 8 < bytes.length) (fd' : Nat) :
    fdIsSet (setFdBit bytes fd) fd' = (fdIsSet bytes fd' || decide (fd' = fd)) := by
  rw [fdIsSet_eq, fdIsSet_eq, setFdBit, List.getElem?_modify]
  have hbit : fd' % 8 < 8 := Nat.mod_lt _ (by decide)
  by_cases hbyte : fd / 8 = fd' / 8
  · rw [← hbyte, List.getElem?_eq_getElem h, Option.map_eq_map, Option.map_some]
    simp only [if_true, Option.any_some, getLsbD_or_bit _ hbit]
    congr 1
    exact decide_eq_decide.2 (by omega)
  · have hne : fd' ≠ fd := fun heq => hbyte (heq ▸ rfl)
    simp only [if_neg hbyte, decide_eq_false hne, Bool.or_false, id_map']

def bits (bytes : FdSet) : Nat := (List.range (8 * bytes.length)).countP (fdIsSet bytes)

/-! ### The loop -/

theorem foldl_mark (fd : Nat) (out : Condition → FdSet) (c : Condition) :
    conditions.foldl (mark files sets fd) out c = if found files sets fd c then setFdBit (out c) fd else out c := by
  have hmark (out : Condition → FdSet) (c' : Condition) :
      mark files sets fd out c' c = if c = c' ∧ found files sets fd c' then setFdBit (out c) fd else out c := by
    unfold mark
    by_cases hfound : found files sets fd c'
    · by_cases hc : c = c'
      · subst hc
        simp [hfound]
      · simp [hfound, hc]
    · simp [hfound]
  simp only [conditions, List.foldl_cons, List.foldl_nil, hmark]
  cases c <;> simp

structure Scanned (files : Files) (sets : Condition → FdSet) (length n : Nat) (scan : Scan) : Prop where
  length_eq : ∀ c, (scan.out c).length = length
  marked : ∀ c fd, fdIsSet (scan.out c) fd = (decide (fd < n) && found files sets fd c)
  ready : scan.ready = (List.range n).countP fun fd => conditions.any (found files sets fd)

theorem scanFd_ok {scan next : Scan} {fd : Nat} (h : scanFd files sets scan fd = .ok next) :
    (∀ c, next.out c = if found files sets fd c then setFdBit (scan.out c) fd else scan.out c) ∧
      next.ready = if conditions.any (found files sets fd) then scan.ready + 1 else scan.ready := by
  unfold scanFd at h
  split at h
  · split at h
    · cases h
      exact ⟨foldl_mark fd scan.out, rfl⟩
    · cases h
  · next hwants =>
    cases h
    have hnone (c : Condition) : found files sets fd c = false := by
      have hc : fdIsSet (sets c) fd = false := by
        cases c <;> simp_all [conditions]
      rw [found, hc, Bool.false_and]
    refine ⟨fun c => ?_, ?_⟩
    · rw [hnone c, if_neg Bool.false_ne_true]
    · rw [if_neg (by simp [hnone])]

theorem Scanned.next {length n : Nat} {scan next : Scan} (hs : Scanned files sets length n scan) (hn : n / 8 < length)
    (h : scanFd files sets scan n = .ok next) : Scanned files sets length (n + 1) next := by
  obtain ⟨hout, hready⟩ := scanFd_ok h
  refine ⟨fun c => ?_, fun c fd => ?_, ?_⟩
  · rw [hout, ← hs.length_eq c]
    split_ifs <;> simp
  · rw [hout]
    have hold := hs.marked c fd
    by_cases hfound : found files sets n c = true
    · rw [if_pos hfound, fdIsSet_setFdBit (by rw [hs.length_eq]; exact hn), hold]
      by_cases heq : fd = n
      · subst heq
        simp [hfound]
      · simp [heq, show fd < n + 1 ↔ fd < n by omega]
    · rw [if_neg hfound, hold]
      by_cases heq : fd = n
      · subst heq
        simp [hfound]
      · simp [show fd < n + 1 ↔ fd < n by omega]
  · rw [hready, List.range_succ, List.countP_append, List.countP_singleton, hs.ready]
    split_ifs <;> rfl

theorem countP_range_of_lt {p : Nat → Bool} {n m : Nat} (hle : n ≤ m) (h : ∀ i, p i = true → i < n) :
    (List.range m).countP p = (List.range n).countP p := by
  obtain ⟨k, rfl⟩ := Nat.exists_eq_add_of_le hle
  rw [List.range_add, List.countP_append, Nat.add_eq_left, List.countP_eq_zero]
  intro i hi hp
  obtain ⟨j, -, rfl⟩ := List.mem_map.1 hi
  have := h _ hp
  omega

theorem Scanned.bits_eq {length n : Nat} {scan : Scan} (hs : Scanned files sets length n scan) (hn : n ≤ 8 * length)
    (c : Condition) : bits (scan.out c) = (List.range n).countP (found files sets · c) := by
  have hmarked (fd : Nat) := hs.marked c fd
  rw [bits, hs.length_eq, countP_range_of_lt hn fun fd hfd => ?_]
  · refine List.countP_congr fun fd hfd => ?_
    rw [hmarked, decide_eq_true (List.mem_range.1 hfd), Bool.true_and]
  · rw [hmarked, Bool.and_eq_true, decide_eq_true_eq] at hfd
    exact hfd.1

/-! ### What a call reports -/

structure Outcome (files : Files) (memory : UserMemory) (call : Call) (r : Selected) : Prop where
  reads : call.nfds ≠ 0 → ∃ length, call.nfds.toNat ≤ 8 * length ∧ copySets memory call length = some r.sets
  stores : call.nfds ≠ 0 → storeSets memory call r.out = some r.memory
  exactly : ∀ c fd, fdIsSet (r.out c) fd = true ↔ fd < call.nfds.toNat ∧ found files r.sets fd c = true
  bits_eq : ∀ c, bits (r.out c) = (List.range call.nfds.toNat).countP (found files r.sets · c)
  ready : r.ready = (List.range call.nfds.toNat).countP fun fd => conditions.any (found files r.sets fd)
  slept : r.ready = 0 → call.timeout ≠ 0 → ∃ t, sysNanosleep memory call.timeout = .ok t ∧ r.slept = some t

/-- The descriptor is in the set that the program has for the condition. -/
def requested (memory : UserMemory) (call : Call) (fd : Nat) (c : Condition) : Bool :=
  call.address c ≠ 0 && (memory.bytes (call.address c + fd / 8)).getLsbD (fd % 8)

end SudoOS.Select
