import SudoOS.Kernel.Signal

/-! Copies to and from the memory of a program. -/

namespace SudoOS.UserMemory

variable {memory later : UserMemory}

variable {address : Nat} {input : List (BitVec 8)}

theorem copyFromUser_copyToUser (h : memory.copyToUser address input = some later)
    (hread : ∀ i < input.length, memory.readable (address + i) = true) :
    later.copyFromUser address input.length = some input := by
  rw [copyToUser] at h
  split at h
  case isFalse => cases h
  case isTrue hcond =>
    cases h
    rw [Bool.and_eq_true, decide_eq_true_eq] at hcond
    have hall : ((List.range input.length).all fun i => (memory.store address input).readable (address + i)) = true :=
      List.all_eq_true.2 fun i hi => hread i (List.mem_range.1 hi)
    rw [copyFromUser, if_pos (by rw [Bool.and_eq_true, decide_eq_true_eq]; exact ⟨hcond.1, hall⟩)]
    refine congrArg some (List.ext_getElem (by simp) fun i hi hi' => ?_)
    simp only [List.getElem_map, List.getElem_range, store]
    rw [if_pos ⟨Nat.le_add_right _ _, Nat.add_lt_add_left hi' _⟩, Nat.add_sub_cancel_left, List.getD_eq_getElem _ _ hi']

theorem bytes_copyToUser {a : Nat} (h : memory.copyToUser address input = some later)
    (ha : a < address ∨ address + input.length ≤ a) : later.bytes a = memory.bytes a := by
  rw [copyToUser] at h
  split at h
  · cases h
    exact if_neg fun hin => by omega
  · cases h

theorem rights_copyToUser (h : memory.copyToUser address input = some later) :
    later.readable = memory.readable ∧ later.writable = memory.writable := by
  rw [copyToUser] at h
  split at h
  · cases h
    exact ⟨rfl, rfl⟩
  · cases h

theorem writable_of_copyToUser {i : Nat} (h : memory.copyToUser address input = some later)
    (hi : i < input.length) : memory.writable (address + i) = true := by
  rw [copyToUser] at h
  split at h
  · rename_i hcond
    exact List.all_eq_true.1 (Bool.and_eq_true_iff.1 hcond).2 i (List.mem_range.2 hi)
  · cases h

theorem copyFromUser_of_apart {place size : Nat} (h : memory.copyToUser address input = some later)
    (hapart : address + input.length ≤ place ∨ place + size ≤ address) :
    later.copyFromUser place size = memory.copyFromUser place size := by
  have hbytes : ∀ i ∈ List.range size, later.bytes (place + i) = memory.bytes (place + i) := by
    intro i hi
    rw [List.mem_range] at hi
    exact bytes_copyToUser h (by omega)
  rw [copyFromUser, copyFromUser, List.map_congr_left hbytes, (rights_copyToUser h).1]

end SudoOS.UserMemory
