import Mathlib

/-!
Circular buffers. `len` elements stand in an array of `cap` places, from `head` on and around its end; what is read or
written in one piece does not cross the end.
-/

namespace Ring

variable {α : Type*} {cap head len count : Nat} {buffer : Nat → α} {data : List α}

def contents (cap : Nat) (buffer : Nat → α) (head len : Nat) : List α :=
  (List.range len).map fun i => buffer ((head + i) % cap)

def slice (buffer : Nat → α) (start count : Nat) : List α := (List.range count).map fun i => buffer (start + i)

def overwrite (buffer : Nat → α) (start : Nat) (data : List α) (place : Nat) : α :=
  if h : start ≤ place ∧ place - start < data.length then data.get ⟨place - start, h.2⟩ else buffer place

@[simp] theorem length_contents : (contents cap buffer head len).length = len := by
  rw [contents, List.length_map, List.length_range]

@[simp] theorem length_slice : (slice buffer head count).length = count := by
  rw [slice, List.length_map, List.length_range]

@[simp] theorem getElem_contents {i : Nat} (h : i < (contents cap buffer head len).length) :
    (contents cap buffer head len)[i] = buffer ((head + i) % cap) := by
  simp only [contents, List.getElem_map, List.getElem_range]

@[simp] theorem getElem_slice {i : Nat} (h : i < (slice buffer head count).length) :
    (slice buffer head count)[i] = buffer (head + i) := by
  simp only [slice, List.getElem_map, List.getElem_range]

/-- A piece that starts at the head and ends before the end of the array holds the oldest elements. -/
theorem slice_eq_take (hlen : count ≤ len) (hend : head + count ≤ cap) :
    slice buffer head count = (contents cap buffer head len).take count := by
  refine List.ext_getElem (by simp [hlen]) fun i hi _ => ?_
  rw [length_slice] at hi
  rw [getElem_slice, List.getElem_take, getElem_contents, Nat.mod_eq_of_lt (Nat.lt_of_lt_of_le (by omega) hend)]

/-- Moving the head drops the oldest elements. -/
theorem contents_advance : contents cap buffer ((head + count) % cap)
    (len - count) = (contents cap buffer head len).drop count := by
  refine List.ext_getElem (by simp) fun i _ _ => ?_
  rw [getElem_contents, List.getElem_drop, getElem_contents, Nat.mod_add_mod, Nat.add_assoc]

theorem overwrite_of_lt {start d : Nat} (hd : d < data.length) : overwrite buffer start data (start + d) = data[d] := by
  have hplace : start ≤ start + d ∧ start + d - start < data.length := ⟨Nat.le_add_right _ _, by omega⟩
  rw [overwrite, dif_pos hplace, List.get_eq_getElem]
  congr 1
  exact Nat.add_sub_cancel_left ..

theorem overwrite_of_forall_ne {start place : Nat} (h : ∀ d < data.length, place ≠ start + d) :
    overwrite buffer start data place = buffer place := by
  refine dif_neg fun hplace => ?_
  exact h (place - start) hplace.2 (Nat.add_sub_cancel' hplace.1).symm

/-- A piece written behind the youngest element, where there is room for it, is appended. -/
theorem contents_overwrite (hroom : len + data.length ≤ cap) (hend : (head + len) % cap + data.length ≤ cap) :
    contents cap (overwrite buffer ((head + len) % cap) data) head (len + data.length) =
      contents cap buffer head len ++ data := by
  have hplace {d : Nat} (hd : d < data.length) : (head + (len + d)) % cap = (head + len) % cap + d := by
    rw [← Nat.add_assoc, ← Nat.mod_add_mod, Nat.mod_eq_of_lt (Nat.lt_of_lt_of_le (by omega) hend)]
  refine List.ext_getElem (by simp) fun i hi _ => ?_
  rw [length_contents] at hi
  rw [getElem_contents, List.getElem_append]
  split
  · rename_i hold
    rw [length_contents] at hold
    rw [getElem_contents, overwrite_of_forall_ne fun d hd heq => ?_]
    -- two offsets below the capacity have different places
    rw [← hplace hd] at heq
    have hmod : i % cap = (len + d) % cap := Nat.ModEq.add_left_cancel' head heq
    rw [Nat.mod_eq_of_lt (by omega), Nat.mod_eq_of_lt (by omega)] at hmod
    omega
  · rename_i hnew
    rw [length_contents, not_lt] at hnew
    obtain ⟨d, rfl⟩ := Nat.exists_eq_add_of_le hnew
    have hd : d < data.length := by omega
    simp only [length_contents, Nat.add_sub_cancel_left, hplace hd, overwrite_of_lt hd]

end Ring
