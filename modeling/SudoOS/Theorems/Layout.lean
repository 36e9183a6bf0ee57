import SudoOS.Mm.AddressSpace
import SudoOS.Mm.Paging
import SudoOS.Theorems.VmaSet

/-!
The layout of a user address space as a map from addresses to attributes: what the search for an area finds, and what each
call does to the map.
-/

namespace SudoOS

open Program

namespace VmAreaSet

variable {areas : List VmArea} {a b : VmArea} {x y capacity fuel left right : Nat}

/-! ### The search for an area -/

theorem findLoop_sound (h : findLoop areas x fuel left right = some a) : a ∈ areas ∧ a.contains x := by
  induction fuel generalizing left right with
  | zero => cases h
  | succ fuel ih =>
    unfold findLoop at h
    split_ifs at h with hlt
    dsimp only at h
    split at h
    · rename_i area harea
      split_ifs at h with hcontains hlow
      · cases h
        exact ⟨List.mem_of_getElem? harea, hcontains⟩
      · exact ih h
      · exact ih h
    · cases h

/-- Of two areas of an ordered list, the one that stands first ends before the other begins. -/
theorem Ordered.end_le (hw : Ordered capacity areas) {i j : Nat} (hij : i < j) (ha : areas[i]? = some a)
    (hb : areas[j]? = some b) : a.range.end_ ≤ b.range.start := by
  obtain ⟨hi, rfl⟩ := List.getElem?_eq_some_iff.1 ha
  obtain ⟨hj, rfl⟩ := List.getElem?_eq_some_iff.1 hb
  exact (List.pairwise_iff_getElem.1 hw.pairwise i j hi hj hij).1

theorem Ordered.index_unique (hw : Ordered capacity areas) {i j : Nat} (ha : areas[i]? = some a) (hb : areas[j]? = some b)
    (hax : a.contains x) (hbx : b.contains x) : i = j := by
  have := hax.1
  have := hax.2
  have := hbx.1
  have := hbx.2
  rcases Nat.lt_trichotomy i j with hij | rfl | hij
  · have := hw.end_le hij ha hb
    omega
  · rfl
  · have := hw.end_le hij hb ha
    omega

theorem findLoop_complete (hw : Ordered capacity areas) {i : Nat} (ha : areas[i]? = some a) (hx : a.contains x)
    (hleft : left ≤ i) (hright : i < right) (hlen : right ≤ areas.length) (hfuel : right - left ≤ fuel) :
    findLoop areas x fuel left right = some a := by
  induction fuel generalizing left right with
  | zero => omega
  | succ fuel ih =>
    unfold findLoop
    rw [if_pos (by omega)]
    dsimp only
    have hmid : left + (right - left) / 2 < areas.length := by omega
    obtain ⟨area, harea⟩ : ∃ area, areas[left + (right - left) / 2]? = some area := ⟨_, List.getElem?_eq_getElem hmid⟩
    rw [harea]
    dsimp only
    have hax := hx.1
    have hax' := hx.2
    have hlow := fun h => hw.end_le (i := i) (j := left + (right - left) / 2) h ha harea
    have hhigh := fun h => hw.end_le (i := left + (right - left) / 2) (j := i) h harea ha
    by_cases hcontains : area.contains x
    · rw [if_pos hcontains]
      have hi := hw.index_unique ha harea hx hcontains
      rw [← hi, ha] at harea
      exact harea.symm
    · rw [if_neg hcontains]
      have hne : i ≠ left + (right - left) / 2 := by
        rintro rfl
        rw [ha] at harea
        exact hcontains (Option.some.inj harea ▸ hx)
      by_cases hbelow : x < area.range.start
      · rw [if_pos hbelow]
        refine ih hleft ?_ (by omega) (by omega)
        by_contra hi
        have := hhigh (by omega)
        have := area.range.start_le_end
        omega
      · rw [if_neg hbelow]
        refine ih ?_ hright hlen (by omega)
        by_contra hi
        have := hlow (by omega)
        omega

/-- The binary search finds the area that holds an address, if there is one. -/
theorem find_eq_some {s : VmAreaSet} (hw : Ordered capacity s.areas) : s.find x = some a ↔ a ∈ s.areas ∧ a.contains x := by
  refine ⟨findLoop_sound, fun ⟨hmem, hx⟩ => ?_⟩
  obtain ⟨i, hi⟩ := List.mem_iff_getElem?.1 hmem
  have hlt := (List.getElem?_eq_some_iff.1 hi).1
  exact findLoop_complete hw hi hx (Nat.zero_le i) hlt (Nat.le_refl _) (Nat.le_refl _)

theorem attrAt_eq_find {s : VmAreaSet} (hw : Ordered capacity s.areas) (x : Nat) :
    attrAt s.areas x = (s.find x).map fun a => (a.flags, a.kind) := by
  cases hfind : s.find x with
  | none =>
    refine attrAt_eq_none.2 fun a ha hx => ?_
    rw [(find_eq_some hw).2 ⟨ha, hx⟩] at hfind
    cases hfind
  | some a =>
    obtain ⟨hmem, hx⟩ := (find_eq_some hw).1 hfind
    unfold attrAt
    cases hfirst : s.areas.find? fun a => a.contains x with
    | none =>
      rw [List.find?_eq_none] at hfirst
      exact absurd (decide_eq_true hx) (hfirst a hmem)
    | some b =>
      have hb := (find_eq_some hw).2 ⟨List.mem_of_find?_eq_some hfirst, by simpa using List.find?_some hfirst⟩
      rw [hfind] at hb
      rw [Option.some.inj hb]

/-- Areas are made of whole pages. -/
theorem Valid.contains_page (ha : a.Valid) : a.contains (x - x % 4096) ↔ a.contains x := by
  have := ha.start_aligned
  have := ha.end_aligned
  unfold VmArea.contains VirtRange.contains
  omega

/-! ### The search for room -/

theorem findFreeLoop_eq_ok {search gap : VirtRange} {size alignment candidate : Nat}
    (h : findFreeLoop search size alignment areas candidate = .ok gap) :
    search.containsRange gap ∧ gap.end_ = gap.start + size := by
  have hsize {start : Nat} {r : VirtRange} (hr : VirtRange.fromStartSize start size = some r) :
    r.end_ = r.start + size := by
    obtain ⟨end_, hend, hnew⟩ := Option.bind_eq_some_iff.1 hr
    obtain ⟨hs, he⟩ := VirtRange.new_eq_some.1 hnew
    rw [hs, he, ← (checkedAdd_eq_some.1 hend).2]
  induction areas generalizing candidate with
  | nil =>
    unfold findFreeLoop at h
    split at h
    · cases h
    · rename_i r hr
      split_ifs at h with hin
      cases h
      exact ⟨hin, hsize hr⟩
  | cons area rest ih =>
    unfold findFreeLoop at h
    split_ifs at h with hbehind
    · exact ih h
    · split at h
      · cases h
      · rename_i r hr
        split_ifs at h with hin
        · cases h
          exact ⟨hin.1, hsize hr⟩
        · split at h
          · cases h
          · exact ih h

theorem findFreeRange_eq_ok {s : VmAreaSet} {search gap : VirtRange} {size alignment : Nat}
    (h : s.findFreeRange search size alignment = .ok gap) :
    ∃ rounded, alignUp size pageSize = some rounded ∧ search.containsRange gap ∧ gap.end_ = gap.start + rounded := by
  unfold findFreeRange at h
  split_ifs at h
  split at h
  · cases h
  · rename_i rounded hrounded
    split at h
    · cases h
    · exact ⟨rounded, hrounded, findFreeLoop_eq_ok h⟩

end VmAreaSet

/-! ### The layout -/

def ProgramBreak.Covers (b : ProgramBreak) (x : Nat) : Prop :=
  b.start - b.start % 4096 ≤ x ∧ x < b.current + 4095 - (b.current + 4095) % 4096

instance (b : ProgramBreak) (x : Nat) : Decidable (b.Covers x) := inferInstanceAs (Decidable (_ ∧ _))

namespace AddressSpace

open VmAreaSet

def attr (s : AddressSpace) (x : Nat) : Option (VmAreaFlags × VmAreaKind) := attrAt s.areas.areas x

/-- All areas lie in the half of the user, the break is in its bounds, and the heap does not go beyond it. -/
structure Sound (capacity : Nat) (s : AddressSpace) : Prop where
  ordered : Ordered capacity s.areas.areas
  user : s.userRange = SudoOS.userRange
  below : ∀ x, s.attr x ≠ none → x < userEnd
  brk : ∀ b, s.programBreak = some b → b.start ≤ b.current ∧ b.current ≤ b.limit ∧ b.limit ≤ userEnd
  heap : ∀ x flags, s.attr x = some (flags, .heap) → ∃ b, s.programBreak = some b ∧ b.Covers x

variable {capacity x : Nat} {s t : AddressSpace} {range : VirtRange} {area : VmArea} {reserve : Bool}

theorem Sound.new (capacity : Nat) : Sound capacity (.new SudoOS.userRange) :=
  ⟨.nil capacity, rfl, fun _ h => absurd rfl h, fun _ h => (nomatch h), fun _ _ h => (nomatch h)⟩

theorem Sound.findArea_eq_some (h : Sound capacity s) : s.findArea x = some area ↔ area ∈ s.areas.areas ∧ area.contains x :=
  find_eq_some h.ordered

theorem Sound.attr_eq (h : Sound capacity s) (x : Nat) : s.attr x = (s.findArea x).map fun a => (a.flags, a.kind) :=
  attrAt_eq_find h.ordered x

theorem Sound.attr_of_findArea (h : Sound capacity s) (hfind : s.findArea x = some area) :
    s.attr x = some (area.flags, area.kind) := by
  rw [h.attr_eq, hfind]
  rfl

theorem Sound.attr_page (h : Sound capacity s) (x : Nat) : s.attr (x - x % 4096) = s.attr x := by
  have hfind : s.findArea (x - x % 4096) = s.findArea x := by
    refine Option.ext fun a => ?_
    rw [h.findArea_eq_some, h.findArea_eq_some]
    exact and_congr_right fun ha => Valid.contains_page (h.ordered.valid a ha)
  rw [h.attr_eq, h.attr_eq, hfind]

/-- New areas under which no address gets attributes of the heap, or gets mapped outside the half of the user. -/
theorem Sound.setAreas (h : Sound capacity s) {areas : VmAreaSet} (ordered : Ordered capacity areas.areas)
    (below : ∀ x, attrAt areas.areas x ≠ none → s.attr x ≠ none ∨ x < userEnd)
    (heap : ∀ x flags, attrAt areas.areas x = some (flags, .heap) →
      (∃ flags, s.attr x = some (flags, .heap)) ∨ ∃ b, s.programBreak = some b ∧ b.Covers x) :
    Sound capacity { s with areas } where
  ordered := ordered
  user := h.user
  below x hx := (below x hx).elim (h.below x) id
  brk := h.brk
  heap x flags hx := (heap x flags hx).elim (fun ⟨flags, hold⟩ => h.heap x flags hold) id

/-! ### The calls -/

theorem mapArea_spec (h : Sound capacity s)
    (hheap : area.kind = .heap → ∀ x, area.contains x → ∃ b, s.programBreak = some b ∧ b.Covers x) :
    wp (mapArea capacity reserve area) s
      (fun _ t => area.Valid ∧ area.range.end_ ≤ userEnd ∧ (∀ x, area.contains x → s.attr x = none) ∧ Sound capacity t ∧
        t.programBreak = s.programBreak ∧
        ∀ x, t.attr x = if area.contains x then some (area.flags, area.kind) else s.attr x)
      (fun _ t => t = s) := by
  simp only [mapArea, wp_bind, wp_get, wp_ite, wp_throw, onAreas, wp_zoom]
  refine ⟨fun _ => trivial, fun hin => (insert_spec h.ordered).mono ?_ ?_⟩
  · rintro _ areas ⟨hvalid, hfree, hordered, hattr⟩
    rw [not_not, h.user] at hin
    have hend : area.range.end_ ≤ userEnd := hin.2
    refine ⟨hvalid, hend, hfree, h.setAreas hordered ?_ ?_, trivial, hattr⟩
    · intro x hx
      rw [hattr] at hx
      by_cases hc : area.contains x
      · exact .inr (Nat.lt_of_lt_of_le hc.2 hend)
      · rw [if_neg hc] at hx
        exact .inl hx
    · intro x flags hx
      rw [hattr] at hx
      by_cases hc : area.contains x
      · rw [if_pos hc] at hx
        exact .inr (hheap (Prod.mk.inj (Option.some.inj hx)).2 x hc)
      · rw [if_neg hc] at hx
        exact .inl ⟨flags, hx⟩
  · rintro e areas rfl
    rfl

/-- A call that takes areas away, or changes flags only. -/
theorem Sound.kept (h : Sound capacity s) {areas : VmAreaSet} (ordered : Ordered capacity areas.areas)
    (kept : ∀ x flags kind, attrAt areas.areas x = some (flags, kind) → ∃ flags, s.attr x = some (flags, kind)) :
    Sound capacity { s with areas } := by
  refine h.setAreas ordered (fun x hx => .inl ?_) fun x flags hx => .inl (kept x flags .heap hx)
  obtain ⟨⟨flags, kind⟩, hx⟩ := Option.ne_none_iff_exists'.1 hx
  obtain ⟨flags, hs⟩ := kept x flags kind hx
  rw [hs]
  exact Option.some_ne_none _

theorem unmapRange_spec (h : Sound capacity s) : wp (unmapRange capacity reserve range) s
    (fun _ t => Sound capacity t ∧ t.programBreak = s.programBreak ∧
      ∀ x, t.attr x = if range.contains x then none else s.attr x)
    (fun _ t => t = s) := by
  simp only [unmapRange, wp_bind, wp_get, wp_ite, wp_throw, onAreas, wp_zoom]
  refine ⟨fun _ => trivial, fun hin => (removeRange_spec h.ordered).mono ?_ ?_⟩
  · rintro _ areas ⟨hcanonical, hattr⟩
    refine ⟨h.kept hcanonical.ordered fun x flags kind hx => ?_, trivial, hattr⟩
    rw [hattr] at hx
    split_ifs at hx
    exact ⟨flags, hx⟩
  · rintro e areas rfl
    rfl

theorem unmapExact_spec (h : Sound capacity s) : wp (unmapExact range) s
    (fun area t => area ∈ s.areas.areas ∧ area.range = range ∧ t.areas.areas.length + 1 = s.areas.areas.length ∧
      Sound capacity t ∧ t.programBreak = s.programBreak ∧ ∀ x, t.attr x = if range.contains x then none else s.attr x)
    (fun _ t => t = s) := by
  simp only [unmapExact, onAreas, wp_zoom]
  refine (removeExact_spec h.ordered).mono ?_ ?_
  · rintro area areas ⟨hmem, hrange, hlength, hordered, hattr⟩
    refine ⟨hmem, hrange, hlength, h.kept hordered fun x flags kind hx => ?_, trivial, hattr⟩
    rw [hattr] at hx
    split_ifs at hx
    exact ⟨flags, hx⟩
  · rintro e areas rfl
    rfl

theorem protectRange_spec {access : VmAreaFlags} (h : Sound capacity s) : wp (protectRange capacity reserve range access) s
    (fun _ t => Sound capacity t ∧ t.programBreak = s.programBreak ∧
      ∀ x, t.attr x = (s.attr x).map fun v => (if range.contains x then v.1.withAccess access else v.1, v.2))
    (fun _ t => t = s) := by
  simp only [protectRange, wp_bind, wp_get, wp_ite, wp_throw, onAreas, wp_zoom]
  refine ⟨fun _ => trivial, fun hin => (VmAreaSet.protectRange_spec h.ordered).mono ?_ ?_⟩
  · rintro _ areas ⟨hcanonical, hattr⟩
    refine ⟨h.kept hcanonical.ordered fun x flags kind hx => ?_, trivial, hattr⟩
    rw [hattr] at hx
    obtain ⟨⟨old, kind'⟩, hold, heq⟩ := Option.map_eq_some_iff.1 hx
    cases heq
    exact ⟨old, hold⟩
  · rintro e areas rfl
    rfl

def Protects (capacity : Nat) (reserve : Bool) (range : VirtRange) (access : VmAreaFlags) (s : AddressSpace) : Prop :=
  s.userRange.containsRange range ∧ validateOperationRange range = .ok () ∧ access = access.accessOnly ∧
    coverLoop range s.areas.areas range.start 0 ≠ none ∧ reserve = true ∧
    ∃ rebuilt, protectRangeLoop capacity range access s.areas.areas [] = .ok rebuilt

theorem protectRange_protects {access : VmAreaFlags} : wp (protectRange capacity reserve range access) s
    (fun _ _ => Protects capacity reserve range access s) (fun _ _ => ¬Protects capacity reserve range access s) := by
  simp only [protectRange, VmAreaSet.protectRange, onAreas, wp_bind, wp_get, wp_ite, wp_throw, wp_zoom, wp_ofExcept,
    wp_okOr, wp_set,
    wp_pure]
  refine ⟨fun hout h => hout h.1, fun hin => ⟨fun _ hvalid => ⟨fun hne h => hne h.2.2.1, fun haccess => ?_⟩,
    fun e he h => ?_⟩⟩
  · refine ⟨fun affected hcover => ⟨fun hr h => ?_, fun hr => ⟨fun rebuilt hrebuilt => ?_, fun e he h => ?_⟩⟩,
      fun hnone h => h.2.2.2.1 hnone⟩
    · rw [h.2.2.2.2.1] at hr
      cases hr
    · refine ⟨not_not.1 hin, hvalid, not_not.1 haccess, ?_, by simpa using hr, rebuilt, hrebuilt⟩
      rw [hcover]
      exact Option.some_ne_none _
    · obtain ⟨rebuilt, hrebuilt⟩ := h.2.2.2.2.2
      cases he.symm.trans hrebuilt
  · cases he.symm.trans h.2.1

def Maps (capacity : Nat) (reserve : Bool) (area : VmArea) (s : AddressSpace) : Prop :=
  s.userRange.containsRange area.range ∧ Inserts capacity reserve area s.areas

theorem mapArea_maps : wp (mapArea capacity reserve area) s
    (fun _ _ => Maps capacity reserve area s) (fun _ _ => ¬Maps capacity reserve area s) := by
  simp only [mapArea, wp_bind, wp_get, wp_ite, wp_throw, onAreas, wp_zoom]
  refine ⟨fun hout h => hout h.1, fun hin => insert_inserts.mono (fun _ _ h => ⟨not_not.1 hin, h⟩) fun _ _ hn h => hn h.2⟩

theorem mapAnonymous_spec {search : VirtRange} {size : Nat} {flags : VmAreaFlags} (h : Sound capacity s) :
    wp (mapAnonymous capacity reserve search size pageSize flags) s
      (fun area t => area.flags = flags ∧ area.kind = .anonymous ∧ area.Valid ∧ search.containsRange area.range ∧
        alignUp size pageSize = some area.range.size ∧ area.range.end_ ≤ userEnd ∧
        (∀ x, area.contains x → s.attr x = none) ∧ Sound capacity t ∧ t.programBreak = s.programBreak ∧
        ∀ x, t.attr x = if area.contains x then some (area.flags, area.kind) else s.attr x)
      (fun _ t => t = s) := by
  simp only [mapAnonymous, wp_bind, wp_get, wp_ite, wp_throw]
  refine ⟨fun _ => trivial, fun _ => ?_⟩
  cases hfree : s.areas.findFreeRange search size pageSize with
  | error e => exact wp_throw.2 rfl
  | ok range =>
    obtain ⟨rounded, hrounded, hin, hend⟩ := findFreeRange_eq_ok hfree
    simp only [wp_bind, wp_pure]
    refine (mapArea_spec h fun hkind => by cases hkind).mono ?_ fun _ _ ht => ht
    rintro _ t ⟨hvalid, hbelow, hnone, hsound, hbrk, hattr⟩
    refine ⟨trivial, trivial, hvalid, hin, ?_, hbelow, hnone, hsound, hbrk, hattr⟩
    rw [hrounded, VirtRange.size, hend, Nat.add_sub_cancel_left]

theorem configureProgramBreak_spec {start limit : Nat} (h : Sound capacity s)
    (hnoheap : ∀ x flags, s.attr x ≠ some (flags, .heap)) : wp (configureProgramBreak start limit) s
      (fun _ t => Sound capacity t ∧ t.areas = s.areas ∧ t.programBreak = some ⟨start, start, limit⟩)
      (fun _ t => t = s) := by
  simp only [configureProgramBreak, wp_bind, wp_get, wp_ite, wp_throw, wp_okOr, wp_set]
  refine ⟨fun _ => trivial, fun hstart => ⟨fun _ => trivial, fun hlimit => ⟨fun b hb => ?_, fun _ => trivial⟩⟩⟩
  unfold ProgramBreak.new at hb
  split_ifs at hb with hbounds
  obtain rfl := (Option.some.inj hb).symm
  refine ⟨⟨h.ordered, h.user, h.below, fun b hb => ?_, fun x flags hx => absurd hx (hnoheap x flags)⟩, trivial, rfl⟩
  obtain rfl := Option.some.inj hb
  refine ⟨Nat.le_refl _, hbounds.2, ?_⟩
  rw [not_or, not_not, h.user] at hlimit
  have hlast : (checkedSub limit 1).getD limit < userEnd := hlimit.2.2
  show limit ≤ userEnd
  unfold checkedSub at hlast
  split_ifs at hlast with hpos
  · rw [Option.getD_some] at hlast
    omega
  · exact Nat.le_of_lt hlast

/-! ### The program break -/

theorem setProgramBreak_spec {newBreak : Nat} : wp (setProgramBreak newBreak) s
    (fun current t => current = newBreak ∧ ∃ b, s.programBreak = some b ∧ b.start ≤ newBreak ∧ newBreak ≤ b.limit ∧
      t = { s with programBreak := some { b with current := newBreak } })
    (fun _ t => t = s) := by
  simp only [setProgramBreak, wp_bind, wp_get, wp_okOr, wp_ite, wp_throw, wp_set, wp_pure]
  refine ⟨fun b hb => ⟨fun _ => trivial, fun hbounds => ⟨trivial, b, hb, by omega, by omega, rfl⟩⟩, fun _ => trivial⟩

/-- The new heap area is mapped where the break puts it; without one, the break covers nothing. -/
theorem heapArea_spec {b : ProgramBreak} :
    wp (heapArea (b.start - b.start % 4096) (b.current + 4095 - (b.current + 4095) % 4096)) s
      (fun area t => t = s ∧ match area with
        | some area => area.flags = .userRw ∧ area.kind = .heap ∧ ∀ x, area.contains x ↔ b.Covers x
        | none => ∀ x, ¬ b.Covers x)
      (fun _ _ => False) := by
  simp only [heapArea, wp_ite, wp_bind, wp_okOr, wp_pure, VirtRange.new_eq_some, VirtRange.new_eq_none]
  refine ⟨fun hlt => ⟨?_, fun hgt => absurd hgt (by omega)⟩, fun hle => ⟨trivial, fun x hx => ?_⟩⟩
  · rintro range ⟨hstart, hend⟩
    refine ⟨trivial, trivial, trivial, fun x => ?_⟩
    unfold VmArea.contains VirtRange.contains ProgramBreak.Covers
    rw [hstart, hend]
  · have := hx.1
    have := hx.2
    omega

structure HeapMoved (capacity newBreak : Nat) (s t : AddressSpace) : Prop where
  sound : Sound capacity t
  brk : ∃ b, s.programBreak = some b ∧ b.start ≤ newBreak ∧ newBreak ≤ b.limit ∧
    t.programBreak = some { b with current := newBreak }
  free : ∀ b, t.programBreak = some b → ∀ x, b.Covers x → ∀ flags kind, s.attr x = some (flags, kind) → kind = .heap
  attr : ∀ b, t.programBreak = some b → ∀ x,
    t.attr x = if b.Covers x then some (.userRw, .heap) else (s.attr x).filter fun v => v.2 ≠ .heap

theorem syncHeap_spec {reserveRemove reserveInsert : Bool} {newBreak : Nat} (h : Sound capacity s) :
    wp (syncHeap capacity reserveRemove reserveInsert newBreak) s
      (fun current t => current = newBreak ∧ HeapMoved capacity newBreak s t)
      (fun _ t => t.userRange = s.userRange) := by
  simp only [syncHeap, wp_bind]
  refine setProgramBreak_spec.mono ?_ fun _ _ ht => congrArg AddressSpace.userRange ht
  rintro current s₁ ⟨rfl, b, hb, hstart, hlimit, rfl⟩
  have hbounds := h.brk b hb
  simp only [onAreas, wp_zoom]
  refine (removeKind_spec h.ordered).mono ?_ fun _ _ _ => trivial
  rintro _ areas ⟨hcanonical, hattr⟩
  have hordered := hcanonical.ordered
  have hup : alignUp current pageSize = some (current + 4095 - (current + 4095) % 4096) := by
    rw [alignUp_pageSize, if_pos]
    unfold userEnd at hbounds
    unfold usizeLimit
    omega
  simp only [wp_get, wp_okOr, Option.some.injEq, forall_eq', alignDown_pageSize, hup, reduceCtorEq, false_implies, and_true]
  -- The layout between the removal of the old heap and the insertion of the new one.
  have hsound : Sound capacity { s with programBreak := some { b with current := current }, areas := areas } := by
    refine ⟨hordered, h.user, fun x hx => h.below x fun hn => hx ?_, ?_, fun x flags hx => ?_⟩
    · rw [AddressSpace.attr, hattr, show attrAt s.areas.areas x = none from hn]
      rfl
    · intro _ heq
      obtain rfl := Option.some.inj heq
      exact ⟨hstart, hlimit, hbounds.2.2⟩
    · rw [AddressSpace.attr, hattr] at hx
      exact absurd (Option.filter_eq_some_iff.1 hx).2 (by simp)
  refine (heapArea_spec (b := { b with current := current })).mono ?_ fun _ _ hf => hf.elim
  rintro (_ | area) _ ⟨rfl, harea⟩
  · refine wp_pure.2 ⟨rfl, hsound, ⟨b, hb, hstart, hlimit, rfl⟩, ?_, ?_⟩
    · intro _ heq x hx
      obtain rfl := Option.some.inj heq
      exact absurd hx (harea x)
    · intro _ heq x
      obtain rfl := Option.some.inj heq
      rw [if_neg (harea x)]
      exact hattr x
  · obtain ⟨hflags, hkind, hcovers⟩ := harea
    rw [wp_bind]
    refine (mapArea_spec hsound fun _ x hx => ⟨_, rfl, (hcovers x).1 hx⟩).mono ?_ fun _ _ ht => by rw [ht]
    rintro _ t ⟨-, -, hfree, hsound', hbrk, hattr'⟩
    refine wp_pure.2 ⟨rfl, hsound', ⟨b, hb, hstart, hlimit, hbrk⟩, fun b' hb' x hx flags kind hold => ?_,
      fun b' hb' x => ?_⟩
    · obtain rfl := Option.some.inj (hbrk.symm.trans hb')
      have hnone := hfree x ((hcovers x).2 hx)
      rw [AddressSpace.attr, hattr, show attrAt s.areas.areas x = some (flags, kind) from hold] at hnone
      by_contra hk
      simp [Option.filter, hk] at hnone
    · obtain rfl := Option.some.inj (hbrk.symm.trans hb')
      rw [hattr', hflags, hkind]
      by_cases hx : area.contains x
      · rw [if_pos hx, if_pos ((hcovers x).1 hx)]
      · rw [if_neg hx, if_neg fun hc => hx ((hcovers x).2 hc)]
        exact hattr x

theorem setProgramBreakAndSyncHeap_spec {reserveRemove reserveInsert : Bool} {newBreak : Nat} (h : Sound capacity s) :
    wp (setProgramBreakAndSyncHeap capacity reserveRemove reserveInsert newBreak) s
      (fun current t => current = newBreak ∧ HeapMoved capacity newBreak s t) (fun _ t => t = s) := by
  simp only [setProgramBreakAndSyncHeap, wp_bind, wp_get, wp_onError]
  refine (syncHeap_spec h).mono (fun _ _ ht => ht) fun _ t ht => ?_
  obtain ⟨user, areas, brk⟩ := t
  obtain rfl : user = s.userRange := ht
  rfl

end AddressSpace

end SudoOS
