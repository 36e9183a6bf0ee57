import SudoOS.Mm.Vma

/-!
The representation invariant of the area set. Every rebuilding operation is a run of `appendArea` over the pieces that
survive.
-/

namespace SudoOS

open Program

/-- What `validate_area` accepts. -/
structure VmArea.Valid (a : VmArea) : Prop where
  nonempty : a.range.start < a.range.end_
  start_aligned : a.range.start % 4096 = 0
  end_aligned : a.range.end_ % 4096 = 0
  write_read : a.flags.write = true → a.flags.read = true
  not_shared_private : ¬(a.flags.shared = true ∧ a.flags.private_ = true)
  cow_private : a.flags.copyOnWrite = true → a.flags.private_ = true

theorem validateArea_eq_ok {a : VmArea} : validateArea a = .ok () ↔ a.Valid := by
  have hle := a.range.start_le_end
  unfold validateArea
  simp only [VirtRange.isEmpty, VirtRange.isPageAligned_iff]
  constructor
  · intro h
    split_ifs at h with h₁ h₂ h₃ h₄ h₅
    constructor <;> first | omega | simp_all
  · rintro ⟨h₁, h₂, h₃, h₄, h₅, h₆⟩
    rw [if_neg (by omega), if_neg (by simp [h₂, h₃]), if_neg (fun h => h.2 (h₄ h.1)), if_neg h₅,
      if_neg (fun h => h.2 (h₆ h.1))]

theorem validateOperationRange_eq_ok {r : VirtRange} :
    validateOperationRange r = .ok () ↔ r.start < r.end_ ∧ r.start % 4096 = 0 ∧ r.end_ % 4096 = 0 := by
  have hle := r.start_le_end
  unfold validateOperationRange
  simp only [VirtRange.isEmpty, VirtRange.isPageAligned_iff]
  split_ifs <;> simp <;> omega

namespace VmAreaSet

variable {a area b new : VmArea} {areas back front lower out rebuilt upper : List VmArea} {capacity end_ n start x : Nat}
  {flags : VmAreaFlags} {kind : VmAreaKind} {pieces : VmArea → List VmArea} {range : VirtRange} {reserve : Bool}
    {s : VmAreaSet}

/-- `a` ends where `b` begins or before it, and two touching anonymous areas differ in their flags. -/
def Before (a b : VmArea) : Prop :=
  a.range.end_ ≤ b.range.start ∧
    (a.range.end_ = b.range.start → a.kind = .anonymous → b.kind = .anonymous → a.flags ≠ b.flags)

/-- The working form of the invariant, for a list that is still being rebuilt. -/
structure Ordered (capacity : Nat) (areas : List VmArea) : Prop where
  valid : ∀ a ∈ areas, a.Valid
  pairwise : areas.Pairwise Before
  bounded : areas.length ≤ capacity

/-- `a` ends where `b` begins or before it, and if the two touch they differ. -/
def Apart (a b : VmArea) : Prop :=
  a.range.end_ ≤ b.range.start ∧ (a.range.end_ = b.range.start → (a.flags, a.kind) ≠ (b.flags, b.kind))

/-- A list of areas without two that could be one. -/
structure Canonical (capacity : Nat) (areas : List VmArea) : Prop where
  valid : ∀ a ∈ areas, a.Valid
  pairwise : areas.Pairwise Apart
  bounded : areas.length ≤ capacity

theorem Apart.before (h : Apart a b) : Before a b :=
  ⟨h.1, fun ht hk hk' hf => h.2 ht (by rw [hf, hk, hk'])⟩

theorem Canonical.ordered (h : Canonical capacity areas) : Ordered capacity areas where
  valid := h.valid
  pairwise := h.pairwise.imp Apart.before
  bounded := h.bounded

/-- The attributes of the area that holds an address. -/
def attrAt (areas : List VmArea) (x : Nat) : Option (VmAreaFlags × VmAreaKind) :=
  (areas.find? fun a => a.contains x).map fun a => (a.flags, a.kind)

@[simp] theorem attrAt_nil (x : Nat) : attrAt [] x = none := rfl

@[simp] theorem attrAt_cons (a : VmArea) (areas : List VmArea) (x : Nat) :
    attrAt (a :: areas) x = if a.contains x then some (a.flags, a.kind) else attrAt areas x := by
  unfold attrAt
  by_cases h : a.contains x <;> simp [h]

@[simp] theorem attrAt_append (l₁ l₂ : List VmArea) (x : Nat) :
    attrAt (l₁ ++ l₂) x = (attrAt l₁ x).or (attrAt l₂ x) := by
  induction l₁ with
  | nil => simp
  | cons a l₁ ih =>
    by_cases h : a.contains x <;> simp [h, ih]

theorem attrAt_eq_none : attrAt areas x = none ↔ ∀ a ∈ areas, ¬a.contains x := by
  simp [attrAt]

theorem Canonical.nil (capacity : Nat) : Canonical capacity [] where
  valid := by simp
  pairwise := .nil
  bounded := Nat.zero_le _

theorem Ordered.nil (capacity : Nat) : Ordered capacity [] := (Canonical.nil capacity).ordered

/-- What a successful `appendArea` does: it widens the last area or adds a new one behind it. -/
theorem appendArea_eq_ok
    (h : appendArea areas area capacity = .ok out) : area.Valid ∧
      ((∃ front previous merged, areas = front ++ [previous] ∧ VirtRange.start merged = previous.range.start ∧
          merged.end_ = area.range.end_ ∧ joins previous area = true ∧ out = front ++ [⟨merged, area.flags, area.kind⟩]) ∨
        out = areas ++ [area] ∧ areas.length ≠ capacity ∧
          ∀ previous, areas.getLast? = some previous → previous.range.end_ ≤ area.range.start ∧
          joins previous area = false) := by
  obtain ⟨_, hv, h⟩ := bind_eq_ok.1 h
  have hvalid := validateArea_eq_ok.1 hv
  have hne := hvalid.nonempty
  refine ⟨hvalid, ?_⟩
  rcases List.eq_nil_or_concat areas with rfl | ⟨front, previous, rfl⟩
  · simp only [List.getLast?_nil] at h
    split_ifs at h with hcap
    exact .inr ⟨(pure_eq_ok.1 h).symm, hcap, by simp⟩
  · simp only [List.concat_eq_append, List.getLast?_append, List.getLast?_singleton, Option.some_or,
      VirtRange.overlaps] at h ⊢
    split_ifs at h with hov hjoin hcap
    · left
      cases hm : VirtRange.new previous.range.start area.range.end_ with
      | none => simp [hm] at h
      | some merged =>
        obtain ⟨hs, he⟩ := VirtRange.new_eq_some.1 hm
        refine ⟨front, previous, merged, rfl, hs, he, by simpa [joins] using hjoin, ?_⟩
        rw [hm, List.dropLast_concat] at h
        exact (pure_eq_ok.1 h).symm
    · refine .inr ⟨(pure_eq_ok.1 h).symm, hcap, ?_⟩
      intro p hp
      obtain rfl : previous = p := by simpa using hp
      exact ⟨by omega, by simpa [joins] using hjoin⟩

theorem Apart.of_le {c : VmArea} (h : a.range.end_ ≤ b.range.start) (hb : b.Valid) (hc : b.range.end_ ≤ c.range.start) :
    Apart a c := by
  have := hb.nonempty
  exact ⟨by omega, fun he => by omega⟩

theorem Canonical.front_before {last : VmArea} (h : Canonical capacity (front ++ [last])) (ha : a ∈ front) : Apart a last :=
  (List.pairwise_append.1 h.pairwise).2.2 a ha last (List.mem_singleton_self last)

theorem appendArea_canonical (hw : Canonical capacity areas)
    (h : appendArea areas area capacity = .ok out) : Canonical capacity out := by
  obtain ⟨hvalid, ⟨front, previous, merged, rfl, hs, he, hjoin, rfl⟩ | ⟨rfl, hcap, hlast⟩⟩ := appendArea_eq_ok h
  · -- the widened area starts where the last one did and keeps its attributes
    obtain ⟨htouch, hflags, hkind⟩ : previous.range.end_ = area.range.start ∧ previous.flags = area.flags ∧
        previous.kind = area.kind := by simpa [joins] using hjoin
    have hprev : previous.Valid := hw.valid previous (by simp)
    obtain ⟨hfront, -, -⟩ := List.pairwise_append.1 hw.pairwise
    have hne := hprev.nonempty
    have hne' := hvalid.nonempty
    refine ⟨?_, ?_, ?_⟩
    · intro a ha
      rcases List.mem_append.1 ha with ha | ha
      · exact hw.valid a (List.mem_append_left _ ha)
      · obtain rfl := List.mem_singleton.1 ha
        exact ⟨by simp only [hs, he]; omega, by simpa only [hs] using hprev.start_aligned,
          by simpa only [he] using hvalid.end_aligned, hvalid.write_read, hvalid.not_shared_private, hvalid.cow_private⟩
    · refine List.pairwise_append.2 ⟨hfront, List.pairwise_singleton _ _, ?_⟩
      intro a ha b hb
      obtain rfl := List.mem_singleton.1 hb
      have hbefore := hw.front_before ha
      simpa only [Apart, hs, ← hflags, ← hkind] using hbefore
    · simpa using hw.bounded
  · have hlen : areas.length < capacity := by
      have := hw.bounded
      omega
    refine ⟨?_, ?_, by simp only [List.length_append, List.length_singleton]; omega⟩
    · intro a ha
      rcases List.mem_append.1 ha with ha | ha
      · exact hw.valid a ha
      · obtain rfl := List.mem_singleton.1 ha
        exact hvalid
    · refine List.pairwise_append.2 ⟨hw.pairwise, List.pairwise_singleton _ _, ?_⟩
      intro a ha b hb
      obtain rfl := List.mem_singleton.1 hb
      rcases List.eq_nil_or_concat areas with rfl | ⟨front, previous, rfl⟩
      · simp at ha
      · rw [List.concat_eq_append] at hw ha hlast
        obtain ⟨hle, hno⟩ := hlast previous (by simp)
        rcases List.mem_append.1 ha with ha | ha
        · exact Apart.of_le (hw.front_before ha).1 (hw.valid previous (by simp)) hle
        · obtain rfl := List.mem_singleton.1 ha
          refine ⟨hle, fun htouch hsame => ?_⟩
          obtain ⟨hf, hk⟩ := Prod.mk.inj hsame
          simp [joins, htouch, hf, hk] at hno

theorem appendArea_attrAt (hw : Canonical capacity areas)
    (h : appendArea areas area capacity = .ok out) (x : Nat) :
    attrAt out x = if area.contains x then some (area.flags, area.kind) else attrAt areas x := by
  have hout := appendArea_canonical hw h
  obtain ⟨hvalid, ⟨front, previous, merged, rfl, hs, he, hjoin, rfl⟩ | ⟨rfl, -, -⟩⟩ := appendArea_eq_ok h
  · obtain ⟨htouch, hflags, hkind⟩ : previous.range.end_ = area.range.start ∧ previous.flags = area.flags ∧
        previous.kind = area.kind := by simpa [joins] using hjoin
    have hne := (hw.valid previous (by simp)).nonempty
    have hne' := hvalid.nonempty
    simp only [attrAt_append, attrAt_cons, attrAt_nil, VmArea.contains, VirtRange.contains, hs, he, hflags, hkind]
    by_cases hx : area.range.start ≤ x ∧ x < area.range.end_
    · -- nothing in front of the last area holds an address behind its start
      have hfront : attrAt front x = none := by
        refine attrAt_eq_none.2 fun a ha hax => ?_
        have := (hw.front_before ha).1
        have := hax.2
        omega
      rw [if_pos (by omega), if_pos hx, hfront, Option.none_or]
    · rw [if_neg hx]
      congr 1
      by_cases hx' : previous.range.start ≤ x ∧ x < previous.range.end_
      · rw [if_pos (by omega), if_pos hx']
      · rw [if_neg (by omega), if_neg hx']
  · rw [attrAt_append]
    by_cases hx : area.contains x
    · have hrest : attrAt areas x = none := by
        refine attrAt_eq_none.2 fun a ha hax => ?_
        have := (hout.front_before ha).1
        have := hax.2
        have := hx.1
        omega
      simp [hrest, hx]
    · simp [hx]

/-! ### Rebuilding from pieces -/

def appendAll (capacity : Nat) (rebuilt parts : List VmArea) : Except VmAreaError (List VmArea) :=
  parts.foldlM (fun acc a => appendArea acc a capacity) rebuilt

def part (start end_ : Nat) (flags : VmAreaFlags) (kind : VmAreaKind) : List VmArea :=
  if start < end_ then (VirtRange.new start end_).toList.map fun range => ⟨range, flags, kind⟩ else []

def removePieces (range : VirtRange) (a : VmArea) : List VmArea :=
  if a.range.overlaps range then
    part a.range.start range.start a.flags a.kind ++ part range.end_ a.range.end_ a.flags a.kind
  else [a]

def protectPieces (range : VirtRange) (access : VmAreaFlags) (a : VmArea) : List VmArea :=
  if a.range.overlaps range then
    part a.range.start range.start a.flags a.kind ++
      part (max a.range.start range.start) (min a.range.end_ range.end_) (a.flags.withAccess access) a.kind ++
      part range.end_ a.range.end_ a.flags a.kind
  else [a]

def removeKindPieces (kind : VmAreaKind) (a : VmArea) : List VmArea :=
  if a.kind = kind then [] else [a]

theorem appendAll_canonical {parts : List VmArea} (hw : Canonical capacity rebuilt)
    (h : appendAll capacity rebuilt parts = .ok out) : Canonical capacity out := by
  induction parts generalizing rebuilt with
  | nil =>
    obtain rfl := pure_eq_ok.1 h
    exact hw
  | cons a parts ih =>
    obtain ⟨mid, hmid, hrest⟩ := bind_eq_ok.1 h
    exact ih (appendArea_canonical hw hmid) hrest

theorem appendAll_attrAt {parts : List VmArea} (hw : Canonical capacity rebuilt)
    (hparts : parts.Pairwise fun a b => a.range.end_ ≤ b.range.start)
    (h : appendAll capacity rebuilt parts = .ok out) (x : Nat) :
    attrAt out x = (attrAt parts x).or (attrAt rebuilt x) := by
  induction parts generalizing rebuilt with
  | nil =>
    obtain rfl := pure_eq_ok.1 h
    simp
  | cons a parts ih =>
    obtain ⟨mid, hmid, hrest⟩ := bind_eq_ok.1 h
    obtain ⟨ha, hparts⟩ := List.pairwise_cons.1 hparts
    rw [ih (appendArea_canonical hw hmid) hparts hrest, appendArea_attrAt hw hmid, attrAt_cons]
    by_cases hx : a.contains x
    · -- later pieces start behind this one
      have hlater : attrAt parts x = none := by
        refine attrAt_eq_none.2 fun b hb hbx => ?_
        have := ha b hb
        have := hbx.1
        have := hx.2
        omega
      simp [hx, hlater]
    · simp [hx]

theorem appendAll_append {l₁ l₂ : List VmArea} :
    appendAll capacity rebuilt (l₁ ++ l₂) = (appendAll capacity rebuilt l₁ >>= fun mid => appendAll capacity mid l₂) :=
  List.foldlM_append

theorem appendAll_singleton :
    appendAll capacity rebuilt [a] = appendArea rebuilt a capacity := by
  simp [appendAll]

theorem attrAt_part (start end_ : Nat) (flags : VmAreaFlags) (kind : VmAreaKind) (x : Nat) :
    attrAt (part start end_ flags kind) x = if start ≤ x ∧ x < end_ then some (flags, kind) else none := by
  unfold part
  by_cases h : start < end_
  · cases hr : VirtRange.new start end_ with
    | none =>
      rw [VirtRange.new_eq_none] at hr
      omega
    | some r =>
      obtain ⟨hs, he⟩ := VirtRange.new_eq_some.1 hr
      simp [h, VmArea.contains, VirtRange.contains, hs, he]
  · rw [if_neg h, if_neg (by omega)]
    rfl

theorem mem_part
    (h : a ∈ part start end_ flags kind) : a.range.start = start ∧ a.range.end_ = end_ ∧ start < end_ := by
  unfold part at h
  split_ifs at h with hlt
  · obtain ⟨r, hr, rfl⟩ := List.mem_map.1 h
    obtain ⟨hs, he⟩ := VirtRange.new_eq_some.1 (Option.mem_toList.1 hr)
    exact ⟨hs, he, hlt⟩
  · cases h

theorem appendPart_eq
    (h : start < end_) : appendPart areas start end_ flags kind capacity =
      appendAll capacity areas (part start end_ flags kind) := by
  unfold appendPart
  cases hr : VirtRange.new start end_ with
  | none =>
    rw [VirtRange.new_eq_none] at hr
    omega
  | some r => simp [part, h, hr, appendAll]

theorem appendRest_eq :
    appendRest areas start end_ flags kind capacity = appendAll capacity areas (part start end_ flags kind) := by
  unfold appendRest
  split_ifs with hlt
  · exact appendPart_eq hlt
  · rw [part, if_neg hlt]
    rfl

theorem removeRangeLoop_eq_ok {m : Nat}
    (h : removeRangeLoop capacity range areas rebuilt n = .ok (out, m)) :
    appendAll capacity rebuilt (areas.flatMap (removePieces range)) = .ok out := by
  induction areas generalizing rebuilt n with
  | nil =>
    cases h
    rfl
  | cons a areas ih =>
    rw [List.flatMap_cons, appendAll_append, bind_eq_ok]
    unfold removeRangeLoop at h
    by_cases hov : a.range.overlaps range
    · rw [if_neg (not_not.2 hov)] at h
      obtain ⟨left, hleft, h⟩ := bind_eq_ok.1 h
      obtain ⟨right, hright, h⟩ := bind_eq_ok.1 h
      refine ⟨right, ?_, ih h⟩
      rw [removePieces, if_pos hov, appendAll_append, bind_eq_ok]
      exact ⟨left, appendRest_eq ▸ hleft, appendRest_eq ▸ hright⟩
    · rw [if_pos hov] at h
      obtain ⟨mid, hmid, h⟩ := bind_eq_ok.1 h
      refine ⟨mid, ?_, ih h⟩
      rw [removePieces, if_neg hov, appendAll_singleton]
      exact hmid

theorem protectRangeLoop_eq {access : VmAreaFlags}
    (hr : range.start < range.end_) (hne : ∀ a ∈ areas, a.range.start < a.range.end_) :
    protectRangeLoop capacity range access areas rebuilt = appendAll capacity rebuilt
      (areas.flatMap (protectPieces range access)) := by
  induction areas generalizing rebuilt with
  | nil => rfl
  | cons a areas ih =>
    obtain ⟨ha, hne⟩ := List.forall_mem_cons.1 hne
    unfold protectRangeLoop
    rw [List.flatMap_cons, appendAll_append, protectPieces]
    by_cases hov : a.range.overlaps range
    · have hmid : max a.range.start range.start < min a.range.end_ range.end_ := by
        have := hov.1
        have := hov.2
        omega
      rw [if_neg (not_not.2 hov), if_pos hov, appendAll_append, appendAll_append]
      simp only [appendRest_eq, appendPart_eq hmid, ih hne, bind_assoc]
    · rw [if_pos hov, if_neg hov, appendAll_singleton]
      simp only [ih hne]

theorem removeKindLoop_eq_ok {m : Nat}
    (h : removeKindLoop capacity kind areas rebuilt n = .ok (out, m)) :
    appendAll capacity rebuilt (areas.flatMap (removeKindPieces kind)) = .ok out := by
  induction areas generalizing rebuilt n with
  | nil =>
    cases h
    rfl
  | cons a areas ih =>
    rw [List.flatMap_cons, appendAll_append, bind_eq_ok]
    unfold removeKindLoop at h
    by_cases hk : a.kind = kind
    · rw [if_pos hk] at h
      refine ⟨rebuilt, ?_, ih h⟩
      rw [removeKindPieces, if_pos hk]
      rfl
    · rw [if_neg hk] at h
      obtain ⟨mid, hmid, h⟩ := bind_eq_ok.1 h
      refine ⟨mid, ?_, ih h⟩
      rw [removeKindPieces, if_neg hk, appendAll_singleton]
      exact hmid

structure Inside (pieces : VmArea → List VmArea) : Prop where
  within : ∀ a, ∀ p ∈ pieces a, a.range.start ≤ p.range.start ∧ p.range.end_ ≤ a.range.end_
  ordered : ∀ a, (pieces a).Pairwise fun p q => p.range.end_ ≤ q.range.start

theorem part_pairwise (start end_ : Nat) (flags : VmAreaFlags) (kind : VmAreaKind) :
    (part start end_ flags kind).Pairwise fun p q => p.range.end_ ≤ q.range.start := by
  unfold part
  split_ifs
  · cases VirtRange.new start end_ <;> simp
  · exact .nil

theorem removePieces_inside (range : VirtRange) : Inside (removePieces range) where
  within a p hp := by
    unfold removePieces at hp
    split_ifs at hp with hov
    · have hle := a.range.start_le_end
      have hle' := range.start_le_end
      have hov' : a.range.start < range.end_ ∧ range.start < a.range.end_ := hov
      rcases List.mem_append.1 hp with hp | hp <;> obtain ⟨hs, he, hlt⟩ := mem_part hp <;> omega
    · obtain rfl := List.mem_singleton.1 hp
      exact ⟨Nat.le_refl _, Nat.le_refl _⟩
  ordered a := by
    unfold removePieces
    split_ifs
    · refine List.pairwise_append.2 ⟨part_pairwise .., part_pairwise .., fun p hp q hq => ?_⟩
      have hle := range.start_le_end
      have := mem_part hp
      have := mem_part hq
      omega
    · exact List.pairwise_singleton _ _

theorem protectPieces_inside (range : VirtRange) (access : VmAreaFlags) : Inside (protectPieces range access) where
  within a p hp := by
    unfold protectPieces at hp
    split_ifs at hp with hov
    · have hle := a.range.start_le_end
      have hle' := range.start_le_end
      have hov' : a.range.start < range.end_ ∧ range.start < a.range.end_ := hov
      rcases List.mem_append.1 hp with hp | hp
      · rcases List.mem_append.1 hp with hp | hp <;> obtain ⟨hs, he, hlt⟩ := mem_part hp <;> omega
      · obtain ⟨hs, he, hlt⟩ := mem_part hp
        omega
    · obtain rfl := List.mem_singleton.1 hp
      exact ⟨Nat.le_refl _, Nat.le_refl _⟩
  ordered a := by
    unfold protectPieces
    split_ifs
    · refine List.pairwise_append.2 ⟨List.pairwise_append.2 ⟨part_pairwise .., part_pairwise .., ?_⟩, part_pairwise .., ?_⟩
      · intro p hp q hq
        have := mem_part hp
        have := mem_part hq
        omega
      · intro p hp q hq
        have hq' := mem_part hq
        have hle := range.start_le_end
        rcases List.mem_append.1 hp with hp | hp <;> have hp' := mem_part hp <;> omega
    · exact List.pairwise_singleton _ _

theorem removeKindPieces_inside (kind : VmAreaKind) : Inside (removeKindPieces kind) where
  within a p hp := by
    unfold removeKindPieces at hp
    split_ifs at hp
    · cases hp
    · obtain rfl := List.mem_singleton.1 hp
      exact ⟨Nat.le_refl _, Nat.le_refl _⟩
  ordered a := by
    unfold removeKindPieces
    split_ifs
    · exact .nil
    · exact List.pairwise_singleton _ _

theorem Inside.flatMap_pairwise (hp : Inside pieces)
    (hw : Ordered capacity areas) : (areas.flatMap pieces).Pairwise fun p q => p.range.end_ ≤ q.range.start := by
  refine List.pairwise_flatMap.2 ⟨fun a _ => hp.ordered a, hw.pairwise.imp ?_⟩
  intro a b hab p hpa q hqb
  have := (hp.within a p hpa).2
  have := (hp.within b q hqb).1
  have := hab.1
  omega

theorem Inside.rebuild (hp : Inside pieces)
    (hw : Ordered n areas) (h : appendAll capacity [] (areas.flatMap pieces) = .ok out) :
    Canonical capacity out ∧ ∀ x, attrAt out x = attrAt (areas.flatMap pieces) x := by
  refine ⟨appendAll_canonical (.nil capacity) h, fun x => ?_⟩
  rw [appendAll_attrAt (.nil capacity) (hp.flatMap_pairwise hw) h x]
  simp

theorem attrAt_flatMap
    {g : VmAreaFlags × VmAreaKind → Option (VmAreaFlags × VmAreaKind)} (hw : Ordered capacity areas)
    (hp : Inside pieces) (hin : ∀ a, a.contains x → attrAt (pieces a) x = g (a.flags, a.kind)) :
    attrAt (areas.flatMap pieces) x = (attrAt areas x).bind g := by
  have hpair := hw.pairwise
  clear hw
  induction areas with
  | nil => rfl
  | cons a areas ih =>
    obtain ⟨ha, hpair⟩ := List.pairwise_cons.1 hpair
    rw [List.flatMap_cons, attrAt_append, ih hpair, attrAt_cons]
    by_cases hx : a.contains x
    · have hrest : attrAt areas x = none := by
        refine attrAt_eq_none.2 fun b hb hbx => ?_
        have := (ha b hb).1
        have := hbx.1
        have := hx.2
        omega
      simp [hx, hin a hx, hrest]
    · have hnone : attrAt (pieces a) x = none := by
        refine attrAt_eq_none.2 fun p hpa hpx => hx ⟨?_, ?_⟩
        · exact Nat.le_trans (hp.within a p hpa).1 hpx.1
        · exact Nat.lt_of_lt_of_le hpx.2 (hp.within a p hpa).2
      simp [hx, hnone]

theorem attrAt_cut {mid : List VmArea} {inner : Option (VmAreaFlags × VmAreaKind)} (hx : a.contains x)
    (hmid : attrAt mid x = if range.contains x then inner else none) :
    attrAt (part a.range.start range.start a.flags a.kind ++ mid ++ part range.end_ a.range.end_ a.flags a.kind) x =
      if range.contains x then inner else some (a.flags, a.kind) := by
  obtain ⟨hs, he⟩ : a.range.start ≤ x ∧ x < a.range.end_ := hx
  rw [attrAt_append, attrAt_append, attrAt_part, attrAt_part, hmid]
  by_cases hr : range.contains x
  · have hr' : range.start ≤ x ∧ x < range.end_ := hr
    rw [if_neg (by omega), if_pos hr, if_neg (by omega), if_pos hr, Option.none_or, Option.or_none]
  · have hr' : ¬(range.start ≤ x ∧ x < range.end_) := hr
    rw [if_neg hr, if_neg hr]
    by_cases hlow : x < range.start
    · rw [if_pos ⟨hs, hlow⟩]
      rfl
    · rw [if_neg (by omega), if_pos (by omega)]
      rfl

theorem not_contains_of_not_overlaps (hx : a.contains x) (hov : ¬a.range.overlaps range) : ¬range.contains x :=
  fun hr => hov ⟨Nat.lt_of_le_of_lt hx.1 hr.2, Nat.lt_of_le_of_lt hr.1 hx.2⟩

theorem attrAt_removePieces (range : VirtRange) (hx : a.contains x) :
    attrAt (removePieces range a) x = if range.contains x then none else some (a.flags, a.kind) := by
  unfold removePieces
  by_cases hov : a.range.overlaps range
  · rw [if_pos hov, ← List.append_nil (part a.range.start range.start a.flags a.kind)]
    exact attrAt_cut hx (ite_self _).symm
  · rw [if_neg hov, if_neg (not_contains_of_not_overlaps hx hov), attrAt_cons, if_pos hx]

theorem attrAt_protectPieces (range : VirtRange) (access : VmAreaFlags) (hx : a.contains x) :
    attrAt (protectPieces range access a) x =
      some (if range.contains x then a.flags.withAccess access else a.flags, a.kind) := by
  have hin : a.range.start ≤ x ∧ x < a.range.end_ := hx
  unfold protectPieces
  by_cases hov : a.range.overlaps range
  · rw [if_pos hov, attrAt_cut hx, apply_ite (fun flags => some (flags, a.kind))]
    rw [attrAt_part]
    refine if_congr ?_ rfl rfl
    change _ ↔ range.start ≤ x ∧ x < range.end_
    omega
  · rw [if_neg hov, if_neg (not_contains_of_not_overlaps hx hov), attrAt_cons, if_pos hx]

theorem attrAt_removeKindPieces (kind : VmAreaKind) (hx : a.contains x) :
    attrAt (removeKindPieces kind a) x = if a.kind = kind then none else some (a.flags, a.kind) := by
  unfold removeKindPieces
  split_ifs <;> simp [hx]

theorem attrAt_protected (hw : Ordered capacity areas) (range : VirtRange) (access : VmAreaFlags)
    (x : Nat) : attrAt (areas.flatMap (protectPieces range access)) x =
      (attrAt areas x).map fun v => (if range.contains x then v.1.withAccess access else v.1, v.2) := by
  rw [attrAt_flatMap (g := fun v => some (if range.contains x then v.1.withAccess access else v.1, v.2)) hw
    (protectPieces_inside range access) fun a hx => attrAt_protectPieces range access hx]
  cases attrAt areas x <;> rfl

theorem removeRange_spec
    (hw : Ordered capacity s.areas) : wp (removeRange capacity reserve range) s
      (fun _ t => Canonical capacity t.areas ∧
        ∀ x, attrAt t.areas x = if range.contains x then none else attrAt s.areas x)
      (fun _ t => t = s) := by
  simp only [removeRange, wp_bind, wp_ofExcept, wp_get, wp_ite, wp_throw, wp_set, wp_pure, implies_true, and_true, true_and]
  rintro _ _ _ ⟨out, n⟩ hloop
  obtain ⟨hout, hattr⟩ := (removePieces_inside range).rebuild hw (removeRangeLoop_eq_ok hloop)
  refine ⟨hout, fun x => ?_⟩
  rw [hattr, attrAt_flatMap (g := fun v => if range.contains x then none else some v) hw (removePieces_inside range)
    fun a hx => attrAt_removePieces range hx]
  by_cases hr : range.contains x <;> simp [hr]

theorem protectRange_spec {access : VmAreaFlags}
    (hw : Ordered capacity s.areas) : wp (protectRange capacity reserve range access) s
      (fun _ t => Canonical capacity t.areas ∧ ∀ x, attrAt t.areas x = (attrAt s.areas x).map fun v =>
        (if range.contains x then v.1.withAccess access else v.1, v.2))
      (fun _ t => t = s) := by
  simp only [protectRange, wp_bind, wp_ofExcept, wp_get, wp_ite, wp_throw, wp_okOr, wp_set, wp_pure, implies_true, and_true,
    true_and]
  refine fun _ hvalid _ _ _ _ out hloop => ?_
  rw [protectRangeLoop_eq (validateOperationRange_eq_ok.1 hvalid).1 fun a ha => (hw.valid a ha).nonempty] at hloop
  obtain ⟨hout, hattr⟩ := (protectPieces_inside range access).rebuild hw hloop
  exact ⟨hout, fun x => (hattr x).trans (attrAt_protected hw range access x)⟩

theorem removeKind_spec
    (hw : Ordered capacity s.areas) : wp (removeKind capacity reserve kind) s
      (fun _ t => Canonical capacity t.areas ∧ ∀ x, attrAt t.areas x = (attrAt s.areas x).filter fun v => v.2 ≠ kind)
      (fun _ t => t = s) := by
  simp only [removeKind, wp_bind, wp_ofExcept, wp_get, wp_ite, wp_throw, wp_set, wp_pure, implies_true, and_true, true_and]
  rintro _ ⟨out, n⟩ hloop
  obtain ⟨hout, hattr⟩ := (removeKindPieces_inside kind).rebuild hw (removeKindLoop_eq_ok hloop)
  refine ⟨hout, fun x => ?_⟩
  rw [hattr, attrAt_flatMap (g := fun v => if v.2 = kind then none else some v) hw
    (removeKindPieces_inside kind) fun a hx => attrAt_removeKindPieces kind hx]
  cases attrAt s.areas x with
  | none => rfl
  | some v => by_cases hv : v.2 = kind <;> simp [hv, Option.filter]

/-! ### Insertion -/

theorem Ordered.start_lt (hw : Ordered capacity areas) {i j : Nat}
    (hij : i < j) (ha : areas[i]? = some a) (hb : areas[j]? = some b) : a.range.start < b.range.start := by
  obtain ⟨hi, rfl⟩ := List.getElem?_eq_some_iff.1 ha
  obtain ⟨hj, rfl⟩ := List.getElem?_eq_some_iff.1 hb
  have hbefore := List.pairwise_iff_getElem.1 hw.pairwise i j hi hj hij
  have hne := (hw.valid _ (List.getElem_mem hi)).nonempty
  exact Nat.lt_of_lt_of_le hne hbefore.1

/-- The search keeps every area left of `left` at or below `start` and every area from `right` on above it. -/
theorem insertionIndexLoop_spec (hw : Ordered capacity areas)
    {fuel left right : Nat} (hfuel : right - left ≤ fuel) (hle : left ≤ right) (hright : right ≤ areas.length)
    (hlow : ∀ i < left, ∀ a, areas[i]? = some a → a.range.start ≤ start)
    (hhigh : ∀ i, right ≤ i → ∀ a, areas[i]? = some a → start < a.range.start) :
    insertionIndexLoop areas start fuel left right ≤ areas.length ∧
      (∀ i < insertionIndexLoop areas start fuel left right, ∀ a, areas[i]? = some a → a.range.start ≤ start) ∧
      ∀ i, insertionIndexLoop areas start fuel left right ≤ i → ∀ a, areas[i]? = some a → start < a.range.start := by
  induction fuel generalizing left right with
  | zero =>
    obtain rfl : left = right := by omega
    exact ⟨hright, hlow, hhigh⟩
  | succ fuel ih =>
    unfold insertionIndexLoop
    by_cases hlt : left < right
    · have hmid : left + (right - left) / 2 < areas.length := by omega
      simp only [if_pos hlt, List.getElem?_eq_getElem hmid]
      have hget := List.getElem?_eq_getElem hmid
      split_ifs with hcmp
      · refine ih (by omega) (by omega) (by omega) hlow fun i hi a ha => ?_
        rcases Nat.eq_or_lt_of_le hi with rfl | hi
        · cases hget.symm.trans ha
          exact hcmp
        · exact Nat.lt_trans hcmp (hw.start_lt hi hget ha)
      · refine ih (by omega) (by omega) hright (fun i hi a ha => ?_) hhigh
        rcases Nat.eq_or_lt_of_le (Nat.lt_succ_iff.1 hi) with rfl | hi
        · cases hget.symm.trans ha
          omega
        · have := hw.start_lt hi ha hget
          omega
    · rw [if_neg hlt]
      obtain rfl : left = right := by omega
      exact ⟨hright, hlow, hhigh⟩

theorem insertionIndex_split (hw : Ordered capacity s.areas) (start : Nat) :
    ∃ lower upper, s.areas = lower ++ upper ∧ s.insertionIndex start = lower.length ∧
      (∀ a ∈ lower, a.range.start ≤ start) ∧ ∀ a ∈ upper, start < a.range.start := by
  obtain ⟨hlen, hlow, hhigh⟩ : s.insertionIndex start ≤ s.areas.length ∧
      (∀ i < s.insertionIndex start, ∀ a, s.areas[i]? = some a → a.range.start ≤ start) ∧
      ∀ i, s.insertionIndex start ≤ i → ∀ a, s.areas[i]? = some a → start < a.range.start :=
    insertionIndexLoop_spec hw (Nat.sub_le _ _) (Nat.zero_le _) (Nat.le_refl _) (fun i hi => absurd hi (Nat.not_lt_zero i))
      fun i hi a ha => by simp [List.getElem?_eq_none hi] at ha
  refine ⟨s.areas.take (s.insertionIndex start), s.areas.drop (s.insertionIndex start), (List.take_append_drop _ _).symm,
    (List.length_take_of_le hlen).symm, fun a ha => ?_, fun a ha => ?_⟩
  · obtain ⟨i, hi, rfl⟩ := List.mem_iff_getElem.1 ha
    rw [List.length_take_of_le hlen] at hi
    exact hlow i hi _ (by simp [List.getElem?_eq_getElem (Nat.lt_of_lt_of_le hi hlen)])
  · obtain ⟨i, hi, rfl⟩ := List.mem_iff_getElem.1 ha
    rw [List.length_drop] at hi
    exact hhigh (s.insertionIndex start + i) (Nat.le_add_right _ _) _ (by
      simp [List.getElem?_eq_getElem (show s.insertionIndex start + i < s.areas.length by omega)])

theorem previousOf_append (lower upper : List VmArea) : previousOf (lower ++ upper) lower.length = lower.getLast? := by
  unfold previousOf
  rcases List.eq_nil_or_concat lower with rfl | ⟨front, p, rfl⟩
  · simp
  · simp

theorem nextOf_append (lower upper : List VmArea) : nextOf (lower ++ upper) lower.length = upper.head? := by
  cases upper <;> simp [nextOf]

theorem insertIdx_length_append (lower upper : List VmArea) (a : VmArea) :
    (lower ++ upper).insertIdx lower.length a = lower ++ a :: upper := by
  induction lower with
  | nil => rfl
  | cons b lower ih => simp [ih]

/-- Replaces the areas between `front` and `back` by one that fits between them. -/
theorem Ordered.place {joined : List VmArea}
    (hw : Ordered capacity (front ++ joined ++ back)) (hnew : new.Valid) (hfront : ∀ a ∈ front, Before a new)
    (hback : ∀ b ∈ back, Before new b) (hlen : front.length + 1 + back.length ≤ capacity) :
    Ordered capacity (front ++ new :: back) := by
  obtain ⟨hpair, hpair_back, hcross⟩ := List.pairwise_append.1 hw.pairwise
  refine ⟨?_, ?_, by simp only [List.length_append, List.length_cons]; omega⟩
  · intro a ha
    rcases List.mem_append.1 ha with ha | ha
    · exact hw.valid a (by simp [ha])
    · rcases List.mem_cons.1 ha with rfl | ha
      · exact hnew
      · exact hw.valid a (by simp [ha])
  · refine List.pairwise_append.2 ⟨(List.pairwise_append.1 hpair).1, List.pairwise_cons.2 ⟨hback, hpair_back⟩, ?_⟩
    intro a ha b hb
    rcases List.mem_cons.1 hb with rfl | hb
    · exact hfront a ha
    · exact hcross a (List.mem_append_left _ ha) b hb

theorem attrAt_place {joined : List VmArea} (hflags : new.flags = area.flags)
    (hkind : new.kind = area.kind) (hfront : ∀ a ∈ front, Before a new)
    (hjoined : ∀ j ∈ joined, j.flags = area.flags ∧ j.kind = area.kind)
    (hx : new.contains x ↔ area.contains x ∨ ∃ j ∈ joined, j.contains x) :
    attrAt (front ++ new :: back) x =
      if area.contains x then some (area.flags, area.kind) else attrAt (front ++ joined ++ back) x := by
  simp only [attrAt_append, attrAt_cons, hflags, hkind]
  by_cases hn : new.contains x
  · have hnone : attrAt front x = none := by
      refine attrAt_eq_none.2 fun a ha hax => ?_
      have := (hfront a ha).1
      have := hax.2
      have := hn.1
      omega
    by_cases ha : area.contains x
    · simp [hn, hnone, ha]
    · obtain ⟨j, hj, hjx⟩ : ∃ j ∈ joined, j.contains x := (hx.1 hn).resolve_left ha
      have hsome : attrAt joined x = some (area.flags, area.kind) := by
        cases hat : attrAt joined x with
        | none => exact absurd hjx (attrAt_eq_none.1 hat j hj)
        | some v =>
          obtain ⟨k, hk, rfl⟩ := Option.map_eq_some_iff.1 hat
          obtain ⟨h₁, h₂⟩ := hjoined k (List.mem_of_find?_eq_some hk)
          rw [h₁, h₂]
      simp [hn, hnone, ha, hsome]
  · have ha : ¬area.contains x := fun h => hn (hx.2 (.inl h))
    have hjoined : attrAt joined x = none := attrAt_eq_none.2 fun j hj hjx => hn (hx.2 (.inr ⟨j, hj, hjx⟩))
    simp [hn, ha, hjoined]

/-- Below the insertion point: the area to join, if any, and the areas in front of it. -/
theorem lower_side (hw : Ordered capacity (lower ++ upper))
    (hle : ∀ a ∈ lower, a.range.end_ ≤ area.range.start) {merge : Option VmArea}
    (hm : merge = if area.kind = .anonymous then lower.getLast?.filter fun p => joins p area else none) :
    ∃ front, lower = front ++ merge.toList ∧ (∀ j ∈ merge, joins j area = true) ∧
      ∀ a ∈ front, ∀ new : VmArea, new.range.start = (merge.map fun j => j.range.start).getD area.range.start →
        new.flags = area.flags → new.kind = area.kind → Before a new := by
  rcases List.eq_nil_or_concat lower with rfl | ⟨front, p, rfl⟩
  · obtain rfl : merge = none := by simpa using hm
    exact ⟨[], by simp⟩
  · rw [List.concat_eq_append] at hw hle hm ⊢
    obtain ⟨hpair, -, -⟩ := List.pairwise_append.1 hw.pairwise
    have hfront := (List.pairwise_append.1 hpair).2.2
    have hp : p.Valid := hw.valid p (by simp)
    by_cases hj : area.kind = .anonymous ∧ joins p area = true
    · obtain rfl : merge = some p := by simpa [hj.1, hj.2, Option.filter] using hm
      obtain ⟨-, hflags, hkind⟩ : p.range.end_ = area.range.start ∧ p.flags = area.flags ∧ p.kind = area.kind := by
        simpa [joins] using hj.2
      refine ⟨front, rfl, by simpa using hj.2, fun a ha new hs hf hk => ?_⟩
      have hbefore := hfront a ha p (by simp)
      have hs' : new.range.start = p.range.start := hs
      simpa only [Before, hs', hf, hk, ← hflags, ← hkind] using hbefore
    · obtain rfl : merge = none := by
        rw [hm]
        split_ifs with hk
        · have : joins p area = false := by simpa [hk] using hj
          simp [this]
        · rfl
      refine ⟨front ++ [p], by simp, by simp, fun a ha new hs hf hk => ?_⟩
      have hs' : new.range.start = area.range.start := hs
      rcases List.mem_append.1 ha with hfa | hpa
      · exact (Apart.of_le (hfront a hfa p (by simp)).1 hp (hs'.symm ▸ hle p (by simp))).before
      · obtain rfl := List.mem_singleton.1 hpa
        refine ⟨hs'.symm ▸ hle a ha, fun htouch hka hkn hff => hj ⟨hk ▸ hkn, ?_⟩⟩
        simp [joins, ← hs', htouch, hff, hf, ← hk, hka, hkn]

/-- Above the insertion point, the same with the order turned round. -/
theorem upper_side (hw : Ordered capacity (lower ++ upper))
    (hle : ∀ a ∈ upper, area.range.end_ ≤ a.range.start) {merge : Option VmArea}
    (hm : merge = if area.kind = .anonymous then upper.head?.filter fun n => joins area n else none) :
    ∃ back, upper = merge.toList ++ back ∧ (∀ j ∈ merge, joins area j = true) ∧
      ∀ b ∈ back, ∀ new : VmArea, new.range.end_ = (merge.map fun j => j.range.end_).getD area.range.end_ →
        new.flags = area.flags → new.kind = area.kind → Before new b := by
  cases upper with
  | nil =>
    obtain rfl : merge = none := by simpa using hm
    exact ⟨[], by simp⟩
  | cons n back =>
    obtain ⟨-, hpair, -⟩ := List.pairwise_append.1 hw.pairwise
    have hback := (List.pairwise_cons.1 hpair).1
    have hn : n.Valid := hw.valid n (by simp)
    by_cases hj : area.kind = .anonymous ∧ joins area n = true
    · obtain rfl : merge = some n := by simpa [hj.1, hj.2, Option.filter] using hm
      obtain ⟨-, hflags, hkind⟩ : area.range.end_ = n.range.start ∧ area.flags = n.flags ∧ area.kind = n.kind := by
        simpa [joins] using hj.2
      refine ⟨back, rfl, by simpa using hj.2, fun b hb new he hf hk => ?_⟩
      have hbefore := hback b hb
      have he' : new.range.end_ = n.range.end_ := he
      simpa only [Before, he', hf, hk, hflags, hkind] using hbefore
    · obtain rfl : merge = none := by
        rw [hm]
        split_ifs with hk
        · have : joins area n = false := by simpa [hk] using hj
          simp [this]
        · rfl
      refine ⟨n :: back, by simp, by simp, fun b hb new he hf hk => ?_⟩
      have he' : new.range.end_ = area.range.end_ := he
      rcases List.mem_cons.1 hb with rfl | hb'
      · refine ⟨he'.symm ▸ hle b hb, fun htouch hkn hkb hff => hj ⟨hk ▸ hkn, ?_⟩⟩
        simp [joins, ← he', htouch, ← hff, hf, ← hk, hkb, hkn]
      · exact (Apart.of_le (he'.symm ▸ hle n (by simp)) hn (hback b hb').1).before

/-- A neighbour that does not overlap the new area keeps its whole side clear of it. -/
theorem lower_clear (hw : Ordered capacity (lower ++ upper))
    (harea : area.Valid) (hlow : ∀ a ∈ lower, a.range.start ≤ area.range.start)
    (hov : ¬(lower.getLast?.any fun p => p.range.overlaps area.range) = true) :
    ∀ a ∈ lower, a.range.end_ ≤ area.range.start := by
  rcases List.eq_nil_or_concat lower with rfl | ⟨front, p, rfl⟩
  · simp
  · rw [List.concat_eq_append] at *
    have hne := harea.nonempty
    have hp := hlow p (by simp)
    have hover : ¬(p.range.start < area.range.end_ ∧ area.range.start < p.range.end_) :=
      show ¬p.range.overlaps area.range by simpa using hov
    have hend : p.range.end_ ≤ area.range.start := by omega
    intro a ha
    rcases List.mem_append.1 ha with ha | ha
    · obtain ⟨hpair, -, -⟩ := List.pairwise_append.1 hw.pairwise
      have := ((List.pairwise_append.1 hpair).2.2 a ha p (by simp)).1
      omega
    · obtain rfl := List.mem_singleton.1 ha
      exact hend

theorem upper_clear (hw : Ordered capacity (lower ++ upper))
    (hhigh : ∀ a ∈ upper, area.range.start < a.range.start)
    (hov : ¬(upper.head?.any fun n => n.range.overlaps area.range) = true) :
    ∀ a ∈ upper, area.range.end_ ≤ a.range.start := by
  cases upper with
  | nil => simp
  | cons n back =>
    obtain ⟨-, hpair, -⟩ := List.pairwise_append.1 hw.pairwise
    have hn := hhigh n (by simp)
    have hne := (hw.valid n (by simp)).nonempty
    have hover : ¬(n.range.start < area.range.end_ ∧ area.range.start < n.range.end_) :=
      show ¬n.range.overlaps area.range by simpa using hov
    have hend : area.range.end_ ≤ n.range.start := by omega
    intro a ha
    rcases List.mem_cons.1 ha with rfl | ha
    · exact hend
    · have := ((List.pairwise_cons.1 hpair).1 a ha).1
      omega

theorem insert_placed (hw : Ordered capacity (lower ++ upper))
    (harea : area.Valid) (hbelow : ∀ a ∈ lower, a.range.end_ ≤ area.range.start)
    (habove : ∀ a ∈ upper, area.range.end_ ≤ a.range.start) {mp mn : Option VmArea}
    (hlower : lower = front ++ mp.toList) (hupper : upper = mn.toList ++ back)
    (hjp : ∀ j ∈ mp, joins j area = true) (hjn : ∀ j ∈ mn, joins area j = true)
    (hfront : ∀ a ∈ front, Before a new) (hback : ∀ b ∈ back, Before new b)
    (hs : new.range.start = (mp.map fun j => j.range.start).getD area.range.start)
    (he : new.range.end_ = (mn.map fun j => j.range.end_).getD area.range.end_)
    (hflags : new.flags = area.flags) (hkind : new.kind = area.kind)
    (hlen : front.length + 1 + back.length ≤ capacity) :
    Ordered capacity (front ++ new :: back) ∧ ∀ x, attrAt (front ++ new :: back) x =
      if area.contains x then some (area.flags, area.kind) else attrAt (lower ++ upper) x := by
  subst hlower hupper
  have hsplit : front ++ mp.toList ++ (mn.toList ++ back) = front ++ (mp.toList ++ mn.toList) ++ back := by simp
  rw [hsplit] at hw ⊢
  have hne := harea.nonempty
  have hstart : new.range.start ≤ area.range.start ∧ new.range.start % 4096 = 0 := by
    cases mp with
    | none => exact ⟨Nat.le_of_eq hs, hs ▸ harea.start_aligned⟩
    | some p =>
      have hp := hw.valid p (by simp)
      have hs' : new.range.start = p.range.start := hs
      have := hp.nonempty
      have := hbelow p (by simp)
      exact ⟨by omega, hs' ▸ hp.start_aligned⟩
  have hend : area.range.end_ ≤ new.range.end_ ∧ new.range.end_ % 4096 = 0 := by
    cases mn with
    | none => exact ⟨Nat.le_of_eq he.symm, he ▸ harea.end_aligned⟩
    | some n =>
      have hn := hw.valid n (by simp)
      have he' : new.range.end_ = n.range.end_ := he
      have := hn.nonempty
      have := habove n (by simp)
      exact ⟨by omega, he' ▸ hn.end_aligned⟩
  have hnew : new.Valid := ⟨by omega, hstart.2, hend.2, hflags ▸ harea.write_read, hflags ▸ harea.not_shared_private,
    hflags ▸ harea.cow_private⟩
  refine ⟨hw.place hnew hfront hback hlen, fun x => attrAt_place hflags hkind hfront ?_ ?_⟩
  · intro j hj
    rcases List.mem_append.1 hj with hj | hj
    · have := hjp j (Option.mem_toList.1 hj)
      simp only [joins, decide_eq_true_eq] at this
      exact this.2
    · have := hjn j (Option.mem_toList.1 hj)
      simp only [joins, decide_eq_true_eq] at this
      exact ⟨this.2.1.symm, this.2.2.symm⟩
  · simp only [VmArea.contains, VirtRange.contains, hs, he]
    cases mp with
    | none =>
      cases mn with
      | none => simp
      | some n =>
        have hjn' := hjn n rfl
        have := (hw.valid n (by simp)).nonempty
        simp only [joins, decide_eq_true_eq] at hjn'
        simp
        omega
    | some p =>
      have hjp' := hjp p rfl
      have := (hw.valid p (by simp)).nonempty
      simp only [joins, decide_eq_true_eq] at hjp'
      cases mn with
      | none =>
        simp
        omega
      | some n =>
        have hjn' := hjn n rfl
        have := (hw.valid n (by simp)).nonempty
        simp only [joins, decide_eq_true_eq] at hjn'
        simp
        omega

theorem insert_spec (hw : Ordered capacity s.areas) :
    wp (insert capacity reserve area) s
      (fun _ t => area.Valid ∧ (∀ x, area.contains x → attrAt s.areas x = none) ∧ Ordered capacity t.areas ∧
        ∀ x, attrAt t.areas x = if area.contains x then some (area.flags, area.kind) else attrAt s.areas x)
      (fun _ t => t = s) := by
  obtain ⟨lower, upper, hareas, hindex, hlow, hhigh⟩ := insertionIndex_split hw area.range.start
  simp only [insert, wp_bind, wp_ofExcept, wp_get, wp_ite, wp_throw, implies_true, and_true, true_and, hindex]
  intro _ hv hprev hnext
  have harea := validateArea_eq_ok.1 hv
  rw [hareas, previousOf_append] at hprev
  rw [hareas, nextOf_append] at hnext
  rw [hareas] at hw
  have hbelow := lower_clear hw harea hlow hprev
  have habove := upper_clear hw hhigh hnext
  have hclear : ∀ x, area.contains x → attrAt s.areas x = none := by
    intro x hx
    rw [hareas]
    refine attrAt_eq_none.2 fun a ha hax => ?_
    have h₁ := hx.1
    have h₂ := hx.2
    have h₃ := hax.1
    have h₄ := hax.2
    rcases List.mem_append.1 ha with ha | ha
    · have := hbelow a ha
      omega
    · have := habove a ha
      omega
  simp only [hareas, previousOf_append, nextOf_append, decide_eq_true_eq]
  rw [hareas] at hclear
  generalize hmp : (if area.kind = .anonymous then lower.getLast?.filter fun p => joins p area else none) = mp
  generalize hmn : (if area.kind = .anonymous then upper.head?.filter fun n => joins area n else none) = mn
  obtain ⟨front, hlower, hjp, hfront⟩ := lower_side hw hbelow hmp.symm
  obtain ⟨back, hupper, hjn, hback⟩ := upper_side hw habove hmn.symm
  have hlen := hw.bounded
  -- in each case below the new list has one area, `new`, between `front` and `back`
  have hplaced : ∀ (new : VmArea) (out : List VmArea),
      new.range.start = (mp.map fun j => j.range.start).getD area.range.start →
      new.range.end_ = (mn.map fun j => j.range.end_).getD area.range.end_ → new.flags = area.flags → new.kind = area.kind →
      front.length + 1 + back.length ≤ capacity → out = front ++ new :: back →
      area.Valid ∧ (∀ x, area.contains x → attrAt (lower ++ upper) x = none) ∧ Ordered capacity out ∧
        ∀ x, attrAt out x = if area.contains x then some (area.flags, area.kind) else attrAt (lower ++ upper) x := by
    rintro new out hs he hf hk hlen rfl
    exact ⟨harea, hclear, insert_placed hw harea hbelow habove hlower hupper hjp hjn (fun a ha => hfront a ha new hs hf hk)
      (fun b hb => hback b hb new he hf hk) hs he hf hk hlen⟩
  subst hlower hupper
  simp only [List.length_append] at hlen
  cases mp with
  | none =>
    cases mn with
    | none =>
      simp only [wp_ite, wp_throw, wp_set, implies_true, true_and]
      intro hcap _
      simp only [Option.toList_none, List.append_nil, List.nil_append, List.length_append, List.length_nil] at hcap hlen
      exact hplaced area _ rfl rfl rfl rfl (by omega) (by simp [insertIdx_length_append])
    | some n =>
      simp only [wp_bind, wp_okOr, wp_set, implies_true, and_true]
      intro range hr
      obtain ⟨hs, he⟩ := VirtRange.new_eq_some.1 hr
      simp only [Option.toList_none, Option.toList_some, List.length_nil, List.length_singleton] at hlen
      exact hplaced ⟨range, area.flags, area.kind⟩ _ hs he rfl rfl (by omega) (by simp)
  | some p =>
    cases mn with
    | none =>
      simp only [wp_bind, wp_okOr, wp_set, implies_true, and_true]
      intro range hr
      obtain ⟨hs, he⟩ := VirtRange.new_eq_some.1 hr
      simp only [Option.toList_none, Option.toList_some, List.length_nil, List.length_singleton] at hlen
      exact hplaced ⟨range, area.flags, area.kind⟩ _ hs he rfl rfl (by omega) (by simp)
    | some n =>
      simp only [wp_bind, wp_okOr, wp_set, implies_true, and_true]
      intro range hr
      obtain ⟨hs, he⟩ := VirtRange.new_eq_some.1 hr
      simp only [Option.toList_some, List.length_singleton] at hlen
      exact hplaced ⟨range, area.flags, area.kind⟩ _ hs he rfl rfl (by omega)
        (by simp [List.eraseIdx_append_of_length_le])

def Inserts (capacity : Nat) (reserve : Bool) (area : VmArea) (s : VmAreaSet) : Prop :=
  let index := s.insertionIndex area.range.start
  validateArea area = .ok () ∧ ¬((previousOf s.areas index).any fun p => p.range.overlaps area.range) = true ∧
    ¬((nextOf s.areas index).any fun n => n.range.overlaps area.range) = true ∧
    (area.kind = .anonymous ∧ (((previousOf s.areas index).any fun p => joins p area) = true ∨
        ((nextOf s.areas index).any fun n => joins area n) = true) ∨
      s.areas.length ≠ capacity ∧ reserve = true)

theorem joins_bounds (h : joins a b = true) : a.range.start ≤ b.range.end_ := by
  have hjoin : a.range.end_ = b.range.start ∧ a.flags = b.flags ∧ a.kind = b.kind := by simpa [joins] using h
  have := a.range.start_le_end
  have := b.range.start_le_end
  omega

theorem insert_inserts : wp (insert capacity reserve area) s
    (fun _ _ => Inserts capacity reserve area s) (fun _ _ => ¬Inserts capacity reserve area s) := by
  simp only [insert, wp_bind, wp_ofExcept, wp_get, wp_ite, wp_throw]
  refine ⟨fun _ hvalid => ⟨fun hp h => h.2.1 hp, fun hclearp => ⟨fun hn h => h.2.2.1 hn, fun hclearn => ?_⟩⟩,
    fun e he h => ?_⟩
  · generalize hprev : previousOf s.areas (s.insertionIndex area.range.start) = prev at hclearp ⊢
    generalize hnext : nextOf s.areas (s.insertionIndex area.range.start) = next at hclearn ⊢
    have hjoin : area.kind = .anonymous ∧ ((prev.any fun p => joins p area) = true ∨
      (next.any fun n => joins area n) = true) →
        Inserts capacity reserve area s := by
      intro h
      refine ⟨hvalid, ?_, ?_, .inl ?_⟩
      · rwa [hprev]
      · rwa [hnext]
      · rwa [hprev, hnext]
    -- Without a neighbour to join there has to be room.
    have hroom : ¬(area.kind = .anonymous ∧
          ((prev.any fun p => joins p area) = true ∨ (next.any fun n => joins area n) = true)) →
        wp (if s.areas.length = capacity then throw .capacityExceeded
            else if !reserve then throw .metadataOutOfMemory
            else set (VmAreaSet.mk (s.areas.insertIdx (s.insertionIndex area.range.start) area)) :
            EStateM VmAreaError VmAreaSet Unit) s
          (fun _ _ => Inserts capacity reserve area s) (fun _ _ => ¬Inserts capacity reserve area s) := by
      intro hno
      have hiff : Inserts capacity reserve area s → s.areas.length ≠ capacity ∧ reserve = true := by
        rintro ⟨-, -, -, h⟩
        rw [hprev, hnext] at h
        exact h.resolve_left hno
      simp only [wp_ite, wp_throw, wp_set]
      refine ⟨fun hlen h => (hiff h).1 hlen,
        fun hlen => ⟨fun hr h => ?_, fun hr => ⟨hvalid, ?_, ?_, .inr ⟨hlen, by simpa using hr⟩⟩⟩⟩
      · rw [(hiff h).2] at hr
        cases hr
      · rwa [hprev]
      · rwa [hnext]
    by_cases hkind : area.kind = .anonymous
    · simp only [hkind, decide_true, if_true]
      cases hmp : prev.filter fun p => joins p area with
      | some p =>
        obtain ⟨rfl, hp⟩ := Option.filter_eq_some_iff.1 hmp
        have hins := hjoin ⟨hkind, .inl hp⟩
        cases hmn : next.filter fun n => joins area n with
        | some n =>
          obtain ⟨rfl, hn⟩ := Option.filter_eq_some_iff.1 hmn
          have h₁ := joins_bounds hp
          have h₂ := joins_bounds hn
          have h₃ : p.range.start ≤ n.range.end_ := by
            have hj : p.range.end_ = area.range.start ∧ p.flags = area.flags ∧ p.kind = area.kind := by
              simpa [joins] using hp
            have := p.range.start_le_end
            omega
          simp only [wp_bind, wp_okOr, wp_set]
          exact ⟨fun _ _ => hins, fun hnone => absurd (VirtRange.new_eq_none.1 hnone) (Nat.not_lt.2 h₃)⟩
        | none =>
          simp only [wp_bind, wp_okOr, wp_set]
          exact ⟨fun _ _ => hins, fun hnone => absurd (VirtRange.new_eq_none.1 hnone) (Nat.not_lt.2 (joins_bounds hp))⟩
      | none =>
        cases hmn : next.filter fun n => joins area n with
        | some n =>
          obtain ⟨rfl, hn⟩ := Option.filter_eq_some_iff.1 hmn
          simp only [wp_bind, wp_okOr, wp_set]
          exact ⟨fun _ _ => hjoin ⟨hkind, .inr hn⟩,
            fun hnone => absurd (VirtRange.new_eq_none.1 hnone) (Nat.not_lt.2 (joins_bounds hn))⟩
        | none =>
          have hno : ¬((prev.any fun p => joins p area) = true ∨ (next.any fun n => joins area n) = true) := by
            rintro (h | h)
            · obtain ⟨p, rfl, hp⟩ := (Option.any_eq_true _ _).1 h
              simp [Option.filter, hp] at hmp
            · obtain ⟨n, rfl, hn⟩ := (Option.any_eq_true _ _).1 h
              simp [Option.filter, hn] at hmn
          exact hroom fun h => hno h.2
    · simp only [hkind, decide_false, Bool.false_eq_true, if_false]
      exact hroom fun h => hkind h.1
  · cases he.symm.trans h.1

theorem Inserts.of_free (harea : area.Valid)
    (hfree : ∀ a ∈ s.areas, ¬a.range.overlaps area.range) (hlen : s.areas.length ≠ capacity) :
      Inserts capacity true area s := by
  refine ⟨validateArea_eq_ok.2 harea, fun h => ?_, fun h => ?_, .inr ⟨hlen, rfl⟩⟩
  · obtain ⟨p, hp, hover⟩ := (Option.any_eq_true _ _).1 h
    unfold previousOf at hp
    split_ifs at hp
    exact hfree p (List.mem_of_getElem? hp) (by simpa using hover)
  · obtain ⟨n, hn, hover⟩ := (Option.any_eq_true _ _).1 h
    exact hfree n (List.mem_of_getElem? hn) (by simpa using hover)

theorem removeExact_ok (h : ∃ a ∈ s.areas, a.range = range) :
    wp (removeExact range) s (fun _ _ => True) (fun _ _ => False) := by
  simp only [removeExact, wp_bind, wp_get, wp_okOr, wp_set, wp_pure, findExactIndex]
  obtain ⟨a, ha, hrange⟩ := h
  refine ⟨fun index hindex => ⟨fun _ _ => trivial, fun hnone => ?_⟩, fun hnone => ?_⟩
  · obtain ⟨hlt, -⟩ := List.findIdx?_eq_some_iff_findIdx_eq.1 hindex
    rw [List.getElem?_eq_none_iff] at hnone
    omega
  · rw [List.findIdx?_eq_none_iff] at hnone
    have := hnone a ha
    simp [hrange] at this

theorem removeExact_split : wp (removeExact range) s
    (fun area t => area.range = range ∧ ∃ front back, s.areas = front ++ area :: back ∧ t.areas = front ++ back)
      (fun _ t => t = s) := by
  simp only [removeExact, wp_bind, wp_get, wp_okOr, wp_set, wp_pure, implies_true, and_true]
  intro index hindex area harea
  obtain ⟨hlt, rfl⟩ := List.getElem?_eq_some_iff.1 harea
  obtain ⟨_, hrange, -⟩ := List.findIdx?_eq_some_iff_getElem.1 hindex
  refine ⟨of_decide_eq_true hrange, s.areas.take index, s.areas.drop (index + 1), by simp, ?_⟩
  exact List.eraseIdx_eq_take_drop_succ _ _

theorem removeExact_spec (hw : Ordered capacity s.areas) :
    wp (removeExact range) s
      (fun area t => area ∈ s.areas ∧ area.range = range ∧ t.areas.length + 1 = s.areas.length ∧ Ordered capacity t.areas ∧
        ∀ x, attrAt t.areas x = if range.contains x then none else attrAt s.areas x)
      (fun _ t => t = s) := by
  refine removeExact_split.mono ?_ fun _ _ h => h
  rintro area t ⟨hrange, front, back, hsplit, herase⟩
  have hpair := hw.pairwise
  rw [hsplit] at hpair
  obtain ⟨-, hback, hcross⟩ := List.pairwise_append.1 hpair
  refine ⟨by rw [hsplit]; simp, hrange, by rw [herase, hsplit]; simp; omega, ?_, ?_⟩
  · rw [herase]
    have hsub : (front ++ back).Sublist s.areas := by
      rw [hsplit]
      exact (List.append_sublist_append_left front).2 (List.sublist_cons_self area back)
    exact ⟨fun a ha => hw.valid a (hsub.subset ha), hw.pairwise.sublist hsub, Nat.le_trans hsub.length_le hw.bounded⟩
  · intro x
    rw [herase, hsplit, ← hrange]
    simp only [attrAt_append, attrAt_cons]
    by_cases hx : area.range.contains x
    · have hfront : attrAt front x = none := by
        refine attrAt_eq_none.2 fun a ha hax => ?_
        have := (hcross a ha area (by simp)).1
        have := hax.2
        have := hx.1
        omega
      have hbehind : attrAt back x = none := by
        refine attrAt_eq_none.2 fun a ha hax => ?_
        have := ((List.pairwise_cons.1 hback).1 a ha).1
        have := hax.1
        have := hx.2
        omega
      simp [hx, hfront, hbehind]
    · have hx' : ¬area.contains x := hx
      simp [hx, hx']

/-! ### Whole histories -/

theorem Op.exec_spec {op : Op} (hw : Ordered capacity s.areas) :
    wp (op.exec capacity) s (fun _ t => Ordered capacity t.areas) (fun _ t => t = s) := by
  cases op with
  | insert reserve area => exact (insert_spec hw).mono (fun _ _ h => h.2.2.1) fun _ _ h => h
  | removeExact range => exact wp_map.2 ((removeExact_spec hw).mono (fun _ _ h => h.2.2.2.1) fun _ _ h => h)
  | removeRange reserve range => exact wp_map.2 ((removeRange_spec hw).mono (fun _ _ h => h.1.ordered) fun _ _ h => h)
  | protectRange reserve range access =>
    exact wp_map.2 ((protectRange_spec hw).mono (fun _ _ h => h.1.ordered) fun _ _ h => h)
  | removeKind reserve kind => exact wp_map.2 ((removeKind_spec hw).mono (fun _ _ h => h.1.ordered) fun _ _ h => h)

theorem reachable_ordered (h : (system capacity).Reachable s) :
    Ordered capacity s.areas := by
  refine h.invariant (I := fun s => Ordered capacity s.areas) ?_ ?_
  · rintro s rfl
    exact .nil capacity
  · rintro s op t hw (hok | ⟨e, herr⟩)
    · exact (Op.exec_spec hw).ok hok
    · exact (Op.exec_spec hw).error herr ▸ hw

structure WellFormed (capacity : Nat) (s : VmAreaSet) : Prop where
  sorted_disjoint : s.areas.Pairwise fun a b => a.range.end_ ≤ b.range.start
  valid : ∀ a ∈ s.areas, a.Valid
  bounded : s.areas.length ≤ capacity
  canonical : ∀ a ∈ s.areas, ∀ b ∈ s.areas, a.range.end_ = b.range.start → a.kind = .anonymous → b.kind = .anonymous →
    a.flags ≠ b.flags

theorem Ordered.wellFormed (hw : Ordered capacity s.areas) : WellFormed capacity s where
  sorted_disjoint := hw.pairwise.imp And.left
  valid := hw.valid
  bounded := hw.bounded
  canonical a ha b hb htouch hka hkb := by
    -- of two touching areas the lower one stands first
    have ha' := (hw.valid a ha).nonempty
    have hb' := (hw.valid b hb).nonempty
    obtain ⟨i, hi, rfl⟩ := List.mem_iff_getElem.1 ha
    obtain ⟨j, hj, rfl⟩ := List.mem_iff_getElem.1 hb
    rcases Nat.lt_trichotomy i j with hij | rfl | hij
    · exact (List.pairwise_iff_getElem.1 hw.pairwise i j hi hj hij).2 htouch hka hkb
    · omega
    · have := (List.pairwise_iff_getElem.1 hw.pairwise j i hj hi hij).1
      omega

/-- Every history leaves a well-formed, canonical set, and every failing call leaves the set as it was. -/
theorem history_wellFormed (capacity : Nat) (s : VmAreaSet) (h : (system capacity).Reachable s) :
    WellFormed capacity s ∧ ∀ op e t, Op.exec capacity op s = .error e t → t = s :=
  have hw := reachable_ordered h
  ⟨hw.wellFormed, fun _ _ _ herr => (Op.exec_spec hw).error herr⟩

/-- Two anonymous pages mapped one after the other become one area, which a protection change then splits. -/
theorem history_wellFormed_split :
    let s : VmAreaSet := ⟨[⟨.fromBounds 4096 8192, .userRw, .anonymous⟩,
      ⟨.fromBounds 8192 12288, { user := true, private_ := true }, .anonymous⟩]⟩
    WellFormed 2 s ∧ ∀ op e t, Op.exec 2 op s = .error e t → t = s := by
  intro s
  have h₀ : (system 2).Reachable new := .init rfl
  have h₁ : (system 2).Reachable ⟨[⟨.fromBounds 4096 8192, .userRw, .anonymous⟩]⟩ :=
    h₀.step (a := .insert true ⟨.fromBounds 4096 8192, .userRw, .anonymous⟩) (.inl rfl)
  have h₂ : (system 2).Reachable ⟨[⟨.fromBounds 4096 12288, .userRw, .anonymous⟩]⟩ :=
    h₁.step (a := .insert true ⟨.fromBounds 8192 12288, .userRw, .anonymous⟩) (.inl rfl)
  have h₃ : (system 2).Reachable s := h₂.step (a := .protectRange true (.fromBounds 8192 12288) .empty) (.inl rfl)
  exact history_wellFormed 2 s h₃

end VmAreaSet

end SudoOS
