import SudoOS.Theorems.Layout

/-! What a set of areas says about each address, apart from how it is cut into areas. -/

namespace SudoOS

open Program

def VmAreaKind.target : VmAreaKind → (distance : Nat) → Option VmAreaKind
  | .fileBacked object offset, distance => some (.fileBacked object (offset + distance))
  | .device physical, distance => some (.device (physical + distance))
  | .ioRemap physical, distance => some (.ioRemap (physical + distance))
  | _, _ => none

theorem VmAreaKind.target_inj {kind : VmAreaKind} {d e : Nat} (hd : kind.target d ≠ none)
    (h : kind.target d = kind.target e) : d = e := by
  cases kind <;> simp_all [target]

theorem VmAreaKind.target_ne_none {kind : VmAreaKind} {d e : Nat} (hd : kind.target d ≠ none) : kind.target e ≠ none := by
  cases kind <;> simp_all [target]

namespace VmAreaSet

variable {s t : VmAreaSet} {a b : VmArea} {x y capacity n : Nat} {flags : VmAreaFlags} {kind : VmAreaKind}

section canonical

theorem Ordered.attrAt_eq_some (h : Ordered capacity s.areas) :
    attrAt s.areas x = some (flags, kind) ↔ ∃ a ∈ s.areas, a.contains x ∧ a.flags = flags ∧ a.kind = kind := by
  simp only [attrAt_eq_find h, Option.map_eq_some_iff, find_eq_some h, Prod.mk.injEq, and_assoc]

theorem Ordered.attrAt_of_mem (h : Ordered capacity s.areas) (ha : a ∈ s.areas) (hx : a.contains x) :
    attrAt s.areas x = some (a.flags, a.kind) :=
  h.attrAt_eq_some.2 ⟨a, ha, hx, rfl, rfl⟩

/-- No two areas hold one address. -/
theorem Ordered.eq_of_contains (h : Ordered capacity s.areas) (ha : a ∈ s.areas) (hb : b ∈ s.areas) (hax : a.contains x)
    (hbx : b.contains x) : a = b :=
  Option.some.inj (((find_eq_some h).2 ⟨ha, hax⟩).symm.trans ((find_eq_some h).2 ⟨hb, hbx⟩))

theorem Canonical.touching (h : Canonical capacity s.areas) (ha : a ∈ s.areas) (hb : b ∈ s.areas)
    (ht : a.range.end_ = b.range.start) : (a.flags, a.kind) ≠ (b.flags, b.kind) := by
  have hsymm : Std.Symm fun a b => Apart a b ∨ Apart b a := ⟨fun _ _ => Or.symm⟩
  have hpair : s.areas.Pairwise fun a b => Apart a b ∨ Apart b a := h.pairwise.imp Or.inl
  have hane := (h.valid a ha).nonempty
  have hbne := (h.valid b hb).nonempty
  have hne : a ≠ b := by
    rintro rfl
    omega
  obtain hab | hba := hpair.forall ha hb hne
  · exact hab.2 ht
  · have := hba.1
    omega

theorem Canonical.attrAt_below (h : Canonical capacity s.areas) (ha : a ∈ s.areas) (hy : y + 1 = a.range.start) :
    attrAt s.areas y ≠ some (a.flags, a.kind) := by
  intro hattr
  obtain ⟨b, hb, hby, hf, hk⟩ := h.ordered.attrAt_eq_some.1 hattr
  obtain ⟨hlow, hhigh⟩ : b.range.start ≤ y ∧ y < b.range.end_ := hby
  by_cases ht : b.range.end_ = a.range.start
  · exact h.touching hb ha ht (by rw [hf, hk])
  · have hane := (h.valid a ha).nonempty
    obtain rfl := h.ordered.eq_of_contains hb ha (x := a.range.start) ⟨by omega, by omega⟩ ⟨Nat.le_refl _, hane⟩
    omega

end canonical

def targetAt (s : VmAreaSet) (x : Nat) : Option VmAreaKind :=
  (s.find x).bind fun a => a.kind.target (x - a.range.start)

/-- Every address that maps an object afterwards maps the same place of the same object as before. -/
def KeepsTargets (s t : VmAreaSet) : Prop := ∀ x, t.targetAt x ≠ none → t.targetAt x = s.targetAt x

/-- What an edit makes of the flags at an address, nothing where it unmaps. -/
abbrev Edit := VmAreaFlags → Nat → Option VmAreaFlags

/-- Each area that maps an object keeps one set of flags from its start to the last address it keeps, and does not come to
agree with an area of its kind right below. -/
structure KeepsStarts (edit : Edit) (areas : List VmArea) : Prop where
  inside : ∀ a ∈ areas, a.kind.target 0 ≠ none → ∀ x, a.contains x → edit a.flags x ≠ none →
    ∀ y, a.range.start ≤ y → y ≤ x → edit a.flags y = edit a.flags x
  below : ∀ a ∈ areas, a.kind.target 0 ≠ none → edit a.flags a.range.start ≠ none →
    ∀ b ∈ areas, b.range.end_ = a.range.start → b.kind = a.kind → edit b.flags (a.range.start - 1) ≠
      edit a.flags a.range.start

section edit
variable {edit : Edit} (hs : Ordered capacity s.areas) (ht : Canonical n t.areas)
  (hedit : ∀ x, attrAt t.areas x = (attrAt s.areas x).bind fun v => (edit v.1 x).map fun flags => (flags, v.2))

include hs hedit in
theorem attrAt_edit (ha : a ∈ s.areas) (hx : a.contains x) : attrAt t.areas x = (edit a.flags x).map fun flags =>
    (flags, a.kind) := by
  rw [hedit, hs.attrAt_of_mem ha hx]
  rfl

include hs ht hedit in
theorem area_before (hb : b ∈ t.areas) (hx : b.contains x) :
    ∃ a ∈ s.areas, a.contains x ∧ a.kind = b.kind ∧ edit a.flags x = some b.flags := by
  have hattr := ht.ordered.attrAt_of_mem hb hx
  rw [hedit, Option.bind_eq_some_iff] at hattr
  obtain ⟨⟨flags, kind⟩, hbefore, hmap⟩ := hattr
  obtain ⟨a, ha, hax, rfl, rfl⟩ := hs.attrAt_eq_some.1 hbefore
  obtain ⟨flags', hflags, heq⟩ := Option.map_eq_some_iff.1 hmap
  obtain ⟨rfl, hkind⟩ := Prod.mk.inj heq
  exact ⟨a, ha, hax, hkind, hflags⟩

include hs ht hedit in
/-- An object stays where it was as long as the areas on both sides begin at one address. -/
theorem keepsTargets_iff_start : KeepsTargets s t ↔ ∀ a ∈ s.areas, ∀ b ∈ t.areas, ∀ x, a.contains x → b.contains x →
    a.kind.target 0 ≠ none → b.range.start = a.range.start := by
  constructor
  · intro h a ha b hb x hax hbx hobject
    obtain ⟨a', ha', hax', hkind, -⟩ := area_before hs ht hedit hb hbx
    obtain rfl := hs.eq_of_contains ha' ha hax' hax
    have hsame := h x
    rw [targetAt, targetAt, (find_eq_some ht.ordered).2 ⟨hb, hbx⟩, (find_eq_some hs).2 ⟨ha', hax⟩, Option.bind_some,
      Option.bind_some,
      ← hkind] at hsame
    have hne := VmAreaKind.target_ne_none (e := x - b.range.start) hobject
    have := VmAreaKind.target_inj hne (hsame hne)
    have := hax.1
    have := hbx.1
    omega
  · intro h x hne
    unfold targetAt at hne ⊢
    cases hfind : t.find x with
    | none =>
      rw [hfind] at hne
      exact absurd rfl hne
    | some b =>
      rw [hfind, Option.bind_some] at hne
      obtain ⟨hb, hbx⟩ := (find_eq_some ht.ordered).1 hfind
      obtain ⟨a, ha, hax, hkind, -⟩ := area_before hs ht hedit hb hbx
      rw [(find_eq_some hs).2 ⟨ha, hax⟩, Option.bind_some, Option.bind_some, hkind,
        h a ha b hb x hax hbx (hkind ▸ VmAreaKind.target_ne_none hne)]

include hs ht hedit in
/-- The general fact behind both operations. -/
theorem keepsTargets_iff : KeepsTargets s t ↔ KeepsStarts edit s.areas := by
  rw [keepsTargets_iff_start hs ht hedit]
  constructor
  · intro h
    refine ⟨fun a ha hobject x hax hkept y hlow hyx => ?_, fun a ha hobject hkept b hb htouch hkind heq => ?_⟩
    · obtain ⟨flags, hflags⟩ := Option.ne_none_iff_exists'.1 hkept
      have hattr := attrAt_edit hs hedit ha hax
      rw [hflags] at hattr
      obtain ⟨b, hb, hbx, rfl, -⟩ := ht.ordered.attrAt_eq_some.1 hattr
      have hstart := h a ha b hb x hax hbx hobject
      have hby : b.contains y := ⟨hstart ▸ hlow, Nat.lt_of_le_of_lt hyx hbx.2⟩
      obtain ⟨a', ha', hay, -, hedit'⟩ := area_before hs ht hedit hb hby
      obtain rfl := hs.eq_of_contains ha' ha hay ⟨hlow, Nat.lt_of_le_of_lt hyx hax.2⟩
      rw [hedit', hflags]
    · obtain ⟨flags, hflags⟩ := Option.ne_none_iff_exists'.1 hkept
      have hax : a.contains a.range.start := ⟨Nat.le_refl _, (hs.valid a ha).nonempty⟩
      have hbne := (hs.valid b hb).nonempty
      have hby : b.contains (a.range.start - 1) := ⟨by omega, by omega⟩
      have hattr := attrAt_edit hs hedit ha hax
      rw [hflags] at hattr
      obtain ⟨c, hc, hcx, rfl, hck⟩ := ht.ordered.attrAt_eq_some.1 hattr
      have hstart := h a ha c hc _ hax hcx hobject
      refine ht.attrAt_below hc (y := a.range.start - 1) (by omega) ?_
      rw [attrAt_edit hs hedit hb hby, heq, hflags, hkind, hck]
      rfl
  · intro h a ha b hb x hax hbx hobject
    obtain ⟨a', ha', hax', hkind, hflags⟩ := area_before hs ht hedit hb hbx
    obtain rfl := hs.eq_of_contains ha' ha hax' hax
    have hkept : edit a'.flags x ≠ none := by
      rw [hflags]
      exact Option.some_ne_none _
    have hsame := h.inside a' ha hobject x hax hkept
    have h₁ := hax.1
    have h₂ := hbx.1
    have h₃ := hbx.2
    rcases Nat.lt_trichotomy b.range.start a'.range.start with hlt | heq | hlt
    · -- the area has grown downwards over another one
      have hattr := hsame a'.range.start (Nat.le_refl _) h₁
      obtain ⟨c, hc, hcy, hck, hcf⟩ := area_before hs ht hedit hb (x := a'.range.start - 1) ⟨by omega, by omega⟩
      have hcne : c ≠ a' := by
        rintro rfl
        have := hcy.1
        omega
      have hend : c.range.end_ = a'.range.start := by
        by_contra hne
        have h₄ := hcy.1
        have h₅ := hcy.2
        refine hcne (hs.eq_of_contains hc ha (x := a'.range.start) ⟨by omega, by omega⟩ ⟨Nat.le_refl _,
          (hs.valid _ ha).nonempty⟩)
      refine absurd (hcf.trans (hattr.trans hflags).symm) (h.below a' ha hobject ?_ c hc hend (hck.trans hkind.symm))
      rw [hattr]
      exact hkept
    · exact heq
    · -- the part below would have been kept in one piece with it
      have hay : a'.contains (b.range.start - 1) := ⟨by omega, by have := hax.2; omega⟩
      refine absurd ?_ (ht.attrAt_below hb (y := b.range.start - 1) (by omega))
      rw [attrAt_edit hs hedit ha hay, hsame _ hay.1 (by omega), hflags, hkind]
      rfl

end edit

def removeEdit (range : VirtRange) : Edit := fun flags x => if range.contains x then none else some flags

def protectEdit (range : VirtRange) (access : VmAreaFlags) : Edit :=
  fun flags x => some (if range.contains x then flags.withAccess access else flags)

/-- A removal or a change of access keeps what every remaining address of an object stands for exactly when it moves the
start of no area that maps an object. -/
theorem targets_exact {reserve : Bool} {range : VirtRange} (hs : Ordered capacity s.areas) :
    (∀ affected t, removeRange capacity reserve range s = .ok affected t →
      (KeepsTargets s t ↔ KeepsStarts (removeEdit range) s.areas)) ∧
    ∀ access affected t, protectRange capacity reserve range access s = .ok affected t →
      (KeepsTargets s t ↔ KeepsStarts (protectEdit range access) s.areas) := by
  refine ⟨fun affected t hok => ?_, fun access affected t hok => ?_⟩
  · obtain ⟨hcanonical, hattr⟩ := (removeRange_spec hs).ok hok
    refine keepsTargets_iff hs hcanonical fun x => ?_
    rw [hattr]
    cases attrAt s.areas x <;> by_cases hx : range.contains x <;> simp [removeEdit, hx]
  · obtain ⟨hcanonical, hattr⟩ := (protectRange_spec hs).ok hok
    refine keepsTargets_iff hs hcanonical fun x => ?_
    rw [hattr]
    cases attrAt s.areas x <;> rfl

def mapped : VmAreaSet := ⟨[⟨.fromBounds 0x1000 0x4000, .userRw, .fileBacked 7 0⟩]⟩

def cut : VmAreaSet := ⟨[⟨.fromBounds 0x2000 0x4000, .userRw, .fileBacked 7 0⟩]⟩

theorem targets_exact_cut : ¬KeepsStarts (removeEdit (.fromBounds 0x1000 0x2000)) mapped.areas := by
  have hs : Ordered 2 mapped.areas :=
    reachable_ordered (.step (a := .insert true ⟨.fromBounds 0x1000 0x4000, .userRw, .fileBacked 7 0⟩)
      (.init rfl) (.inl rfl))
  have hok : removeRange 2 true (.fromBounds 0x1000 0x2000) mapped = .ok 1 cut := rfl
  rw [← (targets_exact hs).1 1 cut hok]
  intro hkeeps
  exact absurd (hkeeps 0x2000 (by decide)) (by decide)

/-- Behind the page that was unmapped the file begins again. -/
theorem cut_shows_first_page :
    removeRange 2 true (.fromBounds 0x1000 0x2000) mapped = .ok 1 cut ∧
      mapped.targetAt 0x2000 = some (.fileBacked 7 0x1000) ∧ cut.targetAt 0x2000 = some (.fileBacked 7 0) :=
  ⟨rfl, by decide, by decide⟩

end VmAreaSet

end SudoOS
