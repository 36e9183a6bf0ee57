import SudoOS.Theorems.VmaTarget

/-! One list for a mapping; when a change of access is accepted. -/

namespace SudoOS

open Program

namespace VmAreaSet

section canonical
variable {s t : VmAreaSet} {a b : VmArea} {x y capacity n : Nat}

/-- The address behind an area has other attributes. -/
theorem Canonical.attrAt_end (h : Canonical capacity s.areas) (ha : a ∈ s.areas) :
    attrAt s.areas a.range.end_ ≠ some (a.flags, a.kind) := by
  intro hattr
  obtain ⟨b, hb, hbx, hf, hk⟩ := h.ordered.attrAt_eq_some.1 hattr
  obtain ⟨hlow, hhigh⟩ : b.range.start ≤ a.range.end_ ∧ a.range.end_ < b.range.end_ := hbx
  have hane := (h.valid a ha).nonempty
  by_cases ht : a.range.end_ = b.range.start
  · exact h.touching ha hb ht (by rw [hf, hk])
  · obtain rfl := h.ordered.eq_of_contains ha hb (x := a.range.end_ - 1) ⟨by omega, by omega⟩ ⟨by omega, by omega⟩
    omega

theorem Canonical.subset (hs : Canonical capacity s.areas) (ht : Canonical n t.areas)
    (h : ∀ x, attrAt s.areas x = attrAt t.areas x) : s.areas ⊆ t.areas := by
  intro a ha
  have hane := (hs.valid a ha).nonempty
  have hattr {x : Nat} (hx : a.contains x) := (h x).symm.trans (hs.ordered.attrAt_of_mem ha hx)
  obtain ⟨b, hb, hbx, hf, hk⟩ := ht.ordered.attrAt_eq_some.1 (hattr ⟨Nat.le_refl _, hane⟩)
  obtain ⟨hlow, hhigh⟩ : b.range.start ≤ a.range.start ∧ a.range.start < b.range.end_ := hbx
  have hbattr {x : Nat} (hx : b.contains x) := (h x).trans (ht.ordered.attrAt_of_mem hb hx)
  rw [hf, hk] at hbattr
  have hstart : b.range.start = a.range.start := by
    by_contra hne
    exact hs.attrAt_below ha (y := a.range.start - 1) (by omega) (hbattr ⟨by omega, by omega⟩)
  have hend : b.range.end_ = a.range.end_ := by
    rcases Nat.lt_trichotomy b.range.end_ a.range.end_ with hlt | heq | hlt
    · refine absurd (hattr ⟨by omega, hlt⟩) ?_
      rw [← hf, ← hk]
      exact ht.attrAt_end hb
    · exact heq
    · exact absurd (hbattr ⟨by omega, hlt⟩) (hs.attrAt_end ha)
  obtain rfl : a = b := by
    obtain ⟨⟨_, _, _⟩, _, _⟩ := a
    obtain ⟨⟨_, _, _⟩, _, _⟩ := b
    simp_all
  exact hb

theorem Canonical.nodup (h : Canonical capacity s.areas) : s.areas.Nodup := by
  refine h.pairwise.imp_of_mem fun ha _ hab heq => ?_
  have := (h.valid _ ha).nonempty
  have := hab.1
  subst heq
  omega

theorem Canonical.length_le (hs : Canonical capacity s.areas) (ht : Canonical n t.areas)
    (h : ∀ x, attrAt s.areas x = attrAt t.areas x) : s.areas.length ≤ t.areas.length :=
  (List.subperm_of_subset hs.nodup (hs.subset ht h)).length_le

theorem Ordered.canonical (h : Ordered capacity s.areas) (hkind : ∀ a ∈ s.areas, a.kind = .anonymous) :
    Canonical capacity s.areas := by
  refine ⟨h.valid, h.pairwise.imp_of_mem fun ha hb hab => ⟨hab.1, fun htouch heq => ?_⟩, h.bounded⟩
  exact hab.2 htouch (hkind _ ha) (hkind _ hb) (Prod.mk.inj heq).1

/-- Histories of anonymous areas that map the same end in the same set, whatever was merged and split on the way. -/
theorem history_independent (hs : (system capacity).Reachable s) (ht : (system n).Reachable t)
    (hkind : ∀ a ∈ s.areas, a.kind = .anonymous) (h : ∀ x, attrAt s.areas x = attrAt t.areas x) : s.areas = t.areas := by
  have hs' := reachable_ordered hs
  have ht' := reachable_ordered ht
  have hcs := hs'.canonical hkind
  have hct := ht'.canonical fun b hb => by
    have hattr := (h b.range.start).trans (ht'.attrAt_of_mem hb ⟨Nat.le_refl _, (ht'.valid b hb).nonempty⟩)
    obtain ⟨a, ha, -, -, hk⟩ := hs'.attrAt_eq_some.1 hattr
    exact hk ▸ hkind a ha
  have hperm : s.areas.Perm t.areas := (List.perm_ext_iff_of_nodup hcs.nodup hct.nodup).2 fun a =>
    ⟨fun ha => hcs.subset hct h ha, fun ha => hct.subset hcs (fun x => (h x).symm) ha⟩
  -- areas in address order have only one order
  refine hperm.eq_of_pairwise (fun a b ha hb hab hba => ?_) hcs.pairwise hct.pairwise
  have := (hcs.valid a ha).nonempty
  have := (hct.valid b hb).nonempty
  have := hab.1
  have := hba.1
  omega

/-- Two pages mapped at once and one after the other. -/
theorem history_independent_pages : ∃ s t, (system 1).Reachable s ∧ (system 2).Reachable t ∧ s.areas ≠ [] ∧
    s.areas = t.areas := by
  have hs : (system 1).Reachable ⟨[⟨.fromBounds 4096 12288, .userRw, .anonymous⟩]⟩ :=
    .step (a := .insert true ⟨.fromBounds 4096 12288, .userRw, .anonymous⟩) (.init rfl) (.inl rfl)
  have ht : (system 2).Reachable ⟨[⟨.fromBounds 4096 8192, .userRw, .anonymous⟩]⟩ :=
    .step (a := .insert true ⟨.fromBounds 4096 8192, .userRw, .anonymous⟩) (.init rfl) (.inl rfl)
  have ht' : (system 2).Reachable ⟨[⟨.fromBounds 4096 12288, .userRw, .anonymous⟩]⟩ :=
    ht.step (a := .insert true ⟨.fromBounds 8192 12288, .userRw, .anonymous⟩) (.inl rfl)
  exact ⟨_, _, hs, ht', List.cons_ne_nil _ _, history_independent hs ht' (List.forall_mem_singleton.2 rfl) fun _ => rfl⟩

end canonical

section rebuild
variable {areas parts : List VmArea} {area : VmArea} {capacity cursor count : Nat} {range : VirtRange}
    {access : VmAreaFlags}

/-- A valid area behind the others is refused for want of room only. -/
theorem appendArea_fits (hvalid : area.Valid) (hlast : ∀ p ∈ areas, p.range.end_ ≤ area.range.start) :
    ∃ out, areas.length ≤ out.length ∧ (∀ p ∈ out, p.range.end_ ≤ area.range.end_) ∧
      ∀ capacity, out.length ≤ capacity → appendArea areas area capacity = .ok out := by
  have hne := hvalid.nonempty
  have hv := validateArea_eq_ok.2 hvalid
  have hbelow : ∀ p ∈ areas, p.range.end_ ≤ area.range.end_ := fun p hp => Nat.le_trans (hlast p hp) (Nat.le_of_lt hne)
  have hpushed : ∀ p ∈ areas ++ [area], p.range.end_ ≤ area.range.end_ :=
    List.forall_mem_append.2 ⟨hbelow, List.forall_mem_singleton.2 (Nat.le_refl _)⟩
  rcases List.eq_nil_or_concat areas with rfl | ⟨front, previous, rfl⟩
  · refine ⟨[area], Nat.zero_le _, hpushed, fun capacity hcap => ?_⟩
    have : ¬0 = capacity := Nat.ne_of_lt hcap
    simp [appendArea, hv, this]
  · rw [List.concat_eq_append] at *
    have hle := hlast previous (by simp)
    have hp := previous.range.start_le_end
    have hover : ¬(previous.range.overlaps area.range ∨ previous.range.start > area.range.start) := by
      unfold VirtRange.overlaps
      omega
    by_cases hjoin : previous.range.end_ = area.range.start ∧ previous.flags = area.flags ∧ previous.kind = area.kind
    · obtain ⟨merged, hmerged⟩ : ∃ merged, VirtRange.new previous.range.start area.range.end_ = some merged := by
        refine Option.ne_none_iff_exists'.1 fun hnone => ?_
        rw [VirtRange.new_eq_none] at hnone
        omega
      refine ⟨front ++ [⟨merged, area.flags, area.kind⟩], by simp, ?_, fun capacity _ => ?_⟩
      · refine List.forall_mem_append.2 ⟨fun p hp => hbelow p (List.mem_append_left _ hp), List.forall_mem_singleton.2 ?_⟩
        exact Nat.le_of_eq (VirtRange.new_eq_some.1 hmerged).2
      · simp only [appendArea, hv, List.getLast?_concat, if_neg hover, if_pos hjoin, hmerged, List.dropLast_concat]
        rfl
    · refine ⟨front ++ [previous] ++ [area], by simp, hpushed, fun capacity hcap => ?_⟩
      have hroom : ¬(front ++ [previous]).length = capacity := by
        simp only [List.length_append, List.length_singleton] at hcap ⊢
        omega
      simp only [appendArea, hv, List.getLast?_concat, if_neg hover, if_neg hjoin, if_neg hroom]
      rfl

theorem appendAll_fits (hvalid : ∀ p ∈ parts, p.Valid) (hsorted : parts.Pairwise fun p q => p.range.end_ ≤ q.range.start)
    (hlast : ∀ a ∈ areas, ∀ p ∈ parts, a.range.end_ ≤ p.range.start) :
    ∃ out, areas.length ≤ out.length ∧ ∀ capacity, out.length ≤ capacity → appendAll capacity areas parts = .ok out := by
  induction parts generalizing areas with
  | nil => exact ⟨areas, Nat.le_refl _, fun _ _ => rfl⟩
  | cons p parts ih =>
    obtain ⟨hp, hvalid⟩ := List.forall_mem_cons.1 hvalid
    obtain ⟨hbehind, hsorted⟩ := List.pairwise_cons.1 hsorted
    obtain ⟨mid, hmid, hends, happend⟩ := appendArea_fits hp fun a ha => hlast a ha p List.mem_cons_self
    obtain ⟨out, hout, hall⟩ := ih hvalid hsorted fun a ha q hq => Nat.le_trans (hends a ha) (hbehind q hq)
    refine ⟨out, Nat.le_trans hmid hout, fun capacity hcap => ?_⟩
    exact bind_eq_ok.2 ⟨mid, happend capacity (Nat.le_trans hout hcap), hall capacity hcap⟩

/-- The scan passes exactly when no address from the cursor on is unmapped. -/
theorem coverLoop_ne_none (hne : ∀ a ∈ areas, a.range.start < a.range.end_)
    (hsorted : areas.Pairwise fun a b => a.range.end_ ≤ b.range.start) (hcursor : cursor < range.end_) :
    coverLoop range areas cursor count ≠ none ↔ ∀ x, cursor ≤ x → x < range.end_ → attrAt areas x ≠ none := by
  induction areas generalizing cursor count with
  | nil =>
    rw [coverLoop, if_neg (Nat.ne_of_lt hcursor)]
    exact iff_of_false (not_not_intro rfl) fun h => h cursor (Nat.le_refl _) hcursor rfl
  | cons a areas ih =>
    obtain ⟨ha, hne⟩ := List.forall_mem_cons.1 hne
    obtain ⟨hbehind, hsorted⟩ := List.pairwise_cons.1 hsorted
    have hout {x : Nat} (hx : ¬a.contains x) : attrAt (a :: areas) x = attrAt areas x := by rw [attrAt_cons, if_neg hx]
    have hin {x : Nat} (hx : a.contains x) : attrAt (a :: areas) x ≠ none := by
      rw [attrAt_cons, if_pos hx]
      exact Option.some_ne_none _
    unfold coverLoop
    split_ifs with hskip hgap
    · rw [ih hne hsorted hcursor]
      refine forall_congr' fun x => imp_congr_right fun hlow => imp_congr_right fun hhigh => ?_
      rw [hout fun hx => by have := hx.1; have := hx.2; omega]
    · refine iff_of_false (not_not_intro rfl) fun h => h cursor (Nat.le_refl _) hcursor ?_
      refine attrAt_eq_none.2 (List.forall_mem_cons.2 ⟨fun hx => Nat.not_le_of_lt hgap hx.1, fun b hb hx => ?_⟩)
      have := hbehind b hb
      have := hx.1
      omega
    · dsimp only
      split_ifs with hend
      · refine iff_of_true (Option.some_ne_none _) fun x hlow hhigh => hin ⟨by omega, by omega⟩
      · rw [ih hne hsorted (by omega)]
        constructor
        · intro h x hlow hhigh
          by_cases hx : a.contains x
          · exact hin hx
          · rw [hout hx]
            refine h x ?_ hhigh
            by_contra hlt
            exact hx ⟨by omega, by omega⟩
        · intro h x hlow hhigh
          rw [← hout fun hx => by have := hx.2; omega]
          exact h x (by omega) hhigh

theorem protectPieces_valid {a p : VmArea} (ha : a.Valid) (hstart : range.start % 4096 = 0) (hend : range.end_ % 4096 = 0)
    (hwrite : access.write = true → access.read = true) (hp : p ∈ protectPieces range access a) : p.Valid := by
  have hpart {start end_ : Nat} {flags : VmAreaFlags} (hp : p ∈ part start end_ flags a.kind) (hs : start % 4096 = 0)
      (he : end_ % 4096 = 0) (hw : flags.write = true → flags.read = true)
      (hrest : flags.shared = a.flags.shared ∧ flags.private_ = a.flags.private_ ∧
        flags.copyOnWrite = a.flags.copyOnWrite) :
      p.Valid := by
    unfold part at hp
    split_ifs at hp with hlt
    · obtain ⟨r, hr, rfl⟩ := List.mem_map.1 hp
      obtain ⟨rfl, rfl⟩ := VirtRange.new_eq_some.1 (Option.mem_toList.1 hr)
      obtain ⟨h₁, h₂, h₃⟩ := hrest
      exact ⟨hlt, hs, he, hw, h₁ ▸ h₂ ▸ ha.not_shared_private, h₂ ▸ h₃ ▸ ha.cow_private⟩
    · cases hp
  unfold protectPieces at hp
  split_ifs at hp
  · have hs := ha.start_aligned
    have he := ha.end_aligned
    rcases List.mem_append.1 hp with hp | hp
    · rcases List.mem_append.1 hp with hp | hp
      · exact hpart hp hs hstart ha.write_read ⟨rfl, rfl, rfl⟩
      · exact hpart hp (by omega) (by omega) hwrite ⟨rfl, rfl, rfl⟩
    · exact hpart hp hend he ha.write_read ⟨rfl, rfl, rfl⟩
  · obtain rfl := List.mem_singleton.1 hp
    exact ha

end rebuild

section exact
variable {s : VmAreaSet} {capacity : Nat} {reserve : Bool} {range : VirtRange} {access : VmAreaFlags}

/-- The attributes at an address after a change of access. -/
def protectedAttr (s : VmAreaSet) (range : VirtRange) (access : VmAreaFlags) (x : Nat) :
    Option (VmAreaFlags × VmAreaKind) :=
  (attrAt s.areas x).map fun v => (if range.contains x then v.1.withAccess access else v.1, v.2)

structure Protectable (capacity : Nat) (reserve : Bool) (range : VirtRange) (access : VmAreaFlags) (s : VmAreaSet) :
    Prop where
  nonempty : range.start < range.end_
  start_aligned : range.start % 4096 = 0
  end_aligned : range.end_ % 4096 = 0
  access_only : access = access.accessOnly
  write_read : access.write = true → access.read = true
  memory : reserve = true
  covered : ∀ x, range.contains x → attrAt s.areas x ≠ none
  fits : ∃ areas, Canonical capacity areas ∧ ∀ x, attrAt areas x = s.protectedAttr range access x

theorem Protectable.rebuilds (hs : Ordered capacity s.areas) (h : Protectable capacity reserve range access s) :
    ∃ out, protectRangeLoop capacity range access s.areas [] = .ok out := by
  have hinside := protectPieces_inside range access
  have hvalid : ∀ p ∈ s.areas.flatMap (protectPieces range access), p.Valid := by
    intro p hp
    obtain ⟨a, ha, hp⟩ := List.mem_flatMap.1 hp
    exact protectPieces_valid (hs.valid a ha) h.start_aligned h.end_aligned h.write_read hp
  obtain ⟨out, -, hall⟩ := appendAll_fits hvalid (hinside.flatMap_pairwise hs) fun a ha => absurd ha List.not_mem_nil
  obtain ⟨areas, hareas, hattr⟩ := h.fits
  obtain ⟨hout, hpieces⟩ := hinside.rebuild hs (hall out.length (Nat.le_refl _))
  have hsame : ∀ x, attrAt out x = attrAt areas x := by
    intro x
    rw [hattr, hpieces]
    exact attrAt_protected hs range access x
  refine ⟨out, ?_⟩
  rw [protectRangeLoop_eq h.nonempty fun a ha => (hs.valid a ha).nonempty]
  exact hall capacity (Nat.le_trans (Canonical.length_le (s := ⟨out⟩) (t := ⟨areas⟩) hout hareas hsame) hareas.bounded)

theorem protectRange_protectable (hs : Ordered capacity s.areas) : wp (protectRange capacity reserve range access) s
    (fun _ _ => Protectable capacity reserve range access s) (fun _ _ => ¬Protectable capacity reserve range access s) := by
  have hscan {count : Nat} (hrange : range.start < range.end_) : coverLoop range s.areas range.start count ≠ none ↔
      ∀ x, range.contains x → attrAt s.areas x ≠ none := by
    rw [coverLoop_ne_none (fun a ha => (hs.valid a ha).nonempty) (hs.pairwise.imp And.left) hrange]
    exact forall_congr' fun x => and_imp.symm
  simp only [protectRange, wp_bind, wp_ofExcept, wp_get, wp_ite, wp_throw, wp_okOr, wp_set, wp_pure]
  refine ⟨fun _ hvalid => ⟨fun hne h => hne h.access_only, fun haccess => ?_⟩, fun e he h => ?_⟩
  · obtain ⟨hrange, hstart, hend⟩ := validateOperationRange_eq_ok.1 hvalid
    refine ⟨fun affected hcover => ⟨fun hr h => ?_, fun hr => ⟨fun out hout => ?_, fun e he h => ?_⟩⟩, fun hnone h => ?_⟩
    · rw [h.memory] at hr
      cases hr
    · rw [protectRangeLoop_eq hrange fun a ha => (hs.valid a ha).nonempty] at hout
      obtain ⟨hcanonical, hpieces⟩ := (protectPieces_inside range access).rebuild hs hout
      have hattr (x : Nat) := (hpieces x).trans (attrAt_protected hs range access x)
      have hcovered := (hscan hrange).1 (by rw [hcover]; exact Option.some_ne_none _)
      refine ⟨hrange, hstart, hend, not_not.1 haccess, ?_, by simpa using hr, hcovered, out, hcanonical, hattr⟩
      -- the first area of the range was rebuilt with the new access bits
      have hfirst : range.contains range.start := ⟨Nat.le_refl _, hrange⟩
      obtain ⟨⟨flags, kind⟩, hv⟩ := Option.ne_none_iff_exists'.1 (hcovered range.start hfirst)
      have hnew := hattr range.start
      rw [hv, Option.map_some, if_pos hfirst] at hnew
      obtain ⟨a, ha, -, hf, -⟩ := (Ordered.attrAt_eq_some (s := ⟨out⟩) hcanonical.ordered).1 hnew
      have hwrite := (hcanonical.valid a ha).write_read
      rw [hf] at hwrite
      exact hwrite
    · obtain ⟨out, hout⟩ := h.rebuilds hs
      cases he.symm.trans hout
    · exact (hscan hrange).2 h.covered hnone
  · have hok := validateOperationRange_eq_ok.2 ⟨h.nonempty, h.start_aligned, h.end_aligned⟩
    cases he.symm.trans hok

/-- `protect_range` succeeds exactly when the arguments are acceptable, the range has no gap, memory is granted and the
areas of the result fit; what it and `remove_range` do is said address by address. -/
theorem protect_exact (hs : Ordered capacity s.areas) :
    ((∃ affected t, protectRange capacity reserve range access s = .ok affected t) ↔
      Protectable capacity reserve range access s) ∧
    (∀ affected t, protectRange capacity reserve range access s = .ok affected t →
      ∀ x, attrAt t.areas x = s.protectedAttr range access x) ∧
    ∀ affected t, removeRange capacity reserve range s = .ok affected t →
      ∀ x, attrAt t.areas x = if range.contains x then none else attrAt s.areas x := by
  have hwhen : wp (protectRange capacity reserve range access) s _ _ := protectRange_protectable hs
  refine ⟨⟨fun ⟨affected, t, hok⟩ => hwhen.ok hok, fun h => ?_⟩, fun affected t hok => ((protectRange_spec hs).ok hok).2,
    fun affected t hok => ((removeRange_spec hs).ok hok).2⟩
  cases hresult : protectRange capacity reserve range access s with
  | ok affected t => exact ⟨affected, t, rfl⟩
  | error e t => exact absurd h (hwhen.error hresult)

theorem onePage_le : 0x1000 ≤ 0x2000 := by decide

def onePage : VmAreaSet := ⟨[⟨.fromBounds 0x1000 0x2000 onePage_le, .userRw, .anonymous⟩]⟩

theorem onePage_ordered : Ordered 1 onePage.areas :=
  reachable_ordered (.step (a := .insert true ⟨.fromBounds 0x1000 0x2000, .userRw, .anonymous⟩) (.init rfl) (.inl rfl))

theorem protect_exact_one_page : Protectable 1 true (.fromBounds 0x1000 0x2000) { read := true } onePage ∧
    ∃ affected t, protectRange 1 true (.fromBounds 0x1000 0x2000) { read := true } onePage = .ok affected t ∧
      ∀ x, attrAt t.areas x = onePage.protectedAttr (.fromBounds 0x1000 0x2000) { read := true } x := by
  have hok : protectRange 1 true (.fromBounds 0x1000 0x2000) { read := true } onePage = .ok 1 _ := rfl
  exact ⟨(protect_exact onePage_ordered).1.1 ⟨1, _, hok⟩, 1, _, hok, (protect_exact onePage_ordered).2.1 1 _ hok⟩

/-- Write access without read access is refused, although the page is mapped and the result is one area. -/
theorem protect_refuses_write_only :
    protectRange 1 true (.fromBounds 0x1000 0x2000) { write := true } onePage = .error .invalidFlags onePage ∧
      (∀ x, (VirtRange.fromBounds 0x1000 0x2000).contains x → attrAt onePage.areas x ≠ none) ∧
      ∃ area, ∀ x, attrAt [area] x = onePage.protectedAttr (.fromBounds 0x1000 0x2000) { write := true } x := by
  refine ⟨rfl, fun x hx => ?_, ⟨.fromBounds 0x1000 0x2000, VmAreaFlags.userRw.withAccess { write := true }, .anonymous⟩,
    fun x => ?_⟩
  · rw [onePage_ordered.attrAt_of_mem List.mem_cons_self hx]
    exact Option.some_ne_none _
  · by_cases hx : (VirtRange.fromBounds 0x1000 0x2000).contains x <;> simp [protectedAttr, onePage, VmArea.contains, hx]

end exact

end VmAreaSet

end SudoOS
