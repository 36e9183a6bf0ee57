import SudoOS.Theorems.UserFault

/-! A stack grows by taking its area out of the set and putting a larger one in. -/

namespace SudoOS

open Program

namespace VmAreaSet

variable {capacity : Nat} {front back : List VmArea} {area : VmArea}

theorem Ordered.erase (hw : Ordered capacity (front ++ area :: back)) : Ordered capacity (front ++ back) := by
  have hsub : (front ++ back).Sublist (front ++ area :: back) :=
    (List.append_sublist_append_left front).2 (List.sublist_cons_self area back)
  exact ⟨fun a ha => hw.valid a (hsub.subset ha), hw.pairwise.sublist hsub, Nat.le_trans hsub.length_le hw.bounded⟩

/-- The place of an area between two others is found again. -/
theorem insertionIndex_between (hw : Ordered capacity (front ++ area :: back)) :
    insertionIndex ⟨front ++ back⟩ area.range.start = front.length := by
  obtain ⟨-, hcons, hcross⟩ := List.pairwise_append.1 hw.pairwise
  obtain ⟨lower, upper, hsplit, hindex, hlow, hhigh⟩ :=
    insertionIndex_split (s := ⟨front ++ back⟩) hw.erase area.range.start
  have hne := (hw.valid area (by simp)).nonempty
  rw [hindex]
  obtain ⟨mid, rfl, hmid⟩ | ⟨mid, hmid, rfl⟩ := List.append_eq_append_iff.1 hsplit
  · cases mid with
    | nil => simp
    | cons b mid =>
      have hb : b ∈ back := hmid ▸ List.mem_cons_self
      have := ((List.pairwise_cons.1 hcons).1 b hb).1
      have := hlow b (by simp)
      omega
  · cases mid with
    | nil => simp [hmid]
    | cons b mid =>
      have hb : b ∈ front := hmid ▸ List.mem_append_right _ List.mem_cons_self
      have := (hcross b hb area List.mem_cons_self).1
      have := (hw.valid b (List.mem_append_left _ hb)).nonempty
      have := hhigh b (by simp)
      omega

theorem insert_between (hw : Ordered capacity (front ++ area :: back)) :
    wp (insert capacity true area) ⟨front ++ back⟩ (fun _ t => t = ⟨front ++ area :: back⟩) (fun _ _ => False) := by
  obtain ⟨-, hcons, hcross⟩ := List.pairwise_append.1 hw.pairwise
  have harea := hw.valid area (by simp)
  have hlower : ∀ p, front.getLast? = some p → Before p area := fun p hp =>
    hcross p (List.mem_of_getLast? hp) area List.mem_cons_self
  have hupper : ∀ n, back.head? = some n → Before area n :=
    fun n hn => (List.pairwise_cons.1 hcons).1 n (List.mem_of_head? hn)
  have hprev : ¬(front.getLast?.any fun p => p.range.overlaps area.range) = true := by
    intro h
    obtain ⟨p, hp, hover⟩ := (Option.any_eq_true _ _).1 h
    exact Nat.not_lt_of_le (hlower p hp).1 (of_decide_eq_true hover).2
  have hnext : ¬(back.head?.any fun n => n.range.overlaps area.range) = true := by
    intro h
    obtain ⟨n, hn, hover⟩ := (Option.any_eq_true _ _).1 h
    exact Nat.not_lt_of_le (hupper n hn).1 (of_decide_eq_true hover).1
  -- two touching anonymous areas of the list differ, so nothing is joined
  have hjoinp : (if area.kind = .anonymous then front.getLast?.filter fun p => joins p area else none) = none := by
    split_ifs with hkind
    · refine Option.filter_eq_none_iff.2 fun p hp hjoin => ?_
      obtain ⟨ht, hf, hk⟩ : p.range.end_ = area.range.start ∧ p.flags = area.flags ∧ p.kind = area.kind := by
        simpa [joins] using hjoin
      exact (hlower p hp).2 ht (hk.trans hkind) hkind hf
    · rfl
  have hjoinn : (if area.kind = .anonymous then back.head?.filter fun n => joins area n else none) = none := by
    split_ifs with hkind
    · refine Option.filter_eq_none_iff.2 fun n hn hjoin => ?_
      obtain ⟨ht, hf, hk⟩ : area.range.end_ = n.range.start ∧ area.flags = n.flags ∧ area.kind = n.kind := by
        simpa [joins] using hjoin
      exact (hupper n hn).2 ht hkind (hk.symm.trans hkind) hf
    · rfl
  have hroom : (front ++ back).length ≠ capacity := by
    have := hw.bounded
    simp only [List.length_append, List.length_cons] at this ⊢
    omega
  simp only [insert, wp_bind, validateArea_eq_ok.2 harea, wp_ofExcept_ok, wp_get, insertionIndex_between hw,
    previousOf_append, nextOf_append, if_neg hprev, if_neg hnext,
    decide_eq_true_eq, hjoinp, hjoinn, if_neg hroom, Bool.not_true, Bool.false_eq_true, if_false, wp_set,
    insertIdx_length_append]

end VmAreaSet

namespace AddressSpace

open VmAreaSet

variable {s t : AddressSpace} {capacity : Nat} {range : VirtRange} {removed : VmArea}

theorem mapArea_unmapped (h : Sound capacity s) (hok : unmapExact range s = .ok removed t) :
    mapArea capacity true removed t = .ok () s := by
  have hunmap : wp (unmapExact range) s (fun removed t => mapArea capacity true removed t = .ok () s)
    (fun _ _ => True) := by
    simp only [unmapExact, onAreas, wp_zoom]
    refine removeExact_split.mono ?_ fun _ _ _ => trivial
    rintro area ⟨areas⟩ ⟨-, front, back, hareas, rfl⟩
    have hordered := h.ordered
    rw [hareas] at hordered
    have hmem : area ∈ s.areas.areas := by
      rw [hareas]
      exact List.mem_append_right _ List.mem_cons_self
    have huser : s.userRange.containsRange area.range := by
      have hne := (h.ordered.valid area hmem).nonempty
      have hlast : area.contains (area.range.end_ - 1) := ⟨by omega, by omega⟩
      have hbelow := h.below (area.range.end_ - 1)
      rw [h.attr_of_findArea (h.findArea_eq_some.2 ⟨hmem, hlast⟩)] at hbelow
      have := hbelow (Option.some_ne_none _)
      rw [h.user]
      exact ⟨Nat.zero_le _, show area.range.end_ ≤ userEnd by omega⟩
    have hmap : wp (mapArea capacity true area) { s with areas := ⟨front ++ back⟩ } (fun _ t => t = s)
      (fun _ _ => False) := by
      simp only [mapArea, wp_bind, wp_get, wp_ite, wp_throw, onAreas, wp_zoom]
      refine ⟨fun hout => hout huser, fun _ => (insert_between hordered).mono ?_ fun _ _ hf => hf⟩
      rintro _ _ rfl
      rw [← hareas]
    obtain ⟨_, _, hrun, rfl⟩ := hmap.total
    exact hrun
  exact hunmap.ok hok

theorem mapArea_failed {reserve : Bool} {area : VmArea} (h : Ordered capacity s.areas.areas) :
    wp (mapArea capacity reserve area) s (fun _ _ => True) (fun _ t => t = s) := by
  simp only [mapArea, wp_bind, wp_get, wp_ite, wp_throw, onAreas, wp_zoom]
  refine ⟨fun _ => trivial, fun _ => (insert_spec h).mono (fun _ _ _ => trivial) ?_⟩
  rintro _ _ rfl
  rfl

end AddressSpace

namespace UserAddressSpace

variable {s t : UserAddressSpace} {capacity fault userSp guardGap growthStep spDistance : Nat} {growth : StackGrowth}

theorem commitStackGrowth_undone (h : s.layout.Sound capacity) : wp (commitStackGrowth capacity growth) s (fun _ _ => True)
    (fun e t => (∃ error, e = .error error) ∧ t = s) := by
  simp only [commitStackGrowth, onLayout, wp_bind, wp_zoom]
  refine wp_iff.2 ⟨fun removed layout hok => ?_, fun e layout herr => ⟨⟨_, rfl⟩, by
    rw [(AddressSpace.unmapExact_spec h).error herr]⟩⟩
  have hlayout := ((AddressSpace.unmapExact_spec h).ok hok).2.2.2.1.ordered
  have hback : wp (expectLayout (AddressSpace.mapArea capacity true removed)) { s with layout := layout } (fun _ t => t = s)
      (fun _ _ => False) := by
    rw [expectLayout, wp_zoom]
    refine wp_iff.2 ⟨fun _ t ht => ?_, fun e t ht => ?_⟩
    · rw [AddressSpace.mapArea_unmapped h hok] at ht
      cases ht
      rfl
    · rw [AddressSpace.mapArea_unmapped h hok] at ht
      cases ht
  split_ifs with hsame
  · simp only [wp_bind, wp_throw]
    exact hback.mono (fun _ _ ht => ⟨⟨_, rfl⟩, ht⟩) fun _ _ hf => hf.elim
  · simp only [wp_bind, wp_get]
    cases hmap : AddressSpace.mapArea capacity true growth.newArea layout with
    | ok _ layout' => simp only [wp_set]
    | error e layout' =>
      obtain rfl := (AddressSpace.mapArea_failed hlayout).error hmap
      simp only [wp_bind, wp_set, wp_throw]
      exact hback.mono (fun _ _ ht => ⟨⟨_, rfl⟩, ht⟩) fun _ _ hf => hf.elim

theorem GrowsWithin.gap_below {userRange : VirtRange} {areas : List VmArea} {faultPage : Nat}
    (hg : GrowsWithin userRange fault faultPage userSp guardGap growthStep spDistance areas growth)
    (hw : VmAreaSet.Ordered capacity areas) {a : VmArea} (ha : a ∈ areas)
      (hbelow : a.range.end_ ≤ growth.oldArea.range.start) :
    a.range.end_ + guardGap ≤ faultPage := by
  have hne := (hw.valid a ha).nonempty
  obtain ⟨front, rest, rfl, hgap⟩ := hg.gap
  obtain ⟨hfront, hcons, -⟩ := List.pairwise_append.1 hw.pairwise
  rcases List.mem_append.1 ha with ha | ha
  · obtain ⟨last, hlast, hle⟩ := end_le_last hfront ha
    have := hgap last hlast
    omega
  · rcases List.mem_cons.1 ha with rfl | ha
    · omega
    · have := ((List.pairwise_cons.1 hcons).1 a ha).1
      have := growth.oldArea.range.start_le_end
      omega

structure SafeGrowth (s : UserAddressSpace) (fault userSp guardGap growthStep spDistance : Nat) (growth : StackGrowth) :
    Prop where
  mem : growth.oldArea ∈ s.layout.areas.areas
  clear : ∀ a ∈ s.layout.areas.areas, a ≠ growth.oldArea → ¬a.range.overlaps growth.newArea.range
  gap : ∀ a ∈ s.layout.areas.areas, a.range.end_ ≤ growth.oldArea.range.start → a.range.end_ +
    guardGap ≤ growth.newArea.range.start
  user : s.layout.userRange.containsRange growth.newArea.range
  step : growth.oldArea.range.start ≤ growth.newArea.range.start + growthStep
  pointer : growth.oldArea.range.start ≤ userSp + growthStep ∧ userSp ≤ growth.oldArea.range.end_
  distance : userSp ≤ fault + spDistance

/-- The layout after a growth: the pages between the fault and the old stack are stack, everything else is as before. -/
structure Grown (capacity : Nat) (s t : UserAddressSpace) (growth : StackGrowth) : Prop where
  rest : t = { s with layout := t.layout }
  sound : t.layout.Sound capacity
  attr : ∀ x, t.layout.attr x = if growth.newArea.range.start ≤ x ∧ x < growth.oldArea.range.start
    then some (growth.oldArea.flags, growth.oldArea.kind) else s.layout.attr x

theorem planUserFaultWithLimits_growStack {pageFault : PageFault}
    (h : s.planUserFaultWithLimits pageFault userSp guardGap growthStep spDistance = .ok (.growStack growth)) :
    s.planStackGrowth pageFault.address userSp guardGap growthStep spDistance = .ok growth := by
  unfold planUserFaultWithLimits at h
  split_ifs at h
  · cases h
  split at h
  all_goals try cases h
  all_goals try (split at h <;> cases h)
  assumption

/-- A growth that is planned keeps to the limits and is carried out in full; one that is refused changes nothing. -/
theorem stackGrowth_safe (h : s.layout.Sound capacity) :
    (∀ fault userSp guardGap growthStep spDistance growth,
      s.planStackGrowth fault userSp guardGap growthStep spDistance = .ok growth →
        SafeGrowth s fault userSp guardGap growthStep spDistance growth ∧
          ∃ t, commitStackGrowth capacity growth s = .ok () t ∧ Grown capacity s t growth) ∧
    (∀ fault userSp guardGap growthStep spDistance growth,
      s.planUserFaultWithLimits fault userSp guardGap growthStep spDistance = .ok (.growStack growth) →
        s.planStackGrowth fault.address userSp guardGap growthStep spDistance = .ok growth) ∧
    ∀ growth e t, commitStackGrowth capacity growth s = .error e t → (∃ error, e = .error error) ∧ t = s := by
  refine ⟨fun fault userSp guardGap growthStep spDistance growth hplan => ?_,
    fun fault userSp guardGap growthStep spDistance growth hplan => planUserFaultWithLimits_growStack hplan,
    fun growth e t herr => ?_⟩
  · rw [planStackGrowth, alignDown_pageSize] at hplan
    have hg := stackGrowthLoop_eq_ok [] hplan
    have hstart := hg.start
    refine ⟨⟨hg.mem, fun a ha hne => hg.toGrows.clear h ha hne, fun a ha hbelow => ?_, hg.user, ?_, hg.pointer,
      hg.distance⟩, ?_⟩
    · rw [hstart]
      exact hg.gap_below h.ordered ha hbelow
    · rw [hstart]
      exact hg.step
    · have haligned : (fault - fault % 4096) % 4096 = 0 := by omega
      obtain ⟨_, _, hrun, layout, rfl, hsound, hattr⟩ := (commitStackGrowth_spec h hg.toGrows haligned).total
      refine ⟨_, hrun, rfl, hsound, fun x => (hattr x).trans ?_⟩
      have hold {x : Nat} (hx : growth.oldArea.contains x) := h.attr_of_findArea (h.findArea_eq_some.2 ⟨hg.mem, hx⟩)
      rw [hg.newArea.1, hg.newArea.2]
      have hend := hg.end_
      have hbelow := hg.below
      have hne := growth.oldArea.range.start_le_end
      by_cases hx : growth.newArea.contains x
      · rw [if_pos hx]
        by_cases hnew : x < growth.oldArea.range.start
        · rw [if_pos ⟨hx.1, hnew⟩]
        · have := hx.2
          rw [if_neg fun hin => hnew hin.2, hold ⟨Nat.le_of_not_lt hnew, by omega⟩]
      · rw [if_neg hx, if_neg fun hin => hx ⟨hin.1, by omega⟩]
  · exact (commitStackGrowth_undone h).error herr

def stackArea : VmArea := ⟨.fromBounds 0x500000 0x501000, { VmAreaFlags.userRw with growDown := true }, .stack⟩

def withStack : UserAddressSpace :=
  { UserAddressSpace.new userRange ⟨1, 1⟩ with layout := ⟨userRange, ⟨[stackArea]⟩, none⟩ }

theorem withStack_sound : withStack.layout.Sound 4 := by
  have hmap : wp (AddressSpace.mapArea 4 true stackArea) (.new userRange) _ _ :=
    AddressSpace.mapArea_spec (.new 4) fun hk => (nomatch hk)
  exact (hmap.ok rfl).2.2.2.1

/-- A fault two pages below the stack. -/
theorem stackGrowth_safe_two_pages :
    let growth : StackGrowth := ⟨stackArea, { stackArea with range := .fromBounds 0x4fe000 0x501000 }, 0x4fe000⟩
    withStack.planStackGrowth 0x4fe010 0x500800 pageSize (pageSize * 256) (pageSize * 16) = .ok growth ∧
      ∃ t, commitStackGrowth 4 growth withStack = .ok () t ∧ Grown 4 withStack t growth := by
  intro growth
  have hplan : withStack.planStackGrowth 0x4fe010 0x500800 pageSize (pageSize * 256) (pageSize * 16) = .ok growth := by
    decide +kernel
  exact ⟨hplan, ((stackGrowth_safe withStack_sound).1 _ _ _ _ _ _ hplan).2⟩

end UserAddressSpace

end SudoOS
