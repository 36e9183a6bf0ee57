import SudoOS.Theorems.UserMm

/-! What the plan for a fault says about the areas, and what carrying it out does to the address space. -/

namespace SudoOS

open Program RuntimePageTable
open PageTableEntry (Rights optionsRights)

namespace UserAddressSpace

variable {s : UserAddressSpace} {fault : PageFault} {address userSp guardGap growthStep spDistance faultPage capacity : Nat}
  {userRange : VirtRange} {previous : Option VmArea} {areas : List VmArea} {growth : StackGrowth}

structure Grows (userRange : VirtRange) (faultPage : Nat) (areas : List VmArea) (growth : StackGrowth) : Prop where
  split : ∃ front rest, areas = front ++ growth.oldArea :: rest ∧ ∀ p, front.getLast? = some p → p.range.end_ ≤ faultPage
  stack : growth.oldArea.kind = .stack
  below : faultPage < growth.oldArea.range.start
  newArea : growth.newArea.flags = growth.oldArea.flags ∧ growth.newArea.kind = growth.oldArea.kind
  start : growth.newArea.range.start = faultPage
  end_ : growth.newArea.range.end_ = growth.oldArea.range.end_
  page : growth.faultPage = faultPage
  user : userRange.containsRange growth.newArea.range

structure GrowsWithin (userRange : VirtRange) (address faultPage userSp guardGap growthStep spDistance : Nat)
    (areas : List VmArea) (growth : StackGrowth) : Prop extends Grows userRange faultPage areas growth where
  gap : ∃ front rest, areas = front ++ growth.oldArea :: rest ∧
    ∀ p, front.getLast? = some p → p.range.end_ + guardGap ≤ faultPage
  growDown : growth.oldArea.flags.growDown = true
  step : growth.oldArea.range.start ≤ faultPage + growthStep
  pointer : growth.oldArea.range.start ≤ userSp + growthStep ∧ userSp ≤ growth.oldArea.range.end_
  distance : userSp ≤ address + spDistance

theorem stackGrowthLoop_eq_ok (front : List VmArea)
    (h : stackGrowthLoop userRange address faultPage userSp guardGap growthStep spDistance front.getLast? areas =
      .ok growth) :
    GrowsWithin userRange address faultPage userSp guardGap growthStep spDistance (front ++ areas) growth := by
  induction areas generalizing front with
  | nil => cases h
  | cons area rest ih =>
    have hnext (hn : stackGrowthLoop userRange address faultPage userSp guardGap growthStep spDistance (some area) rest =
        .ok growth) : GrowsWithin userRange address faultPage userSp guardGap growthStep spDistance (front ++ area ::
        rest) growth := by
      have hg := ih (front ++ [area]) (by simpa using hn)
      rwa [List.append_assoc] at hg
    unfold stackGrowthLoop at h
    dsimp only at h
    split at h
    · exact hnext h
    rename_i hkind
    split at h
    · cases h
    rename_i stepLimit hstep
    split at h
    · exact hnext h
    rename_i howner
    split at h
    · exact hnext h
    rename_i hpage
    split at h
    · cases h
    rename_i spLimit hsp
    split at h
    · exact hnext h
    rename_i hfault
    split at h
    · cases h
    rename_i hmin
    split at h
    · exact hnext h
    rename_i hclear
    split at h
    · cases h
    rename_i range hrange
    split at h
    · exact hnext h
    rename_i huser
    obtain rfl := (Except.ok.inj h).symm
    obtain ⟨hs, he⟩ := VirtRange.new_eq_some.1 hrange
    obtain ⟨hlow, rfl⟩ := checkedSub_eq_some.1 hstep
    obtain ⟨-, rfl⟩ := checkedSub_eq_some.1 hsp
    rw [not_or, not_or, not_not] at hkind
    have hgap : ∀ p, front.getLast? = some p → p.range.end_ + guardGap ≤ faultPage := by
      intro p hp
      rw [hp] at hmin hclear
      cases hadd : checkedAdd p.range.end_ guardGap with
      | none => exact absurd (by simp [hadd]) hmin
      | some start =>
        have hlt : ¬faultPage < start := by simpa [hadd] using hclear
        have := (checkedAdd_eq_some.1 hadd).2
        omega
    have hstart := area.range.start_le_end
    refine ⟨⟨⟨front, rest, rfl, fun p hp => ?_⟩, hkind.1, Nat.not_le.1 hkind.2.2, ⟨rfl, rfl⟩, hs, he, rfl, not_not.1 huser⟩,
      ⟨front, rest, rfl, hgap⟩, by simpa using hkind.2.1, ?_, ?_, ?_⟩
    · exact Nat.le_trans (Nat.le_add_right _ _) (hgap p hp)
    · dsimp only
      omega
    · dsimp only
      rw [not_not] at howner
      rcases howner with howner | howner | howner
      · omega
      · have := howner.1
        have := howner.2
        omega
      · omega
    · omega

def PlanFits (s : UserAddressSpace) (fault : PageFault) : UserFaultPlan → Prop
  | .mapAnonymous area page => s.layout.findArea fault.address = some area ∧ page = fault.address - fault.address % 4096
  | .growStack growth => s.layout.findArea fault.address = none ∧
      Grows s.layout.userRange (fault.address - fault.address % 4096) s.layout.areas.areas growth
  | .spurious area => s.layout.findArea fault.address = some area ∧ fault.present = true
  | .segmentationViolation => s.layout.findArea fault.address = none
  | .copyOnWriteUnsupported area => s.layout.findArea fault.address = some area ∧ area.flags.copyOnWrite = true
  | .protectionViolation area => s.layout.findArea fault.address = some area ∧ accessAllowed area.flags fault.access = false
  | .kernelBug => ∃ area, s.layout.findArea fault.address = some area ∧ ¬area.kind.Plain

theorem planUserFault_eq_ok {plan : UserFaultPlan} (hsource : fault.source = .user)
    (h : s.planUserFault fault userSp = .ok plan) : PlanFits s fault plan := by
  unfold planUserFault planUserFaultWithLimits at h
  rw [if_neg (not_not.2 hsource)] at h
  simp only [PageFault.resolve, hsource, alignDown_pageSize] at h
  cases hfind : s.layout.findArea fault.address with
  | none =>
    simp only [hfind] at h
    split at h
    · rename_i growth hgrowth
      cases h
      unfold planStackGrowth at hgrowth
      rw [alignDown_pageSize] at hgrowth
      exact ⟨hfind, (stackGrowthLoop_eq_ok [] hgrowth).toGrows⟩
    · cases h
      exact hfind
    · cases h
  | some area =>
    simp only [hfind] at h
    by_cases hcow : fault.present ∧ fault.access = .write ∧ area.flags.copyOnWrite
    · rw [if_pos hcow] at h
      cases h
      exact ⟨hfind, hcow.2.2⟩
    rw [if_neg hcow] at h
    cases hallowed : accessAllowed area.flags fault.access with
    | false =>
      rw [hallowed] at h
      cases h
      exact ⟨hfind, hallowed⟩
    | true =>
      rw [hallowed, if_neg (by simp)] at h
      by_cases hpresent : fault.present
      · rw [if_pos hpresent] at h
        cases h
        exact ⟨hfind, hpresent⟩
      rw [if_neg hpresent] at h
      cases hkind : area.kind with
      | anonymous | heap | stack =>
        rw [hkind] at h
        cases h
        exact ⟨hfind, rfl⟩
      | fileBacked object offset =>
        rw [hkind] at h
        dsimp only at h
        cases hadd : checkedAdd offset (fault.address - area.range.start) with
        | none =>
          rw [hadd] at h
          cases h
        | some _ =>
          rw [hadd] at h
          cases h
          exact ⟨hfind, rfl⟩
      | device _ | ioRemap _ | kernel | vmalloc =>
        rw [hkind] at h
        cases h
        exact ⟨area, hfind, by rw [hkind]; exact id⟩

/-! ### Growing a stack -/

theorem Grows.mem (hg : Grows userRange faultPage areas growth) : growth.oldArea ∈ areas := by
  obtain ⟨front, rest, hareas, -⟩ := hg.split
  rw [hareas]
  exact List.mem_append_right _ List.mem_cons_self

theorem end_le_last {front : List VmArea} (hp : front.Pairwise VmAreaSet.Before) {a : VmArea} (ha : a ∈ front) :
    ∃ last, front.getLast? = some last ∧ a.range.end_ ≤ last.range.end_ := by
  obtain ⟨last, hlast⟩ : ∃ last, front.getLast? = some last := ⟨_, List.getLast?_eq_some_getLast (List.ne_nil_of_mem ha)⟩
  refine ⟨last, hlast, ?_⟩
  obtain ⟨init, rfl⟩ := List.getLast?_eq_some_iff.1 hlast
  rcases List.mem_append.1 ha with ha | ha
  · have := ((List.pairwise_append.1 hp).2.2 a ha last (List.mem_singleton_self last)).1
    have := last.range.start_le_end
    omega
  · rw [List.mem_singleton.1 ha]

section growth
variable (h : s.layout.Sound capacity) (hg : Grows s.layout.userRange faultPage s.layout.areas.areas growth)
include h hg

theorem Grows.clear {a : VmArea} (ha : a ∈ s.layout.areas.areas) (hne : a ≠ growth.oldArea) :
    ¬a.range.overlaps growth.newArea.range := by
  obtain ⟨front, rest, hareas, hfront⟩ := hg.split
  have hordered := h.ordered
  rw [hareas] at ha hordered
  obtain ⟨hpf, hpr, hpfr⟩ := List.pairwise_append.1 hordered.pairwise
  rintro ⟨hlow, hhigh⟩
  rw [hg.end_] at hlow
  rw [hg.start] at hhigh
  rcases List.mem_append.1 ha with ha | ha
  · obtain ⟨last, hlast, hle⟩ := end_le_last hpf ha
    have := hfront last hlast
    omega
  · rcases List.mem_cons.1 ha with rfl | ha
    · exact hne rfl
    · have := ((List.pairwise_cons.1 hpr).1 a ha).1
      omega

theorem Grows.newValid (haligned : faultPage % 4096 = 0) : growth.newArea.Valid := by
  have hold := h.ordered.valid _ hg.mem
  have hne := hold.nonempty
  have hbelow := hg.below
  obtain ⟨hflags, -⟩ := hg.newArea
  refine ⟨?_, ?_, ?_, ?_, ?_, ?_⟩
  · rw [hg.start, hg.end_]
    omega
  · rw [hg.start]
    exact haligned
  · rw [hg.end_]
    exact hold.end_aligned
  · rw [hflags]
    exact hold.write_read
  · rw [hflags]
    exact hold.not_shared_private
  · rw [hflags]
    exact hold.cow_private

/-- A planned growth is always carried out. -/
theorem commitStackGrowth_spec (haligned : faultPage % 4096 = 0) : wp (commitStackGrowth capacity growth) s
    (fun _ t => ∃ layout, t = { s with layout := layout } ∧ layout.Sound capacity ∧
      ∀ x, layout.attr x = if growth.newArea.contains x then some (growth.newArea.flags, growth.newArea.kind)
      else s.layout.attr x)
    (fun _ _ => False) := by
  have hold := h.ordered.valid _ hg.mem
  have hunmap : wp (AddressSpace.unmapExact growth.oldArea.range) s.layout (fun _ _ => True) (fun _ _ => False) := by
    simp only [AddressSpace.unmapExact, AddressSpace.onAreas, wp_zoom]
    exact VmAreaSet.removeExact_ok ⟨_, hg.mem, rfl⟩
  simp only [commitStackGrowth, onLayout, wp_bind, wp_zoom]
  refine ((AddressSpace.unmapExact_spec h).and hunmap).mono ?_ fun _ _ hf => hf.2
  rintro removed layout ⟨⟨hmem, hrange, hlength, hsound, -, hattr⟩, -⟩
  have hremoved : removed = growth.oldArea := by
    have hstart : growth.oldArea.contains growth.oldArea.range.start := ⟨Nat.le_refl _, hold.nonempty⟩
    have h₁ := h.findArea_eq_some.2 ⟨hg.mem, hstart⟩
    have h₂ := h.findArea_eq_some.2 ⟨hmem, show removed.range.contains growth.oldArea.range.start by
      rw [hrange]; exact hstart⟩
    exact Option.some.inj (h₂.symm.trans h₁)
  -- With the old area gone, nothing is in the way of the new one.
  have hfree : ∀ a ∈ layout.areas.areas, ¬a.range.overlaps growth.newArea.range := by
    rintro a ha ⟨hlow, hhigh⟩
    have hvalid := hsound.ordered.valid a ha
    have hne := hvalid.nonempty
    have hnew := (Grows.newValid h hg haligned).nonempty
    obtain ⟨x, hax, hnx⟩ : ∃ x, a.contains x ∧ growth.newArea.contains x := by
      refine ⟨max a.range.start growth.newArea.range.start, ⟨Nat.le_max_left _ _, ?_⟩, ⟨Nat.le_max_right _ _, ?_⟩⟩
      · exact Nat.max_lt.2 ⟨hne, hhigh⟩
      · exact Nat.max_lt.2 ⟨hlow, hnew⟩
    have hx := hattr x
    rw [hsound.attr_of_findArea (hsound.findArea_eq_some.2 ⟨ha, hax⟩)] at hx
    split_ifs at hx with hin
    rw [h.attr_eq] at hx
    obtain ⟨b, hb, -⟩ := Option.map_eq_some_iff.1 hx.symm
    obtain ⟨hbmem, hbx⟩ := h.findArea_eq_some.1 hb
    refine Grows.clear h hg hbmem (fun heq => hin (heq ▸ hbx)) ⟨?_, ?_⟩
    · exact Nat.lt_of_le_of_lt hbx.1 hnx.2
    · exact Nat.lt_of_le_of_lt hnx.1 hbx.2
  have hmaps : AddressSpace.Maps capacity true growth.newArea layout := by
    refine ⟨?_, .of_free (Grows.newValid h hg haligned) hfree ?_⟩
    · rw [hsound.user, ← h.user]
      exact hg.user
    · have := h.ordered.bounded
      omega
  have hheap : growth.newArea.kind ≠ .heap := by
    rw [hg.newArea.2, hg.stack]
    exact fun hk => (by cases hk)
  have hmap : wp (AddressSpace.mapArea capacity true growth.newArea) layout _ _ :=
    (AddressSpace.mapArea_spec hsound fun hk => absurd hk hheap).and AddressSpace.mapArea_maps
  rw [if_neg (not_not.2 hremoved), wp_bind, wp_get]
  cases hrun : AddressSpace.mapArea capacity true growth.newArea layout with
  | error e t => exact absurd hmaps (hmap.error hrun).2
  | ok a t =>
    obtain ⟨-, -, -, ht, -, hattr'⟩ := (hmap.ok hrun).1
    simp only [wp_set]
    refine ⟨t, rfl, ht, fun x => ?_⟩
    rw [hattr' x, hattr x]
    by_cases hx : growth.newArea.contains x
    · rw [if_pos hx, if_pos hx]
    · rw [if_neg hx, if_neg hx, if_neg fun hin => hx ⟨?_, ?_⟩]
      · have := hg.below
        rw [hg.start]
        exact Nat.le_trans (Nat.le_of_lt this) hin.1
      · rw [hg.end_]
        exact hin.2

end growth

theorem planPostInstallTlb_spec {page : Nat} : wp (planPostInstallTlb page) s
    (fun _ t => s.tlbGeneration + 1 < usizeLimit ∧ t = { s with tlbGeneration := s.tlbGeneration + 1 })
    (fun e t => e.IsError ∧ ¬s.tlbGeneration + 1 < usizeLimit ∧ t = s) := by
  simp only [planPostInstallTlb, alignDown_pageSize, wp_bind, wp_okOr, wp_get]
  refine ⟨fun page _ => ?_, fun h => (by cases h)⟩
  refine (UserMm.planTlbRequest_spec rfl).mono (fun _ _ h => h) ?_
  rintro e t ⟨rfl, h⟩
  exact ⟨⟨_, rfl⟩, h⟩

end UserAddressSpace

namespace UserMm

variable {s t u : UserMmState} {address userSp cpu : Nat} {access : FaultAccess} {area : VmArea} {growth : StackGrowth}

@[simp] theorem wp_translate {Q : Option Nat → UserMmState → Prop} {E : UserMmStop → UserMmState → Prop} :
    wp (translate address) s Q E ↔ (∀ physical, RuntimePageTable.translate s.table address = .ok physical → Q physical s) ∧
      ∀ e, RuntimePageTable.translate s.table address = .error e → E (.error (.pageTable e)) s := by
  simp only [translate, wp_bind, wp_get]
  cases RuntimePageTable.translate s.table address <;> simp

def Answers (address : Nat) (access : FaultAccess) (s t : UserMmState) : UserFaultResolution → Prop
  | .recovered _ => ∃ y, view t.table (.containingAddress address) = some y
  | .fatal _ => ∀ f k, attr s address = some (f, k) → SudoOS.accessAllowed f access = false

def numbered (s : UserMmState) : UserMmState := { s with core := { s.core with tlbGeneration := s.core.tlbGeneration + 1 } }

theorem planPostInstall_spec {page : Nat} : wp (onCore (UserAddressSpace.planPostInstallTlb page)) s
    (fun _ t => s.core.tlbGeneration + 1 < usizeLimit ∧ t = numbered s)
    (fun e t => e.IsError ∧ ¬s.core.tlbGeneration + 1 < usizeLimit ∧ t = s) := by
  simp only [onCore, wp_zoom]
  refine UserAddressSpace.planPostInstallTlb_spec.mono ?_ ?_
  · rintro _ core ⟨h, rfl⟩
    exact ⟨h, rfl⟩
  · rintro _ core ⟨⟨e, rfl⟩, h, rfl⟩
    exact ⟨⟨_, rfl⟩, h, rfl⟩

theorem Inv.numbered (hs : Inv s) : Untouched s (numbered s) := by
  obtain ⟨place, hw⟩ := hs.backed.wf
  exact ⟨rfl, rfl, hw.updates⟩

theorem containingAddress_pageStart (x : Nat) : VirtPage.containingAddress (x - x % 4096) = .containingAddress x :=
  containingAddress_start (.containingAddress x)

theorem mapZeroPageLocked_congr {area' : VmArea} (h : area.flags = area'.flags) (x : Nat) :
    mapZeroPageLocked area x = mapZeroPageLocked area' x := by
  have hoptions : area.mappingOptions = area'.mappingOptions := by
    rw [VmArea.mappingOptions_eq, VmArea.mappingOptions_eq, h]
  unfold mapZeroPageLocked
  rw [hoptions]

/-- Between the page of the fault and the old stack nothing is mapped. -/
theorem Grows.attr_new (hs : Inv s)
    (hg : UserAddressSpace.Grows s.core.layout.userRange (address - address % 4096) s.core.layout.areas.areas growth)
      {x : Nat}
    (hx : growth.newArea.contains x) :
    attr s x = if growth.oldArea.contains x then some (growth.newArea.flags, growth.newArea.kind) else none := by
  split_ifs with hold
  · rw [hg.newArea.1, hg.newArea.2]
    exact hs.attr_of_findArea (hs.layout.findArea_eq_some.2 ⟨hg.mem, hold⟩)
  · rw [attr, hs.layout.attr_eq, Option.map_eq_none_iff, Option.eq_none_iff_forall_ne_some]
    intro a ha
    obtain ⟨hmem, hax⟩ := hs.layout.findArea_eq_some.1 ha
    refine UserAddressSpace.Grows.clear hs.layout hg hmem (fun heq => hold (heq ▸ hax)) ⟨?_, ?_⟩
    · exact Nat.lt_of_le_of_lt hax.1 hx.2
    · exact Nat.lt_of_le_of_lt hx.1 hax.2

/-- A stack has grown: the pages between the fault and the old area are mapped like it. -/
theorem commitStackGrowth_calm (hs : Inv s)
    (hg : UserAddressSpace.Grows s.core.layout.userRange (address - address % 4096) s.core.layout.areas.areas growth) :
    wp (onCore (UserAddressSpace.commitStackGrowth vmaCapacity growth)) s
      (fun _ t => ∃ layout, t = setLayout layout s ∧ Calm s t ∧
        ∀ x, attr t x = if growth.newArea.contains x then some (growth.newArea.flags, growth.newArea.kind) else attr s x)
      (fun _ _ => False) := by
  have haligned : (address - address % 4096) % 4096 = 0 := by omega
  simp only [onCore, wp_zoom]
  refine (UserAddressSpace.commitStackGrowth_spec hs.layout hg haligned).mono ?_ fun _ _ h => h
  rintro _ _ ⟨layout, rfl, hsound, hattr⟩
  have hold : attr s growth.oldArea.range.start = some (growth.newArea.flags, growth.newArea.kind) := by
    rw [hg.newArea.1, hg.newArea.2]
    have hvalid := hs.layout.ordered.valid _ hg.mem
    exact hs.attr_of_findArea (hs.layout.findArea_eq_some.2 ⟨hg.mem, Nat.le_refl _, hvalid.nonempty⟩)
  refine ⟨layout, rfl, hs.grow hsound (hs.lawful _ _ _ hold) (fun x hx => ?_) hattr, hattr⟩
  by_cases hin : growth.oldArea.contains x
  · exact .inr ((Grows.attr_new hs hg hx).trans (if_pos hin))
  · exact .inl ((Grows.attr_new hs hg hx).trans (if_neg hin))

/-- The areas are as they were again after a call that has not touched anything else. -/
theorem Untouched.calm_of_attr (hs : Inv s) {layout layout' : AddressSpace} (hu : Untouched (setLayout layout s) t)
    (hlayout : layout'.Sound vmaCapacity) (hattr : ∀ x, layout'.attr x = UserMm.attr s x) :
      Calm s (setLayout layout' t) := by
  have hkept : Kept s (setLayout layout' t) := by
    refine ⟨hu.backed hs.backed, ⟨[], ?_⟩, fun m _ => ?_, fun m _ => hattr _⟩
    · exact .of_eq hu.pages.symm
    · exact congrFun hu.table.view_eq m.page
  refine hkept.outcome (hkept.inv hs hlayout fun x f k hf => hs.lawful x f k ((hattr x).symm.trans hf)) fun x v hv _ => ?_
  exact (hattr x).trans hv

theorem Grows.findArea {range : VirtRange} {areas : List VmArea} {layout : AddressSpace}
    (hg : UserAddressSpace.Grows range (address - address % 4096) areas growth) (hs : Inv (setLayout layout s))
    (hattr : ∀ x, attr (setLayout layout s) x =
      if growth.newArea.contains x then some (growth.newArea.flags, growth.newArea.kind) else attr s x) :
    ∃ area, (setLayout layout s).core.layout.findArea growth.faultPage = some area ∧ growth.newArea.flags = area.flags := by
  have hin : growth.newArea.contains growth.faultPage := by
    have := hg.below
    have := growth.oldArea.range.start_le_end
    refine ⟨?_, ?_⟩
    · rw [hg.start, hg.page]
    · rw [hg.end_, hg.page]
      omega
  have hpage := hattr growth.faultPage
  rw [if_pos hin, attr, hs.layout.attr_eq] at hpage
  obtain ⟨area, harea, heq⟩ := Option.map_eq_some_iff.1 hpage
  exact ⟨area, harea, (Prod.mk.inj heq).1.symm⟩

/-- A stack that grew for nothing is put back, if that is possible. -/
theorem growth_undone {e : UserMmStop} {layout : AddressSpace} (hs : Inv s)
    (hg : UserAddressSpace.Grows s.core.layout.userRange (address - address % 4096) s.core.layout.areas.areas growth)
    (hattr : ∀ x, attr (setLayout layout s) x =
      if growth.newArea.contains x then some (growth.newArea.flags, growth.newArea.kind) else attr s x)
    (hsound : layout.Sound vmaCapacity) (ht : Untouched (setLayout layout s) t) :
    wp (do
      let removed ← expectLayout .growthLostArea (AddressSpace.unmapExact growth.newArea.range)
      require (removed = growth.newArea) .growthRemovedOther
      expectLayout .growthLostStack (AddressSpace.mapArea vmaCapacity true growth.oldArea)
      throw e : UserMmM (UserFaultResolution × Option PerMmTlbRequest)) t (fun _ _ => False)
      (fun e t => e.IsError → Calm s t) := by
  have hpanic : ∀ (p : UserMmPanic) {u : UserMmState}, (Stop.panic p : UserMmStop).IsError → Calm s u := by
    rintro p u ⟨_, he⟩
    cases he
  simp only [wp_bind, expectLayout, wp_zoom, wp_require, wp_throw, ht.layout]
  refine (AddressSpace.unmapExact_spec hsound).mono ?_ fun _ _ _ => hpanic _
  rintro removed layout₁ ⟨-, -, -, hsound₁, -, hattr₁⟩
  refine ⟨fun _ => ?_, fun _ => hpanic _⟩
  have hheap : growth.oldArea.kind ≠ .heap := by
    rw [hg.stack]
    exact fun hk => (by cases hk)
  refine (AddressSpace.mapArea_spec hsound₁ fun hk => absurd hk hheap).mono ?_ fun _ _ _ => hpanic _
  rintro _ layout₂ ⟨-, -, -, hsound₂, -, hattr₂⟩ -
  refine (Untouched.calm_of_attr hs ht hsound₂ fun x => ?_ : Calm s (setLayout layout₂ t))
  rw [hattr₂ x, hattr₁ x]
  by_cases hold : growth.oldArea.contains x
  · rw [if_pos hold]
    exact (hs.attr_of_findArea (hs.layout.findArea_eq_some.2 ⟨hg.mem, hold⟩)).symm
  rw [if_neg hold]
  by_cases hnew : growth.newArea.contains x
  · exact (if_pos hnew).trans ((Grows.attr_new hs hg hnew).trans (if_neg hold)).symm
  · exact (if_neg hnew).trans ((hattr x).trans (if_neg hnew))

/-- Whatever is done about a fault leaves what was mapped alone. -/
theorem resolveLocked_spec (hs : Inv s) : wp (resolveLocked address access userSp) s
    (fun r t => Calm s t ∧ Answers address access s t r.1) (fun e t => e.IsError → Calm s t) := by
  simp only [resolveLocked, wp_bind, wp_translate, wp_get]
  refine ⟨fun physical htranslate => ?_, fun _ _ _ => .refl hs⟩
  cases hplan : UserAddressSpace.planUserFault s.core ⟨address, access, .user, physical.isSome⟩ userSp with
  | error e => exact wp_throw.2 fun _ => .refl hs
  | ok plan =>
    have hfits := UserAddressSpace.planUserFault_eq_ok rfl hplan
    cases plan with
    | mapAnonymous area page =>
      obtain ⟨hfind, rfl⟩ : s.core.layout.findArea address = some area ∧ page = address - address % 4096 := hfits
      have hpage : (numbered s).core.layout.findArea (address - address % 4096) = some area := by
        rw [hs.layout.findArea_eq_some] at hfind
        exact hs.layout.findArea_eq_some.2 ⟨hfind.1,
          (VmAreaSet.Valid.contains_page (hs.layout.ordered.valid _ hfind.1)).2 hfind.2⟩
      have hcalm : Calm s (numbered s) := hs.numbered.outcome hs
      simp only [wp_bind]
      refine planPostInstall_spec.mono ?_ ?_
      · rintro request _ ⟨-, rfl⟩
        refine (mapZeroPageLocked_calm hcalm.inv hpage).mono ?_ ?_
        · rintro _ t ⟨ht, -, y, hy, -⟩
          rw [containingAddress_pageStart] at hy
          exact wp_pure.2 ⟨hcalm.trans ht, y, hy⟩
        · rintro e t ⟨-, ht, -⟩ -
          exact hcalm.trans ht
      · rintro e _ ⟨-, -, rfl⟩ -
        exact .refl hs
    | growStack growth =>
      have hg : UserAddressSpace.Grows s.core.layout.userRange
          (address - address % 4096) s.core.layout.areas.areas growth :=
        hfits.2
      have hcalm : Calm s (numbered s) := hs.numbered.outcome hs
      simp only [wp_bind]
      refine planPostInstall_spec.mono ?_ ?_
      · rintro request _ ⟨-, rfl⟩
        refine (commitStackGrowth_calm hcalm.inv hg).mono ?_ fun _ _ h => h.elim
        rintro _ _ ⟨layout, rfl, hgrown, hattr⟩
        obtain ⟨area, hfind, hflags⟩ := Grows.findArea hg hgrown.inv hattr
        rw [wp_attempt, mapZeroPageLocked_congr hflags]
        refine (mapZeroPageLocked_calm hgrown.inv hfind).mono ?_ ?_
        · rintro _ t ⟨ht, -, y, hy, -⟩
          rw [hg.page, containingAddress_pageStart] at hy
          exact wp_pure.2 ⟨(hcalm.trans hgrown).trans ht, y, hy⟩
        · rintro e t ⟨-, -, ht⟩
          exact (growth_undone hcalm.inv hg hattr hgrown.inv.layout ht).mono (fun _ _ h => h.elim) fun _ _ h he =>
            hcalm.trans (h he)
      · rintro e _ ⟨-, -, rfl⟩ -
        exact .refl hs
    | spurious area =>
      obtain ⟨hfind, hpresent⟩ : s.core.layout.findArea address = some area ∧ physical.isSome = true := hfits
      have hcalm : Calm s (numbered s) := hs.numbered.outcome hs
      rw [hs.backed.translate (hs.userAddress hfind)] at htranslate
      obtain rfl := Except.ok.inj htranslate
      obtain ⟨y, hy⟩ := Option.isSome_iff_exists.1 ((Option.isSome_map ..).symm.trans hpresent)
      simp only [wp_bind]
      refine planPostInstall_spec.mono ?_ ?_
      · rintro request _ ⟨-, rfl⟩
        exact wp_pure.2 ⟨hcalm, y, hy⟩
      · rintro e _ ⟨-, -, rfl⟩ -
        exact .refl hs
    | copyOnWriteUnsupported area =>
      obtain ⟨hfind, hcow⟩ := hfits
      have hlawful := (hs.lawful _ _ _ (hs.attr_of_findArea hfind)).1.not_copyOnWrite
      rw [hcow] at hlawful
      cases hlawful
    | protectionViolation area =>
      obtain ⟨hfind, hdenied⟩ := hfits
      refine wp_pure.2 ⟨.refl hs, fun f k hf => ?_⟩
      rw [hs.attr_of_findArea hfind] at hf
      cases hf
      exact hdenied
    | segmentationViolation =>
      refine wp_pure.2 ⟨.refl hs, fun f k hf => ?_⟩
      rw [attr, hs.layout.attr_eq, show s.core.layout.findArea address = none from hfits] at hf
      cases hf
    | kernelBug =>
      obtain ⟨area, hfind, hkind⟩ := hfits
      exact absurd (hs.lawful _ _ _ (hs.attr_of_findArea hfind)).2 hkind

theorem resolveUserFault_spec (hs : Inv s) : wp (resolveUserFault cpu address access userSp) s
    (fun r t => Calm s t ∧ Answers address access s t r) (fun e t => e.IsError → Calm s t) := by
  simp only [resolveUserFault, wp_bind]
  refine (resolveLocked_spec hs).mono ?_ fun _ _ h => h
  rintro ⟨resolution, request⟩ t ⟨hcalm, hanswers⟩
  cases request with
  | none => exact wp_pure.2 ⟨hcalm, hanswers⟩
  | some request =>
    dsimp only
    cases request.localOnly cpu with
    | ok _ => exact wp_pure.2 ⟨hcalm, hanswers⟩
    | error e => exact wp_throw.2 fun _ => hcalm

end UserMm

end SudoOS
