import SudoOS.Theorems.UserMmRun

/-! What the kernel reads from a program's memory. -/

namespace SudoOS

open Program RuntimePageTable

namespace UserMm

variable {s t : UserMmState} {address length low high x y : Nat} {access : FaultAccess}

def Resident (s : UserMmState) (x : Nat) : Prop := view s.table (.containingAddress x) ≠ none

/-- The byte that the program loads: the one in the frame of its page, or that of the zeroed frame which the fault
provides. -/
def loadedByte (s : UserMmState) (x : Nat) : Nat :=
  match view s.table (.containingAddress x) with
  | some leaf => s.table.loadByte (leaf.1 * 4096 + x % 4096)
  | none => 0

theorem loadedByte_of_view {leaf : Nat × PageTableEntry.Rights} (h : view s.table (.containingAddress x) = some leaf) :
    loadedByte s x = s.table.loadByte (leaf.1 * 4096 + x % 4096) := by
  rw [loadedByte, h]

theorem containingAddress_eq (h : x - x % 4096 = y - y % 4096) : VirtPage.containingAddress x = .containingAddress y := by
  rw [← containingAddress_pageStart x, h, containingAddress_pageStart]

theorem le_of_checkedAdd_eq_none (h : checkedAdd x y = none) : usizeLimit ≤ x + y := by
  unfold checkedAdd at h
  split_ifs at h with hlt
  exact Nat.not_lt.1 hlt

/-! ### The loops -/

theorem Allows.findArea (h : Allows access low high s) (hs : Inv s) (hlow : low ≤ x) (hhigh : x < high) :
    ∃ area, s.core.layout.findArea x = some area ∧ accessAllowed area.flags access = true := by
  obtain ⟨f, k, hattr, hallowed⟩ := h x hlow hhigh
  rw [attr, hs.layout.attr_eq] at hattr
  obtain ⟨area, hfind, heq⟩ := Option.map_eq_some_iff.1 hattr
  cases heq
  exact ⟨area, hfind, hallowed⟩

/-- The user half ends far below the largest address, so there always is a next page. -/
theorem wp_nextPage {cursor : Nat} {Q : Nat → UserMmState → Prop} {E : UserMmStop → UserMmState → Prop}
    (huser : cursor < userEnd) : wp (nextPage cursor) s Q E ↔ Q (cursor - cursor % 4096 + 4096) s := by
  refine wp_okOr_of_eq (checkedAdd_eq_some.2 ⟨?_, rfl⟩)
  unfold userEnd at huser
  unfold pageSize usizeLimit
  omega

theorem validateLoop_allowed {fuel cursor end_ : Nat} (hs : Inv s) (hallows : Allows access cursor end_ s)
    (huser : end_ ≤ userEnd) : wp (validateLoop access end_ fuel cursor) s (fun _ t => t = s) (fun _ _ => False) := by
  induction fuel generalizing cursor with
  | zero => exact wp_pure.2 rfl
  | succ fuel ih =>
    simp only [validateLoop, wp_ite, wp_bind, wp_get, wp_okOr, wp_throw, wp_pure]
    refine ⟨fun hlt => ?_, fun _ => trivial⟩
    obtain ⟨area, hfind, hallowed⟩ := hallows.findArea hs (Nat.le_refl _) hlt
    refine ⟨?_, fun hnone => by cases hnone.symm.trans hfind⟩
    intro found hfound
    cases hfound.symm.trans hfind
    rw [wp_nextPage (hlt.trans_le huser)]
    exact ⟨fun hdenied => by simp [hallowed] at hdenied, fun _ => ih fun x hlow hhigh => hallows x (by omega) hhigh⟩

/-- The check of the pages finds out whether all of them are there. -/
theorem mappedLoop_iff {fuel cursor end_ : Nat} (hs : Inv s) (hfuel : end_ ≤ cursor + fuel) (huser : end_ ≤ userEnd) :
    wp (mappedLoop end_ fuel cursor) s
      (fun mapped t => t = s ∧ (mapped = true ↔ ∀ x, cursor ≤ x → x < end_ → Resident s x)) (fun _ _ => False) := by
  induction fuel generalizing cursor with
  | zero => exact wp_pure.2 ⟨rfl, iff_of_true rfl fun x _ _ => by omega⟩
  | succ fuel ih =>
    simp only [mappedLoop, wp_ite, wp_bind, wp_translate, wp_pure]
    refine ⟨fun hlt => ?_, fun hge => ⟨trivial, iff_of_true trivial fun x _ _ => by omega⟩⟩
    rw [hs.backed.translate (hlt.trans_le huser)]
    refine ⟨?_, fun e he => by cases he⟩
    rintro physical hphysical
    obtain rfl := Except.ok.inj hphysical
    rw [Option.isNone_map, wp_nextPage (hlt.trans_le huser)]
    refine ⟨fun hnone => ⟨trivial, iff_of_false (fun h => by cases h) fun hall => ?_⟩, fun hsome => ?_⟩
    · exact hall cursor (Nat.le_refl _) hlt (Option.isNone_iff_eq_none.1 hnone)
    · refine (ih (by omega)).mono ?_ fun _ _ h => h
      rintro mapped t ⟨rfl, hmapped⟩
      refine ⟨rfl, hmapped.trans ⟨fun hall x hlow hhigh => ?_, fun hall x hlow hhigh => hall x (by omega) hhigh⟩⟩
      by_cases hx : x < min (cursor - cursor % 4096 + 4096) end_
      · -- up to the end of the page, what is there is what is at the cursor
        have hpage : VirtPage.containingAddress x = .containingAddress cursor := containingAddress_eq (by omega)
        rw [Resident, hpage]
        exact fun hnone => hsome (Option.isNone_iff_eq_none.2 hnone)
      · exact hall x (by omega) hhigh

theorem loadLoop_eq {fuel : Nat} {read : List Nat} (hs : Inv s) (hfuel : length ≤ fuel) (huser : address + length ≤ userEnd)
    (hresident : ∀ x, address ≤ x → x < address + length → Resident s x) : wp (loadLoop fuel address length read) s
      (fun bytes t => t = s ∧ bytes = read ++ (List.range length).map fun i => loadedByte s (address + i))
      (fun _ _ => False) := by
  have hend : userEnd = 0x4000000000 := rfl
  induction fuel generalizing address length read with
  | zero =>
    obtain rfl : length = 0 := by omega
    exact wp_pure.2 ⟨rfl, (List.append_nil _).symm⟩
  | succ fuel ih =>
    simp only [loadLoop, wp_ite, wp_pure, wp_bind, wp_translate, wp_okOr, wp_get, wp_throw]
    refine ⟨fun hzero => ⟨trivial, by rw [hzero, List.range_zero, List.map_nil, List.append_nil]⟩, fun hpos => ?_⟩
    rw [hs.backed.translate (show address < userEnd by omega)]
    refine ⟨?_, fun e he => by cases he⟩
    rintro physical hphysical
    obtain rfl := Except.ok.inj hphysical
    obtain ⟨leaf, hleaf⟩ := Option.ne_none_iff_exists'.1 (hresident address (Nat.le_refl _) (by omega))
    rw [hleaf, Option.map_some]
    refine ⟨?_, fun hnone => by cases hnone⟩
    rintro physical ⟨⟩
    have hram : s.table.ram ((leaf.1 * 4096 + address % 4096) / pageSize) = true := by
      have hframe : (leaf.1 * 4096 + address % 4096) / pageSize = leaf.1 := by
        unfold pageSize
        omega
      rw [hframe]
      exact (hs.backed.frames _ (hs.backed.leaf _ leaf.1 leaf.2 hleaf)).2
    refine ⟨fun _ => ⟨fun next hnext => ?_, fun hnone => ?_⟩, fun hnot => hnot hram⟩
    · have hnext' := (checkedAdd_eq_some.1 hnext).2
      obtain ⟨size, hsize⟩ : ∃ size, min (pageSize - address % pageSize) length = size := ⟨_, rfl⟩
      have hsize' := hsize
      unfold pageSize at hsize'
      rw [hsize] at hnext' ⊢
      refine (ih (by omega) (by omega) fun x hlow hhigh => hresident x (by omega) (by omega)).mono ?_ fun _ _ h => h
      rintro bytes t ⟨rfl, rfl⟩
      refine ⟨rfl, ?_⟩
      have hsplit : List.range length = List.range size ++ (List.range (length - size)).map (size + ·) := by
        rw [← List.range_add, Nat.add_sub_cancel' (by omega)]
      have hhead : ((List.range size).map fun i => t.table.loadByte (leaf.1 * 4096 + address % 4096 + i)) =
          (List.range size).map fun i => loadedByte t (address + i) := by
        refine List.map_congr_left fun i hi => ?_
        have hi := List.mem_range.1 hi
        have hpage : VirtPage.containingAddress (address + i) = .containingAddress address :=
          containingAddress_eq (by omega)
        rw [loadedByte_of_view (hpage ▸ hleaf)]
        exact congrArg _ (by omega)
      rw [hsplit, List.map_append, List.map_map, hhead, List.append_assoc]
      refine congrArg (fun rest => read ++ (_ ++ rest)) (List.map_congr_left fun i _ => congrArg _ ?_)
      show next + i = address + (size + i)
      omega
    · have hover := le_of_checkedAdd_eq_none hnone
      have hlimit : usizeLimit = 2 ^ 64 := rfl
      omega

/-! ### A load of the program -/

theorem loadByte_of_zero {table : PageTableState} {frame : Nat} (h : ∀ i, table.entry frame i = 0) (x : Nat) :
    table.loadByte (frame * 4096 + x % 4096) = 0 := by
  have hframe : (frame * 4096 + x % 4096) / pageSize = frame := by
    unfold pageSize
    omega
  rw [PageTableState.loadByte, hframe, h, Nat.zero_div, Nat.zero_mod]

theorem Resident.of_view {leaf : Nat × PageTableEntry.Rights} (h : view s.table (.containingAddress x) = some leaf) :
    Resident s x :=
  fun hnone => nomatch hnone.symm.trans h

/-- A page that the fault provides, or finds, holds the byte that was to be loaded. -/
theorem mapZeroPageLocked_loads {area : VmArea} (hs : Inv s) (hx : x < userEnd) :
    wp (mapZeroPageLocked area (x - x % 4096)) s (fun _ t => Resident t x ∧ loadedByte t x = loadedByte s x)
      (fun _ _ => True) := by
  refine (mapZeroPageLocked_spec hs.backed (show x - x % 4096 < userEnd by omega)).mono ?_ fun _ _ _ => trivial
  simp only [containingAddress_pageStart]
  rintro physical t (⟨rfl, leaf, hleaf, -⟩ | ⟨frame, h, -⟩)
  · exact ⟨.of_view hleaf, rfl⟩
  · have hleaf : view t.table (.containingAddress x) = some (frame, PageTableEntry.optionsRights area.mappingOptions) := by
      rw [h.table.view_eq, Function.update_self]
    refine ⟨.of_view hleaf, ?_⟩
    rw [loadedByte_of_view hleaf, loadByte_of_zero h.zero, loadedByte, h.absent]

theorem resolveLocked_loads {userSp : Nat} (hs : Inv s) (hallows : Allows .read low high s) (hlow : low ≤ x)
    (hhigh : x < high) : wp (resolveLocked x .read userSp) s
      (fun r t => (∃ recovery, r.1 = .recovered recovery) ∧ Resident t x ∧ loadedByte t x = loadedByte s x)
      (fun _ _ => True) := by
  obtain ⟨area, hfind, hallowed⟩ := hallows.findArea hs hlow hhigh
  have hx := hs.userAddress hfind
  simp only [resolveLocked, wp_bind, wp_translate, wp_get]
  refine ⟨fun physical htranslate => ?_, fun _ _ => trivial⟩
  cases hplan : UserAddressSpace.planUserFault s.core ⟨x, .read, .user, physical.isSome⟩ userSp with
  | error e => exact wp_throw.2 trivial
  | ok plan =>
    have hfits := UserAddressSpace.planUserFault_eq_ok rfl hplan
    have hnumbered : Inv (numbered s) := hs.numbered.inv hs
    cases plan with
    | mapAnonymous found page =>
      obtain ⟨-, rfl⟩ : s.core.layout.findArea x = some found ∧ page = x - x % 4096 := hfits
      simp only [wp_bind]
      refine planPostInstall_spec.mono ?_ fun _ _ _ => trivial
      rintro request _ ⟨-, rfl⟩
      exact (mapZeroPageLocked_loads hnumbered hx).mono (fun _ _ h => wp_pure.2 ⟨⟨_, rfl⟩, h⟩) fun _ _ h => h
    | spurious found =>
      obtain ⟨-, hpresent⟩ : s.core.layout.findArea x = some found ∧ physical.isSome = true := hfits
      rw [hs.backed.translate hx] at htranslate
      obtain rfl := Except.ok.inj htranslate
      obtain ⟨leaf, hleaf⟩ := Option.isSome_iff_exists.1 ((Option.isSome_map ..).symm.trans hpresent)
      simp only [wp_bind]
      refine planPostInstall_spec.mono ?_ fun _ _ _ => trivial
      rintro request _ ⟨-, rfl⟩
      exact wp_pure.2 ⟨⟨_, rfl⟩, .of_view hleaf, rfl⟩
    -- an area that grants the access leaves no other plan
    | growStack growth => cases hfind.symm.trans hfits.1
    | copyOnWriteUnsupported found =>
      obtain ⟨hfound, hcow⟩ := hfits
      have hlawful := (hs.lawful _ _ _ (hs.attr_of_findArea hfound)).1.not_copyOnWrite
      cases hlawful.symm.trans hcow
    | protectionViolation found =>
      obtain ⟨hfound, hdenied⟩ := hfits
      cases hfind.symm.trans hfound
      cases hdenied.symm.trans hallowed
    | segmentationViolation => cases hfind.symm.trans hfits
    | kernelBug =>
      obtain ⟨found, hfound, hkind⟩ := hfits
      exact absurd (hs.lawful _ _ _ (hs.attr_of_findArea hfound)).2 hkind

theorem resolveUserFault_loads {cpu userSp : Nat} (hs : Inv s) (hallows : Allows .read low high s) (hlow : low ≤ x)
    (hhigh : x < high) : wp (resolveUserFault cpu x .read userSp) s
      (fun r t => (∃ recovery, r = .recovered recovery) ∧ Resident t x ∧ loadedByte t x = loadedByte s x)
      (fun _ _ => True) := by
  simp only [resolveUserFault, wp_bind]
  refine (resolveLocked_loads hs hallows hlow hhigh).mono ?_ fun _ _ _ => trivial
  rintro ⟨resolution, request⟩ t h
  cases request with
  | none => exact wp_pure.2 h
  | some request =>
    dsimp only
    cases request.localOnly cpu with
    | ok _ => exact wp_pure.2 h
    | error e => exact wp_throw.2 trivial

/-! ### The call -/

/-- The copy agrees with the program's own loads, and changes nothing. -/
def ReadAgrees (address length : Nat) (s : UserMmState) : Prop :=
  copyFromUser address length s = .ok ((List.range length).map fun i => loadedByte s (address + i)) s

theorem readAgrees_iff (hs : Inv s) (hallows : Allows .read address (address + length) s) :
    ReadAgrees address length s ↔ ∀ x, address ≤ x → x < address + length → Resident s x := by
  have hend : userEnd = 0x4000000000 := rfl
  have hlimit : usizeLimit = 2 ^ 64 := rfl
  obtain rfl | hpos := Nat.eq_zero_or_pos length
  · exact iff_of_true rfl fun x _ _ => by omega
  have huser := hallows.user hs hpos
  have hsum : checkedAdd address length = some (address + length) := checkedAdd_eq_some.2 ⟨by omega, rfl⟩
  have hrun : wp (copyFromUser address length) s
      (fun bytes t => t = s ∧ (∀ x, address ≤ x → x < address + length → Resident s x) ∧
        bytes = (List.range length).map fun i => loadedByte s (address + i))
      (fun _ _ => ¬∀ x, address ≤ x → x < address + length → Resident s x) := by
    simp only [copyFromUser, validateRange, validateMappedRange, wp_ite, wp_pure, wp_bind, wp_throw, wp_okOr_of_eq hsum]
    refine ⟨fun hzero => absurd hzero (by omega), fun _ => ⟨fun hle => absurd hle (by omega), fun _ => ?_⟩⟩
    refine (validateLoop_allowed hs hallows huser).mono ?_ fun _ _ h => h.elim
    rintro _ t rfl
    refine (mappedLoop_iff hs (Nat.le_refl _) huser).mono ?_ fun _ _ h => h.elim
    rintro mapped t ⟨rfl, hmapped⟩
    refine ⟨fun htrue => ?_, fun hfalse => fun hall => hfalse (hmapped.2 hall)⟩
    have hall := hmapped.1 htrue
    refine (loadLoop_eq hs (Nat.le_refl _) huser hall).mono ?_ fun _ _ h => h.elim
    rintro bytes t ⟨rfl, rfl⟩
    exact ⟨rfl, hall, List.nil_append _⟩
  constructor
  · intro hagrees
    exact (hrun.ok hagrees).2.1
  · intro hall
    cases hresult : copyFromUser address length s with
    | ok bytes t =>
      obtain ⟨rfl, -, rfl⟩ := hrun.ok hresult
      exact hresult
    | error e t => exact absurd hall (hrun.error hresult)

/-- For a range in readable areas: a load of the program at any of its addresses comes to the byte of `loadedByte`, and the
kernel's copy of the range to the same bytes exactly if all of its pages are resident. -/
theorem kernel_read_agrees_iff (h : system.Reachable s) (choices : List (Option Nat)) (reserves : List Bool)
    (hallows : Allows .read address (address + length) s) :
    (∀ x cpu userSp r t, address ≤ x → x < address + length →
      resolveUserFault cpu x .read userSp (answering choices reserves s) = .ok r t →
      (∃ recovery, r = .recovered recovery) ∧ Resident t x ∧ loadedByte t x = loadedByte s x) ∧
    (ReadAgrees address length s ↔ ∀ x, address ≤ x → x < address + length → Resident s x) := by
  have hs := inv_of_reachable h
  refine ⟨?_, readAgrees_iff hs hallows⟩
  intro x cpu userSp r t hlow hhigh hrun
  have hready : Inv (answering choices reserves s) := (answering_untouched hs choices reserves).inv hs
  have hallows' : Allows .read address (address + length) (answering choices reserves s) := hallows
  exact (resolveUserFault_loads hready hallows' hlow hhigh).ok hrun

/-- The first byte of the page of the address space, which the program has written to: a load of the program and a copy. -/
theorem kernel_read_agrees_iff_faulted : ∃ s, afterCalls [writeFault [some 2, some 3, some 4] [true, true]] = some s ∧
    (∃ r t, resolveUserFault 0 0x1000 .read 0x3000 (answering [] [] s) = .ok r t ∧
      loadedByte t 0x1000 = loadedByte s 0x1000) ∧
    ReadAgrees 0x1000 1 s := by
  have hrun : ((afterCalls [writeFault [some 2, some 3, some 4] [true, true]]).any fun s =>
      decide (attr s 0x1000 = some (.userRw, .anonymous)) && (view s.table (.containingAddress 0x1000)).isSome &&
      endsWith (fun _ _ => true) (resolveUserFault 0 0x1000 .read 0x3000 (answering [] [] s))) = true := by
    decide +kernel
  obtain ⟨s, hs, hend⟩ := (Option.any_eq_true _ _).1 hrun
  obtain ⟨hend, hresolved⟩ := Bool.and_eq_true_iff.1 hend
  obtain ⟨hattr, hview⟩ := Bool.and_eq_true_iff.1 hend
  obtain ⟨r, t, hok, -⟩ := endsWith_eq_true hresolved
  have hone : ∀ x, 0x1000 ≤ x → x < 0x1000 + 1 → x = 0x1000 := fun x _ _ => by omega
  have hagrees := kernel_read_agrees_iff (afterCalls_reachable hs) [] [] fun x (hlow : 0x1000 ≤ x) (hhigh : x < 0x1000 + 1) =>
    ⟨.userRw, .anonymous, hone x hlow hhigh ▸ of_decide_eq_true hattr, rfl⟩
  refine ⟨s, hs, ⟨r, t, hok, (hagrees.1 _ _ _ _ _ (Nat.le_refl _) (Nat.lt_succ_self _) hok).2.2⟩,
    hagrees.2.2 fun x hlow hhigh => ?_⟩
  rw [hone x hlow hhigh]
  exact fun hnone => by simp [hnone] at hview

/-- The same page before the program has touched it: the area may be read, and the copy fails. -/
theorem untouched_page_refused : ∃ s, system.Reachable s ∧ attr s 0x1000 = some (.userRw, .anonymous) ∧
    copyFromUser 0x1000 1 s = .error (.error .notMapped) s := by
  have hrun : ((afterCalls []).any fun s => decide (attr s 0x1000 = some (.userRw, .anonymous)) &&
      match copyFromUser 0x1000 1 s with
      | .error (.error .notMapped) _ => true
      | _ => false) = true := by decide +kernel
  obtain ⟨s, hs, hend⟩ := (Option.any_eq_true _ _).1 hrun
  obtain ⟨hattr, hrefused⟩ := Bool.and_eq_true_iff.1 hend
  have hreach := afterCalls_reachable hs
  refine ⟨s, hreach, of_decide_eq_true hattr, ?_⟩
  split at hrefused
  · rename_i t ht
    obtain ⟨-, rfl⟩ := (copyFromUser_spec (inv_of_reachable hreach)).error ht
    exact ht
  · cases hrefused

end UserMm

end SudoOS
