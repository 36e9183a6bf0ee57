import SudoOS.Mm.Vmalloc
import SudoOS.Theorems.FreeRange

/-! The live reservations of the kernel address space are the areas of the set, one for one. -/

namespace SudoOS

open Program

namespace VmAreaSet

variable {capacity : Nat} {s : VmAreaSet}

theorem insert_perm {reserve : Bool} {area : VmArea} (hw : Ordered capacity s.areas) (hkind : area.kind ≠ .anonymous) :
    wp (insert capacity reserve area) s (fun _ t => t.areas.Perm (area :: s.areas)) (fun _ _ => True) := by
  obtain ⟨lower, upper, hareas, hindex, -, -⟩ := insertionIndex_split hw area.range.start
  simp only [insert, wp_bind, wp_ofExcept, wp_get, wp_ite, wp_throw, implies_true, and_true, true_and, hkind, decide_false,
    Bool.false_eq_true, if_false, wp_set]
  intro _ _ _ _ _ _
  exact List.perm_insertIdx _ _ (by rw [hindex, hareas, List.length_append]; exact Nat.le_add_right _ _)

end VmAreaSet

namespace VmallocHistory

open VmAreaSet KernelVirtualAllocator

variable {capacity : Nat} {arena : VirtRange} {s t : VmallocHistory}

structure Placed (arena : VirtRange) (h : Nat × KernelVirtualReservation) : Prop where
  inside : arena.containsRange h.2.reserved
  below : h.2.usable.start = h.2.reserved.start + pageSize
  above : h.2.reserved.end_ = h.2.usable.end_ + pageSize
  aligned : max h.1 pageSize ∣ h.2.reserved.start
  power : isPowerOfTwo h.1 = true

structure Inv (arena : VirtRange) (capacity : Nat) (s : VmallocHistory) : Prop where
  window : s.allocator.arena = arena
  ordered : Ordered capacity s.allocator.areas.areas
  ranges : (s.allocator.areas.areas.map VmArea.range).Perm (s.live.map fun h => h.2.reserved)
  placed : ∀ h ∈ s.live, Placed arena h

theorem reserve_spec (memory : Bool) (size : Nat) (kind : VmallocKind) {alignment : Nat} (harena : arena.end_ < usizeLimit)
    (hpow : isPowerOfTwo alignment = true) (hlt : alignment < usizeLimit) (h : Inv arena capacity s) :
    wp (reserve capacity memory size alignment kind) s.allocator
      (fun r a => Inv arena capacity ⟨a, (alignment, r) :: s.live⟩) (fun _ a => a = s.allocator) := by
  simp only [reserve, wp_bind, wp_okOr, wp_ensure, wp_get, wp_ofExcept, wp_pure, onAreas, wp_zoom, implies_true, and_true]
  intro rounded hrounded hmax guarded hguarded reserved hfind usableStart husable usable hrange
  obtain ⟨-, rfl⟩ := checkedAdd_eq_some.1 hguarded
  obtain ⟨-, rfl⟩ := checkedAdd_eq_some.1 husable
  obtain ⟨hstart, hend⟩ := fromStartSize_eq_some hrange
  have hmaxlt : max alignment pageSize < usizeLimit := Nat.max_lt.2 ⟨hlt, by decide⟩
  have hfit := findFreeRange_firstFit h.ordered (h.window ▸ harena)
    (Nat.add_pos_right rounded (show 0 < pageSize * 2 by decide)) hmax
    (Nat.le_max_right _ _) hmaxlt
  rw [hfind] at hfit
  have hsize : pageRounded (rounded + pageSize * 2) = rounded + pageSize * 2 := by
    obtain rfl := eq_pageRounded hrounded
    unfold pageRounded pageSize
    omega
  obtain ⟨hreserved, ⟨-, hfits⟩, -⟩ := hfit
  rw [hsize] at hreserved hfits
  have hplaced : Placed arena (alignment, ⟨usable, reserved, kind⟩) := by
    refine ⟨h.window ▸ ⟨hfits.above, ?_⟩, hstart, ?_, hfits.aligned, hpow⟩
    · rw [hreserved]
      exact hfits.below
    · rw [hreserved, hend]
      omega
  have hkind : kind.areaKind ≠ .anonymous := by cases kind <;> (intro h; cases h)
  refine ((insert_spec h.ordered).and (insert_perm h.ordered hkind)).mono ?_ ?_
  · rintro _ areas ⟨⟨-, -, hordered, -⟩, hperm⟩
    exact ⟨h.window, hordered, (hperm.map VmArea.range).trans (h.ranges.cons _), List.forall_mem_cons.2 ⟨hplaced, h.placed⟩⟩
  · rintro _ areas ⟨rfl, -⟩
    rfl

theorem release_spec (r : KernelVirtualReservation) (h : Inv arena capacity s) :
    wp (release r) s.allocator (fun _ a => Inv arena capacity ⟨a, s.live.eraseP fun h => h.2.reserved = r.reserved⟩)
      (fun _ a => a = s.allocator) := by
  simp only [release, wp_bind, wp_pure, onAreas, wp_zoom]
  refine ((removeExact_spec h.ordered).and removeExact_split).mono ?_ ?_
  · rintro area areas ⟨⟨hmem, hrange, -, hordered, -⟩, -, front', back', hareas, hrest⟩
    obtain ⟨h', hlive, heq⟩ := List.mem_map.1 (h.ranges.subset (List.mem_map_of_mem hmem))
    obtain ⟨held, front, back, -, hheld, hsplit, herase⟩ :=
      List.exists_of_eraseP (p := fun h => h.2.reserved = r.reserved) hlive (decide_eq_true (heq.trans hrange))
    refine ⟨h.window, hordered, ?_, fun k hk => h.placed k (List.mem_of_mem_eraseP hk)⟩
    have hperm : s.allocator.areas.areas.Perm (area :: areas.areas) := by
      rw [hareas, hrest]
      exact List.perm_middle
    have hranges := (hperm.map VmArea.range).symm.trans h.ranges
    rw [hsplit, List.map_append, List.map_cons, List.map_cons, of_decide_eq_true hheld, ← hrange] at hranges
    dsimp only
    rw [herase, List.map_append]
    exact (hranges.trans List.perm_middle).cons_inv
  · rintro _ areas ⟨rfl, -⟩
    rfl

theorem exec_inv {op : Op} (harena : arena.end_ < usizeLimit) (hop : op.Aligned) (h : Inv arena capacity s) :
    Inv arena capacity (s.exec capacity op) := by
  cases op with
  | reserve memory size alignment kind =>
    have hspec := reserve_spec memory size kind harena hop.1 hop.2 h
    unfold exec
    dsimp only
    cases hresult : reserve capacity memory size alignment kind s.allocator with
    | ok r a => exact hspec.ok hresult
    | error e a => exact (hspec.error hresult).symm ▸ h
  | release r =>
    have hspec := release_spec r h
    unfold exec
    dsimp only
    cases hresult : release r s.allocator with
    | ok _ a => exact hspec.ok hresult
    | error e a => exact (hspec.error hresult).symm ▸ h

theorem reachable_inv (harena : arena.end_ < usizeLimit) (h : (system arena capacity).Reachable s) :
    Inv arena capacity s := by
  refine h.invariant ?_ ?_
  · rintro s rfl
    exact ⟨rfl, .nil capacity, .refl _, fun h hh => absurd hh List.not_mem_nil⟩
  · rintro s op t hs ⟨hop, rfl⟩
    exact exec_inv harena hop hs

structure Served (arena : VirtRange) (live : List (Nat × KernelVirtualReservation)) : Prop where
  inside : ∀ h ∈ live, arena.containsRange h.2.reserved ∧ h.2.reserved.containsRange h.2.usable
  apart : live.Pairwise fun h k => ¬h.2.reserved.overlaps k.2.reserved
  guarded : ∀ h ∈ live, ∀ x, (h.2.usable.start ≤ x + pageSize ∧ x < h.2.usable.start ∨
    h.2.usable.end_ ≤ x ∧ x < h.2.usable.end_ + pageSize) → ∀ k ∈ live, ¬k.2.usable.contains x
  aligned : ∀ h ∈ live, h.1 ∣ h.2.usable.start

theorem Inv.apart (h : Inv arena capacity s) : s.live.Pairwise fun h k => ¬h.2.reserved.overlaps k.2.reserved := by
  have hareas : (s.allocator.areas.areas.map VmArea.range).Pairwise fun r q => ¬r.overlaps q := by
    refine List.pairwise_map.2 (h.ordered.pairwise.imp ?_)
    exact fun hab hover => Nat.not_lt_of_le hab.1 hover.2
  exact List.pairwise_map.1 (h.ranges.pairwise hareas fun hrq (hover : VirtRange.overlaps _ _) => hrq ⟨hover.2, hover.1⟩)

theorem Placed.aligned_iff {h : Nat × KernelVirtualReservation} (hp : Placed arena h) :
    h.1 ∣ h.2.usable.start ↔ h.1 ≤ pageSize := by
  rw [hp.below]
  constructor
  · intro hdvd
    by_contra hlarge
    have haligned := hp.aligned
    rw [Nat.max_eq_left (by omega)] at haligned
    exact hlarge (Nat.le_of_dvd (by decide) ((Nat.dvd_add_right haligned).1 hdvd))
  · intro hle
    have hpage : h.1 ∣ pageSize := (isPowerOfTwo_dvd (n := 12) hp.power hle).2
    rw [← Nat.max_eq_right hle] at hpage ⊢
    exact Nat.dvd_add (hpage.trans (by simpa using hp.aligned)) hpage

/-- In every history the reservations lie apart and between their guards; they are aligned as asked exactly when no
alignment above the page size was asked for. -/
theorem reservations_exact (harena : arena.end_ < usizeLimit) (h : (system arena capacity).Reachable s) :
    Served arena s.live ↔ ∀ h ∈ s.live, h.1 ≤ pageSize := by
  have hinv := reachable_inv harena h
  refine ⟨fun hs r hr => (hinv.placed r hr).aligned_iff.1 (hs.aligned r hr), fun hsmall => ?_⟩
  refine ⟨fun r hr => ⟨(hinv.placed r hr).inside, ?_⟩, hinv.apart, ?_,
    fun r hr => (hinv.placed r hr).aligned_iff.2 (hsmall r hr)⟩
  · have hp := hinv.placed r hr
    exact ⟨by rw [hp.below]; exact Nat.le_add_right _ _, by rw [hp.above]; exact Nat.le_add_right _ _⟩
  · intro r hr x hx k hk hkx
    have hp := hinv.placed r hr
    have hq := hinv.placed k hk
    have hsymm : Std.Symm fun h k : Nat × KernelVirtualReservation => ¬h.2.reserved.overlaps k.2.reserved :=
      ⟨fun _ _ hne hover => hne ⟨hover.2, hover.1⟩⟩
    have hbelow := hp.below
    have habove := hp.above
    have hx₁ := hkx.1
    have hx₂ := hkx.2
    have husable := r.2.usable.start_le_end
    obtain rfl | hne := eq_or_ne k r
    · omega
    · refine hinv.apart.forall hk hr hne ⟨?_, ?_⟩
      · have := hq.below
        omega
      · have := hq.above
        omega

def afterTwo : VmallocHistory :=
  (VmallocHistory.mk (.new (.fromBounds 0x10000 0x20000)) []).exec 4 (.reserve true 4096 4096 .vmalloc)
    |>.exec 4 (.reserve true 1 8192 (.ioRemap 0x9000))

theorem exec_reachable {op : Op} (hop : op.Aligned) (h : (system arena capacity).Reachable s) :
    (system arena capacity).Reachable (s.exec capacity op) :=
  .step h ⟨hop, rfl⟩

theorem afterTwo_reachable : (system (.fromBounds 0x10000 0x20000) 4).Reachable afterTwo := by
  refine exec_reachable ?_ (exec_reachable ?_ (.init rfl))
  · exact ⟨by decide, by decide⟩
  · exact ⟨by decide, by decide⟩

/-- The second range was to begin at a multiple of two pages. -/
theorem reservations_exact_two : ¬Served (.fromBounds 0x10000 0x20000) afterTwo.live := by
  rw [reservations_exact (by decide) afterTwo_reachable]
  decide +kernel

theorem reservation_off_alignment :
    (system (.fromBounds 0x10000 0x20000) 4).Reachable afterTwo ∧
      afterTwo.live.map (fun h => (h.1, h.2.usable.start)) = [(8192, 0x15000), (4096, 0x11000)] ∧ ¬8192 ∣ 0x15000 :=
  ⟨afterTwo_reachable, by decide +kernel, by decide⟩

end VmallocHistory

end SudoOS
