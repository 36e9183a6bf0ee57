import SudoOS.Theorems.UserMmRun
import SudoOS.Theorems.VmaProtect

/-! A change of protection over a range with a gap. -/

namespace SudoOS

open Program RuntimePageTable

namespace UserMm

variable {s t : UserMmState} {layout : AddressSpace} {page : VirtPage} {range : VirtRange} {access : VmAreaFlags}
  {capacity fuel cursor count address : Nat} {reserve : Bool}

theorem alreadyProtected_covers (hl : layout.Sound capacity) (h : alreadyProtected layout range access fuel cursor = true)
    {x : Nat} (hlow : cursor ≤ x) (hhigh : x < range.end_) : layout.findArea x ≠ none := by
  induction fuel generalizing cursor with
  | zero => cases h
  | succ fuel ih =>
    unfold alreadyProtected at h
    cases hfind : layout.findArea cursor with
    | none => simp [hfind] at h
    | some area =>
      obtain ⟨hmem, hcursor⟩ := hl.findArea_eq_some.1 hfind
      by_cases hx : x < area.range.end_
      · rw [hl.findArea_eq_some.2 ⟨hmem, Nat.le_trans hcursor.1 hlow, hx⟩]
        exact Option.some_ne_none _
      · rw [hfind] at h
        dsimp only at h
        rw [if_neg (by omega), Bool.and_eq_true] at h
        exact ih h.2 (by omega)

theorem protectRange_refused (hl : layout.Sound capacity) {x : Nat} (hx : range.contains x) (hgap : layout.attr x = none) :
    wp (AddressSpace.protectRange capacity reserve range access) layout (fun _ _ => False) (fun _ t => t = layout) := by
  refine ((AddressSpace.protectRange_spec hl).and AddressSpace.protectRange_protects).mono ?_ fun _ _ h => h.1
  rintro _ _ ⟨-, -, hvalid, -, hcover, -⟩
  have hne := (validateOperationRange_eq_ok.1 hvalid).1
  rw [VmAreaSet.coverLoop_ne_none (fun a ha => (hl.ordered.valid a ha).nonempty) (hl.ordered.pairwise.imp And.left)
    hne] at hcover
  exact hcover x hx.1 hx.2 hgap

/-- All pages from an address on are page-aligned and can be looked up. -/
def Walkable (address count : Nat) : Prop := ∀ j < count, isCanonical (address + j * 4096) ∧ (address + j * 4096) % 4096 = 0

/-- The walk comes to a mapped page above the program's addresses. -/
def MeetsKernelPage (s : UserMmState) (address count : Nat) : Prop :=
  ∃ i < count, Walkable address (i + 1) ∧ userEnd ≤ address + i * 4096 ∧
    ∃ physical, RuntimePageTable.translate s.table (address + i * 4096) = .ok (some physical)

theorem Walkable.cons (h : Walkable (page.start + pageSize) count) (hpage : isCanonical page.start) :
    Walkable page.start (count + 1) := by
  intro j hj
  cases j with
  | zero =>
    have := page.aligned
    exact ⟨by simpa using hpage, by omega⟩
  | succ j =>
    have hnext := h j (by omega)
    rwa [show page.start + pageSize + j * 4096 = page.start + (j + 1) * 4096 by unfold pageSize; omega] at hnext

theorem MeetsKernelPage.cons (h : MeetsKernelPage s (page.start + pageSize) count) (hpage : isCanonical page.start) :
    MeetsKernelPage s page.start (count + 1) := by
  obtain ⟨i, hi, hwalk, huser, htranslate⟩ := h
  rw [show page.start + pageSize + i * 4096 = page.start + (i + 1) * 4096 by unfold pageSize; omega] at huser htranslate
  exact ⟨i + 1, by omega, hwalk.cons hpage, huser, htranslate⟩

theorem residentFrame_outcome (hs : Inv s) : wp (residentFrame page.start page) s
    (fun r t => t = s ∧ isCanonical page.start ∧
      (r ≠ none → s.core.layout.findArea page.start ≠ none ∨ MeetsKernelPage s page.start 1))
    (fun e _ => e.IsError) := by
  simp only [residentFrame, translate, wp_bind, wp_get]
  cases htranslate : RuntimePageTable.translate s.table page.start with
  | error e => exact wp_throw.2 ⟨_, rfl⟩
  | ok r =>
    have hcanonical : isCanonical page.start := by
      by_contra hn
      rw [RuntimePageTable.translate, if_neg hn] at htranslate
      cases htranslate
    have hwalk : Walkable page.start 1 := Walkable.cons (fun j hj => absurd hj (Nat.not_lt_zero j)) hcanonical
    have harea {m : MappedPage} (hm : m ∈ s.pages) (hpage : m.page = page) : s.core.layout.findArea page.start ≠ none := by
      obtain ⟨f, k, hattr, -⟩ := hs.record m hm
      rw [hpage, attr, hs.layout.attr_eq] at hattr
      obtain ⟨area, hfind, -⟩ := Option.map_eq_some_iff.1 hattr
      rw [hfind]
      exact Option.some_ne_none _
    refine wp_pure.2 ?_
    cases r with
    | some physical =>
      simp only [wp_ite, wp_pure, wp_throw]
      refine ⟨fun _ => ⟨trivial, hcanonical, fun _ => ?_⟩, fun _ => ⟨_, rfl⟩⟩
      by_cases huser : page.start < userEnd
      · have htable := hs.backed.translate_page huser
        rw [htranslate] at htable
        obtain ⟨x, hx, -⟩ := Option.map_eq_some_iff.1 (Except.ok.inj htable).symm
        exact .inl (harea (hs.backed.leaf page x.1 x.2 hx) rfl)
      · exact .inr ⟨0, by omega, hwalk, by omega, physical, by simpa using htranslate⟩
    | none =>
      simp only [wp_bind, wp_get, wp_pure]
      refine ⟨trivial, hcanonical, fun hsome => .inl ?_⟩
      obtain ⟨m, hm⟩ := Option.ne_none_iff_exists'.1 fun hnone => hsome (Option.map_eq_none_iff.2 hnone)
      exact harea (List.mem_of_find?_eq_some hm) (by simpa using List.find?_some hm)

theorem changedPages_outcome (hs : Inv s) : wp (changedPages s.core.layout count address) s
    (fun _ t => t = s ∧ Walkable address count) (fun e _ => e.IsError ∨ MeetsKernelPage s address count) := by
  induction count generalizing address with
  | zero => exact wp_pure.2 ⟨rfl, fun j hj => absurd hj (Nat.not_lt_zero j)⟩
  | succ count ih =>
    simp only [changedPages, wp_bind, wp_okOr]
    refine ⟨fun page hpage => ?_, fun _ => .inl ⟨_, rfl⟩⟩
    obtain rfl := fromStartAddress_eq_some hpage
    refine (residentFrame_outcome hs).mono ?_ fun _ _ he => .inl he
    rintro r u ⟨hu, hcanonical, hresident⟩
    have hrest : ∀ next, checkedAdd page.start pageSize = some next → wp (changedPages s.core.layout count next) s
        (fun _ t => t = s ∧ Walkable page.start (count + 1))
          (fun e _ => e.IsError ∨ MeetsKernelPage s page.start (count + 1)) := by
      intro next hnext
      obtain ⟨-, rfl⟩ := checkedAdd_eq_some.1 hnext
      exact ih.mono (fun _ _ h => ⟨h.1, h.2.cons hcanonical⟩) fun _ _ he => he.imp_right fun hk => hk.cons hcanonical
    rw [hu]
    cases r with
    | none =>
      simp only [wp_bind, wp_okOr, wp_pure]
      exact ⟨hrest, fun _ => .inl ⟨_, rfl⟩⟩
    | some frame =>
      simp only [wp_bind, wp_okOr, wp_pure]
      refine ⟨fun oldArea _ => ⟨hrest, fun _ => .inl ⟨_, rfl⟩⟩, fun hnone => .inr ?_⟩
      obtain ⟨i, hi, hwalk, hpage⟩ := (hresident (Option.some_ne_none _)).resolve_left fun h => h hnone
      exact ⟨i, by omega, hwalk, hpage⟩

/-- The number of pages that the walk over a range visits. -/
def pageCount (range : VirtRange) : Nat := (range.size + 4095) / 4096

/-- What makes a change of protection fall back on the leaves. -/
structure FallsBack (range : VirtRange) (access : VmAreaFlags) (s : UserMmState) : Prop where
  readOnly : access.write = false
  resident : ∃ m ∈ s.pages, range.contains m.page.start
  walkable : Walkable range.start (pageCount range)
  memory : granted s 0 = true
  generation : s.core.tlbGeneration + 1 < usizeLimit

/-- The call comes back with an error, and neither an area nor a leaf has changed. -/
def Refuses (range : VirtRange) (access : VmAreaFlags) (s : UserMmState) : Prop :=
  ∃ e t, protectRange range access s = .error e t ∧ e.IsError ∧ t.core.layout = s.core.layout ∧ t.pages = s.pages ∧
    view t.table = view s.table

theorem planTlb_outcome {b : Bool} :
    wp (given b ((fun _ => ()) <$> onCore (UserAddressSpace.planTlbRequest (.range (.addressSpace s.core.asid.id) range))))
      s (fun _ _ => b = true → s.core.tlbGeneration + 1 < usizeLimit) (fun e _ => e.IsError) := by
  simp only [wp_given, wp_map, onCore, wp_zoom]
  refine ⟨fun _ => (planTlbRequest_spec rfl).mono (fun _ _ h _ => h.1) ?_, fun hb htrue => absurd htrue hb⟩
  rintro e _ ⟨rfl, -⟩
  exact ⟨_, rfl⟩

/-- A range with a gap is refused without effect, unless the call falls back on the leaves or comes to a page of the
kernel. -/
theorem protect_gap_refused (hs : Inv s) {x : Nat} (hx : range.contains x) (hgap : attr s x = none)
    (hback : ¬FallsBack range access s)
    (hkernel : ¬(granted s 0 = true ∧ MeetsKernelPage s range.start (pageCount range))) : Refuses range access s := by
  have hwp : wp (protectRange range access) s (fun _ _ => False) (fun e t => e.IsError ∧ Untouched s t) := by
    obtain ⟨place, hw⟩ := hs.backed.wf
    have hrefl : Untouched s s := ⟨rfl, rfl, hw.updates⟩
    simp only [protectRange, wp_bind, wp_get, wp_ite, wp_pure, wp_okOr, wp_tryReserve]
    refine ⟨fun halready => ?_, fun _ => ⟨fun covered hcovered => ⟨fun hgranted => ?_, fun _ => ?_⟩,
      fun _ => ⟨⟨_, rfl⟩, hrefl⟩⟩⟩
    · refine alreadyProtected_covers hs.layout halready hx.1 hx.2 ?_
      rw [attr, hs.layout.attr_eq] at hgap
      exact Option.map_eq_none_iff.1 hgap
    · have h₁ : Untouched s (consumed 1 s) := .consumed hs.backed 1
      have hcount : covered / pageSize = pageCount range := by
        rw [← (checkedAdd_eq_some.1 hcovered).2]
        rfl
      rw [hcount]
      refine ((changedPages_spec (h₁.inv hs)).and (changedPages_outcome (h₁.inv hs))).mono ?_ ?_
      · rintro cs s₁ ⟨⟨rfl, hcol⟩, -, hwalk⟩
        refine ((planTlb_untouched (h₁.backed hs.backed)).and planTlb_outcome).mono ?_ fun _ _ h => ⟨h.2, h₁.trans h.1⟩
        rintro _ s₂ ⟨⟨h₁₂, -⟩, hgeneration⟩
        have h₃ : Untouched s (consumed 1 s₂) := (h₁.trans h₁₂).trans (.consumed ((h₁.trans h₁₂).backed hs.backed) 1)
        simp only [wp_nextReserve, wp_attempt]
        rw [h₃.layout]
        refine (protectRange_refused hs.layout hx hgap).mono (fun _ _ hf => hf.elim) ?_
        rintro e _ rfl
        simp only [wp_ite, wp_bind, wp_modify, wp_throw]
        refine ⟨fun hboth => absurd ?_ hback, fun _ => ⟨⟨_, rfl⟩, rfl, h₃.pages, h₃.table⟩⟩
        obtain ⟨hread, hsome⟩ := hboth
        obtain ⟨c, hc⟩ := List.exists_mem_of_ne_nil cs (by simpa using hsome)
        exact ⟨by
          simpa using hread, ⟨_, ((hcol.of_untouched h₁).each c hc).1.record, (hcol.of_untouched h₁).contains rfl hc⟩,
          hwalk, hgranted,
          hgeneration hsome⟩
      · rintro e t ⟨rfl, he⟩
        exact ⟨he.resolve_right fun hk => hkernel ⟨hgranted, hk⟩, h₁⟩
    · exact ⟨⟨_, rfl⟩, .consumed hs.backed 1⟩
  cases hrun : protectRange range access s with
  | ok _ t => exact (hwp.ok hrun).elim
  | error e t =>
    obtain ⟨he, ht⟩ := hwp.error hrun
    exact ⟨e, t, hrun, he, ht.layout, ht.pages, ht.table.view_eq⟩

/-- One page and the unmapped page behind it, with write access. -/
theorem protect_gap_refused_one_page : ∃ s, onePage = some s ∧ Refuses (.fromBounds 0x1000 0x3000)
    { read := true, write := true } s := by
  have hrun : (onePage.any fun s => decide (s.core.layout.findArea 0x2000 = none)) = true := by decide +kernel
  obtain ⟨s, hs, hfind⟩ := (Option.any_eq_true _ _).1 hrun
  have hinv : Inv s := inv_of_reachable (.init (onePage_init hs))
  refine ⟨s, hs, protect_gap_refused hinv (x := 0x2000) ⟨by decide, by decide⟩ ?_ (fun h => nomatch h.readOnly) ?_⟩
  · rw [attr, hinv.layout.attr_eq, of_decide_eq_true hfind]
    rfl
  · rintro ⟨-, i, hi, -, huser, -⟩
    have hcount : pageCount (.fromBounds 0x1000 0x3000) = 2 := by decide
    rw [hcount] at hi
    have : (VirtRange.fromBounds 0x1000 0x3000).start = 0x1000 := rfl
    unfold userEnd at huser
    omega

/-- With a resident page, a change to reading alone is carried out on its leaf. -/
theorem protect_gap_accepted : ∃ s t, system.Reachable s ∧ s.core.layout.findArea 0x2000 = none ∧
    protectRange (.fromBounds 0x1000 0x3000) { read := true } (answering [] [true, true] s) = .ok () t ∧
    view t.table ⟨0x1000, rfl⟩ ≠ view s.table ⟨0x1000, rfl⟩ := by
  have hrun : ((afterCalls [writeFault [some 2, some 3, some 4] [true, true]]).any fun s =>
      endsWith (fun _ t => decide (s.core.layout.findArea 0x2000 = none ∧
        view t.table ⟨0x1000, rfl⟩ ≠ view s.table ⟨0x1000, rfl⟩))
      (protectRange (.fromBounds 0x1000 0x3000) { read := true } (answering [] [true, true] s))) = true := by decide +kernel
  obtain ⟨s, hs, hchanged⟩ := (Option.any_eq_true _ _).1 hrun
  obtain ⟨_, t, ht, hend⟩ := endsWith_eq_true hchanged
  obtain ⟨hfind, hview⟩ := of_decide_eq_true hend
  exact ⟨s, t, afterCalls_reachable hs, hfind, ht, hview⟩

end UserMm

end SudoOS
