import SudoOS.Theorems.UserMmRun

/-! What a move of the program break leaves alone. -/

namespace SudoOS

open Program RuntimePageTable

namespace UserMm

variable {s t u : UserMmState} {page : VirtPage} {newBreak : Nat}

def accessAt (s : UserMmState) (page : VirtPage) : Option (VmAreaFlags × VmAreaKind) :=
  (attr s page.start).map fun v => (v.1.accessOnly, v.2)

/-- Nothing about the page changes. -/
structure Preserved (page : VirtPage) (s t : UserMmState) : Prop where
  access : accessAt t page = accessAt s page
  leaf : view t.table page = view s.table page
  records : ∀ m, m.page = page → (m ∈ t.pages ↔ m ∈ s.pages)
  words : ∀ m ∈ s.pages, m.page = page → t.table.entry m.backing = s.table.entry m.backing

def GivenUp (newBreak : Nat) (s : UserMmState) (page : VirtPage) : Prop :=
  OnHeap s page.start ∧ pageCeil newBreak ≤ page.start

/-- All mapped pages are preserved, apart from those of the heap that the call gives up. -/
def KeepsPages (newBreak : Nat) (s t : UserMmState) : Prop :=
  ∀ page, attr s page.start ≠ none → ¬GivenUp newBreak s page → Preserved page s t

/-- The heap below the new break may be read and written, and between its two ends only its own pages are resident. -/
structure BreakSpares (newBreak : Nat) (s : UserMmState) : Prop where
  rights : ∀ (page : VirtPage) f, attr s page.start = some (f, .heap) → page.start < pageCeil newBreak →
    f.accessOnly = VmAreaFlags.userRw.accessOnly
  others : ∀ m ∈ s.pages, BreakGap newBreak s m.page.start → OnHeap s m.page.start

/-- A page that is mapped and stays is on the heap below the new break, or in another area. -/
theorem kept_cases (hpage : attr s page.start ≠ none) (hstays : ¬GivenUp newBreak s page) :
    (∃ f, attr s page.start = some (f, .heap) ∧ page.start < pageCeil newBreak) ∨
      ∃ v, attr s page.start = some v ∧ v.2 ≠ .heap := by
  obtain ⟨⟨f, k⟩, hv⟩ := Option.ne_none_iff_exists'.1 hpage
  by_cases hk : k = .heap
  · subst hk
    exact .inl ⟨f, hv, Nat.not_le.1 fun h => hstays ⟨⟨f, hv⟩, h⟩⟩
  · exact .inr ⟨_, hv, hk⟩

theorem BreakMoved.mem (h : BreakMoved newBreak s t) {m : MappedPage} (hm : m ∈ t.pages) : m ∈ s.pages := by
  obtain ⟨gone, hperm⟩ := h.pages
  exact hperm.mem_iff.2 (List.mem_append_right _ hm)

theorem BreakMoved.preserved (h : BreakMoved newBreak s t) (hs : Backed s.table s.pages)
    (hgap : ∀ m ∈ s.pages, m.page = page → ¬BreakGap newBreak s page.start) (haccess : accessAt t page = accessAt s page) :
    Preserved page s t where
  access := haccess
  leaf := by
    by_cases hin : BreakGap newBreak s page.start
    · -- In the gap there is no record of the page, so it had no leaf and has none.
      have hnone : ∀ {u : UserMmState}, Backed u.table u.pages → (∀ m ∈ u.pages, m ∈ s.pages) →
        view u.table page = none := by
        intro u hu hmem
        refine Option.eq_none_iff_forall_not_mem.2 fun x hx => ?_
        exact hgap _ (hmem _ (hu.leaf page x.1 x.2 hx)) rfl hin
      rw [hnone h.backed fun _ => h.mem, hnone hs fun _ hm => hm]
    · exact h.view_eq page hin
  records m hm := ⟨h.mem, fun hold => h.kept m hold (hm ▸ hgap m hold hm)⟩
  words m hm hpage := h.words m (h.kept m hm (hpage ▸ hgap m hm hpage))

theorem BreakMoved.keepsPages_iff (h : BreakMoved newBreak s t) (hs : Inv s) :
    KeepsPages newBreak s t ↔ BreakSpares newBreak s := by
  refine ⟨fun hkeeps => ⟨fun page f hf hbelow => ?_, fun m hm hgap => ?_⟩, fun hspares page hpage hstays => ?_⟩
  · have haccess := (hkeeps page (by rw [hf]; exact Option.some_ne_none _) fun hup => Nat.not_le.2 hbelow hup.2).access
    rw [accessAt, accessAt, HeapMoved.heap h.layout hs hf hbelow, hf] at haccess
    exact (Prod.mk.inj (Option.some.inj haccess)).1.symm
  · by_contra hother
    obtain ⟨f, k, hf, -⟩ := hs.record m hm
    have hkept := hkeeps m.page (by rw [hf]; exact Option.some_ne_none _) fun hup => hother hup.1
    exact h.outside m ((hkept.records m rfl).2 hm) hgap
  · rcases kept_cases hpage hstays with ⟨f, hf, hbelow⟩ | ⟨v, hv, hother⟩
    · refine h.preserved hs.backed (fun _ _ _ => ?_) ?_
      · rintro ⟨_, -, hle, -⟩
        exact Nat.not_le.2 hbelow hle
      · rw [accessAt, accessAt, HeapMoved.heap h.layout hs hf hbelow, hf]
        exact congrArg (fun access => some (access, VmAreaKind.heap)) (hspares.rights page f hf hbelow).symm
    · refine h.preserved hs.backed (fun m hm hpage hgap => ?_) ?_
      · obtain ⟨f, hf⟩ := hspares.others m hm (hpage ▸ hgap)
        rw [hpage, hv] at hf
        exact hother (congrArg Prod.snd (Option.some.inj hf))
      · rw [accessAt, accessAt, HeapMoved.frame h.layout hv hother, hv]

/-- Answers that are used up before the call make no difference to what it keeps. -/
theorem BreakMoved.after (h : BreakMoved newBreak u t) (hu : Untouched s u) (hs : Backed s.table s.pages) :
    BreakMoved newBreak s t := by
  have hgap : BreakGap newBreak u = BreakGap newBreak s := by
    funext x
    rw [BreakGap, BreakGap, hu.layout]
  refine ⟨hu.layout ▸ h.layout, h.backed, hu.pages ▸ h.pages, hgap ▸ h.outside, hu.pages ▸ hgap ▸ h.kept,
    fun page hpage => ?_,
    fun m hm => ?_⟩
  · rw [h.view_eq page (hgap ▸ hpage), hu.table.view_eq]
  · rw [h.words m hm, (hu.table.kernel.foreign _ (hs.frames m (hu.pages ▸ h.mem hm)).1).2]

theorem Untouched.preserved (h : Untouched s t) (hs : Backed s.table s.pages) (page : VirtPage) : Preserved page s t where
  access := by rw [accessAt, accessAt, h.attr]
  leaf := congrFun h.table.view_eq page
  records m _ := by rw [h.pages]
  words m hm _ := (h.table.kernel.foreign _ (hs.frames m hm).1).2

/-- The pages between the two ends are those on record, or have no leaf. -/
def BreakMatches (newBreak : Nat) (s : UserMmState) : Prop :=
  ∀ m ∈ s.pages, BreakGap newBreak s m.page.start → Matches s.table m

/-- A call that moves the break keeps all mapped pages but those it gives up exactly if the heap that stays may be read and
written and no other page is resident between the two ends. A call that fails changes nothing, and one that finds the pages
between the two ends as they are on record does not panic. -/
theorem setProgramBreak_keeps (h : system.Reachable s) (choices : List (Option Nat)) (reserves : List Bool)
    (newBreak : Nat) : (∀ current t, setProgramBreak newBreak (answering choices reserves s) = .ok current t →
      (KeepsPages newBreak s t ↔ BreakSpares newBreak s)) ∧
    (∀ e t, setProgramBreak newBreak (answering choices reserves s) = .error (.error e) t →
      t.core.layout = s.core.layout ∧ ∀ page, Preserved page s t) ∧
    (BreakMatches newBreak s → ∀ p t, setProgramBreak newBreak (answering choices reserves s) ≠ .error (.panic p) t) := by
  have hready := answering_untouched (inv_of_reachable h) choices reserves
  have hs := hready.inv (inv_of_reachable h)
  refine ⟨fun current t hrun => ?_, fun e t hrun => ?_, fun hmatches p t hrun => ?_⟩
  · have hmoved : BreakMoved newBreak (answering choices reserves s) t := (setProgramBreak_moved hs).ok hrun
    exact (hmoved.after hready (inv_of_reachable h).backed).keepsPages_iff (inv_of_reachable h)
  · rcases (setProgramBreak_moved hs).error hrun with ⟨-, hsame⟩ | ⟨hpanic, -⟩
    · have hsame := hready.trans hsame
      exact ⟨hsame.layout, hsame.preserved (inv_of_reachable h).backed⟩
    · cases hpanic
  · rcases (setProgramBreak_moved hs).error hrun with ⟨⟨_, herror⟩, -⟩ | ⟨-, m, hm, hgap, hnot⟩
    · cases herror
    · exact hnot fun x hx => hmatches m hm hgap x hx

theorem BreakSpares.of_areas (hareas : ∀ a ∈ s.core.layout.areas.areas, a.kind = .heap → a.flags = .userRw)
    (hothers : ∀ m ∈ s.pages, BreakGap newBreak s m.page.start → OnHeap s m.page.start) : BreakSpares newBreak s where
  rights page f hf _ := by
    obtain ⟨a, ha, heq⟩ := Option.map_eq_some_iff.1 hf
    obtain ⟨rfl, hkind⟩ := Prod.mk.inj heq
    rw [hareas a (List.mem_of_find?_eq_some ha) hkind]
  others := hothers

theorem not_breakGap_of_le (hgrows : ∀ b, s.core.layout.programBreak = some b → b.current ≤ newBreak) (x : Nat) :
    ¬BreakGap newBreak s x := by
  rintro ⟨b, hb, hle, hlt⟩
  have := hgrows b hb
  unfold pageCeil at hle hlt
  omega

def heapFault : List MmLabel :=
  [.call [] [true, true] (.setProgramBreak 0x601000),
    .call [some 2, some 3, some 4] [true, true] (.resolveUserFault 0 0x600000 .write 0x3000)]

/-- The heap grows by a page while all of it may be read and written. -/
theorem setProgramBreak_keeps_growing : ∃ s t, afterCalls heapFault = some s ∧ s.pages = [⟨⟨0x600000, rfl⟩, 2⟩] ∧
    setProgramBreak 0x602000 (answering [] [true, true] s) = .ok 0x602000 t ∧ KeepsPages 0x602000 s t := by
  have hrun : ((afterCalls heapFault).any fun s => endsWith (fun current _ =>
      decide (current = 0x602000 ∧ s.pages = [⟨⟨0x600000, rfl⟩, 2⟩] ∧
        ∀ a ∈ s.core.layout.areas.areas, a.kind = .heap → a.flags = .userRw) &&
          s.core.layout.programBreak.all fun b => decide (b.current ≤ 0x602000))
      (setProgramBreak 0x602000 (answering [] [true, true] s))) = true := by decide +kernel
  obtain ⟨s, hs, hmoved⟩ := (Option.any_eq_true _ _).1 hrun
  obtain ⟨_, t, ht, hend⟩ := endsWith_eq_true hmoved
  obtain ⟨hend, hbreak⟩ := Bool.and_eq_true_iff.1 hend
  obtain ⟨rfl, hpages, hareas⟩ := of_decide_eq_true hend
  have hgrows : ∀ b, s.core.layout.programBreak = some b → b.current ≤ 0x602000 := fun b hb =>
    of_decide_eq_true (Option.all_eq_true _ _ |>.1 hbreak b hb)
  exact ⟨s, t, hs, hpages, ht, ((setProgramBreak_keeps (afterCalls_reachable hs) [] [true, true] 0x602000).1 _ t ht).2
    (.of_areas hareas fun _ _ hgap => absurd hgap (not_breakGap_of_le hgrows _))⟩

/-- A protected page of the heap becomes writable when the heap grows, and a page of another area between the two ends is
lost when it shrinks. -/
theorem setProgramBreak_loses :
    (∃ s t, system.Reachable s ∧ setProgramBreak 0x602000 (answering [] [true, true] s) = .ok 0x602000 t ∧
      attr s 0x600000 = some ({ VmAreaFlags.userRw with write := false }, .heap) ∧
      attr t 0x600000 = some (.userRw, .heap)) ∧
    ∃ s t, system.Reachable s ∧ setProgramBreak 0x600000 (answering [] [true, true, true, true] s) = .ok 0x600000 t ∧
      attr s 0x601000 = some (.userRw, .anonymous) ∧ s.pages = [⟨⟨0x601000, rfl⟩, 2⟩] ∧ t.pages = [] := by
  have hgrow : ((afterCalls (heapFault ++
      [.call [] [true, true] (.protectRange (.fromBounds 0x600000 0x601000) { read := true })])).any fun s =>
      endsWith (fun current t => decide (current = 0x602000 ∧
        attr s 0x600000 = some ({ VmAreaFlags.userRw with write := false }, .heap) ∧
        attr t 0x600000 = some (.userRw, .heap)))
      (setProgramBreak 0x602000 (answering [] [true, true] s))) = true := by decide +kernel
  have hshrink : ((afterCalls [.call [] [true, true] (.setProgramBreak 0x603000),
      .call [] [true, true, true] (.unmapRange (.fromBounds 0x601000 0x602000)),
      .call [] [true] (.mapAnonymousExact (.fromBounds 0x601000 0x602000) .userRw),
      .call [some 2, some 3, some 4] [true, true] (.resolveUserFault 0 0x601000 .write 0x3000)]).any fun s =>
      endsWith (fun current t => decide (current = 0x600000 ∧ attr s 0x601000 = some (.userRw, .anonymous) ∧
        s.pages = [⟨⟨0x601000, rfl⟩, 2⟩] ∧ t.pages = []))
      (setProgramBreak 0x600000 (answering [] [true, true, true, true] s))) = true := by decide +kernel
  constructor
  · obtain ⟨s, hs, hmoved⟩ := (Option.any_eq_true _ _).1 hgrow
    obtain ⟨_, t, ht, hend⟩ := endsWith_eq_true hmoved
    obtain ⟨rfl, hattrs⟩ := of_decide_eq_true hend
    exact ⟨s, t, afterCalls_reachable hs, ht, hattrs⟩
  · obtain ⟨s, hs, hmoved⟩ := (Option.any_eq_true _ _).1 hshrink
    obtain ⟨_, t, ht, hend⟩ := endsWith_eq_true hmoved
    obtain ⟨rfl, hpages⟩ := of_decide_eq_true hend
    exact ⟨s, t, afterCalls_reachable hs, ht, hpages⟩

/-- After a refused `mprotect` and a second fault there are two records of one page of the heap, and giving the page up
panics. -/
theorem setProgramBreak_panics : ∃ s p t, system.Reachable s ∧ BreakSpares 0x601000 s ∧
    setProgramBreak 0x601000 (answering [] [true, true, true, true] s) = .error (.panic p) t := by
  have hrun : ((afterCalls [.call [] [true, true] (.setProgramBreak 0x602000),
      .call [some 2, some 3, some 4] [true, true] (.resolveUserFault 0 0x601000 .write 0x3000),
      .call [] [true, true] (.protectRange (.fromBounds 0x601000 0x603000) {}),
      .call [some 5, some 6, some 7] [true, true] (.resolveUserFault 0 0x601000 .write 0x3000)]).any fun s =>
        match setProgramBreak 0x601000 (answering [] [true, true, true, true] s) with
        | .error (.panic _) _ => (s.core.layout.areas.areas.all fun a => decide (a.kind = .heap → a.flags = .userRw)) &&
            s.pages.all fun m => decide (attr s m.page.start = some (.userRw, .heap))
        | _ => false) = true := by decide +kernel
  obtain ⟨s, hs, hpanics⟩ := (Option.any_eq_true _ _).1 hrun
  split at hpanics
  · rename_i p t ht
    simp only [Bool.and_eq_true, decide_eq_true_eq, List.all_eq_true] at hpanics
    exact ⟨s, p, t, afterCalls_reachable hs, .of_areas hpanics.1 fun m hm _ => ⟨_, hpanics.2 m hm⟩, ht⟩
  · cases hpanics

end UserMm

end SudoOS
