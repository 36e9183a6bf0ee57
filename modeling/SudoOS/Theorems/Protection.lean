import SudoOS.Theorems.Coherence

/-! A change of protection: the resident pages of the range are collected first, then the areas change, then the leaves. -/

namespace SudoOS

open Program RuntimePageTable
open PageTableEntry (Rights optionsRights)

namespace UserMm

variable {s t : UserMmState} {table : PageTableState} {pages : List MappedPage} {page : VirtPage} {frame : Nat}
    {area : VmArea}

/-! ### One leaf -/

/-- The leaf becomes what the flags ask for; only a new leaf can be refused, or one that no leaf can be made for. -/
theorem applyPageProtection_spec (h : Backed table pages) (hpage : page.start < userEnd) (hmem : ⟨page, frame⟩ ∈ pages)
    (hframe : ∀ x, view table page = some x → x.1 = frame) : wp (applyPageProtection page frame area) table
    (fun _ t => Updates table t (Function.update (view table) page (leafFor area.flags frame)) ∧ Backed t pages)
    (fun _ t => Updates table t (view table) ∧ Backed t pages ∧ ¬area.flags.NoAccess ∧
      (view table page = none ∨ ¬area.flags.options.Mappable)) := by
  obtain ⟨place, hw⟩ := h.wf
  have hset : ∀ t, Updates table t (Function.update (view table) page (leafFor area.flags frame)) → Backed t pages := by
    intro t hu
    refine h.setLeaf hu fun f r hf => ?_
    unfold leafFor at hf
    split_ifs at hf
    obtain ⟨rfl, -⟩ := Prod.mk.inj (Option.some.inj hf)
    exact hmem
  by_cases hno : area.flags.NoAccess
  · have heq : area.flags.accessOnly = .empty := hno
    rw [leafFor_noAccess hno] at hset ⊢
    simp only [applyPageProtection, heq, if_true, wp_bind, wp_attempt, id_eq]
    refine (hw.unmapPage_use hpage).mono ?_ ?_
    · rintro old t ⟨-, hu⟩
      exact wp_pure.2 ⟨hu, hset t hu⟩
    · rintro e t ⟨rfl, rfl, hnone⟩
      have hu : Updates t t (Function.update (view t) page none) := by
        rw [← hnone, Function.update_eq_self]
        exact hw.updates
      exact wp_pure.2 ⟨hu, hset t hu⟩
  · have hne : ¬area.flags.accessOnly = .empty := hno
    rw [leafFor_access hno] at hset ⊢
    simp only [applyPageProtection, hne, if_false, wp_bind, wp_attempt, id_eq]
    refine (hw.protectPage_use hpage).mono ?_ ?_
    · rintro _ t ⟨-, f, r, hview, hu⟩
      obtain rfl : f = frame := hframe _ hview
      exact wp_pure.2 ⟨hu, hset t hu⟩
    · rintro e t ⟨rfl, ⟨rfl, hnone⟩ | ⟨rfl, hsome, hmappable⟩⟩
      · refine hw.mapPage_use.mono ?_ ?_
        · rintro _ t ⟨-, -, -, -, hu⟩
          exact ⟨hu, hset t hu⟩
        · intro e t' hu
          exact ⟨hu, h.same hu, hno, .inl hnone⟩
      · exact wp_throw.2 ⟨hw.updates, h, hno, .inr hmappable⟩

/-! ### The resident pages of a range -/

structure Collected (s : UserMmState) (c : ChangedPage) : Prop where
  area : s.core.layout.findArea c.page.start = some c.oldArea
  record : ⟨c.page, c.frame⟩ ∈ s.pages
  frame : ∀ x, view s.table c.page = some x → x.1 = c.frame

theorem residentFrame_spec (hs : Inv s) : wp (residentFrame page.start page) s
    (fun r t => t = s ∧ (r = none → ∀ m ∈ s.pages, m.page ≠ page) ∧
      ∀ frame, r = some frame → page.start < userEnd →
        ⟨page, frame⟩ ∈ s.pages ∧ ∀ x, view s.table page = some x → x.1 = frame)
    (fun _ t => t = s) := by
  simp only [residentFrame, translate, wp_bind, wp_get]
  by_cases huser : page.start < userEnd
  · rw [hs.backed.translate_page huser]
    refine wp_pure.2 ?_
    cases hview : view s.table page with
    | some x =>
      have hzero : x.1 * pageSize % pageSize = 0 := Nat.mul_mod_left _ _
      have hdiv : x.1 * pageSize / pageSize = x.1 := Nat.mul_div_cancel _ (by decide)
      simp only [Option.map_some, wp_ite, wp_pure, hzero, hdiv]
      refine ⟨fun _ => ⟨trivial, fun hnone => (by cases hnone), fun frame hframe _ => ?_⟩, fun hn => absurd trivial hn⟩
      obtain rfl := Option.some.inj hframe
      exact ⟨hs.backed.leaf page x.1 x.2 hview, fun y hy => by rw [← Option.some.inj hy]⟩
    | none =>
      simp only [Option.map_none, wp_bind, wp_get, wp_pure]
      refine ⟨trivial, fun hnone m hm hpage => ?_, fun frame hframe _ => ⟨?_, fun x hx => (by cases hx)⟩⟩
      · rw [Option.map_eq_none_iff, List.find?_eq_none] at hnone
        exact hnone m hm (by simpa using hpage)
      · obtain ⟨m, hm, rfl⟩ := Option.map_eq_some_iff.1 hframe
        have hpage : m.page = page := by simpa using List.find?_some hm
        have hmem := List.mem_of_find?_eq_some hm
        rwa [← hpage]
  · have hno : ∀ m ∈ s.pages, m.page ≠ page := fun m hm hpage => huser (hpage ▸ hs.backed.user m hm)
    split
    · refine wp_pure.2 ?_
      split
      · simp only [wp_ite, wp_pure, wp_throw]
        exact ⟨fun _ => ⟨trivial, fun hnone => (by cases hnone), fun _ _ hlt => absurd hlt huser⟩, fun _ => trivial⟩
      · simp only [wp_bind, wp_get, wp_pure]
        exact ⟨trivial, fun _ => hno, fun _ _ hlt => absurd hlt huser⟩
    · exact wp_throw.2 rfl

theorem fromStartAddress_eq_some {address : Nat} (h : VirtPage.fromStartAddress address = some page) :
    page.start = address := by
  unfold VirtPage.fromStartAddress at h
  split_ifs at h
  obtain rfl := Option.some.inj h
  rfl

structure Collects (s : UserMmState) (address count : Nat) (cs : List ChangedPage) : Prop where
  each : ∀ c ∈ cs, Collected s c ∧ ∃ i < count, c.page.start = address + i * 4096
  ordered : cs.Pairwise fun c c' => c.page.start < c'.page.start
  all : ∀ m ∈ s.pages, address ≤ m.page.start → m.page.start < address + count * 4096 → ∃ c ∈ cs, c.page = m.page

theorem Collects.cons_none {count : Nat} {cs : List ChangedPage} (h : Collects s (page.start + pageSize) count cs)
    (hnone : ∀ m ∈ s.pages, m.page ≠ page) : Collects s page.start (count + 1) cs where
  each c hc := by
    obtain ⟨hcol, i, hi, hstart⟩ := h.each c hc
    unfold pageSize at hstart
    exact ⟨hcol, i + 1, by omega, by omega⟩
  ordered := h.ordered
  all m hm hle hlt := by
    unfold pageSize at h
    refine h.all m hm ?_ (by omega)
    have hne : m.page.start ≠ page.start := fun heq => hnone m hm (page_eq_iff.1 (congrArg (· / 4096) heq))
    have := m.page.aligned
    have := page.aligned
    omega

theorem Collects.cons_some {count : Nat} {cs : List ChangedPage} {c : ChangedPage}
    (h : Collects s (page.start + pageSize) count cs)
    (hc : Collected s c) (hpage : c.page = page) : Collects s page.start (count + 1) (c :: cs) where
  each := by
    refine List.forall_mem_cons.2 ⟨⟨hc, 0, by omega, by rw [hpage]; omega⟩, fun c' hc' => ?_⟩
    obtain ⟨hcol, i, hi, hstart⟩ := h.each c' hc'
    unfold pageSize at hstart
    exact ⟨hcol, i + 1, by omega, by omega⟩
  ordered := by
    refine List.pairwise_cons.2 ⟨fun c' hc' => ?_, h.ordered⟩
    obtain ⟨-, i, -, hstart⟩ := h.each c' hc'
    unfold pageSize at hstart
    rw [hpage]
    omega
  all m hm hle hlt := by
    by_cases heq : m.page = page
    · exact ⟨c, List.mem_cons_self, hpage.trans heq.symm⟩
    · have hne : m.page.start ≠ page.start := fun hstart => heq (page_eq_iff.1 (congrArg (· / 4096) hstart))
      have := m.page.aligned
      have := page.aligned
      unfold pageSize at h
      obtain ⟨c', hc', hpage'⟩ := h.all m hm (by omega) (by omega)
      exact ⟨c', List.mem_cons_of_mem _ hc', hpage'⟩

theorem changedPages_spec (hs : Inv s) {count address : Nat} : wp (changedPages s.core.layout count address) s
    (fun cs t => t = s ∧ Collects s address count cs) (fun _ t => t = s) := by
  induction count generalizing address with
  | zero =>
    refine wp_pure.2 ⟨rfl, fun _ hc => (nomatch hc), .nil, fun m _ hle hlt => ?_⟩
    omega
  | succ count ih =>
    simp only [changedPages, wp_bind, wp_okOr]
    refine ⟨fun page hpage => ?_, fun _ => trivial⟩
    obtain rfl := fromStartAddress_eq_some hpage
    refine (residentFrame_spec hs).mono ?_ fun _ _ ht => ht
    rintro (_ | frame) _ ⟨rfl, hnone, hsome⟩
    · simp only [wp_bind, wp_okOr, wp_pure]
      refine ⟨fun next hnext => ?_, fun _ => trivial⟩
      obtain ⟨-, rfl⟩ := checkedAdd_eq_some.1 hnext
      refine ih.mono ?_ fun _ _ ht => ht
      rintro cs _ ⟨rfl, hcs⟩
      exact ⟨rfl, hcs.cons_none (hnone rfl)⟩
    · simp only [wp_bind, wp_okOr, wp_pure]
      refine ⟨fun oldArea harea => ⟨fun next hnext => ?_, fun _ => trivial⟩, fun _ => trivial⟩
      obtain ⟨-, rfl⟩ := checkedAdd_eq_some.1 hnext
      refine ih.mono ?_ fun _ _ ht => ht
      rintro cs _ ⟨rfl, hcs⟩
      obtain ⟨hrecord, hframe⟩ := hsome frame rfl (hs.userAddress harea)
      exact ⟨rfl, hcs.cons_some ⟨harea, hrecord, hframe⟩ rfl⟩

/-! ### The leaves of the range -/

section leaves
variable {u : UserMmState} {c : ChangedPage} {cs cs' : List ChangedPage} {access : VmAreaFlags}

structure Ready (s : UserMmState) (c : ChangedPage) : Prop where
  record : ⟨c.page, c.frame⟩ ∈ s.pages
  frame : ∀ x, view s.table c.page = some x → x.1 = c.frame

structure Reprotected (cs : List ChangedPage) (s t : UserMmState) : Prop where
  core : t.core = s.core
  pages : t.pages = s.pages
  backed : Backed t.table t.pages
  others : ∀ p, (∀ c ∈ cs, c.page ≠ p) → view t.table p = view s.table p
  ready : ∀ c ∈ cs, Ready t c

theorem Reprotected.nil (h : Backed s.table s.pages) : Reprotected [] s s :=
  ⟨rfl, rfl, h, fun _ _ => rfl, fun _ hc => (nomatch hc)⟩

theorem Reprotected.ready_of_ne (h : Reprotected cs s t) (hc : Ready s c) (hne : ∀ c' ∈ cs, c'.page ≠ c.page) :
    Ready t c := by
  refine ⟨h.pages ▸ hc.record, fun x hx => hc.frame x ?_⟩
  rw [← h.others c.page hne]
  exact hx

theorem Reprotected.append (h : Reprotected cs s t) (h' : Reprotected cs' t u)
    (hne : ∀ c ∈ cs, ∀ c' ∈ cs', c'.page ≠ c.page) : Reprotected (cs ++ cs') s u where
  core := h'.core.trans h.core
  pages := h'.pages.trans h.pages
  backed := h'.backed
  others p hp := by
    rw [h'.others p fun c hc => hp c (List.mem_append_right _ hc), h.others p fun c hc => hp c (List.mem_append_left _ hc)]
  ready c hc := by
    rcases List.mem_append.1 hc with hc | hc
    · exact h'.ready_of_ne (h.ready c hc) (hne c hc)
    · exact h'.ready c hc

theorem ready_of_view {f : VmAreaFlags} (hrecord : ⟨c.page, c.frame⟩ ∈ t.pages)
    (hview : view t.table c.page = leafFor f c.frame) : Ready t c := by
  refine ⟨hrecord, fun x hx => ?_⟩
  rw [hview] at hx
  unfold leafFor at hx
  split_ifs at hx
  rw [← Option.some.inj hx]

theorem attemptTable_spec (hs : Backed s.table s.pages) (hc : Ready s c) :
    wp (attemptTable (applyPageProtection c.page c.frame area)) s
      (fun r t => Reprotected [c] s t ∧ match r with
        | .ok _ => view t.table c.page = leafFor area.flags c.frame
        | .error _ => view t.table c.page = view s.table c.page ∧ ¬area.flags.NoAccess ∧
          (view s.table c.page = none ∨ ¬area.flags.options.Mappable))
      (fun _ _ => False) := by
  simp only [attemptTable, wp_attempt]
  refine (applyPageProtection_spec hs (hs.user _ hc.record) hc.record hc.frame).mono ?_ ?_
  · rintro _ table ⟨hu, hb⟩
    have hview : view table c.page = leafFor area.flags c.frame := by rw [hu.view_eq, Function.update_self]
    refine ⟨⟨rfl, rfl, hb, fun p hp => ?_, fun c' hc' => ?_⟩, hview⟩
    · exact (congrFun hu.view_eq p).trans (Function.update_of_ne (hp c List.mem_cons_self).symm _ _)
    · obtain rfl := List.mem_singleton.1 hc'
      exact ready_of_view hc.record hview
  · rintro e table ⟨hu, hb, hno, hwhy⟩
    have hview : view table c.page = view s.table c.page := by rw [hu.view_eq]
    refine ⟨⟨rfl, rfl, hb, fun p _ => congrFun hu.view_eq p, fun c' hc' => ?_⟩, hview, hno, hwhy⟩
    obtain rfl := List.mem_singleton.1 hc'
    exact ⟨hc.record, fun x hx => hc.frame x (hview ▸ hx)⟩

theorem Reprotected.cons (h : Reprotected [c] s t) (hne : ∀ c' ∈ cs, c.page ≠ c'.page) (h' : Reprotected cs t u) :
    Reprotected (c :: cs) s u ∧ view u.table c.page = view t.table c.page ∧
      ∀ c' ∈ cs, view t.table c'.page = view s.table c'.page := by
  refine ⟨?_, h'.others c.page fun c' hc' => (hne c' hc').symm, fun c' hc' => ?_⟩
  · refine h.append h' fun c₁ hc₁ c' hc' => ?_
    rw [List.mem_singleton.1 hc₁]
    exact (hne c' hc').symm
  · exact h.others c'.page fun _ hc₁ => List.mem_singleton.1 hc₁ ▸ hne c' hc'

theorem Reprotected.ready_rest (h : Reprotected [c] s t) (hne : ∀ c' ∈ cs, c.page ≠ c'.page) (hcs : ∀ c' ∈ cs, Ready s c') :
    ∀ c' ∈ cs, Ready t c' :=
  fun c' hc' => h.ready_of_ne (hcs c' hc') fun _ hc₁ => List.mem_singleton.1 hc₁ ▸ hne c' hc'

/-- The leaf of each page is put back, unless it is not there and cannot be made. -/
theorem restorePages_spec (hs : Backed s.table s.pages) (hcs : ∀ c ∈ cs, Ready s c)
    (hne : cs.Pairwise fun c c' => c.page ≠ c'.page) : wp (restorePages cs) s
      (fun _ t => Reprotected cs s t ∧ ∀ c ∈ cs, view t.table c.page = leafFor c.oldArea.flags c.frame ∨
        view t.table c.page = view s.table c.page ∧ ¬c.oldArea.flags.NoAccess ∧
          (view s.table c.page = none ∨ ¬c.oldArea.flags.options.Mappable))
      (fun _ _ => False) := by
  induction cs generalizing s with
  | nil => exact wp_pure.2 ⟨.nil hs, fun _ hc => (nomatch hc)⟩
  | cons c cs ih =>
    obtain ⟨hc, hcs⟩ := List.forall_mem_cons.1 hcs
    obtain ⟨hnec, hne⟩ := List.pairwise_cons.1 hne
    simp only [restorePages, wp_bind]
    refine (attemptTable_spec hs hc).mono ?_ fun _ _ hf => hf.elim
    rintro r s₁ ⟨hone, hview⟩
    refine (ih hone.backed (hone.ready_rest hnec hcs) hne).mono ?_ fun _ _ hf => hf.elim
    rintro _ t ⟨hrest, hviews⟩
    obtain ⟨hall, hviewc, hsame⟩ := hone.cons hnec hrest
    refine ⟨hall, List.forall_mem_cons.2 ⟨?_, fun c' hc' => ?_⟩⟩
    · rw [hviewc]
      cases r with
      | ok _ => exact .inl hview
      | error e => exact .inr hview
    · rw [← hsame c' hc']
      exact hviews c' hc'

theorem withAccess_noAccess {f : VmAreaFlags} : (f.withAccess access).NoAccess ↔ access.NoAccess := by
  rw [VmAreaFlags.noAccess_iff, VmAreaFlags.noAccess_iff]
  rfl

/-- The leaves are changed alone: all of them, or some of them before one is refused. -/
theorem fallbackLoop_spec (hs : Backed s.table s.pages) (hcs : ∀ c ∈ cs, Ready s c)
    (hne : cs.Pairwise fun c c' => c.page ≠ c'.page) : wp (fallbackLoop access cs) s
      (fun all t => Reprotected cs s t ∧ (all = false → ¬access.NoAccess) ∧ ∀ c ∈ cs,
        view t.table c.page = leafFor (c.oldArea.flags.withAccess access) c.frame ∨
          all = false ∧ view t.table c.page = view s.table c.page)
      (fun _ _ => False) := by
  induction cs generalizing s with
  | nil => exact wp_pure.2 ⟨.nil hs, fun hf => (nomatch hf), fun _ hc => (nomatch hc)⟩
  | cons c cs ih =>
    obtain ⟨hc, hcs⟩ := List.forall_mem_cons.1 hcs
    obtain ⟨hnec, hne⟩ := List.pairwise_cons.1 hne
    have huser : c.page.start < userEnd := hs.user _ hc.record
    have hend : checkedAdd c.page.start pageSize = some (c.page.start + 4096) := by
      unfold userEnd at huser
      rw [checkedAdd_eq_some]
      unfold pageSize usizeLimit
      omega
    simp only [fallbackLoop, wp_bind, wp_okOr, hend, Option.some.injEq, forall_eq', VirtRange.new_eq_some,
      VirtRange.new_eq_none,
      reduceCtorEq, false_implies, and_true]
    refine ⟨fun range _ => ?_, fun hlt => by omega⟩
    refine (attemptTable_spec hs hc).mono ?_ fun _ _ hf => hf.elim
    rintro (e | ⟨⟩) s₁ ⟨hone, hview⟩
    · obtain ⟨hview, hno, -⟩ := hview
      have hready := hone.ready_rest hnec hcs
      have hskip : Reprotected cs s₁ s₁ := ⟨rfl, rfl, hone.backed, fun _ _ => rfl, hready⟩
      obtain ⟨hall, -, hsame⟩ := hone.cons hnec hskip
      refine wp_pure.2 ⟨hall, fun _ => fun hna => hno (withAccess_noAccess.2 hna), ?_⟩
      exact List.forall_mem_cons.2 ⟨.inr ⟨rfl, hview⟩, fun c' hc' => .inr ⟨rfl, hsame c' hc'⟩⟩
    · refine (ih hone.backed (hone.ready_rest hnec hcs) hne).mono ?_ fun _ _ hf => hf.elim
      rintro all t ⟨hrest, hna, hviews⟩
      obtain ⟨hall, hviewc, hsame⟩ := hone.cons hnec hrest
      refine ⟨hall, hna, List.forall_mem_cons.2 ⟨.inl (hviewc.trans hview), fun c' hc' => ?_⟩⟩
      rw [← hsame c' hc']
      exact hviews c' hc'

/-- The leaves are brought in line with the areas, up to the first one that is refused. -/
theorem protectLoop_spec {updated : List VirtPage} {flags : ChangedPage → VmAreaFlags} (hs : Backed s.table s.pages)
    (hcs : ∀ c ∈ cs, Ready s c) (hne : cs.Pairwise fun c c' => c.page ≠ c'.page)
    (harea : ∀ c ∈ cs, ∃ area, s.core.layout.findArea c.page.start = some area ∧ area.flags = flags c) :
    wp (protectLoop cs updated) s
      (fun r t => ∃ done rest, cs = done ++ rest ∧ r.1 = updated ++ done.map ChangedPage.page ∧ Reprotected done s t ∧
        (∀ c ∈ done, view t.table c.page = leafFor (flags c) c.frame) ∧
        (r.2 = none → rest = []) ∧ (r.2 ≠ none → ∃ c ∈ cs, ¬(flags c).NoAccess))
      (fun _ _ => False) := by
  induction cs generalizing s updated with
  | nil => exact wp_pure.2 ⟨[], [], rfl, by simp, .nil hs, fun _ hc => (by cases hc), fun _ => rfl, fun hr => absurd rfl hr⟩
  | cons c cs ih =>
    obtain ⟨hc, hcs⟩ := List.forall_mem_cons.1 hcs
    obtain ⟨hnec, hne⟩ := List.pairwise_cons.1 hne
    obtain ⟨⟨area, hfind, hflags⟩, harea⟩ := List.forall_mem_cons.1 harea
    simp only [protectLoop, wp_bind, wp_get, wp_okOr_of_eq hfind]
    refine (attemptTable_spec hs hc).mono ?_ fun _ _ hf => hf.elim
    rintro (e | ⟨⟩) s₁ ⟨hone, hview⟩
    · obtain ⟨hview, hno, -⟩ := hview
      refine wp_pure.2 ⟨[], c :: cs, rfl, by
        simp, ⟨hone.core, hone.pages, hone.backed, fun p _ => ?_, fun _ hc => (by cases hc)⟩,
        fun _ hc => (by cases hc), fun hr => (by cases hr), fun _ => ⟨c, List.mem_cons_self, hflags ▸ hno⟩⟩
      by_cases hp : c.page = p
      · rw [← hp, hview]
      · exact hone.others p fun _ hc₁ => List.mem_singleton.1 hc₁ ▸ hp
    · refine (ih hone.backed (hone.ready_rest hnec hcs) hne ?_).mono ?_ fun _ _ hf => hf.elim
      · rw [hone.core]
        exact harea
      · rintro r t ⟨done, rest, rfl, hr, hdone, hviews, hend, herror⟩
        obtain ⟨hall, hviewc, -⟩ := hone.cons (fun c' hc' => hnec c' (List.mem_append_left _ hc')) hdone
        refine ⟨c :: done, rest, rfl, by rw [hr]; simp, hall, ?_, hend, fun hr => ?_⟩
        · exact List.forall_mem_cons.2 ⟨by rw [hviewc, hview, hflags], hviews⟩
        · obtain ⟨c', hc', hno⟩ := herror hr
          exact ⟨c', List.mem_cons_of_mem _ hc', hno⟩

end leaves

/-! ### The whole call -/

section call
variable {range : VirtRange} {access : VmAreaFlags} {cs done : List ChangedPage} {s' u : UserMmState}

def Accepts (range : VirtRange) (access : VmAreaFlags) (s : UserMmState) : Prop :=
  s.core.layout.Protects vmaCapacity (granted s 1) range access

def Vacant (range : VirtRange) (s : UserMmState) : Prop := ∀ m ∈ s.pages, ¬range.contains m.page.start

def ProtectsLeaves (range : VirtRange) (access : VmAreaFlags) (s : UserMmState) : Prop :=
  Vacant range s ∨ (Accepts range access s → granted s 2 = true ∨ access.NoAccess) ∧
    (¬Accepts range access s → ¬access.NoAccess)

def ProtectsRights (range : VirtRange) (access : VmAreaFlags) (s : UserMmState) : Prop :=
  Vacant range s ∨ (Accepts range access s → granted s 2 = true) ∧ (¬Accepts range access s → access.write = true)

structure Protected (range : VirtRange) (access : VmAreaFlags) (s t : UserMmState) : Prop where
  inv : Inv t
  pages : t.pages = s.pages
  attr_eq : attr t = attr s ∨
    ∀ x, attr t x = (attr s x).map fun v => (if range.contains x then v.1.withAccess access else v.1, v.2)
  coherent : ProtectsLeaves range access s → Coherent s → Coherent t
  permitted : ProtectsRights range access s → Permitted s → Permitted t

theorem Protected.of_settled (inv : Inv t) (pages : t.pages = s.pages) (attr_eq : attr t = attr s ∨
      ∀ x, attr t x = (attr s x).map fun v => (if range.contains x then v.1.withAccess access else v.1, v.2))
    (settled : Settled s t) : Protected range access s t where
  inv := inv
  pages := pages
  attr_eq := attr_eq
  coherent _ hc := ⟨pages ▸ hc.unique, settled.absent hc.absent⟩
  permitted _ hp := settled.permitted inv.backed hp

theorem Untouched.protected (hs : Inv s) (h : Untouched s t) : Protected range access s t :=
  .of_settled (h.inv hs) h.pages (.inl h.attr) (h.kept hs.backed).settled

theorem Untouched.ready (h : Untouched s t) {c : ChangedPage} (hc : Collected s c) : Ready t c :=
  ⟨h.pages ▸ hc.record, fun x hx => hc.frame x (h.table.view_eq ▸ hx)⟩

theorem Collects.contains {count : Nat} (h : Collects s range.start count cs) (hcount : count = (range.size + 4095) / 4096)
    {c : ChangedPage} (hc : c ∈ cs) : range.contains c.page.start := by
  obtain ⟨-, i, hi, hstart⟩ := h.each c hc
  unfold VirtRange.contains
  unfold VirtRange.size at hcount
  omega

theorem Collects.exists_of_contains {count : Nat} (h : Collects s range.start count cs)
    (hcount : count = (range.size + 4095) / 4096) {m : MappedPage} (hm : m ∈ s.pages) (hin : range.contains m.page.start) :
    ∃ c ∈ cs, c.page = m.page := by
  refine h.all m hm hin.1 ?_
  have := hin.2
  unfold VirtRange.size at hcount
  omega

theorem Collects.distinct {count address : Nat} (h : Collects s address count cs) : cs.Pairwise fun c c' =>
    c.page ≠ c'.page :=
  h.ordered.imp fun hlt heq => absurd (heq ▸ hlt) (Nat.lt_irrefl _)

theorem Reprotected.attr (h : Reprotected cs s t) : attr t = attr s := by
  funext x
  rw [UserMm.attr, UserMm.attr, h.core]

theorem Reprotected.inv (h : Reprotected cs s t) (hs : Inv s) : Inv t where
  layout := h.core ▸ hs.layout
  backed := h.backed
  lawful := h.attr ▸ hs.lawful
  record := by
    rw [h.pages, h.attr]
    exact hs.record

theorem Collects.of_untouched {count address : Nat} (h : Untouched s s') (hc : Collects s' address count cs) :
    Collects s address count cs where
  each c hmem := by
    obtain ⟨hcol, hi⟩ := hc.each c hmem
    refine ⟨⟨h.layout ▸ hcol.area, h.pages ▸ hcol.record, fun x hx => hcol.frame x ?_⟩, hi⟩
    rw [h.table.view_eq]
    exact hx
  ordered := hc.ordered
  all := h.pages ▸ hc.all

/-- The flags of the records are such that a leaf can be made where there is access. -/
theorem Inv.oldArea (hs : Inv s) {c : ChangedPage} (hc : Collected s c) :
    attr s c.page.start = some (c.oldArea.flags, c.oldArea.kind) ∧ c.oldArea.flags.Ordinary := by
  have hattr := hs.attr_of_findArea hc.area
  obtain ⟨f, k, hfk, hordinary⟩ := hs.record _ hc.record
  obtain ⟨rfl, rfl⟩ := Prod.mk.inj (Option.some.inj (hfk.symm.trans hattr))
  exact ⟨hattr, hordinary⟩

/-- Pages that are not touched stay, and each page that is touched is left as it was or as its area asks for. -/
theorem settled_of_leaves (cs : List ChangedPage) (pages : t.pages = s.pages)
    (hattr : ∀ m ∈ s.pages, (∀ c ∈ cs, c.page ≠ m.page) → attr t m.page.start = attr s m.page.start)
    (others : ∀ p, (∀ c ∈ cs, c.page ≠ p) → view t.table p = view s.table p)
    (touched : ∀ c ∈ cs, Same s t c.page ∨ Synced t c.page) : Settled s t := by
  intro m hm
  rw [pages] at hm
  by_cases hc : ∃ c ∈ cs, c.page = m.page
  · obtain ⟨c, hc, hpage⟩ := hc
    exact hpage ▸ touched c hc
  · have hne : ∀ c ∈ cs, c.page ≠ m.page := fun c hcs hpage => hc ⟨c, hcs, hpage⟩
    exact .inl ⟨⟨m, hm, rfl⟩, others _ hne, fun f k hk => ⟨k, hattr m hm hne ▸ hk⟩⟩

theorem synced_of_leaf {c : ChangedPage} {f : VmAreaFlags} {k : VmAreaKind} (hattr : attr t c.page.start = some (f, k))
    (hview : view t.table c.page = leafFor f c.frame) : Synced t c.page := by
  intro f' k' h
  obtain ⟨rfl, rfl⟩ := Prod.mk.inj (Option.some.inj (hattr.symm.trans h))
  exact ⟨_, hview⟩

/-- The areas have refused, and all leaves have been changed alone. -/
theorem fallback_protected {count : Nat} (hs : Inv s) (hu : Untouched s s') (hcol : Collects s range.start count cs)
    (hcount : count = (range.size + 4095) / 4096) (hrefused : ¬Accepts range access s) (hwrite : access.write = false)
    (hcs : cs ≠ []) (h : Reprotected cs s' t)
    (hviews : ∀ c ∈ cs, view t.table c.page = leafFor (c.oldArea.flags.withAccess access) c.frame) :
    Protected range access s t := by
  have hattr : attr t = attr s := h.attr.trans hu.attr
  have hpages : t.pages = s.pages := h.pages.trans hu.pages
  have hvacant : ¬Vacant range s := by
    obtain ⟨c, hc⟩ := List.exists_mem_of_ne_nil cs hcs
    exact fun hv => hv _ (hcol.each c hc).1.record (hcol.contains hcount hc)
  refine ⟨h.inv (hu.inv hs), hpages, .inl hattr, fun hcare hc => ?_, fun hcare _ => ?_⟩
  · have hsome : ¬access.NoAccess := (hcare.resolve_left hvacant).2 hrefused
    refine ⟨hpages ▸ hc.unique, fun m hm hview f k hf => ?_⟩
    rw [hpages] at hm
    rw [hattr] at hf
    by_cases hmc : ∃ c ∈ cs, c.page = m.page
    · obtain ⟨c, hc, hpage⟩ := hmc
      rw [← hpage, hviews c hc, leafFor_access fun hno => hsome (withAccess_noAccess.1 hno)] at hview
      cases hview
    · refine hc.absent m hm ?_ f k hf
      rw [← hview, h.others m.page fun c hc hpage => hmc ⟨c, hc, hpage⟩, hu.table.view_eq]
  · have := (hcare.resolve_left hvacant).2 hrefused
    rw [hwrite] at this
    cases this

/-- The areas have refused, and the leaves that had been changed have been put back. -/
theorem restore_protected {count : Nat} (hs : Inv s) (hu : Untouched s s') (hcol : Collects s range.start count cs)
    (hsome : ¬access.NoAccess) (h : Reprotected cs s' u) (hviews : ∀ c ∈ cs,
      view u.table c.page = leafFor (c.oldArea.flags.withAccess access) c.frame ∨
      view u.table c.page = view s'.table c.page)
    (h' : Reprotected cs u t) (hviews' : ∀ c ∈ cs, view t.table c.page = leafFor c.oldArea.flags c.frame ∨
      view t.table c.page = view u.table c.page ∧ ¬c.oldArea.flags.NoAccess ∧
        (view u.table c.page = none ∨ ¬c.oldArea.flags.options.Mappable)) : Protected range access s t := by
  have hattr : attr t = attr s := h'.attr.trans (h.attr.trans hu.attr)
  have hpages : t.pages = s.pages := h'.pages.trans (h.pages.trans hu.pages)
  refine .of_settled (h'.inv (h.inv (hu.inv hs))) hpages (.inl hattr)
    (settled_of_leaves cs hpages (fun _ _ _ => by rw [hattr]) ?_ ?_)
  · intro p hp
    rw [h'.others p hp, h.others p hp, hu.table.view_eq]
  · intro c hc
    have hcc := (hcol.each c hc).1
    obtain ⟨hold, hordinary⟩ := hs.oldArea hcc
    rcases hviews' c hc with hview | ⟨hview, hno, hwhy⟩
    · exact .inr (synced_of_leaf (hattr ▸ hold) hview)
    · have hnone := hwhy.resolve_right fun hn => hn (hordinary.mappable hno)
      rcases hviews c hc with hleaf | hsame
      · rw [hleaf, leafFor_access fun hn => hsome (withAccess_noAccess.1 hn)] at hnone
        cases hnone
      · refine .inl ⟨⟨_, hcc.record, rfl⟩, ?_, fun f k hf => ⟨k, hattr ▸ hf⟩⟩
        rw [hview, hsame, hu.table.view_eq]

theorem Inv.relabel (hs : Inv s) (haccess : ¬access.NoAccess → access.read = true) (hl : t.core.layout.Sound vmaCapacity)
    (hattr : ∀ x, attr t x = (attr s x).map fun v => (if range.contains x then v.1.withAccess access else v.1, v.2))
    (hpages : t.pages = s.pages) (hb : Backed t.table t.pages) : Inv t := by
  refine ⟨hl, hb, fun x f k hf => ?_, fun m hm => ?_⟩
  · rw [hattr] at hf
    obtain ⟨⟨f₀, k₀⟩, hf₀, heq⟩ := Option.map_eq_some_iff.1 hf
    obtain ⟨rfl, rfl⟩ := Prod.mk.inj heq
    obtain ⟨hlawful, hplain⟩ := hs.lawful x f₀ k₀ hf₀
    refine ⟨?_, hplain⟩
    split_ifs
    · exact ⟨hlawful.user, hlawful.not_device, hlawful.not_copyOnWrite⟩
    · exact hlawful
  · rw [hpages] at hm
    obtain ⟨f, k, hf, hordinary⟩ := hs.record m hm
    refine ⟨_, k, by rw [hattr, hf]; rfl, ?_⟩
    dsimp only
    split_ifs
    · exact ⟨hordinary.user, hordinary.not_device, fun hno => haccess fun hn => hno (withAccess_noAccess.2 hn)⟩
    · exact hordinary

theorem relabel_outside {x : Nat}
    (hattr : ∀ x, attr t x = (attr s x).map fun v => (if range.contains x then v.1.withAccess access else v.1, v.2))
    (hout : ¬range.contains x) : attr t x = attr s x := by
  rw [hattr]
  simp only [if_neg hout, Prod.eta, Option.map_id']

theorem relabel_protected (hv : view t.table = view s.table) (ht : Inv t) (hpages : t.pages = s.pages)
    (haccepts : Accepts range access s) (hdenied : granted s 2 = false)
    (hattr : ∀ x, attr t x = (attr s x).map fun v => (if range.contains x then v.1.withAccess access else v.1, v.2)) :
    Protected range access s t := by
  have hout : Vacant range s → Settled s t := fun hvacant =>
    settled_of_leaves [] hpages (fun m hm _ => relabel_outside hattr (hvacant m hm)) (fun p _ => by rw [hv])
      fun _ hc => (nomatch hc)
  refine ⟨ht, hpages, .inr hattr, fun hcare hc => ?_, fun hcare hp => ?_⟩
  · refine ⟨hpages ▸ hc.unique, ?_⟩
    rcases hcare with hvacant | ⟨hcare, -⟩
    · exact (hout hvacant).absent hc.absent
    · have hno : access.NoAccess := (hcare haccepts).resolve_left fun hg => by
        rw [hdenied] at hg
        cases hg
      intro m hm hview f k hf
      rw [hattr] at hf
      obtain ⟨⟨f₀, k₀⟩, hf₀, heq⟩ := Option.map_eq_some_iff.1 hf
      obtain ⟨rfl, rfl⟩ := Prod.mk.inj heq
      split_ifs
      · exact withAccess_noAccess.2 hno
      · exact hc.absent m (hpages ▸ hm) (hv ▸ hview) f₀ k₀ hf₀
  · rcases hcare with hvacant | ⟨hcare, -⟩
    · exact (hout hvacant).permitted ht.backed hp
    · have := hcare haccepts
      rw [hdenied] at this
      cases this

theorem change_protected {count : Nat} (hcol : Collects s range.start count cs)
    (hcount : count = (range.size + 4095) / 4096) (ht : Inv t) (hpages : t.pages = s.pages)
    (hattr : ∀ x, attr t x = (attr s x).map fun v => (if range.contains x then v.1.withAccess access else v.1, v.2))
    (hs : Inv s) (hothers : ∀ p, (∀ c ∈ cs, c.page ≠ p) → view t.table p = view s.table p)
    (hviews : ∀ c ∈ cs, view t.table c.page = leafFor (c.oldArea.flags.withAccess access) c.frame) :
    Protected range access s t := by
  refine .of_settled ht hpages (.inr hattr) (settled_of_leaves cs hpages (fun m hm hne => ?_) hothers fun c hc => .inr ?_)
  · refine relabel_outside hattr fun hin => ?_
    obtain ⟨c, hc, hpage⟩ := hcol.exists_of_contains hcount hm hin
    exact hne c hc hpage
  · refine synced_of_leaf (k := c.oldArea.kind) ?_ (hviews c hc)
    rw [hattr, (hs.oldArea (hcol.each c hc).1).1, Option.map_some, if_pos (hcol.contains hcount hc)]

theorem find?_page (hne : cs.Pairwise fun c c' => c.page ≠ c'.page) {c : ChangedPage} (hc : c ∈ cs) :
    (cs.find? fun c' => c'.page = c.page) = some c := by
  induction cs with
  | nil => cases hc
  | cons c₁ cs ih =>
    obtain ⟨hnec, hne⟩ := List.pairwise_cons.1 hne
    rcases List.mem_cons.1 hc with rfl | hc
    · exact List.find?_cons_of_pos (by simp)
    · rw [List.find?_cons_of_neg (by simpa using hnec c hc)]
      exact ih hne hc

/-- The pages that are put back are the ones that were changed. -/
theorem filterMap_find (hne : (done ++ cs).Pairwise fun c c' => c.page ≠ c'.page) :
    ((done.map ChangedPage.page).filterMap fun page => (done ++ cs).find? fun c => c.page = page) = done := by
  rw [List.filterMap_map]
  have hfind : ∀ c ∈ done, ((fun page => (done ++ cs).find? fun c => c.page = page) ∘ ChangedPage.page) c = some c :=
    fun c hc => find?_page hne (List.mem_append_left _ hc)
  rw [List.filterMap_congr hfind, List.filterMap_some]

/-- A leaf was refused; the leaves before it and the areas have been put back. -/
theorem undo_protected (hs : Inv s) (hcol : ∀ c ∈ done, Collected s c) (hpages : s'.pages = s.pages)
    (hv : view s'.table = view s.table) (hsome : ¬access.NoAccess) (h : Reprotected done s' u)
    (hviews : ∀ c ∈ done, view u.table c.page = leafFor (c.oldArea.flags.withAccess access) c.frame)
    (h' : Reprotected done u t) (hviews' : ∀ c ∈ done, view t.table c.page = leafFor c.oldArea.flags c.frame ∨
      view t.table c.page = view u.table c.page ∧ ¬c.oldArea.flags.NoAccess ∧
        (view u.table c.page = none ∨ ¬c.oldArea.flags.options.Mappable)) :
    Protected range access s (setLayout s.core.layout t) := by
  have hpages' : t.pages = s.pages := h'.pages.trans (h.pages.trans hpages)
  have hinv : Inv (setLayout s.core.layout t) := by
    refine ⟨hs.layout, h'.backed, hs.lawful, fun m hm => hs.record m ?_⟩
    rw [← hpages']
    exact hm
  refine .of_settled hinv hpages' (.inl rfl) (settled_of_leaves done hpages' (fun _ _ _ => rfl) (fun p hp => ?_) fun c hc =>
    .inr ?_)
  · exact (h'.others p hp).trans ((h.others p hp).trans (congrFun hv p))
  · obtain ⟨hold, hordinary⟩ := hs.oldArea (hcol c hc)
    rcases hviews' c hc with hview | ⟨-, hno, hwhy⟩
    · exact synced_of_leaf hold hview
    · have hnone := hwhy.resolve_right fun hn => hn (hordinary.mappable hno)
      rw [hviews c hc, leafFor_access fun hn => hsome (withAccess_noAccess.1 hn)] at hnone
      cases hnone

theorem planTlb_untouched (hs : Backed s.table s.pages) {b : Bool} :
    wp (given b ((fun _ => ()) <$> onCore (UserAddressSpace.planTlbRequest (.range (.addressSpace s.core.asid.id) range))))
      s (fun _ t => Untouched s t ∧ t.table = s.table) (fun _ t => Untouched s t) := by
  obtain ⟨place, hw⟩ := hs.wf
  have hrefl : Untouched s s := ⟨rfl, rfl, hw.updates⟩
  simp only [wp_given, wp_map, onCore, wp_zoom]
  refine ⟨fun _ => ?_, fun _ => ⟨hrefl, trivial⟩⟩
  refine (planTlbRequest_spec rfl).mono ?_ ?_
  · rintro _ _ ⟨-, rfl⟩
    exact ⟨⟨rfl, rfl, hw.updates⟩, trivial⟩
  · rintro _ _ ⟨-, -, rfl⟩
    exact hrefl

theorem protectRange_spec (hs : Inv s) (haccess : ¬access.NoAccess → access.read = true) : wp (protectRange range access) s
    (fun _ t => Protected range access s t) (fun e t => e.IsError → Protected range access s t) := by
  obtain ⟨place, hw⟩ := hs.backed.wf
  have hrefl : Untouched s s := ⟨rfl, rfl, hw.updates⟩
  simp only [protectRange, wp_bind, wp_get, wp_ite, wp_pure, wp_okOr, wp_tryReserve]
  refine ⟨fun _ => hrefl.protected hs, fun _ => ⟨fun covered hcovered => ⟨fun _ => ?_, fun _ _ => ?_⟩,
    fun _ _ => hrefl.protected hs⟩⟩
  · have h₁ : Untouched s (consumed 1 s) := .consumed hs.backed 1
    have hcount : covered / pageSize = (range.size + 4095) / 4096 := by
      rw [← (checkedAdd_eq_some.1 hcovered).2]
      rfl
    refine (changedPages_spec (h₁.inv hs)).mono ?_ ?_
    · rintro cs s₁ ⟨rfl, hcol₁⟩
      have hcol : Collects s range.start (covered / pageSize) cs := hcol₁.of_untouched h₁
      refine (planTlb_untouched (h₁.backed hs.backed)).mono ?_ ?_
      · rintro _ s₂ ⟨h₁₂, htable⟩
        have h₂ := h₁.trans h₁₂
        have hg : ∀ k, granted s₂ k = granted s (1 + k) := fun k => by
          rw [← granted_consumed, granted, granted, htable]
        have h₃ : Untouched s (consumed 1 s₂) := h₂.trans (.consumed (h₂.backed hs.backed) 1)
        simp only [wp_nextReserve, wp_attempt, hg]
        have hlayout : (consumed 1 s₂).core.layout = s.core.layout := h₃.layout
        rw [hlayout]
        refine ((AddressSpace.protectRange_spec hs.layout).and AddressSpace.protectRange_protects).mono ?_ ?_
        · rintro _ layout ⟨⟨hsound, -, hattr⟩, haccepts⟩
          -- The state with the new areas.
          generalize hs₅ : consumed 1 (setLayout layout (consumed 1 s₂)) = s₅
          have hcore : s₅.core.layout = layout := by rw [← hs₅]; rfl
          have hpages : s₅.pages = s.pages := by rw [← hs₅]; exact h₃.pages
          have hview : view s₅.table = view s.table := by
            rw [← hs₅]
            exact (Updates.reserves (h₃.backed hs.backed) _).view_eq.trans h₃.table.view_eq
          have hbacked : Backed s₅.table s₅.pages := by
            rw [← hs₅]
            exact (h₃.backed hs.backed).same (Updates.reserves (h₃.backed hs.backed) _)
          have hattr₅ : ∀ x, attr s₅ x =
              (attr s x).map fun v => (if range.contains x then v.1.withAccess access else v.1, v.2) := by
            intro x
            rw [attr, hcore]
            exact hattr x
          have hinv : Inv s₅ := hs.relabel haccess (hcore ▸ hsound) hattr₅ hpages hbacked
          have hg₂ : granted (setLayout layout (consumed 1 s₂)) 0 = granted s 2 := by
            show granted (consumed 1 s₂) 0 = _
            rw [granted_consumed, hg]
          simp only [wp_bind, wp_tryReserve, hg₂, hs₅]
          refine ⟨fun hgranted => ?_, fun hdenied _ => ?_⟩
          · have hready : ∀ c ∈ cs, Ready s₅ c := fun c hc =>
              ⟨hpages ▸ (hcol.each c hc).1.record, fun x hx => (hcol.each c hc).1.frame x (hview ▸ hx)⟩
            have harea : ∀ c ∈ cs, ∃ area, s₅.core.layout.findArea c.page.start = some area ∧
                area.flags = c.oldArea.flags.withAccess access := by
              intro c hc
              have hc' := hattr₅ c.page.start
              rw [(hs.oldArea (hcol.each c hc).1).1, Option.map_some, if_pos (hcol.contains hcount hc), attr,
                hinv.layout.attr_eq] at hc'
              obtain ⟨area, hfind, heq⟩ := Option.map_eq_some_iff.1 hc'
              exact ⟨area, hfind, (Prod.mk.inj heq).1⟩
            refine (protectLoop_spec hbacked hready hcol.distinct harea).mono ?_ fun _ _ hf => hf.elim
            rintro ⟨updated, _ | e⟩ u ⟨done, rest, rfl, hupdated, hu, hviews, hend, herror⟩
            · obtain rfl := hend rfl
              rw [List.append_nil] at hcol
              refine wp_pure.2 (change_protected hcol hcount (hu.inv hinv) (hu.pages.trans hpages) ?_ hs
                (fun p hp => ?_) hviews)
              · rw [hu.attr]
                exact hattr₅
              · rw [hu.others p hp, hview]
            · obtain ⟨c, -, hno⟩ := herror (by simp)
              have hdistinct := hcol.distinct
              have hrestore : (updated.filterMap fun page => (done ++ rest).find? fun c => c.page = page) = done := by
                rw [show updated = done.map ChangedPage.page by simpa using hupdated]
                exact filterMap_find hdistinct
              simp only [wp_bind, wp_modify, wp_throw, hrestore]
              refine (restorePages_spec hu.backed hu.ready (List.pairwise_append.1 hdistinct).1).mono ?_ fun _ _ hf =>
                hf.elim
              rintro _ t ⟨ht, hviews'⟩ _
              exact undo_protected hs (fun c hc => (hcol.each c (List.mem_append_left _ hc)).1) hpages hview
                (fun hn => hno (withAccess_noAccess.2 hn)) hu hviews ht hviews'
          · exact relabel_protected hview hinv hpages haccepts (by simpa using hdenied) hattr₅
        · rintro e _ ⟨rfl, hrefused⟩
          have h₄ : Untouched s (setLayout s.core.layout (consumed 1 s₂)) := ⟨rfl, h₃.pages, h₃.table⟩
          have hready : ∀ c ∈ cs, Ready (setLayout s.core.layout (consumed 1 s₂)) c :=
            fun c hc => h₄.ready (hcol.each c hc).1
          simp only [wp_ite, wp_bind, wp_modify, wp_throw, wp_pure]
          refine ⟨fun hcond => ?_, fun _ _ => ?_⟩
          · refine (fallbackLoop_spec (h₄.backed hs.backed) hready hcol.distinct).mono ?_ fun _ _ hf => hf.elim
            rintro all u ⟨hu, hna, hviews⟩
            refine ⟨fun hall => ?_, fun hall => ?_⟩
            · refine fallback_protected hs h₄ hcol hcount hrefused (by simpa using hcond.1)
                (by simpa using hcond.2) hu fun c hc => ?_
              exact (hviews c hc).resolve_right fun hn => by simp [hall] at hn
            · rw [Bool.not_eq_true] at hall
              refine (restorePages_spec hu.backed hu.ready hcol.distinct).mono ?_ fun _ _ hf => hf.elim
              rintro _ t ⟨ht, hviews'⟩ _
              exact restore_protected hs h₄ hcol (hna hall) hu (fun c hc => (hviews c hc).imp_right And.right) ht hviews'
          · exact Untouched.protected hs ⟨rfl, h₃.pages, h₃.table⟩
      · intro e t ht _
        exact (h₁.trans ht).protected hs
    · rintro e t rfl _
      exact h₁.protected hs
  · exact (Untouched.consumed hs.backed 1).protected hs

end call

end UserMm

end SudoOS
