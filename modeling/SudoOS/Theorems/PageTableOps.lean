import SudoOS.Theorems.PageTableEdit

/-! What each call on a page table does, in terms of the word that every user page leads to. -/

namespace SudoOS

open Program NodeTree PageTableEntry

namespace RuntimePageTable

variable {s t u : PageTableState} {place : Nat → List Nat}

variable {a c f i level m v : Nat} {frames : List Nat} {o : MappingOptions} {page : VirtPage} {raw : Nat → Nat}

structure Leads (s t : PageTableState) (raw : Nat → Nat) : Prop where
  wf : ∃ place, Wf t place
  kernel : KernelSame s t
  raw_eq : ∀ b < userEnd, leafRaw t b = raw b

theorem KernelSame.refl (s : PageTableState) : KernelSame s s :=
  ⟨rfl, rfl, rfl, rfl, fun _ _ => rfl, fun _ _ => rfl, fun _ hf => ⟨hf, rfl⟩⟩

theorem Wf.leads (hw : Wf s place) : Leads s s (leafRaw s) := ⟨⟨place, hw⟩, .refl s, fun _ _ => rfl⟩

theorem Agrees.leads (h : Agrees s t) (hw : Wf s place) (hram : ∀ f, t.free f = true → t.ram f = true) :
    Leads s t (leafRaw s) :=
  have hw' := h.wf hw hram
  ⟨⟨place, hw'⟩, h.kernelSame hw, fun b _ => h.leafRaw_eq hw hw' b⟩

def leadTo (raw : Nat → Nat) (a v b : Nat) : Nat := if b / 4096 = a / 4096 then v else raw b

theorem Wf.setLeaf_leads (hw : Wf s place) {l : Nat} (ha : a < userEnd) (hl : l ∈ s.runtimeTables)
    (hp : place l = [pageIndex a 0, pageIndex a 1]) (hv : v = 0 ∨ ∃ f o, leaf f o = .ok v) :
    Leads s (s.setEntry l (pageIndex a 2) v) (leadTo (leafRaw s) a v) :=
  ⟨⟨place, hw.setLeaf hl (by simp [hp]) hv⟩, hw.setLeaf_kernelSame hl, fun _ hb => hw.leafRaw_setLeaf hl hp hv ha hb⟩

/-! ### Calls on a mapped page -/

theorem ensureMutablePage_spec : wp (ensureMutablePage page) s
    (fun _ t => t = s ∧ page.start < userEnd) (fun _ t => t = s ∧ userEnd ≤ page.start) := by
  unfold ensureMutablePage
  simp only [wp_ite, wp_pure, wp_throw, true_and]
  exact ⟨fun h => h.2, fun h => Nat.not_lt.1 fun hlt => h ⟨Nat.zero_le _, hlt⟩⟩

theorem writeEntry_spec (hram : s.ram f = true) (hi : i < 512) {Q : Unit → PageTableState → Prop}
    {E : RuntimePageTableError → PageTableState → Prop} (h : Q () (s.setEntry f i v)) : wp (writeEntry f i v) s Q E := by
  unfold writeEntry
  simp only [wp_bind, wp_get, wp_ite, wp_set, wp_throw]
  exact ⟨fun _ => h, fun hn => absurd ⟨hram, hi⟩ hn⟩

theorem Wf.readEntryM_spec (hw : Wf s place) (hf : f = s.root ∨ f ∈ s.runtimeTables)
    {Q : Nat → PageTableState → Prop} {E : RuntimePageTableError → PageTableState → Prop}
    (h : Q (s.entry f (pageIndex a level)) s) : wp (readEntryM f (pageIndex a level)) s Q E := by
  unfold readEntryM
  rw [wp_bind, wp_get, hw.readEntry hf, wp_ofExcept_ok]
  exact h

theorem leafEntryFor_spec : wp (leafEntryFor f o) s
    (fun raw t => t = s ∧ leaf f o = .ok raw)
    (fun e t => t = s ∧ e = .pageTableEntry ∧ ∀ raw, leaf f o ≠ .ok raw) := by
  unfold leafEntryFor
  cases h : leaf f o <;> simp

theorem tableEntry_spec : wp (tableEntry f) s (fun raw t => t = s ∧ table f = .ok raw) (fun _ t => t = s) := by
  unfold tableEntry
  cases h : table f <;> simp

theorem Wf.leafEntry_eq_ok (hw : Wf s place) (hpage : page.start < userEnd) {l k raw : Nat}
    (h : leafEntry s page = .ok (l, k, raw)) : l ∈ s.runtimeTables ∧ place l = [pageIndex page.start 0,
      pageIndex page.start 1] ∧ k = pageIndex page.start 2 ∧ leafRaw s page.start = raw ∧ raw ≠ 0 := by
  have hcanon : isCanonical page.start := .inl hpage
  rw [leafEntry, if_pos hcanon] at h
  simp only [levels, leafLoop, hw.readEntry (.inl rfl), bind, Except.bind] at h
  rcases hw.descent hpage with ⟨hz, -⟩ | ⟨m, hm, hmem, -, hz, -⟩ | ⟨m, l', hm, hmem, -, hl, hmem', hpl⟩
  · simp [hz] at h
  · simp [table_ne_zero hm, descend_table hm, hw.readEntry (.inr hmem), hz] at h
  · simp only [table_ne_zero hm, descend_table hm, hw.readEntry (.inr hmem), table_ne_zero hl, descend_table hl,
      hw.readEntry (.inr hmem'), if_false] at h
    split_ifs at h with h0 hleaf
    cases h
    exact ⟨hmem', hpl, rfl, hw.leafRaw_atLeaf hmem' hpl, h0⟩

theorem Wf.leafEntry_eq_error (hw : Wf s place) (hpage : page.start < userEnd) {e : RuntimePageTableError}
    (h : leafEntry s page = .error e) : e = .notMapped ∧ leafRaw s page.start = 0 := by
  have hcanon : isCanonical page.start := .inl hpage
  rw [leafEntry, if_pos hcanon] at h
  simp only [levels, leafLoop, hw.readEntry (.inl rfl), bind, Except.bind] at h
  rcases hw.descent hpage with ⟨hz, hn⟩ | ⟨m, hm, hmem, hpm, hz, hn⟩ | ⟨m, l, hm, hmem, hpm, hl, hmem', hpl⟩
  · rw [if_pos hz] at h
    cases h
    exact ⟨rfl, leafRaw_atRoot hn⟩
  · simp only [table_ne_zero hm, descend_table hm, hw.readEntry (.inr hmem), hz, if_true, if_false] at h
    cases h
    exact ⟨rfl, hw.leafRaw_atMiddle hmem hpm hn⟩
  · have hraw := hw.leafRaw_atLeaf hmem' hpl
    simp only [table_ne_zero hm, descend_table hm, hw.readEntry (.inr hmem), table_ne_zero hl, descend_table hl,
      hw.readEntry (.inr hmem'), if_false, ← hraw] at h
    rcases hw.leafRaw_cases page.start with h0 | ⟨f, o, hleaf⟩
    · rw [if_pos h0] at h
      cases h
      exact ⟨rfl, h0⟩
    · simp [leaf_ne_zero hleaf, (leaf_eq_ok hleaf).1, pure, Except.pure] at h

theorem Wf.mappedLeaf_spec (hw : Wf s place) : wp (mappedLeaf page) s
    (fun r t => t = s ∧ page.start < userEnd ∧ r.1 ∈ s.runtimeTables ∧
      place r.1 = [pageIndex page.start 0, pageIndex page.start 1] ∧ r.2.1 = pageIndex page.start 2 ∧
      leafRaw s page.start ≠ 0 ∧ ppn (leafRaw s page.start) = r.2.2)
    (fun e t => t = s ∧ (page.start < userEnd → e = .notMapped ∧ leafRaw s page.start = 0)) := by
  unfold mappedLeaf
  rw [wp_bind]
  refine ensureMutablePage_spec.mono ?_ fun _ _ h => ⟨h.1, fun hlt => absurd hlt (Nat.not_lt.2 h.2)⟩
  rintro _ t ⟨rfl, hpage⟩
  simp only [wp_bind, wp_get, wp_ofExcept, wp_okOr, wp_pure, true_and]
  refine ⟨?_, fun e he _ => hw.leafEntry_eq_error hpage he⟩
  rintro ⟨l, k, raw⟩ hentry
  obtain ⟨hl, hp, hk, hraw, hne⟩ := hw.leafEntry_eq_ok hpage hentry
  refine ⟨fun f hf => ⟨hpage, hl, hp, hk, hraw ▸ hne, ?_⟩, fun hf => ?_⟩
  · simp only [frame] at hf
    split_ifs at hf
    rw [hraw]
    exact Option.some.inj hf
  · rcases hw.leafRaw_cases page.start with h0 | ⟨f, o, hleaf⟩
    · exact absurd (hraw.symm.trans h0) hne
    · rw [hraw] at hleaf
      cases (leaf_eq_ok hleaf).2.2.1.symm.trans hf

theorem Wf.protectPage_spec (hw : Wf s place) : wp (protectPage page o) s
    (fun _ t => page.start < userEnd ∧ leafRaw s page.start ≠ 0 ∧
      ∃ v, leaf (ppn (leafRaw s page.start)) o = .ok v ∧ Leads s t (leadTo (leafRaw s) page.start v))
    (fun e t => t = s ∧ (page.start < userEnd → e = .notMapped ∧ leafRaw s page.start = 0 ∨
      e = .pageTableEntry ∧ leafRaw s page.start ≠ 0 ∧ ∀ v, leaf (ppn (leafRaw s page.start)) o ≠ .ok v)) := by
  unfold protectPage
  rw [wp_bind]
  refine hw.mappedLeaf_spec.mono ?_ fun _ _ h => ⟨h.1, fun hlt => .inl (h.2 hlt)⟩
  rintro ⟨l, k, f⟩ t ⟨rfl, hpage, hl, hp, rfl, hne, rfl⟩
  rw [wp_bind]
  refine leafEntryFor_spec.mono ?_ fun _ _ h => ⟨h.1, fun _ => .inr ⟨h.2.1, hne, h.2.2⟩⟩
  rintro v _ ⟨rfl, hv⟩
  exact writeEntry_spec (hw.ram l (.inr hl)) (pageIndex_lt _ 2)
    ⟨hpage, hne, v, hv, hw.setLeaf_leads hpage hl hp (.inr ⟨_, _, hv⟩)⟩

theorem Wf.replacePage_spec (hw : Wf s place) : wp (replacePage page f o) s
    (fun old t => page.start < userEnd ∧ leafRaw s page.start ≠ 0 ∧ ppn (leafRaw s page.start) = old ∧
      ∃ v, leaf f o = .ok v ∧ Leads s t (leadTo (leafRaw s) page.start v))
    (fun _ t => t = s ∧ (page.start < userEnd → leafRaw s page.start = 0 ∨ ∀ v, leaf f o ≠ .ok v)) := by
  unfold replacePage
  rw [wp_bind]
  refine hw.mappedLeaf_spec.mono ?_ fun _ _ h => ⟨h.1, fun hlt => .inl (h.2 hlt).2⟩
  rintro ⟨l, k, old⟩ t ⟨rfl, hpage, hl, hp, rfl, hne, hold⟩
  rw [wp_bind]
  refine leafEntryFor_spec.mono ?_ fun _ _ h => ⟨h.1, fun _ => .inr h.2.2⟩
  rintro v _ ⟨rfl, hv⟩
  rw [wp_bind]
  exact writeEntry_spec (hw.ram l (.inr hl)) (pageIndex_lt _ 2)
    (wp_pure.2 ⟨hpage, hne, hold, v, hv, hw.setLeaf_leads hpage hl hp (.inr ⟨_, _, hv⟩)⟩)

theorem Wf.unmapPage_spec (hw : Wf s place) : wp (unmapPage page) s
    (fun old t => page.start < userEnd ∧ leafRaw s page.start ≠ 0 ∧ ppn (leafRaw s page.start) = old ∧
      Leads s t (leadTo (leafRaw s) page.start 0))
    (fun e t => t = s ∧ (page.start < userEnd → e = .notMapped ∧ leafRaw s page.start = 0)) := by
  unfold unmapPage
  rw [wp_bind]
  refine hw.mappedLeaf_spec.mono ?_ fun _ _ h => h
  rintro ⟨l, k, old⟩ t ⟨rfl, hpage, hl, hp, rfl, hne, hold⟩
  rw [wp_bind]
  exact writeEntry_spec (hw.ram l (.inr hl)) (pageIndex_lt _ 2)
    (wp_pure.2 ⟨hpage, hne, hold, hw.setLeaf_leads hpage hl hp (.inl rfl)⟩)

/-! ### Mapping a page -/

structure Allocated (s t : PageTableState) (frames : List Nat) : Prop where
  agrees : Agrees s t
  was_free : ∀ f ∈ frames, s.free f = true
  nodup : frames.Nodup
  zero : ∀ f ∈ frames, ∀ i, t.entry f i = 0
  entry : ∀ f, f ∉ frames → t.entry f = s.entry f
  free : ∀ f, t.free f = true ↔ s.free f = true ∧ f ∉ frames

theorem Allocated.nil (h : Agrees s t) (hentry : t.entry = s.entry) (hfree : t.free = s.free) : Allocated s t [] where
  agrees := h
  was_free := by simp
  nodup := .nil
  zero := by simp
  entry f _ := congrFun hentry f
  free f := by simp [hfree]

theorem Allocated.snoc (h : Allocated s t frames) (hf : t.free f = true)
    (hu : u = { ((t.setFree f false).zeroFrame f) with choices := u.choices, reserves := u.reserves }) :
    Allocated s u (frames ++ [f]) := by
  obtain ⟨hs, hnot⟩ := (h.free f).1 hf
  have hentry : ∀ g, g ≠ f → u.entry g = t.entry g := fun g hg => by
    rw [hu]
    funext i
    exact if_neg hg
  have hfree : ∀ g, u.free g = if g = f then false else t.free g := fun g => by
    rw [hu]
    rfl
  refine ⟨h.agrees.trans ?_, ?_, ?_, ?_, ?_, ?_⟩
  · rw [hu]
    refine ⟨rfl, rfl, rfl, rfl, rfl, rfl, fun g hg => ?_, fun g hg => ?_⟩
    · have hgf : g ≠ f := fun h => by simp [h, hf] at hg
      rw [← hu]
      exact hentry g hgf
    · rw [← hu, hfree]
      split_ifs
      · rfl
      · exact hg
  · intro g hg
    rcases List.mem_append.1 hg with hg | hg
    · exact h.was_free g hg
    · obtain rfl := List.mem_singleton.1 hg
      exact hs
  · refine List.nodup_append.2 ⟨h.nodup, List.pairwise_singleton _ f, fun a ha b hb => ?_⟩
    obtain rfl := List.mem_singleton.1 hb
    rintro rfl
    exact hnot ha
  · intro g hg i
    by_cases hgf : g = f
    · rw [hu, hgf]
      exact if_pos rfl
    · rw [hentry g hgf]
      exact h.zero g (by simpa [hgf] using hg) i
  · intro g hg
    simp only [List.mem_append, List.mem_singleton, not_or] at hg
    rw [hentry g hg.2, h.entry g hg.1]
  · intro g
    rw [hfree]
    by_cases hgf : g = f
    · simp [hgf]
    · simp [hgf, h.free]

theorem Allocated.answers (h : Allocated s t frames) (c : List (Option Nat)) (r : List Bool) :
    Allocated s { t with choices := c, reserves := r } frames :=
  ⟨⟨h.agrees.root, h.agrees.kernelRoot, h.agrees.ram, h.agrees.owned, h.agrees.tables, h.agrees.retired, h.agrees.entry,
    h.agrees.free⟩, h.was_free, h.nodup, h.zero, h.entry, h.free⟩

theorem allocateZeroedTable_spec (h : Allocated s t frames) : wp allocateZeroedTable t
    (fun r u => match r with
      | some f => Allocated s u (frames ++ [f])
      | none => Allocated s u frames)
    (fun _ _ => False) := by
  unfold allocateZeroedTable
  simp only [wp_bind, wp_get, wp_set]
  have h' := h.answers t.choices.tail t.reserves
  split
  · next f _ =>
    simp only [wp_ite, wp_bind, wp_modify, wp_pure]
    exact ⟨fun hf => h'.snoc hf rfl, fun _ => h'⟩
  · exact wp_pure.2 h'

theorem allocateTables_spec {n : Nat} (h : Allocated s t frames) : wp (allocateTables n frames) t
    (fun r u => Allocated s u r.1 ∧ (r.2 = true → r.1.length = frames.length + n)) (fun _ _ => False) := by
  induction n generalizing t frames with
  | zero => exact wp_pure.2 ⟨h, fun _ => rfl⟩
  | succ n ih =>
    rw [allocateTables, wp_bind]
    refine (allocateZeroedTable_spec h).mono ?_ fun _ _ hf => hf
    rintro (_ | f) u hu
    · exact wp_pure.2 ⟨hu, fun hf => (nomatch hf)⟩
    · refine (ih hu).mono ?_ fun _ _ hf => hf
      rintro ⟨out, ok⟩ v ⟨hv, hlen⟩
      refine ⟨hv, fun hok => ?_⟩
      rw [hlen hok, List.length_append, List.length_singleton]
      omega

structure WritesIn (t u : PageTableState) (frames : List Nat) : Prop where
  entry : ∀ f, f ∉ frames → u.entry f = t.entry f
  rest : u = { t with entry := u.entry }

theorem WritesIn.refl (t : PageTableState) (frames : List Nat) : WritesIn t t frames := ⟨fun _ _ => rfl, rfl⟩

theorem WritesIn.set (h : WritesIn t u frames) (hf : f ∈ frames) :
    WritesIn t (u.setEntry f i v) frames where
  entry g hg := by
    have hgf : g ≠ f := fun h => hg (h ▸ hf)
    rw [setEntry_entry_of_ne hgf]
    exact h.entry g hg
  rest := by
    rw [h.rest]
    rfl

theorem freeTables_eq (frames : List Nat) (t : PageTableState) : freeTables frames t =
    { t with free := fun f => decide (f ∈ frames) || t.free f } := by
  induction frames generalizing t with
  | nil => simp [freeTables]
  | cons f frames ih =>
    have : freeTables (f :: frames) t = freeTables frames (freeTable t f) := rfl
    rw [this, ih]
    simp only [freeTable, PageTableState.setFree, PageTableState.mk.injEq, true_and, and_true]
    funext g
    by_cases hg : g = f <;> simp [hg]

/-- Giving the new frames back undoes the allocation and whatever was written into them. -/
theorem Allocated.undone (h : Allocated s t frames) (hu : WritesIn t u frames) :
    Agrees s (freeTables frames u) ∧ ∀ f, (freeTables frames u).free f = s.free f := by
  have hfree : ∀ f, (freeTables frames u).free f = s.free f := fun f => by
    rw [freeTables_eq, hu.rest]
    by_cases hf : f ∈ frames
    · simp [hf, h.was_free f hf]
    · have := h.free f
      simp only [hf, not_false_eq_true, and_true] at this
      simpa [hf] using Bool.eq_iff_iff.2 this
  refine ⟨?_, hfree⟩
  have ha := h.agrees
  refine ⟨?_, ?_, ?_, ?_, ?_, ?_, fun f hf => ?_, fun f hf => (hfree f).trans hf⟩
  · rw [freeTables_eq, hu.rest]; exact ha.root
  · rw [freeTables_eq, hu.rest]; exact ha.kernelRoot
  · rw [freeTables_eq, hu.rest]; exact ha.ram
  · rw [freeTables_eq, hu.rest]; exact ha.owned
  · rw [freeTables_eq, hu.rest]; exact ha.tables
  · rw [freeTables_eq, hu.rest]; exact ha.retired
  · have hnot : f ∉ frames := fun h' => by simp [h.was_free f h'] at hf
    rw [freeTables_eq]
    exact (hu.entry f hnot).trans (h.entry f hnot)

theorem Leads.answers (h : Leads s t raw) (c : List (Option Nat)) (r : List Bool) :
    Leads s { t with choices := c, reserves := r } raw := by
  obtain ⟨⟨place, hw⟩, hk, hr⟩ := h
  exact ⟨⟨place, hw.tree, hw.depth, hw.interior, hw.leaves, hw.nodup, hw.retired_not, hw.used, hw.in_ram,
    hw.free_ram, hw.apart,
    hw.kernel, hw.kernelRoot⟩, ⟨hk.root, hk.kernelRoot, hk.ram, hk.owned, hk.high, hk.entry, fun f hf =>
      have ⟨⟨h₁, h₂, h₃, h₄, h₅⟩, he⟩ := hk.foreign f hf
      ⟨⟨h₁, h₂, h₃, h₄, h₅⟩, he⟩⟩, hr⟩

structure SameTable (t u : PageTableState) : Prop where
  entry : u.entry = t.entry
  ram : u.ram = t.ram
  free : u.free = t.free
  kernelRoot : u.kernelRoot = t.kernelRoot
  owned : u.kernelOwned = t.kernelOwned
  root : u.root = t.root
  tables : u.runtimeTables = t.runtimeTables
  retired : u.retired = t.retired

theorem Leads.of_same (h : Leads s t raw) (hu : SameTable t u) : Leads s u raw := by
  have := h.answers u.choices u.reserves
  obtain ⟨h₁, h₂, h₃, h₄, h₅, h₆, h₇, h₈⟩ := hu
  rwa [← h₁, ← h₂, ← h₃, ← h₄, ← h₅, ← h₆, ← h₇, ← h₈] at this

theorem linkChain_one (hf : t.ram f = true) (hm : t.ram m = true) : wp (linkChain m 1 a v [f]) t
    (fun _ u => ∃ e, table f = .ok e ∧ u = (t.setEntry f (pageIndex a 2) v).setEntry m (pageIndex a 1) e)
    (fun _ u => WritesIn t u [f]) := by
  unfold linkChain
  rw [wp_bind]
  refine writeEntry_spec hf (pageIndex_lt _ _) ?_
  have hin : WritesIn t (t.setEntry f (pageIndex a 2) v) [f] := (WritesIn.refl t [f]).set (by simp)
  rw [wp_bind]
  refine tableEntry_spec.mono ?_ fun _ _ h => h ▸ hin
  rintro e _ ⟨rfl, he⟩
  refine writeEntry_spec ?_ (pageIndex_lt _ _) ⟨e, he, rfl⟩
  exact hm

theorem linkChain_two {r g : Nat} (hf : t.ram f = true) (hg : t.ram g = true) (hr : t.ram r = true) :
    wp (linkChain r 0 a v [f, g]) t
      (fun _ u => ∃ e e', table f = .ok e ∧ table g = .ok e' ∧
        u = ((t.setEntry g (pageIndex a 2) v).setEntry f (pageIndex a 1) e').setEntry r (pageIndex a 0) e)
      (fun _ u => WritesIn t u [f, g]) := by
  unfold linkChain linkTables
  simp only [wp_bind]
  refine writeEntry_spec hg (pageIndex_lt _ _) ?_
  have hin : WritesIn t (t.setEntry g (pageIndex a 2) v) [f, g] := (WritesIn.refl t [f, g]).set (by simp)
  refine tableEntry_spec.mono ?_ fun _ _ h => h ▸ hin
  rintro e' _ ⟨rfl, he'⟩
  refine writeEntry_spec ?_ (pageIndex_lt _ _) ?_
  · exact hf
  refine tableEntry_spec.mono ?_ fun _ _ h => h ▸ hin.set (by simp)
  rintro e _ ⟨rfl, he⟩
  refine writeEntry_spec ?_ (pageIndex_lt _ _) ⟨e, e', he, he', rfl⟩
  exact hr

/-- One missing table: it takes the leaf and hangs in the middle table. -/
theorem Wf.install_one (hw : Wf s place) {e : Nat} (ha : a < userEnd) (hm : m ∈ s.runtimeTables)
    (hpm : place m = [pageIndex a 0]) (hslot : slot s m (pageIndex a 1) = none) (hf : s.free f = true)
    (he : table f = .ok e) (hv : ∃ f o, leaf f o = .ok v) :
    Leads s ((attach s m (pageIndex a 1) f e).setEntry f (pageIndex a 2) v) (leadTo (leafRaw s) a v) := by
  have hne : m = s.root → pageIndex a 1 < 256 := fun h => absurd h (hw.tree.ne_root hm)
  have hw₁ := hw.attached (.inr hm) hne hf (by simp [hpm]) (pageIndex_lt a 1) hslot he
  have hmem : f ∈ (attach s m (pageIndex a 1) f e).runtimeTables := by simp [attach]
  obtain ⟨hwf, hk, hr⟩ := hw₁.setLeaf_leads ha hmem (by simp [hpm]) (.inr hv)
  refine ⟨hwf, (hw.attach_kernelSame (.inr hm) hne hf).trans hk, fun b hb => ?_⟩
  rw [hr b hb, leadTo, leadTo, hw₁.leafRaw_attach hw hf (by simp [hpm])]

/-- Two missing tables: the upper one hangs in the root and the lower one, with the leaf, hangs in the upper one. -/
theorem Wf.install_two (hw : Wf s place) {e g e' : Nat} (ha : a < userEnd)
    (hslot : slot s s.root (pageIndex a 0) = none) (hf : s.free f = true) (hg : s.free g = true) (hfg : g ≠ f)
    (he : table f = .ok e) (he' : table g = .ok e') (hv : ∃ f o, leaf f o = .ok v) :
    Leads s ((attach (attach s s.root (pageIndex a 0) f e) f (pageIndex a 1) g e').setEntry g (pageIndex a 2) v)
      (leadTo (leafRaw s) a v) := by
  have hlow : s.root = s.root → pageIndex a 0 < 256 := fun _ => pageIndex_zero_of_user ha
  have hw₁ := hw.attached (.inl rfl) hlow hf (by simp [hw.tree.place_root]) (pageIndex_lt a 0) hslot he
  have hmem : f ∈ (attach s s.root (pageIndex a 0) f e).runtimeTables := by simp [attach]
  have hempty : slot (attach s s.root (pageIndex a 0) f e) f (pageIndex a 1) = none :=
    slot_eq_none (fun i _ => .inl (if_pos rfl)) _
  have hg' : (attach s s.root (pageIndex a 0) f e).free g = true := by simp [attach, hfg, hg]
  have hplace : Function.update place f (place s.root ++ [pageIndex a 0]) f = [pageIndex a 0] := by
    simp [hw.tree.place_root]
  obtain ⟨hwf, hk, hr⟩ := hw₁.install_one ha hmem hplace hempty hg' he' hv
  refine ⟨hwf, (hw.attach_kernelSame (.inl rfl) hlow hf).trans hk, fun b hb => ?_⟩
  rw [hr b hb, leadTo, leadTo, hw₁.leafRaw_attach hw hf (by simp [hw.tree.place_root])]

theorem reserveTables_spec : wp reserveTables s (fun _ t => Allocated s t []) (fun _ t => Allocated s t []) := by
  have h := (Allocated.nil (Agrees.refl s) rfl rfl).answers s.choices s.reserves.tail
  unfold reserveTables
  simp only [wp_bind, wp_get, wp_set]
  split
  · exact wp_pure.2 h
  · exact wp_throw.2 h

theorem Allocated.free_ram (h : Allocated s t frames) (hw : Wf s place) (hf : f ∈ frames) :
    t.ram f = true := by
  rw [h.agrees.ram]
  exact hw.free_ram f (h.was_free f hf)

theorem Allocated.free_eq (h : Allocated s t frames) (g : Nat) :
    t.free g = if g ∈ frames then false else s.free g := by
  have := h.free g
  split_ifs with hg
  · simpa [hg] using this
  · exact Bool.eq_iff_iff.2 (by simpa [hg] using this)

/-- A failed attempt gives its frames back. -/
theorem Allocated.leads_undone (h : Allocated s t frames) (hw : Wf s place) (hu : WritesIn t u frames) :
    Leads s (freeTables frames u) (leafRaw s) := by
  obtain ⟨ha, hfree⟩ := h.undone hu
  refine ha.leads hw fun f hf => ?_
  rw [ha.ram]
  exact hw.free_ram f (hfree f ▸ hf)

/-- `install_missing_chain` either maps the page or changes nothing, given what linking the new tables does. -/
theorem Wf.installMissingChain_spec (hw : Wf s place) {parent : Nat}
    (hlink : ∀ t frames, Allocated s t frames → frames.length = levels - 1 - level →
      wp (linkChain parent level a v frames) t
        (fun _ u => Leads s { u with runtimeTables := u.runtimeTables ++ frames } raw) (fun _ u => WritesIn t u frames)) :
    wp (installMissingChain parent level a v) s (fun _ t => Leads s t raw) (fun _ t => Leads s t (leafRaw s)) := by
  unfold installMissingChain
  rw [wp_bind]
  refine reserveTables_spec.mono ?_ fun _ t h => h.agrees.leads hw fun f hf => ?_
  · intro _ t h
    rw [wp_bind]
    refine (allocateTables_spec h).mono ?_ fun _ _ hf => hf.elim
    rintro ⟨frames, complete⟩ u ⟨hu, hlen⟩
    simp only [wp_bind, wp_onError, wp_modify]
    cases complete with
    | true =>
      refine (hlink u frames hu (by simpa using hlen rfl)).mono (fun _ _ h => h) fun _ w hwrites => ?_
      exact hu.leads_undone hw hwrites
    | false => exact wp_throw.2 (hu.leads_undone hw (.refl u frames))
  · rw [h.agrees.ram]
    exact hw.free_ram f ((h.free f).1 hf).1

theorem Wf.installOne_spec (hw : Wf s place) (ha : a < userEnd) (hm : m ∈ s.runtimeTables)
    (hpm : place m = [pageIndex a 0]) (hslot : slot s m (pageIndex a 1) = none) (hv : ∃ f o, leaf f o = .ok v) :
    wp (installMissingChain m 1 a v) s (fun _ t => Leads s t (leadTo (leafRaw s) a v))
      (fun _ t => Leads s t (leafRaw s)) := by
  refine hw.installMissingChain_spec fun t frames h hlen => ?_
  obtain ⟨f, rfl⟩ := List.length_eq_one_iff.1 hlen
  have hf := h.was_free f (by simp)
  have hmf : m ≠ f := fun hmf => hw.fresh hf (.inr (hmf ▸ hm))
  have hmram : t.ram m = true := by
    rw [h.agrees.ram]
    exact hw.ram m (.inr hm)
  refine (linkChain_one (h.free_ram hw (by simp)) hmram).mono ?_ fun _ _ h => h
  rintro _ u ⟨e, he, rfl⟩
  refine (hw.install_one ha hm hpm hslot hf he hv).of_same
    ⟨?_, h.agrees.ram, ?_, h.agrees.kernelRoot, h.agrees.owned, h.agrees.root, ?_, h.agrees.retired⟩
  · funext g i
    simp only [PageTableState.setEntry, attach]
    by_cases hg : g = f
    · subst hg
      simp [hmf.symm, h.zero g (by simp)]
    · simp [hg, h.entry g (by simpa using hg)]
  · funext g
    simp [PageTableState.setEntry, attach, h.free_eq]
  · simp [PageTableState.setEntry, attach, h.agrees.tables]

theorem Wf.installTwo_spec (hw : Wf s place) (ha : a < userEnd)
    (hslot : slot s s.root (pageIndex a 0) = none) (hv : ∃ f o, leaf f o = .ok v) : wp (installMissingChain s.root 0 a v) s
      (fun _ t => Leads s t (leadTo (leafRaw s) a v)) (fun _ t => Leads s t (leafRaw s)) := by
  refine hw.installMissingChain_spec fun t frames h hlen => ?_
  obtain ⟨f, g, rfl⟩ : ∃ f g, frames = [f, g] := by
    rcases frames with _ | ⟨f, _ | ⟨g, _ | _⟩⟩ <;> simp [levels] at hlen
    exact ⟨f, g, rfl⟩
  have hf := h.was_free f (by simp)
  have hg := h.was_free g (by simp)
  have hgf : g ≠ f := fun hgf => by simpa [hgf] using h.nodup
  have hrf : s.root ≠ f := fun hr => hw.fresh hf (.inl hr.symm)
  have hrg : s.root ≠ g := fun hr => hw.fresh hg (.inl hr.symm)
  have hrram : t.ram s.root = true := by
    rw [h.agrees.ram]
    exact hw.ram s.root (.inl rfl)
  refine (linkChain_two (h.free_ram hw (by simp)) (h.free_ram hw (by simp)) hrram).mono ?_ fun _ _ h => h
  rintro _ u ⟨e, e', he, he', rfl⟩
  refine (hw.install_two ha hslot hf hg hgf he he' hv).of_same
    ⟨?_, h.agrees.ram, ?_, h.agrees.kernelRoot, h.agrees.owned, h.agrees.root, ?_, h.agrees.retired⟩
  · funext x i
    simp only [PageTableState.setEntry, attach]
    by_cases hxg : x = g
    · subst hxg
      simp [hrg.symm, hgf, h.zero x (by simp)]
    · by_cases hxf : x = f
      · subst hxf
        simp [hrf.symm, hgf.symm, h.zero x (by simp)]
      · simp [hxf, hxg, h.entry x (by simp [hxf, hxg])]
  · funext x
    by_cases hxg : x = g <;> simp [PageTableState.setEntry, attach, h.free_eq, hxg]
  · simp [PageTableState.setEntry, attach, h.agrees.tables]

/-- `map_page` maps an unmapped page and no other; a failure leaves every page as it was. -/
theorem Wf.mapPage_spec (hw : Wf s place) : wp (mapPage page f o) s
    (fun _ t => page.start < userEnd ∧ leafRaw s page.start = 0 ∧
      ∃ v, leaf f o = .ok v ∧ Leads s t (leadTo (leafRaw s) page.start v))
    (fun _ t => Leads s t (leafRaw s)) := by
  unfold mapPage
  rw [wp_bind]
  refine ensureMutablePage_spec.mono ?_ fun _ _ h => h.1 ▸ hw.leads
  rintro _ _ ⟨rfl, hpage⟩
  have hcanon : isCanonical page.start := .inl hpage
  rw [if_neg (not_not.2 hcanon), wp_bind]
  refine leafEntryFor_spec.mono ?_ fun _ _ h => h.1 ▸ hw.leads
  rintro v s ⟨rfl, hv⟩
  have hleaf : ∃ f o, leaf f o = .ok v := ⟨f, o, hv⟩
  rw [wp_bind, wp_get]
  change wp (mapLoop page.start v 2 0 s.root) s _ _
  rw [mapLoop, wp_bind]
  refine hw.readEntryM_spec (.inl rfl) ?_
  rcases hw.descent hpage with ⟨hz, hn⟩ | ⟨m, hm, hmem, hpm, hz, hn⟩ | ⟨m, l, hm, hmem, hpm, hl, hmem', hpl⟩
  · have hraw := leafRaw_atRoot hn
    rw [if_pos hz]
    exact (hw.installTwo_spec hpage hn hleaf).mono (fun _ _ h => ⟨hpage, hraw, v, hv, h⟩) fun _ _ h => h
  · have hraw := hw.leafRaw_atMiddle hmem hpm hn
    rw [if_neg (table_ne_zero hm), descend_table hm, wp_bind, wp_ofExcept_ok]
    rw [mapLoop, wp_bind]
    refine hw.readEntryM_spec (.inr hmem) ?_
    rw [if_pos hz]
    exact (hw.installOne_spec hpage hmem hpm hn hleaf).mono (fun _ _ h => ⟨hpage, hraw, v, hv, h⟩) fun _ _ h => h
  · have hraw := hw.leafRaw_atLeaf hmem' hpl
    rw [if_neg (table_ne_zero hm), descend_table hm, wp_bind, wp_ofExcept_ok]
    rw [mapLoop, wp_bind]
    refine hw.readEntryM_spec (.inr hmem) ?_
    rw [if_neg (table_ne_zero hl), descend_table hl, wp_bind, wp_ofExcept_ok]
    rw [mapLoop, wp_bind]
    refine hw.readEntryM_spec (.inr hmem') ?_
    rw [wp_ite, wp_throw]
    refine ⟨fun _ => hw.leads, fun hz => ?_⟩
    exact writeEntry_spec (hw.ram l (.inr hmem')) (pageIndex_lt _ _)
      ⟨hpage, hraw.trans (not_not.1 hz), v, hv, hw.setLeaf_leads hpage hmem' hpl (.inr hleaf)⟩

/-! ### Reclaiming empty tables -/

theorem swapRemove_spec {tables : List Nat} {position : Nat} (hnodup : tables.Nodup) (hc : tables[position]? = some c) :
    (∀ t, t ∈ swapRemove tables position ↔ t ∈ tables ∧ t ≠ c) ∧ (swapRemove tables position).Nodup := by
  have hperm : (c :: swapRemove tables position).Perm tables := by
    rcases List.eq_nil_or_concat tables with rfl | ⟨front, last, rfl⟩
    · simp at hc
    · rw [List.concat_eq_append] at hc ⊢
      obtain ⟨hlt, hget⟩ := List.getElem?_eq_some_iff.1 hc
      simp only [swapRemove, List.getLast?_append, List.getLast?_singleton, Option.some_or]
      by_cases hpos : position < front.length
      · rw [List.set_append_left _ _ hpos, List.dropLast_concat]
        rw [List.getElem_append_left hpos] at hget
        -- the last element moves to where the removed one was
        obtain ⟨A, B, hsplit, hA⟩ : ∃ A B, front = A ++ c :: B ∧ A.length = position :=
          ⟨front.take position, front.drop (position + 1), by rw [← hget]; simp, by simp; omega⟩
        have hset : front.set position last = A ++ last :: B := by
          rw [hsplit, ← hA]
          simp
        rw [hset, hsplit]
        have h₁ : (c :: (A ++ last :: B)).Perm (c :: last :: (A ++ B)) := List.Perm.cons c List.perm_middle
        have h₂ : (A ++ c :: B ++ [last]).Perm (last :: (A ++ c :: B)) := List.perm_append_singleton last _
        exact h₁.trans ((List.Perm.swap last c _).trans ((List.Perm.cons last List.perm_middle.symm).trans h₂.symm))
      · obtain rfl : position = front.length := by
          simp at hlt
          omega
        have hlast : last = c := by simpa using hget
        subst hlast
        simpa using (List.perm_append_singleton last front).symm
  have hnodup' := hperm.nodup_iff.2 hnodup
  refine ⟨fun t => ?_, (List.nodup_cons.1 hnodup').2⟩
  rw [← hperm.mem_iff, List.mem_cons]
  have hnot := (List.nodup_cons.1 hnodup').1
  constructor
  · exact fun h => ⟨.inr h, fun htc => hnot (htc ▸ h)⟩
  · exact fun h => h.1.resolve_left h.2

/-- One turn of the upward pass: it stops, or takes the table out and goes on with the table above. -/
theorem Wf.reclaimLoop_cons (hw : Wf s place) {p : Nat} {rest : List (Nat × Nat)}
    (hp : p = s.root ∨ p ∈ s.runtimeTables) (hentry : table c = .ok (s.entry p (pageIndex a level)))
    (hc : c ∈ s.runtimeTables) {Q : Unit → PageTableState → Prop} {E : RuntimePageTableError → PageTableState → Prop}
    (hstop : Q () s) (hgo : ∀ tables, (∀ t, t ∈ tables ↔ t ∈ s.runtimeTables ∧ t ≠ c) → tables.Nodup →
      (∀ k < 512, s.entry c k = 0) → wp (reclaimLoop a rest (level - 1)) (detach s p (pageIndex a level) c tables) Q E) :
    wp (reclaimLoop a ((p, c) :: rest) level) s Q E := by
  rw [reclaimLoop, wp_bind, wp_get]
  cases hpos : s.runtimeTables.findIdx? (· = c) with
  | none => exact wp_pure.2 hstop
  | some position =>
    have hget : s.runtimeTables[position]? = some c := by
      obtain ⟨hlt, h, -⟩ := List.findIdx?_eq_some_iff_getElem.1 hpos
      rw [List.getElem?_eq_getElem hlt]
      simpa using h
    have hfilled : tableIsFilled s c 0 = .ok _ := if_pos (hw.ram c (.inr hc))
    simp only [hfilled, wp_bind, wp_ofExcept_ok, wp_ite]
    refine ⟨fun _ => wp_pure.2 hstop, fun hempty => ?_⟩
    have hzero : ∀ k < 512, s.entry c k = 0 := by simpa [entriesPerTable] using hempty
    obtain ⟨ht, hf⟩ := table_eq_ok hentry
    rw [hw.readEntry hp, wp_ofExcept_ok]
    refine ⟨fun h => absurd h (by simp [ht, hf]), fun _ => ?_⟩
    refine writeEntry_spec (hw.ram p hp) (pageIndex_lt _ _) ?_
    rw [wp_modify]
    obtain ⟨hmem, hnodup⟩ := swapRemove_spec hw.nodup hget
    exact hgo _ hmem hnodup hzero

structure Reclaimed (s t : PageTableState) : Prop where
  leads : Leads s t (leafRaw s)
  tables : ∀ f, f ∈ s.runtimeTables ↔ f ∈ t.runtimeTables ∨ f ∈ t.retired ∧ f ∉ s.retired
  kept : ∀ f ∈ s.retired, f ∈ t.retired
  empty : ∀ f ∈ t.retired, f ∈ s.retired ∨ ∀ k < 512, t.entry f k = 0

theorem Wf.reclaimed_refl (hw : Wf s place) : Reclaimed s s :=
  ⟨hw.leads, fun f => by simp, fun _ h => h, fun _ h => .inl h⟩

theorem Wf.detach_reclaimed (hw : Wf s place) {p : Nat} {tables : List Nat} (hp : p = s.root ∨ p ∈ s.runtimeTables)
    (hslot : slot s p i = some c) (htables : ∀ t, t ∈ tables ↔ t ∈ s.runtimeTables ∧ t ≠ c) (hnodup : tables.Nodup)
    (hempty : ∀ k < 512, s.entry c k = 0) : Reclaimed s (detach s p i c tables) where
  leads := ⟨⟨place, hw.detached hp hslot htables hempty hnodup⟩, hw.detach_kernelSame hp hslot htables,
    fun b _ => hw.leafRaw_detach hp hslot htables hempty hnodup b⟩
  tables f := by
    have hc := ((hw.tree.child_iff hp).1 hslot).1
    have hnot : c ∉ s.retired := fun h => (hw.retired_not c h).2 hc
    simp only [detach, htables, List.mem_append, List.mem_singleton]
    constructor
    · intro hf
      by_cases hfc : f = c
      · exact .inr ⟨.inr hfc, hfc ▸ hnot⟩
      · exact .inl ⟨hf, hfc⟩
    · rintro (⟨hf, -⟩ | ⟨hf | rfl, hf'⟩)
      · exact hf
      · exact absurd hf hf'
      · exact hc
  kept f hf := List.mem_append_left _ hf
  empty f hf := by
    rcases List.mem_append.1 hf with hf | hf
    · exact .inl hf
    · obtain rfl := List.mem_singleton.1 hf
      refine .inr fun k hk => ?_
      simp only [detach, PageTableState.setEntry]
      split_ifs
      · rfl
      · exact hempty k hk

theorem Reclaimed.trans (h : Reclaimed s t) (h' : Reclaimed t u)
    (hkeep : ∀ f ∈ t.retired, f ∉ s.retired → u.entry f = t.entry f) : Reclaimed s u where
  leads := ⟨h'.leads.wf, h.leads.kernel.trans h'.leads.kernel,
    fun b hb => (h'.leads.raw_eq b hb).trans (h.leads.raw_eq b hb)⟩
  tables f := by
    rw [h.tables, h'.tables]
    have := h.kept f
    have := h'.kept f
    tauto
  kept f hf := h'.kept f (h.kept f hf)
  empty f hf := by
    rcases h'.empty f hf with hf' | hf'
    · by_cases hs : f ∈ s.retired
      · exact .inl hs
      · refine (h.empty f hf').imp_right fun hz => ?_
        rw [hkeep f hf' hs]
        exact hz
    · exact .inr hf'

theorem Wf.reclaimEmptyTables_spec (hw : Wf s place) : wp (reclaimEmptyTables page) s
    (fun _ t => Reclaimed s t) (fun _ t => t = s ∧ userEnd ≤ page.start) := by
  unfold reclaimEmptyTables
  rw [wp_bind]
  refine ensureMutablePage_spec.mono ?_ fun _ _ h => h
  rintro _ s ⟨rfl, hpage⟩
  have hcanon : isCanonical page.start := .inl hpage
  rw [if_neg (not_not.2 hcanon), wp_bind, wp_get, wp_bind]
  change wp (ofExcept (reclaimWalk s page.start 2 0 s.root)) s _ _
  have hnotLeaf : ∀ {c raw}, table c = .ok raw → isLeaf raw = false := fun h => by
    have ht := (table_eq_ok h).1
    simp only [isTable, Bool.and_eq_true, Bool.not_eq_true'] at ht
    simp [isLeaf, ht.2]
  rcases hw.descent hpage with ⟨hz, hn⟩ | ⟨m, hm, hmem, hpm, hz, hn⟩ | ⟨m, l, hm, hmem, hpm, hl, hmem', hpl⟩
  · have hwalk : reclaimWalk s page.start 2 0 s.root = .ok none := by
      simp [reclaimWalk, hw.readEntry (.inl rfl), bind, Except.bind, hz]
    rw [hwalk, wp_ofExcept_ok]
    exact wp_pure.2 hw.reclaimed_refl
  · have hwalk : reclaimWalk s page.start 2 0 s.root = .ok none := by
      simp [reclaimWalk, hw.readEntry (.inl rfl), hw.readEntry (.inr hmem), bind, Except.bind, hz, table_ne_zero hm,
        hnotLeaf hm, (table_eq_ok hm).1, (table_eq_ok hm).2, pure, Except.pure]
    rw [hwalk, wp_ofExcept_ok]
    exact wp_pure.2 hw.reclaimed_refl
  · have hwalk : reclaimWalk s page.start 2 0 s.root = .ok (some [m, l]) := by
      simp [reclaimWalk, hw.readEntry (.inl rfl), hw.readEntry (.inr hmem), bind, Except.bind, table_ne_zero hm,
        hnotLeaf hm, (table_eq_ok hm).1, (table_eq_ok hm).2, table_ne_zero hl, hnotLeaf hl, (table_eq_ok hl).1,
        (table_eq_ok hl).2, pure, Except.pure]
    rw [hwalk, wp_ofExcept_ok]
    change wp (reclaimLoop page.start [(m, l), (s.root, m)] 1) s _ _
    have hml : m ≠ l := fun h => by simp [h, hpl] at hpm
    refine hw.reclaimLoop_cons (.inr hmem) hl hmem' hw.reclaimed_refl fun tables htables hnodup hzero => ?_
    have hslot : slot s m (pageIndex page.start 1) = some l :=
      (hw.tree.child_iff (.inr hmem)).2 ⟨hmem', by simp [hpl, hpm]⟩
    have hw' := hw.detached (.inr hmem) hslot htables hzero hnodup
    have hstep := hw.detach_reclaimed (.inr hmem) hslot htables hnodup hzero
    have hroot : s.root ≠ m := (hw.tree.ne_root hmem).symm
    have hm' : table m = .ok ((detach s m (pageIndex page.start 1) l tables).entry s.root (pageIndex page.start 0)) := by
      rw [hm]
      simp [detach, PageTableState.setEntry, hroot]
    have hmem₂ : m ∈ tables := (htables m).2 ⟨hmem, hml⟩
    refine hw'.reclaimLoop_cons (.inl rfl) hm' hmem₂ hstep fun tables' htables' hnodup' hzero' => ?_
    have hslot' : slot (detach s m (pageIndex page.start 1) l tables) s.root (pageIndex page.start 0) = some m :=
      (hw'.tree.child_iff (.inl rfl)).2 ⟨hmem₂, by rw [hpm, hw'.tree.place_root, List.nil_append]⟩
    rw [reclaimLoop, wp_pure]
    refine hstep.trans (hw'.detach_reclaimed (.inl rfl) hslot' htables' hnodup' hzero') fun f hf _ => ?_
    exact setEntry_entry_of_ne fun h => (hw'.retired_not f hf).1 h

end RuntimePageTable

end SudoOS
