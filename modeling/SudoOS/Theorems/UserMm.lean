import SudoOS.Theorems.Protection

/-! The calls on an address space. -/

namespace SudoOS

open Program RuntimePageTable
open PageTableEntry (Rights optionsRights)

namespace UserMm

variable {s t u : UserMmState} {range : VirtRange} {flags : VmAreaFlags} {touched : Nat → Prop} {leaves rights : Prop}

structure Outcome (touched : Nat → Prop) (leaves rights : Prop) (s t : UserMmState) : Prop where
  inv : Inv t
  frame : ∀ x v, attr s x = some v → ¬touched x → attr t x = some v
  coherent : leaves → Coherent s → Coherent t
  permitted : rights → Permitted s → Permitted t

abbrev Calm (s t : UserMmState) : Prop := Outcome (fun _ => False) True True s t

theorem Outcome.refl (hs : Inv s) : Outcome touched leaves rights s s := ⟨hs, fun _ _ h _ => h, fun _ h => h, fun _ h => h⟩

theorem Outcome.trans (h : Outcome touched leaves rights s t) (h' : Outcome touched leaves rights t u) :
    Outcome touched leaves rights s u where
  inv := h'.inv
  frame x v hv hx := h'.frame x v (h.frame x v hv hx) hx
  coherent hl hc := h'.coherent hl (h.coherent hl hc)
  permitted hr hp := h'.permitted hr (h.permitted hr hp)

theorem Outcome.of_calm (h : Calm s t) : Outcome touched leaves rights s t :=
  ⟨h.inv, fun x v hv _ => h.frame x v hv id, fun _ => h.coherent trivial, fun _ => h.permitted trivial⟩

theorem Kept.outcome (h : Kept s t) (inv : Inv t) (frame : ∀ x v, attr s x = some v → ¬touched x → attr t x = some v) :
    Outcome touched leaves rights s t :=
  ⟨inv, frame, fun _ => h.coherent, fun _ => h.settled.permitted h.backed⟩

theorem Untouched.outcome (h : Untouched s t) (hs : Inv s) : Outcome touched leaves rights s t :=
  (h.kept hs.backed).outcome (h.inv hs) fun x v hv _ => by rw [h.attr, hv]

theorem Installed.calm {area : VmArea} {x frame : Nat} (h : Installed area.mappingOptions (.containingAddress x) frame s t)
    (hs : Inv s) (hfind : s.core.layout.findArea x = some area) : Calm s t where
  inv := h.inv hs hfind
  frame y v hv _ := by
    rw [attr, h.layout]
    exact hv
  coherent _ := h.coherent hs hfind
  permitted _ := (h.settled hs hfind).permitted h.backed

theorem Protected.outcome {access : VmAreaFlags} (h : Protected range access s t) :
    Outcome range.contains (ProtectsLeaves range access s) (ProtectsRights range access s) s t where
  inv := h.inv
  frame x v hv hx := by
    rcases h.attr_eq with heq | heq
    · rw [heq, hv]
    · rw [relabel_outside heq hx, hv]
  coherent := h.coherent
  permitted := h.permitted

@[simp] theorem wp_onLayout {α : Type} {x : AddressSpaceM α} {Q : α → UserMmState → Prop}
    {E : UserMmStop → UserMmState → Prop} :
    wp (onLayout x) s Q E ↔ wp x s.core.layout (fun a layout => Q a (setLayout layout s))
      (fun e layout => E (.error (.core (.addressSpace e))) (setLayout layout s)) := by
  simp only [onLayout, onCore, UserAddressSpace.onLayout, wp_zoom, coreStop, setLayout]

/-! ### New areas -/


/-- Pages that were not mapped, or that were mapped in the same way, are mapped now. -/
theorem Inv.grow {area : VmArea} {layout : AddressSpace} (hs : Inv s) (hlayout : layout.Sound vmaCapacity)
    (hlawful : area.flags.Lawful ∧ area.kind.Plain)
    (hfree : ∀ x, area.contains x → attr s x = none ∨ attr s x = some (area.flags, area.kind))
    (hattr : ∀ x, layout.attr x = if area.contains x then some (area.flags, area.kind) else attr s x) :
    Calm s (setLayout layout s) := by
  have hsame : ∀ x v, attr s x = some v → attr (setLayout layout s) x = some v := by
    intro x v hv
    refine (hattr x).trans ?_
    split_ifs with hin
    · rcases hfree x hin with hnone | hsome
      · exact absurd (hnone.symm.trans hv) (Option.some_ne_none _).symm
      · exact hsome.symm.trans hv
    · exact hv
  have hkept : Kept s (setLayout layout s) := by
    refine ⟨hs.backed, ⟨[], .refl _⟩, fun _ _ => rfl, fun m hm => ?_⟩
    obtain ⟨f, k, hf, -⟩ := hs.record m hm
    rw [hf]
    exact hsame _ _ hf
  refine hkept.outcome (hkept.inv hs hlayout fun x f k hf => ?_) fun x v hv _ => hsame x v hv
  rw [attr, setLayout, hattr] at hf
  split_ifs at hf
  · obtain ⟨rfl, rfl⟩ := Prod.mk.inj (Option.some.inj hf)
    exact hlawful
  · exact hs.lawful x f k hf

def Mapped (range : VirtRange) (flags : VmAreaFlags) (s : UserMmState) : Prop :=
  ∀ x, range.contains x → attr s x = some (flags, .anonymous)

theorem mapArea_calm {area : VmArea} {reserve : Bool} (hs : Inv s) (hlawful : area.flags.Lawful) (hkind : area.kind.Plain)
    (hheap : area.kind ≠ .heap) : wp (onLayout (AddressSpace.mapArea vmaCapacity reserve area)) s
      (fun _ t => Calm s t ∧ area.Valid ∧ area.range.end_ ≤ userEnd ∧
        ∀ x, attr t x = if area.contains x then some (area.flags, area.kind) else attr s x)
      (fun e t => e.IsError ∧ t = s) := by
  rw [wp_onLayout]
  refine (AddressSpace.mapArea_spec hs.layout fun hk => absurd hk hheap).mono ?_ ?_
  · rintro _ layout ⟨hvalid, hend, hfree, hsound, -, hattr⟩
    exact ⟨hs.grow hsound ⟨hlawful, hkind⟩ (fun x hx => .inl (hfree x hx)) hattr, hvalid, hend, hattr⟩
  · rintro e layout rfl
    exact ⟨⟨_, rfl⟩, rfl⟩

theorem mapAnonymous_spec {search : VirtRange} {size : Nat} (hs : Inv s) (hflags : flags.Lawful) :
    wp (mapAnonymous search size flags) s
      (fun start t => Calm s t ∧ ∃ range, range.start = start ∧ alignUp size pageSize = some range.size ∧ start % 4096 = 0 ∧
        search.containsRange range ∧ Mapped range flags t)
      (fun e t => e.IsError ∧ Calm s t) := by
  have h₁ : Untouched s (consumed 1 s) := .consumed hs.backed 1
  have hs₁ := h₁.inv hs
  simp only [mapAnonymous, wp_bind, wp_nextReserve, wp_onLayout, wp_pure]
  refine (AddressSpace.mapAnonymous_spec hs₁.layout).mono ?_ ?_
  · rintro area layout ⟨rfl, hkind, hvalid, hin, hsize, -, hfree, hsound, -, hattr⟩
    have hcalm := hs₁.grow hsound ⟨hflags, by rw [hkind]; trivial⟩ (fun x hx => .inl (hfree x hx)) hattr
    refine ⟨(h₁.outcome hs).trans hcalm, area.range, rfl, hsize, hvalid.start_aligned, hin, fun x hx => ?_⟩
    exact (hattr x).trans ((if_pos hx).trans (by rw [hkind]))
  · rintro e layout rfl
    exact ⟨⟨_, rfl⟩, h₁.outcome hs⟩

theorem mapAnonymousExact_spec (hs : Inv s) (hflags : flags.Lawful) : wp (mapAnonymousExact range flags) s
    (fun start t => Calm s t ∧ start = range.start ∧ range.start % 4096 = 0 ∧ Mapped range flags t)
    (fun e t => e.IsError ∧ Calm s t) := by
  have h₁ : Untouched s (consumed 1 s) := .consumed hs.backed 1
  simp only [mapAnonymousExact, wp_bind, wp_nextReserve, wp_pure]
  have hplain : VmAreaKind.anonymous.Plain := trivial
  refine (mapArea_calm (h₁.inv hs) hflags hplain (by simp)).mono ?_ ?_
  · rintro _ t ⟨hcalm, hvalid, -, hattr⟩
    refine ⟨(h₁.outcome hs).trans hcalm, trivial, hvalid.start_aligned, fun x hx => ?_⟩
    exact (hattr x).trans (if_pos hx)
  · rintro e t ⟨he, rfl⟩
    exact ⟨he, h₁.outcome hs⟩

/-! ### Areas that go -/

/-- The areas of a range have changed, and its resident pages are gone. -/
theorem Cleared.outcome (h : Cleared range u t) (hs : Inv s) (hpages : u.pages = s.pages) (hv : view u.table = view s.table)
    (hlayout : u.core.layout.Sound vmaCapacity) (hlawful : ∀ x f k, attr u x = some (f, k) → f.Lawful ∧ k.Plain)
    (hattr : ∀ x, ¬range.contains x → attr u x = attr s x) : Outcome range.contains leaves rights s t := by
  have hattr' : attr t = attr u := by
    funext x
    rw [attr, attr, h.layout]
  have hkept : Kept s t := by
    obtain ⟨gone, hperm⟩ := h.pages
    refine ⟨h.backed, ⟨gone, hpages ▸ hperm⟩, fun m hm => ?_, fun m hm => ?_⟩
    · rw [h.view_eq, hv]
      exact if_neg (h.outside m hm)
    · rw [hattr', hattr _ (h.outside m hm)]
  refine hkept.outcome (hkept.inv hs (h.layout ▸ hlayout) (hattr' ▸ hlawful)) fun x v hx hout => ?_
  rw [hattr', hattr x hout, hx]

/-- The areas are put back after a call that went no further. -/
theorem Untouched.undo (h : Untouched u t) (hpages : u.pages = s.pages) (hu : Updates s.table u.table (view s.table)) :
    Untouched s (setLayout s.core.layout t) := by
  refine ⟨rfl, h.pages.trans hpages, ?_⟩
  exact hu.trans (hu.view_eq ▸ h.table)

theorem unmapRange_spec (hs : Inv s) : wp (unmapRange range) s
    (fun _ t => Outcome range.contains leaves rights s t)
    (fun e t => e.IsError → Outcome range.contains leaves rights s t) := by
  have h₁ : Untouched s (consumed 1 s) := .consumed hs.backed 1
  have hs₁ := h₁.inv hs
  simp only [unmapRange, wp_bind, wp_get, wp_nextReserve, wp_onLayout, wp_onError]
  refine (AddressSpace.unmapRange_spec hs₁.layout).mono ?_ ?_
  · rintro _ layout ⟨hsound, -, hattr⟩
    have hattr' : ∀ x, attr (setLayout layout (consumed 1 s)) x = if range.contains x then none else attr s x := hattr
    refine retire_spec hs₁.backed (fun _ t ht => ?_) (fun _ e t _ ht _ => (ht.undo h₁.pages h₁.table).outcome hs) ?_
    · refine ht.outcome hs h₁.pages h₁.table.view_eq hsound (fun x f k hf => ?_) fun x hx => (hattr' x).trans (if_neg hx)
      rw [hattr'] at hf
      split_ifs at hf
      exact hs.lawful x f k hf
    · rintro t - ⟨_, he⟩
      cases he
  · rintro e layout rfl _
    exact h₁.outcome hs

theorem replaceAnonymousExact_spec (hs : Inv s) (hflags : flags.Lawful) : wp (replaceAnonymousExact range flags) s
    (fun start t => Outcome range.contains leaves rights s t ∧ start = range.start ∧ range.start % 4096 = 0 ∧
      Mapped range flags t)
    (fun e t => e.IsError → Outcome range.contains leaves rights s t) := by
  have h₁ : Untouched s (consumed 1 s) := .consumed hs.backed 1
  have h₂ : Untouched s (consumed 2 s) := .consumed hs.backed 2
  have hs₂ := h₂.inv hs
  simp only [replaceAnonymousExact, wp_bind, wp_get, wp_nextReserve, wp_onLayout, wp_onError, wp_pure]
  refine (AddressSpace.unmapRange_spec (h₁.inv hs).layout).mono ?_ ?_
  · rintro _ layout ⟨hsound, -, hattr⟩
    have hheap : (VmAreaKind.anonymous) ≠ .heap := by simp
    refine (AddressSpace.mapArea_spec hsound fun hk => absurd hk hheap).mono ?_ ?_
    · rintro _ layout' ⟨hvalid, -, -, hsound', -, hattr'⟩
      have hnew : ∀ x, layout'.attr x = if range.contains x then some (flags, .anonymous) else attr s x := by
        intro x
        rw [hattr']
        by_cases hx : range.contains x
        · rw [if_pos hx]
          exact if_pos hx
        · rw [if_neg hx]
          exact (if_neg hx).trans ((hattr x).trans (if_neg hx))
      have hstate : consumed 1 (setLayout layout (consumed 1 s)) = setLayout layout (consumed 2 s) := by
        simp [consumed, setLayout, setTable]
      rw [hstate]
      refine retire_spec hs₂.backed (fun _ t ht => ⟨?_, trivial, hvalid.start_aligned, fun x hx => ?_⟩)
        (fun _ e t _ ht _ => (ht.undo h₂.pages h₂.table).outcome hs) ?_
      · refine ht.outcome hs h₂.pages h₂.table.view_eq hsound' (fun x f k hf => ?_) fun x hx => (hnew x).trans (if_neg hx)
        rw [show attr _ x = layout'.attr x from rfl, hnew] at hf
        split_ifs at hf
        · obtain ⟨rfl, rfl⟩ := Prod.mk.inj (Option.some.inj hf)
          exact ⟨hflags, trivial⟩
        · exact hs.lawful x f k hf
      · rw [attr, ht.layout]
        exact (hnew x).trans (if_pos hx)
      · rintro t - ⟨_, he⟩
        cases he
    · rintro e layout' rfl _
      refine Untouched.outcome ⟨rfl, ?_, ?_⟩ hs
      · exact h₁.pages
      · exact h₁.table.trans (h₁.table.view_eq ▸ Updates.reserves (h₁.backed hs.backed) _)
  · rintro e layout rfl _
    exact h₁.outcome hs

/-! ### Pages without areas -/

theorem discardAnonymousRange_spec (hs : Inv s) : wp (discardAnonymousRange range) s
    (fun _ t => Calm s t) (fun e t => e.IsError → Calm s t) := by
  obtain ⟨place, hw⟩ := hs.backed.wf
  simp only [discardAnonymousRange, wp_bind, wp_get, wp_ofExcept, wp_ite, wp_pure]
  refine ⟨fun covered _ => ⟨fun _ => ?_, fun _ => .refl hs⟩, fun e _ _ => .refl hs⟩
  refine retire_spec hs.backed (fun _ t ht => ?_) (fun _ e t _ ht _ => ht.outcome hs) ?_
  · have houtcome : Outcome range.contains True True s t := ht.outcome hs rfl rfl hs.layout hs.lawful fun _ _ => rfl
    refine ⟨houtcome.inv, fun x v hv _ => ?_, houtcome.coherent, houtcome.permitted⟩
    rw [attr, ht.layout]
    exact hv
  · rintro t - ⟨_, he⟩
    cases he

theorem mapZeroPageLocked_calm {area : VmArea} {x : Nat} (hs : Inv s) (hfind : s.core.layout.findArea x = some area) :
    wp (mapZeroPageLocked area x) s
      (fun physical t => Calm s t ∧ t.core.layout = s.core.layout ∧ ∃ y, view t.table (.containingAddress x) = some y ∧
        physical = y.1 * 4096 + x % 4096)
      (fun e t => e.IsError ∧ Calm s t ∧ Untouched s t) := by
  refine (mapZeroPageLocked_spec hs.backed (hs.userAddress hfind)).mono ?_ ?_
  · rintro physical t (⟨rfl, y, hy, hphysical⟩ | ⟨frame, h, hphysical⟩)
    · exact ⟨.refl hs, rfl, y, hy, hphysical⟩
    · refine ⟨h.calm hs hfind, h.layout, (frame, optionsRights area.mappingOptions), ?_, hphysical⟩
      rw [h.table.view_eq, Function.update_self]
  · rintro e t ⟨he, ht⟩
    exact ⟨he, ht.outcome hs, ht⟩

theorem populatePage_spec {x : Nat} (hs : Inv s) : wp (populatePage x) s
    (fun _ t => Calm s t ∧ t.core.layout = s.core.layout) (fun e t => e.IsError ∧ Calm s t) := by
  simp only [populatePage, wp_bind, wp_get, wp_okOr]
  refine ⟨fun area hfind => ?_, fun _ => ⟨⟨_, rfl⟩, .refl hs⟩⟩
  exact (mapZeroPageLocked_calm hs hfind).mono (fun _ t ht => ⟨ht.1, ht.2.1⟩) fun e t ht => ⟨ht.1, ht.2.1⟩

/-! ### The program break -/

def HeapLeaves (newBreak : Nat) (s : UserMmState) : Prop :=
  ∀ m ∈ s.pages, m.page.start < newBreak → ∀ f, attr s m.page.start = some (f, .heap) → ¬f.NoAccess

def HeapRights (newBreak : Nat) (s : UserMmState) : Prop :=
  ∀ m ∈ s.pages, m.page.start < newBreak → ∀ f, attr s m.page.start = some (f, .heap) →
    f.NoAccess ∨ f.accessOnly = VmAreaFlags.userRw.accessOnly

def OnHeap (s : UserMmState) (x : Nat) : Prop := ∃ f, attr s x = some (f, .heap)

theorem userRw_lawful : VmAreaFlags.userRw.Lawful := ⟨rfl, rfl, rfl⟩

theorem options_eq_of_access {f f' : VmAreaFlags} (hf : f.Lawful) (hf' : f'.Lawful) (h : f.accessOnly = f'.accessOnly) :
    f.options = f'.options := by
  obtain ⟨hr, hw, hx⟩ : f.read = f'.read ∧ f.write = f'.write ∧ f.execute = f'.execute := by
    simpa [VmAreaFlags.accessOnly] using h
  simp only [VmAreaFlags.options, VmArea.mappingOptions, hr, hw, hx, hf.user, hf'.user, hf.not_device, hf'.not_device]

theorem Backed.rights_ne {table : PageTableState} {pages : List MappedPage} {page : VirtPage} {x : Nat × Rights}
    (h : Backed table pages) (hview : view table page = some x) {f : VmAreaFlags} (hno : f.NoAccess) :
    x.2 ≠ optionsRights f.options := by
  obtain ⟨place, hw⟩ := h.wf
  obtain ⟨o, hmappable, heq⟩ := hw.view_mappable hview
  intro hrights
  obtain ⟨hr, -, -⟩ := VmAreaFlags.noAccess_iff.1 hno
  have hperm : o.permissions = f.options.permissions := congrArg Rights.permissions (heq.symm.trans hrights)
  have hvalid := PageTableEntry.validate_eq_ok hmappable.1
  rw [hperm] at hvalid
  simp [VmAreaFlags.options, VmArea.mappingOptions, hr, PagePermissions.empty] at hvalid

section heap
variable {newBreak : Nat}

theorem HeapMoved.frame (h : AddressSpace.HeapMoved vmaCapacity newBreak s.core.layout t.core.layout) {x : Nat}
    {v : VmAreaFlags × VmAreaKind} (hv : attr s x = some v) (hx : v.2 ≠ .heap) : attr t x = some v := by
  obtain ⟨b, -, -, -, hb⟩ := h.brk
  rw [attr, h.attr _ hb, if_neg fun hc => hx (h.free _ hb x hc v.1 v.2 hv)]
  exact Option.filter_eq_some_iff.2 ⟨hv, by simpa using hx⟩

theorem HeapMoved.heap (h : AddressSpace.HeapMoved vmaCapacity newBreak s.core.layout t.core.layout) (hs : Inv s) {x : Nat}
    {f : VmAreaFlags} (hf : attr s x = some (f, .heap)) (hx : x < newBreak + 4095 - (newBreak + 4095) % 4096) :
    attr t x = some (.userRw, .heap) := by
  obtain ⟨b, hold, -, -, hb⟩ := h.brk
  obtain ⟨b', hb', hcovers⟩ := hs.layout.heap x f hf
  obtain rfl := Option.some.inj (hold.symm.trans hb')
  rw [attr, h.attr _ hb, if_pos ⟨hcovers.1, hx⟩]

theorem heap_outcome (hs : Inv s) (h : AddressSpace.HeapMoved vmaCapacity newBreak s.core.layout t.core.layout)
    (hb : Backed t.table t.pages) (hperm : ∃ gone, s.pages.Perm (gone ++ t.pages))
    (hview : ∀ m ∈ t.pages, view t.table m.page = view s.table m.page)
    (hstay : ∀ m ∈ t.pages, ∀ f, attr s m.page.start = some (f, .heap) →
      m.page.start < newBreak + 4095 - (newBreak + 4095) % 4096) :
    Outcome (OnHeap s) (HeapLeaves newBreak s) (HeapRights newBreak s) s t := by
  obtain ⟨gone, hperm⟩ := hperm
  have hmem : ∀ m ∈ t.pages, m ∈ s.pages := fun m hm => hperm.mem_iff.2 (List.mem_append_right _ hm)
  have hbelow : ∀ m ∈ t.pages, ∀ f, attr s m.page.start = some (f, .heap) → m.page.start < newBreak := fun m hm f hf => by
    have := hstay m hm f hf
    have := m.page.aligned
    omega
  -- A record keeps its attributes, or it is on the heap and readable and writable now.
  have hcases : ∀ m ∈ t.pages, ∀ f k, attr t m.page.start = some (f, k) → attr s m.page.start = some (f, k) ∨
      f = .userRw ∧ ∃ f₀, attr s m.page.start = some (f₀, .heap) := by
    intro m hm f k hf
    obtain ⟨f₀, k₀, hf₀, -⟩ := hs.record m (hmem m hm)
    by_cases hk : k₀ = .heap
    · subst hk
      have := HeapMoved.heap h hs hf₀ (hstay m hm f₀ hf₀)
      obtain ⟨rfl, rfl⟩ := Prod.mk.inj (Option.some.inj (hf.symm.trans this))
      exact .inr ⟨rfl, f₀, hf₀⟩
    · have := HeapMoved.frame h hf₀ hk
      obtain ⟨rfl, rfl⟩ := Prod.mk.inj (Option.some.inj (hf.symm.trans this))
      exact .inl hf₀
  refine ⟨⟨h.sound, hb, fun x f k hf => ?_, fun m hm => ?_⟩, fun x v hv hx => ?_,
    fun hcare hc => ⟨hc.unique_of_perm hperm, ?_⟩, ?_⟩
  · obtain ⟨b, -, -, -, hb'⟩ := h.brk
    rw [attr, h.attr _ hb'] at hf
    split_ifs at hf
    · obtain ⟨rfl, rfl⟩ := Prod.mk.inj (Option.some.inj hf)
      exact ⟨userRw_lawful, trivial⟩
    · exact hs.lawful x f k (Option.filter_eq_some_iff.1 hf).1
  · obtain ⟨f, k, hf, hordinary⟩ := hs.record m (hmem m hm)
    by_cases hk : k = .heap
    · subst hk
      exact ⟨_, _, HeapMoved.heap h hs hf (hstay m hm f hf), ⟨rfl, rfl, fun _ => rfl⟩⟩
    · exact ⟨f, k, HeapMoved.frame h hf hk, hordinary⟩
  · exact HeapMoved.frame h hv fun hk => hx ⟨v.1, hk ▸ hv⟩
  · intro m hm hnone f k hf
    rw [hview m hm] at hnone
    rcases hcases m hm f k hf with hf | ⟨-, f₀, hf₀⟩
    · exact hc.absent m (hmem m hm) hnone f k hf
    · exact absurd (hc.absent m (hmem m hm) hnone f₀ _ hf₀) (hcare m (hmem m hm) (hbelow m hm f₀ hf₀) f₀ hf₀)
  · intro hcare hp page x hx f k hf
    have hm := hb.leaf page x.1 x.2 hx
    rw [hview _ hm] at hx
    rcases hcases _ hm f k hf with hf | ⟨rfl, f₀, hf₀⟩
    · exact hp page x hx f k hf
    · have hx₀ := hp page x hx f₀ _ hf₀
      rcases hcare _ (hmem _ hm) (hbelow _ hm f₀ hf₀) f₀ hf₀ with hno | haccess
      · exact absurd hx₀ (Backed.rights_ne hs.backed hx hno)
      · rw [hx₀, options_eq_of_access (hs.lawful _ _ _ hf₀).1 userRw_lawful haccess]

def pageCeil (x : Nat) : Nat := x + 4095 - (x + 4095) % 4096

def BreakGap (newBreak : Nat) (s : UserMmState) (x : Nat) : Prop :=
  ∃ b, s.core.layout.programBreak = some b ∧ pageCeil newBreak ≤ x ∧ x < pageCeil b.current

structure BreakMoved (newBreak : Nat) (s t : UserMmState) : Prop where
  layout : AddressSpace.HeapMoved vmaCapacity newBreak s.core.layout t.core.layout
  backed : Backed t.table t.pages
  pages : ∃ gone, s.pages.Perm (gone ++ t.pages)
  outside : ∀ m ∈ t.pages, ¬BreakGap newBreak s m.page.start
  kept : ∀ m ∈ s.pages, ¬BreakGap newBreak s m.page.start → m ∈ t.pages
  view_eq : ∀ page, ¬BreakGap newBreak s page.start → view t.table page = view s.table page
  words : ∀ m ∈ t.pages, t.table.entry m.backing = s.table.entry m.backing

theorem setProgramBreak_moved (hs : Inv s) : wp (setProgramBreak newBreak) s
    (fun _ t => BreakMoved newBreak s t)
    (fun e t => e.IsError ∧ Untouched s t ∨
      e = .panic .retirePreflight ∧ ∃ m ∈ s.pages, BreakGap newBreak s m.page.start ∧ ¬Matches s.table m) := by
  have h₂ : Untouched s (consumed 2 s) := .consumed hs.backed 2
  have hs₂ := h₂.inv hs
  obtain ⟨place, hw⟩ := hs.backed.wf
  simp only [setProgramBreak, wp_bind, wp_get, wp_okOr, wp_nextReserve, wp_onLayout, wp_ite, wp_onError, wp_pure,
    consumed_consumed]
  refine ⟨fun old hold => ?_, fun _ => .inl ⟨⟨_, rfl⟩, rfl, rfl, hw.updates⟩⟩
  refine (AddressSpace.setProgramBreakAndSyncHeap_spec hs₂.layout).mono ?_ ?_
  · rintro current layout ⟨rfl, hmoved⟩
    have hmoved' : AddressSpace.HeapMoved vmaCapacity current s.core.layout layout := hmoved
    obtain ⟨b, hb, -, hlimit, -⟩ := hmoved'.brk
    obtain rfl := Option.some.inj (hold.symm.trans hb)
    have hbounds := hs.layout.brk old hold
    have hup : ∀ x, x ≤ userEnd → alignUp x pageSize = some (pageCeil x) := by
      intro x hx
      rw [alignUp_pageSize, if_pos]
      · rfl
      unfold userEnd at hx
      unfold usizeLimit
      omega
    have hgap : ∀ x, BreakGap current s x ↔ pageCeil current ≤ x ∧ x < pageCeil old.current := by
      intro x
      refine ⟨?_, fun h => ⟨old, hold, h⟩⟩
      rintro ⟨b, hb, h⟩
      exact Option.some.inj (hold.symm.trans hb) ▸ h
    rw [hup old.current (by omega), hup current (by omega)]
    simp only [Option.some.injEq, forall_eq', reduceCtorEq, false_implies, and_true, VirtRange.new_eq_some,
      VirtRange.new_eq_none]
    refine ⟨fun hlt => ⟨fun range hrange => ?_, fun hgt => by omega⟩, fun hge => ?_⟩
    · have hrange' : ∀ x, range.contains x ↔ BreakGap current s x := by
        intro x
        rw [hgap, VirtRange.contains, hrange.1, hrange.2]
      refine retire_spec hs₂.backed (fun _ t ht => ?_) (fun _ e t he ht => .inl ⟨he, ht.undo h₂.pages h₂.table⟩) ?_
      · refine ⟨ht.layout ▸ hmoved', ht.backed, h₂.pages ▸ ht.pages, fun m hm hin => ht.outside m hm ((hrange' _).2 hin),
          fun m hm hin => ht.kept m hm fun h => hin ((hrange' _).1 h), fun page hpage => ?_, ht.words⟩
        rw [ht.view_eq]
        exact (if_neg fun h => hpage ((hrange' _).1 h)).trans (congrFun h₂.table.view_eq page)
      · rintro t ⟨m, hm, hin, hnot⟩
        refine .inr ⟨rfl, m, h₂.pages ▸ hm, (hrange' _).1 hin, fun hmatch => hnot fun x hx => hmatch x ?_⟩
        rw [← hx]
        exact (congrFun h₂.table.view_eq _).symm
    · have hnone : ∀ x, ¬BreakGap current s x := fun x hx => by
        have := (hgap x).1 hx
        omega
      exact ⟨hmoved', hs₂.backed, ⟨[], .refl _⟩, fun m _ => hnone _, fun m hm _ => hm,
        fun page _ => congrFun h₂.table.view_eq page, fun _ _ => rfl⟩
  · rintro e layout rfl
    exact .inl ⟨⟨_, rfl⟩, h₂⟩

theorem setProgramBreak_spec (hs : Inv s) : wp (setProgramBreak newBreak) s
    (fun _ t => Outcome (OnHeap s) (HeapLeaves newBreak s) (HeapRights newBreak s) s t)
    (fun e t => e.IsError → Outcome (OnHeap s) (HeapLeaves newBreak s) (HeapRights newBreak s) s t) := by
  refine (setProgramBreak_moved hs).mono (fun _ t ht => ?_) ?_
  · refine heap_outcome hs ht.layout ht.backed ht.pages (fun m hm => ht.view_eq _ (ht.outside m hm)) fun m hm f hf => ?_
    obtain ⟨b, hb, hcovers⟩ := hs.layout.heap _ f hf
    by_contra hn
    exact ht.outside m hm ⟨b, hb, Nat.not_lt.1 hn, hcovers.2⟩
  · rintro _ t (⟨-, ht⟩ | ⟨rfl, -⟩) ⟨_, he⟩
    · exact ht.outcome hs
    · cases he

end heap

end UserMm

end SudoOS
