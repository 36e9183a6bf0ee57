import SudoOS.Kernel.Fork
import SudoOS.Theorems.UserCopy

/-! The beginning and the end of an address space. -/

namespace SudoOS

open Program RuntimePageTable
open PageTableEntry (Rights optionsRights)

/-! ### A new page table -/

namespace RuntimePageTable

variable {s t : PageTableState}

theorem synchronizeLoop_frame {indices : List Nat} : wp (synchronizeLoop indices) s
    (fun _ t => ∃ entry, t = { s with entry := entry } ∧ ∀ f, f ≠ s.root → entry f = s.entry f) (fun _ _ => True) := by
  induction indices generalizing s with
  | nil => exact wp_pure.2 ⟨s.entry, rfl, fun _ _ => rfl⟩
  | cons i rest ih =>
    simp only [synchronizeLoop, writeEntry, wp_bind, wp_get, wp_ofExcept, wp_ite, wp_set, wp_throw]
    refine ⟨fun raw _ => ⟨fun _ => ih.mono ?_ fun _ _ _ => trivial, fun _ => trivial⟩, fun _ _ => trivial⟩
    rintro _ _ ⟨entry, rfl, hentry⟩
    refine ⟨entry, rfl, fun f hf => (hentry f hf).trans ?_⟩
    funext j
    exact if_neg fun h => hf h.1

structure Started (s t : PageTableState) : Prop where
  wf : ∃ place, Wf t place
  view_eq : ∀ page, view t page = none
  ram : t.ram = s.ram
  owned : t.kernelOwned = s.kernelOwned
  foreign : ∀ f, s.free f = false → s.kernelOwned f = false → Foreign t f ∧ t.entry f = s.entry f

theorem KernelReady.newUser_started (hk : KernelReady s) : wp newUser s (fun _ t => Started s t) (fun _ _ => True) := by
  unfold newUser
  rw [wp_bind]
  refine (allocateZeroedTable_spec (.nil (.refl s) rfl rfl)).mono ?_ fun _ _ h => h.elim
  rintro (_ | root) u h
  · exact wp_throw.2 trivial
  simp only [wp_onError, wp_bind, wp_modify]
  have hw := hk.newRoot h
  refine (hw.synchronizeKernelMappings_spec.and synchronizeLoop_frame).mono ?_ fun _ _ _ => trivial
  rintro _ _ ⟨hr, entry, rfl, hentry⟩
  refine ⟨hr.wf, fun page => ?_, h.agrees.ram, h.agrees.owned, fun f hused hkernel => ?_⟩
  · -- There is no table below the root yet.
    have hnone : leafTable { u with root := root, runtimeTables := [], retired := [] } page.start = none := by
      rw [Option.eq_none_iff_forall_ne_some]
      intro l hl
      exact absurd (hw.leafTable_iff.1 hl).1 List.not_mem_nil
    refine if_neg fun hc => hc.2 ((hr.raw_eq page.start).trans ?_)
    rw [leafRaw, hnone]
    rfl
  · have hne : f ≠ root := fun he => by
      have := h.was_free root (List.mem_singleton_self root)
      rw [← he, hused] at this
      cases this
    refine ⟨⟨h.agrees.free f hused, hne, List.not_mem_nil, List.not_mem_nil, ?_⟩, ?_⟩
    · exact (congrFun h.agrees.owned f).trans hkernel
    · exact (hentry f hne).trans (h.entry f fun hf => hne (List.mem_singleton.1 hf))

end RuntimePageTable

/-! ### A new layout -/

namespace AddressSpace

variable {capacity : Nat} {s : AddressSpace}

def withBreak (b : Option ProgramBreak) (s : AddressSpace) : AddressSpace := { s with programBreak := b }

theorem wp_mapArea_break {reserve : Bool} {area : VmArea} (b : Option ProgramBreak) {Q : Unit → AddressSpace → Prop}
    {E : AddressSpaceError → AddressSpace → Prop} : wp (mapArea capacity reserve area) s Q E ↔
      wp (mapArea capacity reserve area) (s.withBreak b)
        (fun a t => Q a (t.withBreak s.programBreak)) (fun e t => E e (t.withBreak s.programBreak)) := by
  simp only [mapArea, onAreas, wp_bind, wp_get, wp_ite, wp_throw, wp_zoom, withBreak]

/-- Moving the break to a place starts with setting it, so it does not matter where it was. -/
theorem syncHeap_withBreak {reserveRemove reserveInsert : Bool} {brk : ProgramBreak} (hlow : brk.start ≤ brk.current)
    (hhigh : brk.current ≤ brk.limit) :
    syncHeap capacity reserveRemove reserveInsert brk.current (s.withBreak (some { brk with current := brk.start })) =
      syncHeap capacity reserveRemove reserveInsert brk.current (s.withBreak (some brk)) := by
  have hset : ∀ c, setProgramBreak brk.current (s.withBreak (some { brk with current := c })) =
      .ok brk.current (s.withBreak (some brk)) := fun c => by
    have hin : ¬(brk.current < brk.start ∨ brk.limit < brk.current) := by omega
    simp [setProgramBreak, withBreak, okOr, hin, bind, EStateM.bind, get, getThe, MonadStateOf.get, EStateM.get, pure,
      EStateM.pure, set, EStateM.set]
  have hsame := hset brk.current
  unfold syncHeap
  simp only [bind, EStateM.bind] at hset hsame ⊢
  rw [hset brk.start, hsame]

theorem setProgramBreakAndSyncHeap_first {reserveRemove reserveInsert : Bool} {brk : ProgramBreak}
    (h : (s.withBreak (some brk)).Sound capacity) :
    wp (setProgramBreakAndSyncHeap capacity reserveRemove reserveInsert brk.current)
      (s.withBreak (some { brk with current := brk.start }))
      (fun current t => current = brk.current ∧ HeapMoved capacity brk.current (s.withBreak (some brk)) t)
        (fun _ _ => True) := by
  obtain ⟨hlow, hhigh, -⟩ := h.brk brk rfl
  simp only [setProgramBreakAndSyncHeap, wp_bind, wp_get, wp_onError]
  rw [wp_iff, syncHeap_withBreak hlow hhigh, ← wp_iff]
  exact (syncHeap_spec h).mono (fun _ _ h => h) fun _ _ _ => trivial

end AddressSpace

namespace UserMm

variable {s t u : UserMmState} {areas : List VmArea} {b : Option ProgramBreak} {asid : AsidToken}

def HeapUnder (b : Option ProgramBreak) (areas : List VmArea) : Prop :=
  ∀ a ∈ areas, a.kind = .heap → ∀ x, a.contains x → ∃ b', b = some b' ∧ b'.Covers x

theorem mapAreas_spec (hs : (s.core.layout.withBreak b).Sound vmaCapacity)
    (hheap : HeapUnder b areas) : wp (mapAreas areas) s
      (fun _ t => ∃ layout reserves, t = setLayout layout (setTable { s.table with reserves := reserves } s) ∧
        layout.programBreak = s.core.layout.programBreak ∧
        (layout.withBreak b).Sound vmaCapacity ∧
        (∀ x, VmAreaSet.attrAt areas x ≠ none → attr s x = none) ∧
        ∀ x, layout.attr x = (VmAreaSet.attrAt areas x).or (attr s x))
      (fun e _ => e.IsError) := by
  induction areas generalizing s with
  | nil => exact wp_pure.2 ⟨s.core.layout, s.table.reserves, rfl, rfl, hs, fun _ h => absurd rfl h, fun _ => rfl⟩
  | cons area rest ih =>
    simp only [mapAreas, wp_bind, wp_nextReserve, wp_onLayout]
    rw [AddressSpace.wp_mapArea_break b]
    refine (AddressSpace.mapArea_spec hs fun hk => hheap area List.mem_cons_self hk).mono ?_ fun _ _ _ => ⟨_, rfl⟩
    rintro _ layout ⟨-, -, hfree, hsound, hbrk, hattr⟩
    have hsame : layout.withBreak b = layout := by
      rw [show b = layout.programBreak from hbrk.symm]
      rfl
    refine (ih ?_ fun a ha => hheap a (List.mem_cons_of_mem area ha)).mono ?_ fun _ _ h => h
    · exact hsame ▸ hsound
    · rintro _ _ ⟨layout', reserves, rfl, hbrk', hsound', hfree', hattr'⟩
      refine ⟨layout', reserves, rfl, hbrk', hsound', fun x hx => ?_, fun x => ?_⟩
      · rw [VmAreaSet.attrAt_cons] at hx
        split_ifs at hx with hin
        · exact hfree x hin
        · have hnone := hfree' x hx
          rw [show attr _ x = layout.attr x from rfl, hattr, if_neg hin] at hnone
          exact hnone
      · -- What an earlier area holds, no later one does.
        rw [hattr', show attr _ x = layout.attr x from rfl, hattr, VmAreaSet.attrAt_cons]
        split_ifs with hin
        · cases hrest : VmAreaSet.attrAt rest x with
          | none => rfl
          | some v =>
            have hnone := hfree' x (by rw [hrest]; exact Option.some_ne_none v)
            rw [show attr _ x = layout.attr x from rfl, hattr, if_pos hin] at hnone
            cases hnone
        · rfl

structure Laid (b : Option ProgramBreak) (areas : List VmArea) (s t : UserMmState) : Prop where
  pages : t.pages = []
  table : Started s.table t.table
  brk : t.core.layout.programBreak = none
  sound : (t.core.layout.withBreak b).Sound vmaCapacity
  attr_eq : ∀ x, attr t x = VmAreaSet.attrAt areas x

theorem new_spec (hk : KernelReady s.table) (hheap : HeapUnder b areas)
    (hb : ∀ b', b = some b' → b'.start ≤ b'.current ∧ b'.current ≤ b'.limit ∧ b'.limit ≤ userEnd) :
    wp (new asid areas) s (fun _ t => Laid b areas s t) (fun e _ => e.IsError) := by
  have hnew := AddressSpace.Sound.new vmaCapacity
  have hsound : ((AddressSpace.new userRange).withBreak b).Sound vmaCapacity :=
    ⟨hnew.ordered, rfl, hnew.below, hb, fun x f hx => (nomatch (show none = some (f, VmAreaKind.heap) from hx))⟩
  simp only [new, wp_bind, wp_modify, onTable, wp_zoom]
  refine (mapAreas_spec (b := b) ?_ hheap).mono ?_ fun _ _ h => h
  · exact hsound
  rintro _ _ ⟨layout, reserves, rfl, hbrk, hsound', -, hattr⟩
  have hready : KernelReady { s.table with reserves := reserves } := ⟨hk.free_ram, hk.used, hk.kernelRoot⟩
  refine hready.newUser_started.mono ?_ fun _ _ _ => ⟨_, rfl⟩
  rintro _ table hstarted
  refine ⟨rfl, ⟨hstarted.wf, hstarted.view_eq, hstarted.ram, hstarted.owned, hstarted.foreign⟩, hbrk, hsound', fun x => ?_⟩
  exact (hattr x).trans (Option.or_none ..)

def LawfulAreas (areas : List VmArea) : Prop := ∀ a ∈ areas, a.flags.Lawful ∧ a.kind.Plain

theorem LawfulAreas.attrAt (h : LawfulAreas areas) {x : Nat} {f : VmAreaFlags} {k : VmAreaKind}
    (hx : VmAreaSet.attrAt areas x = some (f, k)) : f.Lawful ∧ k.Plain := by
  obtain ⟨a, ha, heq⟩ := Option.map_eq_some_iff.1 hx
  cases heq
  exact h a (List.mem_of_find?_eq_some ha)

/-- An address space without pages. -/
theorem Inv.of_empty (hpages : s.pages = []) (hwf : ∃ place, Wf s.table place) (hview : ∀ page, view s.table page = none)
    (hlayout : s.core.layout.Sound vmaCapacity) (hlawful : ∀ x f k, attr s x = some (f, k) → f.Lawful ∧ k.Plain) :
      Inv s := by
  have hno : ∀ m, m ∉ s.pages := fun m hm => by
    rw [hpages] at hm
    exact List.not_mem_nil hm
  refine ⟨hlayout, ⟨hwf, ?_, fun m hm => absurd hm (hno m), fun m hm => absurd hm (hno m), fun page f r hv => ?_⟩, hlawful,
    fun m hm => absurd hm (hno m)⟩
  · rw [hpages]
    exact .nil
  · rw [hview] at hv
    cases hv

theorem Laid.inv (h : Laid none areas s t) (hareas : LawfulAreas areas) : Inv t := by
  refine .of_empty h.pages h.table.wf h.table.view_eq ?_ fun x f k hx => hareas.attrAt ((h.attr_eq x).symm.trans hx)
  have hsame : t.core.layout.withBreak none = t.core.layout := by
    rw [← h.brk]
    rfl
  exact hsame ▸ h.sound

theorem configureProgramBreak_spec {start limit : Nat} (hs : Inv s) (hbrk : s.core.layout.programBreak = none) :
    wp (configureProgramBreak start limit) s
      (fun _ t => Inv t ∧ t.pages = s.pages ∧ t.table = s.table ∧ attr t = attr s) (fun e _ => e.IsError) := by
  simp only [configureProgramBreak, wp_onLayout]
  refine (AddressSpace.configureProgramBreak_spec hs.layout fun x f hx => ?_).mono ?_ fun _ _ _ => ⟨_, rfl⟩
  · obtain ⟨b, hb, -⟩ := hs.layout.heap x f hx
    rw [hbrk] at hb
    cases hb
  · rintro _ layout ⟨hsound, hareas, -⟩
    have hattr : attr (setLayout layout s) = attr s := by
      funext x
      show VmAreaSet.attrAt layout.areas.areas x = VmAreaSet.attrAt s.core.layout.areas.areas x
      rw [hareas]
    have hkept : Kept s (setLayout layout s) := ⟨hs.backed, ⟨[], .refl _⟩, fun _ _ => rfl, fun _ _ => by rw [hattr]⟩
    exact ⟨hkept.inv hs hsound (hattr ▸ hs.lawful), rfl, rfl, hattr⟩

structure Republished (brk : ProgramBreak) (t u : UserMmState) : Prop where
  pages : u.pages = t.pages
  table : ∃ reserves, u.table = { t.table with reserves := reserves }
  sound : u.core.layout.Sound vmaCapacity
  brk_eq : u.core.layout.programBreak = some brk
  attr_eq : ∀ x, attr u x = if brk.Covers x then some (.userRw, .heap) else attr t x

theorem forkBreak_spec {brk : ProgramBreak} (h : Laid (some brk) areas s t) :
    wp (do configureProgramBreak brk.start brk.limit; setProgramBreak brk.current : UserMmM Nat) t
      (fun _ u => Republished brk t u) (fun _ _ => True) := by
  rw [wp_bind]
  simp only [configureProgramBreak, wp_onLayout, AddressSpace.configureProgramBreak, wp_bind, wp_get, wp_ite, wp_throw,
    wp_okOr, wp_set, implies_true, and_true, true_and]
  intro _ _ first hfirst
  obtain rfl : { brk with current := brk.start } = first := by
    unfold ProgramBreak.new at hfirst
    split_ifs at hfirst
    exact Option.some.inj hfirst
  simp only [setProgramBreak, wp_bind, wp_get, wp_okOr, wp_nextReserve, wp_onLayout, wp_ite, wp_pure]
  refine ⟨fun old hold => ?_, fun _ => trivial⟩
  obtain rfl : { brk with current := brk.start } = old := Option.some.inj hold
  refine (AddressSpace.setProgramBreakAndSyncHeap_first h.sound).mono ?_ fun _ _ _ => trivial
  rintro current layout ⟨rfl, hmoved⟩
  obtain ⟨b, hb, -, -, hbrk⟩ := hmoved.brk
  obtain rfl : brk = b := Option.some.inj hb
  have hrepublished : ∀ {u : UserMmState}, u.core.layout = layout → u.pages = t.pages →
      (∃ reserves, u.table = { t.table with reserves := reserves }) → Republished brk t u := by
    intro u hlayout hpages htable
    refine ⟨hpages, htable, hlayout ▸ hmoved.sound, hlayout ▸ hbrk, fun x => ?_⟩
    rw [attr, hlayout, hmoved.attr brk hbrk x]
    refine ite_congr rfl (fun _ => rfl) fun hout => ?_
    -- The heap was laid out under the break, so what is left is not of the heap.
    have hsame : (t.core.layout.withBreak (some brk)).attr x = attr t x := rfl
    rw [hsame]
    cases hx : attr t x with
    | none => rfl
    | some v =>
      have hne : v.2 ≠ .heap := fun hheap => by
        obtain ⟨b, hb, hcovers⟩ := h.sound.heap x v.1 (hsame.trans (hx.trans (by rw [← hheap])))
        cases hb
        exact hout hcovers
      simp [Option.filter, hne]
  refine ⟨fun oldEnd hold => ⟨fun newEnd hnew => ⟨fun hlt => ?_, fun _ => hrepublished rfl rfl ⟨_, rfl⟩⟩, fun _ => trivial⟩,
    fun _ => trivial⟩
  have hlow := (h.sound.brk brk rfl).1
  rw [alignUp_pageSize] at hold hnew
  split_ifs at hold hnew
  have hold' := Option.some.inj hold
  have hnew' := Option.some.inj hnew
  dsimp only at hold'
  omega

/-! ### The pages of a child -/

section fork
variable {source : MappedPage} {frame : Nat}

structure Cloned (source : MappedPage) (f : VmAreaFlags) (frame : Nat) (s t : UserMmState) : Prop where
  layout : t.core.layout = s.core.layout
  pages : t.pages = s.pages ++ [⟨source.page, frame⟩]
  attr_eq : ∃ k, attr s source.page.start = some (f, k)
  table : Updates s.table t.table (if f.NoAccess then view s.table else
    Function.update (view s.table) source.page (some (frame, optionsRights f.options)))
  absent : ¬f.NoAccess → f.options.Mappable ∧ view s.table source.page = none
  backed : Backed t.table t.pages
  contents : t.table.entry frame = s.table.entry source.backing

/-- The frame of the source belongs to somebody else, so that no call of the child changes it. -/
theorem forkPage_spec (hs : Inv s) (hsource : Foreign s.table source.backing) : wp (forkPage source) s
    (fun _ t => ∃ f frame, Cloned source f frame s t) (fun e _ => e.IsError) := by
  simp only [forkPage, wp_bind, wp_get, wp_okOr, wp_tryReserve]
  refine ⟨fun area hfind => ⟨fun _ => ?_, fun _ => ⟨_, rfl⟩⟩, fun _ => ⟨_, rfl⟩⟩
  have huser := hs.userAddress hfind
  have h₁ : Untouched s (consumed 1 s) := .consumed hs.backed 1
  refine (allocatePage_spec (h₁.backed hs.backed)).mono ?_ fun _ _ h => ⟨_, h.1⟩
  rintro frame s₂ ⟨h₁₂, hfree, hforeign, hram, -⟩
  have h₂ := h₁.trans h₁₂
  have hb₂ := h₂.backed hs.backed
  have hnew : ∀ m ∈ s₂.pages, m.backing ≠ frame := by
    rw [h₂.pages]
    exact Backed.ne_of_free hs.backed hfree
  simp only [wp_onError, copyPhysicalPage, wp_bind, wp_get, wp_ite, wp_set, wp_throw, wp_given, wp_modify]
  refine ⟨fun _ => ?_, fun _ => ⟨_, rfl⟩⟩
  have hsource₂ := h₂.table.kernel.foreign _ hsource
  have hne : source.backing ≠ frame := fun he => by
    have := hsource.used
    rw [he] at this
    rw [show s.table.free frame = true from hfree] at this
    cases this
  have houtside : Outside s₂.table (copyFrame source.backing frame s₂).table (· = frame) :=
    ⟨rfl, rfl, rfl, rfl, rfl, rfl, fun f hf => hf ▸ hforeign, fun f hf => hf ▸ hram, fun f hf => funext fun i => if_neg hf,
      fun _ _ => rfl⟩
  have hu₃ : Updates s.table (copyFrame source.backing frame s₂).table (view s.table) :=
    h₂.table.outside houtside fun f hf hfr => by
      have := hf.used
      rw [hfr, show s.table.free frame = true from hfree] at this
      cases this
  have hb₃ : Backed (copyFrame source.backing frame s₂).table (s₂.pages ++ [⟨source.page, frame⟩]) :=
    (hb₂.outside houtside fun m hm => hnew m hm).adopt ⟨hforeign.used, hforeign.ne_root, hforeign.not_table,
      hforeign.not_retired, hforeign.not_kernel⟩ hram hnew huser
  have hentry₃ : (copyFrame source.backing frame s₂).table.entry frame = s.table.entry source.backing := by
    rw [← hsource₂.2]
    exact funext fun i => if_pos rfl
  refine ⟨fun haccess => ?_, fun hnone => ?_⟩
  · have hyes : ¬area.flags.NoAccess := by simpa [VmAreaFlags.NoAccess] using haccess
    obtain ⟨place, hw⟩ := hb₃.wf
    simp only [onTable, wp_zoom]
    refine hw.mapPage_use.mono ?_ fun _ _ _ => ⟨_, rfl⟩
    rintro _ table ⟨-, hmappable, -, habsent, hu⟩
    rw [hu₃.view_eq] at habsent
    rw [area.mappingOptions_eq] at hmappable hu
    refine ⟨area.flags, frame, h₂.layout, ?_, ⟨area.kind, hs.attr_of_findArea hfind⟩, ?_, fun _ => ⟨hmappable, habsent⟩, ?_,
      ?_⟩
    · rw [← h₂.pages]
      rfl
    · rw [if_neg hyes, ← hu₃.view_eq]
      exact hu₃.trans hu
    · refine hb₃.setLeaf hu fun f r hx => ?_
      cases hx
      exact List.mem_append_right _ (List.mem_singleton_self _)
    · refine Eq.trans ?_ hentry₃
      exact (hu.kernel.foreign frame ⟨hforeign.used, hforeign.ne_root, hforeign.not_table, hforeign.not_retired,
        hforeign.not_kernel⟩).2
  · have hno : area.flags.NoAccess := by simpa [VmAreaFlags.NoAccess] using hnone
    refine ⟨area.flags, frame, h₂.layout, ?_, ⟨area.kind, hs.attr_of_findArea hfind⟩, ?_, fun h => absurd hno h,
      hb₃, hentry₃⟩
    · rw [← h₂.pages]
      rfl
    · rw [if_pos hno]
      exact hu₃

structure Orderly (s : UserMmState) : Prop where
  inv : Inv s
  synced : ∀ m ∈ s.pages, Synced s m.page

theorem Cloned.orderly {f : VmAreaFlags} (h : Cloned source f frame s t) (hs : Orderly s) : Orderly t := by
  obtain ⟨k, hk⟩ := h.attr_eq
  have hattr : attr t = attr s := by
    unfold attr
    rw [h.layout]
  have hmem : ∀ m ∈ t.pages, m ∈ s.pages ∨ m.page = source.page := fun m hm => by
    rw [h.pages] at hm
    rcases List.mem_append.1 hm with hm | hm
    · exact .inl hm
    · exact .inr (by rw [List.mem_singleton.1 hm])
  refine ⟨⟨h.layout ▸ hs.inv.layout, h.backed, hattr ▸ hs.inv.lawful, fun m hm => ?_⟩, fun m hm f' k' hf' => ?_⟩
  · rw [hattr]
    rcases hmem m hm with hm | hpage
    · exact hs.inv.record m hm
    · rw [hpage]
      exact ⟨f, k, hk, (hs.inv.lawful _ _ _ hk).1.ordinary fun hno => (h.absent hno).1⟩
  · rw [hattr] at hf'
    rw [h.table.view_eq]
    by_cases hpage : m.page = source.page
    · -- The page that was copied, perhaps not for the first time.
      rw [hpage, hk] at hf'
      obtain ⟨rfl, rfl⟩ := Prod.mk.inj (Option.some.inj hf')
      rw [hpage]
      split_ifs with hno
      · refine ⟨frame, (leafFor_noAccess hno).symm ▸ ?_⟩
        by_contra hsome
        obtain ⟨y, hy⟩ := Option.ne_none_iff_exists'.1 hsome
        obtain ⟨frame', hleaf⟩ := hs.synced _ (hs.inv.backed.leaf _ _ _ hy) f k hk
        rw [leafFor_noAccess hno] at hleaf
        exact hsome hleaf
      · exact ⟨frame, by rw [Function.update_self, leafFor_access hno]⟩
    · have hold := (hmem m hm).resolve_right hpage
      obtain ⟨frame', hleaf⟩ := hs.synced m hold f' k' hf'
      refine ⟨frame', ?_⟩
      split_ifs
      · exact hleaf
      · rw [Function.update_of_ne hpage]
        exact hleaf

/-- An orderly address space is coherent, but for pages on record twice, and its leaves grant what the areas grant. -/
theorem Orderly.permitted (h : Orderly s) : Permitted s := by
  intro page x hx f k hf
  obtain ⟨frame, hleaf⟩ := h.synced _ (h.inv.backed.leaf _ _ _ hx) f k hf
  have hview : view s.table page = leafFor f frame := hleaf
  rw [hx] at hview
  by_cases hno : f.NoAccess
  · rw [leafFor_noAccess hno] at hview
    cases hview
  · rw [leafFor_access hno] at hview
    rw [Option.some.inj hview]

theorem Orderly.coherent (h : Orderly s) (hunique : (s.pages.map MappedPage.page).Nodup) : Coherent s := by
  refine ⟨hunique, fun m hm hnone f k hf => ?_⟩
  by_contra hno
  obtain ⟨frame, hleaf⟩ := h.synced m hm f k hf
  rw [hnone, leafFor_access hno] at hleaf
  cases hleaf

structure CopyOf (s t : UserMmState) (source m : MappedPage) : Prop where
  page : m.page = source.page
  foreign : Foreign t.table m.backing
  contents : t.table.entry m.backing = s.table.entry source.backing

structure Copied (sources : List MappedPage) (s t : UserMmState) : Prop where
  layout : t.core.layout = s.core.layout
  kernel : KernelSame s.table t.table
  pages : ∃ copies, t.pages = s.pages ++ copies ∧ List.Forall₂ (CopyOf s t) sources copies
  orderly : Orderly t

theorem Copied.snoc {f : VmAreaFlags} {sources : List MappedPage} (h : Copied sources s t) (h' : Cloned source f frame t u)
    (hsource : Foreign s.table source.backing) : Copied (sources ++ [source]) s u := by
  obtain ⟨copies, hpages, hcopies⟩ := h.pages
  refine ⟨h'.layout.trans h.layout, h.kernel.trans h'.table.kernel, ⟨copies ++ [⟨source.page, frame⟩], ?_, ?_⟩,
    h'.orderly h.orderly⟩
  · rw [h'.pages, hpages, List.append_assoc]
  · refine List.rel_append (hcopies.imp fun src m hm => ?_) (.cons ⟨rfl, ?_, ?_⟩ .nil)
    · obtain ⟨hforeign, hentry⟩ := h'.table.kernel.foreign _ hm.foreign
      exact ⟨hm.page, hforeign, hentry.trans hm.contents⟩
    · refine (h'.backed.frames ⟨source.page, frame⟩ ?_).1
      rw [h'.pages]
      exact List.mem_append_right _ (List.mem_singleton_self _)
    · exact h'.contents.trans (h.kernel.foreign _ hsource).2

theorem forkPages_spec {sources : List MappedPage} (hs : Orderly s) (hsources : ∀ m ∈ sources, Foreign s.table m.backing) :
    wp (sources.forM forkPage) s (fun _ t => Copied sources s t) (fun e _ => e.IsError) := by
  refine (wp_forM (fun rest t => ∃ done, sources = done ++ rest ∧ Copied done s t) ?_ ?_).mono ?_ fun _ _ h => h
  · rintro source rest t ⟨done, hsplit, hdone⟩
    have hsource : Foreign s.table source.backing := hsources source (by
      rw [hsplit]
      exact List.mem_append_right _ List.mem_cons_self)
    refine (forkPage_spec hdone.orderly.inv (hdone.kernel.foreign _ hsource).1).mono ?_ fun _ _ h => h
    rintro _ u ⟨f, frame, hu⟩
    refine ⟨done ++ [source], ?_, hdone.snoc hu hsource⟩
    rw [hsplit, List.append_assoc]
    rfl
  · exact ⟨[], rfl, rfl, .refl _, ⟨[], (List.append_nil _).symm, .nil⟩, hs⟩
  · rintro _ t ⟨done, hsplit, hdone⟩
    rw [List.append_nil] at hsplit
    exact hsplit ▸ hdone

theorem CopyOf.pages_eq {sources copies : List MappedPage} (h : List.Forall₂ (CopyOf s t) sources copies) :
    copies.map MappedPage.page = sources.map MappedPage.page := by
  induction h with
  | nil => rfl
  | cons hm _ ih => rw [List.map_cons, List.map_cons, hm.page, ih]

theorem Backed.kernelReady {table : PageTableState} {pages : List MappedPage} (h : Backed table pages) :
    KernelReady table := by
  obtain ⟨place, hw⟩ := h.wf
  exact ⟨hw.free_ram, fun g hg => (hw.apart g hg).2.2.2, hw.kernelRoot⟩

/-- The check of the parent changes nothing. -/
theorem forkSource_spec (hs : Inv s) : wp forkSource s
    (fun source t => source = ⟨s.core.layout.areas.areas, s.core.layout.programBreak, s.pages⟩ ∧ Untouched s t ∧
      ∃ reserves, t.table = { s.table with reserves := reserves })
    (fun e _ => e.IsError) := by
  have hcheck : ∀ (t : UserMmState) (m : MappedPage), wp (checkSource m) t (fun _ u => u = t ∧ True)
    (fun e _ => e.IsError) := by
    intro t m
    simp only [checkSource, wp_bind, wp_get, wp_okOr, wp_translate]
    refine ⟨fun area _ => ⟨fun physical _ => ?_, fun _ _ => ⟨_, rfl⟩⟩, fun _ => ⟨_, rfl⟩⟩
    cases physical <;>
    · simp only [wp_ite, wp_throw, wp_pure]
      exact ⟨fun _ => ⟨_, rfl⟩, fun _ => ⟨trivial, trivial⟩⟩
  have h₁ : Untouched s (consumed 1 s) := .consumed hs.backed 1
  have h₂ : Untouched s (consumed 1 (consumed 1 s)) := h₁.trans (.consumed (h₁.backed hs.backed) 1)
  simp only [forkSource, wp_bind, wp_tryReserve, wp_get, wp_pure]
  refine ⟨fun _ => ⟨fun _ => ?_, fun _ => ⟨_, rfl⟩⟩, fun _ => ⟨_, rfl⟩⟩
  refine (wp_forM_check (P := fun _ => True) fun m _ => hcheck _ m).mono ?_ fun _ _ h => h
  rintro _ t ⟨rfl, -⟩
  exact ⟨rfl, h₂, _, rfl⟩

def republish (brk : Option ProgramBreak) (old : Nat → Option (VmAreaFlags × VmAreaKind)) (x : Nat) :
    Option (VmAreaFlags × VmAreaKind) :=
  match brk with
  | some b => if b.Covers x then some (.userRw, .heap) else old x
  | none => old x

structure Forked (s c : UserMmState) : Prop where
  orderly : Orderly c
  attr_eq : ∀ x, attr c x = republish s.core.layout.programBreak (attr s) x
  brk : c.core.layout.programBreak = s.core.layout.programBreak
  pages : List.Forall₂ (CopyOf s c) s.pages c.pages
  foreign : ∀ f, s.table.free f = false → s.table.kernelOwned f = false → Foreign c.table f ∧
    c.table.entry f = s.table.entry f

theorem republish_lawful (hs : Inv s) {x : Nat} {f : VmAreaFlags} {k : VmAreaKind}
    (h : republish s.core.layout.programBreak (attr s) x = some (f, k)) : f.Lawful ∧ k.Plain := by
  unfold republish at h
  split at h
  · split_ifs at h
    · cases h
      exact ⟨userRw_lawful, trivial⟩
    · exact hs.lawful x f k h
  · exact hs.lawful x f k h

/-- An empty address space that is laid out as the parent asks gets the parent's pages. -/
theorem forkPages_forked (hs : Inv s) (hstarted : Started s.table t.table) (hpages : t.pages = [])
    (hsound : t.core.layout.Sound vmaCapacity) (hbrk : t.core.layout.programBreak = s.core.layout.programBreak)
    (hattr : ∀ x, attr t x = republish s.core.layout.programBreak (attr s) x) :
    wp (s.pages.forM forkPage) t (fun _ c => Forked s c) (fun _ _ => True) := by
  have hinv : Inv t := .of_empty hpages hstarted.wf hstarted.view_eq hsound fun x f k hf =>
    republish_lawful hs ((hattr x).symm.trans hf)
  have horderly : Orderly t := ⟨hinv, fun m hm => by
    rw [hpages] at hm
    exact absurd hm List.not_mem_nil⟩
  have hsources : ∀ m ∈ s.pages, Foreign t.table m.backing ∧ t.table.entry m.backing = s.table.entry m.backing :=
    fun m hm => by
    have hforeign := (hs.backed.frames m hm).1
    exact hstarted.foreign _ hforeign.used hforeign.not_kernel
  refine (forkPages_spec horderly fun m hm => (hsources m hm).1).mono ?_ fun _ _ _ => trivial
  intro _ c hc
  obtain ⟨copies, hcopies, hall⟩ := hc.pages
  refine ⟨hc.orderly, fun x => ?_, ?_, ?_, fun f hused hkernel => ?_⟩
  · rw [attr, hc.layout]
    exact hattr x
  · rw [hc.layout, hbrk]
  · rw [hcopies, hpages, List.nil_append]
    refine ((List.forall₂_and_left _ _).2 ⟨hsources, hall⟩).imp fun src m hm => ?_
    exact ⟨hm.2.page, hm.2.foreign, hm.2.contents.trans hm.1.2⟩
  · obtain ⟨hforeign, hentry⟩ := hstarted.foreign f hused hkernel
    obtain ⟨hforeign', hentry'⟩ := hc.kernel.foreign f hforeign
    exact ⟨hforeign', hentry'.trans hentry⟩

theorem Started.reserves {table table' : PageTableState} (h : Started table table') (r : List Bool) :
    Started table { table' with reserves := r } := by
  obtain ⟨place, hw⟩ := h.wf
  refine ⟨⟨place, hw.answers _ _⟩, h.view_eq, h.ram, h.owned, fun f hused hkernel => ?_⟩
  obtain ⟨⟨h₁, h₂, h₃, h₄, h₅⟩, hentry⟩ := h.foreign f hused hkernel
  exact ⟨⟨h₁, h₂, h₃, h₄, h₅⟩, hentry⟩

theorem forkChild_spec (hs : Inv s) :
    wp (forkChild asid ⟨s.core.layout.areas.areas, s.core.layout.programBreak, s.pages⟩) s (fun _ c => Forked s c)
      (fun _ _ => True) := by
  have hheap : HeapUnder s.core.layout.programBreak s.core.layout.areas.areas := fun a ha hk x hx => by
    have hattr := hs.layout.attr_of_findArea (hs.layout.findArea_eq_some.2 ⟨ha, hx⟩)
    rw [hk] at hattr
    exact hs.layout.heap x a.flags hattr
  simp only [forkChild, wp_bind]
  refine (new_spec (Backed.kernelReady hs.backed) hheap hs.layout.brk).mono ?_ fun _ _ _ => trivial
  intro _ t ht
  cases hbrk : s.core.layout.programBreak with
  | none =>
    rw [hbrk] at ht
    refine forkPages_forked hs ht.table ht.pages ?_ (ht.brk.trans hbrk.symm) fun x => ?_
    · have hsame : t.core.layout.withBreak none = t.core.layout := by
        rw [← ht.brk]
        rfl
      exact hsame ▸ ht.sound
    · rw [hbrk]
      exact ht.attr_eq x
  | some brk =>
    rw [hbrk] at ht
    have hfork := forkBreak_spec ht
    rw [wp_bind] at hfork
    simp only [wp_bind]
    refine hfork.mono (fun _ u hu => hu.mono ?_ fun _ _ h => h) fun _ _ h => h
    rintro _ c hc
    obtain ⟨reserves, htable⟩ := hc.table
    refine forkPages_forked hs ?_ (hc.pages.trans ht.pages) hc.sound (hc.brk_eq.trans hbrk.symm) fun x => ?_
    · rw [htable]
      exact Started.reserves ht.table reserves
    · rw [hc.attr_eq, hbrk, ht.attr_eq]
      rfl

end fork

theorem Forked.congr {c : UserMmState} (h : Forked t c) (hu : Untouched s t)
    (htable : ∃ reserves, t.table = { s.table with reserves := reserves }) : Forked s c := by
  obtain ⟨reserves, htable⟩ := htable
  refine ⟨h.orderly, fun x => ?_, h.brk.trans (by rw [hu.layout]), ?_, fun f hused hkernel => ?_⟩
  · rw [h.attr_eq, hu.layout, hu.attr]
  · rw [← hu.pages]
    refine h.pages.imp fun src m hm => ⟨hm.page, hm.foreign, hm.contents.trans ?_⟩
    rw [htable]
  · have := h.foreign f
    rw [htable] at this
    exact this hused hkernel

theorem forkCloneEager_forked (hs : Inv s) {parent child : UserMmState}
    (h : forkCloneEager asid s = .ok (parent, child)) : Forked s child := by
  unfold forkCloneEager at h
  cases hsource : forkSource s with
  | error e t =>
    rw [hsource] at h
    cases h
  | ok source t =>
    obtain ⟨rfl, hu, htable⟩ := (forkSource_spec hs).ok hsource
    rw [hsource] at h
    dsimp only at h
    have ht := hu.inv hs
    have hchild : wp (forkChild asid ⟨t.core.layout.areas.areas, t.core.layout.programBreak, t.pages⟩) t
        (fun _ c => Forked t c) fun _ _ => True := forkChild_spec ht
    rw [hu.layout, hu.pages] at hchild
    cases hrun : forkChild asid ⟨s.core.layout.areas.areas, s.core.layout.programBreak, s.pages⟩ t with
    | error e c =>
      rw [hrun] at h
      cases h
    | ok _ c =>
      rw [hrun] at h
      obtain ⟨-, rfl⟩ := Prod.mk.inj (Except.ok.inj h)
      exact (hchild.ok hrun).congr hu htable

/-! ### The end -/

theorem Coherent.matches (hc : Coherent s) (hs : Backed s.table s.pages) {m : MappedPage} (hm : m ∈ s.pages) :
    Matches s.table m := by
  intro x hx
  have hleaf := hs.leaf m.page x.1 x.2 hx
  have := List.inj_on_of_nodup_map hc.unique hleaf hm rfl
  rw [← this]

/-- The teardown meets the frames that it expects. -/
theorem destroyLoop_spec {fuel : Nat} (h : Backed s.table s.pages) (hmatch : ∀ m ∈ s.pages, Matches s.table m)
    (hfuel : s.pages.length ≤ fuel) :
    wp (destroyLoop fuel) s (fun _ t => Backed t.table t.pages) (fun _ _ => False) := by
  induction fuel generalizing s with
  | zero => exact wp_pure.2 h
  | succ fuel ih =>
    simp only [destroyLoop, wp_bind, wp_get]
    cases hlast : s.pages.getLast? with
    | none => exact wp_pure.2 h
    | some m =>
      obtain ⟨init, hinit⟩ := List.getLast?_eq_some_iff.1 hlast
      have hdrop : s.pages.dropLast = init := by rw [hinit, List.dropLast_concat]
      have hperm : s.pages.Perm (m :: init) := by
        rw [hinit]
        exact List.perm_append_comm
      have hm : m ∈ s.pages := hperm.mem_iff.2 List.mem_cons_self
      have huser := h.user m hm
      -- What is left to do once the page has no leaf.
      have hrest : ∀ table, Updates s.table table (Function.update (view s.table) m.page none) →
          wp (reclaimEmptyTables m.page) table
            (fun _ table => wp (destroyLoop fuel) (freePage m.backing { s with pages := s.pages.dropLast, table := table })
              (fun _ t => Backed t.table t.pages) (fun _ _ => False)) (fun _ _ => False) := by
        intro table hu
        obtain ⟨place, hw⟩ := hu.wf
        refine (hw.reclaim_use huser).mono ?_ fun _ _ hf => hf.elim
        intro _ table' hu'
        have hone : Withdrawn [m] s { s with pages := init, table := table' } :=
          .single h hperm (hu.trans (hu.view_eq ▸ hu'))
        have hframes := hone.frames m (List.mem_singleton_self m)
        have hfree : Outside table' (freeTables [m.backing] table') (· ∈ [m.backing]) :=
          freeTables_outside fun f hf => List.mem_singleton.1 hf ▸ hframes
        have hne : ∀ m' ∈ init, m'.backing ∉ [m.backing] := fun m' hm' hin => by
          refine (List.nodup_cons.1 (h.perm hperm).backings).1 ?_
          rw [← List.mem_singleton.1 hin]
          exact List.mem_map_of_mem hm'
        rw [hdrop]
        refine ih (hone.backed.outside hfree hne) (fun m' hm' x hx => ?_) ?_
        · obtain ⟨place', hw'⟩ := hone.backed.wf
          refine hone.matches (hmatch m' (hperm.mem_iff.2 (List.mem_cons_of_mem _ hm'))) x ?_
          exact (congrFun (hfree.view_eq hw') m'.page).symm.trans hx
        · have := hperm.length_eq
          rw [List.length_cons] at this
          show init.length ≤ fuel
          omega
      simp only [wp_bind, wp_modify, translate, wp_get]
      rw [h.translate_page huser]
      obtain ⟨place, hw⟩ := h.wf
      cases hview : view s.table m.page with
      | none =>
        have hu : Updates s.table s.table (Function.update (view s.table) m.page none) := by
          rw [← hview, Function.update_eq_self]
          exact hw.updates
        refine wp_pure.2 ?_
        simp only [Option.map_none, wp_bind, onTable, wp_zoom, wp_modify]
        exact (hrest s.table hu).mono (fun _ _ h => h) fun _ _ h => h.elim
      | some x =>
        have hbacking := hmatch m hm x hview
        refine wp_pure.2 ?_
        simp only [Option.map_some, wp_bind, onTable, wp_zoom, wp_require, wp_modify]
        refine ⟨fun _ => (hw.unmapPage_use huser).mono ?_ ?_, fun hne => absurd (by rw [hbacking]) hne⟩
        · rintro frame table ⟨⟨r, hframe⟩, hu⟩
          have hfound : frame = m.backing := hmatch m hm _ hframe
          exact ⟨fun _ => hrest table hu, fun hne => absurd hfound hne⟩
        · rintro _ _ ⟨-, -, hnone⟩
          rw [hview] at hnone
          cases hnone

theorem retireAll_tables {table : PageTableState} :
    wp retireAllPrivateTables table (fun _ t => t.runtimeTables = []) (fun _ _ => True) := by
  rw [retireAllPrivateTables, wp_bind]
  exact wp_iff.2 ⟨fun _ _ _ => wp_modify.2 rfl, fun _ _ _ => trivial⟩

/-- A coherent address space is destroyed, or the call comes back with an error. -/
theorem destroy_spec (hs : Inv s) (hc : Coherent s) : wp destroy s (fun _ _ => True) (fun e _ => e.IsError) := by
  have hconsumed : Untouched s (consumed 1 s) := .consumed hs.backed 1
  simp only [destroy, wp_bind, wp_get, wp_ite, wp_throw, wp_tryReserve]
  refine ⟨fun _ => ⟨_, rfl⟩, fun _ => ⟨fun _ => ?_, fun _ => ⟨_, rfl⟩⟩⟩
  refine (destroyLoop_spec (hconsumed.backed hs.backed) (fun m hm => hc.matches hs.backed hm) (Nat.le_refl _)).mono ?_
    fun _ _ h => h.elim
  intro _ t ht
  obtain ⟨place, hw⟩ := ht.wf
  simp only [onTable, wp_zoom]
  refine (hw.retireAll_spec.and retireAll_tables).mono ?_ fun _ _ h => h.1.elim
  rintro _ table ⟨⟨⟨place', hw'⟩, -, -⟩, htables⟩
  refine hw'.freeRetired_spec.mono ?_ fun _ _ h => h.elim
  rintro _ table' ⟨-, -, htables', -⟩
  simp only [wp_require, wp_modify, implies_true, true_and]
  exact fun hne => absurd (htables'.trans htables) hne

end UserMm

end SudoOS
