import SudoOS.Theorems.PageTableRefinement

/-! The page table as its owner uses it: what each call does to the view and when it fails. -/

namespace SudoOS

open Program PageTableEntry

namespace RuntimePageTable

variable {s t u : PageTableState} {place : Nat → List Nat} {page : VirtPage} {f : Nat} {o : MappingOptions} {v w : PageMap}

structure Updates (s t : PageTableState) (v : PageMap) : Prop where
  wf : ∃ place, Wf t place
  kernel : KernelSame s t
  view_eq : view t = v

theorem Wf.updates (hw : Wf s place) : Updates s s (view s) := ⟨⟨place, hw⟩, .refl s, rfl⟩

theorem Updates.trans (h : Updates s t v) (h' : Updates t u w) : Updates s u w :=
  ⟨h'.wf, h.kernel.trans h'.kernel, h'.view_eq⟩

theorem Leads.updates (h : Leads s t (leafRaw s)) : Updates s t (view s) := ⟨h.wf, h.kernel, view_same h.raw_eq⟩

theorem Wf.view_mappable (hw : Wf s place) {x : Nat × Rights} (h : view s page = some x) :
    ∃ o : MappingOptions, o.Mappable ∧ x.2 = optionsRights o := by
  unfold view at h
  split_ifs at h with hc
  obtain rfl := Option.some.inj h
  rcases hw.leafRaw_cases page.start with h0 | ⟨f, o, hleaf⟩
  · exact absurd h0 hc.2
  · exact ⟨o, (leaf_ok_iff.1 ⟨_, hleaf⟩).1, (leaf_eq_ok hleaf).2.2.2⟩

theorem containingAddress_start (page : VirtPage) : VirtPage.containingAddress page.start = page := by
  refine page_eq_iff.1 ?_
  rw [containingAddress_page]

theorem Wf.translate_page (hw : Wf s place) (hpage : page.start < userEnd) :
    translate s page.start = .ok ((view s page).map fun x => x.1 * pageSize) := by
  have haligned := page.aligned
  rw [hw.translate_view hpage, containingAddress_start]
  simp [haligned, pageSize]

theorem Wf.unmapPage_use (hw : Wf s place) (hpage : page.start < userEnd) : wp (unmapPage page) s
    (fun old t => (∃ r, view s page = some (old, r)) ∧ Updates s t (Function.update (view s) page none))
    (fun e t => t = s ∧ e = .notMapped ∧ view s page = none) := by
  refine hw.unmapPage_spec.mono ?_ ?_
  · rintro old t ⟨-, hraw, rfl, h⟩
    exact ⟨⟨_, view_eq_some hpage hraw⟩, h.wf, h.kernel, view_leadTo (v := 0) hpage h rfl⟩
  · rintro e t ⟨rfl, he⟩
    exact ⟨rfl, (he hpage).1, (view_eq_none hpage).2 (he hpage).2⟩

theorem Wf.protectPage_use (hw : Wf s place) (hpage : page.start < userEnd) : wp (protectPage page o) s
    (fun _ t => o.Mappable ∧ ∃ f r, view s page = some (f, r) ∧
      Updates s t (Function.update (view s) page (some (f, optionsRights o))))
    (fun e t => t = s ∧ (e = .notMapped ∧ view s page = none ∨ e = .pageTableEntry ∧ view s page ≠ none ∧
      ¬o.Mappable)) := by
  refine hw.protectPage_spec.mono ?_ ?_
  · rintro _ t ⟨-, hraw, x, hx, h⟩
    exact ⟨(leaf_ok_iff.1 ⟨_, hx⟩).1, _, _, view_eq_some hpage hraw, h.wf, h.kernel, view_leadTo hpage h (leaf_view hx)⟩
  · rintro e t ⟨rfl, he⟩
    refine ⟨rfl, ?_⟩
    rcases he hpage with ⟨he, hraw⟩ | ⟨he, hraw, hleaf⟩
    · exact .inl ⟨he, (view_eq_none hpage).2 hraw⟩
    · refine .inr ⟨he, fun hn => hraw ((view_eq_none hpage).1 hn), fun hm => ?_⟩
      obtain ⟨raw, hraw'⟩ := leaf_ok_iff.2 ⟨hm, ppn_lt (leafRaw t page.start)⟩
      exact hleaf raw hraw'

theorem Wf.mapPage_use (hw : Wf s place) : wp (mapPage page f o) s
    (fun _ t => page.start < userEnd ∧ o.Mappable ∧ f < 2 ^ 44 ∧ view s page = none ∧
      Updates s t (Function.update (view s) page (some (f, optionsRights o))))
    (fun _ t => Updates s t (view s)) := by
  refine hw.mapPage_spec.mono ?_ fun _ _ h => h.updates
  rintro _ t ⟨hpage, hraw, x, hx, h⟩
  obtain ⟨hm, hf⟩ := leaf_ok_iff.1 ⟨_, hx⟩
  exact ⟨hpage, hm, hf, (view_eq_none hpage).2 hraw, h.wf, h.kernel, view_leadTo hpage h (leaf_view hx)⟩

theorem Wf.reclaim_use (hw : Wf s place) (hpage : page.start < userEnd) : wp (reclaimEmptyTables page) s
    (fun _ t => Updates s t (view s)) (fun _ _ => False) :=
  hw.reclaimEmptyTables_spec.mono (fun _ _ h => h.leads.updates) fun _ _ h => Nat.not_lt.2 h.2 hpage

theorem Wf.freeRetired_use (hw : Wf s place) : wp freeRetired s (fun _ t => Updates s t (view s)) (fun _ _ => False) :=
  hw.freeRetired_spec.mono (fun _ _ h => ⟨⟨place, h.1⟩, h.2.1, view_same fun a _ => h.2.2.2 a⟩) fun _ _ h => h

/-! ### Frames of the owner -/

theorem Wf.allocate_use (hw : Wf s place) : wp allocateZeroedTable s
    (fun r t => Updates s t (view s) ∧ ∀ f, r = some f → s.free f = true ∧ Foreign t f ∧ t.ram f = true ∧ ∀ i,
      t.entry f i = 0)
    (fun _ _ => False) := by
  have hleads : ∀ {t frames}, Allocated s t frames → Updates s t (view s) := fun {t frames} h =>
    (h.agrees.leads hw fun f hf => by rw [h.agrees.ram]; exact hw.free_ram f ((h.free f).1 hf).1).updates
  refine (allocateZeroedTable_spec (.nil (.refl s) rfl rfl)).mono ?_ fun _ _ h => h
  rintro (_ | f) t h
  · exact ⟨hleads h, fun _ hf => nomatch hf⟩
  · refine ⟨hleads h, ?_⟩
    intro g hg
    cases hg
    have hfree : s.free f = true := h.was_free f (by simp)
    have hnot : ∀ g, g = s.root ∨ g ∈ s.runtimeTables ∨ g ∈ s.retired → f ≠ g := fun g hg he => by
      have := hw.used g hg
      rw [← he, hfree] at this
      cases this
    refine ⟨hfree, ⟨?_, ?_, ?_, ?_, ?_⟩, h.free_ram hw (by simp), h.zero f (by simp)⟩
    · rw [h.free_eq, if_pos (by simp)]
    · rw [h.agrees.root]
      exact hnot _ (.inl rfl)
    · rw [h.agrees.tables]
      exact fun hf => hnot f (.inr (.inl hf)) rfl
    · rw [h.agrees.retired]
      exact fun hf => hnot f (.inr (.inr hf)) rfl
    · rw [h.agrees.owned]
      by_contra hk
      have := (hw.apart f (by simpa using hk)).2.2.2
      rw [hfree] at this
      cases this

structure Outside (s t : PageTableState) (frames : Nat → Prop) : Prop where
  root : t.root = s.root
  kernelRoot : t.kernelRoot = s.kernelRoot
  ram : t.ram = s.ram
  owned : t.kernelOwned = s.kernelOwned
  tables : t.runtimeTables = s.runtimeTables
  retired : t.retired = s.retired
  foreign : ∀ f, frames f → Foreign s f
  in_ram : ∀ f, frames f → s.ram f = true
  entry : ∀ f, ¬frames f → t.entry f = s.entry f
  free : ∀ f, ¬frames f → t.free f = s.free f

namespace Outside

variable {frames : Nat → Prop} (h : Outside s t frames)
include h

theorem not_table (hf : f = s.root ∨ f ∈ s.runtimeTables ∨ f ∈ s.retired) : ¬frames f := fun hn => by
  have := h.foreign f hn
  exact hf.elim this.ne_root fun hf => hf.elim this.not_table this.not_retired

theorem not_kernel (hf : s.kernelOwned f = true) : ¬frames f := fun hn => by
  have := (h.foreign f hn).not_kernel
  rw [hf] at this
  cases this

theorem slot_eq (hf : f = s.root ∨ f ∈ s.runtimeTables) (i : Nat) : slot t f i = slot s f i := by
  rw [slot, slot, h.root, h.entry f (h.not_table (by tauto))]

theorem kernelHalf {r : Nat} (hr : t.entry r = s.entry r) (hk : KernelHalf s r) : KernelHalf t r := by
  intro i hi hi' g hg
  rw [hr] at hg
  obtain ⟨hg', hbelow⟩ := hk i hi hi' g hg
  rw [h.owned, h.entry g (h.not_kernel hg')]
  exact ⟨hg', hbelow⟩

theorem wf (hw : Wf s place) : Wf t place := by
  have hentry : ∀ f, f = s.root ∨ f ∈ s.runtimeTables → t.entry f = s.entry f :=
    fun f hf => h.entry f (h.not_table (by tauto))
  refine ⟨?_, ?_, ?_, ?_, ?_, ?_, ?_, ?_, ?_, ?_, ?_, ?_⟩
  · rw [h.root, h.tables]
    exact hw.tree.congr fun f hf i => h.slot_eq hf i
  · rw [h.tables]
    exact hw.depth
  · rw [h.root, h.tables]
    intro f hf hp i hi hroot
    rw [hentry f hf]
    exact hw.interior f hf hp i hi hroot
  · rw [h.tables]
    intro f hf hp i hi
    rw [hentry f (.inr hf)]
    exact hw.leaves f hf hp i hi
  · rw [h.tables]
    exact hw.nodup
  · rw [h.root, h.tables, h.retired]
    exact hw.retired_not
  · rw [h.root, h.tables, h.retired]
    intro f hf
    rw [h.free f (h.not_table hf)]
    exact hw.used f hf
  · rw [h.root, h.tables, h.retired, h.ram]
    exact hw.in_ram
  · rw [h.ram]
    intro f hf
    by_cases hn : frames f
    · exact h.in_ram f hn
    · exact hw.free_ram f (h.free f hn ▸ hf)
  · rw [h.root, h.tables, h.retired, h.owned]
    intro g hg
    rw [h.free g (h.not_kernel hg)]
    exact hw.apart g hg
  · rw [h.root]
    exact h.kernelHalf (hentry _ (.inl rfl)) hw.kernel
  · obtain ⟨h₁, h₂, h₃⟩ := hw.kernelRoot
    rw [h.kernelRoot, h.owned, h.ram]
    exact ⟨h₁, h₂, h.kernelHalf (h.entry _ (h.not_kernel h₁)) h₃⟩

theorem view_eq (hw : Wf s place) : view t = view s := by
  refine view_same fun a _ => ?_
  have hw' := h.wf hw
  have htable : leafTable t a = leafTable s a := by
    refine Option.ext fun l => ?_
    rw [hw'.leafTable_iff, hw.leafTable_iff, h.tables]
  rw [leafRaw, leafRaw, htable]
  cases hl : leafTable s a with
  | none => rfl
  | some l =>
    have hmem := (hw.leafTable_iff.1 hl).1
    rw [Option.map_some, Option.map_some, h.entry l (h.not_table (.inr (.inl hmem)))]

theorem foreign_of_not (hf : Foreign s f) (hn : ¬frames f) : Foreign t f ∧ t.entry f = s.entry f := by
  refine ⟨⟨?_, ?_, ?_, ?_, ?_⟩, h.entry f hn⟩
  · rw [h.free f hn]
    exact hf.used
  · rw [h.root]
    exact hf.ne_root
  · rw [h.tables]
    exact hf.not_table
  · rw [h.retired]
    exact hf.not_retired
  · rw [h.owned]
    exact hf.not_kernel

end Outside

/-- Frames change that were in nobody's use at first. -/
theorem Updates.outside {r : PageTableState} {frames : Nat → Prop} (h : Updates r s v)
    (ho : Outside s t frames) (hnew : ∀ f, Foreign r f → ¬frames f) : Updates r t v := by
  obtain ⟨place, hw⟩ := h.wf
  have hk := h.kernel
  refine ⟨⟨place, ho.wf hw⟩, ?_, (ho.view_eq hw).trans h.view_eq⟩
  refine ⟨ho.root.trans hk.root, ho.kernelRoot.trans hk.kernelRoot, ho.ram.trans hk.ram, ho.owned.trans hk.owned,
    fun i hi => ?_, fun g hg => ?_, fun f hf => ?_⟩
  · rw [← hk.root, ho.entry s.root (ho.not_table (.inl rfl)), hk.root]
    exact hk.high i hi
  · have hg' : s.kernelOwned g = true := (congrFun hk.owned g).trans hg
    rw [ho.entry g (ho.not_kernel hg')]
    exact hk.entry g hg
  · obtain ⟨hf', hentry⟩ := hk.foreign f hf
    obtain ⟨hf'', hentry'⟩ := ho.foreign_of_not hf' (hnew f hf)
    exact ⟨hf'', hentry'.trans hentry⟩

/-- Giving frames of the owner back to the allocator. -/
theorem freeTables_outside {frames : List Nat} (hf : ∀ f ∈ frames, Foreign s f ∧ s.ram f = true) :
    Outside s (freeTables frames s) (· ∈ frames) := by
  rw [freeTables_eq]
  refine ⟨rfl, rfl, rfl, rfl, rfl, rfl, fun f h => (hf f h).1, fun f h => (hf f h).2, fun _ _ => rfl, fun f h => ?_⟩
  simp [h]

end RuntimePageTable

end SudoOS
