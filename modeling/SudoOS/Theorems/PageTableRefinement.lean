import SudoOS.Theorems.PageTableLife

/-! The page table as a partial map from user pages to frames and rights. -/

namespace SudoOS

open Program NodeTree PageTableEntry

/-- The options that a leaf entry can hold. -/
def MappingOptions.Mappable (o : MappingOptions) : Prop := o.validate = .ok () ∧ o.memoryType ≠ .uncached

namespace RuntimePageTable

variable {s t : PageTableState} {place : Nat → List Nat}

abbrev PageMap := VirtPage → Option (Nat × Rights)

/-- What a call does to the abstract page table, and the frame it gives back; `none` where it must not succeed. -/
def TableOp.meaning (m : PageMap) : TableOp → Option (Option Nat × PageMap)
  | .mapPage page frame options =>
    if page.start < userEnd ∧ m page = none then some (none, Function.update m page (some (frame, optionsRights options)))
    else none
  | .protectPage page options => (m page).map fun v => (none, Function.update m page (some (v.1, optionsRights options)))
  | .replacePage page frame options =>
    (m page).map fun v => (some v.1, Function.update m page (some (frame, optionsRights options)))
  | .unmapPage page => (m page).map fun v => (some v.1, Function.update m page none)
  | .reclaimEmptyTables _ => some (none, m)
  | .synchronizeKernelMappings => some (none, m)
  | .retireAllPrivateTables => some (none, fun _ => none)
  | .freeRetired => some (none, m)

def TableOp.touches (a : Nat) : TableOp → Prop
  | .mapPage page _ _ | .protectPage page _ | .replacePage page _ _ | .unmapPage page => .containingAddress a = page
  | .synchronizeKernelMappings => userEnd ≤ a
  | .retireAllPrivateTables => a < userEnd
  | .reclaimEmptyTables _ | .freeRetired => False

theorem page_eq_iff {p q : VirtPage} : p.start / 4096 = q.start / 4096 ↔ p = q := by
  constructor
  · intro h
    have hp := p.aligned
    have hq := q.aligned
    have : p.start = q.start := by omega
    cases p
    cases q
    simpa using this
  · rintro rfl
    rfl

theorem view_leadTo {v : Nat} {page : VirtPage} {x : Option (Nat × Rights)} (hpage : page.start < userEnd)
    (h : Leads s t (leadTo (leafRaw s) page.start v)) (hx : x = if v = 0 then none else some (ppn v, rights v)) :
    view t = Function.update (view s) page x := by
  funext p
  by_cases hp : p = page
  · subst hp
    rw [Function.update_self, view, h.raw_eq _ hpage, leadTo, if_pos rfl, hx]
    by_cases hv : v = 0 <;> simp [hv, hpage]
  · rw [Function.update_of_ne hp, view, view]
    by_cases hu : p.start < userEnd
    · rw [h.raw_eq _ hu, leadTo, if_neg fun h => hp (page_eq_iff.1 h)]
    · simp [hu]

theorem view_same (h : ∀ a < userEnd, leafRaw t a = leafRaw s a) : view t = view s := by
  funext p
  unfold view
  by_cases hu : p.start < userEnd
  · rw [h _ hu]
  · simp [hu]

theorem view_eq_some {page : VirtPage} (hpage : page.start < userEnd) (hne : leafRaw s page.start ≠ 0) :
    view s page = some (ppn (leafRaw s page.start), rights (leafRaw s page.start)) := if_pos ⟨hpage, hne⟩

/-- The translation of an address follows the word its page leads to. -/
theorem Wf.translate_congr {place' : Nat → List Nat} (hw : Wf s place) (hw' : Wf t place') {a : Nat} (ha : a < userEnd)
    (h : leafRaw t a = leafRaw s a) : translate t a = translate s a := by
  rw [hw'.translate_eq ha, hw.translate_eq ha, h]

theorem Leads.translate_of_ne (hw : Wf s place) {page : VirtPage} {v a : Nat}
    (h : Leads s t (leadTo (leafRaw s) page.start v))
    (hlt : a < usizeLimit) (hne : .containingAddress a ≠ page) : translate t a = translate s a := by
  obtain ⟨place', hw'⟩ := h.wf
  by_cases ha : a < userEnd
  · refine hw.translate_congr hw' ha ?_
    rw [h.raw_eq a ha, leadTo, if_neg fun heq => hne (page_eq_iff.1 ((containingAddress_page a).trans heq))]
  · exact h.kernel.translate_eq hw (Nat.not_lt.1 ha) hlt

theorem Leads.translate_same (hw : Wf s place) (h : Leads s t (leafRaw s)) {a : Nat} (hlt : a < usizeLimit) :
    translate t a = translate s a := by
  obtain ⟨place', hw'⟩ := h.wf
  by_cases ha : a < userEnd
  · exact hw.translate_congr hw' ha (h.raw_eq a ha)
  · exact h.kernel.translate_eq hw (Nat.not_lt.1 ha) hlt

theorem leaf_view {f v : Nat} {o : MappingOptions} (h : leaf f o = .ok v) :
    some (f, optionsRights o) = if v = 0 then none else some (ppn v, rights v) := by
  obtain ⟨-, -, hf, hr⟩ := leaf_eq_ok h
  unfold frame at hf
  split_ifs at hf with hv
  rw [if_neg (leaf_ne_zero h), hr, Option.some.inj hf]

theorem Wf.exec_refines (hw : Wf s place) (op : TableOp) : wp op.exec s
    (fun r t => op.meaning (view s) = some (r, view t) ∧
      ∀ a < usizeLimit, ¬op.touches a → translate t a = translate s a)
    (fun _ t => view t = view s ∧ ∀ a < usizeLimit, translate t a = translate s a) := by
  have hrefl : view s = view s ∧ ∀ a < usizeLimit, translate s a = translate s a := ⟨rfl, fun _ _ => rfl⟩
  cases op with
  | mapPage page f o =>
    refine wp_map.2 (hw.mapPage_spec.mono ?_ ?_)
    · rintro _ t ⟨hpage, hraw, v, hv, h⟩
      have hnone : view s page = none := if_neg fun hn => hn.2 hraw
      refine ⟨?_, fun a ha hne => h.translate_of_ne hw ha hne⟩
      rw [TableOp.meaning, if_pos ⟨hpage, hnone⟩, view_leadTo hpage h (leaf_view hv)]
    · exact fun _ t h => ⟨view_same h.raw_eq, fun a ha => h.translate_same hw ha⟩
  | protectPage page o =>
    refine wp_map.2 (hw.protectPage_spec.mono ?_ fun _ _ h => h.1 ▸ hrefl)
    rintro _ t ⟨hpage, hraw, v, hv, h⟩
    refine ⟨?_, fun a ha hne => h.translate_of_ne hw ha hne⟩
    rw [TableOp.meaning, view_eq_some hpage hraw, view_leadTo hpage h (leaf_view hv)]
    rfl
  | replacePage page f o =>
    refine wp_map.2 (hw.replacePage_spec.mono ?_ fun _ _ h => h.1 ▸ hrefl)
    rintro old t ⟨hpage, hraw, rfl, v, hv, h⟩
    refine ⟨?_, fun a ha hne => h.translate_of_ne hw ha hne⟩
    rw [TableOp.meaning, view_eq_some hpage hraw, view_leadTo hpage h (leaf_view hv)]
    rfl
  | unmapPage page =>
    refine wp_map.2 (hw.unmapPage_spec.mono ?_ fun _ _ h => h.1 ▸ hrefl)
    rintro old t ⟨hpage, hraw, rfl, h⟩
    refine ⟨?_, fun a ha hne => h.translate_of_ne hw ha hne⟩
    rw [TableOp.meaning, view_eq_some hpage hraw, view_leadTo (v := 0) hpage h rfl]
    rfl
  | reclaimEmptyTables page =>
    refine wp_map.2 (hw.reclaimEmptyTables_spec.mono ?_ fun _ _ h => h.1 ▸ hrefl)
    intro _ t h
    exact ⟨by rw [TableOp.meaning, view_same h.leads.raw_eq], fun a ha _ => h.leads.translate_same hw ha⟩
  | synchronizeKernelMappings =>
    refine wp_map.2 (hw.synchronizeKernelMappings_spec.mono ?_ fun _ _ h => h.elim)
    intro _ t h
    obtain ⟨place', hw'⟩ := h.wf
    refine ⟨by rw [TableOp.meaning, view_same fun a _ => h.raw_eq a], fun a _ hlow => ?_⟩
    exact hw.translate_congr hw' (Nat.not_le.1 hlow) (h.raw_eq a)
  | retireAllPrivateTables =>
    refine wp_map.2 (hw.retireAll_spec.mono ?_ fun _ _ h => h.elim)
    rintro _ t ⟨-, hk, hraw⟩
    refine ⟨?_, fun a ha hhigh => hk.translate_eq hw (Nat.not_lt.1 hhigh) ha⟩
    have : view t = fun _ => none := funext fun p => if_neg fun h => h.2 (hraw _ h.1)
    rw [TableOp.meaning, this]
  | freeRetired =>
    refine wp_map.2 (hw.freeRetired_spec.mono ?_ fun _ _ h => h.elim)
    rintro _ t ⟨hw', hk, -, hraw⟩
    have h : Leads s t (leafRaw s) := ⟨⟨place, hw'⟩, hk, fun a _ => hraw a⟩
    exact ⟨by rw [TableOp.meaning, view_same h.raw_eq], fun a ha _ => h.translate_same hw ha⟩

/-! ### Calls that succeed -/

theorem encodeFrame_ok_iff {f : Nat} : (∃ raw, encodeFrame f = .ok raw) ↔ f < 2 ^ 44 := by
  refine ⟨fun ⟨_, h⟩ => (encodeFrame_eq_ok h).1, fun h => ?_⟩
  have hlim : ¬(f * pageSize ≥ physicalAddressLimit) := by
    simp only [pageSize, physicalAddressLimit, pageShift, ppnBits]
    omega
  simp only [encodeFrame]
  rw [if_neg hlim]
  exact ⟨_, rfl⟩

theorem leaf_ok_iff {f : Nat} {o : MappingOptions} : (∃ raw, leaf f o = .ok raw) ↔ o.Mappable ∧ f < 2 ^ 44 := by
  rw [← encodeFrame_ok_iff, leaf, MappingOptions.Mappable]
  cases o.validate with
  | error e => simp
  | ok _ =>
    by_cases hu : o.memoryType = .uncached
    · simp [hu]
    · cases encodeFrame f <;> simp [hu, bind, Except.bind, pure, Except.pure]

theorem view_eq_none {page : VirtPage} (hpage : page.start < userEnd) : view s page = none ↔ leafRaw s page.start = 0 := by
  rw [view]
  by_cases h : leafRaw s page.start = 0 <;> simp [h, hpage]

/-- The allocator answers with two free frames that a table entry can name. -/
def FramesGranted (s : PageTableState) : Prop :=
  ∃ f g rest, s.choices = some f :: some g :: rest ∧ f ≠ g ∧ s.free f = true ∧ s.free g = true ∧ f < 2 ^ 44 ∧ g < 2 ^ 44

/-- Memory for the tables of a new page. -/
structure TablesGranted (s : PageTableState) : Prop where
  reserve : s.reserves.head? = some true
  frames : FramesGranted s

/-- What a call needs besides a page in the state that it expects. -/
def TableOp.Granted (s : PageTableState) : TableOp → Prop
  | .mapPage _ frame options => options.Mappable ∧ frame < 2 ^ 44 ∧ TablesGranted s
  | .replacePage _ frame options => options.Mappable ∧ frame < 2 ^ 44
  | .protectPage _ options => options.Mappable
  | .reclaimEmptyTables page => page.start < userEnd
  | _ => True

theorem tableEntry_succeeds {f : Nat} (hf : f < 2 ^ 44) : wp (tableEntry f) s (fun _ t => t = s) (fun _ _ => False) := by
  obtain ⟨raw, hraw⟩ := encodeFrame_ok_iff.2 hf
  have htable : table f = .ok (raw ||| 2 ^ validBit) := by
    rw [table, hraw]
    rfl
  rw [tableEntry, htable]
  exact wp_pure.2 rfl

theorem linkTables_succeeds {frames : List Nat} {page leaf level : Nat}
    (h : ∀ f ∈ frames, s.ram f = true ∧ f < 2 ^ 44) :
    wp (linkTables page leaf frames level) s (fun _ t => t.ram = s.ram) (fun _ _ => False) := by
  induction frames generalizing level with
  | nil => exact wp_pure.2 rfl
  | cons f frames ih =>
    rw [List.forall_mem_cons] at h
    cases frames with
    | nil => exact writeEntry_spec h.1.1 (pageIndex_lt _ _) rfl
    | cons g rest =>
      rw [linkTables, wp_bind]
      refine (ih h.2).mono ?_ fun _ _ hf => hf
      intro _ t ht
      rw [wp_bind]
      refine (tableEntry_succeeds (h.2 g List.mem_cons_self).2).mono ?_ fun _ _ hf => hf
      rintro raw _ rfl
      exact writeEntry_spec (ht ▸ h.1.1) (pageIndex_lt _ _) ht

theorem linkChain_succeeds {parent f page leaf level : Nat} {frames : List Nat}
    (hparent : s.ram parent = true) (h : ∀ g ∈ f :: frames, s.ram g = true ∧ g < 2 ^ 44) :
    wp (linkChain parent level page leaf (f :: frames)) s (fun _ _ => True) (fun _ _ => False) := by
  rw [linkChain, wp_bind]
  refine (linkTables_succeeds h).mono ?_ fun _ _ hf => hf
  intro _ t ht
  simp only [wp_bind]
  refine (tableEntry_succeeds (h f List.mem_cons_self).2).mono ?_ fun _ _ hf => hf
  rintro raw _ rfl
  exact writeEntry_spec (ht ▸ hparent) (pageIndex_lt _ _) trivial

theorem allocateZeroedTable_granted {f : Nat} {rest : List (Option Nat)} (hchoices : s.choices = some f :: rest)
    (hfree : s.free f = true) : wp allocateZeroedTable s
      (fun r t => r = some f ∧ t.choices = rest ∧ t.ram = s.ram ∧ ∀ g, g ≠ f → t.free g = s.free g) (fun _ _ => False) := by
  unfold allocateZeroedTable
  simp only [wp_bind, wp_get, wp_set, hchoices, List.head?_cons, List.tail_cons, hfree, if_true, wp_modify, wp_pure]
  exact ⟨trivial, rfl, rfl, fun g hg => if_neg hg⟩

theorem FramesGranted.allocateTables (h : FramesGranted s) {n : Nat} (hn : n = 1 ∨ n = 2)
    (hram : ∀ f, s.free f = true → s.ram f = true) :
    wp (allocateTables n []) s
      (fun r t => r.2 = true ∧ r.1 ≠ [] ∧ t.ram = s.ram ∧ ∀ f ∈ r.1, s.ram f = true ∧ f < 2 ^ 44) (fun _ _ => False) := by
  obtain ⟨f, g, rest, hchoices, hne, hf, hg, hlf, hlg⟩ := h
  rcases hn with rfl | rfl
  · rw [RuntimePageTable.allocateTables, wp_bind]
    refine (allocateZeroedTable_granted hchoices hf).mono ?_ fun _ _ h => h
    rintro _ t ⟨rfl, -, ht, -⟩
    exact wp_pure.2 ⟨rfl, by simp, ht, by simpa using ⟨hram f hf, hlf⟩⟩
  · rw [RuntimePageTable.allocateTables, wp_bind]
    refine (allocateZeroedTable_granted hchoices hf).mono ?_ fun _ _ h => h
    rintro _ t ⟨rfl, hrest, ht, hfree⟩
    simp only [RuntimePageTable.allocateTables, wp_bind]
    refine (allocateZeroedTable_granted hrest ((hfree g hne.symm).trans hg)).mono ?_ fun _ _ h => h
    rintro _ u ⟨rfl, -, hu, -⟩
    exact wp_pure.2 ⟨rfl, by simp, hu.trans ht, by simpa using ⟨⟨hram f hf, hlf⟩, hram g hg, hlg⟩⟩

theorem Wf.installMissingChain_succeeds (hw : Wf s place) (h : TablesGranted s) {parent level page leaf : Nat}
    (hlevel : level = 0 ∨ level = 1) (hparent : s.ram parent = true) :
    wp (installMissingChain parent level page leaf) s (fun _ _ => True) (fun _ _ => False) := by
  have hcount : levels - 1 - level = 1 ∨ levels - 1 - level = 2 := by
    rcases hlevel with rfl | rfl
    · exact .inr rfl
    · exact .inl rfl
  unfold installMissingChain reserveTables
  simp only [wp_bind, wp_get, wp_set, h.reserve, wp_pure]
  have hframes : FramesGranted { s with reserves := s.reserves.tail } := h.frames
  refine (hframes.allocateTables hcount hw.free_ram).mono ?_ fun _ _ hf => hf
  rintro ⟨_ | ⟨f, frames⟩, complete⟩ t ⟨rfl, hne, hram, hall⟩
  · exact absurd rfl hne
  · rw [wp_onError, if_pos rfl]
    refine (linkChain_succeeds (hram ▸ hparent) fun g hg => hram ▸ hall g hg).mono ?_ fun _ _ hf => hf.elim
    exact fun _ _ _ => wp_modify.2 trivial

theorem Wf.mapPage_succeeds (hw : Wf s place) {page : VirtPage} {f : Nat} {o : MappingOptions}
    (hpage : page.start < userEnd)
    (hraw : leafRaw s page.start = 0) (hleaf : ∃ raw, leaf f o = .ok raw) (h : TablesGranted s) :
    wp (mapPage page f o) s (fun _ _ => True) (fun _ _ => False) := by
  obtain ⟨v, hv⟩ := hleaf
  have hcanon : isCanonical page.start := .inl hpage
  unfold mapPage
  rw [wp_bind]
  refine ensureMutablePage_spec.mono ?_ fun _ _ h => Nat.not_lt.2 h.2 hpage
  rintro _ s ⟨rfl, -⟩
  rw [if_neg (not_not.2 hcanon), wp_bind]
  refine leafEntryFor_spec.mono ?_ fun _ _ h => h.2.2 v hv
  rintro v s ⟨rfl, -⟩
  rw [wp_bind, wp_get]
  change wp (mapLoop page.start v 2 0 s.root) s _ _
  rw [mapLoop, wp_bind]
  refine hw.readEntryM_spec (.inl rfl) ?_
  rcases hw.descent hpage with ⟨hz, -⟩ | ⟨m, hm, hmem, -, hz, -⟩ | ⟨m, l, hm, hmem, -, hl, hmem', hpl⟩
  · rw [if_pos hz]
    exact hw.installMissingChain_succeeds h (.inl rfl) (hw.ram _ (.inl rfl))
  · rw [if_neg (table_ne_zero hm), descend_table hm, wp_bind, wp_ofExcept_ok, mapLoop, wp_bind]
    refine hw.readEntryM_spec (.inr hmem) ?_
    rw [if_pos hz]
    exact hw.installMissingChain_succeeds h (.inr rfl) (hw.ram m (.inr hmem))
  · rw [if_neg (table_ne_zero hm), descend_table hm, wp_bind, wp_ofExcept_ok, mapLoop, wp_bind]
    refine hw.readEntryM_spec (.inr hmem) ?_
    rw [if_neg (table_ne_zero hl), descend_table hl, wp_bind, wp_ofExcept_ok, mapLoop, wp_bind]
    refine hw.readEntryM_spec (.inr hmem') ?_
    rw [if_neg (not_not.2 ((hw.leafRaw_atLeaf hmem' hpl).symm.trans hraw))]
    exact writeEntry_spec (hw.ram l (.inr hmem')) (pageIndex_lt _ _) trivial

theorem view_some {page : VirtPage} (h : view s page ≠ none) : page.start < userEnd ∧ leafRaw s page.start ≠ 0 :=
  of_not_not fun hn => h (if_neg hn)

theorem Wf.exec_succeeds (hw : Wf s place) {op : TableOp} (hop : op.meaning (view s) ≠ none) (hgranted : op.Granted s) :
    wp op.exec s (fun _ _ => True) (fun _ _ => False) := by
  have hmapped : ∀ {page : VirtPage} {g : Nat × Rights → Option Nat × PageMap},
      ((view s page).map g) ≠ none → page.start < userEnd ∧ leafRaw s page.start ≠ 0 :=
    fun h => view_some fun hn => h (by rw [hn, Option.map_none])
  cases op with
  | mapPage page f o =>
    obtain ⟨ho, hf, hmemory⟩ := hgranted
    rw [TableOp.meaning] at hop
    have hfree : page.start < userEnd ∧ view s page = none := of_not_not fun hn => hop (if_neg hn)
    exact wp_map.2 (hw.mapPage_succeeds hfree.1 ((view_eq_none hfree.1).1 hfree.2) (leaf_ok_iff.2 ⟨ho, hf⟩) hmemory)
  | protectPage page o =>
    obtain ⟨hpage, hraw⟩ := hmapped hop
    refine wp_map.2 (hw.protectPage_spec.mono (fun _ _ _ => trivial) fun _ _ h => ?_)
    obtain ⟨raw, hleaf⟩ := leaf_ok_iff.2 ⟨hgranted, ppn_lt (leafRaw s page.start)⟩
    exact (h.2 hpage).elim (fun h => hraw h.2) fun h => h.2.2 raw hleaf
  | replacePage page f o =>
    obtain ⟨hpage, hraw⟩ := hmapped hop
    refine wp_map.2 (hw.replacePage_spec.mono (fun _ _ _ => trivial) fun _ _ h => ?_)
    obtain ⟨raw, hleaf⟩ := leaf_ok_iff.2 hgranted
    exact (h.2 hpage).elim hraw fun h => h raw hleaf
  | unmapPage page =>
    obtain ⟨hpage, hraw⟩ := hmapped hop
    exact wp_map.2 (hw.unmapPage_spec.mono (fun _ _ _ => trivial) fun _ _ h => hraw (h.2 hpage).2)
  | reclaimEmptyTables page =>
    exact wp_map.2 (hw.reclaimEmptyTables_spec.mono (fun _ _ _ => trivial) fun _ _ h => Nat.not_lt.2 h.2 hgranted)
  | synchronizeKernelMappings =>
    exact wp_map.2 (hw.synchronizeKernelMappings_spec.mono (fun _ _ _ => trivial) fun _ _ h => h)
  | retireAllPrivateTables => exact wp_map.2 (hw.retireAll_spec.mono (fun _ _ _ => trivial) fun _ _ h => h)
  | freeRetired => exact wp_map.2 (hw.freeRetired_spec.mono (fun _ _ _ => trivial) fun _ _ h => h)

/-- The tables recorded as owned are the tables that the slots of the root lead to. -/
def OwnsReachable (s : PageTableState) : Prop :=
  s.runtimeTables.Nodup ∧ ∀ f, f ∈ s.runtimeTables ↔ ∃ p, p ≠ [] ∧ walk (slot s) s.root p = some f

theorem Wf.ownsReachable (hw : Wf s place) : OwnsReachable s := by
  refine ⟨hw.nodup, fun f => ?_⟩
  constructor
  · exact fun hf => ⟨place f, hw.tree.place_ne_nil hf, hw.tree.walk_iff.2 ⟨.inr hf, rfl⟩⟩
  · rintro ⟨p, hp, hwalk⟩
    obtain ⟨hf | hf, hplace⟩ := hw.tree.walk_iff.1 hwalk
    · exact absurd (hplace.symm.trans (hf ▸ hw.tree.place_root)) hp
    · exact hf

theorem view_finite (s : PageTableState) : {page | view s page ≠ none}.Finite := by
  refine Set.Finite.of_finite_image ((Set.finite_lt_nat userEnd).subset ?_) (f := VirtPage.start) fun p _ q _ h => ?_
  · rintro _ ⟨page, hpage, rfl⟩
    by_contra hn
    exact hpage (if_neg fun h => hn h.1)
  · exact page_eq_iff.1 (congrArg (· / 4096) h)

theorem Reclaimed.retires (h : Reclaimed s t) {f : Nat} (hf : f ∈ t.retired) (hnew : f ∉ s.retired) :
    f ∈ s.runtimeTables ∧ (∀ k < 512, t.entry f k = 0) ∧ ∀ p, walk (slot t) t.root p ≠ some f := by
  obtain ⟨place, hw⟩ := h.leads.wf
  refine ⟨(h.tables f).2 (.inr ⟨hf, hnew⟩), (h.empty f hf).resolve_left hnew, fun p hp => ?_⟩
  have := hw.retired_not f hf
  have := (hw.tree.walk_iff.1 hp).1
  tauto

/-- In every history the page table is a finite partial map from user pages to frames and rights: the tables it records as
owned are those it reaches, each call that succeeds does what it means and touches no other address, each call that fails
changes nothing, a call that means something succeeds if its entry can be written and memory is there, and reclaiming
retires only empty tables that are out of reach. -/
theorem history_refines_pageMap (h : system.Reachable s) (choices : List (Option Nat)) (reserves : List Bool)
    (op : TableOp) : OwnsReachable s ∧ {page | view s page ≠ none}.Finite ∧
    (∀ a < userEnd, translate s a = .ok ((view s (.containingAddress a)).map fun v => v.1 * 4096 + a % 4096)) ∧
    (∀ r t, op.exec { s with choices := choices, reserves := reserves } = .ok r t →
      op.meaning (view s) = some (r, view t) ∧ ∀ a < usizeLimit, ¬op.touches a → translate t a = translate s a) ∧
    (∀ e t, op.exec { s with choices := choices, reserves := reserves } = .error e t →
      view t = view s ∧ ∀ a < usizeLimit, translate t a = translate s a) ∧
    (∀ page r t, op = .reclaimEmptyTables page → op.exec { s with choices := choices, reserves := reserves } = .ok r t →
      ∀ f ∈ t.retired, f ∉ s.retired →
        f ∈ s.runtimeTables ∧ (∀ k < 512, t.entry f k = 0) ∧ ∀ p, walk (slot t) t.root p ≠ some f) ∧
    (op.meaning (view s) ≠ none → op.Granted { s with choices := choices, reserves := reserves } →
      ∃ r t, op.exec { s with choices := choices, reserves := reserves } = .ok r t) := by
  obtain ⟨place, hw⟩ := reachable_wf h
  have hcall := (hw.answers choices reserves).exec_refines op
  refine ⟨hw.ownsReachable, view_finite s, fun a ha => hw.translate_view ha, fun r t hok => hcall.ok hok,
    fun e t herr => hcall.error herr, ?_, fun hop hgranted => ?_⟩
  · rintro page r t rfl hok f hf hnew
    have hreclaim : wp (TableOp.reclaimEmptyTables page).exec { s with choices := choices, reserves := reserves }
        (fun _ t => Reclaimed { s with choices := choices, reserves := reserves } t) (fun _ _ => True) :=
      wp_map.2 ((hw.answers choices reserves).reclaimEmptyTables_spec.mono (fun _ _ h => h) fun _ _ _ => trivial)
    exact (hreclaim.ok hok).retires hf hnew
  · have hsucceeds := (hw.answers choices reserves).exec_succeeds hop hgranted
    cases hexec : op.exec { s with choices := choices, reserves := reserves } with
    | ok r t => exact ⟨r, t, rfl⟩
    | error e t => exact (hsucceeds.error hexec).elim

def bareKernel : PageTableState where
  entry _ _ := 0
  ram _ := true
  free f := f ≠ 0
  choices := [some 1]
  reserves := []
  kernelRoot := 0
  kernelOwned f := f = 0
  root := 0
  runtimeTables := []
  retired := []

theorem bareKernel_ready : KernelReady bareKernel := by
  refine ⟨fun _ _ => rfl, fun g hg => ?_, rfl, rfl, fun i _ _ g hg => ?_⟩
  · simpa [bareKernel] using hg
  · cases tableTarget_zero.symm.trans hg

def freshTable : PageTableState :=
  match newUser bareKernel with
  | .ok _ t => t
  | .error _ t => t

theorem freshTable_reachable : system.Reachable freshTable := by
  refine .init ⟨bareKernel, bareKernel_ready, ?_⟩
  have hok : (newUser bareKernel matches .ok _ _) = true := by decide +kernel
  unfold freshTable
  cases h : newUser bareKernel with
  | ok _ t => rfl
  | error e t =>
    rw [h] at hok
    cases hok

/-- Takes the step of a call that succeeds. -/
def callStep (s : PageTableState) : TableLabel → Option PageTableState
  | .call choices reserves op =>
    match op.exec { s with choices := choices, reserves := reserves } with
    | .ok _ t => some t
    | .error _ _ => none
  | .kernel => none

theorem callStep_step {label : TableLabel} (h : callStep s label = some t) : system.step s label t := by
  cases label with
  | kernel => cases h
  | call choices reserves op =>
    rw [callStep] at h
    split at h
    · next r u hok =>
      cases h
      exact .inl ⟨r, hok⟩
    · cases h

def firstPage : VirtPage := ⟨0x1000, rfl⟩

def secondPage : VirtPage := ⟨0x2000, rfl⟩

def dataOptions : MappingOptions := ⟨.readWrite, .normal, true, false⟩

/-- Two pages that share their tables: only the first of them needs memory. -/
def sharedTable : PageTableState :=
  (TransitionSystem.play callStep freshTable
    [.call [some 2, some 3] [true] (.mapPage firstPage 7 dataOptions),
      .call [] [] (.mapPage secondPage 8 dataOptions)]).getD freshTable

/-- Both pages are unmapped again, and the first of the reclaims finds a table that is in use. -/
def emptiedTable : PageTableState :=
  (TransitionSystem.play callStep sharedTable [.call [] [] (.unmapPage secondPage),
    .call [] [] (.reclaimEmptyTables secondPage),
    .call [] [] (.unmapPage firstPage)]).getD sharedTable

theorem play_reachable {script : List TableLabel} (h : system.Reachable s) :
    system.Reachable ((TransitionSystem.play callStep s script).getD s) := by
  cases hplay : TransitionSystem.play callStep s script with
  | none => exact h
  | some t => exact h.later (TransitionSystem.play_later callStep_step hplay)

/-- Of two pages in one table the first is unmapped, and the second stays; once both are gone, a reclaim retires the two
tables. -/
theorem history_refines_pageMap_shared :
    (system.Reachable sharedTable ∧ ∃ t,
      (TableOp.unmapPage firstPage).exec { sharedTable with choices := [], reserves := [] } = .ok (some 7) t ∧
      view t firstPage = none ∧ view t secondPage = some (8, optionsRights dataOptions)) ∧
    (system.Reachable emptiedTable ∧ ∃ t,
      (TableOp.reclaimEmptyTables firstPage).exec { emptiedTable with choices := [], reserves := [] } = .ok none t ∧
      t.retired = [3, 2] ∧ view t = view emptiedTable ∧
      ∀ f ∈ t.retired, f ∈ emptiedTable.runtimeTables ∧ (∀ k < 512, t.entry f k = 0) ∧ ∀ p,
      walk (slot t) t.root p ≠ some f) := by
  have hshared : system.Reachable sharedTable := play_reachable freshTable_reachable
  have hemptied : system.Reachable emptiedTable := play_reachable hshared
  refine ⟨⟨hshared, ?_⟩, hemptied, ?_⟩
  · obtain ⟨-, -, -, hok, -, -, hsucceeds⟩ := history_refines_pageMap hshared [] [] (.unmapPage firstPage)
    have hfirst : view sharedTable firstPage = some (7, optionsRights dataOptions) := by decide +kernel
    have hsecond : view sharedTable secondPage = some (8, optionsRights dataOptions) := by decide +kernel
    have hmeans : (TableOp.unmapPage firstPage).meaning (view sharedTable) =
        some (some 7, Function.update (view sharedTable) firstPage none) := by rw [TableOp.meaning, hfirst, Option.map_some]
    obtain ⟨r, t, hexec⟩ := hsucceeds (by rw [hmeans]; exact Option.some_ne_none _) trivial
    obtain ⟨rfl, hview⟩ := Prod.mk.inj (Option.some.inj (hmeans.symm.trans (hok r t hexec).1))
    refine ⟨t, hexec, ?_, ?_⟩
    · rw [← hview, Function.update_self]
    · rw [← hview, Function.update_of_ne (by decide), hsecond]
  · obtain ⟨-, -, -, hok, -, hretires, hsucceeds⟩ := history_refines_pageMap hemptied [] [] (.reclaimEmptyTables firstPage)
    obtain ⟨r, t, hexec⟩ := hsucceeds (Option.some_ne_none _) (show firstPage.start < userEnd by decide)
    obtain ⟨rfl, hview⟩ := Prod.mk.inj (Option.some.inj (hok r t hexec).1)
    have hrun : endsWith (fun _ t => decide (t.retired = [3, 2]))
        ((TableOp.reclaimEmptyTables firstPage).exec { emptiedTable with choices := [], reserves := [] }) = true := by
          decide +kernel
    rw [hexec] at hrun
    have hnone : emptiedTable.retired = [] := by decide +kernel
    refine ⟨t, hexec, of_decide_eq_true hrun, hview.symm, fun f hf => hretires firstPage _ t rfl hexec f hf ?_⟩
    rw [hnone]
    exact List.not_mem_nil

end RuntimePageTable

end SudoOS
