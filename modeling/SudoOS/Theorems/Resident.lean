import SudoOS.Kernel.UserMm
import SudoOS.Theorems.Layout
import SudoOS.Theorems.PageTableUse

/-! The resident pages of an address space against its page table. -/

namespace SudoOS

open Program RuntimePageTable
open PageTableEntry (Rights optionsRights)

/-! ### Flags and rights -/

namespace VmAreaFlags

/-- What the pages of an area with these flags are mapped with. -/
def options (f : VmAreaFlags) : MappingOptions := VmArea.mappingOptions ⟨userRange, f, .anonymous⟩

def NoAccess (f : VmAreaFlags) : Prop := f.accessOnly = .empty

instance (f : VmAreaFlags) : Decidable f.NoAccess := inferInstanceAs (Decidable (_ = _))

theorem noAccess_iff {f : VmAreaFlags} : f.NoAccess ↔ f.read = false ∧ f.write = false ∧ f.execute = false := by
  simp [NoAccess, accessOnly, empty]

theorem NoAccess.not_mappable {f : VmAreaFlags} (h : f.NoAccess) : ¬f.options.Mappable := by
  obtain ⟨hr, -, -⟩ := noAccess_iff.1 h
  rintro ⟨hvalid, -⟩
  simp [MappingOptions.validate, options, VmArea.mappingOptions, hr, PagePermissions.isEmpty] at hvalid

structure Ordinary (f : VmAreaFlags) : Prop where
  user : f.user = true
  not_device : f.device = false
  read : ¬f.NoAccess → f.read = true

theorem Ordinary.mappable {f : VmAreaFlags} (h : f.Ordinary) (hf : ¬f.NoAccess) : f.options.Mappable := by
  have hr := h.read hf
  have hu := h.user
  have hd := h.not_device
  refine ⟨?_, by simp [options, VmArea.mappingOptions, hd]⟩
  cases hw : f.write <;> cases hx : f.execute <;>
    simp [MappingOptions.validate, options, VmArea.mappingOptions, hr, hu, hd, hw, hx, PagePermissions.isEmpty,
      PagePermissions.empty, PagePermissions.readOnly, PagePermissions.readWrite, PagePermissions.readExecute,
      PagePermissions.readWriteExecute]

end VmAreaFlags

theorem VmArea.mappingOptions_eq (a : VmArea) : a.mappingOptions = a.flags.options := rfl

/-! ### Records and leaves -/

/-- The frames of the records are in use by nobody else, and every leaf leads to a frame on record for its page. -/
structure Backed (table : PageTableState) (pages : List MappedPage) : Prop where
  wf : ∃ place, Wf table place
  backings : (pages.map MappedPage.backing).Nodup
  frames : ∀ m ∈ pages, Foreign table m.backing ∧ table.ram m.backing = true
  user : ∀ m ∈ pages, m.page.start < userEnd
  leaf : ∀ page f r, view table page = some (f, r) → ⟨page, f⟩ ∈ pages

namespace Backed

variable {s t : PageTableState} {pages pages' : List MappedPage} {v : PageMap} {m : MappedPage}

theorem translate (h : Backed s pages) {address : Nat} (ha : address < userEnd) :
    RuntimePageTable.translate s address =
      .ok ((view s (.containingAddress address)).map fun x => x.1 * 4096 + address % 4096) := by
  obtain ⟨place, hw⟩ := h.wf
  exact hw.translate_view ha

theorem translate_page (h : Backed s pages) {page : VirtPage} (hpage : page.start < userEnd) :
    RuntimePageTable.translate s page.start = .ok ((view s page).map fun x => x.1 * pageSize) := by
  obtain ⟨place, hw⟩ := h.wf
  exact hw.translate_page hpage

/-- The table changes; the frames on record are left alone. -/
theorem updates (h : Backed s pages) (hu : Updates s t v) (hleaf : ∀ page f r, v page = some (f, r) → ⟨page, f⟩ ∈ pages) :
    Backed t pages where
  wf := hu.wf
  backings := h.backings
  frames m hm := by
    obtain ⟨hforeign, hram⟩ := h.frames m hm
    exact ⟨(hu.kernel.foreign _ hforeign).1, hu.kernel.ram ▸ hram⟩
  user := h.user
  leaf page f r hview := hleaf page f r (hu.view_eq ▸ hview)

theorem same (h : Backed s pages) (hu : Updates s t (view s)) : Backed t pages := h.updates hu h.leaf

/-- The leaf of a record's page is removed or led to the record's frame. -/
theorem setLeaf (h : Backed s pages) {x : Option (Nat × Rights)} {page : VirtPage}
    (hu : Updates s t (Function.update (view s) page x)) (hx : ∀ f r, x = some (f, r) → ⟨page, f⟩ ∈ pages) :
      Backed t pages := by
  refine h.updates hu fun q f r hq => ?_
  by_cases hpage : q = page
  · subst hpage
    rw [Function.update_self] at hq
    exact hx f r hq
  · rw [Function.update_of_ne hpage] at hq
    exact h.leaf q f r hq

/-- Another owner's frames change hands. -/
theorem outside {frames : Nat → Prop} (h : Backed s pages) (ho : Outside s t frames)
    (hframes : ∀ m ∈ pages, ¬frames m.backing) : Backed t pages where
  wf := h.wf.imp fun _ hw => ho.wf hw
  backings := h.backings
  frames m hm := by
    obtain ⟨hforeign, hram⟩ := h.frames m hm
    exact ⟨(ho.foreign_of_not hforeign (hframes m hm)).1, ho.ram ▸ hram⟩
  user := h.user
  leaf page f r hview := by
    obtain ⟨place, hw⟩ := h.wf
    exact h.leaf page f r (ho.view_eq hw ▸ hview)

theorem perm (h : Backed s pages) (hp : pages.Perm pages') : Backed s pages' where
  wf := h.wf
  backings := (hp.map _).nodup_iff.1 h.backings
  frames m hm := h.frames m (hp.mem_iff.2 hm)
  user m hm := h.user m (hp.mem_iff.2 hm)
  leaf page f r hview := hp.mem_iff.1 (h.leaf page f r hview)

theorem adopt (h : Backed s pages) {page : VirtPage} {frame : Nat} (hforeign : Foreign s frame) (hram : s.ram frame = true)
    (hnew : ∀ m ∈ pages, m.backing ≠ frame) (hpage : page.start < userEnd) : Backed s (pages ++ [⟨page, frame⟩]) where
  wf := h.wf
  backings := by
    rw [List.map_append, List.nodup_append]
    refine ⟨h.backings, List.nodup_singleton _, ?_⟩
    rintro a ha b hb rfl
    obtain ⟨m, hm, hma⟩ := List.mem_map.1 ha
    exact hnew m hm (hma.trans (List.mem_singleton.1 hb))
  frames m hm := by
    rcases List.mem_append.1 hm with hm | hm
    · exact h.frames m hm
    · rw [List.mem_singleton.1 hm]
      exact ⟨hforeign, hram⟩
  user m hm := by
    rcases List.mem_append.1 hm with hm | hm
    · exact h.user m hm
    · rw [List.mem_singleton.1 hm]
      exact hpage
  leaf q f r hq := List.mem_append_left _ (h.leaf q f r hq)

theorem install (h : Backed s pages) {page : VirtPage} {frame : Nat} {r : Rights} (hforeign : Foreign s frame)
    (hram : s.ram frame = true) (hnew : ∀ m ∈ pages, m.backing ≠ frame) (hpage : page.start < userEnd)
    (hu : Updates s t (Function.update (view s) page (some (frame, r)))) : Backed t (pages ++ [⟨page, frame⟩]) :=
  (h.adopt hforeign hram hnew hpage).setLeaf hu fun f r hx => by
    cases hx
    exact List.mem_append_right _ (List.mem_singleton_self _)

end Backed

namespace UserMm

variable {s t u : UserMmState} {area : VmArea} {address frame : Nat} {page : VirtPage} {options : MappingOptions}

structure Untouched (s t : UserMmState) : Prop where
  layout : t.core.layout = s.core.layout
  pages : t.pages = s.pages
  table : Updates s.table t.table (view s.table)

theorem Untouched.trans (h : Untouched s t) (h' : Untouched t u) : Untouched s u where
  layout := h'.layout.trans h.layout
  pages := h'.pages.trans h.pages
  table := h.table.trans (h.table.view_eq ▸ h'.table)

theorem Untouched.backed (h : Untouched s t) (hs : Backed s.table s.pages) : Backed t.table t.pages := by
  rw [h.pages]
  exact hs.same h.table

structure Installed (options : MappingOptions) (page : VirtPage) (frame : Nat) (s t : UserMmState) : Prop where
  layout : t.core.layout = s.core.layout
  pages : t.pages = s.pages ++ [⟨page, frame⟩]
  table : Updates s.table t.table (Function.update (view s.table) page (some (frame, optionsRights options)))
  absent : view s.table page = none
  mappable : options.Mappable
  backed : Backed t.table t.pages
  zero : ∀ i, t.table.entry frame i = 0

theorem Updates.reserves {table : PageTableState} {pages : List MappedPage} (h : Backed table pages) (r : List Bool) :
    Updates table { table with reserves := r } (view table) := by
  obtain ⟨place, hw⟩ := h.wf
  refine ⟨⟨place, hw.answers table.choices r⟩, ⟨rfl, rfl, rfl, rfl, fun _ _ => rfl, fun _ _ => rfl, fun f hf => ?_⟩, rfl⟩
  exact ⟨⟨hf.used, hf.ne_root, hf.not_table, hf.not_retired, hf.not_kernel⟩, rfl⟩

/-- The `n`-th of the answers of `try_reserve` that are still to come. -/
def granted (s : UserMmState) (n : Nat) : Bool := s.table.reserves[n]?.getD false

def consumed (n : Nat) (s : UserMmState) : UserMmState := setTable { s.table with reserves := s.table.reserves.drop n } s

theorem granted_consumed (n k : Nat) : granted (consumed n s) k = granted s (n + k) := by
  simp [granted, consumed, setTable]

theorem consumed_consumed (n k : Nat) : consumed k (consumed n s) = consumed (n + k) s := by
  simp [consumed, setTable]

theorem Untouched.consumed (h : Backed s.table s.pages) (n : Nat) : Untouched s (consumed n s) :=
  ⟨rfl, rfl, Updates.reserves h _⟩

@[simp] theorem wp_nextReserve {Q : Bool → UserMmState → Prop} {E : UserMmStop → UserMmState → Prop} :
    wp nextReserve s Q E ↔ Q (granted s 0) (UserMm.consumed 1 s) := by
  simp only [nextReserve, wp_bind, wp_get, wp_set, wp_pure, granted, UserMm.consumed, setTable, List.head?_eq_getElem?,
    List.drop_one]

@[simp] theorem wp_tryReserve {Q : Unit → UserMmState → Prop} {E : UserMmStop → UserMmState → Prop} :
    wp tryReserve s Q E ↔ (granted s 0 = true → Q () (UserMm.consumed 1 s)) ∧
      (¬granted s 0 = true → E (.error .metadataOutOfMemory) (UserMm.consumed 1 s)) := by
  simp only [tryReserve, wp_bind, wp_nextReserve, wp_ite, wp_pure, wp_throw]

theorem allocatePage_spec (h : Backed s.table s.pages) : wp allocatePage s
    (fun frame t => Untouched s t ∧ s.table.free frame = true ∧ Foreign t.table frame ∧ t.table.ram frame = true ∧
      ∀ i, t.table.entry frame i = 0)
    (fun e t => e = .error .pageAllocator ∧ Untouched s t) := by
  obtain ⟨place, hw⟩ := h.wf
  simp only [allocatePage, wp_bind, onTable, wp_zoom]
  refine hw.allocate_use.mono ?_ fun _ _ hf => hf.elim
  rintro (_ | frame) table ⟨hu, hframe⟩
  · exact wp_throw.2 ⟨rfl, rfl, rfl, hu⟩
  · obtain ⟨hfree, hforeign, hram, hzero⟩ := hframe frame rfl
    exact wp_pure.2 ⟨⟨rfl, rfl, hu⟩, hfree, hforeign, hram, hzero⟩

theorem Backed.ne_of_free {table : PageTableState} {pages : List MappedPage} (h : Backed table pages)
    (hfree : table.free frame = true) : ∀ m ∈ pages, m.backing ≠ frame := by
  rintro m hm rfl
  have := (h.frames m hm).1.used
  rw [hfree] at this
  cases this

/-- A frame that was allocated for nothing goes back. -/
theorem Untouched.free (h : Untouched s t) (hfree : s.table.free frame = true)
    (hforeign : Foreign t.table frame) (hram : t.table.ram frame = true) : Untouched s (freePage frame t) := by
  have hout : Outside t.table (freeTables [frame] t.table) (· ∈ [frame]) :=
    freeTables_outside fun f hf => by
      obtain rfl := List.mem_singleton.1 hf
      exact ⟨hforeign, hram⟩
  refine ⟨h.layout, h.pages, h.table.outside hout fun f hf hin => ?_⟩
  have hused := hf.used
  rw [List.mem_singleton.1 hin, hfree] at hused
  cases hused

theorem mapZeroPageLocked_spec (h : Backed s.table s.pages) (ha : address < userEnd) : wp (mapZeroPageLocked area address) s
    (fun physical t =>
      (t = s ∧ ∃ x, view s.table (.containingAddress address) = some x ∧ physical = x.1 * 4096 + address % 4096) ∨
        ∃ frame, Installed area.mappingOptions (.containingAddress address) frame s t ∧
          physical = frame * 4096 + address % 4096)
    (fun e t => e.IsError ∧ Untouched s t) := by
  simp only [mapZeroPageLocked, wp_bind, translate, wp_get]
  rw [h.translate ha]
  cases hview : view s.table (.containingAddress address) with
  | some x => exact wp_pure.2 (wp_pure.2 (.inl ⟨rfl, x, rfl, rfl⟩))
  | none =>
    simp only [Option.map_none, wp_pure, wp_bind]
    have h₁ := Untouched.consumed h 1
    refine wp_tryReserve.2 ⟨fun _ => ?_, fun _ => ⟨⟨_, rfl⟩, h₁⟩⟩
    have hb₁ := h₁.backed h
    refine (allocatePage_spec hb₁).mono ?_ fun e t ht => ⟨⟨_, ht.1⟩, h₁.trans ht.2⟩
    rintro frame s₂ ⟨h₂, hfree, hforeign, hram, hzero⟩
    have hb₂ := h₂.backed hb₁
    have hfreed := h₂.free hfree hforeign hram
    split
    · simp only [wp_modify, wp_throw, wp_bind]
      exact ⟨⟨_, rfl⟩, h₁.trans hfreed⟩
    · rename_i physical hphysical
      have hphysical' : physical = frame * 4096 + address % 4096 := (checkedAdd_eq_some.1 hphysical).2.symm
      simp only [wp_bind, wp_onError, onTable, wp_zoom, wp_modify, wp_pure]
      obtain ⟨place, hw⟩ := hb₂.wf
      refine hw.mapPage_use.mono ?_ ?_
      · rintro _ table ⟨hpage, hmappable, -, -, hu⟩
        have h₁₂ := h₁.trans h₂
        have hnew : ∀ m ∈ s₂.pages, m.backing ≠ frame := h₂.pages ▸ Backed.ne_of_free hb₁ hfree
        refine .inr ⟨frame, ⟨h₁₂.layout, ?_, h₁₂.table.trans (h₁₂.table.view_eq ▸ hu), hview, hmappable, ?_, fun i => ?_⟩,
          hphysical'⟩
        · exact congrArg (· ++ _) h₁₂.pages
        · exact hb₂.install hforeign hram hnew hpage hu
        · exact (congrFun (hu.kernel.foreign frame hforeign).2 i).trans (hzero i)
      · intro e table hu
        refine ⟨⟨_, rfl⟩, h₁.trans ?_⟩
        have h₂' : Untouched (UserMm.consumed 1 s) (setTable table s₂) :=
          ⟨h₂.layout, h₂.pages, h₂.table.trans (h₂.table.view_eq ▸ hu)⟩
        exact h₂'.free hfree (hu.kernel.foreign frame hforeign).1 (hu.kernel.ram ▸ hram)

/-! ### Retirement -/

section retire
variable {pages : List MappedPage} {m : MappedPage} {index fuel : Nat} {range : VirtRange}

theorem swapRemovePage_append {front : List MappedPage} {last : MappedPage} :
    swapRemovePage (front ++ [last]) index = if index < front.length then front.set index last else front := by
  unfold swapRemovePage
  rw [List.getLast?_concat]
  dsimp only
  rw [List.set_append]
  split_ifs with hlt
  · exact List.dropLast_concat
  · cases index - front.length <;> exact List.dropLast_concat

theorem swapRemovePage_perm (h : pages[index]? = some m) : pages.Perm (m :: swapRemovePage pages index) := by
  rcases List.eq_nil_or_concat pages with rfl | ⟨front, last, rfl⟩
  · cases h
  · rw [List.concat_eq_append] at h ⊢
    rw [swapRemovePage_append]
    split_ifs with hlt
    · rw [List.getElem?_append_left hlt] at h
      obtain ⟨_, rfl⟩ := List.getElem?_eq_some_iff.1 h
      have hfront : front = front.take index ++ front[index] :: front.drop (index + 1) := by simp
      have hset : front.set index last = front.take index ++ last :: front.drop (index + 1) := by
        rw [List.set_eq_take_append_cons_drop, if_pos hlt]
      calc (front ++ [last]).Perm (last :: front) := List.perm_append_singleton last front
        _ = last :: (front.take index ++ front[index] :: front.drop (index + 1)) := by rw [← hfront]
        _ |>.Perm (last :: front[index] :: (front.take index ++ front.drop (index + 1))) := List.perm_middle.cons last
        _ |>.Perm (front[index] :: last :: (front.take index ++ front.drop (index + 1))) := .swap _ _ _
        _ |>.Perm (front[index] :: (front.take index ++ last :: front.drop (index + 1))) := (List.perm_middle.symm).cons _
        _ = front[index] :: front.set index last := by rw [hset]
    · obtain rfl : index = front.length := by
        have := (List.getElem?_eq_some_iff.1 h).1
        rw [List.length_append, List.length_singleton] at this
        omega
      rw [List.getElem?_concat_length] at h
      obtain rfl := Option.some.inj h
      exact List.perm_append_singleton _ _

theorem swapRemovePage_getElem? {j : Nat} (h : pages[index]? = some m) (hj : j < index) :
    (swapRemovePage pages index)[j]? = pages[j]? := by
  have hlt := (List.getElem?_eq_some_iff.1 h).1
  rcases List.eq_nil_or_concat pages with rfl | ⟨front, last, rfl⟩
  · cases h
  · rw [List.concat_eq_append] at hlt ⊢
    rw [List.length_append, List.length_singleton] at hlt
    rw [swapRemovePage_append, List.getElem?_append_left (by omega)]
    split_ifs with hin
    · exact List.getElem?_set_ne (by omega)
    · rfl

theorem length_swapRemovePage (h : pages[index]? = some m) : (swapRemovePage pages index).length + 1 = pages.length := by
  have := (swapRemovePage_perm h).length_eq
  simpa using this.symm

structure Withdrawn (gone : List MappedPage) (s t : UserMmState) : Prop where
  layout : t.core.layout = s.core.layout
  pages : s.pages.Perm (gone ++ t.pages)
  backed : Backed t.table t.pages
  table : Updates s.table t.table fun p => if p ∈ gone.map MappedPage.page then none else view s.table p
  frames : ∀ m ∈ gone, Foreign t.table m.backing ∧ t.table.ram m.backing = true

theorem Withdrawn.nil (h : Backed s.table s.pages) : Withdrawn [] s s := by
  obtain ⟨place, hw⟩ := h.wf
  refine ⟨rfl, .refl _, h, ?_, fun _ hm => (nomatch hm)⟩
  simpa only [List.map_nil, List.not_mem_nil, if_false] using hw.updates

theorem Withdrawn.cons {gone : List MappedPage} (h : Withdrawn [m] s t) (h' : Withdrawn gone t u) :
    Withdrawn (m :: gone) s u where
  layout := h'.layout.trans h.layout
  pages := h.pages.trans (h'.pages.cons m)
  backed := h'.backed
  table := by
    have hview : (fun p => if p ∈ (m :: gone).map MappedPage.page then none else view s.table p) =
        fun p => if p ∈ gone.map MappedPage.page then none else view t.table p := by
      funext p
      rw [h.table.view_eq, List.map_cons, List.map_singleton]
      by_cases hgone : p ∈ gone.map MappedPage.page
      · rw [if_pos hgone, if_pos (List.mem_cons_of_mem _ hgone)]
      · simp [hgone]
    rw [hview]
    exact h.table.trans h'.table
  frames m' hm' := by
    rcases List.mem_cons.1 hm' with rfl | hm'
    · obtain ⟨hforeign, hram⟩ := h.frames m' List.mem_cons_self
      exact ⟨(h'.table.kernel.foreign _ hforeign).1, h'.table.kernel.ram ▸ hram⟩
    · exact h'.frames m' hm'

def Matches (table : PageTableState) (m : MappedPage) : Prop := ∀ x, view table m.page = some x → x.1 = m.backing

/-- One record goes, and its page has no leaf any more. -/
theorem Withdrawn.single (h : Backed s.table s.pages) (hperm : s.pages.Perm (m :: pages)) {table : PageTableState}
    (hu : Updates s.table table (Function.update (view s.table) m.page none)) :
    Withdrawn [m] s { s with pages := pages, table := table } where
  layout := rfl
  pages := hperm
  backed := by
    have hp := h.perm hperm
    refine ⟨hu.wf, (List.nodup_cons.1 hp.backings).2, fun m' hm' => ?_,
      fun m' hm' => hp.user m' (List.mem_cons_of_mem _ hm'), ?_⟩
    · obtain ⟨hforeign, hram⟩ := hp.frames m' (List.mem_cons_of_mem _ hm')
      exact ⟨(hu.kernel.foreign _ hforeign).1, hu.kernel.ram ▸ hram⟩
    · intro page f r hview
      rw [hu.view_eq] at hview
      by_cases hpage : page = m.page
      · rw [hpage, Function.update_self] at hview
        cases hview
      · rw [Function.update_of_ne hpage] at hview
        rcases List.mem_cons.1 (hp.leaf page f r hview) with heq | hmem
        · exact absurd (congrArg MappedPage.page heq) hpage
        · exact hmem
  table := by
    refine ⟨hu.wf, hu.kernel, hu.view_eq.trans ?_⟩
    funext p
    by_cases hp : p = m.page <;> simp [hp]
  frames m' hm' := by
    obtain rfl := List.mem_singleton.1 hm'
    obtain ⟨hforeign, hram⟩ := h.frames m' (hperm.mem_iff.2 List.mem_cons_self)
    exact ⟨(hu.kernel.foreign _ hforeign).1, hu.kernel.ram ▸ hram⟩

theorem Withdrawn.matches {gone : List MappedPage} (h : Withdrawn gone s t) {m : MappedPage} (hm : Matches s.table m) :
    Matches t.table m := by
  intro x hx
  rw [h.table.view_eq] at hx
  dsimp only at hx
  split_ifs at hx
  exact hm x hx

structure Retired (range : VirtRange) (gone : List MappedPage) (s t : UserMmState) : Prop extends Withdrawn gone s t where
  inside : ∀ m ∈ gone, range.contains m.page.start
  outside : ∀ m ∈ t.pages, ¬range.contains m.page.start

theorem Retired.nil (h : Backed s.table s.pages) (hout : ∀ (j : Nat) m, s.pages[j]? = some m →
    ¬range.contains m.page.start) : Retired range [] s s := by
  refine ⟨.nil h, fun _ hm => (nomatch hm), fun m hm => ?_⟩
  obtain ⟨j, hj⟩ := List.mem_iff_getElem?.1 hm
  exact hout j m hj

/-- The loop takes all records of the range out, if the leaves of their pages lead to their frames. -/
theorem retireLoop_spec {backings : List Nat} (h : Backed s.table s.pages)
    (hmatch : ∀ m ∈ s.pages, range.contains m.page.start → Matches s.table m)
    (hbefore : ∀ j < index, ∀ m, s.pages[j]? = some m → ¬range.contains m.page.start)
      (hfuel : s.pages.length ≤ index + fuel) :
    wp (retireLoop range fuel index backings) s
      (fun result t => ∃ gone, Retired range gone s t ∧ result = backings ++ gone.map MappedPage.backing)
      (fun _ _ => False) := by
  induction fuel generalizing s index backings with
  | zero =>
    refine wp_pure.2 ⟨[], .nil h fun j m hj => ?_, by simp⟩
    exact hbefore j (by have := (List.getElem?_eq_some_iff.1 hj).1; omega) m hj
  | succ fuel ih =>
    simp only [retireLoop, wp_bind, wp_get]
    cases hget : s.pages[index]? with
    | none =>
      refine wp_pure.2 ⟨[], .nil h fun j m hj => ?_, by simp⟩
      have := (List.getElem?_eq_some_iff.1 hj).1
      have := List.getElem?_eq_none_iff.1 hget
      exact hbefore j (by omega) m hj
    | some m =>
      simp only [wp_ite, wp_bind, wp_modify]
      refine ⟨fun hout => ih h hmatch (fun j hj m' hm' => ?_) (by omega), fun hin => ?_⟩
      · rcases Nat.lt_succ_iff_lt_or_eq.1 hj with hj | rfl
        · exact hbefore j hj m' hm'
        · rw [hget] at hm'
          exact Option.some.inj hm' ▸ hout
      · rw [not_not] at hin
        have huser := h.user m (List.mem_of_getElem? hget)
        have hperm := swapRemovePage_perm hget
        -- What is left to do once the page has no leaf.
        have hrest : ∀ table, Updates s.table table (Function.update (view s.table) m.page none) →
            wp (reclaimEmptyTables m.page) table
              (fun _ table => wp (retireLoop range fuel index (backings ++ [m.backing]))
                { s with pages := swapRemovePage s.pages index, table := table }
                (fun result t => ∃ gone, Retired range gone s t ∧ result = backings ++ gone.map MappedPage.backing)
                (fun _ _ => False)) (fun _ _ => False) := by
          intro table hu
          obtain ⟨place, hw⟩ := hu.wf
          refine (hw.reclaim_use huser).mono ?_ fun _ _ hf => hf.elim
          intro _ table' hu'
          have hone : Withdrawn [m] s { s with pages := swapRemovePage s.pages index, table := table' } :=
            .single h hperm (hu.trans (hu.view_eq ▸ hu'))
          refine (ih hone.backed (fun m' hm' hc => hone.matches (hmatch m' ?_ hc)) (fun j hj m' hm' => ?_) ?_).mono ?_
            fun _ _ hf => hf.elim
          · exact hperm.mem_iff.2 (List.mem_cons_of_mem _ hm')
          · exact hbefore j hj m' (swapRemovePage_getElem? hget hj ▸ hm')
          · have := length_swapRemovePage hget
            show (swapRemovePage s.pages index).length ≤ _
            omega
          · rintro _ t ⟨gone, hgone, rfl⟩
            refine ⟨m :: gone, ⟨hone.cons hgone.toWithdrawn, List.forall_mem_cons.2 ⟨hin, hgone.inside⟩, hgone.outside⟩, ?_⟩
            simp
        simp only [translate, wp_bind, wp_get]
        rw [h.translate_page huser]
        obtain ⟨place, hw⟩ := h.wf
        cases hview : view s.table m.page with
        | none =>
          have hu : Updates s.table s.table (Function.update (view s.table) m.page none) := by
            rw [← hview, Function.update_eq_self]
            exact hw.updates
          refine wp_pure.2 ?_
          simp only [Option.map_none, wp_bind, wp_zoom]
          exact hrest s.table hu
        | some x =>
          refine wp_pure.2 ?_
          simp only [Option.map_some, wp_bind, onTable, wp_zoom]
          refine (hw.unmapPage_use huser).mono ?_ ?_
          · rintro frame table ⟨⟨r, hframe⟩, hu⟩
            have hfound : frame = m.backing := hmatch m (List.mem_of_getElem? hget) hin _ hframe
            refine wp_require.2 ⟨fun _ => ?_, fun hne => absurd hfound hne⟩
            exact hrest table hu
          · rintro _ _ ⟨-, -, hnone⟩
            rw [hview] at hnone
            cases hnone

def RetireRefused (range : VirtRange) (s : UserMmState) : Prop :=
  (∃ m ∈ s.pages, range.contains m.page.start) ∧
    ¬(granted s 0 = true ∧ granted s 1 = true ∧ s.core.tlbGeneration + 1 < usizeLimit)

theorem planTlbRequest_spec {flush : TlbFlush} {core : UserAddressSpace}
    (hscope : flush.scope = .addressSpace core.asid.id) : wp (UserAddressSpace.planTlbRequest flush) core
      (fun _ core' => core.tlbGeneration + 1 < usizeLimit ∧ core' = { core with tlbGeneration := core.tlbGeneration + 1 })
      (fun e core' => e = .error .tlbGenerationOverflow ∧ ¬core.tlbGeneration + 1 < usizeLimit ∧ core' = core) := by
  simp only [UserAddressSpace.planTlbRequest, UserAddressSpace.nextTlbGeneration, wp_bind, wp_get, wp_ite,
    wp_throw, wp_okOr,
    wp_set, wp_pure]
  refine ⟨fun hne => absurd hscope hne, fun _ => ⟨fun next hnext => ?_, fun hnone => ⟨trivial, fun hlt => ?_, trivial⟩⟩⟩
  · obtain ⟨hlt, rfl⟩ := checkedAdd_eq_some.1 hnext
    exact ⟨hlt, rfl⟩
  · rw [checkedAdd, if_pos hlt] at hnone
    cases hnone

/-- The preflight finds that each leaf of the range leads to the frame on record, or it panics. -/
theorem preflight_spec (h : Backed s.table s.pages) :
    wp (s.pages.forM fun mapping =>
      if range.contains mapping.page.start then do
        match ← translate mapping.page.start with
        | some physical => require (physical = mapping.backing * pageSize) .retirePreflight
        | none => pure ()
      else pure () : UserMmM PUnit) s
      (fun _ t => t = s ∧ ∀ m ∈ s.pages, range.contains m.page.start → Matches s.table m)
      (fun e t => t = s ∧ e = .panic .retirePreflight ∧ ∃ m ∈ s.pages, range.contains m.page.start ∧
        ¬Matches s.table m) := by
  refine wp_forM_check fun m hm => ?_
  simp only [wp_ite, wp_bind, wp_pure, translate, wp_get]
  refine ⟨fun hin => ?_, fun hout => ⟨trivial, fun hin => absurd hin hout⟩⟩
  rw [h.translate_page (h.user m hm)]
  cases hview : view s.table m.page with
  | none =>
    refine wp_pure.2 (wp_pure.2 ⟨rfl, fun _ x hx => ?_⟩)
    rw [hview] at hx
    cases hx
  | some x =>
    refine wp_pure.2 (wp_require.2 ⟨fun heq => ⟨rfl, fun _ y hy => ?_⟩, fun hne => ⟨rfl, rfl, m, hm, hin,
      fun hmatch => hne ?_⟩⟩)
    · obtain rfl := Option.some.inj (hview.symm.trans hy)
      exact Nat.eq_of_mul_eq_mul_right (by decide) heq
    · exact congrArg (· * pageSize) (hmatch x hview)

theorem Withdrawn.after {gone : List MappedPage} {v : UserMmState} (h' : Withdrawn gone u v) (h : Untouched s t)
    (hl : u.core.layout = t.core.layout) (hp : u.pages = t.pages) (ht : u.table = t.table) : Withdrawn gone s v where
  layout := h'.layout.trans (hl.trans h.layout)
  pages := by
    rw [← h.pages, ← hp]
    exact h'.pages
  backed := h'.backed
  table := by
    have hu := h'.table
    rw [ht, h.table.view_eq] at hu
    exact h.table.trans hu
  frames := h'.frames

theorem retireRangeLocked_spec (h : Backed s.table s.pages) : wp (retireRangeLocked range) s
    (fun batch t => ¬RetireRefused range s ∧ ∃ gone, Retired range gone s t ∧ batch.backings = gone.map MappedPage.backing)
    (fun e t =>
      (e = .panic .retirePreflight ∧ ∃ m ∈ s.pages, range.contains m.page.start ∧ ¬Matches s.table m) ∨
        e.IsError ∧ RetireRefused range s ∧ Untouched s t) := by
  simp only [retireRangeLocked, wp_bind, wp_get, wp_ite, wp_pure, List.countP_eq_zero, decide_eq_true_eq]
  refine ⟨fun hnone => ⟨?_, [], .nil h ?_, rfl⟩, fun hsome => ?_⟩
  · rintro ⟨⟨m, hm, hin⟩, -⟩
    exact hnone m hm hin
  · exact fun j m hj => hnone m (List.mem_of_getElem? hj)
  · have hex : ∃ m ∈ s.pages, range.contains m.page.start := by
      by_contra hn
      exact hsome fun m hm hin => hn ⟨m, hm, hin⟩
    refine (preflight_spec h).mono ?_ fun e t ht => .inl ⟨ht.2.1, ht.2.2⟩
    rintro _ _ ⟨rfl, hmatch⟩
    rename_i s
    simp only [wp_tryReserve, granted_consumed, consumed_consumed]
    have h₁ := Untouched.consumed h 1
    have h₂ := Untouched.consumed h 2
    refine ⟨fun hg₀ => ⟨fun hg₁ => ?_, fun hg₁ => ?_⟩, fun hg₀ => ?_⟩
    · simp only [onCore, wp_zoom]
      refine (planTlbRequest_spec rfl).mono ?_ ?_
      · rintro request core ⟨hlt, rfl⟩
        refine (retireLoop_spec ?_ ?_ (fun j hj => absurd hj (Nat.not_lt_zero j)) ?_).mono ?_ fun _ _ hf => hf.elim
        · exact h₂.backed h
        · exact fun m hm hin x hx => hmatch m hm hin x (h₂.table.view_eq ▸ hx)
        · exact Nat.le_of_eq (Nat.zero_add _).symm
        · rintro backings t ⟨gone, hgone, rfl⟩
          refine ⟨fun hrefused => hrefused.2 ⟨hg₀, hg₁, hlt⟩, gone, ?_, rfl⟩
          exact ⟨hgone.toWithdrawn.after h₂ rfl rfl rfl, hgone.inside, hgone.outside⟩
      · rintro e core ⟨rfl, hlt, rfl⟩
        exact .inr ⟨⟨_, rfl⟩, ⟨hex, fun hc => hlt hc.2.2⟩, h₂⟩
    · exact .inr ⟨⟨_, rfl⟩, ⟨hex, fun hc => hg₁ hc.2.1⟩, h₂⟩
    · exact .inr ⟨⟨_, rfl⟩, ⟨hex, fun hc => hg₀ hc.1⟩, h₁⟩

structure Cleared (range : VirtRange) (s t : UserMmState) : Prop where
  layout : t.core.layout = s.core.layout
  pages : ∃ gone, s.pages.Perm (gone ++ t.pages)
  outside : ∀ m ∈ t.pages, ¬range.contains m.page.start
  kept : ∀ m ∈ s.pages, ¬range.contains m.page.start → m ∈ t.pages
  view_eq : view t.table = fun p => if range.contains p.start then none else view s.table p
  backed : Backed t.table t.pages
  words : ∀ m ∈ t.pages, t.table.entry m.backing = s.table.entry m.backing

theorem Retired.view_eq {gone : List MappedPage} (h : Retired range gone s t) (hs : Backed s.table s.pages) :
    view t.table = fun p => if range.contains p.start then none else view s.table p := by
  rw [h.table.view_eq]
  funext p
  by_cases hin : range.contains p.start
  · rw [if_pos hin]
    cases hview : view s.table p with
    | none => exact ite_self none
    | some x =>
      have hmem : p ∈ gone.map MappedPage.page := by
        rcases List.mem_append.1 (h.pages.mem_iff.1 (hs.leaf p x.1 x.2 hview)) with hm | hm
        · exact List.mem_map.2 ⟨_, hm, rfl⟩
        · exact absurd hin (h.outside _ hm)
      rw [if_pos hmem]
  · rw [if_neg hin, if_neg]
    intro hmem
    obtain ⟨m, hm, rfl⟩ := List.mem_map.1 hmem
    exact hin (h.inside m hm)

theorem finishRetirement_spec {gone : List MappedPage} {batch : RetirementBatch} (hs : Backed s.table s.pages)
    (h : Retired range gone s t) (hbatch : batch.backings = gone.map MappedPage.backing) :
    wp (finishRetirement batch) t (fun _ u => Cleared range s u) (fun _ _ => False) := by
  have hout : Outside t.table (freeTables batch.backings t.table) (· ∈ batch.backings) := by
    refine freeTables_outside fun f hf => ?_
    rw [hbatch] at hf
    obtain ⟨m, hm, rfl⟩ := List.mem_map.1 hf
    exact h.frames m hm
  -- No frame of a record that stays is also one of a record that goes.
  have hapart : ∀ m ∈ t.pages, m.backing ∉ batch.backings := fun m hm hin => by
    have hnodup := ((h.pages.map MappedPage.backing).nodup_iff).1 hs.backings
    rw [List.map_append] at hnodup
    rw [hbatch] at hin
    exact (List.nodup_append.1 hnodup).2.2 _ hin _ (List.mem_map_of_mem hm) rfl
  have hb : Backed (freeTables batch.backings t.table) t.pages := h.backed.outside hout hapart
  obtain ⟨place, hw⟩ := hb.wf
  obtain ⟨place', hw'⟩ := h.backed.wf
  simp only [finishRetirement, wp_bind, wp_modify, onTable, wp_zoom]
  refine (hw.freeRetired_use).mono ?_ fun _ _ hf => hf.elim
  intro _ table hu
  refine ⟨h.layout, ⟨gone, h.pages⟩, h.outside, fun m hm hout => ?_, ?_, hb.same hu, fun m hm => ?_⟩
  · rcases List.mem_append.1 (h.pages.mem_iff.1 hm) with hgone | hkept
    · exact absurd (h.inside m hgone) hout
    · exact hkept
  · exact hu.view_eq.trans ((hout.view_eq hw').trans (h.view_eq hs))
  · have hold : m ∈ s.pages := h.pages.mem_iff.2 (List.mem_append_right _ hm)
    calc table.entry m.backing = (freeTables batch.backings t.table).entry m.backing :=
          (hu.kernel.foreign _ (hb.frames m hm).1).2
      _ = t.table.entry m.backing := hout.entry _ (hapart m hm)
      _ = s.table.entry m.backing := (h.table.kernel.foreign _ (hs.frames m hold).1).2

/-- Retirement as the calls use it: the frames are given back right after. -/
theorem retire_spec {Q : Unit → UserMmState → Prop} {E E' : UserMmStop → UserMmState → Prop} (h : Backed s.table s.pages)
    (hok : ¬RetireRefused range s → ∀ t, Cleared range s t → Q () t)
    (herror : RetireRefused range s → ∀ e t, e.IsError → Untouched s t → E' e t)
    (hpanic : ∀ t, (∃ m ∈ s.pages, range.contains m.page.start ∧ ¬Matches s.table m) → E' (.panic .retirePreflight) t) :
    wp (retireRangeLocked range) s (fun batch t => wp (finishRetirement batch) t Q E) E' := by
  refine (retireRangeLocked_spec h).mono ?_ ?_
  · rintro batch t ⟨hrefused, gone, hgone, hbatch⟩
    exact (finishRetirement_spec h hgone hbatch).mono (fun _ u hu => hok hrefused u hu) fun _ _ hf => hf.elim
  · rintro e t (⟨rfl, hm⟩ | ⟨he, hrefused, ht⟩)
    · exact hpanic t hm
    · exact herror hrefused e t he ht

end retire

end UserMm

end SudoOS
