import SudoOS.Theorems.Resident

/-! Areas, records and leaves of an address space against each other. `Inv` holds in every state. -/

namespace SudoOS

open Program RuntimePageTable
open PageTableEntry (Rights optionsRights)

def VmAreaKind.Plain : VmAreaKind → Prop
  | .anonymous | .heap | .stack | .fileBacked _ _ => True
  | .device _ | .kernel | .vmalloc | .ioRemap _ => False

structure VmAreaFlags.Lawful (f : VmAreaFlags) : Prop where
  user : f.user = true
  not_device : f.device = false
  not_copyOnWrite : f.copyOnWrite = false

/-- No page is mapped that cannot be read. -/
theorem VmAreaFlags.Lawful.ordinary {f : VmAreaFlags} (h : f.Lawful) (hm : ¬f.NoAccess → f.options.Mappable) :
    f.Ordinary := by
  refine ⟨h.user, h.not_device, fun hno => ?_⟩
  by_contra hread
  have hvalid := (hm hno).1
  simp [MappingOptions.validate, options, VmArea.mappingOptions, hread, PagePermissions.isEmpty] at hvalid

namespace UserMm

variable {s t u : UserMmState} {page : VirtPage} {range : VirtRange} {f : VmAreaFlags} {k : VmAreaKind} {frame : Nat}

def attr (s : UserMmState) (x : Nat) : Option (VmAreaFlags × VmAreaKind) := s.core.layout.attr x

def leafFor (f : VmAreaFlags) (frame : Nat) : Option (Nat × Rights) :=
  if f.NoAccess then none else some (frame, optionsRights f.options)

/-- What holds of an address space between any two calls. -/
structure Inv (s : UserMmState) : Prop where
  layout : s.core.layout.Sound vmaCapacity
  backed : Backed s.table s.pages
  lawful : ∀ x f k, attr s x = some (f, k) → f.Lawful ∧ k.Plain
  record : ∀ m ∈ s.pages, ∃ f k, attr s m.page.start = some (f, k) ∧ f.Ordinary

structure Coherent (s : UserMmState) : Prop where
  unique : (s.pages.map MappedPage.page).Nodup
  absent : ∀ m ∈ s.pages, view s.table m.page = none → ∀ f k, attr s m.page.start = some (f, k) → f.NoAccess

def Permitted (s : UserMmState) : Prop :=
  ∀ page x, view s.table page = some x → ∀ f k, attr s page.start = some (f, k) → x.2 = optionsRights f.options

def Synced (s : UserMmState) (page : VirtPage) : Prop :=
  ∀ f k, attr s page.start = some (f, k) → ∃ frame, view s.table page = leafFor f frame

structure Same (s t : UserMmState) (page : VirtPage) : Prop where
  record : ∃ m ∈ s.pages, m.page = page
  view_eq : view t.table page = view s.table page
  flags : ∀ f k, attr t page.start = some (f, k) → ∃ k', attr s page.start = some (f, k')

def Settled (s t : UserMmState) : Prop := ∀ m ∈ t.pages, Same s t m.page ∨ Synced t m.page

theorem leafFor_noAccess (h : f.NoAccess) : leafFor f frame = none := if_pos h

theorem leafFor_access (h : ¬f.NoAccess) : leafFor f frame = some (frame, optionsRights f.options) := if_neg h

/-- Only pages without access lack a leaf after a step that settles them. -/
theorem Settled.absent (h : Settled s t)
    (hs : ∀ m ∈ s.pages, view s.table m.page = none → ∀ f k, attr s m.page.start = some (f, k) → f.NoAccess) :
    ∀ m ∈ t.pages, view t.table m.page = none → ∀ f k, attr t m.page.start = some (f, k) → f.NoAccess := by
  intro m hm hview f k hattr
  rcases h m hm with hsame | hsynced
  · obtain ⟨m', hm', hpage⟩ := hsame.record
    obtain ⟨k', hk'⟩ := hsame.flags f k hattr
    exact hs m' hm' (hpage ▸ hsame.view_eq ▸ hview) f k' (hpage ▸ hk')
  · obtain ⟨frame, hframe⟩ := hsynced f k hattr
    rw [hview] at hframe
    by_contra hno
    rw [leafFor_access hno] at hframe
    cases hframe

theorem Settled.permitted (h : Settled s t) (ht : Backed t.table t.pages) (hs : Permitted s) : Permitted t := by
  intro page x hview f k hattr
  rcases h _ (ht.leaf page x.1 x.2 hview) with hsame | hsynced
  · obtain ⟨k', hk'⟩ := hsame.flags f k hattr
    exact hs page x (hsame.view_eq ▸ hview) f k' hk'
  · obtain ⟨frame, hframe⟩ := hsynced f k hattr
    by_cases hno : f.NoAccess
    · rw [leafFor_noAccess hno] at hframe
      cases hview.symm.trans hframe
    · rw [leafFor_access hno] at hframe
      obtain rfl := Option.some.inj (hview.symm.trans hframe)
      rfl

/-! ### Steps that settle -/

theorem Inv.attr_of_findArea (h : Inv s) {x : Nat} {area : VmArea} (hfind : s.core.layout.findArea x = some area) :
    attr s x = some (area.flags, area.kind) := h.layout.attr_of_findArea hfind

theorem Inv.userAddress (h : Inv s) {x : Nat} {area : VmArea} (hfind : s.core.layout.findArea x = some area) :
    x < userEnd := by
  refine h.layout.below x ?_
  rw [h.layout.attr_of_findArea hfind]
  exact Option.some_ne_none _

theorem attr_page (h : Inv s) (x : Nat) : attr s (VirtPage.containingAddress x).start = attr s x := h.layout.attr_page x

theorem Inv.attr_area (h : Inv s) {x : Nat} {area : VmArea} (hfind : s.core.layout.findArea x = some area) :
    attr s (VirtPage.containingAddress x).start = some (area.flags, area.kind) := by
  rw [attr_page h, h.attr_of_findArea hfind]

theorem Untouched.attr (h : Untouched s t) : attr t = attr s := by
  funext x
  rw [UserMm.attr, UserMm.attr, h.layout]

structure Kept (s t : UserMmState) : Prop where
  backed : Backed t.table t.pages
  pages : ∃ gone, s.pages.Perm (gone ++ t.pages)
  view_eq : ∀ m ∈ t.pages, view t.table m.page = view s.table m.page
  attr_eq : ∀ m ∈ t.pages, attr t m.page.start = attr s m.page.start

theorem Kept.mem (h : Kept s t) {m : MappedPage} (hm : m ∈ t.pages) : m ∈ s.pages := by
  obtain ⟨gone, hperm⟩ := h.pages
  exact hperm.mem_iff.2 (List.mem_append_right _ hm)

theorem Kept.inv (h : Kept s t) (hs : Inv s) (layout : t.core.layout.Sound vmaCapacity)
    (lawful : ∀ x f k, attr t x = some (f, k) → f.Lawful ∧ k.Plain) : Inv t := by
  refine ⟨layout, h.backed, lawful, fun m hm => ?_⟩
  rw [h.attr_eq m hm]
  exact hs.record m (h.mem hm)

theorem Kept.settled (h : Kept s t) : Settled s t := by
  intro m hm
  exact .inl ⟨⟨m, h.mem hm, rfl⟩, h.view_eq m hm, fun f k hk => ⟨k, h.attr_eq m hm ▸ hk⟩⟩

/-- Fewer records make none of them double. -/
theorem Coherent.unique_of_perm (hc : Coherent s) {gone : List MappedPage} (h : s.pages.Perm (gone ++ t.pages)) :
    (t.pages.map MappedPage.page).Nodup := by
  have hnodup := ((h.map MappedPage.page).nodup_iff).1 hc.unique
  rw [List.map_append] at hnodup
  exact (List.nodup_append.1 hnodup).2.1

theorem Kept.coherent (h : Kept s t) (hc : Coherent s) : Coherent t := by
  obtain ⟨gone, hperm⟩ := h.pages
  exact ⟨hc.unique_of_perm hperm, h.settled.absent hc.absent⟩

theorem Untouched.kept (h : Untouched s t) (hs : Backed s.table s.pages) : Kept s t := by
  refine ⟨h.backed hs, ⟨[], by rw [h.pages]; exact .refl _⟩, fun m _ => by rw [h.table.view_eq], fun m _ => by rw [h.attr]⟩

theorem Untouched.inv (h : Untouched s t) (hs : Inv s) : Inv t :=
  (h.kept hs.backed).inv hs (h.layout ▸ hs.layout) (h.attr ▸ hs.lawful)

section install
variable {area : VmArea} {x : Nat} (h : Installed area.mappingOptions (.containingAddress x) frame s t) (hs : Inv s)
  (hfind : s.core.layout.findArea x = some area)
include h hs hfind

/-- A page that got mapped lies in an area that grants access. -/
theorem Installed.ordinary : area.flags.Ordinary ∧ ¬area.flags.NoAccess := by
  obtain ⟨hlawful, -⟩ := hs.lawful _ _ _ (hs.attr_area hfind)
  have hmappable : area.flags.options.Mappable := area.mappingOptions_eq ▸ h.mappable
  exact ⟨hlawful.ordinary fun _ => hmappable, fun hno => hno.not_mappable hmappable⟩

theorem Installed.inv : Inv t := by
  have hattr : attr t = attr s := by
    funext x
    rw [attr, attr, h.layout]
  refine ⟨h.layout ▸ hs.layout, h.backed, hattr ▸ hs.lawful, fun m hm => ?_⟩
  rw [hattr]
  rw [h.pages] at hm
  rcases List.mem_append.1 hm with hm | hm
  · exact hs.record m hm
  · rw [List.mem_singleton.1 hm]
    exact ⟨_, _, hs.attr_area hfind, (h.ordinary hs hfind).1⟩

theorem Installed.settled : Settled s t := by
  have hattr : attr t = attr s := by
    funext x
    rw [attr, attr, h.layout]
  intro m hm
  by_cases hpage : m.page = .containingAddress x
  · right
    intro f k hf
    rw [hpage, hattr, hs.attr_area hfind] at hf
    obtain ⟨rfl, rfl⟩ := Prod.mk.inj (Option.some.inj hf)
    refine ⟨frame, ?_⟩
    rw [h.table.view_eq, hpage, Function.update_self, leafFor_access (h.ordinary hs hfind).2, area.mappingOptions_eq]
  · left
    rw [h.pages] at hm
    rcases List.mem_append.1 hm with hm | hm
    · refine ⟨⟨m, hm, rfl⟩, ?_, fun f k hk => ⟨k, hattr ▸ hk⟩⟩
      rw [h.table.view_eq, Function.update_of_ne hpage]
    · exact absurd (congrArg MappedPage.page (List.mem_singleton.1 hm)) hpage

/-- In a coherent state the page that gets a record had none. -/
theorem Installed.coherent (hc : Coherent s) : Coherent t := by
  refine ⟨?_, (h.settled hs hfind).absent hc.absent⟩
  rw [h.pages, List.map_append, List.nodup_append]
  refine ⟨hc.unique, List.nodup_singleton _, ?_⟩
  rintro a ha b hb rfl
  obtain ⟨m, hm, rfl⟩ := List.mem_map.1 ha
  have hpage : m.page = .containingAddress x := List.mem_singleton.1 hb
  refine (h.ordinary hs hfind).2 (hc.absent m hm ?_ _ area.kind ?_)
  · rw [hpage]
    exact h.absent
  · rw [hpage]
    exact hs.attr_area hfind

end install

end UserMm

end SudoOS
