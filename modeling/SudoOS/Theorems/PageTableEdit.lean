import SudoOS.Theorems.PageTableShape

/-!
The four ways in which the calls on a page table change it: writing a word of a leaf table, hanging in a new empty table,
taking out an empty table, and changing only frames that are free.
-/

namespace SudoOS

open Program NodeTree PageTableEntry

namespace RuntimePageTable

variable {s t u : PageTableState} {place : Nat → List Nat}

/-! ### Changes outside the table -/

structure Agrees (s t : PageTableState) : Prop where
  root : t.root = s.root
  kernelRoot : t.kernelRoot = s.kernelRoot
  ram : t.ram = s.ram
  owned : t.kernelOwned = s.kernelOwned
  tables : t.runtimeTables = s.runtimeTables
  retired : t.retired = s.retired
  entry : ∀ f, s.free f = false → t.entry f = s.entry f
  free : ∀ f, s.free f = false → t.free f = false

namespace Agrees

theorem refl (s : PageTableState) : Agrees s s := ⟨rfl, rfl, rfl, rfl, rfl, rfl, fun _ _ => rfl, fun _ h => h⟩

theorem trans (h : Agrees s t) (h' : Agrees t u) : Agrees s u where
  root := h'.root.trans h.root
  kernelRoot := h'.kernelRoot.trans h.kernelRoot
  ram := h'.ram.trans h.ram
  owned := h'.owned.trans h.owned
  tables := h'.tables.trans h.tables
  retired := h'.retired.trans h.retired
  entry f hf := (h'.entry f (h.free f hf)).trans (h.entry f hf)
  free f hf := h'.free f (h.free f hf)

theorem kernelSame (h : Agrees s t) (hw : Wf s place) : KernelSame s t where
  root := h.root
  kernelRoot := h.kernelRoot
  ram := h.ram
  owned := h.owned
  high i _ := congrFun (h.entry s.root (hw.used s.root (.inl rfl))) i
  entry g hg := h.entry g (hw.apart g hg).2.2.2
  foreign f hf := by
    refine ⟨⟨h.free f hf.used, ?_, ?_, ?_, ?_⟩, h.entry f hf.used⟩
    · rw [h.root]
      exact hf.ne_root
    · rw [h.tables]
      exact hf.not_table
    · rw [h.retired]
      exact hf.not_retired
    · rw [h.owned]
      exact hf.not_kernel

theorem entry_mem (h : Agrees s t) (hw : Wf s place) {f : Nat} (hf : f = s.root ∨ f ∈ s.runtimeTables) :
    t.entry f = s.entry f :=
  h.entry f (hw.used f (by tauto))

theorem slot_mem (h : Agrees s t) (hw : Wf s place) {f : Nat} (hf : f = s.root ∨ f ∈ s.runtimeTables) (i : Nat) :
    slot t f i = slot s f i := by
  rw [slot, slot, h.root, h.entry_mem hw hf]

theorem wf (h : Agrees s t) (hw : Wf s place) (hram : ∀ f, t.free f = true → t.ram f = true) : Wf t place where
  tree := by
    rw [h.root, h.tables]
    exact hw.tree.congr fun f hf i => h.slot_mem hw hf i
  depth := h.tables ▸ hw.depth
  interior f hf hp i hi hroot := by
    rw [h.root, h.tables] at hf
    rw [h.entry_mem hw hf]
    exact hw.interior f hf hp i hi (h.root ▸ hroot)
  leaves f hf hp i hi := by
    rw [h.tables] at hf
    rw [h.entry_mem hw (.inr hf)]
    exact hw.leaves f hf hp i hi
  nodup := h.tables ▸ hw.nodup
  retired_not := by
    rw [h.root, h.tables, h.retired]
    exact hw.retired_not
  used f hf := by
    rw [h.root, h.tables, h.retired] at hf
    exact h.free f (hw.used f hf)
  in_ram f hf := by
    rw [h.root, h.tables, h.retired] at hf
    rw [h.ram]
    exact hw.in_ram f hf
  free_ram := hram
  apart g hg := by
    rw [h.owned] at hg
    obtain ⟨h₁, h₂, h₃, h₄⟩ := hw.apart g hg
    rw [h.root, h.tables, h.retired]
    exact ⟨h₁, h₂, h₃, h.free g h₄⟩
  kernel := (h.kernelSame hw).kernel hw
  kernelRoot := (h.kernelSame hw).ofKernelRoot hw

/-- Walks read only tables in use. -/
theorem leafRaw_eq (h : Agrees s t) (hw : Wf s place) (hw' : Wf t place) (a : Nat) : leafRaw t a = leafRaw s a := by
  have htable : leafTable t a = leafTable s a := by
    refine Option.ext fun l => ?_
    rw [hw'.leafTable_iff, hw.leafTable_iff, h.tables]
  unfold leafRaw
  rw [htable]
  cases hl : leafTable s a with
  | none => rfl
  | some l =>
    have := h.entry_mem hw (.inr (hw.leafTable_iff.1 hl).1)
    simp [this]

end Agrees

/-! ### Words of a leaf table -/

theorem slot_eq_none {l : Nat} (h : ∀ i < 512, s.entry l i = 0 ∨ ∃ f o, leaf f o = .ok (s.entry l i)) (i : Nat) :
    slot s l i = none := by
  unfold slot
  split_ifs with hi
  · rcases h i hi.1 with h0 | ⟨f, o, hleaf⟩
    · rw [h0, tableTarget_zero]
    · exact tableTarget_leaf hleaf
  · rfl

theorem setEntry_entry_of_ne {l k v f : Nat} (h : f ≠ l) : (s.setEntry l k v).entry f = s.entry f := by
  funext i
  exact if_neg fun hfi => h hfi.1

theorem Wf.setLeaf_kernelSame (hw : Wf s place) {l k v : Nat} (hl : l ∈ s.runtimeTables) :
    KernelSame s (s.setEntry l k v) where
  root := rfl
  kernelRoot := rfl
  ram := rfl
  owned := rfl
  high i _ := congrFun (setEntry_entry_of_ne (hw.tree.ne_root hl).symm) i
  entry g hg := setEntry_entry_of_ne fun h => (hw.apart g hg).2.1 (h ▸ hl)
  foreign _ hf := ⟨⟨hf.used, hf.ne_root, hf.not_table, hf.not_retired, hf.not_kernel⟩,
    setEntry_entry_of_ne fun h => hf.not_table (h ▸ hl)⟩

theorem Wf.setLeaf (hw : Wf s place) {l k v : Nat} (hl : l ∈ s.runtimeTables) (hp : (place l).length = 2)
    (hv : v = 0 ∨ ∃ f o, leaf f o = .ok v) : Wf (s.setEntry l k v) place := by
  have hsame := hw.setLeaf_kernelSame (k := k) (v := v) hl
  have hleaves : ∀ f ∈ s.runtimeTables, (place f).length = 2 → ∀ i < 512, (s.setEntry l k v).entry f i = 0 ∨
      ∃ f' o, leaf f' o = .ok ((s.setEntry l k v).entry f i) := by
    intro f hf hpf i hi
    simp only [PageTableState.setEntry]
    split_ifs
    · exact hv
    · exact hw.leaves f hf hpf i hi
  refine ⟨?_, hw.depth, ?_, hleaves, hw.nodup, hw.retired_not, hw.used, hw.in_ram, hw.free_ram, hw.apart,
    hsame.kernel hw, hsame.ofKernelRoot hw⟩
  · -- a leaf table has no slots in use, before and after
    refine hw.tree.congr fun f hf i => ?_
    by_cases hfl : f = l
    · subst hfl
      rw [slot_eq_none (hleaves f hl hp), slot_eq_none (hw.leaves f hl hp)]
    · rw [slot, slot, setEntry_entry_of_ne hfl]
      rfl
  · intro f hf hpf i hi hroot
    rw [setEntry_entry_of_ne (by rintro rfl; omega)]
    exact hw.interior f hf hpf i hi hroot

/-- Only the page with the same three indices sees the new word. -/
theorem Wf.leafRaw_setLeaf (hw : Wf s place) {l v a : Nat} (hl : l ∈ s.runtimeTables)
    (hp : place l = [pageIndex a 0, pageIndex a 1]) (hv : v = 0 ∨ ∃ f o, leaf f o = .ok v) {b : Nat} (ha : a < userEnd)
    (hb : b < userEnd) : leafRaw (s.setEntry l (pageIndex a 2) v) b = if b / 4096 = a / 4096 then v else leafRaw s b := by
  have hw' := hw.setLeaf (k := pageIndex a 2) hl (by simp [hp]) hv
  have htable : leafTable (s.setEntry l (pageIndex a 2) v) b = leafTable s b := by
    refine Option.ext fun l => ?_
    rw [hw'.leafTable_iff, hw.leafTable_iff]
    rfl
  unfold leafRaw
  rw [htable]
  split_ifs with hpage
  · have hsome : leafTable s b = some l := hw.leafTable_iff.2 ⟨hl, by
      rw [hp, pageIndex_eq_of_page hpage, pageIndex_eq_of_page hpage]⟩
    rw [hsome, pageIndex_eq_of_page hpage]
    simp [PageTableState.setEntry]
  · cases hlb : leafTable s b with
    | none => rfl
    | some l' =>
      obtain ⟨hmem, hpb⟩ := hw.leafTable_iff.1 hlb
      simp only [Option.map_some, Option.getD_some, PageTableState.setEntry]
      refine if_neg ?_
      rintro ⟨rfl, hidx⟩
      rw [hp] at hpb
      simp only [List.cons.injEq, and_true] at hpb
      exact hpage (page_eq_of_pageIndex hb ha hpb.1.symm hpb.2.symm hidx)

/-! ### New tables -/

def attach (s : PageTableState) (t i c e : Nat) : PageTableState :=
  { s with
    entry := fun f j => if f = c then 0 else if f = t ∧ j = i then e else s.entry f j
    free := fun f => if f = c then false else s.free f
    runtimeTables := s.runtimeTables ++ [c] }

section attach
variable {p i c e : Nat} (hw : Wf s place) (hp : p = s.root ∨ p ∈ s.runtimeTables) (hroot : p = s.root → i < 256)
  (hfree : s.free c = true)

include hw hfree in
theorem Wf.fresh : ¬(c = s.root ∨ c ∈ s.runtimeTables) := fun h => by
  have := hw.used c (by tauto)
  simp [hfree] at this

include hw hp hroot hfree in
theorem Wf.attach_kernelSame : KernelSame s (attach s p i c e) where
  root := rfl
  kernelRoot := rfl
  ram := rfl
  high j hj := by
    have hc : s.root ≠ c := fun h => hw.fresh hfree (.inl h.symm)
    have hslot : ¬(s.root = p ∧ j = i) := fun h => by
      have := hroot h.1.symm
      omega
    simp only [attach, if_neg hc, if_neg hslot]
  owned := rfl
  entry g hg := by
    obtain ⟨h₁, h₂, -, h₄⟩ := hw.apart g hg
    have hc : g ≠ c := fun h => by simp [h, hfree] at h₄
    have hgp : g ≠ p := fun h => hp.elim (fun hr => h₁ (h.trans hr)) fun hm => h₂ (h ▸ hm)
    funext j
    simp only [attach, if_neg hc]
    exact if_neg fun h => hgp h.1
  foreign f hf := by
    have hc : f ≠ c := fun h => by simpa [h, hfree] using hf.used
    have hfp : f ≠ p := fun h => hp.elim (fun hr => hf.ne_root (h.trans hr)) fun hm => hf.not_table (h ▸ hm)
    refine ⟨⟨(if_neg hc).trans hf.used, hf.ne_root, ?_, hf.not_retired, hf.not_kernel⟩, ?_⟩
    · simpa [attach, hc] using hf.not_table
    · funext j
      simp only [attach, if_neg hc]
      exact if_neg fun h => hfp h.1

include hw hp hroot hfree in
theorem Wf.attached (hlen : (place p).length < 2) (hi : i < 512) (hempty : slot s p i = none) (he : table c = .ok e) :
    Wf (attach s p i c e) (Function.update place c (place p ++ [i])) := by
  have hfresh := hw.fresh hfree
  have hold : ∀ f, f = s.root ∨ f ∈ s.runtimeTables → f ≠ c := fun f hf hfc => hfresh (hfc ▸ hf)
  have hplace : ∀ f, f = s.root ∨ f ∈ s.runtimeTables → Function.update place c (place p ++ [i]) f = place f :=
    fun f hf => Function.update_of_ne (hold f hf) ..
  have hsame := hw.attach_kernelSame hp hroot hfree (e := e)
  have hentry : ∀ f, f = s.root ∨ f ∈ s.runtimeTables → ∀ j, (attach s p i c e).entry f j =
      if f = p ∧ j = i then e else s.entry f j := fun f hf j => if_neg (hold f hf)
  have hrow : ∀ j, (attach s p i c e).entry c j = 0 := fun j => if_pos rfl
  refine ⟨?_, ?_, ?_, ?_, ?_, ?_, ?_, ?_, ?_, ?_, hsame.kernel hw, hsame.ofKernelRoot hw⟩
  · have hnodes : (fun n => n = c ∨ n ∈ s.runtimeTables) = (· ∈ (attach s p i c e).runtimeTables) := by
      funext n
      simp [attach, or_comm]
    rw [← hnodes]
    refine hw.tree.link hp hempty hfresh ?_ ?_ ?_
    · rw [slot, hentry p hp, if_pos ⟨hi, hroot⟩, if_pos ⟨rfl, rfl⟩, tableTarget_table he]
    · exact slot_eq_none fun j _ => .inl (hrow j)
    · intro f hf j hfj
      rw [slot, slot, hentry f hf, if_neg fun h : f = p ∧ j = i => hfj h.1 h.2]
      rfl
  · intro f hf
    rcases List.mem_append.1 hf with hf | hf
    · rw [hplace f (.inr hf)]
      exact hw.depth f hf
    · obtain rfl := List.mem_singleton.1 hf
      simp only [Function.update_self, List.length_append, List.length_singleton]
      omega
  · intro f hf hpf j hj hfroot
    by_cases hfc : f = c
    · exact .inl (hfc ▸ hrow j)
    · have hf' : f = s.root ∨ f ∈ s.runtimeTables := by
        simpa [attach, hfc] using hf
      rw [hplace f hf'] at hpf
      rw [hentry f hf']
      split_ifs
      · exact .inr ⟨c, he⟩
      · exact hw.interior f hf' hpf j hj hfroot
  · intro f hf hpf j hj
    by_cases hfc : f = c
    · exact .inl (hfc ▸ hrow j)
    · have hf' : f ∈ s.runtimeTables := by simpa [attach, hfc] using hf
      rw [hplace f (.inr hf')] at hpf
      rw [hentry f (.inr hf'), if_neg (by rintro ⟨rfl, -⟩; omega)]
      exact hw.leaves f hf' hpf j hj
  · refine List.nodup_append.2 ⟨hw.nodup, List.pairwise_singleton _ c, fun a ha b hb => ?_⟩
    obtain rfl := List.mem_singleton.1 hb
    exact hold a (.inr ha)
  · intro f hf
    obtain ⟨h₁, h₂⟩ := hw.retired_not f hf
    have hfc : f ≠ c := fun h => by
      have := hw.used f (.inr (.inr hf))
      simp [h, hfree] at this
    exact ⟨h₁, by simp [attach, hfc, h₂]⟩
  · intro f hf
    by_cases hfc : f = c
    · exact if_pos hfc
    · have : s.free f = false := hw.used f (by simpa [attach, hfc] using hf)
      simpa [attach, hfc] using this
  · intro f hf
    by_cases hfc : f = c
    · exact hfc ▸ hw.free_ram c hfree
    · exact hw.in_ram f (by simpa [attach, hfc] using hf)
  · intro f hf
    refine hw.free_ram f ?_
    by_cases hfc : f = c
    · simp [attach, hfc] at hf
    · simpa [attach, hfc] using hf
  · intro g hg
    obtain ⟨h₁, h₂, h₃, h₄⟩ := hw.apart g hg
    have hc : g ≠ c := fun h => by simp [h, hfree] at h₄
    exact ⟨h₁, by simp [attach, hc, h₂], h₃, by simp [attach, hc, h₄]⟩

/-- A new table is empty, so no page leads to a new word. -/
theorem Wf.leafRaw_attach (hw' : Wf (attach s p i c e) (Function.update place c (place p ++ [i])))
    (hw : Wf s place) (hfree : s.free c = true) (hlen : (place p).length < 2) (a : Nat) : leafRaw (attach s p i c e) a =
      leafRaw s a := by
  have hfresh := hw.fresh hfree
  unfold leafRaw
  cases hl : leafTable s a with
  | some l =>
    obtain ⟨hmem, hpl⟩ := hw.leafTable_iff.1 hl
    have hlc : l ≠ c := fun h => hfresh (.inr (h ▸ hmem))
    have hlp : l ≠ p := by
      rintro rfl
      simp [hpl] at hlen
    have : leafTable (attach s p i c e) a = some l :=
      hw'.leafTable_iff.2 ⟨by simp [attach, hmem], by rw [Function.update_of_ne hlc, hpl]⟩
    rw [this]
    simp [attach, hlc, hlp]
  | none =>
    cases hl' : leafTable (attach s p i c e) a with
    | none => rfl
    | some l =>
      obtain ⟨hmem, hpl⟩ := hw'.leafTable_iff.1 hl'
      by_cases hlc : l = c
      · simp [hlc, attach]
      · have hmem' : l ∈ s.runtimeTables := by simpa [attach, hlc] using hmem
        rw [Function.update_of_ne hlc] at hpl
        simp [hw.leafTable_iff.2 ⟨hmem', hpl⟩] at hl

end attach

/-! ### Empty tables -/

def detach (s : PageTableState) (p i c : Nat) (tables : List Nat) : PageTableState :=
  { s.setEntry p i 0 with runtimeTables := tables, retired := s.retired ++ [c] }

section detach
variable {p i c : Nat} {tables : List Nat} (hw : Wf s place) (hp : p = s.root ∨ p ∈ s.runtimeTables)
  (hslot : slot s p i = some c) (htables : ∀ t, t ∈ tables ↔ t ∈ s.runtimeTables ∧ t ≠ c)

include hw hp hslot htables in
theorem Wf.detach_kernelSame : KernelSame s (detach s p i c tables) where
  root := rfl
  kernelRoot := rfl
  ram := rfl
  high j hj := by
    have hlow : p = s.root → i < 256 := by
      unfold slot at hslot
      split_ifs at hslot with h
      exact h.2
    refine if_neg fun h => ?_
    have := hlow h.1.symm
    omega
  owned := rfl
  entry g hg := by
    obtain ⟨h₁, h₂, -, -⟩ := hw.apart g hg
    refine setEntry_entry_of_ne fun h => ?_
    exact hp.elim (fun hr => h₁ (h.trans hr)) fun hm => h₂ (h ▸ hm)
  foreign f hf := by
    obtain ⟨hc, -⟩ := (hw.tree.child_iff hp).1 hslot
    have hfc : f ≠ c := fun h => hf.not_table (h ▸ hc)
    refine ⟨⟨hf.used, hf.ne_root, fun h => hf.not_table ((htables f).1 h).1, ?_, hf.not_kernel⟩, ?_⟩
    · simpa [detach, hfc] using hf.not_retired
    · refine setEntry_entry_of_ne fun h => ?_
      exact hp.elim (fun hr => hf.ne_root (h.trans hr)) fun hm => hf.not_table (h ▸ hm)

include hw hp hslot htables in
theorem Wf.detached (hempty : ∀ j < 512, s.entry c j = 0) (hnodup : tables.Nodup) : Wf (detach s p i c tables) place := by
  have hsame : KernelSame s (detach s p i c tables) := hw.detach_kernelSame hp hslot htables
  obtain ⟨hc, hplace⟩ := (hw.tree.child_iff hp).1 hslot
  have hmem : ∀ {f}, f ∈ (detach s p i c tables).runtimeTables → f ∈ s.runtimeTables := fun h => ((htables _).1 h).1
  have hmem' : ∀ {f}, f = s.root ∨ f ∈ (detach s p i c tables).runtimeTables → f = s.root ∨ f ∈ s.runtimeTables :=
    fun h => h.imp_right hmem
  have hall : ∀ {f}, f = s.root ∨ f ∈ tables ∨ f ∈ s.retired ++ [c] → f = s.root ∨ f ∈ s.runtimeTables ∨ f ∈ s.retired := by
    intro f hf
    have hcf : f = c → f ∈ s.runtimeTables := fun h => h ▸ hc
    have := (htables f).1
    simp only [List.mem_append, List.mem_singleton] at hf
    tauto
  refine ⟨?_, fun f hf => hw.depth f (hmem hf), ?_, ?_, hnodup, ?_, ?_, ?_, hw.free_ram, ?_,
    hsame.kernel hw, hsame.ofKernelRoot hw⟩
  · have hnodes : (fun n => n ∈ s.runtimeTables ∧ n ≠ c) = (· ∈ (detach s p i c tables).runtimeTables) := by
      funext n
      exact propext (htables n).symm
    rw [← hnodes]
    refine hw.tree.unlink hp hslot (slot_eq_none fun j hj => .inl (hempty j hj)) ?_ ?_
    · have hzero : (detach s p i c tables).entry p i = 0 := if_pos ⟨rfl, rfl⟩
      rw [slot, hzero, tableTarget_zero, ite_self]
    · intro f _ _ j hfj
      have : (detach s p i c tables).entry f j = s.entry f j := if_neg fun h => hfj h.1 h.2
      rw [slot, slot, this]
      rfl
  · intro f hf hpf j hj hfroot
    simp only [detach, PageTableState.setEntry]
    split_ifs
    · exact .inl rfl
    · exact hw.interior f (hmem' hf) hpf j hj hfroot
  · intro f hf hpf j hj
    simp only [detach, PageTableState.setEntry]
    split_ifs
    · exact .inl rfl
    · exact hw.leaves f (hmem hf) hpf j hj
  · intro f hf
    rcases List.mem_append.1 hf with hf | hf
    · obtain ⟨h₁, h₂⟩ := hw.retired_not f hf
      exact ⟨h₁, fun h => h₂ (hmem h)⟩
    · obtain rfl := List.mem_singleton.1 hf
      exact ⟨hw.tree.ne_root hc, fun h => ((htables f).1 h).2 rfl⟩
  · exact fun f hf => hw.used f (hall hf)
  · exact fun f hf => hw.in_ram f (hall hf)
  · intro g hg
    obtain ⟨h₁, h₂, h₃, h₄⟩ := hw.apart g hg
    refine ⟨h₁, fun h => h₂ (hmem h), ?_, h₄⟩
    simp only [detach, List.mem_append, List.mem_singleton, not_or]
    exact ⟨h₃, fun h => h₂ (h ▸ hc)⟩

include hw hp hslot htables in
/-- An empty table held no mapping. -/
theorem Wf.leafRaw_detach (hempty : ∀ j < 512, s.entry c j = 0) (hnodup : tables.Nodup) (a : Nat) :
    leafRaw (detach s p i c tables) a = leafRaw s a := by
  have hw' := hw.detached hp hslot htables hempty hnodup
  obtain ⟨hc, hplace⟩ := (hw.tree.child_iff hp).1 hslot
  unfold leafRaw
  cases hl : leafTable s a with
  | none =>
    cases hl' : leafTable (detach s p i c tables) a with
    | none => rfl
    | some l =>
      obtain ⟨hmem, hpl⟩ := hw'.leafTable_iff.1 hl'
      simp [hw.leafTable_iff.2 ⟨((htables l).1 hmem).1, hpl⟩] at hl
  | some l =>
    obtain ⟨hmem, hpl⟩ := hw.leafTable_iff.1 hl
    by_cases hlc : l = c
    · -- the table taken out was the leaf table of this page
      have hnone : leafTable (detach s p i c tables) a = none := by
        refine Option.eq_none_iff_forall_ne_some.2 fun l' hl' => ?_
        obtain ⟨hmem', hpl'⟩ := hw'.leafTable_iff.1 hl'
        obtain ⟨hmem', hne⟩ := (htables l').1 hmem'
        exact hne ((hw.tree.place_inj (.inr hmem') (.inr hmem) (hpl'.trans hpl.symm)).trans hlc)
      have hzero := hempty _ (pageIndex_lt a 2)
      rw [hnone, hlc]
      simp [hzero]
    · have hlp : l ≠ p := by
        rintro rfl
        have := hw.depth c hc
        simp [hplace, hpl] at this
      rw [hw'.leafTable_iff.2 ⟨(htables l).2 ⟨hmem, hlc⟩, hpl⟩]
      simp [detach, PageTableState.setEntry, hlp]

end detach

end RuntimePageTable

end SudoOS
