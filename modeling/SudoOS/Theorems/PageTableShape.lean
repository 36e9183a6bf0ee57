import SudoOS.Kernel.PageTable
import SudoOS.Lib.NodeTree
import SudoOS.Theorems.PagingFormat

/-!
The shape of a runtime page table. The private tables form a tree of nodes below the root, two levels deep; the slots of the
upper half of the root lead into tables of the kernel.
-/

namespace SudoOS

open Program NodeTree PageTableEntry

namespace RuntimePageTable

def tableTarget (raw : Nat) : Option Nat := if isTable raw then frame raw else none

/-- The slots of the private tree: all entries of a table, but only the lower half of the root. -/
def slot (s : PageTableState) (table index : Nat) : Option Nat :=
  if index < 512 ∧ (table = s.root → index < 256) then tableTarget (s.entry table index) else none

def KernelHalf (s : PageTableState) (r : Nat) : Prop :=
  ∀ i, 256 ≤ i → i < 512 → ∀ g, tableTarget (s.entry r i) = some g →
    s.kernelOwned g = true ∧ ∀ j < 512, ∀ g', tableTarget (s.entry g j) = some g' → s.kernelOwned g' = true

/-- The invariant of the page table; `place` gives the indices that lead to each private table. -/
structure Wf (s : PageTableState) (place : Nat → List Nat) : Prop where
  tree : IsTree (slot s) s.root (· ∈ s.runtimeTables) place
  depth : ∀ t ∈ s.runtimeTables, (place t).length ≤ 2
  interior : ∀ t, t = s.root ∨ t ∈ s.runtimeTables → (place t).length < 2 → ∀ i < 512, (t = s.root → i < 256) →
    s.entry t i = 0 ∨ ∃ c, table c = .ok (s.entry t i)
  leaves : ∀ t ∈ s.runtimeTables, (place t).length = 2 → ∀ i < 512, s.entry t i = 0 ∨ ∃ f o, leaf f o = .ok (s.entry t i)
  nodup : s.runtimeTables.Nodup
  retired_not : ∀ t ∈ s.retired, t ≠ s.root ∧ t ∉ s.runtimeTables
  used : ∀ t, t = s.root ∨ t ∈ s.runtimeTables ∨ t ∈ s.retired → s.free t = false
  in_ram : ∀ t, t = s.root ∨ t ∈ s.runtimeTables ∨ t ∈ s.retired → s.ram t = true
  free_ram : ∀ t, s.free t = true → s.ram t = true
  apart : ∀ g, s.kernelOwned g = true → g ≠ s.root ∧ g ∉ s.runtimeTables ∧ g ∉ s.retired ∧ s.free g = false
  kernel : KernelHalf s s.root
  kernelRoot : s.kernelOwned s.kernelRoot = true ∧ s.ram s.kernelRoot = true ∧ KernelHalf s s.kernelRoot

def leafTable (s : PageTableState) (page : Nat) : Option Nat :=
  walk (slot s) s.root [pageIndex page 0, pageIndex page 1]

def leafRaw (s : PageTableState) (page : Nat) : Nat :=
  ((leafTable s page).map fun t => s.entry t (pageIndex page 2)).getD 0

/-- The mapping as a partial map: the frame and the rights of every mapped user page. -/
def view (s : PageTableState) (page : VirtPage) : Option (Nat × Rights) :=
  if page.start < userEnd ∧ leafRaw s page.start ≠ 0 then
    some (ppn (leafRaw s page.start), rights (leafRaw s page.start))
  else none

theorem tableTarget_zero : tableTarget 0 = none := rfl

theorem tableTarget_table {c raw : Nat} (h : table c = .ok raw) : tableTarget raw = some c := by
  obtain ⟨ht, hf⟩ := table_eq_ok h
  rw [tableTarget, if_pos ht, hf]

theorem tableTarget_leaf {f raw : Nat} {o : MappingOptions} (h : leaf f o = .ok raw) : tableTarget raw = none := by
  obtain ⟨-, ht, -⟩ := leaf_eq_ok h
  simp [tableTarget, ht]

theorem table_ne_zero {c raw : Nat} (h : table c = .ok raw) : raw ≠ 0 := by
  rintro rfl
  have := (table_eq_ok h).1
  contradiction

theorem leaf_ne_zero {f raw : Nat} {o : MappingOptions} (h : leaf f o = .ok raw) : raw ≠ 0 := by
  rintro rfl
  have := (leaf_eq_ok h).1
  contradiction

theorem descend_table {c raw : Nat} (h : table c = .ok raw) (level : Nat) : descend level raw = .ok c := by
  obtain ⟨ht, hf⟩ := table_eq_ok h
  have hl : isLeaf raw = false := by
    simp only [isTable, Bool.and_eq_true, Bool.not_eq_true'] at ht
    simp [isLeaf, ht.2]
  simp [descend, hl, ht, hf]

section
variable {s : PageTableState} {place : Nat → List Nat}

/-- One step down from an interior table: the slot is empty, or it leads to a private table. -/
theorem Wf.slot_cases (hw : Wf s place) {t i : Nat} (ht : t = s.root ∨ t ∈ s.runtimeTables) (hp : (place t).length < 2)
    (hi : i < 512) (hroot : t = s.root → i < 256) :
    (s.entry t i = 0 ∧ slot s t i = none) ∨
      ∃ c, table c = .ok (s.entry t i) ∧ slot s t i = some c ∧ c ∈ s.runtimeTables ∧ place c = place t ++ [i] := by
  have hslot : slot s t i = tableTarget (s.entry t i) := if_pos ⟨hi, hroot⟩
  rcases hw.interior t ht hp i hi hroot with h0 | ⟨c, hc⟩
  · exact .inl ⟨h0, by rw [hslot, h0, tableTarget_zero]⟩
  · have hsome : slot s t i = some c := by rw [hslot, tableTarget_table hc]
    obtain ⟨hmem, hplace⟩ := (hw.tree.child_iff ht).1 hsome
    exact .inr ⟨c, hc, hsome, hmem, hplace⟩

theorem Wf.ram (hw : Wf s place) (t : Nat) (ht : t = s.root ∨ t ∈ s.runtimeTables) : s.ram t = true :=
  hw.in_ram t (by tauto)

theorem Wf.readEntry (hw : Wf s place) {t : Nat} (ht : t = s.root ∨ t ∈ s.runtimeTables) (a level : Nat) :
    s.readEntry t (pageIndex a level) = .ok (s.entry t (pageIndex a level)) :=
  if_pos ⟨hw.ram t ht, pageIndex_lt a level⟩

inductive Descent (s : PageTableState) (place : Nat → List Nat) (a : Nat) : Prop
  | atRoot (empty : s.entry s.root (pageIndex a 0) = 0) (slot_none : slot s s.root (pageIndex a 0) = none)
  | atMiddle (m : Nat) (entry_root : table m = .ok (s.entry s.root (pageIndex a 0))) (mem : m ∈ s.runtimeTables)
      (place_m : place m = [pageIndex a 0]) (empty : s.entry m (pageIndex a 1) = 0)
      (slot_none : slot s m (pageIndex a 1) = none)
  | atLeaf (m l : Nat) (entry_root : table m = .ok (s.entry s.root (pageIndex a 0))) (mem_m : m ∈ s.runtimeTables)
      (place_m : place m = [pageIndex a 0]) (entry_m : table l = .ok (s.entry m (pageIndex a 1)))
      (mem : l ∈ s.runtimeTables) (place_l : place l = [pageIndex a 0, pageIndex a 1])

theorem Wf.descent (hw : Wf s place) {a : Nat} (ha : a < userEnd) : Descent s place a := by
  have h0 := hw.tree.place_root
  rcases hw.slot_cases (.inl rfl) (by simp [h0]) (pageIndex_lt a 0) fun _ => pageIndex_zero_of_user ha with
    ⟨hz, hn⟩ | ⟨m, hm, -, hmem, hpm⟩
  · exact .atRoot hz hn
  · rw [h0, List.nil_append] at hpm
    have hne : m = s.root → pageIndex a 1 < 256 := fun h => absurd h (hw.tree.ne_root hmem)
    rcases hw.slot_cases (.inr hmem) (by simp [hpm]) (pageIndex_lt a 1) hne with ⟨hz, hn⟩ | ⟨l, hl, -, hmem', hpl⟩
    · exact .atMiddle m hm hmem hpm hz hn
    · exact .atLeaf m l hm hmem hpm hl hmem' (by simp [hpl, hpm])

theorem Wf.leafTable_iff (hw : Wf s place) {a t : Nat} :
    leafTable s a = some t ↔ t ∈ s.runtimeTables ∧ place t = [pageIndex a 0, pageIndex a 1] := by
  rw [leafTable, hw.tree.walk_iff]
  constructor
  · rintro ⟨rfl | ht, hp⟩
    · simp [hw.tree.place_root] at hp
    · exact ⟨ht, hp⟩
  · rintro ⟨ht, hp⟩
    exact ⟨.inr ht, hp⟩

/-! Where a walk ends says what the leaf entry is. -/

theorem leafRaw_atRoot {a : Nat} (hn : slot s s.root (pageIndex a 0) = none) : leafRaw s a = 0 := by
  simp [leafRaw, leafTable, walk, hn]

theorem Wf.leafRaw_atMiddle (hw : Wf s place) {a m : Nat} (hmem : m ∈ s.runtimeTables) (hpm : place m = [pageIndex a 0])
    (hn : slot s m (pageIndex a 1) = none) : leafRaw s a = 0 := by
  have hslot : slot s s.root (pageIndex a 0) = some m :=
    (hw.tree.child_iff (.inl rfl)).2 ⟨hmem, by simp [hpm, hw.tree.place_root]⟩
  simp [leafRaw, leafTable, walk, hn, hslot]

theorem Wf.leafRaw_atLeaf (hw : Wf s place) {a l : Nat} (hmem : l ∈ s.runtimeTables)
    (hpl : place l = [pageIndex a 0, pageIndex a 1]) : leafRaw s a = s.entry l (pageIndex a 2) := by
  rw [leafRaw, hw.leafTable_iff.2 ⟨hmem, hpl⟩]
  rfl

theorem Wf.leafRaw_cases (hw : Wf s place) (a : Nat) : leafRaw s a = 0 ∨ ∃ f o, leaf f o = .ok (leafRaw s a) := by
  unfold leafRaw
  cases ht : leafTable s a with
  | none => exact .inl rfl
  | some t =>
    obtain ⟨hmem, hp⟩ := hw.leafTable_iff.1 ht
    exact hw.leaves t hmem (by simp [hp]) _ (pageIndex_lt a 2)

theorem leafTable_of_page {a b : Nat} (h : a / 4096 = b / 4096) : leafTable s a = leafTable s b := by
  rw [leafTable, leafTable, pageIndex_eq_of_page h, pageIndex_eq_of_page h]

theorem leafRaw_of_page {a b : Nat} (h : a / 4096 = b / 4096) : leafRaw s a = leafRaw s b := by
  rw [leafRaw, leafRaw, leafTable_of_page h, pageIndex_eq_of_page h]

theorem containingAddress_page (a : Nat) : (VirtPage.containingAddress a).start / 4096 = a / 4096 := by
  simp only [VirtPage.containingAddress]
  omega

theorem Wf.translate_eq (hw : Wf s place) {a : Nat} (ha : a < userEnd) : translate s a =
    if leafRaw s a = 0 then .ok none else .ok (checkedAdd (physicalAddress (leafRaw s a)) (a % pageSize)) := by
  have hcanon : isCanonical a := .inl ha
  rw [translate, if_pos hcanon]
  simp only [levels, translateLoop, hw.readEntry (.inl rfl), bind, Except.bind]
  rcases hw.descent ha with ⟨hz, hn⟩ | ⟨m, hm, hmem, hpm, hz, hn⟩ | ⟨m, l, hm, hmem, hpm, hl, hmem', hpl⟩
  · simp [hz, leafRaw_atRoot hn]
  · simp [table_ne_zero hm, descend_table hm, hw.readEntry (.inr hmem), hz, hw.leafRaw_atMiddle hmem hpm hn]
  · have hraw := hw.leafRaw_atLeaf hmem' hpl
    simp only [table_ne_zero hm, descend_table hm, hw.readEntry (.inr hmem), table_ne_zero hl, descend_table hl,
      hw.readEntry (.inr hmem'), if_false, ← hraw]
    rcases hw.leafRaw_cases a with h0 | ⟨f, o, hleaf⟩
    · simp [h0]
    · simp [leaf_ne_zero hleaf, (leaf_eq_ok hleaf).1]

theorem ppn_lt (raw : Nat) : ppn raw < 2 ^ 44 := by
  rw [ppn, Nat.shiftRight_eq_div_pow]
  have : raw &&& ppnMask ≤ ppnMask := Nat.and_le_right
  simp only [ppnMask, ppnBits, ppnShift] at *
  omega

theorem Wf.translate_view (hw : Wf s place) {a : Nat} (ha : a < userEnd) :
    translate s a = .ok ((view s (.containingAddress a)).map fun v => v.1 * 4096 + a % 4096) := by
  have hpage := containingAddress_page a
  have hstart : (VirtPage.containingAddress a).start < userEnd := Nat.lt_of_le_of_lt (Nat.sub_le _ _) ha
  rw [hw.translate_eq ha, view, leafRaw_of_page hpage]
  rcases hw.leafRaw_cases a with h0 | ⟨f, o, hleaf⟩
  · simp [h0]
  · have hlt := ppn_lt (leafRaw s a)
    have hne := leaf_ne_zero hleaf
    have hsum : ppn (leafRaw s a) * 4096 + a % 4096 < usizeLimit := by
      simp only [usizeLimit]
      omega
    have hadd : checkedAdd (physicalAddress (leafRaw s a)) (a % pageSize) = some (ppn (leafRaw s a) * 4096 + a % 4096) := by
      have hphys : physicalAddress (leafRaw s a) = ppn (leafRaw s a) * 4096 := Nat.shiftLeft_eq _ _
      rw [checkedAdd, hphys, pageSize, if_pos hsum]
    rw [if_neg hne, if_pos ⟨hstart, hne⟩, hadd]
    rfl

end

/-! ### The kernel half -/

structure Foreign (s : PageTableState) (f : Nat) : Prop where
  used : s.free f = false
  ne_root : f ≠ s.root
  not_table : f ∉ s.runtimeTables
  not_retired : f ∉ s.retired
  not_kernel : s.kernelOwned f = false

structure KernelSame (s t : PageTableState) : Prop where
  root : t.root = s.root
  kernelRoot : t.kernelRoot = s.kernelRoot
  ram : t.ram = s.ram
  owned : t.kernelOwned = s.kernelOwned
  high : ∀ i, 256 ≤ i → t.entry s.root i = s.entry s.root i
  entry : ∀ g, s.kernelOwned g = true → t.entry g = s.entry g
  foreign : ∀ f, Foreign s f → Foreign t f ∧ t.entry f = s.entry f

namespace KernelSame

variable {s t u : PageTableState} {place : Nat → List Nat}

theorem trans (h : KernelSame s t) (h' : KernelSame t u) : KernelSame s u where
  root := h'.root.trans h.root
  kernelRoot := h'.kernelRoot.trans h.kernelRoot
  ram := h'.ram.trans h.ram
  owned := h'.owned.trans h.owned
  high i hi := by
    have := h'.high i hi
    rw [h.root] at this
    exact this.trans (h.high i hi)
  entry g hg := (h'.entry g (by rwa [h.owned])).trans (h.entry g hg)
  foreign f hf := by
    obtain ⟨hf', he⟩ := h.foreign f hf
    obtain ⟨hf'', he'⟩ := h'.foreign f hf'
    exact ⟨hf'', he'.trans he⟩

theorem kernelHalf {r : Nat} (h : KernelSame s t) (hr : ∀ i, 256 ≤ i → t.entry r i = s.entry r i) (hk : KernelHalf s r) :
    KernelHalf t r := by
  intro i hi hi' g hg
  rw [hr i hi] at hg
  obtain ⟨hf, hbelow⟩ := hk i hi hi' g hg
  rw [h.owned, h.entry g hf]
  exact ⟨hf, hbelow⟩

theorem kernel (h : KernelSame s t) (hw : Wf s place) : KernelHalf t t.root := by
  rw [h.root]
  exact h.kernelHalf h.high hw.kernel

theorem ofKernelRoot (h : KernelSame s t) (hw : Wf s place) :
    t.kernelOwned t.kernelRoot = true ∧ t.ram t.kernelRoot = true ∧ KernelHalf t t.kernelRoot := by
  obtain ⟨hf, hr, hk⟩ := hw.kernelRoot
  rw [h.kernelRoot, h.ram, h.owned]
  exact ⟨hf, hr, h.kernelHalf (fun i _ => congrFun (h.entry _ hf) i) hk⟩

theorem tableTarget_of_descend {level raw c : Nat} (h : descend level raw = .ok c) : tableTarget raw = some c := by
  unfold descend at h
  split_ifs at h with hl ht
  rw [tableTarget, if_pos (by simpa using ht)]
  cases hf : frame raw with
  | none => simp [hf] at h
  | some f =>
    rw [hf] at h
    cases h
    rfl

theorem readEntry_eq {f i : Nat} (h : KernelSame s t) (he : t.entry f i = s.entry f i) :
    t.readEntry f i = s.readEntry f i := by
  rw [PageTableState.readEntry, PageTableState.readEntry, h.ram, he]

/-- Addresses above the user range translate as before. -/
theorem translate_eq (h : KernelSame s t) (hw : Wf s place) {a : Nat} (ha : userEnd ≤ a) (hlt : a < usizeLimit) :
    translate t a = translate s a := by
  unfold translate
  by_cases hcanon : isCanonical a
  · have hhigh := pageIndex_zero_of_kernel (hcanon.resolve_left (Nat.not_lt.2 ha)) hlt
    rw [if_pos hcanon, if_pos hcanon, h.root]
    simp only [levels, translateLoop, h.readEntry_eq (h.high _ hhigh)]
    cases hr : s.readEntry s.root (pageIndex a 0) with
    | error e => rfl
    | ok raw =>
      have hraw : s.entry s.root (pageIndex a 0) = raw := by
        unfold PageTableState.readEntry at hr
        split_ifs at hr
        exact Except.ok.inj hr
      simp only [bind, Except.bind]
      cases hd : descend 0 raw with
      | error e => rfl
      | ok g =>
        obtain ⟨hg, hbelow⟩ := hw.kernel _ hhigh (pageIndex_lt a 0) g (hraw ▸ tableTarget_of_descend hd)
        simp only [h.readEntry_eq (congrFun (h.entry g hg) _)]
        cases hr' : s.readEntry g (pageIndex a 1) with
        | error e => rfl
        | ok raw' =>
          have hraw' : s.entry g (pageIndex a 1) = raw' := by
            unfold PageTableState.readEntry at hr'
            split_ifs at hr'
            exact Except.ok.inj hr'
          simp only
          cases hd' : descend 1 raw' with
          | error e => rfl
          | ok g' =>
            have hg' := hbelow _ (pageIndex_lt a 1) g' (hraw' ▸ tableTarget_of_descend hd')
            simp only [h.readEntry_eq (congrFun (h.entry g' hg') _)]
  · rw [if_neg hcanon, if_neg hcanon]

end KernelSame

end RuntimePageTable

end SudoOS
