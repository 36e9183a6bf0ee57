import SudoOS.Theorems.PageTableOps

/-!
The life of a user page table: it is made from the kernel root, it refreshes the shared half, it gives up its tables at the
end.
-/

namespace SudoOS

open Program NodeTree PageTableEntry

namespace RuntimePageTable

variable {s t u : PageTableState} {place : Nat → List Nat}

/-! ### The shared half -/

/-- Copies one word of the kernel root into the upper half of the root. -/
theorem Wf.setHigh (hw : Wf s place) {i : Nat} (hi : 256 ≤ i) (hi' : i < 512) :
    Wf (s.setEntry s.root i (s.entry s.kernelRoot i)) place := by
  obtain ⟨hown, hkram, hkhalf⟩ := hw.kernelRoot
  have hne : ∀ g, s.kernelOwned g = true → (s.setEntry s.root i (s.entry s.kernelRoot i)).entry g = s.entry g :=
    fun g hg => setEntry_entry_of_ne (hw.apart g hg).1
  have hslot : ∀ f j, slot (s.setEntry s.root i (s.entry s.kernelRoot i)) f j = slot s f j := by
    intro f j
    unfold slot
    by_cases hj : j < 512 ∧ (f = s.root → j < 256)
    · have : (s.setEntry s.root i (s.entry s.kernelRoot i)).entry f j = s.entry f j := if_neg fun h => by
        have := hj.2 h.1
        omega
      rw [this]
      rfl
    · exact (if_neg hj).trans (if_neg hj).symm
  have hhalf : ∀ r, (∀ j, 256 ≤ j → j < 512 → (s.setEntry s.root i (s.entry s.kernelRoot i)).entry r j = s.entry r j ∨
      (s.setEntry s.root i (s.entry s.kernelRoot i)).entry r j = s.entry s.kernelRoot j) → KernelHalf s r →
      KernelHalf (s.setEntry s.root i (s.entry s.kernelRoot i)) r := by
    intro r hr hk j hj hj' g hg
    have hcase : s.kernelOwned g = true ∧ ∀ k < 512, ∀ g', tableTarget (s.entry g k) = some g' →
      s.kernelOwned g' = true := by
      rcases hr j hj hj' with h | h
      · exact hk j hj hj' g (h ▸ hg)
      · exact hkhalf j hj hj' g (h ▸ hg)
    refine ⟨hcase.1, fun k hk g' hg' => ?_⟩
    rw [hne g hcase.1] at hg'
    exact hcase.2 k hk g' hg'
  refine ⟨hw.tree.congr fun f _ j => hslot f j, hw.depth, ?_, ?_, hw.nodup, hw.retired_not, hw.used, hw.in_ram, hw.free_ram,
    hw.apart, ?_, hown, hkram, ?_⟩
  · intro f hf hp j hj hroot
    have : (s.setEntry s.root i (s.entry s.kernelRoot i)).entry f j = s.entry f j := if_neg fun h => by
      have := hroot h.1
      omega
    rw [this]
    exact hw.interior f hf hp j hj hroot
  · intro f hf hp j hj
    rw [setEntry_entry_of_ne (hw.tree.ne_root hf)]
    exact hw.leaves f hf hp j hj
  · refine hhalf s.root (fun j _ _ => ?_) hw.kernel
    simp only [PageTableState.setEntry, true_and]
    split_ifs with h
    · exact .inr (by rw [h])
    · exact .inl rfl
  · exact hhalf s.kernelRoot (fun j _ _ => .inl (congrFun (hne _ hown) j)) hkhalf

theorem Wf.leafRaw_setHigh (hw : Wf s place) {i : Nat} (hi : 256 ≤ i) (hi' : i < 512) (a : Nat) :
    leafRaw (s.setEntry s.root i (s.entry s.kernelRoot i)) a = leafRaw s a := by
  have hw' := hw.setHigh hi hi'
  have htable : leafTable (s.setEntry s.root i (s.entry s.kernelRoot i)) a = leafTable s a := by
    refine Option.ext fun l => ?_
    rw [hw'.leafTable_iff, hw.leafTable_iff]
    rfl
  unfold leafRaw
  rw [htable]
  cases hl : leafTable s a with
  | none => rfl
  | some l =>
    have := setEntry_entry_of_ne (s := s) (k := i) (v := s.entry s.kernelRoot i)
      (hw.tree.ne_root (hw.leafTable_iff.1 hl).1)
    simp [this]

structure Refreshed (s t : PageTableState) : Prop where
  wf : ∃ place, Wf t place
  raw_eq : ∀ a, leafRaw t a = leafRaw s a
  tables : t.runtimeTables = s.runtimeTables
  retired : t.retired = s.retired

theorem synchronizeLoop_spec {indices : List Nat} (hw : Wf s place) (hi : ∀ i ∈ indices, 256 ≤ i ∧ i < 512) :
    wp (synchronizeLoop indices) s (fun _ t => Refreshed s t) (fun _ _ => False) := by
  induction indices generalizing s with
  | nil => exact wp_pure.2 ⟨⟨place, hw⟩, fun _ => rfl, rfl, rfl⟩
  | cons i rest ih =>
    obtain ⟨hi₁, hi₂⟩ := hi i (by simp)
    rw [synchronizeLoop, wp_bind, wp_get, wp_bind]
    have hread : s.readEntry s.kernelRoot i = .ok (s.entry s.kernelRoot i) := if_pos ⟨hw.kernelRoot.2.1, hi₂⟩
    rw [hread, wp_ofExcept_ok, wp_bind]
    refine writeEntry_spec (hw.ram s.root (.inl rfl)) hi₂ ?_
    refine (ih (hw.setHigh hi₁ hi₂) fun j hj => hi j (List.mem_cons_of_mem i hj)).mono ?_ fun _ _ h => h
    rintro _ t ⟨hwf, hraw, ht, hr⟩
    exact ⟨hwf, fun a => (hraw a).trans (hw.leafRaw_setHigh hi₁ hi₂ a), ht, hr⟩

theorem Wf.synchronizeKernelMappings_spec (hw : Wf s place) :
    wp synchronizeKernelMappings s (fun _ t => Refreshed s t) (fun _ _ => False) := by
  have hmem : ∀ n i, i ∈ (List.range n).drop (n / 2) → n / 2 ≤ i ∧ i < n := by
    intro n i hi
    obtain ⟨k, hk, rfl⟩ := List.mem_iff_getElem.1 hi
    rw [List.length_drop, List.length_range] at hk
    rw [List.getElem_drop, List.getElem_range]
    omega
  have hindices : ∀ i ∈ (List.range entriesPerTable).drop (entriesPerTable / 2), 256 ≤ i ∧ i < 512 := fun i hi => by
    have := hmem entriesPerTable i hi
    simp only [entriesPerTable] at this
    omega
  unfold synchronizeKernelMappings
  generalize (List.range entriesPerTable).drop (entriesPerTable / 2) = indices at hindices ⊢
  exact synchronizeLoop_spec hw hindices

/-! ### The end of a table -/

theorem clearLoop_spec {indices : List Nat} (hram : s.ram s.root = true) (hi : ∀ i ∈ indices, i < 512) :
    wp (clearLoop indices) s
      (fun _ t => t = { s with entry := fun f i => if f = s.root ∧ i ∈ indices then 0 else s.entry f i })
      (fun _ _ => False) := by
  induction indices generalizing s with
  | nil => simp [clearLoop]
  | cons i rest ih =>
    rw [clearLoop, wp_bind, wp_get, wp_bind]
    refine writeEntry_spec hram (hi i (by simp)) ?_
    refine (ih ?_ fun j hj => hi j (List.mem_cons_of_mem i hj)).mono ?_ fun _ _ h => h
    · exact hram
    rintro _ _ rfl
    simp only [PageTableState.setEntry, PageTableState.mk.injEq, and_true, List.mem_cons]
    funext f j
    by_cases hf : f = s.root <;> by_cases hj : j = i <;> simp [hf, hj]

theorem Wf.retireAll_spec (hw : Wf s place) : wp retireAllPrivateTables s
    (fun _ t => (∃ place, Wf t place) ∧ KernelSame s t ∧ ∀ a < userEnd, leafRaw t a = 0) (fun _ _ => False) := by
  have hindices : ∀ i, i ∈ List.range (entriesPerTable / 2) ↔ i < 256 := fun i => by
    simp [entriesPerTable]
  unfold retireAllPrivateTables
  generalize List.range (entriesPerTable / 2) = indices at hindices ⊢
  rw [wp_bind]
  refine (clearLoop_spec (hw.ram s.root (.inl rfl)) fun i hi => ?_).mono ?_ fun _ _ h => h
  · have := (hindices i).1 hi
    omega
  rintro _ _ rfl
  rw [wp_modify]
  have hother : ∀ f, f ≠ s.root → (fun i => if f = s.root ∧ i ∈ indices then 0 else s.entry f i) = s.entry f :=
    fun f hf => funext fun i => if_neg fun h => hf h.1
  have hsame : KernelSame s { s with
      entry := fun f i => if f = s.root ∧ i ∈ indices then 0 else s.entry f i
      runtimeTables := []
      retired := s.retired ++ s.runtimeTables } :=
    ⟨rfl, rfl, rfl, rfl, fun i hi => if_neg fun h => by have := (hindices i).1 h.2; omega,
      fun g hg => hother g (hw.apart g hg).1, fun f hf => ⟨⟨hf.used, hf.ne_root, by simp,
        by simpa using ⟨hf.not_retired, hf.not_table⟩, hf.not_kernel⟩, hother f hf.ne_root⟩⟩
  have hslot : ∀ i, slot { s with
      entry := fun f i => if f = s.root ∧ i ∈ indices then 0 else s.entry f i
      runtimeTables := []
      retired := s.retired ++ s.runtimeTables } s.root i = none := by
    intro i
    unfold slot
    split_ifs with hi
    · have hzero : (if s.root = s.root ∧ i ∈ indices then 0 else s.entry s.root i) = 0 :=
        if_pos ⟨rfl, (hindices i).2 (hi.2 rfl)⟩
      exact (congrArg tableTarget hzero).trans tableTarget_zero
    · rfl
  refine ⟨⟨fun _ => [], ?_⟩, hsame, fun a _ => ?_⟩
  · refine ⟨.bare rfl hslot (by simp), by simp, ?_, by simp, .nil, ?_, ?_, ?_, hw.free_ram, ?_, hsame.kernel hw,
      hsame.ofKernelRoot hw⟩
    · intro f hf _ i _ hroot
      obtain rfl : f = s.root := by simpa using hf
      exact .inl (if_pos ⟨rfl, (hindices i).2 (hroot rfl)⟩)
    · intro f hf
      rcases List.mem_append.1 hf with hf | hf
      · exact ⟨(hw.retired_not f hf).1, by simp⟩
      · exact ⟨hw.tree.ne_root hf, by simp⟩
    · exact fun f hf => hw.used f (by simp only [List.not_mem_nil, List.mem_append] at hf; tauto)
    · exact fun f hf => hw.in_ram f (by simp only [List.not_mem_nil, List.mem_append] at hf; tauto)
    · intro g hg
      obtain ⟨h₁, h₂, h₃, h₄⟩ := hw.apart g hg
      exact ⟨h₁, by simp, by simp [h₂, h₃], h₄⟩
  · simp [leafRaw, leafTable, walk, hslot]

/-- Freeing the retired tables touches nothing that the table still uses. -/
theorem Wf.freeRetired_spec (hw : Wf s place) : wp freeRetired s
    (fun _ t => Wf t place ∧ KernelSame s t ∧ t.runtimeTables = s.runtimeTables ∧ ∀ a, leafRaw t a = leafRaw s a)
    (fun _ _ => False) := by
  unfold freeRetired
  rw [wp_modify, freeTables_eq]
  have hsame : KernelSame s { s with free := fun f => decide (f ∈ s.retired) || s.free f, retired := [] } :=
    ⟨rfl, rfl, rfl, rfl, fun _ _ => rfl, fun _ _ => rfl, fun f hf =>
      ⟨⟨by simp [hf.not_retired, hf.used], hf.ne_root, hf.not_table, by simp, hf.not_kernel⟩, rfl⟩⟩
  refine ⟨⟨hw.tree, hw.depth, hw.interior, hw.leaves, hw.nodup, by simp, ?_, ?_, ?_, ?_, hw.kernel, hw.kernelRoot⟩, hsame,
    rfl,
    fun _ => rfl⟩
  · intro f hf
    have hnot : f ∉ s.retired := fun h => by
      have := hw.retired_not f h
      simp only [List.not_mem_nil, or_false] at hf
      tauto
    have := hw.used f (by simp only [List.not_mem_nil, or_false] at hf; tauto)
    simp [hnot, this]
  · exact fun f hf => hw.in_ram f (by simp only [List.not_mem_nil, or_false] at hf; tauto)
  · intro f hf
    rcases Bool.or_eq_true_iff.1 hf with h | h
    · exact hw.in_ram f (.inr (.inr (of_decide_eq_true h)))
    · exact hw.free_ram f h
  · intro g hg
    obtain ⟨h₁, h₂, h₃, h₄⟩ := hw.apart g hg
    exact ⟨h₁, h₂, by simp, by simp [h₃, h₄]⟩

/-! ### A new table -/

structure KernelReady (s : PageTableState) : Prop where
  free_ram : ∀ f, s.free f = true → s.ram f = true
  used : ∀ g, s.kernelOwned g = true → s.free g = false
  kernelRoot : s.kernelOwned s.kernelRoot = true ∧ s.ram s.kernelRoot = true ∧ KernelHalf s s.kernelRoot

theorem KernelReady.newRoot (hk : KernelReady s) {f : Nat} (h : Allocated s t [f]) :
    Wf { t with root := f, runtimeTables := [], retired := [] } fun _ => [] := by
  have hfree := h.was_free f (by simp)
  have hne : ∀ g, s.kernelOwned g = true → g ≠ f := fun g hg hgf => by
    have := hk.used g hg
    simp [hgf, hfree] at this
  have hentry : ∀ g, s.kernelOwned g = true → t.entry g = s.entry g := fun g hg => h.entry g (by simpa using hne g hg)
  have hzero := h.zero f (by simp)
  have hram : t.ram = s.ram := h.agrees.ram
  refine ⟨.bare rfl (slot_eq_none fun j _ => .inl (hzero j)) (by simp), by simp, ?_, by simp, .nil, by simp, ?_, ?_,
    ?_, ?_, ?_, ?_, ?_, ?_⟩
  · intro g hg _ i _ _
    obtain rfl : g = f := by simpa using hg
    exact .inl (hzero i)
  · intro g hg
    obtain rfl : g = f := by simpa using hg
    rw [h.free_eq g]
    simp
  · intro g hg
    obtain rfl : g = f := by simpa using hg
    exact hram ▸ hk.free_ram g hfree
  · intro g hg
    exact hram ▸ hk.free_ram g ((h.free g).1 hg).1
  · intro g hg
    have hg' : s.kernelOwned g = true := h.agrees.owned ▸ hg
    refine ⟨hne g hg', by simp, by simp, ?_⟩
    exact h.agrees.free g (hk.used g hg')
  · intro i _ _ g hg
    have : tableTarget (t.entry f i) = some g := hg
    rw [hzero i] at this
    exact nomatch this
  · show t.kernelOwned t.kernelRoot = true
    rw [h.agrees.owned, h.agrees.kernelRoot]
    exact hk.kernelRoot.1
  · show t.ram t.kernelRoot = true
    rw [hram, h.agrees.kernelRoot]
    exact hk.kernelRoot.2.1
  · intro i hi hi' g hg
    have hg' : tableTarget (t.entry t.kernelRoot i) = some g := hg
    rw [h.agrees.kernelRoot, hentry _ hk.kernelRoot.1] at hg'
    obtain ⟨hown, hbelow⟩ := hk.kernelRoot.2.2 i hi hi' g hg'
    show t.kernelOwned g = true ∧ ∀ j < 512, ∀ g', tableTarget (t.entry g j) = some g' → t.kernelOwned g' = true
    rw [h.agrees.owned, hentry g hown]
    exact ⟨hown, hbelow⟩

theorem KernelReady.newUser_spec (hk : KernelReady s) : wp newUser s (fun _ t => ∃ place, Wf t place)
    (fun _ _ => True) := by
  unfold newUser
  rw [wp_bind]
  have h₀ : Allocated s s [] := .nil (.refl s) rfl rfl
  refine (allocateZeroedTable_spec h₀).mono ?_ fun _ _ h => h.elim
  rintro (_ | f) t h
  · exact wp_throw.2 trivial
  · simp only [wp_onError, wp_bind, wp_modify]
    exact (hk.newRoot h).synchronizeKernelMappings_spec.mono (fun _ _ h => h.wf) fun _ _ _ => trivial

/-! ### Histories -/

structure KernelStep (s t : PageTableState) : Prop where
  root : t.root = s.root
  ram : t.ram = s.ram
  tables : t.runtimeTables = s.runtimeTables
  retired : t.retired = s.retired
  entry : ∀ f, f = s.root ∨ f ∈ s.runtimeTables → ∀ i, (f = s.root → i < 256) → t.entry f i = s.entry f i
  used : ∀ f, f = s.root ∨ f ∈ s.runtimeTables ∨ f ∈ s.retired → t.free f = false
  free_ram : ∀ f, t.free f = true → t.ram f = true
  apart : ∀ g, t.kernelOwned g = true → g ≠ s.root ∧ g ∉ s.runtimeTables ∧ g ∉ s.retired ∧ t.free g = false
  kernel : KernelHalf t t.root
  kernelRoot : t.kernelOwned t.kernelRoot = true ∧ t.ram t.kernelRoot = true ∧ KernelHalf t t.kernelRoot

/-- A step is a call with the answers the environment gives to it, or a step of the rest of the kernel. -/
inductive TableLabel
  | call (choices : List (Option Nat)) (reserves : List Bool) (op : TableOp)
  | kernel

def system : TransitionSystem PageTableState TableLabel where
  init t := ∃ s, KernelReady s ∧ newUser s = .ok () t
  step s label t :=
    match label with
    | .call choices reserves op =>
      (∃ r, op.exec { s with choices := choices, reserves := reserves } = .ok r t) ∨
        ∃ e, op.exec { s with choices := choices, reserves := reserves } = .error e t
    | .kernel => KernelStep s t

theorem KernelStep.wf (h : KernelStep s t) (hw : Wf s place) : Wf t place := by
  have hslot : ∀ f, f = s.root ∨ f ∈ s.runtimeTables → ∀ i, slot t f i = slot s f i := by
    intro f hf i
    unfold slot
    rw [h.root]
    by_cases hi : i < 512 ∧ (f = s.root → i < 256)
    · rw [if_pos hi, if_pos hi, h.entry f hf i hi.2]
    · rw [if_neg hi, if_neg hi]
  refine ⟨?_, h.tables ▸ hw.depth, ?_, ?_, h.tables ▸ hw.nodup, ?_, ?_, ?_, h.free_ram, ?_, h.kernel, h.kernelRoot⟩
  · rw [h.root, h.tables]
    exact hw.tree.congr hslot
  · intro f hf hp i hi hroot
    rw [h.root, h.tables] at hf
    rw [h.root] at hroot
    rw [h.entry f hf i hroot]
    exact hw.interior f hf hp i hi hroot
  · intro f hf hp i hi
    rw [h.tables] at hf
    rw [h.entry f (.inr hf) i fun hr => absurd hr (hw.tree.ne_root hf)]
    exact hw.leaves f hf hp i hi
  · rw [h.root, h.tables, h.retired]
    exact hw.retired_not
  · rw [h.root, h.tables, h.retired]
    exact h.used
  · rw [h.root, h.tables, h.retired, h.ram]
    exact hw.in_ram
  · rw [h.root, h.tables, h.retired]
    exact h.apart

theorem Wf.answers (hw : Wf s place) (c : List (Option Nat)) (r : List Bool) :
    Wf { s with choices := c, reserves := r } place :=
  ⟨hw.tree, hw.depth, hw.interior, hw.leaves, hw.nodup, hw.retired_not, hw.used, hw.in_ram, hw.free_ram,
    hw.apart, hw.kernel,
    hw.kernelRoot⟩

/-- Every call leaves a well-formed table, whether it succeeds or not. -/
theorem Wf.exec_wf (hw : Wf s place) (op : TableOp) :
    wp op.exec s (fun _ t => ∃ place, Wf t place) (fun _ t => ∃ place, Wf t place) := by
  cases op with
  | mapPage page frame options =>
    exact wp_map.2 (hw.mapPage_spec.mono (fun _ _ ⟨_, _, _, _, h⟩ => h.wf) fun _ _ h => h.wf)
  | protectPage page options =>
    exact wp_map.2 (hw.protectPage_spec.mono (fun _ _ ⟨_, _, _, _, h⟩ => h.wf) fun _ _ h => h.1 ▸ ⟨place, hw⟩)
  | replacePage page frame options =>
    exact wp_map.2 (hw.replacePage_spec.mono (fun _ _ ⟨_, _, _, _, _, h⟩ => h.wf) fun _ _ h => h.1 ▸ ⟨place, hw⟩)
  | unmapPage page => exact wp_map.2 (hw.unmapPage_spec.mono (fun _ _ h => h.2.2.2.wf) fun _ _ h => h.1 ▸ ⟨place, hw⟩)
  | reclaimEmptyTables page =>
    exact wp_map.2 (hw.reclaimEmptyTables_spec.mono (fun _ _ h => h.leads.wf) fun _ _ h => h.1 ▸ ⟨place, hw⟩)
  | synchronizeKernelMappings =>
    exact wp_map.2 (hw.synchronizeKernelMappings_spec.mono (fun _ _ h => h.wf) fun _ _ h => h.elim)
  | retireAllPrivateTables => exact wp_map.2 (hw.retireAll_spec.mono (fun _ _ h => h.1) fun _ _ h => h.elim)
  | freeRetired => exact wp_map.2 (hw.freeRetired_spec.mono (fun _ _ h => ⟨place, h.1⟩) fun _ _ h => h.elim)

theorem reachable_wf (h : system.Reachable s) : ∃ place, Wf s place := by
  refine h.invariant (I := fun s => ∃ place, Wf s place) ?_ ?_
  · rintro t ⟨s, hk, hnew⟩
    exact hk.newUser_spec.ok hnew
  · rintro s (⟨c, r, op⟩ | _) t ⟨place, hw⟩ hstep
    · rcases hstep with ⟨_, hok⟩ | ⟨_, herr⟩
      · exact ((hw.answers c r).exec_wf op).ok hok
      · exact ((hw.answers c r).exec_wf op).error herr
    · exact ⟨place, KernelStep.wf hstep hw⟩

end RuntimePageTable

end SudoOS
