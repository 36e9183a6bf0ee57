import SudoOS.Kernel.Dma
import SudoOS.Theorems.PageTableShape

/-! Which buffers a device sees where the processor sees them. -/

namespace SudoOS

open RuntimePageTable PageTableEntry

variable {s : PageTableState} {a b address size p : Nat}

def hardwareWalk (s : PageTableState) (a : Nat) : (remaining level current : Nat) → Option Nat
  | 0, level, current =>
    match s.readEntry current (pageIndex a level) with
    | .ok raw => if isLeaf raw then some (ppn raw) else none
    | .error _ => none
  | remaining + 1, level, current =>
    match s.readEntry current (pageIndex a level) with
    | .ok raw =>
      if isLeaf raw then
        if ppn raw % 512 ^ (remaining + 1) = 0 then some (ppn raw + a / 4096 % 512 ^ (remaining + 1)) else none
      else (tableTarget raw).bind (hardwareWalk s a remaining (level + 1))
    | .error _ => none

def hardwareFrame (s : PageTableState) (a : Nat) : Option Nat :=
  if isCanonical a then hardwareWalk s a (levels - 1) 0 s.root else none

def hardwareTranslate (s : PageTableState) (a : Nat) : Option Nat := (hardwareFrame s a).map fun f => f * 4096 + a % 4096

theorem hardwareWalk_of_page (h : a / 4096 = b / 4096) (remaining level current : Nat) :
    hardwareWalk s a remaining level current = hardwareWalk s b remaining level current := by
  induction remaining generalizing level current with
  | zero => rw [hardwareWalk, hardwareWalk, pageIndex_eq_of_page h]
  | succ remaining ih =>
    have hnext : hardwareWalk s a remaining (level + 1) = hardwareWalk s b remaining (level + 1) :=
      funext fun next => ih _ next
    rw [hardwareWalk, hardwareWalk, pageIndex_eq_of_page h, h, hnext]

theorem hardwareFrame_of_page (h : a / 4096 = b / 4096) : hardwareFrame s a = hardwareFrame s b := by
  have hcanonical : isCanonical a ↔ isCanonical b := by
    unfold isCanonical userEnd kernelCanonicalStart
    omega
  unfold hardwareFrame
  rw [hardwareWalk_of_page h, if_congr hcanonical rfl rfl]

theorem descend_eq_ok {level raw next : Nat} (h : descend level raw = .ok next) :
    isLeaf raw = false ∧ tableTarget raw = some next := by
  unfold descend at h
  split_ifs at h with hleaf htable
  rw [Bool.not_eq_true] at hleaf
  rw [Bool.not_eq_true, Bool.not_eq_false'] at htable
  refine ⟨hleaf, ?_⟩
  rw [tableTarget, if_pos htable]
  cases hframe : frame raw with
  | none => simp [hframe] at h
  | some f => simpa [hframe] using h

theorem translateLoop_hardware {remaining level current : Nat}
    (h : translateLoop s a remaining level current = .ok (some p)) :
    (hardwareWalk s a remaining level current).map (fun f => f * 4096 + a % 4096) = some p := by
  induction remaining generalizing level current with
  | zero =>
    cases hread : s.readEntry current (pageIndex a level) with
    | error e => simp [translateLoop, hread, bind, Except.bind] at h
    | ok raw =>
      simp only [translateLoop, hread, bind, Except.bind] at h
      split_ifs at h with hzero hleaf
      · cases h
      · rw [Bool.not_eq_true, Bool.not_eq_false'] at hleaf
        have hsum := (checkedAdd_eq_some.1 (Except.ok.inj h)).2
        have hphys : physicalAddress raw = ppn raw * 4096 := Nat.shiftLeft_eq _ _
        simp only [hardwareWalk, hread, hleaf, if_true, Option.map_some, ← hsum, hphys, pageSize]
  | succ remaining ih =>
    cases hread : s.readEntry current (pageIndex a level) with
    | error e => simp [translateLoop, hread, bind, Except.bind] at h
    | ok raw =>
      simp only [translateLoop, hread, bind, Except.bind] at h
      split_ifs at h with hzero
      · cases h
      · cases hnext : descend level raw with
        | error e => simp [hnext] at h
        | ok next =>
          rw [hnext] at h
          obtain ⟨hleaf, htarget⟩ := descend_eq_ok hnext
          simp only [hardwareWalk, hread, hleaf, htarget, Option.bind_some, Bool.false_eq_true, if_false]
          exact ih h

theorem translate_hardware (h : translate s a = .ok (some p)) : hardwareTranslate s a = some p := by
  unfold RuntimePageTable.translate at h
  split_ifs at h with hcanonical
  rw [hardwareTranslate, hardwareFrame, if_pos hcanonical]
  exact translateLoop_hardware h

def EndsAgree (s : PageTableState) (address size p : Nat) : Prop :=
  address + (size - 1) < usizeLimit ∧ p + (size - 1) < usizeLimit ∧ translate s address = .ok (some p) ∧
    translate s (address + (size - 1)) = .ok (some (p + (size - 1)))

theorem kernelTranslate_eq_some : kernelTranslate (some s) a = some p ↔ translate s a = .ok (some p) := by
  unfold kernelTranslate
  cases h : translate s a <;> simp [h]

theorem translateKernelContiguous_eq_some (hsize : 0 < size) :
    translateKernelContiguous (some s) address size = some p ↔ EndsAgree s address size p := by
  have hne : size ≠ 0 := by omega
  simp only [translateKernelContiguous, hne, if_false, Option.bind_eq_bind, Option.bind_eq_some_iff, checkedAdd_eq_some,
    kernelTranslate_eq_some, Option.ite_none_right_eq_some, Option.some.injEq, EndsAgree]
  constructor
  · rintro ⟨_, ⟨hend, rfl⟩, _, hstart, _, hlast, _, ⟨hlt, rfl⟩, rfl, rfl⟩
    exact ⟨hend, hlt, hstart, hlast⟩
  · rintro ⟨hend, hlt, hstart, hlast⟩
    exact ⟨_, ⟨hend, rfl⟩, _, hstart, _, hlast, _, ⟨hlt, rfl⟩, rfl, rfl⟩

/-- A device that is given the address of a buffer sees what the processor sees, byte for byte. -/
def DmaExact (s : PageTableState) (address size : Nat) : Prop :=
  ∀ p, virtualToPhysical (some s) address size = some p → ∀ i < size, hardwareTranslate s (address + i) = some (p + i)

def Linear (s : PageTableState) (address size base physBase : Nat) : Prop :=
  0 < size → ∀ page, address / 4096 ≤ page → page ≤ (address + (size - 1)) / 4096 →
    hardwareFrame s (page * 4096) = some (physBase / 4096 + (page - base / 4096))

def InnerContiguous (s : PageTableState) (address size p : Nat) : Prop :=
  ∀ page, address / 4096 < page → page < (address + (size - 1)) / 4096 →
    hardwareFrame s (page * 4096) = some (p / 4096 + (page - address / 4096))

/-- A buffer in the direct map or the kernel image is mapped there by arithmetic; any other buffer whose ends agree has its
inner pages in the frames between. -/
def Contiguous (s : PageTableState) (address size : Nat) : Prop :=
  if rangeFits address size directMap then Linear s address size directMap.start 0
  else if rangeFits address size kernelImage then Linear s address size kernelLinkBase kernelPhysBase
  else 0 < size → ∀ p, EndsAgree s address size p → InnerContiguous s address size p

theorem hardwareTranslate_eq_some : hardwareTranslate s a = some p ↔
    ∃ f, hardwareFrame s (a / 4096 * 4096) = some f ∧ f * 4096 + a % 4096 = p := by
  have hpage : hardwareFrame s (a / 4096 * 4096) = hardwareFrame s a := hardwareFrame_of_page (by omega)
  simp [hardwareTranslate, hpage]

theorem linear_iff {base physBase : Nat} (hbase : base % 4096 = 0) (hphys : physBase % 4096 = 0) (hle : base ≤ address) :
    Linear s address size base physBase ↔
      ∀ i < size, hardwareTranslate s (address + i) = some (physBase + (address - base) + i) := by
  constructor
  · intro h i hi
    refine hardwareTranslate_eq_some.2 ⟨_, h (by omega) _ (by omega) (by omega), by omega⟩
  · intro h hsize page hlow hhigh
    have hi : max address (page * 4096) - address < size := by omega
    obtain ⟨f, hf, hsum⟩ := hardwareTranslate_eq_some.1 (h _ hi)
    have hpage : (address + (max address (page * 4096) - address)) / 4096 = page := by omega
    rw [hpage] at hf
    rw [hf]
    congr 1
    omega

theorem byte_of_page {f i k : Nat} (h : f * 4096 + (a + k) % 4096 = p + k) (hpage : (a + i) / 4096 = (a + k) / 4096) :
    f * 4096 + (a + i) % 4096 = p + i := by omega

theorem byte_of_following {f i : Nat} (h : f * 4096 + a % 4096 = p) :
    (p / 4096 + ((a + i) / 4096 - a / 4096)) * 4096 + (a + i) % 4096 = p + i := by
  have hframe : p / 4096 = f := by omega
  have hle : a / 4096 ≤ (a + i) / 4096 := Nat.div_le_div_right (Nat.le_add_right a i)
  have hbyte : (a / 4096 + ((a + i) / 4096 - a / 4096)) * 4096 + (a + i) % 4096 = a + i := by
    rw [Nat.add_sub_cancel' hle, Nat.div_add_mod']
  rw [hframe]
  linarith [Nat.div_add_mod' a 4096]

theorem innerContiguous_iff (hsize : 0 < size) (h : EndsAgree s address size p) :
    InnerContiguous s address size p ↔ ∀ i < size, hardwareTranslate s (address + i) = some (p + i) := by
  obtain ⟨-, -, hstart, hlast⟩ := h
  obtain ⟨f, hf, hfirst⟩ := hardwareTranslate_eq_some.1 (translate_hardware hstart)
  obtain ⟨g, hg, hend⟩ := hardwareTranslate_eq_some.1 (translate_hardware hlast)
  constructor
  · intro hinner i hi
    rw [hardwareTranslate_eq_some]
    -- The checks of the code cover the first and the last page only.
    by_cases hlow : (address + i) / 4096 = address / 4096
    · exact ⟨f, hlow ▸ hf, byte_of_page (k := 0) hfirst hlow⟩
    · by_cases hhigh : (address + i) / 4096 = (address + (size - 1)) / 4096
      · exact ⟨g, hhigh ▸ hg, byte_of_page hend hhigh⟩
      · exact ⟨_, hinner _ (by omega) (by omega), byte_of_following hfirst⟩
  · intro hall page hlow hhigh
    obtain ⟨k, hk, hsum⟩ := hardwareTranslate_eq_some.1 (hall (page * 4096 - address) (by omega))
    have hpage : (address + (page * 4096 - address)) / 4096 = page := by omega
    rw [hpage] at hk
    rw [hk]
    congr 1
    omega

theorem directToPhys_of_fits (h : rangeFits address size directMap) :
    directToPhys address = some (address - directMap.start) ∧ directMap.start ≤ address := by
  obtain ⟨_, -, hin, -⟩ := h
  exact ⟨if_neg (not_not.2 hin), hin.1⟩

theorem imagePhysical_of_fits (h : rangeFits address size kernelImage) :
    kernelImagePhysicalAddress address = some (kernelPhysBase + (address - kernelLinkBase)) ∧ kernelLinkBase ≤ address := by
  obtain ⟨_, -, hin, -⟩ := h
  have hstart : kernelImage.start = kernelLinkBase := rfl
  have hend : kernelImage.end_ < usizeLimit := by decide
  have hle : kernelLinkBase ≤ address := hstart ▸ hin.1
  have hlt : address < usizeLimit := Nat.lt_trans hin.2 hend
  have hsum : kernelPhysBase + (address - kernelLinkBase) < usizeLimit := by
    unfold kernelPhysBase kernelLinkBase
    unfold kernelLinkBase at hle
    unfold usizeLimit at hlt ⊢
    omega
  rw [kernelImagePhysicalAddress, if_neg (not_not.2 hin), checkedSub_eq_some.2 ⟨hle, rfl⟩, Option.bind_some,
    checkedAdd_eq_some.2 ⟨hsum, rfl⟩]
  exact ⟨rfl, hle⟩

/-- The address given to a device is right for a whole buffer exactly if the pages that the kernel does not look at are
where the ends say. -/
theorem dma_exact_iff_contiguous (s : PageTableState) (address size : Nat) :
    DmaExact s address size ↔ Contiguous s address size := by
  unfold DmaExact Contiguous virtualToPhysical
  split_ifs with hdirect himage
  · obtain ⟨hphys, hle⟩ := directToPhys_of_fits hdirect
    rw [linear_iff (by decide) (by decide) hle, hphys]
    simp
  · obtain ⟨hphys, hle⟩ := imagePhysical_of_fits himage
    rw [linear_iff (by decide) (by decide) hle, hphys]
    simp
  · rcases Nat.eq_zero_or_pos size with rfl | hsize
    · simp
    · simp only [translateKernelContiguous_eq_some hsize, hsize, true_implies]
      exact forall_congr' fun p => ⟨fun h hends => (innerContiguous_iff hsize hends).2 (h hends), fun h hends =>
        (innerContiguous_iff hsize hends).1 (h hends)⟩

def scatteredTable : PageTableState where
  entry f i :=
    if f = 1 ∧ i = 280 then 2 <<< 10 ||| 1
    else if f = 2 ∧ i = 0 then 3 <<< 10 ||| 1
    else if f = 3 ∧ i = 1 then 64 <<< 10 ||| 0xe7
    else if f = 3 ∧ i = 2 then 80 <<< 10 ||| 0xe7
    else if f = 3 ∧ i = 3 then 66 <<< 10 ||| 0xe7
    else 0
  ram _ := true
  free _ := false
  choices := []
  reserves := []
  kernelRoot := 1
  kernelOwned _ := true
  root := 1
  runtimeTables := [2, 3]
  retired := []

/-- A buffer of three pages is shared with a device although its middle page lies elsewhere. -/
theorem dma_scattered : virtualToPhysical (some scatteredTable) 0xffff_ffc6_0000_1000 0x3000 = some 0x40000 ∧
    hardwareTranslate scatteredTable (0xffff_ffc6_0000_1000 + 0x1000) = some 0x50000 := by
  decide +kernel

end SudoOS
