import SudoOS.Theorems.Layout

/-! The search for room is a first fit: everything aligned below the candidate has been ruled out by an area that was
met. -/

namespace SudoOS

section align
variable {a b r alignment : Nat}

theorem isPowerOfTwo_eq (h : isPowerOfTwo alignment = true) : ∃ k, alignment = 2 ^ k := by
  obtain ⟨hne, hand⟩ : alignment ≠ 0 ∧ alignment &&& (alignment - 1) = 0 := by simpa [isPowerOfTwo] using h
  exact (Nat.and_sub_one_eq_zero_iff_isPowerOfTwo hne).1 hand

theorem isPowerOfTwo_dvd {n : Nat} (h : isPowerOfTwo alignment = true) (hle : alignment ≤ 2 ^ n) :
    0 < alignment ∧ alignment ∣ 2 ^ n := by
  obtain ⟨k, rfl⟩ := isPowerOfTwo_eq h
  exact ⟨Nat.two_pow_pos k, Nat.pow_dvd_pow 2 ((Nat.pow_le_pow_iff_right Nat.one_lt_two).1 hle)⟩

/-- A multiple above another one is at least one step away. -/
theorem add_le_of_dvd_of_lt (ha : alignment ∣ a) (hb : alignment ∣ b) (hlt : a < b) : a + alignment ≤ b := by
  have := Nat.le_of_dvd (Nat.sub_pos_of_lt hlt) (Nat.dvd_sub hb ha)
  omega

/-- Rounding up gives the least multiple that is not below. -/
theorem alignUp_eq_some (h : alignUp a alignment = some r) : alignment ∣ r ∧ a ≤ r ∧ ∀ b, alignment ∣ b →
    a ≤ b → r ≤ b := by
  unfold alignUp at h
  split_ifs at h with hpow
  have hpos : 0 < alignment := by
    rw [isPowerOfTwo, Bool.and_eq_true, bne_iff_ne] at hpow
    exact Nat.pos_of_ne_zero hpow.1
  obtain ⟨sum, hsum, rfl⟩ := Option.map_eq_some_iff.1 h
  obtain ⟨-, rfl⟩ := checkedAdd_eq_some.1 hsum
  have hmod := Nat.mod_lt (a + (alignment - 1)) hpos
  have hdvd : alignment ∣ a + (alignment - 1) - (a + (alignment - 1)) % alignment := Nat.dvd_sub_mod _
  refine ⟨hdvd, by omega, fun b hb hab => ?_⟩
  by_contra hlt
  have := add_le_of_dvd_of_lt hb hdvd (Nat.lt_of_not_le hlt)
  omega

/-- Where rounding up overflows, no multiple is left below the limit. -/
theorem alignUp_eq_none (hpow : isPowerOfTwo alignment = true) (hlt : alignment < usizeLimit)
    (h : alignUp a alignment = none) (hb : alignment ∣ b) (hab : a ≤ b) : usizeLimit ≤ b := by
  rw [alignUp, if_pos hpow, Option.map_eq_none_iff, checkedAdd] at h
  split_ifs at h with hsum
  obtain ⟨hpos, hdvd⟩ : 0 < alignment ∧ alignment ∣ usizeLimit := isPowerOfTwo_dvd hpow (Nat.le_of_lt hlt)
  by_contra hbelow
  have := add_le_of_dvd_of_lt hb hdvd (Nat.lt_of_not_le hbelow)
  omega

end align

namespace VmAreaSet

/-- A range of `size` bytes at an aligned address of the window that overlaps no area. -/
structure Fits (areas : List VmArea) (search : VirtRange) (size alignment start : Nat) : Prop where
  aligned : alignment ∣ start
  above : search.start ≤ start
  below : start + size ≤ search.end_
  clear : ∀ a ∈ areas, start + size ≤ a.range.start ∨ a.range.end_ ≤ start

section fits
variable {areas : List VmArea} {search : VirtRange} {size alignment candidate capacity : Nat}

theorem fromStartSize_eq_none (h : VirtRange.fromStartSize candidate size = none) : usizeLimit ≤ candidate + size := by
  by_contra hlt
  have hadd : checkedAdd candidate size = some (candidate + size) := if_pos (Nat.lt_of_not_le hlt)
  rw [VirtRange.fromStartSize, hadd, Option.bind_some, VirtRange.new_eq_none] at h
  omega

theorem fromStartSize_eq_some {r : VirtRange} (h : VirtRange.fromStartSize candidate size = some r) :
    r.start = candidate ∧ r.end_ = candidate + size := by
  obtain ⟨sum, hsum, hnew⟩ := Option.bind_eq_some_iff.1 h
  obtain ⟨-, rfl⟩ := checkedAdd_eq_some.1 hsum
  exact VirtRange.new_eq_some.1 hnew

def FirstFit (areas : List VmArea) (search : VirtRange) (size alignment candidate : Nat) : Except VmAreaError VirtRange →
    Prop
  | .ok gap => gap.end_ = gap.start + size ∧ IsLeast {start | candidate ≤ start ∧
    Fits areas search size alignment start} gap.start
  | .error _ => ∀ start, candidate ≤ start → ¬Fits areas search size alignment start

theorem FirstFit.congr {areas' : List VmArea} {candidate' : Nat} {result : Except VmAreaError VirtRange}
    (h : FirstFit areas' search size alignment candidate' result)
    (hiff : ∀ start, candidate ≤ start ∧ Fits areas search size alignment start ↔
      candidate' ≤ start ∧ Fits areas' search size alignment start) : FirstFit areas search size alignment
      candidate result := by
  cases result with
  | ok gap => exact ⟨h.1, (hiff _).2 h.2.1, fun start hstart => h.2.2 ((hiff _).1 hstart)⟩
  | error e => exact fun start hle hfits => h start ((hiff _).1 ⟨hle, hfits⟩).1 ((hiff _).1 ⟨hle, hfits⟩).2

theorem FirstFit.of_gap {gap : VirtRange} (hs : gap.start = candidate) (he : gap.end_ = candidate + size)
    (hin : search.containsRange gap) (haligned : alignment ∣ candidate)
    (hclear : ∀ a ∈ areas, candidate + size ≤ a.range.start ∨ a.range.end_ ≤ candidate) :
    FirstFit areas search size alignment candidate (.ok gap) := by
  subst hs
  exact ⟨he, ⟨Nat.le_refl _, haligned, hin.1, he ▸ hin.2, hclear⟩, fun start hstart => hstart.1⟩

theorem findFreeLoop_firstFit (hpow : isPowerOfTwo alignment = true) (hlt : alignment < usizeLimit)
    (hsearch : search.end_ < usizeLimit) (hvalid : ∀ a ∈ areas, a.range.start < a.range.end_)
    (hsorted : areas.Pairwise fun a b => a.range.end_ ≤ b.range.start) (haligned : alignment ∣ candidate)
    (habove : search.start ≤ candidate) :
    FirstFit areas search size alignment candidate (findFreeLoop search size alignment areas candidate) := by
  induction areas generalizing candidate with
  | nil =>
    unfold findFreeLoop
    split
    · rename_i hnone
      have := fromStartSize_eq_none hnone
      intro start hle hfits
      have := hfits.below
      omega
    · rename_i gap hgap
      obtain ⟨hs, he⟩ := fromStartSize_eq_some hgap
      split_ifs with hin
      · exact .of_gap hs he hin haligned fun a ha => absurd ha List.not_mem_nil
      · intro start hle hfits
        have := hfits.below
        exact hin ⟨by omega, by omega⟩
  | cons area rest ih =>
    obtain ⟨hbefore, hrest⟩ := List.pairwise_cons.1 hsorted
    have hne := hvalid area List.mem_cons_self
    have ih {c : Nat} (hc : alignment ∣ c) (hle : search.start ≤ c) :=
      ih (fun a ha => hvalid a (List.mem_cons_of_mem _ ha)) hrest hc hle
    -- from a candidate behind the area on, the area is no obstacle
    have hskip {c c' : Nat} (hc : area.range.end_ ≤ c') (hsame : ∀ start, c ≤ start ∧
      Fits (area :: rest) search size alignment start →
        c' ≤ start) (hcc : c ≤ c') : ∀ start, c ≤ start ∧ Fits (area :: rest) search size alignment start ↔
          c' ≤ start ∧ Fits rest search size alignment start := by
      refine fun start => ⟨fun h => ⟨hsame start h, h.2.aligned, h.2.above, h.2.below, fun a ha => ?_⟩,
        fun h => ⟨by omega, ?_⟩⟩
      · exact h.2.clear a (List.mem_cons_of_mem _ ha)
      · refine ⟨h.2.aligned, h.2.above, h.2.below, fun a ha => ?_⟩
        obtain rfl | ha := List.mem_cons.1 ha
        · exact .inr (by omega)
        · exact h.2.clear a ha
    unfold findFreeLoop
    split_ifs with hbehind
    · exact (ih haligned habove).congr (hskip hbehind (fun start h => h.1) (Nat.le_refl _))
    · split
      · rename_i hnone
        have := fromStartSize_eq_none hnone
        intro start hle hfits
        have := hfits.below
        omega
      · rename_i gap hgap
        obtain ⟨hs, he⟩ := fromStartSize_eq_some hgap
        split_ifs with hin
        · obtain ⟨hin, hclear⟩ := hin
          have hgap : gap.end_ ≤ area.range.start := by
            by_contra hover
            exact hclear ⟨by omega, by omega⟩
          refine .of_gap hs he hin haligned fun a ha => .inl ?_
          obtain rfl | ha := List.mem_cons.1 ha
          · omega
          · have := hbefore a ha
            omega
        · -- an aligned address between the candidate and the end of the area overlaps it, or is too high for the window
          have hruled : ∀ start, candidate ≤ start ∧ Fits (area :: rest) search size alignment start →
            area.range.end_ ≤ start := by
            rintro start ⟨hle, hfits⟩
            have hbelow := hfits.below
            obtain hlow | hhigh := hfits.clear area List.mem_cons_self
            · exact absurd ⟨⟨by omega, by omega⟩, fun hover => by have := hover.2; omega⟩ hin
            · exact hhigh
          split
          · rename_i hnone
            intro start hle hfits
            have := alignUp_eq_none hpow hlt hnone hfits.aligned (hruled start ⟨hle, hfits⟩)
            have := hfits.below
            omega
          · rename_i next hnext
            obtain ⟨hdvd, hle, hleast⟩ := alignUp_eq_some hnext
            refine (ih hdvd (by omega)).congr (hskip hle (fun start h => ?_) (by omega))
            exact hleast start h.2.aligned (hruled start h)

def pageRounded (size : Nat) : Nat := (size + 4095) / 4096 * 4096

theorem alignUp_pageRounded (size : Nat) :
    alignUp size pageSize = if size + 4095 < usizeLimit then some (pageRounded size) else none := by
  rw [alignUp_pageSize]
  have : size + 4095 - (size + 4095) % 4096 = pageRounded size := by
    unfold pageRounded
    omega
  rw [this]

theorem eq_pageRounded {pages : Nat} (h : alignUp size pageSize = some pages) : pages = pageRounded size := by
  rw [alignUp_pageRounded] at h
  exact (Option.some.inj (Option.ite_none_right_eq_some.1 h).2).symm

theorem le_pageRounded (h : alignUp size pageSize = none) : usizeLimit ≤ pageRounded size := by
  rw [alignUp_pageRounded, ite_eq_right_iff] at h
  have hover : usizeLimit ≤ size + 4095 := Nat.le_of_not_lt fun hlt => Option.some_ne_none _ (h hlt)
  unfold pageRounded usizeLimit at *
  omega

theorem findFreeRange_firstFit {s : VmAreaSet} (hw : Ordered capacity s.areas) (hsearch : search.end_ < usizeLimit)
    (hsize : 0 < size)
    (hpow : isPowerOfTwo alignment = true) (hpage : pageSize ≤ alignment) (hlt : alignment < usizeLimit) :
    FirstFit s.areas search (pageRounded size) alignment search.start (s.findFreeRange search size alignment) := by
  have hargs : ¬(alignment < pageSize ∨ (!isPowerOfTwo alignment) = true) := by
    rw [hpow]
    rintro (h | h)
    · exact Nat.not_le_of_lt h hpage
    · cases h
  unfold findFreeRange
  rw [if_neg (Nat.ne_of_gt hsize), if_neg hargs]
  cases hpages : alignUp size pageSize with
  | none =>
    intro start _ hstart
    have := hstart.below
    have := le_pageRounded hpages
    omega
  | some pages =>
    obtain rfl := eq_pageRounded hpages
    cases hcandidate : alignUp search.start alignment with
    | none =>
      intro start _ hstart
      have := alignUp_eq_none hpow hlt hcandidate hstart.aligned hstart.above
      have := hstart.below
      omega
    | some candidate =>
      obtain ⟨hdvd, hle, hleast⟩ := alignUp_eq_some hcandidate
      have hscan : FirstFit _ search (pageRounded size) _ _ _ :=
        findFreeLoop_firstFit hpow hlt hsearch (fun a ha => (hw.valid a ha).nonempty) (hw.pairwise.imp And.left) hdvd hle
      exact hscan.congr fun start => and_congr_left fun hstart => ⟨hleast start hstart.aligned, Nat.le_trans hle⟩

/-- `find_free_range` gives the lowest aligned place for the pages in the window, and fails exactly when there is none;
`find` gives exactly the area that holds the address. -/
theorem search_exact {s : VmAreaSet} (hw : Ordered capacity s.areas) :
    (∀ search size alignment, search.end_ < usizeLimit → 0 < size → isPowerOfTwo alignment = true → pageSize ≤ alignment →
      alignment < usizeLimit →
      (∀ gap, s.findFreeRange search size alignment = .ok gap → gap.end_ = gap.start + pageRounded size ∧
        IsLeast {start | Fits s.areas search (pageRounded size) alignment start} gap.start) ∧
      ((∃ e, s.findFreeRange search size alignment = .error e) ↔ ¬∃ start,
      Fits s.areas search (pageRounded size) alignment start)) ∧
    ∀ x a, s.find x = some a ↔ a ∈ s.areas ∧ a.contains x := by
  refine ⟨?_, fun x a => find_eq_some hw⟩
  intro search size alignment hsearch hsize hpow hpage hlt
  have hfit := findFreeRange_firstFit hw hsearch hsize hpow hpage hlt
  cases hresult : s.findFreeRange search size alignment with
  | ok gap =>
    rw [hresult] at hfit
    refine ⟨?_, iff_of_false (fun ⟨_, h⟩ => by cases h) (not_not_intro ⟨_, hfit.2.1.2⟩)⟩
    rintro _ ⟨⟩
    exact ⟨hfit.1, hfit.2.1.2, fun start hstart => hfit.2.2 ⟨hstart.above, hstart⟩⟩
  | error e =>
    rw [hresult] at hfit
    refine ⟨fun gap h => (nomatch h), iff_of_true ⟨e, rfl⟩ ?_⟩
    rintro ⟨start, hstart⟩
    exact hfit start hstart.above hstart

/-- One area, and a window that begins inside it. -/
theorem search_exact_behind_area :
    let s : VmAreaSet := ⟨[⟨.fromBounds 4096 8192, .userRw, .anonymous⟩]⟩
    s.findFreeRange (.fromBounds 4096 65536) 5000 8192 = .ok (.fromBounds 8192 16384) ∧
      IsLeast {start | Fits s.areas (.fromBounds 4096 65536) 8192 8192 start} 8192 := by
  intro s
  have hw : Ordered 1 s.areas :=
    reachable_ordered (.step (a := .insert true ⟨.fromBounds 4096 8192, .userRw, .anonymous⟩) (.init rfl) (.inl rfl))
  have hfind : s.findFreeRange (.fromBounds 4096 65536) 5000 8192 = .ok (.fromBounds 8192 16384) := by decide +kernel
  have hexact := (search_exact hw).1 (.fromBounds 4096 65536) 5000 8192 (by decide) (by decide) (by decide)
    (by decide) (by decide)
  exact ⟨hfind, (hexact.1 _ hfind).2⟩

/-- A power of two below the page size is refused although there is room. -/
theorem search_refuses_small_alignment :
    new.findFreeRange (.fromBounds 4096 8192) 4096 1 = .error .unalignedRange ∧
      Fits new.areas (.fromBounds 4096 8192) 4096 1 4096 :=
  ⟨rfl, ⟨by decide, by decide, by decide, fun a ha => absurd ha List.not_mem_nil⟩⟩

end fits

end VmAreaSet

end SudoOS
