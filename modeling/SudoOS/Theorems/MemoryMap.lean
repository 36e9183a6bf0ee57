import SudoOS.Mm.MemoryMap

/-! Both operations on the memory map push a list of ranges into an empty table. -/

namespace SudoOS

open Program

namespace PhysRange

variable {r c : PhysRange} {x : Nat}

theorem coveringPages_eq_some : r.coveringPages = some c ↔
    r.end_ + 4095 < usizeLimit ∧ c.start = r.start - r.start % 4096 ∧ c.end_ = r.end_ + 4095 - (r.end_ + 4095) % 4096 := by
  simp only [coveringPages, alignDown_pageSize, alignUp_pageSize, Option.bind_eq_bind, Option.bind_some]
  split_ifs with h
  · simp [h]
  · simp [h]

theorem coveringPages_eq_none : r.coveringPages = none ↔ usizeLimit ≤ r.end_ + 4095 := by
  have hle := r.start_le_end
  constructor
  · intro h
    by_contra hlt
    have hend : r.end_ + 4095 - (r.end_ + 4095) % 4096 < usizeLimit := by omega
    have hstart : r.start - r.start % 4096 ≤ r.end_ + 4095 - (r.end_ + 4095) % 4096 := by omega
    have hsome : r.coveringPages = some ⟨_, _, hstart, hend⟩ := coveringPages_eq_some.2 ⟨Nat.not_le.1 hlt, rfl, rfl⟩
    rw [h] at hsome
    cases hsome
  · intro h
    cases hc : r.coveringPages with
    | none => rfl
    | some c => exact absurd (coveringPages_eq_some.1 hc).1 (Nat.not_lt.2 h)

theorem pageAlignedInside_valid (h : r.pageAlignedInside = some c) : c.isPageAligned ∧ c.start < c.end_ := by
  simp only [pageAlignedInside, alignDown_pageSize, alignUp_pageSize, Option.bind_eq_bind, Option.bind_some] at h
  split_ifs at h with hlt
  · simp only [Option.bind_some] at h
    split_ifs at h with hge
    obtain ⟨hs, he⟩ := new_eq_some.1 h
    rw [isPageAligned_iff, hs, he]
    omega
  · cases h

end PhysRange

namespace MemoryMap

variable {capacity : Nat} {m t : MemoryMap capacity} {o o' : Output capacity} {l ps : List PhysRange}
    {r c reserved : PhysRange}
  {x : Nat} {e : MemoryMapStop}

/-! ### Pushing a list of ranges -/

def Packed (m : MemoryMap capacity) : Prop :=
  m.free.toList = m.iter.map some ++ List.replicate (capacity - m.iter.length) none

structure Output.Holds (o : Output capacity) (l : List PhysRange) : Prop where
  entries : o.entries.toList = l.map some ++ List.replicate (capacity - l.length) none
  length : o.length = l.length
  le : l.length ≤ capacity

theorem Output.holds_empty : (Output.empty : Output capacity).Holds [] :=
  ⟨by simp [Output.empty], rfl, Nat.zero_le _⟩

theorem Output.Holds.iter_eq (h : o.Holds l) : iter ⟨o.entries⟩ = l := by
  have hnone : (List.replicate (capacity - l.length) (none : Option PhysRange)).filterMap id = [] := by
    rw [List.filterMap_eq_nil_iff]
    intro a ha
    rw [List.eq_of_mem_replicate ha]
    rfl
  rw [iter, h.entries, List.filterMap_append, hnone, List.append_nil, List.filterMap_map]
  exact List.filterMap_some

theorem Output.Holds.packed (h : o.Holds l) : Packed ⟨o.entries⟩ := by
  rw [Packed, h.iter_eq]
  exact h.entries

def kept (ps : List PhysRange) : List PhysRange := ps.filter fun r => ¬ r.isEmpty

theorem kept_eq_self (h : ∀ p ∈ ps, p.start < p.end_) : kept ps = ps :=
  List.filter_eq_self.2 fun p hp => decide_eq_true (Nat.ne_of_lt (h p hp))

theorem Output.Holds.set (h : o.Holds l) (hlt : o.length < capacity) :
    Output.Holds ⟨o.entries.set o.length (some r) hlt, o.length + 1⟩ (l ++ [r]) := by
  have hlen := h.length
  have hroom : capacity - l.length = capacity - (l ++ [r]).length + 1 := by
    rw [List.length_append, List.length_singleton]
    omega
  refine ⟨?_, ?_, ?_⟩
  · rw [Vector.toList_set, h.entries, hroom, List.replicate_succ, hlen,
      List.set_append_right _ _ (by rw [List.length_map])]
    simp
  · rw [List.length_append, List.length_singleton, ← hlen]
  · rw [List.length_append, List.length_singleton]
    omega

def pushAll (o : Output capacity) (ps : List PhysRange) : Except MemoryMapStop (Output capacity) := ps.foldlM pushEntry o

/-- The ranges are written in order, and writing stops only where the table is full. -/
theorem Output.Holds.pushAll (h : o.Holds l) (ps : List PhysRange) :
    (∃ o', pushAll o ps = .ok o' ∧ o'.Holds (l ++ kept ps)) ∨
      pushAll o ps = .error (.error .capacityExceeded) ∧ capacity < l.length + (kept ps).length := by
  induction ps generalizing o l with
  | nil => exact .inl ⟨o, rfl, by simpa [kept] using h⟩
  | cons p ps ih =>
    by_cases hp : p.isEmpty
    · have hpush : pushEntry o p = .ok o := if_pos hp
      have hkept : kept (p :: ps) = kept ps := List.filter_cons_of_neg (by simpa using hp)
      rw [MemoryMap.pushAll, List.foldlM_cons, hpush, hkept]
      exact ih h
    · have hkept : kept (p :: ps) = p :: kept ps := List.filter_cons_of_pos (by simpa using hp)
      by_cases hlt : o.length < capacity
      · have hpush : pushEntry o p = .ok ⟨o.entries.set o.length (some p) hlt, o.length + 1⟩ := by
          rw [pushEntry, if_neg hp, dif_pos hlt]
        rw [MemoryMap.pushAll, List.foldlM_cons, hpush, hkept]
        have := ih (h.set hlt : Output.Holds _ (l ++ [p]))
        rwa [List.append_assoc, List.singleton_append, List.length_append, List.length_singleton, Nat.add_assoc,
          Nat.add_comm 1] at this
      · right
        have hpush : pushEntry o p = .error (.error .capacityExceeded) := by
          rw [pushEntry, if_neg hp, dif_neg hlt]
        rw [MemoryMap.pushAll, List.foldlM_cons, hpush, hkept]
        refine ⟨rfl, ?_⟩
        rw [List.length_cons, ← h.length]
        omega

structure Written (ps : List PhysRange) (t : MemoryMap capacity) : Prop where
  iter_eq : t.iter = kept ps
  packed : t.Packed
  fits : (kept ps).length ≤ capacity

def Full (m : MemoryMap capacity) (ps : List PhysRange) (e : MemoryMapStop) (t : MemoryMap capacity) : Prop :=
  e = .error .capacityExceeded ∧ t = m ∧ capacity < (kept ps).length

theorem pushAll_ok (h : pushAll Output.empty ps = .ok o) : Written ps ⟨o.entries⟩ := by
  rcases Output.holds_empty.pushAll ps with ⟨o', hok, hholds⟩ | ⟨herror, -⟩
  · obtain rfl : o' = o := Except.ok.inj (hok.symm.trans h)
    exact ⟨hholds.iter_eq, hholds.packed, hholds.le⟩
  · exact nomatch herror.symm.trans h

theorem pushAll_error (h : pushAll (Output.empty : Output capacity) ps = .error e) : Full m ps e m := by
  rcases Output.holds_empty.pushAll ps with ⟨o', hok, -⟩ | ⟨herror, hfull⟩
  · exact nomatch hok.symm.trans h
  · exact ⟨(Except.error.inj (herror.symm.trans h)).symm, rfl, by simpa using hfull⟩

/-! ### What each operation pushes -/

def pieces (reserved current : PhysRange) : List PhysRange :=
  if ¬ current.overlaps reserved then [current]
  else
    (if current.start < reserved.start then (PhysRange.new current.start reserved.start).toList else []) ++
      (if reserved.end_ < current.end_ then (PhysRange.new reserved.end_ current.end_).toList else [])

theorem new_isSome {a b : Nat} (h : a ≤ b) (hb : b < usizeLimit) : ∃ r, PhysRange.new a b = some r :=
  ⟨⟨a, b, h, hb⟩, PhysRange.new_eq_some.2 ⟨rfl, rfl⟩⟩

/-- The two ranges that `reserve` expects are there, so it pushes the pieces. -/
theorem reserveEntry_eq : reserveEntry reserved o c = pushAll o (pieces reserved c) := by
  have hlimit := Nat.lt_of_le_of_lt reserved.start_le_end reserved.end_lt_limit
  unfold reserveEntry pieces
  by_cases hover : c.overlaps reserved
  · rw [if_neg (not_not.2 hover), if_neg (not_not.2 hover)]
    by_cases hleft : c.start < reserved.start <;> by_cases hright : reserved.end_ < c.end_
    · obtain ⟨left, hl⟩ := new_isSome (Nat.le_of_lt hleft) hlimit
      obtain ⟨right, hr⟩ := new_isSome (Nat.le_of_lt hright) c.end_lt_limit
      simp [hleft, hright, hl, hr, pushAll]
    · obtain ⟨left, hl⟩ := new_isSome (Nat.le_of_lt hleft) hlimit
      simp only [hleft, hright, hl, pushAll, if_true, if_false, List.append_nil, Option.toList_some, List.foldlM_cons,
        List.foldlM_nil]
      rfl
    · obtain ⟨right, hr⟩ := new_isSome (Nat.le_of_lt hright) c.end_lt_limit
      simp only [hleft, hright, hr, pushAll, if_true, if_false, List.nil_append, Option.toList_some, List.foldlM_cons,
        List.foldlM_nil, bind_pure]
      rfl
    · simp [hleft, hright, pushAll]
      rfl
  · rw [if_pos hover, if_pos hover]
    simp [pushAll]

theorem foldlM_reserveEntry (l : List PhysRange) (o : Output capacity) :
    l.foldlM (reserveEntry reserved) o = pushAll o (l.flatMap (pieces reserved)) := by
  induction l generalizing o with
  | nil => rfl
  | cons r l ih =>
    rw [List.foldlM_cons, List.flatMap_cons, pushAll, List.foldlM_append, reserveEntry_eq, pushAll]
    simp only [ih]
    rfl

theorem reserve_spec (h : r.coveringPages = some reserved) : wp (reserve r) m
    (fun _ => Written (m.iter.flatMap (pieces reserved))) (Full m (m.iter.flatMap (pieces reserved))) := by
  unfold reserve
  generalize r.coveringPages = cover at h
  subst h
  show wp (get >>= _) m _ _
  rw [wp_bind, wp_get, wp_bind, wp_ofExcept, foldlM_reserveEntry]
  exact ⟨fun o ho => wp_set.2 (pushAll_ok ho), fun e he => pushAll_error he⟩

def merge : Option PhysRange → List PhysRange → List PhysRange
  | none, regions => regions
  | some candidate, [] => [candidate]
  | some candidate, current :: rest =>
    if current.end_ < candidate.start then current :: merge (some candidate) rest
    else if candidate.end_ < current.start then candidate :: current :: rest
    else merge (some (candidate.span current)) rest

def pushPending : Output capacity × Option PhysRange → Except MemoryMapStop (Output capacity)
  | (output, some candidate) => pushEntry output candidate
  | (output, none) => .ok output

theorem foldlM_mergeEntry_none : l.foldlM mergeEntry (o, none) >>= pushPending = pushAll o l := by
  induction l generalizing o with
  | nil => rfl
  | cons r l ih =>
    rw [List.foldlM_cons, pushAll, List.foldlM_cons, mergeEntry]
    cases hpush : pushEntry o r with
    | error e => rfl
    | ok o' => exact ih

theorem foldlM_mergeEntry (l : List PhysRange) (o : Output capacity) (c : PhysRange) :
    l.foldlM mergeEntry (o, some c) >>= pushPending = pushAll o (merge (some c) l) := by
  induction l generalizing o c with
  | nil =>
    show pushEntry o c = pushAll o [c]
    simp [pushAll]
  | cons r l ih =>
    rw [List.foldlM_cons, merge, mergeEntry]
    split_ifs with hbefore hafter
    · rw [pushAll, List.foldlM_cons]
      cases hpush : pushEntry o r with
      | error e => rfl
      | ok o' => exact ih o' c
    · rw [pushAll, List.foldlM_cons]
      cases hpush : pushEntry o c with
      | error e => rfl
      | ok o' =>
        rw [show (Except.ok o' >>= fun s => List.foldlM pushEntry s (r :: l)) = List.foldlM pushEntry o' (r :: l) from rfl,
          List.foldlM_cons]
        cases hpush' : pushEntry o' r with
        | error e =>
          simp only [bind, Except.bind, hpush']
        | ok o'' =>
          simp only [bind, Except.bind, hpush']
          exact foldlM_mergeEntry_none
    · exact ih o _

theorem insertMerged_spec : wp (insertMerged c) m
    (fun _ => Written (merge (some c) m.iter)) (Full m (merge (some c) m.iter)) := by
  simp only [insertMerged, wp_bind, wp_get, wp_ofExcept]
  have hall := foldlM_mergeEntry m.iter (Output.empty : Output capacity) c
  refine ⟨fun s hs => ?_, fun e he => ?_⟩
  · rw [hs] at hall
    obtain ⟨output, pending⟩ := s
    cases pending with
    | none => exact wp_set.2 (pushAll_ok hall.symm)
    | some candidate =>
      simp only [wp_bind, wp_ofExcept, wp_set]
      exact ⟨fun o' ho => pushAll_ok (hall.symm.trans ho), fun e he => pushAll_error (hall.symm.trans he)⟩
  · rw [he] at hall
    exact pushAll_error hall.symm

/-! ### Usable addresses -/

def Usable (m : MemoryMap capacity) (x : Nat) : Prop := ∃ r ∈ m.iter, r.contains x

theorem not_isEmpty_of_contains (h : r.contains x) : ¬ r.isEmpty := fun hempty =>
  absurd (Nat.lt_of_le_of_lt h.1 h.2) (hempty ▸ Nat.lt_irrefl _)

theorem Written.usable (h : Written ps t) : t.Usable x ↔ ∃ r ∈ ps, r.contains x := by
  rw [Usable, h.iter_eq]
  constructor
  · rintro ⟨r, hr, hx⟩
    exact ⟨r, List.mem_of_mem_filter hr, hx⟩
  · rintro ⟨r, hr, hx⟩
    exact ⟨r, List.mem_filter.2 ⟨hr, decide_eq_true (not_isEmpty_of_contains hx)⟩, hx⟩

/-- The left part is there only for a region that begins before the reserved range, the right one only for a region that
ends behind it. -/
theorem mem_pieces {p : PhysRange} : p ∈ pieces reserved c ↔
    ¬ c.overlaps reserved ∧ p = c ∨ c.overlaps reserved ∧
      (c.start < reserved.start ∧ p.start = c.start ∧ p.end_ = reserved.start ∨
        reserved.end_ < c.end_ ∧ p.start = reserved.end_ ∧ p.end_ = c.end_) := by
  unfold pieces
  by_cases hover : c.overlaps reserved
  · rw [if_neg (not_not.2 hover)]
    by_cases hleft : c.start < reserved.start <;> by_cases hright : reserved.end_ < c.end_ <;>
      simp [hover, hleft, hright]
  · rw [if_pos hover]
    simp [hover]

theorem pieces_contains : (∃ p ∈ pieces reserved c, p.contains x) ↔ c.contains x ∧ ¬ reserved.contains x := by
  have hle := reserved.start_le_end
  constructor
  · rintro ⟨p, hp, hx⟩
    rcases mem_pieces.1 hp with ⟨hover, rfl⟩ | ⟨hover, ⟨hleft, hs, he⟩ | ⟨hright, hs, he⟩⟩
    · refine ⟨hx, fun hin => hover ⟨?_, ?_⟩⟩
      · exact Nat.lt_of_le_of_lt hx.1 hin.2
      · exact Nat.lt_of_le_of_lt hin.1 hx.2
    · rw [PhysRange.contains, hs, he] at hx
      exact ⟨⟨hx.1, Nat.lt_trans hx.2 hover.2⟩, fun hin => Nat.not_lt.2 hin.1 hx.2⟩
    · rw [PhysRange.contains, hs, he] at hx
      exact ⟨⟨Nat.le_trans (Nat.le_of_lt hover.1) hx.1, hx.2⟩, fun hin => Nat.not_lt.2 hx.1 hin.2⟩
  · rintro ⟨hx, hout⟩
    by_cases hover : c.overlaps reserved
    · rcases Nat.lt_or_ge x reserved.start with hlt | hge
      · have hleft : c.start < reserved.start := Nat.lt_of_le_of_lt hx.1 hlt
        obtain ⟨p, hp⟩ := new_isSome (Nat.le_of_lt hleft) (Nat.lt_of_le_of_lt hle reserved.end_lt_limit)
        obtain ⟨hs, he⟩ := PhysRange.new_eq_some.1 hp
        refine ⟨p, mem_pieces.2 (.inr ⟨hover, .inl ⟨hleft, hs, he⟩⟩), ?_⟩
        rw [PhysRange.contains, hs, he]
        exact ⟨hx.1, hlt⟩
      · have hend : reserved.end_ ≤ x := Nat.not_lt.1 fun h => hout ⟨hge, h⟩
        have hright : reserved.end_ < c.end_ := Nat.lt_of_le_of_lt hend hx.2
        obtain ⟨p, hp⟩ := new_isSome (Nat.le_of_lt hright) c.end_lt_limit
        obtain ⟨hs, he⟩ := PhysRange.new_eq_some.1 hp
        refine ⟨p, mem_pieces.2 (.inr ⟨hover, .inr ⟨hright, hs, he⟩⟩), ?_⟩
        rw [PhysRange.contains, hs, he]
        exact ⟨hend, hx.2⟩
    · exact ⟨c, mem_pieces.2 (.inl ⟨hover, rfl⟩), hx⟩

theorem flatMap_pieces_contains :
    (∃ p ∈ l.flatMap (pieces reserved), p.contains x) ↔ (∃ r ∈ l, r.contains x) ∧ ¬ reserved.contains x := by
  constructor
  · rintro ⟨p, hp, hx⟩
    obtain ⟨r, hr, hp⟩ := List.mem_flatMap.1 hp
    obtain ⟨hr', hout⟩ := pieces_contains.1 ⟨p, hp, hx⟩
    exact ⟨⟨r, hr, hr'⟩, hout⟩
  · rintro ⟨⟨r, hr, hx⟩, hout⟩
    obtain ⟨p, hp, hx⟩ := pieces_contains.2 ⟨hx, hout⟩
    exact ⟨p, List.mem_flatMap.2 ⟨r, hr, hp⟩, hx⟩

/-! ### Reserving -/

/-- After `reserve`: no byte of the range is usable, and pages away from those that the range touches are as before. -/
structure Reserved (m t : MemoryMap capacity) (range : PhysRange) : Prop where
  excluded : ∀ r ∈ t.iter, ∀ x, range.contains x → ¬ r.contains x
  kept : ∀ page, page < range.start / pageSize ∨ (range.end_ + (pageSize - 1)) / pageSize ≤ page →
    ((∀ x, x / pageSize = page → t.Usable x) ↔ ∀ x, x / pageSize = page → m.Usable x)

theorem covering_contains (h : r.coveringPages = some c) (hx : r.contains x) : c.contains x := by
  obtain ⟨-, hs, he⟩ := PhysRange.coveringPages_eq_some.1 h
  rw [PhysRange.contains, hs, he]
  rw [PhysRange.contains] at hx
  omega

theorem not_covering_contains (h : r.coveringPages = some c)
    (hpage : x / pageSize < r.start / pageSize ∨ (r.end_ + (pageSize - 1)) / pageSize ≤ x / pageSize) : ¬ c.contains x := by
  obtain ⟨-, hs, he⟩ := PhysRange.coveringPages_eq_some.1 h
  rw [PhysRange.contains, hs, he]
  simp only [pageSize] at hpage
  omega

theorem reserve_none (h : r.coveringPages = none) : wp (reserve r) m (fun _ t => t = m) fun _ _ => False := by
  unfold reserve
  generalize r.coveringPages = cover at h
  subst h
  exact wp_pure.2 rfl

/-- A reservation does what it says exactly if rounding its end up to a page stays within the address space, or there was
nothing to exclude. -/
theorem reserve_excludes_iff (m : MemoryMap capacity) (range : PhysRange) :
    wp (reserve range) m (fun _ t => Reserved m t range) (fun e t => e.IsError ∧ t = m) ↔
      range.end_ + (pageSize - 1) < usizeLimit ∨ ∀ r ∈ m.iter, ∀ x, range.contains x → ¬ r.contains x := by
  cases hc : range.coveringPages with
  | none =>
    have hlimit : ¬ range.end_ + (pageSize - 1) < usizeLimit := Nat.not_lt.2 (PhysRange.coveringPages_eq_none.1 hc)
    rw [or_iff_right hlimit]
    constructor
    · intro h
      obtain ⟨hok, herror⟩ := wp_iff.1 h
      obtain ⟨hok', herror'⟩ := wp_iff.1 (reserve_none hc (m := m))
      cases hrun : reserve range m with
      | ok a t =>
        obtain rfl := hok' a t hrun
        exact (hok a t hrun).excluded
      | error e t => exact absurd (herror' e t hrun) id
    · intro h
      refine (reserve_none hc).mono (fun _ t ht => ?_) fun _ _ hf => absurd hf id
      subst ht
      exact ⟨h, fun _ _ => Iff.rfl⟩
  | some reserved =>
    refine iff_of_true ?_ (.inl (PhysRange.coveringPages_eq_some.1 hc).1)
    refine (reserve_spec hc).mono (fun _ t ht => ⟨?_, ?_⟩) fun e t he => ⟨⟨_, he.1⟩, he.2.1⟩
    · intro r hr x hx hin
      obtain ⟨-, hout⟩ := flatMap_pieces_contains.1 (ht.usable.1 ⟨r, hr, hin⟩)
      exact hout (covering_contains hc hx)
    · intro page hpage
      refine forall_congr' fun x => imp_congr_right fun hx => ?_
      rw [ht.usable, flatMap_pieces_contains]
      exact and_iff_left (not_covering_contains hc (hx ▸ hpage))

def exampleRegion : PhysRange := ⟨0x1000, 0x9000, by decide, by decide⟩

def topRange : PhysRange := ⟨0x3000, 2 ^ 64 - 1, by decide, by decide⟩

def exampleMap : MemoryMap 4 := new.perform (.addUsable exampleRegion)

theorem reserve_topRange_fails : ¬ wp (reserve topRange) exampleMap (fun _ t => Reserved exampleMap t topRange)
    (fun e t => e.IsError ∧ t = exampleMap) := by
  intro h
  have hrun : reserve topRange exampleMap = .ok () exampleMap := by
    have hnone : topRange.coveringPages = none := PhysRange.coveringPages_eq_none.2 (by decide)
    unfold reserve
    generalize topRange.coveringPages = cover at hnone
    subst hnone
    rfl
  have hmem : exampleRegion ∈ exampleMap.iter := by decide +kernel
  exact (h.ok hrun).excluded exampleRegion hmem 0x3000 (by decide) (by decide)

/-! ### The invariant -/

structure Documented (m : MemoryMap capacity) : Prop where
  sorted : m.iter.Pairwise fun a b => a.start < b.start
  aligned : ∀ r ∈ m.iter, r.isPageAligned
  nonempty : ∀ r ∈ m.iter, ¬ r.isEmpty
  disjoint : m.iter.Pairwise fun a b => ¬ a.overlaps b
  merged : m.iter.Pairwise fun a b => a.end_ ≠ b.start ∧ b.end_ ≠ a.start
  bounded : m.len ≤ capacity
  packed : m.Packed

structure Separated (l : List PhysRange) : Prop where
  aligned : ∀ r ∈ l, r.isPageAligned
  nonempty : ∀ r ∈ l, r.start < r.end_
  apart : l.Pairwise fun a b => a.end_ < b.start

theorem length_iter_le : m.iter.length ≤ capacity :=
  (List.length_filterMap_le id m.free.toList).trans (Nat.le_of_eq m.free.length_toList)

theorem documented_iff : m.Documented ↔ Separated m.iter ∧ m.Packed := by
  constructor
  · rintro ⟨hsorted, haligned, hnonempty, hdisjoint, hmerged, -, hpacked⟩
    have hne : ∀ r ∈ m.iter, r.start < r.end_ := fun r hr => Nat.lt_of_le_of_ne r.start_le_end (hnonempty r hr)
    refine ⟨⟨haligned, hne, ?_⟩, hpacked⟩
    refine ((hsorted.and hdisjoint).and hmerged).imp_of_mem ?_
    rintro a b ha hb ⟨⟨hlt, hover⟩, htouch, -⟩
    have := hne b hb
    rw [PhysRange.overlaps] at hover
    omega
  · rintro ⟨⟨haligned, hnonempty, hapart⟩, hpacked⟩
    refine ⟨?_, haligned, fun r hr => Nat.ne_of_lt (hnonempty r hr), ?_, ?_, length_iter_le, hpacked⟩
    · refine hapart.imp_of_mem fun {a b} ha _ h => ?_
      exact Nat.lt_of_le_of_lt a.start_le_end h
    · refine hapart.imp fun {a b} h hover => ?_
      exact Nat.lt_asymm h hover.2
    · refine hapart.imp fun {a b} h => ?_
      have ha := a.start_le_end
      have hb := b.start_le_end
      omega

theorem separated_nil : Separated [] := ⟨by simp, by simp, .nil⟩

theorem documented_new : (new : MemoryMap capacity).Documented := by
  have hiter : (new : MemoryMap capacity).iter = [] := Output.holds_empty.iter_eq
  refine documented_iff.2 ⟨hiter ▸ separated_nil, Output.holds_empty.packed⟩

theorem Separated.written (h : Separated ps) (ht : Written ps t) : t.Documented := by
  rw [documented_iff, ht.iter_eq, kept_eq_self h.nonempty]
  exact ⟨h, ht.packed⟩

/-- Merging keeps a lower bound of all starts. -/
theorem lt_start_merge {b : Nat} (hc : b < c.start) (h : ∀ r ∈ l, b < r.start) : ∀ p ∈ merge (some c) l, b < p.start := by
  induction l generalizing c with
  | nil => exact fun p hp => List.mem_singleton.1 hp ▸ hc
  | cons r l ih =>
    obtain ⟨hr, hl⟩ := List.forall_mem_cons.1 h
    rw [merge]
    split_ifs with hbefore hafter
    · exact List.forall_mem_cons.2 ⟨hr, ih hc hl⟩
    · exact List.forall_mem_cons.2 ⟨hc, h⟩
    · refine ih ?_ hl
      show b < if c.start ≤ r.start then c.start else r.start
      split_ifs
      · exact hc
      · exact hr

theorem span_valid (hc : c.isPageAligned ∧ c.start < c.end_) (hr : r.isPageAligned ∧ r.start < r.end_) :
    (c.span r).isPageAligned ∧ (c.span r).start < (c.span r).end_ := by
  obtain ⟨⟨hcs, hce⟩, hclt⟩ := hc
  obtain ⟨⟨hrs, hre⟩, hrlt⟩ := hr
  simp only [PhysRange.isPageAligned, PhysRange.span]
  split_ifs <;> refine ⟨⟨?_, ?_⟩, ?_⟩ <;> first | assumption | omega

theorem Separated.merge (h : Separated l) (hc : c.isPageAligned ∧ c.start < c.end_) : Separated (merge (some c) l) := by
  induction l generalizing c with
  | nil => exact ⟨by simpa [MemoryMap.merge] using hc.1, by simpa [MemoryMap.merge] using hc.2, List.pairwise_singleton _ _⟩
  | cons r l ih =>
    obtain ⟨hr, hl⟩ := List.forall_mem_cons.1 h.aligned
    obtain ⟨hr', hl'⟩ := List.forall_mem_cons.1 h.nonempty
    obtain ⟨hfirst, hrest⟩ := List.pairwise_cons.1 h.apart
    have htail : Separated l := ⟨hl, hl', hrest⟩
    rw [MemoryMap.merge]
    split_ifs with hbefore hafter
    · have hmerged := ih htail hc
      exact ⟨List.forall_mem_cons.2 ⟨hr, hmerged.aligned⟩, List.forall_mem_cons.2 ⟨hr', hmerged.nonempty⟩,
        List.pairwise_cons.2 ⟨lt_start_merge hbefore hfirst, hmerged.apart⟩⟩
    · refine ⟨List.forall_mem_cons.2 ⟨hc.1, h.aligned⟩, List.forall_mem_cons.2 ⟨hc.2, h.nonempty⟩,
        List.pairwise_cons.2 ⟨List.forall_mem_cons.2 ⟨hafter, fun p hp => ?_⟩, h.apart⟩⟩
      exact Nat.lt_trans hafter (Nat.lt_trans hr' (hfirst p hp))
    · exact ih htail (span_valid hc ⟨hr, hr'⟩)

theorem covering_aligned (h : r.coveringPages = some c) : c.isPageAligned := by
  obtain ⟨-, hs, he⟩ := PhysRange.coveringPages_eq_some.1 h
  rw [PhysRange.isPageAligned_iff, hs, he]
  omega

/-- Cutting a separated list keeps it separated, unless an empty range cuts a region in two. -/
theorem Separated.pieces (h : Separated l) (haligned : reserved.isPageAligned)
    (hcut : reserved.start < reserved.end_ ∨ ∀ r ∈ l, ¬ r.overlaps reserved) :
    Separated (l.flatMap (MemoryMap.pieces reserved)) := by
  have hinside : ∀ r ∈ l, ∀ p ∈ MemoryMap.pieces reserved r, r.start ≤ p.start ∧ p.end_ ≤ r.end_ ∧ p.start < p.end_ ∧
      p.isPageAligned := by
    intro r hr p hp
    have hlt := h.nonempty r hr
    have hal := h.aligned r hr
    rcases mem_pieces.1 hp with ⟨hover, rfl⟩ | ⟨hover, ⟨hleft, hs, he⟩ | ⟨hright, hs, he⟩⟩
    · exact ⟨Nat.le_refl _, Nat.le_refl _, hlt, hal⟩
    · rw [PhysRange.isPageAligned, hs, he]
      exact ⟨Nat.le_refl _, Nat.le_of_lt hover.2, hleft, hal.1, haligned.1⟩
    · rw [PhysRange.isPageAligned, hs, he]
      exact ⟨Nat.le_of_lt hover.1, Nat.le_refl _, hright, haligned.2, hal.2⟩
  refine ⟨fun p hp => ?_, fun p hp => ?_, List.pairwise_flatMap.2 ⟨fun r hr => ?_, ?_⟩⟩
  · obtain ⟨r, hr, hp⟩ := List.mem_flatMap.1 hp
    exact (hinside r hr p hp).2.2.2
  · obtain ⟨r, hr, hp⟩ := List.mem_flatMap.1 hp
    exact (hinside r hr p hp).2.2.1
  · unfold MemoryMap.pieces
    by_cases hover : r.overlaps reserved
    · have hlt : reserved.start < reserved.end_ := hcut.resolve_right fun hnone => hnone r hr hover
      rw [if_neg (not_not.2 hover), List.pairwise_append]
      refine ⟨?_, ?_, fun p hp q hq => ?_⟩
      · split_ifs
        · cases PhysRange.new r.start reserved.start <;> simp
        · exact .nil
      · split_ifs
        · cases PhysRange.new reserved.end_ r.end_ <;> simp
        · exact .nil
      · split_ifs at hp hq
        · obtain ⟨-, he⟩ := PhysRange.new_eq_some.1 (Option.mem_toList.1 hp)
          obtain ⟨hs, -⟩ := PhysRange.new_eq_some.1 (Option.mem_toList.1 hq)
          rw [he, hs]
          exact hlt
        all_goals exact absurd ‹_ ∈ []› List.not_mem_nil
    · rw [if_pos hover]
      exact List.pairwise_singleton _ _
  · refine h.apart.imp_of_mem fun {a b} ha hb hab p hp q hq => ?_
    have h₁ := (hinside a ha p hp).2.1
    have h₂ := (hinside b hb q hq).1
    omega

theorem flatMap_pieces_eq_self (h : ∀ r ∈ l, ¬ r.overlaps reserved) : l.flatMap (pieces reserved) = l := by
  induction l with
  | nil => rfl
  | cons r l ih =>
    obtain ⟨hr, hl⟩ := List.forall_mem_cons.1 h
    rw [List.flatMap_cons, ih hl, pieces, if_pos hr, List.singleton_append]

/-- Where an empty range lies strictly inside a region, the region becomes two that touch. -/
theorem Separated.cut (h : Separated l) (hr : r ∈ l) (hempty : reserved.start = reserved.end_)
    (hin : r.start < reserved.start ∧ reserved.start < r.end_) :
    ∃ front left right back, l.flatMap (MemoryMap.pieces reserved) = front ++ left :: right :: back ∧
      left.end_ = right.start ∧ kept (l.flatMap (MemoryMap.pieces reserved)) = l.flatMap (MemoryMap.pieces reserved) ∧
      (l.flatMap (MemoryMap.pieces reserved)).length = l.length + 1 := by
  obtain ⟨front, back, rfl⟩ := List.append_of_mem hr
  obtain ⟨-, hback, hacross⟩ := List.pairwise_append.1 h.apart
  obtain ⟨hlater, -⟩ := List.pairwise_cons.1 hback
  have hfront : ∀ p ∈ front, ¬ p.overlaps reserved := fun p hp hover =>
    Nat.lt_asymm hover.2 (Nat.lt_trans (hacross p hp r List.mem_cons_self) hin.1)
  have hrest : ∀ p ∈ back, ¬ p.overlaps reserved := fun p hp hover =>
    Nat.lt_asymm (hempty ▸ hover.1) (Nat.lt_trans hin.2 (hlater p hp))
  have hover : r.overlaps reserved := ⟨hempty ▸ hin.1, hin.2⟩
  have hright : reserved.end_ < r.end_ := hempty ▸ hin.2
  obtain ⟨left, hl⟩ := new_isSome (Nat.le_of_lt hin.1) (Nat.lt_of_le_of_lt reserved.start_le_end reserved.end_lt_limit)
  obtain ⟨right, hr'⟩ := new_isSome (Nat.le_of_lt hright) r.end_lt_limit
  have hpieces : MemoryMap.pieces reserved r = [left, right] := by
    rw [MemoryMap.pieces, if_neg (not_not.2 hover), if_pos hin.1, if_pos hright, hl, hr']
    rfl
  have hflat : (front ++ r :: back).flatMap (MemoryMap.pieces reserved) = front ++ left :: right :: back := by
    rw [List.flatMap_append, List.flatMap_cons, flatMap_pieces_eq_self hfront, flatMap_pieces_eq_self hrest, hpieces]
    rfl
  obtain ⟨hls, hle⟩ := PhysRange.new_eq_some.1 hl
  obtain ⟨hrs, hre⟩ := PhysRange.new_eq_some.1 hr'
  refine ⟨front, left, right, back, hflat, by rw [hle, hrs, hempty], ?_, ?_⟩
  · obtain ⟨hne, hne'⟩ := List.forall_mem_append.1 h.nonempty
    rw [hflat]
    refine kept_eq_self (List.forall_mem_append.2 ⟨hne, List.forall_mem_cons.2 ⟨?_, List.forall_mem_cons.2 ⟨?_, ?_⟩⟩⟩)
    · rw [hls, hle]
      exact hin.1
    · rw [hrs, hre]
      exact hright
    · exact (List.forall_mem_cons.1 hne').2
  · rw [hflat]
    simp only [List.length_append, List.length_cons]
    omega

/-- No call cuts a region in two at an empty range; where it would, the table has no slot left for the second part. -/
def Call.Whole (m : MemoryMap capacity) : Call → Prop
  | .addUsable _ => True
  | .reserve range => range.isEmpty → range.start % pageSize = 0 →
      (∀ r ∈ m.iter, ¬ (r.start < range.start ∧ range.start < r.end_)) ∨ m.len = capacity

theorem perform_of_wp {call : Call} {Q : MemoryMap capacity → Prop} (h : wp call.run m (fun _ => Q) fun _ => Q) :
    Q (m.perform call) := by
  unfold perform
  cases hrun : call.run m with
  | ok a t => exact h.ok hrun
  | error e t => exact h.error hrun

theorem Documented.addUsable (h : m.Documented) (range : PhysRange) : (m.perform (.addUsable range)).Documented := by
  refine perform_of_wp ?_
  show wp (MemoryMap.addUsable range) m _ _
  unfold MemoryMap.addUsable
  cases hc : range.pageAlignedInside with
  | none => exact wp_pure.2 h
  | some c =>
    have hmerged := (documented_iff.1 h).1.merge (PhysRange.pageAlignedInside_valid hc)
    exact insertMerged_spec.mono (fun _ t ht => hmerged.written ht) fun e t he => he.2.1 ▸ h

theorem Documented.reserve (h : m.Documented) {range : PhysRange} (hkeep : ∀ reserved, range.coveringPages = some reserved →
    reserved.start < reserved.end_ ∨ ∀ r ∈ m.iter, ¬ r.overlaps reserved) : (m.perform (.reserve range)).Documented := by
  refine perform_of_wp ?_
  show wp (MemoryMap.reserve range) m _ _
  cases hc : range.coveringPages with
  | none => exact (reserve_none hc).mono (fun _ t ht => ht ▸ h) fun _ _ hf => absurd hf id
  | some reserved =>
    have hpieces := (documented_iff.1 h).1.pieces (covering_aligned hc) (hkeep reserved hc)
    exact (reserve_spec hc).mono (fun _ t ht => hpieces.written ht) fun e t he => he.2.1 ▸ h

theorem Documented.reserve_cut (h : m.Documented) {range : PhysRange} (hc : range.coveringPages = some reserved)
    (hempty : reserved.start = reserved.end_) (hr : r ∈ m.iter)
    (hin : r.start < reserved.start ∧ reserved.start < r.end_) :
    (m.perform (.reserve range)).Documented ↔ m.len = capacity := by
  obtain ⟨front, left, right, back, hflat, htouch, hkept, hlength⟩ := (documented_iff.1 h).1.cut hr hempty hin
  refine perform_of_wp (Q := fun t => t.Documented ↔ m.len = capacity) ?_
  show wp (MemoryMap.reserve range) m _ _
  refine (reserve_spec hc).mono (fun _ t ht => ?_) fun e t he => ?_
  · -- the two parts have been written, and they touch
    have hfits := ht.fits
    rw [hkept, hlength] at hfits
    refine iff_of_false (fun hdoc => ?_) (Nat.ne_of_lt hfits)
    have hapart := (documented_iff.1 hdoc).1.apart
    rw [ht.iter_eq, hkept, hflat] at hapart
    obtain ⟨-, hback, -⟩ := List.pairwise_append.1 hapart
    have hlt := (List.pairwise_cons.1 hback).1 right List.mem_cons_self
    exact absurd htouch (Nat.ne_of_lt hlt)
  · obtain ⟨-, rfl, hfull⟩ := he
    rw [hkept, hlength] at hfull
    exact iff_of_true h (Nat.le_antisymm h.bounded (Nat.le_of_lt_succ hfull))

theorem covering_empty (h : r.coveringPages = some c) (hempty : c.start = c.end_) :
    r.isEmpty ∧ r.start % pageSize = 0 ∧ c.start = r.start := by
  obtain ⟨-, hs, he⟩ := PhysRange.coveringPages_eq_some.1 h
  have hle := r.start_le_end
  rw [PhysRange.isEmpty, pageSize]
  omega

theorem coveringPages_self (hempty : r.isEmpty) (hzero : r.start % pageSize = 0) : r.coveringPages = some r := by
  have hlt := r.end_lt_limit
  rw [PhysRange.isEmpty] at hempty
  rw [pageSize] at hzero
  rw [PhysRange.coveringPages_eq_some]
  unfold usizeLimit at *
  omega

/-- A call keeps the invariant exactly if it cuts no region in two. -/
theorem Documented.perform_iff (h : m.Documented) {call : Call} : (m.perform call).Documented ↔ call.Whole m := by
  cases call with
  | addUsable range => exact iff_of_true (h.addUsable range) trivial
  | reserve range =>
    by_cases hcut : ∃ reserved r, range.coveringPages = some reserved ∧ reserved.start = reserved.end_ ∧ r ∈ m.iter ∧
        r.start < reserved.start ∧ reserved.start < r.end_
    · obtain ⟨reserved, r, hc, hempty, hr, hin⟩ := hcut
      obtain ⟨hrange, hzero, hstart⟩ := covering_empty hc hempty
      rw [h.reserve_cut hc hempty hr hin]
      refine ⟨fun hfull _ _ => .inr hfull, fun hwhole => (hwhole hrange hzero).resolve_left fun hnone => ?_⟩
      exact hnone r hr (hstart ▸ hin)
    · refine iff_of_true (h.reserve fun reserved hc => ?_) fun hempty hzero => .inl fun r hr hin => hcut ?_
      · rcases Nat.eq_or_lt_of_le reserved.start_le_end with heq | hlt
        · exact .inr fun r hr hover => hcut ⟨reserved, r, hc, heq, hr, heq ▸ hover.1, hover.2⟩
        · exact .inl hlt
      · exact ⟨range, r, coveringPages_self hempty hzero, hempty, hr, hin⟩

/-- The invariant holds all along a sequence of calls exactly if no call of it cuts a region in two. -/
theorem documented_along_iff (calls : List Call) :
    (∀ done, done <+: calls → ((new : MemoryMap capacity).performAll done).Documented) ↔
      ∀ done call, done ++ [call] <+: calls → call.Whole ((new : MemoryMap capacity).performAll done) := by
  have hstep : ∀ (done : List Call) (call : Call), (new : MemoryMap capacity).performAll (done ++ [call]) =
      (new.performAll done).perform call := fun done call => List.foldl_append
  constructor
  · intro h done call hprefix
    have hbefore := h done ((List.prefix_append done [call]).trans hprefix)
    rw [← hbefore.perform_iff, ← hstep]
    exact h (done ++ [call]) hprefix
  · intro h done
    induction done using List.reverseRecOn with
    | nil => exact fun _ => documented_new
    | append_singleton done call ih =>
      intro hprefix
      rw [hstep, (ih ((List.prefix_append done [call]).trans hprefix)).perform_iff]
      exact h done call hprefix

def emptyRange : PhysRange := ⟨0x3000, 0x3000, by decide, by decide⟩

theorem documented_emptyRange_fails : ¬ ∀ done, done <+: [Call.addUsable exampleRegion, .reserve emptyRange] →
    ((new : MemoryMap 4).performAll done).Documented := by
  intro h
  have hmerged := (h _ List.prefix_rfl).merged
  have hiter : ((new : MemoryMap 4).performAll [.addUsable exampleRegion, .reserve emptyRange]).iter =
      [⟨0x1000, 0x3000, by decide, by decide⟩, ⟨0x3000, 0x9000, by decide, by decide⟩] := by decide +kernel
  rw [hiter] at hmerged
  exact ((List.pairwise_cons.1 hmerged).1 _ List.mem_cons_self).1 rfl

end MemoryMap

end SudoOS
