import SudoOS.Kernel.Elf
import SudoOS.Theorems.VmaSet

/-! Hostile executable files. -/

namespace SudoOS.Elf

open Program

variable {isUtf8 : List (BitVec 8) → Bool} {memory : Nat → Bool} {image : List (BitVec 8)} {table : ProgramHeaderTable}
  {s t : ElfState} {h : ProgramHeader} {index : Nat} {bias : Option Nat}

theorem slice_eq_some {bytes r : List (BitVec 8)} {start end_ : Nat} (h : slice bytes start end_ = some r) :
    r.length = end_ - start ∧ end_ ≤ bytes.length := by
  unfold slice at h
  split_ifs at h with hle
  obtain rfl := Option.some.inj h
  rw [List.length_take, List.length_drop]
  omega

def Inside (image : List (BitVec 8)) (table : ProgramHeaderTable) : Prop :=
  table.entrySize = programHeaderLen ∧ table.offset + table.count * programHeaderLen ≤ image.length

theorem fileHeader_spec : wp (fileHeader image bias) s
    (fun r t => t = s ∧ Inside image r.2.2 ∧ userRange.contains r.2.1) (fun e _ => e.IsError) := by
  simp only [fileHeader, check, applyLoadBias, wp_bind, wp_okOr, wp_ensure, wp_pure]
  refine ⟨fun header hheader => ?_, fun _ => ⟨_, rfl⟩⟩
  have hlength := (slice_eq_some hheader).1
  unfold elfHeaderLen at hlength
  have hget {i : Nat} (hi : i < 64) : header[i]? ≠ none := by
    rw [Ne, List.getElem?_eq_none_iff]
    omega
  refine ⟨fun _ _ => ?_, fun hnone => absurd hnone (hget (by decide))⟩
  refine ⟨fun _ _ => ?_, fun hnone => absurd hnone (hget (by decide))⟩
  refine ⟨fun _ _ => ?_, fun hnone => absurd hnone (hget (by decide))⟩
  refine ⟨fun _ => ⟨fun _ _ => ⟨fun _ _ => ?_, fun _ => ⟨_, rfl⟩⟩, fun _ => ⟨_, rfl⟩⟩, fun _ => ⟨_, rfl⟩⟩
  refine ⟨fun _ _ => ⟨fun _ => ?_, fun _ => ⟨_, rfl⟩⟩, fun _ => ⟨_, rfl⟩⟩
  refine ⟨fun _ _ => ⟨fun _ => ?_, fun _ => ⟨_, rfl⟩⟩, fun _ => ⟨_, rfl⟩⟩
  refine ⟨fun _ _ => ⟨fun entry _ => ⟨fun hentry => ?_, fun _ => ⟨_, rfl⟩⟩, fun _ => ⟨_, rfl⟩⟩, fun _ => ⟨_, rfl⟩⟩
  refine ⟨fun phoff _ => ⟨fun _ _ => ?_, fun _ => ⟨_, rfl⟩⟩, fun _ => ⟨_, rfl⟩⟩
  refine ⟨fun phentsize _ => ⟨fun phnum _ => ?_, fun _ => ⟨_, rfl⟩⟩, fun _ => ⟨_, rfl⟩⟩
  refine ⟨fun hsizes => ⟨fun length hlength => ⟨fun end_ hend => ⟨fun hle => ?_, fun _ => ⟨_, rfl⟩⟩, fun _ => ⟨_, rfl⟩⟩,
    fun _ => ⟨_, rfl⟩⟩, fun _ => ⟨_, rfl⟩⟩
  unfold checkedMul at hlength
  split_ifs at hlength
  obtain rfl := Option.some.inj hlength
  obtain ⟨-, rfl⟩ := checkedAdd_eq_some.1 hend
  refine ⟨trivial, ⟨hsizes.2.1, ?_⟩, hentry⟩
  dsimp only
  rw [Nat.mul_comm, ← hsizes.2.1]
  exact hle

/-! ### One program header -/

def headerAt (image : List (BitVec 8)) (table : ProgramHeaderTable) (index : Nat) : Option ProgramHeader :=
  (slice image (table.offset + index * programHeaderLen) (table.offset + index * programHeaderLen + programHeaderLen)).bind
    readProgramHeader

/-- The path of the interpreter is short, but its end is beyond the largest number. -/
def Overlong (h : ProgramHeader) : Prop :=
  h.type = ptInterp ∧ h.fileSize ≤ h.memorySize ∧ h.fileSize ≠ 0 ∧ h.fileSize ≤ maxInterpPath ∧
    usizeLimit ≤ h.fileOffset + h.fileSize

def LiesIn (g : LoadSegment) (a : VmArea) : Prop :=
  a.range.start ≤ g.virtualAddress ∧ g.virtualAddress + g.memorySize ≤ a.range.end_

structure Loadable (image : List (BitVec 8)) (s : ElfState) : Prop where
  matched : List.Forall₂ LiesIn s.segments s.areas
  valid : ∀ a ∈ s.areas, validateArea a = .ok () ∧ userRange.containsRange a.range
  apart : s.areas.Pairwise fun a b => ¬b.range.overlaps a.range
  placed : ∀ g ∈ s.segments, g.memorySize ≠ 0 ∧ ∃ a ∈ s.areas, LiesIn g a
  file : ∀ g ∈ s.segments, g.fileOffset + g.fileSize ≤ image.length ∧ g.fileSize ≤ g.memorySize

theorem Loadable.empty : Loadable image {} where
  matched := .nil
  valid _ ha := absurd ha List.not_mem_nil
  apart := .nil
  placed _ hg := absurd hg List.not_mem_nil
  file _ hg := absurd hg List.not_mem_nil

theorem Loadable.same (hs : Loadable image s) (hareas : t.areas = s.areas) (hsegments : t.segments = s.segments) :
    Loadable image t := ⟨hareas ▸ hsegments ▸ hs.matched, hareas ▸ hs.valid, hareas ▸ hs.apart, hareas ▸ hsegments ▸
      hs.placed, hsegments ▸ hs.file⟩

theorem Loadable.append (hs : Loadable image s) {area : VmArea} {g : LoadSegment} (hvalid : validateArea area = .ok ())
    (huser : userRange.containsRange area.range) (hapart : ∀ a ∈ s.areas, ¬area.range.overlaps a.range)
    (hsize : g.memorySize ≠ 0 ∧ g.fileSize ≤ g.memorySize) (hin : LiesIn g area)
      (hfile : g.fileOffset + g.fileSize ≤ image.length) :
    Loadable image { s with areas := s.areas ++ [area], segments := s.segments ++ [g] } where
  matched := List.rel_append hs.matched (.cons hin .nil)
  valid := List.forall_mem_append.2 ⟨hs.valid, List.forall_mem_singleton.2 ⟨hvalid, huser⟩⟩
  apart := List.pairwise_append.2 ⟨hs.apart, List.pairwise_singleton _ _, fun a ha _ hb => List.mem_singleton.1 hb ▸
    hapart a ha⟩
  placed := by
    refine List.forall_mem_append.2 ⟨fun g' hg' => ?_, List.forall_mem_singleton.2 ?_⟩
    · obtain ⟨hne, a, ha, hg'⟩ := hs.placed g' hg'
      exact ⟨hne, a, List.mem_append_left _ ha, hg'⟩
    · exact ⟨hsize.1, area, List.mem_append_right _ List.mem_cons_self, hin⟩
  file := List.forall_mem_append.2 ⟨hs.file, List.forall_mem_singleton.2 ⟨hfile, hsize.2⟩⟩

theorem Loadable.unique (hs : Loadable image s) {g : LoadSegment} (hg : g ∈ s.segments) : ∃! a, a ∈ s.areas ∧
    LiesIn g a := by
  obtain ⟨hne, a, ha, hin⟩ := hs.placed g hg
  refine ⟨a, ⟨ha, hin⟩, fun b ⟨hb, hinb⟩ => ?_⟩
  by_contra hdiff
  have hover : a.range.overlaps b.range := by
    obtain ⟨_, _⟩ := hin
    obtain ⟨_, _⟩ := hinb
    exact ⟨by omega, by omega⟩
  have hsymm : Std.Symm fun a b : VmArea => ¬b.range.overlaps a.range := ⟨fun _ _ h hover => h ⟨hover.2, hover.1⟩⟩
  exact hs.apart.forall hb ha hdiff hover

theorem roundedArea {address end_ : Nat} {range : VirtRange} (hsize : h.memorySize ≠ 0)
    (hend : alignUp (address + h.memorySize) pageSize = some end_)
      (hrange : VirtRange.new (alignPageDown address) end_ = some range) :
    validateArea ⟨range, segmentFlags h.flags, .fileBacked 1 (alignPageDown h.fileOffset)⟩ = .ok () ∧
      range.start ≤ address ∧ address + h.memorySize ≤ range.end_ := by
  obtain ⟨hstart, hend'⟩ := VirtRange.new_eq_some.1 hrange
  rw [alignUp_pageSize] at hend
  split_ifs at hend
  have := Option.some.inj hend
  unfold alignPageDown pageSize at hstart
  refine ⟨validateArea_eq_ok.2 ⟨?_, ?_, ?_, fun hwrite => ?_,
    fun hboth => (nomatch hboth.1), fun hcow => (nomatch hcow)⟩, ?_, ?_⟩
  · dsimp only
    omega
  · dsimp only
    omega
  · dsimp only
    omega
  · have hw : h.flags &&& 2 ≠ 0 := of_decide_eq_true hwrite
    refine decide_eq_true (.inr fun hzero => hw ?_)
    have hland : (h.flags &&& 3) &&& 2 = h.flags &&& 2 := Nat.land_assoc _ _ _
    rw [← hland, hzero]
    rfl
  · omega
  · omega

theorem loadHeader_spec (hs : Loadable image s) :
    wp (loadHeader memory image table index h) s (fun _ t => Loadable image t) (fun e _ => e.IsError) := by
  simp only [loadHeader, validateSegment, check, applyLoadBias, wp_bind, wp_ensure, wp_okOr, wp_get, wp_set, wp_given]
  refine ⟨fun hsizes => ⟨fun hfile => ?_, fun _ => ⟨_, rfl⟩⟩, fun _ => ⟨_, rfl⟩⟩
  refine ⟨fun _ _ => ⟨fun _ => ⟨fun _ => ?_, fun _ => ⟨_, rfl⟩⟩, fun _ => ⟨_, rfl⟩⟩, fun _ => ⟨_, rfl⟩⟩
  refine ⟨fun address _ => ⟨fun segmentEnd hsegment => ?_, fun _ => ⟨_, rfl⟩⟩, fun _ => ⟨_, rfl⟩⟩
  obtain ⟨-, rfl⟩ := checkedAdd_eq_some.1 hsegment
  refine ⟨fun end_ hend => ⟨fun range hrange => ?_, fun hnone => ?_⟩, fun _ => ⟨_, rfl⟩⟩
  · refine ⟨fun huser => ⟨fun hapart => ?_, fun _ => ⟨_, rfl⟩⟩, fun _ => ⟨_, rfl⟩⟩
    refine ⟨fun _ => ⟨fun _ => ?_, fun _ => ⟨_, rfl⟩⟩, fun _ => ⟨_, rfl⟩⟩
    obtain ⟨fileEnd, hfileEnd, hle⟩ := (Option.any_eq_true _ _).1 hfile
    obtain ⟨-, rfl⟩ := checkedAdd_eq_some.1 hfileEnd
    obtain ⟨hvalid, hin⟩ := roundedArea hsizes.1 hend hrange
    have hadded : Loadable image { s with
        areas := s.areas ++ [VmArea.mk range (segmentFlags h.flags) (.fileBacked 1 (alignPageDown h.fileOffset))]
        segments := s.segments ++ [LoadSegment.mk address h.memorySize h.fileOffset h.fileSize] } :=
      hs.append hvalid huser hapart hsizes hin (of_decide_eq_true hle)
    refine ⟨fun hnear => ?_, fun _ => hadded⟩
    have hbelow : h.fileOffset ≤ table.offset := of_decide_eq_true (Bool.and_eq_true_iff.1 hnear).2
    simp only [findProgramHeaders, wp_bind, wp_okOr, wp_ite, wp_given, wp_modify, wp_pure]
    refine ⟨fun _ _ => ⟨fun _ => ⟨fun _ _ => ?_, fun hnone => ?_⟩, fun _ => hadded⟩, fun _ => ⟨_, rfl⟩⟩
    · exact ⟨fun _ _ => ⟨fun _ => hadded.same rfl rfl, fun _ => hadded⟩, fun _ => ⟨_, rfl⟩⟩
    rw [checkedSub, if_pos hbelow] at hnone
    cases hnone
  · -- the rounded end is not below the rounded start
    have hbelow := VirtRange.new_eq_none.1 hnone
    rw [alignUp_pageSize] at hend
    split_ifs at hend
    obtain rfl := Option.some.inj hend
    unfold alignPageDown pageSize at hbelow
    omega

theorem readInterpreter_spec {fileOffset fileSize : Nat} :
    wp (readInterpreter isUtf8 memory image index fileOffset fileSize) s (fun _ t => t = s)
      (fun e _ => e.IsError ∨ fileSize ≠ 0 ∧ fileSize ≤ maxInterpPath ∧ usizeLimit ≤ fileOffset + fileSize) := by
  simp only [readInterpreter, check, wp_bind, wp_ensure, wp_require, wp_okOr, wp_pure]
  refine ⟨fun hsize => ⟨fun _ => ?_, fun hover => .inr ⟨hsize.1, hsize.2, Nat.le_of_not_lt hover⟩⟩, fun _ => .inl ⟨_, rfl⟩⟩
  refine ⟨fun bytes hbytes => ⟨fun nul hnul => ⟨fun _ => ⟨fun path _ => ?_, fun hnone => ?_⟩, fun _ => .inl ⟨_, rfl⟩⟩,
    fun _ => .inl ⟨_, rfl⟩⟩, fun _ => .inl ⟨_, rfl⟩⟩
  · exact ⟨fun _ => ⟨fun _ => trivial, fun _ => .inl ⟨_, rfl⟩⟩, fun _ => .inl ⟨_, rfl⟩⟩
  · have hlt := (List.findIdx?_eq_some_iff_getElem.1 hnul).1
    rw [slice, if_pos ⟨Nat.zero_le _, by omega⟩] at hnone
    cases hnone

theorem acceptHeader_spec (hs : Loadable image s) : wp (acceptHeader isUtf8 memory image table index h) s
    (fun _ t => Loadable image t) (fun e _ => e.IsError ∨ s.interpreter = none ∧ Overlong h) := by
  simp only [acceptHeader, check, applyLoadBias, wp_bind, wp_get, wp_ite, wp_ensure, wp_okOr, wp_set, wp_pure]
  refine ⟨fun _ => (loadHeader_spec hs).mono (fun _ _ h => h) fun _ _ h => .inl h, fun _ => ?_⟩
  refine ⟨fun htype => ?_, fun _ => ⟨fun _ => ?_, fun _ => ⟨fun _ => ?_, fun _ => hs⟩⟩⟩
  · refine ⟨fun hfirst => readInterpreter_spec.mono (fun _ _ _ => hs.same rfl rfl) ?_, fun _ => .inl ⟨_, rfl⟩⟩
    rintro e _ (he | hover)
    · exact .inl he
    · exact .inr ⟨hfirst.1, htype, hfirst.2, hover⟩
  · exact ⟨fun _ => ⟨fun _ _ => ⟨fun _ => hs.same rfl rfl, fun _ => .inl ⟨_, rfl⟩⟩, fun _ => .inl ⟨_, rfl⟩⟩,
      fun _ => .inl ⟨_, rfl⟩⟩
  · exact ⟨fun _ => ⟨fun _ _ => ⟨fun _ => hs.same rfl rfl, fun _ => .inl ⟨_, rfl⟩⟩, fun _ => .inl ⟨_, rfl⟩⟩,
      fun _ => .inl ⟨_, rfl⟩⟩

theorem programHeader_iff (hlen : image.length < usizeLimit) (hin : Inside image table) (hindex : index < table.count)
    {Q : Unit → ElfState → Prop} {E : Stop ElfError ElfPanic → ElfState → Prop} :
    wp (programHeader isUtf8 memory image table index) s Q E ↔
      (∀ h, headerAt image table index = some h → wp (acceptHeader isUtf8 memory image table index h) s Q E) ∧
      (headerAt image table index = none → E (.error .invalidHeader) s) := by
  obtain ⟨hsize, hend⟩ := hin
  have hbelow : (index + 1) * programHeaderLen ≤ table.count * programHeaderLen := Nat.mul_le_mul_right _ hindex
  rw [Nat.succ_mul] at hbelow
  have hmul : checkedMul index table.entrySize = some (index * programHeaderLen) := by
    rw [hsize]
    exact if_pos (by omega)
  have hadd : checkedAdd table.offset (index * programHeaderLen) = some (table.offset + index * programHeaderLen) :=
    if_pos (by omega)
  have hover : table.offset + index * programHeaderLen + programHeaderLen < usizeLimit := by omega
  obtain ⟨phdr, hphdr⟩ : ∃ phdr, slice image (table.offset + index * programHeaderLen)
      (table.offset + index * programHeaderLen + programHeaderLen) = some phdr := ⟨_, if_pos ⟨by omega, by omega⟩⟩
  simp only [programHeader, wp_bind, wp_okOr_of_eq hmul, wp_okOr_of_eq hadd, wp_require, hover, true_imp_iff,
    not_true_eq_false,
    false_imp_iff, and_true, headerAt, hphdr, Option.bind_some]
  exact (wp_okOr_of_eq rfl).trans wp_okOr

theorem programHeader_spec (hlen : image.length < usizeLimit) (hin : Inside image table) (hindex : index < table.count)
    (hs : Loadable image s) : wp (programHeader isUtf8 memory image table index) s (fun _ t => Loadable image t)
      (fun e _ => e.IsError ∨ s.interpreter = none ∧ ∃ h, headerAt image table index = some h ∧ Overlong h) := by
  refine (programHeader_iff hlen hin hindex).2 ⟨fun h hat => ?_, fun _ => .inl ⟨_, rfl⟩⟩
  exact (acceptHeader_spec hs).mono (fun _ _ ht => ht) fun _ _ he => he.imp_right fun hover => ⟨hover.1, h, hat, hover.2⟩

theorem programHeader_overlong (hlen : image.length < usizeLimit) (hin : Inside image table) (hindex : index < table.count)
    (hat : headerAt image table index = some h) (hover : Overlong h) (hfirst : s.interpreter = none) :
    wp (programHeader isUtf8 memory image table index) s (fun _ _ => False) (fun e _ => e = .panic .overflow) := by
  refine (programHeader_iff hlen hin hindex).2 ⟨fun h' hat' => ?_, fun hnone => nomatch hat.symm.trans hnone⟩
  obtain rfl := Option.some.inj (hat.symm.trans hat')
  obtain ⟨htype, hmemory, hsize, hshort, hbeyond⟩ := hover
  have hload : ¬ptInterp = ptLoad := by decide
  simp only [acceptHeader, readInterpreter, check, wp_bind, wp_get, htype, if_neg hload, if_true, wp_ensure,
    hfirst, hmemory,
    and_self, true_imp_iff, not_true_eq_false, false_imp_iff, and_true, hsize, hshort, Ne, not_false_eq_true, wp_require]
  exact ⟨fun hlt => absurd hlt (Nat.not_lt_of_le hbeyond), fun _ => trivial⟩

/-! ### Parsing -/

/-- The parser comes to a header, all headers before it having been accepted. -/
def Meets (isUtf8 : List (BitVec 8) → Bool) (memory : Nat → Bool) (image : List (BitVec 8)) (bias : Option Nat)
    (h : ProgramHeader) (s : ElfState) : Prop :=
  ∃ kind entry table before index after, fileHeader image bias {} = .ok (kind, entry, table) {} ∧
    List.range table.count = before ++ index :: after ∧ headerAt image table index = some h ∧
    before.forM (programHeader isUtf8 memory image table) {} = .ok ⟨⟩ s

theorem forM_loadable {l : List Nat} (hlen : image.length < usizeLimit) (hin : Inside image table)
    (hl : ∀ i ∈ l, i < table.count) (hs : Loadable image s) :
    wp (l.forM (programHeader isUtf8 memory image table)) s (fun _ t => Loadable image t) fun _ _ => True := by
  refine (wp_forM (fun rest t => (∀ i ∈ rest, i < table.count) ∧ Loadable image t) ?_ ⟨hl, hs⟩).mono (fun _ _ h => h.2)
    fun _ _ h => h
  rintro i rest t ⟨hrest, ht⟩
  obtain ⟨hi, hrest⟩ := List.forall_mem_cons.1 hrest
  exact (programHeader_spec hlen hin hi ht).mono (fun _ _ h => ⟨hrest, h⟩) fun _ _ _ => trivial

theorem parseImpl_returns (hlen : image.length < usizeLimit) : Returns (parseImpl isUtf8 memory image bias) {} ↔
    ∀ h s, Meets isUtf8 memory image bias h s → s.interpreter = none → ¬Overlong h := by
  constructor
  · rintro hret h s ⟨kind, entry, table, before, index, after, hfile, hrange, hat, hbefore⟩ hfirst hover
    have hin : Inside image table := (fileHeader_spec.ok hfile).2.1
    have hindex : index < table.count := by
      rw [← List.mem_range, hrange]
      exact List.mem_append_right _ List.mem_cons_self
    cases hrun : programHeader isUtf8 memory image table index s with
    | ok _ t => exact (programHeader_overlong hlen hin hindex hat hover hfirst).ok hrun
    | error e t =>
      obtain rfl : e = .panic .overflow := (programHeader_overlong hlen hin hindex hat hover hfirst).error hrun
      have hloop := forM_eq_error.2 ⟨before, index, after, s, hrange, hbefore, hrun⟩
      rw [Returns, parseImpl, wp_bind, wp_of_ok hfile, wp_bind, wp_of_error hloop] at hret
      obtain ⟨e, he⟩ := hret
      cases he
  · intro hsafe
    rw [Returns, parseImpl, wp_bind]
    refine wp_iff.2 ⟨fun r s hfile => ?_, fun e _ hfile => fileHeader_spec.error hfile⟩
    obtain ⟨rfl, hin, -⟩ := fileHeader_spec.ok hfile
    obtain ⟨kind, entry, table⟩ := r
    simp only [check, wp_bind, wp_get, wp_ensure, wp_pure]
    refine wp_iff.2 ⟨fun _ t _ => ⟨fun _ => trivial, fun _ => ⟨_, rfl⟩⟩, fun e t hloop => ?_⟩
    obtain ⟨before, index, after, u, hrange, hbefore, hrun⟩ := forM_eq_error.1 hloop
    have hmem : ∀ i ∈ before ++ index :: after, i < table.count := fun i hi => List.mem_range.1 (hrange ▸ hi)
    have hu := (forM_loadable hlen hin (fun i hi => hmem i (List.mem_append_left _ hi)) Loadable.empty).ok hbefore
    have hindex := hmem index (List.mem_append_right _ List.mem_cons_self)
    refine ((programHeader_spec hlen hin hindex hu).error hrun).resolve_right ?_
    rintro ⟨hfirst, h, hat, hover⟩
    exact hsafe h u ⟨kind, entry, table, before, index, after, hfile, hrange, hat, hbefore⟩ hfirst hover

theorem parseImpl_loadable {elf : ElfImage} (hlen : image.length < usizeLimit)
    (hparse : parseImpl isUtf8 memory image bias {} = .ok elf t) :
    Loadable image elf.toElfState ∧ userRange.contains elf.entry := by
  have hspec : wp (parseImpl isUtf8 memory image bias) {}
      (fun elf _ => Loadable image elf.toElfState ∧ userRange.contains elf.entry) fun _ _ => True := by
    rw [parseImpl, wp_bind]
    refine fileHeader_spec.mono ?_ fun _ _ _ => trivial
    rintro ⟨kind, entry, table⟩ s ⟨rfl, hin, hentry⟩
    simp only [check, wp_bind, wp_get, wp_ensure, wp_pure]
    refine (forM_loadable hlen hin (fun i hi => List.mem_range.1 hi) Loadable.empty).mono ?_ fun _ _ _ => trivial
    exact fun _ t ht => ⟨fun _ => ⟨ht, hentry⟩, fun _ => trivial⟩
  exact hspec.ok hparse

/-- The areas of an accepted image can be mapped as they are, and each load segment has its one area and its bytes. -/
theorem accepted_image_loadable {elf : ElfImage} (hlen : image.length < usizeLimit)
    (hparse : parseImpl isUtf8 memory image bias {} = .ok elf t) :
    (∀ a ∈ elf.areas, a.range.isPageAligned ∧ validateArea a = .ok () ∧ userRange.containsRange a.range) ∧
    (elf.areas.Pairwise fun a b => ¬b.range.overlaps a.range) ∧
    (∀ g ∈ elf.segments, (∃! a, a ∈ elf.areas ∧ LiesIn g a) ∧ g.fileOffset + g.fileSize ≤ image.length ∧
      g.fileSize ≤ g.memorySize) ∧ userRange.contains elf.entry := by
  obtain ⟨hl, hentry⟩ := parseImpl_loadable hlen hparse
  refine ⟨fun a ha => ?_, hl.apart, fun g hg => ⟨hl.unique hg, hl.file g hg⟩, hentry⟩
  have hvalid := validateArea_eq_ok.1 (hl.valid a ha).1
  exact ⟨VirtRange.isPageAligned_iff.2 ⟨hvalid.start_aligned, hvalid.end_aligned⟩, hl.valid a ha⟩

open LittleEndian in
def segmentImage : List (BitVec 8) :=
  [0x7f, 0x45, 0x4c, 0x46, 2, 1, 1] ++ List.replicate 9 0 ++ bytes 2 2 ++ bytes 2 243 ++ bytes 4 1 ++ bytes 8 0x1040 ++
    bytes 8 64 ++ List.replicate 12 0 ++ bytes 2 64 ++ bytes 2 56 ++ bytes 2 1 ++ List.replicate 6 0 ++
    bytes 4 1 ++ bytes 4 5 ++ bytes 8 0 ++ bytes 8 0x1040 ++ bytes 8 0 ++ bytes 8 64 ++ bytes 8 4096 ++ bytes 8 1

/-- The segment reaches into a second page, and its area covers both. -/
theorem accepted_image_loadable_segment : ∃ elf t, parseImpl (fun _ => true)
    (fun _ => true) segmentImage none {} = .ok elf t ∧
    elf.areas.map VmArea.range = [.fromBounds 0x1000 0x3000] ∧ (∀ a ∈ elf.areas, validateArea a = .ok ()) ∧
    (∀ g ∈ elf.segments, (∃! a, a ∈ elf.areas ∧ LiesIn g a) ∧ g.fileOffset + g.fileSize ≤ segmentImage.length) ∧
    userRange.contains elf.entry := by
  have hrun : endsWith (fun elf _ => decide (elf.areas.map VmArea.range = [.fromBounds 0x1000 0x3000]))
      (parseImpl (fun _ => true) (fun _ => true) segmentImage none {}) = true := by decide +kernel
  obtain ⟨elf, t, hparse, hranges⟩ := endsWith_eq_true hrun
  have hlen : segmentImage.length < usizeLimit := by decide +kernel
  obtain ⟨hareas, -, hsegments, hentry⟩ := accepted_image_loadable hlen hparse
  exact ⟨elf, t, hparse, of_decide_eq_true hranges, fun a ha => (hareas a ha).2.1,
    fun g hg => ⟨(hsegments g hg).1, (hsegments g hg).2.1⟩, hentry⟩

/-! ### Relocations -/

section
variable {ε σ : Type} {load : Nat → List (BitVec 8) → EStateM ε σ Unit} {mm : σ}

theorem scanDynamic_spec {entries : List (List (BitVec 8))} {rela : RelaTable} :
    wp (scanDynamic entries rela : ExecM ε σ RelaTable) mm (fun _ t => t = mm) (fun e _ => e.IsError) := by
  induction entries generalizing rela with
  | nil => exact wp_pure.2 rfl
  | cons entry rest ih =>
    simp only [scanDynamic, readWord, wp_bind, wp_okOr, wp_ite, wp_pure]
    refine ⟨fun _ _ => ⟨fun _ _ => ⟨fun _ => trivial, fun _ => ?_⟩, fun _ => ⟨_, rfl⟩⟩, fun _ => ⟨_, rfl⟩⟩
    exact ⟨fun _ => ih, fun _ => ⟨fun _ => ih, fun _ => ⟨fun _ => ih, fun _ => ih⟩⟩⟩

theorem virtualToFileOffset_spec {segments : List LoadSegment} {address size bound : Nat}
    (h : ∀ g ∈ segments, g.fileOffset + g.fileSize ≤ bound) :
    wp (virtualToFileOffset address (address + size) segments : ExecM ε σ Nat) mm
      (fun offset t => t = mm ∧ offset + size ≤ bound) (fun e _ => e.IsError) := by
  induction segments with
  | nil => exact wp_throw.2 ⟨_, rfl⟩
  | cons g rest ih =>
    obtain ⟨hg, hrest⟩ := List.forall_mem_cons.1 h
    simp only [virtualToFileOffset, wp_bind, wp_okOr, wp_ite]
    refine ⟨fun fileEnd hend => ⟨fun hinside => ⟨fun delta hdelta => ?_, fun hnone => ?_⟩, fun _ => ih hrest⟩,
      fun _ => ⟨_, rfl⟩⟩
    · refine ⟨fun offset hoffset => ?_, fun _ => ⟨_, rfl⟩⟩
      obtain ⟨-, rfl⟩ := checkedAdd_eq_some.1 hend
      obtain ⟨-, rfl⟩ := checkedSub_eq_some.1 hdelta
      obtain ⟨-, rfl⟩ := checkedAdd_eq_some.1 hoffset
      exact ⟨trivial, by omega⟩
    · rw [checkedSub, if_pos hinside.1] at hnone
      cases hnone

theorem relocate_returns {entries : List (List (BitVec 8))} {bias applied skipped : Nat}
    (h : applied + skipped + entries.length < usizeLimit) : Returns (relocate load bias entries applied skipped) mm := by
  induction entries generalizing applied skipped mm with
  | nil => exact wp_pure.2 trivial
  | cons entry rest ih =>
    rw [List.length_cons] at h
    simp only [Returns, relocate, readWord, wp_bind, wp_okOr, wp_ite, wp_zoom, wp_require]
    refine ⟨fun _ _ => ⟨fun _ _ => ⟨fun _ _ => ?_, fun _ => ⟨_, rfl⟩⟩, fun _ => ⟨_, rfl⟩⟩, fun _ => ⟨_, rfl⟩⟩
    refine ⟨fun _ => ⟨fun _ _ => ⟨fun _ _ => ?_, fun _ => ⟨_, rfl⟩⟩, fun _ => ⟨_, rfl⟩⟩, fun _ => ?_⟩
    · refine wp_iff.2 ⟨fun _ u _ => ⟨fun _ => ih (by omega), fun hover => absurd hover (by omega)⟩, fun e _ _ => ⟨_, rfl⟩⟩
    · exact ⟨fun _ => ih (by omega), fun hover => absurd hover (by omega)⟩

theorem relocations_return {elf : ElfImage} (hlen : image.length < usizeLimit) (hl : Loadable image elf.toElfState) :
    Returns (applyStaticPieRelocations load image elf) mm ↔
      ∀ d, elf.dynamic = some d → d.fileOffset + d.memorySize < usizeLimit := by
  rw [Returns, applyStaticPieRelocations]
  cases hdynamic : elf.dynamic with
  | none => exact ⟨fun _ d hd => (nomatch hd), fun _ => wp_pure.2 trivial⟩
  | some d =>
    simp only [wp_bind, wp_require, wp_okOr, wp_ite, wp_pure, wp_ensure]
    constructor
    · rintro ⟨-, hover⟩ d' hd
      obtain rfl := Option.some.inj hd
      by_contra hbeyond
      obtain ⟨e, he⟩ := hover hbeyond
      cases he
    · intro hsafe
      refine ⟨fun _ => ⟨fun entries _ => scanDynamic_spec.mono ?_ fun _ _ h => h, fun _ => ⟨_, rfl⟩⟩,
        fun hover => absurd (hsafe d rfl) hover⟩
      rintro rela _ rfl
      refine ⟨fun _ => trivial, fun _ => ⟨fun hsize => ⟨fun address _ => ?_, fun _ => ⟨_, rfl⟩⟩, fun _ => ⟨_, rfl⟩⟩⟩
      refine ⟨fun end_ hend => ?_, fun _ => ⟨_, rfl⟩⟩
      obtain ⟨-, rfl⟩ := checkedAdd_eq_some.1 hend
      refine (virtualToFileOffset_spec fun g hg => (hl.file g hg).1).mono ?_ fun _ _ h => h
      rintro offset _ ⟨rfl, hbound⟩
      refine ⟨fun _ => ⟨fun bytes hbytes => ⟨fun _ => relocate_returns ?_, fun hzero => ?_⟩, fun _ => ⟨_, rfl⟩⟩,
        fun hover => absurd hover (by omega)⟩
      · rw [chunksExact, List.length_map, List.length_range, (slice_eq_some hbytes).1]
        have := Nat.div_le_self (offset + rela.size - offset) rela.entrySize
        omega
      · rw [hsize.1] at hzero
        exact absurd (by decide) hzero

/-- Parsing comes back unless it meets an interpreter's path that is overlong; the relocations of a parsed image come back
unless its dynamic section is. -/
theorem hostile_image_exact (hlen : image.length < usizeLimit) :
    (Returns (parseImpl isUtf8 memory image bias) {} ↔
      ∀ h s, Meets isUtf8 memory image bias h s → s.interpreter = none → ¬Overlong h) ∧
    ∀ elf t, parseImpl isUtf8 memory image bias {} = .ok elf t →
      ∀ (load : Nat → List (BitVec 8) → EStateM ε σ Unit) (mm : σ), Returns (applyStaticPieRelocations load image elf) mm ↔
        ∀ d, elf.dynamic = some d → d.fileOffset + d.memorySize < usizeLimit :=
  ⟨parseImpl_returns hlen, fun _ _ hparse _ _ => relocations_return hlen (parseImpl_loadable hlen hparse).1⟩

end

open LittleEndian in
def interpreterImage (offset : Nat) : List (BitVec 8) :=
  [0x7f, 0x45, 0x4c, 0x46, 2, 1, 1] ++ List.replicate 9 0 ++ bytes 2 2 ++ bytes 2 243 ++ bytes 4 1 ++ bytes 8 0x1000 ++
    bytes 8 64 ++ List.replicate 12 0 ++ bytes 2 64 ++ bytes 2 56 ++ bytes 2 1 ++ List.replicate 6 0 ++
    bytes 4 3 ++ bytes 4 4 ++ bytes 8 offset ++ bytes 8 0 ++ bytes 8 0 ++ bytes 8 1 ++ bytes 8 1 ++ bytes 8 1

theorem interpreterImage_panics : ∃ p t,
    parseImpl (fun _ => true) (fun _ => true) (interpreterImage (2 ^ 64 - 1)) none {} = .error (.panic p) t := by
  have hpanic : (match parseImpl (fun _ => true) (fun _ => true) (interpreterImage (2 ^ 64 - 1)) none {} with
      | .error (.panic _) _ => true
      | _ => false) = true := by decide +kernel
  split at hpanic
  · rename_i hrun
    exact ⟨_, _, hrun⟩
  · cases hpanic

theorem hostile_image_exact_overlong : ∃ h s, Meets (fun _ => true) (fun _ => true)
    (interpreterImage (2 ^ 64 - 1)) none h s ∧ s.interpreter = none ∧ Overlong h := by
  obtain ⟨p, t, hrun⟩ := interpreterImage_panics
  by_contra hnone
  have hlen : (interpreterImage (2 ^ 64 - 1)).length < usizeLimit := by decide +kernel
  have hret := (hostile_image_exact (ε := Unit) (σ := Unit) hlen).1.2 fun h s hmeets hfirst hover =>
    hnone ⟨h, s, hmeets, hfirst, hover⟩
  obtain ⟨e, he⟩ := hret.error hrun
  cases he

/-- Parsing a path at the largest offset overflows. -/
theorem interpreter_overflows :
    ¬Returns (parseImpl (fun _ => true) (fun _ => true) (interpreterImage (2 ^ 64 - 1)) none) {} := by
  intro hret
  obtain ⟨p, t, hrun⟩ := interpreterImage_panics
  obtain ⟨e, he⟩ := hret.error hrun
  cases he

end SudoOS.Elf
