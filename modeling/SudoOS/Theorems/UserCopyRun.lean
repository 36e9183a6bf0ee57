import SudoOS.Kernel.UserCopy
import SudoOS.Theorems.UserMmRun

/-! A copy to user memory among the calls of other threads on the same address space. -/

namespace SudoOS

open Program RuntimePageTable

namespace UserMm

structure CopyState where
  mm : UserMmState
  phase : CopyPhase

inductive CopyLabel
  | begin (choices : List (Option Nat)) (reserves : List Bool) (address : Nat) (input : List Nat)
  | next (choices : List (Option Nat)) (reserves : List Bool)
  | call (choices : List (Option Nat)) (reserves : List Bool) (c : MmCall)
  | kernel

/-- All interleavings of the sections of a copy with the calls of other threads. -/
def copySystem : TransitionSystem CopyState CopyLabel where
  init s := system.Reachable s.mm ∧ s.phase = .idle
  step s label t :=
    match label with
    | .begin choices reserves address input =>
      s.phase = .idle ∧ beginCopy address input (answering choices reserves s.mm) = some (t.mm, t.phase)
    | .next choices reserves => continueCopy (answering choices reserves s.mm) s.phase = some (t.mm, t.phase)
    | .call choices reserves c => system.step s.mm (.call choices reserves c) t.mm ∧ t.phase = s.phase
    | .kernel => system.step s.mm .kernel t.mm ∧ t.phase = s.phase

/-- The call leaves the range as it is, or its pages writable. -/
def MmCall.Spares (low high : Nat) (s : UserMmState) : MmCall → Prop
  | .protectRange range access => access.write = true ∨ ∀ x, low ≤ x → x < high → ¬range.contains x
  | c => ∀ x, low ≤ x → x < high → ¬c.touches s x

def CopyPhase.range : CopyPhase → Option (Nat × Nat)
  | .idle => none
  | .populating address input _ | .storing address input => some (address, address + input.length)

def CopyLabel.Spares (s : CopyState) : CopyLabel → Prop
  | .call choices reserves c => ∀ low high, s.phase.range = some (low, high) →
    c.Spares low high (answering choices reserves s.mm)
  | _ => True

def CopyLabel.storesTo (s : CopyState) : CopyLabel → Option (Nat × Nat)
  | .begin _ _ address input => some (address, address + input.length)
  | .next _ _ =>
    match s.phase with
    | .storing address input => some (address, address + input.length)
    | _ => none
  | _ => none

structure CopyInv (s : CopyState) : Prop where
  mm : Inv s.mm
  range : ∀ low high, s.phase.range = some (low, high) → low < high ∧ Allows .write low high s.mm

section steps
variable {s t : UserMmState} {low high : Nat}

theorem Allows.of_attr {access : FaultAccess} (h : Allows access low high s)
    (hattr : ∀ x v, low ≤ x → x < high → attr s x = some v → attr t x = some v) : Allows access low high t := by
  intro x hlow hhigh
  obtain ⟨f, k, hf, hallowed⟩ := h x hlow hhigh
  exact ⟨f, k, hattr x _ hlow hhigh hf, hallowed⟩

theorem Allows.of_calm {access : FaultAccess} (h : Allows access low high s) (hcalm : Calm s t) :
    Allows access low high t :=
  h.of_attr fun x v _ _ hv => hcalm.frame x v hv id

theorem Protected.allows {range : VirtRange} {access : VmAreaFlags} (h : Protected range access s t)
    (hwrite : access.write = true) (hallows : Allows .write low high s) : Allows .write low high t := by
  intro x hlow hhigh
  obtain ⟨f, k, hf, hallowed⟩ := hallows x hlow hhigh
  rcases h.attr_eq with hsame | hnew
  · exact ⟨f, k, by rw [hsame]; exact hf, hallowed⟩
  · rw [hnew, hf]
    refine ⟨_, k, rfl, ?_⟩
    split_ifs
    · exact hwrite
    · exact hallowed

theorem MmCall.exec_allows (hs : Inv s) (c : MmCall) (hc : c.Lawful) (hspares : c.Spares low high s)
    (h : Allows .write low high s) :
    wp c.exec s (fun _ t => Allows .write low high t) (fun e t => e.IsError → Allows .write low high t) := by
  have hframe : (∀ x, low ≤ x → x < high → ¬c.touches s x) →
      wp c.exec s (fun _ t => Allows .write low high t) (fun e t => e.IsError → Allows .write low high t) := fun hout => by
    refine (c.exec_outcome hs hc).mono (fun _ _ ho => h.of_attr fun x v hlow hhigh hv => ?_)
      fun _ _ ho he => h.of_attr fun x v hlow hhigh hv => ?_
    · exact ho.frame x v hv (hout x hlow hhigh)
    · exact (ho he).frame x v hv (hout x hlow hhigh)
  cases c with
  | protectRange range access =>
    rcases hspares with hwrite | hout
    · exact (protectRange_spec hs hc).mono (fun _ _ hp => hp.allows hwrite h) fun _ _ hp he => (hp he).allows hwrite h
    · exact hframe hout
  | _ => exact hframe hspares

theorem sectionResult_eq_some {α : Type} {done : α → CopyPhase} {x : UserMmM α} {phase : CopyPhase}
    (h : sectionResult done (x s) = some (t, phase)) :
    (∃ a, x s = .ok a t ∧ phase = done a) ∨ ∃ e, x s = .error (.error e) t ∧ phase = .idle := by
  cases hx : x s with
  | ok a u =>
    rw [hx] at h
    cases h
    exact .inl ⟨a, rfl, rfl⟩
  | error e u =>
    rw [hx] at h
    cases e with
    | error e =>
      cases h
      exact .inr ⟨e, rfl, rfl⟩
    | panic p => cases h

/-- The first section: a range that is stored to, or that the copy goes on with, may be written. -/
theorem beginCopy_eq_some {address : Nat} {input : List Nat} {phase : CopyPhase} (hs : Inv s)
    (h : beginCopy address input s = some (t, phase)) :
    (t = s ∧ phase = .idle) ∨ input ≠ [] ∧ Allows .write address (address + input.length) s ∧
      Written address input.length s t ∧
      (phase = .idle ∨ phase = .populating address input (address - address % pageSize)) := by
  unfold beginCopy at h
  split_ifs at h with hempty
  · cases h
    exact .inl ⟨rfl, rfl⟩
  · have hne : input ≠ [] := fun hnil => hempty (by rw [hnil]; rfl)
    rcases sectionResult_eq_some h with ⟨copied, hrun, rfl⟩ | ⟨e, hrun, rfl⟩
    · obtain ⟨hallows, hwritten⟩ := (copyIfMapped_spec hs).ok hrun
      refine .inr ⟨hne, hallows, hwritten, ?_⟩
      split_ifs
      · exact .inl rfl
      · split
        · exact .inl rfl
        · exact .inr rfl
    · rcases (copyIfMapped_spec hs).error hrun ⟨e, rfl⟩ with rfl | ⟨hallows, hwritten⟩
      · exact .inl ⟨rfl, rfl⟩
      · exact .inr ⟨hne, hallows, hwritten, .inl rfl⟩

/-- A later section: it leaves the areas alone, and the last one stores to the range only. -/
theorem continueCopy_eq_some {phase phase' : CopyPhase} (hs : Inv s)
    (hrange : ∀ low high, phase.range = some (low, high) → low < high ∧ Allows .write low high s)
    (h : continueCopy s phase = some (t, phase')) :
    Calm s t ∧ (phase'.range = none ∨ phase'.range = phase.range) ∧
      ∀ address input, phase = .storing address input → Written address input.length s t := by
  cases phase with
  | idle => cases h
  | populating address input page =>
    unfold continueCopy at h
    dsimp only at h
    refine ⟨?_, ?_, fun _ _ h => (nomatch h)⟩ <;> split_ifs at h
    · rcases sectionResult_eq_some h with ⟨_, hrun, -⟩ | ⟨e, hrun, -⟩
      · exact ((populatePage_spec hs).ok hrun).1
      · exact ((populatePage_spec hs).error hrun).2
    · cases h
      exact .refl hs
    · rcases sectionResult_eq_some h with ⟨_, -, hphase⟩ | ⟨e, -, hphase⟩
      · rw [hphase]
        split
        · exact .inl rfl
        · exact .inr rfl
      · rw [hphase]
        exact .inl rfl
    · cases h
      exact .inr rfl
  | storing address input =>
    obtain ⟨hlt, hallows⟩ := hrange _ _ rfl
    have huser := hallows.user hs (by omega)
    have hwritten : Written address input.length s t ∧ phase' = .idle := by
      rcases sectionResult_eq_some h with ⟨_, hrun, rfl⟩ | ⟨e, hrun, rfl⟩
      · exact ⟨(copyResident_spec hs huser).ok hrun, rfl⟩
      · exact ⟨(copyResident_spec hs huser).error hrun ⟨e, rfl⟩, rfl⟩
    refine ⟨hwritten.1.calm hs, .inl (by rw [hwritten.2]; rfl), fun address' input' heq => ?_⟩
    cases heq
    exact hwritten.1

end steps

variable {s t : CopyState}

theorem copyStep_inv (hs : CopyInv s) {label : CopyLabel} (hspares : label.Spares s) (h : copySystem.step s label t) :
    CopyInv t := by
  cases label with
  | begin choices reserves address input =>
    obtain ⟨-, hrun⟩ := h
    have hcalm : Calm s.mm (answering choices reserves s.mm) := (answering_untouched hs.mm choices reserves).outcome hs.mm
    rcases beginCopy_eq_some hcalm.inv hrun with ⟨ht, hphase⟩ | ⟨hne, hallows, hwritten, hphase⟩
    · rw [← ht] at hcalm
      refine ⟨hcalm.inv, fun low high hrange => ?_⟩
      rw [hphase] at hrange
      cases hrange
    · refine ⟨(hwritten.calm hcalm.inv).inv, fun low high hrange => ?_⟩
      rcases hphase with hphase | hphase
      · rw [hphase] at hrange
        cases hrange
      · rw [hphase] at hrange
        cases hrange
        have := List.length_pos_iff.2 hne
        exact ⟨by omega, hallows.of_calm (hwritten.calm hcalm.inv)⟩
  | next choices reserves =>
    have hcalm : Calm s.mm (answering choices reserves s.mm) := (answering_untouched hs.mm choices reserves).outcome hs.mm
    have hrange : ∀ low high, s.phase.range = some (low, high) → low < high ∧ Allows .write low high _ := fun low high hr =>
      ⟨(hs.range low high hr).1, (hs.range low high hr).2.of_calm hcalm⟩
    obtain ⟨hcalm', hphase, -⟩ := continueCopy_eq_some hcalm.inv hrange h
    refine ⟨hcalm'.inv, fun low high hr => ?_⟩
    rcases hphase with hnone | hsame
    · rw [hnone] at hr
      cases hr
    · rw [hsame] at hr
      exact ⟨(hrange low high hr).1, (hrange low high hr).2.of_calm hcalm'⟩
  | call choices reserves c =>
    obtain ⟨⟨hc, hrun⟩, hphase⟩ := h
    have hcalm : Calm s.mm (answering choices reserves s.mm) := (answering_untouched hs.mm choices reserves).outcome hs.mm
    have hstep : system.step s.mm (.call choices reserves c) t.mm := ⟨hc, hrun⟩
    refine ⟨(step_keeps hs.mm hstep).1, fun low high hrange => ?_⟩
    rw [hphase] at hrange
    obtain ⟨hlt, hallows⟩ := hs.range low high hrange
    have hspec := c.exec_allows hcalm.inv hc (hspares low high hrange) (hallows.of_calm hcalm)
    refine ⟨hlt, ?_⟩
    rcases hrun with hok | ⟨e, herror⟩
    · exact hspec.ok hok
    · exact hspec.error herror ⟨e, rfl⟩
  | kernel =>
    obtain ⟨hstep, hphase⟩ := h
    refine ⟨(step_keeps hs.mm hstep).1, fun low high hrange => ?_⟩
    rw [hphase] at hrange
    obtain ⟨hlt, hallows⟩ := hs.range low high hrange
    refine ⟨hlt, hallows.of_attr fun x v _ _ hv => ?_⟩
    rw [attr, hstep.layout]
    exact hv

theorem copyInv_of_reachable (h : (copySystem.restrict fun s label => label.Spares s).Reachable s) : CopyInv s := by
  refine h.invariant (fun s hs => ⟨inv_of_reachable hs.1, fun low high hrange => ?_⟩) ?_
  · rw [hs.2] at hrange
    cases hrange
  · rintro s label t hs ⟨hstep, hspares⟩
    exact copyStep_inv hs hspares hstep

/-- A byte of the address space that a program may write. -/
def Writable (s : UserMmState) (low high physical : Nat) : Prop :=
  ∃ x, low ≤ x ∧ x < high ∧ RuntimePageTable.translate s.table x = .ok (some physical) ∧
    ∃ area, s.core.layout.findArea x = some area ∧ area.flags.write = true

theorem Written.writable {s t : UserMmState} {address length physical : Nat} (hs : Inv s) (h : Written address length s t)
    (hallows : Allows .write address (address + length) s) (hp : t.table.loadByte physical ≠ s.table.loadByte physical) :
    Writable s address (address + length) physical := by
  obtain ⟨x, hlow, hhigh, y, hy, rfl⟩ := h.bytes physical hp
  obtain ⟨f, k, hf, hwrite⟩ := hallows x hlow hhigh
  obtain ⟨area, harea, heq⟩ := Option.map_eq_some_iff.1 ((hs.layout.attr_eq x).symm.trans hf)
  refine ⟨x, hlow, hhigh, ?_, area, harea, ?_⟩
  · rw [hs.backed.translate (hs.userAddress harea), hy]
    rfl
  · rw [(Prod.mk.inj heq).1]
    exact hwrite

/-- Whatever other threads do, as long as they do not take the range of the copy away, each byte that the copy stores lies
in a page whose area is writable at that moment. -/
theorem copy_stores_writable (h : (copySystem.restrict fun s label => label.Spares s).Reachable s) {label : CopyLabel}
    (hstep : copySystem.step s label t) {low high : Nat} (hrange : label.storesTo s = some (low, high)) :
    ∀ physical, t.mm.table.loadByte physical ≠ s.mm.table.loadByte physical → Writable s.mm low high physical := by
  intro physical hchanged
  have hs := copyInv_of_reachable h
  cases label with
  | begin choices reserves address input =>
    cases hrange
    have hcalm : Calm s.mm (answering choices reserves s.mm) := (answering_untouched hs.mm choices reserves).outcome hs.mm
    rcases beginCopy_eq_some hcalm.inv hstep.2 with ⟨ht, -⟩ | ⟨-, hallows, hwritten, -⟩
    · rw [ht] at hchanged
      exact absurd rfl hchanged
    · exact Written.writable (s := answering choices reserves s.mm) hcalm.inv hwritten hallows hchanged
  | next choices reserves =>
    have hcalm : Calm s.mm (answering choices reserves s.mm) := (answering_untouched hs.mm choices reserves).outcome hs.mm
    cases hphase : s.phase with
    | idle | populating => simp only [CopyLabel.storesTo, hphase] at hrange; cases hrange
    | storing address input =>
      simp only [CopyLabel.storesTo, hphase] at hrange
      cases hrange
      have hr : ∀ low high, s.phase.range = some (low, high) →
          low < high ∧ Allows .write low high (answering choices reserves s.mm) := fun low high hr =>
        ⟨(hs.range low high hr).1, (hs.range low high hr).2.of_calm hcalm⟩
      obtain ⟨-, -, hwritten⟩ := continueCopy_eq_some hcalm.inv hr hstep
      have hallows := (hr _ _ (by rw [hphase]; rfl)).2
      exact Written.writable (s := answering choices reserves s.mm) hcalm.inv (hwritten _ _ hphase) hallows hchanged
  | call | kernel => cases hrange

def CopyLabel.perform (s : CopyState) : CopyLabel → Option CopyState
  | .begin choices reserves address input =>
    if s.phase = .idle then
      (beginCopy address input (answering choices reserves s.mm)).map fun r => ⟨r.1, r.2⟩
    else none
  | .next choices reserves => (continueCopy (answering choices reserves s.mm) s.phase).map fun r => ⟨r.1, r.2⟩
  | .call choices reserves c => ((MmLabel.call choices reserves c).perform s.mm).map fun mm => ⟨mm, s.phase⟩
  | .kernel => none

theorem CopyLabel.perform_step {label : CopyLabel} (h : label.perform s = some t) : copySystem.step s label t := by
  cases label with
  | begin choices reserves address input =>
    unfold perform at h
    dsimp only at h
    split_ifs at h with hidle
    obtain ⟨r, hr, rfl⟩ := Option.map_eq_some_iff.1 h
    exact ⟨hidle, hr⟩
  | next choices reserves =>
    obtain ⟨r, hr, rfl⟩ := Option.map_eq_some_iff.1 h
    exact hr
  | call choices reserves c =>
    obtain ⟨mm, hmm, rfl⟩ := Option.map_eq_some_iff.1 h
    exact ⟨MmLabel.perform_step hmm, rfl⟩
  | kernel => cases h

def afterSections (script : List CopyLabel) : Option CopyState :=
  onePage.bind fun s => TransitionSystem.play CopyLabel.perform ⟨s, .idle⟩ script

theorem afterSections_reachable {script : List CopyLabel} (h : afterSections script = some s) : copySystem.Reachable s := by
  obtain ⟨first, hfirst, hplay⟩ := Option.bind_eq_some_iff.1 h
  have hinit : copySystem.init ⟨first, .idle⟩ := ⟨.init (onePage_init hfirst), rfl⟩
  exact TransitionSystem.Reachable.later (.init hinit) (TransitionSystem.play_later CopyLabel.perform_step hplay)

def copySections : List CopyLabel :=
  [.begin [] [] 0x1000 [7], .next [some 2, some 3, some 4] [true, true], .next [] []]

def protectBeside (access : VmAreaFlags) : CopyLabel :=
  .call [] [true, true, true] (.protectRange (.fromBounds 0x1000 0x2000 onePage_le) access)

/-- Beside an `mprotect` that leaves the page writable, the byte is stored to a page that may be written. -/
theorem copy_stores_writable_beside : ∃ s t,
    afterSections (copySections ++ [protectBeside { read := true, write := true }]) = some s ∧
    (CopyLabel.next [] []).perform s = some t ∧
    t.mm.table.loadByte 0x2000 ≠ s.mm.table.loadByte 0x2000 ∧ Writable s.mm 0x1000 0x1001 0x2000 := by
  have hrun : ((afterSections (copySections ++ [protectBeside { read := true, write := true }])).any fun s =>
      decide ((CopyLabel.next [] []).storesTo s = some (0x1000, 0x1001)) &&
      ((CopyLabel.next [] []).perform s).any fun t =>
        decide (t.mm.table.loadByte 0x2000 ≠ s.mm.table.loadByte 0x2000)) = true := by decide +kernel
  obtain ⟨s, hs, hstored⟩ := (Option.any_eq_true _ _).1 hrun
  simp only [Bool.and_eq_true, decide_eq_true_eq, Option.any_eq_true] at hstored
  obtain ⟨hrange, t, ht, hchanged⟩ := hstored
  have hspares : ∀ label ∈ copySections ++ [protectBeside { read := true, write := true }], ∀ s, label.Spares s := by
    simp [copySections, protectBeside, CopyLabel.Spares, MmCall.Spares]
  refine ⟨s, t, hs, ht, hchanged, copy_stores_writable ?_ (CopyLabel.perform_step ht) hrange _ hchanged⟩
  obtain ⟨first, hfirst, hplay⟩ := Option.bind_eq_some_iff.1 hs
  have hinit : (copySystem.restrict fun s label => label.Spares s).Reachable ⟨first, .idle⟩ :=
    .init ⟨.init (onePage_init hfirst), rfl⟩
  refine hinit.later (TransitionSystem.play_later_of_mem (fun label hlabel s t hstep => ?_) hplay)
  exact ⟨CopyLabel.perform_step hstep, hspares label hlabel s⟩

/-- Another thread makes the page read-only before the copy comes to its last section; the byte is stored all the same. -/
theorem copy_stores_readOnly : ∃ s t label, copySystem.Reachable s ∧ copySystem.step s label t ∧
    label.storesTo s = some (0x1000, 0x1001) ∧ RuntimePageTable.translate s.mm.table 0x1000 = .ok (some 0x2000) ∧
    t.mm.table.loadByte 0x2000 ≠ s.mm.table.loadByte 0x2000 ∧
    ∃ area, s.mm.core.layout.findArea 0x1000 = some area ∧ area.flags.write = false := by
  have hrun : ((afterSections (copySections ++ [protectBeside { read := true }])).any fun s =>
      decide ((CopyLabel.next [] []).storesTo s = some (0x1000, 0x1001)) &&
        decide (RuntimePageTable.translate s.mm.table 0x1000 = .ok (some 0x2000)) &&
        (((CopyLabel.next [] []).perform s).any fun t =>
          decide (t.mm.table.loadByte 0x2000 ≠ s.mm.table.loadByte 0x2000)) &&
        (s.mm.core.layout.findArea 0x1000).any fun area => !area.flags.write) = true := by decide +kernel
  obtain ⟨s, hs, hstored⟩ := (Option.any_eq_true _ _).1 hrun
  simp only [Bool.and_eq_true, decide_eq_true_eq, Option.any_eq_true] at hstored
  obtain ⟨⟨⟨hrange, htranslate⟩, t, ht, hchanged⟩, area, harea, hwrite⟩ := hstored
  exact ⟨s, t, .next [] [], afterSections_reachable hs, CopyLabel.perform_step ht, hrange, htranslate, hchanged, area,
    harea, by simpa using hwrite⟩

end UserMm

end SudoOS
