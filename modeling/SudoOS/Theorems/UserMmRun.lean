import SudoOS.Theorems.FaultRights
import SudoOS.Theorems.UserMmLife

/-! All histories of user address spaces. -/

namespace SudoOS

open Program RuntimePageTable
open PageTableEntry (Rights optionsRights)

namespace UserMm

inductive MmCall
  | mapAnonymous (search : VirtRange) (size : Nat) (flags : VmAreaFlags)
  | mapAnonymousExact (range : VirtRange) (flags : VmAreaFlags)
  | replaceAnonymousExact (range : VirtRange) (flags : VmAreaFlags)
  | unmapRange (range : VirtRange)
  | discardAnonymousRange (range : VirtRange)
  | protectRange (range : VirtRange) (access : VmAreaFlags)
  | setProgramBreak (newBreak : Nat)
  | resolveUserFault (cpu address : Nat) (access : FaultAccess) (userSp : Nat)
  | populatePage (address : Nat)
  | populateZeroedRange (address length : Nat)
  | loadBytes (address : Nat) (input : List Nat)
  | copyToUser (address : Nat) (input : List Nat)
  | copyIfMapped (address : Nat) (input : List Nat)
  | copyResident (address : Nat) (input : List Nat)
  | copyFromUser (address length : Nat)

namespace MmCall

def exec : MmCall → UserMmM Unit
  | mapAnonymous search size flags => (fun _ => ()) <$> UserMm.mapAnonymous search size flags
  | mapAnonymousExact range flags => (fun _ => ()) <$> UserMm.mapAnonymousExact range flags
  | replaceAnonymousExact range flags => (fun _ => ()) <$> UserMm.replaceAnonymousExact range flags
  | unmapRange range => UserMm.unmapRange range
  | discardAnonymousRange range => UserMm.discardAnonymousRange range
  | protectRange range access => UserMm.protectRange range access
  | setProgramBreak newBreak => (fun _ => ()) <$> UserMm.setProgramBreak newBreak
  | resolveUserFault cpu address access userSp => (fun _ => ()) <$> UserMm.resolveUserFault cpu address access userSp
  | populatePage address => (fun _ => ()) <$> UserMm.populatePage address
  | populateZeroedRange address length => UserMm.populateZeroedRange address length
  | loadBytes address input => UserMm.loadBytes address input
  | copyToUser address input => UserMm.copyToUser address input
  | copyIfMapped address input => (fun _ => ()) <$> UserMm.copyIfMapped address input
  | copyResident address input => UserMm.copyResident address input
  | copyFromUser address length => (fun _ => ()) <$> UserMm.copyFromUser address length

def Lawful : MmCall → Prop
  | mapAnonymous _ _ flags | mapAnonymousExact _ flags | replaceAnonymousExact _ flags => flags.Lawful
  | protectRange _ access => ¬access.NoAccess → access.read = true
  | copyResident address input => address + input.length ≤ userEnd
  | _ => True

def touches (s : UserMmState) : MmCall → Nat → Prop
  | replaceAnonymousExact range _ | unmapRange range | protectRange range _ => range.contains
  | setProgramBreak _ => OnHeap s
  | _ => fun _ => False

def KeepsLeaves (s : UserMmState) : MmCall → Prop
  | protectRange range access => ProtectsLeaves range access s
  | setProgramBreak newBreak => HeapLeaves newBreak s
  | _ => True

def KeepsRights (s : UserMmState) : MmCall → Prop
  | protectRange range access => ProtectsRights range access s
  | setProgramBreak newBreak => HeapRights newBreak s
  | _ => True

variable {s : UserMmState}

theorem exec_outcome (hs : Inv s) (c : MmCall) (hc : c.Lawful) : wp c.exec s
    (fun _ t => Outcome (c.touches s) (c.KeepsLeaves s) (c.KeepsRights s) s t)
    (fun e t => e.IsError → Outcome (c.touches s) (c.KeepsLeaves s) (c.KeepsRights s) s t) := by
  cases c with
  | mapAnonymous search size flags =>
    exact wp_map.2 ((mapAnonymous_spec hs hc).mono (fun _ _ h => .of_calm h.1) fun _ _ h _ => .of_calm h.2)
  | mapAnonymousExact range flags =>
    exact wp_map.2 ((mapAnonymousExact_spec hs hc).mono (fun _ _ h => .of_calm h.1) fun _ _ h _ => .of_calm h.2)
  | replaceAnonymousExact range flags =>
    exact wp_map.2 ((replaceAnonymousExact_spec hs hc).mono (fun _ _ h => h.1) fun _ _ h => h)
  | unmapRange range => exact unmapRange_spec hs
  | discardAnonymousRange range =>
    exact (discardAnonymousRange_spec hs).mono (fun _ _ h => .of_calm h) fun _ _ h he => .of_calm (h he)
  | protectRange range access =>
    exact (protectRange_spec hs hc).mono (fun _ _ h => h.outcome) fun _ _ h he => (h he).outcome
  | setProgramBreak newBreak => exact wp_map.2 (setProgramBreak_spec hs)
  | resolveUserFault cpu address access userSp =>
    exact wp_map.2 ((resolveUserFault_spec hs).mono (fun _ _ h => .of_calm h.1) fun _ _ h he => .of_calm (h he))
  | populatePage address =>
    exact wp_map.2 ((populatePage_spec hs).mono (fun _ _ h => .of_calm h.1) fun _ _ h _ => .of_calm h.2)
  | populateZeroedRange address length =>
    exact (populateZeroedRange_spec hs).mono (fun _ _ h => .of_calm h) fun _ _ h he => .of_calm (h he)
  | loadBytes address input =>
    exact (loadBytes_spec hs).mono (fun _ _ h => .of_calm h) fun _ _ h he => .of_calm (h he)
  | copyToUser address input =>
    exact (copyToUser_spec hs).mono (fun _ _ h => .of_calm h) fun _ _ h he => .of_calm (h he)
  | copyIfMapped address input =>
    refine wp_map.2 ((copyIfMapped_spec hs).mono (fun _ _ h => .of_calm (h.2.calm hs)) fun _ _ h he => ?_)
    rcases h he with rfl | ⟨-, ht⟩
    · exact .refl hs
    · exact .of_calm (ht.calm hs)
  | copyResident address input =>
    exact (copyResident_spec hs hc).mono (fun _ _ h => .of_calm (h.calm hs)) fun _ _ h he => .of_calm ((h he).calm hs)
  | copyFromUser address length =>
    refine wp_map.2 ((copyFromUser_spec hs).mono ?_ ?_)
    · rintro _ _ rfl
      exact .refl hs
    · rintro _ _ ⟨-, rfl⟩ -
      exact .refl hs

end MmCall

/-! ### Histories -/

def answering (choices : List (Option Nat)) (reserves : List Bool) (s : UserMmState) : UserMmState :=
  setTable { s.table with choices := choices, reserves := reserves } s

structure Environment (s t : UserMmState) : Prop where
  layout : t.core.layout = s.core.layout
  pages : t.pages = s.pages
  table : KernelStep s.table t.table
  frames : ∀ m ∈ s.pages, t.table.free m.backing = false ∧ t.table.kernelOwned m.backing = false

inductive MmLabel
  | call (choices : List (Option Nat)) (reserves : List Bool) (c : MmCall)
  | fork (choices : List (Option Nat)) (reserves : List Bool) (asid : AsidToken)
  | kernel

def start (asid : AsidToken) (areas : List VmArea) (low limit : Nat) : UserMmM Unit := do
  new asid areas
  configureProgramBreak low limit

def Layable (areas : List VmArea) : Prop := LawfulAreas areas ∧ ∀ a ∈ areas, a.kind ≠ .heap

/-- All histories of address spaces. A call that panics ends the history. -/
def system : TransitionSystem UserMmState MmLabel where
  init t := ∃ s asid areas low limit, KernelReady s.table ∧ Layable areas ∧ start asid areas low limit s = .ok () t
  step s label t :=
    match label with
    | .call choices reserves c => c.Lawful ∧ (c.exec (answering choices reserves s) = .ok () t ∨
        ∃ e, c.exec (answering choices reserves s) = .error (.error e) t)
    | .fork choices reserves asid => ∃ parent, forkCloneEager asid (answering choices reserves s) = .ok (parent, t)
    | .kernel => Environment s t

variable {s t : UserMmState}

theorem KernelStep.view_eq {table table' : PageTableState} {place : Nat → List Nat} (h : KernelStep table table')
    (hw : Wf table place) : view table' = view table := by
  have hw' := h.wf hw
  refine view_same fun a _ => ?_
  have htable : leafTable table' a = leafTable table a := by
    refine Option.ext fun l => ?_
    rw [hw'.leafTable_iff, hw.leafTable_iff, h.tables]
  rw [leafRaw, leafRaw, htable]
  cases hl : leafTable table a with
  | none => rfl
  | some l =>
    have hmem := (hw.leafTable_iff.1 hl).1
    rw [Option.map_some, Option.map_some, h.entry l (.inr hmem) _ fun hr => absurd hr (hw.tree.ne_root hmem)]

theorem Environment.kept (h : Environment s t) (hs : Inv s) : Kept s t := by
  obtain ⟨place, hw⟩ := hs.backed.wf
  have hview := KernelStep.view_eq h.table hw
  refine ⟨⟨⟨place, h.table.wf hw⟩, h.pages ▸ hs.backed.backings, fun m hm => ?_, h.pages ▸ hs.backed.user, ?_⟩, ⟨[], ?_⟩,
    fun _ _ => congrFun hview _, fun _ _ => by rw [attr, attr, h.layout]⟩
  · rw [h.pages] at hm
    obtain ⟨hforeign, hram⟩ := hs.backed.frames m hm
    obtain ⟨hfree, hkernel⟩ := h.frames m hm
    refine ⟨⟨hfree, ?_, ?_, ?_, hkernel⟩, ?_⟩
    · rw [h.table.root]
      exact hforeign.ne_root
    · rw [h.table.tables]
      exact hforeign.not_table
    · rw [h.table.retired]
      exact hforeign.not_retired
    · rw [h.table.ram]
      exact hram
  · rw [hview, h.pages]
    exact hs.backed.leaf
  · exact .of_eq h.pages.symm

theorem answering_untouched (hs : Inv s) (choices : List (Option Nat)) (reserves : List Bool) :
    Untouched s (answering choices reserves s) := by
  obtain ⟨place, hw⟩ := hs.backed.wf
  exact ⟨rfl, rfl, ⟨place, hw.answers choices reserves⟩, ⟨rfl, rfl, rfl, rfl, fun _ _ => rfl, fun _ _ => rfl,
    fun f hf => ⟨⟨hf.used, hf.ne_root, hf.not_table, hf.not_retired, hf.not_kernel⟩, rfl⟩⟩, rfl⟩

/-- An address space without pages has nothing out of line. -/
theorem Inv.coherent_of_empty (hs : Inv s) (hpages : s.pages = []) : Coherent s ∧ Permitted s := by
  have horderly : Orderly s := ⟨hs, fun m hm => by
    rw [hpages] at hm
    exact absurd hm List.not_mem_nil⟩
  refine ⟨horderly.coherent ?_, horderly.permitted⟩
  rw [hpages]
  exact .nil

theorem start_spec {asid : AsidToken} {areas : List VmArea} {low limit : Nat} (hk : KernelReady s.table)
    (hareas : Layable areas) :
    wp (start asid areas low limit) s (fun _ t => Inv t ∧ Coherent t ∧ Permitted t) (fun _ _ => True) := by
  have hheap : HeapUnder none areas := fun a ha hkind => absurd hkind (hareas.2 a ha)
  simp only [start, wp_bind]
  refine (new_spec hk hheap fun b hb => (by cases hb)).mono ?_ fun _ _ _ => trivial
  intro _ t ht
  refine (configureProgramBreak_spec (ht.inv hareas.1) ht.brk).mono ?_ fun _ _ _ => trivial
  rintro _ u ⟨hu, hpages, -, -⟩
  exact ⟨hu, hu.coherent_of_empty (hpages.trans ht.pages)⟩

/-! ### What every history keeps -/

/-- What a step does to an address space in order, and to one whose pages or rights are in line, under the conditions on
calls. -/
def MmLabel.KeepsLeaves (s : UserMmState) : MmLabel → Prop
  | .call choices reserves c => c.KeepsLeaves (answering choices reserves s)
  | _ => True

def MmLabel.KeepsRights (s : UserMmState) : MmLabel → Prop
  | .call choices reserves c => c.KeepsRights (answering choices reserves s)
  | _ => True

theorem step_keeps (hs : Inv s) {label : MmLabel} (h : system.step s label t) :
    Inv t ∧ (label.KeepsLeaves s → Coherent s → Coherent t) ∧ (label.KeepsRights s → Permitted s → Permitted t) := by
  cases label with
  | call choices reserves c =>
    obtain ⟨hc, hrun⟩ := h
    have hcalm : Calm s (answering choices reserves s) := (answering_untouched hs choices reserves).outcome hs
    have hspec := c.exec_outcome hcalm.inv hc
    have hout : Outcome (c.touches (answering choices reserves s)) (c.KeepsLeaves (answering choices reserves s))
        (c.KeepsRights (answering choices reserves s)) (answering choices reserves s) t := by
      rcases hrun with hok | ⟨e, herror⟩
      · exact hspec.ok hok
      · exact hspec.error herror ⟨e, rfl⟩
    exact ⟨hout.inv, fun hl hcoh => hout.coherent hl (hcalm.coherent trivial hcoh),
      fun hr hp => hout.permitted hr (hcalm.permitted trivial hp)⟩
  | fork choices reserves asid =>
    obtain ⟨parent, hrun⟩ := h
    have hcalm : Calm s (answering choices reserves s) := (answering_untouched hs choices reserves).outcome hs
    have hforked := forkCloneEager_forked hcalm.inv hrun
    refine ⟨hforked.orderly.inv, fun _ hcoh => hforked.orderly.coherent ?_, fun _ _ => hforked.orderly.permitted⟩
    rw [CopyOf.pages_eq hforked.pages]
    exact hcoh.unique
  | kernel =>
    have hkept := Environment.kept h hs
    have hattr : attr t = attr s := by
      funext x
      rw [attr, attr, h.layout]
    refine ⟨hkept.inv hs ?_ (hattr ▸ hs.lawful), fun _ hcoh => hkept.coherent hcoh, fun _ hp => ?_⟩
    · rw [h.layout]
      exact hs.layout
    · exact hkept.settled.permitted hkept.backed hp

theorem init_keeps (h : system.init s) : Inv s ∧ Coherent s ∧ Permitted s := by
  obtain ⟨seed, asid, areas, low, limit, hk, hareas, hstart⟩ := h
  exact (start_spec hk hareas).ok hstart

theorem inv_of_reachable (h : system.Reachable s) : Inv s :=
  h.invariant (fun _ hs => (init_keeps hs).1) fun _ _ _ hs hstep => (step_keeps hs hstep).1

theorem coherent_of_reachable (h : (system.restrict fun s label => label.KeepsLeaves s).Reachable s) : Inv s ∧
    Coherent s := by
  refine h.invariant (I := fun s => Inv s ∧ Coherent s) (fun _ hs => ⟨(init_keeps hs).1, (init_keeps hs).2.1⟩) ?_
  rintro s label t ⟨hinv, hcoh⟩ ⟨hstep, hkeeps⟩
  obtain ⟨ht, hcoherent, -⟩ := step_keeps hinv hstep
  exact ⟨ht, hcoherent hkeeps hcoh⟩

theorem permitted_of_reachable (h : (system.restrict fun s label => label.KeepsRights s).Reachable s) : Inv s ∧
    Permitted s := by
  refine h.invariant (I := fun s => Inv s ∧ Permitted s) (fun _ hs => ⟨(init_keeps hs).1, (init_keeps hs).2.2⟩) ?_
  rintro s label t ⟨hinv, hp⟩ ⟨hstep, hkeeps⟩
  obtain ⟨ht, -, hpermitted⟩ := step_keeps hinv hstep
  exact ⟨ht, hpermitted hkeeps hp⟩

/-! ### The bookkeeping of resident pages -/

/-- Each page has at most one record, each record lies in an area, each leaf leads to the frame on record for its page, and
a page on record has no leaf only where its area grants no access. -/
structure Bookkeeping (s : UserMmState) : Prop where
  unique : (s.pages.map MappedPage.page).Nodup
  area : ∀ m ∈ s.pages, ∃ area, s.core.layout.findArea m.page.start = some area
  leaf : ∀ address < userEnd, ∀ physical, RuntimePageTable.translate s.table address = .ok (some physical) →
    ∃ m ∈ s.pages, m.page = .containingAddress address ∧ physical = m.backing * pageSize + address % pageSize
  absent : ∀ m ∈ s.pages, RuntimePageTable.translate s.table m.page.start = .ok none →
    ∀ area, s.core.layout.findArea m.page.start = some area → area.flags.accessOnly = .empty

theorem Coherent.bookkeeping (hc : Coherent s) (hs : Inv s) : Bookkeeping s := by
  refine ⟨hc.unique, fun m hm => ?_, fun address haddress physical hphysical => ?_, fun m hm hnone area hfind => ?_⟩
  · obtain ⟨f, k, hf, -⟩ := hs.record m hm
    rw [attr, hs.layout.attr_eq] at hf
    obtain ⟨area, harea, -⟩ := Option.map_eq_some_iff.1 hf
    exact ⟨area, harea⟩
  · rw [hs.backed.translate haddress] at hphysical
    obtain ⟨y, hy, rfl⟩ := Option.map_eq_some_iff.1 (Except.ok.inj hphysical)
    exact ⟨_, hs.backed.leaf _ _ _ hy, rfl, rfl⟩
  · rw [hs.backed.translate_page (hs.backed.user m hm)] at hnone
    have hview := Option.map_eq_none_iff.1 (Except.ok.inj hnone)
    exact hc.absent m hm hview _ _ (hs.attr_of_findArea hfind)

theorem retireRangeLocked_no_panic (hs : Inv s) (hc : Coherent s) (range : VirtRange) :
    wp (retireRangeLocked range) s (fun _ _ => True) (fun e _ => e.IsError) := by
  refine (retireRangeLocked_spec hs.backed).mono (fun _ _ _ => trivial) ?_
  rintro e t (⟨-, m, hm, -, hnot⟩ | ⟨he, -⟩)
  · exact absurd (hc.matches hs.backed hm) hnot
  · exact he

/-- Over every history in which no call leaves a page without a leaf behind, the bookkeeping is coherent, and the assertions
of `retire_range_locked` and `destroy` hold. -/
theorem history_bookkeeping (h : (system.restrict fun s label => label.KeepsLeaves s).Reachable s) : Bookkeeping s ∧
    ∀ choices reserves,
      (∀ range p t, retireRangeLocked range (answering choices reserves s) ≠ .error (.panic p) t) ∧
      ∀ p t, destroy (answering choices reserves s) ≠ .error (.panic p) t := by
  obtain ⟨hs, hc⟩ := coherent_of_reachable h
  refine ⟨hc.bookkeeping hs, fun choices reserves => ?_⟩
  have hcalm : Calm s (answering choices reserves s) := (answering_untouched hs choices reserves).outcome hs
  have hc' := hcalm.coherent trivial hc
  have hno : ∀ p : UserMmPanic, ¬(Stop.panic p : UserMmStop).IsError := by
    rintro p ⟨_, he⟩
    cases he
  exact ⟨fun range p t hrun => hno p ((retireRangeLocked_no_panic hcalm.inv hc' range).error hrun),
    fun p t hrun => hno p ((destroy_spec hcalm.inv hc').error hrun)⟩

instance (f : VmAreaFlags) : Decidable f.Lawful :=
  decidable_of_iff (f.user = true ∧ f.device = false ∧ f.copyOnWrite = false)
    ⟨fun h => ⟨h.1, h.2.1, h.2.2⟩, fun h => ⟨h.user, h.not_device, h.not_copyOnWrite⟩⟩

instance (c : MmCall) : Decidable c.Lawful := by
  cases c <;> (unfold MmCall.Lawful; infer_instance)

def MmLabel.perform (s : UserMmState) : MmLabel → Option UserMmState
  | .call choices reserves c =>
    if c.Lawful then
      match c.exec (answering choices reserves s) with
      | .ok _ t => some t
      | .error (.error _) t => some t
      | .error (.panic _) _ => none
    else none
  | _ => none

theorem MmLabel.perform_step {label : MmLabel} (h : label.perform s = some t) : system.step s label t := by
  cases label with
  | call choices reserves c =>
    unfold perform at h
    dsimp only at h
    split_ifs at h with hc
    refine ⟨hc, ?_⟩
    split at h
    · rename_i _ u hrun
      cases h
      exact .inl hrun
    · rename_i e u hrun
      cases h
      exact .inr ⟨e, hrun⟩
    · cases h
  | fork | kernel => cases h

def bareMachine : UserMmState := ⟨.new userRange ⟨1, 1⟩, { bareKernel with choices := [some 1], reserves := [true] }, []⟩

theorem onePage_le : 0x1000 ≤ 0x2000 := by decide

/-- An address space of one page that may be read and written. -/
def onePage : Option UserMmState :=
  match start ⟨1, 1⟩ [⟨.fromBounds 0x1000 0x2000 onePage_le, .userRw, .anonymous⟩] 0x600000 0x700000 bareMachine with
  | .ok _ s => some s
  | .error _ _ => none

theorem onePage_init (h : onePage = some s) : system.init s := by
  refine ⟨bareMachine, ⟨1, 1⟩, [⟨.fromBounds 0x1000 0x2000, .userRw, .anonymous⟩], 0x600000, 0x700000, ?_, ⟨?_, ?_⟩, ?_⟩
  · exact ⟨bareKernel_ready.free_ram, bareKernel_ready.used, bareKernel_ready.kernelRoot⟩
  · exact List.forall_mem_singleton.2 ⟨userRw_lawful, trivial⟩
  · exact List.forall_mem_singleton.2 fun hk => (nomatch hk)
  · unfold onePage at h
    split at h
    · rename_i _ u hrun
      cases h
      exact hrun
    · cases h

def afterCalls (script : List MmLabel) : Option UserMmState :=
  onePage.bind fun s => TransitionSystem.play MmLabel.perform s script

theorem afterCalls_reachable {script : List MmLabel} (h : afterCalls script = some s) : system.Reachable s := by
  obtain ⟨first, hfirst, hplay⟩ := Option.bind_eq_some_iff.1 h
  exact TransitionSystem.Reachable.later (.init (onePage_init hfirst))
    (TransitionSystem.play_later MmLabel.perform_step hplay)

def writeFault (choices : List (Option Nat)) (reserves : List Bool) : MmLabel :=
  .call choices reserves (.resolveUserFault 0 0x1000 .write 0x3000)

def protectBeyond (access : VmAreaFlags) : MmLabel :=
  .call [] [true, true] (.protectRange (.fromBounds 0x1000 0x3000) access)

/-- With `mprotect` to no access over a gap, the page loses its leaf and its area stays; the next fault puts it on record
again, and its retirement panics. -/
theorem retire_panics_after_protect : ∃ s, system.Reachable s ∧
    ∃ t, retireRangeLocked (.fromBounds 0x1000 0x2000) s = .error (.panic .retirePreflight) t := by
  have hrun : ((afterCalls [writeFault [some 2, some 3, some 4] [true, true], protectBeyond .empty,
      writeFault [some 5] [true]]).any fun s => match retireRangeLocked (.fromBounds 0x1000 0x2000) s with
        | .error (.panic .retirePreflight) _ => true
        | _ => false) = true := by decide +kernel
  obtain ⟨s, hs, hpanic⟩ := (Option.any_eq_true _ _).1 hrun
  refine ⟨s, afterCalls_reachable hs, ?_⟩
  split at hpanic
  · rename_i t ht
    exact ⟨t, ht⟩
  · cases hpanic

theorem faulted_reachable {G : UserMmState → MmLabel → Prop}
    (h : afterCalls [writeFault [some 2, some 3, some 4] [true, true]] = some s)
    (hG : ∀ s, G s (writeFault [some 2, some 3, some 4] [true, true])) : (system.restrict G).Reachable s := by
  obtain ⟨first, hfirst, hplay⟩ := Option.bind_eq_some_iff.1 h
  obtain ⟨u, hstep, hrest⟩ := Option.bind_eq_some_iff.1 hplay
  cases hrest
  exact .step (.init (onePage_init hfirst)) ⟨MmLabel.perform_step hstep, hG first⟩

/-- The page of the address space after its first fault. -/
theorem history_bookkeeping_faulted : ∃ s, afterCalls [writeFault [some 2, some 3, some 4] [true, true]] = some s ∧
    s.pages = [⟨⟨0x1000, rfl⟩, 2⟩] ∧ Bookkeeping s ∧
    (∀ p t, retireRangeLocked (.fromBounds 0x1000 0x2000) (answering [] [] s) ≠ .error (.panic p) t) ∧
    ∀ p t, destroy (answering [] [] s) ≠ .error (.panic p) t := by
  have hrun : ((afterCalls [writeFault [some 2, some 3, some 4] [true, true]]).any fun s =>
      decide (s.pages = [⟨⟨0x1000, rfl⟩, 2⟩])) = true := by decide +kernel
  obtain ⟨s, hs, hpages⟩ := (Option.any_eq_true _ _).1 hrun
  obtain ⟨hbooks, hcalls⟩ := history_bookkeeping (faulted_reachable hs fun _ => trivial)
  exact ⟨s, hs, of_decide_eq_true hpages, hbooks, (hcalls [] []).1 _, (hcalls [] []).2⟩

/-- Over every history, an address that the program can use lies in an area and leads to a frame that is neither free nor
one of the page tables or of the kernel, and no other page leads to that frame. -/
theorem frames_private (h : system.Reachable s) {x physical : Nat} (hx : x < userEnd)
    (hphysical : RuntimePageTable.translate s.table x = .ok (some physical)) :
    (∃ area, s.core.layout.findArea x = some area) ∧ Foreign s.table (physical / 4096) ∧
      ∀ y < userEnd, ∀ q, RuntimePageTable.translate s.table y = .ok (some q) → q / 4096 = physical / 4096 →
      y / 4096 = x / 4096 := by
  have hs := inv_of_reachable h
  have hb := hs.backed
  rw [hb.translate hx] at hphysical
  obtain ⟨⟨frame, r⟩, hleaf, rfl⟩ := Option.map_eq_some_iff.1 (Except.ok.inj hphysical)
  have hrecord := hb.leaf _ _ _ hleaf
  obtain ⟨f, k, hf, -⟩ := hs.record _ hrecord
  rw [attr_page hs, attr, hs.layout.attr_eq] at hf
  obtain ⟨area, harea, -⟩ := Option.map_eq_some_iff.1 hf
  have hframe : (frame * 4096 + x % 4096) / 4096 = frame := by omega
  rw [hframe]
  refine ⟨⟨area, harea⟩, (hb.frames _ hrecord).1, fun y hy q hq hsame => ?_⟩
  rw [hb.translate hy] at hq
  obtain ⟨⟨frame', r'⟩, hleaf', rfl⟩ := Option.map_eq_some_iff.1 (Except.ok.inj hq)
  -- two records of one frame are one record
  have hpage := List.inj_on_of_nodup_map hb.backings (hb.leaf _ _ _ hleaf') hrecord (show frame' = frame by omega)
  have hstart : y - y % 4096 = x - x % 4096 := congrArg (fun m => m.page.start) hpage
  omega

theorem frames_private_faulted : ∃ s, system.Reachable s ∧
    RuntimePageTable.translate s.table 0x1000 = .ok (some 0x2000) ∧ (∃ area, s.core.layout.findArea 0x1000 = some area) ∧
    Foreign s.table 2 ∧ ∀ y < userEnd, ∀ q, RuntimePageTable.translate s.table y = .ok (some q) → q / 4096 = 2 →
      y / 4096 = 1 := by
  have hrun : ((afterCalls [writeFault [some 2, some 3, some 4] [true, true]]).any fun s =>
      decide (RuntimePageTable.translate s.table 0x1000 = .ok (some 0x2000))) = true := by decide +kernel
  obtain ⟨s, hs, hphysical⟩ := (Option.any_eq_true _ _).1 hrun
  have hreach := afterCalls_reachable hs
  exact ⟨s, hreach, of_decide_eq_true hphysical, frames_private hreach (by decide) (of_decide_eq_true hphysical)⟩

/-! ### Rights -/

theorem permits_of_allowed {f : VmAreaFlags} (hf : f.Ordinary) (hlawful : f.Lawful) {access : FaultAccess}
    (h : SudoOS.accessAllowed f access = true) : (optionsRights f.options).Permits .user access := by
  have hno : ¬f.NoAccess := by
    rw [VmAreaFlags.noAccess_iff]
    cases access <;> simp_all [SudoOS.accessAllowed, hlawful.not_copyOnWrite]
  have hread := hf.read hno
  have huser := hlawful.user
  have hcow := hlawful.not_copyOnWrite
  cases access <;> cases hw : f.write <;> cases hx : f.execute <;>
    simp_all [SudoOS.accessAllowed, Rights.Permits, optionsRights, VmAreaFlags.options, VmArea.mappingOptions,
      PagePermissions.readOnly, PagePermissions.readWrite, PagePermissions.readExecute, PagePermissions.readWriteExecute]

/-- Over every history in which each change reaches areas and leaves alike, the leaves grant what the areas grant, and an
access that the areas allow is granted once the fault has been handled. -/
theorem history_permissions (h : (system.restrict fun s label => label.KeepsRights s).Reachable s) :
    (∀ page frame r, view s.table page = some (frame, r) →
      ∃ area, s.core.layout.findArea page.start = some area ∧ r = optionsRights area.mappingOptions) ∧
    ∀ choices reserves cpu address access userSp area resolution t, s.core.layout.findArea address = some area →
      SudoOS.accessAllowed area.flags access = true →
      resolveUserFault cpu address access userSp (answering choices reserves s) = .ok resolution t →
      (∃ recovery, resolution = .recovered recovery) ∧
        ∃ frame r, view t.table (.containingAddress address) = some (frame, r) ∧ r.Permits .user access := by
  obtain ⟨hs, hp⟩ := permitted_of_reachable h
  refine ⟨fun page frame r hview => ?_, ?_⟩
  · obtain ⟨f, k, hf, -⟩ := hs.record _ (hs.backed.leaf _ _ _ hview)
    have hr := hp page _ hview f k hf
    have hfind := hf
    rw [attr, hs.layout.attr_eq] at hfind
    obtain ⟨area, harea, heq⟩ := Option.map_eq_some_iff.1 hfind
    refine ⟨area, harea, ?_⟩
    rw [area.mappingOptions_eq, (Prod.mk.inj heq).1]
    exact hr
  · intro choices reserves cpu address access userSp area resolution t hfind hallowed hrun
    have hcalm : Calm s (answering choices reserves s) := (answering_untouched hs choices reserves).outcome hs
    obtain ⟨hcalm', hanswers⟩ := (resolveUserFault_spec hcalm.inv).ok hrun
    have hattr : attr s address = some (area.flags, area.kind) := hs.attr_of_findArea hfind
    have hst := hcalm.trans hcalm'
    cases resolution with
    | fatal failure =>
      have := hanswers _ _ hattr
      rw [hallowed] at this
      cases this
    | recovered recovery =>
      obtain ⟨y, hy⟩ := hanswers
      refine ⟨⟨recovery, rfl⟩, y.1, y.2, hy, ?_⟩
      have hattr' : attr t (VirtPage.containingAddress address).start = some (area.flags, area.kind) := by
        rw [attr_page hst.inv]
        exact hst.frame address _ hattr id
      rw [hst.permitted trivial hp _ y hy _ _ hattr']
      obtain ⟨f, k, hf, hordinary⟩ := hst.inv.record _ (hst.inv.backed.leaf _ _ _ hy)
      rw [hattr'] at hf
      cases hf
      exact permits_of_allowed hordinary (hs.lawful _ _ _ hattr).1 hallowed

/-- The leaf of the page after its first fault, and a read of the page. -/
theorem history_permissions_faulted : ∃ s, afterCalls [writeFault [some 2, some 3, some 4] [true, true]] = some s ∧
    view s.table ⟨0x1000, rfl⟩ = some (2, ⟨.readWrite, true, false⟩) ∧
    (∃ area, s.core.layout.findArea 0x1000 = some area ∧ ⟨.readWrite, true, false⟩ = optionsRights area.mappingOptions) ∧
    ∃ resolution t, resolveUserFault 0 0x1008 .read 0x3000 (answering [] [] s) = .ok resolution t ∧
      ∃ frame r, view t.table (.containingAddress 0x1008) = some (frame, r) ∧ r.Permits .user .read := by
  have hrun : ((afterCalls [writeFault [some 2, some 3, some 4] [true, true]]).any fun s =>
      decide (view s.table ⟨0x1000, rfl⟩ = some (2, ⟨.readWrite, true, false⟩)) &&
      ((s.core.layout.findArea 0x1008).any fun area => SudoOS.accessAllowed area.flags .read) &&
      endsWith (fun _ _ => true) (resolveUserFault 0 0x1008 .read 0x3000 (answering [] [] s))) = true := by decide +kernel
  obtain ⟨s, hs, htest⟩ := (Option.any_eq_true _ _).1 hrun
  obtain ⟨htest, hresolved⟩ := Bool.and_eq_true_iff.1 htest
  obtain ⟨hview, hallowed⟩ := Bool.and_eq_true_iff.1 htest
  obtain ⟨area, harea, hallowed⟩ := (Option.any_eq_true _ _).1 hallowed
  obtain ⟨resolution, t, hok, -⟩ := endsWith_eq_true hresolved
  have hview := of_decide_eq_true hview
  obtain ⟨hleaves, hfaults⟩ := history_permissions (faulted_reachable hs fun _ => trivial)
  exact ⟨s, hs, hview, hleaves _ _ _ hview, resolution, t, hok, (hfaults _ _ _ _ _ _ _ _ _ harea hallowed hok).2⟩

/-- With `mprotect` to reading over a gap, the leaf loses the right to write and its area keeps it; the fault of a write is
called spurious, and nothing changes. -/
theorem fault_spurious_after_protect : ∃ s, system.Reachable s ∧
    ∃ area, s.core.layout.findArea 0x1000 = some area ∧ SudoOS.accessAllowed area.flags .write = true ∧
    ∃ t frame r, resolveUserFault 0 0x1000 .write 0x3000 s = .ok (.recovered .spurious) t ∧
      view t.table ⟨0x1000, rfl⟩ = some (frame, r) ∧ ¬r.Permits .user .write := by
  have hrun : ((afterCalls [writeFault [some 2, some 3, some 4] [true, true], protectBeyond { read := true }]).any fun s =>
      match resolveUserFault 0 0x1000 .write 0x3000 s with
      | .ok (.recovered .spurious) t =>
        ((s.core.layout.findArea 0x1000).any fun area => SudoOS.accessAllowed area.flags .write) &&
          (view t.table ⟨0x1000, rfl⟩).any fun x => !decide (x.2.Permits .user .write)
      | _ => false) = true := by decide +kernel
  obtain ⟨s, hs, hfault⟩ := (Option.any_eq_true _ _).1 hrun
  refine ⟨s, afterCalls_reachable hs, ?_⟩
  split at hfault
  · rename_i t ht
    rw [Bool.and_eq_true, Option.any_eq_true, Option.any_eq_true] at hfault
    obtain ⟨⟨area, harea, hallowed⟩, ⟨frame, r⟩, hview, hdenied⟩ := hfault
    exact ⟨area, harea, hallowed, t, frame, r, ht, hview, by simpa using hdenied⟩
  · cases hfault

end UserMm

end SudoOS
