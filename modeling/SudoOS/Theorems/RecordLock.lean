import SudoOS.Kernel.RecordLock
import SudoOS.Lib.Program
import SudoOS.Lib.TransitionSystem

/-! The table of record locks as a map from bytes to locks. -/

namespace SudoOS

namespace PosixRecordLock

def file (l : PosixRecordLock) : Nat × Nat := (l.dev, l.ino)

def Covers (l : PosixRecordLock) (byte : Nat) : Prop := l.start ≤ byte ∧ byte < l.stop

instance (l : PosixRecordLock) (byte : Nat) : Decidable (l.Covers byte) := inferInstanceAs (Decidable (_ ∧ _))

def Compatible (l l' : PosixRecordLock) : Prop :=
  ∀ byte, l.file = l'.file → l.Covers byte → l'.Covers byte →
    l.ownerPid ≠ l'.ownerPid ∧ l.lockType = .read ∧ l'.lockType = .read

end PosixRecordLock

namespace RecordLock

open PosixRecordLock

variable {locks : List PosixRecordLock} {r l l' : PosixRecordLock} {byte : Nat}

structure Wf (locks : List PosixRecordLock) : Prop where
  nonempty : ∀ l ∈ locks, l.start < l.stop
  locked : ∀ l ∈ locks, l.lockType ≠ .unlock
  compatible : locks.Pairwise Compatible

/-! ### The map -/

abbrev LockMap := Nat × Nat → Nat → Nat → Option LockType

def view (locks : List PosixRecordLock) : LockMap := fun file owner byte =>
  (locks.find? fun l => l.file = file ∧ l.ownerPid = owner ∧ l.Covers byte).map (·.lockType)

namespace LockMap

variable (m : LockMap)

/-- Some byte of the request is locked by somebody else, and one of the two is a write lock. -/
def Conflicts (r : PosixRecordLock) : Prop :=
  r.lockType ≠ .unlock ∧ ∃ byte, r.Covers byte ∧ ∃ owner, owner ≠ r.ownerPid ∧
    ∃ t, m r.file owner byte = some t ∧ (t = .write ∨ r.lockType = .write)

def set (r : PosixRecordLock) : LockMap := fun file owner byte =>
  if file = r.file ∧ owner = r.ownerPid ∧ r.Covers byte then if r.lockType = .unlock then none else some r.lockType
  else m file owner byte

end LockMap

instance : Std.Symm Compatible := ⟨fun _ _ h byte hfile hl' hl =>
  let ⟨howner, ht, ht'⟩ := h byte hfile.symm hl hl'
  ⟨howner.symm, ht', ht⟩⟩

theorem Wf.unique (h : Wf locks) (hl : l ∈ locks) (hl' : l' ∈ locks) (hfile : l.file = l'.file)
    (howner : l.ownerPid = l'.ownerPid) (hcovers : l.Covers byte) (hcovers' : l'.Covers byte) : l = l' := by
  by_contra hne
  exact (h.compatible.forall hl hl' hne byte hfile hcovers hcovers').1 howner

theorem Wf.view_eq_some (h : Wf locks) {file : Nat × Nat} {owner : Nat} {t : LockType} :
    view locks file owner byte = some t ↔ ∃ l ∈ locks, l.file = file ∧ l.ownerPid = owner ∧ l.Covers byte ∧
      l.lockType = t := by
  rw [view, Option.map_eq_some_iff]
  refine ⟨fun ⟨l, hfind, ht⟩ => ?_, fun ⟨l, hl, hfile, howner, hcovers, ht⟩ => ?_⟩
  · have hprop := List.find?_some hfind
    rw [decide_eq_true_iff] at hprop
    exact ⟨l, List.mem_of_find?_eq_some hfind, hprop.1, hprop.2.1, hprop.2.2, ht⟩
  · cases hfind : locks.find? fun l => l.file = file ∧ l.ownerPid = owner ∧ l.Covers byte with
    | none => exact absurd (decide_eq_true ⟨hfile, howner, hcovers⟩) (List.find?_eq_none.1 hfind l hl)
    | some l' =>
      have hprop := List.find?_some hfind
      rw [decide_eq_true_iff] at hprop
      have hsame := h.unique hl (List.mem_of_find?_eq_some hfind) (hfile.trans hprop.1.symm)
        (howner.trans hprop.2.1.symm) hcovers hprop.2.2
      exact ⟨l', rfl, hsame ▸ ht⟩

def Takes (r l : PosixRecordLock) (byte : Nat) : Prop := l.file = r.file ∧ l.ownerPid = r.ownerPid ∧ r.Covers byte

theorem overlap_iff : fcntlRangesOverlap l.start l.stop l'.start l'.stop = true ↔ l.start < l'.stop ∧
    l'.start < l.stop := by
  rw [fcntlRangesOverlap, Bool.and_eq_true, decide_eq_true_eq, decide_eq_true_eq]

/-- A lock is kept whole, or what lies before and what lies behind the request is kept. -/
theorem mem_fcntlSplit {x : PosixRecordLock} : x ∈ fcntlSplit r l ↔
    (¬ (l.file = r.file ∧ l.ownerPid = r.ownerPid ∧ l.start < r.stop ∧ r.start < l.stop) ∧ x = l) ∨
    (l.file = r.file ∧ l.ownerPid = r.ownerPid ∧ l.start < r.stop ∧ r.start < l.stop) ∧
      (l.start < r.start ∧ x = { l with stop := r.start } ∨ r.stop < l.stop ∧ x = { l with start := r.stop }) := by
  have hfile : l.file = r.file ↔ l.dev = r.dev ∧ l.ino = r.ino := by rw [file, file, Prod.mk.injEq]
  have hwhole : (¬ (l.ownerPid = r.ownerPid ∧ l.dev = r.dev ∧ l.ino = r.ino) ∨
      fcntlRangesOverlap l.start l.stop r.start r.stop = false) ↔
      ¬ (l.file = r.file ∧ l.ownerPid = r.ownerPid ∧ l.start < r.stop ∧ r.start < l.stop) := by
    rw [← Bool.not_eq_true, overlap_iff, hfile]
    tauto
  unfold fcntlSplit
  split
  · rename_i hkept
    rw [hwhole] at hkept
    simp only [List.mem_singleton, hkept, not_false_eq_true, true_and, false_and, or_false]
  · rename_i hkept
    rw [hwhole, not_not] at hkept
    simp only [List.mem_append, List.mem_ite_nil_right, List.mem_singleton, hkept, not_true_eq_false, false_and, false_or,
      true_and]

theorem fcntlSplit_spec {x : PosixRecordLock} (hx : x ∈ fcntlSplit r l) (hl : l.start < l.stop) :
    x.file = l.file ∧ x.ownerPid = l.ownerPid ∧ x.lockType = l.lockType ∧ x.start < x.stop ∧
      ∀ byte, x.Covers byte → l.Covers byte ∧ ¬ Takes r l byte := by
  rcases mem_fcntlSplit.1 hx with ⟨hwhole, rfl⟩ | ⟨⟨-, -, hstart, hstop⟩, ⟨hbefore, rfl⟩ | ⟨hbehind, rfl⟩⟩
  · refine ⟨rfl, rfl, rfl, hl, fun byte hcovers => ⟨hcovers, fun ⟨hfile, howner, htaken⟩ => hwhole ⟨hfile, howner, ?_⟩⟩⟩
    exact ⟨lt_of_le_of_lt hcovers.1 htaken.2, lt_of_le_of_lt htaken.1 hcovers.2⟩
  · refine ⟨rfl, rfl, rfl, hbefore, fun byte hcovers => ⟨⟨hcovers.1, lt_trans hcovers.2 hstop⟩, fun ⟨_, _, htaken⟩ => ?_⟩⟩
    exact absurd htaken.1 (not_le.2 hcovers.2)
  · refine ⟨rfl, rfl, rfl, hbehind, fun byte hcovers => ⟨⟨?_, hcovers.2⟩, fun ⟨_, _, htaken⟩ => ?_⟩⟩
    · exact le_trans (le_of_lt hstart) hcovers.1
    · exact absurd htaken.2 (not_lt.2 hcovers.1)

theorem conflicts_iff : fcntlLockConflicts l r = true ↔ l.file = r.file ∧ l.ownerPid ≠ r.ownerPid ∧
    (l.start < r.stop ∧ r.start < l.stop) ∧ (l.lockType = .write ∨ r.lockType = .write) := by
  have hfile : l.file = r.file ↔ l.dev = r.dev ∧ l.ino = r.ino := by rw [file, file, Prod.mk.injEq]
  rw [← overlap_iff, hfile]
  simp only [fcntlLockConflicts, Bool.and_eq_true, Bool.or_eq_true, decide_eq_true_eq]
  tauto

theorem exists_common (hl : l.start < l.stop) (hr : r.start < r.stop) :
    (l.start < r.stop ∧ r.start < l.stop) ↔ ∃ byte, l.Covers byte ∧ r.Covers byte := by
  refine ⟨fun ⟨hstart, hstop⟩ => ?_, fun ⟨byte, hcovers, hcovers'⟩ => ?_⟩
  · rcases le_total l.start r.start with hle | hle
    · exact ⟨r.start, ⟨hle, hstop⟩, le_refl _, hr⟩
    · exact ⟨l.start, ⟨le_refl _, hl⟩, hle, hstart⟩
  · exact ⟨lt_of_le_of_lt hcovers.1 hcovers'.2, lt_of_le_of_lt hcovers'.1 hcovers.2⟩

theorem refused_iff_any :
    (fcntlApplyLock r locks).1 = false ↔ r.lockType ≠ .unlock ∧ locks.any (fcntlLockConflicts · r) = true := by
  unfold fcntlApplyLock
  split <;> simp_all

theorem Wf.refused_iff (h : Wf locks) (hr : r.start < r.stop) :
    (fcntlApplyLock r locks).1 = false ↔ (view locks).Conflicts r := by
  rw [refused_iff_any, List.any_eq_true]
  refine and_congr_right fun _ => ⟨fun ⟨l, hl, hconflict⟩ => ?_, fun ⟨byte, hcovers, owner, howner, t, ht, hwrite⟩ => ?_⟩
  · obtain ⟨hfile, howner, hmeet, hwrite⟩ := conflicts_iff.1 hconflict
    obtain ⟨byte, hcovers, hcovers'⟩ := (exists_common (h.nonempty l hl) hr).1 hmeet
    exact ⟨byte, hcovers', l.ownerPid, howner, l.lockType, h.view_eq_some.2 ⟨l, hl, hfile, rfl, hcovers, rfl⟩, hwrite⟩
  · obtain ⟨l, hl, hfile, rfl, hcovers', rfl⟩ := h.view_eq_some.1 ht
    exact ⟨l, hl, conflicts_iff.2 ⟨hfile, howner, (exists_common (h.nonempty l hl) hr).2 ⟨byte, hcovers', hcovers⟩, hwrite⟩⟩

theorem fcntlApplyLock_granted (hgranted : (fcntlApplyLock r locks).1 = true) : (fcntlApplyLock r locks).2 =
    locks.flatMap (fcntlSplit r) ++ if r.lockType ≠ .unlock then [r] else [] := by
  unfold fcntlApplyLock at *
  split at hgranted
  · cases hgranted
  · rename_i hfree
    rw [if_neg hfree]

theorem fcntlApplyLock_refused (hrefused : (fcntlApplyLock r locks).1 = false) : (fcntlApplyLock r locks).2 = locks := by
  unfold fcntlApplyLock at *
  split at hrefused
  · rename_i hbusy
    rw [if_pos hbusy]
  · cases hrefused

/-- The locks after a granted request: the pieces of the old ones, and the request unless it only unlocks. -/
theorem mem_granted (hgranted : (fcntlApplyLock r locks).1 = true) {x : PosixRecordLock} :
    x ∈ (fcntlApplyLock r locks).2 ↔ (∃ l ∈ locks, x ∈ fcntlSplit r l) ∨ r.lockType ≠ .unlock ∧ x = r := by
  rw [fcntlApplyLock_granted hgranted, List.mem_append, List.mem_flatMap]
  refine or_congr_right ?_
  split <;> simp_all

theorem fcntlSplit_pairwise (hr : r.start < r.stop) : (fcntlSplit r l).Pairwise Compatible := by
  have hpiece : ∀ (c : Prop) [Decidable c] (x : PosixRecordLock), (if c then [x] else []).Pairwise Compatible := by
    intro c _ x
    split
    · exact List.pairwise_singleton _ _
    · exact .nil
  unfold fcntlSplit
  split
  · exact List.pairwise_singleton _ _
  · refine List.pairwise_append.2 ⟨hpiece _ _, hpiece _ _, fun x hx y hy byte _ hbefore hbehind => ?_⟩
    obtain ⟨-, rfl⟩ : _ ∧ x = { l with stop := r.start } := by rwa [List.mem_ite_nil_right, List.mem_singleton] at hx
    obtain ⟨-, rfl⟩ : _ ∧ y = { l with start := r.stop } := by rwa [List.mem_ite_nil_right, List.mem_singleton] at hy
    exact absurd (lt_trans (lt_of_lt_of_le hr hbehind.1) hbefore.2) (lt_irrefl _)

theorem Compatible.pieces {x y : PosixRecordLock} (h : Compatible l l') (hl : l.start < l.stop) (hl' : l'.start < l'.stop)
    (hx : x ∈ fcntlSplit r l) (hy : y ∈ fcntlSplit r l') : Compatible x y := by
  intro byte hfile hcovers hcovers'
  obtain ⟨hxfile, hxowner, hxtype, -, hxcovers⟩ := fcntlSplit_spec hx hl
  obtain ⟨hyfile, hyowner, hytype, -, hycovers⟩ := fcntlSplit_spec hy hl'
  rw [hxowner, hyowner, hxtype, hytype]
  exact h byte (by rw [← hxfile, ← hyfile, hfile]) (hxcovers byte hcovers).1 (hycovers byte hcovers').1

/-- What is left of the old locks goes together with the lock just granted. -/
theorem Wf.granted_compatible (h : Wf locks) (hgranted : (fcntlApplyLock r locks).1 = true) (hlocked : r.lockType ≠ .unlock)
    (hl : l ∈ locks) {x : PosixRecordLock} (hx : x ∈ fcntlSplit r l) : Compatible x r := by
  intro byte hfile hcovers hcovers'
  obtain ⟨hxfile, hxowner, hxtype, -, hxcovers⟩ := fcntlSplit_spec hx (h.nonempty l hl)
  obtain ⟨hlcovers, hkept⟩ := hxcovers byte hcovers
  have howner : l.ownerPid ≠ r.ownerPid := fun heq => hkept ⟨hxfile.symm.trans hfile, heq, hcovers'⟩
  have hfree : ¬ (l.lockType = .write ∨ r.lockType = .write) := by
    intro hwrite
    have hconflict := conflicts_iff.2 ⟨hxfile.symm.trans hfile, howner,
      ⟨lt_of_le_of_lt hlcovers.1 hcovers'.2, lt_of_le_of_lt hcovers'.1 hlcovers.2⟩, hwrite⟩
    have hrefused := refused_iff_any.2 ⟨hlocked, List.any_eq_true.2 ⟨l, hl, hconflict⟩⟩
    rw [hgranted] at hrefused
    cases hrefused
  have hread : ∀ {t : LockType}, t ≠ .write → t ≠ .unlock → t = .read := by
    intro t hwrite hunlock
    cases t <;> trivial
  rw [hxowner, hxtype]
  exact ⟨howner, hread (fun heq => hfree (.inl heq)) (h.locked l hl), hread (fun heq => hfree (.inr heq)) hlocked⟩

theorem Wf.apply (h : Wf locks) (hr : r.start < r.stop) : Wf (fcntlApplyLock r locks).2 := by
  cases hgranted : (fcntlApplyLock r locks).1 with
  | false => rwa [fcntlApplyLock_refused hgranted]
  | true =>
    refine ⟨fun x hx => ?_, fun x hx => ?_, ?_⟩
    · rcases (mem_granted hgranted).1 hx with ⟨l, hl, hx⟩ | ⟨-, rfl⟩
      · exact (fcntlSplit_spec hx (h.nonempty l hl)).2.2.2.1
      · exact hr
    · rcases (mem_granted hgranted).1 hx with ⟨l, hl, hx⟩ | ⟨hlocked, rfl⟩
      · rw [(fcntlSplit_spec hx (h.nonempty l hl)).2.2.1]
        exact h.locked l hl
      · exact hlocked
    · rw [fcntlApplyLock_granted hgranted]
      refine List.pairwise_append.2 ⟨List.pairwise_flatMap.2 ⟨fun l _ => fcntlSplit_pairwise hr, ?_⟩, ?_,
        fun x hx y hy => ?_⟩
      · exact h.compatible.imp_of_mem fun hl hl' hcompatible x hx y hy =>
          Compatible.pieces hcompatible (h.nonempty _ hl) (h.nonempty _ hl') hx hy
      · split
        · exact List.pairwise_singleton _ _
        · exact .nil
      · obtain ⟨l, hl, hx⟩ := List.mem_flatMap.1 hx
        obtain ⟨hlocked, rfl⟩ : _ ∧ y = r := by rwa [List.mem_ite_nil_right, List.mem_singleton] at hy
        exact h.granted_compatible hgranted hlocked hl hx

/-- Locks that are dropped leave a table, and their bytes become free. -/
theorem Wf.filter (h : Wf locks) (p : PosixRecordLock → Bool) : Wf (locks.filter p) :=
  ⟨fun l hl => h.nonempty l (List.mem_filter.1 hl).1, fun l hl => h.locked l (List.mem_filter.1 hl).1,
    h.compatible.filter p⟩

theorem fcntlNormalizeRange_nonempty {file : LockFile} {lock : LinuxFlock64} {start stop : Nat}
    (h : fcntlNormalizeRange file lock = .ok (start, stop)) : start < stop := by
  unfold fcntlNormalizeRange at h
  cases hbase : fcntlBase file lock.whence with
  | error errno =>
    rw [hbase] at h
    cases h
  | ok base =>
    rw [hbase] at h
    dsimp only [bind, Except.bind] at h
    generalize (if 0 < lock.len then _ else _ : Int × Int) = bounds at h
    split at h
    · cases h
    · rename_i hvalid
      obtain ⟨rfl, rfl⟩ := Prod.mk.inj (Except.ok.inj h)
      omega

theorem fcntlRequest_spec {owner : Nat} {file : LockFile} {lock : LinuxFlock64} (h : fcntlRequest owner file lock = .ok r) :
    fcntlValidateAccess file lock.type = .ok r.lockType ∧ fcntlNormalizeRange file lock = .ok (r.start, r.stop) := by
  obtain ⟨t, htype, h⟩ := Program.bind_eq_ok.1 h
  obtain ⟨range, hrange, h⟩ := Program.bind_eq_ok.1 h
  obtain ⟨key, -, h⟩ := Program.bind_eq_ok.1 h
  obtain rfl := Except.ok.inj h
  exact ⟨htype, hrange⟩

theorem fcntlRequest_nonempty {owner : Nat} {file : LockFile} {lock : LinuxFlock64}
    (h : fcntlRequest owner file lock = .ok r) : r.start < r.stop :=
  fcntlNormalizeRange_nonempty (fcntlRequest_spec h).2

def system : TransitionSystem (List PosixRecordLock) Op where
  init locks := locks = []
  step locks op locks' := op.run locks = some locks'

theorem Wf.setlk (h : Wf locks) (owner : Nat) (file : LockFile) (lock : LinuxFlock64) :
    Wf (fcntlSetlk owner file lock locks).2 := by
  unfold fcntlSetlk
  split
  · exact h
  · rename_i hrequest
    exact h.apply (fcntlRequest_nonempty hrequest)

theorem Wf.step {locks' : List PosixRecordLock} {op : Op} (h : Wf locks) (hstep : op.run locks = some locks') :
    Wf locks' := by
  cases op with
  | setlk owner file lock =>
    obtain rfl := Option.some.inj hstep
    exact h.setlk owner file lock
  | setlkw owner file lock =>
    simp only [Op.run] at hstep
    split at hstep
    · exact Option.some.inj hstep ▸ h
    · rename_i hrequest
      split at hstep
      · exact Option.some.inj hstep ▸ h.apply (fcntlRequest_nonempty hrequest)
      · cases hstep
  | close owner file =>
    obtain rfl := Option.some.inj hstep
    unfold sysClose
    split
    · exact h.filter _
    · exact h
  | exit owner =>
    obtain rfl := Option.some.inj hstep
    exact h.filter _

theorem reachable_wf (h : system.Reachable locks) : Wf locks :=
  h.invariant (fun _ hs => hs ▸ ⟨fun _ hl => (nomatch hl), fun _ hl => (nomatch hl), .nil⟩)
    fun _ _ _ hwf hstep => hwf.step hstep

def sampleFile : LockFile := { accessMode := 2, position := 0, fstat := .ok { dev := 1, ino := 7, size := 100 } }

/-- The answer names the range of the lock, unless one of its numbers was cut to fit. -/
theorem normalize_describe {file : LockFile} (hl : l.start < l.stop) (hstart : l.start < 2 ^ 63)
    (hstop : l.stop = 2 ^ 64 - 1 ∨ l.stop - l.start < 2 ^ 63) :
    fcntlNormalizeRange file (describe l) = .ok (l.start, l.stop) := by
  simp only [fcntlNormalizeRange, describe, fcntlBase, if_true, bind, Except.bind]
  grind

/-- `F_GETLK` answers what `F_SETLK` would: no lock if the request would be granted, and otherwise a lock that conflicts
with it. -/
theorem getlk_foretells_setlk (h : system.Reachable locks) {owner : Nat} {file : LockFile} {lock : LinuxFlock64}
    (hr : fcntlRequest owner file lock = .ok r) (htype : lock.type = 0 ∨ lock.type = 1) :
    (fcntlSetlk owner file lock locks).1 = 0 ∧ fcntlGetlk owner file lock locks = .ok ({ lock with type := 2 }, 0) ∨
    ∃ l ∈ locks, ∃ answer, fcntlLockConflicts l r ∧ fcntlSetlk owner file lock locks = (-Syscall.eagain, locks) ∧
      fcntlGetlk owner file lock locks = .ok (answer, min l.ownerPid (2 ^ 31 - 1)) ∧ answer.type ≠ 2 ∧
      (l.start < 2 ^ 63 → l.stop = 2 ^ 64 - 1 ∨ l.stop - l.start < 2 ^ 63 →
        fcntlNormalizeRange file answer = .ok (l.start, l.stop)) := by
  have hlocked : r.lockType ≠ .unlock := by
    have haccess := (fcntlRequest_spec hr).1
    unfold fcntlValidateAccess at haccess
    grind
  have hasked : ¬ (lock.type ≠ 0 ∧ lock.type ≠ 1) := by omega
  simp only [fcntlGetlk, fcntlSetlk, if_neg hasked, hr, bind, Except.bind]
  cases hfind : fcntlFindConflict r locks with
  | none =>
    have hgranted : (fcntlApplyLock r locks).1 ≠ false := fun hrefused => by
      obtain ⟨l, hl, hconflict⟩ := List.any_eq_true.1 (refused_iff_any.1 hrefused).2
      exact List.find?_eq_none.1 hfind l hl hconflict
    exact .inl ⟨by simp [hgranted], rfl⟩
  | some l =>
    have hl := List.mem_of_find?_eq_some hfind
    have hconflict := List.find?_some hfind
    have hrefused := refused_iff_any.2 ⟨hlocked, List.any_eq_true.2 ⟨l, hl, hconflict⟩⟩
    have hwf := reachable_wf h
    refine .inr ⟨l, hl, _, hconflict, ?_, rfl, ?_, normalize_describe (hwf.nonempty l hl)⟩
    · rw [fcntlApplyLock_refused hrefused, hrefused]
      rfl
    · have hkind := hwf.locked l hl
      unfold describe LockType.code
      split <;> simp_all

/-- Process 1 has locked the bytes from 10 to 20, and process 2 asks for those from 15 to 25. -/
theorem getlk_foretells_setlk_refused : ∃ locks, system.Reachable locks ∧ ∃ l ∈ locks, ∃ answer, answer.type ≠ 2 ∧
    fcntlGetlk 2 sampleFile ⟨0, 0, 15, 10⟩ locks = .ok (answer, min l.ownerPid (2 ^ 31 - 1)) := by
  have hreachable : system.Reachable [⟨1, 7, 10, 20, 1, .write⟩] :=
    .step (a := .setlk 1 sampleFile ⟨1, 0, 10, 10⟩) (.init rfl) rfl
  have hr : fcntlRequest 2 sampleFile ⟨0, 0, 15, 10⟩ = .ok ⟨1, 7, 15, 25, 2, .read⟩ := rfl
  obtain ⟨l, hl, answer, -, -, hget, htype, -⟩ := (getlk_foretells_setlk hreachable hr (.inl rfl)).resolve_left (by decide)
  exact ⟨_, hreachable, l, hl, answer, htype, hget⟩

end RecordLock

end SudoOS
