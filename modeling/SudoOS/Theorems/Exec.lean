import SudoOS.Kernel.Exec
import SudoOS.Theorems.Loader

/-! A failed `execve` changes nothing: up to `begin_exec` the call only reads. -/

namespace SudoOS.Exec

open Elf InitialStack Program

structure Fit (prepared : PreparedExec) (stack : VirtRange) : Prop where
  entry : userRange.contains (entry prepared)
  aligned : prepared.stackPointer % 16 = 0
  inside : stack.contains prepared.stackPointer

section
variable {isUtf8 : List (BitVec 8) → Bool} {grants : Nat → Bool} {stackGrants : Grants} {image : List (BitVec 8)}
  {interpImage : Option (List (BitVec 8))} {config : ExecConfig} {bias : Option Nat} {file main : LoadedFile}

theorem parse_entry (h : parse isUtf8 grants image bias = some file) : userRange.contains file.elf.entry := by
  have hspec : wp (parseImpl isUtf8 grants image bias) {} (fun elf _ => userRange.contains elf.entry) fun _ _ => True := by
    rw [parseImpl, wp_bind]
    refine fileHeader_spec.mono ?_ fun _ _ _ => trivial
    rintro ⟨kind, entry, table⟩ s ⟨-, -, hentry⟩
    simp only [check, wp_bind, wp_get, wp_ensure, wp_pure]
    exact wp_true.mono (fun _ _ _ => ⟨fun _ => hentry, fun _ => trivial⟩) fun _ _ _ => trivial
  unfold parse at h
  split at h
  · next elf t hparse =>
    cases h
    exact hspec.ok hparse
  · cases h

theorem parseInterp_entry (h : parseInterp isUtf8 grants interpImage main = some (some file)) :
    userRange.contains file.elf.entry := by
  unfold parseInterp at h
  split at h
  · cases h
  · obtain ⟨file', hfile, heq⟩ := Option.map_eq_some_iff.1 h
    cases heq
    obtain ⟨data, -, hparse⟩ := Option.bind_eq_some_iff.1 hfile
    exact parse_entry hparse

/-- The initial stack ends below the end of the area with its words. -/
theorem layout_contains {stack : VirtRange} {argv envp : List Bytes} {info : AuxInfo} {memory : UserMemory} {sp : Nat}
    (h : Layout stack argv envp info memory sp) : stack.contains sp := by
  obtain ⟨argvPtrs, envpPtrs, platformPtr, randomPtr, -, -, hstacked⟩ := h.pieces
  have hwords := (hstacked.inside _ List.mem_cons_self).2
  have hplatform := (List.pairwise_cons.1 hstacked.apart).1 _ List.mem_cons_self
  have hlast := (hstacked.inside _ (List.mem_cons_of_mem _ List.mem_cons_self)).2
  refine ⟨h.start_le, ?_⟩
  simp only [List.length_append, List.length_cons] at hlast hplatform
  omega

theorem prepareElf_fit {prepared : PreparedExec}
    (h : prepareElf isUtf8 grants stackGrants image interpImage config = some prepared) : Fit prepared config.stack := by
  obtain ⟨⟨main, interp, memory⟩, hload, h⟩ := Option.bind_eq_some_iff.1 h
  obtain ⟨main', hmain, hload⟩ := Option.bind_eq_some_iff.1 hload
  obtain ⟨interp', hinterp, hload⟩ := Option.bind_eq_some_iff.1 hload
  obtain ⟨memory', -, hload⟩ := Option.bind_eq_some_iff.1 hload
  dsimp only at h
  split at h
  case h_2 => cases h
  case h_1 hstack =>
    cases h
    split at hload
    case h_2 => cases hload
    case h_1 =>
      cases hload
      have hlayout := (buildInitialStack_spec.ok hstack).2.2
      refine ⟨?_, hlayout.aligned, layout_contains hlayout⟩
      cases interp with
      | none => exact parse_entry hmain
      | some file => exact parseInterp_entry hinterp

end

theorem prepare_fit {i : ExecInput} {stack : VirtRange} {prepared : PreparedExec} (h : i.prepare stack = .ok prepared) :
    Fit prepared stack := by
  simp only [ExecInput.prepare, bind_eq_ok] at h
  obtain ⟨_, -, _, -, _, -, _, -, _, -, _, -, _, -, h⟩ := h
  split at h
  · cases h
  case h_2 hprepare =>
    cases h
    exact prepareElf_fit hprepare

theorem execReplaceContext_isSome {t : Thread} {prepared : PreparedExec} (hrunning : t.lifecycle = .running)
    (h : Fit prepared t.userStack) : t.execReplaceContext (entry prepared) t.userStack prepared.stackPointer ≠ none := by
  have hfit : ¬(t.userStack ≠ t.userStack ∨ ¬userRange.contains (entry prepared) ∨ t.userStack.isEmpty ∨
      ¬userRange.containsRange t.userStack ∨ prepared.stackPointer % 16 ≠ 0 ∨
      ¬(prepared.stackPointer = t.userStack.end_ ∨ t.userStack.contains prepared.stackPointer)) := by
    rintro (hne | hentry | hempty | hrange | haligned | hinside)
    · exact hne rfl
    · exact hentry h.entry
    · exact t.stack_nonempty hempty
    · exact hrange t.stack_in_user
    · exact haligned h.aligned
    · exact hinside (.inr h.inside)
  rw [Thread.execReplaceContext, if_neg (not_not.2 hrunning), if_neg hfit]
  exact Option.some_ne_none _

/-- For every image, argument list and answer of the allocator, `execve` succeeds, or it returns an error and the caller is
as before the call. The failure after the address space was replaced does not occur. -/
theorem execve_failure_changes_nothing (i : ExecInput) (c : Caller) :
    (execve i c).1 = .ok () ∨ (∃ e, (execve i c).1 = .error e ∧ e ≠ .contextReplace) ∧ (execve i c).2 = c := by
  unfold execve
  cases hprepare : i.prepare c.thread.userStack with
  | error e =>
    exact .inr ⟨⟨_, rfl, ExecErrno.noConfusion⟩, rfl⟩
  | ok prepared =>
    dsimp only
    split
    · exact .inr ⟨⟨_, rfl, by decide⟩, rfl⟩
    · left
      unfold replace
      dsimp only
      split
      · next hnone => exact absurd hnone (execReplaceContext_isSome c.running (prepare_fit hprepare))
      · rfl

/-- A call with the path `a` that finds this file there, and grants of all memory. -/
def callOf (file : Except Int Bytes) : ExecInput where
  rawPath := .ok [0x61]
  resolve := .ok
  argv path := .ok [path]
  envp := .ok []
  loadExecImage _ := file
  interpImage := none
  isUtf8 _ := true
  loaderGrants _ := true
  stackGrants := granted
  shebangPath := true
  shebangArgument := true
  rewritten := true
  fallback := true

/-- A program with one thread, which has come to user mode. -/
def oneThreaded : Option Caller := do
  let thread ← Thread.create 1 0x1040 smallConfig.stack
  let thread ← thread.bindSchedulerTask
  Caller.start ⟨⟨fun _ => 0, fun _ => true, fun _ => true⟩, [some ⟨0, true⟩], .new, [1], false, false⟩ thread (.ofWords [])

/-- The program gives way to another one, and stays as it is if there is no file. -/
theorem execve_failure_changes_nothing_missing : ∃ c, oneThreaded = some c ∧
    (execve (callOf (.ok segmentImage)) c).1 = .ok () ∧
    (execve (callOf (.error (-2))) c).1 = .error (.prepare (.given (-2))) ∧ (execve (callOf (.error (-2))) c).2 = c := by
  have hrun : oneThreaded.any (fun c => (execve (callOf (.ok segmentImage)) c).1.isOk) = true := by decide +kernel
  obtain ⟨c, hc, hok⟩ := (Option.any_eq_true _ _).1 hrun
  have hfails : (execve (callOf (.error (-2))) c).1 = .error (.prepare (.given (-2))) := rfl
  refine ⟨c, hc, ?_, hfails, ?_⟩
  · cases hresult : (execve (callOf (.ok segmentImage)) c).1 with
    | ok _ => rfl
    | error e =>
      rw [hresult] at hok
      cases hok
  · rcases execve_failure_changes_nothing (callOf (.error (-2))) c with hsucceeds | hunchanged
    · cases hfails.symm.trans hsucceeds
    · exact hunchanged.2

end SudoOS.Exec
