import SudoOS.Theorems.ThreadGroup

/-! When a process may have other threads. -/

namespace SudoOS.ThreadGroup

variable {s s' : Shared} {t first : Nat} {k k' : Phase} {input : Input}

def createThread (s : Shared) (t : Nat) (granted : Bool) : Option (Shared × Phase) := do
  let called ← threadStep s t .dispatch .clone
  if called.2 = .admission then
    let admitted ← threadStep called.1 t .admission .advance
    if admitted.2 = .admissionExec then threadStep admitted.1 t .admissionExec (.reserve granted) else some admitted
  else some called

/-- The caller goes back to user mode and there is no new thread. -/
def Refused (s : Shared) (t : Nat) (granted : Bool) : Prop := ∃ s', createThread s t granted = some (s', .epilogue .user)

theorem refused_iff {granted : Bool} (hlock : s.groupLock = none) (hexit : s.groupExit = .none)
    (hexec : s.execInProgress = false) : Refused s t granted ↔ granted = false ∨ s.leader = none := by
  unfold Refused
  cases hleader : s.leader with
  | none =>
    have hcall : createThread s t granted = some (s, .epilogue .user) := by
      simp [createThread, threadStep, dispatch, hlock, hleader]
    exact ⟨fun _ => .inr rfl, fun _ => ⟨s, hcall⟩⟩
  | some leader =>
    have hcall : createThread s t granted = some (join { s with groupLock := some t } t granted) := by
      simp [createThread, threadStep, dispatch, hlock, hleader, hexit]
    rw [hcall]
    cases granted with
    | false =>
      refine ⟨fun _ => .inl rfl, fun _ => ?_⟩
      simp [join]
    | true =>
      refine ⟨?_, fun h => by simp at h⟩
      rintro ⟨s', heq⟩
      simp only [join, hexec, Bool.not_true, Bool.or_false, Bool.false_eq_true, if_false, Option.some.injEq] at heq
      split_ifs at heq <;> cases (Prod.mk.inj heq).2

structure Led (first : Nat) (s : Shared) : Prop where
  known : first < s.nextId
  nodup : s.members.Nodup
  bounded : ∀ {u}, u ∈ s.members → u < s.nextId
  leader : s.leader = if first ∈ s.members then some first else none

/-- The roster changes when a thread joins and when one is dropped. -/
theorem Move.roster (h : Move s t k input s' k') :
    (s'.leader = s.leader ∧ s'.members = s.members ∧ s'.nextId = s.nextId) ∨ s' = s.joined t ∨ s' = s.withdrawn t := by
  cases h with
  | join => exact .inr (.inl rfl)
  | withdraw => exact .inr (.inr rfl)
  | lateGroup hactive =>
    rename_i child status
    obtain ⟨forced, markedBy, heq⟩ := requestForcedExit_eq s child status .groupMark
    rw [heq]
    exact .inl ⟨rfl, rfl, rfl⟩
  | lateExec =>
    rename_i child
    obtain ⟨forced, markedBy, heq⟩ := lateExec_eq s child
    rw [heq]
    exact .inl ⟨rfl, rfl, rfl⟩
  | _ => exact .inl ⟨rfl, rfl, rfl⟩

theorem Led.joined (h : Led first s) : Led first (s.joined t) := by
  refine ⟨Nat.lt_succ_of_lt h.known, ?_, ?_, ?_⟩
  · refine List.nodup_append.2 ⟨h.nodup, List.nodup_singleton _, ?_⟩
    intro u hu v hv
    have hlt := h.bounded hu
    rw [List.mem_singleton.1 hv]
    exact Nat.ne_of_lt hlt
  · intro u hu
    rcases List.mem_append.1 hu with hold | hnew
    · exact Nat.lt_succ_of_lt (h.bounded hold)
    · rw [List.mem_singleton.1 hnew]
      exact Nat.lt_succ_self _
  · have hmem : first ∈ (s.joined t).members ↔ first ∈ s.members := by
      have hne : first ≠ s.nextId := Nat.ne_of_lt h.known
      show first ∈ s.members ++ [s.nextId] ↔ _
      rw [List.mem_append, List.mem_singleton, or_iff_left hne]
    simp only [hmem]
    exact h.leader

theorem Led.withdrawn (h : Led first s) : Led first (s.withdrawn t) := by
  refine ⟨h.known, h.nodup.erase t, fun hu => h.bounded (List.mem_of_mem_erase hu), ?_⟩
  show (if s.leader = some t then none else s.leader) = if first ∈ s.members.erase t then some first else none
  have hleader := h.leader
  obtain rfl | hne := eq_or_ne t first
  · rw [if_neg h.nodup.not_mem_erase]
    by_cases hmem : t ∈ s.members
    · rw [if_pos hmem] at hleader
      exact if_pos hleader
    · rw [if_neg hmem] at hleader
      rw [hleader, ite_self]
  · have hmem : first ∈ s.members.erase t ↔ first ∈ s.members := List.mem_erase_of_ne hne.symm
    have hother : s.leader ≠ some t := by
      rw [hleader]
      split_ifs
      · exact fun heq => hne (Option.some.inj heq).symm
      · exact nofun
    simp only [hmem, if_neg hother]
    exact hleader

theorem Led.step {agent : Agent} (h : Led first s) (hstep : step s agent k input = some (s', k')) : Led first s' := by
  rcases step_cases hstep with ⟨t, rfl, hmove⟩ | ⟨rfl, -, signals, rfl⟩
  · rcases hmove.roster with ⟨hleader, hmembers, hnext⟩ | rfl | rfl
    · exact ⟨hnext ▸ h.known, hmembers ▸ h.nodup, fun hu => hnext ▸ h.bounded (hmembers ▸ hu), by
        rw [hleader, hmembers, h.leader]⟩
    · exact h.joined
    · exact h.withdrawn
  · exact ⟨h.known, h.nodup, h.bounded, h.leader⟩

theorem Led.fresh (h : Fresh s) (hleader : s.leader = some first) : Led first s := by
  obtain ⟨t, signals, masks, rfl⟩ := h
  cases hleader
  refine ⟨Nat.lt_succ_self _, List.nodup_singleton _, ?_, ?_⟩
  · intro u hu
    rw [List.mem_singleton.1 hu]
    exact Nat.lt_succ_self _
  · exact (if_pos (List.mem_singleton_self _)).symm

/-- A process starts with the thread `first`. In all that follows, a call of `create_thread` while there is neither a group
exit nor an exec is refused for lack of memory, and for want of that thread. -/
theorem thread_creation_refused_iff {s₀ s : Threads.State Shared Agent Phase} {granted : Bool}
    (hinit : (threads fun _ _ _ _ => True).system.init s₀) (hfirst : s₀.shared.leader = some first)
    (hrun : (threads fun _ _ _ _ => True).system.Later s₀ s)
    (hlock : s.shared.groupLock = none) (hexit : s.shared.groupExit = .none) (hexec : s.shared.execInProgress = false) :
    Refused s.shared t granted ↔ granted = false ∨ first ∉ s.shared.members := by
  have hfresh : Fresh s₀.shared := hinit.1
  have hled : Led first s.shared := by
    refine hrun.stable (I := fun s => Led first s.shared) ?_ (Led.fresh hfresh hfirst)
    rintro s agent s' hled ⟨⟨input, -, hact⟩, -⟩
    exact hled.step hact
  rw [refused_iff hlock hexit hexec, hled.leader]
  refine or_congr_right ?_
  split_ifs with hmem
  · exact ⟨nofun, fun hnot => absurd hmem hnot⟩
  · exact ⟨fun _ => hmem, fun _ => rfl⟩

theorem thread_creation_refused_iff_alone : ∃ s, (threads fun _ _ _ _ => True).system.Later oneThread s ∧
    s.own (.thread 0) = .dispatch ∧ s.shared.members = [0] ∧ ¬Refused s.shared 0 true ∧ Refused s.shared 0 false := by
  have hrun : (Threads.replay step oneThread [(.thread 0, .advance), (.thread 0, .advance), (.thread 0, .syscall)]).any
    (fun s =>
      decide (s.own (.thread 0) = .dispatch ∧ s.shared.members = [0] ∧ s.shared.groupLock = none ∧
        s.shared.groupExit = .none ∧ s.shared.execInProgress = false)) = true := by
    decide +kernel
  obtain ⟨s, hs, hend⟩ := (Option.any_eq_true _ _).1 hrun
  obtain ⟨hcalls, hmembers, hlock, hexit, hexec⟩ := of_decide_eq_true hend
  have hinit : (threads fun _ _ _ _ => True).system.init oneThread := ⟨⟨0, .new, fun _ => .new, rfl⟩, fun _ => rfl⟩
  have hlater := Threads.replay_later (p := threads fun _ _ _ _ => True) (fun hstep => ⟨_, trivial, hstep⟩) hs
  have hrefused {granted : Bool} : Refused s.shared 0 granted ↔ granted = false ∨ 0 ∉ s.shared.members :=
    thread_creation_refused_iff hinit rfl hlater hlock hexit hexec
  refine ⟨s, hlater, hcalls, hmembers, ?_, hrefused.2 (.inl rfl)⟩
  rw [hrefused, hmembers]
  decide

/-- Thread 0 has exited, thread 1 runs on, and is refused another thread with all the memory there is. -/
theorem creation_refused_without_leader : ∃ s, (threads fun _ _ _ _ => True).system.Reachable s ∧
    s.own (.thread 1) = .dispatch ∧ s.shared.groupLock = none ∧ s.shared.groupExit = .none ∧
    s.shared.execInProgress = false ∧ Refused s.shared 1 true := by
  have hrun : (Threads.replay step oneThread (cloneOne ++ [(.thread 0, .syscall), (.thread 0, .exit 0),
    (.thread 0, .advance),
      (.thread 0, .install true), (.thread 0, .advance), (.thread 0, .advance), (.thread 1, .syscall)])).any (fun s =>
      decide (s.own (.thread 1) = .dispatch ∧ s.shared.leader = none ∧ s.shared.groupLock = none ∧
        s.shared.groupExit = .none ∧ s.shared.execInProgress = false)) = true := by
    decide +kernel
  obtain ⟨s, hreach, hcalls, hleader, hlock, hexit, hexec⟩ := reachable_of_script hrun
  exact ⟨s, hreach, hcalls, hlock, hexit, hexec, (refused_iff hlock hexit hexec).2 (.inr hleader)⟩

/-- When an `execve` replaces the program its caller is alone: any other thread has been dropped or was never made. -/
theorem exec_alone {allowed : Shared → Agent → Phase → Input → Prop} {s : Threads.State Shared Agent Phase}
    (h : (threads allowed).system.Reachable s) {t u : Nat}
    (hk : s.own (.thread t) = .execReplace ∨ s.own (.thread t) = .execFinish) (hne : u ≠ t) :
    s.own (.thread u) = .gone ∨ s.own (.thread u) = .outside ∧ s.shared.life u = .unborn := by
  obtain ⟨hsorted, hown⟩ := (stable allowed).reachable h
  have hholds := Placed.holds (hown (.thread t))
  have hmembers : s.shared.members = [t] := by
    rcases hk with hk | hk <;> (rw [hk] at hholds; exact hholds.2.2)
  have hjoined : (s.shared.life u).joined = false := by
    rw [← Bool.not_eq_true, ← hsorted.mem_iff, hmembers]
    simpa using hne
  have hfits := Placed.fits (hown (.thread u))
  revert hfits hjoined
  cases s.own (.thread u) <;> cases s.shared.life u <;> simp [Phase.Fits, Life.joined]

/-- A second thread has met the mark of the `execve` and left. -/
theorem exec_alone_cloned : ∃ s, (threads fun _ _ _ _ => True).system.Reachable s ∧ s.own (.thread 0) = .execReplace ∧
    s.shared.life 1 ≠ .unborn ∧ s.own (.thread 1) = .gone := by
  have hrun : (Threads.replay step oneThread (cloneOne ++ [(.thread 0, .syscall), (.thread 0, .exec), (.thread 0, .advance),
      (.thread 0, .advance), (.thread 1, .interrupt), (.thread 1, .advance), (.thread 1, .advance),
      (.thread 0, .advance)])).any
      (fun s => decide (s.own (.thread 0) = .execReplace ∧ s.shared.life 1 ≠ .unborn)) = true := by
    decide +kernel
  obtain ⟨s, hreach, hreplace, hborn⟩ := reachable_of_script hrun
  have halone := exec_alone hreach (.inl hreplace) (u := 1) Nat.one_ne_zero
  exact ⟨s, hreach, hreplace, hborn, halone.resolve_right fun houtside => hborn houtside.2⟩

end SudoOS.ThreadGroup
