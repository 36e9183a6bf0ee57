import SudoOS.Kernel.Blocking

/-! Forced exits of threads that sleep. -/

namespace SudoOS.Blocking

variable {s t : State} {i j : Nat} {call : Call} {observed : Word}

def Heeds (s : State) : Prop := ∀ i, s.isMarked i = true → (s.phase i).heedsMark = true ∧ s.linked i = false

namespace Call

theorem shouldBlock_of_testsMark {r : Resources} (h : call.testsMark = true) :
    call.shouldBlock r i observed true = false := by
  cases call <;> cases h
  rw [shouldBlock, satisfied, Bool.or_true, Bool.not_true, Bool.false_and]

theorem after_ne_again_of_testsMark (h : call.testsMark = true) : (call.after != .again) = true := by
  cases call <;> cases h
  rfl

end Call

/-! ### Steps -/

/-- A step of thread `i` that leaves all marks as they are. -/
theorem Heeds.own (h : Heeds s) (hforced : t.forcedExitStatus = s.forcedExitStatus)
    (hphase : ∀ j, j ≠ i → t.phase j = s.phase j) (hlinked : ∀ j, j ≠ i → t.linked j = s.linked j)
    (hi : s.isMarked i = true → (t.phase i).heedsMark = true ∧ t.linked i = false) : Heeds t := by
  intro j hj
  have hj : s.isMarked j = true := by
    unfold State.isMarked at hj ⊢
    rwa [hforced] at hj
  by_cases hji : j = i
  · subst hji
    exact hi hj
  · rw [hphase j hji, hlinked j hji]
    exact h j hj

theorem Heeds.goto (h : Heeds s) {phase : Phase} (hi : s.isMarked i = true → phase.heedsMark = true) :
    Heeds (s.goto i phase) := by
  refine h.own rfl (fun j hj => Function.update_of_ne hj _ _) (fun _ _ => rfl) fun hmarked => ⟨?_, (h i hmarked).2⟩
  simp only [State.goto, Function.update_self]
  exact hi hmarked

theorem Heeds.resources (h : Heeds s) (resources : Resources) : Heeds { s with resources } := h

theorem Heeds.wake (h : Heeds s) (i : Nat) : Heeds { s with linked := Function.update s.linked i false } := by
  refine h.own rfl (fun _ _ => rfl) (fun j hj => Function.update_of_ne hj _ _) fun hmarked => ⟨(h i hmarked).1, ?_⟩
  exact Function.update_self _ _ _

theorem Heeds.spawn (h : Heeds s) (i : Nat) (late : Option Word) : Heeds (s.spawn i late) := by
  intro j hj
  by_cases hji : j = i
  · subst hji
    simp only [State.spawn, Function.update_self, and_true]
    rfl
  · simp only [State.spawn, State.isMarked, Function.update_of_ne hji] at hj ⊢
    exact h j hj

theorem Heeds.attempt (h : Heeds s) (hphase : s.phase i = .entered call) : Heeds (s.attempt i call) := by
  unfold State.attempt
  split
  · exact (h.resources _).goto fun _ => rfl
  · refine h.goto fun hmarked => ?_
    have := (h i hmarked).1
    rwa [hphase] at this

theorem Heeds.block (h : Heeds s) (hphase : s.phase i = .prepared call observed) : Heeds (s.block i call observed) := by
  -- Only waits that know of the mark are found here with one.
  have htests : s.isMarked i = true → call.testsMark = true := fun hmarked => by
    have := (h i hmarked).1
    rwa [hphase] at this
  unfold State.block
  split_ifs with hblock hends
  · have hunmarked : s.isMarked i ≠ true := fun hmarked => by
      rw [hmarked, Call.shouldBlock_of_testsMark (htests hmarked)] at hblock
      cases hblock
    refine h.own rfl (fun j hj => Function.update_of_ne hj _ _) (fun j hj => Function.update_of_ne hj _ _) fun hmarked => ?_
    exact absurd hmarked hunmarked
  · exact h.goto fun _ => rfl
  · exact h.goto fun hmarked => Call.after_ne_again_of_testsMark (htests hmarked)

theorem Heeds.back (h : Heeds s) (hphase : s.phase i = .back call observed) : Heeds (s.back i call observed) := by
  have hafter : s.isMarked i = true → (call.after != .again) = true := fun hmarked => by
    have := (h i hmarked).1
    rwa [hphase] at this
  unfold State.back
  split
  · split_ifs with hmark
    · exact h.goto fun _ => rfl
    · exact h.goto fun hmarked => absurd hmarked hmark
  · rename_i hagain
    refine h.goto fun hmarked => ?_
    have := hafter hmarked
    rw [hagain] at this
    cases this
  · exact h.goto fun _ => rfl
  · split_ifs with hmark
    · exact h.goto fun _ => rfl
    · exact h.goto fun _ => rfl
    · exact h.goto fun _ => rfl
    · exact h.goto fun hmarked => absurd hmarked hmark

/-- The marks that one scan leaves. -/
theorem Heeds.requestProcessThreadExit {status : Word} (h : Heeds s)
    (hheeds : ∀ j ∈ s.tasks, j ≠ i → (s.phase j).heedsMark = true) : Heeds (s.requestProcessThreadExit i status) := by
  intro j hj
  by_cases hsibling : j ∈ s.tasks ∧ j ≠ i
  · refine ⟨hheeds j hsibling.1 hsibling.2, ?_⟩
    simp only [State.requestProcessThreadExit, if_pos hsibling]
  · have hkept : ¬ (j ∈ s.tasks ∧ j ≠ i ∧ s.forcedExitStatus j = ThreadGroup.noForcedExit) := fun hcond =>
      hsibling ⟨hcond.1, hcond.2.1⟩
    simp only [State.isMarked, State.requestProcessThreadExit, if_neg hkept, if_neg hsibling] at hj ⊢
    exact h j hj

theorem isMarked_requestProcessThreadExit_self {status : Word} :
    (s.requestProcessThreadExit i status).isMarked i = s.isMarked i := by
  have hkept : ¬ (i ∈ s.tasks ∧ i ≠ i ∧ s.forcedExitStatus i = ThreadGroup.noForcedExit) := fun hcond => hcond.2.1 rfl
  simp only [State.isMarked, State.requestProcessThreadExit, if_neg hkept]

theorem heedsMark_of_all (h : (s.tasks.all fun j => j == i || (s.phase j).heedsMark) = true) :
    ∀ j ∈ s.tasks, j ≠ i → (s.phase j).heedsMark = true := by
  intro j hj hne
  rw [List.all_eq_true] at h
  rcases Bool.or_eq_true _ _ ▸ h j hj with heq | hheeds
  · exact absurd (beq_iff_eq.1 heq) hne
  · exact hheeds

theorem Heeds.threadStep {input : Input} (h : Heeds s) (hheeded : heeded s (i, input) = true)
    (hstep : threadStep s i input = some t) : Heeds t := by
  unfold Blocking.threadStep at hstep
  split at hstep
  · cases hstep
    refine h.goto fun hmarked => ?_
    rw [if_pos hmarked]
    rfl
  · cases hstep
    by_cases hmark : s.isMarked i = true
    · rw [if_pos hmark]
      exact h.goto fun _ => rfl
    · rw [if_neg hmark]
      exact (h.requestProcessThreadExit (heedsMark_of_all hheeded)).goto fun _ => rfl
  · cases hstep
    by_cases hmark : s.isMarked i = true
    · rw [if_pos hmark]
      exact h.goto fun _ => rfl
    · rw [if_neg hmark]
      refine (h.requestProcessThreadExit (heedsMark_of_all hheeded)).goto fun hmarked => ?_
      rw [isMarked_requestProcessThreadExit_self] at hmarked
      exact absurd hmarked hmark
  · rename_i hphase
    cases hstep
    exact h.attempt hphase
  · rename_i hphase
    cases hstep
    exact h.block hphase
  · rename_i hphase
    split_ifs at hstep
    cases hstep
    refine h.goto fun hmarked => ?_
    have := (h i hmarked).1
    rwa [hphase] at this
  · rename_i hphase
    cases hstep
    exact h.back hphase
  · cases hstep
    refine h.goto fun hmarked => ?_
    rw [if_pos hmarked]
    rfl
  · cases hstep

theorem Heeds.step {label : Nat × Input} (h : Heeds s) (hheeded : heeded s label = true) (hstep : step s label = some t) :
    Heeds t := by
  unfold Blocking.step at hstep
  split at hstep
  · cases hstep
    exact h.wake _
  · cases hstep
    exact h.resources _
  · split_ifs at hstep
    cases hstep
    exact h.spawn _ _
  · split_ifs at hstep
    exact h.threadStep hheeded hstep

/-! ### Every run -/

theorem State.Fresh.heeds (h : s.Fresh) : Heeds s := by
  intro i hi
  rw [State.isMarked, h.2.1 i, bne_self_eq_false] at hi
  cases hi

/-- Where `exit_group` and `execve` find all siblings heeding the mark, no marked thread is ever on a wait queue. -/
theorem marked_not_linked (hs : (system.restrict (heeded · · = true)).Reachable s) (hmarked : s.isMarked i = true) :
    s.linked i = false := by
  have hheeds : Heeds s := hs.invariant (fun _ hinit => State.Fresh.heeds hinit) fun _ _ _ h hstep => h.step hstep.2 hstep.1
  exact (hheeds i hmarked).2

def twoThreads : State :=
  { resources :=
      { pipes := fun _ => ⟨0, 1, 1, 0, 0⟩
        sockets := fun _ => none
        listeners := fun _ => none
        socketIoEpoch := 0
        consoleLen := 0
        ptys := fun _ => ⟨0, 0, false, false⟩
        futexes := fun _ => ⟨none, 0⟩
        timeoutFired := fun _ => false
        signals := .new
        masks := fun _ => 0
        relations := ⟨none, [7], []⟩
        conflicts := fun _ => false
        threadCount := 2 }
    tasks := [0, 1]
    forcedExitStatus := fun _ => ThreadGroup.noForcedExit
    linked := fun _ => false
    phase := fun _ => .user }

theorem init_twoThreads : State.Fresh twoThreads := ⟨fun _ => rfl, fun _ => rfl, fun _ => rfl⟩

def markedAsleep : List (Nat × Input) :=
  [(0, .call (.pipeRead 0 false 16)), (0, .advance), (0, .advance), (1, .exitGroup 3)]

def heededStep (s : State) (label : Nat × Input) : Option State := if heeded s label then step s label else none

theorem step_of_heededStep {label : Nat × Input} (h : heededStep s label = some t) :
    (system.restrict (heeded · · = true)).step s label t := by
  unfold heededStep at h
  split_ifs at h with hheeded
  exact ⟨h, hheeded⟩

theorem marked_not_linked_markedAsleep :
    ∃ s, (system.restrict (heeded · · = true)).Reachable s ∧ s.isMarked 0 = true ∧ s.linked 0 = false := by
  have hrun : (TransitionSystem.play heededStep twoThreads markedAsleep).any (fun s => s.isMarked 0) = true := by
    decide +kernel
  obtain ⟨s, hs, hmarked⟩ := (Option.any_eq_true _ _).1 hrun
  have hreach := (TransitionSystem.Reachable.init init_twoThreads).later (TransitionSystem.play_later step_of_heededStep hs)
  exact ⟨s, hreach, hmarked, marked_not_linked hreach hmarked⟩

def Stuck (call : Call) (s : State) : Prop :=
  s.phase 0 = .asleep call 0 ∧ s.linked 0 = true ∧ s.isMarked 0 = true ∧ ∀ j ∈ s.tasks, j ≠ 0 → s.phase j = .exited

instance (call : Call) (s : State) : Decidable (Stuck call s) := by
  unfold Stuck
  infer_instance

def waitAny : Call := .wait4 ⟨BitVec.allOnes 64, 0, 0, 0⟩
def readPipe : Call := .pipeRead 0 false 16

def sleepsAgain : List (Nat × Input) :=
  [(0, .call waitAny), (0, .advance), (0, .advance), (1, .exitGroup 3), (0, .advance), (0, .advance), (0, .advance),
    (0, .advance)]

def markedBeforeBlock : List (Nat × Input) := [(0, .call readPipe), (0, .advance), (1, .exitGroup 3), (0, .advance)]

theorem stuck_of_play {script : List (Nat × Input)}
    (hrun : (TransitionSystem.play step twoThreads script).any (fun s => decide (Stuck call s)) = true) :
    ∃ s, system.Reachable s ∧ Stuck call s :=
  TransitionSystem.Reachable.of_play (.init init_twoThreads) id hrun

/-- A marked thread may go back to sleep in `wait4`, and may go to sleep in a pipe. -/
theorem marked_stuck :
    (∃ s, system.Reachable s ∧ Stuck waitAny s) ∧ ∃ s, system.Reachable s ∧ Stuck readPipe s := by
  have hwait : (TransitionSystem.play step twoThreads sleepsAgain).any (fun s => decide (Stuck waitAny s)) = true := by
    decide +kernel
  have hpipe : (TransitionSystem.play step twoThreads markedBeforeBlock).any (fun s => decide (Stuck readPipe s)) =
    true := by
    decide +kernel
  exact ⟨stuck_of_play hwait, stuck_of_play hpipe⟩

end SudoOS.Blocking
