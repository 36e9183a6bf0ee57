import SudoOS.Kernel.Completion

/-! Tokens of a completion. Only `complete` makes one and only the exchange of `try_wait` takes one. -/

namespace SudoOS.Completion

variable {s s' : Shared} {i : Nat} {k k' : Phase} {w : Wait} {last : Bool} {input : Input}

structure Counted (s : Shared) : Prop where
  taken_le : s.taken ≤ s.completes
  counting : s.all = false → s.done < completionAll ∧ s.successes = s.taken ∧ s.done + s.successes = s.completes
  closed : s.all = true → s.done = completionAll
  queue_le : s.waiters.length ≤ maxTasks

def Wait.Ordinary (w : Wait) : Prop := w.consumed = false ∧ w.afterAll = false

def Sound (s : Shared) : Phase → Prop
  | .loading w last => w.consumed = false ∧ (w.afterAll = true → s.all = true ∧ last = false)
  | .swapping w _ seen => w.Ordinary ∧ 0 < seen ∧ seen < completionAll
  | .returned _ .satisfied => True
  | .returned w .timedOut => w.Ordinary
  | .checking w | .blocking w | .asleep w | .entering w | .clock w | .expired w | .arming w | .polling w | .pollingState w
  | .pollingLast w | .cancelling w _ | .syncing w _ | .closing w _ | .closingState w _ => w.Ordinary
  | .idle | .wakingOne | .wakingAll | .firing | .wakingTask => True

theorem Sound.mono (h : Sound s k) (hall : s.all = true → s'.all = true) : Sound s' k := by
  cases k with
  | loading w last => exact ⟨h.1, fun ha => ⟨hall (h.2 ha).1, (h.2 ha).2⟩⟩
  | returned w outcome => cases outcome <;> exact h
  | _ => exact h

theorem Wait.Ordinary.loading (h : w.Ordinary) : Sound s (.loading w last) :=
  ⟨h.1, fun ha => Bool.noConfusion (h.2.symm.trans ha)⟩

theorem Wait.Ordinary.afterWaiting (h : w.Ordinary) (outcome : WaitOutcome) : Sound s (afterWaiting w outcome) := by
  cases outcome <;> exact h.loading

/-! ### One step -/

structure Kept (s : Shared) (next : Shared × Phase) : Prop where
  counted : Counted next.1
  sound : Sound next.1 next.2
  all : s.all = true → next.1.all = true

/-- A step that leaves the word and the counters alone. -/
theorem Counted.kept (h : Counted s) (hdone : s'.done = s.done) (hcompletes : s'.completes = s.completes)
    (hsuccesses : s'.successes = s.successes) (htaken : s'.taken = s.taken) (hall : s'.all = s.all)
    (hqueue : s'.waiters.length ≤ maxTasks) (hk : Sound s' k') : Kept s (s', k') := by
  refine ⟨⟨?_, ?_, ?_, hqueue⟩, hk, fun ha => hall.trans ha⟩
  · rw [htaken, hcompletes]
    exact h.taken_le
  · rw [hall, hdone, hsuccesses, htaken, hcompletes]
    exact h.counting
  · rw [hall, hdone]
    exact h.closed

theorem Counted.same (h : Counted s) (hk : Sound s k') : Kept s (s, k') := h.kept rfl rfl rfl rfl rfl h.queue_le hk

theorem Counted.tryWait (h : Counted s) (hw : Sound s (.loading w last)) : Kept s (tryWait s w last) := by
  have hopen : s.done ≠ completionAll → s.all = false := fun hne =>
    Bool.eq_false_iff.2 fun ha => hne (h.closed ha)
  have hordinary : s.done ≠ completionAll → w.Ordinary := fun hne =>
    ⟨hw.1, Bool.eq_false_iff.2 fun ha => Bool.noConfusion ((hopen hne).symm.trans (hw.2 ha).1)⟩
  unfold Completion.tryWait
  split_ifs with hzero hall hlt
  · have hne : s.done ≠ completionAll := hzero ▸ by decide
    refine h.same ?_
    unfold afterFailure
    split_ifs
    · exact hordinary hne
    · exact hordinary hne
    · exact hordinary hne
  · have hclosed : s.all = true := by
      by_contra ha
      exact Nat.ne_of_lt (h.counting (Bool.eq_false_iff.2 ha)).1 hall
    exact ⟨⟨h.taken_le, fun ha => Bool.noConfusion (hclosed.symm.trans ha), h.closed, h.queue_le⟩, trivial, id⟩
  · exact h.same ⟨hordinary hall, Nat.pos_of_ne_zero hzero, hlt⟩
  · exact h.kept rfl rfl rfl rfl rfl h.queue_le hw

theorem Counted.swap {seen : Nat} (h : Counted s) (hw : Sound s (.swapping w last seen)) :
    Kept s (swap s w last seen) := by
  obtain ⟨hordinary, hpos, hlt⟩ := hw
  unfold Completion.swap
  split_ifs with heq
  · have hopen : s.all = false := Bool.eq_false_iff.2 fun ha => Nat.ne_of_lt hlt (heq.symm.trans (h.closed ha))
    obtain ⟨hdone, htaken, hsum⟩ := h.counting hopen
    refine ⟨⟨?_, fun _ => ⟨?_, ?_, ?_⟩, fun ha => Bool.noConfusion (hopen.symm.trans ha), h.queue_le⟩, trivial, id⟩
    · show s.taken + 1 ≤ s.completes
      omega
    · show seen - 1 < completionAll
      omega
    · show s.successes + 1 = s.taken + 1
      rw [htaken]
    · show seen - 1 + (s.successes + 1) = s.completes
      omega
  · exact h.same hordinary.loading

theorem Counted.block (h : Counted s) (hw : w.Ordinary) : Kept s (block s i w) := by
  unfold Completion.block
  split
  · cases hlink : WaitQueue.link s.waiters i with
    | none => exact h.kept rfl rfl rfl rfl rfl h.queue_le hw
    | some waiters =>
      obtain ⟨hlt, rfl⟩ := WaitQueue.link_eq_some.1 hlink
      refine h.kept rfl rfl rfl rfl rfl ?_ hw
      rw [List.length_append, List.length_singleton]
      exact hlt
  · refine h.same ?_
    split_ifs
    · exact hw
    · exact hw.loading

theorem Counted.complete (h : Counted s) : Kept s (complete s) := by
  unfold Completion.complete
  split_ifs with hall hlt
  · have hclosed : s.all = true := by
      by_contra ha
      exact Nat.ne_of_lt (h.counting (Bool.eq_false_iff.2 ha)).1 hall
    exact ⟨⟨Nat.le_succ_of_le h.taken_le, fun ha => Bool.noConfusion (hclosed.symm.trans ha), h.closed, h.queue_le⟩,
      trivial, id⟩
  · have hopen : s.all = false := Bool.eq_false_iff.2 fun ha => hall (h.closed ha)
    obtain ⟨-, htaken, hsum⟩ := h.counting hopen
    refine ⟨⟨Nat.le_succ_of_le h.taken_le, fun _ => ⟨hlt, htaken, ?_⟩, fun ha => Bool.noConfusion (hopen.symm.trans ha),
      h.queue_le⟩, trivial, id⟩
    show s.done + 1 + s.successes = s.completes + 1
    omega
  · exact h.kept rfl rfl rfl rfl rfl h.queue_le trivial

theorem Counted.taskStep (h : Counted s) (hk : Sound s k) (hstep : taskStep s i k input = some (s', k')) :
    Kept s (s', k') := by
  -- in most phases only one input is possible
  cases k <;> cases input <;>
    simp only [Completion.taskStep, Option.some.injEq, Prod.mk.injEq, reduceCtorEq] at hstep
  case idle.start timed =>
    obtain ⟨rfl, rfl⟩ := hstep
    exact h.same ⟨rfl, fun ha => ⟨ha, rfl⟩⟩
  case idle.complete =>
    exact hstep ▸ h.complete
  case idle.completeAll =>
    obtain ⟨rfl, rfl⟩ := hstep
    exact ⟨⟨h.taken_le, fun ha => Bool.noConfusion ha, fun _ => rfl, h.queue_le⟩, trivial, fun _ => rfl⟩
  case wakingOne.advance =>
    obtain ⟨rfl, rfl⟩ := hstep
    exact h.kept rfl rfl rfl rfl rfl (Nat.le_trans (List.drop_sublist 1 s.waiters).length_le h.queue_le) trivial
  case wakingAll.advance =>
    obtain ⟨rfl, rfl⟩ := hstep
    exact h.kept rfl rfl rfl rfl rfl (Nat.le_trans (WaitQueue.length_wakeAll_le s.waiters) h.queue_le) trivial
  case loading.advance w last =>
    exact hstep ▸ h.tryWait hk
  case swapping.advance w last seen =>
    exact hstep ▸ h.swap hk
  case swapping.spurious w last seen =>
    obtain ⟨rfl, rfl⟩ := hstep
    exact h.same hk.1.loading
  case checking.advance w | entering.advance w =>
    obtain ⟨rfl, rfl⟩ := hstep
    refine h.same ?_
    split_ifs
    · exact Wait.Ordinary.loading hk
    · exact hk
  case blocking.advance w =>
    exact hstep ▸ h.block hk
  case asleep.advance w =>
    split_ifs at hstep <;> obtain ⟨rfl, rfl⟩ := Prod.mk.inj (Option.some.inj hstep) <;> exact h.same hk
  case clock.late w | clock.advance w | pollingLast.advance w =>
    obtain ⟨rfl, rfl⟩ := hstep
    exact h.same hk
  case expired.advance w | closingState.advance w outcome =>
    obtain ⟨rfl, rfl⟩ := hstep
    exact h.same (Wait.Ordinary.afterWaiting hk _)
  case arming.advance w | arming.armFails w =>
    obtain ⟨rfl, rfl⟩ := hstep
    exact h.kept rfl rfl rfl rfl rfl h.queue_le hk
  case polling.advance w | pollingState.advance w =>
    obtain ⟨rfl, rfl⟩ := hstep
    refine h.same ?_
    split_ifs <;> exact hk
  case cancelling.advance w outcome =>
    obtain ⟨rfl, rfl⟩ := hstep
    split_ifs
    · exact h.kept rfl rfl rfl rfl rfl h.queue_le hk
    · exact h.same hk
  case syncing.advance w outcome =>
    split_ifs at hstep
    obtain ⟨rfl, rfl⟩ := Prod.mk.inj (Option.some.inj hstep)
    exact h.kept rfl rfl rfl rfl rfl h.queue_le hk
  case closing.advance w outcome =>
    obtain ⟨rfl, rfl⟩ := hstep
    refine h.same ?_
    split_ifs
    · exact Wait.Ordinary.afterWaiting hk _
    · exact hk
  case returned.advance w outcome =>
    obtain ⟨rfl, rfl⟩ := hstep
    exact h.same trivial

theorem Counted.callbackStep (h : Counted s) (hstep : callbackStep s i k input = some (s', k')) : Kept s (s', k') := by
  cases k <;> cases input <;>
    simp only [Completion.callbackStep, Option.some.injEq, Prod.mk.injEq, reduceCtorEq] at hstep
  case idle.advance =>
    split_ifs at hstep
    obtain ⟨rfl, rfl⟩ := Prod.mk.inj (Option.some.inj hstep)
    exact h.kept rfl rfl rfl rfl rfl h.queue_le trivial
  case firing.advance =>
    split_ifs at hstep <;> obtain ⟨rfl, rfl⟩ := Prod.mk.inj (Option.some.inj hstep)
    · exact h.kept rfl rfl rfl rfl rfl h.queue_le trivial
    · exact h.kept rfl rfl rfl rfl rfl h.queue_le trivial
  case wakingTask.advance =>
    obtain ⟨rfl, rfl⟩ := hstep
    exact h.kept rfl rfl rfl rfl rfl (Nat.le_trans List.length_erase_le h.queue_le) trivial

theorem step_kept {a : Agent} (h : Counted s) (hk : Sound s k) (hact : threads.act a s k s' k') : Kept s (s', k') := by
  obtain ⟨input, hstep⟩ := hact
  unfold step at hstep
  split_ifs at hstep
  cases a with
  | task i => exact h.taskStep hk hstep
  | callback i => exact h.callbackStep hstep

/-! ### Runs -/

theorem stable : threads.Stable Counted fun _ s k => Sound s k where
  init hinit := by
    rw [hinit]
    have hpos : 0 < completionAll := by decide
    exact ⟨Nat.le_refl _, fun _ => ⟨hpos, rfl, rfl⟩, fun ha => Bool.noConfusion ha, Nat.zero_le _⟩
  start _ hk := by
    rw [hk]
    exact trivial
  shared h hk hact := (step_kept h hk hact).counted
  own h hk hact := (step_kept h hk hact).sound
  other _ h hk hl hact := hl.mono (step_kept h hk hact).all

/-! ### After `complete_all` -/

/-- A step from which the queue of a closed completion comes out non-empty found it so, and was not the wake-up of all; or
it is the call of `complete_all` itself. -/
theorem taskStep_queue (h : Counted s) (hk : Sound s k) (hstep : taskStep s i k input = some (s', k'))
    (hdone : s'.done = completionAll) (hqueue : s'.waiters ≠ []) :
    k' = .wakingAll ∨ s.done = completionAll ∧ s.waiters ≠ [] ∧ k ≠ .wakingAll := by
  have hpos : (0 : Nat) ≠ completionAll := by decide
  cases k <;> cases input <;>
    simp only [Completion.taskStep, Option.some.injEq, Prod.mk.injEq, reduceCtorEq] at hstep
  case idle.complete =>
    rw [complete] at hstep
    split_ifs at hstep with hall hlt <;> obtain ⟨rfl, rfl⟩ := Prod.mk.inj hstep
    · exact .inr ⟨hall, hqueue, Phase.noConfusion⟩
    · exact absurd hdone (Nat.ne_of_lt hlt)
    · exact .inr ⟨hdone, hqueue, Phase.noConfusion⟩
  case idle.completeAll =>
    exact .inl hstep.2.symm
  case wakingOne.advance =>
    obtain ⟨rfl, rfl⟩ := hstep
    refine .inr ⟨hdone, fun hnil => hqueue ?_, Phase.noConfusion⟩
    show s.waiters.drop 1 = []
    rw [hnil]
    rfl
  case wakingAll.advance =>
    obtain ⟨rfl, rfl⟩ := hstep
    exact absurd (WaitQueue.wakeAll_eq_nil h.queue_le) hqueue
  case loading.advance w last =>
    rw [tryWait] at hstep
    split_ifs at hstep <;> obtain ⟨rfl, rfl⟩ := Prod.mk.inj hstep <;> exact .inr ⟨hdone, hqueue, Phase.noConfusion⟩
  case swapping.advance w last seen =>
    rw [swap] at hstep
    split_ifs at hstep <;> obtain ⟨rfl, rfl⟩ := Prod.mk.inj hstep
    · exact absurd hdone (Nat.ne_of_lt (Nat.lt_of_le_of_lt (Nat.sub_le seen 1) hk.2.2))
    · exact .inr ⟨hdone, hqueue, Phase.noConfusion⟩
  case blocking.advance w =>
    rw [block] at hstep
    split at hstep
    · -- whoever enters the queue has just seen the word zero
      rename_i hcond
      have hzero : s.done = 0 := by
        simp only [Shared.isDone, Bool.and_eq_true, Bool.not_eq_true', bne_eq_false_iff_eq] at hcond
        exact hcond.1
      split at hstep <;> obtain ⟨rfl, rfl⟩ := Prod.mk.inj hstep
      · exact absurd (hzero.symm.trans hdone) hpos
      · exact absurd (hzero.symm.trans hdone) hpos
    · obtain ⟨rfl, rfl⟩ := Prod.mk.inj hstep
      exact .inr ⟨hdone, hqueue, Phase.noConfusion⟩
  case asleep.advance w =>
    split_ifs at hstep <;> obtain ⟨rfl, rfl⟩ := Prod.mk.inj (Option.some.inj hstep) <;>
      exact .inr ⟨hdone, hqueue, Phase.noConfusion⟩
  case cancelling.advance w outcome =>
    obtain ⟨rfl, rfl⟩ := hstep
    split_ifs at hdone hqueue <;> exact .inr ⟨hdone, hqueue, Phase.noConfusion⟩
  case syncing.advance w outcome =>
    split_ifs at hstep
    obtain ⟨rfl, rfl⟩ := Prod.mk.inj (Option.some.inj hstep)
    exact .inr ⟨hdone, hqueue, Phase.noConfusion⟩
  all_goals
    obtain ⟨rfl, rfl⟩ := hstep
    exact .inr ⟨hdone, hqueue, Phase.noConfusion⟩

theorem callbackStep_queue (hstep : callbackStep s i k input = some (s', k')) (hdone : s'.done = completionAll)
    (hqueue : s'.waiters ≠ []) : s.done = completionAll ∧ s.waiters ≠ [] ∧ k ≠ .wakingAll := by
  cases k <;> cases input <;>
    simp only [Completion.callbackStep, Option.some.injEq, Prod.mk.injEq, reduceCtorEq] at hstep
  case idle.advance =>
    split_ifs at hstep
    obtain ⟨rfl, rfl⟩ := Prod.mk.inj (Option.some.inj hstep)
    exact ⟨hdone, hqueue, Phase.noConfusion⟩
  case firing.advance =>
    split_ifs at hstep <;> obtain ⟨rfl, rfl⟩ := Prod.mk.inj (Option.some.inj hstep) <;>
      exact ⟨hdone, hqueue, Phase.noConfusion⟩
  case wakingTask.advance =>
    obtain ⟨rfl, rfl⟩ := hstep
    refine ⟨hdone, fun hnil => hqueue ?_, Phase.noConfusion⟩
    show s.waiters.erase i = []
    rw [hnil]
    rfl

def Attended (s : Threads.State Shared Agent Phase) : Prop :=
  s.shared.done = completionAll → s.shared.waiters ≠ [] → ∃ a, s.own a = .wakingAll

theorem Attended.step {s t : Threads.State Shared Agent Phase} {a : Agent} (h : Attended s) (hcounted : Counted s.shared)
    (hsound : Sound s.shared (s.own a)) (hstep : threads.system.step s a t) : Attended t := by
  intro hdone hqueue
  obtain ⟨⟨input, hact⟩, hother⟩ := hstep
  have hcases : t.own a = .wakingAll ∨ s.shared.done = completionAll ∧ s.shared.waiters ≠ [] ∧ s.own a ≠ .wakingAll := by
    simp only [Completion.step] at hact
    split_ifs at hact
    cases a with
    | task i => exact taskStep_queue hcounted hsound hact hdone hqueue
    | callback i => exact .inr (callbackStep_queue hact hdone hqueue)
  rcases hcases with ha | ⟨hdone', hqueue', hne⟩
  · exact ⟨a, ha⟩
  · obtain ⟨b, hb⟩ := h hdone' hqueue'
    refine ⟨b, (hother b ?_).trans hb⟩
    rintro rfl
    exact hne hb

theorem attended {s : Threads.State Shared Agent Phase} (h : threads.system.Reachable s) : Attended s := by
  have hall : Attended s ∧ threads.system.Reachable s := by
    refine h.invariant (I := fun s => Attended s ∧ threads.system.Reachable s) ?_ ?_
    · intro s hinit
      refine ⟨fun _ hqueue => absurd ?_ hqueue, .init hinit⟩
      rw [hinit.1]
    · intro s a t hs hstep
      obtain ⟨hcounted, hsound⟩ := stable.reachable hs.2
      exact ⟨hs.1.step hcounted (hsound a) hstep, hs.2.step hstep⟩
  exact hall.1

def stepsLeft : Phase → Nat
  | .loading _ _ => 1
  | .swapping _ _ _ | .checking _ | .entering _ | .expired _ | .closing _ _ | .closingState _ _ => 2
  | .syncing _ _ => 3
  | .cancelling _ _ => 4
  | .polling _ | .pollingLast _ => 5
  | .blocking _ | .arming _ => 6
  | .pollingState _ | .asleep _ | .clock _ => 7
  | .idle | .returned _ _ | .wakingOne | .wakingAll | .firing | .wakingTask => 0

/-- Every step of a wait on a closed completion brings it nearer to its end, which is success. -/
theorem taskStep_closed (hk : Sound s k) (hdone : s.done = completionAll) (hwait : 0 < stepsLeft k)
    (hstep : taskStep s i k input = some (s', k')) :
    s'.panicked = true ∨ (∃ w, k' = .returned w .satisfied) ∨ 0 < stepsLeft k' ∧ stepsLeft k' < stepsLeft k := by
  have hpos : completionAll ≠ 0 := by decide
  have hisDone : s.isDone = true := by
    rw [Shared.isDone, hdone]
    decide
  cases k <;> cases input <;>
    simp only [Completion.taskStep, Option.some.injEq, Prod.mk.injEq, reduceCtorEq, hisDone, if_true] at hstep
  case loading.advance w last =>
    rw [tryWait, if_neg (hdone ▸ hpos), if_pos hdone] at hstep
    obtain ⟨rfl, rfl⟩ := Prod.mk.inj hstep
    exact .inr (.inl ⟨w, rfl⟩)
  case swapping.advance w last seen =>
    rw [swap, if_neg (hdone ▸ Nat.ne_of_gt hk.2.2)] at hstep
    obtain ⟨rfl, rfl⟩ := Prod.mk.inj hstep
    exact .inr (.inr ⟨Nat.one_pos, Nat.one_lt_two⟩)
  case blocking.advance w =>
    rw [block, hisDone] at hstep
    simp only [Bool.not_true, Bool.false_and, Bool.false_eq_true, if_false] at hstep
    obtain ⟨rfl, rfl⟩ := Prod.mk.inj hstep
    right; right
    split_ifs <;> exact ⟨by simp [stepsLeft], by simp [stepsLeft]⟩
  case arming.armFails w =>
    obtain ⟨rfl, rfl⟩ := hstep
    exact .inl rfl
  case asleep.advance w =>
    split_ifs at hstep <;> obtain ⟨rfl, rfl⟩ := Prod.mk.inj (Option.some.inj hstep) <;>
      exact .inr (.inr (by simp [stepsLeft]))
  case syncing.advance w outcome =>
    split_ifs at hstep
    obtain ⟨rfl, rfl⟩ := Prod.mk.inj (Option.some.inj hstep)
    exact .inr (.inr (by simp [stepsLeft]))
  case pollingState.advance w =>
    obtain ⟨rfl, rfl⟩ := hstep
    right; right
    split_ifs <;> simp [stepsLeft]
  case closingState.advance w outcome =>
    obtain ⟨rfl, rfl⟩ := hstep
    right; right
    generalize (if s.timeout i = .fired then WaitOutcome.timedOut else outcome) = result
    cases result <;> simp [stepsLeft, afterWaiting]
  case idle.start | idle.complete | idle.completeAll | wakingOne.advance | wakingAll.advance | returned.advance =>
    exact absurd hwait (Nat.lt_irrefl 0)
  all_goals
    obtain ⟨rfl, rfl⟩ := hstep
    exact .inr (.inr (by simp [stepsLeft, afterWaiting]))

/-- A wait can go on unless it sleeps in the queue or its timer callback is still running. -/
theorem taskStep_enabled (s : Shared) (i : Nat) (hwait : 0 < stepsLeft k) :
    (∃ input next, taskStep s i k input = some next) ∨ i ∈ s.waiters ∨ s.running i = true := by
  cases k
  case asleep w =>
    by_cases hi : i ∈ s.waiters
    · exact .inr (.inl hi)
    · exact .inl ⟨.advance, _, if_neg hi⟩
  case syncing w outcome =>
    by_cases hrunning : s.running i = true
    · exact .inr (.inr hrunning)
    · exact .inl ⟨.advance, _, if_neg hrunning⟩
  case idle | returned | wakingOne | wakingAll | firing | wakingTask =>
    exact absurd hwait (Nat.lt_irrefl 0)
  all_goals exact .inl ⟨.advance, _, rfl⟩

/-- A wait that is still under way when the completion is closed, and any later one, returns success. -/
structure Closed (s : Threads.State Shared Agent Phase) : Prop where
  satisfied : ∀ {a w}, s.own a = .returned w .timedOut → w.afterAll = false
  attended : s.shared.waiters ≠ [] → ∃ a, s.own a = .wakingAll
  enabled : ∀ {i}, s.shared.panicked = false → 0 < stepsLeft (s.own (.task i)) →
    (∃ t, threads.system.step s (.task i) t) ∨ i ∈ s.shared.waiters ∨ s.shared.running i = true
  nearer : ∀ {i t}, 0 < stepsLeft (s.own (.task i)) → threads.system.step s (.task i) t →
    t.shared.panicked = true ∨ (∃ w, t.own (.task i) = .returned w .satisfied) ∨
      0 < stepsLeft (t.own (.task i)) ∧ stepsLeft (t.own (.task i)) < stepsLeft (s.own (.task i))

theorem closed_of_reachable {s : Threads.State Shared Agent Phase} (h : threads.system.Reachable s)
    (hall : s.shared.all = true) : Closed s := by
  obtain ⟨hcounted, hsound⟩ := stable.reachable h
  have hdone := hcounted.closed hall
  refine ⟨?_, fun hqueue => attended h hdone hqueue, ?_, ?_⟩
  · intro a w ha
    have hw := hsound a
    rw [ha] at hw
    exact hw.2
  · intro i hpanicked hwait
    rcases taskStep_enabled s.shared i hwait with ⟨input, next, hnext⟩ | hrest
    · refine .inl ⟨⟨next.1, Function.update s.own (.task i) next.2⟩, ⟨input, ?_⟩, fun j hj => Function.update_of_ne hj _ _⟩
      simp only [Completion.step, hpanicked, Function.update_self]
      exact hnext
    · exact .inr hrest
  · rintro i t hwait ⟨⟨input, hact⟩, -⟩
    simp only [Completion.step] at hact
    split_ifs at hact
    exact taskStep_closed (hsound _) hdone hwait hact

/-- Tokens are conserved: as long as `complete_all` is not called the successful waits and the tokens left add up to the
calls of `complete`, a wait that times out has taken none, and after `complete_all` every wait succeeds. -/
theorem tokens_conserved {s : Threads.State Shared Agent Phase} (h : threads.system.Reachable s) :
    s.shared.taken ≤ s.shared.completes ∧
      (s.shared.all = false → s.shared.successes ≤ s.shared.completes ∧
        s.shared.done + s.shared.successes = s.shared.completes) ∧
      (∀ a w, s.own a = .returned w .timedOut → w.consumed = false) ∧
      (s.shared.all = true → Closed s) := by
  obtain ⟨hcounted, hsound⟩ := stable.reachable h
  refine ⟨hcounted.taken_le, fun hall => ?_, fun a w ha => ?_, closed_of_reachable h⟩
  · obtain ⟨-, -, hsum⟩ := hcounted.counting hall
    exact ⟨hsum ▸ Nat.le_add_left _ _, hsum⟩
  · have hw := hsound a
    rw [ha] at hw
    exact hw.1

def lateToken : List (Agent × Input) :=
  [(.task 0, .start true), (.task 0, .advance), (.task 0, .advance), (.task 0, .late), (.task 0, .advance),
    (.task 0, .advance),
    (.task 1, .complete), (.task 1, .advance), (.task 2, .start false), (.task 2, .advance), (.task 2, .advance)]

theorem tokens_conserved_lateToken : ∃ s w, threads.system.Reachable s ∧ s.own (.task 0) = .returned w .timedOut ∧
    w.consumed = false ∧ s.shared.successes = 1 ∧ s.shared.all = false ∧
    s.shared.done + s.shared.successes = s.shared.completes := by
  have hrun : (Threads.replay step ⟨⟨0, [], fun _ => .waiting, fun _ => false, fun _ => false, 0, 0, 0, false, false⟩,
      fun _ => .idle⟩ lateToken).any (fun s => decide (s.own (.task 0) = .returned ⟨true, false, false⟩ .timedOut ∧
        s.shared.successes = 1 ∧ s.shared.all = false)) = true := by decide +kernel
  obtain ⟨s, hreach, hreturned, hsuccesses, hall⟩ := Threads.reachable_of_replay (p := threads)
    (.init (by exact ⟨rfl, fun _ => rfl⟩)) (fun hstep => ⟨_, hstep⟩) hrun
  obtain ⟨-, hcounting, htimedOut, -⟩ := tokens_conserved hreach
  exact ⟨s, _, hreach, hreturned, htimedOut _ _ hreturned, hsuccesses, hall, (hcounting hall).2⟩

end SudoOS.Completion
