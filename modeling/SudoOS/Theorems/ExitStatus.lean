import SudoOS.Theorems.ThreadGroup

/-! The status that a process leaves behind is that of the thread whose drop empties the group. -/

namespace SudoOS.ThreadGroup

variable {s s' : Shared} {t u : Nat} {k k' : Phase} {input : Input} {status : Word} {cause : Cause}

def Cause.ofGroup : Cause → Bool
  | .groupCall true | .groupMark => true
  | _ => false

def Justified (s : Shared) (status : Word) (cause : Cause) : Prop :=
  cause.ofGroup = true → s.groupExit = .active status

structure Reported (s : Shared) : Prop where
  recorded : ∀ {status}, s.recorded = some status → s.members = [] ∧ ∀ {group}, s.groupExit = .active group → status = group
  marked : ∀ {u}, s.forced u ≠ noForcedExit → Justified s (s.forced u) (s.markedBy u)
  exited : ∀ {u}, s.life u = .exited → Justified s (s.exitStatus u) (s.cause u)

def Phase.calling : Phase → Bool
  | .groupEntry _ | .publishing _ => true
  | _ => false

def Leaves (s : Shared) : Phase → Prop
  | .epilogue (.kernel status cause) | .deliver (.kernel status cause) | .leaving status cause => Justified s status cause
  | _ => True

structure Reporting (t : Nat) (s : Shared) (k : Phase) : Prop where
  leaves : Leaves s k
  called : s.called t = true → k.calling = true ∨ ∃ group, s.groupExit = .active group

/-- Under a group exit, the last thread to be reaped left because of it. -/
def reapsGroup (s : Shared) (agent : Agent) (k : Phase) : Bool :=
  match agent, k, s.groupExit with
  | .thread t, .retired, .active _ => s.members != [t] || (s.cause t).ofGroup
  | _, _, _ => true

def ReapsGroup (s : Shared) (agent : Agent) (k : Phase) (_ : Input) : Prop := reapsGroup s agent k = true

/-! ### Steps -/

theorem Justified.mono (h : Justified s status cause) (hactive : ∀ {group}, s.groupExit = .active group →
    s'.groupExit = .active group) : Justified s' status cause := fun hgroup => hactive (h hgroup)

theorem Leaves.mono (h : Leaves s k) (hactive : ∀ {group}, s.groupExit = .active group → s'.groupExit = .active group) :
    Leaves s' k := by
  cases k
  case epilogue frame | deliver frame =>
    cases frame with
    | user => trivial
    | kernel status cause => exact Justified.mono h hactive
  case leaving status cause => exact Justified.mono h hactive
  all_goals trivial

/-- A step of a member that records nothing and lets nobody exit, and whose marks are justified. -/
theorem Reported.mark (h : Reported s) (hmem : t ∈ s.members) (hrecorded : s'.recorded = s.recorded)
    (hmarked : ∀ {u}, s'.forced u ≠ noForcedExit → Justified s' (s'.forced u) (s'.markedBy u))
    (hexited : ∀ {u}, s'.life u = .exited → s.life u = .exited) (hstatus : s'.exitStatus = s.exitStatus)
    (hcause : s'.cause = s.cause) (hactive : ∀ {group}, s.groupExit = .active group → s'.groupExit = .active group) :
    Reported s' where
  recorded := by
    -- nothing is recorded before the last member is dropped
    intro status hs
    rw [hrecorded] at hs
    rw [(h.recorded hs).1] at hmem
    exact absurd hmem List.not_mem_nil
  marked := hmarked
  exited := by
    intro u hu
    rw [hstatus, hcause]
    exact (h.exited (hexited hu)).mono hactive

theorem Reported.keep (h : Reported s) (hmem : t ∈ s.members) (hrecorded : s'.recorded = s.recorded)
    (hforced : s'.forced = s.forced)
    (hmarked : s'.markedBy = s.markedBy) (hexited : ∀ {u}, s'.life u = .exited → s.life u = .exited)
    (hstatus : s'.exitStatus = s.exitStatus) (hcause : s'.cause = s.cause)
    (hactive : ∀ {group}, s.groupExit = .active group → s'.groupExit = .active group) : Reported s' := by
  refine h.mark hmem hrecorded ?_ hexited hstatus hcause hactive
  intro u hu
  rw [hforced] at hu ⊢
  rw [hmarked]
  exact (h.marked hu).mono hactive

theorem exited_of_setLife {life : Life} (hlife : life ≠ .exited) (hu : (s.setLife t life).life u = .exited) :
    s.life u = .exited := by
  replace hu : Function.update s.life t life u = .exited := hu
  by_cases hut : u = t
  · rw [hut, Function.update_self] at hu
    exact absurd hu hlife
  · rwa [Function.update_of_ne hut] at hu

theorem Reported.requestForcedExit {child : Nat} {source : Cause} (h : Reported s) (hsource : Justified s status source)
    (hu : (s.requestForcedExit child status source).forced u ≠ noForcedExit) :
    Justified s ((s.requestForcedExit child status source).forced u)
      ((s.requestForcedExit child status source).markedBy u) := by
  unfold Shared.requestForcedExit at hu ⊢
  split_ifs at hu ⊢
  · by_cases huc : u = child
    · subst huc
      simp only [Function.update_self]
      exact hsource
    · simp only [Function.update_of_ne huc] at hu ⊢
      exact h.marked hu
  · exact h.marked hu

theorem Reported.requestProcessThreadExit {source : Cause} (h : Reported s) (hsource : Justified s status source)
    (hu : (s.requestProcessThreadExit t status source).forced u ≠ noForcedExit) :
    Justified s ((s.requestProcessThreadExit t status source).forced u)
      ((s.requestProcessThreadExit t status source).markedBy u) := by
  simp only [Shared.requestProcessThreadExit] at hu ⊢
  split_ifs at hu ⊢
  · exact hsource
  · exact h.marked hu

theorem Reported.enqueue {child : Nat} (h : Reported s) (hmem : t ∈ s.members) (hcalm : Calm t s s')
    (hrecorded : s'.recorded = s.recorded) (hstatus : s'.exitStatus = s.exitStatus) (hcause : s'.cause = s.cause)
    (hmarked : ∀ {u}, s'.forced u ≠ noForcedExit → Justified s (s'.forced u) (s'.markedBy u)) :
    Reported (ThreadGroup.enqueue s' child).1 := by
  have hactive : ∀ {group}, s.groupExit = .active group → s'.groupExit = .active group := fun hg => hcalm.groupExit.trans hg
  refine h.mark hmem hrecorded (fun hu => (hmarked hu).mono hactive) ?_ hstatus hcause hactive
  have hexited : ∀ {u}, (s'.setLife child .runnable).life u = .exited → s'.life u = .exited := exited_of_setLife nofun
  intro u hu
  exact (congrFun hcalm.life u).symm.trans (hexited hu)

theorem requestForcedExit_status {child : Nat} {source : Cause} :
    (s.requestForcedExit child status source).recorded = s.recorded ∧
      (s.requestForcedExit child status source).exitStatus = s.exitStatus ∧
      (s.requestForcedExit child status source).cause = s.cause := by
  obtain ⟨forced, markedBy, heq⟩ := requestForcedExit_eq s child status source
  rw [heq]
  exact ⟨rfl, rfl, rfl⟩

theorem Reported.withdraw (h : Reported s) (hmem : t ∈ s.members) (hp : Placed t s .retired)
    (hreaps : reapsGroup s (.thread t) .retired = true) : Reported (s.withdrawn t) := by
  have hexited : ∀ {u}, (s.setLife t .dropped).life u = .exited → s.life u = .exited := exited_of_setLife nofun
  refine ⟨?_, h.marked, fun hu => h.exited (hexited hu)⟩
  intro status hs
  replace hs : (if s.members.erase t = [] then some (s.exitStatus t) else s.recorded) = some status := hs
  by_cases hempty : s.members.erase t = []
  · rw [if_pos hempty] at hs
    refine ⟨hempty, fun {group} hactive => ?_⟩
    have halone : s.members = [t] := by
      have hperm := List.perm_cons_erase hmem
      rw [hempty] at hperm
      exact hperm.eq_singleton
    replace hactive : s.groupExit = .active group := hactive
    simp only [reapsGroup, hactive, halone, bne_self_eq_false, Bool.false_or] at hreaps
    have hjust := h.exited (show s.life t = .exited from hp.fits) hreaps
    exact (Option.some.inj hs).symm.trans (GroupExit.active.inj (hjust.symm.trans hactive))
  · rw [if_neg hempty] at hs
    rw [(h.recorded hs).1] at hmem
    exact absurd hmem List.not_mem_nil

theorem Reported.leave (h : Reported s) (hmem : t ∈ s.members) (hjust : Justified s status cause) :
    Reported { s.setLife t .exited with
      exitStatus := Function.update s.exitStatus t status, cause := Function.update s.cause t cause } := by
  refine ⟨fun hs => ?_, h.marked, ?_⟩
  · rw [(h.recorded hs).1] at hmem
    exact absurd hmem List.not_mem_nil
  · intro u hu
    replace hu : Function.update s.life t .exited u = .exited := hu
    show Justified s (Function.update s.exitStatus t status u) (Function.update s.cause t cause u)
    by_cases hut : u = t
    · rw [hut, Function.update_self, Function.update_self]
      exact hjust
    · rw [Function.update_of_ne hut] at hu
      rw [Function.update_of_ne hut, Function.update_of_ne hut]
      exact h.exited hu

theorem Reported.move (h : Reported s) (hsorted : Sorted s) (hp : Placed t s k) (hk : Leaves s k)
    (hreaps : reapsGroup s (.thread t) k = true) (hmove : Move s t k input s' k') : Reported s' ∧ Leaves s' k' := by
  have hholds := hp.holds
  have hmem : t ∈ s.members := hsorted.mem_iff.2 (Life.joined_of_acting (hmove.acting hp))
  cases hmove with
  | enter | join | insert => exact ⟨h.keep hmem rfl rfl rfl (exited_of_setLife nofun) rfl rfl id, trivial⟩
  | @forced _ _ status hmark hforced =>
    refine ⟨h.keep hmem rfl rfl rfl id rfl rfl id, ?_⟩
    unfold Shared.forcedExitStatus at hforced
    split_ifs at hforced with hnone
    cases hforced
    exact h.marked hnone
  | start | resolved | refused | admitted | execCount | execWait | follow | late => exact ⟨h, trivial⟩
  | trap hk' => rcases hk' with rfl | rfl | rfl <;> exact ⟨h, trivial⟩
  | @unmarked _ frame => cases frame <;> exact ⟨h, hk⟩
  | fatalFault | exception | exit | defaultAction | uncaught => exact ⟨h.keep hmem rfl rfl rfl id rfl rfl id, nofun⟩
  | other | exitGroup | beginExec | lock | unlock | execAlone | execReplace | execFinish =>
    exact ⟨h.keep hmem rfl rfl rfl id rfl rfl id, trivial⟩
  | panic hk' =>
    refine ⟨h.keep hmem rfl rfl rfl id rfl rfl id, ?_⟩
    cases k <;> cases hk' <;> trivial
  | lateGroup hactive =>
    obtain ⟨hrecorded, hstatus, hcause⟩ := requestForcedExit_status
    exact ⟨h.enqueue hmem .requestForcedExit hrecorded hstatus hcause (h.requestForcedExit fun _ => hactive), trivial⟩
  | @lateExec _ child =>
    refine ⟨?_, trivial⟩
    by_cases hexec : s.execInProgress = true
    · rw [if_pos hexec]
      obtain ⟨hrecorded, hstatus, hcause⟩ := requestForcedExit_status
      exact h.enqueue hmem .requestForcedExit hrecorded hstatus hcause (h.requestForcedExit nofun)
    · rw [if_neg hexec]
      exact h.enqueue hmem (.refl t s) rfl rfl rfl h.marked
  | claim hexit =>
    refine ⟨h.keep hmem rfl rfl rfl id rfl rfl ?_, trivial⟩
    rw [hexit]
    exact nofun
  | publish =>
    refine ⟨h.keep hmem rfl rfl rfl id rfl rfl ?_, trivial⟩
    rw [show s.groupExit = .publishing t from hholds]
    exact nofun
  | @groupScan _ status group first hlock =>
    obtain ⟨hactive, hfirst⟩ := hholds
    refine ⟨h.mark hmem rfl (h.requestProcessThreadExit fun _ => hactive) id rfl rfl id, ?_⟩
    cases first with
    | false => exact nofun
    | true => exact fun _ => (hfirst rfl).symm ▸ hactive
  | execScan => exact ⟨h.mark hmem rfl (h.requestProcessThreadExit nofun) id rfl rfl id, trivial⟩
  | @resume _ frame =>
    refine ⟨h.keep hmem rfl rfl rfl id rfl rfl id, ?_⟩
    cases frame with
    | user => trivial
    | kernel status cause => exact hk
  | leave => exact ⟨h.leave hmem hk, trivial⟩
  | withdraw => exact ⟨h.withdraw hmem hp hreaps, trivial⟩

/-- A call of `exit_group` ends with the status published. -/
theorem Move.called (hmove : Move s t k input s' k') (hp : Placed t s k)
    (hk : s.called t = true → k.calling = true ∨ ∃ group, s.groupExit = .active group)
    (hrespects : Respects t s s') : s'.called t = true → k'.calling = true ∨ ∃ group, s'.groupExit = .active group := by
  have hkeep : s'.called = s.called → k.calling = false → s'.called t = true →
      k'.calling = true ∨ ∃ group, s'.groupExit = .active group := by
    intro hsame hcalling hcalled
    rw [hsame] at hcalled
    rcases hk hcalled with htrue | ⟨group, hactive⟩
    · cases hcalling.symm.trans htrue
    · exact .inr ⟨group, hrespects.active hactive⟩
  cases hmove with
  | exitGroup | claim => exact fun _ => .inl rfl
  | follow hactive => exact fun _ => .inr ⟨_, hactive⟩
  | publish => exact fun _ => .inr ⟨_, rfl⟩
  | forced hmark => exact hkeep rfl (by cases k <;> first | rfl | cases hmark)
  | unlock hlocked => exact hkeep rfl (by rcases hlocked with rfl | rfl <;> rfl)
  | panic hmay => exact hkeep rfl (by cases k <;> first | rfl | cases hmay)
  | @lateGroup _ child status =>
    obtain ⟨forced, markedBy, heq⟩ := requestForcedExit_eq s child status .groupMark
    rw [heq] at hkeep ⊢
    exact hkeep rfl rfl
  | @lateExec _ child =>
    obtain ⟨forced, markedBy, heq⟩ := lateExec_eq s child
    rw [heq] at hkeep ⊢
    exact hkeep rfl rfl
  | _ => exact hkeep rfl rfl

/-- Nobody else's call is made or taken back. -/
theorem Move.called_other (hmove : Move s t k input s' k') (hne : u ≠ t) : s'.called u = s.called u := by
  cases hmove with
  | exitGroup => exact Function.update_of_ne hne _ _
  | @lateGroup _ child status =>
    obtain ⟨forced, markedBy, heq⟩ := requestForcedExit_eq s child status .groupMark
    rw [heq]
    rfl
  | @lateExec _ child =>
    obtain ⟨forced, markedBy, heq⟩ := lateExec_eq s child
    rw [heq]
    rfl
  | _ => rfl

/-! ### All interleavings -/

def Reports : Agent → Shared → Phase → Prop
  | .thread t, s, k => Reporting t s k
  | .world, _, _ => True

theorem Reported.fresh (h : Fresh s) : Reported s := by
  obtain ⟨t, signals, masks, rfl⟩ := h
  refine ⟨nofun, fun hu => absurd rfl hu, fun {u} _ => nofun⟩

theorem reporting : (threads ReapsGroup).Stable (fun s => Sorted s ∧ Reported s)
    fun agent s k => Located agent s k ∧ Reports agent s k := by
  refine stable_extend Reported.fresh ?_ trivial ?_ ?_ ?_ ?_
  · rintro _ t ⟨t, signals, masks, rfl⟩
    exact ⟨trivial, nofun⟩
  · intro t input s k s' k' hsorted hplaced hreported hreports hreaps hmove
    obtain ⟨hreported', hleaves⟩ := hreported.move hsorted hplaced hreports.leaves hreaps hmove
    exact ⟨hreported', hleaves, hmove.called hplaced hreports.called (hsorted.move hplaced hmove).respects⟩
  · intro t u input s k s' k' l hne hsorted hplaced hother hl hreaps hmove
    have hrespects := (hsorted.move hplaced hmove).respects
    refine ⟨Leaves.mono hl.leaves hrespects.active, fun hcalled => ?_⟩
    rw [hmove.called_other hne] at hcalled
    exact (hl.called hcalled).imp id fun ⟨group, hgroup⟩ => ⟨group, hrespects.active hgroup⟩
  · exact fun h => ⟨h.recorded, h.marked, h.exited⟩
  · exact fun h => ⟨Leaves.mono h.leaves id, h.called⟩

/-- If a thread has called `exit_group`, the status recorded for the process is the published one, in every run in which the
last thread to be dropped left on account of the group exit. -/
theorem recorded_eq_published {s : Threads.State Shared Agent Phase} {status : Word}
    (h : (threads ReapsGroup).system.Reachable s) (hrecorded : s.shared.recorded = some status)
    (hcalled : s.shared.called t = true) : s.shared.groupExit = .active status := by
  obtain ⟨⟨hsorted, hreported⟩, hown⟩ := reporting.reachable h
  obtain ⟨hempty, hgroup⟩ := hreported.recorded hrecorded
  obtain ⟨hplaced, hreports⟩ := hown (.thread t)
  replace hplaced : Placed t s.shared (s.own (.thread t)) := hplaced
  rcases Reporting.called hreports hcalled with hcalling | ⟨group, hactive⟩
  · -- a thread that is still in its call is a member
    have hrunning : s.shared.life t = .running := by
      have hfits := hplaced.fits
      revert hfits hcalling
      cases s.own (.thread t) <;> simp [Phase.Fits, Phase.calling]
    have hmem : t ∈ s.shared.members := hsorted.mem_iff.2 (hrunning ▸ rfl)
    rw [hempty] at hmem
    exact absurd hmem List.not_mem_nil
  · rw [hactive, hgroup hactive]

def leaveTogether : List (Agent × Input) :=
  cloneOne ++ groupExitOf 3 ++
    [(.thread 0, .advance), (.thread 0, .install true), (.thread 0, .advance), (.thread 0, .advance),
      (.thread 1, .interrupt), (.thread 1, .advance), (.thread 1, .advance)]

theorem recorded_eq_published_together : ∃ s status, (threads ReapsGroup).system.Reachable s ∧
    s.shared.recorded = some status ∧ s.shared.called 0 = true ∧ s.shared.groupExit = .active status := by
  have hrun : (Threads.replay (Threads.guarded (fun s agent k _ => reapsGroup s agent k) step) oneThread leaveTogether).any
      (fun s => decide (s.shared.recorded = some 3 ∧ s.shared.called 0 = true)) = true := by decide +kernel
  obtain ⟨s, hreach, hrecorded, hcalled⟩ := reachable_of_guarded ReapsGroup id hrun
  exact ⟨s, 3, hreach, hrecorded, hcalled, recorded_eq_published hreach hrecorded hcalled⟩

def exitBefore : List (Agent × Input) :=
  cloneOne ++
    [(.thread 1, .syscall), (.thread 1, .exit 7), (.thread 1, .advance), (.thread 1, .install true),
      (.thread 1, .advance)] ++
    groupExitOf 3 ++
    [(.thread 0, .advance), (.thread 0, .install true), (.thread 0, .advance), (.thread 0, .advance), (.thread 1, .advance)]

/-- The process records the status of the earlier `exit`, not the one that its only `exit_group` published. -/
theorem recorded_ne_published : ∃ s, (threads fun _ _ _ _ => True).system.Reachable s ∧ s.shared.called 0 = true ∧
    s.shared.groupExit = .active 3 ∧ s.shared.recorded = some 7 := by
  have hrun : (Threads.replay step oneThread exitBefore).any (fun s => decide (s.shared.called 0 = true ∧
      s.shared.groupExit = .active 3 ∧ s.shared.recorded = some 7)) = true := by decide +kernel
  exact reachable_of_script hrun

end SudoOS.ThreadGroup
