import SudoOS.Theorems.ThreadGroup

/-! The default action of a signal and a fatal fault end the thread that takes them, and nobody else. -/

namespace SudoOS.ThreadGroup

variable {s s' : Shared} {t u : Nat} {k k' : Phase} {input : Input} {status : Word}

def Ending (s : Shared) (status : Word) : Prop :=
  (∃ t, s.members = [t] ∧ s.departing t = true ∧ (s.life t = .exited → s.exitStatus t = status)) ∨
    s.members = [] ∧ s.recorded = some status

def Doomed (s : Shared) : Prop := ∀ status, s.fatal = some status → Ending s status

def Dying (s : Shared) : Phase → Prop
  | .leaving status _ => ∀ meant, s.fatal = some meant → status = meant
  | .outside | .retired | .gone => True
  | _ => s.fatal = none

/-- Only a thread alone in its group dies of a fault or a signal. -/
def diesAlone (s : Shared) (agent : Agent) (k : Phase) (input : Input) : Bool :=
  match agent, k, input with
  | .thread t, .faulting, .fatalFault active => !active && s.members == [t]
  | .thread _, .faulting, .exception => false
  | .thread t, .deliver _, _ => (s.fatalSignal t).isNone || s.members == [t]
  | _, _, _ => true

def DiesAlone (s : Shared) (agent : Agent) (k : Phase) (input : Input) : Prop := diesAlone s agent k input = true

/-! ### Steps -/

theorem Doomed.fatal_eq_none (h : Doomed s) (hmem : t ∈ s.members) (hdeparting : s.departing t = false) :
    s.fatal = none := by
  cases hfatal : s.fatal with
  | none => rfl
  | some status =>
    rcases h status hfatal with ⟨a, hmembers, hdeparted, -⟩ | ⟨hmembers, -⟩
    · rw [hmembers, List.mem_singleton] at hmem
      cases hdeparting.symm.trans (hmem ▸ hdeparted)
    · rw [hmembers] at hmem
      exact absurd hmem List.not_mem_nil

/-- A step of a thread before anything fatal has happened, after which nothing fatal has happened either. -/
theorem Doomed.of_none (h : s.fatal = none) (hsame : s'.fatal = s.fatal) : Doomed s' := by
  intro status hs
  cases (h.symm.trans hsame.symm).trans hs

theorem Doomed.leave {cause : Cause} (h : Doomed s) (hmem : t ∈ s.members) (hk : Dying s (.leaving status cause)) :
    Doomed { s.setLife t .exited with
      exitStatus := Function.update s.exitStatus t status, cause := Function.update s.cause t cause } := by
  intro meant hmeant
  rcases h meant hmeant with ⟨a, hmembers, hdeparted, -⟩ | ⟨hmembers, -⟩
  · rw [hmembers, List.mem_singleton] at hmem
    subst hmem
    exact .inl ⟨t, hmembers, hdeparted, fun _ => (Function.update_self _ _ _).trans (hk meant hmeant)⟩
  · rw [hmembers] at hmem
    exact absurd hmem List.not_mem_nil

theorem Doomed.withdraw (h : Doomed s) (hmem : t ∈ s.members) (hp : Placed t s .retired) : Doomed (s.withdrawn t) := by
  intro meant hmeant
  rcases h meant hmeant with ⟨a, hmembers, -, hstatus⟩ | ⟨hmembers, -⟩
  · rw [hmembers, List.mem_singleton] at hmem
    subst hmem
    have hempty : s.members.erase t = [] := by
      rw [hmembers]
      exact List.erase_cons_head t []
    refine .inr ⟨hempty, ?_⟩
    show (if s.members.erase t = [] then some (s.exitStatus t) else s.recorded) = some meant
    rw [if_pos hempty, hstatus hp.fits]
  · rw [hmembers] at hmem
    exact absurd hmem List.not_mem_nil

theorem Doomed.terminate {meant : Word} (halone : s.members = [t]) (hlife : s.life t = .running) :
    Doomed { s.depart t with fatal := some meant } := by
  intro status _
  refine .inl ⟨t, halone, Function.update_self _ _ _, fun hexited => ?_⟩
  cases hlife.symm.trans hexited

theorem Doomed.move (h : Doomed s) (hsorted : Sorted s) (hp : Placed t s k) (hk : Dying s k)
    (hdies : diesAlone s (.thread t) k input = true) (hmove : Move s t k input s' k') : Doomed s' ∧ Dying s' k' := by
  have hfits := hp.fits
  have hmem : t ∈ s.members := hsorted.mem_iff.2 (Life.joined_of_acting (hmove.acting hp))
  cases hmove with
  | enter =>
    have hnone : s.fatal = none := h.fatal_eq_none hmem hp.departing
    exact ⟨.of_none hnone rfl, hnone⟩
  | @forced _ _ status hmark =>
    have hnone : s.fatal = none := by
      cases k <;> cases hmark <;> exact hk
    refine ⟨.of_none hnone rfl, fun meant hmeant => ?_⟩
    cases hnone.symm.trans hmeant
  | fatalFault =>
    simp only [diesAlone, Bool.and_eq_true, Bool.not_eq_true', beq_iff_eq] at hdies
    obtain ⟨rfl, halone⟩ := hdies
    refine ⟨.terminate halone hfits, fun meant hmeant => ?_⟩
    exact Option.some.inj hmeant
  | exception => cases hdies
  | @defaultAction _ frame signals masks signal hsignal =>
    simp only [diesAlone, hsignal, Option.isNone_some, Bool.false_or, beq_iff_eq] at hdies
    have halone : (s.withSignals t signals masks).members = [t] := hdies
    refine ⟨.terminate halone hfits, fun meant hmeant => ?_⟩
    exact Option.some.inj hmeant
  | uncaught =>
    have hnone : s.fatal = none := hk
    refine ⟨.of_none hnone rfl, fun meant hmeant => ?_⟩
    cases hnone.symm.trans hmeant
  | leave => exact ⟨h.leave hmem hk, trivial⟩
  | withdraw => exact ⟨h.withdraw hmem hp, trivial⟩
  | trap hk' =>
    have hnone : s.fatal = none := hk
    rcases hk' with rfl | rfl | rfl <;> exact ⟨h, hnone⟩
  | unlock hlocked =>
    have hnone : s.fatal = none := by
      rcases hlocked with rfl | rfl <;> exact hk
    exact ⟨.of_none hnone rfl, hnone⟩
  | panic hmay =>
    refine ⟨h, ?_⟩
    cases k <;> cases hmay <;> exact hk
  | @lateGroup _ child status =>
    have hnone : s.fatal = none := hk
    obtain ⟨forced, markedBy, heq⟩ := requestForcedExit_eq s child status .groupMark
    rw [heq]
    exact ⟨.of_none hnone rfl, hnone⟩
  | @lateExec _ child =>
    have hnone : s.fatal = none := hk
    obtain ⟨forced, markedBy, heq⟩ := lateExec_eq s child
    rw [heq]
    exact ⟨.of_none hnone rfl, hnone⟩
  | @resume _ frame =>
    have hnone : s.fatal = none := hk
    refine ⟨.of_none hnone rfl, ?_⟩
    cases frame with
    | user => exact hnone
    | kernel status cause =>
      intro meant hmeant
      cases hnone.symm.trans hmeant
  | _ =>
    have hnone : s.fatal = none := hk
    exact ⟨.of_none hnone rfl, hnone⟩

theorem Move.fatal (hmove : Move s t k input s' k') (hdies : diesAlone s (.thread t) k input = true) :
    s'.fatal = s.fatal ∨ s.members = [t] := by
  cases hmove with
  | fatalFault =>
    simp only [diesAlone, Bool.and_eq_true, beq_iff_eq] at hdies
    exact .inr hdies.2
  | defaultAction hsignal =>
    simp only [diesAlone, hsignal, Option.isNone_some, Bool.false_or, beq_iff_eq] at hdies
    exact .inr hdies
  | @lateGroup _ child status =>
    obtain ⟨forced, markedBy, heq⟩ := requestForcedExit_eq s child status .groupMark
    rw [heq]
    exact .inl rfl
  | @lateExec _ child =>
    obtain ⟨forced, markedBy, heq⟩ := lateExec_eq s child
    rw [heq]
    exact .inl rfl
  | _ => exact .inl rfl

theorem Dying.mono (h : Dying s k) (hfatal : s'.fatal = s.fatal) : Dying s' k := by
  cases k
  case leaving status cause => exact fun meant hmeant => h meant (hfatal.symm.trans hmeant)
  case outside | retired | gone => trivial
  all_goals exact hfatal.trans h

theorem Dying.other {l : Phase} (h : Dying s l) (hsorted : Sorted s) (hp : Placed u s l) (hne : u ≠ t)
    (hdies : diesAlone s (.thread t) k input = true) (hmove : Move s t k input s' k') : Dying s' l := by
  rcases hmove.fatal hdies with hsame | halone
  · exact h.mono hsame
  · -- a thread that has something to know is a member, and there is only one
    have habsent : (s.life u).joined = false := by
      cases hjoined : (s.life u).joined with
      | false => rfl
      | true =>
        have hmem := hsorted.mem_iff.2 hjoined
        rw [halone, List.mem_singleton] at hmem
        exact absurd hmem hne
    have hfits := hp.fits
    cases l
    case outside | retired | gone => trivial
    all_goals
      rw [show s.life u = .running from hfits] at habsent
      cases habsent

def Unrecorded (s : Shared) : Prop := ∀ status, s.recorded = some status → s.members = []

theorem Unrecorded.move (h : Unrecorded s) (hmem : t ∈ s.members) (hmove : Move s t k input s' k') : Unrecorded s' := by
  have hnone : s.recorded = none := by
    refine Option.eq_none_iff_forall_ne_some.2 fun status hs => ?_
    rw [h status hs] at hmem
    exact absurd hmem List.not_mem_nil
  have hkeep : s'.recorded = s.recorded → Unrecorded s' := by
    intro hsame status hs
    cases (hnone.symm.trans hsame.symm).trans hs
  cases hmove with
  | withdraw =>
    intro status hs
    replace hs : (if s.members.erase t = [] then some (s.exitStatus t) else s.recorded) = some status := hs
    split_ifs at hs with hempty
    · exact hempty
    · cases hnone.symm.trans hs
  | @lateGroup _ child status =>
    obtain ⟨forced, markedBy, heq⟩ := requestForcedExit_eq s child status .groupMark
    rw [heq] at hkeep ⊢
    exact hkeep rfl
  | @lateExec _ child =>
    obtain ⟨forced, markedBy, heq⟩ := lateExec_eq s child
    rw [heq] at hkeep ⊢
    exact hkeep rfl
  | _ => exact hkeep rfl

/-! ### All interleavings -/

def Dies : Agent → Shared → Phase → Prop
  | .thread _, s, k => Dying s k
  | .world, _, _ => True

theorem dying : (threads DiesAlone).Stable (fun s => Sorted s ∧ Doomed s ∧ Unrecorded s)
    fun agent s k => Located agent s k ∧ Dies agent s k := by
  refine stable_extend ?_ (fun _ => trivial) trivial ?_ ?_ id fun h => Dying.mono h rfl
  · rintro s ⟨t, signals, masks, rfl⟩
    exact ⟨nofun, nofun⟩
  · rintro t input s k s' k' hsorted hplaced ⟨hdoomed, hunrecorded⟩ hdies hallowed hmove
    have hmem : t ∈ s.members := hsorted.mem_iff.2 (Life.joined_of_acting (hmove.acting hplaced))
    obtain ⟨hdoomed', hdies'⟩ := hdoomed.move hsorted hplaced hdies hallowed hmove
    exact ⟨⟨hdoomed', hunrecorded.move hmem hmove⟩, hdies'⟩
  · intro t u input s k s' k' l hne hsorted hplaced hother hl hallowed hmove
    exact Dying.other hl hsorted hother hne hallowed hmove

/-- A fatal signal or fault that is taken by a thread alone in its group ends the process: from then on every thread has
left or is marked, none is in user mode, and the recorded status is that of the signal. -/
theorem fatal_ends_process {s : Threads.State Shared Agent Phase} (h : (threads DiesAlone).system.Reachable s)
    (hfatal : s.shared.fatal = some status) :
    (∀ t, s.shared.life t ≠ .unborn → (s.own (.thread t)).departed = true ∨ s.shared.forced t ≠ noForcedExit) ∧
      (∀ t, s.own (.thread t) ≠ .user) ∧ ∀ recorded, s.shared.recorded = some recorded → recorded = status := by
  obtain ⟨⟨hsorted, hdoomed, hunrecorded⟩, hown⟩ := dying.reachable h
  have hplaced : ∀ t, Placed t s.shared (s.own (.thread t)) := fun t => (hown (.thread t)).1
  have hending := hdoomed status hfatal
  refine ⟨?_, ?_, ?_⟩
  · intro t hunborn
    left
    cases hjoined : (s.shared.life t).joined with
    | true =>
      have hmem := hsorted.mem_iff.2 hjoined
      rcases hending with ⟨a, hmembers, hdeparting, -⟩ | ⟨hmembers, -⟩
      · rw [hmembers, List.mem_singleton] at hmem
        exact (hplaced t).departing.symm.trans (hmem ▸ hdeparting)
      · rw [hmembers] at hmem
        exact absurd hmem List.not_mem_nil
    | false =>
      have hfits := (hplaced t).fits
      revert hfits hjoined hunborn
      cases s.shared.life t <;> cases s.own (.thread t) <;> simp [Life.joined, Phase.Fits, Phase.departed]
  · intro t huser
    have hdies : Dying s.shared (s.own (.thread t)) := (hown (.thread t)).2
    rw [huser] at hdies
    cases hfatal.symm.trans hdies
  · intro recorded hrecorded
    rcases hending with ⟨a, hmembers, -⟩ | ⟨-, hstatus⟩
    · cases hmembers.symm.trans (hunrecorded recorded hrecorded)
    · exact Option.some.inj (hrecorded.symm.trans hstatus)

def faultAlone : List (Agent × Input) :=
  [(.thread 0, .advance), (.thread 0, .advance), (.thread 0, .fault), (.thread 0, .fatalFault false), (.thread 0, .advance),
    (.thread 0, .advance)]

theorem fatal_ends_process_alone : ∃ s, (threads DiesAlone).system.Reachable s ∧
    s.shared.fatal = some (-BitVec.ofNat 64 sigsegv) ∧ s.shared.recorded = some (-BitVec.ofNat 64 sigsegv) ∧
    ∀ t, s.own (.thread t) ≠ .user := by
  have hrun : (Threads.replay (Threads.guarded diesAlone step) oneThread faultAlone).any (fun s =>
      decide (s.shared.fatal = some (-BitVec.ofNat 64 sigsegv) ∧
        s.shared.recorded = some (-BitVec.ofNat 64 sigsegv))) = true := by decide +kernel
  obtain ⟨s, hreach, hfatal, hrecorded⟩ := reachable_of_guarded DiesAlone id hrun
  exact ⟨s, hreach, hfatal, hrecorded, (fatal_ends_process hreach hfatal).2.1⟩

def faultOfOne : List (Agent × Input) :=
  cloneOne ++ [(.thread 0, .fault), (.thread 0, .fatalFault false), (.thread 0, .advance), (.thread 0, .advance),
    (.thread 1, .syscall), (.thread 1, .other .new .new), (.thread 1, .advance), (.thread 1, .install true)]

/-- After the fault of its sibling thread 1 is neither marked nor gone, and it is back in user mode after a system call. -/
theorem sibling_survives_fault : ∃ s, (threads fun _ _ _ _ => True).system.Reachable s ∧
    s.shared.fatal = some (-BitVec.ofNat 64 sigsegv) ∧ s.shared.life 1 = .running ∧ s.shared.forced 1 = noForcedExit ∧
    s.own (.thread 1) = .user ∧ s.own (.thread 0) = .gone := by
  have hrun : (Threads.replay step oneThread faultOfOne).any (fun s =>
      decide (s.shared.fatal = some (-BitVec.ofNat 64 sigsegv) ∧ s.shared.life 1 = .running ∧
        s.shared.forced 1 = noForcedExit ∧ s.own (.thread 1) = .user ∧ s.own (.thread 0) = .gone)) = true := by
          decide +kernel
  exact reachable_of_script hrun

end SudoOS.ThreadGroup
