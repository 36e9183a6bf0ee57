import SudoOS.Kernel.ThreadGroup

/-!
What a step of a thread can do to its group, said once (`Move`), and the facts about membership, locks and the stages of an
exec that every result on the end of a process rests on.
-/

namespace SudoOS.ThreadGroup

/-! ### One step -/

def Shared.fatalSignal (s : Shared) (t : Nat) : Option Nat :=
  match s.signals.takeUnblocked (s.masks t).blocked with
  | none => none
  | some (signal, signals) =>
    if ((signals.action signal).getD .default).handler = sigDfl ∧ signal ≠ sigchld then some signal else none

def Shared.withSignals (s : Shared) (t : Nat) (signals : SignalState) (masks : SignalMasks) : Shared :=
  { s with signals, masks := Function.update s.masks t masks }

def Phase.checksMark : Phase → Bool
  | .bootstrap | .user | .epilogue _ => true
  | _ => false

def Phase.mayPanic : Phase → Bool
  | .admissionExec | .execFinish | .retired => true
  | _ => false

def Shared.joined (s : Shared) (t : Nat) : Shared :=
  { ({ s with groupLock := none }).setLife s.nextId .ready with
    members := s.members ++ [s.nextId]
    nextId := s.nextId + 1
    maker := Function.update s.maker s.nextId t }

def Shared.withdrawn (s : Shared) (t : Nat) : Shared :=
  { s.setLife t .dropped with
    members := s.members.erase t
    leader := if s.leader = some t then none else s.leader
    recorded := if s.members.erase t = [] then some (s.exitStatus t) else s.recorded }

inductive Move (s : Shared) (t : Nat) : Phase → Input → Shared → Phase → Prop
  | enter : s.life t = .runnable → Move s t .outside input (s.setLife t .running) .bootstrap
  | forced {status : Word} : k.checksMark = true → s.forcedExitStatus t = some status →
      Move s t k input (s.depart t) (.leaving status (s.markedBy t))
  | start : s.forcedExitStatus t = none → Move s t .bootstrap input s .user
  | trap : k' = .dispatch ∨ k' = .user ∨ k' = .faulting → Move s t .user input s k'
  | resolved : Move s t .faulting input s .user
  | unmarked {frame : Frame} : Move s t (.epilogue frame) input s (.deliver frame)
  | fatalFault {active : Bool} : Move s t .faulting (.fatalFault active)
      { s.depart t with fatal := some (-BitVec.ofNat 64 sigsegv) }
      (.leaving (if active then Errno.efault.result else -BitVec.ofNat 64 sigsegv) .fault)
  | exception : Move s t .faulting .exception (s.depart t) (.leaving Errno.efault.result .fault)
  | other {signals : SignalState} {masks : SignalMasks} :
      Move s t .dispatch input (s.withSignals t signals masks) (.epilogue .user)
  | exit {status : Word} : Move s t .dispatch input (s.depart t) (.epilogue (.kernel status .exit))
  | exitGroup {status : Word} :
      Move s t .dispatch (.exitGroup status) { s with called := Function.update s.called t true } (.groupEntry status)
  | refused : Move s t .dispatch input s (.epilogue .user)
  | beginExec : s.groupLock = none → s.execInProgress = false →
      Move s t .dispatch input { s with execInProgress := true, execOwner := some t } .execCount
  | lock : s.groupLock = none → Move s t .dispatch input { s with groupLock := some t } .admission
  | admitted : s.groupExit = .none → Move s t .admission input s .admissionExec
  | unlock : k = .admission ∨ k = .admissionExec → Move s t k input { s with groupLock := none } (.epilogue .user)
  | join : s.execInProgress = false → Move s t .admissionExec input (s.joined t) (.cloning s.nextId)
  | panic : k.mayPanic = true → Move s t k input { s with panicked := true } k
  | insert {child : Nat} : s.schedulerLock = none →
      Move s t (.cloning child) input { s.setLife child .inserted with schedulerLock := some t } (.lateGroup child)
  | late {child : Nat} : s.groupExit = .none → Move s t (.lateGroup child) input s (.lateExec child)
  | lateGroup {child : Nat} {status : Word} : s.groupExit = .active status →
      Move s t (.lateGroup child) input (enqueue (s.requestForcedExit child status .groupMark) child).1 (.epilogue .user)
  | lateExec {child : Nat} : Move s t (.lateExec child) input
      (enqueue (if s.execInProgress then s.requestForcedExit child 0 .execMark else s) child).1 (.epilogue .user)
  | claim {status : Word} : s.groupExit = .none →
      Move s t (.groupEntry status) input { s with groupExit := .publishing t } (.publishing status)
  | follow {status group : Word} : s.groupExit = .active group →
      Move s t (.groupEntry status) input s (.groupScan status group false)
  | publish {status : Word} :
      Move s t (.publishing status) input { s with groupExit := .active status } (.groupScan status status true)
  | groupScan {status group : Word} {first : Bool} : s.schedulerLock = none →
      Move s t (.groupScan status group first) input
        { (s.requestProcessThreadExit t group .groupMark).depart t with groupScanned := true }
        (.epilogue (.kernel status (.groupCall first)))
  | execAlone : s.members.length ≤ 1 → Move s t .execCount input { s with survivor := some t } .execReplace
  | execCount : Move s t .execCount input s .execScan
  | execScan : s.schedulerLock = none →
      Move s t .execScan input { s.requestProcessThreadExit t 0 .execMark with survivor := some t } .execWait
  | execWait : s.members.length ≤ 1 → Move s t .execWait input s .execReplace
  | execReplace : Move s t .execReplace input { s with signals := s.signals.resetActionsForExec } .execFinish
  | execFinish : Move s t .execFinish input { s with execInProgress := false, execOwner := none, survivor := none }
      (.epilogue .user)
  | resume {frame : Frame} {signals : SignalState} {masks : SignalMasks} :
      Move s t (.deliver frame) input (s.withSignals t signals masks) frame.next
  | defaultAction {frame : Frame} {signals : SignalState} {masks : SignalMasks} {signal : Nat} :
      s.fatalSignal t = some signal → Move s t (.deliver frame) input
        { (s.withSignals t signals masks).depart t with fatal := some (-BitVec.ofNat 64 signal) }
        (.leaving (-BitVec.ofNat 64 signal) .signal)
  | uncaught {frame : Frame} {signals : SignalState} {masks : SignalMasks} :
      Move s t (.deliver frame) input ((s.withSignals t signals masks).depart t) (.leaving Errno.efault.result .signal)
  | leave {status : Word} {cause : Cause} : Move s t (.leaving status cause) input
      { s.setLife t .exited with
        exitStatus := Function.update s.exitStatus t status, cause := Function.update s.cause t cause } .retired
  | withdraw : t ∈ s.members → Move s t .retired input (s.withdrawn t) .gone

variable {s s' : Shared} {t u : Nat} {k k' : Phase} {input : Input}

theorem checkForced_move {otherwise : Phase} {next : Shared × Phase} (hk : k.checksMark = true)
    (hnone : s.forcedExitStatus t = none → Move s t k input s otherwise) (h : checkForced s t otherwise = next) :
    Move s t k input next.1 next.2 := by
  subst h
  unfold checkForced
  split
  · rename_i status hforced
    exact .forced hk hforced
  · rename_i hforced
    exact hnone hforced

theorem withSignals_self (s : Shared) (t : Nat) : s.withSignals t s.signals (s.masks t) = s := by
  simp only [Shared.withSignals, Function.update_eq_self]

theorem deliverPendingSignal_move (s : Shared) (t : Nat) (frame : Frame) (stored : Bool) :
    Move s t (.deliver frame) (.install stored) (deliverPendingSignal s t frame stored).1
      (deliverPendingSignal s t frame stored).2 := by
  unfold deliverPendingSignal
  split
  · have hmove : Move s t (.deliver frame) (.install stored) (s.withSignals t s.signals (s.masks t)) frame.next := .resume
    rwa [withSignals_self] at hmove
  · rename_i signal signals htake
    by_cases hdfl : ((signals.action signal).getD .default).handler = sigDfl
    · by_cases hchld : signal = sigchld
      · simp only [if_pos hdfl, if_pos hchld]
        exact .resume
      · simp only [if_pos hdfl, if_neg hchld]
        refine .defaultAction ?_
        simp only [Shared.fatalSignal, htake, hdfl, hchld, ne_eq, not_false_eq_true, and_self, if_true]
    · simp only [if_neg hdfl]
      split_ifs
      · exact .resume
      · exact .resume
      · exact .uncaught

theorem dispatch_move {next : Shared × Phase} (h : dispatch s t input = some next) :
    Move s t .dispatch input next.1 next.2 := by
  cases input <;> simp only [dispatch, Option.some.injEq, reduceCtorEq] at h
  case other signals masks => exact h ▸ .other
  case exit status => exact h ▸ .exit
  case exitGroup status => exact h ▸ .exitGroup
  case exec =>
    by_cases hlock : s.groupLock = none
    · rw [if_pos hlock] at h
      by_cases hexec : s.execInProgress = true
      · rw [if_pos hexec] at h
        exact Option.some.inj h ▸ .refused
      · rw [if_neg hexec] at h
        exact Option.some.inj h ▸ .beginExec hlock (Bool.eq_false_iff.2 hexec)
    · rw [if_neg hlock] at h
      cases h
  case clone =>
    by_cases hlock : s.groupLock = none
    · rw [if_pos hlock] at h
      by_cases hleader : s.leader = none
      · rw [if_pos hleader] at h
        exact Option.some.inj h ▸ .refused
      · rw [if_neg hleader] at h
        exact Option.some.inj h ▸ .lock hlock
    · rw [if_neg hlock] at h
      cases h

theorem join_move {granted : Bool} : Move s t .admissionExec input (join s t granted).1 (join s t granted).2 := by
  unfold join
  by_cases hrefused : (s.execInProgress || !granted) = true
  · simp only [if_pos hrefused]
    exact .unlock (.inr rfl)
  · simp only [if_neg hrefused]
    have hexec : s.execInProgress = false := by
      rw [Bool.not_eq_true, Bool.or_eq_false_iff] at hrefused
      exact hrefused.1
    split_ifs
    · exact .join hexec
    · exact .panic rfl

theorem dropThread_move : Move s t .retired input (dropThread s t).1 (dropThread s t).2 := by
  unfold dropThread
  by_cases hmem : t ∈ s.members
  · rw [if_pos hmem]
    exact .withdraw hmem
  · rw [if_neg hmem]
    exact .panic rfl

theorem threadStep_move (h : threadStep s t k input = some (s', k')) : Move s t k input s' k' := by
  cases k
  case dispatch => exact dispatch_move h
  all_goals
    cases input <;> simp only [threadStep, Option.some.injEq, reduceCtorEq] at h
  case outside.advance =>
    split_ifs at h with hlife
    cases h
    exact .enter hlife
  case bootstrap.advance => exact checkForced_move rfl .start h
  case user.syscall => exact checkForced_move rfl (fun _ => .trap (.inl rfl)) h
  case user.interrupt => exact checkForced_move rfl (fun _ => .trap (.inr (.inl rfl))) h
  case user.fault => exact checkForced_move rfl (fun _ => .trap (.inr (.inr rfl))) h
  case faulting.resolved => cases h; exact .resolved
  case faulting.fatalFault active => cases h; exact .fatalFault
  case faulting.exception => cases h; exact .exception
  case admission.advance =>
    split at h
    · rename_i hexit
      cases h
      exact .admitted hexit
    · cases h
    · cases h
      exact .unlock (.inl rfl)
  case admissionExec.reserve granted =>
    have hmove : Move s t .admissionExec (.reserve granted) (join s t granted).1 (join s t granted).2 := join_move
    rwa [h] at hmove
  case cloning.advance child =>
    split_ifs at h with hlock
    cases h
    exact .insert hlock
  case lateGroup.advance child =>
    split at h
    · rename_i hexit
      cases h
      exact .late hexit
    · cases h
    · rename_i status hexit
      cases h
      exact .lateGroup hexit
  case lateExec.advance child =>
    cases h
    exact .lateExec
  case groupEntry.advance status =>
    split at h
    · rename_i hexit
      cases h
      exact .claim hexit
    · cases h
    · rename_i group hexit
      cases h
      exact .follow hexit
  case publishing.advance status => cases h; exact .publish
  case groupScan.advance status group first =>
    split_ifs at h with hlock
    cases h
    exact .groupScan hlock
  case execCount.advance =>
    by_cases hlock : s.groupLock = none
    · rw [if_pos hlock] at h
      by_cases hlen : 1 < s.members.length
      · rw [if_pos hlen] at h
        cases h
        exact .execCount
      · rw [if_neg hlen] at h
        cases h
        exact .execAlone (Nat.le_of_not_lt hlen)
    · rw [if_neg hlock] at h
      cases h
  case execScan.advance =>
    split_ifs at h with hlock
    cases h
    exact .execScan hlock
  case execWait.advance =>
    split_ifs at h with hwait
    cases h
    exact .execWait hwait.2
  case execReplace.advance => cases h; exact .execReplace
  case execFinish.advance =>
    split_ifs at h
    · cases h
      exact .execFinish
    · cases h
      exact .panic rfl
  case epilogue.advance frame => exact checkForced_move rfl (fun _ => .unmarked) h
  case deliver.install frame stored =>
    have hmove := deliverPendingSignal_move s t frame stored
    rwa [h] at hmove
  case leaving.advance status cause => cases h; exact .leave
  case retired.advance =>
    split_ifs at h
    have hmove : Move s t .retired .advance (dropThread s t).1 (dropThread s t).2 := dropThread_move
    rwa [Option.some.inj h] at hmove

/-! ### Membership and locks -/

def Phase.Fits : Phase → Life → Prop
  | .outside, life => life = .unborn ∨ life = .ready ∨ life = .inserted ∨ life = .runnable
  | .retired, life => life = .exited
  | .gone, life => life = .dropped
  | _, life => life = .running

/-- The frame of a thread in this phase leads back to the kernel. -/
def Phase.departed : Phase → Bool
  | .epilogue (.kernel _ _) | .deliver (.kernel _ _) | .leaving _ _ | .retired | .gone => true
  | _ => false

def Shared.InExec (s : Shared) (t : Nat) : Prop := s.execInProgress = true ∧ s.execOwner = some t

def Holds (t : Nat) (s : Shared) : Phase → Prop
  | .admission | .admissionExec => s.groupLock = some t
  | .cloning child => s.life child = .ready ∧ s.maker child = t
  | .lateGroup child | .lateExec child => s.schedulerLock = some t ∧ s.life child = .inserted ∧ s.maker child = t
  | .publishing _ => s.groupExit = .publishing t
  | .groupScan status group first => s.groupExit = .active group ∧ (first = true → status = group)
  | .execCount | .execScan => s.InExec t ∧ s.survivor = none
  | .execWait => s.InExec t ∧ s.survivor = some t
  | .execReplace | .execFinish => s.InExec t ∧ s.survivor = some t ∧ s.members = [t]
  | _ => True

structure Placed (t : Nat) (s : Shared) (k : Phase) : Prop where
  fits : k.Fits (s.life t)
  departing : s.departing t = k.departed
  holds : Holds t s k

def Life.joined : Life → Bool
  | .unborn | .dropped => false
  | _ => true

structure Sorted (s : Shared) : Prop where
  nodup : s.members.Nodup
  mem_iff : ∀ {t}, t ∈ s.members ↔ (s.life t).joined = true
  unborn : ∀ {t}, s.nextId ≤ t → s.life t = .unborn
  survivor : ∀ {t}, s.survivor = some t → s.InExec t

structure Respects (t : Nat) (s s' : Shared) : Prop where
  life : ∀ {u}, u ≠ t → s'.life u = s.life u ∨ (s.life u = .unborn ∧ s'.life u = .ready) ∨
    s.maker u = t ∧ (s.life u = .ready ∧ s'.life u = .inserted ∨ s.life u = .inserted ∧ s'.life u = .runnable)
  maker : ∀ {u}, s.life u ≠ .unborn → s'.maker u = s.maker u
  departing : ∀ {u}, u ≠ t → s'.departing u = s.departing u
  groupLock : ∀ {u}, u ≠ t → s.groupLock = some u → s'.groupLock = some u
  schedulerLock : ∀ {u}, u ≠ t → s.schedulerLock = some u → s'.schedulerLock = some u
  publishing : ∀ {u}, u ≠ t → s.groupExit = .publishing u → s'.groupExit = .publishing u
  active : ∀ {status}, s.groupExit = .active status → s'.groupExit = .active status
  exec : ∀ {u}, u ≠ t → s.InExec u → s'.InExec u ∧ s'.survivor = s.survivor

def Life.acting : Life → Bool
  | .runnable | .running | .exited => true
  | _ => false

theorem Move.acting (h : Placed t s k) (hmove : Move s t k input s' k') : (s.life t).acting = true := by
  have hfits := h.fits
  cases hmove with
  | enter hlife => rw [hlife]; rfl
  | forced hk _ =>
    cases k <;> cases hk <;> (rw [show s.life t = .running from hfits]; rfl)
  | unlock hk => rcases hk with rfl | rfl <;> (rw [show s.life t = .running from hfits]; rfl)
  | panic hk => cases k <;> cases hk <;> (rw [show s.life t = _ from hfits]; rfl)
  | withdraw => rw [show s.life t = _ from hfits]; rfl
  | _ => rw [show s.life t = .running from hfits]; rfl

theorem Life.joined_of_acting {life : Life} (h : life.acting = true) : life.joined = true := by
  cases life <;> first | rfl | cases h

/-- What thread `u` has in hand survives a step of another thread. -/
theorem Placed.other (h : Placed u s k) (hne : u ≠ t) (hsorted : Sorted s) (hacting : (s.life t).acting = true)
    (hrespects : Respects t s s') : Placed u s' k := by
  have hlife : ∀ {life : Life}, life ≠ .unborn → life ≠ .ready → life ≠ .inserted → s.life u = life → s'.life u = life := by
    intro life hunborn hready hinserted hu
    rcases hrespects.life hne with hsame | ⟨hold, -⟩ | ⟨-, ⟨hold, -⟩ | ⟨hold, -⟩⟩
    · exact hsame.trans hu
    · exact absurd (hu.symm.trans hold) hunborn
    · exact absurd (hu.symm.trans hold) hready
    · exact absurd (hu.symm.trans hold) hinserted
  -- the child of a clone belongs to the thread that made it
  have hchild : ∀ {child : Nat} {life : Life}, life ≠ .unborn → life.acting = false → s.maker child = u →
      s.life child = life → s'.life child = life ∧ s'.maker child = u := by
    intro child life hunborn hresting hmaker hlife'
    refine ⟨?_, (hrespects.maker (hlife' ▸ hunborn)).trans hmaker⟩
    have hct : child ≠ t := by
      rintro rfl
      exact Bool.noConfusion (hresting.symm.trans (hlife' ▸ hacting))
    rcases hrespects.life hct with hsame | ⟨hold, -⟩ | ⟨hmade, -⟩
    · exact hsame.trans hlife'
    · exact absurd (hlife'.symm.trans hold) hunborn
    · exact absurd (hmaker.symm.trans hmade) hne
  -- nobody else is left when an exec replaces the image
  have halone : s.members ≠ [u] := by
    intro hmembers
    have hmem : t ∈ s.members := hsorted.mem_iff.2 (Life.joined_of_acting hacting)
    rw [hmembers] at hmem
    exact hne (List.mem_singleton.1 hmem).symm
  obtain ⟨hfits, hdeparting, hholds⟩ := h
  refine ⟨?_, (hrespects.departing hne).trans hdeparting, ?_⟩
  · cases k
    case outside =>
      rcases hrespects.life hne with hsame | ⟨-, hnew⟩ | ⟨-, ⟨-, hnew⟩ | ⟨-, hnew⟩⟩
      · rw [hsame]
        exact hfits
      · exact .inr (.inl hnew)
      · exact .inr (.inr (.inl hnew))
      · exact .inr (.inr (.inr hnew))
    all_goals exact hlife nofun nofun nofun hfits
  · cases k
    case admission | admissionExec => exact hrespects.groupLock hne hholds
    case cloning child => exact hchild nofun rfl hholds.2 hholds.1
    case lateGroup child | lateExec child =>
      obtain ⟨hlock, hchild', hmaker⟩ := hholds
      exact ⟨hrespects.schedulerLock hne hlock, hchild nofun rfl hmaker hchild'⟩
    case publishing status => exact hrespects.publishing hne hholds
    case groupScan status group first => exact ⟨hrespects.active hholds.1, hholds.2⟩
    case execCount | execScan | execWait =>
      obtain ⟨hexec, hsurvivor⟩ := hholds
      obtain ⟨hexec', hsame⟩ := hrespects.exec hne hexec
      exact ⟨hexec', hsame.trans hsurvivor⟩
    case execReplace | execFinish => exact absurd hholds.2.2 halone
    all_goals trivial

/-! ### What a step keeps -/

structure Kept (t : Nat) (s : Shared) (next : Shared × Phase) : Prop where
  sorted : Sorted next.1
  placed : Placed t next.1 next.2
  respects : Respects t s next.1

structure Calm (t : Nat) (s s' : Shared) : Prop where
  members : s'.members = s.members
  nextId : s'.nextId = s.nextId
  life : s'.life = s.life
  maker : s'.maker = s.maker
  groupLock : s'.groupLock = s.groupLock
  schedulerLock : s'.schedulerLock = s.schedulerLock
  groupExit : s'.groupExit = s.groupExit
  execInProgress : s'.execInProgress = s.execInProgress
  execOwner : s'.execOwner = s.execOwner
  survivor : s'.survivor = s.survivor
  departing : ∀ {u}, u ≠ t → s'.departing u = s.departing u

theorem Calm.refl (t : Nat) (s : Shared) : Calm t s s := ⟨rfl, rfl, rfl, rfl, rfl, rfl, rfl, rfl, rfl, rfl, fun _ => rfl⟩

theorem Calm.depart (t : Nat) (s : Shared) : Calm t s (s.depart t) :=
  ⟨rfl, rfl, rfl, rfl, rfl, rfl, rfl, rfl, rfl, rfl, fun hne => Function.update_of_ne hne _ _⟩

theorem Calm.withSignals {signals : SignalState} {masks : SignalMasks} : Calm t s (s.withSignals t signals masks) :=
  ⟨rfl, rfl, rfl, rfl, rfl, rfl, rfl, rfl, rfl, rfl, fun _ => rfl⟩

theorem Calm.trans {s'' : Shared} (h : Calm t s s') (h' : Calm t s' s'') : Calm t s s'' :=
  ⟨h'.members.trans h.members, h'.nextId.trans h.nextId, h'.life.trans h.life, h'.maker.trans h.maker,
    h'.groupLock.trans h.groupLock, h'.schedulerLock.trans h.schedulerLock, h'.groupExit.trans h.groupExit,
    h'.execInProgress.trans h.execInProgress, h'.execOwner.trans h.execOwner, h'.survivor.trans h.survivor,
    fun hne => (h'.departing hne).trans (h.departing hne)⟩

theorem Calm.inExec (h : Calm t s s') : s'.InExec u ↔ s.InExec u := by
  rw [Shared.InExec, h.execInProgress, h.execOwner, Shared.InExec]

theorem Calm.respects (h : Calm t s s') : Respects t s s' where
  life _ := .inl (congrFun h.life _)
  maker _ := congrFun h.maker _
  departing hne := h.departing hne
  groupLock _ hu := h.groupLock.trans hu
  schedulerLock _ hu := h.schedulerLock.trans hu
  publishing _ hu := h.groupExit.trans hu
  active hu := h.groupExit.trans hu
  exec _ hu := ⟨h.inExec.2 hu, h.survivor⟩

theorem Calm.sorted (h : Calm t s s') (hsorted : Sorted s) : Sorted s' where
  nodup := h.members ▸ hsorted.nodup
  mem_iff := by
    intro u
    rw [h.members, h.life]
    exact hsorted.mem_iff
  unborn := by
    intro u hu
    rw [h.life]
    exact hsorted.unborn (h.nextId ▸ hu)
  survivor := by
    intro u hu
    exact h.inExec.2 (hsorted.survivor (h.survivor ▸ hu))

theorem Calm.kept (h : Calm t s s') (hsorted : Sorted s) (hp : Placed t s' k') : Kept t s (s', k') :=
  ⟨h.sorted hsorted, hp, h.respects⟩

/-- A thread whose life is set, without joining or being dropped. -/
theorem Sorted.setLife {life : Life} (h : Sorted s) (hjoined : life.joined = true) (hu : (s.life u).joined = true) :
    Sorted (s.setLife u life) where
  nodup := h.nodup
  mem_iff := by
    intro v
    show v ∈ s.members ↔ (Function.update s.life u life v).joined = true
    obtain rfl | hne := eq_or_ne v u
    · rw [Function.update_self, h.mem_iff, hu, hjoined]
    · rw [Function.update_of_ne hne]
      exact h.mem_iff
  unborn := by
    intro v hv
    obtain rfl | hne := eq_or_ne v u
    · rw [h.unborn hv] at hu
      cases hu
    · exact (Function.update_of_ne hne _ _).trans (h.unborn hv)
  survivor := h.survivor

theorem Respects.setLife (t : Nat) (s : Shared) (life : Life) : Respects t s (s.setLife t life) where
  life hne := .inl (Function.update_of_ne hne _ _)
  maker _ := rfl
  departing _ := rfl
  groupLock _ := id
  schedulerLock _ := id
  publishing _ := id
  active := id
  exec _ hu := ⟨hu, rfl⟩

theorem Shared.InExec.unique (ht : s.InExec t) (hu : s.InExec u) : u = t :=
  Option.some.inj (hu.2.symm.trans ht.2)

theorem Sorted.eq_singleton (h : Sorted s) (hlife : s.life t = .running) (hlen : s.members.length ≤ 1) :
    s.members = [t] := by
  have hmem : t ∈ s.members := h.mem_iff.2 (hlife ▸ rfl)
  obtain ⟨u, hu⟩ := List.length_eq_one_iff.1 (Nat.le_antisymm hlen (List.length_pos_of_mem hmem))
  rw [hu] at hmem ⊢
  rw [List.mem_singleton.1 hmem]

theorem requestForcedExit_eq (s : Shared) (child : Nat) (status : Word) (source : Cause) :
    ∃ forced markedBy, s.requestForcedExit child status source = { s with forced, markedBy } := by
  unfold Shared.requestForcedExit
  split_ifs
  · exact ⟨_, _, rfl⟩
  · exact ⟨s.forced, s.markedBy, rfl⟩

theorem lateExec_eq (s : Shared) (child : Nat) : ∃ forced markedBy,
    (if s.execInProgress then s.requestForcedExit child 0 .execMark else s) = { s with forced, markedBy } := by
  split_ifs
  · exact requestForcedExit_eq s child 0 .execMark
  · exact ⟨s.forced, s.markedBy, rfl⟩

theorem Calm.requestForcedExit {child : Nat} {status : Word} {source : Cause} :
    Calm t s (s.requestForcedExit child status source) := by
  obtain ⟨forced, markedBy, heq⟩ := requestForcedExit_eq s child status source
  rw [heq]
  exact ⟨rfl, rfl, rfl, rfl, rfl, rfl, rfl, rfl, rfl, rfl, fun _ => rfl⟩

theorem Calm.lateExec {child : Nat} : Calm t s (if s.execInProgress then s.requestForcedExit child 0 .execMark else s) := by
  obtain ⟨forced, markedBy, heq⟩ := lateExec_eq s child
  rw [heq]
  exact ⟨rfl, rfl, rfl, rfl, rfl, rfl, rfl, rfl, rfl, rfl, fun _ => rfl⟩

/-- Only the thread that holds the lock of the group gives it back. -/
theorem Respects.unlock (hlock : s.groupLock = some t) : Respects t s { s with groupLock := none } where
  life _ := .inl rfl
  maker _ := rfl
  departing _ := rfl
  groupLock hne hu := absurd (Option.some.inj (hu.symm.trans hlock)) hne
  schedulerLock _ := id
  publishing _ := id
  active := id
  exec _ hu := ⟨hu, rfl⟩

theorem Sorted.join (h : Sorted s) (hp : Placed t s .admissionExec) : Kept t s (s.joined t, .cloning s.nextId) := by
  have hfresh : s.life s.nextId = .unborn := h.unborn (Nat.le_refl _)
  have hne : t ≠ s.nextId := by
    intro heq
    have hlife : s.life t = .running := hp.fits
    rw [heq, hfresh] at hlife
    cases hlife
  have hlife : ∀ {u}, u ≠ s.nextId → (s.joined t).life u = s.life u := fun hu => Function.update_of_ne hu _ _
  refine ⟨⟨?_, ?_, ?_, h.survivor⟩, ⟨?_, hp.departing, Function.update_self _ _ _, Function.update_self _ _ _⟩, ?_⟩
  · refine List.nodup_append.2 ⟨h.nodup, List.nodup_singleton _, ?_⟩
    rintro u hu v hv rfl
    rw [List.mem_singleton.1 hv, h.mem_iff, hfresh] at hu
    cases hu
  · intro u
    show u ∈ s.members ++ [s.nextId] ↔ _
    obtain rfl | hu := eq_or_ne u s.nextId
    · simp [show (s.joined t).life s.nextId = .ready from Function.update_self _ _ _, Life.joined]
    · simp [hu, hlife hu, h.mem_iff]
  · intro u hu
    have hlt : s.nextId < u := hu
    rw [hlife (Nat.ne_of_gt hlt)]
    exact h.unborn (Nat.le_of_lt hlt)
  · rw [hlife hne]
    exact hp.fits
  · refine ⟨?_, ?_, fun _ => rfl, (Respects.unlock hp.holds).groupLock, fun _ => id, fun _ => id, id, fun _ hu => ⟨hu, rfl⟩⟩
    · intro u hu
      obtain rfl | hun := eq_or_ne u s.nextId
      · exact .inr (.inl ⟨hfresh, Function.update_self _ _ _⟩)
      · exact .inl (hlife hun)
    · intro u hu
      refine Function.update_of_ne ?_ _ _
      rintro rfl
      exact hu hfresh

theorem Sorted.insert {child : Nat} (h : Sorted s) (hp : Placed t s (.cloning child)) (hlock : s.schedulerLock = none) :
    Kept t s ({ s.setLife child .inserted with schedulerLock := some t }, .lateGroup child) := by
  obtain ⟨hready, hmaker⟩ := hp.holds
  have hne : t ≠ child := by
    rintro rfl
    cases hready.symm.trans hp.fits
  have hsorted : Sorted (s.setLife child .inserted) := h.setLife rfl (by rw [hready]; rfl)
  refine ⟨⟨hsorted.nodup, hsorted.mem_iff, hsorted.unborn, hsorted.survivor⟩,
    ⟨(Function.update_of_ne hne _ _).trans hp.fits, hp.departing, rfl, Function.update_self _ _ _, hmaker⟩, ?_⟩
  refine ⟨?_, fun _ => rfl, fun _ => rfl, fun _ => id, ?_, fun _ => id, id, fun _ hu => ⟨hu, rfl⟩⟩
  · intro u hu
    obtain rfl | huc := eq_or_ne u child
    · exact .inr (.inr ⟨hmaker, .inl ⟨hready, Function.update_self _ _ _⟩⟩)
    · exact .inl (Function.update_of_ne huc _ _)
  · intro u _ hu
    rw [hlock] at hu
    cases hu

theorem Calm.enqueue {child : Nat} (hcalm : Calm t s s') (h : Sorted s) (hlife : s.life t = .running)
    (hdeparting : s'.departing t = false) (hholds : Holds t s (.lateExec child)) :
    Kept t s ((enqueue s' child).1, .epilogue .user) := by
  obtain ⟨hlock, hinserted, hmaker⟩ := hholds
  have hne : t ≠ child := by
    rintro rfl
    cases hinserted.symm.trans hlife
  have hinserted' : s'.life child = .inserted := (congrFun hcalm.life child).trans hinserted
  have hsorted : Sorted (s'.setLife child .runnable) := (hcalm.sorted h).setLife rfl (by rw [hinserted']; rfl)
  have hrespects := hcalm.respects
  refine ⟨⟨hsorted.nodup, hsorted.mem_iff, hsorted.unborn, hsorted.survivor⟩, ⟨?_, hdeparting, trivial⟩, ?_⟩
  · exact (Function.update_of_ne hne _ _).trans ((congrFun hcalm.life t).trans hlife)
  · refine ⟨?_, hrespects.maker, hrespects.departing, hrespects.groupLock, ?_, hrespects.publishing, hrespects.active,
      hrespects.exec⟩
    · intro u hu
      obtain rfl | huc := eq_or_ne u child
      · exact .inr (.inr ⟨hmaker, .inr ⟨hinserted, Function.update_self _ _ _⟩⟩)
      · exact .inl ((Function.update_of_ne huc _ _).trans (congrFun hcalm.life u))
    · intro u hu hu'
      exact absurd (Option.some.inj (hu'.symm.trans hlock)) hu

theorem Sorted.withdraw (h : Sorted s) (hp : Placed t s .retired) : Kept t s (s.withdrawn t, .gone) := by
  have hrespects := Respects.setLife t s .dropped
  refine ⟨⟨h.nodup.erase t, ?_, ?_, h.survivor⟩, ⟨Function.update_self _ _ _, hp.departing, trivial⟩,
    hrespects.life, hrespects.maker, hrespects.departing, hrespects.groupLock, hrespects.schedulerLock,
    hrespects.publishing,
    hrespects.active, hrespects.exec⟩
  · intro u
    show u ∈ s.members.erase t ↔ (Function.update s.life t .dropped u).joined = true
    rw [h.nodup.mem_erase_iff]
    obtain rfl | hu := eq_or_ne u t
    · simp [Life.joined]
    · simp [hu, h.mem_iff]
  · intro u hu
    refine (Function.update_of_ne ?_ _ _).trans (h.unborn hu)
    rintro rfl
    have hexited : s.life u = .exited := hp.fits
    rw [h.unborn hu] at hexited
    cases hexited

theorem Sorted.move (h : Sorted s) (hp : Placed t s k) (hmove : Move s t k input s' k') : Kept t s (s', k') := by
  have hfits := hp.fits
  have hdeparting := hp.departing
  have hholds := hp.holds
  have hdeparted : ∀ (s : Shared), (s.depart t).departing t = true := fun s => Function.update_self _ _ _
  cases hmove with
  | enter hlife =>
    have hjoined : (s.life t).joined = true := by
      rw [hlife]
      rfl
    exact ⟨h.setLife rfl hjoined, ⟨Function.update_self _ _ _, hdeparting, trivial⟩, .setLife t s _⟩
  | forced hk hforced =>
    refine (Calm.depart t s).kept h ⟨?_, hdeparted s, trivial⟩
    cases k <;> cases hk <;> exact hfits
  | start | resolved | refused => exact (Calm.refl t s).kept h ⟨hfits, hdeparting, trivial⟩
  | trap hk' =>
    rcases hk' with rfl | rfl | rfl <;> exact (Calm.refl t s).kept h ⟨hfits, hdeparting, trivial⟩
  | @unmarked _ frame =>
    cases frame <;> exact (Calm.refl t s).kept h ⟨hfits, hdeparting, trivial⟩
  | fatalFault =>
    have hcalm : Calm t s { s.depart t with fatal := some (-BitVec.ofNat 64 sigsegv) } :=
      (Calm.depart t s).trans ⟨rfl, rfl, rfl, rfl, rfl, rfl, rfl, rfl, rfl, rfl, fun _ => rfl⟩
    exact hcalm.kept h ⟨hfits, hdeparted s, trivial⟩
  | exception | exit => exact (Calm.depart t s).kept h ⟨hfits, hdeparted s, trivial⟩
  | other => exact Calm.withSignals.kept h ⟨hfits, hdeparting, trivial⟩
  | exitGroup =>
    have hcalm : Calm t s { s with called := Function.update s.called t true } :=
      ⟨rfl, rfl, rfl, rfl, rfl, rfl, rfl, rfl, rfl, rfl, fun _ => rfl⟩
    exact hcalm.kept h ⟨hfits, hdeparting, trivial⟩
  | beginExec hlock hexec =>
    have hidle : ∀ {u}, ¬ s.InExec u := fun hu => Bool.noConfusion (hexec.symm.trans hu.1)
    have hnone : s.survivor = none := Option.eq_none_iff_forall_ne_some.2 fun u hu => hidle (h.survivor hu)
    refine ⟨⟨h.nodup, h.mem_iff, h.unborn, ?_⟩, ⟨hfits, hdeparting, ⟨rfl, rfl⟩, hnone⟩, fun _ => .inl rfl, fun _ => rfl,
      fun _ => rfl, fun _ => id, fun _ => id, fun _ => id, id, fun _ hu => absurd hu hidle⟩
    intro u hu
    cases hnone.symm.trans hu
  | lock hlock =>
    refine ⟨⟨h.nodup, h.mem_iff, h.unborn, h.survivor⟩, ⟨hfits, hdeparting, rfl⟩, fun _ => .inl rfl, fun _ => rfl,
      fun _ => rfl, ?_, fun _ => id, fun _ => id, id, fun _ hu => ⟨hu, rfl⟩⟩
    intro u _ hu
    cases hlock.symm.trans hu
  | admitted | late | execCount => exact (Calm.refl t s).kept h ⟨hfits, hdeparting, hholds⟩
  | unlock hk =>
    rcases hk with rfl | rfl <;>
      exact ⟨⟨h.nodup, h.mem_iff, h.unborn, h.survivor⟩, ⟨hfits, hdeparting, trivial⟩, .unlock hholds⟩
  | join => exact h.join hp
  | panic hk =>
    have hcalm : Calm t s { s with panicked := true } := ⟨rfl, rfl, rfl, rfl, rfl, rfl, rfl, rfl, rfl, rfl, fun _ => rfl⟩
    cases k <;> cases hk <;> exact hcalm.kept h ⟨hfits, hdeparting, hholds⟩
  | insert hlock => exact h.insert hp hlock
  | @lateGroup _ child status =>
    have hcalm : Calm t s (s.requestForcedExit child status .groupMark) := .requestForcedExit
    refine hcalm.enqueue h hfits ?_ hholds
    obtain ⟨forced, markedBy, heq⟩ := requestForcedExit_eq s child status .groupMark
    rw [heq]
    exact hdeparting
  | @lateExec _ child =>
    refine Calm.lateExec.enqueue h hfits ?_ hholds
    obtain ⟨forced, markedBy, heq⟩ := lateExec_eq s child
    rw [heq]
    exact hdeparting
  | claim hexit =>
    refine ⟨⟨h.nodup, h.mem_iff, h.unborn, h.survivor⟩, ⟨hfits, hdeparting, rfl⟩, fun _ => .inl rfl, fun _ => rfl,
      fun _ => rfl, fun _ => id, fun _ => id, ?_, ?_, fun _ hu => ⟨hu, rfl⟩⟩
    · intro u _ hu
      cases hexit.symm.trans hu
    · intro status hu
      cases hexit.symm.trans hu
  | follow hexit => exact (Calm.refl t s).kept h ⟨hfits, hdeparting, hexit, nofun⟩
  | publish =>
    have hexit : s.groupExit = .publishing t := hholds
    refine ⟨⟨h.nodup, h.mem_iff, h.unborn, h.survivor⟩, ⟨hfits, hdeparting, rfl, fun _ => rfl⟩, fun _ => .inl rfl,
      fun _ => rfl,
      fun _ => rfl, fun _ => id, fun _ => id, ?_, ?_, fun _ hu => ⟨hu, rfl⟩⟩
    · intro u hne hu
      exact absurd (GroupExit.publishing.inj (hu.symm.trans hexit)) hne
    · intro group hu
      cases hexit.symm.trans hu
  | @groupScan _ status group first hlock =>
    have hcalm : Calm t s { (s.requestProcessThreadExit t group .groupMark).depart t with groupScanned := true } :=
      ⟨rfl, rfl, rfl, rfl, rfl, rfl, rfl, rfl, rfl, rfl, fun hne => Function.update_of_ne hne _ _⟩
    exact hcalm.kept h ⟨hfits, hdeparted _, trivial⟩
  | execAlone hlen =>
    refine ⟨⟨h.nodup, h.mem_iff, h.unborn, ?_⟩, ⟨hfits, hdeparting, hholds.1, rfl, h.eq_singleton hfits hlen⟩,
      fun _ => .inl rfl,
      fun _ => rfl, fun _ => rfl, fun _ => id, fun _ => id, fun _ => id, id, ?_⟩
    · rintro u hu
      cases hu
      exact hholds.1
    · intro u hne hu
      exact absurd (hholds.1.unique hu) hne
  | execScan hlock =>
    refine ⟨⟨h.nodup, h.mem_iff, h.unborn, ?_⟩, ⟨hfits, hdeparting, hholds.1, rfl⟩, fun _ => .inl rfl,
      fun _ => rfl, fun _ => rfl, fun _ => id, fun _ => id, fun _ => id, id, ?_⟩
    · rintro u hu
      cases hu
      exact hholds.1
    · intro u hne hu
      exact absurd (hholds.1.unique hu) hne
  | execWait hlen =>
    exact (Calm.refl t s).kept h ⟨hfits, hdeparting, hholds.1, hholds.2, h.eq_singleton hfits hlen⟩
  | execReplace =>
    have hcalm : Calm t s { s with signals := s.signals.resetActionsForExec } :=
      ⟨rfl, rfl, rfl, rfl, rfl, rfl, rfl, rfl, rfl, rfl, fun _ => rfl⟩
    exact hcalm.kept h ⟨hfits, hdeparting, hholds⟩
  | execFinish =>
    refine ⟨⟨h.nodup, h.mem_iff, h.unborn, nofun⟩, ⟨hfits, hdeparting, trivial⟩, fun _ => .inl rfl,
      fun _ => rfl, fun _ => rfl, fun _ => id, fun _ => id, fun _ => id, id, ?_⟩
    intro u hne hu
    exact absurd (hholds.1.unique hu) hne
  | @resume _ frame signals masks =>
    cases frame <;> exact Calm.withSignals.kept h ⟨hfits, hdeparting, trivial⟩
  | @defaultAction _ frame signals masks signal hsignal =>
    have hcalm : Calm t s { (s.withSignals t signals masks).depart t with fatal := some (-BitVec.ofNat 64 signal) } :=
      ⟨rfl, rfl, rfl, rfl, rfl, rfl, rfl, rfl, rfl, rfl, fun hne => Function.update_of_ne hne _ _⟩
    exact hcalm.kept h ⟨hfits, hdeparted _, trivial⟩
  | uncaught => exact (Calm.withSignals.trans (Calm.depart t _)).kept h ⟨hfits, hdeparted _, trivial⟩
  | leave =>
    have hrunning : s.life t = .running := hfits
    have hsorted : Sorted (s.setLife t .exited) := h.setLife rfl (by rw [hrunning]; rfl)
    have hrespects := Respects.setLife t s .exited
    exact ⟨⟨hsorted.nodup, hsorted.mem_iff, hsorted.unborn, hsorted.survivor⟩,
      ⟨Function.update_self _ _ _, hdeparting, trivial⟩,
      hrespects.life, hrespects.maker, hrespects.departing, hrespects.groupLock, hrespects.schedulerLock,
      hrespects.publishing,
      hrespects.active, hrespects.exec⟩
  | withdraw => exact h.withdraw hp

/-! ### All interleavings -/

theorem step_cases {agent : Agent} (h : step s agent k input = some (s', k')) :
    (∃ t, agent = .thread t ∧ Move s t k input s' k') ∨
      (agent = .world ∧ k' = k ∧ ∃ signals, s' = { s with signals }) := by
  unfold step at h
  by_cases hpanicked : s.panicked = true
  · rw [if_pos hpanicked] at h
    cases h
  · rw [if_neg hpanicked] at h
    cases agent with
    | thread t => exact .inl ⟨t, rfl, threadStep_move h⟩
    | world =>
      cases input <;> simp only [worldStep, reduceCtorEq] at h
      split at h
      · cases h
        exact .inr ⟨rfl, rfl, _, rfl⟩
      · cases h

def Located : Agent → Shared → Phase → Prop
  | .thread t, s, k => Placed t s k
  | .world, _, _ => True

theorem Sorted.fresh (h : Fresh s) : Sorted s := by
  obtain ⟨t, signals, masks, rfl⟩ := h
  refine ⟨List.nodup_singleton t, ?_, ?_, nofun⟩
  · intro u
    show u ∈ [t] ↔ (Function.update (fun _ => Life.unborn) t .runnable u).joined = true
    obtain rfl | hne := eq_or_ne u t
    · simp [Life.joined]
    · simp [hne, Life.joined]
  · intro u hu
    have hne : u ≠ t := Nat.ne_of_gt hu
    show Function.update (fun _ => Life.unborn) t .runnable u = .unborn
    exact Function.update_of_ne hne _ _

theorem Placed.fresh (h : Fresh s) (t : Nat) : Placed t s .outside := by
  obtain ⟨t₀, signals, masks, rfl⟩ := h
  refine ⟨?_, rfl, trivial⟩
  show Phase.Fits .outside (Function.update (fun _ => Life.unborn) t₀ .runnable t)
  obtain rfl | hne := eq_or_ne t t₀
  · rw [Function.update_self]
    exact .inr (.inr (.inr rfl))
  · rw [Function.update_of_ne hne]
    exact .inl rfl

theorem Placed.signals {signals : SignalState} (h : Placed t s k) : Placed t { s with signals } k := by
  refine ⟨h.fits, h.departing, ?_⟩
  have hholds := h.holds
  cases k <;> exact hholds

theorem Located.other {agent : Agent} {l : Phase} (h : Located agent s l) (hne : agent ≠ .thread t) (hsorted : Sorted s)
    (hp : Placed t s k) (hmove : Move s t k input s' k') : Located agent s' l := by
  cases agent with
  | thread u => exact Placed.other h (fun heq => hne (heq ▸ rfl)) hsorted (hmove.acting hp) (hsorted.move hp hmove).respects
  | world => trivial

theorem stable (allowed : Shared → Agent → Phase → Input → Prop) : (threads allowed).Stable Sorted Located where
  init := Sorted.fresh
  start := by
    rintro s agent k hinit rfl
    cases agent with
    | thread t => exact Placed.fresh hinit t
    | world => trivial
  shared := by
    rintro agent s k s' k' hsorted hlocated ⟨input, -, hact⟩
    rcases step_cases hact with ⟨t, rfl, hmove⟩ | ⟨rfl, -, signals, rfl⟩
    · exact (hsorted.move hlocated hmove).sorted
    · exact ⟨hsorted.nodup, hsorted.mem_iff, hsorted.unborn, hsorted.survivor⟩
  own := by
    rintro agent s k s' k' hsorted hlocated ⟨input, -, hact⟩
    rcases step_cases hact with ⟨t, rfl, hmove⟩ | ⟨rfl, -, signals, rfl⟩
    · exact (hsorted.move hlocated hmove).placed
    · trivial
  other := by
    rintro agent other s k s' k' l hne hsorted hlocated hother ⟨input, -, hact⟩
    rcases step_cases hact with ⟨t, rfl, hmove⟩ | ⟨rfl, -, signals, rfl⟩
    · exact hother.other hne hsorted hlocated hmove
    · cases other with
      | thread u => exact Placed.signals hother
      | world => trivial

/-- A second invariant that does not read the signals. -/
theorem stable_extend {allowed : Shared → Agent → Phase → Input → Prop} {J : Shared → Prop}
    {M : Agent → Shared → Phase → Prop}
    (init : ∀ {s}, Fresh s → J s) (start : ∀ {s t}, Fresh s → M (.thread t) s .outside) (world : ∀ {s k}, M .world s k)
    (move : ∀ {t input s k s' k'}, Sorted s → Placed t s k → J s → M (.thread t) s k → allowed s (.thread t) k input →
      Move s t k input s' k' → J s' ∧ M (.thread t) s' k')
    (other : ∀ {t u input s k s' k' l}, u ≠ t → Sorted s → Placed t s k → Placed u s l → M (.thread u) s l →
      allowed s (.thread t) k input → Move s t k input s' k' → M (.thread u) s' l)
    (signals : ∀ {s signals}, J s → J { s with signals })
    (thread : ∀ {u s l signals}, M (.thread u) s l → M (.thread u) { s with signals } l) :
    (threads allowed).Stable (fun s => Sorted s ∧ J s) fun agent s k => Located agent s k ∧ M agent s k := by
  refine (stable allowed).extend init ?_ ?_ ?_ ?_
  · rintro s agent k hinit rfl
    cases agent with
    | thread t => exact start hinit
    | world => exact world
  · rintro agent s k s' k' hsorted hlocated hJ hM ⟨input, hallowed, hact⟩
    rcases step_cases hact with ⟨t, rfl, hmove⟩ | ⟨rfl, -, _, rfl⟩
    · exact (move hsorted hlocated hJ hM hallowed hmove).1
    · exact signals hJ
  · rintro agent s k s' k' hsorted hlocated hJ hM ⟨input, hallowed, hact⟩
    rcases step_cases hact with ⟨t, rfl, hmove⟩ | ⟨rfl, -, _, rfl⟩
    · exact (move hsorted hlocated hJ hM hallowed hmove).2
    · exact world
  · rintro agent agent' s k s' k' l hne hsorted hlocated hlocated' hJ hM hM' ⟨input, hallowed, hact⟩
    cases agent' with
    | world => exact world
    | thread u =>
      rcases step_cases hact with ⟨t, rfl, hmove⟩ | ⟨rfl, -, _, rfl⟩
      · exact other (fun heq => hne (heq ▸ rfl)) hsorted hlocated hlocated' hM' hallowed hmove
      · exact thread hM'

/-! ### Two threads -/

def oneThread : Threads.State Shared Agent Phase where
  shared := {
    leader := some 0, members := [0], groupLock := none, schedulerLock := none, groupExit := .none, execInProgress := false
    nextId := 1, life := Function.update (fun _ => .unborn) 0 .runnable, forced := fun _ => noForcedExit
    exitStatus := fun _ => 0, signals := .new, masks := fun _ => .new, recorded := none, panicked := false,
    maker := fun _ => 0
    called := fun _ => false, departing := fun _ => false, markedBy := fun _ => .exit, cause := fun _ => .exit
    groupScanned := false, execOwner := none, survivor := none, fatal := none }
  own _ := .outside

theorem oneThread_reachable (allowed : Shared → Agent → Phase → Input → Prop) :
    (threads allowed).system.Reachable oneThread :=
  .init ⟨⟨0, .new, fun _ => .new, rfl⟩, fun _ => rfl⟩

theorem reachable_of_script {Q : Threads.State Shared Agent Phase → Prop} [DecidablePred Q] {script : List (Agent × Input)}
    (h : (Threads.replay step oneThread script).any (fun s => decide (Q s)) = true) :
    ∃ s, (threads fun _ _ _ _ => True).system.Reachable s ∧ Q s :=
  Threads.reachable_of_replay (oneThread_reachable _) (fun hstep => ⟨_, trivial, hstep⟩) h

theorem reachable_of_guarded (allowed : Shared → Agent → Phase → Input → Prop) {ok : Shared → Agent → Phase → Input → Bool}
    (hok : ∀ {s agent k a}, ok s agent k a = true → allowed s agent k a) {Q : Threads.State Shared Agent Phase → Prop}
    [DecidablePred Q] {script : List (Agent × Input)}
    (h : (Threads.replay (Threads.guarded ok step) oneThread script).any (fun s => decide (Q s)) = true) :
    ∃ s, (threads allowed).system.Reachable s ∧ Q s := by
  refine Threads.reachable_of_replay (oneThread_reachable _) (fun hstep => ?_) h
  obtain ⟨hallowed, hstep⟩ := Threads.guarded_eq_some hstep
  exact ⟨_, hok hallowed, hstep⟩

def cloneOne : List (Agent × Input) :=
  [(.thread 0, .advance), (.thread 0, .advance), (.thread 0, .syscall), (.thread 0, .clone), (.thread 0, .advance),
    (.thread 0, .reserve true), (.thread 0, .advance), (.thread 0, .advance), (.thread 0, .advance), (.thread 0, .advance),
    (.thread 0, .install true), (.thread 1, .advance), (.thread 1, .advance)]

def groupExitOf (status : Word) : List (Agent × Input) :=
  [(.thread 0, .syscall), (.thread 0, .exitGroup status), (.thread 0, .advance), (.thread 0, .advance),
    (.thread 0, .advance)]

end SudoOS.ThreadGroup
