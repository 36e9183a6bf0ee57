import SudoOS.Theorems.ThreadGroup

/-!
No clone escapes the end of its group. A thread that has a task when the siblings are scanned is marked by the scan, and one
that gets its task later by the check that `spawn_user` makes.
-/

namespace SudoOS.ThreadGroup

variable {s s' : Shared} {t u : Nat} {k k' : Phase} {input : Input}

variable {child : Nat} {source : Cause} {status : Word}

def Life.awake : Life → Bool
  | .runnable | .running => true
  | _ => false

def Covered (s : Shared) (u : Nat) : Prop :=
  (s.life u).awake = true → s.forced u ≠ noForcedExit ∨ s.departing u = true

structure Swept (s : Shared) : Prop where
  status : ∀ {status}, s.groupExit = .active status → status ≠ noForcedExit
  published : s.groupScanned = true → ∃ status, s.groupExit = .active status
  group : s.groupScanned = true → ∀ u, Covered s u
  exec : ∀ {a}, s.survivor = some a → ∀ u, u ≠ a → Covered s u

def Marking (s : Shared) : Phase → Prop
  | .groupEntry status | .publishing status => status ≠ noForcedExit
  | .lateExec _ => s.groupScanned = false
  | _ => True

/-- The status of an `exit_group` is not the one that stands for no forced exit. -/
def marks : Input → Bool
  | .exitGroup status => status != noForcedExit
  | _ => true

def Marks (_ : Shared) (_ : Agent) (_ : Phase) (input : Input) : Prop := marks input = true

/-! ### Steps that only add marks -/

structure Covers (s s' : Shared) : Prop where
  awake : ∀ {u}, (s'.life u).awake = true → (s.life u).awake = true
  forced : ∀ {u}, s.forced u ≠ noForcedExit → s'.forced u ≠ noForcedExit
  departing : ∀ {u}, s.departing u = true → s'.departing u = true

theorem Covers.covered (h : Covers s s') (hu : Covered s u) : Covered s' u := fun hawake =>
  (hu (h.awake hawake)).imp h.forced h.departing

theorem Swept.keep (h : Swept s) (hcovers : Covers s s') (hscanned : s'.groupScanned = s.groupScanned)
    (hexit : s'.groupExit = s.groupExit) (hsurvivor : s'.survivor = s.survivor) : Swept s' where
  status hactive := h.status (hexit ▸ hactive)
  published hscan := hexit ▸ h.published (hscanned ▸ hscan)
  group hscan u := hcovers.covered (h.group (hscanned ▸ hscan) u)
  exec ha u hne := hcovers.covered (h.exec (hsurvivor ▸ ha) u hne)

theorem Covers.of_eq (hlife : s'.life = s.life) (hforced : s'.forced = s.forced) (hdeparting : s'.departing = s.departing) :
    Covers s s' := by
  refine ⟨?_, ?_, ?_⟩
  · rw [hlife]
    exact id
  · rw [hforced]
    exact id
  · rw [hdeparting]
    exact id

theorem Covers.trans {s'' : Shared} (h : Covers s s') (h' : Covers s' s'') : Covers s s'' :=
  ⟨fun hu => h.awake (h'.awake hu), fun hu => h'.forced (h.forced hu), fun hu => h'.departing (h.departing hu)⟩

theorem Covers.depart : Covers s (s.depart t) := by
  refine ⟨id, id, ?_⟩
  intro u hu
  show Function.update s.departing t true u = true
  by_cases hut : u = t
  · rw [hut, Function.update_self]
  · rw [Function.update_of_ne hut]
    exact hu

theorem Covers.setLife {life : Life} (hlife : life.awake = true → (s.life t).awake = true) :
    Covers s (s.setLife t life) := by
  refine ⟨?_, id, id⟩
  intro u hu
  replace hu : (Function.update s.life t life u).awake = true := hu
  by_cases hut : u = t
  · subst hut
    rw [Function.update_self] at hu
    exact hlife hu
  · rwa [Function.update_of_ne hut] at hu

/-- The first mark stays. -/
theorem requestForcedExit_forced (hu : s.forced u ≠ noForcedExit) :
    (s.requestForcedExit child status source).forced u ≠ noForcedExit := by
  unfold Shared.requestForcedExit
  split_ifs with hnone
  · have hne : u ≠ child := fun heq => hu (heq ▸ hnone)
    show Function.update s.forced child status u ≠ noForcedExit
    rwa [Function.update_of_ne hne]
  · exact hu

theorem requestForcedExit_self (hstatus : status ≠ noForcedExit) :
    (s.requestForcedExit child status source).forced child ≠ noForcedExit := by
  unfold Shared.requestForcedExit
  split_ifs with hnone
  · show Function.update s.forced child status child ≠ noForcedExit
    rwa [Function.update_self]
  · exact hnone

theorem requestProcessThreadExit_forced (hstatus : status ≠ noForcedExit) :
    ((s.life u).hasTask = true ∧ u ≠ t) ∨ s.forced u ≠ noForcedExit →
      (s.requestProcessThreadExit t status source).forced u ≠ noForcedExit := by
  intro hu
  simp only [Shared.requestProcessThreadExit]
  split_ifs with hmarks
  · exact hstatus
  · rcases hu with ⟨htask, hne⟩ | hu
    · simp only [Bool.and_eq_true, bne_iff_ne, beq_iff_eq] at hmarks
      exact fun hnone => hmarks ⟨⟨hne, htask⟩, hnone⟩
    · exact hu

theorem Life.hasTask_of_awake {life : Life} (h : life.awake = true) : life.hasTask = true := by
  cases life <;> first | rfl | cases h

/-! ### One step -/

theorem Swept.enqueue (h : Swept s) (hlife : s'.life = s.life) (hdeparting : s'.departing = s.departing)
    (hforced : ∀ {u}, s.forced u ≠ noForcedExit → s'.forced u ≠ noForcedExit) (hscanned : s'.groupScanned = s.groupScanned)
    (hexit : s'.groupExit = s.groupExit) (hsurvivor : s'.survivor = s.survivor)
    (hchild : s.groupScanned = true ∨ (∃ a, s.survivor = some a) → s'.forced child ≠ noForcedExit) :
    Swept (ThreadGroup.enqueue s' child).1 := by
  have hcovered : (s.groupScanned = true ∨ ∃ a, s.survivor = some a) → ∀ {u}, Covered s u →
      Covered (ThreadGroup.enqueue s' child).1 u := by
    intro hended u hu hawake
    by_cases huc : u = child
    · exact .inl (huc ▸ hchild hended)
    · have hsame : (ThreadGroup.enqueue s' child).1.life u = s.life u :=
        (Function.update_of_ne huc _ _).trans (congrFun hlife u)
      rw [hsame] at hawake
      exact (hu hawake).imp hforced fun hd => (congrFun hdeparting u).trans hd
  refine ⟨fun hactive => h.status (hexit ▸ hactive), fun hscan => hexit ▸ h.published (hscanned ▸ hscan), ?_, ?_⟩
  · intro hscan u
    have hold : s.groupScanned = true := hscanned ▸ hscan
    exact hcovered (.inl hold) (h.group hold u)
  · intro a ha u hne
    have hold : s.survivor = some a := hsurvivor ▸ ha
    exact hcovered (.inr ⟨a, hold⟩) (h.exec hold u hne)

theorem requestForcedExit_frame :
    (s.requestForcedExit child status source).departing = s.departing ∧
      (s.requestForcedExit child status source).groupScanned = s.groupScanned := by
  obtain ⟨forced, markedBy, heq⟩ := requestForcedExit_eq s child status source
  rw [heq]
  exact ⟨rfl, rfl⟩

theorem Swept.unscanned (h : Swept s) (hexit : ∀ status, s.groupExit ≠ .active status) : s.groupScanned = false := by
  by_contra hscan
  obtain ⟨status, hactive⟩ := h.published (Bool.not_eq_false _ ▸ hscan)
  exact hexit status hactive

theorem Swept.setGroupExit {exit : GroupExit} (h : Swept s) (hexit : ∀ status, s.groupExit ≠ .active status)
    (hstatus : ∀ {status}, exit = .active status → status ≠ noForcedExit) : Swept { s with groupExit := exit } := by
  have hunscanned := h.unscanned hexit
  refine ⟨hstatus, fun hscan => ?_, fun hscan => ?_, h.exec⟩
  · cases hunscanned.symm.trans hscan
  · cases hunscanned.symm.trans hscan

/-- A scan, and then nothing that can run is uncovered but the thread that scans. -/
theorem Swept.scan (hstatus : status ≠ noForcedExit) (hne : u ≠ t) :
    Covered (s.requestProcessThreadExit t status source) u := fun hawake =>
  .inl (requestProcessThreadExit_forced hstatus (.inl ⟨Life.hasTask_of_awake hawake, hne⟩))

theorem Covers.scan (hstatus : status ≠ noForcedExit) :
    Covers s (s.requestProcessThreadExit t status source) :=
  ⟨id, fun hu => requestProcessThreadExit_forced hstatus (.inr hu), id⟩

theorem Swept.groupScan {group : Word} (h : Swept s) (hactive : s.groupExit = .active group) :
    Swept { (s.requestProcessThreadExit t group .groupMark).depart t with groupScanned := true } := by
  have hstatus := h.status hactive
  have hcovers : Covers s ((s.requestProcessThreadExit t group .groupMark).depart t) := (Covers.scan hstatus).trans .depart
  refine ⟨h.status, fun _ => ⟨group, hactive⟩, ?_, ?_⟩
  · intro _ u
    by_cases hut : u = t
    · exact fun _ => .inr (hut ▸ Function.update_self _ _ _)
    · have hmarked : Covered (s.requestProcessThreadExit t group .groupMark) u := Swept.scan hstatus hut
      exact (Covers.depart (t := t)).covered hmarked
  · intro a ha u hne
    exact hcovers.covered (h.exec ha u hne)

theorem Swept.execScan (h : Swept s) : Swept { s.requestProcessThreadExit t 0 .execMark with survivor := some t } := by
  have hzero : (0 : Word) ≠ noForcedExit := by decide
  have hcovers : Covers s (s.requestProcessThreadExit t 0 .execMark) := .scan hzero
  refine ⟨h.status, h.published, fun hscan u => hcovers.covered (h.group hscan u), ?_⟩
  intro a ha u hne
  cases ha
  have hmarked : Covered (s.requestProcessThreadExit t 0 .execMark) u := Swept.scan hzero hne
  exact hmarked

theorem Swept.execAlone (h : Swept s) (hsorted : Sorted s) (halone : s.members = [t]) :
    Swept { s with survivor := some t } := by
  refine ⟨h.status, h.published, h.group, ?_⟩
  intro a ha u hne hawake
  cases ha
  have hmem : u ∈ s.members := by
    refine hsorted.mem_iff.2 ?_
    replace hawake : (s.life u).awake = true := hawake
    revert hawake
    cases s.life u <;> simp [Life.awake, Life.joined]
  rw [halone] at hmem
  exact absurd (List.mem_singleton.1 hmem) hne

theorem Swept.move (h : Swept s) (hsorted : Sorted s) (hp : Placed t s k) (hk : Marking s k)
    (hmarks : marks input = true) (hmove : Move s t k input s' k') : Swept s' ∧ Marking s' k' := by
  have hholds := hp.holds
  have hzero : (0 : Word) ≠ noForcedExit := by decide
  cases hmove with
  | enter hlife =>
    refine ⟨h.keep (.setLife fun _ => ?_) rfl rfl rfl, trivial⟩
    rw [hlife]
    rfl
  | forced | exception | exit => exact ⟨h.keep .depart rfl rfl rfl, trivial⟩
  | start | resolved | unmarked | refused | admitted | execCount | execWait | follow => exact ⟨h, trivial⟩
  | trap hk' => rcases hk' with rfl | rfl | rfl <;> exact ⟨h, trivial⟩
  | fatalFault =>
    exact ⟨h.keep (Covers.depart.trans (.of_eq rfl rfl rfl)) rfl rfl rfl, trivial⟩
  | other | lock | execReplace | beginExec | unlock => exact ⟨h.keep (.of_eq rfl rfl rfl) rfl rfl rfl, trivial⟩
  | exitGroup =>
    exact ⟨h.keep (.of_eq rfl rfl rfl) rfl rfl rfl, bne_iff_ne.1 hmarks⟩
  | join =>
    have hcovers : Covers s (s.setLife s.nextId .ready) := .setLife nofun
    exact ⟨h.keep (hcovers.trans (.of_eq rfl rfl rfl)) rfl rfl rfl, trivial⟩
  | panic hk' =>
    refine ⟨h.keep (.of_eq rfl rfl rfl) rfl rfl rfl, ?_⟩
    cases k <;> cases hk' <;> trivial
  | @insert _ child =>
    have hcovers : Covers s (s.setLife child .inserted) := .setLife nofun
    exact ⟨h.keep (hcovers.trans (.of_eq rfl rfl rfl)) rfl rfl rfl, trivial⟩
  | late hexit =>
    refine ⟨h, h.unscanned ?_⟩
    rw [hexit]
    nofun
  | @lateGroup _ child status hactive =>
    have hcalm : Calm t s (s.requestForcedExit child status .groupMark) := .requestForcedExit
    exact ⟨h.enqueue hcalm.life requestForcedExit_frame.1 requestForcedExit_forced requestForcedExit_frame.2 hcalm.groupExit
      hcalm.survivor fun _ => requestForcedExit_self (h.status hactive), trivial⟩
  | @lateExec _ child =>
    refine ⟨?_, trivial⟩
    by_cases hexec : s.execInProgress = true
    · rw [if_pos hexec]
      have hcalm : Calm t s (s.requestForcedExit child 0 .execMark) := .requestForcedExit
      exact h.enqueue hcalm.life requestForcedExit_frame.1 requestForcedExit_forced requestForcedExit_frame.2
        hcalm.groupExit
        hcalm.survivor fun _ => requestForcedExit_self hzero
    · rw [if_neg hexec]
      refine h.enqueue rfl rfl id rfl rfl rfl ?_
      -- no exec is under way, and no group exit has been scanned
      rintro (hscan | ⟨a, ha⟩)
      · cases (show s.groupScanned = false from hk).symm.trans hscan
      · exact absurd (hsorted.survivor ha).1 hexec
  | claim hexit =>
    refine ⟨h.setGroupExit ?_ nofun, hk⟩
    rw [hexit]
    nofun
  | publish =>
    refine ⟨h.setGroupExit ?_ ?_, trivial⟩
    · rw [show s.groupExit = .publishing t from hholds]
      nofun
    · rintro status ⟨⟩
      exact hk
  | groupScan => exact ⟨h.groupScan hholds.1, trivial⟩
  | execAlone hlen => exact ⟨h.execAlone hsorted (hsorted.eq_singleton hp.fits hlen), trivial⟩
  | execScan => exact ⟨h.execScan, trivial⟩
  | execFinish => exact ⟨⟨h.status, h.published, h.group, nofun⟩, trivial⟩
  | @resume _ frame =>
    refine ⟨h.keep (.of_eq rfl rfl rfl) rfl rfl rfl, ?_⟩
    cases frame <;> trivial
  | @defaultAction _ _ signals masks =>
    have hcovers : Covers s (s.withSignals t signals masks) := .of_eq rfl rfl rfl
    exact ⟨h.keep ((hcovers.trans .depart).trans (.of_eq rfl rfl rfl)) rfl rfl rfl, trivial⟩
  | @uncaught _ _ signals masks =>
    have hcovers : Covers s (s.withSignals t signals masks) := .of_eq rfl rfl rfl
    exact ⟨h.keep (hcovers.trans .depart) rfl rfl rfl, trivial⟩
  | leave =>
    have hcovers : Covers s (s.setLife t .exited) := .setLife nofun
    exact ⟨h.keep (hcovers.trans (.of_eq rfl rfl rfl)) rfl rfl rfl, trivial⟩
  | withdraw =>
    have hcovers : Covers s (s.setLife t .dropped) := .setLife nofun
    exact ⟨h.keep (hcovers.trans (.of_eq rfl rfl rfl)) rfl rfl rfl, trivial⟩

/-- The siblings are scanned for a group exit only while nobody is inserting a task. -/
theorem Move.groupScanned (hmove : Move s t k input s' k') :
    s'.groupScanned = s.groupScanned ∨ s.schedulerLock = none := by
  cases hmove with
  | groupScan hlock => exact .inr hlock
  | lateGroup => exact .inl requestForcedExit_frame.2
  | @lateExec _ child =>
    obtain ⟨forced, markedBy, heq⟩ := lateExec_eq s child
    rw [heq]
    exact .inl rfl
  | _ => exact .inl rfl

theorem Marking.other {l : Phase} (h : Marking s l) (hp : Placed u s l) (hmove : Move s t k input s' k') :
    Marking s' l := by
  cases l
  case lateExec child =>
    rcases hmove.groupScanned with hsame | hlock
    · exact hsame.trans h
    · cases hlock.symm.trans hp.holds.1
  all_goals exact h

def Phase.surviving : Phase → Bool
  | .execWait | .execReplace | .execFinish => true
  | _ => false

theorem Move.survivor (hmove : Move s t k input s' k') :
    s'.survivor = s.survivor ∨ s'.survivor = none ∨ s'.survivor = some t ∧ k'.surviving = true := by
  cases hmove with
  | execAlone | execScan => exact .inr (.inr ⟨rfl, rfl⟩)
  | execFinish => exact .inr (.inl rfl)
  | lateGroup => exact .inl (Calm.requestForcedExit (t := t)).survivor
  | lateExec => exact .inl (Calm.lateExec (t := t)).survivor
  | _ => exact .inl rfl

theorem Move.surviving (hmove : Move s t k input s' k') (hk : k.surviving = true) :
    s'.survivor = some t → k'.surviving = true := by
  cases hmove with
  | execWait | execReplace => exact fun _ => rfl
  | execFinish => exact nofun
  | panic => exact fun _ => hk
  | forced hmark => cases k <;> cases hk <;> cases hmark
  | unlock hlocked => rcases hlocked with rfl | rfl <;> cases hk
  | _ => cases hk

/-! ### All interleavings -/

def Marked : Agent → Shared → Phase → Prop
  | .thread t, s, k => Marking s k ∧ (s.survivor = some t → k.surviving = true)
  | .world, _, _ => True

theorem Swept.signals {signals : SignalState} (h : Swept s) : Swept { s with signals } :=
  h.keep (.of_eq rfl rfl rfl) rfl rfl rfl

theorem Swept.fresh (h : Fresh s) : Swept s := by
  obtain ⟨t, signals, masks, rfl⟩ := h
  exact ⟨nofun, nofun, nofun, nofun⟩

theorem sweeping : (threads Marks).Stable (fun s => Sorted s ∧ Swept s) fun agent s k => Located agent s k ∧
    Marked agent s k := by
  refine stable_extend Swept.fresh ?_ trivial ?_ ?_ Swept.signals ?_
  · rintro _ t ⟨t, signals, masks, rfl⟩
    exact ⟨trivial, nofun⟩
  · intro t input s k s' k' hsorted hplaced hswept hmarked hmarks hmove
    obtain ⟨hswept', hmarking⟩ := hswept.move hsorted hplaced hmarked.1 hmarks hmove
    refine ⟨hswept', hmarking, fun hs => ?_⟩
    rcases hmove.survivor with hsame | hnone | ⟨-, hk'⟩
    · exact hmove.surviving (hmarked.2 (hsame.symm.trans hs)) hs
    · cases hnone.symm.trans hs
    · exact hk'
  · intro t u input s k s' k' l hne hsorted hplaced hother hl hmarks hmove
    refine ⟨Marking.other hl.1 hother hmove, fun hs => ?_⟩
    rcases hmove.survivor with hsame | hnone | ⟨hself, -⟩
    · exact hl.2 (hsame.symm.trans hs)
    · cases hnone.symm.trans hs
    · exact absurd (Option.some.inj (hs.symm.trans hself)) hne
  · rintro u s l signals ⟨hmarking, hsurvivor⟩
    refine ⟨?_, hsurvivor⟩
    cases l <;> exact hmarking

/-! ### The end of the group -/

/-- The thread has exited, or is on its way out; it is marked; or it has not run yet, and the check that `spawn_user` makes
is still ahead of it. -/
def Ended (s : Threads.State Shared Agent Phase) (t : Nat) : Prop :=
  (s.own (.thread t)).departed = true ∨ s.shared.forced t ≠ noForcedExit ∨
    s.shared.life t = .ready ∨ s.shared.life t = .inserted

theorem Covered.ended {s : Threads.State Shared Agent Phase} (h : Covered s.shared t)
    (hp : Placed t s.shared (s.own (.thread t))) (hjoined : s.shared.life t ≠ .unborn) : Ended s t := by
  cases hlife : s.shared.life t with
  | unborn => exact absurd hlife hjoined
  | ready => exact .inr (.inr (.inl hlife))
  | inserted => exact .inr (.inr (.inr hlife))
  | runnable | running =>
    rcases h (by rw [hlife]; rfl) with hforced | hdeparting
    · exact .inr (.inl hforced)
    · exact .inl (hp.departing.symm.trans hdeparting)
  | exited | dropped =>
    refine .inl ?_
    have hfits := hp.fits
    rw [hlife] at hfits
    revert hfits
    cases s.own (.thread t) <;> simp [Phase.Fits, Phase.departed]

/-- A covered thread that looks at its mark for the first time does not go on to user mode. -/
theorem Covered.not_user (h : Covered s t) (hp : Placed t s .bootstrap) (hmove : Move s t .bootstrap input s' k') :
    k' ≠ .user := by
  have hcovered : s.forced t ≠ noForcedExit := by
    rcases h (by rw [show s.life t = .running from hp.fits]; rfl) with hforced | hdeparting
    · exact hforced
    · cases hp.departing.symm.trans hdeparting
  cases hmove with
  | start hnone =>
    rw [Shared.forcedExitStatus, if_neg hcovered] at hnone
    cases hnone
  | forced => exact nofun
  | panic hk => cases hk
  | unlock hk => rcases hk with hk | hk <;> cases hk

def Phase.replacing : Phase → Bool
  | .execReplace | .execFinish => true
  | _ => false

theorem Placed.alone {a : Nat} (h : Placed a s k) (hk : k.replacing = true) : s.members = [a] := by
  have hholds := h.holds
  cases k <;> cases hk <;> exact hholds.2.2

theorem Move.replacing (hmove : Move s t k input s' k') (hk : k.replacing = true) : s'.life = s.life := by
  cases hmove with
  | execReplace | execFinish | panic | forced => rfl
  | unlock hlocked => rcases hlocked with rfl | rfl <;> cases hk
  | _ => cases hk

/-- No clone escapes: once an `exit_group` or an exec has scanned the siblings, every thread that ever joined the group, but
for the thread of the exec, has ended, and none of them enters user mode for the first time; and from the end of the exec's
wait to the end of the exec no thread joins. -/
theorem no_clone_escapes {s : Threads.State Shared Agent Phase} (h : (threads Marks).system.Reachable s) :
    (s.shared.groupScanned = true → ∀ t, s.shared.life t ≠ .unborn → Ended s t) ∧
      (∀ a, s.shared.survivor = some a → ∀ t, t ≠ a → s.shared.life t ≠ .unborn → Ended s t) ∧
      (s.shared.groupScanned = true ∨ s.shared.survivor ≠ none → ∀ t s', (threads Marks).system.step s (.thread t) s' →
        s.own (.thread t) = .bootstrap → s'.own (.thread t) ≠ .user) ∧
      (∀ a, (s.own (.thread a)).replacing = true → ∀ agent s', (threads Marks).system.step s agent s' →
        ∀ t, s.shared.life t = .unborn → s'.shared.life t = .unborn) := by
  obtain ⟨⟨hsorted, hswept⟩, hown⟩ := sweeping.reachable h
  have hplaced : ∀ t, Placed t s.shared (s.own (.thread t)) := fun t => (hown (.thread t)).1
  refine ⟨?_, ?_, ?_, ?_⟩
  · intro hscan t hjoined
    exact (hswept.group hscan t).ended (hplaced t) hjoined
  · intro a ha t hne hjoined
    exact (hswept.exec ha t hne).ended (hplaced t) hjoined
  · rintro hended t s' ⟨⟨input, -, hact⟩, -⟩ hbootstrap
    have hcovered : Covered s.shared t := by
      rcases hended with hscan | hsurvivor
      · exact hswept.group hscan t
      · obtain ⟨a, ha⟩ := Option.ne_none_iff_exists'.1 hsurvivor
        refine hswept.exec ha t ?_
        rintro rfl
        have hsurviving : (s.own (.thread t)).surviving = true := (hown (.thread t)).2.2 ha
        rw [hbootstrap] at hsurviving
        cases hsurviving
    have hp := hplaced t
    rw [hbootstrap] at hact hp
    rcases step_cases hact with ⟨u, hu, hmove⟩ | ⟨hworld, -⟩
    · cases hu
      exact hcovered.not_user hp hmove
    · cases hworld
  · rintro a hreplacing agent s' ⟨⟨input, -, hact⟩, -⟩ t hunborn
    rcases step_cases hact with ⟨u, rfl, hmove⟩ | ⟨-, -, signals, hsame⟩
    · -- whoever moves is a member, and there is only one
      have hmem : u ∈ s.shared.members := hsorted.mem_iff.2 (Life.joined_of_acting (hmove.acting (hplaced u)))
      rw [(hplaced a).alone hreplacing, List.mem_singleton] at hmem
      subst hmem
      rw [hmove.replacing hreplacing]
      exact hunborn
    · rw [hsame]
      exact hunborn

theorem no_clone_escapes_cloned : ∃ s, (threads Marks).system.Reachable s ∧ s.shared.groupScanned = true ∧
    s.own (.thread 1) = .user ∧ s.shared.life 1 ≠ .unborn ∧ Ended s 1 := by
  have hrun : (Threads.replay (Threads.guarded (fun _ _ _ => marks) step) oneThread (cloneOne ++ groupExitOf 3)).any
    (fun s =>
      decide (s.shared.groupScanned = true ∧ s.own (.thread 1) = .user ∧ s.shared.life 1 = .running)) = true := by
        decide +kernel
  obtain ⟨s, hreach, hscan, huser, hlife⟩ := reachable_of_guarded Marks id hrun
  have hjoined : s.shared.life 1 ≠ .unborn := by
    rw [hlife]
    nofun
  exact ⟨s, hreach, hscan, huser, hjoined, (no_clone_escapes hreach).1 hscan 1 hjoined⟩

/-- The status `isize::MIN` is no mark: after `exit_group` with it the cloned thread goes on in user mode. -/
theorem clone_escapes : ∃ s, (threads fun _ _ _ _ => True).system.Reachable s ∧ s.shared.groupScanned = true ∧
    s.own (.thread 1) = .user ∧ s.shared.life 1 = .running ∧ ¬ Ended s 1 := by
  have hrun : (Threads.replay step oneThread (cloneOne ++ groupExitOf noForcedExit)).any (fun s =>
      decide (s.shared.groupScanned = true ∧ s.own (.thread 1) = .user ∧ s.shared.life 1 = .running ∧
        s.shared.forced 1 = noForcedExit)) = true := by decide +kernel
  obtain ⟨s, hreach, hscan, huser, hlife, hforced⟩ := reachable_of_script hrun
  refine ⟨s, hreach, hscan, huser, hlife, ?_⟩
  rintro (hdeparted | hmarked | hready | hinserted)
  · rw [huser] at hdeparted
    cases hdeparted
  · exact hmarked hforced
  · cases hlife.symm.trans hready
  · cases hlife.symm.trans hinserted

end SudoOS.ThreadGroup
