import SudoOS.Kernel.Devpts
import SudoOS.Theorems.Lockdep

/-! Circular waits for the two buffer locks of a pseudo-terminal. -/

namespace SudoOS

open Lockdep Pty Function

namespace PtySystem

variable {s t : PtySystem} {cpu c lock : Nat} {done : List LockStep}

/-- Two CPUs each wait for a lock that the other holds. -/
def Deadlock (s : PtySystem) : Prop :=
  ∃ c c' lock lock', c ≠ c' ∧ s.locks.wants c = some lock ∧ s.locks.holder lock = some c' ∧
    s.locks.wants c' = some lock' ∧ s.locks.holder lock' = some c

def system : TransitionSystem PtySystem PtyEvent where
  init s := s = boot
  step s event t := s.step event = some t

/-- No poll starts while a poll of the other end runs. -/
def Apart (s : PtySystem) : PtyEvent → Prop
  | .start _ (.poll e) => ∀ c e', s.op c = .poll e' → e' ≠ e → s.rest c = []
  | _ => True

def holding (done : List LockStep) (lock : Nat) : Bool :=
  done.foldl (fun held step => match step with
    | .take l => held || l == lock
    | .drop l => held && l != lock) false

/-! ### One call -/

theorem holding_steps (op : PtyOp) (lock : Nat) : holding op.steps lock = false := by
  cases op with
  | read e | write e => simp [PtyOp.steps, holding]
  | poll e => cases e <;> simp [PtyOp.steps, holding, readLock, writeLock] <;> grind
  | close e => rfl

theorem steps_split {op : PtyOp} {step : LockStep} {rest : List LockStep} (h : op.steps = done ++ step :: rest) :
    ∃ k, op.steps[k]? = some step ∧ done = op.steps.take k :=
  ⟨done.length, by rw [h]; simp, by rw [h]; simp⟩

theorem holding_drop {op : PtyOp} {rest : List LockStep} (h : op.steps = done ++ .drop lock :: rest) :
    holding done lock = true := by
  obtain ⟨k, hk, rfl⟩ := steps_split h
  clear h
  cases op with
  | read e | write e => rcases k with _ | _ | k <;> simp_all [PtyOp.steps, holding]
  | poll e =>
    have hne : writeLock e ≠ readLock e := by cases e <;> decide
    rcases k with _ | _ | _ | _ | k <;> simp_all [PtyOp.steps, holding]
  | close e => simp [PtyOp.steps] at hk

theorem nested {op : PtyOp} {rest : List LockStep} {held : Nat} (h : op.steps = done ++ .take lock :: rest)
    (hheld : holding done held = true) : ∃ e, op = .poll e ∧ held = readLock e ∧ lock = writeLock e := by
  obtain ⟨k, hk, rfl⟩ := steps_split h
  clear h
  cases op with
  | read e | write e => rcases k with _ | _ | k <;> simp_all [PtyOp.steps, holding]
  | poll e => rcases k with _ | _ | _ | _ | k <;> simp_all [PtyOp.steps, holding]
  | close e => simp [PtyOp.steps] at hk

/-! ### One step -/

structure Point (s : PtySystem) (cpu : Nat) (done : List LockStep) : Prop where
  steps : (s.op cpu).steps = done ++ s.rest cpu
  holder : ∀ l, s.locks.holder l = some cpu ↔ holding done l = true ∨ s.phase cpu = .acquired l
  phase : s.phase cpu = .running ∨ ∃ l rest, s.rest cpu = .take l :: rest ∧
    (s.phase cpu = .spinning l ∨ s.phase cpu = .acquired l)

structure Inv (s : PtySystem) : Prop where
  point : ∀ cpu, ∃ done, s.Point cpu done
  apart : ∀ c c' e e', s.op c = .poll e → s.op c' = .poll e' → e ≠ e' → s.rest c = [] ∨ s.rest c' = []

theorem Inv.boot : Inv boot where
  point _ := ⟨[], rfl, fun l => by simp [PtySystem.boot, LockSystem.boot, holding, PtySystem.phase], .inl rfl⟩
  apart _ _ _ _ h := by cases h

/-- In a circle of two, each polls an end, and not the same one. -/
theorem Inv.not_deadlock (h : Inv s) : ¬s.Deadlock := by
  rintro ⟨c, c', lock, lock', hne, hwants, hholder, hwants', hholder'⟩
  have hpoll : ∀ {cpu want held}, s.locks.wants cpu = some want → s.locks.holder held = some cpu →
      ∃ e, s.op cpu = .poll e ∧ held = readLock e ∧ want = writeLock e ∧ s.rest cpu ≠ [] := by
    intro cpu want held hwants hheld
    have hspin : s.phase cpu = .spinning want := by
      unfold LockSystem.wants at hwants
      unfold PtySystem.phase
      split at hwants <;> simp_all
    obtain ⟨done, hpoint⟩ := h.point cpu
    obtain hrun | ⟨l, rest, hrest, hphase⟩ := hpoint.phase
    · rw [hspin] at hrun
      cases hrun
    · obtain rfl : want = l := by
        rw [hspin] at hphase
        simpa using hphase
      have hheld' : holding done held = true := ((hpoint.holder held).1 hheld).resolve_right (by rw [hspin]; simp)
      obtain ⟨e, hop, hr, hw⟩ := nested (hrest ▸ hpoint.steps) hheld'
      exact ⟨e, hop, hr, hw, by rw [hrest]; simp⟩
  obtain ⟨e, hop, hread, hwrite, hrest⟩ := hpoll hwants hholder'
  obtain ⟨e', hop', hread', hwrite', hrest'⟩ := hpoll hwants' hholder
  have hdiff : e ≠ e' := by
    rintro rfl
    have hsame : readLock e = writeLock e := hread'.symm.trans hwrite
    cases e <;> cases hsame
  exact (h.apart c c' e e' hop hop' hdiff).elim hrest hrest'

/-- A step of one CPU changes nothing for the others. -/
theorem Point.frame (h : s.Point c done) (hop : t.op c = s.op c) (hrest : t.rest c = s.rest c)
    (hphase : t.phase c = s.phase c)
    (hholder : ∀ l, t.locks.holder l = some c ↔ s.locks.holder l = some c) : t.Point c done := by
  refine ⟨by rw [hop, hrest]; exact h.steps, fun l => ?_, by rw [hrest, hphase]; exact h.phase⟩
  rw [hholder, hphase]
  exact h.holder l

theorem phase_of_cpus {locks : LockSystem} {state : CpuLocks} (hcpus : locks.cpus = update s.locks.cpus cpu state)
    (hne : c ≠ cpu) : (locks.cpus c).current.phase = s.phase c := by
  rw [hcpus, update_of_ne hne]
  rfl

/-- A step within a call: it is enough that the CPU itself comes to a point of its call and takes no lock from another
one. -/
theorem Inv.within {rest : List LockStep} (h : Inv s) (hop : t.op = s.op) (hrest : t.rest = update s.rest cpu rest)
    (hleft : s.rest cpu ≠ []) (hphase : ∀ c ≠ cpu, t.phase c = s.phase c)
    (hholder : ∀ c ≠ cpu, ∀ l, t.locks.holder l = some c ↔ s.locks.holder l = some c) (hpoint : ∃ done, t.Point cpu done) :
      Inv t := by
  refine ⟨fun c => ?_, fun c c' e e' hc hc' hne => ?_⟩
  · by_cases hcpu : c = cpu
    · rwa [hcpu]
    · obtain ⟨done, hdone⟩ := h.point c
      exact ⟨done, hdone.frame (by rw [hop]) (by rw [hrest, update_of_ne hcpu]) (hphase c hcpu) (hholder c hcpu)⟩
  · rw [hop] at hc hc'
    have hempty : ∀ {c}, s.rest c = [] → t.rest c = [] := by
      intro c hc
      rw [hrest, update_of_ne (fun heq : c = cpu => hleft (heq ▸ hc)), hc]
    exact (h.apart c c' e e' hc hc' hne).imp hempty hempty

theorem Point.running (h : s.Point cpu done) (htake : ∀ lock rest, s.rest cpu ≠ .take lock :: rest) :
    s.phase cpu = .running := by
  refine h.phase.resolve_right ?_
  rintro ⟨lock, rest, hrest, -⟩
  exact htake lock rest hrest

theorem Inv.start {op : PtyOp} (h : Inv s) (hrest : s.rest cpu = []) (hapart : s.Apart (.start cpu op)) :
    Inv { s with op := update s.op cpu op, rest := update s.rest cpu op.steps } := by
  refine ⟨fun c => ?_, fun c c' e e' hc hc' hne => ?_⟩
  · obtain ⟨done, hdone⟩ := h.point c
    by_cases hcpu : c = cpu
    · subst hcpu
      have hrun : s.phase c = .running := hdone.running (by simp [hrest])
      refine ⟨[], by simp, fun l => ?_, .inl hrun⟩
      have hfree := hdone.holder l
      rw [show done = (s.op c).steps by rw [hdone.steps, hrest, List.append_nil], holding_steps] at hfree
      exact hfree
    · exact ⟨done, hdone.frame (update_of_ne hcpu ..) (update_of_ne hcpu ..) rfl fun l => Iff.rfl⟩
  · dsimp only at hc hc' ⊢
    by_cases hcpu : c = cpu <;> by_cases hcpu' : c' = cpu
    · rw [hcpu, update_self] at hc
      rw [hcpu', update_self, hc] at hc'
      cases hc'
      exact absurd rfl hne
    · rw [hcpu, update_self] at hc
      rw [update_of_ne hcpu'] at hc' ⊢
      rw [hc] at hapart
      exact .inr (hapart c' e' hc' hne.symm)
    · rw [hcpu', update_self] at hc'
      rw [update_of_ne hcpu] at hc ⊢
      rw [hc'] at hapart
      exact .inl (hapart c e hc hne)
    · rw [update_of_ne hcpu] at hc ⊢
      rw [update_of_ne hcpu'] at hc' ⊢
      exact h.apart c c' e e' hc hc' hne

theorem Point.phase_eq (h : s.Point cpu done) {rest : List LockStep} (hrest : s.rest cpu = .take lock :: rest) :
    s.phase cpu = .running ∨ s.phase cpu = .spinning lock ∨ s.phase cpu = .acquired lock := by
  refine h.phase.imp id ?_
  rintro ⟨l, rest', hrest', hphase⟩
  rw [hrest] at hrest'
  cases hrest'
  exact hphase

section take
variable {locks : LockSystem} {rest : List LockStep}

theorem Inv.spin (h : Inv s) (hrest : s.rest cpu = .take lock :: rest) (hphase : s.phase cpu = .running)
    (hlocks : s.locks.step ptyLocks (.lock cpu lock) = some locks) : Inv { s with locks } := by
  obtain ⟨done, hpoint⟩ := h.point cpu
  simp only [LockSystem.step, Option.ite_none_right_eq_some, Option.some.injEq] at hlocks
  obtain ⟨-, rfl⟩ := hlocks
  refine h.within rfl (update_eq_self cpu s.rest).symm (by rw [hrest]; simp) (fun c hc => phase_of_cpus rfl hc)
    (fun c hc l => Iff.rfl)
    ⟨done, hpoint.steps, fun l => ?_, .inr ⟨lock, rest, hrest, .inl ?_⟩⟩
  · have hholder := hpoint.holder l
    rw [hphase] at hholder
    simpa [PtySystem.phase, LockSystem.setPhase, LockSystem.putCpu] using hholder
  · simp [PtySystem.phase, LockSystem.setPhase, LockSystem.putCpu]

theorem Inv.acquire (h : Inv s) (hrest : s.rest cpu = .take lock :: rest) (hphase : s.phase cpu = .spinning lock)
    (hlocks : s.locks.step ptyLocks (.acquire cpu) = some locks) : Inv { s with locks } := by
  obtain ⟨done, hpoint⟩ := h.point cpu
  have hphase' : (s.locks.cpus cpu).current.phase = .spinning lock := hphase
  simp only [LockSystem.step, hphase', Option.ite_none_right_eq_some, Option.some.injEq] at hlocks
  obtain ⟨hfree, rfl⟩ := hlocks
  refine h.within rfl (update_eq_self cpu s.rest).symm (by rw [hrest]; simp) (fun c hc => phase_of_cpus rfl hc)
    (fun c hc l => ?_)
    ⟨done, hpoint.steps, fun l => ?_, .inr ⟨lock, rest, hrest, .inr ?_⟩⟩
  · by_cases hl : l = lock
    · simp [hl, hfree, hc.symm]
    · simp [update_of_ne hl]
  · have hholder := hpoint.holder l
    rw [hphase] at hholder
    by_cases hl : l = lock
    · simp [hl, PtySystem.phase, LockSystem.setPhase, LockSystem.putCpu]
    · simpa [PtySystem.phase, LockSystem.setPhase, LockSystem.putCpu, update_of_ne hl, Ne.symm hl] using hholder
  · simp [PtySystem.phase, LockSystem.setPhase, LockSystem.putCpu]

theorem Inv.record (h : Inv s) (hrest : s.rest cpu = .take lock :: rest) (hphase : s.phase cpu = .acquired lock)
    (hlocks : s.locks.step ptyLocks (.record cpu) = some locks) : Inv { s with locks, rest := update s.rest cpu rest } := by
  obtain ⟨done, hpoint⟩ := h.point cpu
  have hphase' : (s.locks.cpus cpu).current.phase = .acquired lock := hphase
  simp only [LockSystem.step, hphase'] at hlocks
  split at hlocks
  case h_2 => cases hlocks
  case h_1 stack hstack =>
    cases hlocks
    refine h.within rfl rfl (by rw [hrest]; simp) (fun c hc => phase_of_cpus rfl hc) (fun c hc l => Iff.rfl)
      ⟨done ++ [.take lock], by simpa [hrest] using hpoint.steps, fun l => ?_, .inl ?_⟩
    · have hholder := hpoint.holder l
      rw [hphase] at hholder
      simpa [PtySystem.phase, LockSystem.putCpu, holding] using hholder
    · simp [PtySystem.phase, LockSystem.putCpu]

theorem Inv.drop (h : Inv s) (hrest : s.rest cpu = .drop lock :: rest)
    (hlocks : s.locks.step ptyLocks (.unlock cpu lock) = some locks) :
    Inv { s with locks, rest := update s.rest cpu rest } := by
  obtain ⟨done, hpoint⟩ := h.point cpu
  have hrun : s.phase cpu = .running := hpoint.running (by simp [hrest])
  have hheld : s.locks.holder lock = some cpu := (hpoint.holder lock).2 (.inl (holding_drop (hrest ▸ hpoint.steps)))
  simp only [LockSystem.step, Option.ite_none_right_eq_some] at hlocks
  obtain ⟨-, hlocks⟩ := hlocks
  split at hlocks
  case h_2 => cases hlocks
  case h_1 stack hstack =>
    cases hlocks
    refine h.within rfl rfl (by rw [hrest]; simp) (fun c hc => phase_of_cpus rfl hc) (fun c hc l => ?_)
      ⟨done ++ [.drop lock], by simpa [hrest] using hpoint.steps, fun l => ?_, .inl ?_⟩
    · by_cases hl : l = lock
      · simp [hl, hheld, hc.symm]
      · simp [update_of_ne hl]
    · have hholder := hpoint.holder l
      rw [hrun] at hholder
      have hrun' : (s.locks.cpus cpu).current.phase = .running := hrun
      by_cases hl : l = lock
      · simp [hl, PtySystem.phase, LockSystem.putCpu, holding, hrun']
      · simpa [PtySystem.phase, LockSystem.putCpu, update_of_ne hl, holding, hrun', Ne.symm hl] using hholder
    · simpa [PtySystem.phase, LockSystem.putCpu] using hrun

end take

theorem Inv.step {event : PtyEvent} (h : Inv s) (hstep : s.step event = some t) (hapart : s.Apart event) : Inv t := by
  cases event with
  | start cpu op =>
    simp only [PtySystem.step, Option.ite_none_right_eq_some, Option.some.injEq] at hstep
    obtain ⟨hrest, rfl⟩ := hstep
    exact h.start hrest hapart
  | advance cpu =>
    obtain ⟨done, hpoint⟩ := h.point cpu
    simp only [PtySystem.step] at hstep
    split at hstep
    · cases hstep
    · rename_i lock rest hrest
      have hphase := hpoint.phase_eq hrest
      split at hstep <;> rename_i hnow <;> obtain ⟨locks, hlocks, rfl⟩ := Option.map_eq_some_iff.1 hstep
      · exact h.spin hrest hnow hlocks
      · exact h.acquire hrest (by simpa [hnow] using hphase) hlocks
      · exact h.record hrest (by simpa [hnow] using hphase) hlocks
    · rename_i lock rest hrest
      obtain ⟨locks, hlocks, rfl⟩ := Option.map_eq_some_iff.1 hstep
      exact h.drop hrest hlocks

/-- In a run in which no end is polled while the other one is, no two calls ever wait for the lock of each other. -/
theorem polls_apart_no_deadlock (h : (system.restrict Apart).Reachable s) : ¬s.Deadlock := by
  have hinv : Inv s := h.invariant (fun s hs => hs ▸ Inv.boot) fun s event t hinv hstep => hinv.step hstep.1 hstep.2
  exact hinv.not_deadlock

def quietStep (s : PtySystem) : PtyEvent → Option PtySystem
  | .start _ (.poll _) => none
  | event => s.step event

theorem quietStep_step {event : PtyEvent} (h : s.quietStep event = some t) : (system.restrict Apart).step s event t := by
  cases event with
  | start cpu op =>
    cases op with
    | poll => cases h
    | read | write | close => exact ⟨h, trivial⟩
  | advance cpu => exact ⟨h, trivial⟩

/-- The master is polled, and the `poll` waits for a lock that a `write` to the master holds. -/
theorem polls_apart_no_deadlock_waiting : ∃ s : PtySystem, s.locks.wants 0 = some input ∧ s.locks.holder output = some 0 ∧
    s.locks.holder input = some 1 ∧ ¬s.Deadlock := by
  have hpolled : (system.restrict Apart).step boot (.start 0 (.poll .master))
      { boot with op := update boot.op 0 (.poll .master), rest := update boot.rest 0 (PtyOp.poll .master).steps } :=
    ⟨rfl, fun c e' h => by cases h⟩
  have hplay : ((TransitionSystem.play quietStep
      { boot with op := update boot.op 0 (.poll .master), rest := update boot.rest 0 (PtyOp.poll .master).steps }
      [.start 1 (.write .master), .advance 1, .advance 1, .advance 1, .advance 0, .advance 0, .advance 0, .advance 0]).any
        fun s =>
      decide (s.locks.wants 0 = some input ∧ s.locks.holder output = some 0 ∧ s.locks.holder input = some 1)) = true := by
    decide +kernel
  obtain ⟨s, hreachable, hwants, hholder, hholder'⟩ := ((TransitionSystem.Reachable.init rfl).step hpolled).of_play
    quietStep_step hplay
  exact ⟨s, hwants, hholder, hholder', polls_apart_no_deadlock hreachable⟩

def crossedPolls : List PtyEvent :=
  [.start 0 (.poll .master), .start 1 (.poll .slave), .advance 0, .advance 0, .advance 0, .advance 1,
    .advance 1, .advance 1,
    .advance 0, .advance 1]

theorem crossed_polls_deadlock : ∃ s, system.Reachable s ∧ s.Deadlock := by
  have hplay : ((TransitionSystem.play PtySystem.step boot crossedPolls).any fun s =>
      decide (s.locks.wants 0 = some 0 ∧ s.locks.holder 0 = some 1 ∧ s.locks.wants 1 = some 1 ∧
        s.locks.holder 1 = some 0)) = true := by
    decide +kernel
  obtain ⟨s, hreachable, hwants, hholder, hwants', hholder'⟩ :=
    TransitionSystem.Reachable.of_play (m := system) (.init rfl) id hplay
  exact ⟨s, hreachable, 0, 1, 0, 1, by decide, hwants, hholder, hwants', hholder'⟩

end PtySystem

end SudoOS
