import SudoOS.Kernel.Time

/-! Sleeps that are never short, and ticks on a fixed grid. -/

namespace SudoOS

theorem toNat_halfRange : halfRange.toNat = 2 ^ 63 := by decide +kernel

/-! ### Durations -/

/-- The cycles that a duration takes, begun ones counted. -/
def cyclesOf (frequency : UInt64) (nanos : Nat) : Nat := (nanos * frequency.toNat + 999999999) / nanosPerSecond

theorem durationToCyclesRoundUp_eq {frequency : UInt64} {nanos : Nat} (hfrequency : frequency ≠ 0) (hnanos : nanos < 2 ^ 64)
    (hcycles : cyclesOf frequency nanos < 2 ^ 63) :
    durationToCyclesRoundUp frequency nanos = some (.ofNat (cyclesOf frequency nanos)) := by
  have hbound : nanos * frequency.toNat ≤ (2 ^ 64 - 1) * (2 ^ 64 - 1) :=
    Nat.mul_le_mul (Nat.le_sub_one_of_lt hnanos) (Nat.le_sub_one_of_lt frequency.toNat_lt)
  have hround : nanos * frequency.toNat + 999999999 < 2 ^ 128 := by omega
  have hlt : UInt64.ofNat (cyclesOf frequency nanos) < halfRange := by
    rw [UInt64.lt_iff_toNat_lt, toNat_halfRange, UInt64.toNat_ofNat', Nat.mod_eq_of_lt] <;> omega
  simp only [durationToCyclesRoundUp]
  rw [← cyclesOf, guard, if_pos hfrequency, guard, if_pos (by omega), guard, if_pos hround, guard, if_pos (by omega),
    guard, if_pos hlt]
  rfl

/-- The length of the cycles: at least what was asked for, and less than a cycle more. -/
theorem cyclesOf_length (frequency : UInt64) (nanos : Nat) :
    nanos * frequency.toNat ≤ cyclesOf frequency nanos * nanosPerSecond ∧
      cyclesOf frequency nanos * nanosPerSecond < nanos * frequency.toNat + nanosPerSecond := by
  rw [cyclesOf, nanosPerSecond]
  omega

theorem cyclesToNanoseconds_spec {frequency : UInt64} {nanos : Nat} (hfrequency : frequency ≠ 0) (hnanos : nanos < 2 ^ 64)
    (hcycles : cyclesOf frequency nanos < 2 ^ 63) :
    ∃ back, cyclesToNanoseconds frequency (.ofNat (cyclesOf frequency nanos)) = some back ∧ nanos ≤ back.toNat ∧
      (back.toNat - nanos) * frequency.toNat < nanosPerSecond := by
  obtain ⟨hleast, hmost⟩ := cyclesOf_length frequency nanos
  have hpos : 0 < frequency.toNat := Nat.pos_of_ne_zero fun h => hfrequency (UInt64.toNat_inj.1 h)
  have hcast : (UInt64.ofNat (cyclesOf frequency nanos)).toNat = cyclesOf frequency nanos := by
    rw [UInt64.toNat_ofNat', Nat.mod_eq_of_lt]
    omega
  have hlong : nanos ≤ cyclesOf frequency nanos * nanosPerSecond / frequency.toNat := (Nat.le_div_iff_mul_le hpos).2 hleast
  have hshort := Nat.div_mul_le_self (cyclesOf frequency nanos * nanosPerSecond) frequency.toNat
  simp only [cyclesToNanoseconds]
  rw [guard, if_pos hfrequency, hcast]
  refine ⟨_, rfl, ?_⟩
  generalize cyclesOf frequency nanos * nanosPerSecond / frequency.toNat = long at hlong hshort
  -- capped or not, the result lies between the duration and the length of its cycles
  have hback : ∀ back, nanos ≤ back → back ≤ long → nanos ≤ back ∧ (back - nanos) * frequency.toNat < nanosPerSecond := by
    intro back hle hback
    have hmul := Nat.mul_le_mul_right frequency.toNat hback
    refine ⟨hle, ?_⟩
    rw [Nat.sub_mul]
    omega
  split
  · rename_i hfits
    rw [UInt64.toNat_ofNat', Nat.mod_eq_of_lt hfits]
    exact hback long hlong le_rfl
  · rename_i hcap
    rw [UInt64.toNat_ofNat', Nat.mod_eq_of_lt (by omega)]
    exact hback _ (by omega) (by omega)

/-! ### The grid -/

section Grid

variable (start period : Nat)

def passed (time : Nat) : Nat := (time - start) / period

def boundaryAfter (time : Nat) : Nat := start + period * (passed start period time + 1)

def passedAt (time : Nat) : List Nat → List UInt64
  | [] => []
  | gap :: gaps => .ofNat (passed start period (time + gap) - passed start period time) :: passedAt (time + gap) gaps

/-- The boundaries passed between two interrupts span less than half the range of the counter, and no boundary that becomes
the deadline is 0 on the counter. -/
def Timely (time : Nat) : List Nat → Prop
  | [] => boundaryAfter start period time % 2 ^ 64 ≠ 0
  | gap :: gaps => boundaryAfter start period time % 2 ^ 64 ≠ 0 ∧
      period * (passed start period (time + gap) - passed start period time) < 2 ^ 63 ∧ Timely (time + gap) gaps

variable {start period} {time gap : Nat}

theorem time_lt_boundaryAfter (hperiod : 0 < period) (hstart : start ≤ time) : time < boundaryAfter start period time := by
  have := Nat.lt_mul_div_succ (time - start) hperiod
  rw [boundaryAfter, passed]
  omega

theorem boundaryAfter_le (period : Nat) (hstart : start ≤ time) : boundaryAfter start period time ≤ time + period := by
  have := Nat.mul_div_le (time - start) period
  rw [boundaryAfter, passed, Nat.mul_add_one]
  omega

/-- Before the next boundary none is passed. -/
theorem passed_eq_of_lt (hstart : start ≤ time) (h : time + gap < boundaryAfter start period time) :
    passed start period (time + gap) = passed start period time := by
  refine le_antisymm ?_ (Nat.div_le_div_right (by omega))
  rw [boundaryAfter] at h
  have hlt : time + gap - start < period * (passed start period time + 1) := by omega
  exact Nat.le_of_lt_succ (Nat.div_lt_of_lt_mul hlt)

theorem passed_eq_of_le (hperiod : 0 < period) (h : boundaryAfter start period time ≤ time + gap) :
    passed start period (time + gap) =
      passed start period time + ((time + gap - boundaryAfter start period time) / period + 1) := by
  rw [boundaryAfter] at h ⊢
  generalize passed start period time = n at h ⊢
  have hsplit : time + gap - start = time + gap - (start + period * (n + 1)) + period * (n + 1) := by omega
  rw [passed, hsplit, Nat.add_mul_div_left _ _ hperiod]
  omega

end Grid

/-! ### The counter -/

/-- The points of time on the counter. -/
theorem ofNat_sub_toNat {a b : Nat} (hle : b ≤ a) (hlt : a - b < 2 ^ 64) :
    (UInt64.ofNat a - UInt64.ofNat b).toNat = a - b := by
  rw [← UInt64.ofNat_sub hle, UInt64.toNat_ofNat', Nat.mod_eq_of_lt hlt]

theorem deadlineReached_ofNat {now deadline : Nat} (hnow : now < deadline + 2 ^ 63) (hdeadline : deadline < now + 2 ^ 63) :
    deadlineReached (.ofNat now) (.ofNat deadline) = decide (deadline ≤ now) := by
  have hdistance : (UInt64.ofNat now - UInt64.ofNat deadline).toNat =
      if deadline ≤ now then now - deadline else 2 ^ 64 - (deadline - now) := by
    split
    · exact ofNat_sub_toNat (by assumption) (by omega)
    · rw [UInt64.toNat_sub, UInt64.toNat_ofNat', UInt64.toNat_ofNat']
      omega
  have heq : UInt64.ofNat now = UInt64.ofNat deadline ↔ UInt64.ofNat now - UInt64.ofNat deadline = 0 := sub_eq_zero.symm
  rw [Bool.eq_iff_iff, deadlineReached, instantIsAfter]
  simp only [heq, Bool.or_eq_true, Bool.and_eq_true, decide_eq_true_eq, UInt64.lt_iff_toNat_lt, toNat_halfRange,
    ← UInt64.toNat_inj, hdistance, UInt64.toNat_zero, ne_eq]
  split <;> omega

namespace Clockevent

/-- The clock at a time: its deadline is the next boundary of the grid, and it has counted the boundaries passed. -/
structure OnGrid (c : Clockevent) (start period time : Nat) : Prop where
  frequency : c.clockFrequencyHz ≠ 0
  tickPeriod : c.tickPeriodCycles.toNat = period
  running : c.running = true
  active : c.schedulerTickActive = true
  deadline : c.nextSchedulerDeadline = .ofNat (boundaryAfter start period time)
  ticks : c.timerTicks = .ofNat (passed start period time)

variable {c : Clockevent} {start period time gap : Nat}

/-- What an overdue interrupt counts and how far it moves the deadline. -/
theorem OnGrid.elapsed_eq (h : OnGrid c start period time) (hperiod : 0 < period) (hstart : start ≤ time)
    (hgap : gap < 2 ^ 63) (hreached : boundaryAfter start period time ≤ time + gap) :
    (UInt64.ofNat (time + gap) - c.nextSchedulerDeadline) / c.tickPeriodCycles + 1 =
        .ofNat (passed start period (time + gap) - passed start period time) ∧
      period * (passed start period (time + gap) - passed start period time) ≤
        time + gap - boundaryAfter start period time + period := by
  have hafter := time_lt_boundaryAfter hperiod hstart
  have hpassed := passed_eq_of_le hperiod hreached
  rw [hpassed, Nat.add_sub_cancel_left]
  constructor
  · rw [h.deadline, UInt64.ofNat_add _ 1]
    congr 1
    rw [← UInt64.toNat_inj, UInt64.toNat_div, ofNat_sub_toNat hreached (by omega), h.tickPeriod, UInt64.toNat_ofNat',
      Nat.mod_eq_of_lt]
    exact lt_of_le_of_lt (Nat.div_le_self _ _) (by omega)
  · rw [Nat.mul_add_one]
    exact Nat.add_le_add_right (Nat.mul_div_le _ _) _

/-- An interrupt accounts the boundaries passed, unless they span half the range of the counter: then the check of the
deadline's advance fails. -/
theorem OnGrid.beginTimerInterrupt (h : OnGrid c start period time) (hperiod : 0 < period) (hsmall : period < 2 ^ 63)
    (hstart : start ≤ time) (hgap : gap < 2 ^ 63) :
    if period * (passed start period (time + gap) - passed start period time) < 2 ^ 63 then
      ∃ c', c.beginTimerInterrupt (.ofNat (time + gap)) =
          some (⟨.ofNat (time + gap), .ofNat (passed start period (time + gap) - passed start period time)⟩, c') ∧
        OnGrid c' start period (time + gap)
    else c.beginTimerInterrupt (.ofNat (time + gap)) = none := by
  have hafter := time_lt_boundaryAfter hperiod hstart
  have hbefore := boundaryAfter_le period hstart
  have hnonzero : c.tickPeriodCycles ≠ 0 := by
    rintro hzero
    rw [← h.tickPeriod, hzero] at hperiod
    exact lt_irrefl 0 hperiod
  have hreach : deadlineReached (.ofNat (time + gap)) c.nextSchedulerDeadline = decide (boundaryAfter start period time ≤
    time + gap) := by
    rw [h.deadline]
    exact deadlineReached_ofNat (by omega) (by omega)
  by_cases hreached : boundaryAfter start period time ≤ time + gap
  · obtain ⟨helapsed, hspan⟩ := h.elapsed_eq hperiod hstart hgap hreached
    have hle : passed start period time ≤ passed start period (time + gap) := by
      rw [passed_eq_of_le hperiod hreached]
      exact Nat.le_add_right _ _
    have hgrid : boundaryAfter start period (time + gap) =
        boundaryAfter start period time + period * (passed start period (time + gap) - passed start period time) := by
      rw [boundaryAfter, boundaryAfter, Nat.add_assoc, ← Nat.mul_add]
      congr 2
      omega
    generalize hn : passed start period (time + gap) - passed start period time = n at helapsed hspan hgrid ⊢
    have hn' : n < 2 ^ 64 := lt_of_le_of_lt (Nat.le_mul_of_pos_left n hperiod) (by omega)
    have htoNat : (UInt64.ofNat n).toNat = n := by rw [UInt64.toNat_ofNat', Nat.mod_eq_of_lt hn']
    have hadvance : c.tickPeriodCycles * UInt64.ofNat n = .ofNat (period * n) := by
      rw [UInt64.ofNat_mul, ← h.tickPeriod, UInt64.ofNat_toNat]
    have hmul : checkedMul c.tickPeriodCycles (.ofNat n) = some (.ofNat (period * n)) := by
      rw [checkedMul, h.tickPeriod, htoNat, guard, if_pos (by omega), hadvance]
      rfl
    have hcheck : UInt64.ofNat (period * n) < halfRange ↔ period * n < 2 ^ 63 := by
      rw [UInt64.lt_iff_toNat_lt, toNat_halfRange, UInt64.toNat_ofNat', Nat.mod_eq_of_lt (by omega)]
    simp only [Clockevent.beginTimerInterrupt, h.running, h.active, hreach, hreached, decide_true, if_true, helapsed, hmul,
      MonotonicInstant.wrappingAddCycles, guard, hcheck, hnonzero, not_false_eq_true, ne_eq, Option.pure_def,
      Option.bind_eq_bind, Option.bind_some]
    split
    · refine ⟨_, rfl, h.frequency, h.tickPeriod, rfl, rfl, ?_, ?_⟩
      · dsimp only
        rw [h.deadline, hgrid, UInt64.ofNat_add]
      · dsimp only
        rw [h.ticks, ← UInt64.ofNat_add]
        congr 1
        omega
    · rfl
  · have hpassed := passed_eq_of_lt hstart (not_le.1 hreached)
    have hgrid : boundaryAfter start period (time + gap) = boundaryAfter start period time := by
      rw [boundaryAfter, boundaryAfter, hpassed]
    rw [hpassed, Nat.sub_self, Nat.mul_zero, if_pos (by decide)]
    refine ⟨{ c with programmedDeadline := 0 }, ?_, h.frequency, h.tickPeriod, h.running, h.active, ?_, ?_⟩
    · generalize UInt64.ofNat (time + gap) = now at hreach ⊢
      simp [Clockevent.beginTimerInterrupt, h.running, h.active, hreach, hreached, hnonzero]
    · rw [hgrid]
      exact h.deadline
    · rw [hpassed]
      exact h.ticks

theorem programChosen_eq (hfrequency : c.clockFrequencyHz ≠ 0) (chosen current : MonotonicInstant) :
    ∃ safe, c.programChosen chosen current = some { c with programmedDeadline := safe } := by
  have hcycles : cyclesOf c.clockFrequencyHz minClockeventDeltaNs < 2 ^ 62 := by
    have := c.clockFrequencyHz.toNat_lt
    rw [cyclesOf, minClockeventDeltaNs, nanosPerSecond]
    omega
  have hdelta : c.minimumClockeventDeltaCycles =
    some (max (.ofNat (cyclesOf c.clockFrequencyHz minClockeventDeltaNs)) 1) := by
    rw [minimumClockeventDeltaCycles, durationToCyclesRoundUp_eq hfrequency (by decide) (by omega), Option.map_some]
  have hsmall : max (UInt64.ofNat (cyclesOf c.clockFrequencyHz minClockeventDeltaNs)) 1 < halfRange := by
    rw [show ∀ a b : UInt64, max a b = if a ≤ b then b else a from fun _ _ => rfl]
    split
    · decide +kernel
    · rw [UInt64.lt_iff_toNat_lt, toNat_halfRange, UInt64.toNat_ofNat', Nat.mod_eq_of_lt] <;> omega
  rw [programChosen, hdelta, Option.bind_eq_bind, Option.bind_some, MonotonicInstant.wrappingAddCycles, guard,
    if_pos hsmall]
  dsimp only
  split
  · exact ⟨_, rfl⟩
  · exact ⟨_, rfl⟩

theorem OnGrid.programmed {safe : UInt64} (h : OnGrid c start period time) :
    OnGrid { c with programmedDeadline := safe } start period time :=
  ⟨h.frequency, h.tickPeriod, h.running, h.active, h.deadline, h.ticks⟩

/-- The timer is set again unless the deadline is 0 on the counter. -/
theorem OnGrid.reprogramLocal (h : OnGrid c start period time) (software : Option MonotonicInstant)
    (current : MonotonicInstant) :
    (boundaryAfter start period time % 2 ^ 64 ≠ 0 → ∃ c', c.reprogramLocal software current = some c' ∧
      OnGrid c' start period time) ∧
      (boundaryAfter start period time % 2 ^ 64 = 0 → c.reprogramLocal software current = none) := by
  have hzero : c.nextSchedulerDeadline = 0 ↔ boundaryAfter start period time % 2 ^ 64 = 0 := by
    rw [h.deadline, ← UInt64.toNat_inj, UInt64.toNat_ofNat', UInt64.toNat_zero]
  rw [Clockevent.reprogramLocal.eq_def, if_neg (by rw [h.running]; decide), if_pos h.active]
  constructor
  · intro hne
    rw [if_neg fun hz => hne (hzero.1 hz)]
    cases software with
    | none =>
      obtain ⟨safe, hsafe⟩ := programChosen_eq h.frequency c.nextSchedulerDeadline current
      exact ⟨_, hsafe, h.programmed⟩
    | some software =>
      obtain ⟨safe, hsafe⟩ := programChosen_eq h.frequency (earlierDeadline c.nextSchedulerDeadline software) current
      exact ⟨_, hsafe, h.programmed⟩
  · exact fun hz => if_pos (hzero.2 hz)

theorem timely_boundary {gaps : List Nat} (h : Timely start period time gaps) :
    boundaryAfter start period time % 2 ^ 64 ≠ 0 := by
  cases gaps with
  | nil => exact h
  | cons gap gaps => exact h.1

/-- After the timer was set, the interrupts go through and account the boundaries passed just if they are timely. -/
theorem OnGrid.interrupts (hperiod : 0 < period) (hsmall : period < 2 ^ 63) {events : List (Nat × Reading)}
    (hgaps : ∀ event ∈ events, event.1 < 2 ^ 63) (h : OnGrid c start period time) (hstart : start ≤ time)
    (hset : boundaryAfter start period time % 2 ^ 64 ≠ 0) :
    (Timely start period time (events.map Prod.fst) → ∃ c',
        c.interrupts time events = some (passedAt start period time (events.map Prod.fst), c') ∧
        OnGrid c' start period (time + (events.map Prod.fst).sum)) ∧
      (¬ Timely start period time (events.map Prod.fst) → c.interrupts time events = none) := by
  induction events generalizing c time with
  | nil => exact ⟨fun _ => ⟨c, rfl, h⟩, fun hnot => absurd hset hnot⟩
  | cons event events ih =>
    obtain ⟨gap, reading⟩ := event
    have hstep := h.beginTimerInterrupt hperiod hsmall hstart (hgaps _ List.mem_cons_self)
    rw [Clockevent.interrupts, List.map_cons, Timely, passedAt, List.sum_cons, ← Nat.add_assoc, handleTimerInterrupt]
    split at hstep
    case isTrue hspan =>
      obtain ⟨c', hinterrupt, hgrid⟩ := hstep
      obtain ⟨hset', hzero⟩ := hgrid.reprogramLocal reading.softwareDeadline reading.current
      rw [hinterrupt]
      by_cases hnext : boundaryAfter start period (time + gap) % 2 ^ 64 = 0
      · refine ⟨fun htimely => absurd hnext (timely_boundary htimely.2.2), fun _ => ?_⟩
        simp [hzero hnext]
      · obtain ⟨c'', hreprogram, hgrid''⟩ := hset' hnext
        obtain ⟨hrun, hstop⟩ := ih (fun g hg => hgaps g (List.mem_cons_of_mem _ hg)) hgrid'' (by omega) hnext
        constructor
        · rintro ⟨-, -, htimely⟩
          obtain ⟨last, hrest, hend⟩ := hrun htimely
          refine ⟨last, ?_, hend⟩
          simp [hreprogram, hrest]
        · intro hnot
          simp [hreprogram, hstop fun htimely => hnot ⟨hset, hspan, htimely⟩]
    case isFalse hspan =>
      refine ⟨fun htimely => absurd htimely.2.1 hspan, fun _ => ?_⟩
      rw [hstep]
      rfl

theorem arm_spec {frequency : UInt64} (hinit : initializeClocksource frequency = some c) (start : Nat) (reading : Reading) :
    0 < c.tickPeriodCycles.toNat ∧ c.tickPeriodCycles.toNat < 2 ^ 63 ∧
      (boundaryAfter start c.tickPeriodCycles.toNat start % 2 ^ 64 ≠ 0 → ∃ armed,
        c.armSchedulerTickLocal (.ofNat start) reading = some armed ∧ OnGrid armed start c.tickPeriodCycles.toNat start) ∧
      (boundaryAfter start c.tickPeriodCycles.toNat start % 2 ^ 64 = 0 → c.armSchedulerTickLocal (.ofNat start) reading =
      none) := by
  have hperiod : frequency / ticksPerSecond ≠ 0 ∧ c.clockFrequencyHz = frequency ∧ c.tickPeriodCycles = frequency /
    ticksPerSecond ∧
      c.running = false := by
    rw [initializeClocksource] at hinit
    simp only [guard] at hinit
    split at hinit
    · rename_i hne
      cases hinit
      exact ⟨hne, rfl, rfl, rfl⟩
    · cases hinit
  obtain ⟨hne, hf, hc, hrunning⟩ := hperiod
  have hsmall : c.tickPeriodCycles.toNat < 2 ^ 63 := by
    have := frequency.toNat_lt
    rw [hc, UInt64.toNat_div]
    show frequency.toNat / 100 < 2 ^ 63
    omega
  have hlt : c.tickPeriodCycles < halfRange := by rwa [UInt64.lt_iff_toNat_lt, toNat_halfRange]
  have hnonzero : c.tickPeriodCycles ≠ 0 := hc ▸ hne
  have hfrequency : c.clockFrequencyHz ≠ 0 := by
    rintro hz
    rw [hf] at hz
    exact hne (by rw [hz]; rfl)
  have harm : c.armSchedulerTickLocal (.ofNat start) reading =
      (c.started (.ofNat start + c.tickPeriodCycles)).reprogramLocal reading.softwareDeadline reading.current := by
    simp only [armSchedulerTickLocal, MonotonicInstant.wrappingAddCycles, guard, hrunning, if_true, hnonzero, hlt, ne_eq,
      not_false_eq_true,
      Option.pure_def, Option.bind_eq_bind, Option.bind_some]
  have hgrid : OnGrid (c.started (.ofNat start + c.tickPeriodCycles)) start c.tickPeriodCycles.toNat start := by
    refine ⟨hfrequency, rfl, rfl, rfl, ?_, ?_⟩
    · rw [started, boundaryAfter, passed, Nat.sub_self, Nat.zero_div, Nat.zero_add, Nat.mul_one, UInt64.ofNat_add,
        UInt64.ofNat_toNat]
    · rw [started, passed, Nat.sub_self, Nat.zero_div]
      rfl
  rw [harm]
  exact ⟨Nat.pos_of_ne_zero fun hzero => hnonzero (UInt64.toNat_inj.1 hzero), hsmall, hgrid.reprogramLocal _ _⟩

end Clockevent

/-- A duration is slept in full and for less than a cycle more. The ticks are those of the grid that begins where the tick
was started, and the deadline is the next boundary, just if no interrupt is so late that the boundaries passed span half the
range of the counter, and no boundary that becomes the deadline is 0 on the counter. -/
theorem sleeps_full_and_ticks_on_grid_iff (frequency : UInt64) :
    (∀ nanos, frequency ≠ 0 → nanos < 2 ^ 64 → cyclesOf frequency nanos < 2 ^ 63 → ∃ cycles back,
      durationToCyclesRoundUp frequency nanos = some cycles ∧
      (∀ now, deadlineAfter frequency now nanos = some (now + cycles)) ∧
        cyclesToNanoseconds frequency cycles = some back ∧
        nanos ≤ back.toNat ∧ (back.toNat - nanos) * frequency.toNat < nanosPerSecond) ∧
      ∀ stopped, Clockevent.initializeClocksource frequency = some stopped →
        ∀ (start : Nat) (reading : Clockevent.Reading) (events : List (Nat × Clockevent.Reading)),
        (∀ event ∈ events, event.1 < 2 ^ 63) →
          ((∃ armed c, stopped.armSchedulerTickLocal (.ofNat start) reading = some armed ∧ armed.interrupts start events =
              some (passedAt start stopped.tickPeriodCycles.toNat start (events.map Prod.fst), c) ∧
            c.nextSchedulerDeadline =
              .ofNat (boundaryAfter start stopped.tickPeriodCycles.toNat (start + (events.map Prod.fst).sum)) ∧
            c.timerTicks = .ofNat (passed start stopped.tickPeriodCycles.toNat (start + (events.map Prod.fst).sum))) ↔
            Timely start stopped.tickPeriodCycles.toNat start (events.map Prod.fst)) := by
  constructor
  · intro nanos hfrequency hnanos hcycles
    obtain ⟨back, hback, hlong, hshort⟩ := cyclesToNanoseconds_spec hfrequency hnanos hcycles
    have hduration := durationToCyclesRoundUp_eq hfrequency hnanos hcycles
    have hhalf : UInt64.ofNat (cyclesOf frequency nanos) < halfRange := by
      rw [UInt64.lt_iff_toNat_lt, toNat_halfRange, UInt64.toNat_ofNat', Nat.mod_eq_of_lt (by omega)]
      exact hcycles
    refine ⟨_, back, hduration, fun now => ?_, hback, hlong, hshort⟩
    rw [deadlineAfter, hduration, Option.bind_eq_bind, Option.bind_some, MonotonicInstant.wrappingAddCycles, guard,
      if_pos hhalf]
    rfl
  · intro stopped hinit start reading events hgaps
    obtain ⟨hperiod, hsmall, hset, hzero⟩ := Clockevent.arm_spec hinit start reading
    by_cases hstart : boundaryAfter start stopped.tickPeriodCycles.toNat start % 2 ^ 64 = 0
    · refine ⟨?_, fun htimely => absurd hstart (Clockevent.timely_boundary htimely)⟩
      rintro ⟨armed, -, harm, -⟩
      cases (hzero hstart).symm.trans harm
    · obtain ⟨armed, harm, hgrid⟩ := hset hstart
      obtain ⟨hrun, hstop⟩ := hgrid.interrupts hperiod hsmall hgaps le_rfl hstart
      constructor
      · rintro ⟨armed', c, harm', hc, -⟩
        cases harm.symm.trans harm'
        by_contra hnot
        rw [hstop hnot] at hc
        cases hc
      · intro htimely
        obtain ⟨c, hc, hend⟩ := hrun htimely
        exact ⟨armed, c, harm, hc, hend.deadline, hend.ticks⟩

/-- A clock of 10 MHz: a nanosecond takes a cycle, and of two interrupts, the first early and the second late by two
periods, the second accounts three ticks. The counter wraps around between them. -/
theorem sleeps_full_and_ticks_on_grid_iff_ten_megahertz :
    (∃ cycles back, durationToCyclesRoundUp 10000000 1 = some cycles ∧ cyclesToNanoseconds 10000000 cycles = some back ∧
      1 ≤ back.toNat) ∧ ∃ stopped armed c, Clockevent.initializeClocksource 10000000 = some stopped ∧
        stopped.armSchedulerTickLocal (.ofNat (2 ^ 64 - 5)) ⟨none, 0⟩ = some armed ∧
        armed.interrupts (2 ^ 64 - 5) [(1, ⟨none, 0⟩), (300001, ⟨some 7, 0⟩)] = some ([0, 3], c) ∧ c.timerTicks = 3 := by
  obtain ⟨cycles, back, hcycles, -, hback, hlong, -⟩ :=
    (sleeps_full_and_ticks_on_grid_iff 10000000).1 1 (by decide) (by decide) (by decide +kernel)
  have htimely : Timely (2 ^ 64 - 5) 100000 (2 ^ 64 - 5) [1, 300001] := by
    unfold Timely Timely Timely
    decide +kernel
  obtain ⟨armed, c, harm, hrun, -, hticks⟩ := ((sleeps_full_and_ticks_on_grid_iff 10000000).2 _ rfl (2 ^ 64 - 5) ⟨none, 0⟩
    [(1, ⟨none, 0⟩), (300001, ⟨some 7, 0⟩)] (by decide +kernel)).2 htimely
  exact ⟨⟨cycles, back, hcycles, hback, hlong⟩, _, armed, c, rfl, harm, hrun, hticks⟩

/-- A clock of 200 Hz: the second interrupt comes one cycle less than half the range after the first, and the check of the
deadline's advance fails. -/
theorem late_interrupt_panics :
    (∀ gap ∈ [1, 2 ^ 63 - 1], gap < 2 ^ 63) ∧
      ∃ stopped armed, Clockevent.initializeClocksource 200 = some stopped ∧
        stopped.armSchedulerTickLocal (.ofNat 0) ⟨none, 0⟩ = some armed ∧
        armed.interrupts 0 [(1, ⟨none, 1⟩), (2 ^ 63 - 1, ⟨none, 2 ^ 63⟩)] = none := by
  refine ⟨by decide +kernel, _, _, rfl, rfl, ?_⟩
  decide +kernel

/-- The same clock, started two cycles before the counter wraps around: the deadline is 0 and taken for none. -/
theorem zero_deadline_panics : ∃ stopped, Clockevent.initializeClocksource 200 = some stopped ∧
    ∀ reading, stopped.armSchedulerTickLocal (.ofNat (2 ^ 64 - 2)) reading = none :=
  ⟨_, rfl, fun _ => rfl⟩

end SudoOS
