import Mathlib

/-! The wrapping counter, the lengths of time measured with it, and the scheduler's tick. A failed check of the source is
`none`. -/

namespace SudoOS

def ticksPerSecond : UInt64 := 100

def halfRange : UInt64 := .ofNat (2 ^ 63)

def nanosPerSecond : Nat := 1000000000

def minClockeventDeltaNs : Nat := 1000

/-- A point on the counter. There is no order on the points; two points less than half the range apart can be told apart. -/
abbrev MonotonicInstant := UInt64

namespace MonotonicInstant

def wrappingAddCycles (self : MonotonicInstant) (cycles : UInt64) : Option MonotonicInstant := do
  guard (cycles < halfRange)
  return self + cycles

end MonotonicInstant

def instantIsAfter (left right : MonotonicInstant) : Bool :=
  let distance := left - right
  distance ≠ 0 && distance < halfRange

def instantIsBefore (left right : MonotonicInstant) : Bool := instantIsAfter right left

def earlierDeadline (left right : MonotonicInstant) : MonotonicInstant := if instantIsBefore left right then left else right

def deadlineReached (now deadline : MonotonicInstant) : Bool := now = deadline || instantIsAfter now deadline

/-! ### Durations -/

def durationToCyclesRoundUp (frequency : UInt64) (nanos : Nat) : Option UInt64 := do
  guard (frequency ≠ 0)
  let numerator := nanos * frequency.toNat
  guard (numerator < 2 ^ 128)
  guard (numerator + 999999999 < 2 ^ 128)
  let cycles := (numerator + 999999999) / nanosPerSecond
  guard (cycles < 2 ^ 64)
  guard (UInt64.ofNat cycles < halfRange)
  return UInt64.ofNat cycles

def deadlineAfter (frequency : UInt64) (now : MonotonicInstant) (nanos : Nat) : Option MonotonicInstant := do
  now.wrappingAddCycles (← durationToCyclesRoundUp frequency nanos)

def cyclesToNanoseconds (frequency cycles : UInt64) : Option UInt64 := do
  guard (frequency ≠ 0)
  let nanoseconds := cycles.toNat * nanosPerSecond / frequency.toNat
  return if nanoseconds < 2 ^ 64 then UInt64.ofNat nanoseconds else .ofNat (2 ^ 64 - 1)

/-! ### The tick -/

/-- What the clock keeps for one CPU, with the frequency and the period that all CPUs share. -/
structure Clockevent where
  clockFrequencyHz : UInt64
  tickPeriodCycles : UInt64
  running : Bool
  schedulerTickActive : Bool
  nextSchedulerDeadline : UInt64
  programmedDeadline : UInt64
  timerTicks : UInt64
deriving DecidableEq

structure TimerInterrupt where
  now : MonotonicInstant
  elapsedTicks : UInt64
deriving DecidableEq

namespace Clockevent

def checkedMul (a b : UInt64) : Option UInt64 := do
  guard (a.toNat * b.toNat < 2 ^ 64)
  return a * b

def initializeClocksource (frequency : UInt64) : Option Clockevent := do
  let period := frequency / ticksPerSecond
  guard (period ≠ 0)
  return {
    clockFrequencyHz := frequency, tickPeriodCycles := period, running := false, schedulerTickActive := false,
    nextSchedulerDeadline := 0, programmedDeadline := 0, timerTicks := 0 }

def minimumClockeventDeltaCycles (c : Clockevent) : Option UInt64 :=
  (durationToCyclesRoundUp c.clockFrequencyHz minClockeventDeltaNs).map (max · 1)

/-- The timer is set to `chosen`, or as early as it can be set; `current` is the counter as it is read for that. -/
def programChosen (c : Clockevent) (chosen current : MonotonicInstant) : Option Clockevent := do
  let minimumDelta ← c.minimumClockeventDeltaCycles
  let distance := chosen - current
  if distance < minimumDelta ∨ halfRange ≤ distance then
    return { c with programmedDeadline := ← current.wrappingAddCycles minimumDelta }
  else return { c with programmedDeadline := chosen }

/-- The timer is set to the earlier of the tick's deadline, which must not be 0, and that of the software timers. -/
def reprogramLocal (c : Clockevent) (softwareDeadline : Option MonotonicInstant) (current : MonotonicInstant) :
    Option Clockevent :=
  if c.running = false then some c
  else if c.schedulerTickActive then
    if c.nextSchedulerDeadline = 0 then none
    else
      match softwareDeadline with
      | some software => c.programChosen (earlierDeadline c.nextSchedulerDeadline software) current
      | none => c.programChosen c.nextSchedulerDeadline current
  else
    match softwareDeadline with
    | some software => c.programChosen software current
    | none => some { c with programmedDeadline := 0 }

/-- What the environment gives to a call that sets the timer: the earliest software timer, and the counter as it is read
last. -/
structure Reading where
  softwareDeadline : Option MonotonicInstant
  current : MonotonicInstant

/-- The tick runs, from a deadline on. -/
def started (c : Clockevent) (deadline : MonotonicInstant) : Clockevent :=
  { c with running := true, timerTicks := 0, nextSchedulerDeadline := deadline, schedulerTickActive := true }

def armSchedulerTickLocal (c : Clockevent) (now : MonotonicInstant) (reading : Reading) : Option Clockevent := do
  guard (c.running = false)
  guard (c.tickPeriodCycles ≠ 0)
  let deadline ← now.wrappingAddCycles c.tickPeriodCycles
  (c.started deadline).reprogramLocal reading.softwareDeadline reading.current

def beginTimerInterrupt (c : Clockevent) (current : MonotonicInstant) : Option (TimerInterrupt × Clockevent) := do
  guard (c.running = true)
  let c := { c with programmedDeadline := 0 }
  if c.schedulerTickActive then
    let period := c.tickPeriodCycles
    guard (period ≠ 0)
    let scheduled := c.nextSchedulerDeadline
    if deadlineReached current scheduled then
      let overdue := current - scheduled
      let elapsed := overdue / period + 1
      let advance ← checkedMul period elapsed
      let next ← MonotonicInstant.wrappingAddCycles scheduled advance
      return (⟨current, elapsed⟩, { c with nextSchedulerDeadline := next, timerTicks := c.timerTicks + elapsed })
    else return (⟨current, 0⟩, c)
  else return (⟨current, 0⟩, c)

def handleTimerInterrupt (c : Clockevent) (current : MonotonicInstant) (reading : Reading) :
    Option (UInt64 × Clockevent) := do
  let (event, c) ← c.beginTimerInterrupt current
  let c ← c.reprogramLocal reading.softwareDeadline reading.current
  return (event.elapsedTicks, c)

/-- Timer interrupts, each a number of cycles after the one before it, from a time that does not wrap. -/
def interrupts (c : Clockevent) (time : Nat) : List (Nat × Reading) → Option (List UInt64 × Clockevent)
  | [] => some ([], c)
  | (gap, reading) :: events => do
    let (elapsed, c) ← c.handleTimerInterrupt (.ofNat (time + gap)) reading
    let (ticks, c) ← c.interrupts (time + gap) events
    return (elapsed :: ticks, c)

end Clockevent

end SudoOS
