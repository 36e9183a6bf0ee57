import Mathlib

/-!
The broken-down time of the real-time clock. Numbers are 32 bits wide where the source has them so, and a sum that leaves
that width stops the kernel.
-/

namespace SudoOS

structure RtcFields where
  sec : Int
  min : Int
  hour : Int
  mday : Int
  mon : Int
  year : Int
  wday : Int
  yday : Int
  isdst : Int
deriving DecidableEq

namespace Rtc

def i32 (x : Int) : Option Int := if -2 ^ 31 ≤ x ∧ x < 2 ^ 31 then some x else none

def truncate (x : Int) : Int := (x + 2 ^ 31) % 2 ^ 32 - 2 ^ 31

def eraOf (length x : Int) : Option Int :=
  if 0 ≤ x then some (x.tdiv length) else (i32 (x - (length - 1))).map fun x => x.tdiv length

def daysFromCivil (y m d : Int) : Option Int := do
  let y ← i32 (if m ≤ 1 then y - 1 else y)
  let era ← eraOf 400 y
  let yoe := y - era * 400
  let doy := if m ≤ 1 then m * 31 + d - 1 else (153 * (m - 2) + 2).tdiv 5 + d - 1
  i32 (era * 146097 + yoe * 365 + yoe.tdiv 4 - yoe.tdiv 100 + doy)

def civilFromDays (z : Int) : Option (Int × Int × Int) := do
  let z ← i32 (z + 719468)
  let era ← eraOf 146097 z
  let doe := z - era * 146097
  let yoe := (doe - doe.tdiv 1460 + doe.tdiv 36524 - doe.tdiv 146096).tdiv 365
  let y := yoe + era * 400
  let doy := doe - (365 * yoe + yoe.tdiv 4 - yoe.tdiv 100)
  let mp := (5 * doy + 2).tdiv 153
  let d := doy - (153 * mp + 2).tdiv 5 + 1
  let m := if mp < 10 then mp + 3 else mp - 9
  let y := if m ≤ 2 then y + 1 else y
  return (y, m - 1, d)

def readTime (secs : Int) : Option RtcFields := do
  let daySecs := secs % 86400
  let days := truncate (secs.tdiv 86400)
  let (year, mon, mday) ← civilFromDays days
  let weekday ← i32 (days + 4)
  let first ← daysFromCivil year 0 1
  return {
    sec := daySecs % 60
    min := daySecs / 60 % 60
    hour := daySecs / 3600
    mday
    mon
    year := ← i32 (year - 1900)
    wday := weekday.tmod 7
    yday := ← i32 (days - first)
    isdst := 0 }

end Rtc

end SudoOS
