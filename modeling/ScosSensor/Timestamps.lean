import ScosSensor.Doubles
import ScosSensor.TaskExecution

/-!
# Timestamps and datetimes

The tables hold whole seconds of the epoch, the API datetimes of the years 1 to
9999 in UTC. A datetime becomes a timestamp through a double, which drops the
fraction of the second, except for the last fifteen microseconds of the last
year: there the double is already the next year, and no datetime comes back. Nor
does one for the first day of the first year, whose day before has no date.
-/
namespace ScosSensor

/-- A UTC datetime of the years 1 to 9999, in microseconds of the epoch. -/
structure Datetime where
  micros : ℤ
  first : -62135596800000000 ≤ micros
  last : micros < 253402300800000000
  deriving DecidableEq

/-- `int(dt.timestamp())`: the seconds are divided out into a double. -/
def getTimestampFromDatetime (dt : Datetime) : ℤ :=
  Doubles.truncate (Doubles.ofRat ((dt.micros : ℚ) / 1000000))

/-- `datetime.fromtimestamp(ts)`, which raises after the year 9999 and, looking back
by a day for a fold, before the second day of the year 1. -/
def getDatetimeFromTimestamp (ts : ℤ) : Option Datetime :=
  if h : -62135510400 ≤ ts ∧ ts ≤ 253402300799 then
    some ⟨ts * 1000000, by omega, by omega⟩
  else none

namespace Datetime

variable (dt : Datetime)

theorem seconds_bounds :
    -62135596800 ≤ (dt.micros : ℚ) / 1000000 ∧ (dt.micros : ℚ) / 1000000 < 253402300800 := by
  have hfirst : (-62135596800000000 : ℚ) ≤ dt.micros := by exact_mod_cast dt.first
  have hlast : (dt.micros : ℚ) < 253402300800000000 := by exact_mod_cast dt.last
  constructor
  · rw [le_div_iff₀ (by norm_num)]
    linarith
  · rw [div_lt_iff₀ (by norm_num)]
    linarith

/-- The seconds of a datetime are far below the integers that doubles skip. -/
theorem abs_seconds_lt : |(dt.micros : ℚ) / 1000000| < 2 ^ 53 := by
  obtain ⟨hfirst, hlast⟩ := dt.seconds_bounds
  rw [abs_lt]
  constructor <;> linarith

/-- A datetime leaves the last year in its last fifteen microseconds. -/
theorem timestamp_le_iff :
    getTimestampFromDatetime dt ≤ 253402300799 ↔ dt.micros < 253402300799999985 := by
  have hlast := dt.seconds_bounds.2
  rw [← not_iff_not, not_le, not_lt, ← Int.add_one_le_iff, getTimestampFromDatetime,
    Doubles.le_truncate_iff (by norm_num)]
  by_cases hlate : (137438953472 : ℚ) ≤ (dt.micros : ℚ) / 1000000
  · -- There the doubles are 2 ^ -15 seconds apart.
    have habs : |(dt.micros : ℚ) / 1000000| = (dt.micros : ℚ) / 1000000 := abs_of_pos (by linarith)
    have hulp : Doubles.ulp ((dt.micros : ℚ) / 1000000) = 1 / 32768 := by
      rw [@Doubles.ulp_eq _ 37 (by rw [habs]; norm_num; exact hlate)
        (by rw [habs]; norm_num; linarith)]
      norm_num
    have hunit : Doubles.ulp ((dt.micros : ℚ) / 1000000) * 2 ^ (14 + 1) = 1 := by
      rw [hulp]
      norm_num
    rw [Doubles.le_ofRat_iff hunit, hulp, le_div_iff₀ (by norm_num)]
    constructor
    · intro h
      by_contra hlt
      have hint : dt.micros ≤ 253402300799999984 := by omega
      have hcast : (dt.micros : ℚ) ≤ 253402300799999984 := by exact_mod_cast hint
      norm_num at h
      linarith
    · intro h
      have hcast : (253402300799999985 : ℚ) ≤ dt.micros := by exact_mod_cast h
      norm_num
      linarith
  · have hearly : (dt.micros : ℚ) / 1000000 ≤ ((137438953472 : ℤ) : ℚ) := by
      push_cast
      linarith
    have hround := Doubles.ofRat_le dt.abs_seconds_lt hearly
    have hmicros : (dt.micros : ℚ) ≤ 137438953472000000 := by
      rw [not_le, div_lt_iff₀ (by norm_num)] at hlate
      linarith
    have hint : dt.micros ≤ 137438953472000000 := by exact_mod_cast hmicros
    constructor
    · intro h
      push_cast at h hround
      linarith
    · intro h
      omega

/-- A datetime of the first day is truncated into the second in its last second, but
for the first four microseconds of that. -/
theorem le_timestamp_iff :
    -62135510400 ≤ getTimestampFromDatetime dt ↔ -62135510400999996 ≤ dt.micros := by
  have hfirst := dt.seconds_bounds.1
  rw [← not_iff_not, not_le, not_le, ← Int.le_sub_one_iff, getTimestampFromDatetime,
    Doubles.truncate_le_iff (by norm_num)]
  by_cases hearly : (dt.micros : ℚ) / 1000000 ≤ -34359738368
  · -- There the doubles are 2 ^ -17 seconds apart.
    have habs : |(dt.micros : ℚ) / 1000000| = -((dt.micros : ℚ) / 1000000) :=
      abs_of_neg (by linarith)
    have hulp : Doubles.ulp ((dt.micros : ℚ) / 1000000) = 1 / 131072 := by
      rw [@Doubles.ulp_eq _ 35 (by rw [habs]; norm_num; linarith)
        (by rw [habs]; norm_num; linarith)]
      norm_num
    have hunit : Doubles.ulp ((dt.micros : ℚ) / 1000000) * 2 ^ (16 + 1) = 1 := by
      rw [hulp]
      norm_num
    rw [Doubles.ofRat_le_iff hunit, hulp, div_le_iff₀ (by norm_num)]
    constructor
    · intro h
      by_contra hlt
      have hcast : (-62135510400999996 : ℚ) ≤ dt.micros := by
        exact_mod_cast not_lt.mp hlt
      norm_num at h
      linarith
    · intro h
      have hint : dt.micros ≤ -62135510400999997 := by omega
      have hcast : (dt.micros : ℚ) ≤ -62135510400999997 := by exact_mod_cast hint
      norm_num
      linarith
  · have hlate : ((-34359738368 : ℤ) : ℚ) ≤ (dt.micros : ℚ) / 1000000 := by
      push_cast
      linarith
    have hround := Doubles.le_ofRat dt.abs_seconds_lt hlate
    have hmicros : (-34359738368000000 : ℚ) ≤ dt.micros := by
      rw [not_le, lt_div_iff₀ (by norm_num)] at hearly
      linarith
    have hint : -34359738368000000 ≤ dt.micros := by exact_mod_cast hmicros
    constructor
    · intro h
      push_cast at h hround
      linarith
    · intro h
      omega

/-- A whole second is its own timestamp. -/
theorem timestamp_of_seconds {ts : ℤ} (h : dt.micros = ts * 1000000) :
    getTimestampFromDatetime dt = ts := by
  have hseconds : (dt.micros : ℚ) / 1000000 = ts := by
    rw [h]
    push_cast
    field_simp
  have hlt := dt.abs_seconds_lt
  rw [getTimestampFromDatetime, hseconds, Doubles.ofRat_intCast (hseconds ▸ hlt),
    Doubles.truncate_intCast]

end Datetime

theorem representable_iff {ts : ℤ} :
    representable ts = true ↔ -62135510400 ≤ ts ∧ ts ≤ 253402300799 := by
  simp [representable]

/-- The datetimes whose timestamps a column gives back. -/
theorem Datetime.representable_iff (dt : Datetime) :
    representable (getTimestampFromDatetime dt) = true ↔
      -62135510400999996 ≤ dt.micros ∧ dt.micros < 253402300799999985 := by
  rw [ScosSensor.representable_iff, dt.le_timestamp_iff, dt.timestamp_le_iff]

/-- What can be represented is what `datetime.fromtimestamp` returns for. -/
theorem isSome_getDatetimeFromTimestamp {ts : ℤ} :
    (getDatetimeFromTimestamp ts).isSome = representable ts := by
  rw [Bool.eq_iff_iff, representable_iff]
  unfold getDatetimeFromTimestamp
  split_ifs with h <;> simp [h]

/-- The two conversions of `sensor.utils` are inverse on whole seconds. -/
theorem timestamp_getDatetimeFromTimestamp {ts : ℤ} {dt : Datetime}
    (h : getDatetimeFromTimestamp ts = some dt) : getTimestampFromDatetime dt = ts := by
  unfold getDatetimeFromTimestamp at h
  split_ifs at h
  obtain rfl := Option.some.inj h
  exact Datetime.timestamp_of_seconds _ rfl

end ScosSensor
