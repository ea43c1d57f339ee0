import Mathlib.Data.Int.Basic
import Mathlib.Data.List.Nodup
import Mathlib.Data.Set.Basic
import Mathlib.Order.Bounds.Basic
import Mathlib.Tactic.Linarith
import Mathlib.Tactic.Ring

/-!
# Python's `range`, `count` and range iterators

A `range` with a positive step is an arithmetic progression below its stop. It
has a length, supports indexing and decides membership by arithmetic. The
unbounded `itertools.count` and an iterator over a range have neither, and
membership walks along them.
-/
namespace ScosSensor

/-- `range(start, stop, step)`; every step in this program is positive. -/
structure PyRange where
  start : ℤ
  stop : ℤ
  step : ℤ
  deriving Repr, DecidableEq

namespace PyRange

/-- `len(r)` for a positive step. -/
def length (r : PyRange) : ℕ := ((r.stop - r.start + r.step - 1) / r.step).toNat

/-- `r[k]`, without the bound check. -/
def get (r : PyRange) (k : ℕ) : ℤ := r.start + k * r.step

/-- `r[-1]` of a nonempty range. -/
def last (r : PyRange) : ℤ := r.get (r.length - 1)

def toList (r : PyRange) : List ℤ := (List.range r.length).map r.get

/-- `x in r`. -/
def contains (r : PyRange) (x : ℤ) : Bool :=
  decide (r.start ≤ x) && decide (x < r.stop) && decide ((x - r.start) % r.step = 0)

/-- The values of the range as a set. -/
def values (r : PyRange) : Set ℤ := {t | ∃ k : ℕ, t = r.get k ∧ t < r.stop}

variable {r : PyRange}

theorem lt_length_iff (hstep : 0 < r.step) (k : ℕ) : k < r.length ↔ r.get k < r.stop := by
  unfold length get
  rw [Int.lt_toNat, ← Int.add_one_le_iff, Int.le_ediv_iff_mul_le hstep]
  constructor <;> intro h <;> nlinarith

theorem mem_toList (hstep : 0 < r.step) (t : ℤ) : t ∈ r.toList ↔ t ∈ r.values := by
  simp only [toList, List.mem_map, List.mem_range, lt_length_iff hstep]
  constructor
  · rintro ⟨k, hk, rfl⟩
    exact ⟨k, rfl, hk⟩
  · rintro ⟨k, rfl, hk⟩
    exact ⟨k, hk, rfl⟩

theorem contains_iff (hstep : 0 < r.step) (x : ℤ) : r.contains x = true ↔ x ∈ r.values := by
  simp only [contains, Bool.and_eq_true, decide_eq_true_eq]
  constructor
  · rintro ⟨⟨hlo, hhi⟩, hmod⟩
    obtain ⟨q, hq⟩ := Int.dvd_of_emod_eq_zero hmod
    have hq0 : 0 ≤ q := by nlinarith
    exact ⟨q.toNat, by rw [get, Int.toNat_of_nonneg hq0]; linarith, hhi⟩
  · rintro ⟨k, rfl, hlt⟩
    have hk : 0 ≤ (k : ℤ) * r.step := by positivity
    refine ⟨⟨by unfold get; linarith, hlt⟩, ?_⟩
    rw [get, add_sub_cancel_left]
    exact Int.mul_emod_left _ _

theorem length_eq_zero_iff (hstep : 0 < r.step) : r.length = 0 ↔ r.values = ∅ := by
  constructor
  · intro h
    refine Set.eq_empty_of_forall_notMem ?_
    rintro t ⟨k, rfl, hlt⟩
    have := (lt_length_iff hstep k).mpr hlt
    omega
  · intro h
    by_contra hne
    have hmem : r.get 0 ∈ r.values :=
      ⟨0, rfl, (lt_length_iff hstep 0).mp (Nat.pos_of_ne_zero hne)⟩
    simp [h] at hmem

/-- In a nonempty range `r[-1]` is the largest value. -/
theorem isGreatest_last (hstep : 0 < r.step) (hne : r.length ≠ 0) :
    IsGreatest r.values r.last := by
  constructor
  · exact ⟨r.length - 1, rfl, (lt_length_iff hstep _).mp (by omega)⟩
  · rintro t ⟨k, rfl, hlt⟩
    have hk : k ≤ r.length - 1 := by
      have := (lt_length_iff hstep k).mpr hlt
      omega
    have hcast : (k : ℤ) ≤ ((r.length - 1 : ℕ) : ℤ) := by exact_mod_cast hk
    unfold last get
    nlinarith

/-- A range is as long as the number of steps that take it to its stop. -/
theorem length_le_iff (hstep : 0 < r.step) (n : ℕ) : r.length ≤ n ↔ r.stop ≤ r.get n := by
  rw [← not_iff_not, not_le, not_le]
  exact lt_length_iff hstep n

theorem length_toList (r : PyRange) : r.toList.length = r.length := by simp [toList]

theorem nodup_toList (hstep : 0 < r.step) : r.toList.Nodup := by
  apply List.Nodup.map _ List.nodup_range
  intro k k' h
  unfold get at h
  have hmul : (k : ℤ) * r.step = k' * r.step := by linarith
  exact_mod_cast mul_right_cancel₀ hstep.ne' hmul

end PyRange

/-- What `get_remaining_times` returns. -/
inductive Times where
  | range (r : PyRange)
  | count (start step : ℤ)
  | iter (r : PyRange)
  deriving Repr, DecidableEq

namespace Times

/-- `range(0)`. -/
def empty : Times := .range ⟨0, 0, 1⟩

/-- `x in times`. A `count` is walked for at most `fuel` values; `none` means
that the walk has not ended. -/
def contains (x : ℤ) : ℕ → Times → Option Bool
  | _, .range r => some (r.contains x)
  | _, .iter r => some (r.toList.contains x)
  | 0, .count _ _ => none
  | fuel + 1, .count start step =>
    if x = start then some true else contains x fuel (.count (start + step) step)

/-- The values of a walk to the end, when there is one. -/
def toList? : Times → Option (List ℤ)
  | .range r => some r.toList
  | .count _ _ => none
  | .iter r => some r.toList

/-- The values that iterating yields. -/
def values : Times → Set ℤ
  | .range r => r.values
  | .count start step => {t | ∃ k : ℕ, t = start + k * step}
  | .iter r => r.values

end Times

end ScosSensor
