import ScosSensor.PyRange
import Mathlib.Data.PNat.Basic

/-!
# Schedule entries

A row of the schedule table and the methods that consume its task times. The
times themselves are never stored: `next_task_time` moves along the lazy range
from `start`, and a one-shot entry is consumed by clearing `is_active`. An
interval is null or at least one, as the field validator demands, so it is kept
as a positive number.
-/
namespace ScosSensor

/-- The columns of `ScheduleEntry` that the scheduler reads or writes. The
priority of a row defaults to ten and a new row issues task ids from one. -/
structure ScheduleEntry where
  name : String
  action : String
  priority : ℤ := 10
  start : ℤ
  stop : Option ℤ := none
  interval : Option ℕ+ := none
  isActive : Bool := true
  callbackUrl : Option String := none
  nextTaskTime : ℤ
  nextTaskId : ℕ := 1
  owner : String
  deriving Repr, DecidableEq

/-- The arithmetic progression of an interval, or the single time of none. -/
def grid (base : ℤ) : Option ℕ+ → Set ℤ
  | some interval => {t | ∃ k : ℕ, t = base + k * (interval : ℤ)}
  | none => {base}

namespace ScheduleEntry

/-- The range branch of `get_remaining_times`, once `stop` is known. Without an
interval the whole slice is the step, so that only the first time is left. -/
def rangeUntil (e : ScheduleEntry) (stop : ℤ) : PyRange :=
  let timeSlice := stop - e.nextTaskTime
  if timeSlice ≤ 0 then ⟨0, 0, 1⟩
  else ⟨e.nextTaskTime, stop, e.interval.elim timeSlice fun i => (i : ℤ)⟩

/-- `get_remaining_times(until)`. -/
def getRemainingTimes (e : ScheduleEntry) (until? : Option ℤ) : Times :=
  if e.isActive then
    match until?, e.stop with
    | none, none =>
      match e.interval with
      | some interval => .count e.nextTaskTime interval
      | none => .iter ⟨e.nextTaskTime, e.nextTaskTime + 1, 1⟩
    | none, some stop => .range (e.rangeUntil stop)
    | some t, none => .range (e.rangeUntil t)
    | some t, some stop => .range (e.rangeUntil (min t stop))
  else .empty

/-- `take_until(t)`. A bounded request is always answered by a range. -/
def takeUntil (e : ScheduleEntry) (t : ℤ) : PyRange × ScheduleEntry :=
  match e.getRemainingTimes (some t) with
  | .range times =>
    if times.length ≠ 0 then
      match e.interval with
      | some interval => (times, { e with nextTaskTime := times.last + interval })
      | none => (times, { e with isActive := false })
    else (times, e)
  | _ => (⟨0, 0, 1⟩, e)

/-- `take_pending()` when `timefn` reads `now`. -/
def takePending (e : ScheduleEntry) (now : ℤ) : PyRange × ScheduleEntry := e.takeUntil (now + 1)

/-- `has_remaining_times()`. The membership test is over after one value of a
lazy iterator: see `contains_getRemainingTimes`. -/
def hasRemainingTimes (e : ScheduleEntry) : Bool :=
  ((e.getRemainingTimes none).contains e.nextTaskTime 1).getD false

/-- `get_next_task_id()`. -/
def getNextTaskId (e : ScheduleEntry) : ℕ × ScheduleEntry :=
  (e.nextTaskId, { e with nextTaskId := e.nextTaskId + 1 })

/-- The scheduled times of an entry: its grid from `start`, below `stop`. -/
def scheduledTimes (e : ScheduleEntry) : Set ℤ :=
  {t | t ∈ grid e.start e.interval ∧ ∀ stop, e.stop = some stop → t < stop}

/-- The times an entry can still be asked for. -/
def remaining (e : ScheduleEntry) : Set ℤ :=
  {t | e.isActive = true ∧ t ∈ grid e.nextTaskTime e.interval ∧
    ∀ stop, e.stop = some stop → t < stop}

variable {e : ScheduleEntry} {t x stop now : ℤ}

theorem rangeUntil_step (e : ScheduleEntry) (stop : ℤ) : 0 < (e.rangeUntil stop).step := by
  unfold rangeUntil
  dsimp only
  split_ifs with h
  · exact Int.one_pos
  · cases e.interval with
    | none => simpa using h
    | some i => simp

/-- The range holds the grid below its stop, for every kind of entry. -/
theorem mem_rangeUntil : t ∈ (e.rangeUntil stop).values ↔
    t ∈ grid e.nextTaskTime e.interval ∧ t < stop := by
  unfold rangeUntil PyRange.values PyRange.get grid
  dsimp only
  split_ifs with h
  · simp only [Set.mem_ofPred_eq, zero_add, mul_one]
    constructor
    · rintro ⟨k, rfl, hk⟩
      omega
    · rintro ⟨hgrid, hlt⟩
      cases hi : e.interval with
      | none =>
        obtain rfl : t = e.nextTaskTime := by simpa [hi] using hgrid
        omega
      | some i =>
        obtain ⟨k, rfl⟩ : ∃ k : ℕ, t = e.nextTaskTime + k * (i : ℤ) := by simpa [hi] using hgrid
        have hpos : 0 ≤ (k : ℤ) * (i : ℤ) := by positivity
        omega
  · cases e.interval with
    | some i => simp only [Option.elim, Set.mem_ofPred_eq, exists_and_right]
    | none =>
      simp only [Option.elim, Set.mem_ofPred_eq, Set.mem_singleton_iff]
      constructor
      · rintro ⟨k, rfl, hk⟩
        have hk0 : k = 0 := by
          by_contra hne
          have h1 : (1 : ℤ) ≤ k := by exact_mod_cast Nat.one_le_iff_ne_zero.mpr hne
          nlinarith
        exact ⟨by simp [hk0], hk⟩
      · rintro ⟨rfl, hlt⟩
        exact ⟨0, by simp, hlt⟩

theorem values_getRemainingTimes (e : ScheduleEntry) :
    (e.getRemainingTimes none).values = e.remaining := by
  ext t
  unfold getRemainingTimes remaining
  by_cases ha : e.isActive = true
  · cases hs : e.stop with
    | some stop => simp [ha, Times.values, mem_rangeUntil]
    | none =>
      cases hi : e.interval with
      | some i => simp [ha, Times.values, grid]
      | none =>
        simp only [ha, if_true, Times.values, PyRange.values, PyRange.get, Set.mem_ofPred_eq, grid,
          Set.mem_singleton_iff, mul_one]
        constructor
        · rintro ⟨k, rfl, hk⟩
          exact ⟨trivial, by omega, by simp⟩
        · rintro ⟨-, rfl, -⟩
          exact ⟨0, by simp, by omega⟩
  · simp only [ha, Bool.false_eq_true, if_false, Times.empty, Times.values, PyRange.values,
      PyRange.get, Set.mem_ofPred_eq, false_and, iff_false]
    rintro ⟨k, rfl, hk⟩
    omega

/-- A bounded request is answered by the range that `take_until` takes. -/
theorem getRemainingTimes_some (e : ScheduleEntry) (t : ℤ) :
    e.getRemainingTimes (some t) = .range (e.takeUntil t).1 := by
  unfold takeUntil
  split
  · rename_i times htimes
    rw [htimes]
    split_ifs
    · cases e.interval <;> rfl
    · rfl
  · rename_i hne
    unfold getRemainingTimes at hne
    split_ifs at hne
    · cases hstop : e.stop <;> simp [hstop] at hne
    · simp [Times.empty] at hne

/-- The range that `take_until` returns holds the remaining times before `t`. -/
theorem mem_takeUntil : x ∈ (e.takeUntil t).1.values ↔ x ∈ e.remaining ∧ x < t := by
  have hrange : (e.takeUntil t).1.values = (e.getRemainingTimes (some t)).values := by
    unfold takeUntil
    split
    · rename_i r hr
      split_ifs <;> cases e.interval <;> simp [hr, Times.values]
    · rename_i hne
      unfold getRemainingTimes at hne ⊢
      split_ifs at hne ⊢ <;> cases hs : e.stop <;> simp_all [Times.empty]
  rw [hrange]
  unfold getRemainingTimes remaining
  by_cases ha : e.isActive = true
  · cases hs : e.stop with
    | none => simp [ha, Times.values, mem_rangeUntil]
    | some stop =>
      simp only [ha, if_true, Times.values, mem_rangeUntil, lt_min_iff, Set.mem_ofPred_eq,
        true_and, Option.some.injEq, forall_eq']
      tauto
  · simp only [ha, Bool.false_eq_true, if_false, Times.empty, Times.values, PyRange.values,
      PyRange.get, Set.mem_ofPred_eq, false_and, iff_false]
    rintro ⟨k, rfl, hk⟩
    omega

/-- What `take_until` leaves of the entry: the other columns are untouched. -/
theorem takeUntil_eq (e : ScheduleEntry) (t : ℤ) :
    (e.takeUntil t).2 =
      if (e.takeUntil t).1.length ≠ 0 then
        e.interval.elim { e with isActive := false } fun i =>
          { e with nextTaskTime := (e.takeUntil t).1.last + (i : ℤ) }
      else e := by
  unfold takeUntil
  split
  · cases e.interval <;> split_ifs <;> simp_all
  · simp [PyRange.length]

theorem takeUntil_step (e : ScheduleEntry) (t : ℤ) : 0 < (e.takeUntil t).1.step := by
  have hone : (0 : ℤ) < (⟨0, 0, 1⟩ : PyRange).step := Int.one_pos
  unfold takeUntil
  split
  · rename_i r hr
    have hpos : 0 < r.step := by
      unfold getRemainingTimes at hr
      split_ifs at hr <;> cases hs : e.stop <;> simp only [hs, Times.empty, Times.range.injEq] at hr
      all_goals subst hr
      all_goals first | exact rangeUntil_step _ _ | exact hone
    split_ifs <;> cases e.interval <;> exact hpos
  · exact hone

theorem takeUntil_length_eq_zero : (e.takeUntil t).1.length = 0 ↔ ∀ x ∈ e.remaining, t ≤ x := by
  rw [PyRange.length_eq_zero_iff (takeUntil_step e t), Set.eq_empty_iff_forall_notMem]
  simp only [mem_takeUntil, not_and, not_lt]

/-- An empty range leaves the entry alone. -/
theorem takeUntil_of_empty (h : (e.takeUntil t).1.length = 0) : (e.takeUntil t).2 = e := by
  rw [takeUntil_eq, if_neg (not_not.mpr h)]

/-- A nonempty range ends at the largest remaining time before `t`. -/
theorem isGreatest_takeUntil_last (h : (e.takeUntil t).1.length ≠ 0) :
    IsGreatest {x | x ∈ e.remaining ∧ x < t} (e.takeUntil t).1.last := by
  have hset : (e.takeUntil t).1.values = {x | x ∈ e.remaining ∧ x < t} :=
    Set.ext fun _ => mem_takeUntil
  rw [← hset]
  exact PyRange.isGreatest_last (takeUntil_step e t) h

theorem nextTaskTime_le (h : x ∈ e.remaining) : e.nextTaskTime ≤ x := by
  obtain ⟨-, hgrid, -⟩ := h
  cases hi : e.interval with
  | none => exact (show x = e.nextTaskTime by simpa [grid, hi] using hgrid).ge
  | some i =>
    obtain ⟨k, rfl⟩ : ∃ k : ℕ, x = e.nextTaskTime + k * (i : ℤ) := by simpa [grid, hi] using hgrid
    have hpos : 0 ≤ (k : ℤ) * (i : ℤ) := by positivity
    omega

/-- A recurring entry that takes times continues one interval after the last. -/
theorem takeUntil_recurring {i : ℕ+} (hi : e.interval = some i)
    (h : (e.takeUntil t).1.length ≠ 0) :
    (e.takeUntil t).2 = { e with nextTaskTime := (e.takeUntil t).1.last + (i : ℤ) } := by
  rw [takeUntil_eq, if_pos h, hi]
  rfl

/-- A one-shot entry that takes its time is switched off. -/
theorem takeUntil_oneShot (hi : e.interval = none) (h : (e.takeUntil t).1.length ≠ 0) :
    (e.takeUntil t).2 = { e with isActive := false } := by
  rw [takeUntil_eq, if_pos h, hi]
  rfl

/-- `take_until` consumes exactly the remaining times before `t`. -/
theorem remaining_takeUntil (e : ScheduleEntry) (t : ℤ) :
    (e.takeUntil t).2.remaining = {x | x ∈ e.remaining ∧ t ≤ x} := by
  by_cases hlen : (e.takeUntil t).1.length = 0
  · rw [takeUntil_of_empty hlen]
    ext x
    exact ⟨fun hx => ⟨hx, takeUntil_length_eq_zero.mp hlen x hx⟩, fun hx => hx.1⟩
  obtain ⟨⟨⟨hactive, hgrid, hstop⟩, hlt⟩, hgreatest⟩ := isGreatest_takeUntil_last hlen
  cases hi : e.interval with
  | none =>
    rw [takeUntil_oneShot hi hlen]
    obtain heq : (e.takeUntil t).1.last = e.nextTaskTime := by simpa [grid, hi] using hgrid
    ext x
    simp only [remaining, Set.mem_ofPred_eq, Bool.false_eq_true, false_and, false_iff]
    rintro ⟨⟨-, hx, -⟩, hle⟩
    obtain rfl : x = e.nextTaskTime := by simpa [grid, hi] using hx
    omega
  | some i =>
    rw [takeUntil_recurring hi hlen]
    have hipos : 0 < (i : ℤ) := by exact_mod_cast i.pos
    obtain ⟨k₀, hk₀⟩ : ∃ k : ℕ, (e.takeUntil t).1.last = e.nextTaskTime + k * (i : ℤ) := by
      simpa [grid, hi] using hgrid
    ext x
    constructor
    · rintro ⟨-, hx, hxstop⟩
      obtain ⟨k, hk⟩ : ∃ k : ℕ, x = (e.takeUntil t).1.last + (i : ℤ) + k * (i : ℤ) := by
        simpa [grid, hi] using hx
      have hmem : x ∈ e.remaining := by
        refine ⟨hactive, ?_, hxstop⟩
        rw [hi]
        exact ⟨k₀ + 1 + k, by rw [hk, hk₀]; push_cast; ring⟩
      refine ⟨hmem, ?_⟩
      by_contra hge
      have hle := hgreatest ⟨hmem, not_le.mp hge⟩
      nlinarith
    · rintro ⟨⟨-, hx, hxstop⟩, hle⟩
      obtain ⟨k, hk⟩ : ∃ k : ℕ, x = e.nextTaskTime + k * (i : ℤ) := by simpa [grid, hi] using hx
      have hklt : k₀ < k := by
        by_contra hge
        have hcast : (k : ℤ) ≤ k₀ := by exact_mod_cast not_lt.mp hge
        nlinarith
      refine ⟨hactive, ?_, hxstop⟩
      show x ∈ grid ((e.takeUntil t).1.last + (i : ℤ)) e.interval
      rw [hi]
      refine ⟨k - k₀ - 1, ?_⟩
      have hcast : ((k - k₀ - 1 : ℕ) : ℤ) = (k : ℤ) - k₀ - 1 := by omega
      rw [hcast, hk, hk₀]
      ring

/-- A range is not longer than the number of intervals between the next time
and its stop; without an interval it has one time at most. -/
theorem rangeUntil_length_le {m : ℕ+} {n : ℕ} (hn : 0 < n) (hm : ∀ i, e.interval = some i → m ≤ i)
    (hstop : stop ≤ e.nextTaskTime + n * (m : ℤ)) : (e.rangeUntil stop).length ≤ n := by
  have hn1 : (1 : ℤ) ≤ n := by exact_mod_cast hn
  rw [PyRange.length_le_iff (rangeUntil_step e stop)]
  unfold rangeUntil PyRange.get
  dsimp only
  split_ifs with h
  · dsimp only
    omega
  · cases hi : e.interval with
    | none =>
      simp only [Option.elim]
      nlinarith
    | some i =>
      have hle : (m : ℤ) ≤ (i : ℤ) := by exact_mod_cast hm i hi
      simp only [Option.elim]
      nlinarith

theorem takeUntil_length_le {m : ℕ+} {n : ℕ} (hn : 0 < n) (hm : ∀ i, e.interval = some i → m ≤ i)
    (ht : t ≤ e.nextTaskTime + n * (m : ℤ)) : (e.takeUntil t).1.length ≤ n := by
  have hrange := getRemainingTimes_some e t
  unfold getRemainingTimes at hrange
  split_ifs at hrange with hactive
  · cases hs : e.stop with
    | none =>
      simp only [hs, Times.range.injEq] at hrange
      rw [← hrange]
      exact rangeUntil_length_le hn hm ht
    | some stop =>
      simp only [hs, Times.range.injEq] at hrange
      rw [← hrange]
      exact rangeUntil_length_le hn hm ((min_le_left t stop).trans ht)
  · simp only [Times.empty, Times.range.injEq] at hrange
    rw [← hrange]
    simp [PyRange.length]

/-- Taking times touches `next_task_time` and `is_active` only. -/
theorem takeUntil_frame (e : ScheduleEntry) (t : ℤ) :
    (e.takeUntil t).2 = { e with
      nextTaskTime := (e.takeUntil t).2.nextTaskTime
      isActive := (e.takeUntil t).2.isActive } := by
  by_cases hlen : (e.takeUntil t).1.length = 0
  · rw [takeUntil_of_empty hlen]
  cases hi : e.interval with
  | none => rw [takeUntil_oneShot hi hlen, ← hi]
  | some i => rw [takeUntil_recurring hi hlen, ← hi]

@[simp] theorem takeUntil_name (e : ScheduleEntry) (t : ℤ) : (e.takeUntil t).2.name = e.name :=
  (congrArg name (takeUntil_frame e t)).trans rfl

@[simp] theorem takeUntil_action (e : ScheduleEntry) (t : ℤ) :
    (e.takeUntil t).2.action = e.action :=
  (congrArg action (takeUntil_frame e t)).trans rfl

@[simp] theorem takeUntil_priority (e : ScheduleEntry) (t : ℤ) :
    (e.takeUntil t).2.priority = e.priority :=
  (congrArg priority (takeUntil_frame e t)).trans rfl

@[simp] theorem takeUntil_start (e : ScheduleEntry) (t : ℤ) : (e.takeUntil t).2.start = e.start :=
  (congrArg start (takeUntil_frame e t)).trans rfl

@[simp] theorem takeUntil_stop (e : ScheduleEntry) (t : ℤ) : (e.takeUntil t).2.stop = e.stop :=
  (congrArg stop (takeUntil_frame e t)).trans rfl

@[simp] theorem takeUntil_interval (e : ScheduleEntry) (t : ℤ) :
    (e.takeUntil t).2.interval = e.interval :=
  (congrArg interval (takeUntil_frame e t)).trans rfl

@[simp] theorem takeUntil_nextTaskId (e : ScheduleEntry) (t : ℤ) :
    (e.takeUntil t).2.nextTaskId = e.nextTaskId :=
  (congrArg nextTaskId (takeUntil_frame e t)).trans rfl

/-- Taking never switches an entry on. -/
theorem takeUntil_isActive_of (h : (e.takeUntil t).2.isActive = true) : e.isActive = true := by
  rw [takeUntil_eq] at h
  cases hi : e.interval <;> rw [hi] at h <;> split_ifs at h <;> simp_all

/-- `next_task_time` only moves forward. -/
theorem nextTaskTime_le_takeUntil (e : ScheduleEntry) (t : ℤ) :
    e.nextTaskTime ≤ (e.takeUntil t).2.nextTaskTime := by
  by_cases hlen : (e.takeUntil t).1.length = 0
  · rw [takeUntil_of_empty hlen]
  cases hi : e.interval with
  | none => rw [takeUntil_oneShot hi hlen]
  | some i =>
    have hle := nextTaskTime_le (isGreatest_takeUntil_last hlen).1.1
    have hipos : 0 < (i : ℤ) := by exact_mod_cast i.pos
    rw [takeUntil_recurring hi hlen]
    dsimp only
    omega

/-- A time that can no longer be asked for: the row is off or has moved past it. -/
def Spent (e : ScheduleEntry) (x : ℤ) : Prop := e.isActive = false ∨ x < e.nextTaskTime

theorem Spent.not_remaining (h : e.Spent x) : x ∉ e.remaining := by
  intro hx
  obtain hoff | hlt := h
  · simp [hx.1] at hoff
  · have hle := nextTaskTime_le hx
    omega

/-- What a take takes is spent by it. -/
theorem spent_of_mem_takeUntil (hx : x ∈ (e.takeUntil t).1.values) : (e.takeUntil t).2.Spent x := by
  have hlen : (e.takeUntil t).1.length ≠ 0 := by
    intro h
    rw [PyRange.length_eq_zero_iff (takeUntil_step e t)] at h
    simp [h] at hx
  cases hi : e.interval with
  | none =>
    rw [takeUntil_oneShot hi hlen]
    exact .inl rfl
  | some i =>
    have hle := (isGreatest_takeUntil_last hlen).2 (mem_takeUntil.mp hx)
    have hipos : 0 < (i : ℤ) := by exact_mod_cast i.pos
    rw [takeUntil_recurring hi hlen]
    refine .inr ?_
    dsimp only
    omega

/-- What was spent before a take stays spent. -/
theorem Spent.takeUntil (h : e.Spent x) (t : ℤ) : (e.takeUntil t).2.Spent x := by
  obtain hoff | hlt := h
  · left
    by_contra hon
    have hactive := takeUntil_isActive_of (Bool.eq_true_of_not_eq_false hon)
    simp [hactive] at hoff
  · exact .inr (hlt.trans_le (nextTaskTime_le_takeUntil e t))

/-- The membership test of `has_remaining_times` ends at the first value of a
lazy iterator, so any walk of at least one step gives its answer. -/
theorem contains_getRemainingTimes (e : ScheduleEntry) (fuel : ℕ) :
    (e.getRemainingTimes none).contains e.nextTaskTime (fuel + 1) = some e.hasRemainingTimes := by
  unfold hasRemainingTimes getRemainingTimes
  cases e.stop <;> cases e.interval <;> split_ifs <;> simp [Times.contains, Times.empty]

/-- The next time is left as long as any time is. -/
theorem nextTaskTime_mem (h : x ∈ e.remaining) : e.nextTaskTime ∈ e.remaining := by
  refine ⟨h.1, ?_, fun stop hstop => (nextTaskTime_le h).trans_lt (h.2.2 stop hstop)⟩
  cases e.interval with
  | none => rfl
  | some i => exact ⟨0, by simp⟩

theorem hasRemainingTimes_iff : e.hasRemainingTimes = true ↔ e.remaining.Nonempty := by
  have hnext : e.hasRemainingTimes = true ↔ e.nextTaskTime ∈ e.remaining := by
    have h := contains_getRemainingTimes e 0
    rw [← values_getRemainingTimes]
    unfold getRemainingTimes at h ⊢
    by_cases ha : e.isActive = true
    · cases hs : e.stop with
      | some stop =>
        simp only [ha, if_true, hs, Times.contains, Option.some.injEq] at h ⊢
        rw [← h, PyRange.contains_iff (rangeUntil_step e stop)]
        rfl
      | none =>
        cases hi : e.interval with
        | some i =>
          simp only [ha, if_true, hs, hi, Times.contains, Option.some.injEq] at h ⊢
          simp only [← h, true_iff, Times.values]
          exact ⟨0, by simp⟩
        | none =>
          simp only [ha, if_true, hs, hi, Times.contains, Option.some.injEq] at h ⊢
          rw [← h, List.contains_iff_mem, PyRange.mem_toList Int.one_pos]
          rfl
    · simp only [ha, Bool.false_eq_true, if_false, Times.empty, Times.contains,
        Option.some.injEq] at h ⊢
      rw [← h, PyRange.contains_iff Int.one_pos]
      rfl
  rw [hnext]
  constructor
  · exact fun h => ⟨_, h⟩
  · intro ⟨x, hx⟩
    exact nextTaskTime_mem hx

end ScheduleEntry

/-- A recurring entry, for runs on fixed inputs. -/
def everyTenSeconds : ScheduleEntry :=
  ⟨"sweep", "acquire", 10, 0, none, some 10, true, none, 0, 1, "op"⟩

end ScosSensor
