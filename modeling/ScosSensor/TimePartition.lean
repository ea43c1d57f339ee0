import ScosSensor.AscendingSequences
import ScosSensor.ScheduleEntry
import Mathlib.Data.Int.ConditionallyCompleteOrder
import Mathlib.Data.List.MinMax

/-!
# The times of an entry as one sequence

What an entry yields is an empty or a stepped range, the range of a one-shot,
an unbounded count or an iterator. Each of them is a sequence of times, and the
sequences ascend, so they are told apart by their times alone. Taking times at
any points, in any order, cuts the sequence of the entry in two.
-/
namespace ScosSensor

open Stream' (Seq)

namespace PyRange

variable {r : PyRange}

theorem get_lt_get (hstep : 0 < r.step) {i j : ℕ} (hij : i < j) : r.get i < r.get j := by
  have hcast : (i : ℤ) < j := by exact_mod_cast hij
  unfold get
  nlinarith

theorem pairwise_toList (hstep : 0 < r.step) : r.toList.Pairwise (· < ·) :=
  List.pairwise_map.mpr (List.pairwise_lt_range.imp (get_lt_get hstep))

end PyRange

namespace Times

/-- What iterating yields, one value after the other. -/
def seq : Times → Seq ℤ
  | .range r => Seq.ofList r.toList
  | .count start step => Seq.ofStream fun k => start + k * step
  | .iter r => Seq.ofList r.toList

/-- The values go up. -/
def Advances : Times → Prop
  | .range r => 0 < r.step
  | .count _ step => 0 < step
  | .iter r => 0 < r.step

variable {times : Times} {t : ℤ}

theorem mem_seq (h : times.Advances) : t ∈ times.seq ↔ t ∈ times.values := by
  cases times with
  | range r => exact Ascending.mem_ofList.trans (PyRange.mem_toList h t)
  | count start step =>
    rw [Seq.mem_iff_exists_get?]
    exact exists_congr fun k => Option.some_inj
  | iter r => exact Ascending.mem_ofList.trans (PyRange.mem_toList h t)

theorem pairwise_seq (h : times.Advances) : times.seq.Pairwise (· < ·) := by
  cases times with
  | range r => exact Ascending.pairwise_ofList (PyRange.pairwise_toList h)
  | count start step =>
    intro i j hij x hx y hy
    obtain rfl : start + i * step = x := Option.some.inj hx
    obtain rfl : start + j * step = y := Option.some.inj hy
    have hcast : (i : ℤ) < j := by exact_mod_cast hij
    have hstep : 0 < step := h
    nlinarith
  | iter r => exact Ascending.pairwise_ofList (PyRange.pairwise_toList h)

end Times

namespace ScheduleEntry

variable {e : ScheduleEntry} {t x : ℤ} {ts : List ℤ}

theorem advances_getRemainingTimes (e : ScheduleEntry) (until? : Option ℤ) :
    (e.getRemainingTimes until?).Advances := by
  cases until? with
  | some t =>
    rw [getRemainingTimes_some]
    exact takeUntil_step e t
  | none =>
    unfold getRemainingTimes
    split_ifs
    · cases e.stop with
      | some stop => exact rangeUntil_step e stop
      | none =>
        cases e.interval with
        | some i => exact Int.natCast_pos.mpr i.pos
        | none => exact Int.one_pos
    · exact Int.one_pos

theorem mem_seq_getRemainingTimes : x ∈ (e.getRemainingTimes none).seq ↔ x ∈ e.remaining := by
  rw [Times.mem_seq (advances_getRemainingTimes e none), values_getRemainingTimes]

/-- `take_until` at one time after the other: the ranges returned, and the entry. -/
def takeAll (e : ScheduleEntry) : List ℤ → List PyRange × ScheduleEntry
  | [] => ([], e)
  | t :: ts =>
    let out := e.takeUntil t
    let rest := takeAll out.2 ts
    (out.1 :: rest.1, rest.2)

/-- The times taken, in the order in which they were. -/
def taken (e : ScheduleEntry) (ts : List ℤ) : List ℤ := (e.takeAll ts).1.flatMap PyRange.toList

theorem taken_cons (e : ScheduleEntry) (t : ℤ) (ts : List ℤ) :
    e.taken (t :: ts) = (e.takeUntil t).1.toList ++ (e.takeUntil t).2.taken ts := by
  simp [taken, takeAll]

theorem mem_toList_takeUntil : x ∈ (e.takeUntil t).1.toList ↔ x ∈ e.remaining ∧ x < t := by
  rw [PyRange.mem_toList (takeUntil_step e t), mem_takeUntil]

theorem remaining_takeAll (e : ScheduleEntry) (ts : List ℤ) :
    (e.takeAll ts).2.remaining = {x | x ∈ e.remaining ∧ ∀ t ∈ ts, t ≤ x} := by
  induction ts generalizing e with
  | nil => simp [takeAll]
  | cons t ts ih =>
    ext x
    rw [takeAll, ih, remaining_takeUntil]
    simp [and_assoc]

theorem mem_taken : x ∈ e.taken ts ↔ x ∈ e.remaining ∧ ∃ t ∈ ts, x < t := by
  induction ts generalizing e with
  | nil => simp [taken, takeAll]
  | cons t ts ih =>
    rw [taken_cons, List.mem_append, ih, mem_toList_takeUntil, remaining_takeUntil]
    simp only [Set.mem_ofPred_eq, List.exists_mem_cons_iff]
    constructor
    · rintro (⟨hx, hlt⟩ | ⟨⟨hx, -⟩, hlater⟩)
      · exact ⟨hx, .inl hlt⟩
      · exact ⟨hx, .inr hlater⟩
    · rintro ⟨hx, hlt | hlater⟩
      · exact .inl ⟨hx, hlt⟩
      · rcases lt_or_ge x t with hlt | hge
        · exact .inl ⟨hx, hlt⟩
        · exact .inr ⟨⟨hx, hge⟩, hlater⟩

/-- A later range goes on above the earlier ones. -/
theorem pairwise_taken (e : ScheduleEntry) (ts : List ℤ) : (e.taken ts).Pairwise (· < ·) := by
  induction ts generalizing e with
  | nil => exact .nil
  | cons t ts ih =>
    rw [taken_cons, List.pairwise_append]
    refine ⟨PyRange.pairwise_toList (takeUntil_step e t), ih _, ?_⟩
    intro x hx y hy
    have hlt := (mem_toList_takeUntil.mp hx).2
    have hy := (mem_taken.mp hy).1
    rw [remaining_takeUntil] at hy
    exact hlt.trans_le hy.2

/-- What was taken and what is left make up the sequence of the entry. -/
theorem seq_takeAll (e : ScheduleEntry) (ts : List ℤ) :
    (e.getRemainingTimes none).seq =
      (Seq.ofList (e.taken ts)).append ((e.takeAll ts).2.getRemainingTimes none).seq := by
  refine Ascending.eq_append_of_cut (Times.pairwise_seq (advances_getRemainingTimes e none))
    (pairwise_taken e ts) (Times.pairwise_seq (advances_getRemainingTimes _ none))
    (fun x => ∃ t ∈ ts, x < t) ?_ ?_ ?_
  · rintro a b ⟨t, ht, hlt⟩ hb
    by_contra hge
    exact hb ⟨t, ht, by omega⟩
  · intro x
    rw [mem_taken, mem_seq_getRemainingTimes]
  · intro x
    rw [mem_seq_getRemainingTimes, mem_seq_getRemainingTimes, remaining_takeAll]
    simp

/-- The answer to a bounded request is the start of the unbounded one. -/
theorem get?_getRemainingTimes_some (e : ScheduleEntry) (t : ℤ) (k : ℕ) :
    (e.getRemainingTimes (some t)).seq.get? k = some x ↔
      (e.getRemainingTimes none).seq.get? k = some x ∧ x < t := by
  have htaken : e.taken [t] = (e.takeUntil t).1.toList := by simp [taken, takeAll]
  have hcut := seq_takeAll e [t]
  rw [htaken] at hcut
  rw [hcut, Ascending.get?_append_ofList, getRemainingTimes_some, Times.seq, Seq.ofList_get?]
  split_ifs with hk
  · constructor
    · intro h
      exact ⟨h, (mem_toList_takeUntil.mp (List.mem_of_getElem? h)).2⟩
    · exact And.left
  · rw [List.getElem?_eq_none (not_lt.mp hk)]
    simp only [reduceCtorEq, false_iff, not_and, not_lt]
    intro h
    have hrest := mem_seq_getRemainingTimes.mp (Seq.get?_mem h)
    rw [remaining_takeAll] at hrest
    exact hrest.2 t List.mem_cons_self

theorem hasRemainingTimes_iff_seq :
    e.hasRemainingTimes = true ↔ (e.getRemainingTimes none).seq ≠ .nil := by
  rw [hasRemainingTimes_iff]
  constructor
  · rintro ⟨x, hx⟩ hnil
    have hmem := mem_seq_getRemainingTimes.mpr hx
    rw [hnil] at hmem
    exact Seq.notMem_nil x hmem
  · intro hne
    have hfirst : (e.getRemainingTimes none).seq.get? 0 ≠ none := by
      rwa [ne_eq, Seq.get?_zero_eq_none]
    obtain ⟨x, hx⟩ := Option.ne_none_iff_exists'.mp hfirst
    exact ⟨x, mem_seq_getRemainingTimes.mp (Seq.get?_mem hx)⟩

/-- Taking at any points, in any order, partitions the times of an entry: the ranges returned
are, one after the other, the times below the largest point, and what is left is the rest.
The bounded and the unbounded answers agree, and the test for remaining times ends and tells
whether there is a rest. -/
theorem takeAll_partition (e : ScheduleEntry) (ts : List ℤ) :
    (e.getRemainingTimes none).seq =
        (Seq.ofList (e.taken ts)).append ((e.takeAll ts).2.getRemainingTimes none).seq ∧
      (e.taken ts).Pairwise (· < ·) ∧
      (∀ x ∈ e.taken ts, (x : WithBot ℤ) < ts.maximum) ∧
      (∀ x ∈ ((e.takeAll ts).2.getRemainingTimes none).seq, ts.maximum ≤ (x : WithBot ℤ)) ∧
      (∀ t k x, (e.getRemainingTimes (some t)).seq.get? k = some x ↔
        (e.getRemainingTimes none).seq.get? k = some x ∧ x < t) ∧
      (∀ fuel, ((e.takeAll ts).2.getRemainingTimes none).contains
          (e.takeAll ts).2.nextTaskTime (fuel + 1) = some (e.takeAll ts).2.hasRemainingTimes) ∧
      ((e.takeAll ts).2.hasRemainingTimes = true ↔
        ((e.takeAll ts).2.getRemainingTimes none).seq ≠ .nil) := by
  refine ⟨seq_takeAll e ts, pairwise_taken e ts, ?_, ?_,
    fun t k x => get?_getRemainingTimes_some e t k, contains_getRemainingTimes _, ?_⟩
  · intro x hx
    obtain ⟨-, t, ht, hlt⟩ := mem_taken.mp hx
    exact (WithBot.coe_lt_coe.mpr hlt).trans_le (List.le_maximum_of_mem' ht)
  · intro x hx
    rw [mem_seq_getRemainingTimes, remaining_takeAll] at hx
    exact List.maximum_le_of_forall_le fun t ht => WithBot.coe_le_coe.mpr (hx.2 t ht)
  · exact hasRemainingTimes_iff_seq

end ScheduleEntry

end ScosSensor
