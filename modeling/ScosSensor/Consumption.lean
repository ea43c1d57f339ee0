import Mathlib.Order.Bounds.Basic
import Mathlib.Data.List.Basic

/-!
# Consuming a set of times from below

A fixed set of times is consumed by a sequence of clock readings. A reading
takes every remaining time up to and including itself and reports only the
largest of them. The facts hold in any linear order, for any readings, and do
not say how the set is represented.
-/
namespace ScosSensor.Consumption

variable {α : Type*} [LinearOrder α] {times : Set α} {readings queued : List α} {now t m : α}

/-- The times that no reading so far has reached. -/
def remaining (times : Set α) (readings : List α) : Set α :=
  {t | t ∈ times ∧ ∀ now ∈ readings, now < t}

/-- The remaining times that the reading `now` reaches. -/
def due (times : Set α) (readings : List α) (now : α) : Set α :=
  {t | t ∈ remaining times readings ∧ t ≤ now}

/-- `Consumes times readings queued`: the readings, in this order, report
exactly the list `queued`. -/
inductive Consumes (times : Set α) : List α → List α → Prop
  | start : Consumes times [] []
  | idle {readings queued : List α} {now : α} : Consumes times readings queued →
      due times readings now = ∅ → Consumes times (readings ++ [now]) queued
  | take {readings queued : List α} {now t : α} : Consumes times readings queued →
      IsGreatest (due times readings now) t → Consumes times (readings ++ [now]) (queued ++ [t])

@[simp] theorem remaining_nil : remaining times [] = times := by simp [remaining]

theorem mem_remaining_append : t ∈ remaining times (readings ++ [now]) ↔
    t ∈ remaining times readings ∧ now < t := by
  simp only [remaining, Set.mem_ofPred_eq, List.forall_mem_append, List.forall_mem_singleton,
    and_assoc]

/-- A reported time is one of the times and was reached by a reading. -/
theorem Consumes.reached (h : Consumes times readings queued) (ht : t ∈ queued) :
    t ∈ times ∧ ∃ now ∈ readings, t ≤ now := by
  induction h with
  | start => simp at ht
  | idle _ _ ih =>
    obtain ⟨hmem, now, hnow, hle⟩ := ih ht
    exact ⟨hmem, now, List.mem_append_left _ hnow, hle⟩
  | @take _ _ now _ _ hgreatest ih =>
    rcases List.mem_append.mp ht with ht | ht
    · obtain ⟨hmem, now, hnow, hle⟩ := ih ht
      exact ⟨hmem, now, List.mem_append_left _ hnow, hle⟩
    · obtain rfl := List.mem_singleton.mp ht
      exact ⟨hgreatest.1.1.1, now, by simp, hgreatest.1.2⟩

/-- The reported times are strictly increasing, whatever the readings are. -/
theorem Consumes.increasing (h : Consumes times readings queued) : queued.Pairwise (· < ·) := by
  induction h with
  | start => exact .nil
  | idle _ _ ih => exact ih
  | take hrun hgreatest ih =>
    refine List.pairwise_append.mpr ⟨ih, List.pairwise_singleton _ _, ?_⟩
    intro a ha b hb
    obtain rfl := List.mem_singleton.mp hb
    obtain ⟨_, now, hnow, hle⟩ := hrun.reached ha
    exact hle.trans_lt (hgreatest.1.1.2 now hnow)

/-- A time that the last reading is the first to reach is due at it. -/
theorem mem_due_of_reached {now : α} (hm : m ∈ times) (hbefore : ¬ ∃ now ∈ readings, m ≤ now)
    (hreach : ∃ a ∈ readings ++ [now], m ≤ a) : m ∈ due times readings now := by
  obtain ⟨a, ha, hle⟩ := hreach
  rcases List.mem_append.mp ha with ha | ha
  · exact absurd ⟨a, ha, hle⟩ hbefore
  · obtain rfl := List.mem_singleton.mp ha
    exact ⟨⟨hm, fun b hb => lt_of_not_ge fun hge => hbefore ⟨b, hb, hge⟩⟩, hle⟩

/-- Once a reading is at or after the largest time, that time is reported. -/
theorem Consumes.last_reported (h : Consumes times readings queued) (hm : IsGreatest times m)
    (hreach : ∃ now ∈ readings, m ≤ now) : m ∈ queued := by
  induction h with
  | start => simp at hreach
  | @idle readings _ now _ hempty ih =>
    by_cases hbefore : ∃ now ∈ readings, m ≤ now
    · exact ih hbefore
    · exact absurd (mem_due_of_reached hm.1 hbefore hreach) (by simp [hempty])
  | @take readings _ now t _ hgreatest ih =>
    by_cases hbefore : ∃ now ∈ readings, m ≤ now
    · exact List.mem_append_left _ (ih hbefore)
    · have hdue := mem_due_of_reached hm.1 hbefore hreach
      have heq : m = t := le_antisymm (hgreatest.2 hdue) (hm.2 hgreatest.1.1.1)
      simp [heq]

end ScosSensor.Consumption
