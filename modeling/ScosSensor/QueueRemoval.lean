import ScosSensor.QueueOperations
import Mathlib.Data.Multiset.ZeroCons

/-!
# Cancelling a task

Cancelling takes a task out of the queue's list with `list.remove` and restores
the heap. The removal compares with the equality of tasks, which is that of
their times and priorities, so it takes the first task of the list that is
level with the one to cancel.
-/
namespace ScosSensor

variable {ι : Type}

/-- `s == o`: the equality of `(time, priority)` pairs. -/
def Task.eq (s o : Task ι) : Bool :=
  decide (s.time = o.time) && decide (s.priority = o.priority)

@[simp] theorem Task.eq_iff {s o : Task ι} :
    s.eq o = true ↔ s.time = o.time ∧ s.priority = o.priority := by
  simp [Task.eq]

namespace TaskQueue

/-- `list.remove(task)`; `none` is its `ValueError`. -/
def remove (task : Task ι) : TaskQueue ι → Option (TaskQueue ι)
  | [] => none
  | t :: rest => if t.eq task then some rest else (remove task rest).map (t :: ·)

/-- `cancel(task)`. -/
def cancel (q : TaskQueue ι) (task : Task ι) : Option (TaskQueue ι) :=
  (q.remove task).map (Heapq.heapify Task.lt)

/-- What `cancel` is for: `x` is taken out once, everything else stays. -/
structure Cancelled (q q' : TaskQueue ι) (x : Task ι) : Prop where
  isHeap : Heapq.IsHeap Task.lt q'
  perm : (x :: q').Perm q
  others : ∀ t ∈ q, t.scheduleEntryName ≠ x.scheduleEntryName →
    t.time = x.time → t.priority = x.priority → t ∈ q'

theorem remove_eq_none {q : TaskQueue ι} {x : Task ι} :
    q.remove x = none ↔ q.find? (·.eq x) = none := by
  induction q with
  | nil => simp [remove]
  | cons t rest ih =>
    rw [remove, List.find?_cons]
    cases t.eq x with
    | true => simp
    | false => simpa using ih

/-- The first level task is the one removed. -/
theorem remove_spec {q rest : TaskQueue ι} {x : Task ι} (h : q.remove x = some rest) :
    ∃ t, q.find? (·.eq x) = some t ∧ (t :: rest).Perm q := by
  induction q generalizing rest with
  | nil => simp [remove] at h
  | cons t q ih =>
    rw [remove] at h
    rw [List.find?_cons]
    cases heq : t.eq x with
    | true =>
      obtain rfl : q = rest := by simpa [heq] using h
      exact ⟨t, rfl, .refl _⟩
    | false =>
      obtain ⟨kept, hkept, rfl⟩ : ∃ kept, remove x q = some kept ∧ t :: kept = rest := by
        simpa [heq] using h
      obtain ⟨first, hfirst, hperm⟩ := ih hkept
      exact ⟨first, hfirst, (List.Perm.swap t first kept).trans (hperm.cons t)⟩

/-- A cancel takes out the first level task and leaves a heap. -/
theorem cancel_spec {q q' : TaskQueue ι} {x : Task ι} (h : q.cancel x = some q') :
    ∃ t, q.find? (·.eq x) = some t ∧ Heapq.IsHeap Task.lt q' ∧ (t :: q').Perm q := by
  obtain ⟨rest, hremove, rfl⟩ := Option.map_eq_some_iff.mp h
  obtain ⟨t, hfirst, hperm⟩ := remove_spec hremove
  refine ⟨t, hfirst, Heapq.isHeap_heapify Task.weakOrder_lt rest, ?_⟩
  exact ((Heapq.heapify_perm rest).cons t).trans hperm

theorem cancel_eq_none {q : TaskQueue ι} {x : Task ι} :
    q.cancel x = none ↔ q.find? (·.eq x) = none := by
  rw [cancel, Option.map_eq_none_iff, remove_eq_none]

/-- The task given is the one cancelled exactly when it is the first one in the queue's
list of those at its time and priority. -/
theorem cancel_removes_iff (q : TaskQueue ι) (x : Task ι) :
    (∃ q', q.cancel x = some q' ∧ Cancelled q q' x) ↔ q.find? (·.eq x) = some x := by
  constructor
  · rintro ⟨q', hcancel, h⟩
    obtain ⟨t, hfind, -, hperm⟩ := cancel_spec hcancel
    have hsame : t = x := by
      have hcons : (t :: q').Perm (x :: q') := hperm.trans h.perm.symm
      exact (Multiset.cons_inj_left (q' : Multiset (Task ι))).mp (Multiset.coe_eq_coe.mpr hcons)
    rw [hfind, hsame]
  · intro hfind
    obtain ⟨q', hcancel⟩ : ∃ q', q.cancel x = some q' := by
      rw [← Option.ne_none_iff_exists', ne_eq, cancel_eq_none, hfind]
      simp
    obtain ⟨t, hfirst, hheap, hperm⟩ := cancel_spec hcancel
    obtain rfl := Option.some.inj (hfind.symm.trans hfirst)
    refine ⟨q', hcancel, hheap, hperm, ?_⟩
    intro t ht hname _ _
    rcases List.mem_cons.mp (hperm.mem_iff.mpr ht) with rfl | hmem
    · exact absurd rfl hname
    · exact hmem

/-- Two entries start together at the default priority. Cancelling the task of the second
one takes out that of the first. -/
theorem cancel_level_other :
    let q := (serve [] [.enter 10 10 "logger" "a" 1, .enter 10 10 "logger" "b" 1]).queue
    let x : Task ℕ := ⟨10, 10, "logger", "b", 1⟩
    Heapq.IsHeap Task.lt q ∧ x ∈ q ∧ q.cancel x = some [x] ∧
      ¬ ∃ q', q.cancel x = some q' ∧ Cancelled q q' x := by
  intro q x
  have hcancel : q.cancel x = some [x] := by decide
  refine ⟨((serves_init []).run _).isHeap, by decide, hcancel, ?_⟩
  rintro ⟨q', hq', h⟩
  obtain rfl := Option.some.inj (hcancel.symm.trans hq')
  have hother := h.others ⟨10, 10, "logger", "a", 1⟩ (by decide) (by decide) rfl rfl
  simp [x] at hother

end TaskQueue

end ScosSensor
