import ScosSensor.Heapq
import Mathlib.Data.Int.Notation

/-!
# Tasks and the task queue

A task is compared by time and priority only, so tasks that differ in anything
else can be level in the queue. The queue is a list kept by the heap operations.
Pending tasks carry a task id; the ids of upcoming tasks are not known yet.
-/
namespace ScosSensor

/-- The named tuple `Task`. -/
structure Task (ι : Type) where
  time : ℤ
  priority : ℤ
  action : String
  scheduleEntryName : String
  taskId : ι
  deriving Repr, DecidableEq

namespace Task

variable {ι : Type}

/-- `s < o`: the comparison of `(time, priority)` pairs. -/
def lt (s o : Task ι) : Bool :=
  decide (s.time < o.time) || (decide (s.time = o.time) && decide (s.priority < o.priority))

/-- What a task is recorded under: the entry and the task id. -/
def key (t : Task ι) : String × ι := (t.scheduleEntryName, t.taskId)

/-- Tasks are level when time and priority are the same. -/
theorem lt_eq_false {s o : Task ι} :
    o.lt s = false ↔ s.time ≤ o.time ∧ (s.time = o.time → s.priority ≤ o.priority) := by
  unfold lt
  simp only [Bool.or_eq_false_iff, Bool.and_eq_false_iff, decide_eq_false_iff_not]
  omega

theorem weakOrder_lt : Heapq.WeakOrder (lt : Task ι → Task ι → Bool) where
  asymm a b h := by
    unfold lt at h
    simp only [Bool.or_eq_true, Bool.and_eq_true, decide_eq_true_eq] at h
    rw [lt_eq_false]
    omega
  trans a b c h h' := by
    rw [lt_eq_false] at h h' ⊢
    omega

end Task

/-- A task that is due, with the id that its result is stored under. -/
abbrev PendingTask := Task ℕ

/-- `TaskQueue`. -/
abbrev TaskQueue (ι : Type) := List (Task ι)

namespace TaskQueue

variable {ι : Type}

/-- `enter(time, priority, action, schedule_entry_name, task_id)`. -/
def enter (q : TaskQueue ι) (time priority : ℤ) (action scheduleEntryName : String)
    (taskId : ι) : TaskQueue ι :=
  Heapq.heappush Task.lt q ⟨time, priority, action, scheduleEntryName, taskId⟩

/-- `to_list()`: pop a copy until it is empty. -/
def toList (q : TaskQueue ι) : List (Task ι) := Heapq.popAll Task.lt q.length q

theorem enter_perm (q : TaskQueue ι) (time priority : ℤ) (action name : String) (id : ι) :
    (q.enter time priority action name id).Perm (⟨time, priority, action, name, id⟩ :: q) :=
  Heapq.heappush_perm _ _

@[simp] theorem length_enter (q : TaskQueue ι) (time priority : ℤ) (action name : String) (id : ι) :
    (q.enter time priority action name id).length = q.length + 1 :=
  (enter_perm q time priority action name id).length_eq

@[simp] theorem toList_nil : toList ([] : TaskQueue ι) = [] := rfl

theorem toList_perm (q : TaskQueue ι) : q.toList.Perm q := Heapq.popAll_perm q

@[simp] theorem length_toList (q : TaskQueue ι) : q.toList.length = q.length :=
  (toList_perm q).length_eq

@[simp] theorem mem_enter {q : TaskQueue ι} {time priority : ℤ} {action name : String} {id : ι}
    {t : Task ι} : t ∈ q.enter time priority action name id ↔
      t = ⟨time, priority, action, name, id⟩ ∨ t ∈ q := by
  rw [(enter_perm q time priority action name id).mem_iff, List.mem_cons]

theorem isHeap_enter {q : TaskQueue ι} (h : Heapq.IsHeap Task.lt q) (time priority : ℤ)
    (action name : String) (id : ι) : Heapq.IsHeap Task.lt (q.enter time priority action name id) :=
  Heapq.isHeap_heappush Task.weakOrder_lt h _

/-- The tasks come out by time, and those of one time by priority. -/
theorem pairwise_toList {q : TaskQueue ι} (h : Heapq.IsHeap Task.lt q) :
    q.toList.Pairwise fun s o => s.time ≤ o.time ∧ (s.time = o.time → s.priority ≤ o.priority) :=
  (Heapq.pairwise_popAll Task.weakOrder_lt h).imp Task.lt_eq_false.mp

@[simp] theorem mem_toList {q : TaskQueue ι} {t : Task ι} : t ∈ q.toList ↔ t ∈ q :=
  (toList_perm q).mem_iff

end TaskQueue

end ScosSensor
