import ScosSensor.Subscripts
import ScosSensor.TaskQueue

/-!
# The task queue as a priority queue

A queue is made from any list of tasks and then entered and popped in any order.
Beside the operations stand the views that the class gives of itself: the list
in order, the items and slices of that list, and the next task. The heap works
on the list underneath, which the overridden `pop` and `__getitem__` leave alone.
-/
namespace ScosSensor

namespace TaskQueue

variable {ι : Type}

/-- `TaskQueue(tasks)`. -/
def init (tasks : List (Task ι)) : TaskQueue ι := Heapq.heapify Task.lt tasks

/-- `pop()`; `none` is the `IndexError` of an empty queue. -/
def pop (q : TaskQueue ι) : Option (Task ι × TaskQueue ι) := Heapq.heappop Task.lt q

/-- `q[i]`, an item of the list in order. -/
def getItem (q : TaskQueue ι) (i : ℤ) : Option (Task ι) := subscript q.toList i

/-- `q[start:stop:step]`. -/
def getSlice (q : TaskQueue ι) (s : PySlice) : Option (List (Task ι)) := s.apply q.toList

/-- `next_task`, which is `self[0]`. -/
def nextTask (q : TaskQueue ι) : Option (Task ι) := q.getItem 0

/-- The two lists of `to_list()`, the queue and its copy, and what was popped so far. -/
structure Listing (ι : Type) where
  self : TaskQueue ι
  tasks : TaskQueue ι
  listed : List (Task ι)

/-- One `heappop(tasks)` of `to_list()`; `none` is its `IndexError`. -/
def Listing.step (l : Listing ι) : Option (Listing ι) :=
  (Heapq.heappop Task.lt l.tasks).map fun (task, tasks) =>
    { l with tasks := tasks, listed := l.listed ++ [task] }

/-- `list(map(heappop, [tasks] * n))`. -/
def Listing.steps : ℕ → Listing ι → Option (Listing ι)
  | 0, l => some l
  | n + 1, l => l.step.bind (steps n)

/-- `to_list()` with the lists in memory. -/
def listing (q : TaskQueue ι) : Option (Listing ι) := Listing.steps q.length ⟨q, q, []⟩

/-- A call of `enter` or of `pop`. -/
inductive Operation (ι : Type) where
  | enter (time priority : ℤ) (action scheduleEntryName : String) (taskId : ι)
  | pop

/-- The task that an operation enters. -/
def Operation.entered : Operation ι → Option (Task ι)
  | .enter time priority action name id => some ⟨time, priority, action, name, id⟩
  | .pop => none

/-- A queue and the tasks popped from it so far. -/
structure Service (ι : Type) where
  popped : List (Task ι)
  queue : TaskQueue ι

/-- A pop of an empty queue raises and changes nothing. -/
def Service.step (s : Service ι) : Operation ι → Service ι
  | .enter time priority action name id =>
    { s with queue := s.queue.enter time priority action name id }
  | .pop =>
    match s.queue.pop with
    | some (task, queue) => ⟨s.popped ++ [task], queue⟩
    | none => s

def Service.run (s : Service ι) (operations : List (Operation ι)) : Service ι :=
  operations.foldl step s

/-- A queue that was made from `tasks` and then served. -/
def serve (tasks : List (Task ι)) (operations : List (Operation ι)) : Service ι :=
  Service.run ⟨[], init tasks⟩ operations

/-! ### The list in order -/

theorem toList_of_pop {q q' : TaskQueue ι} {t : Task ι} (h : q.pop = some (t, q')) :
    q.toList = t :: q'.toList := by
  have hlen : q.length = q'.length + 1 := (Heapq.heappop_perm h).length_eq.symm
  have hpop : Heapq.heappop Task.lt q = some (t, q') := h
  simp only [toList, hlen, Heapq.popAll, hpop]

theorem pop_eq_none {q : TaskQueue ι} : q.pop = none ↔ q = [] := Heapq.heappop_eq_none

theorem nextTask_eq (q : TaskQueue ι) : q.nextTask = q.toList.head? := by
  have h : q.nextTask = q.toList[0]? := subscript_natCast q.toList 0
  rw [h, List.head?_eq_getElem?]

/-- Popping the copy `n` times lists its items and leaves the queue alone. -/
theorem Listing.steps_eq (q : TaskQueue ι) (listed : List (Task ι)) (tasks : TaskQueue ι) :
    Listing.steps tasks.length ⟨q, tasks, listed⟩ = some ⟨q, [], listed ++ tasks.toList⟩ := by
  generalize hn : tasks.length = n
  induction n generalizing tasks listed with
  | zero =>
    obtain rfl := List.length_eq_zero_iff.mp hn
    simp [Listing.steps]
  | succ n ih =>
    cases hpop : tasks.pop with
    | none => simp [pop_eq_none.mp hpop] at hn
    | some out =>
      obtain ⟨t, rest⟩ := out
      have hlen : rest.length = n := by simpa [hn] using (Heapq.heappop_perm hpop).length_eq
      have hstep : Listing.step ⟨q, tasks, listed⟩ = some ⟨q, rest, listed ++ [t]⟩ :=
        congrArg (Option.map _) hpop
      rw [Listing.steps, hstep, Option.bind_some, ih _ rest hlen, toList_of_pop hpop,
        List.append_assoc, List.singleton_append]

theorem step_pop_none {s : Service ι} (h : s.queue.pop = none) : s.step .pop = s := by
  simp only [Service.step, h]

theorem step_pop_some {s : Service ι} {t : Task ι} {q : TaskQueue ι}
    (h : s.queue.pop = some (t, q)) : s.step .pop = ⟨s.popped ++ [t], q⟩ := by
  simp only [Service.step, h]

theorem Service.run_cons (s : Service ι) (operation : Operation ι)
    (operations : List (Operation ι)) :
    s.run (operation :: operations) = (s.step operation).run operations := rfl

/-- Popping `n` times gives the first `n` tasks of the list and keeps the others. -/
theorem run_pops (popped : List (Task ι)) (q : TaskQueue ι) (n : ℕ) :
    ∃ q', Service.run ⟨popped, q⟩ (List.replicate n .pop) = ⟨popped ++ q.toList.take n, q'⟩ ∧
      q'.toList = q.toList.drop n := by
  induction n generalizing popped q with
  | zero => exact ⟨q, by simp [Service.run], rfl⟩
  | succ n ih =>
    rw [List.replicate_succ, Service.run_cons]
    cases hpop : q.pop with
    | none =>
      rw [step_pop_none hpop]
      obtain rfl := pop_eq_none.mp hpop
      simpa using ih popped []
    | some out =>
      obtain ⟨t, q₁⟩ := out
      obtain ⟨q', hrun, hrest⟩ := ih (popped ++ [t]) q₁
      refine ⟨q', ?_, by rw [toList_of_pop hpop, List.drop_succ_cons, hrest]⟩
      rw [step_pop_some hpop, hrun, toList_of_pop hpop, List.take_succ_cons, List.append_assoc,
        List.singleton_append]

/-- What a queue shows of itself agrees with its list in order: `to_list()` works on a
copy, pops take the tasks one after the other, and the items are those of the list. -/
structure Views (q : TaskQueue ι) : Prop where
  listing : q.listing = some ⟨q, [], q.toList⟩
  pops : ∀ popped n, ∃ q',
    Service.run ⟨popped, q⟩ (List.replicate n .pop) = ⟨popped ++ q.toList.take n, q'⟩ ∧
      q'.toList = q.toList.drop n
  nextTask : q.nextTask = q.toList.head?
  item : ∀ i : ℕ, q.getItem i = q.toList[i]?
  itemFromEnd : ∀ i < q.length, q.getItem (-(i + 1 : ℕ)) = q.toList[q.length - (i + 1)]?
  indexError : ∀ i, q.getItem i = none ↔ i < -q.length ∨ q.length ≤ i
  slice : ∀ s out, q.getSlice s = some out → ∃ r, s.indices q.length = some r ∧
    out.map some = (List.range (PySlice.count r)).map fun k => q.getItem (r.get k)
  firsts : ∀ n : ℕ, q.getSlice ⟨none, some n, none⟩ = some (q.toList.take n)
  rest : ∀ n : ℕ, q.getSlice ⟨some n, none, none⟩ = some (q.toList.drop n)

theorem views (q : TaskQueue ι) : Views q where
  listing := by simpa [TaskQueue.listing] using Listing.steps_eq q [] q
  pops popped n := run_pops popped q n
  nextTask := nextTask_eq q
  item i := subscript_natCast q.toList i
  itemFromEnd i hi := by
    rw [getItem, subscript_of_neg (by omega) (by rw [length_toList]; omega), length_toList]
    congr 1
    omega
  indexError i := by rw [getItem, subscript_eq_none, length_toList]
  slice s out h := by
    obtain ⟨r, hr, hout⟩ := PySlice.map_some_apply h
    rw [length_toList] at hr
    exact ⟨r, hr, hout⟩
  firsts n := PySlice.apply_take q.toList n
  rest n := PySlice.apply_drop q.toList n

/-! ### Runs -/

/-- The invariant of a service: the queue is a heap, and holds what was put in but not
popped, each task as often. -/
structure Serves (entered : List (Task ι)) (s : Service ι) : Prop where
  isHeap : Heapq.IsHeap Task.lt s.queue
  perm : (s.popped ++ s.queue).Perm entered

theorem serves_init (tasks : List (Task ι)) : Serves tasks ⟨[], init tasks⟩ where
  isHeap := Heapq.isHeap_heapify Task.weakOrder_lt tasks
  perm := Heapq.heapify_perm tasks

theorem Serves.step {entered : List (Task ι)} {s : Service ι} (h : Serves entered s)
    (operation : Operation ι) :
    Serves (entered ++ operation.entered.toList) (s.step operation) := by
  cases operation with
  | enter time priority action name id =>
    refine ⟨isHeap_enter h.isHeap time priority action name id, ?_⟩
    have hqueue := (enter_perm s.queue time priority action name id).append_left s.popped
    have hmiddle : (s.popped ++ ⟨time, priority, action, name, id⟩ :: s.queue).Perm
        (⟨time, priority, action, name, id⟩ :: (s.popped ++ s.queue)) := List.perm_middle
    exact hqueue.trans (hmiddle.trans ((h.perm.cons _).trans (List.perm_append_singleton _ _).symm))
  | pop =>
    rw [Operation.entered, Option.toList_none, List.append_nil]
    cases hpop : s.queue.pop with
    | none => rwa [step_pop_none hpop]
    | some out =>
      obtain ⟨t, q'⟩ := out
      rw [step_pop_some hpop]
      have hperm := Heapq.heappop_perm hpop
      refine ⟨(Heapq.isHeap_heappop Task.weakOrder_lt h.isHeap hpop).1, ?_⟩
      rw [List.append_assoc, List.singleton_append]
      exact (hperm.append_left s.popped).trans h.perm

theorem Serves.run {entered : List (Task ι)} {s : Service ι} (h : Serves entered s)
    (operations : List (Operation ι)) :
    Serves (entered ++ operations.filterMap Operation.entered) (s.run operations) := by
  induction operations generalizing entered s with
  | nil => simpa [Service.run] using h
  | cons operation operations ih =>
    have hrest := ih (h.step operation)
    rw [List.append_assoc] at hrest
    cases hentered : operation.entered <;> simpa [Service.run, hentered] using hrest

/-- After any operations the list in order holds what was put in and not popped, each task
as often, by time and then by priority, and every view of the queue agrees with it. -/
theorem serve_priorityQueue (tasks : List (Task ι)) (operations : List (Operation ι)) :
    let s := serve tasks operations
    (s.popped ++ s.queue.toList).Perm (tasks ++ operations.filterMap Operation.entered) ∧
      s.queue.toList.Pairwise
        (fun s o => s.time ≤ o.time ∧ (s.time = o.time → s.priority ≤ o.priority)) ∧
      Views s.queue := by
  have h := (serves_init tasks).run operations
  exact ⟨((toList_perm _).append_left _).trans h.perm, pairwise_toList h.isHeap, views _⟩

end TaskQueue

end ScosSensor
