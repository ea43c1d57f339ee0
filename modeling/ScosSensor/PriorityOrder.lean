import ScosSensor.EntryEdits

/-!
# The order of simultaneous tasks

The queue of a pass orders its tasks by time and priority, but which times enter a pass
is decided entry by entry, each with a reading of its own. A time that comes due between
two visits is queued for the entry that is visited later, and for the other one only in
the next pass. As long as no entry is queued ahead of one that goes before it, the actions
of one time are started in the order of their priorities, over all passes and restarts.
-/
namespace ScosSensor

/-- What tasks are compared by. -/
def Task.rank {ι : Type} (t : Task ι) : ℤ × ℤ := (t.time, t.priority)

/-- Of one time, the smaller priority number comes first. -/
def ByPriority (x y : ℤ × ℤ) : Prop := x.1 = y.1 → x.2 ≤ y.2

namespace ScheduleEntry

variable {e : ScheduleEntry} {now time clock : ℤ}

/-- From the reading `clock` on, no visit queues `time`. -/
def NeverDue (e : ScheduleEntry) (clock time : ℤ) : Prop :=
  ∀ now, clock ≤ now → e.dueTime now ≠ some time

theorem dueTime_eq_some_iff :
    e.dueTime now = some time ↔ IsGreatest {x | x ∈ e.remaining ∧ x ≤ now} time := by
  refine ⟨dueTime_eq_some, fun h => ?_⟩
  cases hdue : e.dueTime now with
  | none => exact absurd h.1.2 (not_le.mpr (dueTime_eq_none.mp hdue time h.1.1))
  | some other => rw [(dueTime_eq_some hdue).unique h]

theorem neverDue_of_inactive (h : e.isActive = false) (clock time : ℤ) :
    e.NeverDue clock time := by
  intro now _ hdue
  have hactive := (dueTime_eq_some hdue).1.1.1
  rw [h] at hactive
  cases hactive

theorem NeverDue.mono {clock' : ℤ} (h : e.NeverDue clock time) (hle : clock ≤ clock') :
    e.NeverDue clock' time :=
  fun now hnow => h now (hle.trans hnow)

theorem NeverDue.of_remaining {e' : ScheduleEntry} (h : e.NeverDue clock time)
    (heq : e'.remaining = e.remaining) : e'.NeverDue clock time := by
  intro now hnow hdue
  rw [dueTime_eq_some_iff, heq, ← dueTime_eq_some_iff] at hdue
  exact h now hnow hdue

/-- A time that is reached and not queued now is not queued later. -/
theorem neverDue_of_ne (hle : time ≤ now) (h : e.dueTime now ≠ some time) :
    e.NeverDue now time := by
  intro later hlater hdue
  obtain ⟨⟨hremaining, -⟩, hgreatest⟩ := dueTime_eq_some hdue
  apply h
  rw [dueTime_eq_some_iff]
  exact ⟨⟨hremaining, hle⟩, fun x hx => hgreatest ⟨hx.1, hx.2.trans hlater⟩⟩

theorem mem_remaining_takePending {x : ℤ} :
    x ∈ (e.takePending now).2.remaining ↔ x ∈ e.remaining ∧ now < x := by
  unfold takePending
  rw [remaining_takeUntil, Set.mem_ofPred_eq, Int.add_one_le_iff]

/-- A take uses up all times that are reached. -/
theorem neverDue_takePending (hle : time ≤ now) (clock : ℤ) :
    (e.takePending now).2.NeverDue clock time := by
  intro later _ hdue
  have hlt := (mem_remaining_takePending.mp (dueTime_eq_some hdue).1.1).2
  omega

/-- What never comes due does not come due after a take. -/
theorem NeverDue.takePending (h : e.NeverDue clock time) (now : ℤ) :
    (e.takePending now).2.NeverDue clock time := by
  intro later hlater hdue
  obtain ⟨⟨hremaining, hle⟩, hgreatest⟩ := dueTime_eq_some hdue
  obtain ⟨hold, hlt⟩ := mem_remaining_takePending.mp hremaining
  apply h later hlater
  rw [dueTime_eq_some_iff]
  refine ⟨⟨hold, hle⟩, fun x hx => ?_⟩
  by_cases hnow : now < x
  · exact hgreatest ⟨mem_remaining_takePending.mpr ⟨hx.1, hnow⟩, hx.2⟩
  · omega

end ScheduleEntry

namespace Pc

/-- The time and the priority of a task that is about to be queued. -/
def dueRanks : Pc → List (ℤ × ℤ)
  | .completing (some taskTime) e _ _ => [(taskTime, e.priority)]
  | .numbering taskTime e _ _ => [(taskTime, e.priority)]
  | _ => []

/-- The tasks of the pass that are not started, by time and priority. -/
def ranks (pc : Pc) : List (ℤ × ℤ) := pc.unstarted.map Task.rank ++ pc.dueRanks

/-- The entry that is visited next. -/
def visiting : Pc → Option ScheduleEntry
  | .taking todo _ => todo.head?
  | _ => none

/-- The entries of the snapshot that the pass has still to visit. -/
def unvisited : Pc → List String
  | .taking todo _ => todo.map ScheduleEntry.name
  | .completing _ _ todo _ => todo.map ScheduleEntry.name
  | .numbering _ _ todo _ => todo.map ScheduleEntry.name
  | _ => []

/-- The queue of the pass is a heap, and the list that is taken from it is in order. -/
def Sorted : Pc → Prop
  | .taking _ queue => Heapq.IsHeap Task.lt queue
  | .completing _ _ _ queue => Heapq.IsHeap Task.lt queue
  | .numbering _ _ _ queue => Heapq.IsHeap Task.lt queue
  | pc => (pc.unstarted.map Task.rank).Pairwise ByPriority

theorem ranks_settled {taskTime : Option ℤ} {e e' : ScheduleEntry} {todo : List ScheduleEntry}
    {queue : TaskQueue ℕ} (h : e'.priority = e.priority) :
    (settled taskTime e' todo queue).ranks = (completing taskTime e todo queue).ranks := by
  cases taskTime with
  | none => rfl
  | some taskTime => simp [settled, ranks, dueRanks, unstarted, waiting, h]

theorem unvisited_settled (taskTime : Option ℤ) (e : ScheduleEntry) (todo : List ScheduleEntry)
    (queue : TaskQueue ℕ) :
    (settled taskTime e todo queue).unvisited = todo.map ScheduleEntry.name := by
  cases taskTime <;> rfl

end Pc

namespace Scheduler

open Runs

variable {cfg : Settings} {s t : Sys} {l : Label} {i : Input} {name : String}

/-- The entry that is visited is not queued ahead of one that goes before it: the entries
of smaller priority numbers that the pass has visited are not due by now for the same
time. -/
def QueuesInTurn (s : Sys) : Label → Prop
  | .sched i => ∀ e ∈ s.pc.visiting, ∀ row ∈ s.db.activeEntries, row.name ∉ s.pc.unvisited →
      row.priority < e.priority → (e.dueTime i.now).isSome → row.dueTime i.now ≠ e.dueTime i.now
  | _ => True

instance (s : Sys) : DecidablePred (QueuesInTurn s)
  | .sched i => inferInstanceAs (Decidable (∀ e ∈ s.pc.visiting, ∀ row ∈ s.db.activeEntries,
      row.name ∉ s.pc.unvisited → row.priority < e.priority →
        (e.dueTime i.now).isSome → row.dueTime i.now ≠ e.dueTime i.now))
  | .finalizer _ _ => .isTrue trivial
  | .measure _ => .isTrue trivial
  | .stop => .isTrue trivial
  | .crash => .isTrue trivial
  | .post _ _ _ _ => .isTrue trivial
  | .read _ _ => .isTrue trivial
  | .write _ _ => .isTrue trivial
  | .deleteEntry _ => .isTrue trivial
  | .deleteResult _ => .isTrue trivial

/-- What a step makes of the started tasks, of those of the pass, and of the entries that
are still to visit. -/
inductive RankStep (s : Sys) (l : Label) (t : Sys) : Prop
  | keep (hstarted : startedTasks t.history = startedTasks s.history)
      (hranks : ∀ y ∈ t.pc.ranks, y ∈ s.pc.ranks)
      (hunvisited : t.pc.ranks = [] ∨ t.pc.unvisited = s.pc.unvisited)
  | take (i : Input) (e : ScheduleEntry) (todo : List ScheduleEntry) (queue : TaskQueue ℕ)
      (hl : l = .sched i) (hpc : s.pc = .taking (e :: todo) queue)
      (hpc' : t.pc = .completing (e.dueTime i.now) (e.takePending i.now).2 todo queue)
      (hstarted : startedTasks t.history = startedTasks s.history)
  | start (task : PendingTask) (tasks : List PendingTask) (result : ResultRow) (started : ℤ)
      (hpc : s.pc = .calling task result tasks) (hpc' : t.pc = .acting task result started tasks)
      (hstarted : startedTasks t.history = startedTasks s.history ++ [task])

theorem schedMove_rankStep (h : SchedMove cfg i s t) : RankStep s (.sched i) t := by
  cases h with
  | take e todo queue hpc =>
    exact .take i e todo queue rfl hpc rfl (by simp [Event.startedTask])
  | call task result tasks hpc =>
    exact .start task tasks result i.time hpc rfl (by simp [Event.startedTask])
  | number taskTime e todo queue hpc =>
    refine .keep (by simp [Event.startedTask]) ?_ (.inr (by rw [hpc]; rfl))
    intro y hy
    rw [hpc]
    simp only [Pc.ranks, Pc.unstarted, Pc.waiting, Pc.dueRanks, List.append_nil, List.mem_map,
      TaskQueue.mem_enter, List.mem_append, List.mem_singleton] at hy ⊢
    obtain ⟨task, rfl | htask, rfl⟩ := hy
    · exact .inr rfl
    · exact .inl ⟨task, htask, rfl⟩
  | keep taskTime e todo queue hpc =>
    refine .keep rfl ?_ (.inr ?_)
    · rw [hpc, Pc.ranks_settled rfl]
      exact fun _ hy => hy
    · rw [hpc]
      exact Pc.unvisited_settled taskTime e todo queue
  | cancel taskTime e todo queue hpc =>
    have hranks : (Pc.settled taskTime { e with isActive := false } todo queue).ranks =
        (Pc.completing taskTime e todo queue).ranks := Pc.ranks_settled rfl
    refine .keep rfl ?_ (.inr ?_)
    · rw [hpc, hranks]
      exact fun _ hy => hy
    · rw [hpc]
      exact Pc.unvisited_settled taskTime _ todo queue
  | jump pc hjump =>
    have hnone : pc.dueRanks = [] := by cases hjump <;> rfl
    refine .keep rfl ?_ ?_
    · intro y hy
      unfold Pc.ranks at hy
      rw [hnone, List.append_nil] at hy
      exact List.mem_append_left _ ((hjump.unstarted.map Task.rank).subset hy)
    · cases hjump with
      | queueDone queue hpc =>
        right
        rw [hpc]
        rfl
      | _ => exact .inl rfl
  | fetch task tasks e hpc | evict task tasks hpc =>
    exact .keep rfl (by rw [hpc]; exact fun _ hy => hy) (.inr (by rw [hpc]; rfl))
  | create task tasks result db hpc =>
    exact .keep (by simp [Event.startedTask]) (by rw [hpc]; exact fun _ hy => hy)
      (.inr (by rw [hpc]; rfl))
  | spawn task result started tasks hpc | finish task result started tasks hpc =>
    exact .keep (by simp [Event.startedTask]) (by rw [hpc]; exact fun _ hy => hy)
      (.inr (by rw [hpc]; rfl))
  | finalize f f' tasks w hpc hmove | finalized f tasks w hpc hmove =>
    exact .keep hmove.tasks.1 (by rw [hpc]; exact fun _ hy => hy) (.inr (by rw [hpc]; rfl))
  | finalizeRaise f tasks err w hpc hraise =>
    exact .keep (congrArg startedTasks hraise.frame.2.1) (fun _ hy => by cases hy) (.inl rfl)
  | raise | reset | read => exact .keep rfl (fun _ hy => by cases hy) (.inl rfl)

theorem step_rankStep (h : step cfg s l = some t) : RankStep s l t := by
  cases step_cases h with
  | sched i s' hmove => exact schedMove_rankStep hmove
  | finalizer k i f f' w hf hmove => exact .keep hmove.tasks.1 (fun _ hy => hy) (.inr rfl)
  | finalizerEnd k i f w hf hmove => exact .keep hmove.tasks.1 (fun _ hy => hy) (.inr rfl)
  | finalizerRaise k i f err w hf hraise =>
    exact .keep (congrArg startedTasks hraise.frame.2.1) (fun _ hy => hy) (.inr rfl)
  | crash => exact .keep rfl (fun _ hy => by cases hy) (.inl rfl)
  | _ => exact .keep rfl (fun _ hy => hy) (.inr rfl)

theorem schedMove_sorted (h : SchedMove cfg i s t) (hs : s.pc.Sorted) : t.pc.Sorted := by
  cases h with
  | number taskTime e todo queue hpc =>
    rw [hpc] at hs
    exact TaskQueue.isHeap_enter hs taskTime e.priority e.action e.name e.nextTaskId
  | keep taskTime e todo queue hpc | cancel taskTime e todo queue hpc =>
    rw [hpc] at hs
    cases taskTime <;> exact hs
  | read hpc =>
    intro p c _
    exact Heapq.above_of_length (Nat.zero_le c)
  | jump pc hjump =>
    cases hjump with
    | queueDone queue hpc =>
      rw [hpc] at hs
      exact List.pairwise_map.mpr ((TaskQueue.pairwise_toList hs).imp And.right)
    | _ => exact .nil
  | spawn task result started tasks hpc | finish task result started tasks hpc
  | take e todo queue hpc | fetch task tasks e hpc | evict task tasks hpc
  | create task tasks result db hpc | finalize f f' tasks w hpc | finalized f tasks w hpc =>
    rw [hpc] at hs
    exact hs
  | call task result tasks hpc =>
    rw [hpc] at hs
    exact (List.pairwise_cons.mp hs).2
  | raise | reset | finalizeRaise => exact .nil

theorem step_sorted (hs : s.pc.Sorted) (h : step cfg s l = some t) : t.pc.Sorted := by
  cases step_cases h with
  | sched i s' hmove => exact schedMove_sorted hmove hs
  | crash => exact .nil
  | _ => exact hs

/-- A step makes no time due, unless a user writes the row. -/
theorem step_neverDue (hheld : ∀ e ∈ s.pc.held, s.db.getEntry e.name = some e)
    (hl : LeavesEntries l) (h : step cfg s l = some t) {row' : ScheduleEntry}
    (hafter : t.db.getEntry name = some row') :
    ∃ row, s.db.getEntry name = some row ∧ row'.priority = row.priority ∧
      ∀ clock time, row.NeverDue clock time → row'.NeverDue clock time := by
  have hstep := step_row h name
  rw [hafter] at hstep
  generalize hout : some row' = out at hstep
  cases hstep with
  | same => exact ⟨row', hout.symm, rfl, fun _ _ h => h⟩
  | reset i e todo last row hl hpc hname hlast hrow =>
    obtain rfl := Option.some.inj hout
    exact ⟨row, hrow, rfl, fun _ _ hnever => hnever.of_remaining rfl⟩
  | take i e todo queue row hl hpc hname hrow =>
    obtain rfl := Option.some.inj hout
    have he : s.db.getEntry e.name = some e := hheld e (by rw [hpc]; exact List.mem_cons_self)
    rw [hname, hrow] at he
    obtain rfl := Option.some.inj he
    have hframe : (row.takePending i.now).2.writeTimes row = (row.takePending i.now).2 :=
      (ScheduleEntry.takeUntil_frame row (i.now + 1)).symm
    refine ⟨row, hrow, rfl, fun clock time hnever => ?_⟩
    rw [hframe]
    exact hnever.takePending i.now
  | cancel i taskTime e todo queue row hl hpc hname hleft hrow =>
    obtain rfl := Option.some.inj hout
    exact ⟨row, hrow, rfl, fun _ _ _ => ScheduleEntry.neverDue_of_inactive rfl _ _⟩
  | number i taskTime e todo queue row hl hpc hname hrow =>
    obtain rfl := Option.some.inj hout
    exact ⟨row, hrow, rfl, fun _ _ hnever => hnever.of_remaining rfl⟩
  | delete hk =>
    subst hk
    exact hl.elim
  | write k now q hk =>
    subst hk
    exact hl.elim
  | post owner action body now hk =>
    subst hk
    exact hl.elim

/-- No entry outside of `names` that goes before `y` will queue its time. -/
def Foremost (s : Sys) (names : List String) (clock : ℤ) (y : ℤ × ℤ) : Prop :=
  ∀ name row, name ∉ names → s.db.getEntry name = some row → row.priority < y.2 →
    row.NeverDue clock y.1

theorem Foremost.step {names : List String} {c c' : ℤ} {y : ℤ × ℤ} (hy : Foremost s names c y)
    (hheld : ∀ e ∈ s.pc.held, s.db.getEntry e.name = some e) (hclock : c ≤ c')
    (hl : LeavesEntries l) (h : step cfg s l = some t) : Foremost t names c' y := by
  intro name row' hname hafter hless
  obtain ⟨row, hrow, hpriority, hnever⟩ := step_neverDue hheld hl h hafter
  rw [hpriority] at hless
  exact hnever c' y.1 ((hy name row hname hrow hless).mono hclock)

/-- The tasks started and those of the pass are in turn, and nothing that goes before one
of them is left behind. -/
structure Prioritized (x : ℤ × Sys) : Prop where
  timely : Timely x.2
  sorted : x.2.pc.Sorted
  reached : ∀ y ∈ x.2.pc.ranks, y.1 ≤ x.1
  started : ((startedTasks x.2.history).map Task.rank).Pairwise ByPriority
  ahead : ∀ y ∈ (startedTasks x.2.history).map Task.rank, ∀ z ∈ x.2.pc.ranks, ByPriority y z
  done : ∀ y ∈ (startedTasks x.2.history).map Task.rank, Foremost x.2 [] x.1 y
  queued : ∀ y ∈ x.2.pc.ranks, Foremost x.2 x.2.pc.unvisited x.1 y

/-- The instance that a take leaves is the row. -/
theorem taken_row {e : ScheduleEntry} {todo : List ScheduleEntry} {queue : TaskQueue ℕ}
    (ht : Timely t)
    (hpc : t.pc = .completing (e.dueTime i.now) (e.takePending i.now).2 todo queue) :
    t.db.getEntry e.name = some (e.takePending i.now).2 := by
  have hmem : (e.takePending i.now).2 ∈ t.pc.held := by
    rw [hpc]
    exact List.mem_cons_self
  rw [← ScheduleEntry.takePending_name e i.now]
  exact ht.issuing.held _ hmem

/-- The tasks of the pass after a take: those before it, and the one that is due. -/
theorem taken_ranks {e : ScheduleEntry} {todo : List ScheduleEntry} {queue : TaskQueue ℕ}
    (hpc : s.pc = .taking (e :: todo) queue)
    (hpc' : t.pc = .completing (e.dueTime i.now) (e.takePending i.now).2 todo queue) {y : ℤ × ℤ}
    (hy : y ∈ t.pc.ranks) : y ∈ s.pc.ranks ∨ y.2 = e.priority ∧ e.dueTime i.now = some y.1 := by
  rw [hpc'] at hy
  rw [hpc]
  cases hdue : e.dueTime i.now with
  | none =>
    rw [hdue] at hy
    exact .inl hy
  | some time =>
    rw [hdue] at hy
    rcases List.mem_append.mp hy with hy | hy
    · exact .inl (List.mem_append_left _ hy)
    · obtain rfl := List.mem_singleton.mp hy
      exact .inr ⟨ScheduleEntry.takeUntil_priority e (i.now + 1), rfl⟩

/-- A visited row that goes before the entry is not due for the time that is queued. -/
theorem QueuesInTurn.neverDue (hturn : QueuesInTurn s (.sched i)) {e row : ScheduleEntry}
    {todo : List ScheduleEntry} {queue : TaskQueue ℕ} (hpc : s.pc = .taking (e :: todo) queue)
    (hrow : s.db.getEntry name = some row) (hvisited : name ∉ (e :: todo).map ScheduleEntry.name)
    (hless : row.priority < e.priority) {time : ℤ} (hdue : e.dueTime i.now = some time) :
    row.NeverDue i.now time := by
  by_cases hactive : row.isActive = true
  · have hname : row.name = name := Database.name_of_getEntry hrow
    have hmem : row ∈ s.db.activeEntries :=
      Database.mem_activeEntries.mpr ⟨Database.mem_of_getEntry hrow, hactive⟩
    rw [QueuesInTurn, hpc] at hturn
    have hne := hturn e rfl row hmem (hname ▸ hvisited) hless (by rw [hdue]; rfl)
    rw [hdue] at hne
    exact ScheduleEntry.neverDue_of_ne (ScheduleEntry.dueTime_eq_some hdue).1.2 hne
  · exact ScheduleEntry.neverDue_of_inactive (by simpa using hactive) _ _

/-- A take queues its time behind the started tasks, and ahead of what is not visited. -/
theorem Prioritized.take {c : ℤ} (hs : Prioritized (c, s)) (hc : c ≤ i.now) (ht : Timely t)
    (hsorted : t.pc.Sorted) (hturn : QueuesInTurn s (.sched i)) (h : step cfg s (.sched i) = some t)
    {e : ScheduleEntry} {todo : List ScheduleEntry} {queue : TaskQueue ℕ}
    (hpc : s.pc = .taking (e :: todo) queue)
    (hpc' : t.pc = .completing (e.dueTime i.now) (e.takePending i.now).2 todo queue)
    (hstarted : startedTasks t.history = startedTasks s.history) : Prioritized (i.now, t) := by
  have hl : LeavesEntries (.sched i) := trivial
  have hheld := hs.timely.issuing.held
  have hrow : s.db.getEntry e.name = some e := hheld e (by rw [hpc]; exact List.mem_cons_self)
  have hrow' := taken_row ht hpc'
  have hreached : ∀ y ∈ t.pc.ranks, y.1 ≤ i.now := by
    intro y hy
    obtain hold | ⟨-, hdue⟩ := taken_ranks hpc hpc' hy
    · exact (hs.reached y hold).trans hc
    · exact (ScheduleEntry.dueTime_eq_some hdue).1.2
  refine ⟨ht, hsorted, hreached, hstarted ▸ hs.started, ?_, ?_, ?_⟩
  · intro y hy z hz
    rw [hstarted] at hy
    obtain hold | ⟨hpriority, hdue⟩ := taken_ranks hpc hpc' hz
    · exact hs.ahead y hy z hold
    · intro htime
      by_contra hless
      rw [hpriority, not_le] at hless
      rw [← htime] at hdue
      exact hs.done y hy e.name e List.not_mem_nil hrow hless i.now hc hdue
  · intro y hy
    rw [hstarted] at hy
    exact (hs.done y hy).step hheld hc hl h
  · intro y hy name row' hname hafter hless
    rw [hpc'] at hname
    by_cases hself : name = e.name
    · rw [hself, hrow'] at hafter
      obtain rfl := Option.some.inj hafter
      exact ScheduleEntry.neverDue_takePending (hreached y hy) _
    have hvisited : name ∉ (e :: todo).map ScheduleEntry.name := by
      rw [List.map_cons, List.mem_cons, not_or]
      exact ⟨hself, hname⟩
    obtain hold | ⟨hpriority, hdue⟩ := taken_ranks hpc hpc' hy
    · have hforemost := hs.queued y hold
      rw [hpc] at hforemost
      exact hforemost.step hheld hc hl h name row' hvisited hafter hless
    · obtain ⟨row, hbefore, hsame, hnever⟩ := step_neverDue hheld hl h hafter
      rw [hsame, hpriority] at hless
      exact hnever _ _ (hturn.neverDue hpc hbefore hvisited hless hdue)

/-- The first task of the list is started behind all started ones, and ahead of the rest. -/
theorem Prioritized.start {c c' : ℤ} (hs : Prioritized (c, s)) (hclock : c ≤ c')
    (hl : LeavesEntries l) (h : step cfg s l = some t) {task : PendingTask}
    {tasks : List PendingTask} {result : ResultRow} {started : ℤ}
    (hpc : s.pc = .calling task result tasks) (hpc' : t.pc = .acting task result started tasks)
    (hstarted : startedTasks t.history = startedTasks s.history ++ [task]) :
    Prioritized (c', t) := by
  have hheld := hs.timely.issuing.held
  have hranks : t.pc.ranks = tasks.map Task.rank := by
    rw [hpc']
    exact List.append_nil _
  have hranks' : s.pc.ranks = task.rank :: tasks.map Task.rank := by
    rw [hpc]
    exact List.append_nil _
  have hself : task.rank ∈ s.pc.ranks := hranks' ▸ List.mem_cons_self
  have hlater {z : ℤ × ℤ} (hz : z ∈ t.pc.ranks) : z ∈ s.pc.ranks :=
    hranks' ▸ List.mem_cons_of_mem _ (hranks ▸ hz)
  have hcases {y : ℤ × ℤ} (hy : y ∈ (startedTasks t.history).map Task.rank) :
      y ∈ (startedTasks s.history).map Task.rank ∨ y = task.rank := by
    rw [hstarted, List.map_append] at hy
    exact (List.mem_append.mp hy).imp_right List.mem_singleton.mp
  have hqueued {y : ℤ × ℤ} (hy : y ∈ s.pc.ranks) : Foremost t [] c' y := by
    have hforemost := hs.queued y hy
    rw [show s.pc.unvisited = [] by rw [hpc]; rfl] at hforemost
    exact hforemost.step hheld hclock hl h
  refine ⟨hs.timely.step hl h, step_sorted hs.sorted h,
    fun y hy => (hs.reached y (hlater hy)).trans hclock, ?_, ?_, ?_, ?_⟩
  · rw [hstarted, List.map_append]
    refine List.pairwise_append.mpr ⟨hs.started, List.pairwise_singleton _ _, ?_⟩
    intro y hy z hz
    rw [List.mem_singleton.mp hz]
    exact hs.ahead y hy task.rank hself
  · intro y hy z hz
    obtain hold | rfl := hcases hy
    · exact hs.ahead y hold z (hlater hz)
    · have hpairs := hs.sorted
      rw [hpc] at hpairs
      exact (List.pairwise_cons.mp hpairs).1 z (hranks ▸ hz)
  · intro y hy
    obtain hold | rfl := hcases hy
    · exact (hs.done y hold).step hheld hclock hl h
    · exact hqueued hself
  · intro y hy
    rw [show t.pc.unvisited = [] by rw [hpc']; rfl]
    exact hqueued (hlater hy)

theorem Prioritized.step {c c' : ℤ} (hs : Prioritized (c, s)) (hclock : c ≤ c')
    (hreading : ∀ now, clockReading s l = some now → c' = now) (hl : LeavesEntries l)
    (hturn : QueuesInTurn s l) (h : step cfg s l = some t) : Prioritized (c', t) := by
  have hheld := hs.timely.issuing.held
  have ht : Timely t := hs.timely.step hl h
  have hsorted : t.pc.Sorted := step_sorted hs.sorted h
  cases step_rankStep h with
  | keep hstarted hranks hunvisited =>
    refine ⟨ht, hsorted, fun y hy => (hs.reached y (hranks y hy)).trans hclock,
      hstarted ▸ hs.started, ?_, ?_, ?_⟩
    · rw [hstarted]
      exact fun y hy z hz => hs.ahead y hy z (hranks z hz)
    · rw [hstarted]
      exact fun y hy => (hs.done y hy).step hheld hclock hl h
    · intro y hy
      obtain hnone | hsame := hunvisited
      · rw [hnone] at hy
        cases hy
      · rw [hsame]
        exact (hs.queued y (hranks y hy)).step hheld hclock hl h
  | take i e todo queue hk hpc hpc' hstarted =>
    subst hk
    have hnow : c' = i.now := by
      apply hreading
      rw [clockReading, hpc]
    subst hnow
    exact hs.take hclock ht hsorted hturn h hpc hpc' hstarted
  | start task tasks result started hpc hpc' hstarted =>
    exact hs.start hclock hl h hpc hpc' hstarted

theorem prioritized_start (c : ℤ) {db : Database} (hnames : NamesUnique db) :
    Prioritized (c, { db := db }) := by
  refine ⟨timely_start hnames, .nil, ?_, .nil, ?_, ?_, ?_⟩
  · intro y hy
    cases hy
  · intro y hy
    cases hy
  · intro y hy
    cases hy
  · intro y hy
    cases hy

/-- In every run that leaves the entries alone, beside a clock that does not go back, the
actions of one time are started by priority, as long as no entry is queued ahead of one
that goes before it. -/
theorem simultaneous_tasks_by_priority (cfg : Settings) (db : Database) (hnames : NamesUnique db)
    (c₀ : ℤ) (ls : List Label) (x : ℤ × Sys) (hls : ∀ l ∈ ls, LeavesEntries l)
    (hturn : Along (step cfg) QueuesInTurn { db := db } ls)
    (hrun : exec (clocked cfg) (c₀, { db := db }) ls = some x) :
    (startedTasks x.2.history).Pairwise fun first later =>
      first.time = later.time → first.priority ≤ later.priority := by
  have hstep : ∀ x l y, Prioritized x → LeavesEntries l ∧ QueuesInTurn x.2 l →
      clocked cfg x l = some y → Prioritized y := by
    intro x l y hx hl h
    obtain ⟨hclock, hs, hreading⟩ := withClock_some h
    exact hx.step hclock hreading hl.1 hl.2 hs
  have hquiet : Along (clocked cfg) (fun _ l => LeavesEntries l) (c₀, { db := db }) ls :=
    Along.of_forall_mem fun l hl _ => hls l hl
  have hend := exec_invariant hstep (prioritized_start c₀ hnames) (hquiet.and hturn.withClock) hrun
  exact List.pairwise_map.mp hend.started

/-- Two entries that are due at the same time. -/
def urgent : ScheduleEntry := ⟨"urgent", "acquire", 1, 10, none, none, true, none, 10, 1, "op"⟩

def routine : ScheduleEntry := ⟨"routine", "acquire", 20, 10, none, none, true, none, 10, 1, "op"⟩

/-- The first entry of the first pass is visited before that time, and all others at it,
up to the action of the second task. -/
def tickInPass : List Label :=
  List.replicate 8 (.sched { now := 9 }) ++ List.replicate 21 (.sched { now := 10 })

/-- The entry of the larger priority number is queued a pass ahead, and started first. -/
theorem routine_task_first :
    ∃ x, exec (clocked { actions := ["acquire"] })
        (0, { db := { schedule := [urgent, routine] } }) tickInPass = some x ∧
      (∀ l ∈ tickInPass, LeavesEntries l) ∧
      ¬ (startedTasks x.2.history).Pairwise fun first later =>
        first.time = later.time → first.priority ≤ later.priority := by
  have hruns : (exec (clocked { actions := ["acquire"] })
      (0, { db := { schedule := [urgent, routine] } }) tickInPass).map
        (fun x => (startedTasks x.2.history).map Task.rank) = some [(10, 20), (10, 1)] := by decide
  obtain ⟨x, hx, hstarted⟩ := Option.map_eq_some_iff.mp hruns
  refine ⟨x, hx, by decide, ?_⟩
  intro hpairs
  have hranks : ((startedTasks x.2.history).map Task.rank).Pairwise ByPriority :=
    List.pairwise_map.mpr hpairs
  rw [hstarted] at hranks
  simp [ByPriority] at hranks

/-- In the other order of the entries the same tick does no harm. -/
theorem simultaneous_tasks_by_priority_tick :
    ∃ x, exec (clocked { actions := ["acquire"] })
        (0, { db := { schedule := [routine, urgent] } }) tickInPass = some x ∧
      (startedTasks x.2.history).map Task.rank = [(10, 1), (10, 20)] ∧
      (startedTasks x.2.history).Pairwise fun first later =>
        first.time = later.time → first.priority ≤ later.priority := by
  have hruns : (exec (clocked { actions := ["acquire"] })
      (0, { db := { schedule := [routine, urgent] } }) tickInPass).map
        (fun x => (startedTasks x.2.history).map Task.rank) = some [(10, 1), (10, 20)] := by decide
  obtain ⟨x, hx, hstarted⟩ := Option.map_eq_some_iff.mp hruns
  have hnames : NamesUnique { schedule := [routine, urgent] } := by
    unfold NamesUnique
    decide
  exact ⟨x, hx, hstarted, simultaneous_tasks_by_priority { actions := ["acquire"] }
    { schedule := [routine, urgent] } hnames 0 tickInPass x (by decide) (by decide) hx⟩

end Scheduler

end ScosSensor
