import ScosSensor.PendingTasks
import Mathlib.Data.PNat.Order

/-!
# The list of upcoming tasks

After the pending tasks a pass lists the tasks that are coming up, for display
only. It looks ahead ten times the shortest interval of the snapshot, and reads
the instances as the pending phase has left them: advanced past the times that
were due, and switched off where none was left.
-/
namespace ScosSensor

namespace Scheduler

/-- The body of the loop of `_queue_pending_tasks`, with the instance that it
leaves in the snapshot. -/
def visitEntry (now : ℤ) (pendingQueue : TaskQueue ℕ) (entry : ScheduleEntry) (db : Database) :
    Except Exc (TaskQueue ℕ × ScheduleEntry × Database) := do
  let (taskTime, entry, db) ← takePendingTaskTime now entry db
  let (entry, db) ← cancelIfCompleted entry db
  match taskTime with
  | none => return (pendingQueue, entry, db)
  | some taskTime =>
    let (taskId, entry) := entry.getNextTaskId
    let db ← db.saveFields entry entry.writeTaskId
    return (pendingQueue.enter taskTime entry.priority entry.action entry.name taskId, entry, db)

/-- `_queue_pending_tasks(schedule_snapshot)`, with the instances of the snapshot. -/
def visitPendingTasks (now : String → ℤ) : List ScheduleEntry → TaskQueue ℕ → Database →
    Except Exc (TaskQueue ℕ × List ScheduleEntry × Database)
  | [], pendingQueue, db => return (pendingQueue, [], db)
  | entry :: snapshot, pendingQueue, db => do
    let (pendingQueue, entry, db) ← visitEntry (now entry.name) pendingQueue entry db
    let (pendingQueue, snapshot, db) ← visitPendingTasks now snapshot pendingQueue db
    return (pendingQueue, entry :: snapshot, db)

/-- `interval_multiplier`. -/
def intervalMultiplier : ℤ := 10

/-- `_get_min_interval(schedule_snapshot)`. -/
def getMinInterval (snapshot : List ScheduleEntry) : ℕ+ :=
  (snapshot.filterMap fun e => e.interval).min?.getD 1

/-- `upcoming_task_times[entry] = task_times`: two instances are the same key
when their primary keys are equal. -/
def setItem (upcoming : List (ScheduleEntry × Times)) (entry : ScheduleEntry)
    (taskTimes : Times) : List (ScheduleEntry × Times) :=
  if (Table.get? (fun item => item.1.name) entry.name upcoming).isSome then
    Table.update (fun item => item.1.name) entry.name (fun item => (item.1, taskTimes)) upcoming
  else upcoming ++ [(entry, taskTimes)]

/-- `_get_upcoming_task_times(schedule_snapshot)` when `timefn` reads `now`. -/
def getUpcomingTaskTimes (now : ℤ) (snapshot : List ScheduleEntry) :
    List (ScheduleEntry × Times) :=
  let lookahead := now + getMinInterval snapshot * intervalMultiplier
  snapshot.foldl (fun upcoming entry =>
    setItem upcoming entry (entry.getRemainingTimes (some lookahead))) []

/-- The inner loop of `_queue_upcoming_tasks`; no task id is given out yet. -/
def enterTimes (entry : ScheduleEntry) (upcomingQueue : TaskQueue (Option ℕ))
    (taskTimes : List ℤ) : TaskQueue (Option ℕ) :=
  taskTimes.foldl (fun queue t =>
    queue.enter t entry.priority entry.action entry.name none) upcomingQueue

/-- `_queue_upcoming_tasks(schedule_snapshot)`; `none` when the times of an entry
have no end. -/
def queueUpcomingTasks (now : ℤ) (snapshot : List ScheduleEntry) :
    Option (TaskQueue (Option ℕ)) :=
  (getUpcomingTaskTimes now snapshot).foldlM (fun queue item =>
    (item.2.toList?).map (enterTimes item.1 queue)) []

/-- What `_queue_tasks` leaves: the pending queue that it returns, the upcoming
list that becomes `task_queue`, the instances of the snapshot and the tables. -/
structure Queued where
  pending : TaskQueue ℕ
  taskQueue : Option (TaskQueue (Option ℕ))
  snapshot : List ScheduleEntry
  db : Database

/-- `_queue_tasks(schedule_snapshot)`. The clock is read at each visit, and once
more for the upcoming list. -/
def queueTasks (now : String → ℤ) (nowUpcoming : ℤ) (snapshot : List ScheduleEntry)
    (db : Database) : Except Exc Queued := do
  let (pending, snapshot, db) ← visitPendingTasks now snapshot [] db
  return ⟨pending, queueUpcomingTasks nowUpcoming snapshot, snapshot, db⟩

end Scheduler

/-- The task that the upcoming list holds for a time of the entry. -/
def ScheduleEntry.upcomingTask (e : ScheduleEntry) (t : ℤ) : Task (Option ℕ) :=
  ⟨t, e.priority, e.action, e.name, none⟩

namespace Scheduler

/-- The smallest interval of a snapshot, one when no entry has any. -/
def IsMinInterval (snapshot : List ScheduleEntry) (m : ℕ+) : Prop :=
  IsLeast {i | ∃ e ∈ snapshot, e.interval = some i} m ∨
    (∀ e ∈ snapshot, e.interval = none) ∧ m = 1

/-- The upcoming list of a pass at `c` that finds the rows `db` and leaves the
rows `db'`, when `m` is the shortest interval. -/
structure UpcomingList (c : ℤ) (m : ℕ+) (db db' : Database) (upcoming : TaskQueue (Option ℕ)) :
    Prop where
  listed : ∀ task, task ∈ upcoming ↔
    ∃ e ∈ db'.activeEntries, ∃ t ∈ e.remaining, t < c + 10 * m ∧ task = e.upcomingTask t
  once : (upcoming.map fun task => (task.scheduleEntryName, task.time)).Nodup
  later : ∀ task ∈ upcoming, c < task.time
  earliest : ∀ e ∈ db'.schedule, (∃ task ∈ upcoming, task.scheduleEntryName = e.name) →
    IsLeast {t | ∃ task ∈ upcoming, task.scheduleEntryName = e.name ∧ task.time = t} e.nextTaskTime
  kept : ∀ e ∈ db.activeEntries, ∃ row, db'.getEntry e.name = some row ∧
    row.remaining = {t | t ∈ e.remaining ∧ c < t}
  scheduled : ∀ e ∈ db.activeEntries, e.nextTaskTime ∈ grid e.start e.interval → ∀ t,
    e.upcomingTask t ∈ upcoming ↔
      t ∈ e.scheduledTimes ∧ e.nextTaskTime ≤ t ∧ c < t ∧ t < c + 10 * m
  small : upcoming.length ≤ 10 * db.activeEntries.length

end Scheduler

namespace ScheduleEntry

variable {e : ScheduleEntry} {now t : ℤ}

/-- A visit leaves the columns that describe the entry alone. -/
theorem visited_frame (now : ℤ) (e : ScheduleEntry) : e.visited now = { e with
    nextTaskTime := (e.visited now).nextTaskTime
    isActive := (e.visited now).isActive
    nextTaskId := (e.visited now).nextTaskId } := by
  unfold visited
  split_ifs
  · rw [settled_frame]
  · rw [settled_frame]
    rfl

@[simp] theorem visited_interval (now : ℤ) (e : ScheduleEntry) :
    (e.visited now).interval = e.interval :=
  (congrArg interval (visited_frame now e)).trans rfl

theorem upcomingTask_visited (now : ℤ) (e : ScheduleEntry) (t : ℤ) :
    (e.visited now).upcomingTask t = e.upcomingTask t :=
  (congrArg (fun row => row.upcomingTask t) (visited_frame now e)).trans rfl

theorem remaining_visited (now : ℤ) (e : ScheduleEntry) :
    (e.visited now).remaining = {x | x ∈ e.remaining ∧ now < x} := by
  rw [(visited_times now e).1, remaining_settled]

/-- A time of the grid that is not behind the next one is on the grid from there. -/
theorem mem_remaining_iff_scheduled (hactive : e.isActive = true)
    (hgrid : e.nextTaskTime ∈ grid e.start e.interval) :
    t ∈ e.remaining ↔ t ∈ e.scheduledTimes ∧ e.nextTaskTime ≤ t := by
  have hmem : t ∈ grid e.nextTaskTime e.interval ↔
      t ∈ grid e.start e.interval ∧ e.nextTaskTime ≤ t := by
    cases hi : e.interval with
    | none =>
      have hstart : e.nextTaskTime = e.start := by simpa [grid, hi] using hgrid
      simp only [grid, Set.mem_singleton_iff, hstart]
      omega
    | some i =>
      have hpos : 0 < (i : ℤ) := by exact_mod_cast i.pos
      obtain ⟨k, hk⟩ : ∃ k : ℕ, e.nextTaskTime = e.start + k * (i : ℤ) := by
        simpa [grid, hi] using hgrid
      simp only [grid, Set.mem_ofPred_eq, hk]
      constructor
      · rintro ⟨j, hj⟩
        refine ⟨⟨k + j, ?_⟩, ?_⟩
        · push_cast
          linarith
        · have hj0 : 0 ≤ (j : ℤ) * i := by positivity
          linarith
      · rintro ⟨⟨j, hj⟩, hle⟩
        have hkj : k ≤ j := by
          by_contra hlt
          have hcast : (j : ℤ) < k := by exact_mod_cast not_le.mp hlt
          nlinarith
        refine ⟨j - k, ?_⟩
        rw [Nat.cast_sub hkj]
        linarith
  simp only [remaining, scheduledTimes, Set.mem_ofPred_eq, hactive, true_and, hmem]
  tauto

end ScheduleEntry

namespace Scheduler

open ScheduleEntry

variable {db : Database} {e : ScheduleEntry} {snapshot : List ScheduleEntry} {m : ℕ+} {c t : ℤ}

theorem isMinInterval_getMinInterval (snapshot : List ScheduleEntry) :
    IsMinInterval snapshot (getMinInterval snapshot) := by
  unfold getMinInterval
  cases hmin : (snapshot.filterMap fun e => e.interval).min? with
  | none =>
    rw [List.min?_eq_none_iff, List.filterMap_eq_nil_iff] at hmin
    exact .inr ⟨hmin, rfl⟩
  | some m =>
    obtain ⟨hmem, hle⟩ := List.min?_eq_some_iff.mp hmin
    simp only [List.mem_filterMap] at hmem hle
    exact .inl ⟨hmem, fun i hi => hle i hi⟩

theorem IsMinInterval.le (h : IsMinInterval snapshot m) (he : e ∈ snapshot) {i : ℕ+}
    (hi : e.interval = some i) : m ≤ i := by
  obtain hleast | ⟨hnone, -⟩ := h
  · exact hleast.2 ⟨e, he, hi⟩
  · simp [hnone e he] at hi

/-- A visit does not change the intervals. -/
theorem IsMinInterval.of_visited (h : IsMinInterval (snapshot.map fun e => e.visited c) m) :
    IsMinInterval snapshot m := by
  unfold IsMinInterval at h ⊢
  simpa [List.mem_map] using h

/-! ### The pending phase and its instances -/

/-- Keeping the instances does not change the pending queue or the tables. -/
theorem queueEntry_eq_map (now : ℤ) (queue : TaskQueue ℕ) (e : ScheduleEntry) (db : Database) :
    queueEntry now queue e db = (visitEntry now queue e db).map fun out => (out.1, out.2.2) := by
  unfold queueEntry visitEntry
  cases takePendingTaskTime now e db with
  | error err => rfl
  | ok taken =>
    obtain ⟨taskTime, entry, db'⟩ := taken
    simp only [bind, Except.bind]
    cases cancelIfCompleted entry db' with
    | error err => rfl
    | ok left =>
      cases taskTime with
      | none => rfl
      | some taskTime =>
        simp only
        cases left.2.saveFields left.1.getNextTaskId.2 left.1.getNextTaskId.2.writeTaskId with
        | error err => rfl
        | ok db'' => rfl

theorem queuePendingTasks_eq_map (now : String → ℤ) (snapshot : List ScheduleEntry)
    (queue : TaskQueue ℕ) (db : Database) : queuePendingTasks now snapshot queue db =
      (visitPendingTasks now snapshot queue db).map fun out => (out.1, out.2.2) := by
  induction snapshot generalizing queue db with
  | nil => rfl
  | cons e snapshot ih =>
    rw [queuePendingTasks, visitPendingTasks, queueEntry_eq_map]
    cases visitEntry (now e.name) queue e db with
    | error err => rfl
    | ok out =>
      change queuePendingTasks now snapshot out.1 out.2.2 = _
      rw [ih]
      simp only [bind, Except.bind]
      cases visitPendingTasks now snapshot out.1 out.2.2 with
      | error err => rfl
      | ok rest => rfl

/-- Whatever the tables hold, a take and a cancellation leave the settled instance. -/
theorem cancelIfCompleted_instance {now : ℤ} {left : ScheduleEntry} {db' : Database}
    (h : cancelIfCompleted (e.takePending now).2 db = .ok (left, db')) : left = e.settled now := by
  unfold settled
  dsimp only
  obtain ⟨hleft, hok⟩ | ⟨hdone, -, hok⟩ | ⟨-, -, herror⟩ :=
    cancelIfCompleted_cases (e.takePending now).2 db
  · rw [hok] at h
    rw [if_pos hleft]
    exact (congrArg Prod.fst (Except.ok.inj h)).symm
  · rw [hok] at h
    rw [if_neg (by simp [hdone])]
    exact (congrArg Prod.fst (Except.ok.inj h)).symm
  · simp [herror] at h

/-- The instance after a visit does not depend on the tables. -/
theorem visitEntry_instance {now : ℤ} {queue queue' : TaskQueue ℕ} {e' : ScheduleEntry}
    {db' : Database} (h : visitEntry now queue e db = .ok (queue', e', db')) :
    e' = e.visited now := by
  unfold visitEntry at h
  obtain ⟨-, htake⟩ | ⟨-, htake⟩ := takePendingTaskTime_cases now e db
  · simp only [htake, bind, Except.bind] at h
    split at h
    · simp at h
    · rename_i out hcancel
      obtain ⟨left, db₁⟩ := out
      obtain rfl := cancelIfCompleted_instance hcancel
      unfold visited
      cases hdue : e.dueTime now with
      | none =>
        simp only [hdue, pure, Except.pure, Except.ok.injEq, Prod.mk.injEq] at h
        simpa using h.2.1.symm
      | some t =>
        simp only [hdue] at h
        split at h
        · simp at h
        · simp only [pure, Except.pure, Except.ok.injEq, Prod.mk.injEq] at h
          simpa using h.2.1.symm
  · simp [htake, bind, Except.bind] at h

theorem visitPendingTasks_instances {now : String → ℤ} {queue : TaskQueue ℕ}
    {out : TaskQueue ℕ × List ScheduleEntry × Database}
    (h : visitPendingTasks now snapshot queue db = .ok out) :
    out.2.1 = snapshot.map fun e => e.visited (now e.name) := by
  induction snapshot generalizing queue db out with
  | nil =>
    obtain rfl := Except.ok.inj h
    rfl
  | cons e snapshot ih =>
    simp only [visitPendingTasks, bind, Except.bind] at h
    split at h
    · simp at h
    · rename_i first hfirst
      split at h
      · simp at h
      · rename_i rest hrest
        obtain rfl := Except.ok.inj h
        simp only [List.map_cons, ih hrest, visitEntry_instance hfirst]

/-- The pending phase over a snapshot that is still what the rows hold. -/
theorem visitPendingTasks_ok (hnames : (db.schedule.map name).Nodup) (now : String → ℤ)
    (hsnapshot : (snapshot.map name).Nodup) (hstored : ∀ e ∈ snapshot, db.getEntry e.name = some e)
    (queue : TaskQueue ℕ) :
    ∃ queue', visitPendingTasks now snapshot queue db =
        .ok (queue', snapshot.map (fun e => e.visited (now e.name)), visitAll now snapshot db) ∧
      queuePendingTasks now snapshot queue db = .ok (queue', visitAll now snapshot db) := by
  obtain ⟨queue', hrun, -⟩ := queuePendingTasks_ok hnames now hsnapshot hstored queue
  refine ⟨queue', ?_, hrun⟩
  rw [queuePendingTasks_eq_map] at hrun
  cases hvisit : visitPendingTasks now snapshot queue db with
  | error err => simp [hvisit, Except.map] at hrun
  | ok out =>
    rw [hvisit] at hrun
    have hout : (out.1, out.2.2) = (queue', visitAll now snapshot db) := Except.ok.inj hrun
    obtain ⟨hqueue, hdb⟩ := Prod.mk.inj hout
    rw [← visitPendingTasks_instances hvisit, ← hqueue, ← hdb]

/-! ### The upcoming list of a snapshot -/

theorem getUpcomingTaskTimes_eq (hsnapshot : (snapshot.map name).Nodup) (now : ℤ) :
    getUpcomingTaskTimes now snapshot = snapshot.map fun e =>
      (e, .range (e.takeUntil (now + getMinInterval snapshot * intervalMultiplier)).1) := by
  unfold getUpcomingTaskTimes
  simp only [getRemainingTimes_some]
  generalize now + (getMinInterval snapshot : ℤ) * intervalMultiplier = lookahead
  -- The keys so far are the visited part of the snapshot.
  have hfold : ∀ done : List ScheduleEntry, ((done ++ snapshot).map name).Nodup →
      snapshot.foldl (fun upcoming e => setItem upcoming e (.range (e.takeUntil lookahead).1))
        (done.map fun e => (e, .range (e.takeUntil lookahead).1)) =
      (done ++ snapshot).map fun e => (e, .range (e.takeUntil lookahead).1) := by
    clear hsnapshot
    induction snapshot with
    | nil => simp
    | cons e snapshot ih =>
      intro done hdone
      have hnew : e.name ∉ done.map name := by
        simp only [List.map_append, List.map_cons] at hdone
        exact fun h => (List.nodup_append.mp hdone).2.2 _ h _ List.mem_cons_self rfl
      have hset : setItem (done.map fun e => (e, .range (e.takeUntil lookahead).1)) e
          (.range (e.takeUntil lookahead).1) =
          (done ++ [e]).map fun e => (e, .range (e.takeUntil lookahead).1) := by
        rw [setItem, if_neg, List.map_append, List.map_singleton]
        rw [Table.get?_isSome_iff, List.map_map]
        exact hnew
      rw [List.foldl_cons, hset, ih _ (by simpa using hdone)]
      simp
  exact hfold [] (by simpa using hsnapshot)

/-- The tasks of a snapshot with times below a bound. -/
def tasksBefore (lookahead : ℤ) (snapshot : List ScheduleEntry) : List (Task (Option ℕ)) :=
  snapshot.flatMap fun e => (e.takeUntil lookahead).1.toList.map e.upcomingTask

theorem enterTimes_perm (e : ScheduleEntry) (queue : TaskQueue (Option ℕ)) (times : List ℤ) :
    (enterTimes e queue times).Perm (times.map e.upcomingTask ++ queue) := by
  unfold enterTimes
  induction times generalizing queue with
  | nil => exact .refl _
  | cons t times ih =>
    have henter := TaskQueue.enter_perm queue t e.priority e.action e.name none
    exact (ih _).trans ((henter.append_left _).trans List.perm_middle)

/-- The upcoming list is the times of each entry below the bound, and building it
always ends. -/
theorem queueUpcomingTasks_perm (hsnapshot : (snapshot.map name).Nodup) (now : ℤ) :
    ∃ upcoming, queueUpcomingTasks now snapshot = some upcoming ∧
      upcoming.Perm
        (tasksBefore (now + getMinInterval snapshot * intervalMultiplier) snapshot) := by
  unfold queueUpcomingTasks
  rw [getUpcomingTaskTimes_eq hsnapshot]
  generalize now + (getMinInterval snapshot : ℤ) * intervalMultiplier = lookahead
  have hfold : ∀ queue : TaskQueue (Option ℕ), ∃ upcoming,
      (snapshot.map fun e => (e, Times.range (e.takeUntil lookahead).1)).foldlM
        (fun queue item => (item.2.toList?).map (enterTimes item.1 queue)) queue = some upcoming ∧
      upcoming.Perm (tasksBefore lookahead snapshot ++ queue) := by
    clear hsnapshot
    induction snapshot with
    | nil => exact fun queue => ⟨queue, rfl, .refl _⟩
    | cons e snapshot ih =>
      intro queue
      obtain ⟨upcoming, hrun, hperm⟩ := ih (enterTimes e queue (e.takeUntil lookahead).1.toList)
      refine ⟨upcoming, hrun, ?_⟩
      have henter := (enterTimes_perm e queue (e.takeUntil lookahead).1.toList).append_left
        (tasksBefore lookahead snapshot)
      rw [tasksBefore, List.flatMap_cons, List.append_assoc]
      exact (hperm.trans henter).trans (List.perm_append_comm_assoc _ _ _)
  obtain ⟨upcoming, hrun, hperm⟩ := hfold []
  exact ⟨upcoming, hrun, by simpa using hperm⟩

theorem mem_tasksBefore {lookahead : ℤ} {task : Task (Option ℕ)} :
    task ∈ tasksBefore lookahead snapshot ↔
      ∃ e ∈ snapshot, ∃ t ∈ e.remaining, t < lookahead ∧ task = e.upcomingTask t := by
  simp only [tasksBefore, List.mem_flatMap, List.mem_map,
    PyRange.mem_toList (takeUntil_step _ lookahead), mem_takeUntil, and_assoc, eq_comm]

/-- Entries are told apart by their names, the times of one entry by the range. -/
theorem nodup_tasksBefore (hsnapshot : (snapshot.map name).Nodup) (lookahead : ℤ) :
    ((tasksBefore lookahead snapshot).map fun task =>
      (task.scheduleEntryName, task.time)).Nodup := by
  unfold tasksBefore
  rw [List.map_flatMap, List.nodup_flatMap]
  constructor
  · intro e he
    rw [List.map_map]
    apply List.Nodup.map _ (PyRange.nodup_toList (takeUntil_step e lookahead))
    intro t t' h
    exact congrArg Prod.snd h
  · rw [List.Nodup, List.pairwise_map] at hsnapshot
    apply hsnapshot.imp
    intro e e' hne
    apply List.disjoint_left.mpr
    intro pair h h'
    simp only [List.map_map, List.mem_map, Function.comp_apply] at h h'
    obtain ⟨t, -, rfl⟩ := h
    obtain ⟨t', -, h'⟩ := h'
    exact hne (congrArg Prod.fst h').symm

theorem length_tasksBefore_le {lookahead : ℤ} {n : ℕ}
    (h : ∀ e ∈ snapshot, (e.takeUntil lookahead).1.length ≤ n) :
    (tasksBefore lookahead snapshot).length ≤ n * snapshot.length := by
  unfold tasksBefore
  induction snapshot with
  | nil => simp
  | cons e snapshot ih =>
    have hfirst := h e List.mem_cons_self
    have hrest := ih fun a ha => h a (List.mem_cons_of_mem e ha)
    rw [List.flatMap_cons, List.length_append, List.length_map, PyRange.length_toList,
      List.length_cons, mul_add_one]
    omega

/-- An entry that is past `c` has at most ten times in ten times the shortest
interval. -/
theorem length_visited_le (h : IsMinInterval snapshot m) (he : e ∈ snapshot) (c : ℤ) :
    ((e.visited c).takeUntil (c + 10 * m)).1.length ≤ 10 := by
  by_cases hleft : (e.visited c).remaining.Nonempty
  · obtain ⟨t, ht⟩ := hleft
    have hnext := nextTaskTime_mem ht
    rw [remaining_visited] at hnext
    apply takeUntil_length_le (m := m) (by omega)
    · intro i hi
      rw [visited_interval] at hi
      exact h.le he hi
    · have hlt : c < (e.visited c).nextTaskTime := hnext.2
      push_cast
      omega
  · have hempty : ((e.visited c).takeUntil (c + 10 * m)).1.length = 0 := by
      rw [takeUntil_length_eq_zero]
      exact fun t ht => absurd ⟨t, ht⟩ hleft
    omega

theorem getEntry_visited (hnames : (db.schedule.map name).Nodup) (now : String → ℤ)
    (he : e ∈ db.activeEntries) :
    (visitAll now db.activeEntries db).getEntry e.name = some (e.visited (now e.name)) := by
  have hstored := getEntry_visitAll_active hnames now (Database.getEntry_of_mem_activeEntries hnames he)
  rwa [passed, if_pos (Database.mem_activeEntries.mp he).2] at hstored

/-- The rows that are active after the visits are those of the snapshot that
still have a time left. -/
theorem mem_activeEntries_visitAll (hnames : (db.schedule.map name).Nodup) {now : String → ℤ}
    {row : ScheduleEntry} : row ∈ (visitAll now db.activeEntries db).activeEntries ↔
      row.isActive = true ∧ ∃ e ∈ db.activeEntries, e.visited (now e.name) = row := by
  have hnames' : ((visitAll now db.activeEntries db).schedule.map name).Nodup := by
    rwa [names_visitAll]
  constructor
  · intro hrow
    obtain ⟨hmem, hactive⟩ := Database.mem_activeEntries.mp hrow
    refine ⟨hactive, ?_⟩
    have hname : row.name ∈ db.schedule.map name := by
      rw [← names_visitAll now db.activeEntries db]
      exact List.mem_map_of_mem hmem
    obtain ⟨e, he, hsame⟩ := List.mem_map.mp hname
    have hstored : (visitAll now db.activeEntries db).getEntry e.name = some row := by
      rw [hsame]
      exact Table.get?_of_mem hnames' hmem
    rw [getEntry_visitAll_active hnames now (Table.get?_of_mem hnames he), Option.some.injEq,
      passed] at hstored
    by_cases heactive : e.isActive = true
    · rw [if_pos heactive] at hstored
      exact ⟨e, Database.mem_activeEntries.mpr ⟨he, heactive⟩, hstored⟩
    · rw [if_neg heactive] at hstored
      rw [hstored] at heactive
      exact absurd hactive heactive
  · intro ⟨hactive, e, he, hvisited⟩
    have hstored := getEntry_visited hnames now he
    rw [hvisited] at hstored
    exact Database.mem_activeEntries.mpr ⟨Database.mem_of_getEntry hstored, hactive⟩

section Exact

variable {lookahead : ℤ} {upcoming : TaskQueue (Option ℕ)}
  (hperm : upcoming.Perm (tasksBefore lookahead (db.activeEntries.map fun e => e.visited c)))

include hperm

theorem mem_upcoming_iff {task : Task (Option ℕ)} : task ∈ upcoming ↔ ∃ e ∈ db.activeEntries,
    ∃ t ∈ (e.visited c).remaining, t < lookahead ∧ task = (e.visited c).upcomingTask t := by
  rw [hperm.mem_iff, mem_tasksBefore]
  simp only [List.mem_map, exists_exists_and_eq_and]

/-- A time is listed for an entry when the visit has left it and it is near enough. -/
theorem upcomingTask_mem_iff (hnames : (db.schedule.map name).Nodup) (he : e ∈ db.activeEntries) :
    e.upcomingTask t ∈ upcoming ↔ t ∈ (e.visited c).remaining ∧ t < lookahead := by
  rw [mem_upcoming_iff hperm]
  constructor
  · rintro ⟨a, ha, t', ht', hlt, htask⟩
    have hname := congrArg Task.scheduleEntryName htask
    rw [upcomingTask_visited] at hname
    obtain rfl := Table.eq_of_key_eq (Database.nodup_activeEntries hnames) he ha hname
    obtain rfl : t = t' := congrArg Task.time htask
    exact ⟨ht', hlt⟩
  · intro ⟨ht, hlt⟩
    exact ⟨e, he, t, ht, hlt, (upcomingTask_visited c e t).symm⟩

/-- The next time of an entry is listed with any other and comes before it. -/
theorem isLeast_nextTaskTime (hnames : (db.schedule.map name).Nodup) (he : e ∈ db.activeEntries)
    (ht : t ∈ (e.visited c).remaining) (hlt : t < lookahead) :
    IsLeast {t | ∃ task ∈ upcoming, task.scheduleEntryName = e.name ∧ task.time = t}
      (e.visited c).nextTaskTime := by
  constructor
  · refine ⟨e.upcomingTask (e.visited c).nextTaskTime, ?_, rfl, rfl⟩
    rw [upcomingTask_mem_iff hperm hnames he]
    exact ⟨nextTaskTime_mem ht, (nextTaskTime_le ht).trans_lt hlt⟩
  · rintro x ⟨task, htask, hname, rfl⟩
    obtain ⟨a, ha, y, hy, -, rfl⟩ := (mem_upcoming_iff hperm).mp htask
    rw [upcomingTask_visited] at hname
    obtain rfl := Table.eq_of_key_eq (Database.nodup_activeEntries hnames) ha he hname
    exact nextTaskTime_le hy

end Exact

/-- The instances after the pending phase give the upcoming list of the pass. -/
theorem upcomingList_of_perm (hnames : (db.schedule.map name).Nodup)
    (hmin : IsMinInterval db.activeEntries m) {upcoming : TaskQueue (Option ℕ)}
    (hperm : upcoming.Perm
      (tasksBefore (c + 10 * m) (db.activeEntries.map fun e => e.visited c))) :
    UpcomingList c m db (visitAll (fun _ => c) db.activeEntries db) upcoming := by
  refine ⟨?listed, ?once, ?later, ?earliest, ?kept, ?scheduled, ?small⟩
  case listed =>
    intro task
    rw [mem_upcoming_iff hperm]
    constructor
    · rintro ⟨e, he, t, ht, htask⟩
      exact ⟨e.visited c, (mem_activeEntries_visitAll hnames).mpr ⟨ht.1, e, he, rfl⟩, t, ht, htask⟩
    · rintro ⟨row, hrow, t, ht, htask⟩
      obtain ⟨-, e, he, rfl⟩ := (mem_activeEntries_visitAll hnames).mp hrow
      exact ⟨e, he, t, ht, htask⟩
  case once =>
    have hvisited : ((db.activeEntries.map fun e => e.visited c).map name).Nodup := by
      simpa [Function.comp_def] using Database.nodup_activeEntries hnames
    rw [(hperm.map _).nodup_iff]
    exact nodup_tasksBefore hvisited _
  case later =>
    intro task htask
    obtain ⟨e, -, t, ht, -, rfl⟩ := (mem_upcoming_iff hperm).mp htask
    rw [remaining_visited] at ht
    exact ht.2
  case earliest =>
    intro row hrow ⟨task, htask, hname⟩
    obtain ⟨e, he, t, ht, hlt, rfl⟩ := (mem_upcoming_iff hperm).mp htask
    have hnames' : ((visitAll (fun _ => c) db.activeEntries db).schedule.map name).Nodup := by
      rwa [names_visitAll]
    have hstored := Database.mem_of_getEntry (getEntry_visited hnames (fun _ => c) he)
    obtain rfl := Table.eq_of_key_eq hnames' hstored hrow hname
    rw [visited_name]
    exact isLeast_nextTaskTime hperm hnames he ht hlt
  case kept =>
    intro e he
    exact ⟨e.visited c, getEntry_visited hnames (fun _ => c) he, remaining_visited c e⟩
  case scheduled =>
    intro e he hgrid t
    rw [upcomingTask_mem_iff hperm hnames he, remaining_visited]
    simp only [Set.mem_ofPred_eq,
      mem_remaining_iff_scheduled (Database.mem_activeEntries.mp he).2 hgrid, and_assoc]
  case small =>
    have hcount : (db.activeEntries.map fun e => e.visited c).length = db.activeEntries.length :=
      List.length_map _
    rw [hperm.length_eq, ← hcount]
    apply length_tasksBefore_le
    intro row hrow
    obtain ⟨e, he, rfl⟩ := List.mem_map.mp hrow
    exact length_visited_le hmin he c

/-- What `_queue_tasks` leaves when nobody else writes the rows of the snapshot. -/
theorem queueTasks_ok (hnames : (db.schedule.map name).Nodup) (now : String → ℤ) (c : ℤ) :
    ∃ pending, queueTasks now c db.activeEntries db = .ok
        ⟨pending, queueUpcomingTasks c (db.activeEntries.map fun e => e.visited (now e.name)),
          db.activeEntries.map fun e => e.visited (now e.name),
          visitAll now db.activeEntries db⟩ ∧
      pendingTasks now db = .ok (pending, visitAll now db.activeEntries db) := by
  obtain ⟨pending, hvisit, hpending⟩ := visitPendingTasks_ok hnames now
    (Database.nodup_activeEntries hnames)
    (fun _ he => Database.getEntry_of_mem_activeEntries hnames he) []
  refine ⟨pending, ?_, hpending⟩
  rw [queueTasks, hvisit]
  rfl

/-- A one-shot entry, for runs on fixed inputs. -/
def dueOnce : ScheduleEntry := ⟨"once", "acquire", 10, 12, none, none, true, none, 12, 1, "op"⟩

/-- For active entries of any number and kind and one clock reading, `task_queue`
is exactly what is coming up in ten times the shortest interval, and is short. -/
theorem queueTasks_upcoming_exact (db : Database) (hnames : (db.schedule.map name).Nodup) (c : ℤ) :
    ∃ out upcoming, queueTasks (fun _ => c) c db.activeEntries db = .ok out ∧
      out.taskQueue = some upcoming ∧
      pendingTasks (fun _ => c) db = .ok (out.pending, out.db) ∧
      (∀ e ∈ out.snapshot, out.db.getEntry e.name = some e) ∧
      ∃ m, IsMinInterval db.activeEntries m ∧ UpcomingList c m db out.db upcoming := by
  obtain ⟨pending, hqueue, hpending⟩ := queueTasks_ok hnames (fun _ => c) c
  have hvisited : ((db.activeEntries.map fun e => e.visited c).map name).Nodup := by
    simpa [Function.comp_def] using Database.nodup_activeEntries hnames
  obtain ⟨upcoming, hupcoming, hperm⟩ := queueUpcomingTasks_perm hvisited c
  have hmin := (isMinInterval_getMinInterval (db.activeEntries.map fun e => e.visited c)).of_visited
  have hlookahead : c + (getMinInterval (db.activeEntries.map fun e => e.visited c) : ℤ) *
      intervalMultiplier = c + 10 * getMinInterval (db.activeEntries.map fun e => e.visited c) := by
    rw [intervalMultiplier]
    ring
  rw [hlookahead] at hperm
  refine ⟨_, upcoming, hqueue, hupcoming, hpending, ?_, _, hmin,
    upcomingList_of_perm hnames hmin hperm⟩
  intro row hrow
  obtain ⟨e, he, rfl⟩ := List.mem_map.mp hrow
  rw [visited_name]
  exact getEntry_visited hnames (fun _ => c) he

/-- A recurring entry and a one-shot entry that is due. -/
theorem queueTasks_upcoming_exact_sweep :
    ∃ out upcoming, queueTasks (fun _ => 25) 25 [everyTenSeconds, dueOnce]
        { schedule := [everyTenSeconds, dueOnce] } = .ok out ∧
      out.taskQueue = some upcoming ∧ everyTenSeconds.upcomingTask 30 ∈ upcoming ∧
      upcoming.length ≤ 20 := by
  obtain ⟨out, upcoming, hrun, hqueue, -, -, m, -, hlist⟩ :=
    queueTasks_upcoming_exact { schedule := [everyTenSeconds, dueOnce] } (by decide) 25
  have hpos : (1 : ℤ) ≤ m := by exact_mod_cast m.pos
  refine ⟨out, upcoming, hrun, hqueue, ?_, hlist.small⟩
  rw [hlist.scheduled everyTenSeconds (by decide) ⟨0, rfl⟩]
  refine ⟨⟨⟨3, rfl⟩, by simp [everyTenSeconds]⟩, by decide, by decide, ?_⟩
  omega

example : (queueUpcomingTasks 25 [everyTenSeconds.visited 25, dueOnce.visited 25]).map
    (List.map Task.time) = some [30, 40, 50, 60, 70, 80, 90, 100, 110, 120] := by decide

end Scheduler

end ScosSensor
