import ScosSensor.Database
import ScosSensor.TaskQueue

/-!
# Queueing the pending tasks of a pass

One scheduler pass reads a snapshot of the active entries and visits them in
order. Each visit takes the due times, writes the entry back in up to three
partial updates and enters at most one task. The clock is read once a visit, so
a pass is given the reading for each entry by name.
-/
namespace ScosSensor

namespace ScheduleEntry

/-- `update_fields=("next_task_time", "is_active")`. -/
def writeTimes (e row : ScheduleEntry) : ScheduleEntry :=
  { row with nextTaskTime := e.nextTaskTime, isActive := e.isActive }

/-- `update_fields=("is_active",)`. -/
def writeActive (e row : ScheduleEntry) : ScheduleEntry := { row with isActive := e.isActive }

/-- `update_fields=("next_task_id",)`. -/
def writeTaskId (e row : ScheduleEntry) : ScheduleEntry :=
  { row with nextTaskId := e.nextTaskId }

end ScheduleEntry

namespace Scheduler

/-- `_compress_past_task_times`: the most recent of the times taken. `npast = len(past)`,
which is only logged, is left out, and with it the overflow of `len` from `2 ^ 63` on. -/
def compressPastTaskTimes (past : PyRange) : ℤ := past.last

/-- `_take_pending_task_time(entry)`. The entry is saved also when it has no
pending time. -/
def takePendingTaskTime (now : ℤ) (entry : ScheduleEntry) (db : Database) :
    Except Exc (Option ℤ × ScheduleEntry × Database) := do
  let (taskTimes, entry) := entry.takePending now
  let db ← db.saveFields entry entry.writeTimes
  if taskTimes.length = 0 then return (none, entry, db)
  return (some (compressPastTaskTimes taskTimes), entry, db)

/-- `cancel(entry)`. -/
def cancel (entry : ScheduleEntry) (db : Database) : Except Exc (ScheduleEntry × Database) := do
  let entry := { entry with isActive := false }
  let db ← db.saveFields entry entry.writeActive
  return (entry, db)

/-- `_cancel_if_completed(entry)`. -/
def cancelIfCompleted (entry : ScheduleEntry) (db : Database) :
    Except Exc (ScheduleEntry × Database) :=
  if entry.hasRemainingTimes then return (entry, db) else cancel entry db

/-- The body of the loop of `_queue_pending_tasks`. -/
def queueEntry (now : ℤ) (pendingQueue : TaskQueue ℕ) (entry : ScheduleEntry) (db : Database) :
    Except Exc (TaskQueue ℕ × Database) := do
  let (taskTime, entry, db) ← takePendingTaskTime now entry db
  let (entry, db) ← cancelIfCompleted entry db
  match taskTime with
  | none => return (pendingQueue, db)
  | some taskTime =>
    let (taskId, entry) := entry.getNextTaskId
    let db ← db.saveFields entry entry.writeTaskId
    return (pendingQueue.enter taskTime entry.priority entry.action entry.name taskId, db)

/-- `_queue_pending_tasks(schedule_snapshot)`. -/
def queuePendingTasks (now : String → ℤ) : List ScheduleEntry → TaskQueue ℕ → Database →
    Except Exc (TaskQueue ℕ × Database)
  | [], pendingQueue, db => return (pendingQueue, db)
  | entry :: snapshot, pendingQueue, db => do
    let (pendingQueue, db) ← queueEntry (now entry.name) pendingQueue entry db
    queuePendingTasks now snapshot pendingQueue db

/-- A pass: the snapshot is the active entries, and the queue starts empty. -/
def pendingTasks (now : String → ℤ) (db : Database) : Except Exc (TaskQueue ℕ × Database) :=
  queuePendingTasks now db.activeEntries [] db

end Scheduler

/-! ### What a visit does to an entry that nobody else writes -/

namespace ScheduleEntry

/-- The time that a visit at `now` queues. -/
def dueTime (now : ℤ) (e : ScheduleEntry) : Option ℤ :=
  let times := (e.takePending now).1
  if times.length = 0 then none else some (Scheduler.compressPastTaskTimes times)

/-- The task that a visit at `now` queues. -/
def dueTask (now : ℤ) (e : ScheduleEntry) : Option PendingTask :=
  (e.dueTime now).map fun t => ⟨t, e.priority, e.action, e.name, e.nextTaskId⟩

/-- The entry after its due times are taken and, if none is left, cancelled. -/
def settled (now : ℤ) (e : ScheduleEntry) : ScheduleEntry :=
  let taken := (e.takePending now).2
  if taken.hasRemainingTimes then taken else { taken with isActive := false }

/-- The entry after a visit. -/
def visited (now : ℤ) (e : ScheduleEntry) : ScheduleEntry :=
  if e.dueTime now = none then e.settled now else (e.settled now).getNextTaskId.2

/-- A row after a pass: only an active row is visited. -/
def passed (now : ℤ) (e : ScheduleEntry) : ScheduleEntry :=
  if e.isActive then e.visited now else e

variable {e : ScheduleEntry} {now t : ℤ}

@[simp] theorem takePending_name (e : ScheduleEntry) (now : ℤ) :
    (e.takePending now).2.name = e.name := takeUntil_name e (now + 1)

theorem settled_frame (now : ℤ) (e : ScheduleEntry) : e.settled now = { e with
    nextTaskTime := (e.takePending now).2.nextTaskTime
    isActive := (e.settled now).isActive } := by
  have hframe : (e.takePending now).2 = { e with
      nextTaskTime := (e.takePending now).2.nextTaskTime
      isActive := (e.takePending now).2.isActive } := takeUntil_frame e (now + 1)
  unfold settled
  dsimp only
  split_ifs
  · exact hframe
  · rw [hframe]

@[simp] theorem settled_name (now : ℤ) (e : ScheduleEntry) : (e.settled now).name = e.name :=
  (congrArg name (settled_frame now e)).trans rfl

@[simp] theorem settled_nextTaskId (now : ℤ) (e : ScheduleEntry) :
    (e.settled now).nextTaskId = e.nextTaskId :=
  (congrArg nextTaskId (settled_frame now e)).trans rfl

@[simp] theorem visited_name (now : ℤ) (e : ScheduleEntry) : (e.visited now).name = e.name := by
  unfold visited
  split_ifs
  · exact settled_name now e
  · exact settled_name now e

@[simp] theorem passed_name (now : ℤ) (e : ScheduleEntry) : (e.passed now).name = e.name := by
  unfold passed
  split_ifs
  · exact visited_name now e
  · rfl

/-- A visit queues the largest time that is due. -/
theorem dueTime_eq_some : e.dueTime now = some t → IsGreatest {x | x ∈ e.remaining ∧ x ≤ now} t := by
  intro h
  unfold dueTime takePending at h
  dsimp only at h
  split_ifs at h with hlen
  obtain rfl := Option.some.inj h
  have hgreatest := isGreatest_takeUntil_last hlen
  simp only [Int.lt_add_one_iff] at hgreatest
  exact hgreatest

/-- A visit queues nothing exactly when no time is due. -/
theorem dueTime_eq_none : e.dueTime now = none ↔ ∀ x ∈ e.remaining, now < x := by
  have hlen := takeUntil_length_eq_zero (e := e) (t := now + 1)
  unfold dueTime takePending
  dsimp only
  split_ifs with h
  · exact ⟨fun _ x hx => Int.add_one_le_iff.mp (hlen.mp h x hx), fun _ => rfl⟩
  · refine ⟨nofun, fun hx => absurd (hlen.mpr fun x hmem => ?_) h⟩
    exact Int.add_one_le_iff.mpr (hx x hmem)

/-- A visit with nothing due takes nothing. -/
theorem takePending_of_not_due (h : e.dueTime now = none) : (e.takePending now).2 = e := by
  apply takeUntil_of_empty
  unfold dueTime takePending at h
  dsimp only at h
  by_contra hlen
  simp [hlen] at h

/-- A one-shot entry that is due is on before the visit and off after the take. -/
theorem takePending_oneShot (hi : e.interval = none) (h : e.dueTime now = some t) :
    e.isActive = true ∧ (e.takePending now).2.isActive = false := by
  refine ⟨(dueTime_eq_some h).1.1.1, ?_⟩
  have hlen : (e.takeUntil (now + 1)).1.length ≠ 0 := by
    intro hlen
    unfold dueTime takePending at h
    simp [hlen] at h
  unfold takePending
  rw [takeUntil_oneShot hi hlen]

theorem scheduleEntryName_dueTask {task : PendingTask} (h : e.dueTask now = some task) :
    task.scheduleEntryName = e.name := by
  obtain ⟨t, -, rfl⟩ := Option.map_eq_some_iff.mp h
  rfl

theorem remaining_settled (now : ℤ) (e : ScheduleEntry) :
    (e.settled now).remaining = {x | x ∈ e.remaining ∧ now < x} := by
  have htaken := remaining_takeUntil e (now + 1)
  simp only [Int.add_one_le_iff] at htaken
  rw [← htaken]
  unfold settled takePending
  dsimp only
  split_ifs with h
  · rfl
  · have hempty : ¬ (e.takeUntil (now + 1)).2.remaining.Nonempty := by
      rwa [← hasRemainingTimes_iff]
    rw [Set.not_nonempty_iff_eq_empty.mp hempty]
    ext x
    simp [remaining]

/-- After a visit the entry is active as long as it has a time left. -/
theorem settled_isActive_iff (now : ℤ) (e : ScheduleEntry) :
    (e.settled now).isActive = true ↔ (e.settled now).remaining.Nonempty := by
  constructor
  · intro h
    unfold settled at h ⊢
    dsimp only at h ⊢
    split_ifs at h ⊢ with hleft
    exact hasRemainingTimes_iff.mp hleft
  · intro ⟨x, hx⟩
    exact hx.1

/-- Taking a task id changes neither the times nor the activity. -/
theorem visited_times (now : ℤ) (e : ScheduleEntry) :
    (e.visited now).remaining = (e.settled now).remaining ∧
      (e.visited now).isActive = (e.settled now).isActive := by
  unfold visited
  split_ifs
  · exact ⟨rfl, rfl⟩
  · exact ⟨rfl, rfl⟩

/-- What a pass leaves to be taken, whether the row was visited or not. -/
theorem remaining_passed (now : ℤ) (e : ScheduleEntry) :
    (e.passed now).remaining = {x | x ∈ e.remaining ∧ now < x} := by
  unfold passed
  split_ifs with h
  · rw [(visited_times now e).1, remaining_settled]
  · have hinactive : e.isActive = false := by simpa using h
    ext x
    simp [remaining, hinactive]

theorem passed_isActive_iff (now : ℤ) (e : ScheduleEntry) :
    (e.passed now).isActive = true ↔ (e.passed now).remaining.Nonempty := by
  unfold passed
  split_ifs with h
  · rw [(visited_times now e).1, (visited_times now e).2]
    exact settled_isActive_iff now e
  · constructor
    · exact fun hactive => absurd hactive h
    · intro ⟨x, hx⟩
      exact hx.1

end ScheduleEntry

namespace Scheduler

open ScheduleEntry

variable {db : Database} {e : ScheduleEntry}

/-- What a take writes, whoever has changed the row in the meantime. -/
theorem takePendingTaskTime_cases (now : ℤ) (e : ScheduleEntry) (db : Database) :
    (db.getEntry e.name).isSome ∧ takePendingTaskTime now e db =
        .ok (e.dueTime now, (e.takePending now).2,
          db.writeRow e.name (e.takePending now).2.writeTimes) ∨
      db.getEntry e.name = none ∧ takePendingTaskTime now e db = .error .databaseError := by
  unfold takePendingTaskTime dueTime Database.saveFields
  simp only [takePending_name]
  by_cases h : (db.getEntry e.name).isSome
  · refine .inl ⟨h, ?_⟩
    simp only [h, if_true]
    change (if _ then _ else _ : Except Exc _) = _
    split_ifs <;> rfl
  · refine .inr ⟨by simpa using h, ?_⟩
    simp only [h, Bool.false_eq_true, if_false]
    rfl

/-- What a cancellation of a completed entry writes. -/
theorem cancelIfCompleted_cases (e : ScheduleEntry) (db : Database) :
    e.hasRemainingTimes = true ∧ cancelIfCompleted e db = .ok (e, db) ∨
      e.hasRemainingTimes = false ∧ (db.getEntry e.name).isSome ∧ cancelIfCompleted e db =
        .ok ({ e with isActive := false },
          db.writeRow e.name fun row => { row with isActive := false }) ∨
      e.hasRemainingTimes = false ∧ db.getEntry e.name = none ∧
        cancelIfCompleted e db = .error .databaseError := by
  unfold cancelIfCompleted
  by_cases hleft : e.hasRemainingTimes = true
  · exact .inl ⟨hleft, by rw [if_pos hleft]; rfl⟩
  · have hdone : e.hasRemainingTimes = false := by simpa using hleft
    refine .inr ?_
    rw [if_neg hleft]
    unfold cancel Database.saveFields
    dsimp only
    by_cases h : (db.getEntry e.name).isSome
    · refine .inl ⟨hdone, h, ?_⟩
      simp only [h, if_true]
      rfl
    · refine .inr ⟨hdone, by simpa using h, ?_⟩
      simp only [h, Bool.false_eq_true, if_false]
      rfl

theorem takePendingTaskTime_ok (hnames : (db.schedule.map name).Nodup)
    (he : db.getEntry e.name = some e) (now : ℤ) :
    takePendingTaskTime now e db =
      .ok (e.dueTime now, (e.takePending now).2, db.putEntry (e.takePending now).2) := by
  have hframe : (e.takePending now).2.writeTimes e = (e.takePending now).2 :=
    (takeUntil_frame e (now + 1)).symm
  have hsave : db.saveFields (e.takePending now).2 (e.takePending now).2.writeTimes =
      .ok (db.putEntry (e.takePending now).2) :=
    Database.saveFields_eq_putEntry hnames (by rw [takePending_name, he]) hframe
  unfold takePendingTaskTime dueTime
  simp only [hsave]
  change (if _ then _ else _ : Except Exc _) = _
  split_ifs <;> rfl

theorem cancel_ok (hnames : (db.schedule.map name).Nodup) (he : db.getEntry e.name = some e) :
    cancel e db =
      .ok ({ e with isActive := false }, db.putEntry { e with isActive := false }) := by
  have hsave : db.saveFields { e with isActive := false }
      (writeActive { e with isActive := false }) =
      .ok (db.putEntry { e with isActive := false }) :=
    Database.saveFields_eq_putEntry hnames he rfl
  simp only [cancel, hsave]
  rfl

theorem cancelIfCompleted_ok (hnames : (db.schedule.map name).Nodup)
    (he : db.getEntry e.name = some e) :
    cancelIfCompleted e db =
      let left := if e.hasRemainingTimes then e else { e with isActive := false }
      .ok (left, db.putEntry left) := by
  unfold cancelIfCompleted
  split_ifs with h
  · simp only [Database.putEntry_stored hnames he]
    rfl
  · simp only [cancel_ok hnames he]

/-- One visit of the loop, when nobody else writes the row. -/
theorem queueEntry_ok (hnames : (db.schedule.map name).Nodup) (he : db.getEntry e.name = some e)
    (now : ℤ) (queue : TaskQueue ℕ) :
    queueEntry now queue e db =
      .ok ((e.dueTime now).elim queue fun t =>
        queue.enter t e.priority e.action e.name e.nextTaskId, db.putEntry (e.visited now)) := by
  have hput {row : ScheduleEntry} (hrow : row.name = e.name) :
      (db.putEntry row).getEntry row.name = some row :=
    Database.getEntry_putEntry_self (by simp [hrow, he])
  have hcancel : cancelIfCompleted (e.takePending now).2 (db.putEntry (e.takePending now).2) =
      .ok (e.settled now, db.putEntry (e.settled now)) := by
    rw [cancelIfCompleted_ok (by rwa [Database.names_putEntry]) (hput (takePending_name e now))]
    change Except.ok (e.settled now, (db.putEntry _).putEntry (e.settled now)) = _
    rw [Database.putEntry_putEntry (by rw [settled_name, takePending_name])]
  unfold queueEntry
  rw [takePendingTaskTime_ok hnames he]
  change (cancelIfCompleted _ _ >>= _) = _
  rw [hcancel]
  cases hdue : e.dueTime now with
  | none => simp [visited, hdue, pure, Except.pure, bind, Except.bind]
  | some t =>
    have hsave : (db.putEntry (e.settled now)).saveFields (e.visited now)
        (e.visited now).writeTaskId = .ok (db.putEntry (e.visited now)) := by
      have hvisited : e.visited now = (e.settled now).getNextTaskId.2 := by simp [visited, hdue]
      have hstored := hput (settled_name now e)
      rw [Database.saveFields_eq_putEntry (by rwa [Database.names_putEntry])
        (by rwa [visited_name, ← settled_name now e]) (by rw [hvisited]; rfl),
        Database.putEntry_putEntry (by rw [visited_name, settled_name])]
    have hframe := settled_frame now e
    simp only [visited, hdue, reduceCtorEq, if_false] at hsave ⊢
    change ((db.putEntry (e.settled now)).saveFields (e.settled now).getNextTaskId.2
      (e.settled now).getNextTaskId.2.writeTaskId >>= _) = _
    rw [hsave]
    change Except.ok (queue.enter t (e.settled now).priority (e.settled now).action
      (e.settled now).name (e.settled now).nextTaskId, _) = _
    rw [hframe]
    rfl

/-- The rows after a whole snapshot is visited. -/
def visitAll (now : String → ℤ) (snapshot : List ScheduleEntry) (db : Database) : Database :=
  snapshot.foldl (fun db e => db.putEntry (e.visited (now e.name))) db

theorem names_visitAll (now : String → ℤ) (snapshot : List ScheduleEntry) (db : Database) :
    (visitAll now snapshot db).schedule.map name = db.schedule.map name := by
  induction snapshot generalizing db with
  | nil => rfl
  | cons e snapshot ih => exact (ih _).trans (Database.names_putEntry _ _)

/-- Queueing writes nothing but the schedule. -/
theorem visitAll_frame (now : String → ℤ) (snapshot : List ScheduleEntry) (db : Database) :
    visitAll now snapshot db = { db with schedule := (visitAll now snapshot db).schedule } := by
  induction snapshot generalizing db with
  | nil => rfl
  | cons e snapshot ih => exact ih _

theorem getEntry_visitAll_of_notMem {now : String → ℤ} {snapshot : List ScheduleEntry}
    {name : String} (h : name ∉ snapshot.map ScheduleEntry.name) :
    (visitAll now snapshot db).getEntry name = db.getEntry name := by
  induction snapshot generalizing db with
  | nil => rfl
  | cons e snapshot ih =>
    simp only [List.map_cons, List.mem_cons, not_or] at h
    have hne : name ≠ (e.visited (now e.name)).name := by
      rw [visited_name]
      exact h.1
    exact (ih h.2).trans (Database.getEntry_putEntry_ne hne)

theorem getEntry_visitAll_of_mem {now : String → ℤ} {snapshot : List ScheduleEntry}
    (hsnapshot : (snapshot.map name).Nodup) (he : e ∈ snapshot)
    (hstored : (db.getEntry e.name).isSome) :
    (visitAll now snapshot db).getEntry e.name = some (e.visited (now e.name)) := by
  induction snapshot generalizing db with
  | nil => simp at he
  | cons a snapshot ih =>
    simp only [List.map_cons, List.nodup_cons] at hsnapshot
    rcases List.mem_cons.mp he with rfl | he
    · have hself : (db.putEntry (e.visited (now e.name))).getEntry (e.visited (now e.name)).name =
          some (e.visited (now e.name)) :=
        Database.getEntry_putEntry_self (by rwa [visited_name])
      rw [visited_name] at hself
      exact (getEntry_visitAll_of_notMem hsnapshot.1).trans hself
    · apply ih hsnapshot.2 he
      have hne : e.name ≠ (a.visited (now a.name)).name := by
        rw [visited_name]
        intro h
        exact hsnapshot.1 (h ▸ List.mem_map_of_mem he)
      rwa [Database.getEntry_putEntry_ne hne]

/-- Queueing a snapshot that is still what the rows hold meets no error, visits
every entry once and enters the due task of each. -/
theorem queuePendingTasks_ok (hnames : (db.schedule.map name).Nodup) (now : String → ℤ)
    {snapshot : List ScheduleEntry} (hsnapshot : (snapshot.map name).Nodup)
    (hstored : ∀ e ∈ snapshot, db.getEntry e.name = some e) (queue : TaskQueue ℕ) :
    ∃ queue', queuePendingTasks now snapshot queue db = .ok (queue', visitAll now snapshot db) ∧
      queue'.Perm (snapshot.filterMap (fun e => e.dueTask (now e.name)) ++ queue) := by
  induction snapshot generalizing db queue with
  | nil => exact ⟨queue, rfl, .refl _⟩
  | cons e snapshot ih =>
    simp only [List.map_cons, List.nodup_cons] at hsnapshot
    have he := hstored e List.mem_cons_self
    have hrest : ∀ a ∈ snapshot,
        (db.putEntry (e.visited (now e.name))).getEntry a.name = some a := by
      intro a ha
      have hne : a.name ≠ (e.visited (now e.name)).name := by
        rw [visited_name]
        intro h
        exact hsnapshot.1 (h ▸ List.mem_map_of_mem ha)
      rw [Database.getEntry_putEntry_ne hne]
      exact hstored a (List.mem_cons_of_mem e ha)
    have hnames' : ((db.putEntry (e.visited (now e.name))).schedule.map name).Nodup := by
      rwa [Database.names_putEntry]
    obtain ⟨queue', hrun, hperm⟩ := ih hnames' hsnapshot.2 hrest
      ((e.dueTime (now e.name)).elim queue fun t =>
        queue.enter t e.priority e.action e.name e.nextTaskId)
    refine ⟨queue', ?_, ?_⟩
    · rw [queuePendingTasks, queueEntry_ok hnames he]
      exact hrun
    · cases hdue : e.dueTime (now e.name) with
      | none =>
        simp only [hdue, Option.elim] at hperm
        simpa [dueTask, hdue] using hperm
      | some t =>
        simp only [hdue, Option.elim] at hperm
        have henter := TaskQueue.enter_perm queue t e.priority e.action e.name e.nextTaskId
        have hmiddle := hperm.trans (henter.append_left _)
        simpa [dueTask, hdue] using hmiddle.trans List.perm_middle

/-- Visiting the active rows passes every row. -/
theorem getEntry_visitAll_active (hnames : (db.schedule.map name).Nodup) (now : String → ℤ)
    {row : ScheduleEntry} {name : String} (hrow : db.getEntry name = some row) :
    (visitAll now db.activeEntries db).getEntry name = some (row.passed (now name)) := by
  obtain rfl := Database.name_of_getEntry hrow
  have hmem := Database.mem_of_getEntry hrow
  unfold passed
  split_ifs with hactive
  · apply getEntry_visitAll_of_mem (Database.nodup_activeEntries hnames)
      (Database.mem_activeEntries.mpr ⟨hmem, hactive⟩)
    simp [hrow]
  · rw [getEntry_visitAll_of_notMem, hrow]
    intro h
    obtain ⟨a, ha, hname⟩ := List.mem_map.mp h
    obtain ⟨hastored, haactive⟩ := Database.mem_activeEntries.mp ha
    exact hactive (Table.eq_of_key_eq hnames hastored hmem hname ▸ haactive)

/-- A pass over rows that nobody else writes. -/
theorem pendingTasks_ok (hnames : (db.schedule.map name).Nodup) (now : String → ℤ) :
    ∃ queue db', pendingTasks now db = .ok (queue, db') ∧
      queue.Perm (db.activeEntries.filterMap fun e => e.dueTask (now e.name)) ∧
      db'.schedule.map name = db.schedule.map name ∧
      ∀ row name, db.getEntry name = some row → db'.getEntry name = some (row.passed (now name)) := by
  obtain ⟨queue, hrun, hperm⟩ := queuePendingTasks_ok hnames now (Database.nodup_activeEntries hnames)
    (fun _ he => Database.getEntry_of_mem_activeEntries hnames he) []
  refine ⟨queue, visitAll now db.activeEntries db, hrun, by simpa using hperm,
    names_visitAll _ _ _, ?_⟩
  intro row name hrow
  exact getEntry_visitAll_active hnames now hrow

end Scheduler

end ScosSensor
