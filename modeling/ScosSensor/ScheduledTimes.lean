import ScosSensor.Consumption
import ScosSensor.PendingTasks

/-!
# The scheduled times of a run

Passes repeat over rows that nobody else writes. Seen from one entry, a run of
passes consumes its scheduled times from below: each pass reports the largest
time that has come due and skips the others for good, and the entry is switched
off with its last time. The clock may be read anew for every visit and need not
be monotone.
-/
namespace ScosSensor

namespace Scheduler

open Consumption

/-- Passes at the given clock readings, with the queue that each one fills. -/
def passes : List (String → ℤ) → Database → Except Exc (List (TaskQueue ℕ) × Database)
  | [], db => return ([], db)
  | now :: readings, db => do
    let (queue, db) ← pendingTasks now db
    let (queues, db) ← passes readings db
    return (queue :: queues, db)

/-- The tasks of an entry in a queue. -/
def tasksOf (name : String) (queue : TaskQueue ℕ) : List PendingTask :=
  queue.filter fun t => t.scheduleEntryName = name

/-- The times that a run of passes queues for an entry, in the order of the passes. -/
def queuedTimes (name : String) (queues : List (TaskQueue ℕ)) : List ℤ :=
  queues.flatMap fun queue => (tasksOf name queue).map Task.time

/-- A row of the entry `e` after the passes at `readings`. -/
structure RowAfter (e : ScheduleEntry) (readings : List ℤ) (row : ScheduleEntry) : Prop where
  remaining : row.remaining = Consumption.remaining e.scheduledTimes readings
  active : readings ≠ [] → (row.isActive = true ↔ row.remaining.Nonempty)

/-- What a pass at `now`, after the passes at `readings`, does for the entry `e`. -/
structure PassOutcome (e : ScheduleEntry) (readings : List ℤ) (now : ℤ) (queue : TaskQueue ℕ)
    (db : Database) : Prop where
  queued : (due e.scheduledTimes readings now).Nonempty →
    ∃ task, tasksOf e.name queue = [task] ∧ IsGreatest (due e.scheduledTimes readings now) task.time
  idle : due e.scheduledTimes readings now = ∅ → tasksOf e.name queue = []
  left : ∃ row, db.getEntry e.name = some row ∧ RowAfter e (readings ++ [now]) row

variable {e row : ScheduleEntry} {db db' : Database} {readings : List ℤ} {now : ℤ}
  {queue : TaskQueue ℕ}

/-- Before the first pass every scheduled time is left. -/
theorem rowAfter_start (hactive : e.isActive = true) (hstart : e.nextTaskTime = e.start) :
    RowAfter e [] e := by
  refine ⟨?_, fun h => absurd rfl h⟩
  rw [remaining_nil]
  ext t
  simp [ScheduleEntry.remaining, ScheduleEntry.scheduledTimes, hactive, hstart]

/-- A pass moves a row from the readings so far to one reading more. -/
theorem RowAfter.passed (h : RowAfter e readings row) (now : ℤ) :
    RowAfter e (readings ++ [now]) (row.passed now) := by
  refine ⟨?_, fun _ => ScheduleEntry.passed_isActive_iff now row⟩
  rw [ScheduleEntry.remaining_passed, h.remaining]
  ext t
  exact mem_remaining_append.symm

theorem RowAfter.due_eq (h : RowAfter e readings row) (now : ℤ) :
    due e.scheduledTimes readings now = {x | x ∈ row.remaining ∧ x ≤ now} := by
  rw [due, h.remaining]

/-- The tasks of one entry among those that a snapshot yields. -/
theorem tasksOf_filterMap {task : ScheduleEntry → Option PendingTask}
    (htask : ∀ a t, task a = some t → t.scheduleEntryName = a.name) (name : String)
    (snapshot : List ScheduleEntry) :
    tasksOf name (snapshot.filterMap task) =
      (snapshot.filter fun a => a.name = name).filterMap task := by
  unfold tasksOf
  induction snapshot with
  | nil => rfl
  | cons a snapshot ih =>
    cases hdue : task a with
    | none =>
      rw [List.filterMap_cons_none hdue, ih]
      by_cases ha : a.name = name
      · rw [List.filter_cons_of_pos (by simpa using ha), List.filterMap_cons_none hdue]
      · rw [List.filter_cons_of_neg (by simpa using ha)]
    | some t =>
      have ht := htask a t hdue
      rw [List.filterMap_cons_some hdue]
      by_cases ha : a.name = name
      · rw [List.filter_cons_of_pos (by simpa [ht] using ha), ih,
          List.filter_cons_of_pos (by simpa using ha), List.filterMap_cons_some hdue]
      · rw [List.filter_cons_of_neg (by simpa [ht] using ha), ih,
          List.filter_cons_of_neg (by simpa using ha)]

/-- The tasks of an entry in the queue of a pass are the due task of its row. -/
theorem tasksOf_pass (hnames : (db.schedule.map ScheduleEntry.name).Nodup)
    (hrow : db.getEntry e.name = some row) {now : String → ℤ}
    (hperm : queue.Perm (db.activeEntries.filterMap fun a => a.dueTask (now a.name))) :
    tasksOf e.name queue = if row.isActive then (row.dueTask (now e.name)).toList else [] := by
  have hname := Database.name_of_getEntry hrow
  have hrows : (db.activeEntries.filter fun a => a.name = e.name) =
      if row.isActive then [row] else [] := by
    rw [Database.activeEntries, List.filter_comm, Table.filter_key hnames hrow]
    split_ifs with hactive <;> simp [hactive]
  have hout : (tasksOf e.name queue).Perm
      (tasksOf e.name (db.activeEntries.filterMap fun a => a.dueTask (now a.name))) :=
    hperm.filter _
  rw [tasksOf_filterMap (fun a t => ScheduleEntry.scheduleEntryName_dueTask), hrows] at hout
  split_ifs at hout ⊢ with hactive
  · cases hdue : row.dueTask (now e.name) with
    | none =>
      simp only [List.filterMap_cons, hname, hdue, List.filterMap_nil] at hout
      exact hout.eq_nil
    | some t =>
      simp only [List.filterMap_cons, hname, hdue, List.filterMap_nil] at hout
      exact List.perm_singleton.mp hout
  · exact hout.eq_nil

/-- One pass, seen from an entry whose row has come through `readings`. -/
theorem pass_outcome (hnames : (db.schedule.map ScheduleEntry.name).Nodup)
    (hrow : db.getEntry e.name = some row) (hafter : RowAfter e readings row) {now : String → ℤ}
    (hperm : queue.Perm (db.activeEntries.filterMap fun a => a.dueTask (now a.name)))
    (hnext : db'.getEntry e.name = some (row.passed (now e.name))) :
    PassOutcome e readings (now e.name) queue db' := by
  have htasks := tasksOf_pass hnames hrow hperm
  have hdue := hafter.due_eq (now e.name)
  refine ⟨?_, ?_, _, hnext, hafter.passed (now e.name)⟩
  · intro ⟨x, hx⟩
    rw [hdue] at hx ⊢
    cases ht : row.dueTime (now e.name) with
    | none => exact absurd hx.2 (not_le.mpr (ScheduleEntry.dueTime_eq_none.mp ht x hx.1))
    | some t =>
      have hactive : row.isActive = true := hx.1.1
      refine ⟨⟨t, row.priority, row.action, row.name, row.nextTaskId⟩, ?_,
        ScheduleEntry.dueTime_eq_some ht⟩
      simp [htasks, hactive, ScheduleEntry.dueTask, ht]
  · intro hempty
    rw [hdue] at hempty
    have hnone : row.dueTime (now e.name) = none := by
      apply ScheduleEntry.dueTime_eq_none.mpr
      intro x hx
      by_contra hle
      have hmem : x ∈ {x | x ∈ row.remaining ∧ x ≤ now e.name} := ⟨hx, not_lt.mp hle⟩
      simp [hempty] at hmem
    simp [htasks, ScheduleEntry.dueTask, hnone]

/-- The outcome of a pass extends the consumption by the times it queues. -/
theorem PassOutcome.consumes {queued : List ℤ} (h : PassOutcome e readings now queue db)
    (hqueued : Consumes e.scheduledTimes readings queued) :
    Consumes e.scheduledTimes (readings ++ [now])
      (queued ++ (tasksOf e.name queue).map Task.time) := by
  by_cases hdue : (due e.scheduledTimes readings now).Nonempty
  · obtain ⟨task, htasks, hgreatest⟩ := h.queued hdue
    rw [htasks]
    exact .take hqueued hgreatest
  · have hempty := Set.not_nonempty_iff_eq_empty.mp hdue
    rw [h.idle hempty, List.map_nil, List.append_nil]
    exact .idle hqueued hempty

/-- The invariant of a run: what the passes at `readings` have made of an entry
that started as `e`. -/
structure Progress (e : ScheduleEntry) (readings : List ℤ) (queued : List ℤ) (db : Database) :
    Prop where
  row : ∃ row, db.getEntry e.name = some row ∧ RowAfter e readings row
  consumes : Consumes e.scheduledTimes readings queued

/-- A run of passes from any point of progress. -/
theorem passes_ok {rows : List ScheduleEntry} {done : List (String → ℤ)}
    {before : List (TaskQueue ℕ)} (hnames : (db.schedule.map ScheduleEntry.name).Nodup)
    (hprogress : ∀ e ∈ rows,
      Progress e (done.map fun now => now e.name) (queuedTimes e.name before) db)
    (readings : List (String → ℤ)) :
    ∃ queues db', passes readings db = .ok (queues, db') ∧
      (db'.schedule.map ScheduleEntry.name).Nodup ∧
      ∀ e ∈ rows, Progress e ((done ++ readings).map fun now => now e.name)
        (queuedTimes e.name (before ++ queues)) db' := by
  induction readings generalizing db done before with
  | nil => exact ⟨[], db, rfl, hnames, by simpa using hprogress⟩
  | cons now readings ih =>
    obtain ⟨queue, db₁, hpass, hperm, hnames₁, hrows₁⟩ := pendingTasks_ok hnames now
    have hprogress₁ : ∀ e ∈ rows, Progress e ((done ++ [now]).map fun now => now e.name)
        (queuedTimes e.name (before ++ [queue])) db₁ := by
      intro e he
      obtain ⟨⟨row, hrow, hafter⟩, hconsumes⟩ := hprogress e he
      have hout := pass_outcome hnames hrow hafter hperm (hrows₁ row e.name hrow)
      refine ⟨?_, ?_⟩
      · simpa using hout.left
      · simpa [queuedTimes] using hout.consumes hconsumes
    obtain ⟨queues, db', hrun, hnames', hprogress'⟩ := ih (hnames₁ ▸ hnames) hprogress₁
    refine ⟨queue :: queues, db', ?_, hnames', by simpa using hprogress'⟩
    simp only [passes, hpass]
    change (passes readings db₁ >>= _) = _
    rw [hrun]
    rfl

/-- Every pass of every run queues for each entry exactly its largest due time,
takes the others with it, and switches the entry off with its last time. So the
times queued over a run increase, are scheduled, and include the last time of an
entry as soon as a pass happens at or after it. -/
theorem passes_take_scheduled_times (rows : List ScheduleEntry)
    (hnames : (rows.map ScheduleEntry.name).Nodup) (hactive : ∀ e ∈ rows, e.isActive = true)
    (hstart : ∀ e ∈ rows, e.nextTaskTime = e.start) (readings : List (String → ℤ)) :
    ∃ queues db, passes readings { schedule := rows } = .ok (queues, db) ∧
      (∀ now, ∃ queue db', pendingTasks now db = .ok (queue, db') ∧
        ∀ e ∈ rows, PassOutcome e (readings.map fun r => r e.name) (now e.name) queue db') ∧
      ∀ e ∈ rows, (queuedTimes e.name queues).Pairwise (· < ·) ∧
        (∀ t ∈ queuedTimes e.name queues, t ∈ e.scheduledTimes) ∧
        ∀ last, IsGreatest e.scheduledTimes last → (∃ now ∈ readings, last ≤ now e.name) →
          last ∈ queuedTimes e.name queues := by
  have hbegin : ∀ e ∈ rows, Progress e (([] : List (String → ℤ)).map fun now => now e.name)
      (queuedTimes e.name []) { schedule := rows } := by
    intro e he
    exact ⟨⟨e, Table.get?_of_mem hnames he, rowAfter_start (hactive e he) (hstart e he)⟩, .start⟩
  obtain ⟨queues, db, hrun, hnames', hprogress⟩ := passes_ok hnames hbegin readings
  refine ⟨queues, db, hrun, ?_, ?_⟩
  · intro now
    obtain ⟨queue, db', hpass, hperm, -, hrows⟩ := pendingTasks_ok hnames' now
    refine ⟨queue, db', hpass, ?_⟩
    intro e he
    obtain ⟨row, hrow, hafter⟩ := (hprogress e he).row
    exact pass_outcome hnames' hrow hafter hperm (hrows row e.name hrow)
  · intro e he
    have hconsumes := (hprogress e he).consumes
    refine ⟨hconsumes.increasing, fun t ht => (hconsumes.reached ht).1, ?_⟩
    intro last hlast ⟨now, hnow, hle⟩
    exact hconsumes.last_reported hlast ⟨now e.name, by simpa using ⟨now, hnow, rfl⟩, hle⟩

/-- A bounded recurring entry whose stop is off its grid, and a one-shot entry. -/
theorem passes_take_scheduled_times_sweep :
    ∃ queues db, passes [fun _ => 12, fun _ => 31] { schedule :=
        [⟨"sweep", "acquire", 10, 10, some 25, some 10, true, none, 10, 1, "op"⟩,
          ⟨"once", "acquire", 10, 12, none, none, true, none, 12, 1, "op"⟩] } = .ok (queues, db) ∧
      (12 : ℤ) ∈ queuedTimes "once" queues := by
  obtain ⟨queues, db, hrun, -, htimes⟩ := passes_take_scheduled_times
    [⟨"sweep", "acquire", 10, 10, some 25, some 10, true, none, 10, 1, "op"⟩,
      ⟨"once", "acquire", 10, 12, none, none, true, none, 12, 1, "op"⟩]
    (by decide) (by decide) (by decide) [fun _ => 12, fun _ => 31]
  refine ⟨queues, db, hrun, ?_⟩
  have honce := (htimes ⟨"once", "acquire", 10, 12, none, none, true, none, 12, 1, "op"⟩
    (by decide)).2.2 12
  apply honce
  · exact ⟨⟨rfl, by simp⟩, fun t ht => (show t = 12 from ht.1).le⟩
  · exact ⟨fun _ => 12, by simp, le_rfl⟩

end Scheduler

end ScosSensor
