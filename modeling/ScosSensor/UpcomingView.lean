import ScosSensor.StatusView

/-!
# The upcoming tasks on show

The list is made from the instances of a snapshot and shown until the next pass makes
another one. While nobody edits the entries an instance that the pass has been over is
the row, and nothing writes the row before the next pass. So what is shown between two
passes is what is still to come, and the page of the view is its beginning.
-/
namespace ScosSensor

namespace Scheduler

open Runs ScheduleEntry

variable {cfg : Settings} {d d' : Display} {s' : Sys} {l : Label} {i : Input} {e : ScheduleEntry}

/-- The list has each time of an active entry below the bound once, and nothing else. -/
structure ListsBelow (bound : ℤ) (db : Database) (upcoming : List (Task (Option ℕ))) : Prop where
  listed : ∀ task, task ∈ upcoming ↔
    ∃ e ∈ db.activeEntries, ∃ t ∈ e.remaining, t < bound ∧ task = e.upcomingTask t
  once : (upcoming.map fun task => (task.scheduleEntryName, task.time)).Nodup

theorem activeEntries_congr {db db' : Database} (h : db'.schedule = db.schedule) :
    db'.activeEntries = db.activeEntries := by
  unfold Database.activeEntries
  rw [h]

theorem ListsBelow.of_schedule {bound : ℤ} {db db' : Database} {upcoming : List (Task (Option ℕ))}
    (h : ListsBelow bound db upcoming) (hschedule : db'.schedule = db.schedule) :
    ListsBelow bound db' upcoming := by
  refine ⟨fun task => ?_, h.once⟩
  rw [h.listed, activeEntries_congr hschedule]

/-- The instances `snapshot` are the rows, and no active entry is left out. -/
structure Covers (db : Database) (snapshot : List ScheduleEntry) : Prop where
  rows : ∀ e ∈ snapshot, db.getEntry e.name = some e
  apart : (snapshot.map ScheduleEntry.name).Nodup
  all : ∀ row ∈ db.activeEntries, row.name ∈ snapshot.map ScheduleEntry.name

theorem Covers.of_schedule {db db' : Database} {snapshot : List ScheduleEntry}
    (h : Covers db snapshot) (hschedule : db'.schedule = db.schedule) : Covers db' snapshot := by
  refine ⟨fun e he => ?_, h.apart, ?_⟩
  · rw [Database.getEntry_congr hschedule]
    exact h.rows e he
  · rw [activeEntries_congr hschedule]
    exact h.all

theorem Covers.mem {db : Database} {snapshot : List ScheduleEntry} (h : Covers db snapshot)
    (hnames : NamesUnique db) {row : ScheduleEntry} (hrow : row ∈ db.activeEntries) :
    row ∈ snapshot := by
  obtain ⟨e, he, hname⟩ := List.mem_map.mp (h.all row hrow)
  obtain rfl := Table.eq_of_key_eq hnames (Database.mem_of_getEntry (h.rows e he))
    (Database.mem_activeEntries.mp hrow).1 hname
  exact he

/-- The list that is made of instances that are the rows. -/
theorem Covers.lists {db : Database} {snapshot : List ScheduleEntry} (h : Covers db snapshot)
    (hnames : NamesUnique db) (now : ℤ) : ListsBelow (now + 10 * getMinInterval snapshot) db
      ((queueUpcomingTasks now snapshot).getD []) := by
  obtain ⟨upcoming, hupcoming, hperm⟩ := queueUpcomingTasks_perm h.apart now
  have hbound : now + (getMinInterval snapshot : ℤ) * intervalMultiplier =
      now + 10 * getMinInterval snapshot := by
    rw [intervalMultiplier, Int.mul_comm]
  rw [hbound] at hperm
  rw [hupcoming, Option.getD_some]
  constructor
  · intro task
    rw [hperm.mem_iff, mem_tasksBefore]
    constructor
    · rintro ⟨e, he, t, ht, htask⟩
      have hstored := Database.mem_of_getEntry (h.rows e he)
      exact ⟨e, Database.mem_activeEntries.mpr ⟨hstored, ht.1⟩, t, ht, htask⟩
    · rintro ⟨row, hrow, t, ht, htask⟩
      exact ⟨row, h.mem hnames hrow, t, ht, htask⟩
  · rw [(hperm.map _).nodup_iff]
    exact nodup_tasksBefore h.apart _

/-- A write of the row of one instance, which becomes that row. -/
theorem Covers.write {db : Database} {before after : List ScheduleEntry} {e' : ScheduleEntry}
    {columns : ScheduleEntry → ScheduleEntry} (h : Covers db (before ++ e :: after))
    (hcolumns : ∀ row, (columns row).name = row.name) (he' : columns e = e') :
    Covers (db.writeRow e.name columns) (before ++ e' :: after) := by
  have hname : e'.name = e.name := he' ▸ hcolumns e
  have hrow : db.getEntry e.name = some e := h.rows e (by simp)
  have hsame : (before ++ e' :: after).map ScheduleEntry.name =
      (before ++ e :: after).map ScheduleEntry.name := by
    simp only [List.map_append, List.map_cons, hname]
  have hothers : ∀ a, a ∈ before ∨ a ∈ after → a.name ≠ e.name := by
    have hapart := h.apart
    rw [List.map_append, List.map_cons, List.nodup_middle, List.nodup_cons, List.mem_append] at hapart
    intro a ha heq
    exact hapart.1 (heq ▸ ha.imp List.mem_map_of_mem List.mem_map_of_mem)
  refine ⟨fun a ha => ?_, by rw [hsame]; exact h.apart, fun row hactive => ?_⟩
  · rw [Database.getEntry_writeRow hcolumns hrow]
    rcases List.mem_append.mp ha with ha | ha
    · rw [if_neg (hothers a (.inl ha))]
      exact h.rows a (List.mem_append_left _ ha)
    · rcases List.mem_cons.mp ha with rfl | ha
      · rw [if_pos hname, he']
      · rw [if_neg (hothers a (.inr ha))]
        exact h.rows a (List.mem_append_right _ (List.mem_cons_of_mem _ ha))
  · rw [hsame]
    obtain ⟨hmem, hon⟩ := Database.mem_activeEntries.mp hactive
    obtain ⟨r, hr, rfl⟩ := List.mem_map.mp hmem
    split_ifs at hon ⊢ with hkey
    · rw [hcolumns, hkey]
      exact List.mem_map_of_mem (by simp)
    · exact h.all r (Database.mem_activeEntries.mpr ⟨hr, hon⟩)

/-- What is on show is the list of what is still to come. -/
structure Listed (d : Display) : Prop where
  lists : ListsBelow (d.listedAt + 10 * getMinInterval d.visited) d.sys.db d.taskQueue
  visited : ∀ row ∈ d.sys.db.activeEntries, row ∈ d.visited

theorem Listed.of_schedule (hd : Listed d) (hschedule : s'.db.schedule = d.sys.db.schedule) :
    Listed { d with sys := s' } := by
  refine ⟨hd.lists.of_schedule hschedule, ?_⟩
  rw [show s'.db.activeEntries = d.sys.db.activeEntries from activeEntries_congr hschedule]
  exact hd.visited

/-- What holds of the instances and of the list while nobody edits the entries. -/
structure Current (d : Display) : Prop where
  timely : Timely d.sys
  snapshot : d.sys.pc.queueing = true → Covers d.sys.db (d.visited ++ d.sys.pc.held)
  opening : d.sys.pc.opening = true → d.running = false
  lists : d.running = true → d.sys.pc.queueing = false → d.sys.pc.isOver = false →
    Listed d

theorem current_start {db : Database} (hnames : NamesUnique db) :
    Current { sys := { db := db } } := by
  refine ⟨timely_start hnames, (fun h => by cases h), fun _ => rfl, (fun h => by cases h)⟩

/-- A step that leaves the rows, the place and the list. -/
theorem Current.of_schedule (hd : Current d) (ht : Timely s')
    (hschedule : s'.db.schedule = d.sys.db.schedule) (hpc : s'.pc = d.sys.pc) :
    Current { d with sys := s' } := by
  refine ⟨ht, ?_, ?_, ?_⟩
  · rw [hpc]
    exact fun hqueueing => (hd.snapshot hqueueing).of_schedule hschedule
  · rw [hpc]
    exact hd.opening
  · rw [hpc]
    exact fun hrunning hqueueing hover =>
      (hd.lists hrunning hqueueing hover).of_schedule hschedule

/-- Outside of the loop of `_queue_pending_tasks` a step that keeps the rows keeps the list. -/
theorem Current.rest (hd : Current d) (ht : Timely s')
    (hschedule : s'.db.schedule = d.sys.db.schedule) (hqueueing : d.sys.pc.queueing = false)
    (hover : d.sys.pc.isOver = false) (hqueueing' : s'.pc.queueing = false)
    (hopening : s'.pc.opening = true → d.sys.pc.opening = true) :
    Current { d with sys := s' } := by
  refine ⟨ht, ?_, fun h => hd.opening (hopening h), fun hrunning _ _ => ?_⟩
  · intro h
    exact absurd (hqueueing'.symm.trans h) Bool.false_ne_true
  · exact (hd.lists hrunning hqueueing hover).of_schedule hschedule

/-- A step within the loop of `_queue_pending_tasks`, or into it. -/
theorem Current.within (ht : Timely d.sys) (hqueueing : d.sys.pc.queueing = true)
    (hsnapshot : Covers d.sys.db (d.visited ++ d.sys.pc.held)) : Current d := by
  refine ⟨ht, fun _ => hsnapshot, fun hopening => ?_, fun _ h => ?_⟩
  · cases hpc : d.sys.pc <;> simp_all [Pc.queueing, Pc.opening]
  · exact absurd (h.symm.trans hqueueing) Bool.false_ne_true

/-- A step after which nothing is shown as the list of a pass. -/
theorem Current.unlisted (ht : Timely d.sys) (hqueueing : d.sys.pc.queueing = false)
    (hidle : d.running = false ∨ d.sys.pc.isOver = true)
    (hopening : d.sys.pc.opening = true → d.running = false) : Current d := by
  refine ⟨ht, fun h => ?_, hopening, fun hrunning _ hover => ?_⟩
  · exact absurd (hqueueing.symm.trans h) Bool.false_ne_true
  · rcases hidle with hidle | hidle
    · exact absurd (hidle.symm.trans hrunning) Bool.false_ne_true
    · exact absurd (hover.symm.trans hidle) Bool.false_ne_true

theorem threadShows_sys (i : Input) (d : Display) (s' : Sys) : (threadShows i d s').sys = s' :=
  shows_sys d s' (.sched i)

/-- An exception ends what is claimed of the list. -/
theorem Current.dead (hd : Current d) (h : Scheduler.step cfg d.sys (.sched i) = some s')
    (hdead : ∃ err, s'.pc = .dead err) : Current (threadShows i d s') := by
  obtain ⟨err, hpc⟩ := hdead
  have hsys := threadShows_sys i d s'
  apply Current.unlisted
  · rw [hsys]
    exact hd.timely.step (show LeavesEntries (.sched i) from trivial) h
  · rw [hsys, hpc]
    rfl
  · rw [hsys, hpc]
    exact .inr rfl
  · rw [hsys, hpc]
    intro hopening
    cases hopening

theorem Current.jump {pc : Pc} (hd : Current d)
    (h : Scheduler.step cfg d.sys (.sched i) = some { d.sys with pc })
    (hjump : Jump cfg d.sys pc) : Current (threadShows i d { d.sys with pc }) := by
  have ht : Timely { d.sys with pc } := hd.timely.step (show LeavesEntries (.sched i) from trivial) h
  cases hjump with
  | startReset hpc =>
    simp only [threadShows, hpc, passedOver, List.append_nil]
    exact hd.rest ht rfl (by rw [hpc]; rfl) (by rw [hpc]; rfl) rfl fun _ => by rw [hpc]; rfl
  | resetSkip e todo hpc =>
    simp only [threadShows, hpc, passedOver, List.append_nil]
    exact hd.rest ht rfl (by rw [hpc]; rfl) (by rw [hpc]; rfl) rfl fun _ => by rw [hpc]; rfl
  | resetDone hpc | tasksDone hpc | runAgain hpc | runBreak hpc =>
    simp only [threadShows, hpc, passedOver, List.append_nil]
    exact hd.rest ht rfl (by rw [hpc]; rfl) (by rw [hpc]; rfl) rfl fun h => by cases h
  | schedule hpc | passAgain hpc =>
    simp only [threadShows, hpc, reduceCtorEq, if_false]
    exact hd.rest ht rfl (by rw [hpc]; rfl) (by rw [hpc]; rfl) rfl fun h => by cases h
  | idle hpc | passBreak hpc =>
    simp only [threadShows, hpc, if_true]
    exact .unlisted ht rfl (.inl rfl) fun _ => rfl
  | queueDone queue hpc =>
    have hsnapshot := hd.snapshot (by rw [hpc]; rfl)
    rw [hpc, Pc.held, List.append_nil] at hsnapshot
    simp only [threadShows, hpc]
    refine ⟨ht, (fun h => by cases h), (fun h => by cases h), fun _ _ _ => ?_⟩
    exact ⟨hsnapshot.lists ht.names i.now, fun row hrow => hsnapshot.mem ht.names hrow⟩

/-- The thread has settled an entry: its instance is done with, or still to be numbered. -/
theorem Current.settle {taskTime : Option ℤ} {e e' : ScheduleEntry} {todo : List ScheduleEntry}
    {queue : TaskQueue ℕ} {db : Database} (hpc : d.sys.pc = .completing taskTime e todo queue)
    (hcancel : cancelIfCompleted e d.sys.db = .ok (e', db))
    (ht : Timely { d.sys with db, pc := .settled taskTime e' todo queue })
    (hsnapshot : Covers db (d.visited ++ e' :: todo)) :
    Current (threadShows i d { d.sys with db, pc := .settled taskTime e' todo queue }) := by
  cases taskTime with
  | none =>
    simp only [threadShows, hpc, passedOver, hcancel]
    refine .within ht rfl ?_
    simpa [Pc.settled, Pc.held] using hsnapshot
  | some taskTime =>
    simp only [threadShows, hpc, passedOver, List.append_nil]
    exact .within ht rfl hsnapshot

theorem Current.sched (hd : Current d) (h : Scheduler.step cfg d.sys (.sched i) = some s') :
    Current (threadShows i d s') := by
  have ht : Timely s' := hd.timely.step (show LeavesEntries (.sched i) from trivial) h
  cases schedStep_cases h with
  | raise err | finalizeRaise f tasks err w => exact hd.dead h ⟨err, rfl⟩
  | jump pc hjump => exact hd.jump h hjump
  | reset e todo last hpc =>
    have hidle : d.running = false := hd.opening (by rw [hpc]; rfl)
    simp only [threadShows, hpc, passedOver, List.append_nil]
    exact .unlisted ht rfl (.inl hidle) fun _ => hidle
  | read hpc =>
    simp only [threadShows, hpc]
    refine .within ht rfl ⟨fun e he => ?_, ?_, fun row hrow => ?_⟩
    · exact Database.getEntry_of_mem_activeEntries ht.names he
    · exact Database.nodup_activeEntries ht.names
    · exact List.mem_map_of_mem hrow
  | take e todo queue hpc =>
    have hsnapshot := hd.snapshot (by rw [hpc]; rfl)
    rw [hpc] at hsnapshot
    simp only [threadShows, hpc, passedOver, List.append_nil]
    refine .within ht rfl (hsnapshot.write (fun _ => rfl) ?_)
    exact (takeUntil_frame e (i.now + 1)).symm
  | keep taskTime e todo queue hpc hleft =>
    have hsnapshot := hd.snapshot (by rw [hpc]; rfl)
    rw [hpc] at hsnapshot
    refine Current.settle hpc ?_ ht hsnapshot
    unfold cancelIfCompleted
    rw [if_pos hleft]
    rfl
  | cancel taskTime e todo queue hpc hleft hstored =>
    have hsnapshot := hd.snapshot (by rw [hpc]; rfl)
    rw [hpc] at hsnapshot
    refine Current.settle hpc ?_ ht (hsnapshot.write (fun _ => rfl) rfl)
    obtain ⟨hmore, -⟩ | ⟨-, -, hok⟩ | ⟨-, hgone, -⟩ := cancelIfCompleted_cases e d.sys.db
    · exact absurd (hleft.symm.trans hmore) Bool.false_ne_true
    · exact hok
    · rw [hgone] at hstored
      cases hstored
  | number taskTime e todo queue hpc hstored =>
    have hsnapshot := hd.snapshot (by rw [hpc]; rfl)
    rw [hpc] at hsnapshot
    simp only [threadShows, hpc, passedOver]
    refine .within ht rfl ?_
    have hwritten : Covers (d.sys.db.writeRow e.name fun row =>
        { row with nextTaskId := e.nextTaskId + 1 })
        (d.visited ++ { e with nextTaskId := e.nextTaskId + 1 } :: todo) :=
      hsnapshot.write (fun _ => rfl) rfl
    simpa [Pc.held, getNextTaskId] using hwritten
  | evict task tasks hpc =>
    simp only [threadShows, hpc, passedOver, List.append_nil]
    exact hd.rest ht (Database.removeOldest_frame _ _ _ _ _).1 (by rw [hpc]; rfl) (by rw [hpc]; rfl)
      rfl fun h => by cases h
  | create task tasks result db hpc hsave =>
    simp only [threadShows, hpc, passedOver, List.append_nil]
    exact hd.rest ht (Database.superSave_schedule hsave) (by rw [hpc]; rfl) (by rw [hpc]; rfl)
      rfl fun h => by cases h
  | finalize f f' tasks w hpc hmove | finalized f tasks w hpc hmove =>
    simp only [threadShows, hpc, passedOver, List.append_nil]
    exact hd.rest ht hmove.schedule (by rw [hpc]; rfl) (by rw [hpc]; rfl) rfl fun h => by cases h
  | fetch task tasks e hpc | call task result tasks hpc | spawn task result started tasks hpc
  | finish task result started tasks hpc =>
    simp only [threadShows, hpc, passedOver, List.append_nil]
    exact hd.rest ht rfl (by rw [hpc]; rfl) (by rw [hpc]; rfl) rfl fun h => by cases h

theorem Current.step (hd : Current d) (hl : LeavesEntries l) (h : displayStep cfg d l = some d') :
    Current d' := by
  obtain ⟨s', hs', rfl⟩ := Option.map_eq_some_iff.mp h
  have ht : Timely s' := hd.timely.step hl hs'
  cases step_cases hs' with
  | sched i s' hmove => exact hd.sched hs'
  | crash => exact .unlisted ht rfl (.inl rfl) fun _ => rfl
  | finalizer k i f f' w hf hmove => exact hd.of_schedule ht hmove.schedule rfl
  | finalizerEnd k i f w hf hmove => exact hd.of_schedule ht hmove.schedule rfl
  | finalizerRaise k i f err w hf hraise =>
    exact hd.of_schedule ht (congrArg Database.schedule hraise.frame.1) rfl
  | measure => exact hd.of_schedule ht (Database.storeAcquisition_schedule _ _ _) rfl
  | stop | read | deleteResult => exact hd.of_schedule ht rfl rfl
  | post | write | deleteEntry => exact hl.elim

/-- In every run in which nobody edits the entries, whenever the status is `running` and
the thread is not within queueing a pass, the view shows the beginning of a list, in the
order of time and priority and cut off after 50 tasks, that has exactly once each time
that an active entry still has within ten times the shortest interval, counted from when
the list was made. -/
theorem upcoming_view_exact (cfg : Settings) (db : Database) (hnames : NamesUnique db)
    (ls : List Label) (d : Display) (hls : ∀ l ∈ ls, LeavesEntries l)
    (hrun : exec (displayStep cfg) { sys := { db := db } } ls = some d)
    (hstatus : d.status = .running) (hqueueing : d.sys.pc.queueing = false) :
    ∃ m rest, IsMinInterval d.visited m ∧
      (∀ row ∈ d.sys.db.activeEntries, row ∈ d.visited) ∧
      ListsBelow (d.listedAt + 10 * m) d.sys.db (d.upcomingTasks ++ rest) ∧
      (d.upcomingTasks ++ rest).Pairwise Task.NotAfter ∧
      (rest ≠ [] → d.upcomingTasks.length = 50) := by
  have hd : Current d := exec_invariant (fun _ _ _ hd hl h => hd.step hl h) (current_start hnames)
    (Along.of_forall_mem fun l hl _ => hls l hl) hrun
  have htruthful : Truthful cfg d := exec_invariant (fun _ _ _ hd _ h => hd.step h)
    (truthful_start db) (Along.of_forall (fun _ _ => trivial) _ _) hrun
  have hparts : d.running = true ∧ d.sys.pc.isOver = false := by
    unfold Display.status at hstatus
    split_ifs at hstatus with hover hrunning
    exact ⟨hrunning, by simpa using hover⟩
  obtain ⟨hlists, hvisited⟩ := hd.lists hparts.1 hqueueing hparts.2
  have hpage : d.upcomingTasks ++ d.taskQueue.toList.drop maxTaskQueue = d.taskQueue.toList :=
    List.take_append_drop _ _
  have hperm : (d.upcomingTasks ++ d.taskQueue.toList.drop maxTaskQueue).Perm d.taskQueue := by
    rw [hpage]
    exact TaskQueue.toList_perm _
  refine ⟨_, d.taskQueue.toList.drop maxTaskQueue, isMinInterval_getMinInterval d.visited, hvisited,
    ⟨fun task => ?_, ?_⟩, ?_, fun hrest => ?_⟩
  · rw [hperm.mem_iff]
    exact hlists.listed task
  · rw [(hperm.map _).nodup_iff]
    exact hlists.once
  · rw [hpage]
    exact TaskQueue.pairwise_toList htruthful.heap
  · have hlong : maxTaskQueue < d.taskQueue.toList.length := by
      by_contra hshort
      exact hrest (List.drop_eq_nil_of_le (not_lt.mp hshort))
    rw [Display.upcomingTasks, List.length_take, min_eq_left hlong.le]
    rfl

/-- While the action of the first of two tasks runs, the recurring entry is shown with its
next ten times and the other one is not. -/
theorem upcoming_view_exact_recurring :
    ∃ d, exec (displayStep inThread) { sys := { db := { schedule := recurringAbove } } }
        (List.replicate 17 (.sched { now := 4 })) = some d ∧
      d.upcomingTasks.map Task.time = [6, 9, 12, 15, 18, 21, 24, 27, 30, 33] ∧
      ∃ m rest, IsMinInterval d.visited m ∧
        ListsBelow (d.listedAt + 10 * m) d.sys.db (d.upcomingTasks ++ rest) := by
  have hend : (exec (displayStep inThread) { sys := { db := { schedule := recurringAbove } } }
      (List.replicate 17 (.sched { now := 4 }))).map (fun d =>
        (d.status, d.sys.pc.queueing, d.upcomingTasks.map Task.time)) =
          some (.running, false, [6, 9, 12, 15, 18, 21, 24, 27, 30, 33]) := by decide
  obtain ⟨d, hd, hstate⟩ := Option.map_eq_some_iff.mp hend
  obtain ⟨hstatus, hstate⟩ := Prod.mk.inj hstate
  obtain ⟨hqueueing, htimes⟩ := Prod.mk.inj hstate
  obtain ⟨m, rest, hm, -, hlists, -⟩ := upcoming_view_exact inThread
    { schedule := recurringAbove } (by unfold NamesUnique; decide) _ d
    (by decide) hd hstatus hqueueing
  exact ⟨d, hd, htimes, m, rest, hm, hlists⟩

end Scheduler

end ScosSensor
