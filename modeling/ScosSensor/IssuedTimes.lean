import ScosSensor.TaskIds

/-!
# The times of the tasks that are queued

Without requests nobody but the scheduler writes an entry, so an instance that
is held is the row. A time is used up in the row before a task is queued for it,
and a crash only loses tasks. Every time is queued at most once, over all passes
and restarts, and the started tasks are among the queued ones.
-/
namespace ScosSensor

namespace Pc

/-- The tasks that are queued and whose actions are not started. -/
def unstarted : Pc → List PendingTask
  | .calling task _ tasks => task :: tasks
  | pc => pc.waiting

@[simp] theorem unstarted_settled (taskTime : Option ℤ) (e : ScheduleEntry)
    (todo : List ScheduleEntry) (queue : TaskQueue ℕ) :
    (settled taskTime e todo queue).unstarted = queue := by
  cases taskTime <;> rfl

end Pc

namespace Scheduler

open Runs Counters

variable {cfg : Settings} {s t : Sys} {l : Label} {i : Input}

/-- The steps of the process itself: the API is left alone. -/
def NoRequests : Label → Prop
  | .sched _ => True
  | .finalizer _ _ => True
  | .measure _ => True
  | .stop => True
  | .crash => True
  | _ => False

instance : DecidablePred NoRequests
  | .sched _ => .isTrue trivial
  | .finalizer _ _ => .isTrue trivial
  | .measure _ => .isTrue trivial
  | .stop => .isTrue trivial
  | .crash => .isTrue trivial
  | .post _ _ _ _ => .isFalse id
  | .read _ _ => .isFalse id
  | .write _ _ => .isFalse id
  | .deleteEntry _ => .isFalse id
  | .deleteResult _ => .isFalse id

/-- The steps that write no entry for a user. -/
def LeavesEntries : Label → Prop
  | .post _ _ _ _ => False
  | .write _ _ => False
  | .deleteEntry _ => False
  | _ => True

instance : DecidablePred LeavesEntries
  | .sched _ => .isTrue trivial
  | .finalizer _ _ => .isTrue trivial
  | .measure _ => .isTrue trivial
  | .stop => .isTrue trivial
  | .crash => .isTrue trivial
  | .post _ _ _ _ => .isFalse id
  | .read _ _ => .isTrue trivial
  | .write _ _ => .isFalse id
  | .deleteEntry _ => .isFalse id
  | .deleteResult _ => .isTrue trivial

theorem NoRequests.leavesEntries (hl : NoRequests l) : LeavesEntries l := by
  cases l with
  | sched | finalizer | measure | stop | crash => trivial
  | _ => exact hl.elim

/-- The entry and the time of every task that is queued or about to be. -/
def issuedTimes (s : Sys) : List (String × ℤ) :=
  (queuedTasks s.history).map (fun x => (x.2.scheduleEntryName, x.2.time)) ++ s.pc.dueTimes

/-- The instances held are the rows, and the rows are past all issued times. -/
structure Issuing (s : Sys) : Prop where
  held : ∀ e ∈ s.pc.held, s.db.getEntry e.name = some e
  spent : ∀ x ∈ issuedTimes s, ∀ row, s.db.getEntry x.1 = some row → row.Spent x.2
  nodup : (issuedTimes s).Nodup
  oneShot : ∀ name row, s.db.getEntry name = some row → row.interval = none →
    ((issuedTimes s).map Prod.fst).count name ≤ if row.isActive then 0 else 1

/-- A step that writes no row and holds and issues no more. -/
theorem Issuing.of_schedule (hs : Issuing s) (hschedule : t.db.schedule = s.db.schedule)
    (hheld : t.pc.held.Sublist s.pc.held) (hissued : (issuedTimes t).Sublist (issuedTimes s)) :
    Issuing t := by
  have hrows (name : String) : t.db.getEntry name = s.db.getEntry name :=
    Database.getEntry_congr hschedule name
  refine ⟨?_, ?_, hs.nodup.sublist hissued, ?_⟩
  · intro e he
    rw [hrows]
    exact hs.held e (hheld.subset he)
  · intro x hx row hrow
    rw [hrows] at hrow
    exact hs.spent x (hissued.subset hx) row hrow
  · intro name row hrow hinterval
    rw [hrows] at hrow
    exact ((hissued.map Prod.fst).count_le name).trans (hs.oneShot name row hrow hinterval)

/-- The row `r` of `name` becomes `r'`, and no other row changes. -/
structure Rewrites (s t : Sys) (name : String) (r r' : ScheduleEntry) : Prop where
  row : s.db.getEntry name = some r
  rows : ∀ other, t.db.getEntry other = if other = name then some r' else s.db.getEntry other
  interval : r'.interval = r.interval
  spent : ∀ time, r.Spent time → r'.Spent time

theorem Issuing.of_rewrites (hs : Issuing s) {name : String} {r r' : ScheduleEntry}
    (h : Rewrites s t name r r')
    (hheld : ∀ e ∈ t.pc.held, e.name = name ∧ e = r' ∨ e.name ≠ name ∧ e ∈ s.pc.held)
    (hissued : ∀ x ∈ issuedTimes t, x ∈ issuedTimes s ∨ x.1 = name ∧ r'.Spent x.2)
    (hnodup : (issuedTimes t).Nodup)
    (hothers : ∀ other, other ≠ name → ((issuedTimes t).map Prod.fst).count other ≤
      ((issuedTimes s).map Prod.fst).count other)
    (honce : r.interval = none →
      ((issuedTimes t).map Prod.fst).count name ≤ if r'.isActive then 0 else 1) : Issuing t := by
  refine ⟨?_, ?_, hnodup, ?_⟩
  · intro e he
    rw [h.rows]
    obtain ⟨hname, heq⟩ | ⟨hname, hmem⟩ := hheld e he
    · rw [if_pos hname, heq]
    · rw [if_neg hname]
      exact hs.held e hmem
  · intro x hx row hrow
    rw [h.rows] at hrow
    split_ifs at hrow with hname
    · obtain rfl := Option.some.inj hrow
      obtain hold | ⟨-, hnew⟩ := hissued x hx
      · exact h.spent x.2 (hs.spent x hold r (hname ▸ h.row))
      · exact hnew
    · obtain hold | ⟨hnew, -⟩ := hissued x hx
      · exact hs.spent x hold row hrow
      · exact absurd hnew hname
  · intro other row hrow hinterval
    rw [h.rows] at hrow
    split_ifs at hrow with hname
    · obtain rfl := Option.some.inj hrow
      rw [hname]
      exact honce (h.interval.symm.trans hinterval)
    · exact (hothers other hname).trans (hs.oneShot other row hrow hinterval)

theorem nodup_held {pc : Pc} (h : pc.liveNames.Nodup) : (pc.held.map ScheduleEntry.name).Nodup := by
  unfold Pc.liveNames at h
  exact (List.nodup_append.mp (List.nodup_append.mp h).1).1

/-- The instances after the head of the snapshot are of other entries. -/
theorem ne_of_mem_todo {e a : ScheduleEntry} {todo : List ScheduleEntry}
    (hlive : s.pc.liveNames.Nodup) (hheld : s.pc.held = e :: todo) (ha : a ∈ todo) :
    a.name ≠ e.name ∧ a ∈ s.pc.held := by
  have hnodup := nodup_held hlive
  rw [hheld, List.map_cons, List.nodup_cons] at hnodup
  refine ⟨?_, ?_⟩
  · intro hname
    exact hnodup.1 (hname ▸ List.mem_map_of_mem ha)
  · rw [hheld]
    exact List.mem_cons_of_mem e ha

/-- The time that a visit queues is used up by the take before it. -/
theorem spent_dueTime {e : ScheduleEntry} {now time : ℤ} (h : e.dueTime now = some time) :
    (e.takePending now).2.Spent time := by
  have hgreatest := ScheduleEntry.dueTime_eq_some h
  have hlt : time < now + 1 := Int.lt_add_one_iff.mpr hgreatest.1.2
  exact ScheduleEntry.spent_of_mem_takeUntil
    (ScheduleEntry.mem_takeUntil.mpr ⟨hgreatest.1.1, hlt⟩)

theorem issuing_take (hs : Issuing s) (hlive : s.pc.liveNames.Nodup) (now : ℤ) {e : ScheduleEntry}
    {todo : List ScheduleEntry} {queue : TaskQueue ℕ} (hpc : s.pc = .taking (e :: todo) queue)
    (ht : t = { s with
      db := s.db.writeRow e.name (e.takePending now).2.writeTimes
      pc := .completing (e.dueTime now) (e.takePending now).2 todo queue
      history := s.history ++ [.taken e.name (e.takePending now).1] }) : Issuing t := by
  have hheld : s.pc.held = e :: todo := by rw [hpc]; rfl
  have hrow : s.db.getEntry e.name = some e := hs.held e (by rw [hheld]; exact List.mem_cons_self)
  have hcolumns : ∀ row, ((e.takePending now).2.writeTimes row).name = row.name := fun _ => rfl
  have hframe : (e.takePending now).2.writeTimes e = (e.takePending now).2 :=
    (ScheduleEntry.takeUntil_frame e (now + 1)).symm
  have hname : (e.takePending now).2.name = e.name := ScheduleEntry.takePending_name e now
  have hwrites : Rewrites s t e.name e (e.takePending now).2 := by
    subst ht
    refine ⟨hrow, ?_, ScheduleEntry.takeUntil_interval e (now + 1), ?_⟩
    · intro other
      have hread := Database.getEntry_writeRow hcolumns hrow other
      rwa [hframe] at hread
    · intro time hspent
      exact hspent.takeUntil (now + 1)
  have hbefore : issuedTimes s = (queuedTasks s.history).map
      fun x => (x.2.scheduleEntryName, x.2.time) := by
    simp [issuedTimes, hpc, Pc.dueTimes]
  have hafter : issuedTimes t = issuedTimes s ++
      (e.dueTime now).toList.map fun time => (e.name, time) := by
    subst ht
    rw [hbefore]
    cases hdue : e.dueTime now with
    | none => simp [issuedTimes, Pc.dueTimes, Event.queuedTask]
    | some time => simp [issuedTimes, Pc.dueTimes, Event.queuedTask]
  have hnew {time : ℤ} (hdue : e.dueTime now = some time) : (e.name, time) ∉ issuedTimes s := by
    intro hmem
    exact (hs.spent _ hmem e hrow).not_remaining (ScheduleEntry.dueTime_eq_some hdue).1.1
  apply hs.of_rewrites hwrites
  · intro a ha
    subst ht
    rcases List.mem_cons.mp ha with rfl | ha
    · exact .inl ⟨hname, rfl⟩
    · exact .inr (ne_of_mem_todo hlive hheld ha)
  · intro x hx
    rw [hafter] at hx
    rcases List.mem_append.mp hx with hx | hx
    · exact .inl hx
    · obtain ⟨time, htime, rfl⟩ := List.mem_map.mp hx
      exact .inr ⟨rfl, spent_dueTime (Option.mem_toList.mp htime)⟩
  · rw [hafter]
    cases hdue : e.dueTime now with
    | none => simpa using hs.nodup
    | some time =>
      exact hs.nodup.append (List.nodup_singleton _) (List.disjoint_singleton.mpr (hnew hdue))
  · intro other hother
    rw [hafter]
    cases e.dueTime now with
    | none => simp
    | some time => simp [hother.symm]
  · intro honeshot
    have hcount := hs.oneShot e.name e hrow honeshot
    rw [hafter]
    cases hdue : e.dueTime now with
    | none => simpa [ScheduleEntry.takePending_of_not_due hdue] using hcount
    | some time =>
      obtain ⟨hon, hoff⟩ := ScheduleEntry.takePending_oneShot honeshot hdue
      rw [hon] at hcount
      simpa [hoff] using hcount

theorem issuing_cancel (hs : Issuing s) (hlive : s.pc.liveNames.Nodup) {taskTime : Option ℤ}
    {e : ScheduleEntry} {todo : List ScheduleEntry} {queue : TaskQueue ℕ}
    (hpc : s.pc = .completing taskTime e todo queue)
    (ht : t = { s with
      db := s.db.writeRow e.name fun row => { row with isActive := false }
      pc := .settled taskTime { e with isActive := false } todo queue }) : Issuing t := by
  have hheld : s.pc.held = e :: todo := by rw [hpc]; rfl
  have hrow : s.db.getEntry e.name = some e := hs.held e (by rw [hheld]; exact List.mem_cons_self)
  have hcolumns : ∀ row : ScheduleEntry,
      ({ row with isActive := false } : ScheduleEntry).name = row.name := fun _ => rfl
  have hwrites : Rewrites s t e.name e { e with isActive := false } := by
    subst ht
    exact ⟨hrow, Database.getEntry_writeRow hcolumns hrow, rfl, fun _ _ => .inl rfl⟩
  have hissued : issuedTimes t = issuedTimes s := by
    subst ht
    cases taskTime <;> simp [issuedTimes, hpc, Pc.settled, Pc.dueTimes]
  apply hs.of_rewrites hwrites
  · intro a ha
    subst ht
    rcases List.mem_cons.mp ((Pc.held_settled taskTime _ todo queue).subset ha) with rfl | ha
    · exact .inl ⟨rfl, rfl⟩
    · exact .inr (ne_of_mem_todo hlive hheld ha)
  · intro x hx
    exact .inl (hissued ▸ hx)
  · rw [hissued]
    exact hs.nodup
  · intro other _
    rw [hissued]
  · intro honeshot
    have hcount := hs.oneShot e.name e hrow honeshot
    have hle : (if e.isActive then 0 else 1) ≤ 1 := by split_ifs <;> omega
    rw [hissued]
    exact hcount.trans hle

/-- A write of another counter changes nothing about the times. -/
theorem Issuing.of_counter (hs : Issuing s) {name : String} {r r' : ScheduleEntry}
    (h : Rewrites s t name r r') (hactive : r'.isActive = r.isActive)
    (hheld : ∀ e ∈ t.pc.held, e.name ≠ name ∧ e ∈ s.pc.held)
    (hissued : issuedTimes t = issuedTimes s) : Issuing t := by
  apply hs.of_rewrites h
  · intro e he
    exact .inr (hheld e he)
  · intro x hx
    exact .inl (hissued ▸ hx)
  · rw [hissued]
    exact hs.nodup
  · intro other _
    rw [hissued]
  · intro honeshot
    rw [hissued, hactive]
    exact hs.oneShot name r h.row honeshot

theorem schedMove_issuing (h : SchedMove cfg i s t) (hs : Issuing s) (hnames : NamesUnique s.db)
    (hlive : s.pc.liveNames.Nodup) : Issuing t := by
  cases h with
  | take e todo queue hpc => exact issuing_take hs hlive i.now hpc rfl
  | cancel taskTime e todo queue hpc => exact issuing_cancel hs hlive hpc rfl
  | number taskTime e todo queue hpc =>
    have hheld : s.pc.held = e :: todo := by rw [hpc]; rfl
    have hrow : s.db.getEntry e.name = some e := hs.held e (by rw [hheld]; exact List.mem_cons_self)
    have hcolumns : ∀ row : ScheduleEntry,
        ({ row with nextTaskId := e.nextTaskId + 1 } : ScheduleEntry).name = row.name := fun _ => rfl
    refine hs.of_counter ⟨hrow, Database.getEntry_writeRow hcolumns hrow, rfl, fun _ h => h⟩ rfl
      (fun a ha => ne_of_mem_todo hlive hheld ha) ?_
    simp [issuedTimes, hpc, Pc.dueTimes, Event.queuedTask]
  | reset e todo last hpc hlast hstored =>
    obtain ⟨row, hrow⟩ := Option.isSome_iff_exists.mp hstored
    have hcolumns : ∀ row : ScheduleEntry,
        ({ row with nextTaskId := last.taskId + 1 } : ScheduleEntry).name = row.name := fun _ => rfl
    refine hs.of_counter ⟨hrow, Database.getEntry_writeRow hcolumns hrow, rfl, fun _ h => h⟩ rfl ?_ ?_
    · intro a ha
      cases ha
    · simp [issuedTimes, hpc, Pc.dueTimes]
  | read hpc =>
    have hissued : issuedTimes { s with passes := s.passes + 1, pc := .taking s.db.activeEntries [] } =
        issuedTimes s := by simp [issuedTimes, hpc, Pc.dueTimes]
    refine ⟨?_, hissued ▸ hs.spent, hissued ▸ hs.nodup, hissued ▸ hs.oneShot⟩
    intro e he
    exact Database.getEntry_of_mem_activeEntries hnames he
  | jump pc hjump =>
    refine hs.of_schedule rfl (hjump.held ▸ .refl _) ?_
    have hnone : pc.dueTimes = [] := by cases hjump <;> rfl
    simp [issuedTimes, hnone]
  | keep taskTime e todo queue hpc =>
    refine hs.of_schedule rfl ?_ ?_
    · rw [hpc]
      exact Pc.held_settled taskTime e todo queue
    · cases taskTime <;> simp [issuedTimes, hpc, Pc.settled, Pc.dueTimes]
  | evict task tasks hpc =>
    exact hs.of_schedule (Database.removeOldest_frame _ _ _ _ _).1 (List.nil_sublist _)
      (by simp [issuedTimes, Pc.dueTimes])
  | create task tasks result db hpc hsave =>
    exact hs.of_schedule (Database.superSave_schedule hsave) (List.nil_sublist _)
      (by simp [issuedTimes, Pc.dueTimes, Event.queuedTask])
  | finalize f f' tasks w hpc hmove =>
    exact hs.of_schedule hmove.schedule (List.nil_sublist _)
      (by simp [issuedTimes, Pc.dueTimes, hmove.tasks.2.2])
  | finalized f tasks w hpc hmove =>
    exact hs.of_schedule hmove.schedule (List.nil_sublist _)
      (by simp [issuedTimes, Pc.dueTimes, hmove.tasks.2.2])
  | finalizeRaise f tasks err w hpc hraise =>
    exact hs.of_schedule (congrArg Database.schedule hraise.frame.1) (List.nil_sublist _)
      (by simp [issuedTimes, Pc.dueTimes, hraise.queuedTasks])
  | raise | fetch | call | spawn | finish =>
    exact hs.of_schedule rfl (List.nil_sublist _)
      (by simp [issuedTimes, Pc.dueTimes, Event.queuedTask])

/-- What one step preserves that leaves the entries to the scheduler, crashes included. -/
theorem step_issuing (hs : Issuing s) (hnames : NamesUnique s.db) (hlive : s.pc.liveNames.Nodup)
    (hl : LeavesEntries l) (h : step cfg s l = some t) : Issuing t := by
  cases step_cases h with
  | sched i s' hmove => exact schedMove_issuing hmove hs hnames hlive
  | finalizer k i f f' w hf hmove =>
    exact hs.of_schedule hmove.schedule (.refl _) (by simp [issuedTimes, hmove.tasks.2.2])
  | finalizerEnd k i f w hf hmove =>
    exact hs.of_schedule hmove.schedule (.refl _) (by simp [issuedTimes, hmove.tasks.2.2])
  | finalizerRaise k i f err w hf hraise =>
    exact hs.of_schedule (congrArg Database.schedule hraise.frame.1) (.refl _)
      (by simp [issuedTimes, hraise.queuedTasks])
  | measure recordingId =>
    exact hs.of_schedule (Database.storeAcquisition_schedule _ _ _) (.refl _) (.refl _)
  | stop => exact hs.of_schedule rfl (.refl _) (.refl _)
  | crash =>
    exact hs.of_schedule rfl (List.nil_sublist _) (by simp [issuedTimes, Pc.dueTimes])
  | read => exact hs.of_schedule rfl (.refl _) (.refl _)
  | deleteResult => exact hs.of_schedule rfl (.refl _) (.refl _)
  | post => exact hl.elim
  | write => exact hl.elim
  | deleteEntry => exact hl.elim

/-- Every task that is started or may be was queued, and for one start only. -/
def Filed (s : Sys) : Prop :=
  (startedTasks s.history ++ s.pc.unstarted).Subperm ((queuedTasks s.history).map Prod.snd)

theorem Filed.of_subperm (hs : Filed s) (hstarted : startedTasks t.history = startedTasks s.history)
    (hqueued : queuedTasks t.history = queuedTasks s.history)
    (hunstarted : t.pc.unstarted.Subperm s.pc.unstarted) : Filed t := by
  unfold Filed at hs ⊢
  rw [hstarted, hqueued]
  exact ((List.subperm_append_left _).mpr hunstarted).trans hs

theorem Jump.unstarted {pc : Pc} (h : Jump cfg s pc) : pc.unstarted.Perm s.pc.unstarted := by
  cases h with
  | queueDone queue hpc =>
    rw [hpc]
    exact TaskQueue.toList_perm queue
  | _ => simp_all [Pc.unstarted, Pc.waiting]

theorem schedMove_filed (h : SchedMove cfg i s t) (hs : Filed s) : Filed t := by
  cases h with
  | number taskTime e todo queue hpc =>
    have hold : (startedTasks s.history ++ queue).Subperm ((queuedTasks s.history).map Prod.snd) := by
      simpa [Filed, hpc, Pc.unstarted, Pc.waiting] using hs
    have henter := TaskQueue.enter_perm queue taskTime e.priority e.action e.name e.nextTaskId
    unfold Filed
    simp only [startedTasks_append, queuedTasks_append, Event.startedTask, Event.queuedTask,
      Pc.unstarted, Pc.waiting, Option.toList_none, Option.toList_some, List.append_nil,
      List.map_append, List.map_singleton]
    have hfront := (henter.append_left (startedTasks s.history)).trans List.perm_middle
    have hback := List.perm_append_singleton
      (⟨taskTime, e.priority, e.action, e.name, e.nextTaskId⟩ : PendingTask)
      ((queuedTasks s.history).map Prod.snd)
    exact hfront.subperm.trans (((List.subperm_cons _).mpr hold).trans hback.symm.subperm)
  | call task result tasks hpc =>
    have hold : (startedTasks s.history ++ task :: tasks).Subperm
        ((queuedTasks s.history).map Prod.snd) := by
      simpa [Filed, hpc, Pc.unstarted] using hs
    unfold Filed
    simpa [Event.startedTask, Event.queuedTask, Pc.unstarted, Pc.waiting] using hold
  | jump pc hjump => exact hs.of_subperm rfl rfl hjump.unstarted.subperm
  | take e todo queue hpc =>
    refine hs.of_subperm (by simp [Event.startedTask]) (by simp [Event.queuedTask]) ?_
    rw [hpc]
    exact .refl _
  | keep taskTime e todo queue hpc | cancel taskTime e todo queue hpc =>
    refine hs.of_subperm rfl rfl ?_
    rw [hpc]
    cases taskTime <;> exact .refl _
  | create task tasks result db hpc =>
    refine hs.of_subperm (by simp [Event.startedTask]) (by simp [Event.queuedTask]) ?_
    rw [hpc]
    exact .refl _
  | fetch task tasks e hpc | evict task tasks hpc =>
    refine hs.of_subperm rfl rfl ?_
    rw [hpc]
    exact .refl _
  | spawn task result started tasks hpc | finish task result started tasks hpc =>
    refine hs.of_subperm (by simp [Event.startedTask]) (by simp [Event.queuedTask]) ?_
    rw [hpc]
    exact .refl _
  | finalize f f' tasks w hpc hmove | finalized f tasks w hpc hmove =>
    refine hs.of_subperm hmove.tasks.1 hmove.tasks.2.2 ?_
    rw [hpc]
    exact .refl _
  | finalizeRaise f tasks err w hpc hraise =>
    exact hs.of_subperm (congrArg startedTasks hraise.frame.2.1) hraise.queuedTasks List.nil_subperm
  | raise | read | reset => exact hs.of_subperm rfl rfl List.nil_subperm

theorem step_filed (hs : Filed s) (h : step cfg s l = some t) : Filed t := by
  cases step_cases h with
  | sched i s' hmove => exact schedMove_filed hmove hs
  | finalizer k i f f' w hf hmove => exact hs.of_subperm hmove.tasks.1 hmove.tasks.2.2 (.refl _)
  | finalizerEnd k i f w hf hmove => exact hs.of_subperm hmove.tasks.1 hmove.tasks.2.2 (.refl _)
  | finalizerRaise k i f err w hf hraise =>
    exact hs.of_subperm (congrArg startedTasks hraise.frame.2.1) hraise.queuedTasks (.refl _)
  | crash => exact hs.of_subperm rfl rfl List.nil_subperm
  | _ => exact hs.of_subperm rfl rfl (.refl _)

/-- What is read off the started tasks is read off the queued ones, no more often. -/
theorem Filed.started {α : Type} (hs : Filed s) (f : PendingTask → α) :
    ((startedTasks s.history).map f).Subperm ((queuedTasks s.history).map fun x => f x.2) := by
  have hsub : (startedTasks s.history).Subperm ((queuedTasks s.history).map Prod.snd) :=
    (List.sublist_append_left _ _).subperm.trans hs
  obtain ⟨tasks, hperm, hsublist⟩ := hsub
  have hmap := hsublist.map f
  rw [List.map_map] at hmap
  exact ⟨tasks.map f, hperm.map f, hmap⟩

/-- The action of every task is started at most once for its time. -/
theorem started_times_nodup (hs : Issuing s) (hfiled : Filed s) :
    ((startedTasks s.history).map fun x => (x.scheduleEntryName, x.time)).Nodup := by
  obtain ⟨times, hperm, hsub⟩ := hfiled.started fun x => (x.scheduleEntryName, x.time)
  have hnodup := hs.nodup
  unfold issuedTimes at hnodup
  exact hperm.nodup_iff.mp ((List.nodup_append.mp hnodup).1.sublist hsub)

theorem started_oneShot (hs : Issuing s) (hfiled : Filed s) {name : String} {row : ScheduleEntry}
    (hrow : s.db.getEntry name = some row) (hinterval : row.interval = none) :
    ((startedTasks s.history).map Task.scheduleEntryName).count name ≤ 1 := by
  have hstarted := (hfiled.started Task.scheduleEntryName).count_le name
  have hcount := hs.oneShot name row hrow hinterval
  have hqueued : ((queuedTasks s.history).map fun x => x.2.scheduleEntryName).count name ≤
      ((issuedTimes s).map Prod.fst).count name := by
    simp only [issuedTimes, List.map_append, List.map_map, List.count_append, Function.comp_def]
    omega
  split_ifs at hcount <;> omega

/-- What holds of the times at every point of a run that leaves the entries to the
scheduler. -/
structure Timely (s : Sys) : Prop where
  names : NamesUnique s.db
  live : s.pc.liveNames.Nodup
  issuing : Issuing s
  filed : Filed s

theorem timely_start {db : Database} (hnames : NamesUnique db) : Timely { db := db } := by
  refine ⟨hnames, List.nodup_nil, ⟨?_, ?_, List.nodup_nil, ?_⟩, List.nil_subperm⟩
  · intro e he
    cases he
  · intro x hx
    cases hx
  · intro name row _ _
    simp [issuedTimes, queuedTasks, Pc.dueTimes]

theorem Timely.step (hs : Timely s) (hl : LeavesEntries l) (h : step cfg s l = some t) : Timely t :=
  ⟨step_names hs.names h, nodup_of_liveNames hs.live hs.names h,
    step_issuing hs.issuing hs.names hs.live hl h, step_filed hs.filed h⟩

end Scheduler

end ScosSensor
