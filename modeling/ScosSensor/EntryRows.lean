import ScosSensor.SchedulerMoves

/-!
# What becomes of one row of the schedule

The scheduler, the API and a restart all write the schedule. Seen from one row,
a step leaves it alone or makes one of a few writes, each of known columns and
known values. Claims about single entries are proved from this list.
-/
namespace ScosSensor

namespace Database

variable {db : Database} {e row : ScheduleEntry} {name other : String}

theorem getEntry_append_self (h : db.getEntry e.name = none) :
    ({ db with schedule := db.schedule ++ [e] } : Database).getEntry e.name = some e :=
  Table.get?_append_self (Table.get?_eq_none_iff.mp h) rfl

theorem getEntry_append_ne (h : name ≠ e.name) :
    ({ db with schedule := db.schedule ++ [e] } : Database).getEntry name = db.getEntry name :=
  Table.get?_append_ne h

theorem getEntry_saveWhole_self (db : Database) (e : ScheduleEntry) :
    (db.saveWhole e).getEntry e.name = some e := by
  unfold saveWhole
  split_ifs with h
  · exact getEntry_putEntry_self h
  · exact getEntry_append_self (by simpa using h)

theorem getEntry_saveWhole_ne (h : name ≠ e.name) :
    (db.saveWhole e).getEntry name = db.getEntry name := by
  unfold saveWhole
  split_ifs
  · exact getEntry_putEntry_ne h
  · exact getEntry_append_ne h

theorem removeEntry_some {db' : Database} (h : db.removeEntry name = some db') :
    (db.getEntry name).isSome ∧ db.resultsOf name = [] ∧
      db' = { db with schedule := Table.remove ScheduleEntry.name name db.schedule } := by
  unfold removeEntry at h
  split_ifs at h with hfree
  exact ⟨hfree.1, hfree.2, (Option.some.inj h).symm⟩

theorem getEntry_removeEntry {db' : Database} (h : db.removeEntry name = some db') (other : String) :
    db'.getEntry other = if other = name then none else db.getEntry other := by
  obtain ⟨-, -, rfl⟩ := removeEntry_some h
  split_ifs with hname
  · rw [hname]
    exact Table.get?_remove_self
  · exact Table.get?_remove_ne hname

theorem getEntry_congr {db' : Database} (h : db'.schedule = db.schedule) (name : String) :
    db'.getEntry name = db.getEntry name := by
  unfold getEntry
  rw [h]

/-- A write of some columns of one row, seen from any row. -/
theorem getEntry_writeRow {columns : ScheduleEntry → ScheduleEntry}
    (hcolumns : ∀ row, (columns row).name = row.name) (hrow : db.getEntry name = some row)
    (other : String) :
    (db.writeRow name columns).getEntry other =
      if other = name then some (columns row) else db.getEntry other := by
  split_ifs with h
  · rw [h, getEntry_writeRow_self hcolumns, hrow]
    rfl
  · exact getEntry_writeRow_ne hcolumns h

@[simp] theorem storeAcquisition_schedule (db : Database) (key : String × ℕ) (recordingId : ℤ) :
    (db.storeAcquisition key recordingId).schedule = db.schedule := by
  unfold storeAcquisition
  split
  · rfl
  · split_ifs <;> rfl

@[simp] theorem storeAcquisition_results (db : Database) (key : String × ℕ) (recordingId : ℤ) :
    (db.storeAcquisition key recordingId).results = db.results := by
  unfold storeAcquisition
  split
  · rfl
  · split_ifs <;> rfl

@[simp] theorem storeAcquisition_nextId (db : Database) (key : String × ℕ) (recordingId : ℤ) :
    (db.storeAcquisition key recordingId).nextId = db.nextId := by
  unfold storeAcquisition
  split
  · rfl
  · split_ifs <;> rfl

end Database

/-- An update writes back the name it has read. -/
@[simp] theorem Request.saved_name (q : Request) (now : ℤ) : (q.saved now).name = q.entry.name := by
  unfold saved ScheduleEntry.reschedule
  split_ifs <;> rfl

@[simp] theorem Request.saved_isActive (q : Request) (now : ℤ) :
    (q.saved now).isActive = q.body.isActive.getD q.entry.isActive := by
  unfold saved ScheduleEntry.reschedule
  split_ifs <;> rfl

@[simp] theorem Request.saved_nextTaskId (q : Request) (now : ℤ) :
    (q.saved now).nextTaskId = q.entry.nextTaskId := by
  unfold saved ScheduleEntry.reschedule
  split_ifs <;> rfl

namespace Pc

/-- The ids have been reset, and the loops are running. -/
def Started : Pc → Prop
  | .starting => False
  | .resetting _ => False
  | _ => True

theorem held_settled (taskTime : Option ℤ) (e : ScheduleEntry) (todo : List ScheduleEntry)
    (queue : TaskQueue ℕ) : (settled taskTime e todo queue).held.Sublist (e :: todo) := by
  cases taskTime with
  | none => exact List.sublist_cons_self e todo
  | some taskTime => exact .refl _

end Pc

namespace Scheduler

variable {cfg : Settings} {s t : Sys} {l : Label} {i : Input} {name : String}

/-- What a step can make of the row of `name`: the value read after it. -/
inductive RowStep (cfg : Settings) (s : Sys) (l : Label) (name : String) :
    Option ScheduleEntry → Prop
  | same : RowStep cfg s l name (s.db.getEntry name)
  | reset (i : Input) (e : ScheduleEntry) (todo : List ScheduleEntry) (last : ResultRow)
      (row : ScheduleEntry) (hl : l = .sched i) (hpc : s.pc = .resetting (e :: todo))
      (hname : e.name = name) (hlast : s.db.lastResult? name = some last)
      (hrow : s.db.getEntry name = some row) :
    RowStep cfg s l name (some { row with nextTaskId := last.taskId + 1 })
  | take (i : Input) (e : ScheduleEntry) (todo : List ScheduleEntry) (queue : TaskQueue ℕ)
      (row : ScheduleEntry) (hl : l = .sched i) (hpc : s.pc = .taking (e :: todo) queue)
      (hname : e.name = name) (hrow : s.db.getEntry name = some row) :
    RowStep cfg s l name (some ((e.takePending i.now).2.writeTimes row))
  | cancel (i : Input) (taskTime : Option ℤ) (e : ScheduleEntry) (todo : List ScheduleEntry)
      (queue : TaskQueue ℕ) (row : ScheduleEntry) (hl : l = .sched i)
      (hpc : s.pc = .completing taskTime e todo queue) (hname : e.name = name)
      (hleft : e.hasRemainingTimes = false) (hrow : s.db.getEntry name = some row) :
    RowStep cfg s l name (some { row with isActive := false })
  | number (i : Input) (taskTime : ℤ) (e : ScheduleEntry) (todo : List ScheduleEntry)
      (queue : TaskQueue ℕ) (row : ScheduleEntry) (hl : l = .sched i)
      (hpc : s.pc = .numbering taskTime e todo queue) (hname : e.name = name)
      (hrow : s.db.getEntry name = some row) :
    RowStep cfg s l name (some { row with nextTaskId := e.nextTaskId + 1 })
  | write (k : ℕ) (now : ℤ) (q : Request) (hl : l = .write k now) (hq : s.requests[k]? = some q)
      (hname : q.entry.name = name) : RowStep cfg s l name (some (q.saved now))
  | post (owner action : String) (body : Body) (now : ℤ) (hl : l = .post name owner body now)
      (hnew : s.db.getEntry name = none) (hloaded : cfg.actions.contains action = true) :
    RowStep cfg s l name (some (.ofBody name owner action now body))
  | delete (hl : l = .deleteEntry name) (hfree : s.db.resultsOf name = []) :
    RowStep cfg s l name none

theorem rowStep_of_schedule (h : t.db.schedule = s.db.schedule) (name : String) :
    RowStep cfg s l name (t.db.getEntry name) := by
  rw [Database.getEntry_congr h]
  exact .same

/-- A write of some columns of the row of `e` is the write of its name, and
leaves the rows of other names. -/
theorem rowStep_of_write {columns : ScheduleEntry → ScheduleEntry} {e row : ScheduleEntry}
    (hschedule : t.db = s.db.writeRow e.name columns)
    (hcolumns : ∀ row, (columns row).name = row.name) (hrow : s.db.getEntry e.name = some row)
    (hwrite : e.name = name → RowStep cfg s l name (some (columns row))) :
    RowStep cfg s l name (t.db.getEntry name) := by
  rw [hschedule, Database.getEntry_writeRow hcolumns hrow name]
  split_ifs with h
  · exact hwrite h.symm
  · exact .same

theorem schedMove_row (h : SchedMove cfg i s t) (name : String) :
    RowStep cfg s (.sched i) name (t.db.getEntry name) := by
  cases h with
  | reset e todo last hpc hlast hstored =>
    obtain ⟨row, hrow⟩ := Option.isSome_iff_exists.mp hstored
    refine rowStep_of_write rfl (fun _ => rfl) hrow ?_
    intro hname
    subst hname
    exact .reset i e todo last row rfl hpc rfl hlast hrow
  | take e todo queue hpc hstored =>
    obtain ⟨row, hrow⟩ := Option.isSome_iff_exists.mp hstored
    refine rowStep_of_write rfl (fun _ => rfl) hrow ?_
    intro hname
    subst hname
    exact .take i e todo queue row rfl hpc rfl hrow
  | cancel taskTime e todo queue hpc hleft hstored =>
    obtain ⟨row, hrow⟩ := Option.isSome_iff_exists.mp hstored
    refine rowStep_of_write rfl (fun _ => rfl) hrow ?_
    intro hname
    subst hname
    exact .cancel i taskTime e todo queue row rfl hpc rfl hleft hrow
  | number taskTime e todo queue hpc hstored =>
    obtain ⟨row, hrow⟩ := Option.isSome_iff_exists.mp hstored
    refine rowStep_of_write rfl (fun _ => rfl) hrow ?_
    intro hname
    subst hname
    exact .number i taskTime e todo queue row rfl hpc rfl hrow
  | evict task tasks hpc =>
    exact rowStep_of_schedule (Database.removeOldest_frame _ _ _ _ _).1 name
  | create task tasks result db hpc hsave =>
    exact rowStep_of_schedule (Database.superSave_schedule hsave) name
  | finalize f f' tasks w hpc hmove => exact rowStep_of_schedule hmove.schedule name
  | finalized f tasks w hpc hmove => exact rowStep_of_schedule hmove.schedule name
  | finalizeRaise f tasks err w hpc hraise =>
    exact rowStep_of_schedule (congrArg Database.schedule hraise.frame.1) name
  | _ => exact .same

/-- Every step, seen from one row. -/
theorem step_row (h : step cfg s l = some t) (name : String) :
    RowStep cfg s l name (t.db.getEntry name) := by
  cases step_cases h with
  | sched i s' hmove => exact schedMove_row hmove name
  | finalizer k i f f' w hf hmove => exact rowStep_of_schedule hmove.schedule name
  | finalizerEnd k i f w hf hmove => exact rowStep_of_schedule hmove.schedule name
  | finalizerRaise k i f err w hf hraise =>
    exact rowStep_of_schedule (congrArg Database.schedule hraise.frame.1) name
  | measure recordingId task result started tasks hpc =>
    exact rowStep_of_schedule (Database.storeAcquisition_schedule _ _ _) name
  | post new owner action body now haction hnew hloaded =>
    by_cases hname : name = new
    · subst hname
      have hself : ({ s.db with schedule := s.db.schedule ++
          [.ofBody name owner action now body] } : Database).getEntry name =
          some (.ofBody name owner action now body) := Database.getEntry_append_self hnew
      dsimp only
      rw [hself]
      exact .post owner action body now rfl hnew hloaded
    · have hne : ({ s.db with schedule := s.db.schedule ++
          [.ofBody new owner action now body] } : Database).getEntry name = s.db.getEntry name :=
        Database.getEntry_append_ne hname
      dsimp only
      rw [hne]
      exact .same
  | write k now q hq =>
    dsimp only
    by_cases hname : name = (q.saved now).name
    · rw [hname, Database.getEntry_saveWhole_self]
      exact .write k now q rfl hq (q.saved_name now).symm
    · rw [Database.getEntry_saveWhole_ne hname]
      exact .same
  | deleteEntry gone db hremove =>
    dsimp only
    rw [Database.getEntry_removeEntry hremove]
    split_ifs with hname
    · subst hname
      exact .delete rfl (Database.removeEntry_some hremove).2.1
    · exact .same
  | deleteResult id hid => exact rowStep_of_schedule rfl name
  | _ => exact .same

/-- The primary keys of the schedule. -/
def NamesUnique (db : Database) : Prop := (db.schedule.map ScheduleEntry.name).Nodup

theorem namesUnique_of_schedule {db db' : Database} (h : NamesUnique db)
    (heq : db'.schedule = db.schedule) : NamesUnique db' := by
  unfold NamesUnique
  rwa [heq]

theorem namesUnique_writeRow {db : Database} {columns : ScheduleEntry → ScheduleEntry}
    (h : NamesUnique db) (hcolumns : ∀ row, (columns row).name = row.name) (name : String) :
    NamesUnique (db.writeRow name columns) := by
  unfold NamesUnique
  rwa [Database.names_writeRow hcolumns]

theorem namesUnique_append {db : Database} {e : ScheduleEntry} (h : NamesUnique db)
    (hnew : db.getEntry e.name = none) :
    NamesUnique { db with schedule := db.schedule ++ [e] } :=
  Table.nodup_append_row h (Database.getEntry_eq_none.mp hnew)

/-- Every step respects the primary keys. -/
theorem step_names (hs : NamesUnique s.db) (h : step cfg s l = some t) : NamesUnique t.db := by
  cases step_cases h with
  | sched i s' hmove =>
    cases hmove with
    | reset | take | cancel | number =>
      refine namesUnique_writeRow hs ?_ _
      intro row
      rfl
    | evict => exact namesUnique_of_schedule hs (Database.removeOldest_frame _ _ _ _ _).1
    | create task tasks result db hpc hsave =>
      exact namesUnique_of_schedule hs (Database.superSave_schedule hsave)
    | finalize f f' tasks w hpc hmove => exact namesUnique_of_schedule hs hmove.schedule
    | finalized f tasks w hpc hmove => exact namesUnique_of_schedule hs hmove.schedule
    | finalizeRaise f tasks err w hpc hraise =>
      exact namesUnique_of_schedule hs (congrArg Database.schedule hraise.frame.1)
    | _ => exact hs
  | finalizer k i f f' w hf hmove => exact namesUnique_of_schedule hs hmove.schedule
  | finalizerEnd k i f w hf hmove => exact namesUnique_of_schedule hs hmove.schedule
  | finalizerRaise k i f err w hf hraise =>
    exact namesUnique_of_schedule hs (congrArg Database.schedule hraise.frame.1)
  | measure => exact namesUnique_of_schedule hs (Database.storeAcquisition_schedule _ _ _)
  | post name owner action body now haction hnew => exact namesUnique_append hs hnew
  | write k now q hq =>
    unfold Database.saveWhole
    dsimp only
    split_ifs with hstored
    · show (((s.db.putEntry (q.saved now)).schedule).map ScheduleEntry.name).Nodup
      rwa [Database.names_putEntry]
    · exact namesUnique_append hs (by simpa using hstored)
  | deleteEntry name db hremove =>
    obtain ⟨-, -, rfl⟩ := Database.removeEntry_some hremove
    exact Table.nodup_remove hs
  | _ => exact hs

/-- A finalization that raises reports nothing either. -/
theorem FinalizeRaise.queuedTasks {f : Finalization} {w w' : World} {err : Exc}
    (h : FinalizeRaise cfg f w err w') : queuedTasks w'.history = queuedTasks w.history :=
  congrArg ScosSensor.queuedTasks h.frame.2.1

/-- Tasks are queued when they are numbered, for the pass that is under way. -/
theorem step_queued (h : step cfg s l = some t) :
    queuedTasks t.history = queuedTasks s.history ∨
      ∃ taskTime e todo queue, s.pc = .numbering taskTime e todo queue ∧
        queuedTasks t.history = queuedTasks s.history ++
          [(s.passes, ⟨taskTime, e.priority, e.action, e.name, e.nextTaskId⟩)] := by
  cases step_cases h with
  | sched i s' hmove =>
    cases hmove with
    | number taskTime e todo queue hpc =>
      exact .inr ⟨taskTime, e, todo, queue, hpc, by simp [Event.queuedTask]⟩
    | finalize f f' tasks w hpc hmove => exact .inl hmove.tasks.2.2
    | finalized f tasks w hpc hmove => exact .inl hmove.tasks.2.2
    | finalizeRaise f tasks err w hpc hraise => exact .inl hraise.queuedTasks
    | take | create | call | spawn | finish => simp [Event.queuedTask]
    | _ => exact .inl rfl
  | finalizer k i f f' w hf hmove => exact .inl hmove.tasks.2.2
  | finalizerEnd k i f w hf hmove => exact .inl hmove.tasks.2.2
  | finalizerRaise k i f err w hf hraise => exact .inl hraise.queuedTasks
  | _ => exact .inl rfl

/-- A step begins a pass with a new snapshot, or stays in its pass and goes on
with instances of the same entries. -/
theorem step_held (h : step cfg s l = some t) :
    (t.passes = s.passes + 1 ∧ t.pc.held = s.db.activeEntries ∧ s.pc = .reading) ∨
      (t.passes = s.passes ∧
        ∀ e ∈ t.pc.held, ∃ a ∈ s.pc.held, a.name = e.name ∧ a.nextTaskId = e.nextTaskId) := by
  have hsame {pc : Pc} (hpc : pc.held = s.pc.held) :
      ∀ e ∈ pc.held, ∃ a ∈ s.pc.held, a.name = e.name ∧ a.nextTaskId = e.nextTaskId := by
    intro e he
    rw [hpc] at he
    exact ⟨e, he, rfl, rfl⟩
  cases step_cases h with
  | sched i s' hmove =>
    cases hmove with
    | read hpc => exact .inl ⟨rfl, rfl, hpc⟩
    | jump pc hjump => exact .inr ⟨rfl, hsame hjump.held⟩
    | take e todo queue hpc =>
      refine .inr ⟨rfl, ?_⟩
      intro a ha
      rw [hpc]
      rcases List.mem_cons.mp ha with ha | ha
      · refine ⟨e, List.mem_cons_self, ?_⟩
        rw [ha]
        exact ⟨(ScheduleEntry.takePending_name e i.now).symm,
          (ScheduleEntry.takeUntil_nextTaskId e (i.now + 1)).symm⟩
      · exact ⟨a, List.mem_cons_of_mem e ha, rfl, rfl⟩
    | keep taskTime e todo queue hpc =>
      refine .inr ⟨rfl, ?_⟩
      intro a ha
      rw [hpc]
      exact ⟨a, (Pc.held_settled taskTime e todo queue).subset ha, rfl, rfl⟩
    | cancel taskTime e todo queue hpc =>
      refine .inr ⟨rfl, ?_⟩
      intro a ha
      rw [hpc]
      rcases List.mem_cons.mp ((Pc.held_settled taskTime _ todo queue).subset ha) with ha | ha
      · refine ⟨e, List.mem_cons_self, ?_⟩
        rw [ha]
        exact ⟨rfl, rfl⟩
      · exact ⟨a, List.mem_cons_of_mem e ha, rfl, rfl⟩
    | number taskTime e todo queue hpc =>
      refine .inr ⟨rfl, ?_⟩
      intro a ha
      rw [hpc]
      exact ⟨a, List.mem_cons_of_mem e ha, rfl, rfl⟩
    | evict task tasks hpc | create task tasks result db hpc | call task result tasks hpc
    | fetch task tasks e hpc | spawn task result started tasks hpc
    | finish task result started tasks hpc | finalize f f' tasks w hpc | finalized f tasks w hpc =>
      exact .inr ⟨rfl, by simp [Pc.held]⟩
    | raise err | reset e todo last hpc | finalizeRaise f tasks err w hpc =>
      exact .inr ⟨rfl, by simp [Pc.held]⟩
  | crash => exact .inr ⟨rfl, by simp [Pc.held]⟩
  | _ => exact .inr ⟨rfl, hsame rfl⟩

end Scheduler

end ScosSensor
