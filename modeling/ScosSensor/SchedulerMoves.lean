import ScosSensor.SchedulerThread

/-!
# What a step can do

Every step of the machine, read off its definition once: the place it starts
from, the condition it needs, and the whole state it leaves. The invariants of
later modules are proved by cases on these relations and do not unfold the
machine again.
-/
namespace ScosSensor

namespace Scheduler

variable {cfg : Settings} {i : Input} {s s' : Sys} {w w' : World} {f f' : Finalization}
  {err : Exc}

/-- A step of a finalization that raises nothing. -/
inductive FinalizeMove (cfg : Settings) (i : Input) (f : Finalization) (w : World) :
    Option Finalization → World → Prop
  | evict (site : SaveSite) (hstage : f.stage = .evicting site) :
    FinalizeMove cfg i f w (some { f with stage := .writing site }) { w with
      db := w.db.removeOldest cfg.maxDiskUsage i.percentUsed f.result.scheduleEntry
        (some f.result.id) }
  | write (site : SaveSite) (row : ResultRow) (db : Database) (hstage : f.stage = .writing site)
      (hsave : w.db.superSave (some f.result.id) f.result.toTaskResult = .ok (row, db)) :
    FinalizeMove cfg i f w
      (some { f with stage := if site = .first then .notifying else .counting }) { w with db }
  | retry (err : Exc) (hstage : f.stage = .writing .response)
      (hsave : w.db.superSave (some f.result.id) f.result.toTaskResult = .error err) :
    FinalizeMove cfg i f w (some (notificationFailed f .failed)) w
  | notify (entry : ScheduleEntry) (hstage : f.stage = .notifying) (hentry : w.entry = some entry) :
    FinalizeMove cfg i f w (some (afterCallback f (cfg.postTo entry) i.callback))
      { w with history := w.history ++ [.delivered f.producer f.result (cfg.postTo entry)] }
  | count (w' : World) (hstage : f.stage = .counting)
      (hcount : countFailures cfg f.status w = (.ok (), w')) :
    FinalizeMove cfg i f w none w'

/-- An exception that a finalization does not catch. -/
inductive FinalizeRaise (cfg : Settings) (f : Finalization) (w : World) : Exc → World → Prop
  | write (site : SaveSite) (err : Exc) (hstage : f.stage = .writing site) (hsite : site ≠ .response)
      (hsave : w.db.superSave (some f.result.id) f.result.toTaskResult = .error err) :
    FinalizeRaise cfg f w err w
  | noEntry (hstage : f.stage = .notifying) (hentry : w.entry = none) :
    FinalizeRaise cfg f w .attributeError w
  | count (w' : World) (err : Exc) (hstage : f.stage = .counting)
      (hcount : countFailures cfg f.status w = (.error err, w')) :
    FinalizeRaise cfg f w err w'

theorem finalizeStep_cases (cfg : Settings) (i : Input) (f : Finalization) (w : World) :
    (∃ next w', finalizeStep cfg i f w = (.ok next, w') ∧ FinalizeMove cfg i f w next w') ∨
      ∃ err w', finalizeStep cfg i f w = (.error err, w') ∧ FinalizeRaise cfg f w err w' := by
  unfold finalizeStep
  cases hstage : f.stage with
  | evicting site => exact .inl ⟨_, _, rfl, .evict site hstage⟩
  | writing site =>
    cases hsave : w.db.superSave (some f.result.id) f.result.toTaskResult with
    | ok out => exact .inl ⟨_, _, rfl, .write site out.1 out.2 hstage hsave⟩
    | error err =>
      by_cases hsite : site = .response
      · subst hsite
        exact .inl ⟨_, _, rfl, .retry err hstage hsave⟩
      · refine .inr ⟨err, w, ?_, .write site err hstage hsite hsave⟩
        simp only [hsite, if_false]
  | notifying =>
    obtain hentry | ⟨entry, hentry⟩ := Option.eq_none_or_eq_some w.entry
    · refine .inr ⟨_, _, ?_, .noEntry hstage hentry⟩
      simp only [hentry]
    · refine .inl ⟨_, _, ?_, .notify entry hstage hentry⟩
      simp only [hentry]
  | counting =>
    cases hcount : countFailures cfg f.status w with
    | mk out w' =>
      cases out with
      | ok u => exact .inl ⟨none, w', by simp only, .count w' hstage hcount⟩
      | error err => exact .inr ⟨err, w', by simp only, .count w' err hstage hcount⟩

/-- Counting writes the attributes of the scheduler and no table. It can raise
the flag and never lowers it. -/
theorem countFailures_frame (cfg : Settings) (status : Status) (w : World) :
    (countFailures cfg status w).2.db = w.db ∧ (countFailures cfg status w).2.entry = w.entry ∧
      (countFailures cfg status w).2.history = w.history ∧
      (w.interruptFlag = true → (countFailures cfg status w).2.interruptFlag = true) := by
  unfold countFailures
  cases cfg.maxFailures with
  | int n =>
    refine ⟨rfl, rfl, rfl, ?_⟩
    intro hflag
    simp [hflag]
  | str text => exact ⟨rfl, rfl, rfl, fun hflag => hflag⟩

/-- The thread moves on without reaching for a row. -/
inductive Jump (cfg : Settings) (s : Sys) : Pc → Prop
  | startReset (hpc : s.pc = .starting) : Jump cfg s (.resetting s.db.activeEntries)
  | resetSkip (e : ScheduleEntry) (todo : List ScheduleEntry) (hpc : s.pc = .resetting (e :: todo)) :
    Jump cfg s (.resetting todo)
  | resetDone (hpc : s.pc = .resetting []) : Jump cfg s .checking
  | schedule (hpc : s.pc = .checking) (hactive : s.db.activeEntries ≠ []) : Jump cfg s .reading
  | idle (hpc : s.pc = .checking) (hactive : s.db.activeEntries = []) : Jump cfg s .scheduleDone
  | queueDone (queue : TaskQueue ℕ) (hpc : s.pc = .taking [] queue) :
    Jump cfg s (.consuming queue.toList)
  | tasksDone (hpc : s.pc = .consuming []) : Jump cfg s .passDone
  | passAgain (hpc : s.pc = .passDone) (hrun : cfg.blocking = true ∧ s.interruptFlag = false) :
    Jump cfg s .checking
  | passBreak (hpc : s.pc = .passDone) (hrun : ¬ (cfg.blocking = true ∧ s.interruptFlag = false)) :
    Jump cfg s .scheduleDone
  | runAgain (hpc : s.pc = .scheduleDone) (hrun : cfg.blocking = true ∧ s.interruptFlag = false) :
    Jump cfg s .checking
  | runBreak (hpc : s.pc = .scheduleDone)
      (hrun : ¬ (cfg.blocking = true ∧ s.interruptFlag = false)) : Jump cfg s .stopped

/-- The exceptions that end the loops, apart from those of a finalization. -/
inductive Raises (cfg : Settings) (i : Input) (s : Sys) : Exc → Prop
  | load (hpc : s.pc = .starting ∨ s.pc = .reading) (hload : ¬ s.db.activeEntries.all cfg.loads) :
    Raises cfg i s .validationError
  | reset (e : ScheduleEntry) (todo : List ScheduleEntry) (hpc : s.pc = .resetting (e :: todo))
      (hlast : (s.db.lastResult? e.name).isSome) (hgone : s.db.getEntry e.name = none) :
    Raises cfg i s .databaseError
  | take (e : ScheduleEntry) (todo : List ScheduleEntry) (queue : TaskQueue ℕ)
      (hpc : s.pc = .taking (e :: todo) queue) (hgone : s.db.getEntry e.name = none) :
    Raises cfg i s .databaseError
  | cancel (taskTime : Option ℤ) (e : ScheduleEntry) (todo : List ScheduleEntry)
      (queue : TaskQueue ℕ) (hpc : s.pc = .completing taskTime e todo queue)
      (hleft : e.hasRemainingTimes = false) (hgone : s.db.getEntry e.name = none) :
    Raises cfg i s .databaseError
  | number (taskTime : ℤ) (e : ScheduleEntry) (todo : List ScheduleEntry) (queue : TaskQueue ℕ)
      (hpc : s.pc = .numbering taskTime e todo queue) (hgone : s.db.getEntry e.name = none) :
    Raises cfg i s .databaseError
  | fetch (task : PendingTask) (tasks : List PendingTask) (err : Exc)
      (hpc : s.pc = .consuming (task :: tasks))
      (hload : loadEntry cfg s.db task.scheduleEntryName = .error err) : Raises cfg i s err
  | create (task : PendingTask) (tasks : List PendingTask) (err : Exc)
      (hpc : s.pc = .inserting task tasks)
      (hsave : s.db.superSave none
        { scheduleEntry := task.scheduleEntryName, taskId := task.taskId } = .error err) :
    Raises cfg i s err
  | call (task : PendingTask) (result : ResultRow) (tasks : List PendingTask) (err : Exc)
      (hpc : s.pc = .calling task result tasks)
      (hserialize : serializeEntry cfg s.db task.scheduleEntryName = .error err) : Raises cfg i s err
  | act (task : PendingTask) (result : ResultRow) (started : ℤ) (tasks : List PendingTask)
      (err : Exc) (hpc : s.pc = .acting task result started tasks)
      (hcall : i.action.statusAndDetail = .error err) : Raises cfg i s err

/-- A step of the scheduler thread. -/
inductive SchedMove (cfg : Settings) (i : Input) (s : Sys) : Sys → Prop
  | raise (err : Exc) (h : Raises cfg i s err) : SchedMove cfg i s { s with pc := .dead err }
  | jump (pc : Pc) (h : Jump cfg s pc) : SchedMove cfg i s { s with pc }
  | reset (e : ScheduleEntry) (todo : List ScheduleEntry) (last : ResultRow)
      (hpc : s.pc = .resetting (e :: todo)) (hlast : s.db.lastResult? e.name = some last)
      (hstored : (s.db.getEntry e.name).isSome) :
    SchedMove cfg i s { s with
      db := s.db.writeRow e.name fun row => { row with nextTaskId := last.taskId + 1 }
      pc := .resetting todo }
  | read (hpc : s.pc = .reading) (hload : s.db.activeEntries.all cfg.loads) :
    SchedMove cfg i s { s with passes := s.passes + 1, pc := .taking s.db.activeEntries [] }
  | take (e : ScheduleEntry) (todo : List ScheduleEntry) (queue : TaskQueue ℕ)
      (hpc : s.pc = .taking (e :: todo) queue) (hstored : (s.db.getEntry e.name).isSome) :
    SchedMove cfg i s { s with
      db := s.db.writeRow e.name (e.takePending i.now).2.writeTimes
      pc := .completing (e.dueTime i.now) (e.takePending i.now).2 todo queue
      history := s.history ++ [.taken e.name (e.takePending i.now).1] }
  | keep (taskTime : Option ℤ) (e : ScheduleEntry) (todo : List ScheduleEntry)
      (queue : TaskQueue ℕ) (hpc : s.pc = .completing taskTime e todo queue)
      (hleft : e.hasRemainingTimes = true) :
    SchedMove cfg i s { s with pc := .settled taskTime e todo queue }
  | cancel (taskTime : Option ℤ) (e : ScheduleEntry) (todo : List ScheduleEntry)
      (queue : TaskQueue ℕ) (hpc : s.pc = .completing taskTime e todo queue)
      (hleft : e.hasRemainingTimes = false) (hstored : (s.db.getEntry e.name).isSome) :
    SchedMove cfg i s { s with
      db := s.db.writeRow e.name fun row => { row with isActive := false }
      pc := .settled taskTime { e with isActive := false } todo queue }
  | number (taskTime : ℤ) (e : ScheduleEntry) (todo : List ScheduleEntry) (queue : TaskQueue ℕ)
      (hpc : s.pc = .numbering taskTime e todo queue) (hstored : (s.db.getEntry e.name).isSome) :
    SchedMove cfg i s { s with
      db := s.db.writeRow e.name fun row => { row with nextTaskId := e.nextTaskId + 1 }
      pc := .taking todo (queue.enter taskTime e.priority e.action e.name e.nextTaskId)
      history := s.history ++
        [.queued s.passes ⟨taskTime, e.priority, e.action, e.name, e.nextTaskId⟩] }
  | fetch (task : PendingTask) (tasks : List PendingTask) (e : ScheduleEntry)
      (hpc : s.pc = .consuming (task :: tasks))
      (hload : loadEntry cfg s.db task.scheduleEntryName = .ok e) :
    SchedMove cfg i s { s with entry := some e, pc := .evicting task tasks }
  | evict (task : PendingTask) (tasks : List PendingTask) (hpc : s.pc = .evicting task tasks) :
    SchedMove cfg i s { s with
      db := s.db.removeOldest cfg.maxDiskUsage i.percentUsed task.scheduleEntryName none
      pc := .inserting task tasks }
  | create (task : PendingTask) (tasks : List PendingTask) (result : ResultRow) (db : Database)
      (hpc : s.pc = .inserting task tasks)
      (hsave : s.db.superSave none
        { scheduleEntry := task.scheduleEntryName, taskId := task.taskId } = .ok (result, db)) :
    SchedMove cfg i s { s with
      db
      pc := .calling task result tasks
      history := s.history ++ [.created task] }
  | call (task : PendingTask) (result : ResultRow) (tasks : List PendingTask)
      (hpc : s.pc = .calling task result tasks)
      (hserialize : serializeEntry cfg s.db task.scheduleEntryName = .ok ()) :
    SchedMove cfg i s { s with
      pc := .acting task result i.time tasks
      history := s.history ++ [.started task] }
  | spawn (task : PendingTask) (result : ResultRow) (started : ℤ) (tasks : List PendingTask)
      (hpc : s.pc = .acting task result started tasks) (hasync : cfg.asyncCallback = true)
      (status : Status) (detail : PyText) (hcall : i.action.statusAndDetail = .ok (status, detail)) :
    SchedMove cfg i s { s with
      finalizations := s.finalizations ++ [startFinalization s result started i.time status detail]
      pc := .consuming tasks
      history := s.history ++ [.completed task] }
  | finish (task : PendingTask) (result : ResultRow) (started : ℤ) (tasks : List PendingTask)
      (hpc : s.pc = .acting task result started tasks) (hsync : cfg.asyncCallback = false)
      (status : Status) (detail : PyText) (hcall : i.action.statusAndDetail = .ok (status, detail)) :
    SchedMove cfg i s { s with
      pc := .finalizing (startFinalization s result started i.time status detail) tasks
      history := s.history ++ [.completed task] }
  | finalize (f f' : Finalization) (tasks : List PendingTask) (w : World)
      (hpc : s.pc = .finalizing f tasks) (hmove : FinalizeMove cfg i f s.toWorld (some f') w) :
    SchedMove cfg i s { s with toWorld := w, pc := .finalizing f' tasks }
  | finalized (f : Finalization) (tasks : List PendingTask) (w : World)
      (hpc : s.pc = .finalizing f tasks) (hmove : FinalizeMove cfg i f s.toWorld none w) :
    SchedMove cfg i s { s with toWorld := w, pc := .consuming tasks }
  | finalizeRaise (f : Finalization) (tasks : List PendingTask) (err : Exc) (w : World)
      (hpc : s.pc = .finalizing f tasks) (hraise : FinalizeRaise cfg f s.toWorld err w) :
    SchedMove cfg i s { s with toWorld := w, pc := .dead err }

theorem orFail_cases {α : Type} {r : Except Exc α} {next : α → Sys}
    (h : s.orFail r next = some s') :
    (∃ a, r = .ok a ∧ s' = next a) ∨ ∃ err, r = .error err ∧ s' = { s with pc := .dead err } := by
  cases r with
  | ok a => exact .inl ⟨a, rfl, (Option.some.inj h).symm⟩
  | error err => exact .inr ⟨err, rfl, (Option.some.inj h).symm⟩

theorem loadSchedule_ok {db : Database} {todo : List ScheduleEntry}
    (h : loadSchedule cfg db = .ok todo) :
    db.activeEntries.all cfg.loads ∧ todo = db.activeEntries := by
  unfold loadSchedule at h
  split_ifs at h with hload
  exact ⟨hload, (Except.ok.inj h).symm⟩

theorem loadSchedule_error {db : Database} (h : loadSchedule cfg db = .error err) :
    (¬ db.activeEntries.all cfg.loads) ∧ err = .validationError := by
  unfold loadSchedule at h
  split_ifs at h with hload
  exact ⟨hload, (Except.error.inj h).symm⟩

theorem loadEntry_ok {db : Database} {name : String} {e : ScheduleEntry}
    (h : loadEntry cfg db name = .ok e) : db.getEntry name = some e ∧ cfg.loads e = true := by
  unfold loadEntry at h
  split at h
  · cases h
  · rename_i e' he
    split_ifs at h with hload
    obtain rfl := Except.ok.inj h
    exact ⟨he, hload⟩

/-- An iteration of the reset writes the id after the last stored one, or nothing. -/
theorem resetTaskId_ok {e : ScheduleEntry} {db db' : Database} (h : resetTaskId e db = .ok db') :
    db' = db ∨ ∃ last, db.lastResult? e.name = some last ∧ (db.getEntry e.name).isSome ∧
      db' = db.writeRow e.name fun row => { row with nextTaskId := last.taskId + 1 } := by
  unfold resetTaskId at h
  cases hlast : db.lastResult? e.name with
  | none =>
    rw [hlast] at h
    exact .inl (Except.ok.inj h).symm
  | some last =>
    rw [hlast] at h
    dsimp only at h
    split_ifs at h
    · obtain ⟨hstored, hdb⟩ := Database.saveFields_ok h
      exact .inr ⟨last, rfl, hstored, hdb⟩
    · exact .inl (Except.ok.inj h).symm

theorem resetTaskId_error {e : ScheduleEntry} {db : Database} (h : resetTaskId e db = .error err) :
    (db.lastResult? e.name).isSome ∧ db.getEntry e.name = none ∧ err = .databaseError := by
  unfold resetTaskId at h
  cases hlast : db.lastResult? e.name with
  | none =>
    rw [hlast] at h
    cases h
  | some last =>
    rw [hlast] at h
    dsimp only at h
    split_ifs at h
    exact ⟨rfl, Database.saveFields_error h⟩

theorem schedStep_cases (h : schedStep cfg i s = some s') : SchedMove cfg i s s' := by
  unfold schedStep at h
  split at h
  case h_1 hpc =>
    obtain ⟨todo, hload, rfl⟩ | ⟨err, hload, rfl⟩ := orFail_cases h
    · obtain ⟨-, rfl⟩ := loadSchedule_ok hload
      exact .jump _ (.startReset hpc)
    · obtain ⟨hnot, rfl⟩ := loadSchedule_error hload
      exact .raise _ (.load (.inl hpc) hnot)
  case h_2 hpc =>
    obtain rfl := Option.some.inj h
    exact .jump _ (.resetDone hpc)
  case h_3 e todo hpc =>
    obtain ⟨db, hreset, rfl⟩ | ⟨err, hreset, rfl⟩ := orFail_cases h
    · obtain rfl | ⟨last, hlast, hstored, rfl⟩ := resetTaskId_ok hreset
      · exact .jump _ (.resetSkip e todo hpc)
      · exact .reset e todo last hpc hlast hstored
    · obtain ⟨hlast, hgone, rfl⟩ := resetTaskId_error hreset
      exact .raise _ (.reset e todo hpc hlast hgone)
  case h_4 hpc =>
    obtain rfl := Option.some.inj h
    split_ifs with hactive
    · exact .jump _ (.idle hpc hactive)
    · exact .jump _ (.schedule hpc hactive)
  case h_5 hpc =>
    obtain ⟨todo, hload, rfl⟩ | ⟨err, hload, rfl⟩ := orFail_cases h
    · obtain ⟨hall, rfl⟩ := loadSchedule_ok hload
      exact .read hpc hall
    · obtain ⟨hnot, rfl⟩ := loadSchedule_error hload
      exact .raise _ (.load (.inr hpc) hnot)
  case h_6 queue hpc =>
    obtain rfl := Option.some.inj h
    exact .jump _ (.queueDone queue hpc)
  case h_7 e todo queue hpc =>
    obtain ⟨hstored, htake⟩ | ⟨hgone, htake⟩ := takePendingTaskTime_cases i.now e s.db
    · rw [htake] at h
      obtain rfl := Option.some.inj h
      exact .take e todo queue hpc hstored
    · rw [htake] at h
      obtain rfl := Option.some.inj h
      exact .raise _ (.take e todo queue hpc hgone)
  case h_8 taskTime e todo queue hpc =>
    obtain ⟨hleft, hcancel⟩ | ⟨hleft, hstored, hcancel⟩ | ⟨hleft, hgone, hcancel⟩ :=
      cancelIfCompleted_cases e s.db
    · rw [hcancel] at h
      obtain rfl := Option.some.inj h
      exact .keep taskTime e todo queue hpc hleft
    · rw [hcancel] at h
      obtain rfl := Option.some.inj h
      exact .cancel taskTime e todo queue hpc hleft hstored
    · rw [hcancel] at h
      obtain rfl := Option.some.inj h
      exact .raise _ (.cancel taskTime e todo queue hpc hleft hgone)
  case h_9 taskTime e todo queue hpc =>
    obtain ⟨db, hsave, rfl⟩ | ⟨err, hsave, rfl⟩ := orFail_cases h
    · obtain ⟨hstored, rfl⟩ := Database.saveFields_ok hsave
      exact .number taskTime e todo queue hpc hstored
    · obtain ⟨hgone, rfl⟩ := Database.saveFields_error hsave
      exact .raise _ (.number taskTime e todo queue hpc hgone)
  case h_10 hpc =>
    obtain rfl := Option.some.inj h
    exact .jump _ (.tasksDone hpc)
  case h_11 task tasks hpc =>
    obtain ⟨e, hload, rfl⟩ | ⟨err, hload, rfl⟩ := orFail_cases h
    · exact .fetch task tasks e hpc hload
    · exact .raise _ (.fetch task tasks err hpc hload)
  case h_12 task tasks hpc =>
    obtain rfl := Option.some.inj h
    exact .evict task tasks hpc
  case h_13 task tasks hpc =>
    obtain ⟨⟨result, db⟩, hsave, rfl⟩ | ⟨err, hsave, rfl⟩ := orFail_cases h
    · exact .create task tasks result db hpc hsave
    · exact .raise _ (.create task tasks err hpc hsave)
  case h_14 task result tasks hpc =>
    obtain ⟨u, hserialize, rfl⟩ | ⟨err, hserialize, rfl⟩ := orFail_cases h
    · exact .call task result tasks hpc hserialize
    · exact .raise _ (.call task result tasks err hpc hserialize)
  case h_15 task result started tasks hpc =>
    obtain ⟨⟨status, detail⟩, hcall, rfl⟩ | ⟨err, hcall, rfl⟩ := orFail_cases h
    · dsimp only
      split_ifs with hasync
      · exact .spawn task result started tasks hpc hasync status detail hcall
      · exact .finish task result started tasks hpc (by simpa using hasync) status detail hcall
    · exact .raise _ (.act task result started tasks err hpc hcall)
  case h_16 f tasks hpc =>
    obtain ⟨next, w, hstep, hmove⟩ | ⟨err, w, hstep, hraise⟩ := finalizeStep_cases cfg i f s.toWorld
    · rw [hstep] at h
      obtain rfl := Option.some.inj h
      cases next with
      | none => exact .finalized f tasks w hpc hmove
      | some f' => exact .finalize f f' tasks w hpc hmove
    · rw [hstep] at h
      obtain rfl := Option.some.inj h
      exact .finalizeRaise f tasks err w hpc hraise
  case h_17 hpc =>
    obtain rfl := Option.some.inj h
    split_ifs with hrun
    · exact .jump _ (.passAgain hpc hrun)
    · exact .jump _ (.passBreak hpc hrun)
  case h_18 hpc =>
    obtain rfl := Option.some.inj h
    split_ifs with hrun
    · exact .jump _ (.runAgain hpc hrun)
    · exact .jump _ (.runBreak hpc hrun)
  case h_19 => cases h
  case h_20 => cases h

/-- A step of the system, by the label that names who takes it. -/
inductive Move (cfg : Settings) (s : Sys) : Label → Sys → Prop
  | sched (i : Input) (s' : Sys) (h : SchedMove cfg i s s') : Move cfg s (.sched i) s'
  | finalizer (k : ℕ) (i : Input) (f f' : Finalization) (w : World)
      (hf : s.finalizations[k]? = some f) (hmove : FinalizeMove cfg i f s.toWorld (some f') w) :
    Move cfg s (.finalizer k i) { s with
      toWorld := w, finalizations := s.finalizations.set k f' }
  | finalizerEnd (k : ℕ) (i : Input) (f : Finalization) (w : World)
      (hf : s.finalizations[k]? = some f) (hmove : FinalizeMove cfg i f s.toWorld none w) :
    Move cfg s (.finalizer k i) { s with
      toWorld := w, finalizations := s.finalizations.eraseIdx k }
  | finalizerRaise (k : ℕ) (i : Input) (f : Finalization) (err : Exc) (w : World)
      (hf : s.finalizations[k]? = some f) (hraise : FinalizeRaise cfg f s.toWorld err w) :
    Move cfg s (.finalizer k i) { s with
      toWorld := w, finalizations := s.finalizations.eraseIdx k }
  | measure (recordingId : ℤ) (task : PendingTask) (result : ResultRow) (started : ℤ)
      (tasks : List PendingTask) (hpc : s.pc = .acting task result started tasks) :
    Move cfg s (.measure recordingId) { s with db := s.db.storeAcquisition task.key recordingId }
  | stop : Move cfg s .stop { s with interruptFlag := true }
  | crash : Move cfg s .crash { db := s.db, history := s.history, passes := s.passes }
  | post (name owner action : String) (body : Body) (now : ℤ) (haction : body.action = some action)
      (hnew : s.db.getEntry name = none) (hloaded : cfg.actions.contains action = true) :
    Move cfg s (.post name owner body now) { s with
      db.schedule := s.db.schedule ++ [.ofBody name owner action now body] }
  | read (name : String) (body : Body) (e : ScheduleEntry) (he : loadEntry cfg s.db name = .ok e)
      (hloaded : body.action.all cfg.actions.contains = true) :
    Move cfg s (.read name body) { s with requests := s.requests ++ [⟨e, body⟩] }
  | write (k : ℕ) (now : ℤ) (q : Request) (hq : s.requests[k]? = some q) :
    Move cfg s (.write k now) { s with
      db := s.db.saveWhole (q.saved now), requests := s.requests.eraseIdx k }
  | deleteEntry (name : String) (db : Database) (h : s.db.removeEntry name = some db) :
    Move cfg s (.deleteEntry name) { s with db }
  | deleteResult (id : ℕ) (h : id ∈ s.db.results.map fun r => r.id) :
    Move cfg s (.deleteResult id) { s with db := s.db.deleteResult id }

theorem step_cases {l : Label} (h : step cfg s l = some s') : Move cfg s l s' := by
  cases l with
  | sched i => exact .sched i s' (schedStep_cases h)
  | finalizer k i =>
    obtain ⟨f, hf, rfl⟩ := Option.map_eq_some_iff.mp h
    unfold finalizerStep
    obtain ⟨next, w, hstep, hmove⟩ | ⟨err, w, hstep, hraise⟩ := finalizeStep_cases cfg i f s.toWorld
    · rw [hstep]
      cases next with
      | none => exact .finalizerEnd k i f w hf hmove
      | some f' => exact .finalizer k i f f' w hf hmove
    · rw [hstep]
      exact .finalizerRaise k i f err w hf hraise
  | measure recordingId =>
    simp only [step] at h
    split at h
    · rename_i hpc
      obtain rfl := Option.some.inj h
      exact .measure recordingId _ _ _ _ hpc
    · cases h
  | stop =>
    obtain rfl := Option.some.inj h
    exact .stop
  | crash =>
    obtain rfl := Option.some.inj h
    exact .crash
  | post name owner body now =>
    simp only [step] at h
    split at h
    · cases h
    · rename_i action haction
      split_ifs at h with hnew
      obtain rfl := Option.some.inj h
      exact .post name owner action body now haction (by simpa using hnew.1) hnew.2
  | read name body =>
    simp only [step] at h
    split at h
    · cases h
    · rename_i e he
      split_ifs at h with hloaded
      obtain rfl := Option.some.inj h
      exact .read name body e he hloaded
  | write k now =>
    obtain ⟨q, hq, rfl⟩ := Option.map_eq_some_iff.mp h
    exact .write k now q hq
  | deleteEntry name =>
    obtain ⟨db, hdb, rfl⟩ := Option.map_eq_some_iff.mp h
    exact .deleteEntry name db hdb
  | deleteResult id =>
    simp only [step] at h
    split_ifs at h with hid
    obtain rfl := Option.some.inj h
    exact .deleteResult id hid

/-! ### What the moves leave alone -/

theorem Jump.held {pc : Pc} (h : Jump cfg s pc) : pc.held = s.pc.held := by
  cases h <;> simp_all [Pc.held]

theorem Jump.waiting {pc : Pc} (h : Jump cfg s pc) : pc.waiting.Perm s.pc.waiting := by
  cases h with
  | queueDone queue hpc =>
    rw [hpc]
    exact TaskQueue.toList_perm queue
  | _ => simp_all [Pc.waiting]

theorem Jump.running {pc : Pc} (h : Jump cfg s pc) : pc.running = s.pc.running := by
  cases h <;> simp_all [Pc.running]

theorem afterCallback_result (f : Finalization) (post : Option Post) (outcome : CallbackOutcome) :
    (afterCallback f post outcome).result.id = f.result.id ∧
      (afterCallback f post outcome).result.key = f.result.key := by
  unfold afterCallback notificationFailed
  split_ifs
  · exact ⟨rfl, rfl⟩
  · cases outcome with
    | raised => exact ⟨rfl, rfl⟩
    | response ok => cases ok <;> exact ⟨rfl, rfl⟩

/-- A finalization keeps to its own result. -/
theorem FinalizeMove.result (h : FinalizeMove cfg i f w (some f') w') :
    f'.result.id = f.result.id ∧ f'.result.key = f.result.key := by
  generalize hnext : some f' = next at h
  cases h with
  | evict site => rw [Option.some.inj hnext]; exact ⟨rfl, rfl⟩
  | write site => rw [Option.some.inj hnext]; exact ⟨rfl, rfl⟩
  | retry err => rw [Option.some.inj hnext]; exact ⟨rfl, rfl⟩
  | notify entry => rw [Option.some.inj hnext]; exact afterCallback_result f _ _
  | count => cases hnext

/-- The tables that a finalization can leave: its save comes in two halves. -/
theorem FinalizeMove.db {next : Option Finalization} (h : FinalizeMove cfg i f w next w') :
    w'.db = w.db ∨
      w'.db = w.db.removeOldest cfg.maxDiskUsage i.percentUsed f.result.scheduleEntry
        (some f.result.id) ∨
      ∃ row, w.db.superSave (some f.result.id) f.result.toTaskResult = .ok (row, w'.db) := by
  cases h with
  | evict site => exact .inr (.inl rfl)
  | write site row db hstage hsave => exact .inr (.inr ⟨row, hsave⟩)
  | retry err => exact .inl rfl
  | notify entry => exact .inl rfl
  | count w' hstage hcount =>
    have hframe := countFailures_frame cfg f.status w
    rw [hcount] at hframe
    exact .inl hframe.1

/-- The current entry is the business of the main loop. -/
theorem FinalizeMove.entry {next : Option Finalization} (h : FinalizeMove cfg i f w next w') :
    w'.entry = w.entry := by
  cases h with
  | count w' hstage hcount =>
    have hframe := countFailures_frame cfg f.status w
    rw [hcount] at hframe
    exact hframe.2.1
  | _ => rfl

theorem FinalizeMove.schedule {next : Option Finalization} (h : FinalizeMove cfg i f w next w') :
    w'.db.schedule = w.db.schedule := by
  obtain hdb | hdb | ⟨row, hsave⟩ := h.db
  · rw [hdb]
  · rw [hdb]
    exact (Database.removeOldest_frame _ _ _ _ _).1
  · exact Database.superSave_schedule hsave

theorem FinalizeRaise.frame (h : FinalizeRaise cfg f w err w') :
    w'.db = w.db ∧ w'.history = w.history ∧ w'.entry = w.entry := by
  cases h with
  | write site err => exact ⟨rfl, rfl, rfl⟩
  | noEntry => exact ⟨rfl, rfl, rfl⟩
  | count w' err hstage hcount =>
    have hframe := countFailures_frame cfg f.status w
    rw [hcount] at hframe
    exact ⟨hframe.1, hframe.2.2.1, hframe.2.1⟩

/-- A finalization only reports deliveries. -/
theorem FinalizeMove.history {next : Option Finalization} (h : FinalizeMove cfg i f w next w') :
    w'.history = w.history ∨
      ∃ post, w'.history = w.history ++ [.delivered f.producer f.result post] := by
  cases h with
  | evict site => exact .inl rfl
  | write site row db hstage hsave => exact .inl rfl
  | retry err => exact .inl rfl
  | notify entry => exact .inr ⟨_, rfl⟩
  | count w' hstage hcount =>
    have hframe := countFailures_frame cfg f.status w
    rw [hcount] at hframe
    exact .inl hframe.2.2.1

/-- A finalization starts and completes no action. -/
theorem FinalizeMove.tasks {next : Option Finalization} (h : FinalizeMove cfg i f w next w') :
    startedTasks w'.history = startedTasks w.history ∧
      completedTasks w'.history = completedTasks w.history ∧
      queuedTasks w'.history = queuedTasks w.history := by
  obtain heq | ⟨post, heq⟩ := h.history
  · rw [heq]
    exact ⟨rfl, rfl, rfl⟩
  · rw [heq]
    simp [Event.startedTask, Event.completedTask, Event.queuedTask]

theorem FinalizeMove.createdTasks {next : Option Finalization}
    (h : FinalizeMove cfg i f w next w') : createdTasks w'.history = createdTasks w.history := by
  obtain heq | ⟨post, heq⟩ := h.history
  · rw [heq]
  · rw [heq]
    simp [Event.createdTask]

theorem FinalizeMove.takenTimes {next : Option Finalization} (h : FinalizeMove cfg i f w next w') :
    takenTimes w'.history = takenTimes w.history := by
  obtain heq | ⟨post, heq⟩ := h.history
  · rw [heq]
  · rw [heq]
    simp [Event.takenTime]

end Scheduler

end ScosSensor
