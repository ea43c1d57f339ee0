import ScosSensor.ApiRequests
import ScosSensor.Results
import ScosSensor.Runs
import ScosSensor.TaskExecution

/-!
# The scheduler thread among the others

The loops of `run`, `_consume_schedule`, `_queue_pending_tasks` and
`_consume_task_queue` as one machine. The program counter holds the instances
and tasks that the thread keeps in its local variables, and the thread makes at
most one access to the database in a step. Between its steps finalizations in
threads of their own, the API, `stop` and a crash of the process take theirs.
-/
namespace ScosSensor

/-- Where the scheduler thread stands. -/
inductive Pc where
  /-- before `reset_next_task_id`, and in its loop -/
  | starting
  | resetting (todo : List ScheduleEntry)
  /-- `while self.schedule_has_entries`, and the snapshot after it -/
  | checking
  | reading
  /-- the loop of `_queue_pending_tasks` -/
  | taking (todo : List ScheduleEntry) (queue : TaskQueue ℕ)
  | completing (taskTime : Option ℤ) (entry : ScheduleEntry) (todo : List ScheduleEntry)
      (queue : TaskQueue ℕ)
  | numbering (taskTime : ℤ) (entry : ScheduleEntry) (todo : List ScheduleEntry)
      (queue : TaskQueue ℕ)
  /-- the loop of `_consume_task_queue` -/
  | consuming (tasks : List PendingTask)
  | evicting (task : PendingTask) (tasks : List PendingTask)
  | inserting (task : PendingTask) (tasks : List PendingTask)
  | calling (task : PendingTask) (result : ResultRow) (tasks : List PendingTask)
  | acting (task : PendingTask) (result : ResultRow) (started : ℤ) (tasks : List PendingTask)
  | finalizing (f : Finalization) (tasks : List PendingTask)
  /-- the checks of the flag in `_consume_schedule` and in `run` -/
  | passDone
  | scheduleDone
  | stopped
  | dead (err : Exc)
  deriving Repr, DecidableEq

namespace Pc

/-- After `_cancel_if_completed`: an entry without a due time is passed over. -/
def settled (taskTime : Option ℤ) (entry : ScheduleEntry) (todo : List ScheduleEntry)
    (queue : TaskQueue ℕ) : Pc :=
  match taskTime with
  | none => .taking todo queue
  | some taskTime => .numbering taskTime entry todo queue

/-- The instances of the snapshot that the pass still has to write back. -/
def held : Pc → List ScheduleEntry
  | .taking todo _ => todo
  | .completing _ entry todo _ => entry :: todo
  | .numbering _ entry todo _ => entry :: todo
  | _ => []

/-- The time that a task is about to be queued for. -/
def dueTimes : Pc → List (String × ℤ)
  | .completing (some taskTime) e _ _ => [(e.name, taskTime)]
  | .numbering taskTime e _ _ => [(e.name, taskTime)]
  | _ => []

/-- The tasks with an id whose results are not created yet. -/
def waiting : Pc → List PendingTask
  | .taking _ queue => queue
  | .completing _ _ _ queue => queue
  | .numbering _ _ _ queue => queue
  | .consuming tasks => tasks
  | .evicting task tasks => task :: tasks
  | .inserting task tasks => task :: tasks
  | .calling _ _ tasks => tasks
  | .acting _ _ _ tasks => tasks
  | .finalizing _ tasks => tasks
  | _ => []

/-- The result of the task that the thread is executing. -/
def running : Pc → List ResultRow
  | .calling _ result _ => [result]
  | .acting _ result _ _ => [result]
  | .finalizing f _ => [f.result]
  | _ => []

end Pc

/-- The state of the process and its database. -/
structure Sys extends World where
  pc : Pc := .starting
  finalizations : List Finalization := []
  requests : List Request := []
  passes : ℕ := 0
  deriving Repr, DecidableEq

/-- Who takes the next step. -/
inductive Label where
  | sched (i : Input)
  | finalizer (k : ℕ) (i : Input)
  | measure (recordingId : ℤ)
  | stop
  | crash
  | post (name owner : String) (body : Body) (now : ℤ)
  | read (name : String) (body : Body)
  | write (k : ℕ) (now : ℤ)
  | deleteEntry (name : String)
  | deleteResult (id : ℕ)
  deriving Repr, DecidableEq

namespace Sys

/-- An exception escapes from the loops: `scheduler dead`. -/
def fail (s : Sys) (err : Exc) : Sys := { s with pc := .dead err }

/-- Go on with the value of a call, or die of its exception. -/
def orFail (s : Sys) {α : Type} (r : Except Exc α) (next : α → Sys) : Option Sys :=
  match r with
  | .ok a => some (next a)
  | .error err => some (s.fail err)

/-- A later event of the run. -/
def log (s : Sys) (e : Event) : Sys := { s with history := s.history ++ [e] }

end Sys

namespace Scheduler

/-- One iteration of `reset_next_task_id`. -/
def resetTaskId (e : ScheduleEntry) (db : Database) : Except Exc Database :=
  match db.lastResult? e.name with
  | none => .ok db
  | some last =>
    if e.nextTaskId ≠ last.taskId + 1 then
      let e := { e with nextTaskId := last.taskId + 1 }
      db.saveFields e e.writeTaskId
    else .ok db

/-- `objects.get(name=name)`, which also loads the row. -/
def loadEntry (cfg : Settings) (db : Database) (name : String) : Except Exc ScheduleEntry :=
  match db.getEntry name with
  | none => .error .doesNotExist
  | some e => if cfg.loads e then .ok e else .error .validationError

/-- `self.schedule`, evaluated: the active rows are loaded. -/
def loadSchedule (cfg : Settings) (db : Database) : Except Exc (List ScheduleEntry) :=
  if db.activeEntries.all cfg.loads then .ok db.activeEntries else .error .validationError

/-- `objects.get` and `to_sigmf_json` before the action is called. -/
def serializeEntry (cfg : Settings) (db : Database) (name : String) : Except Exc Unit := do
  let e ← loadEntry cfg db name
  if e.serializable then return () else throw .unserializable

/-- The finalization that is due when `_call_task_action` has returned. -/
def startFinalization (s : Sys) (result : ResultRow) (started finished : ℤ) (status : Status)
    (detail : PyText) : Finalization where
  result := finalResult result started finished status detail
  status
  producer := s.entry

/-- One step of the scheduler thread. -/
def schedStep (cfg : Settings) (i : Input) (s : Sys) : Option Sys :=
  match s.pc with
  | .starting => s.orFail (loadSchedule cfg s.db) fun todo => { s with pc := .resetting todo }
  | .resetting [] => some { s with pc := .checking }
  | .resetting (e :: todo) =>
    s.orFail (resetTaskId e s.db) fun db => { s with db, pc := .resetting todo }
  | .checking =>
    some (if s.db.activeEntries = [] then { s with pc := .scheduleDone } else { s with pc := .reading })
  | .reading =>
    s.orFail (loadSchedule cfg s.db) fun todo => { s with passes := s.passes + 1, pc := .taking todo [] }
  | .taking [] queue => some { s with pc := .consuming queue.toList }
  | .taking (e :: todo) queue =>
    s.orFail (takePendingTaskTime i.now e s.db) fun (taskTime, entry, db) =>
      { s with db, pc := .completing taskTime entry todo queue }.log
        (.taken e.name (e.takePending i.now).1)
  | .completing taskTime e todo queue =>
    s.orFail (cancelIfCompleted e s.db) fun (entry, db) =>
      { s with db, pc := .settled taskTime entry todo queue }
  | .numbering taskTime e todo queue =>
    let (taskId, e) := e.getNextTaskId
    s.orFail (s.db.saveFields e e.writeTaskId) fun db =>
      let task : PendingTask := ⟨taskTime, e.priority, e.action, e.name, taskId⟩
      { s with db, pc := .taking todo (queue.enter taskTime e.priority e.action e.name taskId) }.log
        (.queued s.passes task)
  | .consuming [] => some { s with pc := .passDone }
  | .consuming (task :: tasks) =>
    s.orFail (loadEntry cfg s.db task.scheduleEntryName) fun e =>
      { s with entry := some e, pc := .evicting task tasks }
  | .evicting task tasks => some { s with
      db := s.db.removeOldest cfg.maxDiskUsage i.percentUsed task.scheduleEntryName none
      pc := .inserting task tasks }
  | .inserting task tasks =>
    s.orFail (s.db.superSave none { scheduleEntry := task.scheduleEntryName, taskId := task.taskId })
      fun (result, db) => { s with db, pc := .calling task result tasks }.log (.created task)
  | .calling task result tasks =>
    s.orFail (serializeEntry cfg s.db task.scheduleEntryName) fun _ =>
      { s with pc := .acting task result i.time tasks }.log (.started task)
  | .acting task result started tasks =>
    s.orFail i.action.statusAndDetail fun (status, detail) =>
      let f := startFinalization s result started i.time status detail
      let s := s.log (.completed task)
      if cfg.asyncCallback then
        { s with finalizations := s.finalizations ++ [f], pc := .consuming tasks }
      else { s with pc := .finalizing f tasks }
  | .finalizing f tasks =>
    let (out, w) := finalizeStep cfg i f s.toWorld
    let s := { s with toWorld := w }
    s.orFail out fun next =>
      match next with
      | none => { s with pc := .consuming tasks }
      | some f => { s with pc := .finalizing f tasks }
  | .passDone => some { s with pc := if cfg.blocking ∧ s.interruptFlag = false then .checking else .scheduleDone }
  | .scheduleDone => some { s with pc := if cfg.blocking ∧ s.interruptFlag = false then .checking else .stopped }
  | .stopped => none
  | .dead _ => none

/-- One step of a finalization in a thread of its own. An exception ends the
thread. -/
def finalizerStep (cfg : Settings) (i : Input) (k : ℕ) (f : Finalization) (s : Sys) : Sys :=
  match finalizeStep cfg i f s.toWorld with
  | (.ok (some f), w) => { s with toWorld := w, finalizations := s.finalizations.set k f }
  | (_, w) => { s with toWorld := w, finalizations := s.finalizations.eraseIdx k }

/-- One step of the system. -/
def step (cfg : Settings) (s : Sys) : Label → Option Sys
  | .sched i => schedStep cfg i s
  | .finalizer k i => s.finalizations[k]?.map fun f => finalizerStep cfg i k f s
  | .measure recordingId =>
    match s.pc with
    | .acting task _ _ _ => some { s with db := s.db.storeAcquisition task.key recordingId }
    | _ => none
  | .stop => some { s with interruptFlag := true }
  | .crash => some { db := s.db, history := s.history, passes := s.passes }
  | .post name owner body now =>
    match body.action with
    | none => none
    | some action =>
      if (s.db.getEntry name).isNone ∧ cfg.actions.contains action then
        some { s with db.schedule := s.db.schedule ++ [.ofBody name owner action now body] }
      else none
  | .read name body =>
    match loadEntry cfg s.db name with
    | .error _ => none
    | .ok e =>
      if body.action.all cfg.actions.contains then
        some { s with requests := s.requests ++ [⟨e, body⟩] }
      else none
  | .write k now =>
    s.requests[k]?.map fun q =>
      { s with db := s.db.saveWhole (q.saved now), requests := s.requests.eraseIdx k }
  | .deleteEntry name => (s.db.removeEntry name).map fun db => { s with db }
  | .deleteResult id =>
    if id ∈ s.db.results.map fun r => r.id then some { s with db := s.db.deleteResult id } else none

end Scheduler

end ScosSensor
