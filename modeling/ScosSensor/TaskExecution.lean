import ScosSensor.PendingTasks

/-!
# Executing a task

The parts of `_consume_task_queue` that act on one task: recording it, calling
its action, and finalizing its result. A finalization runs in the scheduler
thread or in a thread of its own, and other threads can act between any two of
its database writes, so it is given as a sequence of stages.
-/
namespace ScosSensor

/-- A setting read from the environment: the default is a number, while a value
that the environment gives is text. -/
inductive EnvInt where
  | int (n : ℤ)
  | str (s : String)
  deriving Repr, DecidableEq

/-- The settings that the scheduler reads, the actions that are loaded, and the
argument of `run`. -/
structure Settings where
  actions : List String
  asyncCallback : Bool := true
  certAuthentication : Bool := false
  maxFailures : EnvInt := .int 2
  maxDiskUsage : ℤ := 85
  blocking : Bool := true
  deriving Repr, DecidableEq

/-- One action is loaded, and finalizations run in the thread. -/
def inThread : Settings where
  actions := ["acquire"]
  asyncCallback := false

/-- An action returns a detail (`none` when it is not a string) or raises an
exception with a text (`none` when `str` of the exception raises, too). -/
inductive ActionOutcome where
  | returned (detail : Option PyText)
  | raised (text : Option PyText)
  deriving Repr, DecidableEq

/-- The POST is answered, with `resp.ok` or without, or an exception with a text is
raised. -/
inductive CallbackOutcome where
  | response (ok : Bool)
  | raised
  deriving Repr, DecidableEq

/-- What one step reads from outside of the program. -/
structure Input where
  now : ℤ := 0
  time : ℤ := 0
  percentUsed : ℚ := 0
  action : ActionOutcome := .returned none
  callback : CallbackOutcome := .response true
  deriving Repr, DecidableEq

/-- A POST of a task result. The token is the one of the named owner; with a
client certificate none is sent. -/
structure Post where
  url : String
  token : Option String
  deriving Repr, DecidableEq

/-- What the run has done so far, as seen from outside. -/
inductive Event where
  | taken (name : String) (times : PyRange)
  | queued (pass : ℕ) (task : PendingTask)
  | created (task : PendingTask)
  | started (task : PendingTask)
  | completed (task : PendingTask)
  | delivered (producer : Option ScheduleEntry) (result : ResultRow) (post : Option Post)
  deriving Repr, DecidableEq

namespace Event

def startedTask : Event → Option PendingTask
  | .started task => some task
  | _ => none

def completedTask : Event → Option PendingTask
  | .completed task => some task
  | _ => none

def queuedTask : Event → Option (ℕ × PendingTask)
  | .queued pass task => some (pass, task)
  | _ => none

def createdTask : Event → Option PendingTask
  | .created task => some task
  | _ => none

def takenTime : Event → Option (String × PyRange)
  | .taken name times => some (name, times)
  | _ => none

end Event

/-- The tasks whose actions were started, in this order. -/
def startedTasks (history : List Event) : List PendingTask := history.filterMap Event.startedTask

def completedTasks (history : List Event) : List PendingTask := history.filterMap Event.completedTask

/-- The tasks that passes have entered into their queues, with the pass of each. -/
def queuedTasks (history : List Event) : List (ℕ × PendingTask) :=
  history.filterMap Event.queuedTask

/-- The tasks whose results were created, in this order. -/
def createdTasks (history : List Event) : List PendingTask := history.filterMap Event.createdTask

/-- The times that takes have used up, with the entry of each. -/
def takenTimes (history : List Event) : List (String × PyRange) :=
  history.filterMap Event.takenTime

@[simp] theorem takenTimes_append (history : List Event) (e : Event) :
    takenTimes (history ++ [e]) = takenTimes history ++ e.takenTime.toList := by
  cases e <;> simp [takenTimes, Event.takenTime]

@[simp] theorem startedTasks_append (history : List Event) (e : Event) :
    startedTasks (history ++ [e]) = startedTasks history ++ e.startedTask.toList := by
  cases e <;> simp [startedTasks, Event.startedTask]

@[simp] theorem completedTasks_append (history : List Event) (e : Event) :
    completedTasks (history ++ [e]) = completedTasks history ++ e.completedTask.toList := by
  cases e <;> simp [completedTasks, Event.completedTask]

@[simp] theorem queuedTasks_append (history : List Event) (e : Event) :
    queuedTasks (history ++ [e]) = queuedTasks history ++ e.queuedTask.toList := by
  cases e <;> simp [queuedTasks, Event.queuedTask]

@[simp] theorem createdTasks_append (history : List Event) (e : Event) :
    createdTasks (history ++ [e]) = createdTasks history ++ e.createdTask.toList := by
  cases e <;> simp [createdTasks, Event.createdTask]

/-- The tables and the attributes of the scheduler. `last_status` is empty at first. -/
structure World where
  db : Database := {}
  entry : Option ScheduleEntry := none
  interruptFlag : Bool := false
  lastStatus : Option Status := none
  consecutiveFailures : ℕ := 0
  history : List Event := []
  deriving Repr, DecidableEq

/-- The places where `_finalize_task_result` saves: before the callback, in the
response handler, after an exception, and without a callback. -/
inductive SaveSite where
  | first
  | response
  | failed
  | plain
  deriving Repr, DecidableEq

/-- How far a finalization has come. A save is in two halves. -/
inductive Stage where
  | evicting (site : SaveSite)
  | writing (site : SaveSite)
  | notifying
  | counting
  deriving Repr, DecidableEq

/-- A started `_finalize_task_result`: the instance of the result, the argument
`status`, the entry that produced the task, and the next stage. -/
structure Finalization where
  result : ResultRow
  status : Status
  producer : Option ScheduleEntry
  stage : Stage := .evicting .first
  deriving Repr, DecidableEq

def maxDetailLen : ℕ := 512

/-- `status, detail[:MAX_DETAIL_LEN]` of an action. The text of an exception is
taken in the `except` clause, where nothing catches an exception of `str`. -/
def ActionOutcome.statusAndDetail : ActionOutcome → Except Exc (Status × PyText)
  | .returned detail => .ok (.success, (detail.getD []).take maxDetailLen)
  | .raised (some text) => .ok (.failure, text.take maxDetailLen)
  | .raised none => .error .unprintable

/-- The string that an action returns, empty for anything else, or the text of its
exception. -/
def ActionOutcome.text : ActionOutcome → Option PyText
  | .returned detail => some (detail.getD [])
  | .raised text => text

def ActionOutcome.status : ActionOutcome → Status
  | .returned _ => .success
  | .raised _ => .failure

/-- An exception of the action has a text, and what is kept of the text can be stored. -/
def ActionOutcome.Recordable (o : ActionOutcome) : Prop :=
  ∃ text ∈ o.text, PyText.storable (text.take maxDetailLen) = true

instance (o : ActionOutcome) : Decidable o.Recordable :=
  inferInstanceAs (Decidable (∃ text ∈ o.text, PyText.storable (text.take maxDetailLen) = true))

theorem ActionOutcome.statusAndDetail_ok {o : ActionOutcome} {status : Status} {detail : PyText}
    (h : o.statusAndDetail = .ok (status, detail)) :
    status = o.status ∧ ∃ text, o.text = some text ∧ detail = text.take maxDetailLen := by
  match o with
  | .returned text =>
    obtain ⟨rfl, rfl⟩ := Prod.mk.inj (Except.ok.inj h)
    exact ⟨rfl, _, rfl, rfl⟩
  | .raised (some text) =>
    obtain ⟨rfl, rfl⟩ := Prod.mk.inj (Except.ok.inj h)
    exact ⟨rfl, _, rfl, rfl⟩

theorem ActionOutcome.statusAndDetail_error_iff {o : ActionOutcome} :
    (∃ err, o.statusAndDetail = .error err) ↔ o.text.isSome = false := by
  match o with
  | .returned detail => simp [statusAndDetail, text]
  | .raised (some text) => simp [statusAndDetail, ActionOutcome.text]
  | .raised none => simp [statusAndDetail, text]

/-- The timestamps that `datetime.fromtimestamp` accepts: up to the end of the year
9999, and from the second day of the year 1, as it looks back by a day for a fold. -/
def representable (ts : ℤ) : Bool :=
  decide (-62135510400 ≤ ts) && decide (ts ≤ 253402300799)

/-- `to_sigmf_json` serializes every timestamp of the entry. -/
def ScheduleEntry.serializable (e : ScheduleEntry) : Bool :=
  representable e.start && e.stop.all representable && representable e.nextTaskTime

/-- Loading a row raises `ValidationError` when its action does not exist. -/
def Settings.loads (cfg : Settings) (e : ScheduleEntry) : Bool := cfg.actions.contains e.action

/-- `self.entry.callback_url` as a condition. -/
def ScheduleEntry.callbackTarget (e : ScheduleEntry) : Option String :=
  e.callbackUrl.filter fun url => url ≠ ""

/-- The POST that a finalization makes when `self.entry` is `e`. -/
def Settings.postTo (cfg : Settings) (e : ScheduleEntry) : Option Post :=
  e.callbackTarget.map fun url => ⟨url, if cfg.certAuthentication then none else some e.owner⟩

namespace Scheduler

/-- The result of an executed task, as `_finalize_task_result` fills it in. -/
def finalResult (row : ResultRow) (started finished : ℤ) (status : Status) (detail : PyText) :
    ResultRow :=
  { row with
    started
    finished
    duration := finished - started
    status
    detail }

/-- The counting of failures, under the lock. -/
def countFailures (cfg : Settings) (status : Status) (w : World) : Except Exc Unit × World :=
  let consecutiveFailures :=
    if status = .failure ∧ w.lastStatus = some .failure then w.consecutiveFailures + 1
    else if status = .failure then 1
    else 0
  let w := { w with consecutiveFailures, lastStatus := some status }
  match cfg.maxFailures with
  | .str _ => (.error .typeError, w)
  | .int n => (.ok (), { w with interruptFlag := w.interruptFlag || decide (n ≤ consecutiveFailures) })

/-- `task_result.status = "notification_failed"`, then the save at `site`. -/
def notificationFailed (f : Finalization) (site : SaveSite) : Finalization :=
  { f with result := { f.result with status := .notificationFailed }, stage := .evicting site }

/-- Where a finalization goes on after its callback. -/
def afterCallback (f : Finalization) (post : Option Post) (outcome : CallbackOutcome) :
    Finalization :=
  if post.isNone then { f with stage := .evicting .plain }
  else
    match outcome with
    | .response true => { f with stage := .evicting .response }
    | .response false => notificationFailed f .response
    | .raised => notificationFailed f .failed

/-- One stage of `_finalize_task_result`; `none` when it returns. The callback
reads `self.entry`, whatever entry that is by now. -/
def finalizeStep (cfg : Settings) (i : Input) (f : Finalization) (w : World) :
    Except Exc (Option Finalization) × World :=
  match f.stage with
  | .evicting site =>
    (.ok (some { f with stage := .writing site }), { w with
      db := w.db.removeOldest cfg.maxDiskUsage i.percentUsed f.result.scheduleEntry (some f.result.id) })
  | .writing site =>
    match w.db.superSave (some f.result.id) f.result.toTaskResult with
    | .ok (_, db) =>
      (.ok (some { f with stage := if site = .first then .notifying else .counting }), { w with db })
    | .error err =>
      -- the response handler saves inside the try block
      if site = .response then (.ok (some (notificationFailed f .failed)), w) else (.error err, w)
  | .notifying =>
    match w.entry with
    | none => (.error .attributeError, w)
    | some entry =>
      let post := cfg.postTo entry
      (.ok (some (afterCallback f post i.callback)),
        { w with history := w.history ++ [.delivered f.producer f.result post] })
  | .counting =>
    match countFailures cfg f.status w with
    | (.ok (), w) => (.ok none, w)
    | (.error err, w) => (.error err, w)

end Scheduler

end ScosSensor
