import ScosSensor.Constraints

/-!
# A failing task and the tasks after it

The loop of `_consume_task_queue` with finalizations in the thread. Whatever an
action and a callback do, they end in the result of their own task, and the loop
goes on with the next one, as long as every action leaves a text that the database
takes: the text of an exception is taken, and the result first saved, where nothing
catches what they raise. The invariant splits the queue into the tasks that are
recorded for good and those that still come.
-/
namespace ScosSensor

/-- What happens to a task: the clock before and after its action, the end of the
action, and the answer to the callback. -/
structure Outcome where
  started : ℤ
  finished : ℤ
  action : ActionOutcome
  callback : CallbackOutcome := .response true
  deriving Repr, DecidableEq

namespace Outcome

/-- The entry asks for a callback, and the POST fails or raises. -/
def CallbackFails (e : ScheduleEntry) (o : Outcome) : Prop :=
  e.callbackTarget.isSome ∧ o.callback ≠ .response true

instance (e : ScheduleEntry) (o : Outcome) : Decidable (CallbackFails e o) :=
  inferInstanceAs (Decidable (_ ∧ _))

/-- The result of the task before its callback. -/
def executed (task : PendingTask) (o : Outcome) : TaskResult where
  scheduleEntry := task.scheduleEntryName
  taskId := task.taskId
  started := o.started
  finished := o.finished
  duration := o.finished - o.started
  status := o.action.status
  detail := (o.action.text.getD []).take 512

/-- The result that stays. -/
def final (e : ScheduleEntry) (task : PendingTask) (o : Outcome) : TaskResult :=
  if CallbackFails e o then { executed task o with status := .notificationFailed }
  else executed task o

end Outcome

/-- What the result of a task says about its outcome. -/
structure RecordedAs (e : ScheduleEntry) (o : Outcome) (r : TaskResult) : Prop where
  notification : o.CallbackFails e → r.status = .notificationFailed
  success : ¬ o.CallbackFails e → (r.status = .success ↔ ∃ detail, o.action = .returned detail)
  failure : ¬ o.CallbackFails e → (r.status = .failure ↔ ∃ text, o.action = .raised text)
  detail : ∃ text ∈ o.action.text, r.detail = text.take 512
  times : r.started = o.started ∧ r.finished = o.finished ∧ r.duration = o.finished - o.started

theorem Outcome.final_detail (e : ScheduleEntry) (task : PendingTask) (o : Outcome) :
    (o.final e task).detail = (o.executed task).detail := by
  unfold final
  split_ifs <;> rfl

theorem Outcome.recordedAs_final (e : ScheduleEntry) (task : PendingTask) (o : Outcome)
    (hrecordable : o.action.Recordable) : RecordedAs e o (o.final e task) := by
  obtain ⟨text, htext, -⟩ := hrecordable
  have hstatus : o.CallbackFails e → (o.final e task).status = .notificationFailed := by
    intro hfails
    simp only [final, if_pos hfails]
  have hexecuted : ¬ o.CallbackFails e → o.final e task = o.executed task := by
    intro hfails
    simp only [final, if_neg hfails]
  have htimes : (o.final e task).started = o.started ∧ (o.final e task).finished = o.finished ∧
      (o.final e task).duration = o.finished - o.started := by
    unfold final
    split_ifs <;> exact ⟨rfl, rfl, rfl⟩
  refine ⟨hstatus, ?_, ?_, ⟨text, htext, ?_⟩, htimes⟩
  · intro hfails
    rw [hexecuted hfails]
    cases haction : o.action <;> simp [executed, ActionOutcome.status, haction]
  · intro hfails
    rw [hexecuted hfails]
    cases haction : o.action <;> simp [executed, ActionOutcome.status, haction]
  · rw [final_detail, executed, Option.mem_def.mp htext]
    rfl

namespace Scheduler

open Runs

variable {cfg : Settings} {s s₀ t : Sys} {l : Label} {i : Input} {err : Exc}
  {outcomes : String × ℕ → Outcome} {tasks : List PendingTask} {n : ℤ}

/-- A step of the loop meets the outcome of the task that it is about; after the
loop the thread takes no step. -/
def Meets (outcomes : String × ℕ → Outcome) (i : Input) : Pc → Prop
  | .calling task _ _ => i.time = (outcomes task.key).started
  | .acting task _ _ _ =>
    i.time = (outcomes task.key).finished ∧ i.action = (outcomes task.key).action
  | .finalizing f _ => i.callback = (outcomes f.result.key).callback
  | .passDone => False
  | _ => True

instance (outcomes : String × ℕ → Outcome) (i : Input) : DecidablePred (Meets outcomes i)
  | .calling task _ _ => inferInstanceAs (Decidable (i.time = (outcomes task.key).started))
  | .acting task _ _ _ => inferInstanceAs (Decidable
      (i.time = (outcomes task.key).finished ∧ i.action = (outcomes task.key).action))
  | .finalizing f _ => inferInstanceAs (Decidable (i.callback = (outcomes f.result.key).callback))
  | .passDone => .isFalse id
  | .starting => .isTrue trivial
  | .resetting _ => .isTrue trivial
  | .checking => .isTrue trivial
  | .reading => .isTrue trivial
  | .taking _ _ => .isTrue trivial
  | .completing _ _ _ _ => .isTrue trivial
  | .numbering _ _ _ _ => .isTrue trivial
  | .consuming _ => .isTrue trivial
  | .evicting _ _ => .isTrue trivial
  | .inserting _ _ => .isTrue trivial
  | .scheduleDone => .isTrue trivial
  | .stopped => .isTrue trivial
  | .dead _ => .isTrue trivial

/-- A step while the tasks `tasks` are consumed: the thread meets their outcomes,
and the rows of their entries are left alone, as are all results. -/
def Follows (outcomes : String × ℕ → Outcome) (tasks : List PendingTask) (s : Sys) : Label → Prop
  | .sched i => Meets outcomes i s.pc
  | .measure _ => True
  | .stop => True
  | .read _ _ => True
  | .post _ _ _ _ => True
  | .write k _ =>
    ∀ q ∈ s.requests[k]?, q.entry.name ∉ tasks.map Task.scheduleEntryName
  | .deleteEntry name => name ∉ tasks.map Task.scheduleEntryName
  | _ => False

instance (outcomes : String × ℕ → Outcome) (tasks : List PendingTask) (s : Sys) :
    DecidablePred (Follows outcomes tasks s)
  | .sched i => inferInstanceAs (Decidable (Meets outcomes i s.pc))
  | .measure _ => .isTrue trivial
  | .stop => .isTrue trivial
  | .read _ _ => .isTrue trivial
  | .post _ _ _ _ => .isTrue trivial
  | .write k _ => inferInstanceAs (Decidable
      (∀ q ∈ s.requests[k]?, q.entry.name ∉ tasks.map Task.scheduleEntryName))
  | .deleteEntry name => inferInstanceAs (Decidable (name ∉ tasks.map Task.scheduleEntryName))
  | .finalizer _ _ => .isFalse id
  | .crash => .isFalse id
  | .deleteResult _ => .isFalse id

/-- The queue, as a pass produces it: entries that are stored, can be loaded and
serialized, and have one task each, whose action leaves a text that can be stored. -/
structure Ready (cfg : Settings) (outcomes : String × ℕ → Outcome) (tasks : List PendingTask)
    (s : Sys) : Prop where
  recordable : ∀ task ∈ tasks, (outcomes task.key).action.Recordable
  distinct : (tasks.map Task.scheduleEntryName).Nodup
  rows : ∀ task ∈ tasks, ∃ e, s.db.getEntry task.scheduleEntryName = some e ∧
    cfg.loads e = true ∧ e.serializable = true

/-- The result of a finished task is stored. -/
def TaskRecorded (s₀ : Sys) (outcomes : String × ℕ → Outcome) (results : List ResultRow)
    (task : PendingTask) : Prop :=
  ∀ e, s₀.db.getEntry task.scheduleEntryName = some e →
    ∃ r ∈ results, r.toTaskResult = (outcomes task.key).final e task

/-- The stages up to the callback, where the result is the one of the action. -/
def beforeCallback : Stage → Bool
  | .evicting .first => true
  | .writing .first => true
  | .notifying => true
  | _ => false

/-- A finalization on its way: its row is stored, and its instance carries the
result of the action, after the callback the final one. -/
structure Filled (e : ScheduleEntry) (o : Outcome) (task : PendingTask) (f : Finalization)
    (results : List ResultRow) : Prop where
  stored : ∃ r ∈ results, r.id = f.result.id ∧ r.key = task.key
  content : f.result.toTaskResult =
    if beforeCallback f.stage then o.executed task else o.final e task
  counted : f.stage = .counting → f.result ∈ results

/-- The tasks `done` are recorded, the tasks `rest` still come, and the actions of
`done` and `begun` were started in this order. -/
structure Split (s₀ : Sys) (outcomes : String × ℕ → Outcome) (tasks done rest begun : List PendingTask)
    (results : List ResultRow) (history : List Event) : Prop where
  queue : tasks = done ++ rest
  recorded : ∀ task ∈ done, TaskRecorded s₀ outcomes results task
  started : startedTasks history = startedTasks s₀.history ++ done ++ begun

/-- How far the loop is when the tasks `done` are. -/
def At (s₀ : Sys) (outcomes : String × ℕ → Outcome) (tasks done : List PendingTask)
    (results : List ResultRow) (history : List Event) : Pc → Prop
  | .consuming rest => Split s₀ outcomes tasks done rest [] results history
  | .evicting task rest => Split s₀ outcomes tasks done (task :: rest) [] results history
  | .inserting task rest => Split s₀ outcomes tasks done (task :: rest) [] results history
  | .calling task result rest =>
    Split s₀ outcomes tasks done (task :: rest) [] results history ∧
      result ∈ results ∧ result.key = task.key
  | .acting task result started rest =>
    Split s₀ outcomes tasks done (task :: rest) [task] results history ∧
      result ∈ results ∧ result.key = task.key ∧ started = (outcomes task.key).started
  | .finalizing f rest =>
    ∃ task, Split s₀ outcomes tasks done (task :: rest) [task] results history ∧
      ∀ e, s₀.db.getEntry task.scheduleEntryName = some e →
        Filled e (outcomes task.key) task f results
  | .passDone => Split s₀ outcomes tasks done [] [] results history
  | _ => False

/-- What holds at every point of the loop that `s₀` begins. -/
structure InPass (s₀ : Sys) (outcomes : String × ℕ → Outcome) (tasks : List PendingTask) (s : Sys) :
    Prop where
  rows : ∀ task ∈ tasks,
    s.db.getEntry task.scheduleEntryName = s₀.db.getEntry task.scheduleEntryName
  unique : s.db.ResultsUnique
  entry : ∀ name, s.pc.executing = some name → s.entry = s₀.db.getEntry name
  unused : ∀ task ∈ s.pc.waiting, task.key ∉ s.db.results.map fun r => r.key
  place : ∃ done, At s₀ outcomes tasks done s.db.results s.history s.pc

section Filled

variable {e : ScheduleEntry} {o : Outcome} {task : PendingTask} {f f' : Finalization} {w w' : World}

theorem final_key (e : ScheduleEntry) (o : Outcome) (task : PendingTask) :
    (o.final e task).key = task.key := by
  unfold Outcome.final
  split_ifs <;> rfl

theorem Filled.key {results : List ResultRow} (hs : Filled e o task f results) :
    f.result.key = task.key := by
  rw [hs.content]
  split_ifs
  · rfl
  · exact final_key e o task

/-- The instance can be saved at every stage. -/
theorem Filled.storable {results : List ResultRow} (hs : Filled e o task f results)
    (hrecordable : o.action.Recordable) : f.result.detail.storable = true := by
  have hdetail : f.result.detail = (o.executed task).detail := by
    rw [hs.content]
    split_ifs
    · rfl
    · exact Outcome.final_detail e task o
  obtain ⟨text, htext, hstorable⟩ := hrecordable
  rw [hdetail, Outcome.executed, Option.mem_def.mp htext]
  exact hstorable

/-- After its callback a finalization carries the final result. -/
theorem afterCallback_content (hcontent : f.result.toTaskResult = o.executed task) :
    beforeCallback (afterCallback f (cfg.postTo e) o.callback).stage = false ∧
      (afterCallback f (cfg.postTo e) o.callback).result.toTaskResult = o.final e task ∧
      (afterCallback f (cfg.postTo e) o.callback).stage ≠ .counting := by
  have hpost : (cfg.postTo e).isNone = e.callbackTarget.isNone := Option.isNone_map
  by_cases htarget : e.callbackTarget.isNone
  · have hfinal : o.final e task = o.executed task := by
      have hquiet : ¬ o.CallbackFails e := fun hfails => by simp_all [Outcome.CallbackFails]
      simp only [Outcome.final, if_neg hquiet]
    simp only [afterCallback, hpost, htarget, if_true, hfinal]
    exact ⟨rfl, hcontent, nofun⟩
  · have hasked : e.callbackTarget.isSome := by simpa [Option.isSome_iff_ne_none] using htarget
    simp only [afterCallback, hpost, htarget, if_false, Outcome.final, Outcome.CallbackFails, hasked,
      true_and, Bool.false_eq_true]
    cases hcallback : o.callback with
    | raised => simp [notificationFailed, beforeCallback, hcontent]
    | response ok => cases ok <;> simp [notificationFailed, beforeCallback, hcontent]

theorem Filled.step (hs : Filled e o task f w.db.results) (hrecordable : o.action.Recordable)
    (hdb : w.db.ResultsUnique) (hentry : w.entry = some e) (hcallback : i.callback = o.callback)
    (h : FinalizeMove cfg i f w (some f') w') :
    Filled e o task f' w'.db.results ∧ w.db.SavesFor task.scheduleEntryName w'.db := by
  obtain ⟨r, hr, hid, hkey⟩ := hs.stored
  have hname : f.result.scheduleEntry = task.scheduleEntryName := congrArg Prod.fst hs.key
  have hcontent := hs.content
  generalize hnext : some f' = next at h
  cases h with
  | evict site hstage =>
    obtain rfl := Option.some.inj hnext
    refine ⟨⟨⟨r, ?_, hid, hkey⟩, ?_, fun h => nomatch h⟩, ?_⟩
    · rw [← hid]
      exact Database.mem_removeOldest_self hr _ _ _
    · rw [hstage] at hcontent
      rw [hcontent]
      cases site <;> rfl
    · rw [← hname]
      exact Database.savesFor_removeOldest hdb _ _ _ _
  | write site row db hstage hsave =>
    obtain rfl := Option.some.inj hnext
    have hrow : row = f.result := by
      rw [Database.superSave_row hsave, Database.superSave_id hsave]
    refine ⟨⟨⟨row, Database.mem_superSave_self hsave, by rw [hrow], by rw [hrow]; exact hs.key⟩, ?_, ?_⟩, ?_⟩
    · rw [hstage] at hcontent
      rw [hcontent]
      cases site <;> rfl
    · intro _
      exact hrow ▸ Database.mem_superSave_self hsave
    · rw [← hid] at hsave
      rw [← hname]
      exact Database.savesFor_own hdb hr (hkey.trans hs.key.symm) hsave
  | retry err hstage hsave =>
    rw [← hid, Database.superSave_own hr (hs.storable hrecordable)] at hsave
    cases hsave
  | notify entry hstage hentry' =>
    obtain rfl := Option.some.inj hnext
    obtain rfl := Option.some.inj (hentry.symm.trans hentry')
    rw [hstage] at hcontent
    obtain ⟨hstages, hfinal, hcounting⟩ := afterCallback_content hcontent
    rw [hcallback]
    obtain ⟨hresult, -⟩ := afterCallback_result f (cfg.postTo e) o.callback
    refine ⟨⟨⟨r, hr, hid.trans hresult.symm, hkey⟩, ?_, fun h => absurd h hcounting⟩, fun _ _ => .rfl, hdb⟩
    rw [hstages, hfinal]
    rfl
  | count => cases hnext

/-- The end of a finalization leaves the final result. -/
theorem Filled.recorded (hs : Filled e o task f w.db.results)
    (h : FinalizeMove cfg i f w none w') :
    w'.db = w.db ∧ startedTasks w'.history = startedTasks w.history ∧
      f.result ∈ w.db.results ∧ f.result.toTaskResult = o.final e task := by
  have htasks := h.tasks.1
  cases h with
  | count w' hstage hcount =>
    have hframe := countFailures_frame cfg f.status w
    rw [hcount] at hframe
    have hcontent := hs.content
    rw [hstage] at hcontent
    exact ⟨hframe.1, htasks, hs.counted hstage, hcontent⟩

end Filled

section InPass

variable {task : PendingTask} {done rest begun : List PendingTask} {results results' : List ResultRow}
  {history history' : List Event}

/-- The entries of the tasks before and after the current one are other entries. -/
theorem Ready.ne (hready : Ready cfg outcomes tasks s₀) (hqueue : tasks = done ++ task :: rest) :
    (∀ x ∈ done, x.scheduleEntryName ≠ task.scheduleEntryName) ∧
      ∀ x ∈ rest, x.scheduleEntryName ≠ task.scheduleEntryName := by
  have hdistinct := hready.distinct
  rw [hqueue, List.map_append, List.map_cons] at hdistinct
  obtain ⟨-, hright, hdisjoint⟩ := List.nodup_append.mp hdistinct
  constructor
  · intro x hx
    exact hdisjoint _ (List.mem_map_of_mem hx) _ List.mem_cons_self
  · intro x hx heq
    exact (List.nodup_cons.mp hright).1 (heq ▸ List.mem_map_of_mem hx)

/-- Saves for the current task leave the others as they are. -/
theorem Split.saves {db db' : Database} (hready : Ready cfg outcomes tasks s₀)
    (h : Split s₀ outcomes tasks done (task :: rest) begun db.results history)
    (hsaves : db.SavesFor task.scheduleEntryName db') :
    Split s₀ outcomes tasks done (task :: rest) begun db'.results history := by
  refine ⟨h.queue, ?_, h.started⟩
  intro x hx e he
  obtain ⟨r, hr, hresult⟩ := h.recorded x hx e he
  have hname : r.scheduleEntry = x.scheduleEntryName := by
    have hkey := final_key e (outcomes x.key) x
    rw [← hresult] at hkey
    exact congrArg Prod.fst hkey
  refine ⟨r, (hsaves.rest r ?_).mpr hr, hresult⟩
  rw [hname]
  exact (hready.ne h.queue).1 x hx

theorem Split.of_started (h : Split s₀ outcomes tasks done rest begun results history)
    (hstarted : startedTasks history' = startedTasks history) :
    Split s₀ outcomes tasks done rest begun results history' :=
  ⟨h.queue, h.recorded, hstarted.trans h.started⟩

theorem InPass.place_of (hs : InPass s₀ outcomes tasks s) {pc : Pc} (hpc : s.pc = pc) :
    ∃ done, At s₀ outcomes tasks done s.db.results s.history pc := hpc ▸ hs.place

/-- The entry of a task is there, as the loop began with it. -/
theorem InPass.row (hs : InPass s₀ outcomes tasks s) (hready : Ready cfg outcomes tasks s₀)
    (htask : task ∈ tasks) : ∃ e, s₀.db.getEntry task.scheduleEntryName = some e ∧
      s.db.getEntry task.scheduleEntryName = some e ∧ cfg.loads e = true ∧
        e.serializable = true := by
  obtain ⟨e, he, hload, hserializable⟩ := hready.rows task htask
  exact ⟨e, he, (hs.rows task htask).trans he, hload, hserializable⟩

theorem InPass.not_raises (hs : InPass s₀ outcomes tasks s) (hready : Ready cfg outcomes tasks s₀)
    (hl : Follows outcomes tasks s (.sched i)) : ¬ Raises cfg i s err := by
  obtain ⟨done, hplace⟩ := hs.place
  intro hraise
  cases hraise with
  | load hpc => rcases hpc with hpc | hpc <;> obtain ⟨-, ⟨⟩⟩ := hs.place_of hpc
  | reset e todo hpc => obtain ⟨-, ⟨⟩⟩ := hs.place_of hpc
  | take e todo queue hpc => obtain ⟨-, ⟨⟩⟩ := hs.place_of hpc
  | cancel taskTime e todo queue hpc => obtain ⟨-, ⟨⟩⟩ := hs.place_of hpc
  | number taskTime e todo queue hpc => obtain ⟨-, ⟨⟩⟩ := hs.place_of hpc
  | fetch task rest err hpc hload =>
    rw [hpc] at hplace
    have htask : task ∈ tasks := by simp [hplace.queue]
    obtain ⟨e, -, he, hloads, -⟩ := hs.row hready htask
    simp [loadEntry, he, hloads] at hload
  | create task rest err hpc hsave =>
    have hunused := hs.unused task (by rw [hpc]; exact List.mem_cons_self)
    rw [hpc] at hplace
    have htask : task ∈ tasks := by simp [hplace.queue]
    obtain ⟨e, -, he, -, -⟩ := hs.row hready htask
    obtain ⟨hused, -⟩ | ⟨hgone, -⟩ := Database.superSave_new_error rfl hsave
    · exact hunused hused
    · exact Option.some_ne_none e (he.symm.trans hgone)
  | call task result rest err hpc hserialize =>
    rw [hpc] at hplace
    have htask : task ∈ tasks := by simp [hplace.1.queue]
    obtain ⟨e, -, he, hloads, hserializable⟩ := hs.row hready htask
    simp [serializeEntry, loadEntry, he, hloads, hserializable, bind, Except.bind, pure,
      Except.pure] at hserialize
  | act task result started rest err hpc hcall =>
    have houtcome : i.time = (outcomes task.key).finished ∧
        i.action = (outcomes task.key).action := by simpa [Follows, Meets, hpc] using hl
    rw [hpc] at hplace
    obtain ⟨text, htext, -⟩ := hready.recordable task (by simp [hplace.1.queue])
    have hnone := ActionOutcome.statusAndDetail_error_iff.mp ⟨err, hcall⟩
    rw [houtcome.2, Option.mem_def.mp htext] at hnone
    cases hnone

/-- What the finalization in the thread works with. -/
theorem InPass.finalizing (hs : InPass s₀ outcomes tasks s) (hready : Ready cfg outcomes tasks s₀)
    {f : Finalization} (hpc : s.pc = .finalizing f rest) :
    ∃ done task e, Split s₀ outcomes tasks done (task :: rest) [task] s.db.results s.history ∧
      s₀.db.getEntry task.scheduleEntryName = some e ∧ s.entry = some e ∧
        Filled e (outcomes task.key) task f s.db.results := by
  obtain ⟨done, hplace⟩ := hs.place
  rw [hpc] at hplace
  obtain ⟨task, hsplit, hfilled⟩ := hplace
  obtain ⟨e, he, -⟩ := hready.rows task (by simp [hsplit.queue])
  have hname : f.result.scheduleEntry = task.scheduleEntryName :=
    congrArg Prod.fst (hfilled e he).key
  have hentry := hs.entry f.result.scheduleEntry (by rw [hpc]; rfl)
  rw [hname, he] at hentry
  exact ⟨done, task, e, hsplit, he, hentry, hfilled e he⟩

theorem InPass.not_finalizeRaise (hs : InPass s₀ outcomes tasks s) (hready : Ready cfg outcomes tasks s₀)
    (hmax : cfg.maxFailures = .int n) {f : Finalization} (hpc : s.pc = .finalizing f rest)
    {w : World} : ¬ FinalizeRaise cfg f s.toWorld err w := by
  obtain ⟨done, task, e, hsplit, -, hentry, hfilled⟩ := hs.finalizing hready hpc
  have hrecordable := hready.recordable task (by simp [hsplit.queue])
  intro hraise
  cases hraise with
  | write site err hstage hsite hsave =>
    obtain ⟨r, hr, hid, -⟩ := hfilled.stored
    rw [← hid, Database.superSave_own hr (hfilled.storable hrecordable)] at hsave
    cases hsave
  | noEntry hstage hnone => exact Option.some_ne_none e (hentry.symm.trans hnone)
  | count w' err hstage hcount => simp [countFailures, hmax] at hcount

theorem InPass.evict (hs : InPass s₀ outcomes tasks s) (hready : Ready cfg outcomes tasks s₀)
    (hpc : s.pc = .evicting task rest) :
    InPass s₀ outcomes tasks { s with
      db := s.db.removeOldest cfg.maxDiskUsage i.percentUsed task.scheduleEntryName none
      pc := .inserting task rest } := by
  obtain ⟨done, hplace⟩ := hs.place
  rw [hpc] at hplace
  have hsaves := Database.savesFor_removeOldest hs.unique cfg.maxDiskUsage i.percentUsed
    task.scheduleEntryName none
  refine ⟨?_, hsaves.unique, ?_, ?_, done, hplace.saves hready hsaves⟩
  · intro x hx
    rw [← hs.rows x hx]
    exact Database.getEntry_congr (Database.removeOldest_frame _ _ _ _ _).1 _
  · intro name hname
    exact hs.entry name (by rw [hpc]; exact hname)
  · intro x hx hused
    obtain ⟨r, hr, hkey⟩ := List.mem_map.mp hused
    have hold := Database.mem_of_mem_removeOldest hr
    exact hs.unused x (by rw [hpc]; exact hx) (hkey ▸ List.mem_map_of_mem hold)

theorem InPass.create (hs : InPass s₀ outcomes tasks s) (hready : Ready cfg outcomes tasks s₀)
    (hpc : s.pc = .inserting task rest) {result : ResultRow} {db : Database}
    (hsave : s.db.superSave none
      { scheduleEntry := task.scheduleEntryName, taskId := task.taskId } = .ok (result, db)) :
    InPass s₀ outcomes tasks { s with
      db
      pc := .calling task result rest
      history := s.history ++ [.created task] } := by
  obtain ⟨done, hplace⟩ := hs.place
  rw [hpc] at hplace
  have hsaves : s.db.SavesFor task.scheduleEntryName db := Database.savesFor_new hs.unique hsave
  have hkey : result.key = task.key := Database.superSave_key hsave
  have hstarted : startedTasks (s.history ++ [.created task]) = startedTasks s.history := by
    simp [Event.startedTask]
  have hsplit := (hplace.saves hready hsaves).of_started hstarted
  refine ⟨?_, hsaves.unique, ?_, ?_, done, hsplit, Database.mem_superSave_self hsave, hkey⟩
  · intro x hx
    rw [← hs.rows x hx]
    exact Database.getEntry_congr (Database.superSave_schedule hsave) _
  · intro name hname
    refine hs.entry name ?_
    rw [hpc]
    exact (congrArg some (congrArg Prod.fst hkey)).symm.trans hname
  · intro x hx
    refine hsaves.unused ((hready.ne hplace.queue).2 x hx) (hs.unused x ?_)
    rw [hpc]
    exact List.mem_cons_of_mem task hx

theorem InPass.finish (hs : InPass s₀ outcomes tasks s)
    (hl : Follows outcomes tasks s (.sched i)) {result : ResultRow} {started : ℤ}
    (hpc : s.pc = .acting task result started rest) {status : Status} {detail : PyText}
    (hcall : i.action.statusAndDetail = .ok (status, detail)) :
    InPass s₀ outcomes tasks { s with
      pc := .finalizing (startFinalization s result started i.time status detail) rest
      history := s.history ++ [.completed task] } := by
  obtain ⟨done, hplace⟩ := hs.place
  have houtcome : i.time = (outcomes task.key).finished ∧
      i.action = (outcomes task.key).action := by simpa [Follows, Meets, hpc] using hl
  rw [hpc] at hplace
  obtain ⟨hsplit, hstored, hkey, htime⟩ := hplace
  obtain ⟨rfl, text, htext, rfl⟩ := ActionOutcome.statusAndDetail_ok hcall
  rw [houtcome.2] at htext ⊢
  have hstarted : startedTasks (s.history ++ [.completed task]) = startedTasks s.history := by
    simp [Event.startedTask]
  have hsplit' := hsplit.of_started hstarted
  refine ⟨hs.rows, hs.unique, ?_, ?_, done, task, hsplit', ?_⟩
  · intro name hname
    exact hs.entry name (by rw [hpc]; exact hname)
  · intro x hx
    exact hs.unused x (by rw [hpc]; exact hx)
  · intro e he
    obtain ⟨hname, hid⟩ := Prod.mk.inj hkey
    refine ⟨⟨result, hstored, rfl, hkey⟩, ?_, ?_⟩
    · simp only [startFinalization, finalResult, Outcome.executed, beforeCallback, if_true]
      rw [hname, hid, houtcome.1, htime, htext]
      rfl
    · intro hcounting
      cases hcounting

theorem InPass.finalize (hs : InPass s₀ outcomes tasks s) (hready : Ready cfg outcomes tasks s₀)
    (hl : Follows outcomes tasks s (.sched i)) {f f' : Finalization} {w : World}
    (hpc : s.pc = .finalizing f rest) (hmove : FinalizeMove cfg i f s.toWorld (some f') w) :
    InPass s₀ outcomes tasks { s with toWorld := w, pc := .finalizing f' rest } := by
  have hanswer : i.callback = (outcomes f.result.key).callback := by
    simpa [Follows, Meets, hpc] using hl
  obtain ⟨done, task, e, hsplit, he, hentry, hfilled⟩ := hs.finalizing hready hpc
  rw [hfilled.key] at hanswer
  have hrecordable := hready.recordable task (by simp [hsplit.queue])
  obtain ⟨hfilled', hsaves⟩ := hfilled.step hrecordable hs.unique hentry hanswer hmove
  have hsplit' := (hsplit.saves hready hsaves).of_started hmove.tasks.1
  refine ⟨?_, hsaves.unique, ?_, ?_, done, task, hsplit', ?_⟩
  · intro x hx
    rw [← hs.rows x hx]
    exact Database.getEntry_congr hmove.schedule _
  · intro name hname
    rw [hmove.entry]
    refine hs.entry name ?_
    rw [hpc]
    exact (congrArg some (congrArg Prod.fst hmove.result.2)).symm.trans hname
  · intro x hx
    refine hsaves.unused ((hready.ne hsplit.queue).2 x hx) (hs.unused x ?_)
    rw [hpc]
    exact hx
  · intro e' he'
    obtain rfl := Option.some.inj (he.symm.trans he')
    exact hfilled'

theorem InPass.finalized (hs : InPass s₀ outcomes tasks s) (hready : Ready cfg outcomes tasks s₀)
    {f : Finalization} {w : World} (hpc : s.pc = .finalizing f rest)
    (hmove : FinalizeMove cfg i f s.toWorld none w) :
    InPass s₀ outcomes tasks { s with toWorld := w, pc := .consuming rest } := by
  obtain ⟨done, task, e, hsplit, he, hentry, hfilled⟩ := hs.finalizing hready hpc
  obtain ⟨hdb, hstarted, hstored, hfinal⟩ := hfilled.recorded hmove
  have hplace' : At s₀ outcomes tasks (done ++ [task]) w.db.results w.history (.consuming rest) := by
    refine ⟨by rw [hsplit.queue, List.append_assoc]; rfl, ?_, ?_⟩
    · intro x hx
      rw [hdb]
      rcases List.mem_append.mp hx with hx | hx
      · exact hsplit.recorded x hx
      · rw [List.mem_singleton.mp hx]
        intro e' he'
        obtain rfl := Option.some.inj (he.symm.trans he')
        exact ⟨f.result, hstored, hfinal⟩
    · rw [hstarted, hsplit.started]
      simp
  refine ⟨?_, ?_, ?_, ?_, done ++ [task], hplace'⟩
  · intro x hx
    dsimp only
    rw [hdb]
    exact hs.rows x hx
  · dsimp only
    rw [hdb]
    exact hs.unique
  · intro name hname
    cases hname
  · intro x hx
    dsimp only
    rw [hdb]
    exact hs.unused x (by rw [hpc]; exact hx)

theorem schedMove_inPass (hs : InPass s₀ outcomes tasks s) (hready : Ready cfg outcomes tasks s₀)
    (hsync : cfg.asyncCallback = false) (hmax : cfg.maxFailures = .int n)
    (hl : Follows outcomes tasks s (.sched i)) (h : SchedMove cfg i s t) :
    InPass s₀ outcomes tasks t := by
  obtain ⟨done, hplace⟩ := hs.place
  cases h with
  | raise err hraise => exact absurd hraise (hs.not_raises hready hl)
  | finalizeRaise f rest err w hpc hraise =>
    exact absurd hraise (hs.not_finalizeRaise hready hmax hpc)
  | spawn task result started rest hpc hasync =>
    rw [hsync] at hasync
    cases hasync
  | reset e todo last hpc => obtain ⟨-, ⟨⟩⟩ := hs.place_of hpc
  | read hpc => obtain ⟨-, ⟨⟩⟩ := hs.place_of hpc
  | take e todo queue hpc => obtain ⟨-, ⟨⟩⟩ := hs.place_of hpc
  | keep taskTime e todo queue hpc => obtain ⟨-, ⟨⟩⟩ := hs.place_of hpc
  | cancel taskTime e todo queue hpc => obtain ⟨-, ⟨⟩⟩ := hs.place_of hpc
  | number taskTime e todo queue hpc => obtain ⟨-, ⟨⟩⟩ := hs.place_of hpc
  | jump pc hjump =>
    cases hjump with
    | tasksDone hpc =>
      rw [hpc] at hplace
      refine ⟨hs.rows, hs.unique, ?_, ?_, done, hplace⟩
      · intro name hname
        cases hname
      · intro x hx
        cases hx
    | passAgain hpc | passBreak hpc => simp [Follows, Meets, hpc] at hl
    | startReset hpc | resetSkip _ _ hpc | resetDone hpc | schedule hpc | idle hpc
    | queueDone _ hpc | runAgain hpc | runBreak hpc => obtain ⟨-, ⟨⟩⟩ := hs.place_of hpc
  | fetch task rest e hpc hload =>
    rw [hpc] at hplace
    have hrow := hs.rows task (by simp [hplace.queue])
    refine ⟨hs.rows, hs.unique, ?_, ?_, done, hplace⟩
    · intro name hname
      obtain rfl := Option.some.inj hname
      exact (loadEntry_ok hload).1.symm.trans hrow
    · intro x hx
      exact hs.unused x (by rw [hpc]; exact hx)
  | evict task rest hpc => exact hs.evict hready hpc
  | create task rest result db hpc hsave => exact hs.create hready hpc hsave
  | call task result rest hpc hserialize =>
    have htime : i.time = (outcomes task.key).started := by simpa [Follows, Meets, hpc] using hl
    rw [hpc] at hplace
    obtain ⟨hsplit, hstored, hkey⟩ := hplace
    refine ⟨hs.rows, hs.unique, ?_, ?_, done, ⟨hsplit.queue, hsplit.recorded, ?_⟩, hstored, hkey, htime⟩
    · intro name hname
      exact hs.entry name (by rw [hpc]; exact hname)
    · intro x hx
      exact hs.unused x (by rw [hpc]; exact hx)
    · rw [startedTasks_append, hsplit.started]
      simp [Event.startedTask]
  | finish task result started rest hpc hsync status detail hcall => exact hs.finish hl hpc hcall
  | finalize f f' rest w hpc hmove => exact hs.finalize hready hl hpc hmove
  | finalized f rest w hpc hmove => exact hs.finalized hready hpc hmove

/-- Other threads leave the rows of the tasks alone. -/
theorem InPass.rows_step (hs : InPass s₀ outcomes tasks s) (hready : Ready cfg outcomes tasks s₀)
    (hl : Follows outcomes tasks s l) (hother : l.isSched = false) (h : step cfg s l = some t) :
    ∀ task ∈ tasks, t.db.getEntry task.scheduleEntryName =
      s₀.db.getEntry task.scheduleEntryName := by
  intro task htask
  obtain ⟨e, -, he, -⟩ := hs.row hready htask
  have hname : task.scheduleEntryName ∈ tasks.map Task.scheduleEntryName := List.mem_map_of_mem htask
  rw [← hs.rows task htask]
  have hrow := step_row h task.scheduleEntryName
  generalize t.db.getEntry task.scheduleEntryName = out at hrow ⊢
  cases hrow with
  | same => rfl
  | write k now q hwrite hq hentry =>
    rw [hwrite] at hl
    exact absurd (hentry ▸ hname) (hl q hq)
  | post owner action body now hpost hnew => exact absurd (he.symm.trans hnew) (Option.some_ne_none e)
  | delete hdelete =>
    rw [hdelete] at hl
    exact absurd hname hl
  | reset i e todo last row hsched => simp [hsched, Label.isSched] at hother
  | take i e todo queue row hsched => simp [hsched, Label.isSched] at hother
  | cancel i taskTime e todo queue row hsched => simp [hsched, Label.isSched] at hother
  | number i taskTime e todo queue row hsched => simp [hsched, Label.isSched] at hother

/-- A step of another thread that keeps to the schedule and the acquisitions. -/
theorem InPass.of_frame (hs : InPass s₀ outcomes tasks s)
    (hrows : ∀ task ∈ tasks, t.db.getEntry task.scheduleEntryName =
      s₀.db.getEntry task.scheduleEntryName)
    (hpc : t.pc = s.pc) (hentry : t.entry = s.entry) (hhistory : t.history = s.history)
    (hresults : t.db.results = s.db.results) (hnext : t.db.nextId = s.db.nextId) :
    InPass s₀ outcomes tasks t := by
  refine ⟨hrows, hs.unique.of_results hresults hnext, ?_, ?_, ?_⟩
  · rw [hpc, hentry]
    exact hs.entry
  · rw [hpc, hresults]
    exact hs.unused
  · rw [hpc, hresults, hhistory]
    exact hs.place

theorem InPass.step (hs : InPass s₀ outcomes tasks s) (hready : Ready cfg outcomes tasks s₀)
    (hsync : cfg.asyncCallback = false) (hmax : cfg.maxFailures = .int n)
    (hl : Follows outcomes tasks s l) (h : step cfg s l = some t) : InPass s₀ outcomes tasks t := by
  have hrows (hother : l.isSched = false) := hs.rows_step hready hl hother h
  cases step_cases h with
  | sched i s' hmove => exact schedMove_inPass hs hready hsync hmax hl hmove
  | finalizer => exact hl.elim
  | finalizerEnd => exact hl.elim
  | finalizerRaise => exact hl.elim
  | crash => exact hl.elim
  | deleteResult => exact hl.elim
  | measure recordingId =>
    exact hs.of_frame (hrows rfl) rfl rfl rfl (Database.storeAcquisition_results _ _ _)
      (Database.storeAcquisition_nextId _ _ _)
  | stop => exact hs.of_frame (hrows rfl) rfl rfl rfl rfl rfl
  | post => exact hs.of_frame (hrows rfl) rfl rfl rfl rfl rfl
  | read => exact hs.of_frame (hrows rfl) rfl rfl rfl rfl rfl
  | write k now q hq =>
    refine hs.of_frame (hrows rfl) rfl rfl rfl ?_ ?_
    · dsimp only
      unfold Database.saveWhole
      split_ifs <;> rfl
    · dsimp only
      unfold Database.saveWhole
      split_ifs <;> rfl
  | deleteEntry name db hremove =>
    refine hs.of_frame (hrows rfl) rfl rfl rfl ?_ ?_
    · obtain ⟨-, -, rfl⟩ := Database.removeEntry_some hremove
      rfl
    · obtain ⟨-, -, rfl⟩ := Database.removeEntry_some hremove
      rfl

end InPass

/-- A living thread that has not returned can take a step. -/
theorem schedStep_isSome (cfg : Settings) (i : Input) (hstopped : s.pc ≠ .stopped)
    (halive : ¬ Dead s) : (schedStep cfg i s).isSome := by
  have horFail {α : Type} {s : Sys} (r : Except Exc α) (next : α → Sys) :
      (s.orFail r next).isSome := by
    cases r <;> rfl
  unfold schedStep
  split
  case h_19 hpc => exact absurd hpc hstopped
  case h_20 err hpc => exact absurd ⟨err, hpc⟩ halive
  all_goals first | rfl | exact horFail _ _

theorem InPass.alive (hs : InPass s₀ outcomes tasks s) : s.pc ≠ .stopped ∧ ¬ Dead s := by
  constructor
  · intro hpc
    obtain ⟨-, ⟨⟩⟩ := hs.place_of hpc
  · rintro ⟨err, hpc⟩
    obtain ⟨-, ⟨⟩⟩ := hs.place_of hpc

/-- The loop is over when no step of it is left. -/
theorem InPass.passDone (hs : InPass s₀ outcomes tasks s) (hleft : s.pc.stepsLeft = 0) :
    s.pc = .passDone := by
  obtain ⟨done, hplace⟩ := hs.place
  cases hpc : s.pc with
  | passDone => rfl
  | consuming | evicting | inserting | calling | acting | finalizing =>
    rw [hpc] at hleft
    simp [Pc.stepsLeft] at hleft
  | _ =>
    rw [hpc] at hplace
    cases hplace

/-- The bound on the steps of the loop counts down. -/
theorem InPass.stepsLeft (hs : InPass s₀ outcomes tasks s) (hl : Follows outcomes tasks s l)
    (h : Scheduler.step cfg s l = some t) :
    t.pc.stepsLeft + (if l.isSched then 1 else 0) ≤ s.pc.stepsLeft := by
  have hcrash : l ≠ .crash := by
    rintro rfl
    exact hl
  by_cases hleft : s.pc.stepsLeft = 0
  · have hsched : l.isSched = false := by
      cases l with
      | sched i => simp [Follows, Meets, hs.passDone hleft] at hl
      | _ => rfl
    rw [step_pc h hcrash hsched, hsched]
    simp
  · exact step_stepsLeft h hcrash hleft

/-- What a pass through the queue comes to, from `s` to `t` by the labels `ls`: the
thread lives and is never stuck, it is done after at most 13 steps for each task,
the result of a task is stored while its action runs, and in the end every task
was started once, in order, and has the one result of its outcome. -/
structure FailuresIsolated (cfg : Settings) (outcomes : String × ℕ → Outcome) (queue : TaskQueue ℕ)
    (s : Sys) (ls : List Label) (t : Sys) : Prop where
  alive : ¬ Dead t
  enabled : ∀ i, (step cfg t (.sched i)).isSome
  bounded : t.pc.stepsLeft + ls.countP Label.isSched ≤ 13 * queue.length + 1
  finished : t.pc.stepsLeft = 0 → t.pc = .passDone
  created : ∀ task result started rest, t.pc = .acting task result started rest →
    task.key ∈ t.db.results.map fun r => r.key
  started : t.pc = .passDone → startedTasks t.history = startedTasks s.history ++ queue.toList
  recorded : t.pc = .passDone → ∀ task ∈ queue, ∃ e r,
    s.db.getEntry task.scheduleEntryName = some e ∧
      (t.db.results.filter fun r => r.key = task.key) = [r] ∧
        RecordedAs e (outcomes task.key) r.toTaskResult

/-- The runs of the loop over the queue all come to what they should. -/
def IsolatesFailures (cfg : Settings) (outcomes : String × ℕ → Outcome) (queue : TaskQueue ℕ)
    (s : Sys) : Prop :=
  ∀ ls t, Along (step cfg) (Follows outcomes queue.toList) s ls → exec (step cfg) s ls = some t →
    FailuresIsolated cfg outcomes queue s ls t

/-- With texts that can be stored, the loop over the queue of a pass ends with all
tasks started in order and one result of its outcome for each, as long as the rows of
their entries are left alone. -/
theorem isolatesFailures (cfg : Settings) (hsync : cfg.asyncCallback = false) (maxFailures : ℤ)
    (hmax : cfg.maxFailures = .int maxFailures) (now : String → ℤ) (db : Database)
    (hint : db.Integrity) (hload : db.activeEntries.all cfg.loads) (queue : TaskQueue ℕ) (s : Sys)
    (hpending : pendingTasks now db = .ok (queue, s.db))
    (hunused : ∀ task ∈ queue, task.key ∉ db.results.map fun r => r.key)
    (hserializable : ∀ task ∈ queue, (s.db.getEntry task.scheduleEntryName).all fun e => e.serializable)
    (hpc : s.pc = .consuming queue.toList) (outcomes : String × ℕ → Outcome)
    (hrecordable : ∀ task ∈ queue, (outcomes task.key).action.Recordable) :
    IsolatesFailures cfg outcomes queue s := by
  obtain ⟨hresults, hnext⟩ := pendingTasks_results hint.entries hpending
  obtain ⟨hdistinct, hentries⟩ := pendingTasks_entries hint.entries hpending
  have hmem {task : PendingTask} (htask : task ∈ queue.toList) : task ∈ queue :=
    queue.toList_perm.subset htask
  have hready : Ready cfg outcomes queue.toList s := by
    refine ⟨fun task htask => hrecordable task (hmem htask),
      (queue.toList_perm.map _).nodup_iff.mpr hdistinct, ?_⟩
    intro task htask
    obtain ⟨e, he, hrow⟩ := hentries task (hmem htask)
    have hloads : cfg.loads (e.passed (now e.name)) = true := by
      unfold Settings.loads
      rw [passed_action]
      exact List.all_eq_true.mp hload e he
    have hrepresentable := hserializable task (hmem htask)
    rw [hrow] at hrepresentable
    exact ⟨_, hrow, hloads, hrepresentable⟩
  have hstart : InPass s outcomes queue.toList s := by
    have hunique : db.ResultsUnique := ⟨hint.ids, hint.keys, hint.fresh⟩
    refine ⟨fun _ _ => rfl, hunique.of_results hresults hnext, ?_, ?_, [], ?_⟩
    · intro name hname
      rw [hpc] at hname
      cases hname
    · intro task htask
      rw [hpc] at htask
      rw [hresults]
      exact hunused task (hmem htask)
    · rw [hpc]
      exact ⟨rfl, (fun _ h => nomatch h), by simp⟩
  have hstep : ∀ s₁ l s₂, InPass s outcomes queue.toList s₁ → Follows outcomes queue.toList s₁ l →
      step cfg s₁ l = some s₂ → InPass s outcomes queue.toList s₂ :=
    fun s₁ l s₂ hs hl h => hs.step hready hsync hmax hl h
  intro ls t hls hrun
  have hend := exec_invariant hstep hstart hls hrun
  have hbound := exec_bounded (fun s => s.pc.stepsLeft) hstep
    (fun s₁ l s₂ hs hl h => hs.stepsLeft hl h) hstart hls hrun
  refine ⟨hend.alive.2, fun i => schedStep_isSome cfg i hend.alive.1 hend.alive.2, ?_, hend.passDone, ?_, ?_, ?_⟩
  · simpa [hpc, Pc.stepsLeft] using hbound
  · intro task result started rest hacting
    obtain ⟨done, -, hstored, hkey, -⟩ := hend.place_of hacting
    exact hkey ▸ List.mem_map_of_mem hstored
  · intro hdone
    obtain ⟨done, hsplit⟩ := hend.place_of hdone
    rw [hsplit.started, hsplit.queue]
    simp
  · intro hdone task htask
    obtain ⟨done, hsplit⟩ := hend.place_of hdone
    have hqueued : task ∈ queue.toList := queue.toList_perm.symm.subset htask
    obtain ⟨e, he, -⟩ := hready.rows task hqueued
    have htaskDone : task ∈ done := by
      rw [hsplit.queue] at hqueued
      simpa using hqueued
    obtain ⟨r, hr, hresult⟩ := hsplit.recorded task htaskDone e he
    have hkey : r.key = task.key := by
      rw [hresult]
      exact final_key e _ task
    have honly := Table.filter_key hend.unique.keys (Table.get?_of_mem hend.unique.keys hr)
    rw [hkey] at honly
    refine ⟨e, r, he, honly, ?_⟩
    rw [hresult]
    exact Outcome.recordedAs_final e task _ (hready.recordable task hqueued)

/-! ### Texts that cannot be stored -/

/-- What is written to the results can be stored. -/
theorem step_storable (h : step cfg s l = some t) :
    ∀ r ∈ t.db.results, r ∈ s.db.results ∨ r.detail.storable = true := by
  have hwrite := step_tableWrite h
  intro r hr
  generalize t.db = db at hwrite hr
  have hsaved {self : Option ℕ} {tr : TaskResult} {row : ResultRow}
      (hsave : s.db.superSave self tr = .ok (row, db)) :
      r ∈ s.db.results ∨ r.detail.storable = true := by
    obtain hold | rfl := Database.mem_of_mem_superSave hsave hr
    · exact .inl hold
    · rw [Database.superSave_row hsave]
      exact .inr (Database.storable_of_superSave hsave)
  cases hwrite with
  | evict => exact .inl (Database.mem_of_mem_removeOldest hr)
  | insert tr row _ hsave => exact hsaved hsave
  | save o tr row _ hopen hkey hsave => exact hsaved hsave
  | record key recordingId =>
    rw [Database.storeAcquisition_results] at hr
    exact .inl hr
  | whole e =>
    unfold Database.saveWhole at hr
    split_ifs at hr <;> exact .inl hr
  | removeEntry name _ hremove =>
    obtain ⟨-, -, rfl⟩ := Database.removeEntry_some hremove
    exact .inl hr
  | deleteResult id => exact .inl (Database.mem_deleteResult.mp hr).1
  | _ => exact .inl hr

/-- What the thread reads next in a run that meets the outcomes. -/
def nextInput (outcomes : String × ℕ → Outcome) : Pc → Input
  | .calling task _ _ => { time := (outcomes task.key).started }
  | .acting task _ _ _ =>
    { time := (outcomes task.key).finished, action := (outcomes task.key).action }
  | .finalizing f _ => { callback := (outcomes f.result.key).callback }
  | _ => {}

theorem meets_nextInput {pc : Pc} (hpc : pc ≠ .passDone) :
    Meets outcomes (nextInput outcomes pc) pc := by
  cases pc with
  | passDone => exact hpc rfl
  | acting => exact ⟨rfl, rfl⟩
  | calling | finalizing => rfl
  | _ => trivial

/-- A loop that isolates failures has a run to its end: while it goes on, there is a
next step, and there cannot be more than `13 * queue.length + 1`. -/
theorem IsolatesFailures.exists_passDone {queue : TaskQueue ℕ}
    (hall : IsolatesFailures cfg outcomes queue s) :
    ∃ ls t, Along (step cfg) (Follows outcomes queue.toList) s ls ∧
      exec (step cfg) s ls = some t ∧ t.pc = .passDone := by
  have hlonger (n : ℕ) : ∃ ls t, Along (step cfg) (Follows outcomes queue.toList) s ls ∧
      exec (step cfg) s ls = some t ∧ (t.pc = .passDone ∨ n ≤ ls.countP Label.isSched) := by
    induction n with
    | zero => exact ⟨[], s, trivial, rfl, .inr (Nat.zero_le _)⟩
    | succ n ih =>
      obtain ⟨ls, t, hls, hrun, hend⟩ := ih
      by_cases hdone : t.pc = .passDone
      · exact ⟨ls, t, hls, hrun, .inl hdone⟩
      · have hcount := hend.resolve_left hdone
        have hnext := (hall ls t hls hrun).enabled (nextInput outcomes t.pc)
        obtain ⟨t', ht'⟩ := Option.isSome_iff_exists.mp hnext
        refine ⟨ls ++ [.sched (nextInput outcomes t.pc)], t', along_append.mpr ⟨hls, ?_⟩,
          exec_append.mpr ⟨t, hrun, exec_cons.mpr ⟨t', ht', rfl⟩⟩, .inr ?_⟩
        · intro t₁ ht₁
          obtain rfl := Option.some.inj (hrun.symm.trans ht₁)
          exact ⟨meets_nextInput hdone, fun _ _ => trivial⟩
        · rw [List.countP_append]
          exact Nat.add_le_add hcount (Nat.le_refl 1)
  obtain ⟨ls, t, hls, hrun, hend⟩ := hlonger (13 * queue.length + 2)
  refine ⟨ls, t, hls, hrun, hend.resolve_right ?_⟩
  have hbound := (hall ls t hls hrun).bounded
  omega

/-- The loop over the queue of a pass isolates failures exactly if every exception of
an action has a text, and what is kept of each text can be stored: with one that
cannot, the first save of its task raises, and the tasks after it are lost. -/
theorem failures_isolated_iff (cfg : Settings) (hsync : cfg.asyncCallback = false) (maxFailures : ℤ)
    (hmax : cfg.maxFailures = .int maxFailures) (now : String → ℤ) (db : Database)
    (hint : db.Integrity) (hload : db.activeEntries.all cfg.loads) (queue : TaskQueue ℕ) (s : Sys)
    (hpending : pendingTasks now db = .ok (queue, s.db))
    (hunused : ∀ task ∈ queue, task.key ∉ db.results.map fun r => r.key)
    (hserializable : ∀ task ∈ queue, (s.db.getEntry task.scheduleEntryName).all fun e => e.serializable)
    (hpc : s.pc = .consuming queue.toList) (outcomes : String × ℕ → Outcome) :
    IsolatesFailures cfg outcomes queue s ↔
      ∀ task ∈ queue, (outcomes task.key).action.Recordable := by
  constructor
  · intro hall task htask
    obtain ⟨ls, t, hls, hrun, hdone⟩ := hall.exists_passDone
    obtain ⟨e, r, -, honly, hrecorded⟩ := (hall ls t hls hrun).recorded hdone task htask
    obtain ⟨text, htext, hdetail⟩ := hrecorded.detail
    have hmem : r ∈ t.db.results.filter fun r => r.key = task.key := honly ▸ List.mem_singleton_self r
    obtain ⟨hr, hkey⟩ := List.mem_filter.mp hmem
    have hstep : ∀ s₁ l s₂, (∀ r ∈ s₁.db.results, r ∈ s.db.results ∨ r.detail.storable = true) →
        Follows outcomes queue.toList s₁ l → step cfg s₁ l = some s₂ →
        ∀ r ∈ s₂.db.results, r ∈ s.db.results ∨ r.detail.storable = true :=
      fun s₁ l s₂ hs _ h r hr => (step_storable h r hr).elim (hs r) .inr
    obtain hold | hstorable := exec_invariant hstep (fun r hr => .inl hr) hls hrun r hr
    · rw [(pendingTasks_results hint.entries hpending).1] at hold
      exact absurd (of_decide_eq_true hkey ▸ List.mem_map_of_mem hold) (hunused task htask)
    · exact ⟨text, htext, hdetail ▸ hstorable⟩
  · exact isolatesFailures cfg hsync maxFailures hmax now db hint hload queue s hpending hunused
      hserializable hpc outcomes

/-- An entry with a callback and one without, before a pass. -/
def twoPending : Database where
  schedule := [⟨"first", "acquire", 10, 0, none, none, true, some "callback", 0, 1, "op"⟩,
    ⟨"second", "acquire", 20, 0, none, none, true, none, 0, 1, "op"⟩]

def twoTasks : TaskQueue ℕ := [⟨0, 10, "acquire", "first", 1⟩, ⟨0, 20, "acquire", "second", 1⟩]

/-- Their tasks are queued and about to be consumed. -/
def twoQueued : Sys where
  db := { schedule := [⟨"first", "acquire", 10, 0, none, none, false, some "callback", 0, 2, "op"⟩,
    ⟨"second", "acquire", 20, 0, none, none, false, none, 0, 2, "op"⟩] }
  pc := .consuming twoTasks.toList

/-- The first action returns and its POST is answered with an error, the second
action raises. -/
def mixedOutcomes (key : String × ℕ) : Outcome :=
  if key.1 = "first" then ⟨1, 3, .returned (some "stored"), .response false⟩
  else ⟨4, 6, .raised (some "no signal"), .response true⟩

/-- The steps that a task with this outcome takes. -/
def taskSteps (o : Outcome) : List Label :=
  List.replicate 4 (.sched { time := o.started }) ++
    List.replicate 7 (.sched { time := o.finished, action := o.action, callback := o.callback })

def mixedSteps : List Label :=
  taskSteps (mixedOutcomes ("first", 1)) ++ taskSteps (mixedOutcomes ("second", 1)) ++ [.sched {}]

/-- Both tasks are executed, and both failures are told apart in the results. -/
theorem failures_isolated_mixed :
    ∃ t, exec (step inThread) twoQueued mixedSteps = some t ∧ t.pc = .passDone ∧
      (t.db.results.map fun r => r.status) = [.notificationFailed, .failure] ∧
      FailuresIsolated inThread mixedOutcomes twoTasks twoQueued mixedSteps t := by
  have hint : twoPending.Integrity := by
    refine ⟨by decide, by decide, by decide, ?_, ?_⟩
    · intro r hr
      cases hr
    · intro r hr
      cases hr
  have hend : (exec (step inThread) twoQueued mixedSteps).map
      (fun t => (t.pc, t.db.results.map fun r => r.status)) =
      some (.passDone, [.notificationFailed, .failure]) := by decide
  obtain ⟨t, ht, hlast⟩ := Option.map_eq_some_iff.mp hend
  obtain ⟨hpc, hstatus⟩ := Prod.mk.inj hlast
  refine ⟨t, ht, hpc, hstatus, ?_⟩
  exact (failures_isolated_iff inThread rfl 2 rfl (fun _ => 0) twoPending hint (by decide) twoTasks
    twoQueued rfl (by decide) (by decide) rfl mixedOutcomes).mpr (by decide) mixedSteps t (by decide) ht

/-- The action of the first task ends as given, that of the second would return. -/
def firstEnds (o : ActionOutcome) (key : String × ℕ) : Outcome :=
  if key.1 = "first" then ⟨1, 3, o, .response true⟩ else ⟨4, 6, .returned none, .response true⟩

/-- The steps up to the call of the first action, and `n` steps after it. -/
def firstSteps (o : ActionOutcome) (n : ℕ) : List Label :=
  List.replicate 4 (.sched { time := 1 }) ++
    List.replicate n (.sched { time := 3, action := o })

/-- A returned NUL ends the thread at the first save of its result, an exception
without a text even before its finalization: the second task is never started. -/
theorem unstorable_text_ends_thread :
    (∃ t, exec (step inThread) twoQueued (firstSteps (.returned (some [0])) 3) = some t ∧
      Along (step inThread) (Follows (firstEnds (.returned (some [0]))) twoTasks.toList) twoQueued
        (firstSteps (.returned (some [0])) 3) ∧
      t.pc = .dead .valueError ∧ (startedTasks t.history).map Task.scheduleEntryName = ["first"] ∧
      ¬ IsolatesFailures inThread (firstEnds (.returned (some [0]))) twoTasks twoQueued) ∧
    ∃ t, exec (step inThread) twoQueued (firstSteps (.raised none) 1) = some t ∧
      Along (step inThread) (Follows (firstEnds (.raised none)) twoTasks.toList) twoQueued
        (firstSteps (.raised none) 1) ∧
      t.pc = .dead .unprintable ∧ (startedTasks t.history).map Task.scheduleEntryName = ["first"] ∧
      ¬ IsolatesFailures inThread (firstEnds (.raised none)) twoTasks twoQueued := by
  have hdies {o : ActionOutcome} {n : ℕ} {err : Exc}
      (hfollows : Along (step inThread) (Follows (firstEnds o) twoTasks.toList) twoQueued
        (firstSteps o n))
      (hend : (exec (step inThread) twoQueued (firstSteps o n)).map
        (fun t => (t.pc, (startedTasks t.history).map Task.scheduleEntryName)) =
          some (.dead err, ["first"])) :
      ∃ t, exec (step inThread) twoQueued (firstSteps o n) = some t ∧
        Along (step inThread) (Follows (firstEnds o) twoTasks.toList) twoQueued (firstSteps o n) ∧
        t.pc = .dead err ∧ (startedTasks t.history).map Task.scheduleEntryName = ["first"] ∧
        ¬ IsolatesFailures inThread (firstEnds o) twoTasks twoQueued := by
    obtain ⟨t, ht, hlast⟩ := Option.map_eq_some_iff.mp hend
    obtain ⟨hpc, hstarted⟩ := Prod.mk.inj hlast
    refine ⟨t, ht, hfollows, hpc, hstarted, ?_⟩
    intro hall
    exact (hall _ t hfollows ht).alive ⟨err, hpc⟩
  exact ⟨hdies (by decide) (by decide), hdies (by decide) (by decide)⟩

end Scheduler

end ScosSensor
