import ScosSensor.IssuedTimes
import ScosSensor.StoredMarks

/-!
# At most one start across crashes

The process may die between any two writes and begins again on the stored rows,
where the reset sets every counter behind the last stored result. Times are used
up before their tasks are queued, so no time is started twice. Ids are started
once as long as the last stored result of an entry reaches all started tasks of
it, which a finalization in a thread of its own can spoil: it stores its result
again after the disk limit has removed it, and maybe all later ones.
-/
namespace ScosSensor

namespace Scheduler

open Runs Counters

variable {cfg : Settings} {s t : Sys} {l : Label} {i : Input}

/-- The ids of the tasks whose actions were started. -/
def begun (s : Sys) : List (String × ℕ) := (startedTasks s.history).map Task.key

/-- An action is started when its result has been created. -/
theorem step_begun (h : step cfg s l = some t) :
    begun t = begun s ∨ ∃ task result started tasks, s.pc = .calling task result tasks ∧
      t.pc = .acting task result started tasks ∧ begun t = begun s ++ [task.key] ∧ t.db = s.db := by
  unfold begun
  cases step_cases h with
  | sched i s' hmove =>
    cases hmove with
    | call task result tasks hpc =>
      exact .inr ⟨task, result, i.time, tasks, hpc, rfl, by simp [Event.startedTask], rfl⟩
    | finalize f f' tasks w hpc hmove => exact .inl (congrArg _ hmove.tasks.1)
    | finalized f tasks w hpc hmove => exact .inl (congrArg _ hmove.tasks.1)
    | finalizeRaise f tasks err w hpc hraise =>
      exact .inl (congrArg (fun history => (startedTasks history).map Task.key) hraise.frame.2.1)
    | take | number | create | spawn | finish => simp [Event.startedTask]
    | _ => exact .inl rfl
  | finalizer k i f f' w hf hmove => exact .inl (congrArg _ hmove.tasks.1)
  | finalizerEnd k i f w hf hmove => exact .inl (congrArg _ hmove.tasks.1)
  | finalizerRaise k i f err w hf hraise =>
    exact .inl (congrArg (fun history => (startedTasks history).map Task.key) hraise.frame.2.1)
  | _ => exact .inl rfl

/-- The task that is about to be started is past all ids begun. -/
def CallsAhead (s : Sys) : Prop :=
  ∀ task result tasks, s.pc = .calling task result tasks → Ahead task.key (begun s)

theorem step_callsAhead (hs : CallsAhead s) (hahead : ∀ x ∈ s.pc.waiting, Ahead x.key (begun s))
    (h : step cfg s l = some t) : CallsAhead t := by
  intro task result tasks hpc
  obtain hbegun | ⟨task', result', started, tasks', -, hpc', -⟩ := step_begun h
  · rw [hbegun]
    cases step_cases h with
    | sched i s' hmove =>
      cases hmove with
      | create task' tasks' result' db hpc' =>
        obtain ⟨rfl, -, -⟩ := Pc.calling.inj hpc
        exact hahead task' (by rw [hpc']; exact List.mem_cons_self)
      | jump pc hjump => cases hjump <;> cases hpc
      | keep taskTime | cancel taskTime => cases taskTime <;> cases hpc
      | _ => cases hpc
    | crash => cases hpc
    | _ => exact hs task result tasks hpc
  · rw [hpc] at hpc'
    cases hpc'

/-- A finalization that saves its result keeps the last results recorded, unless
it makes a result the only one that is not the last. -/
theorem FinalizeMove.recorded {f : Finalization} {w w' : World} {next : Option Finalization}
    {ids : List (String × ℕ)} (h : FinalizeMove cfg i f w next w') (hs : Recorded ids w.db)
    (hordered : Ordered w.db.marks)
    (hunique : ∀ m ∈ w.db.marks, m.2 = f.result.id → m.1 = f.result.key)
    (hlast : ∀ site, f.stage = .writing site →
      (∀ m ∈ w.db.marks, m.1.1 ≠ f.result.scheduleEntry) →
        ∀ x ∈ ids, x.1 = f.result.scheduleEntry → x.2 ≤ f.result.taskId) :
    Recorded ids w'.db := by
  cases h with
  | evict site hstage => exact hs.removeOldest hordered _ _ _ _
  | write site row db hstage hsave =>
    apply hs.insert
    · intro m
      exact Database.mem_marks_superSave hsave hunique
    · exact hlast site hstage
  | retry => exact hs
  | notify => exact hs
  | count w' hstage hcount =>
    have hframe := countFailures_frame cfg f.status w
    rw [hcount] at hframe
    exact hframe.1 ▸ hs

/-- A finalization in a thread of its own that saves while its entry has no
stored result belongs to the last task started of the entry. -/
def ReinsertsLast (s : Sys) : Label → Prop
  | .finalizer k _ => ∀ f site, s.finalizations[k]? = some f → f.stage = .writing site →
      s.db.resultsOf f.result.scheduleEntry = [] → ∀ task ∈ startedTasks s.history,
        task.scheduleEntryName = f.result.scheduleEntry → task.taskId ≤ f.result.taskId
  | _ => True

theorem resultsOf_eq_nil {db : Database} {name : String} (h : ∀ m ∈ db.marks, m.1.1 ≠ name) :
    db.resultsOf name = [] := by
  apply List.filter_eq_nil_iff.mpr
  intro r hr hname
  exact h r.mark (List.mem_map_of_mem hr) (of_decide_eq_true hname)

theorem schedMove_recorded (h : SchedMove cfg i s t) (hs : Recorded (begun s) s.db)
    (hcalls : CallsStored s) (hrows : RowOrder s) (hthread : InThread cfg s)
    (hahead : ∀ x ∈ s.pc.waiting, Ahead x.key (begun s)) : Recorded (begun t) t.db := by
  have hordered : Ordered s.db.marks := hrows.ordered.subset (marks_stored_subset s)
  have hfinalize {f : Finalization} {tasks : List PendingTask} {w : World}
      {next : Option Finalization} (hpc : s.pc = .finalizing f tasks)
      (hmove : FinalizeMove cfg i f s.toWorld next w) : Recorded (begun s) w.db := by
    have hrunning : f.result ∈ s.pc.running := by
      rw [hpc]
      exact List.mem_singleton_self f.result
    apply hmove.recorded hs hordered (unique_inFlight hrows (mark_running hrunning))
    intro site hstage hnone
    have hstored := hthread.stored (hthread.finalizing f tasks hpc) f.result hrunning
    exact absurd rfl (hnone f.result.mark hstored)
  cases h with
  | create task tasks result db hpc hsave =>
    have hwait : task ∈ s.pc.waiting := by
      rw [hpc]
      exact List.mem_cons_self
    obtain ⟨hid, hresults, -, -⟩ := Database.superSave_new hsave
    have hkey : result.key = task.key := Database.superSave_key hsave
    have hbegun : begun s = (startedTasks (s.history ++ [.created task])).map Task.key := by
      simp [begun, Event.startedTask]
    show Recorded ((startedTasks (s.history ++ [.created task])).map Task.key) db
    rw [← hbegun]
    have hmarks : ∀ m, m ∈ db.marks ↔ m ∈ s.db.marks ∨ m = result.mark := by
      intro m
      unfold Database.marks
      rw [hresults, List.map_append, List.map_singleton, List.mem_append, List.mem_singleton]
    apply hs.insert hmarks
    · intro _ x hx hname
      have hlt := hahead task hwait x hx (hname.trans (congrArg Prod.fst hkey))
      have hid : result.taskId = task.taskId := congrArg Prod.snd hkey
      show x.2 ≤ result.taskId
      rw [hid]
      exact hlt.le
  | call task result tasks hpc =>
    obtain ⟨hkey, hstored, -⟩ := hcalls task result tasks hpc
    intro x hx hsome
    simp only [begun, startedTasks_append, Event.startedTask, Option.toList_some, List.map_append,
      List.map_singleton] at hx
    rcases List.mem_append.mp hx with hx | hx
    · exact hs x hx hsome
    · rw [List.mem_singleton.mp hx, ← hkey]
      exact ⟨result.mark, hstored, rfl, le_rfl⟩
  | evict task tasks hpc => exact hs.removeOldest hordered _ _ _ _
  | finalize f f' tasks w hpc hmove =>
    show Recorded ((startedTasks w.history).map Task.key) w.db
    rw [hmove.tasks.1]
    exact hfinalize hpc hmove
  | finalized f tasks w hpc hmove =>
    show Recorded ((startedTasks w.history).map Task.key) w.db
    rw [hmove.tasks.1]
    exact hfinalize hpc hmove
  | finalizeRaise f tasks err w hpc hraise =>
    obtain ⟨hdb, hhistory, -⟩ := hraise.frame
    show Recorded ((startedTasks w.history).map Task.key) w.db
    rw [hdb, hhistory]
    exact hs
  | take | number | spawn | finish =>
    simp only [begun, startedTasks_append, Event.startedTask, Option.toList_none, List.append_nil]
    exact hs
  | _ => exact hs

theorem step_recorded (hs : Recorded (begun s) s.db) (hcalls : CallsStored s) (hrows : RowOrder s)
    (hthread : InThread cfg s) (hahead : ∀ x ∈ s.pc.waiting, Ahead x.key (begun s))
    (hl : NoRequests l) (hlast : ReinsertsLast s l) (h : step cfg s l = some t) :
    Recorded (begun t) t.db := by
  have hfinalize {k : ℕ} {i : Input} {f : Finalization} {w : World} {next : Option Finalization}
      (hf : s.finalizations[k]? = some f) (hmove : FinalizeMove cfg i f s.toWorld next w)
      (hlast : ReinsertsLast s (.finalizer k i)) :
      Recorded ((startedTasks w.history).map Task.key) w.db := by
    rw [hmove.tasks.1]
    have hmark : f.result.mark ∈ s.marks := mark_inFlight (List.mem_of_getElem? hf)
    apply hmove.recorded hs (hrows.ordered.subset (marks_stored_subset s))
      (unique_inFlight hrows hmark)
    intro site hstage hnone x hx hname
    obtain ⟨task, htask, rfl⟩ := List.mem_map.mp hx
    exact hlast f site hf hstage (resultsOf_eq_nil hnone) task htask hname
  cases step_cases h with
  | sched i s' hmove => exact schedMove_recorded hmove hs hcalls hrows hthread hahead
  | finalizer k i f f' w hf hmove => exact hfinalize hf hmove hlast
  | finalizerEnd k i f w hf hmove => exact hfinalize hf hmove hlast
  | finalizerRaise k i f err w hf hraise =>
    obtain ⟨hdb, hhistory, -⟩ := hraise.frame
    show Recorded ((startedTasks w.history).map Task.key) w.db
    rw [hdb, hhistory]
    exact hs
  | measure recordingId =>
    apply hs.of_marks
    intro m
    unfold Database.marks
    rw [Database.storeAcquisition_results]
  | stop => exact hs
  | crash => exact hs
  | post => exact hl.elim
  | read => exact hl.elim
  | write => exact hl.elim
  | deleteEntry => exact hl.elim
  | deleteResult => exact hl.elim

/-- The ids that must not be used again: of results, and of started tasks. -/
def spentIds (s : Sys) : List (String × ℕ) := s.usedIds ++ begun s

theorem step_spentIds (hcalls : CallsStored s) (h : step cfg s l = some t) :
    CreatesAtMost s t (spentIds s) (spentIds t) := by
  obtain hsame | ⟨task, result, started, tasks, hpc, hpc', hbegun, hdb⟩ := step_begun h
  · obtain hsub | ⟨task, tasks, hpc, hwait, hheld, hnew⟩ := step_usedIds h
    · refine .inl ?_
      intro x hx
      rcases List.mem_append.mp hx with hx | hx
      · exact List.mem_append_left _ (hsub x hx)
      · exact List.mem_append_right _ (hsame ▸ hx)
    · refine .inr ⟨task, tasks, hpc, hwait, hheld, ?_⟩
      intro x hx
      rcases List.mem_append.mp hx with hx | hx
      · exact (hnew x hx).imp_left fun h => List.mem_append_left _ h
      · exact .inl (List.mem_append_right _ (hsame ▸ hx))
  · obtain hsub | ⟨task', tasks', hpc'', -⟩ := step_usedIds h
    · refine .inl ?_
      intro x hx
      rcases List.mem_append.mp hx with hx | hx
      · exact List.mem_append_left _ (hsub x hx)
      · rw [hbegun] at hx
        rcases List.mem_append.mp hx with hx | hx
        · exact List.mem_append_right _ hx
        · obtain ⟨hkey, hstored, -⟩ := hcalls task result tasks hpc
          rw [List.mem_singleton.mp hx, ← hkey]
          exact List.mem_append_left _ (key_used (marks_stored_subset s _ hstored))
    · rw [hpc] at hpc''
      cases hpc''

/-- What holds of the process and its database at every point of a run in which
no finalization spoils the last results. -/
structure CrashSafe (cfg : Settings) (s : Sys) : Prop where
  names : NamesUnique s.db
  restarted : Restarted s
  numbered : Numbered (spentIds s) s
  past : CountersPast (spentIds s) s
  rows : RowOrder s
  calls : CallsStored s
  ahead : CallsAhead s
  thread : InThread cfg s
  recorded : Recorded (begun s) s.db
  once : (begun s).Nodup

theorem CrashSafe.waiting_ahead (hs : CrashSafe cfg s) :
    (∀ x ∈ s.pc.waiting, Ahead x.key s.usedIds) ∧ ∀ x ∈ s.pc.waiting, Ahead x.key (begun s) := by
  constructor
  · intro x hx
    exact (hs.numbered.waiting x hx).subset fun y hy => List.mem_append_left _ hy
  · intro x hx
    exact (hs.numbered.waiting x hx).subset fun y hy => List.mem_append_right _ hy

/-- A reset goes past the stored ids, and so past the started ones. -/
theorem CrashSafe.keepsCounters (hs : CrashSafe cfg s) (hl : NoRequests l) :
    KeepsCounters (spentIds s) s l := by
  refine ⟨?_, ?_, ?_⟩
  · intro e todo last hpc hlast x hx hname
    rcases List.mem_append.mp hx with hx | hx
    · exact hs.restarted.reset hpc hlast x hx hname
    · obtain ⟨hstored, hentry⟩ := Database.mem_resultsOf.mp (Database.lastResult?_mem hlast)
      have hmark : ∃ m ∈ s.db.marks, m.1.1 = x.1 :=
        ⟨last.mark, List.mem_map_of_mem hstored, hentry.trans hname.symm⟩
      obtain ⟨m, hm, hmname, hle⟩ := hs.recorded x hx hmark
      obtain ⟨r, hr, rfl⟩ := List.mem_map.mp hm
      have hrname : r.scheduleEntry = e.name := hmname.trans hname
      have hlastId := Database.lastResult?_le hlast (Database.mem_resultsOf.mpr ⟨hr, hrname⟩)
      exact Nat.lt_succ_of_le (hle.trans hlastId)
  · intro k now q h
    rw [h] at hl
    exact hl.elim
  · intro name owner body now h
    rw [h] at hl
    exact hl.elim

theorem CrashSafe.step (hs : CrashSafe cfg s) (hl : NoRequests l) (hlast : ReinsertsLast s l)
    (h : step cfg s l = some t) : CrashSafe cfg t := by
  have hspent := step_spentIds hs.calls h
  have hread : s.pc = .reading → Below s.db.nextTaskIds (spentIds s) := by
    intro _
    exact hs.past.subset fun x hx => List.mem_append_left _ hx
  obtain ⟨hused, hbegun⟩ := hs.waiting_ahead
  have hkept : ∀ id, l ≠ .deleteResult id := by
    intro id heq
    rw [heq] at hl
    exact hl
  refine ⟨step_names hs.names h, step_restarted hs.restarted h,
    hs.numbered.step hs.names hread hspent h, hs.past.step hs.numbered (hs.keepsCounters hl) hspent h,
    step_rowOrder hs.rows hused h, step_callsStored hs.calls hs.rows hkept h,
    step_callsAhead hs.ahead hbegun h, step_inThread hs.thread hs.rows hkept h,
    step_recorded hs.recorded hs.calls hs.rows hs.thread hbegun hl hlast h, ?_⟩
  obtain hsame | ⟨task, result, started, tasks, hpc, -, hnew, -⟩ := step_begun h
  · rw [hsame]
    exact hs.once
  · rw [hnew]
    have hahead := hs.ahead task result tasks hpc
    exact hs.once.append (List.nodup_singleton _) (List.disjoint_singleton.mpr hahead.notMem)

/-- A process that starts on entries without results. -/
theorem crashSafe_start (cfg : Settings) {rows : List ScheduleEntry}
    (hnames : (rows.map ScheduleEntry.name).Nodup) :
    CrashSafe cfg { db := { schedule := rows } } := by
  refine ⟨hnames, fun _ => rfl, numbered_start _ _, ?_, rowOrder_start rows, ?_, ?_,
    inThread_start cfg _, ?_, List.nodup_nil⟩
  · intro x hx
    cases hx
  · exact callsStored_start _
  · intro task result tasks hpc
    cases hpc
  · intro x hx
    cases hx

/-- Every scheduled time and every one-shot entry starts its action at most once. -/
structure TimesOnce (s : Sys) : Prop where
  times : ((startedTasks s.history).map fun x => (x.scheduleEntryName, x.time)).Nodup
  oneShot : ∀ name row, s.db.getEntry name = some row → row.interval = none →
    ((startedTasks s.history).map Task.scheduleEntryName).count name ≤ 1

/-- In every run of the process on a set of entries, with crashes at any point,
every time and every one-shot entry is started at most once, and so is every id
as long as no finalization makes an old result the only one of its entry. -/
theorem starts_at_most_once (cfg : Settings) (rows : List ScheduleEntry)
    (hnames : (rows.map ScheduleEntry.name).Nodup) (ls : List Label) (t : Sys)
    (hls : ∀ l ∈ ls, NoRequests l)
    (hrun : exec (step cfg) { db := { schedule := rows } } ls = some t) :
    TimesOnce t ∧ (Along (step cfg) ReinsertsLast { db := { schedule := rows } } ls →
      ((startedTasks t.history).map Task.key).Nodup) := by
  have hquiet : Along (step cfg) (fun _ l => NoRequests l) { db := { schedule := rows } } ls :=
    Along.of_forall_mem fun l hl _ => hls l hl
  constructor
  · have hstep : ∀ s l s', Timely s → NoRequests l → step cfg s l = some s' → Timely s' :=
      fun s l s' hs hl h => hs.step hl.leavesEntries h
    have hstart : Timely { db := { schedule := rows } } := timely_start hnames
    have hend := exec_invariant hstep hstart hquiet hrun
    exact ⟨started_times_nodup hend.issuing hend.filed,
      fun _ _ => started_oneShot hend.issuing hend.filed⟩
  · intro hlast
    have hstep : ∀ s l s', CrashSafe cfg s → NoRequests l ∧ ReinsertsLast s l →
        step cfg s l = some s' → CrashSafe cfg s' := fun s l s' hs hl h => hs.step hl.1 hl.2 h
    exact (exec_invariant hstep (crashSafe_start cfg hnames) (hquiet.and hlast) hrun).once

/-- One recurring entry. -/
def everyTen : List ScheduleEntry :=
  [everyTenSeconds]

/-- A process up to the action of its first task, with the disk over the limit. -/
def upToAction (now : ℤ) : List Label := List.replicate 13 (.sched { now, percentUsed := 100 })

/-- The finalization of the first task waits until the second task has taken its
data. Then it removes the result of the second task for its own, stores its own
again, and the process dies. -/
def lateFinalization : List Label :=
  upToAction 0 ++ .measure 1 :: upToAction 10 ++
    [.measure 1, .finalizer 0 { percentUsed := 100 }, .finalizer 0 { percentUsed := 100 }, .crash]

/-- After the restart the id of the second task is given out and started again. -/
theorem id_started_twice :
    ∃ t, exec (step { actions := ["acquire"] }) { db := { schedule := everyTen } }
        (lateFinalization ++ upToAction 20) = some t ∧
      (∀ l ∈ lateFinalization ++ upToAction 20, NoRequests l) ∧
      ¬ ((startedTasks t.history).map Task.key).Nodup := by
  have hstarts : (exec (step { actions := ["acquire"] }) { db := { schedule := everyTen } }
      (lateFinalization ++ upToAction 20)).map (fun t => (startedTasks t.history).map Task.key) =
      some [("sweep", 1), ("sweep", 2), ("sweep", 2)] := by decide
  obtain ⟨t, ht, hkeys⟩ := Option.map_eq_some_iff.mp hstarts
  refine ⟨t, ht, by decide, ?_⟩
  rw [hkeys]
  decide

/-- The process dies in the action of the first task and starts the second one. -/
theorem starts_at_most_once_crash :
    ∃ t, exec (step { actions := ["acquire"] }) { db := { schedule := everyTen } }
        (upToAction 0 ++ .crash :: upToAction 10) = some t ∧
      TimesOnce t ∧ ((startedTasks t.history).map Task.key).Nodup := by
  have hruns : (exec (step { actions := ["acquire"] }) { db := { schedule := everyTen } }
      (upToAction 0 ++ .crash :: upToAction 10)).isSome := by decide
  obtain ⟨t, ht⟩ := Option.isSome_iff_exists.mp hruns
  obtain ⟨htimes, hids⟩ := starts_at_most_once { actions := ["acquire"] } everyTen (by decide)
    (upToAction 0 ++ .crash :: upToAction 10) t (by decide) ht
  refine ⟨t, ht, htimes, hids (along_append.mpr ⟨?_, fun s _ => ⟨trivial, fun s' _ => ?_⟩⟩)⟩
  · exact along_replicate (fun _ => trivial) 13 _
  · exact along_replicate (fun _ => trivial) 13 s'

end Scheduler

end ScosSensor
