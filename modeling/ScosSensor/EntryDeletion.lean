import ScosSensor.PassProgress
import ScosSensor.StoredMarks
import ScosSensor.TaskIds

/-!
# Deleting entries during a pass

A stored result protects its entry, but a pass holds instances and tasks of
entries that have no result yet. It reaches for the row of each of them again,
and dies when the row is gone. The rows that it will still reach for are those
it touches; a pass survives exactly the deletions of other entries.
-/
namespace ScosSensor

open Counters

namespace Pc

/-- The instances that are still to be saved: an entry without a due time and
with times left has been saved for the last time in this pass. -/
def toWrite : Pc → List ScheduleEntry
  | .completing none e todo _ => if e.hasRemainingTimes then todo else e :: todo
  | pc => pc.held

/-- The entries whose rows the pass will still reach for. The entry of the task
that is being executed has a stored result. -/
def touched (pc : Pc) : List String :=
  pc.toWrite.map ScheduleEntry.name ++ pc.waiting.map Task.scheduleEntryName

theorem toWrite_subset (pc : Pc) : ∀ e ∈ pc.toWrite, e ∈ pc.held := by
  intro e he
  unfold toWrite at he
  split at he
  · split_ifs at he
    · exact List.mem_cons_of_mem _ he
    · exact he
  · exact he

theorem waiting_touched {pc : Pc} {task : PendingTask} (h : task ∈ pc.waiting) :
    task.scheduleEntryName ∈ pc.touched := List.mem_append_right _ (List.mem_map_of_mem h)

theorem touched_subset (pc : Pc) : ∀ name ∈ pc.touched, name ∈ pc.liveNames := by
  intro name hname
  unfold liveNames
  rcases List.mem_append.mp hname with hname | hname
  · obtain ⟨e, he, rfl⟩ := List.mem_map.mp hname
    exact List.mem_append_left _ (List.mem_append_left _ (List.mem_map_of_mem (pc.toWrite_subset e he)))
  · exact List.mem_append_left _ (List.mem_append_right _ hname)

theorem mem_touched_completing {taskTime : Option ℤ} {e : ScheduleEntry} {todo : List ScheduleEntry}
    {queue : TaskQueue ℕ} {name : String} (h : name ≠ e.name) :
    name ∈ (completing taskTime e todo queue).touched ↔ name ∈ (taking todo queue).touched := by
  cases taskTime with
  | none =>
    by_cases hleft : e.hasRemainingTimes
    · simp [touched, toWrite, held, waiting, hleft]
    · simp [touched, toWrite, held, waiting, hleft, h]
  | some taskTime => simp [touched, toWrite, held, waiting, h]

theorem mem_touched_settled {taskTime : Option ℤ} {e : ScheduleEntry} {todo : List ScheduleEntry}
    {queue : TaskQueue ℕ} {name : String} (h : name ≠ e.name) :
    name ∈ (settled taskTime e todo queue).touched ↔ name ∈ (taking todo queue).touched := by
  cases taskTime with
  | none => rfl
  | some taskTime => simp [settled, touched, toWrite, held, waiting, h]

end Pc

def EnvInt.isNumber : EnvInt → Bool
  | .int _ => true
  | .str _ => false

namespace Database

variable {db db' : Database} {self : Option ℕ} {tr : TaskResult} {row : ResultRow}

/-- Behind every stored result there is a stored entry. -/
def References (db : Database) : Prop := ∀ r ∈ db.results, (db.getEntry r.scheduleEntry).isSome

/-- A save leaves only results of stored entries. -/
theorem References.superSave (hs : db.References) (h : db.superSave self tr = .ok (row, db'))
    (hown : ∀ id, self = some id → ∀ m ∈ db.marks, m.2 = id → m.1 = tr.key) {r : ResultRow}
    (hr : r ∈ db'.results) : (db.getEntry r.scheduleEntry).isSome := by
  obtain hold | rfl := mem_of_mem_superSave h hr
  · exact hs r hold
  · have hname : r.scheduleEntry = tr.scheduleEntry := congrArg Prod.fst (superSave_key h)
    rw [hname]
    obtain ⟨hself, hid, -, -⟩ | ⟨-, hinsert⟩ := superSave_ok h
    · obtain ⟨a, ha, haid⟩ := List.mem_map.mp hid
      have hkey : a.key = tr.key := hown r.id hself a.mark (List.mem_map_of_mem ha) haid
      rw [← show a.scheduleEntry = tr.scheduleEntry from congrArg Prod.fst hkey]
      exact hs a ha
    · exact (insertRow_ok hinsert).2.2.1

end Database

namespace Scheduler

open Runs

variable {cfg : Settings} {s t : Sys} {l : Label} {i : Input} {err : Exc}

/-- The steps of the process, of `stop`, and DELETE requests for entries. -/
def DeletesOnly : Label → Prop
  | .sched _ => True
  | .finalizer _ _ => True
  | .measure _ => True
  | .stop => True
  | .deleteEntry _ => True
  | _ => False

instance : DecidablePred DeletesOnly
  | .sched _ => .isTrue trivial
  | .finalizer _ _ => .isTrue trivial
  | .measure _ => .isTrue trivial
  | .stop => .isTrue trivial
  | .deleteEntry _ => .isTrue trivial
  | .crash => .isFalse id
  | .post _ _ _ _ => .isFalse id
  | .read _ _ => .isFalse id
  | .write _ _ => .isFalse id
  | .deleteResult _ => .isFalse id

/-- The rows that the next step loads have known actions and timestamps that can
be serialized, an exception of the action that ends has a text, a detail that is
saved can be stored, and the limit that is compared with is a number. -/
def sound (cfg : Settings) (i : Input) (s : Sys) : Bool :=
  match s.pc with
  | .starting => s.db.activeEntries.all cfg.loads
  | .reading => s.db.activeEntries.all cfg.loads
  | .consuming (task :: _) => (s.db.getEntry task.scheduleEntryName).all cfg.loads
  | .calling task _ _ =>
    (s.db.getEntry task.scheduleEntryName).all fun e => cfg.loads e && e.serializable
  | .acting _ _ _ _ => i.action.text.isSome
  | .finalizing f _ =>
    match f.stage with
    | .writing site => decide (site = .response) || f.result.detail.storable
    | .counting => cfg.maxFailures.isNumber
    | _ => true
  | _ => true

/-- A step of a run that the thread survives: no touched entry is deleted. -/
def RunsThrough (cfg : Settings) (s : Sys) : Label → Prop
  | .deleteEntry name => name ∉ s.pc.touched
  | .sched i => sound cfg i s
  | _ => True

instance (cfg : Settings) (s : Sys) : DecidablePred (RunsThrough cfg s)
  | .deleteEntry name => inferInstanceAs (Decidable (name ∉ s.pc.touched))
  | .sched i => inferInstanceAs (Decidable (sound cfg i s = true))
  | .finalizer _ _ => .isTrue trivial
  | .measure _ => .isTrue trivial
  | .stop => .isTrue trivial
  | .crash => .isTrue trivial
  | .post _ _ _ _ => .isTrue trivial
  | .read _ _ => .isTrue trivial
  | .write _ _ => .isTrue trivial
  | .deleteResult _ => .isTrue trivial

/-! ### What the pass touches -/

/-- While the thread lives, a row that is gone stays touched if it was. -/
theorem schedMove_touched (h : SchedMove cfg i s t) (halive : ¬ Dead t) {name : String}
    (hgone : s.db.getEntry name = none) : name ∈ t.pc.touched ↔ name ∈ s.pc.touched := by
  have hne {other : String} (hstored : (s.db.getEntry other).isSome) : name ≠ other := by
    rintro rfl
    rw [hgone] at hstored
    cases hstored
  have hnotActive : name ∉ s.db.activeEntries.map ScheduleEntry.name := by
    intro hmem
    obtain ⟨e, he, rfl⟩ := List.mem_map.mp hmem
    exact Database.getEntry_eq_none.mp hgone (List.mem_map_of_mem (Database.mem_activeEntries.mp he).1)
  cases h with
  | raise err => exact absurd ⟨err, rfl⟩ halive
  | finalizeRaise f tasks err w => exact absurd ⟨err, rfl⟩ halive
  | jump pc hjump =>
    unfold Pc.touched
    rw [List.mem_append, List.mem_append, (hjump.waiting.map _).mem_iff]
    cases hjump <;> simp_all [Pc.toWrite, Pc.held]
  | reset e todo last hpc => simp [hpc, Pc.touched, Pc.toWrite, Pc.held, Pc.waiting]
  | read hpc => simpa [hpc, Pc.touched, Pc.toWrite, Pc.held, Pc.waiting] using hnotActive
  | take e todo queue hpc hstored =>
    have hname : name ≠ (e.takePending i.now).2.name := by
      rw [ScheduleEntry.takePending_name]
      exact hne hstored
    rw [hpc, Pc.mem_touched_completing hname]
    simp [Pc.touched, Pc.toWrite, Pc.held, Pc.waiting, hne hstored]
  | keep taskTime e todo queue hpc hleft =>
    rw [hpc]
    cases taskTime with
    | none => simp [Pc.settled, Pc.touched, Pc.toWrite, Pc.held, Pc.waiting, hleft]
    | some taskTime => simp [Pc.settled, Pc.touched, Pc.toWrite, Pc.held, Pc.waiting]
  | cancel taskTime e todo queue hpc hleft hstored =>
    have hname : name ≠ ({ e with isActive := false } : ScheduleEntry).name := hne hstored
    rw [hpc, Pc.mem_touched_completing (hne hstored), Pc.mem_touched_settled hname]
  | number taskTime e todo queue hpc hstored =>
    have henter := (TaskQueue.enter_perm queue taskTime e.priority e.action e.name
      e.nextTaskId).map Task.scheduleEntryName
    unfold Pc.touched
    simp only [hpc, Pc.toWrite, Pc.held, Pc.waiting, List.mem_append, henter.mem_iff, List.map_cons,
      List.mem_cons, hne hstored, false_or]
  | fetch task tasks e hpc => simp [hpc, Pc.touched, Pc.toWrite, Pc.held, Pc.waiting]
  | evict task tasks hpc => simp [hpc, Pc.touched, Pc.toWrite, Pc.held, Pc.waiting]
  | create task tasks result db hpc hsave =>
    obtain ⟨hself, -⟩ | ⟨-, hinsert⟩ := Database.superSave_ok hsave
    · cases hself
    · have hother := hne (Database.insertRow_ok hinsert).2.2.1
      simp [hpc, Pc.touched, Pc.toWrite, Pc.held, Pc.waiting, hother]
  | call task result tasks hpc => simp [hpc, Pc.touched, Pc.toWrite, Pc.held, Pc.waiting]
  | spawn task result started tasks hpc => simp [hpc, Pc.touched, Pc.toWrite, Pc.held, Pc.waiting]
  | finish task result started tasks hpc => simp [hpc, Pc.touched, Pc.toWrite, Pc.held, Pc.waiting]
  | finalize f f' tasks w hpc => simp [hpc, Pc.touched, Pc.toWrite, Pc.held, Pc.waiting]
  | finalized f tasks w hpc => simp [hpc, Pc.touched, Pc.toWrite, Pc.held, Pc.waiting]

/-- Deletions leave the rows of other entries, and no step brings a row back. -/
theorem step_stored (h : step cfg s l = some t) {name : String} (hl : l ≠ .deleteEntry name)
    (hstored : (s.db.getEntry name).isSome) : (t.db.getEntry name).isSome := by
  have hrow := step_row h name
  generalize t.db.getEntry name = out at hrow ⊢
  cases hrow with
  | same => exact hstored
  | delete hdelete => exact absurd hdelete hl
  | _ => rfl

theorem step_gone (h : step cfg s l = some t) (hl : DeletesOnly l) {name : String}
    (hgone : s.db.getEntry name = none) : t.db.getEntry name = none := by
  have hrow := step_row h name
  generalize t.db.getEntry name = out at hrow ⊢
  cases hrow with
  | same => exact hgone
  | delete => rfl
  | write k now q hdelete => exact absurd hl (by simp [hdelete, DeletesOnly])
  | post owner action body now hdelete => exact absurd hl (by simp [hdelete, DeletesOnly])
  | _ => simp_all

/-! ### What a surviving thread relies on -/

theorem FinalizeMove.references {f : Finalization} {w w' : World} {next : Option Finalization}
    (h : FinalizeMove cfg i f w next w') (hs : w.db.References)
    (hunique : ∀ m ∈ w.db.marks, m.2 = f.result.id → m.1 = f.result.key) {r : ResultRow}
    (hr : r ∈ w'.db.results) : (w.db.getEntry r.scheduleEntry).isSome := by
  obtain hdb | hdb | ⟨row, hsave⟩ := h.db
  · exact hs r (hdb ▸ hr)
  · rw [hdb] at hr
    exact hs r (Database.mem_of_mem_removeOldest hr)
  · refine hs.superSave hsave ?_ hr
    intro id hid m hm heq
    obtain rfl := Option.some.inj hid
    exact hunique m hm heq

/-- The results after a step are of entries that are stored before it. -/
theorem step_results_stored (hs : s.db.References) (hrows : RowOrder s)
    (h : step cfg s l = some t) {r : ResultRow} (hr : r ∈ t.db.results) :
    (s.db.getEntry r.scheduleEntry).isSome := by
  cases step_cases h with
  | sched i s' hmove =>
    cases hmove with
    | evict task tasks hpc => exact hs r (Database.mem_of_mem_removeOldest hr)
    | create task tasks result db hpc hsave =>
      exact hs.superSave hsave (fun id hid => by cases hid) hr
    | finalize f f' tasks w hpc hmove =>
      have hrunning : f.result ∈ s.pc.running := hpc ▸ List.mem_singleton_self f.result
      exact hmove.references hs (unique_inFlight hrows (mark_running hrunning)) hr
    | finalized f tasks w hpc hmove =>
      have hrunning : f.result ∈ s.pc.running := hpc ▸ List.mem_singleton_self f.result
      exact hmove.references hs (unique_inFlight hrows (mark_running hrunning)) hr
    | finalizeRaise f tasks err w hpc hraise => exact hs r (hraise.frame.1 ▸ hr)
    | _ => exact hs r hr
  | finalizer k i f f' w hf hmove =>
    exact hmove.references hs (unique_inFlight hrows (mark_inFlight (List.mem_of_getElem? hf))) hr
  | finalizerEnd k i f w hf hmove =>
    exact hmove.references hs (unique_inFlight hrows (mark_inFlight (List.mem_of_getElem? hf))) hr
  | finalizerRaise k i f err w hf hraise => exact hs r (hraise.frame.1 ▸ hr)
  | measure recordingId =>
    rw [Database.storeAcquisition_results] at hr
    exact hs r hr
  | write k now q hq =>
    unfold Database.saveWhole at hr
    split_ifs at hr <;> exact hs r hr
  | deleteEntry name db hremove =>
    obtain ⟨-, -, rfl⟩ := Database.removeEntry_some hremove
    exact hs r hr
  | deleteResult id hid => exact hs r (Database.mem_deleteResult.mp hr).1
  | _ => exact hs r hr

theorem step_references (hs : s.db.References) (hrows : RowOrder s) (h : step cfg s l = some t) :
    t.db.References := by
  intro r hr
  refine step_stored h ?_ (step_results_stored hs hrows h hr)
  intro hl
  subst hl
  cases step_cases h with
  | deleteEntry name db hremove =>
    obtain ⟨-, hfree, rfl⟩ := Database.removeEntry_some hremove
    have hmem : r ∈ s.db.resultsOf r.scheduleEntry := Database.mem_resultsOf.mpr ⟨hr, rfl⟩
    rw [hfree] at hmem
    cases hmem

/-- A thread that survives: it has the rows that it touches, and the tasks that
were queued are completed or still to be. -/
structure Healthy (cfg : Settings) (s : Sys) : Prop where
  names : NamesUnique s.db
  restarted : Restarted s
  numbered : Numbered s.usedIds s
  past : CountersPast s.usedIds s
  rows : RowOrder s
  calls : CallsStored s
  thread : InThread cfg s
  references : s.db.References
  entry : CurrentEntry s
  touched : ∀ name ∈ s.pc.touched, (s.db.getEntry name).isSome
  alive : ¬ Dead s
  queued : Owed ((queuedTasks s.history).map Prod.snd) s

theorem Healthy.not_gone (hs : Healthy cfg s) {name : String} (hname : name ∈ s.pc.touched) :
    s.db.getEntry name ≠ none := by
  have hstored := hs.touched name hname
  intro hgone
  rw [hgone] at hstored
  cases hstored

theorem loadEntry_error_iff {db : Database} {name : String} :
    (∃ err, loadEntry cfg db name = .error err) ↔
      db.getEntry name = none ∨ ¬ (db.getEntry name).all cfg.loads := by
  unfold loadEntry
  cases hrow : db.getEntry name with
  | none => simp
  | some e => by_cases hload : cfg.loads e <;> simp [hload]

theorem serializeEntry_error_iff {db : Database} {name : String} :
    (∃ err, serializeEntry cfg db name = .error err) ↔
      db.getEntry name = none ∨ ¬ (db.getEntry name).all fun e => cfg.loads e && e.serializable := by
  unfold serializeEntry loadEntry
  cases hrow : db.getEntry name with
  | none => simp [bind, Except.bind]
  | some e =>
    by_cases hload : cfg.loads e
    · by_cases hserializable : e.serializable
      · simp [bind, Except.bind, pure, Except.pure, hload, hserializable]
      · simp [bind, Except.bind, throw, throwThe, MonadExceptOf.throw, hload, hserializable]
    · simp [bind, Except.bind, hload]

/-- A healthy thread meets no missing row, so a sound step raises nothing. -/
theorem Healthy.not_raises (hs : Healthy cfg s) (hsound : sound cfg i s = true) : ¬ Raises cfg i s err := by
  unfold sound at hsound
  intro hraise
  cases hraise with
  | load hpc hload =>
    rcases hpc with hpc | hpc <;> exact hload (by simpa [hpc] using hsound)
  | reset e todo hpc hlast hgone =>
    obtain ⟨last, hlast⟩ := Option.isSome_iff_exists.mp hlast
    obtain ⟨hstored, hname⟩ := Database.mem_resultsOf.mp (Database.lastResult?_mem hlast)
    have hrow := hs.references last hstored
    rw [hname, hgone] at hrow
    cases hrow
  | take e todo queue hpc hgone =>
    refine hs.not_gone ?_ hgone
    simp [hpc, Pc.touched, Pc.toWrite, Pc.held]
  | cancel taskTime e todo queue hpc hleft hgone =>
    refine hs.not_gone ?_ hgone
    cases taskTime <;> simp [hpc, Pc.touched, Pc.toWrite, Pc.held, hleft]
  | number taskTime e todo queue hpc hgone =>
    refine hs.not_gone ?_ hgone
    simp [hpc, Pc.touched, Pc.toWrite, Pc.held]
  | fetch task tasks err hpc hload =>
    rw [hpc] at hsound
    obtain hgone | hnot := loadEntry_error_iff.mp ⟨err, hload⟩
    · exact hs.not_gone (Pc.waiting_touched (by rw [hpc]; exact List.mem_cons_self)) hgone
    · exact hnot hsound
  | create task tasks err hpc hsave =>
    have hwaiting : task ∈ s.pc.waiting := by
      rw [hpc]
      exact List.mem_cons_self
    obtain ⟨hused, -⟩ | ⟨hgone, -⟩ := Database.superSave_new_error rfl hsave
    · obtain ⟨r, hr, hkey⟩ := List.mem_map.mp hused
      have hmem : task.key ∈ s.usedIds := by
        rw [← show r.key = task.key from hkey]
        exact key_used (mark_stored hr)
      exact (hs.numbered.waiting task hwaiting).notMem hmem
    · exact hs.not_gone (Pc.waiting_touched hwaiting) hgone
  | call task result tasks err hpc hserialize =>
    rw [hpc] at hsound
    obtain hgone | hnot := serializeEntry_error_iff.mp ⟨err, hserialize⟩
    · have hcalled := hs.calls task result tasks hpc
      obtain ⟨r, hr, hmark⟩ := List.mem_map.mp hcalled.stored
      have hname : r.scheduleEntry = task.scheduleEntryName :=
        congrArg Prod.fst ((congrArg Prod.fst hmark).trans hcalled.key)
      have hrow := hs.references r hr
      rw [hname, hgone] at hrow
      cases hrow
    · exact hnot hsound
  | act task result started tasks err hpc hcall =>
    rw [hpc] at hsound
    have hnot := ActionOutcome.statusAndDetail_error_iff.mp ⟨err, hcall⟩
    exact absurd hsound (by simp [hnot])

/-- Nor does a finalization in the thread. -/
theorem Healthy.not_finalizeRaise (hs : Healthy cfg s) (hsound : sound cfg i s = true) {f : Finalization}
    {tasks : List PendingTask} {w : World} (hpc : s.pc = .finalizing f tasks) :
    ¬ FinalizeRaise cfg f s.toWorld err w := by
  have hsync := hs.thread.finalizing f tasks hpc
  have hrunning : f.result ∈ s.pc.running := hpc ▸ List.mem_singleton_self f.result
  intro hraise
  cases hraise with
  | write site err hstage hsite hsave =>
    obtain ⟨r, hr, hmark⟩ := List.mem_map.mp (hs.thread.stored hsync f.result hrunning)
    have hid : r.id = f.result.id := congrArg Prod.snd hmark
    have hdetail : f.result.detail.storable = true := by
      simpa [sound, hpc, hstage, hsite] using hsound
    rw [← hid, Database.superSave_own hr hdetail] at hsave
    cases hsave
  | noEntry hstage hentry =>
    obtain ⟨e, he, -⟩ := hs.entry f.result.scheduleEntry (by rw [hpc]; rfl)
    rw [hentry] at he
    cases he
  | count w' err hstage hcount =>
    unfold countFailures at hcount
    cases hmax : cfg.maxFailures with
    | int n => simp [hmax] at hcount
    | str text => simp [sound, hpc, hstage, hmax, EnvInt.isNumber] at hsound

/-- The thread dies of an exception and of nothing else. -/
theorem dies_of_raise (hs : ¬ Dead s) (hl : DeletesOnly l) (h : step cfg s l = some t) (hdead : Dead t) :
    ∃ i, l = .sched i ∧ ((∃ err, Raises cfg i s err) ∨
      ∃ f tasks err w, s.pc = .finalizing f tasks ∧ FinalizeRaise cfg f s.toWorld err w) := by
  obtain ⟨err, hend⟩ := hdead
  cases step_cases h with
  | sched i s' hmove =>
    refine ⟨i, rfl, ?_⟩
    cases hmove with
    | raise err hraise => exact .inl ⟨err, hraise⟩
    | finalizeRaise f tasks err w hpc hraise => exact .inr ⟨f, tasks, err, w, hpc, hraise⟩
    | jump pc hjump => cases hjump <;> cases hend
    | keep taskTime | cancel taskTime => cases taskTime <;> cases hend
    | _ => cases hend
  | crash => exact hl.elim
  | _ => exact absurd ⟨err, hend⟩ hs

theorem Healthy.alive_step (hs : Healthy cfg s) (hl : DeletesOnly l) (hok : RunsThrough cfg s l)
    (h : step cfg s l = some t) : ¬ Dead t := by
  intro hdead
  obtain ⟨i, rfl, ⟨err, hraise⟩ | ⟨f, tasks, err, w, hpc, hraise⟩⟩ := dies_of_raise hs.alive hl h hdead
  · exact hs.not_raises hok hraise
  · exact hs.not_finalizeRaise hok hpc hraise

/-- The rows that the pass touches stay, for only a deletion can remove them. -/
theorem Healthy.touched_step (hs : Healthy cfg s) (hl : DeletesOnly l) (hok : RunsThrough cfg s l)
    (h : step cfg s l = some t) : ∀ name ∈ t.pc.touched, (t.db.getEntry name).isSome := by
  have halive := hs.alive_step hl hok h
  intro name hname
  by_cases hdelete : l = .deleteEntry name
  · subst hdelete
    have hpc : t.pc = s.pc := step_pc h (by simp) rfl
    exact absurd (hpc ▸ hname) hok
  · refine step_stored h hdelete ?_
    by_contra hgone
    have hnone : s.db.getEntry name = none := by simpa using hgone
    cases step_cases h with
    | sched i s' hmove => exact hs.not_gone ((schedMove_touched hmove halive hnone).mp hname) hnone
    | crash => exact hl.elim
    | _ => exact hs.not_gone hname hnone

theorem Healthy.step (hs : Healthy cfg s) (hl : DeletesOnly l) (hok : RunsThrough cfg s l)
    (h : step cfg s l = some t) : Healthy cfg t := by
  have halive := hs.alive_step hl hok h
  have hused := step_usedIds h
  have hkept : ∀ id, l ≠ .deleteResult id := by
    rintro id rfl
    exact hl
  have hread : s.pc = .reading → Below s.db.nextTaskIds s.usedIds :=
    fun _ => hs.past.subset fun x hx => List.mem_append_left _ hx
  have hkeeps : KeepsCounters s.usedIds s l := by
    refine ⟨fun e todo last => hs.restarted.reset, ?_, ?_⟩
    · rintro k now q rfl
      exact hl.elim
    · rintro name owner body now rfl
      exact hl.elim
  refine ⟨step_names hs.names h, step_restarted hs.restarted h, hs.numbered.step hs.names hread hused h,
    hs.past.step hs.numbered hkeeps hused h, step_rowOrder hs.rows hs.numbered.waiting h,
    step_callsStored hs.calls hs.rows hkept h, step_inThread hs.thread hs.rows hkept h,
    step_references hs.references hs.rows h, step_currentEntry hs.entry h,
    hs.touched_step hl hok h, halive, ?_⟩
  have hcarries : Carries s t := by
    refine step_carries h ?_ halive
    rintro rfl
    exact hl
  intro task htask
  obtain ⟨x, hx, rfl⟩ := List.mem_map.mp htask
  obtain hold | hnew := hcarries.queued x hx
  · exact hs.queued.step hcarries x.2 (List.mem_map_of_mem hold)
  · exact .inr hnew

/-- A process that starts on entries without results. -/
theorem healthy_start (cfg : Settings) {rows : List ScheduleEntry}
    (hnames : (rows.map ScheduleEntry.name).Nodup) : Healthy cfg { db := { schedule := rows } } := by
  refine ⟨hnames, fun _ => rfl, numbered_start _ _, ?_, rowOrder_start rows, callsStored_start _,
    inThread_start cfg _, ?_, ?_, ?_, ?_, ?_⟩
  · intro x hx
    cases hx
  · intro r hr
    cases hr
  · intro name hname
    cases hname
  · intro name hname
    cases hname
  · intro hdead
    obtain ⟨err, hpc⟩ := hdead
    cases hpc
  · intro x hx
    cases hx

/-! ### What a lost thread never regains -/

/-- The pass will reach for a row that is gone. -/
def Doomed (s : Sys) : Prop := ∃ name ∈ s.pc.touched, s.db.getEntry name = none

theorem step_lost (hs : Doomed s ∨ Dead s) (hl : DeletesOnly l) (h : step cfg s l = some t) :
    Doomed t ∨ Dead t := by
  by_cases halive : Dead t
  · exact .inr halive
  · left
    obtain ⟨name, hname, hgone⟩ | ⟨err, hpc⟩ := hs
    · refine ⟨name, ?_, step_gone h hl hgone⟩
      cases step_cases h with
      | sched i s' hmove => exact (schedMove_touched hmove halive hgone).mpr hname
      | crash => exact hl.elim
      | _ => exact hname
    · refine absurd ⟨err, ?_⟩ halive
      cases step_cases h with
      | sched i =>
        simp [step, schedStep, hpc] at h
      | crash => exact hl.elim
      | _ => exact hpc

/-- A step that is not sound kills the thread. -/
theorem dead_of_not_sound (hnot : ¬ sound cfg i s = true) (h : step cfg s (.sched i) = some t) : Dead t := by
  have hdies {err : Exc} {s' : Sys} (hs' : s' = s.fail err) : Dead s' := ⟨err, congrArg Sys.pc hs'⟩
  have hstep : schedStep cfg i s = some t := h
  unfold sound at hnot
  unfold schedStep at hstep
  split at hnot
  case h_1 hpc | h_2 hpc =>
    rw [hpc] at hstep
    simp only [loadSchedule, if_neg hnot, Sys.orFail, Option.some.injEq] at hstep
    exact hdies hstep.symm
  case h_3 task tasks hpc =>
    obtain ⟨err, hload⟩ := loadEntry_error_iff.mpr (.inr hnot)
    rw [hpc] at hstep
    simp only [hload, Sys.orFail, Option.some.injEq] at hstep
    exact hdies hstep.symm
  case h_4 task result tasks hpc =>
    obtain ⟨err, hserialize⟩ := serializeEntry_error_iff.mpr (.inr hnot)
    rw [hpc] at hstep
    simp only [hserialize, Sys.orFail, Option.some.injEq] at hstep
    exact hdies hstep.symm
  case h_5 task result started tasks hpc =>
    obtain ⟨err, hcall⟩ := ActionOutcome.statusAndDetail_error_iff.mpr (Bool.not_eq_true _ ▸ hnot)
    rw [hpc] at hstep
    simp only [hcall, Sys.orFail, Option.some.injEq] at hstep
    exact hdies hstep.symm
  case h_6 f tasks hpc =>
    rw [hpc] at hstep
    split at hnot
    · rename_i site hstage
      obtain ⟨hsite, hdetail⟩ : site ≠ .response ∧ ¬ f.result.detail.storable = true := by
        simpa using hnot
      simp only [finalizeStep, hstage, Database.superSave, if_neg hdetail, if_neg hsite, Sys.orFail,
        Option.some.injEq] at hstep
      rw [← hstep]
      exact ⟨.valueError, rfl⟩
    · rename_i hstage
      obtain ⟨text, hmax⟩ : ∃ text, cfg.maxFailures = .str text := by
        cases hmax : cfg.maxFailures <;> simp_all [EnvInt.isNumber]
      simp only [finalizeStep, hstage, countFailures, hmax, Sys.orFail, Option.some.injEq] at hstep
      rw [← hstep]
      exact ⟨.typeError, rfl⟩
    · exact absurd rfl hnot
  case h_7 => exact absurd rfl hnot

theorem lost_of_violation (hl : DeletesOnly l) (hnot : ¬ RunsThrough cfg s l)
    (h : step cfg s l = some t) : Doomed t ∨ Dead t := by
  cases l with
  | sched i => exact .inr (dead_of_not_sound hnot h)
  | deleteEntry name =>
    left
    cases step_cases h with
    | deleteEntry name db hremove =>
      refine ⟨name, not_not.mp hnot, ?_⟩
      simp [Database.getEntry_removeEntry hremove]
  | finalizer | measure | stop => exact absurd trivial hnot
  | crash | post | read | write | deleteResult => exact hl.elim

/-- The thread is alive, and every task that was queued is executed or still has
its turn. -/
structure Survived (s : Sys) : Prop where
  alive : ¬ Dead s
  queued : Owed ((queuedTasks s.history).map Prod.snd) s

/-- In every run on a set of entries, with any DELETE requests between the steps,
the thread survives when no entry is deleted that its pass still touches, and
then it executes every queued task within the steps that its pass has left. When
no pass is under way in the end, it has survived in no other case. -/
theorem deletions_survived_iff (cfg : Settings) (rows : List ScheduleEntry)
    (hnames : (rows.map ScheduleEntry.name).Nodup) (ls : List Label) (t : Sys)
    (hls : ∀ l ∈ ls, DeletesOnly l)
    (hrun : exec (step cfg) { db := { schedule := rows } } ls = some t) :
    (Along (step cfg) (RunsThrough cfg) { db := { schedule := rows } } ls →
      Survived t ∧ ∀ ms u, (∀ l ∈ ms, DeletesOnly l) → exec (step cfg) t ms = some u →
        Along (step cfg) (RunsThrough cfg) t ms → t.pc.stepsLeft ≤ ms.countP Label.isSched →
        ∀ x ∈ queuedTasks t.history, x.2 ∈ completedTasks u.history) ∧
      (t.pc.liveNames = [] →
        (Survived t ↔ Along (step cfg) (RunsThrough cfg) { db := { schedule := rows } } ls)) := by
  have hquiet {ms : List Label} {s : Sys} (hms : ∀ l ∈ ms, DeletesOnly l) :
      Along (step cfg) (fun _ l => DeletesOnly l) s ms :=
    Along.of_forall_mem fun l hl _ => hms l hl
  have hstep : ∀ s l s', Healthy cfg s → DeletesOnly l ∧ RunsThrough cfg s l →
      step cfg s l = some s' → Healthy cfg s' := fun s l s' hs hl h => hs.step hl.1 hl.2 h
  have hend (hok : Along (step cfg) (RunsThrough cfg) { db := { schedule := rows } } ls) :
      Healthy cfg t := exec_invariant hstep (healthy_start cfg hnames) ((hquiet hls).and hok) hrun
  have hsurvived (hok : Along (step cfg) (RunsThrough cfg) { db := { schedule := rows } } ls) :
      Survived t := ⟨(hend hok).alive, (hend hok).queued⟩
  refine ⟨fun hok => ⟨hsurvived hok, ?_⟩, fun hlive => ⟨?_, hsurvived⟩⟩
  · intro ms u hms hrun' hok' hcount x hx
    have hcrash : ∀ s l, DeletesOnly l ∧ RunsThrough cfg s l → l ≠ .crash := by
      rintro s l ⟨hl, -⟩ rfl
      exact hl
    exact completes_of_alive hstep (fun s hs => hs.alive) hcrash (hend hok) (hend hok).queued
      ((hquiet hms).and hok') hrun' hcount x.2 (List.mem_map_of_mem hx)
  · intro hs
    refine along_of_not_lost (fun s l s' hl hnot h => lost_of_violation hl hnot h)
      (fun s l s' hlost hl h => step_lost hlost hl h) (hquiet hls) hrun ?_
    rintro (⟨name, hname, -⟩ | hdead)
    · have hmem := t.pc.touched_subset name hname
      rw [hlive] at hmem
      cases hmem
    · exact hs.alive hdead

/-- Three entries that are due at once. -/
def threeDue : List ScheduleEntry :=
  ["first", "second", "third"].map fun name =>
    ⟨name, "acquire", 10, 0, none, none, true, none, 0, 1, "op"⟩

/-- While the action of the first task runs, the second entry is deleted. -/
def deletedInAction : List Label :=
  List.replicate 21 (.sched {}) ++ [.deleteEntry "second", .sched {}, .sched {}]

/-- The lookup of the second entry ends the thread, and the third task is lost. -/
theorem deletion_stops_thread :
    ∃ t, exec (step { actions := ["acquire"] }) { db := { schedule := threeDue } } deletedInAction =
        some t ∧ (∀ l ∈ deletedInAction, DeletesOnly l) ∧ Dead t ∧
      ∃ x ∈ queuedTasks t.history, (t.db.getEntry x.2.scheduleEntryName).isSome ∧
        x.2 ∉ completedTasks t.history ∧ x.2 ∉ t.pc.unfinished := by
  have hend : (exec (step { actions := ["acquire"] }) { db := { schedule := threeDue } }
      deletedInAction).map (fun t => (t.pc, (queuedTasks t.history).any fun x =>
        (t.db.getEntry x.2.scheduleEntryName).isSome && decide (x.2 ∉ completedTasks t.history) &&
          decide (x.2 ∉ t.pc.unfinished))) = some (.dead .doesNotExist, true) := by decide
  obtain ⟨t, ht, hlost⟩ := Option.map_eq_some_iff.mp hend
  obtain ⟨hpc, hany⟩ := Prod.mk.inj hlost
  refine ⟨t, ht, by decide, ⟨_, hpc⟩, ?_⟩
  simpa [and_assoc] using hany

/-- The second entry is deleted before the snapshot of the pass. -/
theorem deletions_survived_before_pass :
    ∃ t, exec (step { actions := ["acquire"] }) { db := { schedule := threeDue } }
        (.deleteEntry "second" :: List.replicate 24 (.sched {})) = some t ∧ Survived t := by
  have hruns : (exec (step { actions := ["acquire"] }) { db := { schedule := threeDue } }
      (.deleteEntry "second" :: List.replicate 24 (.sched {}))).isSome := by decide
  obtain ⟨t, ht⟩ := Option.isSome_iff_exists.mp hruns
  have hiff := deletions_survived_iff { actions := ["acquire"] } threeDue (by decide)
    (.deleteEntry "second" :: List.replicate 24 (.sched {})) t (by decide) ht
  exact ⟨t, ht, (hiff.1 (by decide)).1⟩

end Scheduler

end ScosSensor
