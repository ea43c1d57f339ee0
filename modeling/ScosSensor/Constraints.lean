import ScosSensor.EntryDeletion
import ScosSensor.OwnResults

/-!
# The constraints of the tables over runs

The database enforces unique keys and references, but the program relies on more:
a finalization saves under a row id that it has held since its task was created,
and inserts the row again when it is gone. Row ids are handed out once, so such a
save never hits the row of another task, and every table stays as the models
declare it in every run, crashes and API requests included.
-/
namespace ScosSensor

open Runs

namespace Database

variable {db db' : Database} {self : Option ℕ} {tr : TaskResult} {row : ResultRow} {name : String}
  {id : ℕ}

/-- The constraints of all three tables. A recording belongs to a stored result, and a
result has one recording under a recording id. -/
structure Constrained (db : Database) : Prop extends Integrity db where
  data : ∀ a ∈ db.acquisitions, ∃ r ∈ db.results, r.id = a.taskResult
  recordings : db.acquisitions.Nodup

theorem Constrained.unique (h : db.Constrained) : db.ResultsUnique := ⟨h.ids, h.keys, h.fresh⟩

/-- The schedule is written: no name comes twice, and none with results goes. -/
theorem Constrained.of_schedule (h : db.Constrained) {schedule : List ScheduleEntry}
    (hnames : (schedule.map ScheduleEntry.name).Nodup)
    (hkept : ∀ r ∈ db.results, r.scheduleEntry ∈ db.schedule.map ScheduleEntry.name →
      r.scheduleEntry ∈ schedule.map ScheduleEntry.name) :
    ({ db with schedule } : Database).Constrained where
  entries := hnames
  ids := h.ids
  keys := h.keys
  fresh := h.fresh
  references r hr := hkept r hr (h.references r hr)
  data := h.data
  recordings := h.recordings

theorem Constrained.writeRow (h : db.Constrained) {columns : ScheduleEntry → ScheduleEntry}
    (hcolumns : ∀ row, (columns row).name = row.name) (name : String) :
    (db.writeRow name columns).Constrained := by
  have hnames : (db.writeRow name columns).schedule.map ScheduleEntry.name =
      db.schedule.map ScheduleEntry.name := names_writeRow hcolumns name
  refine h.of_schedule ?_ ?_
  · exact hnames.symm ▸ h.entries
  · intro r hr hmem
    exact hnames.symm ▸ hmem

theorem Constrained.append (h : db.Constrained) {e : ScheduleEntry}
    (hnew : db.getEntry e.name = none) :
    ({ db with schedule := db.schedule ++ [e] } : Database).Constrained := by
  refine h.of_schedule (Table.nodup_append_row h.entries (getEntry_eq_none.mp hnew)) ?_
  intro r hr hmem
  rw [List.map_append]
  exact List.mem_append_left _ hmem

theorem Constrained.saveWhole (h : db.Constrained) (e : ScheduleEntry) :
    (db.saveWhole e).Constrained := by
  unfold Database.saveWhole
  split_ifs with hstored
  · have hnames := names_putEntry db e
    refine h.of_schedule ?_ ?_
    · exact hnames.symm ▸ h.entries
    · intro r hr hmem
      exact hnames.symm ▸ hmem
  · exact h.append (by simpa using hstored)

theorem Constrained.removeEntry (h : db.Constrained) (hremove : db.removeEntry name = some db') :
    db'.Constrained := by
  obtain ⟨-, hfree, rfl⟩ := removeEntry_some hremove
  refine h.of_schedule (Table.nodup_remove h.entries) ?_
  intro r hr hmem
  obtain ⟨e, he, hname⟩ := List.mem_map.mp hmem
  refine List.mem_map.mpr ⟨e, Table.mem_remove.mpr ⟨he, ?_⟩, hname⟩
  intro hgone
  have hres : r ∈ db.resultsOf name := mem_resultsOf.mpr ⟨hr, hname.symm.trans hgone⟩
  rw [hfree] at hres
  cases hres

/-- Deleting a result takes its recordings with it. -/
theorem Constrained.deleteResult (h : db.Constrained) (id : ℕ) :
    (db.deleteResult id).Constrained where
  entries := h.entries
  ids := h.ids.sublist (List.filter_sublist.map _)
  keys := h.keys.sublist (List.filter_sublist.map _)
  fresh r hr := h.fresh r (mem_deleteResult.mp hr).1
  references r hr := h.references r (mem_deleteResult.mp hr).1
  data a ha := by
    obtain ⟨ha, hid⟩ := List.mem_filter.mp ha
    obtain ⟨r, hr, heq⟩ := h.data a ha
    exact ⟨r, mem_deleteResult.mpr ⟨hr, by simpa [heq] using hid⟩, heq⟩
  recordings := h.recordings.filter _

theorem Constrained.removeOldest (h : db.Constrained) (maxDiskUsage : ℤ) (percentUsed : ℚ)
    (name : String) (self : Option ℕ) :
    (db.removeOldest maxDiskUsage percentUsed name self).Constrained := by
  obtain heq | ⟨oldest, -, -, -, -, heq⟩ :=
    removeOldest_cases db maxDiskUsage percentUsed name self
  · rwa [heq]
  · rw [heq]
    exact h.deleteResult oldest.id

/-- An INSERT of a result under a row id that no row has. -/
theorem ResultsUnique.insertRow (h : db.ResultsUnique) (hid : id ∉ db.results.map fun r => r.id)
    (hinsert : db.insertRow id tr = .ok (row, db')) : db'.ResultsUnique := by
  obtain ⟨-, hkey, -, rfl⟩ := insertRow_ok hinsert
  refine ⟨Table.nodup_append_row h.ids hid, Table.nodup_append_row h.keys hkey, ?_⟩
  intro r hr
  rcases List.mem_append.mp hr with hr | hr
  · exact lt_max_of_lt_left (h.fresh r hr)
  · rw [List.mem_singleton.mp hr]
    exact lt_max_of_lt_right (Nat.lt_succ_self id)

/-- A save keeps ids and keys unique when its row id is its own. -/
theorem ResultsUnique.superSave (h : db.ResultsUnique)
    (hsave : db.superSave self tr = .ok (row, db'))
    (hown : ∀ id, self = some id → ∀ m ∈ db.marks, m.2 = id → m.1 = tr.key) :
    db'.ResultsUnique := by
  obtain ⟨hself, hid, -, -⟩ | ⟨⟨-, hid⟩ | ⟨-, hid⟩, hinsert⟩ := superSave_ok hsave
  · obtain ⟨r, hr, heq⟩ := List.mem_map.mp hid
    have hkey : r.key = tr.key := hown row.id hself r.mark (List.mem_map_of_mem hr) heq
    rw [hself, ← show r.id = row.id from heq] at hsave
    exact (savesFor_own h hr hkey hsave).unique
  · refine h.insertRow ?_ hinsert
    rw [hid]
    intro hmem
    obtain ⟨r, hr, heq⟩ := List.mem_map.mp hmem
    exact (h.fresh r hr).ne heq
  · exact h.insertRow hid hinsert

theorem storedIds_subset_superSave (hsave : db.superSave self tr = .ok (row, db')) :
    ∀ r ∈ db.results, ∃ r' ∈ db'.results, r'.id = r.id := by
  intro r hr
  by_cases hid : r.id = row.id
  · exact ⟨row, mem_superSave_self hsave, hid.symm⟩
  · exact ⟨r, (mem_superSave_of_ne hsave hid).mpr hr, rfl⟩

theorem Constrained.superSave (h : db.Constrained)
    (hsave : db.superSave self tr = .ok (row, db'))
    (hown : ∀ id, self = some id → ∀ m ∈ db.marks, m.2 = id → m.1 = tr.key) :
    db'.Constrained := by
  have hunique := h.unique.superSave hsave hown
  have hschedule := superSave_schedule hsave
  have hdata := superSave_acquisitions hsave
  have hreferences : db.References := by
    intro r hr
    exact Table.get?_isSome_iff.mpr (h.references r hr)
  refine ⟨⟨hschedule ▸ h.entries, hunique.ids, hunique.keys, hunique.fresh, ?_⟩, ?_, ?_⟩
  · intro r hr
    rw [hschedule]
    exact Table.get?_isSome_iff.mp (hreferences.superSave hsave hown hr)
  · rw [hdata]
    intro a ha
    obtain ⟨r, hr, heq⟩ := h.data a ha
    obtain ⟨r', hr', heq'⟩ := storedIds_subset_superSave hsave r hr
    exact ⟨r', hr', heq'.trans heq⟩
  · rw [hdata]
    exact h.recordings

theorem Constrained.storeAcquisition (h : db.Constrained) (key : String × ℕ) (recordingId : ℤ) :
    (db.storeAcquisition key recordingId).Constrained := by
  unfold Database.storeAcquisition
  split
  · exact h
  · rename_i r hfind
    split_ifs with hmem
    · exact h
    · refine ⟨⟨h.entries, h.ids, h.keys, h.fresh, h.references⟩, ?_, ?_⟩
      · intro a ha
        rcases List.mem_append.mp ha with ha | ha
        · exact h.data a ha
        · rw [List.mem_singleton.mp ha]
          exact ⟨r, List.mem_of_find?_eq_some hfind, rfl⟩
      · refine List.nodup_append.mpr ⟨h.recordings, List.nodup_singleton _, ?_⟩
        intro a ha b hb heq
        exact hmem (List.mem_singleton.mp hb ▸ heq ▸ ha)

/-- The recording that an action stores is one of the result with the key. -/
theorem mem_storeAcquisition_new {key : String × ℕ} {recordingId : ℤ} {a : Acquisition}
    (h : a ∈ (db.storeAcquisition key recordingId).acquisitions) (hnew : a ∉ db.acquisitions) :
    ∃ r ∈ db.results, r.key = key ∧ r.id = a.taskResult := by
  unfold Database.storeAcquisition at h
  split at h
  · exact absurd h hnew
  · rename_i r hfind
    split_ifs at h
    · exact absurd h hnew
    · rcases List.mem_append.mp h with h | h
      · exact absurd h hnew
      · obtain rfl := List.mem_singleton.mp h
        exact ⟨r, List.mem_of_find?_eq_some hfind, by simpa using List.find?_some hfind, rfl⟩

end Database

/-- The ways in which a step writes the tables. A save under a row id is one of an
open result, for its own task. -/
inductive TableWrite (s : Sys) : Database → Prop
  | none : TableWrite s s.db
  | columns (name : String) (columns : ScheduleEntry → ScheduleEntry)
      (hcolumns : ∀ row, (columns row).name = row.name) :
    TableWrite s (s.db.writeRow name columns)
  | evict (maxDiskUsage : ℤ) (percentUsed : ℚ) (name : String) (self : Option ℕ) :
    TableWrite s (s.db.removeOldest maxDiskUsage percentUsed name self)
  | insert (tr : TaskResult) (row : ResultRow) (db : Database)
      (hsave : s.db.superSave none tr = .ok (row, db)) : TableWrite s db
  | save (r : ResultRow) (tr : TaskResult) (row : ResultRow) (db : Database)
      (hopen : r ∈ s.openResults) (hkey : tr.key = r.key)
      (hsave : s.db.superSave (some r.id) tr = .ok (row, db)) : TableWrite s db
  | record (key : String × ℕ) (recordingId : ℤ) :
    TableWrite s (s.db.storeAcquisition key recordingId)
  | append (e : ScheduleEntry) (hnew : s.db.getEntry e.name = .none) :
    TableWrite s { s.db with schedule := s.db.schedule ++ [e] }
  | whole (e : ScheduleEntry) : TableWrite s (s.db.saveWhole e)
  | removeEntry (name : String) (db : Database) (h : s.db.removeEntry name = some db) :
    TableWrite s db
  | deleteResult (id : ℕ) : TableWrite s (s.db.deleteResult id)

namespace Scheduler

open Runs

variable {cfg : Settings} {s t : Sys} {l : Label} {i : Input}

theorem open_running {r : ResultRow} (h : r ∈ s.pc.running) : r ∈ s.openResults :=
  List.mem_append_left _ h

theorem open_inFlight {f : Finalization} (h : f ∈ s.finalizations) : f.result ∈ s.openResults :=
  List.mem_append_right _ (List.mem_map_of_mem h)

theorem mark_open {r : ResultRow} (h : r ∈ s.openResults) : r.mark ∈ s.marks :=
  List.mem_map_of_mem (List.mem_append_right _ h)

theorem FinalizeMove.tableWrite {f : Finalization} {w : World} {next : Option Finalization}
    (h : FinalizeMove cfg i f s.toWorld next w) (hopen : f.result ∈ s.openResults) :
    TableWrite s w.db := by
  obtain hdb | hdb | ⟨row, hsave⟩ := h.db
  · exact hdb ▸ .none
  · exact hdb ▸ .evict _ _ _ _
  · exact .save f.result f.result.toTaskResult row w.db hopen rfl hsave

theorem schedMove_tableWrite (h : SchedMove cfg i s t) : TableWrite s t.db := by
  have hrunning {f : Finalization} {tasks : List PendingTask} (hpc : s.pc = .finalizing f tasks) :
      f.result ∈ s.openResults := open_running (hpc ▸ List.mem_singleton_self f.result)
  cases h with
  | reset e todo last hpc => exact .columns _ _ fun _ => rfl
  | take e todo queue hpc => exact .columns _ _ fun _ => rfl
  | cancel taskTime e todo queue hpc => exact .columns _ _ fun _ => rfl
  | number taskTime e todo queue hpc => exact .columns _ _ fun _ => rfl
  | evict task tasks hpc => exact .evict _ _ _ _
  | create task tasks result db hpc hsave => exact .insert _ result db hsave
  | finalize f f' tasks w hpc hmove => exact hmove.tableWrite (hrunning hpc)
  | finalized f tasks w hpc hmove => exact hmove.tableWrite (hrunning hpc)
  | finalizeRaise f tasks err w hpc hraise =>
    show TableWrite s w.db
    exact hraise.frame.1 ▸ .none
  | _ => exact .none

theorem step_tableWrite (h : step cfg s l = some t) : TableWrite s t.db := by
  cases step_cases h with
  | sched i s' hmove => exact schedMove_tableWrite hmove
  | finalizer k i f f' w hf hmove => exact hmove.tableWrite (open_inFlight (List.mem_of_getElem? hf))
  | finalizerEnd k i f w hf hmove => exact hmove.tableWrite (open_inFlight (List.mem_of_getElem? hf))
  | finalizerRaise k i f err w hf hraise =>
    show TableWrite s w.db
    exact hraise.frame.1 ▸ .none
  | measure recordingId task => exact .record task.key recordingId
  | post name owner action body now haction hnew => exact .append _ hnew
  | write k now q => exact .whole _
  | deleteEntry name db hremove => exact .removeEntry name db hremove
  | deleteResult id => exact .deleteResult id
  | _ => exact .none

/-- Every table is as declared, and a row id in use is that of one task. -/
structure Bound (s : Sys) : Prop where
  tables : s.db.Constrained
  rows : RowsFresh s
  unique : ∀ a ∈ s.marks, ∀ b ∈ s.marks, a.2 = b.2 → a.1 = b.1

theorem Bound.tables_step (hs : Bound s) (h : step cfg s l = some t) : t.db.Constrained := by
  have hwrite := step_tableWrite h
  generalize t.db = db at hwrite ⊢
  cases hwrite with
  | none => exact hs.tables
  | columns name columns hcolumns => exact hs.tables.writeRow hcolumns name
  | evict maxDiskUsage percentUsed name self => exact hs.tables.removeOldest _ _ name self
  | insert tr row _ hsave => exact hs.tables.superSave hsave fun id hid => nomatch hid
  | save r tr row _ hopen hkey hsave =>
    refine hs.tables.superSave hsave ?_
    intro id hid m hm heq
    obtain rfl := Option.some.inj hid
    rw [hkey]
    exact hs.unique m (marks_stored_subset s m hm) r.mark (mark_open hopen) heq
  | record key recordingId => exact hs.tables.storeAcquisition key recordingId
  | append e hnew => exact hs.tables.append hnew
  | whole e => exact hs.tables.saveWhole e
  | removeEntry name _ h => exact hs.tables.removeEntry h
  | deleteResult id => exact hs.tables.deleteResult id

theorem Bound.step (hs : Bound s) (h : step cfg s l = some t) : Bound t := by
  refine ⟨hs.tables_step h, step_rowsFresh hs.rows h, ?_⟩
  obtain hsub | ⟨task, -, hmarks, -⟩ := step_marks h
  · exact fun a ha b hb => hs.unique a (hsub a ha) b (hsub b hb)
  · intro a ha b hb heq
    obtain ha | rfl := hmarks a ha
    · obtain hb | rfl := hmarks b hb
      · exact hs.unique a ha b hb heq
      · exact absurd heq (hs.rows a ha).ne
    · obtain hb | rfl := hmarks b hb
      · exact absurd heq.symm (hs.rows b hb).ne
      · rfl

theorem bound_start {db : Database} (hdb : db.Constrained) : Bound { db := db } := by
  have hstored : ∀ m ∈ Sys.marks { db := db }, ∃ r ∈ db.results, r.mark = m := by
    intro m hm
    obtain hr | ⟨r, hr, -⟩ | ⟨f, hf, -⟩ := mem_marks.mp hm
    · exact hr
    · cases hr
    · cases hf
  refine ⟨hdb, ?_, ?_⟩
  · intro m hm
    obtain ⟨r, hr, rfl⟩ := hstored m hm
    exact hdb.fresh r hr
  · intro a ha b hb heq
    obtain ⟨r, hr, rfl⟩ := hstored a ha
    obtain ⟨r', hr', rfl⟩ := hstored b hb
    rw [List.inj_on_of_nodup_map hdb.ids hr hr' heq]

theorem bound_run {db : Database} (hdb : db.Constrained) {ls : List Label}
    (hrun : exec (step cfg) { db := db } ls = some t) : Bound t :=
  exec_invariant (fun _ _ _ hs _ h => hs.step h) (bound_start hdb)
    (Along.of_forall (fun _ _ => trivial) _ ls) hrun

/-- Row ids are not given again: a mark of the end was one of the beginning, or its
row id was still to come there. -/
theorem marks_since {u : Sys} {ls : List Label} (hrun : exec (step cfg) s ls = some u) :
    s.db.nextId ≤ u.db.nextId ∧ ∀ m ∈ u.marks, m ∈ s.marks ∨ s.db.nextId ≤ m.2 := by
  have hstep : ∀ s l t, True → True → step cfg s l = some t →
      s.db.nextId ≤ t.db.nextId ∧ ∀ m ∈ t.marks, m ∈ s.marks ∨ s.db.nextId ≤ m.2 := by
    intro s l t _ _ h
    refine ⟨(step_onward h).1, ?_⟩
    intro m hm
    obtain hsub | ⟨task, -, hmarks, -⟩ := step_marks h
    · exact .inl (hsub m hm)
    · obtain hold | rfl := hmarks m hm
      · exact .inl hold
      · exact .inr le_rfl
  refine exec_relation (I := fun _ => True) (fun s => ⟨le_rfl, fun m hm => .inl hm⟩) ?_
    (fun _ _ _ _ _ _ => trivial) hstep trivial (Along.of_forall (fun _ _ => trivial) s ls) hrun
  rintro s t u ⟨hst, hmarks⟩ ⟨htu, hmarks'⟩
  refine ⟨hst.trans htu, ?_⟩
  intro m hm
  obtain hold | hnew := hmarks' m hm
  · exact hmarks m hold
  · exact .inr (hst.trans hnew)

theorem constrained_oneDue : oneDue.Constrained :=
  ⟨⟨by decide, by decide, by decide, by decide, by decide⟩, by decide, by decide⟩

/-- The tables keep their constraints in every run, whatever crashes, requests and
finalizations come between the steps. -/
theorem constraints_kept (cfg : Settings) (db : Database) (hdb : db.Constrained)
    (ls : List Label) (t : Sys) (hrun : exec (step cfg) { db := db } ls = some t) :
    t.db.Constrained :=
  (bound_run hdb hrun).tables

/-- A result is deleted while its action runs. -/
def deletedWhileOpen : List Label :=
  List.replicate 13 (.sched {}) ++ [.measure 1, .deleteResult 1]

/-- The finalization stores the result again, under the row id that it had. -/
theorem constraints_kept_stored_again :
    ∃ t, exec (step inThread) { db := oneDue } (deletedWhileOpen ++ List.replicate 3 (.sched {})) =
      some t ∧ t.db.results.map ResultRow.mark = [(("sweep", 1), 1)] ∧ t.db.Constrained := by
  have hend : (exec (step inThread) { db := oneDue }
      (deletedWhileOpen ++ List.replicate 3 (.sched {}))).map
        (fun t => t.db.results.map ResultRow.mark) = some [(("sweep", 1), 1)] := by decide
  obtain ⟨t, ht, hmarks⟩ := Option.map_eq_some_iff.mp hend
  exact ⟨t, ht, hmarks, constraints_kept inThread oneDue constrained_oneDue _ t ht⟩

/-- A recording is found with the result of the task that made it and with no other,
in every later state of every run. -/
theorem recordings_of_own_task (cfg : Settings) (db : Database) (hdb : db.Constrained)
    (ls ms : List Label) (s s' u : Sys) (hrun : exec (step cfg) { db := db } ls = some s)
    (task : PendingTask) (result : ResultRow) (started : ℤ) (tasks : List PendingTask)
    (hpc : s.pc = .acting task result started tasks) (recordingId : ℤ)
    (hmeasure : step cfg s (.measure recordingId) = some s')
    (hlater : exec (step cfg) s' ms = some u) (a : Acquisition)
    (hmade : a ∈ s'.db.acquisitions) (hnew : a ∉ s.db.acquisitions)
    (hstored : a ∈ u.db.acquisitions) :
    (∃ r ∈ u.db.results, r.key = task.key) ∧
      ∀ r ∈ u.db.results, r.key = task.key ↔ r.id = a.taskResult := by
  have hrest : exec (step cfg) s (.measure recordingId :: ms) = some u :=
    exec_cons.mpr ⟨s', hmeasure, hlater⟩
  have hwhole : exec (step cfg) { db := db } (ls ++ .measure recordingId :: ms) = some u :=
    exec_append.mpr ⟨s, hrun, hrest⟩
  have hs := bound_run hdb hrun
  have hu := bound_run hdb hwhole
  have hown : ∃ r ∈ s.db.results, r.key = task.key ∧ r.id = a.taskResult := by
    cases step_cases hmeasure with
    | measure recordingId task' result' started' tasks' hpc' =>
      obtain ⟨rfl, -⟩ := Pc.acting.inj (hpc.symm.trans hpc')
      exact Database.mem_storeAcquisition_new hmade hnew
  obtain ⟨own, hown, hkey, hid⟩ := hown
  have honly : ∀ r ∈ u.db.results, r.id = a.taskResult → r.key = task.key := by
    intro r hr hrid
    obtain hold | hlate := (marks_since hrest).2 r.mark (mark_stored hr)
    · rw [← hkey]
      exact hs.unique r.mark hold own.mark (mark_stored hown) (hrid.trans hid.symm)
    · have hfresh := hs.tables.fresh own hown
      have hsame : r.mark.2 = own.id := hrid.trans hid.symm
      omega
  obtain ⟨r, hr, hrid⟩ := hu.tables.data a hstored
  refine ⟨⟨r, hr, honly r hr hrid⟩, fun r' hr' => ⟨?_, honly r' hr'⟩⟩
  intro hkey'
  rw [List.inj_on_of_nodup_map hu.tables.keys hr' hr (hkey'.trans (honly r hr hrid).symm), hrid]

/-- The action of the only task records once, and its result is finished. -/
theorem recordings_of_own_task_finished :
    ∃ s s' u, exec (step inThread) { db := oneDue } (List.replicate 13 (.sched {})) = some s ∧
      step inThread s (.measure 1) = some s' ∧
      exec (step inThread) s' (List.replicate 4 (.sched {})) = some u ∧
      (∃ r ∈ u.db.results, r.key = ("sweep", 1)) ∧
      ∀ r ∈ u.db.results, r.key = ("sweep", 1) ↔ r.id = 1 := by
  have hend : ((exec (step inThread) { db := oneDue } (List.replicate 13 (.sched {}))).bind fun s =>
      (step inThread s (.measure 1)).bind fun s' =>
        (exec (step inThread) s' (List.replicate 4 (.sched {}))).map fun u =>
          (s.pc, s.db.acquisitions, s'.db.acquisitions, u.db.acquisitions)) =
      some (.acting ⟨0, 10, "acquire", "sweep", 1⟩ ⟨{ scheduleEntry := "sweep", taskId := 1 }, 1⟩ 0 [],
        [], [⟨1, 1⟩], [⟨1, 1⟩]) := by decide
  obtain ⟨s, hs, hend⟩ := Option.bind_eq_some_iff.mp hend
  obtain ⟨s', hs', hend⟩ := Option.bind_eq_some_iff.mp hend
  obtain ⟨u, hu, hend⟩ := Option.map_eq_some_iff.mp hend
  simp only [Prod.mk.injEq] at hend
  obtain ⟨hpc, hnone, hmade, hkept⟩ := hend
  refine ⟨s, s', u, hs, hs', hu, ?_⟩
  exact recordings_of_own_task inThread oneDue constrained_oneDue _ _ s s' u hs _ _ _ _ hpc 1 hs' hu
    ⟨1, 1⟩ (by simp [hmade]) (by simp [hnone]) (by simp [hkept])

end Scheduler

end ScosSensor
