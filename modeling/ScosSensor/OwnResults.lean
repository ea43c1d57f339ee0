import ScosSensor.PendingTasks
import ScosSensor.Results

/-!
# Saves of one entry

A save of a result changes no result of another entry, and leaves the row ids
and the keys unique. An instance whose row is stored is written by an UPDATE,
which meets no constraint. Queueing a pass does not reach the results at all.
-/
namespace ScosSensor

namespace Database

variable {db db' : Database} {name : String} {r row : ResultRow} {tr : TaskResult}
  {key : String × ℕ} {self : Option ℕ}

/-- The row ids and the keys of the results are unique, and the next row id is new. -/
structure ResultsUnique (db : Database) : Prop where
  ids : (db.results.map fun r => r.id).Nodup
  keys : (db.results.map fun r => r.key).Nodup
  fresh : ∀ r ∈ db.results, r.id < db.nextId

/-- Only results of the entry `name` differ. -/
structure SavesFor (name : String) (db db' : Database) : Prop where
  rest : ∀ r : ResultRow, r.scheduleEntry ≠ name → (r ∈ db'.results ↔ r ∈ db.results)
  unique : db'.ResultsUnique

theorem ResultsUnique.of_results (hdb : db.ResultsUnique) (hresults : db'.results = db.results)
    (hnext : db'.nextId = db.nextId) : db'.ResultsUnique := by
  obtain ⟨hids, hkeys, hfresh⟩ := hdb
  exact ⟨hresults ▸ hids, hresults ▸ hkeys, hresults ▸ hnext ▸ hfresh⟩

/-- A key of another entry that has no result gets none. -/
theorem SavesFor.unused (h : SavesFor name db db') (hname : key.1 ≠ name)
    (hunused : key ∉ db.results.map fun r => r.key) : key ∉ db'.results.map fun r => r.key := by
  intro hmem
  obtain ⟨r, hr, rfl⟩ := List.mem_map.mp hmem
  exact hunused (List.mem_map_of_mem ((h.rest r hname).mp hr))

theorem savesFor_removeOldest (hdb : db.ResultsUnique) (maxDiskUsage : ℤ) (percentUsed : ℚ)
    (name : String) (self : Option ℕ) :
    SavesFor name db (db.removeOldest maxDiskUsage percentUsed name self) := by
  obtain heq | ⟨oldest, hold, -, -, -, heq⟩ :=
    removeOldest_cases db maxDiskUsage percentUsed name self
  · rw [heq]
    exact ⟨fun _ _ => .rfl, hdb⟩
  · have hname := (mem_resultsOf.mp (oldest?_mem hold)).2
    have hstored := (mem_resultsOf.mp (oldest?_mem hold)).1
    rw [heq]
    refine ⟨?_, ?_, ?_, ?_⟩
    · intro r hr
      rw [mem_deleteResult, and_iff_left_iff_imp]
      intro hmem hid
      have hsame := Table.eq_of_key_eq hdb.ids hmem hstored hid
      exact hr (hsame ▸ hname)
    · exact hdb.ids.sublist (List.filter_sublist.map _)
    · exact hdb.keys.sublist (List.filter_sublist.map _)
    · intro r hr
      exact hdb.fresh r (mem_deleteResult.mp hr).1

/-- The own row of a save is spared. -/
theorem mem_removeOldest_self (hr : r ∈ db.results) (maxDiskUsage : ℤ)
    (percentUsed : ℚ) (name : String) :
    r ∈ (db.removeOldest maxDiskUsage percentUsed name (some r.id)).results := by
  obtain heq | ⟨oldest, -, hself, -, -, heq⟩ :=
    removeOldest_cases db maxDiskUsage percentUsed name (some r.id)
  · rwa [heq]
  · rw [heq, mem_deleteResult]
    exact ⟨hr, fun hid => hself (congrArg some hid.symm)⟩

theorem savesFor_new (hdb : db.ResultsUnique) (h : db.superSave none tr = .ok (row, db')) :
    SavesFor tr.scheduleEntry db db' := by
  obtain ⟨hid, hresults, hnext, -⟩ := superSave_new h
  have hkey := superSave_key h
  have hunused : row.key ∉ db.results.map fun r => r.key := by
    obtain ⟨hself, -⟩ | ⟨-, hinsert⟩ := superSave_ok h
    · cases hself
    · rw [hkey]
      exact (insertRow_ok hinsert).2.1
  refine ⟨?_, ?_, ?_, ?_⟩
  · intro r hr
    rw [hresults, List.mem_append, List.mem_singleton, or_iff_left]
    intro hrow
    exact hr (hrow ▸ congrArg Prod.fst hkey)
  · rw [hresults]
    apply Table.nodup_append_row hdb.ids
    intro hmem
    obtain ⟨r, hr, heq⟩ := List.mem_map.mp hmem
    have hlt := hdb.fresh r hr
    have heq' : r.id = row.id := heq
    omega
  · rw [hresults]
    exact Table.nodup_append_row hdb.keys hunused
  · intro r hr
    rw [hresults] at hr
    rcases List.mem_append.mp hr with hr | hr
    · have hlt := hdb.fresh r hr
      omega
    · rw [List.mem_singleton.mp hr]
      omega

theorem savesFor_own (hdb : db.ResultsUnique) (hr : r ∈ db.results) (hkey : r.key = tr.key)
    (h : db.superSave (some r.id) tr = .ok (row, db')) : SavesFor tr.scheduleEntry db db' := by
  rw [superSave_own hr (storable_of_superSave h)] at h
  obtain ⟨rfl, rfl⟩ := Prod.mk.inj (Except.ok.inj h)
  have hown : ∀ a ∈ db.results, a.id = r.id → a.key = tr.key := by
    intro a ha hid
    rw [Table.eq_of_key_eq hdb.ids ha hr hid, hkey]
  have hids : (Table.update (fun r : ResultRow => r.id) r.id (fun _ => ⟨tr, r.id⟩) db.results).map
      (fun r => r.id) = db.results.map fun r => r.id := Table.keys_update fun _ _ => rfl
  have hkeys : (Table.update (fun r : ResultRow => r.id) r.id (fun _ => ⟨tr, r.id⟩) db.results).map
      (fun r => r.key) = db.results.map fun r => r.key := by
    unfold Table.update
    rw [List.map_map]
    apply List.map_congr_left
    intro a ha
    simp only [Function.comp_apply]
    split_ifs with hid
    · exact (hown a ha hid).symm
    · rfl
  refine ⟨?_, ?_, ?_, ?_⟩
  · intro a ha
    show a ∈ Table.update (fun r : ResultRow => r.id) r.id (fun _ => ⟨tr, r.id⟩) db.results ↔ _
    rw [Table.mem_update]
    constructor
    · rintro (⟨hold, -⟩ | ⟨b, -, -, rfl⟩)
      · exact hold
      · exact absurd rfl ha
    · intro hold
      refine .inl ⟨hold, fun hid => ha ?_⟩
      exact congrArg Prod.fst (hown a hold hid)
  · rw [hids]
    exact hdb.ids
  · rw [hkeys]
    exact hdb.keys
  · intro a ha
    have hmem : a.id ∈ db.results.map fun r => r.id := by
      rw [← hids]
      exact List.mem_map_of_mem ha
    obtain ⟨b, hb, hid⟩ := List.mem_map.mp hmem
    have hid' : b.id = a.id := hid
    exact hid' ▸ hdb.fresh b hb

end Database

namespace Scheduler

variable {db db' : Database} {now : String → ℤ} {queue : TaskQueue ℕ}

theorem passed_action (e : ScheduleEntry) (now : ℤ) : (e.passed now).action = e.action := by
  have hsettled : (e.settled now).action = e.action :=
    (congrArg ScheduleEntry.action (ScheduleEntry.settled_frame now e)).trans rfl
  unfold ScheduleEntry.passed ScheduleEntry.visited
  split_ifs
  · exact hsettled
  · exact hsettled
  · rfl

/-- Queueing leaves the results alone. -/
theorem pendingTasks_results (hnames : (db.schedule.map ScheduleEntry.name).Nodup)
    (h : pendingTasks now db = .ok (queue, db')) :
    db'.results = db.results ∧ db'.nextId = db.nextId := by
  have hsnapshot := Database.nodup_activeEntries hnames
  have hstored : ∀ e ∈ db.activeEntries, db.getEntry e.name = some e := by
    intro e he
    exact Database.getEntry_of_mem_activeEntries hnames he
  obtain ⟨queue', hrun, -⟩ := queuePendingTasks_ok hnames now hsnapshot hstored []
  obtain ⟨-, rfl⟩ := Prod.mk.inj (Except.ok.inj (hrun.symm.trans h))
  rw [visitAll_frame]
  exact ⟨rfl, rfl⟩

/-- The names of the due tasks are names of their entries, in the same order. -/
theorem names_dueTasks (now : String → ℤ) (snapshot : List ScheduleEntry) :
    ((snapshot.filterMap fun e => e.dueTask (now e.name)).map Task.scheduleEntryName).Sublist
      (snapshot.map ScheduleEntry.name) := by
  induction snapshot with
  | nil => exact .refl _
  | cons e snapshot ih =>
    cases hdue : e.dueTask (now e.name) with
    | none =>
      simp only [List.filterMap_cons, hdue, List.map_cons]
      exact ih.cons e.name
    | some task =>
      simp only [List.filterMap_cons, hdue, List.map_cons,
        ScheduleEntry.scheduleEntryName_dueTask hdue]
      exact ih.cons_cons e.name

/-- The tasks of a queue are of active entries, one task each. -/
theorem pendingTasks_entries (hnames : (db.schedule.map ScheduleEntry.name).Nodup)
    (h : pendingTasks now db = .ok (queue, db')) :
    (queue.map Task.scheduleEntryName).Nodup ∧ ∀ task ∈ queue, ∃ e ∈ db.activeEntries,
      db'.getEntry task.scheduleEntryName = some (e.passed (now e.name)) := by
  obtain ⟨queue', db'', hrun, hperm, -, hrows⟩ := pendingTasks_ok hnames now
  obtain ⟨rfl, rfl⟩ := Prod.mk.inj (Except.ok.inj (hrun.symm.trans h))
  constructor
  · have hsnapshot := Database.nodup_activeEntries hnames
    exact (hperm.map _).nodup_iff.mpr (hsnapshot.sublist (names_dueTasks now _))
  · intro task htask
    obtain ⟨e, he, hdue⟩ := List.mem_filterMap.mp (hperm.subset htask)
    have hstored := Database.getEntry_of_mem_activeEntries hnames he
    rw [ScheduleEntry.scheduleEntryName_dueTask hdue]
    exact ⟨e, he, hrows e e.name hstored⟩

end Scheduler

end ScosSensor
