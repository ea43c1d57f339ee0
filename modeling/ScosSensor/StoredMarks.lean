import ScosSensor.LiveTasks

/-!
# Row ids and task ids

New results take new row ids, so among the results that are stored or open a
later row id of an entry goes with a later task id, even when a finalization
stores an old result again. The oldest result, which the disk limit removes, is
then never the only one that reaches the last task ids.
-/
namespace ScosSensor

open Counters

namespace Database

variable {db db' : Database} {name : String} {row : ResultRow} {tr : TaskResult} {id : ℕ}
  {maxDiskUsage : ℤ} {percentUsed : ℚ} {self : Option ℕ} {m : (String × ℕ) × ℕ}

/-- The marks of the stored results. -/
def marks (db : Database) : List ((String × ℕ) × ℕ) := db.results.map ResultRow.mark

/-- The counter of the row ids does not go back, and no data is added. -/
structure Onward (db db' : Database) : Prop where
  nextId : db.nextId ≤ db'.nextId
  acquisitions : ∀ a ∈ db'.acquisitions, a ∈ db.acquisitions

theorem Onward.of_same (hnext : db'.nextId = db.nextId)
    (hdata : db'.acquisitions = db.acquisitions) : Onward db db' :=
  ⟨hnext.ge, fun _ ha => hdata ▸ ha⟩

theorem onward_removeOldest (db : Database) (maxDiskUsage : ℤ) (percentUsed : ℚ) (name : String)
    (self : Option ℕ) : Onward db (db.removeOldest maxDiskUsage percentUsed name self) := by
  obtain heq | ⟨oldest, -, -, -, -, heq⟩ :=
    removeOldest_cases db maxDiskUsage percentUsed name self
  · rw [heq]
    exact .of_same rfl rfl
  · rw [heq]
    exact ⟨le_rfl, fun a ha => List.mem_of_mem_filter ha⟩

theorem onward_superSave (h : db.superSave self tr = .ok (row, db')) : Onward db db' := by
  obtain ⟨-, -, -, rfl⟩ | ⟨-, hinsert⟩ := superSave_ok h
  · exact ⟨le_rfl, fun _ ha => ha⟩
  · obtain ⟨-, -, -, rfl⟩ := insertRow_ok hinsert
    exact ⟨le_max_left _ _, fun _ ha => ha⟩

theorem mem_marks_deleteResult : m ∈ (db.deleteResult id).marks ↔ m ∈ db.marks ∧ m.2 ≠ id := by
  unfold marks deleteResult
  simp only [List.mem_map, List.mem_filter, decide_eq_true_eq]
  constructor
  · intro ⟨r, ⟨hr, hid⟩, hm⟩
    exact ⟨⟨r, hr, hm⟩, by rwa [← hm]⟩
  · intro ⟨⟨r, hr, hm⟩, hid⟩
    exact ⟨r, ⟨hr, by rwa [← hm] at hid⟩, hm⟩

/-- A save of a result under its own row id stores its mark and takes none away. -/
theorem mem_marks_superSave (h : db.superSave (some id) tr = .ok (row, db'))
    (hunique : ∀ m ∈ db.marks, m.2 = id → m.1 = tr.key) :
    m ∈ db'.marks ↔ m ∈ db.marks ∨ m = (tr.key, id) := by
  have hid := superSave_id h
  have hmark : row.mark = (tr.key, id) := Prod.ext (superSave_key h) hid
  unfold marks
  simp only [List.mem_map]
  constructor
  · intro ⟨r, hr, hm⟩
    obtain hold | hnew := mem_of_mem_superSave h hr
    · exact .inl ⟨r, hold, hm⟩
    · right
      rw [← hm, hnew, hmark]
  · intro hm
    obtain ⟨r, hr, rfl⟩ | rfl := hm
    · by_cases hrid : r.id = row.id
      · refine ⟨row, mem_superSave_self h, ?_⟩
        rw [hmark]
        have hrkey := hunique r.mark (List.mem_map_of_mem hr) (hrid.trans hid)
        exact Prod.ext hrkey.symm (hid.symm.trans hrid.symm)
      · exact ⟨r, (mem_superSave_of_ne h hrid).mpr hr, rfl⟩
    · exact ⟨row, mem_superSave_self h, hmark⟩

theorem mem_acquisitions_storeAcquisition {key : String × ℕ} {recordingId : ℤ} {a : Acquisition}
    (h : a ∈ (db.storeAcquisition key recordingId).acquisitions) :
    a ∈ db.acquisitions ∨ ∃ r ∈ db.results, a.taskResult = r.id := by
  unfold storeAcquisition at h
  split at h
  · exact .inl h
  · rename_i r hfind
    split_ifs at h
    · exact .inl h
    · rcases List.mem_append.mp h with h | h
      · exact .inl h
      · obtain rfl := List.mem_singleton.mp h
        exact .inr ⟨r, List.mem_of_find?_eq_some hfind, rfl⟩

end Database

/-- A row id has one key, and of one entry the later row has the later task id. -/
structure Ordered (marks : List ((String × ℕ) × ℕ)) : Prop where
  unique : ∀ a ∈ marks, ∀ b ∈ marks, a.2 = b.2 → a.1 = b.1
  order : ∀ a ∈ marks, ∀ b ∈ marks, a.1.1 = b.1.1 → a.2 < b.2 → a.1.2 < b.1.2

theorem Ordered.subset {marks marks' : List ((String × ℕ) × ℕ)} (h : Ordered marks)
    (hsub : ∀ m ∈ marks', m ∈ marks) : Ordered marks' :=
  ⟨fun a ha b hb => h.unique a (hsub a ha) b (hsub b hb),
    fun a ha b hb => h.order a (hsub a ha) b (hsub b hb)⟩

/-- A new mark goes last, both as a row and as a task. -/
theorem Ordered.insert {marks marks' : List ((String × ℕ) × ℕ)} {new : (String × ℕ) × ℕ}
    (h : Ordered marks) (hsub : ∀ m ∈ marks', m ∈ marks ∨ m = new)
    (hrow : ∀ m ∈ marks, m.2 < new.2) (htask : ∀ m ∈ marks, m.1.1 = new.1.1 → m.1.2 < new.1.2) :
    Ordered marks' := by
  constructor
  · intro a ha b hb heq
    obtain ha | rfl := hsub a ha
    · obtain hb | rfl := hsub b hb
      · exact h.unique a ha b hb heq
      · exact absurd heq (hrow a ha).ne
    · obtain hb | rfl := hsub b hb
      · exact absurd heq.symm (hrow b hb).ne
      · rfl
  · intro a ha b hb hname hlt
    obtain ha | rfl := hsub a ha
    · obtain hb | rfl := hsub b hb
      · exact h.order a ha b hb hname hlt
      · exact htask a ha hname
    · obtain hb | rfl := hsub b hb
      · have hback := hrow b hb
        omega
      · omega

/-- Of every entry with a stored result, one of the stored results is at least as
late as all tasks `begun` of it. -/
def Recorded (begun : List (String × ℕ)) (db : Database) : Prop :=
  ∀ x ∈ begun, (∃ m ∈ db.marks, m.1.1 = x.1) → ∃ m ∈ db.marks, m.1.1 = x.1 ∧ x.2 ≤ m.1.2

section Recorded

variable {db db' : Database} {begun : List (String × ℕ)} {m : (String × ℕ) × ℕ}

theorem Recorded.of_marks (h : Recorded begun db) (hmarks : ∀ m, m ∈ db'.marks ↔ m ∈ db.marks) :
    Recorded begun db' := by
  intro x hx hsome
  simp only [hmarks] at hsome ⊢
  exact h x hx hsome

/-- A further result, which is the last one of its entry or finds others. -/
theorem Recorded.insert (h : Recorded begun db)
    (hmarks : ∀ m', m' ∈ db'.marks ↔ m' ∈ db.marks ∨ m' = m)
    (hlast : (∀ m' ∈ db.marks, m'.1.1 ≠ m.1.1) → ∀ x ∈ begun, x.1 = m.1.1 → x.2 ≤ m.1.2) :
    Recorded begun db' := by
  intro x hx hsome
  simp only [hmarks] at hsome ⊢
  by_cases hstored : ∃ m' ∈ db.marks, m'.1.1 = x.1
  · obtain ⟨m', hm', hname, hle⟩ := h x hx hstored
    exact ⟨m', .inl hm', hname, hle⟩
  · obtain ⟨m', hm' | rfl, hname⟩ := hsome
    · exact absurd ⟨m', hm', hname⟩ hstored
    · refine ⟨m', .inr rfl, hname, hlast ?_ x hx hname.symm⟩
      intro m hm heq
      exact hstored ⟨m, hm, heq.trans hname⟩

/-- The removal of the oldest result leaves the last one when it leaves any. -/
theorem Recorded.removeOldest (h : Recorded begun db) (hordered : Ordered db.marks)
    (maxDiskUsage : ℤ) (percentUsed : ℚ) (name : String) (self : Option ℕ) :
    Recorded begun (db.removeOldest maxDiskUsage percentUsed name self) := by
  obtain heq | ⟨oldest, hold, -, -, -, heq⟩ :=
    Database.removeOldest_cases db maxDiskUsage percentUsed name self
  · rwa [heq]
  · rw [heq]
    intro x hx ⟨m, hm, hname⟩
    obtain ⟨hm, hne⟩ := Database.mem_marks_deleteResult.mp hm
    obtain ⟨m', hm', hname', hle⟩ := h x hx ⟨m, hm, hname⟩
    by_cases hgone : m'.2 = oldest.id
    · have hmem := Database.oldest?_mem hold
      obtain ⟨hstored, hentry⟩ := Database.mem_resultsOf.mp hmem
      have hkey : m'.1 = oldest.key :=
        hordered.unique m' hm' oldest.mark (List.mem_map_of_mem hstored) hgone
      obtain ⟨r, hr, rfl⟩ := List.mem_map.mp hm
      have hrname : r.scheduleEntry = name := by
        rw [← hentry]
        exact hname.trans (hname'.symm.trans (congrArg Prod.fst hkey))
      have hfirst := Database.oldest?_le hold (Database.mem_resultsOf.mpr ⟨hr, hrname⟩)
      have hlater : m'.2 < r.mark.2 := by
        rw [hgone]
        exact lt_of_le_of_ne hfirst (Ne.symm hne)
      have hlt := hordered.order m' hm' r.mark hm (hname'.trans hname.symm) hlater
      exact ⟨r.mark, Database.mem_marks_deleteResult.mpr ⟨hm, hne⟩, hname, hle.trans hlt.le⟩
    · exact ⟨m', Database.mem_marks_deleteResult.mpr ⟨hm', hgone⟩, hname', hle⟩

end Recorded

namespace Scheduler

open Runs

variable {cfg : Settings} {s t : Sys} {l : Label} {i : Input}

theorem marks_stored_subset (s : Sys) : ∀ m ∈ s.db.marks, m ∈ s.marks := by
  intro m hm
  obtain ⟨r, hr, rfl⟩ := List.mem_map.mp hm
  exact mark_stored hr

theorem FinalizeMove.onward {f : Finalization} {w w' : World} {next : Option Finalization}
    (h : FinalizeMove cfg i f w next w') : Database.Onward w.db w'.db := by
  obtain hdb | hdb | ⟨row, hsave⟩ := h.db
  · rw [hdb]
    exact .of_same rfl rfl
  · rw [hdb]
    exact Database.onward_removeOldest _ _ _ _ _
  · exact Database.onward_superSave hsave

/-- Steps move the counter of the row ids on, and data is added to stored results. -/
theorem step_onward (h : step cfg s l = some t) :
    s.db.nextId ≤ t.db.nextId ∧ ∀ a ∈ t.db.acquisitions,
      a ∈ s.db.acquisitions ∨ ∃ r ∈ s.db.results, a.taskResult = r.id := by
  have honward {db : Database} (hdb : Database.Onward s.db db) :
      s.db.nextId ≤ db.nextId ∧ ∀ a ∈ db.acquisitions,
        a ∈ s.db.acquisitions ∨ ∃ r ∈ s.db.results, a.taskResult = r.id :=
    ⟨hdb.nextId, fun a ha => .inl (hdb.acquisitions a ha)⟩
  cases step_cases h with
  | sched i s' hmove =>
    cases hmove with
    | evict => exact honward (Database.onward_removeOldest _ _ _ _ _)
    | create task tasks result db hpc hsave => exact honward (Database.onward_superSave hsave)
    | finalize f f' tasks w hpc hmove => exact honward hmove.onward
    | finalized f tasks w hpc hmove => exact honward hmove.onward
    | finalizeRaise f tasks err w hpc hraise =>
      exact honward (.of_same (congrArg Database.nextId hraise.frame.1)
        (congrArg Database.acquisitions hraise.frame.1))
    | _ => exact honward (.of_same rfl rfl)
  | finalizer k i f f' w hf hmove => exact honward hmove.onward
  | finalizerEnd k i f w hf hmove => exact honward hmove.onward
  | finalizerRaise k i f err w hf hraise =>
    exact honward (.of_same (congrArg Database.nextId hraise.frame.1)
      (congrArg Database.acquisitions hraise.frame.1))
  | measure recordingId =>
    refine ⟨by simp, ?_⟩
    intro a ha
    exact Database.mem_acquisitions_storeAcquisition ha
  | write k now q hq =>
    dsimp only
    unfold Database.saveWhole
    split_ifs <;> exact honward (.of_same rfl rfl)
  | deleteEntry name db hremove =>
    obtain ⟨-, -, rfl⟩ := Database.removeEntry_some hremove
    exact honward (.of_same rfl rfl)
  | deleteResult id hid => exact honward ⟨le_rfl, fun a ha => List.mem_of_mem_filter ha⟩
  | _ => exact honward (.of_same rfl rfl)

/-- The row ids in use are below their counter. -/
def RowsFresh (s : Sys) : Prop := ∀ m ∈ s.marks, m.2 < s.db.nextId

theorem step_rowsFresh (hs : RowsFresh s) (h : step cfg s l = some t) : RowsFresh t := by
  intro m hm
  obtain hsub | ⟨task, -, hmarks, hnew⟩ := step_marks h
  · exact (hs m (hsub m hm)).trans_le (step_onward h).1
  · rw [hnew]
    obtain hold | rfl := hmarks m hm
    · exact (hs m hold).trans (Nat.lt_succ_self _)
    · exact Nat.lt_succ_self _

/-- The row ids in use are below their counter and in the order of the task ids. -/
structure RowOrder (s : Sys) : Prop where
  fresh : ∀ m ∈ s.marks, m.2 < s.db.nextId
  data : ∀ a ∈ s.db.acquisitions, a.taskResult < s.db.nextId
  ordered : Ordered s.marks

theorem step_rowOrder (hs : RowOrder s)
    (hahead : ∀ x ∈ s.pc.waiting, Ahead x.key s.usedIds) (h : step cfg s l = some t) :
    RowOrder t := by
  obtain ⟨hnext, hdata⟩ := step_onward h
  have hdata' : ∀ a ∈ t.db.acquisitions, a.taskResult < t.db.nextId := by
    intro a ha
    obtain hold | ⟨r, hr, heq⟩ := hdata a ha
    · exact (hs.data a hold).trans_le hnext
    · rw [heq]
      exact (hs.fresh r.mark (mark_stored hr)).trans_le hnext
  have hfresh : RowsFresh t := step_rowsFresh hs.fresh h
  obtain hsub | ⟨task, ⟨tasks, result, hpc, -⟩, hmarks, -⟩ := step_marks h
  · exact ⟨hfresh, hdata', hs.ordered.subset hsub⟩
  · refine ⟨hfresh, hdata', hs.ordered.insert hmarks hs.fresh ?_⟩
    intro m hm hname
    have hwait : task ∈ s.pc.waiting := by
      rw [hpc]
      exact List.mem_cons_self
    exact hahead task hwait m.1 (List.mem_map_of_mem hm) hname

/-- What a finalization keeps of the stored marks: all but one that holds data. -/
theorem FinalizeMove.keeps_mark {f : Finalization} {w w' : World} {next : Option Finalization}
    {m : (String × ℕ) × ℕ} (h : FinalizeMove cfg i f w next w')
    (hunique : ∀ m ∈ w.db.marks, m.2 = f.result.id → m.1 = f.result.key)
    (hm : m ∈ w.db.marks)
    (hspared : m.2 = f.result.id ∨ ∀ a ∈ w.db.acquisitions, a.taskResult ≠ m.2) :
    m ∈ w'.db.marks := by
  obtain hdb | hdb | ⟨row, hsave⟩ := h.db
  · rwa [hdb]
  · rw [hdb]
    obtain heq | ⟨oldest, -, hself, ⟨a, ha, hdata⟩, -, heq⟩ :=
      Database.removeOldest_cases w.db cfg.maxDiskUsage i.percentUsed f.result.scheduleEntry
        (some f.result.id)
    · rwa [heq]
    · rw [heq]
      refine Database.mem_marks_deleteResult.mpr ⟨hm, ?_⟩
      intro hgone
      obtain hown | hnone := hspared
      · exact hself (congrArg some (hgone.symm.trans hown))
      · exact hnone a ha (hdata.trans hgone.symm)
  · exact (Database.mem_marks_superSave hsave hunique).mpr (.inl hm)

/-- The result of a task that is about to be started is stored and holds no data. -/
structure Called (db : Database) (task : PendingTask) (result : ResultRow) : Prop where
  key : result.key = task.key
  stored : result.mark ∈ db.marks
  blank : ∀ a ∈ db.acquisitions, a.taskResult ≠ result.id

def CallsStored (s : Sys) : Prop :=
  ∀ task result tasks, s.pc = .calling task result tasks → Called s.db task result

theorem unique_inFlight (hrows : RowOrder s) {r : ResultRow} (hr : r.mark ∈ s.marks) :
    ∀ m ∈ s.db.marks, m.2 = r.id → m.1 = r.key :=
  fun m hm hid => hrows.ordered.unique m (marks_stored_subset s m hm) r.mark hr hid

theorem Called.of_finalizeMove {task : PendingTask} {result : ResultRow} {f : Finalization}
    {w : World} {next : Option Finalization} (hs : Called s.db task result) (hrows : RowOrder s)
    (hf : f ∈ s.finalizations) (hmove : FinalizeMove cfg i f s.toWorld next w) :
    Called w.db task result := by
  refine ⟨hs.key, ?_, ?_⟩
  · exact hmove.keeps_mark (unique_inFlight hrows (mark_inFlight hf)) hs.stored (.inr hs.blank)
  · exact fun a ha => hs.blank a (hmove.onward.acquisitions a ha)

theorem Called.of_results {db db' : Database} {task : PendingTask} {result : ResultRow}
    (hs : Called db task result) (hresults : db'.results = db.results)
    (hdata : db'.acquisitions = db.acquisitions) : Called db' task result := by
  refine ⟨hs.key, ?_, hdata ▸ hs.blank⟩
  unfold Database.marks
  rw [hresults]
  exact hs.stored

theorem step_callsStored (hs : CallsStored s) (hrows : RowOrder s)
    (hl : ∀ id, l ≠ .deleteResult id) (h : step cfg s l = some t) : CallsStored t := by
  intro task result tasks hpc
  cases step_cases h with
  | sched i s' hmove =>
    cases hmove with
    | create task' tasks' result' db hpc' hsave =>
      obtain ⟨rfl, rfl, rfl⟩ := Pc.calling.inj hpc
      obtain ⟨hid, hresults, -, hdata⟩ := Database.superSave_new hsave
      refine ⟨Database.superSave_key hsave, ?_, ?_⟩
      · exact List.mem_map_of_mem (Database.mem_superSave_self hsave)
      · intro a ha
        dsimp only at ha
        rw [hdata] at ha
        rw [hid]
        exact (hrows.data a ha).ne
    | jump pc hjump => cases hjump <;> cases hpc
    | keep taskTime | cancel taskTime => cases taskTime <;> cases hpc
    | _ => cases hpc
  | finalizer k i f f' w hf hmove =>
    exact (hs task result tasks hpc).of_finalizeMove hrows (List.mem_of_getElem? hf) hmove
  | finalizerEnd k i f w hf hmove =>
    exact (hs task result tasks hpc).of_finalizeMove hrows (List.mem_of_getElem? hf) hmove
  | finalizerRaise k i f err w hf hraise =>
    obtain ⟨hdb, -, -⟩ := hraise.frame
    exact (hs task result tasks hpc).of_results (congrArg Database.results hdb)
      (congrArg Database.acquisitions hdb)
  | measure recordingId task' result' started tasks' hpc' =>
    rw [show s.pc = .calling task result tasks from hpc] at hpc'
    cases hpc'
  | crash => cases hpc
  | write k now q hq =>
    refine (hs task result tasks hpc).of_results ?_ ?_
    · unfold Database.saveWhole
      split_ifs <;> rfl
    · unfold Database.saveWhole
      split_ifs <;> rfl
  | deleteEntry name db hremove =>
    obtain ⟨-, -, rfl⟩ := Database.removeEntry_some hremove
    exact (hs task result tasks hpc).of_results rfl rfl
  | deleteResult id hid => exact absurd rfl (hl id)
  | _ => exact (hs task result tasks hpc).of_results rfl rfl

/-- With finalizations in the thread there are no others, and the running result
stays stored. -/
structure InThread (cfg : Settings) (s : Sys) : Prop where
  alone : cfg.asyncCallback = false → s.finalizations = []
  stored : cfg.asyncCallback = false → ∀ r ∈ s.pc.running, r.mark ∈ s.db.marks
  finalizing : ∀ f tasks, s.pc = .finalizing f tasks → cfg.asyncCallback = false

/-- A step without a running result after it. -/
theorem InThread.of_idle (hs : InThread cfg s) (hfinalizations : t.finalizations = s.finalizations)
    (hrunning : t.pc.running = []) (hpc : ∀ f tasks, t.pc ≠ .finalizing f tasks) :
    InThread cfg t := by
  refine ⟨?_, ?_, ?_⟩
  · intro hsync
    rw [hfinalizations]
    exact hs.alone hsync
  · intro _ r hr
    rw [hrunning] at hr
    cases hr
  · intro f tasks h
    exact absurd h (hpc f tasks)

theorem schedMove_inThread (h : SchedMove cfg i s t) (hs : InThread cfg s) (hrows : RowOrder s) :
    InThread cfg t := by
  cases h with
  | create task tasks result db hpc hsave =>
    refine ⟨hs.alone, ?_, fun _ _ h => nomatch h⟩
    intro _ r hr
    rw [List.mem_singleton.mp hr]
    exact List.mem_map_of_mem (Database.mem_superSave_self hsave)
  | call task result tasks hpc =>
    refine ⟨hs.alone, ?_, fun _ _ h => nomatch h⟩
    intro hsync r hr
    exact hs.stored hsync r (by rw [hpc]; exact hr)
  | spawn task result started tasks hpc hasync =>
    refine ⟨?_, ?_, fun _ _ h => nomatch h⟩
    · intro hsync
      rw [hasync] at hsync
      cases hsync
    · intro _ r hr
      cases hr
  | finish task result started tasks hpc hsync =>
    refine ⟨hs.alone, ?_, fun _ _ _ => hsync⟩
    intro _ r hr
    rw [List.mem_singleton.mp hr]
    show result.mark ∈ s.db.marks
    exact hs.stored hsync result (by rw [hpc]; exact List.mem_singleton_self result)
  | finalize f f' tasks w hpc hmove =>
    have hsync := hs.finalizing f tasks hpc
    have hrunning : f.result ∈ s.pc.running := by
      rw [hpc]
      exact List.mem_singleton_self f.result
    refine ⟨hs.alone, ?_, fun _ _ _ => hsync⟩
    intro _ r hr
    rw [List.mem_singleton.mp hr, hmove.mark]
    exact hmove.keeps_mark (unique_inFlight hrows (mark_running hrunning))
      (hs.stored hsync f.result hrunning) (.inl rfl)
  | jump pc hjump =>
    refine hs.of_idle rfl ?_ ?_
    · cases hjump <;> rfl
    · intro f tasks h
      cases hjump <;> cases h
  | keep taskTime | cancel taskTime =>
    refine hs.of_idle rfl (by cases taskTime <;> rfl) ?_
    intro f tasks h
    cases taskTime <;> cases h
  | _ => exact hs.of_idle rfl rfl fun _ _ h => nomatch h

theorem step_inThread (hs : InThread cfg s) (hrows : RowOrder s)
    (hl : ∀ id, l ≠ .deleteResult id) (h : step cfg s l = some t) : InThread cfg t := by
  have hnone {k : ℕ} {f : Finalization} (hf : s.finalizations[k]? = some f) :
      cfg.asyncCallback ≠ false := by
    intro hsync
    rw [hs.alone hsync] at hf
    cases hf
  have hsame {db : Database} (hresults : db.results = s.db.results) :
      InThread cfg { s with db } := by
    refine ⟨hs.alone, ?_, hs.finalizing⟩
    intro hsync r hr
    unfold Database.marks
    rw [hresults]
    exact hs.stored hsync r hr
  cases step_cases h with
  | sched i s' hmove => exact schedMove_inThread hmove hs hrows
  | finalizer k i f f' w hf =>
    exact ⟨fun h => absurd h (hnone hf), fun h => absurd h (hnone hf), hs.finalizing⟩
  | finalizerEnd k i f w hf =>
    exact ⟨fun h => absurd h (hnone hf), fun h => absurd h (hnone hf), hs.finalizing⟩
  | finalizerRaise k i f err w hf =>
    exact ⟨fun h => absurd h (hnone hf), fun h => absurd h (hnone hf), hs.finalizing⟩
  | measure recordingId => exact hsame (Database.storeAcquisition_results _ _ _)
  | crash =>
    refine ⟨fun _ => rfl, ?_, fun _ _ h => nomatch h⟩
    intro _ r hr
    cases hr
  | write k now q hq =>
    have hresults : (s.db.saveWhole (q.saved now)).results = s.db.results := by
      unfold Database.saveWhole
      split_ifs <;> rfl
    obtain ⟨halone, hstored, hfinalizing⟩ := hsame hresults
    exact ⟨halone, hstored, hfinalizing⟩
  | deleteEntry name db hremove =>
    obtain ⟨-, -, rfl⟩ := Database.removeEntry_some hremove
    exact hsame rfl
  | deleteResult id hid => exact absurd rfl (hl id)
  | _ => exact ⟨hs.alone, hs.stored, hs.finalizing⟩

/-! ### A process that starts -/

theorem rowOrder_start (rows : List ScheduleEntry) : RowOrder { db := { schedule := rows } } := by
  have hnone : ∀ m, m ∉ Sys.marks { db := { schedule := rows } } := by
    intro m hm
    cases hm
  refine ⟨fun m hm => absurd hm (hnone m), ?_, ?_, ?_⟩
  · intro a ha
    cases ha
  · intro a ha
    exact absurd ha (hnone a)
  · intro a ha
    exact absurd ha (hnone a)

theorem callsStored_start (db : Database) : CallsStored { db := db } := by
  intro task result tasks hpc
  cases hpc

theorem inThread_start (cfg : Settings) (db : Database) : InThread cfg { db := db } := by
  refine ⟨fun _ => rfl, ?_, ?_⟩
  · intro _ r hr
    cases hr
  · intro f tasks hpc
    cases hpc

end Scheduler

end ScosSensor
