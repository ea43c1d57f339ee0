import ScosSensor.CrashSafety
import ScosSensor.CreatedIds

/-!
# The window of kept results

With finalizations in the thread, no deaths and no deletions, the stored rows are in the
order of their row ids, and the rows of an entry carry consecutive task ids up to the last
one created. A save removes the first row of its entry, which is older than the result
that is saved, and a new result goes last. So the kept results of each entry are a window
of the newest ones.
-/
namespace ScosSensor

namespace Database

variable {db db' : Database} {name other : String} {oldest row : ResultRow} {tr : TaskResult}
  {id : ℕ}

/-- The task ids of the stored results of an entry, in the order of the rows. -/
def keptIds (db : Database) (name : String) : List ℕ := (db.resultsOf name).map fun r => r.taskId

/-- Kept ids are read off the keys of the rows. -/
theorem keptIds_eq (db : Database) (name : String) :
    db.keptIds name = ((db.results.map fun r => r.key).filter fun k => k.1 = name).map Prod.snd := by
  rw [keptIds, resultsOf, List.filter_map, List.map_map]
  rfl

theorem keptIds_congr (h : (db'.results.map fun r => r.key) = db.results.map fun r => r.key)
    (name : String) : db'.keptIds name = db.keptIds name := by
  rw [keptIds_eq, h, keptIds_eq]

/-- In the order of the row ids the oldest result is the first one. -/
theorem oldest?_eq_head (hsorted : db.storedIds.Pairwise (· < ·)) (hold : db.oldest? name = some oldest) :
    ∃ rest, db.resultsOf name = oldest :: rest ∧ ∀ r ∈ rest, oldest.id < r.id := by
  have hrows : (db.resultsOf name).Pairwise fun a b => a.id < b.id :=
    (List.pairwise_map.mp hsorted).sublist List.filter_sublist
  have hmem := oldest?_mem hold
  cases hlist : db.resultsOf name with
  | nil =>
    rw [hlist] at hmem
    cases hmem
  | cons first rest =>
    rw [hlist] at hrows hmem
    obtain ⟨hfirst, -⟩ := List.pairwise_cons.mp hrows
    rcases List.mem_cons.mp hmem with rfl | hlater
    · exact ⟨rest, rfl, hfirst⟩
    · have hle : oldest.id ≤ first.id := oldest?_le hold (hlist ▸ List.mem_cons_self)
      exact absurd (hfirst oldest hlater) (Nat.not_lt.mpr hle)

/-- The removal of the oldest result takes the first kept id of its entry, and none of
another entry. -/
theorem keptIds_deleteOldest (hsorted : db.storedIds.Pairwise (· < ·))
    (hold : db.oldest? name = some oldest) (other : String) :
    (db.deleteResult oldest.id).keptIds other =
      if other = name then (db.keptIds name).tail else db.keptIds other := by
  have hfilter : (db.deleteResult oldest.id).resultsOf other =
      (db.resultsOf other).filter fun r => r.id ≠ oldest.id := by
    simp [resultsOf, deleteResult, List.filter_filter, Bool.and_comm]
  rw [keptIds, hfilter]
  obtain ⟨rest, hlist, hlater⟩ := oldest?_eq_head hsorted hold
  split_ifs with hname
  · subst hname
    have hrest : rest.filter (fun r => r.id ≠ oldest.id) = rest := by
      apply List.filter_eq_self.mpr
      intro r hr
      simpa using (hlater r hr).ne'
    rw [keptIds, hlist, List.filter_cons_of_neg (by simp), hrest]
    rfl
  · have hall : (db.resultsOf other).filter (fun r => r.id ≠ oldest.id) = db.resultsOf other := by
      apply List.filter_eq_self.mpr
      intro r hr
      obtain ⟨hstored, hrname⟩ := mem_resultsOf.mp hr
      obtain ⟨hstored', hname'⟩ := mem_resultsOf.mp (oldest?_mem hold)
      simp only [decide_eq_true_eq]
      intro heq
      have hnodup : db.storedIds.Nodup := hsorted.imp fun hlt => hlt.ne
      rw [Table.eq_of_key_eq hnodup hstored hstored' heq, hname'] at hrname
      exact hname hrname.symm
    rw [hall, keptIds]

/-- An UPDATE of the own row leaves the keys and the row ids of all rows. -/
theorem keys_superSave (h : db.superSave (some id) tr = .ok (row, db')) (hid : id ∈ db.storedIds)
    (hkey : ∀ r ∈ db.results, r.id = id → r.key = tr.key) :
    (db'.results.map fun r => r.key) = (db.results.map fun r => r.key) ∧
      db'.storedIds = db.storedIds := by
  obtain ⟨hself, -, hrow, rfl⟩ | ⟨⟨hself, -⟩ | ⟨hself, hgone⟩, -⟩ := superSave_ok h
  · obtain rfl := Option.some.inj hself
    constructor
    · refine Table.map_update fun r hr heq => ?_
      rw [hkey r hr heq, hrow]
    · exact Table.keys_update fun _ _ => rfl
  · cases hself
  · exact absurd hid (Option.some.inj hself ▸ hgone)

end Database

namespace Scheduler

open Runs

variable {cfg : Settings} {s t : Sys} {l : Label} {i : Input}

/-- The entry and the task id of the result that the thread is saving. -/
def saving : Pc → Option (String × ℕ)
  | .evicting task _ => some task.key
  | .finalizing f _ => some f.result.key
  | _ => none

/-- What a step does to the stored results. -/
inductive ResultStep (s t : Sys) : Prop
  | keep (hkeys : (t.db.results.map fun r => r.key) = s.db.results.map fun r => r.key)
      (hids : t.db.storedIds = s.db.storedIds)
      (hcreated : createdTasks t.history = createdTasks s.history)
      (hpc : t.pc = s.pc ∨ (∃ err, t.pc = .dead err) ∨
        (∀ task tasks, s.pc ≠ .inserting task tasks) ∧ ∀ err, s.pc ≠ .dead err)
  | removeFirst (task : PendingTask) (tasks : List PendingTask) (oldest : ResultRow)
      (hpc : s.pc = .evicting task tasks) (hpc' : t.pc = .inserting task tasks)
      (hold : s.db.oldest? task.scheduleEntryName = some oldest)
      (hresults : t.db.results = (s.db.deleteResult oldest.id).results)
      (hcreated : createdTasks t.history = createdTasks s.history)
  | removeOther (f : Finalization) (tasks : List PendingTask) (oldest : ResultRow)
      (hpc : s.pc = .finalizing f tasks)
      (hold : s.db.oldest? f.result.scheduleEntry = some oldest) (hne : oldest.id ≠ f.result.id)
      (hresults : t.db.results = (s.db.deleteResult oldest.id).results)
      (hcreated : createdTasks t.history = createdTasks s.history)
  | create (task : PendingTask) (tasks : List PendingTask) (result : ResultRow)
      (hpc : s.pc = .inserting task tasks) (hpc' : t.pc = .calling task result tasks)
      (hresults : t.db.results = s.db.results ++ [result]) (hkey : result.key = task.key)
      (hid : result.id = s.db.nextId)
      (hcreated : createdTasks t.history = createdTasks s.history ++ [task])

theorem resultStep_of_finalizeMove {f : Finalization} {tasks : List PendingTask} {w : World}
    {next : Option Finalization} (h : FinalizeMove cfg i f s.toWorld next w)
    (hpc : s.pc = .finalizing f tasks) (hstored : f.result.mark ∈ s.db.marks)
    (hunique : ∀ m ∈ s.db.marks, m.2 = f.result.id → m.1 = f.result.key)
    (hdb : t.db = w.db) (hhistory : t.history = w.history) : ResultStep s t := by
  have hcreated : createdTasks t.history = createdTasks s.history := by
    rw [hhistory]
    exact h.createdTasks
  have hquiet : (∀ task tasks, s.pc ≠ .inserting task tasks) ∧ ∀ err, s.pc ≠ .dead err := by
    simp [hpc]
  have hsame (heq : w.db.results = s.db.results) : ResultStep s t :=
    .keep (by rw [hdb, heq]) (by rw [hdb, Database.storedIds, heq, Database.storedIds]) hcreated
      (.inr (.inr hquiet))
  obtain hw | hw | ⟨row, hsave⟩ := h.db
  · exact hsame (by rw [hw])
  · obtain heq | ⟨oldest, hold, hne, -, -, heq⟩ := Database.removeOldest_cases s.db
      cfg.maxDiskUsage i.percentUsed f.result.scheduleEntry (some f.result.id)
    · exact hsame (by rw [hw, heq])
    · refine .removeOther f tasks oldest hpc hold ?_ (by rw [hdb, hw, heq]) hcreated
      exact fun hid => hne (congrArg some hid)
  · obtain ⟨r, hr, hmark⟩ := List.mem_map.mp hstored
    have hid : f.result.id ∈ s.db.storedIds :=
      Database.mem_storedIds.mpr ⟨r, hr, congrArg Prod.snd hmark⟩
    obtain ⟨hkeys, hids⟩ := Database.keys_superSave hsave hid
      fun r hr heq => hunique r.mark (List.mem_map_of_mem hr) heq
    exact .keep (by rw [hdb]; exact hkeys) (by rw [hdb]; exact hids) hcreated (.inr (.inr hquiet))

theorem schedMove_resultStep (h : SchedMove cfg i s t) (hthread : InThread cfg s)
    (hrows : RowOrder s) : ResultStep s t := by
  have hfinalize {f : Finalization} {tasks : List PendingTask} (hpc : s.pc = .finalizing f tasks) :
      f.result.mark ∈ s.db.marks ∧ ∀ m ∈ s.db.marks, m.2 = f.result.id → m.1 = f.result.key := by
    have hrunning : f.result ∈ s.pc.running := by
      rw [hpc]
      exact List.mem_singleton_self f.result
    exact ⟨hthread.stored (hthread.finalizing f tasks hpc) f.result hrunning,
      unique_inFlight hrows (mark_running hrunning)⟩
  cases h with
  | raise err => exact .keep rfl rfl rfl (.inr (.inl ⟨err, rfl⟩))
  | finalizeRaise f tasks err w hpc hraise =>
    obtain ⟨hdb, hhistory, -⟩ := hraise.frame
    exact .keep (by rw [hdb]) (by rw [hdb]) (congrArg createdTasks hhistory) (.inr (.inl ⟨err, rfl⟩))
  | finalize f f' tasks w hpc hmove =>
    obtain ⟨hstored, hunique⟩ := hfinalize hpc
    exact resultStep_of_finalizeMove hmove hpc hstored hunique rfl rfl
  | finalized f tasks w hpc hmove =>
    obtain ⟨hstored, hunique⟩ := hfinalize hpc
    exact resultStep_of_finalizeMove hmove hpc hstored hunique rfl rfl
  | evict task tasks hpc =>
    obtain heq | ⟨oldest, hold, -, -, -, heq⟩ := Database.removeOldest_cases s.db
      cfg.maxDiskUsage i.percentUsed task.scheduleEntryName none
    · exact .keep (by rw [heq]) (by rw [heq]) rfl (.inr (.inr (by simp [hpc])))
    · exact .removeFirst task tasks oldest hpc rfl hold (by rw [heq]) rfl
  | create task tasks result db hpc hsave =>
    obtain ⟨hid, hresults, -, -⟩ := Database.superSave_new hsave
    exact .create task tasks result hpc rfl hresults (Database.superSave_key hsave) hid
      (by simp [Event.createdTask])
  | jump pc hjump =>
    refine .keep rfl rfl rfl (.inr (.inr ?_))
    cases hjump <;> simp_all
  | _ => exact .keep rfl rfl (by simp [Event.createdTask]) (.inr (.inr (by simp_all)))

theorem step_resultStep (hsync : cfg.asyncCallback = false) (hthread : InThread cfg s)
    (hrows : RowOrder s) (hl : Unedited True s l) (h : step cfg s l = some t) : ResultStep s t := by
  have hnone {k : ℕ} {f : Finalization} (hf : s.finalizations[k]? = some f) : False := by
    rw [hthread.alone hsync] at hf
    cases hf
  cases step_cases h with
  | sched i s' hmove => exact schedMove_resultStep hmove hthread hrows
  | finalizer k i f f' w hf => exact (hnone hf).elim
  | finalizerEnd k i f w hf => exact (hnone hf).elim
  | finalizerRaise k i f err w hf => exact (hnone hf).elim
  | measure recordingId task result started tasks hpc =>
    have hresults := Database.storeAcquisition_results s.db task.key recordingId
    refine .keep ?_ ?_ rfl (.inl rfl)
    · rw [hresults]
    · rw [Database.storedIds, hresults, Database.storedIds]
  | write k now q hq =>
    have hresults : (s.db.saveWhole (q.saved now)).results = s.db.results := by
      unfold Database.saveWhole
      split_ifs <;> rfl
    refine .keep ?_ ?_ rfl (.inl rfl)
    · rw [hresults]
    · rw [Database.storedIds, hresults, Database.storedIds]
  | crash => exact absurd trivial (hl.crash rfl).1
  | deleteEntry name => exact absurd rfl (hl.deleteEntry name)
  | deleteResult id => exact absurd rfl (hl.deleteResult id)
  | _ => exact .keep rfl rfl rfl (.inl rfl)

/-- The kept ids are the newest created ones. -/
def Window (ids : List ℕ) (due : ℕ) : Prop := ∃ m k, ids = List.range' m k ∧ m + k = due

theorem Window.tail {ids : List ℕ} {due : ℕ} (h : Window ids due) (hne : ids ≠ []) :
    Window ids.tail due := by
  obtain ⟨m, k, rfl, hsum⟩ := h
  cases k with
  | zero => exact absurd rfl hne
  | succ k => exact ⟨m + 1, k, rfl, by omega⟩

theorem Window.append {ids : List ℕ} {due : ℕ} (h : Window ids due) :
    Window (ids ++ [due]) (due + 1) := by
  obtain ⟨m, k, rfl, rfl⟩ := h
  exact ⟨m, k + 1, List.range'_1_concat.symm, by omega⟩

/-- The rows are in the order of their row ids, and those of each entry are a window of
the newest results, empty only before the first result and while a new one replaces the
only one. -/
structure Windowed (s : Sys) : Prop where
  sorted : s.db.storedIds.Pairwise (· < ·)
  window : ∀ name, Window (s.db.keptIds name) (s.dueId name)
  filled : ∀ name, s.db.keptIds name = [] → s.dueId name = 1 ∨
    (∃ task tasks, s.pc = .inserting task tasks ∧ task.scheduleEntryName = name) ∨
      ∃ err, s.pc = .dead err

theorem storedIds_deleteResult_sublist (db : Database) (id : ℕ) :
    ((db.deleteResult id).storedIds).Sublist db.storedIds := List.filter_sublist.map _

theorem keptIds_results {db db' : Database} (h : db'.results = db.results) (name : String) :
    db'.keptIds name = db.keptIds name := Database.keptIds_congr (by rw [h]) name

/-- The result that is being finalized is not the first row of its entry when the disk
limit takes that away. -/
theorem oldest_before_running (hs : Windowed s) {f : Finalization} {oldest : ResultRow}
    (hold : s.db.oldest? f.result.scheduleEntry = some oldest) (hne : oldest.id ≠ f.result.id)
    (hstored : f.result.mark ∈ s.db.marks) :
    (s.db.keptIds f.result.scheduleEntry).tail ≠ [] ∧ oldest.taskId < f.result.taskId := by
  obtain ⟨rest, hlist, hlater⟩ := Database.oldest?_eq_head hs.sorted hold
  obtain ⟨r, hr, hmark⟩ := List.mem_map.mp hstored
  have hid : r.id = f.result.id := congrArg Prod.snd hmark
  have hkey : r.key = f.result.key := congrArg Prod.fst hmark
  have hmem : r ∈ s.db.resultsOf f.result.scheduleEntry :=
    Database.mem_resultsOf.mpr ⟨hr, congrArg Prod.fst hkey⟩
  rw [hlist] at hmem
  have hrest : r ∈ rest := by
    rcases List.mem_cons.mp hmem with rfl | hrest
    · exact absurd hid hne
    · exact hrest
  have hids : s.db.keptIds f.result.scheduleEntry =
      oldest.taskId :: rest.map fun r => r.taskId := by
    rw [Database.keptIds, hlist, List.map_cons]
  constructor
  · rw [hids]
    exact List.ne_nil_of_mem (List.mem_map_of_mem hrest)
  · obtain ⟨m, k, hrange, -⟩ := hs.window f.result.scheduleEntry
    rw [hids] at hrange
    have hsorted : (oldest.taskId :: rest.map fun r => r.taskId).Pairwise (· < ·) :=
      hrange ▸ List.pairwise_lt_range'
    have hlt := (List.pairwise_cons.mp hsorted).1 r.taskId (List.mem_map_of_mem hrest)
    rwa [show r.taskId = f.result.taskId from congrArg Prod.snd hkey] at hlt

/-- While nothing is being replaced, an entry without results has not created any. -/
theorem Windowed.first_of_none (hs : Windowed s)
    (hinserting : ∀ task tasks, s.pc ≠ .inserting task tasks) (halive : ∀ err, s.pc ≠ .dead err)
    {name : String} (hnone : s.db.keptIds name = []) : s.dueId name = 1 := by
  obtain hfirst | ⟨task, tasks, hpc, -⟩ | ⟨err, hpc⟩ := hs.filled name hnone
  · exact hfirst
  · exact absurd hpc (hinserting task tasks)
  · exact absurd hpc (halive err)

/-- The removal of the oldest result of an entry, which is not the last one of it or is
replaced next. -/
theorem Windowed.of_removal (hs : Windowed s) {name : String} {oldest : ResultRow}
    (hold : s.db.oldest? name = some oldest)
    (hresults : t.db.results = (s.db.deleteResult oldest.id).results)
    (hcreated : createdTasks t.history = createdTasks s.history)
    (hfirst : ∀ other, s.db.keptIds other = [] → s.dueId other = 1)
    (hlast : (s.db.keptIds name).tail = [] →
      ∃ task tasks, t.pc = .inserting task tasks ∧ task.scheduleEntryName = name) : Windowed t := by
  have hkept (other : String) := (keptIds_results hresults other).trans
    (Database.keptIds_deleteOldest hs.sorted hold other)
  have hne : s.db.keptIds name ≠ [] :=
    List.ne_nil_of_mem (List.mem_map_of_mem (Database.oldest?_mem hold))
  refine ⟨?_, ?_, ?_⟩
  · rw [Database.storedIds, hresults]
    exact hs.sorted.sublist (storedIds_deleteResult_sublist s.db oldest.id)
  · intro other
    rw [hkept, dueId_congr hcreated]
    split_ifs with hname
    · rw [hname]
      exact (hs.window _).tail hne
    · exact hs.window other
  · intro other hnone
    rw [hkept] at hnone
    rw [dueId_congr hcreated]
    split_ifs at hnone with hname
    · rw [hname]
      exact .inr (.inl (hlast hnone))
    · exact .inl (hfirst other hnone)

/-- The new result is the next one of its entry, and the last row. -/
theorem Windowed.of_creation (hs : Windowed s) (hturn : InTurn s) (hfresh : RowsFresh s)
    {task : PendingTask} {tasks : List PendingTask} {result : ResultRow}
    (hpc : s.pc = .inserting task tasks) (hresults : t.db.results = s.db.results ++ [result])
    (hkey : result.key = task.key) (hid : result.id = s.db.nextId)
    (hcreated : createdTasks t.history = createdTasks s.history ++ [task]) : Windowed t := by
  have hname : result.scheduleEntry = task.scheduleEntryName := congrArg Prod.fst hkey
  have hturnId : result.taskId = s.dueId task.scheduleEntryName :=
    (congrArg Prod.snd hkey).trans (hturn.waiting task (by rw [hpc]; exact List.mem_cons_self))
  have hkept (name : String) : t.db.keptIds name = s.db.keptIds name ++
      if task.scheduleEntryName = name then [s.dueId name] else [] := by
    rw [Database.keptIds, Database.resultsOf, hresults, List.filter_append, List.map_append,
      ← Database.resultsOf, ← Database.keptIds]
    split_ifs with heq
    · subst heq
      simp [hname, hturnId]
    · simp [hname, heq]
  refine ⟨?_, ?_, ?_⟩
  · rw [Database.storedIds, hresults, List.map_append, List.map_singleton, hid]
    refine List.pairwise_append.mpr ⟨hs.sorted, List.pairwise_singleton _ _, ?_⟩
    intro id hstoredId next hnext
    obtain ⟨r, hr, rfl⟩ := List.mem_map.mp hstoredId
    rw [List.mem_singleton.mp hnext]
    exact hfresh r.mark (mark_stored hr)
  · intro name
    rw [hkept]
    split_ifs with heq
    · subst heq
      rw [dueId_create_self hcreated]
      exact (hs.window _).append
    · rw [List.append_nil, dueId_create_ne hcreated heq]
      exact hs.window name
  · intro name hnone
    rw [hkept] at hnone
    split_ifs at hnone with heq
    · simp at hnone
    · rw [List.append_nil] at hnone
      rw [dueId_create_ne hcreated heq]
      obtain hfirst | ⟨task', tasks', hpc', hname'⟩ | ⟨err, hpc'⟩ := hs.filled name hnone
      · exact .inl hfirst
      · rw [hpc] at hpc'
        obtain ⟨rfl, -⟩ := Pc.inserting.inj hpc'
        exact absurd hname' heq
      · rw [hpc] at hpc'
        cases hpc'

theorem Windowed.step (hs : Windowed s) (hturn : InTurn s) (hfresh : RowsFresh s)
    (hstored : ∀ f tasks, s.pc = .finalizing f tasks → f.result.mark ∈ s.db.marks)
    (h : ResultStep s t) : Windowed t := by
  cases h with
  | keep hkeys hids hcreated hpc =>
    refine ⟨hids ▸ hs.sorted, ?_, ?_⟩
    · intro name
      rw [Database.keptIds_congr hkeys, dueId_congr hcreated]
      exact hs.window name
    · intro name hnone
      rw [Database.keptIds_congr hkeys] at hnone
      rw [dueId_congr hcreated]
      obtain hsame | ⟨err, hdead⟩ | ⟨hinserting, halive⟩ := hpc
      · rw [hsame]
        exact hs.filled name hnone
      · exact .inr (.inr ⟨err, hdead⟩)
      · exact .inl (hs.first_of_none hinserting halive hnone)
  | removeFirst task tasks oldest hpc hpc' hold hresults hcreated =>
    have hfirst (other : String) : s.db.keptIds other = [] → s.dueId other = 1 :=
      hs.first_of_none (by simp [hpc]) (by simp [hpc])
    exact hs.of_removal hold hresults hcreated hfirst fun _ => ⟨task, tasks, hpc', rfl⟩
  | removeOther f tasks oldest hpc hold hne hresults hcreated =>
    have hfirst (other : String) : s.db.keptIds other = [] → s.dueId other = 1 :=
      hs.first_of_none (by simp [hpc]) (by simp [hpc])
    obtain ⟨hleft, -⟩ := oldest_before_running hs hold hne (hstored f tasks hpc)
    exact hs.of_removal hold hresults hcreated hfirst fun hnone => absurd hnone hleft
  | create task tasks result hpc hpc' hresults hkey hid hcreated =>
    exact hs.of_creation hturn hfresh hpc hresults hkey hid hcreated

/-- What holds at every point of a run without deaths and deletions. -/
structure Retaining (cfg : Settings) (s : Sys) : Prop where
  numbering : Numbering True s
  rows : RowOrder s
  thread : InThread cfg s
  windowed : Windowed s

theorem Retaining.running_stored (hs : Retaining cfg s) (f : Finalization)
    (tasks : List PendingTask) (hpc : s.pc = .finalizing f tasks) : f.result.mark ∈ s.db.marks := by
  apply hs.thread.stored (hs.thread.finalizing f tasks hpc)
  rw [hpc]
  exact List.mem_singleton_self f.result

theorem Retaining.step (hs : Retaining cfg s) (hsync : cfg.asyncCallback = false)
    (hl : Unedited True s l) (h : step cfg s l = some t) : Retaining cfg t :=
  ⟨hs.numbering.step hl h, step_rowOrder hs.rows hs.numbering.well.numbered.waiting h,
    step_inThread hs.thread hs.rows hl.deleteResult h,
    hs.windowed.step hs.numbering.turn hs.rows.fresh hs.running_stored
      (step_resultStep hsync hs.thread hs.rows hl h)⟩

/-- The step deletes no result, or an older one of the entry whose result is saved. -/
def RemovesOlder (cfg : Settings) (s : Sys) (l : Label) : Prop :=
  ∀ t, step cfg s l = some t → ∀ r ∈ s.db.results, r.id ∉ t.db.storedIds →
    ∃ x, saving s.pc = some x ∧ r.scheduleEntry = x.1 ∧ r.taskId < x.2

theorem Retaining.removesOlder (hs : Retaining cfg s) (hsync : cfg.asyncCallback = false)
    (hl : Unedited True s l) : RemovesOlder cfg s l := by
  intro t h r hr hgone
  have hstored : r.id ∈ s.db.storedIds := List.mem_map_of_mem hr
  have hnodup : s.db.storedIds.Nodup := hs.windowed.sorted.imp fun hlt => hlt.ne
  have holdest {oldest : ResultRow} {name : String} (hold : s.db.oldest? name = some oldest)
      (hresults : t.db.results = (s.db.deleteResult oldest.id).results) :
      r = oldest ∧ r.scheduleEntry = name := by
    obtain ⟨hmem, hname⟩ := Database.mem_resultsOf.mp (Database.oldest?_mem hold)
    have hid : r.id = oldest.id := by
      by_contra hne
      apply hgone
      rw [Database.storedIds, hresults]
      exact Database.mem_storedIds_deleteResult.mpr ⟨hstored, hne⟩
    obtain rfl := Table.eq_of_key_eq hnodup hr hmem hid
    exact ⟨rfl, hname⟩
  cases step_resultStep hsync hs.thread hs.rows hl h with
  | keep hkeys hids => exact absurd hstored (hids ▸ hgone)
  | removeFirst task tasks oldest hpc hpc' hold hresults hcreated =>
    obtain ⟨rfl, hname⟩ := holdest hold hresults
    refine ⟨task.key, by rw [hpc]; rfl, hname, ?_⟩
    obtain ⟨m, k, hrange, hsum⟩ := hs.windowed.window task.scheduleEntryName
    have hmem : r.taskId ∈ s.db.keptIds task.scheduleEntryName :=
      List.mem_map_of_mem (Database.oldest?_mem hold)
    have hturn := hs.numbering.turn.waiting task (by rw [hpc]; exact List.mem_cons_self)
    rw [hrange, List.mem_range'_1] at hmem
    show r.taskId < task.taskId
    omega
  | removeOther f tasks oldest hpc hold hne hresults hcreated =>
    obtain ⟨rfl, hname⟩ := holdest hold hresults
    refine ⟨f.result.key, by rw [hpc]; rfl, hname, ?_⟩
    exact (oldest_before_running hs.windowed hold hne (hs.running_stored f tasks hpc)).2
  | create task tasks result hpc hpc' hresults =>
    rw [Database.storedIds, hresults] at hgone
    exact absurd (List.mem_map_of_mem (List.mem_append_left _ hr)) hgone

/-- The process is not restarted and nothing is deleted over the API. -/
def NoDeletions : Label → Prop
  | .crash => False
  | .deleteEntry _ => False
  | .deleteResult _ => False
  | _ => True

instance : DecidablePred NoDeletions
  | .sched _ => .isTrue trivial
  | .finalizer _ _ => .isTrue trivial
  | .measure _ => .isTrue trivial
  | .stop => .isTrue trivial
  | .crash => .isFalse id
  | .post _ _ _ _ => .isTrue trivial
  | .read _ _ => .isTrue trivial
  | .write _ _ => .isTrue trivial
  | .deleteEntry _ => .isFalse id
  | .deleteResult _ => .isFalse id

theorem unedited_of_noDeletions (hl : NoDeletions l) (hatomic : AtomicRequests s l) :
    Unedited True s l := by
  refine ⟨?_, ?_, ?_, ?_⟩
  · intro heq
    subst heq
    exact hl.elim
  · intro k now heq
    subst heq
    exact ⟨trivial, hatomic⟩
  · intro name heq
    subst heq
    exact hl
  · intro id heq
    subst heq
    exact hl

theorem atomicRequests_of_noRequests (hl : NoRequests l) (s : Sys) : AtomicRequests s l := by
  cases l with
  | write => exact hl.elim
  | deleteEntry => exact hl.elim
  | _ => trivial

/-- A process that starts on entries without results. -/
theorem retaining_start (cfg : Settings) {rows : List ScheduleEntry}
    (hnames : (rows.map ScheduleEntry.name).Nodup) (hfirst : ∀ e ∈ rows, e.nextTaskId = 1) :
    Retaining cfg { db := { schedule := rows } } := by
  refine ⟨numbering_start True hnames hfirst, rowOrder_start rows, inThread_start cfg _, ?_⟩
  refine ⟨List.Pairwise.nil, ?_, ?_⟩
  · intro name
    exact ⟨1, 0, rfl, rfl⟩
  · intro name _
    exact .inl rfl

/-- In every run with finalizations in the thread, without deaths and deletions, with
entries created and updated at any time, the stored results of every entry at the end of
a pass are those with the ids from some `m` up to the one before the next task id, in this
order, and one at least when a result was created; and all along the run no save deletes
anything but an older result of the same entry. -/
theorem kept_results_window (cfg : Settings) (hsync : cfg.asyncCallback = false)
    (rows : List ScheduleEntry) (hnames : (rows.map ScheduleEntry.name).Nodup)
    (hfirst : ∀ e ∈ rows, e.nextTaskId = 1) (ls : List Label) (t : Sys)
    (hls : ∀ l ∈ ls, NoDeletions l)
    (hatomic : Along (step cfg) AtomicRequests { db := { schedule := rows } } ls)
    (hrun : exec (step cfg) { db := { schedule := rows } } ls = some t) :
    (t.pc = .passDone → ∀ row ∈ t.db.schedule, ∃ m k,
        (t.db.resultsOf row.name).map (fun r => r.taskId) = List.range' m k ∧
          m + k = row.nextTaskId ∧ (createdIds t.history row.name ≠ [] → 0 < k)) ∧
      Along (step cfg) (RemovesOlder cfg) { db := { schedule := rows } } ls := by
  have hquiet : Along (step cfg) (fun _ l => NoDeletions l) { db := { schedule := rows } } ls :=
    Along.of_forall_mem fun l hl _ => hls l hl
  have hstart := retaining_start cfg hnames hfirst
  have hstep : ∀ s l s', Retaining cfg s → NoDeletions l ∧ AtomicRequests s l →
      step cfg s l = some s' → Retaining cfg s' :=
    fun s l s' hs hl h => hs.step hsync (unedited_of_noDeletions hl.1 hl.2) h
  constructor
  · intro hpc row hrow
    have hend := exec_invariant hstep hstart (hquiet.and hatomic) hrun
    have hstored := Table.get?_of_mem hend.numbering.well.names hrow
    have hdue := hend.numbering.counters.due row.name row hstored (.inr (.inr trivial))
      (by simp [hpc, AwaitsReset]) (by simp [hpc])
    rw [CounterDue, Sys.waitingOf, hpc] at hdue
    obtain ⟨m, k, hrange, hsum⟩ := hend.windowed.window row.name
    refine ⟨m, k, hrange, hsum.trans hdue.symm, ?_⟩
    intro hcreated
    cases k with
    | succ k => exact Nat.succ_pos k
    | zero =>
      obtain hfirst | ⟨task, tasks, hpc', -⟩ | ⟨err, hpc'⟩ := hend.windowed.filled row.name hrange
      · exact absurd (List.length_eq_zero_iff.mp (Nat.succ.inj hfirst)) hcreated
      · rw [hpc] at hpc'
        cases hpc'
      · rw [hpc] at hpc'
        cases hpc'
  · refine along_of_invariant hstep ?_ hstart (hquiet.and hatomic)
    intro s l hs hl
    exact hs.removesOlder hsync (unedited_of_noDeletions hl.1 hl.2)

/-- Two passes over the disk limit: the second task takes the data of the first away. -/
def twoPasses : List Label :=
  upToAction 0 ++ .measure 1 :: List.replicate 8 (.sched { percentUsed := 100 }) ++
    List.replicate 19 (.sched { now := 10, percentUsed := 100 })

theorem kept_results_window_twoPasses :
    ∃ t, exec (step inThread) { db := { schedule := everyTen } } twoPasses = some t ∧
      t.pc = .passDone ∧ t.db.keptIds "sweep" = [2] ∧
      ∀ row ∈ t.db.schedule, ∃ m k,
        (t.db.resultsOf row.name).map (fun r => r.taskId) = List.range' m k ∧
          m + k = row.nextTaskId ∧ (createdIds t.history row.name ≠ [] → 0 < k) := by
  have hend : (exec (step inThread) { db := { schedule := everyTen } } twoPasses).map
      (fun t => (t.pc, t.db.keptIds "sweep")) = some (.passDone, [2]) := by decide
  obtain ⟨t, ht, heq⟩ := Option.map_eq_some_iff.mp hend
  obtain ⟨hpc, hkept⟩ := Prod.mk.inj heq
  have hown : ∀ l ∈ twoPasses, NoRequests l := by decide
  refine ⟨t, ht, hpc, hkept, (kept_results_window inThread rfl everyTen (by decide) (by decide)
    twoPasses t (by decide) ?_ ht).1 hpc⟩
  exact Along.of_forall_mem fun l hl s => atomicRequests_of_noRequests (hown l hl) s

end Scheduler

end ScosSensor
