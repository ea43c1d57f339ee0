import ScosSensor.Counters
import ScosSensor.EntryRows

/-!
# The tasks in memory and the ids in use

A pass has at most one instance, task or running result of each entry at a time.
The ids in use are those of the stored results and of the results that are open
and may be stored again. A task that waits has an id past all of these, and so
has every instance that the pass still holds.
-/
namespace ScosSensor

open Counters

namespace Pc

/-- The entries that the thread is working on. -/
def liveNames (pc : Pc) : List String :=
  pc.held.map ScheduleEntry.name ++ pc.waiting.map Task.scheduleEntryName ++
    pc.running.map fun r => r.scheduleEntry

/-- An entry that is passed over is no longer worked on. -/
theorem liveNames_settled (taskTime : Option ℤ) (e : ScheduleEntry) (todo : List ScheduleEntry)
    (queue : TaskQueue ℕ) : (settled taskTime e todo queue).liveNames.Sublist
      ((e :: todo).map ScheduleEntry.name ++ queue.map Task.scheduleEntryName) := by
  cases taskTime with
  | none => simp [settled, liveNames, held, waiting, running]
  | some taskTime => simp [settled, liveNames, held, waiting, running]

end Pc

/-- The ids that the counters of the schedule give out next. -/
def Database.nextTaskIds (db : Database) (name : String) : Option ℕ :=
  (db.getEntry name).map ScheduleEntry.nextTaskId

/-- The counter that a write of one row leaves. -/
theorem Database.nextTaskIds_writeRow {db : Database} {name : String} (nextTaskId : ℕ)
    (hstored : (db.getEntry name).isSome) :
    (db.writeRow name fun row => { row with nextTaskId }).nextTaskIds name = some nextTaskId := by
  obtain ⟨row, hrow⟩ := Option.isSome_iff_exists.mp hstored
  have hcolumns : ∀ row : ScheduleEntry, ({ row with nextTaskId } : ScheduleEntry).name = row.name :=
    fun _ => rfl
  rw [nextTaskIds, getEntry_writeRow hcolumns hrow, if_pos rfl]
  rfl

/-- The results that a finalization will still save, or save again. -/
def Sys.openResults (s : Sys) : List ResultRow :=
  s.pc.running ++ s.finalizations.map Finalization.result

/-- What a result is stored under: its key and its row id. -/
def ResultRow.mark (r : ResultRow) : (String × ℕ) × ℕ := (r.key, r.id)

/-- The marks of the results that are stored or may be. -/
def Sys.marks (s : Sys) : List ((String × ℕ) × ℕ) :=
  (s.db.results ++ s.openResults).map ResultRow.mark

/-- The task ids of the results that are stored or may be. -/
def Sys.usedIds (s : Sys) : List (String × ℕ) := s.marks.map Prod.fst

namespace Scheduler

open Runs

variable {cfg : Settings} {s t : Sys} {l : Label} {i : Input}

theorem Jump.liveNames {pc : Pc} (h : Jump cfg s pc) : pc.liveNames.Perm s.pc.liveNames := by
  unfold Pc.liveNames
  rw [h.held, h.running]
  exact ((h.waiting.map _).append_left _).append_right _

/-- A step of the thread takes up no further entry, except with a new snapshot. -/
theorem schedMove_liveNames (h : SchedMove cfg i s t) :
    t.pc.liveNames.Subperm s.pc.liveNames ∨
      s.pc = .reading ∧ t.pc.liveNames = s.db.activeEntries.map ScheduleEntry.name := by
  cases h with
  | read hpc => exact .inr ⟨hpc, by simp [Pc.liveNames, Pc.held, Pc.waiting, Pc.running]⟩
  | jump pc hjump => exact .inl hjump.liveNames.subperm
  | raise err => exact .inl (List.nil_subperm)
  | finalizeRaise => exact .inl (List.nil_subperm)
  | reset e todo last hpc => exact .inl (List.nil_subperm)
  | take e todo queue hpc =>
    refine .inl ?_
    simp [hpc, Pc.liveNames, Pc.held, Pc.waiting, Pc.running, List.Subperm.refl]
  | keep taskTime e todo queue hpc =>
    refine .inl (List.Sublist.subperm ?_)
    simpa [hpc, Pc.liveNames, Pc.held, Pc.waiting, Pc.running] using
      Pc.liveNames_settled taskTime e todo queue
  | cancel taskTime e todo queue hpc =>
    refine .inl (List.Sublist.subperm ?_)
    simpa [hpc, Pc.liveNames, Pc.held, Pc.waiting, Pc.running] using
      Pc.liveNames_settled taskTime { e with isActive := false } todo queue
  | number taskTime e todo queue hpc =>
    refine .inl (List.Perm.subperm ?_)
    have henter := (TaskQueue.enter_perm queue taskTime e.priority e.action e.name
      e.nextTaskId).map Task.scheduleEntryName
    simpa [hpc, Pc.liveNames, Pc.held, Pc.waiting, Pc.running] using
      (henter.append_left (todo.map ScheduleEntry.name)).trans List.perm_middle
  | fetch task tasks e hpc =>
    refine .inl ?_
    simp [hpc, Pc.liveNames, Pc.held, Pc.waiting, Pc.running, List.Subperm.refl]
  | evict task tasks hpc =>
    refine .inl ?_
    simp [hpc, Pc.liveNames, Pc.held, Pc.waiting, Pc.running, List.Subperm.refl]
  | create task tasks result db hpc hsave =>
    refine .inl (List.Perm.subperm ?_)
    have hname : result.scheduleEntry = task.scheduleEntryName :=
      congrArg Prod.fst (Database.superSave_key hsave)
    simp [hpc, Pc.liveNames, Pc.held, Pc.waiting, Pc.running, hname]
  | call task result tasks hpc =>
    refine .inl ?_
    simp [hpc, Pc.liveNames, Pc.held, Pc.waiting, Pc.running, List.Subperm.refl]
  | spawn task result started tasks hpc =>
    refine .inl (List.Sublist.subperm ?_)
    simp [hpc, Pc.liveNames, Pc.held, Pc.waiting, Pc.running]
  | finish task result started tasks hpc =>
    refine .inl ?_
    simp [hpc, Pc.liveNames, Pc.held, Pc.waiting, Pc.running, startFinalization, finalResult,
      List.Subperm.refl]
  | finalize f f' tasks w hpc hmove =>
    refine .inl ?_
    have hname : f'.result.scheduleEntry = f.result.scheduleEntry :=
      congrArg Prod.fst hmove.result.2
    simp [hpc, Pc.liveNames, Pc.held, Pc.waiting, Pc.running, hname, List.Subperm.refl]
  | finalized f tasks w hpc hmove =>
    refine .inl (List.Sublist.subperm ?_)
    simp [hpc, Pc.liveNames, Pc.held, Pc.waiting, Pc.running]

theorem step_liveNames (h : step cfg s l = some t) :
    t.pc.liveNames.Subperm s.pc.liveNames ∨
      s.pc = .reading ∧ t.pc.liveNames = s.db.activeEntries.map ScheduleEntry.name := by
  cases step_cases h with
  | sched i s' hmove => exact schedMove_liveNames hmove
  | crash => exact .inl List.nil_subperm
  | _ => exact .inl (List.Subperm.refl _)

/-- A step of the thread makes tasks wait only by numbering them. -/
theorem step_waiting (h : step cfg s l = some t) :
    (∀ x ∈ t.pc.waiting, x ∈ s.pc.waiting) ∨
      ∃ taskTime e todo queue, s.pc = .numbering taskTime e todo queue ∧
        t.pc = .taking todo (queue.enter taskTime e.priority e.action e.name e.nextTaskId) ∧
        t.db.nextTaskIds e.name = some (e.nextTaskId + 1) := by
  cases step_cases h with
  | sched i s' hmove =>
    cases hmove with
    | number taskTime e todo queue hpc hstored =>
      exact .inr ⟨taskTime, e, todo, queue, hpc, rfl,
        Database.nextTaskIds_writeRow (e.nextTaskId + 1) hstored⟩
    | jump pc hjump => exact .inl fun x hx => hjump.waiting.subset hx
    | keep taskTime e todo queue hpc | cancel taskTime e todo queue hpc =>
      refine .inl ?_
      intro x hx
      rw [hpc]
      cases taskTime <;> exact hx
    | take e todo queue hpc =>
      refine .inl ?_
      rw [hpc]
      exact fun x hx => hx
    | fetch task tasks e hpc | evict task tasks hpc =>
      refine .inl ?_
      rw [hpc]
      exact fun x hx => hx
    | create task tasks result db hpc =>
      refine .inl ?_
      rw [hpc]
      exact fun x hx => List.mem_cons_of_mem task hx
    | call task result tasks hpc | spawn task result started tasks hpc
    | finish task result started tasks hpc =>
      refine .inl ?_
      rw [hpc]
      exact fun x hx => hx
    | finalize f f' tasks w hpc | finalized f tasks w hpc =>
      refine .inl ?_
      rw [hpc]
      exact fun x hx => hx
    | raise | read | reset | finalizeRaise =>
      refine .inl ?_
      intro x hx
      cases hx
  | crash =>
    refine .inl ?_
    intro x hx
    cases hx
  | _ => exact .inl fun x hx => hx

/-- A finalization adds to the results at most its own. -/
theorem FinalizeMove.results {f : Finalization} {w w' : World} {next : Option Finalization}
    {r : ResultRow} (h : FinalizeMove cfg i f w next w') (hr : r ∈ w'.db.results) :
    r ∈ w.db.results ∨ r.mark = f.result.mark := by
  obtain hdb | hdb | ⟨row, hsave⟩ := h.db
  · exact .inl (hdb ▸ hr)
  · rw [hdb] at hr
    exact .inl (Database.mem_of_mem_removeOldest hr)
  · obtain hold | hnew := Database.mem_of_mem_superSave hsave hr
    · exact .inl hold
    · rw [hnew]
      exact .inr (Prod.ext (Database.superSave_key hsave) (Database.superSave_id hsave))

theorem FinalizeMove.mark {f f' : Finalization} {w w' : World}
    (h : FinalizeMove cfg i f w (some f') w') : f'.result.mark = f.result.mark :=
  Prod.ext h.result.2 h.result.1

theorem mem_marks {x : (String × ℕ) × ℕ} : x ∈ s.marks ↔
    (∃ r ∈ s.db.results, r.mark = x) ∨ (∃ r ∈ s.pc.running, r.mark = x) ∨
      ∃ f ∈ s.finalizations, f.result.mark = x := by
  simp only [Sys.marks, Sys.openResults, List.map_append, List.mem_append, List.mem_map,
    List.map_map, Function.comp_apply]

theorem marks_subset (hresults : ∀ r ∈ t.db.results, r.mark ∈ s.marks)
    (hrunning : ∀ r ∈ t.pc.running, r.mark ∈ s.marks)
    (hfinalizations : ∀ f ∈ t.finalizations, f.result.mark ∈ s.marks) :
    ∀ x ∈ t.marks, x ∈ s.marks := by
  intro x hx
  obtain ⟨r, hr, rfl⟩ | ⟨r, hr, rfl⟩ | ⟨f, hf, rfl⟩ := mem_marks.mp hx
  · exact hresults r hr
  · exact hrunning r hr
  · exact hfinalizations f hf

theorem mark_stored {r : ResultRow} (h : r ∈ s.db.results) : r.mark ∈ s.marks :=
  mem_marks.mpr (.inl ⟨r, h, rfl⟩)

theorem mark_running {r : ResultRow} (h : r ∈ s.pc.running) : r.mark ∈ s.marks :=
  mem_marks.mpr (.inr (.inl ⟨r, h, rfl⟩))

theorem mark_inFlight {f : Finalization} (h : f ∈ s.finalizations) : f.result.mark ∈ s.marks :=
  mem_marks.mpr (.inr (.inr ⟨f, h, rfl⟩))

/-- The step makes a result for the task `task`, under a new row id. -/
structure Creates (s t : Sys) (task : PendingTask) : Prop where
  pc : ∃ tasks result, s.pc = .inserting task tasks ∧ t.pc = .calling task result tasks
  marks : ∀ x ∈ t.marks, x ∈ s.marks ∨ x = (task.key, s.db.nextId)
  nextId : t.db.nextId = s.db.nextId + 1

/-- A step of the thread makes a new mark only by creating a result. -/
theorem schedMove_marks (h : SchedMove cfg i s t) :
    (∀ x ∈ t.marks, x ∈ s.marks) ∨ ∃ task, Creates s t task := by
  cases h with
  | create task tasks result db hpc hsave =>
    obtain ⟨hid, hresults, hnext, -⟩ := Database.superSave_new hsave
    have hmark : result.mark = (task.key, s.db.nextId) :=
      Prod.ext (Database.superSave_key hsave) hid
    refine .inr ⟨task, ⟨tasks, result, hpc, rfl⟩, ?_, hnext⟩
    intro x hx
    obtain ⟨r, hr, rfl⟩ | ⟨r, hr, rfl⟩ | ⟨f, hf, rfl⟩ := mem_marks.mp hx
    · obtain hold | hnew := Database.mem_of_mem_superSave hsave hr
      · exact .inl (mark_stored hold)
      · exact .inr (hnew ▸ hmark)
    · exact .inr (List.mem_singleton.mp hr ▸ hmark)
    · exact .inl (mark_inFlight hf)
  | jump pc hjump =>
    refine .inl (marks_subset (fun _ h => mark_stored h) ?_ (fun _ h => mark_inFlight h))
    intro r hr
    exact mark_running (hjump.running ▸ hr)
  | evict task tasks hpc =>
    refine .inl (marks_subset ?_ (fun _ h => nomatch h) (fun _ h => mark_inFlight h))
    intro r hr
    exact mark_stored (Database.mem_of_mem_removeOldest hr)
  | call task result tasks hpc =>
    refine .inl (marks_subset (fun _ h => mark_stored h) ?_ (fun _ h => mark_inFlight h))
    intro r hr
    exact mark_running (hpc ▸ hr)
  | spawn task result started tasks hpc =>
    refine .inl (marks_subset (fun _ h => mark_stored h) (fun _ h => nomatch h) ?_)
    intro f hf
    rcases List.mem_append.mp hf with hf | hf
    · exact mark_inFlight hf
    · obtain rfl := List.mem_singleton.mp hf
      have hrunning : result ∈ s.pc.running := hpc ▸ List.mem_singleton_self result
      show result.mark ∈ s.marks
      exact mark_running hrunning
  | finish task result started tasks hpc =>
    refine .inl (marks_subset (fun _ h => mark_stored h) ?_ (fun _ h => mark_inFlight h))
    intro r hr
    obtain rfl := List.mem_singleton.mp hr
    have hrunning : result ∈ s.pc.running := hpc ▸ List.mem_singleton_self result
    show result.mark ∈ s.marks
    exact mark_running hrunning
  | finalize f f' tasks w hpc hmove =>
    have hrunning : f.result ∈ s.pc.running := hpc ▸ List.mem_singleton_self f.result
    refine .inl (marks_subset ?_ ?_ (fun _ h => mark_inFlight h))
    · intro r hr
      obtain hold | hown := hmove.results hr
      · exact mark_stored hold
      · exact hown ▸ mark_running hrunning
    · intro r hr
      obtain rfl := List.mem_singleton.mp hr
      exact hmove.mark ▸ mark_running hrunning
  | finalized f tasks w hpc hmove =>
    have hrunning : f.result ∈ s.pc.running := hpc ▸ List.mem_singleton_self f.result
    refine .inl (marks_subset ?_ (fun _ h => nomatch h) (fun _ h => mark_inFlight h))
    intro r hr
    obtain hold | hown := hmove.results hr
    · exact mark_stored hold
    · exact hown ▸ mark_running hrunning
  | finalizeRaise f tasks err w hpc hraise =>
    refine .inl (marks_subset ?_ (fun _ h => nomatch h) (fun _ h => mark_inFlight h))
    intro r hr
    exact mark_stored (hraise.frame.1 ▸ hr)
  | keep taskTime e todo queue hpc | cancel taskTime e todo queue hpc =>
    refine .inl (marks_subset (fun _ h => mark_stored h) ?_ (fun _ h => mark_inFlight h))
    intro r hr
    cases taskTime <;> cases hr
  | _ =>
    exact .inl (marks_subset (fun _ h => mark_stored h) (fun _ h => nomatch h)
      (fun _ h => mark_inFlight h))

theorem step_marks (h : step cfg s l = some t) :
    (∀ x ∈ t.marks, x ∈ s.marks) ∨ ∃ task, Creates s t task := by
  cases step_cases h with
  | sched i s' hmove => exact schedMove_marks hmove
  | finalizer k i f f' w hf hmove =>
    have hflight : f ∈ s.finalizations := List.mem_of_getElem? hf
    refine .inl (marks_subset ?_ (fun _ h => mark_running h) ?_)
    · intro r hr
      obtain hold | hown := hmove.results hr
      · exact mark_stored hold
      · exact hown ▸ mark_inFlight hflight
    · intro g hg
      obtain hold | hnew := List.mem_or_eq_of_mem_set hg
      · exact mark_inFlight hold
      · rw [hnew, hmove.mark]
        exact mark_inFlight hflight
  | finalizerEnd k i f w hf hmove =>
    refine .inl (marks_subset ?_ (fun _ h => mark_running h) ?_)
    · intro r hr
      obtain hold | hown := hmove.results hr
      · exact mark_stored hold
      · exact hown ▸ mark_inFlight (List.mem_of_getElem? hf)
    · intro g hg
      exact mark_inFlight (List.mem_of_mem_eraseIdx hg)
  | finalizerRaise k i f err w hf hraise =>
    refine .inl (marks_subset ?_ (fun _ h => mark_running h) ?_)
    · intro r hr
      exact mark_stored (hraise.frame.1 ▸ hr)
    · intro g hg
      exact mark_inFlight (List.mem_of_mem_eraseIdx hg)
  | measure recordingId =>
    refine .inl (marks_subset ?_ (fun _ h => mark_running h) (fun _ h => mark_inFlight h))
    intro r hr
    rw [Database.storeAcquisition_results] at hr
    exact mark_stored hr
  | crash =>
    exact .inl (marks_subset (fun _ h => mark_stored h) (fun _ h => nomatch h) (fun _ h => nomatch h))
  | write k now q hq =>
    refine .inl (marks_subset ?_ (fun _ h => mark_running h) (fun _ h => mark_inFlight h))
    intro r hr
    unfold Database.saveWhole at hr
    split_ifs at hr <;> exact mark_stored hr
  | deleteEntry name db hremove =>
    refine .inl (marks_subset ?_ (fun _ h => mark_running h) (fun _ h => mark_inFlight h))
    intro r hr
    obtain ⟨-, -, rfl⟩ := Database.removeEntry_some hremove
    exact mark_stored hr
  | deleteResult id hid =>
    refine .inl (marks_subset ?_ (fun _ h => mark_running h) (fun _ h => mark_inFlight h))
    intro r hr
    exact mark_stored (Database.mem_deleteResult.mp hr).1
  | _ => exact .inl fun x hx => hx

/-- The ids that are in use before a step and after it differ by at most the one
of a result that the step creates. -/
def CreatesAtMost (s t : Sys) (used used' : List (String × ℕ)) : Prop :=
  (∀ x ∈ used', x ∈ used) ∨
    ∃ task tasks, s.pc = .inserting task tasks ∧ t.pc.waiting = tasks ∧ t.pc.held = [] ∧
      ∀ x ∈ used', x ∈ used ∨ x = task.key

theorem CreatesAtMost.subset {used used' : List (String × ℕ)} (h : CreatesAtMost s t used used') :
    ∀ x ∈ used', x ∈ used ++ s.pc.waiting.map Task.key := by
  intro x hx
  obtain hsub | ⟨task, tasks, hpc, -, -, hnew⟩ := h
  · exact List.mem_append_left _ (hsub x hx)
  · obtain hold | heq := hnew x hx
    · exact List.mem_append_left _ hold
    · rw [heq, hpc]
      exact List.mem_append_right _ List.mem_cons_self

theorem key_used {r : ResultRow} (h : r.mark ∈ s.marks) : r.key ∈ s.usedIds :=
  List.mem_map.mpr ⟨r.mark, h, rfl⟩

theorem step_usedIds (h : step cfg s l = some t) : CreatesAtMost s t s.usedIds t.usedIds := by
  obtain hsub | ⟨task, ⟨tasks, result, hpc, hpc'⟩, hmarks, -⟩ := step_marks h
  · refine .inl ?_
    intro x hx
    obtain ⟨m, hm, rfl⟩ := List.mem_map.mp hx
    exact List.mem_map_of_mem (hsub m hm)
  · refine .inr ⟨task, tasks, hpc, by rw [hpc']; rfl, by rw [hpc']; rfl, ?_⟩
    intro x hx
    obtain ⟨m, hm, rfl⟩ := List.mem_map.mp hx
    obtain hold | hnew := hmarks m hm
    · exact .inl (List.mem_map_of_mem hold)
    · exact .inr (congrArg Prod.fst hnew)

end Scheduler

end ScosSensor
