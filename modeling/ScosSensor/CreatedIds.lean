import ScosSensor.TaskIds

/-!
# The ids of created results

The results of an entry are created under consecutive ids as long as its counter
stands behind the task that waits, or at the id whose turn it is. A step moves the
counter, the tasks that wait and the created results in a few ways only, and a
restart begins with the counters that the last process has left.
-/
namespace ScosSensor

/-- Consecutive ids from 1 on. -/
def GapFree (ids : List ℕ) : Prop := ids = List.range' 1 ids.length

theorem gapFree_nil : GapFree [] := rfl

theorem GapFree.append {ids : List ℕ} (h : GapFree ids) : GapFree (ids ++ [ids.length + 1]) := by
  unfold GapFree at h ⊢
  rw [List.length_append, List.length_singleton, List.range'_1_concat, ← h, Nat.add_comm 1]

/-- The ids of the results that were created for an entry, in this order. -/
def createdIds (history : List Event) (name : String) : List ℕ :=
  ((createdTasks history).filter fun x => x.scheduleEntryName = name).map Task.taskId

theorem createdIds_congr {history history' : List Event}
    (h : createdTasks history' = createdTasks history) (name : String) :
    createdIds history' name = createdIds history name := by
  rw [createdIds, h, createdIds]

namespace Sys

/-- The id whose turn it is in an entry. -/
def dueId (s : Sys) (name : String) : ℕ := (createdIds s.history name).length + 1

/-- How many tasks of an entry wait. -/
def waitingOf (s : Sys) (name : String) : ℕ :=
  (s.pc.waiting.map Task.scheduleEntryName).count name

end Sys

namespace Scheduler

open Runs

variable {cfg : Settings} {s t : Sys} {l : Label} {i : Input} {name : String}

/-- What a step does to the instances held, the tasks that wait and the results
created. -/
inductive IdStep (s : Sys) (l : Label) (t : Sys) : Prop
  | keep (hwaiting : t.pc.waiting.Perm s.pc.waiting)
      (hheld : ∀ e ∈ t.pc.held, ∃ a ∈ s.pc.held, a.name = e.name ∧ a.nextTaskId = e.nextTaskId)
      (hcreated : createdTasks t.history = createdTasks s.history)
      (hnumber : ∀ i taskTime e todo queue, l = .sched i → s.pc ≠ .numbering taskTime e todo queue)
  | snapshot (hpc : s.pc = .reading) (hheld : t.pc.held = s.db.activeEntries)
      (hwaiting : t.pc.waiting = []) (hcreated : createdTasks t.history = createdTasks s.history)
  | number (taskTime : ℤ) (e : ScheduleEntry) (todo : List ScheduleEntry) (queue : TaskQueue ℕ)
      (hpc : s.pc = .numbering taskTime e todo queue)
      (hpc' : t.pc = .taking todo (queue.enter taskTime e.priority e.action e.name e.nextTaskId))
      (hstored : (s.db.getEntry e.name).isSome)
      (hnext : t.db.nextTaskIds e.name = some (e.nextTaskId + 1))
      (hcreated : createdTasks t.history = createdTasks s.history)
  | create (task : PendingTask) (tasks : List PendingTask) (result : ResultRow)
      (hpc : s.pc = .inserting task tasks) (hpc' : t.pc = .calling task result tasks)
      (hcreated : createdTasks t.history = createdTasks s.history ++ [task])
      (hstored : (s.db.getEntry task.scheduleEntryName).isSome)
  | lose (hpc : l = .crash ∧ t.pc = .starting ∨ ∃ err, t.pc = .dead err)
      (hcreated : createdTasks t.history = createdTasks s.history)

theorem schedMove_idStep (h : SchedMove cfg i s t) : IdStep s (.sched i) t := by
  have hsame {e : ScheduleEntry} (he : e ∈ s.pc.held) :
      ∃ a ∈ s.pc.held, a.name = e.name ∧ a.nextTaskId = e.nextTaskId := ⟨e, he, rfl, rfl⟩
  cases h with
  | raise err => exact .lose (.inr ⟨err, rfl⟩) rfl
  | finalizeRaise f tasks err w hpc hraise =>
    exact .lose (.inr ⟨err, rfl⟩) (congrArg createdTasks hraise.frame.2.1)
  | jump pc hjump =>
    refine .keep hjump.waiting (fun e he => hsame (hjump.held ▸ he)) rfl ?_
    intro i taskTime e todo queue _ hpc
    cases hjump <;> simp_all
  | reset e todo last hpc =>
    exact .keep (by rw [hpc]; exact .refl _) (fun _ he => by cases he) rfl (by simp [hpc])
  | read hpc => exact .snapshot hpc rfl rfl rfl
  | take e todo queue hpc =>
    refine .keep (by rw [hpc]; exact .refl _) ?_ (by simp [Event.createdTask]) (by simp [hpc])
    intro a ha
    rw [hpc]
    rcases List.mem_cons.mp ha with rfl | ha
    · exact ⟨e, List.mem_cons_self, (ScheduleEntry.takePending_name e i.now).symm,
        (ScheduleEntry.takeUntil_nextTaskId e (i.now + 1)).symm⟩
    · exact ⟨a, List.mem_cons_of_mem e ha, rfl, rfl⟩
  | keep taskTime e todo queue hpc =>
    refine .keep (by rw [hpc]; cases taskTime <;> exact .refl _) ?_ rfl (by simp [hpc])
    intro a ha
    exact hsame (hpc ▸ (Pc.held_settled taskTime e todo queue).subset ha)
  | cancel taskTime e todo queue hpc =>
    refine .keep (by rw [hpc]; cases taskTime <;> exact .refl _) ?_ rfl (by simp [hpc])
    intro a ha
    rw [hpc]
    rcases List.mem_cons.mp ((Pc.held_settled taskTime _ todo queue).subset ha) with rfl | ha
    · exact ⟨e, List.mem_cons_self, rfl, rfl⟩
    · exact ⟨a, List.mem_cons_of_mem e ha, rfl, rfl⟩
  | number taskTime e todo queue hpc hstored =>
    exact .number taskTime e todo queue hpc rfl hstored
      (Database.nextTaskIds_writeRow (e.nextTaskId + 1) hstored) (by simp [Event.createdTask])
  | create task tasks result db hpc hsave =>
    refine .create task tasks result hpc rfl (by simp [Event.createdTask]) ?_
    obtain ⟨hself, -⟩ | ⟨-, hinsert⟩ := Database.superSave_ok hsave
    · cases hself
    · exact (Database.insertRow_ok hinsert).2.2.1
  | fetch task tasks e hpc | evict task tasks hpc =>
    exact .keep (by rw [hpc]; exact .refl _) (fun _ he => by cases he) rfl (by simp [hpc])
  | call task result tasks hpc | spawn task result started tasks hpc
  | finish task result started tasks hpc =>
    exact .keep (by rw [hpc]; exact .refl _) (fun _ he => by cases he) (by simp [Event.createdTask])
      (by simp [hpc])
  | finalize f f' tasks w hpc hmove | finalized f tasks w hpc hmove =>
    exact .keep (by rw [hpc]; exact .refl _) (fun _ he => by cases he) hmove.createdTasks
      (by simp [hpc])

theorem step_idStep (h : step cfg s l = some t) : IdStep s l t := by
  have hsame : ∀ e ∈ s.pc.held, ∃ a ∈ s.pc.held, a.name = e.name ∧ a.nextTaskId = e.nextTaskId :=
    fun e he => ⟨e, he, rfl, rfl⟩
  cases step_cases h with
  | sched i s' hmove => exact schedMove_idStep hmove
  | finalizer k i f f' w hf hmove => exact .keep (.refl _) hsame hmove.createdTasks (by simp)
  | finalizerEnd k i f w hf hmove => exact .keep (.refl _) hsame hmove.createdTasks (by simp)
  | finalizerRaise k i f err w hf hraise =>
    exact .keep (.refl _) hsame (congrArg createdTasks hraise.frame.2.1) (by simp)
  | crash => exact .lose (.inl ⟨rfl, rfl⟩) rfl
  | _ => exact .keep (.refl _) hsame rfl (by simp)

theorem dueId_congr (h : createdTasks t.history = createdTasks s.history) (name : String) :
    t.dueId name = s.dueId name := by
  rw [Sys.dueId, createdIds_congr h, Sys.dueId]

theorem createdIds_create {task : PendingTask}
    (h : createdTasks t.history = createdTasks s.history ++ [task]) (name : String) :
    createdIds t.history name = createdIds s.history name ++
      if task.scheduleEntryName = name then [task.taskId] else [] := by
  rw [createdIds, h, List.filter_append, List.map_append]
  split_ifs with hname
  · simp [createdIds, hname]
  · simp [createdIds, hname]

theorem dueId_create_self {task : PendingTask}
    (h : createdTasks t.history = createdTasks s.history ++ [task]) :
    t.dueId task.scheduleEntryName = s.dueId task.scheduleEntryName + 1 := by
  simp [Sys.dueId, createdIds_create h]

theorem dueId_create_ne {task : PendingTask}
    (h : createdTasks t.history = createdTasks s.history ++ [task])
    (hne : task.scheduleEntryName ≠ name) : t.dueId name = s.dueId name := by
  simp [Sys.dueId, createdIds_create h, hne]

/-- The results created so far have consecutive ids, and the tasks that wait and the
instances that are held are for the ids whose turn it is. -/
structure InTurn (s : Sys) : Prop where
  gapFree : ∀ name, GapFree (createdIds s.history name)
  known : ∀ x ∈ createdTasks s.history, (s.db.getEntry x.scheduleEntryName).isSome
  waiting : ∀ x ∈ s.pc.waiting, x.taskId = s.dueId x.scheduleEntryName
  held : ∀ e ∈ s.pc.held, e.nextTaskId = s.dueId e.name

/-- A step that creates nothing. -/
theorem InTurn.of_created (hs : InTurn s) (h : createdTasks t.history = createdTasks s.history)
    (hrows : ∀ name, (s.db.getEntry name).isSome → (t.db.getEntry name).isSome)
    (hwaiting : ∀ x ∈ t.pc.waiting, x.taskId = s.dueId x.scheduleEntryName)
    (hheld : ∀ e ∈ t.pc.held, e.nextTaskId = s.dueId e.name) : InTurn t where
  gapFree name := by
    rw [createdIds_congr h]
    exact hs.gapFree name
  known x hx := hrows _ (hs.known x (h ▸ hx))
  waiting x hx := (hwaiting x hx).trans (dueId_congr h _).symm
  held e he := (hheld e he).trans (dueId_congr h _).symm

theorem InTurn.step {used : List (String × ℕ)} (hs : InTurn s) (hnumbered : Numbered used s)
    (hrows : ∀ name, (s.db.getEntry name).isSome → (t.db.getEntry name).isSome)
    (hread : s.pc = .reading → ∀ e ∈ s.db.activeEntries, e.nextTaskId = s.dueId e.name)
    (h : IdStep s l t) : InTurn t := by
  cases h with
  | keep hwaiting hheld hcreated hnumber =>
    refine hs.of_created hcreated hrows (fun x hx => hs.waiting x (hwaiting.subset hx)) ?_
    intro e he
    obtain ⟨a, ha, hname, hid⟩ := hheld e he
    rw [← hid, ← hname]
    exact hs.held a ha
  | snapshot hpc hheld hwaiting hcreated =>
    refine hs.of_created hcreated hrows ?_ (fun e he => hread hpc e (hheld ▸ he))
    intro x hx
    rw [hwaiting] at hx
    cases hx
  | number taskTime e todo queue hpc hpc' hstored hnext hcreated =>
    have he : e ∈ s.pc.held := by
      rw [hpc]
      exact List.mem_cons_self
    refine hs.of_created hcreated hrows ?_ ?_
    · intro x hx
      rw [hpc'] at hx
      obtain hx | hx := TaskQueue.mem_enter.mp hx
      · rw [hx]
        exact hs.held e he
      · exact hs.waiting x (by rw [hpc]; exact hx)
    · intro a ha
      rw [hpc'] at ha
      exact hs.held a (by rw [hpc]; exact List.mem_cons_of_mem e ha)
  | create task tasks result hpc hpc' hcreated hstored =>
    have hturn : task.taskId = s.dueId task.scheduleEntryName :=
      hs.waiting task (by rw [hpc]; exact List.mem_cons_self)
    constructor
    · intro name
      rw [createdIds_create hcreated]
      split_ifs with hname
      · rw [hturn, hname]
        exact (hs.gapFree name).append
      · rw [List.append_nil]
        exact hs.gapFree name
    · intro x hx
      rw [hcreated] at hx
      rcases List.mem_append.mp hx with hx | hx
      · exact hrows _ (hs.known x hx)
      · rw [List.mem_singleton.mp hx]
        exact hrows _ hstored
    · intro x hx
      rw [hpc'] at hx
      have hdistinct := hnumbered.waitingNames
      rw [hpc, Pc.waiting, List.map_cons, List.nodup_cons] at hdistinct
      have hne : task.scheduleEntryName ≠ x.scheduleEntryName :=
        fun heq => hdistinct.1 (heq ▸ List.mem_map_of_mem hx)
      rw [dueId_create_ne hcreated hne]
      exact hs.waiting x (by rw [hpc]; exact List.mem_cons_of_mem task hx)
    · intro e he
      rw [hpc'] at he
      cases he
  | lose hpc hcreated =>
    refine hs.of_created hcreated hrows ?_ ?_
    · intro x hx
      rcases hpc with ⟨-, hpc⟩ | ⟨err, hpc⟩ <;> rw [hpc] at hx <;> cases hx
    · intro e he
      rcases hpc with ⟨-, hpc⟩ | ⟨err, hpc⟩ <;> rw [hpc] at he <;> cases he

/-! ### Counters -/

/-- The counter of a row stands behind the tasks that wait, at the id whose turn it is. -/
def CounterDue (s : Sys) (row : ScheduleEntry) : Prop :=
  row.nextTaskId = s.dueId row.name + s.waitingOf row.name

/-- A reset would set the counter right, or leave it where it is right. -/
def Repairable (s : Sys) (row : ScheduleEntry) : Prop :=
  match s.db.lastResult? row.name with
  | some last => last.taskId + 1 = s.dueId row.name
  | none => row.nextTaskId = s.dueId row.name

/-- A step of others than the scheduler leaves the ids alone: deaths come only when the
counters can be repaired, and updates write the row back that they have read. In a calm
run there are no deaths, and outside of one no updates. -/
structure Unedited (calm : Prop) (s : Sys) (l : Label) : Prop where
  crash : l = .crash → ¬ calm ∧ ∀ row ∈ s.db.activeEntries, Repairable s row
  write : ∀ k now, l = .write k now → calm ∧
    ∀ q, s.requests[k]? = some q → s.db.getEntry q.entry.name = some q.entry
  deleteEntry : ∀ name, l ≠ .deleteEntry name
  deleteResult : ∀ id, l ≠ .deleteResult id

variable {calm : Prop} {row row' : ScheduleEntry}

/-- The rows that may be worked on again: active ones, ones whose instances are held, and
in a calm run all. -/
def Concerns (calm : Prop) (s : Sys) (row : ScheduleEntry) : Prop :=
  row.isActive = true ∨ row.name ∈ s.pc.held.map ScheduleEntry.name ∨ calm

/-- Instances are held of entries that were held or are active. -/
theorem IdStep.concerns (h : IdStep s l t) (hnames : NamesUnique s.db)
    (hrow : s.db.getEntry name = some row) (hname : row'.name = name)
    (hactive : row'.isActive = true → Concerns calm s row) (hafter : Concerns calm t row') :
    Concerns calm s row := by
  have hrowName : row.name = name := Database.name_of_getEntry hrow
  have hheld (hmem : name ∈ s.pc.held.map ScheduleEntry.name) : Concerns calm s row :=
    .inr (.inl (hrowName ▸ hmem))
  obtain hon | hmem | hcalm := hafter
  · exact hactive hon
  · obtain ⟨e, he, heq⟩ := List.mem_map.mp hmem
    rw [hname] at heq
    cases h with
    | keep hwaiting hsub hcreated hnumber =>
      obtain ⟨a, ha, hsame, -⟩ := hsub e he
      exact hheld (List.mem_map.mpr ⟨a, ha, hsame.trans heq⟩)
    | snapshot hpc hsnapshot hwaiting hcreated =>
      rw [hsnapshot] at he
      obtain ⟨hstored, hon⟩ := Database.mem_activeEntries.mp he
      have hread : s.db.getEntry e.name = some e := Table.get?_of_mem hnames hstored
      rw [heq, hrow] at hread
      exact .inl (Option.some.inj hread ▸ hon)
    | number taskTime a todo queue hpc hpc' =>
      rw [hpc'] at he
      exact hheld (List.mem_map.mpr ⟨e, by rw [hpc]; exact List.mem_cons_of_mem a he, heq⟩)
    | create task tasks result hpc hpc' =>
      rw [hpc'] at he
      cases he
    | lose hpc =>
      rcases hpc with ⟨-, hpc⟩ | ⟨err, hpc⟩ <;> rw [hpc] at he <;> cases he
  · exact .inr (.inr hcalm)

/-- What becomes of the counter of one row. -/
inductive CounterStep (calm : Prop) (s : Sys) (l : Label) (t : Sys) (name : String)
    (row' : ScheduleEntry) : Prop
  | same (row : ScheduleEntry) (hrow : s.db.getEntry name = some row)
      (hconcerns : Concerns calm t row' → Concerns calm s row)
      (hnext : row'.nextTaskId = row.nextTaskId)
  | new (hnone : s.db.getEntry name = none) (hnext : row'.nextTaskId = 1)
  | reset (i : Input) (e : ScheduleEntry) (todo : List ScheduleEntry) (hl : l = .sched i)
      (hpc : s.pc = .resetting (e :: todo)) (hname : e.name = name)
  | number (i : Input) (taskTime : ℤ) (e : ScheduleEntry) (todo : List ScheduleEntry)
      (queue : TaskQueue ℕ) (hl : l = .sched i) (hpc : s.pc = .numbering taskTime e todo queue)
      (hname : e.name = name)

theorem step_counter (hl : Unedited calm s l) (hnames : NamesUnique s.db)
    (h : step cfg s l = some t) (hafter : t.db.getEntry name = some row') :
    CounterStep calm s l t name row' := by
  have hid := step_idStep h
  have hname' : row'.name = name := Database.name_of_getEntry hafter
  have hheld {e row : ScheduleEntry} (he : e ∈ s.pc.held) (hname : e.name = name)
      (hrow : s.db.getEntry name = some row) : Concerns calm s row := by
    refine .inr (.inl ?_)
    rw [Database.name_of_getEntry hrow, ← hname]
    exact List.mem_map_of_mem he
  have hstep := step_row h name
  rw [hafter] at hstep
  generalize hout : some row' = out at hstep
  cases hstep with
  | same => exact .same row' hout.symm (hid.concerns hnames hout.symm hname' .inl) rfl
  | reset i e todo last row hl hpc hname hlast hrow => exact .reset i e todo hl hpc hname
  | take i e todo queue row hl hpc hname hrow =>
    obtain rfl := Option.some.inj hout
    have he : e ∈ s.pc.held := by
      rw [hpc]
      exact List.mem_cons_self
    exact .same row hrow (fun _ => hheld he hname hrow) rfl
  | cancel i taskTime e todo queue row hl hpc hname hleft hrow =>
    obtain rfl := Option.some.inj hout
    have he : e ∈ s.pc.held := by
      rw [hpc]
      exact List.mem_cons_self
    exact .same row hrow (fun _ => hheld he hname hrow) rfl
  | number i taskTime e todo queue row hl hpc hname hrow =>
    exact .number i taskTime e todo queue hl hpc hname
  | write k now q hk hq hname =>
    obtain rfl := Option.some.inj hout
    obtain ⟨hcalm, hatomic⟩ := hl.write k now hk
    exact .same q.entry (hname ▸ hatomic q hq) (fun _ => .inr (.inr hcalm)) (q.saved_nextTaskId now)
  | post owner action body now hl hnew hloaded =>
    obtain rfl := Option.some.inj hout
    exact .new hnew rfl
  | delete hk => exact absurd hk (hl.deleteEntry name)

/-- Without deletions rows stay. -/
theorem step_keepsRows (hl : Unedited calm s l) (h : step cfg s l = some t)
    (hrow : (s.db.getEntry name).isSome) : (t.db.getEntry name).isSome := by
  have hstep := step_row h name
  generalize t.db.getEntry name = out at hstep
  cases hstep with
  | same => exact hrow
  | delete hk => exact absurd hk (hl.deleteEntry name)
  | _ => rfl

/-- What a step does before the ids have been reset. -/
inductive ResetStep (s : Sys) (l : Label) (t : Sys) : Prop
  | others (hpc : t.pc = s.pc) (hl : ∀ i, l ≠ .sched i)
  | load (hpc : s.pc = .starting) (hpc' : t.pc = .resetting s.db.activeEntries) (hdb : t.db = s.db)
  | reset (e : ScheduleEntry) (todo : List ScheduleEntry) (hpc : s.pc = .resetting (e :: todo))
      (hpc' : t.pc = .resetting todo) (hdb : resetTaskId e s.db = .ok t.db)
  | done (hpc : s.pc = .resetting []) (hpc' : t.pc = .checking) (hdb : t.db = s.db)
  | lose (hpc : l = .crash ∧ t.pc = .starting ∨ ∃ err, t.pc = .dead err)

theorem schedStep_resetting {e : ScheduleEntry} {todo : List ScheduleEntry}
    (hpc : s.pc = .resetting (e :: todo)) (h : schedStep cfg i s = some t) :
    (t.pc = .resetting todo ∧ resetTaskId e s.db = .ok t.db) ∨ ∃ err, t.pc = .dead err := by
  simp only [schedStep, hpc] at h
  obtain ⟨db, hreset, rfl⟩ | ⟨err, -, rfl⟩ := orFail_cases h
  · exact .inl ⟨rfl, hreset⟩
  · exact .inr ⟨err, rfl⟩

theorem step_resetStep (hpc : ¬ s.pc.Started) (h : step cfg s l = some t) : ResetStep s l t := by
  have hothers (hl : ∀ i, l ≠ .sched i) (hsame : t.pc = s.pc) : ResetStep s l t := .others hsame hl
  cases step_cases h with
  | sched i s' hmove =>
    have hreset (e : ScheduleEntry) (todo : List ScheduleEntry) (hbefore : s.pc = .resetting (e :: todo))
        (h : schedStep cfg i s = some t) : ResetStep s (.sched i) t := by
      obtain ⟨hpc', hdb⟩ | ⟨err, hpc'⟩ := schedStep_resetting hbefore h
      · exact .reset e todo hbefore hpc' hdb
      · exact .lose (.inr ⟨err, hpc'⟩)
    cases hmove with
    | raise err => exact .lose (.inr ⟨err, rfl⟩)
    | finalizeRaise f tasks err => exact .lose (.inr ⟨err, rfl⟩)
    | jump pc hjump =>
      cases hjump with
      | startReset hbefore => exact .load hbefore rfl rfl
      | resetSkip e todo hbefore => exact hreset e todo hbefore h
      | resetDone hbefore => exact .done hbefore rfl rfl
      | _ => simp_all [Pc.Started]
    | reset e todo last hbefore => exact hreset e todo hbefore h
    | _ => simp_all [Pc.Started]
  | crash => exact .lose (.inl ⟨rfl, rfl⟩)
  | _ => exact hothers (by simp) rfl

/-- Before the ids have been reset nothing is stored or created. -/
theorem step_unstarted (hpc : ¬ s.pc.Started) (hs : Restarted s) (hl : Unedited calm s l)
    (h : step cfg s l = some t) :
    t.db.results = s.db.results ∧ createdTasks t.history = createdTasks s.history := by
  have hnone {k : ℕ} {f : Finalization} (hf : s.finalizations[k]? = some f) : False := by
    rw [hs hpc] at hf
    cases hf
  cases step_cases h with
  | sched i s' hmove =>
    cases hmove with
    | raise err => exact ⟨rfl, rfl⟩
    | jump pc hjump => exact ⟨rfl, rfl⟩
    | reset e todo last hbefore => exact ⟨rfl, rfl⟩
    | _ => simp_all [Pc.Started]
  | finalizer k i f f' w hf => exact (hnone hf).elim
  | finalizerEnd k i f w hf => exact (hnone hf).elim
  | finalizerRaise k i f err w hf => exact (hnone hf).elim
  | measure recordingId task result started tasks hacting => simp [hacting, Pc.Started] at hpc
  | write k now q hq =>
    refine ⟨?_, rfl⟩
    unfold Database.saveWhole
    split_ifs <;> rfl
  | deleteEntry name => exact absurd rfl (hl.deleteEntry name)
  | deleteResult id => exact absurd rfl (hl.deleteResult id)
  | _ => exact ⟨rfl, rfl⟩

/-- The entries that the reset has still to look at. -/
def AwaitsReset (name : String) : Pc → Prop
  | .starting => True
  | .resetting todo => name ∈ todo.map ScheduleEntry.name
  | _ => False

/-- The counters that matter stand at the ids whose turn it is, from the reset on, and can
be repaired before. -/
structure CountersDue (calm : Prop) (s : Sys) : Prop where
  due : ∀ name row, s.db.getEntry name = some row → Concerns calm s row →
    ¬ AwaitsReset name s.pc → (∀ err, s.pc ≠ .dead err) → CounterDue s row
  repairable : ∀ name row, s.db.getEntry name = some row → Concerns calm s row →
    AwaitsReset name s.pc → Repairable s row ∧ (calm → CounterDue s row)
  loaded : ∀ todo, s.pc = .resetting todo → (todo.map ScheduleEntry.name).Nodup ∧
    ∀ e ∈ todo, ∃ row, s.db.getEntry e.name = some row ∧ row.nextTaskId = e.nextTaskId

theorem not_awaitsReset (hpc : s.pc.Started) : ¬ AwaitsReset name s.pc := by
  cases hs : s.pc <;> simp_all [Pc.Started, AwaitsReset]

/-- A process that has died has no counters to keep. -/
theorem countersDue_dead {err : Exc} (hpc : t.pc = .dead err) : CountersDue calm t := by
  refine ⟨?_, ?_, ?_⟩
  · intro name row _ _ _ halive
    exact absurd hpc (halive err)
  · intro name row _ _ hawaits
    rw [hpc] at hawaits
    exact hawaits.elim
  · intro todo hpc'
    rw [hpc] at hpc'
    cases hpc'

/-- A death leaves counters that can be repaired. -/
theorem countersDue_crash (hl : Unedited calm s .crash) (h : step cfg s .crash = some t) :
    CountersDue calm t := by
  obtain rfl := Option.some.inj h
  obtain ⟨hnot, hrepairable⟩ := hl.crash rfl
  refine ⟨?_, ?_, ?_⟩
  · intro name row _ _ hawaits
    exact absurd trivial hawaits
  · intro name row hrow hconcern _
    refine ⟨?_, fun hcalm => absurd hcalm hnot⟩
    obtain hon | hheld | hcalm := hconcern
    · exact hrepairable row (Database.mem_activeEntries.mpr ⟨Database.mem_of_getEntry hrow, hon⟩)
    · cases hheld
    · exact absurd hcalm hnot
  · intro todo hpc
    cases hpc

/-- Nothing is created and nothing waits of an entry that is not there yet. -/
theorem dueId_of_new (hturn : InTurn s) (hwell : WellNumbered s)
    (hnone : s.db.getEntry name = none) : s.dueId name = 1 ∧ s.waitingOf name = 0 := by
  constructor
  · have hempty : (createdTasks s.history).filter (fun x => x.scheduleEntryName = name) = [] := by
      apply List.filter_eq_nil_iff.mpr
      intro x hx hname
      have hstored := hturn.known x hx
      rw [of_decide_eq_true hname, hnone] at hstored
      cases hstored
    rw [Sys.dueId, createdIds, hempty]
    rfl
  · apply List.count_eq_zero.mpr
    intro hmem
    obtain ⟨x, hx, hname⟩ := List.mem_map.mp hmem
    have hstored := hwell.rows x.key (List.mem_append_right _ (List.mem_map_of_mem hx))
    rw [show x.key.1 = name from hname, hnone] at hstored
    cases hstored

/-- No result is stored of an entry that is not there yet. -/
theorem lastResult?_of_new (hwell : WellNumbered s) (hnone : s.db.getEntry name = none) :
    s.db.lastResult? name = none := by
  cases hlast : s.db.lastResult? name with
  | none => rfl
  | some last =>
    obtain ⟨hstored, hname⟩ := Database.mem_resultsOf.mp (Database.lastResult?_mem hlast)
    have hrow := hwell.rows last.key (List.mem_append_left _ (key_used (mark_stored hstored)))
    rw [show last.key.1 = name from hname, hnone] at hrow
    cases hrow

/-- A step that is not a death moves the id behind the waiting tasks only by numbering. -/
theorem IdStep.standing (h : IdStep s l t) (hl : l ≠ .crash) (halive : ∀ err, t.pc ≠ .dead err)
    (name : String) :
    (t.dueId name + t.waitingOf name = s.dueId name + s.waitingOf name ∧
        ∀ i taskTime e todo queue, l = .sched i → s.pc = .numbering taskTime e todo queue →
          e.name ≠ name) ∨
      ∃ taskTime e todo queue, s.pc = .numbering taskTime e todo queue ∧ e.name = name ∧
        t.db.nextTaskIds name = some (e.nextTaskId + 1) ∧
        t.dueId name + t.waitingOf name = s.dueId name + s.waitingOf name + 1 := by
  cases h with
  | keep hwaiting hheld hcreated hnumber =>
    left
    rw [dueId_congr hcreated, Sys.waitingOf, (hwaiting.map _).count_eq, Sys.waitingOf]
    exact ⟨rfl, fun i taskTime e todo queue hl hpc => absurd hpc (hnumber i taskTime e todo queue hl)⟩
  | snapshot hpc hheld hwaiting hcreated =>
    left
    rw [dueId_congr hcreated, Sys.waitingOf, Sys.waitingOf, hwaiting, hpc]
    exact ⟨rfl, by simp⟩
  | number taskTime e todo queue hpc hpc' hstored hnext hcreated =>
    have henter := (TaskQueue.enter_perm queue taskTime e.priority e.action e.name
      e.nextTaskId).map Task.scheduleEntryName
    have hcount : t.waitingOf name = s.waitingOf name + if e.name = name then 1 else 0 := by
      simp only [Sys.waitingOf, hpc, hpc', Pc.waiting]
      rw [henter.count_eq, List.map_cons, List.count_cons]
      simp
    rw [dueId_congr hcreated, hcount]
    by_cases hname : e.name = name
    · subst hname
      exact .inr ⟨taskTime, e, todo, queue, hpc, rfl, hnext, by rw [if_pos rfl]; omega⟩
    · refine .inl ⟨by rw [if_neg hname]; omega, ?_⟩
      intro i taskTime' e' todo' queue' _ hpc''
      rw [hpc] at hpc''
      obtain ⟨-, rfl, -, -⟩ := Pc.numbering.inj hpc''
      exact hname
  | create task tasks result hpc hpc' hcreated hstored =>
    have hcount : s.waitingOf name = t.waitingOf name +
        if task.scheduleEntryName = name then 1 else 0 := by
      simp [Sys.waitingOf, hpc, hpc', Pc.waiting, List.count_cons]
    refine .inl ⟨?_, by simp [hpc]⟩
    by_cases hname : task.scheduleEntryName = name
    · subst hname
      rw [hcount, if_pos rfl, dueId_create_self hcreated]
      omega
    · rw [hcount, if_neg hname, dueId_create_ne hcreated hname]
      omega
  | lose hpc hcreated =>
    rcases hpc with ⟨hcrash, -⟩ | ⟨err, hpc⟩
    · exact absurd hcrash hl
    · exact absurd hpc (halive err)

theorem CountersDue.of_started (hs : CountersDue calm s) (hturn : InTurn s) (hwell : WellNumbered s)
    (hl : Unedited calm s l) (hpc : s.pc.Started) (hpc' : t.pc.Started) (hcrash : l ≠ .crash)
    (hstepped : ∀ err, s.pc = .dead err → t.pc = .dead err)
    (h : step cfg s l = some t) : CountersDue calm t := by
  refine ⟨?_, ?_, ?_⟩
  · intro name row' hafter hconcern _ halive
    have hname : row'.name = name := Database.name_of_getEntry hafter
    have halive' : ∀ err, s.pc ≠ .dead err := fun err hdead => halive err (hstepped err hdead)
    unfold CounterDue
    rw [hname]
    obtain ⟨hsame, hothers⟩ | ⟨taskTime, e, todo, queue, hnumber, rfl, hnext, hmore⟩ :=
      (step_idStep h).standing hcrash halive name
    · rw [hsame]
      cases step_counter hl hwell.names h hafter with
      | same row hrow hconcerns hnext =>
        have hdue := hs.due name row hrow (hconcerns hconcern) (not_awaitsReset hpc) halive'
        rwa [CounterDue, Database.name_of_getEntry hrow, ← hnext] at hdue
      | new hnone hnext =>
        obtain ⟨hfirst, hnobody⟩ := dueId_of_new hturn hwell hnone
        rw [hnext, hfirst, hnobody]
      | reset i e todo hl hreset =>
        rw [hreset] at hpc
        exact hpc.elim
      | number i taskTime e todo queue hl hnumber hname' =>
        exact absurd hname' (hothers i taskTime e todo queue hl hnumber)
    · rw [hmore]
      have he : e ∈ s.pc.held := by
        rw [hnumber]
        exact List.mem_cons_self
      have hnobody : s.waitingOf e.name = 0 := by
        apply List.count_eq_zero.mpr
        intro hmem
        obtain ⟨x, hx, hxname⟩ := List.mem_map.mp hmem
        exact hwell.numbered.held_notMem he hx hxname
      rw [Database.nextTaskIds, hafter, Option.map_some, Option.some.injEq] at hnext
      rw [hnext, hturn.held e he, hnobody]
  · intro name row' _ _ hawaits
    exact absurd hawaits (not_awaitsReset hpc')
  · intro todo hreset
    rw [hreset] at hpc'
    exact hpc'.elim

/-- An iteration of the reset sets a counter right that can be repaired. -/
theorem resetTaskId_row {e : ScheduleEntry} (hrow : s.db.getEntry e.name = some row)
    (hid : row.nextTaskId = e.nextTaskId) (hreset : resetTaskId e s.db = .ok t.db)
    (hafter : t.db.getEntry e.name = some row') :
    row'.isActive = row.isActive ∧ (Repairable s row → row'.nextTaskId = s.dueId e.name) := by
  have hname : row.name = e.name := Database.name_of_getEntry hrow
  unfold Repairable
  rw [hname]
  unfold resetTaskId at hreset
  cases hlast : s.db.lastResult? e.name with
  | none =>
    rw [hlast] at hreset
    rw [← Except.ok.inj hreset, hrow] at hafter
    obtain rfl := Option.some.inj hafter
    exact ⟨rfl, fun hdue => hdue⟩
  | some last =>
    rw [hlast] at hreset
    dsimp only at hreset ⊢
    split_ifs at hreset with hbehind
    · obtain ⟨-, hdb⟩ := Database.saveFields_ok hreset
      have hcolumns : ∀ row : ScheduleEntry,
          ({ row with nextTaskId := last.taskId + 1 } : ScheduleEntry).name = row.name :=
        fun _ => rfl
      have hread := Database.getEntry_writeRow hcolumns hrow e.name
      have hwrite : t.db = s.db.writeRow e.name fun row => { row with nextTaskId := last.taskId + 1 } := hdb
      rw [← hwrite, hafter, if_pos rfl] at hread
      obtain rfl := Option.some.inj hread
      exact ⟨rfl, fun hdue => hdue⟩
    · rw [← Except.ok.inj hreset, hrow] at hafter
      obtain rfl := Option.some.inj hafter
      refine ⟨rfl, fun hdue => ?_⟩
      rw [hid, ← hdue]
      simpa using hbehind

theorem lastResult?_congr (h : t.db.results = s.db.results) (name : String) :
    t.db.lastResult? name = s.db.lastResult? name := by
  rw [Database.lastResult?, Database.resultsOf, h]
  rfl

theorem Repairable.congr (hs : Repairable s row) (hresults : t.db.results = s.db.results)
    (hcreated : createdTasks t.history = createdTasks s.history) (hname : row'.name = row.name)
    (hnext : row'.nextTaskId = row.nextTaskId) : Repairable t row' := by
  unfold Repairable at hs ⊢
  rw [hname, hnext, lastResult?_congr hresults, dueId_congr hcreated]
  exact hs

theorem waitingOf_unstarted (hpc : ¬ s.pc.Started) (name : String) : s.waitingOf name = 0 := by
  cases hs : s.pc <;> simp_all [Pc.Started, Sys.waitingOf, Pc.waiting]

/-- What the steps before the end of the reset leave of a counter that is not its turn. -/
theorem CountersDue.row_unstarted (hs : CountersDue calm s) (hturn : InTurn s)
    (hwell : WellNumbered s) (hrestarted : ¬ s.pc.Started) (hl : Unedited calm s l)
    (h : step cfg s l = some t) (hafter : t.db.getEntry name = some row')
    (hconcern : Concerns calm t row')
    (hothers : ∀ i e todo, l = .sched i → s.pc = .resetting (e :: todo) → e.name ≠ name) :
    (AwaitsReset name s.pc → Repairable t row' ∧ (calm → row'.nextTaskId = t.dueId name)) ∧
      (¬ AwaitsReset name s.pc → row'.nextTaskId = t.dueId name) := by
  obtain ⟨hresults, hcreated⟩ := step_unstarted hrestarted hwell.restarted hl h
  have hname : row'.name = name := Database.name_of_getEntry hafter
  have halive : ∀ err, s.pc ≠ .dead err := by
    intro err hdead
    rw [hdead] at hrestarted
    exact hrestarted trivial
  rw [dueId_congr hcreated]
  cases step_counter hl hwell.names h hafter with
  | same row hrow hconcerns hnext =>
    have hrowName : row.name = name := Database.name_of_getEntry hrow
    have hduel (hdue : CounterDue s row) : row'.nextTaskId = s.dueId name := by
      rw [CounterDue, hrowName, waitingOf_unstarted hrestarted] at hdue
      rw [hnext, hdue, Nat.add_zero]
    constructor
    · intro hawaits
      obtain ⟨hrepairable, hcalm⟩ := hs.repairable name row hrow (hconcerns hconcern) hawaits
      exact ⟨hrepairable.congr hresults hcreated (hname.trans hrowName.symm) hnext,
        fun h => hduel (hcalm h)⟩
    · intro hawaits
      exact hduel (hs.due name row hrow (hconcerns hconcern) hawaits halive)
  | new hnone hnext =>
    obtain ⟨hfirst, -⟩ := dueId_of_new hturn hwell hnone
    have hdue : row'.nextTaskId = s.dueId name := by rw [hnext, hfirst]
    refine ⟨fun _ => ⟨?_, fun _ => hdue⟩, fun _ => hdue⟩
    unfold Repairable
    rw [hname, lastResult?_congr hresults, lastResult?_of_new hwell hnone, dueId_congr hcreated]
    exact hdue
  | reset i e todo hl' hpc hname' => exact absurd hname' (hothers i e todo hl' hpc)
  | number i taskTime e todo queue hl' hpc =>
    rw [hpc] at hrestarted
    exact absurd trivial hrestarted

theorem counterDue_unstarted (hpc : ¬ s.pc.Started) (hname : row.name = name)
    (h : row.nextTaskId = s.dueId name) : CounterDue s row := by
  rw [CounterDue, hname, waitingOf_unstarted hpc, h, Nat.add_zero]

/-- The instances that the reset has still to look at carry the counters of their rows. -/
theorem CountersDue.loaded_unstarted (hs : CountersDue calm s) (hwell : WellNumbered s)
    (hrestarted : ¬ s.pc.Started) (hl : Unedited calm s l) (h : step cfg s l = some t)
    {todo : List ScheduleEntry} (hpc : s.pc = .resetting todo) {e : ScheduleEntry} (he : e ∈ todo)
    (hothers : ∀ i a rest, l = .sched i → s.pc = .resetting (a :: rest) → a.name ≠ e.name) :
    ∃ row, t.db.getEntry e.name = some row ∧ row.nextTaskId = e.nextTaskId := by
  obtain ⟨row, hrow, hid⟩ := (hs.loaded todo hpc).2 e he
  have hkept : (t.db.getEntry e.name).isSome := step_keepsRows hl h (by simp [hrow])
  obtain ⟨row', hafter⟩ := Option.isSome_iff_exists.mp hkept
  refine ⟨row', hafter, ?_⟩
  cases step_counter hl hwell.names h hafter with
  | same row₁ hrow₁ hconcerns hnext =>
    obtain rfl := Option.some.inj (hrow.symm.trans hrow₁)
    exact hnext.trans hid
  | new hnone =>
    rw [hrow] at hnone
    cases hnone
  | reset i a rest hl' hpc' hname => exact absurd hname (hothers i a rest hl' hpc')
  | number i taskTime a rest queue hl' hpc' =>
    rw [hpc'] at hrestarted
    exact absurd trivial hrestarted

/-- A counter that the reset has still to look at can be repaired after a step that looks
at another one. -/
theorem CountersDue.repairable_unstarted (hs : CountersDue calm s) (hturn : InTurn s)
    (hwell : WellNumbered s) (hbefore : ¬ s.pc.Started) (hafter : ¬ t.pc.Started)
    (hl : Unedited calm s l) (h : step cfg s l = some t) (hrow : t.db.getEntry name = some row')
    (hconcern : Concerns calm t row') (hawaits : AwaitsReset name s.pc)
    (hothers : ∀ i e todo, l = .sched i → s.pc = .resetting (e :: todo) → e.name ≠ name) :
    Repairable t row' ∧ (calm → CounterDue t row') := by
  obtain ⟨hrepairable, hcalm⟩ :=
    (hs.row_unstarted hturn hwell hbefore hl h hrow hconcern hothers).1 hawaits
  exact ⟨hrepairable,
    fun h => counterDue_unstarted hafter (Database.name_of_getEntry hrow) (hcalm h)⟩

/-- A step of the others before the end of the reset. -/
theorem CountersDue.others_unstarted (hs : CountersDue calm s) (hturn : InTurn s)
    (hwell : WellNumbered s) (hbefore : ¬ s.pc.Started) (hl : Unedited calm s l)
    (h : step cfg s l = some t) (hpc : t.pc = s.pc) (hsched : ∀ i, l ≠ .sched i) :
    CountersDue calm t := by
  have hunstarted : ¬ t.pc.Started := hpc ▸ hbefore
  have hothers (name : String) : ∀ (i : Input) (e : ScheduleEntry) (todo : List ScheduleEntry),
      l = .sched i → s.pc = .resetting (e :: todo) → e.name ≠ name :=
    fun i _ _ hl' => absurd hl' (hsched i)
  refine ⟨?_, ?_, ?_⟩
  · intro name row hafter hconcern hawaits _
    have hdue := hs.row_unstarted hturn hwell hbefore hl h hafter hconcern (hothers name)
    exact counterDue_unstarted hunstarted (Database.name_of_getEntry hafter)
      (hdue.2 (hpc ▸ hawaits))
  · intro name row hafter hconcern hawaits
    exact hs.repairable_unstarted hturn hwell hbefore hunstarted hl h hafter hconcern
      (hpc ▸ hawaits) (hothers name)
  · intro todo hpc'
    have hresetting : s.pc = .resetting todo := hpc.symm.trans hpc'
    refine ⟨(hs.loaded todo hresetting).1, fun e he => ?_⟩
    exact hs.loaded_unstarted hwell hbefore hl h hresetting he (hothers e.name)

/-- The reset begins with the active rows. -/
theorem CountersDue.load (hs : CountersDue calm s) (hturn : InTurn s) (hwell : WellNumbered s)
    (hl : Unedited calm s l) (h : step cfg s l = some t) (hpc : s.pc = .starting)
    (hpc' : t.pc = .resetting s.db.activeEntries) (hdb : t.db = s.db) : CountersDue calm t := by
  have hbefore : ¬ s.pc.Started := by
    rw [hpc]
    exact id
  have hafter : ¬ t.pc.Started := by
    rw [hpc']
    exact id
  have hrow {name : String} {row : ScheduleEntry} (hrow : t.db.getEntry name = some row)
      (hconcern : Concerns calm t row) : Repairable t row ∧ (calm → CounterDue t row) :=
    hs.repairable_unstarted hturn hwell hbefore hafter hl h hrow hconcern
      (by rw [hpc]; trivial) (by simp [hpc])
  refine ⟨?_, fun name row hafter hconcern _ => hrow hafter hconcern, ?_⟩
  · intro name row hread hconcern hawaits _
    obtain hon | hheld | hcalm := id hconcern
    · rw [hpc'] at hawaits
      refine absurd (List.mem_map.mpr ⟨row, ?_, Database.name_of_getEntry hread⟩) hawaits
      exact hdb ▸ Database.mem_activeEntries.mpr ⟨Database.mem_of_getEntry hread, hon⟩
    · rw [hpc'] at hheld
      cases hheld
    · exact (hrow hread hconcern).2 hcalm
  · intro todo hpc''
    rw [hpc'] at hpc''
    obtain rfl := Pc.resetting.inj hpc''
    refine ⟨Database.nodup_activeEntries hwell.names, fun e he => ⟨e, ?_, rfl⟩⟩
    rw [hdb]
    exact Database.getEntry_of_mem_activeEntries hwell.names he

/-- An iteration of the reset sets the counter of its entry and leaves the others. -/
theorem CountersDue.reset (hs : CountersDue calm s) (hturn : InTurn s) (hwell : WellNumbered s)
    (hl : Unedited calm s l) (h : step cfg s l = some t) {e : ScheduleEntry}
    {todo : List ScheduleEntry} (hpc : s.pc = .resetting (e :: todo)) (hpc' : t.pc = .resetting todo)
    (hdb : resetTaskId e s.db = .ok t.db) : CountersDue calm t := by
  have hbefore : ¬ s.pc.Started := by
    rw [hpc]
    exact id
  have hunstarted : ¬ t.pc.Started := by
    rw [hpc']
    exact id
  have hcreated := (step_unstarted hbefore hwell.restarted hl h).2
  obtain ⟨hnodup, hloaded⟩ := hs.loaded (e :: todo) hpc
  rw [List.map_cons, List.nodup_cons] at hnodup
  have hothers {name : String} (hne : name ≠ e.name) : ∀ (i : Input) (a : ScheduleEntry)
      (rest : List ScheduleEntry), l = .sched i → s.pc = .resetting (a :: rest) →
        a.name ≠ name := by
    intro i a rest _ hpc''
    rw [hpc] at hpc''
    obtain ⟨rfl, -⟩ := List.cons.inj (Pc.resetting.inj hpc'')
    exact hne.symm
  refine ⟨?_, ?_, ?_⟩
  · intro name row' hafter hconcern hawaits _
    refine counterDue_unstarted hunstarted (Database.name_of_getEntry hafter) ?_
    rw [hpc'] at hawaits
    by_cases hname : name = e.name
    · subst hname
      obtain ⟨row, hrow, hid⟩ := hloaded e List.mem_cons_self
      obtain ⟨hactive, hright⟩ := resetTaskId_row hrow hid hdb hafter
      have hconcern' : Concerns calm s row := (step_idStep h).concerns hwell.names hrow
        (Database.name_of_getEntry hafter) (fun hon => .inl (hactive ▸ hon)) hconcern
      rw [dueId_congr hcreated]
      refine hright (hs.repairable e.name row hrow hconcern' ?_).1
      rw [hpc]
      exact List.mem_cons_self
    · refine (hs.row_unstarted hturn hwell hbefore hl h hafter hconcern (hothers hname)).2 ?_
      rw [hpc]
      intro hmem
      rcases List.mem_cons.mp hmem with heq | hmem
      · exact hname heq
      · exact hawaits hmem
  · intro name row' hafter hconcern hawaits
    rw [hpc'] at hawaits
    have hname : name ≠ e.name := fun heq => hnodup.1 (heq ▸ hawaits)
    exact hs.repairable_unstarted hturn hwell hbefore hunstarted hl h hafter hconcern
      (by rw [hpc]; exact List.mem_cons_of_mem _ hawaits) (hothers hname)
  · intro todo' hpc''
    rw [hpc'] at hpc''
    obtain rfl := Pc.resetting.inj hpc''
    refine ⟨hnodup.2, fun a ha => ?_⟩
    refine hs.loaded_unstarted hwell hbefore hl h hpc (List.mem_cons_of_mem e ha) (hothers ?_)
    exact fun heq => hnodup.1 (heq ▸ List.mem_map_of_mem ha)

/-- When the reset is done all counters have been looked at. -/
theorem CountersDue.done (hs : CountersDue calm s) (hturn : InTurn s) (hwell : WellNumbered s)
    (hl : Unedited calm s l) (h : step cfg s l = some t) (hpc : s.pc = .resetting [])
    (hpc' : t.pc = .checking) : CountersDue calm t := by
  have hbefore : ¬ s.pc.Started := by
    rw [hpc]
    exact id
  refine ⟨?_, ?_, ?_⟩
  · intro name row hafter hconcern _ _
    have hdue := (hs.row_unstarted hturn hwell hbefore hl h hafter hconcern
      (by simp [hpc])).2 (by rw [hpc]; exact List.not_mem_nil)
    rw [CounterDue, Database.name_of_getEntry hafter, hdue, Sys.waitingOf, hpc']
    rfl
  · intro name row _ _ hawaits
    rw [hpc'] at hawaits
    exact hawaits.elim
  · intro todo hpc''
    rw [hpc'] at hpc''
    cases hpc''

theorem CountersDue.of_unstarted (hs : CountersDue calm s) (hturn : InTurn s)
    (hwell : WellNumbered s) (hbefore : ¬ s.pc.Started) (hl : Unedited calm s l)
    (h : step cfg s l = some t) : CountersDue calm t := by
  cases step_resetStep hbefore h with
  | others hpc hsched => exact hs.others_unstarted hturn hwell hbefore hl h hpc hsched
  | load hpc hpc' hdb => exact hs.load hturn hwell hl h hpc hpc' hdb
  | reset e todo hpc hpc' hdb => exact hs.reset hturn hwell hl h hpc hpc' hdb
  | done hpc hpc' => exact hs.done hturn hwell hl h hpc hpc'
  | lose hpc =>
    rcases hpc with ⟨rfl, -⟩ | ⟨err, hpc⟩
    · exact countersDue_crash hl h
    · exact countersDue_dead hpc

/-- Only a death leads back before the reset, and nothing else ends it. -/
theorem step_staysStarted (hpc : s.pc.Started) (hcrash : l ≠ .crash) (h : step cfg s l = some t) :
    t.pc.Started ∧ ∀ err, s.pc = .dead err → t.pc = .dead err := by
  cases step_cases h with
  | sched i s' hmove =>
    have hdead : ∀ err, s.pc ≠ .dead err := by
      intro err hdead
      have hnone : schedStep cfg i s = none := by simp [schedStep, hdead]
      have hsome : schedStep cfg i s = some t := h
      rw [hnone] at hsome
      cases hsome
    refine ⟨?_, fun err heq => absurd heq (hdead err)⟩
    cases hmove with
    | jump pc hjump => cases hjump <;> simp_all [Pc.Started]
    | reset e todo last hbefore =>
      rw [hbefore] at hpc
      exact hpc.elim
    | keep taskTime | cancel taskTime => cases taskTime <;> trivial
    | _ => trivial
  | crash => exact absurd rfl hcrash
  | _ => exact ⟨hpc, fun _ hdead => hdead⟩

/-- What holds of the ids at every point of a run whose deaths leave the counters so that
they can be repaired. -/
structure Numbering (calm : Prop) (s : Sys) : Prop where
  well : WellNumbered s
  turn : InTurn s
  counters : CountersDue calm s

theorem Unedited.atomic (hl : Unedited calm s l) : AtomicRequests s l ∧ DeletesIdle s l := by
  cases l with
  | write k now => exact ⟨(hl.write k now rfl).2, trivial⟩
  | deleteEntry name => exact absurd rfl (hl.deleteEntry name)
  | _ => exact ⟨trivial, trivial⟩

theorem Numbering.step (hs : Numbering calm s) (hl : Unedited calm s l)
    (h : step cfg s l = some t) : Numbering calm t := by
  obtain ⟨hatomic, hidle⟩ := hl.atomic
  have hread : s.pc = .reading → ∀ e ∈ s.db.activeEntries, e.nextTaskId = s.dueId e.name := by
    intro hpc e he
    obtain ⟨hstored, hon⟩ := Database.mem_activeEntries.mp he
    have hdue := hs.counters.due e.name e (Table.get?_of_mem hs.well.names hstored) (.inl hon)
      (by simp [hpc, AwaitsReset]) (by simp [hpc])
    rwa [CounterDue, Sys.waitingOf, hpc] at hdue
  refine ⟨hs.well.step hatomic hidle h, hs.turn.step hs.well.numbered
    (fun name => step_keepsRows hl h) hread (step_idStep h), ?_⟩
  by_cases hpc : s.pc.Started
  · by_cases hcrash : l = .crash
    · subst hcrash
      exact countersDue_crash hl h
    · obtain ⟨hpc', hdead⟩ := step_staysStarted hpc hcrash h
      exact hs.counters.of_started hs.turn hs.well hl hpc hpc' hcrash hdead h
  · exact hs.counters.of_unstarted hs.turn hs.well hpc hl h

/-- A process that starts on entries that have given out no ids. -/
theorem numbering_start (calm : Prop) {rows : List ScheduleEntry}
    (hnames : (rows.map ScheduleEntry.name).Nodup) (hfirst : ∀ e ∈ rows, e.nextTaskId = 1) :
    Numbering calm { db := { schedule := rows } } := by
  refine ⟨wellNumbered_start hnames (fun _ hr => by cases hr), ?_, ?_⟩
  · refine ⟨fun _ => gapFree_nil, ?_, ?_, ?_⟩
    · intro x hx
      cases hx
    · intro x hx
      cases hx
    · intro e he
      cases he
  · refine ⟨?_, ?_, ?_⟩
    · intro name row _ _ hawaits
      exact absurd trivial hawaits
    · intro name row hrow _ _
      have hone : row.nextTaskId = 1 := hfirst row (Database.mem_of_getEntry hrow)
      exact ⟨hone, fun _ => hone⟩
    · intro todo hpc
      cases hpc

end Scheduler

end ScosSensor
