import ScosSensor.PassProgress
import ScosSensor.PriorityOrder

/-!
# Waiting for one's turn

A task that is queued waits for the tasks of its own pass that are due earlier, or at
the same time with a smaller priority number, and for no others: a recurring task that
comes due again meanwhile is left to the next pass. So however often other entries come
due, and whatever requests and finalizations do, the thread calls the task within a
number of steps that the pass has fixed, unless it dies before.
-/
namespace ScosSensor

/-- A queue serves `x` before `y`, or they are level. -/
def Task.NotAfter {ι : Type} (x y : Task ι) : Prop :=
  x.time ≤ y.time ∧ (x.time = y.time → x.priority ≤ y.priority)

namespace Pc

/-- The entries whose turn in the pass is still to come. -/
def turns (pc : Pc) : List String :=
  pc.held.map ScheduleEntry.name ++ pc.unstarted.map Task.scheduleEntryName

/-- The tasks of the pass are started in the order of the queue. -/
def InOrder : Pc → Prop
  | .taking _ queue => Heapq.IsHeap Task.lt queue
  | .completing _ _ _ queue => Heapq.IsHeap Task.lt queue
  | .numbering _ _ _ queue => Heapq.IsHeap Task.lt queue
  | pc => pc.unstarted.Pairwise Task.NotAfter

theorem turns_settled (taskTime : Option ℤ) (e : ScheduleEntry) (todo : List ScheduleEntry)
    (queue : TaskQueue ℕ) :
    (settled taskTime e todo queue).turns.Sublist (completing taskTime e todo queue).turns := by
  cases taskTime with
  | none =>
    simp only [settled, turns, held, unstarted, waiting, List.map_cons]
    exact List.Sublist.append_right (List.sublist_cons_self _ _) _
  | some taskTime => exact .refl _

/-- A task that waits belongs to a pass that is not over. -/
theorem stepsLeft_pos {pc : Pc} {task : PendingTask} (h : task ∈ pc.unstarted) :
    0 < pc.stepsLeft := by
  cases pc <;> simp_all [unstarted, waiting, stepsLeft]

end Pc

namespace Scheduler

open Runs

variable {cfg : Settings} {s t : Sys} {l : Label} {i : Input} {task : PendingTask}

/-- What a step makes of the tasks that wait. -/
inductive TurnStep (s : Sys) (l : Label) (t : Sys) : Prop
  | keep (hstarted : startedTasks t.history = startedTasks s.history)
      (hturns : t.pc.turns.Subperm s.pc.turns)
      (hunstarted : ∀ x ∈ s.pc.unstarted, x ∈ t.pc.unstarted)
  | start (task : PendingTask) (tasks : List PendingTask) (result : ResultRow) (started : ℤ)
      (hpc : s.pc = .calling task result tasks) (hpc' : t.pc = .acting task result started tasks)
      (hstarted : startedTasks t.history = startedTasks s.history ++ [task])
  | lose (hlost : Dead t ∨ l = .crash) (hturns : t.pc.turns = [])
      (hstarted : startedTasks t.history = startedTasks s.history)
  | snapshot (hpc : s.pc = .reading)
      (hturns : t.pc.turns = s.db.activeEntries.map ScheduleEntry.name)

theorem schedMove_turnStep (h : SchedMove cfg i s t) : TurnStep s (.sched i) t := by
  cases h with
  | read hpc => exact .snapshot hpc (by simp [Pc.turns, Pc.held, Pc.unstarted, Pc.waiting])
  | call task result tasks hpc =>
    exact .start task tasks result i.time hpc rfl (by simp [Event.startedTask])
  | raise err hraise => exact .lose (.inl ⟨err, rfl⟩) rfl rfl
  | finalizeRaise f tasks err w hpc hraise =>
    exact .lose (.inl ⟨err, rfl⟩) rfl (congrArg startedTasks hraise.frame.2.1)
  | jump pc hjump =>
    refine .keep rfl (List.Perm.subperm ?_) fun x hx => hjump.unstarted.symm.subset hx
    unfold Pc.turns
    rw [hjump.held]
    exact (hjump.unstarted.map _).append_left _
  | number taskTime e todo queue hpc =>
    have henter := TaskQueue.enter_perm queue taskTime e.priority e.action e.name e.nextTaskId
    refine .keep (by simp [Event.startedTask]) (List.Perm.subperm ?_) ?_
    · rw [hpc]
      exact ((henter.map Task.scheduleEntryName).append_left (todo.map ScheduleEntry.name)).trans
        List.perm_middle
    · intro x hx
      rw [hpc] at hx
      exact henter.symm.subset (List.mem_cons_of_mem _ hx)
  | keep taskTime e todo queue hpc =>
    refine .keep rfl (List.Sublist.subperm ?_) ?_
    · rw [hpc]
      exact Pc.turns_settled taskTime e todo queue
    · rw [hpc, Pc.unstarted_settled]
      exact fun _ hx => hx
  | cancel taskTime e todo queue hpc =>
    refine .keep rfl (List.Sublist.subperm ?_) ?_
    · rw [hpc]
      exact Pc.turns_settled taskTime { e with isActive := false } todo queue
    · rw [hpc, Pc.unstarted_settled]
      exact fun _ hx => hx
  | reset e todo last hpc =>
    refine .keep rfl List.nil_subperm ?_
    rw [hpc]
    exact fun _ hx => hx
  | take e todo queue hpc =>
    refine .keep (by simp [Event.startedTask]) ?_ (by rw [hpc]; exact fun _ hx => hx)
    simp [hpc, Pc.turns, Pc.held, Pc.unstarted, Pc.waiting, List.Subperm.refl]
  | create task tasks result db hpc =>
    refine .keep (by simp [Event.startedTask]) ?_ (by rw [hpc]; exact fun _ hx => hx)
    rw [hpc]
    exact .refl _
  | fetch task tasks e hpc | evict task tasks hpc =>
    refine .keep rfl ?_ (by rw [hpc]; exact fun _ hx => hx)
    rw [hpc]
    exact .refl _
  | spawn task result started tasks hpc | finish task result started tasks hpc =>
    refine .keep (by simp [Event.startedTask]) ?_ (by rw [hpc]; exact fun _ hx => hx)
    rw [hpc]
    exact .refl _
  | finalize f f' tasks w hpc hmove | finalized f tasks w hpc hmove =>
    refine .keep hmove.tasks.1 ?_ (by rw [hpc]; exact fun _ hx => hx)
    rw [hpc]
    exact .refl _

theorem step_turnStep (h : step cfg s l = some t) : TurnStep s l t := by
  cases step_cases h with
  | sched i s' hmove => exact schedMove_turnStep hmove
  | finalizer k i f f' w hf hmove => exact .keep hmove.tasks.1 (.refl _) fun _ hx => hx
  | finalizerEnd k i f w hf hmove => exact .keep hmove.tasks.1 (.refl _) fun _ hx => hx
  | finalizerRaise k i f err w hf hraise =>
    exact .keep (congrArg startedTasks hraise.frame.2.1) (.refl _) fun _ hx => hx
  | crash => exact .lose (.inr rfl) rfl rfl
  | _ => exact .keep rfl (.refl _) fun _ hx => hx

theorem schedMove_inOrder (h : SchedMove cfg i s t) (hs : s.pc.InOrder) : t.pc.InOrder := by
  cases h with
  | number taskTime e todo queue hpc =>
    rw [hpc] at hs
    exact TaskQueue.isHeap_enter hs taskTime e.priority e.action e.name e.nextTaskId
  | keep taskTime e todo queue hpc | cancel taskTime e todo queue hpc =>
    rw [hpc] at hs
    cases taskTime <;> exact hs
  | read hpc =>
    intro p c _
    exact Heapq.above_of_length (Nat.zero_le c)
  | jump pc hjump =>
    cases hjump with
    | queueDone queue hpc =>
      rw [hpc] at hs
      exact TaskQueue.pairwise_toList hs
    | _ => exact .nil
  | spawn task result started tasks hpc | finish task result started tasks hpc
  | take e todo queue hpc | fetch task tasks e hpc | evict task tasks hpc
  | create task tasks result db hpc | finalize f f' tasks w hpc | finalized f tasks w hpc =>
    rw [hpc] at hs
    exact hs
  | call task result tasks hpc =>
    rw [hpc] at hs
    exact (List.pairwise_cons.mp hs).2
  | raise | reset | finalizeRaise => exact .nil

/-- In every state the entries of a pass are different and its tasks are in order. -/
structure Queueing (s : Sys) : Prop where
  names : NamesUnique s.db
  turns : s.pc.turns.Nodup
  order : s.pc.InOrder

theorem Queueing.step (hs : Queueing s) (h : step cfg s l = some t) : Queueing t := by
  refine ⟨step_names hs.names h, ?_, ?_⟩
  · cases step_turnStep h with
    | keep hstarted hturns =>
      obtain ⟨turns, hperm, hsub⟩ := hturns
      exact hperm.nodup_iff.mp (hs.turns.sublist hsub)
    | start task tasks result started hpc hpc' =>
      have hturns := hs.turns
      rw [hpc] at hturns
      rw [hpc']
      exact (List.nodup_cons.mp hturns).2
    | lose hlost hturns =>
      rw [hturns]
      exact List.nodup_nil
    | snapshot hpc hturns =>
      rw [hturns]
      exact Database.nodup_activeEntries hs.names
  · cases step_cases h with
    | sched i s' hmove => exact schedMove_inOrder hmove hs.order
    | crash => exact .nil
    | _ => exact hs.order

theorem queueing_start {db : Database} (hnames : NamesUnique db) : Queueing { db := db } :=
  ⟨hnames, List.nodup_nil, .nil⟩

/-! ### The tasks that go before -/

/-- The tasks of `starts` may go before `task` in the pass of `s`. -/
structure Precede (starts : List PendingTask) (task : PendingTask) (s : Sys) : Prop where
  turns : ((starts ++ [task]).map Task.scheduleEntryName).Subperm s.pc.turns
  before : ∀ x ∈ starts, x.NotAfter task

/-- From `s` to `t` the tasks of `starts` have gone before `task`, which waits. -/
structure Overtaken (task : PendingTask) (s : Sys) (starts : List PendingTask) (t : Sys) : Prop where
  started : startedTasks t.history = startedTasks s.history ++ starts
  turns : (starts.map Task.scheduleEntryName ++ t.pc.turns).Subperm s.pc.turns
  before : ∀ x ∈ starts, x.NotAfter task
  waiting : task ∈ t.pc.unstarted

/-- After `n` steps of the thread the task still waits, its action has been called after
those of `starts`, or the thread has died first. -/
inductive Awaited (task : PendingTask) (s : Sys) (n : ℕ) (t : Sys) : Prop
  | waits (starts : List PendingTask) (h : Overtaken task s starts t)
      (hsteps : t.pc.stepsLeft + n ≤ s.pc.stepsLeft)
  | called (starts more : List PendingTask) (h : Precede starts task s)
      (hstarted : startedTasks t.history = startedTasks s.history ++ starts ++ task :: more)
  | lost (starts : List PendingTask) (h : Precede starts task s) (hdead : Dead t)
      (hstarted : startedTasks t.history = startedTasks s.history ++ starts)

theorem Overtaken.refl (h : task ∈ s.pc.unstarted) : Overtaken task s [] s :=
  ⟨(List.append_nil _).symm, .refl _, (fun _ hx => by cases hx), h⟩

theorem Overtaken.precede {r : Sys} {starts : List PendingTask} (hs : Overtaken task r starts s) :
    Precede starts task r := by
  refine ⟨List.Subperm.trans ?_ hs.turns, hs.before⟩
  rw [List.map_append, List.map_singleton]
  refine (List.subperm_append_left _).mpr (List.singleton_sublist.mpr ?_).subperm
  exact List.mem_append_right _ (List.mem_map_of_mem hs.waiting)

/-- The next start, of the task itself or of one that goes before it. -/
theorem Overtaken.start {r : Sys} {n : ℕ} {starts : List PendingTask}
    (hs : Overtaken task r starts s) (horder : s.pc.InOrder) {x : PendingTask}
    {tasks : List PendingTask} {result : ResultRow} {started : ℤ}
    (hpc : s.pc = .calling x result tasks) (hpc' : t.pc = .acting x result started tasks)
    (hstarted : startedTasks t.history = startedTasks s.history ++ [x])
    (hsteps : t.pc.stepsLeft + n ≤ r.pc.stepsLeft) : Awaited task r n t := by
  have hnext : startedTasks t.history = startedTasks r.history ++ (starts ++ [x]) := by
    rw [hstarted, hs.started, List.append_assoc]
  by_cases hx : x = task
  · subst hx
    exact .called starts [] hs.precede (hnext.trans (List.append_assoc _ _ _).symm)
  · have hturns := hs.turns
    have hin := hs.waiting
    rw [hpc] at hin horder hturns
    have hwaits : task ∈ tasks := (List.mem_cons.mp hin).resolve_left (Ne.symm hx)
    refine .waits (starts ++ [x]) ⟨hnext, ?_, ?_, by rw [hpc']; exact hwaits⟩ hsteps
    · rw [hpc', List.map_append, List.append_assoc]
      exact hturns
    · intro y hy
      rcases List.mem_append.mp hy with hy | hy
      · exact hs.before y hy
      · rw [List.mem_singleton.mp hy]
        exact (List.pairwise_cons.mp horder).1 task hwaits

theorem step_started (h : step cfg s l = some t) :
    ∃ more, startedTasks t.history = startedTasks s.history ++ more := by
  cases step_rankStep h with
  | keep hstarted => exact ⟨[], by rw [hstarted, List.append_nil]⟩
  | take i e todo queue hl hpc hpc' hstarted => exact ⟨[], by rw [hstarted, List.append_nil]⟩
  | start task tasks result started hpc hpc' hstarted => exact ⟨[task], hstarted⟩

/-- A dead thread stays dead until the process is started again. -/
theorem dead_step (hs : Dead s) (hl : l ≠ .crash) (h : step cfg s l = some t) : Dead t := by
  obtain ⟨err, hpc⟩ := hs
  by_cases hsched : l.isSched = false
  · exact ⟨err, (step_pc h hl hsched).trans hpc⟩
  · cases l with
    | sched i => simp [step, schedStep, hpc] at h
    | _ => exact absurd rfl hsched

/-- A dead thread starts nothing. -/
theorem dead_started (hs : Dead s) (h : step cfg s l = some t) :
    startedTasks t.history = startedTasks s.history := by
  obtain ⟨err, hpc⟩ := hs
  cases step_rankStep h with
  | keep hstarted => exact hstarted
  | take i e todo queue hl hpc' => cases hpc.symm.trans hpc'
  | start task tasks result started hpc' => cases hpc.symm.trans hpc'

theorem Awaited.step {r : Sys} {n : ℕ} (hs : Awaited task r n s) (hqueueing : Queueing s)
    (hl : l ≠ .crash) (h : step cfg s l = some t) :
    Awaited task r (n + if l.isSched then 1 else 0) t := by
  cases hs with
  | called starts more hprecede hstarted =>
    obtain ⟨later, hlater⟩ := step_started h
    refine .called starts (more ++ later) hprecede ?_
    rw [hlater, hstarted]
    simp
  | lost starts hprecede hdead hstarted =>
    exact .lost starts hprecede (dead_step hdead hl h) ((dead_started hdead h).trans hstarted)
  | waits starts hs hsteps =>
    have hleft := step_stepsLeft h hl (Pc.stepsLeft_pos hs.waiting).ne'
    cases step_turnStep h with
    | keep hstarted hturns hunstarted =>
      refine .waits starts ⟨hstarted.trans hs.started, ?_, hs.before, hunstarted task hs.waiting⟩
        (by omega)
      exact ((List.subperm_append_left _).mpr hturns).trans hs.turns
    | start x tasks result started hpc hpc' hstarted =>
      exact hs.start hqueueing.order hpc hpc' hstarted (by omega)
    | lose hlost hturns hstarted =>
      exact .lost starts hs.precede (hlost.resolve_right hl) (hstarted.trans hs.started)
    | snapshot hpc =>
      have hin := hs.waiting
      rw [hpc] at hin
      cases hin

theorem awaited_run {r : Sys} {n : ℕ} {ls : List Label} (hs : Awaited task r n s)
    (hqueueing : Queueing s) (hls : ∀ l ∈ ls, l ≠ .crash) (hrun : exec (step cfg) s ls = some t) :
    Awaited task r (n + ls.countP Label.isSched) t := by
  induction ls generalizing s n with
  | nil =>
    obtain rfl := Option.some.inj hrun
    exact hs
  | cons l ls ih =>
    obtain ⟨s', hstep, hrest⟩ := exec_cons.mp hrun
    have hnext := ih (hs.step hqueueing (hls l List.mem_cons_self) hstep) (hqueueing.step hstep)
      (fun l' hl' => hls l' (List.mem_cons_of_mem l hl')) hrest
    rw [List.countP_cons, Nat.add_comm (ls.countP _), ← Nat.add_assoc]
    exact hnext

/-- A task that is queued in any state of any run is not starved: however many requests,
finalizations and further times come in between, each entry starts at most one task before
it, a task that goes before it in the order of the queue and whose turn was still to come,
and unless an exception ends the loops its action is called within the steps that are left
of the pass. -/
theorem waiting_task_called (cfg : Settings) (db : Database) (hnames : NamesUnique db)
    (ls ms : List Label) (s t : Sys) (hs : exec (step cfg) { db := db } ls = some s)
    (task : PendingTask) (htask : task ∈ s.pc.unstarted) (hms : ∀ l ∈ ms, l ≠ .crash)
    (hrun : exec (step cfg) s ms = some t) :
    ∃ starts more, startedTasks t.history = startedTasks s.history ++ starts ++ more ∧
      ((starts ++ [task]).map Task.scheduleEntryName).Nodup ∧
      (∀ x ∈ starts, x.scheduleEntryName ∈ s.pc.turns ∧ x.NotAfter task) ∧
      (more.head? = some task ∨ more = [] ∧
        (Dead t ∨ task ∈ t.pc.unstarted ∧ ms.countP Label.isSched < s.pc.stepsLeft)) := by
  have hqueueing : Queueing s := exec_invariant (fun _ _ _ hs _ h => hs.step h)
    (queueing_start hnames) (Along.of_forall (fun _ _ => trivial) _ _) hs
  have hfirst : ∀ starts, Precede starts task s →
      ((starts ++ [task]).map Task.scheduleEntryName).Nodup ∧
        ∀ x ∈ starts, x.scheduleEntryName ∈ s.pc.turns ∧ x.NotAfter task := by
    intro starts hprecede
    obtain ⟨turns, hperm, hsub⟩ := hprecede.turns
    refine ⟨hperm.nodup_iff.mp (hqueueing.turns.sublist hsub), fun x hx => ⟨?_, hprecede.before x hx⟩⟩
    exact hprecede.turns.subset (List.mem_map_of_mem (List.mem_append_left _ hx))
  have hstart : Awaited task s 0 s := .waits [] (.refl htask) (Nat.le_refl _)
  cases awaited_run hstart hqueueing hms hrun with
  | waits starts h hsteps =>
    have hfirst := hfirst starts h.precede
    have hleft := Pc.stepsLeft_pos h.waiting
    refine ⟨starts, [], by rw [h.started, List.append_nil], hfirst.1, hfirst.2, .inr ⟨rfl, .inr ?_⟩⟩
    exact ⟨h.waiting, by omega⟩
  | called starts more h hstarted =>
    have hfirst := hfirst starts h
    exact ⟨starts, task :: more, hstarted, hfirst.1, hfirst.2, .inl rfl⟩
  | lost starts h hdead hstarted =>
    have hfirst := hfirst starts h
    exact ⟨starts, [], by rw [hstarted, List.append_nil], hfirst.1, hfirst.2, .inr ⟨rfl, .inl hdead⟩⟩

/-- An entry that comes due every three seconds, and one of lower priority. -/
def recurringAbove : List ScheduleEntry :=
  [⟨"above", "acquire", 10, 0, none, some 3, true, none, 0, 1, "op"⟩,
    ⟨"below", "acquire", 20, 3, none, none, true, none, 3, 1, "op"⟩]

/-- The task of the other entry. -/
def taskBelow : PendingTask := ⟨3, 20, "acquire", "below", 1⟩

/-- The recurring entry comes due again while its action runs, and is not started twice
before the other. -/
theorem waiting_task_called_recurring :
    ∃ s t, exec (step inThread) { db := { schedule := recurringAbove } }
        (List.replicate 12 (.sched { now := 4 })) = some s ∧
      exec (step inThread) s (List.replicate 28 (.sched { now := 7 })) = some t ∧
      ∃ starts more, startedTasks t.history = startedTasks s.history ++ starts ++ more ∧
        ((starts ++ [taskBelow]).map Task.scheduleEntryName).Nodup ∧
        more.head? = some taskBelow := by
  have hend : (exec (step inThread) { db := { schedule := recurringAbove } }
      (List.replicate 12 (.sched { now := 4 }))).map (fun s =>
        (decide (taskBelow ∈ s.pc.unstarted), s.pc.stepsLeft,
          (exec (step inThread) s (List.replicate 28 (.sched { now := 7 }))).map fun t =>
            t.pc.held.length)) = some (true, 28, some 1) := by decide
  obtain ⟨s, hs, hstate⟩ := Option.map_eq_some_iff.mp hend
  obtain ⟨htask, hstate⟩ := Prod.mk.inj hstate
  obtain ⟨hleft, hlater⟩ := Prod.mk.inj hstate
  obtain ⟨t, ht, hheld⟩ := Option.map_eq_some_iff.mp hlater
  obtain ⟨starts, more, hstarted, hnodup, -, hcalled⟩ := waiting_task_called inThread
    { schedule := recurringAbove } (by unfold NamesUnique; decide) _ _ s t hs taskBelow
    (of_decide_eq_true htask) (by decide) ht
  refine ⟨s, t, hs, ht, starts, more, hstarted, hnodup, ?_⟩
  rcases hcalled with hcalled | ⟨-, ⟨err, hdead⟩ | ⟨-, hcount⟩⟩
  · exact hcalled
  · rw [hdead] at hheld
    cases hheld
  · rw [hleft] at hcount
    exact absurd hcount (by decide)

end Scheduler

end ScosSensor
