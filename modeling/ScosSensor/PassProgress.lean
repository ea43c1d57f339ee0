import ScosSensor.EntryRows

/-!
# The progress of a pass

A pass has a bound on the steps that the thread still has to take in it, so it
ends unless the thread dies. A task that is queued is carried from step to step
until its action is completed, and only a death or a crash loses it.
-/
namespace ScosSensor

/-- The steps that a finalization still takes at most, from each stage. -/
def Stage.stepsLeft : Stage → ℕ
  | .evicting .first => 8
  | .writing .first => 7
  | .notifying => 6
  | .evicting .response => 5
  | .writing .response => 4
  | .evicting _ => 3
  | .writing _ => 2
  | .counting => 1

namespace Pc

/-- The tasks that are queued and whose actions are not completed. -/
def unfinished : Pc → List PendingTask
  | .calling task _ tasks => task :: tasks
  | .acting task _ _ tasks => task :: tasks
  | pc => pc.waiting

/-- The entry whose task is being executed. -/
def executing : Pc → Option String
  | .evicting task _ => some task.scheduleEntryName
  | .inserting task _ => some task.scheduleEntryName
  | .calling _ result _ => some result.scheduleEntry
  | .acting _ result _ _ => some result.scheduleEntry
  | .finalizing f _ => some f.result.scheduleEntry
  | _ => none

/-- A bound on the steps that the thread takes before the pass is over: 16 for
an entry of the snapshot, of which 13 are for the task that it may have. -/
def stepsLeft : Pc → ℕ
  | .taking todo queue => 16 * todo.length + 13 * queue.length + 2
  | .completing _ _ todo queue => 15 + (16 * todo.length + 13 * queue.length + 2)
  | .numbering _ _ todo queue => 14 + (16 * todo.length + 13 * queue.length + 2)
  | .consuming tasks => 13 * tasks.length + 1
  | .evicting _ tasks => 12 + (13 * tasks.length + 1)
  | .inserting _ tasks => 11 + (13 * tasks.length + 1)
  | .calling _ _ tasks => 10 + (13 * tasks.length + 1)
  | .acting _ _ _ tasks => 9 + (13 * tasks.length + 1)
  | .finalizing f tasks => f.stage.stepsLeft + (13 * tasks.length + 1)
  | _ => 0

/-- After a pass no task of it is left. -/
theorem unfinished_of_stepsLeft {pc : Pc} (h : pc.stepsLeft = 0) : pc.unfinished = [] := by
  cases pc <;> simp_all [stepsLeft, unfinished, waiting]

theorem stepsLeft_settled (taskTime : Option ℤ) (e : ScheduleEntry) (todo : List ScheduleEntry)
    (queue : TaskQueue ℕ) :
    (settled taskTime e todo queue).stepsLeft ≤ 14 + (16 * todo.length + 13 * queue.length + 2) := by
  cases taskTime with
  | none =>
    simp only [settled, stepsLeft]
    omega
  | some taskTime => simp only [settled, stepsLeft, le_refl]

end Pc

/-- The steps of the scheduler thread. -/
def Label.isSched : Label → Bool
  | .sched _ => true
  | _ => false

namespace Scheduler

open Runs

variable {cfg : Settings} {s t : Sys} {l : Label} {i : Input}

theorem afterCallback_stepsLeft (f : Finalization) (post : Option Post) (outcome : CallbackOutcome) :
    (afterCallback f post outcome).stage.stepsLeft < Stage.notifying.stepsLeft := by
  unfold afterCallback notificationFailed
  split_ifs
  · simp [Stage.stepsLeft]
  · cases outcome with
    | raised => simp [Stage.stepsLeft]
    | response ok => cases ok <;> simp [Stage.stepsLeft]

/-- Every stage leads to one that is nearer to the end. -/
theorem FinalizeMove.stepsLeft {f f' : Finalization} {w w' : World}
    (h : FinalizeMove cfg i f w (some f') w') : f'.stage.stepsLeft < f.stage.stepsLeft := by
  generalize hnext : some f' = next at h
  cases h with
  | evict site hstage =>
    rw [Option.some.inj hnext, hstage]
    cases site <;> simp [Stage.stepsLeft]
  | write site row db hstage hsave =>
    rw [Option.some.inj hnext, hstage]
    cases site <;> simp [Stage.stepsLeft]
  | retry err hstage hsave =>
    rw [Option.some.inj hnext, hstage]
    simp [notificationFailed, Stage.stepsLeft]
  | notify entry hstage hentry =>
    rw [Option.some.inj hnext, hstage]
    exact afterCallback_stepsLeft f _ _
  | count => cases hnext

/-- Within a pass every step of the thread counts. -/
theorem schedMove_stepsLeft (h : SchedMove cfg i s t) (hs : s.pc.stepsLeft ≠ 0) :
    t.pc.stepsLeft < s.pc.stepsLeft := by
  cases h with
  | raise err => exact Nat.pos_of_ne_zero hs
  | finalizeRaise f tasks err w hpc => exact Nat.pos_of_ne_zero hs
  | jump pc hjump =>
    cases hjump <;> simp_all [Pc.stepsLeft]
  | reset e todo last hpc => simp [hpc, Pc.stepsLeft] at hs
  | read hpc => simp [hpc, Pc.stepsLeft] at hs
  | take e todo queue hpc =>
    simp only [hpc, Pc.stepsLeft, List.length_cons]
    omega
  | keep taskTime e todo queue hpc =>
    rw [hpc]
    exact (Pc.stepsLeft_settled taskTime e todo queue).trans_lt (Nat.add_lt_add_right (by omega) _)
  | cancel taskTime e todo queue hpc =>
    rw [hpc]
    exact (Pc.stepsLeft_settled taskTime _ todo queue).trans_lt (Nat.add_lt_add_right (by omega) _)
  | number taskTime e todo queue hpc =>
    simp only [hpc, Pc.stepsLeft, TaskQueue.length_enter]
    omega
  | fetch task tasks e hpc =>
    simp only [hpc, Pc.stepsLeft, List.length_cons]
    omega
  | evict task tasks hpc =>
    simp only [hpc, Pc.stepsLeft]
    omega
  | create task tasks result db hpc =>
    simp only [hpc, Pc.stepsLeft]
    omega
  | call task result tasks hpc =>
    simp only [hpc, Pc.stepsLeft]
    omega
  | spawn task result started tasks hpc =>
    simp only [hpc, Pc.stepsLeft]
    omega
  | finish task result started tasks hpc =>
    simp only [hpc, Pc.stepsLeft, startFinalization, Stage.stepsLeft]
    omega
  | finalize f f' tasks w hpc hmove =>
    have hstage := hmove.stepsLeft
    simp only [hpc, Pc.stepsLeft]
    omega
  | finalized f tasks w hpc hmove =>
    cases hmove with
    | count w' hstage =>
      simp only [hpc, Pc.stepsLeft, hstage, Stage.stepsLeft]
      omega

/-- An exception has ended the loops. -/
def Dead (s : Sys) : Prop := ∃ err, s.pc = .dead err

/-- What a step does with the queued tasks while the thread lives. -/
structure Carries (s t : Sys) : Prop where
  completed : ∀ x ∈ completedTasks s.history, x ∈ completedTasks t.history
  unfinished : ∀ x ∈ s.pc.unfinished, x ∈ completedTasks t.history ∨ x ∈ t.pc.unfinished
  queued : ∀ x ∈ queuedTasks t.history, x ∈ queuedTasks s.history ∨ x.2 ∈ t.pc.unfinished

/-- A step that reports no task and keeps the unfinished ones. -/
theorem Carries.of_same (hcompleted : completedTasks t.history = completedTasks s.history)
    (hqueued : queuedTasks t.history = queuedTasks s.history)
    (hunfinished : ∀ x ∈ s.pc.unfinished, x ∈ t.pc.unfinished) : Carries s t := by
  refine ⟨?_, ?_, ?_⟩
  · intro x hx
    rwa [hcompleted]
  · intro x hx
    exact .inr (hunfinished x hx)
  · intro x hx
    rw [hqueued] at hx
    exact .inl hx

/-- The end of an action completes its task. -/
theorem Carries.of_completed {task : PendingTask} (hhistory : t.history = s.history ++ [.completed task])
    (hunfinished : ∀ x ∈ s.pc.unfinished, x = task ∨ x ∈ t.pc.unfinished) : Carries s t := by
  refine ⟨?_, ?_, ?_⟩
  · intro x hx
    rw [hhistory]
    simp [hx]
  · intro x hx
    rw [hhistory]
    obtain rfl | hleft := hunfinished x hx
    · simp [Event.completedTask]
    · exact .inr hleft
  · intro x hx
    rw [hhistory] at hx
    exact .inl (by simpa [Event.queuedTask] using hx)

theorem Jump.unfinished {pc : Pc} (h : Jump cfg s pc) : pc.unfinished.Perm s.pc.unfinished := by
  cases h with
  | queueDone queue hpc =>
    rw [hpc]
    exact TaskQueue.toList_perm queue
  | _ => simp_all [Pc.unfinished, Pc.waiting]

theorem schedMove_carries (h : SchedMove cfg i s t) (halive : ¬ Dead t) : Carries s t := by
  cases h with
  | raise err => exact absurd ⟨err, rfl⟩ halive
  | finalizeRaise f tasks err w => exact absurd ⟨err, rfl⟩ halive
  | jump pc hjump => exact .of_same rfl rfl fun x hx => hjump.unfinished.symm.subset hx
  | number taskTime e todo queue hpc =>
    have hmem (x : PendingTask) := @TaskQueue.mem_enter ℕ queue taskTime e.priority e.action e.name
      e.nextTaskId x
    refine ⟨?_, ?_, ?_⟩
    · intro x hx
      simpa using .inl hx
    · intro x hx
      have hx' : x ∈ queue := by simpa [hpc, Pc.unfinished, Pc.waiting] using hx
      exact .inr ((hmem x).mpr (.inr hx'))
    · intro x hx
      rw [queuedTasks_append] at hx
      rcases List.mem_append.mp hx with hx | hx
      · exact .inl hx
      · obtain rfl := List.mem_singleton.mp hx
        exact .inr ((hmem _).mpr (.inl rfl))
  | spawn task result started tasks hpc | finish task result started tasks hpc =>
    refine .of_completed rfl ?_
    intro x hx
    rw [hpc] at hx
    exact List.mem_cons.mp hx
  | finalize f f' tasks w hpc hmove | finalized f tasks w hpc hmove =>
    refine .of_same hmove.tasks.2.1 hmove.tasks.2.2 ?_
    rw [hpc]
    exact fun x hx => hx
  | keep taskTime e todo queue hpc | cancel taskTime e todo queue hpc =>
    refine .of_same rfl rfl ?_
    intro x hx
    rw [hpc] at hx
    cases taskTime <;> exact hx
  | take e todo queue hpc =>
    refine .of_same (by simp [Event.completedTask]) (by simp [Event.queuedTask]) ?_
    rw [hpc]
    exact fun x hx => hx
  | create task tasks result db hpc =>
    refine .of_same (by simp [Event.completedTask]) (by simp [Event.queuedTask]) ?_
    rw [hpc]
    exact fun x hx => hx
  | call task result tasks hpc =>
    refine .of_same (by simp [Event.completedTask]) (by simp [Event.queuedTask]) ?_
    rw [hpc]
    exact fun x hx => hx
  | fetch task tasks e hpc | evict task tasks hpc =>
    refine .of_same rfl rfl ?_
    rw [hpc]
    exact fun x hx => hx
  | reset e todo last hpc | read hpc =>
    refine .of_same rfl rfl ?_
    intro x hx
    rw [hpc] at hx
    cases hx

theorem step_carries (h : step cfg s l = some t) (hl : l ≠ .crash) (halive : ¬ Dead t) :
    Carries s t := by
  cases step_cases h with
  | sched i s' hmove => exact schedMove_carries hmove halive
  | finalizer k i f f' w hf hmove => exact .of_same hmove.tasks.2.1 hmove.tasks.2.2 fun _ hx => hx
  | finalizerEnd k i f w hf hmove => exact .of_same hmove.tasks.2.1 hmove.tasks.2.2 fun _ hx => hx
  | finalizerRaise k i f err w hf hraise =>
    exact .of_same (congrArg completedTasks hraise.frame.2.1) hraise.queuedTasks fun _ hx => hx
  | crash => exact absurd rfl hl
  | _ => exact .of_same rfl rfl fun _ hx => hx

/-- The tasks are completed, or the thread still has them. -/
def Owed (tasks : List PendingTask) (s : Sys) : Prop :=
  ∀ x ∈ tasks, x ∈ completedTasks s.history ∨ x ∈ s.pc.unfinished

theorem Owed.step {tasks : List PendingTask} (hs : Owed tasks s) (h : Carries s t) :
    Owed tasks t := by
  intro x hx
  obtain hdone | hleft := hs x hx
  · exact .inl (h.completed x hdone)
  · exact h.unfinished x hleft

/-- Only the thread itself moves on, and a crash takes it back. -/
theorem step_pc (h : step cfg s l = some t) (hl : l ≠ .crash) (hsched : l.isSched = false) :
    t.pc = s.pc := by
  cases step_cases h with
  | sched => cases hsched
  | crash => exact absurd rfl hl
  | _ => rfl

theorem step_stepsLeft (h : step cfg s l = some t) (hl : l ≠ .crash) (hs : s.pc.stepsLeft ≠ 0) :
    t.pc.stepsLeft + (if l.isSched then 1 else 0) ≤ s.pc.stepsLeft := by
  by_cases hsched : l.isSched = false
  · rw [step_pc h hl hsched, hsched]
    simp
  · cases step_cases h with
    | sched i s' hmove =>
      simp only [Label.isSched, if_true]
      exact schedMove_stepsLeft hmove hs
    | _ => exact absurd rfl hsched

/-- A thread that stays alive completes the tasks that it has, within the steps
that are left of its pass. -/
theorem completes_of_alive {I : Sys → Prop} {ok : Sys → Label → Prop}
    (hI : ∀ s l s', I s → ok s l → step cfg s l = some s' → I s')
    (halive : ∀ s, I s → ¬ Dead s) (hcrash : ∀ s l, ok s l → l ≠ .crash)
    {tasks : List PendingTask} {ls : List Label} (hs : I s) (howed : Owed tasks s)
    (hok : Along (step cfg) ok s ls) (hrun : exec (step cfg) s ls = some t)
    (hcount : s.pc.stepsLeft ≤ ls.countP Label.isSched) :
    ∀ x ∈ tasks, x ∈ completedTasks t.history := by
  have hcarries : ∀ s l s', I s → ok s l → step cfg s l = some s' → Carries s s' :=
    fun s l s' hs hl h => step_carries h (hcrash s l hl) (halive s' (hI s l s' hs hl h))
  have hboth : ∀ s l s', I s ∧ Owed tasks s → ok s l → step cfg s l = some s' →
      I s' ∧ Owed tasks s' :=
    fun s l s' hs hl h => ⟨hI s l s' hs.1 hl h, hs.2.step (hcarries s l s' hs.1 hl h)⟩
  refine exec_reaches (fun s => ∀ x ∈ tasks, x ∈ completedTasks s.history)
    (fun s => s.pc.stepsLeft) hboth ?_ ?_ ?_ ⟨hs, howed⟩ hok hrun hcount
  · intro s l s' hs hl hdone h x hx
    exact (hcarries s l s' hs.1 hl h).completed x (hdone x hx)
  · intro s hs hleft x hx
    obtain hdone | hnone := hs.2 x hx
    · exact hdone
    · rw [Pc.unfinished_of_stepsLeft hleft] at hnone
      cases hnone
  · intro s l s' hs hl hleft h
    exact step_stepsLeft h (hcrash s l hl) hleft

/-- `self.entry` is the entry whose task is being executed. -/
def CurrentEntry (s : Sys) : Prop :=
  ∀ name, s.pc.executing = some name → ∃ e, s.entry = some e ∧ e.name = name

theorem step_currentEntry (hs : CurrentEntry s) (h : step cfg s l = some t) : CurrentEntry t := by
  intro name hname
  cases step_cases h with
  | sched i s' hmove =>
    cases hmove with
    | fetch task tasks e hpc hload =>
      obtain rfl := Option.some.inj hname
      exact ⟨e, rfl, Database.name_of_getEntry (loadEntry_ok hload).1⟩
    | evict task tasks hpc => exact hs name (by rw [hpc]; exact hname)
    | create task tasks result db hpc hsave =>
      have hkey : result.scheduleEntry = task.scheduleEntryName :=
        congrArg Prod.fst (Database.superSave_key hsave)
      refine hs name ?_
      rw [hpc]
      exact (congrArg some hkey).symm.trans hname
    | call task result tasks hpc => exact hs name (by rw [hpc]; exact hname)
    | finish task result started tasks hpc => exact hs name (by rw [hpc]; exact hname)
    | finalize f f' tasks w hpc hmove =>
      have hkey : f'.result.scheduleEntry = f.result.scheduleEntry :=
        congrArg Prod.fst hmove.result.2
      rw [hmove.entry]
      refine hs name ?_
      rw [hpc]
      exact (congrArg some hkey).symm.trans hname
    | jump pc hjump => cases hjump <;> cases hname
    | keep taskTime | cancel taskTime => cases taskTime <;> cases hname
    | _ => cases hname
  | finalizer k i f f' w hf hmove =>
    rw [hmove.entry]
    exact hs name hname
  | finalizerEnd k i f w hf hmove =>
    rw [hmove.entry]
    exact hs name hname
  | finalizerRaise k i f err w hf hraise =>
    rw [hraise.frame.2.2]
    exact hs name hname
  | crash => cases hname
  | _ => exact hs name hname

end Scheduler

end ScosSensor
