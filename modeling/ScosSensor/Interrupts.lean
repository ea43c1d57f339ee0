import ScosSensor.SchedulerMoves

/-!
# Stopping the scheduler thread

The interrupt flag is looked at after a whole pass only. When it goes up while
no task waits to be started and the pass that is being queued finds nothing due,
the thread finishes the task in progress and ends without starting another.
Otherwise every task of the pass is executed first, by a loop of
`_consume_task_queue` that does not look at the flag.
-/
namespace ScosSensor

namespace Pc

/-- The task that the thread has taken from its queue without starting its action yet. -/
def picked : Pc → List PendingTask
  | .evicting task _ => [task]
  | .inserting task _ => [task]
  | .calling task _ _ => [task]
  | _ => []

/-- The task whose action has not ended. -/
def inProgress : Pc → List PendingTask
  | .acting task _ _ _ => [task]
  | pc => pc.picked

/-- The tasks of the pass that wait behind the one in progress. -/
def behind : Pc → List PendingTask
  | .taking _ queue => queue
  | .completing _ _ _ queue => queue
  | .numbering _ _ _ queue => queue
  | .consuming tasks => tasks
  | .evicting _ tasks => tasks
  | .inserting _ tasks => tasks
  | .calling _ _ tasks => tasks
  | .acting _ _ _ tasks => tasks
  | .finalizing _ tasks => tasks
  | _ => []

/-- The instance whose times the thread takes next. -/
def toTake : Pc → Option ScheduleEntry
  | .taking (e :: _) _ => some e
  | _ => none

/-- No task waits behind the one in progress, and none is about to be queued. -/
def WindsDown (pc : Pc) : Prop := pc.behind = [] ∧ pc.dueTimes = []

instance : DecidablePred WindsDown :=
  fun pc => inferInstanceAs (Decidable (pc.behind = [] ∧ pc.dueTimes = []))

end Pc

namespace Scheduler

open Runs

variable {cfg : Settings} {s s' t : Sys} {l : Label} {i : Input} {f : Finalization}
  {w w' : World}

/-- From `s` on, where the flag goes up, the actions that start and complete are
at most the one of the task in progress. -/
structure Honoured (s t : Sys) : Prop where
  starts : startedTasks t.history <+: startedTasks s.history ++ s.pc.picked
  completions : completedTasks t.history <+: completedTasks s.history ++ s.pc.inProgress

/-- A step raises the flag only while the thread winds down. -/
def RaisesFlagIdle (cfg : Settings) (s : Sys) (l : Label) : Prop :=
  ∀ s', step cfg s l = some s' → s.interruptFlag = false → s'.interruptFlag = true →
    s.pc.WindsDown

instance : Decidable (RaisesFlagIdle cfg s l) :=
  match hstep : step cfg s l with
  | none => .isTrue (by simp [RaisesFlagIdle, hstep])
  | some s' =>
    decidable_of_iff (s.interruptFlag = false → s'.interruptFlag = true → s.pc.WindsDown)
      (by simp [RaisesFlagIdle, hstep])

/-- With the flag up, no entry is due when the thread takes its times. -/
def TakesNothing (s : Sys) : Label → Prop
  | .sched i => ∀ e ∈ s.pc.toTake, s.interruptFlag = true → e.dueTime i.now = none
  | _ => True

instance : DecidablePred (TakesNothing s)
  | .sched i => inferInstanceAs (Decidable (∀ e ∈ s.pc.toTake, _ → e.dueTime i.now = none))
  | .finalizer _ _ => .isTrue trivial
  | .measure _ => .isTrue trivial
  | .stop => .isTrue trivial
  | .crash => .isTrue trivial
  | .post _ _ _ _ => .isTrue trivial
  | .read _ _ => .isTrue trivial
  | .write _ _ => .isTrue trivial
  | .deleteEntry _ => .isTrue trivial
  | .deleteResult _ => .isTrue trivial

/-- From `s` to `t` nothing is started or completed but what was in progress,
counting also what `t` still has in progress. -/
structure WindsTo (s t : Sys) : Prop where
  pc : t.pc.WindsDown
  starts : startedTasks t.history ++ t.pc.picked <+: startedTasks s.history ++ s.pc.picked
  completions :
    completedTasks t.history ++ t.pc.inProgress <+: completedTasks s.history ++ s.pc.inProgress

theorem FinalizeMove.flag {next : Option Finalization} (h : FinalizeMove cfg i f w next w')
    (hflag : w.interruptFlag = true) : w'.interruptFlag = true := by
  cases h with
  | evict site => exact hflag
  | write site row db hstage hsave => exact hflag
  | retry err => exact hflag
  | notify entry => exact hflag
  | count w' hstage hcount =>
    have hframe := countFailures_frame cfg f.status w
    rw [hcount] at hframe
    exact hframe.2.2.2 hflag

theorem FinalizeRaise.flag {err : Exc} (h : FinalizeRaise cfg f w err w')
    (hflag : w.interruptFlag = true) : w'.interruptFlag = true := by
  cases h with
  | write site err => exact hflag
  | noEntry => exact hflag
  | count w' err hstage hcount =>
    have hframe := countFailures_frame cfg f.status w
    rw [hcount] at hframe
    exact hframe.2.2.2 hflag

/-- The flag stays up until the process restarts. -/
theorem flag_step (h : step cfg s l = some s') (hcrash : l ≠ .crash)
    (hflag : s.interruptFlag = true) : s'.interruptFlag = true := by
  cases step_cases h with
  | sched i s' hmove =>
    cases hmove with
    | finalize f f' tasks w hpc hmove => exact hmove.flag hflag
    | finalized f tasks w hpc hmove => exact hmove.flag hflag
    | finalizeRaise f tasks err w hpc hraise => exact hraise.flag hflag
    | _ => exact hflag
  | finalizer k i f f' w hf hmove => exact hmove.flag hflag
  | finalizerEnd k i f w hf hmove => exact hmove.flag hflag
  | finalizerRaise k i f err w hf hraise => exact hraise.flag hflag
  | stop => rfl
  | crash => exact absurd rfl hcrash
  | _ => exact hflag

theorem WindsTo.trans {r : Sys} (h : WindsTo s t) (h' : WindsTo r s) : WindsTo r t :=
  ⟨h.pc, h.starts.trans h'.starts, h.completions.trans h'.completions⟩

theorem WindsTo.honoured (h : WindsTo s t) : Honoured s t :=
  ⟨(List.prefix_append _ _).trans h.starts, (List.prefix_append _ _).trans h.completions⟩

/-- A step that leaves the program counter and the tasks alone. -/
theorem WindsTo.of_same (hpc : s.pc.WindsDown) (hpc' : t.pc = s.pc)
    (hstarts : startedTasks t.history = startedTasks s.history)
    (hcompletions : completedTasks t.history = completedTasks s.history) : WindsTo s t := by
  refine ⟨by rwa [hpc'], ?_, ?_⟩
  · simp only [hpc', hstarts, List.prefix_rfl]
  · simp only [hpc', hcompletions, List.prefix_rfl]

/-- Where a control transfer leads a thread that winds down with the flag up. -/
theorem Jump.windsDown {pc : Pc} (h : Jump cfg s pc) (hpc : s.pc.WindsDown)
    (hflag : s.interruptFlag = true) : pc.WindsDown ∧ pc.picked = [] ∧ pc.inProgress = [] := by
  cases h <;> simp_all [Pc.WindsDown, Pc.behind, Pc.dueTimes, Pc.picked, Pc.inProgress]

theorem schedMove_windsTo (h : SchedMove cfg i s t) (htakes : TakesNothing s (.sched i))
    (hpc : s.pc.WindsDown) (hflag : t.interruptFlag = true) : WindsTo s t := by
  cases h with
  | raise err =>
    refine ⟨⟨rfl, rfl⟩, ?_, ?_⟩
    · simp [Pc.picked]
    · simp [Pc.inProgress, Pc.picked]
  | jump pc hjump =>
    obtain ⟨hdown, hpicked, hprogress⟩ := hjump.windsDown hpc hflag
    refine ⟨hdown, ?_, ?_⟩
    · simp [hpicked]
    · simp [hprogress]
  | reset e todo last hres =>
    refine ⟨⟨rfl, rfl⟩, ?_, ?_⟩
    · simp [Pc.picked]
    · simp [Pc.inProgress, Pc.picked]
  | read hread =>
    refine ⟨⟨rfl, rfl⟩, ?_, ?_⟩
    · simp [Pc.picked]
    · simp [Pc.inProgress, Pc.picked]
  | take e todo queue htake =>
    have hnone : e.dueTime i.now = none := htakes e (by simp [htake, Pc.toTake]) hflag
    rw [htake] at hpc
    refine ⟨⟨hpc.1, by simp [hnone, Pc.dueTimes]⟩, ?_, ?_⟩
    · simp [Pc.picked, Event.startedTask]
    · simp [Pc.inProgress, Pc.picked, Event.completedTask]
  | keep taskTime e todo queue hkeep =>
    rw [hkeep] at hpc
    cases taskTime with
    | some taskTime => cases hpc.2
    | none =>
      refine ⟨⟨hpc.1, rfl⟩, ?_, ?_⟩
      · simp [Pc.settled, Pc.picked]
      · simp [Pc.settled, Pc.inProgress, Pc.picked]
  | cancel taskTime e todo queue hcancel =>
    rw [hcancel] at hpc
    cases taskTime with
    | some taskTime => cases hpc.2
    | none =>
      refine ⟨⟨hpc.1, rfl⟩, ?_, ?_⟩
      · simp [Pc.settled, Pc.picked]
      · simp [Pc.settled, Pc.inProgress, Pc.picked]
  | number taskTime e todo queue hnum =>
    rw [hnum] at hpc
    cases hpc.2
  | fetch task tasks e hcons =>
    rw [hcons] at hpc
    cases hpc.1
  | evict task tasks hevict =>
    rw [hevict] at hpc
    refine ⟨hpc, ?_, ?_⟩
    · simp [hevict, Pc.picked]
    · simp [hevict, Pc.inProgress, Pc.picked]
  | create task tasks result db hins =>
    rw [hins] at hpc
    refine ⟨hpc, ?_, ?_⟩
    · simp [hins, Pc.picked, Event.startedTask]
    · simp [hins, Pc.inProgress, Pc.picked, Event.completedTask]
  | call task result tasks hcall =>
    rw [hcall] at hpc
    refine ⟨hpc, ?_, ?_⟩
    · simp [hcall, Pc.picked, Event.startedTask]
    · simp [hcall, Pc.inProgress, Pc.picked, Event.completedTask]
  | spawn task result started tasks hact =>
    rw [hact] at hpc
    refine ⟨hpc, ?_, ?_⟩
    · simp [hact, Pc.picked, Event.startedTask]
    · simp [hact, Pc.inProgress, Pc.picked, Event.completedTask]
  | finish task result started tasks hact =>
    rw [hact] at hpc
    refine ⟨hpc, ?_, ?_⟩
    · simp [hact, Pc.picked, Event.startedTask]
    · simp [hact, Pc.inProgress, Pc.picked, Event.completedTask]
  | finalize f f' tasks w hfin hmove =>
    rw [hfin] at hpc
    refine ⟨hpc, ?_, ?_⟩
    · simp [hfin, Pc.picked, hmove.tasks.1]
    · simp [hfin, Pc.inProgress, Pc.picked, hmove.tasks.2.1]
  | finalized f tasks w hfin hmove =>
    rw [hfin] at hpc
    refine ⟨hpc, ?_, ?_⟩
    · simp [hfin, Pc.picked, hmove.tasks.1]
    · simp [hfin, Pc.inProgress, Pc.picked, hmove.tasks.2.1]
  | finalizeRaise f tasks err w hfin hraise =>
    refine ⟨⟨rfl, rfl⟩, ?_, ?_⟩
    · simp [hfin, Pc.picked, hraise.frame.2.1]
    · simp [hfin, Pc.inProgress, Pc.picked, hraise.frame.2.1]

/-- A step that ends with the flag up, from a thread that winds down. -/
theorem step_windsTo (h : step cfg s l = some t) (hcrash : l ≠ .crash) (htakes : TakesNothing s l)
    (hpc : s.pc.WindsDown) (hflag : t.interruptFlag = true) : WindsTo s t := by
  cases step_cases h with
  | sched i s' hmove => exact schedMove_windsTo hmove htakes hpc hflag
  | finalizer k i f f' w hf hmove => exact .of_same hpc rfl hmove.tasks.1 hmove.tasks.2.1
  | finalizerEnd k i f w hf hmove => exact .of_same hpc rfl hmove.tasks.1 hmove.tasks.2.1
  | finalizerRaise k i f err w hf hraise =>
    refine .of_same hpc rfl ?_ ?_
    · exact congrArg startedTasks hraise.frame.2.1
    · exact congrArg completedTasks hraise.frame.2.1
  | crash => exact absurd rfl hcrash
  | _ => exact .of_same hpc rfl rfl rfl

/-- Once the flag is up and the thread winds down, so does every later state. -/
theorem windsTo_run {r : Sys} {ls : List Label} (h : WindsTo r s)
    (hflag : s.interruptFlag = true) (hcrash : ∀ l ∈ ls, l ≠ .crash)
    (htakes : Along (step cfg) TakesNothing s ls)
    (hrun : exec (step cfg) s ls = some t) : WindsTo r t := by
  induction ls generalizing s with
  | nil => exact Option.some.inj hrun ▸ h
  | cons l ls ih =>
    obtain ⟨s', hstep, hrest⟩ := exec_cons.mp hrun
    have hl := hcrash l List.mem_cons_self
    have hflag' := flag_step hstep hl hflag
    have hwinds := (step_windsTo hstep hl htakes.1 h.pc hflag').trans h
    have hlate : ∀ l ∈ ls, l ≠ .crash := by
      intro l hl
      exact hcrash l (List.mem_cons_of_mem _ hl)
    exact ih hwinds hflag' hlate (htakes.2 s' hstep) hrest

/-- In a run of the thread in which the flag goes up only while the thread winds
down, and nothing is due after that, no action starts or completes but the one
in progress. -/
theorem stop_honoured (cfg : Settings) (s₀ t : Sys) (ls : List Label)
    (hcrash : ∀ l ∈ ls, l ≠ .crash) (hidle : Along (step cfg) (RaisesFlagIdle cfg) s₀ ls)
    (htakes : Along (step cfg) TakesNothing s₀ ls)
    (hrun : exec (step cfg) s₀ ls = some t) :
    ∀ before l after s s', ls = before ++ l :: after → exec (step cfg) s₀ before = some s →
      step cfg s l = some s' → s.interruptFlag = false → s'.interruptFlag = true →
      Honoured s t := by
  intro before l after s s' hsplit hbefore hstep hdown hup
  subst hsplit
  obtain ⟨s₁, hs₁, hrest⟩ := exec_append.mp hrun
  obtain rfl : s₁ = s := by
    rw [hbefore] at hs₁
    exact (Option.some.inj hs₁).symm
  obtain ⟨s₂, hs₂, hafter⟩ := exec_cons.mp hrest
  obtain rfl : s₂ = s' := by
    rw [hstep] at hs₂
    exact (Option.some.inj hs₂).symm
  have hraises : RaisesFlagIdle cfg s₁ l := ((along_append.mp hidle).2 s₁ hbefore).1
  have hpc := hraises s₂ hstep hdown hup
  have hl : l ≠ .crash := hcrash l (by simp)
  have hrestTakes := (along_append.mp htakes).2 s₁ hbefore
  have hwinds := step_windsTo hstep hl hrestTakes.1 hpc hup
  have hlate : ∀ l ∈ after, l ≠ .crash := by
    intro l hl
    exact hcrash l (by simp [hl])
  exact (windsTo_run hwinds hup hlate (hrestTakes.2 s₂ hstep) hafter).honoured

/-- Two one-shot entries that are due at the same time. -/
def twoDue : Sys where
  db := { schedule := [⟨"sweep", "acquire", 10, 0, none, none, true, none, 0, 1, "op"⟩,
    ⟨"monitor", "acquire", 10, 0, none, none, true, none, 0, 1, "op"⟩] }

/-- The settings of these runs: the one action is loaded. -/
def oneAction : Settings where
  actions := ["acquire"]

/-- The thread alone, for a number of steps. -/
def alone (n : ℕ) : List Label := List.replicate n (.sched {})

/-- `stop` during the first of two tasks: the action of the second one is
started all the same. -/
theorem stop_starts_waiting_task :
    ∃ s s' t, exec (step oneAction) twoDue (alone 17) = some s ∧ s.interruptFlag = false ∧
      step oneAction s .stop = some s' ∧ exec (step oneAction) s' (alone 5) = some t ∧
      ¬ Honoured s t := by
  have hbefore : (exec (step oneAction) twoDue (alone 17)).map
      (fun s => (s.interruptFlag, startedTasks s.history ++ s.pc.picked)) =
      some (false, [⟨0, 10, "acquire", "sweep", 1⟩]) := by decide
  have hafter : (exec (step oneAction) twoDue (alone 17 ++ .stop :: alone 5)).map
      (fun t => startedTasks t.history) =
      some [⟨0, 10, "acquire", "sweep", 1⟩, ⟨0, 10, "acquire", "monitor", 1⟩] := by decide
  obtain ⟨s, hs, hstarts⟩ := Option.map_eq_some_iff.mp hbefore
  obtain ⟨t, ht, hlate⟩ := Option.map_eq_some_iff.mp hafter
  obtain ⟨s₁, hs₁, hrest⟩ := exec_append.mp ht
  obtain rfl : s₁ = s := by
    rw [hs] at hs₁
    exact (Option.some.inj hs₁).symm
  obtain ⟨s', hstop, hend⟩ := exec_cons.mp hrest
  obtain ⟨hdown, hstarted⟩ := Prod.mk.inj hstarts
  refine ⟨s₁, s', t, hs, hdown, hstop, hend, ?_⟩
  intro honoured
  have hprefix := honoured.starts
  rw [hlate, hstarted] at hprefix
  exact absurd hprefix (by decide)

/-- A recurring entry that is due now, and one that is due later. -/
def oneDueNow : Sys where
  db := { schedule := [everyTenSeconds,
    { everyTenSeconds with name := "monitor", start := 1000, nextTaskTime := 1000 }] }

/-- `stop` during the action of the only task of a pass: the action completes, the
thread ends after the pass, and no other action is started. -/
theorem stop_honoured_not_due :
    ∃ s s' t, exec (step oneAction) oneDueNow (alone 16) = some s ∧
      s.pc.inProgress.map Task.scheduleEntryName = ["sweep"] ∧
      step oneAction s .stop = some s' ∧ exec (step oneAction) s' (alone 4) = some t ∧
      t.pc = .stopped ∧ (completedTasks t.history).length = 1 ∧ Honoured s t := by
  have hruns : (exec (step oneAction) oneDueNow (alone 16 ++ .stop :: alone 4)).map
      (fun t => (t.pc, (completedTasks t.history).length)) = some (.stopped, 1) := by decide
  have hbefore : (exec (step oneAction) oneDueNow (alone 16)).map
      (fun s => (s.interruptFlag, s.pc.inProgress.map Task.scheduleEntryName)) =
      some (false, ["sweep"]) := by decide
  obtain ⟨t, hrun, hend⟩ := Option.map_eq_some_iff.mp hruns
  obtain ⟨hstopped, hcompleted⟩ := Prod.mk.inj hend
  obtain ⟨s, hs, hacting⟩ := Option.map_eq_some_iff.mp hbefore
  obtain ⟨hdown, hprogress⟩ := Prod.mk.inj hacting
  obtain ⟨s₁, hs₁, hrest⟩ := exec_append.mp hrun
  obtain rfl := Option.some.inj (hs.symm.trans hs₁)
  obtain ⟨s', hstop, hafter⟩ := exec_cons.mp hrest
  have hup : s'.interruptFlag = true := by
    obtain rfl := Option.some.inj hstop
    rfl
  refine ⟨s, s', t, hs, hprogress, hstop, hafter, hstopped, hcompleted, ?_⟩
  exact stop_honoured oneAction oneDueNow t (alone 16 ++ .stop :: alone 4) (by decide) (by decide)
    (by decide) hrun (alone 16) .stop (alone 4) s s' rfl hs hstop hdown hup

end Scheduler

end ScosSensor
