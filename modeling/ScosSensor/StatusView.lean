import ScosSensor.BoundedWaiting
import ScosSensor.IssuedTimes
import ScosSensor.StopResponse
import ScosSensor.UpcomingTasks

/-!
# What the API shows of the scheduler

The status view reads whether the thread is alive and its attribute `running`, and the
view of upcoming tasks shows the beginning of its attribute `task_queue`. The thread
writes both beside its other work: `running` around the loop of `_consume_schedule`, and
`task_queue` when the tasks of a pass are queued, from the instances of its snapshot. The
machine of the scheduler runs here with these attributes.
-/
namespace ScosSensor

/-- `Scheduler.status`. -/
inductive ThreadStatus where
  | running
  | idle
  | dead
  deriving Repr, DecidableEq

/-- The system with the attributes that are shown. `visited` are the instances of the
snapshot that the pass has been over, and `listedAt` is what the clock read when
`task_queue` was made. -/
structure Display where
  sys : Sys
  running : Bool := false
  taskQueue : TaskQueue (Option ℕ) := []
  visited : List ScheduleEntry := []
  listedAt : ℤ := 0

/-- `Scheduler.status`: a thread is alive until `run` returns. -/
def Display.status (d : Display) : ThreadStatus :=
  if d.sys.pc.isOver then .dead else if d.running then .running else .idle

/-- `MAX_TASK_QUEUE`. -/
def maxTaskQueue : ℕ := 50

/-- What `upcoming_tasks` serializes. -/
def Display.upcomingTasks (d : Display) : List (Task (Option ℕ)) :=
  d.taskQueue.toList.take maxTaskQueue

namespace Pc

/-- The thread is in the loop of `_queue_pending_tasks`. -/
def queueing : Pc → Bool
  | .taking _ _ => true
  | .completing _ _ _ _ => true
  | .numbering _ _ _ _ => true
  | _ => false

/-- The thread has not come to `_consume_schedule` yet. -/
def opening : Pc → Bool
  | .starting => true
  | .resetting _ => true
  | _ => false

/-- A task waits, or is being executed. -/
def occupied (pc : Pc) : Prop := pc.unstarted ≠ [] ∨ pc.running ≠ []

end Pc

namespace Scheduler

open Runs

variable {cfg : Settings} {d d' : Display} {s t s' : Sys} {l : Label} {i : Input}

/-- The instance that the body of `_queue_pending_tasks` leaves in the snapshot. -/
def passedOver (db : Database) : Pc → List ScheduleEntry
  | .completing none e _ _ =>
    match cancelIfCompleted e db with
    | .ok (e, _) => [e]
    | .error _ => []
  | .numbering _ e _ _ => [e.getNextTaskId.2]
  | _ => []

/-- The attributes after a step of the thread. -/
def threadShows (i : Input) (d : Display) (s' : Sys) : Display :=
  match d.sys.pc with
  | .checking =>
    -- the `else` branch of the loop is taken when the schedule has no entries
    if s'.pc = .scheduleDone then { d with sys := s', running := false, taskQueue := [] }
    else { d with sys := s' }
  | .reading => { d with sys := s', running := true, visited := [] }
  | .taking [] _ => { d with
      sys := s'
      taskQueue := (queueUpcomingTasks i.now d.visited).getD []
      listedAt := i.now }
  | .passDone =>
    -- a loop that is left by `break` does not clear the queue
    if s'.pc = .scheduleDone then { d with sys := s', running := false } else { d with sys := s' }
  | pc => { d with sys := s', visited := d.visited ++ passedOver d.sys.db pc }

/-- The attributes after a step. -/
def shows (d : Display) (s' : Sys) : Label → Display
  | .sched i => threadShows i d s'
  | .crash => { sys := s' }
  | _ => { d with sys := s' }

/-- One step of the system with its attributes. -/
def displayStep (cfg : Settings) (d : Display) (l : Label) : Option Display :=
  (step cfg d.sys l).map fun s' => shows d s' l

@[simp] theorem shows_sys (d : Display) (s' : Sys) (l : Label) : (shows d s' l).sys = s' := by
  cases l with
  | sched i =>
    unfold shows threadShows
    dsimp only
    split <;> (try split_ifs) <;> rfl
  | _ => rfl

/-- Only the thread writes the attributes. -/
theorem shows_of_other (hsched : l.isSched = false) (hcrash : l ≠ .crash) :
    shows d s' l = { d with sys := s' } := by
  cases l with
  | sched => cases hsched
  | crash => exact absurd rfl hcrash
  | _ => rfl

/-- The attributes take no part in the work of the thread. -/
theorem displayStep_sys (h : displayStep cfg d l = some d') : step cfg d.sys l = some d'.sys := by
  obtain ⟨s', hs', rfl⟩ := Option.map_eq_some_iff.mp h
  rw [shows_sys]
  exact hs'

theorem exec_display {ls : List Label} (h : exec (displayStep cfg) d ls = some d') :
    exec (step cfg) d.sys ls = some d'.sys := by
  induction ls generalizing d with
  | nil =>
    obtain rfl := Option.some.inj h
    rfl
  | cons l ls ih =>
    obtain ⟨d₁, hd₁, hrest⟩ := exec_cons.mp h
    exact exec_cons.mpr ⟨d₁.sys, displayStep_sys hd₁, ih hrest⟩

/-! ### The status -/

/-- What holds of the attributes in every state. -/
structure Truthful (cfg : Settings) (d : Display) : Prop where
  busy : d.running = false → d.sys.pc.queueing = false ∧ ¬ d.sys.pc.occupied
  empty : d.running = false → d.taskQueue = [] ∨
    (d.sys.pc = .scheduleDone ∨ d.sys.pc.isOver = true) ∧ Stopping cfg d.sys
  opening : d.sys.pc.opening = true → d.running = false
  heap : Heapq.IsHeap Task.lt d.taskQueue

theorem truthful_start (db : Database) : Truthful cfg { sys := { db := db } } := by
  refine ⟨fun _ => ⟨rfl, ?_⟩, fun _ => .inl rfl, fun _ => rfl, ?_⟩
  · simp [Pc.occupied, Pc.unstarted, Pc.waiting, Pc.running]
  · intro p c _
    exact Heapq.above_of_length (Nat.zero_le c)

/-- A thread without a task gets one from a snapshot only. -/
theorem schedMove_unoccupied (h : SchedMove cfg i s s') (hqueueing : s.pc.queueing = false)
    (hfree : ¬ s.pc.occupied) (hread : s.pc ≠ .reading) :
    s'.pc.queueing = false ∧ ¬ s'.pc.occupied := by
  have hno : ∀ pc : Pc, ¬ pc.occupied ↔ pc.unstarted = [] ∧ pc.running = [] := by
    intro pc
    simp [Pc.occupied]
  rw [hno] at hfree ⊢
  cases h with
  | raise | finalizeRaise => exact ⟨rfl, rfl, rfl⟩
  | jump pc hjump => cases hjump <;> simp_all [Pc.queueing, Pc.unstarted, Pc.waiting, Pc.running]
  | reset => exact ⟨rfl, rfl, rfl⟩
  | read hpc => exact absurd hpc hread
  | take e todo queue hpc | keep taskTime e todo queue hpc | cancel taskTime e todo queue hpc
  | number taskTime e todo queue hpc =>
    rw [hpc] at hqueueing
    cases hqueueing
  | fetch task tasks e hpc | evict task tasks hpc | create task tasks result db hpc
  | call task result tasks hpc =>
    rw [hpc] at hfree
    cases hfree.1
  | spawn task result started tasks hpc | finish task result started tasks hpc
  | finalize f f' tasks w hpc | finalized f tasks w hpc =>
    rw [hpc] at hfree
    cases hfree.2

/-- Nothing leads back to the start but a new process. -/
theorem schedMove_opening (h : SchedMove cfg i s s') (hs' : s'.pc.opening = true) :
    s.pc.opening = true := by
  cases h with
  | jump pc hjump => cases hjump <;> simp_all [Pc.opening]
  | keep taskTime | cancel taskTime => cases taskTime <;> cases hs'
  | reset e todo last hpc => rw [hpc]; rfl
  | _ => cases hs'

/-- Told to stop, a thread that has left the loop of `_consume_schedule` returns. -/
theorem schedMove_ending (h : SchedMove cfg i s s') (hstop : Stopping cfg s)
    (hs : s.pc = .scheduleDone ∨ s.pc.isOver = true) : s'.pc.isOver = true := by
  cases h with
  | raise | finalizeRaise => rfl
  | jump pc hjump =>
    cases hjump with
    | runBreak => rfl
    | runAgain hpc hrun =>
      rw [hstop hrun.1] at hrun
      cases hrun.2
    | _ => simp_all [Pc.isOver]
  | _ => simp_all [Pc.isOver]

theorem isHeap_enterTimes (e : ScheduleEntry) {queue : TaskQueue (Option ℕ)}
    (h : Heapq.IsHeap Task.lt queue) (times : List ℤ) :
    Heapq.IsHeap Task.lt (enterTimes e queue times) := by
  unfold enterTimes
  induction times generalizing queue with
  | nil => exact h
  | cons t times ih => exact ih (TaskQueue.isHeap_enter h t e.priority e.action e.name none)

theorem isHeap_queueUpcomingTasks {now : ℤ} {snapshot : List ScheduleEntry}
    {upcoming : TaskQueue (Option ℕ)} (h : queueUpcomingTasks now snapshot = some upcoming) :
    Heapq.IsHeap Task.lt upcoming := by
  have hfold : ∀ (items : List (ScheduleEntry × Times)) (queue : TaskQueue (Option ℕ)),
      Heapq.IsHeap Task.lt queue → items.foldlM (fun queue item =>
        (item.2.toList?).map (enterTimes item.1 queue)) queue = some upcoming →
      Heapq.IsHeap Task.lt upcoming := by
    intro items
    induction items with
    | nil =>
      intro queue hqueue hrun
      rwa [← Option.some.inj hrun]
    | cons item items ih =>
      intro queue hqueue hrun
      obtain ⟨next, hnext, hrest⟩ := Option.bind_eq_some_iff.mp hrun
      obtain ⟨times, -, rfl⟩ := Option.map_eq_some_iff.mp hnext
      exact ih _ (isHeap_enterTimes item.1 hqueue times) hrest
  refine hfold _ [] ?_ h
  intro p c _
  exact Heapq.above_of_length (Nat.zero_le c)

/-- A step of the thread that writes neither attribute. -/
theorem Truthful.keep (hd : Truthful cfg d) (h : Scheduler.step cfg d.sys (.sched i) = some d'.sys)
    (hread : d.sys.pc ≠ .reading) (hrunning : d'.running = d.running)
    (hqueue : d'.taskQueue = d.taskQueue) : Truthful cfg d' := by
  have hmove := schedStep_cases h
  refine ⟨?_, ?_, ?_, hqueue ▸ hd.heap⟩
  · intro hidle
    obtain ⟨hqueueing, hfree⟩ := hd.busy (hrunning ▸ hidle)
    exact schedMove_unoccupied hmove hqueueing hfree hread
  · intro hidle
    rw [hqueue]
    refine (hd.empty (hrunning ▸ hidle)).imp_right fun hended => ?_
    exact ⟨.inr (schedMove_ending hmove hended.2 hended.1), hended.2.step (by simp) h⟩
  · intro hopening
    exact hrunning.trans (hd.opening (schedMove_opening hmove hopening))

theorem Truthful.sched (hd : Truthful cfg d) (h : Scheduler.step cfg d.sys (.sched i) = some s') :
    Truthful cfg (threadShows i d s') := by
  have hmove := schedStep_cases h
  have hstarted : d.sys.pc.opening = false → s'.pc.opening = true → False := by
    intro hbefore hafter
    rw [schedMove_opening hmove hafter] at hbefore
    cases hbefore
  have hdone : s'.pc = .scheduleDone → s'.pc.queueing = false ∧ ¬ s'.pc.occupied := by
    intro hpc
    rw [hpc]
    exact ⟨rfl, by simp [Pc.occupied, Pc.unstarted, Pc.waiting, Pc.running]⟩
  unfold threadShows
  split
  case h_1 hpc =>
    split_ifs with hover
    · refine ⟨fun _ => hdone hover, fun _ => .inl rfl, fun _ => rfl, ?_⟩
      intro p c _
      exact Heapq.above_of_length (Nat.zero_le c)
    · exact hd.keep h (by simp [hpc]) rfl rfl
  case h_2 hpc =>
    refine ⟨(fun hidle => by cases hidle), (fun hidle => by cases hidle), fun hopening => ?_, hd.heap⟩
    exact (hstarted (by rw [hpc]; rfl) hopening).elim
  case h_3 queue hpc =>
    have hbusy : d.running ≠ false := by
      intro hidle
      have hqueueing := (hd.busy hidle).1
      rw [hpc] at hqueueing
      cases hqueueing
    refine ⟨fun hidle => absurd hidle hbusy, fun hidle => absurd hidle hbusy, fun hopening => ?_, ?_⟩
    · exact (hstarted (by rw [hpc]; rfl) hopening).elim
    · cases hupcoming : queueUpcomingTasks i.now d.visited with
      | none =>
        intro p c _
        exact Heapq.above_of_length (Nat.zero_le c)
      | some upcoming => exact isHeap_queueUpcomingTasks hupcoming
  case h_4 hpc =>
    split_ifs with hover
    · refine ⟨fun _ => hdone hover, fun _ => ?_, fun _ => rfl, hd.heap⟩
      refine .inr ⟨.inl hover, ?_⟩
      have hrun : ¬ (cfg.blocking = true ∧ d.sys.interruptFlag = false) := by
        intro hrun
        have hpc' := h
        simp only [Scheduler.step, schedStep, hpc, hrun, and_self, if_true, Option.some.injEq] at hpc'
        rw [← hpc'] at hover
        cases hover
      intro hblocking
      exact flag_step h (by simp) (by simpa [hblocking] using hrun)
    · exact hd.keep h (by simp [hpc]) rfl rfl
  case h_5 hchecking hreading htaking hpass => exact hd.keep h hreading rfl rfl

theorem Truthful.step (hd : Truthful cfg d) (h : displayStep cfg d l = some d') :
    Truthful cfg d' := by
  obtain ⟨s', hs', rfl⟩ := Option.map_eq_some_iff.mp h
  by_cases hcrash : l = .crash
  · subst hcrash
    obtain rfl := Option.some.inj hs'
    refine ⟨fun _ => ⟨rfl, ?_⟩, fun _ => .inl rfl, fun _ => rfl, ?_⟩
    · simp [shows, Pc.occupied, Pc.unstarted, Pc.waiting, Pc.running]
    · intro p c _
      exact Heapq.above_of_length (Nat.zero_le c)
  · by_cases hsched : l.isSched = false
    · have hpc := step_pc hs' hcrash hsched
      rw [shows_of_other hsched hcrash]
      refine ⟨?_, ?_, ?_, hd.heap⟩
      · rw [hpc]
        exact hd.busy
      · intro hidle
        rw [hpc]
        exact (hd.empty hidle).imp_right fun hended => ⟨hended.1, hended.2.step hcrash hs'⟩
      · rw [hpc]
        exact hd.opening
    · cases l with
      | sched i => exact hd.sched hs'
      | _ => exact absurd rfl hsched

/-- A thread that is not alive starts nothing and leaves the attributes as they are. -/
theorem over_step (hover : d.sys.pc.isOver = true) (hl : l ≠ .crash)
    (h : displayStep cfg d l = some d') : d'.sys.pc.isOver = true ∧ d'.taskQueue = d.taskQueue ∧
      startedTasks d'.sys.history = startedTasks d.sys.history := by
  obtain ⟨s', hs', rfl⟩ := Option.map_eq_some_iff.mp h
  by_cases hsched : l.isSched = false
  · rw [shows_of_other hsched hl]
    refine ⟨by rwa [show s'.pc = d.sys.pc from step_pc hs' hl hsched], rfl, ?_⟩
    cases step_rankStep hs' with
    | keep hstarted => exact hstarted
    | take i e todo queue hl' hpc =>
      rw [hpc] at hover
      cases hover
    | start task tasks result started hpc =>
      rw [hpc] at hover
      cases hover
  · cases l with
    | sched i =>
      cases hpc : d.sys.pc with
      | stopped => simp [Scheduler.step, schedStep, hpc] at hs'
      | dead err => simp [Scheduler.step, schedStep, hpc] at hs'
      | _ => simp [hpc, Pc.isOver] at hover
    | _ => exact absurd rfl hsched

/-- In every run, API requests and restarts included: whenever a task waits or is being
executed the status is `running`. When it is `idle` no task is shown, unless the thread is
about to return. When it is `dead` it stays so until the process is started again; nothing
is started any more, and the tasks that were coming up stay on show. -/
theorem status_exact (cfg : Settings) (db : Database) (ls : List Label) (d : Display)
    (hrun : exec (displayStep cfg) { sys := { db := db } } ls = some d) :
    (d.sys.pc.occupied → d.status = .running) ∧
      (d.status = .idle → d.upcomingTasks = [] ∨ d.sys.pc = .scheduleDone ∧
        (cfg.blocking = true → d.sys.interruptFlag = true)) ∧
      (d.status = .dead → ∀ ms d', (∀ l ∈ ms, l ≠ .crash) →
        exec (displayStep cfg) d ms = some d' → d'.status = .dead ∧
          d'.upcomingTasks = d.upcomingTasks ∧
          startedTasks d'.sys.history = startedTasks d.sys.history) := by
  have hd : Truthful cfg d := exec_invariant (fun _ _ _ hd _ h => hd.step h) (truthful_start db)
    (Along.of_forall (fun _ _ => trivial) _ _) hrun
  have hdead : ∀ d : Display, d.status = .dead ↔ d.sys.pc.isOver = true := by
    intro d
    unfold Display.status
    split_ifs with hover hrunning <;> simp_all
  refine ⟨?_, ?_, ?_⟩
  · intro hoccupied
    have hover : d.sys.pc.isOver ≠ true := by
      intro hover
      cases hpc : d.sys.pc <;> simp_all [Pc.isOver, Pc.occupied, Pc.unstarted, Pc.waiting, Pc.running]
    have hrunning : d.running = true := by
      by_contra hidle
      exact (hd.busy (by simpa using hidle)).2 hoccupied
    simp [Display.status, hover, hrunning]
  · intro hidle
    have hparts : d.sys.pc.isOver ≠ true ∧ d.running = false := by
      unfold Display.status at hidle
      split_ifs at hidle with hover hrunning
      exact ⟨hover, by simpa using hrunning⟩
    obtain hempty | ⟨hended, hstop⟩ := hd.empty hparts.2
    · left
      simp [Display.upcomingTasks, hempty]
    · exact .inr ⟨hended.resolve_right hparts.1, hstop⟩
  · intro hstatus ms d' hms hrun'
    have hstep : ∀ d₁ l d₂, (d₁.sys.pc.isOver = true ∧ d₁.taskQueue = d.taskQueue ∧
        startedTasks d₁.sys.history = startedTasks d.sys.history) → l ≠ .crash →
        displayStep cfg d₁ l = some d₂ → d₂.sys.pc.isOver = true ∧ d₂.taskQueue = d.taskQueue ∧
          startedTasks d₂.sys.history = startedTasks d.sys.history := by
      intro d₁ l d₂ hd₁ hl h
      obtain ⟨hover, hqueue, hstarted⟩ := over_step hd₁.1 hl h
      exact ⟨hover, hqueue.trans hd₁.2.1, hstarted.trans hd₁.2.2⟩
    obtain ⟨hover, hqueue, hstarted⟩ := exec_invariant hstep ⟨(hdead d).mp hstatus, rfl, rfl⟩
      (Along.of_forall_mem fun l hl _ => hms l hl) hrun'
    exact ⟨(hdead d').mpr hover, by rw [Display.upcomingTasks, Display.upcomingTasks, hqueue], hstarted⟩

/-- A run that has returned after its pass goes on to show ten tasks that nobody executes. -/
theorem status_exact_returned :
    ∃ d, exec (displayStep { inThread with blocking := false })
        { sys := { db := { schedule := recurringAbove } } }
        (List.replicate 38 (.sched { now := 4 })) = some d ∧
      d.upcomingTasks.length = 10 ∧ ∀ ms d', (∀ l ∈ ms, l ≠ .crash) →
        exec (displayStep { inThread with blocking := false }) d ms = some d' →
          d'.status = .dead ∧ d'.upcomingTasks.length = 10 := by
  have hend : (exec (displayStep { inThread with blocking := false })
      { sys := { db := { schedule := recurringAbove } } }
      (List.replicate 38 (.sched { now := 4 }))).map (fun d => (d.status, d.upcomingTasks.length)) =
        some (.dead, 10) := by decide
  obtain ⟨d, hd, hstate⟩ := Option.map_eq_some_iff.mp hend
  obtain ⟨hdead, hlength⟩ := Prod.mk.inj hstate
  refine ⟨d, hd, hlength, fun ms d' hms hd' => ?_⟩
  obtain ⟨hdead', hsame, -⟩ := (status_exact _ _ _ d hd).2.2 hdead ms d' hms hd'
  exact ⟨hdead', hsame ▸ hlength⟩

end Scheduler

end ScosSensor
