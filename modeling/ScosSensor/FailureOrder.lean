import ScosSensor.FailureCounter

/-!
# Failures in the order of their completion

With finalizations in threads of their own, an outcome reaches the counter when
its finalization completes, and the callbacks decide in which order they do. The
counter finds the streaks of that order. They are the streaks of the order of
execution in every case only if there are too few failures for a streak, or too
many for the successes to keep them apart.
-/
namespace ScosSensor

open Streaks Runs

/-- The outcomes in the order of execution, those whose finalizations have not come
to the locked section, and those that have, in the order in which they did. -/
structure Detection where
  counters : World := {}
  executed : List Status := []
  inFlight : List Status := []
  completed : List Status := []
  sent : Bool := false
  deriving Repr, DecidableEq

/-- A task is executed, or a finalization comes to its locked section. -/
inductive Message where
  | execute (o : ActionOutcome)
  | complete (k : ℕ)
  deriving Repr, DecidableEq

namespace Detection

/-- The status that an action passes to its finalization. -/
def statusOf (o : ActionOutcome) : Status := o.status

def count (cfg : Settings) (d : Detection) (k : ℕ) (status : Status) : Detection :=
  let counters := (Scheduler.countFailures cfg status d.counters).2
  { d with
    counters
    inFlight := d.inFlight.eraseIdx k
    completed := d.completed ++ [status]
    sent := d.sent || asksRestart cfg counters }

def step (cfg : Settings) (d : Detection) : Message → Option Detection
  | .execute o => some { d with
      executed := d.executed ++ [statusOf o]
      inFlight := d.inFlight ++ [statusOf o] }
  | .complete k => d.inFlight[k]?.map fun status => d.count cfg k status

variable {cfg : Settings} {d d' : Detection} {m : Message} {k : ℕ}

/-- What holds of the outcomes in every state: none is lost or counted twice, and
the counters hold the streak of those that have completed. -/
structure Sound (d : Detection) : Prop where
  counts : Scheduler.Counts d.counters d.completed
  perm : d.executed.Perm (d.completed ++ d.inFlight)

theorem sound_start : Sound {} := ⟨Scheduler.counts_start, List.Perm.refl _⟩

theorem step_cases (h : step cfg d m = some d') :
    (∃ o, m = .execute o ∧ d' = { d with
      executed := d.executed ++ [statusOf o], inFlight := d.inFlight ++ [statusOf o] }) ∨
      ∃ k status, m = .complete k ∧ d.inFlight[k]? = some status ∧ d' = d.count cfg k status := by
  cases m with
  | execute o => exact .inl ⟨o, rfl, (Option.some.inj h).symm⟩
  | complete k =>
    obtain ⟨status, hstatus, rfl⟩ := Option.map_eq_some_iff.mp h
    exact .inr ⟨k, status, rfl, hstatus, rfl⟩

theorem perm_eraseIdx {status : Status} {l : List Status} (h : l[k]? = some status) :
    (status :: l.eraseIdx k).Perm l := by
  obtain ⟨hk, rfl⟩ := List.getElem?_eq_some_iff.mp h
  exact List.getElem_cons_eraseIdx_perm hk

theorem Sound.step (hs : Sound d) (h : Detection.step cfg d m = some d') : Sound d' := by
  obtain ⟨o, rfl, rfl⟩ | ⟨k, status, rfl, hstatus, rfl⟩ := step_cases h
  · refine ⟨hs.counts, ?_⟩
    rw [← List.append_assoc]
    exact hs.perm.append_right _
  · refine ⟨hs.counts.count status, hs.perm.trans ?_⟩
    show (d.completed ++ d.inFlight).Perm (d.completed ++ [status] ++ d.inFlight.eraseIdx k)
    rw [List.append_assoc]
    exact (perm_eraseIdx hstatus).symm.append_left _

/-- The restart has been sent once the completed outcomes have a streak. -/
def Sends (n : ℕ) (d : Detection) : Prop := d.sent = true ↔ HasStreak failed n d.completed

theorem Sends.step {n : ℕ} (hmax : cfg.maxFailures = .int n) (hs : Sound d) (hsends : Sends n d)
    (h : Detection.step cfg d m = some d') : Sends n d' := by
  have hsound := hs.step h
  obtain ⟨o, rfl, rfl⟩ | ⟨k, status, rfl, hstatus, rfl⟩ := step_cases h
  · exact hsends
  · have hasks := Scheduler.asksRestart_iff hmax hsound.counts
    unfold Sends at hsends ⊢
    simp only [count] at hasks ⊢
    rw [Bool.or_eq_true, hsends, hasks, hasStreak_append_singleton]

/-- In every run the restart is sent exactly if the order of completion has a
streak of failures. -/
theorem sends_of_run {n : ℕ} (hn : 0 < n) (hmax : cfg.maxFailures = .int n) {ms : List Message}
    (hrun : exec (Detection.step cfg) {} ms = some d) : Sound d ∧ Sends n d := by
  have hstart : Sends n {} := by
    refine iff_of_false (by decide) fun h => ?_
    have hle := h.le_countP
    simp only [List.countP_nil] at hle
    omega
  have hstep : ∀ d m d', Sound d ∧ Sends n d → True → Detection.step cfg d m = some d' →
      Sound d' ∧ Sends n d' := fun d m d' hs _ h => ⟨hs.1.step h, Sends.step hmax hs.1 hs.2 h⟩
  exact exec_invariant hstep ⟨sound_start, hstart⟩ (Along.of_forall (fun _ _ => trivial) _ _) hrun

/-! ### Every order of completion -/

theorem exec_executes (cfg : Settings) (outcomes : List ActionOutcome) (d : Detection) :
    exec (Detection.step cfg) d (outcomes.map .execute) = some { d with
      executed := d.executed ++ outcomes.map statusOf
      inFlight := d.inFlight ++ outcomes.map statusOf } := by
  induction outcomes generalizing d with
  | nil => simp
  | cons o outcomes ih =>
    rw [List.map_cons, exec]
    simp [Detection.step, ih]

/-- Finalizations in flight can complete in any order. -/
theorem exec_completes (cfg : Settings) {order : List Status} (h : order.Perm d.inFlight) :
    ∃ (ks : List ℕ) (d' : Detection), exec (Detection.step cfg) d (ks.map .complete) = some d' ∧
      d'.executed = d.executed ∧ d'.completed = d.completed ++ order ∧ d'.inFlight = [] := by
  induction order generalizing d with
  | nil => exact ⟨[], d, rfl, rfl, (List.append_nil _).symm, h.nil_eq.symm⟩
  | cons status order ih =>
    obtain ⟨k, hk⟩ := List.mem_iff_getElem?.mp (h.subset List.mem_cons_self)
    have hrest : order.Perm (d.count cfg k status).inFlight :=
      (h.trans (perm_eraseIdx hk).symm).cons_inv
    obtain ⟨ks, d', hrun, hexecuted, hcompleted, hnone⟩ := ih hrest
    refine ⟨k :: ks, d', ?_, hexecuted, ?_, hnone⟩
    · rw [List.map_cons, exec]
      simp [Detection.step, hk, hrun]
    · rw [hcompleted]
      simp [count]

/-- A run of the outcomes that ends with all finalizations completed. -/
def Finishes (cfg : Settings) (outcomes : List ActionOutcome) (d : Detection) : Prop :=
  (∃ ms, exec (Detection.step cfg) {} ms = some d) ∧ d.executed = outcomes.map statusOf ∧
    d.inFlight = []

theorem exists_finishes (cfg : Settings) {outcomes : List ActionOutcome} {order : List Status}
    (h : order.Perm (outcomes.map statusOf)) :
    ∃ d, Finishes cfg outcomes d ∧ d.completed = order := by
  have hexecuted := exec_executes cfg outcomes {}
  obtain ⟨ks, d, hrun, hsame, hcompleted, hnone⟩ := exec_completes cfg
    (d := { executed := outcomes.map statusOf, inFlight := outcomes.map statusOf }) h
  have hwhole : exec (Detection.step cfg) {} (outcomes.map .execute ++ ks.map .complete) = some d :=
    exec_append.mpr ⟨_, by simpa using hexecuted, hrun⟩
  exact ⟨d, ⟨⟨_, hwhole⟩, hsame, hnone⟩, hcompleted⟩

/-- In whatever order the finalizations complete, the restart is sent exactly if the
order of execution has `k` consecutive failures. -/
def FollowsExecution (cfg : Settings) (k : ℕ) (outcomes : List ActionOutcome) : Prop :=
  ∀ d, Finishes cfg outcomes d → (d.sent = true ↔ HasStreak failed k d.executed)

/-- In every run the restart follows the order of completion. For outcomes in a
given order of execution it follows that order in every run exactly if they have
fewer than `k` failures or more than `k - 1` for each gap between the successes. -/
theorem restart_follows_execution_iff (cfg : Settings) (k : ℕ) (hk : 2 ≤ k)
    (hmax : cfg.maxFailures = .int k) (outcomes : List ActionOutcome) :
    (∀ d, Finishes cfg outcomes d → (d.sent = true ↔ HasStreak failed k d.completed)) ∧
      (FollowsExecution cfg k outcomes ↔
        (outcomes.map statusOf).countP failed < k ∨
          (k - 1) * ((outcomes.map statusOf).countP (fun status => !failed status) + 1) <
            (outcomes.map statusOf).countP failed) := by
  have hpos : 0 < k := by omega
  have hsends : ∀ d, Finishes cfg outcomes d →
      Sound d ∧ (d.sent = true ↔ HasStreak failed k d.completed) := by
    rintro d ⟨⟨ms, hrun⟩, -⟩
    exact sends_of_run hpos hmax hrun
  refine ⟨fun d hd => (hsends d hd).2, ?_⟩
  rw [← hasStreak_perm_iff hpos]
  constructor
  · intro hall order horder
    obtain ⟨d, hd, rfl⟩ := exists_finishes cfg horder
    rw [← (hsends d hd).2, hall d hd, hd.2.1]
  · intro hall d hd
    have hperm : d.completed.Perm (outcomes.map statusOf) := by
      have hsound := (hsends d hd).1.perm
      rw [hd.2.1, hd.2.2, List.append_nil] at hsound
      exact hsound.symm
    rw [(hsends d hd).2, hall d.completed hperm, hd.2.1]

/-- Two failures around a success, of which the second overtakes the success. -/
def overtaking : List Message :=
  [.execute (.raised (some "no signal")), .execute (.returned none), .execute (.raised (some "no signal")),
    .complete 0, .complete 1, .complete 0]

/-- Two failures in a row, between whose completions that of a later success falls. -/
def separated : List Message :=
  [.execute (.raised (some "no signal")), .execute (.raised (some "no signal")), .execute (.returned none),
    .complete 0, .complete 1, .complete 0]

/-- With a limit of two, a restart without two failures in a row, and two failures
in a row without a restart. -/
theorem completion_order_decides :
    (∃ d, exec (Detection.step { inThread with asyncCallback := true }) {} overtaking = some d ∧
      d.inFlight = [] ∧ d.executed = [.failure, .success, .failure] ∧ d.sent = true) ∧
    ∃ d, exec (Detection.step { inThread with asyncCallback := true }) {} separated = some d ∧
      d.inFlight = [] ∧ d.executed = [.failure, .failure, .success] ∧ d.sent = false :=
  ⟨⟨_, rfl, rfl, rfl, rfl⟩, ⟨_, rfl, rfl, rfl, rfl⟩⟩

/-- Two failures and nothing else are found in every order. -/
theorem restart_follows_execution_failures :
    FollowsExecution { inThread with asyncCallback := true } 2 [.raised (some "a"), .raised (some "b")] :=
  (restart_follows_execution_iff { inThread with asyncCallback := true } 2 (by decide) rfl
    [.raised (some "a"), .raised (some "b")]).2.mpr (.inr (by decide))

end Detection

/-! ### The scheduler as it detects failures -/

namespace Scheduler

variable {cfg : Settings} {s t : Sys} {l : Label} {d : Detection}

/-- The process and its finalizations, seen as outcomes and messages in flight. -/
structure Tracks (s : Sys) (d : Detection) : Prop where
  inFlight : d.inFlight = s.finalizations.map Finalization.status
  last : d.counters.lastStatus = s.lastStatus
  failures : d.counters.consecutiveFailures = s.consecutiveFailures
  sent : d.sent = true → s.interruptFlag = true
  threads : ∀ f tasks, s.pc ≠ .finalizing f tasks

/-- No process ends, and no finalization ends of an exception before its section. -/
def ReachesSection (cfg : Settings) (s : Sys) : Label → Prop
  | .crash => False
  | .finalizer k _ => ∀ f err w, s.finalizations[k]? = some f → f.stage ≠ .counting →
    ¬ FinalizeRaise cfg f s.toWorld err w
  | _ => True

/-- Counting reads and writes the counters only. -/
theorem countFailures_congr {w w' : World} (hlast : w.lastStatus = w'.lastStatus)
    (hfailures : w.consecutiveFailures = w'.consecutiveFailures) (cfg : Settings) (status : Status) :
    (countFailures cfg status w).2.lastStatus = (countFailures cfg status w').2.lastStatus ∧
      (countFailures cfg status w).2.consecutiveFailures =
        (countFailures cfg status w').2.consecutiveFailures := by
  unfold countFailures
  rw [hlast, hfailures]
  cases cfg.maxFailures <;> exact ⟨rfl, rfl⟩

theorem Tracks.count {k : ℕ} {f : Finalization} (hs : Tracks s d) (hf : s.finalizations[k]? = some f)
    {w : World} (hw : (countFailures cfg f.status s.toWorld).2 = w) :
    Detection.step cfg d (.complete k) = some (d.count cfg k f.status) ∧
      Tracks { s with toWorld := w, finalizations := s.finalizations.eraseIdx k }
        (d.count cfg k f.status) := by
  subst hw
  have hmessage : d.inFlight[k]? = some f.status := by
    rw [hs.inFlight, List.getElem?_map, hf]
    rfl
  obtain ⟨hlast, hfailures⟩ := countFailures_congr hs.last hs.failures cfg f.status
  refine ⟨by simp [Detection.step, hmessage], ?_, hlast, hfailures, ?_, hs.threads⟩
  · show d.inFlight.eraseIdx k = _
    rw [hs.inFlight, List.eraseIdx_map]
  · intro hsent
    have hasks : asksRestart cfg (countFailures cfg f.status d.counters).2 =
        asksRestart cfg (countFailures cfg f.status s.toWorld).2 := by
      unfold asksRestart
      rw [hfailures]
    show (countFailures cfg f.status s.toWorld).2.interruptFlag = true
    rw [countFailures_flag, Bool.or_eq_true]
    rcases (Bool.or_eq_true _ _).mp hsent with hbefore | hnow
    · exact .inl (hs.sent hbefore)
    · exact .inr (hasks ▸ hnow)

/-- A step that leaves the counters and the statuses in flight. -/
theorem Tracks.of_same (hs : Tracks s d)
    (hfinalizations : t.finalizations.map Finalization.status = s.finalizations.map Finalization.status)
    (hcounters : SameCounters s.toWorld t.toWorld) (hpc : ∀ f tasks, t.pc ≠ .finalizing f tasks) :
    Tracks t d :=
  ⟨hs.inFlight.trans hfinalizations.symm, hs.last.trans hcounters.last.symm,
    hs.failures.trans hcounters.failures.symm, fun hsent => hcounters.flag ▸ hs.sent hsent, hpc⟩

theorem Tracks.sched {i : Input} (hs : Tracks s d) (hasync : cfg.asyncCallback = true)
    (h : SchedMove cfg i s t) :
    ∃ ms d', exec (Detection.step cfg) d ms = some d' ∧ Tracks t d' := by
  have hstays (hfinalizations : t.finalizations = s.finalizations)
      (hcounters : SameCounters s.toWorld t.toWorld) (hpc : ∀ f tasks, t.pc ≠ .finalizing f tasks) :
      ∃ ms d', exec (Detection.step cfg) d ms = some d' ∧ Tracks t d' :=
    ⟨[], d, rfl, hs.of_same (by rw [hfinalizations]) hcounters hpc⟩
  cases h with
  | spawn task result started tasks hpc hasync status detail hcall =>
    obtain ⟨rfl, -⟩ := ActionOutcome.statusAndDetail_ok hcall
    refine ⟨[.execute i.action], _, rfl, ?_, hs.last, hs.failures, hs.sent, ?_⟩
    · simp [hs.inFlight, startFinalization, Detection.statusOf]
    · intro f tasks hfinalizing
      cases hfinalizing
  | finish task result started tasks hpc hsync =>
    rw [hasync] at hsync
    cases hsync
  | finalize f f' tasks w hpc | finalized f tasks w hpc => exact absurd hpc (hs.threads f tasks)
  | finalizeRaise f tasks err w hpc => exact absurd hpc (hs.threads f tasks)
  | jump pc hjump =>
    refine hstays rfl ⟨rfl, rfl, rfl⟩ ?_
    intro f tasks hfinalizing
    cases hjump <;> cases hfinalizing
  | keep taskTime | cancel taskTime =>
    refine hstays rfl ⟨rfl, rfl, rfl⟩ ?_
    intro f tasks hfinalizing
    cases taskTime <;> cases hfinalizing
  | _ =>
    refine hstays rfl ⟨rfl, rfl, rfl⟩ ?_
    intro f tasks hfinalizing
    cases hfinalizing

/-- Every step is followed by at most one message. -/
theorem Tracks.step (hs : Tracks s d) (hasync : cfg.asyncCallback = true)
    (hl : ReachesSection cfg s l) (h : Scheduler.step cfg s l = some t) :
    ∃ ms d', exec (Detection.step cfg) d ms = some d' ∧ Tracks t d' := by
  have hcount {k : ℕ} {f : Finalization} {w : World} (hf : s.finalizations[k]? = some f)
      (hw : (countFailures cfg f.status s.toWorld).2 = w) : ∃ ms d',
        exec (Detection.step cfg) d ms = some d' ∧
          Tracks { s with toWorld := w, finalizations := s.finalizations.eraseIdx k } d' := by
    obtain ⟨hstep, htracks⟩ := hs.count hf hw
    exact ⟨[.complete k], _, by simp [exec, hstep], htracks⟩
  cases step_cases h with
  | sched i s' hmove => exact hs.sched hasync hmove
  | finalizer k i f f' w hf hmove =>
    obtain ⟨hcounters, hstatus⟩ := hmove.before_counting
    refine ⟨[], d, rfl, hs.of_same ?_ hcounters hs.threads⟩
    obtain ⟨hk, rfl⟩ := List.getElem?_eq_some_iff.mp hf
    have hself : (s.finalizations.map Finalization.status).set k s.finalizations[k].status =
        s.finalizations.map Finalization.status := by
      rw [← List.getElem_map Finalization.status (h := by simpa using hk)]
      exact List.set_getElem_self _
    rw [List.map_set, hstatus, hself]
  | finalizerEnd k i f w hf hmove =>
    cases hmove with
    | count w' hstage hcount' => exact hcount hf (congrArg Prod.snd hcount')
  | finalizerRaise k i f err w hf hraise =>
    by_cases hstage : f.stage = .counting
    · cases hraise with
      | count w' err hstage hcount' => exact hcount hf (congrArg Prod.snd hcount')
      | write site err hwriting => simp [hstage] at hwriting
      | noEntry hnotifying => simp [hstage] at hnotifying
    · exact absurd hraise (hl f err w hf hstage)
  | crash => exact hl.elim
  | stop => exact ⟨[], d, rfl, hs.inFlight, hs.last, hs.failures, fun _ => rfl, hs.threads⟩
  | _ => exact ⟨[], d, rfl, hs.of_same rfl ⟨rfl, rfl, rfl⟩ hs.threads⟩

/-- Every run of the process is a run of outcomes and messages: what is shown of
the order of completion holds of the scheduler. -/
theorem exec_tracks (hasync : cfg.asyncCallback = true) {db : Database} {ls : List Label}
    (hok : Along (step cfg) (ReachesSection cfg) { db := db } ls)
    (hrun : exec (step cfg) { db := db } ls = some t) :
    ∃ ms d, exec (Detection.step cfg) {} ms = some d ∧ Tracks t d := by
  have hstart : Tracks { db := db } {} := by
    refine ⟨rfl, rfl, rfl, fun hsent => absurd hsent (by decide), ?_⟩
    intro f tasks hfinalizing
    cases hfinalizing
  exact exec_simulation (fun s l t d hs hl h => hs.step hasync hl h) hstart hok hrun

/-- In every run of the process the counter is the streak at the end of an order
in which finalizations have completed. -/
theorem consecutiveFailures_eq_streak (hasync : cfg.asyncCallback = true) {db : Database}
    {ls : List Label} (hok : Along (step cfg) (ReachesSection cfg) { db := db } ls)
    (hrun : exec (step cfg) { db := db } ls = some t) :
    ∃ executed completed : List Status, executed.Perm (completed ++ t.finalizations.map Finalization.status) ∧
      t.consecutiveFailures = streak failed completed := by
  obtain ⟨ms, d, hd, htracks⟩ := exec_tracks hasync hok hrun
  have hall : Along (Detection.step cfg) (fun _ _ => True) {} ms :=
    Along.of_forall (fun _ _ => trivial) _ _
  have hsound : Detection.Sound d := exec_invariant (fun d m d' hs _ h => hs.step h)
    Detection.sound_start hall hd
  refine ⟨d.executed, d.completed, ?_, ?_⟩
  · rw [← htracks.inFlight]
    exact hsound.perm
  · rw [← htracks.failures, hsound.counts.failures]

end Scheduler

end ScosSensor
