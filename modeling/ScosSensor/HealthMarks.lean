import ScosSensor.EntryDeletion
import ScosSensor.Latches

/-!
# The marks of an unhealthy container

The container is checked for two files. `scheduler_dead` is touched when an
exception ends the loops and removed when the thread of the next process starts;
`sdr_unhealthy` is touched when the failures reach their limit or the signal
analyzer is not healthy, and removed when the settings of the next process are
read. The machine of the scheduler runs here with these files beside it.
-/
namespace ScosSensor

/-- The files in the root of the container. -/
structure HealthFiles where
  sdrUnhealthy : Bool := false
  schedulerDead : Bool := false
  deriving Repr, DecidableEq

/-- `test ! -e /sdr_unhealthy && test ! -e /scheduler_dead`. -/
def HealthFiles.test (files : HealthFiles) : Bool := !files.sdrUnhealthy && !files.schedulerDead

theorem HealthFiles.test_eq_false {files : HealthFiles} :
    files.test = false ↔ files.sdrUnhealthy = true ∨ files.schedulerDead = true := by
  unfold HealthFiles.test
  cases files.sdrUnhealthy <;> cases files.schedulerDead <;> decide

/-- The process, its database and the files. -/
structure Container where
  sys : Sys
  files : HealthFiles := {}
  deriving Repr, DecidableEq

/-- A step of the process, or a call of `set_container_unhealthy`. The receiver of
`trigger_api_restart` is connected for every sender, so it is also what an action that
sends this signal itself comes to. -/
inductive ContainerLabel where
  | process (l : Label)
  | setUnhealthy
  deriving Repr, DecidableEq

def Pc.isDead : Pc → Bool
  | .dead _ => true
  | _ => false

namespace Scheduler

open Runs Latches

variable {cfg : Settings} {s s' t : Sys} {l : Label} {i : Input} {inDocker faulted : Bool}
  {c c' : Container}

/-- `self.consecutive_failures >= settings.MAX_FAILURES`. -/
def limitReached (cfg : Settings) (w : World) : Bool :=
  match cfg.maxFailures with
  | .int n => decide (n ≤ w.consecutiveFailures)
  | .str _ => false

/-- The step is one that counts failures and sends `trigger_api_restart`. -/
def triggersRestart (cfg : Settings) (s s' : Sys) : Label → Bool
  | .sched _ =>
    match s.pc with
    | .finalizing f _ => decide (f.stage = .counting) && limitReached cfg s'.toWorld
    | _ => false
  | .finalizer k _ =>
    match s.finalizations[k]? with
    | some f => decide (f.stage = .counting) && limitReached cfg s'.toWorld
    | none => false
  | _ => false

/-- `run` begins, which removes the mark of an earlier thread. -/
def unlinks (cfg : Settings) (s : Sys) (l : Label) : Bool :=
  cfg.blocking && l.isSched && decide (s.pc = .starting)

/-- The handler around the loops. -/
def dies (s s' : Sys) : Bool := !s.pc.isDead && s'.pc.isDead

/-- The files after a step of the process. -/
def filesAfter (cfg : Settings) (inDocker : Bool) (s s' : Sys) (l : Label) (files : HealthFiles) :
    HealthFiles :=
  match l with
  | .crash => { files with sdrUnhealthy := false }
  | l => {
      sdrUnhealthy := files.sdrUnhealthy || (inDocker && triggersRestart cfg s s' l)
      schedulerDead := (files.schedulerDead && !unlinks cfg s l) || (inDocker && dies s s') }

/-- One step of the container. -/
def containerStep (cfg : Settings) (inDocker : Bool) (c : Container) :
    ContainerLabel → Option Container
  | .process l =>
    (step cfg c.sys l).map fun s' => ⟨s', filesAfter cfg inDocker c.sys s' l c.files⟩
  | .setUnhealthy =>
    some { c with files.sdrUnhealthy := c.files.sdrUnhealthy || inDocker }

/-- Whether the process has called `set_container_unhealthy`, after a further step. -/
def faultAfter : Bool → ContainerLabel → Bool
  | _, .process .crash => false
  | _, .setUnhealthy => true
  | faulted, .process _ => faulted

theorem countFailures_interrupt (cfg : Settings) (status : Status) (w : World) :
    (countFailures cfg status w).2.interruptFlag =
      (w.interruptFlag || limitReached cfg (countFailures cfg status w).2) := by
  unfold countFailures limitReached
  cases cfg.maxFailures with
  | int n => rfl
  | str text => simp

theorem FinalizeMove.interrupt {f : Finalization} {w w' : World} {next : Option Finalization}
    (h : FinalizeMove cfg i f w next w') :
    w'.interruptFlag =
      (w.interruptFlag || (decide (f.stage = .counting) && limitReached cfg w')) := by
  cases h with
  | count w' hstage hcount =>
    have hflag := countFailures_interrupt cfg f.status w
    rw [hcount] at hflag
    simpa [hstage] using hflag
  | evict site hstage | write site row db hstage | retry err hstage | notify entry hstage =>
    simp [hstage]

theorem FinalizeRaise.interrupt {f : Finalization} {w w' : World} {err : Exc}
    (h : FinalizeRaise cfg f w err w') :
    w'.interruptFlag =
      (w.interruptFlag || (decide (f.stage = .counting) && limitReached cfg w')) := by
  cases h with
  | count w' err hstage hcount =>
    have hflag := countFailures_interrupt cfg f.status w
    rw [hcount] at hflag
    simpa [hstage] using hflag
  | write site err hstage | noEntry hstage => simp [hstage]

/-- Apart from `stop`, only reaching the limit raises the flag, and it triggers a restart. -/
theorem step_interrupt (h : step cfg s l = some s') (hstop : l ≠ .stop) (hcrash : l ≠ .crash) :
    s'.interruptFlag = (s.interruptFlag || triggersRestart cfg s s' l) := by
  cases step_cases h with
  | sched i s' hmove =>
    cases hmove with
    | finalize f f' tasks w hpc hmove => simpa [triggersRestart, hpc] using hmove.interrupt
    | finalized f tasks w hpc hmove => simpa [triggersRestart, hpc] using hmove.interrupt
    | finalizeRaise f tasks err w hpc hraise => simpa [triggersRestart, hpc] using hraise.interrupt
    | raise err hraise =>
      cases hraise with
      | load hpc => rcases hpc with hpc | hpc <;> simp [triggersRestart, hpc]
      | _ => simp_all [triggersRestart]
    | jump pc hjump => cases hjump <;> simp_all [triggersRestart]
    | _ => simp_all [triggersRestart]
  | finalizer k i f f' w hf hmove => simpa [triggersRestart, hf] using hmove.interrupt
  | finalizerEnd k i f w hf hmove => simpa [triggersRestart, hf] using hmove.interrupt
  | finalizerRaise k i f err w hf hraise => simpa [triggersRestart, hf] using hraise.interrupt
  | stop => exact absurd rfl hstop
  | crash => exact absurd rfl hcrash
  | _ => simp [triggersRestart]

/-! ### What the marks say -/

/-- What the files say of the process. `faulted` tells whether it has called
`set_container_unhealthy`. -/
structure Marked (faulted : Bool) (c : Container) : Prop where
  sdr : c.files.sdrUnhealthy = (c.sys.interruptFlag || faulted)
  dead : c.sys.pc ≠ .starting → c.files.schedulerDead = c.sys.pc.isDead
  stopped : c.sys.pc = .stopped → c.sys.interruptFlag = true

theorem step_isDead (h : step cfg s l = some s') (hcrash : l ≠ .crash) (hdead : s.pc.isDead = true) :
    s'.pc.isDead = true := by
  by_cases hsched : l.isSched = false
  · rwa [step_pc h hcrash hsched]
  · cases l with
    | sched i =>
      simp only [step, schedStep] at h
      split at h <;> simp_all [Pc.isDead]
    | _ => exact absurd rfl hsched

/-- A thread that runs until it is stopped does not end with the flag down. -/
theorem step_stopped (hblocking : cfg.blocking = true) (h : step cfg s l = some s')
    (hcrash : l ≠ .crash) (hstop : l ≠ .stop)
    (hs : s.pc = .stopped → s.interruptFlag = true) (hpc : s'.pc = .stopped) :
    s'.interruptFlag = true := by
  rw [step_interrupt h hstop hcrash, Bool.or_eq_true]
  left
  by_cases hsched : l.isSched = false
  · exact hs (step_pc h hcrash hsched ▸ hpc)
  · cases step_cases h with
    | sched i s' hmove =>
      cases hmove with
      | jump pc hjump =>
        cases hjump with
        | runBreak hpc' hrun => simpa [hblocking] using hrun
        | _ => cases hpc
      | keep taskTime | cancel taskTime => cases taskTime <;> cases hpc
      | _ => cases hpc
    | _ => exact absurd rfl hsched

/-- Once the thread has begun, the mark of a dead thread is its own, whoever takes a step. -/
theorem schedulerDead_step {l : ContainerLabel} (hblocking : cfg.blocking = true)
    (hc : c.sys.pc ≠ .starting → c.files.schedulerDead = c.sys.pc.isDead)
    (h : containerStep cfg true c l = some c') (hpc : c'.sys.pc ≠ .starting) :
    c'.files.schedulerDead = c'.sys.pc.isDead := by
  cases l with
  | setUnhealthy =>
    obtain rfl := Option.some.inj h
    exact hc hpc
  | process l =>
    obtain ⟨s', hs', rfl⟩ := Option.map_eq_some_iff.mp h
    by_cases hcrash : l = .crash
    · subst hcrash
      obtain rfl := Option.some.inj hs'
      exact absurd rfl hpc
    · have hfile : (filesAfter cfg true c.sys s' l c.files).schedulerDead =
          ((c.files.schedulerDead && !unlinks cfg c.sys l) || dies c.sys s') := by
        unfold filesAfter
        split
        · exact absurd rfl hcrash
        · simp
      show (filesAfter cfg true c.sys s' l c.files).schedulerDead = s'.pc.isDead
      rw [hfile]
      by_cases hstarting : c.sys.pc = .starting
      · have hsched : l.isSched = true := by
          by_contra hother
          rw [Bool.not_eq_true] at hother
          exact hpc ((step_pc hs' hcrash hother).trans hstarting)
        simp [unlinks, dies, hblocking, hsched, hstarting, Pc.isDead]
      · rw [hc hstarting]
        cases hdead : c.sys.pc.isDead with
        | false => simp [dies, hdead]
        | true =>
          rw [step_isDead hs' hcrash hdead]
          simp [unlinks, hstarting]

theorem Marked.step {l : ContainerLabel} (hblocking : cfg.blocking = true)
    (hc : Marked faulted c) (hstop : l ≠ .process .stop)
    (h : containerStep cfg true c l = some c') : Marked (faultAfter faulted l) c' := by
  have hdead := schedulerDead_step hblocking hc.dead h
  cases l with
  | setUnhealthy =>
    obtain rfl := Option.some.inj h
    exact ⟨by simp [faultAfter], hdead, hc.stopped⟩
  | process l =>
    obtain ⟨s', hs', rfl⟩ := Option.map_eq_some_iff.mp h
    by_cases hcrash : l = .crash
    · subst hcrash
      obtain rfl := Option.some.inj hs'
      exact ⟨rfl, hdead, fun hpc => by cases hpc⟩
    · have hstop' : l ≠ .stop := fun heq => hstop (heq ▸ rfl)
      have hfile : (filesAfter cfg true c.sys s' l c.files).sdrUnhealthy =
          (c.files.sdrUnhealthy || triggersRestart cfg c.sys s' l) := by
        unfold filesAfter
        split
        · exact absurd rfl hcrash
        · simp
      have hfault : faultAfter faulted (.process l) = faulted := by
        cases l <;> first | rfl | exact absurd rfl hcrash
      rw [hfault]
      refine ⟨?_, hdead, step_stopped hblocking hs' hcrash hstop' hc.stopped⟩
      show (filesAfter cfg true c.sys s' l c.files).sdrUnhealthy = _
      rw [hfile, hc.sdr, step_interrupt hs' hstop' hcrash, Bool.or_right_comm]

/-- Only a new process has a thread that has not begun yet. -/
theorem step_starting (h : step cfg s l = some s') (hcrash : l ≠ .crash)
    (hpc : s'.pc = .starting) : s.pc = .starting := by
  by_cases hsched : l.isSched = false
  · exact step_pc h hcrash hsched ▸ hpc
  · cases step_cases h with
    | sched i s' hmove =>
      cases hmove with
      | jump pc hjump => cases hjump <;> cases hpc
      | keep taskTime | cancel taskTime => cases taskTime <;> cases hpc
      | _ => cases hpc
    | _ => exact absurd rfl hsched

/-- Without a restart a container that has failed its test goes on to fail it. -/
theorem test_fails_step {l : ContainerLabel} (hstarted : c.sys.pc ≠ .starting)
    (hfail : c.files.test = false) (hl : l ≠ .process .crash)
    (h : containerStep cfg inDocker c l = some c') :
    c'.sys.pc ≠ .starting ∧ c'.files.test = false := by
  have hmarks := HealthFiles.test_eq_false.mp hfail
  cases l with
  | setUnhealthy =>
    obtain rfl := Option.some.inj h
    refine ⟨hstarted, ?_⟩
    rw [HealthFiles.test_eq_false]
    exact hmarks.imp_left fun hmark => by simp [hmark]
  | process l =>
    obtain ⟨s', hs', rfl⟩ := Option.map_eq_some_iff.mp h
    have hcrash : l ≠ .crash := fun heq => hl (heq ▸ rfl)
    refine ⟨fun hpc => hstarted (step_starting hs' hcrash hpc), ?_⟩
    dsimp only
    unfold filesAfter
    split
    · exact absurd rfl hcrash
    · rw [HealthFiles.test_eq_false]
      refine hmarks.imp ?_ ?_
      · intro hmark
        simp [hmark]
      · intro hmark
        simp [hmark, unlinks, hstarted]

/-- The mark of an unhealthy signal analyzer stays until the process is started again. -/
theorem sdrUnhealthy_step {l : ContainerLabel} (hmark : c.files.sdrUnhealthy = true)
    (hl : l ≠ .process .crash) (h : containerStep cfg inDocker c l = some c') :
    c'.files.sdrUnhealthy = true := by
  cases l with
  | setUnhealthy =>
    obtain rfl := Option.some.inj h
    simp [hmark]
  | process l =>
    obtain ⟨s', -, rfl⟩ := Option.map_eq_some_iff.mp h
    dsimp only
    unfold filesAfter
    split
    · exact absurd rfl hl
    · simp [hmark]

end Scheduler

end ScosSensor
