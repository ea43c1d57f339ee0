import ScosSensor.EntryDeletion
import ScosSensor.FailureIsolation
import ScosSensor.Interrupts

/-!
# The end of the loops

`stop` asks the thread to complete the current task and then return control, and a run
that does not block returns by itself. The thread looks at the flag after a pass only, so
what it still does is bounded by the pass that is under way and by the rows that the next
snapshot can hold. A request that adds a row before that snapshot adds to the bound.
-/
namespace ScosSensor

namespace Pc

/-- A bound on the steps that the thread takes before its loops are over, when it is told
to stop and the schedule has `n` rows. -/
def toEnd (n : ℕ) : Pc → ℕ
  | .starting => 17 * n + 8
  | .resetting todo => todo.length + (16 * n + 7)
  | .checking => 16 * n + 6
  | .reading => 16 * n + 5
  | .passDone => 2
  | .scheduleDone => 1
  | .stopped => 0
  | .dead _ => 0
  | pc => pc.stepsLeft + 2

/-- The loops are over, by the flag or by an exception. -/
def isOver : Pc → Bool
  | .stopped => true
  | .dead _ => true
  | _ => false

/-- The passes that the thread can still begin. -/
def passesLeft : Pc → ℕ
  | .starting => 1
  | .resetting _ => 1
  | .checking => 1
  | .reading => 1
  | _ => 0

theorem toEnd_eq_zero {n : ℕ} {pc : Pc} : pc.toEnd n = 0 ↔ pc.isOver = true := by
  cases pc <;> simp [toEnd, isOver]

/-- Within a pass. -/
theorem toEnd_of_stepsLeft {n : ℕ} {pc : Pc} (h : pc.stepsLeft ≠ 0) :
    pc.toEnd n = pc.stepsLeft + 2 := by
  cases pc <;> first | rfl | exact absurd rfl h

/-- Rows that are added before the last snapshot may have to be reset and executed. -/
theorem toEnd_mono {n m : ℕ} (h : n ≤ m + 1) (pc : Pc) : pc.toEnd n ≤ pc.toEnd m + 17 := by
  cases pc <;> simp only [toEnd] <;> omega

theorem toEnd_le {n m : ℕ} (h : n ≤ m) (pc : Pc) : pc.toEnd n ≤ pc.toEnd m := by
  cases pc <;> simp only [toEnd] <;> omega

end Pc

/-- The labels that can add a row to the schedule: a creation, and a save of a whole row,
which is an INSERT when the row is gone. -/
def Label.addsRow : Label → Bool
  | .post _ _ _ _ => true
  | .write _ _ => true
  | _ => false

namespace Scheduler

open Runs

variable {cfg : Settings} {s t : Sys} {l : Label} {i : Input}

theorem length_writeRow {db : Database} {columns : ScheduleEntry → ScheduleEntry} (name : String) :
    (db.writeRow name columns).schedule.length = db.schedule.length := List.length_map _

/-- Only a request adds a row to the schedule. -/
theorem step_rows (h : step cfg s l = some t) :
    t.db.schedule.length ≤ s.db.schedule.length + if l.addsRow then 1 else 0 := by
  have hsame {db db' : Database} (heq : db'.schedule = db.schedule) :
      db'.schedule.length ≤ db.schedule.length := (congrArg List.length heq).le
  cases step_cases h with
  | sched i s' hmove =>
    cases hmove with
    | reset | take | cancel | number => exact (length_writeRow _).le
    | evict => exact hsame (Database.removeOldest_frame _ _ _ _ _).1
    | create task tasks result db hpc hsave => exact hsame (Database.superSave_schedule hsave)
    | finalize f f' tasks w hpc hmove => exact hsame hmove.schedule
    | finalized f tasks w hpc hmove => exact hsame hmove.schedule
    | finalizeRaise f tasks err w hpc hraise => exact hsame (congrArg Database.schedule hraise.frame.1)
    | _ => exact Nat.le_refl _
  | finalizer k i f f' w hf hmove => exact hsame hmove.schedule
  | finalizerEnd k i f w hf hmove => exact hsame hmove.schedule
  | finalizerRaise k i f err w hf hraise => exact hsame (congrArg Database.schedule hraise.frame.1)
  | measure => exact hsame (Database.storeAcquisition_schedule _ _ _)
  | post => simp [Label.addsRow]
  | write k now q hq =>
    simp only [Database.saveWhole, Label.addsRow, if_true]
    split_ifs
    · exact Nat.le_succ_of_le (List.length_map _).le
    · simp
  | deleteEntry name db hremove =>
    obtain ⟨-, -, rfl⟩ := Database.removeEntry_some hremove
    exact List.length_filter_le _ _
  | _ => exact Nat.le_refl _

/-- The thread is told to stop, or returns control by itself. -/
def Stopping (cfg : Settings) (s : Sys) : Prop := cfg.blocking = true → s.interruptFlag = true

/-- A pass leads on to its next step, to the check of the flag, or to the end. -/
theorem schedMove_toEnd_pass (h : SchedMove cfg i s t) (hpass : s.pc.stepsLeft ≠ 0) (n : ℕ) :
    t.pc.toEnd n ≤ t.pc.stepsLeft + 2 := by
  cases h with
  | raise | finalizeRaise => exact Nat.zero_le _
  | jump pc hjump => cases hjump <;> simp_all [Pc.stepsLeft, Pc.toEnd]
  | keep taskTime | cancel taskTime => cases taskTime <;> exact Nat.le_refl _
  | reset e todo last hpc | read hpc => simp [hpc, Pc.stepsLeft] at hpass
  | _ => exact Nat.le_refl _

/-- Told to stop, the thread comes nearer to its end with every step. -/
theorem schedMove_toEnd (h : SchedMove cfg i s t) (hstop : Stopping cfg s) {n : ℕ}
    (hn : s.db.schedule.length ≤ n) : t.pc.toEnd n < s.pc.toEnd n := by
  by_cases hpass : s.pc.stepsLeft = 0
  · have hactive : s.db.activeEntries.length ≤ n := (List.length_filter_le _ _).trans hn
    have hrun : ¬ (cfg.blocking = true ∧ s.interruptFlag = false) := by
      rintro ⟨hblocking, hflag⟩
      rw [hstop hblocking] at hflag
      cases hflag
    cases h with
    | raise err hraise =>
      refine Nat.pos_of_ne_zero fun hzero => ?_
      rw [Pc.toEnd_eq_zero] at hzero
      cases hraise with
      | load hpc => rcases hpc with hpc | hpc <;> simp [hpc, Pc.isOver] at hzero
      | _ => simp_all [Pc.isOver]
    | jump pc hjump =>
      cases hjump with
      | startReset hpc =>
        simp only [hpc, Pc.toEnd]
        omega
      | passAgain hpc hagain | runAgain hpc hagain => exact absurd hagain hrun
      | resetSkip e todo hpc =>
        simp only [hpc, Pc.toEnd, List.length_cons]
        omega
      | _ => simp_all [Pc.toEnd, Pc.stepsLeft]
    | reset e todo last hpc =>
      simp only [hpc, Pc.toEnd, List.length_cons]
      omega
    | read hpc =>
      simp only [hpc, Pc.toEnd, Pc.stepsLeft, List.length_nil]
      omega
    | _ => simp_all [Pc.stepsLeft]
  · rw [Pc.toEnd_of_stepsLeft hpass]
    have hless := schedMove_stepsLeft h hpass
    have hnext := schedMove_toEnd_pass h hpass n
    omega

theorem Stopping.step (hs : Stopping cfg s) (hl : l ≠ .crash) (h : step cfg s l = some t) :
    Stopping cfg t := fun hblocking => flag_step h hl (hs hblocking)

/-- A request that adds a row adds the steps of a reset and of a task. -/
theorem step_toEnd (hs : Stopping cfg s) (hl : l ≠ .crash) (h : Scheduler.step cfg s l = some t) :
    t.pc.toEnd t.db.schedule.length + (if l.isSched then 1 else 0) ≤
      s.pc.toEnd s.db.schedule.length + if l.addsRow then 17 else 0 := by
  have hrows := step_rows h
  by_cases hsched : l.isSched = false
  · rw [step_pc h hl hsched, hsched]
    by_cases hadds : l.addsRow = true
    · rw [hadds, if_pos rfl] at hrows ⊢
      exact s.pc.toEnd_mono hrows
    · rw [if_neg hadds] at hrows ⊢
      exact s.pc.toEnd_le hrows
  · cases step_cases h with
    | sched i s' hmove =>
      have hless := schedMove_toEnd hmove hs (Nat.le_refl _)
      have hfewer := t.pc.toEnd_le (show t.db.schedule.length ≤ s.db.schedule.length from hrows)
      simp only [Label.isSched, Label.addsRow, if_true]
      exact Nat.lt_of_le_of_lt hfewer hless
    | _ => exact absurd rfl hsched

/-- Told to stop, the thread begins a pass only if it has not begun its last one. -/
theorem step_passesLeft (hs : Stopping cfg s) (hl : l ≠ .crash)
    (h : Scheduler.step cfg s l = some t) :
    t.passes + t.pc.passesLeft ≤ s.passes + s.pc.passesLeft := by
  cases step_cases h with
  | sched i s' hmove =>
    cases hmove with
    | read hpc =>
      rw [hpc]
      exact Nat.le_refl _
    | jump pc hjump =>
      refine Nat.add_le_add_left ?_ s.passes
      cases hjump with
      | passAgain hpc hrun | runAgain hpc hrun =>
        rw [hs hrun.1] at hrun
        cases hrun.2
      | _ => simp_all [Pc.passesLeft]
    | reset e todo last hpc =>
      rw [hpc]
      exact Nat.le_refl _
    | keep taskTime | cancel taskTime => cases taskTime <;> exact Nat.le_add_right _ _
    | _ => exact Nat.le_add_right _ _
  | crash => exact absurd rfl hl
  | _ => exact Nat.le_refl _

/-- From any state in which the flag is up, and from any state of a run that does not
block, the thread begins at most one more pass, none when it has begun the last one, and
ends its loops within a bound that only a creation or a whole save of a row extends; until
it has ended them it can take a step. -/
theorem stop_ends_loops (cfg : Settings) (s t : Sys)
    (hstop : cfg.blocking = true → s.interruptFlag = true) (ls : List Label)
    (hls : ∀ l ∈ ls, l ≠ .crash) (hrun : exec (step cfg) s ls = some t) :
    t.passes ≤ s.passes + s.pc.passesLeft ∧
      ls.countP Label.isSched ≤
        s.pc.toEnd s.db.schedule.length + 17 * ls.countP Label.addsRow ∧
      (t.pc.isOver = false →
        ls.countP Label.isSched <
            s.pc.toEnd s.db.schedule.length + 17 * ls.countP Label.addsRow ∧
          ∀ i, (step cfg t (.sched i)).isSome) := by
  have hstep : ∀ s l s', Stopping cfg s → l ≠ .crash → step cfg s l = some s' → Stopping cfg s' :=
    fun s l s' hs hl h => hs.step hl h
  have hok : Along (step cfg) (fun _ l => l ≠ .crash) s ls :=
    Along.of_forall_mem fun l hl _ => hls l hl
  have hsteps : t.pc.toEnd t.db.schedule.length + ls.countP Label.isSched ≤
      s.pc.toEnd s.db.schedule.length + 17 * ls.countP Label.addsRow :=
    exec_charged (fun s => s.pc.toEnd s.db.schedule.length) 17 hstep
      (fun s l s' hs hl h => step_toEnd hs hl h) hstop hok hrun
  have hpasses := exec_relation (R := fun s t => t.passes + t.pc.passesLeft ≤
    s.passes + s.pc.passesLeft) (fun s => Nat.le_refl _) (fun s t u h h' => h'.trans h) hstep
    (fun s l s' hs hl h => step_passesLeft hs hl h) hstop hok hrun
  refine ⟨by omega, by omega, fun hover => ?_⟩
  have hleft : t.pc.toEnd t.db.schedule.length ≠ 0 := by
    rw [ne_eq, Pc.toEnd_eq_zero, hover]
    exact Bool.false_ne_true
  refine ⟨by omega, fun i => schedStep_isSome cfg i ?_ ?_⟩
  · intro hpc
    rw [hpc] at hover
    cases hover
  · rintro ⟨err, hpc⟩
    rw [hpc] at hover
    cases hover

/-- Told to stop in the action of the first of three tasks, the thread executes the other
two, begins no further pass and has ended its loops after 32 of the 38 steps. -/
theorem stop_ends_loops_in_pass :
    ∃ s t, exec (step inThread) { db := { schedule := threeDue } }
        (List.replicate 21 (.sched {}) ++ [.stop]) = some s ∧
      exec (step inThread) s (List.replicate 32 (.sched {})) = some t ∧
      t.passes ≤ s.passes + 0 ∧ 32 ≤ 38 + 17 * 0 ∧ t.pc.isOver = true := by
  have hend : (exec (step inThread) { db := { schedule := threeDue } }
      (List.replicate 21 (.sched {}) ++ [.stop])).map (fun s =>
        (s.interruptFlag, s.pc.passesLeft, s.pc.toEnd s.db.schedule.length,
          (exec (step inThread) s (List.replicate 32 (.sched {}))).map fun t => t.pc.isOver)) =
      some (true, 0, 38, some true) := by decide
  obtain ⟨s, hs, hstate⟩ := Option.map_eq_some_iff.mp hend
  obtain ⟨hflag, hstate⟩ := Prod.mk.inj hstate
  obtain ⟨hpasses, hstate⟩ := Prod.mk.inj hstate
  obtain ⟨htoEnd, hlater⟩ := Prod.mk.inj hstate
  obtain ⟨t, ht, hover⟩ := Option.map_eq_some_iff.mp hlater
  have hends := stop_ends_loops inThread s t (fun _ => hflag) (List.replicate 32 (.sched {}))
    (by decide) ht
  rw [hpasses, htoEnd] at hends
  exact ⟨s, t, hs, ht, hends.1, hends.2.1, hover⟩

end Scheduler

end ScosSensor
