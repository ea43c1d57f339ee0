import ScosSensor.EntryDeletion
import ScosSensor.OwnResults
import ScosSensor.Streaks

/-!
# Counting consecutive failures

`last_status` and `consecutive_failures` hold the streak of failures at the end
of the outcomes that have been counted, and the restart is triggered when the
streak reaches `MAX_FAILURES`. The threshold travels from the environment through
the settings into the comparison, and arrives there as text when it is set.
-/
namespace ScosSensor

open Streaks

/-- `MAX_FAILURES = env("MAX_FAILURES", default=2)`: without a cast the value of
the environment stays text. -/
def readMaxFailures : Option String → EnvInt
  | some text => .str text
  | none => .int 2

/-- What an operator means by the environment: the number that is written there,
or the default. -/
inductive Configured : Option String → ℕ → Prop
  | unset : Configured none 2
  | set (k : ℕ) (hk : 0 < k) : Configured (some (toString k)) k

def failed (status : Status) : Bool := decide (status = .failure)

/-- `self.consecutive_failures >= settings.MAX_FAILURES`, once it has been
compared: `trigger_api_restart` is sent, and the thread is stopped. -/
def asksRestart (cfg : Settings) (w : World) : Bool :=
  match cfg.maxFailures with
  | .int n => decide (n ≤ w.consecutiveFailures)
  | .str _ => false

namespace Scheduler

/-- The attributes hold the streak of failures of what has been counted. -/
structure Counts (w : World) (counted : List Status) : Prop where
  last : w.lastStatus = counted.getLast?
  failures : w.consecutiveFailures = streak failed counted

variable {cfg : Settings} {w w' : World} {counted : List Status}

theorem counts_start : Counts {} [] := ⟨rfl, rfl⟩

theorem countFailures_fst (cfg : Settings) (status : Status) (w : World) :
    (countFailures cfg status w).1 =
      if cfg.maxFailures.isNumber then .ok () else .error .typeError := by
  unfold countFailures
  cases cfg.maxFailures <;> rfl

/-- Counting an outcome keeps the invariant, whether the comparison raises or not. -/
theorem Counts.count (hs : Counts w counted) (status : Status) :
    Counts (countFailures cfg status w).2 (counted ++ [status]) := by
  have hattributes : (countFailures cfg status w).2.lastStatus = some status ∧
      (countFailures cfg status w).2.consecutiveFailures =
        if status = .failure ∧ w.lastStatus = some .failure then w.consecutiveFailures + 1
        else if status = .failure then 1 else 0 := by
    unfold countFailures
    cases cfg.maxFailures <;> exact ⟨rfl, rfl⟩
  obtain ⟨hlast, hfailures⟩ := hattributes
  refine ⟨by rw [hlast, List.getLast?_concat], ?_⟩
  rw [hfailures, streak_append_singleton]
  by_cases hstatus : status = .failure
  · subst hstatus
    by_cases hbefore : w.lastStatus = some .failure
    · simp [hbefore, hs.failures, failed]
    · have hzero : streak failed counted = 0 := by
        refine streak_eq_zero fun x hx => ?_
        rw [← hs.last] at hx
        unfold failed
        rw [decide_eq_false_iff_not]
        rintro rfl
        exact hbefore hx
      simp [hbefore, hzero, failed]
  · simp [hstatus, failed]

theorem countFailures_flag (cfg : Settings) (status : Status) (w : World) :
    (countFailures cfg status w).2.interruptFlag =
      (w.interruptFlag || asksRestart cfg (countFailures cfg status w).2) := by
  unfold countFailures asksRestart
  cases cfg.maxFailures with
  | int n => rfl
  | str text => simp

theorem asksRestart_iff {k : ℕ} (hmax : cfg.maxFailures = .int k) (hs : Counts w counted) :
    asksRestart cfg w = true ↔ k ≤ streak failed counted := by
  simp [asksRestart, hmax, hs.failures]

/-! ### A whole finalization -/

theorem finalizeStep_stepsLeft {i : Input} {f f' : Finalization}
    (h : finalizeStep cfg i f w = (.ok (some f'), w')) : f'.stage.stepsLeft < f.stage.stepsLeft := by
  obtain ⟨next, w'', heq, hmove⟩ | ⟨err, w'', heq, -⟩ := finalizeStep_cases cfg i f w
  · rw [h] at heq
    obtain ⟨hnext, -⟩ := Prod.mk.inj heq
    obtain rfl := Except.ok.inj hnext
    exact hmove.stepsLeft
  · rw [h] at heq
    cases heq

/-- `_finalize_task_result` from a stage to its end; `inputs` is what the stages
read from outside. -/
def finalizeTaskResult (cfg : Settings) (inputs : Stage → Input) (f : Finalization) (w : World) :
    Except Exc Unit × World :=
  match _hstep : finalizeStep cfg (inputs f.stage) f w with
  | (.ok (some f'), w') => finalizeTaskResult cfg inputs f' w'
  | (.ok none, w') => (.ok (), w')
  | (.error err, w') => (.error err, w')
termination_by f.stage.stepsLeft
decreasing_by exact finalizeStep_stepsLeft _hstep

/-- The attributes that the counting reads and writes. -/
structure SameCounters (w w' : World) : Prop where
  last : w'.lastStatus = w.lastStatus
  failures : w'.consecutiveFailures = w.consecutiveFailures
  flag : w'.interruptFlag = w.interruptFlag

theorem SameCounters.trans {w'' : World} (h : SameCounters w w') (h' : SameCounters w' w'') :
    SameCounters w w'' :=
  ⟨h'.last.trans h.last, h'.failures.trans h.failures, h'.flag.trans h.flag⟩

theorem SameCounters.counts (h : SameCounters w w') (hs : Counts w counted) : Counts w' counted :=
  ⟨h.last.trans hs.last, h.failures.trans hs.failures⟩

/-- The stages before the counting leave its attributes and its argument. -/
theorem FinalizeMove.before_counting {i : Input} {f f' : Finalization}
    (h : FinalizeMove cfg i f w (some f') w') : SameCounters w w' ∧ f'.status = f.status := by
  refine ⟨by cases h <;> exact ⟨rfl, rfl, rfl⟩, ?_⟩
  generalize hnext : some f' = next at h
  cases h with
  | notify entry =>
    obtain rfl := Option.some.inj hnext
    unfold afterCallback notificationFailed
    split_ifs
    · rfl
    · split <;> rfl
  | count => cases hnext
  | _ =>
    obtain rfl := Option.some.inj hnext
    rfl

/-- The row that a finalization saves stays stored. -/
theorem FinalizeMove.keeps_stored {i : Input} {f f' : Finalization}
    (h : FinalizeMove cfg i f w (some f') w') (hstored : ∃ r ∈ w.db.results, r.id = f.result.id) :
    ∃ r ∈ w'.db.results, r.id = f'.result.id := by
  obtain ⟨r, hr, hrid⟩ := hstored
  rw [h.result.1]
  obtain hdb | hdb | ⟨row, hsave⟩ := h.db
  · exact ⟨r, hdb ▸ hr, hrid⟩
  · rw [hdb, ← hrid]
    exact ⟨r, Database.mem_removeOldest_self hr _ _ _, rfl⟩
  · exact ⟨row, Database.mem_superSave_self hsave, Database.superSave_id hsave⟩

/-- No stage changes the detail. -/
theorem FinalizeMove.keeps_detail {i : Input} {f f' : Finalization}
    (h : FinalizeMove cfg i f w (some f') w') : f'.result.detail = f.result.detail := by
  generalize hnext : some f' = next at h
  cases h with
  | notify entry =>
    obtain rfl := Option.some.inj hnext
    unfold afterCallback notificationFailed
    split_ifs
    · rfl
    · split <;> rfl
  | count => cases hnext
  | _ =>
    obtain rfl := Option.some.inj hnext
    rfl

theorem finalizeTaskResult_move {inputs : Stage → Input} {f f' : Finalization}
    (h : finalizeStep cfg (inputs f.stage) f w = (.ok (some f'), w')) :
    finalizeTaskResult cfg inputs f w = finalizeTaskResult cfg inputs f' w' := by
  rw [finalizeTaskResult]
  split <;> simp_all

theorem finalizeTaskResult_end {inputs : Stage → Input} {f : Finalization} {out : Except Exc Unit}
    (h : finalizeStep cfg (inputs f.stage) f w = (out.map fun _ => none, w')) :
    finalizeTaskResult cfg inputs f w = (out, w') := by
  rw [finalizeTaskResult]
  cases out <;> split <;> simp_all [Except.map]

/-- With its row stored, a detail that can be and an entry set, a finalization ends
with the counting of its status: nothing before it raises. -/
theorem finalizeTaskResult_eq (cfg : Settings) (inputs : Stage → Input) (f : Finalization) (w : World)
    (hstored : ∃ r ∈ w.db.results, r.id = f.result.id) (hdetail : f.result.detail.storable = true)
    (hentry : w.entry.isSome) :
    ∃ w₁, SameCounters w w₁ ∧ finalizeTaskResult cfg inputs f w = countFailures cfg f.status w₁ := by
  induction hleft : f.stage.stepsLeft using Nat.strong_induction_on generalizing f w with
  | _ n ih =>
    obtain ⟨next, w', heq, hmove⟩ | ⟨err, w', heq, hraise⟩ :=
      finalizeStep_cases cfg (inputs f.stage) f w
    · cases next with
      | some f' =>
        obtain ⟨hcounters, hstatus⟩ := hmove.before_counting
        obtain ⟨w₁, hw₁, hend⟩ := ih f'.stage.stepsLeft (hleft ▸ hmove.stepsLeft) f' w'
          (hmove.keeps_stored hstored) (hmove.keeps_detail ▸ hdetail) (hmove.entry ▸ hentry) rfl
        refine ⟨w₁, hcounters.trans hw₁, ?_⟩
        rw [finalizeTaskResult_move heq, hend, hstatus]
      | none =>
        cases hmove with
        | count w' hstage hcount =>
          refine ⟨w, ⟨rfl, rfl, rfl⟩, ?_⟩
          rw [hcount]
          exact finalizeTaskResult_end heq
    · cases hraise with
      | write site err hstage hsite hsave =>
        obtain ⟨r, hr, hid⟩ := hstored
        rw [← hid, Database.superSave_own hr hdetail] at hsave
        cases hsave
      | noEntry hstage hnone =>
        rw [hnone] at hentry
        cases hentry
      | count w' err hstage hcount =>
        refine ⟨w, ⟨rfl, rfl, rfl⟩, ?_⟩
        rw [hcount]
        exact finalizeTaskResult_end heq

/-- What the loop has prepared when it calls `_finalize_task_result`: the state of
the tables, with the row that `_initialize_task_result` has stored, `self.entry`,
and the arguments, of which two come from `_call_task_action`. -/
structure Call where
  db : Database
  entry : ScheduleEntry
  result : ResultRow
  stored : result ∈ db.results
  started : ℤ
  finished : ℤ
  outcome : ActionOutcome
  status : Status
  detail : PyText
  called : outcome.statusAndDetail = .ok (status, detail)
  inputs : Stage → Input

def Call.finalization (c : Call) : Finalization where
  result := finalResult c.result c.started c.finished c.status c.detail
  status := c.status
  producer := some c.entry

/-- The calls of a thread that finalizes by itself, and after which of them the
restart is triggered. Between two calls only the counters are carried on; an
exception ends the thread. -/
def finalizeAll (cfg : Settings) (w : World) : List Call → Except Exc (List Bool)
  | [] => .ok []
  | c :: cs =>
    match finalizeTaskResult cfg c.inputs c.finalization { w with db := c.db, entry := some c.entry } with
    | (.ok (), w') => (finalizeAll cfg w' cs).map fun sent => asksRestart cfg w' :: sent
    | (.error err, _) => .error err

/-- Every call returns, and the restart is triggered after a task exactly if that
task and the `k - 1` tasks before it all failed. -/
def RestartsAfter (k : ℕ) (cfg : Settings) (calls : List Call) : Prop :=
  ∃ sent, finalizeAll cfg {} calls = .ok sent ∧ sent.length = calls.length ∧
    ∀ j, sent[j]? = some true ↔ j < calls.length ∧ k ≤ j + 1 ∧
      ∀ i, i ≤ j → j < i + k → (calls.map Call.status)[i]? = some .failure

/-- With a number to compare with and details that can be stored, every call returns
and counts its outcome. -/
theorem finalizeAll_number {k : ℕ} (hmax : cfg.maxFailures = .int k) (hs : Counts w counted)
    (calls : List Call) (hdetails : ∀ c ∈ calls, c.detail.storable = true) :
    ∃ sent, finalizeAll cfg w calls = .ok sent ∧ sent.length = calls.length ∧
      ∀ j, sent[j]? = some true ↔ j < calls.length ∧
        k ≤ streak failed (counted ++ (calls.map Call.status).take (j + 1)) := by
  induction calls generalizing w counted with
  | nil => exact ⟨[], rfl, rfl, by simp⟩
  | cons c calls ih =>
    have hstored : ∃ r ∈ c.db.results, r.id = c.finalization.result.id := ⟨c.result, c.stored, rfl⟩
    obtain ⟨w₁, hw₁, hcall⟩ := finalizeTaskResult_eq cfg c.inputs c.finalization
      { w with db := c.db, entry := some c.entry } hstored (hdetails c List.mem_cons_self) rfl
    have hcounts : Counts w₁ counted := hw₁.counts ⟨hs.last, hs.failures⟩
    have hcounted : Counts (countFailures cfg c.status w₁).2 (counted ++ [c.status]) :=
      hcounts.count c.status
    have hreturns : (countFailures cfg c.status w₁).1 = .ok () := by
      rw [countFailures_fst, hmax]
      rfl
    obtain ⟨sent, hsent, hlength, hall⟩ := ih hcounted
      fun c' hc' => hdetails c' (List.mem_cons_of_mem c hc')
    refine ⟨asksRestart cfg (countFailures cfg c.status w₁).2 :: sent, ?_, by simp [hlength], ?_⟩
    · have hout : finalizeTaskResult cfg c.inputs c.finalization
          { w with db := c.db, entry := some c.entry } =
          (.ok (), (countFailures cfg c.status w₁).2) := by
        rw [hcall, ← hreturns]
        rfl
      rw [finalizeAll, hout]
      simp [hsent, Except.map]
    · intro j
      cases j with
      | zero => simp [asksRestart_iff hmax hcounted]
      | succ j => simp [hall]

/-- A detail that cannot be stored makes the first save of its call raise. -/
theorem finalizeTaskResult_refused (c : Call) (hdetail : c.detail.storable = false) (w : World) :
    ∃ w', finalizeTaskResult cfg c.inputs c.finalization w = (.error .valueError, w') := by
  have hrefused : ¬ c.finalization.result.detail.storable = true := by
    show ¬ c.detail.storable = true
    rw [hdetail]
    exact Bool.false_ne_true
  have hevict : finalizeStep cfg (c.inputs (.evicting .first)) c.finalization w =
      (.ok (some { c.finalization with stage := .writing .first }), { w with
        db := w.db.removeOldest cfg.maxDiskUsage (c.inputs (.evicting .first)).percentUsed
          c.finalization.result.scheduleEntry (some c.finalization.result.id) }) := rfl
  rw [finalizeTaskResult_move hevict]
  generalize { w with
    db := w.db.removeOldest cfg.maxDiskUsage (c.inputs (.evicting .first)).percentUsed
      c.finalization.result.scheduleEntry (some c.finalization.result.id) } = left
  have hwrite : finalizeStep cfg (c.inputs (.writing .first))
      { c.finalization with stage := .writing .first } left = (.error .valueError, left) := by
    simp only [finalizeStep, Database.superSave, if_neg hrefused]
    rfl
  exact ⟨left, finalizeTaskResult_end hwrite⟩

/-- A call that raises ends the thread, whatever the calls after it. -/
theorem finalizeAll_raises {err : Exc} {c : Call} {calls : List Call} (hc : c ∈ calls)
    (hraises : ∀ w, ∃ w', finalizeTaskResult cfg c.inputs c.finalization w = (.error err, w')) :
    ∃ err, finalizeAll cfg w calls = .error err := by
  induction calls generalizing w with
  | nil => cases hc
  | cons first calls ih =>
    rw [finalizeAll]
    rcases List.mem_cons.mp hc with rfl | hlater
    · obtain ⟨w', hcall⟩ := hraises { w with db := c.db, entry := some c.entry }
      exact ⟨err, by rw [hcall]⟩
    · split
      · rename_i w' _
        obtain ⟨err', hrest⟩ := @ih w' hlater
        exact ⟨err', by rw [hrest]; rfl⟩
      · exact ⟨_, rfl⟩

/-- The comparison with text raises, and ends the thread with the first call. -/
theorem finalizeAll_text {text : String} (hmax : cfg.maxFailures = .str text) (c : Call)
    (hdetail : c.detail.storable = true) (calls : List Call) :
    finalizeAll cfg w (c :: calls) = .error .typeError := by
  have hstored : ∃ r ∈ c.db.results, r.id = c.finalization.result.id := ⟨c.result, c.stored, rfl⟩
  obtain ⟨w₁, -, hcall⟩ := finalizeTaskResult_eq cfg c.inputs c.finalization
    { w with db := c.db, entry := some c.entry } hstored hdetail rfl
  have hraises : (countFailures cfg c.status w₁).1 = .error .typeError := by
    rw [countFailures_fst, hmax]
    rfl
  have hout : finalizeTaskResult cfg c.inputs c.finalization
      { w with db := c.db, entry := some c.entry } =
      (.error .typeError, (countFailures cfg c.status w₁).2) := by
    rw [hcall, ← hraises]
    rfl
  rw [finalizeAll, hout]

/-- The streak of the first `j + 1` outcomes, index by index. -/
theorem le_streak_take_iff {k j : ℕ} {statuses : List Status} (hj : j < statuses.length) :
    k ≤ streak failed (statuses.take (j + 1)) ↔
      k ≤ j + 1 ∧ ∀ i, i ≤ j → j < i + k → statuses[i]? = some .failure := by
  have hlength : (statuses.take (j + 1)).length = j + 1 := by
    rw [List.length_take]
    omega
  rw [le_streak_iff_getElem, hlength]
  refine and_congr_right fun _ => ?_
  constructor
  · intro hall i hi hik
    obtain ⟨status, hstatus⟩ : ∃ status, statuses[i]? = some status :=
      ⟨_, List.getElem?_eq_getElem (by omega)⟩
    have hfailed := hall i status (by rw [List.getElem?_take_of_lt (by omega), hstatus]) (by omega)
    rw [hstatus]
    exact congrArg some (of_decide_eq_true hfailed)
  · intro hall i status hstatus hik
    obtain ⟨hi, -⟩ := List.getElem?_eq_some_iff.mp hstatus
    rw [hlength] at hi
    rw [List.getElem?_take_of_lt hi, hall i (by omega) (by omega)] at hstatus
    obtain rfl := Option.some.inj hstatus
    rfl

/-- The restart is triggered as configured exactly if no task is executed, or the
environment does not set the variable and every detail can be stored: a set variable
is text, and the first comparison with it raises. -/
theorem restarts_as_configured_iff (environ : Option String) (k : ℕ) (hk : Configured environ k)
    (cfg : Settings) (hmax : cfg.maxFailures = readMaxFailures environ) (calls : List Call) :
    RestartsAfter k cfg calls ↔
      calls = [] ∨ environ = none ∧ ∀ c ∈ calls, c.detail.storable = true := by
  by_cases hdetails : ∀ c ∈ calls, c.detail.storable = true
  · cases hk with
    | unset =>
      obtain ⟨sent, hsent, hlength, hall⟩ := finalizeAll_number hmax counts_start calls hdetails
      refine iff_of_true ⟨sent, hsent, hlength, fun j => ?_⟩ (.inr ⟨rfl, hdetails⟩)
      rw [hall, List.nil_append]
      refine and_congr_right fun hj => le_streak_take_iff ?_
      rwa [List.length_map]
    | set k hpos =>
      cases calls with
      | nil =>
        refine iff_of_true ⟨[], rfl, rfl, fun j => ?_⟩ (.inl rfl)
        simp
      | cons c calls =>
        refine iff_of_false ?_ (by simp)
        rintro ⟨sent, hsent, -⟩
        rw [finalizeAll_text hmax c (hdetails c List.mem_cons_self)] at hsent
        cases hsent
  · obtain ⟨c, hc, hrefused⟩ : ∃ c ∈ calls, c.detail.storable = false := by
      simpa only [not_forall, exists_prop, Bool.not_eq_true] using hdetails
    refine iff_of_false ?_ ?_
    · rintro ⟨sent, hsent, -⟩
      obtain ⟨err, hraises⟩ := finalizeAll_raises hc (finalizeTaskResult_refused c hrefused)
      rw [hraises] at hsent
      cases hsent
    · rintro (rfl | ⟨-, hall⟩)
      · cases hc
      · exact hdetails hall

/-- A call for a task of the entry `sweep` whose action has failed. -/
def failedCall (taskId : ℕ) : Call where
  db := { schedule := [everyTenSeconds], results := [⟨{ scheduleEntry := "sweep", taskId }, taskId⟩] }
  entry := everyTenSeconds
  result := ⟨{ scheduleEntry := "sweep", taskId }, taskId⟩
  stored := List.mem_singleton_self _
  started := 0
  finished := 0
  outcome := .raised (some "no signal")
  status := .failure
  detail := "no signal"
  called := by decide
  inputs := fun _ => {}

/-- `MAX_FAILURES=3`: the first comparison raises, after one failure. -/
theorem set_max_failures_raises :
    Configured (some (toString 3)) 3 ∧
      finalizeAll { inThread with maxFailures := readMaxFailures (some (toString 3)) } {}
        [failedCall 1] = .error .typeError ∧
      ¬ RestartsAfter 3 { inThread with maxFailures := readMaxFailures (some (toString 3)) }
        [failedCall 1] := by
  have hraises : finalizeAll { inThread with maxFailures := readMaxFailures (some (toString 3)) } {}
      [failedCall 1] = .error .typeError := finalizeAll_text rfl (failedCall 1) (by decide) []
  refine ⟨.set 3 (by decide), hraises, ?_⟩
  rintro ⟨sent, hsent, -⟩
  rw [hraises] at hsent
  cases hsent

/-- Without the variable the second of two failures triggers the restart. -/
theorem restarts_as_configured_unset :
    Configured none 2 ∧ RestartsAfter 2 inThread [failedCall 1, failedCall 2] :=
  ⟨.unset, (restarts_as_configured_iff none 2 .unset inThread rfl _).mpr (.inr ⟨rfl, by decide⟩)⟩

end Scheduler

end ScosSensor
