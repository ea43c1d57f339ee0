import ScosSensor.CrashSafety

/-!
# Edits of entries between takes

An update that moves the start or the interval of an entry begins its times anew, but
not before the next second, and a take uses up all times before the next second. So
every time that an entry has queued lies behind the times that its row and the instances
of it can still be asked for, whatever is edited in between.
-/
namespace ScosSensor

/-- The times that passes have queued for an entry, in this order. -/
def timesQueued (history : List Event) (name : String) : List ℤ :=
  ((queuedTasks history).filter fun x => x.2.scheduleEntryName = name).map fun x => x.2.time

namespace Scheduler

open Runs Counters

variable {cfg : Settings} {s t : Sys} {l : Label} {i : Input} {name : String}

/-- The time that a step reads from the clock: a visit of an entry, and the writes of a
request. -/
def clockReading (s : Sys) : Label → Option ℤ
  | .sched i =>
    match s.pc with
    | .taking (_ :: _) _ => some i.now
    | _ => none
  | .post _ _ _ now => some now
  | .write _ now => some now
  | _ => none

/-- The system beside a clock that does not go back. -/
def clocked (cfg : Settings) : ℤ × Sys → Label → Option (ℤ × Sys) :=
  withClock (step cfg) clockReading

/-- Users do not set `is_active`, and nothing is deleted. -/
def EditsTimes : Label → Prop
  | .read _ body => body.isActive = none
  | .deleteEntry _ => False
  | _ => True

instance : DecidablePred EditsTimes
  | .sched _ => .isTrue trivial
  | .finalizer _ _ => .isTrue trivial
  | .measure _ => .isTrue trivial
  | .stop => .isTrue trivial
  | .crash => .isTrue trivial
  | .post _ _ _ _ => .isTrue trivial
  | .read _ body => inferInstanceAs (Decidable (body.isActive = none))
  | .write _ _ => .isTrue trivial
  | .deleteEntry _ => .isFalse id
  | .deleteResult _ => .isTrue trivial

/-- The times issued to one entry, in this order. -/
def timesIssued (s : Sys) (name : String) : List ℤ :=
  ((issuedTimes s).filter fun x => x.1 = name).map Prod.snd

/-- What a step makes of the times issued and of the instances that are held. -/
inductive IssueStep (s : Sys) (l : Label) (t : Sys) : Prop
  | keep (hissued : (issuedTimes t).Sublist (issuedTimes s))
      (hheld : ∀ e ∈ t.pc.held, ∃ a ∈ s.pc.held, a.name = e.name ∧ ∀ x, a.Spent x → e.Spent x)
  | snapshot (hissued : issuedTimes t = issuedTimes s) (hheld : t.pc.held = s.db.activeEntries)
  | take (i : Input) (e : ScheduleEntry) (todo : List ScheduleEntry) (queue : TaskQueue ℕ)
      (hl : l = .sched i) (hpc : s.pc = .taking (e :: todo) queue)
      (hheld : t.pc.held = (e.takePending i.now).2 :: todo)
      (hissued : issuedTimes t = issuedTimes s ++
        (e.dueTime i.now).toList.map fun time => (e.name, time))
      (hstored : (t.db.getEntry e.name).isSome)
      (hrow : ∀ row, t.db.getEntry e.name = some row →
        ∀ x, (e.takePending i.now).2.Spent x → row.Spent x)

theorem schedMove_issueStep (h : SchedMove cfg i s t) : IssueStep s (.sched i) t := by
  cases h with
  | take e todo queue hpc hstored =>
    obtain ⟨old, hold⟩ := Option.isSome_iff_exists.mp hstored
    have hcolumns : ∀ row, ((e.takePending i.now).2.writeTimes row).name = row.name := fun _ => rfl
    have hread := Database.getEntry_writeRow hcolumns hold e.name
    rw [if_pos rfl] at hread
    refine .take i e todo queue rfl hpc rfl ?_ (Option.isSome_iff_exists.mpr ⟨_, hread⟩) ?_
    · cases hdue : e.dueTime i.now with
      | none => simp [issuedTimes, hpc, Pc.dueTimes, Event.queuedTask]
      | some time => simp [issuedTimes, hpc, Pc.dueTimes, Event.queuedTask]
    · intro row hrow x hspent
      obtain rfl := Option.some.inj (hrow.symm.trans hread)
      exact hspent
  | read hpc => exact .snapshot (by simp [issuedTimes, hpc, Pc.dueTimes]) rfl
  | cancel taskTime e todo queue hpc =>
    refine .keep ?_ ?_
    · cases taskTime <;> simp [issuedTimes, hpc, Pc.settled, Pc.dueTimes]
    · intro a ha
      rw [hpc]
      rcases List.mem_cons.mp ((Pc.held_settled taskTime _ todo queue).subset ha) with rfl | ha
      · exact ⟨e, List.mem_cons_self, rfl, fun _ _ => .inl rfl⟩
      · exact ⟨a, List.mem_cons_of_mem e ha, rfl, fun _ h => h⟩
  | keep taskTime e todo queue hpc =>
    refine .keep ?_ ?_
    · cases taskTime <;> simp [issuedTimes, hpc, Pc.settled, Pc.dueTimes]
    · intro a ha
      exact ⟨a, hpc ▸ (Pc.held_settled taskTime e todo queue).subset ha, rfl, fun _ h => h⟩
  | number taskTime e todo queue hpc =>
    refine .keep (by simp [issuedTimes, hpc, Pc.dueTimes, Event.queuedTask]) ?_
    intro a ha
    exact ⟨a, by rw [hpc]; exact List.mem_cons_of_mem e ha, rfl, fun _ h => h⟩
  | jump pc hjump =>
    refine .keep ?_ (fun e he => ⟨e, hjump.held ▸ he, rfl, fun _ h => h⟩)
    have hnone : pc.dueTimes = [] := by cases hjump <;> rfl
    simp [issuedTimes, hnone]
  | finalize f f' tasks w hpc hmove | finalized f tasks w hpc hmove =>
    exact .keep (by simp [issuedTimes, Pc.dueTimes, hmove.tasks.2.2]) (fun _ he => by cases he)
  | finalizeRaise f tasks err w hpc hraise =>
    exact .keep (by simp [issuedTimes, Pc.dueTimes, hraise.queuedTasks]) (fun _ he => by cases he)
  | _ =>
    exact .keep (by simp [issuedTimes, Pc.dueTimes, Event.queuedTask]) (fun _ he => by cases he)

theorem step_issueStep (h : step cfg s l = some t) : IssueStep s l t := by
  have hsame : ∀ e ∈ s.pc.held, ∃ a ∈ s.pc.held, a.name = e.name ∧ ∀ x, a.Spent x → e.Spent x :=
    fun e he => ⟨e, he, rfl, fun _ h => h⟩
  cases step_cases h with
  | sched i s' hmove => exact schedMove_issueStep hmove
  | finalizer k i f f' w hf hmove =>
    exact .keep (by simp [issuedTimes, hmove.tasks.2.2]) hsame
  | finalizerEnd k i f w hf hmove =>
    exact .keep (by simp [issuedTimes, hmove.tasks.2.2]) hsame
  | finalizerRaise k i f err w hf hraise =>
    exact .keep (by simp [issuedTimes, hraise.queuedTasks]) hsame
  | crash => exact .keep (by simp [issuedTimes, Pc.dueTimes]) (fun _ he => by cases he)
  | _ => exact .keep (.refl _) hsame

/-- The times issued are in order and behind all that can still be asked for. -/
structure Unreplayed (x : ℤ × Sys) : Prop where
  names : NamesUnique x.2.db
  live : x.2.pc.liveNames.Nodup
  increasing : ∀ name, (timesIssued x.2 name).Pairwise (· < ·)
  past : ∀ y ∈ issuedTimes x.2, y.2 ≤ x.1
  known : ∀ y ∈ issuedTimes x.2, (x.2.db.getEntry y.1).isSome
  rows : ∀ y ∈ issuedTimes x.2, ∀ row, x.2.db.getEntry y.1 = some row → row.Spent y.2
  held : ∀ y ∈ issuedTimes x.2, ∀ e ∈ x.2.pc.held, e.name = y.1 → e.Spent y.2
  bodies : ∀ q ∈ x.2.requests, q.body.isActive = none

/-- An update leaves the times before its clock reading spent. -/
theorem Request.spent_saved {q : Request} {time now : ℤ} (hbody : q.body.isActive = none)
    (hspent : q.entry.Spent time) (hlt : time ≤ now) : (q.saved now).Spent time := by
  obtain hoff | hnext := hspent
  · left
    rw [Request.saved_isActive, hbody]
    exact hoff
  · right
    unfold Request.saved ScheduleEntry.reschedule
    split_ifs
    · show time < max _ (now + 1)
      exact lt_max_of_lt_right (by omega)
    · exact hnext

/-- Rows stay behind what has been issued before the step. -/
theorem Unreplayed.rows_step {c c' : ℤ} (hs : Unreplayed (c, s)) (hclock : c ≤ c')
    (hreading : ∀ now, clockReading s l = some now → c' = now) (hl : EditsTimes l)
    (hatomic : AtomicRequests s l) (h : step cfg s l = some t) {y : String × ℤ}
    (hy : y ∈ issuedTimes s) {row : ScheduleEntry} (hrow : t.db.getEntry y.1 = some row) :
    row.Spent y.2 := by
  have hstep := step_row h y.1
  rw [hrow] at hstep
  generalize hout : some row = out at hstep
  cases hstep with
  | same => exact hs.rows y hy row hout.symm
  | reset i e todo last old hl hpc hname hlast hold =>
    obtain rfl := Option.some.inj hout
    exact hs.rows y hy old hold
  | take i e todo queue old hl hpc hname hold =>
    obtain rfl := Option.some.inj hout
    have he : e ∈ s.pc.held := by
      rw [hpc]
      exact List.mem_cons_self
    exact (hs.held y hy e he hname).takeUntil (i.now + 1)
  | cancel i taskTime e todo queue old hl hpc hname hleft hold =>
    obtain rfl := Option.some.inj hout
    exact .inl rfl
  | number i taskTime e todo queue old hl hpc hname hold =>
    obtain rfl := Option.some.inj hout
    exact hs.rows y hy old hold
  | write k now q hk hq hname =>
    obtain rfl := Option.some.inj hout
    subst hk
    have hnow : c' = now := hreading now rfl
    have hstored : s.db.getEntry y.1 = some q.entry := hname ▸ hatomic q hq
    exact Request.spent_saved (hs.bodies q (List.mem_of_getElem? hq)) (hs.rows y hy q.entry hstored)
      (hnow ▸ (hs.past y hy).trans hclock)
  | post owner action body now hl hnew hloaded =>
    have hknown := hs.known y hy
    rw [hnew] at hknown
    cases hknown
  | delete hk =>
    subst hk
    exact hl.elim

theorem Unreplayed.known_step {c : ℤ} (hs : Unreplayed (c, s)) (hl : EditsTimes l)
    (h : step cfg s l = some t) {y : String × ℤ} (hy : y ∈ issuedTimes s) :
    (t.db.getEntry y.1).isSome := by
  have hstep := step_row h y.1
  generalize t.db.getEntry y.1 = out at hstep
  cases hstep with
  | same => exact hs.known y hy
  | delete hk =>
    subst hk
    exact hl.elim
  | _ => rfl

theorem bodies_step (hs : ∀ q ∈ s.requests, q.body.isActive = none) (hl : EditsTimes l)
    (h : step cfg s l = some t) : ∀ q ∈ t.requests, q.body.isActive = none := by
  intro q hq
  cases step_cases h with
  | sched i s' hmove => cases hmove <;> exact hs q hq
  | crash => cases hq
  | read name body e he =>
    rcases List.mem_append.mp hq with hq | hq
    · exact hs q hq
    · rw [List.mem_singleton.mp hq]
      exact hl
  | write k now q' hq' => exact hs q (List.mem_of_mem_eraseIdx hq)
  | _ => exact hs q hq

/-- The time that a take queues is later than all that were issued for the entry. -/
theorem Unreplayed.due_after {c : ℤ} (hs : Unreplayed (c, s)) {e : ScheduleEntry}
    (he : e ∈ s.pc.held) {now time : ℤ} (hdue : e.dueTime now = some time) :
    ∀ old ∈ timesIssued s e.name, old < time := by
  intro old hold
  obtain ⟨y, hy, rfl⟩ := List.mem_map.mp hold
  obtain ⟨hy, hname⟩ := List.mem_filter.mp hy
  have hremaining := (ScheduleEntry.dueTime_eq_some hdue).1.1
  obtain hoff | hlt := hs.held y hy e he (of_decide_eq_true hname).symm
  · rw [hremaining.1] at hoff
    cases hoff
  · exact hlt.trans_le (ScheduleEntry.nextTaskTime_le hremaining)

/-- A take issues a time that is later than those before it, and leaves it spent. -/
theorem Unreplayed.take {c c' : ℤ} (hs : Unreplayed (c, s)) (hclock : c ≤ c')
    (hreading : ∀ now, clockReading s l = some now → c' = now) (hl : EditsTimes l)
    (hatomic : AtomicRequests s l) (h : step cfg s l = some t) {e : ScheduleEntry}
    {todo : List ScheduleEntry} {queue : TaskQueue ℕ} (hk : l = .sched i)
    (hpc : s.pc = .taking (e :: todo) queue) (hheld : t.pc.held = (e.takePending i.now).2 :: todo)
    (hissued : issuedTimes t = issuedTimes s ++
      (e.dueTime i.now).toList.map fun time => (e.name, time))
    (hstored : (t.db.getEntry e.name).isSome)
    (hrow : ∀ row, t.db.getEntry e.name = some row →
      ∀ x, (e.takePending i.now).2.Spent x → row.Spent x) : Unreplayed (c', t) := by
  have hsheld : s.pc.held = e :: todo := by
    rw [hpc]
    rfl
  have he : e ∈ s.pc.held := hsheld ▸ List.mem_cons_self
  have hnow : c' = i.now := by
    apply hreading
    rw [hk, clockReading, hpc]
  have hnew {y : String × ℤ} (hy : y ∈ issuedTimes t) : y ∈ issuedTimes s ∨
      ∃ time, e.dueTime i.now = some time ∧ y = (e.name, time) := by
    rw [hissued] at hy
    rcases List.mem_append.mp hy with hy | hy
    · exact .inl hy
    · obtain ⟨time, htime, rfl⟩ := List.mem_map.mp hy
      exact .inr ⟨time, Option.mem_toList.mp htime, rfl⟩
  refine ⟨step_names hs.names h, nodup_of_liveNames hs.live hs.names h, ?_, ?_, ?_, ?_, ?_,
    bodies_step hs.bodies hl h⟩
  · intro name
    have hold := hs.increasing name
    unfold timesIssued at hold ⊢
    rw [hissued, List.filter_append, List.map_append]
    cases hdue : e.dueTime i.now with
    | none => simpa using hold
    | some time =>
      by_cases hname : e.name = name
      · subst hname
        refine List.pairwise_append.mpr ⟨hold, by simp, ?_⟩
        intro old hmem new hnew
        have heq : new = time := by simpa using hnew
        rw [heq]
        exact hs.due_after he hdue old hmem
      · simpa [hname] using hold
  · intro y hy
    obtain hold | ⟨time, hdue, rfl⟩ := hnew hy
    · exact (hs.past y hold).trans hclock
    · exact hnow ▸ (ScheduleEntry.dueTime_eq_some hdue).1.2
  · intro y hy
    obtain hold | ⟨time, hdue, rfl⟩ := hnew hy
    · exact hs.known_step hl h hold
    · exact hstored
  · intro y hy row hread
    obtain hold | ⟨time, hdue, rfl⟩ := hnew hy
    · exact hs.rows_step hclock hreading hl hatomic h hold hread
    · exact hrow row hread time (spent_dueTime hdue)
  · intro y hy a ha hname
    rw [hheld] at ha
    obtain hold | ⟨time, hdue, rfl⟩ := hnew hy
    · rcases List.mem_cons.mp ha with rfl | ha
      · rw [ScheduleEntry.takePending_name] at hname
        exact (hs.held y hold e he hname).takeUntil (i.now + 1)
      · exact hs.held y hold a (hsheld ▸ List.mem_cons_of_mem e ha) hname
    · rcases List.mem_cons.mp ha with rfl | ha
      · exact spent_dueTime hdue
      · exact absurd hname (ne_of_mem_todo hs.live hsheld ha).1

theorem Unreplayed.step {c c' : ℤ} (hs : Unreplayed (c, s)) (hclock : c ≤ c')
    (hreading : ∀ now, clockReading s l = some now → c' = now) (hl : EditsTimes l)
    (hatomic : AtomicRequests s l) (h : step cfg s l = some t) : Unreplayed (c', t) := by
  have hnames := step_names hs.names h
  have hlive := nodup_of_liveNames hs.live hs.names h
  have hbodies := bodies_step hs.bodies hl h
  have hrows {y : String × ℤ} (hy : y ∈ issuedTimes s) (row : ScheduleEntry)
      (hrow : t.db.getEntry y.1 = some row) := hs.rows_step hclock hreading hl hatomic h hy hrow
  have hknown {y : String × ℤ} (hy : y ∈ issuedTimes s) := hs.known_step hl h hy
  have hpast {y : String × ℤ} (hy : y ∈ issuedTimes s) : y.2 ≤ c' := (hs.past y hy).trans hclock
  cases step_issueStep h with
  | keep hissued hheld =>
    refine ⟨hnames, hlive, ?_, fun y hy => hpast (hissued.subset hy),
      fun y hy => hknown (hissued.subset hy), fun y hy => hrows (hissued.subset hy), ?_, hbodies⟩
    · intro name
      exact (hs.increasing name).sublist ((hissued.filter _).map _)
    · intro y hy e he hname
      obtain ⟨a, ha, hsame, hspent⟩ := hheld e he
      exact hspent y.2 (hs.held y (hissued.subset hy) a ha (hsame.trans hname))
  | snapshot hissued hheld =>
    refine ⟨hnames, hlive, ?_, fun y hy => hpast (hissued ▸ hy), fun y hy => hknown (hissued ▸ hy),
      fun y hy => hrows (hissued ▸ hy), ?_, hbodies⟩
    · intro name
      unfold timesIssued
      rw [hissued]
      exact hs.increasing name
    · intro y hy e he hname
      rw [hissued] at hy
      rw [hheld] at he
      have hstored := Database.getEntry_of_mem_activeEntries hs.names he
      exact hs.rows y hy e (hname ▸ hstored)
  | take i e todo queue hk hpc hheld hissued hstored hrow =>
    exact hs.take hclock hreading hl hatomic h hk hpc hheld hissued hstored hrow

/-- An update that moves the start or the interval lets the entry go on at its start, but
not before the next second, and any other update leaves its next time. -/
def MovesNextTime (cfg : Settings) (s : Sys) (l : Label) : Prop :=
  ∀ k now q, l = .write k now → s.requests[k]? = some q → ∀ t, step cfg s l = some t →
    ∃ old new, s.db.getEntry q.entry.name = some old ∧ t.db.getEntry q.entry.name = some new ∧
      new.nextTaskTime = if new.start ≠ old.start ∨ new.interval ≠ old.interval
        then max new.start (now + 1) else old.nextTaskTime

theorem movesNextTime (hatomic : AtomicRequests s l) : MovesNextTime cfg s l := by
  intro k now q hl hq t h
  subst hl
  have hstored := hatomic q hq
  have ht : t.db = s.db.saveWhole (q.saved now) := by
    obtain ⟨q', hq', rfl⟩ := Option.map_eq_some_iff.mp h
    rw [Option.some.inj (hq'.symm.trans hq)]
  refine ⟨q.entry, q.saved now, hstored, ?_, ?_⟩
  · rw [ht, ← q.saved_name now]
    exact Database.getEntry_saveWhole_self s.db (q.saved now)
  · unfold Request.saved ScheduleEntry.reschedule
    by_cases hmoved : (q.entry.assign q.body).start ≠ q.entry.start ∨
        (q.entry.assign q.body).interval ≠ q.entry.interval
    · rw [if_pos hmoved, if_pos hmoved]
    · rw [if_neg hmoved, if_neg hmoved]
      rfl

/-- The queued times are the first of the issued ones. -/
theorem timesIssued_eq (s : Sys) (name : String) : timesIssued s name =
    timesQueued s.history name ++ (s.pc.dueTimes.filter fun x => x.1 = name).map Prod.snd := by
  simp [timesIssued, issuedTimes, timesQueued, List.filter_map, Function.comp_def]

/-- A process that starts on stored entries, and has queued nothing. -/
theorem unreplayed_start (c : ℤ) {db : Database} (hnames : NamesUnique db) :
    Unreplayed (c, { db := db }) := by
  refine ⟨hnames, List.nodup_nil, fun _ => List.Pairwise.nil, ?_, ?_, ?_, ?_, ?_⟩
  · intro y hy
    cases hy
  · intro y hy
    cases hy
  · intro y hy
    cases hy
  · intro y hy
    cases hy
  · intro q hq
    cases hq

/-- In every run beside a clock that does not go back, with updates of anything but
`is_active` between any two steps, the times queued for every entry are strictly
increasing, and every update moves the next time exactly when it moves the start or the
interval. -/
theorem edits_never_replay (cfg : Settings) (db : Database) (hnames : NamesUnique db) (c₀ : ℤ)
    (ls : List Label) (x : ℤ × Sys) (hls : ∀ l ∈ ls, EditsTimes l)
    (hatomic : Along (step cfg) AtomicRequests { db := db } ls)
    (hrun : exec (clocked cfg) (c₀, { db := db }) ls = some x) :
    (∀ name, (timesQueued x.2.history name).Pairwise (· < ·)) ∧
      Along (step cfg) (MovesNextTime cfg) { db := db } ls := by
  have hstep : ∀ x l y, Unreplayed x → EditsTimes l ∧ AtomicRequests x.2 l →
      clocked cfg x l = some y → Unreplayed y := by
    intro x l y hx hl h
    obtain ⟨hclock, hs, hreading⟩ := withClock_some h
    exact hx.step hclock hreading hl.1 hl.2 hs
  have hquiet : Along (clocked cfg) (fun _ l => EditsTimes l) (c₀, { db := db }) ls :=
    Along.of_forall_mem fun l hl _ => hls l hl
  have hend := exec_invariant hstep (unreplayed_start c₀ hnames) (hquiet.and hatomic.withClock) hrun
  constructor
  · intro name
    have hincreasing := hend.increasing name
    rw [timesIssued_eq] at hincreasing
    exact hincreasing.sublist (List.sublist_append_left _ _)
  · exact hatomic.mono fun _ _ => movesNextTime

/-- After the first task the start of the entry is moved, and a later pass takes its next
task. -/
def movedStart : List Label :=
  upToAction 0 ++ List.replicate 8 (.sched {}) ++
    [.read "sweep" { start := some 25 }, .write 0 10] ++ List.replicate 8 (.sched { now := 30 })

theorem edits_never_replay_movedStart :
    ∃ x, exec (clocked inThread) (0, { db := { schedule := everyTen } }) movedStart = some x ∧
      timesQueued x.2.history "sweep" = [0, 25] ∧
      (∀ name, (timesQueued x.2.history name).Pairwise (· < ·)) ∧
      Along (step inThread) (MovesNextTime inThread) { db := { schedule := everyTen } }
        movedStart := by
  have hruns : (exec (clocked inThread) (0, { db := { schedule := everyTen } }) movedStart).map
      (fun x => timesQueued x.2.history "sweep") = some [0, 25] := by decide
  obtain ⟨x, hx, hqueued⟩ := Option.map_eq_some_iff.mp hruns
  have hnames : NamesUnique { schedule := everyTen } := by
    unfold NamesUnique
    decide
  exact ⟨x, hx, hqueued, edits_never_replay inThread { schedule := everyTen } hnames 0 movedStart x
    (by decide) (by decide) hx⟩

end Scheduler

end ScosSensor
