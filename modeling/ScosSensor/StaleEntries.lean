import ScosSensor.EntryDeletion

/-!
# Entries whose action is no longer loaded

The constructor of `ScheduleEntry` refuses an action that is not loaded, and it
runs for every row that a query loads. One such row among the active ones ends
the scheduler thread at its first load, and one on a page of the API ends the
request. Without them every pass executes the due tasks of all active entries.
-/
namespace ScosSensor

/-- What a process leaves in the database: the integrity of the tables, results
below the counters of their entries, and rows in the order of the task ids. -/
structure Database.LeftBehind (db : Database) : Prop where
  names : (db.schedule.map ScheduleEntry.name).Nodup
  ids : ∀ r ∈ db.results, ∃ e, db.getEntry r.scheduleEntry = some e ∧ r.taskId < e.nextTaskId
  fresh : ∀ r ∈ db.results, r.id < db.nextId
  data : ∀ a ∈ db.acquisitions, a.taskResult < db.nextId
  ordered : Ordered db.marks

namespace Pc

/-- The entries of the snapshot that a pass has not come to. -/
def todo : Pc → List ScheduleEntry
  | .taking todo _ => todo
  | .completing _ _ todo _ => todo
  | .numbering _ _ todo _ => todo
  | _ => []

/-- The steps from a start on `n` active entries to the first pass. -/
def toPass (n : ℕ) : Pc → ℕ
  | .starting => n + 3
  | .resetting todo => todo.length + 2
  | .checking => 1
  | _ => 0

end Pc

namespace Scheduler

open Runs

variable {cfg : Settings} {s t : Sys} {l : Label} {i : Input} {e : ScheduleEntry}

/-- The steps of a process that gets no requests. -/
def Unattended : Label → Prop
  | .sched _ => True
  | .finalizer _ _ => True
  | .measure _ => True
  | .stop => True
  | _ => False

instance : DecidablePred Unattended
  | .sched _ => .isTrue trivial
  | .finalizer _ _ => .isTrue trivial
  | .measure _ => .isTrue trivial
  | .stop => .isTrue trivial
  | .crash => .isFalse id
  | .post _ _ _ _ => .isFalse id
  | .read _ _ => .isFalse id
  | .write _ _ => .isFalse id
  | .deleteEntry _ => .isFalse id
  | .deleteResult _ => .isFalse id

theorem Unattended.deletesOnly (hl : Unattended l) : DeletesOnly l := by
  cases l with
  | sched | finalizer | measure | stop => trivial
  | _ => exact hl.elim

theorem not_crash (hl : Unattended l) : l ≠ .crash := by
  rintro rfl
  exact hl

/-- The row that is serialized next has timestamps that can be, the action that ends
leaves a text, the detail that is saved next can be stored, and the limit that is
compared next is a number. -/
def Ordinary (cfg : Settings) (s : Sys) : Label → Prop
  | .sched i =>
    match s.pc with
    | .calling task _ _ =>
      (s.db.getEntry task.scheduleEntryName).all ScheduleEntry.serializable = true
    | .acting _ _ _ _ => i.action.text.isSome = true
    | .finalizing f _ =>
      match f.stage with
      | .writing site => site = .response ∨ f.result.detail.storable = true
      | .counting => cfg.maxFailures.isNumber = true
      | _ => True
    | _ => True
  | _ => True

/-- The thread is dead, and an entry with a loaded action has times left. -/
def Disabled (cfg : Settings) (s : Sys) : Prop :=
  Dead s ∧ ∃ e ∈ s.db.activeEntries, cfg.loads e = true ∧ e.remaining.Nonempty

/-- In the run `ls` from `s` the thread comes to the entry with the input `i`: it takes
the due times of its instance at this reading of the clock. -/
def Reads (cfg : Settings) (s : Sys) (ls : List Label) (e : ScheduleEntry) (i : Input) : Prop :=
  ∃ before after s' todo queue, ls = before ++ .sched i :: after ∧
    exec (step cfg) s before = some s' ∧ s'.pc = .taking (e :: todo) queue

/-- The pass with the number `pass` has visited the entry at one of the readings, and
has queued the task that was due then. -/
def Visited (readings : Input → Prop) (pass : ℕ) (e : ScheduleEntry) (s : Sys) : Prop :=
  ∃ i, readings i ∧ ∀ time, e.dueTime i.now = some time →
    ∃ id, (pass, ⟨time, e.priority, e.action, e.name, id⟩) ∈ queuedTasks s.history

/-- The pass has visited the entry so, and the task that was due then is executed. -/
def Executed (readings : Input → Prop) (pass : ℕ) (e : ScheduleEntry) (s : Sys) : Prop :=
  ∃ i, readings i ∧ ∀ time, e.dueTime i.now = some time →
    ∃ id, (pass, ⟨time, e.priority, e.action, e.name, id⟩) ∈ queuedTasks s.history ∧
      ⟨time, e.priority, e.action, e.name, id⟩ ∈ completedTasks s.history

/-- The sensor is not disabled, and a pass that begins here executes the due tasks
of every active entry whose action is loaded, within a bounded number of steps. -/
structure Serves (cfg : Settings) (s : Sys) : Prop where
  enabled : ¬ Disabled cfg s
  passes : s.pc = .reading → ∀ i ls t, (∀ l ∈ ls, Unattended l) →
    Along (step cfg) (Ordinary cfg) s (.sched i :: ls) →
    exec (step cfg) s (.sched i :: ls) = some t →
    16 * s.db.activeEntries.length + 2 ≤ ls.countP Label.isSched →
    ∀ e ∈ s.db.activeEntries, cfg.loads e = true →
      Executed (Reads cfg s (.sched i :: ls) e) (s.passes + 1) e t

/-- The thread has come to a pass. -/
def Begun (s : Sys) : Prop := s.pc = .reading ∨ 1 ≤ s.passes

/-- In every run of a process that starts on `db`, as far as the other exceptions
of its loads do not occur, the thread comes to a pass and serves in each of them. -/
def KeepsServing (cfg : Settings) (db : Database) : Prop :=
  ∀ ls t, (∀ l ∈ ls, Unattended l) → Along (step cfg) (Ordinary cfg) { db := db } ls →
    exec (step cfg) { db := db } ls = some t →
    Serves cfg t ∧ ((∃ e ∈ db.activeEntries, cfg.loads e = true ∧ e.remaining.Nonempty) →
      db.activeEntries.length + 3 ≤ ls.countP Label.isSched → Begun t)

/-! ### A process that starts on what another has left -/

theorem healthy_of_leftBehind {db : Database} (hdb : db.LeftBehind) : Healthy cfg { db := db } := by
  have hstart := wellNumbered_start hdb.names hdb.ids
  have hmarks : ∀ m ∈ Sys.marks { db := db }, m ∈ db.marks := by
    intro m hm
    simpa [Sys.marks, Sys.openResults, Pc.running, Database.marks] using hm
  have hrows : RowOrder { db := db } := by
    refine ⟨?_, hdb.data, hdb.ordered.subset hmarks⟩
    intro m hm
    obtain ⟨r, hr, rfl⟩ := List.mem_map.mp (hmarks m hm)
    exact hdb.fresh r hr
  refine ⟨hstart.names, hstart.restarted, hstart.numbered, hstart.past, hrows, callsStored_start _,
    inThread_start cfg _, ?_, ?_, ?_, ?_, ?_⟩
  · intro r hr
    obtain ⟨e, he, -⟩ := hdb.ids r hr
    exact Option.isSome_iff_exists.mpr ⟨e, he⟩
  · intro name hname
    cases hname
  · intro name hname
    cases hname
  · rintro ⟨err, hpc⟩
    cases hpc
  · intro x hx
    cases hx

/-! ### The rows that can be loaded -/

/-- The active rows and the rows that the thread works on name loaded actions. -/
structure LoadedRows (cfg : Settings) (s : Sys) : Prop where
  active : ∀ name e, s.db.getEntry name = some e → e.isActive = true → cfg.loads e = true
  live : ∀ name ∈ s.pc.liveNames, ∀ e, s.db.getEntry name = some e → cfg.loads e = true

theorem getEntry_of_active (hnames : NamesUnique s.db) (he : e ∈ s.db.activeEntries) :
    s.db.getEntry e.name = some e ∧ e.isActive = true :=
  ⟨Database.getEntry_of_mem_activeEntries hnames he, (Database.mem_activeEntries.mp he).2⟩

/-- Without requests a row keeps its action, and only a row that the thread works
on can be switched on. -/
theorem step_action (hl : Unattended l) (h : step cfg s l = some t) {name : String}
    {e' : ScheduleEntry} (he' : t.db.getEntry name = some e') :
    ∃ e, s.db.getEntry name = some e ∧ e'.action = e.action ∧
      (e'.isActive = true → e.isActive = true ∨ name ∈ s.pc.liveNames) := by
  have hrow := step_row h name
  rw [he'] at hrow
  generalize hout : some e' = out at hrow
  cases hrow with
  | same => exact ⟨e', hout.symm, rfl, .inl⟩
  | reset i e todo last row hl hpc hname hlast hrow | number i taskTime e todo queue row hl hpc hname hrow =>
    obtain rfl := Option.some.inj hout
    exact ⟨row, hrow, rfl, .inl⟩
  | take i e todo queue row hl hpc hname hrow =>
    obtain rfl := Option.some.inj hout
    refine ⟨row, hrow, rfl, fun _ => .inr ?_⟩
    simp [hpc, Pc.liveNames, Pc.held, hname]
  | cancel i taskTime e todo queue row hl hpc hname hleft hrow =>
    obtain rfl := Option.some.inj hout
    refine ⟨row, hrow, rfl, ?_⟩
    intro hactive
    cases hactive
  | write k now q hwrite =>
    rw [hwrite] at hl
    exact hl.elim
  | post owner action body now hpost =>
    rw [hpost] at hl
    exact hl.elim
  | delete => cases hout

theorem LoadedRows.step (hs : LoadedRows cfg s) (hnames : NamesUnique s.db) (hl : Unattended l)
    (h : step cfg s l = some t) : LoadedRows cfg t := by
  have hloads {e e' : ScheduleEntry} (haction : e'.action = e.action) (he : cfg.loads e = true) :
      cfg.loads e' = true := by
    unfold Settings.loads at he ⊢
    rwa [haction]
  constructor
  · intro name e' he' hactive'
    obtain ⟨e, he, haction, hactive⟩ := step_action hl h he'
    obtain hon | hlive := hactive hactive'
    · exact hloads haction (hs.active name e he hon)
    · exact hloads haction (hs.live name hlive e he)
  · intro name hname e' he'
    obtain ⟨e, he, haction, -⟩ := step_action hl h he'
    obtain hsub | ⟨-, hsnapshot⟩ := step_liveNames h
    · exact hloads haction (hs.live name (hsub.subset hname) e he)
    · rw [hsnapshot] at hname
      obtain ⟨a, ha, rfl⟩ := List.mem_map.mp hname
      obtain ⟨hstored, hon⟩ := getEntry_of_active hnames ha
      obtain rfl := Option.some.inj (hstored.symm.trans he)
      exact hloads haction (hs.active _ a hstored hon)

/-- With all these rows loaded, an ordinary step is one that the thread survives. -/
theorem LoadedRows.runsThrough (hs : LoadedRows cfg s) (hhealthy : Healthy cfg s)
    (hl : Unattended l) (hordinary : Ordinary cfg s l) : RunsThrough cfg s l := by
  have hactive : s.db.activeEntries.all cfg.loads = true := by
    refine List.all_eq_true.mpr fun e he => ?_
    obtain ⟨hstored, hon⟩ := getEntry_of_active hhealthy.names he
    exact hs.active _ e hstored hon
  have hlive {name : String} (hname : name ∈ s.pc.liveNames) :
      (s.db.getEntry name).all cfg.loads = true := by
    cases hrow : s.db.getEntry name with
    | none => rfl
    | some e => exact hs.live name hname e hrow
  cases l with
  | sched i =>
    show sound cfg i s = true
    unfold sound
    unfold Ordinary at hordinary
    cases hpc : s.pc with
    | starting | reading => exact hactive
    | consuming tasks =>
      cases tasks with
      | nil => rfl
      | cons task tasks => exact hlive (by simp [hpc, Pc.liveNames, Pc.waiting])
    | calling task result tasks =>
      have hname : result.scheduleEntry = task.scheduleEntryName :=
        congrArg Prod.fst (hhealthy.calls task result tasks hpc).key
      have hmem : task.scheduleEntryName ∈ s.pc.liveNames := by
        simp [hpc, Pc.liveNames, Pc.running, hname]
      have hloads := hlive hmem
      rw [hpc] at hordinary
      dsimp only at hordinary ⊢
      cases hrow : s.db.getEntry task.scheduleEntryName with
      | none => rfl
      | some e => simp_all
    | acting task result started tasks =>
      rw [hpc] at hordinary
      exact hordinary
    | finalizing f tasks =>
      rw [hpc] at hordinary
      dsimp only at hordinary ⊢
      cases hstage : f.stage with
      | writing site => simpa [hstage] using hordinary
      | counting => simpa [hstage] using hordinary
      | _ => rfl
    | _ => rfl
  | finalizer | measure | stop => trivial
  | _ => exact hl.elim

/-! ### The visit of an entry -/

/-- In a step that comes to the entry the thread reads one of `readings`. -/
def ReadsAt (readings : Input → Prop) (e : ScheduleEntry) (s : Sys) (l : Label) : Prop :=
  ∀ i todo queue, l = .sched i → s.pc = .taking (e :: todo) queue → readings i

/-- The pass still has to come to the entry, or is at it: what it holds then has
been computed from the clock. -/
def Awaits (readings : Input → Prop) (e : ScheduleEntry) (pc : Pc) : Prop :=
  e ∈ pc.todo ∨
    match pc with
    | .completing taskTime e' _ _ =>
      ∃ i, readings i ∧ taskTime = e.dueTime i.now ∧ e' = (e.takePending i.now).2
    | .numbering taskTime e' _ _ =>
      ∃ i, readings i ∧ e.dueTime i.now = some taskTime ∧
        e'.name = e.name ∧ e'.priority = e.priority ∧ e'.action = e.action
    | _ => False

theorem Visited.mono {readings : Input → Prop} {pass : ℕ} (hs : Visited readings pass e s)
    (hqueued : ∀ x ∈ queuedTasks s.history, x ∈ queuedTasks t.history) :
    Visited readings pass e t := by
  obtain ⟨i, hi, hdue⟩ := hs
  refine ⟨i, hi, fun time htime => ?_⟩
  obtain ⟨id, hid⟩ := hdue time htime
  exact ⟨id, hqueued _ hid⟩

theorem queuedTasks_subset (h : step cfg s l = some t) :
    ∀ x ∈ queuedTasks s.history, x ∈ queuedTasks t.history := by
  intro x hx
  obtain heq | ⟨taskTime, e, todo, queue, -, heq⟩ := step_queued h
  · rwa [heq]
  · rw [heq]
    exact List.mem_append_left _ hx

/-- After `_cancel_if_completed` the entry is numbered, or has been visited. -/
theorem awaits_settled {readings : Input → Prop} {pass : ℕ} {taskTime : Option ℤ}
    {e' : ScheduleEntry} {todo : List ScheduleEntry} {queue : TaskQueue ℕ}
    (hi : readings i) (htime : taskTime = e.dueTime i.now)
    (hcopy : e'.name = e.name ∧ e'.priority = e.priority ∧ e'.action = e.action) (s : Sys) :
    Awaits readings e (Pc.settled taskTime e' todo queue) ∨ Visited readings pass e s := by
  cases taskTime with
  | none =>
    refine .inr ⟨i, hi, fun time hdue => ?_⟩
    rw [← htime] at hdue
    cases hdue
  | some taskTime => exact .inl (.inr ⟨i, hi, htime.symm, hcopy⟩)

theorem awaits_of_completing {readings : Input → Prop} {pass : ℕ} {taskTime : Option ℤ}
    {e' left : ScheduleEntry} {todo : List ScheduleEntry} {queue : TaskQueue ℕ}
    (hs : Awaits readings e (.completing taskTime e' todo queue))
    (hcopy : left.name = e'.name ∧ left.priority = e'.priority ∧ left.action = e'.action) (s : Sys) :
    Awaits readings e (Pc.settled taskTime left todo queue) ∨ Visited readings pass e s := by
  obtain hlater | ⟨i, hi, htime, rfl⟩ := hs
  · refine .inl (.inl ?_)
    cases taskTime <;> exact hlater
  · have hname := hcopy.1.trans (ScheduleEntry.takePending_name e i.now)
    have hpriority := hcopy.2.1.trans (ScheduleEntry.takeUntil_priority e _)
    have haction := hcopy.2.2.trans (ScheduleEntry.takeUntil_action e _)
    exact awaits_settled hi htime ⟨hname, hpriority, haction⟩ s

/-- A pass comes to every entry of its snapshot. -/
theorem step_awaits {readings : Input → Prop} (hs : Awaits readings e s.pc)
    (hl : Unattended l) (hreading : ReadsAt readings e s l) (h : step cfg s l = some t)
    (halive : ¬ Dead t) :
    t.passes = s.passes ∧ Awaits readings e t.pc ∨ Visited readings s.passes e t := by
  cases step_cases h with
  | sched i s' hmove =>
    cases hmove with
    | raise err => exact absurd ⟨err, rfl⟩ halive
    | finalizeRaise f tasks err w => exact absurd ⟨err, rfl⟩ halive
    | take first todo queue hpc =>
      rw [hpc] at hs
      left
      refine ⟨rfl, ?_⟩
      obtain hmem | hfalse := hs
      · rcases List.mem_cons.mp hmem with rfl | hlater
        · exact .inr ⟨i, hreading i todo queue rfl hpc, rfl, rfl⟩
        · exact .inl hlater
      · exact hfalse.elim
    | keep taskTime e' todo queue hpc =>
      rw [hpc] at hs
      exact (awaits_of_completing hs ⟨rfl, rfl, rfl⟩ _).imp (fun hawaits => ⟨rfl, hawaits⟩) id
    | cancel taskTime e' todo queue hpc =>
      rw [hpc] at hs
      refine (awaits_of_completing hs ?_ _).imp (fun hawaits => ⟨rfl, hawaits⟩) id
      exact ⟨rfl, rfl, rfl⟩
    | number taskTime e' todo queue hpc =>
      rw [hpc] at hs
      obtain hlater | ⟨i', hi', hdue, hname, hpriority, haction⟩ := hs
      · exact .inl ⟨rfl, .inl hlater⟩
      · right
        refine ⟨i', hi', fun time htime => ⟨e'.nextTaskId, ?_⟩⟩
        obtain rfl := Option.some.inj (hdue.symm.trans htime)
        rw [← hname, ← hpriority, ← haction]
        simp [Event.queuedTask]
    | jump pc hjump => cases hjump <;> simp_all [Awaits, Pc.todo]
    | _ => simp_all [Awaits, Pc.todo]
  | crash => exact hl.elim
  | _ => exact .inl ⟨rfl, hs⟩

/-- What the run knows about one entry of a snapshot: it waits for the pass, or
the pass has visited it. -/
def InSnapshot (readings : Input → Prop) (pass : ℕ) (e : ScheduleEntry) (s : Sys) : Prop :=
  s.passes = pass ∧ Awaits readings e s.pc ∨ Visited readings pass e s

theorem InSnapshot.step {readings : Input → Prop} {pass : ℕ} (hs : InSnapshot readings pass e s)
    (hl : Unattended l) (hreading : ReadsAt readings e s l) (h : step cfg s l = some t)
    (halive : ¬ Dead t) : InSnapshot readings pass e t := by
  obtain ⟨rfl, hawaits⟩ | hvisited := hs
  · exact step_awaits hawaits hl hreading h halive
  · exact .inr (hvisited.mono (queuedTasks_subset h))

/-- Outside of its pass an entry does not wait for it. -/
theorem not_awaits_of_stepsLeft {readings : Input → Prop} {pc : Pc} (h : pc.stepsLeft = 0) :
    ¬ Awaits readings e pc := by
  cases pc <;> simp_all [Pc.stepsLeft, Awaits, Pc.todo]

theorem Executed.mono {readings : Input → Prop} {pass : ℕ} (hs : Executed readings pass e s)
    (hqueued : ∀ x ∈ queuedTasks s.history, x ∈ queuedTasks t.history)
    (hcompleted : ∀ x ∈ completedTasks s.history, x ∈ completedTasks t.history) :
    Executed readings pass e t := by
  obtain ⟨i, hi, hdue⟩ := hs
  refine ⟨i, hi, fun time htime => ?_⟩
  obtain ⟨id, hid, hdone⟩ := hdue time htime
  exact ⟨id, hqueued _ hid, hcompleted _ hdone⟩

/-- A thread that has no queued task left has executed what it was visited for. -/
theorem Visited.executed {readings : Input → Prop} {pass : ℕ} (hs : Visited readings pass e s)
    (howed : Owed ((queuedTasks s.history).map Prod.snd) s) (hleft : s.pc.stepsLeft = 0) :
    Executed readings pass e s := by
  obtain ⟨i, hi, hdue⟩ := hs
  refine ⟨i, hi, fun time htime => ?_⟩
  obtain ⟨id, hid⟩ := hdue time htime
  refine ⟨id, hid, ?_⟩
  obtain hdone | hopen := howed _ (List.mem_map_of_mem hid)
  · exact hdone
  · rw [Pc.unfinished_of_stepsLeft hleft] at hopen
    cases hopen

/-! ### Passes with all active entries loaded -/

/-- A thread that survives, on rows that can be loaded. -/
structure Serving (cfg : Settings) (s : Sys) : Prop where
  healthy : Healthy cfg s
  rows : LoadedRows cfg s

theorem Serving.step (hs : Serving cfg s) (hl : Unattended l) (hordinary : Ordinary cfg s l)
    (h : step cfg s l = some t) : Serving cfg t :=
  ⟨hs.healthy.step hl.deletesOnly (hs.rows.runsThrough hs.healthy hl hordinary) h,
    hs.rows.step hs.healthy.names hl h⟩

/-- A pass that has come to its snapshot executes the due task of an entry in it. -/
theorem executes_of_serving {readings : Input → Prop} {ls : List Label} (hs : Serving cfg s)
    (he : InSnapshot readings s.passes e s)
    (hls : Along (step cfg) (fun s l => Unattended l ∧ ReadsAt readings e s l) s ls)
    (hordinary : Along (step cfg) (Ordinary cfg) s ls) (hrun : exec (step cfg) s ls = some t)
    (hcount : s.pc.stepsLeft ≤ ls.countP Label.isSched) : Executed readings s.passes e t := by
  have hstep : ∀ s₁ l s₂, (Serving cfg s₁ ∧ InSnapshot readings s.passes e s₁) →
      (Unattended l ∧ ReadsAt readings e s₁ l) ∧ Ordinary cfg s₁ l →
      step cfg s₁ l = some s₂ → Serving cfg s₂ ∧ InSnapshot readings s.passes e s₂ := by
    intro s₁ l s₂ hs₁ hl h
    have hnext := hs₁.1.step hl.1.1 hl.2 h
    exact ⟨hnext, hs₁.2.step hl.1.1 hl.1.2 h hnext.healthy.alive⟩
  refine exec_reaches (Executed readings s.passes e) (fun s => s.pc.stepsLeft) hstep ?_ ?_ ?_ ⟨hs, he⟩
    (hls.and hordinary) hrun hcount
  · intro s₁ l s₂ hs₁ hl hdone h
    have halive := (hs₁.1.step hl.1.1 hl.2 h).healthy.alive
    exact hdone.mono (queuedTasks_subset h) (step_carries h (not_crash hl.1.1) halive).completed
  · intro s₁ hs₁ hleft
    obtain ⟨-, hawaits⟩ | hvisited := hs₁.2
    · exact absurd hawaits (not_awaits_of_stepsLeft hleft)
    · exact hvisited.executed hs₁.1.healthy.queued hleft
  · intro s₁ l s₂ hs₁ hl hleft h
    exact step_stepsLeft h (not_crash hl.1.1) hleft

theorem serves_of_serving (hs : Serving cfg s) : Serves cfg s := by
  refine ⟨fun hdisabled => hs.healthy.alive hdisabled.1, ?_⟩
  intro hpc i ls t hls hordinary hrun hcount e he hloads
  have hload : s.db.activeEntries.all cfg.loads = true := by
    refine List.all_eq_true.mpr fun a ha => ?_
    obtain ⟨hstored, hon⟩ := getEntry_of_active hs.healthy.names ha
    exact hs.rows.active _ a hstored hon
  obtain ⟨s', hfirst, hrest⟩ := exec_cons.mp hrun
  have hs' : s' = { s with passes := s.passes + 1, pc := .taking s.db.activeEntries [] } := by
    simpa [step, schedStep, hpc, loadSchedule, hload, Sys.orFail] using hfirst.symm
  have hserving := hs.step (show Unattended (.sched i) from trivial) hordinary.1 hfirst
  have hquiet : Along (step cfg) (fun _ l => Unattended l) s' ls :=
    Along.of_forall_mem fun l hl _ => hls l hl
  have hreads : Along (step cfg) (ReadsAt (Reads cfg s (.sched i :: ls) e) e) s' ls := by
    refine (along_position s' ls).mono ?_
    rintro s₁ l ⟨before, after, hsplit, hbefore⟩ i' todo queue rfl hpc'
    exact ⟨.sched i :: before, after, s₁, todo, queue, by rw [hsplit]; rfl,
      exec_cons.mpr ⟨s', hfirst, hbefore⟩, hpc'⟩
  have hpasses : s'.passes = s.passes + 1 := congrArg Sys.passes hs'
  have hsnapshot : InSnapshot (Reads cfg s (.sched i :: ls) e) s'.passes e s' := by
    refine .inl ⟨rfl, .inl ?_⟩
    rw [hs']
    exact he
  rw [← hpasses]
  refine executes_of_serving hserving hsnapshot (hquiet.and hreads) (hordinary.2 s' hfirst) hrest ?_
  rw [hs']
  simpa [Pc.stepsLeft] using hcount

theorem serving_start {db : Database} (hdb : db.LeftBehind)
    (hload : ∀ e ∈ db.activeEntries, cfg.loads e = true) : Serving cfg { db := db } := by
  refine ⟨healthy_of_leftBehind hdb, ?_, ?_⟩
  · intro name e he hactive
    exact hload e (Database.mem_activeEntries.mpr ⟨Database.mem_of_getEntry he, hactive⟩)
  · intro name hname
    cases hname

/-- On its way to the first pass the thread has an active entry to come to. -/
structure Opening (db : Database) (e : ScheduleEntry) (s : Sys) : Prop where
  start : s.pc = .starting → s.db = db
  active : Begun s ∨ s.pc.toPass db.activeEntries.length ≠ 0 ∧
    ∃ row, s.db.getEntry e.name = some row ∧ row.isActive = true

theorem toPass_step {n : ℕ} (hstart : s.pc = .starting → s.db.activeEntries.length = n)
    (hl : Unattended l) (h : step cfg s l = some t) (hleft : s.pc.toPass n ≠ 0) :
    t.pc.toPass n + (if l.isSched then 1 else 0) ≤ s.pc.toPass n := by
  by_cases hsched : l.isSched = false
  · rw [step_pc h (not_crash hl) hsched, hsched]
    simp
  · cases step_cases h with
    | sched i s' hmove =>
      simp only [Label.isSched, if_true]
      cases hmove with
      | raise err => exact Nat.one_le_iff_ne_zero.mpr hleft
      | jump pc hjump => cases hjump <;> simp_all [Pc.toPass]
      | reset e todo last hpc => simp [hpc, Pc.toPass]
      | _ => simp_all [Pc.toPass]
    | _ => exact absurd rfl hsched

/-- Before the first pass no row is switched off. -/
theorem active_step {n : ℕ} (hl : Unattended l) (h : step cfg s l = some t)
    (hleft : s.pc.toPass n ≠ 0) {name : String}
    (hs : ∃ row, s.db.getEntry name = some row ∧ row.isActive = true) :
    ∃ row, t.db.getEntry name = some row ∧ row.isActive = true := by
  obtain ⟨row, hrow, hactive⟩ := hs
  have hstep := step_row h name
  generalize t.db.getEntry name = out at hstep
  cases hstep with
  | same => exact ⟨row, hrow, hactive⟩
  | reset i e todo last row' hsched hpc hname hlast hrow' =>
    obtain rfl := Option.some.inj (hrow.symm.trans hrow')
    exact ⟨_, rfl, hactive⟩
  | take i e todo queue row' hsched hpc => simp [hpc, Pc.toPass] at hleft
  | cancel i taskTime e todo queue row' hsched hpc => simp [hpc, Pc.toPass] at hleft
  | number i taskTime e todo queue row' hsched hpc => simp [hpc, Pc.toPass] at hleft
  | write k now q hwrite =>
    rw [hwrite] at hl
    exact hl.elim
  | post owner action body now hpost =>
    rw [hpost] at hl
    exact hl.elim
  | delete hdelete =>
    rw [hdelete] at hl
    exact hl.elim

theorem Begun.step (hs : Begun s) (hl : Unattended l) (h : Scheduler.step cfg s l = some t)
    (halive : ¬ Dead t) : Begun t := by
  obtain ⟨hnext, -⟩ | ⟨hsame, -⟩ := step_held h
  · exact .inr (by omega)
  obtain hreading | hpassed := hs
  · by_cases hsched : l.isSched = false
    · exact .inl ((step_pc h (not_crash hl) hsched).trans hreading)
    · cases step_cases h with
      | sched i s' hmove =>
        cases hmove with
        | raise err => exact absurd ⟨err, rfl⟩ halive
        | jump pc hjump => cases hjump <;> simp_all
        | read hpc => exact .inr (Nat.le_add_left 1 s.passes)
        | _ => simp_all
      | _ => exact absurd rfl hsched
  · exact .inr (by omega)

/-- Nothing but the thread leaves the start, and nothing leads back to it. -/
theorem start_step (hrestarted : Restarted s) (hl : Unattended l) (h : step cfg s l = some t)
    (hpc : t.pc = .starting) : s.pc = .starting ∧ t.db = s.db := by
  cases step_cases h with
  | sched i s' hmove =>
    cases hmove with
    | jump pc hjump => cases hjump <;> cases hpc
    | keep taskTime | cancel taskTime => cases taskTime <;> cases hpc
    | _ => cases hpc
  | finalizer k i f f' w hf | finalizerEnd k i f w hf | finalizerRaise k i f err w hf =>
    rw [hrestarted (by rw [show s.pc = .starting from hpc]; exact id)] at hf
    cases hf
  | measure recordingId task result started tasks hacting =>
    rw [show s.pc = .starting from hpc] at hacting
    cases hacting
  | stop => exact ⟨hpc, rfl⟩
  | _ => exact hl.elim

theorem Opening.step {db : Database} (hs : Opening db e s) (hrestarted : Restarted s)
    (hl : Unattended l) (h : Scheduler.step cfg s l = some t) (halive : ¬ Dead t) :
    Opening db e t := by
  constructor
  · intro hpc
    obtain ⟨hstart, hdb⟩ := start_step hrestarted hl h hpc
    exact hdb.trans (hs.start hstart)
  · obtain hbegun | ⟨hleft, hactive⟩ := hs.active
    · exact .inl (hbegun.step hl h halive)
    · have hactive' := active_step hl h hleft hactive
      by_cases hsched : l.isSched = false
      · rw [step_pc h (not_crash hl) hsched]
        exact .inr ⟨hleft, hactive'⟩
      · obtain ⟨row, hstored, hon⟩ := hactive
        have hsome : s.db.activeEntries ≠ [] := List.ne_nil_of_mem
          (Database.mem_activeEntries.mpr ⟨Database.mem_of_getEntry hstored, hon⟩)
        cases step_cases h with
        | sched i s' hmove =>
          cases hmove with
          | raise err => exact absurd ⟨err, rfl⟩ halive
          | jump pc hjump => cases hjump <;> simp_all [Pc.toPass, Begun]
          | reset e' todo last hpc => exact .inr ⟨by simp [Pc.toPass], hactive'⟩
          | _ => simp_all [Pc.toPass]
        | _ => exact absurd rfl hsched

/-- A start on loaded entries comes to its first pass. -/
theorem begun_of_start {db : Database} {ls : List Label} (hdb : db.LeftBehind)
    (hload : ∀ e ∈ db.activeEntries, cfg.loads e = true) (he : e ∈ db.activeEntries)
    (hls : Along (step cfg) (fun _ l => Unattended l) { db := db } ls)
    (hordinary : Along (step cfg) (Ordinary cfg) { db := db } ls)
    (hrun : exec (step cfg) { db := db } ls = some t)
    (hcount : db.activeEntries.length + 3 ≤ ls.countP Label.isSched) : Begun t := by
  have hserving : Serving cfg { db := db } := serving_start hdb hload
  have hopening : Opening db e { db := db } := by
    obtain ⟨hstored, hon⟩ := getEntry_of_active hserving.healthy.names he
    exact ⟨fun _ => rfl, .inr ⟨by simp [Pc.toPass], e, hstored, hon⟩⟩
  have hstep : ∀ s l s', Serving cfg s ∧ Opening db e s → Unattended l ∧ Ordinary cfg s l →
      step cfg s l = some s' → Serving cfg s' ∧ Opening db e s' := by
    intro s l s' hs hl h
    have hnext := hs.1.step hl.1 hl.2 h
    exact ⟨hnext, hs.2.step hs.1.healthy.restarted hl.1 h hnext.healthy.alive⟩
  refine exec_reaches Begun (fun s => s.pc.toPass db.activeEntries.length) hstep ?_ ?_ ?_
    ⟨hserving, hopening⟩ (hls.and hordinary) hrun hcount
  · intro s l s' hs hl hbegun h
    exact hbegun.step hl.1 h (hstep s l s' hs hl h).1.healthy.alive
  · intro s hs hleft
    exact hs.2.active.resolve_right fun hopen => hopen.1 hleft
  · intro s l s' hs hl hleft h
    refine toPass_step ?_ hl.1 h hleft
    intro hpc
    rw [hs.2.start hpc]

/-! ### A stale entry among the active ones -/

/-- The thread has not got to its first load, or has died of it. -/
structure Stuck (db : Database) (s : Sys) : Prop where
  db : s.db = db
  pc : s.pc = .starting ∨ Dead s
  finalizations : s.finalizations = []

theorem dead_of_stale (hpc : s.pc = .starting) (hstale : ¬ s.db.activeEntries.all cfg.loads = true) :
    step cfg s (.sched i) = some (s.fail .validationError) := by
  simp [step, schedStep, hpc, loadSchedule, hstale, Sys.orFail]

theorem Stuck.step {db : Database} (hs : Stuck db s) (hstale : ¬ db.activeEntries.all cfg.loads = true)
    (hl : Unattended l) (h : step cfg s l = some t) : Stuck db t := by
  obtain ⟨rfl, hpc, hnone⟩ := hs
  cases l with
  | sched i =>
    obtain hstarting | ⟨err, hdead⟩ := hpc
    · rw [dead_of_stale hstarting hstale] at h
      obtain rfl := Option.some.inj h
      exact ⟨rfl, .inr ⟨_, rfl⟩, hnone⟩
    · simp [Scheduler.step, schedStep, hdead] at h
  | finalizer k i => simp [Scheduler.step, hnone] at h
  | measure recordingId =>
    obtain hstarting | ⟨err, hdead⟩ := hpc
    · simp [Scheduler.step, hstarting] at h
    · simp [Scheduler.step, hdead] at h
  | stop =>
    obtain rfl := Option.some.inj h
    exact ⟨rfl, hpc, hnone⟩
  | _ => exact hl.elim

theorem Stuck.serves {db : Database} (hs : Stuck db s)
    (hover : ∀ e ∈ db.activeEntries, cfg.loads e = true → e.remaining = ∅) : Serves cfg s := by
  obtain ⟨rfl, hpc, -⟩ := hs
  constructor
  · rintro ⟨-, e, he, hloads, htimes⟩
    rw [hover e he hloads] at htimes
    exact htimes.ne_empty rfl
  · intro hreading
    rw [hreading] at hpc
    obtain hstarting | ⟨err, hdead⟩ := hpc
    · cases hstarting
    · rw [hreading] at hdead
      cases hdead

end Scheduler

/-! ### The schedule in the API -/

namespace Schedule

/-- A GET of the schedule: the search, the ordering, and the page. -/
structure ListRequest where
  search : ScheduleEntry → Bool := fun _ => true
  ordering : ScheduleEntry → ScheduleEntry → Bool := fun _ _ => true
  limit : ℕ := 10
  offset : ℕ := 0

/-- The rows that `LimitOffsetPagination` slices from the query. -/
def page (db : Database) (q : ListRequest) : List ScheduleEntry :=
  (((db.schedule.filter q.search).mergeSort q.ordering).drop q.offset).take q.limit

/-- `list`: the rows of the page are loaded, and then serialized. -/
def list (cfg : Settings) (db : Database) (q : ListRequest) : Except Exc (List ScheduleEntry) :=
  if (page db q).all cfg.loads then
    if (page db q).all ScheduleEntry.serializable then .ok (page db q) else .error .unserializable
  else .error .validationError

/-- The entries of a page whose actions are loaded are returned. -/
def Returns (cfg : Settings) (db : Database) (q : ListRequest) : Prop :=
  ∀ e ∈ page db q, e.isActive = true → cfg.loads e = true →
    ∃ rows, list cfg db q = .ok rows ∧ e ∈ rows

theorem list_ok_iff {cfg : Settings} {db : Database} {q : ListRequest} {rows : List ScheduleEntry} :
    list cfg db q = .ok rows ↔
      rows = page db q ∧ ∀ e ∈ page db q, cfg.loads e = true ∧ e.serializable = true := by
  unfold list
  split_ifs with hload hserial
  · rw [List.all_eq_true] at hload hserial
    simp only [Except.ok.injEq]
    exact ⟨fun h => ⟨h.symm, fun e he => ⟨hload e he, hserial e he⟩⟩, fun h => h.1.symm⟩
  · simp only [false_iff, not_and]
    exact fun _ hall => hserial (List.all_eq_true.mpr fun e he => (hall e he).2)
  · simp only [false_iff, not_and]
    exact fun _ hall => hload (List.all_eq_true.mpr fun e he => (hall e he).1)

theorem returns_iff {cfg : Settings} {db : Database} {q : ListRequest} :
    Returns cfg db q ↔ (∀ e ∈ page db q, cfg.loads e = true ∧ e.serializable = true) ∨
      ∀ e ∈ page db q, e.isActive = true → cfg.loads e = false := by
  unfold Returns
  simp only [list_ok_iff]
  constructor
  · intro h
    by_cases hnone : ∀ e ∈ page db q, e.isActive = true → cfg.loads e = false
    · exact .inr hnone
    · push Not at hnone
      obtain ⟨e, he, hactive, hloads⟩ := hnone
      obtain ⟨rows, ⟨-, hall⟩, -⟩ := h e he hactive (by simpa using hloads)
      exact .inl hall
  · rintro (hall | hnone) e he hactive hloads
    · exact ⟨_, ⟨rfl, hall⟩, he⟩
    · rw [hnone e he hactive] at hloads
      cases hloads

end Schedule

namespace Scheduler

open Runs

/-- The thread keeps serving the entries whose actions are loaded exactly if all
active entries name loaded actions or none of those that do has times left. A page
of the API returns them exactly if all its rows can be loaded and serialized or
there are none of them. -/
theorem stale_entries_tolerated_iff (cfg : Settings) (db : Database) (hdb : db.LeftBehind) :
    (KeepsServing cfg db ↔
      (∀ e ∈ db.activeEntries, cfg.loads e = true) ∨
        ∀ e ∈ db.activeEntries, cfg.loads e = true → e.remaining = ∅) ∧
    ∀ q, Schedule.Returns cfg db q ↔
      (∀ e ∈ Schedule.page db q, cfg.loads e = true ∧ e.serializable = true) ∨
        ∀ e ∈ Schedule.page db q, e.isActive = true → cfg.loads e = false := by
  refine ⟨⟨?_, ?_⟩, fun q => Schedule.returns_iff⟩
  · intro hserves
    by_contra hneither
    push Not at hneither
    obtain ⟨⟨stale, hstale, hnot⟩, e, he, hloads, htimes⟩ := hneither
    have hall : ¬ db.activeEntries.all cfg.loads = true := by
      intro hall
      exact hnot (List.all_eq_true.mp hall stale hstale)
    have hrun : exec (step cfg) { db := db } [.sched {}] =
        some ({ db := db : Sys }.fail .validationError) := by
      rw [exec, dead_of_stale rfl hall]
      rfl
    have hend := hserves [.sched {}] _ (by simp [Unattended]) ⟨trivial, fun _ _ => trivial⟩ hrun
    exact hend.1.enabled ⟨⟨_, rfl⟩, e, he, hloads, htimes⟩
  · intro hcondition ls t hls hordinary hrun
    have hlabels : Along (step cfg) (fun _ l => Unattended l) { db := db } ls :=
      Along.of_forall_mem fun l hl _ => hls l hl
    by_cases hload : ∀ e ∈ db.activeEntries, cfg.loads e = true
    · have hstep : ∀ s l s', Serving cfg s → Unattended l ∧ Ordinary cfg s l →
          step cfg s l = some s' → Serving cfg s' := fun s l s' hs hl h => hs.step hl.1 hl.2 h
      refine ⟨serves_of_serving
        (exec_invariant hstep (serving_start hdb hload) (hlabels.and hordinary) hrun), ?_⟩
      rintro ⟨e, he, -⟩ hcount
      exact begun_of_start hdb hload he hlabels hordinary hrun hcount
    · have hstale : ¬ db.activeEntries.all cfg.loads = true := by
        rwa [List.all_eq_true]
      have hover := hcondition.resolve_left hload
      have hstuck : Stuck db t := exec_invariant (fun s l s' hs hl h => hs.step hstale hl h)
        (⟨rfl, .inl rfl, rfl⟩ : Stuck db { db := db }) hlabels hrun
      refine ⟨hstuck.serves hover, ?_⟩
      rintro ⟨e, he, hloads, htimes⟩
      rw [hover e he hloads] at htimes
      exact absurd rfl htimes.ne_empty

/-- An entry whose action has been removed, and one whose action is loaded. -/
def besideStale (isActive : Bool) : Database where
  schedule := [{ everyTenSeconds with name := "old", action := "removed", isActive }, everyTenSeconds]

theorem besideStale_leftBehind (isActive : Bool) : (besideStale isActive).LeftBehind := by
  have hempty {α : Type} {P : α → Prop} : ∀ x ∈ ([] : List α), P x := by
    intro x hx
    cases hx
  refine ⟨by cases isActive <;> decide, hempty, hempty, hempty, hempty, hempty⟩

theorem page_besideStale (isActive : Bool) :
    Schedule.page (besideStale isActive) {} = (besideStale isActive).schedule := by
  unfold Schedule.page
  rw [List.mergeSort_of_pairwise (by simp [besideStale])]
  rfl

/-- An active entry whose action has been removed: the thread dies at its first
step while another entry is due, and the default page is an error. -/
theorem stale_entry_stops_sensor :
    ∃ t, exec (step inThread) { db := besideStale true } [.sched {}] = some t ∧
      Disabled inThread t ∧ startedTasks t.history = [] ∧ (∀ i, step inThread t (.sched i) = none) ∧
      everyTenSeconds ∈ t.db.activeEntries ∧ inThread.loads everyTenSeconds = true ∧
      everyTenSeconds.dueTime 0 = some 0 ∧
      Schedule.list inThread (besideStale true) {} = .error .validationError := by
  have hpage : (Schedule.page (besideStale true) {}).all inThread.loads = false := by
    rw [page_besideStale]
    rfl
  refine ⟨{ db := besideStale true, pc := .dead .validationError }, rfl, ⟨⟨_, rfl⟩, ?_⟩, rfl,
    fun i => rfl, by decide, by decide, by decide, ?_⟩
  · refine ⟨everyTenSeconds, by decide, by decide, 0, by decide, ⟨0, by decide⟩, ?_⟩
    intro stop hstop
    cases hstop
  · simp [Schedule.list, hpage]

/-- Once the entry is switched off the thread serves the other, and the page of the
API is an error as before. -/
theorem stale_entries_tolerated_inactive :
    KeepsServing inThread (besideStale false) ∧
      ¬ Schedule.Returns inThread (besideStale false) {} := by
  have hiff := stale_entries_tolerated_iff inThread (besideStale false) (besideStale_leftBehind false)
  refine ⟨hiff.1.mpr (.inl (by decide)), ?_⟩
  rw [hiff.2, page_besideStale]
  decide

end Scheduler

end ScosSensor
