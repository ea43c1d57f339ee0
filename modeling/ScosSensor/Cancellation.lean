import ScosSensor.EntryRows

/-!
# A user's cancellation

An update switches an entry off. The scheduler and other updates may still hold
instances that were read while the entry was on, and such an instance writes
`is_active` back with the rest. The cancellation lasts exactly as long as that
does not happen, and a pass whose snapshot is read in that time leaves the entry
alone.
-/
namespace ScosSensor

namespace Scheduler

open Runs

variable {cfg : Settings} {s t u : Sys} {l : Label} {ls : List Label} {name : String}

/-- No row of `name` is active. -/
def Inactive (name : String) (db : Database) : Prop :=
  ∀ row, db.getEntry name = some row → row.isActive = false

/-- A request asks for an active entry: by its body, or by making a new entry. -/
inductive SetsActive (name : String) (s : Sys) : Label → Prop
  | update (k : ℕ) (now : ℤ) (q : Request) (hq : s.requests[k]? = some q)
      (hname : q.entry.name = name) (hbody : q.body.isActive = some true) :
    SetsActive name s (.write k now)
  | create (owner : String) (body : Body) (now : ℤ) : SetsActive name s (.post name owner body now)

/-- An instance that is active is written back though nobody asked for that: by
the scheduler after a take that does not use the entry up, or by an update whose
body does not mention `is_active`. -/
inductive StaleActivation (name : String) (s : Sys) : Label → Prop
  | scheduler (i : Input) (e : ScheduleEntry) (todo : List ScheduleEntry) (queue : TaskQueue ℕ)
      (hpc : s.pc = .taking (e :: todo) queue) (hname : e.name = name)
      (hstored : (s.db.getEntry name).isSome) (hactive : (e.takePending i.now).2.isActive = true) :
    StaleActivation name s (.sched i)
  | update (k : ℕ) (now : ℤ) (q : Request) (hq : s.requests[k]? = some q)
      (hname : q.entry.name = name) (hbody : q.body.isActive = none)
      (hactive : q.entry.isActive = true) : StaleActivation name s (.write k now)

/-- Such a write is made: neither thread checks anything before it. -/
theorem StaleActivation.enabled (cfg : Settings) (hstale : StaleActivation name s l) :
    ∃ t, step cfg s l = some t := by
  cases hstale with
  | scheduler i e todo queue hpc hname hstored hactive =>
    simp only [step, schedStep, hpc]
    obtain ⟨-, htake⟩ | ⟨-, htake⟩ := takePendingTaskTime_cases i.now e s.db
    · rw [htake]
      exact ⟨_, rfl⟩
    · rw [htake]
      exact ⟨_, rfl⟩
  | update k now q hq => exact ⟨_, by simp only [step, hq, Option.map_some]; rfl⟩

/-- Such a write leaves an active row. -/
theorem StaleActivation.active (hstale : StaleActivation name s l) (h : step cfg s l = some t) :
    ¬ Inactive name t.db := by
  intro hin
  cases hstale with
  | scheduler i e todo queue hpc hname hstored hactive =>
    subst hname
    obtain ⟨row, hrow⟩ := Option.isSome_iff_exists.mp hstored
    obtain ⟨-, htake⟩ | ⟨hgone, -⟩ := takePendingTaskTime_cases i.now e s.db
    · simp only [step, schedStep, hpc, htake] at h
      obtain rfl := Option.some.inj h
      have hcolumns : ∀ row, ((e.takePending i.now).2.writeTimes row).name = row.name :=
        fun _ => rfl
      have hread := Database.getEntry_writeRow hcolumns hrow e.name
      rw [if_pos rfl] at hread
      have hoff : (e.takePending i.now).2.isActive = false :=
        hin ((e.takePending i.now).2.writeTimes row) hread
      simp [hactive] at hoff
    · simp [hgone] at hrow
  | update k now q hq hname hbody hactive =>
    subst hname
    simp only [step, hq, Option.map_some, Option.some.injEq] at h
    subst h
    have hread := Database.getEntry_saveWhole_self s.db (q.saved now)
    rw [Request.saved_name] at hread
    have hoff := hin _ hread
    simp [hbody, hactive] at hoff

/-- From an inactive entry that nobody asks to activate, a step leads to an
active one exactly when it is a stale write. -/
theorem inactive_step_iff (hin : Inactive name s.db) (hno : ¬ SetsActive name s l)
    (h : step cfg s l = some t) : Inactive name t.db ↔ ¬ StaleActivation name s l := by
  constructor
  · intro hin' hstale
    exact hstale.active h hin'
  · intro hstale
    have hrow := step_row h name
    unfold Inactive
    generalize t.db.getEntry name = out at hrow
    intro new hnew
    cases hrow with
    | same => exact hin new hnew
    | reset i e todo last row hl hpc hname hlast hrow =>
      obtain rfl := Option.some.inj hnew
      exact hin row hrow
    | take i e todo queue row hl hpc hname hrow =>
      obtain rfl := Option.some.inj hnew
      subst hl
      by_contra hactive
      have hon : (e.takePending i.now).2.isActive = true := Bool.eq_true_of_not_eq_false hactive
      exact hstale (.scheduler i e todo queue hpc hname (by simp [hrow]) hon)
    | cancel i taskTime e todo queue row hl hpc hname hleft hrow =>
      obtain rfl := Option.some.inj hnew
      rfl
    | number i taskTime e todo queue row hl hpc hname hrow =>
      obtain rfl := Option.some.inj hnew
      exact hin row hrow
    | write k now q hl hq hname =>
      obtain rfl := Option.some.inj hnew
      subst hl
      rw [Request.saved_isActive]
      cases hbody : q.body.isActive with
      | none =>
        by_contra hactive
        exact hstale (.update k now q hq hname hbody (by simpa using hactive))
      | some active =>
        cases active with
        | false => rfl
        | true => exact absurd (.update k now q hq hname hbody) hno
    | post owner action body now hl =>
      subst hl
      exact absurd (.create owner body now) hno
    | delete => cases hnew

/-- What a cancellation at `s` asks of a later state: the entry is off, and the
passes after the one of `s` have queued nothing for it. -/
structure CancellationKept (name : String) (s t : Sys) : Prop where
  inactive : Inactive name t.db
  queued : ∀ pass task, (pass, task) ∈ queuedTasks t.history → task.scheduleEntryName = name →
    pass ≤ s.passes

/-- No task is queued for a pass that has not begun. -/
def PassesBounded (s : Sys) : Prop := ∀ x ∈ queuedTasks s.history, x.1 ≤ s.passes

theorem passesBounded_step (hs : PassesBounded s) (h : step cfg s l = some t) :
    PassesBounded t := by
  have hpasses : s.passes ≤ t.passes := by
    obtain ⟨heq, -⟩ | ⟨heq, -⟩ := step_held h <;> omega
  intro x hx
  obtain heq | ⟨taskTime, e, todo, queue, -, heq⟩ := step_queued h
  · rw [heq] at hx
    exact (hs x hx).trans hpasses
  · rw [heq] at hx
    rcases List.mem_append.mp hx with hx | hx
    · exact (hs x hx).trans hpasses
    · rw [List.mem_singleton.mp hx]
      exact hpasses

/-- While the cancellation of `s` lasts, a later pass does not hold the entry. -/
structure Lasting (name : String) (s t : Sys) : Prop where
  inactive : Inactive name t.db
  held : s.passes < t.passes → ∀ e ∈ t.pc.held, e.name ≠ name
  queued : ∀ pass task, (pass, task) ∈ queuedTasks t.history → task.scheduleEntryName = name →
    pass ≤ s.passes

theorem Lasting.kept (h : Lasting name s t) : CancellationKept name s t := ⟨h.inactive, h.queued⟩

/-- As long as the entry stays off, so does the rest. -/
theorem lasting_step (h : Lasting name s t) (hnames : NamesUnique t.db)
    (hstep : step cfg t l = some u) (hin : Inactive name u.db) : Lasting name s u := by
  refine ⟨hin, ?_, ?_⟩
  · intro hlater e he
    obtain ⟨-, hheld, -⟩ | ⟨hpasses, hheld⟩ := step_held hstep
    · rw [hheld] at he
      obtain ⟨hstored, hactive⟩ := Database.mem_activeEntries.mp he
      intro hname
      subst hname
      have hoff := h.inactive e (Table.get?_of_mem hnames hstored)
      simp [hactive] at hoff
    · obtain ⟨a, ha, hname, -⟩ := hheld e he
      rw [← hname]
      exact h.held (by omega) a ha
  · intro pass task hmem hname
    obtain heq | ⟨taskTime, e, todo, queue, hpc, heq⟩ := step_queued hstep
    · rw [heq] at hmem
      exact h.queued pass task hmem hname
    · rw [heq] at hmem
      rcases List.mem_append.mp hmem with hmem | hmem
      · exact h.queued pass task hmem hname
      · obtain ⟨hpass, htask⟩ := Prod.mk.inj (List.mem_singleton.mp hmem)
        subst hpass htask
        by_contra hlater
        refine h.held (not_le.mp hlater) e ?_ hname
        rw [hpc]
        exact List.mem_cons_self

/-- The cancellation is kept in every state of a run. -/
def KeptAlong (cfg : Settings) (name : String) (s t : Sys) (ls : List Label) : Prop :=
  ∀ ms u, ms <+: ls → exec (step cfg) t ms = some u → CancellationKept name s u

theorem keptAlong_iff (ls : List Label) (h : Lasting name s t) (hnames : NamesUnique t.db)
    (hno : Along (step cfg) (fun s l => ¬ SetsActive name s l) t ls) :
    KeptAlong cfg name s t ls ↔
      Along (step cfg) (fun s l => ¬ StaleActivation name s l) t ls := by
  induction ls generalizing t with
  | nil =>
    refine ⟨fun _ => trivial, ?_⟩
    intro _ ms u hms hrun
    rw [List.prefix_nil.mp hms] at hrun
    exact Option.some.inj hrun ▸ h.kept
  | cons l ls ih =>
    constructor
    · intro hkept
      refine ⟨?_, ?_⟩
      · intro hstale
        obtain ⟨t', hstep⟩ := hstale.enabled cfg
        exact hstale.active hstep (hkept [l] t' (by simp) (by simp [exec, hstep])).inactive
      · intro t' hstep
        have hin : Inactive name t'.db :=
          (hkept [l] t' (by simp) (by simp [exec, hstep])).inactive
        apply (ih (lasting_step h hnames hstep hin) (step_names hnames hstep)
          (hno.2 t' hstep)).mp
        intro ms u hms hrun
        exact hkept (l :: ms) u (List.prefix_cons_inj l |>.mpr hms)
          (exec_cons.mpr ⟨t', hstep, hrun⟩)
    · intro hfresh ms u hms hrun
      cases ms with
      | nil => exact Option.some.inj hrun ▸ h.kept
      | cons m ms =>
        obtain ⟨rfl, hrest'⟩ := List.cons_prefix_cons.mp hms
        obtain ⟨t', hstep, hrest⟩ := exec_cons.mp hrun
        have hin := (inactive_step_iff h.inactive hno.1 hstep).mpr hfresh.1
        exact (ih (lasting_step h hnames hstep hin) (step_names hnames hstep)
          (hno.2 t' hstep)).mpr (hfresh.2 t' hstep) ms u hrest' hrest

/-- What holds of every state that a process reaches from its database. -/
theorem started_run {db : Database} (hnames : NamesUnique db)
    (hrun : exec (step cfg) { db := db } ls = some t) : NamesUnique t.db ∧ PassesBounded t := by
  have hstep : ∀ s l s', (NamesUnique s.db ∧ PassesBounded s) → True → step cfg s l = some s' →
      NamesUnique s'.db ∧ PassesBounded s' := by
    intro s l s' h _ hstep
    exact ⟨step_names h.1 hstep, passesBounded_step h.2 hstep⟩
  have hstart : NamesUnique db ∧ PassesBounded { db := db } := ⟨hnames, by simp [PassesBounded, queuedTasks]⟩
  exact exec_invariant hstep hstart (Along.of_forall (fun _ _ => trivial) _ ls) hrun

/-- After the write of an update that switches an entry off, and with no later
request to switch it on, the entry stays off in every state and no later pass
queues it, exactly when no active instance that was read before is written back. -/
theorem cancellation_kept_iff (cfg : Settings) (db : Database) (hnames : NamesUnique db)
    (before after : List Label) (s t : Sys) (k : ℕ) (now : ℤ) (q : Request)
    (hbefore : exec (step cfg) { db := db } before = some s) (hq : s.requests[k]? = some q)
    (hcancel : q.body.isActive = some false) (hwrite : step cfg s (.write k now) = some t)
    (hlater : Along (step cfg) (fun s l => ¬ SetsActive q.entry.name s l) t after) :
    KeptAlong cfg q.entry.name s t after ↔
      Along (step cfg) (fun s l => ¬ StaleActivation q.entry.name s l) t after := by
  obtain ⟨hnames', hbounded⟩ := started_run hnames hbefore
  have hlasting : Lasting q.entry.name s t := by
    have hnamesT := step_names hnames' hwrite
    simp only [step, hq, Option.map_some, Option.some.injEq] at hwrite
    subst hwrite
    refine ⟨?_, fun h => absurd h (lt_irrefl _), fun pass task hmem _ => hbounded _ hmem⟩
    intro row hrow
    have hread := Database.getEntry_saveWhole_self s.db (q.saved now)
    rw [Request.saved_name] at hread
    obtain rfl := Option.some.inj (hread.symm.trans hrow)
    simp [hcancel]
  exact keptAlong_iff after hlasting (step_names hnames' hwrite) hlater

/-- One recurring entry that is due. -/
def oneRecurring : Database where
  schedule := [everyTenSeconds]

/-- A pass reads its snapshot, and then the user's update reads the row. -/
def snapshotThenCancel : List Label :=
  List.replicate 5 (.sched {}) ++ [.read "sweep" { isActive := some false }]

/-- The pass saves `is_active` as it was in its snapshot: the entry is on again. -/
theorem cancellation_lost :
    ∃ s t u, exec (step { actions := ["acquire"] }) { db := oneRecurring } snapshotThenCancel = some s ∧
      step { actions := ["acquire"] } s (.write 0 0) = some t ∧
      exec (step { actions := ["acquire"] }) t [.sched {}] = some u ∧
      ¬ CancellationKept "sweep" s u := by
  have hafter : (exec (step { actions := ["acquire"] }) { db := oneRecurring }
      (snapshotThenCancel ++ [.write 0 0, .sched {}])).map
        (fun u => (u.db.getEntry "sweep").map fun row => row.isActive) = some (some true) := by decide
  obtain ⟨u, hu, hactive⟩ := Option.map_eq_some_iff.mp hafter
  obtain ⟨s, hs, hrest⟩ := exec_append.mp hu
  obtain ⟨t, ht, hend⟩ := exec_cons.mp hrest
  refine ⟨s, t, u, hs, ht, hend, ?_⟩
  intro hkept
  obtain ⟨row, hrow, hon⟩ := Option.map_eq_some_iff.mp hactive
  have hoff := hkept.inactive row hrow
  simp [hon] at hoff

/-- The same entry, and another one that is due, too. -/
def twoRecurring : Database where
  schedule := [everyTenSeconds, { everyTenSeconds with name := "monitor" }]

/-- The same update before a whole pass, which queues and starts the task of the other
entry only. -/
theorem cancellation_kept_between :
    ∃ s t u, exec (step { actions := ["acquire"] }) { db := twoRecurring }
        [.read "sweep" { isActive := some false }] = some s ∧
      step { actions := ["acquire"] } s (.write 0 0) = some t ∧
      exec (step { actions := ["acquire"] }) t (List.replicate 15 (.sched {})) = some u ∧
      u.pc = .passDone ∧ (startedTasks u.history).map Task.scheduleEntryName = ["monitor"] ∧
      KeptAlong { actions := ["acquire"] } "sweep" s t (List.replicate 15 (.sched {})) := by
  have hnames : NamesUnique twoRecurring := by
    unfold NamesUnique
    decide
  have hend : (exec (step { actions := ["acquire"] }) { db := twoRecurring }
      ([.read "sweep" { isActive := some false }] ++ .write 0 0 :: List.replicate 15 (.sched {}))).map
        (fun u => (u.pc, (startedTasks u.history).map Task.scheduleEntryName)) =
      some (.passDone, ["monitor"]) := by decide
  have hheld : Along (step { actions := ["acquire"] }) (fun s _ => ∀ e ∈ s.pc.held, e.name ≠ "sweep")
      { db := twoRecurring } ([.read "sweep" { isActive := some false }] ++
        .write 0 0 :: List.replicate 15 (.sched {})) := by decide
  obtain ⟨u, hrun, hlast⟩ := Option.map_eq_some_iff.mp hend
  obtain ⟨hpc, hstarted⟩ := Prod.mk.inj hlast
  obtain ⟨s, hs, hrest⟩ := exec_append.mp hrun
  obtain ⟨t, ht, hu⟩ := exec_cons.mp hrest
  have hq : s.requests[0]? = some ⟨everyTenSeconds, { isActive := some false }⟩ := by
    obtain rfl := Option.some.inj hs
    rfl
  have hlabels : ∀ l ∈ List.replicate 15 (Label.sched {}), l = .sched {} :=
    fun l hl => List.eq_of_mem_replicate hl
  refine ⟨s, t, u, hs, ht, hu, hpc, hstarted, ?_⟩
  refine (cancellation_kept_iff { actions := ["acquire"] } twoRecurring hnames
    [.read "sweep" { isActive := some false }] (List.replicate 15 (.sched {})) s t 0 0
    ⟨everyTenSeconds, { isActive := some false }⟩ hs hq rfl ht ?_).mpr ?_
  · refine Along.of_forall_mem fun l hl s hsets => ?_
    obtain rfl := hlabels l hl
    cases hsets
  · -- no instance of the entry is held, so none is written back
    have hlater := ((along_append.mp hheld).2 s hs).2 t ht
    refine (hlater.and (Along.of_forall_mem fun l hl _ => hlabels l hl)).mono ?_
    rintro s l ⟨hnone, rfl⟩ hstale
    cases hstale with
    | scheduler i e todo queue hpc hname =>
      exact hnone e (by rw [hpc]; exact List.mem_cons_self) hname

end Scheduler

end ScosSensor
