import ScosSensor.LiveTasks

/-!
# Task ids beside restarts and requests

An id is in use while its result is stored or open. The ids in use stay below
the counters of their entries, and the ids that wait are past them, so that a
result is always created under a new id. The counters may move back on a
restart, when nothing waits and nothing is open.
-/
namespace ScosSensor

namespace Scheduler

open Runs Counters

variable {cfg : Settings} {s t : Sys} {l : Label} {used used' : List (String × ℕ)}

/-- The tasks that wait and the instances that are held are past the ids `used`. -/
structure Numbered (used : List (String × ℕ)) (s : Sys) : Prop where
  live : s.pc.liveNames.Nodup
  waiting : ∀ x ∈ s.pc.waiting, Ahead x.key used
  held : ∀ e ∈ s.pc.held, Ahead (e.name, e.nextTaskId) used

theorem Numbered.waitingNames (hs : Numbered used s) :
    (s.pc.waiting.map Task.scheduleEntryName).Nodup := by
  have hlive := hs.live
  unfold Pc.liveNames at hlive
  exact (List.nodup_append.mp (List.nodup_append.mp hlive).1).2.1

/-- The instance being numbered is of an entry that has no waiting task. -/
theorem Numbered.held_notMem (hs : Numbered used s) {e : ScheduleEntry} (he : e ∈ s.pc.held)
    {x : PendingTask} (hx : x ∈ s.pc.waiting) : x.scheduleEntryName ≠ e.name := by
  have hlive := hs.live
  unfold Pc.liveNames at hlive
  have hdisjoint := (List.nodup_append.mp (List.nodup_append.mp hlive).1).2.2
  exact (hdisjoint e.name (List.mem_map_of_mem he) x.scheduleEntryName
    (List.mem_map_of_mem hx)).symm

/-- A fresh process holds nothing. -/
theorem numbered_start (used : List (String × ℕ)) (db : Database) : Numbered used { db := db } := by
  refine ⟨List.nodup_nil, ?_, ?_⟩
  · intro x hx
    cases hx
  · intro e he
    cases he

theorem nodup_of_liveNames (hs : s.pc.liveNames.Nodup) (hnames : NamesUnique s.db)
    (h : step cfg s l = some t) : t.pc.liveNames.Nodup := by
  obtain ⟨names, hperm, hsub⟩ | ⟨-, heq⟩ := step_liveNames h
  · exact hperm.nodup_iff.mp (hs.sublist hsub)
  · rw [heq]
    exact Database.nodup_activeEntries hnames

/-- What one step preserves, whoever takes it. -/
theorem Numbered.step (hs : Numbered used s) (hnames : NamesUnique s.db)
    (hread : s.pc = .reading → Below s.db.nextTaskIds used) (hused : CreatesAtMost s t used used')
    (h : step cfg s l = some t) : Numbered used' t := by
  refine ⟨nodup_of_liveNames hs.live hnames h, ?_, ?_⟩
  · intro x hx
    obtain hsub | ⟨task, tasks, hpc, hwait, -, hnew⟩ := hused
    · obtain hold | ⟨taskTime, e, todo, queue, hpc, hpc', -⟩ := step_waiting h
      · exact (hs.waiting x (hold x hx)).subset hsub
      · rw [hpc'] at hx
        obtain hx | hx := TaskQueue.mem_enter.mp hx
        · rw [hx]
          exact (hs.held e (by rw [hpc]; exact List.mem_cons_self)).subset hsub
        · exact (hs.waiting x (by rw [hpc]; exact hx)).subset hsub
    · rw [hwait] at hx
      have hmem : x ∈ s.pc.waiting := by
        rw [hpc]
        exact List.mem_cons_of_mem task hx
      intro y hy hkey
      obtain hy | hy := hnew y hy
      · exact hs.waiting x hmem y hy hkey
      · have hdistinct := hs.waitingNames
        simp only [hpc, Pc.waiting, List.map_cons, List.nodup_cons] at hdistinct
        have hname : task.scheduleEntryName = x.scheduleEntryName := by
          rw [hy] at hkey
          exact hkey
        exact absurd (hname ▸ List.mem_map_of_mem hx) hdistinct.1
  · intro e he
    obtain ⟨-, hheld, hpc⟩ | ⟨-, hheld⟩ := step_held h
    · rw [hheld] at he
      have hnext : s.db.nextTaskIds e.name = some e.nextTaskId := by
        unfold Database.nextTaskIds
        rw [Database.getEntry_of_mem_activeEntries hnames he, Option.map_some]
      obtain hsub | ⟨task, tasks, hpc', -⟩ := hused
      · exact ((hread hpc).ahead hnext).subset hsub
      · rw [hpc] at hpc'
        cases hpc'
    · obtain ⟨a, ha, hname, hid⟩ := hheld e he
      obtain hsub | ⟨task, tasks, -, -, hnone, -⟩ := hused
      · rw [← hname, ← hid]
        exact (hs.held a ha).subset hsub
      · rw [hnone] at he
        cases he

/-- The ids in use and the ids that wait are below the counters. -/
def CountersPast (used : List (String × ℕ)) (s : Sys) : Prop :=
  Below s.db.nextTaskIds (used ++ s.pc.waiting.map Task.key)

/-- What a step may do to the counters: a reset goes past the ids in use, an
update writes the counter that is there, and a new entry has no ids in use. -/
structure KeepsCounters (used : List (String × ℕ)) (s : Sys) (l : Label) : Prop where
  reset : ∀ e todo last, s.pc = .resetting (e :: todo) → s.db.lastResult? e.name = some last →
    Ahead (e.name, last.taskId + 1) used
  write : ∀ k now q, l = .write k now → s.requests[k]? = some q →
    s.db.nextTaskIds q.entry.name = some q.entry.nextTaskId
  post : ∀ name owner body now, l = .post name owner body now → s.db.getEntry name = none →
    ∀ x ∈ used ++ s.pc.waiting.map Task.key, x.1 ≠ name

/-- A step leaves the ids of before below the counters of after. -/
theorem CountersPast.rows (hs : Numbered used s) (hpast : CountersPast used s)
    (hkeeps : KeepsCounters used s l) (h : step cfg s l = some t) :
    Below t.db.nextTaskIds (used ++ s.pc.waiting.map Task.key) := by
  intro x hx n hn
  have hrow := step_row h x.1
  unfold Database.nextTaskIds at hn
  generalize t.db.getEntry x.1 = out at hrow hn
  have hsame {row : ScheduleEntry} (hrow : s.db.getEntry x.1 = some row) :
      x.2 < row.nextTaskId := by
    apply hpast x hx
    unfold Database.nextTaskIds
    rw [hrow]
    rfl
  cases hrow with
  | same => exact hpast x hx n hn
  | reset i e todo last row hl hpc hname hlast hrow =>
    obtain rfl := Option.some.inj hn
    rw [hpc] at hx
    have hx' : x ∈ used := by simpa [Pc.waiting] using hx
    exact hkeeps.reset e todo last hpc (hname ▸ hlast) x hx' hname.symm
  | take i e todo queue row hl hpc hname hrow =>
    obtain rfl := Option.some.inj hn
    have hlt := hsame hrow
    exact hlt
  | cancel i taskTime e todo queue row hl hpc hname hleft hrow =>
    obtain rfl := Option.some.inj hn
    have hlt := hsame hrow
    exact hlt
  | number i taskTime e todo queue row hl hpc hname hrow =>
    obtain rfl := Option.some.inj hn
    have he : e ∈ s.pc.held := by
      rw [hpc]
      exact List.mem_cons_self
    show x.2 < e.nextTaskId + 1
    rcases List.mem_append.mp hx with hx | hx
    · have hahead := hs.held e he x hx hname.symm
      dsimp only at hahead
      omega
    · obtain ⟨y, hy, heq⟩ := List.mem_map.mp hx
      have hyname : y.scheduleEntryName = e.name := (congrArg Prod.fst heq).trans hname.symm
      exact absurd hyname (hs.held_notMem he hy)
  | write k now q hl hq hname =>
    obtain rfl := Option.some.inj hn
    rw [Request.saved_nextTaskId]
    exact hpast x hx _ (hname ▸ hkeeps.write k now q hl hq)
  | post owner action body now hl hnew hloaded =>
    exact absurd rfl (hkeeps.post x.1 owner body now hl hnew x hx)
  | delete => cases hn

/-- The counters stay past the ids in use and the ids that wait. -/
theorem CountersPast.step (hs : Numbered used s) (hpast : CountersPast used s)
    (hkeeps : KeepsCounters used s l) (hused : CreatesAtMost s t used used')
    (h : step cfg s l = some t) : CountersPast used' t := by
  have hrows := hpast.rows hs hkeeps h
  have hsub : ∀ x ∈ used', x ∈ used ++ s.pc.waiting.map Task.key := hused.subset
  refine (hrows.subset hsub).append ?_
  obtain hold | ⟨taskTime, e, todo, queue, hpc, hpc', hnext⟩ := step_waiting h
  · refine hrows.subset ?_
    intro x hx
    obtain ⟨y, hy, rfl⟩ := List.mem_map.mp hx
    exact List.mem_append_right _ (List.mem_map_of_mem (hold y hy))
  · intro x hx n hn
    obtain ⟨y, hy, rfl⟩ := List.mem_map.mp hx
    rw [hpc'] at hy
    obtain hy | hy := TaskQueue.mem_enter.mp hy
    · rw [hy] at hn ⊢
      have hn' : some (e.nextTaskId + 1) = some n := hnext.symm.trans hn
      exact Option.some.inj hn' ▸ Nat.lt_succ_self _
    · refine hrows y.key (List.mem_append_right _ (List.mem_map_of_mem ?_)) n hn
      rw [hpc]
      exact hy

/-- No finalization is in flight before the ids have been reset. -/
def Restarted (s : Sys) : Prop := ¬ s.pc.Started → s.finalizations = []

theorem step_restarted (hs : Restarted s) (h : step cfg s l = some t) : Restarted t := by
  intro hpc
  cases step_cases h with
  | sched i s' hmove =>
    cases hmove with
    | jump pc hjump =>
      cases hjump with
      | startReset hbefore => exact hs (by simp [hbefore, Pc.Started])
      | resetSkip e todo hbefore => exact hs (by simp [hbefore, Pc.Started])
      | _ => exact absurd trivial hpc
    | reset e todo last hbefore => exact hs (by simp [hbefore, Pc.Started])
    | keep taskTime | cancel taskTime => cases taskTime <;> exact absurd trivial hpc
    | _ => exact absurd trivial hpc
  | finalizer k i f f' w hf =>
    rw [hs hpc] at hf
    cases hf
  | finalizerEnd k i f w hf =>
    rw [hs hpc] at hf
    cases hf
  | finalizerRaise k i f err w hf =>
    rw [hs hpc] at hf
    cases hf
  | crash => rfl
  | _ => exact hs hpc

/-- On a restart only the stored ids are in use. -/
theorem Restarted.usedIds (hs : Restarted s) {todo : List ScheduleEntry}
    (hpc : s.pc = .resetting todo) {x : String × ℕ} (hx : x ∈ s.usedIds) :
    ∃ r ∈ s.db.results, r.key = x := by
  have hnone : s.finalizations = [] := hs (by simp [hpc, Pc.Started])
  obtain ⟨m, hm, rfl⟩ := List.mem_map.mp hx
  obtain ⟨r, hr, rfl⟩ | ⟨r, hr, -⟩ | ⟨f, hf, -⟩ := mem_marks.mp hm
  · exact ⟨r, hr, rfl⟩
  · simp [hpc, Pc.running] at hr
  · simp [hnone] at hf

theorem Restarted.reset (hs : Restarted s) {e : ScheduleEntry} {todo : List ScheduleEntry}
    {last : ResultRow} (hpc : s.pc = .resetting (e :: todo))
    (hlast : s.db.lastResult? e.name = some last) : Ahead (e.name, last.taskId + 1) s.usedIds := by
  intro x hx hname
  obtain ⟨r, hr, rfl⟩ := hs.usedIds hpc hx
  have hle := Database.lastResult?_le hlast (Database.mem_resultsOf.mpr ⟨hr, hname⟩)
  exact Nat.lt_succ_of_le hle

/-- An update finds the row as it has read it, and an entry is deleted only while
no task of it is pending. -/
def AtomicRequests (s : Sys) : Label → Prop
  | .write k _ => ∀ q, s.requests[k]? = some q → s.db.getEntry q.entry.name = some q.entry
  | .deleteEntry name => name ∉ s.pc.waiting.map Task.scheduleEntryName
  | _ => True

instance (s : Sys) : DecidablePred (AtomicRequests s)
  | .write k _ =>
    inferInstanceAs (Decidable (∀ q ∈ s.requests[k]?, s.db.getEntry q.entry.name = some q.entry))
  | .deleteEntry name =>
    inferInstanceAs (Decidable (name ∉ s.pc.waiting.map Task.scheduleEntryName))
  | .sched _ => .isTrue trivial
  | .finalizer _ _ => .isTrue trivial
  | .measure _ => .isTrue trivial
  | .stop => .isTrue trivial
  | .crash => .isTrue trivial
  | .post _ _ _ _ => .isTrue trivial
  | .read _ _ => .isTrue trivial
  | .deleteResult _ => .isTrue trivial

/-- An entry is deleted only while no task of it is in progress. -/
def DeletesIdle (s : Sys) : Label → Prop
  | .deleteEntry name => name ∉ s.openResults.map fun r => r.scheduleEntry
  | _ => True

/-- The entries of the ids in use and of the ids that wait are stored. -/
def HaveRows (used : List (String × ℕ)) (s : Sys) : Prop :=
  ∀ x ∈ used ++ s.pc.waiting.map Task.key, (s.db.getEntry x.1).isSome

theorem HaveRows.step (hs : HaveRows used s) (hused : CreatesAtMost s t used used')
    (hdelete : ∀ name, l = .deleteEntry name → s.db.resultsOf name = [] →
      ∀ x ∈ used ++ s.pc.waiting.map Task.key, x.1 ≠ name)
    (h : step cfg s l = some t) : HaveRows used' t := by
  have hrows : ∀ x ∈ used ++ s.pc.waiting.map Task.key, (t.db.getEntry x.1).isSome := by
    intro x hx
    have hrow := step_row h x.1
    generalize t.db.getEntry x.1 = out at hrow
    cases hrow with
    | same => exact hs x hx
    | delete hl hfree => exact absurd rfl (hdelete x.1 hl hfree x hx)
    | _ => rfl
  intro x hx
  rcases List.mem_append.mp hx with hx | hx
  · exact hrows x (hused.subset x hx)
  · obtain ⟨y, hy, rfl⟩ := List.mem_map.mp hx
    obtain hold | ⟨taskTime, e, todo, queue, hpc, hpc', hnext⟩ := step_waiting h
    · exact hrows y.key (List.mem_append_right _ (List.mem_map_of_mem (hold y hy)))
    · rw [hpc'] at hy
      obtain hy | hy := TaskQueue.mem_enter.mp hy
      · obtain ⟨row, hrow, -⟩ := Option.map_eq_some_iff.mp hnext
        rw [hy]
        exact Option.isSome_iff_exists.mpr ⟨row, hrow⟩
      · refine hrows y.key (List.mem_append_right _ (List.mem_map_of_mem ?_))
        rw [hpc]
        exact hy

theorem DeletesIdle.unused (hatomic : AtomicRequests s l) (hidle : DeletesIdle s l) {name : String}
    (hl : l = .deleteEntry name) (hfree : s.db.resultsOf name = []) :
    ∀ x ∈ s.usedIds ++ s.pc.waiting.map Task.key, x.1 ≠ name := by
  intro x hx hname
  rw [hl] at hatomic hidle
  rcases List.mem_append.mp hx with hx | hx
  · obtain ⟨m, hm, rfl⟩ := List.mem_map.mp hx
    obtain ⟨r, hr, rfl⟩ := List.mem_map.mp hm
    rcases List.mem_append.mp hr with hr | hr
    · have hmem : r ∈ s.db.resultsOf name := Database.mem_resultsOf.mpr ⟨hr, hname⟩
      rw [hfree] at hmem
      cases hmem
    · exact hidle (List.mem_map.mpr ⟨r, hr, hname⟩)
  · obtain ⟨y, hy, rfl⟩ := List.mem_map.mp hx
    exact hatomic (List.mem_map.mpr ⟨y, hy, hname⟩)

theorem keepsCounters_of_requests (hs : Restarted s) (hrows : HaveRows s.usedIds s)
    (hatomic : AtomicRequests s l) : KeepsCounters s.usedIds s l := by
  refine ⟨fun e todo last => hs.reset, ?_, ?_⟩
  · intro k now q hl hq
    rw [hl] at hatomic
    unfold Database.nextTaskIds
    rw [hatomic q hq]
    rfl
  · intro name owner body now hl hnew x hx hname
    have hrow := hrows x hx
    rw [hname, hnew] at hrow
    cases hrow

/-- Stored ids are below the counters, and pending ids are new ones below them,
so that no result is created under an id that is taken. -/
structure IdsUnique (s : Sys) : Prop where
  stored : ∀ r ∈ s.db.results, ∃ e, s.db.getEntry r.scheduleEntry = some e ∧ r.taskId < e.nextTaskId
  distinct : (s.pc.waiting.map Task.key).Nodup
  pending : ∀ x ∈ s.pc.waiting,
    (∃ e, s.db.getEntry x.scheduleEntryName = some e ∧ x.taskId < e.nextTaskId) ∧
      x.key ∉ s.db.results.map fun r => r.key
  creation : ∀ task tasks, s.pc = .inserting task tasks →
    s.db.superSave none { scheduleEntry := task.scheduleEntryName, taskId := task.taskId } ≠
      .error .uniqueViolation

/-- What holds at every point of a run with restarts and atomic requests. -/
structure WellNumbered (s : Sys) : Prop where
  names : NamesUnique s.db
  restarted : Restarted s
  numbered : Numbered s.usedIds s
  past : CountersPast s.usedIds s
  rows : HaveRows s.usedIds s

theorem WellNumbered.step (hs : WellNumbered s) (hatomic : AtomicRequests s l)
    (hidle : DeletesIdle s l) (h : step cfg s l = some t) : WellNumbered t := by
  have hused := step_usedIds h
  have hkeeps := keepsCounters_of_requests hs.restarted hs.rows hatomic
  have hread : s.pc = .reading → Below s.db.nextTaskIds s.usedIds := by
    intro _
    exact hs.past.subset fun x hx => List.mem_append_left _ hx
  exact ⟨step_names hs.names h, step_restarted hs.restarted h,
    hs.numbered.step hs.names hread hused h, hs.past.step hs.numbered hkeeps hused h,
    hs.rows.step hused (fun _ => hidle.unused hatomic) h⟩

theorem WellNumbered.idsUnique (hs : WellNumbered s) : IdsUnique s := by
  have hnew : ∀ x ∈ s.pc.waiting, x.key ∉ s.db.results.map fun r => r.key := by
    intro x hx hmem
    obtain ⟨r, hr, hkey⟩ := List.mem_map.mp hmem
    exact (hs.numbered.waiting x hx).notMem (hkey ▸ key_used (mark_stored hr))
  have hbelow : ∀ x ∈ s.usedIds ++ s.pc.waiting.map Task.key,
      ∃ e, s.db.getEntry x.1 = some e ∧ x.2 < e.nextTaskId := by
    intro x hx
    obtain ⟨e, he⟩ := Option.isSome_iff_exists.mp (hs.rows x hx)
    refine ⟨e, he, hs.past x hx _ ?_⟩
    unfold Database.nextTaskIds
    rw [he]
    rfl
  refine ⟨?_, ?_, ?_, ?_⟩
  · intro r hr
    exact hbelow r.key (List.mem_append_left _ (key_used (mark_stored hr)))
  · have hnames := hs.numbered.waitingNames
    have hmap : s.pc.waiting.map Task.scheduleEntryName = (s.pc.waiting.map Task.key).map Prod.fst := by
      simp [Task.key, Function.comp_def]
    rw [hmap] at hnames
    exact hnames.of_map
  · intro x hx
    exact ⟨hbelow x.key (List.mem_append_right _ (List.mem_map_of_mem hx)), hnew x hx⟩
  · intro task tasks hpc hsave
    have hkey := hnew task (by rw [hpc]; exact List.mem_cons_self)
    obtain ⟨hmem, -⟩ | ⟨-, herr⟩ := Database.superSave_new_error rfl hsave
    · exact hkey hmem
    · cases herr

/-- A process that starts on a database whose stored ids are below the counters. -/
theorem wellNumbered_start {db : Database} (hnames : NamesUnique db)
    (hids : ∀ r ∈ db.results, ∃ e, db.getEntry r.scheduleEntry = some e ∧ r.taskId < e.nextTaskId) :
    WellNumbered { db := db } := by
  have hstored : ∀ x ∈ Sys.usedIds { db := db } ++ (Pc.starting.waiting).map Task.key,
      ∃ r ∈ db.results, r.key = x := by
    intro x hx
    simpa [Sys.usedIds, Sys.marks, Sys.openResults, Pc.running, Pc.waiting, ResultRow.mark] using hx
  refine ⟨hnames, fun _ => rfl, numbered_start _ db, ?_, ?_⟩
  · intro x hx n hn
    obtain ⟨r, hr, rfl⟩ := hstored x hx
    obtain ⟨e, he, hlt⟩ := hids r hr
    have hn' : (db.getEntry r.scheduleEntry).map ScheduleEntry.nextTaskId = some n := hn
    rw [he] at hn'
    exact Option.some.inj hn' ▸ hlt
  · intro x hx
    obtain ⟨r, hr, rfl⟩ := hstored x hx
    obtain ⟨e, he, -⟩ := hids r hr
    exact Option.isSome_iff_exists.mpr ⟨e, he⟩

/-- In every state of a run that starts with a fresh process, with restarts and
atomic requests in any order and results deleted at any time, the ids are unique,
provided that entries are deleted only while no task of theirs is in progress. -/
theorem task_ids_unique (cfg : Settings) (db : Database) (hnames : NamesUnique db)
    (hids : ∀ r ∈ db.results, ∃ e, db.getEntry r.scheduleEntry = some e ∧ r.taskId < e.nextTaskId)
    (ls : List Label) (t : Sys)
    (hatomic : Along (step cfg) AtomicRequests { db := db } ls)
    (hidle : Along (step cfg) DeletesIdle { db := db } ls)
    (hrun : exec (step cfg) { db := db } ls = some t) : IdsUnique t := by
  have hstep : ∀ s l s', WellNumbered s → AtomicRequests s l ∧ DeletesIdle s l →
      step cfg s l = some s' → WellNumbered s' := fun s l s' hs hl h => hs.step hl.1 hl.2 h
  exact (exec_invariant hstep (wellNumbered_start hnames hids) (hatomic.and hidle) hrun).idsUnique

/-- One entry that is due, with finalizations in the thread. -/
def oneDue : Database where
  schedule := [⟨"sweep", "acquire", 10, 0, none, none, true, none, 0, 1, "op"⟩]

/-- While the only task is in progress, its result is deleted. -/
def untilResultDeleted : List Label := List.replicate 13 (.sched {}) ++ [.deleteResult 1]

/-- Then the entry is deleted and made again, and the finalization saves the result. -/
def madeAgain : List Label :=
  [.deleteEntry "sweep", .post "sweep" "op" { action := some "acquire", start := some 0 } 0,
    .sched {}, .sched {}, .sched {}]

/-- The new entry has a result with the id that its counter gives out next. -/
theorem old_id_in_new_entry :
    ∃ t, exec (step inThread) { db := oneDue } (untilResultDeleted ++ madeAgain) = some t ∧
      Along (step inThread) AtomicRequests { db := oneDue } (untilResultDeleted ++ madeAgain) ∧
      ¬ IdsUnique t := by
  have hwaiting : (exec (step inThread) { db := oneDue } untilResultDeleted).map
      (fun s => s.pc.waiting) = some [] := by decide
  have hend : (exec (step inThread) { db := oneDue } (untilResultDeleted ++ madeAgain)).map
      (fun t => (t.db.results.map fun r => r.key, t.db.nextTaskIds "sweep")) =
      some ([("sweep", 1)], some 1) := by decide
  obtain ⟨t, ht, hids⟩ := Option.map_eq_some_iff.mp hend
  obtain ⟨hkeys, hnext⟩ := Prod.mk.inj hids
  refine ⟨t, ht, ?_, ?_⟩
  · apply along_append.mpr
    refine ⟨along_append.mpr ⟨along_replicate (fun _ => trivial) 13 _, fun _ _ => ?_⟩, ?_⟩
    · exact ⟨trivial, fun _ _ => trivial⟩
    · intro s hs
      rw [hs, Option.map_some, Option.some.injEq] at hwaiting
      refine ⟨?_, fun _ _ => ⟨trivial, fun _ _ => along_replicate (fun _ => trivial) 3 _⟩⟩
      simp [AtomicRequests, hwaiting]
  · intro hunique
    obtain ⟨r, hr, hkey⟩ := List.mem_map.mp (hkeys ▸ List.mem_singleton_self ("sweep", 1))
    obtain ⟨e, he, hlt⟩ := hunique.stored r hr
    obtain ⟨hname, hid⟩ := Prod.mk.inj hkey
    rw [Database.nextTaskIds, ← hname, he, Option.map_some, Option.some.injEq] at hnext
    omega

/-- The entry is made again before its task is queued. -/
theorem task_ids_unique_made_again :
    ∃ t, exec (step inThread) { db := oneDue } madeAgain = some t ∧ IdsUnique t := by
  have hnames : NamesUnique oneDue := by
    unfold NamesUnique
    decide
  have hruns : (exec (step inThread) { db := oneDue } madeAgain).isSome := by decide
  obtain ⟨t, ht⟩ := Option.isSome_iff_exists.mp hruns
  refine ⟨t, ht, task_ids_unique inThread oneDue hnames (fun _ h => nomatch h) madeAgain t ?_ ?_ ht⟩
  · refine ⟨by simp [AtomicRequests, Pc.waiting], fun _ _ => ⟨trivial, fun _ _ => ?_⟩⟩
    exact along_replicate (fun _ => trivial) 3 _
  · refine ⟨by simp [DeletesIdle, Sys.openResults, Pc.running], fun _ _ => ⟨trivial, fun _ _ => ?_⟩⟩
    exact along_replicate (fun _ => trivial) 3 _

end Scheduler

end ScosSensor
