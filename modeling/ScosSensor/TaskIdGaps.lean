import ScosSensor.CrashSafety
import ScosSensor.CreatedIds

/-!
# Gaps in the task ids

A process that dies has moved the counters of the entries whose tasks wait, and the
next process sets a counter back only when a result of its entry is stored. The ids of
all created results are without a gap when every death finds the last created result of
each active entry stored as the last one, or finds none stored and the counter at the id
whose turn it is.
-/
namespace ScosSensor

namespace Scheduler

open Runs

/-- Nothing is edited or deleted over the API. -/
def NoEdits : Label → Prop
  | .write _ _ => False
  | .deleteEntry _ => False
  | .deleteResult _ => False
  | _ => True

instance : DecidablePred NoEdits
  | .sched _ => .isTrue trivial
  | .finalizer _ _ => .isTrue trivial
  | .measure _ => .isTrue trivial
  | .stop => .isTrue trivial
  | .crash => .isTrue trivial
  | .post _ _ _ _ => .isTrue trivial
  | .read _ _ => .isTrue trivial
  | .write _ _ => .isFalse id
  | .deleteEntry _ => .isFalse id
  | .deleteResult _ => .isFalse id

instance (s : Sys) (row : ScheduleEntry) : Decidable (Repairable s row) :=
  match hlast : s.db.lastResult? row.name with
  | some last =>
    decidable_of_iff (last.taskId + 1 = s.dueId row.name) (by rw [Repairable, hlast])
  | none => decidable_of_iff (row.nextTaskId = s.dueId row.name) (by rw [Repairable, hlast])

/-- A death leaves every active entry with its last created result as the last one stored,
or with none stored and the counter at the id whose turn it is. -/
def RepairableDeath (s : Sys) : Label → Prop
  | .crash => ∀ row ∈ s.db.activeEntries, Repairable s row
  | _ => True

instance (s : Sys) : DecidablePred (RepairableDeath s)
  | .crash => inferInstanceAs (Decidable (∀ row ∈ s.db.activeEntries, Repairable s row))
  | .sched _ => .isTrue trivial
  | .finalizer _ _ => .isTrue trivial
  | .measure _ => .isTrue trivial
  | .stop => .isTrue trivial
  | .post _ _ _ _ => .isTrue trivial
  | .read _ _ => .isTrue trivial
  | .write _ _ => .isTrue trivial
  | .deleteEntry _ => .isTrue trivial
  | .deleteResult _ => .isTrue trivial

theorem unedited_of_noEdits {s : Sys} {l : Label} (hl : NoEdits l) (hdeath : RepairableDeath s l) :
    Unedited False s l := by
  refine ⟨?_, ?_, ?_, ?_⟩
  · intro heq
    subst heq
    exact ⟨id, hdeath⟩
  · intro k now heq
    subst heq
    exact hl.elim
  · intro name heq
    subst heq
    exact hl
  · intro id heq
    subst heq
    exact hl

/-- In every run from entries that have given out no ids, with deaths at any point that
leave the last created results or none, the results of every entry are created under the
ids 1, 2, 3 and so on, and before each pass the counter of every active entry gives out
the next of them. -/
theorem created_ids_gapFree (cfg : Settings) (rows : List ScheduleEntry)
    (hnames : (rows.map ScheduleEntry.name).Nodup) (hfirst : ∀ e ∈ rows, e.nextTaskId = 1)
    (ls : List Label) (t : Sys) (hls : ∀ l ∈ ls, NoEdits l)
    (hdeaths : Along (step cfg) RepairableDeath { db := { schedule := rows } } ls)
    (hrun : exec (step cfg) { db := { schedule := rows } } ls = some t) :
    (∀ name, createdIds t.history name = List.range' 1 (createdIds t.history name).length) ∧
      (t.pc = .checking → ∀ row ∈ t.db.activeEntries,
        row.nextTaskId = (createdIds t.history row.name).length + 1) := by
  have hquiet : Along (step cfg) (fun _ l => NoEdits l) { db := { schedule := rows } } ls :=
    Along.of_forall_mem fun l hl _ => hls l hl
  have hstep : ∀ s l s', Numbering False s → NoEdits l ∧ RepairableDeath s l →
      step cfg s l = some s' → Numbering False s' :=
    fun s l s' hs hl h => hs.step (unedited_of_noEdits hl.1 hl.2) h
  have hend := exec_invariant hstep (numbering_start False hnames hfirst) (hquiet.and hdeaths) hrun
  refine ⟨hend.turn.gapFree, ?_⟩
  intro hpc row hrow
  obtain ⟨hstored, hon⟩ := Database.mem_activeEntries.mp hrow
  have hdue := hend.counters.due row.name row (Table.get?_of_mem hend.well.names hstored) (.inl hon)
    (by simp [hpc, AwaitsReset]) (by simp [hpc])
  rwa [CounterDue, Sys.waitingOf, hpc] at hdue

/-- The process dies when the first task is queued and its result is not created. -/
def firstTaskLost : List Label := List.replicate 8 (.sched {}) ++ .crash :: upToAction 10

/-- The first result that is created has the id 2. -/
theorem first_id_skipped :
    ∃ t, exec (step inThread) { db := { schedule := everyTen } } firstTaskLost = some t ∧
      (∀ l ∈ firstTaskLost, NoEdits l) ∧ createdIds t.history "sweep" = [2] ∧
      createdIds t.history "sweep" ≠ List.range' 1 (createdIds t.history "sweep").length := by
  have hids : (exec (step inThread) { db := { schedule := everyTen } } firstTaskLost).map
      (fun t => createdIds t.history "sweep") = some [2] := by decide
  obtain ⟨t, ht, hids⟩ := Option.map_eq_some_iff.mp hids
  refine ⟨t, ht, by decide, hids, ?_⟩
  rw [hids]
  decide

/-- The process dies in the action of the first task and goes on with the second one. -/
theorem created_ids_gapFree_crash :
    ∃ t, exec (step inThread) { db := { schedule := everyTen } }
        (upToAction 0 ++ .crash :: upToAction 10) = some t ∧
      createdIds t.history "sweep" = List.range' 1 (createdIds t.history "sweep").length := by
  have hruns : (exec (step inThread) { db := { schedule := everyTen } }
      (upToAction 0 ++ .crash :: upToAction 10)).isSome := by decide
  obtain ⟨t, ht⟩ := Option.isSome_iff_exists.mp hruns
  exact ⟨t, ht, (created_ids_gapFree inThread everyTen (by decide) (by decide)
    (upToAction 0 ++ .crash :: upToAction 10) t (by decide) (by decide) ht).1 "sweep"⟩

end Scheduler

end ScosSensor
