import ScosSensor.CrashSafety

/-!
# Removed results

A finalization holds the instance of its result while others can remove the row. Its
saves then fall back to an INSERT under the old row id, and the guard of the disk limit
no longer protects anything, since the oldest row is another one by now. A removed
result stays removed exactly when each such save is refused by the database or finds
no newer row that it may remove.
-/
namespace ScosSensor

namespace Database

/-- DELETE of all results of an entry. -/
def destroyAll (db : Database) (name : String) : Database :=
  { db with
    results := db.results.filter fun r => r.scheduleEntry ≠ name
    acquisitions := db.acquisitions.filter fun a =>
      a.taskResult ∉ (db.resultsOf name).map fun r => r.id }

end Database

/-- The finalization that a step is one of, in the thread or in its own. -/
def Sys.finalizationAt (s : Sys) : Label → Option Finalization
  | .sched _ =>
    match s.pc with
    | .finalizing f _ => some f
    | _ => none
  | .finalizer k _ => s.finalizations[k]?
  | _ => none

/-- The disk usage that a step reads. -/
def Label.percentUsed : Label → ℚ
  | .sched i => i.percentUsed
  | .finalizer _ i => i.percentUsed
  | _ => 0

namespace Scheduler

open Runs

variable {cfg : Settings} {s t : Sys} {l : Label} {i : Input} {f : Finalization} {w w' : World}
  {id : ℕ}

/-- A save of a result without a row does no harm: the write is refused, since the key
is stored again, the entry is gone or the detail cannot be sent, and the oldest row is
not a newer one that the disk limit lets go. -/
def HarmlessSave (cfg : Settings) (percentUsed : ℚ) (db : Database) (f : Finalization) : Prop :=
  match f.stage with
  | .writing _ => (f.result.key ∈ db.results.map fun r => r.key) ∨
      db.getEntry f.result.scheduleEntry = none ∨ f.result.detail.storable = false
  | .evicting _ => ∀ oldest ∈ db.oldest? f.result.scheduleEntry, f.result.id < oldest.id →
      ¬ (db.HoldsData oldest ∧ (cfg.maxDiskUsage : ℚ) < percentUsed)
  | _ => True

instance (cfg : Settings) (percentUsed : ℚ) (db : Database) (f : Finalization) :
    Decidable (HarmlessSave cfg percentUsed db f) :=
  match hstage : f.stage with
  | .writing _ =>
    decidable_of_iff ((∃ r ∈ db.results, r.key = f.result.key) ∨
      db.getEntry f.result.scheduleEntry = none ∨ f.result.detail.storable = false)
      (by rw [HarmlessSave, hstage, List.mem_map])
  | .evicting _ =>
    decidable_of_iff (∀ oldest ∈ db.oldest? f.result.scheduleEntry, f.result.id < oldest.id →
      ¬ (db.HoldsData oldest ∧ (cfg.maxDiskUsage : ℚ) < percentUsed))
      (by rw [HarmlessSave, hstage])
  | .notifying => .isTrue (by rw [HarmlessSave, hstage]; trivial)
  | .counting => .isTrue (by rw [HarmlessSave, hstage]; trivial)

/-- If the step is one of a finalization whose result has no row, it does no harm. -/
def SparesRemoved (cfg : Settings) (s : Sys) (l : Label) : Prop :=
  ∀ f ∈ s.finalizationAt l, f.result.id ∉ s.db.storedIds →
    HarmlessSave cfg l.percentUsed s.db f

instance (cfg : Settings) (s : Sys) (l : Label) : Decidable (SparesRemoved cfg s l) :=
  inferInstanceAs (Decidable (∀ f ∈ s.finalizationAt l, f.result.id ∉ s.db.storedIds →
    HarmlessSave cfg l.percentUsed s.db f))

/-- No step stores a row again that was removed, and a save of a removed result leaves
all newer ones. -/
structure StaysRemoved (cfg : Settings) (s : Sys) (l : Label) : Prop where
  rows : ∀ t, step cfg s l = some t → ∀ id < s.db.nextId, id ∉ s.db.storedIds →
    id ∉ t.db.storedIds
  newer : ∀ t, step cfg s l = some t → ∀ f ∈ s.finalizationAt l, f.result.id ∉ s.db.storedIds →
    ∀ r ∈ s.db.results, f.result.id < r.id → r.id ∈ t.db.storedIds

/-- What a save needs to leave a removed result and the newer ones alone. -/
def LeavesRemoved (f : Finalization) (db db' : Database) : Prop :=
  f.result.id ∉ db'.storedIds ∧ ∀ r ∈ db.results, f.result.id < r.id → r.id ∈ db'.storedIds

theorem leavesRemoved_same {db : Database} (hgone : f.result.id ∉ db.storedIds) :
    LeavesRemoved f db db := ⟨hgone, fun _ hr _ => List.mem_map_of_mem hr⟩

/-- The first half of a save removes a newer row exactly when the oldest is newer and
the disk limit lets it go. -/
theorem leavesRemoved_removeOldest {db : Database} {maxDiskUsage : ℤ} {percentUsed : ℚ}
    (hgone : f.result.id ∉ db.storedIds) :
    LeavesRemoved f db
        (db.removeOldest maxDiskUsage percentUsed f.result.scheduleEntry (some f.result.id)) ↔
      ∀ oldest ∈ db.oldest? f.result.scheduleEntry, f.result.id < oldest.id →
        ¬ (db.HoldsData oldest ∧ (maxDiskUsage : ℚ) < percentUsed) := by
  unfold Database.removeOldest
  cases hold : db.oldest? f.result.scheduleEntry with
  | none => simp [leavesRemoved_same hgone]
  | some oldest =>
    obtain ⟨hstored, -⟩ := Database.mem_resultsOf.mp (Database.oldest?_mem hold)
    have hne : oldest.id ≠ f.result.id := fun heq => hgone (heq ▸ List.mem_map_of_mem hstored)
    simp only [Option.mem_some_iff, forall_eq']
    split_ifs with hremove
    · constructor
      · rintro ⟨-, hnewer⟩ hlt
        have hkept := hnewer oldest hstored hlt
        exact absurd rfl (Database.mem_storedIds_deleteResult.mp hkept).2
      · intro hspared
        refine ⟨fun h => hgone (Database.mem_storedIds_deleteResult.mp h).1, fun r hr hlt => ?_⟩
        refine Database.mem_storedIds_deleteResult.mpr ⟨List.mem_map_of_mem hr, ?_⟩
        intro heq
        exact hspared (heq ▸ hlt) hremove.2
    · refine iff_of_true (leavesRemoved_same hgone) fun _ hfull => hremove ⟨?_, hfull⟩
      exact fun heq => hne (Option.some.inj heq)

/-- The INSERT of a row that is gone is refused by its key, its entry or its detail. -/
theorem superSave_removed_error {db : Database} {tr : TaskResult} {err : Exc}
    (hgone : id ∉ db.storedIds) (hsave : db.superSave (some id) tr = .error err) :
    (tr.key ∈ db.results.map fun r => r.key) ∨ db.getEntry tr.scheduleEntry = none ∨
      tr.detail.storable = false := by
  have hid : ¬ id ∈ db.results.map fun r => r.id := hgone
  unfold Database.superSave Database.insertRow at hsave
  dsimp only at hsave
  split_ifs at hsave with hdetail hkey hentry
  · exact .inl hkey
  · exact .inr (.inl (by simpa using hentry))
  · exact .inr (.inr (by simpa using hdetail))

theorem superSave_removed_ok {db db' : Database} {tr : TaskResult} {row : ResultRow}
    (hgone : id ∉ db.storedIds) (hsave : db.superSave (some id) tr = .ok (row, db')) :
    ¬ ((tr.key ∈ db.results.map fun r => r.key) ∨ db.getEntry tr.scheduleEntry = none ∨
      tr.detail.storable = false) := by
  obtain ⟨hself, hid, -⟩ | ⟨-, hinsert⟩ := Database.superSave_ok hsave
  · exact absurd hid (Option.some.inj hself ▸ hgone)
  · obtain ⟨-, hkey, hentry, -⟩ := Database.insertRow_ok hinsert
    rintro (hmem | hnone | hrefused)
    · exact hkey hmem
    · simp [hnone] at hentry
    · simp [Database.storable_of_superSave hsave] at hrefused

/-- A stage of a finalization whose result is removed leaves what it should exactly when
it does no harm. -/
theorem FinalizeMove.leavesRemoved_iff {next : Option Finalization}
    (h : FinalizeMove cfg i f w next w') (hgone : f.result.id ∉ w.db.storedIds) :
    LeavesRemoved f w.db w'.db ↔ HarmlessSave cfg i.percentUsed w.db f := by
  unfold HarmlessSave
  cases h with
  | evict site hstage =>
    rw [hstage]
    exact leavesRemoved_removeOldest hgone
  | write site row db hstage hsave =>
    rw [hstage]
    refine iff_of_false (fun hleaves => ?_) (superSave_removed_ok hgone hsave)
    exact hleaves.1 ((Database.storedIds_superSave hsave).mpr (.inr rfl))
  | retry err hstage hsave =>
    rw [hstage]
    exact iff_of_true (leavesRemoved_same hgone) (superSave_removed_error hgone hsave)
  | notify entry hstage =>
    rw [hstage]
    exact iff_of_true (leavesRemoved_same hgone) trivial
  | count w' hstage hcount =>
    have hframe := countFailures_frame cfg f.status w
    rw [hcount] at hframe
    rw [hstage, hframe.1]
    exact iff_of_true (leavesRemoved_same hgone) trivial

theorem FinalizeRaise.leavesRemoved_iff {err : Exc} (h : FinalizeRaise cfg f w err w')
    (hgone : f.result.id ∉ w.db.storedIds) (percentUsed : ℚ) :
    LeavesRemoved f w.db w'.db ↔ HarmlessSave cfg percentUsed w.db f := by
  rw [h.frame.1]
  refine iff_of_true (leavesRemoved_same hgone) ?_
  unfold HarmlessSave
  cases h with
  | write site err hstage hsite hsave =>
    rw [hstage]
    exact superSave_removed_error hgone hsave
  | noEntry hstage =>
    rw [hstage]
    trivial
  | count w' err hstage =>
    rw [hstage]
    trivial

/-- A finalization stores at most its own row. -/
theorem FinalizeMove.storedIds {next : Option Finalization} (h : FinalizeMove cfg i f w next w')
    (hid : id ∈ w'.db.storedIds) : id ∈ w.db.storedIds ∨ id = f.result.id := by
  obtain ⟨r, hr, rfl⟩ := Database.mem_storedIds.mp hid
  obtain hold | hown := h.results hr
  · exact .inl (List.mem_map_of_mem hold)
  · exact .inr (congrArg Prod.snd hown)

/-- What a step does to a finalization: a move of it, or an exception that it raises. -/
inductive FinalizationStep (cfg : Settings) (s : Sys) (percentUsed : ℚ) (f : Finalization) :
    Database → Prop
  | move (i : Input) (next : Option Finalization) (w : World) (hused : i.percentUsed = percentUsed)
      (hmove : FinalizeMove cfg i f s.toWorld next w) : FinalizationStep cfg s percentUsed f w.db
  | raise (err : Exc) (w : World) (hraise : FinalizeRaise cfg f s.toWorld err w) :
    FinalizationStep cfg s percentUsed f w.db

/-- A step of the thread outside of a finalization stores at most a new row. -/
theorem schedMove_storedIds (h : SchedMove cfg i s t) :
    (s.finalizationAt (.sched i) = none ∧
        ∀ id ∈ t.db.storedIds, id ∈ s.db.storedIds ∨ id = s.db.nextId) ∨
      ∃ f, s.finalizationAt (.sched i) = some f ∧
        FinalizationStep cfg s i.percentUsed f t.db := by
  cases h with
  | finalize f f' tasks w hpc hmove =>
    exact .inr ⟨f, by simp [Sys.finalizationAt, hpc], .move i _ w rfl hmove⟩
  | finalized f tasks w hpc hmove =>
    exact .inr ⟨f, by simp [Sys.finalizationAt, hpc], .move i _ w rfl hmove⟩
  | finalizeRaise f tasks err w hpc hraise =>
    exact .inr ⟨f, by simp [Sys.finalizationAt, hpc], .raise err w hraise⟩
  | evict task tasks hpc =>
    refine .inl ⟨by simp [Sys.finalizationAt, hpc], fun id hid => .inl ?_⟩
    obtain ⟨r, hr, rfl⟩ := Database.mem_storedIds.mp hid
    exact List.mem_map_of_mem (Database.mem_of_mem_removeOldest hr)
  | create task tasks result db hpc hsave =>
    refine .inl ⟨by simp [Sys.finalizationAt, hpc], fun id hid => ?_⟩
    obtain ⟨hnew, -⟩ := Database.superSave_new hsave
    obtain ⟨r, hr, rfl⟩ := Database.mem_storedIds.mp hid
    obtain hold | rfl := Database.mem_of_mem_superSave hsave hr
    · exact .inl (List.mem_map_of_mem hold)
    · exact .inr hnew
  | raise err hraise =>
    refine .inl ⟨?_, fun _ hid => .inl hid⟩
    cases hraise with
    | load hpc => rcases hpc with hpc | hpc <;> simp [Sys.finalizationAt, hpc]
    | _ => simp_all [Sys.finalizationAt]
  | jump pc hjump =>
    refine .inl ⟨?_, fun _ hid => .inl hid⟩
    cases hjump <;> simp_all [Sys.finalizationAt]
  | _ => exact .inl ⟨by simp_all [Sys.finalizationAt], fun _ hid => .inl hid⟩

/-- Every step is one of a finalization or stores at most a new row. -/
theorem step_storedIds (h : step cfg s l = some t) :
    (s.finalizationAt l = none ∧
        ∀ id ∈ t.db.storedIds, id ∈ s.db.storedIds ∨ id = s.db.nextId) ∨
      ∃ f, s.finalizationAt l = some f ∧ FinalizationStep cfg s l.percentUsed f t.db := by
  cases step_cases h with
  | sched i s' hmove => exact schedMove_storedIds hmove
  | finalizer k i f f' w hf hmove => exact .inr ⟨f, hf, .move i _ w rfl hmove⟩
  | finalizerEnd k i f w hf hmove => exact .inr ⟨f, hf, .move i _ w rfl hmove⟩
  | finalizerRaise k i f err w hf hraise => exact .inr ⟨f, hf, .raise err w hraise⟩
  | measure recordingId =>
    refine .inl ⟨rfl, fun id hid => .inl ?_⟩
    rwa [Database.storedIds, Database.storeAcquisition_results] at hid
  | write k now q hq =>
    refine .inl ⟨rfl, fun id hid => .inl ?_⟩
    unfold Database.saveWhole at hid
    split_ifs at hid <;> exact hid
  | deleteEntry name db hremove =>
    obtain ⟨-, -, rfl⟩ := Database.removeEntry_some hremove
    exact .inl ⟨rfl, fun _ hid => .inl hid⟩
  | deleteResult gone hgone =>
    exact .inl ⟨rfl, fun id hid => .inl (Database.mem_storedIds_deleteResult.mp hid).1⟩
  | _ => exact .inl ⟨rfl, fun _ hid => .inl hid⟩

theorem FinalizationStep.storedIds {db : Database} {percentUsed : ℚ}
    (h : FinalizationStep cfg s percentUsed f db) (hid : id ∈ db.storedIds) :
    id ∈ s.db.storedIds ∨ id = f.result.id := by
  cases h with
  | move i next w hused hmove => exact hmove.storedIds hid
  | raise err w hraise => exact .inl (hraise.frame.1 ▸ hid)

theorem FinalizationStep.leavesRemoved_iff {db : Database} {percentUsed : ℚ}
    (h : FinalizationStep cfg s percentUsed f db) (hgone : f.result.id ∉ s.db.storedIds) :
    LeavesRemoved f s.db db ↔ HarmlessSave cfg percentUsed s.db f := by
  cases h with
  | move i next w hused hmove => exact hused ▸ hmove.leavesRemoved_iff hgone
  | raise err w hraise => exact hraise.leavesRemoved_iff hgone percentUsed

theorem finalizationAt_mem (hf : s.finalizationAt l = some f) : f.result.mark ∈ s.marks := by
  unfold Sys.finalizationAt at hf
  split at hf
  · split at hf
    · rename_i g tasks hpc
      obtain rfl := Option.some.inj hf
      exact mark_running (by rw [hpc]; exact List.mem_singleton_self g.result)
    · cases hf
  · exact mark_inFlight (List.mem_of_getElem? hf)
  · cases hf

/-- What is removed stays so in a step exactly when the step spares the removed. -/
theorem step_staysRemoved_iff (hs : RowsFresh s) (h : step cfg s l = some t) :
    StaysRemoved cfg s l ↔ SparesRemoved cfg s l := by
  have hnext : ∀ u, step cfg s l = some u → u = t := fun u hu => Option.some.inj (hu.symm.trans h)
  obtain ⟨hnone, hids⟩ | ⟨f, hf, hstep⟩ := step_storedIds h
  · have hquiet : SparesRemoved cfg s l := by simp [SparesRemoved, hnone]
    refine iff_of_true ⟨?_, ?_⟩ hquiet
    · intro u hu id hlt hgone hid
      obtain hold | hnew := hids id (hnext u hu ▸ hid)
      · exact hgone hold
      · exact hlt.ne hnew
    · intro u hu f hf
      simp [hnone] at hf
  · have hown : SparesRemoved cfg s l ↔
        (f.result.id ∉ s.db.storedIds → HarmlessSave cfg l.percentUsed s.db f) := by
      simp [SparesRemoved, hf]
    rw [hown]
    constructor
    · intro hstays hgone
      refine (hstep.leavesRemoved_iff hgone).mp ⟨?_, hstays.newer t h f hf hgone⟩
      exact hstays.rows t h f.result.id (hs _ (finalizationAt_mem hf)) hgone
    · intro hspares
      constructor
      · intro u hu id hlt hgone hid
        obtain rfl := hnext u hu
        obtain hold | rfl := hstep.storedIds hid
        · exact hgone hold
        · exact ((hstep.leavesRemoved_iff hgone).mpr (hspares hgone)).1 hid
      · intro u hu g hg hgone
        obtain rfl := hnext u hu
        obtain rfl := Option.some.inj (hf.symm.trans hg)
        exact ((hstep.leavesRemoved_iff hgone).mpr (hspares hgone)).2

/-- Results removed one after the other. -/
theorem exec_deleteResults {ids : List ℕ} (hnodup : ids.Nodup)
    (hstored : ∀ id ∈ ids, id ∈ s.db.storedIds) :
    exec (step cfg) s (ids.map .deleteResult) = some { s with db := { s.db with
      results := s.db.results.filter fun r => r.id ∉ ids
      acquisitions := s.db.acquisitions.filter fun a => a.taskResult ∉ ids } } := by
  induction ids generalizing s with
  | nil => simp
  | cons id ids ih =>
    obtain ⟨hid, hnodup⟩ := List.nodup_cons.mp hnodup
    have hfirst : step cfg s (.deleteResult id) = some { s with db := s.db.deleteResult id } :=
      if_pos (hstored id List.mem_cons_self)
    have hleft : ∀ other ∈ ids, other ∈ (s.db.deleteResult id).storedIds := by
      intro other hother
      refine Database.mem_storedIds_deleteResult.mpr
        ⟨hstored other (List.mem_cons_of_mem id hother), ?_⟩
      exact fun heq => hid (heq ▸ hother)
    rw [List.map_cons, exec, hfirst, Option.bind_some, ih hnodup hleft]
    simp [Database.deleteResult, List.filter_filter, Bool.and_comm]

/-- The removal of all results of an entry is the removal of one after the other. -/
theorem exec_destroyAll (hids : s.db.storedIds.Nodup) (name : String) :
    exec (step cfg) s (((s.db.resultsOf name).map fun r => r.id).map .deleteResult) =
      some { s with db := s.db.destroyAll name } := by
  have hnodup : ((s.db.resultsOf name).map fun r => r.id).Nodup :=
    hids.sublist (List.filter_sublist.map _)
  have hresults : s.db.results.filter
      (fun r => r.id ∉ (s.db.resultsOf name).map fun r => r.id) =
      s.db.results.filter fun r => r.scheduleEntry ≠ name := by
    apply List.filter_congr
    intro r hr
    rw [decide_eq_decide, not_iff_not, List.mem_map]
    constructor
    · rintro ⟨r', hr', heq⟩
      obtain ⟨hstored, hname⟩ := Database.mem_resultsOf.mp hr'
      rw [← Table.eq_of_key_eq hids hstored hr heq]
      exact hname
    · intro hname
      exact ⟨r, Database.mem_resultsOf.mpr ⟨hr, hname⟩, rfl⟩
  rw [exec_deleteResults hnodup, hresults]
  · rfl
  · intro id hid
    obtain ⟨r, hr, rfl⟩ := List.mem_map.mp hid
    exact List.mem_map_of_mem (Database.mem_resultsOf.mp hr).1

/-- In every run on tables whose row ids come from their counter, no removed row is
stored again and no save of a removed result takes a newer one away exactly when every
such save does no harm. Then what is removed at any point of the run is not stored at
its end. -/
theorem removed_stay_removed_iff (cfg : Settings) (db : Database)
    (hfresh : ∀ r ∈ db.results, r.id < db.nextId) (ls : List Label) (t : Sys)
    (hrun : exec (step cfg) { db := db } ls = some t) :
    (Along (step cfg) (StaysRemoved cfg) { db := db } ls ↔
        Along (step cfg) (SparesRemoved cfg) { db := db } ls) ∧
      (Along (step cfg) (SparesRemoved cfg) { db := db } ls →
        ∀ ls₁ ls₂ u, ls = ls₁ ++ ls₂ → exec (step cfg) { db := db } ls₁ = some u →
          ∀ id < u.db.nextId, id ∉ u.db.storedIds → id ∉ t.db.storedIds) := by
  have hstart : RowsFresh { db := db } := by
    intro m hm
    obtain ⟨r, hr, rfl⟩ | ⟨r, hr, -⟩ | ⟨f, hf, -⟩ := mem_marks.mp hm
    · exact hfresh r hr
    · cases hr
    · cases hf
  have hfreshStep : ∀ s l s', RowsFresh s → True → step cfg s l = some s' → RowsFresh s' :=
    fun s l s' hs _ h => step_rowsFresh hs h
  constructor
  · have hstays : ∀ s l s', RowsFresh s → True → step cfg s l = some s' →
        (True ∧ StaysRemoved cfg s l ↔ SparesRemoved cfg s l) := by
      intro s l s' hs _ h
      rw [true_and]
      exact step_staysRemoved_iff hs h
    have hboth := throughout_and_along_iff hfreshStep hstays hstart trivial hrun
    rwa [and_iff_right (Throughout.of_forall (fun _ => trivial) _ _)] at hboth
  · rintro hspares ls₁ ls₂ u rfl hu id hlt hgone
    obtain ⟨u', hu', hrest⟩ := exec_append.mp hrun
    obtain rfl := Option.some.inj (hu.symm.trans hu')
    have hstep : ∀ s l s', (RowsFresh s ∧ id < s.db.nextId ∧ id ∉ s.db.storedIds) →
        SparesRemoved cfg s l → step cfg s l = some s' →
          RowsFresh s' ∧ id < s'.db.nextId ∧ id ∉ s'.db.storedIds := by
      rintro s l s' ⟨hs, hlt, hgone⟩ hl h
      have hstays := (step_staysRemoved_iff hs h).mpr hl
      exact ⟨step_rowsFresh hs h, hlt.trans_le (step_onward h).1, hstays.rows s' h id hlt hgone⟩
    have hfreshRun := exec_invariant hfreshStep hstart (Along.of_forall (fun _ _ => trivial) _ _) hu
    exact (exec_invariant hstep ⟨hfreshRun, hlt, hgone⟩ ((along_append.mp hspares).2 u hu) hrest).2.2

/-- The result of the first task is deleted while its finalization has not begun to save.
The second task stores its result and data before the finalization goes on. -/
def deletedInFlight : List Label :=
  upToAction 0 ++ .deleteResult 1 :: upToAction 10 ++ [.measure 1, .finalizer 0 { percentUsed := 100 }]

/-- The finalization removes the newer result for the one it is about to save, and stores
the deleted result again. -/
theorem deleted_result_returns :
    ∃ t, exec (step { actions := ["acquire"] }) { db := { schedule := everyTen } }
        (deletedInFlight ++ [.finalizer 0 {}]) = some t ∧
      t.db.storedIds = [1] ∧
      ¬ Along (step { actions := ["acquire"] }) (StaysRemoved { actions := ["acquire"] })
        { db := { schedule := everyTen } } (deletedInFlight ++ [.finalizer 0 {}]) := by
  have hbefore : (exec (step { actions := ["acquire"] }) { db := { schedule := everyTen } }
      deletedInFlight).map (fun u => (u.db.storedIds, u.db.nextId)) = some ([], 3) := by decide
  have hafter : (exec (step { actions := ["acquire"] }) { db := { schedule := everyTen } }
      (deletedInFlight ++ [.finalizer 0 {}])).map (fun t => t.db.storedIds) = some [1] := by decide
  obtain ⟨u, hu, hgone⟩ := Option.map_eq_some_iff.mp hbefore
  obtain ⟨t, ht, hback⟩ := Option.map_eq_some_iff.mp hafter
  obtain ⟨hnone, hnext⟩ := Prod.mk.inj hgone
  obtain ⟨u', hu', hlast⟩ := exec_append.mp ht
  obtain rfl := Option.some.inj (hu.symm.trans hu')
  obtain ⟨t', hstep, ht'⟩ := exec_cons.mp hlast
  obtain rfl := Option.some.inj ht'
  refine ⟨t', ht, hback, ?_⟩
  intro hall
  have hstays := ((along_append.mp hall).2 u hu).1
  apply hstays.rows t' hstep 1
  · rw [hnext]
    decide
  · rw [hnone]
    decide
  · rw [hback]
    decide

/-- The result and then the entry are deleted while the action is running, and the save
is refused. -/
theorem deleted_with_entry :
    ∃ t, exec (step inThread) { db := { schedule := everyTen } }
        (upToAction 0 ++ [.deleteResult 1, .deleteEntry "sweep", .sched {}, .sched {}, .sched {}]) =
        some t ∧ 1 ∉ t.db.storedIds := by
  have hruns : (exec (step inThread) { db := { schedule := everyTen } }
      (upToAction 0 ++ [.deleteResult 1, .deleteEntry "sweep", .sched {}, .sched {}, .sched {}])).isSome :=
    by decide
  have hfirst : (exec (step inThread) { db := { schedule := everyTen } }
      (upToAction 0 ++ [.deleteResult 1])).map (fun u => (u.db.storedIds, u.db.nextId)) =
      some ([], 2) := by decide
  obtain ⟨t, ht⟩ := Option.isSome_iff_exists.mp hruns
  obtain ⟨u, hu, hgone⟩ := Option.map_eq_some_iff.mp hfirst
  obtain ⟨hnone, hnext⟩ := Prod.mk.inj hgone
  refine ⟨t, ht, ?_⟩
  have hstay := (removed_stay_removed_iff inThread { schedule := everyTen } (by decide) _ t ht).2
    (by decide) (upToAction 0 ++ [.deleteResult 1]) _ u (by rw [List.append_assoc]; rfl) hu 1
  apply hstay
  · rw [hnext]
    decide
  · rw [hnone]
    decide

end Scheduler

end ScosSensor
