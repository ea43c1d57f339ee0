import ScosSensor.Results

/-!
# The disk limit

A save that finds the disk too full looks at the single oldest result of the
entry. When that result holds data it is removed; when it holds none the save
removes nothing, however much data the other old results hold. A failed task
leaves such a result, and it stays the oldest one.
-/
namespace ScosSensor

namespace Database

variable {db : Database} {r oldest : ResultRow} {tr : TaskResult} {self : Option ℕ}
  {maxDiskUsage : ℤ} {percentUsed : ℚ}

/-- The results of the entry that were stored before the one being saved. A
result without a row id is not stored yet, so every stored one is older. -/
def IsOlder (db : Database) (self : Option ℕ) (tr : TaskResult) (r : ResultRow) : Prop :=
  r ∈ db.resultsOf tr.scheduleEntry ∧ ∀ id, self = some id → r.id < id

/-- The save deletes an older result that holds an acquisition. -/
def RemovesOldData (db : Database) (maxDiskUsage : ℤ) (percentUsed : ℚ) (self : Option ℕ)
    (tr : TaskResult) : Prop :=
  ∃ r, db.IsOlder self tr r ∧ db.HoldsData r ∧
    r.id ∉ (db.save maxDiskUsage percentUsed self tr).2.results.map fun r => r.id

/-- The oldest stored result of the entry holds an acquisition. -/
def OldestHoldsData (db : Database) (name : String) : Prop :=
  ∃ oldest, db.oldest? name = some oldest ∧ db.HoldsData oldest

/-- The tables after a save, whether or not the own row was accepted. -/
theorem save_db (db : Database) (maxDiskUsage : ℤ) (percentUsed : ℚ) (self : Option ℕ)
    (tr : TaskResult) :
    let left := db.removeOldest maxDiskUsage percentUsed tr.scheduleEntry self
    (db.save maxDiskUsage percentUsed self tr).2 = left ∨
      ∃ row, left.superSave self tr = .ok (row, (db.save maxDiskUsage percentUsed self tr).2) := by
  unfold save
  dsimp only
  cases h : (db.removeOldest maxDiskUsage percentUsed tr.scheduleEntry self).superSave self tr with
  | error err => exact .inl rfl
  | ok out => exact .inr ⟨out.1, rfl⟩

/-- The write of the own row neither removes another row nor brings one back. -/
theorem ids_superSave {db' : Database} {row : ResultRow} {id : ℕ}
    (h : db.superSave self tr = .ok (row, db')) (hid : id ≠ row.id) :
    (id ∈ db'.results.map fun r => r.id) ↔ id ∈ db.results.map fun r => r.id := by
  simp only [List.mem_map]
  constructor
  · intro ⟨r, hr, heq⟩
    exact ⟨r, (mem_superSave_of_ne h (heq ▸ hid)).mp hr, heq⟩
  · intro ⟨r, hr, heq⟩
    exact ⟨r, (mem_superSave_of_ne h (heq ▸ hid)).mpr hr, heq⟩

/-- Over the limit the oldest result goes when it holds data. -/
theorem removesOldData_of_oldest (hint : db.Integrity) (hover : (maxDiskUsage : ℚ) < percentUsed)
    (hold : ∃ r, db.IsOlder self tr r ∧ db.HoldsData r) (hdata : db.OldestHoldsData tr.scheduleEntry) :
    db.RemovesOldData maxDiskUsage percentUsed self tr := by
  obtain ⟨oldest, holdest, hholds⟩ := hdata
  obtain ⟨r, ⟨hr, hself⟩, -⟩ := hold
  have hmem := oldest?_mem holdest
  have holder : ∀ id, self = some id → oldest.id < id := by
    intro id hid
    exact (oldest?_le holdest hr).trans_lt (hself id hid)
  have hne : some oldest.id ≠ self := by
    intro h
    exact absurd (holder oldest.id h.symm) (lt_irrefl _)
  have hleft : db.removeOldest maxDiskUsage percentUsed tr.scheduleEntry self =
      db.deleteResult oldest.id := by
    simp only [removeOldest, holdest]
    rw [if_pos ⟨hne, hholds, hover⟩]
  have hgone : oldest.id ∉ (db.deleteResult oldest.id).results.map fun r => r.id := by
    intro h
    obtain ⟨a, ha, heq⟩ := List.mem_map.mp h
    exact (mem_deleteResult.mp ha).2 heq
  refine ⟨oldest, ⟨hmem, holder⟩, hholds, ?_⟩
  have hsave := save_db db maxDiskUsage percentUsed self tr
  dsimp only at hsave
  rw [hleft] at hsave
  obtain heq | ⟨row, hsuper⟩ := hsave
  · rwa [heq]
  · have hrow : oldest.id ≠ row.id := by
      obtain ⟨hs, -⟩ | ⟨⟨hs, hid⟩ | ⟨hs, -⟩, -⟩ := superSave_ok hsuper
      · exact (holder row.id hs).ne
      · rw [hid]
        exact (hint.fresh oldest (mem_resultsOf.mp hmem).1).ne
      · exact (holder row.id hs).ne
    rwa [ids_superSave hsuper hrow]

/-- When the oldest result holds no data, a save removes nothing. -/
theorem removeOldest_of_no_data (h : ¬ db.OldestHoldsData tr.scheduleEntry) :
    db.removeOldest maxDiskUsage percentUsed tr.scheduleEntry self = db := by
  obtain heq | ⟨oldest, holdest, -, hholds, -⟩ :=
    removeOldest_cases db maxDiskUsage percentUsed tr.scheduleEntry self
  · exact heq
  · exact absurd ⟨oldest, holdest, hholds⟩ h

/-- Over the limit, with old data stored, a save removes old data exactly when
the oldest result of the entry is one that holds data. -/
theorem save_removesOldData_iff (hint : db.Integrity)
    (hover : (maxDiskUsage : ℚ) < percentUsed)
    (hold : ∃ r, db.IsOlder self tr r ∧ db.HoldsData r) :
    db.RemovesOldData maxDiskUsage percentUsed self tr ↔ db.OldestHoldsData tr.scheduleEntry := by
  constructor
  · intro ⟨r, ⟨hr, hself⟩, _, hgone⟩
    by_contra hdata
    have hsave := save_db db maxDiskUsage percentUsed self tr
    dsimp only at hsave
    rw [removeOldest_of_no_data hdata] at hsave
    have hstored : r.id ∈ db.results.map fun r => r.id :=
      List.mem_map.mpr ⟨r, (mem_resultsOf.mp hr).1, rfl⟩
    apply hgone
    obtain heq | ⟨row, hsuper⟩ := hsave
    · rwa [heq]
    · by_cases hid : r.id = row.id
      · exact List.mem_map.mpr ⟨row, mem_superSave_self hsuper, hid.symm⟩
      · rwa [ids_superSave hsuper hid]
  · exact removesOldData_of_oldest hint hover hold

/-- One stored recording, and the disk over the limit. -/
theorem save_removesOldData_stored :
    RemovesOldData { schedule := [⟨"sweep", "acquire", 10, 0, none, some 10, true, none, 10, 2, "op"⟩]
                     results := [⟨{ scheduleEntry := "sweep", taskId := 1, status := .success }, 1⟩]
                     acquisitions := [⟨1, 1⟩]
                     nextId := 2 } 85 99 none { scheduleEntry := "sweep", taskId := 2 } := by
  have hint : Integrity { schedule := [⟨"sweep", "acquire", 10, 0, none, some 10, true, none, 10, 2, "op"⟩]
                          results := [⟨{ scheduleEntry := "sweep", taskId := 1, status := .success }, 1⟩]
                          acquisitions := [⟨1, 1⟩]
                          nextId := 2 } := by
    constructor <;> decide
  apply (save_removesOldData_iff hint (by norm_num) _).mpr
  · exact ⟨⟨{ scheduleEntry := "sweep", taskId := 1, status := .success }, 1⟩, by decide, by decide⟩
  · exact ⟨⟨{ scheduleEntry := "sweep", taskId := 1, status := .success }, 1⟩,
      ⟨by decide, nofun⟩, by decide⟩

/-- An entry whose first task failed and whose second one stored a recording. -/
def failedThenStored : Database where
  schedule := [{ everyTenSeconds with nextTaskTime := 20, nextTaskId := 3 }]
  results := [⟨{ scheduleEntry := "sweep", taskId := 1, status := .failure }, 1⟩,
    ⟨{ scheduleEntry := "sweep", taskId := 2, status := .success }, 2⟩]
  acquisitions := [⟨2, 1⟩]
  nextId := 3

/-- The third task of that entry is recorded with the disk almost full, and the
recording of the second one stays. -/
theorem save_keeps_old_data :
    failedThenStored.Integrity ∧
      (∃ r, failedThenStored.IsOlder none { scheduleEntry := "sweep", taskId := 3 } r ∧
        failedThenStored.HoldsData r) ∧
      ¬ failedThenStored.RemovesOldData 85 99 none { scheduleEntry := "sweep", taskId := 3 } := by
  refine ⟨?_, ?_, ?_⟩
  · constructor <;> decide
  · exact ⟨⟨{ scheduleEntry := "sweep", taskId := 2, status := .success }, 2⟩,
      ⟨by decide, nofun⟩, by decide⟩
  · intro ⟨r, ⟨hr, _⟩, _, hgone⟩
    have hids : (failedThenStored.save 85 99 none
        { scheduleEntry := "sweep", taskId := 3 }).2.results.map (fun r => r.id) = [1, 2, 3] := by
      decide
    have hstored : r.id = 1 ∨ r.id = 2 := by
      have hmem := (mem_resultsOf.mp hr).1
      simp only [failedThenStored, List.mem_cons, List.not_mem_nil, or_false] at hmem
      obtain rfl | rfl := hmem
      · exact .inl rfl
      · exact .inr rfl
    apply hgone
    rw [hids]
    obtain h | h := hstored
    · simp [h]
    · simp [h]

end Database

end ScosSensor
