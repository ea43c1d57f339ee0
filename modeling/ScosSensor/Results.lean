import ScosSensor.Database

/-!
# Saving results

What the two halves of `TaskResult.save` can do to the tables. The first half
removes at most the oldest result of the entry, the second writes one row. Both
keep the integrity of the database, so that no later step has to check it.
-/
namespace ScosSensor

namespace Database

variable {db db' : Database} {name : String} {r row oldest : ResultRow} {tr : TaskResult}
  {self : Option ℕ} {maxDiskUsage : ℤ} {percentUsed : ℚ} {id : ℕ}

/-- The row ids that are stored. -/
def storedIds (db : Database) : List ℕ := db.results.map fun r => r.id

theorem mem_storedIds : id ∈ db.storedIds ↔ ∃ r ∈ db.results, r.id = id := List.mem_map

theorem mem_resultsOf : r ∈ db.resultsOf name ↔ r ∈ db.results ∧ r.scheduleEntry = name := by
  simp [resultsOf]

theorem oldest?_mem (h : db.oldest? name = some oldest) : oldest ∈ db.resultsOf name :=
  List.argmin_mem h

theorem oldest?_le (h : db.oldest? name = some oldest) (hr : r ∈ db.resultsOf name) :
    oldest.id ≤ r.id := List.le_of_mem_argmin hr h

theorem lastResult?_mem (h : db.lastResult? name = some row) : row ∈ db.resultsOf name :=
  List.argmax_mem h

theorem lastResult?_le (h : db.lastResult? name = some row) (hr : r ∈ db.resultsOf name) :
    r.taskId ≤ row.taskId := by
  have hlast : row ∈ (db.resultsOf name).argmax fun r : ResultRow => r.taskId := h
  have hle := List.le_of_mem_argmax hr hlast
  exact hle

@[simp] theorem mem_deleteResult : r ∈ (db.deleteResult id).results ↔ r ∈ db.results ∧ r.id ≠ id := by
  simp [deleteResult]

theorem mem_storedIds_deleteResult {gone : ℕ} :
    id ∈ (db.deleteResult gone).storedIds ↔ id ∈ db.storedIds ∧ id ≠ gone := by
  simp only [mem_storedIds, mem_deleteResult]
  constructor
  · rintro ⟨r, ⟨hr, hne⟩, rfl⟩
    exact ⟨⟨r, hr, rfl⟩, hne⟩
  · rintro ⟨⟨r, hr, rfl⟩, hne⟩
    exact ⟨r, ⟨hr, hne⟩, rfl⟩

/-- The first half of a save removes the oldest result of the entry or nothing. -/
theorem removeOldest_cases (db : Database) (maxDiskUsage : ℤ) (percentUsed : ℚ) (name : String)
    (self : Option ℕ) :
    db.removeOldest maxDiskUsage percentUsed name self = db ∨
      ∃ oldest, db.oldest? name = some oldest ∧ some oldest.id ≠ self ∧ db.HoldsData oldest ∧
        (maxDiskUsage : ℚ) < percentUsed ∧
        db.removeOldest maxDiskUsage percentUsed name self = db.deleteResult oldest.id := by
  unfold removeOldest
  cases hold : db.oldest? name with
  | none => exact .inl rfl
  | some oldest =>
    dsimp only
    split_ifs with h
    · exact .inr ⟨oldest, rfl, h.1, h.2.1, h.2.2, rfl⟩
    · exact .inl rfl

theorem mem_of_mem_removeOldest
    (h : r ∈ (db.removeOldest maxDiskUsage percentUsed name self).results) : r ∈ db.results := by
  obtain heq | ⟨oldest, -, -, -, -, heq⟩ :=
    removeOldest_cases db maxDiskUsage percentUsed name self
  · rwa [heq] at h
  · rw [heq, mem_deleteResult] at h
    exact h.1

/-- The removal spares the schedule and the counter of the row ids. -/
theorem removeOldest_frame (db : Database) (maxDiskUsage : ℤ) (percentUsed : ℚ) (name : String)
    (self : Option ℕ) :
    (db.removeOldest maxDiskUsage percentUsed name self).schedule = db.schedule ∧
      (db.removeOldest maxDiskUsage percentUsed name self).nextId = db.nextId := by
  obtain heq | ⟨oldest, -, -, -, -, heq⟩ :=
    removeOldest_cases db maxDiskUsage percentUsed name self
  · rw [heq]
    exact ⟨rfl, rfl⟩
  · rw [heq]
    exact ⟨rfl, rfl⟩

/-- An INSERT that succeeds adds a row under a new key. -/
theorem insertRow_ok (h : db.insertRow id tr = .ok (row, db')) :
    row = ⟨tr, id⟩ ∧ (tr.key ∉ db.results.map fun r => r.key) ∧
      (db.getEntry tr.scheduleEntry).isSome ∧
      db' = { db with results := db.results ++ [⟨tr, id⟩], nextId := max db.nextId (id + 1) } := by
  unfold insertRow at h
  split_ifs at h with hkey hentry
  obtain ⟨rfl, rfl⟩ := Prod.mk.inj (Except.ok.inj h)
  refine ⟨rfl, hkey, ?_, rfl⟩
  simpa [Option.isSome_iff_ne_none] using hentry

/-- What is written has a detail that can be sent. -/
theorem storable_of_superSave (h : db.superSave self tr = .ok (row, db')) :
    tr.detail.storable = true := by
  unfold superSave at h
  split_ifs at h with hdetail
  exact hdetail

/-- What a successful write of the own row is: an UPDATE of the stored row, or
an INSERT under an id that no row has. -/
theorem superSave_ok (h : db.superSave self tr = .ok (row, db')) :
    (self = some row.id ∧ (row.id ∈ db.results.map fun r => r.id) ∧ row = ⟨tr, row.id⟩ ∧
        db' = { db with results := Table.update (fun r => r.id) row.id (fun _ => row) db.results }) ∨
      ((self = none ∧ row.id = db.nextId ∨
          self = some row.id ∧ row.id ∉ db.results.map fun r => r.id) ∧
        db.insertRow row.id tr = .ok (row, db')) := by
  unfold superSave at h
  split_ifs at h
  cases self with
  | none =>
    obtain ⟨rfl, -⟩ := insertRow_ok h
    exact .inr ⟨.inl ⟨rfl, rfl⟩, h⟩
  | some id =>
    dsimp only at h
    split_ifs at h with hid
    · obtain ⟨rfl, rfl⟩ := Prod.mk.inj (Except.ok.inj h)
      exact .inl ⟨rfl, hid, rfl, rfl⟩
    · obtain ⟨rfl, -⟩ := insertRow_ok h
      exact .inr ⟨.inr ⟨rfl, hid⟩, h⟩

/-- The write of an instance whose row is stored is an UPDATE. -/
theorem superSave_own (hr : r ∈ db.results) (hdetail : tr.detail.storable = true) :
    db.superSave (some r.id) tr = .ok (⟨tr, r.id⟩,
      { db with results := Table.update (fun r => r.id) r.id (fun _ => ⟨tr, r.id⟩) db.results }) := by
  have hmem : r.id ∈ db.results.map fun r => r.id := List.mem_map_of_mem hr
  simp only [superSave, if_pos hdetail, if_pos hmem]

/-- Why a new row with a detail that can be sent is refused. -/
theorem superSave_new_error {err : Exc} (hdetail : tr.detail.storable = true)
    (h : db.superSave none tr = .error err) :
    (tr.key ∈ db.results.map fun r => r.key) ∧ err = .uniqueViolation ∨
      db.getEntry tr.scheduleEntry = none ∧ err = .foreignKeyViolation := by
  unfold superSave insertRow at h
  rw [if_pos hdetail] at h
  dsimp only at h
  split_ifs at h with hkey hentry
  · exact .inl ⟨hkey, (Except.error.inj h).symm⟩
  · exact .inr ⟨by simpa using hentry, (Except.error.inj h).symm⟩

/-- A row with another id survives the write of the own row. -/
theorem mem_superSave_of_ne (h : db.superSave self tr = .ok (row, db')) (hr : r.id ≠ row.id) :
    r ∈ db'.results ↔ r ∈ db.results := by
  obtain ⟨-, -, -, rfl⟩ | ⟨-, hins⟩ := superSave_ok h
  · have hmem : r ∈ Table.update (fun r : ResultRow => r.id) row.id (fun _ => row) db.results ↔ _ :=
      Table.mem_update
    refine hmem.trans ⟨?_, fun h => .inl ⟨h, hr⟩⟩
    intro h
    obtain ⟨hmem, -⟩ | ⟨a, -, -, heq⟩ := h
    · exact hmem
    · exact absurd (congrArg ResultRow.id heq).symm hr
  · obtain ⟨hrow, -, -, rfl⟩ := insertRow_ok hins
    have hne : r ≠ ⟨tr, row.id⟩ := by
      intro h
      exact hr (by rw [h])
    simp [hne]

/-- The row just written is stored. -/
theorem mem_superSave_self (h : db.superSave self tr = .ok (row, db')) : row ∈ db'.results := by
  obtain ⟨-, hid, -, rfl⟩ | ⟨-, hins⟩ := superSave_ok h
  · obtain ⟨a, ha, haid⟩ := List.mem_map.mp hid
    exact Table.mem_update.mpr (.inr ⟨a, ha, haid, rfl⟩)
  · obtain ⟨hrow, -, -, rfl⟩ := insertRow_ok hins
    rw [← hrow]
    simp

/-- The row carries what was saved. -/
theorem superSave_row (h : db.superSave self tr = .ok (row, db')) : row = ⟨tr, row.id⟩ := by
  obtain ⟨-, -, hrow, -⟩ | ⟨-, hins⟩ := superSave_ok h
  · exact hrow
  · exact (insertRow_ok hins).1

theorem superSave_schedule (h : db.superSave self tr = .ok (row, db')) :
    db'.schedule = db.schedule := by
  obtain ⟨-, -, -, rfl⟩ | ⟨-, hins⟩ := superSave_ok h
  · rfl
  · obtain ⟨-, -, -, rfl⟩ := insertRow_ok hins
    rfl

theorem superSave_acquisitions (h : db.superSave self tr = .ok (row, db')) :
    db'.acquisitions = db.acquisitions := by
  obtain ⟨-, -, -, rfl⟩ | ⟨-, hins⟩ := superSave_ok h
  · rfl
  · obtain ⟨-, -, -, rfl⟩ := insertRow_ok hins
    rfl

/-- What a write of the own row can add to the results. -/
theorem mem_of_mem_superSave {db db' : Database} {self : Option ℕ} {tr : TaskResult}
    {r row : ResultRow} (h : db.superSave self tr = .ok (row, db')) (hr : r ∈ db'.results) :
    r ∈ db.results ∨ r = row := by
  obtain ⟨-, -, -, rfl⟩ | ⟨-, hinsert⟩ := superSave_ok h
  · have hmem : r ∈ Table.update (fun r : ResultRow => r.id) row.id (fun _ => row) db.results := hr
    obtain ⟨hold, -⟩ | ⟨a, -, -, hnew⟩ := Table.mem_update.mp hmem
    · exact .inl hold
    · exact .inr hnew.symm
  · obtain ⟨hrow, -, -, rfl⟩ := insertRow_ok hinsert
    rw [← hrow] at hr
    simpa using hr

theorem superSave_key {db db' : Database} {self : Option ℕ} {tr : TaskResult} {row : ResultRow}
    (h : db.superSave self tr = .ok (row, db')) : row.key = tr.key := by
  rw [superSave_row h]

theorem superSave_id {db db' : Database} {id : ℕ} {tr : TaskResult} {row : ResultRow}
    (h : db.superSave (some id) tr = .ok (row, db')) : row.id = id := by
  obtain ⟨hself, -⟩ | ⟨⟨hself, -⟩ | ⟨hself, -⟩, -⟩ := superSave_ok h
  · exact (Option.some.inj hself).symm
  · cases hself
  · exact (Option.some.inj hself).symm

/-- A save under an own row id stores it, and takes no other away. -/
theorem storedIds_superSave (h : db.superSave (some id) tr = .ok (row, db')) {other : ℕ} :
    other ∈ db'.storedIds ↔ other ∈ db.storedIds ∨ other = id := by
  obtain ⟨hself, hid, -, rfl⟩ | ⟨⟨hself, -⟩ | ⟨hself, -⟩, hinsert⟩ := superSave_ok h
  · obtain rfl := Option.some.inj hself
    have hkeys : (Table.update (fun r : ResultRow => r.id) row.id (fun _ => row) db.results).map
        (fun r => r.id) = db.results.map fun r => r.id := Table.keys_update fun _ _ => rfl
    show other ∈ (Table.update (fun r : ResultRow => r.id) row.id (fun _ => row) db.results).map
        (fun r => r.id) ↔ _
    rw [hkeys]
    exact (or_iff_left_of_imp fun heq => heq ▸ hid).symm
  · cases hself
  · obtain rfl := Option.some.inj hself
    obtain ⟨-, -, -, rfl⟩ := insertRow_ok hinsert
    simp [storedIds]

/-- A new row takes the next row id and moves the counter of the row ids on. -/
theorem superSave_new {db db' : Database} {tr : TaskResult} {row : ResultRow}
    (h : db.superSave none tr = .ok (row, db')) :
    row.id = db.nextId ∧ db'.results = db.results ++ [row] ∧ db'.nextId = db.nextId + 1 ∧
      db'.acquisitions = db.acquisitions := by
  obtain ⟨hself, -⟩ | ⟨⟨-, hid⟩ | ⟨hself, -⟩, hinsert⟩ := superSave_ok h
  · cases hself
  · obtain ⟨hrow, -, -, rfl⟩ := insertRow_ok hinsert
    refine ⟨hid, by rw [← hrow], ?_, rfl⟩
    rw [hid]
    exact Nat.max_eq_right (Nat.le_succ _)
  · cases hself

end Database

end ScosSensor
