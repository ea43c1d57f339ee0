import ScosSensor.ScheduleEntry
import ScosSensor.Table
import Mathlib.Data.List.MinMax
import Mathlib.Data.Rat.Defs
import Mathlib.Algebra.Order.Ring.Rat

/-!
# The tables and the writes to them

Schedule entries, task results and acquisitions, with the integrity rules that
the database enforces: unique primary keys, one result for an entry and task
id, and a stored entry behind every result. `TaskResult.save` is two writes, the
removal of an old result and the write of its own row, and is kept in two parts
so that a crash can fall between them.
-/
namespace ScosSensor

/-- The exceptions that the modelled code can meet. -/
inductive Exc where
  | doesNotExist
  | databaseError
  | uniqueViolation
  | foreignKeyViolation
  | validationError
  | unserializable
  | typeError
  | attributeError
  | valueError
  | unprintable
  deriving Repr, DecidableEq

/-- A text as its code points, which in Python can be lone surrogates. -/
abbrev PyText := List ℕ

instance : Coe String PyText := ⟨fun s => s.toList.map Char.toNat⟩

/-- The driver of the database sends a text without NUL that UTF-8 can encode. -/
def PyText.storable (text : PyText) : Bool :=
  text.all fun c => decide (c ≠ 0) && !(decide (0xD800 ≤ c) && decide (c ≤ 0xDFFF))

/-- `RESULT_CHOICES`. -/
inductive Status where
  | success
  | failure
  | inProgress
  | notificationFailed
  deriving Repr, DecidableEq

/-- 2019-05-16 23:00 UTC in microseconds, the placeholder of a result whose
action has not finished. -/
def defaultTimestamp : ℤ := 1558047600000000

/-- The columns of `TaskResult`; times are in microseconds. -/
structure TaskResult where
  scheduleEntry : String
  taskId : ℕ
  started : ℤ := defaultTimestamp
  finished : ℤ := defaultTimestamp
  duration : ℤ := 0
  status : Status := .inProgress
  detail : PyText := []
  deriving Repr, DecidableEq

/-- A stored result, or an instance that has been saved before. -/
structure ResultRow extends TaskResult where
  id : ℕ
  deriving Repr, DecidableEq

/-- What a result is unique under. -/
def TaskResult.key (r : TaskResult) : String × ℕ := (r.scheduleEntry, r.taskId)

/-- A recording of a task; its data file goes with the row. -/
structure Acquisition where
  taskResult : ℕ
  recordingId : ℤ := 1
  deriving Repr, DecidableEq

structure Database where
  schedule : List ScheduleEntry := []
  results : List ResultRow := []
  acquisitions : List Acquisition := []
  nextId : ℕ := 1
  deriving Repr, DecidableEq

namespace Database

/-- `ScheduleEntry.objects.get(name=name)`; `none` is `DoesNotExist`. -/
def getEntry (db : Database) (name : String) : Option ScheduleEntry :=
  Table.get? ScheduleEntry.name name db.schedule

/-- `ScheduleEntry.objects.filter(is_active=True)`. -/
def activeEntries (db : Database) : List ScheduleEntry :=
  db.schedule.filter fun e => e.isActive

/-- The row of an entry replaced by a whole instance of it. -/
def putEntry (db : Database) (e : ScheduleEntry) : Database :=
  { db with schedule := Table.update ScheduleEntry.name e.name (fun _ => e) db.schedule }

/-- The stored row of an entry changed by `columns`. -/
def writeRow (db : Database) (name : String) (columns : ScheduleEntry → ScheduleEntry) : Database :=
  { db with schedule := Table.update ScheduleEntry.name name columns db.schedule }

/-- `save(update_fields=...)` of a loaded entry: `columns` copies the named
columns of the instance into the row. An update that matches no row is refused. -/
def saveFields (db : Database) (e : ScheduleEntry) (columns : ScheduleEntry → ScheduleEntry) :
    Except Exc Database :=
  if (db.getEntry e.name).isSome then .ok (db.writeRow e.name columns) else .error .databaseError

/-- The results of an entry. -/
def resultsOf (db : Database) (name : String) : List ResultRow :=
  db.results.filter fun r => r.scheduleEntry = name

/-- `same_entry_results[0]`: the result of the entry with the least row id. -/
def oldest? (db : Database) (name : String) : Option ResultRow :=
  (db.resultsOf name).argmin fun r => r.id

/-- The last result of the entry in the order of the task ids. -/
def lastResult? (db : Database) (name : String) : Option ResultRow :=
  (db.resultsOf name).argmax fun r => r.taskId

/-- `acquisitions.count() > 0` for a result. -/
def HoldsData (db : Database) (r : ResultRow) : Prop :=
  ∃ a ∈ db.acquisitions, a.taskResult = r.id

instance (db : Database) (r : ResultRow) : Decidable (db.HoldsData r) :=
  inferInstanceAs (Decidable (∃ a ∈ db.acquisitions, a.taskResult = r.id))

/-- Deleting a result takes its acquisitions with it. -/
def deleteResult (db : Database) (id : ℕ) : Database :=
  { db with
    results := db.results.filter fun r => r.id ≠ id
    acquisitions := db.acquisitions.filter fun a => a.taskResult ≠ id }

/-- The first half of `TaskResult.save`: remove the oldest result of the entry
when it is not the one being saved, holds data, and the disk is too full. -/
def removeOldest (db : Database) (maxDiskUsage : ℤ) (percentUsed : ℚ) (name : String)
    (self : Option ℕ) : Database :=
  match db.oldest? name with
  | none => db
  | some oldest =>
    if some oldest.id ≠ self ∧ db.HoldsData oldest ∧ (maxDiskUsage : ℚ) < percentUsed then
      db.deleteResult oldest.id
    else db

/-- INSERT under the row id `id`, with the constraints checked. -/
def insertRow (db : Database) (id : ℕ) (tr : TaskResult) : Except Exc (ResultRow × Database) :=
  if tr.key ∈ db.results.map fun r => r.key then .error .uniqueViolation
  else if (db.getEntry tr.scheduleEntry).isNone then .error .foreignKeyViolation
  else .ok (⟨tr, id⟩, { db with
    results := db.results ++ [⟨tr, id⟩]
    nextId := max db.nextId (id + 1) })

/-- The second half of `TaskResult.save`, `super().save()`: without a row id a
new row; with one an UPDATE, which falls back to INSERT when no row matches. The
driver refuses a detail that it cannot send. -/
def superSave (db : Database) (self : Option ℕ) (tr : TaskResult) :
    Except Exc (ResultRow × Database) :=
  if tr.detail.storable then
    match self with
    | none => db.insertRow db.nextId tr
    | some id =>
      if id ∈ db.results.map fun r => r.id then
        .ok (⟨tr, id⟩, { db with
          results := Table.update (fun r => r.id) id (fun _ => ⟨tr, id⟩) db.results })
      else db.insertRow id tr
  else .error .valueError

/-- `TaskResult.save`. The removal stays done when the own row is refused. -/
def save (db : Database) (maxDiskUsage : ℤ) (percentUsed : ℚ) (self : Option ℕ)
    (tr : TaskResult) : Except Exc ResultRow × Database :=
  let db := db.removeOldest maxDiskUsage percentUsed tr.scheduleEntry self
  match db.superSave self tr with
  | .ok (row, db) => (.ok row, db)
  | .error err => (.error err, db)

/-- The action's signal stores a recording of the task's result; a second one
under the same recording id, or one without a result, is refused. -/
def storeAcquisition (db : Database) (key : String × ℕ) (recordingId : ℤ) : Database :=
  match db.results.find? fun r => r.key = key with
  | none => db
  | some r =>
    if (⟨r.id, recordingId⟩ : Acquisition) ∈ db.acquisitions then db
    else { db with acquisitions := db.acquisitions ++ [⟨r.id, recordingId⟩] }

/-- What the constraints of the database keep. -/
structure Integrity (db : Database) : Prop where
  entries : (db.schedule.map ScheduleEntry.name).Nodup
  ids : (db.results.map fun r => r.id).Nodup
  keys : (db.results.map fun r => r.key).Nodup
  fresh : ∀ r ∈ db.results, r.id < db.nextId
  references : ∀ r ∈ db.results, r.scheduleEntry ∈ db.schedule.map ScheduleEntry.name

variable {db : Database} {e row : ScheduleEntry} {name : String}

theorem getEntry_eq_none : db.getEntry name = none ↔ name ∉ db.schedule.map ScheduleEntry.name :=
  Table.get?_eq_none_iff

theorem name_of_getEntry (h : db.getEntry name = some e) : e.name = name := Table.key_of_get? h

theorem mem_of_getEntry (h : db.getEntry name = some e) : e ∈ db.schedule := Table.mem_of_get? h

theorem mem_activeEntries : e ∈ db.activeEntries ↔ e ∈ db.schedule ∧ e.isActive = true := by
  simp [activeEntries]

/-- The active rows have the unique names of the table. -/
theorem nodup_activeEntries (hnames : (db.schedule.map ScheduleEntry.name).Nodup) :
    (db.activeEntries.map ScheduleEntry.name).Nodup :=
  hnames.sublist (List.filter_sublist.map ScheduleEntry.name)

theorem getEntry_of_mem_activeEntries (hnames : (db.schedule.map ScheduleEntry.name).Nodup)
    (he : e ∈ db.activeEntries) : db.getEntry e.name = some e :=
  Table.get?_of_mem hnames (mem_activeEntries.mp he).1

@[simp] theorem names_putEntry (db : Database) (e : ScheduleEntry) :
    (db.putEntry e).schedule.map ScheduleEntry.name = db.schedule.map ScheduleEntry.name :=
  Table.keys_update fun _ _ => rfl

@[simp] theorem results_putEntry (db : Database) (e : ScheduleEntry) :
    (db.putEntry e).results = db.results := rfl

theorem getEntry_putEntry_self (h : (db.getEntry e.name).isSome) :
    (db.putEntry e).getEntry e.name = some e := by
  obtain ⟨row, hrow⟩ := Option.isSome_iff_exists.mp h
  have hself : (db.putEntry e).getEntry e.name = (db.getEntry e.name).map fun _ => e :=
    Table.get?_update_self fun _ _ => rfl
  rw [hself, hrow]
  rfl

theorem getEntry_putEntry_ne (h : name ≠ e.name) : (db.putEntry e).getEntry name = db.getEntry name :=
  Table.get?_update_ne (fun _ _ => rfl) h

/-- The later of two writes of one row is the one that stays. -/
theorem putEntry_putEntry (h : row.name = e.name) : (db.putEntry e).putEntry row = db.putEntry row := by
  have hrows : Table.update ScheduleEntry.name e.name (fun _ => row)
      (Table.update ScheduleEntry.name e.name (fun _ => e) db.schedule) =
      Table.update ScheduleEntry.name e.name (fun _ => row) db.schedule :=
    Table.update_const_update (fun _ _ => rfl) row
  simp only [putEntry, h, hrows]

theorem names_writeRow {columns : ScheduleEntry → ScheduleEntry}
    (hcolumns : ∀ row, (columns row).name = row.name) (name : String) :
    (db.writeRow name columns).schedule.map ScheduleEntry.name = db.schedule.map ScheduleEntry.name :=
  Table.keys_update fun row hrow => (hcolumns row).trans hrow

theorem getEntry_writeRow_self {columns : ScheduleEntry → ScheduleEntry}
    (hcolumns : ∀ row, (columns row).name = row.name) (name : String) :
    (db.writeRow name columns).getEntry name = (db.getEntry name).map columns :=
  Table.get?_update_self fun row hrow => (hcolumns row).trans hrow

theorem getEntry_writeRow_ne {columns : ScheduleEntry → ScheduleEntry}
    (hcolumns : ∀ row, (columns row).name = row.name) {name other : String} (h : other ≠ name) :
    (db.writeRow name columns).getEntry other = db.getEntry other :=
  Table.get?_update_ne (fun row hrow => (hcolumns row).trans hrow) h

theorem saveFields_ok {columns : ScheduleEntry → ScheduleEntry} {db' : Database}
    (h : db.saveFields e columns = .ok db') :
    (db.getEntry e.name).isSome ∧ db' = db.writeRow e.name columns := by
  unfold saveFields at h
  split_ifs at h with hstored
  exact ⟨hstored, (Except.ok.inj h).symm⟩

theorem saveFields_error {columns : ScheduleEntry → ScheduleEntry} {err : Exc}
    (h : db.saveFields e columns = .error err) :
    db.getEntry e.name = none ∧ err = .databaseError := by
  unfold saveFields at h
  split_ifs at h with hstored
  exact ⟨by simpa using hstored, (Except.error.inj h).symm⟩

theorem putEntry_stored (hnames : (db.schedule.map ScheduleEntry.name).Nodup)
    (h : db.getEntry e.name = some e) : db.putEntry e = db := by
  unfold putEntry
  rw [Table.update_stored hnames h]

/-- A partial update that leaves the row as the instance has it. -/
theorem saveFields_eq_putEntry {columns : ScheduleEntry → ScheduleEntry}
    (hnames : (db.schedule.map ScheduleEntry.name).Nodup) (hrow : db.getEntry e.name = some row)
    (hcolumns : columns row = e) : db.saveFields e columns = .ok (db.putEntry e) := by
  rw [saveFields, if_pos (by simp [hrow])]
  unfold putEntry writeRow
  rw [Table.update_eq_const hnames hrow, hcolumns]

end Database

end ScosSensor
