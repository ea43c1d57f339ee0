import ScosSensor.Database

/-!
# API requests on schedule entries

A POST makes a new entry. A PUT or PATCH is served in two parts: the row is read
into an instance, and later the validated body is set on the instance and the
whole row is written back, the read-only columns as they were read. A DELETE is
refused while the entry has results.
-/
namespace ScosSensor

/-- The validated data of a request; a field that is `none` was not sent. -/
structure Body where
  action : Option String := none
  priority : Option ℤ := none
  start : Option ℤ := none
  stop : Option (Option ℤ) := none
  interval : Option (Option ℕ+) := none
  isActive : Option Bool := none
  callbackUrl : Option (Option String) := none
  deriving Repr, DecidableEq

/-- An update that has read its entry and not written it yet. -/
structure Request where
  entry : ScheduleEntry
  body : Body
  deriving Repr, DecidableEq

namespace ScheduleEntry

/-- `ModelSerializer.update` sets the validated fields on the instance. -/
def assign (e : ScheduleEntry) (b : Body) : ScheduleEntry :=
  { e with
    action := b.action.getD e.action
    priority := b.priority.getD e.priority
    start := b.start.getD e.start
    stop := b.stop.getD e.stop
    interval := b.interval.getD e.interval
    isActive := b.isActive.getD e.isActive
    callbackUrl := b.callbackUrl.getD e.callbackUrl }

/-- The first part of `save`: an instance whose start or interval is not the
loaded one starts anew, at the earliest in the next second. -/
def reschedule (now : ℤ) (loaded e : ScheduleEntry) : ScheduleEntry :=
  if e.start ≠ loaded.start ∨ e.interval ≠ loaded.interval then
    { e with nextTaskTime := max e.start (now + 1) }
  else e

/-- What a POST makes of its body; `is_active` cannot be sent on creation. -/
def ofBody (name owner action : String) (now : ℤ) (b : Body) : ScheduleEntry where
  name
  action
  priority := b.priority.getD 10
  start := b.start.getD (now + 1)
  stop := b.stop.getD none
  interval := b.interval.getD none
  callbackUrl := b.callbackUrl.getD none
  nextTaskTime := b.start.getD (now + 1)
  owner

end ScheduleEntry

/-- The instance that an update writes back. -/
def Request.saved (q : Request) (now : ℤ) : ScheduleEntry :=
  ScheduleEntry.reschedule now q.entry (q.entry.assign q.body)

namespace Database

/-- A save of all columns: an UPDATE, or an INSERT when the row is gone. -/
def saveWhole (db : Database) (e : ScheduleEntry) : Database :=
  if (db.getEntry e.name).isSome then db.putEntry e else { db with schedule := db.schedule ++ [e] }

/-- DELETE of an entry; its results protect it. -/
def removeEntry (db : Database) (name : String) : Option Database :=
  if (db.getEntry name).isSome ∧ db.resultsOf name = [] then
    some { db with schedule := Table.remove ScheduleEntry.name name db.schedule }
  else none

end Database

end ScosSensor
