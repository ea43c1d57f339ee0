import ScosSensor.EntryViews
import ScosSensor.Runs

/-!
# The stop of an entry

A relative stop is translated by the constructor and by nothing else, and the
order of start and stop is checked within one body and against no stored row.
Both leave requests that are accepted and store a stop that was not asked for, or
one that is not after the start; which requests these are is read off the body
and the row.
-/
namespace ScosSensor.ScheduleEntryViewSet

open ScheduleEntrySerializer Runs

variable {D : Conversions} {cfg : Settings} {db db' : Database} {now : ℤ} {req : EntryRequest}
  {e row : ScheduleEntry} {v : Validated} {data : Obj} {a : ViewAction}

/-- The requests with the relative stop `r` that store it: a POST, and a PATCH
that names no stop on a row which happens to have it. -/
def HonoursRelativeStop (D : Conversions) (db : Database) (r : ℤ) : EntryRequest → Prop
  | .post _ _ => True
  | .put _ _ => False
  | .patch name data => ¬ NamesStop data ∧ ∃ e, db.getEntry name = some e ∧
      e.stop = some (((start D).sent data).getD e.start + r)

theorem Writes.relativeStop_iff {r : ℤ} (h : Writes D cfg db now req db' row)
    (hr : (relativeStop D).sent req.data = some r) :
    row.stop = some (row.start + r) ↔ HonoursRelativeStop D db r req := by
  cases h with
  | post owner data v hvalid =>
    have haccepts := accepts_of_isValid hvalid
    have hrelative := haccepts.relativeStop.trans hr
    have hpos := haccepts.relativeStopPos r hrelative
    rw [ScheduleEntry.construct_stop_of_some hrelative (by omega), ScheduleEntry.construct_start]
    exact iff_of_true rfl trivial
  | put name data e v hload hvalid =>
    have haccepts := accepts_of_isValid hvalid
    have hnone : sentStop D data = none := haccepts.stop.symm.trans (haccepts.stop_of_relative hr)
    have hstop := haccepts.stop_eq_some (.inl (by decide))
    simp [HonoursRelativeStop, hstop, hnone]
  | patch name data e v hload hvalid =>
    have haccepts := accepts_of_isValid hvalid
    have hnone : sentStop D data = none := haccepts.stop.symm.trans (haccepts.stop_of_relative hr)
    have hrow := (Scheduler.loadEntry_ok hload).1
    rw [ScheduleEntry.updated_stop, ScheduleEntry.updated_start, haccepts.start]
    by_cases hnamed : NamesStop data
    · have hstop := haccepts.stop_eq_some (.inr hnamed)
      simp [HonoursRelativeStop, hstop, hnone, hnamed]
    · simp [HonoursRelativeStop, haccepts.stop_eq_none hnamed, hnamed, hrow]

theorem relative_stop_kept_iff (D : Conversions) (cfg : Settings) (db : Database) (now : ℤ)
    (req : EntryRequest) (r : ℤ) (row : ScheduleEntry)
    (hr : (relativeStop D).sent req.data = some r)
    (h : (serve D cfg db now req).row = some row) :
    (serve D cfg db now req).db.getEntry row.name = some row ∧
      (row.stop = some (row.start + r) ↔ HonoursRelativeStop D db r req) := by
  have hwrites := serve_row h
  exact ⟨hwrites.stored, hwrites.relativeStop_iff hr⟩

/-- A body with an action and a relative stop of a minute. -/
def minuteLong : Obj :=
  ((∅ : Obj).insert "action" (.str "acquire")).insert "relative_stop" (.int 60)

theorem relative_stop_kept_minute :
    (serve plainConversions inThread {} 100
        (.post "op" (minuteLong.insert "name" (.str "sweep")))).db.getEntry "sweep" =
      some ⟨"sweep", "acquire", 10, 101, some 161, none, true, none, 101, 1, "op"⟩ ∧
    ((161 : ℤ) = 101 + 60 ↔ HonoursRelativeStop plainConversions {} 60
        (.post "op" (minuteLong.insert "name" (.str "sweep")))) := by
  have h := relative_stop_kept_iff plainConversions inThread {} 100
    (.post "op" (minuteLong.insert "name" (.str "sweep"))) 60
    ⟨"sweep", "acquire", 10, 101, some 161, none, true, none, 101, 1, "op"⟩ rfl rfl
  exact ⟨h.1, by simpa using h.2⟩

theorem put_drops_relative_stop :
    (serve plainConversions inThread { schedule := [everyTenSeconds] } 100
        (.put "sweep" minuteLong)).row = some everyTenSeconds ∧
      (relativeStop plainConversions).sent minuteLong = some 60 ∧
      everyTenSeconds.stop ≠ some (everyTenSeconds.start + 60) := by
  decide +kernel

/-- The entry has no stop, or one after its start. -/
def StopsLater (e : ScheduleEntry) : Prop := ∀ stop ∈ e.stop, e.start < stop

instance (e : ScheduleEntry) : Decidable (StopsLater e) :=
  inferInstanceAs (Decidable (∀ stop ∈ e.stop, e.start < stop))

def AllStopLater (db : Database) : Prop := ∀ name, ∀ e ∈ db.getEntry name, StopsLater e

/-- A stop that is sent without a start is after the start `x`, which applies then. -/
def StopAfter (D : Conversions) (data : Obj) (x : ℤ) : Prop :=
  (start D).sent data = none → ∀ stop ∈ sentStop D data, x < stop

/-- A request that mixes the times of its body with others mixes them in order:
the default start of a POST, the stored start of an update, and the stored stop
of a PATCH that names none. -/
def ChecksStop (D : Conversions) (db : Database) (l : ℤ × EntryRequest) : Prop :=
  (validateOnly D).sent l.2.data = some true ∨
    match l.2 with
    | .post _ data => StopAfter D data (l.1 + 1)
    | .put name data => ∀ e ∈ db.getEntry name, StopAfter D data e.start
    | .patch name data => ∀ e ∈ db.getEntry name, StopAfter D data e.start ∧
        (¬ NamesStop data → ∀ x ∈ (start D).sent data, ∀ stop ∈ e.stop, x < stop)

instance (D : Conversions) (data : Obj) (x : ℤ) : Decidable (StopAfter D data x) :=
  inferInstanceAs (Decidable ((start D).sent data = none → ∀ stop ∈ sentStop D data, x < stop))

instance (D : Conversions) (db : Database) : (l : ℤ × EntryRequest) → Decidable (ChecksStop D db l)
  | (now, .post _ data) => inferInstanceAs <| Decidable
      ((validateOnly D).sent data = some true ∨ StopAfter D data (now + 1))
  | (_, .put name data) => inferInstanceAs <| Decidable
      ((validateOnly D).sent data = some true ∨ ∀ e ∈ db.getEntry name, StopAfter D data e.start)
  | (_, .patch name data) => inferInstanceAs <| Decidable
      ((validateOnly D).sent data = some true ∨
        ∀ e ∈ db.getEntry name, StopAfter D data e.start ∧
          (¬ NamesStop data → ∀ x ∈ (start D).sent data, ∀ stop ∈ e.stop, x < stop))

/-- With the stop of the body, the order against the start that applies is the
order that `StopAfter` asks for. -/
theorem stopAfter_iff (h : Accepts D cfg db a data v) (x : ℤ) :
    (∀ stop ∈ sentStop D data, v.start.getD x < stop) ↔ StopAfter D data x := by
  unfold StopAfter
  rw [← h.start]
  cases hstart : v.start with
  | none => simp
  | some y =>
    simp only [Option.getD_some, reduceCtorEq, false_implies, iff_true]
    intro stop hstop
    exact h.ordered y stop hstart (h.stop.trans hstop)

theorem stopsLater_iff_of_stop {e : ScheduleEntry} {stop : Option ℤ} (h : e.stop = stop) :
    StopsLater e ↔ ∀ x ∈ stop, e.start < x := by
  rw [StopsLater, h]

/-- The row that a request writes stops later exactly if the request was in order. -/
theorem Writes.stopsLater_iff (hgood : AllStopLater db) (h : Writes D cfg db now req db' row) :
    StopsLater row ↔ ChecksStop D db (now, req) := by
  cases h with
  | post owner data v hvalid honly =>
    have haccepts := accepts_of_isValid hvalid
    simp only [ChecksStop, EntryRequest.data, haccepts.not_only honly, false_or]
    cases hrelative : v.relativeStop.join with
    | none =>
      rw [stopsLater_iff_of_stop (ScheduleEntry.construct_stop_of_none hrelative), haccepts.stop,
        ScheduleEntry.construct_start]
      exact stopAfter_iff haccepts (now + 1)
    | some r =>
      have hpos := haccepts.relativeStopPos r hrelative
      have hnone := haccepts.stop_of_relative (haccepts.relativeStop.symm.trans hrelative)
      rw [stopsLater_iff_of_stop (ScheduleEntry.construct_stop_of_some hrelative (by omega)),
        ScheduleEntry.construct_start, ← stopAfter_iff haccepts, ← haccepts.stop, hnone]
      simp only [Option.mem_def, Option.some.injEq, forall_eq', reduceCtorEq, false_implies,
        implies_true, iff_true]
      omega
  | put name data e v hload hvalid honly =>
    have haccepts := accepts_of_isValid hvalid
    have hstop := haccepts.stop_eq_some (.inl (by decide))
    simp only [ChecksStop, EntryRequest.data, haccepts.not_only honly, false_or,
      (Scheduler.loadEntry_ok hload).1, Option.mem_def, Option.some.injEq, forall_eq']
    rw [stopsLater_iff_of_stop (ScheduleEntry.updated_stop now e v), hstop, Option.getD_some,
      ScheduleEntry.updated_start]
    exact stopAfter_iff haccepts e.start
  | patch name data e v hload hvalid honly =>
    have haccepts := accepts_of_isValid hvalid
    have hrow := (Scheduler.loadEntry_ok hload).1
    simp only [ChecksStop, EntryRequest.data, haccepts.not_only honly, false_or, hrow, Option.mem_def,
      Option.some.injEq, forall_eq']
    rw [stopsLater_iff_of_stop (ScheduleEntry.updated_stop now e v), ScheduleEntry.updated_start]
    by_cases hnamed : NamesStop data
    · rw [haccepts.stop_eq_some (.inr hnamed), Option.getD_some]
      simp only [hnamed, not_true, false_implies, and_true]
      exact stopAfter_iff haccepts e.start
    · have hskipped := haccepts.stop_eq_none hnamed
      have hsent : sentStop D data = none := by rw [← haccepts.stop, hskipped, Option.join_none]
      rw [hskipped, Option.getD_none, haccepts.start]
      simp only [hnamed, not_false_eq_true, forall_const, StopAfter, hsent, Option.mem_def,
        reduceCtorEq, false_implies, implies_true, true_and]
      cases hstart : (start D).sent data with
      | none => exact iff_of_true (hgood name e hrow) (by simp)
      | some x => simp

theorem accept_stopsLater_iff {l : ℤ × EntryRequest} (hgood : AllStopLater db)
    (h : accept D cfg db l = some db') : AllStopLater db' ↔ ChecksStop D db l := by
  obtain ⟨row, hwrites⟩ | ⟨rfl, honly⟩ := accept_cases h
  · have hrows : AllStopLater db' ↔ StopsLater row := by
      constructor
      · exact fun hall => hall row.name row hwrites.stored
      · intro hrow name e he
        rw [hwrites.getEntry] at he
        split_ifs at he with hname
        · exact Option.some.inj he ▸ hrow
        · exact hgood name e he
    rw [hrows]
    exact hwrites.stopsLater_iff hgood
  · exact iff_of_true hgood (.inl honly)

/-- The entries stop after they start throughout a run of accepted requests exactly
if every request was in order. -/
theorem stop_after_start_iff (D : Conversions) (cfg : Settings) (db t : Database)
    (run : List (ℤ × EntryRequest)) (hgood : AllStopLater db)
    (hrun : exec (accept D cfg) db run = some t) :
    Throughout (accept D cfg) AllStopLater db run ↔ Along (accept D cfg) (ChecksStop D) db run :=
  throughout_iff_along (J := fun _ => True) (fun _ _ _ _ _ _ => trivial)
    (fun _ _ _ _ hgood hstep => accept_stopsLater_iff hgood hstep) trivial hgood hrun

/-- A body with a stop 100 seconds after the epoch. -/
def endsAtHundred : Obj :=
  (((∅ : Obj).insert "name" (.str "sweep")).insert "action" (.str "acquire")).insert
    "absolute_stop" (.str "1970-01-01T00:01:40Z")

/-- An entry is posted in time, its start is moved before its stop, a stop alone is put
after the new start, and then the stop is taken away. -/
def movedTimes : List (ℤ × EntryRequest) :=
  [(50, .post "op" endsAtHundred),
    (60, .patch "sweep" ((∅ : Obj).insert "start" (.str "1970-01-01T00:01:10Z"))),
    (70, .put "sweep" endsAtHundred),
    (80, .patch "sweep" ((∅ : Obj).insert "absolute_stop" .null))]

theorem stop_after_start_early :
    Throughout (accept plainConversions inThread) AllStopLater {} movedTimes := by
  have hempty : AllStopLater {} := by
    intro name e he
    cases he
  have hmoved : (exec (accept plainConversions inThread) {} movedTimes).map
      (fun db => db.schedule.map fun e => (e.start, e.stop)) = some [(70, none)] := by
    decide +kernel
  obtain ⟨t, hrun, -⟩ := Option.map_eq_some_iff.mp hmoved
  exact (stop_after_start_iff plainConversions inThread {} t _ hempty hrun).mpr (by decide +kernel)

theorem late_post_stops_before :
    (serve plainConversions inThread {} 1000 (.post "op" endsAtHundred)).row =
        some ⟨"sweep", "acquire", 10, 1001, some 100, none, true, none, 1001, 1, "op"⟩ ∧
      ¬ StopsLater ⟨"sweep", "acquire", 10, 1001, some 100, none, true, none, 1001, 1, "op"⟩ := by
  decide +kernel

end ScosSensor.ScheduleEntryViewSet
