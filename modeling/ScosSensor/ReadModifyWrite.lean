import ScosSensor.CheckedRows

/-!
# Sending an entry back as it was read

A GET renders the timestamps of an entry as dates, and a PUT parses them again.
The dates are whole seconds, so the timestamps come back as they were; the fields
that a GET does not show take defaults that change nothing, and the save finds
start and interval as they were loaded. The row stays what it was.
-/
namespace ScosSensor

/-- The formatter of `scos_actions`, and `reverse` of a view and a key. -/
structure Rendering where
  isoformat : Datetime → String
  url : String → String → String

/-- What parsing and rendering promise each other: dates of whole seconds come back,
numbers, booleans and texts are read as they are, and a URL that was accepted is
accepted unchanged. -/
structure RoundTrips (D : Conversions) (R : Rendering) : Prop where
  datetime : ∀ ts dt, getDatetimeFromTimestamp ts = some dt →
    D.datetime (.str (R.isoformat dt)) = some dt
  integer : ∀ n, D.integer (.int n) = some n
  boolean : ∀ b, D.boolean (.bool b) = some b
  text : ∀ s, D.text (.str s) = s
  url : ∀ j url, D.url j = some url → D.url (.str url) = some url

namespace ScheduleEntrySerializer

/-- `DateTimeFromTimestampField.to_representation`. -/
def renderTimestamp (R : Rendering) (ts : ℤ) : Option Json :=
  (getDatetimeFromTimestamp ts).map fun dt => .str (R.isoformat dt)

/-- The JSON of an entry; `none` is a timestamp that cannot be rendered. No column
stands behind `validate_only`, so its default is shown, and `relative_stop` is
write-only. -/
def toRepresentation (R : Rendering) (created modified : Datetime) (e : ScheduleEntry) :
    Option Obj := do
  let start ← renderTimestamp R e.start
  let stop ← e.stop.elim (some .null) (renderTimestamp R)
  let nextTaskTime ← renderTimestamp R e.nextTaskTime
  return List.toAList [
    ⟨"self", .str (R.url "schedule-detail" e.name)⟩,
    ⟨"name", .str e.name⟩,
    ⟨"action", .str e.action⟩,
    ⟨"priority", .int e.priority⟩,
    ⟨"start", start⟩,
    ⟨"stop", stop⟩,
    ⟨"interval", e.interval.elim .null fun i => .int i⟩,
    ⟨"is_active", .bool e.isActive⟩,
    ⟨"callback_url", e.callbackUrl.elim .null .str⟩,
    ⟨"next_task_time", nextTaskTime⟩,
    ⟨"next_task_id", .int e.nextTaskId⟩,
    ⟨"created", .str (R.isoformat created)⟩,
    ⟨"modified", .str (R.isoformat modified)⟩,
    ⟨"owner", .str (R.url "user-detail" e.owner)⟩,
    ⟨"task_results", .str (R.url "task-result-list" e.name)⟩,
    ⟨"validate_only", .bool false⟩]

variable {D : Conversions} {R : Rendering} {cfg : Settings} {db : Database} {e : ScheduleEntry}
  {created modified : Datetime} {data : Obj} {ts : ℤ} {j : Json}

theorem renderTimestamp_isSome : (renderTimestamp R ts).isSome = representable ts := by
  rw [renderTimestamp, Option.isSome_map, isSome_getDatetimeFromTimestamp]

/-- A GET answers exactly for the entries that the view can render. -/
theorem toRepresentation_isSome (R : Rendering) (created modified : Datetime) (e : ScheduleEntry) :
    (toRepresentation R created modified e).isSome = e.serializable := by
  have hstart := @renderTimestamp_isSome R e.start
  have hnext := @renderTimestamp_isSome R e.nextTaskTime
  have hstop : (e.stop.elim (some .null) (renderTimestamp R)).isSome = e.stop.all representable := by
    cases e.stop with
    | none => rfl
    | some stop => exact renderTimestamp_isSome
  rw [ScheduleEntry.serializable, ← hstart, ← hnext, ← hstop]
  unfold toRepresentation
  cases renderTimestamp R e.start <;> cases e.stop.elim (some .null) (renderTimestamp R) <;>
    cases renderTimestamp R e.nextTaskTime <;> rfl

/-- A rendered timestamp is parsed to itself. -/
theorem runValidation_timestamp (hD : RoundTrips D R) {name : String}
    (hlookup : data.lookup name = some j) (hj : renderTimestamp R ts = some j) :
    (dateTimeFromTimestampField D name).runValidation false data = .ok (some (some ts)) := by
  obtain ⟨dt, hdt, rfl⟩ := Option.map_eq_some_iff.mp hj
  refine Field.runValidation_of_value rfl hlookup (by simp) ?_ rfl
  simp only [dateTimeFromTimestampField, hD.datetime ts dt hdt, Option.map_some,
    timestamp_getDatetimeFromTimestamp hdt]

theorem toInterval_coe (i : ℕ+) : toInterval (i : ℤ) = some i := by
  have hpos : 0 < ((i : ℕ) : ℤ).toNat := by
    rw [Int.toNat_natCast]
    exact i.pos
  rw [toInterval, dif_pos hpos]
  simp only [Int.toNat_natCast]
  rfl

/-- What the JSON of an entry says of the fields that a PUT reads. -/
structure Shows (R : Rendering) (e : ScheduleEntry) (data : Obj) : Prop where
  action : data.lookup "action" = some (.str e.action)
  priority : data.lookup "priority" = some (.int e.priority)
  start : ∃ j, data.lookup "start" = some j ∧ renderTimestamp R e.start = some j
  stop : ∃ j, data.lookup "stop" = some j ∧
    e.stop.elim (some .null) (renderTimestamp R) = some j
  absoluteStop : data.lookup "absolute_stop" = none
  relativeStop : data.lookup "relative_stop" = none
  interval : data.lookup "interval" = some (e.interval.elim .null fun i => .int i)
  isActive : data.lookup "is_active" = some (.bool e.isActive)
  callbackUrl : data.lookup "callback_url" = some (e.callbackUrl.elim .null .str)
  validateOnly : data.lookup "validate_only" = some (.bool false)

theorem shows_of_toRepresentation (h : toRepresentation R created modified e = some data) :
    Shows R e data := by
  simp only [toRepresentation, Option.bind_eq_bind, Option.bind_eq_some_iff, Option.pure_def,
    Option.some.injEq] at h
  obtain ⟨start, hstart, stop, hstop, next, -, hdata⟩ := h
  constructor
  case start => exact ⟨start, by simp [← hdata], hstart⟩
  case stop => exact ⟨stop, by simp [← hdata], hstop⟩
  all_goals simp [← hdata]

theorem Shows.runValidation_action (h : Shows R e data) (hD : RoundTrips D R)
    (hchecked : e.Checked D cfg) :
    (ScheduleEntrySerializer.action D cfg).runValidation false data = .ok (some (some e.action)) := by
  refine Field.runValidation_of_value rfl h.action (by simp) ?_ rfl
  simp only [ScheduleEntrySerializer.action, hD.text]
  exact if_pos hchecked.action

theorem Shows.runValidation_priority (h : Shows R e data) (hD : RoundTrips D R)
    (hchecked : e.Checked D cfg) :
    (ScheduleEntrySerializer.priority D).runValidation false data = .ok (some (some e.priority)) := by
  refine Field.runValidation_of_value rfl h.priority (by simp) (hD.integer _) ?_
  simpa [ScheduleEntrySerializer.priority] using hchecked.priority

theorem Shows.runValidation_start (h : Shows R e data) (hD : RoundTrips D R) :
    (ScheduleEntrySerializer.start D).runValidation false data = .ok (some (some e.start)) := by
  obtain ⟨j, hlookup, hj⟩ := h.start
  exact runValidation_timestamp hD hlookup hj

theorem Shows.runValidation_stop (h : Shows R e data) (hD : RoundTrips D R) :
    (ScheduleEntrySerializer.stop D).runValidation false data = .ok (some e.stop) := by
  obtain ⟨j, hlookup, hj⟩ := h.stop
  cases he : e.stop with
  | none =>
    rw [he] at hj
    obtain rfl : .null = j := Option.some.inj hj
    simp [Field.runValidation, ScheduleEntrySerializer.stop, dateTimeFromTimestampField, hlookup]
  | some stop =>
    rw [he] at hj
    exact runValidation_timestamp hD hlookup hj

theorem Shows.runValidation_interval (h : Shows R e data) (hD : RoundTrips D R)
    (hchecked : e.Checked D cfg) :
    (ScheduleEntrySerializer.interval D .update).runValidation false data =
      .ok (some (e.interval.map fun i : ℕ+ => (i : ℤ))) := by
  refine Field.runValidation_of_option interval_readOnly rfl h.interval (by simp) ?_ ?_
  · exact fun i _ => hD.integer i
  · intro i hi
    have hle := hchecked.interval i hi
    have hpos := i.pos
    simp only [ScheduleEntrySerializer.interval, generated, Bool.and_eq_true, decide_eq_true_eq]
    omega

theorem Shows.runValidation_callbackUrl (h : Shows R e data) (hD : RoundTrips D R)
    (hchecked : e.Checked D cfg) :
    (ScheduleEntrySerializer.callbackUrl D .update).runValidation false data =
      .ok (some e.callbackUrl) := by
  have hsent : ∀ url ∈ e.callbackUrl,
      (ScheduleEntrySerializer.callbackUrl D .update).toInternalValue (.str url) = some (id url) := by
    intro url hurl
    obtain ⟨j, hj⟩ := hchecked.callbackUrl url hurl
    exact hD.url j url hj
  have hrun : (ScheduleEntrySerializer.callbackUrl D .update).runValidation false data =
      .ok (some (e.callbackUrl.map id)) :=
    Field.runValidation_of_option callbackUrl_readOnly rfl h.callbackUrl (by simp) hsent fun _ _ => rfl
  rwa [Option.map_id, id] at hrun

/-- The validated data of an entry that is sent back. -/
def sentBack (e : ScheduleEntry) : Validated where
  action := some e.action
  priority := some e.priority
  start := some e.start
  stop := some e.stop
  relativeStop := some none
  interval := some e.interval
  isActive := some e.isActive
  callbackUrl := some e.callbackUrl

/-- The JSON of a checked entry is a valid PUT, of the values that the entry has. -/
theorem isValid_representation (hD : RoundTrips D R) (hchecked : e.Checked D cfg)
    (hafter : ∀ stop ∈ e.stop, e.start < stop)
    (h : toRepresentation R created modified e = some data) :
    isValid D cfg db .update data = .ok (sentBack e) := by
  have hshows := shows_of_toRepresentation h
  have hclean : cleanUp data = data := by rw [cleanUp, hshows.absoluteStop]
  have hname : (name D db .update).runValidation false data = .ok none :=
    Field.runValidation_of_readOnly name_readOnly
  have haction := hshows.runValidation_action hD hchecked
  have hpriority := hshows.runValidation_priority hD hchecked
  have hstart := hshows.runValidation_start hD
  have hstop := hshows.runValidation_stop hD
  have hrelative : (relativeStop D).runValidation false data = .ok (some none) :=
    Field.runValidation_of_absent rfl rfl rfl hshows.relativeStop
  have hinterval := hshows.runValidation_interval hD hchecked
  have hactive : (isActive D .update).runValidation false data = .ok (some (some e.isActive)) :=
    Field.runValidation_of_value isActive_readOnly hshows.isActive (by simp) (hD.boolean _) rfl
  have hurl := hshows.runValidation_callbackUrl hD hchecked
  have htime := @Field.runValidation_of_readOnly _ (nextTaskTime D) false data rfl
  have hid := @Field.runValidation_of_readOnly _ (nextTaskId D .update) false data rfl
  have hcreated := @Field.runValidation_of_readOnly _ (ScheduleEntrySerializer.created D) false data rfl
  have howner := @Field.runValidation_of_readOnly _ (owner D .update) false data rfl
  have honly : (validateOnly D).runValidation false data = .ok (some (some false)) :=
    Field.runValidation_of_value rfl hshows.validateOnly (by simp) (hD.boolean _) rfl
  have herrors : fieldErrors D cfg db .update data = [] := by
    simp only [fieldErrors, Field.errors, ViewAction.isPartial, hname, haction, hpriority, hstart,
      hstop, hrelative, hinterval, hactive, hurl, htime, hid, hcreated, howner, honly,
      List.append_nil]
  have hpopped : popped (parsed D cfg db .update data) = sentBack e := by
    have hback : (e.interval.map fun i : ℕ+ => (i : ℤ)).bind toInterval = e.interval := by
      cases e.interval with
      | none => rfl
      | some i => exact toInterval_coe i
    simp only [popped, parsed, Field.value, ViewAction.isPartial, hname, haction, hpriority, hstart,
      hstop, hrelative, hinterval, hactive, hurl, htime, hid, hcreated, howner, honly]
    simp [sentBack, hback]
  have hpair : notAfter (some e.start) e.stop = false := by
    rw [Bool.eq_false_iff, ne_eq, notAfter_eq_true]
    rintro ⟨x, y, hx, hy, hle⟩
    have hlt := hafter y hy
    rw [Option.some.inj hx] at hlt
    omega
  have hvalidate : validate (parsed D cfg db .update data) = .ok (sentBack e) := by
    rw [validate, hpopped]
    simp only [parsed, Field.value, ViewAction.isPartial, hstart, hstop, hrelative]
    simp [hpair]
  simp only [isValid, toInternalValue, hclean, herrors, Except.bind, hvalidate]

end ScheduleEntrySerializer

namespace ScheduleEntryViewSet

open ScheduleEntrySerializer Runs

theorem updated_sentBack (now : ℤ) (e : ScheduleEntry) : e.updated now (sentBack e) = e := by
  unfold ScheduleEntry.updated ScheduleEntry.reschedule
  rw [if_neg]
  · rfl
  · simp [ScheduleEntry.setAttributes, ScheduleEntry.assign, sentBack]

/-- A run that only the serializer feeds leaves entries which can be sent back as
they were read: the PUT is accepted, and the tables are the same as before. -/
theorem put_back_unchanged (D : Conversions) (R : Rendering) (cfg : Settings) (run : List Label)
    (s : Sys) (name : String) (e : ScheduleEntry) (created modified : Datetime) (now : ℤ)
    (hD : RoundTrips D R)
    (hok : Along (Scheduler.step cfg) (FromSerializer D cfg) { db := {} } run)
    (hrun : exec (Scheduler.step cfg) { db := {} } run = some s)
    (he : s.db.getEntry name = some e) (hserial : e.serializable = true)
    (hafter : ∀ stop ∈ e.stop, e.start < stop) :
    ∃ data, toRepresentation R created modified e = some data ∧
      serve D cfg s.db now (.put name data) = { reply := .ok e, db := s.db, row := some e } := by
  have hchecked := (checkedRows_of_run hok hrun).rows name e he
  have hnames : Scheduler.NamesUnique s.db := by
    have hempty : Scheduler.NamesUnique {} := List.nodup_nil
    refine exec_invariant (I := fun s : Sys => Scheduler.NamesUnique s.db) ?_ hempty hok hrun
    exact fun _ _ _ hs _ hstep => Scheduler.step_names hs hstep
  obtain ⟨data, hdata⟩ := Option.isSome_iff_exists.mp
    ((toRepresentation_isSome R created modified e).trans hserial)
  refine ⟨data, hdata, ?_⟩
  have hvalid : isValid D cfg s.db .update data = .ok (sentBack e) :=
    isValid_representation hD hchecked hafter hdata
  have hload : Scheduler.loadEntry cfg s.db name = .ok e := by
    simp only [Scheduler.loadEntry, he]
    exact if_pos hchecked.action
  have hsave : s.db.saveWhole e = s.db := by
    have hstored : s.db.getEntry e.name = some e := by rw [Database.name_of_getEntry he, he]
    rw [Database.saveWhole, if_pos (by simp [hstored]), Database.putEntry_stored hnames hstored]
  have honly : (sentBack e).validateOnly = false := rfl
  simp only [serve, update, hload, hvalid, honly, Bool.false_eq_true, if_false, updated_sentBack,
    hsave, store, if_pos (fits_of_serializable hserial), render, hserial, if_true]

/-- Whole seconds of the first hour with the texts of `scos_actions` for them. -/
def knownDates : List (Datetime × String) :=
  [(atHundred, "1970-01-01T00:01:40.000Z"),
    (⟨110000000, by decide, by decide⟩, "1970-01-01T00:01:50.000Z"),
    (⟨160000000, by decide, by decide⟩, "1970-01-01T00:02:40.000Z")]

/-- A formatter that writes these dates as `scos_actions` does, and counts the others. -/
def countingRendering : Rendering where
  isoformat dt :=
    match knownDates.find? fun p => p.1 = dt with
    | some p => p.2
    | none => String.ofList (List.replicate (dt.micros + 62135596800000000).toNat 'x')
  url view key := view ++ "/" ++ key

/-- The conversions that read its texts. -/
def countingConversions : Conversions where
  isoDatetime := plainConversions.isoDatetime
  integer := plainConversions.integer
  boolean := plainConversions.boolean
  slug := plainConversions.slug
  url := plainConversions.url
  user := plainConversions.user
  text := plainConversions.text
  datetime j := (stringOf j).bind fun s =>
    match knownDates.find? fun p => p.2 = s with
    | some p => some p.1
    | none =>
      if h : -62135596800000000 + (s.toList.length : ℤ) < 253402300800000000 then
        some ⟨-62135596800000000 + s.toList.length, by omega, h⟩
      else none

theorem datetime_counting (dt : Datetime) :
    countingConversions.datetime (.str (countingRendering.isoformat dt)) = some dt := by
  simp only [countingRendering, countingConversions, stringOf, Option.bind_some]
  cases hknown : knownDates.find? fun p => p.1 = dt with
  | some p =>
    have hread : ∀ p ∈ knownDates, (knownDates.find? fun q => q.2 = p.2) = some p := by decide
    have hp : p.1 = dt := by simpa using List.find?_some hknown
    simp only [hread p (List.mem_of_find?_eq_some hknown), hp]
  | none =>
    have hcounted : ∀ p ∈ knownDates, '1' ∈ p.2.toList := by decide
    have hnew : (knownDates.find? fun p => p.2 =
        String.ofList (List.replicate (dt.micros + 62135596800000000).toNat 'x')) = none := by
      apply List.find?_eq_none.mpr
      intro p hp htext
      have hmem := hcounted p hp
      rw [of_decide_eq_true htext, String.toList_ofList] at hmem
      exact absurd (List.eq_of_mem_replicate hmem) (by decide)
    have hfirst := dt.first
    have hlast := dt.last
    simp only [hnew, String.toList_ofList, List.length_replicate]
    rw [dif_pos (by omega)]
    cases dt
    simp only [Option.some.injEq, Datetime.mk.injEq]
    omega

theorem roundTrips_counting : RoundTrips countingConversions countingRendering := by
  refine ⟨fun _ dt _ => datetime_counting dt, fun _ => rfl, fun _ => rfl, fun _ => rfl, ?_⟩
  intro j url h
  cases j with
  | str s =>
    obtain rfl := Option.some.inj h
    rfl
  | _ => cases h

/-- A POST of an entry every ten seconds from 100 to 160, with a callback. -/
def untilOneSixty : Obj :=
  (((((∅ : Obj).insert "name" (.str "sweep")).insert "action" (.str "acquire")).insert "start"
    (.str "1970-01-01T00:01:40.000Z")).insert "absolute_stop"
      (.str "1970-01-01T00:02:40.000Z")).insert "interval" (.int 10) |>.insert "callback_url"
        (.str "https://manager/results")

/-- The entry after its first task. -/
def fromHundred : ScheduleEntry :=
  { everyTenSeconds with
    start := 100
    stop := some 160
    callbackUrl := some "https://manager/results"
    nextTaskTime := 110
    nextTaskId := 2 }

/-- What the constructor is given for it. -/
def untilOneSixtyBody : Body where
  action := some "acquire"
  start := some 100
  stop := some (some 160)
  interval := some everyTenSeconds.interval
  callbackUrl := some (some "https://manager/results")

/-- The entry is posted, and its first task is queued, executed and reported. -/
def firstPass : List Label :=
  .post "sweep" "op" untilOneSixtyBody 50 :: List.replicate 20 (.sched { now := 105 })

theorem put_back_fromHundred :
    ∃ s data, exec (Scheduler.step inThread) { db := {} } firstPass = some s ∧
      toRepresentation countingRendering atHundred atHundred fromHundred = some data ∧
      serve countingConversions inThread s.db 107 (.put "sweep" data) =
        { reply := .ok fromHundred, db := s.db, row := some fromHundred } := by
  have hvalid : isValid countingConversions inThread {} .create untilOneSixty =
      .ok { name := some "sweep", action := some "acquire", start := some 100,
            stop := some (some 160), relativeStop := some none, interval := some (some 10),
            callbackUrl := some (some "https://manager/results") } := by
    decide +kernel
  have hposted : Along (Scheduler.step inThread) (FromSerializer countingConversions inThread)
      { db := {} } firstPass :=
    ⟨⟨_, _, hvalid, rfl⟩, fun s _ => along_replicate (fun _ => trivial) 20 s⟩
  have hpass : (exec (Scheduler.step inThread) { db := {} } firstPass).map
      (fun s => s.db.getEntry "sweep") = some (some fromHundred) := by
    decide +kernel
  obtain ⟨s, hrun, he⟩ := Option.map_eq_some_iff.mp hpass
  obtain ⟨data, hdata, hback⟩ := put_back_unchanged countingConversions countingRendering inThread
    firstPass s "sweep" fromHundred atHundred atHundred 107 roundTrips_counting hposted hrun he rfl
    (by decide)
  exact ⟨s, data, hrun, hdata, hback⟩

end ScheduleEntryViewSet

end ScosSensor
