import ScosSensor.EntryViews

/-!
# Entries that can be stored and serialized

The dates of a body are bounded by their parsing, but a relative stop is not, and
the constructor adds it after the validation. A default start is as large as the
clock, a date in the last fifteen microseconds of the last year is rounded out of
it, and one on the first day of the first year is parsed but, up to the last second
of the day, never rendered. Apart from these, a valid POST is stored, read back and
scheduled.
-/
namespace ScosSensor.ScheduleEntryViewSet

open ScheduleEntrySerializer

variable {D : Conversions} {cfg : Settings} {db : Database} {now : ℤ} {owner : String}
  {e : ScheduleEntry} {v : Validated} {data : Obj} {a : ViewAction}

/-- The start that a POST stores. -/
def postedStart (D : Conversions) (now : ℤ) (data : Obj) : ℤ := ((start D).sent data).getD (now + 1)

/-- The times of a POST stay between the second day of the year 1 and the last of
the year 9999. -/
structure StaysInRange (D : Conversions) (now : ℤ) (data : Obj) : Prop where
  first : -62135510400 ≤ postedStart D now data
  last : postedStart D now data ≤ 253402300799
  stop : ∀ stop ∈ sentStop D data, -62135510400 ≤ stop ∧ stop ≤ 253402300799
  relativeStop : ∀ r ∈ (relativeStop D).sent data, postedStart D now data + r ≤ 253402300799

/-- A POST is answered with its entry, which can then be read and scheduled. -/
def Succeeds (D : Conversions) (cfg : Settings) (db : Database) (now : ℤ) (owner : String)
    (data : Obj) : Prop :=
  ∃ e, (create D cfg db now owner data).reply = .ok e ∧
    retrieve cfg (create D cfg db now owner data).db e.name = .ok e ∧
    Scheduler.serializeEntry cfg (create D cfg db now owner data).db e.name = .ok ()

theorem serializable_iff {e : ScheduleEntry} {stop : Option ℤ} (hstop : e.stop = stop)
    (hnext : e.nextTaskTime = e.start) :
    e.serializable = true ↔ representable e.start = true ∧ ∀ x ∈ stop, representable x = true := by
  unfold ScheduleEntry.serializable
  rw [hstop, hnext]
  cases stop <;> simp [and_comm]

/-- What a valid POST constructs can be serialized exactly if its times are in range. -/
theorem serializable_construct_iff (h : Accepts D cfg db .create data v) (now : ℤ) (owner : String) :
    (ScheduleEntry.construct now owner v).serializable = true ↔ StaysInRange D now data := by
  have hstart : (ScheduleEntry.construct now owner v).start = postedStart D now data := by
    rw [ScheduleEntry.construct_start, postedStart, h.start]
  have hnext : (ScheduleEntry.construct now owner v).nextTaskTime =
      (ScheduleEntry.construct now owner v).start := by simp
  have hstop := h.stop
  have hrelative := h.relativeStop
  cases hr : v.relativeStop.join with
  | none =>
    rw [serializable_iff (ScheduleEntry.construct_stop_of_none hr) hnext, hstart, hstop,
      representable_iff]
    constructor
    · rintro ⟨⟨hfirst, hlast⟩, hall⟩
      refine ⟨hfirst, hlast, fun stop hsent => representable_iff.mp (hall stop hsent), ?_⟩
      intro r hsent
      rw [← hrelative, hr] at hsent
      cases hsent
    · intro hrange
      exact ⟨⟨hrange.first, hrange.last⟩, fun stop hsent => representable_iff.mpr (hrange.stop stop hsent)⟩
  | some r =>
    have hpos := h.relativeStopPos r hr
    have hnone : sentStop D data = none :=
      hstop.symm.trans (h.stop_of_relative (hrelative.symm.trans hr))
    have hsum := @ScheduleEntry.construct_stop_of_some now owner v r hr (by omega)
    rw [serializable_iff hsum hnext, hstart, ← ScheduleEntry.construct_start now owner v, hstart,
      representable_iff]
    simp only [Option.mem_def, Option.some.injEq, forall_eq', representable_iff]
    constructor
    · rintro ⟨⟨hfirst, hlast⟩, -, hstop⟩
      refine ⟨hfirst, hlast, fun stop hsent => ?_, fun r' hsent => ?_⟩
      · rw [hnone] at hsent
        cases hsent
      · obtain rfl : r = r' := Option.some.inj (hr.symm.trans (hrelative.trans hsent))
        exact hstop
    · intro hrange
      have hlast := hrange.relativeStop r (hrelative.symm.trans hr)
      have hfirst := hrange.first
      exact ⟨⟨hrange.first, hrange.last⟩, by omega, hlast⟩

/-- A valid POST that is not only validated succeeds exactly if its entry can be
serialized. -/
theorem succeeds_iff (hvalid : isValid D cfg db .create data = .ok v)
    (honly : v.validateOnly = false) :
    Succeeds D cfg db now owner data ↔
      (ScheduleEntry.construct now owner v).serializable = true := by
  have haccepts := accepts_of_isValid hvalid
  obtain ⟨action, haction⟩ := Option.isSome_iff_exists.mp (haccepts.actionGiven (by decide))
  have hloads : cfg.loads (ScheduleEntry.construct now owner v) = true := by
    rw [Settings.loads, ScheduleEntry.construct_action, haction]
    exact haccepts.actionLoaded action haction
  have hcreate : create D cfg db now owner data =
      store db { db with schedule := db.schedule ++ [.construct now owner v] }
        (.construct now owner v) := by
    simp only [create, hvalid, honly, hloads, Bool.false_eq_true, if_false, if_true]
  have hstored : ({ db with schedule := db.schedule ++ [.construct now owner v] } : Database).getEntry
      (ScheduleEntry.construct now owner v).name = some (.construct now owner v) := by
    obtain ⟨name, hname, hnew⟩ := haccepts.nameNew rfl
    apply Database.getEntry_append_self
    rw [ScheduleEntry.construct_name, hname]
    exact hnew
  unfold Succeeds
  rw [hcreate]
  generalize ScheduleEntry.construct now owner v = e at *
  have hload : Scheduler.loadEntry cfg { db with schedule := db.schedule ++ [e] } e.name = .ok e := by
    simp [Scheduler.loadEntry, hstored, hloads]
  constructor
  · rintro ⟨e', hreply, -⟩
    unfold store render at hreply
    split_ifs at hreply with hfits hserial
    exact hserial
  · intro hserial
    refine ⟨e, ?_, ?_, ?_⟩
    · simp [store, render, fits_of_serializable hserial, hserial]
    · simp [store, fits_of_serializable hserial, retrieve, hload, render, hserial]
    · simp [store, fits_of_serializable hserial, Scheduler.serializeEntry, hload, hserial, bind,
        Except.bind, pure, Except.pure]

theorem lookup_erase_only {name : String} (hname : name ≠ "validate_only") (data : Obj) :
    (cleanUp (data.erase "validate_only")).lookup name = (cleanUp data).lookup name := by
  unfold cleanUp
  rw [AList.lookup_erase_ne (by decide)]
  cases data.lookup "absolute_stop" with
  | none => exact AList.lookup_erase_ne hname
  | some j =>
    by_cases hstop : name = "stop"
    · rw [hstop, AList.lookup_insert, AList.lookup_insert]
    · rw [AList.lookup_insert_ne hstop, AList.lookup_insert_ne hstop, AList.erase_erase,
        AList.lookup_erase_ne hname]

/-- `validate_only` that is not sent is false. -/
theorem runValidation_only_absent (D : Conversions) (data : Obj) :
    (validateOnly D).runValidation false (cleanUp (data.erase "validate_only")) =
      .ok (some (some false)) := by
  apply Field.runValidation_of_absent rfl rfl rfl
  change (cleanUp (data.erase "validate_only")).lookup "validate_only" = none
  rw [lookup_cleanUp (by decide) (by decide), AList.lookup_erase]

/-- The checks between the fields do not look at `validate_only`. -/
theorem validate_of_only {d : Parsed} (h : validate d = .ok v) :
    validate { d with validateOnly := some false } = .ok { v with validateOnly := false } := by
  obtain ⟨-, -, rfl⟩ := validate_ok h
  unfold validate at h ⊢
  split_ifs at h ⊢
  rfl

/-- Without `validate_only` a valid body stays valid, and is to be written. -/
theorem isValid_erase_only (h : isValid D cfg db .create data = .ok v) :
    isValid D cfg db .create (data.erase "validate_only") = .ok { v with validateOnly := false } := by
  obtain ⟨herrors, hvalid⟩ := isValid_ok h
  have hkeep : ∀ {α : Type} (f : Field α) (name : String), f.name = name → name ≠ "validate_only" →
      f.runValidation false (cleanUp (data.erase "validate_only")) =
        f.runValidation false (cleanUp data) := by
    intro α f name hname hne
    exact Field.runValidation_congr (by rw [hname, lookup_erase_only hne])
  have hname := hkeep (name D db .create) "name" rfl (by decide)
  have haction := hkeep (action D cfg) "action" rfl (by decide)
  have hpriority := hkeep (priority D) "priority" rfl (by decide)
  have hstart := hkeep (start D) "start" rfl (by decide)
  have hstop := hkeep (stop D) "stop" rfl (by decide)
  have hrelative := hkeep (relativeStop D) "relative_stop" rfl (by decide)
  have hinterval := hkeep (interval D .create) "interval" rfl (by decide)
  have hactive := hkeep (isActive D .create) "is_active" rfl (by decide)
  have hurl := hkeep (callbackUrl D .create) "callback_url" rfl (by decide)
  have htime := hkeep (nextTaskTime D) "next_task_time" rfl (by decide)
  have hid := hkeep (nextTaskId D .create) "next_task_id" rfl (by decide)
  have hcreated := hkeep (created D) "created" rfl (by decide)
  have howner := hkeep (ScheduleEntrySerializer.owner D .create) "owner" rfl (by decide)
  have hdefault := runValidation_only_absent D data
  have herrors' : fieldErrors D cfg db .create (cleanUp (data.erase "validate_only")) = [] := by
    simp only [fieldErrors, Field.errors, ViewAction.isPartial, List.append_eq_nil_iff] at herrors ⊢
    rw [hname, haction, hpriority, hstart, hstop, hrelative, hinterval, hactive, hurl, htime, hid,
      hcreated, howner, hdefault]
    exact ⟨herrors.1, rfl⟩
  have hparsed : parsed D cfg db .create (cleanUp (data.erase "validate_only")) =
      { parsed D cfg db .create (cleanUp data) with validateOnly := some false } := by
    simp only [parsed, Field.value, ViewAction.isPartial]
    rw [hname, haction, hpriority, hstart, hstop, hrelative, hinterval, hactive, hurl, htime, hid,
      hcreated, howner, hdefault]
    rfl
  simp only [isValid, toInternalValue, herrors', hparsed, Except.bind, validate_of_only hvalid]

/-- The entry of a valid POST fits its columns and can be serialized exactly if its
times stay in range, and exactly then the request without `validate_only` is
answered with an entry that can be read and scheduled; with it the answer is that
the request is valid. The timestamp of a date is in range from the last second of the
first day, after its fourth microsecond, up to fifteen microseconds before the end. -/
theorem storable_iff_in_range (D : Conversions) (cfg : Settings) (db : Database) (now : ℤ)
    (owner : String) (data : Obj) (v : Validated) (hvalid : isValid D cfg db .create data = .ok v) :
    (((ScheduleEntry.construct now owner v).fits = true ∧
        (ScheduleEntry.construct now owner v).serializable = true) ↔ StaysInRange D now data) ∧
      (Succeeds D cfg db now owner (data.erase "validate_only") ↔ StaysInRange D now data) ∧
      (v.validateOnly = true → (create D cfg db now owner data).reply = .noContent) ∧
      ∀ dt : Datetime, representable (getTimestampFromDatetime dt) = true ↔
        -62135510400999996 ≤ dt.micros ∧ dt.micros < 253402300799999985 := by
  have hserial := serializable_construct_iff (accepts_of_isValid hvalid) now owner
  refine ⟨?_, ?_, ?_, Datetime.representable_iff⟩
  · rw [← hserial]
    exact ⟨fun h => h.2, fun h => ⟨fits_of_serializable h, h⟩⟩
  · rw [succeeds_iff (isValid_erase_only hvalid) rfl]
    exact hserial
  · intro honly
    simp only [create, hvalid, honly, if_true]

/-- A body with the relative stop `r`. -/
def lasting (r : ℤ) : Obj :=
  (((∅ : Obj).insert "name" (.str "sweep")).insert "action" (.str "acquire")).insert
    "relative_stop" (.int r)

theorem storable_minute :
    Succeeds plainConversions inThread {} 100 "op" ((lasting 60).erase "validate_only") := by
  have hvalid : isValid plainConversions inThread {} .create (lasting 60) =
      .ok { name := some "sweep", action := some "acquire", stop := some none,
            relativeStop := some (some 60) } := by
    decide +kernel
  have hrange := storable_iff_in_range plainConversions inThread {} 100 "op" (lasting 60) _ hvalid
  exact hrange.1.mp (by decide +kernel) |> hrange.2.1.mpr

theorem long_stop_unserializable :
    (create plainConversions inThread {} 100 "op"
        ((lasting 1000000000000).insert "validate_only" (.bool true))).reply = .noContent ∧
      create plainConversions inThread {} 100 "op" (lasting 1000000000000) =
        { reply := .serverError .unserializable
          db.schedule := [⟨"sweep", "acquire", 10, 101, some 1000000000101, none, true, none, 101, 1, "op"⟩]
          row := some ⟨"sweep", "acquire", 10, 101, some 1000000000101, none, true, none, 101, 1, "op"⟩ } ∧
      Scheduler.serializeEntry inThread
        (create plainConversions inThread {} 100 "op" (lasting 1000000000000)).db "sweep" =
          .error .unserializable := by
  refine ⟨by decide +kernel, by decide +kernel, rfl⟩

end ScosSensor.ScheduleEntryViewSet
