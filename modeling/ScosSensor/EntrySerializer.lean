import ScosSensor.ApiRequests
import ScosSensor.Fields
import ScosSensor.Timestamps

/-!
# The serializer of schedule entries

A request body is validated field by field and then as a whole. The view makes
more fields read-only, others for an update than for a creation, but only fields
that the serializer generates from the model heed it: the declared ones stay as
they are declared. An update sets the validated data on the stored instance; a
creation calls the constructor, the only place where a relative stop counts.
-/
namespace ScosSensor

/-- The conversions of the field classes, and `str` of a JSON value. -/
structure Conversions where
  datetime : Json → Option Datetime
  isoDatetime : Json → Option ℤ
  integer : Json → Option ℤ
  boolean : Json → Option Bool
  slug : Json → Option String
  url : Json → Option String
  user : Json → Option String
  text : Json → String

/-- The actions of the view that take a body: POST, PUT and PATCH. -/
inductive ViewAction where
  | create
  | update
  | partialUpdate
  deriving Repr, DecidableEq

namespace ViewAction

def updating : ViewAction → Bool
  | .create => false
  | .update => true
  | .partialUpdate => true

/-- Whether absent fields are skipped. -/
def isPartial : ViewAction → Bool
  | .partialUpdate => true
  | _ => false

/-- The `read_only_fields` that `get_serializer_class` sets. -/
def readOnlyFields (a : ViewAction) : List String :=
  "next_task_time" :: if a.updating then ["name", "action"] else ["is_active"]

end ViewAction

/-- What the serializer raises: errors of fields, or one of the whole body. -/
inductive ValidationError where
  | fields (errors : List (String × FieldError))
  | nonField (message : String)
  deriving Repr, DecidableEq

/-- What the fields make of a body; a field that is `none` was skipped. -/
structure Parsed where
  name : Option String
  action : Option String
  priority : Option (Option ℤ)
  start : Option (Option ℤ)
  stop : Option (Option ℤ)
  relativeStop : Option (Option ℤ)
  interval : Option (Option ℤ)
  isActive : Option Bool
  callbackUrl : Option (Option String)
  nextTaskTime : Option ℤ
  nextTaskId : Option ℤ
  created : Option ℤ
  owner : Option String
  validateOnly : Option Bool
  deriving Repr, DecidableEq

/-- The data that has been validated as a whole. -/
structure Validated extends Body where
  name : Option String := none
  relativeStop : Option (Option ℤ) := none
  nextTaskTime : Option ℤ := none
  nextTaskId : Option ℕ := none
  created : Option ℤ := none
  owner : Option String := none
  validateOnly : Bool := false
  deriving Repr, DecidableEq

/-- The interval of a number that the validators let through. -/
def toInterval (n : ℤ) : Option ℕ+ := if h : 0 < n.toNat then some ⟨n.toNat, h⟩ else none

namespace ScheduleEntrySerializer

/-- A field that is generated from a model field heeds `read_only_fields`. -/
def generated (a : ViewAction) (editable : Bool) {α : Type} (f : Field α) : Field α :=
  { f with readOnly := !editable || a.readOnlyFields.contains f.name }

/-- `DateTimeFromTimestampField` with its options. -/
def dateTimeFromTimestampField (D : Conversions) (name : String) : Field ℤ where
  name
  required := false
  default := some none
  allowNull := true
  toInternalValue j := (D.datetime j).map getTimestampFromDatetime

def name (D : Conversions) (db : Database) (a : ViewAction) : Field String :=
  generated a true {
    name := "name"
    toInternalValue := D.slug
    validators := fun name => (db.getEntry name).isNone }

def action (D : Conversions) (cfg : Settings) : Field String where
  name := "action"
  toInternalValue j := if cfg.actions.contains (D.text j) then some (D.text j) else none

def priority (D : Conversions) : Field ℤ where
  name := "priority"
  required := false
  allowNull := true
  toInternalValue := D.integer
  validators n := decide (-20 ≤ n) && decide (n ≤ 19)

def start (D : Conversions) : Field ℤ := dateTimeFromTimestampField D "start"

def stop (D : Conversions) : Field ℤ := dateTimeFromTimestampField D "stop"

def relativeStop (D : Conversions) : Field ℤ where
  name := "relative_stop"
  required := false
  default := some none
  allowNull := true
  toInternalValue := D.integer
  validators n := decide (1 ≤ n)

def interval (D : Conversions) (a : ViewAction) : Field ℤ :=
  generated a true {
    name := "interval"
    required := false
    allowNull := true
    toInternalValue := D.integer
    validators := fun n => decide (1 ≤ n) && decide (n ≤ 2147483647) }

def isActive (D : Conversions) (a : ViewAction) : Field Bool :=
  generated a true {
    name := "is_active"
    required := false
    toInternalValue := D.boolean }

def callbackUrl (D : Conversions) (a : ViewAction) : Field String :=
  generated a true {
    name := "callback_url"
    required := false
    allowNull := true
    toInternalValue := D.url }

def nextTaskTime (D : Conversions) : Field ℤ where
  name := "next_task_time"
  readOnly := true
  toInternalValue j := (D.datetime j).map getTimestampFromDatetime

def nextTaskId (D : Conversions) (a : ViewAction) : Field ℤ :=
  generated a false {
    name := "next_task_id"
    toInternalValue := D.integer }

def created (D : Conversions) : Field ℤ where
  name := "created"
  readOnly := true
  toInternalValue := D.isoDatetime

def owner (D : Conversions) (a : ViewAction) : Field String :=
  generated a false {
    name := "owner"
    toInternalValue := D.user }

def validateOnly (D : Conversions) : Field Bool where
  name := "validate_only"
  required := false
  default := some (some false)
  toInternalValue := D.boolean

/-- `absolute_stop` is a synonym for `stop`. -/
def cleanUp (data : Obj) : Obj :=
  match data.lookup "absolute_stop" with
  | none => data
  | some j => (data.erase "absolute_stop").insert "stop" j

section

variable (D : Conversions) (cfg : Settings) (db : Database) (a : ViewAction) (data : Obj)

/-- The errors of all fields, in the order of the fields. -/
def fieldErrors : List (String × FieldError) :=
  let p := a.isPartial
  (name D db a).errors p data ++ (action D cfg).errors p data ++ (priority D).errors p data ++
    (start D).errors p data ++ (stop D).errors p data ++ (relativeStop D).errors p data ++
    (interval D a).errors p data ++ (isActive D a).errors p data ++
    (callbackUrl D a).errors p data ++ (nextTaskTime D).errors p data ++
    (nextTaskId D a).errors p data ++ (created D).errors p data ++ (owner D a).errors p data ++
    (validateOnly D).errors p data

/-- The values of all fields. -/
def parsed : Parsed :=
  let p := a.isPartial
  { name := ((name D db a).value p data).join
    action := ((action D cfg).value p data).join
    priority := (priority D).value p data
    start := (start D).value p data
    stop := (stop D).value p data
    relativeStop := (relativeStop D).value p data
    interval := (interval D a).value p data
    isActive := ((isActive D a).value p data).join
    callbackUrl := (callbackUrl D a).value p data
    nextTaskTime := ((nextTaskTime D).value p data).join
    nextTaskId := ((nextTaskId D a).value p data).join
    created := ((created D).value p data).join
    owner := ((owner D a).value p data).join
    validateOnly := ((validateOnly D).value p data).join }

def toInternalValue : Except ValidationError Parsed :=
  let data := cleanUp data
  match fieldErrors D cfg db a data with
  | [] => .ok (parsed D cfg db a data)
  | errors => .error (.fields errors)

end

/-- `data["stop"] <= data["start"]`, when both are given. -/
def notAfter : Option ℤ → Option ℤ → Bool
  | some start, some stop => decide (stop ≤ start)
  | _, _ => false

/-- The data without a null start, a null priority, and a `validate_only` that
is not true. -/
def popped (d : Parsed) : Validated where
  name := d.name
  action := d.action
  priority := d.priority.join
  start := d.start.join
  stop := d.stop
  relativeStop := d.relativeStop
  interval := d.interval.map fun n => n.bind toInterval
  isActive := d.isActive
  callbackUrl := d.callbackUrl
  nextTaskTime := d.nextTaskTime
  nextTaskId := d.nextTaskId.map Int.toNat
  created := d.created
  owner := d.owner
  validateOnly := d.validateOnly = some true

/-- Object-level validation. -/
def validate (d : Parsed) : Except ValidationError Validated :=
  if d.stop.join.isSome && d.relativeStop.join.isSome then
    .error (.nonField "pass only one of stop and relative_stop")
  else if notAfter d.start.join d.stop.join then
    .error (.nonField "stop time is not after start")
  else .ok (popped d)

/-- `is_valid`, with the validated data. -/
def isValid (D : Conversions) (cfg : Settings) (db : Database) (a : ViewAction) (data : Obj) :
    Except ValidationError Validated :=
  (toInternalValue D cfg db a data).bind validate

section

variable {D : Conversions} {cfg : Settings} {db : Database} {a : ViewAction} {data : Obj}
  {v : Validated}

@[simp] theorem name_readOnly : (name D db a).readOnly = a.updating := by
  cases a <;> simp [name, generated, ViewAction.readOnlyFields, ViewAction.updating]

@[simp] theorem interval_readOnly : (interval D a).readOnly = false := by
  cases a <;> simp [interval, generated, ViewAction.readOnlyFields, ViewAction.updating]

@[simp] theorem isActive_readOnly : (isActive D a).readOnly = !a.updating := by
  cases a <;> simp [isActive, generated, ViewAction.readOnlyFields, ViewAction.updating]

@[simp] theorem callbackUrl_readOnly : (callbackUrl D a).readOnly = false := by
  cases a <;> simp [callbackUrl, generated, ViewAction.readOnlyFields, ViewAction.updating]

theorem isPartial_eq_false : a.isPartial = false ↔ a ≠ .partialUpdate := by
  cases a <;> simp [ViewAction.isPartial]

theorem isPartial_of_updating (h : a.updating = false) : a.isPartial = false := by
  cases a <;> simp_all [ViewAction.updating, ViewAction.isPartial]

theorem lookup_cleanUp {name : String} (hstop : name ≠ "stop") (hsynonym : name ≠ "absolute_stop")
    (data : Obj) : (cleanUp data).lookup name = data.lookup name := by
  unfold cleanUp
  cases data.lookup "absolute_stop" with
  | none => rfl
  | some j => rw [AList.lookup_insert_ne hstop, AList.lookup_erase_ne hsynonym]

/-- Only the stop is read under two names. -/
theorem sent_cleanUp {α : Type} {f : Field α} (name : String) (hname : f.name = name)
    (hstop : name ≠ "stop") (hsynonym : name ≠ "absolute_stop") (data : Obj) :
    f.sent (cleanUp data) = f.sent data := by
  unfold Field.sent
  rw [hname, lookup_cleanUp hstop hsynonym]

/-- What an accepted field of another name than the stop's was sent as. -/
theorem value_join_cleanUp {α : Type} {f : Field α} {p : Bool} (name : String)
    (hname : f.name = name) (hstop : name ≠ "stop") (hsynonym : name ≠ "absolute_stop")
    (hwrite : f.readOnly = false) (hdefault : f.default.join = none)
    (h : f.errors p (cleanUp data) = []) : (f.value p (cleanUp data)).join = f.sent data :=
  (Field.value_join hwrite hdefault h).trans (sent_cleanUp name hname hstop hsynonym data)

theorem stop_mem_cleanUp : "stop" ∈ cleanUp data ↔ "stop" ∈ data ∨ "absolute_stop" ∈ data := by
  unfold cleanUp
  cases hlookup : data.lookup "absolute_stop" with
  | none => simp [AList.lookup_eq_none.mp hlookup]
  | some j =>
    have hmem : "absolute_stop" ∈ data := AList.lookup_isSome.mp (by simp [hlookup])
    simp [hmem]

/-- The stop of a body, under either of its names. -/
def sentStop (D : Conversions) (data : Obj) : Option ℤ := (stop D).sent (cleanUp data)

/-- The body names a stop. -/
def NamesStop (data : Obj) : Prop := "stop" ∈ data ∨ "absolute_stop" ∈ data

instance (data : Obj) : Decidable (NamesStop data) :=
  inferInstanceAs (Decidable ("stop" ∈ data ∨ "absolute_stop" ∈ data))

theorem notAfter_eq_true {start stop : Option ℤ} :
    notAfter start stop = true ↔ ∃ x y, start = some x ∧ stop = some y ∧ y ≤ x := by
  cases start <;> cases stop <;> simp [notAfter]

/-- What is known of a body that has been accepted, and of its validated data. -/
structure Accepts (D : Conversions) (cfg : Settings) (db : Database) (a : ViewAction) (data : Obj)
    (v : Validated) : Prop where
  start : v.start = (start D).sent data
  stop : v.stop.join = sentStop D data
  stopGiven : v.stop.isSome ↔ a ≠ .partialUpdate ∨ NamesStop data
  relativeStop : v.relativeStop.join = (relativeStop D).sent data
  relativeStopPos : ∀ r, v.relativeStop.join = some r → 1 ≤ r
  exclusive : v.stop.join = none ∨ v.relativeStop.join = none
  ordered : ∀ x y, v.start = some x → v.stop.join = some y → x < y
  name : a.updating = true → v.name = none
  nameNew : a.updating = false → ∃ name, v.name = some name ∧ db.getEntry name = none
  action : v.action = (ScheduleEntrySerializer.action D cfg).sent data
  actionLoaded : ∀ action, v.action = some action → cfg.actions.contains action = true
  actionGiven : a ≠ .partialUpdate → v.action.isSome
  priority : ∀ n, v.priority = some n → -20 ≤ n ∧ n ≤ 19
  interval : ∀ i, v.interval = some (some i) → (i : ℤ) ≤ 2147483647
  callbackUrl : ∀ url, v.callbackUrl = some (some url) → ∃ j, D.url j = some url
  readOnly : v.nextTaskTime = none ∧ v.nextTaskId = none ∧ v.created = none ∧ v.owner = none
  validateOnly : v.validateOnly = true ↔ (validateOnly D).sent data = some true

theorem toInternalValue_ok {d : Parsed} (h : toInternalValue D cfg db a data = .ok d) :
    fieldErrors D cfg db a (cleanUp data) = [] ∧ d = parsed D cfg db a (cleanUp data) := by
  unfold toInternalValue at h
  cases herrors : fieldErrors D cfg db a (cleanUp data) with
  | nil =>
    simp only [herrors, Except.ok.injEq] at h
    exact ⟨rfl, h.symm⟩
  | cons err errs => simp [herrors] at h

theorem validate_ok {d : Parsed} (h : validate d = .ok v) :
    (d.stop.join = none ∨ d.relativeStop.join = none) ∧ notAfter d.start.join d.stop.join = false ∧
      v = popped d := by
  unfold validate at h
  split_ifs at h with hboth hafter
  refine ⟨?_, Bool.eq_false_iff.mpr hafter, (Except.ok.inj h).symm⟩
  cases hstop : d.stop.join with
  | none => exact .inl rfl
  | some stop =>
    cases hrelative : d.relativeStop.join with
    | none => exact .inr rfl
    | some r => simp [hstop, hrelative] at hboth

theorem isValid_ok (h : isValid D cfg db a data = .ok v) :
    fieldErrors D cfg db a (cleanUp data) = [] ∧
      validate (parsed D cfg db a (cleanUp data)) = .ok v := by
  unfold isValid at h
  cases hparsed : toInternalValue D cfg db a data with
  | error err => simp [hparsed, Except.bind] at h
  | ok d =>
    obtain ⟨herrors, rfl⟩ := toInternalValue_ok hparsed
    rw [hparsed] at h
    exact ⟨herrors, h⟩

theorem toInterval_le {n : ℤ} {i : ℕ+} (h : toInterval n = some i) (hle : n ≤ 2147483647) :
    (i : ℤ) ≤ 2147483647 := by
  unfold toInterval at h
  split_ifs at h with hpos
  obtain rfl := Option.some.inj h
  rw [PNat.mk_coe]
  omega

/-- The choices of the action are the loaded ones. -/
theorem loaded_of_sent {name : String} (h : (action D cfg).sent data = some name) :
    cfg.actions.contains name = true := by
  obtain ⟨j, -, hj⟩ := Field.exists_of_sent h
  dsimp only [action] at hj
  split_ifs at hj with hloaded
  exact Option.some.inj hj ▸ hloaded

/-- `validate_only` counts when it is sent as true; its default is false. -/
theorem validateOnly_iff {p : Bool} (h : (validateOnly D).errors p data = []) :
    ((validateOnly D).value p data).join = some true ↔ (validateOnly D).sent data = some true := by
  rcases Field.value_cases rfl h with ⟨-, hsent, -, hv⟩ | ⟨-, -, hnull, -⟩ | ⟨b, -, hsent, -, hv⟩
  · rw [hsent, hv]
    split_ifs <;> simp [validateOnly]
  · cases hnull
  · rw [hsent, hv]
    rfl

theorem accepts_of_isValid (h : isValid D cfg db a data = .ok v) : Accepts D cfg db a data v := by
  obtain ⟨herrors, hvalid⟩ := isValid_ok h
  obtain ⟨hexclusive, hafter, rfl⟩ := validate_ok hvalid
  unfold fieldErrors at herrors
  simp only [List.append_eq_nil_iff] at herrors
  obtain ⟨⟨⟨⟨⟨⟨⟨⟨⟨⟨⟨⟨⟨hname, haction⟩, hpriority⟩, hstart⟩, hstop⟩, hrelative⟩, hinterval⟩, -⟩, hurl⟩, -⟩,
    -⟩, -⟩, -⟩, honly⟩ := herrors
  constructor
  case start =>
    exact value_join_cleanUp "start" rfl (by decide) (by decide) rfl rfl hstart
  case stop => exact Field.value_join rfl rfl hstop
  case stopGiven =>
    rw [NamesStop, ← stop_mem_cleanUp]
    refine (Field.isSome_value rfl hstop).trans ?_
    rw [← isPartial_eq_false]
    simp [stop, dateTimeFromTimestampField, or_comm]
  case relativeStop =>
    exact value_join_cleanUp "relative_stop" rfl (by decide) (by decide) rfl rfl hrelative
  case relativeStopPos =>
    intro r hr
    have hsent := (Field.value_join rfl rfl hrelative).symm.trans hr
    exact of_decide_eq_true (Field.validators_of_sent rfl hrelative hsent)
  case exclusive => exact hexclusive
  case ordered =>
    intro x y hx hy
    by_contra hle
    rw [Bool.eq_false_iff] at hafter
    exact hafter (notAfter_eq_true.mpr ⟨x, y, hx, hy, not_lt.mp hle⟩)
  case name =>
    intro hupdating
    exact Field.value_join_of_readOnly (name_readOnly.trans hupdating)
  case nameNew =>
    intro hcreate
    have hwrite : (name D db a).readOnly = false := name_readOnly.trans hcreate
    obtain ⟨n, hsent⟩ := Field.exists_sent hwrite (isPartial_of_updating hcreate) rfl rfl hname
    refine ⟨n, (Field.value_join hwrite rfl hname).trans hsent, ?_⟩
    exact Option.isNone_iff_eq_none.mp (Field.validators_of_sent hwrite hname hsent)
  case action =>
    exact value_join_cleanUp "action" rfl (by decide) (by decide) rfl rfl haction
  case actionLoaded =>
    intro action haction'
    exact loaded_of_sent ((Field.value_join rfl rfl haction).symm.trans haction')
  case actionGiven =>
    intro hfull
    rw [← isPartial_eq_false] at hfull
    obtain ⟨action, hsent⟩ := Field.exists_sent rfl hfull rfl rfl haction
    exact Option.isSome_iff_exists.mpr ⟨action, (Field.value_join rfl rfl haction).trans hsent⟩
  case priority =>
    intro n hn
    have hsent := (Field.value_join rfl rfl hpriority).symm.trans hn
    simpa [priority] using Field.validators_of_sent rfl hpriority hsent
  case interval =>
    intro i hi
    obtain ⟨n, hn, hto⟩ := Option.map_eq_some_iff.mp hi
    obtain ⟨n, rfl, hto⟩ := Option.bind_eq_some_iff.mp hto
    have hsent := Field.sent_of_value interval_readOnly rfl hinterval hn
    have hrange := Field.validators_of_sent interval_readOnly hinterval hsent
    simp only [interval, generated, Bool.and_eq_true, decide_eq_true_eq] at hrange
    exact toInterval_le hto hrange.2
  case callbackUrl =>
    intro url hsome
    obtain ⟨j, -, hj⟩ := Field.exists_of_sent (Field.sent_of_value callbackUrl_readOnly rfl hurl hsome)
    exact ⟨j, hj⟩
  case readOnly =>
    have hunset {α : Type} (f : Field α) (hf : f.readOnly = true) :
        (f.value a.isPartial (cleanUp data)).join = none := Field.value_join_of_readOnly hf
    have hid : ((nextTaskId D a).value a.isPartial (cleanUp data)).join.map Int.toNat = none := by
      rw [hunset (nextTaskId D a) rfl]
      rfl
    exact ⟨hunset (nextTaskTime D) rfl, hid, hunset (created D) rfl, hunset (owner D a) rfl⟩
  case validateOnly =>
    rw [← sent_cleanUp "validate_only" rfl (by decide) (by decide) data]
    have hvalue : (popped (parsed D cfg db a (cleanUp data))).validateOnly = true ↔
        ((validateOnly D).value a.isPartial (cleanUp data)).join = some true := decide_eq_true_iff
    exact hvalue.trans (validateOnly_iff honly)

/-- The stop that is set, where one is given or the default fills in. -/
theorem Accepts.stop_eq_some (h : Accepts D cfg db a data v)
    (hgiven : a ≠ .partialUpdate ∨ NamesStop data) : v.stop = some (sentStop D data) := by
  obtain ⟨stop, hstop⟩ := Option.isSome_iff_exists.mp (h.stopGiven.mpr hgiven)
  rw [← h.stop, hstop, Option.join_some]

theorem Accepts.stop_eq_none (h : Accepts D cfg db .partialUpdate data v)
    (hnamed : ¬ NamesStop data) : v.stop = none := by
  rw [← Option.not_isSome_iff_eq_none, h.stopGiven]
  simp [hnamed]

theorem Accepts.not_only (h : Accepts D cfg db a data v) (hwrite : v.validateOnly = false) :
    (ScheduleEntrySerializer.validateOnly D).sent data ≠ some true := by
  rw [ne_eq, ← h.validateOnly, hwrite]
  exact Bool.false_ne_true

/-- A relative stop excludes the other one. -/
theorem Accepts.stop_of_relative (h : Accepts D cfg db a data v) {r : ℤ}
    (hr : (ScheduleEntrySerializer.relativeStop D).sent data = some r) : v.stop.join = none := by
  have hrelative := h.relativeStop.trans hr
  obtain hstop | hnone := h.exclusive
  · exact hstop
  · simp [hnone] at hrelative

end

end ScheduleEntrySerializer

end ScosSensor
