import ScosSensor.EntrySerializer
import ScosSensor.EntryRows

/-!
# Requests on single entries

POST, PUT, PATCH and GET as the view serves them: validation, the constructor or
the assignments, the write with the bounds of its columns, and the rendering of
the reply, which can still fail after the write. What a request writes is a step
or two of the system that the scheduler runs in.
-/
namespace ScosSensor

/-- The integers of a `BigIntegerField`. -/
def fitsColumn (n : ℤ) : Bool := decide (-2 ^ 63 ≤ n) && decide (n < 2 ^ 63)

namespace ScheduleEntry

/-- The columns whose values the serializer does not bound. -/
def fits (e : ScheduleEntry) : Bool :=
  fitsColumn e.start && e.stop.all fitsColumn && fitsColumn e.nextTaskTime

/-- `__init__` with the validated data of a POST. -/
def construct (now : ℤ) (owner : String) (v : Validated) : ScheduleEntry :=
  let e := ofBody (v.name.getD "") owner (v.action.getD "") now v.toBody
  match v.relativeStop.join with
  | none => e
  | some relativeStop =>
    if relativeStop ≠ 0 then { e with stop := some (e.start + relativeStop) } else e

/-- The validated data as attributes of an instance. `relative_stop` becomes an
attribute too, but is no column. -/
def setAttributes (e : ScheduleEntry) (v : Validated) : ScheduleEntry :=
  { e.assign v.toBody with
    name := v.name.getD e.name
    nextTaskTime := v.nextTaskTime.getD e.nextTaskTime
    nextTaskId := v.nextTaskId.getD e.nextTaskId
    owner := v.owner.getD e.owner }

/-- The instance that an update with the data `v` writes. -/
def updated (now : ℤ) (e : ScheduleEntry) (v : Validated) : ScheduleEntry :=
  reschedule now e (e.setAttributes v)

/-- Only the stop depends on `relative_stop`. -/
theorem construct_frame (now : ℤ) (owner : String) (v : Validated) : construct now owner v =
    { ofBody (v.name.getD "") owner (v.action.getD "") now v.toBody with
      stop := (construct now owner v).stop } := by
  unfold construct
  split
  · rfl
  · split_ifs <;> rfl

@[simp] theorem construct_start (now : ℤ) (owner : String) (v : Validated) :
    (construct now owner v).start = v.start.getD (now + 1) :=
  (congrArg start (construct_frame now owner v)).trans rfl

@[simp] theorem construct_nextTaskTime (now : ℤ) (owner : String) (v : Validated) :
    (construct now owner v).nextTaskTime = v.start.getD (now + 1) :=
  (congrArg nextTaskTime (construct_frame now owner v)).trans rfl

@[simp] theorem construct_action (now : ℤ) (owner : String) (v : Validated) :
    (construct now owner v).action = v.action.getD "" :=
  (congrArg action (construct_frame now owner v)).trans rfl

@[simp] theorem construct_name (now : ℤ) (owner : String) (v : Validated) :
    (construct now owner v).name = v.name.getD "" :=
  (congrArg name (construct_frame now owner v)).trans rfl

/-- Without a relative stop the stop is the one of the body. -/
theorem construct_stop_of_none {now : ℤ} {owner : String} {v : Validated}
    (h : v.relativeStop.join = none) : (construct now owner v).stop = v.stop.join := by
  unfold construct
  rw [h]
  cases hstop : v.stop <;> simp [ofBody, hstop]

theorem construct_stop_of_some {now : ℤ} {owner : String} {v : Validated} {r : ℤ}
    (h : v.relativeStop.join = some r) (hr : r ≠ 0) :
    (construct now owner v).stop = some (v.start.getD (now + 1) + r) := by
  unfold construct
  rw [h]
  simp only [if_pos hr]
  rfl

/-- Saving moves the next task time only. -/
theorem updated_frame (now : ℤ) (e : ScheduleEntry) (v : Validated) : e.updated now v =
    { e.setAttributes v with nextTaskTime := (e.updated now v).nextTaskTime } := by
  unfold updated reschedule
  split_ifs <;> rfl

@[simp] theorem updated_start (now : ℤ) (e : ScheduleEntry) (v : Validated) :
    (e.updated now v).start = v.start.getD e.start :=
  (congrArg start (updated_frame now e v)).trans rfl

@[simp] theorem updated_stop (now : ℤ) (e : ScheduleEntry) (v : Validated) :
    (e.updated now v).stop = v.stop.getD e.stop :=
  (congrArg stop (updated_frame now e v)).trans rfl

@[simp] theorem updated_action (now : ℤ) (e : ScheduleEntry) (v : Validated) :
    (e.updated now v).action = v.action.getD e.action :=
  (congrArg action (updated_frame now e v)).trans rfl

@[simp] theorem updated_owner (now : ℤ) (e : ScheduleEntry) (v : Validated) :
    (e.updated now v).owner = v.owner.getD e.owner :=
  (congrArg ScheduleEntry.owner (updated_frame now e v)).trans rfl

@[simp] theorem updated_nextTaskId (now : ℤ) (e : ScheduleEntry) (v : Validated) :
    (e.updated now v).nextTaskId = v.nextTaskId.getD e.nextTaskId :=
  (congrArg nextTaskId (updated_frame now e v)).trans rfl

@[simp] theorem updated_name (now : ℤ) (e : ScheduleEntry) (v : Validated) :
    (e.updated now v).name = v.name.getD e.name :=
  (congrArg name (updated_frame now e v)).trans rfl

end ScheduleEntry

/-- The answers of the view. -/
inductive Reply where
  | ok (e : ScheduleEntry)
  | noContent
  | badRequest (err : ValidationError)
  | notFound
  | serverError (err : Exc)
  deriving Repr, DecidableEq

/-- The answer to a request, the tables after it, and the row it has written. -/
structure Served where
  reply : Reply
  db : Database
  row : Option ScheduleEntry := none
  deriving Repr, DecidableEq

/-- A request with a body. -/
inductive EntryRequest where
  | post (owner : String) (data : Obj)
  | put (name : String) (data : Obj)
  | patch (name : String) (data : Obj)

def EntryRequest.data : EntryRequest → Obj
  | .post _ data => data
  | .put _ data => data
  | .patch _ data => data

/-- The request was valid, and its write was not refused. -/
def Served.accepted (r : Served) : Bool :=
  match r.reply with
  | .ok _ => true
  | .noContent => true
  | _ => r.row.isSome

namespace ScheduleEntryViewSet

open ScheduleEntrySerializer

/-- `Response(serializer.data)`. -/
def render (e : ScheduleEntry) : Reply :=
  if e.serializable then .ok e else .serverError .unserializable

/-- The write of an instance, which has the tables `db'` afterwards, and the
response. -/
def store (db db' : Database) (e : ScheduleEntry) : Served :=
  if e.fits then ⟨render e, db', some e⟩ else ⟨.serverError .databaseError, db, none⟩

def create (D : Conversions) (cfg : Settings) (db : Database) (now : ℤ) (owner : String)
    (data : Obj) : Served :=
  match isValid D cfg db .create data with
  | .error err => ⟨.badRequest err, db, none⟩
  | .ok v =>
    if v.validateOnly then ⟨.noContent, db, none⟩
    else
      let e := ScheduleEntry.construct now owner v
      if cfg.loads e then store db { db with schedule := db.schedule ++ [e] } e
      else ⟨.serverError .validationError, db, none⟩

/-- `update` and `partial_update`. A row that does not load is not found either:
`get_object` takes the `ValidationError` of the constructor for a bad key. -/
def update (D : Conversions) (cfg : Settings) (db : Database) (now : ℤ) (a : ViewAction)
    (name : String) (data : Obj) : Served :=
  match Scheduler.loadEntry cfg db name with
  | .error _ => ⟨.notFound, db, none⟩
  | .ok e =>
    match isValid D cfg db a data with
    | .error err => ⟨.badRequest err, db, none⟩
    | .ok v =>
      if v.validateOnly then ⟨render e, db, none⟩
      else store db (db.saveWhole (e.updated now v)) (e.updated now v)

def serve (D : Conversions) (cfg : Settings) (db : Database) (now : ℤ) : EntryRequest → Served
  | .post owner data => create D cfg db now owner data
  | .put name data => update D cfg db now .update name data
  | .patch name data => update D cfg db now .partialUpdate name data

/-- An accepted request that is served at a given time. Other requests are no steps. -/
def accept (D : Conversions) (cfg : Settings) (db : Database) (l : ℤ × EntryRequest) :
    Option Database :=
  if (serve D cfg db l.1 l.2).accepted then some (serve D cfg db l.1 l.2).db else none

/-- GET of one entry. -/
def retrieve (cfg : Settings) (db : Database) (name : String) : Reply :=
  match Scheduler.loadEntry cfg db name with
  | .error _ => .notFound
  | .ok e => render e

/-- How a request comes to write the row `e`, and the tables to be `db'`. -/
inductive Writes (D : Conversions) (cfg : Settings) (db : Database) (now : ℤ) :
    EntryRequest → Database → ScheduleEntry → Prop
  | post (owner : String) (data : Obj) (v : Validated)
      (hvalid : isValid D cfg db .create data = .ok v) (hwrite : v.validateOnly = false)
      (hloads : cfg.loads (.construct now owner v) = true)
      (hfits : (ScheduleEntry.construct now owner v).fits = true) :
    Writes D cfg db now (.post owner data)
      { db with schedule := db.schedule ++ [.construct now owner v] } (.construct now owner v)
  | put (name : String) (data : Obj) (e : ScheduleEntry) (v : Validated)
      (hload : Scheduler.loadEntry cfg db name = .ok e)
      (hvalid : isValid D cfg db .update data = .ok v) (hwrite : v.validateOnly = false)
      (hfits : (e.updated now v).fits = true) :
    Writes D cfg db now (.put name data) (db.saveWhole (e.updated now v)) (e.updated now v)
  | patch (name : String) (data : Obj) (e : ScheduleEntry) (v : Validated)
      (hload : Scheduler.loadEntry cfg db name = .ok e)
      (hvalid : isValid D cfg db .partialUpdate data = .ok v) (hwrite : v.validateOnly = false)
      (hfits : (e.updated now v).fits = true) :
    Writes D cfg db now (.patch name data) (db.saveWhole (e.updated now v)) (e.updated now v)

variable {D : Conversions} {cfg : Settings} {db db' : Database} {now : ℤ} {a : ViewAction}
  {name : String} {data : Obj} {req : EntryRequest} {e row : ScheduleEntry} {v : Validated}

theorem fits_of_serializable (h : e.serializable = true) : e.fits = true := by
  have hcolumn : ∀ n, representable n = true → fitsColumn n = true := by
    intro n hn
    rw [representable_iff] at hn
    simp only [fitsColumn, Bool.and_eq_true, decide_eq_true_eq]
    omega
  unfold ScheduleEntry.serializable at h
  simp only [Bool.and_eq_true] at h
  obtain ⟨⟨hstart, hstop⟩, hnext⟩ := h
  unfold ScheduleEntry.fits
  rw [hcolumn _ hstart, hcolumn _ hnext]
  cases hs : e.stop with
  | none => rfl
  | some stop =>
    rw [hs] at hstop
    simp [hcolumn stop hstop]

theorem store_row (h : (store db db' e).row = some row) :
    e.fits = true ∧ row = e ∧ (store db db' e).db = db' := by
  unfold store at h ⊢
  split_ifs at h ⊢ with hfits
  exact ⟨hfits, (Option.some.inj h).symm, rfl⟩

/-- A POST is refused, only validated, or constructs an entry and stores it. -/
theorem create_cases (D : Conversions) (cfg : Settings) (db : Database) (now : ℤ) (owner : String)
    (data : Obj) :
    ((create D cfg db now owner data).accepted = false ∧
      (create D cfg db now owner data).row = none) ∨
    ∃ v, isValid D cfg db .create data = .ok v ∧
      (v.validateOnly = true ∧ create D cfg db now owner data = ⟨.noContent, db, none⟩ ∨
        v.validateOnly = false ∧ cfg.loads (.construct now owner v) = true ∧
          create D cfg db now owner data =
            store db { db with schedule := db.schedule ++ [.construct now owner v] }
              (.construct now owner v)) := by
  unfold create
  cases hvalid : isValid D cfg db .create data with
  | error err => exact .inl ⟨rfl, rfl⟩
  | ok v =>
    dsimp only
    split_ifs with honly hloads
    · exact .inr ⟨v, rfl, .inl ⟨honly, rfl⟩⟩
    · exact .inr ⟨v, rfl, .inr ⟨Bool.eq_false_iff.mpr honly, hloads, rfl⟩⟩
    · exact .inl ⟨rfl, rfl⟩

/-- An update is refused, only validated, or written with the row it has read. -/
theorem update_cases (D : Conversions) (cfg : Settings) (db : Database) (now : ℤ) (a : ViewAction)
    (name : String) (data : Obj) :
    ((update D cfg db now a name data).accepted = false ∧
      (update D cfg db now a name data).row = none) ∨
    ∃ e v, Scheduler.loadEntry cfg db name = .ok e ∧ isValid D cfg db a data = .ok v ∧
      (v.validateOnly = true ∧ update D cfg db now a name data = ⟨render e, db, none⟩ ∨
        v.validateOnly = false ∧ update D cfg db now a name data =
          store db (db.saveWhole (e.updated now v)) (e.updated now v)) := by
  unfold update
  cases hload : Scheduler.loadEntry cfg db name with
  | error err => exact .inl ⟨rfl, rfl⟩
  | ok e =>
    cases hvalid : isValid D cfg db a data with
    | error err => exact .inl ⟨rfl, rfl⟩
    | ok v =>
      dsimp only
      split_ifs with honly
      · exact .inr ⟨e, v, rfl, rfl, .inl ⟨honly, rfl⟩⟩
      · exact .inr ⟨e, v, rfl, rfl, .inr ⟨Bool.eq_false_iff.mpr honly, rfl⟩⟩

theorem create_row {owner : String} (h : (create D cfg db now owner data).row = some row) :
    Writes D cfg db now (.post owner data) (create D cfg db now owner data).db row := by
  obtain ⟨-, hnone⟩ | ⟨v, hvalid, ⟨-, honly⟩ | ⟨hwrite, hloads, hstore⟩⟩ :=
    create_cases D cfg db now owner data
  · simp [hnone] at h
  · simp [honly] at h
  · rw [hstore] at h ⊢
    obtain ⟨hfits, rfl, hdb⟩ := store_row h
    rw [hdb]
    exact .post owner data v hvalid hwrite hloads hfits

theorem update_row (h : (update D cfg db now a name data).row = some row) :
    ∃ e v, Scheduler.loadEntry cfg db name = .ok e ∧ isValid D cfg db a data = .ok v ∧
      v.validateOnly = false ∧ (e.updated now v).fits = true ∧ row = e.updated now v ∧
      (update D cfg db now a name data).db = db.saveWhole (e.updated now v) := by
  obtain ⟨-, hnone⟩ | ⟨e, v, hload, hvalid, ⟨-, honly⟩ | ⟨hwrite, hstore⟩⟩ :=
    update_cases D cfg db now a name data
  · simp [hnone] at h
  · simp [honly] at h
  · rw [hstore] at h ⊢
    obtain ⟨hfits, rfl, hdb⟩ := store_row h
    exact ⟨e, v, hload, hvalid, hwrite, hfits, rfl, hdb⟩

/-- A request that has written a row was validated and did what `Writes` says. -/
theorem serve_row (h : (serve D cfg db now req).row = some row) :
    Writes D cfg db now req (serve D cfg db now req).db row := by
  cases req with
  | post owner data =>
    unfold serve at h ⊢
    exact create_row h
  | put name data =>
    unfold serve at h ⊢
    obtain ⟨e, v, hload, hvalid, hwrite, hfits, rfl, hdb⟩ := update_row h
    rw [hdb]
    exact .put name data e v hload hvalid hwrite hfits
  | patch name data =>
    unfold serve at h ⊢
    obtain ⟨e, v, hload, hvalid, hwrite, hfits, rfl, hdb⟩ := update_row h
    rw [hdb]
    exact .patch name data e v hload hvalid hwrite hfits

/-- A request writes the row of one name, and leaves the others. -/
theorem Writes.getEntry (h : Writes D cfg db now req db' row) (name : String) :
    db'.getEntry name = if name = row.name then some row else db.getEntry name := by
  split_ifs with hname
  · rw [hname]
    cases h with
    | post owner data v hvalid =>
      apply Database.getEntry_append_self
      obtain ⟨name, hname, hnew⟩ := (accepts_of_isValid hvalid).nameNew rfl
      rw [ScheduleEntry.construct_name, hname]
      exact hnew
    | put name data e v => exact Database.getEntry_saveWhole_self db _
    | patch name data e v => exact Database.getEntry_saveWhole_self db _
  · cases h with
    | post => exact Database.getEntry_append_ne hname
    | put => exact Database.getEntry_saveWhole_ne hname
    | patch => exact Database.getEntry_saveWhole_ne hname

/-- The row that a request has written is the one that is read back. -/
theorem Writes.stored (h : Writes D cfg db now req db' row) : db'.getEntry row.name = some row := by
  rw [h.getEntry, if_pos rfl]

theorem store_accepted (h : (store db db' e).accepted = true) : (store db db' e).row = some e := by
  unfold store render at h ⊢
  split_ifs at h ⊢ <;> simp_all [Served.accepted]

theorem create_accepted {owner : String}
    (h : (create D cfg db now owner data).accepted = true) :
    (∃ row, (create D cfg db now owner data).row = some row) ∨
      (create D cfg db now owner data).db = db ∧ (validateOnly D).sent data = some true := by
  obtain ⟨hrefused, -⟩ | ⟨v, hvalid, ⟨htrue, honly⟩ | ⟨-, -, hstore⟩⟩ :=
    create_cases D cfg db now owner data
  · simp [hrefused] at h
  · rw [honly]
    exact .inr ⟨rfl, (accepts_of_isValid hvalid).validateOnly.mp htrue⟩
  · rw [hstore] at h ⊢
    exact .inl ⟨_, store_accepted h⟩

theorem update_accepted (h : (update D cfg db now a name data).accepted = true) :
    (∃ row, (update D cfg db now a name data).row = some row) ∨
      (update D cfg db now a name data).db = db ∧ (validateOnly D).sent data = some true := by
  obtain ⟨hrefused, -⟩ | ⟨e, v, -, hvalid, ⟨htrue, honly⟩ | ⟨-, hstore⟩⟩ :=
    update_cases D cfg db now a name data
  · simp [hrefused] at h
  · rw [honly]
    exact .inr ⟨rfl, (accepts_of_isValid hvalid).validateOnly.mp htrue⟩
  · rw [hstore] at h ⊢
    exact .inl ⟨_, store_accepted h⟩

theorem serve_accepted (h : (serve D cfg db now req).accepted = true) :
    (∃ row, (serve D cfg db now req).row = some row) ∨
      (serve D cfg db now req).db = db ∧ (validateOnly D).sent req.data = some true := by
  cases req with
  | post owner data =>
    simp only [serve, EntryRequest.data] at h ⊢
    exact create_accepted h
  | put name data =>
    simp only [serve, EntryRequest.data] at h ⊢
    exact update_accepted h
  | patch name data =>
    simp only [serve, EntryRequest.data] at h ⊢
    exact update_accepted h

/-- An accepted request writes a row, or is one that only validates. -/
theorem accept_cases {l : ℤ × EntryRequest} (h : accept D cfg db l = some db') :
    (∃ row, Writes D cfg db l.1 l.2 db' row) ∨
      db' = db ∧ (validateOnly D).sent l.2.data = some true := by
  unfold accept at h
  split_ifs at h with haccepted
  obtain rfl := Option.some.inj h
  obtain ⟨row, hrow⟩ | honly := serve_accepted haccepted
  · exact .inl ⟨row, serve_row hrow⟩
  · exact .inr honly

/-- A POST is a step of the system with the stop that the constructor has found. -/
theorem post_of_writes {s : Sys} {owner : String}
    (h : Writes D cfg s.db now (.post owner data) db' row) :
    ∃ body, Scheduler.step cfg s (.post row.name owner body now) = some { s with db := db' } := by
  cases h with
  | post owner data v hvalid hwrite hloads hfits =>
    have haccepts := accepts_of_isValid hvalid
    obtain ⟨name, hname, hnew⟩ := haccepts.nameNew rfl
    obtain ⟨action, haction⟩ := Option.isSome_iff_exists.mp (haccepts.actionGiven (by decide))
    have hloaded := haccepts.actionLoaded action haction
    obtain ⟨body, hbody, hrow⟩ : ∃ body : Body, body.action = some action ∧
        ScheduleEntry.ofBody name owner action now body = .construct now owner v := by
      refine ⟨{ v.toBody with stop := some (ScheduleEntry.construct now owner v).stop }, haction, ?_⟩
      have hframe := ScheduleEntry.construct_frame now owner v
      rw [hname, haction] at hframe
      exact hframe.symm
    refine ⟨body, ?_⟩
    simp only [Scheduler.step, ScheduleEntry.construct_name, hname, Option.getD_some, hbody, hnew,
      hloaded, Option.isNone_none, and_self, if_true, hrow]

/-- An update sets no more than the columns of its body. -/
theorem setAttributes_eq (h : Accepts D cfg db a data v) (ha : a.updating = true) (e : ScheduleEntry) :
    e.setAttributes v = e.assign v.toBody := by
  obtain ⟨htime, hid, -, howner⟩ := h.readOnly
  simp [ScheduleEntry.setAttributes, h.name ha, htime, hid, howner, ScheduleEntry.assign]

/-- An update is read and written as the system does it, with nothing between. -/
theorem update_of_valid {s : Sys} (hload : Scheduler.loadEntry cfg s.db name = .ok e)
    (hvalid : isValid D cfg s.db a data = .ok v) (ha : a.updating = true) :
    Runs.exec (Scheduler.step cfg) s [.read name v.toBody, .write s.requests.length now] =
      some { s with db := s.db.saveWhole (e.updated now v) } := by
  have haccepts := accepts_of_isValid hvalid
  have hactions : v.action.all cfg.actions.contains = true := by
    cases haction : v.action with
    | none => rfl
    | some action => exact haccepts.actionLoaded action haction
  have hread : Scheduler.step cfg s (.read name v.toBody) =
      some { s with requests := s.requests ++ [⟨e, v.toBody⟩] } := by
    simp [Scheduler.step, hload, hactions]
  rw [Runs.exec_cons]
  refine ⟨_, hread, ?_⟩
  simp [Runs.exec, Scheduler.step, Request.saved, ScheduleEntry.updated,
    setAttributes_eq haccepts ha, List.eraseIdx_append_of_length_le]

/-- The text of a JSON string. -/
def stringOf : Json → Option String
  | .str s => some s
  | _ => none

/-- A hundred seconds after the epoch. -/
def atHundred : Datetime := ⟨100000000, by decide, by decide⟩

/-- Conversions that know this datetime and one before it, for runs on fixed inputs. -/
def plainConversions : Conversions where
  datetime j :=
    if stringOf j = some "1970-01-01T00:01:40Z" then some atHundred
    else if stringOf j = some "1970-01-01T00:01:10Z" then
      some ⟨70000000, by decide, by decide⟩
    else none
  isoDatetime _ := none
  integer
    | .int n => some n
    | _ => none
  boolean
    | .bool b => some b
    | _ => none
  slug := stringOf
  url := stringOf
  user _ := none
  text j := (stringOf j).getD ""

end ScheduleEntryViewSet

end ScosSensor
