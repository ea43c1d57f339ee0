import ScosSensor.Archives
import ScosSensor.DeleteRequests
import ScosSensor.EntryViews
import ScosSensor.RouteTables
import Mathlib.Data.List.Sort

/-!
# GET requests

The API names its objects by URLs, which are all made by reversing a view name. A GET
resolves the path again and renders what its view looks up: an entry, an account with
its token, a result, a page of the results of an entry, or the archive of recordings
that are read and decrypted for it. Whatever raises on the way is a server error.
-/
namespace ScosSensor

open Routes

/-- The views of the API: those that DELETE requests reach too, and the others. -/
inductive Endpoint where
  | apiRoot
  | capabilities
  | status
  | apiSchema
  | view (v : View)
  deriving Repr, DecidableEq

/-- `api_urlpatterns` below the prefix. -/
def apiUrlpatterns : List (Endpoint × List Part) :=
  [(.apiRoot, api [.literal ""]),
    (.capabilities, api [.literal "capabilities", .literal ""]),
    (.view .scheduleList, api [.literal "schedule", .literal ""]),
    (.view .scheduleDetail, api [.literal "schedule", .param "pk" .key, .literal ""]),
    (.status, api [.literal "status"]),
    (.view .userList, api [.literal "users", .literal ""]),
    (.view .userDetail, api [.literal "users", .literal "me", .literal ""]),
    (.view .userDetail, api [.literal "users", .param "pk" .int, .literal ""]),
    (.view .taskRoot, api [.literal "tasks", .literal ""]),
    (.view .upcomingTasks, api [.literal "tasks", .literal "upcoming", .literal ""]),
    (.view .taskResultsOverview, api [.literal "tasks", .literal "completed", .literal ""]),
    (.view .taskResultList, api [.literal "tasks", .literal "completed",
      .param "schedule_entry_name" .slug, .literal ""]),
    (.view .taskResultListArchive, api [.literal "tasks", .literal "completed",
      .param "schedule_entry_name" .slug, .literal "archive", .literal ""]),
    (.view .taskResultDetail, taskResultDetail),
    (.view .taskResultArchive, api [.literal "tasks", .literal "completed",
      .param "schedule_entry_name" .slug, .param "task_id" .int, .literal "archive"]),
    (.apiSchema, api [.literal "schema", .literal ""])]

/-- `kws.update(V1)`. -/
def versioned (kwargs : Kwargs) : Kwargs := kwargs ++ [("version", .text "v1")]

/-- `reverse` of a view name with keyword arguments and the version. A pattern takes
part when its parameters are those that are given. -/
def urlFor (e : Endpoint) (kwargs : Kwargs) : Option String :=
  apiUrlpatterns.findSome? fun route =>
    if route.1 = e ∧ ((versioned kwargs).map Prod.fst).Perm (params route.2) then
      reverse route.2 (versioned kwargs)
    else none

/-- The arguments of the views of an entry, of its results, of a result and of an account. -/
def pkKwargs (pk : Value) : Kwargs := [("pk", pk)]

def nameKwargs (name : String) : Kwargs := [("schedule_entry_name", .text name)]

def resultKwargs (name : String) (taskId : ℕ) : Kwargs :=
  [("schedule_entry_name", .text name), ("task_id", .number taskId)]

/-- What the API answers with beside the settings of the scheduler: the cipher of the
recordings and `ENCRYPTION_KEY`. -/
structure ApiSettings (Key : Type*) extends Settings where
  fernet : Fernet Key
  encryptionKey : Option Key

/-- `token_auth_enabled`: the default authentication classes without certificates. -/
def ApiSettings.tokenAuthEnabled {Key : Type*} (cfg : ApiSettings Key) : Bool :=
  !cfg.certAuthentication

/-- The tables and the files that a GET answers from. The tokens are given by the
accounts they belong to. -/
structure Site where
  store : DataStore
  users : List Account
  tokens : List ℕ := []
  deriving Repr, DecidableEq

/-- The query of a GET at a list: `limit` and `offset`, without them zero. -/
structure PageQuery where
  limit : ℕ := 0
  offset : ℕ := 0
  deriving Repr, DecidableEq

/-- `PAGE_SIZE`. -/
def pageSize : ℕ := 10

/-- `get_limit`: a limit is positive, else it is the default one. -/
def PageQuery.getLimit (q : PageQuery) : ℕ := if q.limit = 0 then pageSize else q.limit

/-- The answer of `LimitOffsetPagination`, without the link back. -/
structure ResultPage where
  count : ℕ
  next : Option PageQuery
  results : List ResultRow
  deriving Repr, DecidableEq

/-- `paginate_queryset` and `get_next_link`. -/
def PageQuery.paginate (q : PageQuery) (rows : List ResultRow) : ResultPage where
  count := rows.length
  next := if rows.length ≤ q.offset + q.getLimit then none
    else some ⟨q.getLimit, q.offset + q.getLimit⟩
  results := (rows.drop q.offset).take q.getLimit

/-- What a view finds for its answer. -/
inductive Found where
  | entry (e : ScheduleEntry)
  | account (a : Account)
  | results (page : ResultPage)
  | result (r : ResultRow)
  | archive (recordings : List Recording)
  deriving Repr, DecidableEq

/-- The answer to a GET. Of the views that no link of a representation names, it only
says which one is asked. -/
inductive Answer where
  | found (x : Found)
  | notFound
  | serverError
  | elsewhere (e : Endpoint)
  deriving Repr, DecidableEq

/-- The links of a result: its own, that of its entry, and one archive for each recording. -/
structure ResultLinks where
  self : String
  scheduleEntry : String
  data : List String
  deriving Repr, DecidableEq

structure AccountLinks where
  self : String
  scheduleEntries : List String
  deriving Repr, DecidableEq

namespace Site

variable {Key : Type*} (cfg : ApiSettings Key) (s : Site)

/-! ### The querysets, in the order of their tables -/

/-- The results of an entry, by task. -/
def resultsOf (name : String) : List ResultRow :=
  (s.store.results.filter fun r => r.scheduleEntry = name).insertionSort
    fun r r' => r.taskId ≤ r'.taskId

/-- The ordering of the acquisitions: by task, and then by recording. -/
def Precedes (a b : AcquisitionRow) : Prop :=
  (s.store.taskIdOf a).getD 0 < (s.store.taskIdOf b).getD 0 ∨
    s.store.taskIdOf a = s.store.taskIdOf b ∧ a.recordingId ≤ b.recordingId

instance : DecidableRel s.Precedes := fun _ _ => instDecidableOr

/-- `Acquisition.objects.filter(task_result=...)`, for some results. -/
def acquisitionsOf (rows : List ResultRow) : List AcquisitionRow :=
  (s.store.acquisitions.filter fun a => rows.any fun r => r.id = a.taskResult).insertionSort
    s.Precedes

def entriesOf (a : Account) : List ScheduleEntry :=
  s.store.schedule.filter fun e => e.owner = a.username

/-! ### The representations -/

/-- `TaskResultSerializer`, whose links load the entry. -/
def resultLinks (r : ResultRow) : Option ResultLinks := do
  let e ← (Scheduler.loadEntry cfg.toSettings s.store.database r.scheduleEntry).toOption
  let kws := resultKwargs e.name r.taskId
  let self ← urlFor (.view .taskResultDetail) kws
  let scheduleEntry ← urlFor (.view .scheduleDetail) (pkKwargs (.text e.name))
  let data ← (s.acquisitionsOf [r]).mapM fun _ => urlFor (.view .taskResultArchive) kws
  return ⟨self, scheduleEntry, data⟩

/-- `get_auth_token` reads the token of the account, unless tokens are not enabled. -/
def readsToken (a : Account) : Bool := !cfg.tokenAuthEnabled || s.tokens.contains a.pk

/-- `UserDetailsSerializer`, which loads the entries of the account and reads its token. -/
def accountLinks (a : Account) : Option AccountLinks := do
  if (s.entriesOf a).all cfg.loads && s.readsToken cfg a then
    let self ← urlFor (.view .userDetail) (pkKwargs (.number a.pk))
    let scheduleEntries ← (s.entriesOf a).mapM fun e =>
      urlFor (.view .scheduleDetail) (pkKwargs (.text e.name))
    return ⟨self, scheduleEntries⟩
  else none

/-! ### The views -/

/-- `retrieve` of an entry. -/
def retrieveEntry (kwargs : Kwargs) : Answer :=
  match kwargs.lookup "pk" with
  | some (.text name) =>
    match ScheduleEntryViewSet.retrieve cfg.toSettings s.store.database name with
    | .ok e => .found (.entry e)
    | .notFound => .notFound
    | _ => .serverError
  | _ => .serverError

/-- `users/me/` gives no key, which `get_object` asserts. -/
def retrieveUser (kwargs : Kwargs) : Answer :=
  match kwargs.lookup "pk" with
  | some (.number pk) =>
    match Table.get? Account.pk pk s.users with
    | none => .notFound
    | some a => if (s.accountLinks cfg a).isSome then .found (.account a) else .serverError
  | _ => .serverError

/-- `list`: the rows of the page are rendered. -/
def listResults (q : PageQuery) (kwargs : Kwargs) : Answer :=
  match kwargs.lookup "schedule_entry_name" with
  | some (.text name) =>
    if s.resultsOf name = [] then .notFound
    else
      let page := q.paginate (s.resultsOf name)
      if page.results.all fun r => (s.resultLinks cfg r).isSome then .found (.results page)
      else .serverError
  | _ => .serverError

/-- The archive of some acquisitions, when there are any. -/
def archive (entryName : String) (acquisitions : List AcquisitionRow) : Answer :=
  if acquisitions = [] then .notFound
  else
    match s.store.buildSigmfArchive cfg.fernet cfg.encryptionKey entryName acquisitions with
    | none => .serverError
    | some recordings => .found (.archive recordings)

def archiveResults (kwargs : Kwargs) : Answer :=
  match kwargs.lookup "schedule_entry_name" with
  | some (.text name) =>
    if s.resultsOf name = [] then .notFound
    else s.archive cfg name (s.acquisitionsOf (s.resultsOf name))
  | _ => .serverError

def getResult (kwargs : Kwargs) : Option ResultRow :=
  (Server.resultKey kwargs).bind fun key =>
    Table.get? (fun r : ResultRow => r.key) key s.store.results

def retrieveResult (kwargs : Kwargs) : Answer :=
  match s.getResult kwargs with
  | none => .notFound
  | some r => if (s.resultLinks cfg r).isSome then .found (.result r) else .serverError

def archiveResult (kwargs : Kwargs) : Answer :=
  match s.getResult kwargs with
  | none => .notFound
  | some r => s.archive cfg r.scheduleEntry (s.acquisitionsOf [r])

/-- A GET request of an administrator. Only lists have pages. -/
def get (path : String) (q : PageQuery := {}) : Answer :=
  match resolve apiUrlpatterns path with
  | none => .notFound
  | some (e, kwargs) =>
    if kwargs.lookup "version" ≠ some (.text "v1") then .notFound
    else
      match e with
      | .view .scheduleDetail => s.retrieveEntry cfg kwargs
      | .view .userDetail => s.retrieveUser cfg kwargs
      | .view .taskResultList => s.listResults cfg q kwargs
      | .view .taskResultListArchive => s.archiveResults cfg kwargs
      | .view .taskResultDetail => s.retrieveResult cfg kwargs
      | .view .taskResultArchive => s.archiveResult cfg kwargs
      | e => .elsewhere e

end Site

end ScosSensor
