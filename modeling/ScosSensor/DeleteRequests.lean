import ScosSensor.SchedulerThread
import ScosSensor.UrlRoutes

/-!
# DELETE requests

The paths of the schedule, of the users and of the results, and what a DELETE
does at each of them. Deleting an entry, or a user with all of its entries, is
refused while there are results of these entries; the answer then lists the URL
of each result, rebuilt from the arguments that the view of the refused request
was called with.
-/
namespace ScosSensor

open Routes

/-- A row of the user table. Entries name the account that owns them. -/
structure Account where
  pk : ℕ
  username : String
  deriving Repr, DecidableEq

/-- The tables behind the API. -/
structure Server where
  db : Database
  users : List Account
  deriving Repr, DecidableEq

/-- The views, by the names of their URL patterns. -/
inductive View where
  | scheduleList
  | scheduleDetail
  | userList
  | userDetail
  | taskRoot
  | upcomingTasks
  | taskResultsOverview
  | taskResultList
  | taskResultListArchive
  | taskResultDetail
  | taskResultArchive
  deriving Repr, DecidableEq

/-- `^api/(?P<version>v[0-9]+)/` before the path of a pattern. -/
def api (parts : List Part) : List Part :=
  [.literal "", .literal "api", .param "version" .version] ++ parts

/-- The pattern of `task-result-detail`. -/
def taskResultDetail : List Part :=
  api [.literal "tasks", .literal "completed", .param "schedule_entry_name" .slug,
    .param "task_id" .int, .literal ""]

/-- The patterns before that of `task-result-detail`, in their order. -/
def earlierPatterns : List (View × List Part) :=
  [(.scheduleList, api [.literal "schedule", .literal ""]),
    (.scheduleDetail, api [.literal "schedule", .param "pk" .key, .literal ""]),
    (.userList, api [.literal "users", .literal ""]),
    (.userDetail, api [.literal "users", .literal "me", .literal ""]),
    (.userDetail, api [.literal "users", .param "pk" .int, .literal ""]),
    (.taskRoot, api [.literal "tasks", .literal ""]),
    (.upcomingTasks, api [.literal "tasks", .literal "upcoming", .literal ""]),
    (.taskResultsOverview, api [.literal "tasks", .literal "completed", .literal ""]),
    (.taskResultList, api [.literal "tasks", .literal "completed",
      .param "schedule_entry_name" .slug, .literal ""]),
    (.taskResultListArchive, api [.literal "tasks", .literal "completed",
      .param "schedule_entry_name" .slug, .literal "archive", .literal ""])]

/-- `urlpatterns`, as far as the requests are about them. -/
def urlpatterns : List (View × List Part) :=
  earlierPatterns ++ (.taskResultDetail, taskResultDetail) ::
    [(.taskResultArchive, api [.literal "tasks", .literal "completed",
      .param "schedule_entry_name" .slug, .param "task_id" .int, .literal "archive"])]

inductive Response where
  | noContent
  | notFound
  | methodNotAllowed
  | serverError
  | protectedError (detail : String) (protectedObjects : List String)
  deriving Repr, DecidableEq

/-- `{!r}` of a text without quotes and backslashes, as slugs are, or of an integer. -/
def Routes.Value.repr : Value → String
  | .text t => "'" ++ t ++ "'"
  | .number n => toString n

/-- The arguments of the view of a result, with `V1`. -/
def urlKwargs (name : Value) (taskId : ℕ) : Kwargs :=
  [("schedule_entry_name", name), ("task_id", .number taskId), ("version", .text "v1")]

/-- The URL of a result. -/
def resultUrl (name : Value) (taskId : ℕ) : Option String :=
  reverse taskResultDetail (urlKwargs name taskId)

/-- `handle_protected_error`. A `KeyError` or a `NoReverseMatch` in it is a server error. -/
def handleProtectedError (kwargs : Kwargs) (protectedObjects : List ResultRow) : Response :=
  match (kwargs.lookup "name").or (kwargs.lookup "pk") with
  | none => .serverError
  | some entryName =>
    match protectedObjects.mapM fun r => resultUrl entryName r.taskId with
    | none => .serverError
    | some urls =>
      .protectedError ("Cannot delete schedule entry " ++ entryName.repr ++
        " because results on disk reference it. Delete the protected results first.") urls

namespace Server

/-- Deleting entries. They are protected by their results, which the `ProtectedError`
carries. -/
def deleteEntries (s : Server) (names : List String) : Except (List ResultRow) Server :=
  let protectedObjects := s.db.results.filter fun r => names.contains r.scheduleEntry
  if protectedObjects = [] then
    .ok { s with db := { s.db with schedule := s.db.schedule.filter fun e => !names.contains e.name } }
  else .error protectedObjects

/-- `perform_destroy` of a row that takes the entries `names` with it, where `after`
deletes the row itself. -/
def performDestroy (s : Server) (kwargs : Kwargs) (names : List String)
    (after : Server → Server) : Response × Server :=
  match s.deleteEntries names with
  | .error protectedObjects => (handleProtectedError kwargs protectedObjects, s)
  | .ok s' => (.noContent, after s')

/-- DELETE of an entry. `get_object` answers a row that does not load like a missing one. -/
def destroyEntry (cfg : Settings) (s : Server) (kwargs : Kwargs) : Response × Server :=
  match kwargs.lookup "pk" with
  | some (.text name) =>
    match Scheduler.loadEntry cfg s.db name with
    | .ok e => s.performDestroy kwargs [e.name] id
    | .error _ => (.notFound, s)
  | _ => (.serverError, s)

/-- The entries that go with an account. -/
def entriesOf (s : Server) (user : Account) : List ScheduleEntry :=
  s.db.schedule.filter fun e => e.owner = user.username

/-- DELETE of an account, with its entries, which are loaded for it. `users/me/` gives the
view no key, which `get_object` asserts. -/
def destroyUser (cfg : Settings) (s : Server) (kwargs : Kwargs) : Response × Server :=
  match kwargs.lookup "pk" with
  | some (.number pk) =>
    match Table.get? Account.pk pk s.users with
    | none => (.notFound, s)
    | some user =>
      if (s.entriesOf user).all cfg.loads then
        s.performDestroy kwargs ((s.entriesOf user).map ScheduleEntry.name) fun s' =>
          { s' with users := Table.remove Account.pk pk s'.users }
      else (.serverError, s)
  | _ => (.serverError, s)

/-- The entry and the task id in the arguments of a view of one result. -/
def resultKey (kwargs : Kwargs) : Option (String × ℕ) :=
  match kwargs.lookup "schedule_entry_name", kwargs.lookup "task_id" with
  | some (.text name), some (.number taskId) => some (name, taskId)
  | _, _ => none

/-- `get_object` of a result. -/
def getResult (s : Server) (key : String × ℕ) : Option ResultRow :=
  Table.get? (fun r => r.key) key s.db.results

/-- DELETE of a result. -/
def destroyResult (s : Server) (kwargs : Kwargs) : Response × Server :=
  match resultKey kwargs with
  | none => (.serverError, s)
  | some key =>
    match s.getResult key with
    | none => (.notFound, s)
    | some r => (.noContent, { s with db := s.db.deleteResult r.id })

/-- `destroy_all`. -/
def destroyAll (s : Server) (kwargs : Kwargs) : Response × Server :=
  match kwargs.lookup "schedule_entry_name" with
  | some (.text name) =>
    if s.db.resultsOf name = [] then (.notFound, s)
    else (.noContent,
      { s with db := (s.db.resultsOf name).foldl (fun db r => db.deleteResult r.id) s.db })
  | _ => (.serverError, s)

/-- A DELETE request. -/
def delete (cfg : Settings) (s : Server) (path : String) : Response × Server :=
  match resolve urlpatterns path with
  | none => (.notFound, s)
  | some (view, kwargs) =>
    if kwargs.lookup "version" ≠ some (.text "v1") then (.notFound, s)
    else
      match view with
      | .scheduleDetail => s.destroyEntry cfg kwargs
      | .userDetail => s.destroyUser cfg kwargs
      | .taskResultList => s.destroyAll kwargs
      | .taskResultDetail => s.destroyResult kwargs
      | _ => (.methodNotAllowed, s)

end Server

end ScosSensor
