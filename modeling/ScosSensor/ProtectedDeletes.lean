import ScosSensor.DeleteRequests
import ScosSensor.EntryRows

/-!
# Refused deletes

The answer to a refused DELETE lists one URL for each result that protects an
entry, and every URL names the entry of the refused request. A reversed URL is
resolved to the view of the result and to what it was made from, so the answer
to the DELETE of an entry leads to its results. The request for a user names no
entry: its key takes the place of the name in every URL.
-/
namespace ScosSensor

open Routes

variable {cfg : Settings} {s s' : Server} {path url detail : String} {urls : List String}
  {name : Value} {taskId : ℕ} {kwargs : Kwargs} {names : List String} {after : Server → Server}

/-- `str(value)` as an entry name. -/
def Routes.Value.str (v : Value) : String := String.ofList v.chars

/-! ### The URLs of results -/

theorem slash_notMem_taskResultDetail :
    ∀ text, .literal text ∈ taskResultDetail → '/' ∉ text.toList := by
  intro text htext
  simp only [taskResultDetail, api, List.cons_append, List.nil_append, List.mem_cons,
    Part.literal.injEq, reduceCtorEq, false_or, or_false, List.not_mem_nil] at htext
  rcases htext with rfl | rfl | rfl | rfl | rfl <;> decide

@[simp] theorem lookup_urlKwargs (name : Value) (taskId : ℕ) :
    (urlKwargs name taskId).lookup "version" = some (.text "v1") ∧
      (urlKwargs name taskId).lookup "schedule_entry_name" = some name ∧
      (urlKwargs name taskId).lookup "task_id" = some (.number taskId) := ⟨rfl, rfl, rfl⟩

theorem splitOn_resultUrl (h : resultUrl name taskId = some url) :
    url.toList.splitOn '/' = [[], "api".toList, "v1".toList, "tasks".toList, "completed".toList,
      name.chars, (Value.number taskId).chars, []] := by
  have hfill := splitOn_reverse slash_notMem_taskResultDetail (by decide) h
  have hversion : Converter.version.accepts (Value.text "v1").chars = true := by decide
  simp only [taskResultDetail, api, List.cons_append, List.nil_append, fillParts,
    lookup_urlKwargs, Option.bind_eq_bind, Option.bind_some, hversion, accepts_int_chars, if_true,
    Option.map_some] at hfill
  split_ifs at hfill
  · exact (Option.some.inj hfill).symm
  · cases hfill

/-- The URL of a result leads back to its view, with the entry name and the task id. -/
theorem resolve_resultUrl (h : resultUrl name taskId = some url) :
    resolve urlpatterns url = some (.taskResultDetail, [("version", .text "v1"),
      ("schedule_entry_name", .text name.str), ("task_id", .number taskId)]) := by
  have harchive : (Value.number taskId).chars ≠ "archive".toList := by
    intro heq
    have hdigits := accepts_int_chars taskId
    rw [heq] at hdigits
    revert hdigits
    decide
  have hbefore : ∀ route ∈ earlierPatterns, matchParts route.2 (url.toList.splitOn '/') = none := by
    rw [splitOn_resultUrl h]
    intro route hroute
    simp only [earlierPatterns, List.mem_cons, List.not_mem_nil, or_false] at hroute
    rcases hroute with rfl | rfl | rfl | rfl | rfl | rfl | rfl | rfl | rfl | rfl
    -- only the archive of an entry has as many segments
    case inr.inr.inr.inr.inr.inr.inr.inr.inr =>
      rw [Option.eq_none_iff_forall_ne_some]
      intro kwargs hmatch
      have hliteral := (matches_of_matchParts hmatch).segment (i := 6) rfl
      exact harchive (Option.some.inj hliteral)
    all_goals exact matchParts_eq_none_of_length (by simp [api])
  rw [urlpatterns, resolve_reverse slash_notMem_taskResultDetail (by decide) h hbefore]
  simp only [taskResultDetail, api, List.cons_append, List.nil_append, received, lookup_urlKwargs,
    Option.elim_some, toPython_int_chars]
  rfl

theorem resultUrl_inj {other : ℕ} (h : resultUrl name taskId = some url)
    (h' : resultUrl name other = some url) : taskId = other := by
  have heq := (resolve_resultUrl h).symm.trans (resolve_resultUrl h')
  simpa using heq

namespace Server

/-! ### Deleting the results at the URLs -/

/-- The result that a URL addresses. -/
def addressed (s : Server) (url : String) : Option ResultRow :=
  match resolve urlpatterns url with
  | some (.taskResultDetail, kwargs) => (resultKey kwargs).bind s.getResult
  | _ => none

/-- A DELETE at one URL after the other. -/
def deleteAll (cfg : Settings) (s : Server) (urls : List String) : Server :=
  urls.foldl (fun s url => (s.delete cfg url).2) s

theorem addressed_resultUrl (s : Server) (h : resultUrl name taskId = some url) :
    s.addressed url = s.getResult (name.str, taskId) := by
  simp only [addressed, resolve_resultUrl h]
  rfl

theorem getResult_of_mem {r : ResultRow} (hdb : s.db.Integrity) (hr : r ∈ s.db.results) :
    s.getResult r.key = some r := Table.get?_of_mem hdb.keys hr

theorem key_of_getResult {key : String × ℕ} {r : ResultRow} (h : s.getResult key = some r) :
    r.key = key := by
  unfold getResult Table.get? at h
  simpa using List.find?_some h

theorem delete_resultUrl (cfg : Settings) (s : Server) (h : resultUrl name taskId = some url) :
    s.delete cfg url = match s.getResult (name.str, taskId) with
      | none => (.notFound, s)
      | some r => (.noContent, { s with db := s.db.deleteResult r.id }) := by
  simp only [delete, resolve_resultUrl h]
  rfl

/-- What a DELETE at the URL of a result leaves. -/
structure Without (s s' : Server) (gone : ResultRow → Prop) : Prop where
  schedule : s'.db.schedule = s.db.schedule
  users : s'.users = s.users
  integrity : s'.db.Integrity
  results : ∀ r, r ∈ s'.db.results ↔ r ∈ s.db.results ∧ ¬ gone r

theorem integrity_deleteResult {db : Database} (hdb : db.Integrity) (id : ℕ) :
    (db.deleteResult id).Integrity where
  entries := hdb.entries
  ids := hdb.ids.sublist (List.filter_sublist.map _)
  keys := hdb.keys.sublist (List.filter_sublist.map _)
  fresh r hr := hdb.fresh r (Database.mem_deleteResult.mp hr).1
  references r hr := hdb.references r (Database.mem_deleteResult.mp hr).1

theorem without_delete (cfg : Settings) (hdb : s.db.Integrity) (h : resultUrl name taskId = some url) :
    Without s (s.delete cfg url).2 fun r => r.key = (name.str, taskId) := by
  rw [delete_resultUrl cfg s h]
  cases hfind : s.getResult (name.str, taskId) with
  | none =>
    refine ⟨rfl, rfl, hdb, fun r => ?_⟩
    have hnone := Table.get?_eq_none_iff.mp hfind
    simp only [iff_self_and]
    intro hr hkey
    exact hnone (hkey ▸ List.mem_map_of_mem hr)
  | some gone =>
    have hgone : gone ∈ s.db.results := Table.mem_of_get? hfind
    have hkey := key_of_getResult hfind
    refine ⟨rfl, rfl, integrity_deleteResult hdb gone.id, fun r => ?_⟩
    rw [Database.mem_deleteResult]
    refine and_congr_right fun hr => not_congr ⟨?_, ?_⟩
    · intro hid
      rw [Table.eq_of_key_eq hdb.ids hr hgone hid, hkey]
    · intro hsame
      rw [Table.eq_of_key_eq hdb.keys hr hgone (hsame.trans hkey.symm)]

/-- Deleting at the URLs takes out the results of the entry that they name, whatever the
order. -/
theorem without_deleteAll (cfg : Settings) (hdb : s.db.Integrity)
    (h : ∀ url ∈ urls, ∃ taskId, resultUrl name taskId = some url) :
    Without s (s.deleteAll cfg urls) fun r =>
      r.scheduleEntry = name.str ∧ ∃ url ∈ urls, resultUrl name r.taskId = some url := by
  induction urls generalizing s with
  | nil => exact ⟨rfl, rfl, hdb, fun r => by simp [deleteAll]⟩
  | cons url urls ih =>
    obtain ⟨taskId, hurl⟩ := h url List.mem_cons_self
    have hfirst := without_delete cfg hdb hurl
    have hrest := ih hfirst.integrity fun url hmem => h url (List.mem_cons_of_mem _ hmem)
    refine ⟨hrest.schedule.trans hfirst.schedule, hrest.users.trans hfirst.users,
      hrest.integrity, fun r => ?_⟩
    have hkey : r.key = (name.str, taskId) ↔
        r.scheduleEntry = name.str ∧ resultUrl name r.taskId = some url := by
      constructor
      · intro hr
        obtain ⟨hentry, rfl⟩ := Prod.mk.inj hr
        exact ⟨hentry, hurl⟩
      · rintro ⟨hentry, hsame⟩
        exact Prod.ext hentry (resultUrl_inj hsame hurl)
    rw [deleteAll, List.foldl_cons, ← deleteAll, hrest.results, hfirst.results, hkey]
    rw [List.exists_mem_cons_iff, and_assoc, ← not_or, ← and_or_left]

/-! ### What a refused DELETE is about -/

/-- The entries that a DELETE takes with it. -/
def doomed (s : Server) (path : String) : List String :=
  match resolve urlpatterns path with
  | some (.scheduleDetail, kwargs) =>
    match kwargs.lookup "pk" with
    | some (.text name) => [name]
    | _ => []
  | some (.userDetail, kwargs) =>
    match kwargs.lookup "pk" with
    | some (.number pk) =>
      (Table.get? Account.pk pk s.users).elim [] fun user =>
        (s.entriesOf user).map ScheduleEntry.name
    | _ => []
  | _ => []

/-- The results that block a DELETE. -/
def blockers (s : Server) (path : String) : List ResultRow :=
  s.db.results.filter fun r => (s.doomed path).contains r.scheduleEntry

theorem handleProtectedError_spec {rows : List ResultRow}
    (h : handleProtectedError kwargs rows = .protectedError detail urls) :
    ∃ entryName, (kwargs.lookup "name").or (kwargs.lookup "pk") = some entryName ∧
      rows.mapM (fun r => resultUrl entryName r.taskId) = some urls := by
  unfold handleProtectedError at h
  cases hname : (kwargs.lookup "name").or (kwargs.lookup "pk") with
  | none => simp [hname] at h
  | some entryName =>
    cases hurls : rows.mapM (fun r => resultUrl entryName r.taskId) with
    | none => simp [hname, hurls] at h
    | some found =>
      simp only [hname, hurls, Response.protectedError.injEq] at h
      exact ⟨entryName, rfl, by rw [hurls, h.2]⟩

theorem handleProtectedError_ne_noContent (kwargs : Kwargs) (rows : List ResultRow) :
    handleProtectedError kwargs rows ≠ .noContent := by
  unfold handleProtectedError
  split
  · simp
  · split <;> simp

theorem performDestroy_protected
    (h : (s.performDestroy kwargs names after).1 = .protectedError detail urls) :
    handleProtectedError kwargs (s.db.results.filter fun r => names.contains r.scheduleEntry) =
      .protectedError detail urls := by
  unfold performDestroy deleteEntries at h
  dsimp only at h
  split_ifs at h
  exact h

theorem performDestroy_noContent : (s.performDestroy kwargs names after).1 = .noContent ↔
    ∀ r ∈ s.db.results, r.scheduleEntry ∉ names := by
  have hnone : (s.db.results.filter fun r => names.contains r.scheduleEntry) = [] ↔
      ∀ r ∈ s.db.results, r.scheduleEntry ∉ names := by
    simp [List.filter_eq_nil_iff]
  rw [← hnone]
  unfold performDestroy deleteEntries
  dsimp only
  split_ifs with hempty
  · exact iff_of_true rfl hempty
  · exact iff_of_false (handleProtectedError_ne_noContent kwargs _) hempty

theorem destroyEntry_protected
    (h : (s.destroyEntry cfg kwargs).1 = .protectedError detail urls) :
    ∃ entry, kwargs.lookup "pk" = some (.text entry) ∧
      ∀ s' : Server, s'.db.schedule = s.db.schedule →
        s'.destroyEntry cfg kwargs = s'.performDestroy kwargs [entry] id := by
  unfold destroyEntry at h
  split at h
  · rename_i entry hpk
    cases hload : Scheduler.loadEntry cfg s.db entry with
    | error err => simp [hload] at h
    | ok e =>
      refine ⟨entry, hpk, fun s' hschedule => ?_⟩
      have hsame : Scheduler.loadEntry cfg s'.db entry = .ok e := by
        rw [← hload]
        unfold Scheduler.loadEntry
        rw [Database.getEntry_congr hschedule]
      have hname := Database.name_of_getEntry (Scheduler.loadEntry_ok hload).1
      simp only [destroyEntry, hpk, hsame, hname]
  · cases h

theorem destroyUser_protected
    (h : (s.destroyUser cfg kwargs).1 = .protectedError detail urls) :
    ∃ pk user, kwargs.lookup "pk" = some (.number pk) ∧
      Table.get? Account.pk pk s.users = some user ∧
      ∃ after, ∀ s' : Server, s'.db.schedule = s.db.schedule → s'.users = s.users →
        s'.destroyUser cfg kwargs =
          s'.performDestroy kwargs ((s.entriesOf user).map ScheduleEntry.name) after := by
  unfold destroyUser at h
  split at h
  · rename_i pk hpk
    cases huser : Table.get? Account.pk pk s.users with
    | none => simp [huser] at h
    | some user =>
      simp only [huser] at h
      split_ifs at h with hloads
      refine ⟨pk, user, hpk, huser, fun s' =>
        { s' with users := Table.remove Account.pk pk s'.users }, fun s' hschedule husers => ?_⟩
      have hentries : s'.entriesOf user = s.entriesOf user := by
        unfold entriesOf
        rw [hschedule]
      simp only [destroyUser, hpk, husers, huser, hentries, hloads, if_true]
  · cases h

theorem destroyAll_ne_protected (s : Server) (kwargs : Kwargs) :
    (s.destroyAll kwargs).1 ≠ .protectedError detail urls := by
  unfold destroyAll
  split
  · split_ifs <;> simp
  · simp

theorem destroyResult_ne_protected (s : Server) (kwargs : Kwargs) :
    (s.destroyResult kwargs).1 ≠ .protectedError detail urls := by
  unfold destroyResult
  split
  · simp
  · split <;> simp

/-- Deleting one stored entry is the removal of its row. -/
theorem deleteEntries_removeEntry {entry : String} (hstored : (s.db.getEntry entry).isSome) :
    s.deleteEntries [entry] = match s.db.removeEntry entry with
      | some db => .ok { s with db }
      | none => .error (s.db.resultsOf entry) := by
  have hresults : (s.db.results.filter fun r => [entry].contains r.scheduleEntry) =
      s.db.resultsOf entry := by
    unfold Database.resultsOf
    refine List.filter_congr fun r _ => ?_
    simp
  have hrows : (s.db.schedule.filter fun e => !([entry].contains e.name)) =
      Table.remove ScheduleEntry.name entry s.db.schedule := by
    unfold Table.remove
    refine List.filter_congr fun e _ => ?_
    simp
  unfold deleteEntries Database.removeEntry
  simp only [hresults, hrows, hstored, true_and]
  split_ifs <;> rfl

/-! ### Requests without success -/

theorem performDestroy_unchanged (h : (s.performDestroy kwargs names after).1 ≠ .noContent) :
    (s.performDestroy kwargs names after).2 = s := by
  unfold performDestroy at h ⊢
  cases hdelete : s.deleteEntries names with
  | error rows => rfl
  | ok s' => simp [hdelete] at h

theorem destroyEntry_unchanged (h : (s.destroyEntry cfg kwargs).1 ≠ .noContent) :
    (s.destroyEntry cfg kwargs).2 = s := by
  unfold destroyEntry at h ⊢
  split at h
  · rename_i entry hpk
    cases hload : Scheduler.loadEntry cfg s.db entry with
    | error err => rfl
    | ok e =>
      simp only [hload] at h
      exact performDestroy_unchanged h
  · rfl

theorem destroyUser_unchanged (h : (s.destroyUser cfg kwargs).1 ≠ .noContent) :
    (s.destroyUser cfg kwargs).2 = s := by
  unfold destroyUser at h ⊢
  split at h
  · rename_i pk hpk
    cases huser : Table.get? Account.pk pk s.users with
    | none => rfl
    | some user =>
      simp only [huser] at h
      dsimp only
      split_ifs at h ⊢
      · exact performDestroy_unchanged h
      · rfl
  · rfl

theorem destroyAll_unchanged (h : (s.destroyAll kwargs).1 ≠ .noContent) :
    (s.destroyAll kwargs).2 = s := by
  unfold destroyAll at h ⊢
  split at h
  · split_ifs at h ⊢
    · rfl
    · exact absurd rfl h
  · rfl

theorem destroyResult_unchanged (h : (s.destroyResult kwargs).1 ≠ .noContent) :
    (s.destroyResult kwargs).2 = s := by
  unfold destroyResult at h ⊢
  split at h
  · rfl
  · split at h
    · rfl
    · exact absurd rfl h

/-- A DELETE that is not answered with success changes nothing. -/
theorem delete_unchanged (h : (s.delete cfg path).1 ≠ .noContent) : (s.delete cfg path).2 = s := by
  unfold delete at h ⊢
  cases hresolve : resolve urlpatterns path with
  | none => rfl
  | some found =>
    obtain ⟨view, kwargs⟩ := found
    simp only [hresolve] at h
    dsimp only
    split_ifs at h ⊢
    · rfl
    · cases view
      case scheduleDetail => exact destroyEntry_unchanged h
      case userDetail => exact destroyUser_unchanged h
      case taskResultList => exact destroyAll_unchanged h
      case taskResultDetail => exact destroyResult_unchanged h
      all_goals rfl

/-! ### Refused requests -/

/-- A refused DELETE was to destroy the row of an entry or of a user, and is so again with
the same schedule and users. -/
theorem delete_protected (h : (s.delete cfg path).1 = .protectedError detail urls) :
    ∃ view kwargs after, resolve urlpatterns path = some (view, kwargs) ∧
      (view = .scheduleDetail ∧ (∃ entry, kwargs.lookup "pk" = some (.text entry) ∧
          s.doomed path = [entry]) ∨
        view = .userDetail ∧ ∃ pk, kwargs.lookup "pk" = some (.number pk)) ∧
      ∀ s' : Server, s'.db.schedule = s.db.schedule → s'.users = s.users →
        s'.delete cfg path = s'.performDestroy kwargs (s.doomed path) after := by
  unfold delete at h
  cases hresolve : resolve urlpatterns path with
  | none => simp [hresolve] at h
  | some found =>
    obtain ⟨view, kwargs⟩ := found
    simp only [hresolve] at h
    split_ifs at h with hversion
    have hversion' : kwargs.lookup "version" = some (.text "v1") := not_not.mp hversion
    cases view
    case scheduleDetail =>
      obtain ⟨entry, hpk, hagain⟩ := destroyEntry_protected h
      have hdoomed : s.doomed path = [entry] := by simp only [doomed, hresolve, hpk]
      refine ⟨_, kwargs, id, rfl, .inl ⟨rfl, entry, hpk, hdoomed⟩, fun s' hschedule _ => ?_⟩
      simp only [delete, hresolve, hversion', ne_eq, not_true_eq_false, if_false, hdoomed,
        hagain s' hschedule]
    case userDetail =>
      obtain ⟨pk, user, hpk, huser, after, hagain⟩ := destroyUser_protected h
      have hdoomed : s.doomed path = (s.entriesOf user).map ScheduleEntry.name := by
        simp only [doomed, hresolve, hpk, huser, Option.elim_some]
      refine ⟨_, kwargs, after, rfl, .inr ⟨rfl, pk, hpk⟩, fun s' hschedule husers => ?_⟩
      simp only [delete, hresolve, hversion', ne_eq, not_true_eq_false, if_false, hdoomed,
        hagain s' hschedule husers]
    case taskResultList => exact absurd h (destroyAll_ne_protected s kwargs)
    case taskResultDetail => exact absurd h (destroyResult_ne_protected s kwargs)
    all_goals cases h

/-- No route has a parameter `name`. -/
theorem lookup_name {view : View} (h : resolve urlpatterns path = some (view, kwargs)) :
    kwargs.lookup "name" = none := by
  obtain ⟨parts, hparts, hkeys⟩ := keys_of_resolve h
  have hnames : ∀ route ∈ urlpatterns, "name" ∉ params route.2 := by decide
  rw [List.lookup_eq_none_iff]
  intro p hp
  have hmem : p.1 ∈ params parts := hkeys ▸ List.mem_map_of_mem hp
  simp only [bne_iff_ne, ne_eq]
  rintro heq
  exact hnames _ hparts (heq ▸ hmem)

/-- A refused DELETE can be resolved from its answer: each URL addresses a result that blocks
it, and after deleting at all of them, in any order, the same DELETE succeeds. -/
structure Resolvable (cfg : Settings) (s : Server) (path : String) (urls : List String) : Prop where
  addresses : ∀ url ∈ urls, ∃ r ∈ s.blockers path, s.addressed url = some r
  succeeds : ∀ order, order.Perm urls → ((s.deleteAll cfg order).delete cfg path).1 = .noContent

/-- The condition: a DELETE of an account is blocked by results of one entry only, the one
that has the key of the account as its name. -/
def KeyNamesEntry (s : Server) (path : String) : Prop :=
  ∀ kwargs pk, resolve urlpatterns path = some (.userDetail, kwargs) →
    kwargs.lookup "pk" = some (.number pk) →
    ∀ r ∈ s.blockers path, r.scheduleEntry = toString pk

theorem mapM_eq_some_iff {α β : Type} {f : α → Option β} {items : List α} {out : List β} :
    items.mapM f = some out ↔ items.map f = out.map some := by
  induction items generalizing out with
  | nil => cases out <;> simp
  | cons a items ih =>
    rw [List.mapM_cons, List.map_cons]
    cases f a with
    | none => cases out <;> simp
    | some b =>
      cases out with
      | nil => simp [Option.bind_eq_some_iff]
      | cons c out => simp [Option.bind_eq_some_iff, ← ih, and_comm]

theorem str_text (t : String) : (Value.text t).str = t := String.ofList_toList

theorem str_number (n : ℕ) : (Value.number n).str = toString n :=
  Nat.toString_eq_ofList_toDigits.symm

/-- The condition says that each result that blocks is of the entry that the URLs name. -/
theorem keyNamesEntry_iff {view : View} (hresolve : resolve urlpatterns path = some (view, kwargs))
    (hview : view = .scheduleDetail ∧ (∃ entry, kwargs.lookup "pk" = some (.text entry) ∧
      s.doomed path = [entry]) ∨ view = .userDetail ∧ ∃ pk, kwargs.lookup "pk" = some (.number pk))
    (hname : kwargs.lookup "pk" = some name) :
    KeyNamesEntry s path ↔ ∀ r ∈ s.blockers path, r.scheduleEntry = name.str := by
  rcases hview with ⟨rfl, entry, hpk, hdoomed⟩ | ⟨rfl, pk, hpk⟩
  · obtain rfl := Option.some.inj (hpk.symm.trans hname)
    refine iff_of_true ?_ ?_
    · intro kwargs' pk huser
      simp [hresolve] at huser
    · intro r hr
      have hentry := (List.mem_filter.mp hr).2
      rw [hdoomed] at hentry
      rw [str_text]
      simpa using hentry
  · obtain rfl := Option.some.inj (hpk.symm.trans hname)
    rw [str_number]
    constructor
    · intro hkey
      exact hkey kwargs pk hresolve hpk
    · intro hall kwargs' pk' huser hpk'
      obtain rfl : kwargs = kwargs' := by simpa [hresolve] using huser
      obtain rfl : pk = pk' := by simpa [hpk] using hpk'
      exact hall

/-- What is behind a refused DELETE: the value that the URLs of its answer name, and the same
destroying again as long as the schedule and the users are the same. -/
structure Refusal (cfg : Settings) (s : Server) (path : String) (urls : List String)
    (name : Value) : Prop where
  answer : (s.blockers path).map (fun r => resultUrl name r.taskId) = urls.map some
  again : ∃ kwargs after, ∀ s' : Server, s'.db.schedule = s.db.schedule → s'.users = s.users →
    s'.delete cfg path = s'.performDestroy kwargs (s.doomed path) after
  condition : KeyNamesEntry s path ↔ ∀ r ∈ s.blockers path, r.scheduleEntry = name.str

theorem refusal_of_protected (h : (s.delete cfg path).1 = .protectedError detail urls) :
    ∃ name, Refusal cfg s path urls name := by
  obtain ⟨view, kwargs, after, hresolve, hview, hagain⟩ := delete_protected h
  have hrefused : handleProtectedError kwargs (s.blockers path) = .protectedError detail urls := by
    rw [hagain s rfl rfl] at h
    exact performDestroy_protected h
  obtain ⟨name, hname, hurls⟩ := handleProtectedError_spec hrefused
  rw [lookup_name hresolve, Option.none_or] at hname
  exact ⟨name, mapM_eq_some_iff.mp hurls, ⟨kwargs, after, hagain⟩,
    keyNamesEntry_iff hresolve hview hname⟩

namespace Refusal

variable (h : Refusal cfg s path urls name)

include h

theorem url_of_row {r : ResultRow} (hr : r ∈ s.blockers path) :
    ∃ url ∈ urls, resultUrl name r.taskId = some url := by
  have hmem := List.mem_map_of_mem (f := fun r : ResultRow => resultUrl name r.taskId) hr
  rw [h.answer] at hmem
  obtain ⟨url, hurl, heq⟩ := List.mem_map.mp hmem
  exact ⟨url, hurl, heq.symm⟩

theorem row_of_url (hurl : url ∈ urls) :
    ∃ r ∈ s.blockers path, resultUrl name r.taskId = some url := by
  have hsome := List.mem_map_of_mem (f := some) hurl
  rw [← h.answer] at hsome
  exact List.mem_map.mp hsome

/-- After deleting at the URLs in any order, the DELETE succeeds exactly when the results that
block it are all of the entry that the URLs name. -/
theorem succeeds_iff (hdb : s.db.Integrity) {order : List String} (hperm : order.Perm urls) :
    ((s.deleteAll cfg order).delete cfg path).1 = .noContent ↔
      ∀ r ∈ s.blockers path, r.scheduleEntry = name.str := by
  obtain ⟨kwargs, after, hagain⟩ := h.again
  have hnamed : ∀ url ∈ order, ∃ taskId, resultUrl name taskId = some url := by
    intro url hmem
    obtain ⟨r, -, heq⟩ := h.row_of_url (hperm.mem_iff.mp hmem)
    exact ⟨r.taskId, heq⟩
  have hwithout := without_deleteAll cfg hdb hnamed
  rw [hagain _ hwithout.schedule hwithout.users, performDestroy_noContent]
  constructor
  · intro hfree r hr
    obtain ⟨hstored, hentry⟩ := List.mem_filter.mp hr
    by_contra hother
    have hkept := (hwithout.results r).mpr ⟨hstored, fun hgone => hother hgone.1⟩
    exact hfree r hkept (by simpa using hentry)
  · intro hall r hr hentry
    obtain ⟨hstored, hkept⟩ := (hwithout.results r).mp hr
    have hblocks : r ∈ s.blockers path := List.mem_filter.mpr ⟨hstored, by simpa using hentry⟩
    obtain ⟨url, hmem, heq⟩ := h.url_of_row hblocks
    exact hkept ⟨hall r hblocks, url, hperm.mem_iff.mpr hmem, heq⟩

theorem addresses (hdb : s.db.Integrity)
    (hall : ∀ r ∈ s.blockers path, r.scheduleEntry = name.str) (hurl : url ∈ urls) :
    ∃ r ∈ s.blockers path, s.addressed url = some r := by
  obtain ⟨r, hr, heq⟩ := h.row_of_url hurl
  have hkey : r.key = (name.str, r.taskId) := Prod.ext (hall r hr) rfl
  refine ⟨r, hr, ?_⟩
  rw [addressed_resultUrl s heq, ← hkey]
  exact getResult_of_mem hdb (List.mem_of_mem_filter hr)

end Refusal

/-- A refused DELETE can be resolved from its answer exactly when it is about an entry, or
the key of the account names the one entry whose results block it. -/
theorem resolvable_iff (hdb : s.db.Integrity)
    (h : (s.delete cfg path).1 = .protectedError detail urls) :
    Resolvable cfg s path urls ↔ KeyNamesEntry s path := by
  obtain ⟨name, hrefusal⟩ := refusal_of_protected h
  rw [hrefusal.condition]
  constructor
  · intro hresolvable
    exact (hrefusal.succeeds_iff hdb (.refl urls)).mp (hresolvable.succeeds urls (.refl urls))
  · intro hall
    exact ⟨fun url hurl => hrefusal.addresses hdb hall hurl,
      fun order hperm => (hrefusal.succeeds_iff hdb hperm).mpr hall⟩

/-- The account with the key 7 owns an entry with one stored result. -/
def oneOwner : Server where
  db := { schedule := [{ everyTenSeconds with nextTaskTime := 10, nextTaskId := 2 }]
          results := [⟨{ scheduleEntry := "sweep", taskId := 1 }, 3⟩]
          nextId := 4 }
  users := [⟨7, "op"⟩]

theorem integrity_oneOwner : oneOwner.db.Integrity := by
  constructor <;> decide

/-- The DELETE of the entry is resolved from its answer. -/
theorem resolvable_entry :
    Resolvable inThread oneOwner "/api/v1/schedule/sweep/" ["/api/v1/tasks/completed/sweep/1/"] := by
  have hrefused : (oneOwner.delete inThread "/api/v1/schedule/sweep/").1 =
      .protectedError ("Cannot delete schedule entry 'sweep' because results on disk " ++
        "reference it. Delete the protected results first.")
        ["/api/v1/tasks/completed/sweep/1/"] := by decide
  have hentry : resolve urlpatterns "/api/v1/schedule/sweep/" =
      some (.scheduleDetail, [("version", .text "v1"), ("pk", .text "sweep")]) := by decide
  apply (resolvable_iff integrity_oneOwner hrefused).mpr
  intro kwargs pk huser
  simp [hentry] at huser

/-- The DELETE of the account is refused for the same result, with a URL that addresses
nothing. -/
theorem user_not_resolvable :
    oneOwner.db.Integrity ∧
      (oneOwner.delete inThread "/api/v1/users/7/").1 =
        .protectedError ("Cannot delete schedule entry 7 because results on disk " ++
          "reference it. Delete the protected results first.")
          ["/api/v1/tasks/completed/7/1/"] ∧
      oneOwner.blockers "/api/v1/users/7/" = [⟨{ scheduleEntry := "sweep", taskId := 1 }, 3⟩] ∧
      (oneOwner.delete inThread "/api/v1/tasks/completed/7/1/").1 = .notFound ∧
      ¬ Resolvable inThread oneOwner "/api/v1/users/7/" ["/api/v1/tasks/completed/7/1/"] := by
  refine ⟨integrity_oneOwner, by decide, by decide, by decide, ?_⟩
  intro hresolvable
  obtain ⟨r, -, hr⟩ := hresolvable.addresses _ List.mem_cons_self
  have hnone : oneOwner.addressed "/api/v1/tasks/completed/7/1/" = none := by decide
  simp [hnone] at hr

end Server

end ScosSensor
