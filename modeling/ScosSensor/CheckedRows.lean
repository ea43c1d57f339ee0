import ScosSensor.EntryViews

/-!
# Rows that pass the checks of the serializer

The bodies of POST, PUT and PATCH reach the system through the serializer. What
it checks of a column then holds of every stored row and of every update under
way: the scheduler writes none of these columns, an update writes what it has read
or what was checked, and the default priority is in its range.
-/
namespace ScosSensor

/-- The columns of an entry as the serializer lets them through. -/
structure ScheduleEntry.Checked (D : Conversions) (cfg : Settings) (e : ScheduleEntry) : Prop where
  action : cfg.actions.contains e.action = true
  priority : -20 ≤ e.priority ∧ e.priority ≤ 19
  interval : ∀ i ∈ e.interval, (i : ℤ) ≤ 2147483647
  callbackUrl : ∀ url ∈ e.callbackUrl, ∃ j, D.url j = some url

/-- The same of the columns that a body sets. -/
structure Body.Checked (D : Conversions) (cfg : Settings) (b : Body) : Prop where
  action : ∀ action ∈ b.action, cfg.actions.contains action = true
  priority : ∀ n ∈ b.priority, -20 ≤ n ∧ n ≤ 19
  interval : ∀ i, b.interval = some (some i) → (i : ℤ) ≤ 2147483647
  callbackUrl : ∀ url, b.callbackUrl = some (some url) → ∃ j, D.url j = some url

namespace ScheduleEntryViewSet

open ScheduleEntrySerializer Runs

variable {D : Conversions} {cfg : Settings} {db : Database} {a : ViewAction} {data : Obj}
  {v : Validated} {e row : ScheduleEntry} {b : Body} {s t : Sys} {l : Label}

theorem checked_of_accepts (h : Accepts D cfg db a data v) : v.toBody.Checked D cfg :=
  ⟨h.actionLoaded, h.priority, h.interval, h.callbackUrl⟩

/-- A stop makes no difference to the checks. -/
theorem checked_of_stop {stop : Option (Option ℤ)} (h : b.Checked D cfg) :
    { b with stop }.Checked D cfg :=
  ⟨h.action, h.priority, h.interval, h.callbackUrl⟩

theorem checked_assign (he : e.Checked D cfg) (hb : b.Checked D cfg) :
    (e.assign b).Checked D cfg := by
  refine ⟨?_, ?_, ?_, ?_⟩
  · unfold ScheduleEntry.assign
    cases haction : b.action with
    | none => exact he.action
    | some action => exact hb.action action haction
  · unfold ScheduleEntry.assign
    cases hpriority : b.priority with
    | none => exact he.priority
    | some n => exact hb.priority n hpriority
  · intro i hi
    unfold ScheduleEntry.assign at hi
    cases hinterval : b.interval with
    | none => exact he.interval i (by simpa [hinterval] using hi)
    | some interval => exact hb.interval i (by simpa [hinterval] using hi)
  · intro url hurl
    unfold ScheduleEntry.assign at hurl
    cases hcallback : b.callbackUrl with
    | none => exact he.callbackUrl url (by simpa [hcallback] using hurl)
    | some callbackUrl => exact hb.callbackUrl url (by simpa [hcallback] using hurl)

theorem checked_saved {q : Request} (he : q.entry.Checked D cfg) (hb : q.body.Checked D cfg)
    (now : ℤ) : (q.saved now).Checked D cfg := by
  have hassign := checked_assign he hb
  unfold Request.saved ScheduleEntry.reschedule
  split_ifs
  · exact ⟨hassign.action, hassign.priority, hassign.interval, hassign.callbackUrl⟩
  · exact hassign

theorem checked_ofBody {action : String} (hloaded : cfg.actions.contains action = true)
    (hb : b.Checked D cfg) (name owner : String) (now : ℤ) :
    (ScheduleEntry.ofBody name owner action now b).Checked D cfg := by
  refine ⟨hloaded, ?_, ?_, ?_⟩
  · unfold ScheduleEntry.ofBody
    cases hpriority : b.priority with
    | none => simp
    | some n => exact hb.priority n hpriority
  · intro i hi
    unfold ScheduleEntry.ofBody at hi
    cases hinterval : b.interval with
    | none => simp [hinterval] at hi
    | some interval => exact hb.interval i (by simpa [hinterval] using hi)
  · intro url hurl
    unfold ScheduleEntry.ofBody at hurl
    cases hcallback : b.callbackUrl with
    | none => simp [hcallback] at hurl
    | some callbackUrl => exact hb.callbackUrl url (by simpa [hcallback] using hurl)

/-- The bodies of requests come from the serializer; the constructor may have set
the stop of a POST. -/
def FromSerializer (D : Conversions) (cfg : Settings) (s : Sys) : Label → Prop
  | .post _ _ body _ => ∃ data v, isValid D cfg s.db .create data = .ok v ∧
      body = { v.toBody with stop := body.stop }
  | .read _ body => ∃ a data v, a.updating = true ∧ isValid D cfg s.db a data = .ok v ∧
      body = v.toBody
  | _ => True

/-- Every stored row and every update under way has been checked. -/
structure CheckedRows (D : Conversions) (cfg : Settings) (s : Sys) : Prop where
  rows : ∀ name, ∀ e ∈ s.db.getEntry name, e.Checked D cfg
  requests : ∀ q ∈ s.requests, q.entry.Checked D cfg ∧ q.body.Checked D cfg

theorem checkedRows_requests (hs : CheckedRows D cfg s) (hl : FromSerializer D cfg s l)
    (h : Scheduler.step cfg s l = some t) :
    ∀ q ∈ t.requests, q.entry.Checked D cfg ∧ q.body.Checked D cfg := by
  intro q hq
  cases Scheduler.step_cases h with
  | sched i s' hmove => cases hmove <;> exact hs.requests q hq
  | crash => cases hq
  | read name body e he =>
    rcases List.mem_append.mp hq with hq | hq
    · exact hs.requests q hq
    · obtain rfl := List.mem_singleton.mp hq
      obtain ⟨a, data, v, -, hvalid, rfl⟩ := hl
      exact ⟨hs.rows name e (Scheduler.loadEntry_ok he).1, checked_of_accepts (accepts_of_isValid hvalid)⟩
  | write k now q' hq' => exact hs.requests q (List.mem_of_mem_eraseIdx hq)
  | _ => exact hs.requests q hq

theorem checkedRows_step (hs : CheckedRows D cfg s) (hl : FromSerializer D cfg s l)
    (h : Scheduler.step cfg s l = some t) : CheckedRows D cfg t := by
  refine ⟨fun name => ?_, checkedRows_requests hs hl h⟩
  have hrow := Scheduler.step_row h name
  generalize t.db.getEntry name = out at hrow
  intro e he
  cases hrow with
  | same => exact hs.rows name e he
  | reset | take | cancel | number =>
    rename_i hstored
    obtain rfl := Option.some.inj he
    have hrow := hs.rows name _ hstored
    exact ⟨hrow.action, hrow.priority, hrow.interval, hrow.callbackUrl⟩
  | write k now q hlabel hq =>
    obtain rfl := Option.some.inj he
    obtain ⟨hentry, hbody⟩ := hs.requests q (List.mem_of_getElem? hq)
    exact checked_saved hentry hbody now
  | post owner action body now hlabel hnew hloaded =>
    obtain rfl := Option.some.inj he
    subst hlabel
    obtain ⟨data, v, hvalid, hbody⟩ := hl
    rw [hbody]
    exact checked_ofBody hloaded (checked_of_stop (checked_of_accepts (accepts_of_isValid hvalid)))
      name owner now
  | delete => cases he

/-- Every row of a state that is reached from empty tables has been checked. -/
theorem checkedRows_of_run {run : List Label}
    (hok : Along (Scheduler.step cfg) (FromSerializer D cfg) { db := {} } run)
    (hrun : exec (Scheduler.step cfg) { db := {} } run = some s) : CheckedRows D cfg s := by
  have hempty : CheckedRows D cfg { db := {} } := by
    refine ⟨fun name e he => ?_, fun q hq => ?_⟩
    · cases he
    · cases hq
  exact exec_invariant (fun _ _ _ hs hl hstep => checkedRows_step hs hl hstep) hempty hok hrun

end ScheduleEntryViewSet

end ScosSensor
