import ScosSensor.AccountTokens

/-!
# What the requests can do to an account

No request of the API makes an account an administrator's: in every run the accounts
whose requests are let through are administrators' from the beginning, or made so by a
startup or in the portal.
A login writes back the row that it has read. So what an update has set lasts, and a
deleted account stays deleted, exactly when no thread still holds a row of the account
from before.
-/
namespace ScosSensor.AccountService

open Runs Accounts CertificateAuthentication

variable {m : UserManager} {certificates : Bool} {s s' t : AccountService} {l : AccountLabel}
  {ls : List AccountLabel} {thread : ℕ} {a : Activity} {r : AccountRow}

/-! ### Administrators -/

/-- Startups leave it to an account whether it is an administrator's, and give none of
the ids out again. -/
structure Kept (accounts t : Accounts) : Prop where
  tables : t.Constrained
  nextId : accounts.nextId ≤ t.nextId
  rights : ∀ r ∈ t.rows, r.id ∈ accounts.ids →
    ∃ old ∈ accounts.rows, old.id = r.id ∧ old.isSuperuser = r.isSuperuser

theorem kept_ready (env : Environ) (salts : List ℕ) {accounts : Accounts}
    (h : accounts.Constrained) : Kept accounts (ready m false env salts accounts).2 := by
  refine addUsers_invariant (P := Kept accounts) ?_ (env.calls salts)
    ⟨h, le_rfl, fun r hr _ => ⟨r, hr, rfl, rfl⟩⟩
  intro x u u' hu hadds
  refine ⟨hu.tables.adds hadds, ?_, ?_⟩
  · cases hadds with
    | reset => exact hu.nextId
    | created => exact Nat.le_succ_of_le hu.nextId
  · intro r hr hold
    cases hadds with
    | reset =>
      obtain ⟨before, hbefore, rfl⟩ := List.mem_map.mp hr
      exact hu.rights before hbefore hold
    | created =>
      rcases List.mem_append.mp hr with hr | hr
      · exact hu.rights r hr hold
      · obtain rfl := List.mem_singleton.mp hr
        exact absurd (h.fresh _ hold) (not_lt.mpr hu.nextId)

/-- An administrator's account is one of `A` or has been appointed, and so is one whose
request has been let through. -/
def Rightful (A : ℕ → Prop) (appointed : List ℕ) (id : ℕ) : Prop := A id ∨ id ∈ appointed

structure Rights (A : ℕ → Prop) (s : AccountService) : Prop where
  stored : ∀ r ∈ s.accounts.rows, r.isSuperuser = true → Rightful A s.appointed r.id
  held : ∀ thread, ∀ r ∈ (s.threads thread).rows, r.isSuperuser = true → Rightful A s.appointed r.id
  permitted : ∀ id ∈ s.permitted, Rightful A s.appointed id

theorem Rights.goto {A : ℕ → Prop} (h : Rights A s)
    (ha : ∀ r ∈ a.rows, r.isSuperuser = true → Rightful A s.appointed r.id) :
    Rights A (s.goto thread a) :=
  ⟨h.stored, forall_goto
    (fun a => ∀ r ∈ a.rows, r.isSuperuser = true → Rightful A s.appointed r.id) h.held ha,
    h.permitted⟩

theorem Rights.moves {A : ℕ → Prop} (h : Rights A s) (hs : Sound s) (hmoves : Moves m s l s') :
    Rights A s' := by
  have hdrop : ∀ {a : Activity}, a.rows = [] →
      ∀ r ∈ a.rows, r.isSuperuser = true → Rightful A s.appointed r.id := by
    intro a hnone r hr
    rw [hnone] at hr
    cases hr
  cases hmoves with
  | start env salts hstopped =>
    have hkept := kept_ready (m := m) env salts hs.tables
    have hmore : ∀ id, Rightful A s.appointed id → A id ∨ id ∈ s.appointed ++
        (ready m false env salts s.accounts).2.ids.filter fun id => id ∉ s.accounts.ids :=
      fun id hid => hid.imp_right (List.mem_append_left _)
    refine ⟨?_, fun thread r hr hsuper => hmore _ (h.held thread r hr hsuper),
      fun id hid => hmore id (h.permitted id hid)⟩
    intro r hr hsuper
    by_cases hold : r.id ∈ s.accounts.ids
    · obtain ⟨old, hmem, hid, hright⟩ := hkept.rights r hr hold
      exact hmore _ (hid ▸ h.stored old hmem (hright.trans hsuper))
    · refine .inr (List.mem_append_right _ (List.mem_filter.mpr ⟨List.mem_map_of_mem hr, ?_⟩))
      exact decide_eq_true hold
  | crash => exact ⟨h.stored, (fun _ _ hr => by cases hr), h.permitted⟩
  | refused l => exact h
  | login l thread r now request hidle hr =>
    exact h.goto (by simpa [Activity.rows] using h.stored r hr)
  | entered l thread r request hidle hr =>
    exact h.goto (by simpa [Activity.rows] using h.stored r hr)
  | portal thread user granted request a hidle hfound ha =>
    have hmore : ∀ id, Rightful A s.appointed id →
        Rightful A (s.appointed ++ appointee (some a)) id :=
      fun id hid => hid.imp_right (List.mem_append_left _)
    refine Rights.goto ⟨fun r hr hsuper => hmore _ (h.stored r hr hsuper),
      fun thread r hr hsuper => hmore _ (h.held thread r hr hsuper),
      fun id hid => hmore id (h.permitted id hid)⟩ ?_
    exact fun r hr hsuper => .inr (List.mem_append_right _ (ha.appointed r hr hsuper))
  | ended thread refused htoken => exact h.goto (hdrop rfl)
  | permitted thread refused user request a hat hsuperuser ha =>
    have huser := h.held thread user (by simp [hat, Activity.rows]) hsuperuser
    refine Rights.goto ⟨h.stored, h.held, ?_⟩ fun r hr => h.stored r (ha.rows hr)
    intro id hid
    rcases List.mem_append.mp hid with hold | hnew
    · exact h.permitted id hold
    · exact List.mem_singleton.mp hnew ▸ huser
  | saved thread refused user request accounts hat hsave =>
    have huser := h.held thread user (by simp [hat, Activity.rows])
    refine Rights.goto ⟨?_, h.held, h.permitted⟩ ?_
    · intro r hr
      rcases (mem_rows_save hsave).mp hr with ⟨hold, -⟩ | rfl
      · exact h.stored r hold
      · exact huser
    · split_ifs <;> simpa [Activity.rows] using huser
  | restored thread refused user request accounts hat hcreate =>
    have huser := h.held thread user (by simp [hat, Activity.rows])
    obtain ⟨-, -, rfl⟩ := createToken_cases hcreate
    exact Rights.goto ⟨h.stored, h.held, h.permitted⟩ (by simpa [Activity.rows] using huser)
  | validated thread refused r body hat =>
    have hr := h.held thread r (by simp [hat, Activity.rows])
    exact h.goto (by simpa [Activity.rows, AccountChanges.apply] using hr)
  | updated thread refused r accounts hat hsave =>
    have hrow := h.held thread r (by simp [hat, Activity.rows])
    refine Rights.goto ⟨?_, h.held, h.permitted⟩ (by split_ifs <;> exact hdrop rfl)
    intro r' hr'
    rcases (mem_rows_save hsave).mp hr' with ⟨hold, -⟩ | rfl
    · exact h.stored r' hold
    · exact hrow
  | inserted thread refused body password hat hfree =>
    refine Rights.goto ⟨?_, h.held, h.permitted⟩ (hdrop rfl)
    intro r hr hsuper
    rcases List.mem_append.mp hr with hold | hnew
    · exact h.stored r hold hsuper
    · rw [List.mem_singleton.mp hnew] at hsuper
      cases hsuper
  | tokenCreated thread refused user accounts hat hcreate =>
    obtain ⟨-, -, rfl⟩ := createToken_cases hcreate
    exact Rights.goto ⟨h.stored, h.held, h.permitted⟩ (hdrop rfl)
  | deleted thread refused pk hat =>
    refine Rights.goto ⟨?_, h.held, h.permitted⟩ (hdrop rfl)
    exact fun r hr => h.stored r (Table.mem_remove.mp hr).1

/-- A startup that names an account, and a change in the portal that makes one an
administrator's, may appoint somebody. -/
def AppointsNobody : AccountLabel → Prop
  | .start env _ => env.mentions = []
  | .portal _ _ _ (.change _ form) => form.isSuperuser = false
  | _ => True

theorem appointee_of_portal {accounts : Accounts} {user : ℕ} {granted : Bool}
    {request : PortalRequest} (hl : AppointsNobody (.portal thread user granted request))
    (hfound : portalActivity accounts user granted request = some a) : appointee (some a) = [] := by
  simp only [portalActivity, Option.bind_eq_bind, Option.bind_eq_some_iff] at hfound
  obtain ⟨r, -, hfound⟩ := hfound
  split_ifs at hfound
  cases request with
  | add username password =>
    simp only [beginPortal] at hfound
    split_ifs at hfound
    exact Option.some.inj hfound ▸ rfl
  | change pk form =>
    obtain ⟨row, -, rfl⟩ := Option.map_eq_some_iff.mp hfound
    have hplain : form.isSuperuser = false := hl
    exact if_neg (by simp [PortalForm.apply, hplain])
  | delete pk =>
    simp only [beginPortal] at hfound
    split_ifs at hfound
    exact Option.some.inj hfound ▸ rfl

theorem Moves.appointed (h : Moves m s l s') (hl : AppointsNobody l) :
    s'.appointed = s.appointed := by
  cases h with
  | start env salts hstopped =>
    have hcalls : env.calls salts = [] := by
      rw [Environ.calls, hl]
      rfl
    have hready : (ready m false env salts s.accounts).2 = s.accounts := by
      simp [ready, hcalls, addUsers]
    simp [hready, Accounts.ids]
  | portal thread user granted request a hidle hfound ha =>
    have hnone := appointee_of_portal hl hfound
    simp [goto, hnone]
  | _ => rfl

/-- In every run, the accounts that are administrators', and those whose requests have
been let through as theirs, are administrators' at the start of it, or made so by a
startup or in the portal on the way. Where no environment names an account and no change
in the portal makes one an administrator's, none is made. -/
theorem administrators_appointed (m : UserManager) (certificates : Bool) (accounts : Accounts)
    (h : accounts.Constrained) (ls : List AccountLabel) (t : AccountService)
    (hrun : exec (step m certificates) { accounts } ls = some t) :
    (∀ r ∈ t.accounts.rows, r.isSuperuser = true →
        (∃ old ∈ accounts.rows, old.id = r.id ∧ old.isSuperuser = true) ∨ r.id ∈ t.appointed) ∧
      (∀ id ∈ t.permitted,
        (∃ old ∈ accounts.rows, old.id = id ∧ old.isSuperuser = true) ∨ id ∈ t.appointed) ∧
      ((∀ l ∈ ls, AppointsNobody l) → t.appointed = []) := by
  have hstart : Rights (fun id => ∃ old ∈ accounts.rows, old.id = id ∧ old.isSuperuser = true)
      { accounts } :=
    ⟨fun r hr hsuper => .inl ⟨r, hr, rfl, hsuper⟩, (fun _ _ hr => by cases hr), fun _ hid => by
      cases hid⟩
  have hends := exec_invariant (I := fun s => Sound s ∧ Rights _ s)
    (fun _ _ _ hs _ hstep => ⟨hs.1.moves (step_moves hstep), hs.2.moves hs.1 (step_moves hstep)⟩)
    ⟨sound_start h, hstart⟩ (Along.of_forall (fun _ _ => trivial) _ ls) hrun
  refine ⟨hends.2.stored, hends.2.permitted, ?_⟩
  intro hnobody
  have hls : Along (step m certificates) (fun _ l => AppointsNobody l) { accounts } ls :=
    Along.of_forall_mem fun l hl _ => hnobody l hl
  exact exec_invariant (I := fun s => s.appointed = [])
    (fun _ _ _ hs hl hstep => ((step_moves hstep).appointed hl).trans hs) rfl hls hrun

/-- The account of bob, once eve has changed it in the portal. -/
def bobAppointed : PortalForm where
  username := ['b', 'o', 'b']
  email := none
  password := .blank
  isStaff := true
  isSuperuser := true
  isActive := true
  lastLogin := none

/-- The request of eve is let through, and that of bob is not before she has made him an
administrator in the portal. -/
def twoLogins : List AccountLabel :=
  [.start {} [], .certificate 0 (certificateOf ['b', 'o', 'b']) 50 .other,
    .certificate 1 (certificateOf ['e', 'v', 'e']) 60 (.create { username := some ['a', 'l'] }),
    .advance 0 false, .advance 0 false, .advance 1 false, .advance 1 false, .advance 1 false,
    .portal 0 1 false (.change 2 bobAppointed), .advance 0 false,
    .certificate 0 (certificateOf ['b', 'o', 'b']) 70 .other, .advance 0 false, .advance 0 false]

theorem administrators_appointed_two :
    ∃ t, exec (step ligatures true) { accounts := oneAdministrator } twoLogins = some t ∧
      t.permitted = [1, 2] ∧ t.accounts.ids = [1, 2, 3] ∧ t.appointed = [2] ∧
      ∀ r ∈ t.accounts.rows, r.isSuperuser = true →
        (∃ old ∈ oneAdministrator.rows, old.id = r.id ∧ old.isSuperuser = true) ∨
          r.id ∈ t.appointed := by
  have hend : (exec (step ligatures true) { accounts := oneAdministrator } twoLogins).map
      (fun t => (t.permitted, t.accounts.ids, t.appointed)) = some ([1, 2], [1, 2, 3], [2]) := by
    decide
  obtain ⟨t, ht, hfacts⟩ := Option.map_eq_some_iff.mp hend
  simp only [Prod.mk.injEq] at hfacts
  exact ⟨t, ht, hfacts.1, hfacts.2.1, hfacts.2.2, (administrators_appointed ligatures true
    oneAdministrator constrained_oneAdministrator twoLogins t ht).1⟩

/-! ### Updates and deletions -/

/-- The ids that are given out only go up. -/
theorem Moves.nextId_le (h : Moves m s l s') (hs : Sound s) :
    s.accounts.nextId ≤ s'.accounts.nextId := by
  cases h with
  | start env salts hstopped => exact (ready_constrained env salts hs.tables).2
  | saved thread refused user request accounts hat hsave => exact (nextId_save hsave).ge
  | updated thread refused r accounts hat hsave => exact (nextId_save hsave).ge
  | restored thread refused user request accounts hat hcreate =>
    obtain ⟨-, -, rfl⟩ := createToken_cases hcreate
    exact le_rfl
  | tokenCreated thread refused user accounts hat hcreate =>
    obtain ⟨-, -, rfl⟩ := createToken_cases hcreate
    exact le_rfl
  | inserted thread refused body password hat hfree => exact Nat.le_succ _
  | _ => exact le_rfl

/-- The rows agree in all but the time of the last login. -/
def SameSettings (r r' : AccountRow) : Prop := { r' with lastLogin := r.lastLogin } = r

/-- The step is not the write of an update of the account, and no startup. -/
def EditsNothing (id : ℕ) (s : AccountService) : AccountLabel → Prop
  | .start .. => False
  | .advance thread _ => ∀ r, s.threads thread = .updating r → r.id ≠ id
  | _ => True

/-- A login that is under way holds the account as it is. -/
def Agrees (r : AccountRow) (a : Activity) : Prop :=
  ∀ user request, a = .authenticating user request → user.id = r.id → SameSettings r user

structure Lasts (r : AccountRow) (s : AccountService) : Prop where
  stored : ∀ r' ∈ s.accounts.rows, r'.id = r.id → SameSettings r r'
  held : ∀ thread, Agrees r (s.threads thread)
  fresh : r.id < s.accounts.nextId

theorem Lasts.goto (h : Lasts r s) (ha : Agrees r a) : Lasts r (s.goto thread a) :=
  ⟨h.stored, forall_goto (Agrees r) h.held ha, h.fresh⟩

theorem Lasts.moves (h : Lasts r s) (hs : Sound s) (hmoves : Moves m s l s')
    (hl : EditsNothing r.id s l) : Lasts r s' := by
  have hfresh : r.id < s'.accounts.nextId := lt_of_lt_of_le h.fresh (hmoves.nextId_le hs)
  have hother : ∀ {a : Activity}, (∀ user request, a ≠ .authenticating user request) → Agrees r a :=
    fun hne user request he => absurd he (hne user request)
  cases hmoves with
  | start env salts hstopped => exact hl.elim
  | crash => exact ⟨h.stored, fun _ => hother (by simp), h.fresh⟩
  | refused l => exact h
  | login l thread user now request hidle hr =>
    refine h.goto ?_
    rintro user' request' he hid
    cases he
    exact h.stored user hr hid
  | entered l thread user request hidle hr => exact h.goto (hother (by simp))
  | portal thread user granted request a hidle hfound ha =>
    exact Lasts.goto ⟨h.stored, h.held, h.fresh⟩ (hother ha.notLogin)
  | ended thread refused htoken => exact h.goto (hother (by simp))
  | permitted thread refused user request a hat hsuperuser ha =>
    refine Lasts.goto ⟨h.stored, h.held, h.fresh⟩ ?_
    rintro user' request' rfl hid
    exact h.stored user' (ha.rows (by simp [Activity.rows])) hid
  | saved thread refused user request accounts hat hsave =>
    refine Lasts.goto ⟨?_, h.held, hfresh⟩ (hother (by split_ifs <;> simp))
    intro r' hr' hid
    rcases (mem_rows_save hsave).mp hr' with ⟨hold, -⟩ | rfl
    · exact h.stored r' hold hid
    · exact h.held thread _ _ hat hid
  | restored thread refused user request accounts hat hcreate =>
    obtain ⟨-, -, rfl⟩ := createToken_cases hcreate
    exact Lasts.goto ⟨h.stored, h.held, h.fresh⟩ (hother (by simp))
  | validated thread refused row body hat => exact h.goto (hother (by simp))
  | updated thread refused row accounts hat hsave =>
    refine Lasts.goto ⟨?_, h.held, hfresh⟩ (hother (by split_ifs <;> simp))
    intro r' hr' hid
    rcases (mem_rows_save hsave).mp hr' with ⟨hold, -⟩ | rfl
    · exact h.stored r' hold hid
    · exact absurd hid (hl _ hat)
  | inserted thread refused body password hat hfree =>
    refine Lasts.goto ⟨?_, h.held, hfresh⟩ (hother (by simp))
    intro r' hr' hid
    rcases List.mem_append.mp hr' with hold | hnew
    · exact h.stored r' hold hid
    · rw [List.mem_singleton.mp hnew] at hid
      exact absurd hid h.fresh.ne'
  | tokenCreated thread refused user accounts hat hcreate =>
    obtain ⟨-, -, rfl⟩ := createToken_cases hcreate
    exact Lasts.goto ⟨h.stored, h.held, h.fresh⟩ (hother (by simp))
  | deleted thread refused pk hat =>
    refine Lasts.goto ⟨?_, h.held, h.fresh⟩ (hother (by simp))
    exact fun r' hr' => h.stored r' (Table.mem_remove.mp hr').1

theorem sound_run {accounts : Accounts} (h : accounts.Constrained)
    (hrun : exec (step m certificates) { accounts } ls = some s) : Sound s :=
  exec_invariant (fun _ _ _ hs _ hstep => hs.moves (step_moves hstep)) (sound_start h)
    (Along.of_forall (fun _ _ => trivial) _ ls) hrun

/-- A save whose name no other account has is carried out. -/
theorem save_of_free {accounts : Accounts}
    (hfree : ∀ a ∈ accounts.rows, a.username = r.username → a.id = r.id) :
    ∃ after, accounts.save r = some after ∧ r ∈ after.rows := by
  have hnot : (accounts.rows.any fun a => a.id ≠ r.id && a.username = r.username) = false := by
    rw [List.any_eq_false]
    intro a ha
    simpa using fun hne hname => hne (hfree a ha hname)
  have hsaved : ∃ after, accounts.save r = some after := by
    rw [Accounts.save, hnot]
    by_cases hstored : r.id ∈ accounts.ids <;> simp [hstored]
  obtain ⟨after, hafter⟩ := hsaved
  exact ⟨after, hafter, (mem_rows_save hafter).mpr (.inr rfl)⟩

/-- A thread that saves a row next stores it when no other account has its name. -/
theorem stores_of_free (hrunning : s.running = true)
    (hat : (∃ request, s.threads thread = .authenticating r request) ∨
      s.threads thread = .updating r)
    (hfree : ∀ a ∈ s.accounts.rows, a.username = r.username → a.id = r.id) :
    ∃ t, step m certificates s (.advance thread false) = some t ∧ r ∈ t.accounts.rows := by
  obtain ⟨after, hsave, hmem⟩ := save_of_free hfree
  have hstep : ∃ t, step m certificates s (.advance thread false) = some t ∧
      t.accounts = after := by
    rcases hat with ⟨request, hat⟩ | hat <;> simp [step, hrunning, advance, hat, hsave]
  obtain ⟨t, ht, rfl⟩ := hstep
  exact ⟨t, ht, hmem⟩

/-- From any state of any run, as long as no update of the account is written, the
account keeps its settings in every continuation, exactly when each login that is
under way holds them as they are. -/
theorem settings_last_iff (m : UserManager) (certificates : Bool) (accounts : Accounts)
    (h : accounts.Constrained) (before : List AccountLabel) (s : AccountService)
    (hreach : exec (step m certificates) { accounts } before = some s) (hrunning : s.running = true)
    (r : AccountRow) (hr : r ∈ s.accounts.rows)
    (hnames : ∀ thread user request, s.threads thread = .authenticating user request →
      user.id = r.id → ∀ a ∈ s.accounts.rows, a.username = user.username → a.id = user.id) :
    (∀ ls t, Along (step m certificates) (EditsNothing r.id) s ls →
        exec (step m certificates) s ls = some t →
        ∀ r' ∈ t.accounts.rows, r'.id = r.id → SameSettings r r') ↔
      ∀ thread, Agrees r (s.threads thread) := by
  have hs := sound_run h hreach
  constructor
  · intro hlast thread user request hat hid
    obtain ⟨t, ht, hmem⟩ : ∃ t, step m certificates s (.advance thread false) = some t ∧
        user ∈ t.accounts.rows :=
      stores_of_free hrunning (.inl ⟨request, hat⟩) (hnames thread user request hat hid)
    refine hlast [.advance thread false] t ⟨?_, fun _ _ => trivial⟩ (exec_cons.mpr ⟨t, ht, rfl⟩)
      user hmem hid
    intro row hrow
    rw [hat] at hrow
    cases hrow
  · intro hagrees ls t hls hrun
    have hstart : Lasts r s := by
      refine ⟨?_, hagrees, hs.tables.fresh r.id (List.mem_map_of_mem hr)⟩
      intro r' hr' hid
      rw [List.inj_on_of_nodup_map hs.tables.ids hr' hr hid]
      rfl
    have hends := exec_invariant (I := fun s => Sound s ∧ Lasts r s)
      (fun _ _ _ hs hl hstep =>
        ⟨hs.1.moves (step_moves hstep), hs.2.moves hs.1 (step_moves hstep) hl⟩)
      ⟨hs, hstart⟩ hls hrun
    exact hends.2.stored

/-- Eve turns the account of bob off while a login of his is under way. -/
def deactivatedInLogin : List AccountLabel :=
  [.start {} [], .certificate 0 (certificateOf ['b', 'o', 'b']) 50 .other,
    .certificate 1 (certificateOf ['e', 'v', 'e']) 60 (.update 2 { isActive := some false }),
    .advance 1 false, .advance 1 false, .advance 1 false, .advance 1 false]

def afterDeactivation : AccountService :=
  (exec (step ligatures true) { accounts := oneAdministrator } deactivatedInLogin).get (by decide)

theorem settings_last_iff_deactivated :
    ∃ r ∈ afterDeactivation.accounts.rows, r.isActive = false ∧
      ∃ ls t, exec (step ligatures true) afterDeactivation ls = some t ∧
        ∃ r' ∈ t.accounts.rows, r'.id = r.id ∧ ¬ SameSettings r r' := by
  refine ⟨{ id := 2, username := ['b', 'o', 'b'], isActive := false }, by decide, rfl, ?_⟩
  have hnames : ∀ thread user request,
      afterDeactivation.threads thread = .authenticating user request → user.id = 2 →
      ∀ a ∈ afterDeactivation.accounts.rows, a.username = user.username → a.id = user.id := by
    rintro (_ | _ | n) user request hat hid
    · cases hat
      decide
    · cases hat
    · cases hat
  by_contra hlast
  have hagrees := (settings_last_iff ligatures true oneAdministrator constrained_oneAdministrator
    deactivatedInLogin afterDeactivation (Option.some_get _).symm rfl
    { id := 2, username := ['b', 'o', 'b'], isActive := false } (by decide) hnames).mp ?_ 0 _ _
      rfl rfl
  · cases hagrees
  · intro ls t _ hrun r' hr' hid
    by_contra hdiffers
    exact hlast ⟨ls, t, hrun, r', hr', hid, hdiffers⟩

/-- The row that a thread is to write back. -/
def saving : Activity → Option AccountRow
  | .authenticating user _ => some user
  | .validating row body => some (body.apply row)
  | .updating row => some row
  | _ => none

/-- No thread is to write a row of the account back. -/
def LetsGo (id : ℕ) (a : Activity) : Prop := ∀ r, saving a = some r → r.id ≠ id

structure Gone (id : ℕ) (s : AccountService) : Prop where
  absent : id ∉ s.accounts.ids
  held : ∀ thread, LetsGo id (s.threads thread)
  fresh : id < s.accounts.nextId

theorem letsGo_of_none {id : ℕ} (h : saving a = none) : LetsGo id a := by
  intro r hr
  rw [h] at hr
  cases hr

theorem Gone.goto {id : ℕ} (h : Gone id s) (ha : LetsGo id a) : Gone id (s.goto thread a) :=
  ⟨h.absent, forall_goto (LetsGo id) h.held ha, h.fresh⟩

theorem Gone.moves {id : ℕ} (h : Gone id s) (hs : Sound s) (hmoves : Moves m s l s') :
    Gone id s' := by
  have hfresh : id < s'.accounts.nextId := lt_of_lt_of_le h.fresh (hmoves.nextId_le hs)
  have hrow : ∀ r ∈ s.accounts.rows, r.id ≠ id := by
    rintro r hr rfl
    exact h.absent (List.mem_map_of_mem hr)
  cases hmoves with
  | start env salts hstopped =>
    refine ⟨?_, h.held, hfresh⟩
    have hnone := addUsers_invariant (m := m) (P := fun t => id ∉ t.ids ∧ id < t.nextId) ?_
      (env.calls salts) ⟨h.absent, h.fresh⟩
    · exact hnone.1
    · rintro x u u' ⟨habsent, hlt⟩ hadds
      cases hadds with
      | reset => exact ⟨by simpa [Accounts.ids] using habsent, hlt⟩
      | created =>
        refine ⟨?_, Nat.lt_succ_of_lt hlt⟩
        simp only [Accounts.ids, List.map_append, List.mem_append, not_or]
        exact ⟨habsent, by simpa [Mention.account] using hlt.ne⟩
  | crash => exact ⟨h.absent, fun _ => letsGo_of_none rfl, h.fresh⟩
  | refused l => exact h
  | login l thread user now request hidle hr =>
    refine h.goto ?_
    rintro r' he
    exact Option.some.inj he ▸ hrow user hr
  | entered l thread user request hidle hr => exact h.goto (letsGo_of_none rfl)
  | portal thread user granted request a hidle hfound ha =>
    refine Gone.goto ⟨h.absent, h.held, h.fresh⟩ ?_
    rintro r hsaving rfl
    cases a with
    | authenticating user' request' => exact ha.notLogin user' request' rfl
    | validating row body =>
      obtain rfl := Option.some.inj hsaving
      exact h.absent (ha.rows row (by simp [Activity.rows]))
    | updating row =>
      obtain rfl := Option.some.inj hsaving
      exact h.absent (ha.rows row (by simp [Activity.rows]))
    | _ => cases hsaving
  | ended thread refused htoken => exact h.goto (letsGo_of_none rfl)
  | permitted thread refused user request a hat hsuperuser ha =>
    refine Gone.goto ⟨h.absent, h.held, h.fresh⟩ ?_
    intro r' he
    cases a with
    | authenticating user' request' =>
      exact Option.some.inj he ▸ hrow user' (ha.rows (by simp [Activity.rows]))
    | validating row body =>
      exact Option.some.inj he ▸ hrow row (ha.rows (by simp [Activity.rows]))
    | updating row => exact Option.some.inj he ▸ hrow row (ha.rows (by simp [Activity.rows]))
    | _ => cases he
  | saved thread refused user request accounts hat hsave =>
    have huser : user.id ≠ id := h.held thread user (by rw [hat]; rfl)
    refine Gone.goto ⟨?_, h.held, hfresh⟩ (letsGo_of_none (by split_ifs <;> rfl))
    exact fun hid => ((mem_ids_save hsave).mp hid).elim h.absent fun he => huser he.symm
  | restored thread refused user request accounts hat hcreate =>
    obtain ⟨-, -, rfl⟩ := createToken_cases hcreate
    exact Gone.goto ⟨h.absent, h.held, h.fresh⟩ (letsGo_of_none rfl)
  | validated thread refused row body hat =>
    refine h.goto ?_
    intro r' he
    exact h.held thread r' (by rw [hat]; exact he)
  | updated thread refused row accounts hat hsave =>
    have hwritten : row.id ≠ id := h.held thread row (by rw [hat]; rfl)
    refine Gone.goto ⟨?_, h.held, hfresh⟩ (letsGo_of_none (by split_ifs <;> rfl))
    exact fun hid => ((mem_ids_save hsave).mp hid).elim h.absent fun he => hwritten he.symm
  | inserted thread refused body password hat hfree =>
    refine Gone.goto ⟨?_, h.held, hfresh⟩ (letsGo_of_none rfl)
    simp only [Accounts.ids, Accounts.insert, List.map_append, List.mem_append, not_or]
    exact ⟨h.absent, by simpa [newRow, AccountChanges.apply] using h.fresh.ne⟩
  | tokenCreated thread refused user accounts hat hcreate =>
    obtain ⟨-, -, rfl⟩ := createToken_cases hcreate
    exact Gone.goto ⟨h.absent, h.held, h.fresh⟩ (letsGo_of_none rfl)
  | deleted thread refused pk hat =>
    refine Gone.goto ⟨?_, h.held, h.fresh⟩ (letsGo_of_none rfl)
    exact fun hid => h.absent (mem_ids_delete.mp hid).1

/-- A thread that is to write back a row whose name is free brings its account back. -/
theorem restores_of_saving (hrunning : s.running = true)
    (hsaving : saving (s.threads thread) = some r) (hfree : r.username ∉ s.accounts.usernames) :
    ∃ ls t, exec (step m certificates) s ls = some t ∧ r.id ∈ t.accounts.ids := by
  have hnames : ∀ a ∈ s.accounts.rows, a.username = r.username → a.id = r.id :=
    fun a ha hname => absurd (hname ▸ List.mem_map_of_mem ha) hfree
  cases hat : s.threads thread with
  | authenticating user request =>
    rw [hat] at hsaving
    obtain rfl := Option.some.inj hsaving
    obtain ⟨t, ht, hmem⟩ := stores_of_free hrunning (.inl ⟨request, hat⟩) hnames
    exact ⟨[.advance thread false], t, exec_cons.mpr ⟨t, ht, rfl⟩, List.mem_map_of_mem hmem⟩
  | updating row =>
    rw [hat] at hsaving
    obtain rfl := Option.some.inj hsaving
    obtain ⟨t, ht, hmem⟩ := stores_of_free hrunning (.inr hat) hnames
    exact ⟨[.advance thread false], t, exec_cons.mpr ⟨t, ht, rfl⟩, List.mem_map_of_mem hmem⟩
  | validating row body =>
    rw [hat] at hsaving
    obtain rfl := Option.some.inj hsaving
    have hfound : nameTaken s.accounts row body = false := by
      rw [nameTaken, Bool.and_eq_false_iff]
      right
      rw [List.any_eq_false]
      intro a ha
      simpa using fun hne hname => hne (hnames a ha hname)
    have hvalid : step m certificates s (.advance thread false) =
        some (s.goto thread (.updating (body.apply row))) := by
      simp [step, hrunning, advance, hat, hfound]
    have hupdating : (s.goto thread (.updating (body.apply row))).threads thread =
        .updating (body.apply row) := by
      simp [goto_threads]
    obtain ⟨t, ht, hmem⟩ := stores_of_free (s := s.goto thread (.updating (body.apply row)))
      hrunning (.inr hupdating) hnames
    exact ⟨[.advance thread false, .advance thread false], t,
      exec_cons.mpr ⟨_, hvalid, exec_cons.mpr ⟨t, ht, rfl⟩⟩, List.mem_map_of_mem hmem⟩
  | _ =>
    rw [hat] at hsaving
    cases hsaving

/-- From any state of any run in which an account is deleted, and as long as its names
are free, the account stays deleted in every continuation exactly when no thread is to
write a row of it back. -/
theorem deleted_for_good_iff (m : UserManager) (certificates : Bool) (accounts : Accounts)
    (h : accounts.Constrained) (before : List AccountLabel) (s : AccountService)
    (hreach : exec (step m certificates) { accounts } before = some s) (hrunning : s.running = true)
    (id : ℕ) (hgone : id ∉ s.accounts.ids) (hissued : id < s.accounts.nextId)
    (hnames : ∀ thread r, saving (s.threads thread) = some r → r.id = id →
      r.username ∉ s.accounts.usernames) :
    (∀ ls t, exec (step m certificates) s ls = some t → id ∉ t.accounts.ids) ↔
      ∀ thread, LetsGo id (s.threads thread) := by
  have hs := sound_run h hreach
  constructor
  · intro habsent thread r hr hid
    obtain ⟨ls, t, hrun, hback⟩ := restores_of_saving hrunning hr (hnames thread r hr hid)
    exact habsent ls t hrun (hid ▸ hback)
  · intro hheld ls t hrun
    have hends := exec_invariant (I := fun s => Sound s ∧ Gone id s)
      (fun _ _ _ hs _ hstep => ⟨hs.1.moves (step_moves hstep), hs.2.moves hs.1 (step_moves hstep)⟩)
      ⟨hs, hgone, hheld, hissued⟩ (Along.of_forall (fun _ _ => trivial) _ ls) hrun
    exact hends.2.absent

def afterDeletion : AccountService :=
  (exec (step ligatures true) { accounts := oneAdministrator } (deletedInLogin.take 6)).get
    (by decide)

/-- The deleted account comes back when the login goes on that was under way. -/
theorem deleted_for_good_iff_login : 2 ∉ afterDeletion.accounts.ids ∧
    ∃ ls t, exec (step ligatures true) afterDeletion ls = some t ∧ 2 ∈ t.accounts.ids := by
  refine ⟨by decide, ?_⟩
  have hnames : ∀ thread r, saving (afterDeletion.threads thread) = some r → r.id = 2 →
      r.username ∉ afterDeletion.accounts.usernames := by
    rintro (_ | _ | n) r hsaving hid
    · cases hsaving
      decide
    · cases hsaving
    · cases hsaving
  by_contra hnever
  have hheld := (deleted_for_good_iff ligatures true oneAdministrator constrained_oneAdministrator
    (deletedInLogin.take 6) afterDeletion (Option.some_get _).symm rfl 2 (by decide) (by decide)
    hnames).mp ?_ 0
  · exact hheld _ rfl rfl
  · intro ls t hrun hmem
    exact hnever ⟨ls, t, hrun, hmem⟩

/-! ### A login by itself -/

/-- The columns that authentication is about. -/
def toUser (r : AccountRow) : User := ⟨r.username, r.lastLogin⟩

theorem get?_toUser (cn : List Char) (rows : List AccountRow) :
    Table.get? User.username cn (rows.map toUser) =
      (Table.get? AccountRow.username cn rows).map toUser := by
  simp only [Table.get?, List.find?_map]
  rfl

/-- The row that a login writes back is the row that it has read, with the new time. -/
theorem save_login {accounts : Accounts} (h : accounts.Constrained) (hr : r ∈ accounts.rows)
    (now : ℤ) :
    ∃ after, accounts.save { r with lastLogin := some now } = some after ∧
      after.rows.map toUser = Table.update User.username r.username
        (fun _ => ⟨r.username, some now⟩) (accounts.rows.map toUser) := by
  have hsame : ∀ a ∈ accounts.rows, a.username = r.username ↔ a.id = r.id := fun a ha =>
    ⟨fun he => congrArg AccountRow.id (Table.eq_of_key_eq h.usernames ha hr he),
      fun he => congrArg AccountRow.username (Table.eq_of_key_eq h.ids ha hr he)⟩
  obtain ⟨after, hafter, -⟩ := save_of_free (r := { r with lastLogin := some now })
    fun a ha he => (hsame a ha).mp he
  refine ⟨after, hafter, ?_⟩
  obtain ⟨-, ⟨-, rfl⟩ | ⟨hnew, -⟩⟩ := save_cases hafter
  · simp only [Table.update, List.map_map]
    apply List.map_congr_left
    intro a ha
    simp only [Function.comp_apply, toUser, hsame a ha]
    split_ifs <;> rfl
  · exact absurd (List.mem_map_of_mem hr) hnew

theorem getCnFromDn_nil : getCnFromDn [] = none := rfl

/-- The two statements of a login, with nothing between them, do what `authenticate`
does to the table. -/
theorem login_undisturbed (hs : s.accounts.Constrained) (hrunning : s.running = true)
    (hidle : s.threads thread = .idle) (certDn : List Char) (now : ℤ) (request : AccountRequest) :
    (step m true s (.certificate thread certDn now request) = some s ∧
        (authenticate now (some certDn) (s.accounts.rows.map toUser)).2 =
          s.accounts.rows.map toUser ∧
        ∀ user, (authenticate now (some certDn)
          (s.accounts.rows.map toUser)).1 ≠ .ok (some user)) ∨
      ∃ r t, exec (step m true) s
          [.certificate thread certDn now request, .advance thread false] = some t ∧
        t.threads thread = .authenticated r request ∧
        authenticate now (some certDn) (s.accounts.rows.map toUser) =
          (.ok (some (toUser r)), t.accounts.rows.map toUser) := by
  cases certDn with
  | nil =>
    exact .inl ⟨by simp [step, enters, hrunning, hidle, getCnFromDn_nil], rfl,
      by simp [authenticate]⟩
  | cons c rest =>
    cases hcn : getCnFromDn (c :: rest) with
    | none => exact .inl (by simp [step, enters, hrunning, hidle, hcn, authenticate])
    | some cn =>
      cases hr : Table.get? AccountRow.username cn s.accounts.rows with
      | none =>
        exact .inl (by simp [step, enters, hrunning, hidle, hcn, hr, authenticate, get?_toUser])
      | some r =>
        right
        have hname : r.username = cn := Table.key_of_get? hr
        have hmem : r ∈ s.accounts.rows := Table.mem_of_get? hr
        obtain ⟨accounts, hsave, hrows⟩ := save_login hs hmem now
        obtain ⟨s₁, hs₁⟩ : ∃ s₁, s₁ =
            s.goto thread (.authenticating { r with lastLogin := some now } request) := ⟨_, rfl⟩
        have hlogin : step m true s (.certificate thread (c :: rest) now request) = some s₁ := by
          simp [step, enters, hrunning, hidle, hcn, hr, hs₁]
        have hstored : r.id ∈ s.accounts.ids := List.mem_map_of_mem hmem
        have hwrite : step m true s₁ (.advance thread false) =
            some ({ s₁ with accounts := accounts }.goto thread
              (.authenticated { r with lastLogin := some now } request)) := by
          simp [hs₁, step, goto, hrunning, advance, hsave, hstored]
        refine ⟨{ r with lastLogin := some now }, _,
          exec_cons.mpr ⟨s₁, hlogin, exec_cons.mpr ⟨_, hwrite, rfl⟩⟩, ?_, ?_⟩
        · rw [goto_threads, if_pos rfl]
        · subst hname
          simp [authenticate, hcn, get?_toUser, hr, toUser, ← hrows]

end ScosSensor.AccountService
