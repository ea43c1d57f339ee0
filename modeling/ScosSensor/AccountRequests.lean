import ScosSensor.Accounts
import ScosSensor.Runs

/-!
# Requests beside each other

The threads of the server answer requests at the same time. Each request of the API is
first authenticated, by a certificate or by a token, and is then permitted to the
accounts of administrators only; the portal is open to the staff. What is read and what
is written are steps of their own. A login by certificate reads the account and later
writes the whole row back, which inserts it when it is gone, and so does an update. The
token of an account that is inserted is made by a signal, in a step of its own.
-/
namespace ScosSensor

open Runs CertificateAuthentication

/-- The columns that a body sets, as the serializer gives them. -/
structure AccountChanges where
  username : Option (List Char) := none
  email : Option (Option (List Char)) := none
  isActive : Option Bool := none
  deriving Repr, DecidableEq

def AccountChanges.apply (c : AccountChanges) (r : AccountRow) : AccountRow :=
  { r with
    username := c.username.getD r.username
    email := c.email.getD r.email
    isActive := c.isActive.getD r.isActive }

/-- A request to `UserDetailsListView` or `UserDetailsView`, to another view, or to that
of the schema, which only asks for a login. -/
inductive AccountRequest where
  | create (body : AccountChanges)
  | update (pk : ℕ) (body : AccountChanges)
  | destroy (pk : ℕ)
  | other
  | schema
  deriving Repr, DecidableEq

/-- The columns that the forms of the portal set. -/
structure PortalForm where
  username : List Char
  email : Option (List Char)
  password : Password
  isStaff : Bool
  isSuperuser : Bool
  isActive : Bool
  lastLogin : Option ℤ
  deriving Repr, DecidableEq

def PortalForm.apply (f : PortalForm) (r : AccountRow) : AccountRow where
  id := r.id
  username := f.username
  email := f.email
  password := f.password
  isStaff := f.isStaff
  isSuperuser := f.isSuperuser
  isActive := f.isActive
  lastLogin := f.lastLogin

/-- A request to the pages of `UserAdmin`. -/
inductive PortalRequest where
  | add (username : List Char) (password : Password)
  | change (pk : ℕ) (form : PortalForm)
  | delete (pk : ℕ)
  deriving Repr, DecidableEq

/-- What a thread is about to do. -/
inductive Activity where
  | idle
  | authenticating (user : AccountRow) (request : AccountRequest)
  | restoring (user : AccountRow) (request : AccountRequest)
  | authenticated (user : AccountRow) (request : AccountRequest)
  | inserting (body : AccountChanges) (password : Password)
  | validating (row : AccountRow) (body : AccountChanges)
  | updating (row : AccountRow)
  | creatingToken (user : ℕ)
  | deleting (pk : ℕ)
  deriving Repr, DecidableEq

namespace Accounts

/-- `save()`: an update of the row with the id, or else an insertion. `none` is an
`IntegrityError`. -/
def save (r : AccountRow) (s : Accounts) : Option Accounts :=
  if s.rows.any fun a => a.id ≠ r.id && a.username = r.username then none
  else if r.id ∈ s.ids then
    some { s with rows := Table.update AccountRow.id r.id (fun _ => r) s.rows }
  else some { s with rows := s.rows ++ [r] }

/-- `Token.objects.create(user=instance)`. -/
def createToken (user : ℕ) (s : Accounts) : Option Accounts :=
  if user ∈ s.ids ∧ user ∉ s.owners then
    some { s with tokens := s.tokens ++ [⟨s.nextKey, user⟩], nextKey := s.nextKey + 1 }
  else none

/-- The row that a request to create an account inserts. -/
def newRow (body : AccountChanges) (password : Password) (s : Accounts) : AccountRow :=
  body.apply { id := s.nextId, username := [], password }

def insert (r : AccountRow) (s : Accounts) : Accounts :=
  { s with rows := s.rows ++ [r], nextId := s.nextId + 1 }

/-- The account goes with its token. -/
def delete (pk : ℕ) (s : Accounts) : Accounts :=
  { s with
    rows := Table.remove AccountRow.id pk s.rows
    tokens := s.tokens.filter fun token => token.user ≠ pk }

end Accounts

/-- The server with its threads. `permitted` are the accounts whose requests have been
let through as an administrator's, and `appointed` those that startups have made, or
requests of the portal are to make, an administrator's. -/
structure AccountService where
  accounts : Accounts
  threads : ℕ → Activity := fun _ => .idle
  running : Bool := false
  permitted : List ℕ := []
  appointed : List ℕ := []

/-- A startup, the authentication of a request by either means, a request to the portal,
the next step of a thread, and a crash of the process. A session is one that the browser
holds, and `granted` is that the account has been given the permission it needs. -/
inductive AccountLabel where
  | start (env : Environ) (salts : List ℕ)
  | certificate (thread : ℕ) (certDn : List Char) (now : ℤ) (request : AccountRequest)
  | token (thread : ℕ) (key : ℕ) (request : AccountRequest)
  | session (thread : ℕ) (user : ℕ) (request : AccountRequest)
  | portal (thread : ℕ) (user : ℕ) (granted : Bool) (request : PortalRequest)
  | advance (thread : ℕ) (refused : Bool)
  | crash
  deriving Repr, DecidableEq

namespace AccountService

def goto (s : AccountService) (thread : ℕ) (a : Activity) : AccountService :=
  { s with threads := Function.update s.threads thread a }

/-- The first statement of a request that is permitted. -/
def begin (accounts : Accounts) : AccountRequest → Activity
  | .create body =>
    if body.username.isNone || accounts.taken (accounts.newRow body .blank).username then .idle
    else .inserting body .blank
  | .update pk body =>
    match Table.get? AccountRow.id pk accounts.rows with
    | none => .idle
    | some r => .validating r body
  | .destroy pk => if pk ∈ accounts.ids then .deleting pk else .idle
  | .other | .schema => .idle

/-- What a request of the staff to the portal goes on to do. -/
def beginPortal (accounts : Accounts) : PortalRequest → Option Activity
  | .add username password =>
    if accounts.taken username then none
    else some (.inserting { username := some username } password)
  | .change pk form =>
    (Table.get? AccountRow.id pk accounts.rows).map fun r => .updating (form.apply r)
  | .delete pk => if pk ∈ accounts.ids then some (.deleting pk) else none

/-- `AdminSite.has_permission`, and the permission for the request. -/
def portalActivity (accounts : Accounts) (user : ℕ) (granted : Bool) (request : PortalRequest) :
    Option Activity := do
  let r ← Table.get? AccountRow.id user accounts.rows
  if r.isActive && r.isStaff && (r.isSuperuser || granted) then beginPortal accounts request
  else none

/-- The account that a request of the portal makes an administrator's. -/
def appointee : Option Activity → List ℕ
  | some (.updating r) => if r.isSuperuser then [r.id] else []
  | _ => []

/-- The unique validator of the serializer, which leaves the instance out. -/
def nameTaken (accounts : Accounts) (r : AccountRow) (body : AccountChanges) : Bool :=
  body.username.isSome &&
    accounts.rows.any fun a => a.id ≠ r.id && a.username = (body.apply r).username

/-- The next step of a thread. `refused` is that entries of the account have results. -/
def advance (s : AccountService) (thread : ℕ) (refused : Bool) : Option AccountService :=
  match s.threads thread with
  | .idle => none
  | .authenticating user request =>
    match s.accounts.save user with
    | none => some (s.goto thread .idle)
    | some accounts => some ({ s with accounts := accounts }.goto thread
        (if user.id ∈ s.accounts.ids then .authenticated user request else .restoring user request))
  | .restoring user request =>
    match s.accounts.createToken user.id with
    | none => some (s.goto thread .idle)
    | some accounts =>
      some ({ s with accounts := accounts }.goto thread (.authenticated user request))
  | .authenticated user request =>
    if request = .schema then some (s.goto thread .idle)
    else if user.isSuperuser then
      some ({ s with permitted := s.permitted ++ [user.id] }.goto thread (begin s.accounts request))
    else some (s.goto thread .idle)
  | .inserting body password =>
    if s.accounts.taken (s.accounts.newRow body password).username then some (s.goto thread .idle)
    else some ({ s with accounts := s.accounts.insert (s.accounts.newRow body password) }.goto
      thread (.creatingToken s.accounts.nextId))
  | .validating r body =>
    if nameTaken s.accounts r body then some (s.goto thread .idle)
    else some (s.goto thread (.updating (body.apply r)))
  | .updating r =>
    match s.accounts.save r with
    | none => some (s.goto thread .idle)
    | some accounts => some ({ s with accounts := accounts }.goto thread
        (if r.id ∈ s.accounts.ids then .idle else .creatingToken r.id))
  | .creatingToken user =>
    match s.accounts.createToken user with
    | none => some (s.goto thread .idle)
    | some accounts => some ({ s with accounts := accounts }.goto thread .idle)
  | .deleting pk =>
    if refused then some (s.goto thread .idle)
    else some ({ s with accounts := s.accounts.delete pk }.goto thread .idle)

/-- A request of an account is taken by a thread that has none. -/
def enters (s : AccountService) (thread : ℕ) (found : Option Activity) : Option AccountService :=
  if s.running && s.threads thread = .idle then
    some (match found with
      | none => s
      | some a => s.goto thread a)
  else none

/-- `certificates` is that `AUTHENTICATION` is `CERT`. Without it the tokens and the
sessions of accounts that are active are taken. -/
def step (m : UserManager) (certificates : Bool) (s : AccountService) :
    AccountLabel → Option AccountService
  | .start env salts =>
    if s.running then none
    else
      let (err, accounts) := ready m false env salts s.accounts
      some { s with
        accounts := accounts
        running := err.isNone
        appointed := s.appointed ++ accounts.ids.filter fun id => id ∉ s.accounts.ids }
  | .certificate thread certDn now request =>
    if certificates then
      s.enters thread (do
        let cn ← getCnFromDn certDn
        let r ← Table.get? AccountRow.username cn s.accounts.rows
        some (.authenticating { r with lastLogin := some now } request))
    else none
  | .token thread key request =>
    if certificates then none
    else
      s.enters thread (do
        let token ← s.accounts.tokens.find? fun token => token.key = key
        let r ← Table.get? AccountRow.id token.user s.accounts.rows
        if r.isActive then some (.authenticated r request) else none)
  | .session thread user request =>
    if certificates then none
    else
      s.enters thread (do
        let r ← Table.get? AccountRow.id user s.accounts.rows
        if r.isActive then some (.authenticated r request) else none)
  | .portal thread user granted request =>
    let found := portalActivity s.accounts user granted request
    (s.enters thread found).map fun t => { t with appointed := t.appointed ++ appointee found }
  | .advance thread refused => if s.running then s.advance thread refused else none
  | .crash => some { s with threads := fun _ => .idle, running := false }

/-! ### What a step can do -/

end AccountService

namespace Activity

/-- The rows of accounts that a thread has in hand. -/
def rows : Activity → List AccountRow
  | .authenticating user _ => [user]
  | .restoring user _ => [user]
  | .authenticated user _ => [user]
  | .validating row _ => [row]
  | .updating row => [row]
  | _ => []

/-- The account that a thread makes a token of next. -/
def tokenFor : Activity → Option ℕ
  | .restoring user _ => some user.id
  | .creatingToken user => some user
  | _ => none

end Activity

namespace AccountService

variable {m : UserManager} {certificates : Bool} {s s' : AccountService} {l : AccountLabel}

/-- The first step of a permitted request has read one stored row at most. -/
structure Begins (accounts : Accounts) (a : Activity) : Prop where
  rows : a.rows ⊆ accounts.rows
  tokenFor : a.tokenFor = none

theorem begins_begin (accounts : Accounts) (request : AccountRequest) :
    Begins accounts (begin accounts request) := by
  cases request with
  | create body =>
    simp only [begin]
    split_ifs
    · exact ⟨List.nil_subset _, rfl⟩
    · exact ⟨List.nil_subset _, rfl⟩
  | update pk body =>
    simp only [begin]
    cases hr : Table.get? AccountRow.id pk accounts.rows with
    | none => exact ⟨List.nil_subset _, rfl⟩
    | some r => exact ⟨by simpa [Activity.rows] using Table.mem_of_get? hr, rfl⟩
  | destroy pk =>
    simp only [begin]
    split_ifs
    · exact ⟨List.nil_subset _, rfl⟩
    · exact ⟨List.nil_subset _, rfl⟩
  | other | schema => exact ⟨List.nil_subset _, rfl⟩

/-- A request of the portal has one stored account in hand at most, and no token to make. -/
structure PortalBegins (accounts : Accounts) (a : Activity) : Prop where
  rows : ∀ r ∈ a.rows, r.id ∈ accounts.ids
  appointed : ∀ r ∈ a.rows, r.isSuperuser = true → r.id ∈ appointee (some a)
  tokenFor : a.tokenFor = none
  notLogin : ∀ user request, a ≠ .authenticating user request

theorem portalBegins {accounts : Accounts} {user : ℕ} {granted : Bool} {request : PortalRequest}
    {a : Activity} (h : portalActivity accounts user granted request = some a) :
    PortalBegins accounts a := by
  simp only [portalActivity, Option.bind_eq_bind, Option.bind_eq_some_iff] at h
  obtain ⟨r, -, h⟩ := h
  split_ifs at h
  cases request with
  | add username password =>
    simp only [beginPortal] at h
    split_ifs at h
    obtain rfl := Option.some.inj h
    exact ⟨by simp [Activity.rows], by simp [Activity.rows], rfl, by simp⟩
  | change pk form =>
    obtain ⟨row, hrow, rfl⟩ := Option.map_eq_some_iff.mp h
    refine ⟨?_, ?_, rfl, by simp⟩
    · intro r hr
      obtain rfl := List.mem_singleton.mp hr
      show row.id ∈ accounts.ids
      exact List.mem_map_of_mem (Table.mem_of_get? hrow)
    · intro r hr hsuper
      obtain rfl := List.mem_singleton.mp hr
      simp [appointee, hsuper]
  | delete pk =>
    simp only [beginPortal] at h
    split_ifs at h
    obtain rfl := Option.some.inj h
    exact ⟨by simp [Activity.rows], by simp [Activity.rows], rfl, by simp⟩

/-- The moves of the server. A thread that ends has no token left to make, or one that
the database refuses. -/
inductive Moves (m : UserManager) (s : AccountService) : AccountLabel → AccountService → Prop
  | start (env : Environ) (salts : List ℕ) (hstopped : s.running = false) :
    Moves m s (.start env salts) { s with
      accounts := (ready m false env salts s.accounts).2
      running := (ready m false env salts s.accounts).1.isNone
      appointed := s.appointed ++
        (ready m false env salts s.accounts).2.ids.filter fun id => id ∉ s.accounts.ids }
  | crash : Moves m s .crash { s with threads := fun _ => .idle, running := false }
  | refused (l : AccountLabel) : Moves m s l s
  | login (l : AccountLabel) (thread : ℕ) (r : AccountRow) (now : ℤ) (request : AccountRequest)
    (hidle : s.threads thread = .idle) (hr : r ∈ s.accounts.rows) :
    Moves m s l (s.goto thread (.authenticating { r with lastLogin := some now } request))
  | entered (l : AccountLabel) (thread : ℕ) (r : AccountRow) (request : AccountRequest)
    (hidle : s.threads thread = .idle) (hr : r ∈ s.accounts.rows) :
    Moves m s l (s.goto thread (.authenticated r request))
  | portal (thread : ℕ) (user : ℕ) (granted : Bool) (request : PortalRequest) (a : Activity)
    (hidle : s.threads thread = .idle)
    (hfound : portalActivity s.accounts user granted request = some a)
    (ha : PortalBegins s.accounts a) :
    Moves m s (.portal thread user granted request)
      ({ s with appointed := s.appointed ++ appointee (some a) }.goto thread a)
  | ended (thread : ℕ) (refused : Bool)
    (htoken : ∀ id, (s.threads thread).tokenFor = some id →
      id ∉ s.accounts.ids ∨ id ∈ s.accounts.owners) :
    Moves m s (.advance thread refused) (s.goto thread .idle)
  | permitted (thread : ℕ) (refused : Bool) (user : AccountRow) (request : AccountRequest)
    (a : Activity) (hat : s.threads thread = .authenticated user request)
    (hsuperuser : user.isSuperuser = true) (ha : Begins s.accounts a) :
    Moves m s (.advance thread refused)
      ({ s with permitted := s.permitted ++ [user.id] }.goto thread a)
  | saved (thread : ℕ) (refused : Bool) (user : AccountRow) (request : AccountRequest)
    (accounts : Accounts) (hat : s.threads thread = .authenticating user request)
    (hsave : s.accounts.save user = some accounts) :
    Moves m s (.advance thread refused) ({ s with accounts := accounts }.goto thread
      (if user.id ∈ s.accounts.ids then .authenticated user request else .restoring user request))
  | restored (thread : ℕ) (refused : Bool) (user : AccountRow) (request : AccountRequest)
    (accounts : Accounts) (hat : s.threads thread = .restoring user request)
    (hcreate : s.accounts.createToken user.id = some accounts) :
    Moves m s (.advance thread refused)
      ({ s with accounts := accounts }.goto thread (.authenticated user request))
  | validated (thread : ℕ) (refused : Bool) (r : AccountRow) (body : AccountChanges)
    (hat : s.threads thread = .validating r body) :
    Moves m s (.advance thread refused) (s.goto thread (.updating (body.apply r)))
  | updated (thread : ℕ) (refused : Bool) (r : AccountRow) (accounts : Accounts)
    (hat : s.threads thread = .updating r) (hsave : s.accounts.save r = some accounts) :
    Moves m s (.advance thread refused) ({ s with accounts := accounts }.goto thread
      (if r.id ∈ s.accounts.ids then .idle else .creatingToken r.id))
  | inserted (thread : ℕ) (refused : Bool) (body : AccountChanges) (password : Password)
    (hat : s.threads thread = .inserting body password)
    (hfree : (s.accounts.newRow body password).username ∉ s.accounts.usernames) :
    Moves m s (.advance thread refused)
      ({ s with accounts := s.accounts.insert (s.accounts.newRow body password) }.goto thread
        (.creatingToken s.accounts.nextId))
  | tokenCreated (thread : ℕ) (refused : Bool) (user : ℕ) (accounts : Accounts)
    (hat : s.threads thread = .creatingToken user)
    (hcreate : s.accounts.createToken user = some accounts) :
    Moves m s (.advance thread refused) ({ s with accounts := accounts }.goto thread .idle)
  | deleted (thread : ℕ) (refused : Bool) (pk : ℕ) (hat : s.threads thread = .deleting pk) :
    Moves m s (.advance thread refused)
      ({ s with accounts := s.accounts.delete pk }.goto thread .idle)

theorem createToken_eq_none {accounts : Accounts} {user : ℕ}
    (h : accounts.createToken user = none) : user ∉ accounts.ids ∨ user ∈ accounts.owners := by
  unfold Accounts.createToken at h
  split_ifs at h with hok
  rw [not_and_or, not_not] at hok
  exact hok

theorem enters_cases {thread : ℕ} {found : Option Activity}
    (h : s.enters thread found = some s') :
    s.threads thread = .idle ∧
      ((found = none ∧ s' = s) ∨ ∃ a, found = some a ∧ s' = s.goto thread a) := by
  unfold enters at h
  split_ifs at h with hready
  rw [Bool.and_eq_true, decide_eq_true_eq] at hready
  refine ⟨hready.2, ?_⟩
  cases found with
  | none => exact .inl ⟨rfl, (Option.some.inj h).symm⟩
  | some a => exact .inr ⟨a, rfl, (Option.some.inj h).symm⟩

theorem advance_moves {thread : ℕ} {refused : Bool} (h : s.advance thread refused = some s') :
    Moves m s (.advance thread refused) s' := by
  have hends : (s.threads thread).tokenFor = none →
      Moves m s (.advance thread refused) (s.goto thread .idle) :=
    fun hnone => .ended thread refused fun id hid => by rw [hnone] at hid; cases hid
  unfold advance at h
  cases hat : s.threads thread with
  | idle =>
    rw [hat] at h
    cases h
  | authenticating user request =>
    simp only [hat] at h
    cases hsave : s.accounts.save user with
    | none =>
      rw [hsave] at h
      exact Option.some.inj h ▸ hends (by rw [hat]; rfl)
    | some accounts =>
      rw [hsave] at h
      exact Option.some.inj h ▸ .saved thread refused user request accounts hat hsave
  | restoring user request =>
    simp only [hat] at h
    cases hcreate : s.accounts.createToken user.id with
    | none =>
      rw [hcreate] at h
      refine Option.some.inj h ▸ .ended thread refused fun id hid => ?_
      rw [hat] at hid
      exact Option.some.inj hid ▸ createToken_eq_none hcreate
    | some accounts =>
      rw [hcreate] at h
      exact Option.some.inj h ▸ .restored thread refused user request accounts hat hcreate
  | authenticated user request =>
    simp only [hat] at h
    split_ifs at h with hschema hsuperuser
    · exact Option.some.inj h ▸ hends (by rw [hat]; rfl)
    · exact Option.some.inj h ▸
        .permitted thread refused user request _ hat hsuperuser (begins_begin s.accounts request)
    · exact Option.some.inj h ▸ hends (by rw [hat]; rfl)
  | inserting body password =>
    simp only [hat] at h
    split_ifs at h with htaken
    · exact Option.some.inj h ▸ hends (by rw [hat]; rfl)
    · exact Option.some.inj h ▸
        .inserted thread refused body password hat (Accounts.taken_iff.not.mp htaken)
  | validating r body =>
    simp only [hat] at h
    split_ifs at h
    · exact Option.some.inj h ▸ hends (by rw [hat]; rfl)
    · exact Option.some.inj h ▸ .validated thread refused r body hat
  | updating r =>
    simp only [hat] at h
    cases hsave : s.accounts.save r with
    | none =>
      rw [hsave] at h
      exact Option.some.inj h ▸ hends (by rw [hat]; rfl)
    | some accounts =>
      rw [hsave] at h
      exact Option.some.inj h ▸ .updated thread refused r accounts hat hsave
  | creatingToken user =>
    simp only [hat] at h
    cases hcreate : s.accounts.createToken user with
    | none =>
      rw [hcreate] at h
      refine Option.some.inj h ▸ .ended thread refused fun id hid => ?_
      rw [hat] at hid
      exact Option.some.inj hid ▸ createToken_eq_none hcreate
    | some accounts =>
      rw [hcreate] at h
      exact Option.some.inj h ▸ .tokenCreated thread refused user accounts hat hcreate
  | deleting pk =>
    simp only [hat] at h
    split_ifs at h
    · exact Option.some.inj h ▸ hends (by rw [hat]; rfl)
    · exact Option.some.inj h ▸ .deleted thread refused pk hat

theorem step_moves (h : step m certificates s l = some s') : Moves m s l s' := by
  cases l with
  | start env salts =>
    simp only [step] at h
    split_ifs at h with hrunning
    exact Option.some.inj h ▸ .start env salts (by simpa using hrunning)
  | certificate thread certDn now request =>
    simp only [step] at h
    split_ifs at h
    obtain ⟨hidle, ⟨-, rfl⟩ | ⟨a, hfound, rfl⟩⟩ := enters_cases h
    · exact .refused _
    · simp only [Option.bind_eq_bind, Option.bind_eq_some_iff] at hfound
      obtain ⟨cn, -, r, hr, ha⟩ := hfound
      exact Option.some.inj ha ▸ .login _ thread r now request hidle (Table.mem_of_get? hr)
  | token thread key request =>
    simp only [step] at h
    split_ifs at h
    obtain ⟨hidle, ⟨-, rfl⟩ | ⟨a, hfound, rfl⟩⟩ := enters_cases h
    · exact .refused _
    · simp only [Option.bind_eq_bind, Option.bind_eq_some_iff] at hfound
      obtain ⟨token, -, r, hr, ha⟩ := hfound
      split_ifs at ha
      exact Option.some.inj ha ▸ .entered _ thread r request hidle (Table.mem_of_get? hr)
  | session thread user request =>
    simp only [step] at h
    split_ifs at h
    obtain ⟨hidle, ⟨-, rfl⟩ | ⟨a, hfound, rfl⟩⟩ := enters_cases h
    · exact .refused _
    · simp only [Option.bind_eq_bind, Option.bind_eq_some_iff] at hfound
      obtain ⟨r, hr, ha⟩ := hfound
      split_ifs at ha
      exact Option.some.inj ha ▸ .entered _ thread r request hidle (Table.mem_of_get? hr)
  | portal thread user granted request =>
    obtain ⟨t, ht, rfl⟩ := Option.map_eq_some_iff.mp h
    obtain ⟨hidle, ⟨hnone, rfl⟩ | ⟨a, hfound, rfl⟩⟩ := enters_cases ht
    · simp only [hnone, appointee, List.append_nil]
      exact .refused _
    · rw [hfound]
      exact .portal thread user granted request a hidle hfound (portalBegins hfound)
  | advance thread refused =>
    simp only [step] at h
    split_ifs at h
    exact advance_moves h
  | crash => exact Option.some.inj h ▸ .crash

end AccountService

/-! ### What the statements keep -/

namespace Accounts

variable {s s' : Accounts} {r a : AccountRow} {user id : ℕ}

theorem save_cases (h : s.save r = some s') :
    (∀ a ∈ s.rows, a.id ≠ r.id → a.username ≠ r.username) ∧
      ((r.id ∈ s.ids ∧
          s' = { s with rows := Table.update AccountRow.id r.id (fun _ => r) s.rows }) ∨
        (r.id ∉ s.ids ∧ s' = { s with rows := s.rows ++ [r] })) := by
  unfold save at h
  split_ifs at h with htaken hstored
  · refine ⟨?_, .inl ⟨hstored, (Option.some.inj h).symm⟩⟩
    simpa using htaken
  · refine ⟨?_, .inr ⟨hstored, (Option.some.inj h).symm⟩⟩
    simpa using htaken

theorem mem_rows_save (h : s.save r = some s') :
    a ∈ s'.rows ↔ (a ∈ s.rows ∧ a.id ≠ r.id) ∨ a = r := by
  obtain ⟨-, ⟨hstored, rfl⟩ | ⟨hnew, rfl⟩⟩ := save_cases h
  · rw [Table.mem_update]
    refine or_congr_right ⟨?_, ?_⟩
    · rintro ⟨_, _, _, rfl⟩
      rfl
    · rintro rfl
      obtain ⟨old, hold, hid⟩ := List.mem_map.mp hstored
      exact ⟨old, hold, hid, rfl⟩
  · rw [List.mem_append, List.mem_singleton]
    refine or_congr_left ⟨?_, And.left⟩
    intro ha
    exact ⟨ha, fun hid => hnew (hid ▸ List.mem_map_of_mem ha)⟩

theorem mem_ids_save (h : s.save r = some s') : id ∈ s'.ids ↔ id ∈ s.ids ∨ id = r.id := by
  simp only [ids, List.mem_map, mem_rows_save h]
  constructor
  · rintro ⟨a, ⟨ha, -⟩ | rfl, rfl⟩
    · exact .inl ⟨a, ha, rfl⟩
    · exact .inr rfl
  · rintro (⟨a, ha, rfl⟩ | rfl)
    · by_cases hid : a.id = r.id
      · exact ⟨r, .inr rfl, hid.symm⟩
      · exact ⟨a, .inl ⟨ha, hid⟩, rfl⟩
    · exact ⟨r, .inr rfl, rfl⟩

theorem owners_save (h : s.save r = some s') : s'.owners = s.owners := by
  obtain ⟨-, ⟨-, rfl⟩ | ⟨-, rfl⟩⟩ := save_cases h <;> rfl

theorem nextId_save (h : s.save r = some s') : s'.nextId = s.nextId := by
  obtain ⟨-, ⟨-, rfl⟩ | ⟨-, rfl⟩⟩ := save_cases h <;> rfl

theorem Constrained.save (hs : s.Constrained) (hr : r.id < s.nextId) (h : s.save r = some s') :
    s'.Constrained := by
  have hfresh : ∀ id ∈ s'.ids, id < s'.nextId := by
    intro id hid
    rw [nextId_save h]
    rcases (mem_ids_save h).mp hid with hold | rfl
    · exact hs.fresh id hold
    · exact hr
  have howned : ∀ id ∈ s'.owners, id ∈ s'.ids := by
    intro id hid
    rw [owners_save h] at hid
    exact (mem_ids_save h).mpr (.inl (hs.owned id hid))
  have howners : s'.owners.Nodup := owners_save h ▸ hs.owners
  obtain ⟨hfree, ⟨hstored, rfl⟩ | ⟨hnew, rfl⟩⟩ := save_cases h
  · refine ⟨?_, ?_, hfresh, howners, howned⟩
    · rw [Accounts.ids, Table.keys_update fun _ _ => rfl]
      exact hs.ids
    · rw [Accounts.usernames, Table.update, List.map_map]
      refine (List.Nodup.of_map _ hs.ids).map_on ?_
      intro a ha b hb he
      simp only [Function.comp_apply] at he
      by_cases hida : a.id = r.id <;> by_cases hidb : b.id = r.id
      · exact List.inj_on_of_nodup_map hs.ids ha hb (hida.trans hidb.symm)
      · rw [if_pos hida, if_neg hidb] at he
        exact absurd he.symm (hfree b hb hidb)
      · rw [if_neg hida, if_pos hidb] at he
        exact absurd he (hfree a ha hida)
      · rw [if_neg hida, if_neg hidb] at he
        exact List.inj_on_of_nodup_map hs.usernames ha hb he
  · refine ⟨Table.nodup_append_row hs.ids hnew, Table.nodup_append_row hs.usernames ?_, hfresh,
      howners, howned⟩
    intro hname
    obtain ⟨a, ha, hsame⟩ := List.mem_map.mp hname
    exact hfree a ha (fun hid => hnew (hid ▸ List.mem_map_of_mem ha)) hsame

theorem createToken_cases (h : s.createToken user = some s') : user ∈ s.ids ∧ user ∉ s.owners ∧
    s' = { s with tokens := s.tokens ++ [⟨s.nextKey, user⟩], nextKey := s.nextKey + 1 } := by
  unfold createToken at h
  split_ifs at h with hok
  exact ⟨hok.1, hok.2, (Option.some.inj h).symm⟩

theorem owners_createToken (h : s.createToken user = some s') : s'.owners = s.owners ++ [user] := by
  obtain ⟨-, -, rfl⟩ := createToken_cases h
  simp [owners]

theorem Constrained.createToken (hs : s.Constrained) (h : s.createToken user = some s') :
    s'.Constrained := by
  have howners := owners_createToken h
  obtain ⟨hstored, hnone, rfl⟩ := createToken_cases h
  refine ⟨hs.ids, hs.usernames, hs.fresh, ?_, ?_⟩
  · rw [howners]
    exact hs.owners.append (List.nodup_singleton _) (List.disjoint_singleton.mpr hnone)
  · intro id hid
    rw [howners, List.mem_append, List.mem_singleton] at hid
    rcases hid with hold | rfl
    · exact hs.owned id hold
    · exact hstored

theorem Constrained.insert (hs : s.Constrained) (hid : r.id = s.nextId)
    (hfree : r.username ∉ s.usernames) : (s.insert r).Constrained := by
  have hnew : r.id ∉ s.ids := by
    rw [hid]
    exact fun h => lt_irrefl _ (hs.fresh _ h)
  refine ⟨Table.nodup_append_row hs.ids hnew, Table.nodup_append_row hs.usernames hfree, ?_,
    hs.owners, ?_⟩
  · intro id' h
    simp only [Accounts.ids, Accounts.insert, List.map_append, List.map_singleton, List.mem_append,
      List.mem_singleton, hid] at h
    rcases h with hold | rfl
    · exact Nat.lt_succ_of_lt (hs.fresh id' hold)
    · exact Nat.lt_succ_self _
  · intro id' h
    simp only [Accounts.ids, Accounts.insert, List.map_append, List.mem_append]
    exact .inl (hs.owned id' h)

theorem mem_owners_delete : id ∈ (s.delete user).owners ↔ id ∈ s.owners ∧ id ≠ user := by
  simp only [owners, delete, List.mem_map, List.mem_filter, decide_eq_true_eq]
  constructor
  · rintro ⟨token, ⟨htoken, hne⟩, rfl⟩
    exact ⟨⟨token, htoken, rfl⟩, hne⟩
  · rintro ⟨⟨token, htoken, rfl⟩, hne⟩
    exact ⟨token, ⟨htoken, hne⟩, rfl⟩

theorem mem_ids_delete : id ∈ (s.delete user).ids ↔ id ∈ s.ids ∧ id ≠ user := by
  simp only [ids, delete, List.mem_map, Table.mem_remove]
  constructor
  · rintro ⟨r, ⟨hr, hne⟩, rfl⟩
    exact ⟨⟨r, hr, rfl⟩, hne⟩
  · rintro ⟨⟨r, hr, rfl⟩, hne⟩
    exact ⟨r, ⟨hr, hne⟩, rfl⟩

theorem Constrained.delete (hs : s.Constrained) (user : ℕ) : (s.delete user).Constrained := by
  refine ⟨Table.nodup_remove hs.ids, ?_, ?_, ?_, ?_⟩
  · exact hs.usernames.sublist (List.filter_sublist.map AccountRow.username)
  · exact fun id hid => hs.fresh id (mem_ids_delete.mp hid).1
  · exact hs.owners.sublist (List.filter_sublist.map Token.user)
  · intro id hid
    obtain ⟨hold, hne⟩ := mem_owners_delete.mp hid
    exact mem_ids_delete.mpr ⟨hs.owned id hold, hne⟩

end Accounts

end ScosSensor
