import ScosSensor.CertificateAuth
import ScosSensor.Table
import Mathlib.Data.List.DropRight

/-!
# Accounts from the environment

When the application starts, it makes the accounts that the environment names, or
resets the password of those that exist. The accounts are taken one by one, each
mention in a statement of its own, and the first one that cannot be stored ends the
startup. What a startup leaves of an account is what its last mention says.
-/
namespace ScosSensor

open CertificateAuthentication (isSpace)

/-- What the password column holds. No text matches a blank or an unusable one. The salt
is random, as is the suffix of an unusable one. -/
inductive Password where
  | blank
  | unusable (suffix : ℕ)
  | hash (salt : ℕ) (raw : List Char)
  deriving Repr, DecidableEq

/-- `make_password(raw)`, which draws a salt. -/
def makePassword (salt : ℕ) : Option (List Char) → Password
  | none => .unusable salt
  | some raw => .hash salt raw

/-- What a password is apart from what was drawn for it. -/
def Password.unsalted : Password → Password
  | .blank => .blank
  | .unusable _ => .unusable 0
  | .hash _ raw => .hash 0 raw

@[simp] theorem unsalted_makePassword (salt : ℕ) (raw : Option (List Char)) :
    (makePassword salt raw).unsalted = makePassword 0 raw := by
  cases raw <;> rfl

structure AccountRow where
  id : ℕ
  username : List Char
  email : Option (List Char) := none
  password : Password := .blank
  isStaff : Bool := false
  isSuperuser : Bool := false
  isActive : Bool := true
  lastLogin : Option ℤ := none
  deriving Repr, DecidableEq

/-- A key of a token is random, and none is drawn twice: the keys are numbered. -/
structure Token where
  key : ℕ
  user : ℕ
  deriving Repr, DecidableEq

/-- The tables of the accounts and of their tokens. -/
structure Accounts where
  rows : List AccountRow := []
  tokens : List Token := []
  nextId : ℕ := 1
  nextKey : ℕ := 0
  deriving Repr, DecidableEq

def Accounts.ids (s : Accounts) : List ℕ := s.rows.map AccountRow.id

def Accounts.usernames (s : Accounts) : List (List Char) := s.rows.map AccountRow.username

def Accounts.taken (name : List Char) (s : Accounts) : Bool := name ∈ s.usernames

theorem Accounts.taken_iff {name : List Char} {s : Accounts} :
    s.taken name = true ↔ name ∈ s.usernames := decide_eq_true_iff

def Accounts.owners (s : Accounts) : List ℕ := s.tokens.map Token.user

/-- What the database makes sure of. -/
structure Accounts.Constrained (s : Accounts) : Prop where
  ids : s.ids.Nodup
  usernames : s.usernames.Nodup
  fresh : ∀ id ∈ s.ids, id < s.nextId
  owners : s.owners.Nodup
  owned : ∀ id ∈ s.owners, id ∈ s.ids

/-- What `UserManager` does with a name and an address, and which of them the columns
hold: names of at most 150 characters, and addresses of at most 254. -/
structure UserManager where
  normalizeUsername : List Char → List Char
  normalizeEmail : List Char → List Char
  fits : List Char → Bool
  fitsEmail : List Char → Bool

/-- A normal form is its own normal form, no character is lost on the way to it, and an
address that is not given can be stored. -/
structure UserManager.Lawful (m : UserManager) : Prop where
  idempotent : ∀ name, m.normalizeUsername (m.normalizeUsername name) = m.normalizeUsername name
  nonempty : ∀ name, m.normalizeUsername name = [] → name = []
  noEmail : m.fitsEmail (m.normalizeEmail []) = true

/-- The exceptions that end a startup. -/
inductive StartupError where
  | valueError
  | dataError
  | integrityError
  deriving Repr, DecidableEq

/-- The arguments of one call of `add_user`, and the salt that the call draws. -/
structure Mention where
  username : List Char
  password : Option (List Char)
  email : Option (List Char) := none
  salt : ℕ := 0
  deriving Repr, DecidableEq

namespace Mention

/-- The e-mail address of an account that exists is only replaced by one that is given. -/
def emailGiven (x : Mention) : Bool := x.email.getD [] ≠ []

/-- The address is stored as it is given. -/
def emailStorable (m : UserManager) (x : Mention) : Bool :=
  !x.emailGiven || m.fitsEmail (x.email.getD [])

def reset (x : Mention) (r : AccountRow) : AccountRow :=
  { r with
    email := if x.emailGiven then x.email else r.email
    password := makePassword x.salt x.password }

/-- The row that `create_superuser` stores. -/
def account (m : UserManager) (x : Mention) (id : ℕ) : AccountRow where
  id := id
  username := m.normalizeUsername x.username
  email := some (m.normalizeEmail (x.email.getD []))
  password := makePassword x.salt x.password
  isStaff := true
  isSuperuser := true

end Mention

namespace Accounts

/-- `create_superuser`, with the signal that makes a token. -/
def createSuperuser (m : UserManager) (x : Mention) (s : Accounts) : Except StartupError Accounts :=
  if x.username = [] then .error .valueError
  else if !m.fits (m.normalizeUsername x.username) ||
      !m.fitsEmail (m.normalizeEmail (x.email.getD [])) then .error .dataError
  else if m.normalizeUsername x.username ∈ s.usernames then .error .integrityError
  else .ok
    { rows := s.rows ++ [x.account m s.nextId]
      tokens := s.tokens ++ [⟨s.nextKey, s.nextId⟩]
      nextId := s.nextId + 1
      nextKey := s.nextKey + 1 }

/-- `add_user(user_model, username, password, email)`. -/
def addUser (m : UserManager) (x : Mention) (s : Accounts) : Except StartupError Accounts :=
  if x.username ∈ s.usernames then
    if x.emailStorable m then
      .ok { s with rows := Table.update AccountRow.username x.username x.reset s.rows }
    else .error .dataError
  else createSuperuser m x s

/-- The calls in order. What is stored before one fails stays. -/
def addUsers (m : UserManager) : List Mention → Accounts → Option StartupError × Accounts
  | [], s => (none, s)
  | x :: xs, s =>
    match addUser m x s with
    | .error err => (some err, s)
    | .ok s' => addUsers m xs s'

end Accounts

/-- The environment variables that name accounts. -/
structure Environ where
  adminName : Option (List Char) := none
  adminEmail : Option (List Char) := none
  adminPassword : Option (List Char) := none
  additionalUserNames : Option (List Char) := none
  additionalUserPassword : Option (List Char) := none
  deriving Repr, DecidableEq

/-- `str.strip()`. -/
def strip (text : List Char) : List Char := (text.dropWhile isSpace).rdropWhile isSpace

namespace Environ

def adminMentions (env : Environ) : List Mention :=
  match env.adminPassword, env.adminEmail, env.adminName with
  | some password, some email, some username =>
    [{ username := strip username, password := some (strip password), email := some (strip email) }]
  | _, _, _ => []

/-- Without a password the accounts are made with an unusable one. -/
def sharedPassword (env : Environ) : Option (List Char) :=
  match env.additionalUserPassword with
  | none => none
  | some [] => none
  | some (c :: rest) => some (strip (c :: rest))

def additionalMentions (env : Environ) : List Mention :=
  match env.additionalUserNames with
  | none => []
  | some names =>
    if names ≠ [] ∧ env.sharedPassword ≠ some [] then
      if ',' ∈ names then
        (names.splitOn ',').map fun name => { username := strip name, password := env.sharedPassword }
      else [{ username := strip names, password := env.sharedPassword }]
    else []

def mentions (env : Environ) : List Mention := env.adminMentions ++ env.additionalMentions

/-- The calls of a startup that draws these salts. -/
def calls (env : Environ) (salts : List ℕ) : List Mention :=
  env.mentions.zipIdx.map fun p => { p.1 with salt := salts.getD p.2 0 }

end Environ

/-- `UsersConfig.ready()`. -/
def ready (m : UserManager) (runningMigrations : Bool) (env : Environ) (salts : List ℕ)
    (s : Accounts) : Option StartupError × Accounts :=
  if runningMigrations then (none, s) else Accounts.addUsers m (env.calls salts) s

/-! ### What the mentions of one name leave -/

/-- The mentions of a name, in order. -/
def mentionsOf (name : List Char) (xs : List Mention) : List Mention :=
  xs.filter fun x => x.username = name

def lastPassword (name : List Char) (xs : List Mention) : Option Password :=
  (mentionsOf name xs).getLast?.map fun x => makePassword x.salt x.password

/-- The last address that is given for a name. -/
def lastEmail (name : List Char) (xs : List Mention) : Option (Option (List Char)) :=
  ((mentionsOf name xs).filter Mention.emailGiven).getLast?.map Mention.email

/-- What the mentions of its name leave of a stored account. -/
def AccountRow.after (r : AccountRow) (xs : List Mention) : AccountRow :=
  { r with
    email := (lastEmail r.username xs).getD r.email
    password := (lastPassword r.username xs).getD r.password }

section Resets

variable {name : List Char} {r : AccountRow} {x : Mention} {xs ys : List Mention}

@[simp] theorem Mention.reset_id : (x.reset r).id = r.id := rfl

@[simp] theorem Mention.reset_username : (x.reset r).username = r.username := rfl

@[simp] theorem AccountRow.after_id : (r.after xs).id = r.id := rfl

@[simp] theorem AccountRow.after_username : (r.after xs).username = r.username := rfl

@[simp] theorem AccountRow.after_nil : r.after [] = r := rfl

theorem mentionsOf_cons_self : mentionsOf x.username (x :: xs) = x :: mentionsOf x.username xs := by
  simp [mentionsOf]

theorem mentionsOf_cons_ne (hne : x.username ≠ name) :
    mentionsOf name (x :: xs) = mentionsOf name xs := by
  simp [mentionsOf, hne]

/-- A mention of the name is overruled by the later ones. -/
theorem AccountRow.after_cons_self (hname : x.username = r.username) :
    r.after (x :: xs) = (x.reset r).after xs := by
  have hpassword : (lastPassword r.username (x :: xs)).getD r.password =
      (lastPassword r.username xs).getD (makePassword x.salt x.password) := by
    rw [lastPassword, ← hname, mentionsOf_cons_self, List.getLast?_cons, lastPassword]
    cases (mentionsOf x.username xs).getLast? <;> rfl
  have hemail : (lastEmail r.username (x :: xs)).getD r.email =
      (lastEmail r.username xs).getD (x.reset r).email := by
    rw [lastEmail, ← hname, mentionsOf_cons_self, lastEmail, List.filter_cons, Mention.reset]
    cases x.emailGiven with
    | false => rfl
    | true =>
      rw [if_pos rfl, List.getLast?_cons]
      cases ((mentionsOf x.username xs).filter Mention.emailGiven).getLast? <;> rfl
  simp only [AccountRow.after, Mention.reset_username, hpassword, hemail]
  rfl

theorem AccountRow.after_cons_ne (hname : x.username ≠ r.username) :
    r.after (x :: xs) = r.after xs := by
  simp only [AccountRow.after, lastPassword, lastEmail, mentionsOf_cons_ne hname]

/-- Mentions that say the same again change nothing. -/
theorem AccountRow.after_after : (r.after xs).after xs = r.after xs := by
  simp only [AccountRow.after]
  cases lastPassword r.username xs <;> cases lastEmail r.username xs <;> rfl

theorem AccountRow.after_cons : r.after (x :: xs) = (r.after [x]).after xs := by
  by_cases hname : x.username = r.username
  · rw [after_cons_self hname, after_cons_self hname, after_nil]
  · rw [after_cons_ne hname, after_cons_ne hname, after_nil]

/-! The salts apart, the mentions leave the same with others. -/

def Mention.unsalted (x : Mention) : Mention := { x with salt := 0 }

def AccountRow.unsalted (r : AccountRow) : AccountRow := { r with password := r.password.unsalted }

theorem mentionsOf_unsalted :
    mentionsOf name (xs.map Mention.unsalted) = (mentionsOf name xs).map Mention.unsalted := by
  rw [mentionsOf, mentionsOf, List.filter_map]
  rfl

theorem AccountRow.unsalted_after :
    (r.after xs).unsalted = r.unsalted.after (xs.map Mention.unsalted) := by
  have hpassword : lastPassword r.username (xs.map Mention.unsalted) =
      (lastPassword r.username xs).map Password.unsalted := by
    simp [lastPassword, mentionsOf_unsalted, Function.comp_def, Mention.unsalted]
  have hemail : lastEmail r.username (xs.map Mention.unsalted) = lastEmail r.username xs := by
    rw [lastEmail, mentionsOf_unsalted, List.filter_map, List.getLast?_map, Option.map_map]
    rfl
  simp only [AccountRow.after, AccountRow.unsalted, hpassword, hemail]
  cases lastPassword r.username xs <;> rfl

/-- Mentions that say the same again change nothing but the salts. -/
theorem AccountRow.unsalted_after_after
    (h : ys.map Mention.unsalted = xs.map Mention.unsalted) :
    ((r.after xs).after ys).unsalted = (r.after xs).unsalted := by
  rw [unsalted_after, unsalted_after, h, after_after]

end Resets

theorem Environ.calls_unsalted (env : Environ) (salts : List ℕ) :
    (env.calls salts).map Mention.unsalted = env.mentions.map Mention.unsalted := by
  have hforget : (fun p : Mention × ℕ => Mention.unsalted { p.1 with salt := salts.getD p.2 0 }) =
      Mention.unsalted ∘ Prod.fst := rfl
  rw [Environ.calls, List.map_map, Function.comp_def, hforget, ← List.map_map, List.zipIdx_map_fst]

/-- Each mention is a call, up to the salt, and each call a mention. -/
theorem Environ.exists_call {env : Environ} {x : Mention} (salts : List ℕ) (hx : x ∈ env.mentions) :
    ∃ salt, { x with salt := salt } ∈ env.calls salts := by
  obtain ⟨i, hi⟩ := List.mem_iff_getElem?.mp hx
  exact ⟨salts.getD i 0, List.mem_map.mpr ⟨(x, i), List.mk_mem_zipIdx_iff_getElem?.mpr hi, rfl⟩⟩

theorem Environ.exists_mention {env : Environ} {y : Mention} {salts : List ℕ}
    (hy : y ∈ env.calls salts) : ∃ x ∈ env.mentions, ∃ salt, y = { x with salt := salt } := by
  obtain ⟨⟨x, i⟩, hp, rfl⟩ := List.mem_map.mp hy
  exact ⟨x, List.mem_of_getElem? (List.mk_mem_zipIdx_iff_getElem?.mp hp), _, rfl⟩

/-- Only the first mention can have an address. -/
theorem Environ.email_of_mem {env : Environ} {x : Mention} (hx : x ∈ env.mentions) :
    x.email = none ∨ ∃ rest, env.mentions = x :: rest := by
  have hadditional : ∀ y ∈ env.additionalMentions, y.email = none := by
    intro y hy
    unfold Environ.additionalMentions at hy
    split at hy
    · cases hy
    · split_ifs at hy
      · obtain ⟨name, -, rfl⟩ := List.mem_map.mp hy
        rfl
      · rw [List.mem_singleton.mp hy]
      · cases hy
  unfold Environ.mentions Environ.adminMentions at hx ⊢
  split at hx
  · rcases List.mem_append.mp hx with hx | hx
    · exact .inr ⟨_, by rw [List.mem_singleton.mp hx]; rfl⟩
    · exact .inl (hadditional x hx)
  · exact .inl (hadditional x hx)

/-- A mention that finds its account in the startups after one that has made it, and
whose address can be stored. -/
def Mention.Lasting (m : UserManager) (s : Accounts) (x : Mention) : Prop :=
  x.emailStorable m = true ∧ (x.username ∈ s.usernames ∨
    (x.username ≠ [] ∧ m.fits x.username = true ∧ m.normalizeUsername x.username = x.username ∧
      m.fitsEmail (m.normalizeEmail (x.email.getD [])) = true))

instance (m : UserManager) (s : Accounts) (x : Mention) : Decidable (x.Lasting m s) :=
  inferInstanceAs (Decidable (x.emailStorable m = true ∧ (x.username ∈ s.usernames ∨
    (x.username ≠ [] ∧ m.fits x.username = true ∧ m.normalizeUsername x.username = x.username ∧
      m.fitsEmail (m.normalizeEmail (x.email.getD [])) = true))))

namespace Accounts

variable {m : UserManager} {s s' t u : Accounts} {x : Mention} {xs : List Mention} {r : AccountRow}

theorem update_eq_after : Table.update AccountRow.username x.username x.reset s.rows =
    s.rows.map fun r => r.after [x] := by
  apply List.map_congr_left
  intro r _
  split_ifs with hname
  · rw [AccountRow.after_cons_self hname.symm, AccountRow.after_nil]
  · rw [AccountRow.after_cons_ne (Ne.symm hname), AccountRow.after_nil]

/-- How a call of `add_user` that raises nothing ends. -/
inductive Adds (m : UserManager) (x : Mention) (s : Accounts) : Accounts → Prop
  | reset (hstored : x.username ∈ s.usernames) (hemail : x.emailStorable m = true) :
    Adds m x s { s with rows := s.rows.map fun r => r.after [x] }
  | created (hnew : x.username ∉ s.usernames) (hname : x.username ≠ [])
    (hfits : m.fits (m.normalizeUsername x.username) = true)
    (hemail : m.fitsEmail (m.normalizeEmail (x.email.getD [])) = true)
    (hfree : m.normalizeUsername x.username ∉ s.usernames) :
    Adds m x s
      { rows := s.rows ++ [x.account m s.nextId]
        tokens := s.tokens ++ [⟨s.nextKey, s.nextId⟩]
        nextId := s.nextId + 1
        nextKey := s.nextKey + 1 }

theorem addUser_ok (h : addUser m x s = .ok s') : Adds m x s s' := by
  unfold addUser createSuperuser at h
  split_ifs at h with hstored hemail hname hfits hfree
  · rw [update_eq_after] at h
    cases h
    exact .reset hstored hemail
  · cases h
    have hstorable : m.fits (m.normalizeUsername x.username) = true ∧
        m.fitsEmail (m.normalizeEmail (x.email.getD [])) = true := by simpa using hfits
    exact .created hstored hname hstorable.1 hstorable.2 hfree

theorem addUsers_cons_ok (h : addUsers m (x :: xs) s = (none, t)) :
    ∃ s', Adds m x s s' ∧ addUsers m xs s' = (none, t) := by
  rw [addUsers] at h
  cases hadd : addUser m x s with
  | error err =>
    rw [hadd] at h
    cases h
  | ok s' =>
    rw [hadd] at h
    exact ⟨s', addUser_ok hadd, h⟩

@[simp] theorem usernames_map_after (xs : List Mention) :
    ({ s with rows := s.rows.map fun r => r.after xs } : Accounts).usernames = s.usernames := by
  simp [usernames, Function.comp_def]

/-- The row was made by a mention, and is what the mentions of its name after that
one leave of it. -/
structure Made (m : UserManager) (xs : List Mention) (s : Accounts) (x : Mention)
    (r : AccountRow) : Prop where
  mentioned : ∃ before after, xs = before ++ x :: after ∧ r = (x.account m r.id).after after
  unnamed : x.username ∉ s.usernames
  fits : m.fits (m.normalizeUsername x.username) = true
  given : x.username ≠ []
  free : r.username ∉ s.usernames
  fresh : s.nextId ≤ r.id

theorem Made.username (h : Made m xs s x r) : r.username = m.normalizeUsername x.username := by
  obtain ⟨before, after, -, hr⟩ := h.mentioned
  rw [hr]
  rfl

theorem Made.mem (h : Made m xs s x r) : x ∈ xs := by
  obtain ⟨before, after, rfl, -⟩ := h.mentioned
  simp

theorem Made.cons {y : Mention} (h : Made m xs s' x r) (hs : s.usernames ⊆ s'.usernames)
    (hnext : s.nextId ≤ s'.nextId) : Made m (y :: xs) s x r := by
  obtain ⟨before, after, rfl, hr⟩ := h.mentioned
  exact ⟨⟨y :: before, after, rfl, hr⟩, fun hmem => h.unnamed (hs hmem), h.fits, h.given,
    fun hmem => h.free (hs hmem), hnext.trans h.fresh⟩

/-- What calls that raise nothing do to the tables. The stored accounts are left as
their last mentions say, and the new ones are behind them, each with a token. -/
structure Added (m : UserManager) (xs : List Mention) (s t : Accounts) (news : List AccountRow) :
    Prop where
  rows : t.rows = (s.rows.map fun r => r.after xs) ++ news
  made : ∀ r ∈ news, ∃ x, Made m xs s x r
  owners : t.owners = s.owners ++ news.map AccountRow.id

theorem addUsers_ok (h : addUsers m xs s = (none, t)) : ∃ news, Added m xs s t news := by
  induction xs generalizing s with
  | nil =>
    cases h
    exact ⟨[], by simp, by simp, by simp⟩
  | cons x xs ih =>
    obtain ⟨s', hadds, hrest⟩ := addUsers_cons_ok h
    obtain ⟨news, hnews⟩ := ih hrest
    cases hadds with
    | reset hstored hemail =>
      refine ⟨news, ?_, ?_, hnews.owners⟩
      · rw [hnews.rows, List.map_map]
        congr 1
        exact List.map_congr_left fun r _ => AccountRow.after_cons.symm
      · intro r hr
        obtain ⟨y, hy⟩ := hnews.made r hr
        exact ⟨y, hy.cons (by simp) le_rfl⟩
    | created hnew hname hfits hemail hfree =>
      refine ⟨(x.account m s.nextId).after xs :: news, ?_, ?_, ?_⟩
      · have hold : ∀ r ∈ s.rows, r.after xs = r.after (x :: xs) := by
          intro r hr
          rw [AccountRow.after_cons_ne]
          exact fun he => hnew (he ▸ List.mem_map_of_mem hr)
        rw [hnews.rows, List.map_append, List.map_congr_left hold]
        simp
      · intro r hr
        rcases List.mem_cons.mp hr with rfl | hr
        · exact ⟨x, ⟨[], xs, rfl, rfl⟩, hnew, hfits, hname, hfree, le_rfl⟩
        · obtain ⟨y, hy⟩ := hnews.made r hr
          exact ⟨y, hy.cons (by simp [usernames]) (Nat.le_succ _)⟩
      · rw [hnews.owners]
        simp [owners, Mention.account]

/-- What every call keeps, the calls keep, wherever they end. -/
theorem addUsers_invariant {P : Accounts → Prop} (hP : ∀ x s s', P s → Adds m x s s' → P s')
    (xs : List Mention) (hs : P s) : P (addUsers m xs s).2 := by
  induction xs generalizing s with
  | nil => exact hs
  | cons x xs ih =>
    rw [addUsers]
    cases hadd : addUser m x s with
    | error err => exact hs
    | ok s' => exact ih (hP x s s' hs (addUser_ok hadd))

theorem Constrained.adds (hs : s.Constrained) (h : Adds m x s s') : s'.Constrained := by
  cases h with
  | reset hstored hemail =>
    have hids : ({ s with rows := s.rows.map fun r => r.after [x] } : Accounts).ids = s.ids := by
      simp [Accounts.ids, Function.comp_def]
    refine ⟨by rw [hids]; exact hs.ids, by rw [usernames_map_after]; exact hs.usernames, ?_,
      hs.owners, ?_⟩
    · rw [hids]
      exact hs.fresh
    · rw [hids]
      exact hs.owned
  | created hnew hname hfits hemail hfree =>
    have hfresh : s.nextId ∉ s.ids := fun h => lt_irrefl _ (hs.fresh _ h)
    refine ⟨Table.nodup_append_row hs.ids hfresh, Table.nodup_append_row hs.usernames hfree, ?_,
      Table.nodup_append_row hs.owners fun h => hfresh (hs.owned _ h), ?_⟩
    · intro id hid
      rw [Accounts.ids, List.map_append, List.mem_append] at hid
      rcases hid with hid | hid
      · exact Nat.lt_succ_of_lt (hs.fresh id hid)
      · rw [List.map_singleton, List.mem_singleton] at hid
        exact hid ▸ Nat.lt_succ_self _
    · intro id hid
      rw [Accounts.owners, List.map_append, List.mem_append] at hid
      rw [Accounts.ids, List.map_append, List.mem_append]
      exact hid.imp (hs.owned id) fun h => h

theorem usernames_subset (h : addUsers m xs s = (none, t)) : s.usernames ⊆ t.usernames := by
  obtain ⟨news, hnews⟩ := addUsers_ok h
  rw [usernames, usernames, hnews.rows, List.map_append, List.map_map]
  exact List.subset_append_left _ _

/-- The tables apart from what was drawn for the passwords. -/
def unsalted (s : Accounts) : Accounts := { s with rows := s.rows.map AccountRow.unsalted }

/-- A startup that completes removes no account. It leaves of each what the last
mention of its name says, and of what else it holds, nothing is changed. An account
that is new is an administrator's, has a token, and is named by a mention that no
account answered to. -/
theorem accounts_of_ready (m : UserManager) (env : Environ) (salts : List ℕ) (s t : Accounts)
    (hs : s.Constrained) (hready : ready m false env salts s = (none, t)) :
    t.Constrained ∧ (∀ r ∈ s.rows, r.after (env.calls salts) ∈ t.rows) ∧
      ∀ r ∈ t.rows, r.id ∉ s.ids → r.isStaff = true ∧ r.isSuperuser = true ∧ r.id ∈ t.owners ∧
        ∃ x before after, env.calls salts = before ++ x :: after ∧ x.username ∉ s.usernames ∧
          r.username = m.normalizeUsername x.username ∧
          r.password = (lastPassword r.username after).getD (makePassword x.salt x.password) := by
  rw [ready, if_neg Bool.false_ne_true] at hready
  have hconstrained :=
    addUsers_invariant (m := m) (fun x s s' h hadds => h.adds hadds) (env.calls salts) hs
  rw [hready] at hconstrained
  obtain ⟨news, hnews⟩ := addUsers_ok hready
  refine ⟨hconstrained, ?_, ?_⟩
  · intro r hr
    rw [hnews.rows]
    exact List.mem_append_left _ (List.mem_map_of_mem hr)
  · intro r hr hnew
    have hmem : r ∈ news := by
      rw [hnews.rows, List.mem_append] at hr
      refine hr.resolve_left ?_
      intro hold
      obtain ⟨old, hstored, rfl⟩ := List.mem_map.mp hold
      exact hnew (List.mem_map.mpr ⟨old, hstored, rfl⟩)
    obtain ⟨x, hx⟩ := hnews.made r hmem
    obtain ⟨before, after, hsplit, heq⟩ := hx.mentioned
    have howned : r.id ∈ t.owners := by
      rw [hnews.owners]
      exact List.mem_append_right _ (List.mem_map_of_mem hmem)
    refine ⟨by rw [heq]; rfl, by rw [heq]; rfl, howned, x, before, after, hsplit, hx.unnamed,
      hx.username, ?_⟩
    rw [hx.username, heq]
    rfl

/-- A name with the ligature of f and i has the two letters in its normal form. -/
def ligatures : UserManager where
  normalizeUsername := List.flatMap fun c => if c = 'ﬁ' then ['f', 'i'] else [c]
  normalizeEmail := fun email => email
  fits := fun name => name.length ≤ 150
  fitsEmail := fun email => email.length ≤ 254

/-- The account of a plain user, as the API has made it. -/
def onePlain : Accounts where
  rows := [{ id := 1, username := ['e', 'v', 'e'] }]
  tokens := [⟨0, 1⟩]
  nextId := 2
  nextKey := 1

theorem constrained_onePlain : onePlain.Constrained :=
  ⟨by decide, by decide, by decide, by decide, by decide⟩

/-- An administrator, and two more names that share a password. -/
def threeNames : Environ where
  adminName := some ['b', 'o', 'b']
  adminEmail := some []
  adminPassword := some ['p']
  additionalUserNames := some ['e', 'v', 'e', ',', ' ', 'a', 'l']
  additionalUserPassword := some ['q']

/-- The plain user keeps what it may do, and the new ones are administrators. -/
theorem accounts_of_ready_three :
    ∃ t, ready ligatures false threeNames [5, 6, 7] onePlain = (none, t) ∧ t.Constrained ∧
      t.rows.map (fun r => (r.id, r.isSuperuser, r.password)) =
        [(1, false, .hash 6 ['q']), (2, true, .hash 5 ['p']), (3, true, .hash 7 ['q'])] := by
  have hready : ready ligatures false threeNames [5, 6, 7] onePlain =
      (none, (ready ligatures false threeNames [5, 6, 7] onePlain).2) := by decide
  exact ⟨_, hready,
    (accounts_of_ready ligatures threeNames [5, 6, 7] onePlain _ constrained_onePlain hready).1, by decide⟩

/-- Mentions of accounts that all exist only reset them. -/
theorem addUsers_of_stored (hstored : ∀ x ∈ xs, x.username ∈ s.usernames)
    (hemail : ∀ x ∈ xs, x.emailStorable m = true) :
    addUsers m xs s = (none, { s with rows := s.rows.map fun r => r.after xs }) := by
  induction xs generalizing s with
  | nil => simp [addUsers]
  | cons x xs ih =>
    have hx : x.username ∈ s.usernames := hstored x List.mem_cons_self
    rw [addUsers, addUser, if_pos hx, if_pos (hemail x List.mem_cons_self)]
    dsimp only
    rw [update_eq_after, ih]
    · rw [List.map_map]
      congr 3
      exact funext fun r => AccountRow.after_cons.symm
    · intro y hy
      rw [usernames_map_after]
      exact hstored y (List.mem_cons_of_mem x hy)
    · exact fun y hy => hemail y (List.mem_cons_of_mem x hy)

theorem addUsers_of_lasting (hlasting : ∀ x ∈ xs, x.Lasting m s) :
    ∃ t, addUsers m xs s = (none, t) := by
  induction xs generalizing s with
  | nil => exact ⟨s, rfl⟩
  | cons x xs ih =>
    have hnext : ∃ s', addUser m x s = .ok s' ∧ s.usernames ⊆ s'.usernames := by
      obtain ⟨hemail, hname⟩ := hlasting x List.mem_cons_self
      by_cases hstored : x.username ∈ s.usernames
      · refine ⟨_, by rw [addUser, if_pos hstored, if_pos hemail, update_eq_after], ?_⟩
        rw [usernames_map_after]
        exact List.Subset.refl _
      · obtain ⟨hname, hfits, hnormal, hfits'⟩ := hname.resolve_left hstored
        refine ⟨_, by simp [addUser, createSuperuser, hstored, hname, hfits, hfits', hnormal]; rfl, ?_⟩
        simp [usernames]
    obtain ⟨s', hadd, hsub⟩ := hnext
    obtain ⟨t, ht⟩ := ih fun y hy =>
      (hlasting y (List.mem_cons_of_mem x hy)).imp_right fun h => h.imp (@hsub _) id
    exact ⟨t, by rw [addUsers, hadd]; exact ht⟩

/-- A startup stores every name that it finds missing, in its normal form. -/
theorem stored_of_addUsers (h : addUsers m xs s = (none, t)) (hx : x ∈ xs) :
    x.username ∈ t.usernames ∨ m.normalizeUsername x.username ∈ t.usernames := by
  induction xs generalizing s with
  | nil => cases hx
  | cons y xs ih =>
    obtain ⟨s', hadds, hrest⟩ := addUsers_cons_ok h
    rcases List.mem_cons.mp hx with rfl | hx
    · have hsub := usernames_subset hrest
      cases hadds with
      | reset hstored hemail => exact .inl (hsub (by rwa [usernames_map_after]))
      | created => exact .inr (hsub (by simp [usernames, Mention.account]))
    · exact ih hrest hx

/-- A startup that raises nothing has found no name missing whose normal form is taken. -/
theorem free_of_addUsers (hm : m.Lawful) (h : addUsers m xs s = (none, t)) (hx : x ∈ xs) :
    x.username ∈ s.usernames ∨ m.normalizeUsername x.username ∉ s.usernames := by
  induction xs generalizing s with
  | nil => cases hx
  | cons y xs ih =>
    obtain ⟨s', hadds, hrest⟩ := addUsers_cons_ok h
    cases hadds with
    | reset hstored hemail =>
      rcases List.mem_cons.mp hx with rfl | hx
      · exact .inl hstored
      · simpa using ih hrest hx
    | created hnew hname hfits hemail hfree =>
      rcases List.mem_cons.mp hx with rfl | hx
      · exact .inr hfree
      · have hrow := ih hrest hx
        simp only [usernames, List.map_append, List.map_singleton, List.mem_append,
          List.mem_singleton, Mention.account] at hrow
        rcases hrow with (hold | hmade) | hother
        · exact .inl hold
        · rw [hmade, hm.idempotent]
          exact .inr hfree
        · exact .inr fun hold => hother (.inl hold)

/-- After two startups that mention a name, the name is an account's. -/
theorem stored_of_twice {ys : List Mention} {y : Mention} (hm : m.Lawful)
    (h : addUsers m xs s = (none, t)) (hagain : addUsers m ys t = (none, u)) (hx : x ∈ xs)
    (hy : y ∈ ys) (hsame : y.username = x.username) : x.username ∈ t.usernames := by
  rcases free_of_addUsers hm hagain hy with hstored | hfree
  · exact hsame ▸ hstored
  · exact (stored_of_addUsers h hx).resolve_right (hsame ▸ hfree)

/-- The address of a mention that finds its account has been stored. -/
theorem emailStorable_of_stored (h : addUsers m xs s = (none, t)) (hx : x ∈ xs)
    (hstored : x.username ∈ s.usernames) : x.emailStorable m = true := by
  induction xs generalizing s with
  | nil => cases hx
  | cons y xs ih =>
    obtain ⟨s', hadds, hrest⟩ := addUsers_cons_ok h
    rcases List.mem_cons.mp hx with rfl | hx
    · cases hadds with
      | reset _ hemail => exact hemail
      | created hnew => exact absurd hstored hnew
    · refine ih hrest hx ?_
      cases hadds with
      | reset => rwa [usernames_map_after]
      | created => simpa [usernames] using Or.inl hstored

/-- A name that a startup finds or stores as it is was an account's, or can be stored. -/
theorem named_of_stored (hm : m.Lawful) (h : addUsers m xs s = (none, t))
    (hx : x.username ∈ t.usernames) : x.username ∈ s.usernames ∨
      (x.username ≠ [] ∧ m.fits x.username = true ∧ m.normalizeUsername x.username = x.username) := by
  obtain ⟨news, hnews⟩ := addUsers_ok h
  rw [usernames, hnews.rows, List.map_append, List.map_map, List.mem_append] at hx
  rcases hx with hold | hnew
  · exact .inl hold
  · obtain ⟨r, hr, hname⟩ := List.mem_map.mp hnew
    obtain ⟨y, hy⟩ := hnews.made r hr
    rw [hy.username] at hname
    refine .inr ⟨?_, hname ▸ hy.fits, ?_⟩
    · exact fun hempty => hy.given (hm.nonempty _ (hname.trans hempty))
    · rw [← hname, hm.idempotent]

theorem lasting_of_twice (hm : m.Lawful) {env : Environ} {salts salts' : List ℕ}
    (h : addUsers m (env.calls salts) s = (none, t))
    (hagain : addUsers m (env.calls salts') t = (none, u)) (hx : x ∈ env.mentions) :
    x.username ∈ t.usernames ∧ x.Lasting m s := by
  obtain ⟨salt, hy⟩ := Environ.exists_call salts hx
  obtain ⟨salt', hz⟩ := Environ.exists_call salts' hx
  have hstored := stored_of_twice hm h hagain hy hz rfl
  have hemail := emailStorable_of_stored hagain hz hstored
  refine ⟨hstored, hemail, ?_⟩
  rcases named_of_stored hm h hstored with hold | ⟨hgiven, hfits, hnormal⟩
  · exact .inl hold
  by_cases hold : x.username ∈ s.usernames
  · exact .inl hold
  refine .inr ⟨hgiven, hfits, hnormal, ?_⟩
  rcases Environ.email_of_mem hx with hnone | ⟨rest, hrest⟩
  · rw [hnone]
    exact hm.noEmail
  · have hcalls : ∃ rest', env.calls salts = { x with salt := salts.getD 0 0 } :: rest' := by
      rw [Environ.calls, hrest]
      exact ⟨_, rfl⟩
    obtain ⟨rest', hrest'⟩ := hcalls
    rw [hrest'] at h
    obtain ⟨s', hadds, -⟩ := addUsers_cons_ok h
    cases hadds with
    | reset hfound => exact absurd hfound hold
    | created _ _ _ hfitsEmail => exact hfitsEmail

/-- A startup with the environment of the last one completes, and then every further
one does and changes nothing but the salts of the passwords, exactly when each name of
the environment is an account's or is in its normal form, and the addresses and the new
names can be stored. -/
theorem restarts_complete_iff (m : UserManager) (hm : m.Lawful) (env : Environ) (s : Accounts)
    (salts salts' : List ℕ) :
    ((∃ t u, ready m false env salts s = (none, t) ∧ ready m false env salts' t = (none, u)) ↔
        ∀ x ∈ env.mentions, x.Lasting m s) ∧
      ∀ t u, ready m false env salts s = (none, t) → ready m false env salts' t = (none, u) →
        ∀ more, ∃ v, ready m false env more u = (none, v) ∧ v.unsalted = u.unsalted := by
  simp only [ready, Bool.false_eq_true, if_false]
  refine ⟨⟨?_, ?_⟩, ?_⟩
  · rintro ⟨t, u, ht, hu⟩ x hx
    exact (lasting_of_twice hm ht hu hx).2
  · intro hlasting
    have hcalls : ∀ y ∈ env.calls salts, y.Lasting m s := by
      intro y hy
      obtain ⟨x, hx, salt, rfl⟩ := Environ.exists_mention hy
      exact hlasting x hx
    obtain ⟨t, ht⟩ := addUsers_of_lasting hcalls
    have hstored : ∀ z ∈ env.calls salts', z.username ∈ t.usernames ∧ z.emailStorable m = true := by
      intro z hz
      obtain ⟨x, hx, salt, rfl⟩ := Environ.exists_mention hz
      obtain ⟨salt', hy⟩ := Environ.exists_call salts hx
      obtain ⟨hemail, hold | ⟨-, -, hnormal, -⟩⟩ := hlasting x hx
      · exact ⟨usernames_subset ht hold, hemail⟩
      · exact ⟨(stored_of_addUsers ht hy).elim id fun h => hnormal ▸ h, hemail⟩
    exact ⟨t, _, ht, addUsers_of_stored (fun z hz => (hstored z hz).1) fun z hz => (hstored z hz).2⟩
  · intro t u ht hu more
    have hstored (salts : List ℕ) :
        ∀ z ∈ env.calls salts, z.username ∈ t.usernames ∧ z.emailStorable m = true := by
      intro z hz
      obtain ⟨x, hx, salt, rfl⟩ := Environ.exists_mention hz
      have hlasting := lasting_of_twice hm ht hu hx
      exact ⟨hlasting.1, hlasting.2.1⟩
    rw [addUsers_of_stored (fun z hz => (hstored salts' z hz).1)
      fun z hz => (hstored salts' z hz).2] at hu
    obtain rfl := (Prod.mk.inj hu).2
    refine ⟨_, addUsers_of_stored ?_ fun z hz => (hstored more z hz).2, ?_⟩
    · intro z hz
      rw [usernames_map_after]
      exact (hstored more z hz).1
    · have hsame := (env.calls_unsalted more).trans (env.calls_unsalted salts').symm
      simp only [unsalted, List.map_map]
      congr 2
      exact funext fun r => AccountRow.unsalted_after_after hsame

theorem lawful_ligatures : ligatures.Lawful := by
  constructor
  · intro name
    induction name with
    | nil => rfl
    | cons c name ih =>
      simp only [ligatures, List.flatMap_cons, List.flatMap_append] at ih ⊢
      rw [ih]
      split_ifs with hc
      · rfl
      · simp [hc]
  · intro name hname
    cases name with
    | nil => rfl
    | cons c name =>
      simp only [ligatures, List.flatMap_cons] at hname
      split_ifs at hname <;> cases hname
  · rfl

/-- Plain names come through every startup. The account of a name with a ligature is made
once and not found again. -/
theorem restarts_complete_iff_ligature :
    (∃ t u v, ready ligatures false threeNames [5, 6, 7] onePlain = (none, t) ∧
        ready ligatures false threeNames [8, 9, 10] t = (none, u) ∧
        ready ligatures false threeNames [11, 12, 13] u = (none, v) ∧ v.unsalted = u.unsalted) ∧
      ∃ t, ready ligatures false { additionalUserNames := some ['ﬁ'] } [5] onePlain = (none, t) ∧
        ¬ ∃ u, ready ligatures false { additionalUserNames := some ['ﬁ'] } [6] t = (none, u) := by
  have hplain := restarts_complete_iff ligatures lawful_ligatures threeNames onePlain [5, 6, 7]
    [8, 9, 10]
  have hlasting : ∀ x ∈ threeNames.mentions, x.Lasting ligatures onePlain := by decide
  obtain ⟨t, u, ht, hu⟩ := hplain.1.mpr hlasting
  obtain ⟨v, hv, hsame⟩ := hplain.2 t u ht hu [11, 12, 13]
  refine ⟨⟨t, u, v, ht, hu, hv, hsame⟩, ?_⟩
  have hready : ready ligatures false { additionalUserNames := some ['ﬁ'] } [5] onePlain =
      (none, (ready ligatures false { additionalUserNames := some ['ﬁ'] } [5] onePlain).2) := by
    decide
  refine ⟨_, hready, ?_⟩
  rintro ⟨u, hu⟩
  have hligature := (restarts_complete_iff ligatures lawful_ligatures
    { additionalUserNames := some ['ﬁ'] } onePlain [5] [6]).1.mp ⟨_, u, hready, hu⟩
  have hnot : ¬ Mention.Lasting ligatures onePlain { username := ['ﬁ'], password := none } := by
    decide
  exact hnot (hligature _ (by decide))

end Accounts

end ScosSensor
