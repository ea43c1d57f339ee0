import ScosSensor.AccountRequests

/-!
# One token for each account

The token of a new account is made after the account, and an account that is deleted
while a request of it is under way comes back without its token. In a run without a
crash no account is left without one all the same: its token is still to be made by
the thread that has inserted it, or by another that has the same to do.
-/
namespace ScosSensor.AccountService

open Runs Accounts

variable {m : UserManager} {certificates : Bool} {s s' t : AccountService} {l : AccountLabel}
  {ls : List AccountLabel} {thread : ℕ} {a : Activity}

@[simp] theorem goto_accounts : (s.goto thread a).accounts = s.accounts := rfl

theorem goto_threads (thread' : ℕ) :
    (s.goto thread a).threads thread' = if thread' = thread then a else s.threads thread' :=
  Function.update_apply _ _ _ _

/-- What holds of every thread, and of the new activity of one. -/
theorem forall_goto (P : Activity → Prop) (h : ∀ thread, P (s.threads thread)) (ha : P a) :
    ∀ thread', P ((s.goto thread a).threads thread') := by
  intro thread'
  rw [goto_threads]
  split_ifs
  · exact ha
  · exact h thread'

/-- The rows in hand have ids below the next one that is given out. -/
def Below (nextId : ℕ) (a : Activity) : Prop := ∀ r ∈ a.rows, r.id < nextId

/-- The tables keep their constraints, and no row in hand has an id that is still to
be given out. -/
structure Sound (s : AccountService) : Prop where
  tables : s.accounts.Constrained
  fresh : ∀ thread, Below s.accounts.nextId (s.threads thread)

/-- A startup keeps the constraints and gives out no id again. -/
theorem ready_constrained (env : Environ) (salts : List ℕ) {accounts : Accounts}
    (h : accounts.Constrained) : (ready m false env salts accounts).2.Constrained ∧
      accounts.nextId ≤ (ready m false env salts accounts).2.nextId := by
  refine Accounts.addUsers_invariant (P := fun t => t.Constrained ∧ accounts.nextId ≤ t.nextId)
    ?_ (env.calls salts) ⟨h, le_rfl⟩
  rintro x u u' ⟨hu, hle⟩ hadds
  refine ⟨hu.adds hadds, ?_⟩
  cases hadds with
  | reset => exact hle
  | created => exact Nat.le_succ_of_le hle

theorem below_idle (n : ℕ) : Below n .idle := fun _ hr => by cases hr

theorem Below.mono {n k : ℕ} (h : Below n a) (hle : n ≤ k) : Below k a :=
  fun r hr => lt_of_lt_of_le (h r hr) hle

theorem Sound.moves (hs : Sound s) (h : Moves m s l s') : Sound s' := by
  have hrow : ∀ r ∈ s.accounts.rows, r.id < s.accounts.nextId :=
    fun r hr => hs.tables.fresh r.id (List.mem_map_of_mem hr)
  have hgoto : ∀ {n thread a}, s.accounts.nextId ≤ n → Below n a →
      ∀ thread', Below n ((s.goto thread a).threads thread') :=
    fun hle ha => forall_goto (Below _) (fun thread' => (hs.fresh thread').mono hle) ha
  cases h with
  | start env salts hstopped =>
    obtain ⟨htables, hle⟩ := ready_constrained (m := m) env salts hs.tables
    exact ⟨htables, fun thread => (hs.fresh thread).mono hle⟩
  | crash => exact ⟨hs.tables, fun _ => below_idle _⟩
  | refused l => exact hs
  | login l thread r now request hidle hr =>
    exact ⟨hs.tables, hgoto le_rfl (by simpa [Below, Activity.rows] using hrow r hr)⟩
  | entered l thread r request hidle hr =>
    exact ⟨hs.tables, hgoto le_rfl (by simpa [Below, Activity.rows] using hrow r hr)⟩
  | portal thread user granted request a hidle hfound ha =>
    exact ⟨hs.tables, hgoto le_rfl fun r hr => hs.tables.fresh r.id (ha.rows r hr)⟩
  | ended thread refused htoken => exact ⟨hs.tables, hgoto le_rfl (below_idle _)⟩
  | permitted thread refused user request a hat hsuperuser ha =>
    exact ⟨hs.tables, hgoto le_rfl fun r hr => hrow r (ha.rows hr)⟩
  | saved thread refused user request accounts hat hsave =>
    have huser : user.id < s.accounts.nextId := hs.fresh thread user (by simp [hat, Activity.rows])
    refine ⟨hs.tables.save huser hsave, hgoto (Accounts.nextId_save hsave).ge ?_⟩
    have hbelow : user.id < accounts.nextId := Accounts.nextId_save hsave ▸ huser
    split_ifs <;> simpa [Below, Activity.rows] using hbelow
  | restored thread refused user request accounts hat hcreate =>
    have huser : user.id < s.accounts.nextId := hs.fresh thread user (by simp [hat, Activity.rows])
    refine ⟨hs.tables.createToken hcreate, ?_⟩
    obtain ⟨-, -, rfl⟩ := Accounts.createToken_cases hcreate
    exact hgoto le_rfl (by simpa [Below, Activity.rows] using huser)
  | validated thread refused r body hat =>
    have hr : r.id < s.accounts.nextId := hs.fresh thread r (by simp [hat, Activity.rows])
    exact ⟨hs.tables,
      hgoto le_rfl (by simpa [Below, Activity.rows, AccountChanges.apply] using hr)⟩
  | updated thread refused r accounts hat hsave =>
    have hr : r.id < s.accounts.nextId := hs.fresh thread r (by simp [hat, Activity.rows])
    refine ⟨hs.tables.save hr hsave, hgoto (Accounts.nextId_save hsave).ge ?_⟩
    split_ifs <;> simp [Below, Activity.rows]
  | inserted thread refused body password hat hfree =>
    exact ⟨hs.tables.insert rfl hfree, hgoto (Nat.le_succ _) (by simp [Below, Activity.rows])⟩
  | tokenCreated thread refused user accounts hat hcreate =>
    refine ⟨hs.tables.createToken hcreate, ?_⟩
    obtain ⟨-, -, rfl⟩ := Accounts.createToken_cases hcreate
    exact hgoto le_rfl (below_idle _)
  | deleted thread refused pk hat => exact ⟨hs.tables.delete pk, hgoto le_rfl (below_idle _)⟩

theorem sound_start {accounts : Accounts} (h : accounts.Constrained) : Sound { accounts } :=
  ⟨h, fun _ => below_idle _⟩

/-- An account without a token is one that a thread is about to make the token of. -/
def TokensDue (s : AccountService) : Prop :=
  ∀ id ∈ s.accounts.ids, id ∈ s.accounts.owners ∨ ∃ thread, (s.threads thread).tokenFor = some id

/-- The tokens that are due stay so when a thread with none to make goes on. -/
theorem due_goto {id : ℕ}
    (hdue : id ∈ s.accounts.owners ∨ ∃ thread', (s.threads thread').tokenFor = some id)
    (hdone : (s.threads thread).tokenFor = some id → id ∈ s.accounts.owners) :
    id ∈ (s.goto thread a).accounts.owners ∨
      ∃ thread', ((s.goto thread a).threads thread').tokenFor = some id := by
  rcases hdue with howned | ⟨thread', hthread⟩
  · exact .inl howned
  · by_cases hsame : thread' = thread
    · exact .inl (hdone (hsame ▸ hthread))
    · refine .inr ⟨thread', ?_⟩
      rw [goto_threads, if_neg hsame]
      exact hthread

/-- A save that inserts a row leaves the token of it to its thread. -/
theorem due_save {r : AccountRow} {accounts : Accounts} (hdue : TokensDue s)
    (hat : (s.threads thread).tokenFor = none) (hsave : s.accounts.save r = some accounts)
    (ha : r.id ∉ s.accounts.ids → a.tokenFor = some r.id) :
    TokensDue ({ s with accounts := accounts }.goto thread a) := by
  intro id hid
  have hold : id ∈ s.accounts.ids → id ∈ accounts.owners ∨ ∃ thread',
      (({ s with accounts := accounts }.goto thread a).threads thread').tokenFor = some id := by
    intro hold
    refine due_goto (s := { s with accounts := accounts }) ?_ fun h => ?_
    · exact (hdue id hold).imp_left fun h => (Accounts.owners_save hsave).symm ▸ h
    · rw [hat] at h
      cases h
  by_cases hstored : id ∈ s.accounts.ids
  · exact hold hstored
  · obtain rfl := ((Accounts.mem_ids_save hsave).mp hid).resolve_left hstored
    refine .inr ⟨thread, ?_⟩
    rw [goto_threads, if_pos rfl]
    exact ha hstored

theorem due_createToken {user : ℕ} {accounts : Accounts} (hdue : TokensDue s)
    (hat : (s.threads thread).tokenFor = some user)
    (hcreate : s.accounts.createToken user = some accounts) :
    TokensDue ({ s with accounts := accounts }.goto thread a) := by
  have howners := Accounts.owners_createToken hcreate
  intro id hid
  have hold : id ∈ s.accounts.ids := by
    obtain ⟨-, -, rfl⟩ := Accounts.createToken_cases hcreate
    exact hid
  refine due_goto ((hdue id hold).imp_left fun h => ?_) fun h => ?_
  · show id ∈ accounts.owners
    rw [howners]
    exact List.mem_append_left _ h
  · show id ∈ accounts.owners
    rw [howners, Option.some.inj (h.symm.trans hat)]
    exact List.mem_append_right _ (List.mem_singleton_self user)

/-- A startup makes the tokens of the accounts that it makes. -/
theorem tokens_ready {due : ℕ → Prop} (env : Environ) (salts : List ℕ) {accounts : Accounts}
    (h : ∀ id ∈ accounts.ids, id ∈ accounts.owners ∨ due id) :
    ∀ id ∈ (ready m false env salts accounts).2.ids,
      id ∈ (ready m false env salts accounts).2.owners ∨ due id := by
  refine Accounts.addUsers_invariant (P := fun t => ∀ id ∈ t.ids, id ∈ t.owners ∨ due id)
    ?_ (env.calls salts) h
  intro x u u' hu hadds id hid
  cases hadds with
  | reset =>
    rw [Accounts.ids, List.map_map] at hid
    exact hu id hid
  | created =>
    rw [Accounts.ids, List.map_append, List.mem_append] at hid
    rw [Accounts.owners, List.map_append, List.mem_append]
    rcases hid with hold | hnew
    · exact (hu id hold).imp .inl fun h => h
    · exact .inl (.inr hnew)

theorem TokensDue.moves (hdue : TokensDue s) (h : Moves m s l s') (hl : l ≠ .crash) :
    TokensDue s' := by
  cases h with
  | start env salts hstopped => exact tokens_ready env salts hdue
  | crash => exact absurd rfl hl
  | refused l => exact hdue
  | login l thread r now request hidle hr =>
    exact fun id hid => due_goto (hdue id hid) (by simp [hidle, Activity.tokenFor])
  | entered l thread r request hidle hr =>
    exact fun id hid => due_goto (hdue id hid) (by simp [hidle, Activity.tokenFor])
  | portal thread user granted request a hidle hfound ha =>
    exact fun id hid => due_goto (hdue id hid) (by simp [hidle, Activity.tokenFor])
  | ended thread refused htoken =>
    exact fun id hid => due_goto (hdue id hid)
      fun h => (htoken id h).resolve_left fun hnot => hnot hid
  | permitted thread refused user request a hat hsuperuser ha =>
    exact fun id hid => due_goto (hdue id hid) (by simp [hat, Activity.tokenFor])
  | saved thread refused user request accounts hat hsave =>
    refine due_save hdue (by rw [hat]; rfl) hsave fun hnew => ?_
    rw [if_neg hnew]
    rfl
  | restored thread refused user request accounts hat hcreate =>
    exact due_createToken hdue (by rw [hat]; rfl) hcreate
  | validated thread refused r body hat =>
    exact fun id hid => due_goto (hdue id hid) (by simp [hat, Activity.tokenFor])
  | updated thread refused r accounts hat hsave =>
    refine due_save hdue (by rw [hat]; rfl) hsave fun hnew => ?_
    rw [if_neg hnew]
    rfl
  | inserted thread refused body password hat hfree =>
    intro id hid
    rw [goto_accounts, Accounts.ids, Accounts.insert, List.map_append, List.mem_append] at hid
    rcases hid with hold | hnew
    · exact due_goto (hdue id hold) (by simp [hat, Activity.tokenFor])
    · refine .inr ⟨thread, ?_⟩
      rw [goto_threads, if_pos rfl, List.mem_singleton.mp hnew]
      rfl
  | tokenCreated thread refused user accounts hat hcreate =>
    exact due_createToken hdue (by rw [hat]; rfl) hcreate
  | deleted thread refused pk hat =>
    intro id hid
    obtain ⟨hold, hne⟩ := Accounts.mem_ids_delete.mp hid
    rcases hdue id hold with howned | ⟨thread', hthread⟩
    · exact .inl (Accounts.mem_owners_delete.mpr ⟨howned, hne⟩)
    · refine .inr ⟨thread', ?_⟩
      rw [goto_threads, if_neg]
      · exact hthread
      · rintro rfl
        rw [hat] at hthread
        cases hthread

/-- In a run without a crash each account has one token at most, each token belongs to
an account, and an account without one is one whose token a thread is about to make.
When no thread is, each account has its token. -/
theorem one_token_each (m : UserManager) (certificates : Bool) (accounts : Accounts)
    (h : accounts.Constrained) (howned : ∀ id ∈ accounts.ids, id ∈ accounts.owners)
    (ls : List AccountLabel) (hcrash : .crash ∉ ls) (t : AccountService)
    (hrun : exec (step m certificates) { accounts } ls = some t) :
    t.accounts.owners.Nodup ∧ (∀ id ∈ t.accounts.owners, id ∈ t.accounts.ids) ∧ TokensDue t ∧
      ((∀ thread, (t.threads thread).tokenFor = none) →
        ∀ id ∈ t.accounts.ids, ∃ token ∈ t.accounts.tokens, token.user = id ∧
          ∀ other ∈ t.accounts.tokens, other.user = id → other = token) := by
  have hstep : ∀ s l s', Sound s ∧ TokensDue s → l ≠ .crash → step m certificates s l = some s' →
      Sound s' ∧ TokensDue s' := fun s l s' hs hl h =>
    ⟨hs.1.moves (step_moves h), hs.2.moves (step_moves h) hl⟩
  have hls : Along (step m certificates) (fun _ l => l ≠ .crash) { accounts } ls := by
    apply Along.of_forall_mem
    rintro l hl _ rfl
    exact hcrash hl
  obtain ⟨hsound, hdue⟩ :=
    exec_invariant hstep ⟨sound_start h, fun id hid => .inl (howned id hid)⟩ hls hrun
  refine ⟨hsound.tables.owners, hsound.tables.owned, hdue, ?_⟩
  intro hnone id hid
  rcases hdue id hid with hmem | ⟨thread, hthread⟩
  · obtain ⟨token, htoken, huser⟩ := List.mem_map.mp hmem
    refine ⟨token, htoken, huser, fun other hother he => ?_⟩
    exact List.inj_on_of_nodup_map hsound.tables.owners hother htoken (he.trans huser.symm)
  · rw [hnone thread] at hthread
    cases hthread

/-- A server of one administrator, whose certificate names her. -/
def oneAdministrator : Accounts where
  rows := [{ id := 1, username := ['e', 'v', 'e'], isStaff := true, isSuperuser := true },
    { id := 2, username := ['b', 'o', 'b'] }]
  tokens := [⟨0, 1⟩, ⟨1, 2⟩]
  nextId := 3
  nextKey := 2

theorem constrained_oneAdministrator : oneAdministrator.Constrained :=
  ⟨by decide, by decide, by decide, by decide, by decide⟩

def certificateOf (name : List Char) : List Char := ['C', 'N', '='] ++ name

/-- The account of bob is deleted between the two statements of a login of his, and
comes back with a token of its own. -/
def deletedInLogin : List AccountLabel :=
  [.start {} [], .certificate 0 (certificateOf ['b', 'o', 'b']) 50 .other,
    .certificate 1 (certificateOf ['e', 'v', 'e']) 60 (.destroy 2), .advance 1 false,
    .advance 1 false, .advance 1 false, .advance 0 false, .advance 0 false, .advance 0 false]

theorem one_token_each_restored :
    ∃ t, exec (step ligatures true) { accounts := oneAdministrator } deletedInLogin = some t ∧
      t.accounts.tokens = [⟨0, 1⟩, ⟨2, 2⟩] ∧ t.accounts.owners.Nodup := by
  have hend : (exec (step ligatures true) { accounts := oneAdministrator } deletedInLogin).map
      (fun t => t.accounts.tokens) = some [⟨0, 1⟩, ⟨2, 2⟩] := by decide
  obtain ⟨t, ht, htokens⟩ := Option.map_eq_some_iff.mp hend
  exact ⟨t, ht, htokens, (one_token_each ligatures true oneAdministrator constrained_oneAdministrator
    (by decide) deletedInLogin (by decide) t ht).1⟩

end ScosSensor.AccountService
