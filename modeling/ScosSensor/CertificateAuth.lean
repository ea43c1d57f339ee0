import ScosSensor.DistinguishedName
import ScosSensor.Table
import ScosSensor.TextSearch
import Mathlib.Data.Int.Notation

/-!
# Authentication by client certificate

The user is the one that the common name of the certificate's subject names. The
subject reaches the application as text, and the common name is what follows the
first `CN=` in it, up to a character that is neither a letter, a digit, white
space nor a dot. That is the common name exactly when no other attribute puts a
`CN=` before it and no character of it ends the match or is escaped.
-/
namespace ScosSensor

open TextSearch DistinguishedName

/-- The columns of an account that authentication reads and writes. -/
structure User where
  username : List Char
  lastLogin : Option ℤ := none
  deriving Repr, DecidableEq

/-- `exceptions.AuthenticationFailed`. -/
inductive AuthenticationFailed where
  | noMatchingUsername
  | errorOccurred
  deriving Repr, DecidableEq

def AuthenticationFailed.detail : AuthenticationFailed → String
  | .noMatchingUsername => "No matching username found!"
  | .errorOccurred => "Error occurred during certificate authentication!"

namespace CertificateAuthentication

/-- `\s` in a pattern for text. -/
def isSpace (c : Char) : Bool :=
  (9 ≤ c.toNat && c.toNat ≤ 13) || (0x1c ≤ c.toNat && c.toNat ≤ 0x20) || c.toNat == 0x85 ||
    c.toNat == 0xa0 || c.toNat == 0x1680 || (0x2000 ≤ c.toNat && c.toNat ≤ 0x200a) ||
    c.toNat == 0x2028 || c.toNat == 0x2029 || c.toNat == 0x202f || c.toNat == 0x205f ||
    c.toNat == 0x3000

/-- `[a-zA-Z0-9\s.]`. -/
def isCnChar (c : Char) : Bool := c.isAlphanum || isSpace c || c == '.'

def cnType : List Char := ['C', 'N']

/-- `CN=`. -/
def cnPrefix : List Char := ['C', 'N', '=']

/-- `get_cn_from_dn(cert_dn)`; `none` is the exception that there is no CN. -/
def getCnFromDn (certDn : List Char) : Option (List Char) :=
  (afterFirst cnPrefix certDn).map fun rest => rest.takeWhile isCnChar

/-- `authenticate(request)`, with the value of the header `X-Ssl-Client-Dn`. -/
def authenticate (now : ℤ) (certDn : Option (List Char)) (users : List User) :
    Except AuthenticationFailed (Option User) × List User :=
  match certDn with
  | none => (.ok none, users)
  | some [] => (.ok none, users)
  | some (c :: rest) =>
    match getCnFromDn (c :: rest) with
    | none => (.error .errorOccurred, users)
    | some cn =>
      match Table.get? User.username cn users with
      | none => (.error .noMatchingUsername, users)
      | some user =>
        let user := { user with lastLogin := some now }
        (.ok (some user), Table.update User.username cn (fun _ => user) users)

variable {users : List User} {user : User} {certDn cn v after : List Char} {now : ℤ} {c : Char}
  {dn : DistinguishedName}

/-- A user who is authenticated has the name that is read. -/
theorem username_of_authenticate (h : (authenticate now (some certDn) users).1 = .ok (some user)) :
    getCnFromDn certDn = some user.username := by
  unfold authenticate at h
  cases certDn with
  | nil => cases h
  | cons c rest =>
    dsimp only at h
    cases hcn : getCnFromDn (c :: rest) with
    | none => simp [hcn] at h
    | some cn =>
      cases huser : Table.get? User.username cn users with
      | none => simp [hcn, huser] at h
      | some found =>
        have hname : found.username = cn := Table.key_of_get? huser
        simp only [hcn, huser, Except.ok.injEq, Option.some.injEq] at h
        rw [← h, hname]

/-- The account with the name that is read is authenticated. -/
theorem authenticate_of_username (hcn : getCnFromDn certDn = some cn)
    (hstored : cn ∈ users.map User.username) :
    ∃ user, (authenticate now (some certDn) users).1 = .ok (some user) ∧ user.username = cn := by
  obtain ⟨found, hfound⟩ := Option.isSome_iff_exists.mp (Table.get?_isSome_iff.mpr hstored)
  have hname : found.username = cn := Table.key_of_get? hfound
  cases certDn with
  | nil => simp [getCnFromDn, afterFirst, cnPrefix] at hcn
  | cons c rest =>
    refine ⟨{ found with lastLogin := some now }, ?_, hname⟩
    simp [authenticate, hcn, hfound]

/-- For every set of accounts the user is the one named `v`, when there is one, and
never another. -/
def IdentityExact (certDn v : List Char) : Prop :=
  ∀ now users, (users.map User.username).Nodup →
    (∀ user, (authenticate now (some certDn) users).1 = .ok (some user) → user.username = v) ∧
      (v ∈ users.map User.username →
        ∃ user, (authenticate now (some certDn) users).1 = .ok (some user) ∧ user.username = v)

theorem identityExact_iff_getCn : IdentityExact certDn v ↔ getCnFromDn certDn = some v := by
  constructor
  · intro h
    cases hcn : getCnFromDn certDn with
    | none =>
      obtain ⟨user, huser, -⟩ := (h 0 [⟨v, none⟩] (List.nodup_singleton _)).2 (by simp)
      rw [username_of_authenticate huser] at hcn
      cases hcn
    | some cn =>
      have hother : cn ∈ [(⟨cn, none⟩ : User)].map User.username := by simp
      have hlogin : ∃ user, (authenticate 0 (some certDn) [⟨cn, none⟩]).1 = .ok (some user) ∧
          user.username = cn := authenticate_of_username hcn hother
      obtain ⟨user, huser, hname⟩ := hlogin
      rw [← hname, (h 0 [⟨cn, none⟩] (List.nodup_singleton _)).1 user huser]
  · intro hcn now users _
    constructor
    · intro user huser
      exact (Option.some.inj (hcn.symm.trans (username_of_authenticate huser))).symm
    · exact authenticate_of_username hcn

/-- The characters that neither end the match nor are escaped inside of a value. -/
def isPlain (c : Char) : Bool := c.isAlphanum || c == '.' || c == ' '

/-- A common name of letters, digits, dots and inner spaces. -/
def Plain (v : List Char) : Prop :=
  (∀ c ∈ v, isPlain c = true) ∧ v.head? ≠ some ' ' ∧ v.getLast? ≠ some ' '

/-- The first `CN=` of a text is followed by `v`, as far as the match goes. -/
def FirstReads (text v : List Char) : Prop :=
  ∃ rest, afterFirst cnPrefix text = some (v ++ rest) ∧ (∀ c ∈ v, isCnChar c = true) ∧
    ∀ c ∈ rest.head?, isCnChar c = false

/-- Another attribute puts a `CN=` before the common name. -/
def Decoy (dn : DistinguishedName) : Prop := cnPrefix <:+: textBefore cnType (parts dn)

/-- No decoy stands before a common name that is plain, or what the first decoy
reads is the same. -/
def Readable (dn : DistinguishedName) (v : List Char) : Prop :=
  (¬ Decoy dn ∧ Plain v) ∨ (Decoy dn ∧ FirstReads (textBefore cnType (parts dn)) v)

theorem isAlphanum_iff : c.isAlphanum = true ↔ (48 ≤ c.toNat ∧ c.toNat ≤ 57) ∨
    (65 ≤ c.toNat ∧ c.toNat ≤ 90) ∨ (97 ≤ c.toNat ∧ c.toNat ≤ 122) := by
  have hdef : c.isAlphanum = ((decide (c.val ≥ 65 ∧ c.val ≤ 90) || (c.val ≥ 97 && c.val ≤ 122)) ||
      (c.val ≥ 48 && c.val ≤ 57)) := rfl
  simp only [hdef, Bool.or_eq_true, Bool.and_eq_true, decide_eq_true_eq, ge_iff_le,
    UInt32.le_iff_toNat_le, Char.toNat]
  simp
  omega

theorem isPlain_iff : isPlain c = true ↔ c.isAlphanum = true ∨ c.toNat = 46 ∨ c.toNat = 32 := by
  simp [isPlain, ← Char.toNat_inj, or_assoc]

theorem isCnChar_of_isPlain (h : isPlain c = true) : isCnChar c = true := by
  simp only [isPlain, Bool.or_eq_true, beq_iff_eq] at h
  rcases h with (halnum | rfl) | rfl
  · simp [isCnChar, halnum]
  · rfl
  · rfl

/-- A character of the class is written as it is when it is plain and no space at
an end. -/
theorem escapeChar_eq_self_iff {atStart atEnd : Bool} (hc : isCnChar c = true) :
    escapeChar atStart atEnd c = [c] ↔
      isPlain c = true ∧ (c = ' ' → atStart = false ∧ atEnd = false) := by
  unfold escapeChar
  split_ifs with hspecial hcode
  · simp only [List.cons.injEq, reduceCtorEq, and_false, false_iff, not_and]
    intro hplain hspace
    rw [isPlain_iff, isAlphanum_iff] at hplain
    simp only [specials, List.mem_cons, List.not_mem_nil, or_false, ← Char.toNat_inj] at hspecial hspace
    simp at hspecial hspace
    rcases hspecial with hspecial | hspecial | ⟨hspecial, hend⟩
    · omega
    · omega
    · obtain ⟨hstart, hlast⟩ := hspace hspecial
      simp [hstart, hlast] at hend
  · have hplain : ¬ isPlain c = true := by
      rw [isPlain_iff, isAlphanum_iff]
      omega
    refine ⟨fun hself => ?_, fun hplain' => absurd hplain'.1 hplain⟩
    cases hoctets : String.utf8EncodeChar c with
    | nil => exact absurd hoctets String.utf8EncodeChar_ne_nil
    | cons octet octets =>
      rw [hoctets, List.flatMap_cons, List.cons_append] at hself
      obtain rfl := (List.cons.inj hself).1
      simp at hcode
  · push Not at hspecial
    have hplain : isPlain c = true := by
      rw [isPlain_iff, isAlphanum_iff]
      simp only [isCnChar, isSpace, Bool.or_eq_true, Bool.and_eq_true, isAlphanum_iff,
        ← Char.toNat_inj, decide_eq_true_eq, beq_iff_eq] at hc
      simp at hc hcode
      omega
    simp only [hplain, true_and, true_iff]
    intro hspace
    simpa using hspecial.2.2 hspace

/-- What is read of an escaped value is the value when it is plain. -/
theorem takeWhile_escape_eq_iff {atStart : Bool} (hafter : ∀ c ∈ after.head?, isCnChar c = false) :
    (escape atStart v ++ after).takeWhile isCnChar = v ↔
      (∀ c ∈ v, isPlain c = true) ∧ (atStart = true → v.head? ≠ some ' ') ∧
        v.getLast? ≠ some ' ' := by
  induction v generalizing atStart with
  | nil =>
    cases after with
    | nil => simp [escape]
    | cons c after => simp [escape, hafter c rfl]
  | cons c rest ih =>
    have hlast : (c :: rest).getLast? ≠ some ' ' ↔
        (c = ' ' → rest.isEmpty = false) ∧ rest.getLast? ≠ some ' ' := by
      cases rest <;> simp
    have hread : (escape atStart (c :: rest) ++ after).takeWhile isCnChar = c :: rest ↔
        (isCnChar c = true ∧ escapeChar atStart rest.isEmpty c = [c]) ∧
          (escape false rest ++ after).takeWhile isCnChar = rest := by
      rw [escape, List.append_assoc]
      obtain hself | ⟨tail, htail⟩ := escapeChar_cases atStart rest.isEmpty c
      · rw [hself, List.singleton_append, List.takeWhile_cons]
        cases hc : isCnChar c <;> simp
      · have hbackslash : isCnChar '\\' = false := rfl
        rw [htail, List.cons_append, List.takeWhile_cons, hbackslash]
        constructor
        · intro h
          cases h
        · rintro ⟨⟨hc, hself⟩, -⟩
          rw [← (List.cons.inj hself).1, hbackslash] at hc
          cases hc
    have hchar : isCnChar c = true ∧ escapeChar atStart rest.isEmpty c = [c] ↔
        isPlain c = true ∧ (c = ' ' → atStart = false ∧ rest.isEmpty = false) := by
      constructor
      · rintro ⟨hc, hself⟩
        exact (escapeChar_eq_self_iff hc).mp hself
      · intro hplain
        have hc : isCnChar c = true := isCnChar_of_isPlain hplain.1
        exact ⟨hc, (escapeChar_eq_self_iff hc).mpr hplain⟩
    rw [hread, hchar, ih, hlast]
    constructor
    · rintro ⟨⟨hc, hspace⟩, hrest, -, hend⟩
      refine ⟨List.forall_mem_cons.mpr ⟨hc, hrest⟩, ?_, fun h => (hspace h).2, hend⟩
      intro hstart hhead
      have hno : atStart = false := (hspace (Option.some.inj hhead)).1
      rw [hstart] at hno
      cases hno
    · rintro ⟨hplain, hstart, hinner, hend⟩
      obtain ⟨hc, hrest⟩ := List.forall_mem_cons.mp hplain
      refine ⟨⟨hc, fun h => ⟨?_, hinner h⟩⟩, hrest, (fun h => nomatch h), hend⟩
      cases atStart with
      | false => rfl
      | true => exact absurd (congrArg some h) (hstart rfl)

/-- What stands before the common name ends with a separator, so a decoy there is
read to its end and no further. -/
theorem separator_mem_of_decoy {before rest : List Char}
    (hsep : before = [] ∨ ∃ text, before = text ++ [','] ∨ before = text ++ ['+'])
    (h : afterFirst cnPrefix before = some rest) : ∃ c ∈ rest, isCnChar c = false := by
  obtain ⟨start, hstart⟩ := infix_of_afterFirst h
  have hcomma : isCnChar ',' = false := rfl
  have hplus : isCnChar '+' = false := rfl
  have hlast : before.getLast? = some ',' ∨ before.getLast? = some '+' := by
    rcases hsep with rfl | ⟨text, rfl | rfl⟩
    · simp [cnPrefix] at hstart
    · simp
    · simp
  cases rest using List.reverseRecOn with
  | nil => simp [hstart, cnPrefix] at hlast
  | append_singleton rest c =>
    rw [hstart, List.getLast?_append] at hlast
    refine ⟨c, by simp, ?_⟩
    rcases hlast with hlast | hlast
    · simpa [show c = ',' by simpa using hlast] using hcomma
    · simpa [show c = '+' by simpa using hlast] using hplus

/-- The user is the one that the common name names exactly when the name is readable. -/
theorem identity_exact_iff (hcn : valuesOf cnType dn = [.text v]) :
    IdentityExact (render dn) v ↔ Readable dn v := by
  obtain ⟨after, hrender, hafter, hbefore⟩ := render_eq_of_valuesOf hcn
  have hend : ∀ c ∈ after.head?, isCnChar c = false := by
    rcases hafter with rfl | ⟨rest, rfl | rfl⟩
    · simp
    · simp [isCnChar, isSpace]
    · simp [isCnChar, isSpace]
  have hsplit : render dn = textBefore cnType (parts dn) ++ cnPrefix ++ (escape true v ++ after) := by
    rw [hrender]
    simp [cnType, cnPrefix, valueText]
  rw [identityExact_iff_getCn, getCnFromDn, hsplit]
  by_cases hdecoy : Decoy dn
  · obtain ⟨rest, hrest⟩ := Option.isSome_iff_exists.mp (afterFirst_isSome_iff.mpr hdecoy)
    obtain ⟨c, hc, hstop⟩ := separator_mem_of_decoy hbefore hrest
    rw [List.append_assoc, afterFirst_append hrest, Option.map_some, Option.some.injEq,
      takeWhile_append_of_mem hc hstop, takeWhile_eq_iff]
    simp [Readable, FirstReads, hdecoy, hrest]
  · have hread : afterFirst cnPrefix
        (textBefore cnType (parts dn) ++ cnPrefix ++ (escape true v ++ after)) =
          some (escape true v ++ after) := afterFirst_of_not_infix (by decide) hdecoy
    rw [hread, Option.map_some, Option.some.injEq, takeWhile_escape_eq_iff hend]
    simp [Readable, Plain, hdecoy]

def alice : List Char := ['a', 'l', 'i', 'c', 'e']

def aliceSmith : List Char := alice ++ ['-', 's', 'm', 'i', 't', 'h']

/-- A subject of an organisation and a common name. -/
def subject (commonName : List Char) : DistinguishedName :=
  [⟨⟨['O'], .text ['N', 'T', 'I', 'A']⟩, []⟩, ⟨⟨cnType, .text commonName⟩, []⟩]

theorem alice_identity_exact : IdentityExact (render (subject alice)) alice := by
  have hdecoy : ¬ Decoy (subject alice) := by
    unfold Decoy
    decide
  have hplain : Plain alice :=
    ⟨by simp [alice, isPlain_iff, isAlphanum_iff], by decide, by decide⟩
  exact (identity_exact_iff rfl).mpr (.inl ⟨hdecoy, hplain⟩)

/-- The match ends at a hyphen, and the certificate of one user logs in another. -/
theorem hyphenated_name_logs_in_another :
    valuesOf cnType (subject aliceSmith) = [.text aliceSmith] ∧
      (authenticate 0 (some (render (subject aliceSmith))) [⟨alice, none⟩, ⟨aliceSmith, none⟩]).1 =
        .ok (some ⟨alice, some 0⟩) ∧
      ¬ IdentityExact (render (subject aliceSmith)) aliceSmith := by
  have hlogin : (authenticate 0 (some (render (subject aliceSmith)))
      [⟨alice, none⟩, ⟨aliceSmith, none⟩]).1 = .ok (some ⟨alice, some 0⟩) := rfl
  refine ⟨rfl, hlogin, ?_⟩
  intro hexact
  have hname : alice = aliceSmith := (hexact 0 _ (by decide)).1 _ hlogin
  cases hname

end CertificateAuthentication

end ScosSensor
