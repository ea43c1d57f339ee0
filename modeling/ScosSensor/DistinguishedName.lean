import Mathlib.Data.List.Basic

/-!
# Distinguished names as text

A distinguished name is a sequence of relative names, each a set of one or more
attributes, and is written backwards: the last relative name first, commas
between relative names and plus signs between attributes of one. Characters that
have a meaning there, spaces at the ends of a value, and characters outside of
printable ASCII are escaped.
-/
namespace ScosSensor

/-- The value of an attribute: a string, or the octets of the encoding when the
type has no string form. -/
inductive AttributeValue where
  | text (chars : List Char)
  | ber (octets : List UInt8)
  deriving Repr, DecidableEq

structure Attribute where
  type : List Char
  value : AttributeValue
  deriving Repr, DecidableEq

/-- A relative distinguished name has at least one attribute. -/
structure Rdn where
  first : Attribute
  others : List Attribute := []
  deriving Repr, DecidableEq

abbrev DistinguishedName := List Rdn

namespace DistinguishedName

def hexPair (octet : UInt8) : List Char :=
  [(Nat.digitChar (octet.toNat / 16)).toUpper, (Nat.digitChar (octet.toNat % 16)).toUpper]

/-- The characters that are escaped wherever they stand. -/
def specials : List Char := [',', '+', '"', '\\', '<', '>', ';']

def escapeChar (atStart atEnd : Bool) (c : Char) : List Char :=
  if c ∈ specials ∨ (c = '#' ∧ atStart = true) ∨ (c = ' ' ∧ (atStart = true ∨ atEnd = true)) then
    ['\\', c]
  else if c.toNat < 0x20 ∨ 0x7f ≤ c.toNat then
    (String.utf8EncodeChar c).flatMap fun octet => '\\' :: hexPair octet
  else [c]

/-- The characters of a value, escaped; `atStart` holds at its first character. -/
def escape (atStart : Bool) : List Char → List Char
  | [] => []
  | c :: rest => escapeChar atStart rest.isEmpty c ++ escape false rest

def valueText : AttributeValue → List Char
  | .text chars => escape true chars
  | .ber octets => '#' :: octets.flatMap hexPair

def attributeText (a : Attribute) : List Char := a.type ++ '=' :: valueText a.value

/-- The attributes of a relative name, each with the separator before it. -/
def rdnParts (separator : List Char) (r : Rdn) : List (List Char × Attribute) :=
  (separator, r.first) :: r.others.map fun a => (['+'], a)

/-- The attributes in the order in which they are written. -/
def parts (dn : DistinguishedName) : List (List Char × Attribute) :=
  match dn.reverse with
  | [] => []
  | r :: rest => rdnParts [] r ++ rest.flatMap (rdnParts [','])

def partText (part : List Char × Attribute) : List Char := part.1 ++ attributeText part.2

/-- The string form of a distinguished name. -/
def render (dn : DistinguishedName) : List Char := (parts dn).flatMap partText

/-- The attributes of a type, in the order in which they are written. -/
def valuesOf (type : List Char) (dn : DistinguishedName) : List AttributeValue :=
  ((parts dn).filter fun part => part.2.type = type).map fun part => part.2.value

/-- What is written before the first attribute of a type. -/
def textBefore (type : List Char) : List (List Char × Attribute) → List Char
  | [] => []
  | part :: rest => if part.2.type = type then part.1 else partText part ++ textBefore type rest

/-- An escaped character begins with a backslash. -/
theorem escapeChar_cases (atStart atEnd : Bool) (c : Char) :
    escapeChar atStart atEnd c = [c] ∨ ∃ rest, escapeChar atStart atEnd c = '\\' :: rest := by
  unfold escapeChar
  split_ifs with hspecial hcode
  · exact .inr ⟨[c], rfl⟩
  · right
    cases hoctets : String.utf8EncodeChar c with
    | nil => exact absurd hoctets String.utf8EncodeChar_ne_nil
    | cons octet octets => exact ⟨_, rfl⟩
  · exact .inl rfl

/-- Separators are commas and plus signs, and only the first part has none. -/
theorem separator_of_parts {dn : DistinguishedName} {part : List Char × Attribute}
    {before after : List (List Char × Attribute)} (h : parts dn = before ++ part :: after) :
    part.1 = [','] ∨ part.1 = ['+'] ∨ part.1 = [] ∧ before = [] := by
  have hrdn {separator : List Char} {r : Rdn} {p : List Char × Attribute}
      (hp : p ∈ rdnParts separator r) : p.1 = separator ∨ p.1 = ['+'] := by
    rcases List.mem_cons.mp hp with rfl | hp
    · exact .inl rfl
    · obtain ⟨a, -, rfl⟩ := List.mem_map.mp hp
      exact .inr rfl
  unfold parts at h
  cases hdn : dn.reverse with
  | nil =>
    rw [hdn] at h
    simp at h
  | cons r rest =>
    rw [hdn] at h
    simp only [rdnParts, List.cons_append] at h
    cases before with
    | nil =>
      obtain ⟨rfl, -⟩ := List.cons.inj h
      exact .inr (.inr ⟨rfl, rfl⟩)
    | cons first before =>
      obtain ⟨-, htail⟩ := List.cons.inj h
      have hpart : part ∈ r.others.map (fun a => (['+'], a)) ++
          rest.flatMap (rdnParts [',']) := by
        simp [htail]
      rcases List.mem_append.mp hpart with hpart | hpart
      · obtain ⟨a, -, rfl⟩ := List.mem_map.mp hpart
        exact .inr (.inl rfl)
      · obtain ⟨r', -, hpart⟩ := List.mem_flatMap.mp hpart
        obtain hsep | hsep := hrdn hpart
        · exact .inl hsep
        · exact .inr (.inl hsep)

/-- The part that holds the only attribute of a type. -/
theorem part_of_valuesOf {dn : DistinguishedName} {type : List Char} {value : AttributeValue}
    (h : valuesOf type dn = [value]) :
    ∃ before part after, parts dn = before ++ part :: after ∧ (∀ p ∈ before, p.2.type ≠ type) ∧
      part.2.type = type ∧ part.2.value = value := by
  cases hfind : (parts dn).find? fun part => part.2.type = type with
  | none =>
    have hnone : (parts dn).filter (fun part => part.2.type = type) = [] := by
      simpa [List.filter_eq_nil_iff] using List.find?_eq_none.mp hfind
    simp [valuesOf, hnone] at h
  | some part =>
    obtain ⟨htype, before, after, hparts, hbefore⟩ := List.find?_eq_some_iff_append.mp hfind
    have hne : ∀ p ∈ before, p.2.type ≠ type := by simpa using hbefore
    have htype : part.2.type = type := of_decide_eq_true htype
    refine ⟨before, part, after, hparts, hne, htype, ?_⟩
    have hnone : before.filter (fun part => part.2.type = type) = [] := by
      simpa [List.filter_eq_nil_iff] using hne
    simp only [valuesOf, hparts, List.filter_append, hnone, List.filter_cons, htype, decide_true,
      if_true, List.nil_append, List.map_cons] at h
    exact (List.cons.inj h).1

/-- The text around the only attribute of a type: what is written before it, its
type and value, and then the end or a separator. -/
theorem render_eq_of_valuesOf {dn : DistinguishedName} {type : List Char} {value : AttributeValue}
    (h : valuesOf type dn = [value]) :
    ∃ after, render dn = textBefore type (parts dn) ++ (type ++ '=' :: valueText value) ++ after ∧
      (after = [] ∨ ∃ rest, after = ',' :: rest ∨ after = '+' :: rest) ∧
      (textBefore type (parts dn) = [] ∨
        ∃ text, textBefore type (parts dn) = text ++ [','] ∨
          textBefore type (parts dn) = text ++ ['+']) := by
  obtain ⟨before, part, after, hparts, hbefore, htype, hvalue⟩ := part_of_valuesOf h
  have htextBefore : textBefore type (parts dn) = before.flatMap partText ++ part.1 := by
    rw [hparts]
    clear hparts
    induction before with
    | nil => simp [textBefore, htype]
    | cons p before ih =>
      have hne : p.2.type ≠ type := hbefore p List.mem_cons_self
      have hrest := ih fun q hq => hbefore q (List.mem_cons_of_mem p hq)
      simp [textBefore, hne, hrest]
  refine ⟨after.flatMap partText, ?_, ?_, ?_⟩
  · rw [htextBefore]
    simp [render, hparts, partText, attributeText, htype, hvalue]
  · cases after with
    | nil => exact .inl rfl
    | cons p after =>
      right
      have hsplit : parts dn = (before ++ [part]) ++ p :: after := by simp [hparts]
      simp only [List.flatMap_cons, partText]
      obtain hsep | hsep | ⟨-, hnil⟩ := separator_of_parts hsplit
      · exact ⟨_, .inl (by rw [hsep]; rfl)⟩
      · exact ⟨_, .inr (by rw [hsep]; rfl)⟩
      · simp at hnil
  · rw [htextBefore]
    obtain hsep | hsep | ⟨hsep, hnil⟩ := separator_of_parts hparts
    · exact .inr ⟨_, .inl (by rw [hsep])⟩
    · exact .inr ⟨_, .inr (by rw [hsep])⟩
    · exact .inl (by simp [hsep, hnil])

end DistinguishedName

end ScosSensor
