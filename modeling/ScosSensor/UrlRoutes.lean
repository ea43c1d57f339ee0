import Mathlib.Data.List.Basic

/-!
# URL routes

A route is a list of path segments, literal ones and parameters with a converter.
A path is matched against the routes of a table in order. Reversing fills the
parameters in with keyword arguments, as long as the text of each is one that the
converter accepts; what is filled in is matched again by the same route.
-/
namespace ScosSensor.Routes

/-- A keyword argument of a view. -/
inductive Value where
  | text (t : String)
  | number (n : ℕ)
  deriving Repr, DecidableEq

/-- `str(value)`. -/
def Value.chars : Value → List Char
  | .text t => t.toList
  | .number n => Nat.toDigits 10 n

abbrev Kwargs := List (String × Value)

/-- The parameters of a path: `slug`, `int`, the key of a router, which is `[^/.]+`,
and a version, which is `v[0-9]+`. -/
inductive Converter where
  | slug
  | int
  | key
  | version
  deriving Repr, DecidableEq

def isSlugChar (c : Char) : Bool := c.isAlphanum || c == '-' || c == '_'

def Converter.accepts : Converter → List Char → Bool
  | .slug, s => !s.isEmpty && s.all isSlugChar
  | .int, s => !s.isEmpty && s.all Char.isDigit
  | .key, s => !s.isEmpty && s.all fun c => c != '/' && c != '.'
  | .version, s => s.head? == some 'v' && !s.tail.isEmpty && s.tail.all Char.isDigit

/-- The argument that the view gets for a segment. -/
def Converter.toPython : Converter → List Char → Value
  | .int, s => .number (Nat.ofDigitChars 10 s 0)
  | _, s => .text (String.ofList s)

inductive Part where
  | literal (text : String)
  | param (name : String) (c : Converter)
  deriving Repr, DecidableEq

def matchParts : List Part → List (List Char) → Option Kwargs
  | [], [] => some []
  | .literal text :: parts, s :: segments =>
    if s = text.toList then matchParts parts segments else none
  | .param name c :: parts, s :: segments =>
    if c.accepts s then (matchParts parts segments).map ((name, c.toPython s) :: ·) else none
  | _, _ => none

/-- The segments of a route, with the arguments filled in. `none` is `NoReverseMatch`. -/
def fillParts (kwargs : Kwargs) : List Part → Option (List (List Char))
  | [] => some []
  | .literal text :: parts => (fillParts kwargs parts).map (text.toList :: ·)
  | .param name c :: parts => do
    let value ← kwargs.lookup name
    if c.accepts value.chars then (fillParts kwargs parts).map (value.chars :: ·) else none

/-- The first route of the table that the path matches, and the arguments of its view. -/
def resolve {View : Type*} (routes : List (View × List Part)) (path : String) :
    Option (View × Kwargs) :=
  routes.findSome? fun route =>
    (matchParts route.2 (path.toList.splitOn '/')).map fun kwargs => (route.1, kwargs)

def reverse (parts : List Part) (kwargs : Kwargs) : Option String :=
  (fillParts kwargs parts).map fun segments => String.ofList (['/'].intercalate segments)

/-- What a route gives its view for the path that these arguments are filled in. -/
def received (kwargs : Kwargs) : List Part → Kwargs
  | [] => []
  | .literal _ :: parts => received kwargs parts
  | .param name c :: parts =>
    (name, c.toPython ((kwargs.lookup name).elim [] Value.chars)) :: received kwargs parts

/-- The parameters of a route. -/
def params : List Part → List String
  | [] => []
  | .literal _ :: parts => params parts
  | .param name _ :: parts => name :: params parts

variable {View : Type*} {kwargs : Kwargs} {parts : List Part} {segments : List (List Char)}
  {path : String} {c : Converter} {s : List Char}

/-- How a route matches, part by part. -/
inductive Matches : List Part → List (List Char) → Kwargs → Prop
  | nil : Matches [] [] []
  | literal (text : String) {parts : List Part} {segments : List (List Char)} {kwargs : Kwargs}
      (h : Matches parts segments kwargs) :
    Matches (.literal text :: parts) (text.toList :: segments) kwargs
  | param (name : String) (c : Converter) {s : List Char} {parts : List Part}
      {segments : List (List Char)} {kwargs : Kwargs} (haccepts : c.accepts s = true)
      (h : Matches parts segments kwargs) :
    Matches (.param name c :: parts) (s :: segments) ((name, c.toPython s) :: kwargs)

theorem matches_of_matchParts (h : matchParts parts segments = some kwargs) :
    Matches parts segments kwargs := by
  induction parts generalizing segments kwargs with
  | nil =>
    cases segments with
    | nil =>
      obtain rfl := Option.some.inj h
      exact .nil
    | cons s segments => cases h
  | cons part parts ih =>
    cases segments with
    | nil => cases part <;> cases h
    | cons s segments =>
      cases part with
      | literal text =>
        simp only [matchParts] at h
        split_ifs at h with htext
        rw [htext]
        exact .literal text (ih h)
      | param name c =>
        simp only [matchParts] at h
        split_ifs at h with haccepts
        obtain ⟨rest, hrest, rfl⟩ := Option.map_eq_some_iff.mp h
        exact .param name c haccepts (ih hrest)

namespace Matches

theorem keys (h : Matches parts segments kwargs) : kwargs.map Prod.fst = params parts := by
  induction h with
  | nil => rfl
  | literal text h ih => exact ih
  | param name c haccepts h ih => rw [List.map_cons, ih, params]

/-- A route matches only as many segments as it has parts. -/
theorem length (h : Matches parts segments kwargs) : segments.length = parts.length := by
  induction h with
  | nil => rfl
  | literal text h ih => rw [List.length_cons, List.length_cons, ih]
  | param name c haccepts h ih => rw [List.length_cons, List.length_cons, ih]

/-- A literal part is matched by its own text. -/
theorem segment (h : Matches parts segments kwargs) {text : String} {i : ℕ}
    (hpart : parts[i]? = some (.literal text)) : segments[i]? = some text.toList := by
  induction h generalizing i with
  | nil => cases hpart
  | literal first h ih =>
    cases i with
    | zero =>
      obtain rfl : first = text := by simpa using hpart
      rfl
    | succ i => exact ih hpart
  | param name c haccepts h ih =>
    cases i with
    | zero => simp at hpart
    | succ i => exact ih hpart

end Matches

theorem matchParts_eq_none_of_length (h : segments.length ≠ parts.length) :
    matchParts parts segments = none := by
  cases hmatch : matchParts parts segments with
  | none => rfl
  | some kwargs => exact absurd (matches_of_matchParts hmatch).length h

/-- A view is called with the parameters of one of its routes. -/
theorem keys_of_resolve {routes : List (View × List Part)} {view : View}
    (h : resolve routes path = some (view, kwargs)) :
    ∃ parts, (view, parts) ∈ routes ∧ kwargs.map Prod.fst = params parts := by
  obtain ⟨route, hroute, hmatch⟩ := List.exists_of_findSome?_eq_some h
  obtain ⟨args, hargs, heq⟩ := Option.map_eq_some_iff.mp hmatch
  obtain ⟨rfl, rfl⟩ := Prod.mk.inj heq
  exact ⟨route.2, hroute, (matches_of_matchParts hargs).keys⟩

theorem slash_notMem_of_accepts (h : c.accepts s = true) : '/' ∉ s := by
  intro hslash
  cases c with
  | slug =>
    simp only [Converter.accepts, Bool.and_eq_true, List.all_eq_true] at h
    have hchar : isSlugChar '/' = true := h.2 _ hslash
    revert hchar
    decide
  | int =>
    simp only [Converter.accepts, Bool.and_eq_true, List.all_eq_true] at h
    have hchar : Char.isDigit '/' = true := h.2 _ hslash
    revert hchar
    decide
  | key =>
    simp only [Converter.accepts, Bool.and_eq_true, List.all_eq_true] at h
    simpa using h.2 _ hslash
  | version =>
    cases s with
    | nil => cases hslash
    | cons a s =>
      simp only [Converter.accepts, List.head?_cons, List.tail_cons, Bool.and_eq_true,
        beq_iff_eq, Option.some.injEq, List.all_eq_true] at h
      obtain ⟨⟨rfl, -⟩, hdigits⟩ := h
      rcases List.mem_cons.mp hslash with heq | hmem
      · revert heq
        decide
      · have hchar : Char.isDigit '/' = true := hdigits _ hmem
        revert hchar
        decide

/-- A number is read back from its digits. -/
@[simp] theorem toPython_int_chars (n : ℕ) :
    Converter.int.toPython (Value.number n).chars = .number n := by
  simp [Converter.toPython, Value.chars]

theorem accepts_int_chars (n : ℕ) : Converter.int.accepts (Value.number n).chars = true := by
  simp only [Converter.accepts, Value.chars, Bool.and_eq_true, Bool.not_eq_true',
    List.isEmpty_eq_false_iff, List.all_eq_true]
  exact ⟨Nat.toDigits_ne_nil, fun c hc => Nat.isDigit_of_mem_toDigits (by decide) (by decide) hc⟩

/-- A route matches the segments that it was filled to. -/
theorem matchParts_fillParts (h : fillParts kwargs parts = some segments) :
    matchParts parts segments = some (received kwargs parts) := by
  induction parts generalizing segments with
  | nil =>
    obtain rfl := Option.some.inj h
    rfl
  | cons part parts ih =>
    cases part with
    | literal text =>
      obtain ⟨rest, hrest, rfl⟩ := Option.map_eq_some_iff.mp h
      simp [matchParts, received, ih hrest]
    | param name c =>
      obtain ⟨value, hvalue, hfill⟩ := Option.bind_eq_some_iff.mp h
      split_ifs at hfill with haccepts
      obtain ⟨rest, hrest, rfl⟩ := Option.map_eq_some_iff.mp hfill
      simp [matchParts, received, ih hrest, haccepts, hvalue]

/-- No segment that a route matches has a slash in it. -/
theorem Matches.slash_notMem (h : Matches parts segments kwargs)
    (hparts : ∀ text, .literal text ∈ parts → '/' ∉ text.toList) : ∀ s ∈ segments, '/' ∉ s := by
  induction h with
  | nil => simp
  | literal text h ih =>
    rw [List.forall_mem_cons]
    exact ⟨hparts text List.mem_cons_self, ih fun other hmem => hparts other (List.mem_cons_of_mem _ hmem)⟩
  | param name c haccepts h ih =>
    rw [List.forall_mem_cons]
    exact ⟨slash_notMem_of_accepts haccepts,
      ih fun text hmem => hparts text (List.mem_cons_of_mem _ hmem)⟩

/-- A reversed path is cut into the segments that it was made of. -/
theorem splitOn_reverse (hparts : ∀ text, .literal text ∈ parts → '/' ∉ text.toList)
    (hne : parts ≠ []) (h : reverse parts kwargs = some path) :
    fillParts kwargs parts = some (path.toList.splitOn '/') := by
  obtain ⟨segments, hfill, rfl⟩ := Option.map_eq_some_iff.mp h
  have hmatches := matches_of_matchParts (matchParts_fillParts hfill)
  have hsegments : segments ≠ [] := by
    rintro rfl
    exact hne (List.length_eq_zero_iff.mp hmatches.length.symm)
  rw [String.toList_ofList, List.splitOn_intercalate '/' (hmatches.slash_notMem hparts) hsegments,
    hfill]

/-- A reversed path is resolved to the view and the arguments that it was made for, when no
earlier route of the table matches it. -/
theorem resolve_reverse {view : View} {before after : List (View × List Part)}
    (hparts : ∀ text, .literal text ∈ parts → '/' ∉ text.toList) (hne : parts ≠ [])
    (h : reverse parts kwargs = some path)
    (hbefore : ∀ route ∈ before, matchParts route.2 (path.toList.splitOn '/') = none) :
    resolve (before ++ (view, parts) :: after) path = some (view, received kwargs parts) := by
  have hmatch := matchParts_fillParts (splitOn_reverse hparts hne h)
  have hnone : before.findSome? (fun route =>
      (matchParts route.2 (path.toList.splitOn '/')).map fun kwargs => (route.1, kwargs)) = none := by
    apply List.findSome?_eq_none_iff.mpr
    intro route hroute
    rw [hbefore route hroute, Option.map_none]
  rw [resolve, List.findSome?_append, hnone, Option.none_or, List.findSome?_cons, hmatch]
  rfl

end ScosSensor.Routes
