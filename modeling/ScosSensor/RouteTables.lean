import ScosSensor.UrlRoutes

/-!
# Tables of routes that do not overlap

Two routes are apart when no path matches both, which shows at one of their parts
or at their lengths. In a table whose routes are pairwise apart every path has at
most one route, the order of the table does not matter, and whatever a route is
reversed to is resolved to that route again.
-/
namespace ScosSensor.Routes

/-- A parameter, or a literal without a slash. -/
def Part.plain : Part → Bool
  | .literal text => !text.toList.contains '/'
  | .param _ _ => true

/-- The segments that match a part. -/
def Part.accepts : Part → List Char → Bool
  | .literal text, s => decide (s = text.toList)
  | .param _ c, s => c.accepts s

/-- No segment matches both parts. -/
def Part.rejects : Part → Part → Bool
  | .literal a, .literal b => decide (a ≠ b)
  | .literal a, .param _ c => !c.accepts a.toList
  | .param _ c, .literal b => !c.accepts b.toList
  | .param _ _, .param _ _ => false

/-- No path matches both routes. -/
def apart : List Part → List Part → Bool
  | [], [] => false
  | p :: ps, q :: qs => p.rejects q || apart ps qs
  | _, _ => true

/-- A table without overlaps. -/
def Unambiguous {View : Type*} (routes : List (View × List Part)) : Prop :=
  routes.Pairwise fun r r' => apart r.2 r'.2 = true

instance {View : Type*} (routes : List (View × List Part)) : Decidable (Unambiguous routes) :=
  inferInstanceAs (Decidable (routes.Pairwise fun r r' => apart r.2 r'.2 = true))

variable {View : Type*} {routes routes' : List (View × List Part)} {p q : Part}
  {parts parts' : List Part} {kwargs kwargs' : Kwargs} {s : List Char}
  {segments : List (List Char)} {path : String} {view : View}

theorem Part.not_accepts_of_rejects (h : p.rejects q = true) (hp : p.accepts s = true)
    (hq : q.accepts s = true) : False := by
  cases p with
  | literal a =>
    obtain rfl : s = a.toList := by simpa [accepts] using hp
    cases q with
    | literal b =>
      have hne : a ≠ b := by simpa [rejects] using h
      exact hne (String.toList_inj.mp (by simpa [accepts] using hq))
    | param name c => simp_all [accepts, rejects]
  | param name c =>
    cases q with
    | literal b =>
      obtain rfl : s = b.toList := by simpa [accepts] using hq
      simp_all [accepts, rejects]
    | param name' c' => cases h

theorem Matches.accepts (h : Matches parts segments kwargs) :
    List.Forall₂ (fun p s => Part.accepts p s = true) parts segments := by
  induction h with
  | nil => exact .nil
  | literal text h ih => exact .cons (by simp [Part.accepts]) ih
  | param name c haccepts h ih => exact .cons haccepts ih

theorem not_accepted_of_apart
    (h : List.Forall₂ (fun p s => Part.accepts p s = true) parts segments)
    (h' : List.Forall₂ (fun p s => Part.accepts p s = true) parts' segments)
    (hapart : apart parts parts' = true) : False := by
  induction h generalizing parts' with
  | nil =>
    cases h'
    cases hapart
  | cons hp h ih =>
    cases h' with
    | cons hq h' =>
      rw [apart, Bool.or_eq_true] at hapart
      rcases hapart with hrejects | hapart
      · exact Part.not_accepts_of_rejects hrejects hp hq
      · exact ih h' hapart

/-- Of two routes that are apart a path matches one at most. -/
theorem matchParts_eq_none_of_apart (hapart : apart parts parts' = true)
    (h : matchParts parts' segments = some kwargs) : matchParts parts segments = none := by
  cases hmatch : matchParts parts segments with
  | none => rfl
  | some kwargs' =>
    exact (not_accepted_of_apart (matches_of_matchParts hmatch).accepts
      (matches_of_matchParts h).accepts hapart).elim

/-- In an unambiguous table a path is resolved to any route that it matches. -/
theorem resolve_iff (hroutes : Unambiguous routes) :
    resolve routes path = some (view, kwargs) ↔
      ∃ parts, (view, parts) ∈ routes ∧
        matchParts parts (path.toList.splitOn '/') = some kwargs := by
  constructor
  · intro h
    obtain ⟨route, hroute, hmatch⟩ := List.exists_of_findSome?_eq_some h
    obtain ⟨args, hargs, heq⟩ := Option.map_eq_some_iff.mp hmatch
    obtain ⟨rfl, rfl⟩ := Prod.mk.inj heq
    exact ⟨route.2, hroute, hargs⟩
  · rintro ⟨parts, hmem, hmatch⟩
    obtain ⟨before, after, rfl⟩ := List.mem_iff_append.mp hmem
    have hbefore : before.findSome? (fun route =>
        (matchParts route.2 (path.toList.splitOn '/')).map fun kwargs => (route.1, kwargs)) =
        none := by
      apply List.findSome?_eq_none_iff.mpr
      intro route hroute
      have hapart := (List.pairwise_append.mp hroutes).2.2 route hroute _ List.mem_cons_self
      rw [matchParts_eq_none_of_apart hapart hmatch, Option.map_none]
    rw [resolve, List.findSome?_append, hbefore, Option.none_or, List.findSome?_cons, hmatch]
    rfl

/-- What a route of an unambiguous table is reversed to leads to its view again. -/
theorem resolve_reverse_of_mem (hroutes : Unambiguous routes) (hmem : (view, parts) ∈ routes)
    (hparts : parts.all Part.plain = true) (hne : parts ≠ [])
    (h : reverse parts kwargs = some path) :
    resolve routes path = some (view, received kwargs parts) := by
  refine (resolve_iff hroutes).mpr
    ⟨parts, hmem, matchParts_fillParts (splitOn_reverse ?_ hne h)⟩
  intro text htext
  have hplain : (Part.literal text).plain = true := List.all_eq_true.mp hparts _ htext
  simpa [Part.plain] using hplain

end ScosSensor.Routes
