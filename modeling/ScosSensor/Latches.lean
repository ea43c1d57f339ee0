import Mathlib.Data.List.Basic

/-!
# Latches

A bit that some events set and some clear, and that stays as it is otherwise. In
one event the clearing comes after the setting. The bit is set at the end exactly
when an event has set it and neither that event nor a later one has cleared it.
-/
namespace ScosSensor.Latches

variable {α : Type*} {set clear : α → Bool}

/-- The bit after the events. -/
def latched (set clear : α → Bool) (b : Bool) (xs : List α) : Bool :=
  xs.foldl (fun b x => (b || set x) && !clear x) b

@[simp] theorem latched_nil (b : Bool) : latched set clear b [] = b := rfl

@[simp] theorem latched_cons (b : Bool) (x : α) (xs : List α) :
    latched set clear b (x :: xs) = latched set clear ((b || set x) && !clear x) xs := rfl

/-- Some event of the list sets the bit, and from it on none clears it. -/
def SetSince (set clear : α → Bool) (xs : List α) : Prop :=
  ∃ before x after, xs = before ++ x :: after ∧ set x = true ∧ ∀ y ∈ x :: after, clear y = false

theorem setSince_cons {x : α} {xs : List α} : SetSince set clear (x :: xs) ↔
    (set x = true ∧ ∀ y ∈ x :: xs, clear y = false) ∨ SetSince set clear xs := by
  constructor
  · rintro ⟨before, y, after, hsplit, hset, hclear⟩
    cases before with
    | nil =>
      obtain ⟨rfl, rfl⟩ := List.cons.inj hsplit
      exact .inl ⟨hset, hclear⟩
    | cons z before =>
      obtain ⟨-, rfl⟩ := List.cons.inj hsplit
      exact .inr ⟨before, y, after, rfl, hset, hclear⟩
  · rintro (⟨hset, hclear⟩ | ⟨before, y, after, rfl, hset, hclear⟩)
    · exact ⟨[], x, xs, rfl, hset, hclear⟩
    · exact ⟨x :: before, y, after, rfl, hset, hclear⟩

theorem latched_iff (b : Bool) (xs : List α) : latched set clear b xs = true ↔
    (b = true ∧ ∀ x ∈ xs, clear x = false) ∨ SetSince set clear xs := by
  induction xs generalizing b with
  | nil => simp [SetSince]
  | cons x xs ih =>
    rw [latched_cons, ih, setSince_cons]
    simp only [Bool.and_eq_true, Bool.or_eq_true, Bool.not_eq_true', List.forall_mem_cons]
    tauto

theorem latched_false_iff (xs : List α) :
    latched set clear false xs = true ↔ SetSince set clear xs := by
  rw [latched_iff]
  simp

end ScosSensor.Latches
