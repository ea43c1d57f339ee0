import Mathlib.Data.List.Basic

/-!
# Counters and the numbers in use

Every key has at most one counter, and `next` reads the number it gives out
next. Numbers are used under their key. A counter may be set to any number that
is past all numbers in use, in particular to a smaller one than before, and a
key may lose its counter.
-/
namespace ScosSensor.Counters

variable {κ : Type*} {next next' : κ → Option ℕ} {used used' : List (κ × ℕ)} {x : κ × ℕ} {k : κ}
  {n : ℕ}

/-- The counters that there are, are past the numbers in use. -/
def Below (next : κ → Option ℕ) (used : List (κ × ℕ)) : Prop :=
  ∀ x ∈ used, ∀ n, next x.1 = some n → x.2 < n

/-- A number that is past all numbers in use under its key. -/
def Ahead (x : κ × ℕ) (used : List (κ × ℕ)) : Prop := ∀ y ∈ used, y.1 = x.1 → y.2 < x.2

theorem Below.subset (h : Below next used) (hsub : ∀ x ∈ used', x ∈ used) : Below next used' :=
  fun x hx => h x (hsub x hx)

theorem Below.append (h : Below next used) (h' : Below next used') : Below next (used ++ used') := by
  intro x hx
  rcases List.mem_append.mp hx with hx | hx
  · exact h x hx
  · exact h' x hx

theorem Ahead.subset (h : Ahead x used) (hsub : ∀ y ∈ used', y ∈ used) : Ahead x used' :=
  fun y hy => h y (hsub y hy)

/-- A number ahead of the others is not one of them. -/
theorem Ahead.notMem (h : Ahead x used) : x ∉ used := fun hx => Nat.lt_irrefl _ (h x hx rfl)

/-- A counter gives out a number that is ahead. -/
theorem Below.ahead (h : Below next used) (hk : next k = some n) : Ahead (k, n) used := by
  intro y hy hkey
  exact h y hy n (hkey ▸ hk)

end ScosSensor.Counters
