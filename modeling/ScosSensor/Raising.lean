import Mathlib.Logic.Basic

/-!
# Programs that raise

A program changes a state and returns or raises; what it has changed stays when it
raises. `Ends x s Q E` is the weakest precondition of `x` at `s`: the program returns
with `Q` or raises with `E`. Each way of putting programs together has an equation for
it, so that the precondition of a program is computed from its parts.
-/
namespace ScosSensor.Raising

universe u

/-- A program on the state `σ` that may raise an `ε`. -/
abbrev Program (ε σ α : Type u) := ExceptT ε (StateM σ) α

variable {ε σ α β : Type u} {x : Program ε σ α} {s : σ} {Q Q' : α → σ → Prop} {E E' : ε → σ → Prop}

/-- What is raised, or what is returned, and the state that is left. -/
def result (x : Program ε σ α) (s : σ) : Except ε α × σ := StateT.run (ExceptT.run x) s

/-- From `s` the program returns with `Q` or raises with `E`. -/
def Ends (x : Program ε σ α) (s : σ) (Q : α → σ → Prop) (E : ε → σ → Prop) : Prop :=
  match result x s with
  | (.ok a, t) => Q a t
  | (.error err, t) => E err t

/-- The outcome of a call of something else. -/
def call (outcome : Except ε α) : Program ε σ α :=
  match outcome with
  | .ok a => pure a
  | .error err => throw err

@[simp] theorem ends_pure (a : α) : Ends (pure a : Program ε σ α) s Q E ↔ Q a s := Iff.rfl

@[simp] theorem ends_throw (err : ε) : Ends (throw err : Program ε σ α) s Q E ↔ E err s := Iff.rfl

@[simp] theorem ends_modify {Q : PUnit → σ → Prop} (f : σ → σ) :
    Ends (modify f : Program ε σ PUnit) s Q E ↔ Q ⟨⟩ (f s) := Iff.rfl

@[simp] theorem ends_get {Q : σ → σ → Prop} : Ends (get : Program ε σ σ) s Q E ↔ Q s s := Iff.rfl

@[simp] theorem ends_call_ok (a : α) :
    Ends (call (.ok a) : Program ε σ α) s Q E ↔ Q a s := Iff.rfl

@[simp] theorem ends_call_error (err : ε) :
    Ends (call (.error err) : Program ε σ α) s Q E ↔ E err s := Iff.rfl

theorem ends_call {outcome : Except ε α} : Ends (call outcome : Program ε σ α) s Q E ↔
    (∀ a, outcome = .ok a → Q a s) ∧ ∀ err, outcome = .error err → E err s := by
  cases outcome <;> simp

theorem result_bind (f : α → Program ε σ β) : result (x >>= f) s =
    match result x s with
    | (.ok a, t) => result (f a) t
    | (.error err, t) => (.error err, t) := by
  simp only [result, ExceptT.run_bind, StateT.run_bind]
  rcases StateT.run (ExceptT.run x) s with ⟨out, t⟩
  cases out <;> rfl

theorem result_tryCatch (handler : ε → Program ε σ α) : result (tryCatch x handler) s =
    match result x s with
    | (.ok a, t) => (.ok a, t)
    | (.error err, t) => result (handler err) t := by
  simp only [result, ExceptT.run_tryCatch, StateT.run_bind]
  rcases StateT.run (ExceptT.run x) s with ⟨out, t⟩
  cases out <;> rfl

@[simp] theorem ends_bind (f : α → Program ε σ β) {Q : β → σ → Prop} :
    Ends (x >>= f) s Q E ↔ Ends x s (fun a t => Ends (f a) t Q E) E := by
  unfold Ends
  rw [result_bind]
  rcases result x s with ⟨out, t⟩
  cases out <;> rfl

@[simp] theorem ends_map (f : α → β) {Q : β → σ → Prop} :
    Ends (f <$> x) s Q E ↔ Ends x s (fun a t => Q (f a) t) E := by
  rw [map_eq_pure_bind, ends_bind]
  rfl

@[simp] theorem ends_tryCatch (handler : ε → Program ε σ α) :
    Ends (tryCatch x handler) s Q E ↔ Ends x s Q (fun err t => Ends (handler err) t Q E) := by
  unfold Ends
  rw [result_tryCatch]
  rcases result x s with ⟨out, t⟩
  cases out <;> rfl

/-- The rule of consequence. -/
theorem Ends.mono (h : Ends x s Q E) (hreturn : ∀ a t, Q a t → Q' a t)
    (hraise : ∀ err t, E err t → E' err t) : Ends x s Q' E' := by
  revert h
  unfold Ends
  rcases result x s with ⟨out, t⟩
  cases out with
  | ok a => exact hreturn a t
  | error err => exact hraise err t

/-- A program returns or raises. -/
theorem Ends.cases (h : Ends x s Q E) : (∃ a t, result x s = (.ok a, t) ∧ Q a t) ∨
    ∃ err t, result x s = (.error err, t) ∧ E err t := by
  revert h
  unfold Ends
  rcases result x s with ⟨out, t⟩
  cases out with
  | ok a => exact fun h => .inl ⟨a, t, rfl, h⟩
  | error err => exact fun h => .inr ⟨err, t, rfl, h⟩

section Loops

variable {γ : Type u} {body : γ → Program ε σ PUnit} {Q : PUnit → σ → Prop}

@[simp] theorem ends_forM_nil : Ends (([] : List γ).forM body) s Q E ↔ Q ⟨⟩ s := Iff.rfl

@[simp] theorem ends_forM_cons (a : γ) (as : List γ) : Ends ((a :: as).forM body) s Q E ↔
    Ends (body a) s (fun _ t => Ends (as.forM body) t Q E) E :=
  ends_bind _

end Loops

end ScosSensor.Raising
