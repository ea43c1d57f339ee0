import Mathlib.Logic.Basic
import Mathlib.Data.List.Basic

/-!
# Runs of a labelled machine

A machine is a partial step function: `step s l` is the state after the label
`l` is taken in `s`, and `none` when `l` is not enabled there. A run is a list
of labels. Side conditions on a run are read along it, at the state each label
is taken from, so that a guarantee can ask for exactly the steps it needs.
-/
namespace ScosSensor.Runs

variable {σ ℓ : Type*} {step : σ → ℓ → Option σ} {ok ok' : σ → ℓ → Prop}

/-- Take the labels in order. The result is `none` when one is not enabled. -/
def exec (step : σ → ℓ → Option σ) : σ → List ℓ → Option σ
  | s, [] => some s
  | s, l :: ls => (step s l).bind fun s' => exec step s' ls

/-- Every label of the run meets `ok` in the state it is taken from. -/
def Along (step : σ → ℓ → Option σ) (ok : σ → ℓ → Prop) : σ → List ℓ → Prop
  | _, [] => True
  | s, l :: ls => ok s l ∧ ∀ s', step s l = some s' → Along step ok s' ls

/-- Every state of the run meets `I`, the first and the last included. -/
def Throughout (step : σ → ℓ → Option σ) (I : σ → Prop) : σ → List ℓ → Prop
  | s, [] => I s
  | s, l :: ls => I s ∧ ∀ s', step s l = some s' → Throughout step I s' ls

@[simp] theorem exec_nil (s : σ) : exec step s [] = some s := rfl

theorem exec_cons {s t : σ} {l : ℓ} {ls : List ℓ} :
    exec step s (l :: ls) = some t ↔ ∃ s', step s l = some s' ∧ exec step s' ls = some t := by
  simp only [exec, Option.bind_eq_some_iff]

theorem exec_append {s t : σ} {ls ms : List ℓ} :
    exec step s (ls ++ ms) = some t ↔ ∃ s', exec step s ls = some s' ∧ exec step s' ms = some t := by
  induction ls generalizing s with
  | nil => simp
  | cons l ls ih =>
    simp only [List.cons_append, exec_cons, ih]
    constructor
    · rintro ⟨s₁, h₁, s₂, h₂, h₃⟩
      exact ⟨s₂, ⟨s₁, h₁, h₂⟩, h₃⟩
    · rintro ⟨s₂, ⟨s₁, h₁, h₂⟩, h₃⟩
      exact ⟨s₁, h₁, s₂, h₂, h₃⟩

@[simp] theorem along_nil (s : σ) : Along step ok s [] := trivial

/-- Side conditions that can be decided in every state are decided along a run. -/
instance Along.decidable [∀ s l, Decidable (ok s l)] :
    (s : σ) → (ls : List ℓ) → Decidable (Along step ok s ls)
  | _, [] => .isTrue trivial
  | s, l :: ls =>
    match hstep : step s l with
    | none => decidable_of_iff (ok s l) (by simp [Along, hstep])
    | some s' =>
      have := Along.decidable s' ls
      decidable_of_iff (ok s l ∧ Along step ok s' ls) (by simp [Along, hstep])

theorem Along.and {s : σ} {ls : List ℓ} (h : Along step ok s ls) (h' : Along step ok' s ls) :
    Along step (fun s l => ok s l ∧ ok' s l) s ls := by
  induction ls generalizing s with
  | nil => trivial
  | cons l ls ih => exact ⟨⟨h.1, h'.1⟩, fun s' hstep => ih (h.2 s' hstep) (h'.2 s' hstep)⟩

theorem Along.mono (himp : ∀ s l, ok s l → ok' s l) {s : σ} {ls : List ℓ}
    (h : Along step ok s ls) : Along step ok' s ls := by
  induction ls generalizing s with
  | nil => trivial
  | cons l ls ih => exact ⟨himp s l h.1, fun s' hs => ih (h.2 s' hs)⟩

theorem Along.of_forall (h : ∀ s l, ok s l) (s : σ) (ls : List ℓ) : Along step ok s ls := by
  induction ls generalizing s with
  | nil => trivial
  | cons l ls ih => exact ⟨h s l, fun s' _ => ih s'⟩

theorem Along.of_forall_mem {ls : List ℓ} (h : ∀ l ∈ ls, ∀ s, ok s l) {s : σ} :
    Along step ok s ls := by
  induction ls generalizing s with
  | nil => trivial
  | cons l ls ih =>
    refine ⟨h l List.mem_cons_self s, fun s' _ => ?_⟩
    exact ih fun l' hl' => h l' (List.mem_cons_of_mem l hl')

theorem along_replicate {l : ℓ} (h : ∀ s, ok s l) (n : ℕ) (s : σ) :
    Along step ok s (List.replicate n l) := by
  induction n generalizing s with
  | zero => trivial
  | succ n ih => exact ⟨h s, fun s' _ => ih s'⟩

theorem along_append {s : σ} {ls ms : List ℓ} :
    Along step ok s (ls ++ ms) ↔
      Along step ok s ls ∧ ∀ s', exec step s ls = some s' → Along step ok s' ms := by
  induction ls generalizing s with
  | nil => simp
  | cons l ls ih =>
    simp only [List.cons_append, Along, exec_cons, ih]
    constructor
    · rintro ⟨hl, h⟩
      exact ⟨⟨hl, fun s' hs => (h s' hs).1⟩, fun t ⟨s', hs, ht⟩ => (h s' hs).2 t ht⟩
    · rintro ⟨⟨hl, h⟩, h'⟩
      exact ⟨hl, fun s' hs => ⟨h s' hs, fun t ht => h' t ⟨s', hs, ht⟩⟩⟩

/-- Every label of a run is taken in the state that the labels before it lead to. -/
theorem along_position (s : σ) (ls : List ℓ) :
    Along step (fun s' l => ∃ before after, ls = before ++ l :: after ∧
      exec step s before = some s') s ls := by
  induction ls generalizing s with
  | nil => trivial
  | cons l ls ih =>
    refine ⟨⟨[], ls, rfl, rfl⟩, fun s' hs => (ih s').mono ?_⟩
    rintro s'' l' ⟨before, after, rfl, hbefore⟩
    exact ⟨l :: before, after, rfl, exec_cons.mpr ⟨s', hs, hbefore⟩⟩

/-- What one admissible step preserves, an admissible run preserves. -/
theorem exec_invariant {I : σ → Prop}
    (hstep : ∀ s l s', I s → ok s l → step s l = some s' → I s')
    {s t : σ} {ls : List ℓ} (hI : I s) (hok : Along step ok s ls)
    (hrun : exec step s ls = some t) : I t := by
  induction ls generalizing s with
  | nil => exact Option.some.inj hrun ▸ hI
  | cons l ls ih =>
    obtain ⟨s', hs, hrest⟩ := exec_cons.mp hrun
    exact ih (hstep s l s' hI hok.1 hs) (hok.2 s' hs) hrest

/-- What an invariant makes sure of at every admissible label holds along the run. -/
theorem along_of_invariant {I : σ → Prop} {post : σ → ℓ → Prop}
    (hstep : ∀ s l s', I s → ok s l → step s l = some s' → I s')
    (hpost : ∀ s l, I s → ok s l → post s l) {s : σ} {ls : List ℓ} (hI : I s)
    (hok : Along step ok s ls) : Along step post s ls := by
  induction ls generalizing s with
  | nil => trivial
  | cons l ls ih =>
    exact ⟨hpost s l hI hok.1, fun s' hs => ih (hstep s l s' hI hok.1 hs) (hok.2 s' hs)⟩

/-- A reflexive and transitive relation between the two ends of each admissible
step relates the two ends of a run. The invariant is available at every step. -/
theorem exec_relation {I : σ → Prop} {R : σ → σ → Prop} (hrefl : ∀ s, R s s)
    (htrans : ∀ s t u, R s t → R t u → R s u)
    (hI : ∀ s l s', I s → ok s l → step s l = some s' → I s')
    (hR : ∀ s l s', I s → ok s l → step s l = some s' → R s s')
    {s t : σ} {ls : List ℓ} (h : I s) (hok : Along step ok s ls)
    (hrun : exec step s ls = some t) : R s t := by
  induction ls generalizing s with
  | nil => exact Option.some.inj hrun ▸ hrefl s
  | cons l ls ih =>
    obtain ⟨s', hs, hrest⟩ := exec_cons.mp hrun
    exact htrans s s' t (hR s l s' h hok.1 hs)
      (ih (hI s l s' h hok.1 hs) (hok.2 s' hs) hrest)

theorem Throughout.first {I : σ → Prop} {s : σ} {ls : List ℓ} (h : Throughout step I s ls) : I s := by
  cases ls with
  | nil => exact h
  | cons l ls => exact h.1

theorem Throughout.of_forall {I : σ → Prop} (h : ∀ s, I s) (s : σ) (ls : List ℓ) :
    Throughout step I s ls := by
  induction ls generalizing s with
  | nil => exact h s
  | cons l ls ih => exact ⟨h s, fun s' _ => ih s'⟩

theorem Throughout.mono {I J : σ → Prop} (himp : ∀ s, I s → J s) {s : σ} {ls : List ℓ}
    (h : Throughout step I s ls) : Throughout step J s ls := by
  induction ls generalizing s with
  | nil => exact himp s h
  | cons l ls ih => exact ⟨himp s h.1, fun s' hs => ih (h.2 s' hs)⟩

theorem Throughout.last {I : σ → Prop} {s t : σ} {ls : List ℓ} (h : Throughout step I s ls)
    (hrun : exec step s ls = some t) : I t := by
  induction ls generalizing s with
  | nil => exact Option.some.inj hrun ▸ h
  | cons l ls ih =>
    obtain ⟨s', hstep, hrest⟩ := exec_cons.mp hrun
    exact ih (h.2 s' hstep) hrest

/-- When a step out of a good state meets `post` and ends in a good state exactly if
it meets `ok`, a run does so all along exactly if its steps all meet `ok`. -/
theorem throughout_and_along_iff {J I : σ → Prop} {post : σ → ℓ → Prop}
    (hJ : ∀ s l s', J s → I s → step s l = some s' → J s')
    (hI : ∀ s l s', J s → I s → step s l = some s' → (I s' ∧ post s l ↔ ok s l))
    {s t : σ} {ls : List ℓ} (hs : J s) (hgood : I s) (hrun : exec step s ls = some t) :
    Throughout step I s ls ∧ Along step post s ls ↔ Along step ok s ls := by
  induction ls generalizing s with
  | nil => exact iff_of_true ⟨hgood, trivial⟩ trivial
  | cons l ls ih =>
    obtain ⟨s', hstep, hrest⟩ := exec_cons.mp hrun
    have hnext : ∀ s'', step s l = some s'' → s'' = s' := by
      intro s'' h
      exact Option.some.inj (h.symm.trans hstep)
    have hhere := hI s l s' hs hgood hstep
    constructor
    · rintro ⟨⟨-, hall⟩, hpost, hposts⟩
      have htail := hall s' hstep
      refine ⟨hhere.mp ⟨htail.first, hpost⟩, fun s'' h => ?_⟩
      obtain rfl := hnext s'' h
      exact (ih (hJ s l s'' hs hgood hstep) htail.first hrest).mp ⟨htail, hposts s'' hstep⟩
    · rintro ⟨hok, hoks⟩
      obtain ⟨hgood', hpost⟩ := hhere.mpr hok
      obtain ⟨htail, hposts⟩ :=
        (ih (hJ s l s' hs hgood hstep) hgood' hrest).mpr (hoks s' hstep)
      refine ⟨⟨hgood, fun s'' h => ?_⟩, hpost, fun s'' h => ?_⟩
      · rwa [hnext s'' h]
      · rwa [hnext s'' h]

/-- When a step out of a good state ends in a good one exactly if it meets `ok`, the
states of a run are all good exactly if its steps all meet `ok`. -/
theorem throughout_iff_along {J I : σ → Prop}
    (hJ : ∀ s l s', J s → I s → step s l = some s' → J s')
    (hI : ∀ s l s', J s → I s → step s l = some s' → (I s' ↔ ok s l))
    {s t : σ} {ls : List ℓ} (hs : J s) (hgood : I s) (hrun : exec step s ls = some t) :
    Throughout step I s ls ↔ Along step ok s ls := by
  have hboth : Throughout step I s ls ∧ Along step (fun _ _ => True) s ls ↔ Along step ok s ls := by
    refine throughout_and_along_iff hJ ?_ hs hgood hrun
    intro s l s' hs hgood hstep
    rw [and_iff_left trivial]
    exact hI s l s' hs hgood hstep
  rwa [and_iff_left (Along.of_forall (fun _ _ => trivial) s ls)] at hboth

/-- A run takes no more steps than are left at its beginning. -/
theorem exec_bounded {I : σ → Prop} {own : ℓ → Bool} (stepsLeft : σ → ℕ)
    (hI : ∀ s l s', I s → ok s l → step s l = some s' → I s')
    (hless : ∀ s l s', I s → ok s l → step s l = some s' →
      stepsLeft s' + (if own l then 1 else 0) ≤ stepsLeft s)
    {s t : σ} {ls : List ℓ} (h : I s) (hok : Along step ok s ls)
    (hrun : exec step s ls = some t) : stepsLeft t + ls.countP own ≤ stepsLeft s := by
  induction ls generalizing s with
  | nil =>
    obtain rfl := Option.some.inj hrun
    exact Nat.le_refl _
  | cons l ls ih =>
    obtain ⟨s', hs, hrest⟩ := exec_cons.mp hrun
    have hsteps := hless s l s' h hok.1 hs
    have hrestSteps := ih (hI s l s' h hok.1 hs) (hok.2 s' hs) hrest
    rw [List.countP_cons]
    omega

/-- A run takes no more steps than are left at its beginning and are added on the way,
`charge` by each label that adds any. -/
theorem exec_charged {I : σ → Prop} {own adds : ℓ → Bool} (stepsLeft : σ → ℕ) (charge : ℕ)
    (hI : ∀ s l s', I s → ok s l → step s l = some s' → I s')
    (hless : ∀ s l s', I s → ok s l → step s l = some s' →
      stepsLeft s' + (if own l then 1 else 0) ≤ stepsLeft s + if adds l then charge else 0)
    {s t : σ} {ls : List ℓ} (h : I s) (hok : Along step ok s ls) (hrun : exec step s ls = some t) :
    stepsLeft t + ls.countP own ≤ stepsLeft s + charge * ls.countP adds := by
  induction ls generalizing s with
  | nil =>
    obtain rfl := Option.some.inj hrun
    exact Nat.le_refl _
  | cons l ls ih =>
    obtain ⟨s', hs, hrest⟩ := exec_cons.mp hrun
    have hsteps := hless s l s' h hok.1 hs
    have hrestSteps := ih (hI s l s' h hok.1 hs) (hok.2 s' hs) hrest
    rw [List.countP_cons, List.countP_cons, Nat.mul_add]
    split_ifs at hsteps ⊢ <;> omega

/-- With a bound on the steps that are left to take, the run that takes as many
of them is done. Steps of others are free, and what is done stays done. -/
theorem exec_reaches {I : σ → Prop} {own : ℓ → Bool} (done : σ → Prop) (stepsLeft : σ → ℕ)
    (hI : ∀ s l s', I s → ok s l → step s l = some s' → I s')
    (hdone : ∀ s l s', I s → ok s l → done s → step s l = some s' → done s')
    (hzero : ∀ s, I s → stepsLeft s = 0 → done s)
    (hless : ∀ s l s', I s → ok s l → stepsLeft s ≠ 0 → step s l = some s' →
      stepsLeft s' + (if own l then 1 else 0) ≤ stepsLeft s)
    {s t : σ} {ls : List ℓ} (h : I s) (hok : Along step ok s ls)
    (hrun : exec step s ls = some t) (hcount : stepsLeft s ≤ ls.countP own) : done t := by
  induction ls generalizing s with
  | nil =>
    obtain rfl := Option.some.inj hrun
    exact hzero s h (Nat.le_zero.mp hcount)
  | cons l ls ih =>
    by_cases hleft : stepsLeft s = 0
    · have hboth : ∀ s l s', I s ∧ done s → ok s l → step s l = some s' → I s' ∧ done s' :=
        fun s l s' hs hl hstep => ⟨hI s l s' hs.1 hl hstep, hdone s l s' hs.1 hl hs.2 hstep⟩
      exact (exec_invariant hboth ⟨h, hzero s h hleft⟩ hok hrun).2
    · obtain ⟨s', hs, hrest⟩ := exec_cons.mp hrun
      have hsteps := hless s l s' h hok.1 hleft hs
      rw [List.countP_cons] at hcount
      exact ih (hI s l s' h hok.1 hs) (hok.2 s' hs) hrest (by omega)

/-- When a step against `ok` loses the run and what is lost stays lost, a run that
is not lost has kept to `ok`. -/
theorem along_of_not_lost {quiet : σ → ℓ → Prop} {lost : σ → Prop}
    (hviolation : ∀ s l s', quiet s l → ¬ ok s l → step s l = some s' → lost s')
    (hlost : ∀ s l s', lost s → quiet s l → step s l = some s' → lost s')
    {s t : σ} {ls : List ℓ} (hquiet : Along step quiet s ls) (hrun : exec step s ls = some t)
    (hnot : ¬ lost t) : Along step ok s ls := by
  induction ls generalizing s with
  | nil => trivial
  | cons l ls ih =>
    obtain ⟨s', hs, hrest⟩ := exec_cons.mp hrun
    constructor
    · by_contra hbad
      have hlost' := hviolation s l s' hquiet.1 hbad hs
      exact hnot (exec_invariant hlost hlost' (hquiet.2 s' hs) hrest)
    · intro s'' hs'
      obtain rfl := Option.some.inj (hs.symm.trans hs')
      exact ih (hquiet.2 s' hs) hrest

/-- When another machine follows every admissible step by a run of its own, it
follows every admissible run. -/
theorem exec_simulation {τ μ : Type*} {step' : τ → μ → Option τ} {R : σ → τ → Prop}
    (hsim : ∀ s l s' u, R s u → ok s l → step s l = some s' →
      ∃ ms u', exec step' u ms = some u' ∧ R s' u')
    {s t : σ} {u : τ} {ls : List ℓ} (h : R s u) (hok : Along step ok s ls)
    (hrun : exec step s ls = some t) : ∃ ms u', exec step' u ms = some u' ∧ R t u' := by
  induction ls generalizing s u with
  | nil => exact ⟨[], u, rfl, Option.some.inj hrun ▸ h⟩
  | cons l ls ih =>
    obtain ⟨s', hstep, hrest⟩ := exec_cons.mp hrun
    obtain ⟨ms, u', hms, h'⟩ := hsim s l s' u h hok.1 hstep
    obtain ⟨ms', u'', hms', h''⟩ := ih h' (hok.2 s' hstep) hrest
    exact ⟨ms ++ ms', u'', exec_append.mpr ⟨u', hms, hms'⟩, h''⟩

/-! ### A clock that does not go back -/

section Clock

variable {τ : Type*} [LE τ] [DecidableLE τ] {reading : σ → ℓ → Option τ}

/-- The machine beside a clock: a label that reads the clock is enabled only with a
reading that is not before the last one. -/
def withClock (step : σ → ℓ → Option σ) (reading : σ → ℓ → Option τ) (x : τ × σ) (l : ℓ) :
    Option (τ × σ) :=
  if x.1 ≤ (reading x.2 l).getD x.1 then
    (step x.2 l).map fun s => ((reading x.2 l).getD x.1, s)
  else none

theorem withClock_some {x y : τ × σ} {l : ℓ} (h : withClock step reading x l = some y) :
    x.1 ≤ y.1 ∧ step x.2 l = some y.2 ∧ ∀ now, reading x.2 l = some now → y.1 = now := by
  unfold withClock at h
  split_ifs at h with hle
  obtain ⟨s, hs, rfl⟩ := Option.map_eq_some_iff.mp h
  refine ⟨hle, hs, ?_⟩
  intro now hnow
  rw [hnow]
  rfl

/-- A side condition on the steps of the machine, beside a clock. -/
theorem Along.withClock {x : τ × σ} {ls : List ℓ} (h : Along step ok x.2 ls) :
    Along (withClock step reading) (fun x l => ok x.2 l) x ls := by
  induction ls generalizing x with
  | nil => trivial
  | cons l ls ih => exact ⟨h.1, fun y hy => ih (h.2 y.2 (withClock_some hy).2.1)⟩

end Clock

end ScosSensor.Runs
