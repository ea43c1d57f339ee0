import Mathlib.Data.Int.Interval
import Mathlib.Data.List.Pairwise

/-!
# Blocks with a minimum duration

A block of a program that reads a clock when it is entered and is not left before the
clock reads something else. The clock does not go back. Then no two entries of the block
read the same, so there are no more entries than there are readings. The entries are
kept as a list of what they have read, the last one first.
-/
namespace ScosSensor.MinimumDurations

section Order

variable {τ : Type*} [LinearOrder τ] {entries : List τ} {c now : τ}

/-- The block may be under way when the clock has come to `c`. -/
def Entered (entries : List τ) (c : τ) : Prop :=
  entries.Pairwise (· > ·) ∧ ∀ x ∈ entries.head?, x ≤ c

/-- The block has been left by the time that the clock has come to `c`. -/
def Left (entries : List τ) (c : τ) : Prop :=
  entries.Pairwise (· > ·) ∧ ∀ x ∈ entries.head?, x < c

theorem entered_nil (c : τ) : Entered [] c := ⟨.nil, fun x hx => by cases hx⟩

theorem left_nil (c : τ) : Left [] c := ⟨.nil, fun x hx => by cases hx⟩

theorem Left.entered (h : Left entries c) : Entered entries c := ⟨h.1, fun x hx => (h.2 x hx).le⟩

theorem Entered.mono (h : Entered entries c) (hle : c ≤ now) : Entered entries now :=
  ⟨h.1, fun x hx => (h.2 x hx).trans hle⟩

theorem Left.mono (h : Left entries c) (hle : c ≤ now) : Left entries now :=
  ⟨h.1, fun x hx => (h.2 x hx).trans_le hle⟩

/-- The clock reads something else than on entry. -/
theorem Entered.leave (h : Entered entries c) (hle : c ≤ now) (hne : entries.head? ≠ some now) :
    Left entries now := by
  refine ⟨h.1, fun x hx => lt_of_le_of_ne ((h.2 x hx).trans hle) ?_⟩
  rintro rfl
  exact hne hx

/-- The clock reads something later than ever before. -/
theorem Entered.head?_ne (h : Entered entries c) (hlt : c < now) : entries.head? ≠ some now :=
  fun hx => absurd (h.2 now hx) (not_le.mpr hlt)

/-- The block is entered again. -/
theorem Left.enter (h : Left entries c) (hle : c ≤ now) : Entered (now :: entries) now := by
  refine ⟨List.pairwise_cons.mpr ⟨fun x hx => ?_, h.1⟩, ?_⟩
  · cases entries with
    | nil => cases hx
    | cons y entries =>
      have hy : y < now := (h.2 y rfl).trans_le hle
      rcases List.mem_cons.mp hx with rfl | hx
      · exact hy
      · exact ((List.pairwise_cons.mp h.1).1 x hx).trans hy
  · rintro x ⟨⟩
    exact le_refl _

/-- The last entry has read the most. -/
theorem Entered.mem_le (h : Entered entries c) {x : τ} (hx : x ∈ entries) : x ≤ c := by
  cases entries with
  | nil => cases hx
  | cons y entries =>
    have hy : y ≤ c := h.2 y rfl
    rcases List.mem_cons.mp hx with rfl | hx
    · exact hy
    · exact ((List.pairwise_cons.mp h.1).1 x hx).le.trans hy

end Order

/-- There is at most one entry for each reading of the clock. -/
theorem Entered.length_le {entries : List ℤ} {c c₀ : ℤ} (h : Entered entries c)
    (hfirst : ∀ x ∈ entries, c₀ ≤ x) (hle : c₀ ≤ c) : (entries.length : ℤ) ≤ c - c₀ + 1 := by
  have hnodup : entries.Nodup := h.1.imp ne_of_gt
  have hsub : entries.toFinset ⊆ Finset.Icc c₀ c := by
    intro x hx
    rw [List.mem_toFinset] at hx
    exact Finset.mem_Icc.mpr ⟨hfirst x hx, h.mem_le hx⟩
  have hcard := Finset.card_le_card hsub
  rw [List.toFinset_card_of_nodup hnodup, Int.card_Icc] at hcard
  omega

end ScosSensor.MinimumDurations
