import Mathlib.Data.List.Infix
import Mathlib.Data.List.TakeWhile
import Mathlib.Algebra.Order.Group.Nat
import Mathlib.Tactic.Linarith

/-!
# Streaks in a list

The streak at the end of a list is what a counter holds that every element with a
property advances and every other one resets. A list has a streak of a length when
its counter reaches that length at some point. Rearranging a list can make and
break streaks, within bounds that depend on the numbers of elements only.
-/
namespace ScosSensor.Streaks

variable {α : Type*} {p : α → Bool} {k m : ℕ} {l l' : List α} {x : α}

/-- The number of elements at the end of the list that have the property. -/
def streak (p : α → Bool) (l : List α) : ℕ := (l.reverse.takeWhile p).length

/-- There are `k` consecutive elements that have the property. -/
def HasStreak (p : α → Bool) (k : ℕ) (l : List α) : Prop :=
  ∃ run, run <:+: l ∧ run.length = k ∧ ∀ x ∈ run, p x = true

@[simp] theorem streak_nil : streak p [] = 0 := rfl

@[simp] theorem streak_append_singleton :
    streak p (l ++ [x]) = if p x then streak p l + 1 else 0 := by
  unfold streak
  by_cases hx : p x = true
  · simp [hx]
  · simp [hx]

theorem streak_eq_zero (h : ∀ x, l.getLast? = some x → p x = false) : streak p l = 0 := by
  induction l using List.reverseRecOn with
  | nil => rfl
  | append_singleton l x ih =>
    have hx : p x = false := h x (by simp)
    rw [streak_append_singleton, hx]
    rfl

/-- The streak at the end, element by element. -/
theorem le_streak_iff : k ≤ streak p l ↔ ∃ run, run <:+ l ∧ run.length = k ∧ ∀ x ∈ run, p x = true := by
  induction l using List.reverseRecOn generalizing k with
  | nil =>
    simp only [streak_nil, Nat.le_zero, List.suffix_nil, exists_eq_left, List.length_nil,
      List.not_mem_nil, false_implies, implies_true, and_true]
    exact eq_comm
  | append_singleton l x ih =>
    rw [streak_append_singleton]
    by_cases hx : p x = true
    · rw [if_pos hx]
      cases k with
      | zero => exact iff_of_true (Nat.zero_le _) ⟨[], List.nil_suffix, rfl, by simp⟩
      | succ k =>
        rw [Nat.add_le_add_iff_right, ih]
        constructor
        · rintro ⟨run, hsuffix, hlength, hall⟩
          refine ⟨run ++ [x], List.suffix_append_inj_of_length_eq rfl |>.mpr ⟨hsuffix, rfl⟩, ?_, ?_⟩
          · simp [hlength]
          · intro y hy
            rcases List.mem_append.mp hy with hy | hy
            · exact hall y hy
            · exact List.mem_singleton.mp hy ▸ hx
        · rintro ⟨run, hsuffix, hlength, hall⟩
          obtain rfl | ⟨front, rfl, hfront⟩ := List.suffix_concat_iff.mp hsuffix
          · simp at hlength
          · refine ⟨front, hfront, by simpa using hlength, ?_⟩
            exact fun y hy => hall y (List.mem_append_left _ hy)
    · rw [if_neg hx, Nat.le_zero]
      constructor
      · rintro rfl
        exact ⟨[], List.nil_suffix, rfl, by simp⟩
      · rintro ⟨run, hsuffix, rfl, hall⟩
        obtain rfl | ⟨front, rfl, hfront⟩ := List.suffix_concat_iff.mp hsuffix
        · rfl
        · exact absurd (hall x (by simp)) hx

/-- The streak at the end, index by index. -/
theorem le_streak_iff_getElem : k ≤ streak p l ↔
    k ≤ l.length ∧ ∀ i x, l[i]? = some x → l.length ≤ i + k → p x = true := by
  rw [le_streak_iff]
  constructor
  · rintro ⟨run, ⟨front, rfl⟩, rfl, hall⟩
    refine ⟨by simp, fun i x hx hle => ?_⟩
    rw [List.length_append] at hle
    rw [List.getElem?_append_right (by omega)] at hx
    exact hall x (List.mem_of_getElem? hx)
  · rintro ⟨hlength, hall⟩
    refine ⟨l.drop (l.length - k), List.drop_suffix _ l, by rw [List.length_drop]; omega, ?_⟩
    intro x hx
    obtain ⟨i, hi⟩ := List.mem_iff_getElem?.mp hx
    rw [List.getElem?_drop] at hi
    exact hall _ x hi (by omega)

/-- A list gets a streak when its counter reaches the length. -/
theorem hasStreak_append_singleton :
    HasStreak p k (l ++ [x]) ↔ HasStreak p k l ∨ k ≤ streak p (l ++ [x]) := by
  rw [le_streak_iff]
  unfold HasStreak
  simp only [List.infix_concat_iff]
  constructor
  · rintro ⟨run, hsuffix | hinfix, hrun⟩
    · exact .inr ⟨run, hsuffix, hrun⟩
    · exact .inl ⟨run, hinfix, hrun⟩
  · rintro (⟨run, hinfix, hrun⟩ | ⟨run, hsuffix, hrun⟩)
    · exact ⟨run, .inr hinfix, hrun⟩
    · exact ⟨run, .inl hsuffix, hrun⟩

theorem HasStreak.le_countP (h : HasStreak p k l) : k ≤ l.countP p := by
  obtain ⟨run, hinfix, rfl, hall⟩ := h
  rw [← List.countP_eq_length.mpr hall]
  exact hinfix.sublist.countP_le

/-- Without a streak of `m + 1` every element outside has at most `m` before it. -/
theorem countP_le_of_not_hasStreak (h : ¬ HasStreak p (m + 1) l) :
    l.countP p ≤ m * (l.countP (fun x => !p x) + 1) := by
  have hbound : l.countP p ≤ m * l.countP (fun x => !p x) + streak p l ∧ streak p l ≤ m := by
    induction l using List.reverseRecOn with
    | nil => simp
    | append_singleton l x ih =>
      rw [hasStreak_append_singleton, not_or] at h
      obtain ⟨hcount, hstreak⟩ := ih h.1
      rw [streak_append_singleton] at h ⊢
      by_cases hx : p x = true
      · simp only [hx, if_true, List.countP_append, List.countP_singleton, Bool.not_true,
          Bool.false_eq_true, if_false, Nat.add_zero] at h ⊢
        omega
      · simp only [hx, Bool.false_eq_true, if_false, List.countP_append, List.countP_singleton,
          Bool.not_false, if_true, Nat.mul_add, Nat.mul_one, Nat.add_zero] at h ⊢
        omega
  rw [Nat.mul_add, Nat.mul_one]
  omega

/-! ### Rearrangements -/

theorem streak_append_cons (hx : p x = false) (l' : List α) : streak p (l ++ x :: l') = streak p l' := by
  induction l' using List.reverseRecOn with
  | nil => simp [hx]
  | append_singleton l' y ih =>
    rw [← List.cons_append, ← List.append_assoc, streak_append_singleton, streak_append_singleton, ih]

/-- An element outside separates the streaks on its two sides. -/
theorem hasStreak_append_cons (hx : p x = false) (hk : 0 < k) (l' : List α) :
    HasStreak p k (l ++ x :: l') ↔ HasStreak p k l ∨ HasStreak p k l' := by
  induction l' using List.reverseRecOn with
  | nil =>
    have hnil : ¬ HasStreak p k [] := by
      intro h
      have hle := h.le_countP
      simp only [List.countP_nil] at hle
      omega
    rw [hasStreak_append_singleton, streak_append_singleton, hx]
    simp only [Bool.false_eq_true, if_false, hnil, or_false, or_iff_left_iff_imp]
    omega
  | append_singleton l' y ih =>
    rw [← List.cons_append, ← List.append_assoc, hasStreak_append_singleton, ih,
      hasStreak_append_singleton, List.append_assoc, List.cons_append, streak_append_cons hx, or_assoc]

/-- At most `m` elements of `l` before each of the others. -/
def spread (m : ℕ) : List α → List α → List α
  | l, [] => l
  | l, x :: others => l.take m ++ x :: spread m (l.drop m) others

theorem spread_perm (m : ℕ) (l others : List α) : (spread m l others).Perm (l ++ others) := by
  induction others generalizing l with
  | nil => simp [spread]
  | cons x others ih =>
    calc l.take m ++ x :: spread m (l.drop m) others
        |>.Perm (x :: (l.take m ++ spread m (l.drop m) others)) := List.perm_middle
      _ |>.Perm (x :: (l.take m ++ (l.drop m ++ others))) := ((ih (l.drop m)).append_left _).cons x
      _ |>.Perm (l ++ x :: others) := by
        rw [← List.append_assoc, List.take_append_drop]
        exact List.perm_middle.symm

theorem not_hasStreak_spread {others : List α} (hothers : ∀ x ∈ others, p x = false)
    (hlength : l.length ≤ m * (others.length + 1)) : ¬ HasStreak p (m + 1) (spread m l others) := by
  induction others generalizing l with
  | nil =>
    intro h
    have hle := h.le_countP.trans List.countP_le_length
    simp only [spread, List.length_nil, Nat.zero_add, Nat.mul_one] at hle hlength
    omega
  | cons x others ih =>
    have hx : p x = false := hothers x List.mem_cons_self
    have hrest : ¬ HasStreak p (m + 1) (spread m (l.drop m) others) := by
      refine ih (fun y hy => hothers y (List.mem_cons_of_mem x hy)) ?_
      simp only [List.length_cons, Nat.mul_add, Nat.mul_one, List.length_drop] at hlength ⊢
      omega
    have hfirst : ¬ HasStreak p (m + 1) (l.take m) := by
      intro h
      have hle := h.le_countP.trans List.countP_le_length
      simp only [List.length_take] at hle
      omega
    unfold spread
    rw [hasStreak_append_cons hx (Nat.succ_pos m)]
    exact not_or.mpr ⟨hfirst, hrest⟩

theorem exists_perm_hasStreak (h : k ≤ l.countP p) : ∃ l', l'.Perm l ∧ HasStreak p k l' := by
  refine ⟨_, List.filter_append_perm p l, (l.filter p).take k, ?_, ?_, ?_⟩
  · exact ((List.take_prefix k _).trans (List.prefix_append _ _)).isInfix
  · simpa [List.countP_eq_length_filter] using h
  · intro x hx
    exact (List.mem_filter.mp (List.mem_of_mem_take hx)).2

theorem exists_perm_not_hasStreak (h : l.countP p ≤ m * (l.countP (fun x => !p x) + 1)) :
    ∃ l', l'.Perm l ∧ ¬ HasStreak p (m + 1) l' := by
  refine ⟨spread m (l.filter p) (l.filter fun x => !p x),
    (spread_perm m _ _).trans (List.filter_append_perm p l), not_hasStreak_spread ?_ ?_⟩
  · intro x hx
    simpa using (List.mem_filter.mp hx).2
  · simpa [List.countP_eq_length_filter] using h

/-- Every rearrangement agrees on a streak exactly if there are too few elements
with the property for one, or too many to be kept apart by the others. -/
theorem hasStreak_perm_iff (hk : 0 < k) :
    (∀ l', l'.Perm l → (HasStreak p k l' ↔ HasStreak p k l)) ↔
      l.countP p < k ∨ (k - 1) * (l.countP (fun x => !p x) + 1) < l.countP p := by
  obtain ⟨m, rfl⟩ : ∃ m, k = m + 1 := ⟨k - 1, by omega⟩
  rw [Nat.add_sub_cancel]
  constructor
  · intro hall
    by_contra hneither
    obtain ⟨henough, hfew⟩ := not_or.mp hneither
    obtain ⟨with_, hwith, hstreak⟩ := exists_perm_hasStreak (not_lt.mp henough)
    obtain ⟨without, hwithout, hnone⟩ := exists_perm_not_hasStreak (not_lt.mp hfew)
    exact hnone ((hall without hwithout).mpr ((hall with_ hwith).mp hstreak))
  · rintro (hfew | hmany) l' hperm
    · have hnone {l' : List α} (hperm : l'.Perm l) : ¬ HasStreak p (m + 1) l' := by
        intro h
        have hle := h.le_countP
        rw [hperm.countP_eq] at hle
        omega
      exact iff_of_false (hnone hperm) (hnone (List.Perm.refl l))
    · have hsome {l' : List α} (hperm : l'.Perm l) : HasStreak p (m + 1) l' := by
        by_contra h
        have hle := countP_le_of_not_hasStreak h
        rw [hperm.countP_eq, hperm.countP_eq] at hle
        omega
      exact iff_of_true (hsome hperm) (hsome (List.Perm.refl l))

end ScosSensor.Streaks
