import ScosSensor.PyRange

/-!
# Python's subscripts

Indexing and slicing of a list. A negative index counts from the end, and the
bounds of a slice are clamped to the list before the slice walks from one to the
other. `none` is the `IndexError` of an index or the `ValueError` of a zero step.
-/
namespace ScosSensor

/-- `start:stop:step`, each of which may be absent. -/
structure PySlice where
  start : Option ℤ
  stop : Option ℤ
  step : Option ℤ
  deriving Repr, DecidableEq

/-- The index that a possibly negative one stands for in a list of length `n`. -/
def placeOf (n : ℕ) (i : ℤ) : ℤ := if i < 0 then i + n else i

/-- `items[i]`. -/
def subscript {α : Type*} (items : List α) (i : ℤ) : Option α :=
  let place := placeOf items.length i
  if place < 0 then none else items[place.toNat]?

section

variable {α : Type*} {items : List α} {i : ℤ}

theorem subscript_of_nonneg (hi : 0 ≤ i) : subscript items i = items[i.toNat]? := by
  have hplace : placeOf items.length i = i := if_neg (by omega)
  simp only [subscript, hplace, if_neg (not_lt.mpr hi)]

@[simp] theorem subscript_natCast (items : List α) (k : ℕ) : subscript items k = items[k]? := by
  rw [subscript_of_nonneg (Int.natCast_nonneg k), Int.toNat_natCast]

/-- Indices down to `-n` count from the end. -/
theorem subscript_of_neg (hi : i < 0) (hlen : 0 ≤ i + items.length) :
    subscript items i = items[(i + items.length).toNat]? := by
  have hplace : placeOf items.length i = i + items.length := if_pos hi
  simp only [subscript, hplace, if_neg (not_lt.mpr hlen)]

theorem subscript_eq_none : subscript items i = none ↔ i < -items.length ∨ items.length ≤ i := by
  simp only [subscript, placeOf]
  split_ifs <;> simp only [List.getElem?_eq_none_iff, true_iff] <;> omega

end

namespace PySlice

/-- A bound clamped to `lower..upper`, or its default. -/
def bound (n : ℕ) (lower upper default : ℤ) : Option ℤ → ℤ
  | none => default
  | some i => max lower (min (placeOf n i) upper)

/-- `slice.indices(n)`: where the walk starts, where it stops and its step. -/
def indices (s : PySlice) (n : ℕ) : Option PyRange :=
  let step := s.step.getD 1
  if step = 0 then none
  else if 0 < step then some ⟨bound n 0 n 0 s.start, bound n 0 n n s.stop, step⟩
  else some ⟨bound n (-1) (n - 1) (n - 1) s.start, bound n (-1) (n - 1) (-1) s.stop, step⟩

/-- `len(range(start, stop, step))` for a step of either sign. -/
def count (r : PyRange) : ℕ :=
  if 0 < r.step then r.length else PyRange.length ⟨-r.start, -r.stop, -r.step⟩

/-- `items[s]`. -/
def apply {α : Type*} (s : PySlice) (items : List α) : Option (List α) :=
  (s.indices items.length).map fun r =>
    (List.range (count r)).filterMap fun k => subscript items (r.get k)

variable {α : Type*} {items : List α} {s : PySlice} {r : PyRange} {n k : ℕ}

@[simp] theorem bound_none (n : ℕ) (lower upper default : ℤ) :
    bound n lower upper default none = default := rfl

theorem bound_mem (n : ℕ) (lower upper default : ℤ) (i : Option ℤ) (hle : lower ≤ upper)
    (hdefault : lower ≤ default ∧ default ≤ upper) :
    lower ≤ bound n lower upper default i ∧ bound n lower upper default i ≤ upper := by
  cases i with
  | none => exact hdefault
  | some i =>
    simp only [bound]
    omega

/-- A slice walks along places of the list. -/
theorem get_indices (h : s.indices n = some r) (hk : k < count r) :
    0 ≤ r.get k ∧ r.get k < n := by
  simp only [indices] at h
  split_ifs at h with hzero hpos
  · obtain rfl := Option.some.inj h
    simp only [count, if_pos hpos] at hk
    have hlt := (PyRange.lt_length_iff hpos k).mp hk
    have hstart := bound_mem n 0 n 0 s.start (by omega) (by omega)
    have hstop := bound_mem n 0 n n s.stop (by omega) (by omega)
    have hwalk : 0 ≤ (k : ℤ) * s.step.getD 1 := by positivity
    simp only [PyRange.get] at hlt ⊢
    omega
  · obtain rfl := Option.some.inj h
    simp only [count, if_neg hpos] at hk
    have hneg : 0 < -s.step.getD 1 := by omega
    have hlt := (PyRange.lt_length_iff hneg k).mp hk
    have hstart := bound_mem n (-1) (n - 1) (n - 1) s.start (by omega) (by omega)
    have hstop := bound_mem n (-1) (n - 1) (-1) s.stop (by omega) (by omega)
    have hwalk : 0 ≤ (k : ℤ) * -s.step.getD 1 := by positivity
    simp only [PyRange.get, mul_neg] at hlt hwalk ⊢
    omega

/-- A slice holds the item at each place that it walks over. -/
theorem map_some_apply {out : List α} (h : s.apply items = some out) :
    ∃ r, s.indices items.length = some r ∧
      out.map some = (List.range (count r)).map fun k => subscript items (r.get k) := by
  obtain ⟨r, hr, rfl⟩ := Option.map_eq_some_iff.mp h
  refine ⟨r, hr, ?_⟩
  rw [List.map_filterMap_some_eq_filter_map_isSome, List.filter_eq_self]
  intro item hitem
  obtain ⟨k, hk, rfl⟩ := List.mem_map.mp hitem
  obtain ⟨hlo, hhi⟩ := get_indices hr (List.mem_range.mp hk)
  rw [subscript_of_nonneg hlo, List.getElem?_eq_getElem (by omega)]
  rfl

theorem apply_of_indices {a b : ℕ} (h : s.indices items.length = some ⟨a, b, 1⟩)
    (hb : b ≤ items.length) : s.apply items = some ((items.take b).drop a) := by
  have hsome : s.apply items = some _ := congrArg (Option.map _) h
  obtain ⟨r, hr, hout⟩ := map_some_apply hsome
  obtain rfl := Option.some.inj (h.symm.trans hr)
  have hcount : count ⟨a, b, 1⟩ = b - a := by
    simp only [count, PyRange.length, if_pos Int.one_pos, Int.ediv_one]
    omega
  rw [hsome, Option.some.injEq]
  apply List.map_injective_iff.mpr (Option.some_injective α)
  rw [hout, hcount]
  apply List.ext_getElem?
  intro k
  rw [List.getElem?_map, List.getElem?_map, List.getElem?_drop, List.getElem?_take]
  by_cases hk : k < b - a
  · have hplace : 0 ≤ PyRange.get ⟨a, b, 1⟩ k := by simp only [PyRange.get]; omega
    have hnat : (PyRange.get ⟨a, b, 1⟩ k).toNat = a + k := by simp only [PyRange.get]; omega
    have hlen : a + k < items.length := by omega
    rw [List.getElem?_range hk, Option.map_some, subscript_of_nonneg hplace, hnat,
      if_pos (by omega), List.getElem?_eq_getElem hlen, Option.map_some]
  · rw [List.getElem?_eq_none (by simpa using hk), if_neg (by omega)]
    rfl

theorem bound_natCast (n k : ℕ) (default : ℤ) :
    bound n 0 n default (some k) = (min k n : ℕ) := by
  simp only [bound, placeOf]
  omega

/-- `items[:k]`. -/
theorem apply_take (items : List α) (k : ℕ) :
    apply ⟨none, some k, none⟩ items = some (items.take k) := by
  have h : indices ⟨none, some k, none⟩ items.length =
      some ⟨(0 : ℕ), (min k items.length : ℕ), 1⟩ := by
    simp [indices, bound_natCast]
  rw [apply_of_indices h (Nat.min_le_right _ _), List.drop_zero, ← List.take_eq_take_min]

/-- `items[k:]`. -/
theorem apply_drop (items : List α) (k : ℕ) :
    apply ⟨some k, none, none⟩ items = some (items.drop k) := by
  have h : indices ⟨some k, none, none⟩ items.length =
      some ⟨(min k items.length : ℕ), items.length, 1⟩ := by
    simp [indices, bound_natCast]
  rw [apply_of_indices h (Nat.le_refl _), List.take_length]
  rcases Nat.le_total k items.length with hk | hk
  · rw [Nat.min_eq_left hk]
  · rw [Nat.min_eq_right hk, List.drop_eq_nil_of_le hk, List.drop_length]

end PySlice

end ScosSensor
