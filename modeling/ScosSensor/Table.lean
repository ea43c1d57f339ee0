import Mathlib.Data.List.Nodup
import Mathlib.Data.List.Basic

/-!
# Tables with a key

A table is the list of its rows in insertion order, and a key function names
its primary key. Rows are read, changed and removed by key. The key of a row
never changes under an update, so the list of keys is what an update keeps and
what uniqueness is stated about.
-/
namespace ScosSensor.Table

variable {α κ : Type*} [DecidableEq κ] (key : α → κ)

/-- The row with the key `k`. -/
def get? (k : κ) (rows : List α) : Option α := rows.find? fun r => key r = k

/-- Change the row with the key `k`. -/
def update (k : κ) (f : α → α) (rows : List α) : List α :=
  rows.map fun r => if key r = k then f r else r

/-- Remove the row with the key `k`. -/
def remove (k : κ) (rows : List α) : List α := rows.filter fun r => key r ≠ k

variable {key} {k k' : κ} {f : α → α} {r r' : α} {rows : List α}

theorem key_of_get? (h : get? key k rows = some r) : key r = k := by
  simpa using List.find?_some h

theorem mem_of_get? (h : get? key k rows = some r) : r ∈ rows := List.mem_of_find?_eq_some h

theorem get?_eq_none_iff : get? key k rows = none ↔ k ∉ rows.map key := by
  simp [get?, List.find?_eq_none]

theorem get?_isSome_iff : (get? key k rows).isSome ↔ k ∈ rows.map key := by
  rw [← not_iff_not, Bool.not_eq_true, Option.isSome_eq_false_iff, Option.isNone_iff_eq_none,
    get?_eq_none_iff]

/-- With unique keys a stored row is the one its key reads. -/
theorem get?_of_mem (hnodup : (rows.map key).Nodup) (h : r ∈ rows) :
    get? key (key r) rows = some r := by
  induction rows with
  | nil => simp at h
  | cons a rows ih =>
    simp only [List.map_cons, List.nodup_cons] at hnodup
    rcases List.mem_cons.mp h with rfl | h
    · simp [get?]
    · have hne : key a ≠ key r := fun he => hnodup.1 (he ▸ List.mem_map_of_mem h)
      simpa [get?, List.find?_cons, hne] using ih hnodup.2 h

theorem eq_of_key_eq (hnodup : (rows.map key).Nodup) (h : r ∈ rows) (h' : r' ∈ rows)
    (he : key r = key r') : r = r' := by
  have hr := get?_of_mem hnodup h
  rw [he, get?_of_mem hnodup h'] at hr
  exact (Option.some.inj hr).symm

/-- With unique keys at most one row has a given key. -/
theorem filter_key (hnodup : (rows.map key).Nodup) (h : get? key k rows = some r) :
    rows.filter (fun a => key a = k) = [r] := by
  induction rows with
  | nil => simp [get?] at h
  | cons a rows ih =>
    simp only [List.map_cons, List.nodup_cons] at hnodup
    by_cases ha : key a = k
    · obtain rfl : a = r := by simpa [get?, ha] using h
      have hrest : rows.filter (fun b => key b = k) = [] := by
        apply List.filter_eq_nil_iff.mpr
        intro b hb hkey
        apply hnodup.1
        rw [ha, ← of_decide_eq_true hkey]
        exact List.mem_map_of_mem hb
      simp [ha, hrest]
    · have hrest : get? key k rows = some r := by simpa [get?, ha] using h
      simpa [ha] using ih hnodup.2 hrest

@[simp] theorem keys_update (hf : ∀ r, key r = k → key (f r) = k) :
    (update key k f rows).map key = rows.map key := by
  simp only [update, List.map_map]
  apply List.map_congr_left
  intro r _
  simp only [Function.comp_apply]
  split_ifs with hr
  · rw [hf r hr, hr]
  · rfl

/-- A column that the update leaves alone. -/
theorem map_update {β : Type*} {g : α → β} (hg : ∀ r ∈ rows, key r = k → g (f r) = g r) :
    (update key k f rows).map g = rows.map g := by
  simp only [update, List.map_map]
  apply List.map_congr_left
  intro r hr
  simp only [Function.comp_apply]
  split_ifs with hk
  · exact hg r hr hk
  · rfl

theorem get?_update_self (hf : ∀ r, key r = k → key (f r) = k) :
    get? key k (update key k f rows) = (get? key k rows).map f := by
  induction rows with
  | nil => rfl
  | cons a rows ih =>
    by_cases ha : key a = k
    · simp [get?, update, ha, hf a ha]
    · simpa [get?, update, List.find?_cons, ha] using ih

theorem get?_update_ne (hf : ∀ r, key r = k → key (f r) = k) (hne : k' ≠ k) :
    get? key k' (update key k f rows) = get? key k' rows := by
  induction rows with
  | nil => rfl
  | cons a rows ih =>
    by_cases ha : key a = k
    · have ha' : key a ≠ k' := fun h => hne (h.symm.trans ha)
      simpa [get?, update, List.find?_cons, ha, hf a ha, ha', hne.symm] using ih
    · by_cases ha' : key a = k'
      · simp [get?, update, ha', hne]
      · simpa [get?, update, List.find?_cons, ha, ha'] using ih

/-- With unique keys an update only sees the row that the key reads. -/
theorem update_eq_const (hnodup : (rows.map key).Nodup) (h : get? key k rows = some r) :
    update key k f rows = update key k (fun _ => f r) rows := by
  apply List.map_congr_left
  intro a ha
  split_ifs with hk
  · have hr : key r = k := key_of_get? h
    rw [eq_of_key_eq hnodup ha (mem_of_get? h) (hk.trans hr.symm)]
  · rfl

/-- Writing back the row that is stored changes nothing. -/
theorem update_stored (hnodup : (rows.map key).Nodup) (h : get? key k rows = some r) :
    update key k (fun _ => r) rows = rows := by
  have hid : update key k (fun r => r) rows = rows := by simp [update]
  rw [update_eq_const hnodup h] at hid
  exact hid

theorem update_const_update {g : α → α} (hg : ∀ r, key r = k → key (g r) = k) (a : α) :
    update key k (fun _ => a) (update key k g rows) = update key k (fun _ => a) rows := by
  simp only [update, List.map_map]
  apply List.map_congr_left
  intro r _
  by_cases hr : key r = k
  · simp [hr, hg r hr]
  · simp [hr]

theorem mem_update : r ∈ update key k f rows ↔
    (r ∈ rows ∧ key r ≠ k) ∨ ∃ r' ∈ rows, key r' = k ∧ f r' = r := by
  simp only [update, List.mem_map]
  constructor
  · rintro ⟨a, ha, h⟩
    split_ifs at h with hk
    · exact .inr ⟨a, ha, hk, h⟩
    · exact .inl (h ▸ ⟨ha, hk⟩)
  · rintro (⟨h, hk⟩ | ⟨a, ha, hk, h⟩)
    · exact ⟨r, h, if_neg hk⟩
    · exact ⟨a, ha, by rw [if_pos hk, h]⟩

/-- A row that is written meets `p` alone when no other row does. -/
theorem filter_update_of_pos {p : α → Bool} (hnodup : (rows.map key).Nodup)
    (hstored : k ∈ rows.map key) (hkey : key r = k) (hp : p r = true)
    (hothers : ∀ a ∈ rows, p a = true → key a = k) :
    (update key k (fun _ => r) rows).filter p = [r] := by
  have hself : ∀ a, key a = k → key r = k := fun _ _ => hkey
  have hsame : ∀ a ∈ update key k (fun _ => r) rows, p a = decide (key a = k) := by
    intro a ha
    rw [Bool.eq_iff_iff, decide_eq_true_iff]
    rcases mem_update.mp ha with ⟨hold, hne⟩ | ⟨-, -, -, rfl⟩
    · exact iff_of_false (fun hpa => hne (hothers a hold hpa)) hne
    · exact iff_of_true hp hkey
  obtain ⟨old, hold⟩ := Option.isSome_iff_exists.mp (get?_isSome_iff.mpr hstored)
  rw [List.filter_congr hsame]
  apply filter_key
  · rw [keys_update hself]
    exact hnodup
  · rw [get?_update_self hself, hold, Option.map_some]

/-- A row that is written without meeting `p` takes the row of its key away. -/
theorem filter_update_of_neg {p : α → Bool} (hp : p r = false) :
    (update key k (fun _ => r) rows).filter p = (rows.filter p).filter fun a => key a ≠ k := by
  induction rows with
  | nil => rfl
  | cons a rows ih =>
    rw [update, List.map_cons, ← update]
    by_cases ha : key a = k
    · cases hpa : p a <;> simp [ha, hp, hpa, ih]
    · cases hpa : p a <;> simp [ha, hpa, ih]

@[simp] theorem mem_remove : r ∈ remove key k rows ↔ r ∈ rows ∧ key r ≠ k := by
  simp [remove]

@[simp] theorem get?_remove_self : get? key k (remove key k rows) = none := by
  simp [get?, List.find?_eq_none]

theorem get?_remove_ne (hne : k' ≠ k) : get? key k' (remove key k rows) = get? key k' rows := by
  induction rows with
  | nil => rfl
  | cons a rows ih =>
    by_cases ha : key a = k
    · simpa [get?, remove, List.find?_cons, List.filter_cons, ha, hne.symm] using ih
    · by_cases ha' : key a = k'
      · simp [get?, remove, ha', hne]
      · simpa [get?, remove, List.find?_cons, List.filter_cons, ha, ha'] using ih

theorem nodup_remove (h : (rows.map key).Nodup) : ((remove key k rows).map key).Nodup :=
  h.sublist (List.Sublist.map key List.filter_sublist)

theorem get?_append_self (h : k ∉ rows.map key) (hr : key r = k) :
    get? key k (rows ++ [r]) = some r := by
  rw [get?, List.find?_append, List.find?_eq_none.mpr]
  · simp [hr]
  · simpa using h

theorem get?_append_ne (hne : k ≠ key r) : get? key k (rows ++ [r]) = get? key k rows := by
  rw [get?, List.find?_append]
  simp [get?, hne.symm]

/-- An update of the row that was inserted last. -/
theorem update_append_self (h : key r ∉ rows.map key) :
    update key (key r) f (rows ++ [r]) = rows ++ [f r] := by
  have hrows : update key (key r) f rows = rows := by
    have hid : ∀ a ∈ rows, (if key a = key r then f a else a) = a := by
      intro a ha
      rw [if_neg]
      exact fun hsame => h (hsame ▸ List.mem_map_of_mem ha)
    rw [update, List.map_congr_left hid, List.map_id']
  rw [update] at hrows
  rw [update, List.map_append, hrows]
  simp

omit [DecidableEq κ] in
theorem nodup_append_row (h : (rows.map key).Nodup) (hr : key r ∉ rows.map key) :
    ((rows ++ [r]).map key).Nodup := by
  rw [List.map_append, List.map_singleton]
  exact h.append (List.nodup_singleton _) (List.disjoint_singleton.mpr hr)

end ScosSensor.Table
