import ScosSensor.SensorLocation

/-!
# Saves of locations beside each other

A save of an active location is two statements without a transaction: the other
active rows are turned off, and then the own row is written. The admin portal and
the callback of the GPS can save at once, and their statements can fall in any
order. With every save done, one row at most is active exactly if each last write
has found no active row but its own; saves one after the other always leave it so.
-/
namespace ScosSensor

open Runs

/-- The location table, the instances that a callback has looked up and not begun to
save, and the instances whose saves are half-way. -/
structure LocationSaves where
  rows : List LocationRow
  held : List Location := []
  halfway : List Location := []
  deriving Repr, DecidableEq

/-- An access to the table: the lookup of a callback, the first statement of a save by
the admin portal or by a callback, the write of the own row, and a save of an inactive
instance, which has that statement only. -/
inductive SaveStep where
  | lookUp (a : LocationAction)
  | first (l : Location)
  | firstHeld (k : ℕ)
  | own (k : ℕ) (fresh : ℕ) (refused : Bool)
  | inactive (l : Location) (fresh : ℕ) (refused : Bool)
  deriving Repr, DecidableEq

/-- `objects.get(active=True)`: `DoesNotExist` is the inner `none`, the outer one is
`MultipleObjectsReturned`, which no caller expects. -/
def getActive (rows : List LocationRow) : Option (Option LocationRow) :=
  match rows.filter LocationRow.active with
  | [] => some none
  | [r] => some (some r)
  | _ => none

namespace LocationSaves

variable {Point : Type*} (env : LocationEnv Point)

def beginSave (s : LocationSaves) (l : Location) : LocationSaves :=
  { s with rows := l.deactivateOthers s.rows, halfway := s.halfway ++ [l] }

def step (s : LocationSaves) : SaveStep → Option LocationSaves
  | .lookUp a => some { s with held := s.held ++ (a.location s.rows).toList }
  | .first l => if l.active then some (s.beginSave l) else none
  | .firstHeld k => s.held[k]?.map fun l => { s.beginSave l with held := s.held.eraseIdx k }
  | .own k fresh refused => s.halfway[k]?.map fun l => { s with
      rows := (l.superSave env fresh refused s.rows).getD s.rows
      halfway := s.halfway.eraseIdx k }
  | .inactive l fresh refused =>
    if l.active then none
    else some { s with rows := (l.superSave env fresh refused s.rows).getD s.rows }

/-- When no save is half-way, one row at most is active. -/
def OneActive (s : LocationSaves) : Prop :=
  s.halfway = [] → (s.rows.filter LocationRow.active).length ≤ 1

/-- The condition on a step: the write that ends the last save that is half-way finds
no active row but its own, and when it fails, one at most. -/
def LeavesOne (s : LocationSaves) : SaveStep → Prop
  | .own k fresh refused => s.halfway.eraseIdx k = [] → ∀ l ∈ s.halfway[k]?,
    if (l.superSave env fresh refused s.rows).isSome then
      ∀ r ∈ s.rows, r.active = true → l.pk = some r.pk
    else (s.rows.filter LocationRow.active).length ≤ 1
  | _ => True

instance (s : LocationSaves) : DecidablePred (LeavesOne env s)
  | .own k fresh refused => inferInstanceAs (Decidable (s.halfway.eraseIdx k = [] →
      ∀ l ∈ s.halfway[k]?, if (l.superSave env fresh refused s.rows).isSome then
        ∀ r ∈ s.rows, r.active = true → l.pk = some r.pk
      else (s.rows.filter LocationRow.active).length ≤ 1))
  | .lookUp _ => .isTrue trivial
  | .first _ => .isTrue trivial
  | .firstHeld _ => .isTrue trivial
  | .inactive _ _ _ => .isTrue trivial

variable {env} {s s' : LocationSaves} {m : SaveStep} {l : Location} {fresh : ℕ} {refused : Bool}
  {rows rows' : List LocationRow}

/-- The keys of the rows are distinct, and only active locations wait to be saved. -/
structure Sound (s : LocationSaves) : Prop where
  keys : (s.rows.map LocationRow.pk).Nodup
  held : ∀ l ∈ s.held, l.active = true
  halfway : ∀ l ∈ s.halfway, l.active = true

theorem sound_start (hkeys : (rows.map LocationRow.pk).Nodup) : Sound { rows } := by
  refine ⟨hkeys, ?_, ?_⟩
  · intro l hl
    cases hl
  · intro l hl
    cases hl

theorem keys_superSave (hkeys : (rows.map LocationRow.pk).Nodup)
    (h : l.superSave env fresh refused rows = some rows') : (rows'.map LocationRow.pk).Nodup := by
  obtain ⟨pk, r, hr, ⟨hnew, -, rfl⟩ | ⟨-, -, rfl⟩⟩ := LocationState.superSave_cases h
  · obtain rfl := (LocationState.toRow?_spec hr).1
    exact Table.nodup_append_row hkeys hnew
  · rw [Table.keys_update fun _ _ => (LocationState.toRow?_spec hr).1]
    exact hkeys

theorem keys_getD_superSave (hkeys : (rows.map LocationRow.pk).Nodup) :
    (((l.superSave env fresh refused rows).getD rows).map LocationRow.pk).Nodup := by
  cases h : l.superSave env fresh refused rows with
  | none => exact hkeys
  | some rows' => exact keys_superSave hkeys h

theorem active_of_location {a : LocationAction} (h : a.location rows = some l) : l.active = true := by
  unfold LocationAction.location at h
  split at h
  · obtain rfl := Option.some.inj h
    rfl
  · obtain rfl := Option.some.inj h
    rfl
  · cases h

theorem Sound.beginSave (hs : Sound s) (hactive : l.active = true) : Sound (s.beginSave l) := by
  refine ⟨?_, hs.held, ?_⟩
  · show ((l.deactivateOthers s.rows).map LocationRow.pk).Nodup
    rw [LocationState.keys_deactivateOthers]
    exact hs.keys
  · intro l' hl'
    rcases List.mem_append.mp hl' with hold | hnew
    · exact hs.halfway l' hold
    · exact List.mem_singleton.mp hnew ▸ hactive

theorem Sound.step (hs : Sound s) (h : LocationSaves.step env s m = some s') : Sound s' := by
  cases m with
  | lookUp a =>
    obtain rfl := Option.some.inj h
    refine ⟨hs.keys, ?_, hs.halfway⟩
    intro l hl
    rcases List.mem_append.mp hl with hold | hnew
    · exact hs.held l hold
    · exact active_of_location (Option.mem_toList.mp hnew)
  | first l =>
    simp only [LocationSaves.step] at h
    split_ifs at h with hactive
    obtain rfl := Option.some.inj h
    exact hs.beginSave hactive
  | firstHeld k =>
    obtain ⟨l, hl, rfl⟩ := Option.map_eq_some_iff.mp h
    have hbegun := hs.beginSave (hs.held l (List.mem_of_getElem? hl))
    exact ⟨hbegun.keys, fun l' hl' => hs.held l' (List.mem_of_mem_eraseIdx hl'), hbegun.halfway⟩
  | own k fresh refused =>
    obtain ⟨l, hl, rfl⟩ := Option.map_eq_some_iff.mp h
    exact ⟨keys_getD_superSave hs.keys, hs.held,
      fun l' hl' => hs.halfway l' (List.mem_of_mem_eraseIdx hl')⟩
  | inactive l fresh refused =>
    simp only [LocationSaves.step] at h
    split_ifs at h
    obtain rfl := Option.some.inj h
    exact ⟨keys_getD_superSave hs.keys, hs.held, hs.halfway⟩

theorem eq_of_one {a b : LocationRow} (hone : (rows.filter LocationRow.active).length ≤ 1)
    (ha : a ∈ rows) (hb : b ∈ rows) (hactive : a.active = true) (hactive' : b.active = true) : a = b := by
  have hmem : a ∈ rows.filter LocationRow.active := List.mem_filter.mpr ⟨ha, hactive⟩
  have hmem' : b ∈ rows.filter LocationRow.active := List.mem_filter.mpr ⟨hb, hactive'⟩
  generalize rows.filter LocationRow.active = found at hone hmem hmem'
  match found with
  | [] => cases hmem
  | [r] => rw [List.mem_singleton.mp hmem, List.mem_singleton.mp hmem']
  | _ :: _ :: _ => simp at hone

/-- A write of an active location leaves one active row exactly if there was none but
its own. -/
theorem one_of_superSave_iff (hkeys : (rows.map LocationRow.pk).Nodup) (hactive : l.active = true)
    (h : l.superSave env fresh refused rows = some rows') :
    (rows'.filter LocationRow.active).length ≤ 1 ↔
      ∀ r ∈ rows, r.active = true → l.pk = some r.pk := by
  constructor
  · intro hone r hr hon
    obtain ⟨pk, own, hown, hcases⟩ := LocationState.superSave_cases h
    obtain ⟨hownPk, hownActive⟩ := LocationState.toRow?_spec hown
    rw [hactive] at hownActive
    obtain ⟨hnew, hpk, rfl⟩ | ⟨hstored, hpk, rfl⟩ := hcases
    · have hsame : r = own := eq_of_one hone (List.mem_append_left _ hr) (by simp) hon hownActive
      exact absurd (hownPk ▸ hsame ▸ List.mem_map_of_mem hr) hnew
    · by_contra hne
      have hother : r.pk ≠ pk := by
        rintro rfl
        exact hne hpk
      obtain ⟨a, ha, hkey⟩ := List.mem_map.mp hstored
      have hsame : r = own := eq_of_one hone (Table.mem_update.mpr (.inl ⟨hr, hother⟩))
        (Table.mem_update.mpr (.inr ⟨a, ha, hkey, rfl⟩)) hon hownActive
      exact hother (hsame ▸ hownPk)
  · intro hothers
    obtain ⟨pk, r, -, hsingle⟩ := LocationState.active_of_superSave hkeys h hactive hothers
    rw [hsingle]
    exact Nat.le_refl 1

theorem one_of_inactive (hone : (rows.filter LocationRow.active).length ≤ 1)
    (hactive : l.active = false) :
    (((l.superSave env fresh refused rows).getD rows).filter LocationRow.active).length ≤ 1 := by
  cases h : l.superSave env fresh refused rows with
  | none => exact hone
  | some rows' =>
    rw [Option.getD_some, LocationState.inactive_of_superSave h hactive]
    exact (List.length_filter_le _ _).trans hone

/-- A step out of a state with one active row ends in one exactly if it meets its
condition. -/
theorem oneActive_step_iff (hs : Sound s) (hone : OneActive s) (h : step env s m = some s') :
    OneActive s' ↔ LeavesOne env s m := by
  have hbegun {l : Location} : OneActive (s.beginSave l) := by
    intro hnone
    exact absurd hnone (List.append_ne_nil_of_right_ne_nil _ (List.cons_ne_nil _ _))
  cases m with
  | lookUp a =>
    obtain rfl := Option.some.inj h
    exact iff_of_true hone trivial
  | first l =>
    simp only [step] at h
    split_ifs at h
    obtain rfl := Option.some.inj h
    exact iff_of_true hbegun trivial
  | firstHeld k =>
    obtain ⟨l, hl, rfl⟩ := Option.map_eq_some_iff.mp h
    exact iff_of_true hbegun trivial
  | own k fresh refused =>
    obtain ⟨l, hl, rfl⟩ := Option.map_eq_some_iff.mp h
    refine forall_congr' fun _ => ?_
    simp only [hl, Option.mem_def, Option.some.injEq, forall_eq']
    cases hsave : l.superSave env fresh refused s.rows with
    | none => simp
    | some rows' =>
      simpa using one_of_superSave_iff hs.keys (hs.halfway l (List.mem_of_getElem? hl)) hsave
  | inactive l fresh refused =>
    simp only [step] at h
    split_ifs at h with hactive
    obtain rfl := Option.some.inj h
    exact iff_of_true (fun hnone => one_of_inactive (hone hnone) (by simpa using hactive)) trivial

theorem getActive_isSome : (getActive rows).isSome ↔ (rows.filter LocationRow.active).length ≤ 1 := by
  unfold getActive
  generalize rows.filter LocationRow.active = found
  match found with
  | [] => simp
  | [r] => simp
  | _ :: _ :: _ => simp

/-- The lookups of the API, of the status and of a callback find one row or none. -/
theorem location_isSome (a : LocationAction) :
    (a.location rows).isSome ↔ (rows.filter LocationRow.active).length ≤ 1 := by
  unfold LocationAction.location
  generalize rows.filter LocationRow.active = found
  match found with
  | [] => simp
  | [r] => simp
  | _ :: _ :: _ => simp

/-- What the claim of one active location says of a state: one row at most is active,
and no lookup sees two. -/
structure Unambiguous (s : LocationSaves) : Prop where
  one : OneActive s
  lookups : s.halfway = [] → (getActive s.rows).isSome ∧ ∀ a : LocationAction, (a.location s.rows).isSome

theorem unambiguous_iff : Unambiguous s ↔ OneActive s := by
  refine ⟨fun h => h.one, fun h => ⟨h, fun hnone => ?_⟩⟩
  exact ⟨getActive_isSome.mpr (h hnone), fun a => (location_isSome a).mpr (h hnone)⟩

/-- In a run of saves beside each other, every state in which none is half-way has one
active row at most exactly if every step meets its condition. -/
theorem one_active_location_iff (env : LocationEnv Point) (rows : List LocationRow)
    (hkeys : (rows.map LocationRow.pk).Nodup) (hone : (rows.filter LocationRow.active).length ≤ 1)
    (ms : List SaveStep) (t : LocationSaves) (hrun : exec (step env) { rows } ms = some t) :
    Throughout (step env) Unambiguous { rows } ms ↔ Along (step env) (LeavesOne env) { rows } ms := by
  refine throughout_iff_along (J := Sound) ?_ ?_ (sound_start hkeys) (unambiguous_iff.mpr fun _ => hone) hrun
  · intro s m s' hs _ h
    exact hs.step h
  · intro s m s' hs hgood h
    rw [unambiguous_iff]
    exact oneActive_step_iff hs hgood.one h

/-! ### One save after the other -/

/-- A save is begun only when no other is half-way. -/
def Sequential (s : LocationSaves) : SaveStep → Prop
  | .first _ => s.halfway = []
  | .firstHeld _ => s.halfway = []
  | _ => True

/-- At most one save is half-way, and its own row is the only one that can be active. -/
def Alone (s : LocationSaves) : Prop :=
  s.halfway = [] ∧ (s.rows.filter LocationRow.active).length ≤ 1 ∨
    ∃ l, s.halfway = [l] ∧ ∀ r ∈ s.rows, r.active = true → l.pk = some r.pk

theorem one_of_others (hkeys : (rows.map LocationRow.pk).Nodup)
    (hothers : ∀ r ∈ rows, r.active = true → l.pk = some r.pk) :
    (rows.filter LocationRow.active).length ≤ 1 := by
  have hsame : ∀ a ∈ rows.filter LocationRow.active, ∀ b ∈ rows.filter LocationRow.active, a = b := by
    intro a ha b hb
    obtain ⟨ha, hactive⟩ := List.mem_filter.mp ha
    obtain ⟨hb, hactive'⟩ := List.mem_filter.mp hb
    have hkey := (hothers a ha hactive).symm.trans (hothers b hb hactive')
    exact Table.eq_of_key_eq hkeys ha hb (Option.some.inj hkey)
  have hnodup : (rows.filter LocationRow.active).Nodup := (hkeys.of_map).filter _
  generalize rows.filter LocationRow.active = found at hsame hnodup
  match found with
  | [] => exact Nat.zero_le 1
  | [r] => exact Nat.le_refl 1
  | a :: b :: found =>
    refine absurd ?_ (List.nodup_cons.mp hnodup).1
    rw [hsame a List.mem_cons_self b (List.mem_cons_of_mem a List.mem_cons_self)]
    exact List.mem_cons_self

theorem Alone.step (hs : Sound s) (halone : Alone s) (hsequential : Sequential s m)
    (h : LocationSaves.step env s m = some s') : Alone s' := by
  have hbegun {l : Location} (hnone : s.halfway = []) : Alone (s.beginSave l) := by
    refine .inr ⟨l, ?_, LocationState.others_deactivated⟩
    show s.halfway ++ [l] = [l]
    rw [hnone, List.nil_append]
  cases m with
  | lookUp a =>
    obtain rfl := Option.some.inj h
    exact halone
  | first l =>
    simp only [LocationSaves.step] at h
    split_ifs at h
    obtain rfl := Option.some.inj h
    exact hbegun hsequential
  | firstHeld k =>
    obtain ⟨l, hl, rfl⟩ := Option.map_eq_some_iff.mp h
    exact hbegun hsequential
  | own k fresh refused =>
    obtain ⟨l, hl, rfl⟩ := Option.map_eq_some_iff.mp h
    obtain ⟨hnone, -⟩ | ⟨l', hone, hothers⟩ := halone
    · simp [hnone] at hl
    · have hk : k = 0 ∧ l' = l := by
        rw [hone] at hl
        cases k with
        | zero => exact ⟨rfl, Option.some.inj hl⟩
        | succ k => simp at hl
      obtain ⟨rfl, rfl⟩ := hk
      refine .inl ⟨by rw [hone]; rfl, ?_⟩
      cases hsave : l'.superSave env fresh refused s.rows with
      | none => exact one_of_others hs.keys hothers
      | some rows' =>
        have hactive := hs.halfway l' (by rw [hone]; exact List.mem_singleton_self l')
        exact (one_of_superSave_iff hs.keys hactive hsave).mpr hothers
  | inactive l fresh refused =>
    simp only [LocationSaves.step] at h
    split_ifs at h with hactive
    obtain rfl := Option.some.inj h
    have hoff : l.active = false := by simpa using hactive
    obtain ⟨hnone, hone⟩ | ⟨l', hone, hothers⟩ := halone
    · exact .inl ⟨hnone, one_of_inactive hone hoff⟩
    · refine .inr ⟨l', hone, fun r hr hon => ?_⟩
      cases hsave : l.superSave env fresh refused s.rows with
      | none =>
        rw [hsave] at hr
        exact hothers r hr hon
      | some rows' =>
        rw [hsave] at hr
        have hmem : r ∈ rows'.filter LocationRow.active := List.mem_filter.mpr ⟨hr, hon⟩
        rw [LocationState.inactive_of_superSave hsave hoff] at hmem
        exact hothers r (List.mem_filter.mp (List.mem_of_mem_filter hmem)).1 hon

/-- Saves one after the other always leave one active row at most. -/
theorem sequential_saves_unambiguous (env : LocationEnv Point) (rows : List LocationRow)
    (hkeys : (rows.map LocationRow.pk).Nodup) (hone : (rows.filter LocationRow.active).length ≤ 1)
    (ms : List SaveStep) (t : LocationSaves) (hrun : exec (step env) { rows } ms = some t)
    (hms : Along (step env) Sequential { rows } ms) : Unambiguous t := by
  have hstep : ∀ s m s', Sound s ∧ Alone s → Sequential s m → step env s m = some s' →
      Sound s' ∧ Alone s' := fun s m s' hs hm h => ⟨hs.1.step h, hs.2.step hs.1 hm h⟩
  obtain ⟨-, halone⟩ := exec_invariant hstep ⟨sound_start hkeys, .inl ⟨rfl, hone⟩⟩ hms hrun
  rw [unambiguous_iff]
  intro hnone
  obtain ⟨-, hone⟩ | ⟨l, hhalfway, -⟩ := halone
  · exact hone
  · rw [hnone] at hhalfway
    cases hhalfway

/-- The location that a callback of the GPS adds. -/
def gpsFix : LocationAction where
  latitude := some 40
  longitude := some (-105)
  gps := some true

/-- The portal and the callback each add a location; both have turned off the other
rows before either writes its own. -/
def crossedSaves : List SaveStep :=
  [.lookUp gpsFix, .firstHeld 0, .first LocationState.boulder, .own 0 1 false, .own 0 2 false]

/-- Both rows stay active, and every later lookup finds two. -/
theorem crossed_saves_both_active :
    ∃ t, exec (step LocationState.plainEnv) { rows := [] } crossedSaves = some t ∧ t.halfway = [] ∧
      (t.rows.filter LocationRow.active).map LocationRow.pk = [1, 2] ∧ getActive t.rows = none ∧
      ¬ Throughout (step LocationState.plainEnv) Unambiguous { rows := [] } crossedSaves := by
  refine ⟨_, rfl, rfl, rfl, rfl, ?_⟩
  intro hall
  have hone := (hall.last rfl).one rfl
  revert hone
  decide

/-- The same saves, one after the other. -/
theorem one_active_location_sequential :
    Throughout (step LocationState.plainEnv) Unambiguous { rows := [] }
      [.first LocationState.boulder, .own 0 1 false, .lookUp gpsFix, .firstHeld 0, .own 0 2 false] :=
  (one_active_location_iff LocationState.plainEnv [] List.nodup_nil (Nat.zero_le 1) _ _ rfl).mpr
    (by decide)

end LocationSaves

end ScosSensor
