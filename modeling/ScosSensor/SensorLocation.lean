import ScosSensor.Runs
import ScosSensor.Table
import Mathlib.Data.Rat.Defs

/-!
# The location of the sensor

One row of the location table at most is active, and the sensor keeps the point of
that row in memory. Saving an active location turns the other rows off in one query,
for which no signal is sent, and then writes the row; the handlers of the signals for
a saved and a deleted location look at the instance that was saved or deleted. The
point agrees with the table as long as no save turns the active row off, no failed
save comes after the other rows were turned off, and no row is deleted through an
instance that is out of date.
-/
namespace ScosSensor

open Runs

/-- A row of the location table. -/
structure LocationRow where
  pk : ℕ
  gps : Bool
  active : Bool
  description : String
  latitude : ℚ
  longitude : ℚ
  height : Option ℚ
  deriving Repr, DecidableEq

/-- A `Location` in memory. What is not set is `None`. -/
structure Location where
  pk : Option ℕ := none
  gps : Option Bool := none
  active : Bool := true
  description : String := ""
  latitude : Option ℚ := none
  longitude : Option ℚ := none
  height : Option ℚ := none
  deriving Repr, DecidableEq

/-- The arguments of a `location_action_completed` signal. -/
structure LocationAction where
  latitude : Option ℚ := none
  longitude : Option ℚ := none
  gps : Option Bool := none
  description : Option String := none
  height : Option ℚ := none
  deriving Repr, DecidableEq

structure Sensor (Point : Type*) where
  location : Option Point
  deriving Repr, DecidableEq

/-- What the location table and its handlers take from elsewhere: the GeoJSON point
of a longitude, a latitude and an altitude, and the value that a decimal column keeps,
`none` when it refuses the value. -/
structure LocationEnv (Point : Type*) where
  constructGeojsonPoint : Option ℚ → Option ℚ → Option ℚ → Point
  degrees : ℚ → Option ℚ
  meters : ℚ → Option ℚ

structure LocationState (Point : Type*) where
  rows : List LocationRow
  sensor : Option (Sensor Point)

variable {Point : Type*} (env : LocationEnv Point)

namespace Location

/-- The instance that a query loads. -/
def ofRow (r : LocationRow) : Location :=
  { pk := some r.pk, gps := some r.gps, active := r.active, description := r.description,
    latitude := some r.latitude, longitude := some r.longitude, height := r.height }

/-- The row that is written for an instance. Every column but the height must be set. -/
def toRow? (pk : ℕ) (l : Location) : Option LocationRow := do
  let gps ← l.gps
  let latitude ← l.latitude.bind env.degrees
  let longitude ← l.longitude.bind env.degrees
  let height ← l.height.elim (some none) fun h => (env.meters h).map some
  return { pk, gps, active := l.active, description := l.description, latitude, longitude, height }

/-- `qs.exclude(pk=self.pk)`, which is not called for a `pk` that is not set. -/
def excluded (l : Location) (r : LocationRow) : Bool := l.pk == some r.pk && r.pk != 0

def deactivateOthers (l : Location) (rows : List LocationRow) : List LocationRow :=
  rows.map fun r => if l.excluded r then r else { r with active := false }

/-- `Model.save`. A row that is not there is inserted, with the key `fresh` when the
instance has none; `none` is an error of the database. -/
def superSave (l : Location) (fresh : ℕ) (refused : Bool) (rows : List LocationRow) :
    Option (List LocationRow) :=
  if refused then none
  else
    match l.pk with
    | none =>
      if fresh ∈ rows.map LocationRow.pk then none
      else (l.toRow? env fresh).map fun r => rows ++ [r]
    | some pk =>
      (l.toRow? env pk).map fun r =>
        if pk ∈ rows.map LocationRow.pk then Table.update LocationRow.pk pk (fun _ => r) rows
        else rows ++ [r]

end Location

/-- The handler of `post_save`. -/
def dbLocationUpdated (l : Location) (s : LocationState Point) : LocationState Point :=
  if l.active then
    match s.sensor with
    | some _ =>
      { s with sensor := some ⟨some (env.constructGeojsonPoint l.longitude l.latitude l.height)⟩ }
    | none => s
  else s

/-- The handler of `post_delete`. -/
def dbLocationDeleted (l : Location) (s : LocationState Point) : LocationState Point :=
  if l.active then
    match s.sensor with
    | some _ => { s with sensor := some ⟨none⟩ }
    | none => s
  else s

/-- `Location.save`. When the write fails, the other rows stay turned off and no
signal is sent. -/
def Location.save (l : Location) (fresh : ℕ) (refused : Bool) (s : LocationState Point) :
    LocationState Point :=
  let rows := if l.active then l.deactivateOthers s.rows else s.rows
  match l.superSave env fresh refused rows with
  | none => { s with rows }
  | some rows => dbLocationUpdated env l { s with rows }

/-- `Model.delete`, which refuses an instance without a key. -/
def Location.delete (l : Location) (s : LocationState Point) : LocationState Point :=
  match l.pk with
  | none => s
  | some pk => dbLocationDeleted l { s with rows := Table.remove LocationRow.pk pk s.rows }

namespace LocationAction

/-- Numbers, texts and flags are tested by their truth. -/
def given {α : Type*} [DecidableEq α] (empty : α) (value : Option α) : Bool :=
  value.any fun a => a ≠ empty

/-- What the signal changes in the location. -/
def edit (a : LocationAction) (l : Location) : Location :=
  let l := if given 0 a.latitude && given 0 a.longitude then
    { l with latitude := a.latitude, longitude := a.longitude } else l
  let l := if given false a.gps then { l with gps := some true } else l
  let l := match a.description with
    | some text => if text ≠ "" then { l with description := text } else l
    | none => l
  let l := if given 0 a.height then { l with height := a.height } else l
  { l with active := true }

/-- The location that the signal saves: the active one or a new one. `none` is the
exception that there are several. -/
def location (a : LocationAction) (rows : List LocationRow) : Option Location :=
  match rows.filter LocationRow.active with
  | [] => some (a.edit {})
  | [r] => some (a.edit (.ofRow r))
  | _ => none

end LocationAction

/-- `location_action_completed_callback`. -/
def locationActionCompletedCallback (a : LocationAction) (fresh : ℕ) (refused : Bool)
    (s : LocationState Point) : LocationState Point :=
  match a.location s.rows with
  | none => s
  | some l => l.save env fresh refused s

/-- What happens to the locations: an instance is saved or deleted, or a signal comes. -/
inductive LocationOp where
  | save (l : Location) (fresh : ℕ) (refused : Bool)
  | delete (l : Location)
  | action (a : LocationAction) (fresh : ℕ) (refused : Bool)

namespace LocationState

def step (s : LocationState Point) : LocationOp → Option (LocationState Point)
  | .save l fresh refused => some (l.save env fresh refused s)
  | .delete l => some (l.delete s)
  | .action a fresh refused => some (locationActionCompletedCallback env a fresh refused s)

def activeRows (s : LocationState Point) : List LocationRow := s.rows.filter LocationRow.active

def pointOf (r : LocationRow) : Point :=
  env.constructGeojsonPoint (some r.longitude) (some r.latitude) r.height

/-- The location of the sensor is the point of the single active row, and `None` when
there is none. -/
def Mirrors (s : LocationState Point) : Prop :=
  ∃ active : Option LocationRow, s.activeRows = active.toList ∧
    s.sensor = some ⟨active.map (pointOf env)⟩

def UniqueKeys (s : LocationState Point) : Prop := (s.rows.map LocationRow.pk).Nodup

/-- The columns keep the coordinates of an instance as they are, up to their point. -/
def Exact (l : Location) : Prop :=
  ∀ pk r, l.toRow? env pk = some r →
    pointOf env r = env.constructGeojsonPoint l.longitude l.latitude l.height

/-- The condition on a save: one that fails finds no other active row, one of an active
location has coordinates that the columns keep, and one of an inactive location does
not turn the active row off. -/
def SaveKeeps (l : Location) (fresh : ℕ) (refused : Bool) (s : LocationState Point) : Prop :=
  if l.active then
    if (l.superSave env fresh refused s.rows).isSome then Exact env l
    else ∀ r ∈ s.activeRows, l.excluded r = true
  else (l.superSave env fresh refused s.rows).isSome → ∀ r ∈ s.activeRows, l.pk ≠ some r.pk

/-- The condition on a step: an active instance is deleted only when no other row is
active, an inactive one only when its own row is not. -/
def KeepsMirror (s : LocationState Point) : LocationOp → Prop
  | .save l fresh refused => SaveKeeps env l fresh refused s
  | .delete l => ∀ pk, l.pk = some pk → ∀ r ∈ s.activeRows, r.pk = pk ↔ l.active = true
  | .action a fresh refused => ∀ l, a.location s.rows = some l → SaveKeeps env l fresh refused s

variable {env} {s s' : LocationState Point} {l : Location} {fresh pk : ℕ} {refused : Bool}
  {r : LocationRow} {rows rows' : List LocationRow} {p : LocationRow → Bool}

/-- When rows only stop to be active and the sensor is left alone, the point stays
right if none of them does. -/
theorem mirrors_iff_of_filter (h : s.Mirrors env) (hsensor : s'.sensor = s.sensor)
    (hactive : s'.activeRows = s.activeRows.filter p) :
    s'.Mirrors env ↔ ∀ r ∈ s.activeRows, p r = true := by
  obtain ⟨active, hrows, hlocation⟩ := h
  simp only [Mirrors, hactive, hsensor, hlocation, hrows]
  cases active with
  | none => simp
  | some r =>
    constructor
    · rintro ⟨active', hrows', hpoint⟩
      cases active' with
      | none => simp at hpoint
      | some r' =>
        have hr' : r' ∈ [r].filter p := by
          rw [Option.toList_some] at hrows'
          simp [hrows']
        obtain ⟨hmem, hp⟩ := List.mem_filter.mp hr'
        rw [List.mem_singleton.mp hmem] at hp
        simpa using hp
    · intro hp
      exact ⟨some r, by simp [hp r (by simp)], rfl⟩

theorem mirrors_iff_of_singleton {point : Point} (hactive : s.activeRows = [r])
    (hsensor : s.sensor = some ⟨some point⟩) : s.Mirrors env ↔ pointOf env r = point := by
  rw [Mirrors, hactive, hsensor]
  constructor
  · rintro ⟨active, hrows, hpoint⟩
    obtain rfl : active = some r := by
      cases active with
      | none => cases hrows
      | some r' => rw [(List.cons.inj hrows).1]
    simpa using hpoint.symm
  · rintro rfl
    exact ⟨some r, rfl, rfl⟩

/-- The point of a row does not depend on its key. -/
theorem pointOf_toRow? {k : ℕ} {r' : LocationRow} (h : l.toRow? env pk = some r)
    (h' : l.toRow? env k = some r') : pointOf env r = pointOf env r' := by
  have hkey : l.toRow? env k = (l.toRow? env pk).map fun r => { r with pk := k } := by
    simp only [Location.toRow?, Option.bind_eq_bind, Option.map_bind, Function.comp_def]
    rfl
  rw [h, Option.map_some, h'] at hkey
  rw [Option.some.inj hkey]
  rfl

theorem toRow?_spec (h : l.toRow? env pk = some r) : r.pk = pk ∧ r.active = l.active := by
  simp only [Location.toRow?, Option.bind_eq_bind, Option.bind_eq_some_iff] at h
  obtain ⟨gps, -, latitude, -, longitude, -, height, -, hr⟩ := h
  rw [← Option.some.inj hr]
  exact ⟨rfl, rfl⟩

/-- A write that goes through replaces the row of the instance or inserts it. -/
theorem superSave_cases (h : l.superSave env fresh refused rows = some rows') :
    ∃ pk r, l.toRow? env pk = some r ∧
      ((pk ∉ rows.map LocationRow.pk ∧ (∀ k, l.pk = some k → k = pk) ∧ rows' = rows ++ [r]) ∨
        (pk ∈ rows.map LocationRow.pk ∧ l.pk = some pk ∧
          rows' = Table.update LocationRow.pk pk (fun _ => r) rows)) := by
  unfold Location.superSave at h
  cases refused with
  | true => cases h
  | false =>
    cases hpk : l.pk with
    | none =>
      simp only [hpk, Bool.false_eq_true, if_false] at h
      split_ifs at h with hstored
      obtain ⟨r, hr, hrows⟩ := Option.map_eq_some_iff.mp h
      exact ⟨fresh, r, hr, .inl ⟨hstored, (fun k hk => nomatch hk), hrows.symm⟩⟩
    | some pk =>
      simp only [hpk, Bool.false_eq_true, if_false] at h
      obtain ⟨r, hr, hrows⟩ := Option.map_eq_some_iff.mp h
      refine ⟨pk, r, hr, ?_⟩
      split_ifs at hrows with hstored
      · exact .inr ⟨hstored, rfl, hrows.symm⟩
      · exact .inl ⟨hstored, fun k hk => (Option.some.inj hk).symm, hrows.symm⟩

/-- Whether a write goes through depends on the stored keys only. -/
theorem superSave_isSome_congr (h : rows'.map LocationRow.pk = rows.map LocationRow.pk) :
    (l.superSave env fresh refused rows').isSome = (l.superSave env fresh refused rows).isSome := by
  unfold Location.superSave
  rw [h]
  cases refused with
  | true => rfl
  | false =>
    cases l.pk with
    | none => simp only [apply_ite Option.isSome, Option.isSome_map]
    | some pk => simp

@[simp] theorem keys_deactivateOthers :
    (l.deactivateOthers rows).map LocationRow.pk = rows.map LocationRow.pk := by
  simp only [Location.deactivateOthers, List.map_map]
  apply List.map_congr_left
  intro r _
  simp only [Function.comp_apply]
  split_ifs <;> rfl

theorem active_deactivateOthers : (l.deactivateOthers rows).filter LocationRow.active =
    (rows.filter LocationRow.active).filter l.excluded := by
  induction rows with
  | nil => rfl
  | cons r rows ih =>
    rw [Location.deactivateOthers, List.map_cons, ← Location.deactivateOthers]
    cases hactive : r.active <;> cases hexcluded : l.excluded r <;>
      simp [hactive, hexcluded, ih]

theorem others_deactivated : ∀ r ∈ l.deactivateOthers rows, r.active = true → l.pk = some r.pk := by
  intro r hr hactive
  have hmem : r ∈ (l.deactivateOthers rows).filter LocationRow.active :=
    List.mem_filter.mpr ⟨hr, hactive⟩
  rw [active_deactivateOthers] at hmem
  have hexcluded := (List.mem_filter.mp hmem).2
  simp only [Location.excluded, Bool.and_eq_true, beq_iff_eq] at hexcluded
  exact hexcluded.1

/-- An active row that is written is the only one when no other was. -/
theorem active_of_superSave (hkeys : (rows.map LocationRow.pk).Nodup)
    (h : l.superSave env fresh refused rows = some rows') (hactive : l.active = true)
    (hothers : ∀ r ∈ rows, r.active = true → l.pk = some r.pk) :
    ∃ pk r, l.toRow? env pk = some r ∧ rows'.filter LocationRow.active = [r] := by
  obtain ⟨pk, r, hr, ⟨hnew, hpk, rfl⟩ | ⟨hstored, hpk, rfl⟩⟩ := superSave_cases h
  · have hnone : rows.filter LocationRow.active = [] := by
      apply List.filter_eq_nil_iff.mpr
      intro r' hr' hon
      exact hnew (hpk r'.pk (hothers r' hr' hon) ▸ List.mem_map_of_mem hr')
    have hon : r.active = true := (toRow?_spec hr).2.trans hactive
    exact ⟨pk, r, hr, by simp [hnone, hon]⟩
  · have hon : r.active = true := (toRow?_spec hr).2.trans hactive
    refine ⟨pk, r, hr, Table.filter_update_of_pos hkeys hstored (toRow?_spec hr).1 hon ?_⟩
    intro a ha hon'
    exact Option.some.inj ((hothers a ha hon').symm.trans hpk)

/-- An inactive row that is written only turns off the row of the instance. -/
theorem inactive_of_superSave (h : l.superSave env fresh refused rows = some rows')
    (hactive : l.active = false) :
    rows'.filter LocationRow.active =
      (rows.filter LocationRow.active).filter fun r => l.pk ≠ some r.pk := by
  obtain ⟨pk, r, hr, ⟨hnew, hpk, rfl⟩ | ⟨-, hpk, rfl⟩⟩ := superSave_cases h
  · have hoff : r.active = false := (toRow?_spec hr).2.trans hactive
    have hall : ∀ a ∈ rows.filter LocationRow.active, decide (l.pk ≠ some a.pk) = true := by
      intro a ha
      simp only [ne_eq, decide_eq_true_eq]
      intro hsame
      exact hnew (hpk a.pk hsame ▸ List.mem_map_of_mem (List.mem_of_mem_filter ha))
    rw [List.filter_eq_self.mpr hall, List.filter_append, List.filter_singleton, hoff]
    simp
  · have hoff : r.active = false := (toRow?_spec hr).2.trans hactive
    rw [Table.filter_update_of_neg hoff]
    simp [hpk, eq_comm]

@[simp] theorem activeRows_dbLocationUpdated : (dbLocationUpdated env l s).activeRows = s.activeRows := by
  unfold dbLocationUpdated
  split_ifs
  · cases s.sensor <;> rfl
  · rfl

@[simp] theorem activeRows_dbLocationDeleted : (dbLocationDeleted l s).activeRows = s.activeRows := by
  unfold dbLocationDeleted
  split_ifs
  · cases s.sensor <;> rfl
  · rfl

/-- A save keeps the point right exactly when it meets its condition. -/
theorem mirrors_save_iff (hkeys : s.UniqueKeys) (h : s.Mirrors env) :
    (l.save env fresh refused s).Mirrors env ↔ SaveKeeps env l fresh refused s := by
  unfold SaveKeeps Location.save
  cases hactive : l.active with
  | true =>
    simp only [if_true]
    have hsame : (l.superSave env fresh refused (l.deactivateOthers s.rows)).isSome =
        (l.superSave env fresh refused s.rows).isSome := superSave_isSome_congr keys_deactivateOthers
    cases hsave : l.superSave env fresh refused (l.deactivateOthers s.rows) with
    | none =>
      rw [hsave] at hsame
      rw [← hsame]
      exact mirrors_iff_of_filter h rfl active_deactivateOthers
    | some rows' =>
      rw [hsave] at hsame
      rw [← hsame]
      have hkeys' : ((l.deactivateOthers s.rows).map LocationRow.pk).Nodup := by
        rw [keys_deactivateOthers]
        exact hkeys
      obtain ⟨pk, r, hr, hone⟩ := active_of_superSave hkeys' hsave hactive others_deactivated
      obtain ⟨active, -, hsensor⟩ := h
      have hpoint : (dbLocationUpdated env l { s with rows := rows' }).sensor =
          some ⟨some (env.constructGeojsonPoint l.longitude l.latitude l.height)⟩ := by
        simp [dbLocationUpdated, hactive, hsensor]
      simp only [Option.isSome_some, if_true]
      have hactiveRows : (dbLocationUpdated env l { s with rows := rows' }).activeRows = [r] := by
        rw [activeRows_dbLocationUpdated]
        exact hone
      rw [mirrors_iff_of_singleton hactiveRows hpoint]
      constructor
      · intro hr' k r' hkept
        rw [pointOf_toRow? hkept hr, hr']
      · intro hexact
        exact hexact pk r hr
  | false =>
    simp only [Bool.false_eq_true, if_false]
    cases hsave : l.superSave env fresh refused s.rows with
    | none => simpa using h
    | some rows' =>
      have hrows : ({ s with rows := rows' } : LocationState Point).activeRows =
          s.activeRows.filter fun r => l.pk ≠ some r.pk := inactive_of_superSave hsave hactive
      have hkeeps : ({ s with rows := rows' } : LocationState Point).Mirrors env ↔ _ :=
        mirrors_iff_of_filter h rfl hrows
      simpa [dbLocationUpdated, hactive] using hkeeps

/-- A delete keeps the point right exactly when it meets its condition. -/
theorem mirrors_delete_iff (h : s.Mirrors env) :
    (l.delete s).Mirrors env ↔
      ∀ pk, l.pk = some pk → ∀ r ∈ s.activeRows, r.pk = pk ↔ l.active = true := by
  cases hpk : l.pk with
  | none => simpa [Location.delete, hpk] using h
  | some pk =>
    have hrows : ({ s with rows := Table.remove LocationRow.pk pk s.rows } :
        LocationState Point).activeRows = s.activeRows.filter fun r => r.pk ≠ pk := by
      simp only [activeRows, Table.remove, List.filter_filter, Bool.and_comm]
    simp only [Location.delete, hpk, Option.some.injEq, forall_eq']
    cases hactive : l.active with
    | false =>
      have hkeeps : ({ s with rows := Table.remove LocationRow.pk pk s.rows } :
          LocationState Point).Mirrors env ↔ _ := mirrors_iff_of_filter h rfl hrows
      simpa [dbLocationDeleted, hactive] using hkeeps
    | true =>
      obtain ⟨active, -, hsensor⟩ := h
      simp only [dbLocationDeleted, hactive, hsensor, if_true, iff_true]
      constructor
      · rintro ⟨active', hrows', hpoint⟩
        obtain rfl : active' = none := by
          cases active' with
          | none => rfl
          | some r => cases hpoint
        simpa using List.filter_eq_nil_iff.mp (hrows.symm.trans hrows')
      · intro hall
        refine ⟨none, hrows.trans (List.filter_eq_nil_iff.mpr ?_), rfl⟩
        intro r hr
        simpa using hall r hr

/-- The agreement is kept by exactly the steps that meet the condition. -/
theorem mirrors_step_iff {op : LocationOp} (hkeys : s.UniqueKeys) (h : s.Mirrors env)
    (hstep : s.step env op = some s') : s'.Mirrors env ↔ KeepsMirror env s op := by
  cases op with
  | save l fresh refused =>
    rw [← Option.some.inj hstep]
    exact mirrors_save_iff hkeys h
  | delete l =>
    rw [← Option.some.inj hstep]
    exact mirrors_delete_iff h
  | action a fresh refused =>
    rw [← Option.some.inj hstep, locationActionCompletedCallback]
    cases hlocation : a.location s.rows with
    | none => simpa [KeepsMirror, hlocation] using h
    | some l => simpa [KeepsMirror, hlocation] using mirrors_save_iff hkeys h

theorem uniqueKeys_save (hkeys : s.UniqueKeys) : (l.save env fresh refused s).UniqueKeys := by
  have hrows : ((if l.active then l.deactivateOthers s.rows else s.rows).map LocationRow.pk).Nodup := by
    split_ifs
    · rw [keys_deactivateOthers]
      exact hkeys
    · exact hkeys
  unfold Location.save
  cases hsave : l.superSave env fresh refused
      (if l.active then l.deactivateOthers s.rows else s.rows) with
  | none =>
    simp only [hsave]
    exact hrows
  | some rows' =>
    have hkeys' : (rows'.map LocationRow.pk).Nodup := by
      obtain ⟨pk, r, hr, ⟨hnew, -, rfl⟩ | ⟨-, -, rfl⟩⟩ := superSave_cases hsave
      · obtain rfl := (toRow?_spec hr).1
        exact Table.nodup_append_row hrows hnew
      · rw [Table.keys_update fun _ _ => (toRow?_spec hr).1]
        exact hrows
    simp only [hsave, dbLocationUpdated]
    split_ifs
    · cases s.sensor <;> exact hkeys'
    · exact hkeys'

theorem uniqueKeys_step {op : LocationOp} (hkeys : s.UniqueKeys) (hstep : s.step env op = some s') :
    s'.UniqueKeys := by
  cases op with
  | save l fresh refused =>
    rw [← Option.some.inj hstep]
    exact uniqueKeys_save hkeys
  | delete l =>
    rw [← Option.some.inj hstep, Location.delete]
    cases l.pk with
    | none => exact hkeys
    | some pk =>
      have hrows : ((Table.remove LocationRow.pk pk s.rows).map LocationRow.pk).Nodup :=
        Table.nodup_remove hkeys
      simp only [dbLocationDeleted]
      split_ifs
      · cases s.sensor <;> exact hrows
      · exact hrows
  | action a fresh refused =>
    rw [← Option.some.inj hstep, locationActionCompletedCallback]
    cases a.location s.rows with
    | none => exact hkeys
    | some l => exact uniqueKeys_save hkeys

theorem exec_isSome (env : LocationEnv Point) (s : LocationState Point) (ops : List LocationOp) :
    ∃ t, exec (step env) s ops = some t := by
  induction ops generalizing s with
  | nil => exact ⟨s, rfl⟩
  | cons op ops ih => cases op <;> exact ih _

/-- The location agrees with the table after every step of a run exactly when every
step meets its condition. -/
theorem throughout_mirrors_iff (hkeys : s.UniqueKeys) (h : s.Mirrors env) (ops : List LocationOp) :
    Throughout (step env) (Mirrors env) s ops ↔ Along (step env) (KeepsMirror env) s ops := by
  obtain ⟨t, hrun⟩ := exec_isSome env s ops
  exact throughout_iff_along (fun _ _ _ hkeys _ hstep => uniqueKeys_step hkeys hstep)
    (fun _ _ _ hkeys hmirror hstep => mirrors_step_iff hkeys hmirror hstep) hkeys h hrun

/-- Points as triples, and columns that keep what they are given. -/
def plainEnv : LocationEnv (Option ℚ × Option ℚ × Option ℚ) where
  constructGeojsonPoint longitude latitude altitude := (longitude, latitude, altitude)
  degrees := some
  meters := some

def noLocation : LocationState (Option ℚ × Option ℚ × Option ℚ) := ⟨[], some ⟨none⟩⟩

def boulder : Location where
  gps := some false
  latitude := some 40
  longitude := some (-105)
  height := some 1600

/-- Columns that keep what they are given keep every active location that is saved. -/
theorem saveKeeps_plainEnv {s : LocationState (Option ℚ × Option ℚ × Option ℚ)} {l : Location}
    {fresh : ℕ} {refused : Bool} (hactive : l.active = true)
    (hsave : (l.superSave plainEnv fresh refused s.rows).isSome = true) :
    SaveKeeps plainEnv l fresh refused s := by
  rw [SaveKeeps, if_pos hactive, if_pos hsave]
  intro pk r h
  simp only [Location.toRow?, Option.bind_eq_bind, Option.bind_eq_some_iff] at h
  obtain ⟨gps, -, _, ⟨north, hnorth, ⟨⟩⟩, _, ⟨east, heast, ⟨⟩⟩, height, hheight, hr⟩ := h
  have hkept : l.height = height := by
    cases hgiven : l.height <;> rw [hgiven] at hheight <;> exact Option.some.inj hheight
  rw [← Option.some.inj hr, hkept, hnorth, heast]
  rfl

/-- The sensor is put up, raised and moved, the row of its first place is deleted, an
action moves it again, and its location is deleted. -/
def boulderMoves : List LocationOp :=
  [.save boulder 1 false, .save { boulder with pk := some 1, height := some 1700 } 2 false,
    .save { boulder with latitude := some 41 } 2 false,
    .delete { boulder with pk := some 1, height := some 1700, active := false },
    .action { latitude := some 42, longitude := some (-106), gps := some true } 3 false,
    .delete { boulder with pk := some 2, latitude := some 42, longitude := some (-106) }]

theorem boulder_mirrored :
    Throughout (step plainEnv) (Mirrors plainEnv) noLocation boulderMoves := by
  have hkeys : noLocation.UniqueKeys := List.nodup_nil
  refine (throughout_mirrors_iff hkeys ⟨none, rfl, rfl⟩ _).mpr ?_
  refine ⟨saveKeeps_plainEnv rfl rfl, ?_⟩
  rintro _ ⟨⟩
  refine ⟨saveKeeps_plainEnv rfl rfl, ?_⟩
  rintro _ ⟨⟩
  refine ⟨saveKeeps_plainEnv rfl rfl, ?_⟩
  rintro _ ⟨⟩
  refine ⟨?_, ?_⟩
  · rintro pk ⟨⟩
    decide
  rintro _ ⟨⟩
  refine ⟨?_, ?_⟩
  · rintro l ⟨⟩
    exact saveKeeps_plainEnv rfl rfl
  rintro _ ⟨⟩
  refine ⟨?_, fun _ _ => trivial⟩
  rintro pk ⟨⟩
  decide

/-- Turning the active location off leaves the sensor at it. -/
theorem deactivated_location_stays :
    noLocation.UniqueKeys ∧ noLocation.Mirrors plainEnv ∧
      (∃ t, exec (step plainEnv) noLocation
          [.save boulder 1 false, .save { boulder with pk := some 1, active := false } 2 false] =
            some t ∧
        t.activeRows = [] ∧ t.sensor = some ⟨some (some (-105), some 40, some 1600)⟩) ∧
      ¬ Throughout (step plainEnv) (Mirrors plainEnv) noLocation
        [.save boulder 1 false, .save { boulder with pk := some 1, active := false } 2 false] := by
  refine ⟨List.nodup_nil, ⟨none, rfl, rfl⟩, ⟨_, rfl, rfl, rfl⟩, ?_⟩
  rintro ⟨-, hfirst⟩
  obtain ⟨-, hsecond⟩ := hfirst _ rfl
  obtain ⟨active, hrows, hpoint⟩ := hsecond _ rfl
  cases active with
  | none => cases hpoint
  | some r => cases hrows

end LocationState

end ScosSensor
