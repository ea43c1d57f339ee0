import ScosSensor.SensorLocation
import Mathlib.Tactic.NormNum

/-!
# Location signals

A signal edits the active location field by field and saves it. Whether a field is
carried is decided by the truth of its value, so a coordinate on the equator or the
prime meridian, a height at sea level and an empty description count as missing. The
edit is given in closed form, and the signal is followed through the save to the row
and to the sensor.
-/
namespace ScosSensor

variable {Point : Type*} {env : LocationEnv Point}

/-- The edit, one field at a time. -/
theorem LocationAction.edit_eq (a : LocationAction) (l : Location) : a.edit l = { l with
    latitude := if given 0 a.latitude && given 0 a.longitude then a.latitude else l.latitude
    longitude := if given 0 a.latitude && given 0 a.longitude then a.longitude else l.longitude
    gps := if given false a.gps then some true else l.gps
    description := if given "" a.description then a.description.getD "" else l.description
    height := if given 0 a.height then a.height else l.height
    active := true } := by
  unfold edit
  cases hd : a.description with
  | none =>
    dsimp only
    split_ifs <;> simp_all [given]
  | some text =>
    dsimp only
    split_ifs <;> simp_all [given]

namespace Location

variable {l : Location} {pk fresh : ℕ} {row : LocationRow} {rows : List LocationRow}

/-- The columns of the row that is written. -/
theorem toRow?_fields (h : l.toRow? env pk = some row) :
    l.gps = some row.gps ∧ row.description = l.description ∧
      l.latitude.bind env.degrees = some row.latitude ∧
      l.longitude.bind env.degrees = some row.longitude ∧
      (l.height.elim (some none) fun h => (env.meters h).map some) = some row.height := by
  simp only [toRow?, Option.bind_eq_bind, Option.bind_eq_some_iff] at h
  obtain ⟨gps, hgps, latitude, hlatitude, longitude, hlongitude, height, hheight, hr⟩ := h
  obtain rfl := Option.some.inj hr
  exact ⟨hgps, rfl, Option.bind_eq_some_iff.mpr hlatitude, Option.bind_eq_some_iff.mpr hlongitude,
    hheight⟩

/-- Values that the columns keep are written as they are. -/
theorem toRow?_of_kept {gps : Bool} {latitude longitude : ℚ} (hgps : l.gps = some gps)
    (hlatitude : l.latitude = some latitude) (hlongitude : l.longitude = some longitude)
    (hkept : env.degrees latitude = some latitude ∧ env.degrees longitude = some longitude)
    (hheight : ∀ h, l.height = some h → env.meters h = some h) :
    l.toRow? env pk = some ⟨pk, gps, l.active, l.description, latitude, longitude, l.height⟩ := by
  have hmeters : (l.height.elim (some none) fun h => (env.meters h).map some) = some l.height := by
    cases hl : l.height with
    | none => rfl
    | some h => simp [hheight h hl]
  simp [toRow?, hgps, hlatitude, hlongitude, hkept, hmeters]

end Location

namespace LocationState

variable {s : LocationState Point} {a : LocationAction} {l : Location} {r row : LocationRow}
  {fresh : ℕ}

/-- What an active location saves when its row is the active one: that row is replaced,
and the sensor gets the point of the instance. -/
theorem save_active (fresh : ℕ) (hkeys : s.UniqueKeys) (hactive : s.activeRows = [r])
    (hon : l.active = true) (hpk : l.pk = some r.pk) (hrow : l.toRow? env r.pk = some row) :
    (l.save env fresh false s).activeRows = [row] ∧
      (l.save env fresh false s).sensor = s.sensor.map fun _ =>
        ⟨some (env.constructGeojsonPoint l.longitude l.latitude l.height)⟩ := by
  have hstored : r.pk ∈ (l.deactivateOthers s.rows).map LocationRow.pk := by
    have hmem : r ∈ s.activeRows := by simp [hactive]
    rw [keys_deactivateOthers]
    exact List.mem_map_of_mem (List.mem_of_mem_filter hmem)
  have hsave : l.superSave env fresh false (l.deactivateOthers s.rows) =
      some (Table.update LocationRow.pk r.pk (fun _ => row) (l.deactivateOthers s.rows)) := by
    simp only [Location.superSave, hpk, Bool.false_eq_true, if_false, hrow, Option.map_some,
      if_pos hstored]
  have hcalls : l.save env fresh false s = dbLocationUpdated env l
      { s with rows := Table.update LocationRow.pk r.pk (fun _ => row) (l.deactivateOthers s.rows) } := by
    simp [Location.save, hon, hsave]
  rw [hcalls]
  constructor
  · rw [activeRows_dbLocationUpdated]
    have hkeys' : ((l.deactivateOthers s.rows).map LocationRow.pk).Nodup := by
      rw [keys_deactivateOthers]
      exact hkeys
    obtain ⟨hsame, hrowOn⟩ := toRow?_spec hrow
    refine Table.filter_update_of_pos hkeys' hstored hsame (hrowOn.trans hon) ?_
    intro r' hr' hon'
    have hmem : r' ∈ (l.deactivateOthers s.rows).filter LocationRow.active :=
      List.mem_filter.mpr ⟨hr', hon'⟩
    rw [active_deactivateOthers] at hmem
    have hone : r' ∈ s.activeRows := (List.mem_filter.mp hmem).1
    rw [hactive, List.mem_singleton] at hone
    rw [hone]
  · unfold dbLocationUpdated
    cases s.sensor <;> simp [hon]

/-- A save that the columns refuse turns rows off at most. -/
theorem save_refused (hactive : s.activeRows = [r]) (hon : l.active = true)
    (hpk : l.pk = some r.pk) (hrow : l.toRow? env r.pk = none) (hsaved : row ∈
      (l.save env fresh false s).activeRows) : row = r := by
  have hsave : l.superSave env fresh false (l.deactivateOthers s.rows) = none := by
    simp [Location.superSave, hpk, hrow]
  have hrows : (l.save env fresh false s).activeRows = [r].filter l.excluded := by
    have hcalls : l.save env fresh false s = { s with rows := l.deactivateOthers s.rows } := by
      simp [Location.save, hon, hsave]
    rw [hcalls, ← hactive]
    exact active_deactivateOthers
  rw [hrows] at hsaved
  exact List.mem_singleton.mp (List.mem_of_mem_filter hsaved)

/-- The columns keep what they hold. -/
structure Stored (env : LocationEnv Point) (r : LocationRow) : Prop where
  latitude : env.degrees r.latitude = some r.latitude
  longitude : env.degrees r.longitude = some r.longitude
  height : ∀ h, r.height = some h → env.meters h = some h

/-- The row has the values of the signal, and those of `r` where the signal has none. -/
structure Carries (a : LocationAction) (latitude longitude : ℚ) (r row : LocationRow) : Prop where
  latitude : row.latitude = latitude
  longitude : row.longitude = longitude
  height : ∀ h, a.height = some h → row.height = some h
  heightKept : a.height = none → row.height = r.height
  description : ∀ text, a.description = some text → row.description = text
  descriptionKept : a.description = none → row.description = r.description
  gpsKept : a.gps = none → row.gps = r.gps

/-- A signal is applied when the one active row carries it and the sensor, if there is one,
is at its coordinates. -/
def Applied (env : LocationEnv Point) (a : LocationAction) (latitude longitude : ℚ)
    (r : LocationRow) (s s' : LocationState Point) : Prop :=
  ∃ row, s'.activeRows = [row] ∧ Carries a latitude longitude r row ∧
    s'.sensor = s.sensor.map fun _ =>
      ⟨some (env.constructGeojsonPoint (some longitude) (some latitude) row.height)⟩

/-- The condition on a signal: its coordinates are not zero and a given height is not zero,
and the columns keep them, or else the row has them already; an empty description is only
given for a row without one. -/
structure Plain (env : LocationEnv Point) (a : LocationAction) (latitude longitude : ℚ)
    (r : LocationRow) : Prop where
  coordinates : (latitude ≠ 0 ∧ longitude ≠ 0 ∧ env.degrees latitude = some latitude ∧
      env.degrees longitude = some longitude) ∨ (r.latitude = latitude ∧ r.longitude = longitude)
  height : ∀ h, a.height = some h → (h ≠ 0 ∧ env.meters h = some h) ∨ r.height = some h
  description : a.description = some "" → r.description = ""

variable {latitude longitude : ℚ}

/-! What the edit leaves in each field, for a signal that meets the condition. -/

theorem Plain.edit_coordinates (h : Plain env a latitude longitude r)
    (hlatitude : a.latitude = some latitude) (hlongitude : a.longitude = some longitude) :
    (a.edit (.ofRow r)).latitude = some latitude ∧
      (a.edit (.ofRow r)).longitude = some longitude := by
  rw [LocationAction.edit_eq, hlatitude, hlongitude]
  dsimp only
  rcases h.coordinates with ⟨hlat, hlon, -⟩ | ⟨rfl, rfl⟩
  · simp [LocationAction.given, hlat, hlon]
  · split_ifs <;> exact ⟨rfl, rfl⟩

theorem Plain.kept_coordinates (h : Plain env a latitude longitude r) (hr : Stored env r) :
    env.degrees latitude = some latitude ∧ env.degrees longitude = some longitude := by
  rcases h.coordinates with ⟨-, -, hkept⟩ | ⟨rfl, rfl⟩
  · exact hkept
  · exact ⟨hr.latitude, hr.longitude⟩

theorem Plain.edit_height (h : Plain env a latitude longitude r) :
    (a.edit (.ofRow r)).height = a.height.or r.height := by
  rw [LocationAction.edit_eq]
  cases ha : a.height with
  | none => rfl
  | some height =>
    rcases h.height height ha with ⟨hne, -⟩ | hsame
    · simp [LocationAction.given, hne]
    · simp [LocationAction.given, Location.ofRow, hsame]

theorem Plain.kept_height (h : Plain env a latitude longitude r) (hr : Stored env r) {height : ℚ}
    (hheight : a.height.or r.height = some height) : env.meters height = some height := by
  cases ha : a.height with
  | none =>
    rw [ha, Option.none_or] at hheight
    exact hr.height height hheight
  | some given =>
    rw [ha, Option.some_or] at hheight
    obtain rfl := Option.some.inj hheight
    rcases h.height given ha with ⟨-, hmeters⟩ | hsame
    · exact hmeters
    · exact hr.height given hsame

theorem Plain.edit_description (h : Plain env a latitude longitude r) :
    (a.edit (.ofRow r)).description = a.description.getD r.description := by
  rw [LocationAction.edit_eq]
  cases ha : a.description with
  | none => rfl
  | some text =>
    by_cases htext : text = ""
    · subst htext
      simp [LocationAction.given, Location.ofRow, h.description ha]
    · simp [LocationAction.given, htext]

/-- A signal that meets the condition is written as it is. -/
theorem toRow?_of_plain (hr : Stored env r) (hlatitude : a.latitude = some latitude)
    (hlongitude : a.longitude = some longitude) (h : Plain env a latitude longitude r) :
    ∃ row, (a.edit (.ofRow r)).toRow? env r.pk = some row ∧ Carries a latitude longitude r row ∧
      (a.edit (.ofRow r)).latitude = some latitude ∧
      (a.edit (.ofRow r)).longitude = some longitude ∧ (a.edit (.ofRow r)).height = row.height := by
  have hedit := h.edit_coordinates hlatitude hlongitude
  have hgps : (a.edit (.ofRow r)).gps =
      some (if LocationAction.given false a.gps then true else r.gps) := by
    rw [LocationAction.edit_eq]
    dsimp only
    split_ifs <;> rfl
  have hmeters : ∀ height, (a.edit (.ofRow r)).height = some height →
      env.meters height = some height := by
    rw [h.edit_height]
    intro height hheight
    exact h.kept_height hr hheight
  refine ⟨_, Location.toRow?_of_kept hgps hedit.1 hedit.2 (h.kept_coordinates hr) hmeters, ?_,
    hedit.1, hedit.2, rfl⟩
  refine ⟨rfl, rfl, ?_, ?_, ?_, ?_, ?_⟩
  · intro height ha
    simp [h.edit_height, ha]
  · intro ha
    simp [h.edit_height, ha]
  · intro text ha
    simp [h.edit_description, ha]
  · intro ha
    simp [h.edit_description, ha]
  · intro ha
    simp [ha, LocationAction.given]

/-- A row that was written and carries the signal shows that the condition was met. -/
theorem plain_of_carries (hr : Stored env r) (hlatitude : a.latitude = some latitude)
    (hlongitude : a.longitude = some longitude)
    (hrow : (a.edit (.ofRow r)).toRow? env r.pk = some row)
    (h : Carries a latitude longitude r row) : Plain env a latitude longitude r := by
  obtain ⟨-, hdescription, hlat, hlon, hheight⟩ := Location.toRow?_fields hrow
  rw [LocationAction.edit_eq] at hdescription hlat hlon hheight
  dsimp only at hdescription hlat hlon hheight
  rw [hlatitude, hlongitude] at hlat hlon
  constructor
  · by_cases hboth : latitude ≠ 0 ∧ longitude ≠ 0
    · left
      simp only [LocationAction.given, Option.any_some, hboth.1, hboth.2, ne_eq, not_false_eq_true,
        decide_true, Bool.and_self, if_true, Option.bind_some, h.latitude, h.longitude] at hlat hlon
      exact ⟨hboth.1, hboth.2, hlat, hlon⟩
    · right
      have hskip : ¬ (LocationAction.given 0 (some latitude) &&
          LocationAction.given 0 (some longitude)) = true := by
        simpa [LocationAction.given] using hboth
      rw [if_neg hskip] at hlat hlon
      simp only [Location.ofRow, Option.bind_some, hr.latitude, hr.longitude, h.latitude,
        h.longitude, Option.some.injEq] at hlat hlon
      exact ⟨hlat, hlon⟩
  · intro height ha
    rw [h.height height ha, ha] at hheight
    by_cases hzero : height = 0
    · right
      subst hzero
      cases hold : r.height with
      | none => simp [LocationAction.given, Location.ofRow, hold] at hheight
      | some old =>
        have hkept := hr.height old hold
        simpa [LocationAction.given, Location.ofRow, hold, hkept] using hheight
    · left
      refine ⟨hzero, ?_⟩
      simpa [LocationAction.given, hzero] using hheight
  · intro ha
    rw [h.description "" ha, ha] at hdescription
    simpa [LocationAction.given, Location.ofRow] using hdescription.symm

/-- A row that carries the signal unchanged. -/
theorem plain_of_same (h : Carries a latitude longitude r r) : Plain env a latitude longitude r where
  coordinates := .inr ⟨h.latitude, h.longitude⟩
  height height hheight := .inr (h.height height hheight)
  description hempty := h.description "" hempty

/-- A signal is applied exactly when it meets the condition. -/
theorem applied_iff (hkeys : s.UniqueKeys) (hactive : s.activeRows = [r]) (hr : Stored env r)
    (hlatitude : a.latitude = some latitude) (hlongitude : a.longitude = some longitude) :
    Applied env a latitude longitude r s
        (locationActionCompletedCallback env a fresh false s) ↔
      Plain env a latitude longitude r := by
  have hlocation : a.location s.rows = some (a.edit (.ofRow r)) := by
    have hrows : s.rows.filter LocationRow.active = [r] := hactive
    simp [LocationAction.location, hrows]
  have hcallback : locationActionCompletedCallback env a fresh false s =
      (a.edit (.ofRow r)).save env fresh false s := by
    simp [locationActionCompletedCallback, hlocation]
  have hon : (a.edit (.ofRow r)).active = true := by rw [LocationAction.edit_eq]
  have hpk : (a.edit (.ofRow r)).pk = some r.pk := by rw [LocationAction.edit_eq]; rfl
  rw [hcallback]
  constructor
  · rintro ⟨row, hone, hcarries, -⟩
    cases hrow : (a.edit (.ofRow r)).toRow? env r.pk with
    | none =>
      have hsaved : row ∈ ((a.edit (.ofRow r)).save env fresh false s).activeRows := by simp [hone]
      obtain rfl := save_refused hactive hon hpk hrow hsaved
      exact plain_of_same hcarries
    | some written =>
      have hwritten := (save_active fresh hkeys hactive hon hpk hrow).1
      obtain rfl : row = written := by simpa [hone] using hwritten
      exact plain_of_carries hr hlatitude hlongitude hrow hcarries
  · intro h
    obtain ⟨row, hrow, hcarries, hlat, hlon, hheight⟩ :=
      toRow?_of_plain hr hlatitude hlongitude h
    obtain ⟨hone, hsensor⟩ := save_active fresh hkeys hactive hon hpk hrow
    refine ⟨row, hone, hcarries, ?_⟩
    rw [hsensor, hlat, hlon, hheight]

/-- An active row, and the sensor at its point. -/
def boulderRow : LocationRow := ⟨1, false, true, "", 40, -105, some 1600⟩

def atBoulder : LocationState (Option ℚ × Option ℚ × Option ℚ) :=
  ⟨[boulderRow], some ⟨some (some (-105), some 40, some 1600)⟩⟩

theorem stored_boulderRow : Stored plainEnv boulderRow := ⟨rfl, rfl, fun _ _ => rfl⟩

theorem applied_moved :
    Applied plainEnv { latitude := some 39, longitude := some (-104), height := some 1700 } 39 (-104)
      boulderRow atBoulder (locationActionCompletedCallback plainEnv
        { latitude := some 39, longitude := some (-104), height := some 1700 } 2 false atBoulder) := by
  have hkeys : atBoulder.UniqueKeys := List.nodup_singleton 1
  refine (applied_iff hkeys rfl stored_boulderRow rfl rfl).mpr ⟨?_, ?_, ?_⟩
  · left
    norm_num [plainEnv]
  · intro h hh
    obtain rfl := Option.some.inj hh
    left
    norm_num [plainEnv]
  · intro hnone
    cases hnone

/-- A position on the equator leaves the old one in place. -/
theorem equator_not_applied :
    let signal : LocationAction := { latitude := some 0, longitude := some (19 / 2) }
    let s' := locationActionCompletedCallback plainEnv signal 2 false atBoulder
    atBoulder.UniqueKeys ∧ atBoulder.activeRows = [boulderRow] ∧ Stored plainEnv boulderRow ∧
      s'.activeRows = [boulderRow] ∧ s'.sensor = atBoulder.sensor ∧
      ¬ Applied plainEnv signal 0 (19 / 2) boulderRow atBoulder s' := by
  intro signal s'
  have hactive : s'.activeRows = [boulderRow] := rfl
  refine ⟨List.nodup_singleton 1, rfl, stored_boulderRow, hactive, rfl, ?_⟩
  rintro ⟨row, hone, hcarries, -⟩
  obtain rfl : boulderRow = row := by simpa [hactive] using hone
  have hlatitude : (40 : ℚ) = 0 := hcarries.latitude
  norm_num at hlatitude

end LocationState

end ScosSensor
