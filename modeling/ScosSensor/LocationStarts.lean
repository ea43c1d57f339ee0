import ScosSensor.Initialization
import ScosSensor.SensorLocation

/-!
# The location across starts

The sensor that a start makes has the location of its definition, and then the one of
the active row, if there is one. So a start puts right whatever the handlers have let
drift apart, as long as one row is active; without one the sensor is at the location
of its definition, also when another had been the active one before.
-/
namespace ScosSensor

open Runs Raising Initialization

/-- An operation on the locations, or a start of the process. One comes after the other. -/
inductive LocationEvent (Point Cal : Type) where
  | op (o : LocationOp)
  | start (settings : StartSettings) (c : Calls Point Cal)

namespace LocationState

variable {Point Cal : Type} (env : LocationEnv Point)

/-- `StatusConfig.ready`. Whatever is raised in it, also for want of a sensor, is passed over. -/
def ready (s : LocationState Point) : LocationState Point :=
  match s.activeRows, s.sensor with
  | [r], some _ => { s with sensor := some ⟨some (pointOf env r)⟩ }
  | _, _ => s

/-- A new process beside the same table. -/
def restarted (settings : StartSettings) (c : Calls Point Cal) (s : LocationState Point) :
    LocationState Point :=
  ready env { s with
    sensor := (result (start settings c) {}).2.sensor.map fun sensor => ⟨sensor.location⟩ }

/-- A start that raises makes no process, and leaves the table as it is until the next one. -/
def eventStep (s : LocationState Point) : LocationEvent Point Cal → Option (LocationState Point)
  | .op o => s.step env o
  | .start settings c =>
    match result (start settings c) {} with
    | (.ok _, _) => some (s.restarted env settings c)
    | (.error _, _) => none

/-- Keys are unique, and one row at most is active. -/
structure OneActive (s : LocationState Point) : Prop where
  keys : s.UniqueKeys
  active : s.activeRows.length ≤ 1

/-- The sensor is at the active row or, without one, at the location `fallback` that it
had at its start. -/
def Follows (fallback : Option Point) (s : LocationState Point) : Prop :=
  s.Mirrors env ∨ (s.activeRows = [] ∧ s.sensor = some ⟨fallback⟩)

variable {env} {s s' t : LocationState Point} {l : Location} {fresh : ℕ} {refused : Bool}
  {settings : StartSettings} {c : Calls Point Cal} {fallback : Option Point}

theorem OneActive.save (h : s.OneActive) : (l.save env fresh refused s).OneActive := by
  refine ⟨uniqueKeys_save h.keys, ?_⟩
  unfold Location.save
  cases hactive : l.active with
  | true =>
    simp only [if_true]
    have hkeys : ((l.deactivateOthers s.rows).map LocationRow.pk).Nodup := by
      rw [keys_deactivateOthers]
      exact h.keys
    cases hsave : l.superSave env fresh refused (l.deactivateOthers s.rows) with
    | none =>
      have hrows : ({ s with rows := l.deactivateOthers s.rows } : LocationState Point).activeRows =
          s.activeRows.filter l.excluded := active_deactivateOthers
      rw [hrows]
      exact (List.length_filter_le _ _).trans h.active
    | some rows =>
      obtain ⟨pk, r, -, hone⟩ := active_of_superSave hkeys hsave hactive others_deactivated
      rw [activeRows_dbLocationUpdated]
      exact (congrArg List.length hone).le
  | false =>
    simp only [Bool.false_eq_true, if_false]
    cases hsave : l.superSave env fresh refused s.rows with
    | none => exact h.active
    | some rows =>
      rw [activeRows_dbLocationUpdated]
      have hrows : ({ s with rows } : LocationState Point).activeRows =
          s.activeRows.filter fun r => l.pk ≠ some r.pk := inactive_of_superSave hsave hactive
      rw [hrows]
      exact (List.length_filter_le _ _).trans h.active

theorem OneActive.step {o : LocationOp} (h : s.OneActive) (hstep : s.step env o = some s') :
    s'.OneActive := by
  cases o with
  | save l fresh refused => exact Option.some.inj hstep ▸ h.save
  | delete l =>
    refine ⟨uniqueKeys_step h.keys hstep, ?_⟩
    rw [← Option.some.inj hstep, Location.delete]
    cases l.pk with
    | none => exact h.active
    | some pk =>
      dsimp only
      rw [activeRows_dbLocationDeleted]
      have hsub : (Table.remove LocationRow.pk pk s.rows).Sublist s.rows := List.filter_sublist
      exact (hsub.filter _).length_le.trans h.active
  | action a fresh refused =>
    rw [← Option.some.inj hstep, locationActionCompletedCallback]
    cases a.location s.rows with
    | none => exact h
    | some l => exact h.save

theorem ready_rows : (s.ready env).rows = s.rows := by
  unfold ready
  split <;> rfl

theorem OneActive.restarted (h : s.OneActive) : (s.restarted env settings c).OneActive := by
  have hrows : (s.restarted env settings c).rows = s.rows := ready_rows
  exact ⟨by rw [UniqueKeys, hrows]; exact h.keys, by rw [activeRows, hrows]; exact h.active⟩

theorem eventStep_start (h : s.eventStep env (.start settings c) = some s') :
    s' = s.restarted env settings c := by
  simp only [eventStep] at h
  split at h
  · exact (Option.some.inj h).symm
  · cases h

theorem OneActive.event {e : LocationEvent Point Cal} (h : s.OneActive)
    (hstep : s.eventStep env e = some s') : s'.OneActive := by
  cases e with
  | op o => exact h.step hstep
  | start settings c => exact eventStep_start hstep ▸ h.restarted

/-- A start puts the sensor at the active row, or else at the location of its definition. -/
theorem restarted_follows (h : s.OneActive) (hloads : Loads settings c) :
    (s.restarted env settings c).Follows env (definedLocation settings c) ∧
      (s.activeRows ≠ [] → (s.restarted env settings c).Mirrors env) := by
  obtain ⟨sensor, hsensor, hlocation⟩ :=
    Option.map_eq_some_iff.mp ((situated_start settings c).1 hloads)
  have hstart : s.restarted env settings c =
      ready env ⟨s.rows, some ⟨definedLocation settings c⟩⟩ := by
    rw [restarted, hsensor, ← hlocation]
    rfl
  have hrows : (⟨s.rows, some ⟨definedLocation settings c⟩⟩ : LocationState Point).activeRows =
      s.activeRows := rfl
  rw [hstart, ready, hrows]
  cases hactive : s.activeRows with
  | nil => exact ⟨.inr ⟨hactive, rfl⟩, fun hne => absurd rfl hne⟩
  | cons r rest =>
    cases rest with
    | nil =>
      have hmirrors : (⟨s.rows, some ⟨some (pointOf env r)⟩⟩ : LocationState Point).Mirrors env :=
        ⟨some r, hactive, rfl⟩
      exact ⟨.inl hmirrors, fun _ => hmirrors⟩
    | cons r' rest =>
      have hle := h.active
      rw [hactive] at hle
      simp at hle

/-- The same table, with the sensor at a location. -/
def located (s : LocationState Point) (a : Option Point) : LocationState Point :=
  { s with sensor := some ⟨a⟩ }

/-- What is done to the locations moves the sensor to some place, wherever it was, or
leaves it where it is. -/
def MovesOrLeaves (f : LocationState Point → LocationState Point) (s : LocationState Point) :
    Prop :=
  ∃ rows, (∃ p, ∀ a, f (s.located a) = ⟨rows, some ⟨p⟩⟩) ∨ ∀ a, f (s.located a) = ⟨rows, some ⟨a⟩⟩

theorem movesOrLeaves_save (l : Location) (fresh : ℕ) (refused : Bool) (s : LocationState Point) :
    MovesOrLeaves (l.save env fresh refused) s := by
  unfold MovesOrLeaves Location.save located
  dsimp only
  cases hactive : l.active with
  | true =>
    simp only [if_true]
    cases l.superSave env fresh refused (l.deactivateOthers s.rows) with
    | none => exact ⟨_, .inr fun a => rfl⟩
    | some rows =>
      refine ⟨rows, .inl ⟨some (env.constructGeojsonPoint l.longitude l.latitude l.height), ?_⟩⟩
      intro a
      simp [dbLocationUpdated, hactive]
  | false =>
    simp only [Bool.false_eq_true, if_false]
    cases l.superSave env fresh refused s.rows with
    | none => exact ⟨_, .inr fun a => rfl⟩
    | some rows => exact ⟨rows, .inr fun a => by simp [dbLocationUpdated, hactive]⟩

theorem movesOrLeaves_delete (l : Location) (s : LocationState Point) :
    MovesOrLeaves l.delete s := by
  unfold MovesOrLeaves Location.delete located
  cases l.pk with
  | none => exact ⟨_, .inr fun a => rfl⟩
  | some pk =>
    refine ⟨Table.remove LocationRow.pk pk s.rows, ?_⟩
    cases hactive : l.active with
    | true => exact .inl ⟨none, fun a => by simp [dbLocationDeleted, hactive]⟩
    | false => exact .inr fun a => by simp [dbLocationDeleted, hactive]

/-- The effect of an operation. -/
def effect (env : LocationEnv Point) (o : LocationOp) (s : LocationState Point) :
    LocationState Point :=
  (s.step env o).getD s

theorem movesOrLeaves_effect (o : LocationOp) (s : LocationState Point) :
    MovesOrLeaves (effect env o) s := by
  cases o with
  | save l fresh refused => exact movesOrLeaves_save l fresh refused s
  | delete l => exact movesOrLeaves_delete l s
  | action a fresh refused =>
    unfold MovesOrLeaves effect step locationActionCompletedCallback located
    dsimp only [Option.getD_some]
    cases a.location s.rows with
    | none => exact ⟨s.rows, .inr fun a => rfl⟩
    | some l => exact movesOrLeaves_save l fresh refused s

/-- As long as the operations meet their condition, the sensor stays at the location of
its definition until it is moved to an active row. -/
theorem Follows.step {o : LocationOp} (h : s.Follows env fallback) (hkeys : s.UniqueKeys)
    (hkeeps : KeepsMirror env s o) (hstep : s.step env o = some s') : s'.Follows env fallback := by
  obtain hmirrors | ⟨hnone, hsensor⟩ := h
  · exact .inl ((mirrors_step_iff hkeys hmirrors hstep).mpr hkeeps)
  · have hs : s = s.located fallback := by rw [located, ← hsensor]
    have heffect : s' = effect env o (s.located fallback) := by
      rw [← hs, effect, hstep, Option.getD_some]
    -- beside the same table with a sensor that has no location
    have hmirrors : (s.located none).Mirrors env := ⟨none, hnone, rfl⟩
    have hkeeps' : KeepsMirror env (s.located none) o := by cases o <;> exact hkeeps
    have hstep' : (s.located none).step env o = some (effect env o (s.located none)) := by
      cases o <;> rfl
    have hkeys' : (s.located none).UniqueKeys := hkeys
    have hafter : (effect env o (s.located none)).Mirrors env :=
      (mirrors_step_iff hkeys' hmirrors hstep').mpr hkeeps'
    have hmoved : MovesOrLeaves (effect env o) s := movesOrLeaves_effect o s
    obtain ⟨rows, ⟨p, hmoves⟩ | hleaves⟩ := hmoved
    · rw [heffect, hmoves, ← hmoves none]
      exact .inl hafter
    · rw [hleaves] at hafter heffect
      obtain ⟨active, hactive, hpoint⟩ := hafter
      cases active with
      | none => exact heffect ▸ .inr ⟨hactive, rfl⟩
      | some r => cases hpoint

theorem Follows.run {started : Prop} {ops : List LocationOp} (h : s.Follows env fallback)
    (hone : s.OneActive) (hmirrors : started → s.Mirrors env)
    (hops : Along (LocationState.step env) (KeepsMirror env) s ops)
    (hrun : exec (eventStep env) s (ops.map .op : List (LocationEvent Point Cal)) = some t) :
    t.OneActive ∧ t.Follows env fallback ∧ (started → t.Mirrors env) := by
  induction ops generalizing s with
  | nil => exact Option.some.inj hrun ▸ ⟨hone, h, hmirrors⟩
  | cons o ops ih =>
    obtain ⟨s', hstep, hrest⟩ := exec_cons.mp hrun
    refine ih (h.step hone.keys hops.1 hstep) (hone.step hstep) ?_ (hops.2 s' hstep) hrest
    exact fun hstarted => (mirrors_step_iff hone.keys (hmirrors hstarted) hstep).mpr hops.1

/-- Whatever has been done to the locations before, one row at most is active, and a start
that loads its sensor puts it at the active row. In what follows, as long as the
operations meet their condition, the sensor is at the active row; without one it is
nowhere, or still at the location of its definition if there was none at the start. -/
theorem location_follows_start (env : LocationEnv Point) (s : LocationState Point)
    (hs : s.OneActive) (before : List (LocationEvent Point Cal)) (u : LocationState Point)
    (hbefore : exec (eventStep env) s before = some u) (settings : StartSettings)
    (c : Calls Point Cal) (hloads : Loads settings c) (ops : List LocationOp)
    (hops : Along (step env) (KeepsMirror env) (u.restarted env settings c) ops)
    (t : LocationState Point)
    (hrun : exec (eventStep env) u (.start settings c :: ops.map .op) = some t) :
    t.OneActive ∧ t.Follows env (definedLocation settings c) ∧
      (u.activeRows ≠ [] → t.Mirrors env) := by
  have hu : u.OneActive := exec_invariant (fun _ _ _ h _ hstep => h.event hstep) hs
    (Along.of_forall (fun _ _ => trivial) s before) hbefore
  obtain ⟨u', hstart, hlater⟩ := exec_cons.mp hrun
  obtain rfl := eventStep_start hstart
  have hstarted : (u.restarted env settings c).Follows env (definedLocation settings c) ∧ _ :=
    restarted_follows hu hloads
  exact Follows.run hstarted.1 hu.restarted hstarted.2 hops hlater

/-- The active location is saved, a second one is made inactive, and that one is deleted
through an instance that is out of date. -/
def drifted : List (LocationEvent (Option ℚ × Option ℚ × Option ℚ) Unit) :=
  [.op (.save boulder 1 false), .op (.save { boulder with active := false } 2 false),
    .op (.delete { boulder with pk := some 2 })]

/-- A start at which all is well, of a sensor without a location in its definition. -/
def wellStarted : Calls (Option ℚ × Option ℚ × Option ℚ) Unit := answering ['s', 'd', 'r'] true

/-- The sensor is nowhere, although a location is active. A start puts it there, and
saving another inactive location leaves it there. -/
theorem location_follows_start_drifted :
    ∃ u t, exec (eventStep plainEnv) noLocation drifted = some u ∧ u.sensor = some ⟨none⟩ ∧
      exec (eventStep plainEnv) u (.start behindUsb wellStarted ::
        [LocationOp.save { boulder with active := false } 2 false].map .op) = some t ∧
      t.Mirrors plainEnv := by
  have hone : noLocation.OneActive := ⟨List.nodup_nil, Nat.zero_le _⟩
  obtain ⟨u, hu, hsensor, hactive⟩ : ∃ u, exec (eventStep plainEnv) noLocation drifted = some u ∧
      u.sensor = some ⟨none⟩ ∧ u.activeRows = [⟨1, false, true, "", 40, -105, some 1600⟩] :=
    ⟨_, rfl, rfl, rfl⟩
  obtain ⟨t, ht⟩ : ∃ t, exec (eventStep plainEnv) u (.start behindUsb wellStarted ::
      [LocationOp.save { boulder with active := false } 2 false].map .op) = some t := ⟨_, rfl⟩
  have hkeeps : Along (step plainEnv) (KeepsMirror plainEnv)
      (u.restarted plainEnv behindUsb wellStarted)
      [.save { boulder with active := false } 2 false] := by
    refine ⟨fun _ r _ hpk => ?_, fun _ _ => trivial⟩
    cases hpk
  have hfollows := location_follows_start plainEnv noLocation hone drifted u hu behindUsb
    wellStarted complete_answering.toLoads _ hkeeps t ht
  exact ⟨u, t, hu, hsensor, ht, hfollows.2.2 (by rw [hactive]; simp)⟩

end LocationState

end ScosSensor
