import ScosSensor.EntryViews

/-!
# The read-only columns under updates

An update assigns the fields that are writable in it. The view declares name and
action read-only for updates, and the name, which is generated from the model, is;
the action is declared on the serializer and stays writable, so that an update can
give a running entry another action.
-/
namespace ScosSensor

/-- A row of the schedule table with the columns that only the API knows: the
request that created the entry, and the date. -/
structure EntryRow extends ScheduleEntry where
  request : Option ℕ := none
  created : ℤ
  deriving Repr, DecidableEq

/-- The row that an update with the data `v` writes. No field sets the request. -/
def EntryRow.updated (now : ℤ) (row : EntryRow) (v : Validated) : EntryRow where
  toScheduleEntry := row.toScheduleEntry.updated now v
  request := row.request
  created := v.created.getD row.created

/-- The columns that an update must not touch. -/
structure EntryRow.KeepsReadOnly (row row' : EntryRow) : Prop where
  name : row'.name = row.name
  action : row'.action = row.action
  owner : row'.owner = row.owner
  request : row'.request = row.request
  created : row'.created = row.created
  nextTaskId : row'.nextTaskId = row.nextTaskId

/-- The stored entry of runs on fixed inputs. -/
def everyTenSecondsRow : EntryRow where
  toScheduleEntry := everyTenSeconds
  request := some 1
  created := 1558047600000000

namespace ScheduleEntryViewSet

open ScheduleEntrySerializer

variable {D : Conversions} {cfg : Settings} {db : Database} {now : ℤ} {a : ViewAction}
  {row row' : EntryRow} {data : Obj} {v : Validated} {name : String} {e : ScheduleEntry}

/-- The row after an update of it; `none` is an update that is not accepted. -/
def updateRow (D : Conversions) (cfg : Settings) (db : Database) (now : ℤ) (a : ViewAction)
    (row : EntryRow) (data : Obj) : Option EntryRow :=
  match isValid D cfg db a data with
  | .error _ => none
  | .ok v =>
    if v.validateOnly then some row
    else if (row.updated now v).fits then some (row.updated now v) else none

/-- The row of the table is the one that the view writes. -/
theorem updateRow_of_update (hload : Scheduler.loadEntry cfg db name = .ok row.toScheduleEntry)
    (h : (update D cfg db now a name data).row = some e) :
    ∃ row', updateRow D cfg db now a row data = some row' ∧ row'.toScheduleEntry = e := by
  obtain ⟨loaded, v, hload', hvalid, hwrite, hfits, rfl, -⟩ := update_row h
  obtain rfl := Except.ok.inj (hload.symm.trans hload')
  refine ⟨row.updated now v, ?_, rfl⟩
  simp only [updateRow, hvalid, hwrite, Bool.false_eq_true, if_false]
  exact if_pos hfits

/-- What an accepted update makes of the columns, whatever the body names. -/
theorem updateRow_some (ha : a.updating = true) (h : updateRow D cfg db now a row data = some row') :
    row'.name = row.name ∧ row'.owner = row.owner ∧ row'.request = row.request ∧
      row'.created = row.created ∧ row'.nextTaskId = row.nextTaskId ∧
      row'.action = if (validateOnly D).sent data = some true then row.action
        else ((action D cfg).sent data).getD row.action := by
  unfold updateRow at h
  cases hvalid : isValid D cfg db a data with
  | error err => simp [hvalid] at h
  | ok v =>
    have haccepts := accepts_of_isValid hvalid
    obtain ⟨-, hid, hcreated, howner⟩ := haccepts.readOnly
    simp only [hvalid, haccepts.validateOnly] at h
    split_ifs at h ⊢ with honly hfits
    · obtain rfl := Option.some.inj h
      exact ⟨rfl, rfl, rfl, rfl, rfl, rfl⟩
    · obtain rfl := Option.some.inj h
      rw [← haccepts.action]
      have hname := haccepts.name ha
      refine ⟨?_, ?_, rfl, ?_, ?_, ScheduleEntry.updated_action now _ v⟩
      · simp [EntryRow.updated, hname]
      · simp [EntryRow.updated, howner]
      · simp [EntryRow.updated, hcreated]
      · simp [EntryRow.updated, hid]

/-- The bodies that leave the action of the row: those that only validate, those
that name no action, and those that name its own. -/
def LeavesAction (D : Conversions) (cfg : Settings) (row : EntryRow) (data : Obj) : Prop :=
  (validateOnly D).sent data = some true ∨
    ∀ action ∈ (ScheduleEntrySerializer.action D cfg).sent data, action = row.action

/-- An accepted update keeps the read-only columns exactly if it leaves the action. -/
theorem keeps_read_only_iff (D : Conversions) (cfg : Settings) (db : Database) (now : ℤ)
    (a : ViewAction) (row row' : EntryRow) (data : Obj) (ha : a.updating = true)
    (h : updateRow D cfg db now a row data = some row') :
    row.KeepsReadOnly row' ↔ LeavesAction D cfg row data := by
  obtain ⟨hname, howner, hrequest, hcreated, hid, haction⟩ := updateRow_some ha h
  have hkeeps : row.KeepsReadOnly row' ↔ row'.action = row.action :=
    ⟨fun hkept => hkept.action, fun hact => ⟨hname, hact, howner, hrequest, hcreated, hid⟩⟩
  rw [hkeeps, haction, LeavesAction]
  split_ifs with honly
  · exact iff_of_true rfl (.inl honly)
  · simp only [honly, false_or]
    cases (ScheduleEntrySerializer.action D cfg).sent data with
    | none => simp
    | some action => simp

/-- Another action is loaded beside the one of the entry. -/
def twoActions : Settings where
  actions := ["acquire", "calibrate"]

theorem keeps_read_only_own :
    everyTenSecondsRow.KeepsReadOnly { everyTenSecondsRow with priority := 3 } ↔
      LeavesAction plainConversions twoActions everyTenSecondsRow
        (((∅ : Obj).insert "action" (.str "acquire")).insert "priority" (.int 3)) :=
  keeps_read_only_iff plainConversions twoActions {} 100 .update everyTenSecondsRow _
    (((∅ : Obj).insert "action" (.str "acquire")).insert "priority" (.int 3)) rfl (by decide +kernel)

theorem patch_changes_action :
    updateRow plainConversions twoActions {} 100 .partialUpdate everyTenSecondsRow
        ((∅ : Obj).insert "action" (.str "calibrate")) =
      some { everyTenSecondsRow with action := "calibrate" } ∧
    ¬ everyTenSecondsRow.KeepsReadOnly { everyTenSecondsRow with action := "calibrate" } := by
  refine ⟨by decide +kernel, fun h => ?_⟩
  exact absurd h.action (by decide)

end ScheduleEntryViewSet

end ScosSensor
