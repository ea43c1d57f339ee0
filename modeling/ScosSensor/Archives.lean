import ScosSensor.OrphanedFiles
import ScosSensor.TextSearch
import Mathlib

/-!
# Archives of recordings

An archive has one recording for each acquisition that is asked for: the file is
read, decrypted when the row says so, and named after the entry, the task and, when
there are several, the recording. What the action emitted comes back, whether it was
stored encrypted or not, and no two recordings of an archive share a name.
-/
namespace ScosSensor

open Runs

/-- A SigMF recording of an archive. -/
structure Recording where
  name : String
  metadata : Metadata
  data : Bytes
  deriving Repr, DecidableEq

namespace DataStore

variable {Key : Type*} (fernet : Fernet Key) (storage : FileStorage)

/-- `acq.data.read()`; a file that is not there raises. -/
def read (s : DataStore) (a : AcquisitionRow) : Option Bytes :=
  a.data.bind fun path => (Table.get? DataFile.path path s.files).map DataFile.content

/-- What goes into the archive for an acquisition; a missing key and a token that does
not decrypt raise. -/
def archivedData (encryptionKey : Option Key) (s : DataStore) (a : AcquisitionRow) : Option Bytes :=
  if a.dataEncrypted then
    encryptionKey.bind fun key => (s.read a).bind fun token => fernet.decrypt key token
  else s.read a

/-- `acq.task_result.task_id`. -/
def taskIdOf (s : DataStore) (a : AcquisitionRow) : Option ℕ :=
  (Table.get? (fun r : ResultRow => r.id) a.taskResult s.results).map fun r => r.taskId

def recordingName (entryName : String) (multirecording : Bool) (taskId : ℕ) (recordingId : ℤ) :
    String :=
  let name := entryName ++ "_" ++ toString taskId
  if multirecording then name ++ "-" ++ toString recordingId else name

/-- One turn of the loop of `build_sigmf_archive`. -/
def archiveAcquisition (encryptionKey : Option Key) (s : DataStore) (entryName : String)
    (multirecording : Bool) (a : AcquisitionRow) : Option Recording :=
  (s.archivedData fernet encryptionKey a).bind fun data =>
    (s.taskIdOf a).map fun taskId =>
      ⟨recordingName entryName multirecording taskId a.recordingId, a.metadata, data⟩

/-- `build_sigmf_archive`; `none` is an exception. -/
def buildSigmfArchive (encryptionKey : Option Key) (s : DataStore) (entryName : String)
    (acquisitions : List AcquisitionRow) : Option (List Recording) :=
  acquisitions.mapM (s.archiveAcquisition fernet encryptionKey entryName (1 < acquisitions.length))

/-- The acquisitions of all results of an entry. -/
def entryAcquisitions (s : DataStore) (entryName : String) : List AcquisitionRow :=
  s.acquisitions.filter fun a => s.results.any fun r => r.scheduleEntry = entryName && r.id == a.taskResult

/-- The acquisitions of one result. -/
def resultAcquisitions (s : DataStore) (entryName : String) (taskId : ℕ) : List AcquisitionRow :=
  s.acquisitions.filter fun a => s.results.any fun r => r.key = (entryName, taskId) && r.id == a.taskResult

/-- A signal is handled under the one key, and without a refusal of the write that names
the file; a result is saved under the entry and task id of its row. -/
def Regular (key : Key) (s : DataStore) : FileOp Key → Prop
  | .signal c => c.settings.encryptionKey = some key ∧ c.secondRefused = false
  | .saveResult _ _ self tr => ∀ id, self = some id → ∀ r ∈ s.results, r.id = id → r.key = tr.key
  | _ => True

/-- The result and the recording id that a measurement is stored under. -/
def slot (m : Measurement) : (String × ℕ) × ℤ := (m.key, m.storedId)

/-- The measurements that a run brings. -/
def measurements (ops : List (FileOp Key)) : List Measurement :=
  ops.filterMap fun
    | .signal c => some c.signal
    | _ => none

/-- The file of a row holds what one of the measurements emitted for its result and
recording id, encrypted when the flag says so. -/
def Holds (key : Key) (emitted : List Measurement) (s : DataStore) (a : AcquisitionRow) : Prop :=
  ∃ m ∈ emitted, (∃ r ∈ s.results, r.id = a.taskResult ∧ r.key = m.key) ∧ a.recordingId = m.storedId ∧
    ∃ f ∈ s.files, a.data = some f.path ∧
      if a.dataEncrypted then ∃ nonce, f.content = fernet.encrypt key nonce m.data
      else f.content = m.data

/-- What the tables and the files keep in a run of measurements. -/
structure Archivable (key : Key) (emitted : List Measurement) (s : DataStore) : Prop where
  tidy : s.Tidy
  paths : s.paths.Nodup
  ids : (s.results.map fun r => r.id).Nodup
  keys : (s.results.map fun r => r.key).Nodup
  recent : ∀ r ∈ s.results, r.id < s.nextId
  pairs : (s.acquisitions.map AcquisitionRow.pair).Nodup
  holds : ∀ a ∈ s.acquisitions, Holds fernet key emitted s a

variable {fernet storage} {s s' t : DataStore} {a b : AcquisitionRow} {id : ℕ} {key : Key}
  {emitted : List Measurement} {c : MeasurementCall Key} {f : DataFile} {op : FileOp Key}
  {entryName : String}

theorem Holds.named (h : Holds fernet key emitted s a) : ∃ path ∈ s.paths, a.data = some path := by
  obtain ⟨m, -, -, -, f, hf, hdata, -⟩ := h
  exact ⟨f.path, List.mem_map_of_mem hf, hdata⟩

/-- What holds a measurement keeps it while its result and its file stay. -/
theorem Holds.mono (h : Holds fernet key emitted s a)
    (hresults : ∀ r ∈ s.results, r.id = a.taskResult → ∃ r' ∈ s'.results, r'.id = r.id ∧ r'.key = r.key)
    (hfiles : ∀ f ∈ s.files, a.data = some f.path → f ∈ s'.files) :
    Holds fernet key emitted s' a := by
  obtain ⟨m, hm, ⟨r, hr, hid, hkey⟩, hrecording, f, hf, hdata, hcontent⟩ := h
  obtain ⟨r', hr', hid', hkey'⟩ := hresults r hr hid
  exact ⟨m, hm, ⟨r', hr', hid'.trans hid, hkey'.trans hkey⟩, hrecording, f, hfiles f hf hdata, hdata,
    hcontent⟩

theorem Archivable.deleteResult (h : Archivable fernet key emitted s) (id : ℕ) :
    Archivable fernet key emitted (s.deleteResult id) where
  tidy := h.tidy.deleteResult id
  paths := h.paths.sublist (List.filter_sublist.map _)
  ids := h.ids.sublist (List.filter_sublist.map _)
  keys := h.keys.sublist (List.filter_sublist.map _)
  recent r hr := h.recent r (List.mem_of_mem_filter hr)
  pairs := h.pairs.sublist (List.filter_sublist.map _)
  holds a ha := by
    obtain ⟨ha, hid⟩ := List.mem_filter.mp ha
    have hid : a.taskResult ≠ id := by simpa using hid
    refine (h.holds a ha).mono ?_ ?_
    · intro r hr hrid
      refine ⟨r, List.mem_filter.mpr ⟨hr, ?_⟩, rfl, rfl⟩
      simpa [hrid] using hid
    · intro f hf hdata
      refine List.mem_filter.mpr ⟨hf, ?_⟩
      simp only [decide_eq_true_eq, mem_pathsOf]
      rintro ⟨b, hb, hbid, hbdata⟩
      exact hid (h.tidy.paths a ha b hb f.path hdata hbdata ▸ hbid)

theorem Archivable.deleteResults (h : Archivable fernet key emitted s) (rows : List ResultRow) :
    Archivable fernet key emitted (rows.foldl (fun s r => s.deleteResult r.id) s) := by
  induction rows generalizing s with
  | nil => exact h
  | cons r rows ih => exact ih (h.deleteResult r.id)

/-- An UPDATE leaves the id and the key of its row. -/
theorem Archivable.updateRow (h : Archivable fernet key emitted s) {row : ResultRow}
    (hsame : ∀ r ∈ s.results, r.id = row.id → row.key = r.key) :
    Archivable fernet key emitted { s with
      results := Table.update (fun r : ResultRow => r.id) row.id (fun _ => row) s.results } := by
  have hmem {r : ResultRow} :
      r ∈ Table.update (fun r : ResultRow => r.id) row.id (fun _ => row) s.results ↔
        (r ∈ s.results ∧ r.id ≠ row.id) ∨ ∃ r' ∈ s.results, r'.id = row.id ∧ row = r :=
    Table.mem_update
  refine ⟨⟨h.tidy.fresh, h.tidy.paths⟩, h.paths, ?_, ?_, ?_, h.pairs, ?_⟩
  · rw [Table.keys_update fun _ _ => rfl]
    exact h.ids
  · rw [Table.map_update hsame]
    exact h.keys
  · intro r hr
    rcases hmem.mp hr with ⟨hr, -⟩ | ⟨r', hr', hid, rfl⟩
    · exact h.recent r hr
    · exact hid ▸ h.recent r' hr'
  · intro a ha
    refine (h.holds a ha).mono (fun r hr _ => ?_) fun f hf _ => hf
    by_cases hid : r.id = row.id
    · exact ⟨row, hmem.mpr (.inr ⟨r, hr, hid, rfl⟩), hid.symm, hsame r hr hid⟩
    · exact ⟨r, hmem.mpr (.inl ⟨hr, hid⟩), rfl, rfl⟩

/-- An INSERT has a new id and a new key. -/
theorem Archivable.insertRow (h : Archivable fernet key emitted s) {row : ResultRow}
    (hid : row.id ∉ s.results.map fun r => r.id) (hkey : row.key ∉ s.results.map fun r => r.key) :
    Archivable fernet key emitted { s with
      results := s.results ++ [row], nextId := max s.nextId (row.id + 1) } := by
  refine ⟨⟨h.tidy.fresh, h.tidy.paths⟩, h.paths, Table.nodup_append_row h.ids hid,
    Table.nodup_append_row h.keys hkey, ?_, h.pairs, ?_⟩
  · intro r hr
    rcases List.mem_append.mp hr with hr | hr
    · exact (h.recent r hr).trans_le (le_max_left _ _)
    · obtain rfl := List.mem_singleton.mp hr
      exact (Nat.lt_succ_self r.id).trans_le (le_max_right _ _)
  · intro a ha
    refine (h.holds a ha).mono (fun r hr _ => ⟨r, ?_, rfl, rfl⟩) fun f hf _ => hf
    exact List.mem_append_left _ hr

/-- A result that is saved under the key of its row, or inserted, keeps its recordings. -/
theorem Archivable.saveResult (h : Archivable fernet key emitted s) {maxDiskUsage : ℤ}
    {percentUsed : ℚ} {self : Option ℕ} {tr : TaskResult}
    (hown : ∀ id, self = some id → ∀ r ∈ s.results, r.id = id → r.key = tr.key) :
    Archivable fernet key emitted (s.saveResult maxDiskUsage percentUsed self tr).2 := by
  obtain ⟨hleft, hsub⟩ : Archivable fernet key emitted
        (s.removeOldest maxDiskUsage percentUsed tr.scheduleEntry self) ∧
      (s.removeOldest maxDiskUsage percentUsed tr.scheduleEntry self).results ⊆ s.results := by
    obtain hsame | ⟨id, hdelete⟩ := removeOldest_cases s maxDiskUsage percentUsed tr.scheduleEntry self
    · rw [hsame]
      exact ⟨h, fun _ hr => hr⟩
    · rw [hdelete]
      exact ⟨h.deleteResult id, fun _ hr => List.mem_of_mem_filter hr⟩
  unfold DataStore.saveResult
  generalize s.removeOldest maxDiskUsage percentUsed tr.scheduleEntry self = left at hleft hsub
  cases hsave : left.database.superSave self tr with
  | error err => simpa [hsave] using hleft
  | ok out =>
    obtain ⟨row, db⟩ := out
    have hkey : row.key = tr.key := Database.superSave_key hsave
    simp only [hsave]
    obtain ⟨hself, -, -, rfl⟩ | ⟨hself, hinsert⟩ := Database.superSave_ok hsave
    · apply hleft.updateRow
      intro r hr hid
      exact hkey.trans (hown row.id hself r (hsub hr) hid).symm
    · obtain ⟨hrow, hunused, -, rfl⟩ := Database.insertRow_ok hinsert
      rw [← hrow]
      refine hleft.insertRow ?_ (hkey ▸ hunused)
      rcases hself with ⟨-, hid⟩ | ⟨-, hid⟩
      · intro hmem
        obtain ⟨r, hr, hrid⟩ := List.mem_map.mp hmem
        have hrecent := hleft.recent r hr
        have hid : row.id = left.nextId := hid
        omega
      · exact hid

/-- A recording with its file holds its measurement. -/
theorem Archivable.addRecording (h : Archivable fernet key emitted s) (hdata : a.data = some f.path)
    (hnew : f.path ∉ s.paths) (hpair : a.pair ∉ s.acquisitions.map AcquisitionRow.pair)
    (hholds : Holds fernet key emitted (s.addRecording f a) a) :
    Archivable fernet key emitted (s.addRecording f a) where
  tidy := by
    refine h.tidy.addRecording hdata fun b hb hbdata => ?_
    obtain ⟨path, hpath, hbpath⟩ := (h.holds b hb).named
    rw [hbdata, Option.some.injEq] at hbpath
    exact hnew (hbpath ▸ hpath)
  paths := by
    rw [paths_addRecording]
    exact h.paths.append (List.nodup_singleton _) (List.disjoint_singleton.mpr hnew)
  ids := h.ids
  keys := h.keys
  recent := h.recent
  pairs := Table.nodup_append_row h.pairs hpair
  holds b hb := by
    rcases List.mem_append.mp hb with hb | hb
    · exact (h.holds b hb).mono (fun r hr _ => ⟨r, hr, rfl, rfl⟩) fun f hf _ => List.mem_append_left _ hf
    · rwa [List.mem_singleton.mp hb]

theorem Archivable.storeFile (h : Archivable fernet key emitted s) (hnew : f.path ∉ s.paths) :
    Archivable fernet key emitted (s.storeFile f) where
  tidy := ⟨h.tidy.fresh, h.tidy.paths⟩
  paths := by
    rw [paths_storeFile]
    exact h.paths.append (List.nodup_singleton _) (List.disjoint_singleton.mpr hnew)
  ids := h.ids
  keys := h.keys
  recent := h.recent
  pairs := h.pairs
  holds b hb := by
    exact (h.holds b hb).mono (fun r hr _ => ⟨r, hr, rfl, rfl⟩) fun f hf _ => List.mem_append_left _ hf

theorem Archivable.signal (h : Archivable fernet key emitted s) (hregular : Regular key s (.signal c))
    (hemitted : c.signal ∈ emitted) :
    Archivable fernet key emitted (s.measurementActionCompletedCallback fernet storage c).2 := by
  obtain ⟨hkey, hsecond⟩ := hregular
  have hnew : storage.path c.now c.signal.fileName s.paths ∉ s.paths := storage.path_fresh _ _ _
  obtain ⟨err, hcallback, -⟩ | ⟨tr, content, htr, hcontent, ⟨-, hcallback⟩ |
    ⟨-, -, hrefused, -⟩ | ⟨-, hstored, -, hcallback⟩⟩ := callback_cases fernet storage c h.tidy.fresh
  · rwa [hcallback]
  · rw [hcallback]
    exact h.storeFile hnew
  · rw [hsecond] at hrefused
    cases hrefused
  · rw [hcallback]
    obtain ⟨hmem, htrkey⟩ := result_mem_of_find? htr
    refine h.addRecording rfl hnew hstored ?_
    refine ⟨c.signal, hemitted, ⟨tr, hmem, rfl, htrkey⟩, rfl, _,
      List.mem_append_right _ (List.mem_singleton_self _), rfl, ?_⟩
    unfold EncryptionSettings.content at hcontent
    dsimp only
    split_ifs at hcontent ⊢ with hencrypt
    · rw [hkey, Option.map_some, Option.some.injEq] at hcontent
      exact ⟨c.nonce, hcontent.symm⟩
    · exact (Option.some.inj hcontent).symm

theorem Archivable.step (h : Archivable fernet key emitted s)
    (hregular : Regular key s op ∧ ∀ c, op = .signal c → c.signal ∈ emitted)
    (hstep : s.fileStep fernet storage op = some s') : Archivable fernet key emitted s' := by
  cases op with
  | signal c =>
    rw [← Option.some.inj hstep]
    exact h.signal hregular.1 (hregular.2 c rfl)
  | deleteResult id =>
    rw [← Option.some.inj hstep]
    exact h.deleteResult id
  | destroyAll name =>
    rw [← Option.some.inj hstep]
    exact h.deleteResults _
  | saveResult maxDiskUsage percentUsed self tr =>
    rw [← Option.some.inj hstep]
    exact h.saveResult hregular.1

/-- A recording of an archive is read back as it was emitted. -/
theorem archiveAcquisition_eq (h : Archivable fernet key emitted s) (ha : a ∈ s.acquisitions)
    (entryName : String) (multirecording : Bool) :
    ∃ m ∈ emitted, (∃ r ∈ s.results, r.id = a.taskResult ∧ r.key = m.key) ∧ a.recordingId = m.storedId ∧
      s.archiveAcquisition fernet (some key) entryName multirecording a =
        some ⟨recordingName entryName multirecording m.taskId m.storedId, a.metadata, m.data⟩ := by
  obtain ⟨m, hm, ⟨r, hr, hid, hkey⟩, hrecording, f, hf, hdata, hcontent⟩ := h.holds a ha
  refine ⟨m, hm, ⟨r, hr, hid, hkey⟩, hrecording, ?_⟩
  have hfile : Table.get? DataFile.path f.path s.files = some f := Table.get?_of_mem h.paths hf
  have hread : s.read a = some f.content := by
    rw [read, hdata, Option.bind_some, hfile, Option.map_some]
  have hresult : Table.get? (fun r : ResultRow => r.id) r.id s.results = some r :=
    Table.get?_of_mem h.ids hr
  have htask : s.taskIdOf a = some m.taskId := by
    rw [taskIdOf, ← hid, hresult, Option.map_some, Option.some.injEq]
    exact (Prod.mk.inj hkey).2
  have harchived : s.archivedData fernet (some key) a = some m.data := by
    unfold archivedData
    split_ifs at hcontent ⊢
    · obtain ⟨nonce, hcontent⟩ := hcontent
      rw [hread, Option.bind_some, Option.bind_some, hcontent, fernet.decrypt_encrypt]
    · rw [hread, hcontent]
  rw [archiveAcquisition, harchived, Option.bind_some, htask, Option.map_some, hrecording]

/-- A name tells the task and the recording: no hyphen is in a task id. -/
theorem recordingName_inj {taskId taskId' : ℕ} {recordingId recordingId' : ℤ}
    (h : recordingName entryName true taskId recordingId =
      recordingName entryName true taskId' recordingId') :
    taskId = taskId' ∧ recordingId = recordingId' := by
  have hdigits (n : ℕ) : '-' ∉ (toString n).toList := by
    have htext : (toString n).toList = Nat.toDigits 10 n := by simp
    rw [htext]
    intro hmem
    have hdigit : ('-').isDigit = true := Nat.isDigit_of_mem_toDigits (by decide : 0 < 10) le_rfl hmem
    exact absurd hdigit (by decide)
  have hchars := congrArg String.toList h
  simp only [recordingName, if_true, String.toList_append, List.append_assoc,
    List.append_cancel_left_eq] at hchars
  have hsplit := (TextSearch.append_cons_inj (hdigits taskId) (hdigits taskId')).mp hchars
  exact ⟨Nat.repr_injective (String.toList_inj.mp hsplit.1),
    Int.repr_injective (String.toList_inj.mp hsplit.2)⟩

/-- A loop whose turns all come to a result comes to their results. -/
theorem mapM_eq_some_map {α β : Type} {g : α → Option β} {value : α → β} {l : List α}
    (h : ∀ a ∈ l, g a = some (value a)) : l.mapM g = some (l.map value) := by
  induction l with
  | nil => rfl
  | cons a l ih =>
    have htail := ih fun b hb => h b (List.mem_cons_of_mem a hb)
    rw [List.mapM_cons, h a List.mem_cons_self, htail]
    rfl

/-- Acquisitions that are stored, each once, make an archive of what was emitted, under
names that differ. -/
theorem buildSigmfArchive_eq (h : Archivable fernet key emitted s) {acquisitions : List AcquisitionRow}
    (hsub : acquisitions ⊆ s.acquisitions) (hnodup : acquisitions.Nodup)
    (hentry : ∀ a ∈ acquisitions, ∃ r ∈ s.results, r.id = a.taskResult ∧ r.scheduleEntry = entryName) :
    ∃ recordings,
      buildSigmfArchive fernet (some key) s entryName acquisitions = some recordings ∧
      (recordings.map Recording.name).Nodup ∧
      List.Forall₂ (fun a r => ∃ m ∈ emitted, m.metadata.scheduleName = entryName ∧
        s.taskIdOf a = some m.taskId ∧ a.recordingId = m.storedId ∧ r.data = m.data)
        acquisitions recordings := by
  have heach : ∀ a : AcquisitionRow, a ∈ acquisitions → _ := fun a ha =>
    archiveAcquisition_eq h (hsub ha) entryName (1 < acquisitions.length)
  have : Nonempty Measurement := ⟨⟨0, ⟨"", none⟩, []⟩⟩
  choose! m hemitted hresult hrecording harchive using heach
  have hkey : ∀ a ∈ acquisitions, ∃ r ∈ s.results, r.id = a.taskResult ∧
      r.key = (entryName, (m a).taskId) ∧ (m a).metadata.scheduleName = entryName := by
    intro a ha
    obtain ⟨r, hr, hid, hrkey⟩ := hresult a ha
    obtain ⟨r', hr', hid', hname⟩ := hentry a ha
    obtain rfl := Table.eq_of_key_eq h.ids hr hr' (hid.trans hid'.symm)
    obtain ⟨hschedule, htask⟩ := Prod.mk.inj hrkey
    exact ⟨r, hr, hid, Prod.ext hname htask, hschedule.symm.trans hname⟩
  refine ⟨_, mapM_eq_some_map harchive, ?_, ?_⟩
  · rw [List.map_map]
    apply List.Nodup.map_on _ hnodup
    intro a ha b hb hname
    by_contra hne
    -- with two of them the names carry the recording ids
    have hmulti : decide (1 < acquisitions.length) = true := by
      rw [decide_eq_true_iff]
      match acquisitions with
      | [] => cases ha
      | [c] => exact absurd ((List.mem_singleton.mp ha).trans (List.mem_singleton.mp hb).symm) hne
      | _ :: _ :: _ => simp
    simp only [Function.comp_apply, hmulti] at hname
    obtain ⟨htask, hrecordings⟩ := recordingName_inj hname
    obtain ⟨r, hr, hid, hrkey, -⟩ := hkey a ha
    obtain ⟨r', hr', hid', hrkey', -⟩ := hkey b hb
    have hsame : r = r' := Table.eq_of_key_eq h.keys hr hr' (by rw [hrkey, hrkey', htask])
    have hpair : a.pair = b.pair := by
      rw [AcquisitionRow.pair, AcquisitionRow.pair, ← hid, ← hid', hsame, hrecording a ha,
        hrecording b hb, hrecordings]
    exact hne (Table.eq_of_key_eq h.pairs (hsub ha) (hsub hb) hpair)
  · rw [List.forall₂_map_right_iff, List.forall₂_same]
    intro a ha
    obtain ⟨r, hr, hid, hrkey, hschedule⟩ := hkey a ha
    have hfound : Table.get? (fun r : ResultRow => r.id) r.id s.results = some r :=
      Table.get?_of_mem h.ids hr
    refine ⟨m a, hemitted a ha, hschedule, ?_, hrecording a ha, rfl⟩
    rw [taskIdOf, ← hid, hfound, Option.map_some, Option.some.injEq]
    exact (Prod.mk.inj hrkey).2

theorem mem_entryAcquisitions : a ∈ s.entryAcquisitions entryName ↔
    a ∈ s.acquisitions ∧ ∃ r ∈ s.results, r.id = a.taskResult ∧ r.scheduleEntry = entryName := by
  simp only [entryAcquisitions, List.mem_filter, List.any_eq_true, Bool.and_eq_true,
    decide_eq_true_eq, beq_iff_eq, and_comm]

/-- The acquisitions of a result are some of those of its entry. -/
theorem resultAcquisitions_sublist (s : DataStore) (entryName : String) (taskId : ℕ) :
    (s.resultAcquisitions entryName taskId).Sublist (s.entryAcquisitions entryName) := by
  apply List.monotone_filter_right
  intro a ha
  obtain ⟨r, hr, hmatch⟩ := List.any_eq_true.mp ha
  simp only [Bool.and_eq_true, decide_eq_true_eq] at hmatch
  refine List.any_eq_true.mpr ⟨r, hr, ?_⟩
  rw [hmatch.2, Bool.and_true, decide_eq_true_eq]
  exact (Prod.mk.inj hmatch.1).1

/-- What was emitted comes back: after a run of measurements under one key, the archive
of a result and that of an entry have one recording for each acquisition, the names of
the recordings differ, and the data of each is what was emitted for its task and
recording id. -/
theorem archives_round_trip {ops : List (FileOp Key)} (hacquisitions : s.acquisitions = [])
    (hfiles : s.files = []) (hids : (s.results.map fun r => r.id).Nodup)
    (hkeys : (s.results.map fun r => r.key).Nodup) (hrecent : ∀ r ∈ s.results, r.id < s.nextId)
    (hslots : ((measurements ops).map slot).Nodup)
    (hregular : Along (fileStep fernet storage) (Regular key) s ops)
    (hrun : exec (fileStep fernet storage) s ops = some t) {acquisitions : List AcquisitionRow}
    (hqueryset : acquisitions.Perm (t.entryAcquisitions entryName) ∨
      ∃ taskId, acquisitions.Perm (t.resultAcquisitions entryName taskId)) :
    ∃ recordings, buildSigmfArchive fernet (some key) t entryName acquisitions = some recordings ∧
      recordings.length = acquisitions.length ∧ (recordings.map Recording.name).Nodup ∧
      List.Forall₂ (fun a r => ∃ m ∈ measurements ops, m.metadata.scheduleName = entryName ∧
          t.taskIdOf a = some m.taskId ∧ a.recordingId = m.storedId ∧ r.data = m.data ∧
          ∀ m' ∈ measurements ops, slot m' = slot m → m' = m)
        acquisitions recordings := by
  have hstart : Archivable fernet key (measurements ops) s := by
    refine ⟨⟨?_, ?_⟩, ?_, hids, hkeys, hrecent, ?_, ?_⟩ <;> simp [hacquisitions, hfiles, paths]
  have hmeasured : Along (fileStep fernet storage)
      (fun _ op => ∀ c, op = .signal c → c.signal ∈ measurements ops) s ops := by
    apply Along.of_forall_mem
    rintro op hop - c rfl
    exact List.mem_filterMap.mpr ⟨_, hop, rfl⟩
  have hend : Archivable fernet key (measurements ops) t :=
    exec_invariant (fun _ _ _ h hok hstep => h.step hok hstep) hstart (hregular.and hmeasured) hrun
  have hnodup : t.acquisitions.Nodup := List.Nodup.of_map _ hend.pairs
  obtain ⟨chosen, hchosen, hperm⟩ : ∃ chosen, chosen.Sublist (t.entryAcquisitions entryName) ∧
      acquisitions.Perm chosen := by
    rcases hqueryset with hperm | ⟨taskId, hperm⟩
    · exact ⟨_, .refl _, hperm⟩
    · exact ⟨_, resultAcquisitions_sublist t entryName taskId, hperm⟩
  have hdistinct : acquisitions.Nodup := hperm.nodup_iff.mpr ((hnodup.filter _).sublist hchosen)
  have hmem : ∀ a ∈ acquisitions, a ∈ t.entryAcquisitions entryName := fun a ha =>
    hchosen.subset (hperm.subset ha)
  have hsub : acquisitions ⊆ t.acquisitions := fun a ha => (mem_entryAcquisitions.mp (hmem a ha)).1
  have hentry := fun a ha => (mem_entryAcquisitions.mp (hmem a ha)).2
  obtain ⟨recordings, hbuild, hnames, hdata⟩ := buildSigmfArchive_eq hend hsub hdistinct hentry
  refine ⟨recordings, hbuild, hdata.length_eq.symm, hnames, hdata.imp ?_⟩
  rintro a r ⟨m, hm, hname, htask, hrecording, hrdata⟩
  exact ⟨m, hm, hname, htask, hrecording, hrdata, fun m' hm' hslot =>
    List.inj_on_of_nodup_map hslots hm' hm hslot⟩

/-- One of two recordings of the first task, the first stored as it is and the second
encrypted. -/
def recordingOfTwo (recordingId : ℤ) (encrypt : Bool) : FileOp Unit :=
  .signal { signal := ⟨1, ⟨"sweep", some recordingId⟩, [1, 2]⟩, settings := ⟨encrypt, some ()⟩ }

theorem archives_round_trip_two :
    ∃ t, exec (fileStep envelope oneDirectory) firstTask
        [recordingOfTwo 1 false, recordingOfTwo 2 true] = some t ∧
      ∃ recordings,
        buildSigmfArchive envelope (some ()) t "sweep" (t.entryAcquisitions "sweep") = some recordings ∧
        recordings.length = 2 ∧ (recordings.map Recording.name).Nodup := by
  refine ⟨_, rfl, ?_⟩
  have hregular : Along (fileStep envelope oneDirectory) (Regular ()) firstTask
      [recordingOfTwo 1 false, recordingOfTwo 2 true] :=
    ⟨⟨rfl, rfl⟩, fun _ _ => ⟨⟨rfl, rfl⟩, fun _ _ => trivial⟩⟩
  obtain ⟨recordings, hbuild, hlength, hnames, -⟩ :=
    archives_round_trip rfl rfl (by decide) (by decide) (by decide) (by decide) hregular rfl
      (.inl (List.Perm.refl _))
  exact ⟨recordings, hbuild, hlength, hnames⟩

end DataStore

end ScosSensor
