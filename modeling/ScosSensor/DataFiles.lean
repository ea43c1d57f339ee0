import ScosSensor.Runs
import ScosSensor.Results
import Mathlib.Algebra.Order.BigOperators.Group.List

/-!
# Data files of recordings

What a measurement action emits is stored twice: the bytes in a file, encrypted or
not, and a row that names the file and says whether it is encrypted. The handler
writes the file, then the row with the flag still off, then the row again with the
flag set. A row that is deleted takes its file with it. The tables of the rest of
the system are what is left when the files and what a row says of them are dropped.
-/
namespace ScosSensor

abbrev Bytes := List UInt8

/-- The cipher: decryption undoes encryption under one key, and a token is longer
than what is in it. The number is the time and the random part of a token. -/
structure Fernet (Key : Type*) where
  encrypt : Key → ℕ → Bytes → Bytes
  decrypt : Key → Bytes → Option Bytes
  decrypt_encrypt : ∀ key nonce data, decrypt key (encrypt key nonce data) = some data
  length_lt : ∀ key nonce data, data.length < (encrypt key nonce data).length

/-- The storage saves a name at a moment under a path that is not taken. -/
structure FileStorage where
  path : ℤ → String → List String → String
  path_fresh : ∀ now name stored, path now name stored ∉ stored

/-- A cipher that puts one octet before the data. -/
def envelope : Fernet Unit where
  encrypt _ _ data := 128 :: data
  decrypt _ token := token.tail?
  decrypt_encrypt _ _ _ := rfl
  length_lt _ _ data := Nat.lt_succ_self data.length

/-- A storage of one directory, with a name longer than all others for one that is taken. -/
def oneDirectory : FileStorage where
  path _ name stored :=
    if name ∈ stored then String.ofList (List.replicate ((stored.map String.length).sum + 1) '_')
    else name
  path_fresh _ name stored := by
    split_ifs with htaken
    · intro hmem
      have hlength := List.single_le_sum (fun _ _ => Nat.zero_le _) _ (List.mem_map_of_mem (f := String.length) hmem)
      simp at hlength
    · exact htaken

/-- `ENCRYPT_DATA_FILES` and `ENCRYPTION_KEY`. -/
structure EncryptionSettings (Key : Type*) where
  encryptDataFiles : Bool
  encryptionKey : Option Key

/-- What is read of the global part of the metadata. -/
structure Metadata where
  scheduleName : String
  recording : Option ℤ := none
  deriving Repr, DecidableEq

/-- The arguments of a `measurement_action_completed` signal. -/
structure Measurement where
  taskId : ℕ
  metadata : Metadata
  data : Bytes
  deriving Repr, DecidableEq

/-- A row of the acquisitions. -/
structure AcquisitionRow where
  id : ℕ
  taskResult : ℕ
  recordingId : ℤ := 1
  metadata : Metadata
  data : Option String
  dataEncrypted : Bool := false
  deriving Repr, DecidableEq

/-- A file, and with it what the action had emitted, which nothing reads. -/
structure DataFile where
  path : String
  content : Bytes
  emitted : Bytes
  deriving Repr, DecidableEq

structure DataStore where
  schedule : List ScheduleEntry := []
  results : List ResultRow := []
  nextId : ℕ := 1
  acquisitions : List AcquisitionRow := []
  nextAcquisitionId : ℕ := 1
  files : List DataFile := []
  deriving Repr, DecidableEq

/-- Why the handling of a signal raises. -/
inductive MeasurementError where
  | doesNotExist
  | noEncryptionKey
  | databaseError
  deriving Repr, DecidableEq

/-- A signal with the settings and the moment of its handling, and whether the
database refuses the first or the second write of the row. -/
structure MeasurementCall (Key : Type*) where
  signal : Measurement
  settings : EncryptionSettings Key
  now : ℤ := 0
  nonce : ℕ := 0
  firstRefused : Bool := false
  secondRefused : Bool := false

namespace Measurement

/-- The recording id, when it is there and not zero. -/
def recordingId (m : Measurement) : Option ℤ := m.metadata.recording.filter fun id => id ≠ 0

/-- The result that the recording belongs to. -/
def key (m : Measurement) : String × ℕ := (m.metadata.scheduleName, m.taskId)

/-- The recording id of the row, which is 1 when the action gives none. -/
def storedId (m : Measurement) : ℤ := m.recordingId.getD 1

def fileName (m : Measurement) : String :=
  let name := m.metadata.scheduleName ++ "_" ++ toString m.taskId
  let name := match m.recordingId with
    | some id => name ++ "_" ++ toString id
    | none => name
  name ++ ".sigmf-data"

end Measurement

/-- What is written to the file; `none` when the key is missing. -/
def EncryptionSettings.content {Key : Type*} (fernet : Fernet Key) (settings : EncryptionSettings Key) (nonce : ℕ)
    (data : Bytes) : Option Bytes :=
  if settings.encryptDataFiles then
    settings.encryptionKey.map fun key => fernet.encrypt key nonce data
  else some data

def AcquisitionRow.pair (a : AcquisitionRow) : ℕ × ℤ := (a.taskResult, a.recordingId)

namespace DataStore

/-- The tables without the files. -/
def database (s : DataStore) : Database where
  schedule := s.schedule
  results := s.results
  acquisitions := s.acquisitions.map fun a => ⟨a.taskResult, a.recordingId⟩
  nextId := s.nextId

/-- INSERT of a recording, with the constraints checked. -/
def insertAcquisition (s : DataStore) (refused : Bool) (a : AcquisitionRow) :
    Except MeasurementError AcquisitionRow × DataStore :=
  if refused then (.error .databaseError, s)
  else if a.pair ∈ s.acquisitions.map AcquisitionRow.pair then (.error .databaseError, s)
  else if a.taskResult ∉ s.results.map fun r => r.id then (.error .databaseError, s)
  else (.ok a, { s with
    acquisitions := s.acquisitions ++ [a]
    nextAcquisitionId := max s.nextAcquisitionId (a.id + 1) })

/-- `acquisition.save()` of a recording that has been saved before. -/
def saveAcquisition (s : DataStore) (refused : Bool) (a : AcquisitionRow) :
    Except MeasurementError AcquisitionRow × DataStore :=
  if a.id ∈ s.acquisitions.map AcquisitionRow.id then
    if refused then (.error .databaseError, s)
    else (.ok a, { s with
      acquisitions := Table.update AcquisitionRow.id a.id (fun _ => a) s.acquisitions })
  else s.insertAcquisition refused a

def storeFile (s : DataStore) (f : DataFile) : DataStore := { s with files := s.files ++ [f] }

/-- The paths that are taken. -/
def paths (s : DataStore) : List String := s.files.map DataFile.path

/-- The row of a new recording, with the default of its flag. -/
def newAcquisition (s : DataStore) (path : String) (tr : ResultRow) (m : Measurement) :
    AcquisitionRow where
  id := s.nextAcquisitionId
  taskResult := tr.id
  recordingId := m.storedId
  metadata := m.metadata
  data := some path

/-- `acquisition.data.save(name, content)`: the file first, then the row with its path. -/
def saveData (s : DataStore) (path : String) (content : Bytes) (refused : Bool)
    (tr : ResultRow) (m : Measurement) : Except MeasurementError AcquisitionRow × DataStore :=
  (s.storeFile ⟨path, content, m.data⟩).insertAcquisition refused (s.newAcquisition path tr m)

variable {Key : Type*} (fernet : Fernet Key) (storage : FileStorage)

/-- The handler up to the first write of the row. -/
def receive (s : DataStore) (c : MeasurementCall Key) :
    Except MeasurementError AcquisitionRow × DataStore :=
  match s.results.find? fun r => r.key = c.signal.key with
  | none => (.error .doesNotExist, s)
  | some tr =>
    match c.settings.content fernet c.nonce c.signal.data with
    | none => (.error .noEncryptionKey, s)
    | some content =>
      s.saveData (storage.path c.now c.signal.fileName s.paths) content c.firstRefused tr c.signal

/-- `measurement_action_completed_callback`. -/
def measurementActionCompletedCallback (s : DataStore) (c : MeasurementCall Key) :
    Except MeasurementError AcquisitionRow × DataStore :=
  match s.receive fernet storage c with
  | (.error err, s) => (.error err, s)
  | (.ok a, s) =>
    s.saveAcquisition c.secondRefused { a with dataEncrypted := c.settings.encryptDataFiles }

/-- The paths that the recordings of a result name. -/
def pathsOf (s : DataStore) (id : ℕ) : List String :=
  (s.acquisitions.filter fun a => a.taskResult = id).filterMap AcquisitionRow.data

/-- A result is deleted with its recordings, and `clean_up_data` deletes their files. -/
def deleteResult (s : DataStore) (id : ℕ) : DataStore :=
  { s with
    results := s.results.filter fun r => r.id ≠ id
    acquisitions := s.acquisitions.filter fun a => a.taskResult ≠ id
    files := s.files.filter fun f => f.path ∉ s.pathsOf id }

/-- `destroy_all`: every result of the entry is deleted. -/
def destroyAll (s : DataStore) (name : String) : DataStore :=
  (s.database.resultsOf name).foldl (fun s r => s.deleteResult r.id) s

/-- The first half of `TaskResult.save`. -/
def removeOldest (s : DataStore) (maxDiskUsage : ℤ) (percentUsed : ℚ) (name : String)
    (self : Option ℕ) : DataStore :=
  match s.database.oldest? name with
  | none => s
  | some oldest =>
    if some oldest.id ≠ self ∧ s.database.HoldsData oldest ∧ (maxDiskUsage : ℚ) < percentUsed then
      s.deleteResult oldest.id
    else s

/-- `TaskResult.save`. -/
def saveResult (s : DataStore) (maxDiskUsage : ℤ) (percentUsed : ℚ) (self : Option ℕ)
    (tr : TaskResult) : Except Exc ResultRow × DataStore :=
  let s := s.removeOldest maxDiskUsage percentUsed tr.scheduleEntry self
  match s.database.superSave self tr with
  | .ok (row, db) => (.ok row, { s with results := db.results, nextId := db.nextId })
  | .error err => (.error err, s)

/-- A recording with its file. -/
def addRecording (s : DataStore) (f : DataFile) (a : AcquisitionRow) : DataStore :=
  { s with
    files := s.files ++ [f]
    acquisitions := s.acquisitions ++ [a]
    nextAcquisitionId := max s.nextAcquisitionId (a.id + 1) }

variable {fernet storage} {s s' : DataStore} {c : MeasurementCall Key} {tr : ResultRow}
  {a : AcquisitionRow} {f : DataFile} {content : Bytes} {refused : Bool} {name : String} {id : ℕ}
  {maxDiskUsage : ℤ} {percentUsed : ℚ} {self : Option ℕ}

@[simp] theorem acquisitions_storeFile : (s.storeFile f).acquisitions = s.acquisitions := rfl

@[simp] theorem results_storeFile : (s.storeFile f).results = s.results := rfl

@[simp] theorem paths_storeFile : (s.storeFile f).paths = s.paths ++ [f.path] := by
  simp [paths, storeFile]

@[simp] theorem acquisitions_addRecording :
    (s.addRecording f a).acquisitions = s.acquisitions ++ [a] := rfl

@[simp] theorem paths_addRecording : (s.addRecording f a).paths = s.paths ++ [f.path] := by
  simp [paths, addRecording]

@[simp] theorem pair_newAcquisition {path : String} {m : Measurement} :
    (s.newAcquisition path tr m).pair = (tr.id, m.storedId) := rfl

theorem result_mem_of_find? (h : s.results.find? (fun r => r.key = c.signal.key) = some tr) :
    tr ∈ s.results ∧ tr.key = c.signal.key :=
  ⟨List.mem_of_find?_eq_some h, by simpa using List.find?_some h⟩

/-- The first write of a row fails when the database refuses it or holds its pair. -/
theorem receive_of_found (htr : s.results.find? (fun r => r.key = c.signal.key) = some tr)
    (hcontent : c.settings.content fernet c.nonce c.signal.data = some content) :
    let path := storage.path c.now c.signal.fileName s.paths
    let f : DataFile := ⟨path, content, c.signal.data⟩
    let a := s.newAcquisition path tr c.signal
    s.receive fernet storage c =
      if c.firstRefused = true ∨ a.pair ∈ s.acquisitions.map AcquisitionRow.pair then
        (.error .databaseError, s.storeFile f)
      else (.ok a, s.addRecording f a) := by
  have hstored : tr.id ∈ s.results.map fun r => r.id :=
    List.mem_map_of_mem (f := fun r : ResultRow => r.id) (result_mem_of_find? htr).1
  intro path f a
  have hresult : ¬ a.taskResult ∉ s.results.map fun r => r.id := not_not_intro hstored
  have hinsert : s.receive fernet storage c = (s.storeFile f).insertAcquisition c.firstRefused a := by
    simp only [receive, htr, hcontent]
    rfl
  rw [hinsert, insertAcquisition, acquisitions_storeFile, results_storeFile, if_neg hresult]
  cases c.firstRefused with
  | true => simp
  | false =>
    simp only [Bool.false_eq_true, if_false, false_or]
    rfl

/-- A signal without its result or without a key changes nothing. -/
theorem receive_of_not_found (h : s.results.find? (fun r => r.key = c.signal.key) = none ∨
    c.settings.content fernet c.nonce c.signal.data = none) :
    ∃ err, s.receive fernet storage c = (.error err, s) := by
  unfold receive
  cases htr : s.results.find? fun r => r.key = c.signal.key with
  | none => exact ⟨_, rfl⟩
  | some tr =>
    rw [htr] at h
    rw [h.resolve_left (Option.some_ne_none tr)]
    exact ⟨_, rfl⟩

/-- What the handling of a signal does once it has its result and its content. -/
theorem callback_of_found (hfresh : ∀ a ∈ s.acquisitions, a.id < s.nextAcquisitionId)
    (htr : s.results.find? (fun r => r.key = c.signal.key) = some tr)
    (hcontent : c.settings.content fernet c.nonce c.signal.data = some content) :
    let path := storage.path c.now c.signal.fileName s.paths
    let f : DataFile := ⟨path, content, c.signal.data⟩
    let a := s.newAcquisition path tr c.signal
    let flagged := { a with dataEncrypted := c.settings.encryptDataFiles }
    s.measurementActionCompletedCallback fernet storage c =
      if c.firstRefused = true ∨ a.pair ∈ s.acquisitions.map AcquisitionRow.pair then
        (.error .databaseError, s.storeFile f)
      else if c.secondRefused = true then (.error .databaseError, s.addRecording f a)
      else (.ok flagged, s.addRecording f flagged) := by
  intro path f a flagged
  have hreceive : s.receive fernet storage c = _ := receive_of_found htr hcontent
  rw [measurementActionCompletedCallback, hreceive]
  split_ifs with hfirst hsecond
  · rfl
  · have hstored : a.id ∈ (s.acquisitions ++ [a]).map AcquisitionRow.id := by simp
    simp only [saveAcquisition, acquisitions_addRecording, hsecond, if_true]
    rw [if_pos hstored]
  · have hnew : a.id ∉ s.acquisitions.map AcquisitionRow.id := by
      intro hmem
      obtain ⟨b, hb, hid⟩ := List.mem_map.mp hmem
      exact absurd (hfresh b hb) (hid ▸ lt_irrefl s.nextAcquisitionId)
    have hupdate : Table.update AcquisitionRow.id a.id (fun _ => flagged) (s.acquisitions ++ [a]) =
        s.acquisitions ++ [flagged] := Table.update_append_self hnew
    have hstored : a.id ∈ (s.acquisitions ++ [a]).map AcquisitionRow.id := by simp
    simp only [saveAcquisition, acquisitions_addRecording, hsecond, Bool.false_eq_true, if_false]
    rw [if_pos hstored, hupdate]
    rfl

theorem callback_of_not_found (h : s.results.find? (fun r => r.key = c.signal.key) = none ∨
    c.settings.content fernet c.nonce c.signal.data = none) :
    ∃ err, s.measurementActionCompletedCallback fernet storage c = (.error err, s) := by
  have hreceive : ∃ err, s.receive fernet storage c = (.error err, s) := receive_of_not_found h
  obtain ⟨err, hreceive⟩ := hreceive
  exact ⟨err, by rw [measurementActionCompletedCallback, hreceive]⟩

/-- What the handling of a signal comes to: nothing, a file without its row, a row
whose flag was not set, or a recording. -/
theorem callback_cases (fernet : Fernet Key) (storage : FileStorage) (c : MeasurementCall Key)
    (hfresh : ∀ a ∈ s.acquisitions, a.id < s.nextAcquisitionId) :
    (∃ err, s.measurementActionCompletedCallback fernet storage c = (.error err, s) ∧
      (s.results.find? (fun r => r.key = c.signal.key) = none ∨
        c.settings.content fernet c.nonce c.signal.data = none)) ∨
    ∃ tr content, s.results.find? (fun r => r.key = c.signal.key) = some tr ∧
      c.settings.content fernet c.nonce c.signal.data = some content ∧
      let path := storage.path c.now c.signal.fileName s.paths
      let f : DataFile := ⟨path, content, c.signal.data⟩
      let a := s.newAcquisition path tr c.signal
      let flagged := { a with dataEncrypted := c.settings.encryptDataFiles }
      let stored := (tr.id, c.signal.storedId) ∈ s.acquisitions.map AcquisitionRow.pair
      ((c.firstRefused = true ∨ stored) ∧ s.measurementActionCompletedCallback fernet storage c =
          (.error .databaseError, s.storeFile f)) ∨
        (c.firstRefused = false ∧ ¬ stored ∧ c.secondRefused = true ∧
          s.measurementActionCompletedCallback fernet storage c =
            (.error .databaseError, s.addRecording f a)) ∨
        (c.firstRefused = false ∧ ¬ stored ∧ c.secondRefused = false ∧
          s.measurementActionCompletedCallback fernet storage c =
            (.ok flagged, s.addRecording f flagged)) := by
  by_cases hfound : s.results.find? (fun r => r.key = c.signal.key) = none ∨
      c.settings.content fernet c.nonce c.signal.data = none
  · obtain ⟨err, hcallback⟩ := callback_of_not_found hfound
    exact .inl ⟨err, hcallback, hfound⟩
  · obtain ⟨htr, hcontent⟩ := not_or.mp hfound
    obtain ⟨tr, htr⟩ := Option.ne_none_iff_exists'.mp htr
    obtain ⟨content, hcontent⟩ := Option.ne_none_iff_exists'.mp hcontent
    refine .inr ⟨tr, content, htr, hcontent, ?_⟩
    intro path f a flagged stored
    have hcallback : s.measurementActionCompletedCallback fernet storage c =
        if c.firstRefused = true ∨ stored then (.error .databaseError, s.storeFile f)
        else if c.secondRefused = true then (.error .databaseError, s.addRecording f a)
        else (.ok flagged, s.addRecording f flagged) := callback_of_found hfresh htr hcontent
    by_cases hfirst : c.firstRefused = true ∨ stored
    · rw [if_pos hfirst] at hcallback
      exact .inl ⟨hfirst, hcallback⟩
    · rw [if_neg hfirst] at hcallback
      obtain ⟨hrefused, hstored⟩ := not_or.mp hfirst
      rw [Bool.not_eq_true] at hrefused
      cases hsecond : c.secondRefused with
      | true =>
        rw [if_pos hsecond] at hcallback
        exact .inr (.inl ⟨hrefused, hstored, rfl, hcallback⟩)
      | false =>
        rw [hsecond, if_neg Bool.false_ne_true] at hcallback
        exact .inr (.inr ⟨hrefused, hstored, rfl, hcallback⟩)

@[simp] theorem mem_paths_deleteResult {path : String} :
    path ∈ (s.deleteResult id).paths ↔ path ∈ s.paths ∧ path ∉ s.pathsOf id := by
  simp only [paths, deleteResult, List.mem_map, List.mem_filter, decide_eq_true_eq]
  constructor
  · rintro ⟨f, ⟨hf, hkept⟩, rfl⟩
    exact ⟨⟨f, hf, rfl⟩, hkept⟩
  · rintro ⟨⟨f, hf, rfl⟩, hkept⟩
    exact ⟨f, ⟨hf, hkept⟩, rfl⟩

theorem mem_pathsOf {path : String} :
    path ∈ s.pathsOf id ↔ ∃ a ∈ s.acquisitions, a.taskResult = id ∧ a.data = some path := by
  simp [pathsOf, and_assoc]

/-- The disk limit deletes one result or none. -/
theorem removeOldest_cases (s : DataStore) (maxDiskUsage : ℤ) (percentUsed : ℚ) (name : String)
    (self : Option ℕ) :
    s.removeOldest maxDiskUsage percentUsed name self = s ∨
      ∃ id, s.removeOldest maxDiskUsage percentUsed name self = s.deleteResult id := by
  unfold removeOldest
  cases s.database.oldest? name with
  | none => exact .inl rfl
  | some oldest =>
    dsimp only
    split_ifs
    · exact .inr ⟨oldest.id, rfl⟩
    · exact .inl rfl

/-- A save of a result leaves the recordings as the disk limit left them. -/
theorem saveResult_recordings (s : DataStore) (maxDiskUsage : ℤ) (percentUsed : ℚ)
    (self : Option ℕ) (tr : TaskResult) :
    let left := s.removeOldest maxDiskUsage percentUsed tr.scheduleEntry self
    let saved := (s.saveResult maxDiskUsage percentUsed self tr).2
    saved.acquisitions = left.acquisitions ∧ saved.files = left.files ∧
      saved.nextAcquisitionId = left.nextAcquisitionId := by
  simp only [saveResult]
  cases (s.removeOldest maxDiskUsage percentUsed tr.scheduleEntry self).database.superSave self tr with
  | ok out => exact ⟨rfl, rfl, rfl⟩
  | error err => exact ⟨rfl, rfl, rfl⟩

/-! The tables behave as without the files. -/

theorem database_deleteResult (s : DataStore) (id : ℕ) :
    (s.deleteResult id).database = s.database.deleteResult id := by
  simp [database, deleteResult, Database.deleteResult, List.filter_map, Function.comp_def]

theorem database_removeOldest (s : DataStore) (maxDiskUsage : ℤ) (percentUsed : ℚ) (name : String)
    (self : Option ℕ) :
    (s.removeOldest maxDiskUsage percentUsed name self).database =
      s.database.removeOldest maxDiskUsage percentUsed name self := by
  unfold removeOldest Database.removeOldest
  cases s.database.oldest? name with
  | none => rfl
  | some oldest =>
    dsimp only
    split_ifs
    · exact database_deleteResult s oldest.id
    · rfl

theorem database_saveResult (s : DataStore) (maxDiskUsage : ℤ) (percentUsed : ℚ)
    (self : Option ℕ) (tr : TaskResult) :
    (s.saveResult maxDiskUsage percentUsed self tr).1 =
        (s.database.save maxDiskUsage percentUsed self tr).1 ∧
      (s.saveResult maxDiskUsage percentUsed self tr).2.database =
        (s.database.save maxDiskUsage percentUsed self tr).2 := by
  simp only [saveResult, Database.save, ← database_removeOldest]
  cases h : (s.removeOldest maxDiskUsage percentUsed tr.scheduleEntry self).database.superSave self tr with
  | error err => exact ⟨rfl, rfl⟩
  | ok out =>
    obtain ⟨row, db⟩ := out
    have hschedule := Database.superSave_schedule h
    have hacquisitions := Database.superSave_acquisitions h
    refine ⟨rfl, ?_⟩
    simp only [database] at hschedule hacquisitions ⊢
    rw [← hschedule, ← hacquisitions]

/-- Unless the database refuses a write, a signal stores a recording as it is stored
without its file, or nothing. -/
theorem database_callback (hfresh : ∀ a ∈ s.acquisitions, a.id < s.nextAcquisitionId)
    (hfirst : c.firstRefused = false) (hkey : c.settings.content fernet c.nonce c.signal.data ≠ none) :
    (s.measurementActionCompletedCallback fernet storage c).2.database =
      s.database.storeAcquisition c.signal.key c.signal.storedId := by
  cases htr : s.results.find? fun r => r.key = c.signal.key with
  | none =>
    have hcallback : ∃ err, s.measurementActionCompletedCallback fernet storage c = (.error err, s) :=
      callback_of_not_found (.inl htr)
    obtain ⟨err, hcallback⟩ := hcallback
    simp [hcallback, Database.storeAcquisition, database, htr]
  | some tr =>
    obtain ⟨content, hcontent⟩ := Option.ne_none_iff_exists'.mp hkey
    have hcallback : s.measurementActionCompletedCallback fernet storage c = _ :=
      callback_of_found hfresh htr hcontent
    have hpair : (⟨tr.id, c.signal.storedId⟩ : Acquisition) ∈ s.database.acquisitions ↔
        (tr.id, c.signal.storedId) ∈ s.acquisitions.map AcquisitionRow.pair := by
      simp [database, AcquisitionRow.pair]
    have hresults : s.database.results.find? (fun r => r.key = c.signal.key) = some tr := htr
    rw [hcallback, Database.storeAcquisition, hresults]
    simp only [hfirst, Bool.false_eq_true, false_or, hpair, pair_newAcquisition]
    by_cases hstored : (tr.id, c.signal.storedId) ∈ s.acquisitions.map AcquisitionRow.pair
    · rw [if_pos hstored, if_pos hstored]
      rfl
    · rw [if_neg hstored, if_neg hstored]
      split_ifs
      · simp [database, addRecording, newAcquisition]
      · simp [database, addRecording, newAcquisition]

/-- An entry whose first task is running. -/
def firstTask : DataStore where
  schedule := [everyTenSeconds]
  results := [⟨{ scheduleEntry := "sweep", taskId := 1 }, 1⟩]
  nextId := 2

/-- A recording without an id, stored as it is. -/
def plainRecording : MeasurementCall Unit where
  signal := ⟨1, ⟨"sweep", none⟩, [1, 2]⟩
  settings := ⟨false, none⟩

end DataStore

end ScosSensor
