import ScosSensor.DataFiles

/-!
# Orphaned data files

The handler of a recording writes the file before the row, and nothing takes the file
back when the row is refused. So a file without a row is left by exactly the signals
that come to the storage and are then refused by the database: the recording exists
already, or the first write fails. When the second write fails, the row of the first
stays although the handling raises.
-/
namespace ScosSensor

open Runs

namespace DataStore

/-- What happens to recordings and results: a signal, a DELETE of one result or of all
of an entry, and a save of a result. -/
inductive FileOp (Key : Type*) where
  | signal (c : MeasurementCall Key)
  | deleteResult (id : ℕ)
  | destroyAll (name : String)
  | saveResult (maxDiskUsage : ℤ) (percentUsed : ℚ) (self : Option ℕ) (tr : TaskResult)

variable {Key : Type*} (fernet : Fernet Key) (storage : FileStorage)

def fileStep (s : DataStore) : FileOp Key → Option DataStore
  | .signal c => some (s.measurementActionCompletedCallback fernet storage c).2
  | .deleteResult id => some (s.deleteResult id)
  | .destroyAll name => some (s.destroyAll name)
  | .saveResult maxDiskUsage percentUsed self tr =>
    some (s.saveResult maxDiskUsage percentUsed self tr).2

/-- The files on disk are those that the rows name. -/
def FilesMatch (s : DataStore) : Prop :=
  ∀ path, path ∈ s.paths ↔ ∃ a ∈ s.acquisitions, a.data = some path

/-- A signal whose handling raises leaves the rows and the files as they were. -/
def RaisingLeaves (s : DataStore) : FileOp Key → Prop
  | .signal c => ∀ err, (s.measurementActionCompletedCallback fernet storage c).1 = .error err →
      (s.measurementActionCompletedCallback fernet storage c).2 = s
  | _ => True

/-- The condition on a signal that comes to the storage: its recording is not stored
yet, and the database refuses none of the two writes. -/
def Accepted (s : DataStore) : FileOp Key → Prop
  | .signal c => ∀ tr, s.results.find? (fun r => r.key = c.signal.key) = some tr →
      c.settings.content fernet c.nonce c.signal.data ≠ none →
      (tr.id, c.signal.storedId) ∉ s.acquisitions.map AcquisitionRow.pair ∧
        c.firstRefused = false ∧ c.secondRefused = false
  | _ => True

instance (s : DataStore) : (op : FileOp Key) → Decidable (Accepted fernet s op)
  | .signal c => inferInstanceAs <| Decidable (∀ tr ∈ s.results.find? fun r => r.key = c.signal.key,
      c.settings.content fernet c.nonce c.signal.data ≠ none →
      (tr.id, c.signal.storedId) ∉ s.acquisitions.map AcquisitionRow.pair ∧
        c.firstRefused = false ∧ c.secondRefused = false)
  | .deleteResult _ | .destroyAll _ | .saveResult .. => .isTrue trivial

/-- Row ids come from the counter, and no two rows name one file. -/
structure Tidy (s : DataStore) : Prop where
  fresh : ∀ a ∈ s.acquisitions, a.id < s.nextAcquisitionId
  paths : ∀ a ∈ s.acquisitions, ∀ b ∈ s.acquisitions, ∀ path,
    a.data = some path → b.data = some path → a = b

variable {fernet storage} {s s' : DataStore} {op : FileOp Key} {id : ℕ} {name : String}
  {f : DataFile} {a : AcquisitionRow} {c : MeasurementCall Key}

theorem Tidy.deleteResult (h : s.Tidy) (id : ℕ) : (s.deleteResult id).Tidy where
  fresh a ha := h.fresh a (List.mem_of_mem_filter ha)
  paths a ha b hb := h.paths a (List.mem_of_mem_filter ha) b (List.mem_of_mem_filter hb)

/-- A result takes with it the files that no other row names. -/
theorem FilesMatch.deleteResult (h : s.FilesMatch) (htidy : s.Tidy) (id : ℕ) :
    (s.deleteResult id).FilesMatch := by
  intro path
  rw [mem_paths_deleteResult, h path, mem_pathsOf]
  simp only [DataStore.deleteResult, List.mem_filter, decide_eq_true_eq]
  constructor
  · rintro ⟨⟨a, ha, hpath⟩, hnot⟩
    refine ⟨a, ⟨ha, fun hid => hnot ⟨a, ha, hid, hpath⟩⟩, hpath⟩
  · rintro ⟨a, ⟨ha, hid⟩, hpath⟩
    refine ⟨⟨a, ha, hpath⟩, ?_⟩
    rintro ⟨b, hb, hbid, hbpath⟩
    exact hid (htidy.paths a ha b hb path hpath hbpath ▸ hbid)

/-- Deleting results one after the other. -/
theorem foldl_deleteResult (rows : List ResultRow) (hmatch : s.FilesMatch) (htidy : s.Tidy) :
    (rows.foldl (fun s r => s.deleteResult r.id) s).FilesMatch ∧
      (rows.foldl (fun s r => s.deleteResult r.id) s).Tidy := by
  induction rows generalizing s with
  | nil => exact ⟨hmatch, htidy⟩
  | cons r rows ih => exact ih (hmatch.deleteResult htidy r.id) (htidy.deleteResult r.id)

/-- A new recording comes with its file. -/
theorem FilesMatch.addRecording (h : s.FilesMatch) (hpath : a.data = some f.path) :
    (s.addRecording f a).FilesMatch := by
  intro path
  rw [paths_addRecording, acquisitions_addRecording, List.mem_append, h path]
  constructor
  · rintro (⟨b, hb, hdata⟩ | hnew)
    · exact ⟨b, List.mem_append_left _ hb, hdata⟩
    · rw [List.mem_singleton.mp hnew]
      exact ⟨a, by simp, hpath⟩
  · rintro ⟨b, hb, hdata⟩
    rcases List.mem_append.mp hb with hb | hb
    · exact .inl ⟨b, hb, hdata⟩
    · rw [List.mem_singleton.mp hb, hpath] at hdata
      exact .inr (by simp [Option.some.inj hdata])

theorem Tidy.addRecording (htidy : s.Tidy) (hpath : a.data = some f.path)
    (hold : ∀ b ∈ s.acquisitions, b.data ≠ some f.path) : (s.addRecording f a).Tidy where
  fresh b hb := by
    rcases List.mem_append.mp hb with hb | hb
    · exact (htidy.fresh b hb).trans_le (le_max_left _ _)
    · rw [List.mem_singleton.mp hb]
      exact (Nat.lt_succ_self a.id).trans_le (le_max_right _ _)
  paths b hb b' hb' path hdata hdata' := by
    rcases List.mem_append.mp hb with hb | hb <;> rcases List.mem_append.mp hb' with hb' | hb'
    · exact htidy.paths b hb b' hb' path hdata hdata'
    · rw [List.mem_singleton.mp hb', hpath] at hdata'
      exact absurd (hdata.trans hdata'.symm) (hold b hb)
    · rw [List.mem_singleton.mp hb, hpath] at hdata
      exact absurd (hdata'.trans hdata.symm) (hold b' hb')
    · rw [List.mem_singleton.mp hb, List.mem_singleton.mp hb']

theorem saveResult_match (hmatch : s.FilesMatch) (htidy : s.Tidy) (maxDiskUsage : ℤ)
    (percentUsed : ℚ) (self : Option ℕ) (tr : TaskResult) :
    (s.saveResult maxDiskUsage percentUsed self tr).2.FilesMatch ∧
      (s.saveResult maxDiskUsage percentUsed self tr).2.Tidy := by
  obtain ⟨hacquisitions, hfiles, hnext⟩ := saveResult_recordings s maxDiskUsage percentUsed self tr
  have hleft : (s.removeOldest maxDiskUsage percentUsed tr.scheduleEntry self).FilesMatch ∧
      (s.removeOldest maxDiskUsage percentUsed tr.scheduleEntry self).Tidy := by
    obtain hsame | ⟨id, hdelete⟩ := removeOldest_cases s maxDiskUsage percentUsed tr.scheduleEntry self
    · rw [hsame]
      exact ⟨hmatch, htidy⟩
    · rw [hdelete]
      exact ⟨hmatch.deleteResult htidy id, htidy.deleteResult id⟩
  constructor
  · intro path
    rw [paths, hfiles, hacquisitions]
    exact hleft.1 path
  · constructor
    · rw [hacquisitions, hnext]
      exact hleft.2.fresh
    · rw [hacquisitions]
      exact hleft.2.paths

/-- A file that is left without a row. -/
theorem not_filesMatch_storeFile (h : s.FilesMatch) (hnew : f.path ∉ s.paths) :
    ¬ (s.storeFile f).FilesMatch := by
  intro hafter
  have hpath : f.path ∈ (s.storeFile f).paths := by simp
  exact hnew ((h f.path).mpr ((hafter f.path).mp hpath))

/-- A signal keeps the files and its promise exactly when it is accepted. -/
theorem signal_match_iff (hmatch : s.FilesMatch) (htidy : s.Tidy) :
    (s.measurementActionCompletedCallback fernet storage c).2.FilesMatch ∧
      RaisingLeaves fernet storage s (.signal c) ↔ Accepted fernet s (.signal c) := by
  have hnew : storage.path c.now c.signal.fileName s.paths ∉ s.paths := storage.path_fresh _ _ _
  obtain ⟨err, hcallback, hnone⟩ | ⟨tr, content, htr, hcontent, hcases⟩ :=
    callback_cases fernet storage c htidy.fresh
  · refine iff_of_true ?_ ?_
    · simpa [RaisingLeaves, hcallback] using hmatch
    · intro tr htr hcontent
      rcases hnone with hnone | hnone
      · rw [hnone] at htr
        cases htr
      · exact absurd hnone hcontent
  · have haccepted : Accepted fernet s (.signal c) ↔
        (tr.id, c.signal.storedId) ∉ s.acquisitions.map AcquisitionRow.pair ∧
          c.firstRefused = false ∧ c.secondRefused = false := by
      simp only [Accepted, htr, hcontent, Option.some.injEq, forall_eq', ne_eq, reduceCtorEq,
        not_false_eq_true, true_implies]
    rw [haccepted]
    obtain ⟨hfirst, hcallback⟩ | ⟨hfirst, hstored, hsecond, hcallback⟩ |
      ⟨hfirst, hstored, hsecond, hcallback⟩ := hcases
    · refine iff_of_false ?_ ?_
      · rintro ⟨hafter, -⟩
        rw [hcallback] at hafter
        exact not_filesMatch_storeFile hmatch hnew hafter
      · rintro ⟨hpair, hrefused, -⟩
        rcases hfirst with hfirst | hstored
        · rw [hrefused] at hfirst
          cases hfirst
        · exact hpair hstored
    · refine iff_of_false ?_ ?_
      · rintro ⟨-, hleaves⟩
        have hsame := hleaves .databaseError (congrArg Prod.fst hcallback)
        rw [hcallback] at hsame
        have hrows := congrArg (fun s => s.acquisitions.length) hsame
        simp at hrows
      · rintro ⟨-, -, hrefused⟩
        rw [hsecond] at hrefused
        cases hrefused
    · refine iff_of_true ⟨?_, ?_⟩ ⟨hstored, hfirst, hsecond⟩
      · rw [hcallback]
        exact hmatch.addRecording rfl
      · intro err herr
        rw [hcallback] at herr
        cases herr

theorem Tidy.signal (htidy : s.Tidy) (hmatch : s.FilesMatch) :
    (s.measurementActionCompletedCallback fernet storage c).2.Tidy := by
  have hold : ∀ a ∈ s.acquisitions, a.data ≠ some (storage.path c.now c.signal.fileName s.paths) :=
    fun a ha hdata => storage.path_fresh _ _ _ ((hmatch _).mpr ⟨a, ha, hdata⟩)
  obtain ⟨err, hcallback, -⟩ | ⟨tr, content, -, -, ⟨-, hcallback⟩ | ⟨-, -, -, hcallback⟩ |
    ⟨-, -, -, hcallback⟩⟩ := callback_cases fernet storage c htidy.fresh
  · rwa [hcallback]
  · rw [hcallback]
    exact ⟨htidy.fresh, htidy.paths⟩
  · rw [hcallback]
    exact htidy.addRecording rfl hold
  · rw [hcallback]
    exact htidy.addRecording rfl hold

theorem Tidy.step (htidy : s.Tidy) (hmatch : s.FilesMatch)
    (hstep : s.fileStep fernet storage op = some s') : s'.Tidy := by
  cases op with
  | signal c => exact Option.some.inj hstep ▸ htidy.signal hmatch
  | deleteResult id => exact Option.some.inj hstep ▸ htidy.deleteResult id
  | destroyAll name => exact Option.some.inj hstep ▸ (foldl_deleteResult _ hmatch htidy).2
  | saveResult maxDiskUsage percentUsed self tr =>
    exact Option.some.inj hstep ▸ (saveResult_match hmatch htidy maxDiskUsage percentUsed self tr).2

/-- One step keeps the files and its promise exactly when a signal is accepted. -/
theorem fileStep_match_iff (hmatch : s.FilesMatch) (htidy : s.Tidy)
    (hstep : s.fileStep fernet storage op = some s') :
    s'.FilesMatch ∧ RaisingLeaves fernet storage s op ↔ Accepted fernet s op := by
  cases op with
  | signal c =>
    rw [← Option.some.inj hstep]
    exact signal_match_iff hmatch htidy
  | deleteResult id =>
    rw [← Option.some.inj hstep]
    exact iff_of_true ⟨hmatch.deleteResult htidy id, trivial⟩ trivial
  | destroyAll name =>
    rw [← Option.some.inj hstep]
    exact iff_of_true ⟨(foldl_deleteResult _ hmatch htidy).1, trivial⟩ trivial
  | saveResult maxDiskUsage percentUsed self tr =>
    have hsaved := saveResult_match hmatch htidy maxDiskUsage percentUsed self tr
    rw [← Option.some.inj hstep]
    exact iff_of_true ⟨hsaved.1, trivial⟩ trivial

theorem exec_fileStep (fernet : Fernet Key) (storage : FileStorage) (s : DataStore)
    (ops : List (FileOp Key)) : ∃ t, exec (fileStep fernet storage) s ops = some t := by
  induction ops generalizing s with
  | nil => exact ⟨s, rfl⟩
  | cons op ops ih => cases op <;> exact ih _

/-- Along a run the files are those that the rows name, and raising signals change
nothing, exactly when every signal that comes to the storage is accepted. -/
theorem files_match_iff (htidy : s.Tidy) (hmatch : s.FilesMatch) (ops : List (FileOp Key)) :
    Throughout (fileStep fernet storage) FilesMatch s ops ∧
        Along (fileStep fernet storage) (RaisingLeaves fernet storage) s ops ↔
      Along (fileStep fernet storage) (Accepted fernet) s ops := by
  obtain ⟨t, hrun⟩ := exec_fileStep fernet storage s ops
  exact throughout_and_along_iff (fun _ _ _ htidy hmatch hstep => htidy.step hmatch hstep)
    (fun _ _ _ htidy hmatch hstep => fileStep_match_iff hmatch htidy hstep) htidy hmatch hrun

theorem firstTask_files_match : firstTask.Tidy ∧ firstTask.FilesMatch := by
  refine ⟨⟨?_, ?_⟩, ?_⟩ <;> simp [firstTask, FilesMatch, paths]

/-- The first task records, the save of the second removes it with its file, the second
records encrypted, and is deleted with its entry's results. -/
def twoRecordings : List (FileOp Unit) :=
  [.signal plainRecording, .saveResult 85 99 none { scheduleEntry := "sweep", taskId := 2 },
    .signal { plainRecording with signal.taskId := 2, settings := ⟨true, some ()⟩ },
    .deleteResult 1, .destroyAll "sweep"]

theorem plainRecording_files_match :
    Throughout (fileStep envelope oneDirectory) FilesMatch firstTask twoRecordings := by
  have haccepted : Along (fileStep envelope oneDirectory) (Accepted envelope) firstTask
      twoRecordings := by
    decide +kernel
  exact ((files_match_iff firstTask_files_match.1 firstTask_files_match.2 _).mpr haccepted).1

/-- The second recording of a task without ids is refused, and its file stays. -/
theorem second_recording_leaves_file :
    firstTask.Tidy ∧ firstTask.FilesMatch ∧
      ∃ t, exec (fileStep envelope oneDirectory) firstTask
          [.signal plainRecording, .signal plainRecording] = some t ∧
        t.files.length = 2 ∧ t.acquisitions.length = 1 ∧ ¬ t.FilesMatch := by
  refine ⟨firstTask_files_match.1, firstTask_files_match.2, _, rfl, by decide, by decide, ?_⟩
  intro hmatch
  have hleft := (hmatch (oneDirectory.path 0 "sweep_1.sigmf-data" ["sweep_1.sigmf-data"])).mp (by decide)
  exact absurd hleft (by decide)

end DataStore

end ScosSensor
