import ScosSensor.DataFiles

/-!
# The encryption flag

Between the two writes of the handler other requests see the row, and a crash leaves
it as it is. The first write comes with the default of the flag, which is off, so an
encrypted file is announced as a plain one until the second write. The flag tells the
truth in every state of a run exactly when no recording is stored with encryption on.
-/
namespace ScosSensor

open Runs

/-- The file holds the Fernet token of what the action emitted. -/
def DataFile.IsCiphertext {Key : Type*} (fernet : Fernet Key) (f : DataFile) : Prop :=
  ∃ key nonce, f.content = fernet.encrypt key nonce f.emitted

/-- The flag of a row tells whether the file that the row names is encrypted. -/
def AcquisitionRow.Truthful {Key : Type*} (fernet : Fernet Key) (files : List DataFile)
    (a : AcquisitionRow) : Prop :=
  ∀ f ∈ files, a.data = some f.path → (a.dataEncrypted = true ↔ f.IsCiphertext fernet)

/-- What is stored, and the instance of a handler that has written its row once. -/
structure HandlerState where
  store : DataStore
  handler : Option AcquisitionRow := none
  deriving Repr, DecidableEq

/-- A signal is received and its row written once; the second write; the process dies;
and what other requests and the scheduler do to results meanwhile. -/
inductive HandlerLabel (Key : Type*) where
  | receive (c : MeasurementCall Key)
  | finish (refused : Bool)
  | crash
  | createResult (maxDiskUsage : ℤ) (percentUsed : ℚ) (tr : TaskResult)
  | deleteResult (id : ℕ)
  | destroyAll (name : String)

namespace HandlerState

variable {Key : Type*} (fernet : Fernet Key) (storage : FileStorage)

def step (s : HandlerState) : HandlerLabel Key → Option HandlerState
  | .receive c =>
    if s.handler.isSome then none
    else
      match s.store.receive fernet storage c with
      | (.ok a, store) => some ⟨store, some { a with dataEncrypted := c.settings.encryptDataFiles }⟩
      | (.error _, store) => some ⟨store, none⟩
  | .finish refused => s.handler.map fun a => ⟨(s.store.saveAcquisition refused a).2, none⟩
  | .crash => some { s with handler := none }
  | .createResult maxDiskUsage percentUsed tr =>
    some { s with store := (s.store.saveResult maxDiskUsage percentUsed none tr).2 }
  | .deleteResult id => some { s with store := s.store.deleteResult id }
  | .destroyAll name => some { s with store := s.store.destroyAll name }

/-- Every stored flag tells the truth. -/
def Truthful (s : HandlerState) : Prop :=
  ∀ a ∈ s.store.acquisitions, a.Truthful fernet s.store.files

/-- The condition on a signal whose row is inserted: encryption is off. -/
def InsertsPlain (s : HandlerState) : HandlerLabel Key → Prop
  | .receive c => ∀ tr, s.store.results.find? (fun r => r.key = c.signal.key) = some tr →
      c.settings.content fernet c.nonce c.signal.data ≠ none → c.firstRefused = false →
      (tr.id, c.signal.storedId) ∉ s.store.acquisitions.map AcquisitionRow.pair →
      c.settings.encryptDataFiles = false
  | _ => True

/-- The row of the handler is the one it wrote, or is gone with its result, which does
not come back. -/
structure HandlerKnown (store : DataStore) (a : AcquisitionRow) : Prop where
  result : a.taskResult < store.nextId
  own : ∀ b ∈ store.acquisitions, b.id = a.id → b.taskResult = a.taskResult ∧ b.data = a.data
  stored : (a.id ∈ store.acquisitions.map AcquisitionRow.id) ∨
    a.taskResult ∉ store.results.map fun r => r.id

/-- Ids come from the counters; rows name files that are there, each its own; and the
instance of the handler has the right flag. -/
structure Coherent (s : HandlerState) : Prop where
  fresh : ∀ a ∈ s.store.acquisitions, a.id < s.store.nextAcquisitionId
  named : ∀ a ∈ s.store.acquisitions, ∀ path, a.data = some path → path ∈ s.store.paths
  unique : ∀ a ∈ s.store.acquisitions, ∀ b ∈ s.store.acquisitions, ∀ path,
    a.data = some path → b.data = some path → a = b
  ids : ∀ r ∈ s.store.results, r.id < s.store.nextId
  known : ∀ a ∈ s.handler, HandlerKnown s.store a
  flag : ∀ a ∈ s.handler, a.Truthful fernet s.store.files

variable {fernet storage} {s s' : HandlerState} {a b : AcquisitionRow} {id : ℕ} {f : DataFile}
  {l : HandlerLabel Key} {c : MeasurementCall Key} {store : DataStore} {files : List DataFile}

/-- A plain file is no token of what is in it: a token is longer. -/
theorem not_isCiphertext_of_plain (h : f.content = f.emitted) : ¬ f.IsCiphertext fernet := by
  rintro ⟨key, nonce, hcontent⟩
  have hlength := fernet.length_lt key nonce f.emitted
  rw [← hcontent, h] at hlength
  exact lt_irrefl _ hlength

/-- What is written to a file is a token exactly with encryption on. -/
theorem isCiphertext_iff_encrypt {path : String} {content : Bytes}
    (h : c.settings.content fernet c.nonce c.signal.data = some content) :
    (⟨path, content, c.signal.data⟩ : DataFile).IsCiphertext fernet ↔
      c.settings.encryptDataFiles = true := by
  unfold EncryptionSettings.content at h
  split_ifs at h with hencrypt
  · obtain ⟨key, -, hcontent⟩ := Option.map_eq_some_iff.mp h
    exact iff_of_true ⟨key, c.nonce, hcontent.symm⟩ hencrypt
  · exact iff_of_false (not_isCiphertext_of_plain (Option.some.inj h).symm) hencrypt

theorem truthful_of_subset {files' : List DataFile} (h : a.Truthful fernet files)
    (hsub : files' ⊆ files) : a.Truthful fernet files' := fun f hf => h f (hsub hf)

/-- A new file under a free path says nothing about the rows that name others. -/
theorem truthful_append (h : a.Truthful fernet files)
    (hnamed : ∀ path, a.data = some path → path ∈ files.map DataFile.path)
    (hnew : f.path ∉ files.map DataFile.path) : a.Truthful fernet (files ++ [f]) := by
  intro g hg hdata
  rcases List.mem_append.mp hg with hg | hg
  · exact h g hg hdata
  · rw [List.mem_singleton.mp hg] at hdata
    exact absurd (hnamed f.path hdata) hnew

/-- Without an instance in a handler there is less to ask. -/
theorem Coherent.idle (h : s.Coherent fernet) : Coherent fernet ⟨s.store, none⟩ where
  fresh := h.fresh
  named := h.named
  unique := h.unique
  ids := h.ids
  known a ha := by cases ha
  flag a ha := by cases ha

/-- Deleting a result leaves what is left coherent. -/
theorem Coherent.deleteResult (h : s.Coherent fernet) (id : ℕ) :
    Coherent fernet { s with store := s.store.deleteResult id } where
  fresh a ha := h.fresh a (List.mem_of_mem_filter ha)
  named a ha path hdata := by
    obtain ⟨ha, hid⟩ := List.mem_filter.mp ha
    refine DataStore.mem_paths_deleteResult.mpr ⟨h.named a ha path hdata, fun hmem => ?_⟩
    obtain ⟨b, hb, hbid, hbdata⟩ := DataStore.mem_pathsOf.mp hmem
    rw [h.unique a ha b hb path hdata hbdata] at hid
    simp [hbid] at hid
  unique a ha b hb := h.unique a (List.mem_of_mem_filter ha) b (List.mem_of_mem_filter hb)
  ids r hr := h.ids r (List.mem_of_mem_filter hr)
  known a ha := by
    obtain ⟨hresult, hown, hstored⟩ := h.known a ha
    refine ⟨hresult, fun b hb => hown b (List.mem_of_mem_filter hb), ?_⟩
    by_cases hdeleted : a.taskResult = id
    · right
      simp [DataStore.deleteResult, hdeleted]
    · refine hstored.imp (fun hrow => ?_) (fun hgone hmem => ?_)
      · obtain ⟨b, hb, hid⟩ := List.mem_map.mp hrow
        refine List.mem_map.mpr ⟨b, List.mem_filter.mpr ⟨hb, ?_⟩, hid⟩
        simpa [(hown b hb hid).1] using hdeleted
      · obtain ⟨r, hr, hid⟩ := List.mem_map.mp hmem
        exact hgone (List.mem_map.mpr ⟨r, List.mem_of_mem_filter hr, hid⟩)
  flag a ha := truthful_of_subset (h.flag a ha) List.filter_sublist.subset

theorem Truthful.deleteResult (h : s.Truthful fernet) (id : ℕ) :
    Truthful fernet { s with store := s.store.deleteResult id } := by
  intro a ha
  exact truthful_of_subset (h a (List.mem_of_mem_filter ha)) List.filter_sublist.subset

theorem foldl_deleteResult (rows : List ResultRow) (h : s.Coherent fernet)
    (htruth : s.Truthful fernet) :
    let after : HandlerState :=
      { s with store := rows.foldl (fun store r => store.deleteResult r.id) s.store }
    after.Coherent fernet ∧ after.Truthful fernet := by
  induction rows generalizing s with
  | nil => exact ⟨h, htruth⟩
  | cons r rows ih => exact ih (h.deleteResult r.id) (htruth.deleteResult r.id)

/-- A new result has an id that no handler waits for. -/
theorem createResult_keeps (h : s.Coherent fernet) (htruth : s.Truthful fernet)
    (maxDiskUsage : ℤ) (percentUsed : ℚ) (tr : TaskResult) :
    let after : HandlerState :=
      { s with store := (s.store.saveResult maxDiskUsage percentUsed none tr).2 }
    after.Coherent fernet ∧ after.Truthful fernet := by
  have hleft : Coherent fernet
        { s with store := s.store.removeOldest maxDiskUsage percentUsed tr.scheduleEntry none } ∧
      Truthful fernet
        { s with store := s.store.removeOldest maxDiskUsage percentUsed tr.scheduleEntry none } := by
    obtain hsame | ⟨id, hdelete⟩ :=
      DataStore.removeOldest_cases s.store maxDiskUsage percentUsed tr.scheduleEntry none
    · rw [hsame]
      exact ⟨h, htruth⟩
    · rw [hdelete]
      exact ⟨h.deleteResult id, htruth.deleteResult id⟩
  generalize hremoved : s.store.removeOldest maxDiskUsage percentUsed tr.scheduleEntry none = left
    at hleft
  obtain ⟨hcoherent, htruth⟩ := hleft
  simp only [DataStore.saveResult, hremoved]
  cases hsave : left.database.superSave none tr with
  | error err => exact ⟨hcoherent, htruth⟩
  | ok out =>
    obtain ⟨row, db⟩ := out
    obtain ⟨hid, hresults, hnext, -⟩ := Database.superSave_new hsave
    have hid : row.id = left.nextId := hid
    have hresults : db.results = left.results ++ [row] := hresults
    have hnext : db.nextId = left.nextId + 1 := hnext
    refine ⟨⟨hcoherent.fresh, hcoherent.named, hcoherent.unique, ?_, ?_, hcoherent.flag⟩, htruth⟩
    · intro r hr
      simp only [hresults, List.mem_append, List.mem_singleton] at hr
      simp only [hnext]
      rcases hr with hr | rfl
      · have hold := hcoherent.ids r hr
        dsimp only at hold
        omega
      · omega
    · intro a ha
      obtain ⟨hlt, hown, hstored⟩ := hcoherent.known a ha
      dsimp only at hlt
      refine ⟨by simp only [hnext]; omega, hown, hstored.imp_right fun hgone hmem => ?_⟩
      simp only [hresults, List.map_append, List.mem_append, List.map_singleton,
        List.mem_singleton] at hmem
      rcases hmem with hmem | hmem
      · exact hgone hmem
      · omega

/-- The second write brings the right flag into the row, or changes nothing. -/
theorem finish_keeps (h : s.Coherent fernet) (htruth : s.Truthful fernet) (ha : a ∈ s.handler)
    (refused : Bool) :
    let after : HandlerState := ⟨(s.store.saveAcquisition refused a).2, none⟩
    after.Coherent fernet ∧ after.Truthful fernet := by
  have hsame : Coherent fernet ⟨s.store, none⟩ := h.idle
  obtain ⟨hlt, hown, hknown⟩ := h.known a ha
  have hflag := h.flag a ha
  by_cases hstored : a.id ∈ s.store.acquisitions.map AcquisitionRow.id
  · cases refused with
    | true =>
      simp only [DataStore.saveAcquisition, if_pos hstored, if_true]
      exact ⟨hsame, htruth⟩
    | false =>
      -- the row of the handler names the file that the instance names
      obtain ⟨b, hb, hid⟩ := List.mem_map.mp hstored
      obtain ⟨-, hdata⟩ := hown b hb hid
      have hcases {c : AcquisitionRow}
          (hc : c ∈ Table.update AcquisitionRow.id a.id (fun _ => a) s.store.acquisitions) :
          (c ∈ s.store.acquisitions ∧ c.id ≠ a.id) ∨ c = a := by
        obtain hold | ⟨_, _, _, rfl⟩ := Table.mem_update.mp hc
        · exact .inl hold
        · exact .inr rfl
      have hother {c : AcquisitionRow} {path : String} (hc : c ∈ s.store.acquisitions)
          (hne : c.id ≠ a.id) (hpath : c.data = some path) : a.data ≠ some path := by
        intro ha
        rw [h.unique c hc b hb path hpath (hdata.trans ha)] at hne
        exact hne hid
      simp only [DataStore.saveAcquisition, if_pos hstored, Bool.false_eq_true, if_false]
      refine ⟨⟨?_, ?_, ?_, h.ids, by simp, by simp⟩, ?_⟩
      · intro c hc
        rcases hcases hc with ⟨hc, -⟩ | rfl
        · exact h.fresh c hc
        · exact hid ▸ h.fresh b hb
      · intro c hc path hpath
        rcases hcases hc with ⟨hc, -⟩ | rfl
        · exact h.named c hc path hpath
        · exact h.named b hb path (hdata.trans hpath)
      · intro c hc d hd path hpath hpath'
        rcases hcases hc with ⟨hold, hne⟩ | rfl <;> rcases hcases hd with ⟨hold', hne'⟩ | rfl
        · exact h.unique c hold d hold' path hpath hpath'
        · exact absurd hpath' (hother hold hne hpath)
        · exact absurd hpath (hother hold' hne' hpath')
        · rfl
      · intro c hc
        rcases hcases hc with ⟨hc, -⟩ | rfl
        · exact htruth c hc
        · exact hflag
  · -- the row is gone with its result, so the INSERT is refused
    have hgone : a.taskResult ∉ s.store.results.map fun r => r.id := hknown.resolve_left hstored
    have hinsert : (s.store.insertAcquisition refused a).2 = s.store := by
      unfold DataStore.insertAcquisition
      split_ifs <;> rfl
    rw [DataStore.saveAcquisition, if_neg hstored, hinsert]
    exact ⟨hsame, htruth⟩

/-- A file without a row changes no flag. -/
theorem storeFile_keeps (h : s.Coherent fernet) (htruth : s.Truthful fernet)
    (hnew : f.path ∉ s.store.paths) :
    Coherent fernet ⟨s.store.storeFile f, none⟩ ∧ Truthful fernet ⟨s.store.storeFile f, none⟩ := by
  refine ⟨⟨h.fresh, ?_, h.unique, h.ids, by simp, by simp⟩, ?_⟩
  · intro a ha path hdata
    rw [DataStore.paths_storeFile]
    exact List.mem_append_left _ (h.named a ha path hdata)
  · intro a ha
    exact truthful_append (htruth a ha) (h.named a ha) hnew

/-- A new row with its file is coherent with the instance that has the flag set. -/
theorem Coherent.addRecording {a' : AcquisitionRow} (h : s.Coherent fernet)
    (hid : a.id = s.store.nextAcquisitionId) (hdata : a.data = some f.path)
    (hresult : a.taskResult ∈ s.store.results.map fun r => r.id) (hnew : f.path ∉ s.store.paths)
    (hinstance : a'.id = a.id ∧ a'.taskResult = a.taskResult ∧ a'.data = a.data)
    (hflag : a'.dataEncrypted = true ↔ f.IsCiphertext fernet) :
    Coherent fernet ⟨s.store.addRecording f a, some a'⟩ := by
  have hcases {c : AcquisitionRow} (hc : c ∈ (s.store.addRecording f a).acquisitions) :
      c ∈ s.store.acquisitions ∨ c = a := by
    simpa using hc
  have hother {c : AcquisitionRow} {path : String} (hc : c ∈ s.store.acquisitions)
      (hpath : c.data = some path) : a.data ≠ some path := by
    intro ha
    rw [hdata, Option.some.injEq] at ha
    exact hnew (ha ▸ h.named c hc path hpath)
  have hpaths : (s.store.addRecording f a).paths = s.store.paths ++ [f.path] := by simp
  refine ⟨?_, ?_, ?_, h.ids, ?_, ?_⟩
  · intro c hc
    rcases hcases hc with hc | rfl
    · exact (h.fresh c hc).trans_le (le_max_left _ _)
    · exact (Nat.lt_succ_self c.id).trans_le (le_max_right _ _)
  · intro c hc path hpath
    simp only [hpaths, List.mem_append, List.mem_singleton]
    rcases hcases hc with hc | rfl
    · exact .inl (h.named c hc path hpath)
    · rw [hdata, Option.some.injEq] at hpath
      exact .inr hpath.symm
  · intro c hc d hd path hpath hpath'
    rcases hcases hc with hold | rfl <;> rcases hcases hd with hold' | rfl
    · exact h.unique c hold d hold' path hpath hpath'
    · exact absurd hpath' (hother hold hpath)
    · exact absurd hpath (hother hold' hpath')
    · rfl
  · intro b hb
    obtain rfl := Option.some.inj hb
    obtain ⟨r, hr, hrid⟩ := List.mem_map.mp hresult
    refine ⟨?_, ?_, .inl ?_⟩
    · rw [hinstance.2.1, ← hrid]
      exact h.ids r hr
    · intro c hc hcid
      rcases hcases hc with hc | rfl
      · rw [hinstance.1, hid] at hcid
        exact absurd (h.fresh c hc) (by omega)
      · exact ⟨hinstance.2.1.symm, hinstance.2.2.symm⟩
    · simp [hinstance.1]
  · intro b hb g hg hpath
    obtain rfl := Option.some.inj hb
    rcases List.mem_append.mp hg with hg | hg
    · rw [hinstance.2.2, hdata, Option.some.injEq] at hpath
      exact absurd (List.mem_map_of_mem hg) (hpath ▸ hnew)
    · rw [List.mem_singleton.mp hg]
      exact hflag

/-- The row of the first write tells the truth exactly when the file is a plain one. -/
theorem truthful_addRecording_iff (h : s.Coherent fernet) (htruth : s.Truthful fernet)
    (hdata : a.data = some f.path) (hflag : a.dataEncrypted = false) (hnew : f.path ∉ s.store.paths)
    {handler : Option AcquisitionRow} :
    Truthful fernet ⟨s.store.addRecording f a, handler⟩ ↔ ¬ f.IsCiphertext fernet := by
  have hmine : f ∈ (s.store.addRecording f a).files := List.mem_append_right _ (List.mem_singleton_self f)
  constructor
  · intro hafter hcipher
    have hrow := hafter a (List.mem_append_right _ (List.mem_singleton_self a)) f hmine hdata
    rw [hflag] at hrow
    exact absurd (hrow.mpr hcipher) Bool.false_ne_true
  · intro hplain c hc
    rcases List.mem_append.mp hc with hc | hc
    · exact truthful_append (htruth c hc) (h.named c hc) hnew
    · intro g hg hpath
      rw [List.mem_singleton.mp hc] at hpath ⊢
      rw [hdata, Option.some.injEq] at hpath
      rcases List.mem_append.mp hg with hg | hg
      · exact absurd (List.mem_map_of_mem hg) (hpath ▸ hnew)
      · rw [List.mem_singleton.mp hg, hflag]
        exact iff_of_false Bool.false_ne_true hplain

/-- What the reception of a signal comes to. -/
theorem step_receive (h : s.step fernet storage (.receive c) = some s') : s.handler = none ∧
    ((s' = ⟨s.store, none⟩ ∧ InsertsPlain fernet s (.receive c)) ∨
      ∃ tr content, s.store.results.find? (fun r => r.key = c.signal.key) = some tr ∧
        c.settings.content fernet c.nonce c.signal.data = some content ∧
        let path := storage.path c.now c.signal.fileName s.store.paths
        let f : DataFile := ⟨path, content, c.signal.data⟩
        let a := s.store.newAcquisition path tr c.signal
        let stored := (tr.id, c.signal.storedId) ∈ s.store.acquisitions.map AcquisitionRow.pair
        ((c.firstRefused = true ∨ stored) ∧ s' = ⟨s.store.storeFile f, none⟩) ∨
          (c.firstRefused = false ∧ ¬ stored ∧ s' = ⟨s.store.addRecording f a,
            some { a with dataEncrypted := c.settings.encryptDataFiles }⟩)) := by
  unfold step at h
  dsimp only at h
  split_ifs at h with hhandler
  refine ⟨by simpa using hhandler, ?_⟩
  by_cases hfound : s.store.results.find? (fun r => r.key = c.signal.key) = none ∨
      c.settings.content fernet c.nonce c.signal.data = none
  · have hreceive : ∃ err, s.store.receive fernet storage c = (.error err, s.store) :=
      DataStore.receive_of_not_found hfound
    obtain ⟨err, hreceive⟩ := hreceive
    rw [hreceive] at h
    refine .inl ⟨(Option.some.inj h).symm, ?_⟩
    intro tr htr hcontent
    rcases hfound with hnone | hnone
    · rw [hnone] at htr
      cases htr
    · exact absurd hnone hcontent
  · obtain ⟨htr, hcontent⟩ := not_or.mp hfound
    obtain ⟨tr, htr⟩ := Option.ne_none_iff_exists'.mp htr
    obtain ⟨content, hcontent⟩ := Option.ne_none_iff_exists'.mp hcontent
    refine .inr ⟨tr, content, htr, hcontent, ?_⟩
    intro path f a stored
    have hreceive : s.store.receive fernet storage c =
        if c.firstRefused = true ∨ stored then (.error .databaseError, s.store.storeFile f)
        else (.ok a, s.store.addRecording f a) := DataStore.receive_of_found htr hcontent
    by_cases hfirst : c.firstRefused = true ∨ stored
    · rw [hreceive, if_pos hfirst] at h
      exact .inl ⟨hfirst, (Option.some.inj h).symm⟩
    · rw [hreceive, if_neg hfirst] at h
      obtain ⟨hrefused, hstored⟩ := not_or.mp hfirst
      exact .inr ⟨by simpa using hrefused, hstored, (Option.some.inj h).symm⟩

/-- One step keeps the files and rows together. -/
theorem Coherent.step (h : s.Coherent fernet) (htruth : s.Truthful fernet)
    (hstep : HandlerState.step fernet storage s l = some s') : s'.Coherent fernet := by
  cases l with
  | receive c =>
    obtain ⟨hhandler, ⟨rfl, -⟩ | ⟨tr, content, htr, hcontent, hcases⟩⟩ := step_receive hstep
    · rwa [← hhandler]
    · have hnew : storage.path c.now c.signal.fileName s.store.paths ∉ s.store.paths :=
        storage.path_fresh _ _ _
      obtain ⟨-, rfl⟩ | ⟨-, -, rfl⟩ := hcases
      · exact (storeFile_keeps h htruth hnew).1
      · have hresult : tr.id ∈ s.store.results.map fun r => r.id :=
          List.mem_map_of_mem (f := fun r : ResultRow => r.id) (DataStore.result_mem_of_find? htr).1
        exact h.addRecording rfl rfl hresult hnew ⟨rfl, rfl, rfl⟩ (isCiphertext_iff_encrypt hcontent).symm
  | finish refused =>
    obtain ⟨a, ha, rfl⟩ := Option.map_eq_some_iff.mp hstep
    exact (finish_keeps h htruth ha refused).1
  | crash =>
    rw [← Option.some.inj hstep]
    exact h.idle
  | createResult maxDiskUsage percentUsed tr =>
    rw [← Option.some.inj hstep]
    exact (createResult_keeps h htruth maxDiskUsage percentUsed tr).1
  | deleteResult id =>
    rw [← Option.some.inj hstep]
    exact h.deleteResult id
  | destroyAll name =>
    rw [← Option.some.inj hstep]
    exact (foldl_deleteResult _ h htruth).1

/-- One step keeps the flags right exactly when a row is inserted with encryption off. -/
theorem truthful_step_iff (h : s.Coherent fernet) (htruth : s.Truthful fernet)
    (hstep : HandlerState.step fernet storage s l = some s') :
    s'.Truthful fernet ↔ InsertsPlain fernet s l := by
  cases l with
  | receive c =>
    obtain ⟨-, ⟨rfl, hplain⟩ | ⟨tr, content, htr, hcontent, hcases⟩⟩ := step_receive hstep
    · exact iff_of_true htruth hplain
    · have hnew : storage.path c.now c.signal.fileName s.store.paths ∉ s.store.paths :=
        storage.path_fresh _ _ _
      have hplain : InsertsPlain fernet s (.receive c) ↔ (c.firstRefused = false →
          (tr.id, c.signal.storedId) ∉ s.store.acquisitions.map AcquisitionRow.pair →
          c.settings.encryptDataFiles = false) := by
        simp only [InsertsPlain, htr, hcontent, Option.some.injEq, forall_eq', ne_eq, reduceCtorEq,
          not_false_eq_true, true_implies]
      rw [hplain]
      obtain ⟨hrefused, rfl⟩ | ⟨hfirst, hstored, rfl⟩ := hcases
      · refine iff_of_true (storeFile_keeps h htruth hnew).2 ?_
        intro hfirst hstored
        rcases hrefused with hrefused | hpair
        · rw [hfirst] at hrefused
          cases hrefused
        · exact absurd hpair hstored
      · rw [truthful_addRecording_iff h htruth rfl rfl hnew, isCiphertext_iff_encrypt hcontent]
        simp [hfirst, hstored]
  | finish refused =>
    obtain ⟨a, ha, rfl⟩ := Option.map_eq_some_iff.mp hstep
    exact iff_of_true (finish_keeps h htruth ha refused).2 trivial
  | crash =>
    rw [← Option.some.inj hstep]
    exact iff_of_true htruth trivial
  | createResult maxDiskUsage percentUsed tr =>
    rw [← Option.some.inj hstep]
    exact iff_of_true (createResult_keeps h htruth maxDiskUsage percentUsed tr).2 trivial
  | deleteResult id =>
    rw [← Option.some.inj hstep]
    exact iff_of_true (htruth.deleteResult id) trivial
  | destroyAll name =>
    rw [← Option.some.inj hstep]
    exact iff_of_true (foldl_deleteResult _ h htruth).2 trivial

/-- The flags tell the truth in every state of a run exactly when no signal inserts its
row with encryption on. -/
theorem throughout_truthful_iff {t : HandlerState} {ls : List (HandlerLabel Key)}
    (h : s.Coherent fernet) (htruth : s.Truthful fernet)
    (hrun : exec (step fernet storage) s ls = some t) :
    Throughout (step fernet storage) (Truthful fernet) s ls ↔
      Along (step fernet storage) (InsertsPlain fernet) s ls := by
  have hcoherent : ∀ s l s', Coherent fernet s → Truthful fernet s →
      step fernet storage s l = some s' → Coherent fernet s' :=
    fun _ _ _ h htruth hstep => h.step htruth hstep
  have htruthful : ∀ s l s', Coherent fernet s → Truthful fernet s →
      step fernet storage s l = some s' → (Truthful fernet s' ↔ InsertsPlain fernet s l) :=
    fun _ _ _ h htruth hstep => truthful_step_iff h htruth hstep
  exact throughout_iff_along hcoherent htruthful h htruth hrun

/-- Received and finished without anything between, a signal is handled as a whole. -/
theorem exec_receive_finish (hhandler : s.handler = none)
    (hrow : s.store.receive fernet storage c = (.ok a, store)) :
    exec (step fernet storage) s [.receive c, .finish c.secondRefused] =
      some ⟨(s.store.measurementActionCompletedCallback fernet storage c).2, none⟩ := by
  have hreceive : s.step fernet storage (.receive c) =
      some ⟨store, some { a with dataEncrypted := c.settings.encryptDataFiles }⟩ := by
    simp [step, hhandler, hrow]
  rw [exec, hreceive, Option.bind_some, DataStore.measurementActionCompletedCallback, hrow]
  rfl

def beforeRecording : HandlerState := ⟨DataStore.firstTask, none⟩

/-- The same recording with encryption on. -/
def encryptedRecording : MeasurementCall Unit :=
  { DataStore.plainRecording with settings := ⟨true, some ()⟩ }

theorem beforeRecording_coherent :
    beforeRecording.Coherent envelope ∧ beforeRecording.Truthful envelope := by
  refine ⟨⟨?_, ?_, ?_, ?_, ?_, ?_⟩, ?_⟩ <;> simp [beforeRecording, DataStore.firstTask, Truthful]

theorem plainRecording_truthful :
    Throughout (step envelope oneDirectory) (Truthful envelope) beforeRecording
      [.receive DataStore.plainRecording, .finish false] := by
  have hplain : Along (step envelope oneDirectory) (InsertsPlain envelope) beforeRecording
      [.receive DataStore.plainRecording, .finish false] := by
    refine ⟨fun _ _ _ _ _ => rfl, fun _ _ => ⟨trivial, fun _ _ => trivial⟩⟩
  exact (throughout_truthful_iff beforeRecording_coherent.1 beforeRecording_coherent.2 rfl).mpr hplain

/-- After the first write an encrypted file is announced as a plain one, and a crash
leaves it so. -/
theorem encryptedRecording_announced_plain :
    beforeRecording.Coherent envelope ∧ beforeRecording.Truthful envelope ∧
      ∃ t, exec (step envelope oneDirectory) beforeRecording
          [.receive encryptedRecording, .crash] = some t ∧
        t.handler = none ∧ ¬ t.Truthful envelope := by
  refine ⟨beforeRecording_coherent.1, beforeRecording_coherent.2, _, rfl, rfl, ?_⟩
  intro htruth
  have hflag := htruth _ List.mem_cons_self _ List.mem_cons_self rfl
  exact Bool.false_ne_true (hflag.mpr ⟨(), 0, rfl⟩)

end HandlerState

end ScosSensor
