import ScosSensor.ApiViews

/-!
# The links of the representations

A result links itself, its entry and the archives of its recordings, an overview the
results of an entry and their archive, an account its entries. No two patterns of the
API overlap, so a GET at a link comes to the view that the link was made for; what it
answers is the object, as long as rows load, dates can be rendered and recordings can
be read. Lists come in pages, and the links to the next ones lead through all of them.
-/
namespace ScosSensor

open Routes

theorem unambiguous_apiUrlpatterns : Unambiguous apiUrlpatterns := by decide

theorem plain_apiUrlpatterns :
    ∀ route ∈ apiUrlpatterns, route.2 ≠ [] ∧ route.2.all Part.plain = true := by decide

@[simp] theorem lookup_pkKwargs (pk : Value) :
    (versioned (pkKwargs pk)).lookup "version" = some (.text "v1") ∧
      (versioned (pkKwargs pk)).lookup "pk" = some pk := ⟨rfl, rfl⟩

@[simp] theorem lookup_nameKwargs (name : String) :
    (versioned (nameKwargs name)).lookup "version" = some (.text "v1") ∧
      (versioned (nameKwargs name)).lookup "schedule_entry_name" = some (.text name) := ⟨rfl, rfl⟩

@[simp] theorem lookup_resultKwargs (name : String) (taskId : ℕ) :
    (versioned (resultKwargs name taskId)).lookup "version" = some (.text "v1") ∧
      (versioned (resultKwargs name taskId)).lookup "schedule_entry_name" = some (.text name) ∧
      (versioned (resultKwargs name taskId)).lookup "task_id" = some (.number taskId) :=
  ⟨rfl, rfl, rfl⟩

/-- A URL leads back to the view that it was made for, with what was filled in. -/
theorem resolve_urlFor {e : Endpoint} {kwargs : Kwargs} {url : String}
    (h : urlFor e kwargs = some url) : ∃ parts, (e, parts) ∈ apiUrlpatterns ∧
      ((versioned kwargs).map Prod.fst).Perm (params parts) ∧
      resolve apiUrlpatterns url = some (e, received (versioned kwargs) parts) := by
  obtain ⟨⟨view, parts⟩, hroute, hreverse⟩ := List.exists_of_findSome?_eq_some h
  split_ifs at hreverse with hnames
  obtain ⟨rfl, hperm⟩ := hnames
  obtain ⟨hne, hplain⟩ := plain_apiUrlpatterns _ hroute
  exact ⟨parts, hroute, hperm,
    resolve_reverse_of_mem unambiguous_apiUrlpatterns hroute hplain hne hreverse⟩

/-- The URL of a view name with one pattern. -/
theorem resolve_urlFor_of_unique {e : Endpoint} {kwargs : Kwargs} {url : String}
    (parts : List Part) (hunique : ∀ route ∈ apiUrlpatterns, route.1 = e → route.2 = parts)
    (h : urlFor e kwargs = some url) :
    resolve apiUrlpatterns url = some (e, received (versioned kwargs) parts) := by
  obtain ⟨parts', hroute, -, hresolve⟩ := resolve_urlFor h
  have hparts : parts' = parts := hunique _ hroute rfl
  rwa [hparts] at hresolve

/-- A view name is reversed when one of its patterns takes the arguments. -/
theorem urlFor_isSome {e : Endpoint} {kwargs : Kwargs} (parts : List Part)
    (hroute : (e, parts) ∈ apiUrlpatterns)
    (hperm : ((versioned kwargs).map Prod.fst).Perm (params parts))
    (hfill : (fillParts (versioned kwargs) parts).isSome) : ∃ url, urlFor e kwargs = some url := by
  have hsome : (urlFor e kwargs).isSome := by
    rw [urlFor, List.findSome?_isSome_iff]
    refine ⟨_, hroute, ?_⟩
    rw [if_pos ⟨rfl, hperm⟩, reverse, Option.isSome_map]
    exact hfill
  exact Option.isSome_iff_exists.mp hsome

/-! ### Where the links lead -/

section Links

variable {Key : Type*} {cfg : ApiSettings Key} {s : Site} {name url : String} {taskId pk : ℕ}
  {q : PageQuery}

@[simp] theorem accepts_version : Converter.version.accepts ['v', '1'] = true := by decide

/-- A name of letters, digits, hyphens and underscores. -/
def IsSlug (name : String) : Prop := Converter.slug.accepts name.toList = true

theorem IsSlug.key (h : IsSlug name) : Converter.key.accepts name.toList = true := by
  simp only [IsSlug, Converter.accepts, Bool.and_eq_true, List.all_eq_true] at h ⊢
  refine ⟨h.1, ?_⟩
  intro c hc
  have hchar := h.2 c hc
  constructor
  · rw [bne_iff_ne]
    rintro rfl
    revert hchar
    decide
  · rw [bne_iff_ne]
    rintro rfl
    revert hchar
    decide

theorem entryUrl_isSome (h : IsSlug name) :
    ∃ url, urlFor (.view .scheduleDetail) (pkKwargs (.text name)) = some url := by
  refine urlFor_isSome (api [.literal "schedule", .param "pk" .key, .literal ""]) (by decide) ?_ ?_
  · show ["pk", "version"].Perm ["version", "pk"]
    decide
  · simp [fillParts, api, Value.chars, h.key]

theorem userUrl_isSome (pk : ℕ) :
    ∃ url, urlFor (.view .userDetail) (pkKwargs (.number pk)) = some url := by
  refine urlFor_isSome (api [.literal "users", .param "pk" .int, .literal ""]) (by decide) ?_ ?_
  · show ["pk", "version"].Perm ["version", "pk"]
    decide
  · have hpk := accepts_int_chars pk
    simp only [Value.chars] at hpk
    simp [fillParts, api, Value.chars, hpk]

/-- The two patterns of one result. -/
theorem instanceUrl_isSome {e : Endpoint} (last : String) (h : IsSlug name) (taskId : ℕ)
    (hroute : (e, api [.literal "tasks", .literal "completed", .param "schedule_entry_name" .slug,
      .param "task_id" .int, .literal last]) ∈ apiUrlpatterns) :
    ∃ url, urlFor e (resultKwargs name taskId) = some url := by
  refine urlFor_isSome _ hroute ?_ ?_
  · show ["schedule_entry_name", "task_id", "version"].Perm
      ["version", "schedule_entry_name", "task_id"]
    decide
  · rw [IsSlug] at h
    have hid := accepts_int_chars taskId
    simp only [Value.chars] at hid
    simp [fillParts, api, Value.chars, h, hid]

/-- What the patterns of an entry and of an account pass on. -/
theorem lookup_pk (pk : Value) :
    List.lookup "pk" [("version", Value.text "v1"), ("pk", pk)] = some pk := rfl

theorem get_entryUrl (h : urlFor (.view .scheduleDetail) (pkKwargs (.text name)) = some url) :
    s.get cfg url = s.retrieveEntry cfg [("version", .text "v1"), ("pk", .text name)] := by
  rw [Site.get, resolve_urlFor_of_unique
    (api [.literal "schedule", .param "pk" .key, .literal ""]) (by decide) h]
  simp [received, api, Converter.toPython, Value.chars]

/-- What the tables keep, and what the views need: rows load and can be rendered, a
recording is read and decrypted, and the accounts have the tokens that are shown. -/
structure Site.Sound (cfg : ApiSettings Key) (s : Site) : Prop where
  names : (s.store.schedule.map ScheduleEntry.name).Nodup
  slugs : ∀ e ∈ s.store.schedule, IsSlug e.name
  loads : ∀ e ∈ s.store.schedule, cfg.loads e = true
  serializable : ∀ e ∈ s.store.schedule, e.serializable = true
  keys : (s.store.results.map fun r => r.key).Nodup
  references : ∀ r ∈ s.store.results, r.scheduleEntry ∈ s.store.schedule.map ScheduleEntry.name
  recordings : ∀ a ∈ s.store.acquisitions,
    (s.store.archivedData cfg.fernet cfg.encryptionKey a).isSome
  accounts : (s.users.map Account.pk).Nodup
  tokens : cfg.tokenAuthEnabled = true → ∀ a ∈ s.users, a.pk ∈ s.tokens

variable {e : ScheduleEntry} {r : ResultRow} {a : Account} {b : AcquisitionRow}

theorem Site.Sound.loadEntry (hs : s.Sound cfg) (he : e ∈ s.store.schedule) :
    Scheduler.loadEntry cfg.toSettings s.store.database e.name = .ok e := by
  have hrow : s.store.database.getEntry e.name = some e := Table.get?_of_mem hs.names he
  simp only [Scheduler.loadEntry, hrow, hs.loads e he, if_true]

theorem Site.Sound.get_entry (hs : s.Sound cfg) (he : e ∈ s.store.schedule)
    (h : urlFor (.view .scheduleDetail) (pkKwargs (.text e.name)) = some url) :
    s.get cfg url = .found (.entry e) := by
  have hreply : ScheduleEntryViewSet.retrieve cfg.toSettings s.store.database e.name = .ok e := by
    rw [ScheduleEntryViewSet.retrieve, hs.loadEntry he]
    exact if_pos (hs.serializable e he)
  rw [get_entryUrl h]
  simp only [Site.retrieveEntry, lookup_pk, hreply]

/-! ### Recordings -/

theorem Site.mem_acquisitionsOf {rows : List ResultRow} : b ∈ s.acquisitionsOf rows ↔
    b ∈ s.store.acquisitions ∧ ∃ r ∈ rows, r.id = b.taskResult := by
  simp [Site.acquisitionsOf]

theorem Site.mem_resultsOf :
    r ∈ s.resultsOf name ↔ r ∈ s.store.results ∧ r.scheduleEntry = name := by
  simp [Site.resultsOf]

/-- An archive has the metadata of the acquisitions in their order, and the data that
their files hold. -/
def Site.Archived (cfg : ApiSettings Key) (s : Site) (acquisitions : List AcquisitionRow)
    (recordings : List Recording) : Prop :=
  List.Forall₂ (fun b recording => recording.metadata = b.metadata ∧
    s.store.archivedData cfg.fernet cfg.encryptionKey b = some recording.data)
    acquisitions recordings

/-- The acquisitions of stored results, when there are any, are found. -/
theorem Site.Sound.archive (hs : s.Sound cfg) {rows : List ResultRow}
    (hrows : rows ⊆ s.store.results) (hsome : s.acquisitionsOf rows ≠ []) (entryName : String) :
    ∃ recordings, s.archive cfg entryName (s.acquisitionsOf rows) = .found (.archive recordings) ∧
      s.Archived cfg (s.acquisitionsOf rows) recordings := by
  have heach : ∀ b ∈ s.acquisitionsOf rows, ∃ recording,
      s.store.archiveAcquisition cfg.fernet cfg.encryptionKey entryName
        (1 < (s.acquisitionsOf rows).length) b = some recording ∧ recording.metadata = b.metadata ∧
      s.store.archivedData cfg.fernet cfg.encryptionKey b = some recording.data := by
    intro b hb
    obtain ⟨hstored, r, hr, hid⟩ := Site.mem_acquisitionsOf.mp hb
    obtain ⟨data, hdata⟩ := Option.isSome_iff_exists.mp (hs.recordings b hstored)
    have hresult : b.taskResult ∈ s.store.results.map fun r => r.id :=
      List.mem_map.mpr ⟨r, hrows hr, hid⟩
    obtain ⟨row, hrow⟩ := Option.isSome_iff_exists.mp (Table.get?_isSome_iff.mpr hresult)
    have htask : s.store.taskIdOf b = some row.taskId := by
      rw [DataStore.taskIdOf, hrow, Option.map_some]
    have harchive : s.store.archiveAcquisition cfg.fernet cfg.encryptionKey entryName
        (1 < (s.acquisitionsOf rows).length) b = some ⟨DataStore.recordingName entryName
          (1 < (s.acquisitionsOf rows).length) row.taskId b.recordingId, b.metadata, data⟩ := by
      rw [DataStore.archiveAcquisition, hdata, Option.bind_some, htask, Option.map_some]
    exact ⟨_, harchive, rfl, hdata⟩
  have : Nonempty Recording := ⟨⟨"", ⟨"", none⟩, []⟩⟩
  choose! recording hrecording using heach
  refine ⟨(s.acquisitionsOf rows).map recording, ?_, ?_⟩
  · have hbuild : s.store.buildSigmfArchive cfg.fernet cfg.encryptionKey entryName
        (s.acquisitionsOf rows) = some ((s.acquisitionsOf rows).map recording) :=
      DataStore.mapM_eq_some_map fun b hb => (hrecording b hb).1
    rw [Site.archive, if_neg hsome, hbuild]
  · rw [Site.Archived, List.forall₂_map_right_iff, List.forall₂_same]
    exact fun b hb => (hrecording b hb).2

/-! ### Results and accounts -/

theorem Site.Sound.entry_of_result (hs : s.Sound cfg) (hr : r ∈ s.store.results) :
    ∃ e ∈ s.store.schedule, e.name = r.scheduleEntry := List.mem_map.mp (hs.references r hr)

/-- The links of a stored result. -/
theorem Site.Sound.resultLinks (hs : s.Sound cfg) (hr : r ∈ s.store.results) :
    ∃ links, s.resultLinks cfg r = some links ∧
      urlFor (.view .taskResultDetail) (resultKwargs r.scheduleEntry r.taskId) = some links.self ∧
      urlFor (.view .scheduleDetail) (pkKwargs (.text r.scheduleEntry)) = some links.scheduleEntry ∧
      links.data.length = (s.acquisitionsOf [r]).length ∧
      ∀ url ∈ links.data,
        urlFor (.view .taskResultArchive) (resultKwargs r.scheduleEntry r.taskId) = some url := by
  obtain ⟨e, he, hname⟩ := hs.entry_of_result hr
  have hslug := hs.slugs e he
  obtain ⟨self, hself⟩ :=
    instanceUrl_isSome (e := .view .taskResultDetail) "" hslug r.taskId (by decide)
  obtain ⟨entry, hentry⟩ := entryUrl_isSome hslug
  obtain ⟨archive, harchive⟩ :=
    instanceUrl_isSome (e := .view .taskResultArchive) "archive" hslug r.taskId (by decide)
  have hdata : (s.acquisitionsOf [r]).mapM (fun _ => urlFor (.view .taskResultArchive)
      (resultKwargs e.name r.taskId)) = some ((s.acquisitionsOf [r]).map fun _ => archive) := by
    rw [harchive]
    exact List.mapM_pure
  refine ⟨⟨self, entry, (s.acquisitionsOf [r]).map fun _ => archive⟩, ?_, ?_, ?_, by simp, ?_⟩
  · simp [Site.resultLinks, ← hname, hs.loadEntry he, Except.toOption, hself, hentry, hdata]
  · rw [← hname, hself]
  · rw [← hname, hentry]
  · intro url hurl
    obtain ⟨-, -, rfl⟩ := List.mem_map.mp hurl
    rw [← hname, harchive]

theorem Site.Sound.getResult (hs : s.Sound cfg) (hr : r ∈ s.store.results) :
    s.getResult [("version", .text "v1"), ("schedule_entry_name", .text r.scheduleEntry),
      ("task_id", .number r.taskId)] = some r := Table.get?_of_mem hs.keys hr

theorem Site.Sound.readsToken (hs : s.Sound cfg) (ha : a ∈ s.users) :
    s.readsToken cfg a = true := by
  unfold Site.readsToken
  cases hcfg : cfg.tokenAuthEnabled with
  | false => rfl
  | true => simpa using hs.tokens hcfg a ha

theorem Site.Sound.accountLinks (hs : s.Sound cfg) (ha : a ∈ s.users) :
    ∃ links, s.accountLinks cfg a = some links ∧
      urlFor (.view .userDetail) (pkKwargs (.number a.pk)) = some links.self ∧
      links.scheduleEntries.map (fun url => s.get cfg url) =
        (s.entriesOf a).map fun e => .found (.entry e) := by
  have hstored : ∀ e ∈ s.entriesOf a, e ∈ s.store.schedule := fun e he => List.mem_of_mem_filter he
  have hloads : (s.entriesOf a).all cfg.loads = true :=
    List.all_eq_true.mpr fun e he => hs.loads e (hstored e he)
  obtain ⟨self, hself⟩ := userUrl_isSome a.pk
  have hentries : ∀ entries : List ScheduleEntry, (∀ e ∈ entries, e ∈ s.store.schedule) →
      ∃ urls, entries.mapM (fun e => urlFor (.view .scheduleDetail) (pkKwargs (.text e.name))) =
        some urls ∧
      urls.map (fun url => s.get cfg url) = entries.map fun e => .found (.entry e) := by
    intro entries hentries
    induction entries with
    | nil => exact ⟨[], rfl, rfl⟩
    | cons e entries ih =>
      rw [List.forall_mem_cons] at hentries
      obtain ⟨urls, hurls, hget⟩ := ih hentries.2
      obtain ⟨url, hurl⟩ := entryUrl_isSome (hs.slugs e hentries.1)
      refine ⟨url :: urls, by simp [List.mapM_cons, hurl, hurls], ?_⟩
      rw [List.map_cons, List.map_cons, hget, hs.get_entry hentries.1 hurl]
  obtain ⟨urls, hurls, hget⟩ := hentries (s.entriesOf a) hstored
  refine ⟨⟨self, urls⟩, ?_, hself, hget⟩
  simp [Site.accountLinks, hloads, hs.readsToken ha, hself, hurls]

end Links

end ScosSensor
