import ScosSensor.Constraints

/-!
# Results in progress and finished results

A result is created before its action is called and says `in-progress` until its
finalization saves it for the first time. Such a result is always one that is
being executed, as long as no crash, no failed call and no text that cannot be
stored cuts an execution short.
A result that no execution has in hand is left alone by the process: it stays as
it is until it is deleted.
-/
namespace ScosSensor

open Runs

namespace Database

variable {db db' : Database} {self : Option ℕ} {tr : TaskResult} {r row : ResultRow}

/-- Under the row id that was written there is only what was written. -/
theorem eq_of_mem_superSave (hids : ∀ r ∈ db.results, r.id < db.nextId)
    (h : db.superSave self tr = .ok (row, db')) (hr : r ∈ db'.results) (hid : r.id = row.id) :
    r = row := by
  obtain hold | hnew := mem_of_mem_superSave h hr
  · obtain ⟨-, -, -, rfl⟩ | ⟨⟨-, hnext⟩ | ⟨-, hfree⟩, -⟩ := superSave_ok h
    · obtain ⟨-, hne⟩ | ⟨a, -, -, heq⟩ := Table.mem_update.mp hr
      · exact absurd hid hne
      · exact heq.symm
    · exact absurd (hid.trans hnext) (hids r hold).ne
    · exact absurd (hid ▸ List.mem_map_of_mem hold) hfree
  · exact hnew

/-- A save of a storable detail under a row id fails only when no row has it. -/
theorem superSave_some_error {id : ℕ} {err : Exc} (hdetail : tr.detail.storable = true)
    (h : db.superSave (some id) tr = .error err) : id ∉ db.results.map fun r => r.id := by
  unfold superSave at h
  rw [if_pos hdetail] at h
  dsimp only at h
  split_ifs at h with hid
  exact hid

end Database

/-- The stages up to the first save. -/
def Stage.beforeFirst : Stage → Bool
  | .evicting site => decide (site = .first)
  | .writing site => decide (site = .first)
  | .notifying => false
  | .counting => false

/-- The row id of a finalization that has not saved yet. -/
def Finalization.unsavedIds (f : Finalization) : List ℕ :=
  if f.stage.beforeFirst then [f.result.id] else []

def Pc.unsavedIds : Pc → List ℕ
  | .calling _ result _ => [result.id]
  | .acting _ result _ _ => [result.id]
  | .finalizing f _ => f.unsavedIds
  | _ => []

/-- The row ids of the results that are being executed and have not been saved since. -/
def Sys.unsavedIds (s : Sys) : List ℕ :=
  s.pc.unsavedIds ++ s.finalizations.flatMap Finalization.unsavedIds

namespace Scheduler

variable {cfg : Settings} {s t : Sys} {l : Label} {i : Input} {f f' : Finalization} {w w' : World}

/-- A finalization knows how its action ended, and can save it. -/
structure Finalization.Decided (f : Finalization) : Prop where
  status : f.result.status ≠ .inProgress
  detail : f.result.detail.storable = true

theorem decided_startFinalization (s : Sys) (result : ResultRow) (started finished : ℤ)
    {o : ActionOutcome} (ho : o.Recordable) {status : Status} {detail : PyText}
    (hcall : o.statusAndDetail = .ok (status, detail)) :
    Finalization.Decided (startFinalization s result started finished status detail) := by
  obtain ⟨rfl, text, htext, rfl⟩ := ActionOutcome.statusAndDetail_ok hcall
  obtain ⟨text', htext', hstorable⟩ := ho
  obtain rfl := Option.some.inj (htext.symm.trans htext')
  refine ⟨?_, hstorable⟩
  cases o <;> simp [startFinalization, finalResult, ActionOutcome.status]

theorem decided_afterCallback (hf : Finalization.Decided f) (post : Option Post)
    (outcome : CallbackOutcome) : Finalization.Decided (afterCallback f post outcome) := by
  unfold afterCallback notificationFailed
  split_ifs
  · exact ⟨hf.status, hf.detail⟩
  · cases outcome with
    | raised => exact ⟨by simp, hf.detail⟩
    | response ok =>
      cases ok with
      | true => exact ⟨hf.status, hf.detail⟩
      | false => exact ⟨by simp, hf.detail⟩

theorem FinalizeMove.decided (h : FinalizeMove cfg i f w (some f') w')
    (hf : Finalization.Decided f) : Finalization.Decided f' := by
  generalize hnext : some f' = next at h
  cases h with
  | evict site | write site =>
    rw [Option.some.inj hnext]
    exact ⟨hf.status, hf.detail⟩
  | retry err =>
    rw [Option.some.inj hnext]
    exact ⟨by simp [notificationFailed], hf.detail⟩
  | notify entry =>
    rw [Option.some.inj hnext]
    exact decided_afterCallback hf _ _
  | count => cases hnext

/-- What is in progress after a move of a finalization was so before, and when the
finalization is to save it, it still is. -/
theorem FinalizeMove.inProgress {next : Option Finalization} {r : ResultRow}
    (h : FinalizeMove cfg i f w next w') (hids : ∀ r ∈ w.db.results, r.id < w.db.nextId)
    (hf : Finalization.Decided f) (hr : r ∈ w'.db.results) (hprogress : r.status = .inProgress) :
    r ∈ w.db.results ∧
      (r.id ∈ f.unsavedIds → r.id ∈ next.toList.flatMap Finalization.unsavedIds) := by
  have hlate (hstage : f.stage.beforeFirst = false) :
      r.id ∈ f.unsavedIds → r.id ∈ next.toList.flatMap Finalization.unsavedIds := by
    simp [Finalization.unsavedIds, hstage]
  cases h with
  | evict site hstage =>
    refine ⟨Database.mem_of_mem_removeOldest hr, ?_⟩
    simp [Finalization.unsavedIds, hstage, Stage.beforeFirst]
  | write site row db hstage hsave =>
    have hrow : r ≠ row := by
      rintro rfl
      rw [Database.superSave_row hsave] at hprogress
      exact hf.status hprogress
    obtain hold | hnew := Database.mem_of_mem_superSave hsave hr
    · refine ⟨hold, ?_⟩
      intro hmem
      unfold Finalization.unsavedIds at hmem
      split_ifs at hmem
      · have hid : r.id = row.id :=
          (List.mem_singleton.mp hmem).trans (Database.superSave_id hsave).symm
        exact absurd (Database.eq_of_mem_superSave hids hsave hr hid) hrow
      · cases hmem
    · exact absurd hnew hrow
  | retry err hstage => exact ⟨hr, hlate (by simp [hstage, Stage.beforeFirst])⟩
  | notify entry hstage => exact ⟨hr, hlate (by simp [hstage, Stage.beforeFirst])⟩
  | count w' hstage hcount =>
    have hframe := countFailures_frame cfg f.status w
    rw [hcount] at hframe
    exact ⟨hframe.1 ▸ hr, hlate (by simp [hstage, Stage.beforeFirst])⟩

/-- A finalization that fails has saved before, or there is no result to be saved. -/
theorem FinalizeRaise.saved {err : Exc} {r : ResultRow} (h : FinalizeRaise cfg f w err w')
    (hf : Finalization.Decided f) (hr : r ∈ w.db.results) : r.id ∉ f.unsavedIds := by
  unfold Finalization.unsavedIds
  cases h with
  | write site err hstage hsite hsave =>
    split_ifs with hfirst
    · intro hmem
      rw [List.mem_singleton] at hmem
      exact Database.superSave_some_error hf.detail hsave (hmem ▸ List.mem_map_of_mem hr)
    · exact List.not_mem_nil
  | noEntry hstage => simp [hstage, Stage.beforeFirst]
  | count w' err hstage => simp [hstage, Stage.beforeFirst]

/-- The open finalizations are decided, and a stored result in progress is one that
is being executed. -/
structure Tidy (s : Sys) : Prop where
  inFlight : ∀ f ∈ s.finalizations, Finalization.Decided f
  finalizing : ∀ f tasks, s.pc = .finalizing f tasks → Finalization.Decided f
  progress : ∀ r ∈ s.db.results, r.status = .inProgress → r.id ∈ s.unsavedIds

/-- A step that does not cut an execution short: no crash, no failed call, and no
action whose text cannot be taken and stored. -/
def Completes (cfg : Settings) (s : Sys) : Label → Prop
  | .crash => False
  | .sched i =>
    match s.pc with
    | .calling task _ _ => (serializeEntry cfg s.db task.scheduleEntryName).isOk = true
    | .acting _ _ _ _ => i.action.Recordable
    | _ => True
  | _ => True

instance (cfg : Settings) (s : Sys) : DecidablePred (Completes cfg s)
  | .crash => .isFalse id
  | .sched i => by
    unfold Completes
    cases s.pc <;> infer_instance
  | .finalizer _ _ => .isTrue trivial
  | .measure _ => .isTrue trivial
  | .stop => .isTrue trivial
  | .post _ _ _ _ => .isTrue trivial
  | .read _ _ => .isTrue trivial
  | .write _ _ => .isTrue trivial
  | .deleteEntry _ => .isTrue trivial
  | .deleteResult _ => .isTrue trivial

/-- A step that writes no result and leaves the executions as they are. -/
theorem Tidy.of_same (hs : Tidy s) (hresults : ∀ r ∈ t.db.results, r ∈ s.db.results)
    (hpc : t.pc = s.pc) (hfinalizations : t.finalizations = s.finalizations) : Tidy t := by
  refine ⟨?_, ?_, ?_⟩
  · rw [hfinalizations]
    exact hs.inFlight
  · rw [hpc]
    exact hs.finalizing
  · intro r hr hprogress
    unfold Sys.unsavedIds
    rw [hpc, hfinalizations]
    exact hs.progress r (hresults r hr) hprogress

/-- A step of the thread between executions. -/
theorem Tidy.of_idle (hs : Tidy s) (hresults : ∀ r ∈ t.db.results, r ∈ s.db.results)
    (hfinalizations : t.finalizations = s.finalizations) (hbefore : s.pc.unsavedIds = [])
    (hpc : ∀ f tasks, t.pc ≠ .finalizing f tasks) : Tidy t := by
  refine ⟨?_, ?_, ?_⟩
  · rw [hfinalizations]
    exact hs.inFlight
  · intro f tasks h
    exact absurd h (hpc f tasks)
  · intro r hr hprogress
    have hmem := hs.progress r (hresults r hr) hprogress
    unfold Sys.unsavedIds at hmem ⊢
    rw [hbefore, List.nil_append] at hmem
    rw [hfinalizations]
    exact List.mem_append_right _ hmem

/-- A finalization in the thread moves on. -/
theorem Tidy.of_finalizing (hs : Tidy s) (hids : ∀ r ∈ s.db.results, r.id < s.db.nextId)
    {tasks : List PendingTask} {next : Option Finalization} (hpc : s.pc = .finalizing f tasks)
    (hmove : FinalizeMove cfg i f s.toWorld next w) (ht : t.toWorld = w)
    (hpc' : t.pc.unsavedIds = next.toList.flatMap Finalization.unsavedIds)
    (hnext : ∀ g tasks, t.pc = .finalizing g tasks → some g = next)
    (hfinalizations : t.finalizations = s.finalizations) : Tidy t := by
  have hdecided := hs.finalizing f tasks hpc
  refine ⟨?_, ?_, ?_⟩
  · rw [hfinalizations]
    exact hs.inFlight
  · intro g tasks hg
    exact (hnext g tasks hg ▸ hmove).decided hdecided
  · intro r hr hprogress
    rw [ht] at hr
    obtain ⟨hold, hkept⟩ := hmove.inProgress hids hdecided hr hprogress
    have hmem := hs.progress r hold hprogress
    unfold Sys.unsavedIds at hmem ⊢
    rw [hpc'] 
    rw [hpc, List.mem_append] at hmem
    rw [hfinalizations, List.mem_append]
    exact hmem.imp_left hkept

theorem schedMove_tidy (hs : Tidy s) (hids : ∀ r ∈ s.db.results, r.id < s.db.nextId)
    (hl : Completes cfg s (.sched i)) (h : SchedMove cfg i s t) : Tidy t := by
  cases h with
  | raise err hraise =>
    refine hs.of_idle (fun _ hr => hr) rfl ?_ fun _ _ h => by cases h
    cases hraise with
    | load hpc =>
      rcases hpc with hpc | hpc <;> rw [hpc] <;> rfl
    | call task result tasks err hpc hserialize =>
      simp [Completes, hpc, hserialize, Except.isOk, Except.toBool] at hl
    | act task result started tasks err hpc hcall =>
      have hrecordable : i.action.Recordable := by simpa [Completes, hpc] using hl
      obtain ⟨text, htext, -⟩ := hrecordable
      have hnone := ActionOutcome.statusAndDetail_error_iff.mp ⟨err, hcall⟩
      rw [Option.mem_def.mp htext] at hnone
      cases hnone
    | reset e todo hpc | take e todo queue hpc | cancel taskTime e todo queue hpc
    | number taskTime e todo queue hpc | fetch task tasks err hpc | create task tasks err hpc =>
      rw [hpc]
      rfl
  | jump pc hjump =>
    refine hs.of_idle (fun _ hr => hr) rfl ?_ ?_
    · cases hjump <;> simp_all [Pc.unsavedIds]
    · intro f tasks h
      cases hjump <;> cases h
  | reset e todo last hpc | read hpc | take e todo queue hpc | number taskTime e todo queue hpc
  | fetch task tasks e hpc =>
    exact hs.of_idle (fun _ hr => hr) rfl (by rw [hpc]; rfl) fun _ _ h => by cases h
  | keep taskTime e todo queue hpc | cancel taskTime e todo queue hpc =>
    refine hs.of_idle (fun _ hr => hr) rfl (by rw [hpc]; rfl) ?_
    intro f tasks h
    cases taskTime <;> cases h
  | evict task tasks hpc =>
    exact hs.of_idle (fun _ hr => Database.mem_of_mem_removeOldest hr) rfl (by rw [hpc]; rfl)
      fun _ _ h => by cases h
  | create task tasks result db hpc hsave =>
    refine ⟨hs.inFlight, (fun _ _ h => by cases h), ?_⟩
    intro r hr hprogress
    obtain hold | rfl := Database.mem_of_mem_superSave hsave hr
    · have hmem := hs.progress r hold hprogress
      unfold Sys.unsavedIds at hmem ⊢
      rw [hpc] at hmem
      exact List.mem_append_right _ hmem
    · exact List.mem_append_left _ (List.mem_singleton_self r.id)
  | call task result tasks hpc =>
    refine ⟨hs.inFlight, (fun _ _ h => by cases h), ?_⟩
    intro r hr hprogress
    have hmem := hs.progress r hr hprogress
    unfold Sys.unsavedIds at hmem ⊢
    rwa [hpc] at hmem
  | spawn task result started tasks hpc hasync status detail hcall =>
    have hrecordable : i.action.Recordable := by simpa [Completes, hpc] using hl
    refine ⟨?_, (fun _ _ h => by cases h), ?_⟩
    · intro f hf
      rcases List.mem_append.mp hf with hf | hf
      · exact hs.inFlight f hf
      · rw [List.mem_singleton.mp hf]
        exact decided_startFinalization s result started i.time hrecordable hcall
    · intro r hr hprogress
      have hmem := hs.progress r hr hprogress
      unfold Sys.unsavedIds at hmem ⊢
      rw [hpc] at hmem
      simpa [Pc.unsavedIds, startFinalization, finalResult, Finalization.unsavedIds,
        Stage.beforeFirst, or_comm] using hmem
  | finish task result started tasks hpc hsync status detail hcall =>
    have hrecordable : i.action.Recordable := by simpa [Completes, hpc] using hl
    refine ⟨hs.inFlight, ?_, ?_⟩
    · intro f tasks' h
      rw [← (Pc.finalizing.inj h).1]
      exact decided_startFinalization s result started i.time hrecordable hcall
    · intro r hr hprogress
      have hmem := hs.progress r hr hprogress
      unfold Sys.unsavedIds at hmem ⊢
      rw [hpc] at hmem
      exact hmem
  | finalize f f' tasks w hpc hmove =>
    refine hs.of_finalizing hids hpc hmove rfl (by simp [Pc.unsavedIds]) ?_ rfl
    intro g tasks' h
    rw [(Pc.finalizing.inj h).1]
  | finalized f tasks w hpc hmove =>
    exact hs.of_finalizing hids hpc hmove rfl (by simp [Pc.unsavedIds]) (fun _ _ h => by cases h) rfl
  | finalizeRaise f tasks err w hpc hraise =>
    refine ⟨hs.inFlight, (fun _ _ h => by cases h), ?_⟩
    intro r hr hprogress
    have hold : r ∈ s.db.results := hraise.frame.1 ▸ hr
    have hmem := hs.progress r hold hprogress
    unfold Sys.unsavedIds at hmem ⊢
    rw [hpc, List.mem_append] at hmem
    exact List.mem_append_right _ (hmem.resolve_left (hraise.saved (hs.finalizing f tasks hpc) hold))

/-- A finalization in a thread of its own moves on or ends. -/
theorem Tidy.of_inFlight (hs : Tidy s) (hids : ∀ r ∈ s.db.results, r.id < s.db.nextId)
    {k : ℕ} {next : Option Finalization} (hf : s.finalizations[k]? = some f)
    (hmove : FinalizeMove cfg i f s.toWorld next w) (ht : t.toWorld = w) (hpc : t.pc = s.pc)
    (hnew : ∀ g ∈ t.finalizations, g ∈ s.finalizations ∨ some g = next)
    (hkept : ∀ j ≠ k, ∀ g, s.finalizations[j]? = some g → g ∈ t.finalizations)
    (hnext : ∀ g, next = some g → g ∈ t.finalizations) : Tidy t := by
  have hdecided := hs.inFlight f (List.mem_of_getElem? hf)
  refine ⟨?_, ?_, ?_⟩
  · intro g hg
    obtain hold | hmoved := hnew g hg
    · exact hs.inFlight g hold
    · exact (hmoved ▸ hmove).decided hdecided
  · rw [hpc]
    exact hs.finalizing
  · intro r hr hprogress
    rw [ht] at hr
    obtain ⟨hold, hown⟩ := hmove.inProgress hids hdecided hr hprogress
    have hmem := hs.progress r hold hprogress
    unfold Sys.unsavedIds at hmem ⊢
    rw [List.mem_append] at hmem
    rw [hpc, List.mem_append]
    refine hmem.imp_right ?_
    intro hflight
    obtain ⟨g, hg, hid⟩ := List.mem_flatMap.mp hflight
    by_cases hsame : g = f
    · obtain ⟨f', hf', hid'⟩ := List.mem_flatMap.mp (hown (hsame ▸ hid))
      exact List.mem_flatMap.mpr ⟨f', hnext f' (Option.mem_toList.mp hf'), hid'⟩
    · obtain ⟨j, hj⟩ := List.mem_iff_getElem?.mp hg
      refine List.mem_flatMap.mpr ⟨g, hkept j ?_ g hj, hid⟩
      rintro rfl
      exact hsame (Option.some.inj (hj.symm.trans hf))

theorem Tidy.step (hs : Tidy s) (hids : ∀ r ∈ s.db.results, r.id < s.db.nextId)
    (hl : Completes cfg s l) (h : step cfg s l = some t) : Tidy t := by
  cases step_cases h with
  | sched i s' hmove => exact schedMove_tidy hs hids hl hmove
  | finalizer k i f f' w hf hmove =>
    refine hs.of_inFlight hids hf hmove rfl rfl ?_ ?_ ?_
    · intro g hg
      obtain hold | rfl := List.mem_or_eq_of_mem_set hg
      · exact .inl hold
      · exact .inr rfl
    · intro j hj g hg
      refine List.mem_of_getElem? (i := j) ?_
      rw [List.getElem?_set_ne hj.symm]
      exact hg
    · intro g hg
      obtain rfl := Option.some.inj hg
      have hlt : k < s.finalizations.length := (List.getElem?_eq_some_iff.mp hf).1
      exact List.mem_set hlt f'
  | finalizerEnd k i f w hf hmove =>
    refine hs.of_inFlight hids hf hmove rfl rfl ?_ ?_ fun _ h => nomatch h
    · intro g hg
      exact .inl (List.mem_of_mem_eraseIdx hg)
    · intro j hj g hg
      exact List.mem_eraseIdx_iff_getElem?.mpr ⟨j, hj, hg⟩
  | finalizerRaise k i f err w hf hraise =>
    refine ⟨fun g hg => hs.inFlight g (List.mem_of_mem_eraseIdx hg), hs.finalizing, ?_⟩
    intro r hr hprogress
    have hold : r ∈ s.db.results := hraise.frame.1 ▸ hr
    have hmem := hs.progress r hold hprogress
    unfold Sys.unsavedIds at hmem ⊢
    rw [List.mem_append] at hmem ⊢
    refine hmem.imp_right ?_
    intro hflight
    obtain ⟨g, hg, hid⟩ := List.mem_flatMap.mp hflight
    obtain ⟨j, hj⟩ := List.mem_iff_getElem?.mp hg
    refine List.mem_flatMap.mpr ⟨g, List.mem_eraseIdx_iff_getElem?.mpr ⟨j, ?_, hj⟩, hid⟩
    rintro rfl
    obtain rfl := Option.some.inj (hj.symm.trans hf)
    exact hraise.saved (hs.inFlight g (List.mem_of_getElem? hf)) hold hid
  | measure recordingId =>
    refine hs.of_same ?_ rfl rfl
    intro r hr
    rwa [Database.storeAcquisition_results] at hr
  | crash => exact hl.elim
  | write k now q hq =>
    refine hs.of_same ?_ rfl rfl
    intro r hr
    dsimp only at hr
    unfold Database.saveWhole at hr
    split_ifs at hr <;> exact hr
  | deleteEntry name db hremove =>
    obtain ⟨-, -, rfl⟩ := Database.removeEntry_some hremove
    exact hs.of_same (fun _ hr => hr) rfl rfl
  | deleteResult id hid =>
    exact hs.of_same (fun _ hr => (Database.mem_deleteResult.mp hr).1) rfl rfl
  | _ => exact hs.of_same (fun _ hr => hr) rfl rfl

/-- The row ids of the open results. -/
def openIds (s : Sys) : List ℕ := s.openResults.map fun r => r.id

theorem mem_openIds {id : ℕ} : id ∈ openIds s ↔
    (∃ r ∈ s.pc.running, r.id = id) ∨ ∃ f ∈ s.finalizations, f.result.id = id := by
  simp only [openIds, Sys.openResults, List.map_append, List.mem_append, List.mem_map, List.map_map,
    Function.comp_apply]

/-- A result is opened under a row id that was not used before. -/
theorem schedMove_openIds (h : SchedMove cfg i s t) :
    ∀ id ∈ openIds t, id ∈ openIds s ∨ id = s.db.nextId := by
  have hkeep (hrunning : ∀ r ∈ t.pc.running, r.id ∈ openIds s ∨ r.id = s.db.nextId)
      (hfinalizations : ∀ f ∈ t.finalizations, f.result.id ∈ openIds s) :
      ∀ id ∈ openIds t, id ∈ openIds s ∨ id = s.db.nextId := by
    intro id hid
    obtain ⟨r, hr, rfl⟩ | ⟨f, hf, rfl⟩ := mem_openIds.mp hid
    · exact hrunning r hr
    · exact .inl (hfinalizations f hf)
  have hflight : ∀ f ∈ s.finalizations, f.result.id ∈ openIds s :=
    fun f hf => mem_openIds.mpr (.inr ⟨f, hf, rfl⟩)
  have hrun {r : ResultRow} (hr : r ∈ s.pc.running) : r.id ∈ openIds s :=
    mem_openIds.mpr (.inl ⟨r, hr, rfl⟩)
  cases h with
  | create task tasks result db hpc hsave =>
    refine hkeep ?_ hflight
    intro r hr
    rw [List.mem_singleton.mp hr]
    exact .inr (Database.superSave_new hsave).1
  | call task result tasks hpc =>
    refine hkeep ?_ hflight
    intro r hr
    exact .inl (hrun (hpc ▸ hr))
  | spawn task result started tasks hpc =>
    refine hkeep (fun r hr => (List.not_mem_nil hr).elim) ?_
    intro f hf
    rcases List.mem_append.mp hf with hf | hf
    · exact hflight f hf
    · rw [List.mem_singleton.mp hf]
      have hrunning : result ∈ s.pc.running := hpc ▸ List.mem_singleton_self result
      show result.id ∈ openIds s
      exact hrun hrunning
  | finish task result started tasks hpc =>
    refine hkeep ?_ hflight
    intro r hr
    rw [List.mem_singleton.mp hr]
    have hrunning : result ∈ s.pc.running := hpc ▸ List.mem_singleton_self result
    show result.id ∈ openIds s ∨ result.id = s.db.nextId
    exact .inl (hrun hrunning)
  | finalize f f' tasks w hpc hmove =>
    refine hkeep ?_ hflight
    intro r hr
    rw [List.mem_singleton.mp hr, hmove.result.1]
    exact .inl (hrun (hpc ▸ List.mem_singleton_self f.result))
  | jump pc hjump =>
    refine hkeep ?_ hflight
    intro r hr
    exact .inl (hrun (hjump.running ▸ hr))
  | keep taskTime e todo queue hpc | cancel taskTime e todo queue hpc =>
    refine hkeep ?_ hflight
    intro r hr
    cases taskTime <;> cases hr
  | _ => exact hkeep (fun r hr => (List.not_mem_nil hr).elim) hflight

theorem step_openIds (h : step cfg s l = some t) :
    ∀ id ∈ openIds t, id ∈ openIds s ∨ id = s.db.nextId := by
  have hsub (hrunning : ∀ r ∈ t.pc.running, r ∈ s.pc.running)
      (hfinalizations : ∀ f ∈ t.finalizations, f.result.id ∈ openIds s) :
      ∀ id ∈ openIds t, id ∈ openIds s ∨ id = s.db.nextId := by
    intro id hid
    obtain ⟨r, hr, rfl⟩ | ⟨f, hf, rfl⟩ := mem_openIds.mp hid
    · exact .inl (mem_openIds.mpr (.inl ⟨r, hrunning r hr, rfl⟩))
    · exact .inl (hfinalizations f hf)
  have hflight : ∀ f ∈ s.finalizations, f.result.id ∈ openIds s :=
    fun f hf => mem_openIds.mpr (.inr ⟨f, hf, rfl⟩)
  cases step_cases h with
  | sched i s' hmove => exact schedMove_openIds hmove
  | finalizer k i f f' w hf hmove =>
    refine hsub (fun _ hr => hr) ?_
    intro g hg
    obtain hold | rfl := List.mem_or_eq_of_mem_set hg
    · exact hflight g hold
    · rw [hmove.result.1]
      exact hflight f (List.mem_of_getElem? hf)
  | finalizerEnd k i f w hf =>
    exact hsub (fun _ hr => hr) fun g hg => hflight g (List.mem_of_mem_eraseIdx hg)
  | finalizerRaise k i f err w hf =>
    exact hsub (fun _ hr => hr) fun g hg => hflight g (List.mem_of_mem_eraseIdx hg)
  | crash => exact hsub (fun _ hr => nomatch hr) fun _ hf => nomatch hf
  | _ => exact hsub (fun _ hr => hr) hflight

/-- What a step writes to the results: it goes to a new row or to that of an open result. -/
theorem tableWrite_results {db : Database} (h : TableWrite s db) :
    ∀ r ∈ db.results, r ∈ s.db.results ∨ r.id ∈ openIds s ∨ r.id = s.db.nextId := by
  intro r hr
  cases h with
  | evict => exact .inl (Database.mem_of_mem_removeOldest hr)
  | insert tr row _ hsave =>
    obtain hold | rfl := Database.mem_of_mem_superSave hsave hr
    · exact .inl hold
    · exact .inr (.inr (Database.superSave_new hsave).1)
  | save o tr row _ hopen hkey hsave =>
    obtain hold | rfl := Database.mem_of_mem_superSave hsave hr
    · exact .inl hold
    · rw [Database.superSave_id hsave]
      exact .inr (.inl (List.mem_map_of_mem hopen))
  | record key recordingId =>
    rw [Database.storeAcquisition_results] at hr
    exact .inl hr
  | whole e =>
    unfold Database.saveWhole at hr
    split_ifs at hr <;> exact .inl hr
  | removeEntry name _ hremove =>
    obtain ⟨-, -, rfl⟩ := Database.removeEntry_some hremove
    exact .inl hr
  | deleteResult id => exact .inl (Database.mem_deleteResult.mp hr).1
  | _ => exact .inl hr

/-- A row id is used up, no execution has its result in hand, and under it there is
the result `r` or none. -/
structure Settled (r : ResultRow) (s : Sys) : Prop where
  used : r.id < s.db.nextId
  closed : r.id ∉ openIds s
  same : ∀ r' ∈ s.db.results, r'.id = r.id → r' = r

theorem Settled.step {r : ResultRow} (hs : Settled r s) (h : step cfg s l = some t) :
    Settled r t := by
  refine ⟨hs.used.trans_le (step_onward h).1, ?_, ?_⟩
  · intro hid
    obtain hold | hnew := step_openIds h r.id hid
    · exact hs.closed hold
    · exact hs.used.ne hnew
  · intro r' hr' hid
    obtain hold | hopen | hnew := tableWrite_results (step_tableWrite h) r' hr'
    · exact hs.same r' hold hid
    · exact absurd (hid ▸ hopen) hs.closed
    · exact absurd (hid.symm.trans hnew) hs.used.ne

/-- From any state of any run on, a result that no execution has in hand stays as it
is or is deleted. So does every result of an earlier process, finished or not. -/
theorem finished_results_kept (cfg : Settings) (db : Database) (hdb : db.Constrained)
    (ls ms : List Label) (s t : Sys) (hrun : exec (step cfg) { db := db } ls = some s)
    (r : ResultRow) (hr : r ∈ s.db.results) (hclosed : r.id ∉ openIds s)
    (hlater : exec (step cfg) s ms = some t) :
    ∀ r' ∈ t.db.results, r'.id = r.id → r' = r := by
  have hs := (bound_run hdb hrun).tables
  have hsettled : Settled r s :=
    ⟨hs.fresh r hr, hclosed, fun r' hr' hid => List.inj_on_of_nodup_map hs.ids hr' hr hid⟩
  exact (exec_invariant (fun _ _ _ hs _ h => hs.step h) hsettled
    (Along.of_forall (fun _ _ => trivial) s ms) hlater).same

/-- The process crashes while the action of the only task runs. -/
def crashInAction : List Label := List.replicate 13 (.sched {}) ++ [.crash]

/-- The result is still in progress when the next process has gone through its loops. -/
theorem finished_results_kept_crash :
    ∃ s t, exec (step inThread) { db := oneDue } crashInAction = some s ∧
      exec (step inThread) s (List.replicate 4 (.sched {})) = some t ∧
      t.db.results.map (fun r => r.id) = [1] ∧
      ∀ r ∈ t.db.results, r.id = 1 → r.status = .inProgress := by
  have hend : ((exec (step inThread) { db := oneDue } crashInAction).bind fun s =>
      (exec (step inThread) s (List.replicate 4 (.sched {}))).map fun t =>
        (s.db.results, openIds s, t.db.results.map fun r => r.id)) =
      some ([⟨{ scheduleEntry := "sweep", taskId := 1 }, 1⟩], [], [1]) := by decide
  obtain ⟨s, hs, hend⟩ := Option.bind_eq_some_iff.mp hend
  obtain ⟨t, ht, hend⟩ := Option.map_eq_some_iff.mp hend
  simp only [Prod.mk.injEq] at hend
  obtain ⟨hresults, hnone, hids⟩ := hend
  refine ⟨s, t, hs, ht, hids, ?_⟩
  intro r hr hid
  rw [finished_results_kept inThread oneDue constrained_oneDue _ _ s t hs
    ⟨{ scheduleEntry := "sweep", taskId := 1 }, 1⟩ (by simp [hresults]) (by simp [hnone]) ht r hr hid]

end Scheduler

end ScosSensor
