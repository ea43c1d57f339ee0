import ScosSensor.HealthMarks
import Mathlib.Data.Finset.Sort
import Mathlib.Data.String.Basic

/-!
# Restarts of unhealthy containers

The loop of the autoheal script: a file for every container that was found
unhealthy, and a restart request in every turn until one succeeds. Then the same
loop beside the container of the API, its health check and the process in it:
whatever steps come between, a scheduler that executes no more tasks is restarted
once a check, a look and a request have come by, and a healthy one never is.
-/
namespace ScosSensor.Autoheal

open Latches

/-- A container in the answer to `GET /containers/json`. -/
structure Listed where
  id : String
  labels : List (String × String) := []
  deriving Repr, DecidableEq

/-- What the daemon answers in one turn of the loop: the containers, the health
status of each, and whether the request for a restart succeeds. -/
structure Answers where
  containers : List Listed
  health : String → String
  restart : String → Bool

/-- `${AUTOHEAL_CONTAINER_LABEL:=autoheal}`. -/
def labelName (label : Option String) : String := (label.filter fun l => l ≠ "").getD "autoheal"

/-- The ids of the containers that are looked after. -/
def selector (label : Option String) (containers : List Listed) : List String :=
  if label = some "all" then containers.map Listed.id
  else (containers.filter fun c => c.labels.lookup (labelName label) = some "true").map Listed.id

/-- `touch "$TMP_DIR/$CONTAINER"` when the container is unhealthy. -/
def look (health id : String) (dir : Finset String) : Finset String :=
  if health = "unhealthy" then insert id dir else dir

/-- `rm "$TMP_DIR/$CONTAINER"` when the request succeeds. -/
def settle (succeeded : Bool) (id : String) (dir : Finset String) : Finset String :=
  if succeeded then dir.erase id else dir

/-- One turn of the loop: the requests that it makes, and the files that it leaves. -/
def sweep (label : Option String) (dir : Finset String) (a : Answers) :
    List String × Finset String :=
  let found := (selector label a.containers).foldl (fun dir id => look (a.health id) id dir) dir
  let requests := found.sort
  (requests, requests.foldl (fun dir id => settle (a.restart id) id dir) found)

/-- A turn of the loop. When an answer cannot be read the script ends, and it is
started again with an empty directory. -/
inductive Turn where
  | sweep (a : Answers)
  | exit

/-- The files after a turn. -/
def dirAfter (label : Option String) (dir : Finset String) : Turn → Finset String
  | .sweep a => (sweep label dir a).2
  | .exit => ∅

/-- The container is looked after, and the turn finds it unhealthy. -/
def finds (label : Option String) (id : String) : Turn → Bool
  | .sweep a => decide (id ∈ selector label a.containers) && decide (a.health id = "unhealthy")
  | .exit => false

/-- The turn restarts the container if it has a file for it, or loses the files. -/
def settles (id : String) : Turn → Bool
  | .sweep a => a.restart id
  | .exit => true

variable {label : Option String} {id : String} {dir : Finset String} {a : Answers}

theorem mem_look {health other : String} :
    id ∈ look health other dir ↔ id ∈ dir ∨ (id = other ∧ health = "unhealthy") := by
  unfold look
  split_ifs with h
  · simp [h, or_comm]
  · simp [h]

theorem mem_settle {succeeded : Bool} {other : String} :
    id ∈ settle succeeded other dir ↔ id ∈ dir ∧ ¬ (id = other ∧ succeeded = true) := by
  unfold settle
  cases succeeded with
  | false => simp
  | true => simp [and_comm]

/-- The first loop of a turn. -/
theorem mem_foldl_look (health : String → String) (ids : List String) :
    id ∈ ids.foldl (fun dir id => look (health id) id dir) dir ↔
      id ∈ dir ∨ (id ∈ ids ∧ health id = "unhealthy") := by
  induction ids generalizing dir with
  | nil => simp
  | cons x ids ih =>
    rw [List.foldl_cons, ih, mem_look, List.mem_cons]
    constructor
    · rintro ((h | ⟨rfl, h⟩) | ⟨h, h'⟩)
      · exact .inl h
      · exact .inr ⟨.inl rfl, h⟩
      · exact .inr ⟨.inr h, h'⟩
    · rintro (h | ⟨rfl | h, h'⟩)
      · exact .inl (.inl h)
      · exact .inl (.inr ⟨rfl, h'⟩)
      · exact .inr ⟨h, h'⟩

/-- The second loop of a turn. -/
theorem mem_foldl_settle (restart : String → Bool) (ids : List String) :
    id ∈ ids.foldl (fun dir id => settle (restart id) id dir) dir ↔
      id ∈ dir ∧ ¬ (id ∈ ids ∧ restart id = true) := by
  induction ids generalizing dir with
  | nil => simp
  | cons x ids ih =>
    rw [List.foldl_cons, ih, mem_settle, List.mem_cons]
    constructor
    · rintro ⟨⟨h, hx⟩, hids⟩
      refine ⟨h, ?_⟩
      rintro ⟨rfl | hmem, hok⟩
      · exact hx ⟨rfl, hok⟩
      · exact hids ⟨hmem, hok⟩
    · rintro ⟨h, hids⟩
      refine ⟨⟨h, ?_⟩, fun hmem => hids ⟨.inr hmem.1, hmem.2⟩⟩
      rintro ⟨rfl, hok⟩
      exact hids ⟨.inl rfl, hok⟩

theorem mem_requests : id ∈ (sweep label dir a).1 ↔
    id ∈ dir ∨ (id ∈ selector label a.containers ∧ a.health id = "unhealthy") := by
  simp only [sweep, Finset.mem_sort, mem_foldl_look]

/-- The file of a container is a latch. -/
theorem mem_dirAfter (t : Turn) :
    decide (id ∈ dirAfter label dir t) =
      ((decide (id ∈ dir) || finds label id t) && !settles id t) := by
  cases t with
  | exit => simp [dirAfter, settles]
  | sweep a =>
    have hdir : id ∈ dirAfter label dir (.sweep a) ↔
        (id ∈ dir ∨ (id ∈ selector label a.containers ∧ a.health id = "unhealthy")) ∧
          ¬ a.restart id = true := by
      simp only [dirAfter, sweep, mem_foldl_settle, Finset.mem_sort, mem_foldl_look]
      tauto
    rw [Bool.eq_iff_iff]
    simp only [decide_eq_true_eq, hdir, finds, settles, Bool.and_eq_true, Bool.or_eq_true,
      Bool.not_eq_true', Bool.not_eq_true]

theorem mem_foldl_dirAfter (turns : List Turn) :
    decide (id ∈ turns.foldl (dirAfter label) dir) =
      latched (finds label id) (settles id) (decide (id ∈ dir)) turns := by
  induction turns generalizing dir with
  | nil => rfl
  | cons t turns ih => rw [List.foldl_cons, ih, mem_dirAfter, latched_cons]

/-- After any turns of the loop, whatever the daemon has answered, a turn asks for
the restart of exactly the containers that it finds unhealthy, or that an earlier
turn has found so when no request has succeeded and no turn has failed since. It
asks for each of them once. -/
theorem requests_iff (label : Option String) (turns : List Turn) (a : Answers) :
    (sweep label (turns.foldl (dirAfter label) ∅) a).1.Nodup ∧
      ∀ id, id ∈ (sweep label (turns.foldl (dirAfter label) ∅) a).1 ↔
        finds label id (.sweep a) = true ∨ SetSince (finds label id) (settles id) turns := by
  refine ⟨Finset.sort_nodup _ _, ?_⟩
  intro id
  have hold : id ∈ turns.foldl (dirAfter label) ∅ ↔
      SetSince (finds label id) (settles id) turns := by
    have hlatch : decide (id ∈ turns.foldl (dirAfter label) ∅) =
        latched (finds label id) (settles id) false turns :=
      (mem_foldl_dirAfter turns).trans (by simp)
    rw [← latched_false_iff, ← hlatch, decide_eq_true_eq]
  rw [mem_requests, hold, or_comm]
  simp [finds]

/-! ### The loop beside the container of the API -/

/-- `State.Health.Status` of the container, which has one retry: a failed test makes
it unhealthy and a start makes it starting. -/
inductive Health where
  | starting
  | healthy
  | unhealthy
  deriving Repr, DecidableEq

def Health.text : Health → String
  | .starting => "starting"
  | .healthy => "healthy"
  | .unhealthy => "unhealthy"

/-- The container, its status, the directory of the loop and the number of restarts
that the loop has brought about. -/
structure Deployment where
  api : Container
  status : Health := .starting
  dir : Finset String := ∅
  restarts : ℕ := 0

/-- How a request for a restart ends: it succeeds, it fails, or the container is
restarted and the answer gets lost. -/
inductive Request where
  | succeeds
  | fails
  | unanswered
  deriving Repr, DecidableEq

/-- Who takes the next step: the container, its health check, or the loop, which is
at the container in its first or second half or ends. -/
inductive Step where
  | container (l : ContainerLabel)
  | check
  | look
  | request (r : Request)
  | exit
  deriving Repr, DecidableEq

/-- One step of the deployment of the container `id`. -/
def deploymentStep (cfg : Settings) (id : String) (d : Deployment) : Step → Option Deployment
  | .container l =>
    (Scheduler.containerStep cfg true d.api l).map fun api =>
      { d with api, status := if l = .process .crash then .starting else d.status }
  | .check => some { d with status := if d.api.files.test then .healthy else .unhealthy }
  | .look => some { d with dir := look d.status.text id d.dir }
  | .request r =>
    if id ∈ d.dir ∧ r ≠ .fails then
      (Scheduler.containerStep cfg true d.api (.process .crash)).map fun api =>
        { d with
          api, status := .starting, restarts := d.restarts + 1
          dir := settle (decide (r = .succeeds)) id d.dir }
    else some d
  | .exit => some { d with dir := ∅ }

section Deployment

open Runs Scheduler

variable {cfg : Settings} {d d' u : Deployment} {l : Step} {faulted : Bool}

/-- The health check fails until the process is started again: the signal analyzer is
marked, or the thread has begun and cannot remove the other mark. -/
def Failing (d : Deployment) : Prop :=
  d.api.files.sdrUnhealthy = true ∨ (d.api.sys.pc ≠ .starting ∧ d.api.files.test = false)

theorem Failing.test (hd : Failing d) : d.api.files.test = false :=
  hd.elim (fun hmark => HealthFiles.test_eq_false.mpr (.inl hmark)) And.right

theorem Failing.step {l : ContainerLabel} {api : Container} (hd : Failing d)
    (hl : l ≠ .process .crash) (h : containerStep cfg true d.api l = some api) (status : Health) :
    Failing { d with api, status } :=
  hd.imp (fun hmark => sdrUnhealthy_step hmark hl h) fun hd => test_fails_step hd.1 hd.2 hl h

/-- The loop has restarted the container more than `n` times, or the health check
fails, has been seen to fail (`seen`), and the loop has a file (`filed`). -/
def Ailing (id : String) (n : ℕ) (seen filed : Prop) (d : Deployment) : Prop :=
  n < d.restarts ∨
    (Failing d ∧ (seen → d.status = .unhealthy) ∧ (filed → id ∈ d.dir))

theorem restarts_le (h : deploymentStep cfg id d l = some d') : d.restarts ≤ d'.restarts := by
  cases l with
  | container l =>
    obtain ⟨api, -, rfl⟩ := Option.map_eq_some_iff.mp h
    exact le_rfl
  | request r =>
    simp only [deploymentStep] at h
    split_ifs at h
    · obtain ⟨api, -, rfl⟩ := Option.map_eq_some_iff.mp h
      exact Nat.le_succ _
    · exact Option.some.inj h ▸ le_rfl
  | check | look | exit =>
    obtain rfl := Option.some.inj h
    exact le_rfl

theorem Ailing.step {n : ℕ} {seen filed : Prop} (hd : Ailing id n seen filed d)
    (hn : n ≤ d.restarts) (hstart : l ≠ .container (.process .crash)) (hexit : filed → l ≠ .exit)
    (h : deploymentStep cfg id d l = some d') : Ailing id n seen filed d' := by
  cases l with
  | container l =>
    obtain ⟨api, hapi, rfl⟩ := Option.map_eq_some_iff.mp h
    have hl : l ≠ .process .crash := fun heq => hstart (heq ▸ rfl)
    refine hd.imp_right ?_
    rintro ⟨hfailing, hseen, hfiled⟩
    refine ⟨hfailing.step hl hapi _, ?_, hfiled⟩
    simpa [hl] using hseen
  | check =>
    obtain rfl := Option.some.inj h
    refine hd.imp_right ?_
    rintro ⟨hfailing, -, hfiled⟩
    exact ⟨hfailing, fun _ => by simp [hfailing.test], hfiled⟩
  | look =>
    obtain rfl := Option.some.inj h
    refine hd.imp_right ?_
    rintro ⟨hfailing, hseen, hfiled⟩
    exact ⟨hfailing, hseen, fun hf => mem_look.mpr (.inl (hfiled hf))⟩
  | request r =>
    simp only [deploymentStep] at h
    split_ifs at h with hmade
    · obtain ⟨api, -, rfl⟩ := Option.map_eq_some_iff.mp h
      exact .inl (Nat.lt_succ_of_le hn)
    · exact Option.some.inj h ▸ hd
  | exit =>
    obtain rfl := Option.some.inj h
    refine hd.imp_right ?_
    rintro ⟨hfailing, hseen, -⟩
    exact ⟨hfailing, hseen, fun hf => absurd rfl (hexit hf)⟩

theorem Ailing.run {n : ℕ} {seen filed : Prop} {ls : List Step} (hd : Ailing id n seen filed d)
    (hn : n ≤ d.restarts) (hstart : .container (.process .crash) ∉ ls) (hexit : filed → .exit ∉ ls)
    (hrun : exec (deploymentStep cfg id) d ls = some u) :
    Ailing id n seen filed u ∧ n ≤ u.restarts := by
  have hstep : ∀ d l d', Ailing id n seen filed d ∧ n ≤ d.restarts →
      l ≠ .container (.process .crash) ∧ (filed → l ≠ .exit) →
      deploymentStep cfg id d l = some d' → Ailing id n seen filed d' ∧ n ≤ d'.restarts :=
    fun d l d' hd hl h => ⟨hd.1.step hd.2 hl.1 hl.2 h, hd.2.trans (restarts_le h)⟩
  refine exec_invariant hstep ⟨hd, hn⟩ (Along.of_forall_mem ?_) hrun
  intro l hl _
  exact ⟨fun heq => hstart (heq ▸ hl), fun hf heq => hexit hf (heq ▸ hl)⟩

/-- The failing container is checked. -/
theorem Ailing.check {n : ℕ} (hd : Ailing id n False False d)
    (h : deploymentStep cfg id d .check = some d') : Ailing id n True False d' := by
  obtain rfl := Option.some.inj h
  refine hd.imp_right ?_
  rintro ⟨hfailing, -, -⟩
  exact ⟨hfailing, fun _ => by simp [hfailing.test], False.elim⟩

/-- The loop looks at the unhealthy container. -/
theorem Ailing.look {n : ℕ} (hd : Ailing id n True False d)
    (h : deploymentStep cfg id d .look = some d') : Ailing id n True True d' := by
  obtain rfl := Option.some.inj h
  refine hd.imp_right ?_
  rintro ⟨hfailing, hseen, -⟩
  exact ⟨hfailing, hseen, fun _ => mem_look.mpr (.inr ⟨rfl, by rw [hseen trivial]; rfl⟩)⟩

/-- A failing container is restarted, once a check, a look and a request that reaches the
daemon have come by in this order. -/
theorem failing_restarted (hfailing : Failing d) {before between after : List Step} {r : Request}
    (hr : r ≠ .fails) (hstart : .container (.process .crash) ∉ before ++ between ++ after)
    (hexit : .exit ∉ after) (hlater : exec (deploymentStep cfg id) d
      (before ++ .check :: between ++ .look :: after ++ [.request r]) = some u) :
    d.restarts < u.restarts := by
  obtain ⟨d₃, hlater, hrequest⟩ := exec_append.mp hlater
  obtain ⟨d₂, hlater, hlook⟩ := exec_append.mp hlater
  obtain ⟨d₁, hbefore, hcheck⟩ := exec_append.mp hlater
  obtain ⟨e₁, hchecked, hbetween⟩ := exec_cons.mp hcheck
  obtain ⟨e₂, hlooked, hafter⟩ := exec_cons.mp hlook
  obtain ⟨e₃, hrequested, hend⟩ := exec_cons.mp hrequest
  obtain rfl := Option.some.inj hend
  simp only [List.mem_append, not_or] at hstart
  obtain ⟨⟨hstart₁, hstart₂⟩, hstart₃⟩ := hstart
  -- the check fails in every state up to a restart
  have h₁ : Ailing id d.restarts False False d₁ ∧ d.restarts ≤ d₁.restarts :=
    Ailing.run (.inr ⟨hfailing, False.elim, False.elim⟩) le_rfl hstart₁ False.elim hbefore
  have h₂ : Ailing id d.restarts True False d₂ ∧ d.restarts ≤ d₂.restarts :=
    Ailing.run (h₁.1.check hchecked) (h₁.2.trans (restarts_le hchecked)) hstart₂ False.elim hbetween
  have h₃ : Ailing id d.restarts True True d₃ ∧ d.restarts ≤ d₃.restarts :=
    Ailing.run (h₂.1.look hlooked) (h₂.2.trans (restarts_le hlooked)) hstart₃ (fun _ => hexit) hafter
  simp only [deploymentStep] at hrequested
  split_ifs at hrequested with hmade
  · obtain ⟨api, -, rfl⟩ := Option.map_eq_some_iff.mp hrequested
    exact Nat.lt_succ_of_le h₃.2
  · obtain rfl := Option.some.inj hrequested
    exact h₃.1.resolve_right fun h => hmade ⟨h.2.2 trivial, hr⟩

/-- The container when its process starts, with a mark of an earlier thread or without. -/
def deployed (db : Database) (stale : Bool) : Deployment where
  api := ⟨{ db := db }, { schedulerDead := stale }⟩

/-- A step that gives the health check nothing to find: at a check the thread is alive,
`set_container_unhealthy` has not been called in its process, and a thread that has not
begun finds no mark of an earlier one. -/
def FindsNothing (d : Deployment) : Step → Prop
  | .check =>
    d.api.sys.pc.isDead = false ∧ d.api.files.sdrUnhealthy = false ∧
      (d.api.sys.pc = .starting → d.api.files.schedulerDead = false)
  | _ => True

instance (d : Deployment) : DecidablePred (FindsNothing d)
  | .check =>
    inferInstanceAs (Decidable (d.api.sys.pc.isDead = false ∧ d.api.files.sdrUnhealthy = false ∧
      (d.api.sys.pc = .starting → d.api.files.schedulerDead = false)))
  | .container _ | .look | .request _ | .exit => .isTrue trivial

/-- No check has failed since the last of `n` restarts, and the loop has nothing to do. -/
structure Quiet (id : String) (n : ℕ) (d : Deployment) : Prop where
  dead : d.api.sys.pc ≠ .starting → d.api.files.schedulerDead = d.api.sys.pc.isDead
  status : d.status ≠ .unhealthy
  dir : id ∉ d.dir
  restarts : d.restarts = n

theorem Quiet.step {n : ℕ} (hblocking : cfg.blocking = true) (hd : Quiet id n d)
    (hl : FindsNothing d l) (h : deploymentStep cfg id d l = some d') : Quiet id n d' := by
  cases l with
  | container l =>
    obtain ⟨api, hapi, rfl⟩ := Option.map_eq_some_iff.mp h
    refine ⟨schedulerDead_step hblocking hd.dead hapi, ?_, hd.dir, hd.restarts⟩
    dsimp only
    split_ifs
    · decide
    · exact hd.status
  | check =>
    obtain rfl := Option.some.inj h
    obtain ⟨halive, hmark, hstale⟩ := hl
    have htest : d.api.files.test = true := by
      rw [← Bool.not_eq_false, HealthFiles.test_eq_false, hmark, not_or]
      refine ⟨by decide, ?_⟩
      by_cases hstarting : d.api.sys.pc = .starting
      · simp [hstale hstarting]
      · simp [hd.dead hstarting, halive]
    exact ⟨hd.dead, by simp [htest], hd.dir, hd.restarts⟩
  | look =>
    obtain rfl := Option.some.inj h
    refine ⟨hd.dead, hd.status, ?_, hd.restarts⟩
    intro hmem
    obtain hold | ⟨-, hunhealthy⟩ := mem_look.mp hmem
    · exact hd.dir hold
    · have hstatus := hd.status
      cases hs : d.status <;> simp_all [Health.text]
  | request r =>
    simp only [deploymentStep, hd.dir, false_and, if_false] at h
    exact Option.some.inj h ▸ hd
  | exit =>
    obtain rfl := Option.some.inj h
    exact ⟨hd.dead, hd.status, by simp, hd.restarts⟩

theorem Quiet.run {n : ℕ} {ls : List Step} (hblocking : cfg.blocking = true) (hd : Quiet id n d)
    (hls : Along (deploymentStep cfg id) FindsNothing d ls)
    (hrun : exec (deploymentStep cfg id) d ls = some u) : Quiet id n u :=
  exec_invariant (fun _ _ _ hd hl h => hd.step hblocking hl h) hd hls hrun

/-- A container whose scheduler is well at every check is never restarted by the loop. -/
theorem healthy_never_restarted (cfg : Settings) (hblocking : cfg.blocking = true) (id : String)
    (db : Database) (stale : Bool) (ls : List Step) (d : Deployment)
    (hls : Along (deploymentStep cfg id) FindsNothing (deployed db stale) ls)
    (hrun : exec (deploymentStep cfg id) (deployed db stale) ls = some d) : d.restarts = 0 := by
  have hstart : Quiet id 0 (deployed db stale) :=
    ⟨fun hpc => absurd rfl hpc, by simp [deployed], by simp [deployed], rfl⟩
  exact (hstart.run hblocking hls hrun).restarts

/-- The thread begins, which removes the mark of an earlier one, before the first check.
The next process is marked, but started again before it is checked, and a worker that
ends stops its thread. -/
def uneventful : List Step :=
  [.container (.process (.sched {})), .check, .look, .container .setUnhealthy,
    .container (.process .crash), .container (.process (.sched {})), .check, .look,
    .container (.process .stop), .check, .look, .request .succeeds]

theorem healthy_never_restarted_begun :
    ∃ d, exec (deploymentStep { actions := ["acquire"] } "api")
        (deployed { schedule := threeDue } true) uneventful = some d ∧ d.restarts = 0 := by
  have hruns : (exec (deploymentStep { actions := ["acquire"] } "api")
      (deployed { schedule := threeDue } true) uneventful).isSome := by decide
  obtain ⟨d, hd⟩ := Option.isSome_iff_exists.mp hruns
  exact ⟨d, hd, healthy_never_restarted { actions := ["acquire"] } rfl "api"
    { schedule := threeDue } true _ d (by decide) hd⟩

/-- One turn of the loop at a container that is checked before its thread begins. -/
def turn : List Step := [.check, .look, .request .succeeds]

/-- The mark of a dead thread outlives the restart. As long as a check comes before the
thread of the new process begins, the loop restarts the container over and over. -/
theorem stale_mark_restarts (cfg : Settings) (id : String) (n : ℕ) (d : Deployment)
    (hstale : d.api.files.schedulerDead = true) :
    ∃ u, exec (deploymentStep cfg id) d (List.replicate n turn).flatten = some u ∧
      u.restarts = d.restarts + n ∧ u.api.sys.db = d.api.sys.db := by
  induction n generalizing d with
  | zero => exact ⟨d, rfl, rfl, rfl⟩
  | succ n ih =>
    have hfail : d.api.files.test = false := HealthFiles.test_eq_false.mpr (.inr hstale)
    have hturn : ∃ d', exec (deploymentStep cfg id) d turn = some d' ∧
        d'.restarts = d.restarts + 1 ∧ d'.api.files.schedulerDead = true ∧
        d'.api.sys.db = d.api.sys.db := by
      simp [turn, exec, deploymentStep, hfail, Health.text, look, containerStep,
        Scheduler.step, filesAfter, hstale]
    obtain ⟨d', hd', hrestarts, hstale', hdb⟩ := hturn
    obtain ⟨u, hu, hrestarts', hdb'⟩ := ih d' hstale'
    refine ⟨u, ?_, by omega, hdb'.trans hdb⟩
    rw [List.replicate_succ, List.flatten_cons]
    exact exec_append.mpr ⟨d', hd', hu⟩

theorem stale_mark_restarts_thrice :
    ∃ u, exec (deploymentStep { actions := ["acquire"] } "api")
        (deployed { schedule := threeDue } true) (List.replicate 3 turn).flatten = some u ∧
      u.restarts = 0 + 3 ∧ u.api.sys.db = { schedule := threeDue } :=
  stale_mark_restarts { actions := ["acquire"] } "api" 3 (deployed { schedule := threeDue } true) rfl

end Deployment

end ScosSensor.Autoheal
