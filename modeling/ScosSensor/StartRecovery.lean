import ScosSensor.Autoheal
import ScosSensor.Initialization

/-!
# Restarts until the sensor starts

A start of the process marks its container when something is wrong with it, and the
mark is one that only the next start removes. So the autoheal loop restarts a container
as long as its starts are incomplete, whatever the scheduler does meanwhile. After a
complete one it leaves the container alone, unless it still has a file for it from a
request whose answer was lost.
-/
namespace ScosSensor.Autoheal

open Runs Scheduler Initialization Raising

variable {Point Cal : Type} {cfg : Settings} {start : StartSettings} {c : Calls Point Cal}
  {id : String} {d u : Deployment}

/-- What a start of the process does to its container. -/
def startSteps (start : StartSettings) (c : Calls Point Cal) : List Step :=
  if (result (Initialization.start start c) {}).2.marked then [.container .setUnhealthy] else []

/-- The start comes to its end, with the mark of the container or without. -/
def Returns (start : StartSettings) (c : Calls Point Cal) : Prop :=
  (result (Initialization.start start c) {}).1 = .ok ()

/-- A check, a look and a request that reaches the daemon come by in this order. The
process is not started again before, and the loop does not end after its look. -/
def Serves (ls : List Step) : Prop :=
  ∃ before between after : List Step, ∃ r : Request, r ≠ .fails ∧
    .container (.process .crash) ∉ before ++ between ++ after ∧ .exit ∉ after ∧
    ls = before ++ .check :: between ++ .look :: after ++ [.request r]

theorem startSteps_incomplete (hdocker : start.inDocker = true) (hincomplete : ¬ Complete start c)
    (hreturns : Returns start c) : startSteps start c = [.container .setUnhealthy] := by
  obtain ⟨out, t, ht, -, hmarked, -⟩ := start_exact start c
  rw [Returns, ht] at hreturns
  rw [startSteps, ht, if_pos ((hmarked hreturns).mpr ⟨hdocker, hincomplete⟩)]

theorem startSteps_complete (hcomplete : Complete start c) : startSteps start c = [] := by
  obtain ⟨out, t, ht, -, hmarked, hfinished, -⟩ := start_exact start c
  rw [startSteps, ht, if_neg fun hm => ((hmarked (hfinished hcomplete).1).mp hm).2 hcomplete]

/-- After an incomplete start the container is restarted. -/
theorem incomplete_restarted (hdocker : start.inDocker = true) (hincomplete : ¬ Complete start c)
    (hreturns : Returns start c) {ls : List Step} (hserves : Serves ls)
    (hrun : exec (deploymentStep cfg id) d (startSteps start c ++ ls) = some u) :
    d.restarts < u.restarts := by
  rw [startSteps_incomplete hdocker hincomplete hreturns] at hrun
  obtain ⟨d', hmark, hlater⟩ := exec_cons.mp hrun
  obtain ⟨before, between, after, r, hr, hcrash, hexit, rfl⟩ := hserves
  have hd' : d'.api.files.sdrUnhealthy = true ∧ d'.restarts = d.restarts := by
    obtain rfl := Option.some.inj hmark
    exact ⟨Bool.or_true _, rfl⟩
  have hlt : d'.restarts < u.restarts := failing_restarted (.inl hd'.1) hr hcrash hexit hlater
  exact hd'.2 ▸ hlt

/-- The step starts the process of the container, for the loop or for another reason. -/
def StartsProcess (id : String) (d : Deployment) : Step → Prop
  | .container (.process .crash) => True
  | .request r => id ∈ d.dir ∧ r ≠ .fails
  | _ => False

theorem starting_of_crash {c api : Container}
    (h : containerStep cfg true c (.process .crash) = some api) : api.sys.pc = .starting := by
  simp only [containerStep] at h
  obtain ⟨s', hs', rfl⟩ := Option.map_eq_some_iff.mp h
  obtain rfl := Option.some.inj hs'
  rfl

/-- A process that starts finds its container well, apart from the mark of an earlier
thread and the file of the loop. -/
theorem quiet_of_start {l : Step} (hl : StartsProcess id d l)
    (h : deploymentStep cfg id d l = some u) (hfile : id ∉ u.dir) : Quiet id u.restarts u := by
  have hstarted : u.api.sys.pc = .starting ∧ u.status = .starting := by
    unfold StartsProcess at hl
    split at hl
    · simp only [deploymentStep] at h
      obtain ⟨api, hapi, rfl⟩ := Option.map_eq_some_iff.mp h
      exact ⟨starting_of_crash hapi, rfl⟩
    · simp only [deploymentStep] at h
      rw [if_pos hl] at h
      obtain ⟨api, hapi, rfl⟩ := Option.map_eq_some_iff.mp h
      exact ⟨starting_of_crash hapi, rfl⟩
    · exact hl.elim
  exact ⟨fun hpc => absurd hstarted.1 hpc, by simp [hstarted.2], hfile, rfl⟩

/-- Every incomplete start of the process that returns is followed by a restart of its
container, once a check, a look and a request have come by. After a complete one of which
the loop has no file left it leaves the container alone, as long as the checks find the
scheduler well. -/
theorem restarted_until_complete (cfg : Settings) (hblocking : cfg.blocking = true) (id : String)
    (start : StartSettings) (hdocker : start.inDocker = true)
    (rounds : List (Calls Point Cal × List Step))
    (hrounds : ∀ round ∈ rounds,
      ¬ Complete start round.1 ∧ Returns start round.1 ∧ Serves round.2)
    (d u : Deployment) (hrun : exec (deploymentStep cfg id) d
      (rounds.flatMap fun round => startSteps start round.1 ++ round.2) = some u) :
    d.restarts + rounds.length ≤ u.restarts ∧
      ∀ (c : Calls Point Cal) (b v w : Deployment) (l : Step) (ls : List Step), Complete start c →
        StartsProcess id b l → deploymentStep cfg id b l = some v → id ∉ v.dir →
        Along (deploymentStep cfg id) FindsNothing v ls →
        exec (deploymentStep cfg id) v (startSteps start c ++ ls) = some w →
        w.restarts = v.restarts := by
  refine ⟨?_, ?_⟩
  · induction rounds generalizing d with
    | nil => exact (congrArg Deployment.restarts (Option.some.inj hrun)).le
    | cons round rounds ih =>
      rw [List.flatMap_cons] at hrun
      obtain ⟨d', hround, hrest⟩ := exec_append.mp hrun
      obtain ⟨hincomplete, hreturns, hserves⟩ := hrounds round List.mem_cons_self
      have hone : d.restarts < d'.restarts :=
        incomplete_restarted hdocker hincomplete hreturns hserves hround
      have hmore := ih (fun round hr => hrounds round (List.mem_cons_of_mem _ hr)) d' hrest
      rw [List.length_cons]
      omega
  · intro c b v w l ls hcomplete hstarts hstart hfile hls hlater
    rw [startSteps_complete hcomplete, List.nil_append] at hlater
    exact ((quiet_of_start hstarts hstart hfile).run hblocking hls hlater).restarts

/-- The device is unplugged, then the signal analyzer is not healthy, and the answer to the
second request gets lost. -/
def twoRounds : List (Calls Unit Unit × List Step) :=
  [(answering [] true, turn),
    (answering ['s', 'd', 'r'] false, [.check, .look, .request .unanswered])]

theorem not_complete_unplugged :
    ¬ Complete behindUsb (answering [] true : Calls Unit Unit) := by
  intro h
  have hdevice := h.device
  revert hdevice
  decide

theorem not_complete_sick :
    ¬ Complete behindUsb (answering ['s', 'd', 'r'] false : Calls Unit Unit) := by
  intro h
  have hhealthy := (h.healthy rfl).healthy
  revert hhealthy
  decide

/-- The third start, at which all is well. -/
def wellAnswering : Calls Unit Unit := answering ['s', 'd', 'r'] true

/-- The thread of the third start begins, and its checks find it well. -/
def wellChecked : List Step :=
  [.container (.process (.sched {})), .check, .look, .request .succeeds]

/-- Two incomplete starts and a complete one. The file of the second is still there, so a
third request comes, which removes it. -/
theorem restarted_until_complete_unplugged :
    ∃ u v w, exec (deploymentStep { actions := ["acquire"] } "api") (deployed {} false)
        (twoRounds.flatMap fun round => startSteps behindUsb round.1 ++ round.2) = some u ∧
      deploymentStep { actions := ["acquire"] } "api" u (.request .succeeds) = some v ∧
      exec (deploymentStep { actions := ["acquire"] } "api") v
        (startSteps behindUsb wellAnswering ++ wellChecked) = some w ∧
      0 + 2 ≤ u.restarts ∧ w.restarts = v.restarts := by
  have hend : (exec (deploymentStep { actions := ["acquire"] } "api") (deployed {} false)
      (twoRounds.flatMap fun round => startSteps behindUsb round.1 ++ round.2)).map (fun u =>
        (decide ("api" ∈ u.dir),
          (deploymentStep { actions := ["acquire"] } "api" u (.request .succeeds)).map fun v =>
            (decide ("api" ∉ v.dir),
              decide (Along (deploymentStep { actions := ["acquire"] } "api") FindsNothing v
                wellChecked),
              (exec (deploymentStep { actions := ["acquire"] } "api") v
                (startSteps behindUsb wellAnswering ++ wellChecked)).isSome))) =
      some (true, some (true, true, true)) := by decide
  obtain ⟨u, hu, hstate⟩ := Option.map_eq_some_iff.mp hend
  obtain ⟨hfile, hrestart⟩ := Prod.mk.inj hstate
  obtain ⟨v, hv, hstate⟩ := Option.map_eq_some_iff.mp hrestart
  obtain ⟨hsettled, hstate⟩ := Prod.mk.inj hstate
  obtain ⟨hwell, hlater⟩ := Prod.mk.inj hstate
  obtain ⟨w, hw⟩ := Option.isSome_iff_exists.mp hlater
  have hrounds : ∀ round ∈ twoRounds,
      ¬ Complete behindUsb round.1 ∧ Returns behindUsb round.1 ∧ Serves round.2 := by
    intro round hround
    rcases List.mem_cons.mp hround with rfl | hround
    · exact ⟨not_complete_unplugged, rfl, [], [], [], .succeeds, nofun, nofun, nofun, rfl⟩
    · obtain rfl := List.mem_singleton.mp hround
      exact ⟨not_complete_sick, rfl, [], [], [], .unanswered, nofun, nofun, nofun, rfl⟩
  have hrestarted := restarted_until_complete { actions := ["acquire"] } rfl "api" behindUsb rfl
    twoRounds hrounds (deployed {} false) u hu
  refine ⟨u, v, w, hu, hv, hw, hrestarted.1, ?_⟩
  exact hrestarted.2 _ u v w (.request .succeeds) wellChecked complete_answering
    ⟨of_decide_eq_true hfile, by decide⟩ hv (of_decide_eq_true hsettled)
    (of_decide_eq_true hwell) hw

end ScosSensor.Autoheal
