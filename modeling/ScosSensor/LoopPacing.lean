import ScosSensor.MinimumDurations
import ScosSensor.PassProgress

/-!
# The pace of the loops

`minimum_duration` is around each pass and around each call of `_consume_schedule`: it
reads the clock on entry and, when the run blocks, sleeps on the way out until the clock
reads something else. The machine of the scheduler runs here with these waits. A wait is
no step of the machine, so a paced run is one of its runs.
-/
namespace ScosSensor

/-- The system with what the clock read on each entry of the two blocks, the last first.
`waited` tells that the block that the thread is leaving has lasted long enough. -/
structure Paced where
  sys : Sys
  loopStarts : List ℤ := []
  passStarts : List ℤ := []
  waited : Bool := false

namespace Pc

/-- No pass is under way, and the last one has been left. -/
def betweenPasses : Pc → Bool
  | .checking => true
  | .scheduleDone => true
  | _ => false

/-- The thread has not come to `_consume_schedule` yet. -/
def unlooped : Pc → Bool
  | .starting => true
  | .resetting _ => true
  | _ => false

end Pc

namespace Scheduler

open Runs MinimumDurations

variable {cfg : Settings} {p q : Paced} {s s' : Sys} {l : Label} {i : Input} {c c₀ : ℤ}

/-- The thread is on its way out of a block. -/
def waits (cfg : Settings) (p : Paced) : Bool :=
  cfg.blocking && !p.waited && (decide (p.sys.pc = .passDone) || decide (p.sys.pc = .scheduleDone))

/-- `start_time` of the block that the thread is leaving. -/
def startTime (p : Paced) : Option ℤ :=
  if p.sys.pc = .passDone then p.passStarts.head? else p.loopStarts.head?

/-- The thread comes to `_consume_schedule`, and not back to its `while`. -/
def entersLoop (s s' : Sys) : Bool := decide (s'.pc = .checking) && decide (s.pc ≠ .passDone)

/-- One step of the thread: a look at the clock while it waits, or a step of the machine. -/
def pacedSched (cfg : Settings) (i : Input) (p : Paced) : Option Paced :=
  if waits cfg p then some { p with waited := decide (startTime p ≠ some i.now) }
  else (step cfg p.sys (.sched i)).map fun s' => {
    sys := s'
    loopStarts := if entersLoop p.sys s' then i.now :: p.loopStarts else p.loopStarts
    passStarts := if s'.pc = .reading then i.now :: p.passStarts else p.passStarts }

/-- One step of the system with its waits. -/
def pacedStep (cfg : Settings) (p : Paced) : Label → Option Paced
  | .sched i => pacedSched cfg i p
  | .crash => (step cfg p.sys .crash).map fun s' => { sys := s' }
  | l => (step cfg p.sys l).map fun s' => { p with sys := s' }

/-- What a step reads from the clock: the thread at the blocks and while it queues, a
request that is written. -/
def pacedReading (p : Paced) : Label → Option ℤ
  | .sched i =>
    match p.sys.pc with
    | .resetting [] => some i.now
    | .checking => some i.now
    | .taking _ _ => some i.now
    | .passDone => some i.now
    | .scheduleDone => some i.now
    | _ => none
  | .post _ _ _ now => some now
  | .write _ now => some now
  | _ => none

/-- The system with its waits, beside a clock that does not go back. -/
def pacedClock (cfg : Settings) : ℤ × Paced → Label → Option (ℤ × Paced) :=
  withClock (pacedStep cfg) pacedReading

theorem waits_imp (h : waits cfg p = true) :
    p.sys.pc = .passDone ∨ p.sys.pc = .scheduleDone := by
  unfold waits at h
  simp only [Bool.and_eq_true, Bool.or_eq_true, decide_eq_true_eq] at h
  exact h.2

theorem pacedReading_waits (h : waits cfg p = true) : pacedReading p (.sched i) = some i.now := by
  unfold pacedReading
  obtain hpc | hpc := waits_imp h <;> rw [hpc]

/-- A step is a wait or a step of the machine. -/
theorem pacedStep_sys (h : pacedStep cfg p l = some q) :
    q.sys = p.sys ∨ step cfg p.sys l = some q.sys := by
  cases l with
  | sched i =>
    simp only [pacedStep, pacedSched] at h
    split_ifs at h
    · obtain rfl := Option.some.inj h
      exact .inl rfl
    · obtain ⟨s', hs', rfl⟩ := Option.map_eq_some_iff.mp h
      exact .inr hs'
  | _ =>
    simp only [pacedStep, Option.map_eq_some_iff] at h
    obtain ⟨s', hs', rfl⟩ := h
    exact .inr hs'

/-- A paced run is a run of the machine. -/
theorem exec_paced {x y : ℤ × Paced} {ls : List Label} (h : exec (pacedClock cfg) x ls = some y) :
    ∃ ms, exec (step cfg) x.2.sys ms = some y.2.sys := by
  have hsim : ∀ (x : ℤ × Paced) (l : Label) (y : ℤ × Paced) (s : Sys), s = x.2.sys → True →
      pacedClock cfg x l = some y → ∃ ms s', exec (step cfg) s ms = some s' ∧ s' = y.2.sys := by
    rintro x l y s rfl - hstep
    obtain hwait | hs := pacedStep_sys (withClock_some hstep).2.1
    · exact ⟨[], _, rfl, hwait.symm⟩
    · exact ⟨[l], _, by simp [exec, hs], rfl⟩
  obtain ⟨ms, s, hms, rfl⟩ := exec_simulation hsim rfl (Along.of_forall (fun _ _ => trivial) x ls) h
  exact ⟨ms, hms⟩

/-- How a step of the thread meets the two blocks. -/
inductive Passage : Pc → Pc → Prop
  | inside {pc pc' : Pc} (hbetween : pc'.betweenPasses = false) (hreading : pc' ≠ .reading)
      (hunlooped : pc'.unlooped = true → pc.unlooped = true) : Passage pc pc'
  | firstLoop : Passage (.resetting []) .checking
  | enterPass : Passage .checking .reading
  | idle : Passage .checking .scheduleDone
  | againPass : Passage .passDone .checking
  | lastPass : Passage .passDone .scheduleDone
  | againLoop : Passage .scheduleDone .checking

theorem Jump.passage {pc : Pc} (h : Jump cfg s pc) : Passage s.pc pc := by
  cases h with
  | startReset hpc => exact hpc ▸ .inside rfl nofun (fun _ => rfl)
  | resetSkip e todo hpc => exact hpc ▸ .inside rfl nofun (fun _ => rfl)
  | resetDone hpc => exact hpc ▸ .firstLoop
  | schedule hpc => exact hpc ▸ .enterPass
  | idle hpc => exact hpc ▸ .idle
  | queueDone queue hpc => exact .inside rfl nofun nofun
  | tasksDone hpc => exact .inside rfl nofun nofun
  | passAgain hpc => exact hpc ▸ .againPass
  | passBreak hpc => exact hpc ▸ .lastPass
  | runAgain hpc => exact hpc ▸ .againLoop
  | runBreak hpc => exact .inside rfl nofun nofun

theorem SchedMove.passage (h : SchedMove cfg i s s') : Passage s.pc s'.pc := by
  cases h with
  | jump pc hjump => exact hjump.passage
  | reset e todo last hpc => exact hpc ▸ .inside rfl nofun (fun _ => rfl)
  | keep taskTime | cancel taskTime => cases taskTime <;> exact .inside rfl nofun nofun
  | _ => exact .inside rfl nofun nofun

/-- What holds of the blocks when the clock has come to `c`. -/
structure Pacing (c₀ c : ℤ) (p : Paced) : Prop where
  clock : c₀ ≤ c
  loops : Entered p.loopStarts c
  passes : Entered p.passStarts c
  first : ∀ x ∈ p.loopStarts ++ p.passStarts, c₀ ≤ x
  between : p.sys.pc.betweenPasses = true → Left p.passStarts c
  out : p.waited = true → p.sys.pc = .passDone ∧ Left p.passStarts c ∨
    p.sys.pc = .scheduleDone ∧ Left p.loopStarts c
  fresh : p.sys.pc.unlooped = true → p.loopStarts = [] ∧ p.passStarts = []

/-- A thread that has just been started has entered nothing. -/
theorem pacing_start (hle : c₀ ≤ c) (hpc : s.pc = .starting) : Pacing c₀ c { sys := s } where
  clock := hle
  loops := entered_nil c
  passes := entered_nil c
  first := nofun
  between hat := by
    rw [hpc] at hat
    cases hat
  out := nofun
  fresh _ := ⟨rfl, rfl⟩


theorem Pacing.mono {now : ℤ} (h : Pacing c₀ c p) (hle : c ≤ now) : Pacing c₀ now p where
  clock := h.clock.trans hle
  loops := h.loops.mono hle
  passes := h.passes.mono hle
  first := h.first
  between hpc := (h.between hpc).mono hle
  out hwaited := (h.out hwaited).imp (fun h => ⟨h.1, h.2.mono hle⟩) (fun h => ⟨h.1, h.2.mono hle⟩)
  fresh := h.fresh

/-- The thread looks at the clock while it waits. -/
theorem Pacing.look (h : Pacing c₀ c p) (hwaits : waits cfg p = true)
    (hle : c ≤ i.now) :
    Pacing c₀ i.now { p with waited := decide (startTime p ≠ some i.now) } := by
  have hlater := h.mono hle
  refine { hlater with out := fun hwaited => ?_ }
  have hne : startTime p ≠ some i.now := of_decide_eq_true hwaited
  unfold startTime at hne
  obtain hpc | hpc := waits_imp hwaits
  · rw [if_pos hpc] at hne
    exact .inl ⟨hpc, h.passes.leave hle hne⟩
  · rw [if_neg (by rw [hpc]; nofun)] at hne
    exact .inr ⟨hpc, h.loops.leave hle hne⟩

/-- A thread that has come through its wait has been long enough in the block. -/
theorem Pacing.waited (h : Pacing c₀ c p) (hblocking : cfg.blocking = true)
    (hwaits : waits cfg p = false) :
    (p.sys.pc = .passDone → Left p.passStarts c) ∧
      (p.sys.pc = .scheduleDone → Left p.loopStarts c) := by
  have hwaited (hpc : p.sys.pc = .passDone ∨ p.sys.pc = .scheduleDone) : p.waited = true := by
    unfold waits at hwaits
    cases hw : p.waited with
    | true => rfl
    | false =>
      rw [hblocking, hw] at hwaits
      obtain hpc | hpc := hpc <;> simp [hpc] at hwaits
  constructor
  · intro hpc
    obtain ⟨-, hleft⟩ | ⟨hpc', -⟩ := h.out (hwaited (.inl hpc))
    · exact hleft
    · cases hpc.symm.trans hpc'
  · intro hpc
    obtain ⟨hpc', -⟩ | ⟨-, hleft⟩ := h.out (hwaited (.inr hpc))
    · cases hpc.symm.trans hpc'
    · exact hleft

/-- No block is entered. -/
theorem Pacing.stay (h : Pacing c₀ c p)
    (hbetween : s'.pc.betweenPasses = true → Left p.passStarts c)
    (hunlooped : s'.pc.unlooped = true → p.sys.pc.unlooped = true) :
    Pacing c₀ c { p with sys := s', waited := false } where
  clock := h.clock
  loops := h.loops
  passes := h.passes
  first := h.first
  between := hbetween
  out := nofun
  fresh hpc := h.fresh (hunlooped hpc)

theorem Pacing.enterLoop (h : Pacing c₀ c p) (hloops : Left p.loopStarts c)
    (hpasses : Left p.passStarts c) (hpc : s'.pc = .checking) :
    Pacing c₀ c { sys := s', loopStarts := c :: p.loopStarts, passStarts := p.passStarts } where
  clock := h.clock
  loops := hloops.enter (le_refl c)
  passes := h.passes
  first x hx := by
    rcases List.mem_cons.mp hx with rfl | hx
    · exact h.clock
    · exact h.first x hx
  between _ := hpasses
  out := nofun
  fresh hunlooped := by
    rw [hpc] at hunlooped
    cases hunlooped

theorem Pacing.enterPass (h : Pacing c₀ c p) (hpasses : Left p.passStarts c)
    (hpc : s'.pc = .reading) :
    Pacing c₀ c { sys := s', loopStarts := p.loopStarts, passStarts := c :: p.passStarts } where
  clock := h.clock
  loops := h.loops
  passes := hpasses.enter (le_refl c)
  first x hx := by
    rcases List.mem_append.mp hx with hx | hx
    · exact h.first x (List.mem_append_left _ hx)
    · rcases List.mem_cons.mp hx with rfl | hx
      · exact h.clock
      · exact h.first x (List.mem_append_right _ hx)
  between hbetween := by
    rw [hpc] at hbetween
    cases hbetween
  out := nofun
  fresh hunlooped := by
    rw [hpc] at hunlooped
    cases hunlooped

/-- The thread takes a step of the machine. -/
theorem Pacing.move (h : Pacing c₀ c p) (hblocking : cfg.blocking = true)
    (hwaits : waits cfg p = false) (hmove : SchedMove cfg i p.sys s')
    (hread : ∀ now, pacedReading p (.sched i) = some now → c = now) :
    Pacing c₀ c {
      sys := s'
      loopStarts := if entersLoop p.sys s' then i.now :: p.loopStarts else p.loopStarts
      passStarts := if s'.pc = .reading then i.now :: p.passStarts else p.passStarts } := by
  obtain ⟨hpassDone, hscheduleDone⟩ := h.waited hblocking hwaits
  have hnow (hgate : pacedReading p (.sched i) = some i.now) : i.now = c := (hread _ hgate).symm
  obtain ⟨pc, hpc⟩ : ∃ pc, p.sys.pc = pc := ⟨_, rfl⟩
  obtain ⟨pc', hpc'⟩ : ∃ pc', s'.pc = pc' := ⟨_, rfl⟩
  have hpassage : Passage pc pc' := hpc ▸ hpc' ▸ hmove.passage
  cases hpassage with
  | inside hout hreading hunlooped =>
    have hloop : entersLoop p.sys s' = false := by
      rw [entersLoop, hpc']
      cases pc' <;> first | rfl | cases hout
    rw [if_neg (by simp [hloop]), if_neg (by rwa [hpc'])]
    refine h.stay (fun hbetween => ?_) (by rwa [hpc, hpc'])
    rw [hpc', hout] at hbetween
    cases hbetween
  | firstLoop =>
    obtain ⟨hloops, hpasses⟩ := h.fresh (by rw [hpc]; rfl)
    rw [if_pos (by simp [entersLoop, hpc, hpc']), if_neg (by simp [hpc']),
      hnow (by simp [pacedReading, hpc])]
    exact h.enterLoop (hloops ▸ left_nil c) (hpasses ▸ left_nil c) hpc'
  | enterPass =>
    have hbetween : Left p.passStarts c := h.between (by rw [hpc]; rfl)
    rw [if_neg (by simp [entersLoop, hpc']), if_pos hpc', hnow (by simp [pacedReading, hpc])]
    exact h.enterPass hbetween hpc'
  | idle =>
    have hbetween : Left p.passStarts c := h.between (by rw [hpc]; rfl)
    rw [if_neg (by simp [entersLoop, hpc']), if_neg (by simp [hpc'])]
    exact h.stay (fun _ => hbetween) (by simp [hpc', Pc.unlooped])
  | againPass =>
    rw [if_neg (by simp [entersLoop, hpc]), if_neg (by simp [hpc'])]
    exact h.stay (fun _ => hpassDone hpc) (by simp [hpc', Pc.unlooped])
  | lastPass =>
    rw [if_neg (by simp [entersLoop, hpc']), if_neg (by simp [hpc'])]
    exact h.stay (fun _ => hpassDone hpc) (by simp [hpc', Pc.unlooped])
  | againLoop =>
    have hbetween : Left p.passStarts c := h.between (by rw [hpc]; rfl)
    rw [if_pos (by simp [entersLoop, hpc, hpc']), if_neg (by simp [hpc']),
      hnow (by simp [pacedReading, hpc])]
    exact h.enterLoop (hscheduleDone hpc) hbetween hpc'

/-- The other parties leave the thread where it is, and a crash begins a new one. -/
theorem pacing_step (hblocking : cfg.blocking = true) (x : ℤ × Paced) (l : Label) (y : ℤ × Paced)
    (h : Pacing c₀ x.1 x.2) (hstep : pacedClock cfg x l = some y) : Pacing c₀ y.1 y.2 := by
  obtain ⟨hle, hp, hread⟩ := withClock_some hstep
  have hlater := h.mono hle
  have hothers (hpaced : pacedStep cfg x.2 l =
      (step cfg x.2.sys l).map fun s' => { x.2 with sys := s' }) (hl : l ≠ .crash)
      (hsched : l.isSched = false) : Pacing c₀ y.1 y.2 := by
    rw [hpaced] at hp
    obtain ⟨s', hs', hq⟩ := Option.map_eq_some_iff.mp hp
    have hpc : s'.pc = x.2.sys.pc := step_pc hs' hl hsched
    rw [← hq]
    exact { hlater with
      between := fun hat => hlater.between (hpc ▸ hat)
      out := fun hwaited => hpc ▸ hlater.out hwaited
      fresh := fun hat => hlater.fresh (hpc ▸ hat) }
  cases l with
  | sched i =>
    simp only [pacedStep, pacedSched] at hp
    split_ifs at hp with hwaits
    · rw [← Option.some.inj hp]
      have hnow : y.1 = i.now := hread _ (pacedReading_waits hwaits)
      rw [hnow]
      exact h.look hwaits (hnow ▸ hle)
    · obtain ⟨s', hs', hq⟩ := Option.map_eq_some_iff.mp hp
      rw [← hq]
      exact hlater.move hblocking (by simpa using hwaits) (schedStep_cases hs') hread
  | crash =>
    simp only [pacedStep] at hp
    obtain ⟨s', hs', hq⟩ := Option.map_eq_some_iff.mp hp
    obtain rfl := Option.some.inj hs'
    rw [← hq]
    exact pacing_start hlater.clock rfl
  | _ => exact hothers rfl nofun rfl

/-- A run that blocks enters each of the two blocks at most once per rollover of the
clock, so it makes no more passes than there are readings of the clock. It goes on from
its wait with the first reading that is later, and the waits take no step of the machine. -/
theorem passes_paced {db : Database} {x : ℤ × Paced} {ls : List Label}
    (hblocking : cfg.blocking = true)
    (hrun : exec (pacedClock cfg) (c₀, { sys := { db := db } }) ls = some x) :
    (∃ ms, exec (step cfg) { db := db } ms = some x.2.sys) ∧
      x.2.passStarts.Pairwise (· > ·) ∧ x.2.loopStarts.Pairwise (· > ·) ∧
      (x.2.passStarts.length : ℤ) ≤ x.1 - c₀ + 1 ∧
      (waits cfg x.2 = true → ∀ i : Input, x.1 < i.now →
        ∃ y, pacedClock cfg x (.sched i) = some y ∧ waits cfg y.2 = false ∧ y.2.sys = x.2.sys) := by
  have hstart : Pacing c₀ c₀ { sys := { db := db } } := pacing_start (le_refl _) rfl
  have hpacing : Pacing c₀ x.1 x.2 := exec_invariant
    (fun x l y h _ hstep => pacing_step hblocking x l y h hstep) hstart
    (Along.of_forall (fun _ _ => trivial) _ ls) hrun
  refine ⟨exec_paced hrun, hpacing.passes.1, hpacing.loops.1, ?_, ?_⟩
  · exact hpacing.passes.length_le (fun y hy => hpacing.first y (List.mem_append_right _ hy))
      hpacing.clock
  · intro hwaits i hlater
    have hne : startTime x.2 ≠ some i.now := by
      unfold startTime
      split_ifs
      · exact hpacing.passes.head?_ne hlater
      · exact hpacing.loops.head?_ne hlater
    refine ⟨(i.now, { x.2 with waited := true }), ?_, by simp [waits], rfl⟩
    have hpaced : pacedStep cfg x.2 (.sched i) = some { x.2 with waited := true } := by
      simp only [pacedStep, pacedSched, hwaits, if_true]
      rw [decide_eq_true hne]
    unfold pacedClock withClock
    rw [hpaced, pacedReading_waits hwaits]
    exact if_pos hlater.le

/-- An entry of which nothing is due for a while. -/
def dueLater : Database where
  schedule := [⟨"sweep", "acquire", 10, 100, none, some 5, true, none, 100, 1, "op"⟩]

/-- Twelve steps at one reading and nine at the next: the thread waits after its second
pass, and the third reading ends the wait. -/
theorem passes_paced_twice :
    ∃ x, exec (pacedClock inThread) (0, { sys := { db := dueLater } })
        (List.replicate 12 (.sched {}) ++ List.replicate 9 (.sched { now := 1 })) = some x ∧
      x.2.passStarts = [1, 0] ∧ (x.2.passStarts.length : ℤ) ≤ x.1 - 0 + 1 ∧
      waits inThread x.2 = true ∧
      ∃ y, pacedClock inThread x (.sched { now := 2 }) = some y ∧ waits inThread y.2 = false := by
  have hend : (exec (pacedClock inThread) (0, { sys := { db := dueLater } })
      (List.replicate 12 (.sched {}) ++ List.replicate 9 (.sched { now := 1 }))).map
        (fun x => (x.1, x.2.passStarts, waits inThread x.2)) = some (1, [1, 0], true) := by decide
  obtain ⟨x, hx, hstate⟩ := Option.map_eq_some_iff.mp hend
  obtain ⟨hclock, hstate⟩ := Prod.mk.inj hstate
  obtain ⟨hstarts, hwaits⟩ := Prod.mk.inj hstate
  obtain ⟨-, -, -, hlength, hlater⟩ := passes_paced rfl hx
  obtain ⟨y, hy, hdone, -⟩ := hlater hwaits { now := 2 } (by rw [hclock]; decide)
  exact ⟨x, hx, hstarts, hlength, hwaits, y, hy, hdone⟩

end Scheduler

end ScosSensor
