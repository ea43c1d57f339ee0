import ScosSensor.EntryRows

/-!
# Updates of entries beside a running scheduler

An update writes the whole row as it was read, with its read-only columns among
the others, while the scheduler advances exactly these columns one partial write
after another. As long as every update finds the scheduler's columns as it has
read them, nothing the scheduler has done is undone.
-/
namespace ScosSensor

/-- The columns that the scheduler advances, and those that say which times the
entry has. -/
structure Progress where
  nextTaskTime : ℤ
  nextTaskId : ℕ
  isActive : Bool
  start : ℤ
  interval : Option ℕ+
  deriving DecidableEq

def ScheduleEntry.progress (e : ScheduleEntry) : Progress :=
  ⟨e.nextTaskTime, e.nextTaskId, e.isActive, e.start, e.interval⟩

/-- The body leaves start, interval and `is_active` as they were read. -/
def Body.Neutral (b : Body) (e : ScheduleEntry) : Prop :=
  (e.assign b).start = e.start ∧ (e.assign b).interval = e.interval ∧
    (e.assign b).isActive = e.isActive

/-- A neutral update writes the scheduler's columns back as they were read. -/
theorem Request.saved_progress {q : Request} (h : q.body.Neutral q.entry) (now : ℤ) :
    (q.saved now).progress = q.entry.progress := by
  obtain ⟨hstart, hinterval, hactive⟩ := h
  have hkeep : q.saved now = q.entry.assign q.body := by
    unfold saved ScheduleEntry.reschedule
    rw [if_neg]
    simp [hstart, hinterval]
  rw [hkeep]
  simp only [ScheduleEntry.progress, Progress.mk.injEq]
  exact ⟨rfl, rfl, hactive, hstart, hinterval⟩

namespace Pc

/-- The entry that a task is about to be queued for. -/
def due : Pc → List String
  | .completing (some _) e _ _ => [e.name]
  | .numbering _ e _ _ => [e.name]
  | _ => []

end Pc

namespace Scheduler

open Runs

variable {cfg : Settings} {s t u : Sys} {l : Label} {i : Input}

/-- The steps of a running scheduler and of updates that do not touch start,
interval and `is_active`. -/
def NeutralUpdates (s : Sys) : Label → Prop
  | .sched _ => True
  | .finalizer _ _ => True
  | .measure _ => True
  | .stop => True
  | .read name body => ∀ e, s.db.getEntry name = some e → body.Neutral e
  | .write _ _ => True
  | _ => False

/-- An update that writes finds the columns of the scheduler as it has read them. -/
def FindsProgress (s : Sys) : Label → Prop
  | .write k _ => ∀ q row, s.requests[k]? = some q → s.db.getEntry q.entry.name = some row →
      row.nextTaskTime = q.entry.nextTaskTime ∧ row.nextTaskId = q.entry.nextTaskId ∧
        row.isActive = q.entry.isActive
  | _ => True

/-- The entries for which tasks have been queued or are about to be. -/
def issuedTo (s : Sys) : List String :=
  (queuedTasks s.history).map (fun x => x.2.scheduleEntryName) ++ s.pc.due

/-- The scheduler has not been set back: its instances agree with the rows, and
the rows are past all that has been taken and issued. -/
structure Advancing (s : Sys) : Prop where
  pc : s.pc.Started
  names : NamesUnique s.db
  heldNames : (s.pc.held.map ScheduleEntry.name).Nodup
  held : ∀ e ∈ s.pc.held, ∃ row, s.db.getEntry e.name = some row ∧ row.progress = e.progress
  requests : ∀ q ∈ s.requests, q.body.Neutral q.entry ∧
    ∃ row, s.db.getEntry q.entry.name = some row ∧ row.start = q.entry.start ∧
      row.interval = q.entry.interval
  taken : ∀ x ∈ takenTimes s.history, ∀ time ∈ x.2.values, ∀ row,
    s.db.getEntry x.1 = some row → row.Spent time
  ids : ∀ x ∈ queuedTasks s.history, ∀ row, s.db.getEntry x.2.scheduleEntryName = some row →
    x.2.taskId < row.nextTaskId
  stored : ∀ x ∈ queuedTasks s.history, (s.db.getEntry x.2.scheduleEntryName).isSome
  keys : ((queuedTasks s.history).map fun x => x.2.key).Nodup
  oneShot : ∀ name row, s.db.getEntry name = some row → row.interval = none →
    (issuedTo s).count name ≤ if row.isActive then 0 else 1

/-- What may have changed of the rows between two states of a run. -/
def RowsAdvance (s t : Sys) : Prop :=
  ∀ name row, s.db.getEntry name = some row → ∃ row', t.db.getEntry name = some row' ∧
    row.nextTaskId ≤ row'.nextTaskId ∧ (row.isActive = false → row'.isActive = false)

/-- The rows of two states agree in the columns of the scheduler. -/
def SameProgress (s t : Sys) : Prop :=
  ∀ name, (t.db.getEntry name).map ScheduleEntry.progress =
    (s.db.getEntry name).map ScheduleEntry.progress

theorem SameProgress.forth (h : SameProgress s t) {name : String} {row : ScheduleEntry}
    (hrow : s.db.getEntry name = some row) :
    ∃ row', t.db.getEntry name = some row' ∧ row'.progress = row.progress := by
  have hname := h name
  rw [hrow, Option.map_some] at hname
  obtain ⟨row', hrow', heq⟩ := Option.map_eq_some_iff.mp hname
  exact ⟨row', hrow', heq⟩

theorem SameProgress.back (h : SameProgress s t) {name : String} {row' : ScheduleEntry}
    (hrow : t.db.getEntry name = some row') :
    ∃ row, s.db.getEntry name = some row ∧ row'.progress = row.progress := by
  have hname := h name
  rw [hrow, Option.map_some] at hname
  obtain ⟨row, hrow', heq⟩ := Option.map_eq_some_iff.mp hname.symm
  exact ⟨row, hrow', heq.symm⟩

theorem SameProgress.rowsAdvance (h : SameProgress s t) : RowsAdvance s t := by
  intro name row hrow
  obtain ⟨row', hrow', heq⟩ := h.forth hrow
  have hid : row'.nextTaskId = row.nextTaskId := congrArg Progress.nextTaskId heq
  have hactive : row'.isActive = row.isActive := congrArg Progress.isActive heq
  exact ⟨row', hrow', hid.ge, fun hoff => hactive.trans hoff⟩

theorem sameProgress_of_schedule (h : t.db.schedule = s.db.schedule) : SameProgress s t := by
  intro name
  rw [Database.getEntry_congr h]

/-- A step that leaves the scheduler's columns, its instances and its records. -/
theorem Advancing.of_same (h : Advancing s) (hsame : SameProgress s t) (hpc : t.pc.Started)
    (hnames : NamesUnique t.db) (hheld : t.pc.held.Sublist s.pc.held)
    (hdue : t.pc.due.Sublist s.pc.due)
    (hrequests : ∀ q ∈ t.requests, q ∈ s.requests ∨ q.body.Neutral q.entry ∧
      ∃ row, s.db.getEntry q.entry.name = some row ∧ row.start = q.entry.start ∧
        row.interval = q.entry.interval)
    (htaken : takenTimes t.history = takenTimes s.history)
    (hqueued : queuedTasks t.history = queuedTasks s.history) : Advancing t := by
  refine ⟨hpc, hnames, ?_, ?_, ?_, ?_, ?_, ?_, by rw [hqueued]; exact h.keys, ?_⟩
  · exact h.heldNames.sublist (hheld.map ScheduleEntry.name)
  · intro e he
    obtain ⟨row, hrow, hprogress⟩ := h.held e (hheld.subset he)
    obtain ⟨row', hrow', heq⟩ := hsame.forth hrow
    exact ⟨row', hrow', heq.trans hprogress⟩
  · intro q hq
    have hread : q.body.Neutral q.entry ∧
        ∃ row, s.db.getEntry q.entry.name = some row ∧ row.start = q.entry.start ∧
          row.interval = q.entry.interval := by
      obtain hold | hnew := hrequests q hq
      · exact h.requests q hold
      · exact hnew
    obtain ⟨hneutral, row, hrow, hstart, hinterval⟩ := hread
    obtain ⟨row', hrow', heq⟩ := hsame.forth hrow
    exact ⟨hneutral, row', hrow', (congrArg Progress.start heq).trans hstart,
      (congrArg Progress.interval heq).trans hinterval⟩
  · intro x hx time htime row' hrow'
    rw [htaken] at hx
    obtain ⟨row, hrow, heq⟩ := hsame.back hrow'
    have hspent := h.taken x hx time htime row hrow
    unfold ScheduleEntry.Spent
    rw [show row'.isActive = row.isActive from congrArg Progress.isActive heq,
      show row'.nextTaskTime = row.nextTaskTime from congrArg Progress.nextTaskTime heq]
    exact hspent
  · intro x hx row' hrow'
    rw [hqueued] at hx
    obtain ⟨row, hrow, heq⟩ := hsame.back hrow'
    rw [show row'.nextTaskId = row.nextTaskId from congrArg Progress.nextTaskId heq]
    exact h.ids x hx row hrow
  · intro x hx
    rw [hqueued] at hx
    obtain ⟨row, hrow⟩ := Option.isSome_iff_exists.mp (h.stored x hx)
    obtain ⟨row', hrow', -⟩ := hsame.forth hrow
    simp [hrow']
  · intro name row' hrow' hinterval
    obtain ⟨row, hrow, heq⟩ := hsame.back hrow'
    rw [show row'.interval = row.interval from congrArg Progress.interval heq] at hinterval
    rw [show row'.isActive = row.isActive from congrArg Progress.isActive heq]
    have hcount : (issuedTo t).count name ≤ (issuedTo s).count name := by
      unfold issuedTo
      rw [hqueued, List.count_append, List.count_append]
      exact Nat.add_le_add_left (hdue.count_le name) _
    exact hcount.trans (h.oneShot name row hrow hinterval)

/-- A partial write of the scheduler to the row `r` of its next instance `e`. -/
structure Advance (s t : Sys) (e e' : ScheduleEntry) (todo : List ScheduleEntry)
    (r r' : ScheduleEntry) : Prop where
  held : s.pc.held = e :: todo
  heldNext : t.pc.held = e' :: todo ∨ t.pc.held = todo
  name : e'.name = e.name
  row : s.db.getEntry e.name = some r
  rows : ∀ name, t.db.getEntry name = if name = e.name then some r' else s.db.getEntry name
  progress : r'.progress = e'.progress
  start : r'.start = r.start
  interval : r'.interval = r.interval
  time : r.nextTaskTime ≤ r'.nextTaskTime
  id : r.nextTaskId ≤ r'.nextTaskId
  off : r.isActive = false → r'.isActive = false

theorem Advance.rowsAdvance {e e' r r' : ScheduleEntry} {todo : List ScheduleEntry}
    (h : Advance s t e e' todo r r') : RowsAdvance s t := by
  intro name row hrow
  rw [h.rows name]
  split_ifs with hname
  · subst hname
    obtain rfl : r = row := Option.some.inj (h.row.symm.trans hrow)
    exact ⟨r', rfl, h.id, h.off⟩
  · exact ⟨row, hrow, le_rfl, fun hoff => hoff⟩

theorem Advance.spent {e e' r r' : ScheduleEntry} {todo : List ScheduleEntry}
    (h : Advance s t e e' todo r r') {time : ℤ} (hspent : r.Spent time) : r'.Spent time := by
  obtain hoff | hlt := hspent
  · exact .inl (h.off hoff)
  · exact .inr (hlt.trans_le h.time)

/-- A row after the write is the written one, or as it was. -/
theorem Advance.row_cases {e e' r r' : ScheduleEntry} {todo : List ScheduleEntry}
    (h : Advance s t e e' todo r r') {name : String} {row : ScheduleEntry}
    (hrow : t.db.getEntry name = some row) :
    (name = e.name ∧ row = r') ∨ (name ≠ e.name ∧ s.db.getEntry name = some row) := by
  rw [h.rows] at hrow
  split_ifs at hrow with hname
  · exact .inl ⟨hname, (Option.some.inj hrow).symm⟩
  · exact .inr ⟨hname, hrow⟩

theorem Advance.written {e e' r r' : ScheduleEntry} {todo : List ScheduleEntry}
    (h : Advance s t e e' todo r r') : t.db.getEntry e.name = some r' := by
  rw [h.rows, if_pos rfl]

theorem Advance.heldNames {e e' r r' : ScheduleEntry} {todo : List ScheduleEntry}
    (h : Advance s t e e' todo r r') (hs : Advancing s) :
    (t.pc.held.map ScheduleEntry.name).Nodup := by
  have hsnames : ((e :: todo).map ScheduleEntry.name).Nodup := h.held ▸ hs.heldNames
  obtain heq | heq := h.heldNext
  · rw [heq, List.map_cons, h.name]
    exact hsnames
  · rw [heq]
    exact (List.nodup_cons.mp hsnames).2

theorem Advance.heldRows {e e' r r' : ScheduleEntry} {todo : List ScheduleEntry}
    (h : Advance s t e e' todo r r') (hs : Advancing s) :
    ∀ a ∈ t.pc.held, ∃ row, t.db.getEntry a.name = some row ∧ row.progress = a.progress := by
  have hsnames : ((e :: todo).map ScheduleEntry.name).Nodup := h.held ▸ hs.heldNames
  have hnotin : e.name ∉ todo.map ScheduleEntry.name := (List.nodup_cons.mp hsnames).1
  have htodo : ∀ a ∈ todo, ∃ row, t.db.getEntry a.name = some row ∧ row.progress = a.progress := by
    intro a ha
    have hne : a.name ≠ e.name := fun heq => hnotin (heq ▸ List.mem_map_of_mem ha)
    rw [h.rows, if_neg hne]
    exact hs.held a (h.held ▸ List.mem_cons_of_mem e ha)
  intro a ha
  obtain heq | heq := h.heldNext
  · rw [heq] at ha
    rcases List.mem_cons.mp ha with rfl | ha
    · exact ⟨r', by rw [h.name, h.written], h.progress⟩
    · exact htodo a ha
  · rw [heq] at ha
    exact htodo a ha

/-- Requests go on to find the start and the interval that they have read. -/
theorem Advance.requestRow {e e' r r' : ScheduleEntry} {todo : List ScheduleEntry}
    (h : Advance s t e e' todo r r') {q : Request}
    (hq : ∃ row, s.db.getEntry q.entry.name = some row ∧ row.start = q.entry.start ∧
      row.interval = q.entry.interval) :
    ∃ row, t.db.getEntry q.entry.name = some row ∧ row.start = q.entry.start ∧
      row.interval = q.entry.interval := by
  obtain ⟨row, hrow, hstart, hinterval⟩ := hq
  rw [h.rows]
  split_ifs with hname
  · rw [hname] at hrow
    obtain rfl : r = row := Option.some.inj (h.row.symm.trans hrow)
    exact ⟨r', rfl, h.start.trans hstart, h.interval.trans hinterval⟩
  · exact ⟨row, hrow, hstart, hinterval⟩

/-- Tasks that were queued keep a row, with a counter past their ids. -/
theorem Advance.queuedRow {e e' r r' : ScheduleEntry} {todo : List ScheduleEntry}
    (h : Advance s t e e' todo r r') (hs : Advancing s) {x : ℕ × PendingTask}
    (hx : x ∈ queuedTasks s.history) :
    (t.db.getEntry x.2.scheduleEntryName).isSome ∧
      ∀ row, t.db.getEntry x.2.scheduleEntryName = some row → x.2.taskId < row.nextTaskId := by
  constructor
  · rw [h.rows]
    split_ifs with hname
    · rfl
    · exact hs.stored x hx
  · intro row hrow
    obtain ⟨hname, rfl⟩ | ⟨-, hold⟩ := h.row_cases hrow
    · exact (hs.ids x hx r (hname ▸ h.row)).trans_le h.id
    · exact hs.ids x hx row hold

theorem Advancing.of_advance {e e' r r' : ScheduleEntry} {todo : List ScheduleEntry}
    (hs : Advancing s) (h : Advance s t e e' todo r r') (hpc : t.pc.Started)
    (hnames : NamesUnique t.db) (hrequests : t.requests = s.requests)
    (htaken : ∀ x ∈ takenTimes t.history, x ∈ takenTimes s.history ∨
      x.1 = e.name ∧ ∀ time ∈ x.2.values, r'.Spent time)
    (hqueued : queuedTasks t.history = queuedTasks s.history ∨
      ∃ x, queuedTasks t.history = queuedTasks s.history ++ [x] ∧
        x.2.scheduleEntryName = e.name ∧ x.2.taskId < r'.nextTaskId ∧ r.nextTaskId ≤ x.2.taskId)
    (hothers : ∀ name, name ≠ e.name → (issuedTo t).count name ≤ (issuedTo s).count name)
    (honce : r.interval = none → (issuedTo t).count e.name ≤ if r'.isActive then 0 else 1) :
    Advancing t := by
  have hqueuedRow : ∀ x ∈ queuedTasks t.history, (t.db.getEntry x.2.scheduleEntryName).isSome ∧
      ∀ row, t.db.getEntry x.2.scheduleEntryName = some row → x.2.taskId < row.nextTaskId := by
    intro x hx
    obtain heq | ⟨y, heq, hyname, hyid, -⟩ := hqueued
    · exact h.queuedRow hs (heq ▸ hx)
    · rw [heq] at hx
      rcases List.mem_append.mp hx with hx | hx
      · exact h.queuedRow hs hx
      · obtain rfl := List.mem_singleton.mp hx
        rw [hyname, h.written]
        exact ⟨rfl, fun row hrow => Option.some.inj hrow ▸ hyid⟩
  refine ⟨hpc, hnames, h.heldNames hs, h.heldRows hs, ?_, ?_, fun x hx => (hqueuedRow x hx).2,
    fun x hx => (hqueuedRow x hx).1, ?_, ?_⟩
  · intro q hq
    obtain ⟨hneutral, hrow⟩ := hs.requests q (hrequests ▸ hq)
    exact ⟨hneutral, h.requestRow hrow⟩
  · intro x hx time htime row hrow
    obtain ⟨hname, rfl⟩ | ⟨hname, hrow⟩ := h.row_cases hrow
    · obtain hold | ⟨-, hnew⟩ := htaken x hx
      · exact h.spent (hs.taken x hold time htime r (hname ▸ h.row))
      · exact hnew time htime
    · obtain hold | ⟨hnew, -⟩ := htaken x hx
      · exact hs.taken x hold time htime row hrow
      · exact absurd hnew hname
  · obtain heq | ⟨y, heq, hyname, -, hyid⟩ := hqueued
    · rw [heq]
      exact hs.keys
    · rw [heq, List.map_append, List.map_singleton]
      refine hs.keys.append (List.nodup_singleton _) (List.disjoint_singleton.mpr ?_)
      intro hmem
      obtain ⟨x, hx, hkey⟩ := List.mem_map.mp hmem
      have hxname : x.2.scheduleEntryName = e.name := (congrArg Prod.fst hkey).trans hyname
      have hxid : x.2.taskId = y.2.taskId := congrArg Prod.snd hkey
      have hlt := hs.ids x hx r (hxname ▸ h.row)
      omega
  · intro name row hrow hinterval
    obtain ⟨rfl, rfl⟩ | ⟨hname, hrow⟩ := h.row_cases hrow
    · exact honce (h.interval.symm.trans hinterval)
    · exact (hothers name hname).trans (hs.oneShot name row hrow hinterval)

theorem Jump.due {pc : Pc} (h : Jump cfg s pc) (hpc : s.pc.Started) :
    pc.Started ∧ pc.due = [] := by
  cases h <;> simp_all [Pc.Started, Pc.due]

/-- A step of the scheduler that writes no row and holds no more instances. -/
theorem Advancing.of_schedule (hs : Advancing s) (hschedule : t.db.schedule = s.db.schedule)
    (hpc : t.pc.Started) (hheld : t.pc.held.Sublist s.pc.held)
    (hdue : t.pc.due.Sublist s.pc.due) (hrequests : t.requests = s.requests)
    (htaken : takenTimes t.history = takenTimes s.history)
    (hqueued : queuedTasks t.history = queuedTasks s.history) : Advancing t ∧ RowsAdvance s t := by
  have hsame := sameProgress_of_schedule hschedule
  refine ⟨hs.of_same hsame hpc (namesUnique_of_schedule hs.names hschedule) hheld hdue ?_ htaken
    hqueued, hsame.rowsAdvance⟩
  intro q hq
  exact .inl (hrequests ▸ hq)

/-- Reading a snapshot: the instances are the rows. -/
theorem advancing_read (hs : Advancing s) (hpc : s.pc = .reading) :
    Advancing { s with passes := s.passes + 1, pc := .taking s.db.activeEntries [] } := by
  have hcount := hs.oneShot
  simp only [issuedTo, hpc, Pc.due] at hcount
  refine ⟨trivial, hs.names, ?_, ?_, hs.requests, hs.taken, hs.ids, hs.stored, hs.keys, hcount⟩
  · exact Database.nodup_activeEntries hs.names
  · intro e he
    exact ⟨e, Database.getEntry_of_mem_activeEntries hs.names he, rfl⟩

/-- The instance at the head of the snapshot and its row. -/
theorem Advancing.head (hs : Advancing s) {e : ScheduleEntry} {todo : List ScheduleEntry}
    (hheld : s.pc.held = e :: todo) :
    ∃ r, s.db.getEntry e.name = some r ∧ r.nextTaskTime = e.nextTaskTime ∧
      r.nextTaskId = e.nextTaskId ∧ r.isActive = e.isActive ∧ r.start = e.start ∧
      r.interval = e.interval := by
  obtain ⟨r, hr, hprogress⟩ := hs.held e (hheld ▸ List.mem_cons_self)
  obtain ⟨htime, hid, hactive, hstart, hinterval⟩ := Progress.mk.inj hprogress
  exact ⟨r, hr, htime, hid, hactive, hstart, hinterval⟩

theorem advancing_take (hs : Advancing s) (now : ℤ) {e : ScheduleEntry}
    {todo : List ScheduleEntry} {queue : TaskQueue ℕ} (hpc : s.pc = .taking (e :: todo) queue)
    (ht : t = { s with
      db := s.db.writeRow e.name (e.takePending now).2.writeTimes
      pc := .completing (e.dueTime now) (e.takePending now).2 todo queue
      history := s.history ++ [.taken e.name (e.takePending now).1] }) :
    Advancing t ∧ RowsAdvance s t := by
  obtain ⟨r, hr, htime, hid, hactive, hstart, hinterval⟩ := hs.head (by rw [hpc]; rfl)
  have hcolumns : ∀ row, ((e.takePending now).2.writeTimes row).name = row.name := fun _ => rfl
  have hadvance : Advance s t e (e.takePending now).2 todo r
      ((e.takePending now).2.writeTimes r) := by
    subst ht
    refine ⟨by rw [hpc]; rfl, .inl rfl, ScheduleEntry.takePending_name e now, hr, ?_, ?_, rfl, rfl,
      ?_, le_rfl, ?_⟩
    · exact Database.getEntry_writeRow hcolumns hr
    · simp [ScheduleEntry.progress, ScheduleEntry.writeTimes, ScheduleEntry.takePending, hid,
        hstart, hinterval]
    · rw [htime]
      exact ScheduleEntry.nextTaskTime_le_takeUntil e (now + 1)
    · intro hoff
      by_contra hon
      have hwas := ScheduleEntry.takeUntil_isActive_of (Bool.eq_true_of_not_eq_false hon)
      rw [← hactive, hoff] at hwas
      cases hwas
  refine ⟨hs.of_advance hadvance ?_ ?_ ?_ ?_ ?_ ?_ ?_, hadvance.rowsAdvance⟩
  · subst ht
    trivial
  · subst ht
    exact namesUnique_writeRow hs.names hcolumns e.name
  · subst ht
    rfl
  · intro x hx
    subst ht
    rw [takenTimes_append] at hx
    rcases List.mem_append.mp hx with hx | hx
    · exact .inl hx
    · refine .inr ?_
      obtain rfl : x = (e.name, (e.takePending now).1) := by simpa [Event.takenTime] using hx
      exact ⟨rfl, fun time htime => ScheduleEntry.spent_of_mem_takeUntil htime⟩
  · subst ht
    simp [Event.queuedTask]
  · intro name hname
    subst ht
    cases e.dueTime now with
    | none => simp [issuedTo, Pc.due, hpc, Event.queuedTask]
    | some time => simp [issuedTo, Pc.due, hpc, Event.queuedTask, hname.symm]
  · intro honeshot
    have hbefore := hs.oneShot e.name r hr honeshot
    subst ht
    cases hdue : e.dueTime now with
    | none =>
      simp only [ScheduleEntry.takePending_of_not_due hdue, ScheduleEntry.writeTimes]
      rw [hactive] at hbefore
      simpa [issuedTo, Pc.due, hpc, Event.queuedTask] using hbefore
    | some time =>
      obtain ⟨hon, hoff⟩ :=
        ScheduleEntry.takePending_oneShot (hinterval.symm.trans honeshot) hdue
      rw [hactive, hon] at hbefore
      simp only [ScheduleEntry.writeTimes, hoff]
      simpa [issuedTo, Pc.due, hpc, Event.queuedTask] using hbefore

theorem advancing_cancel (hs : Advancing s) {taskTime : Option ℤ} {e : ScheduleEntry}
    {todo : List ScheduleEntry} {queue : TaskQueue ℕ}
    (hpc : s.pc = .completing taskTime e todo queue)
    (ht : t = { s with
      db := s.db.writeRow e.name fun row => { row with isActive := false }
      pc := .settled taskTime { e with isActive := false } todo queue }) :
    Advancing t ∧ RowsAdvance s t := by
  obtain ⟨r, hr, htime, hid, hactive, hstart, hinterval⟩ := hs.head (by rw [hpc]; rfl)
  have hcolumns : ∀ row : ScheduleEntry,
      ({ row with isActive := false } : ScheduleEntry).name = row.name := fun _ => rfl
  have hadvance : Advance s t e { e with isActive := false } todo r { r with isActive := false } := by
    subst ht
    refine ⟨by rw [hpc]; rfl, ?_, rfl, hr, ?_, ?_, rfl, rfl, le_rfl, le_rfl, fun _ => rfl⟩
    · cases taskTime with
      | none => exact .inr rfl
      | some time => exact .inl rfl
    · exact Database.getEntry_writeRow hcolumns hr
    · simp [ScheduleEntry.progress, htime, hid, hstart, hinterval]
  refine ⟨hs.of_advance hadvance ?_ ?_ ?_ ?_ ?_ ?_ ?_, hadvance.rowsAdvance⟩
  · subst ht
    cases taskTime <;> trivial
  · subst ht
    exact namesUnique_writeRow hs.names hcolumns e.name
  · subst ht
    rfl
  · subst ht
    exact fun x hx => .inl hx
  · subst ht
    exact .inl rfl
  · intro name hname
    subst ht
    cases taskTime <;> simp [issuedTo, Pc.due, Pc.settled, hpc]
  · intro honeshot
    have hbefore := hs.oneShot e.name r hr honeshot
    have hle : (if r.isActive then 0 else 1) ≤ 1 := by split_ifs <;> omega
    subst ht
    cases taskTime with
    | none => simpa [issuedTo, Pc.due, Pc.settled, hpc] using hbefore.trans hle
    | some time => simpa [issuedTo, Pc.due, Pc.settled, hpc] using hbefore.trans hle

theorem advancing_number (hs : Advancing s) {taskTime : ℤ} {e : ScheduleEntry}
    {todo : List ScheduleEntry} {queue : TaskQueue ℕ}
    (hpc : s.pc = .numbering taskTime e todo queue)
    (ht : t = { s with
      db := s.db.writeRow e.name fun row => { row with nextTaskId := e.nextTaskId + 1 }
      pc := .taking todo (queue.enter taskTime e.priority e.action e.name e.nextTaskId)
      history := s.history ++
        [.queued s.passes ⟨taskTime, e.priority, e.action, e.name, e.nextTaskId⟩] }) :
    Advancing t ∧ RowsAdvance s t := by
  obtain ⟨r, hr, htime, hid, hactive, hstart, hinterval⟩ := hs.head (by rw [hpc]; rfl)
  have hcolumns : ∀ row : ScheduleEntry,
      ({ row with nextTaskId := e.nextTaskId + 1 } : ScheduleEntry).name = row.name := fun _ => rfl
  have hadvance : Advance s t e { e with nextTaskId := e.nextTaskId + 1 } todo r
      { r with nextTaskId := e.nextTaskId + 1 } := by
    subst ht
    refine ⟨by rw [hpc]; rfl, .inr rfl, rfl, hr, ?_, ?_, rfl, rfl, le_rfl, ?_, fun hoff => hoff⟩
    · exact Database.getEntry_writeRow hcolumns hr
    · simp [ScheduleEntry.progress, htime, hactive, hstart, hinterval]
    · rw [hid]
      exact Nat.le_succ _
  refine ⟨hs.of_advance hadvance ?_ ?_ ?_ ?_ ?_ ?_ ?_, hadvance.rowsAdvance⟩
  · subst ht
    trivial
  · subst ht
    exact namesUnique_writeRow hs.names hcolumns e.name
  · subst ht
    rfl
  · intro x hx
    subst ht
    exact .inl (by simpa [Event.takenTime] using hx)
  · subst ht
    refine .inr ⟨(s.passes, ⟨taskTime, e.priority, e.action, e.name, e.nextTaskId⟩), ?_, rfl, ?_, ?_⟩
    · simp [Event.queuedTask]
    · exact Nat.lt_succ_self _
    · exact hid.le
  · intro name hname
    subst ht
    simp [issuedTo, Pc.due, hpc, Event.queuedTask]
  · intro honeshot
    have hbefore := hs.oneShot e.name r hr honeshot
    subst ht
    simpa [issuedTo, Pc.due, hpc, Event.queuedTask] using hbefore

/-- Every step of the scheduler thread advances. -/
theorem schedMove_advancing (h : SchedMove cfg i s t) (hs : Advancing s) :
    Advancing t ∧ RowsAdvance s t := by
  cases h with
  | read hpc => exact ⟨advancing_read hs hpc, (sameProgress_of_schedule rfl).rowsAdvance⟩
  | take e todo queue hpc => exact advancing_take hs i.now hpc rfl
  | cancel taskTime e todo queue hpc => exact advancing_cancel hs hpc rfl
  | number taskTime e todo queue hpc => exact advancing_number hs hpc rfl
  | reset e todo last hpc =>
    have hstarted := hs.pc
    rw [hpc] at hstarted
    exact hstarted.elim
  | jump pc hjump =>
    obtain ⟨hstarted, hdue⟩ := hjump.due hs.pc
    refine hs.of_schedule rfl hstarted ?_ ?_ rfl rfl rfl
    · exact hjump.held ▸ List.Sublist.refl _
    · exact hdue ▸ List.nil_sublist _
  | keep taskTime e todo queue hpc =>
    refine hs.of_schedule rfl ?_ ?_ ?_ rfl rfl rfl
    · cases taskTime <;> trivial
    · rw [hpc]
      cases taskTime with
      | none => exact List.sublist_cons_self e todo
      | some time => exact .refl _
    · rw [hpc]
      cases taskTime with
      | none => exact .refl _
      | some time => exact .refl _
  | raise err =>
    exact hs.of_schedule rfl trivial (List.nil_sublist _) (List.nil_sublist _) rfl rfl rfl
  | fetch task tasks e hpc =>
    exact hs.of_schedule rfl trivial (List.nil_sublist _) (List.nil_sublist _) rfl rfl rfl
  | evict task tasks hpc =>
    exact hs.of_schedule (Database.removeOldest_frame _ _ _ _ _).1 trivial (List.nil_sublist _)
      (List.nil_sublist _) rfl rfl rfl
  | create task tasks result db hpc hsave =>
    exact hs.of_schedule (Database.superSave_schedule hsave) trivial (List.nil_sublist _)
      (List.nil_sublist _) rfl (by simp [Event.takenTime]) (by simp [Event.queuedTask])
  | call task result tasks hpc =>
    exact hs.of_schedule rfl trivial (List.nil_sublist _) (List.nil_sublist _) rfl
      (by simp [Event.takenTime]) (by simp [Event.queuedTask])
  | spawn task result started tasks hpc =>
    exact hs.of_schedule rfl trivial (List.nil_sublist _) (List.nil_sublist _) rfl
      (by simp [Event.takenTime]) (by simp [Event.queuedTask])
  | finish task result started tasks hpc =>
    exact hs.of_schedule rfl trivial (List.nil_sublist _) (List.nil_sublist _) rfl
      (by simp [Event.takenTime]) (by simp [Event.queuedTask])
  | finalize f f' tasks w hpc hmove =>
    exact hs.of_schedule hmove.schedule trivial (List.nil_sublist _) (List.nil_sublist _) rfl
      hmove.takenTimes hmove.tasks.2.2
  | finalized f tasks w hpc hmove =>
    exact hs.of_schedule hmove.schedule trivial (List.nil_sublist _) (List.nil_sublist _) rfl
      hmove.takenTimes hmove.tasks.2.2
  | finalizeRaise f tasks err w hpc hraise =>
    exact hs.of_schedule (congrArg Database.schedule hraise.frame.1) trivial (List.nil_sublist _)
      (List.nil_sublist _) rfl (congrArg takenTimes hraise.frame.2.1) hraise.queuedTasks

/-- An update that writes on what it has read leaves the scheduler's columns. -/
theorem sameProgress_write {k : ℕ} {now : ℤ} {q : Request} (hs : Advancing s)
    (hq : s.requests[k]? = some q) (hfinds : FindsProgress s (.write k now))
    (hdb : t.db = s.db.saveWhole (q.saved now)) : SameProgress s t := by
  intro name
  rw [hdb]
  by_cases hname : name = (q.saved now).name
  · obtain ⟨hneutral, row, hrow, hstart, hinterval⟩ := hs.requests q (List.mem_of_getElem? hq)
    obtain ⟨htime, hid, hactive⟩ := hfinds q row hq hrow
    have hprogress : row.progress = q.entry.progress := by
      simp only [ScheduleEntry.progress, htime, hid, hactive, hstart, hinterval]
    rw [hname, Database.getEntry_saveWhole_self, Request.saved_name, hrow, Option.map_some,
      Option.map_some, Request.saved_progress hneutral, hprogress]
  · rw [Database.getEntry_saveWhole_ne hname]

/-- What one step preserves, and how it moves the rows. -/
theorem step_advancing (hs : Advancing s) (hneutral : NeutralUpdates s l)
    (hfinds : FindsProgress s l) (h : step cfg s l = some t) : Advancing t ∧ RowsAdvance s t := by
  have hnames := step_names hs.names h
  cases step_cases h with
  | sched i s' hmove => exact schedMove_advancing hmove hs
  | finalizer k i f f' w hf hmove =>
    exact hs.of_schedule hmove.schedule hs.pc (.refl _) (.refl _) rfl hmove.takenTimes
      hmove.tasks.2.2
  | finalizerEnd k i f w hf hmove =>
    exact hs.of_schedule hmove.schedule hs.pc (.refl _) (.refl _) rfl hmove.takenTimes
      hmove.tasks.2.2
  | finalizerRaise k i f err w hf hraise =>
    exact hs.of_schedule (congrArg Database.schedule hraise.frame.1) hs.pc (.refl _) (.refl _) rfl
      (congrArg takenTimes hraise.frame.2.1) hraise.queuedTasks
  | measure recordingId =>
    exact hs.of_schedule (Database.storeAcquisition_schedule _ _ _) hs.pc (.refl _) (.refl _) rfl
      rfl rfl
  | stop => exact hs.of_schedule rfl hs.pc (.refl _) (.refl _) rfl rfl rfl
  | read name body e he =>
    have hrow := (loadEntry_ok he).1
    have hsame : SameProgress s { s with requests := s.requests ++ [⟨e, body⟩] } :=
      sameProgress_of_schedule rfl
    refine ⟨hs.of_same hsame hs.pc hs.names (.refl _) (.refl _) ?_ rfl rfl, hsame.rowsAdvance⟩
    intro q hq
    rcases List.mem_append.mp hq with hq | hq
    · exact .inl hq
    · obtain rfl := List.mem_singleton.mp hq
      refine .inr ⟨hneutral e hrow, e, ?_, rfl, rfl⟩
      rwa [Database.name_of_getEntry hrow]
  | write k now q hq =>
    have hsame : SameProgress s { s with
        db := s.db.saveWhole (q.saved now), requests := s.requests.eraseIdx k } :=
      sameProgress_write hs hq hfinds rfl
    refine ⟨hs.of_same hsame hs.pc hnames (.refl _) (.refl _) ?_ rfl rfl, hsame.rowsAdvance⟩
    intro q' hq'
    exact .inl (List.mem_of_mem_eraseIdx hq')
  | crash => exact hneutral.elim
  | post => exact hneutral.elim
  | deleteEntry => exact hneutral.elim
  | deleteResult => exact hneutral.elim

/-- Nothing that the scheduler has done is undone: ids and cancellations stay,
taken times are gone, no id is issued twice and no one-shot entry twice. -/
structure NotRolledBack (s t : Sys) : Prop where
  rows : RowsAdvance s t
  taken : ∀ x ∈ takenTimes t.history, ∀ time ∈ x.2.values, ∀ row,
    t.db.getEntry x.1 = some row → time ∉ row.remaining
  issuedOnce : ((queuedTasks t.history).map fun x => x.2.key).Nodup
  oneShot : ∀ name row, t.db.getEntry name = some row → row.interval = none →
    ((queuedTasks t.history).map fun x => x.2.scheduleEntryName).count name ≤ 1

theorem Advancing.notRolledBack (h : Advancing t) (hrows : RowsAdvance s t) : NotRolledBack s t := by
  refine ⟨hrows, ?_, h.keys, ?_⟩
  · intro x hx time htime row hrow
    exact (h.taken x hx time htime row hrow).not_remaining
  · intro name row hrow hinterval
    have hcount := h.oneShot name row hrow hinterval
    unfold issuedTo at hcount
    rw [List.count_append] at hcount
    split_ifs at hcount <;> omega

/-- In every run of the loops and of neutral updates whose writes find the
columns of the scheduler as they were read, nothing is rolled back between any
two states. -/
theorem updates_not_rolled_back (cfg : Settings) (db : Database) (hnames : NamesUnique db)
    (before after : List Label) (s t : Sys)
    (hneutral : Along (step cfg) NeutralUpdates { db := db, pc := .checking } (before ++ after))
    (hfinds : Along (step cfg) FindsProgress { db := db, pc := .checking } (before ++ after))
    (hbefore : exec (step cfg) { db := db, pc := .checking } before = some s)
    (hafter : exec (step cfg) s after = some t) : NotRolledBack s t := by
  have hstep : ∀ s l s', Advancing s → NeutralUpdates s l ∧ FindsProgress s l →
      step cfg s l = some s' → Advancing s' :=
    fun s l s' hs hok h => (step_advancing hs hok.1 hok.2 h).1
  have hmove : ∀ s l s', Advancing s → NeutralUpdates s l ∧ FindsProgress s l →
      step cfg s l = some s' → RowsAdvance s s' :=
    fun s l s' hs hok h => (step_advancing hs hok.1 hok.2 h).2
  have hrefl : ∀ s, RowsAdvance s s :=
    fun s name row hrow => ⟨row, hrow, le_rfl, fun hoff => hoff⟩
  have htrans : ∀ r s t, RowsAdvance r s → RowsAdvance s t → RowsAdvance r t := by
    intro r s t h h' name row hrow
    obtain ⟨row₁, hrow₁, hid₁, hoff₁⟩ := h name row hrow
    obtain ⟨row₂, hrow₂, hid₂, hoff₂⟩ := h' name row₁ hrow₁
    exact ⟨row₂, hrow₂, hid₁.trans hid₂, fun hoff => hoff₂ (hoff₁ hoff)⟩
  have hstart : Advancing { db := db, pc := .checking } := by
    refine ⟨trivial, hnames, List.nodup_nil, ?_, ?_, ?_, ?_, ?_, List.nodup_nil, ?_⟩
    · intro e he
      cases he
    · intro q hq
      cases hq
    · intro x hx
      cases hx
    · intro x hx
      cases hx
    · intro x hx
      cases hx
    · intro name row _ _
      simp [issuedTo, queuedTasks, Pc.due]
  have hok := hneutral.and hfinds
  obtain ⟨hokBefore, hokAfter⟩ := along_append.mp hok
  have hs := exec_invariant hstep hstart hokBefore hbefore
  have ht := exec_invariant hstep hs (hokAfter s hbefore) hafter
  exact ht.notRolledBack (exec_relation hrefl htrans hstep hmove hs (hokAfter s hbefore) hafter)

/-- One recurring entry, and an update of its priority. -/
def oneSweep : Database where
  schedule := [everyTenSeconds]

def newPriority : Body where
  priority := some 5

theorem neutral_newPriority (e : ScheduleEntry) : newPriority.Neutral e := ⟨rfl, rfl, rfl⟩

/-- The update reads the row before a pass and writes it after the pass has
queued its task. The next pass takes the same time and issues the same id. -/
theorem update_rolls_back :
    ∃ s t, exec (step { actions := ["acquire"] }) { db := oneSweep, pc := .checking }
        (.read "sweep" newPriority :: List.replicate 5 (.sched {})) = some s ∧
      exec (step { actions := ["acquire"] }) s (.write 0 0 :: List.replicate 13 (.sched {})) =
        some t ∧
      Along (step { actions := ["acquire"] }) NeutralUpdates { db := oneSweep, pc := .checking }
        ((.read "sweep" newPriority :: List.replicate 5 (.sched {})) ++
          .write 0 0 :: List.replicate 13 (.sched {})) ∧
      ¬ NotRolledBack s t := by
  have hqueued : (exec (step { actions := ["acquire"] }) { db := oneSweep, pc := .checking }
      ((.read "sweep" newPriority :: List.replicate 5 (.sched {})) ++
        .write 0 0 :: List.replicate 13 (.sched {}))).map
        (fun t => (queuedTasks t.history).map fun x => x.2.key) =
      some [("sweep", 1), ("sweep", 1)] := by decide
  obtain ⟨t, ht, hkeys⟩ := Option.map_eq_some_iff.mp hqueued
  obtain ⟨s, hs, hrest⟩ := exec_append.mp ht
  refine ⟨s, t, hs, hrest, ?_, ?_⟩
  · rw [List.cons_append]
    refine ⟨fun e _ => neutral_newPriority e, fun s' _ => ?_⟩
    apply along_append.mpr
    refine ⟨along_replicate (fun _ => trivial) 5 s', fun u _ => ⟨trivial, fun u' _ => ?_⟩⟩
    exact along_replicate (fun _ => trivial) 13 u'
  · intro h
    have honce := h.issuedOnce
    rw [hkeys] at honce
    exact absurd honce (by decide)

/-- The same update between two passes. -/
theorem updates_not_rolled_back_between :
    ∃ s t, exec (step { actions := ["acquire"] }) { db := oneSweep, pc := .checking }
        [.read "sweep" newPriority] = some s ∧
      exec (step { actions := ["acquire"] }) s (.write 0 0 :: List.replicate 5 (.sched {})) =
        some t ∧ NotRolledBack s t := by
  have hnames : NamesUnique oneSweep := by
    unfold NamesUnique
    decide
  have hruns : (exec (step { actions := ["acquire"] }) { db := oneSweep, pc := .checking }
      ([.read "sweep" newPriority] ++ .write 0 0 :: List.replicate 5 (.sched {}))).isSome := by
    decide
  obtain ⟨t, ht⟩ := Option.isSome_iff_exists.mp hruns
  obtain ⟨s, hs, hrest⟩ := exec_append.mp ht
  refine ⟨s, t, hs, hrest, ?_⟩
  apply updates_not_rolled_back { actions := ["acquire"] } oneSweep hnames
    [.read "sweep" newPriority] (.write 0 0 :: List.replicate 5 (.sched {})) s t _ _ hs hrest
  · refine ⟨fun e _ => neutral_newPriority e, fun s' _ => ⟨trivial, fun u _ => ?_⟩⟩
    exact along_replicate (fun _ => trivial) 5 u
  · refine ⟨trivial, ?_⟩
    intro s' hread
    obtain rfl := Option.some.inj hread
    refine ⟨?_, fun u _ => along_replicate (fun _ => trivial) 5 u⟩
    intro q row hq hrow
    obtain rfl := Option.some.inj hq
    obtain rfl := Option.some.inj hrow
    exact ⟨rfl, rfl, rfl⟩

end Scheduler

end ScosSensor
