import AvrOs.Mutex

/-! # tasks.c -/

namespace AvrOs
open Intrusive

def osTaskPriority (priority : ℕ) : ℕ :=
  if priority < OS_PRIORITY_MIN then OS_PRIORITY_MIN
  else if priority > OS_PRIORITY_MAX then OS_PRIORITY_MAX
  else priority

namespace Kernel

variable {c : Config} {S : Type → Type → Type} [LinkStore S]

/-- The control block of a new task, everything else is filled with zeros. -/
def newTask (c : Config) (priority : ℕ) (dynamic : Bool) : OsTask c where
  result := false
  waitList := none
  wake := 0
  wait := .item 0
  state := 0
  priority := osTaskPriority priority
  basePriority := osTaskPriority priority
  dynamic := c.dynamic && dynamic

/-- `osTaskSetup` for memory which is large enough. -/
def osTaskSetup (k : Kernel c S) (task : Place c) (priority : ℕ) (dynamic : Bool) : Kernel c S :=
  let k := { k with
    links := LinkStore.reset k.links task
    timerLinks := LinkStore.reset k.timerLinks task
    ownedLinks := LinkStore.clear k.ownedLinks task }
  let k := (k.setTask task (newTask c priority dynamic)).setFrame task none
  (k.emit (.created task)).osReady task

def osTaskCreate (k : Kernel c S) (task : Place c) (priority : Byte) (dynamic : Bool) :
    Kernel c S :=
  let k := k.osTaskSetup task priority.toNat dynamic
  (k.returns (.osTaskCreate task priority dynamic) (.task (some task))).osSchedule 0

def osTaskDetach (k : Kernel c S) (task : Place c) : Kernel c S :=
  if k.stateOf task = OS_TASK_READY then k.osListRemove .ready task else k.osUnblock task

def osTaskDelete (k : Kernel c S) (t : Option (Place c)) : Kernel c S :=
  let task := t.getD k.currentTask
  let current := k.currentTask
  let k := k.returns (.osTaskDelete t) .void
  if task ≠ osIdleTask ∧ k.stateOf task ≠ OS_TASK_DEAD then
    let k := k.osTaskDetach task
    let k := ((k.setState task OS_TASK_DEAD).emit (.deleted task)).setFrame task none
    let k := if c.mutexInheritance then k.osMutexReleaseAll task else k
    let k := if (k.tasks task).dynamic then
        { k with links := LinkStore.push k.links .dead task }
      else k
    if task = current then k.osDispatch else k.osSchedule 0
  else k

def osTaskSuspend (k : Kernel c S) (t : Option (Place c)) : Kernel c S :=
  let task := t.getD k.currentTask
  let current := k.currentTask
  let k := k.returns (.osTaskSuspend t) .void
  if task ≠ osIdleTask ∧ k.stateOf task ≠ OS_TASK_SUSPENDED ∧ k.stateOf task ≠ OS_TASK_DEAD then
    let k := k.osTaskDetach task
    let k := (k.setResult task false).setState task OS_TASK_SUSPENDED
    let k := k.emit (.suspended task)
    if task = current then k.osDispatch else k
  else k

def osTaskResumeFromISR (k : Kernel c S) (task : Place c) : Kernel c S :=
  if k.stateOf task = OS_TASK_SUSPENDED then (k.emit (.resumed task)).osReady task else k

def osTaskResume (k : Kernel c S) (task : Place c) : Kernel c S :=
  ((k.osTaskResumeFromISR task).returns (.osTaskResume task) .void).osSchedule 0

def osTaskSetPriority (k : Kernel c S) (t : Option (Place c)) (priority : Byte) : Kernel c S :=
  let task := t.getD k.currentTask
  let k := k.returns (.osTaskSetPriority t priority) .void
  let k := k.setTask task { k.tasks task with basePriority := osTaskPriority priority.toNat }
  let inherited := k.osInheritedPriority task
  let k := if inherited > k.priority task then k.osPriorityRaise task inherited
    else if inherited < k.priority task then (k.setPriority task inherited).osRequeue task
    else k
  k.osSchedule 0

/-- One round of `osTaskReap`: the first task on `osDeadList` is taken off. -/
def osTaskReap (k : Kernel c S) : Kernel c S :=
  let task := LinkStore.head k.links .dead
  ({ k with links := LinkStore.pop k.links .dead }).returns .osTaskReap (.task task)

end Kernel

end AvrOs
