import AvrOs.Types

/-!
# scheduler.c

Kernel code is written once, over any `LinkStore`: with `Links` it is the code as it
stands in the source, with `Lists` the same code on the lists it means. Functions
which give the processor away end with the switch: what their caller does once it is
back is kept in the frame of the task and run by `resume`.
-/

namespace AvrOs
open Intrusive

namespace Kernel

variable {c : Config} {S : Type → Type → Type} [LinkStore S]

/-! ### Fields -/

def emit (k : Kernel c S) (e : Event c) : Kernel c S := { k with log := e :: k.log }

def setTask (k : Kernel c S) (t : Place c) (x : OsTask c) : Kernel c S :=
  { k with tasks := Function.update k.tasks t x }

def setState (k : Kernel c S) (t : Place c) (state : Byte) : Kernel c S :=
  k.setTask t { k.tasks t with state := state }

def setPriority (k : Kernel c S) (t : Place c) (priority : ℕ) : Kernel c S :=
  k.setTask t { k.tasks t with priority := priority }

def setResult (k : Kernel c S) (t : Place c) (result : Bool) : Kernel c S :=
  k.setTask t { k.tasks t with result := result }

def setWait (k : Kernel c S) (t : Place c) (wait : Wait) : Kernel c S :=
  k.setTask t { k.tasks t with wait := wait }

def setFrame (k : Kernel c S) (t : Place c) (f : Option (Frame c)) : Kernel c S :=
  { k with frames := Function.update k.frames t f }

/-- The call is over, its value is passed on when the task gets to run. -/
def returns (k : Kernel c S) (call : Call c) (value : Value c) : Kernel c S :=
  k.setFrame k.currentTask (some (.returning call value))

/-- `task->state & OS_TASK_STATE`. -/
def stateOf (k : Kernel c S) (t : Place c) : Byte := (k.tasks t).state &&& OS_TASK_STATE

def priority (k : Kernel c S) (t : Place c) : ℕ := (k.tasks t).priority

/-- Tasks waiting for an object, the first one of them is what its `waiters` points to. -/
def waiters (k : Kernel c S) (w : WaitList c) : List (Place c) :=
  LinkStore.toList k.links (.wait w)

/-! ### Lists -/

def osListInsert (k : Kernel c S) (list : ListId c) (task : Place c) (key : ℕ) : Kernel c S :=
  { k with links := LinkStore.insert k.links list task (fun it => key ≤ k.priority it) }

def osListRemove (k : Kernel c S) (list : ListId c) (task : Place c) : Kernel c S :=
  { k with links := LinkStore.remove k.links list task }

def osTimerListInsert (k : Kernel c S) (task : Place c) (timeout : OsTick c) : Kernel c S :=
  let k := { k with timerLinks :=
    LinkStore.insert k.timerLinks () task (fun it => (k.tasks it).wake - k.ticks ≤ timeout) }
  k.setTask task { k.tasks task with
    wake := k.ticks + timeout
    state := (k.tasks task).state ||| OS_TASK_TIMED }

def osTimerListRemove (k : Kernel c S) (task : Place c) : Kernel c S :=
  { k with timerLinks := LinkStore.remove k.timerLinks () task }

/-- The list a task keeps its place on by priority: the ready list or the one it waits on. -/
def priorityList (k : Kernel c S) (task : Place c) : Option (ListId c) :=
  if k.stateOf task = OS_TASK_READY then some .ready else (k.tasks task).waitList.map .wait

def osRequeue (k : Kernel c S) (task : Place c) : Kernel c S :=
  match k.priorityList task with
  | some list =>
    let k := k.osListRemove list task
    (k.osListInsert list task (k.priority task)).emit (.requeued task)
  | none => k

/-! ### Priorities -/

/-- The body of the loop in `osInheritedPriority`. -/
def inherit (k : Kernel c S) (priority : ℕ) (m : Place c) : ℕ :=
  match LinkStore.head k.links (.wait (.mutex m)) with
  | some waiter => if priority < k.priority waiter then k.priority waiter else priority
  | none => priority

def osInheritedPriority (k : Kernel c S) (task : Place c) : ℕ :=
  if c.mutexInheritance then
    (LinkStore.toList k.ownedLinks task).foldl k.inherit (k.tasks task).basePriority
  else (k.tasks task).basePriority

/-- The owner of the mutex the task waits for, as found by the cast of `waitList`. -/
def blockingOwner (k : Kernel c S) (task : Place c) : Option (Place c) :=
  match (k.tasks task).waitList with
  | some (.mutex m) => k.owner m
  | _ => none

def osPriorityRaiseLoop : ℕ → Kernel c S → Place c → ℕ → Kernel c S
  | 0, k, _, _ => k
  | fuel + 1, k, task, priority =>
    if k.priority task < priority then
      let k := (k.setPriority task priority).osRequeue task
      if c.mutexInheritance ∧ (k.tasks task).state &&& OS_TASK_MUTEX ≠ 0 then
        match k.blockingOwner task with
        | some owner => osPriorityRaiseLoop fuel k owner priority
        | none => k
      else k
    else k

/-- Nobody is raised twice, so the loop ends within one round for every place. -/
def osPriorityRaise (k : Kernel c S) (task : Place c) (priority : ℕ) : Kernel c S :=
  osPriorityRaiseLoop (c.places + 1) k task priority

def osSettle (k : Kernel c S) (task : Place c) : Kernel c S :=
  if c.aging then
    if (k.tasks task).priority ≠ (k.tasks task).basePriority then
      k.setPriority task (k.osInheritedPriority task)
    else k
  else k

/-! ### Switching -/

def osDispatch (k : Kernel c S) : Kernel c S :=
  match LinkStore.head k.links .ready with
  | some next =>
    let k := { k with links := LinkStore.pop k.links .ready }
    { k.setState next OS_TASK_RUNNING with currentTask := next }
  | none => k

def osScheduleNeeded (k : Kernel c S) (yield : ℕ) : Bool :=
  match LinkStore.head k.links .ready with
  | some head => k.priority k.currentTask < (k.priority head + yield) % 256
  | none => false

def osSchedule (k : Kernel c S) (yield : ℕ) : Kernel c S :=
  if k.osScheduleNeeded yield then
    let task := k.currentTask
    let k := k.osSettle task
    let k := k.setState task OS_TASK_READY
    let k := k.osListInsert .ready task ((k.priority task + 1 - yield) % 256)
    k.osDispatch
  else k

/-- `osBlock` between `osSettle` and `osDispatch`: the current task goes to sleep. -/
def sleep (k : Kernel c S) (call : Call c) (list : Option (WaitList c)) (timeout : OsTick c) :
    Kernel c S :=
  let task := k.currentTask
  let k := k.setTask task { k.tasks task with
    state := (k.tasks task).state ||| OS_TASK_BLOCKED
    waitList := list }
  let k := match list with
    | some w => k.osListInsert (.wait w) task (k.priority task)
    | none => k
  let k := if timeout ≠ OS_WAIT_FOREVER c then k.osTimerListInsert task timeout else k
  (k.emit (.blocked task list timeout)).setFrame task (some (.blocked call))

/-- `none` once the task is switched out, else what is returned right away. -/
def osBlock (k : Kernel c S) (call : Call c) (list : Option (WaitList c)) (timeout : OsTick c) :
    Kernel c S × Option Bool :=
  let task := k.currentTask
  if task = osIdleTask then (k.setState task OS_TASK_RUNNING, some false)
  else (((k.osSettle task).sleep call list timeout).osDispatch, none)

/-- `rest` is what the caller of `osBlock` does with its result. -/
def blockThen (k : Kernel c S) (call : Call c) (list : Option (WaitList c)) (timeout : OsTick c)
    (rest : Kernel c S → Bool → Kernel c S) : Kernel c S :=
  match k.osBlock call list timeout with
  | (k, some result) => rest k result
  | (k, none) => k

def osUnblock (k : Kernel c S) (task : Place c) : Kernel c S :=
  let k := match (k.tasks task).waitList with
    | some w =>
      let k := k.osListRemove (.wait w) task
      k.setTask task { k.tasks task with waitList := none }
    | none => k
  if (k.tasks task).state &&& OS_TASK_TIMED ≠ 0 then k.osTimerListRemove task else k

def osReady (k : Kernel c S) (task : Place c) : Kernel c S :=
  let k := k.setState task OS_TASK_READY
  k.osListInsert .ready task (k.priority task)

def osWake (k : Kernel c S) (task : Place c) (result : Bool) : Kernel c S :=
  let k := (k.emit (.woken task (k.tasks task).waitList result)).setResult task result
  (k.osUnblock task).osReady task

/-! ### The tick -/

/-- Wakes the tasks up whose time is up. -/
def osTickExpire : ℕ → Kernel c S → Kernel c S
  | 0, k => k
  | fuel + 1, k => match LinkStore.head k.timerLinks () with
    | some task =>
      if (k.tasks task).wake = k.ticks then osTickExpire fuel (k.osWake task false) else k
    | none => k

/-- One round of the aging pass, `priority` is the one of the current task. -/
def osAgeTask (priority : ℕ) (k : Kernel c S) (task : Place c) : Kernel c S :=
  if k.priority task ≠ 0 ∧ k.priority task < c.agingLimit ∧
      k.priority task + (if c.roundRobin then 1 else 0) ≤ priority then
    k.setPriority task ((k.priority task + 1) % 256)
  else k

def osAge (k : Kernel c S) : Kernel c S :=
  if c.aging then
    let k := k.osSettle k.currentTask
    let k := { k with aging := (k.aging + 255) % 256 }
    if k.aging = 0 then
      let k := { k with aging := c.agingTicks }
      (LinkStore.toList k.links .ready).foldl (osAgeTask (k.priority k.currentTask)) k
    else k
  else k

/-- The tick handler up to the call of `osTimerTick`. -/
def osTickEnter (k : Kernel c S) : Kernel c S :=
  let k := ({ k with ticks := k.ticks + 1 }).emit .ticked
  osTickExpire (c.places + 1) k

/-- The tick handler from there on. -/
def osTickLeave (k : Kernel c S) : Kernel c S :=
  k.osAge.osSchedule (if c.roundRobin then 1 else 0)

/-! ### Calls -/

def osYield (k : Kernel c S) : Kernel c S := (k.returns .osYield .void).osSchedule 1

def osDelay (k : Kernel c S) (ticks : OsTick c) : Kernel c S :=
  let call := Call.osDelay ticks
  if ticks ≠ 0 then k.blockThen call none ticks (fun k _ => k.returns call .void)
  else (k.returns call .void).osSchedule 1

def osDelayUntil (k : Kernel c S) (previous : Address) (period : OsTick c) : Kernel c S :=
  let call := Call.osDelayUntil previous period
  let wake := k.tickVars previous + period
  let left := wake - k.ticks
  let k := { k with tickVars := Function.update k.tickVars previous wake }
  if left - 1 < period then k.blockThen call none left (fun k _ => k.returns call .void)
  else k.returns call .void

end Kernel

end AvrOs
