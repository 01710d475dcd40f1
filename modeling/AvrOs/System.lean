import AvrOs.Events
import AvrOs.Queue
import AvrOs.Semaphore
import AvrOs.Tasks
import AvrOs.Timers
import AvrOs.Transition.Run

/-!
# The system as a whole (system.c)

A run of the system is a sequence of actions. A call of a task is one action, as the
kernel keeps interrupts disabled, and so is every call of a handler. A task which is
switched in first does what is left of its call (`resume`), nothing can get in between.
-/

namespace AvrOs
open Intrusive Transition

inductive Action (c : Config) where
  /-- `osRun`, called by `main`. -/
  | run
  | call (x : Call c)
  /-- The current task is back from the switch or from a handler. -/
  | resume
  | isrEnter (os : Bool)
  | isrCall (x : IsrCall c)
  | isrLeave
  | tickEnter
  /-- `osTimerTick` calls the function of a timer. -/
  | tickTimer
  | tickLeave
  /-- The running task writes to memory of its own. -/
  | store (p : Address) (b : Byte)
  | setTickVar (p : Address) (x : OsTick c)

namespace Kernel

variable {c : Config} {S : Type → Type → Type} [LinkStore S]

/-- The system once `main` is back from `osInit`. A place no task lives at counts as dead,
what else it holds is never looked at. -/
def osInit (c : Config) (S : Type → Type → Type) [LinkStore S] : Kernel c S where
  tasks t :=
    { result := false
      waitList := none
      wake := 0
      wait := .item 0
      state := if t = osIdleTask then OS_TASK_RUNNING else OS_TASK_DEAD
      priority := if t = osIdleTask then 255 else OS_PRIORITY_MIN
      basePriority := if t = osIdleTask then 255 else OS_PRIORITY_MIN
      dynamic := false }
  links := LinkStore.empty
  timerLinks := LinkStore.empty
  currentTask := osIdleTask
  ticks := BitVec.ofNat _ c.tickStart
  aging := c.agingTicks
  owner _ := none
  ownedLinks := LinkStore.empty
  semaphores _ := ⟨0, 0⟩
  queues _ := ⟨fun _ => 0, 0, 0, 0, 0⟩
  events _ := 0
  timers _ := ⟨0, 0, 0⟩
  timersLinks := LinkStore.empty
  memory _ := 0
  tickVars _ := 0
  frames _ := none
  started := false
  mode := .thread
  log := []

/-- What callers promise: tasks are created where no live task and no memory waiting to be
freed is, objects are initialised while nobody waits for them and nobody owns them. -/
def legal (k : Kernel c S) : Call c → Prop
  | .osTaskCreate t _ _ => k.stateOf t = OS_TASK_DEAD ∧ t ∉ LinkStore.toList k.links .dead
  | .osMutexInit m => k.waiters (.mutex m) = [] ∧ k.owner m = none
  | .osSemaphoreInit s _ _ => k.waiters (.semaphore s) = []
  | .osQueueInit q _ _ => k.waiters (.queue q) = []
  | .osEventInit e => k.waiters (.event e) = []
  | .osTimerStart _ _ _ _ | .osTimerStop _ => c.timers = true
  | _ => True

instance (k : Kernel c S) : DecidablePred k.legal
  | .osTaskCreate _ _ _ | .osMutexInit _ => inferInstanceAs (Decidable (_ ∧ _))
  | .osSemaphoreInit _ _ _ | .osQueueInit _ _ _ | .osEventInit _ | .osTimerStart _ _ _ _ | .osTimerStop _ =>
    inferInstanceAs (Decidable (_ = _))
  | .osTaskDelete _ | .osTaskSuspend _ | .osTaskResume _ | .osTaskSetPriority _ _ | .osTaskReap | .osYield | .osDelay _
  | .osDelayUntil _ _ | .osMutexTryLock _ _ | .osMutexLock _ | .osMutexUnlock _ | .osSemaphoreTake _ _
  | .osSemaphoreGive _ | .osQueueSend _ _ _ | .osQueueReceive _ _ _ | .osEventWait _ _ _ _ | .osEventSet _ _
  | .osEventClear _ _ => .isTrue trivial

def exec (k : Kernel c S) : Call c → Kernel c S
  | .osTaskCreate t priority dynamic => k.osTaskCreate t priority dynamic
  | .osTaskDelete t => k.osTaskDelete t
  | .osTaskSuspend t => k.osTaskSuspend t
  | .osTaskResume t => k.osTaskResume t
  | .osTaskSetPriority t priority => k.osTaskSetPriority t priority
  | .osTaskReap => k.osTaskReap
  | .osYield => k.osYield
  | .osDelay ticks => k.osDelay ticks
  | .osDelayUntil previous period => k.osDelayUntil previous period
  | .osMutexInit m => k.osMutexInit m
  | .osMutexTryLock m timeout => k.osMutexTryLock (.osMutexTryLock m timeout) m timeout
  | .osMutexLock m => k.osMutexTryLock (.osMutexLock m) m (OS_WAIT_FOREVER c)
  | .osMutexUnlock m => k.osMutexUnlock m
  | .osSemaphoreInit s count limit => k.osSemaphoreInit s count limit
  | .osSemaphoreTake s timeout => k.osSemaphoreTake s timeout
  | .osSemaphoreGive s => k.osSemaphoreGive s
  | .osQueueInit q itemSize length => k.osQueueInit q itemSize length
  | .osQueueSend q item timeout => k.osQueueSend q item timeout
  | .osQueueReceive q item timeout => k.osQueueReceive q item timeout
  | .osEventInit e => k.osEventInit e
  | .osEventWait e flags options timeout => k.osEventWait e flags options timeout
  | .osEventSet e flags => k.osEventSet e flags
  | .osEventClear e flags => (k.osEventClear e flags).returns (.osEventClear e flags) .void
  | .osTimerStart tm delay period function =>
    (k.osTimerStart tm delay period function).returns (.osTimerStart tm delay period function) .void
  | .osTimerStop tm => (k.osTimerStop tm).returns (.osTimerStop tm) .void

/-- What a handler may call: nothing which blocks, timers only if there are any. -/
def legalIsr (c : Config) : IsrCall c → Bool
  | .osTimerStart _ _ _ _ | .osTimerStop _ => c.timers
  | _ => true

def execIsr (k : Kernel c S) : IsrCall c → Kernel c S
  | .osTaskResumeFromISR t => k.osTaskResumeFromISR t
  | .osSemaphoreGiveFromISR s => k.osSemaphoreGiveFromISR s
  | .osQueueSendFromISR q item => k.osQueueSendFromISR q item
  | .osQueueReceiveFromISR q item => k.osQueueReceiveFromISR q item
  | .osEventSetFromISR e flags => k.osEventSetFromISR e flags
  | .osEventClear e flags => k.osEventClear e flags
  | .osTimerStart tm delay period function => k.osTimerStart tm delay period function
  | .osTimerStop tm => k.osTimerStop tm
  | .store p b => { k with memory := Function.update k.memory p b }

/-- The rest of a blocking call, with the result the task has been woken up with. -/
def execRest (k : Kernel c S) (call : Call c) (result : Bool) : Kernel c S :=
  match call with
  | .osMutexTryLock m _ | .osMutexLock m => osMutexTryLockRest call m k result
  | .osSemaphoreTake _ _ => k.returns call (.bool result)
  | .osQueueSend _ _ _ | .osQueueReceive _ _ _ => osQueueRest call k result
  | .osEventWait _ _ _ _ => osEventWaitRest call k result
  | _ => k.returns call .void

def osRun (k : Kernel c S) : Kernel c S :=
  let idle := { k.tasks osIdleTask with priority := 0, basePriority := 0 }
  let k := { k.setTask osIdleTask idle with started := true }
  (k.setFrame osIdleTask (some .preempted)).osSchedule 0

/-- The current task owns the mutex it calls the kernel about. -/
def mine (k : Kernel c S) (x : Call c) : Bool :=
  x.mutex.any fun m => k.owner m = some k.currentTask

/-- The current task runs code of its own with interrupts enabled. -/
def userMode (k : Kernel c S) : Prop := k.mode = .thread ∧ (k.frames k.currentTask).isNone

instance (k : Kernel c S) : Decidable k.userMode := inferInstanceAs (Decidable (_ ∧ _))

/-- One action, `none` if it cannot happen now. -/
def step (k : Kernel c S) : Action c → Option (Kernel c S)
  | .run =>
    if k.userMode ∧ k.currentTask = osIdleTask ∧ k.started = false then some k.osRun else none
  | .call x =>
    if k.userMode ∧ k.legal x then
      some ((k.emit (.called k.currentTask x (k.mine x))).exec x)
    else none
  | .resume =>
    if k.mode = .thread then
      match k.frames k.currentTask with
      | some .preempted => some (k.setFrame k.currentTask none)
      | some (.returning call value) =>
        some ((k.setFrame k.currentTask none).emit (.returned k.currentTask call value))
      | some (.blocked call) => some (k.execRest call (k.tasks k.currentTask).result)
      | none => none
    else none
  | .isrEnter os =>
    if k.userMode then
      some { k.setFrame k.currentTask (some .preempted) with mode := .isr os }
    else none
  | .isrCall x =>
    match k.mode with
    | .isr _ | .tick true => if legalIsr c x then some (k.execIsr x) else none
    | _ => none
  | .isrLeave =>
    match k.mode with
    | .isr true => some ({ k with mode := .thread }.osSchedule 0)
    | .isr false => some { k with mode := .thread }
    | _ => none
  | .tickEnter =>
    if k.userMode ∧ k.started = true then
      some { (k.setFrame k.currentTask (some .preempted)).osTickEnter with mode := .tick false }
    else none
  | .tickTimer =>
    match k.mode, k.osTimerDue with
    | .tick _, some tm => if c.timers then some { k.osTimerTick tm with mode := .tick true } else none
    | _, _ => none
  | .tickLeave =>
    match k.mode with
    | .tick _ =>
      if c.timers = false ∨ k.osTimerDue = none then some { k with mode := .thread }.osTickLeave
      else none
    | _ => none
  | .store p b =>
    if k.userMode then some { k with memory := Function.update k.memory p b } else none
  | .setTickVar p x =>
    if k.userMode then some { k with tickVars := Function.update k.tickVars p x } else none

/-- States the system gets to from `osInit`, as long as only such actions are taken. -/
abbrev ReachableBy (ok : Kernel c S → Action c → Prop) : Kernel c S → Prop :=
  Reach step ok (osInit c S)

/-- All states the system gets to from `osInit`. -/
abbrev Reachable : Kernel c S → Prop := ReachableBy fun _ _ => True

end Kernel

end AvrOs
