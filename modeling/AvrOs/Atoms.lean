import AvrOs.History
import AvrOs.Placement
import AvrOs.Transition.Run

/-!
# Elementary steps of the kernel

Whatever the kernel does is a sequence of the steps below, each one taken only where its
guard holds. Invariants are proved for the steps; what the functions of the source have
to be looked at for is only which steps they take.
-/

namespace AvrOs
open Intrusive Kernel

variable {c : Config}

inductive Atom (c : Config) where
  | called (x : Call c)
  | returns (call : Call c) (value : Value c)
  | pause
  | leave
  | timerCalled (tm : Place c)
  | quiet (memory : Address → Byte) (tickVars : Address → OsTick c) (aging : ℕ)
      (timers : Place c → OsTimer c) (timersLinks : Lists Unit (Place c)) (mode : Mode)
  | start
  | settle
  | requeue (t : Place c) (p : ℕ)
  | setBase (t : Place c) (p : ℕ)
  | flag
  | unflag
  | setWait (w : Wait)
  | preempt (key : ℕ)
  | dispatch
  | sleep (call : Call c) (list : Option (WaitList c)) (timeout : OsTick c)
  | expire (t : Place c)
  | kill (t : Place c)
  | bury (t : Place c)
  | reap
  | park (t : Place c)
  | unpark (t : Place c)
  | create (t : Place c) (p : ℕ) (dynamic : Bool)
  | own (m : Place c)
  | release (t m : Place c)
  | mutexInit (m : Place c)
  | take (s : Place c)
  | give (s : Place c)
  | semaphoreInit (s : Place c) (count limit : Byte)
  | send (q : Place c) (item : Address)
  | receive (q : Place c) (item : Address)
  | queueInit (q : Place c) (itemSize length : Byte)
  | consume (e : Place c) (wanted options : Byte)
  | flagsSet (e : Place c) (flags : Byte)
  | serve (e t : Place c)
  | flagsClear (e : Place c) (flags : Byte)
  | eventInit (e : Place c)
  | age
  | tick

/-- A task blocks only while the object has nothing for it, and tells what it waits for. -/
def Blockable (k : ListKernel c) (call : Call c) (timeout : OsTick c) : Option (WaitList c) → Prop
  | none => call = .osDelay timeout ∨ ∃ p period, call = .osDelayUntil p period
  | some (.mutex m) => k.owner m ≠ none ∧
      (k.owner m = some k.currentTask ↔ wasMine (k.history k.currentTask) = true) ∧
      (call = .osMutexTryLock m timeout ∨ (call = .osMutexLock m ∧ timeout = OS_WAIT_FOREVER c))
  | some (.semaphore s) => (k.semaphores s).count = 0 ∧ call = .osSemaphoreTake s timeout
  | some (.queue q) => ∃ item, (k.tasks k.currentTask).wait = .item item ∧
      ((call = .osQueueReceive q item timeout ∧ (k.queues q).count = 0) ∨
       (call = .osQueueSend q item timeout ∧ (k.queues q).length ≤ (k.queues q).count ∧
        (k.links (.wait (.queue q)) = [] ∨ (k.queues q).count ≠ 0)))
  | some (.event e) => ∃ flags options, (k.tasks k.currentTask).wait = .event flags options ∧
      call = .osEventWait e flags options timeout ∧ osEventMatch (k.events e) flags options = 0

/-- The current task goes on with code of its own. -/
def leave (k : ListKernel c) : ListKernel c :=
  match k.frames k.currentTask with
  | some (.returning call value) =>
    (k.setFrame k.currentTask none).emit (.returned k.currentTask call value)
  | _ => k.setFrame k.currentTask none

theorem leave_cases (k : ListKernel c) :
    (∃ call value, k.frames k.currentTask = some (.returning call value) ∧
      leave k = (k.setFrame k.currentTask none).emit (.returned k.currentTask call value)) ∨
    ((∀ call value, k.frames k.currentTask ≠ some (.returning call value)) ∧
      leave k = k.setFrame k.currentTask none) := by
  unfold leave
  split
  case h_1 call value hf => exact Or.inl ⟨call, value, hf, rfl⟩
  case h_2 hf => exact Or.inr ⟨fun call value he => hf call value he, rfl⟩

theorem leave_tasks (k : ListKernel c) : (leave k).tasks = k.tasks := by
  rcases leave_cases k with ⟨call, value, -, he⟩ | ⟨-, he⟩
  · rw [he]
    rfl
  · rw [he]
    rfl

namespace Atom

def apply (k : ListKernel c) : Atom c → ListKernel c
  | called x => k.emit (.called k.currentTask x (k.mine x))
  | returns call value => k.returns call value
  | pause => k.setFrame k.currentTask (some .preempted)
  | leave => AvrOs.leave k
  | timerCalled tm => k.emit (.timerCalled tm)
  | quiet memory tickVars aging timers timersLinks mode =>
    { k with
      memory := memory, tickVars := tickVars, aging := aging, timers := timers
      timersLinks := timersLinks, mode := mode }
  | start =>
    { k.setTask osIdleTask { k.tasks osIdleTask with priority := 0, basePriority := 0 } with
      started := true }
  | settle => k.setPriority k.currentTask (k.osInheritedPriority k.currentTask)
  | requeue t p => (k.setPriority t p).osRequeue t
  | setBase t p => k.setTask t { k.tasks t with basePriority := p }
  | flag => k.setState k.currentTask ((k.tasks k.currentTask).state ||| OS_TASK_MUTEX)
  | unflag => k.setState k.currentTask OS_TASK_RUNNING
  | setWait w => k.setWait k.currentTask w
  | preempt key =>
    (k.setState k.currentTask OS_TASK_READY).osListInsert .ready k.currentTask key
  | dispatch => k.osDispatch
  | sleep call list timeout => k.sleep call list timeout
  | expire t => k.osWake t false
  | kill t => (((k.osTaskDetach t).setState t OS_TASK_DEAD).emit (.deleted t)).setFrame t none
  | bury t => { k with links := Lists.push k.links .dead t }
  | reap => { k with links := Lists.pop k.links .dead }
  | park t =>
    (((k.osTaskDetach t).setResult t false).setState t OS_TASK_SUSPENDED).emit (.suspended t)
  | unpark t => (k.emit (.resumed t)).osReady t
  | create t p dynamic => k.osTaskSetup t p dynamic
  | own m => k.osMutexOwn m k.currentTask
  | release t m =>
    (if c.mutexInheritance then { k with ownedLinks := Lists.remove k.ownedLinks t m } else k).osMutexPass m
  | mutexInit m => { k with links := Lists.clear k.links (.wait (.mutex m)) }.setOwner m none
  | take s => (k.setCount s ((k.semaphores s).count - 1)).emit (.taken s)
  | give s => k.osSemaphoreGiveFromISR s
  | semaphoreInit s count limit =>
    { k with
      links := Lists.clear k.links (.wait (.semaphore s))
      semaphores := Function.update k.semaphores s ⟨count.toNat, limit.toNat⟩
      log := .semaphoreInit s count.toNat limit.toNat :: k.log }
  | send q item => k.osQueueSendFromISR q item
  | receive q item => k.osQueueReceiveFromISR q item
  | queueInit q itemSize length =>
    ({ k with links := Lists.clear k.links (.wait (.queue q)) }.setQueue q { k.queues q with
      itemSize := itemSize.toNat, length := length.toNat, count := 0, head := 0 }).emit (.queueInit q)
  | consume e wanted options =>
    let matched := osEventMatch (k.events e) wanted options
    (k.osEventConsume e matched options).emit (.satisfied e k.currentTask matched options)
  | flagsSet e flags => (k.setFlags e (k.events e ||| flags)).emit (.flagsSet e flags)
  | serve e t => k.osEventServe e t
  | flagsClear e flags => k.osEventClear e flags
  | eventInit e =>
    ({ k with links := Lists.clear k.links (.wait (.event e)) }.setFlags e 0).emit (.eventInit e)
  | age => (k.links .ready).foldl (osAgeTask (k.priority k.currentTask)) k
  | tick => ({ k with ticks := k.ticks + 1 }).emit .ticked

def guard (k : ListKernel c) : Atom c → Prop
  | called _ => k.stateOf k.currentTask = OS_TASK_RUNNING ∧ k.frames k.currentTask = none
  | returns call value => k.stateOf k.currentTask = OS_TASK_RUNNING ∧
      (k.frames k.currentTask = none ∧ (life k k.currentTask).Prompt k.currentTask call value ∨
        k.frames k.currentTask = some (.blocked call) ∧ value = call.told (k.tasks k.currentTask).result (k.tasks k.currentTask).wait)
  | pause => k.stateOf k.currentTask = OS_TASK_RUNNING ∧ k.frames k.currentTask = none
  | leave => k.stateOf k.currentTask = OS_TASK_RUNNING ∧
      (k.frames k.currentTask = some .preempted ∨
        ∃ call value, k.frames k.currentTask = some (.returning call value))
  | timerCalled _ => True
  | quiet .. => True
  | start => k.currentTask = osIdleTask ∧ k.stateOf k.currentTask = OS_TASK_RUNNING
  | settle => k.stateOf k.currentTask = OS_TASK_RUNNING
  | requeue t p => (t ≠ osIdleTask → 1 ≤ p) ∧ p ≤ 254 ∧
      (t = osIdleTask → (k.tasks t).basePriority ≠ 255)
  | setBase _ p => 1 ≤ p ∧ p ≤ 254
  | flag => c.mutexInheritance = true ∧ k.stateOf k.currentTask = OS_TASK_RUNNING
  | unflag => k.stateOf k.currentTask = OS_TASK_RUNNING
  | setWait _ => k.stateOf k.currentTask = OS_TASK_RUNNING ∧ k.frames k.currentTask = none
  | preempt key => k.stateOf k.currentTask = OS_TASK_RUNNING ∧ k.priority k.currentTask ≤ key ∧
      key ≤ k.priority k.currentTask + 1 ∧ k.priority k.currentTask ≤ 254
  | dispatch => k.stateOf k.currentTask ≠ OS_TASK_RUNNING
  | sleep call list timeout => k.currentTask ≠ osIdleTask ∧
      k.stateOf k.currentTask = OS_TASK_RUNNING ∧
      (OnMutex (k.tasks k.currentTask) ↔ c.mutexInheritance = true ∧ ∃ m, list = some (.mutex m)) ∧
      timeout ≠ 0 ∧ k.frames k.currentTask = none ∧ Blockable k call timeout list
  | expire t => Timed (k.tasks t) ∧ (k.tasks t).wake = k.ticks
  | kill t => t ≠ osIdleTask ∧ k.stateOf t ≠ OS_TASK_DEAD
  | bury t => k.stateOf t = OS_TASK_DEAD ∧ t ∉ k.links .dead
  | reap => True
  | park t => t ≠ osIdleTask ∧ k.stateOf t ≠ OS_TASK_DEAD ∧ k.stateOf t ≠ OS_TASK_SUSPENDED
  | unpark t => k.stateOf t = OS_TASK_SUSPENDED
  | create t _ _ => k.stateOf t = OS_TASK_DEAD ∧ t ∉ k.links .dead ∧
      (c.mutexInheritance = true → ∀ m, k.owner m ≠ some t)
  | own m => k.owner m = none ∧ k.stateOf k.currentTask = OS_TASK_RUNNING ∧
      k.frames k.currentTask = none
  | release t m => k.owner m = some t ∧ (k.stateOf t = OS_TASK_DEAD ∨
      k.stateOf t = OS_TASK_RUNNING ∧ (∃ v, k.frames t = some (.returning (.osMutexUnlock m) v)) ∧
        ∃ mine past, k.history t = .called t (.osMutexUnlock m) mine :: past)
  | mutexInit m => k.links (.wait (.mutex m)) = [] ∧ k.owner m = none
  | take s => (k.semaphores s).count ≠ 0
  | give _ => True
  | semaphoreInit s _ _ => k.links (.wait (.semaphore s)) = []
  | send _ _ => True
  | receive _ _ => True
  | queueInit q _ _ => k.links (.wait (.queue q)) = []
  | consume e wanted options => osEventMatch (k.events e) wanted options ≠ 0 ∧
      k.stateOf k.currentTask = OS_TASK_RUNNING ∧ k.frames k.currentTask = none
  | flagsSet _ _ => True
  | serve e t => (k.tasks t).waitList = some (.event e)
  | flagsClear _ _ => True
  | eventInit e => k.links (.wait (.event e)) = []
  | age => k.stateOf k.currentTask = OS_TASK_RUNNING
  | tick => True

end Atom

/-- Steps which are none of the kernel. -/
def Atom.IsQuiet : Atom c → Prop
  | .quiet .. => True
  | _ => False

end AvrOs
