import AvrOs.Intrusive.Refine
import Mathlib.Data.BitVec

/-!
# Data model of the kernel (config.h, tasks.h and the headers of the objects)

Addresses are places: a system has `places + 1` of them for every kind of object, the
first place for tasks is `osIdleTask`. The fields which link a member to its list
(`next`, `timerNext`, `nextOwned`) and the heads of the lists live in link stores,
everything else is a field of the task or of the object.
-/

namespace AvrOs
open Intrusive

/-- Options of config.h which matter to the kernel, with its `#error` checks. -/
structure Config where
  places : ℕ
  tick32Bit : Bool
  tickStart : ℕ
  roundRobin : Bool
  aging : Bool
  agingTicks : ℕ
  agingLimit : ℕ
  mutexInheritance : Bool
  dynamic : Bool
  timers : Bool
  agingTicks_ok : 1 ≤ agingTicks ∧ agingTicks ≤ 255
  agingLimit_ok : 1 ≤ agingLimit ∧ agingLimit ≤ 254

/-- The values config.h comes with. -/
def Config.default (places : ℕ) : Config where
  places := places
  tick32Bit := false
  tickStart := 0
  roundRobin := true
  aging := true
  agingTicks := 10
  agingLimit := 254
  mutexInheritance := true
  dynamic := true
  timers := true
  agingTicks_ok := by decide
  agingLimit_ok := by decide

/-- The values config.h comes with, with a counter which is about to wrap around. -/
def Config.overflow (places : ℕ) : Config := { Config.default places with tickStart := 65534 }

/-- The values config.h comes with, except for aging. -/
def Config.ageless (places : ℕ) : Config := { Config.default places with aging := false }

def Config.tickBits (c : Config) : ℕ := if c.tick32Bit then 32 else 16

abbrev Place (c : Config) := Fin (c.places + 1)
abbrev OsTick (c : Config) := BitVec c.tickBits
abbrev Byte := BitVec 8
abbrev Address := ℕ
abbrev Message := List Byte

section
variable {c : Config}

/-- Places are written as their numbers. -/
instance (n : ℕ) : OfNat (Place c) n := ⟨Fin.ofNat (c.places + 1) n⟩

instance (t : Place c) (list : List (Place c)) : Decidable (t ∈ list) := List.instDecidableMemOfLawfulBEq t list

end

def OS_NO_WAIT (c : Config) : OsTick c := 0
def OS_WAIT_FOREVER (c : Config) : OsTick c := BitVec.allOnes _

def OS_PRIORITY_MIN : ℕ := 1
def OS_PRIORITY_MAX : ℕ := 254

def OS_TASK_RUNNING : Byte := 0x00
def OS_TASK_READY : Byte := 0x01
def OS_TASK_BLOCKED : Byte := 0x02
def OS_TASK_SUSPENDED : Byte := 0x03
def OS_TASK_DEAD : Byte := 0x04
def OS_TASK_STATE : Byte := 0x0f
def OS_TASK_TIMED : Byte := 0x10
def OS_TASK_MUTEX : Byte := 0x20

def OS_EVENT_ALL : Byte := 0x01
def OS_EVENT_KEEP : Byte := 0x02

/-- What `waitList` of a task may point to: the `waiters` member of an object. -/
inductive WaitList (c : Config) where
  | mutex (m : Place c)
  | semaphore (s : Place c)
  | queue (q : Place c)
  | event (e : Place c)
  deriving DecidableEq

/-- The lists which use the `next` field of the task. -/
inductive ListId (c : Config) where
  | ready
  | dead
  | wait (w : WaitList c)
  deriving DecidableEq

/-- The union `wait`: what the task waits for. -/
inductive Wait where
  | item (p : Address)
  | event (flags options : Byte)
  deriving DecidableEq

def Wait.itemPtr : Wait → Address
  | .item p => p
  | .event _ _ => 0

def Wait.flags : Wait → Byte
  | .item _ => 0
  | .event f _ => f

def Wait.options : Wait → Byte
  | .item _ => 0
  | .event _ o => o

structure OsTask (c : Config) where
  result : Bool
  waitList : Option (WaitList c)
  wake : OsTick c
  wait : Wait
  state : Byte
  priority : ℕ
  basePriority : ℕ
  dynamic : Bool

structure OsSemaphore where
  count : ℕ
  limit : ℕ

structure OsQueue where
  buffer : Address → Byte
  itemSize : ℕ
  length : ℕ
  count : ℕ
  head : ℕ

structure OsTimer (c : Config) where
  when : OsTick c
  period : OsTick c
  function : ℕ

/-- Calls made by tasks (and by `main`, which is the idle task). -/
inductive Call (c : Config) where
  | osTaskCreate (t : Place c) (priority : Byte) (dynamic : Bool)
  | osTaskDelete (t : Option (Place c))
  | osTaskSuspend (t : Option (Place c))
  | osTaskResume (t : Place c)
  | osTaskSetPriority (t : Option (Place c)) (priority : Byte)
  | osTaskReap
  | osYield
  | osDelay (ticks : OsTick c)
  | osDelayUntil (previous : Address) (period : OsTick c)
  | osMutexInit (m : Place c)
  | osMutexTryLock (m : Place c) (timeout : OsTick c)
  | osMutexLock (m : Place c)
  | osMutexUnlock (m : Place c)
  | osSemaphoreInit (s : Place c) (count limit : Byte)
  | osSemaphoreTake (s : Place c) (timeout : OsTick c)
  | osSemaphoreGive (s : Place c)
  | osQueueInit (q : Place c) (itemSize length : Byte)
  | osQueueSend (q : Place c) (item : Address) (timeout : OsTick c)
  | osQueueReceive (q : Place c) (item : Address) (timeout : OsTick c)
  | osEventInit (e : Place c)
  | osEventWait (e : Place c) (flags options : Byte) (timeout : OsTick c)
  | osEventSet (e : Place c) (flags : Byte)
  | osEventClear (e : Place c) (flags : Byte)
  | osTimerStart (tm : Place c) (delay period : OsTick c) (function : ℕ)
  | osTimerStop (tm : Place c)
  deriving DecidableEq

/-- The mutex the call is about. -/
def Call.mutex {c : Config} : Call c → Option (Place c)
  | .osMutexTryLock m _ | .osMutexLock m | .osMutexUnlock m => some m
  | _ => none

/-- Calls made by interrupt handlers and by the functions of timers. -/
inductive IsrCall (c : Config) where
  | osTaskResumeFromISR (t : Place c)
  | osSemaphoreGiveFromISR (s : Place c)
  | osQueueSendFromISR (q : Place c) (item : Address)
  | osQueueReceiveFromISR (q : Place c) (item : Address)
  | osEventSetFromISR (e : Place c) (flags : Byte)
  | osEventClear (e : Place c) (flags : Byte)
  | osTimerStart (tm : Place c) (delay period : OsTick c) (function : ℕ)
  | osTimerStop (tm : Place c)
  | store (p : Address) (b : Byte)

/-- What a call returns. -/
inductive Value (c : Config) where
  | void
  | bool (b : Bool)
  | flags (f : Byte)
  | task (t : Option (Place c))
  deriving DecidableEq

/-- What is left to be done by a task once it is switched back in, kept on its stack. -/
inductive Frame (c : Config) where
  | preempted
  | returning (call : Call c) (value : Value c)
  | blocked (call : Call c)
  deriving DecidableEq

/-- Where the processor is: in a task, in an interrupt handler (`os` for those defined with
`OS_ISR`) or in the tick handler (`callback` once it has called the function of a timer). -/
inductive Mode where
  | thread
  | isr (os : Bool)
  | tick (callback : Bool)
  deriving DecidableEq

/-- History of the kernel. The code never looks at it. A call is `mine` if the task owns the
mutex it is about by then. -/
inductive Event (c : Config) where
  | called (t : Place c) (call : Call c) (mine : Bool)
  | returned (t : Place c) (call : Call c) (value : Value c)
  | created (t : Place c)
  | deleted (t : Place c)
  | suspended (t : Place c)
  | resumed (t : Place c)
  | blocked (t : Place c) (list : Option (WaitList c)) (timeout : OsTick c)
  | woken (t : Place c) (list : Option (WaitList c)) (result : Bool)
  | requeued (t : Place c)
  | ticked
  | semaphoreInit (s : Place c) (count limit : ℕ)
  | taken (s : Place c)
  | gave (s : Place c)
  | dropped (s : Place c)
  | queueInit (q : Place c)
  | accepted (q : Place c) (msg : Message)
  | delivered (q : Place c) (msg : Message)
  | accessed (q : Place c) (offset : ℕ)
  | eventInit (e : Place c)
  | flagsSet (e : Place c) (flags : Byte)
  | visited (e t : Place c)
  | satisfied (e t : Place c) (flags options : Byte)
  | timerCalled (tm : Place c)
  deriving DecidableEq

structure Kernel (c : Config) (S : Type → Type → Type) where
  tasks : Place c → OsTask c
  links : S (ListId c) (Place c)
  timerLinks : S Unit (Place c)
  currentTask : Place c
  ticks : OsTick c
  aging : ℕ
  owner : Place c → Option (Place c)
  ownedLinks : S (Place c) (Place c)
  semaphores : Place c → OsSemaphore
  queues : Place c → OsQueue
  events : Place c → Byte
  timers : Place c → OsTimer c
  timersLinks : S Unit (Place c)
  memory : Address → Byte
  tickVars : Address → OsTick c
  frames : Place c → Option (Frame c)
  started : Bool
  mode : Mode
  log : List (Event c)

/-- `osIdleTask`. -/
def osIdleTask {c : Config} : Place c := 0

end AvrOs
