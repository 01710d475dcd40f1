import AvrOs.Effects

/-!
# The history of a task

The log of the kernel, read from the point of view of one task: the latest entry comes
first. `Life` is everything the kernel knows about the task.
-/

namespace AvrOs
open Intrusive Kernel

variable {c : Config}

/-- The entry is about the task, the tick is about everybody. -/
def Event.concerns (t : Place c) : Event c → Bool
  | .called u _ _ | .returned u _ _ | .created u | .deleted u | .suspended u | .resumed u
  | .blocked u _ _ | .woken u _ _ | .satisfied _ u _ _ => u = t
  | .ticked => true
  | _ => false

def Kernel.history {S : Type → Type → Type} (k : Kernel c S) (t : Place c) : List (Event c) :=
  k.log.filter (Event.concerns t)

/-! ### What happened since -/

/-- The call the task is in had to wait. -/
def hadToWait : List (Event c) → Bool
  | [] => false
  | .blocked _ _ _ :: _ => true
  | .called _ _ _ :: _ | .returned _ _ _ :: _ | .created _ :: _ | .deleted _ :: _ => false
  | _ :: past => hadToWait past

/-- The task got what it waited for. -/
def granted : List (Event c) → Bool
  | [] => false
  | .blocked _ _ _ :: _ | .called _ _ _ :: _ | .returned _ _ _ :: _ | .created _ :: _
  | .deleted _ :: _ => false
  | .woken _ _ result :: past => result || granted past
  | _ :: past => granted past

/-- Flags the call has been satisfied with, at once or while it waited. -/
def flagsTaken : List (Event c) → Byte
  | [] => 0
  | .satisfied _ _ flags _ :: _ => flags
  | .blocked _ _ _ :: _ | .called _ _ _ :: _ | .returned _ _ _ :: _ | .created _ :: _
  | .deleted _ :: _ => 0
  | _ :: past => flagsTaken past

/-- The mutex was the one of the task when it made the call. -/
def wasMine : List (Event c) → Bool
  | [] => false
  | .called _ _ mine :: _ => mine
  | _ :: past => wasMine past

/-- Ticks since the task went to sleep. -/
def ticksAsleep : List (Event c) → ℕ
  | [] => 0
  | .blocked _ _ _ :: _ => 0
  | .ticked :: past => ticksAsleep past + 1
  | _ :: past => ticksAsleep past

/-! ### Lives -/

/-- The mutex the call is there to lock. -/
def Call.locks : Call c → Option (Place c)
  | .osMutexTryLock m _ | .osMutexLock m => some m
  | _ => none

/-- What a blocking call returns to a task which has been woken up with this result. -/
def Call.told : Call c → Bool → Wait → Value c
  | .osMutexTryLock _ _, result, _ | .osSemaphoreTake _ _, result, _
  | .osQueueSend _ _ _, result, _ | .osQueueReceive _ _ _, result, _ => .bool result
  | .osEventWait _ _ _ _, result, wait => .flags (if result then wait.flags else 0)
  | _, _, _ => .void

structure Life (c : Config) where
  kind : Byte
  result : Bool
  wait : Wait
  waitList : Option (WaitList c)
  /-- Ticks left until the task gives up. -/
  timeout : Option (OsTick c)
  frame : Option (Frame c)
  owns : Place c → Prop
  history : List (Event c)

def life (k : ListKernel c) (t : Place c) : Life c where
  kind := k.stateOf t
  result := (k.tasks t).result
  wait := (k.tasks t).wait
  waitList := (k.tasks t).waitList
  timeout := if Timed (k.tasks t) then some ((k.tasks t).wake - k.ticks) else none
  frame := k.frames t
  owns m := k.owner m = some t
  history := k.history t

/-- What is returned by a call which does not wait. -/
def Life.Prompt (t : Place c) (l : Life c) : Call c → Value c → Prop
  | .osMutexTryLock m _, v => ∃ locked, v = .bool locked ∧ (locked = true → l.owns m) ∧
      (locked = false → l.owns m → wasMine l.history = true)
  | .osMutexLock m, _ => t = osIdleTask ∨ l.owns m
  | .osEventWait _ _ _ _, v => v = .flags (flagsTaken l.history)
  | _, _ => True

end AvrOs
