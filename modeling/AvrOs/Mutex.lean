import AvrOs.Scheduler

/-! # mutex.c -/

namespace AvrOs
open Intrusive

namespace Kernel

variable {c : Config} {S : Type → Type → Type} [LinkStore S]

def setOwner (k : Kernel c S) (m : Place c) (t : Option (Place c)) : Kernel c S :=
  { k with owner := Function.update k.owner m t }

def osMutexInit (k : Kernel c S) (m : Place c) : Kernel c S :=
  let k := { k with links := LinkStore.clear k.links (.wait (.mutex m)) }
  let k := k.setOwner m none
  let k := if c.mutexInheritance then { k with ownedLinks := LinkStore.reset k.ownedLinks m } else k
  k.returns (.osMutexInit m) .void

def osMutexOwn (k : Kernel c S) (m task : Place c) : Kernel c S :=
  let k := k.setOwner m (some task)
  if c.mutexInheritance then { k with ownedLinks := LinkStore.push k.ownedLinks task m } else k

/-- What `osMutexTryLock` returns, `osMutexLock` has no use for it. -/
def lockValue (call : Call c) (locked : Bool) : Value c :=
  match call with
  | .osMutexLock _ => .void
  | _ => .bool locked

/-- `osMutexTryLock` once `osBlock` is back. -/
def osMutexTryLockRest (call : Call c) (m : Place c) (k : Kernel c S) (locked : Bool) :
    Kernel c S :=
  let k := if c.mutexInheritance ∧ locked = false then
      match k.owner m with
      | some owner =>
        let priority := k.osInheritedPriority owner
        if priority < k.priority owner then (k.setPriority owner priority).osRequeue owner else k
      | none => k
    else k
  k.returns call (lockValue call locked)

/-- `call` is `osMutexTryLock` itself or `osMutexLock`. -/
def osMutexTryLock (k : Kernel c S) (call : Call c) (m : Place c) (timeout : OsTick c) :
    Kernel c S :=
  let task := k.currentTask
  match k.owner m with
  | none => (k.osMutexOwn m task).returns call (lockValue call true)
  | some owner =>
    if timeout = OS_NO_WAIT c then k.returns call (lockValue call false)
    else
      let k := if c.mutexInheritance then
          let k := k.osPriorityRaise owner (k.priority task)
          k.setState task ((k.tasks task).state ||| OS_TASK_MUTEX)
        else k
      k.blockThen call (some (.mutex m)) timeout (osMutexTryLockRest call m)

def osMutexPass (k : Kernel c S) (m : Place c) : Kernel c S :=
  match LinkStore.head k.links (.wait (.mutex m)) with
  | some waiter => (k.osMutexOwn m waiter).osWake waiter true
  | none => k.setOwner m none

def osMutexReleaseAllLoop : ℕ → Kernel c S → Place c → Kernel c S
  | 0, k, _ => k
  | fuel + 1, k, task => match LinkStore.head k.ownedLinks task with
    | some m =>
      let k := { k with ownedLinks := LinkStore.pop k.ownedLinks task }
      osMutexReleaseAllLoop fuel (k.osMutexPass m) task
    | none => k

def osMutexReleaseAll (k : Kernel c S) (task : Place c) : Kernel c S :=
  osMutexReleaseAllLoop (c.places + 1) k task

def osMutexUnlock (k : Kernel c S) (m : Place c) : Kernel c S :=
  let task := k.currentTask
  let k := k.returns (.osMutexUnlock m) .void
  if k.owner m = some task then
    let k := if c.mutexInheritance then
        { k with ownedLinks := LinkStore.remove k.ownedLinks task m }
      else k
    let k := k.osMutexPass m
    let k := if c.mutexInheritance then k.setPriority task (k.osInheritedPriority task) else k
    k.osSchedule 0
  else k

end Kernel

end AvrOs
