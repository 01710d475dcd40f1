import AvrOs.Scheduler

/-! # semaphore.c -/

namespace AvrOs
open Intrusive

namespace Kernel

variable {c : Config} {S : Type → Type → Type} [LinkStore S]

def setCount (k : Kernel c S) (s : Place c) (count : ℕ) : Kernel c S :=
  { k with semaphores := Function.update k.semaphores s { k.semaphores s with count := count } }

def osSemaphoreInit (k : Kernel c S) (s : Place c) (count limit : Byte) : Kernel c S :=
  let k := { k with
    links := LinkStore.clear k.links (.wait (.semaphore s))
    semaphores := Function.update k.semaphores s ⟨count.toNat, limit.toNat⟩ }
  (k.emit (.semaphoreInit s count.toNat limit.toNat)).returns (.osSemaphoreInit s count limit) .void

def osSemaphoreTake (k : Kernel c S) (s : Place c) (timeout : OsTick c) : Kernel c S :=
  let call := Call.osSemaphoreTake s timeout
  if (k.semaphores s).count ≠ 0 then
    ((k.setCount s ((k.semaphores s).count - 1)).emit (.taken s)).returns call (.bool true)
  else if timeout = OS_NO_WAIT c then k.returns call (.bool false)
  else k.blockThen call (some (.semaphore s)) timeout (fun k taken => k.returns call (.bool taken))

def osSemaphoreGiveFromISR (k : Kernel c S) (s : Place c) : Kernel c S :=
  let k := k.emit (.gave s)
  match LinkStore.head k.links (.wait (.semaphore s)) with
  | some waiter => k.osWake waiter true
  | none =>
    if (k.semaphores s).count < (k.semaphores s).limit then
      k.setCount s (((k.semaphores s).count + 1) % 256)
    else k.emit (.dropped s)

def osSemaphoreGive (k : Kernel c S) (s : Place c) : Kernel c S :=
  ((k.osSemaphoreGiveFromISR s).returns (.osSemaphoreGive s) .void).osSchedule 0

end Kernel

end AvrOs
