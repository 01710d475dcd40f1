import AvrOs.Bytes
import AvrOs.Scheduler

/-! # queue.c -/

namespace AvrOs
open Intrusive

namespace Kernel

variable {c : Config} {S : Type → Type → Type} [LinkStore S]

def setQueue (k : Kernel c S) (q : Place c) (x : OsQueue) : Kernel c S :=
  { k with queues := Function.update k.queues q x }

def osQueueInit (k : Kernel c S) (q : Place c) (itemSize length : Byte) : Kernel c S :=
  let k := { k with links := LinkStore.clear k.links (.wait (.queue q)) }
  let k := k.setQueue q { k.queues q with
    itemSize := itemSize.toNat, length := length.toNat, count := 0, head := 0 }
  (k.emit (.queueInit q)).returns (.osQueueInit q itemSize length) .void

/-- Offset of the byte behind the last message, in the 16-bit arithmetic of the source. -/
def tailOffset (x : OsQueue) : ℕ :=
  let tail := (x.head + x.count) % 65536
  let tail := if x.length ≤ tail then tail - x.length else tail
  tail * x.itemSize % 65536

/-- Offset of the first message. -/
def headOffset (x : OsQueue) : ℕ := x.head * x.itemSize % 65536

def osQueueAppend (k : Kernel c S) (q : Place c) (item : Address) : Kernel c S :=
  let x := k.queues q
  let msg := load k.memory item x.itemSize
  let k := k.setQueue q { x with
    buffer := store x.buffer (tailOffset x) msg
    count := (x.count + 1) % 256 }
  (k.emit (.accessed q (tailOffset x))).emit (.accepted q msg)

/-- The first message is copied out of the buffer. -/
def osQueueTake (k : Kernel c S) (q : Place c) (item : Address) : Kernel c S :=
  let x := k.queues q
  let msg := load x.buffer (headOffset x) x.itemSize
  let k := { k with memory := store k.memory item msg }
  let head := (x.head + 1) % 256
  let k := k.setQueue q { x with
    head := if head = x.length then 0 else head
    count := x.count - 1 }
  (k.emit (.accessed q (headOffset x))).emit (.delivered q msg)

/-- The message is copied to the receiver which waits for it. -/
def osQueueHand (k : Kernel c S) (q : Place c) (item target : Address) : Kernel c S :=
  let msg := load k.memory item (k.queues q).itemSize
  let k := { k with memory := store k.memory target msg }
  (k.emit (.accepted q msg)).emit (.delivered q msg)

/-- `osQueuePut` when nobody waits for a message. The result is `none` once the task is
switched out. -/
def osQueueStore (k : Kernel c S) (call : Call c) (q : Place c) (item : Address)
    (timeout : OsTick c) : Kernel c S × Option Bool :=
  if (k.queues q).count < (k.queues q).length then (k.osQueueAppend q item, some true)
  else if timeout = OS_NO_WAIT c then (k, some false)
  else (k.setWait k.currentTask (.item item)).osBlock call (some (.queue q)) timeout

def osQueuePut (k : Kernel c S) (call : Call c) (q : Place c) (item : Address)
    (timeout : OsTick c) : Kernel c S × Option Bool :=
  match LinkStore.head k.links (.wait (.queue q)) with
  | some waiter =>
    if (k.queues q).count = 0 then
      ((k.osQueueHand q item (k.tasks waiter).wait.itemPtr).osWake waiter true, some true)
    else k.osQueueStore call q item timeout
  | none => k.osQueueStore call q item timeout

def osQueueGet (k : Kernel c S) (call : Call c) (q : Place c) (item : Address)
    (timeout : OsTick c) : Kernel c S × Option Bool :=
  if (k.queues q).count ≠ 0 then
    let k := k.osQueueTake q item
    match LinkStore.head k.links (.wait (.queue q)) with
    | some waiter =>
      ((k.osQueueAppend q (k.tasks waiter).wait.itemPtr).osWake waiter true, some true)
    | none => (k, some true)
  else if timeout = OS_NO_WAIT c then (k, some false)
  else (k.setWait k.currentTask (.item item)).osBlock call (some (.queue q)) timeout

/-- `osQueueSend` and `osQueueReceive` once they know their result. -/
def osQueueRest (call : Call c) (k : Kernel c S) (result : Bool) : Kernel c S :=
  (k.returns call (.bool result)).osSchedule 0

def osQueueSend (k : Kernel c S) (q : Place c) (item : Address) (timeout : OsTick c) :
    Kernel c S :=
  let call := Call.osQueueSend q item timeout
  match k.osQueuePut call q item timeout with
  | (k, some sent) => osQueueRest call k sent
  | (k, none) => k

def osQueueSendFromISR (k : Kernel c S) (q : Place c) (item : Address) : Kernel c S :=
  (k.osQueuePut (.osQueueSend q item (OS_NO_WAIT c)) q item (OS_NO_WAIT c)).1

def osQueueReceive (k : Kernel c S) (q : Place c) (item : Address) (timeout : OsTick c) :
    Kernel c S :=
  let call := Call.osQueueReceive q item timeout
  match k.osQueueGet call q item timeout with
  | (k, some received) => osQueueRest call k received
  | (k, none) => k

def osQueueReceiveFromISR (k : Kernel c S) (q : Place c) (item : Address) : Kernel c S :=
  (k.osQueueGet (.osQueueReceive q item (OS_NO_WAIT c)) q item (OS_NO_WAIT c)).1

end Kernel

end AvrOs
