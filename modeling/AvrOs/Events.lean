import AvrOs.Scheduler

/-! # event.c -/

namespace AvrOs
open Intrusive

/-- Flags which satisfy the request, zero if there is nothing to be satisfied with yet. -/
def osEventMatch (flags wanted options : Byte) : Byte :=
  let flags := flags &&& wanted
  if options &&& OS_EVENT_ALL ≠ 0 ∧ flags ≠ wanted then 0 else flags

namespace Kernel

variable {c : Config} {S : Type → Type → Type} [LinkStore S]

def setFlags (k : Kernel c S) (e : Place c) (flags : Byte) : Kernel c S :=
  { k with events := Function.update k.events e flags }

def osEventInit (k : Kernel c S) (e : Place c) : Kernel c S :=
  let k := { k with links := LinkStore.clear k.links (.wait (.event e)) }
  ((k.setFlags e 0).emit (.eventInit e)).returns (.osEventInit e) .void

/-- Flags matched are gone unless the task wants to keep them. -/
def osEventConsume (k : Kernel c S) (e : Place c) (matched options : Byte) : Kernel c S :=
  if options &&& OS_EVENT_KEEP = 0 then k.setFlags e (k.events e &&& ~~~matched) else k

/-- `osEventWait` once `osBlock` is back. -/
def osEventWaitRest (call : Call c) (k : Kernel c S) (result : Bool) : Kernel c S :=
  k.returns call (.flags (if result then (k.tasks k.currentTask).wait.flags else 0))

def osEventWait (k : Kernel c S) (e : Place c) (flags options : Byte) (timeout : OsTick c) :
    Kernel c S :=
  let call := Call.osEventWait e flags options timeout
  let matched := osEventMatch (k.events e) flags options
  if matched ≠ 0 then
    ((k.osEventConsume e matched options).emit
      (.satisfied e k.currentTask matched options)).returns call (.flags matched)
  else if timeout ≠ OS_NO_WAIT c then
    (k.setWait k.currentTask (.event flags options)).blockThen call (some (.event e)) timeout
      (osEventWaitRest call)
  else k.returns call (.flags 0)

/-- One round of the loop in `osEventSetFromISR`. -/
def osEventServe (k : Kernel c S) (e task : Place c) : Kernel c S :=
  let k := k.emit (.visited e task)
  let options := (k.tasks task).wait.options
  let matched := osEventMatch (k.events e) (k.tasks task).wait.flags options
  if matched ≠ 0 then
    let k := (k.osEventConsume e matched options).emit (.satisfied e task matched options)
    (k.setWait task (.event matched options)).osWake task true
  else k

/-- The successor is read before the task is served, which may take it off the list. -/
def osEventSetLoop (e : Place c) : ℕ → Kernel c S → Option (Place c) → Kernel c S
  | 0, k, _ => k
  | _ + 1, k, none => k
  | fuel + 1, k, some task =>
    let next := LinkStore.next k.links (.wait (.event e)) task
    osEventSetLoop e fuel (k.osEventServe e task) next

def osEventSetFromISR (k : Kernel c S) (e : Place c) (flags : Byte) : Kernel c S :=
  let k := (k.setFlags e (k.events e ||| flags)).emit (.flagsSet e flags)
  osEventSetLoop e (c.places + 1) k (LinkStore.head k.links (.wait (.event e)))

def osEventSet (k : Kernel c S) (e : Place c) (flags : Byte) : Kernel c S :=
  ((k.osEventSetFromISR e flags).returns (.osEventSet e flags) .void).osSchedule 0

def osEventClear (k : Kernel c S) (e : Place c) (flags : Byte) : Kernel c S :=
  k.setFlags e (k.events e &&& ~~~flags)

end Kernel

end AvrOs
