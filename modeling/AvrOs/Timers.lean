import AvrOs.Scheduler

/-! # timer.c -/

namespace AvrOs
open Intrusive

namespace Kernel

variable {c : Config} {S : Type → Type → Type} [LinkStore S]

def setTimer (k : Kernel c S) (tm : Place c) (x : OsTimer c) : Kernel c S :=
  { k with timers := Function.update k.timers tm x }

def osTimerInsert (k : Kernel c S) (tm : Place c) (now delay : OsTick c) : Kernel c S :=
  let k := { k with timersLinks :=
    LinkStore.insert k.timersLinks () tm (fun it => (k.timers it).when - now ≤ delay) }
  k.setTimer tm { k.timers tm with when := now + delay }

def osTimerRemove (k : Kernel c S) (tm : Place c) : Kernel c S :=
  { k with timersLinks := LinkStore.remove k.timersLinks () tm }

def osTimerStart (k : Kernel c S) (tm : Place c) (delay period : OsTick c) (function : ℕ) :
    Kernel c S :=
  let delay := if delay = 0 then 1 else delay
  let k := k.osTimerRemove tm
  let k := k.setTimer tm { k.timers tm with period := period, function := function }
  k.osTimerInsert tm k.ticks delay

def osTimerStop (k : Kernel c S) (tm : Place c) : Kernel c S := k.osTimerRemove tm

/-- The timer at the front whose time is up, if there is one. -/
def osTimerDue (k : Kernel c S) : Option (Place c) :=
  match LinkStore.head k.timersLinks () with
  | some tm => if (k.timers tm).when = k.ticks then some tm else none
  | none => none

/-- One round of `osTimerTick` up to the call of the function. -/
def osTimerTick (k : Kernel c S) (tm : Place c) : Kernel c S :=
  let k := { k with timersLinks := LinkStore.pop k.timersLinks () }
  let k := if (k.timers tm).period ≠ 0 then
      k.osTimerInsert tm k.ticks (k.timers tm).period
    else k
  k.emit (.timerCalled tm)

end Kernel

end AvrOs
