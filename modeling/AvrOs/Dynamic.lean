import AvrOs.Asm
import AvrOs.Heap.Blocks
import AvrOs.System

/-!
# Dynamic tasks (tasks.c and memory.c with OS_CFG_DYNAMIC)

The allocator is a parameter. The kernel knows tasks by their places: the place of a dynamic task
is the one of its control block, which is on top of the memory of the task.
-/

namespace AvrOs
open Intrusive Kernel

/-- The target, the rest of config.h, and where the memory is malloc gives out. -/
structure Board (c : Config) extends Target where
  dynamic : c.dynamic = true
  stackCheck : Bool
  heapStart : ℕ
  heapEnd : ℕ
  place : ℕ → Place c
  heapStart_pos : 0 < heapStart
  heapEnd_le : heapEnd ≤ 65536
  /-- Different addresses are different places, none of them the one of the idle task. -/
  place_inj : ∀ a b, heapStart ≤ a → a < heapEnd → heapStart ≤ b → b < heapEnd → place a = place b → a = b
  place_idle : ∀ a, heapStart ≤ a → a < heapEnd → place a ≠ osIdleTask

/-- `sizeof(OsTask)` with OS_CFG_DYNAMIC, nothing is aligned. -/
def sizeofOsTask (c : Config) : ℕ :=
  -- sp, result, next, waitList, timerNext
  let size := 2 + 1 + 2 + 2 + 2
  -- wake, wait
  let size := size + (if c.tick32Bit then 4 else 2) + 2
  -- state, priority, basePriority
  let size := size + 3
  -- mutexes
  let size := size + if c.mutexInheritance then 2 else 0
  -- stack, dynamic
  size + 2 + 1

/-- As a 16-bit integer. -/
def OS_TASK_MEMORY (c : Config) (stackSize : ℕ) : ℕ := (stackSize + sizeofOsTask c) % 65536

/-- The kernel and what dynamic tasks take: the heap, memory of stacks, and the fields `stack` and `sp`
of the tasks. -/
structure Dynamic (c : Config) (S : Type → Type → Type) (H : Type) where
  kernel : Kernel c S
  heap : H
  ram : ℕ → Byte
  stack : Place c → ℕ
  sp : Place c → ℕ
  /-- `osTaskReaper` is set. -/
  reaper : Bool

namespace Dynamic

variable {c : Config} {S : Type → Type → Type} [LinkStore S] {H : Type}
variable (A : Heap.Allocator H) (B : Board c)

def osFree (s : Dynamic c S H) (memory : ℕ) : Dynamic c S H := { s with heap := A.free s.heap memory }

/-- `osTaskReap`, as long as `fuel` lasts. -/
def osTaskReapLoop : ℕ → Dynamic c S H → Dynamic c S H
  | 0, s => s
  | fuel + 1, s =>
    match LinkStore.head s.kernel.links .dead with
    | some task =>
      let s := { s with kernel := { s.kernel with links := LinkStore.pop s.kernel.links .dead } }
      osTaskReapLoop fuel (s.osFree A (s.stack task))
    | none => s

/-- There are `places + 1` tasks, the round after the last of them leaves the loop. -/
def osTaskReap (s : Dynamic c S H) : Dynamic c S H := osTaskReapLoop A (c.places + 2) s

def osMalloc (s : Dynamic c S H) (size : ℕ) : Dynamic c S H × Option ℕ :=
  match A.malloc s.heap size with
  | (heap, some memory) => ({ s with heap := heap }, some memory)
  | (heap, none) =>
    let s := { s with heap := heap }.osTaskReap A
    let (heap, memory) := A.malloc s.heap size
    ({ s with heap := heap }, memory)

/-- `memset`. -/
def fill (ram : ℕ → Byte) (memory size : ℕ) (byte : Byte) : ℕ → Byte :=
  fun a => if memory ≤ a ∧ a < memory + size then byte else ram a

def osTaskSetup (s : Dynamic c S H) (function param : Word) (memory size : ℕ) (priority : Byte) (dynamic : Bool) :
    Dynamic c S H × Option (Place c) :=
  if memory = 0 ∨ size < OS_TASK_MEMORY c (OS_STACK_MIN B.toTarget) then (s, none)
  else
    let address := (memory + size - sizeofOsTask c) % 65536
    let task := B.place address
    let ram := if B.stackCheck then fill s.ram memory (size - sizeofOsTask c) OS_STACK_FILL else s.ram
    let top := (Stack.mk ram (address - 1)).osPortStackInit B.toTarget function param
    ({ s with
        kernel := (s.kernel.osTaskSetup task priority.toNat dynamic).osSchedule 0
        ram := top.memory
        stack := Function.update s.stack task memory
        sp := Function.update s.sp task top.sp }, some task)

def osTaskCreateDynamic (s : Dynamic c S H) (function param stackSize : Word) (priority : Byte) :
    Dynamic c S H × Option (Place c) :=
  let size := OS_TASK_MEMORY c stackSize.toNat
  let s := { s with reaper := true }.osTaskReap A
  match s.osMalloc A size with
  | (s, none) => (s, none)
  | (s, some memory) =>
    match s.osTaskSetup B function param memory size priority true with
    | (s, some task) => (s, some task)
    | (s, none) => (s.osFree A memory, none)

end Dynamic

/-! ### Critical sections one by one

These functions are a number of critical sections, anything can happen between two of them. Where a
task in the middle of them is, and what it has on its stack, is a `HeapCall`.
-/

/-- A call of `osMalloc`, by `osTaskCreateDynamic` for a task or for the program. -/
structure Request where
  size : ℕ
  task : Option (Word × Word × Byte)

inductive HeapCall (c : Config) where
  /-- About to look at `osDeadList`, then to call malloc, unless that was all. -/
  | reap (next : Option (Bool × Request))
  /-- About to free the memory of the task, which is not on the list anymore. -/
  | free (task : Place c) (next : Option (Bool × Request))
  | malloc (again : Bool) (request : Request)
  | setup (memory size : ℕ) (function param : Word) (priority : Byte)
  | release (memory : ℕ)

/-- What tasks are in the middle of, blocks the program has got, and how many times the memory of a task at this
place was taken and how many times it was freed (the code counts neither). -/
structure DynamicSystem (c : Config) (S : Type → Type → Type) (H : Type) extends Dynamic c S H where
  calls : Place c → Option (HeapCall c)
  given : List ℕ
  created : Place c → ℕ
  freed : Place c → ℕ

inductive DynamicAction (c : Config) where
  | kernel (a : Action c)
  | osTaskReap
  | osMalloc (size : Word)
  | osFree (memory : ℕ)
  | osTaskCreateDynamic (function param stackSize : Word) (priority : Byte)
  /-- The next critical section of what the current task is in the middle of. -/
  | go

/-- The task the call is about. -/
def Call.handle {c : Config} : Call c → Option (Place c)
  | .osTaskDelete t | .osTaskSuspend t | .osTaskSetPriority t _ => t
  | .osTaskResume t => some t
  | _ => none

namespace DynamicSystem

variable {c : Config} {S : Type → Type → Type} [LinkStore S] {H : Type}
variable (A : Heap.Allocator H) (B : Board c)

/-- The place of a control block malloc might give out. -/
def onHeap (t : Place c) : Prop := ∃ a < B.heapEnd, B.heapStart ≤ a ∧ B.place a = t

instance (t : Place c) : Decidable (onHeap B t) := inferInstanceAs (Decidable (∃ a < B.heapEnd, _))

/-- Memory of the task has not been freed. -/
def usable (s : DynamicSystem c S H) (t : Place c) : Prop := onHeap B t → s.freed t < s.created t

instance (s : DynamicSystem c S H) (t : Place c) : Decidable (s.usable B t) := inferInstanceAs (Decidable (_ → _))

/-- What programs keep to: the memory of tasks which are not dynamic is not on the heap, and a task is
not used anymore once its memory has been freed. -/
def legalCall (s : DynamicSystem c S H) : Call c → Bool
  | .osTaskCreate t _ dynamic => dynamic = false ∧ ¬ onHeap B t
  | .osTaskReap => false
  | x => ∀ t, x.handle = some t → s.usable B t

def legalIsr (s : DynamicSystem c S H) : IsrCall c → Bool
  | .osTaskResumeFromISR t => s.usable B t
  | _ => true

/-- Whoever is in the middle of a call cannot do anything else. -/
def legal (s : DynamicSystem c S H) : Action c → Prop
  | .call x => (s.calls s.kernel.currentTask).isNone ∧ s.legalCall B x
  | .isrCall x => s.legalIsr B x
  | .run | .store _ _ | .setTickVar _ _ => (s.calls s.kernel.currentTask).isNone
  | _ => True

instance (s : DynamicSystem c S H) : DecidablePred (s.legal B)
  | .call _ => inferInstanceAs (Decidable (_ ∧ _))
  | .isrCall _ => inferInstanceAs (Decidable (_ = true))
  | .run | .store _ _ | .setTickVar _ _ => inferInstanceAs (Decidable (_ = true))
  | .resume | .isrEnter _ | .isrLeave | .tickEnter | .tickTimer | .tickLeave => .isTrue trivial

def setCall (s : DynamicSystem c S H) (call : Option (HeapCall c)) : DynamicSystem c S H :=
  { s with calls := Function.update s.calls s.kernel.currentTask call }

/-- The current task runs code of its own, and none of the functions here. -/
def atLarge (s : DynamicSystem c S H) : Prop := s.kernel.userMode ∧ (s.calls s.kernel.currentTask).isNone

instance (s : DynamicSystem c S H) : Decidable s.atLarge := inferInstanceAs (Decidable (_ ∧ _))

def go (s : DynamicSystem c S H) : HeapCall c → Option (DynamicSystem c S H)
  | .reap next =>
    (s.kernel.step (.call .osTaskReap)).map fun k =>
      { s.setCall (match LinkStore.head s.kernel.links .dead with
        | some task => some (.free task next)
        | none => next.map fun (again, request) => .malloc again request) with kernel := k }
  | .free task next =>
    some { s.setCall (some (.reap next)) with
      toDynamic := s.toDynamic.osFree A (s.stack task)
      freed := Function.update s.freed task (s.freed task + 1) }
  | .malloc again request =>
    match A.malloc s.heap request.size with
    | (heap, some memory) =>
      match request.task with
      | some (function, param, priority) =>
        some { s.setCall (some (.setup memory request.size function param priority)) with heap := heap }
      | none => some { s.setCall none with heap := heap, given := memory :: s.given }
    | (heap, none) =>
      some { s.setCall (if again then none else some (.reap (some (true, request)))) with heap := heap }
  | .setup memory size function param priority =>
    match s.toDynamic.osTaskSetup B function param memory size priority true with
    | (d, some task) =>
      (s.kernel.step (.call (.osTaskCreate task priority true))).map fun k =>
        { s with
          toDynamic := { d with kernel := k }
          calls := Function.update (Function.update s.calls s.kernel.currentTask none) task none
          created := Function.update s.created task (s.created task + 1) }
    | (_, none) => some (s.setCall (some (.release memory)))
  | .release memory => some { s.setCall none with toDynamic := s.toDynamic.osFree A memory }

/-- One action, `none` if it cannot happen now. -/
def step (s : DynamicSystem c S H) : DynamicAction c → Option (DynamicSystem c S H)
  | .kernel a =>
    if s.legal B a then
      (s.kernel.step a).map fun k =>
        match a with
        | .call (.osTaskCreate t _ _) => { s with kernel := k, calls := Function.update s.calls t none }
        | _ => { s with kernel := k }
    else none
  | .osTaskReap => if s.atLarge then some (s.setCall (some (.reap none))) else none
  | .osMalloc size =>
    if s.atLarge then some (s.setCall (some (.malloc false ⟨size.toNat, none⟩))) else none
  | .osFree memory =>
    if s.atLarge ∧ memory ∈ s.given then
      some { s with toDynamic := s.toDynamic.osFree A memory, given := s.given.erase memory }
    else none
  | .osTaskCreateDynamic function param stackSize priority =>
    if s.atLarge then
      some { s.setCall (some (.reap (some (false,
        ⟨OS_TASK_MEMORY c stackSize.toNat, some (function, param, priority)⟩)))) with reaper := true }
    else none
  | .go => if s.kernel.userMode then (s.calls s.kernel.currentTask).bind (s.go A B) else none

/-- `osInit` has been called, the program may have taken memory before. -/
def init (heap : H) (ram : ℕ → Byte) : DynamicSystem c S H where
  kernel := osInit c S
  heap := heap
  ram := ram
  stack _ := 0
  sp _ := 0
  reaper := false
  calls _ := none
  given := []
  created _ := 0
  freed _ := 0

end DynamicSystem

end AvrOs
