import AvrOs.System
import AvrOs.Intrusive.Ordered

/-!
# What the functions of the kernel do to plain lists

One equation for every function which edits the lists: the state afterwards, field by field.
Invariants are derived from these equations, not from the code.
-/

namespace AvrOs
open Intrusive

/-- The kernel on plain lists. -/
abbrev ListKernel (c : Config) := Kernel c Lists

section Instances

variable {ι α : Type}

@[simp] theorem head_lists (s : Lists ι α) (i : ι) :
    LinkStore.head (S := Lists) s i = (s i).head? := rfl

@[simp] theorem toList_lists [Fintype α] (s : Lists ι α) (i : ι) :
    LinkStore.toList (S := Lists) s i = s i := rfl

variable [DecidableEq ι] [DecidableEq α]

@[simp] theorem pop_lists (s : Lists ι α) (i : ι) :
    LinkStore.pop (S := Lists) s i = Lists.pop s i := rfl

variable [Fintype α]

@[simp] theorem insert_lists (s : Lists ι α) (i : ι) (a : α) (pass : α → Bool) :
    LinkStore.insert (S := Lists) s i a pass = Lists.insert s i a pass := rfl

@[simp] theorem remove_lists (s : Lists ι α) (i : ι) (a : α) :
    LinkStore.remove (S := Lists) s i a = Lists.remove s i a := rfl

end Instances

namespace Kernel

variable {c : Config}

/-! ### Flags of the state -/

@[simp] theorem kind_running : OS_TASK_RUNNING &&& OS_TASK_STATE = OS_TASK_RUNNING := by decide
@[simp] theorem kind_ready : OS_TASK_READY &&& OS_TASK_STATE = OS_TASK_READY := by decide
@[simp] theorem kind_suspended : OS_TASK_SUSPENDED &&& OS_TASK_STATE = OS_TASK_SUSPENDED := by decide
@[simp] theorem kind_dead : OS_TASK_DEAD &&& OS_TASK_STATE = OS_TASK_DEAD := by decide
@[simp] theorem timed_running : OS_TASK_RUNNING &&& OS_TASK_TIMED = 0 := by decide
@[simp] theorem mutex_running : OS_TASK_RUNNING &&& OS_TASK_MUTEX = 0 := by decide
@[simp] theorem timed_ready : OS_TASK_READY &&& OS_TASK_TIMED = 0 := by decide
@[simp] theorem mutex_ready : OS_TASK_READY &&& OS_TASK_MUTEX = 0 := by decide
@[simp] theorem timed_suspended : OS_TASK_SUSPENDED &&& OS_TASK_TIMED = 0 := by decide
@[simp] theorem mutex_suspended : OS_TASK_SUSPENDED &&& OS_TASK_MUTEX = 0 := by decide
@[simp] theorem timed_dead : OS_TASK_DEAD &&& OS_TASK_TIMED = 0 := by decide
@[simp] theorem mutex_dead : OS_TASK_DEAD &&& OS_TASK_MUTEX = 0 := by decide
@[simp] theorem running_ne_ready : OS_TASK_RUNNING ≠ OS_TASK_READY := by decide
@[simp] theorem running_ne_blocked : OS_TASK_RUNNING ≠ OS_TASK_BLOCKED := by decide
@[simp] theorem running_ne_suspended : OS_TASK_RUNNING ≠ OS_TASK_SUSPENDED := by decide
@[simp] theorem running_ne_dead : OS_TASK_RUNNING ≠ OS_TASK_DEAD := by decide
@[simp] theorem ready_ne_running : OS_TASK_READY ≠ OS_TASK_RUNNING := by decide
@[simp] theorem ready_ne_blocked : OS_TASK_READY ≠ OS_TASK_BLOCKED := by decide
@[simp] theorem ready_ne_suspended : OS_TASK_READY ≠ OS_TASK_SUSPENDED := by decide
@[simp] theorem ready_ne_dead : OS_TASK_READY ≠ OS_TASK_DEAD := by decide
@[simp] theorem blocked_ne_running : OS_TASK_BLOCKED ≠ OS_TASK_RUNNING := by decide
@[simp] theorem blocked_ne_ready : OS_TASK_BLOCKED ≠ OS_TASK_READY := by decide
@[simp] theorem blocked_ne_suspended : OS_TASK_BLOCKED ≠ OS_TASK_SUSPENDED := by decide
@[simp] theorem blocked_ne_dead : OS_TASK_BLOCKED ≠ OS_TASK_DEAD := by decide
@[simp] theorem suspended_ne_running : OS_TASK_SUSPENDED ≠ OS_TASK_RUNNING := by decide
@[simp] theorem suspended_ne_ready : OS_TASK_SUSPENDED ≠ OS_TASK_READY := by decide
@[simp] theorem suspended_ne_blocked : OS_TASK_SUSPENDED ≠ OS_TASK_BLOCKED := by decide
@[simp] theorem suspended_ne_dead : OS_TASK_SUSPENDED ≠ OS_TASK_DEAD := by decide
@[simp] theorem dead_ne_running : OS_TASK_DEAD ≠ OS_TASK_RUNNING := by decide
@[simp] theorem dead_ne_ready : OS_TASK_DEAD ≠ OS_TASK_READY := by decide
@[simp] theorem dead_ne_blocked : OS_TASK_DEAD ≠ OS_TASK_BLOCKED := by decide
@[simp] theorem dead_ne_suspended : OS_TASK_DEAD ≠ OS_TASK_SUSPENDED := by decide

/-- `OS_TASK_TIMED` is set. -/
abbrev Timed (task : OsTask c) : Prop := task.state &&& OS_TASK_TIMED ≠ 0

/-- `OS_TASK_MUTEX` is set. -/
abbrev OnMutex (task : OsTask c) : Prop := task.state &&& OS_TASK_MUTEX ≠ 0

theorem timed_kind (s : Byte) : (s ||| OS_TASK_TIMED) &&& OS_TASK_STATE = s &&& OS_TASK_STATE := by
  revert s; decide
theorem timed_timed (s : Byte) : (s ||| OS_TASK_TIMED) &&& OS_TASK_TIMED ≠ 0 := by
  revert s; decide
theorem timed_mutex (s : Byte) : (s ||| OS_TASK_TIMED) &&& OS_TASK_MUTEX = s &&& OS_TASK_MUTEX := by
  revert s; decide
theorem blocked_kind (s : Byte) (h : s &&& OS_TASK_STATE = OS_TASK_RUNNING) :
    (s ||| OS_TASK_BLOCKED) &&& OS_TASK_STATE = OS_TASK_BLOCKED := by
  revert s; decide
theorem blocked_timed (s : Byte) :
    (s ||| OS_TASK_BLOCKED) &&& OS_TASK_TIMED = s &&& OS_TASK_TIMED := by
  revert s; decide
theorem blocked_mutex (s : Byte) :
    (s ||| OS_TASK_BLOCKED) &&& OS_TASK_MUTEX = s &&& OS_TASK_MUTEX := by
  revert s; decide
theorem mutex_kind (s : Byte) : (s ||| OS_TASK_MUTEX) &&& OS_TASK_STATE = s &&& OS_TASK_STATE := by
  revert s; decide
theorem mutex_timed (s : Byte) : (s ||| OS_TASK_MUTEX) &&& OS_TASK_TIMED = s &&& OS_TASK_TIMED := by
  revert s; decide
theorem mutex_mutex (s : Byte) : (s ||| OS_TASK_MUTEX) &&& OS_TASK_MUTEX ≠ 0 := by
  revert s; decide

/-! ### Lists -/

/-- The `next` links once the task is off the list it waits on. -/
def offWait (k : ListKernel c) (t : Place c) : Lists (ListId c) (Place c) :=
  match (k.tasks t).waitList with
  | some w => Lists.remove k.links (.wait w) t
  | none => k.links

/-- The `timerNext` links once the task has no timeout anymore. -/
def offTimer (k : ListKernel c) (t : Place c) : Lists Unit (Place c) :=
  if Timed (k.tasks t) then Lists.remove k.timerLinks () t else k.timerLinks

/-- The `next` links once the task is back on the ready list. -/
def onReady (k : ListKernel c) (links : Lists (ListId c) (Place c)) (t : Place c) :
    Lists (ListId c) (Place c) :=
  Lists.insert links .ready t (fun it => k.priority t ≤ k.priority it)

theorem update_priority (tasks : Place c → OsTask c) (t u : Place c) (x : OsTask c)
    (h : x.priority = (tasks t).priority) :
    (Function.update tasks t x u).priority = (tasks u).priority := by
  by_cases hu : u = t
  · subst hu; simpa using h
  · simp [hu]

theorem osUnblock_eq (k : ListKernel c) (t : Place c) : k.osUnblock t =
    { k with
      tasks := Function.update k.tasks t { k.tasks t with waitList := none }
      links := k.offWait t
      timerLinks := k.offTimer t } := by
  unfold osUnblock offWait offTimer Timed
  cases hw : (k.tasks t).waitList with
  | none =>
    have he : { k.tasks t with waitList := none } = k.tasks t := by
      rw [← hw]
    by_cases ht : (k.tasks t).state &&& OS_TASK_TIMED ≠ 0
    · simp only [he, if_pos ht, osTimerListRemove, remove_lists, Function.update_eq_self]
    · simp only [he, if_neg ht, Function.update_eq_self]
  | some w =>
    simp only [osListRemove, setTask, osTimerListRemove, remove_lists, Function.update_self]
    by_cases ht : (k.tasks t).state &&& OS_TASK_TIMED ≠ 0
    · simp only [if_pos ht]
    · simp only [if_neg ht]

theorem osReady_eq (k : ListKernel c) (t : Place c) : k.osReady t =
    { k with
      tasks := Function.update k.tasks t { k.tasks t with state := OS_TASK_READY }
      links := k.onReady k.links t } := by
  simp only [osReady, osListInsert, onReady, setState, setTask, priority, insert_lists,
    update_priority]
  rfl

theorem osWake_eq (k : ListKernel c) (t : Place c) (r : Bool) : k.osWake t r =
    { k with
      tasks := Function.update k.tasks t { k.tasks t with
        result := r, waitList := none, state := OS_TASK_READY }
      links := k.onReady (k.offWait t) t
      timerLinks := k.offTimer t
      log := .woken t (k.tasks t).waitList r :: k.log } := by
  simp only [osWake, osUnblock_eq, osReady_eq, emit, setResult, setTask, onReady, priority,
    Function.update_self, Function.update_idem, update_priority, offWait, offTimer]
  rfl

/-- The control block of the current task once it sleeps. -/
def sleeper (k : ListKernel c) (list : Option (WaitList c)) (timeout : OsTick c) : OsTask c :=
  let x := { k.tasks k.currentTask with
    state := (k.tasks k.currentTask).state ||| OS_TASK_BLOCKED
    waitList := list }
  if timeout ≠ OS_WAIT_FOREVER c then
    { x with wake := k.ticks + timeout, state := x.state ||| OS_TASK_TIMED }
  else x

def onWait (k : ListKernel c) (list : Option (WaitList c)) : Lists (ListId c) (Place c) :=
  match list with
  | some w => Lists.insert k.links (.wait w) k.currentTask
      (fun it => k.priority k.currentTask ≤ k.priority it)
  | none => k.links

def onTimer (k : ListKernel c) (timeout : OsTick c) : Lists Unit (Place c) :=
  if timeout ≠ OS_WAIT_FOREVER c then
    Lists.insert k.timerLinks () k.currentTask (fun it => (k.tasks it).wake - k.ticks ≤ timeout)
  else k.timerLinks

theorem update_wake (tasks : Place c → OsTask c) (t u : Place c) (x : OsTask c)
    (h : x.wake = (tasks t).wake) : (Function.update tasks t x u).wake = (tasks u).wake := by
  by_cases hu : u = t
  · subst hu; simpa using h
  · simp [hu]

theorem sleep_eq (k : ListKernel c) (call : Call c) (list : Option (WaitList c))
    (timeout : OsTick c) : k.sleep call list timeout =
    { k with
      tasks := Function.update k.tasks k.currentTask (k.sleeper list timeout)
      links := k.onWait list
      timerLinks := k.onTimer timeout
      frames := Function.update k.frames k.currentTask (some (.blocked call))
      log := .blocked k.currentTask list timeout :: k.log } := by
  unfold sleep onWait onTimer sleeper
  cases list with
  | none =>
    simp only [emit, setFrame, setTask]
    by_cases ht : timeout ≠ OS_WAIT_FOREVER c
    · simp only [if_pos ht, osTimerListInsert, setTask, Function.update_self, Function.update_idem,
        update_wake, insert_lists]
    · simp only [if_neg ht]
  | some w =>
    simp only [emit, setFrame, setTask, osListInsert, priority, update_priority, insert_lists]
    by_cases ht : timeout ≠ OS_WAIT_FOREVER c
    · simp only [if_pos ht, osTimerListInsert, setTask, Function.update_self, Function.update_idem,
        update_wake, insert_lists]
      rfl
    · simp only [if_neg ht]
      rfl

theorem sleeper_waitList (k : ListKernel c) (list : Option (WaitList c)) (timeout : OsTick c) :
    (k.sleeper list timeout).waitList = list := by
  unfold sleeper
  dsimp only
  split <;> rfl

theorem sleeper_priority (k : ListKernel c) (list : Option (WaitList c)) (timeout : OsTick c) :
    (k.sleeper list timeout).priority = k.priority k.currentTask := by
  unfold sleeper
  dsimp only
  split <;> rfl

theorem sleeper_kind (k : ListKernel c) (list : Option (WaitList c)) (timeout : OsTick c)
    (h : k.stateOf k.currentTask = OS_TASK_RUNNING) :
    (k.sleeper list timeout).state &&& OS_TASK_STATE = OS_TASK_BLOCKED := by
  unfold sleeper
  dsimp only
  split
  · rw [timed_kind]; exact blocked_kind _ h
  · exact blocked_kind _ h

theorem sleeper_timed (k : ListKernel c) (list : Option (WaitList c)) (timeout : OsTick c)
    (h : ¬ Timed (k.tasks k.currentTask)) :
    Timed (k.sleeper list timeout) ↔ timeout ≠ OS_WAIT_FOREVER c := by
  unfold sleeper
  dsimp only
  by_cases ht : timeout ≠ OS_WAIT_FOREVER c
  · rw [if_pos ht]
    exact ⟨fun _ => ht, fun _ => timed_timed _⟩
  · rw [if_neg ht]
    refine ⟨fun hs => absurd ?_ h, fun he => absurd he ht⟩
    rw [Timed, ← blocked_timed]
    exact hs

theorem sleeper_mutex (k : ListKernel c) (list : Option (WaitList c)) (timeout : OsTick c) :
    OnMutex (k.sleeper list timeout) ↔ OnMutex (k.tasks k.currentTask) := by
  unfold sleeper OnMutex
  dsimp only
  split
  · rw [timed_mutex, blocked_mutex]
  · rw [blocked_mutex]

theorem sleep_current (k : ListKernel c) (call : Call c) (list : Option (WaitList c))
    (timeout : OsTick c) : (k.sleep call list timeout).currentTask = k.currentTask := by
  rw [sleep_eq]

theorem sleep_kind (k : ListKernel c) (call : Call c) (list : Option (WaitList c))
    (timeout : OsTick c) (h : k.stateOf k.currentTask = OS_TASK_RUNNING) :
    (k.sleep call list timeout).stateOf k.currentTask = OS_TASK_BLOCKED := by
  rw [sleep_eq, stateOf]
  dsimp only
  rw [Function.update_self, sleeper_kind k list timeout h]

/-! ### Operations on objects, case by case -/

/-- The mutex goes to the first waiter or to nobody. -/
theorem pass_cases (k : ListKernel c) (m : Place c) :
    (∃ w rest, k.links (.wait (.mutex m)) = w :: rest ∧
      k.osMutexPass m = (k.osMutexOwn m w).osWake w true) ∨
    (k.links (.wait (.mutex m)) = [] ∧ k.osMutexPass m = k.setOwner m none) := by
  unfold osMutexPass
  rw [head_lists]
  cases hl : k.links (.wait (.mutex m)) with
  | nil => exact Or.inr ⟨rfl, rfl⟩
  | cons w rest => exact Or.inl ⟨w, rest, rfl, rfl⟩

/-- The unit goes to the first waiter, into the counter or nowhere. -/
theorem give_cases (k : ListKernel c) (s : Place c) :
    (∃ w rest, k.links (.wait (.semaphore s)) = w :: rest ∧
      k.osSemaphoreGiveFromISR s = (k.emit (.gave s)).osWake w true) ∨
    (k.links (.wait (.semaphore s)) = [] ∧ (k.semaphores s).count < (k.semaphores s).limit ∧
      k.osSemaphoreGiveFromISR s =
        (k.emit (.gave s)).setCount s (((k.semaphores s).count + 1) % 256)) ∨
    (k.links (.wait (.semaphore s)) = [] ∧ (k.semaphores s).limit ≤ (k.semaphores s).count ∧
      k.osSemaphoreGiveFromISR s = (k.emit (.gave s)).emit (.dropped s)) := by
  unfold osSemaphoreGiveFromISR
  dsimp only [emit]
  rw [head_lists]
  cases hl : k.links (.wait (.semaphore s)) with
  | cons w rest => exact Or.inl ⟨w, rest, rfl, rfl⟩
  | nil =>
    by_cases hc : (k.semaphores s).count < (k.semaphores s).limit
    · exact Or.inr (Or.inl ⟨rfl, hc, if_pos hc⟩)
    · exact Or.inr (Or.inr ⟨rfl, by omega, if_neg hc⟩)

@[simp] theorem append_links (k : ListKernel c) (q : Place c) (item : Address) :
    (k.osQueueAppend q item).links = k.links := by simp only [osQueueAppend, setQueue, emit]
@[simp] theorem append_frames (k : ListKernel c) (q : Place c) (item : Address) :
    (k.osQueueAppend q item).frames = k.frames := by simp only [osQueueAppend, setQueue, emit]
@[simp] theorem append_tasks (k : ListKernel c) (q : Place c) (item : Address) :
    (k.osQueueAppend q item).tasks = k.tasks := by simp only [osQueueAppend, setQueue, emit]
@[simp] theorem append_current (k : ListKernel c) (q : Place c) (item : Address) :
    (k.osQueueAppend q item).currentTask = k.currentTask := by
  simp only [osQueueAppend, setQueue, emit]
@[simp] theorem take_links (k : ListKernel c) (q : Place c) (item : Address) :
    (k.osQueueTake q item).links = k.links := by simp only [osQueueTake, setQueue, emit]
@[simp] theorem take_frames (k : ListKernel c) (q : Place c) (item : Address) :
    (k.osQueueTake q item).frames = k.frames := by simp only [osQueueTake, setQueue, emit]
@[simp] theorem take_tasks (k : ListKernel c) (q : Place c) (item : Address) :
    (k.osQueueTake q item).tasks = k.tasks := by simp only [osQueueTake, setQueue, emit]
@[simp] theorem take_current (k : ListKernel c) (q : Place c) (item : Address) :
    (k.osQueueTake q item).currentTask = k.currentTask := by
  simp only [osQueueTake, setQueue, emit]
@[simp] theorem hand_links (k : ListKernel c) (q : Place c) (item target : Address) :
    (k.osQueueHand q item target).links = k.links := by simp only [osQueueHand, emit]
@[simp] theorem hand_frames (k : ListKernel c) (q : Place c) (item target : Address) :
    (k.osQueueHand q item target).frames = k.frames := by simp only [osQueueHand, emit]
@[simp] theorem hand_tasks (k : ListKernel c) (q : Place c) (item target : Address) :
    (k.osQueueHand q item target).tasks = k.tasks := by simp only [osQueueHand, emit]
@[simp] theorem hand_current (k : ListKernel c) (q : Place c) (item target : Address) :
    (k.osQueueHand q item target).currentTask = k.currentTask := by simp only [osQueueHand, emit]

/-- A message nobody waits for goes into the buffer, or there is no room for it. -/
theorem store_cases (k : ListKernel c) (call : Call c) (q : Place c) (item : Address)
    (timeout : OsTick c) :
    ((k.queues q).count < (k.queues q).length ∧
      k.osQueueStore call q item timeout = (k.osQueueAppend q item, some true)) ∨
    ((k.queues q).length ≤ (k.queues q).count ∧ timeout = 0 ∧
      k.osQueueStore call q item timeout = (k, some false)) ∨
    ((k.queues q).length ≤ (k.queues q).count ∧ timeout ≠ 0 ∧
      k.osQueueStore call q item timeout =
        (k.setWait k.currentTask (.item item)).osBlock call (some (.queue q)) timeout) := by
  unfold osQueueStore
  by_cases hc : (k.queues q).count < (k.queues q).length
  · exact Or.inl ⟨hc, if_pos hc⟩
  · rw [if_neg hc]
    by_cases ht : timeout = OS_NO_WAIT c
    · exact Or.inr (Or.inl ⟨by omega, ht, if_pos ht⟩)
    · exact Or.inr (Or.inr ⟨by omega, ht, if_neg ht⟩)

/-- The message goes to the first receiver, unless there is nobody who waits for one. -/
theorem put_cases (k : ListKernel c) (call : Call c) (q : Place c) (item : Address)
    (timeout : OsTick c) :
    (∃ w rest, k.links (.wait (.queue q)) = w :: rest ∧ (k.queues q).count = 0 ∧
      k.osQueuePut call q item timeout =
        ((k.osQueueHand q item (k.tasks w).wait.itemPtr).osWake w true, some true)) ∨
    ((k.links (.wait (.queue q)) = [] ∨ (k.queues q).count ≠ 0) ∧
      k.osQueuePut call q item timeout = k.osQueueStore call q item timeout) := by
  unfold osQueuePut
  rw [head_lists]
  cases hl : k.links (.wait (.queue q)) with
  | nil => exact Or.inr ⟨Or.inl rfl, rfl⟩
  | cons w rest =>
    dsimp only [List.head?_cons]
    by_cases hc : (k.queues q).count = 0
    · rw [if_pos hc]
      exact Or.inl ⟨w, rest, rfl, hc, rfl⟩
    · rw [if_neg hc]
      exact Or.inr ⟨Or.inr hc, rfl⟩

theorem send_cases (k : ListKernel c) (q : Place c) (item : Address) :
    (∃ w rest, k.links (.wait (.queue q)) = w :: rest ∧ (k.queues q).count = 0 ∧
      k.osQueueSendFromISR q item =
        (k.osQueueHand q item (k.tasks w).wait.itemPtr).osWake w true) ∨
    ((k.links (.wait (.queue q)) = [] ∨ (k.queues q).count ≠ 0) ∧
      (k.queues q).count < (k.queues q).length ∧
      k.osQueueSendFromISR q item = k.osQueueAppend q item) ∨
    ((k.links (.wait (.queue q)) = [] ∨ (k.queues q).count ≠ 0) ∧
      (k.queues q).length ≤ (k.queues q).count ∧ k.osQueueSendFromISR q item = k) := by
  unfold osQueueSendFromISR
  rcases put_cases k (.osQueueSend q item (OS_NO_WAIT c)) q item (OS_NO_WAIT c) with
    ⟨w, rest, hl, hc, he⟩ | ⟨hw, he⟩
  · exact Or.inl ⟨w, rest, hl, hc, by rw [he]⟩
  · rw [he]
    rcases store_cases k (.osQueueSend q item (OS_NO_WAIT c)) q item (OS_NO_WAIT c) with
      ⟨hc, hs⟩ | ⟨hc, -, hs⟩ | ⟨-, ht, -⟩
    · exact Or.inr (Or.inl ⟨hw, hc, by rw [hs]⟩)
    · exact Or.inr (Or.inr ⟨hw, hc, by rw [hs]⟩)
    · exact absurd rfl ht

/-- The first message of the buffer is delivered, its place is taken by the one of the first
sender who waits. -/
theorem get_cases (k : ListKernel c) (call : Call c) (q : Place c) (item : Address)
    (timeout : OsTick c) :
    (∃ w rest, k.links (.wait (.queue q)) = w :: rest ∧ (k.queues q).count ≠ 0 ∧
      k.osQueueGet call q item timeout =
        (((k.osQueueTake q item).osQueueAppend q (k.tasks w).wait.itemPtr).osWake w true,
          some true)) ∨
    (k.links (.wait (.queue q)) = [] ∧ (k.queues q).count ≠ 0 ∧
      k.osQueueGet call q item timeout = (k.osQueueTake q item, some true)) ∨
    ((k.queues q).count = 0 ∧ timeout = 0 ∧
      k.osQueueGet call q item timeout = (k, some false)) ∨
    ((k.queues q).count = 0 ∧ timeout ≠ 0 ∧ k.osQueueGet call q item timeout =
      (k.setWait k.currentTask (.item item)).osBlock call (some (.queue q)) timeout) := by
  unfold osQueueGet
  by_cases hc : (k.queues q).count = 0
  · rw [if_neg (not_not.mpr hc)]
    by_cases ht : timeout = OS_NO_WAIT c
    · exact Or.inr (Or.inr (Or.inl ⟨hc, ht, if_pos ht⟩))
    · exact Or.inr (Or.inr (Or.inr ⟨hc, ht, if_neg ht⟩))
  · rw [if_pos hc]
    dsimp only
    rw [head_lists, take_links, take_tasks]
    cases hl : k.links (.wait (.queue q)) with
    | nil => exact Or.inr (Or.inl ⟨rfl, hc, rfl⟩)
    | cons w rest => exact Or.inl ⟨w, rest, rfl, hc, rfl⟩

theorem receive_cases (k : ListKernel c) (q : Place c) (item : Address) :
    (∃ w rest, k.links (.wait (.queue q)) = w :: rest ∧ (k.queues q).count ≠ 0 ∧
      k.osQueueReceiveFromISR q item =
        ((k.osQueueTake q item).osQueueAppend q (k.tasks w).wait.itemPtr).osWake w true) ∨
    (k.links (.wait (.queue q)) = [] ∧ (k.queues q).count ≠ 0 ∧
      k.osQueueReceiveFromISR q item = k.osQueueTake q item) ∨
    ((k.queues q).count = 0 ∧ k.osQueueReceiveFromISR q item = k) := by
  unfold osQueueReceiveFromISR
  rcases get_cases k (.osQueueReceive q item (OS_NO_WAIT c)) q item (OS_NO_WAIT c) with
    ⟨w, rest, hl, hc, he⟩ | ⟨hl, hc, he⟩ | ⟨hc, -, he⟩ | ⟨-, ht, -⟩
  · exact Or.inl ⟨w, rest, hl, hc, by rw [he]⟩
  · exact Or.inr (Or.inl ⟨hl, hc, by rw [he]⟩)
  · exact Or.inr (Or.inr ⟨hc, by rw [he]⟩)
  · exact absurd rfl ht

/-- A waiter of an event is woken up if the flags satisfy him now. -/
theorem serve_cases (k : ListKernel c) (e t : Place c) :
    (osEventMatch (k.events e) (k.tasks t).wait.flags (k.tasks t).wait.options = 0 ∧
      k.osEventServe e t = k.emit (.visited e t)) ∨
    (∃ matched options, matched ≠ 0 ∧ options = (k.tasks t).wait.options ∧
      matched = osEventMatch (k.events e) (k.tasks t).wait.flags options ∧
      k.osEventServe e t =
        ((((k.emit (.visited e t)).osEventConsume e matched options).emit
          (.satisfied e t matched options)).setWait t (.event matched options)).osWake t true) := by
  unfold osEventServe
  by_cases hm : osEventMatch (k.events e) (k.tasks t).wait.flags (k.tasks t).wait.options = 0
  · exact Or.inl ⟨hm, if_neg (not_not.mpr hm)⟩
  · exact Or.inr ⟨_, _, hm, rfl, rfl, if_pos hm⟩

end Kernel
end AvrOs
