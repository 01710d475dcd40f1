import AvrOs.Moves

/-!
# Actions are sequences of moves

Every function of the kernel, called while the current task is running, makes moves only
and ends with the current task running, which may be another one by then.
-/

namespace AvrOs
open Intrusive Transition Kernel

variable {c : Config}

/-- The current task has its state for itself, no flag is set. -/
def Running (k : ListKernel c) : Prop := (k.tasks k.currentTask).state = OS_TASK_RUNNING

/-- The current task is not in a call, or has just entered one. -/
def Open (k : ListKernel c) : Prop := k.frames k.currentTask = none

/-- The call has just been made. -/
def Called (k : ListKernel c) (x : Call c) : Prop :=
  ∃ past, k.history k.currentTask = .called k.currentTask x (k.mine x) :: past

/-- The action is about timers. -/
def Action.OnTimers : Action c → Prop
  | .call (.osTimerStart _ _ _ _) | .call (.osTimerStop _) | .isrCall (.osTimerStart _ _ _ _)
  | .isrCall (.osTimerStop _) | .tickTimer => True
  | _ => False

/-- The processor enters a handler, or leaves it, or calls the function of a timer. -/
def Action.Switches : Action c → Prop
  | .isrEnter _ | .isrLeave | .tickEnter | .tickTimer | .tickLeave => True
  | _ => False

/-- The current task lets others of its own priority run first. -/
def Action.Yields : Action c → Prop
  | .call .osYield | .call (.osDelay _) | .tickLeave => True
  | _ => False

/-- Which moves an action taken in `b` may come with, and in what state. -/
def Allowed (b : ListKernel c) (a : Action c) (k : ListKernel c) : Move c → Prop
  | .one (.called x) => a = .call x
  | .one (.returns call _) =>
      a = .call call ∨ (a = .resume ∧ b.frames b.currentTask = some (.blocked call))
  | .one .leave => a = .resume
  | .one (.timerCalled _) => a = .tickTimer
  | .one (.take s) => ∃ timeout, a = .call (.osSemaphoreTake s timeout)
  | .one (.give s) => a = .call (.osSemaphoreGive s) ∨ a = .isrCall (.osSemaphoreGiveFromISR s)
  | .one (.send q item) => a = .isrCall (.osQueueSendFromISR q item) ∨ ∃ timeout, a = .call (.osQueueSend q item timeout)
  | .one (.receive q item) =>
      a = .isrCall (.osQueueReceiveFromISR q item) ∨ ∃ timeout, a = .call (.osQueueReceive q item timeout)
  | .one (.quiet _ _ aging timers timersLinks mode) =>
      (timers = k.timers ∧ timersLinks = k.timersLinks ∨ a.OnTimers) ∧
      (mode = k.mode ∨ a.Switches) ∧ (aging = k.aging ∨ a = .tickLeave)
  | .one .start => a = .run ∧ k.tasks = b.tasks ∧ k.owner = b.owner
  | .one .settle => c.aging = true
  | .one .age => c.aging = true ∧ a = .tickLeave
  | .one (.preempt key) => k.currentTask = b.currentTask ∧
      (key = k.priority k.currentTask + 1 ∨ a.Yields)
  | .one (.park t) => k.tasks = b.tasks ∧ ∃ o, a = .call (.osTaskSuspend o) ∧
      o.getD b.currentTask = t ∧ k.frames = Function.update b.frames b.currentTask
        (some (.returning (.osTaskSuspend o) .void))
  | .one (.unpark t) => k.tasks = b.tasks ∧ k.frames = b.frames ∧ k.owner = b.owner ∧
      (a = .call (.osTaskResume t) ∨ a = .isrCall (.osTaskResumeFromISR t))
  | .one .reap => a = .call .osTaskReap
  | .one (.create t _ d) => ∃ p, a = .call (.osTaskCreate t p d)
  | .one (.own m) => a = .call (.osMutexLock m) ∨ ∃ timeout, a = .call (.osMutexTryLock m timeout)
  | .unlock m => a = .call (.osMutexUnlock m)
  | .delete t => k.tasks = b.tasks ∧
      ∃ o, a = .call (.osTaskDelete o) ∧ o.getD b.currentTask = t
  | .repriority t _ => k.tasks = b.tasks ∧ k.owner = b.owner ∧
      ∃ o p, a = .call (.osTaskSetPriority o p) ∧ o.getD b.currentTask = t
  | .block call _ _ => a = .call call ∧ k.currentTask = b.currentTask
  | .lock call _ _ _ => a = .call call
  | .lockIdle m _ => k.tasks = b.tasks ∧ k.owner = b.owner ∧
      (a = .call (.osMutexLock m) ∨ ∃ timeout, timeout ≠ 0 ∧ a = .call (.osMutexTryLock m timeout))
  | .giveUp m => a = .resume ∧
      ∃ call, b.frames b.currentTask = some (.blocked call) ∧ call.mutex = some m
  | .tick => a = .tickEnter ∧ k.tasks = b.tasks ∧ k.ticks = b.ticks
  | _ => True

/-- Moves which come with the action. -/
abbrev Moves (b : ListKernel c) (a : Action c) : ListKernel c → ListKernel c → Prop :=
  Run Move.apply fun k mv => mv.guard k ∧ Allowed b a k mv

section
variable {b k k' : ListKernel c} {a : Action c}

theorem Moves.sound (h : Moves b a k k') (hs : Sound k) : Sound k' :=
  h.invariant (fun _ mv hg hs => mv.sound hs hg.1) hs

theorem Moves.one (x : Atom c) (hb : x.Bare) (hg : x.guard k) (ha : Allowed b a k (.one x)) :
    Moves b a k (x.apply k) := Run.single (Move.one x) ⟨⟨hb, hg⟩, ha⟩

theorem Running.kind (hr : Running k) : k.stateOf k.currentTask = OS_TASK_RUNNING := by
  rw [stateOf, hr]
  simp

/-- Changes of priorities leave the state of the current task alone. -/
theorem SameTasks.running (hs : SameTasks k k') (hr : Running k) : Running k' := by
  rw [Running, hs.current, hs.state]
  exact hr

theorem SameTasks.open (hs : SameTasks k k') (hf : Open k) : Open k' := by
  rw [Open, hs.current, hs.frames]
  exact hf

theorem wake_open (hf : Open k) (t : Place c) (r : Bool) : Open (k.osWake t r) := by
  rw [Open, osWake_eq]
  exact hf

/-! ### Switching -/

/-- Nobody is left on the ready list who could not be running. -/
theorem dispatch_moves (h : Sound k) (hs : k.stateOf k.currentTask ≠ OS_TASK_RUNNING) :
    Moves b a k k.osDispatch ∧ Running k.osDispatch := by
  obtain ⟨-, n, hn⟩ := osDispatch_sound h hs
  refine ⟨.one .dispatch trivial hs trivial, ?_⟩
  rw [osDispatch_eq k n hn]
  simp [Running]

theorem settle_moves (hr : Running k) : Moves b a k (k.osSettle k.currentTask) := by
  unfold osSettle
  split
  case isTrue ha =>
    split
    · exact .one .settle trivial hr.kind ha
    · exact .refl k
  case isFalse => exact .refl k

/-- Settling brings no priority above 254 about. -/
theorem settle_bound (h : Sound k) (t : Place c) (hp : k.priority t ≤ 254) :
    (k.osSettle t).priority t ≤ 254 := by
  unfold osSettle
  split
  · split
    · have he : (k.setPriority t (k.osInheritedPriority t)).priority t =
          k.osInheritedPriority t := by simp [priority, setPriority, setTask]
      rw [he]
      rcases h.inherited_bound t with hb | ⟨-, -, hb, -⟩
      · exact hb
      · rw [priority] at hp
        omega
    · exact hp
  · exact hp

/-- The current task goes on, or settles, makes way and somebody else is dispatched. -/
theorem schedule_cases (h : Sound k) (hr : Running k) (yield : ℕ) (hy : yield ≤ 1) :
    k.osScheduleNeeded yield = false ∧ k.osSchedule yield = k ∨
    k.osScheduleNeeded yield = true ∧ ∃ s, s = k.osSettle k.currentTask ∧ Sound s ∧ Running s ∧
      s.currentTask = k.currentTask ∧
      (Atom.preempt (s.priority s.currentTask + 1 - yield)).guard s ∧
      k.osSchedule yield =
        ((Atom.preempt (s.priority s.currentTask + 1 - yield)).apply s).osDispatch := by
  cases hn : k.osScheduleNeeded yield with
  | false =>
    refine Or.inl ⟨rfl, ?_⟩
    rw [osSchedule, hn, if_neg (by simp)]
  | true =>
    have hp : k.priority k.currentTask ≤ 254 := by
      unfold osScheduleNeeded at hn
      split at hn
      · have hlt := of_decide_eq_true hn
        omega
      · cases hn
    have hm : Moves k .tickLeave k (k.osSettle k.currentTask) := settle_moves hr
    have hsame := settle_same k k.currentTask
    have hb := settle_bound h k.currentTask hp
    have hs := hm.sound h
    have hcur : (k.osSettle k.currentTask).currentTask = k.currentTask := hsame.current
    have hrs := hsame.running hr
    have heq : k.osSchedule yield = (((k.osSettle k.currentTask).setState k.currentTask
        OS_TASK_READY).osListInsert .ready k.currentTask
        (((k.osSettle k.currentTask).priority k.currentTask + 1 - yield) % 256)).osDispatch := by
      rw [osSchedule, hn, if_pos rfl]
      dsimp only
      rw [setState_priority]
    refine Or.inr ⟨rfl, _, rfl, hs, hrs, hcur, ?_, ?_⟩
    · exact ⟨hrs.kind, by omega, by omega, by rw [hcur]; exact hb⟩
    · rw [heq, Nat.mod_eq_of_lt (by omega), Atom.apply, hcur]

theorem preempt_waits (k : ListKernel c) (key : ℕ) : ((Atom.preempt key).apply k).stateOf
    ((Atom.preempt key).apply k).currentTask ≠ OS_TASK_RUNNING := by
  show ((k.setState k.currentTask OS_TASK_READY).osListInsert .ready k.currentTask key).stateOf
    k.currentTask ≠ _
  simp [osListInsert, stateOf, setState, setTask]

theorem schedule_moves (h : Sound k) (hr : Running k) (hc : k.currentTask = b.currentTask) (yield : ℕ)
    (hy : yield = 0 ∨ yield ≤ 1 ∧ a.Yields) :
    Moves b a k (k.osSchedule yield) ∧ Running (k.osSchedule yield) := by
  rcases schedule_cases h hr yield (by omega) with ⟨-, he⟩ | ⟨-, s, rfl, hs, hrs, hsc, hg, he⟩
  · rw [he]
    exact ⟨.refl k, hr⟩
  · have hm : Moves b a k (k.osSettle k.currentTask) := settle_moves hr
    rw [he]
    generalize k.osSettle k.currentTask = s at hm hs hrs hsc hg ⊢
    have hkey : Allowed b a s (.one (.preempt (s.priority s.currentTask + 1 - yield))) := by
      refine ⟨hsc.trans hc, ?_⟩
      rcases hy with rfl | ⟨-, hy⟩
      · exact Or.inl (by omega)
      · exact Or.inr hy
    have hpre : Moves b a s ((Atom.preempt (s.priority s.currentTask + 1 - yield)).apply s) :=
      .one _ trivial hg hkey
    obtain ⟨hd, hrd⟩ := dispatch_moves (b := b) (a := a) (hpre.sound hs) (preempt_waits s _)
    exact ⟨hm.trans (hpre.trans hd), hrd⟩

theorem returns_moves (hr : Running k) (call : Call c) (v : Value c)
    (hf : k.frames k.currentTask = none ∧ (life k k.currentTask).Prompt k.currentTask call v ∨
      k.frames k.currentTask = some (.blocked call) ∧
        v = call.told (k.tasks k.currentTask).result (k.tasks k.currentTask).wait)
    (ha : Allowed b a k (.one (.returns call v))) : Moves b a k (k.returns call v) :=
  .one (.returns call v) trivial ⟨hr.kind, hf⟩ ha

/-- Moves, and the current task running after them. -/
def Ends (b : ListKernel c) (a : Action c) (k k' : ListKernel c) : Prop :=
  Moves b a k k' ∧ Running k'

theorem Moves.schedule (hm : Moves b a k k') (h : Sound k) (hr : Running k')
    (hc : k'.currentTask = b.currentTask) (yield : ℕ) (hy : yield = 0 ∨ yield ≤ 1 ∧ a.Yields) : Ends b a k (k'.osSchedule yield) := by
  obtain ⟨hs, hrs⟩ := schedule_moves (b := b) (a := a) (hm.sound h) hr hc yield hy
  exact ⟨hm.trans hs, hrs⟩

theorem Moves.ends {k₁ k₂ : ListKernel c} (hm : Moves b a k k₁) (he : Ends b a k₁ k₂) :
    Ends b a k k₂ := ⟨hm.trans he.1, he.2⟩

/-- A call which is over as soon as its value is in the frame. -/
theorem Moves.returns (hm : Moves b a k k') (hr : Running k')
    (hf : Open k') (call : Call c) (v : Value c)
    (hv : (life k' k'.currentTask).Prompt k'.currentTask call v) (ha : a = .call call) :
    Ends b a k (k'.returns call v) :=
  ⟨hm.trans (returns_moves hr call v (Or.inl ⟨hf, hv⟩) (Or.inl ha)), hr⟩

theorem setState_running (hr : Running k) : k.setState k.currentTask OS_TASK_RUNNING = k := by
  have he : { k.tasks k.currentTask with state := OS_TASK_RUNNING } = k.tasks k.currentTask := by
    rw [← hr]
  rw [setState, he, setTask, Function.update_eq_self]

/-- The task sleeps and another one runs, or it is the idle task and has the result at once. -/
theorem osBlock_moves (h : Sound k) (hr : Running k) (hf : Open k) (call : Call c)
    (list : Option (WaitList c)) (timeout : OsTick c) (ht : timeout ≠ 0)
    (hinh : c.mutexInheritance = true → ∀ m, list ≠ some (.mutex m))
    (hb : Blockable k call timeout list) (ha : a = .call call ∧ k.currentTask = b.currentTask) :
    (∃ k', k.osBlock call list timeout = (k', none) ∧ Ends b a k k') ∨
    (k.currentTask = osIdleTask ∧ k.osBlock call list timeout = (k, some false)) := by
  unfold osBlock
  by_cases hi : k.currentTask = osIdleTask
  · refine Or.inr ⟨hi, ?_⟩
    simp only [hi, if_true]
    rw [← hi, setState_running hr]
  · refine Or.inl ⟨_, by simp only [hi, if_false]; rfl, ?_⟩
    have hg : (Move.block call list timeout).guard k := ⟨hi, hr, ht, hf, hinh, hb⟩
    have hm : Moves b a k ((Move.block call list timeout).apply k) :=
      Run.single (Move.block call list timeout) ⟨hg, ha⟩
    have hsame := settle_same k k.currentTask
    have hst : ((Move.block call list timeout).apply k).stateOf
        ((Move.block call list timeout).apply k).currentTask ≠ OS_TASK_RUNNING := by
      show ((k.osSettle k.currentTask).sleep call list timeout).stateOf
        ((k.osSettle k.currentTask).sleep call list timeout).currentTask ≠ _
      rw [sleep_current, sleep_kind _ _ _ _ (hsame.running hr).kind]
      simp
    obtain ⟨hd, hrd⟩ := dispatch_moves (b := b) (a := a) (hm.sound h) hst
    exact ⟨hm.trans hd, hrd⟩

theorem blockThen_moves (h : Sound k) (hr : Running k) (hf : Open k) (call : Call c)
    (list : Option (WaitList c)) (timeout : OsTick c) (rest : ListKernel c → Bool → ListKernel c)
    (ht : timeout ≠ 0) (hinh : c.mutexInheritance = true → ∀ m, list ≠ some (.mutex m))
    (hb : Blockable k call timeout list) (ha : a = .call call ∧ k.currentTask = b.currentTask)
    (hrest : k.currentTask = osIdleTask → Ends b a k (rest k false)) :
    Ends b a k (k.blockThen call list timeout rest) := by
  unfold blockThen
  rcases osBlock_moves (b := b) h hr hf call list timeout ht hinh hb ha with ⟨k', he, hk⟩ | ⟨hi, he⟩
  · rw [he]
    exact hk
  · rw [he]
    exact hrest hi

/-! ### Calls of scheduler.c and tasks.c -/

theorem osYield_moves (h : Sound k) (hr : Running k)
    (hf : Open k) : Ends k (.call .osYield) k k.osYield := by
  obtain ⟨hm, hrm⟩ := Moves.returns (b := k) (a := .call .osYield) (.refl k) hr hf .osYield .void
    trivial rfl
  exact hm.schedule h hrm rfl 1 (Or.inr ⟨le_rfl, trivial⟩)

theorem osDelay_moves (h : Sound k) (hr : Running k)
    (hf : Open k) (ticks : OsTick c) :
    Ends k (.call (.osDelay ticks)) k (k.osDelay ticks) := by
  have hv : Ends k (.call (.osDelay ticks)) k (k.returns (.osDelay ticks) .void) :=
    Moves.returns (.refl k) hr hf _ _ trivial rfl
  unfold osDelay
  dsimp only
  split
  case isTrue ht =>
    exact blockThen_moves h hr hf _ none ticks _ ht (by simp) (Or.inl rfl) ⟨rfl, rfl⟩ fun _ => hv
  case isFalse => exact hv.1.schedule h hv.2 rfl 1 (Or.inr ⟨le_rfl, trivial⟩)

theorem not_late (period left : OsTick c) (h : left - 1 < period) : left ≠ 0 := by
  rintro rfl
  have he : (0 : OsTick c) - 1 = BitVec.allOnes _ := by simp [BitVec.neg_one_eq_allOnes]
  rw [he, BitVec.lt_def, BitVec.toNat_allOnes] at h
  have := period.isLt
  omega

theorem osDelayUntil_moves (h : Sound k) (hr : Running k)
    (hf : Open k) (previous : Address)
    (period : OsTick c) :
    Ends k (.call (.osDelayUntil previous period)) k (k.osDelayUntil previous period) := by
  unfold osDelayUntil
  dsimp only
  have hq : Moves k (.call (.osDelayUntil previous period)) k
      { k with tickVars := Function.update k.tickVars previous (k.tickVars previous + period) } :=
    .one (.quiet k.memory (Function.update k.tickVars previous (k.tickVars previous + period))
      k.aging k.timers k.timersLinks k.mode) trivial trivial
      ⟨Or.inl ⟨rfl, rfl⟩, Or.inl rfl, Or.inl rfl⟩
  have hq' := hq.sound h
  split
  case isTrue ht =>
    have hv := Moves.returns (b := k) (.refl { k with
      tickVars := Function.update k.tickVars previous (k.tickVars previous + period) }) hr hf
      (.osDelayUntil previous period) .void trivial rfl
    exact hq.ends (blockThen_moves hq' hr hf _ none _ _ (not_late _ _ ht) (by simp)
      (Or.inr ⟨previous, period, rfl⟩) ⟨rfl, rfl⟩ fun _ => hv)
  case isFalse => exact hq.returns hr hf _ .void trivial rfl

theorem create_running (hr : Running k) (t : Place c) (p : ℕ) (d : Bool)
    (hs : k.stateOf t = OS_TASK_DEAD) : Running (k.osTaskSetup t p d) := by
  have hct : k.currentTask ≠ t := by
    rintro rfl
    rw [hr.kind] at hs
    simp at hs
  have hcur : (k.osTaskSetup t p d).currentTask = k.currentTask := rfl
  rw [Running, hcur, ← hr]
  unfold osTaskSetup
  rw [osReady_eq]
  simp [setTask, setFrame, emit, hct]

theorem create_open (hr : Running k) (hf : Open k) (t : Place c) (p : ℕ) (d : Bool)
    (hs : k.stateOf t = OS_TASK_DEAD) : Open (k.osTaskSetup t p d) := by
  have hct : k.currentTask ≠ t := by
    rintro rfl
    rw [hr.kind] at hs
    simp at hs
  show Function.update k.frames t none k.currentTask = none
  rw [Function.update_of_ne hct]
  exact hf

theorem osTaskCreate_moves (h : Sound k) (hr : Running k)
    (hf : Open k) (t : Place c) (p : Byte) (d : Bool)
    (hs : k.stateOf t = OS_TASK_DEAD) (hd : t ∉ k.links .dead)
    (ho : c.mutexInheritance = true → ∀ m, k.owner m ≠ some t) :
    Ends k (.call (.osTaskCreate t p d)) k (k.osTaskCreate t p d) := by
  have hm : Moves k (.call (.osTaskCreate t p d)) k (k.osTaskSetup t p.toNat d) :=
    .one (.create t p.toNat d) trivial ⟨hs, hd, ho⟩ ⟨p, rfl⟩
  have hr' := create_running hr t p.toNat d hs
  obtain ⟨hm', hr''⟩ := hm.returns hr' (create_open hr hf t p.toNat d hs) (.osTaskCreate t p d)
    (.task (some t)) trivial rfl
  exact hm'.schedule h hr'' rfl 0 (Or.inl rfl)

theorem osTaskSuspend_moves (h : Sound k) (hr : Running k)
    (hf : Open k) (t : Option (Place c)) :
    Ends k (.call (.osTaskSuspend t)) k (k.osTaskSuspend t) := by
  obtain ⟨hm, hrm⟩ := Moves.returns (b := k) (a := .call (.osTaskSuspend t)) (.refl k) hr hf
    (.osTaskSuspend t) .void trivial rfl
  unfold osTaskSuspend
  dsimp only
  split
  case isTrue hc =>
    obtain ⟨hi, hsus, hdead⟩ := hc
    have hpark : Moves k (.call (.osTaskSuspend t)) k ((Atom.park (t.getD k.currentTask)).apply
        (k.returns (.osTaskSuspend t) .void)) :=
      hm.trans (Moves.one (.park _) trivial ⟨hi, hdead, hsus⟩
        ⟨rfl, t, rfl, rfl, rfl⟩)
    have hps := hpark.sound h
    have hcur : ((Atom.park (t.getD k.currentTask)).apply
        (k.returns (.osTaskSuspend t) .void)).currentTask = k.currentTask :=
      (detach_frame _ _).1
    have htasks : ((Atom.park (t.getD k.currentTask)).apply
        (k.returns (.osTaskSuspend t) .void)).tasks = Function.update k.tasks (t.getD k.currentTask)
          { k.tasks (t.getD k.currentTask) with
            waitList := none, result := false, state := OS_TASK_SUSPENDED } :=
      park_tasks (hm.sound h).linked _
    split
    case isTrue he =>
      refine hpark.ends (dispatch_moves hps ?_)
      rw [stateOf, hcur, htasks, he, Function.update_self]
      simp
    case isFalse he =>
      have hrs : Running ((Atom.park (t.getD k.currentTask)).apply
          (k.returns (.osTaskSuspend t) .void)) := by
        rw [Running, hcur, htasks, Function.update_of_ne (Ne.symm he)]
        exact hr
      exact ⟨hpark, hrs⟩
  case isFalse => exact ⟨hm, hrm⟩

theorem unpark_running (hr : Running k) (t : Place c) : Running (k.osTaskResumeFromISR t) := by
  unfold osTaskResumeFromISR
  split
  case isTrue hs =>
    have hne : k.currentTask ≠ t := by
      rintro rfl
      rw [hr.kind] at hs
      simp at hs
    rw [osReady_eq]
    simpa [Running, emit, hne] using hr
  case isFalse => exact hr

theorem unpark_open (hf : Open k) (t : Place c) : Open (k.osTaskResumeFromISR t) := by
  unfold osTaskResumeFromISR
  split
  · rw [Open, osReady_eq]
    exact hf
  · exact hf

theorem unpark_current (k : ListKernel c) (t : Place c) :
    (k.osTaskResumeFromISR t).currentTask = k.currentTask := by
  unfold osTaskResumeFromISR
  split
  · rw [osReady_eq]
    rfl
  · rfl

theorem osTaskResumeFromISR_moves (hr : Running k) (t : Place c)
    (ha : a = .call (.osTaskResume t) ∨ a = .isrCall (.osTaskResumeFromISR t)) :
    Ends k a k (k.osTaskResumeFromISR t) := by
  refine ⟨?_, unpark_running hr t⟩
  unfold osTaskResumeFromISR
  split
  case isTrue hs => exact Moves.one (.unpark t) trivial hs ⟨rfl, rfl, rfl, ha⟩
  case isFalse => exact .refl k

theorem osTaskResume_moves (h : Sound k) (hr : Running k)
    (hf : Open k) (t : Place c) :
    Ends k (.call (.osTaskResume t)) k (k.osTaskResume t) := by
  obtain ⟨hm, hrm⟩ := osTaskResumeFromISR_moves (a := .call (.osTaskResume t)) hr t (Or.inl rfl)
  obtain ⟨hm', hrm'⟩ := hm.returns hrm (unpark_open hf t) (.osTaskResume t) .void trivial rfl
  exact hm'.schedule h hrm' (unpark_current k t) 0 (Or.inl rfl)

theorem repriority_same (k : ListKernel c) (t : Place c) (p : ℕ) : SameTasks k (repriority k t p) := by
  have hb : SameTasks k (k.setTask t { k.tasks t with basePriority := p }) :=
    setTask_same k t _ p
  unfold repriority
  dsimp only
  split
  · exact hb.trans (raiseLoop_same _ _ t _)
  · split
    · exact hb.trans (requeue_same _ t _)
    · exact hb

theorem osTaskSetPriority_moves (h : Sound k) (hr : Running k)
    (hf : Open k) (t : Option (Place c)) (p : Byte) :
    Ends k (.call (.osTaskSetPriority t p)) k (k.osTaskSetPriority t p) := by
  obtain ⟨hm, hrm⟩ := Moves.returns (b := k) (a := .call (.osTaskSetPriority t p)) (.refl k) hr hf
    (.osTaskSetPriority t p) .void trivial rfl
  have hp := osTaskPriority_bounds p.toNat
  have hmv : Moves k (.call (.osTaskSetPriority t p)) k
      (repriority (k.returns (.osTaskSetPriority t p) .void) (t.getD k.currentTask)
        (osTaskPriority p.toNat)) :=
    hm.trans (Run.single (Move.repriority _ _) ⟨hp, rfl, rfl, t, p, rfl, rfl⟩)
  exact hmv.schedule h ((repriority_same _ _ _).running hrm) (repriority_same _ _ _).current 0 (Or.inl rfl)

theorem osTaskDelete_moves (h : Sound k) (hr : Running k)
    (hf : Open k) (t : Option (Place c)) :
    Ends k (.call (.osTaskDelete t)) k (k.osTaskDelete t) := by
  obtain ⟨hm, hrm⟩ := Moves.returns (b := k) (a := .call (.osTaskDelete t)) (.refl k) hr hf
    (.osTaskDelete t) .void trivial rfl
  unfold osTaskDelete
  dsimp only
  split
  case isTrue hc =>
    obtain ⟨hi, hdead⟩ := hc
    have h₁ := hm.sound h
    have hdel : Moves k (.call (.osTaskDelete t)) k
        (delete (k.returns (.osTaskDelete t) .void) (t.getD k.currentTask)) :=
      hm.trans (Run.single (Move.delete _) ⟨⟨hi, hdead⟩, rfl, t, rfl, rfl⟩)
    have hcur := delete_current h₁ (t.getD k.currentTask) hi hdead
    split
    case isTrue he =>
      refine hdel.ends (dispatch_moves (hdel.sound h) ?_)
      have hk := delete_kind h₁ (t.getD k.currentTask) hi hdead
      rw [hcur.trans he.symm, hk]
      simp
    case isFalse he =>
      refine hdel.schedule h ?_ hcur 0 (Or.inl rfl)
      have hb : (k.returns (.osTaskDelete t) .void).stateOf k.currentTask ≠ OS_TASK_BLOCKED := by
        show k.stateOf k.currentTask ≠ _
        rw [hr.kind]
        simp
      have hk := delete_frame h₁ (t.getD k.currentTask) hi hdead k.currentTask (Ne.symm he) hb
      rw [Running, hcur]
      exact (congrArg OsTask.state hk).trans hr
  case isFalse => exact ⟨hm, hrm⟩

theorem osTaskReap_moves (hr : Running k)
    (hf : Open k) : Ends k (.call .osTaskReap) k k.osTaskReap := by
  have hm : Moves k (.call .osTaskReap) k ((Atom.reap).apply k) :=
    .one .reap trivial trivial rfl
  exact hm.returns hr hf .osTaskReap (.task (k.links .dead).head?) trivial rfl

/-! ### Calls of mutex.c -/

theorem osMutexInit_moves (hr : Running k)
    (hf : Open k) (m : Place c)
    (hw : k.links (.wait (.mutex m)) = []) (ho : k.owner m = none) :
    Ends k (.call (.osMutexInit m)) k (k.osMutexInit m) := by
  have hm : Moves k (.call (.osMutexInit m)) k ((Atom.mutexInit m).apply k) :=
    .one _ trivial ⟨hw, ho⟩ trivial
  obtain ⟨hm', hr'⟩ := hm.returns hr hf (.osMutexInit m) .void trivial rfl
  unfold osMutexInit
  dsimp only
  split
  · exact ⟨hm', hr'⟩
  · exact ⟨hm', hr'⟩

theorem giveUp_same (k : ListKernel c) (m : Place c) : SameTasks k (giveUp k m) := by
  unfold giveUp
  split
  · split
    · exact requeue_same _ _ _
    · exact .refl k
  · exact .refl k

/-- What the end of `osMutexTryLock` does before it returns. -/
def undo (k : ListKernel c) (m : Place c) (locked : Bool) : ListKernel c :=
  if c.mutexInheritance ∧ locked = false then giveUp k m else k

theorem rest_eq (k : ListKernel c) (call : Call c) (m : Place c) (locked : Bool) :
    osMutexTryLockRest call m k locked = (undo k m locked).returns call (lockValue call locked) := by
  unfold osMutexTryLockRest undo giveUp
  rfl

theorem undo_same (k : ListKernel c) (m : Place c) (locked : Bool) :
    SameTasks k (undo k m locked) := by
  unfold undo
  split
  · exact giveUp_same k m
  · exact .refl k

theorem undo_moves (hr : Running k) (m : Place c) (locked : Bool)
    (ha : Allowed b a k (.giveUp m)) : Ends b a k (undo k m locked) := by
  refine ⟨?_, (undo_same k m locked).running hr⟩
  unfold undo
  split
  · exact Run.single (Move.giveUp m) ⟨trivial, ha⟩
  · exact .refl k

/-- Calls which lock a mutex. -/
def Locks (call : Call c) (m : Place c) (timeout : OsTick c) : Prop :=
  call = .osMutexTryLock m timeout ∨ (call = .osMutexLock m ∧ timeout = OS_WAIT_FOREVER c)

theorem Locks.action {call : Call c} {m : Place c} {timeout : OsTick c} (hc : Locks call m timeout) :
    Action.call call = .call (.osMutexLock m) ∨
      ∃ timeout, Action.call call = .call (.osMutexTryLock m timeout) := by
  rcases hc with hc | ⟨hc, -⟩
  · exact Or.inr ⟨timeout, by rw [hc]⟩
  · exact Or.inl (by rw [hc])

theorem Locks.waits {call : Call c} {m : Place c} {timeout : OsTick c} (hc : Locks call m timeout)
    (ht : timeout ≠ 0) : Action.call call = .call (.osMutexLock m) ∨
      ∃ timeout, timeout ≠ 0 ∧ Action.call call = .call (.osMutexTryLock m timeout) := by
  rcases hc with hc | ⟨hc, -⟩
  · exact Or.inr ⟨timeout, ht, by rw [hc]⟩
  · exact Or.inl (by rw [hc])

/-- The mutex the task may have to wait for. -/
def Action.mayWaitFor : Action c → Option (Place c)
  | .call (.osMutexLock m) => some m
  | .call (.osMutexTryLock m timeout) => if timeout = OS_NO_WAIT c then none else some m
  | _ => none

theorem Locks.mayWaitFor {call : Call c} {m : Place c} {timeout : OsTick c} (hc : Locks call m timeout)
    (ht : timeout ≠ OS_NO_WAIT c) : (Action.call call).mayWaitFor = some m := by
  rcases hc with rfl | ⟨rfl, -⟩
  · exact if_neg ht
  · rfl

theorem lock_prompt {call : Call c} {m : Place c} {timeout : OsTick c} (hc : Locks call m timeout)
    (ho : k.owner m = some k.currentTask) :
    (life k k.currentTask).Prompt k.currentTask call (lockValue call true) := by
  rcases hc with rfl | ⟨rfl, -⟩
  · exact ⟨true, rfl, fun _ => ho, fun hl => by cases hl⟩
  · exact Or.inr ho

theorem forever_ne (c : Config) : OS_WAIT_FOREVER c ≠ 0 := by
  have hw : 16 ≤ c.tickBits := by
    unfold Config.tickBits
    split <;> omega
  intro he
  have hn := congrArg BitVec.toNat he
  rw [OS_WAIT_FOREVER, BitVec.toNat_allOnes, show (0 : OsTick c).toNat = 0 from rfl] at hn
  have hp : 2 ^ 16 ≤ 2 ^ c.tickBits := Nat.pow_le_pow_right (by omega) hw
  omega

/-- Nobody but the idle task is told by `osMutexLock` that it does not have the mutex. -/
theorem refuse_prompt {call : Call c} {m : Place c} {timeout : OsTick c} (hc : Locks call m timeout)
    (hm : k.owner m = some k.currentTask → wasMine (k.history k.currentTask) = true)
    (ht : timeout = 0 ∨ k.currentTask = osIdleTask) :
    (life k k.currentTask).Prompt k.currentTask call (lockValue call false) := by
  rcases hc with rfl | ⟨rfl, hw⟩
  · exact ⟨false, rfl, fun hl => (by cases hl), fun _ ho => hm ho⟩
  · rcases ht with ht | ht
    · exact absurd (hw ▸ ht) (forever_ne c)
    · exact Or.inl ht

theorem Called.mine {call : Call c} {m : Place c} {timeout : OsTick c} (he : Called k call)
    (hc : Locks call m timeout) :
    k.owner m = some k.currentTask ↔ wasMine (k.history k.currentTask) = true := by
  obtain ⟨past, hp⟩ := he
  rw [hp]
  rcases hc with rfl | ⟨rfl, -⟩
  · simp [wasMine, Kernel.mine, Call.mutex]
  · simp [wasMine, Kernel.mine, Call.mutex]

/-- The task waits for a mutex whose owner inherits its priority. -/
theorem lock_moves (h : Sound k) (hr : Running k) (hf : Open k) (call : Call c) (m owner : Place c)
    (timeout : OsTick c) (hinh : c.mutexInheritance = true) (ho : k.owner m = some owner)
    (ht : timeout ≠ 0) (hc : Locks call m timeout) (he : Called k call) :
    Ends k (.call call) k ((urge k owner).blockThen call (some (.mutex m)) timeout
      (osMutexTryLockRest call m)) := by
  obtain ⟨hcur, hown, hfr, hh, hst⟩ := urge_same k owner
  have hfu : Open (urge k owner) := by
    rw [Open, hcur, hfr]
    exact hf
  have hku : (urge k owner).stateOf (urge k owner).currentTask = OS_TASK_RUNNING := by
    rw [stateOf, hcur, hst, mutex_kind]
    exact hr.kind
  by_cases hi : k.currentTask = osIdleTask
  · have hg : (Move.lockIdle m owner).guard k := ⟨hinh, hi, hr, ho⟩
    have hm : Moves k (.call call) k
        (giveUp ((urge k owner).setState (urge k owner).currentTask OS_TASK_RUNNING) m) :=
      Run.single (Move.lockIdle m owner) ⟨hg, rfl, rfl, hc.waits ht⟩
    have hmine : (urge k owner).owner m = some (urge k owner).currentTask →
        wasMine ((urge k owner).history (urge k owner).currentTask) = true := by
      rw [hcur, hown, hh]
      exact (he.mine hc).mp
    generalize urge k owner = s at hcur hm hfu hmine ⊢
    have hsame := giveUp_same (s.setState s.currentTask OS_TASK_RUNNING) m
    have hr' : Running (giveUp (s.setState s.currentTask OS_TASK_RUNNING) m) :=
      (giveUp_same _ m).running (by simp [Running, setState, setTask])
    have hfin := hm.returns hr' (hsame.open hfu) call (lockValue call false)
      (refuse_prompt hc (by rw [hsame.current, hsame.owner, hsame.history]; exact hmine)
        (Or.inr (hsame.current.trans (hcur.trans hi)))) rfl
    unfold blockThen osBlock
    simp only [hcur.trans hi, if_true] at hfin ⊢
    rw [rest_eq, undo, if_pos ⟨hinh, rfl⟩]
    exact hfin
  · have hg : (Move.lock call m owner timeout).guard k := ⟨hinh, hi, hr, ht, ho, hf, he.mine hc, hc⟩
    have hm : Moves k (.call call) k (((urge k owner).osSettle (urge k owner).currentTask).sleep call
        (some (.mutex m)) timeout) := Run.single (Move.lock call m owner timeout) ⟨hg, rfl⟩
    generalize urge k owner = s at hcur hm hku ⊢
    have hsame := settle_same s s.currentTask
    have hk : ((s.osSettle s.currentTask).sleep call (some (.mutex m)) timeout).stateOf
        ((s.osSettle s.currentTask).sleep call (some (.mutex m)) timeout).currentTask ≠
        OS_TASK_RUNNING := by
      rw [sleep_current, sleep_kind]
      · simp
      · rw [stateOf, hsame.current, hsame.state]
        exact hku
    unfold blockThen osBlock
    simp only [hcur, hi, if_false] at hk hm ⊢
    exact hm.ends (dispatch_moves (hm.sound h) hk)

theorem osMutexTryLock_moves (h : Sound k) (hr : Running k)
    (hf : Open k) (call : Call c) (m : Place c)
    (timeout : OsTick c) (hc : Locks call m timeout) (he : Called k call) :
    Ends k (.call call) k (k.osMutexTryLock call m timeout) := by
  unfold osMutexTryLock
  dsimp only
  split
  case h_1 ho =>
    have hm : Moves k (.call call) k ((Atom.own m).apply k) :=
      .one (.own m) trivial ⟨ho, hr.kind, hf⟩ hc.action
    have hr' : Running ((Atom.own m).apply k) := by
      show Running (k.osMutexOwn m k.currentTask)
      rw [osMutexOwn_eq]
      exact hr
    have hf' : Open ((Atom.own m).apply k) := by
      show Open (k.osMutexOwn m k.currentTask)
      rw [Open, osMutexOwn_eq]
      exact hf
    have hp : ((Atom.own m).apply k).owner m = some ((Atom.own m).apply k).currentTask := by
      show (k.osMutexOwn m k.currentTask).owner m = some (k.osMutexOwn m k.currentTask).currentTask
      rw [osMutexOwn_eq]
      exact Function.update_self ..
    exact hm.returns hr' hf' call _ (lock_prompt hc hp) rfl
  case h_2 owner ho =>
    split
    case isTrue ht =>
      exact Moves.returns (.refl k) hr hf call _ (refuse_prompt hc (he.mine hc).mp (Or.inl ht)) rfl
    case isFalse ht =>
      split
      case isTrue hinh => exact lock_moves h hr hf call m owner timeout hinh ho ht hc he
      case isFalse hinh =>
        refine blockThen_moves h hr hf call _ timeout _ ht (fun hc' => absurd hc' hinh)
          ⟨by rw [ho]; simp, he.mine hc, hc⟩ ⟨rfl, rfl⟩ fun hi => ?_
        rw [rest_eq, undo, if_neg (fun hc' => hinh hc'.1)]
        exact Moves.returns (.refl k) hr hf call _ (refuse_prompt hc (he.mine hc).mp (Or.inr hi)) rfl

theorem osMutexUnlock_moves (h : Sound k) (hr : Running k) (hf : Open k) (m : Place c)
    (he : Called k (.osMutexUnlock m)) :
    Ends k (.call (.osMutexUnlock m)) k (k.osMutexUnlock m) := by
  obtain ⟨hm, hrm⟩ := Moves.returns (b := k) (a := .call (.osMutexUnlock m)) (.refl k) hr hf
    (.osMutexUnlock m) .void trivial rfl
  unfold osMutexUnlock
  dsimp only
  split
  case isTrue ho =>
    have hg : (Move.unlock m).guard (k.returns (.osMutexUnlock m) .void) :=
      ⟨hr.kind, ho, Or.inr ⟨hr.kind, ⟨.void, Function.update_self ..⟩, k.mine (.osMutexUnlock m), he⟩⟩
    have hmv : Moves k (.call (.osMutexUnlock m)) k (unlock (k.returns (.osMutexUnlock m) .void) m) :=
      hm.trans (Run.single (Move.unlock m) ⟨hg, rfl⟩)
    obtain ⟨hcur, hst⟩ := release_frame (hm.sound h) k.currentTask m k.currentTask (by
      show k.stateOf k.currentTask ≠ _
      rw [hr.kind]
      simp)
    have hrr : Running ((Atom.release k.currentTask m).apply (k.returns (.osMutexUnlock m) .void)) := by
      rw [Running, hcur]
      exact (congrArg OsTask.state hst).trans hr
    have hcu : (unlock (k.returns (.osMutexUnlock m) .void) m).currentTask = k.currentTask := by
      unfold unlock
      dsimp only
      split
      · exact hcur
      · exact hcur
    have hru : Running (unlock (k.returns (.osMutexUnlock m) .void) m) := by
      unfold unlock
      dsimp only
      split
      · exact (setPriority_same _ _ _).running hrr
      · exact hrr
    exact hmv.schedule h hru hcu 0 (Or.inl rfl)
  case isFalse => exact ⟨hm, hrm⟩

/-! ### Calls of semaphore.c, queue.c, event.c and timer.c -/

theorem osWake_running (hr : Running k) (t : Place c) (r : Bool)
    (hs : k.stateOf t = OS_TASK_BLOCKED) : Running (k.osWake t r) := by
  have hne : k.currentTask ≠ t := by
    rintro rfl
    rw [hr.kind] at hs
    simp at hs
  rw [osWake_eq]
  simpa [Running, hne] using hr

theorem osSemaphoreInit_moves (hr : Running k)
    (hf : Open k) (s : Place c) (count limit : Byte)
    (hw : k.links (.wait (.semaphore s)) = []) :
    Ends k (.call (.osSemaphoreInit s count limit)) k (k.osSemaphoreInit s count limit) := by
  have hm : Moves k (.call (.osSemaphoreInit s count limit)) k
      ((Atom.semaphoreInit s count limit).apply k) := .one _ trivial hw trivial
  exact hm.returns hr hf _ .void trivial rfl

theorem give_running (h : Sound k) (hr : Running k) (s : Place c) :
    Running (k.osSemaphoreGiveFromISR s) := by
  rcases give_cases k s with ⟨w, rest, hl, he⟩ | ⟨-, -, he⟩ | ⟨-, -, he⟩
  · rw [he]
    exact osWake_running (k := k.emit (.gave s)) hr w true (h.waiter_blocked (by rw [hl]; simp))
  · rw [he]
    exact hr
  · rw [he]
    exact hr

theorem give_open (hf : Open k) (s : Place c) : Open (k.osSemaphoreGiveFromISR s) := by
  rcases give_cases k s with ⟨w, rest, -, he⟩ | ⟨-, -, he⟩ | ⟨-, -, he⟩
  · rw [he]
    exact wake_open (k := k.emit (.gave s)) hf w true
  · rw [he]
    exact hf
  · rw [he]
    exact hf

theorem give_current (k : ListKernel c) (s : Place c) :
    (k.osSemaphoreGiveFromISR s).currentTask = k.currentTask := by
  rcases give_cases k s with ⟨w, rest, -, he⟩ | ⟨-, -, he⟩ | ⟨-, -, he⟩
  · rw [he, osWake_eq]
    rfl
  · rw [he]
    rfl
  · rw [he]
    rfl

theorem osSemaphoreTake_moves (h : Sound k) (hr : Running k)
    (hf : Open k) (s : Place c) (timeout : OsTick c) :
    Ends k (.call (.osSemaphoreTake s timeout)) k (k.osSemaphoreTake s timeout) := by
  unfold osSemaphoreTake
  dsimp only
  split
  case isTrue hn =>
    have hm : Moves k (.call (.osSemaphoreTake s timeout)) k ((Atom.take s).apply k) :=
      .one _ trivial hn ⟨timeout, rfl⟩
    exact hm.returns hr hf _ _ trivial rfl
  case isFalse hn =>
    split
    case isTrue ht => exact Moves.returns (.refl k) hr hf _ _ trivial rfl
    case isFalse ht =>
      exact blockThen_moves h hr hf _ _ timeout _ ht (by simp) ⟨not_not.mp hn, rfl⟩ ⟨rfl, rfl⟩ fun _ =>
        Moves.returns (.refl k) hr hf _ _ trivial rfl

theorem osSemaphoreGive_moves (h : Sound k) (hr : Running k)
    (hf : Open k) (s : Place c) :
    Ends k (.call (.osSemaphoreGive s)) k (k.osSemaphoreGive s) := by
  have hm : Moves k (.call (.osSemaphoreGive s)) k ((Atom.give s).apply k) :=
    .one _ trivial trivial (Or.inl rfl)
  obtain ⟨hm', hr'⟩ := hm.returns (give_running h hr s) (give_open hf s) (.osSemaphoreGive s) .void
    trivial rfl
  exact hm'.schedule h hr' (give_current k s) 0 (Or.inl rfl)

theorem osQueueInit_moves (hr : Running k)
    (hf : Open k) (q : Place c) (itemSize length : Byte)
    (hw : k.links (.wait (.queue q)) = []) :
    Ends k (.call (.osQueueInit q itemSize length)) k (k.osQueueInit q itemSize length) := by
  have hm : Moves k (.call (.osQueueInit q itemSize length)) k
      ((Atom.queueInit q itemSize length).apply k) := .one _ trivial hw trivial
  exact hm.returns hr hf _ .void trivial rfl

theorem send_running (h : Sound k) (hr : Running k) (q : Place c) (item : Address) :
    Running (k.osQueueSendFromISR q item) := by
  rcases send_cases k q item with ⟨w, rest, hl, -, he⟩ | ⟨-, -, he⟩ | ⟨-, -, he⟩
  · rw [he]
    refine osWake_running ?_ w true ?_
    · rw [Running, hand_tasks, hand_current]
      exact hr
    · rw [stateOf, hand_tasks]
      exact h.waiter_blocked (by rw [hl]; simp)
  · rw [he, Running, append_tasks, append_current]
    exact hr
  · rw [he]
    exact hr

theorem receive_running (h : Sound k) (hr : Running k) (q : Place c) (item : Address) :
    Running (k.osQueueReceiveFromISR q item) := by
  rcases receive_cases k q item with ⟨w, rest, hl, -, he⟩ | ⟨-, -, he⟩ | ⟨-, he⟩
  · rw [he]
    refine osWake_running ?_ w true ?_
    · rw [Running, append_tasks, append_current, take_tasks, take_current]
      exact hr
    · rw [stateOf, append_tasks, take_tasks]
      exact h.waiter_blocked (by rw [hl]; simp)
  · rw [he, Running, take_tasks, take_current]
    exact hr
  · rw [he]
    exact hr

theorem send_open (hf : Open k) (q : Place c) (item : Address) :
    Open (k.osQueueSendFromISR q item) := by
  rcases send_cases k q item with ⟨w, rest, -, -, he⟩ | ⟨-, -, he⟩ | ⟨-, -, he⟩
  · rw [he]
    refine wake_open ?_ w true
    rw [Open, hand_frames, hand_current]
    exact hf
  · rw [he, Open, append_frames, append_current]
    exact hf
  · rw [he]
    exact hf

theorem receive_open (hf : Open k) (q : Place c) (item : Address) :
    Open (k.osQueueReceiveFromISR q item) := by
  rcases receive_cases k q item with ⟨w, rest, -, -, he⟩ | ⟨-, -, he⟩ | ⟨-, he⟩
  · rw [he]
    refine wake_open ?_ w true
    rw [Open, append_frames, append_current, take_frames, take_current]
    exact hf
  · rw [he, Open, take_frames, take_current]
    exact hf
  · rw [he]
    exact hf

theorem send_current (k : ListKernel c) (q : Place c) (item : Address) :
    (k.osQueueSendFromISR q item).currentTask = k.currentTask := by
  rcases send_cases k q item with ⟨w, rest, -, -, he⟩ | ⟨-, -, he⟩ | ⟨-, -, he⟩
  · rw [he, osWake_eq]
    exact hand_current k q item (k.tasks w).wait.itemPtr
  · rw [he, append_current]
  · rw [he]

theorem receive_current (k : ListKernel c) (q : Place c) (item : Address) :
    (k.osQueueReceiveFromISR q item).currentTask = k.currentTask := by
  rcases receive_cases k q item with ⟨w, rest, -, -, he⟩ | ⟨-, -, he⟩ | ⟨-, he⟩
  · rw [he, osWake_eq]
    exact (append_current (k.osQueueTake q item) q (k.tasks w).wait.itemPtr).trans
      (take_current k q item)
  · rw [he, take_current]
  · rw [he]

/-- `osQueuePut` does what it does without a timeout, or the queue is full. -/
theorem osQueuePut_cases (k : ListKernel c) (call : Call c) (q : Place c) (item : Address)
    (timeout : OsTick c) :
    (∃ r, k.osQueuePut call q item timeout = (k.osQueueSendFromISR q item, some r)) ∨
    ((k.queues q).length ≤ (k.queues q).count ∧
      (k.links (.wait (.queue q)) = [] ∨ (k.queues q).count ≠ 0) ∧ timeout ≠ 0 ∧
      k.osQueuePut call q item timeout =
        (k.setWait k.currentTask (.item item)).osBlock call (some (.queue q)) timeout) := by
  rcases put_cases k call q item timeout with ⟨w, rest, hl, hc, he⟩ | ⟨hw, he⟩
  · refine Or.inl ⟨true, ?_⟩
    rcases send_cases k q item with ⟨w', rest', hl', -, hs⟩ | ⟨hw, -, -⟩ | ⟨hw, -, -⟩
    · rw [hl] at hl'
      injection hl' with hww
      rw [he, hs, hww]
    · simp [hl, hc] at hw
    · simp [hl, hc] at hw
  · rw [he]
    rcases store_cases k call q item timeout with ⟨hc, hs⟩ | ⟨hc, -, hs⟩ | ⟨hc, ht, hs⟩
    · refine Or.inl ⟨true, ?_⟩
      rcases send_cases k q item with ⟨w, rest, hl, h0, -⟩ | ⟨-, -, he'⟩ | ⟨-, hc', -⟩
      · simp [hl, h0] at hw
      · rw [hs, he']
      · omega
    · refine Or.inl ⟨false, ?_⟩
      rcases send_cases k q item with ⟨w, rest, hl, h0, -⟩ | ⟨-, hc', -⟩ | ⟨-, -, he'⟩
      · simp [hl, h0] at hw
      · omega
      · rw [hs, he']
    · exact Or.inr ⟨hc, hw, ht, hs⟩

/-- `osQueueGet` does what it does without a timeout, or the queue is empty. -/
theorem osQueueGet_cases (k : ListKernel c) (call : Call c) (q : Place c) (item : Address)
    (timeout : OsTick c) :
    (∃ r, k.osQueueGet call q item timeout = (k.osQueueReceiveFromISR q item, some r)) ∨
    ((k.queues q).count = 0 ∧ timeout ≠ 0 ∧ k.osQueueGet call q item timeout =
        (k.setWait k.currentTask (.item item)).osBlock call (some (.queue q)) timeout) := by
  rcases get_cases k call q item timeout with
    ⟨w, rest, hl, hc, he⟩ | ⟨hl, hc, he⟩ | ⟨hc, -, he⟩ | ⟨hc, ht, he⟩
  · refine Or.inl ⟨true, ?_⟩
    rcases receive_cases k q item with ⟨w', rest', hl', -, hs⟩ | ⟨hl', -, -⟩ | ⟨hc', -⟩
    · rw [hl] at hl'
      injection hl' with hww
      rw [he, hs, hww]
    · rw [hl] at hl'
      cases hl'
    · exact absurd hc' hc
  · refine Or.inl ⟨true, ?_⟩
    rcases receive_cases k q item with ⟨w', rest', hl', -, -⟩ | ⟨-, -, hs⟩ | ⟨hc', -⟩
    · rw [hl] at hl'
      cases hl'
    · rw [he, hs]
    · exact absurd hc' hc
  · refine Or.inl ⟨false, ?_⟩
    rcases receive_cases k q item with ⟨-, -, -, hc', -⟩ | ⟨-, hc', -⟩ | ⟨-, hs⟩
    · exact absurd hc hc'
    · exact absurd hc hc'
    · rw [he, hs]
  · exact Or.inr ⟨hc, ht, he⟩

theorem setWait_moves (hr : Running k) (hf : Open k) (w : Wait) :
    Moves b a k (k.setWait k.currentTask w) ∧ Running (k.setWait k.currentTask w) := by
  refine ⟨.one (.setWait w) trivial ⟨hr.kind, hf⟩ trivial, ?_⟩
  simpa [Running, setWait, setTask] using hr

theorem osQueueRest_moves (h : Sound k) (hm : Moves b a k k') (hr : Running k') (hf : Open k')
    (hc : k'.currentTask = b.currentTask) (call : Call c) (r : Bool)
    (hv : (life k' k'.currentTask).Prompt k'.currentTask call (.bool r)) (ha : a = .call call) :
    Ends b a k (osQueueRest call k' r) := by
  obtain ⟨hm', hr'⟩ := hm.returns hr hf call (.bool r) hv ha
  exact hm'.schedule h hr' hc 0 (Or.inl rfl)

theorem osQueueSend_moves (h : Sound k) (hr : Running k)
    (hf : Open k) (q : Place c) (item : Address)
    (timeout : OsTick c) :
    Ends k (.call (.osQueueSend q item timeout)) k (k.osQueueSend q item timeout) := by
  unfold osQueueSend
  dsimp only
  rcases osQueuePut_cases k (.osQueueSend q item timeout) q item timeout with
    ⟨r, he⟩ | ⟨hl, hw, ht, he⟩
  · rw [he]
    have hm : Moves k (.call (.osQueueSend q item timeout)) k ((Atom.send q item).apply k) :=
      .one _ trivial trivial (Or.inr ⟨timeout, rfl⟩)
    exact osQueueRest_moves h hm (send_running h hr q item) (send_open hf q item)
      (send_current k q item) _ r trivial rfl
  · rw [he]
    obtain ⟨hm, hr'⟩ := setWait_moves (b := k) (a := .call (.osQueueSend q item timeout)) hr hf
      (.item item)
    have hb : Blockable (k.setWait k.currentTask (.item item)) (.osQueueSend q item timeout) timeout
        (some (.queue q)) := ⟨item, by simp [setWait, setTask], Or.inr ⟨rfl, hl, hw⟩⟩
    rcases osBlock_moves (b := k) (hm.sound h) hr' hf (.osQueueSend q item timeout) _ timeout ht
      (by simp) hb ⟨rfl, rfl⟩ with ⟨k', hb', hk'⟩ | ⟨hi, hb'⟩
    · rw [hb']
      exact hm.ends hk'
    · rw [hb']
      exact osQueueRest_moves h hm hr' hf rfl _ false trivial rfl

theorem osQueueReceive_moves (h : Sound k) (hr : Running k)
    (hf : Open k) (q : Place c) (item : Address)
    (timeout : OsTick c) :
    Ends k (.call (.osQueueReceive q item timeout)) k (k.osQueueReceive q item timeout) := by
  unfold osQueueReceive
  dsimp only
  rcases osQueueGet_cases k (.osQueueReceive q item timeout) q item timeout with
    ⟨r, he⟩ | ⟨hc, ht, he⟩
  · rw [he]
    have hm : Moves k (.call (.osQueueReceive q item timeout)) k ((Atom.receive q item).apply k) :=
      .one _ trivial trivial (Or.inr ⟨timeout, rfl⟩)
    exact osQueueRest_moves h hm (receive_running h hr q item) (receive_open hf q item)
      (receive_current k q item) _ r trivial rfl
  · rw [he]
    obtain ⟨hm, hr'⟩ := setWait_moves (b := k) (a := .call (.osQueueReceive q item timeout)) hr hf
      (.item item)
    have hb : Blockable (k.setWait k.currentTask (.item item)) (.osQueueReceive q item timeout)
        timeout (some (.queue q)) := ⟨item, by simp [setWait, setTask], Or.inl ⟨rfl, hc⟩⟩
    rcases osBlock_moves (b := k) (hm.sound h) hr' hf (.osQueueReceive q item timeout) _ timeout ht
      (by simp) hb ⟨rfl, rfl⟩ with ⟨k', hb', hk'⟩ | ⟨hi, hb'⟩
    · rw [hb']
      exact hm.ends hk'
    · rw [hb']
      exact osQueueRest_moves h hm hr' hf rfl _ false trivial rfl

theorem osEventInit_moves (hr : Running k)
    (hf : Open k) (e : Place c) (hw : k.links (.wait (.event e)) = []) :
    Ends k (.call (.osEventInit e)) k (k.osEventInit e) := by
  have hm : Moves k (.call (.osEventInit e)) k ((Atom.eventInit e).apply k) :=
    .one _ trivial hw trivial
  exact hm.returns hr hf _ .void trivial rfl

theorem consume_history (k : ListKernel c) (e : Place c) (wanted options : Byte) :
    ((Atom.consume e wanted options).apply k).history k.currentTask =
      .satisfied e k.currentTask (osEventMatch (k.events e) wanted options) options ::
        k.history k.currentTask := by
  show List.filter _ (_ :: (k.osEventConsume e _ options).log) = _
  rw [List.filter_cons_of_pos (by simp [Event.concerns]), (consume_frame k e _ options).2.2.2.2]
  rfl

theorem osEventWait_moves (h : Sound k) (hr : Running k) (hf : Open k) (e : Place c)
    (flags options : Byte) (timeout : OsTick c)
    (hc : Called k (.osEventWait e flags options timeout)) :
    Ends k (.call (.osEventWait e flags options timeout)) k
      (k.osEventWait e flags options timeout) := by
  have hn : flagsTaken (k.history k.currentTask) = 0 := by
    obtain ⟨past, hp⟩ := hc
    rw [hp]
    rfl
  unfold osEventWait
  dsimp only
  split
  case isTrue hm =>
    have hc : Moves k (.call (.osEventWait e flags options timeout)) k
        ((Atom.consume e flags options).apply k) := .one _ trivial ⟨hm, hr.kind, hf⟩ trivial
    have hr' : Running ((Atom.consume e flags options).apply k) := by
      obtain ⟨htk, -, hcur, -, -⟩ := consume_frame k e (osEventMatch (k.events e) flags options) options
      show ((k.osEventConsume e _ options).tasks (k.osEventConsume e _ options).currentTask).state = _
      rw [htk, hcur]
      exact hr
    have hf' : Open ((Atom.consume e flags options).apply k) := by
      obtain ⟨-, -, hcur, hfr, -⟩ := consume_frame k e (osEventMatch (k.events e) flags options) options
      show (k.osEventConsume e _ options).frames (k.osEventConsume e _ options).currentTask = _
      rw [hcur, hfr]
      exact hf
    have hcur : ((Atom.consume e flags options).apply k).currentTask = k.currentTask :=
      (consume_frame k e _ options).2.2.1
    refine hc.returns hr' hf' _ _ ?_ rfl
    show Value.flags _ = .flags (flagsTaken (((Atom.consume e flags options).apply k).history _))
    rw [hcur, consume_history]
    rfl
  case isFalse hm =>
    split
    case isTrue ht =>
      obtain ⟨hw, hr'⟩ := setWait_moves (b := k)
        (a := .call (.osEventWait e flags options timeout)) hr hf (.event flags options)
      have hb : Blockable (k.setWait k.currentTask (.event flags options))
          (.osEventWait e flags options timeout) timeout (some (.event e)) :=
        ⟨flags, options, by simp [setWait, setTask], rfl, not_not.mp hm⟩
      refine hw.ends (blockThen_moves (hw.sound h) hr' hf _ _ timeout _ ht (by simp) hb ⟨rfl, rfl⟩ fun _ => ?_)
      exact Moves.returns (.refl _) hr' hf _ _ (congrArg Value.flags hn.symm) rfl
    case isFalse ht =>
      exact Moves.returns (.refl k) hr hf _ _ (congrArg Value.flags hn.symm) rfl

theorem serve_running (h : Sound k) (hr : Running k) (e t : Place c)
    (ht : (k.tasks t).waitList = some (.event e)) : Running (k.osEventServe e t) := by
  have hb : k.stateOf t = OS_TASK_BLOCKED := (h.linked.2 t).blocked _ ht
  have hne : k.currentTask ≠ t := by
    intro he
    rw [← he, hr.kind] at hb
    simp at hb
  rcases serve_cases k e t with ⟨-, he⟩ | ⟨matched, options, -, -, -, he⟩
  · rw [he]
    exact hr
  · obtain ⟨htk, -, hcur, -, -⟩ := consume_frame (k.emit (.visited e t)) e matched options
    rw [he, osWake_eq, Running]
    simp only [setWait, setTask, emit, Function.update_self] at htk hcur ⊢
    rw [hcur, Function.update_of_ne hne, Function.update_of_ne hne, htk]
    exact hr

theorem setEvent_running (h : Sound k) (hr : Running k) (e : Place c) (flags : Byte) :
    Running (k.osEventSetFromISR e flags) := by
  rw [setEvent_eq h]
  have hs := (Atom.flagsSet e flags).sound h trivial
  refine (serveFold_run e hs [] _ rfl).keeps (I := Running) hs (fun s a hs hg ha hi => ?_) hr
  obtain ⟨t, rfl⟩ := ha
  exact serve_running hs hi e t hg

theorem setEvent_open (h : Sound k) (hf : Open k) (e : Place c) (flags : Byte) :
    Open (k.osEventSetFromISR e flags) := by
  rw [setEvent_eq h]
  have hs := (Atom.flagsSet e flags).sound h trivial
  refine (serveFold_run e hs [] _ rfl).keeps (I := Open) hs (fun s a _ _ ha hi => ?_) hf
  obtain ⟨t, rfl⟩ := ha
  rcases serve_cases s e t with ⟨-, he⟩ | ⟨matched, options, -, -, -, he⟩
  · rw [Atom.apply, he]
    exact hi
  · rw [Atom.apply, he]
    refine wake_open ?_ t true
    obtain ⟨-, -, hcur, hfr, -⟩ := consume_frame (s.emit (.visited e t)) e matched options
    simp only [Open, setWait, setTask, emit] at hcur hfr ⊢
    rw [hcur, hfr]
    exact hi

theorem setEvent_current (h : Sound k) (e : Place c) (flags : Byte) :
    (k.osEventSetFromISR e flags).currentTask = k.currentTask := by
  rw [setEvent_eq h]
  have hs := (Atom.flagsSet e flags).sound h trivial
  refine (serveFold_run e hs [] _ rfl).keeps (I := fun s => s.currentTask = k.currentTask) hs
    (fun s a _ _ ha hi => ?_) rfl
  obtain ⟨t, rfl⟩ := ha
  rcases serve_cases s e t with ⟨-, he⟩ | ⟨matched, options, -, -, -, he⟩
  · rw [Atom.apply, he]
    exact hi
  · rw [Atom.apply, he, osWake_eq]
    obtain ⟨-, -, hcur, -, -⟩ := consume_frame (s.emit (.visited e t)) e matched options
    exact hcur.trans hi

theorem osEventSet_moves (h : Sound k) (hr : Running k)
    (hf : Open k) (e : Place c) (flags : Byte) :
    Ends k (.call (.osEventSet e flags)) k (k.osEventSet e flags) := by
  have hm : Moves k (.call (.osEventSet e flags)) k (k.osEventSetFromISR e flags) :=
    Run.single (Move.setEvent e flags) ⟨trivial, trivial⟩
  obtain ⟨hm', hr'⟩ := hm.returns (setEvent_running h hr e flags) (setEvent_open h hf e flags)
    (.osEventSet e flags) .void trivial rfl
  exact hm'.schedule h hr' (setEvent_current h e flags) 0 (Or.inl rfl)

theorem osEventClear_moves (hr : Running k) (e : Place c) (flags : Byte) :
    Ends b a k (k.osEventClear e flags) :=
  ⟨.one (.flagsClear e flags) trivial trivial trivial, hr⟩

/-- Timers have nothing to do with tasks. -/
theorem timers_moves (hr : Running k) (ha : a.OnTimers) (timers : Place c → OsTimer c)
    (links : Lists Unit (Place c)) :
    Ends b a k { k with timers := timers, timersLinks := links } :=
  ⟨.one (.quiet k.memory k.tickVars k.aging timers links k.mode) trivial trivial
    ⟨Or.inr ha, Or.inl rfl, Or.inl rfl⟩, hr⟩

theorem memory_moves (hr : Running k) (memory : Address → Byte) :
    Ends b a k { k with memory := memory } :=
  ⟨.one (.quiet memory k.tickVars k.aging k.timers k.timersLinks k.mode) trivial trivial
    ⟨Or.inl ⟨rfl, rfl⟩, Or.inl rfl, Or.inl rfl⟩, hr⟩

theorem mode_moves (hr : Running k) (ha : a.Switches) (mode : Mode) :
    Ends b a k { k with mode := mode } :=
  ⟨.one (.quiet k.memory k.tickVars k.aging k.timers k.timersLinks mode) trivial trivial
    ⟨Or.inl ⟨rfl, rfl⟩, Or.inr ha, Or.inl rfl⟩, hr⟩

/-! ### Actions -/

/-- No mutex is owned by a dead task, unless nobody keeps record of what tasks own. -/
def NoDead (k : ListKernel c) : Prop :=
  c.mutexInheritance = true → ∀ m t, k.owner m = some t → k.stateOf t ≠ OS_TASK_DEAD

theorem exec_moves (h : Sound k) (hr : Running k) (hf : Open k) (hn : NoDead k) (x : Call c)
    (hx : Called k x) (hl : k.legal x) :
    Ends k (.call x) k (k.exec x) := by
  cases x with
  | osTaskCreate t p d =>
    exact osTaskCreate_moves h hr hf t p d hl.1 hl.2 fun hinh m ho => hn hinh m t ho hl.1
  | osTaskDelete t => exact osTaskDelete_moves h hr hf t
  | osTaskSuspend t => exact osTaskSuspend_moves h hr hf t
  | osTaskResume t => exact osTaskResume_moves h hr hf t
  | osTaskSetPriority t p => exact osTaskSetPriority_moves h hr hf t p
  | osTaskReap => exact osTaskReap_moves hr hf
  | osYield => exact osYield_moves h hr hf
  | osDelay ticks => exact osDelay_moves h hr hf ticks
  | osDelayUntil previous period => exact osDelayUntil_moves h hr hf previous period
  | osMutexInit m => exact osMutexInit_moves hr hf m hl.1 hl.2
  | osMutexTryLock m timeout => exact osMutexTryLock_moves h hr hf _ m timeout (Or.inl rfl) hx
  | osMutexLock m => exact osMutexTryLock_moves h hr hf _ m _ (Or.inr ⟨rfl, rfl⟩) hx
  | osMutexUnlock m => exact osMutexUnlock_moves h hr hf m hx
  | osSemaphoreInit s count limit => exact osSemaphoreInit_moves hr hf s count limit hl
  | osSemaphoreTake s timeout => exact osSemaphoreTake_moves h hr hf s timeout
  | osSemaphoreGive s => exact osSemaphoreGive_moves h hr hf s
  | osQueueInit q itemSize length => exact osQueueInit_moves hr hf q itemSize length hl
  | osQueueSend q item timeout => exact osQueueSend_moves h hr hf q item timeout
  | osQueueReceive q item timeout => exact osQueueReceive_moves h hr hf q item timeout
  | osEventInit e => exact osEventInit_moves hr hf e hl
  | osEventWait e flags options timeout => exact osEventWait_moves h hr hf e flags options timeout hx
  | osEventSet e flags => exact osEventSet_moves h hr hf e flags
  | osEventClear e flags =>
    obtain ⟨hm, hr'⟩ := osEventClear_moves (b := k) (a := .call (.osEventClear e flags)) hr e flags
    exact hm.returns hr' hf _ .void trivial rfl
  | osTimerStart tm delay period function =>
    obtain ⟨hm, hr'⟩ := timers_moves (b := k)
      (a := .call (.osTimerStart tm delay period function)) hr trivial
      (k.osTimerStart tm delay period function).timers
      (k.osTimerStart tm delay period function).timersLinks
    exact hm.returns hr' hf _ .void trivial rfl
  | osTimerStop tm =>
    obtain ⟨hm, hr'⟩ := timers_moves (b := k) (a := .call (.osTimerStop tm)) hr trivial k.timers
      (k.osTimerStop tm).timersLinks
    exact hm.returns hr' hf _ .void trivial rfl

theorem execIsr_moves (h : Sound k) (hr : Running k) (x : IsrCall c) :
    Ends k (.isrCall x) k (k.execIsr x) := by
  cases x with
  | osTaskResumeFromISR t => exact osTaskResumeFromISR_moves hr t (Or.inr rfl)
  | osSemaphoreGiveFromISR s =>
    exact ⟨.one (.give s) trivial trivial (Or.inr rfl), give_running h hr s⟩
  | osQueueSendFromISR q item =>
    exact ⟨.one (.send q item) trivial trivial (Or.inl rfl), send_running h hr q item⟩
  | osQueueReceiveFromISR q item =>
    exact ⟨.one (.receive q item) trivial trivial (Or.inl rfl), receive_running h hr q item⟩
  | osEventSetFromISR e flags =>
    exact ⟨Run.single (Move.setEvent e flags) ⟨trivial, trivial⟩, setEvent_running h hr e flags⟩
  | osEventClear e flags => exact osEventClear_moves hr e flags
  | osTimerStart tm delay period function =>
    exact timers_moves hr (by trivial) (k.osTimerStart tm delay period function).timers
      (k.osTimerStart tm delay period function).timersLinks
  | osTimerStop tm => exact timers_moves hr (by trivial) k.timers (k.osTimerStop tm).timersLinks
  | store p b => exact memory_moves hr _

/-- The rest of a blocking call. -/
theorem execRest_moves (h : Sound k) (hr : Running k) (call : Call c)
    (hf : k.frames k.currentTask = some (.blocked call)) :
    Ends k .resume k (k.execRest call (k.tasks k.currentTask).result) := by
  have ha : (Action.resume : Action c) = .call call ∨
      (Action.resume : Action c) = .resume ∧ k.frames k.currentTask = some (.blocked call) := Or.inr ⟨rfl, hf⟩
  have hv : ∀ v, v = call.told (k.tasks k.currentTask).result (k.tasks k.currentTask).wait →
      Ends k .resume k (k.returns call v) := fun v hv =>
    ⟨returns_moves hr call v (Or.inr ⟨hf, hv⟩) ha, hr⟩
  have hlock : ∀ m, call.mutex = some m → lockValue call (k.tasks k.currentTask).result =
      call.told (k.tasks k.currentTask).result (k.tasks k.currentTask).wait →
      Ends k .resume k (osMutexTryLockRest call m k (k.tasks k.currentTask).result) := by
    intro m hc hv
    rw [rest_eq]
    have hsame := undo_same k m (k.tasks k.currentTask).result
    obtain ⟨hm, hr'⟩ := undo_moves (b := k) (a := .resume) hr m (k.tasks k.currentTask).result
      ⟨rfl, call, hf, hc⟩
    refine ⟨hm.trans (returns_moves hr' call _ (Or.inr ⟨?_, ?_⟩) ha), hr'⟩
    · rw [hsame.current, hsame.frames]
      exact hf
    · rw [hsame.current, (hsame.told _).1, (hsame.told _).2]
      exact hv
  cases call with
  | osMutexTryLock m timeout => exact hlock m rfl rfl
  | osMutexLock m => exact hlock m rfl rfl
  | osSemaphoreTake s timeout => exact hv _ rfl
  | osQueueSend q item timeout => exact (hv _ rfl).1.schedule h (hv _ rfl).2 rfl 0 (Or.inl rfl)
  | osQueueReceive q item timeout => exact (hv _ rfl).1.schedule h (hv _ rfl).2 rfl 0 (Or.inl rfl)
  | osEventWait e flags options timeout => exact hv _ rfl
  | osTaskCreate t p d => exact hv _ rfl
  | osTaskDelete t => exact hv _ rfl
  | osTaskSuspend t => exact hv _ rfl
  | osTaskResume t => exact hv _ rfl
  | osTaskSetPriority t p => exact hv _ rfl
  | osTaskReap => exact hv _ rfl
  | osYield => exact hv _ rfl
  | osDelay ticks => exact hv _ rfl
  | osDelayUntil previous period => exact hv _ rfl
  | osMutexInit m => exact hv _ rfl
  | osMutexUnlock m => exact hv _ rfl
  | osSemaphoreInit s count limit => exact hv _ rfl
  | osSemaphoreGive s => exact hv _ rfl
  | osQueueInit q itemSize length => exact hv _ rfl
  | osEventInit e => exact hv _ rfl
  | osEventSet e flags => exact hv _ rfl
  | osEventClear e flags => exact hv _ rfl
  | osTimerStart tm delay period function => exact hv _ rfl
  | osTimerStop tm => exact hv _ rfl

theorem pause_moves (hr : Running k) (hf : Open k) :
    Ends b a k (k.setFrame k.currentTask (some .preempted)) :=
  ⟨.one .pause trivial ⟨hr.kind, hf⟩ trivial, hr⟩

theorem osRun_moves (h : Sound k) (hr : Running k) (hf : Open k) (hi : k.currentTask = osIdleTask) :
    Ends k .run k k.osRun := by
  have hm : Moves k .run k ((Atom.start).apply k) := .one .start trivial ⟨hi, hr.kind⟩ ⟨rfl, rfl, rfl⟩
  have hr' : Running ((Atom.start).apply k) := by
    show (Function.update k.tasks osIdleTask _ k.currentTask).state = _
    rw [hi, Function.update_self, ← hr, hi]
  obtain ⟨hp, hrp⟩ := pause_moves (b := k) (a := .run) hr' hf
  have he : k.osRun = (((Atom.start).apply k).setFrame ((Atom.start).apply k).currentTask
      (some .preempted)).osSchedule 0 := by
    have hcur : ((Atom.start).apply k).currentTask = osIdleTask := hi
    rw [hcur]
    rfl
  rw [he]
  exact Moves.schedule (hm.trans hp) h hrp rfl 0 (Or.inl rfl)

/-- Whoever the tick wakes up, the current task keeps running. -/
theorem tick_running (h : Sound k) (hr : Running k) : Running k.osTickEnter := by
  have hs := (Atom.tick).sound h trivial
  have hx : Atoms (fun a => ∃ t, a = .expire t) ((Atom.tick).apply k)
      (osTickExpire (c.places + 1) ((Atom.tick).apply k)) :=
    expire_atoms _ hs
  refine hx.keeps (I := Running) hs (fun s a hs hg ha hi => ?_) hr
  obtain ⟨t, rfl⟩ := ha
  exact osWake_running hi t false ((hs.linked.2 t).timed hg.1)

/-- Everybody who is ready gains a level, if there is one to be gained. -/
def agedTasks (k : ListKernel c) (t : Place c) : OsTask c :=
  if t ∈ k.links .ready then
    { k.tasks t with priority := aged c (k.priority k.currentTask) (k.priority t) }
  else k.tasks t

theorem osAge_off (ha : c.aging = false) (k : ListKernel c) : k.osAge = k := by
  rw [osAge, ha, if_neg (by simp)]

/-- The current task settles first, and what it is left with is the limit for the others. -/
theorem osAge_eq (h : Sound k) (ha : c.aging = true) : k.osAge =
    if (k.aging + 255) % 256 = 0 then
      { k.osSettle k.currentTask with
        aging := c.agingTicks, tasks := agedTasks (k.osSettle k.currentTask) }
    else { k.osSettle k.currentTask with aging := (k.aging + 255) % 256 } := by
  obtain ⟨p, hp⟩ := settle_eq k k.currentTask
  have hl : (k.osSettle k.currentTask).links = k.links := by
    rw [hp]
    rfl
  have hage : (k.osSettle k.currentTask).aging = k.aging := by
    rw [hp]
    rfl
  rw [osAge, ha, if_pos rfl]
  generalize k.osSettle k.currentTask = s at hl hage ⊢
  have hnodup : (s.links .ready).Nodup := by
    rw [hl]
    exact h.linked.1.separate.nodup .ready
  dsimp only
  rw [toList_lists, hage]
  split
  · rw [age_fold _ _ _ hnodup]
    rfl
  · rfl

theorem osAge_links (h : Sound k) : k.osAge.links = k.links := by
  cases ha : c.aging with
  | false => rw [osAge_off ha]
  | true =>
    obtain ⟨p, hp⟩ := settle_eq k k.currentTask
    rw [osAge_eq h ha, hp]
    split <;> rfl

theorem osAge_current (h : Sound k) : k.osAge.currentTask = k.currentTask := by
  cases ha : c.aging with
  | false => rw [osAge_off ha]
  | true =>
    obtain ⟨p, hp⟩ := settle_eq k k.currentTask
    rw [osAge_eq h ha, hp]
    split <;> rfl

theorem osAge_moves (h : Sound k) (hr : Running k) (ha' : a = .tickLeave) : Ends b a k k.osAge := by
  unfold osAge
  split
  case isTrue ha =>
    have hm : Moves b a k (k.osSettle k.currentTask) := settle_moves hr
    have hr' := (settle_same k k.currentTask).running hr
    have hs := hm.sound h
    dsimp only
    generalize k.osSettle k.currentTask = s at hm hr' hs ⊢
    have hq : ∀ n, Moves b a k { s with aging := n } := fun n => hm.trans
      (Moves.one (.quiet s.memory s.tickVars n s.timers s.timersLinks s.mode) trivial trivial
        ⟨Or.inl ⟨rfl, rfl⟩, Or.inl rfl, Or.inr ha'⟩)
    split
    · have hage : Moves b a k ((Atom.age).apply { s with aging := c.agingTicks }) :=
        (hq _).trans (Moves.one .age trivial (Running.kind (k := { s with aging := c.agingTicks }) hr')
          ⟨ha, ha'⟩)
      refine ⟨hage, ?_⟩
      show Running (List.foldl _ _ _)
      rw [toList_lists, age_fold _ _ _ (hs.linked.1.separate.nodup _), Running]
      dsimp only
      split
      · exact hr'
      · exact hr'
    · exact ⟨hq _, hr'⟩
  case isFalse => exact ⟨.refl k, hr⟩

theorem osTickLeave_moves (h : Sound k) (hr : Running k) (hc : k.currentTask = b.currentTask) :
    Ends b .tickLeave k k.osTickLeave := by
  obtain ⟨hm, hr'⟩ := osAge_moves (b := b) h hr rfl
  exact hm.schedule h hr' ((osAge_current h).trans hc) _ (Or.inr ⟨by split <;> omega, trivial⟩)

theorem userMode_open (hu : k.userMode) : Open k := Option.isNone_iff_eq_none.mp hu.2

theorem resume_moves (h : Sound k) (hr : Running k) (hs : k.step .resume = some k') :
    Ends k .resume k k' := by
  have hleave : (k.frames k.currentTask = some .preempted ∨
      ∃ call value, k.frames k.currentTask = some (.returning call value)) →
      Ends k .resume k (leave k) := by
    intro hf
    refine ⟨.one .leave trivial ⟨hr.kind, hf⟩ rfl, ?_⟩
    rcases leave_cases k with ⟨call, value, -, he⟩ | ⟨-, he⟩
    · rw [he]
      exact hr
    · rw [he]
      exact hr
  simp only [step] at hs
  split at hs
  · split at hs
    case h_1 hf =>
      injection hs with hs
      have he : leave k = k.setFrame k.currentTask none := by
        unfold leave
        rw [hf]
      exact hs ▸ he ▸ hleave (Or.inl hf)
    case h_2 call value hf =>
      injection hs with hs
      have he : leave k =
          (k.setFrame k.currentTask none).emit (.returned k.currentTask call value) := by
        unfold leave
        rw [hf]
      exact hs ▸ he ▸ hleave (Or.inr ⟨call, value, hf⟩)
    case h_3 call hf =>
      injection hs with hs
      exact hs ▸ execRest_moves h hr call hf
    case h_4 => cases hs
  · cases hs

/-- Every action is a sequence of moves, and a task runs when it is over. -/
theorem step_moves (h : Sound k) (hr : Running k) (hn : NoDead k) (hs : k.step a = some k') :
    Ends k a k k' := by
  cases a with
  | run =>
    simp only [step] at hs
    split at hs
    case isTrue hc =>
      injection hs with hs
      exact hs ▸ osRun_moves h hr (userMode_open hc.1) hc.2.1
    case isFalse => cases hs
  | call x =>
    simp only [step] at hs
    split at hs
    case isTrue hc =>
      injection hs with hs
      have hf := userMode_open hc.1
      have he : Moves k (.call x) k (k.emit (.called k.currentTask x (k.mine x))) :=
        .one (.called x) trivial ⟨hr.kind, hf⟩ rfl
      have hx : Called (k.emit (.called k.currentTask x (k.mine x))) x :=
        ⟨k.history k.currentTask, List.filter_cons_of_pos (decide_eq_true rfl)⟩
      exact hs ▸ he.ends (exec_moves (he.sound h) hr hf hn x hx hc.2)
    case isFalse => cases hs
  | resume => exact resume_moves h hr hs
  | isrEnter os =>
    simp only [step] at hs
    split at hs
    case isTrue hu =>
      injection hs with hs
      obtain ⟨hm, hr'⟩ := pause_moves (b := k) (a := .isrEnter os) hr (userMode_open hu)
      exact hs ▸ hm.ends (mode_moves hr' (by trivial) (.isr os))
    case isFalse => cases hs
  | isrCall x =>
    simp only [step] at hs
    split at hs
    · split at hs
      · injection hs with hs
        exact hs ▸ execIsr_moves h hr x
      · cases hs
    · split at hs
      · injection hs with hs
        exact hs ▸ execIsr_moves h hr x
      · cases hs
    · cases hs
  | isrLeave =>
    have hmode : Ends k .isrLeave k { k with mode := .thread } := mode_moves hr (by trivial) .thread
    simp only [step] at hs
    split at hs
    · injection hs with hs
      exact hs ▸ hmode.1.schedule h hr rfl 0 (Or.inl rfl)
    · injection hs with hs
      exact hs ▸ hmode
    · cases hs
  | tickEnter =>
    simp only [step] at hs
    split at hs
    case isTrue hc =>
      injection hs with hs
      obtain ⟨hm, hr'⟩ := pause_moves (b := k) (a := .tickEnter) hr (userMode_open hc.1)
      have ht : Moves k .tickEnter k ((k.setFrame k.currentTask (some .preempted)).osTickEnter) :=
        hm.trans (Run.single Move.tick ⟨trivial, rfl, rfl, rfl⟩)
      exact hs ▸ ht.ends (mode_moves (tick_running (hm.sound h) hr') (by trivial) (.tick false))
    case isFalse => cases hs
  | tickTimer =>
    simp only [step] at hs
    split at hs
    case h_1 tm _ _ =>
      split at hs
      · injection hs with hs
        have he : { k.osTimerTick tm with mode := Mode.tick true } =
            (Atom.timerCalled tm).apply ((Atom.quiet k.memory k.tickVars k.aging
              (k.osTimerTick tm).timers (k.osTimerTick tm).timersLinks (.tick true)).apply k) := by
          unfold osTimerTick
          dsimp only
          split <;> rfl
        rw [← hs, he]
        refine ⟨Run.trans ?_ (Moves.one _ trivial trivial rfl), hr⟩
        exact Moves.one _ trivial trivial ⟨Or.inr trivial, Or.inr trivial, Or.inl rfl⟩
      · cases hs
    · cases hs
  | tickLeave =>
    have hmode : Ends k .tickLeave k { k with mode := .thread } := mode_moves hr (by trivial) .thread
    simp only [step] at hs
    split at hs
    · split at hs
      · injection hs with hs
        exact hs ▸ hmode.1.ends (osTickLeave_moves (hmode.1.sound h) hr rfl)
      · cases hs
    · cases hs
  | store p x =>
    simp only [step] at hs
    split at hs
    · injection hs with hs
      exact hs ▸ memory_moves hr _
    · cases hs
  | setTickVar p x =>
    simp only [step] at hs
    split at hs
    · injection hs with hs
      exact hs ▸ ⟨.one (.quiet k.memory _ k.aging k.timers k.timersLinks k.mode) trivial trivial
        ⟨Or.inl ⟨rfl, rfl⟩, Or.inl rfl, Or.inl rfl⟩, hr⟩
    · cases hs

end

end AvrOs
