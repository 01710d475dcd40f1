import AvrOs.System

/-!
# Variables of tasks

Tasks keep the time of their last wake-up in variables of their own. The kernel gets to
see them in `osDelayUntil` only.
-/

namespace AvrOs
open Intrusive

namespace Kernel

variable {c : Config} {S : Type → Type → Type} [LinkStore S]

section
variable (k : Kernel c S) (t m : Place c)

theorem osDispatch_tickVars : k.osDispatch.tickVars = k.tickVars := by
  unfold osDispatch
  split <;> rfl

theorem osSettle_tickVars : (k.osSettle t).tickVars = k.tickVars := by
  unfold osSettle
  split
  · split <;> rfl
  · rfl

theorem osSchedule_tickVars (yield : ℕ) : (k.osSchedule yield).tickVars = k.tickVars := by
  unfold osSchedule
  split
  · exact (osDispatch_tickVars _).trans (osSettle_tickVars k k.currentTask)
  · rfl

theorem osRequeue_tickVars : (k.osRequeue t).tickVars = k.tickVars := by
  unfold osRequeue
  split <;> rfl

theorem raiseLoop_tickVars (fuel : ℕ) (p : ℕ) :
    (osPriorityRaiseLoop fuel k t p).tickVars = k.tickVars := by
  induction fuel generalizing k t with
  | zero => rfl
  | succ fuel ih =>
    have hone : ((k.setPriority t p).osRequeue t).tickVars = k.tickVars := osRequeue_tickVars _ t
    unfold osPriorityRaiseLoop
    split
    · dsimp only
      split
      · split
        · exact (ih _ _).trans hone
        · exact hone
      · exact hone
    · rfl

theorem sleep_tickVars (call : Call c) (list : Option (WaitList c)) (timeout : OsTick c) :
    (k.sleep call list timeout).tickVars = k.tickVars := by
  unfold sleep
  cases list <;> dsimp only <;> split <;> rfl

theorem blockThen_tickVars (call : Call c) (list : Option (WaitList c)) (timeout : OsTick c)
    {rest : Kernel c S → Bool → Kernel c S} (hrest : ∀ k r, (rest k r).tickVars = k.tickVars) :
    (k.blockThen call list timeout rest).tickVars = k.tickVars := by
  by_cases hi : k.currentTask = osIdleTask
  · simp only [blockThen, osBlock, hi, if_true]
    exact hrest _ false
  · simp only [blockThen, osBlock, hi, if_false]
    rw [osDispatch_tickVars, sleep_tickVars, osSettle_tickVars]

theorem osUnblock_tickVars : (k.osUnblock t).tickVars = k.tickVars := by
  unfold osUnblock
  cases (k.tasks t).waitList <;> dsimp only <;> split <;> rfl

theorem osWake_tickVars (r : Bool) : (k.osWake t r).tickVars = k.tickVars :=
  osUnblock_tickVars ((k.emit (.woken t (k.tasks t).waitList r)).setResult t r) t

theorem osTickExpire_tickVars (fuel : ℕ) : (osTickExpire fuel k).tickVars = k.tickVars := by
  induction fuel generalizing k with
  | zero => rfl
  | succ fuel ih =>
    unfold osTickExpire
    split
    · split
      · exact (ih _).trans (osWake_tickVars k _ false)
      · rfl
    · rfl

theorem osAge_tickVars : k.osAge.tickVars = k.tickVars := by
  have hfold : ∀ (p : ℕ) (l : List (Place c)) (k : Kernel c S),
      (l.foldl (osAgeTask p) k).tickVars = k.tickVars := by
    intro p l
    induction l with
    | nil => exact fun _ => rfl
    | cons u l ih =>
      intro k
      rw [List.foldl_cons, ih]
      by_cases hc : k.priority u ≠ 0 ∧ k.priority u < c.agingLimit ∧
          k.priority u + (if c.roundRobin then 1 else 0) ≤ p
      · rw [osAgeTask, if_pos hc]
        rfl
      · rw [osAgeTask, if_neg hc]
  unfold osAge
  split
  · dsimp only
    split
    · exact (hfold _ _ _).trans (osSettle_tickVars k k.currentTask)
    · exact osSettle_tickVars k k.currentTask
  · rfl

theorem osTaskDetach_tickVars : (k.osTaskDetach t).tickVars = k.tickVars := by
  unfold osTaskDetach
  split
  · rfl
  · exact osUnblock_tickVars k t

theorem osMutexOwn_tickVars : (k.osMutexOwn m t).tickVars = k.tickVars := by
  unfold osMutexOwn
  dsimp only
  split <;> rfl

theorem osMutexPass_tickVars : (k.osMutexPass m).tickVars = k.tickVars := by
  unfold osMutexPass
  split
  · exact (osWake_tickVars _ _ true).trans (osMutexOwn_tickVars k _ m)
  · rfl

theorem releaseLoop_tickVars (fuel : ℕ) :
    (osMutexReleaseAllLoop fuel k t).tickVars = k.tickVars := by
  induction fuel generalizing k with
  | zero => rfl
  | succ fuel ih =>
    unfold osMutexReleaseAllLoop
    split
    · exact (ih _).trans (osMutexPass_tickVars _ _)
    · rfl

theorem lockRest_tickVars (call : Call c) (locked : Bool) :
    (osMutexTryLockRest call m k locked).tickVars = k.tickVars := by
  have hgive : ∀ owner, (if k.osInheritedPriority owner < k.priority owner then
      (k.setPriority owner (k.osInheritedPriority owner)).osRequeue owner else k).tickVars =
        k.tickVars := by
    intro owner
    split
    · exact osRequeue_tickVars _ owner
    · rfl
  unfold osMutexTryLockRest
  dsimp only
  split
  · cases k.owner m with
    | none => rfl
    | some owner => exact hgive owner
  · rfl

theorem osMutexTryLock_tickVars (call : Call c) (timeout : OsTick c) :
    (k.osMutexTryLock call m timeout).tickVars = k.tickVars := by
  unfold osMutexTryLock
  dsimp only
  cases k.owner m with
  | none => exact osMutexOwn_tickVars k _ m
  | some owner =>
    dsimp only
    split
    · rfl
    · refine (blockThen_tickVars _ call _ timeout fun k r => lockRest_tickVars k m call r).trans ?_
      split
      · exact raiseLoop_tickVars k owner _ _
      · rfl

theorem osSemaphoreGiveFromISR_tickVars (s : Place c) :
    (k.osSemaphoreGiveFromISR s).tickVars = k.tickVars := by
  unfold osSemaphoreGiveFromISR
  dsimp only
  split
  · exact osWake_tickVars _ _ true
  · split <;> rfl

theorem osBlock_tickVars (call : Call c) (list : Option (WaitList c)) (timeout : OsTick c) :
    (k.osBlock call list timeout).1.tickVars = k.tickVars := by
  by_cases hi : k.currentTask = osIdleTask
  · simp only [osBlock, hi, if_true]
    rfl
  · simp only [osBlock, hi, if_false]
    rw [osDispatch_tickVars, sleep_tickVars, osSettle_tickVars]

theorem osQueuePut_tickVars (call : Call c) (q : Place c) (item : Address) (timeout : OsTick c) :
    (k.osQueuePut call q item timeout).1.tickVars = k.tickVars := by
  have hstore : (k.osQueueStore call q item timeout).1.tickVars = k.tickVars := by
    unfold osQueueStore
    split
    · rfl
    · split
      · rfl
      · exact osBlock_tickVars _ call _ timeout
  unfold osQueuePut
  split
  · split
    · exact osWake_tickVars _ _ true
    · exact hstore
  · exact hstore

omit [LinkStore S] in
theorem osQueueAppend_tickVars (q : Place c) (item : Address) :
    (k.osQueueAppend q item).tickVars = k.tickVars := by
  unfold osQueueAppend
  rfl

omit [LinkStore S] in
theorem osQueueTake_tickVars (q : Place c) (item : Address) :
    (k.osQueueTake q item).tickVars = k.tickVars := by
  unfold osQueueTake
  rfl

theorem osQueueGet_tickVars (call : Call c) (q : Place c) (item : Address) (timeout : OsTick c) :
    (k.osQueueGet call q item timeout).1.tickVars = k.tickVars := by
  have htake := osQueueTake_tickVars k q item
  unfold osQueueGet
  split
  · dsimp only
    split
    · rw [osWake_tickVars, osQueueAppend_tickVars, htake]
    · exact htake
  · split
    · rfl
    · exact osBlock_tickVars _ call _ timeout

omit [LinkStore S] in
theorem osEventConsume_tickVars (e : Place c) (matched options : Byte) :
    (k.osEventConsume e matched options).tickVars = k.tickVars := by
  unfold osEventConsume
  split <;> rfl

theorem osEventServe_tickVars (e : Place c) : (k.osEventServe e t).tickVars = k.tickVars := by
  unfold osEventServe
  extract_lets k₁ options matched k₂
  have hc : k₂.tickVars = k.tickVars := osEventConsume_tickVars k₁ e matched options
  split
  · exact (osWake_tickVars _ t true).trans hc
  · rfl

theorem osEventSetFromISR_tickVars (e : Place c) (flags : Byte) :
    (k.osEventSetFromISR e flags).tickVars = k.tickVars := by
  have hloop : ∀ (fuel : ℕ) (k : Kernel c S) (t : Option (Place c)),
      (osEventSetLoop e fuel k t).tickVars = k.tickVars := by
    intro fuel
    induction fuel with
    | zero => exact fun _ _ => rfl
    | succ fuel ih =>
      intro k t
      cases t with
      | none => rfl
      | some t => exact (ih _ _).trans (osEventServe_tickVars k t e)
  exact hloop _ _ _

theorem osDelayUntil_tickVars (previous : Address) (period : OsTick c) :
    (k.osDelayUntil previous period).tickVars =
      Function.update k.tickVars previous (k.tickVars previous + period) := by
  unfold osDelayUntil
  dsimp only
  split
  · exact blockThen_tickVars _ _ none _ fun _ _ => rfl
  · rfl

theorem exec_tickVars (x : Call c) (hx : ∀ previous period, x ≠ .osDelayUntil previous period) :
    (k.exec x).tickVars = k.tickVars := by
  cases x with
  | osTaskCreate u p d => exact osSchedule_tickVars _ 0
  | osTaskDelete t =>
    change (k.osTaskDelete t).tickVars = _
    unfold osTaskDelete
    extract_lets task current k₀
    split
    · rename_i k₁ k₂ k₃ k₄ _
      have h₁ : k₁.tickVars = k.tickVars := osTaskDetach_tickVars k₀ task
      have h₃ : k₃.tickVars = k₂.tickVars := by
        by_cases hinh : c.mutexInheritance = true
        · exact (congrArg tickVars (if_pos hinh)).trans (releaseLoop_tickVars k₂ task _)
        · exact congrArg tickVars (if_neg hinh)
      have h₄ : k₄.tickVars = k₃.tickVars := by
        by_cases hd : (k₃.tasks task).dynamic = true
        · exact (congrArg tickVars (if_pos hd)).trans rfl
        · exact congrArg tickVars (if_neg hd)
      split
      · exact (osDispatch_tickVars k₄).trans (h₄.trans (h₃.trans h₁))
      · exact (osSchedule_tickVars k₄ 0).trans (h₄.trans (h₃.trans h₁))
    · rfl
  | osTaskSuspend t =>
    change (k.osTaskSuspend t).tickVars = _
    unfold osTaskSuspend
    dsimp only
    split
    · split
      · exact (osDispatch_tickVars _).trans (osTaskDetach_tickVars _ _)
      · exact osTaskDetach_tickVars _ _
    · rfl
  | osTaskResume u =>
    refine (osSchedule_tickVars _ 0).trans ?_
    change (k.osTaskResumeFromISR u).tickVars = _
    unfold osTaskResumeFromISR
    split <;> rfl
  | osTaskSetPriority t p =>
    refine (osSchedule_tickVars _ 0).trans ?_
    dsimp only
    split
    · exact raiseLoop_tickVars _ _ _ _
    · split
      · exact osRequeue_tickVars _ _
      · rfl
  | osTaskReap => rfl
  | osYield => exact osSchedule_tickVars _ 1
  | osDelay ticks =>
    change (k.osDelay ticks).tickVars = _
    unfold osDelay
    dsimp only
    split
    · exact blockThen_tickVars k _ none ticks fun _ _ => rfl
    · exact osSchedule_tickVars _ 1
  | osDelayUntil previous period => exact absurd rfl (hx previous period)
  | osMutexInit m =>
    change (k.osMutexInit m).tickVars = _
    unfold osMutexInit
    dsimp only
    split <;> rfl
  | osMutexTryLock m timeout => exact osMutexTryLock_tickVars k m _ timeout
  | osMutexLock m => exact osMutexTryLock_tickVars k m _ _
  | osMutexUnlock m =>
    change (k.osMutexUnlock m).tickVars = _
    unfold osMutexUnlock
    dsimp only
    split
    · refine (osSchedule_tickVars _ 0).trans ?_
      split
      · exact osMutexPass_tickVars _ m
      · exact osMutexPass_tickVars _ m
    · rfl
  | osSemaphoreInit s count limit => rfl
  | osSemaphoreTake s timeout =>
    change (k.osSemaphoreTake s timeout).tickVars = _
    unfold osSemaphoreTake
    dsimp only
    split
    · rfl
    · split
      · rfl
      · exact blockThen_tickVars k _ _ timeout fun _ _ => rfl
  | osSemaphoreGive s => exact (osSchedule_tickVars _ 0).trans (osSemaphoreGiveFromISR_tickVars k s)
  | osQueueInit q itemSize length => rfl
  | osQueueSend q item timeout =>
    have hput := osQueuePut_tickVars k (.osQueueSend q item timeout) q item timeout
    change (k.osQueueSend q item timeout).tickVars = _
    unfold osQueueSend
    dsimp only
    split
    case h_1 k₁ sent he =>
      rw [he] at hput
      exact (osSchedule_tickVars _ 0).trans hput
    case h_2 k₁ he =>
      rw [he] at hput
      exact hput
  | osQueueReceive q item timeout =>
    have hget := osQueueGet_tickVars k (.osQueueReceive q item timeout) q item timeout
    change (k.osQueueReceive q item timeout).tickVars = _
    unfold osQueueReceive
    dsimp only
    split
    case h_1 k₁ received he =>
      rw [he] at hget
      exact (osSchedule_tickVars _ 0).trans hget
    case h_2 k₁ he =>
      rw [he] at hget
      exact hget
  | osEventInit e => rfl
  | osEventWait e flags options timeout =>
    change (k.osEventWait e flags options timeout).tickVars = _
    unfold osEventWait
    dsimp only
    split
    · exact osEventConsume_tickVars k e _ options
    · split
      · exact blockThen_tickVars _ _ _ timeout fun _ _ => rfl
      · rfl
  | osEventSet e flags => exact (osSchedule_tickVars _ 0).trans (osEventSetFromISR_tickVars k e flags)
  | osEventClear e flags => rfl
  | osTimerStart tm delay period function => rfl
  | osTimerStop tm => rfl

theorem execIsr_tickVars (x : IsrCall c) : (k.execIsr x).tickVars = k.tickVars := by
  cases x with
  | osTaskResumeFromISR t =>
    change (k.osTaskResumeFromISR t).tickVars = _
    unfold osTaskResumeFromISR
    split <;> rfl
  | osSemaphoreGiveFromISR s => exact osSemaphoreGiveFromISR_tickVars k s
  | osQueueSendFromISR q item => exact osQueuePut_tickVars k _ q item _
  | osQueueReceiveFromISR q item => exact osQueueGet_tickVars k _ q item _
  | osEventSetFromISR e flags => exact osEventSetFromISR_tickVars k e flags
  | osEventClear e flags => rfl
  | osTimerStart tm delay period function => rfl
  | osTimerStop tm => rfl
  | store p b => rfl

theorem execRest_tickVars (call : Call c) (result : Bool) :
    (k.execRest call result).tickVars = k.tickVars := by
  unfold execRest
  split
  · exact lockRest_tickVars k _ _ result
  · exact lockRest_tickVars k _ _ result
  · rfl
  · exact osSchedule_tickVars _ 0
  · exact osSchedule_tickVars _ 0
  · rfl
  · rfl

/-- Nobody but calls of `osDelayUntil` and the task itself changes the variable. -/
theorem step_tickVars {k k' : Kernel c S} {a : Action c} {p : Address} (hs : k.step a = some k')
    (hcall : ∀ period, a ≠ .call (.osDelayUntil p period)) (hset : ∀ x, a ≠ .setTickVar p x) :
    k'.tickVars p = k.tickVars p := by
  cases a with
  | run =>
    simp only [step, Option.ite_none_right_eq_some, Option.some.injEq] at hs
    rw [← hs.2]
    exact congrFun (osSchedule_tickVars _ 0) p
  | call x =>
    simp only [step, Option.ite_none_right_eq_some, Option.some.injEq] at hs
    rw [← hs.2]
    by_cases hx : ∃ previous period, x = .osDelayUntil previous period
    · obtain ⟨previous, period, rfl⟩ := hx
      have hne : p ≠ previous := fun he => hcall period (by rw [he])
      exact (congrFun (osDelayUntil_tickVars _ previous period) p).trans (Function.update_of_ne hne ..)
    · exact congrFun (exec_tickVars _ x fun previous period he => hx ⟨previous, period, he⟩) p
  | resume =>
    simp only [step, Option.ite_none_right_eq_some] at hs
    obtain ⟨-, hs⟩ := hs
    split at hs
    · injection hs with hs
      rw [← hs]
      rfl
    · injection hs with hs
      rw [← hs]
      rfl
    · injection hs with hs
      rw [← hs]
      exact congrFun (execRest_tickVars k _ _) p
    · cases hs
  | isrEnter os =>
    simp only [step, Option.ite_none_right_eq_some, Option.some.injEq] at hs
    rw [← hs.2]
    rfl
  | isrCall x =>
    simp only [step] at hs
    split at hs
    · simp only [Option.ite_none_right_eq_some, Option.some.injEq] at hs
      rw [← hs.2, execIsr_tickVars]
    · simp only [Option.ite_none_right_eq_some, Option.some.injEq] at hs
      rw [← hs.2, execIsr_tickVars]
    · cases hs
  | isrLeave =>
    simp only [step] at hs
    split at hs
    · injection hs with hs
      rw [← hs]
      exact congrFun (osSchedule_tickVars _ 0) p
    · injection hs with hs
      rw [← hs]
    · cases hs
  | tickEnter =>
    simp only [step, Option.ite_none_right_eq_some, Option.some.injEq] at hs
    rw [← hs.2]
    exact congrFun (osTickExpire_tickVars _ _) p
  | tickTimer =>
    simp only [step] at hs
    split at hs
    · simp only [Option.ite_none_right_eq_some, Option.some.injEq] at hs
      rw [← hs.2]
      change (k.osTimerTick _).tickVars p = _
      unfold osTimerTick
      dsimp only
      split <;> rfl
    · cases hs
  | tickLeave =>
    simp only [step] at hs
    split at hs
    · simp only [Option.ite_none_right_eq_some, Option.some.injEq] at hs
      rw [← hs.2]
      exact congrFun ((osSchedule_tickVars _ _).trans (osAge_tickVars _)) p
    · cases hs
  | store q b =>
    simp only [step, Option.ite_none_right_eq_some, Option.some.injEq] at hs
    rw [← hs.2]
  | setTickVar q x =>
    simp only [step, Option.ite_none_right_eq_some, Option.some.injEq] at hs
    have hne : p ≠ q := fun he => hset x (by rw [he])
    rw [← hs.2]
    exact Function.update_of_ne hne ..

end

end Kernel

end AvrOs
