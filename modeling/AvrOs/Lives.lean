import AvrOs.Reach
import Mathlib.Logic.Relation

/-!
# Lives of tasks

Whatever happens in the system is one of few stages in the life of every task. What a
task is told by its calls is derived from these stages, not from the code.
-/

namespace AvrOs
open Intrusive Transition Kernel

variable {c : Config}

/-- What a task which goes to sleep may wait for in its call. -/
def Life.Suits (l : Life c) (call : Call c) (timeout : OsTick c) : Option (WaitList c) → Prop
  | none => call = .osDelay timeout ∨ ∃ p period, call = .osDelayUntil p period
  | some (.mutex m) => (l.owns m ↔ wasMine l.history = true) ∧
      (call = .osMutexTryLock m timeout ∨ (call = .osMutexLock m ∧ timeout = OS_WAIT_FOREVER c))
  | some (.semaphore s) => call = .osSemaphoreTake s timeout
  | some (.queue q) => ∃ item, l.wait = .item item ∧
      (call = .osQueueReceive q item timeout ∨ call = .osQueueSend q item timeout)
  | some (.event e) => ∃ flags options, l.wait = .event flags options ∧
      call = .osEventWait e flags options timeout

/-- The task is back on the ready list. -/
def Life.wakes (l : Life c) (t : Place c) (result : Bool) : Life c :=
  { l with
    kind := OS_TASK_READY, result := result, waitList := none, timeout := none
    history := .woken t l.waitList result :: l.history }

/-- One stage in the life of the task. It is suspended where `parks` and resumed where
`revives` allows it, and the tick comes where `beats` does. -/
inductive Stage (t : Place c) (parks revives beats : Life c → Prop) : Life c → Life c → Prop where
  | rest (l : Life c) : Stage t parks revives beats l l
  | called (l : Life c) (x : Call c) (mine : Bool) (hk : l.kind = OS_TASK_RUNNING)
      (hf : l.frame = none) (hm : mine = true ↔ ∃ m, x.mutex = some m ∧ l.owns m) :
      Stage t parks revives beats l { l with history := .called t x mine :: l.history }
  | returns (l : Life c) (call : Call c) (v : Value c) (hk : l.kind = OS_TASK_RUNNING)
      (hf : l.frame = none ∧ l.Prompt t call v ∨
        l.frame = some (.blocked call) ∧ v = call.told l.result l.wait) :
      Stage t parks revives beats l { l with frame := some (.returning call v) }
  | pause (l : Life c) (hk : l.kind = OS_TASK_RUNNING) (hf : l.frame = none) :
      Stage t parks revives beats l { l with frame := some .preempted }
  | goesOn (l : Life c) (hk : l.kind = OS_TASK_RUNNING) (hf : l.frame = some .preempted) :
      Stage t parks revives beats l { l with frame := none }
  | returned (l : Life c) (call : Call c) (v : Value c) (hk : l.kind = OS_TASK_RUNNING)
      (hf : l.frame = some (.returning call v)) :
      Stage t parks revives beats l
        { l with frame := none, history := .returned t call v :: l.history }
  | setWait (l : Life c) (w : Wait) (hk : l.kind = OS_TASK_RUNNING) (hf : l.frame = none) :
      Stage t parks revives beats l { l with wait := w }
  | preempt (l : Life c) (hk : l.kind = OS_TASK_RUNNING) :
      Stage t parks revives beats l { l with kind := OS_TASK_READY }
  | dispatch (l : Life c) (hk : l.kind = OS_TASK_READY) :
      Stage t parks revives beats l { l with kind := OS_TASK_RUNNING }
  | sleep (l : Life c) (call : Call c) (list : Option (WaitList c)) (timeout : OsTick c)
      (hk : l.kind = OS_TASK_RUNNING) (hf : l.frame = none) (hi : t ≠ osIdleTask)
      (ht : timeout ≠ 0) (hs : l.Suits call timeout list) :
      Stage t parks revives beats l { l with
        kind := OS_TASK_BLOCKED, waitList := list, frame := some (.blocked call)
        timeout := if timeout ≠ OS_WAIT_FOREVER c then some timeout else none
        history := .blocked t list timeout :: l.history }
  | expired (l : Life c) (hk : l.kind = OS_TASK_BLOCKED) (ht : l.timeout = some 0) :
      Stage t parks revives beats l (l.wakes t false)
  | handed (l : Life c) (m : Place c) (hk : l.kind = OS_TASK_BLOCKED)
      (hw : l.waitList = some (.mutex m)) :
      Stage t parks revives beats l { l.wakes t true with owns := fun x => x = m ∨ l.owns x }
  | given (l : Life c) (w : WaitList c) (hk : l.kind = OS_TASK_BLOCKED) (hw : l.waitList = some w)
      (hm : ∀ m, w ≠ .mutex m) (he : ∀ e, w ≠ .event e) :
      Stage t parks revives beats l (l.wakes t true)
  | served (l : Life c) (e : Place c) (flags options : Byte) (hk : l.kind = OS_TASK_BLOCKED)
      (hw : l.waitList = some (.event e)) (hf : flags ≠ 0) :
      Stage t parks revives beats l ({ l with
        wait := .event flags options
        history := .satisfied e t flags options :: l.history }.wakes t true)
  | satisfied (l : Life c) (e : Place c) (flags options : Byte) (hk : l.kind = OS_TASK_RUNNING)
      (hf : l.frame = none) :
      Stage t parks revives beats l { l with history := .satisfied e t flags options :: l.history }
  | killed (l : Life c) :
      Stage t parks revives beats l { l with
        kind := OS_TASK_DEAD, waitList := none, timeout := none, frame := none
        history := .deleted t :: l.history }
  | parked (l : Life c) (hk : l.kind ≠ OS_TASK_SUSPENDED) (hp : parks l) :
      Stage t parks revives beats l { l with
        kind := OS_TASK_SUSPENDED, result := false, waitList := none, timeout := none
        history := .suspended t :: l.history }
  | revived (l : Life c) (hk : l.kind = OS_TASK_SUSPENDED) (hr : revives l) :
      Stage t parks revives beats l { l with
        kind := OS_TASK_READY, history := .resumed t :: l.history }
  | created (l : Life c) (hk : l.kind = OS_TASK_DEAD) :
      Stage t parks revives beats l { l with
        kind := OS_TASK_READY, result := false, wait := .item 0, waitList := none
        timeout := none, frame := none, history := .created t :: l.history }
  | owned (l : Life c) (m : Place c) (hk : l.kind = OS_TASK_RUNNING) (hf : l.frame = none) :
      Stage t parks revives beats l { l with owns := fun x => x = m ∨ l.owns x }
  | released (l : Life c) (m : Place c) (h : l.kind = OS_TASK_DEAD ∨
        (∃ v, l.frame = some (.returning (.osMutexUnlock m) v)) ∧
          ∃ mine past, l.history = .called t (.osMutexUnlock m) mine :: past) :
      Stage t parks revives beats l { l with owns := fun x => x ≠ m ∧ l.owns x }
  | ticked (l : Life c) (hb : beats l) :
      Stage t parks revives beats l { l with
        timeout := l.timeout.map (· - 1), history := .ticked :: l.history }

/-! ### What steps of the kernel are in a life -/

section
variable {k k' : ListKernel c} {t u : Place c} {parks revives beats : Life c → Prop}

theorem Life.ext' {l l' : Life c} (hk : l.kind = l'.kind) (hr : l.result = l'.result)
    (hw : l.wait = l'.wait) (hl : l.waitList = l'.waitList) (ht : l.timeout = l'.timeout)
    (hf : l.frame = l'.frame) (ho : ∀ m, l.owns m ↔ l'.owns m) (hh : l.history = l'.history) :
    l = l' := by
  have ho' : l.owns = l'.owns := funext fun m => propext (ho m)
  cases l
  cases l'
  simp_all

theorem SameTasks.life (h : SameTasks k k') (u : Place c) : life k' u = life k u := by
  obtain ⟨p, b, he⟩ := h.tasks u
  unfold AvrOs.life
  rw [h.owner, h.frames, h.ticks, h.history, stateOf, stateOf, he]

theorem emit_life (k : ListKernel c) (e : Event c) (u : Place c) :
    life (k.emit e) u = { life k u with
      history := if e.concerns u then e :: k.history u else k.history u } := by
  have hh : (k.emit e).history u = if e.concerns u then e :: k.history u else k.history u :=
    List.filter_cons ..
  unfold life
  rw [hh]
  rfl

theorem emit_about (k : ListKernel c) (e : Event c) (u : Place c) (he : e.concerns u = true) :
    life (k.emit e) u = { life k u with history := e :: (life k u).history } := by
  rw [emit_life, he]
  rfl

/-- Entries about somebody else do not matter. -/
theorem emit_other (k : ListKernel c) (e : Event c) (u : Place c) (he : e.concerns u = false) :
    life (k.emit e) u = life k u := by
  rw [emit_life, he]
  rfl

theorem wake_life (k : ListKernel c) (t : Place c) (r : Bool) :
    life (k.osWake t r) t = (life k t).wakes t r := by
  rw [osWake_eq]
  refine Life.ext' ?_ ?_ ?_ ?_ ?_ rfl (fun m => Iff.rfl) ?_
  · simp [life, Life.wakes, stateOf]
  · simp [life, Life.wakes]
  · simp [life, Life.wakes]
  · simp [life, Life.wakes]
  · simp [life, Life.wakes, Timed]
  · exact List.filter_cons_of_pos (decide_eq_true rfl)

theorem wake_other (k : ListKernel c) (r : Bool) (h : u ≠ t) :
    life (k.osWake t r) u = life k u := by
  rw [osWake_eq]
  refine Life.ext' ?_ ?_ ?_ ?_ ?_ rfl (fun m => Iff.rfl) ?_
  · simp [life, stateOf, h]
  · simp [life, h]
  · simp [life, h]
  · simp [life, h]
  · simp [life, h]
  · exact List.filter_cons_of_neg (by simp [Event.concerns, h.symm])

/-- A change of the control block of another task. -/
theorem setTask_other (k : ListKernel c) (x : OsTask c) (h : u ≠ t) :
    life (k.setTask t x) u = life k u := by
  refine Life.ext' ?_ ?_ ?_ ?_ ?_ rfl (fun m => Iff.rfl) rfl
  · simp [life, stateOf, setTask, h]
  · simp [life, setTask, h]
  · simp [life, setTask, h]
  · simp [life, setTask, h]
  · simp [life, setTask, h]

theorem setFrame_other (k : ListKernel c) (f : Option (Frame c)) (h : u ≠ t) :
    life (k.setFrame t f) u = life k u := by
  refine Life.ext' rfl rfl rfl rfl rfl ?_ (fun m => Iff.rfl) rfl
  exact Function.update_of_ne h ..

theorem setFrame_life (k : ListKernel c) (f : Option (Frame c)) (t : Place c) :
    life (k.setFrame t f) t = { life k t with frame := f } := by
  refine Life.ext' rfl rfl rfl rfl rfl ?_ (fun m => Iff.rfl) rfl
  exact Function.update_self ..

/-- Nobody has a timeout but tasks which are blocked. -/
theorem Sound.no_timeout (h : Sound k) (hs : k.stateOf t ≠ OS_TASK_BLOCKED) :
    (life k t).timeout = none := if_neg (h.linked.notTimed hs)

theorem Stage.cast {l l₁ l₂ : Life c} (h : Stage t parks revives beats l l₁) (he : l₂ = l₁) :
    Stage t parks revives beats l l₂ := he ▸ h

/-! ### Stages, one step of the kernel after the other -/

theorem called_stage (hk : k.stateOf k.currentTask = OS_TASK_RUNNING) (hf : Open k) (x : Call c)
    (u : Place c) : Stage u parks revives beats (life k u) (life ((Atom.called x).apply k) u) := by
  by_cases hu : u = k.currentTask
  · subst hu
    rw [Atom.apply, emit_about _ _ _ (by simp [Event.concerns])]
    refine .called (life k k.currentTask) x (k.mine x) hk hf ?_
    simp [Kernel.mine, life, Option.any]
    cases x.mutex <;> simp
  · rw [Atom.apply, emit_other _ _ _ (by simp [Event.concerns, Ne.symm hu])]
    exact .rest _

theorem frame_stage (f : Option (Frame c)) (u : Place c)
    (hs : Stage k.currentTask parks revives beats (life k k.currentTask)
      { life k k.currentTask with frame := f }) :
    Stage u parks revives beats (life k u) (life (k.setFrame k.currentTask f) u) := by
  by_cases hu : u = k.currentTask
  · subst hu
    rw [setFrame_life]
    exact hs
  · rw [setFrame_other _ _ hu]
    exact .rest _

theorem leave_stage (hk : k.stateOf k.currentTask = OS_TASK_RUNNING)
    (hf : k.frames k.currentTask = some .preempted ∨
      ∃ call v, k.frames k.currentTask = some (.returning call v)) (u : Place c) :
    Stage u parks revives beats (life k u) (life (leave k) u) := by
  rcases leave_cases k with ⟨call, v, hc, he⟩ | ⟨hn, he⟩
  · rw [he]
    by_cases hu : u = k.currentTask
    · subst hu
      rw [emit_about _ _ _ (by simp [Event.concerns]), setFrame_life]
      exact .returned (life k k.currentTask) call v hk hc
    · rw [emit_other _ _ _ (by simp [Event.concerns, Ne.symm hu]), setFrame_other _ _ hu]
      exact .rest _
  · rw [he]
    rcases hf with hf | ⟨call, v, hf⟩
    · exact frame_stage none u (.goesOn _ hk hf)
    · exact absurd hf (hn call v)

theorem setWait_stage (hk : k.stateOf k.currentTask = OS_TASK_RUNNING) (hf : Open k) (w : Wait)
    (u : Place c) :
    Stage u parks revives beats (life k u) (life (k.setWait k.currentTask w) u) := by
  by_cases hu : u = k.currentTask
  · subst hu
    have he : life (k.setWait k.currentTask w) k.currentTask =
        { life k k.currentTask with wait := w } := by
      simp [life, setWait, setTask, stateOf, Kernel.history]
    rw [he]
    exact .setWait _ w hk hf
  · rw [setWait, setTask_other _ _ hu]
    exact .rest _

theorem preempt_stage (h : Sound k) (hk : k.stateOf k.currentTask = OS_TASK_RUNNING) (key : ℕ)
    (u : Place c) : Stage u parks revives beats (life k u) (life ((Atom.preempt key).apply k) u) := by
  show Stage u parks revives beats (life k u) (life (k.setState k.currentTask OS_TASK_READY) u)
  by_cases hu : u = k.currentTask
  · subst hu
    have he : life (k.setState k.currentTask OS_TASK_READY) k.currentTask =
        { life k k.currentTask with kind := OS_TASK_READY } := by
      refine Life.ext' ?_ ?_ ?_ ?_ ?_ rfl (fun m => Iff.rfl) rfl
      · simp [life, stateOf, setState, setTask]
      · simp [life, setState, setTask]
      · simp [life, setState, setTask]
      · simp [life, setState, setTask]
      · rw [h.no_timeout (by rw [hk]; simp)]
        simp [life, setState, setTask, Timed]
    rw [he]
    exact .preempt _ hk
  · rw [setState, setTask_other _ _ hu]
    exact .rest _

theorem dispatch_stage (h : Sound k) (hk : k.stateOf k.currentTask ≠ OS_TASK_RUNNING)
    (u : Place c) : Stage u parks revives beats (life k u) (life k.osDispatch u) := by
  obtain ⟨-, n, hn⟩ := osDispatch_sound h hk
  have hr : k.stateOf n = OS_TASK_READY := (h.linked.2 n).ready.mp (List.mem_of_mem_head? hn)
  rw [osDispatch_eq k n hn]
  by_cases hu : u = n
  · subst hu
    refine (Stage.dispatch (life k u) hr).cast ?_
    refine Life.ext' ?_ ?_ ?_ ?_ ?_ rfl (fun m => Iff.rfl) rfl
    · simp [life, stateOf]
    · simp [life]
    · simp [life]
    · simp [life]
    · rw [h.no_timeout (by rw [hr]; simp)]
      simp [life, Timed]
  · refine (Stage.rest (life k u)).cast ?_
    exact setTask_other k _ hu

/-- Only the task which gets to run takes part in the switch. -/
theorem dispatch_other (h : Sound k) (hk : k.stateOf k.currentTask ≠ OS_TASK_RUNNING)
    (hu : k.stateOf u ≠ OS_TASK_READY) : life k.osDispatch u = life k u := by
  obtain ⟨-, n, hn⟩ := osDispatch_sound h hk
  rw [osDispatch_eq k n hn]
  refine setTask_other k _ fun he => hu ?_
  rw [he]
  exact (h.linked.2 n).ready.mp (List.mem_of_mem_head? hn)

theorem suits_of_block {call : Call c} {list : Option (WaitList c)} {timeout : OsTick c}
    (hb : Blockable k call timeout list) : (life k k.currentTask).Suits call timeout list := by
  cases list with
  | none => exact hb
  | some w =>
    cases w with
    | mutex m => exact ⟨hb.2.1, hb.2.2⟩
    | semaphore s => exact hb.2
    | queue q =>
      obtain ⟨item, hw, hc⟩ := hb
      exact ⟨item, hw, hc.imp (fun hc => hc.1) fun hc => hc.1⟩
    | event e =>
      obtain ⟨flags, options, hw, hc, -⟩ := hb
      exact ⟨flags, options, hw, hc⟩

/-- The current task is put to sleep. -/
theorem sleep_life (h : Sound k) (call : Call c) (list : Option (WaitList c)) (timeout : OsTick c)
    (hk : k.stateOf k.currentTask = OS_TASK_RUNNING) :
    life (k.sleep call list timeout) k.currentTask = { life k k.currentTask with
      kind := OS_TASK_BLOCKED, waitList := list, frame := some (.blocked call)
      timeout := if timeout ≠ OS_WAIT_FOREVER c then some timeout else none
      history := .blocked k.currentTask list timeout :: k.history k.currentTask } := by
  have hnt : ¬ Timed (k.tasks k.currentTask) := h.linked.notTimed (by rw [hk]; simp)
  rw [sleep_eq]
  refine Life.ext' ?_ ?_ ?_ ?_ ?_ ?_ (fun m => Iff.rfl) ?_
  · simp only [life, stateOf, Function.update_self]
    exact sleeper_kind k list timeout hk
  · simp only [life, Function.update_self, sleeper]
    split <;> rfl
  · simp only [life, Function.update_self, sleeper]
    split <;> rfl
  · simp only [life, Function.update_self]
    exact sleeper_waitList k list timeout
  · simp only [life, Function.update_self, sleeper_timed k list timeout hnt]
    by_cases hw : timeout ≠ OS_WAIT_FOREVER c
    · rw [if_pos hw, if_pos hw]
      simp [sleeper, hw]
    · rw [if_neg hw, if_neg hw]
  · simp [life]
  · exact List.filter_cons_of_pos (decide_eq_true rfl)

theorem sleep_stage (h : Sound k) (call : Call c) (list : Option (WaitList c)) (timeout : OsTick c)
    (hg : (Atom.sleep call list timeout).guard k) (u : Place c) :
    Stage u parks revives beats (life k u) (life (k.sleep call list timeout) u) := by
  obtain ⟨hi, hk, -, ht, hf, hb⟩ := hg
  by_cases hu : u = k.currentTask
  · subst hu
    exact (Stage.sleep (life k k.currentTask) call list timeout hk hf hi ht
      (suits_of_block hb)).cast (sleep_life h call list timeout hk)
  · rw [sleep_eq]
    refine (Stage.rest (life k u)).cast ?_
    refine Life.ext' ?_ ?_ ?_ ?_ ?_ ?_ (fun m => Iff.rfl) ?_
    · simp [life, stateOf, hu]
    · simp [life, hu]
    · simp [life, hu]
    · simp [life, hu]
    · simp [life, hu]
    · simp [life, hu]
    · exact List.filter_cons_of_neg (by simp [Event.concerns, Ne.symm hu])

theorem expire_stage (h : Sound k) (ht : Timed (k.tasks t)) (hw : (k.tasks t).wake = k.ticks)
    (u : Place c) : Stage u parks revives beats (life k u) (life (k.osWake t false) u) := by
  by_cases hu : u = t
  · subst hu
    rw [wake_life]
    refine .expired _ ((h.linked.2 u).timed ht) ?_
    show (if Timed (k.tasks u) then some ((k.tasks u).wake - k.ticks) else none) = some 0
    rw [if_pos ht, hw, BitVec.sub_self]
    rfl
  · rw [wake_other k false hu]
    exact .rest _

/-- A task taken off its list, be it for good or for some time. -/
theorem detach_other (h : Sound k) (hu : u ≠ t) : life (k.osTaskDetach t) u = life k u := by
  have htk := detach_task h.linked t
  obtain ⟨-, ho, -⟩ := detach_frame k t
  have hl : (k.osTaskDetach t).frames = k.frames ∧ (k.osTaskDetach t).ticks = k.ticks ∧
      (k.osTaskDetach t).log = k.log := by
    unfold osTaskDetach
    split
    · exact ⟨rfl, rfl, rfl⟩
    · rw [osUnblock_eq]
      exact ⟨rfl, rfl, rfl⟩
  unfold life Kernel.history stateOf
  rw [htk, ho, hl.1, hl.2.1, hl.2.2, Function.update_of_ne hu]

theorem detach_log (k : ListKernel c) (t : Place c) : (k.osTaskDetach t).log = k.log ∧
    (k.osTaskDetach t).frames = k.frames := by
  unfold osTaskDetach
  split
  · exact ⟨rfl, rfl⟩
  · rw [osUnblock_eq]
    exact ⟨rfl, rfl⟩

theorem kill_stage (h : Sound k) (t u : Place c) :
    Stage u parks revives beats (life k u) (life ((Atom.kill t).apply k) u) := by
  obtain ⟨hlog, hfr⟩ := detach_log k t
  by_cases hu : u = t
  · subst hu
    refine (Stage.killed (life k u)).cast ?_
    have htk := kill_tasks h.linked u
    refine Life.ext' ?_ ?_ ?_ ?_ ?_ ?_ (fun m => ?_) ?_
    · simp [life, stateOf, htk]
    · simp [life, htk]
    · simp [life, htk]
    · simp [life, htk]
    · simp [life, htk, Timed]
    · simp [life, Atom.apply, setFrame]
    · exact iff_of_eq (congrArg (· = some u) (congrFun (detach_frame k u).2.1 m))
    · show List.filter _ (Event.deleted u :: (k.osTaskDetach u).log) = _
      rw [hlog, List.filter_cons_of_pos (by simp [Event.concerns])]
      rfl
  · refine (Stage.rest (life k u)).cast ?_
    rw [Atom.apply, setFrame_other _ _ hu, emit_other _ _ _ (by simp [Event.concerns, Ne.symm hu]),
      setState, setTask_other _ _ hu, detach_other h hu]

theorem park_stage (h : Sound k) (t u : Place c) (hs : k.stateOf t ≠ OS_TASK_SUSPENDED)
    (hp : u = t → parks (life k t)) :
    Stage u parks revives beats (life k u) (life ((Atom.park t).apply k) u) := by
  obtain ⟨hlog, hfr⟩ := detach_log k t
  by_cases hu : u = t
  · subst hu
    refine (Stage.parked (life k u) hs (hp rfl)).cast ?_
    have htk := park_tasks h.linked u
    refine Life.ext' ?_ ?_ ?_ ?_ ?_ ?_ (fun m => ?_) ?_
    · simp [life, stateOf, htk]
    · simp [life, htk]
    · simp [life, htk]
    · simp [life, htk]
    · simp [life, htk, Timed]
    · exact congrFun hfr u
    · exact iff_of_eq (congrArg (· = some u) (congrFun (detach_frame k u).2.1 m))
    · show List.filter _ (Event.suspended u :: (k.osTaskDetach u).log) = _
      rw [hlog, List.filter_cons_of_pos (by simp [Event.concerns])]
      rfl
  · refine (Stage.rest (life k u)).cast ?_
    rw [Atom.apply, emit_other _ _ _ (by simp [Event.concerns, Ne.symm hu]), setState,
      setTask_other _ _ hu, setResult, setTask_other _ _ hu, detach_other h hu]

theorem ready_other (k : ListKernel c) (hu : u ≠ t) : life (k.osReady t) u = life k u := by
  rw [osReady_eq]
  exact setTask_other k _ hu

theorem ready_life (h : (life k t).timeout = none) :
    life (k.osReady t) t = { life k t with kind := OS_TASK_READY } := by
  rw [osReady_eq]
  refine Life.ext' ?_ ?_ ?_ ?_ ?_ rfl (fun m => Iff.rfl) rfl
  · simp [life, stateOf]
  · simp [life]
  · simp [life]
  · simp [life]
  · rw [h]
    simp [life, Timed]

theorem unpark_stage (h : Sound k) (t u : Place c) (hs : k.stateOf t = OS_TASK_SUSPENDED)
    (hr : u = t → revives (life k t)) :
    Stage u parks revives beats (life k u) (life ((Atom.unpark t).apply k) u) := by
  by_cases hu : u = t
  · subst hu
    refine (Stage.revived (life k u) hs (hr rfl)).cast ?_
    have ht : (life (k.emit (.resumed u)) u).timeout = none := h.no_timeout (by rw [hs]; simp)
    rw [Atom.apply, ready_life ht, emit_about _ _ _ (by simp [Event.concerns])]
  · rw [Atom.apply, ready_other _ hu, emit_other _ _ _ (by simp [Event.concerns, Ne.symm hu])]
    exact .rest _

theorem create_stage (t u : Place c) (p : ℕ) (d : Bool) (hs : k.stateOf t = OS_TASK_DEAD) :
    Stage u parks revives beats (life k u) (life (k.osTaskSetup t p d) u) := by
  unfold osTaskSetup
  dsimp only
  by_cases hu : u = t
  · subst hu
    refine (Stage.created (life k u) hs).cast ?_
    rw [ready_life, emit_about _ _ _ (by simp [Event.concerns]), setFrame_life]
    · refine Life.ext' rfl ?_ ?_ ?_ ?_ rfl (fun m => Iff.rfl) rfl
      · simp [life, setTask, newTask]
      · simp [life, setTask, newTask]
      · simp [life, setTask, newTask]
      · simp [life, setTask, newTask, Timed]
    · simp [life, setTask, newTask, Timed, setFrame, emit]
  · refine (Stage.rest (life k u)).cast ?_
    rw [ready_other _ hu, emit_other _ _ _ (by simp [Event.concerns, Ne.symm hu]),
      setFrame_other _ _ hu, setTask_other _ _ hu]
    rfl

/-! ### Objects -/

theorem own_stage (m : Place c) (hk : k.stateOf k.currentTask = OS_TASK_RUNNING) (hf : Open k)
    (hn : k.owner m = none) (u : Place c) :
    Stage u parks revives beats (life k u) (life (k.osMutexOwn m k.currentTask) u) := by
  rw [osMutexOwn_eq]
  by_cases hu : u = k.currentTask
  · subst hu
    refine (Stage.owned (life k k.currentTask) m hk hf).cast ?_
    refine Life.ext' rfl rfl rfl rfl rfl rfl (fun m' => ?_) rfl
    by_cases hm : m' = m
    · simp [life, hm]
    · simp [life, hm]
  · refine (Stage.rest (life k u)).cast ?_
    refine Life.ext' rfl rfl rfl rfl rfl rfl (fun m' => ?_) rfl
    by_cases hm : m' = m
    · simp [life, hm, hn, Ne.symm hu]
    · simp [life, hm]

/-- Once the mutex is not the one of its owner anymore, somebody who waits for it has it. -/
theorem release_stage (h : Sound k) (t m : Place c) (hg : (Atom.release t m).guard k)
    (u : Place c) : Stage u parks revives beats (life k u) (life ((Atom.release t m).apply k) u) := by
  obtain ⟨ho, hr⟩ := hg
  have hnb : k.stateOf t ≠ OS_TASK_BLOCKED := by
    rcases hr with hr | ⟨hr, -⟩
    · rw [hr]; simp
    · rw [hr]; simp
  have hrel : (life k t).kind = OS_TASK_DEAD ∨
      (∃ v, (life k t).frame = some (.returning (.osMutexUnlock m) v)) ∧
        ∃ mine past, (life k t).history = .called t (.osMutexUnlock m) mine :: past :=
    hr.imp (fun hr => hr) fun hr => hr.2
  rw [Atom.apply, release_eq]
  rcases pass_cases { k with ownedLinks := offOwned k t m } m with ⟨w, rest, hl, he⟩ | ⟨-, he⟩
  · have hm : w ∈ k.links (.wait (.mutex m)) := by
      change k.links _ = _ at hl
      rw [hl]
      simp
    have hb := h.waiter_blocked hm
    have hwt : w ≠ t := fun hwt => hnb (hwt ▸ hb)
    rw [he, osMutexOwn_eq]
    by_cases hu : u = w
    · subst hu
      rw [wake_life]
      refine (Stage.handed (life k u) m hb (((h.linked.2 u).wait _).mp hm)).cast ?_
      refine Life.ext' rfl rfl rfl rfl rfl rfl (fun m' => ?_) rfl
      by_cases hm' : m' = m
      · simp [life, Life.wakes, hm']
      · simp [life, Life.wakes, hm']
    · rw [wake_other _ _ hu]
      by_cases hut : u = t
      · subst hut
        refine (Stage.released (life k u) m hrel).cast ?_
        refine Life.ext' rfl rfl rfl rfl rfl rfl (fun m' => ?_) rfl
        by_cases hm' : m' = m
        · simp [life, hm', hwt]
        · simp [life, hm']
      · refine (Stage.rest (life k u)).cast ?_
        refine Life.ext' rfl rfl rfl rfl rfl rfl (fun m' => ?_) rfl
        by_cases hm' : m' = m
        · simp [life, hm', Ne.symm hu, ho, Ne.symm hut]
        · simp [life, hm']
  · rw [he]
    by_cases hut : u = t
    · subst hut
      refine (Stage.released (life k u) m hrel).cast ?_
      refine Life.ext' rfl rfl rfl rfl rfl rfl (fun m' => ?_) rfl
      by_cases hm' : m' = m
      · simp [life, setOwner, hm']
      · simp [life, setOwner, hm']
    · refine (Stage.rest (life k u)).cast ?_
      refine Life.ext' rfl rfl rfl rfl rfl rfl (fun m' => ?_) rfl
      by_cases hm' : m' = m
      · simp [life, setOwner, hm', ho, Ne.symm hut]
      · simp [life, setOwner, hm']

/-- Somebody who waits for a semaphore or a queue is served. -/
theorem given_stage (h : Sound k) (w : Place c) (l : WaitList c) (hw : w ∈ k.links (.wait l))
    (hm : ∀ m, l ≠ .mutex m) (he : ∀ e, l ≠ .event e) (u : Place c) :
    Stage u parks revives beats (life k u) (life (k.osWake w true) u) := by
  by_cases hu : u = w
  · subst hu
    rw [wake_life]
    exact .given _ l (h.waiter_blocked hw) (((h.linked.2 u).wait l).mp hw) hm he
  · rw [wake_other k true hu]
    exact .rest _

theorem give_stage (h : Sound k) (s u : Place c) :
    Stage u parks revives beats (life k u) (life (k.osSemaphoreGiveFromISR s) u) := by
  have hs := emit_sound h (.gave s)
  have hl : life (k.emit (.gave s)) u = life k u := emit_other _ _ _ rfl
  rcases give_cases k s with ⟨w, rest, hw, he⟩ | ⟨-, -, he⟩ | ⟨-, -, he⟩
  · rw [he, ← hl]
    exact given_stage hs w (.semaphore s) (by simp [emit, hw]) (by simp) (by simp) u
  · rw [he]
    exact (Stage.rest (life k u)).cast hl
  · rw [he, emit_other _ _ _ rfl, hl]
    exact .rest _

theorem append_life (k : ListKernel c) (q : Place c) (item : Address) (u : Place c) :
    life (k.osQueueAppend q item) u = life k u := by
  unfold osQueueAppend
  dsimp only
  rw [emit_other _ _ _ rfl, emit_other _ _ _ rfl]
  rfl

theorem take_life (k : ListKernel c) (q : Place c) (item : Address) (u : Place c) :
    life (k.osQueueTake q item) u = life k u := by
  unfold osQueueTake
  dsimp only
  rw [emit_other _ _ _ rfl, emit_other _ _ _ rfl]
  rfl

theorem hand_life (k : ListKernel c) (q : Place c) (item target : Address) (u : Place c) :
    life (k.osQueueHand q item target) u = life k u := by
  unfold osQueueHand
  dsimp only
  rw [emit_other _ _ _ rfl, emit_other _ _ _ rfl]
  rfl

theorem send_stage (h : Sound k) (q : Place c) (item : Address) (u : Place c) :
    Stage u parks revives beats (life k u) (life (k.osQueueSendFromISR q item) u) := by
  rcases send_cases k q item with ⟨w, rest, hl, -, he⟩ | ⟨-, -, he⟩ | ⟨-, -, he⟩
  · rw [he, ← hand_life k q item (k.tasks w).wait.itemPtr u]
    refine given_stage (hand_sound h q item _) w (.queue q) ?_ (by simp) (by simp) u
    rw [hand_links, hl]
    simp
  · rw [he, append_life]
    exact .rest _
  · rw [he]
    exact .rest _

theorem receive_stage (h : Sound k) (q : Place c) (item : Address) (u : Place c) :
    Stage u parks revives beats (life k u) (life (k.osQueueReceiveFromISR q item) u) := by
  rcases receive_cases k q item with ⟨w, rest, hl, -, he⟩ | ⟨-, -, he⟩ | ⟨-, he⟩
  · rw [he]
    refine Eq.subst (motive := fun l => Stage u parks revives beats l _)
      ((append_life _ q (k.tasks w).wait.itemPtr u).trans (take_life k q item u)) ?_
    refine given_stage (append_sound (take_sound h q item) q _) w (.queue q) ?_ (by simp) (by simp) u
    rw [append_links, take_links, hl]
    simp
  · rw [he, take_life]
    exact .rest _
  · rw [he]
    exact .rest _

theorem consume_life (k : ListKernel c) (e : Place c) (matched options : Byte) (u : Place c) :
    life (k.osEventConsume e matched options) u = life k u := by
  unfold osEventConsume
  split
  · rfl
  · rfl

theorem consume_stage (e : Place c) (wanted options : Byte)
    (hk : k.stateOf k.currentTask = OS_TASK_RUNNING) (hf : Open k) (u : Place c) :
    Stage u parks revives beats (life k u) (life ((Atom.consume e wanted options).apply k) u) := by
  rw [Atom.apply]
  by_cases hu : u = k.currentTask
  · subst hu
    refine (Stage.satisfied (life k k.currentTask) e (osEventMatch (k.events e) wanted options)
      options hk hf).cast ?_
    rw [emit_about _ _ _ (by simp [Event.concerns]), consume_life]
  · rw [emit_other _ _ _ (by simp [Event.concerns, Ne.symm hu]), consume_life]
    exact .rest _

theorem serve_stage (h : Sound k) (e t : Place c) (ht : (k.tasks t).waitList = some (.event e))
    (u : Place c) : Stage u parks revives beats (life k u) (life (k.osEventServe e t) u) := by
  have hb : k.stateOf t = OS_TASK_BLOCKED := (h.linked.2 t).blocked _ ht
  rcases serve_cases k e t with ⟨-, he⟩ | ⟨matched, options, hm, -, -, he⟩
  · rw [he, emit_other _ _ _ rfl]
    exact .rest _
  · have hl : life ((k.emit (.visited e t)).osEventConsume e matched options) u = life k u := by
      rw [consume_life, emit_other _ _ _ rfl]
    rw [he]
    by_cases hu : u = t
    · subst hu
      rw [wake_life]
      refine (Stage.served (life k u) e matched options hb ht hm).cast (congrArg (Life.wakes · u true) ?_)
      have hw : ∀ s : ListKernel c, life (s.setWait u (.event matched options)) u =
          { life s u with wait := .event matched options } := by
        intro s
        simp [life, setWait, setTask, stateOf, Kernel.history]
      rw [hw, emit_about _ _ _ (by simp [Event.concerns]), hl]
    · rw [wake_other _ _ hu, setWait, setTask_other _ _ hu,
        emit_other _ _ _ (by simp [Event.concerns, Ne.symm hu]), hl]
      exact .rest _

/-- The tick is part of everybody's life. -/
theorem tick_life (k : ListKernel c) (u : Place c) : life ((Atom.tick).apply k) u =
    { life k u with
      timeout := (life k u).timeout.map (· - 1)
      history := .ticked :: (life k u).history } := by
  rw [Atom.apply, emit_about _ _ _ rfl]
  refine Life.ext' rfl rfl rfl rfl ?_ rfl (fun _ => Iff.rfl) rfl
  show (if Timed (k.tasks u) then some ((k.tasks u).wake - (k.ticks + 1)) else none) =
    Option.map (· - 1) (if Timed (k.tasks u) then some ((k.tasks u).wake - k.ticks) else none)
  split
  · rw [Option.map_some, sub_add_eq_sub_sub]
  · rfl

/-- Nothing but priorities and the flag of `osMutexTryLock`. -/
theorem state_life (k : ListKernel c) (t : Place c) (s : Byte)
    (hk : s &&& OS_TASK_STATE = (k.tasks t).state &&& OS_TASK_STATE)
    (ht : s &&& OS_TASK_TIMED = (k.tasks t).state &&& OS_TASK_TIMED) (u : Place c) :
    life (k.setState t s) u = life k u := by
  by_cases hu : u = t
  · subst hu
    refine Life.ext' ?_ ?_ ?_ ?_ ?_ rfl (fun m => Iff.rfl) rfl
    · simpa [life, stateOf, setState, setTask] using hk
    · simp [life, setState, setTask]
    · simp [life, setState, setTask]
    · simp [life, setState, setTask]
    · simp [life, setState, setTask, Timed, ht]
  · exact setTask_other k _ hu

theorem age_life (h : Sound k) (u : Place c) : life ((Atom.age).apply k) u = life k u := by
  rw [Atom.apply, age_fold _ _ _ (h.linked.1.separate.nodup _)]
  refine Life.ext' ?_ ?_ ?_ ?_ ?_ rfl (fun m => Iff.rfl) rfl
  · simp only [life, stateOf]
    split <;> rfl
  · simp only [life]
    split <;> rfl
  · simp only [life]
    split <;> rfl
  · simp only [life]
    split <;> rfl
  · simp only [life]
    split <;> rfl

/-- Every step of the kernel is a stage in the life of every task. -/
theorem Atom.stage (a : Atom c) (h : Sound k) (hg : a.guard k) (u : Place c)
    (hp : a = .park u → parks (life k u)) (hr : a = .unpark u → revives (life k u))
    (hb : a = .tick → beats (life k u)) :
    Stage u parks revives beats (life k u) (life (a.apply k) u) := by
  cases a with
  | called x => exact called_stage hg.1 hg.2 x u
  | returns call v => exact frame_stage _ u (.returns _ call v hg.1 hg.2)
  | pause => exact frame_stage _ u (.pause _ hg.1 hg.2)
  | leave => exact leave_stage hg.1 hg.2 u
  | timerCalled tm => exact (Stage.rest _).cast (emit_other k _ u rfl)
  | quiet | flagsClear | bury | reap => exact .rest _
  | start =>
    refine (Stage.rest _).cast ?_
    exact (setTask_same k osIdleTask 0 0).life u
  | settle => exact (Stage.rest _).cast ((setPriority_same k _ _).life u)
  | requeue t p => exact (Stage.rest _).cast ((requeue_same k t p).life u)
  | setBase t p => exact (Stage.rest _).cast ((setTask_same k t _ p).life u)
  | flag => exact (Stage.rest _).cast (state_life k _ _ (mutex_kind _) (mutex_timed _) u)
  | unflag =>
    have hk : (k.tasks k.currentTask).state &&& OS_TASK_STATE = OS_TASK_RUNNING := hg
    refine (Stage.rest _).cast (state_life k _ _ (by rw [hk]; simp) ?_ u)
    rw [timed_running]
    exact (not_not.mp (h.linked.notTimed (by rw [hg]; simp))).symm
  | setWait w => exact setWait_stage hg.1 hg.2 w u
  | preempt key => exact preempt_stage h hg.1 key u
  | dispatch => exact dispatch_stage h hg u
  | sleep call list timeout => exact sleep_stage h call list timeout hg u
  | expire t => exact expire_stage h hg.1 hg.2 u
  | kill t => exact kill_stage h t u
  | park t => exact park_stage h t u hg.2.2 fun hu => hu ▸ hp (hu ▸ rfl)
  | unpark t => exact unpark_stage h t u hg fun hu => hu ▸ hr (hu ▸ rfl)
  | create t p d => exact create_stage t u p d hg.1
  | own m => exact own_stage m hg.2.1 hg.2.2 hg.1 u
  | release t m => exact release_stage h t m hg u
  | mutexInit m =>
    have ho : Function.update k.owner m none = k.owner := by
      rw [← hg.2]
      exact Function.update_eq_self ..
    refine (Stage.rest _).cast (Life.ext' rfl rfl rfl rfl rfl rfl (fun m' => ?_) rfl)
    exact iff_of_eq (congrArg (· = some u) (congrFun ho m'))
  | take s => exact (Stage.rest _).cast (emit_other _ _ u rfl)
  | give s => exact give_stage h s u
  | semaphoreInit s count limit => exact (Stage.rest _).cast (emit_other k _ u rfl)
  | send q item => exact send_stage h q item u
  | receive q item => exact receive_stage h q item u
  | queueInit q itemSize length => exact (Stage.rest _).cast (emit_other _ _ u rfl)
  | consume e wanted options => exact consume_stage e wanted options hg.2.1 hg.2.2 u
  | flagsSet e flags => exact (Stage.rest _).cast (emit_other _ _ u rfl)
  | serve e t => exact serve_stage h e t hg u
  | eventInit e => exact (Stage.rest _).cast (emit_other _ _ u rfl)
  | age => exact (Stage.rest _).cast (age_life h u)
  | tick => exact (Stage.ticked _ (hb rfl)).cast (tick_life k u)

/-! ### Whole lives -/

/-- Any number of stages. -/
abbrev Lived (t : Place c) (parks revives beats : Life c → Prop) : Life c → Life c → Prop :=
  Relation.ReflTransGen (Stage t parks revives beats)

/-- What every stage keeps, a life keeps. -/
theorem Lived.keeps {I : Life c → Prop} {l l' : Life c} (h : Lived t parks revives beats l l')
    (hI : ∀ l l', Stage t parks revives beats l l' → I l → I l') (hl : I l) : I l' := by
  induction h with
  | refl => exact hl
  | tail _ hst ih => exact hI _ _ hst ih

/-- Nobody is suspended or resumed but by a move of its own, and the tick is the one of the
tick handler. -/
theorem Move.uses_own (mv : Move c) (a : Atom c) (ha : mv.Uses a) :
    (∀ u, a = .park u ∨ a = .unpark u → mv = .one a) ∧ (a = .tick → mv = .tick ∨ mv = .one a) := by
  cases mv with
  | one x =>
    have he : a = x := ha
    subst he
    exact ⟨fun _ _ => rfl, fun _ => Or.inr rfl⟩
  | tick =>
    refine ⟨fun u hu => ?_, fun _ => Or.inl rfl⟩
    rcases hu with rfl | rfl <;> simp [Uses] at ha
  | giveUp | repriority | block | lock | lockIdle | unlock | delete | setEvent =>
    refine ⟨fun u hu => ?_, fun ht => ?_⟩
    · rcases hu with rfl | rfl <;> simp [Uses] at ha
    · subst ht
      simp [Uses] at ha

theorem Move.lived (mv : Move c) (h : Sound k) (hg : mv.guard k) (u : Place c)
    (hp : mv = .one (.park u) → parks (life k u)) (hr : mv = .one (.unpark u) → revives (life k u))
    (hb : mv = .tick → beats (life k u)) :
    Lived u parks revives beats (life k u) (life (mv.apply k) u) := by
  by_cases hone : ∃ a, mv = .one a
  · obtain ⟨a, rfl⟩ := hone
    refine .single (a.stage h hg.2 u (fun he => hp (by rw [he])) (fun he => hr (by rw [he]))
      fun he => ?_)
    subst he
    exact absurd hg.1 id
  by_cases htick : mv = .tick
  · subst htick
    have hs := (Atom.tick).sound h trivial
    have hone : Lived u parks revives beats (life k u) (life ((Atom.tick).apply k) u) :=
      .single ((Atom.tick).stage h trivial u (by simp) (by simp) fun _ => hb rfl)
    have hx : Atoms (fun a => ∃ t, a = .expire t) ((Atom.tick).apply k)
        (osTickExpire (c.places + 1) ((Atom.tick).apply k)) :=
      expire_atoms _ hs
    refine hx.keeps (I := fun s => Lived u parks revives beats (life k u) (life s u)) hs
      (fun s a hs hga ha hi => ?_) hone
    obtain ⟨t, rfl⟩ := ha
    exact hi.tail (Atom.stage _ hs hga u (by simp) (by simp) (by simp))
  · refine (mv.run h hg).keeps
      (I := fun s => Lived u parks revives beats (life k u) (life s u)) h
      (fun s a hs hga ha hi => ?_) .refl
    obtain ⟨hown, ht⟩ := mv.uses_own a ha
    refine hi.tail (a.stage hs hga u (fun he => ?_) (fun he => ?_) fun he => ?_)
    · exact absurd ⟨a, hown u (Or.inl he)⟩ hone
    · exact absurd ⟨a, hown u (Or.inr he)⟩ hone
    · rcases ht he with he | he
      · exact absurd he htick
      · exact absurd ⟨a, he⟩ hone

/-- An action is a sequence of stages in the life of every task. -/
theorem step_lived {a : Action c} (h : Rest k) (hs : k.step a = some k') (u : Place c)
    (hp : ∀ s, (Atom.park u).guard s → Allowed k a s (.one (.park u)) → parks (life s u))
    (hr : ∀ s, (Atom.unpark u).guard s → Allowed k a s (.one (.unpark u)) → revives (life s u))
    (hb : ∀ s, Allowed k a s .tick → beats (life s u)) :
    Lived u parks revives beats (life k u) (life k' u) := by
  have hm := (step_moves h.sound h.running h.noDead hs).1
  exact (hm.invariant (I := fun s => Sound s ∧ Lived u parks revives beats (life k u) (life s u))
    (fun s mv hg hi => ⟨mv.sound hi.1 hg.1, hi.2.trans (mv.lived hi.1 hg.1 u
      (fun he => by subst he; exact hp s hg.1.2 hg.2)
      (fun he => by subst he; exact hr s hg.1.2 hg.2)
      (fun he => by subst he; exact hb s hg.2))⟩) ⟨h.sound, .refl⟩).2

end

end AvrOs
