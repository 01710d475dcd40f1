import AvrOs.Exactness
import AvrOs.World

/-!
# Who runs after a switch

A switch leaves nobody ready who is more important than the task which runs. Calls end with a
switch or make nobody ready, so this holds wherever tasks run code of their own.
-/

namespace AvrOs
open Intrusive Transition Kernel

variable {c : Config} {k k' : ListKernel c}

/-- Nobody is ready who is more important than the task which runs. -/
def Top (k : ListKernel c) : Prop := ∀ t ∈ k.links .ready, k.priority t ≤ k.priority k.currentTask

theorem Top.congr (h : Top k) (hl : k'.links .ready = k.links .ready) (ht : k'.priority = k.priority)
    (hc : k'.currentTask = k.currentTask) : Top k' := by
  unfold Top
  rw [hl, ht, hc]
  exact h

/-- Fewer are ready, the others are what they have been. -/
theorem Top.fewer (h : Top k) (hl : ∀ t ∈ k'.links .ready, t ∈ k.links .ready)
    (ht : k'.priority = k.priority) (hc : k'.currentTask = k.currentTask) : Top k' := by
  intro t hm
  rw [ht, hc]
  exact h t (hl t hm)

/-! ### Switching -/

theorem Sound.ready_kind (h : Sound k) {t : Place c} (ht : t ∈ k.links .ready) :
    k.stateOf t = OS_TASK_READY := (h.linked.2 t).ready.mp ht

theorem Sound.current_unready (h : Sound k) (hr : Running k) : k.currentTask ∉ k.links .ready := by
  intro hm
  have hk := h.ready_kind hm
  rw [hr.kind] at hk
  simp at hk

theorem Sound.ready_bound (h : Sound k) {t : Place c} (ht : t ∈ k.links .ready) : k.priority t ≤ 254 := by
  by_cases hi : t = osIdleTask
  · subst hi
    have hm := h.notMain_of_ready (h.ready_kind ht)
    have hb := h.bounded.idle.1
    rw [priority]
    omega
  · exact (h.bounded.high t hi).1

theorem Sound.head_most (h : Sound k) {n : Place c} (hn : (k.links .ready).head? = some n) :
    ∀ t ∈ k.links .ready, k.priority t ≤ k.priority n := h.linked.1.ready.head_max n hn

theorem Sound.needed_iff (h : Sound k) {yield : ℕ} (hy : yield ≤ 1) : k.osScheduleNeeded yield = true ↔
    ∃ n, (k.links .ready).head? = some n ∧ k.priority k.currentTask < k.priority n + yield := by
  unfold osScheduleNeeded
  rw [head_lists]
  cases hn : (k.links .ready).head? with
  | none => simp
  | some n =>
    have hb := h.ready_bound (List.mem_of_head? hn)
    have hmod : (k.priority n + yield) % 256 = k.priority n + yield := Nat.mod_eq_of_lt (by omega)
    simp [hmod]

theorem dispatch_frame {n : Place c} (hn : (k.links .ready).head? = some n) :
    k.osDispatch.links .ready = (k.links .ready).tail ∧ k.osDispatch.priority = k.priority ∧
      k.osDispatch.currentTask = n := by
  rw [osDispatch_eq k n hn]
  refine ⟨?_, funext fun t => ?_, rfl⟩
  · exact Lists.pop_self k.links .ready
  · exact update_priority k.tasks n t { k.tasks n with state := OS_TASK_RUNNING } rfl

theorem dispatch_top (ho : Ordered k.priority (k.links .ready)) : Top k.osDispatch := by
  cases hn : (k.links .ready).head? with
  | none =>
    have he : k.osDispatch = k := by simp [osDispatch, hn]
    intro t ht
    rw [he, List.head?_eq_none_iff.mp hn] at ht
    cases ht
  | some n =>
    obtain ⟨hl, hp, hc⟩ := dispatch_frame hn
    intro t ht
    rw [hl] at ht
    rw [hp, hc]
    exact ho.head_max n hn t (List.mem_of_mem_tail ht)

theorem schedule_top (h : Sound k) (hr : Running k) {yield : ℕ} (hy : yield ≤ 1) :
    Top (k.osSchedule yield) := by
  rcases schedule_cases h hr yield hy with ⟨hn, he⟩ | ⟨-, s, -, hs, -, -, hg, he⟩
  · rw [he]
    intro t ht
    obtain ⟨n, hh⟩ := Option.ne_none_iff_exists'.mp (mt List.head?_eq_none_iff.mp (List.ne_nil_of_mem ht))
    have hle : k.priority t ≤ k.priority n := h.head_most hh t ht
    have hnot : ¬ k.priority k.currentTask < k.priority n + yield := fun hlt => by
      rw [(h.needed_iff hy).mpr ⟨n, hh, hlt⟩] at hn
      cases hn
    omega
  · rw [he]
    exact dispatch_top ((Atom.preempt _).sound hs hg).linked.1.ready

theorem sleep_ready (k : ListKernel c) (call : Call c) (list : Option (WaitList c))
    (timeout : OsTick c) : (k.sleep call list timeout).links .ready = k.links .ready := by
  rw [sleep_eq]
  dsimp only
  unfold onWait
  cases list with
  | none => rfl
  | some w =>
    dsimp only
    exact Lists.insert_of_ne _ _ _ _ _ (by simp)

/-- The current task is not ready, so it may settle and go to sleep without any effect on those who
are. -/
theorem sleep_top (h : Sound k) (hk : k.stateOf k.currentTask = OS_TASK_RUNNING) (call : Call c)
    (list : Option (WaitList c)) (timeout : OsTick c) :
    Top ((k.osSettle k.currentTask).sleep call list timeout).osDispatch := by
  refine dispatch_top ?_
  obtain ⟨p, hp⟩ := settle_eq k k.currentTask
  rw [sleep_ready, hp]
  refine h.linked.1.ready.congr fun t hm => ?_
  have hne : t ≠ k.currentTask := by
    rintro rfl
    have hready := h.ready_kind hm
    rw [hk] at hready
    simp at hready
  calc ((k.setPriority k.currentTask p).sleep call list timeout).priority t
    _ = (k.setPriority k.currentTask p).priority t := (sleep_rank _ call list timeout t).1
    _ = k.priority t := by rw [setPriority_priority, if_neg hne]

theorem block_top (h : Sound k) (hr : Running k) (call : Call c) (list : Option (WaitList c))
    (timeout : OsTick c) (ht : Top k) :
    Top (k.osBlock call list timeout).1 ∧ ((k.osBlock call list timeout).2 ≠ none →
      (k.osBlock call list timeout).1 = k) := by
  unfold osBlock
  dsimp only
  by_cases hi : k.currentTask = osIdleTask
  · rw [if_pos hi, setState_running hr]
    exact ⟨ht, fun _ => rfl⟩
  · rw [if_neg hi]
    exact ⟨sleep_top h hr.kind call list timeout, fun hf => absurd rfl hf⟩

theorem returns_top (ht : Top k) (call : Call c) (v : Value c) : Top (k.returns call v) := ht

theorem blockThen_top (h : Sound k) (hr : Running k) (call : Call c) (list : Option (WaitList c))
    (timeout : OsTick c) (v : Bool → Value c) (ht : Top k) :
    Top (k.blockThen call list timeout fun k r => k.returns call (v r)) := by
  obtain ⟨hb, hs⟩ := block_top h hr call list timeout ht
  unfold blockThen
  split
  case h_1 k' result he =>
    rw [he] at hb
    exact returns_top hb call (v result)
  case h_2 k' he =>
    rw [he] at hb
    exact hb

/-- What is put into its frame is nothing to the invariant. -/
theorem returned_sound (h : Sound k) (call : Call c) (v : Value c) : Sound (k.returns call v) :=
  setFrame_sound h k.currentTask _

/-- The end of a call which may have made others ready. -/
theorem returned_top (h : Sound k) (hr : Running k) (call : Call c) (v : Value c) {yield : ℕ}
    (hy : yield ≤ 1) : Top ((k.returns call v).osSchedule yield) :=
  schedule_top (returned_sound h call v) hr hy

/-! ### Calls -/

theorem osTaskCreate_top (h : Sound k) (hr : Running k) (hn : NoDead k) (t : Place c) (p : Byte)
    (d : Bool) (hl : k.legal (.osTaskCreate t p d)) : Top (k.osTaskCreate t p d) := by
  have hg : (Atom.create t p.toNat d).guard k := ⟨hl.1, hl.2, fun hinh m ho => hn hinh m t ho hl.1⟩
  exact returned_top ((Atom.create t p.toNat d).sound h hg) (create_running hr t p.toNat d hl.1) _ _
    (Nat.zero_le 1)

theorem osTaskDelete_top (h : Sound k) (hr : Running k) (o : Option (Place c)) (ht : Top k) :
    Top (k.osTaskDelete o) := by
  have hs := returned_sound h (.osTaskDelete o) .void
  unfold osTaskDelete
  dsimp only
  split
  case isTrue hc =>
    have hd := (Move.delete (o.getD k.currentTask)).sound hs hc
    split
    case isTrue he => exact dispatch_top hd.linked.1.ready
    case isFalse he =>
      refine schedule_top hd ?_ (Nat.zero_le 1)
      have hb : (k.returns (.osTaskDelete o) .void).stateOf k.currentTask ≠ OS_TASK_BLOCKED := by
        show k.stateOf k.currentTask ≠ _
        rw [hr.kind]
        simp
      have hk := delete_frame hs (o.getD k.currentTask) hc.1 hc.2 k.currentTask (Ne.symm he) hb
      rw [Running, Move.apply, delete_current hs _ hc.1 hc.2]
      exact (congrArg OsTask.state hk).trans hr
  case isFalse => exact ht

theorem osTaskSuspend_top (h : Sound k) (o : Option (Place c)) (ht : Top k) :
    Top (k.osTaskSuspend o) := by
  have hs := returned_sound h (.osTaskSuspend o) .void
  unfold osTaskSuspend
  dsimp only
  split
  case isTrue hc =>
    have hg : (Atom.park (o.getD k.currentTask)).guard (k.returns (.osTaskSuspend o) .void) :=
      ⟨hc.1, hc.2.2, hc.2.1⟩
    split
    case isTrue he => exact dispatch_top ((Atom.park _).sound hs hg).linked.1.ready
    case isFalse he =>
      refine ht.fewer (fun t hm =>
        (detach_sublist (k.returns (.osTaskSuspend o) .void) _ _).subset hm) ?_
        (detach_frame (k.returns (.osTaskSuspend o) .void) _).1
      exact funext fun t => ((Atom.park _).same_rank hs hg (by simp [Atom.Ranks]) t).1
  case isFalse => exact ht

theorem osTaskResume_top (h : Sound k) (hr : Running k) (t : Place c) : Top (k.osTaskResume t) := by
  have hs : Sound (k.osTaskResumeFromISR t) :=
    ((osTaskResumeFromISR_moves (a := .isrCall (.osTaskResumeFromISR t)) hr t (Or.inr rfl)).1).sound h
  exact returned_top hs (unpark_running hr t) _ _ (Nat.zero_le 1)

theorem osTaskSetPriority_top (h : Sound k) (hr : Running k) (o : Option (Place c)) (p : Byte) :
    Top (k.osTaskSetPriority o p) := by
  have hs := returned_sound h (.osTaskSetPriority o p) .void
  have hm := (Move.repriority (o.getD k.currentTask) (osTaskPriority p.toNat)).sound hs
    (osTaskPriority_bounds p.toNat)
  exact schedule_top hm ((repriority_same _ _ _).running hr) (Nat.zero_le 1)

/-- A queue which is full or empty: the task sleeps, or it is the idle task and does not. -/
theorem osQueueBlock_top (h : Sound k) (hr : Running k) (call : Call c) (q : Place c) (item : Address)
    (timeout : OsTick c) (ht : Top k) {k' : ListKernel c} {o : Option Bool}
    (hb : (k.setWait k.currentTask (.item item)).osBlock call (some (.queue q)) timeout = (k', o)) :
    Top k' ∧ ∀ r, o = some r → Top (osQueueRest call k' r) := by
  have hs := setWait_sound h k.currentTask (.item item)
  have hr' : Running (k.setWait k.currentTask (.item item)) := by
    simpa [Running, setWait, setTask] using hr
  have hp : (k.setWait k.currentTask (.item item)).priority = k.priority :=
    funext fun t => update_priority _ _ _ _ rfl
  obtain ⟨htop, hsame⟩ := block_top hs hr' call (some (.queue q)) timeout (ht.congr rfl hp rfl)
  rw [hb] at htop hsame
  refine ⟨htop, fun r ho => ?_⟩
  obtain rfl : k' = k.setWait k.currentTask (.item item) := hsame (by rw [ho]; simp)
  exact returned_top hs hr' _ _ (Nat.zero_le 1)

theorem osQueueSend_top (h : Sound k) (hr : Running k) (q : Place c) (item : Address)
    (timeout : OsTick c) (ht : Top k) : Top (k.osQueueSend q item timeout) := by
  unfold osQueueSend
  dsimp only
  rcases osQueuePut_cases k (.osQueueSend q item timeout) q item timeout with ⟨r, he⟩ | ⟨-, -, -, he⟩
  · rw [he]
    exact returned_top (send_sound h q item) (send_running h hr q item) _ _ (Nat.zero_le 1)
  · rw [he]
    split
    case h_1 k' r hb => exact (osQueueBlock_top h hr _ q item timeout ht hb).2 r rfl
    case h_2 k' hb => exact (osQueueBlock_top h hr _ q item timeout ht hb).1

theorem osQueueReceive_top (h : Sound k) (hr : Running k) (q : Place c) (item : Address)
    (timeout : OsTick c) (ht : Top k) : Top (k.osQueueReceive q item timeout) := by
  unfold osQueueReceive
  dsimp only
  rcases osQueueGet_cases k (.osQueueReceive q item timeout) q item timeout with ⟨r, he⟩ | ⟨-, -, he⟩
  · rw [he]
    exact returned_top (receive_sound h q item) (receive_running h hr q item) _ _ (Nat.zero_le 1)
  · rw [he]
    split
    case h_1 k' r hb => exact (osQueueBlock_top h hr _ q item timeout ht hb).2 r rfl
    case h_2 k' hb => exact (osQueueBlock_top h hr _ q item timeout ht hb).1

theorem osEventWait_top (h : Sound k) (hr : Running k) (e : Place c) (flags options : Byte)
    (timeout : OsTick c) (ht : Top k) : Top (k.osEventWait e flags options timeout) := by
  unfold osEventWait
  dsimp only
  split
  case isTrue hm =>
    obtain ⟨htk, hl, hcur, -, -⟩ := consume_frame k e (osEventMatch (k.events e) flags options) options
    exact ht.congr (congrFun hl _) (funext fun t => congrArg OsTask.priority (congrFun htk t)) hcur
  case isFalse hm =>
    split
    case isTrue htime =>
      have hs := setWait_sound h k.currentTask (.event flags options)
      have hr' : Running (k.setWait k.currentTask (.event flags options)) := by
        simpa [Running, setWait, setTask] using hr
      have hp : (k.setWait k.currentTask (.event flags options)).priority = k.priority :=
        funext fun t => update_priority _ _ _ _ rfl
      obtain ⟨htop, -⟩ := block_top hs hr' (.osEventWait e flags options timeout) (some (.event e))
        timeout (ht.congr rfl hp rfl)
      unfold blockThen
      split
      case h_1 k' r hb =>
        rw [hb] at htop
        exact returns_top htop _ _
      case h_2 k' hb =>
        rw [hb] at htop
        exact htop
    case isFalse => exact ht

/-- Somebody else is less important than before. -/
theorem requeue_top (h : Sound k) (ht : Top k) {t : Place c} {p : ℕ} (hne : k.currentTask ≠ t)
    (hp : p ≤ k.priority t) : Top ((k.setPriority t p).osRequeue t) := by
  intro u hu
  have hm := ht u ((requeue_mem h.linked p .ready u).mp hu)
  rw [(requeue_same k t p).current, requeue_priority, requeue_priority, if_neg hne]
  split
  case isTrue he =>
    subst he
    exact hp.trans hm
  case isFalse => exact hm

/-- The owner may be the current task, as long as what it inherits is enough. -/
theorem giveUp_top (h : Sound k) (hr : Running k) (ht : Top k) (m : Place c)
    (hown : k.owner m = some k.currentTask →
      ∀ t ∈ k.links .ready, k.priority t ≤ k.osInheritedPriority k.currentTask) :
    Top (giveUp k m) := by
  unfold giveUp
  split
  case h_1 owner ho =>
    split
    case isTrue hlt =>
      by_cases hc : k.currentTask = owner
      · subst hc
        intro t hm
        have hready := (requeue_mem h.linked _ .ready t).mp hm
        have hne : t ≠ k.currentTask := by
          rintro rfl
          exact h.current_unready hr hready
        rw [(requeue_same k _ _).current, requeue_priority, requeue_priority, if_pos rfl, if_neg hne]
        exact hown ho t hready
      · exact requeue_top h ht hc hlt.le
    case isFalse => exact ht
  case h_2 => exact ht

theorem unlock_running (h : Sound k) (hr : Running k) (m : Place c) : Running (unlock k m) := by
  obtain ⟨hcur, hst⟩ := release_frame h k.currentTask m k.currentTask (by rw [hr.kind]; simp)
  have hrr : Running ((Atom.release k.currentTask m).apply k) := by
    rw [Running, hcur]
    exact (congrArg OsTask.state hst).trans hr
  unfold unlock
  dsimp only
  split
  · exact (setPriority_same _ _ _).running hrr
  · exact hrr

/-- Nobody is raised above the task which does the raise. -/
theorem urge_top (h : Sound k) (owner : Place c) (hs : Sound (urge k owner)) (ht : Top k) :
    Top (urge k owner) := by
  intro t hm
  have hready : t ∈ k.links .ready := by
    have hkind := hs.ready_kind hm
    rw [urge_state] at hkind
    exact (h.linked.2 t).ready.mpr hkind
  rw [(urge_same k owner).1, urge_priorities h]
  calc Donation.raise (lends k) (c.places + 1) k.priority owner (k.priority k.currentTask) t
    _ ≤ max (k.priority t) (k.priority k.currentTask) := Donation.raise_le ..
    _ = k.priority k.currentTask := max_eq_right (ht t hready)
    _ ≤ _ := Donation.le_raise ..

/-- A task has raised itself, which means nothing. -/
theorem urge_self (k : ListKernel c) : urge k k.currentTask =
    k.setState k.currentTask ((k.tasks k.currentTask).state ||| OS_TASK_MUTEX) := by
  have he : k.osPriorityRaise k.currentTask (k.priority k.currentTask) = k := by
    simp [osPriorityRaise, osPriorityRaiseLoop]
  rw [urge, he]

theorem lock_top (h : Sound k) (hr : Running k) (call : Call c) {m owner : Place c}
    (timeout : OsTick c) (ht : Top k) (hinh : c.mutexInheritance = true) (ho : k.owner m = some owner)
    (hidle : k.currentTask = osIdleTask → owner = osIdleTask →
      ∀ t ∈ k.links .ready, k.priority t ≤ k.osInheritedPriority k.currentTask) :
    Top ((urge k owner).blockThen call (some (.mutex m)) timeout (osMutexTryLockRest call m)) := by
  obtain ⟨hcur, hown, -, -, hst⟩ := urge_same k owner
  have hs : Sound (urge k owner) :=
    (urge_run (P := fun _ => True) (fun _ _ => trivial) trivial h owner hinh hr.kind
      (h.raise_bound ho)).sound h
  have hk : (urge k owner).stateOf (urge k owner).currentTask = OS_TASK_RUNNING := by
    rw [hcur, urge_state]
    exact hr.kind
  have htop := urge_top h owner hs ht
  unfold blockThen osBlock
  dsimp only
  by_cases hi : (urge k owner).currentTask = osIdleTask
  · rw [if_pos hi]
    dsimp only
    rw [rest_eq, undo, if_pos ⟨hinh, rfl⟩]
    have hflag : Sound ((urge k owner).setState (urge k owner).currentTask OS_TASK_RUNNING) :=
      (Atom.unflag).sound hs hk
    have hp : ((urge k owner).setState (urge k owner).currentTask OS_TASK_RUNNING).priority =
        (urge k owner).priority := funext fun t => update_priority _ _ _ _ rfl
    have hrun : Running ((urge k owner).setState (urge k owner).currentTask OS_TASK_RUNNING) := by
      simp [Running, setState, setTask]
    refine returns_top (giveUp_top hflag hrun (htop.congr rfl hp rfl) m fun hself => ?_) _ _
    have hoc : k.currentTask = owner := by
      have he : (urge k owner).owner m = some (urge k owner).currentTask := hself
      rw [hown, ho, hcur] at he
      exact (Option.some.inj he).symm
    subst hoc
    have hsame : (urge k k.currentTask).setState (urge k k.currentTask).currentTask OS_TASK_RUNNING =
        k := by
      rw [hcur, urge_self]
      simp only [setState, setTask, Function.update_self, Function.update_idem]
      exact setState_running hr
    rw [hsame]
    exact hidle (hcur ▸ hi) (hcur ▸ hi)
  · rw [if_neg hi]
    exact sleep_top hs hk call (some (.mutex m)) timeout

theorem osMutexTryLock_top (h : Sound k) (hr : Running k) (call : Call c) (m : Place c)
    (timeout : OsTick c) (ht : Top k)
    (hidle : c.mutexInheritance = true → timeout ≠ OS_NO_WAIT c → k.currentTask = osIdleTask →
      k.owner m = some osIdleTask →
      ∀ t ∈ k.links .ready, k.priority t ≤ k.osInheritedPriority k.currentTask) :
    Top (k.osMutexTryLock call m timeout) := by
  unfold osMutexTryLock
  dsimp only
  split
  case h_1 ho =>
    refine returns_top (ht.congr ?_ ?_ ?_) _ _
    all_goals rw [osMutexOwn_eq]
    rfl
  case h_2 owner ho =>
    split
    case isTrue => exact ht
    case isFalse hwait =>
      split
      case isTrue hinh =>
        exact lock_top h hr call timeout ht hinh ho fun hi he => hidle hinh hwait hi (by rw [ho, he])
      case isFalse hinh =>
        obtain ⟨htop, hsame⟩ := block_top h hr call (some (.mutex m)) timeout ht
        unfold blockThen
        split
        case h_1 k' r hb =>
          rw [hb] at htop hsame
          rw [rest_eq, undo, if_neg (fun hc => hinh hc.1)]
          exact returns_top htop _ _
        case h_2 k' hb =>
          rw [hb] at htop
          exact htop

theorem osMutexUnlock_top (h : Sound k) (hr : Running k) (m : Place c)
    (he : Called k (.osMutexUnlock m)) (ht : Top k) : Top (k.osMutexUnlock m) := by
  have hs := returned_sound h (.osMutexUnlock m) .void
  unfold osMutexUnlock
  dsimp only
  split
  case isTrue ho =>
    have hg : (Move.unlock m).guard (k.returns (.osMutexUnlock m) .void) :=
      ⟨hr.kind, ho, Or.inr ⟨hr.kind, ⟨.void, Function.update_self ..⟩, k.mine (.osMutexUnlock m), he⟩⟩
    have hu : Running (unlock (k.returns (.osMutexUnlock m) .void) m) := unlock_running hs hr m
    exact schedule_top ((Move.unlock m).sound hs hg) hu (Nat.zero_le 1)
  case isFalse => exact ht

/-- Calls leave nobody ready who should be running. -/
theorem exec_top (h : Sound k) (hr : Running k) (hn : NoDead k) (x : Call c) (hx : Called k x)
    (hidle : ∀ m timeout, c.mutexInheritance = true → Locks x m timeout → timeout ≠ OS_NO_WAIT c →
      k.currentTask = osIdleTask → k.owner m = some osIdleTask →
      ∀ t ∈ k.links .ready, k.priority t ≤ k.osInheritedPriority k.currentTask)
    (hl : k.legal x) (ht : Top k) : Top (k.exec x) := by
  cases x with
  | osTaskCreate t p d => exact osTaskCreate_top h hr hn t p d hl
  | osTaskDelete t => exact osTaskDelete_top h hr t ht
  | osTaskSuspend t => exact osTaskSuspend_top h t ht
  | osTaskResume t => exact osTaskResume_top h hr t
  | osTaskSetPriority t p => exact osTaskSetPriority_top h hr t p
  | osTaskReap =>
    have hl : (k.osTaskReap).links .ready = k.links .ready :=
      Lists.pop_of_ne k.links .dead .ready (by simp)
    exact ht.congr hl rfl rfl
  | osYield => exact returned_top h hr _ _ le_rfl
  | osDelay ticks =>
    show Top (k.osDelay ticks)
    unfold osDelay
    dsimp only
    split
    · exact blockThen_top h hr (.osDelay ticks) none ticks (fun _ => .void) ht
    · exact returned_top h hr _ _ le_rfl
  | osDelayUntil previous period =>
    show Top (k.osDelayUntil previous period)
    unfold osDelayUntil
    dsimp only
    have hs : Sound { k with
        tickVars := Function.update k.tickVars previous (k.tickVars previous + period) } :=
      h.congr rfl rfl rfl rfl rfl rfl
    split
    · exact blockThen_top hs hr (.osDelayUntil previous period) none _ (fun _ => .void) ht
    · exact ht.congr rfl rfl rfl
  | osMutexInit m =>
    have he : (k.osMutexInit m).links = Lists.clear k.links (.wait (.mutex m)) ∧
        (k.osMutexInit m).tasks = k.tasks ∧ (k.osMutexInit m).currentTask = k.currentTask := by
      unfold osMutexInit
      dsimp only
      split <;> exact ⟨rfl, rfl, rfl⟩
    refine ht.congr ?_ (funext fun t => congrArg OsTask.priority (congrFun he.2.1 t)) he.2.2
    rw [exec, he.1, clear_empty hl.1]
  | osMutexTryLock m timeout =>
    exact osMutexTryLock_top h hr _ m timeout ht fun hinh hne =>
      hidle m timeout hinh (Or.inl rfl) hne
  | osMutexLock m =>
    exact osMutexTryLock_top h hr _ m _ ht fun hinh hne =>
      hidle m _ hinh (Or.inr ⟨rfl, rfl⟩) hne
  | osMutexUnlock m => exact osMutexUnlock_top h hr m hx ht
  | osSemaphoreInit s count limit =>
    have he : (k.osSemaphoreInit s count limit).links .ready = k.links .ready :=
      congrFun (clear_empty hl) .ready
    exact ht.congr he rfl rfl
  | osSemaphoreTake s timeout =>
    show Top (k.osSemaphoreTake s timeout)
    unfold osSemaphoreTake
    dsimp only
    split
    · exact ht.congr rfl rfl rfl
    · split
      · exact ht
      · exact blockThen_top h hr (.osSemaphoreTake s timeout) (some (.semaphore s)) timeout .bool ht
  | osSemaphoreGive s => exact returned_top (give_sound h s) (give_running h hr s) _ _ (Nat.zero_le 1)
  | osQueueInit q itemSize length =>
    have he : (k.osQueueInit q itemSize length).links .ready = k.links .ready :=
      congrFun (clear_empty hl) .ready
    exact ht.congr he rfl rfl
  | osQueueSend q item timeout => exact osQueueSend_top h hr q item timeout ht
  | osQueueReceive q item timeout => exact osQueueReceive_top h hr q item timeout ht
  | osEventInit e =>
    have he : (k.osEventInit e).links .ready = k.links .ready := congrFun (clear_empty hl) .ready
    exact ht.congr he rfl rfl
  | osEventWait e flags options timeout => exact osEventWait_top h hr e flags options timeout ht
  | osEventSet e flags =>
    exact returned_top ((Move.setEvent e flags).sound h trivial) (setEvent_running h hr e flags) _ _
      (Nat.zero_le 1)
  | osEventClear e flags => exact ht
  | osTimerStart tm delay period function => exact ht
  | osTimerStop tm => exact ht

/-! ### The mode of the processor and the aging counter -/

theorem Atom.IsQuiet.alone {x : Atom c} (hx : x.IsQuiet) : x.Alone := by
  cases x with
  | quiet => trivial
  | _ => exact absurd hx id

theorem Moves.mode {b : ListKernel c} {a : Action c} (hm : Moves b a k k') (hs : Sound k)
    (ha : ¬ a.Switches) : k'.mode = k.mode := by
  refine (hm.invariant (I := fun s => Sound s ∧ s.mode = k.mode) (fun s mv hg hi => ?_) ⟨hs, rfl⟩).2
  refine ⟨mv.sound hi.1 hg.1, ?_⟩
  by_cases hq : ∃ x : Atom c, mv = .one x ∧ x.IsQuiet
  · obtain ⟨x, rfl, hx⟩ := hq
    cases x with
    | quiet memory tickVars aging timers timersLinks mode =>
      obtain ⟨-, hmode, -⟩ := hg.2
      exact (hmode.resolve_right ha).trans hi.2
    | _ => exact absurd hx id
  · refine (mv.run hi.1 hg.1).keeps (I := fun s => s.mode = k.mode) hi.1 (fun s x hs hx hu hmode => ?_) hi.2
    exact ((x.kept hs hx).mode fun hxq => hq ⟨x, Move.uses_alone hu hxq.alone, hxq⟩).trans hmode

/-- Nobody but the tick counts down to the next aging pass. -/
theorem Moves.aging {b : ListKernel c} {a : Action c} (hm : Moves b a k k') (hs : Sound k)
    (ha : a ≠ .tickLeave) : k'.aging = k.aging := by
  refine (hm.invariant (I := fun s => Sound s ∧ s.aging = k.aging) (fun s mv hg hi => ?_) ⟨hs, rfl⟩).2
  refine ⟨mv.sound hi.1 hg.1, ?_⟩
  by_cases hq : ∃ x : Atom c, mv = .one x ∧ x.IsQuiet
  · obtain ⟨x, rfl, hx⟩ := hq
    cases x with
    | quiet memory tickVars aging timers timersLinks mode =>
      obtain ⟨-, -, hage⟩ := hg.2
      exact (hage.resolve_right ha).trans hi.2
    | _ => exact absurd hx id
  · refine (mv.run hi.1 hg.1).keeps (I := fun s => s.aging = k.aging) hi.1 (fun s x hs hx hu hage => ?_) hi.2
    exact ((x.apart hs hx).aging fun hxq => hq ⟨x, Move.uses_alone hu hxq.alone, hxq⟩).trans hage

/-- A timer which is due is nothing to the tasks. -/
theorem osTimerTick_same (k : ListKernel c) (tm : Place c) : (k.osTimerTick tm).links = k.links ∧
    (k.osTimerTick tm).tasks = k.tasks ∧ (k.osTimerTick tm).currentTask = k.currentTask ∧
    (k.osTimerTick tm).frames = k.frames := by
  unfold osTimerTick
  dsimp only
  split <;> exact ⟨rfl, rfl, rfl, rfl⟩

/-! ### Actions -/

/-- A task which has waited for a mutex of its own may be left with less than others have. -/
theorem execRest_top (h : Sound k) (hr : Running k) (call : Call c) (r : Bool)
    (hx : ∀ m, c.mutexInheritance = true → call.mutex = some m → r = false →
      k.owner m = some k.currentTask →
      ∀ t ∈ k.links .ready, k.priority t ≤ k.osInheritedPriority k.currentTask) (ht : Top k) :
    Top (k.execRest call r) := by
  have hundo : ∀ m, call.mutex = some m → Top (osMutexTryLockRest call m k r) := by
    intro m hm
    rw [rest_eq]
    refine returns_top ?_ _ _
    unfold undo
    split
    case isTrue hc => exact giveUp_top h hr ht m (hx m hc.1 hm hc.2)
    case isFalse => exact ht
  cases call with
  | osMutexTryLock m timeout => exact hundo m rfl
  | osMutexLock m => exact hundo m rfl
  | osQueueSend q item timeout => exact returned_top h hr _ _ (Nat.zero_le 1)
  | osQueueReceive q item timeout => exact returned_top h hr _ _ (Nat.zero_le 1)
  | _ => exact ht

theorem osRun_top (h : Sound k) (hr : Running k) (hi : k.currentTask = osIdleTask) :
    Top k.osRun := by
  have hm : Atoms (fun _ => True) k ((Atom.start).apply k) :=
    Atoms.one .start ⟨hi, hr.kind⟩ trivial
  have hs := setFrame_sound (hm.sound h) osIdleTask (some .preempted)
  have hr' : Running (((Atom.start).apply k).setFrame osIdleTask (some .preempted)) := by
    show (Function.update k.tasks osIdleTask _ k.currentTask).state = _
    rw [hi, Function.update_self, ← hr, hi]
  exact schedule_top hs hr' (Nat.zero_le 1)

/-- A task which owns the mutex it has been waiting for, or the idle task which would have to wait for
its own one, is about to be set back to less than somebody has who is ready. -/
def Kernel.FallsBehind {S : Type → Type → Type} [LinkStore S] (k : Kernel c S) (a : Action c) : Prop :=
  c.mutexInheritance = true ∧
  (∃ m, k.owner m = some k.currentTask ∧
    ((a.mayWaitFor = some m ∧ k.currentTask = osIdleTask) ∨
      (a = .resume ∧ (k.tasks k.currentTask).result = false ∧
        ∃ call, k.frames k.currentTask = some (.blocked call) ∧ call.mutex = some m))) ∧
  ∃ t ∈ LinkStore.toList k.links .ready, k.osInheritedPriority k.currentTask < k.priority t

/-- Wherever a task runs, and not a handler, nobody else should be running instead. -/
theorem step_top {a : Action c} (h : Rest k) (hself : ¬ k.FallsBehind a)
    (hisr : k.mode ≠ .isr false) (ht : k.mode = .thread → Top k) (hs : k.step a = some k')
    (hmode : k'.mode = .thread) : Top k' := by
  have hmoves := (step_moves h.sound h.running h.noDead hs).1
  cases a with
  | run =>
    simp only [step] at hs
    split at hs
    case isTrue hc =>
      injection hs with hs
      exact hs ▸ osRun_top h.sound h.running hc.2.1
    case isFalse => cases hs
  | call x =>
    simp only [step] at hs
    split at hs
    case isTrue hc =>
      injection hs with hs
      have he : Sound (k.emit (.called k.currentTask x (k.mine x))) :=
        h.sound.congr rfl rfl rfl rfl rfl rfl
      have ht' : Top (k.emit (.called k.currentTask x (k.mine x))) := ht hc.1.1
      have hx : Called (k.emit (.called k.currentTask x (k.mine x))) x :=
        ⟨k.history k.currentTask, List.filter_cons_of_pos (decide_eq_true rfl)⟩
      refine hs ▸ exec_top he h.running h.noDead x hx (fun m timeout hinh hm hne hi ho t hready => ?_) hc.2 ht'
      have hoc : k.owner m = some k.currentTask := by
        rw [show k.currentTask = osIdleTask from hi]
        exact ho
      exact le_of_not_gt fun hlt =>
        hself ⟨hinh, ⟨m, hoc, Or.inl ⟨hm.mayWaitFor hne, hi⟩⟩, t, hready, hlt⟩
    case isFalse => cases hs
  | resume =>
    simp only [step] at hs
    split at hs
    case isTrue hm =>
      split at hs
      case h_1 =>
        injection hs with hs
        exact hs ▸ ht hm
      case h_2 =>
        injection hs with hs
        exact hs ▸ ht hm
      case h_3 call hf =>
        injection hs with hs
        refine hs ▸ execRest_top h.sound h.running call _ (fun m hinh hm hr ho t hready => ?_) (ht hm)
        exact le_of_not_gt fun hlt =>
          hself ⟨hinh, ⟨m, ho, Or.inr ⟨rfl, hr, call, hf, hm⟩⟩, t, hready, hlt⟩
      case h_4 => cases hs
    case isFalse => cases hs
  | isrEnter os =>
    simp only [step] at hs
    split at hs
    · injection hs with hs
      rw [← hs] at hmode
      cases hmode
    · cases hs
  | isrCall x =>
    have hsame := hmoves.mode h.sound (by simp [Action.Switches])
    simp only [step] at hs
    rw [hmode] at hsame
    rw [← hsame] at hs
    cases hs
  | isrLeave =>
    simp only [step] at hs
    split at hs
    · injection hs with hs
      have hsound : Sound { k with mode := .thread } := h.sound.congr rfl rfl rfl rfl rfl rfl
      exact hs ▸ schedule_top hsound h.running (Nat.zero_le 1)
    case h_2 hm => exact absurd hm hisr
    · cases hs
  | tickEnter =>
    simp only [step] at hs
    split at hs
    · injection hs with hs
      rw [← hs] at hmode
      cases hmode
    · cases hs
  | tickTimer =>
    simp only [step] at hs
    split at hs
    · split at hs
      · injection hs with hs
        rw [← hs] at hmode
        cases hmode
      · cases hs
    · cases hs
  | tickLeave =>
    simp only [step] at hs
    split at hs
    · split at hs
      · injection hs with hs
        have hsound : Sound { k with mode := .thread } := h.sound.congr rfl rfl rfl rfl rfl rfl
        obtain ⟨hm, hr⟩ := osAge_moves (b := k) hsound h.running rfl
        exact hs ▸ schedule_top (hm.sound hsound) hr (by split <;> omega)
      · cases hs
    · cases hs
  | store p x =>
    simp only [step] at hs
    split at hs
    case isTrue hu =>
      injection hs with hs
      exact hs ▸ (ht hu.1).congr rfl rfl rfl
    case isFalse => cases hs
  | setTickVar p x =>
    simp only [step] at hs
    split at hs
    case isTrue hu =>
      injection hs with hs
      exact hs ▸ (ht hu.1).congr rfl rfl rfl
    case isFalse => cases hs

end AvrOs
