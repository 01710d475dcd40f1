import AvrOs.Foremost

/-!
# Calls nobody notices

As long as nobody waits for anything, calls which leave the processor where it is change nothing
about the tasks.
-/

namespace AvrOs
open Intrusive Transition Kernel

variable {c : Config} {k k' : ListKernel c}

/-- Lists, states and priorities are what they have been. -/
structure Quiet (k k' : ListKernel c) : Prop where
  lists : ∀ l, l ≠ .dead → k'.links l = k.links l
  kind : k'.stateOf = k.stateOf
  rank : SameRank k k'
  current : k'.currentTask = k.currentTask
  mode : k'.mode = k.mode
  frame : ∀ call, k'.frames k.currentTask = some (.blocked call) → k.frames k.currentTask = some (.blocked call)

theorem Quiet.trans {k₁ : ListKernel c} (h : Quiet k k₁) (h' : Quiet k₁ k') : Quiet k k' :=
  ⟨fun l hl => (h'.lists l hl).trans (h.lists l hl), h'.kind.trans h.kind, h.rank.trans h'.rank, h'.current.trans h.current,
    h'.mode.trans h.mode, fun call hf => h.frame call (by
      have := h'.frame call
      rw [h.current] at this
      exact this hf)⟩

/-- Nothing but what the kernel does not look at. -/
theorem Quiet.same (hl : k'.links = k.links) (ht : k'.tasks = k.tasks)
    (hc : k'.currentTask = k.currentTask) (hm : k'.mode = k.mode)
    (hf : k'.frames k.currentTask = k.frames k.currentTask) : Quiet k k' :=
  ⟨fun l _ => congrFun hl l, funext fun t => by rw [stateOf, stateOf, ht], .of_tasks ht, hc, hm, fun _ h => hf ▸ h⟩

theorem quiet_refl (k : ListKernel c) : Quiet k k := .same rfl rfl rfl rfl rfl

theorem returns_quiet (k : ListKernel c) (call : Call c) (v : Value c) : Quiet k (k.returns call v) := by
  refine ⟨fun _ _ => rfl, rfl, .refl k, rfl, rfl, fun call' hf => ?_⟩
  simp [returns, setFrame] at hf

theorem ended_quiet (h : Quiet k k') (call : Call c) (v : Value c) : Quiet k (k'.returns call v) :=
  h.trans (returns_quiet k' call v)

theorem emit_quiet (k : ListKernel c) (e : Event c) : Quiet k (k.emit e) := .same rfl rfl rfl rfl rfl

/-- There is nobody anybody could wake up. -/
structure Awake (k : ListKernel c) : Prop where
  waiters : ∀ w, k.links (.wait w) = []
  suspended : ∀ t, k.stateOf t ≠ OS_TASK_SUSPENDED

theorem give_quiet (h : Awake k) (s : Place c) : Quiet k (k.osSemaphoreGiveFromISR s) := by
  rcases give_cases k s with ⟨w, rest, hl, -⟩ | ⟨-, -, he⟩ | ⟨-, -, he⟩
  · rw [h.waiters] at hl
    cases hl
  · rw [he]
    exact .same rfl rfl rfl rfl rfl
  · rw [he]
    exact .same rfl rfl rfl rfl rfl

theorem send_quiet (h : Awake k) (q : Place c) (item : Address) : Quiet k (k.osQueueSendFromISR q item) := by
  rcases send_cases k q item with ⟨w, rest, hl, -⟩ | ⟨-, -, he⟩ | ⟨-, -, he⟩
  · rw [h.waiters] at hl
    cases hl
  · rw [he]
    exact .same (by rw [append_links]) (append_tasks k q item) (append_current k q item) rfl
      (by rw [append_frames])
  · rw [he]
    exact quiet_refl k

theorem receive_quiet (h : Awake k) (q : Place c) (item : Address) :
    Quiet k (k.osQueueReceiveFromISR q item) := by
  rcases receive_cases k q item with ⟨w, rest, hl, -⟩ | ⟨-, -, he⟩ | ⟨-, he⟩
  · rw [h.waiters] at hl
    cases hl
  · rw [he]
    exact .same (by rw [take_links]) (take_tasks k q item) (take_current k q item) rfl (by rw [take_frames])
  · rw [he]
    exact quiet_refl k

theorem setEvent_quiet (h : Awake k) (hs : Sound k) (e : Place c) (flags : Byte) :
    Quiet k (k.osEventSetFromISR e flags) := by
  rw [setEvent_eq hs, h.waiters]
  exact .same rfl rfl rfl rfl rfl

theorem unpark_quiet (h : Awake k) (t : Place c) : Quiet k (k.osTaskResumeFromISR t) := by
  rw [osTaskResumeFromISR, if_neg (h.suspended t)]
  exact quiet_refl k

/-- A handler has nobody to wake up. -/
theorem execIsr_quiet (h : Awake k) (hs : Sound k) (x : IsrCall c) : Quiet k (k.execIsr x) := by
  cases x with
  | osTaskResumeFromISR t => exact unpark_quiet h t
  | osSemaphoreGiveFromISR s => exact give_quiet h s
  | osQueueSendFromISR q item => exact send_quiet h q item
  | osQueueReceiveFromISR q item => exact receive_quiet h q item
  | osEventSetFromISR e flags => exact setEvent_quiet h hs e flags
  | osEventClear | osTimerStart | osTimerStop | store => exact .same rfl rfl rfl rfl rfl

theorem Awake.quiet (h : Awake k) (hq : Quiet k k') : Awake k' :=
  ⟨fun w => by rw [hq.lists _ (by simp), h.waiters], fun t => by rw [hq.kind]; exact h.suspended t⟩

/-- Nothing is lent to anybody. -/
theorem Awake.inherited (h : Awake k) (t : Place c) : k.osInheritedPriority t = (k.tasks t).basePriority := by
  have hone : ∀ (ms : List (Place c)) (p : ℕ), ms.foldl k.inherit p = p := by
    intro ms
    induction ms with
    | nil => exact fun p => rfl
    | cons m ms ih =>
      intro p
      have hm : k.inherit p m = p := by
        rw [inherit, head_lists, h.waiters]
        rfl
      rw [List.foldl_cons, hm, ih]
  unfold osInheritedPriority
  split
  · exact hone _ _
  · rfl

/-! ### Switches -/

/-- Whoever is needed gets the processor. -/
theorem schedule_still (hs : Sound k) (hr : Running k) (hinh : k.osInheritedPriority k.currentTask ≤ k.priority k.currentTask)
    {yield : ℕ} (hy : yield ≤ 1) (hc : (k.osSchedule yield).currentTask = k.currentTask) :
    k.osSchedule yield = k := by
  rcases schedule_cases hs hr yield hy with ⟨-, he⟩ | ⟨hn, s, hse, -, -, hcs, -, he⟩
  · exact he
  · obtain ⟨n, hh, hlt⟩ := (hs.needed_iff hy).mp hn
    have hne : n ≠ k.currentTask := fun hn => hs.current_unready hr (hn ▸ List.mem_of_head? hh)
    have hlow : s.priority k.currentTask ≤ k.priority k.currentTask := by
      rw [hse]
      unfold osSettle
      split
      · split
        · rw [setPriority_priority, if_pos rfl]
          exact hinh
        · exact le_rfl
      · exact le_rfl
    have hsame : s.priority n = k.priority n ∧ s.links = k.links := by
      obtain ⟨p, hp⟩ := settle_eq k k.currentTask
      rw [hse, hp, setPriority_priority, if_neg hne]
      exact ⟨rfl, rfl⟩
    have hready : k.links .ready = n :: (k.links .ready).tail := (List.cons_head?_tail hh).symm
    have hfirst : (((Atom.preempt (s.priority s.currentTask + 1 - yield)).apply s).links .ready).head? = some n := by
      show (Lists.insert s.links .ready s.currentTask _ .ready).head? = _
      have hpass : s.priority s.currentTask + 1 - yield ≤ s.priority n := by
        rw [hcs, hsame.1]
        omega
      rw [Lists.insert_self, hsame.2, hready, List.takeWhile_cons_of_pos]
      · rfl
      · simpa [setState_priority] using hpass
    rw [he, (dispatch_frame hfirst).2.2] at hc
    exact absurd hc hne

/-- The end of a call which has changed nothing about the tasks. -/
theorem ended_still (h : Awake k) (hb : (k.tasks k.currentTask).basePriority ≤ k.priority k.currentTask)
    (hq : Quiet k k') (hs : Sound k') (hr : Running k') (call : Call c) (v : Value c) {yield : ℕ}
    (hy : yield ≤ 1) (hc : ((k'.returns call v).osSchedule yield).currentTask = k.currentTask) :
    Quiet k ((k'.returns call v).osSchedule yield) := by
  have hq' := ended_quiet hq call v
  have hinh : (k'.returns call v).osInheritedPriority (k'.returns call v).currentTask ≤
      (k'.returns call v).priority (k'.returns call v).currentTask := by
    rw [(h.quiet hq').inherited, hq'.current, hq'.rank.priority, (hq'.rank _).2]
    exact hb
  rw [schedule_still (returned_sound hs call v) hr hinh hy (hc.trans hq'.current.symm)]
  exact hq'

/-- Whoever goes to sleep makes room for somebody else. -/
theorem blockThen_leaves (hs : Sound k) (hk : k.stateOf k.currentTask = OS_TASK_RUNNING)
    (hi : k.currentTask ≠ osIdleTask) (hne : k.links .ready ≠ []) (call : Call c) (list : Option (WaitList c))
    (timeout : OsTick c) (rest : ListKernel c → Bool → ListKernel c) :
    (k.blockThen call list timeout rest).currentTask ≠ k.currentTask := by
  have he : k.blockThen call list timeout rest = ((k.osSettle k.currentTask).sleep call list timeout).osDispatch := by
    unfold blockThen osBlock
    dsimp only
    rw [if_neg hi]
  obtain ⟨p, hp⟩ := settle_eq k k.currentTask
  obtain ⟨n, hh⟩ := Option.ne_none_iff_exists'.mp (mt List.head?_eq_none_iff.mp hne)
  have hh' : (((k.osSettle k.currentTask).sleep call list timeout).links .ready).head? = some n := by
    rw [sleep_ready, hp]
    exact hh
  rw [he, (dispatch_frame hh').2.2]
  rintro rfl
  have hready := hs.ready_kind (List.mem_of_head? hh)
  rw [hk] at hready
  simp at hready

/-- A queue which is full or empty makes the task wait. -/
theorem waits_leaves (hs : Sound k) (hr : Running k) (hi : k.currentTask ≠ osIdleTask)
    (hne : k.links .ready ≠ []) (call : Call c) (q : Place c) (item : Address) (timeout : OsTick c)
    {k' : ListKernel c} {o : Option Bool}
    (hb : (k.setWait k.currentTask (.item item)).osBlock call (some (.queue q)) timeout = (k', o)) :
    o = none ∧ k'.currentTask ≠ k.currentTask := by
  have hsw := setWait_sound hs k.currentTask (.item item)
  have hrw : Running (k.setWait k.currentTask (.item item)) := by
    simpa [Running, setWait, setTask] using hr
  have hleaves := blockThen_leaves hsw hrw.kind hi hne call (some (.queue q)) timeout fun s _ => s
  unfold osBlock at hb
  unfold blockThen osBlock at hleaves
  dsimp only at hb hleaves
  have hiw : (k.setWait k.currentTask (.item item)).currentTask ≠ osIdleTask := hi
  rw [if_neg hiw] at hb hleaves
  injection hb with hk ho
  exact ⟨ho.symm, hk ▸ hleaves⟩

/-! ### Calls -/

/-- Calls which are not about tasks. -/
def Call.spares : Call c → Bool
  | .osTaskCreate _ _ _ | .osTaskDelete _ | .osTaskSuspend _ | .osTaskSetPriority _ _ => false
  | _ => true

theorem lock_quiet (hs : Sound k) (hr : Running k) (hi : k.currentTask ≠ osIdleTask)
    (hne : k.links .ready ≠ []) (call : Call c) (m : Place c) (timeout : OsTick c)
    (hc : (k.osMutexTryLock call m timeout).currentTask = k.currentTask) :
    Quiet k (k.osMutexTryLock call m timeout) := by
  unfold osMutexTryLock at hc ⊢
  dsimp only at hc ⊢
  split at hc
  case h_1 ho =>
    have hown : Quiet k (k.osMutexOwn m k.currentTask) := by
      rw [osMutexOwn_eq]
      exact .same rfl rfl rfl rfl rfl
    exact ended_quiet hown _ _
  case h_2 owner ho =>
    split at hc
    case isTrue ht =>
      rw [if_pos ht]
      exact returns_quiet k call _
    case isFalse ht =>
      split at hc
      case isTrue hinh =>
        obtain ⟨hcur, -, -, -, -⟩ := urge_same k owner
        have hsu : Sound (urge k owner) :=
          (urge_run (P := fun _ => True) (fun _ _ => trivial) trivial hs owner hinh hr.kind
            (hs.raise_bound ho)).sound hs
        have hk : (urge k owner).stateOf (urge k owner).currentTask = OS_TASK_RUNNING := by
          rw [hcur, urge_state]
          exact hr.kind
        have hready : (urge k owner).links .ready ≠ [] := by
          obtain ⟨n, hn⟩ := List.exists_mem_of_ne_nil _ hne
          have hkind := hs.ready_kind hn
          rw [← urge_state k owner] at hkind
          exact List.ne_nil_of_mem ((hsu.linked.2 n).ready.mpr hkind)
        exact absurd (hc.trans hcur.symm) (blockThen_leaves hsu hk (hcur ▸ hi) hready call _ timeout _)
      case isFalse => exact absurd hc (blockThen_leaves hs hr.kind hi hne call _ timeout _)

/-- Calls of a task which keeps the processor have changed nothing about the tasks, if they are not
about tasks and do not unlock a mutex. -/
theorem exec_quiet (h : Awake k) (hs : Sound k) (hr : Running k) (hi : k.currentTask ≠ osIdleTask)
    (hne : k.links .ready ≠ []) (hb : (k.tasks k.currentTask).basePriority ≤ k.priority k.currentTask)
    (x : Call c) (hx : x.spares = true) (hm : ∀ m, x ≠ .osMutexUnlock m) (hl : k.legal x)
    (hc : (k.exec x).currentTask = k.currentTask) : Quiet k (k.exec x) := by
  have hclear : ∀ w, k.links (.wait w) = [] → Lists.clear k.links (.wait w) = k.links := fun w => clear_empty
  cases x with
  | osTaskCreate | osTaskDelete | osTaskSuspend | osTaskSetPriority => cases hx
  | osTaskResume t =>
    have hq := unpark_quiet h t
    have hsame : k.osTaskResumeFromISR t = k := by
      rw [osTaskResumeFromISR, if_neg (h.suspended t)]
    exact ended_still h hb hq (hsame.symm ▸ hs) (hsame.symm ▸ hr) _ _ (Nat.zero_le 1) hc
  | osTaskReap =>
    refine ended_quiet ?_ _ _
    exact ⟨fun l hl => Lists.pop_of_ne k.links .dead l hl, rfl, .refl k, rfl, rfl, fun _ hf => hf⟩
  | osYield => exact ended_still h hb (quiet_refl k) hs hr _ _ le_rfl hc
  | osDelay ticks =>
    show Quiet k (k.osDelay ticks)
    replace hc : (k.osDelay ticks).currentTask = k.currentTask := hc
    unfold osDelay at hc ⊢
    dsimp only at hc ⊢
    split at hc
    · exact absurd hc (blockThen_leaves hs hr.kind hi hne _ _ _ _)
    case isFalse ht =>
      rw [if_neg ht]
      exact ended_still h hb (quiet_refl k) hs hr _ _ le_rfl hc
  | osDelayUntil previous period =>
    show Quiet k (k.osDelayUntil previous period)
    replace hc : (k.osDelayUntil previous period).currentTask = k.currentTask := hc
    unfold osDelayUntil at hc ⊢
    dsimp only at hc ⊢
    have hsv : Sound { k with
        tickVars := Function.update k.tickVars previous (k.tickVars previous + period) } :=
      hs.congr rfl rfl rfl rfl rfl rfl
    split at hc
    · exact absurd hc (blockThen_leaves hsv hr.kind hi hne _ _ _ _)
    case isFalse ht =>
      rw [if_neg ht]
      refine ended_quiet ?_ _ _
      exact .same rfl rfl rfl rfl rfl
  | osMutexInit m =>
    show Quiet k (k.osMutexInit m)
    unfold osMutexInit
    dsimp only
    split
    · refine ended_quiet ?_ _ _
      exact .same (hclear _ hl.1) rfl rfl rfl rfl
    · refine ended_quiet ?_ _ _
      exact .same (hclear _ hl.1) rfl rfl rfl rfl
  | osMutexTryLock m timeout => exact lock_quiet hs hr hi hne _ m timeout hc
  | osMutexLock m => exact lock_quiet hs hr hi hne _ m _ hc
  | osMutexUnlock m => exact absurd rfl (hm m)
  | osSemaphoreInit s count limit =>
    refine ended_quiet ?_ _ _
    exact .same (hclear _ hl) rfl rfl rfl rfl
  | osSemaphoreTake s timeout =>
    show Quiet k (k.osSemaphoreTake s timeout)
    replace hc : (k.osSemaphoreTake s timeout).currentTask = k.currentTask := hc
    unfold osSemaphoreTake at hc ⊢
    dsimp only at hc ⊢
    split at hc
    case isTrue hn =>
      rw [if_pos hn]
      refine ended_quiet ?_ _ _
      exact .same rfl rfl rfl rfl rfl
    case isFalse hn =>
      rw [if_neg hn]
      split at hc
      case isTrue ht =>
        rw [if_pos ht]
        exact returns_quiet k _ _
      case isFalse => exact absurd hc (blockThen_leaves hs hr.kind hi hne _ _ _ _)
  | osSemaphoreGive s =>
    exact ended_still h hb (give_quiet h s) (give_sound hs s) (give_running hs hr s) _ _ (Nat.zero_le 1) hc
  | osQueueInit q itemSize length =>
    refine ended_quiet ?_ _ _
    exact .same (hclear _ hl) rfl rfl rfl rfl
  | osQueueSend q item timeout =>
    show Quiet k (k.osQueueSend q item timeout)
    replace hc : (k.osQueueSend q item timeout).currentTask = k.currentTask := hc
    unfold osQueueSend at hc ⊢
    dsimp only at hc ⊢
    rcases osQueuePut_cases k (.osQueueSend q item timeout) q item timeout with ⟨r, he⟩ | ⟨-, -, -, he⟩
    · rw [he] at hc ⊢
      exact ended_still h hb (send_quiet h q item) (send_sound hs q item) (send_running hs hr q item) _ _
        (Nat.zero_le 1) hc
    · rw [he] at hc
      split at hc
      case h_1 hb => cases (waits_leaves hs hr hi hne _ q item timeout hb).1
      case h_2 hb => exact absurd hc (waits_leaves hs hr hi hne _ q item timeout hb).2
  | osQueueReceive q item timeout =>
    show Quiet k (k.osQueueReceive q item timeout)
    replace hc : (k.osQueueReceive q item timeout).currentTask = k.currentTask := hc
    unfold osQueueReceive at hc ⊢
    dsimp only at hc ⊢
    rcases osQueueGet_cases k (.osQueueReceive q item timeout) q item timeout with ⟨r, he⟩ | ⟨-, -, he⟩
    · rw [he] at hc ⊢
      exact ended_still h hb (receive_quiet h q item) (receive_sound hs q item) (receive_running hs hr q item)
        _ _ (Nat.zero_le 1) hc
    · rw [he] at hc
      split at hc
      case h_1 hb => cases (waits_leaves hs hr hi hne _ q item timeout hb).1
      case h_2 hb => exact absurd hc (waits_leaves hs hr hi hne _ q item timeout hb).2
  | osEventInit e =>
    refine ended_quiet ?_ _ _
    exact .same (hclear _ hl) rfl rfl rfl rfl
  | osEventWait e flags options timeout =>
    show Quiet k (k.osEventWait e flags options timeout)
    replace hc : (k.osEventWait e flags options timeout).currentTask = k.currentTask := hc
    unfold osEventWait at hc ⊢
    dsimp only at hc ⊢
    split at hc
    case isTrue hm =>
      rw [if_pos hm]
      obtain ⟨ht, hl, hcur, hf, -⟩ := consume_frame k e (osEventMatch (k.events e) flags options) options
      have hmode : (k.osEventConsume e (osEventMatch (k.events e) flags options) options).mode = k.mode :=
        (consume_kept (.flagsClear e 0) k e _ options trivial).mode id
      have hq : Quiet k (k.osEventConsume e (osEventMatch (k.events e) flags options) options) :=
        .same hl ht hcur hmode (by rw [hf])
      exact ended_quiet (hq.trans (emit_quiet _ _)) _ _
    case isFalse hm =>
      rw [if_neg hm]
      split at hc
      case isTrue htime =>
        have hsw := setWait_sound hs k.currentTask (.event flags options)
        have hrw : Running (k.setWait k.currentTask (.event flags options)) := by
          simpa [Running, setWait, setTask] using hr
        exact absurd hc (blockThen_leaves hsw hrw.kind hi hne _ _ _ _)
      case isFalse htime =>
        rw [if_neg htime]
        exact returns_quiet k _ _
  | osEventSet e flags =>
    exact ended_still h hb (setEvent_quiet h hs e flags) ((Move.setEvent e flags).sound hs trivial)
      (setEvent_running hs hr e flags) _ _ (Nat.zero_le 1) hc
  | osEventClear | osTimerStart | osTimerStop =>
    refine ended_quiet ?_ _ _
    exact .same rfl rfl rfl rfl rfl

/-! ### Handlers -/

/-- The same task is to go on, and where it has been. -/
def SameFrame (k k' : ListKernel c) : Prop := k'.currentTask = k.currentTask ∧ k'.frames = k.frames

theorem wake_frame (k : ListKernel c) (t : Place c) (r : Bool) : SameFrame k (k.osWake t r) := by
  rw [osWake_eq]
  exact ⟨rfl, rfl⟩

theorem serve_frame (k : ListKernel c) (e t : Place c) : SameFrame k (k.osEventServe e t) := by
  rcases serve_cases k e t with ⟨-, he⟩ | ⟨matched, options, -, -, -, he⟩
  · rw [he]
    exact ⟨rfl, rfl⟩
  · obtain ⟨-, -, hc, hf, -⟩ := consume_frame (k.emit (.visited e t)) e matched options
    obtain ⟨hc', hf'⟩ := wake_frame ((((k.emit (.visited e t)).osEventConsume e matched options).emit
      (.satisfied e t matched options)).setWait t (.event matched options)) t true
    rw [he]
    exact ⟨hc'.trans hc, hf'.trans hf⟩

/-- A handler returns to the task it has interrupted. -/
theorem execIsr_frame (hs : Sound k) (y : IsrCall c) : SameFrame k (k.execIsr y) := by
  cases y with
  | osTaskResumeFromISR t =>
    show SameFrame k (k.osTaskResumeFromISR t)
    unfold osTaskResumeFromISR
    split
    · rw [osReady_eq]
      exact ⟨rfl, rfl⟩
    · exact ⟨rfl, rfl⟩
  | osSemaphoreGiveFromISR s =>
    show SameFrame k (k.osSemaphoreGiveFromISR s)
    rcases give_cases k s with ⟨w, rest, -, he⟩ | ⟨-, -, he⟩ | ⟨-, -, he⟩
    · rw [he]
      exact wake_frame (k.emit (.gave s)) w true
    · rw [he]
      exact ⟨rfl, rfl⟩
    · rw [he]
      exact ⟨rfl, rfl⟩
  | osQueueSendFromISR q item =>
    show SameFrame k (k.osQueueSendFromISR q item)
    rcases send_cases k q item with ⟨w, rest, -, -, he⟩ | ⟨-, -, he⟩ | ⟨-, -, he⟩
    · rw [he]
      obtain ⟨hc, hf⟩ := wake_frame (k.osQueueHand q item (k.tasks w).wait.itemPtr) w true
      exact ⟨hc.trans (hand_current ..), hf.trans (hand_frames ..)⟩
    · rw [he]
      exact ⟨append_current k q item, append_frames k q item⟩
    · rw [he]
      exact ⟨rfl, rfl⟩
  | osQueueReceiveFromISR q item =>
    show SameFrame k (k.osQueueReceiveFromISR q item)
    rcases receive_cases k q item with ⟨w, rest, -, -, he⟩ | ⟨-, -, he⟩ | ⟨-, he⟩
    · rw [he]
      obtain ⟨hc, hf⟩ := wake_frame ((k.osQueueTake q item).osQueueAppend q (k.tasks w).wait.itemPtr) w true
      exact ⟨hc.trans (by rw [append_current, take_current]), hf.trans (by rw [append_frames, take_frames])⟩
    · rw [he]
      exact ⟨take_current k q item, take_frames k q item⟩
    · rw [he]
      exact ⟨rfl, rfl⟩
  | osEventSetFromISR e flags =>
    show SameFrame k (k.osEventSetFromISR e flags)
    rw [setEvent_eq hs]
    have hfold : ∀ (ts : List (Place c)) (s : ListKernel c), SameFrame k s →
        SameFrame k (ts.foldl (fun k t => k.osEventServe e t) s) := by
      intro ts
      induction ts with
      | nil => exact fun s h => h
      | cons t ts ih =>
        intro s h
        obtain ⟨hc, hf⟩ := serve_frame s e t
        exact ih _ ⟨hc.trans h.1, hf.trans h.2⟩
    exact hfold _ _ ⟨rfl, rfl⟩
  | osEventClear | osTimerStart | osTimerStop | store => exact ⟨rfl, rfl⟩

theorem osTickExpire_frame (fuel : ℕ) (k : ListKernel c) : SameFrame k (osTickExpire fuel k) := by
  induction fuel generalizing k with
  | zero => exact ⟨rfl, rfl⟩
  | succ fuel ih =>
    unfold osTickExpire
    split
    · split
      · obtain ⟨hc, hf⟩ := ih (k.osWake _ false)
        obtain ⟨hc', hf'⟩ := wake_frame k _ false
        exact ⟨hc.trans hc', hf.trans hf'⟩
      · exact ⟨rfl, rfl⟩
    · exact ⟨rfl, rfl⟩

theorem osTickEnter_frame (k : ListKernel c) : SameFrame k k.osTickEnter := by
  have hexpire := osTickExpire_frame (c.places + 1) (({ k with ticks := k.ticks + 1 }).emit .ticked)
  exact ⟨hexpire.1, hexpire.2⟩

/-- While a handler runs the current task has been interrupted. -/
theorem step_interrupted {a : Action c} (hk : Rest k) (h : k.mode ≠ .thread → k.frames k.currentTask = some .preempted)
    (hs : k.step a = some k') (hm : k'.mode ≠ .thread) : k'.frames k'.currentTask = some .preempted := by
  by_cases hsw : a.Switches
  · cases a with
    | isrEnter os =>
      simp only [step] at hs
      split at hs
      · injection hs with hs
        rw [← hs]
        exact Function.update_self ..
      · cases hs
    | tickEnter =>
      simp only [step] at hs
      split at hs
      · injection hs with hs
        obtain ⟨hc, hf⟩ := osTickEnter_frame (k.setFrame k.currentTask (some .preempted))
        rw [← hs]
        dsimp only
        rw [hc, hf]
        exact Function.update_self ..
      · cases hs
    | tickTimer =>
      simp only [step] at hs
      split at hs
      case h_1 callback tm hmode hdue =>
        split at hs
        · injection hs with hs
          obtain ⟨-, -, hc, hf⟩ := osTimerTick_same k tm
          rw [← hs]
          dsimp only
          rw [hc, hf]
          exact h (by rw [hmode]; simp)
        · cases hs
      · cases hs
    | isrLeave =>
      simp only [step] at hs
      split at hs
      · injection hs with hs
        rw [← hs, (schedule_world _ _).1.mode] at hm
        exact absurd rfl hm
      · injection hs with hs
        rw [← hs] at hm
        exact absurd rfl hm
      · cases hs
    | tickLeave =>
      simp only [step] at hs
      split at hs
      · split at hs
        · injection hs with hs
          have hsound : Sound { k with mode := .thread } := hk.sound.congr rfl rfl rfl rfl rfl rfl
          rw [← hs, osTickLeave_mode hsound] at hm
          exact absurd rfl hm
        · cases hs
      · cases hs
    | _ => exact absurd hsw id
  · have hmode : k'.mode = k.mode := (step_moves hk.sound hk.running hk.noDead hs).1.mode hk.sound hsw
    rw [hmode] at hm
    cases a with
    | isrCall y =>
      have hframe := execIsr_frame hk.sound y
      have he : k' = k.execIsr y := by
        simp only [step] at hs
        split at hs
        · split at hs
          · injection hs with hs
            exact hs.symm
          · cases hs
        · split at hs
          · injection hs with hs
            exact hs.symm
          · cases hs
        · cases hs
      rw [he, hframe.1, hframe.2]
      exact h hm
    | isrEnter | isrLeave | tickEnter | tickTimer | tickLeave => exact absurd trivial hsw
    | run | call | resume | store | setTickVar =>
      -- none of these happens while a handler runs
      simp only [step, userMode, hm, false_and, if_false] at hs
      cases hs

theorem reachable_interrupted (h : Reachable k) : k.mode ≠ .thread → k.frames k.currentTask = some .preempted :=
  h.invariant (I := fun k => k.mode ≠ .thread → k.frames k.currentTask = some .preempted)
    (fun hm => absurd rfl hm) fun _ _ _ hr hi _ hs hm => step_interrupted (rest_of_reachable hr) hi hs hm

end AvrOs
