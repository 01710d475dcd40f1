import AvrOs.Simulation

/-!
# Every run on links is a run on lists

The functions on objects and tasks, and what follows for whole runs: a reachable kernel
stands for a reachable kernel on lists.
-/

namespace AvrOs
open Intrusive Transition Kernel

variable {c : Config} {k : Kernel c Links} {l : ListKernel c} {t : Place c}

/-! ### semaphore.c -/

theorem osSemaphoreInit_sim (h : Sim k l) (s : Place c) (count limit : Byte) :
    Sim (k.osSemaphoreInit s count limit) (l.osSemaphoreInit s count limit) := by
  obtain ⟨st, rfl, hs⟩ := h
  exact ⟨{ st with links := st.links.clear (.wait (.semaphore s)) }, rfl,
    ⟨hs.links.clear _, hs.timerLinks, hs.ownedLinks, hs.timersLinks⟩⟩

theorem Sim.semaphores (h : Sim k l) : k.semaphores = l.semaphores := by
  obtain ⟨s, rfl, -⟩ := h
  rfl

theorem Sim.setCount (h : Sim k l) (s : Place c) (n : ℕ) :
    Sim (k.setCount s n) (l.setCount s n) := by
  obtain ⟨st, rfl, hs⟩ := h
  exact ⟨st, rfl, hs⟩

theorem osSemaphoreTake_sim (h : Sim k l) (hl : Sound l) (hr : Running l) (s : Place c)
    (timeout : OsTick c) : Sim (k.osSemaphoreTake s timeout) (l.osSemaphoreTake s timeout) := by
  unfold osSemaphoreTake
  dsimp only
  rw [h.semaphores]
  split
  · exact ((h.setCount s _).emit _).returns _ _
  · split
    · exact h.returns _ _
    · exact h.blockThen hl hr.kind _ _ timeout fun _ _ _ h _ => h.returns _ _

theorem osSemaphoreGiveFromISR_sim (h : Sim k l) (hl : Sound l) (s : Place c) :
    Sim (k.osSemaphoreGiveFromISR s) (l.osSemaphoreGiveFromISR s) := by
  have h1 := h.emit (.gave s)
  have hl1 := emit_sound hl (.gave s)
  unfold osSemaphoreGiveFromISR
  dsimp only
  rw [h1.links_head, head_lists]
  cases hh : ((l.emit (.gave s)).links (.wait (.semaphore s))).head? with
  | some w => exact h1.wake hl1.linked true (hl1.waiter_blocked (List.mem_of_mem_head? hh))
  | none =>
    dsimp only
    rw [h1.semaphores]
    split
    · exact h1.setCount s _
    · exact h1.emit _

theorem osSemaphoreGive_sim (h : Sim k l) (hl : Sound l) (hr : Running l) (s : Place c) :
    Sim (k.osSemaphoreGive s) (l.osSemaphoreGive s) :=
  ((osSemaphoreGiveFromISR_sim h hl s).returns _ _).schedule (give_sound hl s).linked
    (give_running hl hr s) 0

/-! ### queue.c -/

theorem osQueueInit_sim (h : Sim k l) (q : Place c) (itemSize length : Byte) :
    Sim (k.osQueueInit q itemSize length) (l.osQueueInit q itemSize length) := by
  obtain ⟨st, rfl, hs⟩ := h
  exact ⟨{ st with links := st.links.clear (.wait (.queue q)) }, rfl,
    ⟨hs.links.clear _, hs.timerLinks, hs.ownedLinks, hs.timersLinks⟩⟩

theorem Sim.queues (h : Sim k l) : k.queues = l.queues := by
  obtain ⟨s, rfl, -⟩ := h
  rfl

theorem Sim.memory (h : Sim k l) : k.memory = l.memory := by
  obtain ⟨s, rfl, -⟩ := h
  rfl

theorem Sim.append (h : Sim k l) (q : Place c) (item : Address) :
    Sim (k.osQueueAppend q item) (l.osQueueAppend q item) := by
  obtain ⟨s, rfl, hs⟩ := h
  refine ⟨s, ?_, ?_⟩
  · simp only [osQueueAppend, setQueue, Kernel.emit, Kernel.over]
  · simpa only [osQueueAppend, setQueue, Kernel.emit] using hs

theorem Sim.take (h : Sim k l) (q : Place c) (item : Address) :
    Sim (k.osQueueTake q item) (l.osQueueTake q item) := by
  obtain ⟨s, rfl, hs⟩ := h
  refine ⟨s, ?_, ?_⟩
  · simp only [osQueueTake, setQueue, Kernel.emit, Kernel.over]
    rfl
  · simpa only [osQueueTake, setQueue, Kernel.emit] using hs

theorem Sim.hand (h : Sim k l) (q : Place c) (item target : Address) :
    Sim (k.osQueueHand q item target) (l.osQueueHand q item target) := by
  obtain ⟨s, rfl, hs⟩ := h
  refine ⟨s, ?_, ?_⟩
  · simp only [osQueueHand, Kernel.emit, Kernel.over]
  · simpa only [osQueueHand, Kernel.emit] using hs

/-- The states agree and so do the results, a task runs if there is one. -/
def SimResult (p : Kernel c Links × Option Bool) (q : ListKernel c × Option Bool) : Prop :=
  Sim p.1 q.1 ∧ p.2 = q.2 ∧ (q.2 ≠ none → Sound q.1 ∧ Running q.1)

theorem Sim.blockItem (h : Sim k l) (hl : Sound l) (hr : Running l) (call : Call c)
    (list : Option (WaitList c)) (timeout : OsTick c) (w : Wait) :
    SimResult ((k.setWait k.currentTask w).osBlock call list timeout)
      ((l.setWait l.currentTask w).osBlock call list timeout) := by
  have hl1 : Sound (l.setWait l.currentTask w) := setWait_sound hl _ _
  exact (h.request w).block hl1
    (by simpa [stateOf, Kernel.setWait, Kernel.setTask] using hr.kind) call list timeout

theorem Sim.store (h : Sim k l) (hl : Sound l) (hr : Running l) (call : Call c) (q : Place c)
    (item : Address) (timeout : OsTick c) :
    SimResult (k.osQueueStore call q item timeout) (l.osQueueStore call q item timeout) := by
  unfold osQueueStore
  rw [h.queues]
  split
  · refine ⟨h.append q item, rfl, fun _ => ⟨append_sound hl q item, ?_⟩⟩
    rw [Running, append_tasks, append_current]
    exact hr
  · split
    · exact ⟨h, rfl, fun _ => ⟨hl, hr⟩⟩
    · exact h.blockItem hl hr call _ timeout _

theorem Sim.put (h : Sim k l) (hl : Sound l) (hr : Running l) (call : Call c) (q : Place c)
    (item : Address) (timeout : OsTick c) :
    SimResult (k.osQueuePut call q item timeout) (l.osQueuePut call q item timeout) := by
  unfold osQueuePut
  rw [h.links_head, head_lists, h.queues, h.tasks]
  cases hh : (l.links (.wait (.queue q))).head? with
  | none => exact h.store hl hr call q item timeout
  | some w =>
    have hb := hl.waiter_blocked (List.mem_of_mem_head? hh)
    have hw := hand_sound hl q item (l.tasks w).wait.itemPtr
    have hb' : (l.osQueueHand q item (l.tasks w).wait.itemPtr).stateOf w = OS_TASK_BLOCKED := by
      rw [stateOf, hand_tasks]
      exact hb
    dsimp only
    split
    · refine ⟨(h.hand q item _).wake hw.linked true hb', rfl, fun _ =>
        ⟨osWake_sound hw true hb', osWake_running ?_ w true hb'⟩⟩
      rw [Running, hand_tasks, hand_current]
      exact hr
    · exact h.store hl hr call q item timeout

theorem Sim.get (h : Sim k l) (hl : Sound l) (hr : Running l) (call : Call c) (q : Place c)
    (item : Address) (timeout : OsTick c) :
    SimResult (k.osQueueGet call q item timeout) (l.osQueueGet call q item timeout) := by
  have h1 := h.take q item
  have hl1 := take_sound hl q item
  have hr1 : Running (l.osQueueTake q item) := by
    rw [Running, take_tasks, take_current]
    exact hr
  unfold osQueueGet
  rw [h.queues]
  split
  · dsimp only
    rw [h1.links_head, head_lists, h1.tasks]
    cases hh : ((l.osQueueTake q item).links (.wait (.queue q))).head? with
    | none => exact ⟨h1, rfl, fun _ => ⟨hl1, hr1⟩⟩
    | some w =>
      have hb := hl1.waiter_blocked (List.mem_of_mem_head? hh)
      have ha := append_sound hl1 q ((l.osQueueTake q item).tasks w).wait.itemPtr
      have hb' : ((l.osQueueTake q item).osQueueAppend q
          ((l.osQueueTake q item).tasks w).wait.itemPtr).stateOf w = OS_TASK_BLOCKED := by
        rw [stateOf, append_tasks]
        exact hb
      refine ⟨(h1.append q _).wake ha.linked true hb', rfl, fun _ =>
        ⟨osWake_sound ha true hb', osWake_running ?_ w true hb'⟩⟩
      rw [Running, append_tasks, append_current]
      exact hr1
  · split
    · exact ⟨h, rfl, fun _ => ⟨hl, hr⟩⟩
    · exact h.blockItem hl hr call _ timeout _

theorem osQueueRest_sim (h : Sim k l) (hl : Sound l) (hr : Running l) (call : Call c) (r : Bool) :
    Sim (osQueueRest call k r) (osQueueRest call l r) :=
  (h.returns call (.bool r)).schedule (setFrame_sound hl _ _).linked hr 0

theorem osQueueSend_sim (h : Sim k l) (hl : Sound l) (hr : Running l) (q : Place c)
    (item : Address) (timeout : OsTick c) :
    Sim (k.osQueueSend q item timeout) (l.osQueueSend q item timeout) := by
  have hp := h.put hl hr (.osQueueSend q item timeout) q item timeout
  unfold osQueueSend
  dsimp only
  generalize k.osQueuePut _ q item timeout = p at hp ⊢
  generalize l.osQueuePut _ q item timeout = p' at hp ⊢
  obtain ⟨k', r⟩ := p
  obtain ⟨l', r'⟩ := p'
  obtain ⟨hs, he, hn⟩ := hp
  dsimp only at hs he hn
  subst he
  cases r with
  | none => exact hs
  | some b => exact osQueueRest_sim hs (hn (by simp)).1 (hn (by simp)).2 _ b

theorem osQueueReceive_sim (h : Sim k l) (hl : Sound l) (hr : Running l) (q : Place c)
    (item : Address) (timeout : OsTick c) :
    Sim (k.osQueueReceive q item timeout) (l.osQueueReceive q item timeout) := by
  have hp := h.get hl hr (.osQueueReceive q item timeout) q item timeout
  unfold osQueueReceive
  dsimp only
  generalize k.osQueueGet _ q item timeout = p at hp ⊢
  generalize l.osQueueGet _ q item timeout = p' at hp ⊢
  obtain ⟨k', r⟩ := p
  obtain ⟨l', r'⟩ := p'
  obtain ⟨hs, he, hn⟩ := hp
  dsimp only at hs he hn
  subst he
  cases r with
  | none => exact hs
  | some b => exact osQueueRest_sim hs (hn (by simp)).1 (hn (by simp)).2 _ b

/-! ### event.c -/

theorem Sim.events (h : Sim k l) : k.events = l.events := by
  obtain ⟨s, rfl, -⟩ := h
  rfl

theorem osEventInit_sim (h : Sim k l) (e : Place c) : Sim (k.osEventInit e) (l.osEventInit e) := by
  obtain ⟨st, rfl, hs⟩ := h
  exact ⟨{ st with links := st.links.clear (.wait (.event e)) }, rfl,
    ⟨hs.links.clear _, hs.timerLinks, hs.ownedLinks, hs.timersLinks⟩⟩

theorem Sim.setFlags (h : Sim k l) (e : Place c) (flags : Byte) :
    Sim (k.setFlags e flags) (l.setFlags e flags) := by
  obtain ⟨s, rfl, hs⟩ := h
  exact ⟨s, rfl, hs⟩

theorem Sim.consume (h : Sim k l) (e : Place c) (matched options : Byte) :
    Sim (k.osEventConsume e matched options) (l.osEventConsume e matched options) := by
  unfold osEventConsume
  rw [h.events]
  split
  · exact h.setFlags e _
  · exact h

theorem osEventWaitRest_sim (h : Sim k l) (call : Call c) (r : Bool) :
    Sim (osEventWaitRest call k r) (osEventWaitRest call l r) := by
  unfold osEventWaitRest
  rw [h.tasks, h.current]
  exact h.returns call _

theorem osEventWait_sim (h : Sim k l) (hl : Sound l) (hr : Running l) (e : Place c)
    (flags options : Byte) (timeout : OsTick c) :
    Sim (k.osEventWait e flags options timeout) (l.osEventWait e flags options timeout) := by
  have hl1 : Sound (l.setWait l.currentTask (.event flags options)) := setWait_sound hl _ _
  unfold osEventWait
  dsimp only
  rw [h.events]
  split
  · have h1 := ((h.consume e (osEventMatch (l.events e) flags options) options).emit
      (.satisfied e l.currentTask (osEventMatch (l.events e) flags options) options))
    rw [h.current]
    exact h1.returns _ _
  · split
    · exact (h.request _).blockThen hl1
        (by simpa [stateOf, Kernel.setWait, Kernel.setTask] using hr.kind) _ _ timeout
        fun _ _ _ h _ => osEventWaitRest_sim h _ _
    · exact h.returns _ _

theorem Sim.serve (h : Sim k l) (hl : Sound l) (e : Place c)
    (ht : (l.tasks t).waitList = some (.event e)) :
    Sim (k.osEventServe e t) (l.osEventServe e t) := by
  have h1 := h.emit (.visited e t)
  have hl1 := emit_sound hl (.visited e t)
  have hb : (l.emit (.visited e t)).stateOf t = OS_TASK_BLOCKED := (hl.linked.2 t).blocked _ ht
  unfold osEventServe
  dsimp only
  rw [h1.tasks, h1.events]
  generalize osEventMatch ((l.emit (.visited e t)).events e) ((l.emit (.visited e t)).tasks t).wait.flags
    ((l.emit (.visited e t)).tasks t).wait.options = matched
  generalize ((l.emit (.visited e t)).tasks t).wait.options = options
  split
  · have h2 := ((h1.consume e matched options).emit (.satisfied e t matched options)).setWait t
      (.event matched options)
    have hl2 := setWait_sound (emit_sound (consume_sound hl1 e matched options)
      (.satisfied e t matched options)) t (.event matched options)
    refine h2.wake hl2.linked true ?_
    have hc := (consume_frame (l.emit (.visited e t)) e matched options).1
    simp only [stateOf, Kernel.setWait, Kernel.setTask, Kernel.emit, Function.update_self] at hc hb ⊢
    rw [hc]
    exact hb
  · exact h1

/-- Both walk along the same waiters. -/
theorem Sim.setEventLoop (e : Place c) (fuel : ℕ) (h : Sim k l) (hl : Sound l)
    (pre todo : List (Place c)) (hp : l.links (.wait (.event e)) = pre ++ todo) :
    Sim (osEventSetLoop e fuel k todo.head?) (osEventSetLoop e fuel l todo.head?) := by
  induction fuel generalizing k l pre todo with
  | zero => exact h
  | succ fuel ih =>
    cases todo with
    | nil => exact h
    | cons t rest =>
      have hm : t ∈ l.links (.wait (.event e)) := by rw [hp]; simp
      have hnd : (pre ++ t :: rest).Nodup := hp ▸ hl.linked.1.separate.nodup _
      have htp : t ∉ pre := fun hin => List.disjoint_of_nodup_append hnd hin (by simp)
      have hnext : LinkStore.next l.links (.wait (.event e)) t = rest.head? :=
        Lists.next_append _ _ _ pre rest hp htp
      have hnextk : LinkStore.next k.links (.wait (.event e)) t = rest.head? := by
        obtain ⟨s, rfl, hs⟩ := h
        exact (hs.links.next_eq (.wait (.event e)) t hm).trans hnext
      have hw := ((hl.linked.2 t).wait _).mp hm
      have h1 := h.serve hl e hw
      have hs := (Atom.serve e t).sound hl hw
      show Sim (osEventSetLoop e fuel (k.osEventServe e t) (LinkStore.next k.links _ t))
        (osEventSetLoop e fuel (l.osEventServe e t) (LinkStore.next l.links _ t))
      rw [hnext, hnextk]
      rcases serve_links hl e t hm with he | he
      · exact ih h1 hs (pre ++ [t]) rest (by rw [he, hp]; simp)
      · refine ih h1 hs pre rest ?_
        rw [he, hp, List.erase_append_right _ htp, List.erase_cons_head]

theorem osEventSetFromISR_sim (h : Sim k l) (hl : Sound l) (e : Place c) (flags : Byte) :
    Sim (k.osEventSetFromISR e flags) (l.osEventSetFromISR e flags) := by
  have h1 : Sim ((k.setFlags e (k.events e ||| flags)).emit (.flagsSet e flags))
      ((l.setFlags e (l.events e ||| flags)).emit (.flagsSet e flags)) := by
    rw [h.events]
    exact (h.setFlags e _).emit _
  have hs := (Atom.flagsSet e flags).sound hl trivial
  unfold osEventSetFromISR
  dsimp only
  rw [h1.links_head, head_lists]
  exact h1.setEventLoop e _ hs [] _ rfl

theorem osEventSet_sim (h : Sim k l) (hl : Sound l) (hr : Running l) (e : Place c) (flags : Byte) :
    Sim (k.osEventSet e flags) (l.osEventSet e flags) :=
  ((osEventSetFromISR_sim h hl e flags).returns _ _).schedule
    ((Move.setEvent e flags).sound hl trivial).linked (setEvent_running hl hr e flags) 0

theorem osEventClear_sim (h : Sim k l) (e : Place c) (flags : Byte) :
    Sim (k.osEventClear e flags) (l.osEventClear e flags) := by
  unfold osEventClear
  rw [h.events]
  exact h.setFlags e _

/-! ### timer.c -/

theorem osTimerRemove_sim (h : Sim k l) (tm : Place c) :
    Sim (k.osTimerRemove tm) (l.osTimerRemove tm) := by
  obtain ⟨s, rfl, hs⟩ := h
  exact ⟨{ s with timersLinks := s.timersLinks.remove () tm }, rfl,
    ⟨hs.links, hs.timerLinks, hs.ownedLinks, hs.timersLinks.remove () tm⟩⟩

theorem osTimerInsert_sim (h : Sim k l) (tm : Place c) (now delay : OsTick c)
    (hf : tm ∉ l.timersLinks ()) : Sim (k.osTimerInsert tm now delay) (l.osTimerInsert tm now delay) := by
  obtain ⟨s, rfl, hs⟩ := h
  exact ⟨{ s with timersLinks := s.timersLinks.insert () tm _ }, rfl,
    ⟨hs.links, hs.timerLinks, hs.ownedLinks, hs.timersLinks.insert () tm _ fun _ => hf⟩⟩

theorem Sim.setTimer (h : Sim k l) (tm : Place c) (x : OsTimer c) :
    Sim (k.setTimer tm x) (l.setTimer tm x) := by
  obtain ⟨s, rfl, hs⟩ := h
  exact ⟨s, rfl, hs⟩

theorem Sim.timers_nodup (h : Sim k l) : (l.timersLinks ()).Nodup := by
  obtain ⟨s, -, hs⟩ := h
  exact hs.timersLinks.separate.nodup ()

theorem osTimerStart_sim (h : Sim k l) (tm : Place c) (delay period : OsTick c) (f : ℕ) :
    Sim (k.osTimerStart tm delay period f) (l.osTimerStart tm delay period f) := by
  have hnd := h.timers_nodup
  have h1 := osTimerRemove_sim h tm
  have ht : (k.osTimerRemove tm).timers = (l.osTimerRemove tm).timers := by
    obtain ⟨s, rfl, -⟩ := h
    rfl
  have hticks : k.ticks = l.ticks := by
    obtain ⟨s, rfl, -⟩ := h
    rfl
  unfold osTimerStart
  dsimp only
  rw [ht]
  have h2 := h1.setTimer tm { (l.osTimerRemove tm).timers tm with period := period, function := f }
  have hf : tm ∉ Lists.remove l.timersLinks () tm () := by
    rw [Lists.remove_self]
    exact hnd.not_mem_erase
  have htk : ((k.osTimerRemove tm).setTimer tm { (l.osTimerRemove tm).timers tm with
      period := period, function := f }).ticks = l.ticks := hticks
  rw [htk]
  exact osTimerInsert_sim h2 tm l.ticks _ hf

theorem osTimerDue_sim (h : Sim k l) : k.osTimerDue = l.osTimerDue := by
  unfold osTimerDue
  rw [h.timers_head, head_lists]
  obtain ⟨s, rfl, -⟩ := h
  rfl

theorem osTimerTick_sim (h : Sim k l) (tm : Place c) (hd : l.osTimerDue = some tm) :
    Sim (k.osTimerTick tm) (l.osTimerTick tm) := by
  have hnd := h.timers_nodup
  have hf : tm ∉ Lists.pop l.timersLinks () () := by
    unfold osTimerDue at hd
    rw [head_lists] at hd
    cases hl : l.timersLinks () with
    | nil => rw [hl] at hd; cases hd
    | cons a as =>
      rw [hl] at hd hnd
      dsimp only [List.head?_cons] at hd
      split at hd
      · injection hd with hd
        rw [Lists.pop_self, hl, List.tail_cons, ← hd]
        exact (List.nodup_cons.mp hnd).1
      · cases hd
  obtain ⟨s, rfl, hs⟩ := h
  have h1 : Sim { l.over s with timersLinks := LinkStore.pop s.timersLinks () }
      { l with timersLinks := LinkStore.pop l.timersLinks () } :=
    ⟨{ s with timersLinks := s.timersLinks.pop () }, rfl,
      ⟨hs.links, hs.timerLinks, hs.ownedLinks, hs.timersLinks.pop ()⟩⟩
  unfold osTimerTick
  show Sim (Kernel.emit (if (l.timers tm).period ≠ 0 then _ else _) _)
    (Kernel.emit (if (l.timers tm).period ≠ 0 then _ else _) _)
  split
  · exact (osTimerInsert_sim h1 tm l.ticks _ hf).emit _
  · exact h1.emit _

/-! ### tasks.c -/

theorem Sim.setup (h : Sim k l) (hl : Sound l) (t : Place c) (p : ℕ) (d : Bool)
    (hs : l.stateOf t = OS_TASK_DEAD) (hd : t ∉ l.links .dead) :
    Sim (k.osTaskSetup t p d) (l.osTaskSetup t p d) := by
  have hloose := hl.linked.loose (t := t) (by rw [hs]; simp) (by rw [hs]; simp) hd
  obtain ⟨hfree, htimer, -⟩ := hloose.2.1
  obtain ⟨s, rfl, hst⟩ := h
  have h1 : Sim { l.over s with
        links := LinkStore.reset s.links t
        timerLinks := LinkStore.reset s.timerLinks t
        ownedLinks := LinkStore.clear s.ownedLinks t }
      { l with ownedLinks := Lists.clear l.ownedLinks t } :=
    ⟨{ s with
        links := s.links.reset t
        timerLinks := s.timerLinks.reset t
        ownedLinks := s.ownedLinks.clear t }, rfl,
      ⟨hst.links.reset t hfree, hst.timerLinks.reset t fun _ => htimer, hst.ownedLinks.clear t,
        hst.timersLinks⟩⟩
  have h2 := ((h1.setTask (t := t) (newTask c p d)).setFrame t none).emit (.created t)
  exact h2.ready (setTask_loose hloose _ rfl)

theorem osTaskCreate_sim (h : Sim k l) (hl : Sound l) (hr : Running l) (hn : NoDead l)
    (t : Place c) (p : Byte) (d : Bool) (hs : l.stateOf t = OS_TASK_DEAD) (hd : t ∉ l.links .dead) :
    Sim (k.osTaskCreate t p d) (l.osTaskCreate t p d) := by
  have hg : (Atom.create t p.toNat d).guard l :=
    ⟨hs, hd, fun hinh m ho => hn hinh m t ho hs⟩
  have h1 := (h.setup hl t p.toNat d hs hd).returns (.osTaskCreate t p d) (.task (some t))
  have hs1 := (Atom.create t p.toNat d).sound hl hg
  have hs2 : Sound ((l.osTaskSetup t p.toNat d).returns (.osTaskCreate t p d) (.task (some t))) :=
    setFrame_sound hs1 _ _
  refine h1.schedule hs2.linked ?_ 0
  exact create_running hr t p.toNat d hs

theorem Sim.stateOf (h : Sim k l) (t : Place c) : k.stateOf t = l.stateOf t := by
  rw [Kernel.stateOf, h.tasks]
  rfl

theorem Sim.detach (h : Sim k l) (t : Place c) : Sim (k.osTaskDetach t) (l.osTaskDetach t) := by
  unfold osTaskDetach
  rw [h.stateOf]
  split
  · exact h.remove .ready t
  · exact h.unblock t

theorem Sim.kill (h : Sim k l) (t : Place c) :
    Sim ((((k.osTaskDetach t).setState t OS_TASK_DEAD).emit (.deleted t)).setFrame t none)
      ((Atom.kill t).apply l) :=
  (((h.detach t).setState t _).emit _).setFrame t none

theorem Sim.bury (h : Sim k l) (hf : Lists.Free l.links t) :
    Sim { k with links := LinkStore.push k.links .dead t }
      { l with links := Lists.push l.links .dead t } := by
  obtain ⟨s, rfl, hs⟩ := h
  exact ⟨{ s with links := s.links.push .dead t }, rfl,
    ⟨hs.links.push .dead t hf, hs.timerLinks, hs.ownedLinks, hs.timersLinks⟩⟩

theorem Sim.released (h : Sim k l) (hl : Sound l) (t : Place c) (ht : t ≠ osIdleTask)
    (hd : l.stateOf t ≠ OS_TASK_DEAD) :
    Sim (if c.mutexInheritance then
        ((((k.osTaskDetach t).setState t OS_TASK_DEAD).emit (.deleted t)).setFrame t
          none).osMutexReleaseAll t
      else ((((k.osTaskDetach t).setState t OS_TASK_DEAD).emit (.deleted t)).setFrame t none))
      (AvrOs.released l t) := by
  have h1 := h.kill t
  have hs1 := (Atom.kill t).sound hl ⟨ht, hd⟩
  unfold AvrOs.released
  dsimp only
  by_cases hinh : c.mutexInheritance = true
  · rw [if_pos hinh, if_pos hinh]
    exact h1.releaseLoop _ hs1 hinh t
  · rw [if_neg hinh, if_neg hinh]
    exact h1

theorem Sim.delete (hl : Sound l) (t : Place c) (ht : t ≠ osIdleTask)
    (hd : l.stateOf t ≠ OS_TASK_DEAD) {k' : Kernel c Links} (h' : Sim k' (AvrOs.released l t)) :
    Sim (if (k'.tasks t).dynamic then { k' with links := LinkStore.push k'.links .dead t } else k')
      (AvrOs.delete l t) := by
  obtain ⟨hrun, hdead⟩ := released_run hl t ht hd
  have hs := hrun.sound hl
  have hdyn : (k'.tasks t).dynamic = ((AvrOs.released l t).tasks t).dynamic := by rw [h'.tasks]
  unfold AvrOs.delete
  dsimp only
  rw [hdyn]
  split
  · refine h'.bury (hs.linked.loose ?_ ?_ hdead.2).2.1.free
    · rw [hdead.1]; simp
    · rw [hdead.1]; simp
  · exact h'

theorem osTaskDelete_sim (h : Sim k l) (hl : Sound l) (hr : Running l) (t : Option (Place c)) :
    Sim (k.osTaskDelete t) (l.osTaskDelete t) := by
  have h1 := h.returns (.osTaskDelete t) .void
  have hl1 : Sound (l.returns (.osTaskDelete t) .void) := setFrame_sound hl _ _
  have hr1 : Running (l.returns (.osTaskDelete t) .void) := hr
  unfold osTaskDelete
  dsimp only
  rw [h.current, h1.stateOf]
  generalize t.getD l.currentTask = u
  generalize hk₁ : k.returns (.osTaskDelete t) .void = k₁ at h1 ⊢
  have hcur1 : (l.returns (.osTaskDelete t) .void).currentTask = l.currentTask := rfl
  generalize l.returns (.osTaskDelete t) .void = l₁ at h1 hl1 hr1 hcur1 ⊢
  rw [← hcur1]
  split
  case isTrue hc =>
    obtain ⟨hi, hdead⟩ := hc
    have hrel := h1.released hl1 u hi hdead
    have hdel := Sim.delete hl1 u hi hdead hrel
    have hs := (Move.delete u).sound hl1 ⟨hi, hdead⟩
    have hcur := delete_current hl1 u hi hdead
    split
    case isTrue he => exact hdel.dispatch
    case isFalse he =>
      refine hdel.schedule hs.linked ?_ 0
      have hb : l₁.stateOf l₁.currentTask ≠ OS_TASK_BLOCKED := by
        rw [hr1.kind]
        simp
      rw [Running, hcur, delete_frame hl1 u hi hdead l₁.currentTask (Ne.symm he) hb]
      exact hr1
  case isFalse => exact h1

theorem osTaskSuspend_sim (h : Sim k l) (t : Option (Place c)) :
    Sim (k.osTaskSuspend t) (l.osTaskSuspend t) := by
  have h1 := h.returns (.osTaskSuspend t) .void
  unfold osTaskSuspend
  dsimp only
  rw [h.current, h1.stateOf]
  split
  · have hr : ∀ (k : Kernel c Links) (l : ListKernel c) u b, Sim k l →
        Sim (k.setResult u b) (l.setResult u b) := by
      intro k l u b h
      obtain ⟨s, rfl, hs⟩ := h
      exact ⟨s, rfl, hs⟩
    have h2 := ((hr _ _ (t.getD l.currentTask) false (h1.detach (t.getD l.currentTask))).setState
      (t.getD l.currentTask) OS_TASK_SUSPENDED).emit (.suspended (t.getD l.currentTask))
    split
    · exact h2.dispatch
    · exact h2
  · exact h1

theorem osTaskResumeFromISR_sim (h : Sim k l) (hl : Sound l) (t : Place c) :
    Sim (k.osTaskResumeFromISR t) (l.osTaskResumeFromISR t) := by
  unfold osTaskResumeFromISR
  rw [h.stateOf]
  split
  case isTrue hs =>
    have hl1 : Linked (l.emit (.resumed t)) := hl.linked
    refine (h.emit _).ready (hl1.loose ?_ ?_ (hl1.notDead ?_))
    · show l.stateOf t ≠ _
      rw [hs]; simp
    · show l.stateOf t ≠ _
      rw [hs]; simp
    · show l.stateOf t ≠ _
      rw [hs]; simp
  case isFalse => exact h

theorem osTaskResume_sim (h : Sim k l) (hl : Sound l) (hr : Running l) (t : Place c) :
    Sim (k.osTaskResume t) (l.osTaskResume t) := by
  obtain ⟨hm, hr1⟩ := osTaskResumeFromISR_moves (a := .call (.osTaskResume t)) hr t (Or.inl rfl)
  have hs1 : Sound ((l.osTaskResumeFromISR t).returns (.osTaskResume t) .void) :=
    setFrame_sound (hm.sound hl) _ _
  exact ((osTaskResumeFromISR_sim h hl t).returns _ _).schedule hs1.linked hr1 0

theorem Sim.repriority (h : Sim k l) (hl : Linked l) (t : Place c) (p : ℕ) {k' : Kernel c Links}
    (hk : k' = k.setTask t { k.tasks t with basePriority := p }) :
    Sim (if k'.osInheritedPriority t > k'.priority t then
        k'.osPriorityRaise t (k'.osInheritedPriority t)
      else if k'.osInheritedPriority t < k'.priority t then
        (k'.setPriority t (k'.osInheritedPriority t)).osRequeue t
      else k') (AvrOs.repriority l t p) := by
  have h1 : Sim k' (l.setTask t { l.tasks t with basePriority := p }) := by
    rw [hk, h.tasks]
    exact h.setTask _
  have hl1 : Linked (l.setTask t { l.tasks t with basePriority := p }) :=
    setTask_linked hl _ rfl rfl rfl
  unfold AvrOs.repriority
  dsimp only
  rw [h1.inherited, h1.priority]
  split
  · exact h1.raiseLoop _ hl1 t _
  · split
    · refine (h1.setPriority t _).osRequeue t fun i hi => ?_
      rw [setPriority_list] at hi
      exact hl1.mem_priorityList i hi
    · exact h1

theorem osTaskSetPriority_sim (h : Sim k l) (hl : Sound l) (hr : Running l)
    (t : Option (Place c)) (p : Byte) :
    Sim (k.osTaskSetPriority t p) (l.osTaskSetPriority t p) := by
  have h1 := h.returns (.osTaskSetPriority t p) .void
  have hl1 : Sound (l.returns (.osTaskSetPriority t p) .void) := setFrame_sound hl _ _
  have hs := (Move.repriority (t.getD l.currentTask) (osTaskPriority p.toNat)).sound hl1
    (osTaskPriority_bounds p.toNat)
  unfold osTaskSetPriority
  rw [h.current]
  exact (h1.repriority hl1.linked _ _ rfl).schedule hs.linked
    ((repriority_same _ _ _).running (k := l.returns (.osTaskSetPriority t p) .void) hr) 0

theorem osTaskReap_sim (h : Sim k l) : Sim k.osTaskReap l.osTaskReap := by
  unfold osTaskReap
  dsimp only
  rw [h.links_head, head_lists]
  have h1 : Sim { k with links := LinkStore.pop k.links .dead }
      { l with links := Lists.pop l.links .dead } := by
    obtain ⟨s, rfl, hs⟩ := h
    exact ⟨{ s with links := s.links.pop .dead }, rfl,
      ⟨hs.links.pop .dead, hs.timerLinks, hs.ownedLinks, hs.timersLinks⟩⟩
  exact h1.returns _ _

/-! ### Actions -/

theorem Sim.legal (h : Sim k l) (x : Call c) : k.legal x ↔ l.legal x := by
  cases x <;> simp only [Kernel.legal, h.stateOf, h.links_list, waiters, h.owner, toList_lists]

theorem exec_sim (h : Sim k l) (hl : Rest l) (x : Call c) (hx : l.legal x) :
    Sim (k.exec x) (l.exec x) := by
  obtain ⟨hs, hr, hn⟩ := hl
  cases x with
  | osTaskCreate t p d => exact osTaskCreate_sim h hs hr hn t p d hx.1 hx.2
  | osTaskDelete t => exact osTaskDelete_sim h hs hr t
  | osTaskSuspend t => exact osTaskSuspend_sim h t
  | osTaskResume t => exact osTaskResume_sim h hs hr t
  | osTaskSetPriority t p => exact osTaskSetPriority_sim h hs hr t p
  | osTaskReap => exact osTaskReap_sim h
  | osYield => exact (h.returns .osYield .void).schedule hs.linked hr 1
  | osDelay ticks => exact osDelay_sim h hs hr ticks
  | osDelayUntil previous period => exact osDelayUntil_sim h hs hr previous period
  | osMutexInit m => exact osMutexInit_sim h m hs hx.2
  | osMutexTryLock m timeout => exact osMutexTryLock_sim h hs hr _ m timeout
  | osMutexLock m => exact osMutexTryLock_sim h hs hr _ m _
  | osMutexUnlock m => exact osMutexUnlock_sim h hs hr m
  | osSemaphoreInit s count limit => exact osSemaphoreInit_sim h s count limit
  | osSemaphoreTake s timeout => exact osSemaphoreTake_sim h hs hr s timeout
  | osSemaphoreGive s => exact osSemaphoreGive_sim h hs hr s
  | osQueueInit q itemSize length => exact osQueueInit_sim h q itemSize length
  | osQueueSend q item timeout => exact osQueueSend_sim h hs hr q item timeout
  | osQueueReceive q item timeout => exact osQueueReceive_sim h hs hr q item timeout
  | osEventInit e => exact osEventInit_sim h e
  | osEventWait e flags options timeout => exact osEventWait_sim h hs hr e flags options timeout
  | osEventSet e flags => exact osEventSet_sim h hs hr e flags
  | osEventClear e flags => exact (osEventClear_sim h e flags).returns _ _
  | osTimerStart tm delay period function =>
    exact (osTimerStart_sim h tm delay period function).returns _ _
  | osTimerStop tm => exact (osTimerRemove_sim h tm).returns _ _

theorem execIsr_sim (h : Sim k l) (hl : Sound l) (hr : Running l) (x : IsrCall c) :
    Sim (k.execIsr x) (l.execIsr x) := by
  cases x with
  | osTaskResumeFromISR t => exact osTaskResumeFromISR_sim h hl t
  | osSemaphoreGiveFromISR s => exact osSemaphoreGiveFromISR_sim h hl s
  | osEventSetFromISR e flags => exact osEventSetFromISR_sim h hl e flags
  | osEventClear e flags => exact osEventClear_sim h e flags
  | osTimerStart tm delay period function => exact osTimerStart_sim h tm delay period function
  | osTimerStop tm => exact osTimerRemove_sim h tm
  | osQueueSendFromISR q item => exact (h.put hl hr _ q item _).1
  | osQueueReceiveFromISR q item => exact (h.get hl hr _ q item _).1
  | store p b =>
    obtain ⟨s, rfl, hs⟩ := h
    exact ⟨s, rfl, hs⟩

theorem execRest_sim (h : Sim k l) (hl : Sound l) (hr : Running l) (call : Call c) (r : Bool) :
    Sim (k.execRest call r) (l.execRest call r) := by
  cases call with
  | osMutexTryLock m timeout => exact osMutexTryLockRest_sim h hl.linked _ m r
  | osMutexLock m => exact osMutexTryLockRest_sim h hl.linked _ m r
  | osSemaphoreTake s timeout => exact h.returns _ _
  | osQueueSend q item timeout => exact osQueueRest_sim h hl hr _ r
  | osQueueReceive q item timeout => exact osQueueRest_sim h hl hr _ r
  | osEventWait e flags options timeout => exact osEventWaitRest_sim h _ r
  | _ => exact h.returns _ _

theorem osRun_sim (h : Sim k l) (hl : Sound l) (hr : Running l) (hi : l.currentTask = osIdleTask) :
    Sim k.osRun l.osRun := by
  have hg : (Atom.start).guard l := ⟨hi, hr.kind⟩
  have hs := (Atom.start).sound hl hg
  have h1 : Sim { k.setTask osIdleTask { k.tasks osIdleTask with
        priority := 0, basePriority := 0 } with started := true } ((Atom.start).apply l) := by
    obtain ⟨s, rfl, hs⟩ := h
    exact ⟨s, rfl, hs⟩
  refine (h1.setFrame osIdleTask (some .preempted)).schedule (setFrame_sound hs _ _).linked ?_ 0
  show (Function.update l.tasks osIdleTask _ l.currentTask).state = _
  rw [hi, Function.update_self, ← hr, hi]

theorem Sim.setMode (h : Sim k l) (mode : Mode) :
    Sim { k with mode := mode } { l with mode := mode } := by
  obtain ⟨s, rfl, hs⟩ := h
  exact ⟨s, rfl, hs⟩

theorem Sim.mode (h : Sim k l) : k.mode = l.mode := by
  obtain ⟨s, rfl, -⟩ := h
  rfl

theorem Sim.timers (h : Sim k l) : k.timers = l.timers ∧ k.ticks = l.ticks := by
  obtain ⟨s, rfl, hs⟩ := h
  exact ⟨rfl, rfl⟩

theorem Sim.frames (h : Sim k l) : k.frames = l.frames := by
  obtain ⟨s, rfl, -⟩ := h
  rfl

theorem Sim.started (h : Sim k l) : k.started = l.started := by
  obtain ⟨s, rfl, -⟩ := h
  rfl

theorem Sim.log (h : Sim k l) : k.log = l.log := by
  obtain ⟨s, rfl, -⟩ := h
  rfl

theorem Sim.history (h : Sim k l) (t : Place c) : k.history t = l.history t := by
  unfold Kernel.history
  rw [h.log]

theorem Sim.userMode (h : Sim k l) : k.userMode ↔ l.userMode := by
  unfold Kernel.userMode
  rw [h.mode, h.frames, h.current]

theorem Sim.mine (h : Sim k l) (x : Call c) : k.mine x = l.mine x := by
  unfold Kernel.mine
  rw [h.owner, h.current]

/-- One action does the same on both levels, or is possible on neither. -/
theorem step_sim (h : Sim k l) (hl : Rest l) (a : Action c) {k' : Kernel c Links}
    (hs : k.step a = some k') : ∃ l', l.step a = some l' ∧ Sim k' l' := by
  have hsound := hl.sound
  have hrun := hl.running
  have hpre : Sim (k.setFrame k.currentTask (some .preempted))
      (l.setFrame l.currentTask (some .preempted)) := by
    rw [h.current]
    exact h.setFrame _ _
  cases a with
  | run =>
    simp only [step, h.userMode, h.current, h.started] at hs ⊢
    split at hs
    case isTrue hc =>
      injection hs with hs
      rw [if_pos hc]
      exact ⟨_, rfl, hs ▸ osRun_sim h hsound hrun hc.2.1⟩
    case isFalse => cases hs
  | call x =>
    simp only [step, h.userMode, h.legal, h.current, h.mine] at hs ⊢
    split at hs
    case isTrue hc =>
      injection hs with hs
      rw [if_pos hc]
      have hl1 : Rest (l.emit (.called l.currentTask x (l.mine x))) :=
        ⟨emit_sound hsound _, hrun, hl.noDead⟩
      exact ⟨_, rfl, hs ▸ exec_sim (h.emit _) hl1 x hc.2⟩
    case isFalse => cases hs
  | resume =>
    simp only [step, h.mode, h.frames, h.current, h.tasks] at hs ⊢
    split at hs
    case isTrue hm =>
      rw [if_pos hm]
      split at hs
      · injection hs with hs
        exact ⟨_, rfl, hs ▸ h.setFrame _ _⟩
      · injection hs with hs
        exact ⟨_, rfl, hs ▸ (h.setFrame _ _).emit _⟩
      · injection hs with hs
        exact ⟨_, rfl, hs ▸ execRest_sim h hsound hrun _ _⟩
      · cases hs
    case isFalse => cases hs
  | isrEnter os =>
    simp only [step, h.userMode] at hs ⊢
    split at hs
    case isTrue hc =>
      injection hs with hs
      rw [if_pos hc]
      exact ⟨_, rfl, hs ▸ hpre.setMode _⟩
    case isFalse => cases hs
  | isrCall x =>
    simp only [step, h.mode] at hs ⊢
    split at hs
    · split at hs
      · injection hs with hs
        rename_i hx
        rw [if_pos hx]
        exact ⟨_, rfl, hs ▸ execIsr_sim h hsound hrun x⟩
      · cases hs
    · split at hs
      · injection hs with hs
        rename_i hx
        rw [if_pos hx]
        exact ⟨_, rfl, hs ▸ execIsr_sim h hsound hrun x⟩
      · cases hs
    · cases hs
  | isrLeave =>
    have hl1 : Sound { l with mode := .thread } := hsound.congr rfl rfl rfl rfl rfl rfl
    simp only [step, h.mode] at hs ⊢
    split at hs
    · injection hs with hs
      exact ⟨_, rfl, hs ▸ (h.setMode .thread).schedule hl1.linked hrun 0⟩
    · injection hs with hs
      exact ⟨_, rfl, hs ▸ h.setMode .thread⟩
    · cases hs
  | tickEnter =>
    simp only [step, h.userMode, h.started] at hs ⊢
    split at hs
    case isTrue hc =>
      injection hs with hs
      rw [if_pos hc]
      exact ⟨_, rfl, hs ▸ (hpre.tickEnter (setFrame_sound hsound _ _)).setMode _⟩
    case isFalse => cases hs
  | tickTimer =>
    simp only [step, h.mode, osTimerDue_sim h] at hs ⊢
    split at hs
    case h_1 tm hm hd =>
      split at hs
      · injection hs with hs
        rename_i hx
        rw [if_pos hx]
        exact ⟨_, rfl, hs ▸ (osTimerTick_sim h tm hd).setMode _⟩
      · cases hs
    · cases hs
  | tickLeave =>
    have hl1 : Sound { l with mode := .thread } := hsound.congr rfl rfl rfl rfl rfl rfl
    simp only [step, h.mode, osTimerDue_sim h] at hs ⊢
    split at hs
    · split at hs
      · injection hs with hs
        rename_i hx
        rw [if_pos hx]
        exact ⟨_, rfl, hs ▸ (h.setMode .thread).tickLeave hl1 hrun⟩
      · cases hs
    · cases hs
  | store p x =>
    simp only [step, h.userMode] at hs ⊢
    split at hs
    case isTrue hc =>
      injection hs with hs
      rw [if_pos hc]
      refine ⟨_, rfl, hs ▸ ?_⟩
      obtain ⟨s, rfl, hst⟩ := h
      exact ⟨s, rfl, hst⟩
    case isFalse => cases hs
  | setTickVar p x =>
    simp only [step, h.userMode] at hs ⊢
    split at hs
    case isTrue hc =>
      injection hs with hs
      rw [if_pos hc]
      refine ⟨_, rfl, hs ▸ ?_⟩
      obtain ⟨s, rfl, hst⟩ := h
      exact ⟨s, rfl, hst⟩
    case isFalse => cases hs

/-- The kernel on lists follows the one on its links through any number of actions. -/
theorem steps_sim (as : List (Action c)) (h : Sim k l) (hl : Rest l) {k' : Kernel c Links}
    (hs : steps step k as = some k') : ∃ l', steps step l as = some l' ∧ Sim k' l' := by
  induction as generalizing k l with
  | nil =>
    injection hs with hs
    exact ⟨l, rfl, hs ▸ h⟩
  | cons a as ih =>
    obtain ⟨k₁, h₁, h₂⟩ := Option.bind_eq_some_iff.mp hs
    obtain ⟨l₁, hl₁, hs₁⟩ := step_sim h hl a h₁
    obtain ⟨l', hl', hs'⟩ := ih hs₁ (hl.step hl₁) h₂
    exact ⟨l', Option.bind_eq_some_iff.mpr ⟨l₁, hl₁, hl'⟩, hs'⟩

theorem init_sim (c : Config) : Sim (osInit c Links) (osInit c Lists) :=
  ⟨⟨Links.empty, Links.empty, Links.empty, Links.empty⟩, rfl,
    ⟨Refines.empty, Refines.empty, Refines.empty, Refines.empty⟩⟩

/-- Whatever the kernel gets to on its links, it gets to on lists by the same actions. -/
theorem reachable_sim {ok : Kernel c Links → Action c → Prop} {ok' : ListKernel c → Action c → Prop}
    (hok : ∀ k l a, Sim k l → ok k a → ok' l a) (h : ReachableBy ok k) :
    ∃ l, ReachableBy ok' l ∧ Sim k l := by
  refine h.simulate (init_sim c) fun k a k' l hl hs hk hstep => ?_
  exact ⟨hok k l a hs hk, step_sim hs (rest_of_reachable hl) a hstep⟩

/-- So does every reachable kernel, whatever the actions were. -/
theorem reachable_lists {k : Kernel c Links} (h : Reachable k) :
    ∃ l : ListKernel c, Reachable l ∧ Sim k l := reachable_sim (fun _ _ _ _ _ => trivial) h

end AvrOs
