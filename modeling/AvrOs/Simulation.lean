import AvrOs.Reach

/-!
# The kernel on its links does what the kernel on lists does

Both run the same code. A member is linked in only where it is on no list yet, which the
invariant of the kernel on lists shows, so the links keep standing for the lists.
-/

namespace AvrOs
open Intrusive Transition Kernel

variable {c : Config}

/-- The memory the lists of the kernel are kept in. -/
structure Stores (c : Config) where
  links : Links (ListId c) (Place c)
  timerLinks : Links Unit (Place c)
  ownedLinks : Links (Place c) (Place c)
  timersLinks : Links Unit (Place c)

/-- The kernel with its lists kept in this memory. -/
def Kernel.over (l : ListKernel c) (s : Stores c) : Kernel c Links where
  tasks := l.tasks
  links := s.links
  timerLinks := s.timerLinks
  currentTask := l.currentTask
  ticks := l.ticks
  aging := l.aging
  owner := l.owner
  ownedLinks := s.ownedLinks
  semaphores := l.semaphores
  queues := l.queues
  events := l.events
  timers := l.timers
  timersLinks := s.timersLinks
  memory := l.memory
  tickVars := l.tickVars
  frames := l.frames
  started := l.started
  mode := l.mode
  log := l.log

/-- The memory stands for these lists. -/
structure Stands (s : Stores c) (links : Lists (ListId c) (Place c))
    (timerLinks : Lists Unit (Place c)) (ownedLinks : Lists (Place c) (Place c))
    (timersLinks : Lists Unit (Place c)) : Prop where
  links : Refines s.links links
  timerLinks : Refines s.timerLinks timerLinks
  ownedLinks : Refines s.ownedLinks ownedLinks
  timersLinks : Refines s.timersLinks timersLinks

/-- The kernel on links stands for the one on lists. -/
def Sim (k : Kernel c Links) (l : ListKernel c) : Prop :=
  ∃ s, k = l.over s ∧ Stands s l.links l.timerLinks l.ownedLinks l.timersLinks

/-! ### Lists -/

section
variable {k : Kernel c Links} {l : ListKernel c} {t : Place c}

theorem Sim.links_head (h : Sim k l) (i : ListId c) : LinkStore.head k.links i = (l.links i).head? := by
  obtain ⟨s, rfl, hs⟩ := h
  exact hs.links.head_eq i

theorem Sim.links_list (h : Sim k l) (i : ListId c) : LinkStore.toList k.links i = l.links i := by
  obtain ⟨s, rfl, hs⟩ := h
  exact congrFun hs.links.lists_eq i

theorem Sim.timer_head (h : Sim k l) : LinkStore.head k.timerLinks () = (l.timerLinks ()).head? := by
  obtain ⟨s, rfl, hs⟩ := h
  exact hs.timerLinks.head_eq ()

theorem Sim.owned_head (h : Sim k l) : LinkStore.head k.ownedLinks t = (l.ownedLinks t).head? := by
  obtain ⟨s, rfl, hs⟩ := h
  exact hs.ownedLinks.head_eq t

theorem Sim.owned_list (h : Sim k l) : LinkStore.toList k.ownedLinks t = l.ownedLinks t := by
  obtain ⟨s, rfl, hs⟩ := h
  exact congrFun hs.ownedLinks.lists_eq t

theorem Sim.timers_head (h : Sim k l) :
    LinkStore.head k.timersLinks () = (l.timersLinks ()).head? := by
  obtain ⟨s, rfl, hs⟩ := h
  exact hs.timersLinks.head_eq ()

theorem Sim.insert (h : Sim k l) (i : ListId c) (key : ℕ) (hf : Lists.Free l.links t) :
    Sim (k.osListInsert i t key) (l.osListInsert i t key) := by
  obtain ⟨s, rfl, hs⟩ := h
  exact ⟨{ s with links := s.links.insert i t _ }, rfl,
    ⟨hs.links.insert i t _ hf, hs.timerLinks, hs.ownedLinks, hs.timersLinks⟩⟩

theorem Sim.remove (h : Sim k l) (i : ListId c) (t : Place c) :
    Sim (k.osListRemove i t) (l.osListRemove i t) := by
  obtain ⟨s, rfl, hs⟩ := h
  exact ⟨{ s with links := s.links.remove i t }, rfl,
    ⟨hs.links.remove i t, hs.timerLinks, hs.ownedLinks, hs.timersLinks⟩⟩

theorem Sim.timerInsert (h : Sim k l) (timeout : OsTick c) (hf : t ∉ l.timerLinks ()) :
    Sim (k.osTimerListInsert t timeout) (l.osTimerListInsert t timeout) := by
  obtain ⟨s, rfl, hs⟩ := h
  exact ⟨{ s with timerLinks := s.timerLinks.insert () t _ }, rfl,
    ⟨hs.links, hs.timerLinks.insert () t _ fun _ => hf, hs.ownedLinks, hs.timersLinks⟩⟩

theorem Sim.timerRemove (h : Sim k l) (t : Place c) :
    Sim (k.osTimerListRemove t) (l.osTimerListRemove t) := by
  obtain ⟨s, rfl, hs⟩ := h
  exact ⟨{ s with timerLinks := s.timerLinks.remove () t }, rfl,
    ⟨hs.links, hs.timerLinks.remove () t, hs.ownedLinks, hs.timersLinks⟩⟩

theorem Sim.setTask (h : Sim k l) (x : OsTask c) : Sim (k.setTask t x) (l.setTask t x) := by
  obtain ⟨s, rfl, hs⟩ := h
  exact ⟨s, rfl, hs⟩

theorem Sim.tasks (h : Sim k l) : k.tasks = l.tasks := by
  obtain ⟨s, rfl, -⟩ := h
  rfl

theorem Sim.priority (h : Sim k l) (u : Place c) : k.priority u = l.priority u := by
  obtain ⟨s, rfl, -⟩ := h
  rfl

theorem Sim.emit (h : Sim k l) (e : Event c) : Sim (k.emit e) (l.emit e) := by
  obtain ⟨s, rfl, hs⟩ := h
  exact ⟨s, rfl, hs⟩

theorem Sim.setFrame (h : Sim k l) (t : Place c) (f : Option (Frame c)) :
    Sim (k.setFrame t f) (l.setFrame t f) := by
  obtain ⟨s, rfl, hs⟩ := h
  exact ⟨s, rfl, hs⟩

theorem Sim.setPriority (h : Sim k l) (t : Place c) (p : ℕ) :
    Sim (k.setPriority t p) (l.setPriority t p) := by
  obtain ⟨s, rfl, hs⟩ := h
  exact ⟨s, rfl, hs⟩

theorem Sim.setState (h : Sim k l) (t : Place c) (x : Byte) :
    Sim (k.setState t x) (l.setState t x) := by
  obtain ⟨s, rfl, hs⟩ := h
  exact ⟨s, rfl, hs⟩

/-! ### scheduler.c -/

theorem Sim.osRequeue (h : Sim k l) (t : Place c)
    (hm : ∀ i, l.priorityList t = some i → t ∈ l.links i) : Sim (k.osRequeue t) (l.osRequeue t) := by
  have hp : k.priorityList t = l.priorityList t := by
    obtain ⟨s, rfl, -⟩ := h
    rfl
  unfold Kernel.osRequeue
  rw [hp]
  cases hi : l.priorityList t with
  | none => exact h
  | some i =>
    have hsep : Lists.Separate l.links := by
      obtain ⟨s, -, hs⟩ := h
      exact hs.links.separate
    have hf : Lists.Free (l.osListRemove i t).links t := by
      intro j hj
      have hj' := (Lists.mem_remove _ _ _ _ _ hsep).mp hj
      exact hj'.2 ⟨hsep.disjoint _ _ t hj'.1 (hm i hi), rfl⟩
    have hr := (h.remove i t).insert i (l.priority t) hf
    dsimp only
    have hpk : (k.osListRemove i t).priority t = l.priority t := h.priority t
    rw [hpk]
    exact hr.emit _

theorem Sim.inherit (h : Sim k l) (p : ℕ) (m : Place c) : k.inherit p m = l.inherit p m := by
  unfold Kernel.inherit
  simp only [h.links_head, head_lists, h.priority]

theorem Sim.inherited (h : Sim k l) (t : Place c) :
    k.osInheritedPriority t = l.osInheritedPriority t := by
  unfold osInheritedPriority
  have hi : k.inherit = l.inherit := by
    funext p m
    exact h.inherit p m
  rw [h.owned_list, hi, h.tasks]
  rfl

theorem Sim.raiseLoop (fuel : ℕ) (h : Sim k l) (hl : Linked l) (t : Place c) (p : ℕ) :
    Sim (osPriorityRaiseLoop fuel k t p) (osPriorityRaiseLoop fuel l t p) := by
  induction fuel generalizing k l t with
  | zero => exact h
  | succ fuel ih =>
    have hr : Sim ((k.setPriority t p).osRequeue t) ((l.setPriority t p).osRequeue t) :=
      (h.setPriority t p).osRequeue t fun i hi => by
        rw [setPriority_list] at hi
        exact hl.mem_priorityList i hi
    have hrl := requeue_linked hl t p
    unfold osPriorityRaiseLoop
    rw [h.priority]
    by_cases hlt : l.priority t < p
    · rw [if_pos hlt, if_pos hlt]
      dsimp only
      rw [hr.tasks]
      have hb : ((k.setPriority t p).osRequeue t).blockingOwner t =
          ((l.setPriority t p).osRequeue t).blockingOwner t := by
        obtain ⟨s, he, -⟩ := hr
        rw [he]
        rfl
      rw [hb]
      split
      · cases ((l.setPriority t p).osRequeue t).blockingOwner t with
        | none => exact hr
        | some o => exact ih hr hrl o
      · exact hr
    · rw [if_neg hlt, if_neg hlt]
      exact h

theorem Sim.settle (h : Sim k l) (t : Place c) : Sim (k.osSettle t) (l.osSettle t) := by
  unfold osSettle
  rw [h.inherited, h.tasks]
  split
  · split
    · exact h.setPriority t _
    · exact h
  · exact h

theorem Sim.dispatch (h : Sim k l) : Sim k.osDispatch l.osDispatch := by
  unfold osDispatch
  rw [h.links_head, head_lists]
  cases (l.links .ready).head? with
  | none => exact h
  | some n =>
    obtain ⟨s, rfl, hs⟩ := h
    exact ⟨{ s with links := s.links.pop .ready }, rfl,
      ⟨hs.links.pop .ready, hs.timerLinks, hs.ownedLinks, hs.timersLinks⟩⟩

theorem Sim.current (h : Sim k l) : k.currentTask = l.currentTask := by
  obtain ⟨s, rfl, -⟩ := h
  rfl

theorem Sim.schedule (h : Sim k l) (hl : Linked l) (hr : Running l) (yield : ℕ) :
    Sim (k.osSchedule yield) (l.osSchedule yield) := by
  have hn : k.osScheduleNeeded yield = l.osScheduleNeeded yield := by
    unfold osScheduleNeeded
    rw [h.links_head, head_lists]
    obtain ⟨s, rfl, -⟩ := h
    rfl
  unfold osSchedule
  rw [hn]
  split
  · have hst := h.settle l.currentTask
    have hls : Linked (l.osSettle l.currentTask) := by
      obtain ⟨p, hp⟩ := settle_eq l l.currentTask
      rw [hp]
      exact setPriority_running hl hr.kind p
    have hrs : (l.osSettle l.currentTask).stateOf l.currentTask = OS_TASK_RUNNING := by
      rw [stateOf, (settle_same l l.currentTask).state]
      exact hr.kind
    have hfree := (hls.running hrs).2.1.free
    dsimp only
    rw [h.current]
    generalize k.osSettle l.currentTask = k₁ at hst ⊢
    generalize l.osSettle l.currentTask = l₁ at hst hfree ⊢
    have hset := hst.setState l.currentTask OS_TASK_READY
    rw [hset.priority]
    exact (hset.insert .ready _ hfree).dispatch
  · exact h

theorem Sim.sleep (h : Sim k l) (hl : Linked l) (hr : l.stateOf l.currentTask = OS_TASK_RUNNING)
    (call : Call c) (list : Option (WaitList c)) (timeout : OsTick c) :
    Sim (k.sleep call list timeout) (l.sleep call list timeout) := by
  obtain ⟨hfree, htimer, -⟩ := (hl.running hr).2.1
  obtain ⟨s, rfl, hs⟩ := h
  have h0 : Sim (l.over s) l := ⟨s, rfl, hs⟩
  have h1 := h0.setTask (t := l.currentTask) { l.tasks l.currentTask with
    state := (l.tasks l.currentTask).state ||| OS_TASK_BLOCKED, waitList := list }
  unfold Kernel.sleep
  cases list with
  | none =>
    dsimp only
    by_cases ht : timeout ≠ OS_WAIT_FOREVER c
    · rw [if_pos ht, if_pos ht]
      exact ((h1.timerInsert timeout htimer).emit _).setFrame _ _
    · rw [if_neg ht, if_neg ht]
      exact (h1.emit _).setFrame _ _
  | some w =>
    have h2 := h1.insert (t := l.currentTask) (.wait w) ((l.setTask l.currentTask
      { l.tasks l.currentTask with
        state := (l.tasks l.currentTask).state ||| OS_TASK_BLOCKED
        waitList := some w }).priority l.currentTask) hfree
    dsimp only
    by_cases ht : timeout ≠ OS_WAIT_FOREVER c
    · rw [if_pos ht, if_pos ht]
      exact ((h2.timerInsert timeout htimer).emit _).setFrame _ _
    · rw [if_neg ht, if_neg ht]
      exact (h2.emit _).setFrame _ _

theorem Sim.unblock (h : Sim k l) (t : Place c) : Sim (k.osUnblock t) (l.osUnblock t) := by
  obtain ⟨s, rfl, hs⟩ := h
  have h0 : Sim (l.over s) l := ⟨s, rfl, hs⟩
  unfold osUnblock
  have hw : (l.over s).tasks = l.tasks := rfl
  rw [hw]
  cases (l.tasks t).waitList with
  | none =>
    dsimp only
    rw [hw]
    split
    · exact h0.timerRemove t
    · exact h0
  | some w =>
    have h1 := (h0.remove (.wait w) t).setTask (t := t) { l.tasks t with waitList := none }
    dsimp only
    have hst : (((l.over s).osListRemove (.wait w) t).setTask t
        { ((l.over s).osListRemove (.wait w) t).tasks t with waitList := none }).tasks =
        ((l.osListRemove (.wait w) t).setTask t
          { (l.osListRemove (.wait w) t).tasks t with waitList := none }).tasks := rfl
    rw [hst]
    split
    · exact h1.timerRemove t
    · exact h1

theorem Sim.ready (h : Sim k l) (hl : Loose t l) : Sim (k.osReady t) (l.osReady t) := by
  have h1 := h.setState t OS_TASK_READY
  unfold osReady
  dsimp only
  rw [h1.priority]
  exact h1.insert .ready _ hl.2.1.free

theorem Sim.wake (h : Sim k l) (hl : Linked l) (r : Bool) (hs : l.stateOf t = OS_TASK_BLOCKED) :
    Sim (k.osWake t r) (l.osWake t r) := by
  obtain ⟨s, rfl, hst⟩ := h
  have h0 : Sim (l.over s) l := ⟨s, rfl, hst⟩
  have h1 : Sim (((l.over s).emit (.woken t (l.tasks t).waitList r)).setResult t r)
      ((l.emit (.woken t (l.tasks t).waitList r)).setResult t r) := (h0.emit _).setTask _
  have hl1 : Linked ((l.emit (.woken t (l.tasks t).waitList r)).setResult t r) :=
    setTask_linked (k := l.emit (.woken t (l.tasks t).waitList r)) hl _ rfl rfl rfl
  have hst1 : ((l.emit (.woken t (l.tasks t).waitList r)).setResult t r).stateOf t =
      OS_TASK_BLOCKED := by
    rw [← hs]
    simp [stateOf, setResult, Kernel.setTask, Kernel.emit]
  refine (h1.unblock t).ready (osUnblock_loose hl1 (by rw [hst1]; simp) ?_)
  exact hl1.notDead (by rw [hst1]; simp)

theorem Sim.expire (fuel : ℕ) (h : Sim k l) (hl : Sound l) :
    Sim (osTickExpire fuel k) (osTickExpire fuel l) := by
  induction fuel generalizing k l with
  | zero => exact h
  | succ fuel ih =>
    unfold osTickExpire
    rw [h.timer_head, head_lists]
    cases hh : (l.timerLinks ()).head? with
    | none => exact h
    | some t =>
      have htk : (k.tasks t).wake = k.ticks ↔ (l.tasks t).wake = l.ticks := by
        obtain ⟨s, rfl, -⟩ := h
        exact Iff.rfl
      dsimp only
      by_cases hw : (l.tasks t).wake = l.ticks
      · have hg : (Atom.expire t).guard l :=
          ⟨(hl.linked.2 t).timer.mp (List.mem_of_mem_head? hh), hw⟩
        rw [if_pos hw, if_pos (htk.mpr hw)]
        exact ih (h.wake hl.linked false ((hl.linked.2 t).timed hg.1)) (Atom.sound _ hl hg)
      · rw [if_neg hw, if_neg (fun h => hw (htk.mp h))]
        exact h

theorem Sim.tickEnter (h : Sim k l) (hl : Sound l) : Sim k.osTickEnter l.osTickEnter := by
  have h1 : Sim (({ k with ticks := k.ticks + 1 }).emit .ticked)
      (({ l with ticks := l.ticks + 1 }).emit .ticked) := by
    obtain ⟨s, rfl, hs⟩ := h
    exact ⟨s, rfl, hs⟩
  exact h1.expire _ ((Atom.tick).sound hl trivial)

theorem Sim.ageTask (h : Sim k l) (p : ℕ) (t : Place c) :
    Sim (osAgeTask p k t) (osAgeTask p l t) := by
  unfold osAgeTask
  rw [h.priority]
  by_cases hc : l.priority t ≠ 0 ∧ l.priority t < c.agingLimit ∧
      l.priority t + (if c.roundRobin then 1 else 0) ≤ p
  · rw [if_pos hc, if_pos hc]
    exact h.setPriority t _
  · rw [if_neg hc, if_neg hc]
    exact h

theorem Sim.ageFold (h : Sim k l) (p : ℕ) (ts : List (Place c)) :
    Sim (ts.foldl (osAgeTask p) k) (ts.foldl (osAgeTask p) l) := by
  induction ts generalizing k l with
  | nil => exact h
  | cons t ts ih => exact ih (h.ageTask p t)

theorem Sim.age (h : Sim k l) : Sim k.osAge l.osAge := by
  unfold osAge
  rw [h.current]
  split
  · have h1 := h.settle l.currentTask
    dsimp only
    generalize k.osSettle l.currentTask = k₁ at h1 ⊢
    generalize l.osSettle l.currentTask = l₁ at h1 ⊢
    have ha : k₁.aging = l₁.aging := by
      obtain ⟨s, rfl, -⟩ := h1
      rfl
    have h2 : ∀ n, Sim { k₁ with aging := n } { l₁ with aging := n } := by
      intro n
      obtain ⟨s, rfl, hs⟩ := h1
      exact ⟨s, rfl, hs⟩
    rw [ha]
    split
    · have h3 := h2 c.agingTicks
      rw [show LinkStore.toList k₁.links .ready = l₁.links .ready from h1.links_list _, toList_lists]
      rw [show ({ k₁ with aging := c.agingTicks } : Kernel c Links).priority k₁.currentTask =
        ({ l₁ with aging := c.agingTicks } : ListKernel c).priority l₁.currentTask by
          rw [h3.priority, h1.current]]
      exact h3.ageFold _ _
    · exact h2 _
  · exact h

theorem Sim.tickLeave (h : Sim k l) (hl : Sound l) (hr : Running l) :
    Sim k.osTickLeave l.osTickLeave := by
  obtain ⟨hm, hr'⟩ := osAge_moves (b := l) (a := .tickLeave) hl hr rfl
  exact h.age.schedule (hm.sound hl).linked hr' _

/-! ### Blocking -/

theorem Sim.returns (h : Sim k l) (call : Call c) (v : Value c) :
    Sim (k.returns call v) (l.returns call v) := by
  obtain ⟨s, rfl, hs⟩ := h
  exact ⟨s, rfl, hs⟩

theorem Sim.setWait (h : Sim k l) (t : Place c) (w : Wait) :
    Sim (k.setWait t w) (l.setWait t w) := by
  obtain ⟨s, rfl, hs⟩ := h
  exact ⟨s, rfl, hs⟩

theorem Sim.request (h : Sim k l) (w : Wait) :
    Sim (k.setWait k.currentTask w) (l.setWait l.currentTask w) := by
  rw [h.current]
  exact h.setWait _ w

/-- Both sleep or neither does. -/
theorem Sim.block (h : Sim k l) (hl : Sound l) (hr : l.stateOf l.currentTask = OS_TASK_RUNNING)
    (call : Call c) (list : Option (WaitList c)) (timeout : OsTick c) :
    Sim (k.osBlock call list timeout).1 (l.osBlock call list timeout).1 ∧
      (k.osBlock call list timeout).2 = (l.osBlock call list timeout).2 ∧
      ((l.osBlock call list timeout).2 ≠ none → Sound (l.osBlock call list timeout).1 ∧
        Running (l.osBlock call list timeout).1) := by
  unfold osBlock
  rw [h.current]
  dsimp only
  split
  · exact ⟨h.setState _ _, rfl, fun _ => ⟨setState_sound hl hr _ (by simp) (by simp), by
      simp [Running, Kernel.setState, Kernel.setTask]⟩⟩
  · have hls : Linked (l.osSettle l.currentTask) := by
      obtain ⟨p, hp⟩ := settle_eq l l.currentTask
      rw [hp]
      exact setPriority_running hl.linked hr p
    have hsame := settle_same l l.currentTask
    refine ⟨((h.settle l.currentTask).sleep hls ?_ call list timeout).dispatch, rfl,
      fun hn => absurd rfl hn⟩
    rw [stateOf, hsame.current, hsame.state]
    exact hr

theorem Sim.blockThen (h : Sim k l) (hl : Sound l) (hr : l.stateOf l.currentTask = OS_TASK_RUNNING)
    (call : Call c) (list : Option (WaitList c)) (timeout : OsTick c)
    {f : Kernel c Links → Bool → Kernel c Links} {g : ListKernel c → Bool → ListKernel c}
    (hf : ∀ k' l' b, Sim k' l' → Sound l' → Sim (f k' b) (g l' b)) :
    Sim (k.blockThen call list timeout f) (l.blockThen call list timeout g) := by
  obtain ⟨hs, he, hn⟩ := h.block hl hr call list timeout
  unfold Kernel.blockThen
  generalize k.osBlock call list timeout = p at hs he ⊢
  generalize l.osBlock call list timeout = q at hs he hn ⊢
  obtain ⟨k', r⟩ := p
  obtain ⟨l', r'⟩ := q
  dsimp only at hs he hn
  subst he
  cases r with
  | none => exact hs
  | some b => exact hf k' l' b hs (hn (by simp)).1

theorem osDelay_sim (h : Sim k l) (hl : Sound l) (hr : Running l) (ticks : OsTick c) :
    Sim (k.osDelay ticks) (l.osDelay ticks) := by
  have hv := h.returns (.osDelay ticks) .void
  unfold osDelay
  dsimp only
  split
  · exact h.blockThen hl hr.kind _ _ _ fun _ _ _ h _ => h.returns _ _
  · exact hv.schedule hl.linked hr 1

theorem osDelayUntil_sim (h : Sim k l) (hl : Sound l) (hr : Running l) (previous : Address)
    (period : OsTick c) : Sim (k.osDelayUntil previous period) (l.osDelayUntil previous period) := by
  obtain ⟨s, rfl, hs⟩ := h
  have h1 : Sim { l.over s with
        tickVars := Function.update l.tickVars previous (l.tickVars previous + period) }
      { l with tickVars := Function.update l.tickVars previous (l.tickVars previous + period) } :=
    ⟨s, rfl, hs⟩
  have hl1 : Sound { l with
      tickVars := Function.update l.tickVars previous (l.tickVars previous + period) } :=
    hl.congr rfl rfl rfl rfl rfl rfl
  unfold osDelayUntil
  dsimp only
  have hc : (l.over s).tickVars previous + period - (l.over s).ticks =
      l.tickVars previous + period - l.ticks := rfl
  rw [hc]
  split
  · exact h1.blockThen hl1 hr.kind _ _ _ fun _ _ _ h _ => h.returns _ _
  · exact h1.returns _ _

/-! ### mutex.c -/

theorem Sim.owner (h : Sim k l) : k.owner = l.owner := by
  obtain ⟨s, rfl, -⟩ := h
  rfl

theorem Sim.own (h : Sim k l) (m t : Place c) (hf : Lists.Free l.ownedLinks m) :
    Sim (k.osMutexOwn m t) (l.osMutexOwn m t) := by
  obtain ⟨s, rfl, hs⟩ := h
  unfold osMutexOwn
  split
  · exact ⟨{ s with ownedLinks := s.ownedLinks.push t m }, rfl,
      ⟨hs.links, hs.timerLinks, hs.ownedLinks.push t m hf, hs.timersLinks⟩⟩
  · exact ⟨s, rfl, hs⟩

/-- A mutex nobody owns is on no list of what tasks own. -/
theorem Sound.free_owned (hl : Sound l) (m : Place c) (ho : l.owner m = none) :
    Lists.Free l.ownedLinks m := by
  intro t hm
  cases hinh : c.mutexInheritance with
  | false =>
    rw [hl.owned.off hinh t] at hm
    cases hm
  | true =>
    rw [hl.owned.records hinh, ho] at hm
    cases hm

theorem Sim.offOwned (h : Sim k l) (t m : Place c) :
    Sim (if c.mutexInheritance then
        { k with ownedLinks := LinkStore.remove k.ownedLinks t m } else k)
      { l with ownedLinks := offOwned l t m } := by
  obtain ⟨s, rfl, hs⟩ := h
  unfold AvrOs.offOwned
  split
  · exact ⟨{ s with ownedLinks := s.ownedLinks.remove t m }, rfl,
      ⟨hs.links, hs.timerLinks, hs.ownedLinks.remove t m, hs.timersLinks⟩⟩
  · exact ⟨s, rfl, hs⟩

theorem Sim.setOwner (h : Sim k l) (m : Place c) (o : Option (Place c)) :
    Sim (k.setOwner m o) (l.setOwner m o) := by
  obtain ⟨s, rfl, hs⟩ := h
  exact ⟨s, rfl, hs⟩

/-- The mutex is passed on once its owner has no record of it anymore. -/
theorem Sim.pass (hl : Sound l) (m : Place c) (ho : l.owner m = some t)
    (h : Sim k { l with ownedLinks := AvrOs.offOwned l t m }) :
    Sim (k.osMutexPass m) (({ l with ownedLinks := AvrOs.offOwned l t m } : ListKernel c).osMutexPass m) := by
  unfold osMutexPass
  rw [h.links_head, head_lists]
  cases hh : (l.links (.wait (.mutex m))).head? with
  | none => exact h.setOwner m none
  | some w =>
    have hw := List.mem_of_mem_head? hh
    have hf : Lists.Free (AvrOs.offOwned l t m) m := by
      intro u hu
      cases hinh : c.mutexInheritance with
      | false =>
        rw [AvrOs.offOwned, if_neg (by rw [hinh]; simp), hl.owned.off hinh u] at hu
        cases hu
      | true => exact ((hl.mem_offOwned hinh m ho u m).mp hu).1 rfl
    have hs := pass_sound hl m w ho hw
    have hb := hl.waiter_blocked hw
    refine (h.own m w hf).wake hs.linked true ?_
    rw [osMutexOwn_eq]
    exact hb

theorem Sim.releaseLoop (fuel : ℕ) (h : Sim k l) (hl : Sound l) (hinh : c.mutexInheritance = true)
    (t : Place c) : Sim (osMutexReleaseAllLoop fuel k t) (osMutexReleaseAllLoop fuel l t) := by
  induction fuel generalizing k l with
  | zero => exact h
  | succ fuel ih =>
    unfold osMutexReleaseAllLoop
    rw [h.owned_head, head_lists]
    cases hh : (l.ownedLinks t).head? with
    | none => exact h
    | some m =>
      have hg : l.owner m = some t :=
        (hl.owned.records hinh m t).mp (List.mem_of_mem_head? hh)
      have hpop : Lists.pop l.ownedLinks t = AvrOs.offOwned l t m := by
        obtain ⟨ms, hms⟩ := List.head?_eq_some_iff.mp hh
        simp [Lists.pop, AvrOs.offOwned, hinh, Lists.remove, hms]
      have h1 : Sim { k with ownedLinks := LinkStore.pop k.ownedLinks t }
          { l with ownedLinks := AvrOs.offOwned l t m } := by
        obtain ⟨s, rfl, hs⟩ := h
        refine ⟨{ s with ownedLinks := s.ownedLinks.pop t }, rfl,
          ⟨hs.links, hs.timerLinks, ?_, hs.timersLinks⟩⟩
        show Refines _ (AvrOs.offOwned l t m)
        rw [← hpop]
        exact hs.ownedLinks.pop t
      have hs1 : Sound (({ l with ownedLinks := AvrOs.offOwned l t m } : ListKernel c).osMutexPass m) :=
        release_sound hl m hg
      have h2 := ih (h1.pass hl m hg) hs1
      dsimp only
      rw [pop_lists, hpop]
      exact h2

theorem Sim.inheritSet (h : Sim k l) (t : Place c) :
    Sim (k.setPriority t (k.osInheritedPriority t)) (l.setPriority t (l.osInheritedPriority t)) := by
  rw [h.inherited]
  exact h.setPriority t _

theorem osMutexTryLockRest_sim (h : Sim k l) (hl : Linked l) (call : Call c) (m : Place c)
    (locked : Bool) :
    Sim (osMutexTryLockRest call m k locked) (osMutexTryLockRest call m l locked) := by
  unfold osMutexTryLockRest
  rw [h.owner]
  refine Sim.returns ?_ call _
  split
  · cases l.owner m with
    | none => exact h
    | some o =>
      dsimp only
      rw [h.inherited, h.priority]
      split
      · refine (h.setPriority o _).osRequeue o fun i hi => ?_
        rw [setPriority_list] at hi
        exact hl.mem_priorityList i hi
      · exact h
  · exact h

theorem osMutexTryLock_sim (h : Sim k l) (hl : Sound l) (hr : Running l) (call : Call c)
    (m : Place c) (timeout : OsTick c) :
    Sim (k.osMutexTryLock call m timeout) (l.osMutexTryLock call m timeout) := by
  unfold osMutexTryLock
  rw [h.owner, h.current]
  dsimp only
  cases ho : l.owner m with
  | none => exact (h.own m _ (hl.free_owned m ho)).returns call _
  | some owner =>
    dsimp only
    by_cases ht : timeout = OS_NO_WAIT c
    · rw [if_pos ht, if_pos ht]
      exact h.returns call _
    · rw [if_neg ht, if_neg ht]
      by_cases hinh : c.mutexInheritance = true
      · rw [if_pos hinh, if_pos hinh]
        have hu : Atoms (fun _ => True) l (urge l owner) :=
          urge_run (fun _ _ => trivial) trivial hl owner hinh hr.kind (hl.raise_bound ho)
        obtain ⟨hcur, -, -, -, hst⟩ := urge_same l owner
        have hku : (urge l owner).stateOf (urge l owner).currentTask = OS_TASK_RUNNING := by
          rw [stateOf, hcur, hst, mutex_kind]
          exact hr.kind
        rw [h.priority]
        have h1 : Sim (k.osPriorityRaise owner (l.priority l.currentTask))
            (l.osPriorityRaise owner (l.priority l.currentTask)) :=
          h.raiseLoop _ hl.linked owner _
        rw [h1.tasks]
        exact Sim.blockThen (h1.setState _ _) (hu.sound hl) hku call _ timeout fun _ _ _ h hs =>
          osMutexTryLockRest_sim h hs.linked call m _
      · rw [if_neg hinh, if_neg hinh]
        exact h.blockThen hl hr.kind call _ timeout fun _ _ _ h hs =>
          osMutexTryLockRest_sim h hs.linked call m _

theorem osMutexInit_sim (h : Sim k l) (m : Place c) (hl : Sound l) (ho : l.owner m = none) :
    Sim (k.osMutexInit m) (l.osMutexInit m) := by
  obtain ⟨s, rfl, hs⟩ := h
  unfold osMutexInit
  dsimp only
  split
  · exact ⟨{ s with
        links := s.links.clear (.wait (.mutex m)), ownedLinks := s.ownedLinks.reset m }, rfl,
      ⟨hs.links.clear _, hs.timerLinks, hs.ownedLinks.reset m (hl.free_owned m ho), hs.timersLinks⟩⟩
  · exact ⟨{ s with links := s.links.clear (.wait (.mutex m)) }, rfl,
      ⟨hs.links.clear _, hs.timerLinks, hs.ownedLinks, hs.timersLinks⟩⟩

theorem osMutexUnlock_sim (h : Sim k l) (hl : Sound l) (hr : Running l) (m : Place c) :
    Sim (k.osMutexUnlock m) (l.osMutexUnlock m) := by
  have h1 := h.returns (.osMutexUnlock m) .void
  have hl1 : Sound (l.returns (.osMutexUnlock m) .void) := setFrame_sound hl _ _
  unfold osMutexUnlock
  rw [h.current]
  dsimp only
  have hok : (k.returns (.osMutexUnlock m) .void).owner = l.owner := h.owner
  by_cases ho : l.owner m = some l.currentTask
  · rw [if_pos (by rw [hok]; exact ho), if_pos (show (l.returns _ _).owner m = _ from ho)]
    have h2 := (h1.offOwned l.currentTask m).pass hl1 m ho
    have hs2 := release_sound hl1 m ho
    have hst := release_frame hl1 l.currentTask m l.currentTask (by
      show l.stateOf _ ≠ _
      rw [hr.kind]
      simp)
    rw [Atom.apply, release_eq] at hst
    rw [remove_lists, release_eq]
    by_cases hinh : c.mutexInheritance = true
    · simp only [if_pos hinh] at h2 ⊢
      generalize (osMutexPass _ m : Kernel c Links) = k₂ at h2 ⊢
      generalize (osMutexPass _ m : ListKernel c) = l₂ at h2 hs2 hst ⊢
      have hcur : l₂.currentTask = l.currentTask := hst.1
      have hr2 : Running l₂ := by
        rw [Running, hcur, hst.2]
        exact hr
      have hs3 : Sound (l₂.setPriority l.currentTask (l₂.osInheritedPriority l.currentTask)) := by
        rw [← hcur]
        exact (Atom.settle).sound hs2 hr2.kind
      exact (h2.inheritSet _).schedule hs3.linked ((setPriority_same l₂ _ _).running hr2) 0
    · simp only [if_neg hinh] at h2 ⊢
      generalize (osMutexPass _ m : Kernel c Links) = k₂ at h2 ⊢
      generalize (osMutexPass _ m : ListKernel c) = l₂ at h2 hs2 hst ⊢
      have hcur : l₂.currentTask = l.currentTask := hst.1
      have hr2 : Running l₂ := by
        rw [Running, hcur, hst.2]
        exact hr
      exact h2.schedule hs2.linked hr2 0
  · rw [if_neg (by rw [hok]; exact ho), if_neg (show ¬ (l.returns _ _).owner m = _ from ho)]
    exact h1

end

end AvrOs
