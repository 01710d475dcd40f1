import AvrOs.Lives

/-!
# What steps do to the objects and to the log

Every step writes entries of its own kind into the log, and most of them leave clock, timers,
semaphores, queues and events alone.
-/

namespace AvrOs
open Intrusive Transition Kernel

variable {c : Config} {k k' : ListKernel c}

/-! ### The world of objects -/

/-- Clock, timers and objects stay as they are. -/
structure SameWorld (k k' : ListKernel c) : Prop where
  ticks : k'.ticks = k.ticks
  semaphores : k'.semaphores = k.semaphores
  queues : k'.queues = k.queues
  events : k'.events = k.events
  timers : k'.timers = k.timers
  timersLinks : k'.timersLinks = k.timersLinks
  memory : k'.memory = k.memory
  mode : k'.mode = k.mode

theorem SameWorld.same (k : ListKernel c) : SameWorld k k :=
  ⟨rfl, rfl, rfl, rfl, rfl, rfl, rfl, rfl⟩

theorem SameWorld.trans {k₁ k₂ : ListKernel c} (h : SameWorld k k₁) (h' : SameWorld k₁ k₂) :
    SameWorld k k₂ :=
  ⟨h'.ticks.trans h.ticks, h'.semaphores.trans h.semaphores, h'.queues.trans h.queues,
    h'.events.trans h.events, h'.timers.trans h.timers, h'.timersLinks.trans h.timersLinks,
    h'.memory.trans h.memory, h'.mode.trans h.mode⟩

theorem emit_world (k : ListKernel c) (e : Event c) : SameWorld k (k.emit e) :=
  ⟨rfl, rfl, rfl, rfl, rfl, rfl, rfl, rfl⟩

theorem setTask_world (k : ListKernel c) (t : Place c) (x : OsTask c) : SameWorld k (k.setTask t x) :=
  ⟨rfl, rfl, rfl, rfl, rfl, rfl, rfl, rfl⟩

theorem wake_world (k : ListKernel c) (t : Place c) (r : Bool) : SameWorld k (k.osWake t r) := by
  rw [osWake_eq]
  exact ⟨rfl, rfl, rfl, rfl, rfl, rfl, rfl, rfl⟩

theorem detach_world (k : ListKernel c) (t : Place c) : SameWorld k (k.osTaskDetach t) := by
  unfold osTaskDetach
  split
  · exact ⟨rfl, rfl, rfl, rfl, rfl, rfl, rfl, rfl⟩
  · rw [osUnblock_eq]
    exact ⟨rfl, rfl, rfl, rfl, rfl, rfl, rfl, rfl⟩

theorem own_world (k : ListKernel c) (m t : Place c) : SameWorld k (k.osMutexOwn m t) := by
  rw [osMutexOwn_eq]
  exact ⟨rfl, rfl, rfl, rfl, rfl, rfl, rfl, rfl⟩

theorem pass_world (k : ListKernel c) (m : Place c) : SameWorld k (k.osMutexPass m) := by
  rcases pass_cases k m with ⟨w, rest, -, he⟩ | ⟨-, he⟩
  · rw [he]
    exact (own_world k m w).trans (wake_world _ w true)
  · rw [he]
    exact ⟨rfl, rfl, rfl, rfl, rfl, rfl, rfl, rfl⟩

theorem release_world (k : ListKernel c) (t m : Place c) :
    SameWorld k ((Atom.release t m).apply k) := by
  rw [Atom.apply, release_eq]
  obtain ⟨h₁, h₂, h₃, h₄, h₅, h₆, h₇, h₈⟩ := pass_world { k with ownedLinks := offOwned k t m } m
  exact ⟨h₁, h₂, h₃, h₄, h₅, h₆, h₇, h₈⟩

theorem requeue_world (k : ListKernel c) (t : Place c) (p : ℕ) :
    SameWorld k ((k.setPriority t p).osRequeue t) := by
  unfold osRequeue
  split <;> exact ⟨rfl, rfl, rfl, rfl, rfl, rfl, rfl, rfl⟩

theorem update_result (tasks : Place c → OsTask c) (t u : Place c) (x : OsTask c)
    (h : x.result = (tasks t).result) : (Function.update tasks t x u).result = (tasks u).result := by
  by_cases hu : u = t
  · subst hu; simpa using h
  · simp [hu]

theorem dispatch_world (k : ListKernel c) :
    SameWorld k k.osDispatch ∧ k.osDispatch.log = k.log ∧ k.osDispatch.frames = k.frames ∧
      ∀ t, (k.osDispatch.tasks t).result = (k.tasks t).result := by
  unfold osDispatch
  split
  · exact ⟨⟨rfl, rfl, rfl, rfl, rfl, rfl, rfl, rfl⟩, rfl, rfl, fun t => update_result k.tasks _ t _ rfl⟩
  · exact ⟨.same k, rfl, rfl, fun _ => rfl⟩

/-- Switching to another task is nothing to the world, and the log says nothing of it. -/
theorem schedule_world (k : ListKernel c) (yield : ℕ) :
    SameWorld k (k.osSchedule yield) ∧ (k.osSchedule yield).log = k.log := by
  unfold osSchedule
  split
  · obtain ⟨p, hp⟩ := settle_eq k k.currentTask
    dsimp only
    rw [hp]
    obtain ⟨⟨h₁, h₂, h₃, h₄, h₅, h₆, h₇, h₈⟩, hl, -⟩ := dispatch_world _
    exact ⟨⟨h₁, h₂, h₃, h₄, h₅, h₆, h₇, h₈⟩, hl⟩
  · exact ⟨.same k, rfl⟩

/-- Nobody gets another result by it either. -/
theorem schedule_told (k : ListKernel c) (yield : ℕ) : (k.osSchedule yield).frames = k.frames ∧
    ∀ t, ((k.osSchedule yield).tasks t).result = (k.tasks t).result := by
  unfold osSchedule
  split
  · obtain ⟨p, hp⟩ := settle_eq k k.currentTask
    dsimp only
    rw [hp]
    obtain ⟨-, -, hframes, hresult⟩ := dispatch_world ((((k.setPriority k.currentTask p).setState
      k.currentTask OS_TASK_READY)).osListInsert .ready k.currentTask _)
    refine ⟨hframes, fun t => (hresult t).trans ?_⟩
    have hstate := update_result (k.setPriority k.currentTask p).tasks k.currentTask t
      { (k.setPriority k.currentTask p).tasks k.currentTask with state := OS_TASK_READY } rfl
    exact hstate.trans (update_result k.tasks k.currentTask t
      { k.tasks k.currentTask with priority := p } rfl)
  · exact ⟨rfl, fun _ => rfl⟩

/-- Steps which are about the clock, timers, semaphores, queues or events. -/
def Atom.OnWorld : Atom c → Prop
  | .quiet .. | .take _ | .give _ | .semaphoreInit _ _ _ | .send _ _ | .receive _ _
  | .queueInit _ _ _ | .consume _ _ _ | .flagsSet _ _ | .serve _ _ | .flagsClear _ _
  | .eventInit _ | .tick => True
  | _ => False

theorem Atom.same_world (a : Atom c) (h : Sound k) (hg : a.guard k) (ha : ¬ a.OnWorld) :
    SameWorld k (a.apply k) := by
  cases a with
  | quiet | take | give | semaphoreInit | send | receive | queueInit | consume | flagsSet | serve
  | flagsClear | eventInit | tick => exact absurd trivial ha
  | called | returns | pause | timerCalled | mutexInit | bury | reap | start | settle | setBase
  | flag | unflag | setWait | preempt | create =>
    exact ⟨rfl, rfl, rfl, rfl, rfl, rfl, rfl, rfl⟩
  | leave =>
    rcases leave_cases k with ⟨call, value, -, he⟩ | ⟨-, he⟩
    · rw [apply, he]
      exact ⟨rfl, rfl, rfl, rfl, rfl, rfl, rfl, rfl⟩
    · rw [apply, he]
      exact ⟨rfl, rfl, rfl, rfl, rfl, rfl, rfl, rfl⟩
  | requeue t p => exact requeue_world k t p
  | dispatch =>
    obtain ⟨-, n, hn⟩ := osDispatch_sound h hg
    rw [apply, osDispatch_eq k n hn]
    exact ⟨rfl, rfl, rfl, rfl, rfl, rfl, rfl, rfl⟩
  | sleep call list timeout =>
    rw [apply, sleep_eq]
    exact ⟨rfl, rfl, rfl, rfl, rfl, rfl, rfl, rfl⟩
  | expire t => exact wake_world k t false
  | kill t =>
    obtain ⟨h₁, h₂, h₃, h₄, h₅, h₆, h₇, h₈⟩ := detach_world k t
    exact ⟨h₁, h₂, h₃, h₄, h₅, h₆, h₇, h₈⟩
  | park t =>
    obtain ⟨h₁, h₂, h₃, h₄, h₅, h₆, h₇, h₈⟩ := detach_world k t
    exact ⟨h₁, h₂, h₃, h₄, h₅, h₆, h₇, h₈⟩
  | unpark t =>
    rw [apply, osReady_eq]
    exact ⟨rfl, rfl, rfl, rfl, rfl, rfl, rfl, rfl⟩
  | own m => exact own_world k m k.currentTask
  | release t m => exact release_world k t m
  | age =>
    rw [apply, age_fold _ _ _ (h.linked.1.separate.nodup _)]
    exact ⟨rfl, rfl, rfl, rfl, rfl, rfl, rfl, rfl⟩

/-- Steps which are about semaphores. -/
def Atom.OnSemaphores : Atom c → Prop
  | .take _ | .give _ | .semaphoreInit _ _ _ => True
  | _ => False

/-- Steps which are about queues. -/
def Atom.OnQueues : Atom c → Prop
  | .send _ _ | .receive _ _ | .queueInit _ _ _ => True
  | _ => False

/-- Steps which are about events. -/
def Atom.OnEvents : Atom c → Prop
  | .consume _ _ _ | .flagsSet _ _ | .serve _ _ | .flagsClear _ _ | .eventInit _ => True
  | _ => False

/-- What a step leaves alone which is about something else. -/
structure Kept (a : Atom c) (k k' : ListKernel c) : Prop where
  ticks : a ≠ .tick → k'.ticks = k.ticks
  semaphores : ¬ a.OnSemaphores → k'.semaphores = k.semaphores
  queues : ¬ a.OnQueues → k'.queues = k.queues
  events : ¬ a.OnEvents → k'.events = k.events
  timers : ¬ a.IsQuiet → k'.timers = k.timers
  timersLinks : ¬ a.IsQuiet → k'.timersLinks = k.timersLinks
  memory : ¬ a.IsQuiet → ¬ a.OnQueues → k'.memory = k.memory
  mode : ¬ a.IsQuiet → k'.mode = k.mode

theorem SameWorld.kept (h : SameWorld k k') (a : Atom c) : Kept a k k' :=
  ⟨fun _ => h.ticks, fun _ => h.semaphores, fun _ => h.queues, fun _ => h.events,
    fun _ => h.timers, fun _ => h.timersLinks, fun _ _ => h.memory, fun _ => h.mode⟩

theorem Kept.trans {a : Atom c} {k₁ : ListKernel c} (h : Kept a k k₁) (h' : Kept a k₁ k') :
    Kept a k k' :=
  ⟨fun x => (h'.ticks x).trans (h.ticks x), fun x => (h'.semaphores x).trans (h.semaphores x),
    fun x => (h'.queues x).trans (h.queues x), fun x => (h'.events x).trans (h.events x),
    fun x => (h'.timers x).trans (h.timers x), fun x => (h'.timersLinks x).trans (h.timersLinks x),
    fun x y => (h'.memory x y).trans (h.memory x y), fun x => (h'.mode x).trans (h.mode x)⟩

theorem consume_kept (a : Atom c) (k : ListKernel c) (e : Place c) (matched options : Byte)
    (ha : a.OnEvents) : Kept a k (k.osEventConsume e matched options) := by
  unfold osEventConsume
  split
  · exact ⟨fun _ => rfl, fun _ => rfl, fun _ => rfl, fun hn => absurd ha hn, fun _ => rfl,
      fun _ => rfl, fun _ _ => rfl, fun _ => rfl⟩
  · exact (SameWorld.same k).kept a

/-- Every step is about one kind of objects at most. -/
theorem Atom.kept (a : Atom c) (h : Sound k) (hg : a.guard k) : Kept a k (a.apply k) := by
  cases a with
  | quiet =>
    exact ⟨fun _ => rfl, fun _ => rfl, fun _ => rfl, fun _ => rfl, fun hn => absurd trivial hn,
      fun hn => absurd trivial hn, fun hn => absurd trivial hn, fun hn => absurd trivial hn⟩
  | tick =>
    exact ⟨fun hn => absurd rfl hn, fun _ => rfl, fun _ => rfl, fun _ => rfl, fun _ => rfl,
      fun _ => rfl, fun _ _ => rfl, fun _ => rfl⟩
  | take | semaphoreInit =>
    exact ⟨fun _ => rfl, fun hn => absurd trivial hn, fun _ => rfl, fun _ => rfl, fun _ => rfl,
      fun _ => rfl, fun _ _ => rfl, fun _ => rfl⟩
  | queueInit =>
    exact ⟨fun _ => rfl, fun _ => rfl, fun hn => absurd trivial hn, fun _ => rfl, fun _ => rfl,
      fun _ => rfl, fun _ _ => rfl, fun _ => rfl⟩
  | flagsSet | flagsClear | eventInit =>
    exact ⟨fun _ => rfl, fun _ => rfl, fun _ => rfl, fun hn => absurd trivial hn, fun _ => rfl,
      fun _ => rfl, fun _ _ => rfl, fun _ => rfl⟩
  | give s =>
    have hgave := emit_world k (.gave s)
    rw [apply]
    rcases give_cases k s with ⟨w, rest, -, he⟩ | ⟨-, -, he⟩ | ⟨-, -, he⟩
    · rw [he]
      exact (hgave.trans (wake_world _ w true)).kept _
    · rw [he]
      exact ⟨fun _ => rfl, fun hn => absurd trivial hn, fun _ => rfl, fun _ => rfl, fun _ => rfl,
        fun _ => rfl, fun _ _ => rfl, fun _ => rfl⟩
    · rw [he]
      exact (hgave.trans (emit_world _ (.dropped s))).kept _
  | send q item =>
    rw [apply]
    rcases send_cases k q item with ⟨w, rest, -, -, he⟩ | ⟨-, -, he⟩ | ⟨-, -, he⟩
    · rw [he]
      refine Kept.trans ?_ ((wake_world _ w true).kept _)
      simp only [osQueueHand, Kernel.emit]
      exact ⟨fun _ => rfl, fun _ => rfl, fun _ => rfl, fun _ => rfl, fun _ => rfl, fun _ => rfl,
        fun _ hn => absurd trivial hn, fun _ => rfl⟩
    · rw [he]
      simp only [osQueueAppend, setQueue, Kernel.emit]
      exact ⟨fun _ => rfl, fun _ => rfl, fun hn => absurd trivial hn, fun _ => rfl, fun _ => rfl,
        fun _ => rfl, fun _ _ => rfl, fun _ => rfl⟩
    · rw [he]
      exact (SameWorld.same k).kept _
  | receive q item =>
    rw [apply]
    rcases receive_cases k q item with ⟨w, rest, -, -, he⟩ | ⟨-, -, he⟩ | ⟨-, he⟩
    · rw [he]
      refine Kept.trans ?_ ((wake_world _ w true).kept _)
      simp only [osQueueTake, osQueueAppend, setQueue, Kernel.emit]
      exact ⟨fun _ => rfl, fun _ => rfl, fun hn => absurd trivial hn, fun _ => rfl, fun _ => rfl,
        fun _ => rfl, fun _ hn => absurd trivial hn, fun _ => rfl⟩
    · rw [he]
      simp only [osQueueTake, setQueue, Kernel.emit]
      exact ⟨fun _ => rfl, fun _ => rfl, fun hn => absurd trivial hn, fun _ => rfl, fun _ => rfl,
        fun _ => rfl, fun _ hn => absurd trivial hn, fun _ => rfl⟩
    · rw [he]
      exact (SameWorld.same k).kept _
  | consume e wanted options =>
    exact (consume_kept (.consume e wanted options) k e _ options trivial).trans
      ((emit_world _ _).kept _)
  | serve e t =>
    have hvis : Kept (.serve e t) k (k.emit (.visited e t)) := (emit_world k _).kept _
    rw [apply]
    rcases serve_cases k e t with ⟨-, he⟩ | ⟨matched, options, -, -, -, he⟩
    · rw [he]
      exact hvis
    · rw [he]
      refine Kept.trans ?_ ((wake_world _ t true).kept _)
      have hc := consume_kept (.serve e t) (k.emit (.visited e t)) e matched options trivial
      exact hvis.trans (hc.trans (((emit_world _ _).trans (setTask_world _ t _)).kept _))
  | _ => exact (Atom.same_world _ h hg (by simp [OnWorld])).kept _

/-! ### The log -/

/-- Entries a step may write. -/
def Atom.Writes : Atom c → Event c → Prop
  | .called x, e => ∃ t mine, e = .called t x mine
  | .leave, e => ∃ t call v, e = .returned t call v
  | .timerCalled tm, e => e = .timerCalled tm
  | .requeue t _, e => e = .requeued t
  | .sleep _ list timeout, e => ∃ t, e = .blocked t list timeout
  | .expire t, e => ∃ w, e = .woken t w false
  | .kill t, e => e = .deleted t
  | .park t, e => e = .suspended t
  | .unpark t, e => e = .resumed t
  | .create t _ _, e => e = .created t
  | .release _ m, e => ∃ t, e = .woken t (some (.mutex m)) true
  | .take s, e => e = .taken s
  | .give s, e => e = .gave s ∨ e = .dropped s ∨ ∃ t, e = .woken t (some (.semaphore s)) true
  | .semaphoreInit s count limit, e => e = .semaphoreInit s count.toNat limit.toNat
  | .send q _, e | .receive q _, e => (∃ msg, e = .accepted q msg) ∨ (∃ msg, e = .delivered q msg) ∨
      (∃ n, e = .accessed q n) ∨ ∃ t, e = .woken t (some (.queue q)) true
  | .queueInit q _ _, e => e = .queueInit q
  | .consume ev _ _, e => ∃ t f o, e = .satisfied ev t f o
  | .flagsSet ev f, e => e = .flagsSet ev f
  | .serve ev t, e => e = .visited ev t ∨ (∃ f o, e = .satisfied ev t f o) ∨
      e = .woken t (some (.event ev)) true
  | .eventInit ev, e => e = .eventInit ev
  | .tick, e => e = .ticked
  | _, _ => False

/-- The log grows by such entries. -/
def Grows (P : Event c → Prop) (k k' : ListKernel c) : Prop :=
  ∃ es, k'.log = es ++ k.log ∧ ∀ e ∈ es, P e

theorem Grows.same {P : Event c → Prop} (h : k'.log = k.log) : Grows P k k' :=
  ⟨[], h, fun _ he => absurd he List.not_mem_nil⟩

theorem Grows.one {P : Event c → Prop} {e : Event c} (h : k'.log = e :: k.log) (hP : P e) :
    Grows P k k' :=
  ⟨[e], h, fun _ he => by rw [List.mem_singleton.mp he]; exact hP⟩

theorem Grows.trans {P : Event c → Prop} {k₁ k₂ : ListKernel c} (h : Grows P k k₁)
    (h' : Grows P k₁ k₂) : Grows P k k₂ := by
  obtain ⟨es, he, hP⟩ := h
  obtain ⟨es', he', hP'⟩ := h'
  refine ⟨es' ++ es, by rw [he', he, List.append_assoc], fun e hm => ?_⟩
  rcases List.mem_append.mp hm with hm | hm
  · exact hP' e hm
  · exact hP e hm

theorem wake_grows {P : Event c → Prop} (k : ListKernel c) (t : Place c) (r : Bool)
    (hP : P (.woken t (k.tasks t).waitList r)) : Grows P k (k.osWake t r) :=
  .one (by rw [osWake_eq]) hP

theorem append_log (k : ListKernel c) (q : Place c) (item : Address) :
    (k.osQueueAppend q item).log =
      .accepted q (load k.memory item (k.queues q).itemSize) ::
        .accessed q (tailOffset (k.queues q)) :: k.log := by
  simp only [osQueueAppend, setQueue, emit]

theorem take_log (k : ListKernel c) (q : Place c) (item : Address) :
    (k.osQueueTake q item).log =
      .delivered q (load (k.queues q).buffer (headOffset (k.queues q)) (k.queues q).itemSize) ::
        .accessed q (headOffset (k.queues q)) :: k.log := by
  simp only [osQueueTake, setQueue, emit]

theorem hand_log (k : ListKernel c) (q : Place c) (item target : Address) :
    (k.osQueueHand q item target).log =
      .delivered q (load k.memory item (k.queues q).itemSize) ::
        .accepted q (load k.memory item (k.queues q).itemSize) :: k.log := by
  simp only [osQueueHand, emit]

theorem consume_log (k : ListKernel c) (e : Place c) (matched options : Byte) :
    (k.osEventConsume e matched options).log = k.log := by
  unfold osEventConsume
  split <;> rfl

theorem setWait_waitList (k : ListKernel c) (t u : Place c) (w : Wait) :
    ((k.setWait t w).tasks u).waitList = (k.tasks u).waitList := by
  by_cases hu : u = t
  · subst hu
    simp [setWait, setTask]
  · simp [setWait, setTask, hu]

/-- Every step writes entries of its own kind. -/
theorem Atom.grows (a : Atom c) (h : Sound k) (hg : a.guard k) : Grows a.Writes k (a.apply k) := by
  cases a with
  | returns | pause | quiet | mutexInit | bury | reap | start | settle | setBase | flag | unflag
  | setWait | preempt | flagsClear => exact .same rfl
  | called x => exact .one rfl ⟨_, _, rfl⟩
  | leave =>
    rcases leave_cases k with ⟨call, value, -, he⟩ | ⟨-, he⟩
    · rw [apply, he]
      exact .one rfl ⟨_, _, _, rfl⟩
    · rw [apply, he]
      exact .same rfl
  | timerCalled | take | semaphoreInit | queueInit | flagsSet | eventInit | tick | create =>
    exact .one rfl rfl
  | requeue t p =>
    rw [apply]
    unfold osRequeue
    split
    · exact .one rfl rfl
    · exact .same rfl
  | dispatch =>
    obtain ⟨-, n, hn⟩ := osDispatch_sound h hg
    exact .same (by rw [apply, osDispatch_eq k n hn])
  | sleep call list timeout => exact .one (by rw [apply, sleep_eq]) ⟨_, rfl⟩
  | expire t => exact wake_grows k t false ⟨_, rfl⟩
  | kill t => exact .one (congrArg _ (detach_log k t).1) rfl
  | park t => exact .one (congrArg _ (detach_log k t).1) rfl
  | unpark t =>
    refine .one ?_ rfl
    rw [apply, osReady_eq]
    rfl
  | own m => exact .same (by rw [apply, osMutexOwn_eq])
  | release t m =>
    rw [apply, release_eq]
    rcases pass_cases { k with ownedLinks := offOwned k t m } m with ⟨w, rest, hl, he⟩ | ⟨-, he⟩
    · have hw : (k.tasks w).waitList = some (.mutex m) :=
        ((h.linked.2 w).wait _).mp (by
          dsimp only at hl
          rw [hl]
          simp)
      rw [he, osMutexOwn_eq]
      refine .one ?_ ⟨w, rfl⟩
      rw [osWake_eq]
      exact congrArg (fun x => Event.woken w x true :: k.log) hw
    · rw [he]
      exact .same rfl
  | give s =>
    rw [apply]
    have hgave : Grows (Atom.give s).Writes k (k.emit (.gave s)) := .one rfl (Or.inl rfl)
    rcases give_cases k s with ⟨w, rest, hl, he⟩ | ⟨-, -, he⟩ | ⟨-, -, he⟩
    · rw [he]
      refine hgave.trans (wake_grows _ w true (Or.inr (Or.inr ⟨w, ?_⟩)))
      have hw : (k.tasks w).waitList = some (.semaphore s) :=
        ((h.linked.2 w).wait _).mp (by rw [hl]; simp)
      exact congrArg (fun x => Event.woken w x true) hw
    · rw [he]
      exact hgave.trans (.same rfl)
    · rw [he]
      exact hgave.trans (.one rfl (Or.inr (Or.inl rfl)))
  | send q item =>
    rw [apply]
    rcases send_cases k q item with ⟨w, rest, hl, -, he⟩ | ⟨-, -, he⟩ | ⟨-, -, he⟩
    · have hw : (k.tasks w).waitList = some (.queue q) :=
        ((h.linked.2 w).wait _).mp (by rw [hl]; simp)
      rw [he]
      refine Grows.trans ?_ (wake_grows _ w true (Or.inr (Or.inr (Or.inr ⟨w, ?_⟩))))
      · refine ⟨[_, _], hand_log k q item _, fun e hm => ?_⟩
        rcases List.mem_pair.mp hm with rfl | rfl
        · exact Or.inr (Or.inl ⟨_, rfl⟩)
        · exact Or.inl ⟨_, rfl⟩
      · rw [hand_tasks, hw]
    · rw [he]
      refine ⟨[_, _], append_log k q item, fun e hm => ?_⟩
      rcases List.mem_pair.mp hm with rfl | rfl
      · exact Or.inl ⟨_, rfl⟩
      · exact Or.inr (Or.inr (Or.inl ⟨_, rfl⟩))
    · rw [he]
      exact .same rfl
  | receive q item =>
    have htake : Grows (Atom.receive q item).Writes k (k.osQueueTake q item) := by
      refine ⟨[_, _], take_log k q item, fun e hm => ?_⟩
      rcases List.mem_pair.mp hm with rfl | rfl
      · exact Or.inr (Or.inl ⟨_, rfl⟩)
      · exact Or.inr (Or.inr (Or.inl ⟨_, rfl⟩))
    rw [apply]
    rcases receive_cases k q item with ⟨w, rest, hl, -, he⟩ | ⟨-, -, he⟩ | ⟨-, he⟩
    · have hw : (k.tasks w).waitList = some (.queue q) :=
        ((h.linked.2 w).wait _).mp (by rw [hl]; simp)
      rw [he]
      refine (htake.trans ?_).trans (wake_grows _ w true (Or.inr (Or.inr (Or.inr ⟨w, ?_⟩))))
      · refine ⟨[_, _], append_log _ q _, fun e hm => ?_⟩
        rcases List.mem_pair.mp hm with rfl | rfl
        · exact Or.inl ⟨_, rfl⟩
        · exact Or.inr (Or.inr (Or.inl ⟨_, rfl⟩))
      · rw [append_tasks, take_tasks, hw]
    · rw [he]
      exact htake
    · rw [he]
      exact .same rfl
  | consume ev wanted options =>
    exact .one (congrArg _ (consume_log k ev _ options)) ⟨_, _, _, rfl⟩
  | serve ev t =>
    rw [apply]
    have hvis : Grows (Atom.serve ev t).Writes k (k.emit (.visited ev t)) := .one rfl (Or.inl rfl)
    rcases serve_cases k ev t with ⟨-, he⟩ | ⟨matched, options, -, -, -, he⟩
    · rw [he]
      exact hvis
    · have hsat : Grows (Atom.serve ev t).Writes (k.emit (.visited ev t))
          (((((k.emit (.visited ev t)).osEventConsume ev matched options).emit
            (.satisfied ev t matched options)).setWait t (.event matched options))) :=
        .one (congrArg _ (consume_log _ ev matched options)) (Or.inr (Or.inl ⟨_, _, rfl⟩))
      rw [he]
      refine (hvis.trans hsat).trans (wake_grows _ t true (Or.inr (Or.inr ?_)))
      have hw : (((((k.emit (.visited ev t)).osEventConsume ev matched options).emit
          (.satisfied ev t matched options)).setWait t (.event matched options)).tasks t).waitList =
            (k.tasks t).waitList := by
        have htk := congrFun (consume_frame (k.emit (.visited ev t)) ev matched options).1 t
        rw [setWait_waitList]
        exact congrArg OsTask.waitList htk
      rw [hw, show (k.tasks t).waitList = some (.event ev) from hg]
  | age => exact .same (by rw [apply, age_fold _ _ _ (h.linked.1.separate.nodup _)])

/-- Entries are written by the moves the action makes. -/
theorem step_writes {a : Action c} (h : Rest k) (hs : k.step a = some k') :
    Grows (fun e => ∃ s mv x, Allowed k a s mv ∧ mv.Uses x ∧ x.Writes e) k k' := by
  have hm := (step_moves h.sound h.running h.noDead hs).1
  refine (hm.invariant (I := fun s => Sound s ∧ Grows _ k s)
    (fun s mv hg hi => ⟨mv.sound hi.1 hg.1, ?_⟩) ⟨h.sound, .same rfl⟩).2
  refine (mv.run hi.1 hg.1).keeps hi.1 (I := Grows _ k)
    (fun y x hy hgx hux hgrows => hgrows.trans ?_) hi.2
  obtain ⟨es, he, hw⟩ := x.grows hy hgx
  exact ⟨es, he, fun e hm => ⟨s, mv, x, hg.2, hux, hw e hm⟩⟩

/-! ### Calls which get nothing -/

/-- The call has not got what it is about, and has done nothing but to wait for it. -/
structure Declined (k : ListKernel c) (call : Call c) (k' : ListKernel c) : Prop where
  world : SameWorld k k'
  waits : Grows (fun e => ∃ list timeout, e = .blocked k.currentTask list timeout) k k'
  told : k'.frames k.currentTask ≠ some (.returning call (.bool true))

theorem Declined.returns {call : Call c} (hw : SameWorld k k') (hl : k'.log = k.log)
    (hcur : k'.currentTask = k.currentTask) : Declined k call (k'.returns call (.bool false)) := by
  refine ⟨hw.trans ⟨rfl, rfl, rfl, rfl, rfl, rfl, rfl, rfl⟩, .same hl, ?_⟩
  rw [Kernel.returns, setFrame, hcur]
  simp

theorem Declined.schedule {call : Call c} (h : Declined k call k') (yield : ℕ) :
    Declined k call (k'.osSchedule yield) := by
  obtain ⟨hw, hl⟩ := schedule_world k' yield
  refine ⟨h.world.trans hw, h.waits.trans (.same hl), ?_⟩
  rw [(schedule_told k' yield).1]
  exact h.told

/-- The idle task is refused at once, everybody else is switched out. -/
theorem Declined.blockThen (k : ListKernel c) (call : Call c) (list : Option (WaitList c))
    (timeout : OsTick c) (rest : ListKernel c → Bool → ListKernel c)
    (hrest : ∀ s, SameWorld k s → s.log = k.log → s.currentTask = k.currentTask →
      Declined k call (rest s false)) : Declined k call (k.blockThen call list timeout rest) := by
  unfold Kernel.blockThen osBlock
  dsimp only
  split
  case h_1 s r he =>
    split at he
    case isTrue =>
      injection he with hs hr
      injection hr with hr
      subst hs hr
      exact hrest _ ⟨rfl, rfl, rfl, rfl, rfl, rfl, rfl, rfl⟩ rfl rfl
    case isFalse => cases he
  case h_2 s he =>
    split at he
    case isTrue => cases he
    case isFalse =>
      injection he with hs
      subst hs
      obtain ⟨p, hp⟩ := settle_eq k k.currentTask
      obtain ⟨⟨h₁, h₂, h₃, h₄, h₅, h₆, h₇, h₈⟩, hl, hframes, -⟩ :=
        dispatch_world ((k.osSettle k.currentTask).sleep call list timeout)
      rw [hp, sleep_eq] at h₁ h₂ h₃ h₄ h₅ h₆ h₇ h₈ hl hframes ⊢
      refine ⟨⟨h₁, h₂, h₃, h₄, h₅, h₆, h₇, h₈⟩, .one hl ⟨list, timeout, rfl⟩, ?_⟩
      rw [hframes]
      simp [setPriority, setTask]

end AvrOs
