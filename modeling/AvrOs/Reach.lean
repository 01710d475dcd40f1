import AvrOs.Actions

/-!
# Reachable states

Between two actions the invariant of the kernel holds, a task is running and none of the
owners of mutexes is dead. Lists of a reachable kernel are the ones of `ListKernel`.
-/

namespace AvrOs
open Intrusive Transition Kernel

variable {c : Config} {k k' : ListKernel c}

/-! ### Owners and dead tasks -/

theorem update_dead {tasks : Place c → OsTask c} {t u : Place c} {x : OsTask c}
    (hx : x.state &&& OS_TASK_STATE = OS_TASK_DEAD ↔ (tasks t).state &&& OS_TASK_STATE = OS_TASK_DEAD) :
    (Function.update tasks t x u).state &&& OS_TASK_STATE = OS_TASK_DEAD ↔
      (tasks u).state &&& OS_TASK_STATE = OS_TASK_DEAD := by
  by_cases hut : u = t
  · subst hut
    rw [Function.update_self]
    exact hx
  · rw [Function.update_of_ne hut]

/-- A task which is not dead is given another state. -/
theorem revive_dead {tasks : Place c → OsTask c} {t u : Place c} {x : OsTask c}
    (hx : x.state &&& OS_TASK_STATE ≠ OS_TASK_DEAD)
    (ht : (tasks t).state &&& OS_TASK_STATE ≠ OS_TASK_DEAD) :
    (Function.update tasks t x u).state &&& OS_TASK_STATE = OS_TASK_DEAD ↔
      (tasks u).state &&& OS_TASK_STATE = OS_TASK_DEAD := update_dead (iff_of_false hx ht)

theorem wake_dead_iff {t u : Place c} (r : Bool) (ht : k.stateOf t = OS_TASK_BLOCKED) :
    (k.osWake t r).stateOf u = OS_TASK_DEAD ↔ k.stateOf u = OS_TASK_DEAD := by
  rw [stateOf, osWake_eq]
  refine revive_dead (by simp) ?_
  rw [show (k.tasks t).state &&& OS_TASK_STATE = OS_TASK_BLOCKED from ht]
  simp

theorem setWait_state (k : ListKernel c) (t u : Place c) (w : Wait) :
    ((k.setWait t w).tasks u).state = (k.tasks u).state := by
  by_cases hu : u = t
  · subst hu
    simp [setWait, setTask]
  · simp [setWait, setTask, hu]

/-- Nobody dies but by being killed, and nobody comes to life but by being created. -/
theorem Atom.dead_iff (a : Atom c) (h : Sound k) (hg : a.guard k) (hk : ∀ t, a ≠ .kill t)
    (hc : ∀ t p d, a ≠ .create t p d) (u : Place c) :
    (a.apply k).stateOf u = OS_TASK_DEAD ↔ k.stateOf u = OS_TASK_DEAD := by
  have hrun : ∀ s : Byte, s &&& OS_TASK_STATE = OS_TASK_RUNNING → s &&& OS_TASK_STATE ≠ OS_TASK_DEAD :=
    fun s hs => by rw [hs]; simp
  cases a with
  | called | returns | pause | timerCalled | quiet | mutexInit | semaphoreInit | queueInit | take
  | flagsSet | flagsClear | eventInit | tick | bury | reap => exact Iff.rfl
  | leave => rw [apply, stateOf, leave_tasks, stateOf]
  | start => exact update_dead Iff.rfl
  | settle => exact update_dead Iff.rfl
  | requeue t p => rw [stateOf, apply, (requeue_same k t p).state, stateOf]
  | setBase t p => exact update_dead Iff.rfl
  | flag =>
    refine revive_dead ?_ (hrun _ hg.2)
    rw [mutex_kind]
    exact hrun _ hg.2
  | unflag => exact revive_dead (by simp) (hrun _ hg)
  | setWait w => exact update_dead Iff.rfl
  | preempt key => exact revive_dead (by simp) (hrun _ hg.1)
  | dispatch =>
    obtain ⟨-, n, hn⟩ := osDispatch_sound h hg
    have hr : k.stateOf n = OS_TASK_READY := (h.linked.2 n).ready.mp (List.mem_of_mem_head? hn)
    rw [apply, osDispatch_eq k n hn]
    refine revive_dead (by simp) ?_
    rw [show (k.tasks n).state &&& OS_TASK_STATE = OS_TASK_READY from hr]
    simp
  | sleep call list timeout =>
    rw [apply, sleep_eq]
    refine revive_dead ?_ (hrun _ hg.2.1)
    rw [sleeper_kind k list timeout hg.2.1]
    simp
  | expire t => exact wake_dead_iff false ((h.linked.2 t).timed hg.1)
  | kill t => exact absurd rfl (hk t)
  | park t =>
    rw [stateOf, park_tasks h.linked]
    exact revive_dead (by simp) hg.2.1
  | unpark t =>
    rw [apply, osReady_eq]
    refine revive_dead (by simp) ?_
    rw [show ((k.emit (.resumed t)).tasks t).state &&& OS_TASK_STATE = OS_TASK_SUSPENDED from hg]
    simp
  | create t p d => exact absurd rfl (hc t p d)
  | own m => rw [apply, osMutexOwn_eq, stateOf, stateOf]
  | release t m =>
    rw [apply, release_eq]
    rcases pass_cases { k with ownedLinks := offOwned k t m } m with ⟨w, rest, hl, he⟩ | ⟨-, he⟩
    · have hb : k.stateOf w = OS_TASK_BLOCKED :=
        h.waiter_blocked (w := .mutex m) (by dsimp only at hl; rw [hl]; simp)
      rw [he, osMutexOwn_eq]
      exact wake_dead_iff true hb
    · rw [he]
      exact Iff.rfl
  | give s =>
    rw [apply]
    rcases give_cases k s with ⟨w, rest, hl, he⟩ | ⟨-, -, he⟩ | ⟨-, -, he⟩
    · rw [he]
      exact wake_dead_iff (k := k.emit (.gave s)) true
        (h.waiter_blocked (w := .semaphore s) (by rw [hl]; simp))
    · rw [he]
      exact Iff.rfl
    · rw [he]
      exact Iff.rfl
  | send q item =>
    rw [apply]
    rcases send_cases k q item with ⟨w, rest, hl, -, he⟩ | ⟨-, -, he⟩ | ⟨-, -, he⟩
    · have hb : k.stateOf w = OS_TASK_BLOCKED :=
        h.waiter_blocked (w := .queue q) (by rw [hl]; simp)
      rw [he, wake_dead_iff true (by rw [stateOf, hand_tasks]; exact hb), stateOf, hand_tasks, stateOf]
    · rw [he, stateOf, append_tasks, stateOf]
    · rw [he]
  | receive q item =>
    rw [apply]
    rcases receive_cases k q item with ⟨w, rest, hl, -, he⟩ | ⟨-, -, he⟩ | ⟨-, he⟩
    · have hb : k.stateOf w = OS_TASK_BLOCKED :=
        h.waiter_blocked (w := .queue q) (by rw [hl]; simp)
      rw [he, wake_dead_iff true (by rw [stateOf, append_tasks, take_tasks]; exact hb), stateOf,
        append_tasks, take_tasks, stateOf]
    · rw [he, stateOf, take_tasks, stateOf]
    · rw [he]
  | consume e wanted options =>
    show ((k.osEventConsume e _ options).tasks u).state &&& _ = _ ↔ _
    rw [(consume_frame k e _ options).1, stateOf]
  | serve e t =>
    rw [apply]
    rcases serve_cases k e t with ⟨-, he⟩ | ⟨matched, options, -, -, -, he⟩
    · rw [he]
      exact Iff.rfl
    · have hcons := (consume_frame (k.emit (.visited e t)) e matched options).1
      have hsame : ∀ v, (((((k.emit (.visited e t)).osEventConsume e matched options).emit
          (.satisfied e t matched options)).setWait t (.event matched options)).tasks v).state =
            (k.tasks v).state := by
        intro v
        rw [setWait_state]
        exact congrArg OsTask.state (congrFun hcons v)
      have hb := h.waiter_blocked (((h.linked.2 t).wait _).mpr hg)
      rw [he, wake_dead_iff true (by rw [stateOf, hsame]; exact hb), stateOf, hsame, stateOf]
  | age =>
    rw [apply, age_fold _ _ _ (h.linked.1.separate.nodup _), stateOf, stateOf]
    dsimp only
    split <;> exact Iff.rfl

/-- Tasks die when they are killed. -/
theorem Atom.alive (a : Atom c) (h : Sound k) (hg : a.guard k) (ha : ∀ t, a ≠ .kill t)
    {u : Place c} (hu : k.stateOf u ≠ OS_TASK_DEAD) : (a.apply k).stateOf u ≠ OS_TASK_DEAD := by
  by_cases hc : ∃ t p d, a = .create t p d
  · obtain ⟨t, p, d, rfl⟩ := hc
    have hut : u ≠ t := fun he => hu (he ▸ hg.1)
    rw [apply, osTaskSetup, osReady_eq, stateOf]
    dsimp only
    rw [Function.update_of_ne hut]
    show (Function.update k.tasks t _ u).state &&& _ ≠ _
    rw [Function.update_of_ne hut]
    exact hu
  · rwa [Ne, a.dead_iff h hg ha fun t p d he => hc ⟨t, p, d, he⟩]

/-- Owners change by `osMutexOwn`, `osMutexPass` and `osMutexInit` only. -/
theorem Atom.owner (a : Atom c) (h : Sound k) (hg : a.guard k) (ho : ∀ m, a ≠ .own m)
    (hr : ∀ t m, a ≠ .release t m) : (a.apply k).owner = k.owner := by
  cases a with
  | called | returns | pause | timerCalled | quiet | start | settle | setBase | flag | unflag | setWait
  | preempt | bury | reap | semaphoreInit | queueInit | take | flagsSet | flagsClear | eventInit
  | tick => rfl
  | leave =>
    rcases leave_cases k with ⟨call, value, -, he⟩ | ⟨-, he⟩
    · rw [apply, he]
      rfl
    · rw [apply, he]
      rfl
  | mutexInit m =>
    show Function.update k.owner m none = k.owner
    rw [← hg.2]
    exact Function.update_eq_self ..
  | requeue t p => exact (requeue_same k t p).owner
  | dispatch =>
    obtain ⟨-, n, hn⟩ := osDispatch_sound h hg
    rw [apply, osDispatch_eq k n hn]
  | sleep call list timeout => rw [apply, sleep_eq]
  | expire t => rw [apply, osWake_eq]
  | kill t => exact (detach_frame k t).2.1
  | park t => exact (detach_frame k t).2.1
  | unpark t =>
    rw [apply, osReady_eq]
    rfl
  | create t p d => rfl
  | own m => exact absurd rfl (ho m)
  | release t m => exact absurd rfl (hr t m)
  | give s =>
    rw [apply]
    rcases give_cases k s with ⟨w, rest, -, he⟩ | ⟨-, -, he⟩ | ⟨-, -, he⟩
    · rw [he, osWake_eq]
      rfl
    · rw [he]
      rfl
    · rw [he]
      rfl
  | send q item =>
    rw [apply]
    rcases send_cases k q item with ⟨w, rest, -, -, he⟩ | ⟨-, -, he⟩ | ⟨-, -, he⟩
    · rw [he, osWake_eq]
      simp only [osQueueHand, Kernel.emit]
    · rw [he]
      simp only [osQueueAppend, setQueue, Kernel.emit]
    · rw [he]
  | receive q item =>
    rw [apply]
    rcases receive_cases k q item with ⟨w, rest, -, -, he⟩ | ⟨-, -, he⟩ | ⟨-, he⟩
    · rw [he, osWake_eq]
      simp only [osQueueTake, osQueueAppend, setQueue, Kernel.emit]
    · rw [he]
      simp only [osQueueTake, setQueue, Kernel.emit]
    · rw [he]
  | consume e wanted options =>
    show (k.osEventConsume e _ options).owner = _
    unfold osEventConsume
    split <;> rfl
  | serve e t =>
    rw [apply]
    rcases serve_cases k e t with ⟨-, he⟩ | ⟨matched, options, -, -, -, he⟩
    · rw [he]
      rfl
    · rw [he, osWake_eq]
      show (Kernel.osEventConsume _ e matched options).owner = _
      unfold osEventConsume
      split <;> rfl
  | age =>
    rw [apply, age_fold _ _ _ (h.linked.1.separate.nodup _)]

/-- A mutex is released to somebody who waits for it. -/
theorem pass_owner (h : Sound k) {m m' t u : Place c}
    (ho : ((Atom.release t m).apply k).owner m' = some u) :
    k.owner m' = some u ∨ k.stateOf u = OS_TASK_BLOCKED := by
  rw [Atom.apply, release_eq] at ho
  rcases pass_cases { k with ownedLinks := offOwned k t m } m with ⟨w, rest, hl, he⟩ | ⟨hl, he⟩
  · rw [he, osWake_eq, osMutexOwn_eq] at ho
    dsimp only at ho hl
    by_cases hm : m' = m
    · subst hm
      rw [Function.update_self] at ho
      injection ho with ho
      subst ho
      exact Or.inr (h.waiter_blocked (by rw [hl]; simp))
    · rw [Function.update_of_ne hm] at ho
      exact Or.inl ho
  · rw [he] at ho
    simp only [setOwner] at ho
    by_cases hm : m' = m
    · subst hm
      rw [Function.update_self] at ho
      cases ho
    · rw [Function.update_of_ne hm] at ho
      exact Or.inl ho

/-- Owners other than the task which is on its way out are not dead. -/
def NoDeadBut (t : Option (Place c)) (k : ListKernel c) : Prop :=
  ∀ m u, k.owner m = some u → some u ≠ t → k.stateOf u ≠ OS_TASK_DEAD

theorem Atom.noDead (a : Atom c) (h : Sound k) (hg : a.guard k) (t : Option (Place c))
    (ha : ∀ u, a = .kill u → t = some u) (hn : NoDeadBut t k) : NoDeadBut t (a.apply k) := by
  intro m u ho hu
  by_cases hk : ∃ v, a = .kill v
  · obtain ⟨v, rfl⟩ := hk
    have huv : u ≠ v := fun he => hu (by rw [he, ha v rfl])
    rw [stateOf, kill_tasks h.linked, Function.update_of_ne huv]
    exact hn m u (by rw [← ho]; exact (congrFun (detach_frame k v).2.1 m).symm) hu
  · refine a.alive h hg (fun v he => hk ⟨v, he⟩) ?_
    by_cases hown : ∃ m', a = .own m'
    · obtain ⟨m', rfl⟩ := hown
      rw [apply, osMutexOwn_eq] at ho
      by_cases hm : m = m'
      · subst hm
        dsimp only at ho
        rw [Function.update_self] at ho
        injection ho with ho
        rw [← ho, hg.2.1]
        simp
      · dsimp only at ho
        rw [Function.update_of_ne hm] at ho
        exact hn m u ho hu
    · by_cases hrel : ∃ v m', a = .release v m'
      · obtain ⟨v, m', rfl⟩ := hrel
        rcases pass_owner h ho with ho | hb
        · exact hn m u ho hu
        · rw [hb]
          simp
      · rw [a.owner h hg (fun m' he => hown ⟨m', he⟩) (fun v m' he => hrel ⟨v, m', he⟩)] at ho
        exact hn m u ho hu

/-- Once all its mutexes are passed on, a dead task owns none. -/
theorem releaseLoop_empty (fuel : ℕ) (h : Sound k) (hinh : c.mutexInheritance = true) (t : Place c)
    (hd : k.stateOf t = OS_TASK_DEAD) (hf : (k.ownedLinks t).length ≤ fuel) :
    (osMutexReleaseAllLoop fuel k t).ownedLinks t = [] := by
  induction fuel generalizing k with
  | zero =>
    show k.ownedLinks t = []
    exact List.length_eq_zero_iff.mp (Nat.le_zero.mp hf)
  | succ fuel ih =>
    unfold osMutexReleaseAllLoop
    rw [head_lists]
    cases hl : k.ownedLinks t with
    | nil => exact hl
    | cons m rest =>
      have hg : (Atom.release t m).guard k :=
        ⟨(h.owned.records hinh m t).mp (by rw [hl]; simp), Or.inl hd⟩
      have hpop : Lists.pop k.ownedLinks t = Lists.remove k.ownedLinks t m := by
        simp [Lists.pop, Lists.remove, hl]
      have he : (Atom.release t m).apply k =
          { k with ownedLinks := Lists.pop k.ownedLinks t }.osMutexPass m := by
        show (if _ then _ else k).osMutexPass m = _
        rw [if_pos hinh, hpop]
      have hs : Sound ({ k with ownedLinks := Lists.pop k.ownedLinks t }.osMutexPass m) := by
        rw [← he]
        exact (Atom.release t m).sound h hg
      have hdead : k.stateOf t ≠ OS_TASK_BLOCKED := by rw [hd]; simp
      have hd' : ({ k with ownedLinks := Lists.pop k.ownedLinks t }.osMutexPass m).stateOf t =
          OS_TASK_DEAD := by
        rw [← he, stateOf, (release_frame h t m t hdead).2]
        exact hd
      have hrest : ({ k with ownedLinks := Lists.pop k.ownedLinks t }.osMutexPass m).ownedLinks t =
          rest := by
        have ht : Lists.pop k.ownedLinks t t = rest := by rw [Lists.pop_self, hl, List.tail_cons]
        rcases pass_cases { k with ownedLinks := Lists.pop k.ownedLinks t } m with
          ⟨w, ws, hw, hp⟩ | ⟨-, hp⟩
        · have hwt : t ≠ w := by
            rintro rfl
            exact hdead (h.waiter_blocked (by dsimp only at hw; rw [hw]; simp))
          rw [hp, osWake_eq, osMutexOwn_eq]
          dsimp only
          rw [if_pos hinh, Lists.push_of_ne _ _ _ _ hwt]
          exact ht
        · rw [hp]
          exact ht
      rw [hl] at hf
      exact ih hs hd' (le_of_eq_of_le (congrArg List.length hrest) (by simpa using hf))

theorem delete_owned (h : Sound k) (t : Place c) (ht : t ≠ osIdleTask)
    (hd : k.stateOf t ≠ OS_TASK_DEAD) (hinh : c.mutexInheritance = true) :
    (delete k t).ownedLinks t = [] := by
  have hks := (Atom.kill t).sound h ⟨ht, hd⟩
  have hr : (released k t).ownedLinks t = [] := by
    unfold released
    dsimp only
    rw [if_pos hinh]
    refine releaseLoop_empty (c.places + 1) hks hinh t (kill_dead h t hd).1 ?_
    have hlen := (hks.owned.separate.nodup t).length_le_card
    rwa [Fintype.card_fin] at hlen
  unfold delete
  dsimp only
  split
  · exact hr
  · exact hr

/-- Nobody is killed but by `osTaskDelete`. -/
theorem Move.uses_kill (mv : Move c) (hg : mv.guard k) (v : Place c) (hu : mv.Uses (.kill v)) :
    ∃ t, mv = .delete t := by
  cases mv with
  | one a =>
    obtain ⟨hb, -⟩ := hg
    rw [← show Atom.kill v = a from hu] at hb
    exact absurd hb id
  | delete t => exact ⟨t, rfl⟩
  | giveUp | repriority | block | lock | lockIdle | unlock | setEvent | tick => simp [Uses] at hu

theorem Move.noDead (mv : Move c) (h : Sound k) (hg : mv.guard k) (hn : NoDead k) :
    NoDead (mv.apply k) := by
  intro hinh m u ho
  have hrun := mv.run h hg
  by_cases hdel : ∃ t, mv = .delete t
  · obtain ⟨t, rfl⟩ := hdel
    have hk : NoDeadBut (some t) ((Move.delete t).apply k) := by
      refine hrun.keeps (I := NoDeadBut (some t)) h (fun s a hs hga ha hi => ?_) fun m u ho _ =>
        hn hinh m u ho
      refine a.noDead hs hga (some t) (fun v he => ?_) hi
      subst he
      rcases ha with ha | ⟨m, ha⟩ | ha
      · injection ha with ha
        rw [ha]
      · cases ha
      · cases ha
    refine hk m u ho fun he => ?_
    injection he with he
    subst he
    have hs := (Move.delete u).sound h hg
    have hmem := (hs.owned.records hinh m u).mpr ho
    rw [show ((Move.delete u).apply k).ownedLinks u = [] from
      delete_owned h u hg.1 hg.2 hinh] at hmem
    cases hmem
  · have hk : NoDeadBut none (mv.apply k) := by
      refine hrun.keeps (I := NoDeadBut none) h (fun s a hs hga ha hi => ?_) fun m u ho _ =>
        hn hinh m u ho
      refine a.noDead hs hga none (fun v he => ?_) hi
      subst he
      exact absurd (mv.uses_kill hg v ha) hdel
    exact hk m u ho (by simp)

/-! ### The invariant between two actions -/

structure Rest (k : ListKernel c) : Prop where
  sound : Sound k
  running : Running k
  noDead : NoDead k

theorem init_kind (t : Place c) : (osInit c Lists).stateOf t =
    if t = osIdleTask then OS_TASK_RUNNING else OS_TASK_DEAD := by
  have hst : ((osInit c Lists).tasks t).state =
      if t = osIdleTask then OS_TASK_RUNNING else OS_TASK_DEAD := rfl
  rw [stateOf, hst]
  split <;> simp

theorem init_flags (t : Place c) : ¬ Timed ((osInit c Lists).tasks t) ∧
    ¬ OnMutex ((osInit c Lists).tasks t) := by
  have hst : ((osInit c Lists).tasks t).state =
      if t = osIdleTask then OS_TASK_RUNNING else OS_TASK_DEAD := rfl
  rw [Timed, OnMutex, hst]
  split <;> simp

theorem init_linked (c : Config) : Linked (osInit c Lists) := by
  refine ⟨⟨⟨fun _ => List.nodup_nil, fun _ _ _ h => by cases h⟩, List.nodup_nil, .nil,
    fun _ => .nil⟩, fun t => ?_⟩
  have hk := init_kind t
  have hnil : ∀ i : ListId c, t ∉ (osInit c Lists).links i := fun i h => by cases h
  refine ⟨⟨fun h => absurd h (hnil _), fun h => ?_⟩, fun w => ⟨fun h => absurd h (hnil _), fun h => ?_⟩,
    fun w h => ?_, fun h => absurd h (hnil _), ⟨fun h => (by cases h), fun h => ?_⟩, fun h => ?_⟩
  · rw [stateOf, h] at hk
    split at hk <;> simp at hk
  · cases h
  · cases h
  · exact absurd h (init_flags t).1
  · exact absurd h (init_flags t).1

theorem init_sound (c : Config) : Sound (osInit c Lists) := by
  have hidle : (osInit c Lists).stateOf osIdleTask = OS_TASK_RUNNING := by
    rw [init_kind, if_pos rfl]
  have hne : ∀ t : Place c, t ≠ osIdleTask → ((osInit c Lists).tasks t).priority = 1 ∧
      ((osInit c Lists).tasks t).basePriority = 1 := fun t ht => by
    simp [osInit, ht, OS_PRIORITY_MIN]
  have heq : ((osInit c Lists).tasks osIdleTask).priority = 255 ∧
      ((osInit c Lists).tasks osIdleTask).basePriority = 255 := by simp [osInit]
  have hblocked : ∀ t : Place c, (osInit c Lists).stateOf t ≠ OS_TASK_BLOCKED := by
    intro t
    rw [init_kind]
    split <;> simp
  refine ⟨init_linked c, ⟨Or.inl hidle, fun t ht => ?_⟩, ⟨fun t ht => ?_, fun t ht => ?_, ?_,
    fun _ => heq.1, fun _ => ⟨hidle, fun m t hm => (by cases hm), hblocked⟩⟩,
    ⟨⟨fun _ => List.nodup_nil, fun _ _ _ h => by cases h⟩,
      fun _ m t => ⟨fun h => (by cases h), fun h => (by cases h)⟩, fun _ _ => rfl,
      fun m t hm => (by cases hm), fun t ht => absurd ht (hblocked t),
      fun t ht => absurd ht (init_flags t).2⟩⟩
  · have hk : (osInit c Lists).stateOf t = OS_TASK_RUNNING := ht
    rw [init_kind] at hk
    split at hk
    case isTrue he => exact he
    case isFalse => simp at hk
  · rw [(hne t ht).1, (hne t ht).2]
    omega
  · rw [(hne t ht).1, (hne t ht).2]
    omega
  · rw [heq.1, heq.2]
    omega

theorem init_rest (c : Config) : Rest (osInit c Lists) :=
  ⟨init_sound c, rfl, fun _ _ _ h => by cases h⟩

theorem Rest.step {a : Action c} (h : Rest k) (hs : k.step a = some k') : Rest k' := by
  obtain ⟨hm, hr⟩ := step_moves h.sound h.running h.noDead hs
  refine ⟨hm.sound h.sound, hr, ?_⟩
  exact (hm.invariant (I := fun s => Sound s ∧ NoDead s)
    (fun s mv hg hi => ⟨mv.sound hi.1 hg.1, mv.noDead hi.1 hg.1 hi.2⟩) ⟨h.sound, h.noDead⟩).2

/-- The invariant holds in every reachable state. -/
theorem rest_of_reachable {ok : ListKernel c → Action c → Prop} (h : ReachableBy ok k) : Rest k :=
  h.invariant (init_rest c) fun _ _ _ _ hi _ hs => hi.step hs

theorem step_call {x : Call c} (hs : k.step (.call x) = some k') :
    k.userMode ∧ k.legal x ∧ k' = (k.emit (.called k.currentTask x (k.mine x))).exec x := by
  simp only [Kernel.step] at hs
  split at hs
  case isTrue hc =>
    injection hs with hs
    exact ⟨hc.1, hc.2, hs.symm⟩
  case isFalse => cases hs

theorem step_isrCall {x : IsrCall c} (hs : k.step (.isrCall x) = some k') :
    legalIsr c x = true ∧ k' = k.execIsr x := by
  simp only [Kernel.step] at hs
  split at hs
  · split at hs
    case isTrue hl =>
      injection hs with hs
      exact ⟨hl, hs.symm⟩
    case isFalse => cases hs
  · split at hs
    case isTrue hl =>
      injection hs with hs
      exact ⟨hl, hs.symm⟩
    case isFalse => cases hs
  · cases hs

/-- What every elementary step keeps, every action keeps. -/
theorem step_keeps {a : Action c} {I : ListKernel c → Prop} (h : Rest k) (hs : k.step a = some k')
    (hI : ∀ (s : ListKernel c) (x : Atom c), Sound s → x.guard s → I s → I (x.apply s))
    (hi : I k) : I k' := by
  have hm := (step_moves h.sound h.running h.noDead hs).1
  refine (hm.invariant (I := fun s => Sound s ∧ I s) (fun s mv hg hsi => ?_) ⟨h.sound, hi⟩).2
  exact ⟨mv.sound hsi.1 hg.1, (mv.run hsi.1 hg.1).keeps hsi.1 (fun s x hs hx _ hi => hI s x hs hx hi)
    hsi.2⟩

/-- What every elementary step keeps holds in every reachable state. -/
theorem reachable_keeps {ok : ListKernel c → Action c → Prop} {I : ListKernel c → Prop}
    (h : ReachableBy ok k) (h₀ : I (osInit c Lists))
    (hI : ∀ (s : ListKernel c) (x : Atom c), Sound s → x.guard s → I s → I (x.apply s)) : I k :=
  h.invariant h₀ fun _ _ _ hr hi _ hs => step_keeps (rest_of_reachable hr) hs hI hi

/-- What every move keeps holds in every reachable state. -/
theorem reachable_moves {ok : ListKernel c → Action c → Prop} {I : ListKernel c → Prop}
    (h : ReachableBy ok k) (h₀ : I (osInit c Lists))
    (hI : ∀ (s : ListKernel c) (mv : Move c), Sound s → mv.guard s → I s → I (mv.apply s)) : I k :=
  h.invariant h₀ fun s a s' hr hi _ hs => by
    have hrest := rest_of_reachable hr
    have hm := (step_moves hrest.sound hrest.running hrest.noDead hs).1
    exact (hm.invariant (I := fun s => Sound s ∧ I s)
      (fun s mv hg hi => ⟨mv.sound hi.1 hg.1, hI s mv hi.1 hg.1 hi.2⟩) ⟨hrest.sound, hi⟩).2

end AvrOs
