import AvrOs.Reach

/-!
# Who changes priorities

Most steps of the kernel leave all priorities alone, and so they do with the flag set by
`osRun`. Those which do not are looked at one by one.
-/

namespace AvrOs
open Intrusive Transition Kernel

variable {c : Config} {k k' : ListKernel c}

/-- Steps which change priorities. -/
def Atom.Ranks : Atom c → Prop
  | .start | .settle | .requeue _ _ | .setBase _ _ | .create _ _ _ | .age => True
  | _ => False

/-- Both priorities of every task stay. -/
def SameRank (k k' : ListKernel c) : Prop :=
  ∀ u, (k'.tasks u).priority = (k.tasks u).priority ∧
    (k'.tasks u).basePriority = (k.tasks u).basePriority

theorem SameRank.refl (k : ListKernel c) : SameRank k k := fun _ => ⟨rfl, rfl⟩

theorem SameRank.trans {k₁ k₂ : ListKernel c} (h : SameRank k k₁) (h' : SameRank k₁ k₂) :
    SameRank k k₂ := fun u => ⟨(h' u).1.trans (h u).1, (h' u).2.trans (h u).2⟩

theorem SameRank.of_tasks (h : k'.tasks = k.tasks) : SameRank k k' := fun u => by
  rw [h]
  exact ⟨rfl, rfl⟩

theorem SameRank.update {t : Place c} {x : OsTask c}
    (h : k'.tasks = Function.update k.tasks t x) (hp : x.priority = (k.tasks t).priority)
    (hb : x.basePriority = (k.tasks t).basePriority) : SameRank k k' := by
  intro u
  rw [h]
  by_cases hu : u = t
  · subst hu
    rw [Function.update_self]
    exact ⟨hp, hb⟩
  · rw [Function.update_of_ne hu]
    exact ⟨rfl, rfl⟩

theorem wake_rank (k : ListKernel c) (t : Place c) (r : Bool) : SameRank k (k.osWake t r) :=
  .update (congrArg Kernel.tasks (osWake_eq k t r)) rfl rfl

theorem sleep_rank (k : ListKernel c) (call : Call c) (list : Option (WaitList c))
    (timeout : OsTick c) : SameRank k (k.sleep call list timeout) := by
  refine .update (congrArg Kernel.tasks (sleep_eq k call list timeout)) ?_ ?_
  · exact sleeper_priority k list timeout
  · unfold sleeper
    dsimp only
    split <;> rfl

theorem pass_rank (k : ListKernel c) (m : Place c) : SameRank k (k.osMutexPass m) := by
  rcases pass_cases k m with ⟨w, rest, -, he⟩ | ⟨-, he⟩
  · rw [he]
    refine SameRank.trans (.of_tasks ?_) (wake_rank _ w true)
    rw [osMutexOwn_eq]
  · rw [he]
    exact .refl k

theorem release_rank (k : ListKernel c) (t m : Place c) :
    SameRank k ((Atom.release t m).apply k) := by
  rw [Atom.apply, release_eq]
  exact pass_rank { k with ownedLinks := offOwned k t m } m

theorem Atom.same_rank (a : Atom c) (h : Sound k) (hg : a.guard k) (ha : ¬ a.Ranks) :
    SameRank k (a.apply k) := by
  cases a with
  | start | settle | requeue | setBase | create | age => exact absurd trivial ha
  | called | returns | pause | timerCalled | quiet | mutexInit | semaphoreInit | queueInit | take
  | flagsSet | flagsClear | eventInit | tick | bury | reap => exact .refl k
  | leave => exact .of_tasks (leave_tasks k)
  | flag | unflag | setWait => exact .update rfl rfl rfl
  | preempt key => exact .update (t := k.currentTask) rfl rfl rfl
  | dispatch =>
    obtain ⟨-, n, hn⟩ := osDispatch_sound h hg
    exact .update (congrArg Kernel.tasks (osDispatch_eq k n hn)) rfl rfl
  | sleep call list timeout => exact sleep_rank k call list timeout
  | expire t => exact wake_rank k t false
  | kill t => exact .update (kill_tasks h.linked t) rfl rfl
  | park t => exact .update (park_tasks h.linked t) rfl rfl
  | unpark t => exact .update (congrArg Kernel.tasks (osReady_eq (k.emit (.resumed t)) t)) rfl rfl
  | own m => exact .of_tasks (by rw [apply, osMutexOwn_eq])
  | release t m => exact release_rank k t m
  | give s =>
    rw [apply]
    rcases give_cases k s with ⟨w, rest, -, he⟩ | ⟨-, -, he⟩ | ⟨-, -, he⟩
    · rw [he]
      exact wake_rank (k.emit (.gave s)) w true
    · rw [he]
      exact .refl k
    · rw [he]
      exact .refl k
  | send q item =>
    rw [apply]
    rcases send_cases k q item with ⟨w, rest, -, -, he⟩ | ⟨-, -, he⟩ | ⟨-, -, he⟩
    · rw [he]
      exact SameRank.trans (.of_tasks (hand_tasks k q item _)) (wake_rank _ w true)
    · rw [he]
      exact .of_tasks (append_tasks k q item)
    · rw [he]
      exact .refl k
  | receive q item =>
    rw [apply]
    rcases receive_cases k q item with ⟨w, rest, -, -, he⟩ | ⟨-, -, he⟩ | ⟨-, he⟩
    · rw [he]
      refine SameRank.trans (.of_tasks ?_) (wake_rank _ w true)
      rw [append_tasks, take_tasks]
    · rw [he]
      exact .of_tasks (take_tasks k q item)
    · rw [he]
      exact .refl k
  | consume e wanted options => exact .of_tasks (consume_frame k e _ options).1
  | serve e t =>
    rw [apply]
    rcases serve_cases k e t with ⟨-, he⟩ | ⟨matched, options, -, -, -, he⟩
    · rw [he]
      exact .refl k
    · rw [he]
      refine SameRank.trans ?_ (wake_rank _ t true)
      refine SameRank.trans (.of_tasks (consume_frame (k.emit (.visited e t)) e matched options).1)
        (.update (t := t) rfl rfl rfl)

/-- What has nothing to do with tasks and objects. -/
structure Apart (a : Atom c) (k k' : ListKernel c) : Prop where
  started : a ≠ .start → k'.started = k.started
  aging : ¬ a.IsQuiet → k'.aging = k.aging

theorem Apart.same {a : Atom c} (hs : k'.started = k.started) (ha : k'.aging = k.aging) : Apart a k k' :=
  ⟨fun _ => hs, fun _ => ha⟩

theorem detach_apart (a : Atom c) (k : ListKernel c) (t : Place c) : Apart a k (k.osTaskDetach t) := by
  unfold osTaskDetach
  split
  · exact .same rfl rfl
  · rw [osUnblock_eq]
    exact .same rfl rfl

theorem consume_apart (a : Atom c) (k : ListKernel c) (e : Place c) (matched options : Byte) :
    Apart a k (k.osEventConsume e matched options) := by
  unfold osEventConsume
  split <;> exact .same rfl rfl

theorem Atom.apart (a : Atom c) (h : Sound k) (hg : a.guard k) : Apart a k (a.apply k) := by
  cases a with
  | start => exact ⟨fun hn => absurd rfl hn, fun _ => rfl⟩
  | quiet => exact ⟨fun _ => rfl, fun hn => absurd trivial hn⟩
  | called | returns | pause | timerCalled | mutexInit | semaphoreInit | queueInit | take
  | flagsSet | flagsClear | eventInit | tick | bury | reap | settle | setBase | flag | unflag
  | setWait | preempt | create => exact .same rfl rfl
  | leave =>
    rcases leave_cases k with ⟨call, value, -, he⟩ | ⟨-, he⟩
    · rw [apply, he]
      exact .same rfl rfl
    · rw [apply, he]
      exact .same rfl rfl
  | requeue t p =>
    rw [apply]
    unfold osRequeue
    split <;> exact .same rfl rfl
  | dispatch =>
    obtain ⟨-, n, hn⟩ := osDispatch_sound h hg
    rw [apply, osDispatch_eq k n hn]
    exact .same rfl rfl
  | sleep call list timeout =>
    rw [apply, sleep_eq]
    exact .same rfl rfl
  | expire t =>
    rw [apply, osWake_eq]
    exact .same rfl rfl
  | kill t =>
    obtain ⟨hs, ha⟩ := detach_apart (.kill t) k t
    exact ⟨hs, ha⟩
  | park t =>
    obtain ⟨hs, ha⟩ := detach_apart (.park t) k t
    exact ⟨hs, ha⟩
  | unpark t =>
    rw [apply, osReady_eq]
    exact .same rfl rfl
  | own m =>
    rw [apply, osMutexOwn_eq]
    exact .same rfl rfl
  | release t m =>
    rw [apply, release_eq]
    rcases pass_cases { k with ownedLinks := offOwned k t m } m with ⟨w, rest, -, he⟩ | ⟨-, he⟩
    · rw [he, osWake_eq, osMutexOwn_eq]
      exact .same rfl rfl
    · rw [he]
      exact .same rfl rfl
  | give s =>
    rw [apply]
    rcases give_cases k s with ⟨w, rest, -, he⟩ | ⟨-, -, he⟩ | ⟨-, -, he⟩
    · rw [he, osWake_eq]
      exact .same rfl rfl
    · rw [he]
      exact .same rfl rfl
    · rw [he]
      exact .same rfl rfl
  | send q item =>
    rw [apply]
    rcases send_cases k q item with ⟨w, rest, -, -, he⟩ | ⟨-, -, he⟩ | ⟨-, -, he⟩
    · rw [he, osWake_eq]
      simp only [osQueueHand, Kernel.emit]
      exact .same rfl rfl
    · rw [he]
      simp only [osQueueAppend, setQueue, Kernel.emit]
      exact .same rfl rfl
    · rw [he]
      exact .same rfl rfl
  | receive q item =>
    rw [apply]
    rcases receive_cases k q item with ⟨w, rest, -, -, he⟩ | ⟨-, -, he⟩ | ⟨-, he⟩
    · rw [he, osWake_eq]
      simp only [osQueueTake, osQueueAppend, setQueue, Kernel.emit]
      exact .same rfl rfl
    · rw [he]
      simp only [osQueueTake, setQueue, Kernel.emit]
      exact .same rfl rfl
    · rw [he]
      exact .same rfl rfl
  | consume e wanted options =>
    obtain ⟨hs, ha⟩ := consume_apart (.consume e wanted options) k e
      (osEventMatch (k.events e) wanted options) options
    exact ⟨hs, ha⟩
  | serve e t =>
    rw [apply]
    rcases serve_cases k e t with ⟨-, he⟩ | ⟨matched, options, -, -, -, he⟩
    · rw [he]
      exact .same rfl rfl
    · rw [he, osWake_eq]
      obtain ⟨hs, ha⟩ := consume_apart (.serve e t) (k.emit (.visited e t)) e matched options
      exact ⟨hs, ha⟩
  | age =>
    rw [apply, age_fold _ _ _ (h.linked.1.separate.nodup _)]
    exact .same rfl rfl

/-- Nobody is started but by `osRun`. -/
theorem Atom.same_started (a : Atom c) (h : Sound k) (hg : a.guard k) (ha : a ≠ .start) :
    (a.apply k).started = k.started := (a.apart h hg).started ha

/-! ### Priorities which do change -/

theorem setPriority_base (k : ListKernel c) (t u : Place c) (p : ℕ) :
    ((k.setPriority t p).tasks u).basePriority = (k.tasks u).basePriority := by
  by_cases hu : u = t
  · subst hu
    simp [setPriority, setTask]
  · simp [setPriority, setTask, hu]

theorem requeue_base (k : ListKernel c) (t u : Place c) (p : ℕ) :
    (((k.setPriority t p).osRequeue t).tasks u).basePriority = (k.tasks u).basePriority := by
  rw [requeue_tasks]
  exact setPriority_base k t u p

/-- Nobody is raised but the task and owners of mutexes, and nobody's own priority changes. -/
theorem raiseLoop_rank (fuel : ℕ) (k : ListKernel c) (t u : Place c) (p : ℕ) :
    ((osPriorityRaiseLoop fuel k t p).tasks u).basePriority = (k.tasks u).basePriority ∧
      (u ≠ t → (c.mutexInheritance = true → ∀ m, k.owner m ≠ some u) →
        (osPriorityRaiseLoop fuel k t p).priority u = k.priority u) := by
  induction fuel generalizing k t with
  | zero => exact ⟨rfl, fun _ _ => rfl⟩
  | succ fuel ih =>
    have hq := requeue_same k t p
    have hone : (((k.setPriority t p).osRequeue t).tasks u).basePriority =
        (k.tasks u).basePriority ∧ (u ≠ t → ((k.setPriority t p).osRequeue t).priority u =
          k.priority u) := by
      refine ⟨requeue_base k t u p, fun hu => ?_⟩
      rw [requeue_priority, if_neg hu]
    unfold osPriorityRaiseLoop
    dsimp only
    split
    · split
      case isTrue hinh =>
        split
        case h_1 owner ho =>
          obtain ⟨hb, hp⟩ := ih ((k.setPriority t p).osRequeue t) owner
          refine ⟨hb.trans hone.1, fun hu hm => ?_⟩
          have hou : u ≠ owner := by
            rintro rfl
            unfold blockingOwner at ho
            split at ho
            case h_1 m _ =>
              rw [hq.owner] at ho
              exact hm hinh.1 m ho
            case h_2 => cases ho
          rw [hp hou (fun hi m => by rw [hq.owner]; exact hm hi m)]
          exact hone.2 hu
        case h_2 => exact ⟨hone.1, fun hu _ => hone.2 hu⟩
      case isFalse => exact ⟨hone.1, fun hu _ => hone.2 hu⟩
    · exact ⟨rfl, fun _ _ => rfl⟩

theorem raise_rank (k : ListKernel c) (t u : Place c) (p : ℕ) :
    ((k.osPriorityRaise t p).tasks u).basePriority = (k.tasks u).basePriority ∧
      (u ≠ t → (c.mutexInheritance = true → ∀ m, k.owner m ≠ some u) →
        (k.osPriorityRaise t p).priority u = k.priority u) := raiseLoop_rank _ k t u p

/-- A task which owns nothing has its own priority. -/
theorem Sound.inherited_base (h : Sound k) (t : Place c)
    (hm : c.mutexInheritance = true → ∀ m, k.owner m ≠ some t) :
    k.osInheritedPriority t = (k.tasks t).basePriority := by
  unfold osInheritedPriority
  split
  case isTrue hinh =>
    have hnil : k.ownedLinks t = [] := List.eq_nil_iff_forall_not_mem.mpr fun m hmem =>
      hm hinh m ((h.owned.records hinh m t).mp hmem)
    rw [toList_lists, hnil]
    rfl
  case isFalse => rfl

theorem giveUp_rank (k : ListKernel c) (m u : Place c) :
    ((giveUp k m).tasks u).basePriority = (k.tasks u).basePriority ∧
      (k.owner m ≠ some u → (giveUp k m).priority u = k.priority u) := by
  unfold giveUp
  split
  case h_1 owner ho =>
    split
    · refine ⟨requeue_base _ _ _ _, fun hu => ?_⟩
      rw [requeue_priority, if_neg]
      rintro rfl
      exact hu ho
    · exact ⟨rfl, fun _ => rfl⟩
  case h_2 => exact ⟨rfl, fun _ => rfl⟩

theorem urge_rank (k : ListKernel c) (owner u : Place c) :
    ((urge k owner).tasks u).basePriority = (k.tasks u).basePriority ∧
      (urge k owner).priority u =
        (k.osPriorityRaise owner (k.priority k.currentTask)).priority u := by
  refine ⟨?_, setState_priority _ _ _ _⟩
  rw [← (raise_rank k owner u (k.priority k.currentTask)).1]
  unfold urge setState setTask
  dsimp only
  by_cases hu : u = k.currentTask
  · subst hu
    simp
  · simp [hu]

end AvrOs
