import AvrOs.Consistency

/-!
# Who owns a mutex and who waits for it

A mutex is on the list of its owner and nowhere else. `OS_TASK_MUTEX` is what makes the cast
of `waitList` in `osPriorityRaise` safe.
-/

namespace AvrOs
open Intrusive Transition Kernel

variable {c : Config} {S : Type → Type → Type} [LinkStore S]

/-- Wherever the loop of `osPriorityRaise` casts `waitList` it finds a mutex with an owner. -/
def FindsOwners : ℕ → Kernel c S → Place c → ℕ → Prop
  | 0, _, _, _ => True
  | fuel + 1, k, task, priority =>
    k.priority task < priority →
      ((((k.setPriority task priority).osRequeue task).tasks task).state &&& OS_TASK_MUTEX ≠ 0) →
        ∃ m owner, (((k.setPriority task priority).osRequeue task).tasks task).waitList =
            some (.mutex m) ∧
          ((k.setPriority task priority).osRequeue task).blockingOwner task = some owner ∧
          FindsOwners fuel ((k.setPriority task priority).osRequeue task) owner priority

/-- Whoever is marked waits for a mutex of somebody. -/
def Marked (k : Kernel c S) : Prop :=
  ∀ t, OnMutex (k.tasks t) → ∃ m owner, (k.tasks t).waitList = some (.mutex m) ∧
    k.owner m = some owner

theorem requeue_marked {k : Kernel c S} (h : Marked k) (t : Place c) (p : ℕ) :
    Marked ((k.setPriority t p).osRequeue t) := by
  have hp : Marked (k.setPriority t p) := by
    intro u hu
    by_cases hut : u = t
    · subst hut
      have hu' : OnMutex (k.tasks u) := by simpa [OnMutex, setPriority, setTask] using hu
      simpa [setPriority, setTask] using h u hu'
    · have hu' : OnMutex (k.tasks u) := by simpa [OnMutex, setPriority, setTask, hut] using hu
      simpa [setPriority, setTask, hut] using h u hu'
  unfold osRequeue
  split
  · exact hp
  · exact hp

theorem finds_owners (fuel : ℕ) {k : Kernel c S} (h : Marked k) (t : Place c) (p : ℕ) :
    FindsOwners fuel k t p := by
  induction fuel generalizing k t with
  | zero => trivial
  | succ fuel ih =>
    intro _ hm
    have hq := requeue_marked h t p
    obtain ⟨m, owner, hw, ho⟩ := hq t hm
    refine ⟨m, owner, hw, ?_, ih hq owner⟩
    rw [blockingOwner, hw]
    exact ho

/-- Both records of who owns a mutex agree, and so do both of who waits for one. -/
structure Bookkept (k : Kernel c Links) : Prop where
  owned : ∀ m t, (k.ownedLinks.toList t).count m = if k.owner m = some t then 1 else 0
  alive : ∀ m t, k.owner m = some t → k.stateOf t ≠ OS_TASK_DEAD
  waiter : ∀ m, k.list (.wait (.mutex m)) ≠ [] → k.owner m ≠ none
  marked : ∀ t, (k.tasks t).state &&& OS_TASK_MUTEX ≠ 0 ↔
    k.stateOf t = OS_TASK_BLOCKED ∧ ∃ m, (k.tasks t).waitList = some (.mutex m)
  cast : ∀ fuel t p, FindsOwners fuel k t p

section
variable {l : ListKernel c}

/-- Between two actions nobody is marked but those who sleep. -/
theorem Rest.marked (h : Rest l) (hinh : c.mutexInheritance = true) (t : Place c) :
    OnMutex (l.tasks t) ↔
      l.stateOf t = OS_TASK_BLOCKED ∧ ∃ m, (l.tasks t).waitList = some (.mutex m) := by
  have howned := h.sound.owned
  constructor
  · intro hm
    have hb : l.stateOf t = OS_TASK_BLOCKED := by
      rcases howned.flagged t hm with hb | hr
      · exact hb
      · have hc : t = l.currentTask := h.sound.alive.running t hr
        have hst : (l.tasks l.currentTask).state = OS_TASK_RUNNING := h.running
        rw [OnMutex, hc, hst] at hm
        exact absurd mutex_running hm
    exact ⟨hb, ((howned.flag t hb).mp hm).2⟩
  · rintro ⟨hb, hw⟩
    exact (howned.flag t hb).mpr ⟨hinh, hw⟩

/-- Somebody owns every mutex a task waits for. -/
theorem Rest.finds (h : Rest l) (hinh : c.mutexInheritance = true) : Marked l := by
  intro t hm
  obtain ⟨-, m, hw⟩ := (h.marked hinh t).mp hm
  have ho := h.sound.owned.waiter m t (((h.sound.linked.2 t).wait _).mpr hw)
  obtain ⟨owner, ho⟩ := Option.ne_none_iff_exists'.mp ho
  exact ⟨m, owner, hw, ho⟩

end

/-- A kernel which stands for a resting one keeps its books. -/
theorem bookkept_of_sim {k : Kernel c Links} {l : ListKernel c} (h : Sim k l) (hl : Rest l)
    (hinh : c.mutexInheritance = true) : Bookkept k := by
  have howned := hl.sound.owned
  refine ⟨fun m t => ?_, fun m t ho => ?_, fun m hw => ?_, fun t => ?_, fun fuel t p => ?_⟩
  · have hlist : k.ownedLinks.toList t = l.ownedLinks t := h.owned_list
    rw [hlist, h.owner]
    exact count_eq (howned.separate.nodup t) m _ (howned.records hinh m t)
  · rw [h.owner] at ho
    rw [h.stateOf]
    exact hl.noDead hinh m t ho
  · rw [h.list] at hw
    obtain ⟨t, ht⟩ := List.exists_mem_of_ne_nil _ hw
    rw [h.owner]
    exact howned.waiter m t ht
  · rw [h.stateOf, h.tasks]
    exact hl.marked hinh t
  · refine finds_owners fuel (fun u hu => ?_) t p
    rw [h.tasks] at hu ⊢
    rw [h.owner]
    exact hl.finds hinh u hu

/-- The books about mutexes are right in every state the system gets to. -/
theorem reachable_bookkept (hinh : c.mutexInheritance = true) (k : Kernel c Links)
    (h : Reachable k) : Bookkept k := by
  obtain ⟨l, hl, hs⟩ := reachable_lists h
  exact bookkept_of_sim hs (rest_of_reachable hl) hinh

/-- A task waits for the mutex of another one. -/
theorem reachable_bookkept_taken : ∃ k, steps step (osInit (Config.default 2) Links)
    [.call (.osTaskCreate 1 3 false), .resume, .run, .call (.osMutexLock 0), .resume,
      .call (.osTaskCreate 2 5 false), .call (.osMutexLock 0)] = some k ∧ Bookkept k := by
  obtain ⟨k, hk⟩ := Option.isSome_iff_exists.mp (show (steps step (osInit (Config.default 2) Links)
    [.call (.osTaskCreate 1 3 false), .resume, .run, .call (.osMutexLock 0), .resume,
      .call (.osTaskCreate 2 5 false), .call (.osMutexLock 0)]).isSome = true by decide +kernel)
  exact ⟨k, hk, reachable_bookkept rfl k (Reach.steps_reach _ (fun _ _ _ => trivial) .init hk)⟩

end AvrOs
