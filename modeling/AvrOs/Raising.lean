import AvrOs.Donation.Climbs
import AvrOs.Inheritance
import AvrOs.Refinement

/-!
# What a raise does

`osPriorityRaise` follows the owners of mutexes. It ends on a circle as well, as nobody is
raised twice, and lists which are in order are in order all the time.
-/

namespace AvrOs
open Intrusive Transition Kernel Donation

variable {c : Config} {S : Type → Type → Type} [LinkStore S]

/-- The loop from the state it is entered with to the one it is left with. It is stuck where
there is no owner to go on with. -/
inductive RaiseRuns (priority : ℕ) : Kernel c S → Place c → Kernel c S → Prop where
  | ends {k : Kernel c S} {task : Place c} (h : ¬ k.priority task < priority) : RaiseRuns priority k task k
  | breaks {k s : Kernel c S} {task : Place c} (h : k.priority task < priority)
      (hs : s = (k.setPriority task priority).osRequeue task)
      (hflag : ¬ (c.mutexInheritance ∧ (s.tasks task).state &&& OS_TASK_MUTEX ≠ 0)) : RaiseRuns priority k task s
  | continues {k s k' : Kernel c S} {task owner : Place c} (h : k.priority task < priority)
      (hs : s = (k.setPriority task priority).osRequeue task)
      (hflag : c.mutexInheritance ∧ (s.tasks task).state &&& OS_TASK_MUTEX ≠ 0)
      (ho : s.blockingOwner task = some owner) (rest : RaiseRuns priority s owner k') : RaiseRuns priority k task k'

/-- The task waits for a mutex of the other one, and the kernel keeps track of it. -/
def WaitsOn (k : Kernel c S) (t u : Place c) : Prop :=
  c.mutexInheritance = true ∧ ∃ m, (k.tasks t).waitList = some (.mutex m) ∧ k.owner m = some u

/-- The tasks to be raised: those on the way along the owners, as far as everybody is below. -/
def OnTheWay (k : Kernel c S) (priority : ℕ) (t u : Place c) : Prop :=
  k.priority t < priority ∧
    Relation.ReflTransGen (fun a b => WaitsOn k a b ∧ k.priority b < priority) t u

/-- The memory holds lists in order which agree with the states of the tasks, and whoever is
flagged waits for a mutex which has an owner. -/
structure Traceable (k : Kernel c Links) (l : ListKernel c) : Prop where
  sim : Sim k l
  linked : Linked l
  marked : ∀ t, OnMutex (l.tasks t) ↔ c.mutexInheritance = true ∧ waitsFor l t ≠ none
  owner : ∀ t m, waitsFor l t = some m → l.owner m ≠ none

/-! ### The loop ends -/

/-- There is always an owner to go on with. -/
def Followable (k : Kernel c S) : Prop :=
  ∀ t, c.mutexInheritance → (k.tasks t).state &&& OS_TASK_MUTEX ≠ 0 → k.blockingOwner t ≠ none

theorem requeue_fields (k : Kernel c S) (t u : Place c) (p : ℕ) :
    (((k.setPriority t p).osRequeue t).tasks u).state = (k.tasks u).state ∧
      ((k.setPriority t p).osRequeue t).blockingOwner u = k.blockingOwner u := by
  have howner : ((k.setPriority t p).osRequeue t).owner = k.owner := by
    unfold osRequeue
    split <;> rfl
  unfold blockingOwner
  rw [requeue_tasks, howner]
  by_cases hu : u = t
  · subst hu
    simp [setPriority, setTask]
  · simp [setPriority, setTask, hu]

theorem Followable.requeue {k : Kernel c S} (h : Followable k) (t : Place c) (p : ℕ) :
    Followable ((k.setPriority t p).osRequeue t) := by
  intro u hinh hflag
  obtain ⟨hstate, howner⟩ := requeue_fields k t u p
  rw [hstate] at hflag
  rw [howner]
  exact h u hinh hflag

/-- Each round there is one less to be raised. -/
theorem raiseRuns_iff (fuel : ℕ) {k k' : Kernel c S} (h : Followable k) (t : Place c) (p : ℕ)
    (hf : (Finset.univ.filter fun u => k.priority u < p).card ≤ fuel) :
    RaiseRuns p k t k' ↔ k' = osPriorityRaiseLoop fuel k t p := by
  induction fuel generalizing k t with
  | zero =>
    have hge : p ≤ k.priority t := none_below hf t
    constructor
    · intro hr
      cases hr with
      | ends => rfl
      | breaks hlt => omega
      | continues hlt => omega
    · rintro rfl
      exact .ends (by omega)
  | succ fuel ih =>
    unfold osPriorityRaiseLoop
    by_cases hlt : k.priority t < p
    · have hfollow := h.requeue t p
      have hcard : (Finset.univ.filter fun u => ((k.setPriority t p).osRequeue t).priority u < p).card ≤ fuel := by
        rw [requeue_priorities]
        exact below_update hlt hf
      rw [if_pos hlt]
      dsimp only
      generalize hs : (k.setPriority t p).osRequeue t = s at hfollow hcard ⊢
      by_cases hflag : c.mutexInheritance ∧ (s.tasks t).state &&& OS_TASK_MUTEX ≠ 0
      · rw [if_pos hflag]
        obtain ⟨o, ho⟩ := Option.ne_none_iff_exists'.mp (hfollow t hflag.1 hflag.2)
        rw [ho]
        dsimp only
        rw [← ih hfollow o hcard]
        constructor
        · intro hr
          cases hr with
          | ends hge => exact absurd hlt hge
          | breaks _ hs' hno =>
            subst hs'
            exact absurd (hs ▸ hflag) hno
          | continues _ hs' _ ho' rest =>
            rw [hs] at hs'
            subst hs'
            rw [ho] at ho'
            injection ho' with ho'
            exact ho' ▸ rest
        · exact fun hr => .continues hlt hs.symm hflag ho hr
      · rw [if_neg hflag]
        constructor
        · intro hr
          cases hr with
          | ends hge => exact absurd hlt hge
          | breaks _ hs' _ => exact hs'.trans hs
          | continues _ hs' hyes =>
            rw [hs] at hs'
            subst hs'
            exact absurd hyes hflag
        · rintro rfl
          exact .breaks hlt hs.symm hflag
    · rw [if_neg hlt]
      constructor
      · intro hr
        cases hr with
        | ends => rfl
        | breaks hlt' => exact absurd hlt' hlt
        | continues hlt' => exact absurd hlt' hlt
      · rintro rfl
        exact .ends hlt

/-! ### Whoever is raised -/

section
variable {k : Kernel c Links} {l : ListKernel c}

theorem Traceable.followable (h : Traceable k l) : Followable k := by
  intro t hinh hflag
  have hmark : OnMutex (l.tasks t) := h.sim.tasks ▸ hflag
  obtain ⟨m, hm⟩ := Option.ne_none_iff_exists'.mp ((h.marked t).mp hmark).2
  have hb : k.blockingOwner t = l.blockingOwner t := by
    unfold blockingOwner
    rw [h.sim.tasks, h.sim.owner]
  rw [hb, blockingOwner_eq, hm]
  exact h.owner t m hm

theorem Traceable.lendersMarked (h : Traceable k l) : LendersMarked l := by
  intro t ht
  unfold lends at ht
  split at ht
  case isTrue hinh =>
    refine (h.marked t).mpr ⟨hinh, fun hn => ht ?_⟩
    rw [hn]
    rfl
  case isFalse => exact absurd rfl ht

theorem Traceable.lends_iff (h : Traceable k l) (t u : Place c) : lends l t = some u ↔ WaitsOn k t u := by
  unfold lends WaitsOn
  rw [h.sim.tasks, h.sim.owner]
  split
  case isTrue hinh =>
    rw [Option.bind_eq_some_iff]
    simp only [waitsFor_iff, hinh, true_and]
  case isFalse hinh => exact ⟨fun hn => (by cases hn), fun hx => absurd hx.1 hinh⟩

theorem Traceable.onTheWay (h : Traceable k l) (p : ℕ) (t u : Place c) :
    Climbs (lends l) l.priority p t u ↔ OnTheWay k p t u := by
  have hprio : k.priority = l.priority := funext h.sim.priority
  unfold Climbs OnTheWay
  simp only [h.lends_iff, hprio]

theorem SameTasks.waitsFor {l' : ListKernel c} (h : SameTasks l l') (t : Place c) : waitsFor l' t = waitsFor l t := by
  obtain ⟨p, b, he⟩ := h.tasks t
  refine waitsFor_congr ?_
  rw [he]

/-- Nobody joins a list or leaves it, wherever the loop gets. -/
theorem raiseLoop_linked (fuel : ℕ) (h : Linked l) (t : Place c) (p : ℕ) :
    Linked (osPriorityRaiseLoop fuel l t p) ∧
      ∀ i u, u ∈ (osPriorityRaiseLoop fuel l t p).links i ↔ u ∈ l.links i := by
  induction fuel generalizing l t with
  | zero => exact ⟨h, fun _ _ => Iff.rfl⟩
  | succ fuel ih =>
    have hone := requeue_linked h t p
    have hmem := requeue_mem h (t := t) p
    unfold osPriorityRaiseLoop
    dsimp only
    split
    · split
      · split
        · rename_i o _
          obtain ⟨hrest, hsame⟩ := ih hone o
          exact ⟨hrest, fun i u => (hsame i u).trans (hmem i u)⟩
        · exact ⟨hone, hmem⟩
      · exact ⟨hone, hmem⟩
    · exact ⟨h, fun _ _ => Iff.rfl⟩

end

/-- The loop of `osPriorityRaise` ends, those on the way get the priority and nobody else does, and
all the lists are in order with the members they had. -/
theorem raise_exactly {k : Kernel c Links} {l : ListKernel c} (h : Traceable k l) (t : Place c) (priority : ℕ) :
    let k' := k.osPriorityRaise t priority
    (∀ s, RaiseRuns priority k t s ↔ s = k') ∧
    (∀ u, (OnTheWay k priority t u → k'.priority u = priority) ∧
      (¬ OnTheWay k priority t u → k'.priority u = k.priority u)) ∧
    (∀ i, (LinkStore.toList k'.links i).Perm (LinkStore.toList k.links i)) ∧
    (∀ i, i ≠ .dead → Ordered k'.priority (LinkStore.toList k'.links i)) ∧
    Traceable k' (l.osPriorityRaise t priority) := by
  intro k'
  have hsim : Sim k' (l.osPriorityRaise t priority) := h.sim.raiseLoop _ h.linked t priority
  obtain ⟨hlinked, hmem⟩ := raiseLoop_linked (c.places + 1) h.linked t priority
  have hsame : SameTasks l (l.osPriorityRaise t priority) := raiseLoop_same (c.places + 1) l t priority
  have hprio : k'.priority = (l.osPriorityRaise t priority).priority := funext hsim.priority
  refine ⟨fun s => raiseRuns_iff _ h.followable t priority (below_places _ _), fun u => ?_, fun i => ?_,
    fun i hi => ?_, hsim, hlinked, fun u => ?_, fun u m hm => ?_⟩
  · have hclimbs : (Climbs (AvrOs.lends l) l.priority priority t u → _) ∧ (¬ Climbs _ _ _ t u → _) :=
      raise_climbs (c.places + 1) l.priority t (below_places _ priority) u
    have hraise : (l.osPriorityRaise t priority).priority =
        Donation.raise (lends l) (c.places + 1) l.priority t priority :=
      raiseLoop_priority _ h.lendersMarked t priority
    rwa [h.onTheWay, ← hraise, ← hprio, ← h.sim.priority] at hclimbs
  · rw [hsim.links_list, h.sim.links_list]
    exact (List.perm_ext_iff_of_nodup (hlinked.1.separate.nodup i) (h.linked.1.separate.nodup i)).mpr (hmem i)
  · rw [hsim.links_list, hprio]
    cases i with
    | ready => exact hlinked.1.ready
    | dead => exact absurd rfl hi
    | wait w => exact hlinked.1.wait w
  · rw [hsame.waitsFor, ← h.marked u]
    unfold OnMutex
    rw [hsame.state u]
  · rw [hsame.waitsFor] at hm
    rw [hsame.owner]
    exact h.owner u m hm

/-- That is what every state the system gets to is like. -/
theorem traceable_of_sim {k : Kernel c Links} {l : ListKernel c} (h : Sim k l) (hl : Rest l) : Traceable k l := by
  have hs := hl.sound
  have hwaiter : ∀ t m, waitsFor l t = some m → t ∈ l.links (.wait (.mutex m)) := fun t m hm =>
    hs.waitsFor_mem.mp hm
  have hflag : ∀ t, l.stateOf t = OS_TASK_BLOCKED →
      (OnMutex (l.tasks t) ↔ c.mutexInheritance = true ∧ waitsFor l t ≠ none) := fun t hb => by
    rw [hs.owned.flag t hb, Option.ne_none_iff_exists']
    simp only [waitsFor_iff]
  refine ⟨h, hs.linked, fun t => ⟨fun hm => ?_, fun hw => ?_⟩, fun t m hm => hs.owned.waiter m t (hwaiter t m hm)⟩
  · rcases hs.owned.flagged t hm with hb | hr
    · exact (hflag t hb).mp hm
    · have hcur := hs.alive.running t hr
      have hstate : (l.tasks l.currentTask).state = OS_TASK_RUNNING := hl.running
      rw [hcur, OnMutex, hstate] at hm
      exact absurd rfl hm
  · obtain ⟨m, hm⟩ := Option.ne_none_iff_exists'.mp hw.2
    exact (hflag t (hs.waiter_blocked (hwaiter t m hm))).mpr hw

/-- Two tasks which wait for each other. -/
def deadlocked : List (Action (Config.default 2)) :=
  [.call (.osTaskCreate 1 3 false), .resume, .call (.osTaskCreate 2 4 false), .resume, .run,
    .call (.osMutexLock 2), .resume, .call (.osDelay 1), .call (.osMutexLock 1), .resume, .tickEnter,
    .tickLeave, .resume, .resume, .call (.osMutexLock 1), .resume, .call (.osMutexLock 2)]

/-- One round is all it takes. -/
theorem raise_exactly_deadlocked : ∃ k : Kernel (Config.default 2) Links,
    steps step (osInit _ Links) deadlocked = some k ∧ WaitsOn k 1 2 ∧ WaitsOn k 2 1 ∧
      (k.osPriorityRaise 1 9).priority 2 = 9 ∧ RaiseRuns 9 k 1 (k.osPriorityRaise 1 9) := by
  have hrun : ((steps step (osInit (Config.default 2) Links) deadlocked).map fun k =>
      decide ((k.tasks 1).waitList = some (.mutex 2) ∧ k.owner 2 = some 2 ∧
        (k.tasks 2).waitList = some (.mutex 1) ∧ k.owner 1 = some 1 ∧ k.priority 1 < 9 ∧ k.priority 2 < 9)) =
      some true := by decide +kernel
  obtain ⟨k, hk, hrun⟩ := Option.map_eq_some_iff.mp hrun
  obtain ⟨hw₁, ho₂, hw₂, ho₁, hp₁, hp₂⟩ := of_decide_eq_true hrun
  have hreach : Reachable k := Reach.steps_reach _ (fun _ _ _ => trivial) .init hk
  obtain ⟨l, hl, hsim⟩ := reachable_lists hreach
  have h12 : WaitsOn k 1 2 := ⟨rfl, 2, hw₁, ho₂⟩
  obtain ⟨hruns, hprio, -⟩ := raise_exactly (traceable_of_sim hsim (rest_of_reachable hl)) 1 9
  exact ⟨k, hk, h12, ⟨rfl, 1, hw₂, ho₁⟩, (hprio 2).1 ⟨hp₁, .single ⟨h12, hp₂⟩⟩, (hruns _).mpr rfl⟩

end AvrOs
