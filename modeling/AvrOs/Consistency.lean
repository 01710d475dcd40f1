import AvrOs.Refinement

/-!
# Lists and states agree in every reachable state

What `Sound` says about the kernel on lists, told about the links in memory.
-/

namespace AvrOs
open Intrusive Transition Kernel

variable {c : Config}

namespace Kernel

/-- The members of a list as the `next` links lead to them. -/
def list (k : Kernel c Links) (i : ListId c) : List (Place c) := k.links.toList i

def timerList (k : Kernel c Links) : List (Place c) := k.timerLinks.toList ()

end Kernel

/-- Every task is where its state says it is, exactly once and nowhere else. -/
structure Consistent (k : Kernel c Links) : Prop where
  current : (k.tasks k.currentTask).state = OS_TASK_RUNNING
  currentOff : (∀ i, k.currentTask ∉ k.list i) ∧ k.currentTask ∉ k.timerList
  ready : ∀ t, (k.list .ready).count t = if k.stateOf t = OS_TASK_READY then 1 else 0
  wait : ∀ t w, (k.list (.wait w)).count t = if (k.tasks t).waitList = some w then 1 else 0
  blocked : ∀ t, (k.tasks t).waitList ≠ none → k.stateOf t = OS_TASK_BLOCKED
  timer : ∀ t, k.timerList.count t = if (k.tasks t).state &&& OS_TASK_TIMED ≠ 0 then 1 else 0
  timed : ∀ t, (k.tasks t).state &&& OS_TASK_TIMED ≠ 0 → k.stateOf t = OS_TASK_BLOCKED
  off : ∀ t, k.stateOf t = OS_TASK_SUSPENDED ∨ k.stateOf t = OS_TASK_DEAD →
    t ∉ k.list .ready ∧ (∀ w, t ∉ k.list (.wait w)) ∧ t ∉ k.timerList
  /-- Links lead from the head through the members and end behind the last one. -/
  acyclic : (∀ i, Chain k.links (k.links.head i) (k.list i) ∧ (k.list i).Nodup) ∧
    Chain k.timerLinks (k.timerLinks.head ()) k.timerList ∧ k.timerList.Nodup
  ordered : ∀ i, i ≠ .dead → (k.list i).Pairwise fun t u => k.priority u ≤ k.priority t
  idle : k.currentTask = osIdleTask ∨ osIdleTask ∈ k.list .ready
  /-- There is somebody to switch to, unless it is the idle task who runs. -/
  dispatch : k.currentTask ≠ osIdleTask → k.links.head .ready ≠ none

theorem count_eq {l : List (Place c)} (hl : l.Nodup) (t : Place c) (p : Prop) [Decidable p]
    (h : t ∈ l ↔ p) : l.count t = if p then 1 else 0 := by
  by_cases hp : p
  · rw [if_pos hp]
    exact List.count_eq_one_of_mem hl (h.mpr hp)
  · rw [if_neg hp]
    exact List.count_eq_zero_of_not_mem (fun hm => hp (h.mp hm))

theorem Sim.list {k : Kernel c Links} {l : ListKernel c} (h : Sim k l) (i : ListId c) :
    k.list i = l.links i := h.links_list i

theorem Sim.timerList {k : Kernel c Links} {l : ListKernel c} (h : Sim k l) :
    k.timerList = l.timerLinks () := by
  obtain ⟨s, rfl, hs⟩ := h
  exact congrFun hs.timerLinks.lists_eq ()

theorem Sim.chain {k : Kernel c Links} {l : ListKernel c} (h : Sim k l) :
    (∀ i, Chain k.links (k.links.head i) (l.links i)) ∧
      Chain k.timerLinks (k.timerLinks.head ()) (l.timerLinks ()) := by
  obtain ⟨s, rfl, hs⟩ := h
  exact ⟨hs.links.chain, hs.timerLinks.chain ()⟩

/-- A kernel which stands for a resting one is consistent. -/
theorem consistent_of_sim {k : Kernel c Links} {l : ListKernel c} (h : Sim k l) (hl : Rest l) :
    Consistent k := by
  obtain ⟨hs, hr, -⟩ := hl
  have hlin := hs.linked
  obtain ⟨hfree, htimer, -⟩ := (hlin.running hr.kind).2.1
  have hidle : l.currentTask = osIdleTask ∨ osIdleTask ∈ l.links .ready := by
    rcases hs.alive.idle with hi | hi
    · exact Or.inl (hs.alive.running _ hi).symm
    · exact Or.inr ((hlin.2 _).ready.mpr hi)
  refine ⟨?_, ?_, fun t => ?_, fun t w => ?_, fun t hw => ?_, fun t => ?_, fun t ht => ?_,
    fun t ht => ?_, ⟨fun i => ?_, ?_, ?_⟩, fun i hi => ?_, ?_, fun hc => ?_⟩
  · rw [h.tasks, h.current]
    exact hr
  · rw [h.current, h.timerList]
    exact ⟨fun i => by rw [h.list]; exact hfree i, htimer⟩
  · rw [h.list, h.stateOf]
    exact count_eq (hlin.1.separate.nodup _) t _ (hlin.2 t).ready
  · rw [h.list, h.tasks]
    exact count_eq (hlin.1.separate.nodup _) t _ ((hlin.2 t).wait w)
  · rw [h.tasks] at hw
    obtain ⟨w, hw⟩ := Option.ne_none_iff_exists'.mp hw
    rw [h.stateOf]
    exact (hlin.2 t).blocked w hw
  · rw [h.timerList, h.tasks]
    exact count_eq hlin.1.timers t _ (hlin.2 t).timer
  · rw [h.tasks] at ht
    rw [h.stateOf]
    exact (hlin.2 t).timed ht
  · rw [h.stateOf] at ht
    rw [h.list, h.timerList, (hlin.2 t).ready, (hlin.2 t).timer]
    have hst : (l.tasks t).state &&& OS_TASK_STATE = OS_TASK_SUSPENDED ∨
        (l.tasks t).state &&& OS_TASK_STATE = OS_TASK_DEAD := ht
    refine ⟨?_, fun w hw => ?_, fun htm => ?_⟩
    · rcases hst with hst | hst <;> rw [hst] <;> simp
    · rw [h.list, (hlin.2 t).wait] at hw
      have hb := (hlin.2 t).blocked w hw
      rcases hst with hst | hst <;> rw [hst] at hb <;> simp at hb
    · have hb := (hlin.2 t).timed htm
      rcases hst with hst | hst <;> rw [hst] at hb <;> simp at hb
  · rw [h.list]
    exact ⟨h.chain.1 i, hlin.1.separate.nodup i⟩
  · rw [h.timerList]
    exact h.chain.2
  · rw [h.timerList]
    exact hlin.1.timers
  · have ho : Ordered (fun t => (l.tasks t).priority) (l.links i) := by
      cases i with
      | ready => exact hlin.1.ready
      | dead => exact absurd rfl hi
      | wait w => exact hlin.1.wait w
    rw [h.list]
    refine ho.imp fun hab => ?_
    rw [h.priority, h.priority]
    exact hab
  · rw [h.current, h.list]
    exact hidle
  · rw [h.current] at hc
    have hm := hidle.resolve_left hc
    have hh : k.links.head .ready = (l.links .ready).head? := h.links_head .ready
    rw [hh]
    intro he
    rw [List.head?_eq_none_iff.mp he] at hm
    cases hm

/-- Lists and states agree in every state the system gets to from `osInit`. -/
theorem reachable_consistent (k : Kernel c Links) (h : Reachable k) : Consistent k := by
  obtain ⟨l, hl, hs⟩ := reachable_lists h
  exact consistent_of_sim hs (rest_of_reachable hl)

/-- A task which waits for a semaphore with a timeout is on two lists at once. -/
theorem reachable_consistent_taken : ∃ k, steps step (osInit (Config.default 2) Links)
    [.call (.osTaskCreate 1 3 false), .resume, .run, .call (.osSemaphoreTake 0 7)] = some k ∧
      Consistent k := by
  obtain ⟨k, hk⟩ := Option.isSome_iff_exists.mp (show (steps step (osInit (Config.default 2) Links)
    [.call (.osTaskCreate 1 3 false), .resume, .run, .call (.osSemaphoreTake 0 7)]).isSome = true
    by decide +kernel)
  exact ⟨k, hk, reachable_consistent k (Reach.steps_reach _ (fun _ _ _ => trivial) .init hk)⟩

end AvrOs
