import AvrOs.Foremost

/-!
# What aging is limited by

Aged tasks do not gain more than `OS_CFG_AGING_LIMIT`, and a task above it does not wait for them.
-/

namespace AvrOs
open Intrusive Transition Kernel

variable {c : Config}

namespace Kernel

/-- No mutex is locked and handlers schedule. -/
def Plain {S : Type → Type → Type} (_ : Kernel c S) : Action c → Prop
  | .call x => x.mutex = none
  | .isrEnter os => os = true
  | _ => True

end Kernel

/-- Everybody has its own priority at least, and aging adds up to the limit. -/
def Limited (k : ListKernel c) : Prop := ∀ t, (k.tasks t).basePriority ≤ k.priority t ∧
  k.priority t ≤ max (k.tasks t).basePriority c.agingLimit

section
variable {k k' : ListKernel c} {a : Action c}

theorem aged_limit (current p : ℕ) : aged c current p ≤ max p c.agingLimit := by
  have hl := c.agingLimit_ok
  unfold aged
  by_cases hp : p ≠ 0 ∧ p < c.agingLimit ∧ p + (if c.roundRobin then 1 else 0) ≤ current
  · rw [if_pos hp]
    have := hp.2.1
    omega
  · rw [if_neg hp]
    exact le_max_left ..

theorem Limited.same_rank (h : Limited k) (hr : SameRank k k') : Limited k' := fun t => by
  rw [priority, (hr t).1, (hr t).2]
  exact h t

/-- A task which owns nothing settles for its own priority. -/
theorem Limited.settle (h : Limited k) (hs : Sound k) (hn : Unowned k) (t : Place c) :
    Limited (k.setPriority t (k.osInheritedPriority t)) := by
  intro u
  rw [setPriority_priority, setPriority_base]
  split
  case isTrue hu =>
    subst hu
    rw [hs.inherited_base u fun _ m => by rw [hn m]; simp]
    exact ⟨le_rfl, le_max_left ..⟩
  case isFalse => exact h u

theorem Limited.osSettle (h : Limited k) (hs : Sound k) (hn : Unowned k) (t : Place c) :
    Limited (k.osSettle t) := by
  unfold Kernel.osSettle
  split
  · split
    · exact h.settle hs hn t
    · exact h
  · exact h

theorem Atom.limited (x : Atom c) (hs : Sound k) (hg : x.guard k) (hb : x.Bare) (hn : Unowned k)
    (h : Limited k) : Limited (x.apply k) := by
  by_cases hx : x.Ranks
  · cases x with
    | start =>
      intro t
      by_cases ht : t = osIdleTask
      · subst ht
        simp [apply, setTask, priority]
      · simpa [apply, setTask, priority, ht] using h t
    | settle => exact h.settle hs hn k.currentTask
    | requeue | setBase => exact absurd hb id
    | create t p d =>
      have htasks := create_tasks k t p d
      intro u
      by_cases hu : u = t
      · subst hu
        rw [priority, htasks, Function.update_self]
        exact ⟨le_rfl, le_max_left ..⟩
      · rw [priority, htasks, Function.update_of_ne hu]
        exact h u
    | age =>
      intro t
      have he := congrArg (fun s => Kernel.tasks s t)
        (age_fold k (k.priority k.currentTask) _ (hs.linked.1.separate.nodup .ready))
      rw [priority, apply, he]
      dsimp only
      obtain ⟨hlo, hhi⟩ := h t
      split
      · have hge := (aged_bound (c := c) (k.priority k.currentTask) (k.priority t)).1
        have hle := aged_limit (c := c) (k.priority k.currentTask) (k.priority t)
        dsimp only
        omega
      · exact ⟨hlo, hhi⟩
    | _ => exact absurd hx id
  · exact h.same_rank (x.same_rank hs hg hx)

/-- Without mutexes a new priority is the one the task gets. -/
theorem repriority_limited (hs : Sound k) (hn : Unowned k) (t : Place c) (p : ℕ) (hlo : 1 ≤ p)
    (hhi : p ≤ 254) (h : Limited k) : Limited (repriority k t p) := by
  have hl : lends k t = none := Option.eq_none_iff_forall_ne_some.mpr fun u => hn.lends hs t u
  have hinh : inherits (rebased k t p) t = p := by
    have hsr : Sound (rebased k t p) := setBase_sound hs t p hlo hhi
    rw [← hsr.inherited_eq, hsr.inherited_base t fun _ m => ?_]
    · simp [rebased, setTask]
    · rw [show (rebased k t p).owner m = none from hn m]
      simp
  intro u
  have hb : ((repriority k t p).tasks u).basePriority = _ := congrFun (repriority_own k t p) u
  rw [hb, repriority_unlent hs t p hlo hhi hl, rebased_own, hinh]
  by_cases hu : u = t
  · subst hu
    rw [Function.update_self, Function.update_self]
    exact ⟨le_rfl, le_max_left ..⟩
  · rw [Function.update_of_ne hu, Function.update_of_ne hu]
    exact h u

theorem Move.limited (mv : Move c) (hs : Sound k) (hg : mv.guard k) (hn : Unowned k)
    (h : Limited k) : Limited (mv.apply k) := by
  cases mv with
  | one x => exact x.limited hs hg.2 hg.1 hn h
  | giveUp m =>
    rw [apply, AvrOs.giveUp, hn m]
    exact h
  | repriority t p => exact repriority_limited hs hn t p hg.1 hg.2 h
  | block call list timeout => exact (h.osSettle hs hn k.currentTask).same_rank (sleep_rank _ call list timeout)
  | lock call m owner timeout =>
    obtain ⟨-, -, -, -, ho, -⟩ := hg
    rw [hn m] at ho
    cases ho
  | lockIdle m owner =>
    obtain ⟨-, -, -, ho⟩ := hg
    rw [hn m] at ho
    cases ho
  | unlock m =>
    obtain ⟨-, ho, -⟩ := hg
    rw [hn m] at ho
    cases ho
  | delete t => exact (delete_run hs t hg.1 hg.2).keeps (I := Limited) hs (fun s x hs hx hu hi => by
      refine hi.same_rank (x.same_rank hs hx ?_)
      rcases hu with rfl | ⟨m, rfl⟩ | rfl <;> exact id) h
  | setEvent e flags => exact (setEvent_run hs e flags).keeps (I := Limited) hs (fun s x hs hx hu hi => by
      refine hi.same_rank (x.same_rank hs hx ?_)
      rcases hu with rfl | ⟨t, rfl⟩ <;> exact id) h
  | tick => exact (tick_run hs).keeps (I := Limited) hs (fun s x hs hx hu hi => by
      refine hi.same_rank (x.same_rank hs hx ?_)
      rcases hu with rfl | ⟨t, rfl⟩ <;> exact id) h

/-- What holds of runs without mutexes. -/
structure Unmutexed (k : ListKernel c) : Prop where
  unowned : Unowned k
  limited : Limited k
  leading : Leading k

theorem Unmutexed.step (h : Unmutexed k) (hr : Rest k) (ha : k.Plain a) (hs : k.step a = some k') :
    Unmutexed k' := by
  have hos : a ≠ .isrEnter false := by
    rintro rfl
    cases ha
  have hm := (step_moves hr.sound hr.running hr.noDead hs).1
  have hkeep := hm.invariant (I := fun s => Sound s ∧ Unowned s ∧ Limited s)
    (fun s mv hg hi => ⟨mv.sound hi.1 hg.1, mv.unowned hi.1 hg.1 (fun m he => ?_) hi.2.1,
      mv.limited hi.1 hg.1 hi.2.1 hi.2.2⟩) ⟨hr.sound, h.unowned, h.limited⟩
  · refine ⟨hkeep.2.1, hkeep.2.2, h.leading.step hr hos (fun hf => ?_) hs⟩
    obtain ⟨-, ⟨m, ho, -⟩, -⟩ := hf
    rw [h.unowned m] at ho
    cases ho
  · -- nobody locks a mutex
    subst he
    rcases hg.2 with rfl | ⟨timeout, rfl⟩
    · cases ha
    · cases ha

theorem unmutexed_of_reachable (h : ReachableBy Plain k) : Unmutexed k := by
  have htop : Leading (osInit c Lists) := ⟨by simp [osInit], fun _ t ht => (by cases ht)⟩
  refine h.invariant ⟨fun _ => rfl, fun t => ?_, htop⟩ fun s a s' hr hi ha hs =>
    hi.step (rest_of_reachable hr) ha hs
  by_cases ht : t = osIdleTask
  · simp [osInit, priority, ht]
  · simp [osInit, priority, ht]

end

/-- What aging does to tasks, and what it does not. -/
structure WithinLimit (k : Kernel c Links) : Prop where
  base : ∀ t, (k.tasks t).basePriority ≤ k.priority t
  limit : ∀ t, k.priority t ≤ max (k.tasks t).basePriority c.agingLimit
  /-- The aging pass leaves the ready list as it is, and it is in order for the new priorities. -/
  order : k.osAge.list .ready = k.list .ready ∧
    (k.list .ready).Pairwise fun t u => k.osAge.priority u ≤ k.osAge.priority t
  /-- Nobody above the limit is kept waiting by a task which is less important. -/
  first : k.mode = .thread → ∀ t ∈ k.list .ready, c.agingLimit < (k.tasks t).basePriority →
    (k.tasks t).basePriority ≤ (k.tasks k.currentTask).basePriority

/-- Aging keeps to its limit. -/
theorem reachable_within_limit (k : Kernel c Links) (h : ReachableBy Plain k) : WithinLimit k := by
  have hsim : ∃ l : ListKernel c, ReachableBy Plain l ∧ Sim k l :=
    reachable_sim (fun _ _ _ _ ha => ha) h
  obtain ⟨l, hl, hs⟩ := hsim
  have hu := unmutexed_of_reachable hl
  have hrest := rest_of_reachable hl
  have hage := hs.age
  have hsound : Sound l.osAge := (osAge_moves (b := l) hrest.sound hrest.running rfl).1.sound hrest.sound
  refine ⟨fun t => ?_, fun t => ?_, ⟨?_, ?_⟩, fun hm t ht hlim => ?_⟩
  · rw [hs.priority, hs.tasks]
    exact (hu.limited t).1
  · rw [hs.priority, hs.tasks]
    exact (hu.limited t).2
  · rw [hage.list, hs.list, osAge_links hrest.sound]
  · rw [hs.list, ← osAge_links hrest.sound]
    refine hsound.linked.1.ready.imp fun {t u} hle => ?_
    rw [hage.priority, hage.priority]
    exact hle
  · rw [hs.tasks] at hlim ⊢
    rw [hs.list] at ht
    rw [hs.current]
    have htop := hu.leading.top (hs.mode ▸ hm) t ht
    have hlo := (hu.limited t).1
    have hhi := (hu.limited l.currentTask).2
    omega

/-- Two tasks, the one below the limit starves for a while. -/
def starved : List (Action { Config.default 2 with agingLimit := 4, agingLimit_ok := by decide }) :=
  [Action.call (.osTaskCreate 1 3 false), .resume, .call (.osTaskCreate 2 9 false), .resume, .run] ++
    (List.replicate 20 [Action.tickEnter, .tickLeave, .resume]).flatten

theorem reachable_within_limit_taken : ∃ k, steps step (osInit _ Links) starved = some k ∧
    k.priority 1 = 4 ∧ WithinLimit k := by
  have hrun : (steps step (osInit _ Links) starved).map (fun k => decide (k.priority 1 = 4)) =
      some true := by decide +kernel
  obtain ⟨k, hk, hp⟩ := Option.map_eq_some_iff.mp hrun
  refine ⟨k, hk, of_decide_eq_true hp, reachable_within_limit k (Reach.steps_reach _ (fun a ha s => ?_)
    .init hk)⟩
  simp only [starved, List.mem_append, List.mem_flatten, List.mem_replicate, List.mem_cons,
    List.not_mem_nil, or_false] at ha
  rcases ha with (rfl | rfl | rfl | rfl | rfl) | ⟨as, ⟨-, rfl⟩, ha⟩
  · exact rfl
  · exact trivial
  · exact rfl
  · exact trivial
  · exact trivial
  · simp only [List.mem_cons, List.not_mem_nil, or_false] at ha
    rcases ha with rfl | rfl | rfl
    · exact trivial
    · exact trivial
    · exact trivial

end AvrOs
