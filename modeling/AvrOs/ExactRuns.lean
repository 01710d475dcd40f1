import AvrOs.Exactness
import AvrOs.SoftTimers

/-!
# Runs which leave those alone who wait for a mutex

As long as nobody is taken away from a mutex before its turn, every task has what it inherits,
which is the greatest of the own priorities of all who wait for it through mutexes. The idle
task is the exception: its attempts to lock a mutex with a timeout are over at once, and what
they leave behind is nobody's business anymore.
-/

namespace AvrOs
open Intrusive Transition Kernel

variable {c : Config} {S : Type → Type → Type} [LinkStore S]

/-- The task is on the list of a mutex. -/
def waitsForMutex (k : Kernel c S) (t : Place c) : Bool :=
  match (k.tasks t).waitList with
  | some (.mutex _) => true
  | _ => false

/-- The task times out, is deleted or suspended, or gets another priority. -/
def disturbs (k : Kernel c S) (t : Place c) : Action c → Bool
  | .tickEnter => Timed (k.tasks t) ∧ (k.tasks t).wake = k.ticks + 1
  | .call (.osTaskDelete o) | .call (.osTaskSuspend o) | .call (.osTaskSetPriority o _) =>
    t = o.getD k.currentTask
  | _ => false

/-- None of this happens to a task which waits for a mutex. -/
def Undisturbed (k : Kernel c S) (a : Action c) : Prop :=
  ∀ t, waitsForMutex k t = true → disturbs k t a = false

/-- The idle task is not the one to raise a chain of owners beyond the first one. -/
def IdleRaisesOne (k : Kernel c S) (m : Place c) : Prop :=
  k.currentTask = osIdleTask → ∀ t₁ t₂, k.owner m = some t₁ → k.blockingOwner t₁ = some t₂ →
    k.priority osIdleTask ≤ k.priority t₂

/-- Nothing is left behind by an attempt of the idle task to wait for a mutex, and `osRun` takes
nothing from it that it has inherited already. -/
def LeavesNothing (k : Kernel c S) : Action c → Prop
  | .run => ∀ t, k.blockingOwner t ≠ some osIdleTask
  | a => ∀ m ∈ a.mayWaitFor, IdleRaisesOne k m

instance (k : Kernel c S) (m : Place c) : Decidable (IdleRaisesOne k m) :=
  inferInstanceAs (Decidable (_ → _))

instance (k : Kernel c S) : DecidablePred (Undisturbed k) :=
  fun _ => inferInstanceAs (Decidable (∀ _, _ → _))

instance (k : Kernel c S) : DecidablePred (LeavesNothing k)
  | .run => inferInstanceAs (Decidable (∀ _, _))
  | .call _ | .resume | .isrEnter _ | .isrCall _ | .isrLeave | .tickEnter | .tickTimer | .tickLeave
  | .store _ _ | .setTickVar _ _ => inferInstanceAs (Decidable (∀ _ ∈ _, _))

/-- Inheritance as it is meant to be. -/
structure InheritsExactly (k : Kernel c S) : Prop where
  exact : ∀ t, k.stateOf t ≠ OS_TASK_DEAD → Exact k t
  greatest : (∀ t, ¬ Relation.TransGen (fun u v => k.blockingOwner u = some v) t t) →
    ∀ t, k.stateOf t ≠ OS_TASK_DEAD →
      IsGreatest {n | ∃ u, Donation.Reaches k.blockingOwner u t ∧ (k.tasks u).basePriority = n}
        (k.priority t)

/-! ### Steps -/

section
variable {k k' b : ListKernel c}

theorem waitsForMutex_iff (k : ListKernel c) (t : Place c) :
    waitsForMutex k t = false ↔ waitsFor k t = none := by
  unfold waitsForMutex waitsFor
  cases (k.tasks t).waitList with
  | none => simp
  | some w => cases w <;> simp

theorem lends_eq (hinh : c.mutexInheritance = true) (k : ListKernel c) : lends k = k.blockingOwner := by
  funext t
  rw [lends, if_pos hinh, blockingOwner_eq]

theorem lends_congr (ht : k'.tasks = k.tasks) (ho : k'.owner = k.owner) : lends k' = lends k := by
  funext t
  rw [lends, lends, waitsFor_tasks ht, ho]

theorem Undisturbed.spared {a : Action c} {t : Place c} (h : Undisturbed k a)
    (ht : disturbs k t a = true) : waitsForMutex k t = false := by
  by_contra hw
  rw [h t (Bool.not_eq_false _ ▸ hw)] at ht
  cases ht

/-- Whatever is allowed by the action is fair. -/
theorem fair_of_allowed {a : Action c} (hb : Sound b) (hinh : c.mutexInheritance = true)
    (ha : c.aging = false) (hu : Undisturbed b a) (hl : LeavesNothing b a) (mv : Move c)
    (hg : mv.guard k) (hm : Allowed b a k mv) : mv.Fair k := by
  cases mv with
  | one x =>
    cases x with
    | start =>
      obtain ⟨rfl, ht, ho⟩ := hm
      intro u
      rw [lends_congr ht ho, lends_eq hinh]
      exact hl u
    | age =>
      rw [hm.1] at ha
      cases ha
    | park t =>
      obtain ⟨ht, o, rfl, rfl, -⟩ := hm
      show waitsFor k _ = none
      rw [waitsFor_tasks ht]
      exact (waitsForMutex_iff b _).mp (hu.spared (decide_eq_true rfl))
    | _ => trivial
  | repriority t p =>
    obtain ⟨ht, -, o, q, rfl, rfl⟩ := hm
    show waitsFor k _ = none
    rw [waitsFor_tasks ht]
    exact (waitsForMutex_iff b _).mp (hu.spared (decide_eq_true rfl))
  | delete t =>
    obtain ⟨ht, o, rfl, rfl⟩ := hm
    show waitsFor k _ = none
    rw [waitsFor_tasks ht]
    exact (waitsForMutex_iff b _).mp (hu.spared (decide_eq_true rfl))
  | lockIdle m owner =>
    obtain ⟨ht, hown, hcall⟩ := hm
    obtain ⟨-, hi, hst, ho⟩ := hg
    intro t hlt
    have hcur : b.currentTask = osIdleTask := by
      refine (hb.alive.running osIdleTask ?_).symm
      rw [← ht, ← hi, hst]
      simp
    rw [lends_congr ht hown, lends_eq hinh] at hlt
    rw [hi, priority, priority, ht]
    have hmay : a.mayWaitFor = some m := by
      rcases hcall with rfl | ⟨timeout, hne, rfl⟩
      · rfl
      · exact if_neg hne
    have hcall : ∀ m ∈ a.mayWaitFor, IdleRaisesOne b m := by
      rcases hcall with rfl | ⟨timeout, hne, rfl⟩ <;> exact hl
    exact hcall m hmay hcur owner t (by rw [← hown, ho]) hlt
  | tick =>
    obtain ⟨rfl, ht, hticks⟩ := hm
    intro t _ htimed hwake
    rw [ht] at htimed hwake
    rw [hticks] at hwake
    rw [waitsFor_tasks ht]
    exact (waitsForMutex_iff b t).mp (hu.spared (decide_eq_true ⟨htimed, hwake⟩))
  | _ => trivial

theorem init_exact (c : Config) : AllExact (osInit c Lists) := fun t _ => by
  apply le_antisymm
  · exact Donation.base_le _ (ownPriority (osInit c Lists)) _ t
  · exact init_covers c True t fun _ => trivial

theorem Sim.blockingOwner {k : Kernel c Links} {l : ListKernel c} (h : Sim k l) :
    k.blockingOwner = l.blockingOwner := by
  funext t
  rw [Kernel.blockingOwner, Kernel.blockingOwner, h.tasks, h.owner]

theorem Sim.waitsForMutex {k : Kernel c Links} {l : ListKernel c} (h : Sim k l) :
    waitsForMutex k = waitsForMutex l := by
  funext t
  rw [AvrOs.waitsForMutex, AvrOs.waitsForMutex, h.tasks]

theorem Sim.undisturbed {k : Kernel c Links} {l : ListKernel c} (h : Sim k l) {a : Action c}
    (hu : Undisturbed k a) : Undisturbed l a := by
  unfold Undisturbed disturbs at hu ⊢
  rwa [h.waitsForMutex, h.tasks, h.timers.2, h.current] at hu

theorem Sim.idleRaisesOne {k : Kernel c Links} {l : ListKernel c} (h : Sim k l) {m : Place c}
    (hi : IdleRaisesOne k m) : IdleRaisesOne l m := by
  intro hcur t₁ t₂ hown hnext
  rw [← h.priority, ← h.priority]
  exact hi (h.current.trans hcur) t₁ t₂ (by rw [h.owner, hown]) (by rw [h.blockingOwner, hnext])

theorem Sim.leavesNothing {k : Kernel c Links} {l : ListKernel c} (h : Sim k l) {a : Action c}
    (hl : LeavesNothing k a) : LeavesNothing l a := by
  unfold LeavesNothing at hl ⊢
  split at hl
  case h_1 => rwa [h.blockingOwner] at hl
  case h_2 => exact fun m hm => h.idleRaisesOne (hl m hm)

/-- Everybody has what it inherits after every action which disturbs nobody. -/
theorem AllExact.step {a : Action c} (h : AllExact k) (hr : Rest k)
    (hinh : c.mutexInheritance = true) (ha : c.aging = false) (hu : Undisturbed k a)
    (hl : LeavesNothing k a) (hs : k.step a = some k') : AllExact k' := by
  have hm := (step_moves hr.sound hr.running hr.noDead hs).1
  refine (hm.invariant (I := fun s => Sound s ∧ NoDead s ∧ AllExact s) (fun s mv hg hi => ?_)
    ⟨hr.sound, hr.noDead, h⟩).2.2
  have hf := fair_of_allowed hr.sound hinh ha hu hl mv hg.1 hg.2
  exact ⟨mv.sound hi.1 hg.1, mv.noDead hi.1 hg.1 hi.2.1,
    mv.allExact hi.1 hi.2.1 hinh ha hg.1 hf hi.2.2⟩

theorem inheritsExactly_of_sim {k : Kernel c Links} {l : ListKernel c} (h : Sim k l) (hl : Sound l)
    (hinh : c.mutexInheritance = true) (he : AllExact l) : InheritsExactly k := by
  have howner : k.blockingOwner = lends l := by rw [lends_eq hinh, h.blockingOwner]
  have hlive : ∀ t u, Donation.Reaches (lends l) u t → l.stateOf t ≠ OS_TASK_DEAD →
      l.stateOf u ≠ OS_TASK_DEAD := by
    intro t u hr ht
    rcases hr.cases_head with rfl | ⟨v, hv, -⟩
    · exact ht
    · obtain ⟨-, m, hm, -⟩ := hl.lends_iff.mp hv
      rw [hl.waiter_blocked hm]
      simp
  refine ⟨fun t ht => ?_, fun hacyclic t ht => ?_⟩
  · rw [h.stateOf] at ht
    rw [Exact, h.priority, h.inherited, hl.inherited_eq]
    exact he t ht
  · rw [h.stateOf] at ht
    rw [howner] at hacyclic
    rw [howner, h.priority, h.tasks]
    exact Donation.exact_max (fun u _ => hacyclic u) fun u hu => he u (hlive t u hu ht)

end

/-- Every task has the priority it inherits, in every run which disturbs nobody who waits for a
mutex, unless the idle task leaves something behind. -/
theorem reachable_inherits (hinh : c.mutexInheritance = true) (ha : c.aging = false)
    (k : Kernel c Links) (h : ReachableBy (fun k a => Undisturbed k a ∧ LeavesNothing k a) k) :
    InheritsExactly k := by
  have hsim : ∃ l : ListKernel c,
      ReachableBy (fun k a => Undisturbed k a ∧ LeavesNothing k a) l ∧ Sim k l := by
    exact reachable_sim (fun k l a hs hok => ⟨hs.undisturbed hok.1, hs.leavesNothing hok.2⟩) h
  obtain ⟨l, hl, hs⟩ := hsim
  have hexact : AllExact l := hl.invariant (init_exact c) fun _ _ _ hr hi hok hstep =>
    hi.step (rest_of_reachable hr) hinh ha hok.1 hok.2 hstep
  exact inheritsExactly_of_sim hs (rest_of_reachable hl).sound hinh hexact

/-- The idle task owns a mutex a task waits for. It tries to lock the mutex of another task, which
is the first one of a chain. -/
def idleRaises : List (Action (Config.ageless 3)) :=
  [.call (.osMutexLock 2), .resume, .call (.osTaskCreate 3 9 false), .resume,
    .call (.osTaskCreate 2 5 false), .resume, .call (.osTaskCreate 1 3 false), .resume, .run,
    .call (.osDelay 1), .call (.osMutexLock 1), .resume,
    .call (.osSemaphoreTake 0 (OS_WAIT_FOREVER _)), .call (.osMutexLock 0), .resume,
    .call (.osMutexLock 1), .resume, .tickEnter, .tickLeave, .resume, .resume,
    .call (.osMutexLock 2), .resume, .call (.osMutexTryLock 0 5)]

theorem idleRaises_leaves : (steps (only step fun k a => decide (Undisturbed k a))
    (osInit (Config.ageless 3) Links) idleRaises).map
      (fun k => (k.started, k.stateOf 2, k.priority 2, k.osInheritedPriority 2)) =
    some (true, OS_TASK_BLOCKED, 9, 5) := by decide +kernel

/-- The second owner of the chain keeps what it has been raised to. -/
theorem inherits_not_exactly : ¬ ∀ k : Kernel (Config.ageless 3) Links,
    ReachableBy Undisturbed k → k.started = true → InheritsExactly k := by
  intro h
  obtain ⟨k, hk, he⟩ := Option.map_eq_some_iff.mp idleRaises_leaves
  obtain ⟨hst, hstate, hp, hi⟩ : k.started = true ∧ k.stateOf 2 = OS_TASK_BLOCKED ∧
      k.priority 2 = 9 ∧ k.osInheritedPriority 2 = 5 := by simpa using he
  have hx := (h k (Reach.only_reach (fun _ _ => of_decide_eq_true) _ .init hk) hst).exact 2
    (by rw [hstate]; decide)
  rw [Exact, hp, hi] at hx
  exact absurd hx (by decide)

/-- A mutex is locked twice over, and unlocked. -/
def chainLocked : List (Action (Config.ageless 3)) :=
  [.call (.osTaskCreate 1 3 false), .resume, .run, .call (.osMutexLock 0), .resume,
    .call (.osTaskCreate 2 5 false), .call (.osMutexLock 1), .resume, .call (.osMutexLock 0),
    .resume, .call (.osTaskCreate 3 7 false), .call (.osMutexLock 1), .resume,
    .call (.osMutexUnlock 0)]

theorem reachable_inherits_taken : ∃ k, steps
    (only step fun k a => decide (Undisturbed k a ∧ LeavesNothing k a))
      (osInit (Config.ageless 3) Links) chainLocked = some k ∧ InheritsExactly k := by
  obtain ⟨k, hk⟩ := Option.isSome_iff_exists.mp (show (steps
    (only step fun k a => decide (Undisturbed k a ∧ LeavesNothing k a))
      (osInit (Config.ageless 3) Links) chainLocked).isSome = true by decide +kernel)
  exact ⟨k, hk, reachable_inherits rfl rfl k
    (Reach.only_reach (fun _ _ => of_decide_eq_true) _ .init hk)⟩

end AvrOs
