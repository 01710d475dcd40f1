import AvrOs.GivingUp

/-!
# Priority gained by aging and owners of mutexes

A task raises the owners along a chain to the priority it runs with, and settles for what it
inherits only after that. What it has gained by aging is handed on to them.
-/

namespace AvrOs
open Intrusive Transition Kernel

variable {c : Config}

/-- The task keeps its priority without aging while it waits. Everybody on the chain of owners is
raised to that, and has what it inherits. -/
def RaisedToKept {S : Type → Type → Type} [LinkStore S] (t₁ : Place c) (k k₁ : Kernel c S) : Prop :=
  k₁.priority k.currentTask = k.osInheritedPriority k.currentTask ∧
    ∀ t, Donation.Reaches k.blockingOwner t₁ t →
      Exact k₁ t ∧ k₁.priority t = max (k.priority t) (k₁.priority k.currentTask)

section
variable {k k' : ListKernel c} {call : Call c} {m t₁ : Place c} {timeout : OsTick c}

/-- The task has settled for what it inherits, which is nothing to those it has raised. -/
theorem lock_settled (hs : Sound k) (hcov : Covered False k) (ha : c.aging = true)
    (hg : (Move.lock call m t₁ timeout).guard k)
    (hchain : ∀ t, Donation.Reaches (lends k) t₁ t → k.priority t = inherits k t) :
    ((Move.lock call m t₁ timeout).apply k).priority =
        Donation.settled (lends k) (ownPriority k) k.priority t₁ k.currentTask ∧
      ownPriority ((Move.lock call m t₁ timeout).apply k) = ownPriority k ∧
      lends ((Move.lock call m t₁ timeout).apply k) =
        Function.update (lends k) k.currentTask (some t₁) := by
  obtain ⟨hinh, hi, hst, -, ho, -⟩ := hg
  obtain ⟨hcur, hown, -, -, -⟩ := urge_same k t₁
  have hrise : Rising k t₁ := fun u v hu huv => by
    rw [hchain v (hu.tail huv)]
    exact Donation.waiter_le (ownPriority k) k.priority huv
  have hk : k.stateOf k.currentTask = OS_TASK_RUNNING := by
    rw [stateOf, hst]
    simp
  have hsu : Sound (urge k t₁) :=
    (urge_run (P := fun _ => True) (fun _ _ => trivial) trivial hs t₁ hinh hk
      (hs.raise_bound ho)).sound hs
  have hsettle : (urge k t₁).osSettle k.currentTask =
      (urge k t₁).setPriority k.currentTask (inherits k k.currentTask) := by
    have hself : inherits (urge k t₁) k.currentTask = inherits k k.currentTask := by
      rw [inherits, urge_lends, urge_own, urge_raised hs t₁ hrise]
      exact Donation.inherited_raised_self fun hr => hchain _ hr
    have hcu := urge_covered hs t₁ hcov k.currentTask fun he => absurd he hi
    rcases settle_cases hsu k.currentTask hcu with ⟨he, -⟩ | ⟨-, hn⟩
    · rw [he, hself]
    · rw [ha] at hn
      cases hn
  have he : (Move.lock call m t₁ timeout).apply k =
      ((urge k t₁).setPriority k.currentTask (inherits k k.currentTask)).sleep call
        (some (.mutex m)) timeout := by
    show ((urge k t₁).osSettle (urge k t₁).currentTask).sleep call (some (.mutex m)) timeout = _
    rw [hcur, hsettle]
  have hrank := sleep_rank ((urge k t₁).setPriority k.currentTask (inherits k k.currentTask)) call
    (some (.mutex m)) timeout
  have hcur' : ((urge k t₁).setPriority k.currentTask (inherits k k.currentTask)).currentTask =
      k.currentTask := hcur
  refine ⟨?_, ?_, ?_⟩
  · rw [he, hrank.priority, setPriority_priorities, urge_raised hs t₁ hrise]
    rfl
  · rw [he, hrank.own, setPriority_own, urge_own]
  · rw [he, sleep_lends, if_pos hinh, (setPriority_same _ _ _).lends, hcur', urge_lends]
    exact congrArg _ ((congrFun hown m).trans ho)

theorem lock_kept_iff {k₁ : ListKernel c} (hk : Rest k) (hcov : Covered False k)
    (hinh : c.mutexInheritance = true) (ha : c.aging = true) (hc : Locks call m timeout)
    (ho : k.owner m = some t₁) (hchain : ∀ t, Donation.Reaches k.blockingOwner t₁ t → Exact k t)
    (hcall : k.step (.call call) = some k₁) (hwait : k₁.frames k.currentTask = some (.blocked call)) :
    RaisedToKept t₁ k k₁ ↔
      Exact k k.currentTask ∨ k.priority k.currentTask ≤ k.priority t₁ := by
  obtain ⟨s, owner, he, ho', hg, rfl⟩ := lock_step hk hinh hc hcall hwait
  obtain rfl : owner = t₁ := Option.some.inj (ho'.symm.trans ho)
  have hcur := he.current
  have hexact : ∀ t, Exact k t ↔ k.priority t = inherits k t := fun t => hk.sound.exact_iff t
  have hcovs : Covered False s := fun t ht => by
    rw [he.loans.inherits, he.loans.priority]
    exact hcov t ht
  obtain ⟨hp, hown, hlends⟩ := lock_settled he.sound hcovs ha hg (fun t ht => by
    rw [he.loans.inherits, he.loans.priority, ← hexact]
    refine hchain t ?_
    rwa [← lends_eq hinh, ← he.loans.lends])
  have hloans := lock_switched he.sound hg
  have hr₁ := (hk.step hcall).sound
  have hidle : k.currentTask ≠ osIdleTask := by
    rw [← hcur]
    exact hg.2.1
  have hiff := Donation.settled_iff (a := owner) (hk.sound.current_lends hk.running.kind)
    (hcov k.currentTask fun hi => absurd hi hidle) fun t ht =>
      (hexact t).mp (hchain t (by rwa [← lends_eq hinh]))
  rw [he.loans.lends, he.loans.own, he.loans.priority, hcur, ← hloans.priority] at hp
  rw [he.loans.own, ← hloans.own] at hown
  rw [he.loans.lends, hcur, ← hloans.lends] at hlends
  unfold RaisedToKept
  simp only [hr₁.exact_iff, hk.sound.inherited_eq, hexact, inherits, ← lends_eq hinh, hlends, hown, hp]
  rw [← hiff]
  exact ⟨And.right, fun h => ⟨Function.update_self .., h⟩⟩

end

/-- What a task has gained by aging is not handed on if and only if it has gained nothing, or did
not have to raise anybody. -/
theorem lock_settled_iff {k k₁ : Kernel c Links} {call : Call c} {m t₁ : Place c} {timeout : OsTick c}
    (hinh : c.mutexInheritance = true) (ha : c.aging = true) (hk : Reachable k)
    (hc : Locks call m timeout) (ho : k.owner m = some t₁)
    (hchain : ∀ t, Donation.Reaches k.blockingOwner t₁ t → Exact k t)
    (hcall : k.step (.call call) = some k₁) (hwait : k₁.frames k.currentTask = some (.blocked call)) :
    RaisedToKept t₁ k k₁ ↔
      Exact k k.currentTask ∨ k.priority k.currentTask ≤ k.priority t₁ := by
  obtain ⟨l, hl, hs⟩ := reachable_lists hk
  have hr := rest_of_reachable hl
  obtain ⟨l₁, hcall', hs₁⟩ := step_sim hs hr _ hcall
  have hiff := lock_kept_iff hr (covered_of_reachable hl) hinh ha hc (by rw [← hs.owner, ho])
    (fun t ht => by rw [← hs.exact]; exact hchain t (by rwa [hs.blockingOwner])) hcall'
    (by rw [← hs₁.frames, ← hs.current, hwait])
  unfold RaisedToKept at hiff ⊢
  rw [hs.blockingOwner, hs.current, hs.inherited]
  simp only [hs₁.exact, hs.exact, hs₁.priority, hs.priority]
  exact hiff

/-- A task owns a mutex and waits for something else, another one of priority 5 has just started. -/
def ownerAsleep : List (Action (Config.default 3)) :=
  [.call (.osTaskCreate 1 2 false), .resume, .run, .call (.osMutexLock 0), .resume,
    .call (.osSemaphoreTake 0 (OS_WAIT_FOREVER _)), .resume, .call (.osTaskCreate 2 5 false)]

/-- A task of priority 4 has been ready for that long that it gets to run with priority 5. -/
def agedTask : List (Action (Config.default 3)) :=
  ownerAsleep ++ [Action.call (.osTaskCreate 3 4 false), .resume] ++
    (List.replicate 10 [Action.tickEnter, .tickLeave, .resume]).flatten.dropLast

/-- A task waits for the mutex after these actions. -/
def waitsAfter (as : List (Action (Config.default 3))) (check : Kernel (Config.default 3) Links →
    Kernel (Config.default 3) Links → Bool) : Option Bool :=
  (steps step (osInit _ Links) as).bind fun k =>
    (k.step (.call (.osMutexTryLock 0 100))).map fun k₁ =>
      decide (k.owner 0 = some 1 ∧ k.blockingOwner 1 = none ∧ Exact k 1 ∧
        k₁.frames k.currentTask = some (.blocked (.osMutexTryLock 0 100)) ∧ check k k₁ = true)

theorem waitsAfter_waits (as : List (Action (Config.default 3))) (check : Kernel (Config.default 3) Links →
    Kernel (Config.default 3) Links → Bool) (h : waitsAfter as check = some true) :
    ∃ k k₁ : Kernel (Config.default 3) Links, Reachable k ∧ k.owner 0 = some 1 ∧
      (∀ t, Donation.Reaches k.blockingOwner 1 t → Exact k t) ∧
      k.step (.call (.osMutexTryLock 0 100)) = some k₁ ∧
      k₁.frames k.currentTask = some (.blocked (.osMutexTryLock 0 100)) ∧ check k k₁ = true := by
  obtain ⟨k, hk, h⟩ := Option.bind_eq_some_iff.mp h
  obtain ⟨k₁, hk₁, h⟩ := Option.map_eq_some_iff.mp h
  obtain ⟨hown, hlast, hexact, hwait, hcheck⟩ := of_decide_eq_true h
  refine ⟨k, k₁, Reach.steps_reach _ (fun _ _ _ => trivial) .init hk, hown, fun t ht => ?_, hk₁, hwait,
    hcheck⟩
  rw [ht.of_none hlast]
  exact hexact

/-- The owner of the mutex is left with the priority another task has gained by aging. -/
theorem lock_not_settled : ¬ ∀ (k k₁ : Kernel (Config.default 3) Links) (m t₁ : Place _)
    (timeout : OsTick _), Reachable k → k.owner m = some t₁ →
      (∀ t, Donation.Reaches k.blockingOwner t₁ t → Exact k t) →
      k.step (.call (.osMutexTryLock m timeout)) = some k₁ →
      k₁.frames k.currentTask = some (.blocked (.osMutexTryLock m timeout)) → RaisedToKept t₁ k k₁ := by
  intro h
  obtain ⟨k, k₁, hk, hown, hchain, hcall, hwait, hcheck⟩ := waitsAfter_waits agedTask
    (fun _ k₁ => decide (k₁.priority 1 = 5 ∧ k₁.osInheritedPriority 1 = 4)) (by decide +kernel)
  obtain ⟨hp, hi⟩ := of_decide_eq_true hcheck
  have he := ((h k k₁ 0 1 100 hk hown hchain hcall hwait).2 1 .refl).1
  rw [Exact, hp, hi] at he
  exact absurd he (by decide)

/-- A task which has not waited for the processor hands on what it keeps. -/
theorem lock_settled_taken : ∃ k k₁ : Kernel (Config.default 3) Links,
    k.step (.call (.osMutexTryLock 0 100)) = some k₁ ∧ RaisedToKept 1 k k₁ := by
  obtain ⟨k, k₁, hk, hown, hchain, hcall, hwait, hcheck⟩ := waitsAfter_waits ownerAsleep
    (fun k _ => decide (Exact k k.currentTask)) (by decide +kernel)
  exact ⟨k, k₁, hcall, (lock_settled_iff rfl rfl hk (Or.inl rfl) hown hchain hcall hwait).mpr
    (Or.inl (of_decide_eq_true hcheck))⟩

end AvrOs
