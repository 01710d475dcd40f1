import AvrOs.Consistency
import AvrOs.Inheritance

/-!
# Inheritance never falls short

Every task has what it inherits, whatever happens. A step which makes a task wait for a mutex
comes after the raise of all the owners down the chain, a mutex is passed on to the most
important one of those who wait for it, and nobody is lowered by more than it may be.
-/

namespace AvrOs
open Intrusive Transition Kernel

variable {c : Config} {k k' : ListKernel c} {idle : Prop}

/-- Nobody has less than what is inherited, the idle task included if `idle` holds: `osRun` may
take from it what it has inherited as main(). -/
def Covered (idle : Prop) (k : ListKernel c) : Prop :=
  ∀ t, (t = osIdleTask → idle) → inherits k t ≤ k.priority t

theorem Covered.lender (h : Covered idle k) {t u : Place c} (hu : u = osIdleTask → idle)
    (hl : lends k t = some u) : k.priority t ≤ k.priority u :=
  (Donation.waiter_le (ownPriority k) k.priority hl).trans (h u hu)

theorem Covered.base (h : Covered idle k) (t : Place c) (ht : t = osIdleTask → idle) :
    ownPriority k t ≤ k.priority t :=
  (Donation.base_le (lends k) (ownPriority k) k.priority t).trans (h t ht)

theorem lends_inheritance {t u : Place c} (h : lends k t = some u) : c.mutexInheritance = true := by
  by_contra hinh
  rw [lends, if_neg hinh] at h
  cases h

/-! ### Steps -/

/-- Nobody falls short who has no more to inherit than before. -/
theorem Covered.step (h : Covered idle k)
    (hu : ∀ u, (u = osIdleTask → idle) →
      (ownPriority k' u ≤ ownPriority k u ∧ k.priority u ≤ k'.priority u ∧
        ∀ t, lends k' t = some u → lends k t = some u ∧ k'.priority t ≤ k.priority t) ∨
      inherits k' u ≤ k'.priority u) : Covered idle k' := by
  intro u hi
  rcases hu u hi with ⟨hb, hp, hl⟩ | hle
  · exact (Donation.inherited_mono hb hl).trans ((h u hi).trans hp)
  · exact hle

theorem SameRank.priority (h : SameRank k k') : k'.priority = k.priority := funext fun u => (h u).1

theorem SameRank.own (h : SameRank k k') : ownPriority k' = ownPriority k := funext fun u => (h u).2

theorem Covered.same_rank (h : Covered idle k) (hr : SameRank k k')
    (hl : ∀ t u, lends k' t = some u → lends k t = some u) : Covered idle k' :=
  h.step fun u _ => Or.inl ⟨(hr u).2.le, (hr u).1.ge, fun t ht => ⟨hl t u ht, (hr t).1.le⟩⟩

theorem setPriority_priorities (k : ListKernel c) (t : Place c) (p : ℕ) :
    (k.setPriority t p).priority = Function.update k.priority t p := by
  funext u
  rw [setPriority_priority, Function.update_apply]

theorem setPriority_own (k : ListKernel c) (t : Place c) (p : ℕ) :
    ownPriority (k.setPriority t p) = ownPriority k := funext fun u => setPriority_base k t u p

/-- The new priority of a task which lends to nobody is nothing to the others. -/
theorem setPriority_inherits (t u : Place c) (p : ℕ) (hn : lends k t = none) :
    inherits (k.setPriority t p) u = inherits k u := by
  refine Donation.inherited_congr (congrFun (setPriority_own k t p) u) (fun v => ?_) fun v hv => ?_
  · rw [(setPriority_same k t p).lends]
  · have hvt : v ≠ t := by
      rintro rfl
      rw [hn] at hv
      cases hv
    rw [setPriority_priority, if_neg hvt]

theorem setPriority_covered (h : Covered idle k) {t : Place c} {p : ℕ} (hn : lends k t = none)
    (hp : inherits k t ≤ p) : Covered idle (k.setPriority t p) := by
  intro u hi
  rw [setPriority_inherits t u p hn, setPriority_priority]
  split
  case isTrue hu => exact hu ▸ hp
  case isFalse => exact h u hi

/-- Settled is the task which runs, and that lends to nobody. -/
theorem settle_covered (hs : Sound k) (hr : k.stateOf k.currentTask = OS_TASK_RUNNING)
    (h : Covered idle k) : Covered idle (k.setPriority k.currentTask (k.osInheritedPriority k.currentTask)) :=
  setPriority_covered h (hs.current_lends hr) (hs.inherited_eq _).ge

theorem create_tasks (k : ListKernel c) (t : Place c) (p : ℕ) (dynamic : Bool) :
    ((Atom.create t p dynamic).apply k).tasks = Function.update k.tasks t
      { newTask c p dynamic with state := OS_TASK_READY } := by
  rw [Atom.apply, osTaskSetup, osReady_eq]
  simp [emit, setFrame, setTask]

/-- A new task has nothing yet to inherit from. -/
theorem create_covered (hs : Sound k) (t : Place c) (p : ℕ) (dynamic : Bool)
    (hg : (Atom.create t p dynamic).guard k) (h : Covered idle k) :
    Covered idle ((Atom.create t p dynamic).apply k) := by
  have htasks := create_tasks k t p dynamic
  have hn : lends k t = none := hs.lends_none (by rw [hg.1]; simp)
  have hno : ∀ u, lends k u ≠ some t := fun u hu => by
    obtain ⟨hinh, m, -, ho⟩ := hs.lends_iff.mp hu
    exact hg.2.2 hinh m ho
  refine h.step fun u _ => ?_
  have hsub := fun v => Atom.lends_sub (t := v) (u := u) _ hs hg (show ¬ Atom.Relinks (.create t p dynamic) from id)
  by_cases hu : u = t
  · subst hu
    refine Or.inr (Donation.inherited_le_iff.mpr ⟨?_, fun v hv => absurd (hsub v hv) (hno v)⟩)
    rw [ownPriority, priority, htasks, Function.update_self]
    exact le_refl _
  · refine Or.inl ⟨?_, ?_, fun v hv => ⟨hsub v hv, ?_⟩⟩
    · rw [ownPriority, ownPriority, htasks, Function.update_of_ne hu]
    · rw [priority, priority, htasks, Function.update_of_ne hu]
    · have hvt : v ≠ t := by
        rintro rfl
        rw [hsub v hv] at hn
        cases hn
      rw [priority, priority, htasks, Function.update_of_ne hvt]

/-- Aging is for those who are ready, and they lend to nobody. -/
theorem age_covered (hs : Sound k) (hg : (Atom.age).guard k) (h : Covered idle k) :
    Covered idle ((Atom.age).apply k) := by
  have hage : ∀ u, ((Atom.age).apply k).tasks u = if u ∈ k.links .ready then
      { k.tasks u with priority := aged c (k.priority k.currentTask) (k.priority u) } else k.tasks u := by
    intro u
    rw [Atom.apply, age_fold _ _ _ (hs.linked.1.separate.nodup _)]
  refine h.step fun u _ => Or.inl ⟨?_, ?_, fun v hv => ?_⟩
  · rw [ownPriority, ownPriority, hage]
    split <;> rfl
  · rw [priority, priority, hage]
    split
    · exact (aged_bound _ _).1
    · exact le_rfl
  · have hl := Atom.lends_sub _ hs hg (show ¬ Atom.Relinks (Atom.age (c := c)) from id) hv
    refine ⟨hl, ?_⟩
    have hready : v ∉ k.links .ready := fun hm => by
      rw [hs.lends_none (by rw [stateOf, ((hs.linked.2 v).ready.mp hm)]; simp)] at hl
      cases hl
    rw [priority, priority, hage, if_neg hready]

/-- A mutex is passed on to the most important one of those who wait for it. -/
theorem release_covered (hs : Sound k) (t m : Place c) (h : Covered idle k) :
    Covered idle ((Atom.release t m).apply k) := by
  have hr := release_rank k t m
  refine h.step fun u hi => ?_
  by_cases hu : (k.links (.wait (.mutex m))).head? = some u
  · refine Or.inr (Donation.inherited_le_iff.mpr ⟨?_, fun v hv => ?_⟩)
    · rw [hr.own, hr.priority]
      exact h.base u hi
    · rw [hr.priority]
      rw [hs.release_lends] at hv
      split at hv
      case isTrue hm =>
        exact (hs.linked.1.wait (.mutex m)).head_max u hu v (hs.waitsFor_mem.mp hm)
      case isFalse => exact h.lender hi hv
  · refine Or.inl ⟨(hr u).2.le, (hr u).1.ge, fun v hv => ⟨?_, (hr v).1.le⟩⟩
    rw [hs.release_lends] at hv
    split at hv
    · split at hv
      · cases hv
      · split at hv
        · exact absurd hv hu
        · cases hv
    · exact hv

/-- Steps which may leave somebody short, if they are taken on their own. -/
def Atom.Risks : Atom c → Prop
  | .start | .requeue _ _ | .setBase _ _ | .sleep _ (some (.mutex _)) _ => True
  | _ => False

theorem Atom.covered (a : Atom c) (hs : Sound k) (hg : a.guard k) (ha : ¬ a.Risks) (h : Covered idle k) :
    Covered idle (a.apply k) := by
  by_cases hr : a.Ranks
  · cases a with
    | settle => exact settle_covered hs hg h
    | create t p dynamic => exact create_covered hs t p dynamic hg h
    | age => exact age_covered hs hg h
    | start | requeue | setBase => exact absurd trivial ha
    | _ => exact absurd hr id
  · by_cases hl : a.Relinks
    · cases a with
      | release t m => exact release_covered hs t m h
      | sleep call list timeout =>
        cases list with
        | none => exact absurd hl id
        | some w => cases w with
          | mutex m => exact absurd trivial ha
          | _ => exact absurd hl id
      | _ => exact absurd hl id
    · exact h.same_rank (a.same_rank hs hg hr) fun t u => a.lends_sub hs hg hl

/-! ### Moves -/

theorem urge_lends (k : ListKernel c) (owner : Place c) : lends (urge k owner) = lends k := by
  have hq : SameTasks k (k.osPriorityRaise owner (k.priority k.currentTask)) :=
    raiseLoop_same _ k owner _
  rw [← hq.lends]
  funext u
  unfold lends
  have hw : waitsFor (urge k owner) u =
      waitsFor (k.osPriorityRaise owner (k.priority k.currentTask)) u := by
    unfold urge
    dsimp only
    refine update_waitsFor rfl ?_ u
    exact Or.inl rfl
  rw [hw]
  rfl

theorem urge_own (k : ListKernel c) (owner : Place c) : ownPriority (urge k owner) = ownPriority k :=
  funext fun u => (urge_rank k owner u).1

theorem urge_priorities (hs : Sound k) (owner : Place c) : (urge k owner).priority =
    Donation.raise (lends k) (c.places + 1) k.priority owner (k.priority k.currentTask) := by
  rw [← hs.raise_priorities]
  exact funext fun u => (urge_rank k owner u).2

theorem urge_covered (hs : Sound k) (owner : Place c) (h : Covered idle k) :
    Covered idle (urge k owner) := by
  intro t ht
  rw [inherits, urge_lends, urge_own, urge_priorities hs]
  exact Donation.raise_covers (fun u => u = osIdleTask → idle) _ _ (below_places _ _)
    (fun u hu _ => h u hu) (fun ho => (h owner ho).trans (le_max_left ..)) t ht

/-- The owner of the mutex is set back to what it inherits. -/
theorem giveUp_priorities (hs : Sound k) {m owner : Place c} (ho : k.owner m = some owner) :
    (giveUp k m).priority = Donation.lowered (lends k) (ownPriority k) k.priority owner := by
  unfold giveUp Donation.lowered
  rw [ho]
  dsimp only
  rw [hs.inherited_eq]
  split
  · exact requeue_priorities ..
  · rfl

theorem giveUp_own (k : ListKernel c) (m : Place c) : ownPriority (giveUp k m) = ownPriority k :=
  funext fun u => (giveUp_rank k m u).1

theorem giveUp_covered (hs : Sound k) (m : Place c) (h : Covered idle k) : Covered idle (giveUp k m) := by
  cases ho : k.owner m with
  | none =>
    rw [giveUp, ho]
    exact h
  | some owner =>
    intro t ht
    rw [inherits, (giveUp_same k m).lends, giveUp_own, giveUp_priorities hs ho]
    exact Donation.lowered_covers (h t ht)

/-- The task has a priority of its own which is new, what it inherits has not been looked at yet. -/
def rebased (k : ListKernel c) (t : Place c) (p : ℕ) : ListKernel c :=
  k.setTask t { k.tasks t with basePriority := p }

theorem rebased_same (k : ListKernel c) (t : Place c) (p : ℕ) : SameTasks k (rebased k t p) :=
  setTask_same k t (k.tasks t).priority p

theorem rebased_priority (k : ListKernel c) (t : Place c) (p : ℕ) :
    (rebased k t p).priority = k.priority := by
  funext u
  exact update_priority k.tasks t u _ rfl

theorem rebased_own (k : ListKernel c) (t : Place c) (p : ℕ) :
    ownPriority (rebased k t p) = Function.update (ownPriority k) t p := by
  funext u
  unfold ownPriority rebased setTask
  by_cases hu : u = t
  · subst hu
    simp
  · simp [hu]

theorem rebased_inherits (t u : Place c) (p : ℕ) (hu : u ≠ t) :
    inherits (rebased k t p) u = inherits k u := by
  rw [inherits, (rebased_same k t p).lends, rebased_priority, rebased_own]
  exact Donation.inherited_congr (Function.update_of_ne hu ..) (fun _ => Iff.rfl) fun _ _ => rfl

theorem repriority_own (k : ListKernel c) (t : Place c) (p : ℕ) :
    ownPriority (repriority k t p) = ownPriority (rebased k t p) := by
  funext u
  show ((if _ then _ else if _ then _ else (rebased k t p)).tasks u).basePriority = _
  split
  · exact (raise_rank _ t u _).1
  · split
    · exact requeue_base _ _ _ _
    · rfl

theorem repriority_lends (k : ListKernel c) (t : Place c) (p : ℕ) :
    lends (repriority k t p) = lends k := by
  rw [← (rebased_same k t p).lends]
  show lends (if _ then _ else if _ then _ else (rebased k t p)) = _
  split
  · exact SameTasks.lends (raiseLoop_same _ _ t _)
  · split
    · exact SameTasks.lends (requeue_same _ t _)
    · rfl

/-- The chain is raised if the task inherits more than it has, else only the task is lowered. -/
theorem repriority_priorities (hs : Sound k) (t : Place c) (p : ℕ) (hlo : 1 ≤ p) (hhi : p ≤ 254) :
    (repriority k t p).priority =
      if k.priority t < inherits (rebased k t p) t then
        Donation.raise (lends k) (c.places + 1) k.priority t (inherits (rebased k t p) t)
      else Donation.lowered (lends k) (ownPriority (rebased k t p)) k.priority t := by
  have hsr : Sound (rebased k t p) := setBase_sound hs t p hlo hhi
  have hsame := rebased_same k t p
  have hp := rebased_priority k t p
  show (if (rebased k t p).osInheritedPriority t > (rebased k t p).priority t then
      (rebased k t p).osPriorityRaise t ((rebased k t p).osInheritedPriority t)
    else if (rebased k t p).osInheritedPriority t < (rebased k t p).priority t then
      ((rebased k t p).setPriority t ((rebased k t p).osInheritedPriority t)).osRequeue t
    else rebased k t p).priority = _
  rw [hsr.inherited_eq, hp]
  split
  case isTrue => rw [hsr.raise_priorities, hsame.lends, hp]
  case isFalse =>
    unfold Donation.lowered
    rw [inherits, hsame.lends, hp]
    split
    · rw [requeue_priorities, hp]
    · exact hp

theorem repriority_covered (hs : Sound k) (t : Place c) (p : ℕ) (hlo : 1 ≤ p) (hhi : p ≤ 254)
    (h : Covered idle k) : Covered idle (repriority k t p) := by
  have helse : ∀ u, (u = osIdleTask → idle) → u ≠ t → inherits (rebased k t p) u ≤ k.priority u := by
    intro u hi hu
    rw [rebased_inherits t u p hu]
    exact h u hi
  have hinh : inherits (rebased k t p) =
      Donation.inherited (lends k) (ownPriority (rebased k t p)) k.priority := by
    unfold inherits
    rw [(rebased_same k t p).lends, rebased_priority]
  intro u hi
  rw [inherits, repriority_lends, repriority_own, repriority_priorities hs t p hlo hhi]
  rw [hinh] at helse ⊢
  split
  case isTrue hlt =>
    exact Donation.raise_covers (fun u => u = osIdleTask → idle) _ _ (below_places _ _) helse
      (fun _ => le_max_right ..) u hi
  case isFalse hge =>
    refine Donation.lowered_covers ?_
    by_cases hu : u = t
    · subst hu
      exact not_lt.mp hge
    · exact helse u hi hu

/-- The task which is about to wait has no more than the owner it has raised. -/
theorem urge_bound (hs : Sound k) (owner : Place c) :
    (urge k owner).priority k.currentTask ≤ (urge k owner).priority owner := by
  rw [urge_priorities hs]
  refine (Donation.raise_le ..).trans ?_
  rw [max_self]
  exact Donation.raise_start _ _ (below_places _ _)

/-- Settling is an unconditional recomputation for a task which is covered. -/
theorem settle_cases (hs : Sound k) (t : Place c) (h : inherits k t ≤ k.priority t) :
    k.osSettle t = k.setPriority t (inherits k t) ∧ c.aging = true ∨
      k.osSettle t = k ∧ c.aging = false := by
  unfold osSettle
  split
  case isTrue ha =>
    refine Or.inl ⟨?_, ha⟩
    rw [hs.inherited_eq]
    split
    case isTrue => rfl
    case isFalse heq =>
      have hb : ownPriority k t = k.priority t := (not_not.mp heq).symm
      have he : inherits k t = k.priority t :=
        le_antisymm h (hb ▸ Donation.base_le (lends k) (ownPriority k) k.priority t)
      rw [he]
      simp [setPriority, setTask, priority]
  case isFalse ha => exact Or.inr ⟨rfl, by simpa using ha⟩

theorem settled_covered (hs : Sound k) (hr : k.stateOf k.currentTask = OS_TASK_RUNNING)
    (h : Covered idle k) : Covered idle (k.osSettle k.currentTask) := by
  unfold osSettle
  split
  · split
    · exact settle_covered hs hr h
    · exact h
  · exact h

/-- A task which is not more important than the owner of the mutex may fall asleep for it. -/
theorem sleep_covered (hs : Sound k) (call : Call c) (m owner : Place c) (timeout : OsTick c)
    (hr : k.stateOf k.currentTask = OS_TASK_RUNNING) (ho : k.owner m = some owner)
    (hle : k.priority k.currentTask ≤ k.priority owner) (h : Covered idle k) :
    Covered idle (k.sleep call (some (.mutex m)) timeout) := by
  have hrank := sleep_rank k call (some (.mutex m)) timeout
  have hl := sleep_lends k call m timeout
  rw [ho] at hl
  intro u hi
  rw [inherits, hrank.priority, hrank.own, hl]
  have hn := hs.current_lends hr
  split
  case isTrue =>
    by_cases hu : u = owner
    · subst hu
      rw [Donation.inherited_joined _ _ hn]
      exact max_le (h u hi) hle
    · rw [Donation.inherited_elsewhere _ _ hn hu]
      exact h u hi
  case isFalse =>
    rw [← hn, Function.update_eq_self]
    exact h u hi

theorem lock_covered (hs : Sound k) (call : Call c) (m owner : Place c) (timeout : OsTick c)
    (hg : (Move.lock call m owner timeout).guard k) (h : Covered idle k) :
    Covered idle ((Move.lock call m owner timeout).apply k) := by
  obtain ⟨hinh, hi, hst, -, ho, -⟩ := hg
  obtain ⟨hcur, hown, -, -, hstate⟩ := urge_same k owner
  have hk : k.stateOf k.currentTask = OS_TASK_RUNNING := by rw [stateOf, hst]; simp
  have hsu : Sound (urge k owner) :=
    (urge_run (P := fun _ => True) (fun _ _ => trivial) trivial hs owner hinh hk
      (hs.raise_bound ho)).sound hs
  have hcu := urge_covered hs owner h
  have hru : (urge k owner).stateOf (urge k owner).currentTask = OS_TASK_RUNNING := by
    rw [stateOf, hcur, hstate, mutex_kind]
    exact hk
  have hb := urge_bound hs owner
  rw [← hcur] at hb
  rw [← hown] at ho
  rw [← hcur] at hi
  show Covered idle (((urge k owner).osSettle (urge k owner).currentTask).sleep call (some (.mutex m)) timeout)
  generalize urge k owner = s at hsu hcu hru hb ho hi ⊢
  have hsame := settle_same s s.currentTask
  refine sleep_covered (Atoms.sound (settle_run (P := fun _ => True) trivial hru) hsu) call m owner
    timeout ?_ (hsame.owner ▸ ho) ?_ (settled_covered hsu hru hcu)
  · rw [stateOf, hsame.current, hsame.state]
    exact hru
  · rw [hsame.current]
    have hc := hcu s.currentTask fun he => absurd he hi
    rcases settle_cases hsu s.currentTask hc with ⟨he, -⟩ | ⟨he, -⟩
    · rw [he, setPriority_priority, if_pos rfl, setPriority_priority]
      split
      · exact le_rfl
      · exact hc.trans hb
    · rw [he]
      exact hb

theorem lockIdle_covered (hs : Sound k) (m owner : Place c)
    (hg : (Move.lockIdle m owner).guard k) (h : Covered idle k) :
    Covered idle ((Move.lockIdle m owner).apply k) := by
  obtain ⟨hinh, -, hst, ho⟩ := hg
  obtain ⟨hcur, hown, -, -, hstate⟩ := urge_same k owner
  have hk : k.stateOf k.currentTask = OS_TASK_RUNNING := by rw [stateOf, hst]; simp
  have hsu : Sound (urge k owner) :=
    (urge_run (P := fun _ => True) (fun _ _ => trivial) trivial hs owner hinh hk
      (hs.raise_bound ho)).sound hs
  have hg : (Atom.unflag).guard (urge k owner) := by
    show (urge k owner).stateOf (urge k owner).currentTask = _
    rw [stateOf, hcur, hstate, mutex_kind]
    exact hk
  have hcu := Atom.covered .unflag hsu hg id (urge_covered hs owner h)
  have hsf := Atom.sound .unflag hsu hg
  exact giveUp_covered hsf m hcu

/-- `osRun` takes from the idle task only. -/
theorem start_covered (hs : Sound k) (hg : (Atom.start).guard k)
    (hi : idle → ∀ u, lends k u ≠ some osIdleTask) (h : Covered idle k) :
    Covered idle ((Atom.start).apply k) := by
  have hn : lends k osIdleTask = none := hs.lends_none (by rw [← hg.1, hg.2]; simp)
  have hsub := fun v u => Atom.lends_sub (t := v) (u := u) .start hs hg id
  have htasks : ∀ u, u ≠ osIdleTask → ((Atom.start).apply k).tasks u = k.tasks u :=
    fun u hu => Function.update_of_ne hu ..
  refine h.step fun u hu => ?_
  by_cases hu' : u = osIdleTask
  · subst hu'
    refine Or.inr (Donation.inherited_le_iff.mpr ⟨?_, fun v hv => absurd (hsub v _ hv) (hi (hu rfl) v)⟩)
    simp [ownPriority, priority, Atom.apply, setTask]
  · refine Or.inl ⟨?_, ?_, fun v hv => ⟨hsub v u hv, ?_⟩⟩
    · rw [ownPriority, ownPriority, htasks u hu']
    · rw [priority, priority, htasks u hu']
    · have hvi : v ≠ osIdleTask := by
        rintro rfl
        rw [hsub _ u hv] at hn
        cases hn
      rw [priority, priority, htasks v hvi]

/-- Whatever the kernel does at once, nobody is left short. -/
theorem Move.covered (mv : Move c) (hs : Sound k) (hg : mv.guard k)
    (hm : mv = .one .start → idle → ∀ u, lends k u ≠ some osIdleTask)
    (h : Covered idle k) : Covered idle (mv.apply k) := by
  have hatoms : (∀ a, mv.Uses a → ¬ a.Risks) → Covered idle (mv.apply k) := fun ha =>
    (mv.run hs hg).keeps hs (fun s a hs hg hu hc => a.covered hs hg (ha a hu) hc) h
  cases mv with
  | one a =>
    by_cases hst : a = .start
    · subst hst
      exact start_covered hs hg.2 (hm rfl) h
    · refine a.covered hs hg.2 (fun hr => ?_) h
      cases a with
      | start => exact hst rfl
      | requeue | setBase | sleep => exact absurd hg.1 id
      | _ => exact absurd hr id
  | giveUp m => exact giveUp_covered hs m h
  | repriority t p => exact repriority_covered hs t p hg.1 hg.2 h
  | block call list timeout =>
    obtain ⟨-, hst, -, -, hinh, -⟩ := hg
    have hk : k.stateOf k.currentTask = OS_TASK_RUNNING := by rw [stateOf, hst]; simp
    by_cases hl : ∃ m, list = some (.mutex m)
    · -- without inheritance
      obtain ⟨m, rfl⟩ := hl
      show Covered idle ((k.osSettle k.currentTask).sleep call (some (.mutex m)) timeout)
      refine (settled_covered hs hk h).same_rank (sleep_rank _ call _ timeout) fun t u hl => ?_
      exact absurd rfl (hinh (lends_inheritance hl) m)
    · refine hatoms fun a ha => ?_
      rcases ha with rfl | rfl
      · exact id
      · cases list with
        | none => exact id
        | some w => cases w with
          | mutex m => exact fun _ => hl ⟨m, rfl⟩
          | _ => exact id
  | lock call m owner timeout => exact lock_covered hs call m owner timeout hg h
  | lockIdle m owner => exact lockIdle_covered hs m owner hg h
  | unlock m =>
    refine hatoms fun a ha => ?_
    rcases ha with ⟨t, rfl⟩ | rfl
    · exact id
    · exact id
  | delete t =>
    refine hatoms fun a ha => ?_
    rcases ha with rfl | ⟨m, rfl⟩ | rfl
    · exact id
    · exact id
    · exact id
  | setEvent e flags =>
    refine hatoms fun a ha => ?_
    rcases ha with rfl | ⟨t, rfl⟩
    · exact id
    · exact id
  | tick =>
    refine hatoms fun a ha => ?_
    rcases ha with rfl | ⟨t, rfl⟩
    · exact id
    · exact id

/-! ### Runs -/

/-- Objects are initialised and tasks are created, the kernel is not called for anything else. -/
def Action.prepares : Action c → Bool
  | .call (.osTaskCreate _ _ _) | .call (.osMutexInit _) | .call (.osSemaphoreInit _ _ _)
  | .call (.osQueueInit _ _ _) | .call (.osEventInit _) => true
  | .call _ => false
  | _ => true

/-- That is all main() does before `osRun`. -/
def Prepares {S : Type → Type → Type} (k : Kernel c S) (a : Action c) : Prop :=
  k.started = false → a.prepares = true

instance {S : Type → Type → Type} (k : Kernel c S) (a : Action c) : Decidable (Prepares k a) :=
  inferInstanceAs (Decidable (_ → _))

/-- Nobody owns a mutex. -/
def Unowned (k : ListKernel c) : Prop := ∀ m, k.owner m = none

/-- Owners come from `osMutexTryLock` only. -/
theorem Move.unowned (mv : Move c) (hs : Sound k) (hg : mv.guard k) (hm : ∀ m, mv ≠ .one (.own m))
    (h : Unowned k) : Unowned (mv.apply k) := by
  refine (mv.run hs hg).keeps hs (fun s a hs hga hu hn => ?_) h
  have ho : s.owner = (a.apply s).owner := by
    refine (a.owner hs hga (fun m he => ?_) fun t m he => ?_).symm
    · subst he
      exact hm m (Move.uses_alone hu trivial)
    · subst he
      exact absurd hga.1 (by rw [hn m]; simp)
  intro m
  rw [← ho]
  exact hn m

/-- Once `osRun` has been called, it has been called for good. -/
theorem started_stays {a : Action c} (h : Rest k) (hs : k.step a = some k')
    (ht : k.started = true) : k'.started = true := by
  refine step_keeps (I := fun s => s.started = true) h hs (fun s x hs hg hi => ?_) ht
  by_cases hx : x = .start
  · subst hx
    rfl
  · rw [x.same_started hs hg hx]
    exact hi

/-- Nobody owns a mutex before `osRun`, and nobody is short of anything. -/
structure CoveredSoFar (k : ListKernel c) : Prop where
  unowned : k.started = false → Unowned k
  covered : Covered True k

theorem Unowned.lends (h : Unowned k) (hs : Sound k) (t u : Place c) : AvrOs.lends k t ≠ some u := by
  intro hl
  obtain ⟨-, m, -, ho⟩ := hs.lends_iff.mp hl
  rw [h m] at ho
  cases ho

/-- Nobody is short of anything in the middle of an action either. -/
theorem CoveredSoFar.moves {b : ListKernel c} {a : Action c} (h : CoveredSoFar b) (hr : Rest b)
    (hok : Prepares b a) (hrun : a = .run → b.started = false) (hm : Moves b a b k) :
    Covered True k ∧ (b.started = false → Unowned k) := by
  by_cases hst : b.started = false
  · have hlocks : ∀ s m, ¬ Allowed b a s (.one (.own m)) := by
      rintro s m (rfl | ⟨timeout, rfl⟩)
      · exact Bool.false_ne_true (hok hst)
      · exact Bool.false_ne_true (hok hst)
    obtain ⟨-, hu, hc⟩ := hm.invariant (I := fun s => Sound s ∧ Unowned s ∧ Covered True s)
      (fun s mv hg hi => ⟨mv.sound hi.1 hg.1,
        mv.unowned hi.1 hg.1 (fun m he => hlocks s m (he ▸ hg.2)) hi.2.1,
        mv.covered hi.1 hg.1 (fun _ _ u => hi.2.1.lends hi.1 u osIdleTask) hi.2.2⟩)
      ⟨hr.sound, h.unowned hst, h.covered⟩
    exact ⟨hc, fun _ => hu⟩
  · refine ⟨(hm.invariant (I := fun s => Sound s ∧ Covered True s) (fun s mv hg hi =>
      ⟨mv.sound hi.1 hg.1, mv.covered hi.1 hg.1 (fun he => ?_) hi.2⟩) ⟨hr.sound, h.covered⟩).2,
      fun hst' => absurd hst' hst⟩
    subst he
    exact absurd (hrun hg.2.1) hst

theorem run_started (hs : k.step .run = some k') : k.started = false := by
  simp only [Kernel.step] at hs
  split at hs
  case isTrue hc => exact hc.2.2
  case isFalse => cases hs

theorem CoveredSoFar.step {a : Action c} (h : CoveredSoFar k) (hr : Rest k) (hok : Prepares k a)
    (hs : k.step a = some k') : CoveredSoFar k' := by
  obtain ⟨hc, hu⟩ := h.moves hr hok (fun ha => run_started (ha ▸ hs))
    (step_moves hr.sound hr.running hr.noDead hs).1
  refine ⟨fun hst' => hu ?_, hc⟩
  by_contra hst
  rw [started_stays hr hs (by simpa using hst)] at hst'
  cases hst'

theorem init_covers (c : Config) (idle : Prop) : Covered idle (osInit c Lists) := fun t _ =>
  Donation.inherited_le_iff.mpr ⟨le_refl _, fun u hu =>
    absurd hu (Unowned.lends (fun _ => rfl) (init_sound c) u t)⟩

theorem covered_of_prepared (h : ReachableBy Prepares k) : CoveredSoFar k :=
  h.invariant ⟨fun _ _ => rfl, init_covers c True⟩ fun _ _ _ hr hi hok hs =>
    hi.step (rest_of_reachable hr) hok hs

/-- Whatever main() has done before `osRun`, nobody but the idle task is short of anything. -/
theorem covered_of_reachable {ok : ListKernel c → Action c → Prop} (h : ReachableBy ok k) :
    Covered False k := by
  refine h.invariant (init_covers c False) fun s a s' hr hi _ hs => ?_
  have hrest := rest_of_reachable hr
  have hm := (step_moves hrest.sound hrest.running hrest.noDead hs).1
  exact (hm.invariant (I := fun s => Sound s ∧ Covered False s) (fun s mv hg hi =>
    ⟨mv.sound hi.1 hg.1, mv.covered hi.1 hg.1 (fun _ hf => absurd hf id) hi.2⟩) ⟨hrest.sound, hi⟩).2

/-- Nobody has less than what is due to it: by its own priority, by those who wait for one of its
mutexes and by what `osSettle` would give it. -/
structure Backed (k : Kernel c Links) : Prop where
  base : ∀ t, (k.tasks t).basePriority ≤ k.priority t
  owner : ∀ m w, w ∈ k.list (.wait (.mutex m)) →
    ∃ owner, k.owner m = some owner ∧ k.priority w ≤ k.priority owner
  settle : ∀ t, c.aging = true → k.osSettle t = k.setPriority t (k.osInheritedPriority t)

theorem backed_of_sim {k : Kernel c Links} {l : ListKernel c} (h : Sim k l) (hl : Sound l)
    (hinh : c.mutexInheritance = true) (hc : Covered True l) : Backed k := by
  have hinherited : ∀ t, k.osInheritedPriority t = inherits l t := fun t => by
    rw [h.inherited, hl.inherited_eq]
  refine ⟨fun t => ?_, fun m w hw => ?_, fun t ha => ?_⟩
  · rw [h.priority, h.tasks]
    exact hc.base t fun _ => trivial
  · rw [h.list] at hw
    obtain ⟨owner, ho⟩ := Option.ne_none_iff_exists'.mp (hl.owned.waiter m w hw)
    refine ⟨owner, by rw [h.owner]; exact ho, ?_⟩
    rw [h.priority, h.priority]
    exact hc.lender (fun _ => trivial) (hl.lends_iff.mpr ⟨hinh, m, hw, ho⟩)
  · unfold osSettle
    rw [if_pos ha]
    split
    case isTrue => rfl
    case isFalse heq =>
      have hb : (k.tasks t).basePriority = (k.tasks t).priority := (not_not.mp heq).symm
      have he : k.osInheritedPriority t = (k.tasks t).priority := by
        refine le_antisymm ?_ (hb ▸ ?_)
        · rw [hinherited, h.tasks]
          exact hc t fun _ => trivial
        · rw [hinherited, h.tasks]
          exact Donation.base_le (lends l) (ownPriority l) l.priority t
      rw [he]
      simp [setPriority, setTask]

/-- Owners of mutexes are never less important than anybody who waits, in whatever state. -/
theorem reachable_backed (hinh : c.mutexInheritance = true) (k : Kernel c Links)
    (h : ReachableBy Prepares k) : Backed k := by
  have hsim : ∃ l : ListKernel c, ReachableBy Prepares l ∧ Sim k l :=
    reachable_sim (fun _ l _ hs hok hst => hok (by rw [hs.started]; exact hst)) h
  obtain ⟨l, hl, hs⟩ := hsim
  exact backed_of_sim hs (rest_of_reachable hl).sound hinh (covered_of_prepared hl).covered

/-- A chain of two owners, which are raised by a third task. -/
def chainRaised : List (Action (Config.default 3)) :=
  [.call (.osTaskCreate 1 3 false), .resume, .run, .call (.osMutexLock 0), .resume,
    .call (.osTaskCreate 2 5 false), .call (.osMutexLock 1), .resume, .call (.osMutexLock 0),
    .resume, .call (.osTaskCreate 3 7 false), .call (.osMutexLock 1)]

theorem reachable_backed_taken : ∃ k, steps (only step fun k a => decide (Prepares k a))
    (osInit (Config.default 3) Links) chainRaised = some k ∧ Backed k := by
  obtain ⟨k, hk⟩ := Option.isSome_iff_exists.mp (show (steps
    (only step fun k a => decide (Prepares k a)) (osInit (Config.default 3) Links)
      chainRaised).isSome = true by decide +kernel)
  exact ⟨k, hk, reachable_backed rfl k (Reach.only_reach (fun _ _ => of_decide_eq_true) _ .init hk)⟩

end AvrOs
