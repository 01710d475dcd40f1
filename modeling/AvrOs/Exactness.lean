import AvrOs.Coverage

/-!
# When inheritance is exact

Without aging, what a task has is what it inherits, as long as nobody who waits for a mutex is
taken away from it before its turn. Locking raises a whole chain, unlocking hands the right
waiters over; nothing else changes priorities.
-/

namespace AvrOs
open Intrusive Transition Kernel

variable {c : Config} {k k' : ListKernel c}

/-- The task has the priority it inherits, no more and no less. -/
def Exact {S : Type → Type → Type} [LinkStore S] (k : Kernel c S) (t : Place c) : Prop :=
  k.priority t = k.osInheritedPriority t

instance {S : Type → Type → Type} [LinkStore S] (k : Kernel c S) : DecidablePred (Exact k) :=
  fun _ => inferInstanceAs (Decidable (_ = _))

theorem Sound.exact_iff (h : Sound k) (t : Place c) : Exact k t ↔ k.priority t = inherits k t := by
  rw [Exact, h.inherited_eq]

/-! ### Steps which are nothing to priorities -/

/-- Priorities and who lends them to whom are the same. -/
structure SameLoans (k k' : ListKernel c) : Prop where
  priority : k'.priority = k.priority
  own : ownPriority k' = ownPriority k
  lends : lends k' = lends k

theorem SameLoans.refl (k : ListKernel c) : SameLoans k k := ⟨rfl, rfl, rfl⟩

theorem SameLoans.trans {k₁ : ListKernel c} (h : SameLoans k k₁) (h' : SameLoans k₁ k') :
    SameLoans k k' :=
  ⟨h'.priority.trans h.priority, h'.own.trans h.own, h'.lends.trans h.lends⟩

theorem SameLoans.inherits (h : SameLoans k k') : inherits k' = inherits k := by
  funext t
  rw [AvrOs.inherits, h.lends, h.own, h.priority]

theorem Atom.same_loans (a : Atom c) (hs : Sound k) (hg : a.guard k) (hr : ¬ a.Ranks)
    (hl : ¬ a.Relinks) (hw : ∀ u, a.Withdraws u → AvrOs.waitsFor k u = none) :
    SameLoans k (a.apply k) := by
  have hrank := a.same_rank hs hg hr
  refine ⟨hrank.priority, hrank.own, funext fun u => ?_⟩
  by_cases hu : a.Withdraws u
  · rw [a.withdrawn_lends hs hu, AvrOs.lends, hw u hu]
    split <;> rfl
  · exact a.lends hs hg hl hu

/-- Nobody is settled without aging. -/
theorem settle_off (ha : c.aging = false) (k : ListKernel c) (t : Place c) : k.osSettle t = k := by
  unfold osSettle
  rw [if_neg (by rw [ha]; simp)]

/-! ### A mutex is passed on -/

/-- The first one of those who wait for the mutex inherits from the others from there on. -/
theorem Sound.release_inherits (hs : Sound k) {t m u : Place c} (ho : k.owner m = some t)
    (hu : u ≠ t) (n : ℕ) : inherits ((Atom.release t m).apply k) u ≤ n ↔ inherits k u ≤ n ∧
      (c.mutexInheritance = true → (k.links (.wait (.mutex m))).head? = some u →
        ∀ v ∈ (k.links (.wait (.mutex m))).tail, k.priority v ≤ n) := by
  have hr := release_rank k t m
  have hnd := hs.linked.1.separate.nodup (.wait (.mutex m))
  have hto : ∀ v, waitsFor k v = some m → lends k v ≠ some u := by
    intro v hm hl
    obtain ⟨-, m', hv, ho'⟩ := hs.lends_iff.mp hl
    rw [hs.waitsFor_mem.mpr hv] at hm
    rw [Option.some.inj hm, ho] at ho'
    exact hu (Option.some.inj ho').symm
  rw [inherits, inherits, Donation.inherited_le_iff, Donation.inherited_le_iff, hr.priority, hr.own]
  constructor
  · rintro ⟨hb, hv⟩
    refine ⟨⟨hb, fun v hl => hv v ?_⟩, fun hinh hh v hm => hv v ?_⟩
    · rw [hs.release_lends, if_neg fun hm => hto v hm hl]
      exact hl
    · have hvm : v ∈ k.links (.wait (.mutex m)) := List.mem_of_mem_tail hm
      have hne : v ≠ u := by
        rintro rfl
        obtain ⟨as, he⟩ := List.head?_eq_some_iff.mp hh
        rw [he] at hnd hm
        exact (List.nodup_cons.mp hnd).1 hm
      rw [hs.release_lends, if_pos (hs.waitsFor_mem.mpr hvm), hh,
        if_neg (fun he => hne (Option.some.inj he).symm), if_pos hinh]
  · rintro ⟨⟨hb, hv⟩, hrest⟩
    refine ⟨hb, fun v hl => ?_⟩
    rw [hs.release_lends] at hl
    split at hl
    case isTrue hm =>
      split at hl
      · cases hl
      · rename_i hne
        split at hl
        case isTrue hinh =>
          obtain ⟨as, he⟩ := List.head?_eq_some_iff.mp hl
          refine hrest hinh hl v ?_
          have hvm := hs.waitsFor_mem.mp hm
          rw [he] at hvm hne ⊢
          exact (List.mem_cons.mp hvm).resolve_left fun h => hne (by rw [h]; rfl)
        case isFalse => cases hl
    case isFalse => exact hv v hl

/-- What the new owner inherits from those behind it is not above its own priority. -/
theorem release_exact (hs : Sound k) {t m u : Place c} (ho : k.owner m = some t) (hu : u ≠ t)
    (h : k.priority u = inherits k u) : ((Atom.release t m).apply k).priority u =
      inherits ((Atom.release t m).apply k) u := by
  rw [(release_rank k t m).priority]
  apply le_antisymm
  · rw [h]
    exact ((hs.release_inherits ho hu _).mp le_rfl).1
  · refine (hs.release_inherits ho hu _).mpr ⟨h.ge, fun _ hh v hm => ?_⟩
    exact (hs.linked.1.wait (.mutex m)).head_max u hh v (List.mem_of_mem_tail hm)

/-! ### Everybody is exact -/

/-- Every live task has the priority it inherits. -/
def AllExact (k : ListKernel c) : Prop :=
  ∀ t, k.stateOf t ≠ OS_TASK_DEAD → k.priority t = inherits k t

theorem AllExact.same (h : AllExact k) (hl : SameLoans k k')
    (hd : ∀ t, k'.stateOf t ≠ OS_TASK_DEAD → k.stateOf t ≠ OS_TASK_DEAD) : AllExact k' := by
  intro t ht
  rw [hl.priority, hl.inherits]
  exact h t (hd t ht)

/-- Owners are live, so priorities do not fall from a waiter to an owner. -/
theorem AllExact.lender (h : AllExact k) (hs : Sound k) (hn : NoDead k) {t u : Place c}
    (hl : lends k t = some u) : k.priority t ≤ k.priority u := by
  obtain ⟨hinh, m, -, ho⟩ := hs.lends_iff.mp hl
  rw [h u (hn hinh m u ho)]
  exact Donation.waiter_le (ownPriority k) k.priority hl

/-- Owners on a chain are live. -/
theorem reached_live (hs : Sound k) (hn : NoDead k) {t o : Place c} (ho : k.stateOf o ≠ OS_TASK_DEAD)
    (h : Donation.Reaches (lends k) o t) : k.stateOf t ≠ OS_TASK_DEAD := by
  rcases h.cases_tail with rfl | ⟨u, -, hut⟩
  · exact ho
  · obtain ⟨hinh, m, -, howner⟩ := hs.lends_iff.mp hut
    exact hn hinh m t howner

/-- Nobody comes to life but by being created. -/
theorem Atom.live (a : Atom c) (hs : Sound k) (hg : a.guard k) (hc : ∀ t p d, a ≠ .create t p d)
    {u : Place c} (hu : (a.apply k).stateOf u ≠ OS_TASK_DEAD) : k.stateOf u ≠ OS_TASK_DEAD := by
  by_cases hk : ∃ t, a = .kill t
  · obtain ⟨t, rfl⟩ := hk
    by_cases hut : u = t
    · rw [hut]
      exact hg.2
    · rwa [stateOf, kill_tasks hs.linked, Function.update_of_ne hut] at hu
  · rwa [Ne, a.dead_iff hs hg (fun t he => hk ⟨t, he⟩) hc] at hu

theorem Move.live (mv : Move c) (hs : Sound k) (hg : mv.guard k)
    (hc : ∀ t p d, mv ≠ .one (.create t p d)) {t : Place c}
    (ht : (mv.apply k).stateOf t ≠ OS_TASK_DEAD) : k.stateOf t ≠ OS_TASK_DEAD := by
  refine (mv.run hs hg).keeps (I := fun s => s.stateOf t ≠ OS_TASK_DEAD → k.stateOf t ≠ OS_TASK_DEAD)
    hs (fun s a hss hga hu hi hlive => hi (a.live hss hga ?_ hlive)) id ht
  rintro u p d rfl
  cases mv with
  | one a =>
    have ha : Atom.create u p d = a := hu
    exact hc u p d (by rw [ha])
  | _ => simp [Uses] at hu

theorem Atom.allExact (a : Atom c) (hs : Sound k) (hg : a.guard k) (hr : ¬ a.Ranks)
    (hl : ¬ a.Relinks) (hw : ∀ u, a.Withdraws u → AvrOs.waitsFor k u = none) (h : AllExact k) :
    AllExact (a.apply k) := by
  refine h.same (a.same_loans hs hg hr hl hw) fun t => a.live hs hg ?_
  rintro u p d rfl
  exact hr trivial

/-- A new task has its own priority, and nobody waits for it. -/
theorem create_exact (hs : Sound k) (t : Place c) (p : ℕ) (dynamic : Bool)
    (hg : (Atom.create t p dynamic).guard k) (h : AllExact k) :
    AllExact ((Atom.create t p dynamic).apply k) := by
  have htasks := create_tasks k t p dynamic
  have hn : lends k t = none := hs.lends_none (by rw [hg.1]; simp)
  have hl : lends ((Atom.create t p dynamic).apply k) = lends k :=
    funext fun u => Atom.lends _ hs hg id id
  intro u hu
  by_cases hut : u = t
  · subst hut
    have hno : ∀ v, lends k v ≠ some u := fun v hv => by
      obtain ⟨hinh, m, -, ho⟩ := hs.lends_iff.mp hv
      exact hg.2.2 hinh m ho
    apply le_antisymm
    · refine le_trans (le_of_eq ?_) (Donation.base_le _ _ _ u)
      rw [ownPriority, priority, htasks, Function.update_self]
      rfl
    · refine Donation.inherited_le_iff.mpr ⟨le_of_eq ?_, fun v hv => absurd (hl ▸ hv) (hno v)⟩
      rw [ownPriority, priority, htasks, Function.update_self]
      rfl
  · have hsame : ((Atom.create t p dynamic).apply k).tasks u = k.tasks u := by
      rw [htasks, Function.update_of_ne hut]
    rw [stateOf, hsame] at hu
    rw [priority, hsame, inherits, hl]
    refine (h u hu).trans (Donation.inherited_congr ?_ (fun _ => Iff.rfl) fun v hv => ?_).symm
    · rw [ownPriority, hsame, ownPriority]
    · have hvt : v ≠ t := by
        rintro rfl
        rw [hn] at hv
        cases hv
      rw [priority, htasks, Function.update_of_ne hvt, priority]

/-- `osRun` does not take anything from the idle task which it inherits. -/
theorem start_exact (hs : Sound k) (hg : (Atom.start).guard k)
    (hi : ∀ u, lends k u ≠ some osIdleTask) (h : AllExact k) : AllExact ((Atom.start).apply k) := by
  have hn : lends k osIdleTask = none := hs.lends_none (by rw [← hg.1, hg.2]; simp)
  have hl : lends ((Atom.start).apply k) = lends k := funext fun u => Atom.lends .start hs hg id id
  have htasks : ∀ u, u ≠ osIdleTask → ((Atom.start).apply k).tasks u = k.tasks u :=
    fun u hu => Function.update_of_ne hu ..
  intro u hu
  by_cases hui : u = osIdleTask
  · subst hui
    apply le_antisymm
    · refine le_trans (le_of_eq ?_) (Donation.base_le _ _ _ _)
      simp [ownPriority, priority, Atom.apply, setTask]
    · refine Donation.inherited_le_iff.mpr ⟨?_, fun v hv => absurd (hl ▸ hv) (hi v)⟩
      simp [ownPriority, priority, Atom.apply, setTask]
  · rw [stateOf, htasks u hui] at hu
    rw [priority, htasks u hui, inherits, hl]
    refine (h u hu).trans (Donation.inherited_congr ?_ (fun _ => Iff.rfl) fun v hv => ?_).symm
    · rw [ownPriority, htasks u hui, ownPriority]
    · have hvi : v ≠ osIdleTask := by
        rintro rfl
        rw [hn] at hv
        cases hv
      rw [priority, htasks v hvi, priority]

/-! ### Locking -/

/-- The chain of owners the current task is about to raise. -/
theorem AllExact.rising (h : AllExact k) (hs : Sound k) (hn : NoDead k) (t : Place c) : Rising k t :=
  fun _ _ _ hl => h.lender hs hn hl

theorem urge_raised (hs : Sound k) (owner : Place c) (hr : Rising k owner) : (urge k owner).priority =
    Donation.raised (lends k) k.priority owner (k.priority k.currentTask) := by
  rw [← hs.raised_priorities owner _ hr]
  exact funext fun u => (urge_rank k owner u).2

theorem urge_state (k : ListKernel c) (owner t : Place c) :
    (urge k owner).stateOf t = k.stateOf t := by
  have hq : SameTasks k (k.osPriorityRaise owner (k.priority k.currentTask)) :=
    raiseLoop_same _ k owner _
  have hst := hq.state t
  unfold urge
  dsimp only
  by_cases ht : t = k.currentTask
  · subst ht
    rw [stateOf, setState, setTask, hq.current]
    dsimp only
    rw [Function.update_self, mutex_kind, hst, stateOf]
  · rw [stateOf, setState, setTask]
    dsimp only
    rw [Function.update_of_ne ht, hst, stateOf]

/-- The chain is raised, and the current task lends to the owner from there on. -/
theorem lock_loans (hs : Sound k) (ha : c.aging = false) (call : Call c) (m owner : Place c)
    (timeout : OsTick c) (hg : (Move.lock call m owner timeout).guard k) (hr : Rising k owner) :
    ((Move.lock call m owner timeout).apply k).priority =
        Donation.raised (lends k) k.priority owner (k.priority k.currentTask) ∧
      ownPriority ((Move.lock call m owner timeout).apply k) = ownPriority k ∧
      lends ((Move.lock call m owner timeout).apply k) =
        Function.update (lends k) k.currentTask (some owner) := by
  obtain ⟨hinh, -, -, -, ho, -⟩ := hg
  obtain ⟨hcur, hown, -, -, -⟩ := urge_same k owner
  have hrank := sleep_rank (urge k owner) call (some (.mutex m)) timeout
  have he : (Move.lock call m owner timeout).apply k =
      (urge k owner).sleep call (some (.mutex m)) timeout := by
    show ((urge k owner).osSettle (urge k owner).currentTask).sleep call (some (.mutex m)) timeout = _
    rw [settle_off ha]
  refine ⟨?_, ?_, ?_⟩
  · rw [he, hrank.priority, urge_raised hs owner hr]
  · rw [he, hrank.own, urge_own]
  · rw [he, sleep_lends, if_pos hinh, hown, ho, hcur, urge_lends]

theorem lock_exact (hs : Sound k) (hn : NoDead k) (ha : c.aging = false) (call : Call c)
    (m owner : Place c) (timeout : OsTick c) (hg : (Move.lock call m owner timeout).guard k)
    (h : AllExact k) : AllExact ((Move.lock call m owner timeout).apply k) := by
  obtain ⟨hp, hown, hlends⟩ := lock_loans hs ha call m owner timeout hg (h.rising hs hn owner)
  have hk : k.stateOf k.currentTask = OS_TASK_RUNNING := by
    rw [stateOf, hg.2.2.1]
    simp
  intro t ht
  rw [inherits, hp, hown, hlends]
  exact Donation.raised_lent (hs.current_lends hk) (h t (Move.live _ hs hg (by simp) ht))

/-- The idle task raises a chain and gives up at once: only the owner is set back. -/
theorem lockIdle_exact (hs : Sound k) (hn : NoDead k) (m owner : Place c)
    (hg : (Move.lockIdle m owner).guard k)
    (hb : ∀ t, lends k owner = some t → k.priority k.currentTask ≤ k.priority t)
    (h : AllExact k) : SameLoans k ((Move.lockIdle m owner).apply k) := by
  obtain ⟨hinh, -, hst, ho⟩ := hg
  obtain ⟨hcur, hown, -, -, hstate⟩ := urge_same k owner
  have hk : k.stateOf k.currentTask = OS_TASK_RUNNING := by rw [stateOf, hst]; simp
  have hsu : Sound (urge k owner) :=
    (urge_run (P := fun _ => True) (fun _ _ => trivial) trivial hs owner hinh hk
      (hs.raise_bound ho)).sound hs
  have hg : (Atom.unflag).guard (urge k owner) := by
    show (urge k owner).stateOf (urge k owner).currentTask = _
    rw [hcur, urge_state]
    exact hk
  have hun := Atom.same_loans .unflag hsu hg id id fun u hu => absurd hu id
  have hsf := Atom.sound .unflag hsu hg
  have hof : ((Atom.unflag).apply (urge k owner)).owner m = some owner := by
    rw [← ho, ← hown]
    rfl
  show SameLoans k (giveUp ((Atom.unflag).apply (urge k owner)) m)
  refine ⟨?_, ?_, ?_⟩
  · rw [giveUp_priorities hsf hof, hun.lends, hun.own, hun.priority, urge_lends, urge_own,
      urge_raised hs owner (h.rising hs hn owner)]
    exact Donation.lowered_raised (fun u v hl => h.lender hs hn hl) (h owner (hn hinh m owner ho)) hb
  · rw [giveUp_own, hun.own, urge_own]
  · rw [(giveUp_same _ m).lends, hun.lends, urge_lends]

/-! ### Unlocking and dying -/

theorem unlock_exact (hs : Sound k) (hinh : c.mutexInheritance = true) (m : Place c)
    (hg : (Move.unlock m).guard k) (h : AllExact k) : AllExact (unlock k m) := by
  obtain ⟨hk, hr⟩ := hg
  obtain ⟨hcur, htask⟩ := release_frame hs k.currentTask m k.currentTask (by rw [hk]; simp)
  have hsr := Atom.sound (.release k.currentTask m) hs hr
  have hlive := fun t => Atom.live (u := t) (.release k.currentTask m) hs hr (by simp)
  have hexact := fun t ht => release_exact (u := t) hs hr.1 ht
  have hks : ((Atom.release k.currentTask m).apply k).stateOf k.currentTask ≠ OS_TASK_BLOCKED := by
    rw [stateOf, htask, show (k.tasks k.currentTask).state &&& OS_TASK_STATE = OS_TASK_RUNNING from hk]
    simp
  unfold unlock
  rw [if_pos hinh]
  generalize (Atom.release k.currentTask m).apply k = s at hsr hlive hexact hks ⊢
  intro t ht
  rw [setPriority_inherits _ _ _ (hsr.lends_none hks), setPriority_priority]
  split
  case isTrue he => rw [he, hsr.inherited_eq]
  case isFalse hne =>
    have ht' : s.stateOf t ≠ OS_TASK_DEAD := by
      rwa [stateOf, (setPriority_same s _ _).state] at ht
    exact hexact t hne (h t (hlive t ht'))

/-- A task which waits for no mutex may die. -/
theorem delete_exact (hs : Sound k) (t : Place c) (hg : (Move.delete t).guard k)
    (hw : waitsFor k t = none) (h : AllExact k) : AllExact (delete k t) := by
  have hrun := delete_run hs t hg.1 hg.2
  have hkeep := hrun.keeps (I := fun s => waitsFor s t = none ∧ ∀ u, u ≠ t →
      s.stateOf u ≠ OS_TASK_DEAD → s.priority u = inherits s u) hs (fun s a hss hga hu hi => ?_)
    ⟨hw, fun u _ => h u⟩
  · intro u hu
    refine hkeep.2 u ?_ hu
    rintro rfl
    exact hu (delete_kind hs u hg.1 hg.2)
  · have hlive : ∀ u, (a.apply s).stateOf u ≠ OS_TASK_DEAD → s.stateOf u ≠ OS_TASK_DEAD := by
      intro u
      refine a.live hss hga ?_
      rintro v p d rfl
      simp [Move.Uses] at hu
    rcases hu with rfl | ⟨m, rfl⟩ | rfl
    · have hl := Atom.same_loans (.kill t) hss hga id id fun u hu => (show t = u from hu) ▸ hi.1
      refine ⟨Atom.withdrawn _ hss rfl, fun u hut hu => ?_⟩
      rw [hl.priority, hl.inherits]
      exact hi.2 u hut (hlive u hu)
    · refine ⟨?_, fun u hut hu => release_exact hss hga.1 hut (hi.2 u hut (hlive u hu))⟩
      refine Option.eq_none_iff_forall_ne_some.mpr fun m' hm' => ?_
      have hs' := Atom.sound (.release t m) hss hga
      have hsub := Atom.wait_sublist (.release t m) hss hga (by simp) (by simp) (.mutex m')
      have := hss.waitsFor_mem.mpr (hsub.subset (hs'.waitsFor_mem.mp hm'))
      rw [hi.1] at this
      cases this
    · exact ⟨hi.1, fun u hut hu => hi.2 u hut hu⟩

/-! ### A new priority -/

theorem rebased_inherited (k : ListKernel c) (t : Place c) (p : ℕ) : inherits (rebased k t p) =
    Donation.inherited (lends k) (ownPriority (rebased k t p)) k.priority := by
  unfold inherits
  rw [(rebased_same k t p).lends, rebased_priority]

/-- Nobody else has another priority if the task lends to nobody. -/
theorem repriority_unlent (hs : Sound k) (t : Place c) (p : ℕ) (hlo : 1 ≤ p) (hhi : p ≤ 254)
    (hn : lends k t = none) :
    (repriority k t p).priority = Function.update k.priority t (inherits (rebased k t p) t) := by
  rw [repriority_priorities hs t p hlo hhi]
  unfold Donation.raise Donation.lowered
  rw [rebased_inherited]
  split
  · rw [hn]
  · split
    · rfl
    · rw [show Donation.inherited (lends k) (ownPriority (rebased k t p)) k.priority t =
        k.priority t by omega, Function.update_eq_self]

/-- A task which waits for no mutex may have a new priority. -/
theorem repriority_exact (hs : Sound k) (t : Place c) (p : ℕ) (hlo : 1 ≤ p) (hhi : p ≤ 254)
    (hw : waitsFor k t = none) (h : AllExact k) : AllExact (repriority k t p) := by
  have hn : lends k t = none := by
    rw [lends, hw]
    split <;> rfl
  have hlive : ∀ u, (repriority k t p).stateOf u ≠ OS_TASK_DEAD → k.stateOf u ≠ OS_TASK_DEAD := by
    intro u hu
    rwa [stateOf, (repriority_same k t p).state] at hu
  have helse : ∀ u, u ≠ t → k.stateOf u ≠ OS_TASK_DEAD →
      k.priority u = inherits (rebased k t p) u := fun u hut hu => by
    rw [rebased_inherits t u p hut]
    exact h u hu
  have hinh := rebased_inherited k t p
  have hp := repriority_unlent hs t p hlo hhi hn
  intro u hu
  rw [inherits, repriority_lends, repriority_own, hp, Donation.inherited_unlent _ _ hn, ← hinh]
  by_cases hut : u = t
  · subst hut
    exact Function.update_self ..
  · rw [Function.update_of_ne hut]
    exact helse u hut (hlive u hu)

/-! ### Moves -/

/-- The tick takes nobody away who waits for a mutex, except for the waiter. -/
def MutexTimely (waiter : Option (Place c)) (k : ListKernel c) (now : OsTick c) : Prop :=
  ∀ t, some t ≠ waiter → Timed (k.tasks t) → (k.tasks t).wake = now → waitsFor k t = none

theorem expire_timely {waiter : Option (Place c)} {now : OsTick c} (h : MutexTimely waiter k now)
    (t : Place c) : MutexTimely waiter ((Atom.expire t).apply k) now := by
  intro u hne hu hwake
  have htasks : ((Atom.expire t).apply k).tasks = _ := congrArg Kernel.tasks (osWake_eq k t false)
  rw [Atom.apply, wake_waitsFor]
  split
  · rfl
  · rename_i hut
    rw [htasks] at hu hwake
    dsimp only at hu hwake
    rw [Function.update_of_ne hut] at hu hwake
    exact h u hne hu hwake

/-- What waking up those keeps who wait for no mutex, the tick keeps. -/
theorem tick_keeps {waiter : Option (Place c)} {I : ListKernel c → Prop} (hs : Sound k)
    (hm : MutexTimely waiter k (k.ticks + 1)) (h : I ((Atom.tick).apply k))
    (hI : ∀ (s : ListKernel c) t, Sound s → (Atom.expire t).guard s →
      (some t ≠ waiter → waitsFor s t = none) → I s → I ((Atom.expire t).apply s)) :
    I k.osTickEnter := by
  have hst := Atom.sound .tick hs trivial
  have hrun : Atoms (fun a => ∃ t, a = .expire t) ((Atom.tick).apply k)
      (osTickExpire (c.places + 1) ((Atom.tick).apply k)) :=
    expire_atoms _ hst
  refine (hrun.keeps (I := fun s => s.ticks = k.ticks + 1 ∧ MutexTimely waiter s (k.ticks + 1) ∧ I s)
    hst (fun s a hss hga ha hi => ?_) ⟨rfl, hm, h⟩).2.2
  obtain ⟨t, rfl⟩ := ha
  obtain ⟨hticks, htimely, hi⟩ := hi
  refine ⟨?_, expire_timely htimely t, hI s t hss hga (fun hne => ?_) hi⟩
  · rw [Atom.apply, osWake_eq]
    exact hticks
  · exact htimely t hne hga.1 (hga.2.trans hticks)

theorem tick_exact (hs : Sound k) (hm : MutexTimely none k (k.ticks + 1)) (h : AllExact k) :
    AllExact k.osTickEnter := by
  refine tick_keeps hs hm h fun s t hss hga hw hi => ?_
  refine Atom.allExact (.expire t) hss hga id id (fun u hu => ?_) hi
  rw [← show t = u from hu]
  exact hw (by simp)

/-- Moves which withdraw nobody from a mutex, and raise nobody for good who is not to be. -/
def Move.Fair (k : ListKernel c) : Move c → Prop
  | .one .start => ∀ u, lends k u ≠ some osIdleTask
  | .one .age => False
  | .one (.park t) | .repriority t _ | .delete t => waitsFor k t = none
  | .lockIdle _ owner => ∀ t, lends k owner = some t → k.priority k.currentTask ≤ k.priority t
  | .tick => MutexTimely none k (k.ticks + 1)
  | _ => True

theorem settle_exact (hs : Sound k) (hr : k.stateOf k.currentTask = OS_TASK_RUNNING)
    (h : AllExact k) : AllExact ((Atom.settle).apply k) := by
  intro t ht
  show (k.setPriority k.currentTask (k.osInheritedPriority k.currentTask)).priority t =
    inherits (k.setPriority k.currentTask (k.osInheritedPriority k.currentTask)) t
  rw [setPriority_inherits _ _ _ (hs.current_lends hr), setPriority_priority]
  split
  case isTrue he => rw [he, hs.inherited_eq]
  case isFalse hne =>
    refine h t ?_
    rwa [stateOf, Atom.apply, (setPriority_same k _ _).state] at ht

theorem Move.allExact (mv : Move c) (hs : Sound k) (hn : NoDead k) (hinh : c.mutexInheritance = true)
    (ha : c.aging = false) (hg : mv.guard k) (hf : mv.Fair k) (h : AllExact k) :
    AllExact (mv.apply k) := by
  cases mv with
  | one a =>
    by_cases hr : a.Ranks
    · cases a with
      | start => exact start_exact hs hg.2 hf h
      | settle => exact settle_exact hs hg.2 h
      | create t p dynamic => exact create_exact hs t p dynamic hg.2 h
      | age => exact absurd hf id
      | requeue | setBase => exact absurd hg.1 id
      | _ => exact absurd hr id
    · refine a.allExact hs hg.2 hr (fun hl => ?_) (fun u hu => ?_) h
      · cases a with
        | sleep | release => exact absurd hg.1 id
        | _ => exact absurd hl id
      · cases a with
        | park t => exact (show t = u from hu) ▸ hf
        | expire | kill => exact absurd hg.1 id
        | _ => exact absurd hu id
  | giveUp m =>
    have he : AvrOs.giveUp k m = k := by
      unfold AvrOs.giveUp
      cases ho : k.owner m with
      | none => rfl
      | some owner =>
        dsimp only
        rw [hs.inherited_eq, ← h owner (hn hinh m owner ho), if_neg (lt_irrefl _)]
    show AllExact (AvrOs.giveUp k m)
    rw [he]
    exact h
  | repriority t p => exact repriority_exact hs t p hg.1 hg.2 hf h
  | block call list timeout =>
    refine (Move.run (.block call list timeout) hs hg).keeps hs (fun s a hss hga hu hi => ?_) h
    rcases hu with rfl | rfl
    · exact settle_exact hss hga hi
    · refine Atom.allExact _ hss hga id (fun hl => ?_) (fun _ hw => absurd hw id) hi
      cases list with
      | none => exact hl
      | some w => cases w with
        | mutex m => exact hg.2.2.2.2.1 hinh m rfl
        | _ => exact hl
  | lock call m owner timeout => exact lock_exact hs hn ha call m owner timeout hg h
  | lockIdle m owner =>
    refine h.same (lockIdle_exact hs hn m owner hg hf h) fun t ht => ?_
    exact Move.live (.lockIdle m owner) hs hg (by simp) ht
  | unlock m => exact unlock_exact hs hinh m hg h
  | delete t => exact delete_exact hs t hg hf h
  | setEvent e flags =>
    refine (Move.run (.setEvent e flags) hs hg).keeps hs (fun s a hss hga hu hi => ?_) h
    rcases hu with rfl | ⟨t, rfl⟩
    · exact Atom.allExact _ hss hga id id (fun _ hw => absurd hw id) hi
    · exact Atom.allExact _ hss hga id id (fun _ hw => absurd hw id) hi
  | tick => exact tick_exact hs hf h

end AvrOs
