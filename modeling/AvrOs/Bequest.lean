import AvrOs.Graves
import AvrOs.Withdrawing

/-!
# What deleted tasks leave behind

A task which is deleted gives all its mutexes away before anybody else runs. Nobody notices but those
who are next in line for one of them.
-/

namespace AvrOs
open Intrusive Transition Kernel

variable {c : Config} {k k' k₁ s : ListKernel c} {t u m : Place c} {ms ms' : List (Place c)}

/-! ### Mutexes passed on -/

/-- These mutexes have been passed on, each one to the first task in its line. -/
structure Passed (ms : List (Place c)) (k k' : ListKernel c) : Prop where
  owner : ∀ m, k'.owner m = if m ∈ ms then (k.links (.wait (.mutex m))).head? else k.owner m
  line : ∀ m, k'.links (.wait (.mutex m)) =
    if m ∈ ms then (k.links (.wait (.mutex m))).tail else k.links (.wait (.mutex m))
  other : ∀ w, (∀ m, w ≠ .mutex m) → k'.links (.wait w) = k.links (.wait w)
  heir : ∀ m ∈ ms, ∀ u, (k.links (.wait (.mutex m))).head? = some u →
    k'.tasks u = { k.tasks u with result := true, waitList := none, state := OS_TASK_READY }
  rest : ∀ u, (∀ m ∈ ms, (k.links (.wait (.mutex m))).head? ≠ some u) → k'.tasks u = k.tasks u
  dead : k'.links .dead = k.links .dead
  current : k'.currentTask = k.currentTask
  world : SameWorld k k'

theorem Passed.none (k : ListKernel c) : Passed [] k k where
  owner m := by rw [if_neg List.not_mem_nil]
  line m := by rw [if_neg List.not_mem_nil]
  other _ _ := rfl
  heir _ hm := absurd hm List.not_mem_nil
  rest _ _ := rfl
  dead := rfl
  current := rfl
  world := .same k

/-- Nobody is in two lines. -/
theorem Linked.one_line (h : Linked k) {w w' : WaitList c} (hu : u ∈ k.links (.wait w)) (hu' : u ∈ k.links (.wait w')) :
    w = w' := by
  have he := (((h.2 u).wait w).mp hu).symm.trans (((h.2 u).wait w').mp hu')
  injection he

theorem Passed.trans (h : Linked k) (hp : Passed ms k k₁) (hp' : Passed ms' k₁ k')
    (hd : ∀ m ∈ ms', m ∉ ms) : Passed (ms ++ ms') k k' := by
  have hline : ∀ m, m ∉ ms → k₁.links (.wait (.mutex m)) = k.links (.wait (.mutex m)) := fun m hm => by
    rw [hp.line, if_neg hm]
  have hone : ∀ m m' u, (k.links (.wait (.mutex m))).head? = some u → (k.links (.wait (.mutex m'))).head? = some u → m = m' := by
    intro m m' u hm hm'
    have he := h.one_line (List.mem_of_mem_head? hm) (List.mem_of_mem_head? hm')
    injection he
  refine ⟨fun m => ?_, fun m => ?_, fun w hw => (hp'.other w hw).trans (hp.other w hw), fun m hm u hu => ?_, fun u hu => ?_,
    hp'.dead.trans hp.dead, hp'.current.trans hp.current, hp.world.trans hp'.world⟩
  · rw [hp'.owner, hp.owner]
    by_cases hm' : m ∈ ms'
    · rw [if_pos hm', if_pos (List.mem_append_right ms hm'), hline m (hd m hm')]
    · rw [if_neg hm']
      simp [hm']
  · rw [hp'.line, hp.line]
    by_cases hm' : m ∈ ms'
    · rw [if_pos hm', if_neg (hd m hm'), if_pos (List.mem_append_right ms hm')]
    · rw [if_neg hm']
      simp [hm']
  · rcases List.mem_append.mp hm with hm | hm
    · rw [hp'.rest u fun m' hm' hu' => ?_]
      · exact hp.heir m hm u hu
      · rw [hline m' (hd m' hm')] at hu'
        exact hd m' hm' (hone m m' u hu hu' ▸ hm)
    · rw [hp'.heir m hm u (by rw [hline m (hd m hm)]; exact hu),
        hp.rest u fun m' hm' hu' => hd m hm (hone m m' u hu hu' ▸ hm')]
  · rw [hp'.rest u fun m hm hu' => ?_, hp.rest u fun m hm => hu m (List.mem_append_left ms' hm)]
    rw [hline m (hd m hm)] at hu'
    exact hu m (List.mem_append_right ms hm) hu'

/-- Passing a mutex on is waking up the first one in its line. -/
theorem Sound.release_cases (h : Sound k) (t m : Place c) :
    (∃ w rest, k.links (.wait (.mutex m)) = w :: rest ∧
      (∀ v, ((Atom.release t m).apply k).links (.wait v) = Lists.remove k.links (.wait (.mutex m)) w (.wait v)) ∧
      ((Atom.release t m).apply k).links .dead = k.links .dead ∧
      ((Atom.release t m).apply k).tasks =
        Function.update k.tasks w { k.tasks w with result := true, waitList := none, state := OS_TASK_READY }) ∨
    (k.links (.wait (.mutex m)) = [] ∧ ((Atom.release t m).apply k).links = k.links ∧
      ((Atom.release t m).apply k).tasks = k.tasks) := by
  rw [Atom.apply, release_eq]
  rcases pass_cases { k with ownedLinks := offOwned k t m } m with ⟨w, rest, hl, he⟩ | ⟨hl, he⟩
  · have hline : k.links (.wait (.mutex m)) = w :: rest := hl
    have hw : (k.tasks w).waitList = some (.mutex m) := ((h.linked.2 w).wait _).mp (by rw [hline]; exact List.mem_cons_self)
    refine .inl ⟨w, rest, hline, fun v => ?_, ?_, ?_⟩
    · rw [he, osWake_eq, osMutexOwn_eq]
      dsimp only
      rw [onReady_wait]
      unfold offWait
      dsimp only
      rw [hw]
    · rw [he, wake_dead, osMutexOwn_eq]
    · rw [he, osWake_eq, osMutexOwn_eq]
  · refine .inr ⟨hl, ?_, ?_⟩ <;> rw [he] <;> rfl

theorem release_passed (h : Sound k) (t m : Place c) : Passed [m] k ((Atom.release t m).apply k) := by
  have hworld := release_world k t m
  have howner : ∀ m', ((Atom.release t m).apply k).owner m' =
      if m' ∈ [m] then (k.links (.wait (.mutex m'))).head? else k.owner m' := fun m' => by
    rw [release_owner]
    by_cases hm : m' = m
    · rw [hm, Function.update_self, if_pos List.mem_cons_self]
    · rw [Function.update_of_ne hm, if_neg (by simp [hm])]
  have hcurrent : ((Atom.release t m).apply k).currentTask = k.currentTask := by
    rw [Atom.apply, release_eq]
    exact (pass_frame _ m).1
  rcases h.release_cases t m with ⟨w, rest, hline, hlinks, hdead, htasks⟩ | ⟨hline, hlinks, htasks⟩
  · have hhead : ∀ u, (k.links (.wait (.mutex m))).head? = some u ↔ w = u := fun u => by rw [hline]; simp
    refine ⟨howner, fun m' => ?_, fun v hv => ?_, fun m' hm u hu => ?_, fun u hu => ?_, hdead, hcurrent, hworld⟩
    · rw [hlinks]
      by_cases hm : m' = m
      · rw [hm, if_pos List.mem_cons_self, Lists.remove_self, hline, List.tail_cons, List.erase_cons_head]
      · rw [if_neg (by simp [hm]), Lists.remove_of_ne _ _ _ _ (by simp [hm])]
    · rw [hlinks, Lists.remove_of_ne _ _ _ _ (by simp [hv m])]
    · rw [List.mem_singleton.mp hm] at hu
      rw [htasks, (hhead u).mp hu, Function.update_self]
    · have hne : u ≠ w := fun he => hu m List.mem_cons_self ((hhead u).mpr he.symm)
      rw [htasks, Function.update_of_ne hne]
  · refine ⟨howner, fun m' => ?_, fun v _ => by rw [hlinks], fun m' hm u hu => ?_, fun u _ => by rw [htasks], by rw [hlinks],
      hcurrent, hworld⟩
    · rw [hlinks]
      split
      case isTrue hm => rw [List.mem_singleton.mp hm, hline, List.tail_nil]
      case isFalse => rfl
    · rw [List.mem_singleton.mp hm, hline] at hu
      cases hu

/-- The mutex goes to the list of somebody else. -/
theorem release_rest (h : Sound k) (hinh : c.mutexInheritance = true) (hd : k.stateOf t = OS_TASK_DEAD)
    {rest : List (Place c)} (hl : k.ownedLinks t = m :: rest) : ((Atom.release t m).apply k).ownedLinks t = rest := by
  have hoff : offOwned k t m t = rest := by
    rw [offOwned, if_pos hinh, Lists.remove_self, hl, List.erase_cons_head]
  rw [Atom.apply, release_eq]
  rcases pass_cases { k with ownedLinks := offOwned k t m } m with ⟨w, ws, hw, hp⟩ | ⟨-, hp⟩
  · have hmem : w ∈ k.links (.wait (.mutex m)) := by
      rw [show k.links (.wait (.mutex m)) = w :: ws from hw]
      exact List.mem_cons_self
    have hne : t ≠ w := fun he => by
      have hb := h.waiter_blocked hmem
      rw [← he, hd] at hb
      simp at hb
    rw [hp, osWake_eq, osMutexOwn_eq]
    dsimp only
    rw [if_pos hinh, Lists.push_of_ne _ _ _ _ hne]
    exact hoff
  · rw [hp]
    exact hoff

/-- All mutexes of a dead task are passed on, one after the other. -/
theorem releaseLoop_passed (fuel : ℕ) (h : Sound k) (hinh : c.mutexInheritance = true) (hd : k.stateOf t = OS_TASK_DEAD)
    (hf : (k.ownedLinks t).length ≤ fuel) : Passed (k.ownedLinks t) k (osMutexReleaseAllLoop fuel k t) := by
  induction fuel generalizing k with
  | zero =>
    rw [List.length_eq_zero_iff.mp (Nat.le_zero.mp hf)]
    exact .none k
  | succ fuel ih =>
    unfold osMutexReleaseAllLoop
    rw [head_lists]
    cases hl : k.ownedLinks t with
    | nil => exact .none k
    | cons m rest =>
      have hg : (Atom.release t m).guard k :=
        ⟨(h.owned.records hinh m t).mp (by rw [hl]; exact List.mem_cons_self), Or.inl hd⟩
      have hpop : Lists.pop k.ownedLinks t = Lists.remove k.ownedLinks t m := by
        simp [Lists.pop, Lists.remove, hl]
      have he : (Atom.release t m).apply k = { k with ownedLinks := Lists.pop k.ownedLinks t }.osMutexPass m := by
        show (if _ then _ else k).osMutexPass m = _
        rw [if_pos hinh, hpop]
      have hpassed := release_passed h t m
      have hs := (Atom.release t m).sound h hg
      have hd' : ((Atom.release t m).apply k).stateOf t = OS_TASK_DEAD := by
        rw [stateOf, (release_frame h t m t (by rw [hd]; simp)).2]
        exact hd
      have hrest := release_rest h hinh hd hl
      show Passed (m :: rest) k
        (osMutexReleaseAllLoop fuel ({ k with ownedLinks := Lists.pop k.ownedLinks t }.osMutexPass m) t)
      rw [← he]
      have hnodup := h.owned.separate.nodup t
      rw [hl] at hnodup hf
      have hloop := ih hs hd' (by rw [hrest]; simpa using hf)
      rw [hrest] at hloop
      refine hpassed.trans h.linked hloop fun m' hm' hm => ?_
      rw [List.mem_singleton.mp hm] at hm'
      exact (List.nodup_cons.mp hnodup).1 hm'

/-! ### The task is gone -/

/-- Everything the task had is somebody else's. -/
structure Bequeathed {S : Type → Type → Type} [LinkStore S] (k k' : Kernel c S) (t : Place c) : Prop where
  dead : k'.stateOf t = OS_TASK_DEAD
  offLists : t ∉ LinkStore.toList k'.links .ready ∧ (∀ w, t ∉ k'.waiters w) ∧ t ∉ LinkStore.toList k'.timerLinks ()
  mutexes : LinkStore.toList k'.ownedLinks t = []
  owner : ∀ m, k'.owner m = if k.owner m = some t then ((k.waiters (.mutex m)).erase t).head? else k.owner m
  line : ∀ m, k.owner m = some t → k'.waiters (.mutex m) = ((k.waiters (.mutex m)).erase t).tail
  lines : ∀ w, (∀ m, w = .mutex m → k.owner m ≠ some t) → k'.waiters w = (k.waiters w).erase t
  heir : ∀ m u, k.owner m = some t → ((k.waiters (.mutex m)).erase t).head? = some u →
    k'.tasks u = { k.tasks u with result := true, waitList := none, state := OS_TASK_READY } ∧
    u ∈ LinkStore.toList k'.links .ready ∧ m ∈ LinkStore.toList k'.ownedLinks u
  rest : ∀ u, u ≠ t → (∀ m, k.owner m = some t → ((k.waiters (.mutex m)).erase t).head? ≠ some u) → k'.tasks u = k.tasks u
  buried : LinkStore.toList k'.links .dead =
    if (k.tasks t).dynamic then t :: LinkStore.toList k.links .dead else LinkStore.toList k.links .dead
  once : (LinkStore.toList k'.links .dead).count t = if (k.tasks t).dynamic then 1 else 0
  objects : k'.semaphores = k.semaphores ∧ k'.queues = k.queues ∧ k'.events = k.events

theorem kill_lines (h : Sound k) (hd : k.stateOf t ≠ OS_TASK_DEAD) (w : WaitList c) :
    ((Atom.kill t).apply k).links (.wait w) = (k.links (.wait w)).erase t := by
  by_cases hw : (k.tasks t).waitList = some w
  · have hb : k.stateOf t ≠ OS_TASK_READY := by
      rw [show k.stateOf t = OS_TASK_BLOCKED from (h.linked.2 t).blocked w hw]
      simp
    show (k.osTaskDetach t).links (.wait w) = _
    unfold osTaskDetach
    rw [if_neg hb, osUnblock_eq]
    exact h.linked.offWait_eq hb hd _
  · rw [kill_line k hw]
    exact (List.erase_of_not_mem fun hm => hw (((h.linked.2 t).wait w).mp hm)).symm

theorem released_passed (h : Sound k) (hinh : c.mutexInheritance = true) (ht : t ≠ osIdleTask)
    (hd : k.stateOf t ≠ OS_TASK_DEAD) : Passed (k.ownedLinks t) ((Atom.kill t).apply k) (released k t) := by
  have hks := (Atom.kill t).sound h ⟨ht, hd⟩
  have howned : ((Atom.kill t).apply k).ownedLinks = k.ownedLinks := (detach_frame k t).2.2
  have hlen := (hks.owned.separate.nodup t).length_le_card
  rw [Fintype.card_fin] at hlen
  have hloop := releaseLoop_passed (c.places + 1) hks hinh (kill_dead h t hd).1 hlen
  rw [howned] at hloop
  unfold released
  dsimp only
  rw [if_pos hinh]
  exact hloop

/-- The memory of a dynamic task is left to whoever frees it. -/
theorem delete_released (k : ListKernel c) (t : Place c) :
    (delete k t).tasks = (released k t).tasks ∧ (delete k t).owner = (released k t).owner ∧
    (∀ i, i ≠ .dead → (delete k t).links i = (released k t).links i) ∧
    (delete k t).links .dead =
      (if ((released k t).tasks t).dynamic then t :: (released k t).links .dead else (released k t).links .dead) ∧
    SameWorld (released k t) (delete k t) := by
  unfold delete
  dsimp only
  split
  · exact ⟨rfl, rfl, fun i hi => Lists.push_of_ne _ _ _ _ hi, Lists.push_self (released k t).links .dead t,
      ⟨rfl, rfl, rfl, rfl, rfl, rfl, rfl, rfl⟩⟩
  · exact ⟨rfl, rfl, fun i hi => rfl, rfl, .same _⟩

theorem delete_bequeathed (h : Sound k) (hinh : c.mutexInheritance = true) (ht : t ≠ osIdleTask)
    (hd : k.stateOf t ≠ OS_TASK_DEAD) : Bequeathed k (delete k t) t := by
  obtain ⟨htasks, howner, hlinks, hburied, hworld⟩ := delete_released k t
  have hpassed := released_passed h hinh ht hd
  have hks := (Atom.kill t).sound h ⟨ht, hd⟩
  have hs : Sound (delete k t) := (Move.delete t).sound h ⟨ht, hd⟩
  have hplaced := hs.linked.2 t
  have hkind : ((delete k t).tasks t).state &&& OS_TASK_STATE = OS_TASK_DEAD := delete_kind h t ht hd
  have howns : ∀ m, m ∈ k.ownedLinks t ↔ k.owner m = some t := fun m => h.owned.records hinh m t
  have hkowner : ((Atom.kill t).apply k).owner = k.owner := (detach_frame k t).2.1
  have hkline := fun w => kill_lines h hd w
  have hktasks : ∀ u, u ≠ t → ((Atom.kill t).apply k).tasks u = k.tasks u := fun u hu => by
    rw [kill_tasks h.linked, Function.update_of_ne hu]
  -- the first one in line is not the task itself
  have hheir : ∀ m u, ((k.links (.wait (.mutex m))).erase t).head? = some u → u ≠ t := fun m u hu he => by
    have hmem := List.mem_of_mem_head? hu
    rw [he] at hmem
    exact (h.linked.1.separate.nodup (.wait (.mutex m))).not_mem_erase hmem
  have hdynamic : ((released k t).tasks t).dynamic = (k.tasks t).dynamic :=
    (released_memory h ht hd).1.dynamic t
  have hlist : (released k t).links .dead = k.links .dead := (released_memory h ht hd).1.list
  have hfirst : ∀ m u, k.owner m = some t → ((k.links (.wait (.mutex m))).erase t).head? = some u →
      (delete k t).tasks u = { k.tasks u with result := true, waitList := none, state := OS_TASK_READY } := by
    intro m u hm hu
    rw [htasks, hpassed.heir m ((howns m).mpr hm) u (by rw [hkline]; exact hu), hktasks u (hheir m u hu)]
  have howner' : ∀ m, (delete k t).owner m =
      if k.owner m = some t then ((k.links (.wait (.mutex m))).erase t).head? else k.owner m := fun m => by
    rw [howner, hpassed.owner, hkline, hkowner]
    simp only [howns]
  have hbury : (delete k t).links .dead = if (k.tasks t).dynamic then t :: k.links .dead else k.links .dead := by
    rw [hburied, hdynamic, hlist]
  have hnot : t ∉ k.links .dead := h.linked.notDead hd
  refine ⟨hkind, ⟨fun hm => ?_, fun w hm => ?_, fun hm => ?_⟩, delete_owned h t ht hd hinh, howner', fun m hm => ?_,
    fun w hw => ?_, fun m u hm hu => ⟨hfirst m u hm hu, ?_, ?_⟩, fun u hut hu => ?_, hbury, ?_,
    ⟨?_, ?_, ?_⟩⟩
  · have hready := hplaced.ready.mp hm
    rw [hkind] at hready
    simp at hready
  · have hblocked := hplaced.blocked w ((hplaced.wait w).mp hm)
    rw [hkind] at hblocked
    simp at hblocked
  · have htimed := hplaced.timed (hplaced.timer.mp hm)
    rw [hkind] at htimed
    simp at htimed
  · show (delete k t).links _ = _
    rw [hlinks _ (by simp), hpassed.line, if_pos ((howns m).mpr hm), hkline]
    rfl
  · show (delete k t).links _ = _
    rw [hlinks _ (by simp)]
    by_cases hm : ∃ m, w = .mutex m
    · obtain ⟨m, rfl⟩ := hm
      rw [hpassed.line, if_neg fun hmem => hw m rfl ((howns m).mp hmem), hkline]
      rfl
    · rw [hpassed.other w fun m he => hm ⟨m, he⟩, hkline]
      rfl
  · refine (hs.linked.2 u).ready.mpr ?_
    rw [hfirst m u hm hu]
    simp
  · refine (hs.owned.records hinh m u).mpr ?_
    rw [howner', if_pos hm]
    exact hu
  · rw [htasks, hpassed.rest u fun m hm hu' => hu m ((howns m).mp hm) (by rw [hkline] at hu'; exact hu'), hktasks u hut]
  · show ((delete k t).links .dead).count t = _
    rw [hbury]
    split
    · rw [List.count_cons_self, List.count_eq_zero_of_not_mem hnot]
    · exact List.count_eq_zero_of_not_mem hnot
  · rw [hworld.semaphores, hpassed.world.semaphores]
    exact (detach_world k t).semaphores
  · rw [hworld.queues, hpassed.world.queues]
    exact (detach_world k t).queues
  · rw [hworld.events, hpassed.world.events]
    exact (detach_world k t).events

/-! ### Every run -/

theorem Bequeathed.of_sim {kl kl' : Kernel c Links} (hk : Sim kl k) (hk' : Sim kl' k') (h : Bequeathed k k' t) :
    Bequeathed kl kl' t := by
  have hw : ∀ w, kl.waiters w = k.waiters w := fun w => hk.links_list _
  have hw' : ∀ w, kl'.waiters w = k'.waiters w := fun w => hk'.links_list _
  have hready : LinkStore.toList kl'.links .ready = LinkStore.toList k'.links .ready := hk'.links_list _
  have hdead : LinkStore.toList kl.links .dead = LinkStore.toList k.links .dead := hk.links_list _
  have hdead' : LinkStore.toList kl'.links .dead = LinkStore.toList k'.links .dead := hk'.links_list _
  have howned : ∀ u, LinkStore.toList kl'.ownedLinks u = LinkStore.toList k'.ownedLinks u := fun u => hk'.owned_list
  have htimer : LinkStore.toList kl'.timerLinks () = LinkStore.toList k'.timerLinks () := hk'.timerList
  refine ⟨?_, ⟨?_, fun w => ?_, ?_⟩, ?_, fun m => ?_, fun m hm => ?_, fun w hwait => ?_, fun m u hm hu => ?_,
    fun u hut hu => ?_, ?_, ?_, ⟨?_, ?_, ?_⟩⟩
  · rw [hk'.stateOf]
    exact h.dead
  · rw [hready]
    exact h.offLists.1
  · rw [hw']
    exact h.offLists.2.1 w
  · rw [htimer]
    exact h.offLists.2.2
  · rw [howned]
    exact h.mutexes
  · rw [hk'.owner, hk.owner, hw]
    exact h.owner m
  · rw [hk.owner] at hm
    rw [hw, hw']
    exact h.line m hm
  · rw [hk.owner] at hwait
    rw [hw, hw']
    exact h.lines w hwait
  · rw [hk.owner] at hm
    rw [hw] at hu
    rw [hk'.tasks, hk.tasks, hready, howned]
    exact h.heir m u hm hu
  · rw [hk'.tasks, hk.tasks]
    refine h.rest u hut fun m hm hu' => hu m (by rw [hk.owner]; exact hm) ?_
    rw [hw]
    exact hu'
  · rw [hdead', hdead, hk.tasks]
    exact h.buried
  · rw [hdead', hk.tasks]
    exact h.once
  · rw [hk'.semaphores, hk.semaphores]
    exact h.objects.1
  · rw [hk'.queues, hk.queues]
    exact h.objects.2.1
  · rw [hk'.events, hk.events]
    exact h.objects.2.2

/-- A task which is deleted has left everything to others before the next one runs. -/
theorem reachable_bequeathed (k k' : Kernel c Links) (h : Reachable k) (hinh : c.mutexInheritance = true)
    (o : Option (Place c)) (hi : o.getD k.currentTask ≠ osIdleTask) (hd : k.stateOf (o.getD k.currentTask) ≠ OS_TASK_DEAD)
    (hs : k.step (.call (.osTaskDelete o)) = some k') :
    ∃ k₁, Bequeathed k k₁ (o.getD k.currentTask) ∧
      k' = if o.getD k.currentTask = k.currentTask then k₁.osDispatch else k₁.osSchedule 0 := by
  obtain ⟨l, hl, hsim⟩ := reachable_lists h
  have hsound := (rest_of_reachable hl).sound
  generalize ht : o.getD k.currentTask = t at hi hd ⊢
  have he : k' = (k.emit (.called k.currentTask (.osTaskDelete o) (k.mine (.osTaskDelete o)))).osTaskDelete o := by
    simp only [step] at hs
    split at hs
    · injection hs with hs
      exact hs.symm
    · cases hs
  have hcalled := (hsim.emit (.called k.currentTask (.osTaskDelete o) (k.mine (.osTaskDelete o)))).returns (.osTaskDelete o) .void
  have hsound' : Sound ((l.emit (.called k.currentTask (.osTaskDelete o) (k.mine (.osTaskDelete o)))).returns
      (.osTaskDelete o) .void) := setFrame_sound (emit_sound hsound _) _ _
  have hd' : ((l.emit (.called k.currentTask (.osTaskDelete o) (k.mine (.osTaskDelete o)))).returns
      (.osTaskDelete o) .void).stateOf t ≠ OS_TASK_DEAD := by
    rw [hsim.stateOf] at hd
    exact hd
  have hdeleted := Sim.delete hsound' t hi hd' (hcalled.released hsound' t hi hd')
  have hbequeathed := (delete_bequeathed hsound' hinh hi hd').of_sim hcalled hdeleted
  refine ⟨_, ⟨hbequeathed.dead, hbequeathed.offLists, hbequeathed.mutexes, hbequeathed.owner, hbequeathed.line,
    hbequeathed.lines, hbequeathed.heir, hbequeathed.rest, hbequeathed.buried, hbequeathed.once, hbequeathed.objects⟩, ?_⟩
  rw [he]
  unfold osTaskDelete
  dsimp only
  rw [show o.getD (k.emit _).currentTask = t from ht, if_pos ⟨hi, hd⟩]
  rfl

/-- A mutex of one task, and another task in line for it. -/
def mutexOwned : List (Action (Config.default 2)) :=
  [.call (.osTaskCreate 1 3 false), .resume, .run, .call (.osMutexLock 0), .resume,
    .call (.osTaskCreate 2 5 false), .call (.osMutexLock 0), .resume]

theorem reachable_bequeathed_taken : ∃ k k' : Kernel (Config.default 2) Links,
    steps step (osInit _ Links) mutexOwned = some k ∧ k.step (.call (.osTaskDelete none)) = some k' ∧
    k.owner 0 = some 1 ∧ ∃ k₁, Bequeathed k k₁ 1 ∧ k₁.owner 0 = some 2 ∧ k' = k₁.osDispatch := by
  have hrun : (steps step (osInit (Config.default 2) Links) mutexOwned).map
      (fun k => decide (k.currentTask = 1 ∧ k.stateOf 1 ≠ OS_TASK_DEAD ∧ k.owner 0 = some 1 ∧
        k.waiters (.mutex 0) = [2] ∧ (k.step (.call (.osTaskDelete none))).isSome = true)) = some true := by decide +kernel
  obtain ⟨k, hk, hdec⟩ := Option.map_eq_some_iff.mp hrun
  obtain ⟨hcurrent, hdead, howner, hline, hsome⟩ := of_decide_eq_true hdec
  obtain ⟨k', hk'⟩ := Option.isSome_iff_exists.mp hsome
  have hone : (none : Option (Place (Config.default 2))).getD k.currentTask = 1 := hcurrent
  obtain ⟨k₁, hleft, hnext⟩ := reachable_bequeathed k k' (Reach.steps_reach _ (fun _ _ _ => trivial) .init hk) rfl none
    (by rw [hone]; decide) (by rw [hone]; exact hdead) hk'
  rw [hone] at hleft hnext
  refine ⟨k, k', hk, hk', howner, k₁, hleft, ?_, ?_⟩
  · rw [hleft.owner, if_pos howner, hline]
    rfl
  · rw [hnext, if_pos hcurrent.symm]

end AvrOs
