import AvrOs.Donation.Chains
import AvrOs.Waiting

/-!
# Priorities inherited by owners of mutexes

A task lends its priority to the owner of the mutex it waits for. What the code computes from
the first waiter of every mutex a task owns is what it inherits from all who wait for one of
them, and the loop of `osPriorityRaise` raises a chain of owners.
-/

namespace AvrOs
open Intrusive Transition Kernel

variable {c : Config} {k k' : ListKernel c} {t u : Place c}

/-- The mutex the task waits for. -/
def waitsFor (k : ListKernel c) (t : Place c) : Option (Place c) :=
  match (k.tasks t).waitList with
  | some (.mutex m) => some m
  | _ => none

/-- The task which inherits the priority of `t`. -/
def lends (k : ListKernel c) (t : Place c) : Option (Place c) :=
  if c.mutexInheritance then (waitsFor k t).bind k.owner else none

/-- The priority the task has of its own. -/
def ownPriority (k : ListKernel c) (t : Place c) : ℕ := (k.tasks t).basePriority

/-- What the task inherits. -/
abbrev inherits (k : ListKernel c) (t : Place c) : ℕ :=
  Donation.inherited (lends k) (ownPriority k) k.priority t

/-! ### Who waits for which mutex -/

theorem waitsFor_iff {m : Place c} : waitsFor k t = some m ↔ (k.tasks t).waitList = some (.mutex m) := by
  unfold waitsFor
  split
  case h_1 m' hw =>
    rw [hw]
    exact ⟨fun h => by rw [Option.some.inj h], fun h => by injection h with h; injection h with h; rw [h]⟩
  case h_2 hw => exact ⟨fun h => (by cases h), fun h => absurd h (hw m)⟩

theorem Sound.waitsFor_mem (h : Sound k) {m : Place c} :
    waitsFor k t = some m ↔ t ∈ k.links (.wait (.mutex m)) :=
  waitsFor_iff.trans ((h.linked.2 t).wait (.mutex m)).symm

theorem waitsFor_congr (hw : (k'.tasks t).waitList = (k.tasks t).waitList) :
    waitsFor k' t = waitsFor k t := by
  unfold waitsFor
  rw [hw]

theorem blockingOwner_eq (k : ListKernel c) (t : Place c) :
    k.blockingOwner t = (waitsFor k t).bind k.owner := by
  unfold blockingOwner waitsFor
  cases (k.tasks t).waitList with
  | none => rfl
  | some w => cases w <;> rfl

/-- Lent is what an owner of a mutex inherits, as far as there is inheritance. -/
theorem Sound.lends_iff (h : Sound k) : lends k t = some u ↔ c.mutexInheritance = true ∧
    ∃ m, t ∈ k.links (.wait (.mutex m)) ∧ k.owner m = some u := by
  unfold lends
  split
  case isTrue hinh =>
    rw [Option.bind_eq_some_iff]
    constructor
    · rintro ⟨m, hw, ho⟩
      exact ⟨hinh, m, h.waitsFor_mem.mp hw, ho⟩
    · rintro ⟨-, m, hm, ho⟩
      exact ⟨m, h.waitsFor_mem.mpr hm, ho⟩
  case isFalse hinh => exact ⟨fun hn => (by cases hn), fun hx => absurd hx.1 hinh⟩

/-- Nobody lends anything but those who sleep. -/
theorem Sound.lends_none (h : Sound k) (ht : k.stateOf t ≠ OS_TASK_BLOCKED) : lends k t = none := by
  refine Option.eq_none_iff_forall_ne_some.mpr fun u hu => ?_
  obtain ⟨-, m, hm, -⟩ := h.lends_iff.mp hu
  exact ht (h.waiter_blocked hm)

theorem Sound.current_lends (h : Sound k) (hr : k.stateOf k.currentTask = OS_TASK_RUNNING) :
    lends k k.currentTask = none := h.lends_none (by rw [hr]; simp)

/-! ### What is inherited -/

theorem foldl_inherit_le (k : ListKernel c) (l : List (Place c)) (p n : ℕ) :
    l.foldl k.inherit p ≤ n ↔ p ≤ n ∧
      ∀ m ∈ l, ∀ w, (k.links (.wait (.mutex m))).head? = some w → k.priority w ≤ n := by
  induction l generalizing p with
  | nil => simp
  | cons m l ih =>
    have hone : k.inherit p m ≤ n ↔
        p ≤ n ∧ ∀ w, (k.links (.wait (.mutex m))).head? = some w → k.priority w ≤ n := by
      unfold inherit
      rw [head_lists]
      cases (k.links (.wait (.mutex m))).head? with
      | none => simp
      | some w =>
        simp only [Option.some.injEq, forall_eq']
        split <;> omega
    rw [List.foldl_cons, ih, hone]
    simp only [List.mem_cons, forall_eq_or_imp, and_assoc]

/-- The first waiter of a mutex stands for all of them, as they are in line by priority. -/
theorem Sound.inherited_eq (h : Sound k) (t : Place c) : k.osInheritedPriority t = inherits k t := by
  refine eq_of_forall_ge_iff fun n => ?_
  rw [inherits, Donation.inherited_le_iff]
  unfold osInheritedPriority
  split
  case isTrue hinh =>
    rw [foldl_inherit_le, toList_lists]
    refine and_congr_right fun _ => ⟨fun hl u hu => ?_, fun hl m hm w hw => ?_⟩
    · obtain ⟨-, m, hm, ho⟩ := h.lends_iff.mp hu
      obtain ⟨w, as, hw⟩ := List.exists_cons_of_ne_nil (List.ne_nil_of_mem hm)
      have hh : (k.links (.wait (.mutex m))).head? = some w := by rw [hw]; rfl
      exact ((h.linked.1.wait (.mutex m)).head_max w hh u hm).trans
        (hl m ((h.owned.records hinh m t).mpr ho) w hh)
    · exact hl w (h.lends_iff.mpr
        ⟨hinh, m, List.mem_of_mem_head? hw, (h.owned.records hinh m t).mp hm⟩)
  case isFalse hinh =>
    refine ⟨fun hb => ⟨hb, fun u hu => ?_⟩, And.left⟩
    exact absurd (h.lends_iff.mp hu).1 hinh

/-! ### Raising a chain of owners -/

theorem SameTasks.lends (h : SameTasks k k') : lends k' = lends k := by
  funext t
  obtain ⟨p, b, he⟩ := h.tasks t
  have hw : (k'.tasks t).waitList = (k.tasks t).waitList := by rw [he]
  unfold AvrOs.lends
  rw [h.owner, waitsFor_congr hw]

/-- The flag the loop looks at is set for everybody who lends. -/
def LendersMarked (k : ListKernel c) : Prop := ∀ t, lends k t ≠ none → OnMutex (k.tasks t)

theorem Sound.lendersMarked (h : Sound k) : LendersMarked k := by
  intro t ht
  obtain ⟨u, hu⟩ := Option.ne_none_iff_exists'.mp ht
  obtain ⟨hinh, m, hm, -⟩ := h.lends_iff.mp hu
  exact (h.owned.flag t (h.waiter_blocked hm)).mpr ⟨hinh, m, ((h.linked.2 t).wait _).mp hm⟩

theorem SameTasks.lendersMarked (h : SameTasks k k') (hm : LendersMarked k) : LendersMarked k' := by
  intro t ht
  rw [h.lends] at ht
  rw [OnMutex, h.state]
  exact hm t ht

theorem requeue_priorities {S : Type → Type → Type} [LinkStore S] (k : Kernel c S) (t : Place c) (p : ℕ) :
    ((k.setPriority t p).osRequeue t).priority = Function.update k.priority t p := by
  funext u
  rw [requeue_priority, Function.update_apply]

theorem raiseLoop_priority (fuel : ℕ) (h : LendersMarked k) (t : Place c) (p : ℕ) :
    (osPriorityRaiseLoop fuel k t p).priority = Donation.raise (lends k) fuel k.priority t p := by
  induction fuel generalizing k t with
  | zero => rfl
  | succ fuel ih =>
    have hsame := requeue_same k t p
    have hm := hsame.lendersMarked h
    have hb : (if c.mutexInheritance ∧
        (((k.setPriority t p).osRequeue t).tasks t).state &&& OS_TASK_MUTEX ≠ 0 then
          ((k.setPriority t p).osRequeue t).blockingOwner t else none) = lends k t := by
      rw [← hsame.lends, blockingOwner_eq]
      split
      case isTrue hi => rw [lends, if_pos hi.1]
      case isFalse hi =>
        refine (Option.eq_none_iff_forall_ne_some.mpr fun u hu => hi ⟨?_, ?_⟩).symm
        · by_contra hinh
          rw [lends, if_neg hinh] at hu
          cases hu
        · exact hm t (by rw [hu]; simp)
    unfold osPriorityRaiseLoop Donation.raise
    dsimp only
    by_cases hlt : k.priority t < p
    · rw [if_pos hlt, if_pos hlt]
      rw [← hb]
      split
      case isTrue hi =>
        cases ((k.setPriority t p).osRequeue t).blockingOwner t with
        | none => exact requeue_priorities k t p
        | some owner =>
          dsimp only
          rw [ih hm, hsame.lends, requeue_priorities]
      case isFalse => exact requeue_priorities k t p
    · rw [if_neg hlt, if_neg hlt]

theorem below_places (p : Place c → ℕ) (q : ℕ) :
    (Finset.univ.filter fun u => p u < q).card ≤ c.places + 1 :=
  (Finset.card_le_univ _).trans (le_of_eq (Fintype.card_fin _))

theorem Sound.raise_priorities (h : Sound k) (t : Place c) (p : ℕ) :
    (k.osPriorityRaise t p).priority = Donation.raise (lends k) (c.places + 1) k.priority t p :=
  raiseLoop_priority _ h.lendersMarked t p

/-- Priorities do not fall along the chain of owners which starts with `t`. -/
def Rising (k : ListKernel c) (t : Place c) : Prop :=
  ∀ u v, Donation.Reaches (lends k) t u → lends k u = some v → k.priority u ≤ k.priority v

theorem Sound.raised_priorities (h : Sound k) (t : Place c) (p : ℕ) (hr : Rising k t) :
    (k.osPriorityRaise t p).priority = Donation.raised (lends k) k.priority t p := by
  rw [h.raise_priorities]
  exact Donation.raise_eq _ _ (fun u v hu huv => Or.inl (hr u v hu huv)) (below_places _ _)

/-! ### What steps do to those who wait for a mutex -/

/-- Steps which change who waits for a mutex or who owns one which is waited for. -/
def Atom.Relinks : Atom c → Prop
  | .sleep _ (some (.mutex _)) _ | .release _ _ => True
  | _ => False

/-- Steps which take the task away from whatever it waits for. -/
def Atom.Withdraws (u : Place c) : Atom c → Prop
  | .expire t | .kill t | .park t => t = u
  | _ => False

theorem update_waitsFor {x : OsTask c} (ht : k'.tasks = Function.update k.tasks t x)
    (hx : x.waitList = (k.tasks t).waitList ∨ x.waitList = none ∧ waitsFor k t = none) (u : Place c) :
    waitsFor k' u = waitsFor k u := by
  by_cases hu : u = t
  · subst hu
    rcases hx with hx | ⟨hx, hn⟩
    · refine waitsFor_congr ?_
      rw [ht, Function.update_self, hx]
    · rw [hn, waitsFor, ht, Function.update_self, hx]
  · refine waitsFor_congr ?_
    rw [ht, Function.update_of_ne hu]

theorem withdrawn_waitsFor {x : OsTask c} (ht : k'.tasks = Function.update k.tasks t x)
    (hx : x.waitList = none) (u : Place c) :
    waitsFor k' u = if u = t then none else waitsFor k u := by
  by_cases hu : u = t
  · subst hu
    rw [if_pos rfl, waitsFor, ht, Function.update_self, hx]
  · rw [if_neg hu]
    refine waitsFor_congr ?_
    rw [ht, Function.update_of_ne hu]

theorem waitsFor_tasks (ht : k'.tasks = k.tasks) (u : Place c) : waitsFor k' u = waitsFor k u :=
  waitsFor_congr (by rw [ht])

/-- A task which waits for something else does not wait for a mutex. -/
theorem Sound.waitsFor_none (h : Sound k) {w : WaitList c} (ht : t ∈ k.links (.wait w))
    (hw : ∀ m, w ≠ .mutex m) : waitsFor k t = none := by
  refine Option.eq_none_iff_forall_ne_some.mpr fun m hm => ?_
  have he := ((h.linked.2 t).wait w).mp ht
  rw [waitsFor_iff.mp hm] at he
  exact hw m (Option.some.inj he).symm

theorem Sound.awake_waitsFor (h : Sound k) (ht : k.stateOf t ≠ OS_TASK_BLOCKED) :
    waitsFor k t = none :=
  Option.eq_none_iff_forall_ne_some.mpr fun _ hm => ht (h.waiter_blocked (h.waitsFor_mem.mp hm))

theorem wake_waitsFor (k : ListKernel c) (t : Place c) (r : Bool) (u : Place c) :
    waitsFor (k.osWake t r) u = if u = t then none else waitsFor k u :=
  withdrawn_waitsFor (congrArg Kernel.tasks (osWake_eq k t r)) rfl u

/-- Waking up a task which does not wait for a mutex is nothing to those who do. -/
theorem woken_waitsFor (hn : waitsFor k t = none) (r : Bool) (u : Place c) :
    waitsFor (k.osWake t r) u = waitsFor k u :=
  update_waitsFor (congrArg Kernel.tasks (osWake_eq k t r)) (Or.inr ⟨rfl, hn⟩) u

theorem Atom.waitsFor (a : Atom c) (h : Sound k) (hg : a.guard k) (ha : ¬ a.Relinks)
    (hu : ¬ a.Withdraws u) : waitsFor (a.apply k) u = waitsFor k u := by
  cases a with
  | called | returns | pause | timerCalled | quiet | mutexInit | semaphoreInit | queueInit | take
  | flagsSet | flagsClear | eventInit | tick | bury | reap => rfl
  | start | settle | setBase | flag | unflag | setWait | preempt =>
    refine update_waitsFor rfl ?_ u
    exact Or.inl rfl
  | leave => exact waitsFor_tasks (leave_tasks k) u
  | requeue t p =>
    obtain ⟨q, b, he⟩ := (requeue_same k t p).tasks u
    exact waitsFor_congr (by rw [apply, he])
  | dispatch =>
    obtain ⟨-, n, hn⟩ := osDispatch_sound h hg
    exact update_waitsFor (congrArg Kernel.tasks (osDispatch_eq k n hn)) (Or.inl rfl) u
  | sleep call list timeout =>
    have hnone := h.awake_waitsFor (t := k.currentTask) (by rw [hg.2.1]; simp)
    by_cases hut : u = k.currentTask
    · subst hut
      refine Option.eq_none_iff_forall_ne_some.mpr (fun m hm => ?_) |>.trans hnone.symm
      rw [waitsFor_iff, apply, sleep_eq] at hm
      dsimp only at hm
      rw [Function.update_self, sleeper_waitList] at hm
      subst hm
      exact ha trivial
    · refine waitsFor_congr ?_
      rw [apply, sleep_eq]
      dsimp only
      rw [Function.update_of_ne hut]
  | expire t =>
    rw [apply, wake_waitsFor, if_neg fun he => hu he.symm]
  | kill t =>
    rw [withdrawn_waitsFor (kill_tasks h.linked t) rfl, if_neg fun he => hu he.symm]
  | park t =>
    rw [withdrawn_waitsFor (park_tasks h.linked t) rfl, if_neg fun he => hu he.symm]
  | unpark t =>
    exact update_waitsFor (congrArg Kernel.tasks (osReady_eq (k.emit (.resumed t)) t)) (Or.inl rfl) u
  | create t p d =>
    have hnone := h.awake_waitsFor (t := t) (by rw [hg.1]; simp)
    rw [apply, osTaskSetup]
    have hnew : AvrOs.waitsFor (k.setTask t (newTask c p d)) u = AvrOs.waitsFor k u :=
      update_waitsFor rfl (Or.inr ⟨rfl, hnone⟩) u
    exact (update_waitsFor (congrArg Kernel.tasks (osReady_eq _ t)) (Or.inl rfl) u).trans hnew
  | own m => exact waitsFor_tasks (by rw [apply, osMutexOwn_eq]) u
  | release t m => exact absurd trivial ha
  | give s =>
    rw [apply]
    rcases give_cases k s with ⟨w, rest, hl, he⟩ | ⟨-, -, he⟩ | ⟨-, -, he⟩
    · have hw : w ∈ k.links (.wait (.semaphore s)) := by rw [hl]; simp
      rw [he]
      exact woken_waitsFor (k := k.emit (.gave s)) (h.waitsFor_none hw (by simp)) true u
    · rw [he]
      rfl
    · rw [he]
      rfl
  | send q item =>
    rw [apply]
    rcases send_cases k q item with ⟨w, rest, hl, -, he⟩ | ⟨-, -, he⟩ | ⟨-, -, he⟩
    · have hw : w ∈ k.links (.wait (.queue q)) := by rw [hl]; simp
      have hsame := waitsFor_tasks (hand_tasks k q item (k.tasks w).wait.itemPtr)
      rw [he, woken_waitsFor ((hsame w).trans (h.waitsFor_none hw (by simp))), hsame]
    · rw [he]
      exact waitsFor_tasks (append_tasks k q item) u
    · rw [he]
  | receive q item =>
    rw [apply]
    rcases receive_cases k q item with ⟨w, rest, hl, -, he⟩ | ⟨-, -, he⟩ | ⟨-, he⟩
    · have hw : w ∈ k.links (.wait (.queue q)) := by rw [hl]; simp
      have hsame := waitsFor_tasks ((append_tasks (k.osQueueTake q item) q
        (k.tasks w).wait.itemPtr).trans (take_tasks k q item))
      rw [he, woken_waitsFor ((hsame w).trans (h.waitsFor_none hw (by simp))), hsame]
    · rw [he]
      exact waitsFor_tasks (take_tasks k q item) u
    · rw [he]
  | consume e wanted options => exact waitsFor_tasks (consume_frame k e _ options).1 u
  | serve e t =>
    rw [apply]
    rcases serve_cases k e t with ⟨-, he⟩ | ⟨matched, options, -, -, -, he⟩
    · rw [he]
      rfl
    · have hw : t ∈ k.links (.wait (.event e)) := ((h.linked.2 t).wait _).mpr hg
      have hcons := waitsFor_tasks (consume_frame (k.emit (.visited e t)) e matched options).1
      have hsame : ∀ v, AvrOs.waitsFor ((((k.emit (.visited e t)).osEventConsume e matched options).emit
          (.satisfied e t matched options)).setWait t (.event matched options)) v = AvrOs.waitsFor k v := by
        intro v
        refine Eq.trans (waitsFor_congr ?_) (hcons v)
        exact setWait_waitList _ t v _
      rw [he, woken_waitsFor ((hsame t).trans (h.waitsFor_none hw (by simp))), hsame]
  | age =>
    refine waitsFor_congr ?_
    rw [apply, age_fold _ _ _ (h.linked.1.separate.nodup _)]
    dsimp only
    split <;> rfl

/-- A task taken away waits for no mutex. -/
theorem Atom.withdrawn (a : Atom c) (h : Sound k) (hu : a.Withdraws u) :
    AvrOs.waitsFor (a.apply k) u = none := by
  cases a with
  | expire t =>
    obtain rfl : t = u := hu
    rw [apply, wake_waitsFor, if_pos rfl]
  | kill t =>
    obtain rfl : t = u := hu
    rw [withdrawn_waitsFor (kill_tasks h.linked t) rfl, if_pos rfl]
  | park t =>
    obtain rfl : t = u := hu
    rw [withdrawn_waitsFor (park_tasks h.linked t) rfl, if_pos rfl]
  | _ => exact absurd hu id

/-- Mutexes which are waited for stay with their owners. -/
theorem Atom.waited_owner (a : Atom c) (h : Sound k) (hg : a.guard k) (ha : ¬ a.Relinks)
    {m : Place c} (hm : AvrOs.waitsFor k u = some m) : (a.apply k).owner m = k.owner m := by
  by_cases hown : ∃ m', a = .own m'
  · obtain ⟨m', rfl⟩ := hown
    rw [apply, osMutexOwn_eq]
    refine Function.update_of_ne ?_ ..
    rintro rfl
    exact h.owned.waiter m u (h.waitsFor_mem.mp hm) hg.1
  · rw [a.owner h hg (fun m' he => hown ⟨m', he⟩) fun t m' he => ha (by rw [he]; trivial)]

/-- Steps which have nothing to do with mutexes do not change who lends to whom. -/
theorem Atom.lends (a : Atom c) (h : Sound k) (hg : a.guard k) (ha : ¬ a.Relinks)
    (hu : ¬ a.Withdraws u) : lends (a.apply k) u = lends k u := by
  unfold AvrOs.lends
  rw [a.waitsFor h hg ha hu]
  cases hm : AvrOs.waitsFor k u with
  | none => rfl
  | some m => rw [Option.bind_some, Option.bind_some, a.waited_owner h hg ha hm]

theorem Atom.withdrawn_lends (a : Atom c) (h : Sound k) (hu : a.Withdraws u) :
    AvrOs.lends (a.apply k) u = none := by
  rw [AvrOs.lends, a.withdrawn h hu]
  split <;> rfl

/-- Nobody lends more by that. -/
theorem Atom.lends_sub (a : Atom c) (h : Sound k) (hg : a.guard k) (ha : ¬ a.Relinks)
    (hl : AvrOs.lends (a.apply k) t = some u) : AvrOs.lends k t = some u := by
  by_cases hw : a.Withdraws t
  · rw [a.withdrawn_lends h hw] at hl
    cases hl
  · rwa [a.lends h hg ha hw] at hl

/-- A task which falls asleep for a mutex lends to its owner. -/
theorem sleep_lends (k : ListKernel c) (call : Call c) (m : Place c) (timeout : OsTick c) :
    AvrOs.lends (k.sleep call (some (.mutex m)) timeout) =
      Function.update (AvrOs.lends k) k.currentTask (if c.mutexInheritance then k.owner m else none) := by
  funext u
  have hown : (k.sleep call (some (.mutex m)) timeout).owner = k.owner := by rw [sleep_eq]
  unfold AvrOs.lends
  rw [hown]
  by_cases hu : u = k.currentTask
  · subst hu
    have hm : waitsFor (k.sleep call (some (.mutex m)) timeout) k.currentTask = some m := by
      rw [waitsFor_iff, sleep_eq]
      dsimp only
      rw [Function.update_self, sleeper_waitList]
    rw [Function.update_self, hm, Option.bind_some]
  · have hs : waitsFor (k.sleep call (some (.mutex m)) timeout) u = waitsFor k u := by
      refine waitsFor_congr ?_
      rw [sleep_eq]
      dsimp only
      rw [Function.update_of_ne hu]
    rw [Function.update_of_ne hu, hs]

/-- Those who go on waiting for a mutex lend to whom it has been passed on. -/
theorem Sound.release_lends (h : Sound k) (t m u : Place c) :
    AvrOs.lends ((Atom.release t m).apply k) u =
      if waitsFor k u = some m then
        if (k.links (.wait (.mutex m))).head? = some u then none
        else if c.mutexInheritance then (k.links (.wait (.mutex m))).head? else none
      else AvrOs.lends k u := by
  rw [Atom.apply, release_eq]
  rcases pass_cases { k with ownedLinks := offOwned k t m } m with ⟨w, rest, hl, he⟩ | ⟨hl, he⟩
  · dsimp only at hl
    have hhead : (k.links (.wait (.mutex m))).head? = some w := by rw [hl]; rfl
    have hsame : ∀ v, waitsFor ({ k with ownedLinks := offOwned k t m }.osMutexOwn m w) v = waitsFor k v :=
      waitsFor_tasks (by rw [osMutexOwn_eq])
    have hwait := wake_waitsFor ({ k with ownedLinks := offOwned k t m }.osMutexOwn m w) w true u
    have hown : (({ k with ownedLinks := offOwned k t m }.osMutexOwn m w).osWake w true).owner =
        Function.update k.owner m (some w) := by rw [osWake_eq, osMutexOwn_eq]
    rw [he, AvrOs.lends, hwait, hown, hsame, hhead]
    by_cases hm : waitsFor k u = some m
    · rw [if_pos hm, hm]
      by_cases hu : u = w
      · subst hu
        rw [if_pos rfl, if_pos rfl, Option.bind_none, ite_self]
      · rw [if_neg hu, if_neg (fun hs => hu (Option.some.inj hs).symm), Option.bind_some,
          Function.update_self]
    · rw [if_neg hm, AvrOs.lends]
      have hu : u ≠ w := by
        rintro rfl
        exact hm (h.waitsFor_mem.mpr (by rw [hl]; simp))
      rw [if_neg hu]
      cases hm' : waitsFor k u with
      | none => rfl
      | some m' =>
        rw [Option.bind_some, Option.bind_some, Function.update_of_ne]
        rintro rfl
        exact hm hm'
  · dsimp only at hl
    have hm : waitsFor k u ≠ some m := fun hm => by
      have := h.waitsFor_mem.mp hm
      rw [hl] at this
      cases this
    rw [he, if_neg hm, AvrOs.lends, AvrOs.lends]
    have hs : waitsFor ({ k with ownedLinks := offOwned k t m }.setOwner m none) u = waitsFor k u := rfl
    rw [hs]
    cases hm' : waitsFor k u with
    | none => rfl
    | some m' =>
      rw [Option.bind_some, Option.bind_some]
      show (if _ then Function.update k.owner m none m' else none) = _
      rw [Function.update_of_ne]
      rintro rfl
      exact hm hm'

end AvrOs
