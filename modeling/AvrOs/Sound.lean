import AvrOs.Atoms

/-!
# The invariant of the kernel

`Sound` is what every elementary step preserves: tasks are where their state says
(`Linked`), there is always somebody to run (`Alive`), priorities stay within a byte
(`Bounded`) and mutexes know their owners and the other way round (`Owned`).
-/

namespace AvrOs
open Intrusive Kernel

variable {c : Config}

/-- The idle task is running or ready, nobody but the current task is running. -/
structure Alive (tasks : Place c → OsTask c) (current : Place c) : Prop where
  idle : (tasks osIdleTask).state &&& OS_TASK_STATE = OS_TASK_RUNNING ∨
    (tasks osIdleTask).state &&& OS_TASK_STATE = OS_TASK_READY
  running : ∀ t, (tasks t).state &&& OS_TASK_STATE = OS_TASK_RUNNING → t = current

/-- Priorities of tasks stay within 1..254. The idle task has 255 only as `main`, as long as
nobody else has ever run. -/
structure Bounded (tasks : Place c → OsTask c) (owner : Place c → Option (Place c)) : Prop where
  low : ∀ t, t ≠ osIdleTask → 1 ≤ (tasks t).priority ∧ 1 ≤ (tasks t).basePriority
  high : ∀ t, t ≠ osIdleTask → (tasks t).priority ≤ 254 ∧ (tasks t).basePriority ≤ 254
  idle : (tasks osIdleTask).priority ≤ 255 ∧ (tasks osIdleTask).basePriority ≤ 255
  base : (tasks osIdleTask).basePriority = 255 → (tasks osIdleTask).priority = 255
  main : (tasks osIdleTask).priority = 255 →
    (tasks osIdleTask).state &&& OS_TASK_STATE = OS_TASK_RUNNING ∧
    (∀ m t, owner m = some t → t = osIdleTask) ∧
    ∀ t, (tasks t).state &&& OS_TASK_STATE ≠ OS_TASK_BLOCKED

/-- The two records of who owns a mutex agree, and so do the two of who waits for one. -/
structure Owned (tasks : Place c → OsTask c) (links : Lists (ListId c) (Place c))
    (owner : Place c → Option (Place c)) (owned : Lists (Place c) (Place c)) : Prop where
  separate : Lists.Separate owned
  records : c.mutexInheritance = true → ∀ m t, m ∈ owned t ↔ owner m = some t
  off : c.mutexInheritance = false → ∀ t, owned t = []
  waiter : ∀ m t, t ∈ links (.wait (.mutex m)) → owner m ≠ none
  flag : ∀ t, (tasks t).state &&& OS_TASK_STATE = OS_TASK_BLOCKED →
    (OnMutex (tasks t) ↔ c.mutexInheritance = true ∧ ∃ m, (tasks t).waitList = some (.mutex m))
  flagged : ∀ t, OnMutex (tasks t) →
    (tasks t).state &&& OS_TASK_STATE = OS_TASK_BLOCKED ∨
    (tasks t).state &&& OS_TASK_STATE = OS_TASK_RUNNING

structure Sound (k : ListKernel c) : Prop where
  linked : Linked k
  alive : Alive k.tasks k.currentTask
  bounded : Bounded k.tasks k.owner
  owned : Owned k.tasks k.links k.owner k.ownedLinks

/-! ### One task changes -/

section
variable {tasks : Place c → OsTask c} {current : Place c} {links links' : Lists (ListId c) (Place c)}
  {owner : Place c → Option (Place c)} {owned : Lists (Place c) (Place c)} {t : Place c}
  {x : OsTask c}

theorem Alive.update (h : Alive tasks current)
    (hr : x.state &&& OS_TASK_STATE = OS_TASK_RUNNING → t = current)
    (hi : t = osIdleTask → x.state &&& OS_TASK_STATE = OS_TASK_RUNNING ∨
      x.state &&& OS_TASK_STATE = OS_TASK_READY) :
    Alive (Function.update tasks t x) current where
  idle := by
    by_cases ht : osIdleTask = t
    · subst ht; simpa using hi rfl
    · simpa [ht] using h.idle
  running u hu := by
    by_cases ht : u = t
    · subst ht; exact hr (by simpa using hu)
    · exact h.running u (by simpa [ht] using hu)

/-- The state of the task is the same and so is everything but its priorities. -/
theorem Alive.same (h : Alive tasks current) (hs : x.state = (tasks t).state) :
    Alive (Function.update tasks t x) current :=
  h.update (fun hx => h.running t (by rw [← hs]; exact hx))
    (fun ht => by rw [hs, ht]; exact h.idle)

theorem Bounded.update (h : Bounded tasks owner) (hp : x.priority = (tasks t).priority)
    (hb : x.basePriority = (tasks t).basePriority)
    (hm : (tasks osIdleTask).priority = 255 → x.state &&& OS_TASK_STATE ≠ OS_TASK_BLOCKED ∧
      (t = osIdleTask → x.state &&& OS_TASK_STATE = OS_TASK_RUNNING)) :
    Bounded (Function.update tasks t x) owner := by
  have hpr : ∀ u, (Function.update tasks t x u).priority = (tasks u).priority :=
    fun u => update_priority tasks t u x hp
  have hbs : ∀ u, (Function.update tasks t x u).basePriority = (tasks u).basePriority := by
    intro u
    by_cases hu : u = t
    · subst hu; simpa using hb
    · simp [hu]
  refine ⟨fun u hu => ?_, fun u hu => ?_, ?_, ?_, fun he => ?_⟩
  · rw [hpr, hbs]; exact h.low u hu
  · rw [hpr, hbs]; exact h.high u hu
  · rw [hpr, hbs]; exact h.idle
  · rw [hpr, hbs]; exact h.base
  · rw [hpr] at he
    obtain ⟨hi, ho, hbl⟩ := h.main he
    obtain ⟨hx, hxi⟩ := hm he
    refine ⟨?_, ho, fun u => ?_⟩
    · by_cases ht : osIdleTask = t
      · subst ht; simpa using hxi rfl
      · simpa [ht] using hi
    · by_cases hu : u = t
      · subst hu; simpa using hx
      · simpa [hu] using hbl u

/-- New priorities, the state stays. -/
theorem Bounded.reprioritise (h : Bounded tasks owner) (hs : x.state = (tasks t).state)
    (hl : t ≠ osIdleTask → 1 ≤ x.priority ∧ 1 ≤ x.basePriority)
    (hh : x.priority ≤ 254 ∧ x.basePriority ≤ 254 ∨ (t = osIdleTask ∧ x.priority = 255 ∧
      (tasks t).priority = 255 ∧ x.basePriority ≤ 255)) :
    Bounded (Function.update tasks t x) owner := by
  have hst : ∀ u, (Function.update tasks t x u).state = (tasks u).state := by
    intro u
    by_cases hu : u = t
    · subst hu; simpa using hs
    · simp [hu]
  refine ⟨fun u hu => ?_, fun u hu => ?_, ?_, ?_, fun he => ?_⟩
  · by_cases hut : u = t
    · subst hut; simpa using hl hu
    · simpa [hut] using h.low u hu
  · by_cases hut : u = t
    · subst hut
      rcases hh with hh | ⟨hh, _⟩
      · simpa using hh
      · exact absurd hh hu
    · simpa [hut] using h.high u hu
  · by_cases ht : osIdleTask = t
    · subst ht
      simp only [Function.update_self]
      omega
    · simpa [ht] using h.idle
  · by_cases ht : osIdleTask = t
    · subst ht
      simp only [Function.update_self]
      omega
    · simpa [ht] using h.base
  · have hold : (tasks osIdleTask).priority = 255 := by
      by_cases ht : osIdleTask = t
      · subst ht
        simp only [Function.update_self] at he
        omega
      · simpa [ht] using he
    obtain ⟨hi, ho, hbl⟩ := h.main hold
    refine ⟨by rw [hst]; exact hi, ho, fun u => by rw [hst]; exact hbl u⟩

theorem Owned.update (h : Owned tasks links owner owned)
    (hl : ∀ m u, u ∈ links' (.wait (.mutex m)) → u ∈ links (.wait (.mutex m)))
    (hb : x.state &&& OS_TASK_STATE ≠ OS_TASK_BLOCKED) (hf : ¬ OnMutex x) :
    Owned (Function.update tasks t x) links' owner owned where
  separate := h.separate
  records := h.records
  off := h.off
  waiter m u hu := h.waiter m u (hl m u hu)
  flag u hu := by
    by_cases hut : u = t
    · subst hut; exact absurd (by simpa using hu) hb
    · simp only [Function.update_of_ne hut] at hu ⊢
      exact h.flag u hu
  flagged u hu := by
    by_cases hut : u = t
    · subst hut; exact absurd (by simpa using hu) hf
    · simp only [Function.update_of_ne hut] at hu ⊢
      exact h.flagged u hu

theorem Owned.same (h : Owned tasks links owner owned)
    (hl : ∀ m u, u ∈ links' (.wait (.mutex m)) → u ∈ links (.wait (.mutex m)))
    (hs : x.state = (tasks t).state) (hw : x.waitList = (tasks t).waitList) :
    Owned (Function.update tasks t x) links' owner owned := by
  have hst : ∀ u, (Function.update tasks t x u).state = (tasks u).state := by
    intro u
    by_cases hu : u = t
    · subst hu; simpa using hs
    · simp [hu]
  have hwl : ∀ u, (Function.update tasks t x u).waitList = (tasks u).waitList := by
    intro u
    by_cases hu : u = t
    · subst hu; simpa using hw
    · simp [hu]
  refine ⟨h.separate, h.records, h.off, fun m u hu => h.waiter m u (hl m u hu), fun u hu => ?_,
    fun u hu => ?_⟩
  · rw [OnMutex, hst, hwl]
    exact h.flag u (by rw [← hst]; exact hu)
  · rw [hst]
    exact h.flagged u (by rw [OnMutex, ← hst]; exact hu)

theorem Owned.sublists (h : Owned tasks links owner owned)
    (hl : ∀ m u, u ∈ links' (.wait (.mutex m)) → u ∈ links (.wait (.mutex m))) :
    Owned tasks links' owner owned :=
  ⟨h.separate, h.records, h.off, fun m u hu => h.waiter m u (hl m u hu), h.flag, h.flagged⟩

end

/-! ### The functions of the scheduler -/

section
variable {k : ListKernel c} {t : Place c}

theorem offWait_sublist (k : ListKernel c) (t : Place c) (i : ListId c) :
    (k.offWait t i).Sublist (k.links i) := by
  unfold offWait
  cases (k.tasks t).waitList with
  | none => exact List.Sublist.refl _
  | some w => exact Lists.remove_sublist ..

theorem offWait_of_ne (k : ListKernel c) (t : Place c) (i : ListId c) (hi : ∀ w, i ≠ .wait w) :
    k.offWait t i = k.links i := by
  unfold offWait
  cases (k.tasks t).waitList with
  | none => rfl
  | some w => exact Lists.remove_of_ne _ _ _ _ (hi w)

theorem Linked.offWait_eq (h : Linked k) (hr : k.stateOf t ≠ OS_TASK_READY)
    (hd : k.stateOf t ≠ OS_TASK_DEAD) (i : ListId c) : k.offWait t i = (k.links i).erase t := by
  have hready : t ∉ k.links .ready := fun hm => hr ((h.2 t).ready.mp hm)
  unfold offWait
  cases hw : (k.tasks t).waitList with
  | none =>
    refine (List.erase_of_not_mem ?_).symm
    cases i with
    | ready => exact hready
    | dead => exact h.notDead hd
    | wait w =>
      rw [(h.2 t).wait w, hw]
      simp
  | some w =>
    by_cases hi : i = .wait w
    · subst hi
      exact Lists.remove_self ..
    · dsimp only
      rw [Lists.remove_of_ne _ _ _ _ hi, List.erase_of_not_mem]
      exact fun hm => hi (h.1.separate.disjoint _ _ t hm (((h.2 t).wait w).mpr hw))

theorem onReady_of_ne (k : ListKernel c) (links : Lists (ListId c) (Place c)) (t : Place c)
    (i : ListId c) (hi : i ≠ .ready) : k.onReady links t i = links i :=
  Lists.insert_of_ne _ _ _ _ _ hi

theorem wake_dead (k : ListKernel c) (t : Place c) (r : Bool) :
    (k.osWake t r).links .dead = k.links .dead := by
  rw [osWake_eq]
  dsimp only
  rw [onReady_of_ne _ _ _ _ (by simp), offWait_of_ne _ _ _ (by simp)]

theorem Sound.blocked_ne_idle (h : Sound k) (hs : k.stateOf t = OS_TASK_BLOCKED) :
    t ≠ osIdleTask := by
  rintro rfl
  have hs' : (k.tasks osIdleTask).state &&& OS_TASK_STATE = OS_TASK_BLOCKED := hs
  rcases h.alive.idle with hi | hi <;> rw [hs'] at hi <;> simp at hi

theorem Sound.waiter_blocked (h : Sound k) {w : WaitList c} (ht : t ∈ k.links (.wait w)) :
    k.stateOf t = OS_TASK_BLOCKED :=
  (h.linked.2 t).blocked w (((h.linked.2 t).wait w).mp ht)

theorem Sound.notMain (h : Sound k) (hs : k.stateOf t = OS_TASK_BLOCKED) :
    (k.tasks osIdleTask).priority ≠ 255 := fun he => (h.bounded.main he).2.2 t hs

/-- The invariant is about tasks, their lists and owners of mutexes only. -/
theorem Sound.congr {k' : ListKernel c} (h : Sound k) (ht : k'.tasks = k.tasks)
    (hl : k'.links = k.links) (hm : k'.timerLinks = k.timerLinks)
    (hc : k'.currentTask = k.currentTask) (ho : k'.owner = k.owner)
    (hw : k'.ownedLinks = k.ownedLinks) : Sound k' := by
  refine ⟨?_, ?_, ?_, ?_⟩
  · rw [Linked, ht, hl, hm]; exact h.linked
  · rw [ht, hc]; exact h.alive
  · rw [ht, ho]; exact h.bounded
  · rw [ht, hl, ho, hw]; exact h.owned

theorem osWake_sound (h : Sound k) (r : Bool) (hs : k.stateOf t = OS_TASK_BLOCKED) :
    Sound (k.osWake t r) := by
  have hl := osWake_linked h.linked r hs
  rw [osWake_eq] at hl ⊢
  refine ⟨hl, h.alive.update (by simp) (by simp), h.bounded.update rfl rfl fun he =>
    absurd he (h.notMain hs), h.owned.update (fun m u hu => ?_) (by simp) (by simp [OnMutex])⟩
  rw [onReady, Lists.mem_insert] at hu
  rcases hu with ⟨he, _⟩ | hu
  · cases he
  · exact (offWait_sublist k t _).subset hu

theorem osDispatch_sound (h : Sound k) (hs : k.stateOf k.currentTask ≠ OS_TASK_RUNNING) :
    Sound k.osDispatch ∧ ∃ n, (k.links .ready).head? = some n := by
  have hidle : k.stateOf osIdleTask = OS_TASK_READY := by
    rcases h.alive.idle with hi | hi
    · exact absurd (h.alive.running _ hi ▸ hi) hs
    · exact hi
  have hmem : osIdleTask ∈ k.links .ready := (h.linked.2 _).ready.mpr hidle
  obtain ⟨n, as, hn⟩ := List.exists_cons_of_ne_nil (List.ne_nil_of_mem hmem)
  have hh : (k.links .ready).head? = some n := by rw [hn]; rfl
  refine ⟨?_, n, hh⟩
  have hnr : k.stateOf n = OS_TASK_READY :=
    (h.linked.2 n).ready.mp (by rw [hn]; exact List.mem_cons_self ..)
  have hl := osDispatch_linked h.linked n hh
  have hmain : (k.tasks osIdleTask).priority ≠ 255 := fun he => by
    have hi := (h.bounded.main he).1
    rw [stateOf] at hidle
    rw [hidle] at hi
    simp at hi
  rw [osDispatch_eq k n hh] at hl ⊢
  refine ⟨hl, ⟨?_, fun u hu => ?_⟩, h.bounded.update rfl rfl fun he => absurd he hmain, ?_⟩
  · by_cases hni : osIdleTask = n
    · subst hni; simp
    · have hi : (k.tasks osIdleTask).state &&& OS_TASK_STATE = OS_TASK_READY := hidle
      simp [hni, hi]
  · by_cases hun : u = n
    · exact hun
    · simp only [Function.update_of_ne hun] at hu
      exact absurd (h.alive.running u hu ▸ hu) hs
  · have hsub : ∀ m u, u ∈ Lists.pop k.links .ready (.wait (.mutex m)) →
        u ∈ k.links (.wait (.mutex m)) := by
      intro m u hu
      rwa [Lists.pop_of_ne _ _ _ (by simp)] at hu
    exact h.owned.update hsub (by simp) (by simp [OnMutex])

/-- The idle task is the running one as long as it is `main`. -/
theorem Sound.main (h : Sound k) (he : (k.tasks osIdleTask).priority = 255) :
    osIdleTask = k.currentTask := h.alive.running _ (h.bounded.main he).1

theorem Sound.notMain_of_ready (h : Sound k) (hs : k.stateOf osIdleTask = OS_TASK_READY) :
    (k.tasks osIdleTask).priority ≠ 255 := fun he => by
  have hi := (h.bounded.main he).1
  rw [stateOf] at hs
  rw [hs] at hi
  simp at hi

/-- A new control block for the running task. -/
theorem setTask_sound (h : Sound k) (hs : k.stateOf t = OS_TASK_RUNNING) (x : OsTask c)
    (hx : x.state &&& OS_TASK_STATE = OS_TASK_RUNNING) (ht : ¬ Timed x)
    (hw : x.waitList = none) (hb : Bounded (Function.update k.tasks t x) k.owner) :
    Sound (k.setTask t x) := by
  refine ⟨setTask_running h.linked hs x hx ht hw, h.alive.update (fun _ => h.alive.running t hs)
    (fun _ => Or.inl hx), hb, ?_⟩
  refine ⟨h.owned.separate, h.owned.records, h.owned.off, h.owned.waiter, fun u hu => ?_,
    fun u hu => ?_⟩
  · by_cases hut : u = t
    · subst hut
      simp only [setTask, Function.update_self] at hu
      rw [hx] at hu
      simp at hu
    · simp only [setTask, Function.update_of_ne hut] at hu ⊢
      exact h.owned.flag u hu
  · by_cases hut : u = t
    · subst hut
      simp only [setTask, Function.update_self]
      exact Or.inr hx
    · simp only [setTask, Function.update_of_ne hut] at hu ⊢
      exact h.owned.flagged u hu

/-- Another state of the running task, flags included. -/
theorem setState_sound (h : Sound k) (hs : k.stateOf t = OS_TASK_RUNNING) (s : Byte)
    (hx : s &&& OS_TASK_STATE = OS_TASK_RUNNING) (ht : s &&& OS_TASK_TIMED = 0) :
    Sound (k.setState t s) :=
  setTask_sound h hs _ hx (by simpa [Timed] using ht) (h.linked.running hs).2.1.wait
    (h.bounded.update rfl rfl fun _ => ⟨by rw [hx]; simp, fun _ => hx⟩)

/-- The priority inherited is the one of the task itself or of a waiter. -/
theorem inherited_cases (k : ListKernel c) (t : Place c) :
    k.osInheritedPriority t = (k.tasks t).basePriority ∨
      ∃ m u, u ∈ k.links (.wait (.mutex m)) ∧ k.osInheritedPriority t = k.priority u := by
  have hfold : ∀ (l : List (Place c)) (p : ℕ), l.foldl k.inherit p = p ∨
      ∃ m u, u ∈ k.links (.wait (.mutex m)) ∧ l.foldl k.inherit p = k.priority u := by
    intro l
    induction l with
    | nil => exact fun p => Or.inl rfl
    | cons m l ih =>
      intro p
      rcases ih (k.inherit p m) with he | he
      · rw [List.foldl_cons, he]
        unfold inherit
        rw [head_lists]
        cases hh : (k.links (.wait (.mutex m))).head? with
        | none => exact Or.inl rfl
        | some u =>
          dsimp only
          split
          · exact Or.inr ⟨m, u, List.mem_of_mem_head? hh, rfl⟩
          · exact Or.inl rfl
      · exact Or.inr he
  unfold osInheritedPriority
  split
  · exact hfold _ _
  · exact Or.inl rfl

theorem inherited_ge_base (k : ListKernel c) (t : Place c) :
    (k.tasks t).basePriority ≤ k.osInheritedPriority t := by
  have hfold : ∀ (l : List (Place c)) (p : ℕ), p ≤ l.foldl k.inherit p := by
    intro l
    induction l with
    | nil => exact fun p => le_rfl
    | cons m l ih =>
      intro p
      refine le_trans ?_ (ih (k.inherit p m))
      unfold inherit
      split
      · split <;> omega
      · exact le_rfl
  unfold osInheritedPriority
  split
  · exact hfold _ _
  · exact le_rfl

theorem Sound.waiter_ne_idle (h : Sound k) {w : WaitList c} (ht : t ∈ k.links (.wait w)) :
    t ≠ osIdleTask := h.blocked_ne_idle (h.waiter_blocked ht)

/-- Settling the priority of a task keeps it within its bounds. -/
theorem Sound.inherited_bound (h : Sound k) (t : Place c) :
    k.osInheritedPriority t ≤ 254 ∨ (t = osIdleTask ∧ k.osInheritedPriority t = 255 ∧
      (k.tasks t).priority = 255 ∧ (k.tasks t).basePriority = 255) := by
  have hbase : (k.tasks t).basePriority ≤ 254 ∨ (t = osIdleTask ∧ (k.tasks t).basePriority = 255) := by
    by_cases ht : t = osIdleTask
    · have hi := h.bounded.idle
      subst ht
      rcases Nat.lt_or_ge (k.tasks osIdleTask).basePriority 255 with hlt | hge
      · exact Or.inl (by omega)
      · exact Or.inr ⟨rfl, by omega⟩
    · exact Or.inl (h.bounded.high t ht).2
  rcases inherited_cases k t with he | ⟨m, u, hu, he⟩
  · rcases hbase with hb | ⟨rfl, hb⟩
    · exact Or.inl (by omega)
    · exact Or.inr ⟨rfl, by omega, h.bounded.base hb, hb⟩
  · have hhigh := (h.bounded.high u (h.waiter_ne_idle hu)).1
    rw [priority] at he
    exact Or.inl (by omega)

/-! ### One step -/

theorem settle_sound (h : Sound k) (hs : k.stateOf k.currentTask = OS_TASK_RUNNING) :
    Sound (k.setPriority k.currentTask (k.osInheritedPriority k.currentTask)) := by
  have hge := inherited_ge_base k k.currentTask
  have hb : k.currentTask ≠ osIdleTask → 1 ≤ k.osInheritedPriority k.currentTask ∧
      1 ≤ (k.tasks k.currentTask).basePriority := fun hi =>
    ⟨le_trans (h.bounded.low _ hi).2 hge, (h.bounded.low _ hi).2⟩
  refine setTask_sound h hs _ hs (h.linked.notTimed (by rw [hs]; simp))
    (h.linked.running hs).2.1.wait (h.bounded.reprioritise rfl hb ?_)
  rcases h.inherited_bound k.currentTask with hlt | ⟨hi, he, hp, hbp⟩
  · exact Or.inl ⟨hlt, le_trans hge hlt⟩
  · exact Or.inr ⟨hi, he, hp, le_of_eq hbp⟩

theorem requeue_sound (h : Sound k) (t : Place c) (p : ℕ) (hlo : t ≠ osIdleTask → 1 ≤ p)
    (hhi : p ≤ 254) (hb : t = osIdleTask → (k.tasks t).basePriority ≠ 255) :
    Sound ((k.setPriority t p).osRequeue t) := by
  have hl := requeue_linked h.linked t p
  have hx : ∀ l : ListKernel c, (l.osRequeue t).currentTask = l.currentTask ∧
      (l.osRequeue t).owner = l.owner ∧ (l.osRequeue t).ownedLinks = l.ownedLinks := by
    intro l
    unfold osRequeue
    split <;> exact ⟨rfl, rfl, rfl⟩
  obtain ⟨hc, ho, hw⟩ := hx (k.setPriority t p)
  have hbase : (k.tasks t).basePriority ≤ 254 := by
    by_cases ht : t = osIdleTask
    · have := hb ht
      have := h.bounded.idle
      subst ht
      omega
    · exact (h.bounded.high t ht).2
  refine ⟨hl, ?_, ?_, ?_⟩
  · rw [requeue_tasks, hc]
    exact h.alive.same rfl
  · rw [requeue_tasks, ho]
    exact h.bounded.reprioritise rfl (fun ht => ⟨hlo ht, (h.bounded.low t ht).2⟩)
      (Or.inl ⟨hhi, hbase⟩)
  · rw [requeue_tasks, ho, hw]
    exact h.owned.same (fun m u hu => (requeue_mem h.linked p _ u).mp hu) rfl rfl

theorem setBase_sound (h : Sound k) (t : Place c) (p : ℕ) (hlo : 1 ≤ p) (hhi : p ≤ 254) :
    Sound (k.setTask t { k.tasks t with basePriority := p }) := by
  refine ⟨setTask_linked h.linked _ rfl rfl rfl, h.alive.same rfl, ?_,
    h.owned.same (fun _ _ hu => hu) rfl rfl⟩
  refine h.bounded.reprioritise rfl (fun ht => ⟨(h.bounded.low t ht).1, hlo⟩) ?_
  by_cases ht : t = osIdleTask
  · have hi := h.bounded.idle
    by_cases he : (k.tasks t).priority = 255
    · exact Or.inr ⟨ht, he, he, le_trans hhi (by omega)⟩
    · subst ht
      exact Or.inl ⟨by dsimp only; omega, hhi⟩
  · exact Or.inl ⟨(h.bounded.high t ht).1, hhi⟩

theorem preempt_sound (h : Sound k) (key : ℕ) (hs : k.stateOf k.currentTask = OS_TASK_RUNNING)
    (hlo : k.priority k.currentTask ≤ key) (hhi : key ≤ k.priority k.currentTask + 1)
    (hp : k.priority k.currentTask ≤ 254) :
    Sound ((k.setState k.currentTask OS_TASK_READY).osListInsert .ready k.currentTask key) := by
  have hl := insertReady_linked (h.linked.running hs) key hlo hhi
  have hmain : (k.tasks osIdleTask).priority ≠ 255 := fun he => by
    have hi := h.main he
    rw [← hi, priority] at hp
    omega
  refine ⟨hl, h.alive.update (by simp) (by simp),
    h.bounded.update rfl rfl fun he => absurd he hmain,
    h.owned.update (fun m u hu => ?_) (by simp) (by simp [OnMutex])⟩
  simpa [osListInsert, setState, setTask, Lists.mem_insert] using hu

theorem sleep_sound (h : Sound k) (call : Call c) (list : Option (WaitList c)) (timeout : OsTick c)
    (hi : k.currentTask ≠ osIdleTask) (hs : k.stateOf k.currentTask = OS_TASK_RUNNING)
    (hf : OnMutex (k.tasks k.currentTask) ↔
      c.mutexInheritance = true ∧ ∃ m, list = some (.mutex m))
    (ho : ∀ m, list = some (.mutex m) → k.owner m ≠ none) :
    Sound (k.sleep call list timeout) := by
  have hl := sleep_linked h.linked call list timeout hs
  have hkind := sleeper_kind k list timeout hs
  have hmain : (k.tasks osIdleTask).priority ≠ 255 := fun he => hi (h.main he).symm
  rw [sleep_eq] at hl ⊢
  refine ⟨hl, h.alive.update (by rw [hkind]; simp) fun he => absurd he hi,
    h.bounded.update (sleeper_priority ..) (by unfold sleeper; dsimp only; split <;> rfl)
      fun he => absurd he hmain,
    ⟨h.owned.separate, h.owned.records, h.owned.off, fun m u hu => ?_, fun u hu => ?_,
      fun u hu => ?_⟩⟩
  · have hu' : u ∈ k.onWait list (.wait (.mutex m)) := hu
    unfold onWait at hu'
    cases list with
    | none => exact h.owned.waiter m u hu'
    | some w =>
      rcases (Lists.mem_insert ..).mp hu' with ⟨he, -⟩ | hu'
      · injection he with he
        exact ho m (by rw [← he])
      · exact h.owned.waiter m u hu'
  · by_cases hut : u = k.currentTask
    · subst hut
      simp only [Function.update_self]
      rw [sleeper_mutex, sleeper_waitList]
      exact hf
    · simp only [Function.update_of_ne hut] at hu ⊢
      exact h.owned.flag u hu
  · by_cases hut : u = k.currentTask
    · subst hut
      simp only [Function.update_self]
      exact Or.inl hkind
    · simp only [Function.update_of_ne hut] at hu ⊢
      exact h.owned.flagged u hu

theorem Linked.detach_eq (h : Linked k) (hd : k.stateOf t ≠ OS_TASK_DEAD) (i : ListId c) :
    (k.osTaskDetach t).links i = (k.links i).erase t := by
  unfold osTaskDetach
  by_cases hr : k.stateOf t = OS_TASK_READY
  · rw [if_pos hr]
    show Lists.remove k.links .ready t i = _
    by_cases hi : i = .ready
    · subst hi
      exact Lists.remove_self ..
    · rw [Lists.remove_of_ne _ _ _ _ hi, List.erase_of_not_mem]
      exact fun hm => hi (h.1.separate.disjoint _ _ t hm ((h.2 t).ready.mpr hr))
  · rw [if_neg hr, osUnblock_eq]
    exact h.offWait_eq hr hd i

theorem detach_sublist (k : ListKernel c) (t : Place c) (i : ListId c) :
    ((k.osTaskDetach t).links i).Sublist (k.links i) := by
  unfold osTaskDetach
  by_cases hr : k.stateOf t = OS_TASK_READY
  · rw [if_pos hr]
    exact Lists.remove_sublist ..
  · rw [if_neg hr, osUnblock_eq]
    exact offWait_sublist k t i

theorem detach_frame (k : ListKernel c) (t : Place c) :
    (k.osTaskDetach t).currentTask = k.currentTask ∧ (k.osTaskDetach t).owner = k.owner ∧
      (k.osTaskDetach t).ownedLinks = k.ownedLinks := by
  unfold osTaskDetach
  by_cases hr : k.stateOf t = OS_TASK_READY
  · rw [if_pos hr]
    exact ⟨rfl, rfl, rfl⟩
  · rw [if_neg hr, osUnblock_eq]
    exact ⟨rfl, rfl, rfl⟩

/-- A task taken off its list waits for nothing. -/
theorem detach_task (h : Linked k) (t : Place c) :
    (k.osTaskDetach t).tasks = Function.update k.tasks t { k.tasks t with waitList := none } := by
  unfold osTaskDetach
  by_cases hr : k.stateOf t = OS_TASK_READY
  · rw [if_pos hr]
    have hw : (k.tasks t).waitList = none := by
      cases hw : (k.tasks t).waitList with
      | none => rfl
      | some w =>
        have hb := (h.2 t).blocked w hw
        rw [stateOf, hb] at hr
        simp at hr
    have he : { k.tasks t with waitList := none } = k.tasks t := by rw [← hw]
    rw [he, Function.update_eq_self]
    rfl
  · rw [if_neg hr, osUnblock_eq]

theorem park_tasks (h : Linked k) (t : Place c) : ((Atom.park t).apply k).tasks =
    Function.update k.tasks t { k.tasks t with
      waitList := none, result := false, state := OS_TASK_SUSPENDED } := by
  simp only [Atom.apply, emit, setState, setResult, setTask, detach_task h, Function.update_self,
    Function.update_idem]

theorem kill_tasks (h : Linked k) (t : Place c) : ((Atom.kill t).apply k).tasks =
    Function.update k.tasks t { k.tasks t with waitList := none, state := OS_TASK_DEAD } := by
  simp only [Atom.apply, emit, setFrame, setState, setTask, detach_task h, Function.update_self,
    Function.update_idem]

/-- The state of a task taken off its list, be it for good or for some time. -/
theorem detached_sound (h : Sound k) (ht : t ≠ osIdleTask) (hd : k.stateOf t ≠ OS_TASK_DEAD)
    (x : OsTask c) (hp : x.priority = (k.tasks t).priority)
    (hb : x.basePriority = (k.tasks t).basePriority) (hw : x.waitList = none)
    (hs : x.state = OS_TASK_SUSPENDED ∨ x.state = OS_TASK_DEAD) :
    Sound ((k.osTaskDetach t).setTask t x) := by
  have hl := setTask_loose (osTaskDetach_loose h.linked hd) x hw
  have htasks : ((k.osTaskDetach t).setTask t x).tasks = Function.update k.tasks t x := by
    unfold osTaskDetach
    split
    · rfl
    · rw [osUnblock_eq]
      exact Function.update_idem ..
  obtain ⟨hc, ho, hol⟩ := detach_frame k t
  have hkind : x.state &&& OS_TASK_STATE ≠ OS_TASK_READY ∧
      x.state &&& OS_TASK_STATE ≠ OS_TASK_BLOCKED ∧
      x.state &&& OS_TASK_STATE ≠ OS_TASK_RUNNING ∧ ¬ Timed x ∧ ¬ OnMutex x := by
    unfold Timed OnMutex
    rcases hs with he | he <;> rw [he] <;> simp
  obtain ⟨hr, hbl, hru, htm, hom⟩ := hkind
  refine ⟨hl.linked ?_ ?_, ?_, ?_, ?_⟩
  · rw [stateOf, htasks, Function.update_self]
    exact hr
  · rw [htasks, Function.update_self]
    exact htm
  · rw [htasks]
    show Alive _ (k.osTaskDetach t).currentTask
    rw [hc]
    exact h.alive.update (fun he => absurd he hru) fun he => absurd he ht
  · rw [htasks]
    show Bounded _ (k.osTaskDetach t).owner
    rw [ho]
    exact h.bounded.update hp hb fun _ => ⟨hbl, fun he => absurd he ht⟩
  · rw [htasks]
    show Owned _ (k.osTaskDetach t).links (k.osTaskDetach t).owner (k.osTaskDetach t).ownedLinks
    rw [ho, hol]
    exact h.owned.update (fun m u hu => (detach_sublist k t _).subset hu) hbl hom

theorem unpark_sound (h : Sound k) (hs : k.stateOf t = OS_TASK_SUSPENDED) :
    Sound (k.osReady t) := by
  have hl : Linked (k.osReady t) := osReady_linked
    (h.linked.loose (by rw [hs]; simp) (by rw [hs]; simp) (h.linked.notDead (by rw [hs]; simp)))
  rw [osReady_eq] at hl ⊢
  refine ⟨hl, h.alive.update (by simp) (by simp), h.bounded.update rfl rfl fun he => ?_,
    h.owned.update (fun m u hu => ?_) (by simp) (by simp [OnMutex])⟩
  · refine ⟨by simp, fun hi => ?_⟩
    have hi' := (h.bounded.main he).1
    rw [← hi] at hi'
    rw [stateOf, hi'] at hs
    simp at hs
  · simpa [onReady, Lists.mem_insert] using hu

theorem osTaskPriority_bounds (p : ℕ) : 1 ≤ osTaskPriority p ∧ osTaskPriority p ≤ 254 := by
  unfold osTaskPriority OS_PRIORITY_MIN OS_PRIORITY_MAX
  split
  · omega
  · split <;> omega

theorem create_sound (h : Sound k) (p : ℕ) (d : Bool) (hs : k.stateOf t = OS_TASK_DEAD)
    (hd : t ∉ k.links .dead) (ho : c.mutexInheritance = true → ∀ m, k.owner m ≠ some t) :
    Sound (k.osTaskSetup t p d) := by
  have hti : t ≠ osIdleTask := by
    rintro rfl
    rw [stateOf] at hs
    rcases h.alive.idle with hi | hi <;> rw [hs] at hi <;> simp at hi
  have hlink : Linked (((k.setTask t (newTask c p d)).osReady t)) := osReady_linked
    (setTask_loose (h.linked.loose (by rw [hs]; simp) (by rw [hs]; simp) hd) _ rfl)
  have hempty : k.ownedLinks t = [] := by
    cases hinh : c.mutexInheritance with
    | false => exact h.owned.off hinh t
    | true =>
      refine List.eq_nil_iff_forall_not_mem.mpr fun m hm => ?_
      exact ho hinh m ((h.owned.records hinh m t).mp hm)
  have hclear : Lists.clear k.ownedLinks t = k.ownedLinks := by
    unfold Lists.clear
    rw [← hempty]
    exact Function.update_eq_self ..
  have hsound : Sound ((k.setTask t (newTask c p d)).osReady t) := by
    have hx := osTaskPriority_bounds p
    have hb : Bounded (Function.update k.tasks t { newTask c p d with state := OS_TASK_READY })
        k.owner := by
      refine ⟨fun u hu => ?_, fun u hu => ?_, ?_, ?_, fun he => ?_⟩
      · by_cases hut : u = t
        · subst hut; simpa [newTask] using hx.1
        · simpa [hut] using h.bounded.low u hu
      · by_cases hut : u = t
        · subst hut; simpa [newTask] using hx.2
        · simpa [hut] using h.bounded.high u hu
      · simpa [hti.symm] using h.bounded.idle
      · simpa [hti.symm] using h.bounded.base
      · obtain ⟨hi, hown, hbl⟩ := h.bounded.main (by simpa [hti.symm] using he)
        refine ⟨by simpa [hti.symm] using hi, hown, fun u => ?_⟩
        by_cases hut : u = t
        · subst hut; simp
        · simpa [hut] using hbl u
    rw [osReady_eq] at hlink ⊢
    simp only [setTask, Function.update_self, Function.update_idem] at hlink ⊢
    refine ⟨hlink, h.alive.update (by simp) (by simp), hb,
      h.owned.update (fun m u hu => ?_) (by simp) (by simp [OnMutex])⟩
    simpa [onReady, Lists.mem_insert] using hu
  refine hsound.congr ?_ ?_ ?_ rfl rfl ?_
  · rfl
  · rfl
  · rfl
  · exact hclear

/-- Owners change, and the record of what they own with them. -/
theorem owners_sound (h : Sound k) (owner : Place c → Option (Place c))
    (owned : Lists (Place c) (Place c)) (hsep : Lists.Separate owned)
    (hrec : c.mutexInheritance = true → ∀ m t, m ∈ owned t ↔ owner m = some t)
    (hoff : c.mutexInheritance = false → ∀ t, owned t = [])
    (hwait : ∀ m u, u ∈ k.links (.wait (.mutex m)) → owner m ≠ none)
    (hmain : (k.tasks osIdleTask).priority = 255 → ∀ m t, owner m = some t → t = osIdleTask) :
    Sound { k with owner := owner, ownedLinks := owned } :=
  ⟨h.linked, h.alive,
    ⟨h.bounded.low, h.bounded.high, h.bounded.idle, h.bounded.base, fun he =>
      ⟨(h.bounded.main he).1, hmain he, (h.bounded.main he).2.2⟩⟩,
    ⟨hsep, hrec, hoff, hwait, h.owned.flag, h.owned.flagged⟩⟩

theorem osMutexOwn_eq (k : ListKernel c) (m t : Place c) : k.osMutexOwn m t =
    { k with
      owner := Function.update k.owner m (some t)
      ownedLinks := if c.mutexInheritance then Lists.push k.ownedLinks t m else k.ownedLinks } := by
  unfold osMutexOwn
  split <;> rfl

theorem own_sound (h : Sound k) (m : Place c) (ho : k.owner m = none) :
    Sound (k.osMutexOwn m k.currentTask) := by
  rw [osMutexOwn_eq]
  refine owners_sound h _ _ ?_ (fun hinh m' u => ?_) (fun hinh u => ?_) (fun m' u hu => ?_)
    (fun he m' t hm => ?_)
  · split
    case isTrue hinh =>
      refine Lists.separate_push _ _ _ h.owned.separate fun u hu => ?_
      rw [h.owned.records hinh, ho] at hu
      cases hu
    case isFalse => exact h.owned.separate
  · rw [if_pos hinh, Lists.mem_push, h.owned.records hinh]
    by_cases hmm : m' = m
    · subst hmm
      simp [ho, eq_comm]
    · simp [hmm]
  · rw [if_neg (by rw [hinh]; simp)]
    exact h.owned.off hinh u
  · by_cases hmm : m' = m
    · subst hmm; simp
    · rw [Function.update_of_ne hmm]
      exact h.owned.waiter m' u hu
  · by_cases hmm : m' = m
    · subst hmm
      simp only [Function.update_self, Option.some.injEq] at hm
      rw [← hm]
      exact (h.main he).symm
    · rw [Function.update_of_ne hmm] at hm
      exact (h.bounded.main he).2.1 m' t hm

/-- The mutexes `t` owns once `m` is off the list. -/
def offOwned (k : ListKernel c) (t m : Place c) : Lists (Place c) (Place c) :=
  if c.mutexInheritance then Lists.remove k.ownedLinks t m else k.ownedLinks

theorem Sound.mem_offOwned (h : Sound k) (hinh : c.mutexInheritance = true) (m : Place c)
    (ho : k.owner m = some t) (u m' : Place c) :
    m' ∈ offOwned k t m u ↔ m' ≠ m ∧ k.owner m' = some u := by
  rw [offOwned, if_pos hinh, Lists.mem_remove _ _ _ _ _ h.owned.separate, h.owned.records hinh]
  by_cases hmm : m' = m
  · subst hmm
    simp only [ho, Option.some.injEq, ne_eq, not_true_eq_false, false_and, iff_false]
    grind
  · simp [hmm]

theorem Sound.separate_offOwned (h : Sound k) (t m : Place c) :
    Lists.Separate (offOwned k t m) := by
  unfold offOwned
  split
  · exact Lists.separate_remove _ _ _ h.owned.separate
  · exact h.owned.separate

/-- The mutex is handed over to the waiter, who is woken up afterwards. -/
theorem pass_sound (h : Sound k) (m w : Place c) (ho : k.owner m = some t)
    (hw : w ∈ k.links (.wait (.mutex m))) :
    Sound ({ k with ownedLinks := offOwned k t m }.osMutexOwn m w) := by
  rw [osMutexOwn_eq]
  refine owners_sound h _ _ ?_ (fun hinh m' u => ?_) (fun hinh u => ?_) (fun m' u hu => ?_)
    (fun he m' t hm => absurd he (h.notMain (h.waiter_blocked hw)))
  · split
    case isTrue hinh =>
      refine Lists.separate_push _ _ _ (h.separate_offOwned t m) fun u hu => ?_
      exact ((h.mem_offOwned hinh m ho u m).mp hu).1 rfl
    case isFalse => exact h.separate_offOwned t m
  · dsimp only
    rw [if_pos hinh, Lists.mem_push, h.mem_offOwned hinh m ho]
    by_cases hmm : m' = m
    · subst hmm
      simp [eq_comm]
    · simp [hmm]
  · rw [if_neg (by rw [hinh]; simp)]
    show offOwned k t m u = []
    rw [offOwned, if_neg (by rw [hinh]; simp)]
    exact h.owned.off hinh u
  · by_cases hmm : m' = m
    · subst hmm; simp
    · rw [Function.update_of_ne hmm]
      exact h.owned.waiter m' u hu

/-- Nobody waits for the mutex, so nobody owns it anymore. -/
theorem free_sound (h : Sound k) (m : Place c) (ho : k.owner m = some t)
    (hw : k.links (.wait (.mutex m)) = []) :
    Sound ({ k with ownedLinks := offOwned k t m }.setOwner m none) := by
  refine owners_sound h _ _ (h.separate_offOwned t m) (fun hinh m' u => ?_) (fun hinh u => ?_)
    (fun m' u hu => ?_) (fun he m' t hm => ?_)
  · rw [h.mem_offOwned hinh m ho]
    by_cases hmm : m' = m
    · subst hmm; simp
    · simp [hmm]
  · rw [offOwned, if_neg (by rw [hinh]; simp)]
    exact h.owned.off hinh u
  · by_cases hmm : m' = m
    · subst hmm
      rw [hw] at hu
      cases hu
    · dsimp only
      rw [Function.update_of_ne hmm]
      exact h.owned.waiter m' u hu
  · by_cases hmm : m' = m
    · subst hmm; simp at hm
    · rw [Function.update_of_ne hmm] at hm
      exact (h.bounded.main he).2.1 m' t hm

theorem release_eq (k : ListKernel c) (t m : Place c) :
    (if c.mutexInheritance then { k with ownedLinks := Lists.remove k.ownedLinks t m } else k) =
      { k with ownedLinks := offOwned k t m } := by
  unfold offOwned
  split <;> rfl

theorem release_sound (h : Sound k) (m : Place c) (ho : k.owner m = some t) :
    Sound ({ k with ownedLinks := offOwned k t m }.osMutexPass m) := by
  rcases pass_cases { k with ownedLinks := offOwned k t m } m with ⟨w, rest, hl, he⟩ | ⟨hl, he⟩
  · have hw : w ∈ k.links (.wait (.mutex m)) := by
      change k.links _ = _ at hl
      rw [hl]
      simp
    rw [he]
    refine osWake_sound (pass_sound h m w ho hw) true ?_
    rw [osMutexOwn_eq]
    exact h.waiter_blocked hw
  · rw [he]
    exact free_sound h m ho hl

theorem age_sound (h : Sound k) (current : ℕ) :
    Sound ((k.links .ready).foldl (osAgeTask current) k) := by
  have hl := age_linked h.linked current
  have haged := fun p => aged_bound (c := c) current p
  rw [age_fold k current _ (h.linked.1.separate.nodup .ready)] at hl ⊢
  have hst : ∀ u, (if u ∈ k.links .ready then
      { k.tasks u with priority := aged c current (k.priority u) } else k.tasks u).state =
      (k.tasks u).state := by
    intro u; split <;> rfl
  have hbs : ∀ u, (if u ∈ k.links .ready then
      { k.tasks u with priority := aged c current (k.priority u) } else k.tasks u).basePriority =
      (k.tasks u).basePriority := by
    intro u; split <;> rfl
  have hwl : ∀ u, (if u ∈ k.links .ready then
      { k.tasks u with priority := aged c current (k.priority u) } else k.tasks u).waitList =
      (k.tasks u).waitList := by
    intro u; split <;> rfl
  have hidle : osIdleTask ∈ k.links .ready → (k.tasks osIdleTask).priority ≠ 255 := fun hm =>
    h.notMain_of_ready ((h.linked.2 _).ready.mp hm)
  have hprio : (if osIdleTask ∈ k.links .ready then
      { k.tasks osIdleTask with priority := aged c current (k.priority osIdleTask) }
      else k.tasks osIdleTask).priority = 255 ↔ (k.tasks osIdleTask).priority = 255 := by
    by_cases hm : osIdleTask ∈ k.links .ready
    · have hne := hidle hm
      have hle := h.bounded.idle.1
      have := (haged (k.tasks osIdleTask).priority).2 (by omega)
      simp only [if_pos hm, priority]
      omega
    · simp only [if_neg hm]
  refine ⟨hl, ⟨?_, fun u hu => h.alive.running u (by rw [← hst]; exact hu)⟩,
    ⟨fun u hu => ?_, fun u hu => ?_, ?_, fun he => ?_, fun he => ?_⟩,
    ⟨h.owned.separate, h.owned.records, h.owned.off, h.owned.waiter, fun u hu => ?_,
      fun u hu => ?_⟩⟩
  · simp only [hst]
    exact h.alive.idle
  · refine ⟨?_, by simp only [hbs]; exact (h.bounded.low u hu).2⟩
    dsimp only
    split
    · exact le_trans (h.bounded.low u hu).1 (haged _).1
    · exact (h.bounded.low u hu).1
  · refine ⟨?_, by simp only [hbs]; exact (h.bounded.high u hu).2⟩
    dsimp only
    split
    · exact (haged _).2 (h.bounded.high u hu).1
    · exact (h.bounded.high u hu).1
  · refine ⟨?_, by simp only [hbs]; exact h.bounded.idle.2⟩
    by_cases he : (k.tasks osIdleTask).priority = 255
    · exact le_of_eq (hprio.mpr he)
    · dsimp only
      split
      · have hle : k.priority osIdleTask ≤ 254 := by
          have := h.bounded.idle.1
          rw [priority]
          omega
        exact le_trans ((haged _).2 hle) (by omega)
      · exact h.bounded.idle.1
  · simp only [hbs] at he
    exact hprio.mpr (h.bounded.base he)
  · obtain ⟨hi, ho, hb⟩ := h.bounded.main (hprio.mp he)
    exact ⟨by simp only [hst]; exact hi, ho, fun u => by simp only [hst]; exact hb u⟩
  · simp only [OnMutex, hst, hwl] at hu ⊢
    exact h.owned.flag u hu
  · simp only [OnMutex, hst] at hu ⊢
    exact h.owned.flagged u hu

theorem clear_empty {i : ListId c} (hi : k.links i = []) : Lists.clear k.links i = k.links := by
  unfold Lists.clear
  rw [← hi]
  exact Function.update_eq_self ..

theorem emit_sound (h : Sound k) (e : Event c) : Sound (k.emit e) :=
  h.congr rfl rfl rfl rfl rfl rfl

theorem setCount_sound (h : Sound k) (s : Place c) (n : ℕ) : Sound (k.setCount s n) :=
  h.congr rfl rfl rfl rfl rfl rfl

theorem setQueue_sound (h : Sound k) (q : Place c) (x : OsQueue) : Sound (k.setQueue q x) :=
  h.congr rfl rfl rfl rfl rfl rfl

theorem setMemory_sound (h : Sound k) (memory : Address → Byte) :
    Sound { k with memory := memory } := h.congr rfl rfl rfl rfl rfl rfl

theorem setFlags_sound (h : Sound k) (e : Place c) (flags : Byte) : Sound (k.setFlags e flags) :=
  h.congr rfl rfl rfl rfl rfl rfl

theorem setFrame_sound (h : Sound k) (t : Place c) (f : Option (Frame c)) :
    Sound (k.setFrame t f) := h.congr rfl rfl rfl rfl rfl rfl

theorem setWait_sound (h : Sound k) (t : Place c) (w : Wait) : Sound (k.setWait t w) := by
  refine ⟨setTask_linked h.linked _ rfl rfl rfl, h.alive.same rfl, ?_,
    h.owned.same (fun _ _ hu => hu) rfl rfl⟩
  refine h.bounded.update rfl rfl fun he => ⟨(h.bounded.main he).2.2 t, fun ht => ?_⟩
  subst ht
  exact (h.bounded.main he).1

theorem give_sound (h : Sound k) (s : Place c) : Sound (k.osSemaphoreGiveFromISR s) := by
  have hk := emit_sound h (.gave s)
  rcases give_cases k s with ⟨w, rest, hl, he⟩ | ⟨-, -, he⟩ | ⟨-, -, he⟩
  · rw [he]
    exact osWake_sound hk true (h.waiter_blocked (by rw [hl]; simp))
  · rw [he]
    exact setCount_sound hk s _
  · rw [he]
    exact emit_sound hk _

theorem consume_sound (h : Sound k) (e : Place c) (matched options : Byte) :
    Sound (k.osEventConsume e matched options) := by
  unfold osEventConsume
  split
  · exact setFlags_sound h e _
  · exact h

theorem consume_frame (k : ListKernel c) (e : Place c) (matched options : Byte) :
    (k.osEventConsume e matched options).tasks = k.tasks ∧
    (k.osEventConsume e matched options).links = k.links ∧
    (k.osEventConsume e matched options).currentTask = k.currentTask ∧
    (k.osEventConsume e matched options).frames = k.frames ∧
    (k.osEventConsume e matched options).log = k.log := by
  unfold osEventConsume
  split <;> exact ⟨rfl, rfl, rfl, rfl, rfl⟩

theorem serve_sound (h : Sound k) (e : Place c) (ht : (k.tasks t).waitList = some (.event e)) :
    Sound (k.osEventServe e t) := by
  have hb : k.stateOf t = OS_TASK_BLOCKED := (h.linked.2 t).blocked _ ht
  have hk := emit_sound h (.visited e t)
  rcases serve_cases k e t with ⟨-, he⟩ | ⟨matched, options, -, -, -, he⟩
  · rw [he]
    exact hk
  · rw [he]
    refine osWake_sound (setWait_sound (emit_sound (consume_sound hk e _ _) _) t _) true ?_
    have hc := (consume_frame (k.emit (.visited e t)) e matched options).1
    simp only [stateOf, setWait, setTask, emit, Function.update_self] at hc ⊢
    rw [hc]
    exact hb

theorem append_sound (h : Sound k) (q : Place c) (item : Address) :
    Sound (k.osQueueAppend q item) :=
  emit_sound (emit_sound (setQueue_sound h q _) _) _

theorem hand_sound (h : Sound k) (q : Place c) (item target : Address) :
    Sound (k.osQueueHand q item target) :=
  emit_sound (emit_sound (setMemory_sound h _) _) _

theorem take_sound (h : Sound k) (q : Place c) (item : Address) : Sound (k.osQueueTake q item) :=
  emit_sound (emit_sound (setQueue_sound (setMemory_sound h _) q _) _) _

theorem send_sound (h : Sound k) (q : Place c) (item : Address) :
    Sound (k.osQueueSendFromISR q item) := by
  rcases send_cases k q item with ⟨w, rest, hl, -, he⟩ | ⟨-, -, he⟩ | ⟨-, -, he⟩
  · rw [he]
    refine osWake_sound (hand_sound h q item _) true ?_
    rw [stateOf, hand_tasks]
    exact h.waiter_blocked (by rw [hl]; simp)
  · rw [he]
    exact append_sound h q item
  · rw [he]
    exact h

theorem receive_sound (h : Sound k) (q : Place c) (item : Address) :
    Sound (k.osQueueReceiveFromISR q item) := by
  have hk := take_sound h q item
  rcases receive_cases k q item with ⟨w, rest, hl, -, he⟩ | ⟨-, -, he⟩ | ⟨-, he⟩
  · have ha := append_sound hk q (k.tasks w).wait.itemPtr
    have hb := h.waiter_blocked (t := w) (by rw [hl]; simp)
    rw [he]
    refine osWake_sound ha true ?_
    rw [stateOf, append_tasks, take_tasks]
    exact hb
  · rw [he]
    exact hk
  · rw [he]
    exact h

end

/-- Every elementary step keeps the invariant. -/
theorem Atom.sound {k : ListKernel c} (a : Atom c) (h : Sound k) (hg : a.guard k) :
    Sound (a.apply k) := by
  cases a with
  | called x => exact emit_sound h _
  | returns call value => exact setFrame_sound h _ _
  | pause => exact setFrame_sound h _ _
  | leave =>
    rcases leave_cases k with ⟨call, value, -, he⟩ | ⟨-, he⟩
    · rw [apply, he]
      exact emit_sound (setFrame_sound h _ none) _
    · rw [apply, he]
      exact setFrame_sound h _ none
  | timerCalled tm => exact emit_sound h _
  | quiet => exact h.congr rfl rfl rfl rfl rfl rfl
  | start =>
    have hs : k.stateOf osIdleTask = OS_TASK_RUNNING := by rw [← hg.1]; exact hg.2
    have hk := setTask_sound h hs { k.tasks osIdleTask with priority := 0, basePriority := 0 } hs
      (h.linked.notTimed (by rw [hs]; simp)) (h.linked.running hs).2.1.wait
      (h.bounded.reprioritise rfl (fun hi => absurd rfl hi) (Or.inl (by simp)))
    exact hk.congr rfl rfl rfl rfl rfl rfl
  | settle => exact settle_sound h hg
  | requeue t p => exact requeue_sound h t p hg.1 hg.2.1 hg.2.2
  | setBase t p => exact setBase_sound h t p hg.1 hg.2
  | flag =>
    have hs : (k.tasks k.currentTask).state &&& OS_TASK_STATE = OS_TASK_RUNNING := hg.2
    refine setState_sound h hg.2 _ (by rw [mutex_kind]; exact hs) ?_
    rw [mutex_timed]
    exact not_not.mp (h.linked.notTimed (by rw [hg.2]; simp))
  | unflag => exact setState_sound h hg _ (by simp) (by simp)
  | setWait w => exact setWait_sound h _ w
  | preempt key => exact preempt_sound h key hg.1 hg.2.1 hg.2.2.1 hg.2.2.2
  | dispatch => exact (osDispatch_sound h hg).1
  | sleep call list timeout =>
    obtain ⟨hi, hs, hf, -, -, hb⟩ := hg
    refine sleep_sound h call list timeout hi hs hf fun m hm => ?_
    subst hm
    exact hb.1
  | expire t => exact osWake_sound h false ((h.linked.2 t).timed hg.1)
  | kill t =>
    refine setFrame_sound (emit_sound ?_ _) t none
    have hk := detached_sound h hg.1 hg.2
      { k.tasks t with waitList := none, state := OS_TASK_DEAD } rfl rfl rfl (Or.inr rfl)
    simpa [setState, setTask, detach_task h.linked] using hk
  | bury t =>
    refine ⟨push_dead_linked h.linked hg.1 hg.2, h.alive, h.bounded, h.owned.sublists ?_⟩
    intro m u hu
    simpa [apply, Lists.mem_push] using hu
  | reap =>
    refine ⟨pop_dead_linked h.linked, h.alive, h.bounded, h.owned.sublists ?_⟩
    intro m u hu
    simpa [apply, Lists.pop_of_ne] using hu
  | park t =>
    refine emit_sound ?_ _
    have hk := detached_sound h hg.1 hg.2.1
      { k.tasks t with result := false, waitList := none, state := OS_TASK_SUSPENDED } rfl rfl rfl
      (Or.inl rfl)
    simpa [setResult, setState, setTask, detach_task h.linked] using hk
  | unpark t => exact unpark_sound (emit_sound h _) hg
  | create t p d => exact create_sound h p d hg.1 hg.2.1 hg.2.2
  | own m => exact own_sound h m hg.1
  | release t m =>
    have hr := release_sound h m hg.1
    rw [← release_eq] at hr
    exact hr
  | mutexInit m =>
    have ho : Function.update k.owner m none = k.owner := by
      rw [← hg.2]
      exact Function.update_eq_self ..
    exact h.congr rfl (clear_empty hg.1) rfl rfl ho rfl
  | take s => exact emit_sound (setCount_sound h s _) _
  | give s => exact give_sound h s
  | semaphoreInit s count limit =>
    exact h.congr rfl (clear_empty hg) rfl rfl rfl rfl
  | send q item => exact send_sound h q item
  | receive q item => exact receive_sound h q item
  | queueInit q itemSize length => exact h.congr rfl (clear_empty hg) rfl rfl rfl rfl
  | consume e wanted options => exact emit_sound (consume_sound h e _ _) _
  | flagsSet e flags => exact emit_sound (setFlags_sound h e _) _
  | serve e t => exact serve_sound h e hg
  | flagsClear e flags => exact setFlags_sound h e _
  | eventInit e => exact h.congr rfl (clear_empty hg) rfl rfl rfl rfl
  | age => exact age_sound h _
  | tick => exact h.congr rfl rfl rfl rfl rfl rfl

end AvrOs
