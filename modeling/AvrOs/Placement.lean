import AvrOs.Effects

/-!
# Where tasks are

Every task is on the lists its state says it is on, and on no other. A task on its way
from one place to another is on none of them, which is when its `next` link is free.
-/

namespace AvrOs
open Intrusive Kernel

variable {c : Config}

/-- Lists and state of the task agree. -/
structure PlacedAt (tasks : Place c → OsTask c) (links : Lists (ListId c) (Place c))
    (timed : List (Place c)) (t : Place c) : Prop where
  ready : t ∈ links .ready ↔ (tasks t).state &&& OS_TASK_STATE = OS_TASK_READY
  wait : ∀ w, t ∈ links (.wait w) ↔ (tasks t).waitList = some w
  blocked : ∀ w, (tasks t).waitList = some w →
    (tasks t).state &&& OS_TASK_STATE = OS_TASK_BLOCKED
  dead : t ∈ links .dead → (tasks t).state &&& OS_TASK_STATE = OS_TASK_DEAD
  timer : t ∈ timed ↔ Timed (tasks t)
  timed : Timed (tasks t) → (tasks t).state &&& OS_TASK_STATE = OS_TASK_BLOCKED

/-- The task is on no list at all. -/
structure OffLists (tasks : Place c → OsTask c) (links : Lists (ListId c) (Place c))
    (timed : List (Place c)) (t : Place c) : Prop where
  free : Lists.Free links t
  timer : t ∉ timed
  wait : (tasks t).waitList = none

/-- Nobody is linked in twice and the lists are in order of priority. -/
structure InOrder (tasks : Place c → OsTask c) (links : Lists (ListId c) (Place c))
    (timed : List (Place c)) : Prop where
  separate : Lists.Separate links
  timers : timed.Nodup
  ready : Ordered (fun t => (tasks t).priority) (links .ready)
  wait : ∀ w, Ordered (fun t => (tasks t).priority) (links (.wait w))

def LinkedAt (tasks : Place c → OsTask c) (links : Lists (ListId c) (Place c))
    (timed : List (Place c)) : Prop :=
  InOrder tasks links timed ∧ ∀ t, PlacedAt tasks links timed t

/-- Everybody but `t` is in its place, `t` is on its way. -/
def LooseAt (t : Place c) (tasks : Place c → OsTask c) (links : Lists (ListId c) (Place c))
    (timed : List (Place c)) : Prop :=
  InOrder tasks links timed ∧ OffLists tasks links timed t ∧
    ∀ u, u ≠ t → PlacedAt tasks links timed u

def Linked (k : ListKernel c) : Prop := LinkedAt k.tasks k.links (k.timerLinks ())

def Loose (t : Place c) (k : ListKernel c) : Prop := LooseAt t k.tasks k.links (k.timerLinks ())

/-! ### Tasks which stay where they are -/

section
variable {tasks tasks' : Place c → OsTask c} {links links' : Lists (ListId c) (Place c)}
  {timed timed' : List (Place c)} {t : Place c}

theorem PlacedAt.congr (h : PlacedAt tasks links timed t)
    (hs : (tasks' t).state = (tasks t).state) (hw : (tasks' t).waitList = (tasks t).waitList)
    (hl : ∀ i, t ∈ links' i ↔ t ∈ links i) (ht : t ∈ timed' ↔ t ∈ timed) :
    PlacedAt tasks' links' timed' t where
  ready := by rw [hl, hs]; exact h.ready
  wait w := by rw [hl, hw]; exact h.wait w
  blocked w := by rw [hw, hs]; exact h.blocked w
  dead := by rw [hl, hs]; exact h.dead
  timer := by rw [ht, Timed, hs]; exact h.timer
  timed := by rw [Timed, hs]; exact h.timed

theorem OffLists.placed (h : OffLists tasks links timed t)
    (hr : (tasks t).state &&& OS_TASK_STATE ≠ OS_TASK_READY) (ht : ¬ Timed (tasks t)) :
    PlacedAt tasks links timed t where
  ready := ⟨fun hm => absurd hm (h.free _), fun he => absurd he hr⟩
  wait w := ⟨fun hm => absurd hm (h.free _), fun he => by rw [h.wait] at he; cases he⟩
  blocked w he := by rw [h.wait] at he; cases he
  dead hm := absurd hm (h.free _)
  timer := ⟨fun hm => absurd hm h.timer, fun he => absurd he ht⟩
  timed he := absurd he ht

theorem PlacedAt.off (h : PlacedAt tasks links timed t)
    (hr : (tasks t).state &&& OS_TASK_STATE ≠ OS_TASK_READY)
    (hb : (tasks t).state &&& OS_TASK_STATE ≠ OS_TASK_BLOCKED) (hd : t ∉ links .dead) :
    OffLists tasks links timed t where
  free i hm := by
    cases i with
    | ready => exact hr (h.ready.mp hm)
    | dead => exact hd hm
    | wait w => exact hb (h.blocked w ((h.wait w).mp hm))
  timer hm := hb (h.timed (h.timer.mp hm))
  wait := by
    cases hw : (tasks t).waitList with
    | none => rfl
    | some w => exact absurd (h.blocked w hw) hb

theorem InOrder.congr (h : InOrder tasks links timed)
    (hp : ∀ i, i ≠ .dead → ∀ u ∈ links i, (tasks' u).priority = (tasks u).priority) :
    InOrder tasks' links timed where
  separate := h.separate
  timers := h.timers
  ready := h.ready.congr (hp .ready (by simp))
  wait w := (h.wait w).congr (hp (.wait w) (by simp))

end

/-! ### A task on its way -/

section
variable {k : ListKernel c} {t : Place c}

theorem Loose.linked (h : Loose t k) (hr : k.stateOf t ≠ OS_TASK_READY)
    (ht : ¬ Timed (k.tasks t)) : Linked k := by
  obtain ⟨ho, hf, hp⟩ := h
  refine ⟨ho, fun u => ?_⟩
  by_cases hu : u = t
  · subst hu; exact hf.placed hr ht
  · exact hp u hu

theorem Linked.loose (h : Linked k) (hr : k.stateOf t ≠ OS_TASK_READY)
    (hb : k.stateOf t ≠ OS_TASK_BLOCKED) (hd : t ∉ k.links .dead) : Loose t k :=
  ⟨h.1, (h.2 t).off hr hb hd, fun u _ => h.2 u⟩

/-- A task on no list can have anything done to it, as long as it waits for nothing. -/
theorem setTask_loose (h : Loose t k) (x : OsTask c) (hx : x.waitList = none) :
    Loose t (k.setTask t x) := by
  obtain ⟨ho, hf, hp⟩ := h
  refine ⟨ho.congr fun i _ u hu => ?_, ⟨hf.free, hf.timer, by simpa [setTask] using hx⟩,
    fun u hu => ?_⟩
  · have hut : u ≠ t := fun e => hf.free i (e ▸ hu)
    simp [setTask, hut]
  · exact (hp u hu).congr (by simp [setTask, hu]) (by simp [setTask, hu])
      (fun i => Iff.rfl) Iff.rfl

/-- A task on its way is put on the ready list, behind the ones its key does not exceed. -/
theorem insertReady_linked (h : Loose t k) (key : ℕ) (hlo : k.priority t ≤ key)
    (hhi : key ≤ k.priority t + 1) :
    Linked ((k.setState t OS_TASK_READY).osListInsert .ready t key) := by
  obtain ⟨ho, hf, hp⟩ := h
  have hpr : ∀ u, (Function.update k.tasks t { k.tasks t with state := OS_TASK_READY } u).priority =
      (k.tasks u).priority := fun u => update_priority k.tasks t u _ rfl
  have hl : ((k.setState t OS_TASK_READY).osListInsert .ready t key).links =
      Lists.insert k.links .ready t (fun it => key ≤ (k.tasks it).priority) := by
    simp only [osListInsert, setState, setTask, priority, hpr, insert_lists]
  refine ⟨⟨?_, ho.timers, ?_, fun w => ?_⟩, fun u => ?_⟩
  · rw [hl]
    exact Lists.separate_insert _ _ _ _ ho.separate hf.free
  · rw [hl, Lists.insert_self]
    exact (ho.ready.splice t key hlo hhi).congr fun u _ => hpr u
  · rw [hl, Lists.insert_of_ne _ _ _ _ _ (by simp)]
    exact (ho.wait w).congr fun u _ => hpr u
  · rw [hl]
    by_cases hu : u = t
    · subst hu
      have hmem : ∀ i, u ∈ Lists.insert k.links .ready u (fun it => key ≤ (k.tasks it).priority) i ↔
          i = .ready := by
        intro i
        rw [Lists.mem_insert]
        simp [hf.free i]
      have hst : ((k.setState u OS_TASK_READY).osListInsert .ready u key).tasks u =
          { k.tasks u with state := OS_TASK_READY } := by
        simp [osListInsert, setState, setTask]
      refine ⟨?_, fun w => ?_, fun w he => ?_, fun hm => ?_, ?_, fun he => ?_⟩
      · rw [hmem, hst]; simp
      · rw [hmem, hst]; simp [hf.wait]
      · simp [hst, hf.wait] at he
      · rw [hmem] at hm; cases hm
      · rw [Timed, hst]
        exact ⟨fun hm => absurd hm hf.timer, fun he => absurd timed_ready he⟩
      · rw [Timed, hst] at he
        exact absurd timed_ready he
    · refine (hp u hu).congr ?_ ?_ (fun i => ?_) Iff.rfl
      · simp [osListInsert, setState, setTask, hu]
      · simp [osListInsert, setState, setTask, hu]
      · rw [Lists.mem_insert]
        simp [hu]

theorem setState_priority {S : Type → Type → Type} (k : Kernel c S) (t u : Place c) (s : Byte) :
    (k.setState t s).priority u = k.priority u := update_priority k.tasks t u _ rfl

theorem osReady_linked (h : Loose t k) : Linked (k.osReady t) := by
  have hr := insertReady_linked h (k.priority t) (Nat.le_refl _) (Nat.le_succ _)
  simpa only [osReady, setState_priority] using hr

/-- A task taken off the list it waits on and off the timer list is on its way. -/
theorem osUnblock_loose (h : Linked k) (hr : k.stateOf t ≠ OS_TASK_READY)
    (hd : t ∉ k.links .dead) : Loose t (k.osUnblock t) := by
  obtain ⟨ho, hp⟩ := h
  have ht := hp t
  rw [osUnblock_eq]
  have hmem : ∀ i u, u ∈ k.offWait t i ↔ u ∈ k.links i ∧ ¬ (u = t ∧ ∃ w, i = .wait w) := by
    intro i u
    unfold offWait
    cases hw : (k.tasks t).waitList with
    | none =>
      refine ⟨fun hu => ⟨hu, ?_⟩, fun hu => hu.1⟩
      rintro ⟨rfl, w, rfl⟩
      rw [(hp u).wait, hw] at hu
      cases hu
    | some w =>
      simp only [Lists.mem_remove _ _ _ _ _ ho.separate]
      refine ⟨fun hu => ⟨hu.1, ?_⟩, fun hu => ⟨hu.1, fun hi => hu.2 ⟨hi.2, w, hi.1⟩⟩⟩
      rintro ⟨rfl, w', rfl⟩
      have hw' := (ht.wait w').mp hu.1
      rw [hw] at hw'
      cases hw'
      exact hu.2 ⟨rfl, rfl⟩
  have hsub : ∀ i, (k.offWait t i).Sublist (k.links i) := by
    intro i
    unfold offWait
    cases (k.tasks t).waitList with
    | none => exact List.Sublist.refl _
    | some w => exact Lists.remove_sublist ..
  have htm : ∀ u, u ∈ k.offTimer t () ↔ u ∈ k.timerLinks () ∧ u ≠ t := by
    intro u
    unfold offTimer
    by_cases htd : Timed (k.tasks t)
    · rw [if_pos htd, Lists.remove_self, ho.timers.mem_erase_iff, and_comm]
    · rw [if_neg htd]
      refine ⟨fun hu => ⟨hu, ?_⟩, fun hu => hu.1⟩
      rintro rfl
      exact htd ((hp u).timer.mp hu)
  have hts : (k.offTimer t ()).Sublist (k.timerLinks ()) := by
    unfold offTimer
    split
    · exact Lists.remove_sublist ..
    · exact List.Sublist.refl _
  have hpr : ∀ u, (Function.update k.tasks t { k.tasks t with waitList := none } u).priority =
      (k.tasks u).priority := fun u => update_priority k.tasks t u _ rfl
  refine ⟨⟨⟨fun i => (hsub i).nodup (ho.separate.nodup i), fun i j u hi hj =>
      ho.separate.disjoint i j u ((hsub i).subset hi) ((hsub j).subset hj)⟩,
      hts.nodup ho.timers, ?_, fun w => ?_⟩, ⟨fun i hi => ?_, fun hi => ?_, by simp⟩, fun u hu => ?_⟩
  · exact (ho.ready.sublist (hsub _)).congr fun u _ => hpr u
  · exact ((ho.wait w).sublist (hsub _)).congr fun u _ => hpr u
  · have hi' := (hmem i t).mp hi
    cases i with
    | ready => exact hr (ht.ready.mp hi'.1)
    | dead => exact hd hi'.1
    | wait w => exact hi'.2 ⟨rfl, w, rfl⟩
  · exact ((htm t).mp hi).2 rfl
  · refine (hp u).congr (by simp [hu]) (by simp [hu]) (fun i => ?_) ?_
    · rw [hmem]; simp [hu]
    · rw [htm]; simp [hu]

theorem Linked.notDead (h : Linked k) (hs : k.stateOf t ≠ OS_TASK_DEAD) : t ∉ k.links .dead :=
  fun hm => hs ((h.2 t).dead hm)

theorem osTaskDetach_loose (h : Linked k) (hs : k.stateOf t ≠ OS_TASK_DEAD) :
    Loose t (k.osTaskDetach t) := by
  unfold osTaskDetach
  by_cases hr : k.stateOf t = OS_TASK_READY
  · rw [if_pos hr]
    obtain ⟨ho, hp⟩ := h
    have hmem : ∀ i u, u ∈ Lists.remove k.links .ready t i ↔ u ∈ k.links i ∧ ¬ (i = .ready ∧ u = t) :=
      fun i u => Lists.mem_remove _ _ _ _ _ ho.separate
    have hb : k.stateOf t ≠ OS_TASK_BLOCKED := by rw [hr]; simp
    have hsub : ∀ i, ((k.osListRemove .ready t).links i).Sublist (k.links i) :=
      fun i => Lists.remove_sublist k.links .ready i t
    refine ⟨⟨Lists.separate_remove _ _ _ ho.separate, ho.timers, ho.ready.sublist (hsub _),
      fun w => (ho.wait w).sublist (hsub _)⟩,
      ⟨fun i hi => ?_, fun hi => hb ((hp t).timed ((hp t).timer.mp hi)), ?_⟩, fun u hu => ?_⟩
    · have hi' := (hmem i t).mp hi
      cases i with
      | ready => exact hi'.2 ⟨rfl, rfl⟩
      | dead => exact hs ((hp t).dead hi'.1)
      | wait w => exact hb ((hp t).blocked w (((hp t).wait w).mp hi'.1))
    · show (k.tasks t).waitList = none
      cases hw : (k.tasks t).waitList with
      | none => rfl
      | some w => exact absurd ((hp t).blocked w hw) hb
    · refine (hp u).congr rfl rfl (fun i => ?_) Iff.rfl
      show u ∈ Lists.remove k.links .ready t i ↔ _
      rw [hmem]; simp [hu]
  · rw [if_neg hr]
    exact osUnblock_loose h hr (h.notDead hs)

theorem osWake_linked (h : Linked k) (r : Bool) (hs : k.stateOf t = OS_TASK_BLOCKED) :
    Linked (k.osWake t r) := by
  have hk : Linked ((k.emit (.woken t (k.tasks t).waitList r)).setResult t r) := by
    obtain ⟨ho, hp⟩ := h
    refine ⟨ho.congr fun i _ u _ => update_priority k.tasks t u _ rfl, fun u => ?_⟩
    by_cases hu : u = t
    · subst hu
      exact (hp u).congr (by simp [setResult, setTask, emit])
        (by simp [setResult, setTask, emit]) (fun _ => Iff.rfl) Iff.rfl
    · exact (hp u).congr (by simp [setResult, setTask, emit, hu])
        (by simp [setResult, setTask, emit, hu]) (fun _ => Iff.rfl) Iff.rfl
  have hst : ((k.emit (.woken t (k.tasks t).waitList r)).setResult t r).stateOf t =
      OS_TASK_BLOCKED := by
    rw [← hs]
    simp [stateOf, setResult, setTask, emit]
  have hl := osUnblock_loose hk (t := t) (by rw [hst]; simp) (hk.notDead (by rw [hst]; simp))
  exact osReady_linked hl

/-- Fields which say nothing about lists may change at any time. -/
theorem setTask_linked (h : Linked k) (x : OsTask c) (hs : x.state = (k.tasks t).state)
    (hw : x.waitList = (k.tasks t).waitList) (hp : x.priority = (k.tasks t).priority) :
    Linked (k.setTask t x) := by
  refine ⟨h.1.congr fun i _ u _ => update_priority k.tasks t u x hp, fun u => ?_⟩
  by_cases hu : u = t
  · subst hu
    exact (h.2 u).congr (by simpa [setTask] using hs) (by simpa [setTask] using hw)
      (fun _ => Iff.rfl) Iff.rfl
  · exact (h.2 u).congr (by simp [setTask, hu]) (by simp [setTask, hu]) (fun _ => Iff.rfl) Iff.rfl

theorem Linked.running (h : Linked k) (hs : k.stateOf t = OS_TASK_RUNNING) : Loose t k :=
  h.loose (by rw [hs]; simp) (by rw [hs]; simp) (h.notDead (by rw [hs]; simp))

theorem Linked.notTimed (h : Linked k) (hs : k.stateOf t ≠ OS_TASK_BLOCKED) :
    ¬ Timed (k.tasks t) := fun ht => hs ((h.2 t).timed ht)

/-- The running task is on no list, so any change to it leaves the lists as they are. -/
theorem setTask_running (h : Linked k) (hs : k.stateOf t = OS_TASK_RUNNING) (x : OsTask c)
    (hx : x.state &&& OS_TASK_STATE = OS_TASK_RUNNING) (ht : ¬ Timed x) (hw : x.waitList = none) :
    Linked (k.setTask t x) := by
  refine Loose.linked (t := t) (setTask_loose (h.running hs) x hw) ?_ ?_
  · have he : (k.setTask t x).stateOf t = x.state &&& OS_TASK_STATE := by simp [stateOf, setTask]
    rw [he, hx]; simp
  · simpa [setTask] using ht

theorem setPriority_running (h : Linked k) (hs : k.stateOf t = OS_TASK_RUNNING) (p : ℕ) :
    Linked (k.setPriority t p) :=
  setTask_running h hs _ hs (h.notTimed (by rw [hs]; simp)) (h.running hs).2.1.wait

/-! ### Priorities -/

theorem setPriority_list {S : Type → Type → Type} [LinkStore S] (k : Kernel c S) (t u : Place c) (p : ℕ) :
    (k.setPriority t p).priorityList u = k.priorityList u := by
  unfold priorityList stateOf
  by_cases hu : u = t
  · subst hu
    simp only [setPriority, setTask, Function.update_self]
  · simp only [setPriority, setTask, Function.update_of_ne hu]

theorem requeue_links (k : ListKernel c) (t : Place c) (p : ℕ) (l : ListId c)
    (hl : k.priorityList t = some l) : ((k.setPriority t p).osRequeue t).links =
      Lists.insert (Lists.remove k.links l t) l t (fun it => p ≤ (k.setPriority t p).priority it) := by
  have hl' : (k.setPriority t p).priorityList t = some l := by rw [setPriority_list, hl]
  have hp : (k.setPriority t p).priority t = p := by simp [priority, setPriority, setTask]
  simp only [osRequeue, hl', osListRemove, osListInsert, emit, remove_lists, insert_lists]
  show Lists.insert _ _ _ (fun it => (k.setPriority t p).priority t ≤ _) = _
  rw [hp]
  rfl

theorem requeue_off (k : ListKernel c) (t : Place c) (p : ℕ) (hl : k.priorityList t = none) :
    (k.setPriority t p).osRequeue t = k.setPriority t p := by
  have hl' : (k.setPriority t p).priorityList t = none := by rw [setPriority_list, hl]
  simp only [osRequeue, hl']

theorem requeue_tasks {S : Type → Type → Type} [LinkStore S] (k : Kernel c S) (t : Place c) (p : ℕ) :
    ((k.setPriority t p).osRequeue t).tasks = (k.setPriority t p).tasks := by
  unfold osRequeue
  split <;> rfl

theorem setPriority_priority {S : Type → Type → Type} [LinkStore S] (k : Kernel c S) (t u : Place c)
    (p : ℕ) :
    (k.setPriority t p).priority u = if u = t then p else k.priority u := by
  by_cases hu : u = t
  · subst hu
    simp [priority, setPriority, setTask]
  · simp [priority, setPriority, setTask, hu]

theorem requeue_priority {S : Type → Type → Type} [LinkStore S] (k : Kernel c S) (t u : Place c)
    (p : ℕ) :
    ((k.setPriority t p).osRequeue t).priority u = if u = t then p else k.priority u := by
  rw [priority, requeue_tasks]
  exact setPriority_priority k t u p

theorem requeue_timers (k : ListKernel c) (t : Place c) (p : ℕ) :
    ((k.setPriority t p).osRequeue t).timerLinks = k.timerLinks := by
  unfold osRequeue
  split <;> rfl

theorem Linked.mem_priorityList (h : Linked k) (l : ListId c) :
    k.priorityList t = some l → t ∈ k.links l := by
  intro hl
  unfold priorityList at hl
  split at hl
  · rename_i hr
    cases hl
    exact (h.2 t).ready.mpr hr
  · obtain ⟨w, hw, rfl⟩ := Option.map_eq_some_iff.mp hl
    exact ((h.2 t).wait w).mpr hw

theorem Linked.priorityList_of_mem (h : Linked k) (l : ListId c) (hd : l ≠ .dead)
    (hm : t ∈ k.links l) : k.priorityList t = some l := by
  unfold priorityList
  cases l with
  | ready =>
    have hr : k.stateOf t = OS_TASK_READY := (h.2 t).ready.mp hm
    rw [if_pos hr]
  | dead => exact absurd rfl hd
  | wait w =>
    have hw := ((h.2 t).wait w).mp hm
    have hb := (h.2 t).blocked w hw
    rw [if_neg (by rw [stateOf, hb]; simp), hw]
    rfl

/-- The members of the list a task is requeued on: nobody joins, nobody leaves. -/
theorem requeue_mem (h : Linked k) (p : ℕ) (i : ListId c) (u : Place c) :
    u ∈ ((k.setPriority t p).osRequeue t).links i ↔ u ∈ k.links i := by
  cases hl : k.priorityList t with
  | none => rw [requeue_off k t p hl]; rfl
  | some l =>
    have ht := h.mem_priorityList l hl
    rw [requeue_links k t p l hl, Lists.mem_insert, Lists.mem_remove _ _ _ _ _ h.1.separate]
    by_cases hi : i = l ∧ u = t
    · obtain ⟨rfl, rfl⟩ := hi
      simp [ht]
    · simp [hi]

theorem requeue_linked (h : Linked k) (t : Place c) (p : ℕ) :
    Linked ((k.setPriority t p).osRequeue t) := by
  have hpr : ∀ u, u ≠ t → (k.setPriority t p).priority u = (k.tasks u).priority := by
    intro u hu
    simp [priority, setPriority, setTask, hu]
  have hpt : (k.setPriority t p).priority t = p := by simp [priority, setPriority, setTask]
  have hplaced : ∀ u, PlacedAt ((k.setPriority t p).osRequeue t).tasks
      ((k.setPriority t p).osRequeue t).links (((k.setPriority t p).osRequeue t).timerLinks ()) u := by
    intro u
    rw [requeue_tasks, requeue_timers]
    refine (h.2 u).congr ?_ ?_ (fun i => requeue_mem h p i u) Iff.rfl
    · by_cases hu : u = t
      · subst hu; simp [setPriority, setTask]
      · simp [setPriority, setTask, hu]
    · by_cases hu : u = t
      · subst hu; simp [setPriority, setTask]
      · simp [setPriority, setTask, hu]
  cases hl : k.priorityList t with
  | none =>
    refine ⟨?_, hplaced⟩
    rw [requeue_off k t p hl]
    refine h.1.congr fun i hi u hu => hpr u ?_
    rintro rfl
    rw [h.priorityList_of_mem i hi hu] at hl
    cases hl
  | some l =>
    have ht := h.mem_priorityList l hl
    have hsep := Lists.separate_remove k.links l t h.1.separate
    have hfree : Lists.Free (Lists.remove k.links l t) t := by
      intro i hi
      rw [Lists.mem_remove _ _ _ _ _ h.1.separate] at hi
      exact hi.2 ⟨h.1.separate.disjoint i l t hi.1 ht, rfl⟩
    have hord : ∀ i, Ordered (fun u => (k.tasks u).priority) (k.links i) →
        Ordered (k.setPriority t p).priority (Lists.insert (Lists.remove k.links l t) l t
          (fun it => p ≤ (k.setPriority t p).priority it) i) := by
      intro i hi
      have hi' : Ordered (k.setPriority t p).priority (Lists.remove k.links l t i) :=
        (hi.sublist (Lists.remove_sublist ..)).congr fun u hu => hpr u (fun e => hfree i (e ▸ hu))
      by_cases hil : i = l
      · subst hil
        rw [Lists.insert_self]
        exact hi'.splice t p (by rw [hpt]) (by rw [hpt]; omega)
      · rw [Lists.insert_of_ne _ _ _ _ _ hil]
        exact hi'
    refine ⟨⟨?_, ?_, ?_, fun w => ?_⟩, hplaced⟩
    · rw [requeue_links k t p l hl]
      exact Lists.separate_insert _ _ _ _ hsep hfree
    · rw [requeue_timers]
      exact h.1.timers
    · rw [requeue_links k t p l hl, requeue_tasks]
      exact hord _ h.1.ready
    · rw [requeue_links k t p l hl, requeue_tasks]
      exact hord _ (h.1.wait w)

/-! ### Switching -/

theorem osDispatch_eq (k : ListKernel c) (n : Place c) (hn : (k.links .ready).head? = some n) :
    k.osDispatch = { k with
      links := Lists.pop k.links .ready
      tasks := Function.update k.tasks n { k.tasks n with state := OS_TASK_RUNNING }
      currentTask := n } := by
  simp only [osDispatch, head_lists, hn, setState, setTask, pop_lists]

theorem osDispatch_linked (h : Linked k) (n : Place c) (hn : (k.links .ready).head? = some n) :
    Linked k.osDispatch := by
  obtain ⟨ho, hp⟩ := h
  have hmn : n ∈ k.links .ready := List.mem_of_head? hn
  have hrn := (hp n).ready.mp hmn
  have hmem : ∀ i u, u ∈ Lists.pop k.links .ready i ↔ u ∈ k.links i ∧ ¬ (i = .ready ∧ u = n) :=
    fun i u => Lists.mem_pop _ _ _ _ _ ho.separate hn
  have hsub : ∀ i, (Lists.pop k.links .ready i).Sublist (k.links i) := by
    intro i
    by_cases hi : i = .ready
    · subst hi; rw [Lists.pop_self]; exact List.tail_sublist _
    · rw [Lists.pop_of_ne _ _ _ hi]
  have hb : (k.tasks n).state &&& OS_TASK_STATE ≠ OS_TASK_BLOCKED := by rw [hrn]; simp
  have hpr : ∀ u, (Function.update k.tasks n { k.tasks n with state := OS_TASK_RUNNING } u).priority =
      (k.tasks u).priority := fun u => update_priority k.tasks n u _ rfl
  have hoff : OffLists k.tasks (Lists.pop k.links .ready) (k.timerLinks ()) n := by
    refine ⟨fun i hi => ?_, fun hi => hb ((hp n).timed ((hp n).timer.mp hi)), ?_⟩
    · have hi' := (hmem i n).mp hi
      cases i with
      | ready => exact hi'.2 ⟨rfl, rfl⟩
      | dead => exact absurd ((hp n).dead hi'.1) (by rw [hrn]; simp)
      | wait w => exact hb ((hp n).blocked w (((hp n).wait w).mp hi'.1))
    · cases hw : (k.tasks n).waitList with
      | none => rfl
      | some w => exact absurd ((hp n).blocked w hw) hb
  rw [osDispatch_eq k n hn]
  refine ⟨⟨Lists.separate_pop _ _ ho.separate, ho.timers, ?_, fun w => ?_⟩, fun u => ?_⟩
  · exact (ho.ready.sublist (hsub _)).congr fun u _ => hpr u
  · exact ((ho.wait w).sublist (hsub _)).congr fun u _ => hpr u
  · by_cases hu : u = n
    · subst hu
      refine OffLists.placed ⟨hoff.free, hoff.timer, by simpa using hoff.wait⟩ ?_ ?_
      · simp
      · simp [Timed]
    · refine (hp u).congr (by simp [hu]) (by simp [hu]) (fun i => ?_) Iff.rfl
      rw [hmem]; simp [hu]

theorem sleep_linked (h : Linked k) (call : Call c) (list : Option (WaitList c))
    (timeout : OsTick c) (hs : k.stateOf k.currentTask = OS_TASK_RUNNING) :
    Linked (k.sleep call list timeout) := by
  obtain ⟨ho, hf, hp⟩ := h.running hs
  have hnt : ¬ Timed (k.tasks k.currentTask) := h.notTimed (by rw [hs]; simp)
  have hpr : ∀ u, (Function.update k.tasks k.currentTask (k.sleeper list timeout) u).priority =
      (k.tasks u).priority := fun u => update_priority _ _ u _ (sleeper_priority k list timeout)
  have hmem : ∀ i u, u ∈ k.onWait list i ↔
      (u = k.currentTask ∧ ∃ w, list = some w ∧ i = .wait w) ∨ u ∈ k.links i := by
    intro i u
    unfold onWait
    cases list with
    | none => simp
    | some w =>
      simp only [Lists.mem_insert, Option.some.injEq, exists_eq_left']
      tauto
  have hmt : ∀ u, u ∈ k.onTimer timeout () ↔
      (u = k.currentTask ∧ timeout ≠ OS_WAIT_FOREVER c) ∨ u ∈ k.timerLinks () := by
    intro u
    unfold onTimer
    by_cases ht : timeout ≠ OS_WAIT_FOREVER c
    · rw [if_pos ht, Lists.mem_insert]; simp [ht]
    · rw [if_neg ht]; simp [ht]
  have hord : ∀ i, Ordered (fun u => (k.tasks u).priority) (k.links i) →
      Ordered (fun u => (k.tasks u).priority) (k.onWait list i) := by
    intro i hi
    unfold onWait
    cases list with
    | none => exact hi
    | some w =>
      by_cases hiw : i = .wait w
      · subst hiw
        dsimp only
        rw [Lists.insert_self]
        exact hi.splice _ _ (Nat.le_refl _) (Nat.le_succ _)
      · dsimp only
        rw [Lists.insert_of_ne _ _ _ _ _ hiw]
        exact hi
  rw [sleep_eq]
  refine ⟨⟨?_, ?_, ?_, fun w => ?_⟩, fun u => ?_⟩
  · unfold onWait
    cases list with
    | none => exact ho.separate
    | some w => exact Lists.separate_insert _ _ _ _ ho.separate hf.free
  · show (k.onTimer timeout ()).Nodup
    unfold onTimer
    split
    · rw [Lists.insert_self]
      exact Lists.nodup_splice _ _ _ hf.timer ho.timers
    · exact ho.timers
  · exact (hord _ ho.ready).congr fun u _ => hpr u
  · exact (hord _ (ho.wait w)).congr fun u _ => hpr u
  · by_cases hu : u = k.currentTask
    · subst hu
      have hk := sleeper_kind k list timeout hs
      refine ⟨?_, fun w => ?_, fun w _ => ?_, fun hm => ?_, ?_, fun _ => ?_⟩
      · rw [hmem]
        simp only [Function.update_self, hk]
        simp [hf.free .ready]
      · rw [hmem]
        simp only [Function.update_self, sleeper_waitList]
        constructor
        · rintro (⟨_, w', rfl, he⟩ | hm)
          · cases he; rfl
          · exact absurd hm (hf.free _)
        · rintro rfl
          exact Or.inl ⟨trivial, w, rfl, rfl⟩
      · simpa only [Function.update_self] using hk
      · rw [hmem] at hm
        rcases hm with ⟨_, w, _, he⟩ | hm
        · cases he
        · exact absurd hm (hf.free _)
      · rw [hmt]
        simp only [Function.update_self, sleeper_timed k list timeout hnt]
        simp [hf.timer]
      · simpa only [Function.update_self] using hk
    · refine (hp u hu).congr (by simp [hu]) (by simp [hu]) (fun i => ?_) ?_
      · rw [hmem]; simp [hu]
      · rw [hmt]; simp [hu]

/-! ### The dead list and aging -/

/-- Only the dead list grows: the others are what they were. -/
theorem push_dead_linked (h : Linked k) (hs : k.stateOf t = OS_TASK_DEAD) (hd : t ∉ k.links .dead) :
    Linked { k with links := Lists.push k.links .dead t } := by
  obtain ⟨ho, hf, hp⟩ := h.loose (t := t) (by rw [hs]; simp) (by rw [hs]; simp) hd
  have hmem : ∀ i u, u ∈ Lists.push k.links .dead t i ↔ (i = .dead ∧ u = t) ∨ u ∈ k.links i :=
    fun i u => Lists.mem_push ..
  refine ⟨⟨Lists.separate_push _ _ _ ho.separate hf.free, ho.timers, ?_, fun w => ?_⟩, fun u => ?_⟩
  · show Ordered _ (Lists.push k.links .dead t .ready)
    rw [Lists.push_of_ne _ _ _ _ (by simp)]
    exact ho.ready
  · show Ordered _ (Lists.push k.links .dead t (.wait w))
    rw [Lists.push_of_ne _ _ _ _ (by simp)]
    exact ho.wait w
  · refine ⟨?_, fun w => ?_, (h.2 u).blocked, fun hm => ?_, (h.2 u).timer, (h.2 u).timed⟩
    · show u ∈ Lists.push k.links .dead t .ready ↔ _
      rw [hmem]; simpa using (h.2 u).ready
    · show u ∈ Lists.push k.links .dead t (.wait w) ↔ _
      rw [hmem]; simpa using (h.2 u).wait w
    · rcases (hmem .dead u).mp hm with ⟨-, rfl⟩ | hm'
      · exact hs
      · exact (h.2 u).dead hm'

theorem pop_dead_linked (h : Linked k) : Linked { k with links := Lists.pop k.links .dead } := by
  obtain ⟨ho, hp⟩ := h
  have hne : ∀ i, i ≠ ListId.dead → Lists.pop k.links .dead i = k.links i :=
    fun i hi => Lists.pop_of_ne _ _ _ hi
  refine ⟨⟨Lists.separate_pop _ _ ho.separate, ho.timers, ?_, fun w => ?_⟩, fun u => ?_⟩
  · show Ordered _ (Lists.pop k.links .dead .ready)
    rw [hne _ (by simp)]
    exact ho.ready
  · show Ordered _ (Lists.pop k.links .dead (.wait w))
    rw [hne _ (by simp)]
    exact ho.wait w
  · refine ⟨?_, fun w => ?_, (hp u).blocked, fun hm => ?_, (hp u).timer, (hp u).timed⟩
    · show u ∈ Lists.pop k.links .dead .ready ↔ _
      rw [hne _ (by simp)]
      exact (hp u).ready
    · show u ∈ Lists.pop k.links .dead (.wait w) ↔ _
      rw [hne _ (by simp)]
      exact (hp u).wait w
    · have hm' : u ∈ (k.links .dead).tail := by simpa [Lists.pop_self] using hm
      exact (hp u).dead (List.mem_of_mem_tail hm')

/-- Priority of a task after the aging pass. -/
def aged (c : Config) (current p : ℕ) : ℕ :=
  if p ≠ 0 ∧ p < c.agingLimit ∧ p + (if c.roundRobin then 1 else 0) ≤ current then (p + 1) % 256
  else p

theorem aged_mono (current p q : ℕ) (h : p ≤ q) : aged c current p ≤ aged c current q := by
  have hl := c.agingLimit_ok
  unfold aged
  split <;> split <;> split at * <;> omega

theorem aged_bound (current p : ℕ) : p ≤ aged c current p ∧ (p ≤ 254 → aged c current p ≤ 254) := by
  have hl := c.agingLimit_ok
  unfold aged
  by_cases hc : p ≠ 0 ∧ p < c.agingLimit ∧ p + (if c.roundRobin then 1 else 0) ≤ current
  · rw [if_pos hc]
    have := hc.2.1
    omega
  · rw [if_neg hc]
    exact ⟨le_rfl, id⟩

/-- The aging pass over a list without duplicates. -/
theorem age_fold (k : ListKernel c) (current : ℕ) (l : List (Place c)) (hl : l.Nodup) :
    l.foldl (osAgeTask current) k = { k with
      tasks := fun u => if u ∈ l then
        { k.tasks u with priority := aged c current (k.priority u) } else k.tasks u } := by
  induction l generalizing k with
  | nil => simp
  | cons a l ih =>
    have hnd := List.nodup_cons.mp hl
    have ha : osAgeTask current k a = { k with
        tasks := Function.update k.tasks a
          { k.tasks a with priority := aged c current (k.priority a) } } := by
      unfold osAgeTask aged
      by_cases hc : k.priority a ≠ 0 ∧ k.priority a < c.agingLimit ∧
          k.priority a + (if c.roundRobin then 1 else 0) ≤ current
      · simp only [if_pos hc]
        rfl
      · have he : { k.tasks a with priority := k.priority a } = k.tasks a := rfl
        simp only [if_neg hc, he, Function.update_eq_self]
    rw [List.foldl_cons, ih _ hnd.2, ha]
    congr 1
    funext u
    by_cases hu : u = a
    · subst hu
      simp [hnd.1]
    · simp [hu, priority]

theorem age_linked (h : Linked k) (current : ℕ) :
    Linked ((k.links .ready).foldl (osAgeTask current) k) := by
  have hnd := h.1.separate.nodup .ready
  rw [age_fold k current _ hnd]
  refine ⟨⟨h.1.separate, h.1.timers, ?_, fun w => ?_⟩, fun u => ?_⟩
  · refine h.1.ready.mono fun a ha b hb hab => ?_
    simp only [if_pos ha, if_pos hb]
    exact aged_mono current _ _ hab
  · refine (h.1.wait w).congr fun u hu => ?_
    have hur : u ∉ k.links .ready := fun hr => by
      have he := h.1.separate.disjoint _ _ u hu hr
      cases he
    simp only [if_neg hur]
  · by_cases hur : u ∈ k.links .ready
    · exact (h.2 u).congr (by simp [hur]) (by simp [hur]) (fun _ => Iff.rfl) Iff.rfl
    · exact (h.2 u).congr (by simp [hur]) (by simp [hur]) (fun _ => Iff.rfl) Iff.rfl

end

end AvrOs
