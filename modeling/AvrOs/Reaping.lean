import AvrOs.Consistency
import AvrOs.Custody

/-!
# `osTaskReap` frees what is left of tasks, and nothing else

Memory is freed only once the task is dead and off every list, and once for every time it was taken. It
is freed eventually, unless the task which is about to do so gets deleted on the way.
-/

namespace AvrOs
open Intrusive Transition Kernel

variable {c : Config} {H : Type} {A : Heap.Allocator H} {B : Board c}
  {s s' : DynamicSystem c Links H} {l : ListKernel c} {heap : H} {ram : ℕ → Byte}

namespace DynamicSystem

/-! ### Not too early, not twice -/

/-- Nobody needs the memory of the task anymore. -/
structure Gone (s : DynamicSystem c Links H) (t : Place c) : Prop where
  dead : s.kernel.stateOf t = OS_TASK_DEAD
  stopped : t ≠ s.kernel.currentTask
  unlinked : ∀ i, t ∉ s.kernel.list i
  untimed : t ∉ s.kernel.timerList
  ownerless : c.mutexInheritance = true → ∀ m, s.kernel.owner m ≠ some t

theorem Tidy.gone (h : Tidy A B s l) {t : Place c} (ht : l.stateOf t = OS_TASK_DEAD) (hn : t ∉ l.links .dead) :
    s.Gone t := by
  have hp := h.rest.sound.linked.2 t
  refine ⟨(h.sim.stateOf t).trans ht, ?_, fun i hm => ?_, fun hm => ?_, fun hinh m ho => ?_⟩
  · rintro rfl
    rw [h.sim.current, h.rest.running.kind] at ht
    simp at ht
  · rw [h.sim.list] at hm
    cases i with
    | ready =>
      have hready : l.stateOf t = OS_TASK_READY := hp.ready.mp hm
      rw [hready] at ht
      simp at ht
    | dead => exact hn hm
    | wait w =>
      have hblocked : l.stateOf t = OS_TASK_BLOCKED := hp.blocked w ((hp.wait w).mp hm)
      rw [hblocked] at ht
      simp at ht
  · rw [h.sim.timerList] at hm
    have hblocked : l.stateOf t = OS_TASK_BLOCKED := hp.timed (hp.timer.mp hm)
    rw [hblocked] at ht
    simp at ht
  · rw [h.sim.owner] at ho
    exact h.rest.noDead hinh m t ho ht

/-- The memory of a task is freed by the task which has taken it. -/
theorem go_freed {call : HeapCall c} (hu : s.calls s.kernel.currentTask = some call) (hs : s.go A B call = some s')
    (t : Place c) : s'.freed t = s.freed t ∨
      s.Takes s.kernel.currentTask t ∧ s'.freed t = s.freed t + 1 ∧ s'.heap = A.free s.heap (s.stack t) := by
  cases call with
  | reap next =>
    obtain ⟨k', -, rfl⟩ := Option.map_eq_some_iff.mp hs
    exact Or.inl rfl
  | free u next =>
    cases hs
    by_cases htu : t = u
    · subst htu
      exact Or.inr ⟨⟨next, hu⟩, Function.update_self .., rfl⟩
    · exact Or.inl (Function.update_of_ne htu ..)
  | malloc again request =>
    unfold DynamicSystem.go at hs
    dsimp only at hs
    split at hs
    · split at hs <;> cases hs <;> exact Or.inl rfl
    · cases hs
      exact Or.inl rfl
  | setup memory size function param priority =>
    unfold DynamicSystem.go at hs
    dsimp only at hs
    split at hs
    · obtain ⟨k', -, rfl⟩ := Option.map_eq_some_iff.mp hs
      exact Or.inl rfl
    · cases hs
      exact Or.inl rfl
  | release p =>
    cases hs
    exact Or.inl rfl

theorem step_freed {a : DynamicAction c} (hs : s.step A B a = some s') (t : Place c) : s'.freed t = s.freed t ∨
    s.Takes s.kernel.currentTask t ∧ s'.freed t = s.freed t + 1 ∧ s'.heap = A.free s.heap (s.stack t) := by
  cases a with
  | kernel a =>
    unfold DynamicSystem.step at hs
    dsimp only at hs
    split at hs
    · obtain ⟨k', -, rfl⟩ := Option.map_eq_some_iff.mp hs
      split <;> exact Or.inl rfl
    · cases hs
  | go =>
    unfold DynamicSystem.step at hs
    dsimp only at hs
    split at hs
    · obtain ⟨call, hu, hs⟩ := Option.bind_eq_some_iff.mp hs
      exact go_freed hu hs t
    · cases hs
  | osTaskReap | osMalloc | osFree | osTaskCreateDynamic =>
    unfold DynamicSystem.step at hs
    dsimp only at hs
    split at hs
    · cases hs
      exact Or.inl rfl
    · cases hs

/-- Three blocks of 100 bytes and places for two tasks which are not dynamic. -/
def smallBoard : Board (Config.default 302) where
  threeBytePc := false
  osTaskExit := 0x0100
  osPortTaskStart := 0x0200
  dynamic := rfl
  stackCheck := true
  heapStart := 10
  heapEnd := 310
  place a := Fin.ofNat 303 (a - 9)
  heapStart_pos := by decide
  heapEnd_le := by decide
  place_inj a b _ _ _ _ he := by
    have hmod : (a - 9) % 303 = (b - 9) % 303 := congrArg Fin.val he
    omega
  place_idle a _ _ he := by
    have hmod : (a - 9) % 303 = 0 := congrArg Fin.val he
    omega

def smallHeap : Heap.Allocator (List ℕ) := Heap.slots 10 100 3

theorem smallHeap_correct : smallHeap.Correct smallBoard.heapStart smallBoard.heapEnd := by
  have hslots : smallHeap.Correct 10 (10 + 100 * 3) := Heap.slots_correct (by decide)
  exact hslots

theorem smallHeap_empty : Heap.Formed smallBoard.heapStart smallBoard.heapEnd (smallHeap.blocks []) := by
  have hempty : smallHeap.blocks [] = ∅ := by
    ext b
    refine iff_of_false (fun hb => ?_) id
    obtain ⟨i, hi, -⟩ := hb
    cases hi
  rw [hempty]
  exact Heap.Formed.empty

/-- Whoever is about to free the memory of a task may do so: the task was created by
`osTaskCreateDynamic`, it is gone, and its memory has not been freed since. Nobody else frees it. -/
theorem reap_frees_gone (hA : A.Correct B.heapStart B.heapEnd) (hheap : Heap.Formed B.heapStart B.heapEnd (A.blocks heap))
    (h : ReachableFrom A B heap ram s) :
    (∀ u t, s.Takes u t → s.Gone t ∧ s.freed t < s.created t) ∧
    (∀ t, s.freed t ≤ s.created t) ∧
    (∀ t, s.freed t < s.created t → ∃ b ∈ A.blocks s.heap, b.start = s.stack t) ∧
    (∀ t u, s.freed t < s.created t → s.freed u < s.created u → s.stack t = s.stack u → t = u) ∧
    ∀ a s', s.step A B a = some s' → ∀ t, s'.freed t = s.freed t ∨
      s.Takes s.kernel.currentTask t ∧ s'.freed t = s.freed t + 1 ∧ s'.heap = A.free s.heap (s.stack t) := by
  obtain ⟨l, ht⟩ := tidy_of_reachable hA hheap h
  refine ⟨fun u t hu => ?_, fun t => (ht.counts t).1, fun t hk => ?_, fun t u hk hk' he => ?_,
    fun a s' hs t => step_freed hs t⟩
  · obtain ⟨hkeep, hdead, hn⟩ := ht.taken u t hu
    exact ⟨ht.gone hdead hn, hkeep⟩
  · obtain ⟨b, hb, he, -⟩ := ht.housed t hk
    exact ⟨b, hb, he⟩
  · have hsole := ht.custody.sole (.task t) (.task u) (s.stack t) ⟨hk, rfl⟩ ⟨hk', he.symm⟩
    injection hsole

/-- `main` creates a reaper, somebody who sleeps for a tick and a dynamic task which leaves at once. The
reaper takes it off the list and is preempted. -/
def interruptedReaper : List (DynamicAction (Config.default 302)) :=
  [.kernel (.call (.osTaskCreate 301 2 false)), .kernel .resume, .kernel (.call (.osTaskCreate 302 9 false)),
    .kernel .resume, .osTaskCreateDynamic 0x0300 0 64 5, .go, .kernel .resume, .go, .go, .kernel .resume, .kernel .run,
    .kernel (.call (.osDelay 1)), .kernel (.call (.osTaskDelete none)), .osTaskReap, .go, .kernel .resume,
    .kernel .tickEnter, .kernel .tickLeave, .kernel .resume, .kernel .resume]

theorem reap_frees_gone_interrupted : ∃ s, steps (DynamicSystem.step smallHeap smallBoard)
    (DynamicSystem.init [] fun _ => 0) interruptedReaper = some s ∧ s.Takes 301 65 ∧ s.Gone 65 := by
  have hrun : (steps (DynamicSystem.step smallHeap smallBoard) (DynamicSystem.init [] fun _ => 0) interruptedReaper).map
      (fun s => decide (s.Takes 301 65)) = some true := by decide +kernel
  obtain ⟨s, hs, ht⟩ := Option.map_eq_some_iff.mp hrun
  have htake := of_decide_eq_true ht
  have hreach : ReachableFrom smallHeap smallBoard [] (fun _ => 0) s := Reach.steps_reach _ (fun _ _ _ => trivial) .init hs
  exact ⟨s, hs, htake, ((reap_frees_gone smallHeap_correct smallHeap_empty hreach).1 301 65 htake).1⟩

/-! ### Sooner or later -/

/-- Whom the action deletes, if anybody, as `osTaskDelete` gets it. -/
def deletes : DynamicAction c → Option (Option (Place c))
  | .kernel (.call (.osTaskDelete o)) => some o
  | _ => none

/-- Nobody who is about to free the memory of a task is deleted, which the idle task never is. -/
def Spares (s : DynamicSystem c Links H) (a : DynamicAction c) : Prop :=
  ∀ o ∈ deletes a, o.getD s.kernel.currentTask ≠ osIdleTask →
    ∀ t, ¬ s.Takes (o.getD s.kernel.currentTask) t

instance (s : DynamicSystem c Links H) (a : DynamicAction c) : Decidable (s.Spares a) :=
  inferInstanceAs (Decidable (∀ o ∈ deletes a, _))

/-- The memory of every dead task is waiting to be freed, or somebody is about to free it. -/
def Accounted (s : DynamicSystem c Links H) : Prop :=
  ∀ t, s.Keeps t → s.kernel.stateOf t = OS_TASK_DEAD →
    t ∈ s.kernel.list .dead ∨ ∃ u, s.kernel.stateOf u ≠ OS_TASK_DEAD ∧ s.Takes u t

theorem Accounted.turn (h : s.Accounted) {x : DynamicSystem c Links H} (hk : x.kernel = s.kernel)
    (hkeeps : ∀ t, x.Keeps t → s.Keeps t) (htakes : ∀ u t, s.Takes u t → x.Keeps t → x.Takes u t) : x.Accounted := by
  intro t ht hd
  rw [hk] at hd ⊢
  rcases h t (hkeeps t ht) hd with hm | ⟨u, hu, htake⟩
  · exact Or.inl hm
  · exact Or.inr ⟨u, hu, htakes u t htake ht⟩

theorem takes_kept {x : DynamicSystem c Links H} {v u t : Place c} {call : Option (HeapCall c)}
    (hx : x.calls = Function.update s.calls v call) (hv : ¬ s.Takes v t) (hu : s.Takes u t) : x.Takes u t := by
  have hne : u ≠ v := fun he => hv (he ▸ hu)
  obtain ⟨next, hu⟩ := hu
  exact ⟨next, by rw [hx, Function.update_of_ne hne, hu]⟩

theorem not_takes {u t : Place c} (hu : ∀ task next, s.calls u ≠ some (.free task next)) : ¬ s.Takes u t := by
  rintro ⟨next, he⟩
  exact hu t next he

/-- A task comes to life at a place where nobody has been alive. -/
theorem Accounted.create (h : s.Accounted) (hs : Sim s.kernel l) (hr : Rest l) {x : DynamicSystem c Links H}
    {t : Place c} {p : Byte} {d : Bool} (hk : s.kernel.step (.call (.osTaskCreate t p d)) = some x.kernel)
    (hkeeps : ∀ u, u ≠ t → x.Keeps u → s.Keeps u) (htakes : ∀ u v, u ≠ t → s.Takes u v → x.Takes u v) :
    x.Accounted := by
  obtain ⟨l', hl', hs'⟩ := step_sim hs hr _ hk
  obtain ⟨ht, -, hlist, hdead, -⟩ := create_step hr hl'
  intro u hu hd
  rw [hs'.stateOf, hdead, ← hs.stateOf] at hd
  rcases h u (hkeeps u hd.2 hu) hd.1 with hm | ⟨v, hv, htake⟩
  · rw [hs.list] at hm
    rw [hs'.list, hlist]
    exact Or.inl hm
  · have hne : v ≠ t := fun he => hv (by rw [hs.stateOf, he, ht])
    refine Or.inr ⟨v, ?_, htakes v u hne htake⟩
    rw [hs'.stateOf, Ne, hdead, ← hs.stateOf]
    exact fun hdv => hv hdv.1

theorem Accounted.kernelStep (h : s.Accounted) (ht : Tidy A B s l) {a : Action c} (hl : s.legal B a)
    (hsp : s.Spares (.kernel a)) (hc : ∀ t p d, a ≠ .call (.osTaskCreate t p d)) {k' : Kernel c Links}
    (hk : s.kernel.step a = some k') : Accounted { s with kernel := k' } := by
  obtain ⟨l', hl', hs'⟩ := step_sim ht.sim ht.rest a hk
  have hb := step_buried ht.rest hl'
  intro u hu hd
  have hold : s.kernel.stateOf u = OS_TASK_DEAD → u ∈ l.links .dead ∨
      ∃ v, l.stateOf v ≠ OS_TASK_DEAD ∧ s.Takes v u := fun hdu => by
    rcases h u hu hdu with hm | ⟨v, hv, htake⟩
    · exact Or.inl (ht.sim.list .dead ▸ hm)
    · exact Or.inr ⟨v, ht.sim.stateOf v ▸ hv, htake⟩
  dsimp only at hd ⊢
  rw [hs'.stateOf] at hd
  rw [hs'.list]
  simp only [hs'.stateOf]
  rw [ht.sim.stateOf] at hold
  cases hb with
  | same hm hdead =>
    rcases hold ((hdead u).mp hd) with hm' | ⟨v, hv, htake⟩
    · exact Or.inl (hm.list ▸ hm')
    · exact Or.inr ⟨v, fun hdv => hv ((hdead v).mp hdv), htake⟩
  | create t p d => exact absurd rfl (hc t p d)
  | delete o t ho hlist hdead hy hi hne =>
    rcases (hdead u).mp hd with hdu | rfl
    · rcases hold hdu with hm | ⟨v, hv, htake⟩
      · refine Or.inl ?_
        rw [hlist]
        split
        · exact List.mem_cons_of_mem _ hm
        · exact hm
      · refine Or.inr ⟨v, fun hdv => ?_, htake⟩
        rcases (hdead v).mp hdv with hdv | rfl
        · exact hv hdv
        · have hv : o.getD s.kernel.currentTask = v := by rw [ht.sim.current, ho]
          exact hsp o rfl (hv ▸ hi) u (hv ▸ htake)
    · refine Or.inl ?_
      rw [hlist, if_pos (ht.dynamic u hu)]
      exact List.mem_cons_self
  | reap => exact absurd hl.2 Bool.false_ne_true

/-- The first task on `osDeadList` changes hands. -/
theorem Accounted.reap (h : s.Accounted) (ht : Tidy A B s l) {next : Option (Bool × Request)} {k' : Kernel c Links}
    (hu : s.calls s.kernel.currentTask = some (.reap next)) (hk : s.kernel.step (.call .osTaskReap) = some k') :
    Accounted { s.setCall (match LinkStore.head s.kernel.links .dead with
      | some task => some (.free task next)
      | none => next.map fun (again, request) => .malloc again request) with kernel := k' } := by
  obtain ⟨l', hl', hs'⟩ := step_sim ht.sim ht.rest _ hk
  obtain ⟨hlist, htasks, -⟩ := reap_step hl'
  have hstate : ∀ u, k'.stateOf u = s.kernel.stateOf u := fun u => by
    rw [hs'.stateOf, ht.sim.stateOf, stateOf, stateOf, htasks]
  have hhead : LinkStore.head s.kernel.links .dead = (l.links .dead).head? := ht.sim.links_head _
  intro u hkeep hd
  dsimp only at hd ⊢
  simp only [hstate] at hd ⊢
  rcases h u hkeep hd with hm | ⟨v, hv, htake⟩
  · rw [ht.sim.list] at hm
    rw [hs'.list, hlist]
    cases hl : l.links .dead with
    | nil =>
      rw [hl] at hm
      cases hm
    | cons t tail =>
      rw [hl] at hm hhead
      rcases List.mem_cons.mp hm with rfl | hm
      · refine Or.inr ⟨s.kernel.currentTask, ?_, next, ?_⟩
        · rw [ht.sim.stateOf, ht.sim.current, ht.rest.running.kind]
          simp
        · show Function.update s.calls s.kernel.currentTask _ s.kernel.currentTask = _
          rw [Function.update_self, hhead]
          rfl
      · exact Or.inl hm
  · refine Or.inr ⟨v, hv, takes_kept (s := s) rfl (not_takes fun task next' he => ?_) htake⟩
    rw [hu] at he
    cases he

theorem Accounted.go (h : s.Accounted) (ht : Tidy A B s l) {call : HeapCall c}
    (hu : s.calls s.kernel.currentTask = some call) (hs : s.go A B call = some s') : s'.Accounted := by
  have hidle : (∀ task next, call ≠ .free task next) → ∀ t, ¬ s.Takes s.kernel.currentTask t :=
    fun hne t => not_takes fun task next he => hne task next (Option.some.inj (hu.symm.trans he))
  cases call with
  | reap next =>
    obtain ⟨k', hk, rfl⟩ := Option.map_eq_some_iff.mp hs
    exact h.reap ht hu hk
  | free t next =>
    cases hs
    refine h.turn rfl (fun u hk => ?_) fun u v htake hk => ?_
    · by_cases hut : u = t
      · subst hut
        have hk' : Function.update s.freed u (s.freed u + 1) u < s.created u := hk
        rw [Function.update_self] at hk'
        show s.freed u < s.created u
        omega
      · have hk' : Function.update s.freed t (s.freed t + 1) u < s.created u := hk
        rw [Function.update_of_ne hut] at hk'
        exact hk'
    · refine takes_kept (s := s) rfl (fun htake' => ?_) htake
      obtain ⟨next', he⟩ := htake'
      obtain rfl : t = v := by
        rw [hu] at he
        cases he
        rfl
      have hk' : Function.update s.freed t (s.freed t + 1) t < s.created t := hk
      have hcount := (ht.counts t).2
      rw [Function.update_self] at hk'
      omega
  | malloc again request =>
    have hnot := hidle fun task next he => by cases he
    unfold DynamicSystem.go at hs
    dsimp only at hs
    split at hs
    · split at hs
      · cases hs
        exact h.turn rfl (fun _ hk => hk) fun u v htake _ => takes_kept (s := s) rfl (hnot v) htake
      · cases hs
        exact h.turn rfl (fun _ hk => hk) fun u v htake _ => takes_kept (s := s) rfl (hnot v) htake
    · cases hs
      exact h.turn rfl (fun _ hk => hk) fun u v htake _ => takes_kept (s := s) rfl (hnot v) htake
  | setup memory size function param priority =>
    have hnot := hidle fun task next he => by cases he
    unfold DynamicSystem.go at hs
    dsimp only at hs
    split at hs
    case h_1 d t hd =>
      obtain ⟨k', hk, rfl⟩ := Option.map_eq_some_iff.mp hs
      refine h.create ht.sim ht.rest (t := t) hk (fun u hut hku => ?_) fun u v hut htake => ?_
      · have hku' : s.freed u < Function.update s.created t (s.created t + 1) u := hku
        rwa [Function.update_of_ne hut] at hku'
      · have hne : u ≠ s.kernel.currentTask := fun he => hnot v (he ▸ htake)
        obtain ⟨next, he⟩ := htake
        refine ⟨next, ?_⟩
        show Function.update (Function.update s.calls s.kernel.currentTask none) t none u = _
        rw [Function.update_of_ne hut, Function.update_of_ne hne, he]
    case h_2 =>
      cases hs
      exact h.turn rfl (fun _ hk => hk) fun u v htake _ => takes_kept (s := s) rfl (hnot v) htake
  | release p =>
    have hnot := hidle fun task next he => by cases he
    cases hs
    exact h.turn rfl (fun _ hk => hk) fun u v htake _ => takes_kept (s := s) rfl (hnot v) htake

theorem Accounted.step (h : s.Accounted) (ht : Tidy A B s l) {a : DynamicAction c} (hsp : s.Spares a)
    (hs : s.step A B a = some s') : s'.Accounted := by
  cases a with
  | kernel a =>
    unfold DynamicSystem.step at hs
    dsimp only at hs
    split at hs
    case isTrue hl =>
      obtain ⟨k', hk, rfl⟩ := Option.map_eq_some_iff.mp hs
      split
      case h_1 t p d =>
        refine h.create ht.sim ht.rest (t := t) hk (fun _ _ hk => hk) fun u v hut htake => htake.imp fun next he => ?_
        show Function.update s.calls t none u = _
        rw [Function.update_of_ne hut, he]
      case h_2 hc => exact h.kernelStep ht hl hsp (fun t p d he => hc t p d he) hk
    case isFalse => cases hs
  | go =>
    unfold DynamicSystem.step at hs
    dsimp only at hs
    split at hs
    case isTrue =>
      obtain ⟨call, hu, hs⟩ := Option.bind_eq_some_iff.mp hs
      exact h.go ht hu hs
    case isFalse => cases hs
  | osTaskReap | osMalloc | osFree | osTaskCreateDynamic =>
    unfold DynamicSystem.step at hs
    dsimp only at hs
    split at hs
    case isTrue hidle =>
      cases hs
      refine h.turn rfl (fun _ hk => hk) fun u v htake _ => ?_
      first
        | exact htake
        | exact takes_kept (s := s) rfl (not_takes fun task next he => by simp [atLarge, he] at hidle) htake
    case isFalse => cases hs

/-- Nobody comes back to life but by a creation, which takes new memory. -/
theorem Tidy.lives (h : Tidy A B s l) {a : DynamicAction c} (hs : s.step A B a = some s') (t : Place c) :
    s.created t ≤ s'.created t ∧ (s.kernel.stateOf t = OS_TASK_DEAD →
      s'.kernel.stateOf t = OS_TASK_DEAD ∨ s.created t < s'.created t ∨ s.created t = 0) := by
  have hsame : ∀ {a : Action c} {k' : Kernel c Links}, s.kernel.step a = some k' →
      (∀ p d, a ≠ .call (.osTaskCreate t p d)) → s.kernel.stateOf t = OS_TASK_DEAD → k'.stateOf t = OS_TASK_DEAD := by
    intro a k' hk hc hd
    obtain ⟨l', hl', hs'⟩ := step_sim h.sim h.rest a hk
    have hb := step_buried h.rest hl'
    rw [h.sim.stateOf] at hd
    rw [hs'.stateOf]
    cases hb with
    | same hm hdead => exact (hdead t).mpr hd
    | create u p d hlist hdead =>
      exact (hdead t).mpr ⟨hd, fun he => hc p d (he ▸ rfl)⟩
    | delete o u ho hlist hdead => exact (hdead t).mpr (Or.inl hd)
    | reap hlist hdead => exact (hdead t).mpr hd
  cases a with
  | kernel a =>
    unfold DynamicSystem.step at hs
    dsimp only at hs
    split at hs
    case isTrue hl =>
      obtain ⟨k', hk, rfl⟩ := Option.map_eq_some_iff.mp hs
      split
      case h_1 u p d =>
        refine ⟨le_rfl, fun hd => ?_⟩
        by_cases htu : t = u
        · subst htu
          exact Or.inr (Or.inr (by
            by_contra hne
            exact (of_decide_eq_true hl.2).2 (h.homes t (by omega))))
        · refine Or.inl (hsame hk (fun p' d' he => ?_) hd)
          cases he
          exact htu rfl
      case h_2 hc => exact ⟨le_rfl, fun hd => Or.inl (hsame hk (fun p d => hc t p d) hd)⟩
    case isFalse => cases hs
  | go =>
    unfold DynamicSystem.step at hs
    dsimp only at hs
    split at hs
    case isTrue =>
      obtain ⟨call, -, hs⟩ := Option.bind_eq_some_iff.mp hs
      unfold DynamicSystem.go at hs
      split at hs
      · obtain ⟨k', hk, rfl⟩ := Option.map_eq_some_iff.mp hs
        exact ⟨le_rfl, fun hd => Or.inl (hsame hk (by simp) hd)⟩
      · cases hs
        exact ⟨le_rfl, Or.inl⟩
      · split at hs
        · split at hs <;> cases hs <;> exact ⟨le_rfl, Or.inl⟩
        · cases hs
          exact ⟨le_rfl, Or.inl⟩
      · split at hs
        case h_1 d u _ =>
          obtain ⟨k', hk, rfl⟩ := Option.map_eq_some_iff.mp hs
          dsimp only
          by_cases htu : t = u
          · subst htu
            rw [Function.update_self]
            exact ⟨by omega, fun _ => Or.inr (Or.inl (by omega))⟩
          · rw [Function.update_of_ne htu]
            refine ⟨le_rfl, fun hd => Or.inl (hsame hk (fun p' d' he => ?_) hd)⟩
            cases he
            exact htu rfl
        case h_2 =>
          cases hs
          exact ⟨le_rfl, Or.inl⟩
      · cases hs
        exact ⟨le_rfl, Or.inl⟩
    case isFalse => cases hs
  | osTaskReap | osMalloc | osFree | osTaskCreateDynamic =>
    unfold DynamicSystem.step at hs
    dsimp only at hs
    split at hs
    · cases hs
      exact ⟨le_rfl, Or.inl⟩
    · cases hs

/-- The task is inside of `osTaskReap`. -/
def Reaps (s : DynamicSystem c Links H) (u : Place c) : Prop :=
  (∃ next, s.calls u = some (.reap next)) ∨ ∃ t, s.Takes u t

/-- Once nothing is on the list and nobody is about to free anything, there is nothing to be freed. -/
theorem Accounted.finished (h : s.Accounted) (hlist : s.kernel.list .dead = [])
    (hnone : ∀ u t, s.kernel.stateOf u ≠ OS_TASK_DEAD → ¬ s.Takes u t) (t : Place c)
    (hd : s.kernel.stateOf t = OS_TASK_DEAD) : s.created t ≤ s.freed t := by
  by_contra hlt
  rcases h t (by rw [Keeps]; omega) hd with hm | ⟨u, hu, htake⟩
  · rw [hlist] at hm
    cases hm
  · exact hnone u t hu htake

/-- In a run which deletes nobody who is about to free memory. -/
theorem spared_run (hA : A.Correct B.heapStart B.heapEnd) (ht : ∃ l, Tidy A B s l) (ha : s.Accounted)
    (h : Reach (DynamicSystem.step A B) Spares s s') : (∃ l, Tidy A B s' l) ∧ s'.Accounted ∧
      ∀ t, s.created t ≤ s'.created t ∧ (s.kernel.stateOf t = OS_TASK_DEAD →
        s'.kernel.stateOf t = OS_TASK_DEAD ∨ s.created t < s'.created t ∨ s.created t = 0) := by
  refine h.invariant (I := fun x => (∃ l, Tidy A B x l) ∧ x.Accounted ∧ ∀ t, s.created t ≤ x.created t ∧
    (s.kernel.stateOf t = OS_TASK_DEAD → x.kernel.stateOf t = OS_TASK_DEAD ∨ s.created t < x.created t ∨ s.created t = 0))
    ⟨ht, ha, fun t => ⟨le_rfl, Or.inl⟩⟩ fun x a x' _ hx hsp hs => ?_
  obtain ⟨⟨l, hx⟩, hax, hlives⟩ := hx
  refine ⟨hx.step hA hs, hax.step hx hsp hs, fun t => ?_⟩
  obtain ⟨hle, hdead⟩ := hlives t
  obtain ⟨hle', hdead'⟩ := hx.lives hs t
  refine ⟨hle.trans hle', fun hd => ?_⟩
  rcases hdead hd with hd | hlt | h0
  · rcases hdead' hd with hd' | hlt | h0
    · exact Or.inl hd'
    · exact Or.inr (Or.inl (by omega))
    · exact Or.inr (Or.inr (by omega))
  · exact Or.inr (Or.inl (by omega))
  · exact Or.inr (Or.inr h0)

/-- The last round of `osTaskReap`. -/
theorem Tidy.lastRound (h : Tidy A B s l) {u : Place c} (hu : s.kernel.currentTask = u)
    (hcall : s.calls u = some (.reap none)) (hs : s.step A B .go = some s') (hdone : s'.calls u = none) :
    s'.kernel.list .dead = [] ∧ (∀ t, s'.kernel.stateOf t = s.kernel.stateOf t) ∧ s'.freed = s.freed ∧
      s'.calls = Function.update s.calls u none := by
  subst hu
  unfold DynamicSystem.step at hs
  dsimp only at hs
  split at hs
  case isTrue =>
    rw [hcall] at hs
    obtain ⟨k', hk, rfl⟩ := Option.map_eq_some_iff.mp hs
    obtain ⟨l', hl', hs'⟩ := step_sim h.sim h.rest _ hk
    obtain ⟨hlist, htasks, -⟩ := reap_step hl'
    have hhead : LinkStore.head s.kernel.links .dead = (l.links .dead).head? := h.sim.links_head _
    dsimp only [setCall] at hdone ⊢
    rw [Function.update_self, hhead] at hdone
    have hempty : l.links .dead = [] := by
      cases hl : l.links .dead with
      | nil => rfl
      | cons t tail =>
        rw [hl] at hdone
        cases hdone
    refine ⟨?_, fun t => ?_, rfl, ?_⟩
    · rw [hs'.list, hlist, hempty]
      rfl
    · rw [hs'.stateOf, h.sim.stateOf, stateOf, stateOf, htasks]
    · rw [hhead, hempty]
      rfl
  case isFalse => cases hs

/-- The memory of dead tasks is not lost as long as nobody is deleted who has taken some to free it, and
what there was when the idle task began to reap is freed by the time it is done. -/
theorem dead_are_freed (hA : A.Correct B.heapStart B.heapEnd) (hheap : Heap.Formed B.heapStart B.heapEnd (A.blocks heap))
    (h : Reach (DynamicSystem.step A B) Spares (DynamicSystem.init heap ram) s) :
    (∀ t, s.freed t < s.created t → s.kernel.stateOf t = OS_TASK_DEAD →
      t ∈ s.kernel.list .dead ∨ ∃ u, s.kernel.stateOf u ≠ OS_TASK_DEAD ∧ s.Takes u t) ∧
    ∀ s₁ s₂, Reach (DynamicSystem.step A B) Spares s s₁ → s₁.kernel.currentTask = osIdleTask →
      s₁.calls osIdleTask = some (.reap none) → s₁.step A B .go = some s₂ → s₂.calls osIdleTask = none →
      (∀ u, u ≠ osIdleTask → s₁.kernel.stateOf u ≠ OS_TASK_DEAD → ¬ s₁.Reaps u) →
      ∀ t, s.kernel.stateOf t = OS_TASK_DEAD → s.created t ≤ s₂.freed t := by
  have hstart : (DynamicSystem.init heap ram : DynamicSystem c Links H).Accounted :=
    fun t ht => absurd ht (Nat.lt_irrefl 0)
  obtain ⟨htidy, hacc, -⟩ := spared_run hA ⟨_, Tidy.init hheap ram⟩ hstart h
  refine ⟨hacc, fun s₁ s₂ hr hcur hcall hs hdone hothers t hd => ?_⟩
  obtain ⟨⟨l₁, htidy₁⟩, hacc₁, hlives⟩ := spared_run hA htidy hacc hr
  obtain ⟨hempty, hstate, hfreed, hcalls⟩ := htidy₁.lastRound hcur hcall hs hdone
  have hacc₂ := hacc₁.step htidy₁ (a := .go) (fun o he => by cases he) hs
  have hcreated := htidy₁.lives hs t
  have hnone : ∀ u v, s₂.kernel.stateOf u ≠ OS_TASK_DEAD → ¬ s₂.Takes u v := fun u v hu htake => by
    rcases takes_update hcalls htake with ⟨-, next, he⟩ | ⟨hne, htake⟩
    · cases he
    · exact hothers u hne (hstate u ▸ hu) (Or.inr ⟨v, htake⟩)
  obtain ⟨hle, hdead⟩ := hlives t
  rcases hdead hd with hd | hlt | h0
  · exact (hle.trans hcreated.1).trans (hacc₂.finished hempty hnone t (by rw [hstate]; exact hd))
  · have hcount := (htidy₁.counts t).2
    rw [hfreed]
    omega
  · omega

/-- The one who has been woken up deletes the reaper: the dead task is on no list, nobody is going to free
its memory, and the block is taken for good. -/
theorem deleted_reaper_leaks : ∃ s, steps (DynamicSystem.step smallHeap smallBoard) (DynamicSystem.init [] fun _ => 0)
    (interruptedReaper ++ [DynamicAction.kernel (.call (.osTaskDelete (some 301)))]) = some s ∧
      s.freed 65 < s.created 65 ∧ s.kernel.stateOf 65 = OS_TASK_DEAD ∧ 65 ∉ s.kernel.list .dead ∧
      (∀ u, s.kernel.stateOf u ≠ OS_TASK_DEAD → ¬ s.Takes u 65) ∧ s.heap = [0] := by
  have hrun : (steps (DynamicSystem.step smallHeap smallBoard) (DynamicSystem.init [] fun _ => 0)
      (interruptedReaper ++ [DynamicAction.kernel (.call (.osTaskDelete (some 301)))])).map (fun s => decide
        (s.freed 65 < s.created 65 ∧ s.kernel.stateOf 65 = OS_TASK_DEAD ∧ 65 ∉ s.kernel.list .dead ∧
          (∀ u, s.kernel.stateOf u ≠ OS_TASK_DEAD → ¬ s.Takes u 65) ∧ s.heap = [0])) = some true := by
    decide +kernel
  obtain ⟨s, hs, hp⟩ := Option.map_eq_some_iff.mp hrun
  exact ⟨s, hs, of_decide_eq_true hp⟩

/-- A dynamic task leaves, and the one behind it in the ready list sleeps for a tick. -/
def leftTask : List (DynamicAction (Config.default 302)) :=
  [.osTaskCreateDynamic 0x0300 0 64 5, .go, .kernel .resume, .go, .go, .kernel .resume,
    .kernel (.call (.osTaskCreate 302 3 false)), .kernel .resume, .kernel .run,
    .kernel (.call (.osTaskDelete none)), .kernel (.call (.osDelay 1)), .kernel .resume]

/-- The idle task takes the dead one and is preempted before it frees its memory. Deleting the idle task
does nothing, and when the other one is gone as well it goes on. -/
def reapedByIdle : List (DynamicAction (Config.default 302)) :=
  [.osTaskReap, .go, .kernel .resume, .kernel .tickEnter, .kernel .tickLeave, .kernel .resume,
    .kernel .resume, .kernel (.call (.osTaskDelete (some osIdleTask))), .kernel .resume,
    .kernel (.call (.osTaskDelete none)), .kernel .resume, .go]

/-- The idle task, and nobody else, is about to look at the list for the last time. -/
def lastRoundOfIdle (s : DynamicSystem (Config.default 302) Links (List ℕ)) : Bool :=
  (match s.calls osIdleTask with
    | some (.reap none) => true
    | _ => false) && decide (s.kernel.currentTask = osIdleTask) &&
  decide (∀ u, u ≠ osIdleTask → s.kernel.stateOf u = OS_TASK_DEAD)

theorem dead_are_freed_by_idle : ∃ s s₂ : DynamicSystem (Config.default 302) Links (List ℕ),
    steps (only (DynamicSystem.step smallHeap smallBoard) fun s a => decide (s.Spares a))
      (DynamicSystem.init [] fun _ => 0) leftTask = some s ∧ s.created 65 = 1 ∧ 1 ≤ s₂.freed 65 := by
  have hrun : ((steps (only (DynamicSystem.step smallHeap smallBoard) fun s a => decide (s.Spares a))
      (DynamicSystem.init [] fun _ => 0) leftTask).map fun s => decide
        (s.created 65 = 1 ∧ s.kernel.stateOf 65 = OS_TASK_DEAD ∧
          ((steps (only (DynamicSystem.step smallHeap smallBoard) fun s a => decide (s.Spares a)) s
            reapedByIdle).map fun s₁ => lastRoundOfIdle s₁ &&
              ((s₁.step smallHeap smallBoard .go).map fun s₂ => (s₂.calls osIdleTask).isNone) == some true) =
            some true)) = some true := by
    decide +kernel
  obtain ⟨s, hs, hp⟩ := Option.map_eq_some_iff.mp hrun
  obtain ⟨hcreated, hdead, hrun₁⟩ := of_decide_eq_true hp
  obtain ⟨s₁, hs₁, hp₁⟩ := Option.map_eq_some_iff.mp hrun₁
  rw [Bool.and_eq_true, beq_iff_eq] at hp₁
  obtain ⟨hlast, hrun₂⟩ := hp₁
  obtain ⟨s₂, hs₂, hdone⟩ := Option.map_eq_some_iff.mp hrun₂
  simp only [lastRoundOfIdle, Bool.and_eq_true, decide_eq_true_eq] at hlast
  obtain ⟨⟨hcall, hcur⟩, hothers⟩ := hlast
  have hreap : s₁.calls osIdleTask = some (.reap none) := by
    split at hcall
    case h_1 he => exact he
    case h_2 => cases hcall
  have hreach : Reach (DynamicSystem.step smallHeap smallBoard) Spares (DynamicSystem.init [] fun _ => 0) s :=
    Reach.only_reach (fun _ _ => of_decide_eq_true) _ .init hs
  have hreach₁ : Reach (DynamicSystem.step smallHeap smallBoard) Spares s s₁ :=
    Reach.only_reach (fun _ _ => of_decide_eq_true) _ .init hs₁
  have hfreed := (dead_are_freed smallHeap_correct smallHeap_empty hreach).2 s₁ s₂ hreach₁ hcur hreap hs₂
    (Option.isNone_iff_eq_none.mp hdone) (fun u hne hu => absurd (hothers u hne) hu) 65 hdead
  exact ⟨s, s₂, hs, hcreated, hcreated.ge.trans hfreed⟩

end DynamicSystem

end AvrOs
