import AvrOs.Consistency
import AvrOs.Priorities

/-!
# The place of the idle task

`main` is the most important task until `osRun`, and the least important one from there on.
Nobody but `osTaskSetPriority` can change that.
-/

namespace AvrOs
open Intrusive Transition Kernel

variable {c : Config}

namespace Kernel

variable {S : Type → Type → Type}

/-- `osTaskSetPriority` is called for the idle task. -/
def reprioritisesIdle (k : Kernel c S) : Action c → Prop
  | .call (.osTaskSetPriority t _) => t.getD k.currentTask = osIdleTask
  | _ => False

end Kernel

/-- The idle task has the priority `osInit` and `osRun` have given to it. -/
structure Idle (k : ListKernel c) : Prop where
  before : k.started = false → (k.tasks osIdleTask).basePriority = 255
  after : k.started = true → (k.tasks osIdleTask).basePriority = 0
  lowest : k.started = true → (c.mutexInheritance = true → ∀ m, k.owner m ≠ some osIdleTask) →
    k.priority osIdleTask = 0

section
variable {k k' : ListKernel c} {b : ListKernel c} {a : Action c}

/-- Nothing about the idle task changes. -/
theorem Idle.same (h : Idle k) (hs : k'.started = k.started)
    (hb : (k'.tasks osIdleTask).basePriority = (k.tasks osIdleTask).basePriority)
    (ho : ∀ m, k.owner m = some osIdleTask → k'.owner m = some osIdleTask)
    (hp : (c.mutexInheritance = true → ∀ m, k'.owner m ≠ some osIdleTask) →
      k.priority osIdleTask = 0 → k'.priority osIdleTask = 0) : Idle k' where
  before he := by rw [hb]; exact h.before (hs ▸ he)
  after he := by rw [hb]; exact h.after (hs ▸ he)
  lowest he hm := hp hm (h.lowest (hs ▸ he) fun hi m hk => hm hi m (ho m hk))

theorem Idle.rank (h : Idle k) (hs : k'.started = k.started) (hr : SameRank k k')
    (ho : ∀ m, k.owner m = some osIdleTask → k'.owner m = some osIdleTask) : Idle k' :=
  h.same hs (hr _).2 ho fun _ hp => (hr osIdleTask).1.trans hp

/-- The one who runs settles for what it inherits. -/
theorem Idle.settle (h : Idle k) (hs : Sound k) (t : Place c) :
    Idle (k.setPriority t (k.osInheritedPriority t)) := by
  refine h.same rfl (setPriority_base _ _ _ _) (fun m hm => hm) fun hm hp => ?_
  rw [setPriority_priority]
  split
  case isTrue ht =>
    subst ht
    rw [hs.inherited_base _ hm]
    cases hst : k.started with
    | false =>
      have := hs.bounded.base (h.before hst)
      rw [priority] at hp
      omega
    | true => exact h.after hst
  case isFalse => exact hp

theorem osSettle_idle (h : Idle k) (hs : Sound k) (t : Place c) : Idle (k.osSettle t) := by
  unfold osSettle
  split
  · split
    · exact h.settle hs t
    · exact h
  · exact h

/-- Mutexes of the idle task are not given away by anybody else. -/
theorem release_idle (t m : Place c) (hg : (Atom.release t m).guard k)
    (ht : t ≠ osIdleTask) (m' : Place c) (hm : k.owner m' = some osIdleTask) :
    ((Atom.release t m).apply k).owner m' = some osIdleTask := by
  have hne : m' ≠ m := by
    rintro rfl
    rw [hg.1] at hm
    exact ht (Option.some.inj hm)
  rw [Atom.apply, release_eq]
  rcases pass_cases { k with ownedLinks := offOwned k t m } m with ⟨w, rest, -, he⟩ | ⟨-, he⟩
  · rw [he, osWake_eq, osMutexOwn_eq]
    dsimp only
    rw [Function.update_of_ne hne]
    exact hm
  · rw [he]
    exact (Function.update_of_ne hne ..).trans hm

theorem Atom.idle (x : Atom c) (h : Sound k) (hg : x.guard k) (hb : x.Bare) (hi : Idle k) :
    Idle (x.apply k) := by
  by_cases hx : x.Ranks
  · cases x with
    | start =>
      refine ⟨fun he => (by cases he), fun _ => ?_, fun _ _ => ?_⟩
      · simp [apply, setTask]
      · simp [apply, setTask, priority]
    | settle => exact hi.settle h k.currentTask
    | requeue | setBase => exact absurd hb id
    | create t p d =>
      have ht : osIdleTask ≠ t := by
        rintro rfl
        have hd : (k.tasks osIdleTask).state &&& OS_TASK_STATE = OS_TASK_DEAD := hg.1
        rcases h.alive.idle with hk | hk
        · rw [hk] at hd; simp at hd
        · rw [hk] at hd; simp at hd
      have htk : (k.osTaskSetup t p d).tasks osIdleTask = k.tasks osIdleTask := by
        unfold osTaskSetup
        rw [osReady_eq]
        simp [setTask, setFrame, Kernel.emit, ht]
      refine hi.same rfl (congrArg OsTask.basePriority htk) (fun m hm => hm) fun _ hp => ?_
      exact (congrArg OsTask.priority htk).trans hp
    | age =>
      have he : (Atom.age).apply k = _ := age_fold k _ _ (h.linked.1.separate.nodup _)
      rw [he]
      refine hi.same rfl ?_ (fun m hm => hm) fun _ hp => ?_
      · dsimp only
        split <;> rfl
      · rw [priority]
        dsimp only
        split
        · dsimp only
          rw [hp, aged, if_neg (by omega)]
        · exact hp
    | _ => exact absurd hx id
  · have hs : x ≠ .start := by
      rintro rfl
      exact hx trivial
    refine hi.rank (x.same_started h hg hs) (x.same_rank h hg hx) fun m hm => ?_
    by_cases hown : ∃ m', x = .own m'
    · obtain ⟨m', rfl⟩ := hown
      have hne : m ≠ m' := by
        rintro rfl
        rw [hg.1] at hm
        cases hm
      rw [apply, osMutexOwn_eq]
      dsimp only
      rw [Function.update_of_ne hne]
      exact hm
    · rw [x.owner h hg (fun m' he => hown ⟨m', he⟩) fun t m' he => by subst he; exact hb]
      exact hm

/-- Steps which do not change priorities and do not give mutexes away. -/
theorem Atoms.idle {P : Atom c → Prop} (hr : Atoms P k k') (h : Sound k) (hi : Idle k)
    (hP : ∀ x, P x → ¬ x.Ranks ∧ (∀ m, x ≠ .own m) ∧ ∀ t m, x = .release t m → t ≠ osIdleTask) :
    Idle k' := by
  refine hr.keeps (I := Idle) h (fun s x hs hg hx hi => ?_) hi
  obtain ⟨hx, hown, hrel⟩ := hP x hx
  have hst : x ≠ .start := by
    rintro rfl
    exact hx trivial
  refine hi.rank (x.same_started hs hg hst) (x.same_rank hs hg hx) fun m hm => ?_
  by_cases hr : ∃ t m', x = .release t m'
  · obtain ⟨t, m', rfl⟩ := hr
    exact release_idle t m' hg (hrel t m' rfl) m hm
  · rw [x.owner hs hg hown fun t m' he => hr ⟨t, m', he⟩]
    exact hm

theorem requeue_started (k : ListKernel c) (t : Place c) (p : ℕ) :
    ((k.setPriority t p).osRequeue t).started = k.started := by
  unfold osRequeue
  split <;> rfl

theorem raise_started (fuel : ℕ) (k : ListKernel c) (t : Place c) (p : ℕ) :
    (osPriorityRaiseLoop fuel k t p).started = k.started := by
  induction fuel generalizing k t with
  | zero => rfl
  | succ fuel ih =>
    unfold osPriorityRaiseLoop
    have hone := requeue_started k t p
    dsimp only
    split
    · split
      · split
        · exact (ih _ _).trans hone
        · exact hone
      · exact hone
    · rfl

theorem raise_idle (hi : Idle k) (t : Place c) (p : ℕ)
    (ht : t = osIdleTask → c.mutexInheritance = true ∧ ∃ m, k.owner m = some osIdleTask) :
    Idle (k.osPriorityRaise t p) := by
  have hsame : SameTasks k (k.osPriorityRaise t p) := raiseLoop_same _ k t p
  obtain ⟨hb, hp⟩ := raise_rank k t osIdleTask p
  refine hi.same (raise_started _ k t p) hb (fun m hm => by rw [hsame.owner]; exact hm)
    fun hm h0 => ?_
  rw [hsame.owner] at hm
  rw [hp (fun he => ?_) hm]
  · exact h0
  · obtain ⟨hinh, m, ho⟩ := ht he.symm
    exact hm hinh m ho

theorem requeue_idle (hi : Idle k) (t : Place c) (p : ℕ) (ht : t ≠ osIdleTask) :
    Idle ((k.setPriority t p).osRequeue t) := by
  have hsame := requeue_same k t p
  refine hi.same (requeue_started k t p) (requeue_base k t _ p)
    (fun m hm => by rw [hsame.owner]; exact hm) fun _ h0 => ?_
  rw [requeue_priority, if_neg (Ne.symm ht)]
  exact h0

theorem giveUp_idle (hi : Idle k) (m : Place c) : Idle (giveUp k m) := by
  obtain ⟨hb, hp⟩ := giveUp_rank k m osIdleTask
  have hst : (giveUp k m).started = k.started := by
    unfold giveUp
    split
    · split
      · exact requeue_started _ _ _
      · rfl
    · rfl
  refine hi.same hst hb (fun m' hm => by rw [(giveUp_same k m).owner]; exact hm) fun hm h0 => ?_
  by_cases ho : k.owner m = some osIdleTask
  · -- whatever is inherited, it is not less than nothing
    unfold giveUp
    rw [ho]
    dsimp only
    rw [if_neg (by omega)]
    exact h0
  · rw [hp ho]
    exact h0

theorem urge_idle (hi : Idle k) (hinh : c.mutexInheritance = true) {m owner : Place c}
    (ho : k.owner m = some owner) : Idle (urge k owner) := by
  have hr := raise_idle hi owner (k.priority k.currentTask) fun he => ⟨hinh, m, he ▸ ho⟩
  unfold urge
  dsimp only
  generalize k.osPriorityRaise owner (k.priority k.currentTask) = s at hr ⊢
  exact hr.rank rfl (.update rfl rfl rfl) fun _ hm => hm

theorem unlock_idle (h : Sound k) (hi : Idle k) (m : Place c) (hg : (Move.unlock m).guard k) :
    Idle (unlock k m) := by
  obtain ⟨hk, hr⟩ := hg
  have hs := (Atom.release k.currentTask m).sound h hr
  have hrank := release_rank k k.currentTask m
  have hst := (Atom.release k.currentTask m).same_started h hr (by simp)
  unfold unlock
  dsimp only
  by_cases hc : k.currentTask = osIdleTask
  · have hrel := release_frame h k.currentTask m k.currentTask (by rw [hk]; simp)
    generalize (Atom.release k.currentTask m).apply k = s at hs hrank hst hrel ⊢
    rw [hc]
    split
    case isTrue hinh =>
      refine ⟨fun he => ?_, fun he => ?_, fun he hm => ?_⟩
      · rw [setPriority_base, (hrank _).2]
        exact hi.before (hst ▸ he)
      · rw [setPriority_base, (hrank _).2]
        exact hi.after (hst ▸ he)
      · rw [setPriority_priority, if_pos rfl, hs.inherited_base _ hm, (hrank _).2]
        exact hi.after (hst ▸ he)
    case isFalse hinh =>
      refine ⟨fun he => ?_, fun he => ?_, fun he _ => ?_⟩
      · rw [(hrank _).2]
        exact hi.before (hst ▸ he)
      · rw [(hrank _).2]
        exact hi.after (hst ▸ he)
      · exact (hrank osIdleTask).1.trans (hi.lowest (hst ▸ he) fun hc => absurd hc hinh)
  · have hrel := hi.rank hst hrank (release_idle k.currentTask m hr hc)
    split
    · exact hrel.settle hs _
    · exact hrel

theorem repriority_idle (hi : Idle k) (t : Place c) (p : ℕ) (ht : t ≠ osIdleTask) :
    Idle (repriority k t p) := by
  have hb : Idle (k.setTask t { k.tasks t with basePriority := p }) := by
    have htk : (Function.update k.tasks t { k.tasks t with basePriority := p }) osIdleTask =
        k.tasks osIdleTask := Function.update_of_ne (Ne.symm ht) ..
    exact hi.same rfl (congrArg OsTask.basePriority htk) (fun _ hm => hm)
      fun _ h0 => (congrArg OsTask.priority htk).trans h0
  unfold repriority
  dsimp only
  split
  · exact raise_idle hb t _ fun he => absurd he ht
  · split
    · exact requeue_idle hb t _ ht
    · exact hb

theorem sleep_idle (hi : Idle k) (call : Call c) (list : Option (WaitList c)) (timeout : OsTick c) :
    Idle (k.sleep call list timeout) := by
  refine hi.rank ?_ (sleep_rank k call list timeout) fun m hm => ?_
  · rw [sleep_eq]
  · rw [sleep_eq]
    exact hm

/-- Moves leave the idle task where it is, unless it is given a priority. -/
theorem Move.idle (mv : Move c) (h : Sound k) (hg : mv.guard k)
    (hr : ∀ p, mv ≠ .repriority osIdleTask p) (hi : Idle k) : Idle (mv.apply k) := by
  cases mv with
  | one x => exact x.idle h hg.2 hg.1 hi
  | giveUp m => exact giveUp_idle hi m
  | repriority t p => exact repriority_idle hi t p fun he => hr p (by rw [he])
  | block call list timeout =>
    have hk : k.stateOf k.currentTask = OS_TASK_RUNNING := by rw [stateOf, hg.2.1]; simp
    exact sleep_idle (osSettle_idle hi h k.currentTask) call list timeout
  | lock call m owner timeout =>
    have hgu := hg
    obtain ⟨hinh, hc, hs, ht, ho, -⟩ := hg
    have hk : k.stateOf k.currentTask = OS_TASK_RUNNING := by rw [stateOf, hs]; simp
    have hu := urge_run (P := fun _ => True) (fun _ _ => trivial) trivial h owner hinh hk
      (h.raise_bound ho)
    have hset := osSettle_idle (urge_idle hi hinh ho) (hu.sound h) (urge k owner).currentTask
    exact sleep_idle hset call (some (.mutex m)) timeout
  | lockIdle m owner =>
    have hu := urge_idle hi hg.1 hg.2.2.2
    have hs : Idle ((urge k owner).setState (urge k owner).currentTask OS_TASK_RUNNING) :=
      hu.rank rfl (.update rfl rfl rfl) fun _ hm => hm
    exact giveUp_idle hs m
  | unlock m => exact unlock_idle h hi m hg
  | delete t =>
    refine (delete_run h t hg.1 hg.2).idle h hi fun x hx => ?_
    rcases hx with rfl | ⟨m, rfl⟩ | rfl
    · exact ⟨id, by simp, by simp⟩
    · refine ⟨id, by simp, fun t' m' he => ?_⟩
      injection he with he
      exact he ▸ hg.1
    · exact ⟨id, by simp, by simp⟩
  | setEvent e flags =>
    refine (setEvent_run h e flags).idle h hi fun x hx => ?_
    rcases hx with rfl | ⟨t, rfl⟩ <;> exact ⟨id, by simp, by simp⟩
  | tick =>
    refine (tick_run h).idle h hi fun x hx => ?_
    rcases hx with rfl | ⟨t, rfl⟩ <;> exact ⟨id, by simp, by simp⟩

theorem step_idle (h : Rest k) (ha : ¬ k.reprioritisesIdle a) (hi : Idle k)
    (hs : k.step a = some k') : Idle k' := by
  have hm := (step_moves h.sound h.running h.noDead hs).1
  refine (hm.invariant (I := fun s => Sound s ∧ Idle s) (fun s mv hg hi => ?_) ⟨h.sound, hi⟩).2
  refine ⟨mv.sound hi.1 hg.1, mv.idle hi.1 hg.1 (fun p he => ?_) hi.2⟩
  subst he
  obtain ⟨-, -, -, o, q, rfl, ho⟩ := hg
  exact ha ho

theorem init_idle (c : Config) : Idle (osInit c Lists) :=
  ⟨fun _ => rfl, fun he => (by cases he), fun he => (by cases he)⟩

end

/-- Nobody but `main` runs before `osRun`, and everybody comes before the idle task after it. -/
structure Reserved (k : Kernel c Links) : Prop where
  main : k.started = false → k.currentTask = osIdleTask
  lowest : k.started = true → (∀ m, k.owner m ≠ some osIdleTask) → k.priority osIdleTask = 0
  last : k.started = true → (∀ m, k.owner m ≠ some osIdleTask) → k.currentTask ≠ osIdleTask →
    (k.list .ready).getLast? = some osIdleTask

/-- Whoever has priority zero is the last one of a list in order of priority. -/
theorem last_of_lowest {l : List (Place c)} {f : Place c → ℕ} {i : Place c} (ho : Ordered f l)
    (hn : l.Nodup) (hi : i ∈ l) (h0 : f i = 0) (hpos : ∀ t, t ≠ i → 1 ≤ f t) :
    l.getLast? = some i := by
  obtain ⟨pre, post, rfl⟩ := List.append_of_mem hi
  cases post with
  | nil => simp
  | cons t post =>
    obtain ⟨-, hord, -⟩ := List.pairwise_append.mp ho
    have hle : f t ≤ f i := List.rel_of_pairwise_cons hord (List.mem_cons_self ..)
    have hne : t ≠ i := by
      rintro rfl
      have hd := (List.nodup_append.mp hn).2.1
      simp at hd
    have := hpos t hne
    omega

theorem reserved_of_sim {k : Kernel c Links} {l : ListKernel c} (h : Sim k l) (hl : Rest l)
    (hi : Idle l) : Reserved k := by
  have hs := hl.sound
  have hlow : k.started = true → (∀ m, k.owner m ≠ some osIdleTask) → l.priority osIdleTask = 0 :=
    fun hst hm => hi.lowest (h.started ▸ hst) fun _ m => h.owner ▸ hm m
  refine ⟨fun hst => ?_, fun hst hm => ?_, fun hst hm hc => ?_⟩
  · have hp := hs.bounded.base (hi.before (h.started ▸ hst))
    rw [h.current]
    exact (hs.alive.running _ (hs.bounded.main hp).1).symm
  · rw [h.priority]
    exact hlow hst hm
  · rw [h.current] at hc
    rw [h.list]
    have hmem : osIdleTask ∈ l.links .ready := by
      rcases hs.alive.idle with hk | hk
      · exact absurd (hs.alive.running _ hk).symm hc
      · exact (hs.linked.2 _).ready.mpr hk
    exact last_of_lowest hs.linked.1.ready (hs.linked.1.separate.nodup _) hmem (hlow hst hm)
      fun t ht => (hs.bounded.low t ht).1

/-- As long as nobody gives it another priority, the idle task keeps its place. -/
theorem idle_reserved (k : Kernel c Links)
    (h : ReachableBy (fun k a => ¬ k.reprioritisesIdle a) k) : Reserved k := by
  have hsim : ∃ l : ListKernel c, ReachableBy (fun l a => ¬ l.reprioritisesIdle a) l ∧ Sim k l := by
    refine reachable_sim (fun k l a hs hk hl => hk ?_) h
    unfold reprioritisesIdle at hl ⊢
    split at hl
    · rw [hs.current]
      exact hl
    · exact hl
  obtain ⟨l, hl, hs⟩ := hsim
  have hinv : Rest l ∧ Idle l :=
    hl.invariant (I := fun l => Rest l ∧ Idle l) ⟨init_rest c, init_idle c⟩
      fun _ _ _ _ hi ha hst => ⟨hi.1.step hst, step_idle hi.1 ha hi.2 hst⟩
  exact reserved_of_sim hs hinv.1 hinv.2

/-- `main` lowers its own priority, so a task it has created runs before `osRun`. -/
theorem idle_not_reserved :
    ¬ ∀ k : Kernel (Config.default 2) Links, Reachable k → Reserved k := by
  intro h
  have hrun : (steps step (osInit (Config.default 2) Links)
      [.call (.osTaskCreate 1 9 false), .resume, .call (.osTaskSetPriority none 5)]).map
      (fun k => (k.started, k.currentTask)) = some (false, 1) := by decide +kernel
  obtain ⟨k, hk, hc⟩ := Option.map_eq_some_iff.mp hrun
  injection hc with hst hcur
  have hm := (h k (Reach.steps_reach _ (fun _ _ _ => trivial) .init hk)).main hst
  rw [hcur] at hm
  revert hm
  decide

/-- A task is created and gets the processor from `osRun`. -/
theorem idle_reserved_taken : ∃ k, steps step (osInit (Config.default 2) Links)
    [.call (.osTaskCreate 1 9 false), .resume, .run] = some k ∧ Reserved k := by
  obtain ⟨k, hk⟩ := Option.isSome_iff_exists.mp (show (steps step (osInit (Config.default 2) Links)
    [.call (.osTaskCreate 1 9 false), .resume, .run]).isSome = true by decide +kernel)
  refine ⟨k, hk, idle_reserved k (Reach.steps_reach _ (fun a ha s => ?_) .init hk)⟩
  simp only [List.mem_cons, List.not_mem_nil, or_false] at ha
  rcases ha with rfl | rfl | rfl <;> exact id

end AvrOs
