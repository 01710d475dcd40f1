import AvrOs.Lines

/-!
# Tasks which are gone

Only a deletion adds to `osDeadList`, only `osTaskReap` takes off it, and nobody comes back to life
but by a creation.
-/

namespace AvrOs
open Intrusive Transition Kernel

variable {c : Config} {k k' : ListKernel c} {a : Action c}

/-- Whose memory is waiting to be freed and whose memory is to be freed one day. -/
structure SameMemory (k k' : ListKernel c) : Prop where
  list : k'.links .dead = k.links .dead
  dynamic : ∀ t, (k'.tasks t).dynamic = (k.tasks t).dynamic

theorem SameMemory.trans {k₁ : ListKernel c} (h : SameMemory k k₁) (h' : SameMemory k₁ k') : SameMemory k k' :=
  ⟨h'.list.trans h.list, fun t => (h'.dynamic t).trans (h.dynamic t)⟩

theorem SameMemory.same (hl : k'.links .dead = k.links .dead) (ht : k'.tasks = k.tasks) : SameMemory k k' :=
  ⟨hl, fun t => by rw [ht]⟩

theorem SameMemory.update {t : Place c} {x : OsTask c} (hl : k'.links .dead = k.links .dead)
    (ht : k'.tasks = Function.update k.tasks t x) (hx : x.dynamic = (k.tasks t).dynamic) : SameMemory k k' := by
  refine ⟨hl, fun u => ?_⟩
  rw [ht]
  by_cases hu : u = t
  · subst hu
    rw [Function.update_self, hx]
  · rw [Function.update_of_ne hu]

theorem wake_memory (k : ListKernel c) (t : Place c) (r : Bool) : SameMemory k (k.osWake t r) :=
  .update (wake_dead k t r) (congrArg Kernel.tasks (osWake_eq k t r)) rfl

theorem requeue_memory (k : ListKernel c) (t : Place c) (p : ℕ) :
    SameMemory k ((k.setPriority t p).osRequeue t) := by
  refine .update ?_ (requeue_tasks k t p) rfl
  cases hl : k.priorityList t with
  | none =>
    rw [requeue_off k t p hl]
    rfl
  | some l =>
    have hdead : ListId.dead ≠ l := by
      rintro rfl
      unfold priorityList at hl
      split at hl <;> simp at hl
    rw [requeue_links k t p l hl, Lists.insert_of_ne _ _ _ _ _ hdead, Lists.remove_of_ne _ _ _ _ hdead]

theorem detach_dead (h : Linked k) {t : Place c} (hd : k.stateOf t ≠ OS_TASK_DEAD) :
    (k.osTaskDetach t).links .dead = k.links .dead := by
  rw [h.detach_eq hd]
  exact List.erase_of_not_mem (h.notDead hd)

theorem sleep_dead (k : ListKernel c) (call : Call c) (list : Option (WaitList c)) (timeout : OsTick c) :
    (k.sleep call list timeout).links .dead = k.links .dead := by
  rw [sleep_eq]
  dsimp only
  unfold onWait
  cases list with
  | none => rfl
  | some w => exact Lists.insert_of_ne _ _ _ _ _ (by simp)

/-- Steps which leave the memory of tasks alone, up to the ones a deletion and a creation take. -/
theorem Atom.memory (x : Atom c) (h : Sound k) (hg : x.guard k) (hb : ∀ t, x ≠ .bury t) (hr : x ≠ .reap)
    (hc : ∀ t p d, x ≠ .create t p d) : SameMemory k (x.apply k) := by
  cases x with
  | bury t => exact absurd rfl (hb t)
  | reap => exact absurd rfl hr
  | create t p d => exact absurd rfl (hc t p d)
  | called | returns | pause | timerCalled | quiet | take | flagsSet | flagsClear | tick => exact .same rfl rfl
  | leave =>
    refine .same ?_ (leave_tasks k)
    rcases leave_cases k with ⟨call, value, -, he⟩ | ⟨-, he⟩
    · rw [apply, he]
      rfl
    · rw [apply, he]
      rfl
  | start => exact .update (t := osIdleTask) rfl rfl rfl
  | settle | flag | unflag | setWait => exact .update (t := k.currentTask) rfl rfl rfl
  | setBase t p => exact .update (t := t) rfl rfl rfl
  | requeue t p => exact requeue_memory k t p
  | preempt key =>
    refine .update (t := k.currentTask) ?_ rfl rfl
    simp only [apply, osListInsert]
    exact Lists.insert_of_ne _ _ _ _ _ (by simp)
  | dispatch =>
    obtain ⟨-, n, hn⟩ := osDispatch_sound h hg
    rw [apply, osDispatch_eq k n hn]
    exact .update (t := n) (Lists.pop_of_ne k.links .ready .dead (by simp)) rfl rfl
  | sleep call list timeout =>
    refine .update (sleep_dead k call list timeout) (congrArg Kernel.tasks (sleep_eq k call list timeout)) ?_
    unfold sleeper
    dsimp only
    split <;> rfl
  | expire t => exact wake_memory k t false
  | kill t => exact .update (detach_dead h.linked hg.2) (kill_tasks h.linked t) rfl
  | park t => exact .update (detach_dead h.linked hg.2.1) (park_tasks h.linked t) rfl
  | unpark t =>
    rw [apply, osReady_eq]
    exact .update (t := t) (onReady_of_ne (k.emit (.resumed t)) k.links t .dead (by simp)) rfl rfl
  | own m =>
    rw [apply, osMutexOwn_eq]
    exact .same rfl rfl
  | release t m =>
    rw [apply, release_eq]
    rcases pass_cases { k with ownedLinks := offOwned k t m } m with ⟨w, rest, -, he⟩ | ⟨-, he⟩
    · rw [he]
      refine SameMemory.trans (.same ?_ ?_) (wake_memory _ w true)
      all_goals rw [osMutexOwn_eq]
    · rw [he]
      exact .same rfl rfl
  | mutexInit m => exact .same (congrFun (clear_empty hg.1) .dead) rfl
  | semaphoreInit s count limit => exact .same (congrFun (clear_empty hg) .dead) rfl
  | queueInit q itemSize length => exact .same (congrFun (clear_empty hg) .dead) rfl
  | eventInit e => exact .same (congrFun (clear_empty hg) .dead) rfl
  | give s =>
    rw [apply]
    rcases give_cases k s with ⟨w, rest, -, he⟩ | ⟨-, -, he⟩ | ⟨-, -, he⟩
    · have hgave : SameMemory k (k.emit (.gave s)) := .same rfl rfl
      rw [he]
      exact hgave.trans (wake_memory _ w true)
    · rw [he]
      exact .same rfl rfl
    · rw [he]
      exact .same rfl rfl
  | send q item =>
    rw [apply]
    rcases send_cases k q item with ⟨w, rest, -, -, he⟩ | ⟨-, -, he⟩ | ⟨-, -, he⟩
    · rw [he]
      exact SameMemory.trans (.same (by rw [hand_links]) (hand_tasks ..)) (wake_memory _ w true)
    · rw [he]
      exact .same (by rw [append_links]) (append_tasks k q item)
    · rw [he]
      exact .same rfl rfl
  | receive q item =>
    rw [apply]
    rcases receive_cases k q item with ⟨w, rest, -, -, he⟩ | ⟨-, -, he⟩ | ⟨-, he⟩
    · rw [he]
      refine SameMemory.trans (.same ?_ ?_) (wake_memory _ w true)
      · rw [append_links, take_links]
      · rw [append_tasks, take_tasks]
    · rw [he]
      exact .same (by rw [take_links]) (take_tasks k q item)
    · rw [he]
      exact .same rfl rfl
  | consume e wanted options =>
    obtain ⟨ht, hl, -⟩ := consume_frame k e (osEventMatch (k.events e) wanted options) options
    exact .same (congrFun hl _) ht
  | serve e t =>
    rw [apply]
    rcases serve_cases k e t with ⟨-, he⟩ | ⟨matched, options, -, -, -, he⟩
    · rw [he]
      exact .same rfl rfl
    · obtain ⟨htk, hl, -⟩ := consume_frame (k.emit (.visited e t)) e matched options
      have hsame : SameMemory k (((k.emit (.visited e t)).osEventConsume e matched options).emit
          (.satisfied e t matched options)) := .same (congrFun hl .dead) htk
      have hwait : ∀ s : ListKernel c, SameMemory s (s.setWait t (.event matched options)) := fun s =>
        .update (t := t) rfl rfl rfl
      rw [he]
      exact (hsame.trans (hwait _)).trans (wake_memory _ t true)
  | age =>
    rw [apply, age_fold _ _ _ (h.linked.1.separate.nodup _)]
    refine ⟨rfl, fun t => ?_⟩
    dsimp only
    split <;> rfl

/-! ### Actions -/

/-- What becomes of memory of tasks and of the tasks which are dead: nothing, or what the one call says. -/
inductive Buried (k : ListKernel c) : Action c → ListKernel c → Prop
  | same {a : Action c} {k' : ListKernel c} (hm : SameMemory k k')
    (hd : ∀ t, k'.stateOf t = OS_TASK_DEAD ↔ k.stateOf t = OS_TASK_DEAD) : Buried k a k'
  | create {k' : ListKernel c} (t : Place c) (p : Byte) (d : Bool) (hl : k'.links .dead = k.links .dead)
    (hd : ∀ u, k'.stateOf u = OS_TASK_DEAD ↔ k.stateOf u = OS_TASK_DEAD ∧ u ≠ t)
    (hy : ∀ u, (k'.tasks u).dynamic = if u = t then c.dynamic && d else (k.tasks u).dynamic)
    (ht : k.stateOf t = OS_TASK_DEAD) (hn : t ∉ k.links .dead) : Buried k (.call (.osTaskCreate t p d)) k'
  | delete {k' : ListKernel c} (o : Option (Place c)) (t : Place c) (ho : o.getD k.currentTask = t)
    (hl : k'.links .dead = if (k.tasks t).dynamic then t :: k.links .dead else k.links .dead)
    (hd : ∀ u, k'.stateOf u = OS_TASK_DEAD ↔ k.stateOf u = OS_TASK_DEAD ∨ u = t)
    (hy : ∀ u, (k'.tasks u).dynamic = (k.tasks u).dynamic)
    (hi : t ≠ osIdleTask) (ht : k.stateOf t ≠ OS_TASK_DEAD) : Buried k (.call (.osTaskDelete o)) k'
  | reap {k' : ListKernel c} (hl : k'.links .dead = (k.links .dead).tail)
    (hd : ∀ t, k'.stateOf t = OS_TASK_DEAD ↔ k.stateOf t = OS_TASK_DEAD)
    (hy : ∀ t, (k'.tasks t).dynamic = (k.tasks t).dynamic) : Buried k (.call .osTaskReap) k'

theorem Buried.on {b : ListKernel c} (h : Buried b a k) (hm : SameMemory k k')
    (hd : ∀ t, k'.stateOf t = OS_TASK_DEAD ↔ k.stateOf t = OS_TASK_DEAD) : Buried b a k' := by
  cases h with
  | same hm₀ hd₀ => exact .same (hm₀.trans hm) fun t => (hd t).trans (hd₀ t)
  | create t p d hl hd₀ hy ht hn =>
    exact .create t p d (hm.list.trans hl) (fun u => (hd u).trans (hd₀ u)) (fun u => (hm.dynamic u).trans (hy u)) ht hn
  | delete o t ho hl hd₀ hy hi ht =>
    exact .delete o t ho (hm.list.trans hl) (fun u => (hd u).trans (hd₀ u)) (fun u => (hm.dynamic u).trans (hy u)) hi ht
  | reap hl hd₀ hy =>
    exact .reap (hm.list.trans hl) (fun u => (hd u).trans (hd₀ u)) fun u => (hm.dynamic u).trans (hy u)

/-- Steps which are about nobody's memory, one after the other. -/
theorem Atoms.memory {Q : Atom c → Prop} (h : Atoms Q k k') (hs : Sound k)
    (hQ : ∀ x, Q x → (∀ t, x ≠ .kill t) ∧ (∀ t, x ≠ .bury t) ∧ x ≠ .reap ∧ ∀ t p d, x ≠ .create t p d) :
    SameMemory k k' ∧ ∀ t, k'.stateOf t = OS_TASK_DEAD ↔ k.stateOf t = OS_TASK_DEAD := by
  refine h.keeps (I := fun s => SameMemory k s ∧ ∀ t, s.stateOf t = OS_TASK_DEAD ↔ k.stateOf t = OS_TASK_DEAD)
    hs (fun s x hs hg hx hi => ?_) ⟨.same rfl rfl, fun t => Iff.rfl⟩
  obtain ⟨hk, hb, hr, hc⟩ := hQ x hx
  exact ⟨hi.1.trans (x.memory hs hg hb hr hc), fun t => (x.dead_iff hs hg hk hc t).trans (hi.2 t)⟩

theorem kill_dead_iff (h : Linked k) (t u : Place c) :
    ((Atom.kill t).apply k).stateOf u = OS_TASK_DEAD ↔ k.stateOf u = OS_TASK_DEAD ∨ u = t := by
  rw [stateOf, kill_tasks h]
  by_cases hu : u = t
  · subst hu
    rw [Function.update_self]
    exact iff_of_true kind_dead (Or.inr rfl)
  · rw [Function.update_of_ne hu]
    exact ⟨Or.inl, fun hd => hd.resolve_right hu⟩

/-- Whoever is dead now has been before, but for the task which is deleted. -/
theorem released_memory (h : Sound k) {t : Place c} (hi : t ≠ osIdleTask) (hd : k.stateOf t ≠ OS_TASK_DEAD) :
    SameMemory k (released k t) ∧
      ∀ u, (released k t).stateOf u = OS_TASK_DEAD ↔ k.stateOf u = OS_TASK_DEAD ∨ u = t := by
  have hg : (Atom.kill t).guard k := ⟨hi, hd⟩
  have hks := (Atom.kill t).sound h hg
  have hkill : SameMemory k ((Atom.kill t).apply k) :=
    (Atom.kill t).memory h hg (by simp) (by simp) (by simp)
  have hiff := fun u => kill_dead_iff h.linked t u
  unfold released
  dsimp only
  split
  case isTrue hinh =>
    have hrun := releaseLoop_run (c.places + 1) hks hinh t (kill_dead h t hd).1
    have hrel := hrun.memory hks (by rintro x ⟨m, rfl⟩; simp)
    exact ⟨hkill.trans hrel.1, fun u => (hrel.2 u).trans (hiff u)⟩
  case isFalse => exact ⟨hkill, hiff⟩

theorem delete_buried {b : ListKernel c} (h : Sound k) {o : Option (Place c)} {t : Place c}
    (hb : Buried b (.call (.osTaskDelete o)) k) (hg : (Move.delete t).guard k) (ho : o.getD b.currentTask = t) :
    Buried b (.call (.osTaskDelete o)) (delete k t) := by
  obtain ⟨hi, hd⟩ := hg
  obtain ⟨hrel, hiff⟩ := released_memory h hi hd
  have hstate : (delete k t).tasks = (released k t).tasks := by
    unfold delete
    dsimp only
    split <;> rfl
  have hlist : (delete k t).links .dead =
      if ((released k t).tasks t).dynamic then t :: (released k t).links .dead else (released k t).links .dead := by
    unfold delete
    dsimp only
    split
    · exact Lists.push_self (released k t).links .dead t
    · rfl
  cases hb with
  | same hm hd₀ =>
    refine .delete o t ho ?_ (fun u => ?_) (fun u => ?_) hi ?_
    · rw [hlist, hrel.dynamic, hrel.list, hm.dynamic, hm.list]
    · rw [stateOf, hstate]
      exact (hiff u).trans (or_congr (hd₀ u) Iff.rfl)
    · rw [hstate, hrel.dynamic, hm.dynamic]
    · rwa [Ne, ← hd₀]
  | delete o t' ho' hl hd₀ hy hi' ht' => exact absurd ((hd₀ t).mpr (Or.inr (ho.symm.trans ho'))) hd

theorem create_memory (k : ListKernel c) (t : Place c) (p : ℕ) (d : Bool) :
    ((Atom.create t p d).apply k).links .dead = k.links .dead ∧
    (∀ u, ((Atom.create t p d).apply k).stateOf u = OS_TASK_DEAD ↔ k.stateOf u = OS_TASK_DEAD ∧ u ≠ t) ∧
    ∀ u, (((Atom.create t p d).apply k).tasks u).dynamic = if u = t then c.dynamic && d else (k.tasks u).dynamic := by
  refine ⟨?_, fun u => ?_, fun u => ?_⟩
  · rw [Atom.apply, osTaskSetup, osReady_eq]
    dsimp only
    exact onReady_of_ne _ _ t .dead (by simp)
  · rw [stateOf, create_tasks]
    by_cases hu : u = t
    · subst hu
      rw [Function.update_self]
      exact iff_of_false (by simp) fun hd => hd.2 rfl
    · rw [Function.update_of_ne hu]
      exact (and_iff_left hu).symm
  · rw [create_tasks]
    by_cases hu : u = t
    · subst hu
      rw [Function.update_self, if_pos rfl]
      rfl
    · rw [Function.update_of_ne hu, if_neg hu]

theorem create_buried {b : ListKernel c} {t : Place c} {p : ℕ} {x : Byte} {d : Bool}
    (hb : Buried b (.call (.osTaskCreate t x d)) k) (hg : (Atom.create t p d).guard k) :
    Buried b (.call (.osTaskCreate t x d)) ((Atom.create t p d).apply k) := by
  obtain ⟨ht, hn, -⟩ := hg
  obtain ⟨hlist, hdead, hdyn⟩ := create_memory k t p d
  cases hb with
  | same hm hd₀ =>
    refine .create t x d (hlist.trans hm.list) (fun u => (hdead u).trans (and_congr_left fun _ => hd₀ u)) (fun u => ?_)
      ((hd₀ t).mp ht) (hm.list ▸ hn)
    rw [hdyn, hm.dynamic]
  | create t x d hl hd₀ hy ht' hn' => exact absurd rfl ((hd₀ t).mp ht).2

/-- One move. -/
theorem Move.buried {b : ListKernel c} (mv : Move c) (h : Sound k) (hb : Buried b a k) (hg : mv.guard k)
    (ha : Allowed b a k mv) (hr : a ≠ .call .osTaskReap) : Buried b a (mv.apply k) := by
  have hrun := mv.run h hg
  cases mv with
  | delete t =>
    obtain ⟨-, o, rfl, ho⟩ := ha
    exact delete_buried h hb hg ho
  | one x =>
    by_cases hc : ∃ t p d, x = .create t p d
    · obtain ⟨t, p, d, rfl⟩ := hc
      obtain ⟨q, rfl⟩ := ha
      exact create_buried hb hg.2
    · have hbare : (∀ t, x ≠ .kill t) ∧ (∀ t, x ≠ .bury t) := by
        have hx := hg.1
        constructor <;> rintro t rfl <;> exact hx
      have hreap : x ≠ .reap := by
        rintro rfl
        exact hr ha
      have hsame := hrun.memory h (by
        rintro y rfl
        exact ⟨hbare.1, hbare.2, hreap, fun t p d he => hc ⟨t, p, d, he⟩⟩)
      exact hb.on hsame.1 hsame.2
  | _ =>
    have hsame := hrun.memory h (by
      intro x hx
      simp only [Move.Uses] at hx
      grind)
    exact hb.on hsame.1 hsame.2

theorem Moves.buried {b : ListKernel c} (hm : Moves b a k k') (h : Sound k) (hb : Buried b a k)
    (hr : a ≠ .call .osTaskReap) : Buried b a k' :=
  (hm.invariant (I := fun s => Sound s ∧ Buried b a s)
    (fun _ mv hg hi => ⟨mv.sound hi.1 hg.1, mv.buried hi.1 hi.2 hg.1 hg.2 hr⟩) ⟨h, hb⟩).2

theorem schedule_memory (h : Sound k) (hr : Running k) : SameMemory k (k.osSchedule 0) ∧
    ∀ t, (k.osSchedule 0).stateOf t = OS_TASK_DEAD ↔ k.stateOf t = OS_TASK_DEAD := by
  have hm : Moves k .isrLeave k (k.osSchedule 0) := (Moves.schedule (.refl k) h hr rfl 0 (Or.inl rfl)).1
  have hb := hm.buried h (.same (.same rfl rfl) fun _ => Iff.rfl) (by simp)
  cases hb with
  | same hm hd => exact ⟨hm, hd⟩

theorem reap_step (hs : k.step (.call .osTaskReap) = some k') : k'.links .dead = (k.links .dead).tail ∧
    k'.tasks = k.tasks ∧ k'.currentTask = k.currentTask := by
  simp only [step] at hs
  split at hs
  case isTrue =>
    injection hs with hs
    subst hs
    exact ⟨Lists.pop_self k.links .dead, rfl, rfl⟩
  case isFalse => cases hs

theorem create_step (h : Rest k) {t : Place c} {p : Byte} {d : Bool}
    (hs : k.step (.call (.osTaskCreate t p d)) = some k') :
    k.stateOf t = OS_TASK_DEAD ∧ t ∉ k.links .dead ∧ k'.links .dead = k.links .dead ∧
    (∀ u, k'.stateOf u = OS_TASK_DEAD ↔ k.stateOf u = OS_TASK_DEAD ∧ u ≠ t) ∧
    ∀ u, (k'.tasks u).dynamic = if u = t then c.dynamic && d else (k.tasks u).dynamic := by
  simp only [step] at hs
  split at hs
  case isTrue hc =>
    injection hs with hs
    subst hs
    obtain ⟨ht, hn⟩ : k.stateOf t = OS_TASK_DEAD ∧ t ∉ k.links .dead := hc.2
    have hsound := emit_sound h.sound (.called k.currentTask (.osTaskCreate t p d) (k.mine (.osTaskCreate t p d)))
    obtain ⟨hlist, hdead, hdyn⟩ :=
      create_memory (k.emit (.called k.currentTask (.osTaskCreate t p d) (k.mine (.osTaskCreate t p d)))) t p.toNat d
    have hcreated := (Atom.create t p.toNat d).sound hsound
      ⟨ht, hn, fun hinh m ho => h.noDead hinh m t ho ht⟩
    obtain ⟨hm, hd⟩ := schedule_memory (returned_sound hcreated (.osTaskCreate t p d) (.task (some t)))
      (create_running (k := k.emit _) h.running t p.toNat d ht)
    exact ⟨ht, hn, hm.list.trans hlist, fun u => (hd u).trans (hdead u), fun u => (hm.dynamic u).trans (hdyn u)⟩
  case isFalse => cases hs

/-- Every action is one of them. -/
theorem step_buried (h : Rest k) (hs : k.step a = some k') : Buried k a k' := by
  by_cases hr : a = .call .osTaskReap
  · subst hr
    obtain ⟨hl, ht, -⟩ := reap_step hs
    exact .reap hl (fun t => by rw [stateOf, stateOf, ht]) fun t => by rw [ht]
  · have hm : Moves k a k k' := (step_moves h.sound h.running h.noDead hs).1
    exact hm.buried h.sound (.same (.same rfl rfl) fun _ => Iff.rfl) hr

end AvrOs
