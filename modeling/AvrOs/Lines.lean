import AvrOs.Coverage
import AvrOs.Switching

/-!
# The line of ready tasks

Steps put tasks into the line and take tasks out of it. Those who are in it and whom a step is not
about stay where they are.
-/

namespace AvrOs
open Intrusive Transition Kernel

variable {c : Config} {k k' : ListKernel c} {P : Place c → Bool}

/-- Those who are looked at are where they have been. -/
structure Stays (P : Place c → Bool) (k k' : ListKernel c) : Prop where
  line : (k'.links .ready).filter P = (k.links .ready).filter P
  kind : ∀ t, P t = true → k'.stateOf t = k.stateOf t
  current : k'.currentTask = k.currentTask

theorem Stays.trans {k₁ : ListKernel c} (h : Stays P k k₁) (h' : Stays P k₁ k') : Stays P k k' :=
  ⟨h'.line.trans h.line, fun t ht => (h'.kind t ht).trans (h.kind t ht), h'.current.trans h.current⟩

theorem Stays.same (hl : k'.links .ready = k.links .ready) (ht : k'.tasks = k.tasks)
    (hc : k'.currentTask = k.currentTask) : Stays P k k' :=
  ⟨by rw [hl], fun t _ => by rw [stateOf, stateOf, ht], hc⟩

/-- Somebody else changes. -/
theorem Stays.update {t : Place c} {x : OsTask c} (ht : P t = false)
    (hl : (k'.links .ready).filter P = (k.links .ready).filter P)
    (hx : k'.tasks = Function.update k.tasks t x) (hc : k'.currentTask = k.currentTask) :
    Stays P k k' := by
  refine ⟨hl, fun u hu => ?_, hc⟩
  have hne : u ≠ t := by
    rintro rfl
    rw [ht] at hu
    cases hu
  rw [stateOf, stateOf, hx, Function.update_of_ne hne]

/-- Nothing but fields which are no part of the state. -/
theorem Stays.fields {t : Place c} {x : OsTask c} (hx : k'.tasks = Function.update k.tasks t x)
    (hl : k'.links .ready = k.links .ready) (hc : k'.currentTask = k.currentTask)
    (hs : x.state &&& OS_TASK_STATE = k.stateOf t) : Stays P k k' := by
  refine ⟨by rw [hl], fun u _ => ?_, hc⟩
  rw [stateOf, hx]
  by_cases hu : u = t
  · subst hu
    rw [Function.update_self, hs]
  · rw [Function.update_of_ne hu]
    rfl

theorem join_line (k : ListKernel c) (t : Place c) (pass : Place c → Bool) (ht : P t = false) :
    (Lists.insert k.links .ready t pass .ready).filter P = (k.links .ready).filter P := by
  rw [Lists.insert_self]
  exact filter_splice P pass _ t ht

theorem wake_stays (k : ListKernel c) (t : Place c) (r : Bool) (ht : P t = false) :
    Stays P k (k.osWake t r) := by
  rw [osWake_eq]
  refine .update ht ?_ rfl rfl
  have hoff : k.offWait t .ready = k.links .ready := offWait_of_ne k t .ready (by simp)
  show (Lists.insert (k.offWait t) .ready t _ .ready).filter P = _
  rw [Lists.insert_self, hoff]
  exact filter_splice P _ _ t ht

theorem requeue_stays (k : ListKernel c) (t : Place c) (p : ℕ) (ht : P t = false) :
    Stays P k ((k.setPriority t p).osRequeue t) := by
  refine .update ht ?_ (requeue_tasks k t p) (requeue_same k t p).current
  cases hl : k.priorityList t with
  | none => rw [requeue_off k t p hl]; rfl
  | some l =>
    rw [requeue_links k t p l hl]
    by_cases hr : l = .ready
    · subst hr
      rw [Lists.insert_self, filter_splice P _ _ t ht, Lists.remove_self]
      exact filter_erase P _ t ht
    · rw [Lists.insert_of_ne _ _ _ _ _ (Ne.symm hr), Lists.remove_of_ne _ _ _ _ (Ne.symm hr)]

theorem detach_line (h : Linked k) {t : Place c} (hd : k.stateOf t ≠ OS_TASK_DEAD) (ht : P t = false) :
    ((k.osTaskDetach t).links .ready).filter P = (k.links .ready).filter P := by
  rw [h.detach_eq hd]
  exact filter_erase P _ t ht

/-- The tasks a step is about, as far as they can be in line. -/
def Atom.Moves (x : Atom c) (t : Place c) (k : ListKernel c) : Prop :=
  match x with
  | .requeue u _ | .kill u | .park u => u = t
  | .preempt _ | .sleep _ _ _ => k.currentTask = t
  | _ => False

/-- Whoever joins the line has not been in it, and nobody leaves it but those the step is about. -/
theorem Atom.stays (x : Atom c) (h : Sound k) (hg : x.guard k) (hd : x ≠ .dispatch)
    (hP : ∀ t, P t = true → k.stateOf t = OS_TASK_READY ∨ k.stateOf t = OS_TASK_RUNNING)
    (hx : ∀ t, x.Moves t k → P t = false) : Stays P k (x.apply k) := by
  have hout : ∀ t, k.stateOf t ≠ OS_TASK_READY → k.stateOf t ≠ OS_TASK_RUNNING → P t = false := by
    intro t hr hrun
    refine Bool.eq_false_iff.mpr fun hp => ?_
    rcases hP t hp with hk | hk
    · exact hr hk
    · exact hrun hk
  have hblocked : ∀ t, k.stateOf t = OS_TASK_BLOCKED → P t = false := fun t ht =>
    hout t (by rw [ht]; simp) (by rw [ht]; simp)
  cases x with
  | dispatch => exact absurd rfl hd
  | called | returns | pause | timerCalled | quiet | take | flagsSet | flagsClear | tick =>
    exact .same rfl rfl rfl
  | leave =>
    refine .same ?_ (leave_tasks k) ?_
    all_goals
      rcases leave_cases k with ⟨call, value, -, he⟩ | ⟨-, he⟩
      · rw [apply, he]
        rfl
      · rw [apply, he]
        rfl
  | start => exact .fields (t := osIdleTask) rfl rfl rfl rfl
  | settle => exact .fields (t := k.currentTask) rfl rfl rfl rfl
  | setBase t p => exact .fields (t := t) rfl rfl rfl rfl
  | flag => exact .fields (t := k.currentTask) rfl rfl rfl (mutex_kind _)
  | unflag =>
    refine .fields (t := k.currentTask) rfl rfl rfl ?_
    rw [show k.stateOf k.currentTask = OS_TASK_RUNNING from hg]
    exact kind_running
  | setWait => exact .fields (t := k.currentTask) rfl rfl rfl rfl
  | requeue t p => exact requeue_stays k t p (hx t rfl)
  | preempt key =>
    have ht := hx k.currentTask rfl
    exact .update ht (join_line _ _ _ ht) rfl rfl
  | sleep call list timeout =>
    have ht := hx k.currentTask rfl
    refine .update ht ?_ (congrArg Kernel.tasks (sleep_eq k call list timeout)) (sleep_current ..)
    rw [apply, sleep_ready]
  | expire t => exact wake_stays k t false (hblocked t ((h.linked.2 t).timed hg.1))
  | kill t =>
    have ht := hx t rfl
    exact .update ht (detach_line h.linked hg.2 ht) (kill_tasks h.linked t) (detach_frame k t).1
  | park t =>
    have ht := hx t rfl
    exact .update ht (detach_line h.linked hg.2.1 ht) (park_tasks h.linked t) (detach_frame k t).1
  | bury t => exact .same (Lists.push_of_ne k.links .dead .ready t (by simp)) rfl rfl
  | reap => exact .same (Lists.pop_of_ne k.links .dead .ready (by simp)) rfl rfl
  | unpark t =>
    have ht := hout t (by rw [show k.stateOf t = _ from hg]; simp) (by rw [show k.stateOf t = _ from hg]; simp)
    rw [apply, osReady_eq]
    exact .update ht (join_line _ _ _ ht) rfl rfl
  | create t p d =>
    have ht := hout t (by rw [hg.1]; simp) (by rw [hg.1]; simp)
    refine .update ht ?_ (create_tasks k t p d) rfl
    rw [apply, osTaskSetup, osReady_eq]
    exact join_line _ _ _ ht
  | own m =>
    rw [apply, osMutexOwn_eq]
    exact .same rfl rfl rfl
  | release t m =>
    rw [apply, release_eq]
    rcases pass_cases { k with ownedLinks := offOwned k t m } m with ⟨w, rest, hl, he⟩ | ⟨-, he⟩
    · have hw : w ∈ k.links (.wait (.mutex m)) := by
        have hl' : k.links (.wait (.mutex m)) = w :: rest := hl
        simp [hl']
      rw [he]
      refine Stays.trans (.same ?_ ?_ ?_) (wake_stays _ w true (hblocked w (h.waiter_blocked hw)))
      all_goals rw [osMutexOwn_eq]
    · rw [he]
      exact .same rfl rfl rfl
  | mutexInit m => exact .same (congrFun (clear_empty hg.1) .ready) rfl rfl
  | semaphoreInit s count limit => exact .same (congrFun (clear_empty hg) .ready) rfl rfl
  | queueInit q itemSize length => exact .same (congrFun (clear_empty hg) .ready) rfl rfl
  | eventInit e => exact .same (congrFun (clear_empty hg) .ready) rfl rfl
  | give s =>
    rw [apply]
    rcases give_cases k s with ⟨w, rest, hl, he⟩ | ⟨-, -, he⟩ | ⟨-, -, he⟩
    · have hgave : Stays P k (k.emit (.gave s)) := .same rfl rfl rfl
      rw [he]
      exact hgave.trans (wake_stays _ w true (hblocked w (h.waiter_blocked (by rw [hl]; simp))))
    · rw [he]
      exact .same rfl rfl rfl
    · rw [he]
      exact .same rfl rfl rfl
  | send q item =>
    rw [apply]
    rcases send_cases k q item with ⟨w, rest, hl, -, he⟩ | ⟨-, -, he⟩ | ⟨-, -, he⟩
    · rw [he]
      exact Stays.trans (.same (by rw [hand_links]) (hand_tasks ..) (hand_current ..))
        (wake_stays _ w true (hblocked w (h.waiter_blocked (by rw [hl]; simp))))
    · rw [he]
      exact .same (by rw [append_links]) (append_tasks k q item) (append_current k q item)
    · rw [he]
      exact .same rfl rfl rfl
  | receive q item =>
    rw [apply]
    rcases receive_cases k q item with ⟨w, rest, hl, -, he⟩ | ⟨-, -, he⟩ | ⟨-, he⟩
    · rw [he]
      refine Stays.trans (.same ?_ ?_ ?_) (wake_stays _ w true (hblocked w (h.waiter_blocked (by rw [hl]; simp))))
      · rw [append_links, take_links]
      · rw [append_tasks, take_tasks]
      · rw [append_current, take_current]
    · rw [he]
      exact .same (by rw [take_links]) (take_tasks k q item) (take_current k q item)
    · rw [he]
      exact .same rfl rfl rfl
  | consume e wanted options =>
    obtain ⟨ht, hl, hc, -, -⟩ := consume_frame k e (osEventMatch (k.events e) wanted options) options
    exact .same (congrFun hl _) ht hc
  | serve e t =>
    rw [apply]
    rcases serve_cases k e t with ⟨-, he⟩ | ⟨matched, options, -, -, -, he⟩
    · rw [he]
      exact .same rfl rfl rfl
    · obtain ⟨htk, hl, hc, -, -⟩ := consume_frame (k.emit (.visited e t)) e matched options
      have hsame : Stays P k (((k.emit (.visited e t)).osEventConsume e matched options).emit
          (.satisfied e t matched options)) := .same (congrFun hl .ready) htk hc
      have hwait : ∀ s : ListKernel c, Stays P s (s.setWait t (.event matched options)) := fun s =>
        .fields (t := t) rfl rfl rfl rfl
      rw [he]
      exact (hsame.trans (hwait _)).trans (wake_stays _ t true (hblocked t ((h.linked.2 t).blocked _ hg)))
  | age =>
    rw [apply, age_fold _ _ _ (h.linked.1.separate.nodup _)]
    refine ⟨rfl, fun t _ => ?_, rfl⟩
    rw [stateOf]
    dsimp only
    split <;> rfl

/-- Nobody is switched in but by a switch. -/
theorem Atom.same_current (x : Atom c) (hs : Sound k) (hg : x.guard k) (hd : x ≠ .dispatch) :
    (x.apply k).currentTask = k.currentTask := by
  have h : Stays (fun _ => false) k (x.apply k) :=
    x.stays hs hg hd (fun _ hf => by cases hf) fun _ _ => rfl
  exact h.current

end AvrOs
