import AvrOs.Refinement
import AvrOs.Transition.Since
import AvrOs.Waiting

/-!
# Tasks asleep

Whoever waits does nothing until it is woken up, and it is woken up once. Those who wait for the same object
are in line by priority, and by how long they have been there.
-/

namespace AvrOs
open Intrusive Transition Kernel

variable {c : Config} {k k' : ListKernel c} {t : Place c}

/-! ### What is told of a task -/

/-- The task does something on its own. -/
def Acts (t : Place c) (x : Event c) : Prop :=
  (∃ call mine, x = .called t call mine) ∨ (∃ call v, x = .returned t call v) ∨ ∃ list timeout, x = .blocked t list timeout

/-- The task is put to sleep, by itself or by somebody else. -/
def LaysDown (t : Place c) (x : Event c) : Prop :=
  (∃ list timeout, x = .blocked t list timeout) ∨ x = .suspended t ∨ x = .deleted t

/-- The task is on the ready list afterwards. -/
def GetsUp (t : Place c) (x : Event c) : Prop :=
  x = .created t ∨ (∃ list result, x = .woken t list result) ∨ x = .resumed t

/-- The wait of the task is over. -/
def EndsWait (t : Place c) (x : Event c) : Prop :=
  (∃ list result, x = .woken t list result) ∨ x = .suspended t ∨ x = .deleted t

def Falls (t : Place c) (x : Event c) : Prop := ∃ list timeout, x = .blocked t list timeout

def Wakes (t : Place c) (x : Event c) : Prop := ∃ list result, x = .woken t list result

/-- Whoever does something is up. -/
abbrev Upright (t : Place c) (l : Life c) : Prop :=
  Account (GetsUp t) (LaysDown t) (Acts t) (l.kind = OS_TASK_RUNNING ∨ l.kind = OS_TASK_READY) l.history

/-- Whoever is woken up has been waiting. -/
abbrev Rested (t : Place c) (l : Life c) : Prop :=
  Account (Falls t) (EndsWait t) (Wakes t) (l.kind = OS_TASK_BLOCKED) l.history

section
variable {parks revives beats : Life c → Prop} {l l' : Life c}

/-- An entry which is none of these. -/
theorem Upright.other (h : Upright t l) {x : Event c} (hk : l'.kind = l.kind) (hh : l'.history = x :: l.history)
    (ha : ¬ Acts t x) (hd : ¬ LaysDown t x) : Upright t l' := by
  unfold Upright
  rw [hk, hh]
  exact h.cons (fun hx => absurd hx ha) fun hl => .inr ⟨hl, hd⟩

theorem Stage.upright (h : Stage t parks revives beats l l') (hi : Upright t l) : Upright t l' := by
  cases h with
  | rest | returns | pause | goesOn | setWait | owned | released => exact hi
  | called x mine hk =>
    exact hi.cons (fun _ => .inl hk) fun hl => .inr ⟨hl, by simp [LaysDown]⟩
  | returned call v hk =>
    exact hi.cons (fun _ => .inl hk) fun hl => .inr ⟨hl, by simp [LaysDown]⟩
  | preempt hk => exact ⟨fun _ => hi.left (.inl hk), hi.spent⟩
  | dispatch hk => exact ⟨fun _ => hi.left (.inr hk), hi.spent⟩
  | sleep call list timeout hk => exact hi.cons (fun _ => .inl hk) (by simp)
  | expired => exact hi.cons (by simp [Acts]) fun _ => .inl (by simp [GetsUp])
  | handed => exact hi.cons (by simp [Acts]) fun _ => .inl (by simp [GetsUp])
  | given => exact hi.cons (by simp [Acts]) fun _ => .inl (by simp [GetsUp])
  | served e flags options hk =>
    have hsatisfied : Upright t { l with
        wait := .event flags options
        history := .satisfied e t flags options :: l.history } :=
      hi.other rfl rfl (by simp [Acts]) (by simp [LaysDown])
    exact hsatisfied.cons (by simp [Acts]) fun _ => .inl (by simp [GetsUp])
  | satisfied => exact hi.other rfl rfl (by simp [Acts]) (by simp [LaysDown])
  | killed => exact hi.cons (by simp [Acts]) (by simp)
  | parked => exact hi.cons (by simp [Acts]) (by simp)
  | revived => exact hi.cons (by simp [Acts]) fun _ => .inl (by simp [GetsUp])
  | created => exact hi.cons (by simp [Acts]) fun _ => .inl (by simp [GetsUp])
  | ticked => exact hi.other rfl rfl (by simp [Acts]) (by simp [LaysDown])

theorem Rested.other (h : Rested t l) {x : Event c} (hk : l'.kind = OS_TASK_BLOCKED → l.kind = OS_TASK_BLOCKED)
    (hh : l'.history = x :: l.history) (hw : ¬ Wakes t x) (he : l'.kind = OS_TASK_BLOCKED → ¬ EndsWait t x) : Rested t l' := by
  unfold Rested
  rw [hh]
  exact h.cons (fun hx => absurd hx hw) fun hl => .inr ⟨hk hl, he hl⟩

theorem Rested.wakes (h : Rested t l) (hk : l.kind = OS_TASK_BLOCKED) (result : Bool) : Rested t (l.wakes t result) :=
  h.cons (fun _ => hk) fun hl => by simp [Life.wakes] at hl

theorem Stage.rested (h : Stage t parks revives beats l l') (hi : Rested t l) : Rested t l' := by
  cases h with
  | rest | returns | pause | goesOn | setWait | owned | released => exact hi
  | called | returned | satisfied | ticked => exact hi.other id rfl (by simp [Wakes]) (by simp [EndsWait])
  | preempt => exact ⟨fun hl => by simp at hl, hi.spent⟩
  | dispatch => exact ⟨fun hl => by simp at hl, hi.spent⟩
  | sleep call list timeout => exact hi.cons (by simp [Wakes]) fun _ => .inl ⟨list, timeout, rfl⟩
  | expired hk => exact hi.wakes hk false
  | handed m hk => exact hi.wakes hk true
  | given w hk => exact hi.wakes hk true
  | served e flags options hk =>
    have hsatisfied : Rested t { l with
        wait := .event flags options
        history := .satisfied e t flags options :: l.history } :=
      hi.other id rfl (by simp [Wakes]) (by simp [EndsWait])
    exact hsatisfied.wakes hk true
  | killed | parked | revived | created => exact hi.other (by simp) rfl (by simp [Wakes]) (by simp)

end

/-! ### Every run -/

theorem reachable_life (h : Reachable k) {I : Life c → Prop} (h₀ : I (life (osInit c Lists) t))
    (hI : ∀ l l', Stage t (fun _ => True) (fun _ => True) (fun _ => True) l l' → I l → I l') : I (life k t) :=
  h.invariant (I := fun s => I (life s t)) h₀ fun _ _ _ hr hi _ hs =>
    (step_lived (rest_of_reachable hr) hs t (fun _ _ _ => trivial) (fun _ _ _ => trivial) fun _ _ => trivial).keeps hI hi

/-- Whatever a task does, it has been woken up, resumed or created since it was put to sleep the last time. -/
theorem reachable_upright (k : Kernel c Links) (h : Reachable k) (t : Place c) (ht : t ≠ osIdleTask)
    (later earlier : List (Event c)) (x : Event c) (hl : k.history t = later ++ x :: earlier) (hx : Acts t x) :
    ∃ between y before, earlier = between ++ y :: before ∧ GetsUp t y ∧ ∀ z ∈ between, ¬ LaysDown t z := by
  obtain ⟨l, hr, hs⟩ := reachable_lists h
  have hup : Upright t (life l t) := reachable_life hr (.nil (by simp [life, stateOf, osInit, ht])) fun _ _ hst hi =>
    hst.upright hi
  exact (hup.spent x earlier ⟨later, hl.symm.trans (hs.history t)⟩ hx).split

/-- A task waits for a semaphore. -/
def unitAwaited : List (Action (Config.default 2)) :=
  [.call (.osTaskCreate 1 3 false), .resume, .run, .call (.osSemaphoreTake 0 7)]

theorem reachable_upright_taken : ∃ k earlier, steps step (osInit (Config.default 2) Links) unitAwaited = some k ∧
    k.history 1 = .blocked 1 (some (.semaphore 0)) 7 :: earlier ∧ ∃ y ∈ earlier, GetsUp 1 y := by
  have hrun : (steps step (osInit (Config.default 2) Links) unitAwaited).map
      (fun k => decide ((k.history 1).head? = some (.blocked 1 (some (.semaphore 0)) 7))) = some true := by decide +kernel
  obtain ⟨k, hk, hdec⟩ := Option.map_eq_some_iff.mp hrun
  obtain ⟨earlier, hl⟩ := List.head?_eq_some_iff.mp (of_decide_eq_true hdec)
  obtain ⟨between, y, before, he, hy, -⟩ := reachable_upright k (Reach.steps_reach _ (fun _ _ _ => trivial) .init hk) 1
    (by decide) [] earlier _ hl (.inr (.inr ⟨_, _, rfl⟩))
  exact ⟨k, earlier, hk, hl, y, by rw [he]; simp, hy⟩

/-- Every wake-up ends a wait of its own. -/
theorem reachable_woken_once (k : Kernel c Links) (h : Reachable k) (t : Place c)
    (later earlier : List (Event c)) (list : Option (WaitList c)) (result : Bool)
    (hl : k.history t = later ++ Event.woken t list result :: earlier) :
    ∃ between list' timeout before, earlier = between ++ Event.blocked t list' timeout :: before ∧
      ∀ z ∈ between, ¬ EndsWait t z := by
  obtain ⟨l, hr, hs⟩ := reachable_lists h
  have hrested : Rested t (life l t) := reachable_life hr (.nil (by
    by_cases ht : t = osIdleTask <;> simp [life, stateOf, osInit, ht])) fun _ _ hst hi => hst.rested hi
  obtain ⟨between, y, before, he, ⟨list', timeout, hy⟩, hnot⟩ :=
    (hrested.spent _ earlier ⟨later, hl.symm.trans (hs.history t)⟩ ⟨list, result, rfl⟩).split
  exact ⟨between, list', timeout, before, by rw [he, hy], hnot⟩

theorem reachable_woken_once_taken : ∃ k earlier, steps step (osInit (Config.default 2) Links)
      (unitAwaited ++ [Action.resume, .call (.osSemaphoreGive 0)]) = some k ∧
    k.history 1 = .woken 1 (some (.semaphore 0)) true :: earlier ∧ ∃ list timeout, .blocked 1 list timeout ∈ earlier := by
  have hrun : (steps step (osInit (Config.default 2) Links) (unitAwaited ++ [Action.resume, .call (.osSemaphoreGive 0)])).map
      (fun k => decide ((k.history 1).head? = some (.woken 1 (some (.semaphore 0)) true))) = some true := by decide +kernel
  obtain ⟨k, hk, hdec⟩ := Option.map_eq_some_iff.mp hrun
  obtain ⟨earlier, hl⟩ := List.head?_eq_some_iff.mp (of_decide_eq_true hdec)
  obtain ⟨between, list, timeout, before, he, -⟩ := reachable_woken_once k
    (Reach.steps_reach _ (fun _ _ _ => trivial) .init hk) 1 [] earlier _ _ hl
  exact ⟨k, earlier, hk, hl, list, timeout, by rw [he]; simp⟩

/-- Those who wait for the same object are in line by priority, and by how long they have been in line. -/
theorem reachable_fair (k : Kernel c Links) (h : Reachable k) (w : WaitList c) :
    Fair k.priority (inLine k.log) (k.waiters w) := by
  obtain ⟨l, hr, hs⟩ := reachable_lists h
  have hfair : InLine l := reachable_keeps hr (fun _ => .nil) fun _ x hss hg hi => x.inLine hss hg hi
  have hw : k.waiters w = l.links (.wait w) := hs.links_list _
  rw [hw, hs.log, show k.priority = l.priority from funext hs.priority]
  exact hfair w

theorem reachable_fair_taken : ∃ k, steps step (osInit (Config.default 2) Links)
      (unitAwaited ++ [Action.resume, .call (.osTaskCreate 2 5 false), .call (.osSemaphoreTake 0 7)]) = some k ∧
    k.waiters (.semaphore 0) = [2, 1] ∧ Fair k.priority (inLine k.log) (k.waiters (.semaphore 0)) := by
  have hrun : (steps step (osInit (Config.default 2) Links)
      (unitAwaited ++ [Action.resume, .call (.osTaskCreate 2 5 false), .call (.osSemaphoreTake 0 7)])).map
      (fun k => decide (k.waiters (.semaphore 0) = [2, 1])) = some true := by decide +kernel
  obtain ⟨k, hk, hdec⟩ := Option.map_eq_some_iff.mp hrun
  exact ⟨k, hk, of_decide_eq_true hdec, reachable_fair k (Reach.steps_reach _ (fun _ _ _ => trivial) .init hk) _⟩

end AvrOs
