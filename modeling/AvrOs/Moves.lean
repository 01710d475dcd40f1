import AvrOs.Donation.Chains
import AvrOs.Sound

/-!
# What the kernel does at once

A move is what an invariant can be expected to hold before and after: an elementary step on
its own, or all the steps which only make sense together, like those of `osMutexTryLock`
from the raise of the owner to the moment the task sleeps. Functions of the kernel are
sequences of moves, moves are sequences of elementary steps.
-/

namespace AvrOs
open Intrusive Transition Kernel

variable {c : Config}

/-- Steps which make sense on their own. -/
def Atom.Bare : Atom c → Prop
  | .requeue _ _ | .setBase _ _ | .flag | .unflag | .sleep _ _ _ | .expire _ | .kill _ | .bury _
  | .release _ _ | .flagsSet _ _ | .serve _ _ | .tick => False
  | _ => True

/-- The end of `osMutexTryLock` without the mutex: its owner is not needed that urgently. -/
def giveUp (k : ListKernel c) (m : Place c) : ListKernel c :=
  match k.owner m with
  | some owner =>
    if k.osInheritedPriority owner < k.priority owner then
      (k.setPriority owner (k.osInheritedPriority owner)).osRequeue owner
    else k
  | none => k

/-- What `osTaskSetPriority` does to the task. -/
def repriority (k : ListKernel c) (t : Place c) (p : ℕ) : ListKernel c :=
  let k := k.setTask t { k.tasks t with basePriority := p }
  let inherited := k.osInheritedPriority t
  if inherited > k.priority t then k.osPriorityRaise t inherited
  else if inherited < k.priority t then (k.setPriority t inherited).osRequeue t
  else k

/-- The owner of the mutex is raised and the current task marked as waiting for it. -/
def urge (k : ListKernel c) (owner : Place c) : ListKernel c :=
  let task := k.currentTask
  let k := k.osPriorityRaise owner (k.priority task)
  k.setState task ((k.tasks task).state ||| OS_TASK_MUTEX)

/-- The task is dead and owns nothing anymore. -/
def released (k : ListKernel c) (t : Place c) : ListKernel c :=
  let k := (Atom.kill t).apply k
  if c.mutexInheritance then k.osMutexReleaseAll t else k

/-- What `osTaskDelete` does to the task. -/
def delete (k : ListKernel c) (t : Place c) : ListKernel c :=
  let k := released k t
  if (k.tasks t).dynamic then { k with links := Lists.push k.links .dead t } else k

/-- The current task gives its mutex away and the priority it has inherited by it. -/
def unlock (k : ListKernel c) (m : Place c) : ListKernel c :=
  let task := k.currentTask
  let k := (Atom.release task m).apply k
  if c.mutexInheritance then k.setPriority task (k.osInheritedPriority task) else k

inductive Move (c : Config) where
  | one (a : Atom c)
  | giveUp (m : Place c)
  | repriority (t : Place c) (p : ℕ)
  | block (call : Call c) (list : Option (WaitList c)) (timeout : OsTick c)
  | lock (call : Call c) (m owner : Place c) (timeout : OsTick c)
  | lockIdle (m owner : Place c)
  | unlock (m : Place c)
  | delete (t : Place c)
  | setEvent (e : Place c) (flags : Byte)
  | tick

namespace Move

def apply (k : ListKernel c) : Move c → ListKernel c
  | one a => a.apply k
  | giveUp m => AvrOs.giveUp k m
  | repriority t p => AvrOs.repriority k t p
  | block call list timeout => (k.osSettle k.currentTask).sleep call list timeout
  | lock call m owner timeout =>
    let k := urge k owner
    (k.osSettle k.currentTask).sleep call (some (.mutex m)) timeout
  | lockIdle m owner =>
    let k := urge k owner
    AvrOs.giveUp (k.setState k.currentTask OS_TASK_RUNNING) m
  | unlock m => AvrOs.unlock k m
  | delete t => AvrOs.delete k t
  | setEvent e flags => k.osEventSetFromISR e flags
  | tick => k.osTickEnter

def guard (k : ListKernel c) : Move c → Prop
  | one a => a.Bare ∧ a.guard k
  | giveUp _ => True
  | repriority _ p => 1 ≤ p ∧ p ≤ 254
  | block call list timeout => k.currentTask ≠ osIdleTask ∧
      (k.tasks k.currentTask).state = OS_TASK_RUNNING ∧ timeout ≠ 0 ∧
      k.frames k.currentTask = none ∧ (c.mutexInheritance = true → ∀ m, list ≠ some (.mutex m)) ∧ Blockable k call timeout list
  | lock call m owner timeout => c.mutexInheritance = true ∧ k.currentTask ≠ osIdleTask ∧
      (k.tasks k.currentTask).state = OS_TASK_RUNNING ∧ timeout ≠ 0 ∧ k.owner m = some owner ∧
      k.frames k.currentTask = none ∧
      (k.owner m = some k.currentTask ↔ wasMine (k.history k.currentTask) = true) ∧
      (call = .osMutexTryLock m timeout ∨ (call = .osMutexLock m ∧ timeout = OS_WAIT_FOREVER c))
  | lockIdle m owner => c.mutexInheritance = true ∧ k.currentTask = osIdleTask ∧
      (k.tasks k.currentTask).state = OS_TASK_RUNNING ∧ k.owner m = some owner
  | unlock m => k.stateOf k.currentTask = OS_TASK_RUNNING ∧ (Atom.release k.currentTask m).guard k
  | delete t => t ≠ osIdleTask ∧ k.stateOf t ≠ OS_TASK_DEAD
  | setEvent _ _ => True
  | tick => True

/-- The elementary steps a move is made of. -/
def Uses : Move c → Atom c → Prop
  | one a, x => x = a
  | giveUp _, x => ∃ u q, x = .requeue u q
  | repriority t p, x => x = .setBase t p ∨ ∃ u q, x = .requeue u q
  | block call list timeout, x => x = .settle ∨ x = .sleep call list timeout
  | lock call m _ timeout, x => (∃ u q, x = .requeue u q) ∨ x = .flag ∨ x = .settle ∨
      x = .sleep call (some (.mutex m)) timeout
  | lockIdle _ _, x => (∃ u q, x = .requeue u q) ∨ x = .flag ∨ x = .unflag
  | unlock m, x => (∃ t, x = .release t m) ∨ x = .settle
  | delete t, x => x = .kill t ∨ (∃ m, x = .release t m) ∨ x = .bury t
  | setEvent e flags, x => x = .flagsSet e flags ∨ ∃ t, x = .serve e t
  | tick, x => x = .tick ∨ ∃ t, x = .expire t

end Move

/-- Steps which are never part of a larger move. -/
def Atom.Alone : Atom c → Prop
  | .requeue _ _ | .setBase _ _ | .settle | .sleep _ _ _ | .flag | .unflag | .release _ _ | .kill _
  | .bury _ | .flagsSet _ _ | .serve _ _ | .tick | .expire _ => False
  | _ => True

theorem Move.uses_alone {mv : Move c} {x : Atom c} (hu : mv.Uses x) (hx : x.Alone) : mv = .one x := by
  cases mv with
  | one => exact congrArg Move.one (show x = _ from hu).symm
  | giveUp | lockIdle | repriority | block | lock | unlock | delete | setEvent | tick =>
    exfalso
    cases x with
    | requeue | setBase | settle | sleep | flag | unflag | release | kill | bury | flagsSet | serve | tick
    | expire => exact hx
    | _ => simp [Move.Uses] at hu

/-! ### Moves are made of elementary steps -/

/-- Elementary steps of the kind `P` from one state to the other. -/
abbrev Atoms (P : Atom c → Prop) : ListKernel c → ListKernel c → Prop :=
  Run Atom.apply fun k a => a.guard k ∧ P a

section
variable {k k' : ListKernel c} {P : Atom c → Prop}

theorem Atoms.sound (h : Atoms P k k') (hs : Sound k) : Sound k' :=
  h.invariant (fun _ a hg hs => a.sound hs hg.1) hs

theorem Atoms.one (a : Atom c) (hg : a.guard k) (hP : P a) : Atoms P k (a.apply k) :=
  .single a ⟨hg, hP⟩

/-- What sound states have and every step of the kind keeps, a run of them keeps. -/
theorem Atoms.keeps {I : ListKernel c → Prop} (h : Atoms P k k') (hs : Sound k)
    (hI : ∀ (s : ListKernel c) (a : Atom c), Sound s → a.guard s → P a → I s → I (a.apply s))
    (hk : I k) : I k' :=
  (h.invariant (I := fun s => Sound s ∧ I s)
    (fun s a hg hi => ⟨a.sound hi.1 hg.1, hI s a hi.1 hg.1 hg.2 hi.2⟩) ⟨hs, hk⟩).2

/-- What a change of priority leaves alone. -/
structure SameTasks (k k' : ListKernel c) : Prop where
  current : k'.currentTask = k.currentTask
  owner : k'.owner = k.owner
  frames : k'.frames = k.frames
  ticks : k'.ticks = k.ticks
  history : k'.history = k.history
  tasks : ∀ u, ∃ p b, k'.tasks u = { k.tasks u with priority := p, basePriority := b }

theorem SameTasks.state (h : SameTasks k k') (u : Place c) :
    (k'.tasks u).state = (k.tasks u).state := by
  obtain ⟨p, b, he⟩ := h.tasks u
  rw [he]

theorem SameTasks.told (h : SameTasks k k') (u : Place c) :
    (k'.tasks u).result = (k.tasks u).result ∧ (k'.tasks u).wait = (k.tasks u).wait := by
  obtain ⟨p, b, he⟩ := h.tasks u
  rw [he]
  exact ⟨rfl, rfl⟩

theorem SameTasks.refl (k : ListKernel c) : SameTasks k k :=
  ⟨rfl, rfl, rfl, rfl, rfl, fun _ => ⟨_, _, rfl⟩⟩

theorem SameTasks.trans {k₁ k₂ : ListKernel c} (h : SameTasks k k₁) (h' : SameTasks k₁ k₂) :
    SameTasks k k₂ := by
  refine ⟨h'.current.trans h.current, h'.owner.trans h.owner, h'.frames.trans h.frames,
    h'.ticks.trans h.ticks, h'.history.trans h.history, fun u => ?_⟩
  obtain ⟨p, b, he⟩ := h.tasks u
  obtain ⟨p', b', he'⟩ := h'.tasks u
  exact ⟨p', b', by rw [he', he]⟩

theorem setTask_same (k : ListKernel c) (t : Place c) (p b : ℕ) :
    SameTasks k (k.setTask t { k.tasks t with priority := p, basePriority := b }) := by
  refine ⟨rfl, rfl, rfl, rfl, rfl, fun u => ?_⟩
  by_cases hu : u = t
  · subst hu
    exact ⟨p, b, by simp [setTask]⟩
  · exact ⟨(k.tasks u).priority, (k.tasks u).basePriority, by simp [setTask, hu]⟩

theorem setPriority_same (k : ListKernel c) (t : Place c) (p : ℕ) :
    SameTasks k (k.setPriority t p) := setTask_same k t p _

theorem requeue_same (k : ListKernel c) (t : Place c) (p : ℕ) :
    SameTasks k ((k.setPriority t p).osRequeue t) := by
  refine (setPriority_same k t p).trans ?_
  unfold osRequeue
  split <;> exact ⟨rfl, rfl, rfl, rfl, rfl, fun _ => ⟨_, _, rfl⟩⟩

theorem raise_cond (h : Sound k) (t : Place c) (p : ℕ) (hp : p ≤ 254)
    (hlt : k.priority t < p) : (Atom.requeue t p).guard k := by
  refine ⟨fun _ => by omega, hp, fun ht he => ?_⟩
  subst ht
  have := h.bounded.base he
  rw [priority] at hlt
  omega

theorem raiseLoop_same (fuel : ℕ) (k : ListKernel c) (t : Place c) (p : ℕ) :
    SameTasks k (osPriorityRaiseLoop fuel k t p) := by
  induction fuel generalizing k t with
  | zero => exact .refl k
  | succ fuel ih =>
    unfold osPriorityRaiseLoop
    have hsame := requeue_same k t p
    split
    · dsimp only
      split
      · split
        · exact hsame.trans (ih _ _)
        · exact hsame
      · exact hsame
    · exact .refl k

theorem SameTasks.blockingOwner (h : SameTasks k k') : k'.blockingOwner = k.blockingOwner := by
  funext t
  obtain ⟨p, b, he⟩ := h.tasks t
  rw [Kernel.blockingOwner, Kernel.blockingOwner, he, h.owner]

/-- The loop of `osPriorityRaise` requeues one task after the other along the chain. -/
theorem raiseLoop_run (fuel : ℕ) (h : Sound k) (t : Place c) (p : ℕ)
    (hP : ∀ u, Donation.Reaches k.blockingOwner t u → ∀ q, P (.requeue u q)) (hp : p ≤ 254) :
    Atoms P k (osPriorityRaiseLoop fuel k t p) := by
  induction fuel generalizing k t with
  | zero => exact .refl k
  | succ fuel ih =>
    unfold osPriorityRaiseLoop
    by_cases hlt : k.priority t < p
    · have hg := raise_cond h t p hp hlt
      have hs := (Atom.requeue t p).sound h hg
      have hone : Atoms P k ((k.setPriority t p).osRequeue t) :=
        Atoms.one (.requeue t p) hg (hP t .refl p)
      have hnext : ((Atom.requeue t p).apply k).blockingOwner = k.blockingOwner :=
        (requeue_same k t p).blockingOwner
      rw [if_pos hlt]
      dsimp only
      split
      · split
        case h_1 owner ho =>
          refine hone.trans (ih hs owner fun u hu => hP u ?_)
          rw [hnext] at hu
          exact hu.head (hnext ▸ ho)
        case h_2 => exact hone
      · exact hone
    · rw [if_neg hlt]
      exact .refl k

theorem lower_cond (h : Sound k) (t : Place c) (hlt : k.osInheritedPriority t < k.priority t) :
    (Atom.requeue t (k.osInheritedPriority t)).guard k := by
  have hge := inherited_ge_base k t
  have hle : k.osInheritedPriority t ≤ 254 := by
    rcases h.inherited_bound t with hb | ⟨-, hb, hp, -⟩
    · exact hb
    · rw [priority] at hlt
      omega
  exact ⟨fun ht => le_trans (h.bounded.low t ht).2 hge, hle, fun _ he => by omega⟩

theorem giveUp_run (hP : ∀ u q, P (.requeue u q)) (h : Sound k) (m : Place c) :
    Atoms P k (giveUp k m) := by
  unfold giveUp
  split
  · split
    case isTrue hlt => exact .one (.requeue _ _) (lower_cond h _ hlt) (hP _ _)
    case isFalse => exact .refl k
  · exact .refl k

/-- The task has a new priority of its own, the chain it is in front of may have to be raised. -/
theorem repriority_run (h : Sound k) (t : Place c) (p : ℕ) (hlo : 1 ≤ p) (hhi : p ≤ 254)
    (hb : P (.setBase t p)) (hP : ∀ u, Donation.Reaches k.blockingOwner t u → ∀ q, P (.requeue u q)) :
    Atoms P k (repriority k t p) := by
  have hg : (Atom.setBase t p).guard k := ⟨hlo, hhi⟩
  have hs := (Atom.setBase t p).sound h hg
  have hnext : ((Atom.setBase t p).apply k).blockingOwner = k.blockingOwner :=
    (setTask_same k t (k.tasks t).priority p).blockingOwner
  refine (Atoms.one _ hg hb).trans ?_
  show Atoms _ ((Atom.setBase t p).apply k) (if _ then _ else if _ then _ else _)
  split
  case isTrue hgt =>
    refine raiseLoop_run _ hs t _ (fun u hu => hP u (hnext ▸ hu)) ?_
    rcases hs.inherited_bound t with hb | ⟨-, hb, hp, -⟩
    · exact hb
    · simp only [priority] at hgt
      change (((Atom.setBase t p).apply k).tasks t).priority <
        ((Atom.setBase t p).apply k).osInheritedPriority t at hgt
      omega
  case isFalse =>
    split
    case isTrue hlt => exact .one (.requeue _ _) (lower_cond hs _ hlt) (hP t .refl _)
    case isFalse => exact .refl _

theorem settle_run (hP : P .settle) (hs : k.stateOf k.currentTask = OS_TASK_RUNNING) :
    Atoms P k (k.osSettle k.currentTask) := by
  unfold osSettle
  split
  · split
    · exact .one .settle hs hP
    · exact .refl k
  · exact .refl k

theorem settle_same (k : ListKernel c) (t : Place c) : SameTasks k (k.osSettle t) := by
  unfold osSettle
  split
  · split
    · exact setPriority_same k t _
    · exact .refl k
  · exact .refl k

/-- Settling changes a priority, nothing else. -/
theorem settle_eq (k : ListKernel c) (t : Place c) : ∃ p, k.osSettle t = k.setPriority t p := by
  unfold osSettle
  have he : k.setPriority t (k.tasks t).priority = k := by
    simp [setPriority, setTask]
  split
  · split
    · exact ⟨_, rfl⟩
    · exact ⟨_, he.symm⟩
  · exact ⟨_, he.symm⟩

theorem setPriority_block (t : Place c) (p : ℕ) (call : Call c) (timeout : OsTick c)
    (list : Option (WaitList c)) :
    Blockable (k.setPriority t p) call timeout list ↔ Blockable k call timeout list := by
  have hw : ∀ u, ((k.setPriority t p).tasks u).wait = (k.tasks u).wait := by
    intro u
    by_cases hu : u = t
    · subst hu; simp [setPriority, setTask]
    · simp [setPriority, setTask, hu]
  unfold Blockable
  cases list with
  | none => exact Iff.rfl
  | some w =>
    cases w with
    | mutex m => exact Iff.rfl
    | semaphore s => exact Iff.rfl
    | queue q => simp only [hw]; exact Iff.rfl
    | event e => simp only [hw]; exact Iff.rfl

theorem block_run (call : Call c) (list : Option (WaitList c)) (timeout : OsTick c)
    (hP : P .settle ∧ P (.sleep call list timeout))
    (hi : k.currentTask ≠ osIdleTask) (hs : k.stateOf k.currentTask = OS_TASK_RUNNING)
    (ht : timeout ≠ 0) (hn : k.frames k.currentTask = none)
    (hf : OnMutex (k.tasks k.currentTask) ↔
      c.mutexInheritance = true ∧ ∃ m, list = some (.mutex m))
    (hb : Blockable k call timeout list) :
    Atoms P k ((k.osSettle k.currentTask).sleep call list timeout) := by
  refine (settle_run hP.1 hs).trans (Atoms.one (.sleep call list timeout) ?_ hP.2)
  have hsame := settle_same k k.currentTask
  obtain ⟨p, hp⟩ := settle_eq k k.currentTask
  refine ⟨by rw [hsame.current]; exact hi, ?_, ?_, ht, by rw [hsame.frames, hsame.current]; exact hn,
    ?_⟩
  · rw [stateOf, hsame.current, hsame.state]
    exact hs
  · rw [OnMutex, hsame.current, hsame.state]
    exact hf
  · rw [hp, setPriority_block]
    exact hb

theorem urge_run (hP : ∀ u q, P (.requeue u q)) (hf : P .flag) (h : Sound k) (owner : Place c)
    (hinh : c.mutexInheritance = true)
    (hs : k.stateOf k.currentTask = OS_TASK_RUNNING)
    (hp : k.priority k.currentTask ≤ 254 ∨ k.priority k.currentTask ≤ k.priority owner) :
    Atoms P k (urge k owner) := by
  have hq : SameTasks k (k.osPriorityRaise owner (k.priority k.currentTask)) :=
    raiseLoop_same _ k owner _
  have hr : Atoms P k (k.osPriorityRaise owner (k.priority k.currentTask)) := by
    rcases hp with hp | hp
    · exact raiseLoop_run _ h owner _ (fun u _ q => hP u q) hp
    · have he : k.osPriorityRaise owner (k.priority k.currentTask) = k := by
        unfold osPriorityRaise osPriorityRaiseLoop
        rw [if_neg (by omega)]
      rw [he]
      exact .refl k
  unfold urge
  dsimp only
  generalize k.osPriorityRaise owner (k.priority k.currentTask) = s at hq hr ⊢
  rw [← hq.current]
  refine hr.trans (Atoms.one .flag ⟨hinh, ?_⟩ hf)
  rw [stateOf, hq.current, hq.state]
  exact hs

theorem urge_same (k : ListKernel c) (owner : Place c) :
    (urge k owner).currentTask = k.currentTask ∧ (urge k owner).owner = k.owner ∧
      (urge k owner).frames = k.frames ∧ (urge k owner).history = k.history ∧
      ((urge k owner).tasks k.currentTask).state =
        (k.tasks k.currentTask).state ||| OS_TASK_MUTEX := by
  have hq : SameTasks k (k.osPriorityRaise owner (k.priority k.currentTask)) :=
    raiseLoop_same _ k owner _
  refine ⟨hq.current, hq.owner, hq.frames, hq.history, ?_⟩
  simp [urge, setState, setTask, hq.current, hq.state]

theorem Sound.raise_bound (h : Sound k) {m owner : Place c} (ho : k.owner m = some owner) :
    k.priority k.currentTask ≤ 254 ∨ k.priority k.currentTask ≤ k.priority owner := by
  by_cases hi : k.currentTask = osIdleTask
  · by_cases he : (k.tasks osIdleTask).priority = 255
    · refine Or.inr (le_of_eq ?_)
      rw [(h.bounded.main he).2.1 m owner ho, hi]
    · have := h.bounded.idle.1
      rw [priority, hi]
      omega
  · exact Or.inl (h.bounded.high _ hi).1

theorem lock_run (h : Sound k) (call : Call c) (m owner : Place c) (timeout : OsTick c)
    (hg : (Move.lock call m owner timeout).guard k) :
    Atoms (Move.lock call m owner timeout).Uses k ((Move.lock call m owner timeout).apply k) := by
  obtain ⟨hinh, hi, hs, ht, ho, hn, hm, hc⟩ := hg
  obtain ⟨hcur, hown, hfr, hh, hst⟩ := urge_same k owner
  have hk : k.stateOf k.currentTask = OS_TASK_RUNNING := by rw [stateOf, hs]; simp
  refine (urge_run (fun u q => Or.inl ⟨u, q, rfl⟩) (Or.inr (Or.inl rfl)) h owner hinh hk
    (h.raise_bound ho)).trans (block_run call (some (.mutex m)) timeout
      ⟨Or.inr (Or.inr (Or.inl rfl)), Or.inr (Or.inr (Or.inr rfl))⟩ ?_ ?_ ht
      (by rw [hfr, hcur]; exact hn) ?_ ?_)
  · rw [hcur]
    exact hi
  · rw [stateOf, hcur, hst, mutex_kind]
    exact hk
  · rw [OnMutex, hcur, hst]
    exact ⟨fun _ => ⟨hinh, m, rfl⟩, fun _ => mutex_mutex _⟩
  · refine ⟨?_, ?_, hc⟩
    · rw [hown, ho]
      simp
    · rw [hown, hcur, hh]
      exact hm

theorem lockIdle_run (h : Sound k) (m owner : Place c)
    (hg : (Move.lockIdle m owner).guard k) :
    Atoms (Move.lockIdle m owner).Uses k ((Move.lockIdle m owner).apply k) := by
  obtain ⟨hinh, hi, hs, ho⟩ := hg
  obtain ⟨hcur, hown, -, -, hst⟩ := urge_same k owner
  have hk : k.stateOf k.currentTask = OS_TASK_RUNNING := by rw [stateOf, hs]; simp
  have hP : ∀ u q, (Move.lockIdle m owner).Uses (.requeue u q) := fun u q => Or.inl ⟨u, q, rfl⟩
  have hu := urge_run hP (Or.inr (Or.inl rfl)) h owner hinh hk (h.raise_bound ho)
  have hg' : (Atom.unflag).guard (urge k owner) := by
    show (urge k owner).stateOf (urge k owner).currentTask = _
    rw [stateOf, hcur, hst, mutex_kind]
    exact hk
  have hf : Atoms (Move.lockIdle m owner).Uses k (Atom.unflag.apply (urge k owner)) :=
    hu.trans (Atoms.one .unflag hg' (Or.inr (Or.inr rfl)))
  exact hf.trans (giveUp_run hP (hf.sound h) m)

/-! ### Deleting a task -/

/-- Nobody is woken up but the first waiter. -/
theorem pass_frame (k : ListKernel c) (m : Place c) :
    (k.osMutexPass m).currentTask = k.currentTask ∧
    (k.osMutexPass m).links .dead = k.links .dead ∧
    ∀ u, u ∉ k.links (.wait (.mutex m)) → (k.osMutexPass m).tasks u = k.tasks u := by
  rcases pass_cases k m with ⟨w, rest, hl, he⟩ | ⟨-, he⟩
  · rw [he]
    refine ⟨?_, ?_, fun u hu => ?_⟩
    · rw [osMutexOwn_eq, osWake_eq]
    · rw [wake_dead, osMutexOwn_eq]
    · have huw : u ≠ w := fun hu' => hu (by rw [hl, hu']; simp)
      rw [osMutexOwn_eq, osWake_eq]
      exact Function.update_of_ne huw ..
  · rw [he]
    exact ⟨rfl, rfl, fun _ _ => rfl⟩

theorem release_frame (h : Sound k) (t m u : Place c) (hu : k.stateOf u ≠ OS_TASK_BLOCKED) :
    ((Atom.release t m).apply k).currentTask = k.currentTask ∧
      ((Atom.release t m).apply k).tasks u = k.tasks u := by
  show ((if c.mutexInheritance then _ else k).osMutexPass m).currentTask = _ ∧
    ((if c.mutexInheritance then _ else k).osMutexPass m).tasks u = _
  rw [release_eq]
  obtain ⟨hcur, -, htk⟩ := pass_frame { k with ownedLinks := offOwned k t m } m
  exact ⟨hcur, htk u fun hm => hu (h.waiter_blocked hm)⟩

theorem unlock_run (h : Sound k) (m : Place c) (hg : (Move.unlock m).guard k) :
    Atoms (Move.unlock m).Uses k (unlock k m) := by
  obtain ⟨hk, hr⟩ := hg
  have hone : Atoms (Move.unlock m).Uses k ((Atom.release k.currentTask m).apply k) :=
    Atoms.one _ hr (Or.inl ⟨_, rfl⟩)
  obtain ⟨hcur, hst⟩ := release_frame h k.currentTask m k.currentTask (by rw [hk]; simp)
  unfold unlock
  dsimp only
  generalize (Atom.release k.currentTask m).apply k = s at hone hcur hst ⊢
  split
  · have hs : (Atom.settle).guard s := by
      show s.stateOf s.currentTask = OS_TASK_RUNNING
      rw [stateOf, hcur, hst]
      exact hk
    rw [← hcur]
    exact hone.trans (Atoms.one .settle hs (Or.inr rfl))
  · exact hone

/-- Mutexes of a task are passed on one after the other. -/
theorem releaseLoop_run (fuel : ℕ) (h : Sound k) (hinh : c.mutexInheritance = true) (t : Place c)
    (hd : k.stateOf t = OS_TASK_DEAD) :
    Atoms (fun a => ∃ m, a = .release t m) k (osMutexReleaseAllLoop fuel k t) := by
  induction fuel generalizing k with
  | zero => exact .refl k
  | succ fuel ih =>
    unfold osMutexReleaseAllLoop
    rw [head_lists]
    cases hh : (k.ownedLinks t).head? with
    | none => exact .refl k
    | some m =>
      have hg : (Atom.release t m).guard k :=
        ⟨(h.owned.records hinh m t).mp (List.mem_of_mem_head? hh), Or.inl hd⟩
      have hpop : Lists.pop k.ownedLinks t = Lists.remove k.ownedLinks t m := by
        obtain ⟨l, hl⟩ := List.head?_eq_some_iff.mp hh
        simp [Lists.pop, Lists.remove, hl]
      have he : (Atom.release t m).apply k =
          { k with ownedLinks := Lists.pop k.ownedLinks t }.osMutexPass m := by
        show (if _ then _ else k).osMutexPass m = _
        rw [if_pos hinh, hpop]
      have hs : Sound ({ k with ownedLinks := Lists.pop k.ownedLinks t }.osMutexPass m) := by
        rw [← he]
        exact (Atom.release t m).sound h hg
      have hone : Atoms (fun a => ∃ m, a = .release t m) k ((Atom.release t m).apply k) :=
        Atoms.one (.release t m) hg ⟨m, rfl⟩
      have hd' : ((Atom.release t m).apply k).stateOf t = OS_TASK_DEAD := by
        rw [stateOf, (release_frame h t m t (by rw [hd]; simp)).2]
        exact hd
      rw [he] at hone hd'
      exact hone.trans (ih hs hd')

/-- A dead task whose memory is not waiting to be freed. -/
def Dead (t : Place c) (k : ListKernel c) : Prop :=
  k.stateOf t = OS_TASK_DEAD ∧ t ∉ k.links .dead

theorem release_dead (h : Sound k) {t u m : Place c} (hd : Dead t k) :
    Dead t ((Atom.release u m).apply k) := by
  obtain ⟨hst, hnd⟩ := hd
  show Dead t ((if c.mutexInheritance then _ else k).osMutexPass m)
  rw [release_eq]
  obtain ⟨-, hl, htk⟩ := pass_frame { k with ownedLinks := offOwned k u m } m
  have ht : t ∉ k.links (.wait (.mutex m)) := fun hm => by
    have hb := h.waiter_blocked hm
    rw [hst] at hb
    simp at hb
  exact ⟨by rw [stateOf, htk t ht]; exact hst, by rw [hl]; exact hnd⟩

theorem kill_dead (h : Sound k) (t : Place c) (hd : k.stateOf t ≠ OS_TASK_DEAD) :
    Dead t ((Atom.kill t).apply k) := by
  refine ⟨?_, fun hm => h.linked.notDead hd ?_⟩
  · show ((k.osTaskDetach t).setState t OS_TASK_DEAD).stateOf t = _
    simp [stateOf, setState, setTask]
  · exact (detach_sublist k t _).subset hm

theorem released_run (h : Sound k) (t : Place c) (ht : t ≠ osIdleTask)
    (hd : k.stateOf t ≠ OS_TASK_DEAD) :
    Atoms (Move.delete t).Uses k (released k t) ∧ Dead t (released k t) := by
  have hk : Atoms (Move.delete t).Uses k ((Atom.kill t).apply k) :=
    Atoms.one (.kill t) ⟨ht, hd⟩ (Or.inl rfl)
  have hks := hk.sound h
  have hkd := kill_dead h t hd
  unfold released
  dsimp only
  split
  case isTrue hinh =>
    have hr := releaseLoop_run (c.places + 1) hks hinh t hkd.1
    refine ⟨hk.trans (hr.mono fun _ _ hg => ⟨hg.1, Or.inr (Or.inl hg.2)⟩), ?_⟩
    refine hr.keeps (I := Dead t) hks (fun s a hs _ ha hd => ?_) hkd
    obtain ⟨m, rfl⟩ := ha
    exact release_dead hs hd
  case isFalse => exact ⟨hk, hkd⟩

/-- Whoever does not wait for a mutex does not notice that a task is gone. -/
theorem delete_frame (h : Sound k) (t : Place c) (ht : t ≠ osIdleTask)
    (hd : k.stateOf t ≠ OS_TASK_DEAD) (u : Place c) (hut : u ≠ t)
    (hu : k.stateOf u ≠ OS_TASK_BLOCKED) : (delete k t).tasks u = k.tasks u := by
  have hks := (Atom.kill t).sound h ⟨ht, hd⟩
  have hk : ((Atom.kill t).apply k).tasks u = k.tasks u := by
    show (Function.update (k.osTaskDetach t).tasks t _) u = _
    rw [Function.update_of_ne hut, detach_task h.linked, Function.update_of_ne hut]
  have hr : (released k t).tasks u = k.tasks u := by
    unfold released
    dsimp only
    split
    case isTrue hinh =>
      refine (releaseLoop_run (c.places + 1) hks hinh t (kill_dead h t hd).1).keeps
        (I := fun s => s.tasks u = k.tasks u) hks (fun s a hs _ ha hi => ?_) hk
      obtain ⟨m, rfl⟩ := ha
      rw [(release_frame hs t m u ?_).2, hi]
      rw [stateOf, hi]
      exact hu
    case isFalse => exact hk
  unfold delete
  dsimp only
  split
  · exact hr
  · exact hr

theorem delete_current (h : Sound k) (t : Place c) (ht : t ≠ osIdleTask)
    (hd : k.stateOf t ≠ OS_TASK_DEAD) : (delete k t).currentTask = k.currentTask := by
  have hks := (Atom.kill t).sound h ⟨ht, hd⟩
  have hk : ((Atom.kill t).apply k).currentTask = k.currentTask := (detach_frame k t).1
  have hr : (released k t).currentTask = k.currentTask := by
    unfold released
    dsimp only
    split
    case isTrue hinh =>
      refine (releaseLoop_run (c.places + 1) hks hinh t (kill_dead h t hd).1).keeps
        (I := fun s => s.currentTask = k.currentTask) hks (fun s a _ _ ha hi => ?_) hk
      obtain ⟨m, rfl⟩ := ha
      show ((if c.mutexInheritance then _ else s).osMutexPass m).currentTask = _
      rw [release_eq, (pass_frame _ m).1]
      exact hi
    case isFalse => exact hk
  unfold delete
  dsimp only
  split
  · exact hr
  · exact hr

theorem delete_kind (h : Sound k) (t : Place c) (ht : t ≠ osIdleTask)
    (hd : k.stateOf t ≠ OS_TASK_DEAD) : (delete k t).stateOf t = OS_TASK_DEAD := by
  have hr := (released_run h t ht hd).2.1
  unfold delete
  dsimp only
  split
  · exact hr
  · exact hr

theorem delete_run (h : Sound k) (t : Place c) (ht : t ≠ osIdleTask)
    (hd : k.stateOf t ≠ OS_TASK_DEAD) : Atoms (Move.delete t).Uses k (delete k t) := by
  obtain ⟨hr, hdead⟩ := released_run h t ht hd
  unfold delete
  dsimp only
  split
  · exact hr.trans (Atoms.one (.bury t) hdead (Or.inr (Or.inr rfl)))
  · exact hr

/-! ### Events and the tick -/

/-- Serving a waiter takes it off the list or leaves the list alone. -/
theorem serve_links (h : Sound k) (e t : Place c) (ht : t ∈ k.links (.wait (.event e))) :
    (k.osEventServe e t).links (.wait (.event e)) = k.links (.wait (.event e)) ∨
    (k.osEventServe e t).links (.wait (.event e)) = (k.links (.wait (.event e))).erase t := by
  have hb := h.waiter_blocked ht
  rcases serve_cases k e t with ⟨-, he⟩ | ⟨matched, options, -, -, -, he⟩
  · rw [he]
    exact Or.inl rfl
  · refine Or.inr ?_
    obtain ⟨htk, hlk, -⟩ := consume_frame (k.emit (.visited e t)) e matched options
    rw [he, osWake_eq]
    dsimp only
    rw [onReady_of_ne _ _ _ _ (by simp),
      ← h.linked.offWait_eq (by rw [hb]; simp) (by rw [hb]; simp), offWait, offWait]
    simp only [setWait, setTask, emit, Function.update_self] at htk hlk ⊢
    rw [htk, hlk]

/-- The walk along the waiters of an event serves everybody on the list at its start, although
those who are satisfied leave the list: `todo` are the ones still to be visited. -/
theorem setEventLoop_eq (e : Place c) (fuel : ℕ) (h : Sound k) (pre todo : List (Place c))
    (hl : k.links (.wait (.event e)) = pre ++ todo) (hf : todo.length ≤ fuel) :
    osEventSetLoop e fuel k todo.head? = todo.foldl (fun k t => k.osEventServe e t) k := by
  induction todo generalizing k fuel pre with
  | nil => cases fuel <;> rfl
  | cons t rest ih =>
    obtain ⟨fuel, rfl⟩ : ∃ n, fuel = n + 1 := ⟨fuel - 1, by simp at hf; omega⟩
    have hm : t ∈ k.links (.wait (.event e)) := by rw [hl]; simp
    have hnd : (pre ++ t :: rest).Nodup := hl ▸ h.linked.1.separate.nodup _
    have htp : t ∉ pre := fun hp => List.disjoint_of_nodup_append hnd hp (by simp)
    have hnext : LinkStore.next k.links (.wait (.event e)) t = rest.head? :=
      Lists.next_append _ _ _ pre rest hl htp
    have hs := (Atom.serve e t).sound h (((h.linked.2 t).wait _).mp hm)
    have hf' : rest.length ≤ fuel := by simpa using hf
    show osEventSetLoop e fuel (k.osEventServe e t) (LinkStore.next k.links (.wait (.event e)) t) = _
    rw [hnext, List.foldl_cons]
    rcases serve_links h e t hm with he | he
    · exact ih fuel hs (pre ++ [t]) (by rw [he, hl]; simp) hf'
    · refine ih fuel hs pre ?_ hf'
      rw [he, hl, List.erase_append_right _ htp, List.erase_cons_head]

/-- `osEventSetFromISR` serves the waiters one after the other. -/
theorem setEvent_eq (h : Sound k) (e : Place c) (flags : Byte) : k.osEventSetFromISR e flags =
    (k.links (.wait (.event e))).foldl (fun k t => k.osEventServe e t)
      ((Atom.flagsSet e flags).apply k) := by
  have hs := (Atom.flagsSet e flags).sound h trivial
  have hlen := (h.linked.1.separate.nodup (.wait (.event e))).length_le_card
  rw [Fintype.card_fin] at hlen
  exact setEventLoop_eq e (c.places + 1) hs [] _ rfl hlen

theorem serveFold_run (e : Place c) (h : Sound k) (pre todo : List (Place c))
    (hl : k.links (.wait (.event e)) = pre ++ todo) :
    Atoms (fun a => ∃ t, a = .serve e t) k
      (todo.foldl (fun k t => k.osEventServe e t) k) := by
  induction todo generalizing k pre with
  | nil => exact .refl k
  | cons t rest ih =>
    have hm : t ∈ k.links (.wait (.event e)) := by rw [hl]; simp
    have hnd : (pre ++ t :: rest).Nodup := hl ▸ h.linked.1.separate.nodup _
    have htp : t ∉ pre := fun hp => List.disjoint_of_nodup_append hnd hp (by simp)
    have hg : (Atom.serve e t).guard k := ((h.linked.2 t).wait _).mp hm
    refine .step (.serve e t) ⟨hg, t, rfl⟩ ?_
    rcases serve_links h e t hm with he | he
    · exact ih (Atom.sound _ h hg) (pre ++ [t]) (by
        show (k.osEventServe e t).links _ = _
        rw [he, hl]; simp)
    · refine ih (Atom.sound _ h hg) pre ?_
      show (k.osEventServe e t).links _ = _
      rw [he, hl, List.erase_append_right _ htp, List.erase_cons_head]

theorem setEvent_run (h : Sound k) (e : Place c) (flags : Byte) :
    Atoms (Move.setEvent e flags).Uses k (k.osEventSetFromISR e flags) := by
  rw [setEvent_eq h]
  have hs := (Atom.flagsSet e flags).sound h trivial
  refine (Atoms.one (.flagsSet e flags) trivial (Or.inl rfl)).trans ?_
  exact (serveFold_run e hs [] _ rfl).mono fun _ _ hg => ⟨hg.1, Or.inr hg.2⟩

/-- The tick wakes up one task after the other. -/
theorem expire_run (fuel : ℕ) (h : Sound k) :
    Run Atom.apply (fun k a => a.guard k ∧ ∃ t, a = .expire t ∧ (k.timerLinks ()).head? = some t)
      k (osTickExpire fuel k) := by
  induction fuel generalizing k with
  | zero => exact .refl k
  | succ fuel ih =>
    unfold osTickExpire
    rw [head_lists]
    cases hh : (k.timerLinks ()).head? with
    | none => exact .refl k
    | some t =>
      dsimp only
      split
      case isTrue hw =>
        have hg : (Atom.expire t).guard k :=
          ⟨(h.linked.2 t).timer.mp (List.mem_of_mem_head? hh), hw⟩
        exact .step (.expire t) ⟨hg, t, rfl, hh⟩ (ih (Atom.sound _ h hg))
      case isFalse => exact .refl k

theorem expire_atoms (fuel : ℕ) (h : Sound k) : Atoms (fun a => ∃ t, a = .expire t) k (osTickExpire fuel k) :=
  (expire_run fuel h).mono fun _ _ hg => ⟨hg.1, hg.2.imp fun _ ht => ht.1⟩

theorem tick_run (h : Sound k) : Atoms (Move.tick (c := c)).Uses k k.osTickEnter := by
  have hs := (Atom.tick).sound h trivial
  exact (Atoms.one .tick trivial (Or.inl rfl)).trans
    ((expire_atoms _ hs).mono fun _ _ hg => ⟨hg.1, Or.inr hg.2⟩)

/-- Every move is a sequence of elementary steps. -/
theorem Move.run (mv : Move c) (h : Sound k) (hg : mv.guard k) :
    Atoms mv.Uses k (mv.apply k) := by
  cases mv with
  | one a => exact Atoms.one a hg.2 rfl
  | giveUp m => exact giveUp_run (fun u q => ⟨u, q, rfl⟩) h m
  | repriority t p =>
    exact repriority_run h t p hg.1 hg.2 (Or.inl rfl) fun u _ q => Or.inr ⟨u, q, rfl⟩
  | block call list timeout =>
    obtain ⟨hi, hs, ht, hn, hinh, hb⟩ := hg
    refine block_run call list timeout ⟨Or.inl rfl, Or.inr rfl⟩ hi (by rw [stateOf, hs]; simp) ht
      hn ?_ hb
    rw [OnMutex, hs, mutex_running]
    refine ⟨fun hne => absurd rfl hne, fun hw => ?_⟩
    obtain ⟨hc, m, hm⟩ := hw
    exact absurd hm (hinh hc m)
  | lock call m owner timeout => exact lock_run h call m owner timeout hg
  | lockIdle m owner => exact lockIdle_run h m owner hg
  | unlock m => exact unlock_run h m hg
  | delete t => exact delete_run h t hg.1 hg.2
  | setEvent e flags => exact setEvent_run h e flags
  | tick => exact tick_run h

theorem Move.sound (mv : Move c) (h : Sound k) (hg : mv.guard k) : Sound (mv.apply k) :=
  (mv.run h hg).sound h

end

end AvrOs
