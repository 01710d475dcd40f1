import AvrOs.Exactness
import AvrOs.SoftTimers

/-!
# Tasks which start to wait for a mutex

The call raises the owners along a chain before it gives the processor away. What the raise is
good for depends on what happens to the task until it is back.
-/

namespace AvrOs
open Intrusive Transition Kernel

variable {c : Config} {k k' : ListKernel c} {call : Call c} {m : Place c} {timeout : OsTick c}

theorem Locks.exec (h : Locks call m timeout) (k : ListKernel c) :
    k.exec call = k.osMutexTryLock call m timeout := by
  rcases h with rfl | ⟨rfl, rfl⟩ <;> rfl

/-- The kernel has not done anything yet to tasks, lists and mutexes. -/
structure Alike (k s : ListKernel c) : Prop where
  sound : Sound s
  running : Running s
  noDead : NoDead s
  current : s.currentTask = k.currentTask
  owner : s.owner = k.owner
  tasks : s.tasks = k.tasks
  links : s.links = k.links
  loans : SameLoans k s

/-- The kernel has been called. -/
structure Entered (k : ListKernel c) (call : Call c) (s : ListKernel c) : Prop extends Alike k s where
  free : Open s
  called : Called s call

theorem entered (h : Rest k) (hs : k.step (.call call) = some k') :
    ∃ s, Entered k call s ∧ k.legal call ∧ k' = s.exec call := by
  obtain ⟨huser, hl, he⟩ := step_call hs
  have hf : Open k := userMode_open huser
  have hg : (Atom.called call).guard k := ⟨h.running.kind, hf⟩
  have hcalled : Called (k.emit (.called k.currentTask call (k.mine call))) call :=
    ⟨k.history k.currentTask, List.filter_cons_of_pos (decide_eq_true rfl)⟩
  have hloans : SameLoans k ((Atom.called call).apply k) :=
    Atom.same_loans (.called call) h.sound hg id id fun _ hu => absurd hu id
  exact ⟨_, ⟨⟨Atom.sound (.called call) h.sound hg, h.running, h.noDead, rfl, rfl, rfl, rfl, hloans⟩,
    hf, hcalled⟩, hl, he⟩

theorem Alike.returns {s : ListKernel c} (h : Alike k s) (call : Call c) (v : Value c) :
    Alike k (s.returns call v) :=
  ⟨setFrame_sound h.sound _ _, h.running, h.noDead, h.current, h.owner, h.tasks, h.links,
    ⟨h.loans.priority, h.loans.own, h.loans.lends⟩⟩

/-- A call which has to wait for a mutex is one move and a switch. -/
theorem lock_step (hr : Rest k) (hinh : c.mutexInheritance = true) (hc : Locks call m timeout)
    (hs : k.step (.call call) = some k') (hw : k'.frames k.currentTask = some (.blocked call)) :
    ∃ s owner, Entered k call s ∧ k.owner m = some owner ∧
      (Move.lock call m owner timeout).guard s ∧
      k' = ((Move.lock call m owner timeout).apply s).osDispatch := by
  obtain ⟨s, he, -, rfl⟩ := entered hr hs
  have hreturns : ∀ (s' : ListKernel c) v, s'.currentTask = k.currentTask →
      (s'.returns call v).frames k.currentTask ≠ some (.blocked call) := by
    intro s' v hcur
    rw [returns, setFrame, hcur]
    simp
  rw [hc.exec] at hw
  rw [hc.exec]
  unfold osMutexTryLock at hw ⊢
  dsimp only at hw ⊢
  cases ho : s.owner m with
  | none =>
    rw [ho] at hw
    refine absurd hw (hreturns _ _ ?_)
    rw [osMutexOwn_eq]
    exact he.current
  | some owner =>
    rw [ho] at hw
    dsimp only at hw ⊢
    by_cases ht : timeout = OS_NO_WAIT c
    · rw [if_pos ht] at hw
      exact absurd hw (hreturns _ _ he.current)
    · rw [if_neg ht, if_pos hinh] at hw
      rw [if_neg ht, if_pos hinh]
      obtain ⟨hcur, hown, -⟩ := urge_same s owner
      change ((urge s owner).blockThen call (some (.mutex m)) timeout
        (osMutexTryLockRest call m)).frames k.currentTask = some (.blocked call) at hw
      show ∃ s' o, _ ∧ _ ∧ _ ∧ (urge s owner).blockThen call (some (.mutex m)) timeout
        (osMutexTryLockRest call m) = _
      unfold blockThen osBlock at hw ⊢
      dsimp only at hw ⊢
      by_cases hi : (urge s owner).currentTask = osIdleTask
      · rw [if_pos hi] at hw
        dsimp only at hw
        rw [rest_eq] at hw
        refine absurd hw (hreturns _ _ ?_)
        rw [(undo_same _ m false).current]
        exact hcur.trans he.current
      · rw [if_neg hi]
        refine ⟨s, owner, he, by rw [← he.owner, ho], ⟨hinh, hcur ▸ hi, he.running, ht, ho, he.free,
          he.called.mine hc, hc⟩, rfl⟩

/-- The task sleeps by then, and owners are still the same. -/
theorem lock_frame {owner : Place c} (hg : (Move.lock call m owner timeout).guard k) :
    ((Move.lock call m owner timeout).apply k).currentTask = k.currentTask ∧
      ((Move.lock call m owner timeout).apply k).stateOf k.currentTask = OS_TASK_BLOCKED ∧
      ((Move.lock call m owner timeout).apply k).owner = k.owner := by
  obtain ⟨hcur, hown, -⟩ := urge_same k owner
  have hst := urge_state k owner k.currentTask
  have hk : k.stateOf k.currentTask = OS_TASK_RUNNING := by
    rw [stateOf, hg.2.2.1]
    simp
  show (((urge k owner).osSettle (urge k owner).currentTask).sleep call (some (.mutex m)) timeout).currentTask =
    _ ∧ (((urge k owner).osSettle (urge k owner).currentTask).sleep call (some (.mutex m)) timeout).stateOf _ =
    _ ∧ (((urge k owner).osSettle (urge k owner).currentTask).sleep call (some (.mutex m)) timeout).owner = _
  have hsame := settle_same (urge k owner) (urge k owner).currentTask
  refine ⟨?_, ?_, ?_⟩
  · rw [sleep_current, hsame.current, hcur]
  · have hcur' := hsame.current.trans hcur
    rw [← hcur']
    refine sleep_kind _ call _ timeout ?_
    rw [stateOf, hsame.state, hcur', ← stateOf, hst, hk]
  · rw [sleep_eq]
    exact hsame.owner.trans hown

/-- The switch which follows is nothing to priorities. -/
theorem lock_switched {owner : Place c} (hs : Sound k) (hg : (Move.lock call m owner timeout).guard k) :
    SameLoans ((Move.lock call m owner timeout).apply k)
      ((Move.lock call m owner timeout).apply k).osDispatch := by
  obtain ⟨hcur, hblocked, -⟩ := lock_frame hg
  have hd : (Atom.dispatch).guard ((Move.lock call m owner timeout).apply k) := by
    rw [Atom.guard, hcur, hblocked]
    simp
  exact Atom.same_loans .dispatch (Move.sound _ hs hg) hd id id fun _ hu => absurd hu id

theorem dispatch_owner (k : ListKernel c) : k.osDispatch.owner = k.owner := by
  unfold osDispatch
  split <;> rfl

end AvrOs
