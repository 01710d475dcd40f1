import AvrOs.ExactRuns
import AvrOs.Locking

/-!
# Giving up a mutex after a timeout

A task raises the owners along a chain, times out and sets the first one of them back. Nobody
else loses the priority it was raised to, so everything is as it was before only if nobody else
had to be raised.
-/

namespace AvrOs
open Intrusive Transition Kernel

variable {c : Config}

/-- Calls which wait for semaphores, queues, events and delays. -/
def Call.waits : Call c → Bool
  | .osSemaphoreTake _ _ | .osQueueSend _ _ _ | .osQueueReceive _ _ _ | .osEventWait _ _ _ _
  | .osDelay _ | .osDelayUntil _ _ => true
  | _ => false

section
variable {S : Type → Type → Type} [LinkStore S]

/-- The current task is about to go on with a call to lock or unlock a mutex. -/
def inMutexCall (k : Kernel c S) : Bool :=
  match k.frames k.currentTask with
  | some (.blocked call) => call.mutex.isSome
  | _ => false

/-- What may happen while `waiter` waits: ticks, which may be the end of its own wait, and calls
of other tasks which wait for anything but a mutex. -/
def Meanwhile (waiter : Place c) (k : Kernel c S) : Action c → Prop
  | .resume => k.currentTask ≠ waiter ∧ inMutexCall k = false
  | .call x => k.currentTask ≠ waiter ∧ x.waits = true
  | .tickEnter => ∀ t, t ≠ waiter → waitsForMutex k t = true → Timed (k.tasks t) →
      (k.tasks t).wake ≠ k.ticks + 1
  | .tickTimer | .tickLeave | .store _ _ | .setTickVar _ _ => True
  | _ => False

instance (waiter : Place c) (k : Kernel c S) : DecidablePred (Meanwhile waiter k)
  | .resume | .call _ => inferInstanceAs (Decidable (_ ∧ _))
  | .tickEnter => inferInstanceAs (Decidable (∀ _, _))
  | .tickTimer | .tickLeave | .store _ _ | .setTickVar _ _ => .isTrue trivial
  | .run | .isrEnter _ | .isrCall _ | .isrLeave => .isFalse id

/-- The current task of `k` waits for a mutex of `t₁`, and `osMutexTryLock` returns false to it. -/
structure GaveUp (m t₁ : Place c) (timeout : OsTick c) (k k₁ k₂ k₃ : Kernel c S) : Prop where
  owned : k.owner m = some t₁
  called : k.step (.call (.osMutexTryLock m timeout)) = some k₁
  waits : k₁.frames k.currentTask = some (.blocked (.osMutexTryLock m timeout))
  meanwhile : Reach step (Meanwhile k.currentTask) k₁ k₂
  back : k₂.currentTask = k.currentTask
  resumed : k₂.step .resume = some k₃
  refused : k₃.frames k.currentTask = some (.returning (.osMutexTryLock m timeout) (.bool false))

/-- Everybody on the chain of owners has the priority it had before, which is what it inherits. -/
def Undone (t₁ : Place c) (k k₃ : Kernel c S) : Prop :=
  ∀ t, Donation.Reaches k.blockingOwner t₁ t → Exact k₃ t ∧ k₃.priority t = k.priority t

end

section
variable {k k' b : ListKernel c} {waiter : Place c} {a : Action c}

/-- Nobody but the waiter is taken away from a mutex. -/
structure LoansBut (waiter : Place c) (k k' : ListKernel c) : Prop where
  priority : k'.priority = k.priority
  own : ownPriority k' = ownPriority k
  owner : k'.owner = k.owner
  lends : ∀ u, u ≠ waiter → lends k' u = lends k u

theorem LoansBut.refl (waiter : Place c) (k : ListKernel c) : LoansBut waiter k k :=
  ⟨rfl, rfl, rfl, fun _ _ => rfl⟩

theorem LoansBut.trans {k₁ : ListKernel c} (h : LoansBut waiter k k₁) (h' : LoansBut waiter k₁ k') :
    LoansBut waiter k k' :=
  ⟨h'.priority.trans h.priority, h'.own.trans h.own, h'.owner.trans h.owner,
    fun u hu => (h'.lends u hu).trans (h.lends u hu)⟩

theorem Atom.loansBut (x : Atom c) (hs : Sound k) (hg : x.guard k) (hr : ¬ x.Ranks)
    (hl : ¬ x.Relinks) (ho : ∀ m, x ≠ .own m)
    (hw : ∀ u, x.Withdraws u → u = waiter ∨ AvrOs.waitsFor k u = none) :
    LoansBut waiter k (x.apply k) := by
  have hrank := x.same_rank hs hg hr
  refine ⟨hrank.priority, hrank.own, x.owner hs hg ho fun t m he => hl (by rw [he]; trivial),
    fun u hu => ?_⟩
  by_cases hx : x.Withdraws u
  · rw [x.withdrawn_lends hs hx, AvrOs.lends, (hw u hx).resolve_left hu]
    split <;> rfl
  · exact x.lends hs hg hl hx

theorem tick_loansBut (hs : Sound k) (hm : MutexTimely (some waiter) k (k.ticks + 1)) :
    LoansBut waiter k k.osTickEnter := by
  refine tick_keeps (I := LoansBut waiter k) hs hm ⟨rfl, rfl, rfl, fun _ _ => rfl⟩ ?_
  intro s t hss hga hw hi
  refine hi.trans (Atom.loansBut (.expire t) hss hga id id (by simp) fun u hu => ?_)
  obtain rfl : t = u := hu
  by_cases ht : t = waiter
  · exact Or.inl ht
  · exact Or.inr (hw fun he => ht (Option.some.inj he))

theorem block_loansBut (hs : Sound k) (ha : c.aging = false) (hinh : c.mutexInheritance = true)
    (call : Call c) (list : Option (WaitList c)) (timeout : OsTick c)
    (hg : (Move.block call list timeout).guard k) :
    LoansBut waiter k ((Move.block call list timeout).apply k) := by
  obtain ⟨hi, hst, ht, hfree, hlist, hb⟩ := hg
  have hsleep : (Atom.sleep call list timeout).guard k := by
    refine ⟨hi, by rw [stateOf, hst]; simp, ?_, ht, hfree, hb⟩
    rw [OnMutex, hst, mutex_running]
    refine ⟨fun hne => absurd rfl hne, fun hw => ?_⟩
    obtain ⟨-, m, hm⟩ := hw
    exact absurd hm (hlist hinh m)
  show LoansBut waiter k ((k.osSettle k.currentTask).sleep call list timeout)
  rw [settle_off ha]
  refine Atom.loansBut (.sleep call list timeout) hs hsleep id (fun hl => ?_) (by simp) fun _ hw => absurd hw id
  cases list with
  | none => exact hl
  | some w => cases w with
    | mutex m => exact hlist hinh m rfl
    | _ => exact hl

theorem setEvent_loansBut (hs : Sound k) (e : Place c) (flags : Byte) :
    LoansBut waiter k ((Move.setEvent e flags).apply k) := by
  refine (Move.run (.setEvent e flags) hs trivial).keeps (I := LoansBut waiter k) hs
    (fun s x hss hga hu hi => ?_) (.refl ..)
  rcases hu with rfl | ⟨t, rfl⟩
  · exact hi.trans (Atom.loansBut _ hss hga id id (by simp) fun _ hw => absurd hw id)
  · exact hi.trans (Atom.loansBut _ hss hga id id (by simp) fun _ hw => absurd hw id)

/-- Calls which wait for something else are no other calls. -/
theorem Meanwhile.call_waits {x : Call c} (hw : Meanwhile waiter b (.call x)) : x.waits = true := hw.2

/-- Steps which make sense on their own. -/
theorem bare_loansBut (ha : c.aging = false) (hs : Sound k) (x : Atom c) (hw : Meanwhile waiter b a)
    (hg : (Move.one x).guard k) (hm : Allowed b a k (.one x)) : LoansBut waiter k (x.apply k) := by
  refine x.loansBut hs hg.2 (fun hr => ?_) (fun hl => ?_) (fun m he => ?_) fun u hu => ?_
  · cases x with
    | start =>
      obtain ⟨rfl, -⟩ := hm
      exact hw
    | settle =>
      rw [show c.aging = true from hm] at ha
      cases ha
    | age =>
      rw [hm.1] at ha
      cases ha
    | create t p dynamic =>
      obtain ⟨q, d, rfl⟩ := hm
      exact absurd hw.call_waits (by simp [Call.waits])
    | requeue | setBase => exact hg.1
    | _ => exact hr
  · cases x with
    | sleep | release => exact hg.1
    | _ => exact hl
  · subst he
    rcases hm with rfl | ⟨timeout, rfl⟩
    · exact absurd hw.call_waits (by simp [Call.waits])
    · exact absurd hw.call_waits (by simp [Call.waits])
  · cases x with
    | park t =>
      obtain ⟨-, o, rfl, -⟩ := hm
      exact absurd hw.call_waits (by simp [Call.waits])
    | expire | kill => exact absurd hg.1 id
    | _ => exact absurd hu id

/-- Nothing which may happen meanwhile is anything to owners of mutexes. -/
theorem Move.loansBut (ha : c.aging = false) (hinh : c.mutexInheritance = true) (hs : Sound k)
    (mv : Move c) (hw : Meanwhile waiter b a) (hg : mv.guard k) (hm : Allowed b a k mv) :
    LoansBut waiter k (mv.apply k) := by
  cases mv with
  | one x => exact bare_loansBut ha hs x hw hg hm
  | giveUp m =>
    obtain ⟨rfl, call, hf, hc⟩ := hm
    have hno := hw.2
    simp [inMutexCall, hf, hc] at hno
  | repriority t p =>
    obtain ⟨-, -, o, q, rfl, -⟩ := hm
    exact absurd hw.call_waits (by simp [Call.waits])
  | block call list timeout => exact block_loansBut hs ha hinh call list timeout hg
  | lock call m owner timeout =>
    obtain rfl : a = _ := hm
    rcases hg.2.2.2.2.2.2.2 with rfl | ⟨rfl, -⟩
    · exact absurd hw.call_waits (by simp [Call.waits])
    · exact absurd hw.call_waits (by simp [Call.waits])
  | lockIdle m owner =>
    obtain ⟨-, -, rfl | ⟨timeout, -, rfl⟩⟩ := hm
    · exact absurd hw.call_waits (by simp [Call.waits])
    · exact absurd hw.call_waits (by simp [Call.waits])
  | unlock m =>
    obtain rfl : a = _ := hm
    exact absurd hw.call_waits (by simp [Call.waits])
  | delete t =>
    obtain ⟨-, o, rfl, -⟩ := hm
    exact absurd hw.call_waits (by simp [Call.waits])
  | setEvent e flags => exact setEvent_loansBut hs e flags
  | tick =>
    obtain ⟨rfl, ht, hticks⟩ := hm
    refine tick_loansBut hs fun t hne htimed hwake => ?_
    rw [ht] at htimed hwake
    rw [hticks] at hwake
    rw [waitsFor_tasks ht]
    refine (waitsForMutex_iff b t).mp ?_
    by_contra hwait
    exact hw t (fun he => hne (by rw [he])) (by simpa using hwait) htimed hwake

/-- The same of a whole run. -/
theorem meanwhile_loansBut (ha : c.aging = false) (hinh : c.mutexInheritance = true) (hk : Rest k)
    (h : Reach step (Meanwhile waiter) k k') : Rest k' ∧ LoansBut waiter k k' := by
  refine h.invariant (I := fun s => Rest s ∧ LoansBut waiter k s) ⟨hk, .refl ..⟩ ?_
  intro s a s' _ hi hw hs
  have hm := (step_moves hi.1.sound hi.1.running hi.1.noDead hs).1
  refine ⟨hi.1.step hs, (hm.invariant (I := fun r => Sound r ∧ LoansBut waiter k r)
    (fun r mv hg hr => ?_) ⟨hi.1.sound, hi.2⟩).2⟩
  exact ⟨mv.sound hr.1 hg.1, hr.2.trans (mv.loansBut ha hinh hr.1 hw hg.1 hg.2)⟩

theorem schedule_frames (k : ListKernel c) (yield : ℕ) : (k.osSchedule yield).frames = k.frames := by
  have hd : ∀ k : ListKernel c, k.osDispatch.frames = k.frames := by
    intro k
    unfold osDispatch
    split <;> rfl
  unfold osSchedule
  split
  · obtain ⟨p, hp⟩ := settle_eq k k.currentTask
    dsimp only
    rw [hp, hd]
    rfl
  · rfl

theorem execRest_frames (k : ListKernel c) (call : Call c) (result : Bool) :
    ∃ v, (k.execRest call result).frames k.currentTask = some (.returning call v) := by
  have hreturns : ∀ v, (k.returns call v).frames k.currentTask = some (.returning call v) :=
    fun v => Function.update_self ..
  have hlock : ∀ m, ∃ v, (osMutexTryLockRest call m k result).frames k.currentTask =
      some (.returning call v) := by
    intro m
    have hcur := (undo_same k m result).current
    rw [rest_eq, returns, setFrame, hcur]
    exact ⟨_, Function.update_self ..⟩
  unfold execRest
  split
  · exact hlock _
  · exact hlock _
  · exact ⟨_, hreturns _⟩
  · exact ⟨.bool result, by rw [osQueueRest, schedule_frames, hreturns]⟩
  · exact ⟨.bool result, by rw [osQueueRest, schedule_frames, hreturns]⟩
  · exact ⟨_, hreturns _⟩
  · exact ⟨_, hreturns _⟩

/-- The task is back from `osBlock` without the mutex. -/
theorem gaveUp_step {m : Place c} {timeout : OsTick c} (hinh : c.mutexInheritance = true)
    (hs : k.step .resume = some k')
    (hf : k'.frames k.currentTask = some (.returning (.osMutexTryLock m timeout) (.bool false))) :
    k' = (giveUp k m).returns (.osMutexTryLock m timeout) (.bool false) := by
  have hnone : ∀ f, (Function.update k.frames k.currentTask none) k.currentTask ≠ some f := by
    intro f
    rw [Function.update_self]
    simp
  simp only [step] at hs
  split at hs
  case isFalse => cases hs
  case isTrue =>
    split at hs
    case h_1 =>
      injection hs with hs
      rw [← hs] at hf
      exact absurd hf (hnone _)
    case h_2 =>
      injection hs with hs
      rw [← hs] at hf
      exact absurd hf (hnone _)
    case h_3 call hc =>
      injection hs with hs
      obtain ⟨v, hv⟩ := execRest_frames k call (k.tasks k.currentTask).result
      rw [hs, hf] at hv
      injection hv with hv
      injection hv with hcall hval
      subst hcall
      rw [← hs] at hf ⊢
      change (osMutexTryLockRest _ m k _).frames k.currentTask = _ at hf
      show osMutexTryLockRest _ m k _ = _
      rw [rest_eq] at hf ⊢
      rw [returns, setFrame, (undo_same k m _).current] at hf
      dsimp only at hf
      rw [Function.update_self] at hf
      injection hf with hf
      injection hf with _ hf
      injection hf with hf
      rw [hf, undo, if_pos ⟨hinh, rfl⟩]
      rfl
    case h_4 => cases hs

/-- What is left of the raise once the task has given up. -/
theorem gaveUp_loans {k₁ k₂ k₃ : ListKernel c} {m t₁ : Place c} {timeout : OsTick c} (hk : Rest k)
    (hinh : c.mutexInheritance = true) (ha : c.aging = false) (hexact : AllExact k)
    (h : GaveUp m t₁ timeout k k₁ k₂ k₃) : Rest k₃ ∧
      k₃.priority = Donation.lowered (lends k) (ownPriority k)
        (Donation.raised (lends k) k.priority t₁ (k.priority k.currentTask)) t₁ ∧
      ownPriority k₃ = ownPriority k ∧ lends k₃ = lends k := by
  obtain ⟨ho, hcall, hwait, hmean, hcur, hres, hfalse⟩ := h
  obtain ⟨s, owner, he, ho', hg, rfl⟩ := lock_step hk hinh (Or.inl rfl) hcall hwait
  obtain rfl : owner = t₁ := Option.some.inj (ho'.symm.trans ho)
  have hexact' : AllExact s := hexact.same he.loans fun t ht => by
    rwa [stateOf, he.tasks] at ht
  obtain ⟨hp, hown, hlends⟩ := lock_loans he.sound ha _ m owner timeout hg
    (hexact'.rising he.sound he.noDead owner)
  obtain ⟨-, -, howner⟩ := lock_frame hg
  have hloans := lock_switched he.sound hg
  obtain ⟨hr₂, hbut⟩ := meanwhile_loansBut ha hinh (hk.step hcall) hmean
  have hlends₂ : lends k₂ = lends k := by
    funext u
    by_cases hu : u = k.currentTask
    · subst hu
      rw [hk.sound.current_lends hk.running.kind, ← hcur]
      exact hr₂.sound.current_lends hr₂.running.kind
    · rw [hbut.lends u hu, hloans.lends, hlends, Function.update_of_ne (by rw [he.current]; exact hu), he.loans.lends]
  have hp₂ : k₂.priority = Donation.raised (lends k) k.priority owner (k.priority k.currentTask) := by
    rw [hbut.priority, hloans.priority, hp, he.loans.priority, he.loans.lends, he.current]
  have hown₂ : ownPriority k₂ = ownPriority k := by
    rw [hbut.own, hloans.own, hown, he.loans.own]
  have ho₂ : k₂.owner m = some owner := by
    rw [hbut.owner, dispatch_owner, howner, he.owner, ho]
  rw [← hcur] at hfalse
  refine ⟨hr₂.step hres, ?_⟩
  rw [gaveUp_step hinh hres hfalse]
  refine ⟨?_, ?_, ?_⟩
  · show (giveUp k₂ m).priority = _
    rw [giveUp_priorities hr₂.sound ho₂, hlends₂, hown₂, hp₂]
  · show ownPriority (giveUp k₂ m) = _
    rw [giveUp_own, hown₂]
  · show lends (giveUp k₂ m) = _
    rw [(giveUp_same k₂ m).lends, hlends₂]

theorem gaveUp_undone {k₁ k₂ k₃ : ListKernel c} {m t₁ : Place c} {timeout : OsTick c} (hk : Rest k)
    (hinh : c.mutexInheritance = true) (ha : c.aging = false) (hexact : AllExact k)
    (h : GaveUp m t₁ timeout k k₁ k₂ k₃) : Undone t₁ k k₃ ↔
      ∀ t₂, k.blockingOwner t₁ = some t₂ → k.priority k.currentTask ≤ k.priority t₂ := by
  obtain ⟨hr₃, hp, hown, hlends⟩ := gaveUp_loans hk hinh ha hexact h
  have ht₁ : k.stateOf t₁ ≠ OS_TASK_DEAD := hk.noDead hinh m t₁ h.owned
  unfold Undone
  rw [← lends_eq hinh]
  constructor
  · intro hu t₂ ht₂
    have hback : Donation.lowered (AvrOs.lends k) (ownPriority k)
        (Donation.raised (AvrOs.lends k) k.priority t₁ (k.priority k.currentTask)) t₁ t₂ =
        k.priority t₂ := by
      rw [← hp]
      exact (hu t₂ (.single ht₂)).2
    exact Donation.raised_of_lowered ht₂ hback
  · intro hle t ht
    have hsame : k₃.priority = k.priority := by
      rw [hp]
      exact Donation.lowered_raised (fun _ _ hl => hexact.lender hk.sound hk.noDead hl)
        (hexact t₁ ht₁) hle
    refine ⟨?_, congrFun hsame t⟩
    rw [hr₃.sound.exact_iff, inherits, hlends, hown, hsame]
    exact hexact t (reached_live hk.sound hk.noDead ht₁ ht)

theorem Sim.meanwhile {k : Kernel c Links} {l : ListKernel c} (h : Sim k l) {a : Action c}
    (hw : Meanwhile waiter k a) : Meanwhile waiter l a := by
  have hin : inMutexCall k = inMutexCall l := by
    rw [inMutexCall, inMutexCall, h.frames, h.current]
  unfold Meanwhile at hw ⊢
  rwa [h.waitsForMutex, h.tasks, h.timers.2, h.current, hin] at hw

theorem Sim.run {k k' : Kernel c Links} {l : ListKernel c} (h : Sim k l) (hl : Rest l)
    (hr : Reach step (Meanwhile waiter) k k') : ∃ l', Reach step (Meanwhile waiter) l l' ∧ Sim k' l' := by
  refine hr.simulate h fun s a s' t ht hst hw hs => ⟨hst.meanwhile hw, ?_⟩
  exact step_sim hst (ht.invariant hl fun _ _ _ _ hi _ hstep => hi.step hstep) a hs

theorem Sim.gaveUp {k k₁ k₂ k₃ : Kernel c Links} {l : ListKernel c} {m t₁ : Place c}
    {timeout : OsTick c} (hs : Sim k l) (hl : Rest l) (h : GaveUp m t₁ timeout k k₁ k₂ k₃) :
    ∃ l₁ l₂ l₃, GaveUp m t₁ timeout l l₁ l₂ l₃ ∧ Sim k₃ l₃ := by
  obtain ⟨ho, hcall, hwait, hmean, hcur, hres, hfalse⟩ := h
  obtain ⟨l₁, hcall', hs₁⟩ := step_sim hs hl _ hcall
  have hr₁ := hl.step hcall'
  obtain ⟨l₂, hmean', hs₂⟩ := hs₁.run hr₁ hmean
  have hr₂ : Rest l₂ := hmean'.invariant hr₁ fun _ _ _ _ hi _ hstep => hi.step hstep
  obtain ⟨l₃, hres', hs₃⟩ := step_sim hs₂ hr₂ _ hres
  refine ⟨l₁, l₂, l₃, ⟨?_, hcall', ?_, ?_, ?_, hres', ?_⟩, hs₃⟩
  · rw [← hs.owner, ho]
  · rw [← hs₁.frames, ← hs.current, hwait]
  · rw [← hs.current]
    exact hmean'
  · rw [← hs₂.current, ← hs.current, hcur]
  · rw [← hs₃.frames, ← hs.current, hfalse]

theorem Sim.exact {k : Kernel c Links} {l : ListKernel c} (h : Sim k l) (t : Place c) :
    Exact k t ↔ Exact l t := by
  rw [Exact, Exact, h.priority, h.inherited]

theorem Sim.allExact {k : Kernel c Links} {l : ListKernel c} (h : Sim k l) (hl : Sound l)
    (hk : ∀ t, k.stateOf t ≠ OS_TASK_DEAD → Exact k t) : AllExact l := by
  intro t ht
  rw [← hl.exact_iff, ← h.exact]
  exact hk t (by rwa [h.stateOf])

end

/-- Giving up a mutex undoes the raise of a chain if and only if the second owner of the chain did
not have to be raised. -/
theorem gaveUp_undone_iff {k k₁ k₂ k₃ : Kernel c Links} {m t₁ : Place c} {timeout : OsTick c}
    (hinh : c.mutexInheritance = true) (ha : c.aging = false) (hk : Reachable k)
    (hexact : ∀ t, k.stateOf t ≠ OS_TASK_DEAD → Exact k t) (h : GaveUp m t₁ timeout k k₁ k₂ k₃) :
    Undone t₁ k k₃ ↔
      ∀ t₂, k.blockingOwner t₁ = some t₂ → k.priority k.currentTask ≤ k.priority t₂ := by
  obtain ⟨l, hl, hs⟩ := reachable_lists hk
  have hr := rest_of_reachable hl
  obtain ⟨l₁, l₂, l₃, hgave, hs₃⟩ := hs.gaveUp hr h
  have hiff := gaveUp_undone hr hinh ha (hs.allExact hr.sound hexact) hgave
  unfold Undone at hiff ⊢
  rw [hs.blockingOwner, hs.current]
  simp only [hs₃.exact, hs₃.priority, hs.priority]
  exact hiff

/-- A task waits for the second owner of a chain, the first one has priority 3 and the second one
priority 5. Another task of the given priority is about to call `osMutexTryLock`. -/
def behindChain (priority : Byte) : List (Action (Config.ageless 3)) :=
  [.call (.osTaskCreate 2 5 false), .resume, .run, .call (.osMutexLock 1), .resume,
    .call (.osSemaphoreTake 0 (OS_WAIT_FOREVER _)), .resume, .call (.osTaskCreate 1 3 false),
    .call (.osMutexLock 0), .resume, .call (.osMutexLock 1), .resume,
    .call (.osTaskCreate 3 priority false)]

/-- The task calls, times out with the next tick and is back. -/
def timedOut (priority : Byte) (check : Kernel (Config.ageless 3) Links →
    Kernel (Config.ageless 3) Links → Bool) : Option Bool :=
  (steps step (osInit _ Links) (behindChain priority)).bind fun k =>
    (k.step (.call (.osMutexTryLock 0 1))).bind fun k₁ =>
      (steps (only step fun s a => decide (Meanwhile k.currentTask s a)) k₁
        [.resume, .tickEnter, .tickLeave]).bind fun k₂ =>
          (k₂.step .resume).map fun k₃ =>
            decide ((∀ t, k.stateOf t ≠ OS_TASK_DEAD → Exact k t) ∧ k.owner 0 = some 1 ∧
              k₁.frames k.currentTask = some (.blocked (.osMutexTryLock 0 1)) ∧
              k₂.currentTask = k.currentTask ∧
              k₃.frames k.currentTask = some (.returning (.osMutexTryLock 0 1) (.bool false)) ∧
              check k k₃ = true)

theorem timedOut_gaveUp (priority : Byte) (check : Kernel (Config.ageless 3) Links →
    Kernel (Config.ageless 3) Links → Bool) (h : timedOut priority check = some true) :
    ∃ k k₁ k₂ k₃ : Kernel (Config.ageless 3) Links, Reachable k ∧
      (∀ t, k.stateOf t ≠ OS_TASK_DEAD → Exact k t) ∧ GaveUp 0 1 1 k k₁ k₂ k₃ ∧ check k k₃ = true := by
  obtain ⟨k, hk, h⟩ := Option.bind_eq_some_iff.mp h
  obtain ⟨k₁, hk₁, h⟩ := Option.bind_eq_some_iff.mp h
  obtain ⟨k₂, hk₂, h⟩ := Option.bind_eq_some_iff.mp h
  obtain ⟨k₃, hk₃, h⟩ := Option.map_eq_some_iff.mp h
  obtain ⟨hexact, hown, hwait, hback, hfalse, hcheck⟩ := of_decide_eq_true h
  exact ⟨k, k₁, k₂, k₃, Reach.steps_reach _ (fun _ _ _ => trivial) .init hk, hexact,
    ⟨hown, hk₁, hwait, Reach.only_reach (fun _ _ => of_decide_eq_true) _ .init hk₂, hback, hk₃, hfalse⟩,
    hcheck⟩

/-- The second owner of the chain keeps the priority of the task which has given up. -/
theorem gaveUp_not_undone : ¬ ∀ (k k₁ k₂ k₃ : Kernel (Config.ageless 3) Links) (m t₁ : Place _)
    (timeout : OsTick _), Reachable k → (∀ t, k.stateOf t ≠ OS_TASK_DEAD → Exact k t) →
      GaveUp m t₁ timeout k k₁ k₂ k₃ → Undone t₁ k k₃ := by
  intro h
  obtain ⟨k, k₁, k₂, k₃, hk, hexact, hgave, hcheck⟩ := timedOut_gaveUp 9
    (fun k k₃ => decide (k.blockingOwner 1 = some 2 ∧ k.priority 2 = 5 ∧ k₃.priority 2 = 9))
    (by decide +kernel)
  obtain ⟨hnext, hbefore, hafter⟩ := of_decide_eq_true hcheck
  have hu := (h k k₁ k₂ k₃ 0 1 1 hk hexact hgave 2 (.single hnext)).2
  rw [hbefore, hafter] at hu
  exact absurd hu (by decide)

/-- A task which is less important than the second owner leaves nothing behind. -/
theorem gaveUp_undone_taken : ∃ k k₁ k₂ k₃ : Kernel (Config.ageless 3) Links,
    GaveUp 0 1 1 k k₁ k₂ k₃ ∧ Undone 1 k k₃ := by
  obtain ⟨k, k₁, k₂, k₃, hk, hexact, hgave, hcheck⟩ := timedOut_gaveUp 4
    (fun k _ => decide (∀ t, k.blockingOwner 1 = some t → k.priority k.currentTask ≤ k.priority t))
    (by decide +kernel)
  exact ⟨k, k₁, k₂, k₃, hgave,
    (gaveUp_undone_iff rfl rfl hk hexact hgave).mpr (of_decide_eq_true hcheck)⟩

end AvrOs
