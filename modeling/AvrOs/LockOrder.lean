import AvrOs.Bequest
import AvrOs.Locking

/-!
# Mutexes locked in order

Where every task locks mutexes in the same order, tasks never wait for each other in a circle: whoever waits for
a mutex is behind a task which waits for none.
-/

namespace AvrOs
open Intrusive Transition Kernel Relation

variable {c : Config} {k k' : ListKernel c} {rank : Place c → ℕ} {a : Action c}

section
variable {S : Type → Type → Type}

/-- A task which may have to wait for a mutex owns only those which come before it. -/
def Kernel.LocksInOrder (rank : Place c → ℕ) (k : Kernel c S) (a : Action c) : Prop :=
  ∀ m ∈ a.mayWaitFor, ∀ m', k.owner m' = some k.currentTask → rank m' < rank m

instance (rank : Place c → ℕ) (k : Kernel c S) : DecidablePred (k.LocksInOrder rank) :=
  fun _ => inferInstanceAs (Decidable (∀ _ ∈ _, ∀ _, _ → _))

/-- The task waits for a mutex of the other one. -/
def Kernel.WaitsBehind [LinkStore S] (k : Kernel c S) (t u : Place c) : Prop :=
  ∃ m, t ∈ k.waiters (.mutex m) ∧ k.owner m = some u

/-- Those who wait own only mutexes which come before the one they wait for. -/
def Kernel.Ranked [LinkStore S] (rank : Place c → ℕ) (k : Kernel c S) : Prop :=
  ∀ m t, t ∈ k.waiters (.mutex m) → ∀ m', k.owner m' = some t → rank m' < rank m

variable [LinkStore S]

/-- Along a chain of waiters the mutexes come later and later. -/
theorem Kernel.Ranked.later {k : Kernel c S} (h : k.Ranked rank) {t u : Place c} (hc : TransGen k.WaitsBehind t u) :
    ∃ m, t ∈ k.waiters (.mutex m) ∧ ∀ m', u ∈ k.waiters (.mutex m') → rank m < rank m' := by
  induction hc with
  | single hs =>
    obtain ⟨m, ht, ho⟩ := hs
    exact ⟨m, ht, fun m' hu => h m' _ hu m ho⟩
  | tail _ hs ih =>
    obtain ⟨m, ht, hlater⟩ := ih
    obtain ⟨m₁, hb, ho⟩ := hs
    exact ⟨m, ht, fun m' hu => (hlater m₁ hb).trans (h m' _ hu m₁ ho)⟩

theorem Kernel.Ranked.acyclic {k : Kernel c S} (h : k.Ranked rank) (t : Place c) : ¬ TransGen k.WaitsBehind t t := by
  intro hc
  obtain ⟨m, ht, hlater⟩ := h.later hc
  exact Nat.lt_irrefl _ (hlater m ht)

end

/-! ### Steps -/

theorem Kernel.Ranked.of (h : k.Ranked rank) (ho : k'.owner = k.owner)
    (hw : ∀ m t, t ∈ k'.links (.wait (.mutex m)) → t ∈ k.links (.wait (.mutex m))) : k'.Ranked rank := by
  intro m t ht m' hm
  rw [ho] at hm
  exact h m t (hw m t ht) m' hm

/-- Only a task which gets in line has to care. -/
theorem Atom.ranked (x : Atom c) (hs : Sound k) (hg : x.guard k)
    (hx : ∀ call m timeout, x = .sleep call (some (.mutex m)) timeout →
      ∀ m', k.owner m' = some k.currentTask → rank m' < rank m) (h : k.Ranked rank) : (x.apply k).Ranked rank := by
  by_cases hsleep : ∃ call m timeout, x = .sleep call (some (.mutex m)) timeout
  · obtain ⟨call, m, timeout, rfl⟩ := hsleep
    have hrank := hx call m timeout rfl
    have hlinks : ∀ m' t, t ∈ ((Atom.sleep call (some (.mutex m)) timeout).apply k).links (.wait (.mutex m')) →
        t ∈ k.links (.wait (.mutex m')) ∨ m' = m ∧ t = k.currentTask := fun m' t ht => by
      rw [apply, sleep_eq] at ht
      rcases (Lists.mem_insert ..).mp ht with ⟨he, hc⟩ | hold
      · injection he with he
        injection he with he
        exact .inr ⟨he, hc⟩
      · exact .inl hold
    have howner : ((Atom.sleep call (some (.mutex m)) timeout).apply k).owner = k.owner := by
      rw [apply, sleep_eq]
    intro m' t ht m₁ ho
    rw [howner] at ho
    rcases hlinks m' t ht with hold | ⟨rfl, rfl⟩
    · exact h m' t hold m₁ ho
    · exact hrank m₁ ho
  · have hstill : ∀ m t, t ∈ (x.apply k).links (.wait (.mutex m)) → t ∈ k.links (.wait (.mutex m)) := fun m t ht =>
      (x.still_waits hs hg (.mutex m) (fun call timeout he => hsleep ⟨call, m, timeout, he⟩) ht).1
    by_cases hown : ∃ m, x = .own m
    · obtain ⟨m, rfl⟩ := hown
      have howner : ((Atom.own m).apply k).owner = Function.update k.owner m (some k.currentTask) := by
        rw [apply, osMutexOwn_eq]
      intro m' t ht m₁ ho
      have hblocked := hs.waiter_blocked (hstill m' t ht)
      rw [howner] at ho
      by_cases hm : m₁ = m
      · rw [hm, Function.update_self] at ho
        injection ho with ho
        rw [← ho, hg.2.1] at hblocked
        simp at hblocked
      · rw [Function.update_of_ne hm] at ho
        exact h m' t (hstill m' t ht) m₁ ho
    · by_cases hrelease : ∃ t m, x = .release t m
      · obtain ⟨u, m, rfl⟩ := hrelease
        have hpassed := release_passed hs u m
        have hs' := (Atom.release u m).sound hs hg
        intro m' t ht m₁ ho
        have hblocked := hs'.waiter_blocked ht
        rw [hpassed.owner] at ho
        split at ho
        · -- whoever gets the mutex is not in line anymore
          rw [stateOf, hpassed.heir m₁ ‹_› t ho] at hblocked
          simp at hblocked
        · exact h m' t (hstill m' t ht) m₁ ho
      · exact h.of (x.owner hs hg (fun m he => hown ⟨m, he⟩) fun t m he => hrelease ⟨t, m, he⟩) hstill

/-- What the move consists of, as far as mutexes are concerned. -/
theorem Move.ranked (mv : Move c) (hs : Sound k) (hg : mv.guard k)
    (hsleep : ∀ call m timeout, mv.Uses (.sleep call (some (.mutex m)) timeout) →
      ∀ m', k.owner m' = some k.currentTask → rank m' < rank m)
    (hkeep : ∀ x, mv.Uses x → x = .settle ∨ x = .flag ∨ x = .unflag ∨ (∃ t p, x = .requeue t p) ∨
      ∃ call list timeout, x = .sleep call list timeout) (h : k.Ranked rank) : (mv.apply k).Ranked rank := by
  refine ((mv.run hs hg).keeps (I := fun s => s.owner = k.owner ∧ s.currentTask = k.currentTask ∧ s.Ranked rank) hs
    (fun s x hss hgx hu hi => ?_) ⟨rfl, rfl, h⟩).2.2
  obtain ⟨howner, hcurrent, hranked⟩ := hi
  have hkind := hkeep x hu
  refine ⟨?_, ?_, x.ranked hss hgx (fun call m timeout he m' ho => ?_) hranked⟩
  · rw [x.owner hss hgx (fun m he => by simp [he] at hkind) fun t m he => by simp [he] at hkind]
    exact howner
  · rcases hkind with rfl | rfl | rfl | ⟨t, p, rfl⟩ | ⟨call, list, timeout, rfl⟩
    · exact hcurrent
    · exact hcurrent
    · exact hcurrent
    · exact (requeue_same s t p).current.trans hcurrent
    · exact (sleep_current s call list timeout).trans hcurrent
  · subst he
    rw [howner, hcurrent] at ho
    exact hsleep call m timeout hu m' ho

/-- Steps which are part of no call to lock a mutex. -/
theorem Move.ranked_apart (mv : Move c) {b : ListKernel c} (hs : Sound k) (hg : mv.guard k) (hal : Allowed b a k mv)
    (ha : ∀ call m timeout, Locks call m timeout → a ≠ .call call) (h : k.Ranked rank) : (mv.apply k).Ranked rank := by
  refine (mv.run hs hg).keeps (I := Ranked rank) hs (fun s x hss hgx hu hi =>
    x.ranked hss hgx (fun call m timeout he => ?_) hi) h
  subst he
  cases mv with
  | one x =>
    obtain rfl : Atom.sleep call (some (.mutex m)) timeout = x := hu
    exact absurd hg.1 id
  | block call' list timeout' =>
    rcases hu with hu | hu
    · cases hu
    · injection hu with hc hl ht
      subst hc hl ht
      exact absurd hal.1 (ha call m timeout hg.2.2.2.2.2.2.2)
  | lock call' m' owner timeout' => exact absurd hal (ha call' m' timeout' hg.2.2.2.2.2.2.2)
  | giveUp | repriority | lockIdle | unlock | delete | setEvent | tick => simp [Uses] at hu

theorem Ranked.dispatch (hs : Sound k) (hk : k.stateOf k.currentTask ≠ OS_TASK_RUNNING) (h : k.Ranked rank) :
    k.osDispatch.Ranked rank := Atom.ranked .dispatch hs hk (by simp) h

section
variable {call : Call c} {m owner : Place c} {timeout : OsTick c}

/-- The current task gets in line, which it does for this mutex. -/
theorem sleeps_here {x : Atom c} {mv : Move c} (hu : mv.Uses x)
    (hmv : (∃ o, mv = .lock call m o timeout) ∨ mv = .block call (some (.mutex m)) timeout) {call' : Call c} {m' : Place c}
    {timeout' : OsTick c} (hx : x = .sleep call' (some (.mutex m')) timeout') : m' = m := by
  subst hx
  rcases hmv with ⟨o, rfl⟩ | rfl
  · rcases hu with ⟨u, q, hu⟩ | hu | hu | hu
    · cases hu
    · cases hu
    · cases hu
    · injection hu with _ hl
      injection hl with hl
      injection hl
  · rcases hu with hu | hu
    · cases hu
    · injection hu with _ hl
      injection hl with hl
      injection hl

/-- The task waits for a mutex whose owner inherits its priority. -/
theorem urged_ranked (hs : Sound k) (hr : Running k) (hf : Open k)
    (hm : k.owner m = some k.currentTask ↔ wasMine (k.history k.currentTask) = true) (hc : Locks call m timeout)
    (hinh : c.mutexInheritance = true) (howner : k.owner m = some owner) (ht : timeout ≠ 0)
    (ho : ∀ m', k.owner m' = some k.currentTask → rank m' < rank m) (h : k.Ranked rank) :
    ((urge k owner).blockThen call (some (.mutex m)) timeout (osMutexTryLockRest call m)).Ranked rank := by
  obtain ⟨hcur, -⟩ := urge_same k owner
  unfold blockThen osBlock
  by_cases hi : k.currentTask = osIdleTask
  · have hg : (Move.lockIdle m owner).guard k := ⟨hinh, hi, hr, howner⟩
    have hidle : ((Move.lockIdle m owner).apply k).Ranked rank := by
      refine Move.ranked _ hs hg (fun call m timeout hu => by simp [Move.Uses] at hu) (fun x hu => ?_) h
      rcases hu with ⟨u, q, rfl⟩ | rfl | rfl <;> simp
    rw [if_pos (hcur.trans hi)]
    dsimp only
    rw [rest_eq, undo, if_pos ⟨hinh, rfl⟩]
    exact hidle
  · have hg : (Move.lock call m owner timeout).guard k := ⟨hinh, hi, hr, ht, howner, hf, hm, hc⟩
    have hlock : ((Move.lock call m owner timeout).apply k).Ranked rank := by
      refine Move.ranked _ hs hg (fun call' m' timeout' hu => ?_) (fun x hu => ?_) h
      · rw [sleeps_here hu (.inl ⟨owner, rfl⟩) rfl]
        exact ho
      · rcases hu with ⟨u, q, rfl⟩ | rfl | rfl | rfl <;> simp
    obtain ⟨hcurrent, hblocked, -⟩ := lock_frame hg
    have hk : ((Move.lock call m owner timeout).apply k).stateOf
        ((Move.lock call m owner timeout).apply k).currentTask ≠ OS_TASK_RUNNING := by
      rw [hcurrent, hblocked]
      simp
    rw [if_neg (hcur ▸ hi)]
    exact Ranked.dispatch (Move.sound _ hs hg) hk hlock

theorem sleeping (hk : k.stateOf k.currentTask = OS_TASK_RUNNING) (call : Call c) (list : Option (WaitList c))
    (timeout : OsTick c) : (k.sleep call list timeout).stateOf (k.sleep call list timeout).currentTask ≠ OS_TASK_RUNNING := by
  rw [sleep_current, sleep_kind _ _ _ _ hk]
  simp

/-- The task waits for a mutex without inheritance. -/
theorem blocked_ranked (hs : Sound k) (hr : Running k) (hf : Open k)
    (hm : k.owner m = some k.currentTask ↔ wasMine (k.history k.currentTask) = true) (hc : Locks call m timeout)
    (hinh : c.mutexInheritance ≠ true) (howner : k.owner m = some owner) (ht : timeout ≠ 0)
    (ho : ∀ m', k.owner m' = some k.currentTask → rank m' < rank m) (h : k.Ranked rank) :
    (k.blockThen call (some (.mutex m)) timeout (osMutexTryLockRest call m)).Ranked rank := by
  unfold blockThen osBlock
  by_cases hi : k.currentTask = osIdleTask
  · rw [if_pos hi]
    dsimp only
    rw [rest_eq, undo, if_neg fun hx => hinh hx.1]
    exact h
  · have hg : (Move.block call (some (.mutex m)) timeout).guard k :=
      ⟨hi, hr, ht, hf, fun hx => absurd hx hinh, by rw [howner]; simp, hm, hc⟩
    have hblock : ((k.osSettle k.currentTask).sleep call (some (.mutex m)) timeout).Ranked rank := by
      refine Move.ranked _ hs hg (fun call' m' timeout' hu => ?_) (fun x hu => ?_) h
      · rw [sleeps_here hu (.inr rfl) rfl]
        exact ho
      · rcases hu with rfl | rfl <;> simp
    have hsound : Sound ((k.osSettle k.currentTask).sleep call (some (.mutex m)) timeout) := Move.sound _ hs hg
    have hsame := settle_same k k.currentTask
    have hkind : (k.osSettle k.currentTask).stateOf (k.osSettle k.currentTask).currentTask = OS_TASK_RUNNING := by
      rw [stateOf, hsame.current, hsame.state]
      exact hr.kind
    rw [if_neg hi]
    exact Ranked.dispatch hsound (sleeping hkind call _ timeout) hblock

/-- A call to lock a mutex. -/
theorem lock_ranked (hs : Sound k) (hr : Running k) (hf : Open k)
    (hm : k.owner m = some k.currentTask ↔ wasMine (k.history k.currentTask) = true) (hc : Locks call m timeout)
    (ho : timeout ≠ 0 → ∀ m', k.owner m' = some k.currentTask → rank m' < rank m) (h : k.Ranked rank) :
    (k.osMutexTryLock call m timeout).Ranked rank := by
  unfold osMutexTryLock
  dsimp only
  cases howner : k.owner m with
  | none => exact Atom.ranked (.own m) hs ⟨howner, hr.kind, hf⟩ (by simp) h
  | some owner =>
    dsimp only
    by_cases ht : timeout = OS_NO_WAIT c
    · rw [if_pos ht]
      exact h
    · rw [if_neg ht]
      by_cases hinh : c.mutexInheritance = true
      · rw [if_pos hinh]
        exact urged_ranked hs hr hf hm hc hinh howner ht (ho ht) h
      · rw [if_neg hinh]
        exact blocked_ranked hs hr hf hm hc hinh howner ht (ho ht) h

end

/-! ### Every run -/

theorem Ranked.step (hr : Rest k) (ha : k.LocksInOrder rank a) (hs : k.step a = some k') (h : k.Ranked rank) :
    k'.Ranked rank := by
  by_cases hlock : ∃ call m timeout, Locks call m timeout ∧ a = .call call
  · obtain ⟨call, m, timeout, hc, rfl⟩ := hlock
    obtain ⟨s, he, -, rfl⟩ := entered hr hs
    rw [hc.exec]
    refine lock_ranked he.sound he.running he.free (he.called.mine hc) hc (fun ht m' ho => ?_) fun m t ht m' ho => ?_
    · rw [he.owner, he.current] at ho
      exact ha m (hc.mayWaitFor ht) m' ho
    · rw [he.owner] at ho
      have hold : t ∈ s.links (.wait (.mutex m)) := ht
      rw [he.links] at hold
      exact h m t hold m' ho
  · have hm := (step_moves hr.sound hr.running hr.noDead hs).1
    exact (hm.invariant (I := fun s => Sound s ∧ s.Ranked rank) (fun s mv hg hi => ⟨mv.sound hi.1 hg.1,
      mv.ranked_apart hi.1 hg.1 hg.2 (fun call m timeout hc he => hlock ⟨call, m, timeout, hc, he⟩) hi.2⟩) ⟨hr.sound, h⟩).2

/-- Where tasks lock mutexes in order, they never wait in a circle: whoever waits is behind a task which waits for none. -/
theorem reachable_undeadlocked (rank : Place c → ℕ) (k : Kernel c Links) (h : ReachableBy (LocksInOrder rank) k) (t : Place c) :
    ¬ TransGen k.WaitsBehind t t ∧ ∃ u, ReflTransGen k.WaitsBehind t u ∧ ∀ m, u ∉ k.waiters (.mutex m) := by
  have hsim : ∃ l : ListKernel c, ReachableBy (LocksInOrder rank) l ∧ Sim k l := by
    refine reachable_sim (fun k l a hs hk => ?_) h
    unfold LocksInOrder at hk ⊢
    rw [← hs.owner, ← hs.current]
    exact hk
  obtain ⟨l, hr, hs⟩ := hsim
  have hl : Rest l ∧ l.Ranked rank := hr.invariant (I := fun l => Rest l ∧ l.Ranked rank)
    ⟨init_rest c, fun m t ht => absurd ht List.not_mem_nil⟩ fun _ _ _ _ hi ha hst =>
      ⟨hi.1.step hst, Ranked.step hi.1 ha hst hi.2⟩
  have hw : ∀ w, k.waiters w = l.links (.wait w) := fun w => hs.links_list _
  have hranked : k.Ranked rank := fun m u hu m' ho => by
    rw [hw] at hu
    rw [hs.owner] at ho
    exact hl.2 m u hu m' ho
  have hacyclic := fun u => hranked.acyclic u
  refine ⟨hacyclic t, ?_⟩
  obtain ⟨u, hu, hlast⟩ := Donation.exists_free hacyclic t
  refine ⟨u, hu, fun m hm => ?_⟩
  obtain ⟨v, hv⟩ := Option.ne_none_iff_exists'.mp (hl.1.sound.owned.waiter m u (hw _ ▸ hm))
  exact hlast v ⟨m, hm, by rw [hs.owner]; exact hv⟩

/-- A chain of tasks, the last one waits for a task which waits for another one. -/
def lockedInOrder : List (Action (Config.default 3)) :=
  [.call (.osTaskCreate 1 3 false), .resume, .run, .call (.osMutexLock 1), .resume,
    .call (.osTaskCreate 2 5 false), .call (.osMutexLock 0), .resume, .call (.osMutexLock 1),
    .resume, .call (.osTaskCreate 3 7 false), .call (.osMutexLock 0)]

theorem reachable_undeadlocked_taken : ∃ k, steps (only step fun k a => decide (LocksInOrder Fin.val k a))
      (osInit (Config.default 3) Links) lockedInOrder = some k ∧
    k.waiters (.mutex 0) = [3] ∧ k.waiters (.mutex 1) = [2] ∧
    ∃ u, ReflTransGen k.WaitsBehind 3 u ∧ ∀ m, u ∉ k.waiters (.mutex m) := by
  have hrun : (steps (only step fun k a => decide (LocksInOrder Fin.val k a)) (osInit (Config.default 3) Links)
      lockedInOrder).map (fun k => decide (k.waiters (.mutex 0) = [3] ∧ k.waiters (.mutex 1) = [2])) = some true := by
    decide +kernel
  obtain ⟨k, hk, hdec⟩ := Option.map_eq_some_iff.mp hrun
  obtain ⟨hzero, hone⟩ := of_decide_eq_true hdec
  exact ⟨k, hk, hzero, hone, (reachable_undeadlocked Fin.val k
    (Reach.only_reach (fun _ _ => of_decide_eq_true) _ .init hk) 3).2⟩

end AvrOs
