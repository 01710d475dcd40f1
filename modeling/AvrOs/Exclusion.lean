import AvrOs.Grants

/-!
# Mutual exclusion

Between a return of `osMutexLock` and the next `osMutexUnlock` of the task the mutex is
its own. A mutex has one owner, so nobody else is there.
-/

namespace AvrOs
open Intrusive Transition Kernel

variable {c : Config}

/-- The task is between a return of `osMutexLock` and its next `osMutexUnlock`. -/
def inside (m : Place c) : List (Event c) → Bool
  | [] => false
  | .returned _ (.osMutexLock m') _ :: past => m' = m || inside m past
  | .called _ (.osMutexUnlock m') _ :: past => m' ≠ m && inside m past
  | .created _ :: _ | .deleted _ :: _ => false
  | _ :: past => inside m past

/-- Whoever waits in `osMutexLock` stays there until the mutex is its own. -/
structure Locking (t : Place c) (l : Life c) : Prop extends Coherent l where
  forever : ∀ m, l.frame = some (.blocked (.osMutexLock m)) → l.timeout = none
  awake : ∀ m, l.frame = some (.blocked (.osMutexLock m)) → l.kind ≠ OS_TASK_BLOCKED →
    l.kind ≠ OS_TASK_SUSPENDED → l.owns m
  locked : ∀ m v, l.frame = some (.returning (.osMutexLock m) v) → t = osIdleTask ∨ l.owns m
  holds : ∀ m, inside m l.history = true → t = osIdleTask ∨ l.owns m
  gone : l.kind = OS_TASK_DEAD → ∀ m, inside m l.history = false

/-- A task which waits in `osMutexLock` for the mutex of somebody else is not resumed. -/
def Granted (l : Life c) : Prop := ∀ m, l.frame = some (.blocked (.osMutexLock m)) → l.owns m

section
variable {l l' : Life c} {t : Place c} {parks beats : Life c → Prop}

/-- Entries which do not let anybody in. -/
theorem inside_cons (m : Place c) (e : Event c) (past : List (Event c))
    (hr : ∀ u m' v, e ≠ .returned u (.osMutexLock m') v) (h : inside m (e :: past) = true) :
    inside m past = true := by
  cases e with
  | returned u call v =>
    cases call with
    | osMutexLock m' => exact absurd rfl (hr u m' v)
    | _ => exact h
  | called u call mine =>
    cases call with
    | osMutexUnlock m' =>
      simp only [inside, Bool.and_eq_true] at h
      exact h.2
    | _ => exact h
  | created u => cases h
  | deleted u => cases h
  | _ => exact h

/-- The task is alive and nobody takes a mutex away from it. -/
theorem Locking.goes (h : Locking t l) (hc : Coherent l') (hd : l'.kind ≠ OS_TASK_DEAD)
    (hf : ∀ m, l'.frame = some (.blocked (.osMutexLock m)) → l'.timeout = none ∧
      (l'.kind ≠ OS_TASK_BLOCKED → l'.kind ≠ OS_TASK_SUSPENDED → l'.owns m))
    (hv : ∀ m v, l'.frame = some (.returning (.osMutexLock m) v) → t = osIdleTask ∨ l'.owns m)
    (ho : ∀ m, l.owns m → l'.owns m) (hh : l'.history = l.history ∨
      ∃ e, l'.history = e :: l.history ∧ ∀ u m v, e ≠ .returned u (.osMutexLock m) v) :
    Locking t l' where
  toCoherent := hc
  forever m hm := (hf m hm).1
  awake m hm := (hf m hm).2
  locked := hv
  holds m hm := by
    refine (h.holds m ?_).imp_right (ho m)
    rcases hh with hh | ⟨e, hh, he⟩
    · rwa [hh] at hm
    · rw [hh] at hm
      exact inside_cons m e _ he hm
  gone hk := absurd hk hd

/-- Frame and mutexes of the task stay. -/
theorem Locking.stays (h : Locking t l) (hc : Coherent l') (hd : l'.kind ≠ OS_TASK_DEAD)
    (hf : l'.frame = l.frame) (ho : l'.owns = l.owns)
    (ht : l.timeout = none → l'.timeout = none)
    (hk : l'.kind ≠ OS_TASK_BLOCKED → l'.kind ≠ OS_TASK_SUSPENDED →
      l.kind ≠ OS_TASK_BLOCKED ∧ l.kind ≠ OS_TASK_SUSPENDED ∨ Granted l)
    (hh : l'.history = l.history ∨
      ∃ e, l'.history = e :: l.history ∧ ∀ u m v, e ≠ .returned u (.osMutexLock m) v) :
    Locking t l' := by
  refine h.goes hc hd (fun m hm => ?_) (fun m v hv => ?_) (fun m hm => ho ▸ hm) hh
  · rw [hf] at hm
    refine ⟨ht (h.forever m hm), fun hb hs => ?_⟩
    rw [ho]
    rcases hk hb hs with ⟨hb, hs⟩ | hg
    · exact h.awake m hm hb hs
    · exact hg m hm
  · rw [hf] at hv
    rw [ho]
    exact h.locked m v hv

/-- Whoever waits in `osMutexLock` is on the list of the mutex. -/
theorem Locking.waits (h : Locking t l) {m : Place c} (hk : l.kind = OS_TASK_BLOCKED)
    (hf : l.frame = some (.blocked (.osMutexLock m))) : l.waitList = some (.mutex m) :=
  ((h.pending _ hf).mutex m rfl).1 hk

/-- The call of a task which waits in `osMutexLock` has no timeout. -/
theorem Life.Suits.forever {m : Place c} {call : Call c} {timeout : OsTick c}
    {list : Option (WaitList c)} (h : l.Suits call timeout list) (hc : call = .osMutexLock m) :
    timeout = OS_WAIT_FOREVER c := by
  subst hc
  cases list with
  | none => rcases h with h | ⟨p, period, h⟩ <;> cases h
  | some w =>
    cases w with
    | mutex m' => exact (h.2.resolve_left (by simp)).2
    | semaphore s => cases h
    | queue q => obtain ⟨item, -, h | h⟩ := h <;> cases h
    | event e => obtain ⟨flags, options, -, h⟩ := h; cases h

/-- A mutex is given back by a task which is leaving it, or has left everything. -/
theorem Locking.released (h : Locking t l) {m : Place c}
    (hc : Coherent { l with owns := fun x => x ≠ m ∧ l.owns x })
    (hm : l.kind = OS_TASK_DEAD ∨ (∃ v, l.frame = some (.returning (.osMutexUnlock m) v)) ∧
      ∃ mine past, l.history = .called t (.osMutexUnlock m) mine :: past) :
    Locking t { l with owns := fun x => x ≠ m ∧ l.owns x } := by
  rcases hm with hd | ⟨⟨v, hf⟩, mine, past, hh⟩
  · have hf := h.dead hd
    refine ⟨hc, h.forever, fun m' hb => ?_, fun m' v hv => ?_, fun m' hi => ?_, h.gone⟩
    · rw [hf] at hb
      cases hb
    · rw [hf] at hv
      cases hv
    · rw [h.gone hd m'] at hi
      cases hi
  · refine ⟨hc, h.forever, fun m' hb => ?_, fun m' v hv => ?_, fun m' hi => ?_, h.gone⟩
    · rw [hf] at hb
      cases hb
    · rw [hf] at hv
      cases hv
    · have hne : m' ≠ m := by
        rintro rfl
        rw [hh] at hi
        simp [inside] at hi
      exact (h.holds m' hi).imp_right fun ho => ⟨hne, ho⟩

theorem Stage.locking (hst : Stage t parks Granted beats l l') (h : Locking t l) : Locking t l' := by
  have hc := hst.coherent h.toCoherent
  -- no call has been entered yet, or it has been left
  have hnb : l.frame = none → ∀ m, l.frame = some (.blocked (.osMutexLock m)) → l'.timeout = none ∧
      (l'.kind ≠ OS_TASK_BLOCKED → l'.kind ≠ OS_TASK_SUSPENDED → l'.owns m) :=
    fun hf m hm => by rw [hf] at hm; cases hm
  -- whoever is woken up is inside its call
  have hin : l.kind = OS_TASK_BLOCKED → ∀ m v, l.frame = some (.returning (.osMutexLock m) v) →
      t = osIdleTask ∨ l'.owns m := by
    intro hk m v hv
    obtain ⟨call, hb⟩ := h.blocked hk
    rw [hb] at hv
    cases hv
  cases hst with
  | rest => exact h
  | called x mine hk hf hm =>
    exact h.goes hc (by simp [hk]) (hnb hf) h.locked (fun _ => id) (Or.inr ⟨_, rfl, by simp⟩)
  | returns call v hk hf =>
    refine h.goes hc (by simp [hk]) (fun m hm => by simp at hm) (fun m v' hv => ?_) (fun _ => id)
      (Or.inl rfl)
    injection hv with hv
    injection hv with hv _
    subst hv
    rcases hf with ⟨-, hp⟩ | ⟨hf, -⟩
    · exact hp
    · exact Or.inr (h.awake m hf (by simp [hk]) (by simp [hk]))
  | pause hk hf =>
    exact h.goes hc (by simp [hk]) (fun m hm => by simp at hm) (fun m v hv => by simp at hv)
      (fun _ => id) (Or.inl rfl)
  | goesOn hk hf =>
    exact h.goes hc (by simp [hk]) (fun m hm => by simp at hm) (fun m v hv => by simp at hv)
      (fun _ => id) (Or.inl rfl)
  | returned call v hk hf =>
    refine ⟨hc, fun m hm => by simp at hm, fun m hm => by simp at hm, fun m v hv => by simp at hv,
      fun m hm => ?_, fun hd => absurd hd (by simp [hk])⟩
    by_cases hl : ∃ m', call = .osMutexLock m'
    · obtain ⟨m', rfl⟩ := hl
      simp only [inside, Bool.or_eq_true, decide_eq_true_eq] at hm
      rcases hm with rfl | hm
      · exact h.locked m' v hf
      · exact h.holds m hm
    · refine h.holds m (inside_cons m _ _ (fun u m' v' he => hl ⟨m', ?_⟩) hm)
      injection he
  | setWait w hk hf =>
    exact h.goes hc (by simp [hk]) (hnb hf) h.locked (fun _ => id) (Or.inl rfl)
  | preempt hk =>
    exact h.stays hc (by simp) rfl rfl id (fun _ _ => Or.inl (by simp [hk])) (Or.inl rfl)
  | dispatch hk =>
    exact h.stays hc (by simp) rfl rfl id (fun _ _ => Or.inl (by simp [hk])) (Or.inl rfl)
  | sleep call list timeout hk hf hi ht hs =>
    refine h.goes hc (by simp) (fun m hm => ⟨?_, fun hb => absurd rfl hb⟩)
      (fun m v hv => by simp at hv) (fun _ => id) (Or.inr ⟨_, rfl, by simp⟩)
    injection hm with hm
    injection hm with hm
    exact if_neg (not_not.mpr (hs.forever hm))
  | expired hk ht =>
    refine h.goes hc (by simp [Life.wakes]) (fun m hm => ?_) (hin hk) (fun _ => id)
      (Or.inr ⟨_, rfl, by simp⟩)
    rw [h.forever m hm] at ht
    cases ht
  | handed m hk hw =>
    refine h.goes hc (by simp [Life.wakes]) (fun m' hm => ⟨rfl, fun _ _ => Or.inl ?_⟩) (hin hk)
      (fun _ => Or.inr) (Or.inr ⟨_, rfl, by simp⟩)
    have hl := h.waits hk hm
    rw [hw] at hl
    injection hl with hl
    injection hl with hl
    exact hl.symm
  | given w hk hw hm he =>
    refine h.goes hc (by simp [Life.wakes]) (fun m hf => ?_) (hin hk) (fun _ => id)
      (Or.inr ⟨_, rfl, by simp⟩)
    have hl := h.waits hk hf
    rw [hw] at hl
    injection hl with hl
    exact absurd hl (hm m)
  | served e flags options hk hw hf =>
    refine ⟨hc, fun m hm => rfl, fun m hm => ?_, hin hk, h.holds, fun hd => by simp [Life.wakes] at hd⟩
    have hl := h.waits hk hm
    rw [hw] at hl
    cases hl
  | satisfied e flags options hk hf =>
    exact h.goes hc (by simp [hk]) (hnb hf) h.locked (fun _ => id) (Or.inr ⟨_, rfl, by simp⟩)
  | killed =>
    exact ⟨hc, fun m hm => by simp at hm, fun m hm => by simp at hm, fun m v hv => by simp at hv,
      fun m hm => (by cases hm), fun _ _ => rfl⟩
  | parked hk hp =>
    exact h.stays hc (by simp) rfl rfl (fun _ => rfl) (fun _ hs => absurd rfl hs)
      (Or.inr ⟨_, rfl, by simp⟩)
  | revived hk hr =>
    exact h.stays hc (by simp) rfl rfl id (fun _ _ => Or.inr hr) (Or.inr ⟨_, rfl, by simp⟩)
  | created hk =>
    exact h.goes hc (by simp) (fun m hm => by simp at hm) (fun m v hv => by simp at hv)
      (fun _ => id) (Or.inr ⟨_, rfl, by simp⟩)
  | owned m hk hf =>
    exact h.goes hc (by simp [hk]) (hnb hf) (fun m v hv => (h.locked m v hv).imp_right Or.inr)
      (fun _ => Or.inr) (Or.inl rfl)
  | released m hm => exact h.released hc hm
  | ticked hb =>
    refine ⟨hc, fun m hm => ?_, h.awake, h.locked, h.holds, h.gone⟩
    show Option.map _ l.timeout = none
    rw [h.forever m hm]
    rfl

end

/-! ### Locks in every run -/

namespace Kernel

variable {S : Type → Type → Type}

/-- The action resumes a task which is suspended in `osMutexLock` and does not own the mutex. -/
def resumesWaiter (k : Kernel c S) : Action c → Prop
  | .call (.osTaskResume t) | .isrCall (.osTaskResumeFromISR t) => k.stateOf t = OS_TASK_SUSPENDED ∧
      ∃ m, k.frames t = some (.blocked (.osMutexLock m)) ∧ k.owner m ≠ some t
  | _ => False

end Kernel

/-- Whoever is back from `osMutexLock` owns the mutex, nobody else does. -/
structure Exclusive {S : Type → Type → Type} (k : Kernel c S) : Prop where
  locked : ∀ t m v, t ≠ osIdleTask → k.frames t = some (.returning (.osMutexLock m) v) →
    wasMine (k.history t) = false → k.owner m = some t
  alone : ∀ t u m, t ≠ osIdleTask → u ≠ osIdleTask → inside m (k.history t) = true →
    inside m (k.history u) = true → t = u

section
variable {k k' : ListKernel c}

theorem step_locking {a : Action c} (h : Rest k) (ha : ¬ k.resumesWaiter a)
    (hl : ∀ t, Locking t (life k t)) (hs : k.step a = some k') (t : Place c) :
    Locking t (life k' t) := by
  have hlv : Lived t (fun _ => True) Granted (fun _ => True) (life k t) (life k' t) := by
    refine step_lived h hs t (fun _ _ _ => trivial) (fun s hg hsame m hm => ?_)
      fun _ _ => trivial
    obtain ⟨htk, hf, ho, he⟩ := hsame
    by_contra hn
    have hst : k.stateOf t = OS_TASK_SUSPENDED := by
      have hg' : (s.tasks t).state &&& OS_TASK_STATE = OS_TASK_SUSPENDED := hg
      rwa [htk] at hg'
    have hfr : k.frames t = some (.blocked (.osMutexLock m)) := hf ▸ hm
    have hown : k.owner m ≠ some t := fun hk => hn (show s.owner m = some t from ho ▸ hk)
    rcases he with rfl | rfl
    · exact ha ⟨hst, m, hfr, hown⟩
    · exact ha ⟨hst, m, hfr, hown⟩
  exact hlv.keeps (fun _ _ hst hi => hst.locking hi) (hl t)

theorem init_locking (t : Place c) : Locking t (life (osInit c Lists) t) := by
  have hf : (life (osInit c Lists) t).frame = none := rfl
  refine ⟨(init_reporting t).toCoherent, fun m hm => ?_, fun m hm => ?_, fun m v hv => ?_,
    fun m hm => ?_, fun _ _ => rfl⟩
  · rw [hf] at hm; cases hm
  · rw [hf] at hm; cases hm
  · rw [hf] at hv; cases hv
  · cases hm

end

/-- As long as nobody is resumed in the middle of `osMutexLock`, tasks exclude each other. -/
theorem locks_exclusive (k : Kernel c Links)
    (h : ReachableBy (fun k a => ¬ k.resumesWaiter a) k) : Exclusive k := by
  have hsim : ∃ l : ListKernel c, ReachableBy (fun l a => ¬ l.resumesWaiter a) l ∧ Sim k l := by
    refine reachable_sim (fun k l a hs hk hl => hk ?_) h
    unfold resumesWaiter at hl ⊢
    split at hl
    · rw [hs.stateOf, hs.frames, hs.owner]
      exact hl
    · rw [hs.stateOf, hs.frames, hs.owner]
      exact hl
    · exact hl
  obtain ⟨l, hl, hs⟩ := hsim
  have hlock : Rest l ∧ ∀ t, Locking t (life l t) :=
    hl.invariant (I := fun l => Rest l ∧ ∀ t, Locking t (life l t))
      ⟨init_rest c, init_locking⟩ fun _ _ _ _ hi ha hst =>
        ⟨hi.1.step hst, step_locking hi.1 ha hi.2 hst⟩
  refine ⟨fun t m v ht hf _ => ?_, fun t u m ht hu hmt hmu => ?_⟩
  · rw [hs.frames] at hf
    rw [hs.owner]
    exact ((hlock.2 t).locked m v hf).resolve_left ht
  · rw [hs.history] at hmt hmu
    have ho : l.owner m = some t := ((hlock.2 t).holds m hmt).resolve_left ht
    have ho' : l.owner m = some u := ((hlock.2 u).holds m hmu).resolve_left hu
    rw [ho] at ho'
    exact Option.some.inj ho'

/-- A task is suspended while it waits for the mutex of another one, and resumed. -/
def resumedWaiter : List (Action (Config.default 2)) :=
  [.call (.osTaskCreate 1 3 false), .resume, .run, .call (.osMutexLock 0), .resume,
    .call (.osTaskCreate 2 5 false), .call (.osMutexLock 0), .resume,
    .call (.osTaskSuspend (some 2)), .resume, .call (.osTaskResume 2), .resume,
    .call (.osDelay 1), .resume, .resume]

theorem resumedWaiter_inside : (steps step (osInit (Config.default 2) Links) resumedWaiter).map
    (fun k => (inside 0 (k.history 1), inside 0 (k.history 2))) = some (true, true) := by
  decide +kernel

/-- Two tasks are inside at once, the mutex is the one of the first. -/
theorem locks_not_exclusive :
    ¬ ∀ k : Kernel (Config.default 2) Links, Reachable k → Exclusive k := by
  intro h
  obtain ⟨k, hk, hi⟩ := Option.map_eq_some_iff.mp resumedWaiter_inside
  have he := h k (Reach.steps_reach _ (fun _ _ _ => trivial) .init hk)
  injection hi with h₁ h₂
  have ht := he.alone 1 2 0 (by decide) (by decide) h₁ h₂
  revert ht
  decide

/-- A task waits for a mutex until its owner unlocks it. -/
def lockedInTurn : List (Action (Config.default 2)) :=
  [.call (.osTaskCreate 1 3 false), .resume, .run, .call (.osMutexLock 0), .resume,
    .call (.osTaskCreate 2 5 false), .call (.osMutexLock 0), .resume,
    .call (.osMutexUnlock 0), .resume, .resume]

theorem locks_exclusive_taken : ∃ k, steps step (osInit (Config.default 2) Links) lockedInTurn =
    some k ∧ Exclusive k := by
  obtain ⟨k, hk⟩ := Option.isSome_iff_exists.mp (show (steps step (osInit (Config.default 2) Links)
    lockedInTurn).isSome = true by decide +kernel)
  refine ⟨k, hk, locks_exclusive k (Reach.steps_reach _ (fun a ha s => ?_) .init hk)⟩
  simp only [lockedInTurn, List.mem_cons, List.not_mem_nil, or_false] at ha
  rcases ha with rfl | rfl | rfl | rfl | rfl | rfl | rfl | rfl | rfl | rfl | rfl <;> exact id

end AvrOs
