import AvrOs.Circular.Rounds
import AvrOs.Rotation
import AvrOs.Undisturbed

/-!
# A starving task gets its share

Two tasks never give the processor away. The one which is less important ages until it gets to run
for one tick, and it takes the same time over and over again.
-/

namespace AvrOs
open Intrusive Transition Kernel Circular

variable {c : Config}

/-- No task comes or goes or gets another priority. -/
def Action.spares : Action c → Bool
  | .call x => x.spares
  | _ => true

/-- Nobody gives the processor away, ticks apart. -/
def Busy {S : Type → Type → Type} [LinkStore S] (k : Kernel c S) (a : Action c) : Prop :=
  a.spares = true ∧ (a.endsTick = true ∨ ∀ s ∈ k.step a, s.currentTask = k.currentTask)

instance {S : Type → Type → Type} [LinkStore S] (k : Kernel c S) : DecidablePred (Busy k) := fun _ =>
  inferInstanceAs (Decidable (_ ∧ (_ ∨ _)))

/-- Everybody else is dead but for the idle task. `H` has priority `p`, `L` has `q`, and as long as `H`
runs `L` has got up to `x`. -/
structure Duo (H L : Place c) (p q x : ℕ) (k : ListKernel c) : Prop where
  dead : ∀ t, t ≠ H → t ≠ L → t ≠ osIdleTask → k.stateOf t = OS_TASK_DEAD
  high : k.priority H = p ∧ (k.tasks H).basePriority = p
  low : (k.tasks L).basePriority = q
  idle : k.priority osIdleTask = 0
  turn : (k.currentTask = H ∧ k.links .ready = [L, osIdleTask] ∧ k.priority L = x ∧ q ≤ x ∧ x < p ∧
      ∀ call, k.frames H = some (.blocked call) → x = q ∧ k.mode = .thread) ∨
    (k.currentTask = L ∧ k.links .ready = [H, osIdleTask] ∧ q ≤ k.priority L ∧ k.priority L ≤ p ∧ x = p)

section
variable {k k' : ListKernel c} {H L : Place c} {p q x : ℕ}

theorem Duo.congr (h : Duo H L p q x k) (hl : k'.links .ready = k.links .ready)
    (hk : k'.stateOf = k.stateOf) (hr : SameRank k k') (hc : k'.currentTask = k.currentTask)
    (hf : ∀ call, k'.frames k.currentTask = some (.blocked call) →
      k.frames k.currentTask = some (.blocked call) ∧ (k.mode = .thread → k'.mode = .thread)) :
    Duo H L p q x k' := by
  refine ⟨fun t h₁ h₂ h₃ => ?_, ?_, ?_, ?_, ?_⟩
  · rw [hk]
    exact h.dead t h₁ h₂ h₃
  · rw [hr.priority, (hr H).2]
    exact h.high
  · rw [(hr L).2]
    exact h.low
  · rw [hr.priority]
    exact h.idle
  · rw [hl, hc, hr.priority]
    rcases h.turn with ⟨hcur, hready, hx, hq, hp, hframe⟩ | hturn
    · refine Or.inl ⟨hcur, hready, hx, hq, hp, fun call hfr => ?_⟩
      rw [hcur] at hf
      obtain ⟨hfr', hmode⟩ := hf call hfr
      exact ⟨(hframe call hfr').1, hmode (hframe call hfr').2⟩
    · exact Or.inr hturn

theorem Duo.quiet (h : Duo H L p q x k) (hq : Quiet k k') : Duo H L p q x k' :=
  h.congr (hq.lists _ (by simp)) hq.kind hq.rank hq.current fun call hf => ⟨hq.frame call hf, fun hm => hq.mode.trans hm⟩

/-- The one who runs, and the two who are ready. -/
theorem Duo.kinds (h : Duo H L p q x k) (hs : Sound k) (hr : Running k) (t : Place c) :
    k.stateOf t = OS_TASK_RUNNING ∨ k.stateOf t = OS_TASK_READY ∨ k.stateOf t = OS_TASK_DEAD := by
  by_cases ht : t = k.currentTask
  · subst ht
    exact Or.inl hr.kind
  · by_cases hm : t ∈ k.links .ready
    · exact Or.inr (Or.inl (hs.ready_kind hm))
    · refine Or.inr (Or.inr ?_)
      rcases h.turn with ⟨hcur, hready, -⟩ | ⟨hcur, hready, -⟩
      · rw [hready] at hm
        rw [hcur] at ht
        simp only [List.mem_cons, List.not_mem_nil, or_false, not_or] at hm
        exact h.dead t ht hm.1 hm.2
      · rw [hready] at hm
        rw [hcur] at ht
        simp only [List.mem_cons, List.not_mem_nil, or_false, not_or] at hm
        exact h.dead t hm.1 ht hm.2

theorem Duo.unblocked (h : Duo H L p q x k) (hs : Sound k) (hr : Running k) (t : Place c) :
    k.stateOf t ≠ OS_TASK_BLOCKED ∧ k.stateOf t ≠ OS_TASK_SUSPENDED := by
  rcases h.kinds hs hr t with hk | hk | hk
  · rw [hk]
    simp
  · rw [hk]
    simp
  · rw [hk]
    simp

theorem Duo.awake (h : Duo H L p q x k) (hs : Sound k) (hr : Running k) : Awake k where
  waiters _ := List.eq_nil_iff_forall_not_mem.mpr fun t ht => (h.unblocked hs hr t).1 (hs.waiter_blocked ht)
  suspended t := (h.unblocked hs hr t).2

theorem Duo.apart (h : Duo H L p q x k) (hs : Sound k) (hr : Running k) :
    H ≠ L ∧ H ≠ osIdleTask ∧ L ≠ osIdleTask := by
  have hnodup := hs.linked.1.separate.nodup .ready
  have hcur := hs.current_unready hr
  rcases h.turn with ⟨he, hready, -⟩ | ⟨he, hready, -⟩
  · rw [hready] at hnodup hcur
    rw [he] at hcur
    simp at hnodup hcur
    exact ⟨hcur.1, hcur.2, hnodup⟩
  · rw [hready] at hnodup hcur
    rw [he] at hcur
    simp at hnodup hcur
    exact ⟨Ne.symm hcur.1, hnodup, hcur.2⟩

theorem Duo.current (h : Duo H L p q x k) (hs : Sound k) (hr : Running k) :
    k.currentTask ≠ osIdleTask ∧ k.links .ready ≠ [] ∧
      (k.tasks k.currentTask).basePriority ≤ k.priority k.currentTask := by
  obtain ⟨-, hH, hL⟩ := h.apart hs hr
  rcases h.turn with ⟨he, hready, -⟩ | ⟨he, hready, hq, -⟩
  · rw [he, hready, h.high.1, h.high.2]
    exact ⟨hH, by simp, le_rfl⟩
  · rw [he, hready, h.low]
    exact ⟨hL, by simp, hq⟩

/-- Whatever `L` has gained may be lost while it runs. -/
theorem Duo.lowered (h : Duo H L p q x k) (hs : Sound k) (hr : Running k) (hcur : k.currentTask = L)
    (hl : k'.links .ready = k.links .ready) (hsame : SameTasks k k')
    (hb : ∀ t, (k'.tasks t).basePriority = (k.tasks t).basePriority)
    (hp : ∀ t, t ≠ L → k'.priority t = k.priority t) (hlo : q ≤ k'.priority L)
    (hhi : k'.priority L ≤ k.priority L) : Duo H L p q x k' := by
  obtain ⟨hne, hH, hL⟩ := h.apart hs hr
  refine ⟨fun t h₁ h₂ h₃ => ?_, ?_, ?_, ?_, Or.inr ?_⟩
  · rw [stateOf, hsame.state]
    exact h.dead t h₁ h₂ h₃
  · rw [hp H hne, hb]
    exact h.high
  · rw [hb]
    exact h.low
  · rw [hp osIdleTask (Ne.symm hL)]
    exact h.idle
  · rw [hsame.current, hl]
    rcases h.turn with ⟨he, -⟩ | ⟨-, hready, -, hle, hx⟩
    · exact absurd (he.symm.trans hcur) hne
    · exact ⟨hcur, hready, hlo, hhi.trans hle, hx⟩

/-- Who runs may settle for its own priority. -/
theorem Duo.settle (h : Duo H L p q x k) (hs : Sound k) (hr : Running k) :
    Duo H L p q x (k.setPriority k.currentTask (k.tasks k.currentTask).basePriority) := by
  rcases h.turn with ⟨hcur, -⟩ | ⟨hcur, -, hq, -⟩
  · have he : (k.tasks k.currentTask).basePriority = (k.tasks k.currentTask).priority := by
      rw [hcur, h.high.2]
      exact h.high.1.symm
    rw [he]
    simpa [setPriority, setTask] using h
  · rw [hcur, h.low]
    refine h.lowered hs hr hcur rfl (setPriority_same k L q) (fun t => setPriority_base k L t q) (fun t ht => ?_) ?_ ?_
    · rw [setPriority_priority, if_neg ht]
    · rw [setPriority_priority, if_pos rfl]
    · rw [setPriority_priority, if_pos rfl]
      exact hq

/-! ### Calls -/

/-- A mutex nobody waits for becomes free, and who has owned it settles. -/
theorem unlock_duo (h : Duo H L p q x k) (hs : Sound k) (hr : Running k) {m : Place c}
    (hg : (Atom.release k.currentTask m).guard k) :
    Duo H L p q x (unlock k m) ∧ (unlock k m).currentTask = k.currentTask := by
  have hq : Quiet k ((Atom.release k.currentTask m).apply k) := by
    rw [Atom.apply, release_eq]
    rcases pass_cases { k with ownedLinks := offOwned k k.currentTask m } m with ⟨w, rest, hl, -⟩ | ⟨-, he⟩
    · have hnil := (h.awake hs hr).waiters (.mutex m)
      rw [show k.links (.wait (.mutex m)) = w :: rest from hl] at hnil
      cases hnil
    · rw [he]
      exact .same rfl rfl rfl rfl rfl
  have hsr : Sound ((Atom.release k.currentTask m).apply k) := (Atom.release k.currentTask m).sound hs hg
  have hrr : Running ((Atom.release k.currentTask m).apply k) := by
    obtain ⟨hcur, hst⟩ := release_frame hs k.currentTask m k.currentTask (by rw [hr.kind]; simp)
    rw [Running, hcur]
    exact (congrArg OsTask.state hst).trans hr
  have hd := h.quiet hq
  have hsettle := hd.settle hsr hrr
  unfold unlock
  dsimp only
  rw [hq.current] at hsettle
  split
  · rw [(hd.awake hsr hrr).inherited]
    exact ⟨hsettle, hq.current⟩
  · exact ⟨hd, hq.current⟩

/-- A mutex nobody waits for is unlocked. -/
theorem osMutexUnlock_duo (h : Duo H L p q x k) (hs : Sound k) (hr : Running k) (m : Place c)
    (he : Called k (.osMutexUnlock m)) (hc : (k.osMutexUnlock m).currentTask = k.currentTask) :
    Duo H L p q x (k.osMutexUnlock m) := by
  have hk := returned_sound hs (.osMutexUnlock m) .void
  have hd : Duo H L p q x (k.returns (.osMutexUnlock m) .void) := h.quiet (returns_quiet k _ _)
  unfold osMutexUnlock at hc ⊢
  dsimp only at hc ⊢
  split
  case isTrue ho =>
    rw [if_pos ho] at hc
    have hg : (Move.unlock m).guard (k.returns (.osMutexUnlock m) .void) :=
      ⟨hr.kind, ho, Or.inr ⟨hr.kind, ⟨.void, Function.update_self ..⟩, k.mine (.osMutexUnlock m), he⟩⟩
    have hsu : Sound (unlock (k.returns (.osMutexUnlock m) .void) m) := (Move.unlock m).sound hk hg
    have hru : Running (unlock (k.returns (.osMutexUnlock m) .void) m) := unlock_running hk hr m
    obtain ⟨hdu, hcu⟩ := unlock_duo hd hk hr hg.2
    have hinh := (hdu.current hsu hru).2.2
    rw [← (hdu.awake hsu hru).inherited] at hinh
    have hstill := schedule_still hsu hru hinh (Nat.zero_le 1) (hc.trans hcu.symm)
    exact hstill.symm ▸ hdu
  case isFalse => exact hd

/-- Nobody waits behind the task which gives up, so what the owner has gained is gone. -/
theorem giveUp_duo (h : Duo H L p q x k) (hr : Rest k) (hinh : c.mutexInheritance = true) (m : Place c)
    {call : Call c} (hf : k.frames k.currentTask = some (.blocked call)) : Duo H L p q x (giveUp k m) := by
  obtain ⟨hne, hH, hL⟩ := h.apart hr.sound hr.running
  unfold giveUp
  split
  case h_1 owner ho =>
    split
    case isTrue hlt =>
      rw [(h.awake hr.sound hr.running).inherited] at hlt ⊢
      have howner : owner = L := by
        by_contra hn
        by_cases hoH : owner = H
        · rw [hoH, h.high.1, h.high.2] at hlt
          omega
        · by_cases hoI : owner = osIdleTask
          · rw [hoI, h.idle] at hlt
            omega
          · exact hr.noDead hinh m owner ho (h.dead owner hoH hn hoI)
      subst howner
      rcases h.turn with ⟨hcur, -, hx, -, -, hframe⟩ | ⟨hcur, hready, hq, -⟩
      · rw [hcur] at hf
        have hxq := (hframe call hf).1
        rw [h.low] at hlt
        omega
      · -- it runs, so it is on no list
        have hoff : k.priorityList owner = none := by
          have hkind := hr.running.kind
          rw [hcur] at hkind
          have hnone : (k.tasks owner).waitList = none := by
            cases hw : (k.tasks owner).waitList with
            | none => rfl
            | some w =>
              have hb := (hr.sound.linked.2 owner).blocked w hw
              rw [show (k.tasks owner).state &&& OS_TASK_STATE = _ from hkind] at hb
              simp at hb
          rw [priorityList, hkind, if_neg (by simp), hnone]
          rfl
        rw [requeue_off k owner _ hoff, h.low]
        refine h.lowered hr.sound hr.running hcur rfl (setPriority_same k owner q)
          (fun t => setPriority_base k owner t q) (fun t ht => ?_) ?_ ?_
        · rw [setPriority_priority, if_neg ht]
        · rw [setPriority_priority, if_pos rfl]
        · rw [setPriority_priority, if_pos rfl]
          exact hq
    case isFalse => exact h
  case h_2 => exact h

/-- The rest of a call, which may make the task lose what it has gained. -/
theorem execRest_duo (h : Duo H L p q x k) (hr : Rest k) (call : Call c)
    (hf : k.frames k.currentTask = some (.blocked call)) (r : Bool)
    (hc : (k.execRest call r).currentTask = k.currentTask) : Duo H L p q x (k.execRest call r) := by
  have hreturns : ∀ v : Value c, Duo H L p q x (k.returns call v) := fun v => h.quiet (returns_quiet k call v)
  have hrest : ∀ m, Duo H L p q x (osMutexTryLockRest call m k r) := fun m => by
    rw [rest_eq]
    refine Duo.quiet ?_ (returns_quiet _ call _)
    unfold undo
    split
    case isTrue hlost => exact giveUp_duo h hr hlost.1 m hf
    case isFalse => exact h
  obtain ⟨-, -, hb⟩ := h.current hr.sound hr.running
  have hqueue : (osQueueRest call k r).currentTask = k.currentTask → Duo H L p q x (osQueueRest call k r) :=
    fun hcq => h.quiet (ended_still (h.awake hr.sound hr.running) hb (quiet_refl k) hr.sound hr.running
      call _ (Nat.zero_le 1) hcq)
  cases call with
  | osMutexTryLock m timeout => exact hrest m
  | osMutexLock m => exact hrest m
  | osQueueSend | osQueueReceive => exact hqueue hc
  | _ => exact hreturns _

/-! ### Ticks -/

/-- What a tick makes of what `L` has gained while the aging counter is at `a`. -/
def gain (c : Config) (p q a x : ℕ) : ℕ :=
  if x = p then q else if a = 1 ∧ x < c.agingLimit then x + 1 else x

/-- What a tick makes of the aging counter. -/
def countdown (c : Config) (a : ℕ) : ℕ := if a = 1 then c.agingTicks else a - 1

/-- Nothing times out while nobody is blocked. -/
theorem osTickEnter_eq (h : Duo H L p q x k) (hs : Sound k) (hr : Running k) :
    k.osTickEnter = ({ k with ticks := k.ticks + 1 }).emit .ticked := by
  have hnil : k.timerLinks () = [] := List.eq_nil_iff_forall_not_mem.mpr fun t ht =>
    (h.unblocked hs hr t).1 ((hs.linked.2 t).timed ((hs.linked.2 t).timer.mp ht))
  unfold osTickEnter osTickExpire
  simp only [head_lists, Kernel.emit, hnil, List.head?_nil]

theorem osSettle_settled {t : Place c} (ht : (k.tasks t).priority = (k.tasks t).basePriority) : k.osSettle t = k := by
  unfold osSettle
  split
  · rw [if_neg (not_not.mpr ht)]
  · rfl

/-- With nothing to inherit a task settles for its own priority. -/
theorem Awake.settle (h : Awake k) (ha : c.aging = true) (t : Place c) :
    k.osSettle t = k.setPriority t (k.tasks t).basePriority := by
  unfold osSettle
  rw [if_pos ha, h.inherited]
  split
  · rfl
  case isFalse he =>
    rw [← not_not.mp he]
    simp [setPriority, setTask]

theorem agedTasks_priority (k : ListKernel c) (t : Place c) : (agedTasks k t).priority =
    if t ∈ k.links .ready then aged c (k.priority k.currentTask) (k.priority t) else k.priority t := by
  unfold agedTasks
  split <;> rfl

/-- The current task has settled, those who are ready have aged if the time has come. -/
theorem osAge_priority (h : Awake k) (hs : Sound k) (hr : Running k) (ha : c.aging = true) (t : Place c) :
    k.osAge.priority t =
      if t = k.currentTask then (k.tasks k.currentTask).basePriority
      else if (k.aging + 255) % 256 = 0 ∧ t ∈ k.links .ready then
        aged c (k.tasks k.currentTask).basePriority (k.priority t)
      else k.priority t := by
  have hout := hs.current_unready hr
  have hset : ∀ u, (k.setPriority k.currentTask (k.tasks k.currentTask).basePriority).priority u =
      if u = k.currentTask then (k.tasks k.currentTask).basePriority else k.priority u :=
    fun u => setPriority_priority k k.currentTask u _
  rw [osAge_eq hs ha, h.settle ha]
  split
  case isTrue hz =>
    have haged : (agedTasks (k.setPriority k.currentTask (k.tasks k.currentTask).basePriority) t).priority =
        if t ∈ k.links .ready then
          aged c ((k.setPriority k.currentTask (k.tasks k.currentTask).basePriority).priority k.currentTask)
            ((k.setPriority k.currentTask (k.tasks k.currentTask).basePriority).priority t)
        else (k.setPriority k.currentTask (k.tasks k.currentTask).basePriority).priority t :=
      agedTasks_priority ..
    rw [hset, hset, if_pos rfl] at haged
    refine haged.trans ?_
    by_cases hcur : t = k.currentTask
    · have hnot : t ∉ k.links .ready := hcur ▸ hout
      rw [if_pos hcur, if_neg hnot, if_pos hcur]
    · rw [if_neg hcur, if_neg hcur]
      exact if_congr ⟨fun hm => ⟨hz, hm⟩, fun hm => hm.2⟩ rfl rfl
  case isFalse hz =>
    refine (hset t).trans (if_congr Iff.rfl rfl ?_)
    rw [if_neg fun he => hz he.1]

theorem osAge_same (hs : Sound k) : SameTasks k k.osAge ∧
    ∀ t, (k.osAge.tasks t).basePriority = (k.tasks t).basePriority := by
  cases ha : c.aging with
  | false =>
    rw [osAge_off ha]
    exact ⟨.refl k, fun _ => rfl⟩
  | true =>
    obtain ⟨p, hp⟩ := settle_eq k k.currentTask
    have hsame := setPriority_same k k.currentTask p
    have hbase := fun t => setPriority_base k k.currentTask t p
    rw [osAge_eq hs ha, hp]
    split
    · have hone : ∀ t, ∃ q, agedTasks (k.setPriority k.currentTask p) t =
          { (k.setPriority k.currentTask p).tasks t with priority := q } := fun t => by
        unfold agedTasks
        split <;> exact ⟨_, rfl⟩
      refine ⟨hsame.trans ⟨rfl, rfl, rfl, rfl, rfl, fun t => ?_⟩, fun t => ?_⟩
      · obtain ⟨q, hq⟩ := hone t
        exact ⟨q, _, hq⟩
      · obtain ⟨q, hq⟩ := hone t
        exact (congrArg OsTask.basePriority hq).trans (hbase t)
    · exact ⟨hsame.trans ⟨rfl, rfl, rfl, rfl, rfl, fun _ => ⟨_, _, rfl⟩⟩, hbase⟩

theorem osAge_aging (hs : Sound k) (ha : c.aging = true) (hlo : 1 ≤ k.aging) (hhi : k.aging ≤ 255) :
    k.osAge.aging = countdown c k.aging := by
  obtain ⟨p, hp⟩ := settle_eq k k.currentTask
  rw [osAge_eq hs ha, hp]
  unfold countdown
  by_cases h1 : k.aging = 1
  · rw [if_pos (by omega), if_pos h1]
  · rw [if_neg (by omega), if_neg h1]
    show (k.aging + 255) % 256 = _
    omega

theorem schedule_aging (k : ListKernel c) (yield : ℕ) : (k.osSchedule yield).aging = k.aging := by
  unfold osSchedule osDispatch
  split
  · obtain ⟨p, hp⟩ := settle_eq k k.currentTask
    dsimp only
    rw [hp]
    split <;> rfl
  · rfl

/-- A task which has settled swaps places with the first one, who is as important. -/
theorem schedule_swap (hs : Sound k) (hr : Running k) {B : Place c} (hl : k.links .ready = [B, osIdleTask])
    (hset : (k.tasks k.currentTask).priority = (k.tasks k.currentTask).basePriority) (hpos : 1 ≤ k.priority k.currentTask)
    (hB : k.priority k.currentTask ≤ k.priority B) (hidle : k.priority osIdleTask = 0) :
    (k.osSchedule 1).currentTask = B ∧ (k.osSchedule 1).links .ready = [k.currentTask, osIdleTask] ∧
      SameRank k (k.osSchedule 1) ∧ (∀ t, t ≠ k.currentTask → t ≠ B → (k.osSchedule 1).stateOf t = k.stateOf t) := by
  have hneeded : k.osScheduleNeeded 1 = true := (hs.needed_iff le_rfl).mpr ⟨B, by rw [hl]; rfl, by omega⟩
  have hsettle := osSettle_settled hset
  rcases schedule_cases hs hr 1 le_rfl with ⟨hn, -⟩ | ⟨-, s, rfl, -, -, -, hg, he⟩
  · rw [hneeded] at hn
    cases hn
  · rw [hsettle] at hg he
    have hready : ((Atom.preempt (k.priority k.currentTask + 1 - 1)).apply k).links .ready =
        [B, k.currentTask, osIdleTask] := by
      show Lists.insert k.links .ready k.currentTask _ .ready = _
      rw [Lists.insert_self, hl]
      have hpos' : ¬ k.priority k.currentTask ≤ k.priority osIdleTask := by omega
      simp [setState_priority, hB, hpos']
    have hhead : (((Atom.preempt (k.priority k.currentTask + 1 - 1)).apply k).links .ready).head? = some B := by
      rw [hready]
      rfl
    have hrank := (Atom.preempt (k.priority k.currentTask + 1 - 1)).same_rank hs hg id
    have hwait := preempt_waits k (k.priority k.currentTask + 1 - 1)
    have hsp := (Atom.preempt (k.priority k.currentTask + 1 - 1)).sound hs hg
    have hrank' := (Atom.dispatch).same_rank hsp hwait id
    obtain ⟨hlinks, -, hcur⟩ := dispatch_frame hhead
    rw [he]
    refine ⟨hcur, ?_, hrank.trans hrank', fun t h₁ h₂ => ?_⟩
    · rw [hlinks, hready]
      rfl
    · rw [osDispatch_eq _ B hhead, stateOf]
      dsimp only
      rw [Function.update_of_ne h₂]
      simp [Atom.apply, osListInsert, setState, setTask, h₁, stateOf]

/-- A tick makes `L` gain something, or it makes the two of them swap places. -/
theorem osTickLeave_duo (ha : c.aging = true) (hrr : c.roundRobin = true) (hq : 1 ≤ q) (hpq : q < p)
    (h : Duo H L p q x k) (hs : Sound k) (hr : Running k) (hm : k.mode = .thread)
    (hf : k.currentTask = H → ∀ call, k.frames H ≠ some (.blocked call)) (hlo : 1 ≤ k.aging) (hhi : k.aging ≤ 255) :
    Duo H L p q (gain c p q k.aging x) k.osTickLeave := by
  obtain ⟨hne, hH, hL⟩ := h.apart hs hr
  obtain ⟨hmoves, hr₁⟩ := osAge_moves (b := k) hs hr rfl
  have hs₁ : Sound k.osAge := hmoves.sound hs
  obtain ⟨hsame, hbase⟩ := osAge_same hs
  have hlinks := osAge_links hs
  have hprio := osAge_priority (h.awake hs hr) hs hr ha
  have hp254 : p ≤ 254 := by
    rw [← h.high.1]
    exact (hs.bounded.high H hH).1
  have hmode : k.osTickLeave.mode = .thread := (osTickLeave_mode hs).trans hm
  have hstate : ∀ t, k.osAge.stateOf t = k.stateOf t := fun t => by rw [stateOf, stateOf, hsame.state]
  have hidle : k.osAge.priority osIdleTask = 0 := by
    have hzero : aged c (k.tasks k.currentTask).basePriority 0 = 0 := by simp [aged]
    rw [hprio, if_neg (Ne.symm (h.current hs hr).1), h.idle, hzero, ite_self]
  unfold osTickLeave at hmode ⊢
  rw [hrr, if_pos rfl] at hmode ⊢
  have hout : ∀ t, t ≠ H → t ≠ L → t ≠ osIdleTask → k.osAge.stateOf t = OS_TASK_DEAD := fun t h₁ h₂ h₃ => by
    rw [hstate]
    exact h.dead t h₁ h₂ h₃
  rcases h.turn with ⟨hcur, hready, hx, hqx, hxp, -⟩ | ⟨hcur, hready, hlow, hhigh, rfl⟩
  · have hpH : k.osAge.priority H = p := by rw [hprio, if_pos hcur.symm, hcur, h.high.2]
    have hpL : k.osAge.priority L = gain c p q k.aging x := by
      have hLm : L ∈ k.links .ready := by simp [hready]
      have hL' : ¬ L = k.currentTask := hcur ▸ Ne.symm hne
      have hg : gain c p q k.aging x = if k.aging = 1 ∧ x < c.agingLimit then x + 1 else x :=
        if_neg (by omega)
      have hstep : aged c p x = if x < c.agingLimit then x + 1 else x := by
        rw [aged, hrr, if_pos rfl, Nat.mod_eq_of_lt (by omega)]
        exact if_congr ⟨fun hc => hc.2.1, fun hxl => ⟨by omega, hxl, by omega⟩⟩ rfl rfl
      rw [hprio, if_neg hL', hcur, h.high.2, hx, hg, hstep]
      by_cases h1 : k.aging = 1
      · rw [if_pos ⟨by omega, hLm⟩]
        exact if_congr ⟨fun hxl => ⟨h1, hxl⟩, fun hc => hc.2⟩ rfl rfl
      · rw [if_neg fun hc => h1 (by omega), if_neg fun hc => h1 hc.1]
    have hgain : q ≤ gain c p q k.aging x ∧ gain c p q k.aging x ≤ p := by
      unfold gain
      split
      · omega
      · split <;> omega
    have hcur' : k.osAge.currentTask = H := hsame.current.trans hcur
    by_cases hup : gain c p q k.aging x = p
    · -- it has caught up and gets the processor
      rw [hup] at hpL ⊢
      obtain ⟨hc, hl, hrank, hst⟩ := schedule_swap hs₁ hr₁ (B := L) (by rw [hlinks, hready])
        (by rw [hcur', hbase, h.high.2]; exact hpH) (by rw [hcur', hpH]; omega) (by rw [hcur', hpH, hpL]) hidle
      rw [hcur'] at hl hst
      refine ⟨fun t h₁ h₂ h₃ => (hst t h₁ h₂).trans (hout t h₁ h₂ h₃), ?_, ?_, ?_, Or.inr ?_⟩
      · rw [hrank.priority, (hrank H).2, hbase]
        exact ⟨hpH, h.high.2⟩
      · rw [(hrank L).2, hbase, h.low]
      · rw [hrank.priority, hidle]
      · rw [hrank.priority, hpL]
        exact ⟨hc, hl, hpq.le, le_rfl, rfl⟩
    · have hidl : k.osAge.osScheduleNeeded 1 = false := by
        refine Bool.eq_false_iff.mpr fun hn => ?_
        obtain ⟨n, hh, hlt⟩ := (hs₁.needed_iff le_rfl).mp hn
        rw [hlinks, hready] at hh
        obtain rfl := Option.some.inj hh
        rw [hcur', hpH, hpL] at hlt
        omega
      have hstay : k.osAge.osSchedule 1 = k.osAge := by rw [osSchedule, hidl, if_neg (by simp)]
      rw [hstay]
      refine ⟨hout, ⟨hpH, by rw [hbase, h.high.2]⟩, by rw [hbase, h.low], hidle, Or.inl ?_⟩
      refine ⟨hcur', by rw [hlinks, hready], hpL, hgain.1, by omega, fun call hfr => ?_⟩
      rw [hsame.frames] at hfr
      exact absurd hfr (hf hcur call)
  · -- it has had its tick
    have hpL : k.osAge.priority L = q := by rw [hprio, if_pos hcur.symm, hcur, h.low]
    have hpH : k.osAge.priority H = x := by
      have hH' : ¬ H = k.currentTask := hcur ▸ hne
      have hstays : aged c q x = x := by
        rw [aged, hrr, if_neg]
        rintro ⟨-, -, hle⟩
        rw [if_pos rfl] at hle
        omega
      rw [hprio, if_neg hH', hcur, h.low, h.high.1, hstays, ite_self]
    have hcur' : k.osAge.currentTask = L := hsame.current.trans hcur
    have hgain : gain c x q k.aging x = q := if_pos rfl
    obtain ⟨hc, hl, hrank, hst⟩ := schedule_swap hs₁ hr₁ (B := H) (by rw [hlinks, hready])
      (by rw [hcur', hbase, h.low]; exact hpL) (by rw [hcur', hpL]; omega) (by rw [hcur', hpL, hpH]; omega) hidle
    rw [hcur'] at hl hst
    rw [hgain]
    refine ⟨fun t h₁ h₂ h₃ => (hst t h₂ h₁).trans (hout t h₁ h₂ h₃), ?_, ?_, ?_, Or.inl ?_⟩
    · rw [hrank.priority, (hrank H).2, hbase]
      exact ⟨hpH, h.high.2⟩
    · rw [(hrank L).2, hbase, h.low]
    · rw [hrank.priority, hidle]
    · rw [hrank.priority, hpL]
      exact ⟨hc, hl, rfl, le_rfl, hpq, fun call hfr => ⟨rfl, hmode⟩⟩

/-! ### Runs -/

/-- A call of the task which runs. -/
theorem call_duo (h : Duo H L p q x k) (hk : Rest k) {y : Call c} (hy : y.spares = true) (hl : k.legal y)
    (hc : ((k.emit (.called k.currentTask y (k.mine y))).exec y).currentTask = k.currentTask) :
    Duo H L p q x ((k.emit (.called k.currentTask y (k.mine y))).exec y) := by
  have he : Duo H L p q x (k.emit (.called k.currentTask y (k.mine y))) := h.quiet (emit_quiet k _)
  have hse : Sound (k.emit (.called k.currentTask y (k.mine y))) := hk.sound.congr rfl rfl rfl rfl rfl rfl
  obtain ⟨hi, hne, hb⟩ := he.current hse hk.running
  by_cases hun : ∃ m, y = .osMutexUnlock m
  · obtain ⟨m, rfl⟩ := hun
    exact osMutexUnlock_duo he hse hk.running m
      ⟨k.history k.currentTask, List.filter_cons_of_pos (decide_eq_true rfl)⟩ hc
  · exact he.quiet (exec_quiet (he.awake hse hk.running) hse hk.running hi hne hb y hy
      (fun m hm => hun ⟨m, hm⟩) hl hc)

/-- Between ticks nothing changes. -/
theorem step_duo {a : Action c} (h : Duo H L p q x k) (hk : Rest k) (ha : a.spares = true)
    (hn : a.endsTick = false) (hc : k'.currentTask = k.currentTask) (hs : k.step a = some k') :
    Duo H L p q x k' := by
  have haw := h.awake hk.sound hk.running
  obtain ⟨hi, hne, hb⟩ := h.current hk.sound hk.running
  cases a with
  | run =>
    simp only [step] at hs
    split at hs
    case isTrue hu => exact absurd hu.2.1 hi
    case isFalse => cases hs
  | call y =>
    simp only [step] at hs
    split at hs
    case isTrue hu =>
      injection hs with hs
      rw [← hs] at hc ⊢
      exact call_duo h hk ha hu.2 hc
    case isFalse => cases hs
  | resume =>
    simp only [step] at hs
    split at hs
    case isTrue =>
      have hleave : ∀ s : ListKernel c, s.links = k.links → s.tasks = k.tasks → s.currentTask = k.currentTask →
          s.frames k.currentTask = none → Duo H L p q x s := fun s h₁ h₂ h₃ h₄ =>
        h.congr (congrFun h₁ _) (funext fun t => by rw [stateOf, stateOf, h₂]) (.of_tasks h₂) h₃
          fun call hf => by rw [h₄] at hf; cases hf
      split at hs
      case h_1 =>
        injection hs with hs
        exact hs ▸ hleave _ rfl rfl rfl (Function.update_self ..)
      case h_2 =>
        injection hs with hs
        exact hs ▸ hleave _ rfl rfl rfl (Function.update_self ..)
      case h_3 call hf =>
        injection hs with hs
        rw [← hs] at hc ⊢
        exact execRest_duo h hk call hf _ hc
      case h_4 => cases hs
    case isFalse => cases hs
  | isrEnter os =>
    simp only [step] at hs
    split at hs
    · injection hs with hs
      rw [← hs]
      refine h.congr rfl rfl (.refl k) rfl fun call hf => ?_
      have hf' : (k.setFrame k.currentTask (some .preempted)).frames k.currentTask = some (.blocked call) := hf
      simp [setFrame] at hf'
    · cases hs
  | isrCall y =>
    simp only [step] at hs
    split at hs
    · split at hs
      · injection hs with hs
        exact hs ▸ h.quiet (execIsr_quiet haw hk.sound y)
      · cases hs
    · split at hs
      · injection hs with hs
        exact hs ▸ h.quiet (execIsr_quiet haw hk.sound y)
      · cases hs
    · cases hs
  | isrLeave =>
    have hthread : Duo H L p q x { k with mode := .thread } :=
      h.congr rfl rfl (.refl k) rfl fun call hf => ⟨hf, fun _ => rfl⟩
    have hsound : Sound { k with mode := .thread } := hk.sound.congr rfl rfl rfl rfl rfl rfl
    simp only [step] at hs
    split at hs
    · injection hs with hs
      rw [← hs] at hc ⊢
      have hinh : Kernel.osInheritedPriority { k with mode := .thread } k.currentTask ≤ k.priority k.currentTask := by
        rw [(hthread.awake hsound hk.running).inherited]
        exact hb
      rw [schedule_still hsound hk.running hinh (Nat.zero_le 1) hc]
      exact hthread
    · injection hs with hs
      exact hs ▸ hthread
    · cases hs
  | tickEnter =>
    simp only [step] at hs
    split at hs
    · injection hs with hs
      have hframe : Duo H L p q x (k.setFrame k.currentTask (some .preempted)) :=
        h.congr rfl rfl (.refl k) rfl fun call hf => by simp [setFrame] at hf
      rw [← hs, osTickEnter_eq hframe (setFrame_sound hk.sound _ _) hk.running]
      refine hframe.congr rfl rfl (.of_tasks rfl) rfl fun call hf => ?_
      have hf' : (k.setFrame k.currentTask (some .preempted)).frames k.currentTask = some (.blocked call) := hf
      simp [setFrame] at hf'
    · cases hs
  | tickTimer =>
    simp only [step] at hs
    split at hs
    case h_1 tm hmode hdue =>
      split at hs
      · injection hs with hs
        have hsame := osTimerTick_same k tm
        rw [← hs]
        refine h.congr (congrFun hsame.1 _) (funext fun t => ?_) (.of_tasks hsame.2.1) hsame.2.2.1 fun call hf => ?_
        · rw [stateOf, stateOf, hsame.2.1]
        · refine ⟨?_, fun hm => ?_⟩
          · rw [← hsame.2.2.2]
            exact hf
          · rw [hmode] at hm
            cases hm
      · cases hs
    · cases hs
  | tickLeave => cases hn
  | store | setTickVar =>
    simp only [step] at hs
    split at hs
    · injection hs with hs
      exact hs ▸ h.quiet (.same rfl rfl rfl rfl rfl)
    · cases hs

/-- Ticks are what makes the difference. -/
theorem tick_duo (ha : c.aging = true) (hrr : c.roundRobin = true) (hq : 1 ≤ q) (hpq : q < p)
    (h : Duo H L p q x k) (hk : Rest k) (hlo : 1 ≤ k.aging) (hhi : k.aging ≤ 255)
    (hs : k.step .tickLeave = some k') :
    Duo H L p q (gain c p q k.aging x) k' ∧ k'.aging = countdown c k.aging := by
  simp only [step] at hs
  split at hs
  case h_1 callback hmode =>
    split at hs
    · injection hs with hs
      have hthread : Duo H L p q x { k with mode := .thread } :=
        h.congr rfl rfl (.refl k) rfl fun call hf => ⟨hf, fun _ => rfl⟩
      have hsound : Sound { k with mode := .thread } := hk.sound.congr rfl rfl rfl rfl rfl rfl
      have hf : k.currentTask = H → ∀ call, k.frames H ≠ some (.blocked call) := fun hcur call hf => by
        rcases h.turn with ⟨-, -, -, -, -, hframe⟩ | ⟨hcurL, -⟩
        · have hm := (hframe call hf).2
          rw [hmode] at hm
          cases hm
        · exact (h.apart hk.sound hk.running).1 (hcur.symm.trans hcurL)
      have hd := osTickLeave_duo ha hrr hq hpq hthread hsound hk.running rfl hf hlo hhi
      rw [← hs]
      refine ⟨hd, ?_⟩
      unfold osTickLeave
      rw [schedule_aging, osAge_aging hsound ha hlo hhi]
    · cases hs
  · cases hs

/-! ### Turns -/

/-- Ticks until `L` is on turn. -/
def ahead (c : Config) (p a x : ℕ) : ℕ := if x = p then 0 else a + (p - 1 - x) * c.agingTicks

/-- Ticks from one turn to the next. -/
def turnPeriod (c : Config) (p q : ℕ) : ℕ := if c.agingTicks = 1 then p - q + 1 else (p - q) * c.agingTicks

theorem gain_up {a : ℕ} (hxp : x < p) (hpl : p ≤ c.agingLimit) :
    gain c p q a x = if a = 1 then x + 1 else x := by
  rw [gain, if_neg (by omega)]
  exact if_congr ⟨fun h => h.1, fun h => ⟨h, by omega⟩⟩ rfl rfl

/-- A tick is one tick less to wait. -/
theorem ahead_step {a : ℕ} (hxp : x < p) (hpl : p ≤ c.agingLimit) (ha : 1 ≤ a) :
    ahead c p a x = ahead c p (countdown c a) (gain c p q a x) + 1 := by
  rw [gain_up hxp hpl, ahead, if_neg (by omega)]
  unfold countdown ahead
  by_cases h1 : a = 1
  · rw [if_pos h1, if_pos h1, h1]
    by_cases hlast : x + 1 = p
    · rw [if_pos hlast, show p - 1 - x = 0 by omega, Nat.zero_mul]
    · have hmul : (p - 1 - x) * c.agingTicks = (p - 1 - (x + 1)) * c.agingTicks + c.agingTicks := by
        rw [← Nat.succ_mul]
        congr 1
        omega
      rw [if_neg hlast, hmul]
      omega
  · rw [if_neg h1, if_neg h1, if_neg (by omega)]
    omega

/-- After a turn the next one is a whole period ahead. -/
theorem ahead_again (hpq : q < p) {a : ℕ} :
    ahead c p (countdown c c.agingTicks) (gain c p q a p) = turnPeriod c p q - 1 := by
  have hn := c.agingTicks_ok.1
  rw [gain, if_pos rfl, ahead, if_neg (by omega)]
  unfold countdown turnPeriod
  by_cases h1 : c.agingTicks = 1
  · rw [if_pos h1, if_pos h1, h1]
    omega
  · have hmul : (p - q) * c.agingTicks = (p - 1 - q) * c.agingTicks + c.agingTicks := by
      rw [← Nat.succ_mul]
      congr 1
      omega
    rw [if_neg h1, if_neg h1, hmul]
    omega

theorem turnPeriod_two (hpq : q < p) : 2 ≤ turnPeriod c p q := by
  have hn := c.agingTicks_ok.1
  unfold turnPeriod
  split
  · omega
  · calc 2 ≤ c.agingTicks := by omega
      _ = 1 * c.agingTicks := (Nat.one_mul _).symm
      _ ≤ (p - q) * c.agingTicks := Nat.mul_le_mul_right _ (by omega)

theorem Duo.range (h : Duo H L p q x k) (hpq : q < p) : q ≤ x ∧ x ≤ p := by
  rcases h.turn with ⟨-, -, -, hq, hp, -⟩ | ⟨-, -, -, -, rfl⟩
  · exact ⟨hq, hp.le⟩
  · exact ⟨hpq.le, le_rfl⟩

theorem Duo.current_iff (h : Duo H L p q x k) (hk : Rest k) : (k.currentTask = L ↔ x = p) ∧
    (k.currentTask = L ∨ k.currentTask = H) := by
  have hne := (h.apart hk.sound hk.running).1
  rcases h.turn with ⟨hc, -, -, -, hp, -⟩ | ⟨hc, -, -, -, rfl⟩
  · refine ⟨⟨fun he => absurd (hc.symm.trans he) hne, fun he => by omega⟩, Or.inr hc⟩
  · exact ⟨⟨fun _ => rfl, fun _ => hc⟩, Or.inl hc⟩

/-- What holds after `m` ticks. -/
structure Shared (H L : Place c) (p q first m : ℕ) (k : ListKernel c) : Prop where
  rest : Rest k
  aging : 1 ≤ k.aging ∧ k.aging ≤ c.agingTicks
  duo : ∃ x, Duo H L p q x k ∧ (x = p → k.aging = c.agingTicks) ∧
    Due first (turnPeriod c p q) m (ahead c p k.aging x)

theorem countdown_range {a : ℕ} (hlo : 1 ≤ a) (hhi : a ≤ c.agingTicks) :
    1 ≤ countdown c a ∧ countdown c a ≤ c.agingTicks := by
  have hn := c.agingTicks_ok.1
  unfold countdown
  split <;> omega

/-- The counter never leaves its range. -/
theorem step_aging (ha : c.aging = true) {a : Action c} (hk : Rest k) (hr : 1 ≤ k.aging ∧ k.aging ≤ c.agingTicks)
    (hs : k.step a = some k') : 1 ≤ k'.aging ∧ k'.aging ≤ c.agingTicks := by
  by_cases hn : a = .tickLeave
  · subst hn
    have hmax := c.agingTicks_ok.2
    have hsound : Sound { k with mode := .thread } := hk.sound.congr rfl rfl rfl rfl rfl rfl
    simp only [step] at hs
    split at hs
    · split at hs
      · injection hs with hs
        have hage := osAge_aging hsound ha hr.1 (by show k.aging ≤ 255; omega)
        rw [← hs]
        unfold osTickLeave
        rw [schedule_aging, hage]
        exact countdown_range hr.1 hr.2
      · cases hs
    · cases hs
  · rw [(step_moves hk.sound hk.running hk.noDead hs).1.aging hk.sound hn]
    exact hr

theorem Shared.step (ha : c.aging = true) (hrr : c.roundRobin = true) (hq : 1 ≤ q) (hpq : q < p)
    (hpl : p ≤ c.agingLimit) {first m : ℕ} {a : Action c} (h : Shared H L p q first m k) (hb : Busy k a)
    (hs : k.step a = some k') : Shared H L p q first (m + a.endsTick.toNat) k' := by
  obtain ⟨x, hd, hfull, hdue⟩ := h.duo
  have hmax := c.agingTicks_ok.2
  refine ⟨h.rest.step hs, step_aging ha h.rest h.aging hs, ?_⟩
  cases hn : a.endsTick with
  | false =>
    have hage : k'.aging = k.aging :=
      (step_moves h.rest.sound h.rest.running h.rest.noDead hs).1.aging h.rest.sound
        (by rintro rfl; cases hn)
    have hc : k'.currentTask = k.currentTask := hb.2.resolve_left (by simp [hn]) k' hs
    rw [hage]
    exact ⟨x, step_duo hd h.rest hb.1 hn hc hs, hfull, hdue⟩
  | true =>
    obtain rfl : a = .tickLeave := by cases a <;> simp_all [Action.endsTick]
    obtain ⟨hd', hage⟩ := tick_duo ha hrr hq hpq hd h.rest h.aging.1 (by have := h.aging.2; omega) hs
    obtain ⟨hlow, hhigh⟩ := hd.range hpq
    refine ⟨_, hd', ?_, ?_⟩
    · rw [hage]
      by_cases hx : x = p
      · rw [gain, if_pos hx]
        omega
      · rw [gain_up (by omega) hpl]
        unfold countdown
        split
        · exact fun _ => rfl
        · omega
    · rw [hage]
      by_cases hx : x = p
      · subst hx
        have hzero : ahead c x k.aging x = 0 := if_pos rfl
        rw [hzero] at hdue
        rw [hfull rfl, ahead_again hpq]
        exact hdue.again (by have := turnPeriod_two (c := c) hpq; omega)
      · rw [ahead_step (by omega) hpl h.aging.1] at hdue
        exact hdue.step

theorem Shared.turn {first m : ℕ} (h : Shared H L p q first m k) :
    k.currentTask = L ∧ OnTurn first (turnPeriod c p q) m ∨ k.currentTask = H ∧ ¬ OnTurn first (turnPeriod c p q) m := by
  obtain ⟨x, hd, -, hdue⟩ := h.duo
  obtain ⟨hiff, hwho⟩ := hd.current_iff h.rest
  have hzero : ahead c p k.aging x = 0 ↔ x = p := by
    have hlo := h.aging.1
    unfold ahead
    split
    case isTrue hx => exact ⟨fun _ => hx, fun _ => rfl⟩
    case isFalse hx => exact ⟨fun he => by omega, fun he => absurd he hx⟩
  rw [hdue.onTurn_iff, hzero, ← hiff]
  rcases hwho with hc | hc
  · exact Or.inl ⟨hc, hc⟩
  · have hne := (hd.apart h.rest.sound h.rest.running).1
    exact Or.inr ⟨hc, fun he => hne (hc.symm.trans he)⟩

/-- Above the limit nobody catches up. -/
structure Starved (H L : Place c) (p q : ℕ) (k : ListKernel c) : Prop where
  rest : Rest k
  aging : 1 ≤ k.aging ∧ k.aging ≤ c.agingTicks
  duo : ∃ x, Duo H L p q x k ∧ x < p

theorem Starved.step (ha : c.aging = true) (hrr : c.roundRobin = true) (hq : 1 ≤ q) (hpq : q < p)
    (hpl : c.agingLimit < p) {a : Action c} (h : Starved H L p q k) (hb : Busy k a)
    (hs : k.step a = some k') : Starved H L p q k' := by
  obtain ⟨x, hd, hx⟩ := h.duo
  have hmax := c.agingTicks_ok.2
  refine ⟨h.rest.step hs, step_aging ha h.rest h.aging hs, ?_⟩
  cases hn : a.endsTick with
  | false =>
    have hc : k'.currentTask = k.currentTask := hb.2.resolve_left (by simp [hn]) k' hs
    exact ⟨x, step_duo hd h.rest hb.1 hn hc hs, hx⟩
  | true =>
    obtain rfl : a = .tickLeave := by cases a <;> simp_all [Action.endsTick]
    obtain ⟨hd', -⟩ := tick_duo ha hrr hq hpq hd h.rest h.aging.1 (by have := h.aging.2; omega) hs
    refine ⟨_, hd', ?_⟩
    rw [gain, if_neg (by omega)]
    split <;> omega

end

theorem Sim.busy {k k' : Kernel c Links} {l l' : ListKernel c} {a : Action c} (h : Sim k l) (h' : Sim k' l')
    (hb : Busy k a) (hk : k.step a = some k') (hl : l.step a = some l') : Busy l a := by
  refine ⟨hb.1, hb.2.imp id fun hc s hs => ?_⟩
  obtain rfl : l' = s := Option.some.inj (hl.symm.trans hs)
  rw [← h'.current, ← h.current]
  exact hc k' hk

theorem share_aging (ha : c.aging = true) {l : ListKernel c} (h : Reachable l) :
    1 ≤ l.aging ∧ l.aging ≤ c.agingTicks :=
  h.invariant (I := fun l => 1 ≤ l.aging ∧ l.aging ≤ c.agingTicks) ⟨c.agingTicks_ok.1, le_rfl⟩
    fun _ _ _ hr hi _ hs => step_aging ha (rest_of_reachable hr) hi hs

/-- With one task ready apart from the idle task, the idle task is behind it. -/
theorem ready_pair {l : ListKernel c} {L : Place c} (hr : Rest l) (hL : L ∈ l.links .ready)
    (hi : l.currentTask ≠ osIdleTask) (hlow : l.priority osIdleTask < l.priority L)
    (hothers : ∀ t, t ≠ l.currentTask → t ≠ L → t ≠ osIdleTask → l.stateOf t = OS_TASK_DEAD) :
    l.links .ready = [L, osIdleTask] := by
  have hne : L ≠ osIdleTask := fun he => absurd hlow (he ▸ lt_irrefl _)
  have hidle : osIdleTask ∈ l.links .ready := by
    refine (hr.sound.linked.2 _).ready.mpr (hr.sound.alive.idle.resolve_left fun hk => hi ?_)
    exact (hr.sound.alive.running _ hk).symm
  have hmem : ∀ t, t ∈ l.links .ready ↔ t ∈ [L, osIdleTask] := fun t => by
    rw [List.mem_pair]
    constructor
    · intro ht
      by_contra hn
      have hcur : t ≠ l.currentTask := fun he => hr.sound.current_unready hr.running (he ▸ ht)
      have hdead := hothers t hcur (fun he => hn (Or.inl he)) fun he => hn (Or.inr he)
      rw [hr.sound.ready_kind ht] at hdead
      exact absurd hdead (by decide)
    · rintro (rfl | rfl)
      · exact hL
      · exact hidle
  have hperm : (l.links .ready).Perm [L, osIdleTask] :=
    (List.perm_ext_iff_of_nodup (hr.sound.linked.1.separate.nodup .ready) (by simpa using hne)).mpr hmem
  refine hperm.eq_of_pairwise (fun a b ha hb hab hba => ?_) hr.sound.linked.1.ready (List.pairwise_pair.mpr hlow.le)
  -- the two differ in priority
  have hsame : l.priority a = l.priority b := le_antisymm hba hab
  rw [hmem, List.mem_pair] at ha
  rw [List.mem_pair] at hb
  rcases ha with rfl | rfl <;> rcases hb with rfl | rfl
  · rfl
  · exact absurd hsame hlow.ne'
  · exact absurd hsame hlow.ne
  · rfl

/-- The one who starves gets one tick at a time, after the same time over and over again, unless the
other one is above the limit. -/
theorem exact_share (ha : c.aging = true) (hrr : c.roundRobin = true) (k : Kernel c Links) (h : Reachable k)
    (L : Place c) (p q : ℕ) (hq : 1 ≤ q) (hpq : q < p)
    (hH : k.priority k.currentTask = p ∧ (k.tasks k.currentTask).basePriority = p)
    (hL : k.priority L = q ∧ (k.tasks L).basePriority = q) (hready : L ∈ k.list .ready)
    (hidle : k.priority osIdleTask = 0)
    (hothers : ∀ t, t ≠ k.currentTask → t ≠ L → t ≠ osIdleTask → k.stateOf t = OS_TASK_DEAD) :
    (p ≤ c.agingLimit → 2 ≤ turnPeriod c p q ∧ ∃ first, 1 ≤ first ∧ first ≤ (p - q) * c.agingTicks ∧
      ∀ m s, Counted step Busy Action.endsTick k m s →
        s.currentTask = L ∧ OnTurn first (turnPeriod c p q) m ∨
        s.currentTask = k.currentTask ∧ ¬ OnTurn first (turnPeriod c p q) m) ∧
    (c.agingLimit < p → ∀ m s, Counted step Busy Action.endsTick k m s → s.currentTask = k.currentTask) := by
  obtain ⟨l, hl, hs⟩ := reachable_lists h
  have hrest := rest_of_reachable hl
  have hage := share_aging ha hl
  have hpair : l.links .ready = [L, osIdleTask] := by
    rw [hs.list] at hready
    refine ready_pair hrest hready ?_ ?_ fun t h₁ h₂ h₃ => ?_
    · rw [← hs.current]
      rintro he
      rw [he] at hH
      omega
    · rw [← hs.priority, ← hs.priority]
      omega
    · rw [← hs.stateOf]
      exact hothers t (hs.current ▸ h₁) h₂ h₃
  have hduo : Duo k.currentTask L p q q l := by
    refine ⟨fun t h₁ h₂ h₃ => ?_, ?_, ?_, ?_, Or.inl ⟨hs.current.symm, ?_, ?_, le_rfl, hpq, fun call hf => ⟨rfl, ?_⟩⟩⟩
    · rw [← hs.stateOf]
      exact hothers t h₁ h₂ h₃
    · rw [← hs.priority, ← hs.tasks]
      exact hH
    · rw [← hs.tasks]
      exact hL.2
    · rw [← hs.priority]
      exact hidle
    · exact hpair
    · rw [← hs.priority]
      exact hL.1
    · by_contra hm
      rw [hs.current, reachable_interrupted hl hm] at hf
      cases hf
  have hsim : ∀ m s, Counted step Busy Action.endsTick k m s → ∃ l', Sim s l' ∧ Counted step Busy Action.endsTick l m l' := by
    intro m s hc
    obtain ⟨l', hl', hs', -⟩ := hc.simulate (R := fun s l => Sim s l ∧ Rest l) ⟨hs, hrest⟩
      fun s a s' t hst hb hstep => by
        obtain ⟨t', ht', hs'⟩ := step_sim hst.1 hst.2 a hstep
        exact ⟨hst.1.busy hs' hb hstep ht', t', ht', hs', hst.2.step ht'⟩
    exact ⟨l', hs', hl'⟩
  refine ⟨fun hpl => ⟨turnPeriod_two hpq, ahead c p l.aging q, ?_, ?_, fun m s hc => ?_⟩, fun hpl m s hc => ?_⟩
  · rw [ahead, if_neg (by omega)]
    have := hage.1
    omega
  · have hmul : (p - q) * c.agingTicks = (p - 1 - q) * c.agingTicks + c.agingTicks := by
      rw [← Nat.succ_mul]
      congr 1
      omega
    rw [ahead, if_neg (by omega), hmul]
    have := hage.2
    omega
  · obtain ⟨l', hs', hc'⟩ := hsim m s hc
    have hshared := hc'.invariant (I := Shared k.currentTask L p q (ahead c p l.aging q))
      ⟨hrest, hage, q, hduo, fun hx => by omega, due_first⟩
      fun n s a s' hi hb hst => hi.step ha hrr hq hpq hpl hb hst
    rw [hs'.current]
    exact hshared.turn
  · obtain ⟨l', hs', hc'⟩ := hsim m s hc
    have hstarved := hc'.invariant (I := fun _ => Starved k.currentTask L p q) ⟨hrest, hage, q, hduo, hpq⟩
      fun n s a s' hi hb hst => hi.step ha hrr hq hpq hpl hb hst
    obtain ⟨x, hd, hx⟩ := hstarved.duo
    obtain ⟨hiff, hwho⟩ := hd.current_iff hstarved.rest
    rw [hs'.current]
    exact hwho.resolve_left fun he => by have := hiff.mp he; omega

/-- The aging pass is every `n` ticks. -/
abbrev agingEvery (n : ℕ) (hn : 1 ≤ n ∧ n ≤ 255) : Config :=
  { Config.default 2 with agingTicks := n, agingTicks_ok := hn }

/-- A task of priority 4 and one of priority 2, the aging pass is every other tick. -/
def starvedPair : List (Action (agingEvery 2 (by decide))) :=
  [.call (.osTaskCreate 1 4 false), .resume, .call (.osTaskCreate 2 2 false), .resume, .run]

theorem exact_share_taken : ∃ k s : Kernel (agingEvery 2 (by decide)) Links,
    steps step (osInit _ Links) starvedPair = some k ∧
      steps (only step fun k a => decide (Busy k a)) k
        (List.replicate 4 [Action.tickEnter, .tickLeave, .resume]).flatten.dropLast = some s ∧
      ∃ first, first ≤ 4 ∧ (s.currentTask = 2 ∧ OnTurn first 4 4 ∨ s.currentTask = k.currentTask ∧ ¬ OnTurn first 4 4) := by
  have hrun : (steps step (osInit _ Links) starvedPair).bind (fun k =>
      (steps (only step fun k a => decide (Busy k a)) k
        (List.replicate 4 [Action.tickEnter, .tickLeave, .resume]).flatten.dropLast).map fun _ =>
        decide (2 ∈ k.list .ready ∧ k.priority 0 = 0 ∧ k.currentTask = 1 ∧
          (k.priority 1 = 4 ∧ (k.tasks 1).basePriority = 4) ∧
          (k.priority 2 = 2 ∧ (k.tasks 2).basePriority = 2) ∧
          ∀ t, t ≠ 1 → t ≠ 2 → t ≠ 0 → k.stateOf t = OS_TASK_DEAD)) = some true := by decide +kernel
  obtain ⟨k, hk, hrest⟩ := Option.bind_eq_some_iff.mp hrun
  obtain ⟨s, hs, hc⟩ := Option.map_eq_some_iff.mp hrest
  obtain ⟨hready, hzero, hcur, hH, hL, hothers⟩ := of_decide_eq_true hc
  have hcounted : Counted step Busy Action.endsTick k _ s :=
    Counted.only_counted (fun _ _ ha => of_decide_eq_true ha) _ .init hs
  obtain ⟨first, -, hle, hturns⟩ := ((exact_share rfl rfl k (Reach.steps_reach _ (fun _ _ _ => trivial) .init hk) 2 4 2
    (by decide) (by decide) (hcur ▸ hH) hL hready hzero (hcur ▸ hothers)).1 (by decide)).2
  exact ⟨k, s, hk, hs, first, hle, hturns _ s hcounted⟩

/-- The idle task has been made more important than one of the two. -/
def importantIdle : List (Action (agingEvery 1 (by decide))) :=
  [.call (.osTaskCreate 1 3 false), .resume, .call (.osTaskCreate 2 1 false), .resume, .run,
    .call (.osTaskSetPriority (some 0) 2), .resume]

/-- It ages as well, so it takes longer until `L` is on turn for the first time. -/
theorem not_exact_share : ¬ ∀ (k : Kernel (agingEvery 1 (by decide)) Links)
    (L : Place _) (p q : ℕ), Reachable k → 1 ≤ q → q < p → p ≤ 254 →
    k.priority k.currentTask = p ∧ (k.tasks k.currentTask).basePriority = p →
    k.priority L = q ∧ (k.tasks L).basePriority = q → L ∈ k.list .ready →
    (∀ t, t ≠ k.currentTask → t ≠ L → t ≠ osIdleTask → k.stateOf t = OS_TASK_DEAD) →
    ∃ first, 1 ≤ first ∧ first ≤ (p - q) * 1 ∧ ∀ m s, Counted step Busy Action.endsTick k m s →
      (s.currentTask = L ↔ OnTurn first (p - q + 1) m) := by
  intro h
  have hrun : (steps step (osInit _ Links) importantIdle).bind (fun k =>
      (steps (only step fun k a => decide (Busy k a)) k [.tickEnter, .tickLeave]).bind fun s =>
        (steps (only step fun k a => decide (Busy k a)) k
          [.tickEnter, .tickLeave, .resume, .tickEnter, .tickLeave]).map fun s' =>
          decide (k.currentTask = 1 ∧ 2 ∈ k.list .ready ∧
            (k.priority 1 = 3 ∧ (k.tasks 1).basePriority = 3) ∧
            (k.priority 2 = 1 ∧ (k.tasks 2).basePriority = 1) ∧
            (∀ t, t ≠ 1 → t ≠ 2 → t ≠ 0 → k.stateOf t = OS_TASK_DEAD) ∧
            s.currentTask ≠ 2 ∧ s'.currentTask ≠ 2)) = some true := by
    decide +kernel
  obtain ⟨k, hk, hrest⟩ := Option.bind_eq_some_iff.mp hrun
  obtain ⟨s, hs, hrest⟩ := Option.bind_eq_some_iff.mp hrest
  obtain ⟨s', hs', hc⟩ := Option.map_eq_some_iff.mp hrest
  obtain ⟨hcur, hready, hH, hL, hothers, hone, htwo⟩ := of_decide_eq_true hc
  have hcounted₁ : Counted step Busy Action.endsTick k _ s :=
    Counted.only_counted (fun _ _ ha => of_decide_eq_true ha) _ .init hs
  have hcounted₂ : Counted step Busy Action.endsTick k _ s' :=
    Counted.only_counted (fun _ _ ha => of_decide_eq_true ha) _ .init hs'
  obtain ⟨first, hlo, hhi, hturns⟩ := h k 2 3 1 (Reach.steps_reach _ (fun _ _ _ => trivial) .init hk) (by decide)
    (by decide) (by decide) (hcur ▸ hH) hL hready (hcur ▸ hothers)
  have hnot₁ : ¬ OnTurn first 3 1 := fun ht => hone ((hturns _ s hcounted₁).mpr ht)
  have hnot₂ : ¬ OnTurn first 3 2 := fun ht => htwo ((hturns _ s' hcounted₂).mpr ht)
  have hcases : first = 1 ∨ first = 2 := by omega
  rcases hcases with rfl | rfl
  · exact hnot₁ ⟨0, rfl⟩
  · exact hnot₂ ⟨0, rfl⟩

end AvrOs
