import AvrOs.Refinement
import AvrOs.Switching

/-!
# Priorities fit a byte

The scheduler calculates with priorities in three places, in 8 bits. Here the kernel is taken
apart there: whatever the arithmetic does beyond a byte, the kernel does not get there.
-/

namespace AvrOs
open Intrusive Transition Kernel

variable {c : Config} {S : Type → Type → Type} [LinkStore S]

namespace Kernel

/-! ### The kernel with another arithmetic -/

/-- `osScheduleNeeded`, what it calculates goes through `wrap`. -/
def osScheduleNeededWith (wrap : ℕ → ℕ) (k : Kernel c S) (yield : ℕ) : Bool :=
  match LinkStore.head k.links .ready with
  | some head => k.priority k.currentTask < wrap (k.priority head + yield)
  | none => false

def osScheduleWith (wrap : ℕ → ℕ) (k : Kernel c S) (yield : ℕ) : Kernel c S :=
  if k.osScheduleNeededWith wrap yield then
    let task := k.currentTask
    let k := k.osSettle task
    let k := k.setState task OS_TASK_READY
    let k := k.osListInsert .ready task (wrap (k.priority task + 1 - yield))
    k.osDispatch
  else k

def osAgeTaskWith (wrap : ℕ → ℕ) (priority : ℕ) (k : Kernel c S) (task : Place c) : Kernel c S :=
  if k.priority task ≠ 0 ∧ k.priority task < c.agingLimit ∧
      k.priority task + (if c.roundRobin then 1 else 0) ≤ priority then
    k.setPriority task (wrap (k.priority task + 1))
  else k

def osAgeWith (wrap : ℕ → ℕ) (k : Kernel c S) : Kernel c S :=
  if c.aging then
    let k := k.osSettle k.currentTask
    let k := { k with aging := (k.aging + 255) % 256 }
    if k.aging = 0 then
      let k := { k with aging := c.agingTicks }
      (LinkStore.toList k.links .ready).foldl (osAgeTaskWith wrap (k.priority k.currentTask)) k
    else k
  else k

/-- The state a call gets to `osSchedule` with and the argument it passes, or the one it returns
with if it does not get there. -/
def atSchedule (k : Kernel c S) : Call c → Kernel c S × Option ℕ
  | .osTaskCreate t priority dynamic =>
    ((k.osTaskSetup t priority.toNat dynamic).returns (.osTaskCreate t priority dynamic) (.task (some t)), some 0)
  | .osTaskDelete t =>
    let task := t.getD k.currentTask
    let current := k.currentTask
    let k := k.returns (.osTaskDelete t) .void
    if task ≠ osIdleTask ∧ k.stateOf task ≠ OS_TASK_DEAD then
      let k := k.osTaskDetach task
      let k := ((k.setState task OS_TASK_DEAD).emit (.deleted task)).setFrame task none
      let k := if c.mutexInheritance then k.osMutexReleaseAll task else k
      let k := if (k.tasks task).dynamic then
          { k with links := LinkStore.push k.links .dead task }
        else k
      if task = current then (k.osDispatch, none) else (k, some 0)
    else (k, none)
  | .osTaskResume t => ((k.osTaskResumeFromISR t).returns (.osTaskResume t) .void, some 0)
  | .osTaskSetPriority t priority =>
    let task := t.getD k.currentTask
    let k := k.returns (.osTaskSetPriority t priority) .void
    let k := k.setTask task { k.tasks task with basePriority := osTaskPriority priority.toNat }
    let inherited := k.osInheritedPriority task
    let k := if inherited > k.priority task then k.osPriorityRaise task inherited
      else if inherited < k.priority task then (k.setPriority task inherited).osRequeue task
      else k
    (k, some 0)
  | .osYield => (k.returns .osYield .void, some 1)
  | .osDelay ticks =>
    if ticks ≠ 0 then (k.osDelay ticks, none) else (k.returns (.osDelay ticks) .void, some 1)
  | .osMutexUnlock m =>
    let task := k.currentTask
    let k := k.returns (.osMutexUnlock m) .void
    if k.owner m = some task then
      let k := if c.mutexInheritance then
          { k with ownedLinks := LinkStore.remove k.ownedLinks task m }
        else k
      let k := k.osMutexPass m
      let k := if c.mutexInheritance then k.setPriority task (k.osInheritedPriority task) else k
      (k, some 0)
    else (k, none)
  | .osSemaphoreGive s => ((k.osSemaphoreGiveFromISR s).returns (.osSemaphoreGive s) .void, some 0)
  | .osQueueSend q item timeout =>
    match k.osQueuePut (.osQueueSend q item timeout) q item timeout with
    | (k, some sent) => (k.returns (.osQueueSend q item timeout) (.bool sent), some 0)
    | (k, none) => (k, none)
  | .osQueueReceive q item timeout =>
    match k.osQueueGet (.osQueueReceive q item timeout) q item timeout with
    | (k, some received) => (k.returns (.osQueueReceive q item timeout) (.bool received), some 0)
    | (k, none) => (k, none)
  | .osEventSet e flags => ((k.osEventSetFromISR e flags).returns (.osEventSet e flags) .void, some 0)
  | x => (k.exec x, none)

/-- The same for an action. -/
def actAtSchedule (wrap : ℕ → ℕ) (k : Kernel c S) : Action c → Option (Kernel c S × Option ℕ)
  | .run =>
    if k.userMode ∧ k.currentTask = osIdleTask ∧ k.started = false then
      let idle := { k.tasks osIdleTask with priority := 0, basePriority := 0 }
      let k := { k.setTask osIdleTask idle with started := true }
      some (k.setFrame osIdleTask (some .preempted), some 0)
    else none
  | .call x =>
    if k.userMode ∧ k.legal x then
      some ((k.emit (.called k.currentTask x (k.mine x))).atSchedule x)
    else none
  | .resume =>
    if k.mode = .thread then
      match k.frames k.currentTask with
      | some (.blocked call) =>
        let result := (k.tasks k.currentTask).result
        match call with
        | .osQueueSend _ _ _ | .osQueueReceive _ _ _ => some (k.returns call (.bool result), some 0)
        | _ => some (k.execRest call result, none)
      | _ => (k.step .resume).map fun k => (k, none)
    else none
  | .isrLeave =>
    match k.mode with
    | .isr true => some ({ k with mode := .thread }, some 0)
    | _ => (k.step .isrLeave).map fun k => (k, none)
  | .tickLeave =>
    match k.mode with
    | .tick _ =>
      if c.timers = false ∨ k.osTimerDue = none then
        some ({ k with mode := .thread }.osAgeWith wrap, some (if c.roundRobin then 1 else 0))
      else none
    | _ => none
  | a => (k.step a).map fun k => (k, none)

/-- The rest of the action. -/
def fromSchedule (wrap : ℕ → ℕ) : Kernel c S × Option ℕ → Kernel c S
  | (k, some yield) => k.osScheduleWith wrap yield
  | (k, none) => k

/-- One action of the kernel whose priorities are calculated with `wrap`. -/
def stepWith (wrap : ℕ → ℕ) (k : Kernel c S) (a : Action c) : Option (Kernel c S) :=
  (k.actAtSchedule wrap a).map (fromSchedule wrap)

end Kernel

theorem exec_atSchedule (k : Kernel c S) (x : Call c) : fromSchedule (· % 256) (k.atSchedule x) = k.exec x := by
  cases x with
  | osTaskDelete t =>
    show _ = k.osTaskDelete t
    unfold atSchedule osTaskDelete
    dsimp only
    split
    · split <;> rfl
    · rfl
  | osDelay ticks =>
    show _ = k.osDelay ticks
    unfold atSchedule
    dsimp only
    split
    · rfl
    case isFalse h =>
      unfold osDelay
      dsimp only
      rw [if_neg h]
      rfl
  | osMutexUnlock m =>
    show _ = k.osMutexUnlock m
    unfold atSchedule osMutexUnlock
    dsimp only
    split <;> rfl
  | osQueueSend q item timeout =>
    show _ = k.osQueueSend q item timeout
    unfold atSchedule osQueueSend
    dsimp only
    rcases k.osQueuePut (.osQueueSend q item timeout) q item timeout with ⟨k', _ | sent⟩ <;> rfl
  | osQueueReceive q item timeout =>
    show _ = k.osQueueReceive q item timeout
    unfold atSchedule osQueueReceive
    dsimp only
    rcases k.osQueueGet (.osQueueReceive q item timeout) q item timeout with ⟨k', _ | received⟩ <;> rfl
  | _ => rfl

/-- With the arithmetic of a byte it is the kernel itself. -/
theorem stepWith_byte (k : Kernel c S) (a : Action c) : k.stepWith (· % 256) a = k.step a := by
  cases a with
  | run =>
    unfold stepWith actAtSchedule step
    dsimp only
    split <;> rfl
  | call x =>
    unfold stepWith actAtSchedule step
    dsimp only
    split
    · exact congrArg some (exec_atSchedule _ x)
    · rfl
  | resume =>
    unfold stepWith actAtSchedule
    dsimp only
    split
    case isTrue hm =>
      split
      case h_1 call hf =>
        unfold step
        dsimp only
        rw [if_pos hm, hf]
        dsimp only
        split <;> rfl
      case h_2 => rw [Option.map_map]; exact Option.map_id' ..
    case isFalse hm =>
      unfold step
      dsimp only
      rw [if_neg hm]
      rfl
  | isrLeave =>
    unfold stepWith actAtSchedule
    dsimp only
    split
    case h_1 hm =>
      unfold step
      dsimp only
      rw [hm]
      rfl
    case h_2 => rw [Option.map_map]; exact Option.map_id' ..
  | tickLeave =>
    unfold stepWith actAtSchedule step
    dsimp only
    cases k.mode with
    | tick callback =>
      dsimp only
      split <;> rfl
    | thread | isr os => rfl
  | _ => exact Option.map_map .. |>.trans (Option.map_id' ..)

/-! ### What the scheduler gets -/

section
variable {k : Kernel c Links} {l : ListKernel c} {wrap : ℕ → ℕ}

theorem byte_small : ∀ n ≤ 255, n % 256 = n := fun n hn => Nat.mod_eq_of_lt (by omega)

theorem byte_eq {n : ℕ} (hw : ∀ n ≤ 255, wrap n = n) (hn : n ≤ 255) : wrap n = n % 256 := by
  rw [hw n hn, byte_small n hn]

/-- A kernel which is about to switch is as good as one between two actions. -/
def Poised : Kernel c Links × Option ℕ → Prop
  | (k, some yield) => yield ≤ 1 ∧ ∃ l, Sim k l ∧ Sound l ∧ Running l
  | (_, none) => True

/-- What `osSchedule` compares and, where it makes way, the key it inserts with fit a byte. -/
structure Fits (k : Kernel c Links) (yield : ℕ) : Prop where
  compared : ∀ head, LinkStore.head k.links .ready = some head → k.priority head + yield ≤ 255
  key : k.osScheduleNeeded yield = true → (k.osSettle k.currentTask).priority k.currentTask + 1 - yield ≤ 255

/-- Nobody who has to make way has more than 254, and what is ready has not either. -/
theorem Sim.fits (h : Sim k l) (hs : Sound l) {yield : ℕ} (hy : yield ≤ 1) : Fits k yield where
  compared head hh := by
    rw [h.links_head] at hh
    have hhead := hs.ready_bound (List.mem_of_head? hh)
    rw [h.priority]
    omega
  key hn := by
    have hcur : l.priority l.currentTask ≤ 254 := by
      unfold osScheduleNeeded at hn
      rw [h.links_head, h.current, h.priority] at hn
      split at hn
      · have hlt := of_decide_eq_true hn
        omega
      · cases hn
    have hkey := settle_bound hs l.currentTask hcur
    rw [h.current, (h.settle l.currentTask).priority]
    omega

theorem Fits.needed_with {yield : ℕ} (hk : Fits k yield) (hw : ∀ n ≤ 255, wrap n = n) :
    k.osScheduleNeededWith wrap yield = k.osScheduleNeeded yield := by
  unfold osScheduleNeededWith osScheduleNeeded
  cases hh : LinkStore.head k.links .ready with
  | none => rfl
  | some head =>
    dsimp only
    rw [byte_eq hw (hk.compared head hh)]

theorem Fits.schedule_with {yield : ℕ} (hk : Fits k yield) (hw : ∀ n ≤ 255, wrap n = n) :
    k.osScheduleWith wrap yield = k.osSchedule yield := by
  unfold osScheduleWith osSchedule
  rw [hk.needed_with hw]
  split
  case isTrue hn =>
    dsimp only
    rw [setState_priority, byte_eq hw (hk.key hn)]
  case isFalse => rfl

theorem age_with (hw : ∀ n ≤ 255, wrap n = n) (k : Kernel c Links) : k.osAgeWith wrap = k.osAge := by
  have hone : osAgeTaskWith (c := c) (S := Links) wrap = osAgeTask := by
    funext priority k t
    refine ite_congr rfl (fun h => ?_) fun _ => rfl
    have hlimit := c.agingLimit_ok.2
    rw [byte_eq hw (by omega)]
  unfold osAgeWith osAge
  rw [hone]

theorem fromSchedule_with {p : Kernel c Links × Option ℕ} (hp : Poised p) (hw : ∀ n ≤ 255, wrap n = n) :
    fromSchedule wrap p = fromSchedule (· % 256) p := by
  obtain ⟨k, _ | yield⟩ := p
  · rfl
  · obtain ⟨hy, l, h, hs, -⟩ := hp
    exact (h.fits hs hy).schedule_with hw

/-! ### Every state a call gets to the scheduler with -/

theorem Sim.poised (h : Sim k l) (hs : Sound l) (hr : Running l) {yield : ℕ} (hy : yield ≤ 1) :
    Poised (k, some yield) := ⟨hy, l, h, hs, hr⟩

theorem osTaskCreate_poised (h : Sim k l) (hl : Rest l) (t : Place c) (p : Byte) (d : Bool)
    (hx : l.legal (.osTaskCreate t p d)) : Poised (k.atSchedule (.osTaskCreate t p d)) := by
  obtain ⟨hs, hr, hn⟩ := hl
  have hg : (Atom.create t p.toNat d).guard l := ⟨hx.1, hx.2, fun hinh m ho => hn hinh m t ho hx.1⟩
  have hcreated : Sound (l.osTaskSetup t p.toNat d) := (Atom.create t p.toNat d).sound hs hg
  exact ((h.setup hs t p.toNat d hx.1 hx.2).returns _ _).poised (returned_sound hcreated _ _)
    (create_running hr t p.toNat d hx.1) (Nat.zero_le 1)

theorem osTaskDelete_poised (h : Sim k l) (hs : Sound l) (hr : Running l) (t : Option (Place c)) :
    Poised (k.atSchedule (.osTaskDelete t)) := by
  have h1 := h.returns (.osTaskDelete t) .void
  have hs1 := returned_sound hs (.osTaskDelete t) .void
  have hr1 : Running (l.returns (.osTaskDelete t) .void) := hr
  have hcur1 : (l.returns (.osTaskDelete t) .void).currentTask = l.currentTask := rfl
  unfold atSchedule
  dsimp only
  rw [h.current, h1.stateOf]
  generalize t.getD l.currentTask = u
  generalize l.returns (.osTaskDelete t) .void = l₁ at h1 hs1 hr1 hcur1 ⊢
  rw [← hcur1]
  split
  case isTrue hc =>
    obtain ⟨hi, hdead⟩ := hc
    split
    case isTrue => trivial
    case isFalse he =>
      have hblocked : l₁.stateOf l₁.currentTask ≠ OS_TASK_BLOCKED := by
        rw [hr1.kind]
        simp
      have hrunning : Running (AvrOs.delete l₁ u) := by
        rw [Running, delete_current hs1 u hi hdead,
          delete_frame hs1 u hi hdead l₁.currentTask (Ne.symm he) hblocked]
        exact hr1
      exact (Sim.delete hs1 u hi hdead (h1.released hs1 u hi hdead)).poised
        ((Move.delete u).sound hs1 ⟨hi, hdead⟩) hrunning (Nat.zero_le 1)
  case isFalse => trivial

theorem osTaskResume_poised (h : Sim k l) (hs : Sound l) (hr : Running l) (t : Place c) :
    Poised (k.atSchedule (.osTaskResume t)) := by
  obtain ⟨hm, hr1⟩ := osTaskResumeFromISR_moves (a := .call (.osTaskResume t)) hr t (Or.inl rfl)
  exact ((osTaskResumeFromISR_sim h hs t).returns _ _).poised (returned_sound (hm.sound hs) _ _) hr1
    (Nat.zero_le 1)

theorem osTaskSetPriority_poised (h : Sim k l) (hs : Sound l) (hr : Running l) (t : Option (Place c)) (p : Byte) :
    Poised (k.atSchedule (.osTaskSetPriority t p)) := by
  have h1 := h.returns (.osTaskSetPriority t p) .void
  have hs1 := returned_sound hs (.osTaskSetPriority t p) .void
  have hmoved := (Move.repriority (t.getD l.currentTask) (osTaskPriority p.toNat)).sound hs1
    (osTaskPriority_bounds p.toNat)
  unfold atSchedule
  dsimp only
  rw [h.current]
  exact (h1.repriority hs1.linked _ _ rfl).poised hmoved
    ((repriority_same _ _ _).running (k := l.returns (.osTaskSetPriority t p) .void) hr) (Nat.zero_le 1)

theorem SimResult.poised {p : Kernel c Links × Option Bool} {q : ListKernel c × Option Bool} (h : SimResult p q)
    (call : Call c) {r : Bool} (hp : p.2 = some r) : Poised (p.1.returns call (.bool r), some 0) := by
  obtain ⟨hsim, he, hn⟩ := h
  obtain ⟨hs, hr⟩ := hn (by rw [← he, hp]; simp)
  exact (hsim.returns call (.bool r)).poised (returned_sound hs _ _) hr (Nat.zero_le 1)

theorem osMutexUnlock_poised (h : Sim k l) (hs : Sound l) (hr : Running l) (m : Place c)
    (hc : Called l (.osMutexUnlock m)) : Poised (k.atSchedule (.osMutexUnlock m)) := by
  have h1 := h.returns (.osMutexUnlock m) .void
  have hs1 := returned_sound hs (.osMutexUnlock m) .void
  unfold atSchedule
  rw [h.current]
  dsimp only
  have howner : (k.returns (.osMutexUnlock m) .void).owner = l.owner := h.owner
  by_cases ho : l.owner m = some l.currentTask
  · rw [if_pos (by rw [howner]; exact ho)]
    have hg : (Move.unlock m).guard (l.returns (.osMutexUnlock m) .void) :=
      ⟨hr.kind, ho, Or.inr ⟨hr.kind, ⟨.void, Function.update_self ..⟩, l.mine (.osMutexUnlock m), hc⟩⟩
    have hu : Running (unlock (l.returns (.osMutexUnlock m) .void) m) := unlock_running hs1 hr m
    have h2 := (h1.offOwned l.currentTask m).pass hs1 m ho
    refine Sim.poised ?_ ((Move.unlock m).sound hs1 hg) hu (Nat.zero_le 1)
    show Sim _ (unlock (l.returns (.osMutexUnlock m) .void) m)
    unfold unlock
    dsimp only
    rw [Atom.apply, release_eq]
    by_cases hinh : c.mutexInheritance = true
    · simp only [if_pos hinh] at h2 ⊢
      exact h2.inheritSet _
    · simp only [if_neg hinh] at h2 ⊢
      exact h2
  · rw [if_neg (by rw [howner]; exact ho)]
    trivial

theorem exec_poised (h : Sim k l) (hl : Rest l) (x : Call c) (hc : Called l x) (hx : l.legal x) :
    Poised (k.atSchedule x) := by
  have hs := hl.sound
  have hr := hl.running
  cases x with
  | osTaskCreate t p d => exact osTaskCreate_poised h hl t p d hx
  | osTaskDelete t => exact osTaskDelete_poised h hs hr t
  | osTaskResume t => exact osTaskResume_poised h hs hr t
  | osTaskSetPriority t p => exact osTaskSetPriority_poised h hs hr t p
  | osYield => exact (h.returns _ _).poised (returned_sound hs _ _) hr le_rfl
  | osDelay ticks =>
    unfold atSchedule
    dsimp only
    split
    · trivial
    · exact (h.returns _ _).poised (returned_sound hs _ _) hr le_rfl
  | osMutexUnlock m => exact osMutexUnlock_poised h hs hr m hc
  | osSemaphoreGive s =>
    exact ((osSemaphoreGiveFromISR_sim h hs s).returns _ _).poised (returned_sound (give_sound hs s) _ _)
      (give_running hs hr s) (Nat.zero_le 1)
  | osQueueSend q item timeout =>
    unfold atSchedule
    dsimp only
    split
    case h_1 sent he =>
      have hput := h.put hs hr (.osQueueSend q item timeout) q item timeout
      rw [he] at hput
      exact hput.poised _ rfl
    case h_2 => trivial
  | osQueueReceive q item timeout =>
    unfold atSchedule
    dsimp only
    split
    case h_1 received he =>
      have hget := h.get hs hr (.osQueueReceive q item timeout) q item timeout
      rw [he] at hget
      exact hget.poised _ rfl
    case h_2 => trivial
  | osEventSet e flags =>
    exact ((osEventSetFromISR_sim h hs e flags).returns _ _).poised
      (returned_sound ((Move.setEvent e flags).sound hs trivial) _ _) (setEvent_running hs hr e flags) (Nat.zero_le 1)
  | _ => trivial

theorem actAtSchedule_with (hw : ∀ n ≤ 255, wrap n = n) (k : Kernel c Links) (a : Action c) :
    k.actAtSchedule wrap a = k.actAtSchedule (· % 256) a := by
  cases a with
  | tickLeave =>
    unfold actAtSchedule
    rw [age_with hw, age_with byte_small]
  | _ => rfl

theorem act_poised (h : Sim k l) (hl : Rest l) (a : Action c) {p : Kernel c Links × Option ℕ}
    (hp : k.actAtSchedule (· % 256) a = some p) : Poised p := by
  have hs := hl.sound
  have hr := hl.running
  have hnone : ∀ {k₁ : Option (Kernel c Links)}, (k₁.map fun k => (k, none)) = some p → Poised p := by
    intro k₁ he
    obtain ⟨k₂, -, rfl⟩ := Option.map_eq_some_iff.mp he
    trivial
  cases a with
  | run =>
    unfold actAtSchedule at hp
    dsimp only at hp
    split at hp
    case isTrue hc =>
      cases hp
      have hi : l.currentTask = osIdleTask := by
        rw [← h.current]
        exact hc.2.1
      have hg : (Atom.start).guard l := ⟨hi, hr.kind⟩
      have h1 : Sim { k.setTask osIdleTask { k.tasks osIdleTask with
            priority := 0, basePriority := 0 } with started := true } ((Atom.start).apply l) := by
        obtain ⟨s, rfl, hs⟩ := h
        exact ⟨s, rfl, hs⟩
      refine (h1.setFrame osIdleTask (some .preempted)).poised
        (setFrame_sound ((Atom.start).sound hs hg) _ _) ?_ (Nat.zero_le 1)
      show (Function.update l.tasks osIdleTask _ l.currentTask).state = _
      rw [hi, Function.update_self, ← hr, hi]
    case isFalse => cases hp
  | call x =>
    unfold actAtSchedule at hp
    dsimp only at hp
    split at hp
    case isTrue hc =>
      cases hp
      rw [h.current, h.mine]
      have hl1 : Rest (l.emit (.called l.currentTask x (l.mine x))) :=
        ⟨emit_sound hs _, hr, hl.noDead⟩
      have hx : Called (l.emit (.called l.currentTask x (l.mine x))) x :=
        ⟨l.history l.currentTask, List.filter_cons_of_pos (decide_eq_true rfl)⟩
      exact exec_poised (h.emit _) hl1 x hx ((h.legal x).mp hc.2)
    case isFalse => cases hp
  | resume =>
    unfold actAtSchedule at hp
    dsimp only at hp
    split at hp
    · split at hp
      · split at hp
        · cases hp
          exact (h.returns _ _).poised (returned_sound hs _ _) hr (Nat.zero_le 1)
        · cases hp
          exact (h.returns _ _).poised (returned_sound hs _ _) hr (Nat.zero_le 1)
        · cases hp
          trivial
      · exact hnone hp
    · cases hp
  | isrLeave =>
    unfold actAtSchedule at hp
    dsimp only at hp
    split at hp
    · cases hp
      exact (h.setMode .thread).poised (hs.congr rfl rfl rfl rfl rfl rfl) hr (Nat.zero_le 1)
    · exact hnone hp
  | tickLeave =>
    unfold actAtSchedule at hp
    dsimp only at hp
    rw [age_with byte_small] at hp
    split at hp
    · split at hp
      · cases hp
        have hs1 : Sound { l with mode := .thread } := hs.congr rfl rfl rfl rfl rfl rfl
        obtain ⟨hm, hr1⟩ := osAge_moves (b := { l with mode := .thread }) (a := .tickLeave) hs1 hr rfl
        exact (h.setMode .thread).age.poised (hm.sound hs1) hr1 (by split <;> omega)
      · cases hp
    · cases hp
  | _ => exact hnone hp

end

/-! ### Reachable states -/

/-- What the scheduler calculates stays within a byte in every state the system gets to from
`osInit`, so that with integers of any size it does the same. -/
theorem reachable_unwrapped (k : Kernel c Links) (h : Reachable k) :
    (∀ t, t ≠ osIdleTask → 1 ≤ k.priority t ∧ k.priority t ≤ 254 ∧
      1 ≤ (k.tasks t).basePriority ∧ (k.tasks t).basePriority ≤ 254) ∧
    (k.priority osIdleTask ≤ 255 ∧ (k.priority osIdleTask = 255 → k.currentTask = osIdleTask)) ∧
    (∀ a k' yield, k.actAtSchedule (· % 256) a = some (k', some yield) → Fits k' yield) ∧
    ∀ wrap : ℕ → ℕ, (∀ n ≤ 255, wrap n = n) → ∀ a, k.stepWith wrap a = k.step a := by
  obtain ⟨l, hl, hs⟩ := reachable_lists h
  have hrest := rest_of_reachable hl
  have hbounds := hrest.sound.bounded
  refine ⟨fun t ht => ?_, ⟨?_, fun hmain => ?_⟩, fun a k' yield hp => ?_, fun wrap hw a => ?_⟩
  · have hlow := hbounds.low t ht
    have hhigh := hbounds.high t ht
    rw [hs.priority, hs.tasks]
    exact ⟨hlow.1, hhigh.1, hlow.2, hhigh.2⟩
  · rw [hs.priority]
    exact hbounds.idle.1
  · rw [hs.priority] at hmain
    rw [hs.current]
    exact (hrest.sound.alive.running _ (hbounds.main hmain).1).symm
  · obtain ⟨hy, l', hs', hsound, -⟩ := act_poised hs hrest a hp
    exact hs'.fits hsound hy
  · rw [← stepWith_byte]
    unfold stepWith
    rw [actAtSchedule_with hw]
    cases hp : k.actAtSchedule (· % 256) a with
    | none => rfl
    | some p => rw [Option.map_some, Option.map_some, fromSchedule_with (act_poised hs hrest a hp) hw]

/-- Before `osRun` the idle task has 255, the highest anybody else can have is one less. -/
theorem reachable_unwrapped_taken : ∃ k, steps step (osInit (Config.default 2) Links)
    [.call (.osTaskCreate 1 255 false), .resume] = some k ∧
      k.priority osIdleTask = 255 ∧ k.priority 1 = 254 ∧ k.stepWith id .run = k.step .run := by
  have hrun : (steps step (osInit (Config.default 2) Links)
      [.call (.osTaskCreate 1 255 false), .resume]).map (fun k =>
        decide (k.priority osIdleTask = 255 ∧ k.priority 1 = 254)) = some true := by decide +kernel
  obtain ⟨k, hk, hp⟩ := Option.map_eq_some_iff.mp hrun
  obtain ⟨hidle, hone⟩ := of_decide_eq_true hp
  obtain ⟨-, -, -, hsame⟩ := reachable_unwrapped k (Reach.steps_reach _ (fun _ _ _ => trivial) .init hk)
  exact ⟨k, hk, hidle, hone, hsame id (fun _ _ => rfl) .run⟩

end AvrOs
