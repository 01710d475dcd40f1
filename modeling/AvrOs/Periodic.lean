import AvrOs.SoftTimers
import AvrOs.TickVars
import AvrOs.Timeouts

/-!
# Periodic tasks

`osDelayUntil` counts a period from the previous wake-up. A single comparison tells tasks
which are early or late apart, and what the task sleeps is exact. Tasks which have been woken
up early are the exception: more than one period ahead they look like late ones.
-/

namespace AvrOs
open Intrusive Circular Transition Kernel

variable {c : Config} {S : Type → Type → Type} [LinkStore S]

/-- The task which was put to sleep for `d` ticks, with `past` as its history, sleeps until
the counter is at `wake`, unless somebody suspends or deletes it before. -/
def SleepsUntil (t : Place c) (past : List (Event c)) (wake : OsTick c) (d : ℕ)
    (k : Kernel c S) : Prop :=
  (k.stateOf t = OS_TASK_BLOCKED ∧ ∃ n < d, k.history t = List.replicate n Event.ticked ++ past ∧
    left k.ticks wake = d - n) ∨
  ∃ n e, e :: (List.replicate n Event.ticked ++ past) <:+ k.history t ∧
    (n = d ∧ (∃ w, e = .woken t w false) ∨ n < d ∧ (e = .suspended t ∨ e = .deleted t))

omit [LinkStore S] in
/-- It sleeps to begin with. -/
theorem SleepsUntil.blocked {t : Place c} {wake : OsTick c} {d : ℕ} {k : Kernel c S}
    (h : SleepsUntil t (k.history t) wake d k) : k.stateOf t = OS_TASK_BLOCKED := by
  rcases h with ⟨hk, -⟩ | ⟨n, e, he, -⟩
  · exact hk
  · have hlen := he.length_le
    simp only [List.length_cons, List.length_append, List.length_replicate] at hlen
    omega

/-! ### The history of a task goes on -/

section
variable {t : Place c} {parks revives beats : Life c → Prop} {l l' : Life c}

theorem Stage.history_suffix (h : Stage t parks revives beats l l') : l.history <:+ l'.history := by
  cases h with
  | rest | returns | pause | goesOn | setWait | preempt | dispatch | owned | released =>
    exact List.suffix_refl _
  | called | returned | sleep | expired | handed | given | satisfied | killed | parked | revived
  | created | ticked => exact List.suffix_cons _ _
  | served => exact (List.suffix_cons _ _).trans (List.suffix_cons _ _)

theorem Lived.history_suffix (h : Lived t parks revives beats l l') : l.history <:+ l'.history :=
  h.keeps (I := fun x => l.history <:+ x.history) (fun _ _ hst hi => hi.trans hst.history_suffix)
    (List.suffix_refl _)

/-- As long as the counter stands still, a task which sleeps and waits for nothing is
suspended or deleted, or it goes on to sleep. -/
def DozesOn (t : Place c) (past : List (Event c)) (l : Life c) : Prop :=
  (l.kind = OS_TASK_BLOCKED ∧ l.waitList = none ∧ l.timeout ≠ some 0 ∧ l.history = past) ∨
    ∃ e, e :: past <:+ l.history ∧ (e = .suspended t ∨ e = .deleted t)

theorem Stage.dozesOn {past : List (Event c)} (hst : Stage t parks revives (fun _ => False) l l')
    (h : DozesOn t past l) : DozesOn t past l' := by
  rcases h with ⟨hk, hw, ht, hh⟩ | ⟨e, he, hcase⟩
  · cases hst with
    | rest | released => exact Or.inl ⟨hk, hw, ht, hh⟩
    | killed =>
      refine Or.inr ⟨.deleted t, ?_, Or.inr rfl⟩
      rw [← hh]
    | parked hk' hp =>
      refine Or.inr ⟨.suspended t, ?_, Or.inl rfl⟩
      rw [← hh]
    | expired hk' ht' => exact absurd ht' ht
    | handed m hk' hw' => rw [hw] at hw'; cases hw'
    | given w hk' hw' => rw [hw] at hw'; cases hw'
    | served e f o hk' hw' => rw [hw] at hw'; cases hw'
    | ticked hb => exact hb.elim
    | called x mine hk' | returns call v hk' | pause hk' | goesOn hk' | returned call v hk'
    | setWait w hk' | preempt hk' | dispatch hk' | sleep call list timeout hk'
    | satisfied e f o hk' | revived hk' | created hk' | owned m hk' =>
      rw [hk] at hk'
      simp at hk'
  · exact Or.inr ⟨e, he.trans hst.history_suffix, hcase⟩

end

/-! ### Step by step -/

section
variable {k k' : ListKernel c} {t : Place c} {past : List (Event c)} {wake : OsTick c} {d n : ℕ}

theorem Move.keeps_ticks (mv : Move c) (h : Sound k) (hg : mv.guard k) (hn : mv ≠ .tick) :
    (mv.apply k).ticks = k.ticks := by
  refine (mv.run h hg).keeps (I := fun s => s.ticks = k.ticks) h (fun s a hs hga ha hi => ?_) rfl
  refine ((a.kept hs hga).ticks fun he => ?_).trans hi
  subst he
  rcases (mv.uses_own _ ha).2 rfl with he | he
  · exact hn he
  · subst he
    exact hg.1

theorem step_keeps_ticks {a : Action c} (h : Rest k) (hs : k.step a = some k') (ha : a ≠ .tickEnter) :
    k'.ticks = k.ticks := by
  have hm := (step_moves h.sound h.running h.noDead hs).1
  exact (hm.invariant (I := fun s => Sound s ∧ s.ticks = k.ticks) (fun s mv hg hi =>
    ⟨mv.sound hi.1 hg.1, (mv.keeps_ticks hi.1 hg.1 fun he => by
      subst he
      exact ha hg.2.1).trans hi.2⟩) ⟨h.sound, rfl⟩).2

/-- The task has slept for `n` ticks and waits for nothing but the counter. -/
structure Asleep (t : Place c) (past : List (Event c)) (wake : OsTick c) (d n : ℕ)
    (k : ListKernel c) : Prop where
  blocked : k.stateOf t = OS_TASK_BLOCKED
  waitList : (k.tasks t).waitList = none
  history : k.history t = List.replicate n Event.ticked ++ past
  early : n < d
  left : left k.ticks wake + n = d

/-- How the sleep ended. -/
def Awoken (t : Place c) (past : List (Event c)) (d : ℕ) (k : ListKernel c) : Prop :=
  ∃ n e, e :: (List.replicate n Event.ticked ++ past) <:+ k.history t ∧
    (n = d ∧ (∃ w, e = .woken t w false) ∨ n < d ∧ (e = .suspended t ∨ e = .deleted t))

theorem ticked_history (n : ℕ) (past : List (Event c)) :
    sleepsFor (List.replicate n Event.ticked ++ past) = sleepsFor past ∧
      ticksAsleep (List.replicate n Event.ticked ++ past) = ticksAsleep past + n := by
  induction n with
  | zero => exact ⟨rfl, rfl⟩
  | succ n ih =>
    rw [List.replicate_succ]
    exact ⟨ih.1, congrArg (· + 1) ih.2⟩

theorem Asleep.tick {timeout : OsTick c} (h : OnTime k) (hs : k.step .tickEnter = some k')
    (hpast : sleepsFor past = some timeout ∧ timeout ≠ OS_WAIT_FOREVER c ∧ timeout.toNat = d)
    (hpast₀ : ticksAsleep past = 0) (hsl : Asleep t past wake d n k) :
    Asleep t past wake d (n + 1) k' ∨
      (n + 1 = d ∧ ∃ w, k'.history t = .woken t w false :: .ticked :: k.history t) := by
  obtain ⟨hfor, hforever, hd⟩ := hpast
  obtain ⟨hsleeps, hticks⟩ := ticked_history n past
  rw [← hsl.history] at hsleeps hticks
  have h' := h.step hs
  obtain ⟨-, -, hnow, -⟩ := step_tickEnter h.toRest hs
  have hleft := hsl.left
  have hearly := hsl.early
  rcases tickEnter_history h.sound hs t hsl.blocked with ⟨hk, hw, hh⟩ | ⟨w, hh⟩
  · obtain ⟨d', hd', hlate⟩ := h'.notLate t hk
    rw [hh] at hd' hlate
    have he : some d' = some timeout := hd'.symm.trans (hsleeps.trans hfor)
    injection he with he
    subst he
    have hlt : ticksAsleep (k.history t) + 1 < d'.toNat := (hlate hforever).2.1
    have htick := left_tick ((left_pos k.ticks wake).mp (by omega))
    refine Or.inl ⟨hk, hw.trans hsl.waitList, ?_, by omega, ?_⟩
    · rw [hh, hsl.history, List.replicate_succ]
      rfl
    · rw [hnow]
      omega
  · obtain ⟨d', hd', -, hsum⟩ := (h'.clock t).told w (.ticked :: k.history t)
      (by rw [← hh]; exact List.suffix_refl _)
    have he : some d' = some timeout := hd'.symm.trans (hsleeps.trans hfor)
    injection he with he
    subst he
    have hsum' : ticksAsleep (k.history t) + 1 = d'.toNat := hsum
    exact Or.inr ⟨by omega, w, hh⟩

theorem Asleep.step {a : Action c} {timeout : OsTick c} (h : OnTime k) (hs : k.step a = some k')
    (hpast : sleepsFor past = some timeout ∧ timeout ≠ OS_WAIT_FOREVER c ∧ timeout.toNat = d)
    (hpast₀ : ticksAsleep past = 0) (hsl : Asleep t past wake d n k) :
    Asleep t past wake d n k' ∨ Asleep t past wake d (n + 1) k' ∨ Awoken t past d k' := by
  by_cases ha : a = .tickEnter
  · subst ha
    rcases hsl.tick h hs hpast hpast₀ with hsl' | ⟨hn, w, hh⟩
    · exact Or.inr (Or.inl hsl')
    · refine Or.inr (Or.inr ⟨n + 1, .woken t w false, ?_, Or.inl ⟨hn, w, rfl⟩⟩)
      rw [hh, hsl.history, List.replicate_succ]
      exact List.suffix_refl _
  · have hl : Lived t (fun _ => True) (fun _ => True) (fun _ => False) (life k t) (life k' t) :=
      step_lived h.toRest hs t (fun _ _ _ => trivial) (fun _ _ _ => trivial) fun _ htick => ha htick.1
    have hdoze : DozesOn t (k.history t) (life k' t) := hl.keeps (fun _ _ hst hi => hst.dozesOn hi)
      (Or.inl ⟨hsl.blocked, hsl.waitList, h.timely.ahead_life h.sound.linked t, rfl⟩)
    rcases hdoze with ⟨hk, hw, -, hh⟩ | ⟨e, he, hcase⟩
    · refine Or.inl ⟨hk, hw, hh.trans hsl.history, hsl.early, ?_⟩
      rw [step_keeps_ticks h.toRest hs ha]
      exact hsl.left
    · rw [hsl.history] at he
      exact Or.inr (Or.inr ⟨n, e, he, Or.inr ⟨hsl.early, hcase⟩⟩)

theorem Awoken.step {a : Action c} (h : Rest k) (hs : k.step a = some k') (hw : Awoken t past d k) :
    Awoken t past d k' := by
  have hl : Lived t (fun _ => True) (fun _ => True) (fun _ => True) (life k t) (life k' t) :=
    step_lived h hs t (fun _ _ _ => trivial) (fun _ _ _ => trivial) fun _ _ => trivial
  obtain ⟨n, e, he, hcase⟩ := hw
  exact ⟨n, e, he.trans hl.history_suffix, hcase⟩

/-- A task which has seen nothing but ticks is still asleep. -/
theorem not_awoken (hh : k.history t = List.replicate n Event.ticked ++ past) : ¬ Awoken t past d k := by
  rintro ⟨i, e, he, hcase⟩
  have hne : e ≠ .ticked := by
    rintro rfl
    rcases hcase with ⟨-, w, hx⟩ | ⟨-, hx | hx⟩ <;> cases hx
  rw [hh] at he
  clear hh hcase
  induction n with
  | zero =>
    have hlen := he.length_le
    simp only [List.length_cons, List.length_append, List.length_replicate] at hlen
    omega
  | succ n ih =>
    rw [List.replicate_succ, List.cons_append] at he
    rcases List.suffix_cons_iff.mp he with he | he
    · injection he with he _
      exact hne he
    · exact ih he

/-- Whatever happens meanwhile, the sleep lasts as long as it has to. -/
theorem sleeps_on {timeout : OsTick c} (h : OnTime k) (hsl : Asleep t past wake d 0 k)
    (hpast : sleepsFor past = some timeout ∧ timeout ≠ OS_WAIT_FOREVER c ∧ timeout.toNat = d)
    (hpast₀ : ticksAsleep past = 0) (hr : Reach Kernel.step (fun _ _ => True) k k') :
    (∃ n, Asleep t past wake d n k') ∨ Awoken t past d k' := by
  have hi := hr.invariant
    (I := fun s => OnTime s ∧ ((∃ n, Asleep t past wake d n s) ∨ Awoken t past d s))
    ⟨h, Or.inl ⟨0, hsl⟩⟩ fun s a s' _ hcases _ hst => ⟨hcases.1.step hst, ?_⟩
  · exact hi.2
  · obtain ⟨hs, hcase⟩ := hcases
    rcases hcase with ⟨n, hn⟩ | hw
    · rcases hn.step hs hst hpast hpast₀ with h' | h' | h'
      · exact Or.inl ⟨n, h'⟩
      · exact Or.inl ⟨n + 1, h'⟩
      · exact Or.inr h'
    · exact Or.inr (hw.step hs.toRest hst)

/-- The current task goes to sleep and another one gets to run. -/
theorem block_life (h : Sound k) (hr : Running k) (hf : Open k) {call : Call c}
    {list : Option (WaitList c)} {timeout : OsTick c} (hi : k.currentTask ≠ osIdleTask)
    (ht : timeout ≠ 0) (hm : c.mutexInheritance = true → ∀ m, list ≠ some (.mutex m))
    (hb : Blockable k call timeout list) (rest : ListKernel c → Bool → ListKernel c) :
    life (k.blockThen call list timeout rest) k.currentTask = { life k k.currentTask with
      kind := OS_TASK_BLOCKED, waitList := list, frame := some (.blocked call)
      timeout := if timeout ≠ OS_WAIT_FOREVER c then some timeout else none
      history := .blocked k.currentTask list timeout :: k.history k.currentTask } := by
  have hg : (Move.block call list timeout).guard k := ⟨hi, hr, ht, hf, hm, hb⟩
  have hsame := settle_same k k.currentTask
  have hk : (k.osSettle k.currentTask).stateOf (k.osSettle k.currentTask).currentTask =
      OS_TASK_RUNNING := (hsame.running hr).kind
  have hsettled : Sound (k.osSettle k.currentTask) :=
    ((settle_moves hr (b := k) (a := .resume)).sound h)
  have hasleep : Sound ((k.osSettle k.currentTask).sleep call list timeout) :=
    (Move.block call list timeout).sound h hg
  have hkind : ((k.osSettle k.currentTask).sleep call list timeout).stateOf k.currentTask =
      OS_TASK_BLOCKED := by
    have := sleep_kind (k.osSettle k.currentTask) call list timeout hk
    rwa [hsame.current] at this
  have hlife := sleep_life hsettled call list timeout hk
  rw [hsame.current, hsame.life] at hlife
  have he : k.blockThen call list timeout rest =
      ((k.osSettle k.currentTask).sleep call list timeout).osDispatch := by
    unfold blockThen osBlock
    simp only [hi, if_false]
  rw [he, dispatch_other hasleep (by rw [sleep_current, hsame.current, hkind]; simp)
    (by rw [hkind]; simp), hlife]
  exact congrArg (fun past => { life k k.currentTask with
    kind := OS_TASK_BLOCKED, waitList := list, frame := some (.blocked call)
    timeout := if timeout ≠ OS_WAIT_FOREVER c then some timeout else none
    history := .blocked k.currentTask list timeout :: past }) (congrArg Life.history (hsame.life _))

end

section
variable {k k' : ListKernel c} {call : Call c} {timeout : OsTick c}

/-- Whoever waits for nothing but the counter is asleep from the call on. -/
theorem block_asleep (h : Sound k) (hr : Running k) (hf : Open k) (hi : k.currentTask ≠ osIdleTask)
    (ht : timeout ≠ 0) (hforever : timeout ≠ OS_WAIT_FOREVER c) (hb : Blockable k call timeout none)
    {rest : ListKernel c → Bool → ListKernel c} (he : k' = k.blockThen call none timeout rest)
    (hticks : k'.ticks = k.ticks) :
    Asleep k.currentTask (k'.history k.currentTask) (k.ticks + timeout) timeout.toNat 0 k' ∧
      ticksAsleep (k'.history k.currentTask) = 0 ∧
      sleepsFor (k'.history k.currentTask) = some timeout ∧ timeout ≠ OS_WAIT_FOREVER c := by
  have hlife := block_life h hr hf hi ht (by simp) hb rest
  rw [← he] at hlife
  have hhist : k'.history k.currentTask = .blocked k.currentTask none timeout :: k.history k.currentTask :=
    congrArg Life.history hlife
  have hpos : 0 < timeout.toNat := Nat.pos_of_ne_zero fun hz => ht (BitVec.eq_of_toNat_eq hz)
  refine ⟨⟨congrArg Life.kind hlife, congrArg Life.waitList hlife, rfl, hpos, ?_⟩, ?_, ?_, hforever⟩
  · rw [hticks, left_add, Nat.add_zero]
  · rw [hhist]
    rfl
  · rw [hhist]
    rfl

end

/-! ### The call -/

/-- Ticks until the counter is at `*previous + period`. -/
def ticksLeft (k : Kernel c S) (previous : Address) (period : OsTick c) : ℕ :=
  left k.ticks (k.tickVars previous + period)

/-- What a call does which does not wait. -/
def delayPasses (k : Kernel c S) (previous : Address) (period : OsTick c) : Kernel c S :=
  { k.emit (.called k.currentTask (.osDelayUntil previous period) false) with
    tickVars := Function.update k.tickVars previous (k.tickVars previous + period)
    frames := Function.update k.frames k.currentTask
      (some (.returning (.osDelayUntil previous period) .void)) }

section
variable {k k' : Kernel c S} {previous : Address} {period : OsTick c}

theorem delayUntil_step (hs : k.step (.call (.osDelayUntil previous period)) = some k') :
    k.userMode ∧
      k' = (k.emit (.called k.currentTask (.osDelayUntil previous period) false)).osDelayUntil
        previous period := by
  simp only [step] at hs
  split at hs
  case isTrue hc =>
    injection hs with hs
    exact ⟨hc.1, hs.symm⟩
  case isFalse => cases hs

theorem delayUntil_passes (hs : k.step (.call (.osDelayUntil previous period)) = some k')
    (hl : ¬ (0 < ticksLeft k previous period ∧ ticksLeft k previous period ≤ period.toNat)) :
    k' = delayPasses k previous period := by
  rw [(delayUntil_step hs).2]
  have hn : ¬ (k.tickVars previous + period - k.ticks) - 1 < period := fun hlt =>
    hl (pred_lt_iff.mp hlt)
  exact if_neg hn

end

section
variable {k k' : ListKernel c} {previous : Address} {period : OsTick c}

theorem delayUntil_sleeps (h : OnTime k)
    (hs : k.step (.call (.osDelayUntil previous period)) = some k')
    (hi : k.currentTask ≠ osIdleTask) (hp : period ≠ OS_WAIT_FOREVER c)
    (hl : 0 < ticksLeft k previous period ∧ ticksLeft k previous period ≤ period.toNat) :
    Asleep k.currentTask (k'.history k.currentTask) (k.tickVars previous + period)
        (ticksLeft k previous period) 0 k' ∧
      ticksAsleep (k'.history k.currentTask) = 0 ∧
      ∃ timeout, sleepsFor (k'.history k.currentTask) = some timeout ∧
        timeout ≠ OS_WAIT_FOREVER c ∧ timeout.toNat = ticksLeft k previous period := by
  have hticks := step_keeps_ticks h.toRest hs (by simp)
  obtain ⟨hmode, he⟩ := delayUntil_step hs
  have hfree : Open k := userMode_open hmode
  have hlt : (k.tickVars previous + period - k.ticks) - 1 < period := pred_lt_iff.mpr hl
  let s : ListKernel c :=
    { k.emit (.called k.currentTask (.osDelayUntil previous period) false) with
      tickVars := Function.update k.tickVars previous (k.tickVars previous + period) }
  have hsound : Sound s := h.sound.congr rfl rfl rfl rfl rfl rfl
  have hblockable : Blockable s (.osDelayUntil previous period)
      (k.tickVars previous + period - k.ticks) none := Or.inr ⟨previous, period, rfl⟩
  have hblock : k' = s.blockThen (.osDelayUntil previous period) none
      (k.tickVars previous + period - k.ticks)
      (fun k _ => k.returns (.osDelayUntil previous period) .void) := by
    rw [he]
    exact if_pos hlt
  have hforever : k.tickVars previous + period - k.ticks ≠ OS_WAIT_FOREVER c := by
    intro hf
    have hle := hl.2
    unfold ticksLeft left at hle
    rw [hf] at hle
    have hlt := period.isLt
    have hmax : (OS_WAIT_FOREVER c).toNat = 2 ^ c.tickBits - 1 := BitVec.toNat_allOnes
    exact hp (BitVec.eq_of_toNat_eq (by omega))
  obtain ⟨hasleep, hpast₀, hpast, -⟩ :=
    block_asleep hsound h.running hfree hi (not_late period _ hlt) hforever hblockable hblock hticks
  have hwake : k.ticks + (k.tickVars previous + period - k.ticks) = k.tickVars previous + period := by
    rw [BitVec.add_comm, BitVec.sub_add_cancel]
  refine ⟨?_, hpast₀, _, hpast, hforever, rfl⟩
  rw [← hwake]
  exact hasleep

/-- In a run the task sleeps as long as its timeout says. -/
theorem delayUntil_sleepsUntil (h : OnTime k)
    (hs : k.step (.call (.osDelayUntil previous period)) = some k')
    (hi : k.currentTask ≠ osIdleTask) (hp : period ≠ OS_WAIT_FOREVER c)
    (hl : 0 < ticksLeft k previous period ∧ ticksLeft k previous period ≤ period.toNat)
    {k'' : ListKernel c} (hr : Reach Kernel.step (fun _ _ => True) k' k'') :
    SleepsUntil k.currentTask (k'.history k.currentTask) (k.tickVars previous + period)
      (ticksLeft k previous period) k'' := by
  obtain ⟨hsl, hpast₀, timeout, hpast⟩ := delayUntil_sleeps h hs hi hp hl
  rcases sleeps_on (h.step hs) hsl hpast hpast₀ hr with ⟨n, hn⟩ | hw
  · exact Or.inl ⟨hn.blocked, n, hn.early, hn.history, by have := hn.left; omega⟩
  · exact Or.inr hw

theorem Sim.tickVars {k : Kernel c Links} {l : ListKernel c} (h : Sim k l) : k.tickVars = l.tickVars := by
  obtain ⟨s, rfl, -⟩ := h
  rfl

theorem Sim.ticksLeft {k : Kernel c Links} {l : ListKernel c} (h : Sim k l) (previous : Address)
    (period : OsTick c) : ticksLeft k previous period = ticksLeft l previous period := by
  rw [AvrOs.ticksLeft, AvrOs.ticksLeft, h.tickVars, h.timers.2]

theorem Sim.sleepsUntil {k : Kernel c Links} {l : ListKernel c} (h : Sim k l) {t : Place c}
    {past : List (Event c)} {wake : OsTick c} {d : ℕ} :
    SleepsUntil t past wake d k ↔ SleepsUntil t past wake d l := by
  rw [SleepsUntil, SleepsUntil, h.stateOf, h.history, h.timers.2]

theorem Sim.reach {k k' : Kernel c Links} {l : ListKernel c} (h : Sim k l) (hl : Rest l)
    (hr : Reach step (fun _ _ => True) k k') :
    ∃ l', Reach step (fun _ _ => True) l l' ∧ Sim k' l' :=
  hr.simulate h fun _ a _ _ ht hst _ hs => ⟨trivial,
    step_sim hst (ht.invariant hl fun _ _ _ _ hi _ hstep => hi.step hstep) a hs⟩

theorem onTime_of_reachable {l : ListKernel c} (h : Reachable l) : OnTime l :=
  h.invariant (I := OnTime) (init_onTime c) fun _ _ _ _ hi _ hst => hi.step hst

end

/-! ### Runs -/

/-- A call which moves the variable. -/
def Action.delays (previous : Address) : Action c → ℕ
  | .call (.osDelayUntil p _) => if p = previous then 1 else 0
  | _ => 0

def Action.ticks : Action c → ℕ
  | .tickEnter => 1
  | _ => 0

/-- The variable is moved by one period only, and by nobody else. -/
def KeepsTo (previous : Address) (period : OsTick c) : Action c → Prop
  | .call (.osDelayUntil p q) => p = previous → q = period
  | .setTickVar p _ => p ≠ previous
  | _ => True

def delaysIn (previous : Address) (as : List (Action c)) : ℕ :=
  (as.map (Action.delays previous)).sum

def ticksIn (as : List (Action c)) : ℕ := (as.map Action.ticks).sum

section
variable {previous : Address} {period : OsTick c} {as : List (Action c)}

theorem step_delays {k k' : Kernel c S} {a : Action c} (ha : KeepsTo previous period a)
    (hs : k.step a = some k') :
    k'.tickVars previous = k.tickVars previous +
      BitVec.ofNat _ (a.delays previous * period.toNat) := by
  by_cases hcall : ∃ q, a = .call (.osDelayUntil previous q)
  · obtain ⟨q, rfl⟩ := hcall
    have hq : q = period := ha rfl
    subst hq
    simp only [step, Option.ite_none_right_eq_some, Option.some.injEq] at hs
    have he := congrFun (osDelayUntil_tickVars
      (k.emit (.called k.currentTask (.osDelayUntil previous q) false)) previous q) previous
    rw [Function.update_self] at he
    rw [← hs.2]
    refine he.trans ?_
    simp [Action.delays, Kernel.emit]
  · have hzero : a.delays previous = 0 := by
      cases a with
      | call x =>
        cases x with
        | osDelayUntil p q =>
          refine if_neg fun hp => hcall ⟨q, ?_⟩
          rw [hp]
        | _ => rfl
      | _ => rfl
    have hset : ∀ x, a ≠ .setTickVar previous x := by
      rintro x rfl
      exact ha rfl
    rw [step_tickVars hs (fun q he => hcall ⟨q, he⟩) hset, hzero]
    simp

/-- The variable is as many periods ahead as there were calls. -/
theorem steps_delays {k k' : Kernel c S} (ha : ∀ a ∈ as, KeepsTo previous period a)
    (hs : steps step k as = some k') :
    k'.tickVars previous = k.tickVars previous +
      BitVec.ofNat _ (delaysIn previous as * period.toNat) := by
  induction as generalizing k with
  | nil =>
    injection hs with hs
    subst hs
    simp [delaysIn]
  | cons a as ih =>
    obtain ⟨k₁, h₁, h₂⟩ := Option.bind_eq_some_iff.mp hs
    rw [ih (fun b hb => ha b (List.mem_cons_of_mem a hb)) h₂,
      step_delays (ha a List.mem_cons_self) h₁, BitVec.add_assoc, ← BitVec.ofNat_add, ← Nat.add_mul]
    rfl

theorem steps_ticks {k k' : ListKernel c} (h : Rest k) (hs : steps step k as = some k') :
    k'.ticks = k.ticks + BitVec.ofNat _ (ticksIn as) := by
  induction as generalizing k with
  | nil =>
    injection hs with hs
    subst hs
    simp [ticksIn]
  | cons a as ih =>
    obtain ⟨k₁, h₁, h₂⟩ := Option.bind_eq_some_iff.mp hs
    have hone : k₁.ticks = k.ticks + BitVec.ofNat _ a.ticks := by
      by_cases ht : a = .tickEnter
      · subst ht
        exact (step_tickEnter h h₁).2.2.1
      · have hz : a.ticks = 0 := by
          cases a <;> first | rfl | exact absurd rfl ht
        rw [step_keeps_ticks h h₁ ht, hz]
        simp
    rw [ih (h.step h₁) h₂, hone, BitVec.add_assoc, ← BitVec.ofNat_add]
    rfl

end

/-! ### Every run -/

/-- What a call does `d` ticks after the time in the variable. -/
structure DelaysExactly (k k' : Kernel c Links) (previous : Address) (period : OsTick c) (d : ℕ) :
    Prop where
  next : k'.tickVars = Function.update k.tickVars previous (k.tickVars previous + period)
  blocks : k'.stateOf k.currentTask = OS_TASK_BLOCKED ↔ d < period.toNat
  sleeps : d < period.toNat → ∀ k'', Reach step (fun _ _ => True) k' k'' →
    SleepsUntil k.currentTask (k'.history k.currentTask) (k.tickVars previous + period)
      (period.toNat - d) k''
  passes : period.toNat ≤ d → k' = delayPasses k previous period

/-- The tick which ends a sleep is the one the counter was to be at. -/
def WakesAt (k k' : Kernel c Links) (wake : OsTick c) : Prop :=
  ∀ k₁ k₂ n, Reach step (fun _ _ => True) k' k₁ → k₁.stateOf k.currentTask = OS_TASK_BLOCKED →
    k₁.history k.currentTask = List.replicate n Event.ticked ++ k'.history k.currentTask →
    k₁.step .tickEnter = some k₂ → (k₂.ticks = wake ↔
      ∃ w, k₂.history k.currentTask = .woken k.currentTask w false :: .ticked :: k₁.history k.currentTask)

section
variable {previous : Address} {period : OsTick c} {d : ℕ}

omit [LinkStore S] in
/-- The counter has gone on by `d` since the time in the variable. -/
theorem ticksLeft_of_late {P : OsTick c} {k : Kernel c S}
    (hd : k.ticks = k.tickVars previous + BitVec.ofNat _ d)
    (hlt : d < 2 ^ c.tickBits) :
    (0 < ticksLeft k previous P ∧ ticksLeft k previous P ≤ P.toNat ↔
      d < P.toNat) ∧ (d < P.toNat → ticksLeft k previous P = P.toNat - d) := by
  have hl : left k.ticks (k.tickVars previous + P) = _ := left_period hd hlt
  have hp := P.isLt
  unfold ticksLeft
  split at hl
  · constructor
    · omega
    · omega
  · constructor
    · omega
    · omega

theorem delays_of_sim {k k' : Kernel c Links} {l : ListKernel c} (hsim : Sim k l) (h : OnTime l)
    (hs : k.step (.call (.osDelayUntil previous period)) = some k')
    (hi : k.currentTask ≠ osIdleTask) (hp : period ≠ OS_WAIT_FOREVER c)
    (hd : k.ticks = k.tickVars previous + BitVec.ofNat _ d) (hlt : d < 2 ^ c.tickBits) :
    DelaysExactly k k' previous period d ∧
      (d < period.toNat → WakesAt k k' (k.tickVars previous + period)) := by
  obtain ⟨l', hs', hsim'⟩ := step_sim hsim h.toRest _ hs
  obtain ⟨hiff, hleft⟩ := ticksLeft_of_late (P := period) hd hlt
  have hi' : l.currentTask ≠ osIdleTask := hsim.current ▸ hi
  have hlate : period.toNat ≤ d → k' = delayPasses k previous period := fun hle =>
    delayUntil_passes hs fun hl => absurd (hiff.mp hl) (by omega)
  have hgo : d < period.toNat → 0 < ticksLeft l previous period ∧
      ticksLeft l previous period ≤ period.toNat := fun hlt => by
    rw [← hsim.ticksLeft]
    exact hiff.mpr hlt
  refine ⟨⟨?_, ?_, fun hlt k'' hr => ?_, hlate⟩, fun hlt k₁ k₂ n hr hb hh htick => ?_⟩
  · rw [(delayUntil_step hs).2, osDelayUntil_tickVars]
    rfl
  · constructor
    · intro hb
      by_contra hle
      have hk : k'.stateOf k.currentTask = OS_TASK_RUNNING := by
        rw [hlate (by omega)]
        exact (hsim.stateOf _).trans (hsim.current ▸ h.running.kind)
      rw [hk] at hb
      simp at hb
    · intro hlt
      rw [hsim'.stateOf, hsim.current]
      exact (delayUntil_sleeps h hs' hi' hp (hgo hlt)).1.blocked
  · obtain ⟨l'', hr', hsim''⟩ := hsim'.reach (h.toRest.step hs') hr
    rw [hsim''.sleepsUntil, hsim'.history, hsim.current, hsim.tickVars, ← hleft hlt, hsim.ticksLeft]
    exact delayUntil_sleepsUntil h hs' hi' hp (hgo hlt) hr'
  · obtain ⟨l₁, hr₁, hsim₁⟩ := hsim'.reach (h.toRest.step hs') hr
    obtain ⟨hsl, hpast₀, timeout, hpast⟩ := delayUntil_sleeps h hs' hi' hp (hgo hlt)
    have htime₁ : OnTime l₁ := hr₁.invariant (h.step hs') fun _ _ _ _ hi _ hst => hi.step hst
    obtain ⟨l₂, htick', hsim₂⟩ := step_sim hsim₁ htime₁.toRest _ htick
    rw [hsim₁.history, hsim'.history, hsim.current] at hh
    rw [hsim₂.timers.2, hsim₂.history, hsim₁.history, hsim.current, hsim.tickVars]
    obtain ⟨i, hsl₁⟩ := (sleeps_on (h.step hs') hsl hpast hpast₀ hr₁).resolve_right (not_awoken hh)
    rcases hsl₁.tick htime₁ htick' hpast hpast₀ with hsl₂ | ⟨hn, w, hw⟩
    · refine ⟨fun he => ?_, fun hw => ?_⟩
      · have hzero := (left_eq_zero l₂.ticks _).mpr he.symm
        have := hsl₂.left
        have := hsl₂.early
        omega
      · obtain ⟨w, hw⟩ := hw
        rw [hsl₂.history, List.replicate_succ] at hw
        injection hw with hw _
        cases hw
    · refine ⟨fun _ => ⟨w, hw⟩, fun _ => ?_⟩
      -- the last tick of the sleep takes the counter to its end
      obtain ⟨-, -, hnow, -⟩ := step_tickEnter htime₁.toRest htick'
      have hleft₁ := hsl₁.left
      have hone := left_tick ((left_pos l₁.ticks (l.tickVars previous + period)).mp (by omega))
      rw [hnow]
      exact ((left_eq_zero _ _).mp (by omega)).symm

theorem schedule_of_sim {k k' : Kernel c Links} {l : ListKernel c} (hsim : Sim k l) (h : OnTime l)
    (hs : k.step (.call (.osDelayUntil previous period)) = some k')
    (hi : k.currentTask ≠ osIdleTask) (hp : period ≠ OS_WAIT_FOREVER c)
    (ha : 0 < ticksLeft k previous period) :
    (∀ k'', Reach step (fun _ _ => True) k' k'' → SleepsUntil k.currentTask
        (k'.history k.currentTask) (k.tickVars previous + period) (ticksLeft k previous period) k'') ↔
      ticksLeft k previous period ≤ period.toNat := by
  obtain ⟨l', hs', hsim'⟩ := step_sim hsim h.toRest _ hs
  have hi' : l.currentTask ≠ osIdleTask := hsim.current ▸ hi
  rw [hsim.ticksLeft] at ha ⊢
  constructor
  · intro hsl
    by_contra hle
    have hb := (hsl k' .init).blocked
    have hk : l'.stateOf l.currentTask = OS_TASK_RUNNING := by
      rw [delayUntil_passes hs' fun hl => hle hl.2]
      exact h.running.kind
    rw [hsim'.stateOf, hsim.current, hk] at hb
    simp at hb
  · intro hle k'' hr
    obtain ⟨l'', hr', hsim''⟩ := hsim'.reach (h.toRest.step hs') hr
    rw [hsim''.sleepsUntil, hsim'.history, hsim.current, hsim.tickVars]
    exact delayUntil_sleepsUntil h hs' hi' hp ⟨ha, hle⟩ hr'

end

/-- After any number of calls with one period the variable is that many periods ahead, and
whoever calls `d` ticks after the time in it sleeps for what is left of the period. -/
theorem delays_exactly {k₀ k : Kernel c Links} {as : List (Action c)} {previous : Address}
    {period : OsTick c} (h : Reachable k₀) (hkeep : ∀ a ∈ as, KeepsTo previous period a)
    (hrun : steps step k₀ as = some k) (hp : period.toNat + 2 ≤ 2 ^ c.tickBits) :
    k.tickVars previous =
        k₀.tickVars previous + BitVec.ofNat _ (delaysIn previous as * period.toNat) ∧
      ∀ d₀ d k', k₀.ticks = k₀.tickVars previous + BitVec.ofNat _ d₀ →
        d₀ + ticksIn as = delaysIn previous as * period.toNat + d → d < 2 ^ c.tickBits →
        k.currentTask ≠ osIdleTask → k.step (.call (.osDelayUntil previous period)) = some k' →
        DelaysExactly k k' previous period d ∧
          (d < period.toNat → WakesAt k k' (k.tickVars previous + period)) := by
  have hmoved := steps_delays hkeep hrun
  refine ⟨hmoved, fun d₀ d k' hd₀ hd hlt hi hs => ?_⟩
  obtain ⟨l₀, hl₀, hsim₀⟩ := reachable_lists h
  have htime₀ := onTime_of_reachable hl₀
  obtain ⟨l, hrun', hsim⟩ := steps_sim as hsim₀ htime₀.toRest hrun
  have hl : Reachable l := Reach.steps_reach as (fun _ _ _ => trivial) hl₀ hrun'
  have hticks : k.ticks = k₀.ticks + BitVec.ofNat _ (ticksIn as) := by
    rw [hsim.timers.2, hsim₀.timers.2]
    exact steps_ticks htime₀.toRest hrun'
  refine delays_of_sim hsim (onTime_of_reachable hl) hs hi ?_ ?_ hlt
  · rintro rfl
    rw [show (OS_WAIT_FOREVER c).toNat = 2 ^ c.tickBits - 1 from BitVec.toNat_allOnes] at hp
    omega
  · rw [hticks, hd₀, hmoved, BitVec.add_assoc, BitVec.add_assoc, ← BitVec.ofNat_add,
      ← BitVec.ofNat_add, hd]

/-- A task with a variable which holds the time it was created, just before the counter wraps. -/
def periodicTask : List (Action (Config.overflow 1)) :=
  [.call (.osTaskCreate 1 3 false), .resume, .run, .setTickVar 0 65534]

/-- The task waits for its first period and is late by one tick for the second. -/
def firstPeriod : List (Action (Config.overflow 1)) :=
  [.call (.osDelayUntil 0 3), .resume, .tickEnter, .tickLeave, .resume, .tickEnter, .tickLeave,
    .resume, .tickEnter, .tickLeave, .resume, .resume, .tickEnter, .tickLeave, .resume]

def secondPeriod : Option Bool :=
  (steps step (osInit _ Links) periodicTask).bind fun k₀ =>
    (steps step k₀ firstPeriod).bind fun k =>
      (k.step (.call (.osDelayUntil 0 3))).map fun _ =>
        decide (k₀.ticks = k₀.tickVars 0 + BitVec.ofNat _ 0 ∧ k.currentTask ≠ osIdleTask)

/-- The counter has wrapped around since, and the task sleeps for the two ticks left. -/
theorem delays_exactly_taken : ∃ k₀ k k' : Kernel (Config.overflow 1) Links,
    steps step (osInit _ Links) periodicTask = some k₀ ∧ steps step k₀ firstPeriod = some k ∧
      k.step (.call (.osDelayUntil 0 3)) = some k' ∧ k.tickVars 0 = k₀.tickVars 0 + 3 ∧
      DelaysExactly k k' 0 3 1 ∧ WakesAt k k' (k.tickVars 0 + 3) := by
  have hrun : secondPeriod = some true := by decide +kernel
  obtain ⟨k₀, hk₀, hrun⟩ := Option.bind_eq_some_iff.mp hrun
  obtain ⟨k, hk, hrun⟩ := Option.bind_eq_some_iff.mp hrun
  obtain ⟨k', hk', hrun⟩ := Option.map_eq_some_iff.mp hrun
  obtain ⟨hd₀, hi⟩ := of_decide_eq_true hrun
  have hkeep : ∀ a ∈ firstPeriod, KeepsTo 0 3 a := by simp [firstPeriod, KeepsTo]
  obtain ⟨hmoved, hcall⟩ := delays_exactly (Reach.steps_reach _ (fun _ _ _ => trivial) .init hk₀)
    hkeep hk (by decide)
  obtain ⟨hexact, hwakes⟩ := hcall 0 1 k' hd₀ (by decide) (by decide) hi hk'
  exact ⟨k₀, k, k', hk₀, hk, hk', hmoved, hexact, hwakes (by decide)⟩

/-- A task which is ahead of its schedule sleeps until the time it has set if and only if that
is one period away at most, which is to say that the time before has come already. -/
theorem schedule_kept_iff {k k' : Kernel c Links} {previous : Address} {period : OsTick c}
    (h : Reachable k) (hs : k.step (.call (.osDelayUntil previous period)) = some k')
    (hi : k.currentTask ≠ osIdleTask) (hp : 1 ≤ period.toNat ∧ period.toNat < 2 ^ (c.tickBits - 2))
    (ha : 0 < ticksLeft k previous period ∧ ticksLeft k previous period < 2 ^ (c.tickBits - 1)) :
    (∀ k'', Reach step (fun _ _ => True) k' k'' → SleepsUntil k.currentTask
        (k'.history k.currentTask) (k.tickVars previous + period) (ticksLeft k previous period) k'') ↔
      ticksLeft k previous period ≤ period.toNat := by
  obtain ⟨l, hl, hsim⟩ := reachable_lists h
  refine schedule_of_sim hsim (onTime_of_reachable hl) hs hi ?_ ha.1
  rintro rfl
  have hmax : (OS_WAIT_FOREVER c).toNat = 2 ^ c.tickBits - 1 := BitVec.toNat_allOnes
  have hbits : 2 ^ c.tickBits = 4 * 2 ^ (c.tickBits - 2) := by
    rw [show (4 : ℕ) = 2 ^ 2 from rfl, ← pow_add]
    congr 1
    unfold Config.tickBits
    split <;> rfl
  have hpos : 0 < 2 ^ (c.tickBits - 2) := Nat.two_pow_pos _
  omega

/-- The wait of a periodic task is over early, as the task is suspended and resumed. -/
def wokenEarly : List (Action (Config.default 1)) :=
  [.call (.osTaskCreate 1 3 false), .resume, .run, .call (.osDelayUntil 0 2), .resume,
    .call (.osTaskSuspend (some 1)), .resume, .call (.osTaskResume 1), .resume, .resume]

/-- A periodic task is suspended, and resumed one tick after it would have been woken up. -/
def resumedLate : List (Action (Config.default 1)) :=
  [.call (.osTaskCreate 1 3 false), .resume, .run, .call (.osDelayUntil 0 2), .resume,
    .call (.osTaskSuspend (some 1)), .resume, .tickEnter, .tickLeave, .resume, .tickEnter, .tickLeave,
    .resume, .tickEnter, .tickLeave, .resume, .call (.osTaskResume 1), .resume, .resume]

/-- A task which is ahead of its schedule waits for its next period. -/
def aheadAfter (as : List (Action (Config.default 1)))
    (check : Kernel (Config.default 1) Links → Kernel (Config.default 1) Links → Bool) : Option Bool :=
  (steps step (osInit _ Links) as).bind fun k =>
    (k.step (.call (.osDelayUntil 0 2))).map fun k' =>
      decide (k.currentTask ≠ osIdleTask ∧
        (0 < ticksLeft k 0 2 ∧ ticksLeft k 0 2 < 2 ^ 15) ∧ check k k' = true)

theorem aheadAfter_ahead (as : List (Action (Config.default 1)))
    (check : Kernel (Config.default 1) Links → Kernel (Config.default 1) Links → Bool)
    (h : aheadAfter as check = some true) : ∃ k k' : Kernel (Config.default 1) Links,
      Reachable k ∧ k.step (.call (.osDelayUntil 0 2)) = some k' ∧ k.currentTask ≠ osIdleTask ∧
        (0 < ticksLeft k 0 2 ∧ ticksLeft k 0 2 < 2 ^ 15) ∧ check k k' = true := by
  obtain ⟨k, hk, h⟩ := Option.bind_eq_some_iff.mp h
  obtain ⟨k', hk', h⟩ := Option.map_eq_some_iff.mp h
  obtain ⟨hi, ha, hcheck⟩ := of_decide_eq_true h
  exact ⟨k, k', Reach.steps_reach _ (fun _ _ _ => trivial) .init hk, hk', hi, ha, hcheck⟩

/-- The task goes on without waiting although it is four ticks ahead. -/
theorem schedule_not_kept : ¬ ∀ (k k' : Kernel (Config.default 1) Links) (previous : Address)
    (period : OsTick _), Reachable k → k.step (.call (.osDelayUntil previous period)) = some k' →
      k.currentTask ≠ osIdleTask → 1 ≤ period.toNat ∧ period.toNat < 2 ^ ((Config.default 1).tickBits - 2) →
      0 < ticksLeft k previous period ∧ ticksLeft k previous period < 2 ^ ((Config.default 1).tickBits - 1) →
      ∀ k'', Reach step (fun _ _ => True) k' k'' → SleepsUntil k.currentTask
        (k'.history k.currentTask) (k.tickVars previous + period) (ticksLeft k previous period) k'' := by
  intro h
  obtain ⟨k, k', hk, hs, hi, ha, hcheck⟩ := aheadAfter_ahead wokenEarly
    (fun k k' => decide (ticksLeft k 0 2 = 4 ∧ k'.stateOf k.currentTask = OS_TASK_RUNNING))
    (by decide +kernel)
  have hb := (h k k' 0 2 hk hs hi (by decide) ha k' .init).blocked
  rw [(of_decide_eq_true hcheck).2] at hb
  exact absurd hb (by decide)

/-- The one tick left of its second period is what the task waits for. -/
theorem schedule_kept_taken : ∃ k k' : Kernel (Config.default 1) Links,
    k.step (.call (.osDelayUntil 0 2)) = some k' ∧ ∀ k'', Reach step (fun _ _ => True) k' k'' →
      SleepsUntil k.currentTask (k'.history k.currentTask) (k.tickVars 0 + 2) 1 k'' := by
  obtain ⟨k, k', hk, hs, hi, ha, hcheck⟩ := aheadAfter_ahead resumedLate
    (fun k _ => decide (ticksLeft k 0 2 = 1)) (by decide +kernel)
  have hleft : ticksLeft k 0 2 = 1 := of_decide_eq_true hcheck
  have hkept := (schedule_kept_iff hk hs hi (by decide) ha).mpr (hleft.trans_le (by decide))
  rw [hleft] at hkept
  exact ⟨k, k', hs, hkept⟩

end AvrOs
