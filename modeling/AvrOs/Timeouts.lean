import AvrOs.Circular.Deadlines
import AvrOs.Consistency
import AvrOs.Lives

/-!
# Timeouts

The list of tasks with a timeout is in order of the ticks left, so the tick handler has to
look at its front only. What the clock says is compared with the ticks in the history.
-/

namespace AvrOs
open Intrusive Circular Transition Kernel

variable {c : Config}

/-- What the task has gone to sleep for. -/
def sleepsFor : List (Event c) → Option (OsTick c)
  | [] => none
  | .blocked _ _ timeout :: _ => some timeout
  | _ :: past => sleepsFor past

/-! ### The list -/

/-- When the task gives up. -/
def wakeOf (k : ListKernel c) (t : Place c) : OsTick c := (k.tasks t).wake

/-- Tasks with a timeout are in order of what is left of it, which is something. -/
structure Timely (k : ListKernel c) : Prop where
  order : InTime k.ticks (wakeOf k) (k.timerLinks ())
  ahead : ∀ t ∈ k.timerLinks (), wakeOf k t ≠ k.ticks

section
variable {k k' : ListKernel c}

theorem Timely.sublist (h : Timely k) (ht : k'.ticks = k.ticks)
    (hs : (k'.timerLinks ()).Sublist (k.timerLinks ()))
    (hw : ∀ t ∈ k'.timerLinks (), wakeOf k' t = wakeOf k t) : Timely k' where
  order := by
    rw [ht]
    exact (h.order.sublist hs).congr hw
  ahead t hm := by
    rw [ht, hw t hm]
    exact h.ahead t (hs.subset hm)

/-- Nobody joins the list and the clock stands still. -/
structure Waits (k k' : ListKernel c) : Prop where
  ticks : k'.ticks = k.ticks
  list : (k'.timerLinks ()).Sublist (k.timerLinks ())
  wake : ∀ t ∈ k'.timerLinks (), wakeOf k' t = wakeOf k t

theorem Waits.refl (k : ListKernel c) : Waits k k :=
  ⟨rfl, List.Sublist.refl _, fun _ _ => rfl⟩

theorem Waits.trans {k₁ k₂ : ListKernel c} (h : Waits k k₁) (h' : Waits k₁ k₂) : Waits k k₂ :=
  ⟨h'.ticks.trans h.ticks, h'.list.trans h.list,
    fun t ht => (h'.wake t ht).trans (h.wake t (h'.list.subset ht))⟩

theorem Waits.same (ht : k'.ticks = k.ticks) (hl : k'.timerLinks = k.timerLinks)
    (hw : ∀ t, wakeOf k' t = wakeOf k t) : Waits k k' :=
  ⟨ht, by rw [hl], fun t _ => hw t⟩

theorem wakeOf_update {t : Place c} {x : OsTask c} (h : k'.tasks = Function.update k.tasks t x)
    (hx : x.wake = (k.tasks t).wake) (u : Place c) : wakeOf k' u = wakeOf k u := by
  unfold wakeOf
  rw [h]
  exact update_wake k.tasks t u x hx

theorem Waits.update {t : Place c} {x : OsTask c} (h : k'.tasks = Function.update k.tasks t x)
    (hx : x.wake = (k.tasks t).wake) (ht : k'.ticks = k.ticks) (hl : k'.timerLinks = k.timerLinks) :
    Waits k k' := .same ht hl fun u => wakeOf_update h hx u

/-- Tasks, clock and list are the same to begin with. -/
theorem Waits.still {k₁ : ListKernel c} (h : Waits k₁ k') (htk : k₁.tasks = k.tasks)
    (ht : k₁.ticks = k.ticks) (hl : k₁.timerLinks = k.timerLinks) : Waits k k' :=
  Waits.trans (.same ht hl fun u => by rw [wakeOf, htk, wakeOf]) h

theorem offTimer_sublist (k : ListKernel c) (t : Place c) :
    (k.offTimer t ()).Sublist (k.timerLinks ()) := by
  unfold offTimer
  split
  · exact Lists.remove_sublist ..
  · exact List.Sublist.refl _

theorem wake_waits (k : ListKernel c) (t : Place c) (r : Bool) : Waits k (k.osWake t r) := by
  have hw : ∀ u, wakeOf (k.osWake t r) u = wakeOf k u := fun u =>
    wakeOf_update (congrArg Kernel.tasks (osWake_eq k t r)) rfl u
  refine ⟨?_, ?_, fun u _ => hw u⟩
  · rw [osWake_eq]
  · rw [osWake_eq]
    exact offTimer_sublist k t

theorem detach_waits (h : Linked k) (t : Place c) : Waits k (k.osTaskDetach t) := by
  refine ⟨?_, ?_, fun u _ => wakeOf_update (detach_task h t) rfl u⟩
  · unfold osTaskDetach
    split
    · rfl
    · rw [osUnblock_eq]
  · unfold osTaskDetach
    split
    · exact List.Sublist.refl _
    · rw [osUnblock_eq]
      exact offTimer_sublist k t

theorem pass_waits (k : ListKernel c) (m : Place c) : Waits k (k.osMutexPass m) := by
  rcases pass_cases k m with ⟨w, rest, -, he⟩ | ⟨-, he⟩
  · rw [he]
    refine (wake_waits _ w true).still ?_ ?_ ?_
    · rw [osMutexOwn_eq]
    · rw [osMutexOwn_eq]
    · rw [osMutexOwn_eq]
  · rw [he]
    exact .same rfl rfl fun _ => rfl

theorem append_waits (k : ListKernel c) (q : Place c) (item : Address) :
    Waits k (k.osQueueAppend q item) := by
  refine (Waits.refl _).still (append_tasks k q item) ?_ ?_
  · simp only [osQueueAppend, setQueue, Kernel.emit]
  · simp only [osQueueAppend, setQueue, Kernel.emit]

theorem consume_waits (k : ListKernel c) (e : Place c) (matched options : Byte) :
    Waits k (k.osEventConsume e matched options) := by
  unfold osEventConsume
  split
  · exact .same rfl rfl fun _ => rfl
  · exact .refl k

/-- Nobody is put on the list but a task which sleeps, and the clock goes on with the tick. -/
theorem Atom.waits (a : Atom c) (h : Sound k) (hg : a.guard k) (ht : a ≠ .tick)
    (hs : ∀ call list timeout, a ≠ .sleep call list timeout) : Waits k (a.apply k) := by
  cases a with
  | tick => exact absurd rfl ht
  | sleep call list timeout => exact absurd rfl (hs call list timeout)
  | called | returns | pause | timerCalled | quiet | mutexInit | semaphoreInit | queueInit | take
  | flagsSet | flagsClear | eventInit | bury | reap => exact .same rfl rfl fun _ => rfl
  | leave =>
    rcases leave_cases k with ⟨call, value, -, he⟩ | ⟨-, he⟩
    · rw [apply, he]
      exact .same rfl rfl fun _ => rfl
    · rw [apply, he]
      exact .same rfl rfl fun _ => rfl
  | start | settle | setBase | flag | unflag | setWait =>
    exact .update rfl rfl rfl rfl
  | preempt key => exact .update (t := k.currentTask) rfl rfl rfl rfl
  | requeue t p =>
    exact .update (requeue_tasks k t p) rfl (requeue_same k t p).ticks (requeue_timers k t p)
  | dispatch =>
    obtain ⟨-, n, hn⟩ := osDispatch_sound h hg
    refine .update (congrArg Kernel.tasks (osDispatch_eq k n hn)) rfl ?_ ?_
    · rw [apply, osDispatch_eq k n hn]
    · rw [apply, osDispatch_eq k n hn]
  | expire t => exact wake_waits k t false
  | kill t =>
    exact (detach_waits h.linked t).trans (.update (t := t) rfl rfl rfl rfl)
  | park t =>
    have hresult : Waits (k.osTaskDetach t) ((k.osTaskDetach t).setResult t false) :=
      .update (t := t) rfl rfl rfl rfl
    exact (detach_waits h.linked t).trans (hresult.trans (.update (t := t) rfl rfl rfl rfl))
  | unpark t =>
    refine .update (congrArg Kernel.tasks (osReady_eq (k.emit (.resumed t)) t)) rfl ?_ ?_
    · rw [apply, osReady_eq]
      rfl
    · rw [apply, osReady_eq]
      rfl
  | create t p d =>
    -- a dead task is not on the list
    have hnt : t ∉ k.timerLinks () := fun hm => by
      have hb := h.linked.2 t |>.timed ((h.linked.2 t).timer.mp hm)
      rw [show (k.tasks t).state &&& OS_TASK_STATE = OS_TASK_DEAD from hg.1] at hb
      simp at hb
    refine ⟨rfl, List.Sublist.refl _, fun u hu => ?_⟩
    have hut : u ≠ t := by
      rintro rfl
      exact hnt hu
    rw [apply]
    unfold osTaskSetup
    rw [osReady_eq]
    simp [wakeOf, setTask, setFrame, Kernel.emit, hut]
  | own m =>
    refine (Waits.refl _).still ?_ ?_ ?_
    · rw [apply, osMutexOwn_eq]
    · rw [apply, osMutexOwn_eq]
    · rw [apply, osMutexOwn_eq]
  | release t m =>
    rw [apply, release_eq]
    exact (pass_waits { k with ownedLinks := offOwned k t m } m).still rfl rfl rfl
  | give s =>
    rw [apply]
    rcases give_cases k s with ⟨w, rest, -, he⟩ | ⟨-, -, he⟩ | ⟨-, -, he⟩
    · rw [he]
      exact (wake_waits (k.emit (.gave s)) w true).still rfl rfl rfl
    · rw [he]
      exact .same rfl rfl fun _ => rfl
    · rw [he]
      exact .same rfl rfl fun _ => rfl
  | send q item =>
    rw [apply]
    rcases send_cases k q item with ⟨w, rest, -, -, he⟩ | ⟨-, -, he⟩ | ⟨-, -, he⟩
    · rw [he]
      refine (wake_waits _ w true).still (hand_tasks k q item _) ?_ ?_
      · simp only [osQueueHand, Kernel.emit]
      · simp only [osQueueHand, Kernel.emit]
    · rw [he]
      exact append_waits k q item
    · rw [he]
      exact .refl k
  | receive q item =>
    have htake : Waits k (k.osQueueTake q item) := by
      refine (Waits.refl _).still (take_tasks k q item) ?_ ?_
      · simp only [osQueueTake, setQueue, Kernel.emit]
      · simp only [osQueueTake, setQueue, Kernel.emit]
    rw [apply]
    rcases receive_cases k q item with ⟨w, rest, -, -, he⟩ | ⟨-, -, he⟩ | ⟨-, he⟩
    · rw [he]
      exact (htake.trans (append_waits _ q _)).trans (wake_waits _ w true)
    · rw [he]
      exact htake
    · rw [he]
      exact .refl k
  | consume e wanted options =>
    exact (consume_waits k e _ options).trans (.same rfl rfl fun _ => rfl)
  | serve e t =>
    rw [apply]
    rcases serve_cases k e t with ⟨-, he⟩ | ⟨matched, options, -, -, -, he⟩
    · rw [he]
      exact .same rfl rfl fun _ => rfl
    · have hc : Waits k ((k.emit (.visited e t)).osEventConsume e matched options) :=
        (consume_waits (k.emit (.visited e t)) e matched options).still rfl rfl rfl
      rw [he]
      refine Waits.trans (hc.trans ?_) (wake_waits _ t true)
      exact .update (t := t) rfl rfl rfl rfl
  | age =>
    rw [apply, age_fold _ _ _ (h.linked.1.separate.nodup _)]
    refine .same rfl rfl fun u => ?_
    unfold wakeOf
    dsimp only
    split <;> rfl

theorem Waits.timely (hw : Waits k k') (h : Timely k) : Timely k' :=
  h.sublist hw.ticks hw.list hw.wake

/-- A task which sleeps finds its place on the list. -/
theorem sleep_timely (h : Timely k) (hs : Sound k) (call : Call c) (list : Option (WaitList c))
    (timeout : OsTick c) (hg : (Atom.sleep call list timeout).guard k) :
    Timely (k.sleep call list timeout) := by
  have hn : k.currentTask ∉ k.timerLinks () := (hs.linked.running hg.2.1).2.1.timer
  have htk : (k.sleep call list timeout).ticks = k.ticks := by rw [sleep_eq]
  by_cases hf : timeout ≠ OS_WAIT_FOREVER c
  · have hl : (k.sleep call list timeout).timerLinks () =
        (k.timerLinks ()).takeWhile (fun it => wakeOf k it - k.ticks ≤ timeout) ++
          k.currentTask :: (k.timerLinks ()).dropWhile (fun it => wakeOf k it - k.ticks ≤ timeout) := by
      have hon : k.onTimer timeout () =
          (k.timerLinks ()).takeWhile (fun it => wakeOf k it - k.ticks ≤ timeout) ++
            k.currentTask ::
              (k.timerLinks ()).dropWhile (fun it => wakeOf k it - k.ticks ≤ timeout) := by
        rw [onTimer, if_pos hf]
        exact Lists.insert_self k.timerLinks () k.currentTask _
      rw [sleep_eq]
      exact hon
    have hw : wakeOf (k.sleep call list timeout) =
        Function.update (wakeOf k) k.currentTask (k.ticks + timeout) := by
      funext u
      unfold wakeOf
      rw [sleep_eq]
      by_cases hu : u = k.currentTask
      · subst hu
        simp [sleeper, hf]
      · simp [hu]
    refine ⟨?_, fun t ht => ?_⟩
    · rw [htk, hl, hw]
      exact h.order.insert k.currentTask timeout hn
    · rw [htk, hw]
      by_cases hu : t = k.currentTask
      · subst hu
        rw [Function.update_self, ← left_pos, left_add, Nat.pos_iff_ne_zero]
        exact fun h0 => hg.2.2.2.1 (BitVec.eq_of_toNat_eq h0)
      · rw [Function.update_of_ne hu]
        refine h.ahead t ?_
        rw [hl] at ht
        exact ((Lists.mem_splice ..).mp ht).resolve_left hu
  · refine h.sublist htk ?_ fun t ht => ?_
    · rw [sleep_eq, onTimer, if_neg hf]
    · unfold wakeOf
      rw [sleep_eq]
      by_cases hu : t = k.currentTask
      · subst hu
        simp [sleeper, hf]
      · simp [hu]

/-- Whoever is due is woken up, so that nobody on the list is. -/
theorem expire_ahead (fuel : ℕ) (h : Sound k) (hf : (k.timerLinks ()).length ≤ fuel)
    (ho : InTime k.ticks (wakeOf k) (k.timerLinks ())) : Timely (osTickExpire fuel k) := by
  induction fuel generalizing k with
  | zero =>
    have hnil : k.timerLinks () = [] := List.length_eq_zero_iff.mp (Nat.le_zero.mp hf)
    refine ⟨ho, fun t ht => ?_⟩
    change t ∈ k.timerLinks () at ht
    rw [hnil] at ht
    cases ht
  | succ fuel ih =>
    unfold osTickExpire
    rw [head_lists]
    cases hl : k.timerLinks () with
    | nil =>
      refine ⟨ho, fun t ht => ?_⟩
      change t ∈ k.timerLinks () at ht
      rw [hl] at ht
      cases ht
    | cons t rest =>
      dsimp only [List.head?_cons]
      split
      case isTrue hw =>
        have htm : Timed (k.tasks t) := (h.linked.2 t).timer.mp (by rw [hl]; simp)
        have hs := (Atom.expire t).sound h ⟨htm, hw⟩
        have hwt := wake_waits k t false
        refine ih hs ?_ ?_
        · have hoff : k.offTimer t () = rest := by
            rw [offTimer, if_pos htm, Lists.remove_self, hl, List.erase_cons_head]
          rw [osWake_eq]
          rw [hl] at hf
          exact le_of_eq_of_le (congrArg List.length hoff) (by simpa using hf)
        · rw [hwt.ticks]
          exact (ho.sublist hwt.list).congr hwt.wake
      case isFalse hw =>
        refine ⟨ho, ho.ahead fun u hu => ?_⟩
        change (k.timerLinks ()).head? = some u at hu
        rw [hl] at hu
        injection hu with hu
        exact hu ▸ hw

theorem tick_timely (h : Timely k) (hs : Sound k) : Timely k.osTickEnter := by
  have hlen := hs.linked.1.timers.length_le_card
  rw [Fintype.card_fin] at hlen
  exact expire_ahead (c.places + 1) ((Atom.tick).sound hs trivial) hlen (h.order.tick h.ahead)

theorem Move.timely (mv : Move c) (h : Sound k) (hg : mv.guard k) (ht : Timely k) :
    Timely (mv.apply k) := by
  by_cases htick : mv = .tick
  · subst htick
    exact tick_timely ht h
  refine (mv.run h hg).keeps (I := Timely) h (fun s a hs hga ha hi => ?_) ht
  by_cases hsl : ∃ call list timeout, a = .sleep call list timeout
  · obtain ⟨call, list, timeout, rfl⟩ := hsl
    exact sleep_timely hi hs call list timeout hga
  · have hnt : a ≠ .tick := by
      rintro rfl
      rcases (mv.uses_own _ ha).2 rfl with he | he
      · exact htick he
      · subst he
        exact hg.1
    exact (a.waits hs hga hnt fun call list timeout he => hsl ⟨call, list, timeout, he⟩).timely hi

end

/-! ### The history -/

/-- The clock of a task which sleeps agrees with the ticks it has slept through. -/
structure Clock (t : Place c) (l : Life c) : Prop where
  asleep : l.kind = OS_TASK_BLOCKED → ∃ d, sleepsFor l.history = some d ∧
    (d = OS_WAIT_FOREVER c ∧ l.timeout = none ∨ d ≠ OS_WAIT_FOREVER c ∧
      ∃ rest, l.timeout = some rest ∧ rest.toNat + ticksAsleep l.history = d.toNat)
  told : ∀ w past, .woken t w false :: past <:+ l.history → ∃ d, sleepsFor past = some d ∧
    d ≠ OS_WAIT_FOREVER c ∧ ticksAsleep past = d.toNat

/-- The tick finds nobody who should have been woken up before. -/
def Ahead (l : Life c) : Prop := l.timeout ≠ some 0

section
variable {l l' : Life c} {t : Place c} {parks revives : Life c → Prop}

/-- Entries which do not tell of a timeout. -/
theorem expired_cons {h : List (Event c)} {e : Event c} (he : ∀ w, e ≠ .woken t w false)
    (hold : ∀ w past, .woken t w false :: past <:+ h → ∃ d, sleepsFor past = some d ∧
      d ≠ OS_WAIT_FOREVER c ∧ ticksAsleep past = d.toNat) :
    ∀ w past, .woken t w false :: past <:+ e :: h → ∃ d, sleepsFor past = some d ∧
      d ≠ OS_WAIT_FOREVER c ∧ ticksAsleep past = d.toNat := by
  intro w past hs
  rcases List.suffix_cons_iff.mp hs with hs | hs
  · injection hs with hs _
    exact absurd hs.symm (he w)
  · exact hold w past hs

/-- The task does not sleep anymore, or not yet. -/
theorem Clock.up (h : Clock t l) (hk : l'.kind ≠ OS_TASK_BLOCKED) (hh : l'.history = l.history ∨
    ∃ e, l'.history = e :: l.history ∧ ∀ w, e ≠ .woken t w false) : Clock t l' where
  asleep hb := absurd hb hk
  told := by
    rcases hh with hh | ⟨e, hh, he⟩
    · rw [hh]
      exact h.told
    · rw [hh]
      exact expired_cons he h.told

theorem Stage.clock (hst : Stage t parks revives Ahead l l') (h : Clock t l) : Clock t l' := by
  cases hst with
  | rest => exact h
  | called x mine hk hf hm => exact h.up (by simp [hk]) (Or.inr ⟨_, rfl, by simp⟩)
  | returns call v hk hf => exact h.up (by simp [hk]) (Or.inl rfl)
  | pause hk hf => exact h.up (by simp [hk]) (Or.inl rfl)
  | goesOn hk hf => exact h.up (by simp [hk]) (Or.inl rfl)
  | returned call v hk hf => exact h.up (by simp [hk]) (Or.inr ⟨_, rfl, by simp⟩)
  | setWait w hk hf => exact h.up (by simp [hk]) (Or.inl rfl)
  | preempt hk => exact h.up (by simp) (Or.inl rfl)
  | dispatch hk => exact h.up (by simp) (Or.inl rfl)
  | sleep call list timeout hk hf hi ht hs =>
    refine ⟨fun _ => ⟨timeout, rfl, ?_⟩, expired_cons (by simp) h.told⟩
    by_cases hw : timeout = OS_WAIT_FOREVER c
    · exact Or.inl ⟨hw, if_neg (not_not.mpr hw)⟩
    · exact Or.inr ⟨hw, timeout, if_pos hw, rfl⟩
  | expired hk ht =>
    refine ⟨fun hb => by simp [Life.wakes] at hb, fun w past hs => ?_⟩
    rcases List.suffix_cons_iff.mp hs with hs | hs
    · injection hs with _ hs
      subst hs
      obtain ⟨d, hd, ⟨-, hn⟩ | ⟨hf, rest, hr, hsum⟩⟩ := h.asleep hk
      · rw [hn] at ht
        cases ht
      · rw [ht] at hr
        injection hr with hr
        subst hr
        exact ⟨d, hd, hf, by simpa using hsum⟩
    · exact h.told w past hs
  | handed m hk hw => exact h.up (by simp [Life.wakes]) (Or.inr ⟨_, rfl, by simp⟩)
  | given w hk hw hm he => exact h.up (by simp [Life.wakes]) (Or.inr ⟨_, rfl, by simp⟩)
  | served e flags options hk hw hf =>
    exact ⟨fun hb => by simp [Life.wakes] at hb, expired_cons (by simp) (expired_cons (by simp) h.told)⟩
  | satisfied e flags options hk hf => exact h.up (by simp [hk]) (Or.inr ⟨_, rfl, by simp⟩)
  | killed => exact h.up (by simp) (Or.inr ⟨_, rfl, by simp⟩)
  | parked hk hp => exact h.up (by simp) (Or.inr ⟨_, rfl, by simp⟩)
  | revived hk hr => exact h.up (by simp) (Or.inr ⟨_, rfl, by simp⟩)
  | created hk => exact h.up (by simp) (Or.inr ⟨_, rfl, by simp⟩)
  | owned m hk hf => exact h.up (by simp [hk]) (Or.inl rfl)
  | released m hm => exact ⟨h.asleep, h.told⟩
  | ticked hb =>
    refine ⟨fun hk => ?_, expired_cons (by simp) h.told⟩
    obtain ⟨d, hd, ⟨hf, hn⟩ | ⟨hf, rest, hr, hsum⟩⟩ := h.asleep hk
    · exact ⟨d, hd, Or.inl ⟨hf, by simp [hn]⟩⟩
    · have h0 : rest ≠ 0 := fun h0 => hb (by rw [hr, h0])
      have hp := toNat_pred h0
      refine ⟨d, hd, Or.inr ⟨hf, rest - 1, by simp [hr], ?_⟩⟩
      simp only [ticksAsleep]
      omega

end

/-! ### Every run -/

section
variable {k k' : ListKernel c}

theorem Timely.ahead_life (h : Timely k) (hs : Linked k) (t : Place c) : Ahead (life k t) := by
  intro h0
  unfold life at h0
  dsimp only at h0
  split at h0
  case isTrue ht =>
    injection h0 with h0
    refine h.ahead t ((hs.2 t).timer.mpr ht) ((left_eq_zero _ _).mp ?_)
    rw [left, wakeOf, h0]
    rfl
  case isFalse => cases h0

/-- What is left to every task, and what it has slept for. -/
structure OnTime (k : ListKernel c) : Prop extends Rest k where
  timely : Timely k
  clock : ∀ t, Clock t (life k t)

theorem OnTime.step {a : Action c} (h : OnTime k) (hs : k.step a = some k') : OnTime k' := by
  have hm := (step_moves h.sound h.running h.noDead hs).1
  refine ⟨h.toRest.step hs, ?_, fun t => ?_⟩
  · exact (hm.invariant (I := fun s => Sound s ∧ Timely s)
      (fun s mv hg hi => ⟨mv.sound hi.1 hg.1, mv.timely hi.1 hg.1 hi.2⟩) ⟨h.sound, h.timely⟩).2
  · have hl : Lived t (fun _ => True) (fun _ => True) Ahead (life k t) (life k' t) := by
      refine step_lived h.toRest hs t (fun _ _ _ => trivial) (fun _ _ _ => trivial)
        fun s hsame => ?_
      obtain ⟨-, htk, hti⟩ := hsame
      have ha := h.timely.ahead_life h.sound.linked t
      unfold Ahead life at ha ⊢
      rwa [htk, hti]
    exact hl.keeps (fun _ _ hst hi => hst.clock hi) (h.clock t)

theorem init_onTime (c : Config) : OnTime (osInit c Lists) where
  toRest := init_rest c
  timely := ⟨.nil, fun _ h => by cases h⟩
  clock t := by
    refine ⟨fun hb => ?_, fun w past hs => ?_⟩
    · have hk := init_kind t
      rw [show (osInit c Lists).stateOf t = OS_TASK_BLOCKED from hb] at hk
      split at hk <;> simp at hk
    · have hh : (life (osInit c Lists) t).history = [] := rfl
      rw [hh] at hs
      simp at hs

/-- The tick handler wakes a task up or lets it sleep. -/
theorem tick_history (h : Sound k) (t : Place c) (hb : k.stateOf t = OS_TASK_BLOCKED) :
    (k.osTickEnter.stateOf t = OS_TASK_BLOCKED ∧
        (k.osTickEnter.tasks t).waitList = (k.tasks t).waitList ∧
        k.osTickEnter.history t = .ticked :: k.history t) ∨
      ∃ w, k.osTickEnter.history t = .woken t w false :: .ticked :: k.history t := by
  have hs := (Atom.tick).sound h trivial
  have hx : Atoms (fun a => ∃ t, a = .expire t) ((Atom.tick).apply k) k.osTickEnter :=
    expire_atoms _ hs
  have hi := hx.keeps (I := fun s => ((life s t).kind = OS_TASK_BLOCKED ∧
      (life s t).waitList = (k.tasks t).waitList ∧ (life s t).history = .ticked :: k.history t) ∨
      (life s t).kind ≠ OS_TASK_BLOCKED ∧
        ∃ w, (life s t).history = .woken t w false :: .ticked :: k.history t) hs
    (fun s a hs hg ha hi => ?_) (Or.inl ⟨hb, congrArg Life.waitList (tick_life k t),
      congrArg Life.history (tick_life k t)⟩)
  · exact hi.imp id fun hi => hi.2
  · obtain ⟨u, rfl⟩ := ha
    by_cases hu : t = u
    · subst hu
      rw [Atom.apply, wake_life]
      rcases hi with ⟨-, -, hh⟩ | ⟨hk, -⟩
      · exact Or.inr ⟨by simp [Life.wakes], _, congrArg _ hh⟩
      · exact absurd ((hs.linked.2 t).timed hg.1) hk
    · rw [Atom.apply, wake_other s false hu]
      exact hi

theorem tickEnter_history (h : Sound k) (hs : k.step .tickEnter = some k') (t : Place c)
    (hb : k.stateOf t = OS_TASK_BLOCKED) :
    (k'.stateOf t = OS_TASK_BLOCKED ∧ (k'.tasks t).waitList = (k.tasks t).waitList ∧
        k'.history t = .ticked :: k.history t) ∨
      ∃ w, k'.history t = .woken t w false :: .ticked :: k.history t := by
  simp only [step] at hs
  split at hs
  case isTrue hc =>
    injection hs with hs
    subst hs
    exact tick_history (setFrame_sound h k.currentTask (some .preempted)) t hb
  case isFalse => cases hs

end

/-- Timeouts last as many ticks as they are given. -/
structure Punctual (k : Kernel c Links) : Prop where
  order : k.timerList.Pairwise fun t u =>
    left k.ticks (k.tasks t).wake ≤ left k.ticks (k.tasks u).wake
  ahead : ∀ t ∈ k.timerList, 1 ≤ left k.ticks (k.tasks t).wake
  notLate : ∀ t, k.stateOf t = OS_TASK_BLOCKED → ∃ d, sleepsFor (k.history t) = some d ∧
    (d ≠ OS_WAIT_FOREVER c → t ∈ k.timerList ∧ ticksAsleep (k.history t) < d.toNat ∧
      left k.ticks (k.tasks t).wake + ticksAsleep (k.history t) = d.toNat)
  notEarly : ∀ t w past, .woken t w false :: past <:+ k.history t → ∃ d, sleepsFor past = some d ∧
    d ≠ OS_WAIT_FOREVER c ∧ ticksAsleep past = d.toNat
  onTime : ∀ t d k', k.stateOf t = OS_TASK_BLOCKED → sleepsFor (k.history t) = some d →
    d ≠ OS_WAIT_FOREVER c → ticksAsleep (k.history t) + 1 = d.toNat → k.step .tickEnter = some k' →
    ∃ w, k'.history t = .woken t w false :: .ticked :: k.history t

/-- A task which sleeps for some ticks has slept for less of them so far. -/
theorem OnTime.notLate {k : ListKernel c} (h : OnTime k) (t : Place c)
    (hb : k.stateOf t = OS_TASK_BLOCKED) : ∃ d, sleepsFor (k.history t) = some d ∧
      (d ≠ OS_WAIT_FOREVER c → t ∈ k.timerLinks () ∧ ticksAsleep (k.history t) < d.toNat ∧
        left k.ticks (k.tasks t).wake + ticksAsleep (k.history t) = d.toNat) := by
  obtain ⟨d, hd, hc⟩ := (h.clock t).asleep hb
  refine ⟨d, hd, fun hf => ?_⟩
  obtain ⟨rest, hr, hsum⟩ := (hc.resolve_left fun he => hf he.1).2
  unfold life at hr
  dsimp only at hr
  split at hr
  case isTrue ht =>
    injection hr with hr
    have hmem := (h.sound.linked.2 t).timer.mpr ht
    have hl : left k.ticks (k.tasks t).wake = rest.toNat := by rw [left, hr]
    have hpos := (left_pos k.ticks (k.tasks t).wake).mpr (h.timely.ahead t hmem)
    change rest.toNat + ticksAsleep (k.history t) = d.toNat at hsum
    exact ⟨hmem, by omega, by omega⟩
  case isFalse => cases hr

theorem punctual_of_sim {k : Kernel c Links} {l : ListKernel c} (h : Sim k l) (hl : OnTime l) :
    Punctual k := by
  have hticks : k.ticks = l.ticks := by
    obtain ⟨s, rfl, -⟩ := h
    rfl
  refine ⟨?_, fun t ht => ?_, fun t hb => ?_, fun t w past hs => ?_,
    fun t d k' hb hd hf hsum hst => ?_⟩
  · rw [h.timerList, h.tasks, hticks]
    exact hl.timely.order
  · rw [h.timerList] at ht
    rw [h.tasks, hticks]
    exact (left_pos _ _).mpr (hl.timely.ahead t ht)
  · rw [h.stateOf] at hb
    rw [h.history, h.timerList, h.tasks, hticks]
    exact hl.notLate t hb
  · rw [h.history] at hs
    exact (hl.clock t).told w past hs
  · rw [h.stateOf] at hb
    rw [h.history] at hd hsum
    obtain ⟨l', hst', h'⟩ := step_sim h hl.toRest .tickEnter hst
    have hl' := hl.step hst'
    rw [h.history, h'.history]
    refine (tickEnter_history hl.sound hst' t hb).resolve_left fun hstill => ?_
    obtain ⟨hk, -, hh⟩ := hstill
    -- a task which still slept would be late
    obtain ⟨d', hd', hlate⟩ := hl'.notLate t hk
    rw [hh] at hd' hlate
    change sleepsFor (l.history t) = some d' at hd'
    rw [hd] at hd'
    injection hd' with hd'
    subst hd'
    have hlt := (hlate hf).2.1
    change ticksAsleep (l.history t) + 1 < d.toNat at hlt
    omega

/-- Timeouts are exact in every run, wherever the counter starts and wraps around. -/
theorem reachable_punctual (k : Kernel c Links) (h : Reachable k) : Punctual k := by
  obtain ⟨l, hl, hs⟩ := reachable_lists h
  exact punctual_of_sim hs (hl.invariant (I := OnTime) (init_onTime c) fun _ _ _ _ hi _ hst => hi.step hst)

/-- Two tasks sleep across the overflow of the counter and are woken up by the same tick. -/
theorem reachable_punctual_taken : ∃ k, steps step (osInit (Config.overflow 2) Links)
    [.call (.osTaskCreate 1 3 false), .resume, .call (.osTaskCreate 2 3 false), .resume, .run,
      .call (.osDelay 3), .call (.osDelay 3), .resume, .tickEnter, .tickLeave, .resume,
      .tickEnter, .tickLeave, .resume, .tickEnter] = some k ∧ Punctual k := by
  obtain ⟨k, hk⟩ := Option.isSome_iff_exists.mp (show (steps step (osInit (Config.overflow 2) Links)
    [.call (.osTaskCreate 1 3 false), .resume, .call (.osTaskCreate 2 3 false), .resume, .run,
      .call (.osDelay 3), .call (.osDelay 3), .resume, .tickEnter, .tickLeave, .resume,
      .tickEnter, .tickLeave, .resume, .tickEnter]).isSome = true by decide +kernel)
  exact ⟨k, hk, reachable_punctual k (Reach.steps_reach _ (fun _ _ _ => trivial) .init hk)⟩

end AvrOs
