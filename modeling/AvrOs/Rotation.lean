import AvrOs.Circular.Rounds
import AvrOs.Foremost
import AvrOs.Lines

/-!
# Tasks of one priority take turns

With round robin every tick puts the current task behind the others of its priority, so nothing but
ticks makes the line of these tasks go round.
-/

namespace AvrOs
open Intrusive Transition Kernel

variable {c : Config}

/-- The tick handler is left. -/
def Action.endsTick : Action c → Bool
  | .tickLeave => true
  | _ => false

/-- Nothing but ticks. Whoever has waited for one of them is less important than `p`, and with aging
there is nobody of the kind. -/
def Ticking {S : Type → Type → Type} [LinkStore S] (p : ℕ) (k : Kernel c S) : Action c → Prop
  | .tickEnter => ∀ t, Timed (k.tasks t) → (k.tasks t).wake = k.ticks + 1 →
      k.priority t < p ∧ c.aging = false
  | .tickTimer | .tickLeave | .resume | .store _ _ | .setTickVar _ _ => True
  | _ => False

instance {S : Type → Type → Type} [LinkStore S] (p : ℕ) (k : Kernel c S) : DecidablePred (Ticking p k)
  | .tickEnter => inferInstanceAs (Decidable (∀ _, _))
  | .tickTimer | .tickLeave | .resume | .store _ _ | .setTickVar _ _ => .isTrue trivial
  | .run | .call _ | .isrEnter _ | .isrCall _ | .isrLeave => .isFalse id

/-- Those in `order` take turns, the others who are ready are less important and do not age. -/
structure Turns (order : List (Place c)) (p m : ℕ) (k : ListKernel c) : Prop where
  line : k.currentTask :: (k.links .ready).filter (fun t => decide (t ∈ order)) = order.rotate m
  rank : ∀ t ∈ order, k.priority t = p ∧ (k.tasks t).basePriority = p
  below : ∀ t ∈ k.links .ready, t ∉ order → k.priority t < p ∧ (c.aging = true → k.priority t = 0)

section
variable {k k' : ListKernel c} {order : List (Place c)} {p m : ℕ}

theorem Turns.current (h : Turns order p m k) : k.currentTask ∈ order := by
  rw [← List.mem_rotate (n := m), ← h.line]
  exact List.mem_cons_self

theorem Turns.kinds (h : Turns order p m k) (hs : Sound k) (hr : Running k) {t : Place c} (ht : t ∈ order) :
    k.stateOf t = OS_TASK_READY ∨ k.stateOf t = OS_TASK_RUNNING := by
  rw [← List.mem_rotate (n := m), ← h.line] at ht
  rcases List.mem_cons.mp ht with rfl | hm
  · exact Or.inr hr.kind
  · exact Or.inl (hs.ready_kind (List.mem_of_mem_filter hm))

theorem Turns.congr (h : Turns order p m k) (hl : k'.links .ready = k.links .ready)
    (ht : k'.tasks = k.tasks) (hc : k'.currentTask = k.currentTask) : Turns order p m k' := by
  have hp : k'.priority = k.priority := by
    funext t
    rw [Kernel.priority, Kernel.priority, ht]
  refine ⟨by rw [hl, hc]; exact h.line, fun t hm => ?_, fun t hm hn => ?_⟩
  · rw [hp, ht]
    exact h.rank t hm
  · rw [hp]
    exact h.below t (hl ▸ hm) hn

theorem Turns.le (h : Turns order p m k) {t : Place c} (ht : t ∈ k.links .ready) : k.priority t ≤ p := by
  by_cases hm : t ∈ order
  · exact (h.rank t hm).1.le
  · exact (h.below t ht hm).1.le

/-- None of them has anything to settle. -/
theorem Turns.settle (h : Turns order p m k) : k.osSettle k.currentTask = k := by
  obtain ⟨hp, hb⟩ := h.rank _ h.current
  have he : (k.tasks k.currentTask).priority = (k.tasks k.currentTask).basePriority := hp.trans hb.symm
  unfold osSettle
  split
  · rw [if_neg (not_not.mpr he)]
  · rfl

/-- Nobody takes the processor away from them but by a tick. -/
theorem Turns.stay (h : Turns order p m k) (hs : Sound k) (hr : Running k) : k.osSchedule 0 = k := by
  rcases schedule_cases hs hr 0 (Nat.zero_le 1) with ⟨-, he⟩ | ⟨hn, -⟩
  · exact he
  · obtain ⟨n, hh, hlt⟩ := (hs.needed_iff (Nat.zero_le 1)).mp hn
    have hle := h.le (List.mem_of_head? hh)
    have hcur := (h.rank _ h.current).1
    omega

/-! ### Between ticks -/

/-- Whoever has to give back what it has inherited is none of them. -/
theorem giveUp_turns (h : Turns order p m k) (hs : Sound k) (o : Place c) : Turns order p m (giveUp k o) := by
  unfold giveUp
  split
  case h_1 owner _ =>
    split
    case isTrue hlt =>
      have hout : owner ∉ order := fun hm => by
        obtain ⟨hp, hb⟩ := h.rank owner hm
        have hge := inherited_ge_base k owner
        omega
      have hstays := requeue_stays (P := fun t => decide (t ∈ order)) k owner (k.osInheritedPriority owner)
        (decide_eq_false hout)
      refine ⟨?_, fun t ht => ?_, fun t ht hn => ?_⟩
      · rw [hstays.line, hstays.current]
        exact h.line
      · have hne : t ≠ owner := fun he => hout (he ▸ ht)
        rw [requeue_priority, if_neg hne, requeue_base]
        exact h.rank t ht
      · obtain ⟨hbelow, hzero⟩ := h.below t ((requeue_mem hs.linked _ .ready t).mp ht) hn
        rw [requeue_priority]
        split
        case isTrue he =>
          subst he
          exact ⟨hlt.trans hbelow, fun ha => by have := hzero ha; omega⟩
        case isFalse => exact ⟨hbelow, hzero⟩
    case isFalse => exact h
  case h_2 => exact h

/-- The rest of a call which has been waiting. -/
theorem execRest_turns (h : Turns order p m k) (hs : Sound k) (hr : Running k) (call : Call c) (r : Bool) :
    Turns order p m (k.execRest call r) := by
  have hreturns : ∀ {s : ListKernel c} (v : Value c), Turns order p m s → Turns order p m (s.returns call v) :=
    fun v hi => hi.congr rfl rfl rfl
  have hrest : ∀ o, Turns order p m (osMutexTryLockRest call o k r) := fun o => by
    rw [rest_eq]
    refine hreturns _ ?_
    unfold undo
    split
    · exact giveUp_turns h hs o
    · exact h
  have hqueue : Turns order p m (osQueueRest call k r) := by
    have hi : Turns order p m (k.returns call (.bool r)) := hreturns _ h
    rw [osQueueRest, hi.stay (returned_sound hs call _) hr]
    exact hi
  cases call with
  | osMutexTryLock o timeout => exact hrest o
  | osMutexLock o => exact hrest o
  | osQueueSend | osQueueReceive => exact hqueue
  | _ => exact hreturns _ h

/-! ### Ticks -/

/-- Somebody less important wakes up and stands behind everybody in `order`. -/
theorem wake_turns (h : Turns order p m k) (hs : Sound k) (hr : Running k) {t : Place c} (r : Bool)
    (hb : k.stateOf t = OS_TASK_BLOCKED) (hlow : k.priority t < p) (ha : c.aging = false) :
    Turns order p m (k.osWake t r) := by
  have hout : t ∉ order := fun hm => by
    rcases h.kinds hs hr hm with hk | hk
    · rw [hb] at hk
      simp at hk
    · rw [hb] at hk
      simp at hk
  have hstays := wake_stays (P := fun u => decide (u ∈ order)) k t r (decide_eq_false hout)
  have hrank := wake_rank k t r
  refine ⟨?_, fun u hu => ?_, fun u hu hn => ?_⟩
  · rw [hstays.line, hstays.current]
    exact h.line
  · rw [hrank.priority, (hrank u).2]
    exact h.rank u hu
  · rw [hrank.priority]
    by_cases hut : u = t
    · subst hut
      exact ⟨hlow, fun he => by rw [ha] at he; cases he⟩
    · refine h.below u ?_ hn
      rw [osWake_eq] at hu
      have hoff : k.offWait t .ready = k.links .ready := offWait_of_ne k t .ready (by simp)
      simpa [onReady, Lists.mem_insert, hut, hoff] using hu

theorem tick_turns (h : Turns order p m k) (hs : Sound k) (hr : Running k)
    (hw : ∀ t, Timed (k.tasks t) → (k.tasks t).wake = k.ticks + 1 → k.priority t < p ∧ c.aging = false) :
    Turns order p m k.osTickEnter := by
  have hst := Atom.sound .tick hs trivial
  have hrun : Atoms (fun a => ∃ t, a = .expire t) ((Atom.tick).apply k)
      (osTickExpire (c.places + 1) ((Atom.tick).apply k)) :=
    expire_atoms _ hst
  refine (hrun.keeps (I := fun s => s.ticks = k.ticks + 1 ∧ (∀ t, Timed (s.tasks t) →
    (s.tasks t).wake = k.ticks + 1 → s.priority t < p ∧ c.aging = false) ∧ Running s ∧ Turns order p m s) hst
    (fun s x hss hg hx hi => ?_) ⟨rfl, hw, hr, h.congr rfl rfl rfl⟩).2.2.2
  obtain ⟨t, rfl⟩ := hx
  obtain ⟨hticks, hwait, hrs, hturns⟩ := hi
  obtain ⟨hlow, hold⟩ := hwait t hg.1 (hg.2.trans hticks)
  have hblocked : s.stateOf t = OS_TASK_BLOCKED := (hss.linked.2 t).timed hg.1
  rw [Atom.apply]
  refine ⟨?_, fun u hu hwake => ?_, osWake_running hrs t false hblocked,
    wake_turns hturns hss hrs false hblocked hlow hold⟩
  · rw [osWake_eq]
    exact hticks
  · have hut : u ≠ t := by
      rintro rfl
      rw [osWake_eq] at hu
      simp [Timed] at hu
    rw [(wake_rank s t false).priority]
    rw [osWake_eq] at hu hwake
    dsimp only at hu hwake
    rw [Function.update_of_ne hut] at hu hwake
    exact hwait u hu hwake

/-- The function of a timer makes no calls. -/
theorem timerTick_turns (h : Turns order p m k) (tm : Place c) :
    Turns order p m { k.osTimerTick tm with mode := .tick true } := by
  obtain ⟨hlinks, htasks, hcur, -⟩ := osTimerTick_same k tm
  exact h.congr (congrFun hlinks .ready) htasks hcur

/-- They are too important to age while one of them runs. -/
theorem age_turns (hrr : c.roundRobin = true) (h : Turns order p m k) (hs : Sound k) :
    Turns order p m k.osAge := by
  cases ha : c.aging with
  | false => rw [osAge_off ha]; exact h
  | true =>
    rw [osAge_eq hs ha, h.settle]
    split
    case isTrue =>
      have hsame : ∀ t, agedTasks k t = k.tasks t := fun t => by
        unfold agedTasks
        split
        case isTrue ht =>
          have hcur := (h.rank _ h.current).1
          have he : aged c (k.priority k.currentTask) (k.priority t) = k.priority t := by
            unfold aged
            rw [if_neg]
            rintro ⟨hne, -, hle⟩
            by_cases hm : t ∈ order
            · have hp := (h.rank t hm).1
              rw [hrr, if_pos rfl] at hle
              omega
            · exact hne ((h.below t ht hm).2 ha)
          rw [he]
          rfl
        case isFalse => rfl
      exact h.congr rfl (funext hsame) rfl
    case isFalse => exact h.congr rfl rfl rfl

/-- The first of them all is one of those who take turns. -/
theorem dispatch_turns (hs : Sound k) (hw : k.stateOf k.currentTask ≠ OS_TASK_RUNNING) (hne : order ≠ [])
    (hline : (k.links .ready).filter (fun t => decide (t ∈ order)) = order.rotate m)
    (hrank : ∀ t ∈ order, k.priority t = p ∧ (k.tasks t).basePriority = p)
    (hbelow : ∀ t ∈ k.links .ready, t ∉ order → k.priority t < p ∧ (c.aging = true → k.priority t = 0)) :
    Turns order p m k.osDispatch := by
  obtain ⟨-, n, hn⟩ := osDispatch_sound hs hw
  obtain ⟨hl, hp, hc⟩ := dispatch_frame hn
  have hsame := (Atom.dispatch).same_rank hs hw id
  have hready : k.links .ready = n :: (k.links .ready).tail := (List.cons_head?_tail hn).symm
  have hfirst := hs.linked.1.ready.filter_first (fun t => decide (t ∈ order)) p
    (fun t _ hm => (hrank t (of_decide_eq_true hm)).1.ge)
    (fun t ht hm => (hbelow t ht (of_decide_eq_false hm)).1)
  have hmem : n ∈ order := by
    rw [hline] at hfirst
    cases hr : order.rotate m with
    | nil => exact absurd (List.rotate_eq_nil_iff.mp hr) hne
    | cons a as =>
      rw [hr, hready, List.cons_append] at hfirst
      injection hfirst with he
      rw [he, ← List.mem_rotate (n := m), hr]
      exact List.mem_cons_self
  refine ⟨?_, fun t ht => ?_, fun t ht hm => ?_⟩
  · have hcons : (k.links .ready).filter (fun t => decide (t ∈ order)) =
        n :: (k.links .ready).tail.filter (fun t => decide (t ∈ order)) := by
      conv_lhs => rw [hready]
      exact List.filter_cons_of_pos (decide_eq_true hmem)
    rw [hc, hl, ← hline, hcons]
  · rw [hp]
    exact ⟨(hrank t ht).1, (hsame t).2.trans (hrank t ht).2⟩
  · rw [hl] at ht
    rw [hp]
    exact hbelow t (List.mem_of_mem_tail ht) hm

/-- The first of the others is switched in, the current task goes behind the last one of them. -/
theorem schedule_turns (h : Turns order p m k) (hs : Sound k) (hr : Running k) :
    Turns order p (m + 1) (k.osSchedule 1) := by
  have hcur := (h.rank _ h.current).1
  have hnext : order.rotate (m + 1) =
      (k.links .ready).filter (fun t => decide (t ∈ order)) ++ [k.currentTask] := by
    rw [← List.rotate_rotate, ← h.line, List.rotate_cons_succ, List.rotate_zero]
  rcases schedule_cases hs hr 1 le_rfl with ⟨hn, he⟩ | ⟨-, s, rfl, -, -, -, hg, he⟩
  · have hnone : (k.links .ready).filter (fun t => decide (t ∈ order)) = [] := by
      refine List.filter_eq_nil_iff.mpr fun t ht hm => ?_
      obtain ⟨n, hh⟩ := Option.ne_none_iff_exists'.mp
        (mt List.head?_eq_none_iff.mp (List.ne_nil_of_mem ht))
      have hle : k.priority t ≤ k.priority n := hs.head_most hh t ht
      have hp := (h.rank t (of_decide_eq_true hm)).1
      rw [(hs.needed_iff le_rfl).mpr ⟨n, hh, by omega⟩] at hn
      cases hn
    rw [he]
    refine ⟨?_, h.rank, h.below⟩
    rw [hnext, hnone]
    rfl
  · rw [h.settle] at hg he
    rw [he]
    have hkey : k.priority k.currentTask + 1 - 1 = p := by omega
    have hrank := (Atom.preempt (k.priority k.currentTask + 1 - 1)).same_rank hs hg id
    have hready : ((Atom.preempt (k.priority k.currentTask + 1 - 1)).apply k).links .ready =
        (k.links .ready).takeWhile (fun it => p ≤ k.priority it) ++
          k.currentTask :: (k.links .ready).dropWhile (fun it => p ≤ k.priority it) := by
      show Lists.insert k.links .ready k.currentTask _ .ready = _
      rw [Lists.insert_self]
      simp only [setState_priority, hkey]
    refine dispatch_turns ((Atom.preempt _).sound hs hg) (preempt_waits k _)
      (List.ne_nil_of_mem h.current) ?_ (fun t ht => ?_) fun t ht hm => ?_
    · rw [hready, hnext]
      exact hs.linked.1.ready.filter_splice_behind _ _ _ (decide_eq_true h.current)
        fun t _ hm => (h.rank t (of_decide_eq_true hm)).1.ge
    · rw [hrank.priority, (hrank t).2]
      exact h.rank t ht
    · rw [hrank.priority]
      rw [hready] at ht
      exact h.below t ((Lists.mem_splice ..).mp ht |>.resolve_left fun he => hm (he ▸ h.current)) hm

/-! ### Runs -/

theorem step_turns (hrr : c.roundRobin = true) {a : Action c} (hk : Rest k) (h : Turns order p m k)
    (ha : Ticking p k a) (hs : k.step a = some k') : Turns order p (m + a.endsTick.toNat) k' := by
  cases a with
  | run | call | isrEnter | isrCall | isrLeave => exact absurd ha id
  | resume =>
    simp only [step] at hs
    split at hs
    case isTrue =>
      split at hs
      case h_1 =>
        injection hs with hs
        exact hs ▸ h.congr rfl rfl rfl
      case h_2 =>
        injection hs with hs
        exact hs ▸ h.congr rfl rfl rfl
      case h_3 =>
        injection hs with hs
        exact hs ▸ execRest_turns h hk.sound hk.running _ _
      case h_4 => cases hs
    case isFalse => cases hs
  | tickEnter =>
    simp only [step] at hs
    split at hs
    case isTrue =>
      injection hs with hs
      have hframe : Turns order p m (k.setFrame k.currentTask (some .preempted)) := h.congr rfl rfl rfl
      exact hs ▸ (tick_turns hframe (setFrame_sound hk.sound _ _) hk.running ha).congr rfl rfl rfl
    case isFalse => cases hs
  | tickTimer =>
    simp only [step] at hs
    split at hs
    · split at hs
      · injection hs with hs
        exact hs ▸ timerTick_turns h _
      · cases hs
    · cases hs
  | tickLeave =>
    simp only [step] at hs
    split at hs
    · split at hs
      · injection hs with hs
        have hsound : Sound { k with mode := .thread } := hk.sound.congr rfl rfl rfl rfl rfl rfl
        have hturns : Turns order p m { k with mode := .thread } := h.congr rfl rfl rfl
        obtain ⟨hm, hr⟩ := osAge_moves (b := k) hsound hk.running rfl
        rw [← hs, osTickLeave, hrr, if_pos rfl]
        exact schedule_turns (age_turns hrr hturns hsound) (hm.sound hsound) hr
      · cases hs
    · cases hs
  | store =>
    simp only [step] at hs
    split at hs
    · injection hs with hs
      exact hs ▸ h.congr rfl rfl rfl
    · cases hs
  | setTickVar =>
    simp only [step] at hs
    split at hs
    · injection hs with hs
      exact hs ▸ h.congr rfl rfl rfl
    · cases hs

theorem turns_of_counted (hrr : c.roundRobin = true) (hk : Rest k) (h : Turns order p 0 k)
    (hc : Counted step (Ticking p) Action.endsTick k m k') : Rest k' ∧ Turns order p m k' :=
  hc.invariant (I := fun m s => Rest s ∧ Turns order p m s) ⟨hk, h⟩ fun _ _ _ _ hi ha hs =>
    ⟨hi.1.step hs, step_turns hrr hi.1 hi.2 ha hs⟩

/-- The line as a whole: first those who take turns, then the others. -/
theorem Turns.ready (h : Turns order p m k) (hs : Sound k) : ∃ others,
    k.links .ready = (order.rotate m).tail ++ others ∧ ∀ t ∈ others, k.priority t < p := by
  refine ⟨(k.links .ready).filter (fun t => !decide (t ∈ order)), ?_, fun t ht => ?_⟩
  · rw [← h.line, List.tail_cons]
    exact hs.linked.1.ready.filter_first _ p (fun t _ hm => (h.rank t (of_decide_eq_true hm)).1.ge)
      fun t ht hm => (h.below t ht (of_decide_eq_false hm)).1
  · obtain ⟨hm, hn⟩ := List.mem_filter.mp ht
    exact (h.below t hm (by simpa using hn)).1

theorem Turns.turn (h : Turns order p m k) : order[m % order.length]? = some k.currentTask := by
  have hhead : (order.rotate m).head? = some k.currentTask := by
    rw [← h.line]
    rfl
  have hpos : 0 < order.length := List.length_pos_of_mem h.current
  rw [← hhead, List.head?_eq_getElem?, List.getElem?_rotate hpos, Nat.zero_add]

end

theorem Sim.ticking {k : Kernel c Links} {l : ListKernel c} (h : Sim k l) {p : ℕ} {a : Action c}
    (ha : Ticking p k a) : Ticking p l a := by
  cases a with
  | tickEnter =>
    intro t ht hw
    rw [← h.priority]
    refine ha t ?_ ?_
    · rwa [h.tasks]
    · rwa [h.tasks, h.timers.2]
  | _ => exact ha

/-- Tasks of one priority take turns in the order they are in line, each of them for one tick. The
others are less important, with aging there is only the idle task. -/
theorem turns_taken (hrr : c.roundRobin = true) (k : Kernel c Links) (h : Reachable k) (p : ℕ)
    (peers others : List (Place c)) (hready : k.list .ready = peers ++ others)
    (hpeers : ∀ t ∈ k.currentTask :: peers, k.priority t = p ∧ (k.tasks t).basePriority = p)
    (hothers : ∀ t ∈ others, k.priority t < p ∧
      (c.aging = true → t = osIdleTask ∧ k.priority osIdleTask = 0)) :
    (∀ m s, Counted step (Ticking p) Action.endsTick k m s →
      (k.currentTask :: peers)[m % (peers.length + 1)]? = some s.currentTask ∧
      ∃ others', s.list .ready = ((k.currentTask :: peers).rotate m).tail ++ others' ∧
        ∀ t ∈ others', s.priority t < p) ∧
    ∀ (run : ℕ → Kernel c Links) (j : ℕ),
      (∀ i, j ≤ i → i < j + (peers.length + 1) → Counted step (Ticking p) Action.endsTick k i (run i)) →
      ∀ t ∈ k.currentTask :: peers,
        ∃! i, (j ≤ i ∧ i < j + (peers.length + 1)) ∧ (run i).currentTask = t := by
  obtain ⟨l, hl, hs⟩ := reachable_lists h
  have hrest := rest_of_reachable hl
  have hnodup : (k.currentTask :: peers).Nodup := by
    have hready' : l.links .ready = peers ++ others := hs.list .ready ▸ hready
    have hcur := hrest.sound.current_unready hrest.running
    have hline := hrest.sound.linked.1.separate.nodup .ready
    rw [hready'] at hcur hline
    rw [hs.current]
    exact List.nodup_cons.mpr ⟨fun hm => hcur (List.mem_append_left _ hm), (List.nodup_append.mp hline).1⟩
  have hturns : Turns (k.currentTask :: peers) p 0 l := by
    refine ⟨?_, fun t ht => ?_, fun t ht hn => ?_⟩
    · have hpeers' : peers.filter (fun t => decide (t ∈ k.currentTask :: peers)) = peers :=
        List.filter_eq_self.mpr fun t ht => decide_eq_true (List.mem_cons_of_mem _ ht)
      have hothers' : others.filter (fun t => decide (t ∈ k.currentTask :: peers)) = [] := by
        refine List.filter_eq_nil_iff.mpr fun t ht hm => ?_
        have hp := (hpeers t (of_decide_eq_true hm)).1
        have hlt := (hothers t ht).1
        omega
      rw [← hs.list, hready, List.filter_append, hpeers', hothers', List.append_nil, ← hs.current,
        List.rotate_zero]
    · rw [← hs.priority, ← hs.tasks]
      exact hpeers t ht
    · rw [← hs.list, hready] at ht
      obtain ⟨hlt, hidle⟩ := hothers t ((List.mem_append.mp ht).resolve_left fun hm =>
        hn (List.mem_cons_of_mem _ hm))
      rw [← hs.priority]
      refine ⟨hlt, fun ha => ?_⟩
      obtain ⟨rfl, hzero⟩ := hidle ha
      exact hzero
  have hcounted : ∀ m s, Counted step (Ticking p) Action.endsTick k m s →
      ∃ l', Sim s l' ∧ Rest l' ∧ Turns (k.currentTask :: peers) p m l' := by
    intro m s hc
    obtain ⟨l', hl', hs', hr'⟩ := hc.simulate (R := fun s l => Sim s l ∧ Rest l) ⟨hs, hrest⟩
      fun s a s' t hst ha hstep => by
        obtain ⟨t', ht', hs'⟩ := step_sim hst.1 hst.2 a hstep
        exact ⟨hst.1.ticking ha, t', ht', hs', hst.2.step ht'⟩
    exact ⟨l', hs', hr', (turns_of_counted hrr hrest hturns hl').2⟩
  refine ⟨fun m s hc => ?_, fun run j hrun t ht => ?_⟩
  · obtain ⟨l', hs', hr', ht'⟩ := hcounted m s hc
    obtain ⟨others', hready', hlow⟩ := ht'.ready hr'.sound
    refine ⟨?_, others', by rw [hs'.list]; exact hready', fun t ht => by rw [hs'.priority]; exact hlow t ht⟩
    rw [hs'.current]
    exact ht'.turn
  · obtain ⟨i, hi, hget⟩ := List.getElem_of_mem ht
    obtain ⟨m, ⟨hm, hmod⟩, hunique⟩ := Circular.mod_window (n := peers.length + 1) hi j
    have hwho : ∀ b, j ≤ b → b < j + (peers.length + 1) →
        (k.currentTask :: peers)[b % (peers.length + 1)]? = some (run b).currentTask := fun b hb hlt => by
      obtain ⟨l', hs', -, ht'⟩ := hcounted b (run b) (hrun b hb hlt)
      rw [hs'.current]
      exact ht'.turn
    refine ⟨m, ⟨hm, ?_⟩, fun b hb => hunique b ⟨hb.1, ?_⟩⟩
    · have hturn := hwho m hm.1 hm.2
      rw [hmod, List.getElem?_eq_getElem hi, hget] at hturn
      exact (Option.some.inj hturn).symm
    · have hturn := hwho b hb.1.1 hb.1.2
      rw [hb.2] at hturn
      have hlt : b % (peers.length + 1) < (k.currentTask :: peers).length := Nat.mod_lt _ (Nat.succ_pos _)
      rw [List.getElem?_eq_getElem hlt] at hturn
      exact (hnodup.getElem_inj_iff).mp ((Option.some.inj hturn).trans hget.symm)

/-- Two tasks of one priority. -/
def twoPeers : List (Action (Config.default 2)) :=
  [.call (.osTaskCreate 1 4 false), .resume, .call (.osTaskCreate 2 4 false), .resume, .run]

def threeTicks : List (Action (Config.default 2)) :=
  [.tickEnter, .tickLeave, .tickEnter, .tickLeave, .resume, .tickEnter, .tickLeave]

theorem turns_taken_thrice : ∃ k s : Kernel (Config.default 2) Links,
    steps step (osInit (Config.default 2) Links) twoPeers = some k ∧
      steps (only step fun k a => decide (Ticking 4 k a)) k threeTicks = some s ∧
      [k.currentTask, 2][3 % 2]? = some s.currentTask ∧
      ∃ others, s.list .ready = ([k.currentTask, 2].rotate 3).tail ++ others ∧ ∀ t ∈ others, s.priority t < 4 := by
  have hrun : (steps step (osInit (Config.default 2) Links) twoPeers).bind (fun k =>
      (steps (only step fun k a => decide (Ticking 4 k a)) k threeTicks).map fun _ =>
        decide (k.list .ready = [2, 0] ∧ k.priority 0 = 0 ∧ ∀ t ∈ [k.currentTask, 2],
          k.priority t = 4 ∧ (k.tasks t).basePriority = 4)) = some true := by decide +kernel
  obtain ⟨k, hk, hrest⟩ := Option.bind_eq_some_iff.mp hrun
  obtain ⟨s, hs, hc⟩ := Option.map_eq_some_iff.mp hrest
  obtain ⟨hready, hzero, hpeers⟩ := of_decide_eq_true hc
  have hcounted : Counted step (Ticking 4) Action.endsTick k 3 s :=
    Counted.only_counted (fun _ _ ha => of_decide_eq_true ha)
      threeTicks .init hs
  refine ⟨k, s, hk, hs, (turns_taken rfl k (Reach.steps_reach _ (fun _ _ _ => trivial) .init hk) 4 [2] [0]
    hready hpeers (fun t ht => ?_)).1 3 s hcounted⟩
  obtain rfl := List.mem_singleton.mp ht
  exact ⟨by rw [hzero]; decide, fun _ => ⟨rfl, hzero⟩⟩

/-- The idle task owns a mutex somebody waits for, so it is as important as the one who waits. -/
def boostedIdle : List (Action (Config.default 2)) :=
  [.call (.osTaskCreate 1 2 false), .resume, .call (.osTaskCreate 2 1 false), .resume,
    .call (.osMutexLock 0), .resume, .run, .call (.osDelay 1), .call (.osMutexLock 0), .resume,
    .tickEnter, .tickLeave, .resume, .resume]

def nineTicks : List (Action (Config.default 2)) :=
  (List.replicate 9 [Action.tickEnter, .tickLeave, .resume]).flatten

/-- It is old enough after some ticks to take a turn. -/
theorem not_turns_taken : ¬ ∀ (k : Kernel (Config.default 2) Links) (p : ℕ)
    (peers others : List (Place (Config.default 2))), Reachable k → k.list .ready = peers ++ others →
    (∀ t ∈ k.currentTask :: peers, k.priority t = p ∧ (k.tasks t).basePriority = p) →
    (∀ t ∈ others, k.priority t < p ∧ t = osIdleTask) →
    ∀ m s, Counted step (Ticking p) Action.endsTick k m s →
      (k.currentTask :: peers)[m % (peers.length + 1)]? = some s.currentTask := by
  intro h
  have hrun : (steps step (osInit (Config.default 2) Links) boostedIdle).bind (fun k =>
      (steps (only step fun k a => decide (Ticking 2 k a)) k nineTicks).map fun s =>
        decide (k.currentTask = 1 ∧ k.list .ready = [0] ∧ k.priority 1 = 2 ∧
          (k.tasks 1).basePriority = 2 ∧ k.priority 0 = 1 ∧ s.currentTask = 0)) = some true := by
    decide +kernel
  obtain ⟨k, hk, hrest⟩ := Option.bind_eq_some_iff.mp hrun
  obtain ⟨s, hs, hc⟩ := Option.map_eq_some_iff.mp hrest
  obtain ⟨hcur, hready, hp, hb, h0, hidle⟩ := of_decide_eq_true hc
  have hcounted : Counted step (Ticking 2) Action.endsTick k _ s :=
    Counted.only_counted (fun _ _ ha => of_decide_eq_true ha) nineTicks .init hs
  have hturn := h k 2 [] [0] (Reach.steps_reach _ (fun _ _ _ => trivial) .init hk) (by rw [hready]; rfl)
    (fun t ht => by
      obtain rfl := List.mem_singleton.mp ht
      rw [hcur]
      exact ⟨hp, hb⟩)
    (fun t ht => by
      obtain rfl := List.mem_singleton.mp ht
      exact ⟨by omega, rfl⟩) _ s hcounted
  rw [hcur, hidle, List.length_nil, Nat.mod_one] at hturn
  cases hturn

end AvrOs
