import AvrOs.Foremost
import AvrOs.GivingUp
import AvrOs.Lines

/-!
# Preemption does not cost a turn

A task which is preempted goes ahead of everybody it comes before anyway, so those who have been
in line with it find the line as it was once the more important tasks are gone.
-/

namespace AvrOs
open Intrusive Transition Kernel

variable {c : Config} {k k' : ListKernel c}

/-! ### Those who have been in line -/

/-- The current task, those in line behind it and those it inherits from. -/
def Kin (k : ListKernel c) (t : Place c) : Prop :=
  t = k.currentTask ∨ t ∈ k.links .ready ∨ lends k t = some k.currentTask

/-- The current task and those in line behind it. -/
def queued (k : ListKernel c) (t : Place c) : Bool := decide (t ∈ k.currentTask :: k.links .ready)

/-- A task which runs with what it inherits, and nobody is ready who is more important. -/
structure Leads (k : ListKernel c) : Prop where
  sound : Sound k
  running : Running k
  exact : k.priority k.currentTask = inherits k k.currentTask
  top : Top k

/-- The current task of `b` runs, or it is first in line among those who have been in line by then.
All of them are as important as they have been. -/
structure InPlace (b k : ListKernel c) : Prop where
  line : (k.currentTask = b.currentTask ∧ k.stateOf b.currentTask = OS_TASK_RUNNING ∧
      (k.links .ready).filter (queued b) = b.links .ready) ∨
    (k.links .ready).filter (queued b) = b.currentTask :: b.links .ready
  rank : ∀ t, Kin b t → k.priority t = b.priority t
  own : ownPriority k b.currentTask = ownPriority b b.currentTask
  loans : ∀ t, lends k t = some b.currentTask ↔ lends b t = some b.currentTask

section
variable {b : ListKernel c}

theorem queued_kin {t : Place c} (h : queued b t = true) : Kin b t := by
  rcases List.mem_cons.mp (of_decide_eq_true h) with rfl | hl
  · exact Or.inl rfl
  · exact Or.inr (Or.inl hl)

theorem Leads.refl (h : Leads b) : InPlace b b := by
  refine ⟨Or.inl ⟨rfl, h.running.kind, ?_⟩, fun _ _ => rfl, rfl, fun _ => Iff.rfl⟩
  exact List.filter_eq_self.mpr fun t ht => decide_eq_true (List.mem_cons_of_mem _ ht)

/-- Nobody among them is more important than the current task has been. -/
theorem Leads.bound (h : Leads b) {t : Place c} (ht : Kin b t) : b.priority t ≤ b.priority b.currentTask := by
  rcases ht with rfl | hl | hn
  · exact le_rfl
  · exact h.top t hl
  · rw [h.exact]
    exact Donation.waiter_le _ _ hn

theorem InPlace.bound (h : InPlace b k) (hb : Leads b) {t : Place c} (ht : Kin b t) :
    k.priority t ≤ b.priority b.currentTask := by
  rw [h.rank t ht]
  exact hb.bound ht

/-- The task still inherits what it has. -/
theorem InPlace.inherits (h : InPlace b k) (hb : Leads b) :
    inherits k b.currentTask = b.priority b.currentTask := by
  rw [hb.exact]
  refine Donation.inherited_congr h.own (fun t => h.loans t) fun t ht => ?_
  exact h.rank t (Or.inr (Or.inr ht))

/-- Those in line are ready, or it is the task itself which runs. -/
theorem InPlace.kinds (h : InPlace b k) (hs : Sound k) {t : Place c} (ht : queued b t = true) :
    k.stateOf t = OS_TASK_READY ∨ (t = b.currentTask ∧ k.stateOf t = OS_TASK_RUNNING) := by
  have hmem := of_decide_eq_true ht
  have hready : ∀ u, u ∈ (k.links .ready).filter (queued b) → k.stateOf u = OS_TASK_READY :=
    fun u hu => hs.ready_kind (List.mem_of_mem_filter hu)
  rcases h.line with ⟨-, hrun, hl⟩ | hl
  · rw [hl] at hready
    rcases List.mem_cons.mp hmem with rfl | hm
    · exact Or.inr ⟨rfl, hrun⟩
    · exact Or.inl (hready t hm)
  · rw [hl] at hready
    exact Or.inl (hready t hmem)

/-- Nobody of them sleeps but those who wait for a mutex of the task. -/
theorem InPlace.kin_kinds (h : InPlace b k) (hs : Sound k) {t : Place c} (ht : Kin b t) :
    k.stateOf t = OS_TASK_READY ∨ k.stateOf t = OS_TASK_BLOCKED ∨
      (t = b.currentTask ∧ k.stateOf t = OS_TASK_RUNNING) := by
  have hline : queued b t = true → k.stateOf t = OS_TASK_READY ∨ k.stateOf t = OS_TASK_BLOCKED ∨
      (t = b.currentTask ∧ k.stateOf t = OS_TASK_RUNNING) := fun hm => by
    rcases h.kinds hs hm with hr | hr
    · exact Or.inl hr
    · exact Or.inr (Or.inr hr)
  rcases ht with rfl | hl | hn
  · exact hline (decide_eq_true List.mem_cons_self)
  · exact hline (decide_eq_true (List.mem_cons_of_mem _ hl))
  · obtain ⟨-, m, hm, -⟩ := hs.lends_iff.mp ((h.loans t).mpr hn)
    exact Or.inr (Or.inl (hs.waiter_blocked hm))

/-- Somebody else who runs is none of them. -/
theorem InPlace.stranger (h : InPlace b k) (hs : Sound k) {t : Place c} (hr : k.stateOf t = OS_TASK_RUNNING)
    (hne : t ≠ b.currentTask) : ¬ Kin b t := by
  intro ht
  rcases h.kin_kinds hs ht with hk | hk | ⟨he, -⟩
  · rw [hk] at hr
    simp at hr
  · rw [hk] at hr
    simp at hr
  · exact hne he

/-- What the rest of the invariant says is about the line. -/
theorem InPlace.stays (h : InPlace b k) (hs : Stays (queued b) k k')
    (hrank : ∀ t, Kin b t → k'.priority t = k.priority t)
    (hown : ownPriority k' b.currentTask = ownPriority k b.currentTask)
    (hloans : ∀ t, lends k' t = some b.currentTask ↔ lends k t = some b.currentTask) : InPlace b k' := by
  refine ⟨?_, fun t ht => (hrank t ht).trans (h.rank t ht), hown.trans h.own,
    fun t => (hloans t).trans (h.loans t)⟩
  rw [hs.line, hs.current, hs.kind _ (decide_eq_true List.mem_cons_self)]
  exact h.line

/-- Steps which leave those in line and those the task inherits from alone. -/
def Atom.Heeds (b k : ListKernel c) : Atom c → Prop
  | .requeue t _ | .setBase t _ | .kill t | .park t => ¬ Kin b t
  | .preempt key => k.currentTask = b.currentTask → key = k.priority k.currentTask + 1
  | .sleep _ list _ => k.currentTask ≠ b.currentTask ∧ ∀ m, list ≠ some (.mutex m)
  | .release t _ => t ≠ b.currentTask
  | .start | .age | .expire _ => False
  | _ => True

/-- If one of them is switched in, it is the task itself. -/
theorem dispatch_inPlace (h : InPlace b k) (hs : Sound k) (hg : k.stateOf k.currentTask ≠ OS_TASK_RUNNING) :
    InPlace b k.osDispatch := by
  obtain ⟨-, n, hn⟩ := osDispatch_sound hs hg
  obtain ⟨hl, hp, hc⟩ := dispatch_frame hn
  have hrank := (Atom.dispatch).same_rank hs hg id
  have hline : (k.links .ready).filter (queued b) = b.currentTask :: b.links .ready := by
    refine h.line.resolve_left fun hrun => hg ?_
    rw [hrun.1]
    exact hrun.2.1
  have hready : k.links .ready = n :: (k.links .ready).tail := (List.cons_head?_tail hn).symm
  rw [hready] at hline
  refine ⟨?_, fun t ht => (congrFun hp t).trans (h.rank t ht), (congrFun hrank.own _).trans h.own,
    fun t => ?_⟩
  · rw [hc, hl]
    cases hq : queued b n with
    | true =>
      rw [List.filter_cons_of_pos hq] at hline
      injection hline with he ht
      refine Or.inl ⟨he, ?_, ht⟩
      rw [osDispatch_eq k n hn, ← he, stateOf]
      dsimp only
      rw [Function.update_self]
      exact kind_running
    | false =>
      rw [List.filter_cons_of_neg (by simp [hq])] at hline
      exact Or.inr hline
  · have he : lends k.osDispatch t = lends k t := Atom.lends .dispatch hs hg id id
    rw [he]
    exact h.loans t

/-- The task goes ahead of all the others when it is preempted. -/
theorem preempt_inPlace (h : InPlace b k) (hb : Leads b) (hs : Sound k) (key : ℕ)
    (hg : (Atom.preempt key).guard k) (hc : k.currentTask = b.currentTask)
    (hkey : key = k.priority k.currentTask + 1) : InPlace b ((Atom.preempt key).apply k) := by
  have hrank := (Atom.preempt key).same_rank hs hg id
  have hfirst : queued b k.currentTask = true := by
    rw [hc]
    exact decide_eq_true List.mem_cons_self
  refine ⟨Or.inr ?_, fun t ht => (hrank t).1.trans (h.rank t ht), (congrFun hrank.own _).trans h.own,
    fun t => ?_⟩
  · have hline : (k.links .ready).filter (queued b) = b.links .ready := by
      rcases h.line with ⟨-, -, hl⟩ | hl
      · exact hl
      · have hm : k.currentTask ∈ (k.links .ready).filter (queued b) := by
          rw [hl, hc]
          exact List.mem_cons_self
        have hk := hs.ready_kind (List.mem_of_mem_filter hm)
        rw [hg.1] at hk
        simp at hk
    show (Lists.insert k.links .ready k.currentTask _ .ready).filter _ = _
    rw [Lists.insert_self, filter_splice_ahead _ _ _ _ hfirst, hline, hc]
    intro t _ hq
    have hle := h.bound hb (queued_kin hq)
    have hcur := h.rank b.currentTask (Or.inl rfl)
    rw [setState_priority, hkey, hc]
    exact decide_eq_false (by omega)
  · have he : lends ((Atom.preempt key).apply k) t = lends k t := Atom.lends _ hs hg id id
    rw [he]
    exact h.loans t

/-- A mutex of somebody else is passed on to somebody else. -/
theorem release_loans (h : InPlace b k) (hs : Sound k) {t m : Place c} (ho : k.owner m = some t)
    (ht : t ≠ b.currentTask) (u : Place c) :
    lends ((Atom.release t m).apply k) u = some b.currentTask ↔ lends k u = some b.currentTask := by
  rw [hs.release_lends]
  by_cases hm : waitsFor k u = some m
  · have hold : lends k u ≠ some b.currentTask := fun hl => by
      unfold lends at hl
      rw [hm, Option.bind_some, ho] at hl
      split at hl
      · exact ht (Option.some.inj hl)
      · cases hl
    have hhead : (k.links (.wait (.mutex m))).head? ≠ some b.currentTask := fun hh => by
      have hb := hs.waiter_blocked (List.mem_of_head? hh)
      rcases h.kinds hs (decide_eq_true List.mem_cons_self) with hk | ⟨-, hk⟩
      · rw [hk] at hb
        simp at hb
      · rw [hk] at hb
        simp at hb
    rw [if_pos hm]
    refine iff_of_false (fun hl => ?_) hold
    split at hl
    · cases hl
    · split at hl
      · exact hhead hl
      · cases hl
  · rw [if_neg hm]

theorem Atom.heeds_loans (x : Atom c) (h : InPlace b k) (hs : Sound k) (hg : x.guard k) (hx : x.Heeds b k)
    (u : Place c) : AvrOs.lends (x.apply k) u = some b.currentTask ↔ AvrOs.lends k u = some b.currentTask := by
  by_cases hw : x.Withdraws u
  · have hno : ¬ Kin b u := by
      cases x with
      | kill t | park t => exact (show t = u from hw) ▸ hx
      | expire => exact absurd hx id
      | _ => exact absurd hw id
    rw [x.withdrawn_lends hs hw]
    exact iff_of_false (by simp) fun hl => hno (Or.inr (Or.inr ((h.loans u).mp hl)))
  · by_cases hr : x.Relinks
    · cases x with
      | release t m => exact release_loans h hs hg.1 hx u
      | sleep call list timeout =>
        cases list with
        | none => exact absurd hr id
        | some w => cases w with
          | mutex m => exact absurd rfl (hx.2 m)
          | _ => exact absurd hr id
      | _ => exact absurd hr id
    · rw [x.lends hs hg hr hw]

theorem Atom.heeds_rank (x : Atom c) (h : InPlace b k) (hb : Leads b) (hs : Sound k) (hg : x.guard k)
    (hx : x.Heeds b k) : (∀ t, Kin b t → (x.apply k).priority t = k.priority t) ∧
      ownPriority (x.apply k) b.currentTask = ownPriority k b.currentTask := by
  by_cases hr : x.Ranks
  · cases x with
    | start | age => exact absurd hx id
    | settle =>
      refine ⟨fun t ht => ?_, congrFun (setPriority_own k _ _) _⟩
      show (k.setPriority k.currentTask (k.osInheritedPriority k.currentTask)).priority t = _
      rw [setPriority_priority]
      split
      case isTrue hc =>
        subst hc
        have he : k.currentTask = b.currentTask := by_contra fun hne => h.stranger hs hg hne ht
        rw [hs.inherited_eq, h.rank _ ht, he]
        exact h.inherits hb
      case isFalse => rfl
    | requeue t p =>
      refine ⟨fun u hu => ?_, requeue_base k t b.currentTask p⟩
      show ((k.setPriority t p).osRequeue t).priority u = _
      rw [requeue_priority, if_neg]
      rintro rfl
      exact hx hu
    | setBase t p =>
      refine ⟨fun u _ => congrFun (rebased_priority k t p) u, ?_⟩
      show ownPriority (rebased k t p) b.currentTask = _
      rw [rebased_own, Function.update_of_ne]
      rintro rfl
      exact hx (Or.inl rfl)
    | create t p d =>
      have hne : ∀ u, Kin b u → u ≠ t := by
        rintro u hu rfl
        rcases h.kin_kinds hs hu with hk | hk | ⟨-, hk⟩
        all_goals
          rw [hg.1] at hk
          simp at hk
      refine ⟨fun u hu => ?_, ?_⟩
      · rw [priority, create_tasks, Function.update_of_ne (hne u hu)]
        rfl
      · rw [ownPriority, create_tasks, Function.update_of_ne (hne _ (Or.inl rfl))]
        rfl
    | _ => exact absurd hr id
  · have hsame := x.same_rank hs hg hr
    exact ⟨fun t _ => (hsame t).1, (hsame _).2⟩

theorem Atom.inPlace (x : Atom c) (h : InPlace b k) (hb : Leads b) (hs : Sound k) (hg : x.guard k)
    (hx : x.Heeds b k) : InPlace b (x.apply k) := by
  by_cases hd : x = .dispatch
  · subst hd
    exact dispatch_inPlace h hs hg
  by_cases hp : ∃ key, x = .preempt key ∧ k.currentTask = b.currentTask
  · obtain ⟨key, rfl, hc⟩ := hp
    exact preempt_inPlace h hb hs key hg hc (hx hc)
  · obtain ⟨hrank, hown⟩ := x.heeds_rank h hb hs hg hx
    refine h.stays (x.stays hs hg hd (fun t ht => ?_) fun t ht => ?_) hrank hown (x.heeds_loans h hs hg hx)
    · rcases h.kinds hs ht with hk | ⟨-, hk⟩
      · exact Or.inl hk
      · exact Or.inr hk
    · refine Bool.eq_false_iff.mpr fun hq => ?_
      have hkin := queued_kin hq
      cases x with
      | requeue u p => exact hx ((show u = t from ht) ▸ hkin)
      | kill u | park u => exact hx ((show u = t from ht) ▸ hkin)
      | preempt key =>
        obtain rfl : k.currentTask = t := ht
        exact h.stranger hs hg.1 (fun hc => hp ⟨key, rfl, hc⟩) hkin
      | sleep call list timeout =>
        obtain rfl : k.currentTask = t := ht
        exact h.stranger hs hg.2.1 hx.1 hkin
      | _ => exact ht

end

/-! ### Runs -/

section
variable {S : Type → Type → Type} [LinkStore S]

/-- The call takes nobody away from a list and changes nobody's priority but those of the current
task and of tasks more important than `p`. -/
def Above (p : ℕ) (k : Kernel c S) : Call c → Prop
  | .osTaskDelete o | .osTaskSuspend o =>
    o.getD k.currentTask = k.currentTask ∨ p < k.priority (o.getD k.currentTask)
  | .osTaskSetPriority o _ => ∀ u, Donation.Reaches k.blockingOwner (o.getD k.currentTask) u →
      u = k.currentTask ∨ p < k.priority u
  | _ => True

/-- What may happen between two ticks while `t` has to stand aside: handlers wake others up, and
these run, block or exit, but leave mutexes and tasks which are not more important alone. -/
def Aside (t : Place c) (p : ℕ) (k : Kernel c S) : Action c → Prop
  | .call x => k.currentTask ≠ t ∧ x.mutex = none ∧ Above p k x
  | .resume => inMutexCall k = false
  | .isrEnter _ | .isrCall _ | .isrLeave | .store _ _ | .setTickVar _ _ => True
  | .run | .tickEnter | .tickTimer | .tickLeave => False

end

section
variable {b s : ListKernel c} {a : Action c}

/-- Whoever a call may be about is none of those in line. -/
theorem InPlace.target (h : InPlace b s) (hb : Leads b) (hr : Rest s) (hc : s.currentTask ≠ b.currentTask)
    {t : Place c} (ht : t = s.currentTask ∨ b.priority b.currentTask < s.priority t) : ¬ Kin b t := by
  rcases ht with rfl | hlt
  · exact h.stranger hr.sound hr.running.kind hc
  · exact fun hk => absurd (h.bound hb hk) (by omega)

theorem delete_inPlace (hb : Leads b) (hs : Sound k) (h : InPlace b k) {t : Place c}
    (hg : (Move.delete t).guard k) (ht : ¬ Kin b t) (hc : k.currentTask ≠ b.currentTask) :
    InPlace b ((Move.delete t).apply k) := by
  refine ((Move.delete t).run hs hg |>.keeps (I := fun r => InPlace b r ∧ r.currentTask ≠ b.currentTask) hs
    (fun r x hr hx hu hi => ?_) ⟨h, hc⟩).1
  have hd : x ≠ .dispatch := by
    rcases hu with rfl | ⟨m, rfl⟩ | rfl <;> simp
  refine ⟨x.inPlace hi.1 hb hr hx ?_, (x.same_current hr hx hd).trans_ne hi.2⟩
  rcases hu with rfl | ⟨m, rfl⟩ | rfl
  · exact ht
  · exact fun he => ht (Or.inl he)
  · exact trivial

theorem block_inPlace (hb : Leads b) (hs : Sound k) (h : InPlace b k) {call : Call c}
    {list : Option (WaitList c)} {timeout : OsTick c} (hg : (Move.block call list timeout).guard k)
    (hm : ∀ m, list ≠ some (.mutex m)) (hc : k.currentTask ≠ b.currentTask) :
    InPlace b ((Move.block call list timeout).apply k) := by
  refine ((Move.block call list timeout).run hs hg |>.keeps
    (I := fun r => InPlace b r ∧ r.currentTask ≠ b.currentTask) hs (fun r x hr hx hu hi => ?_) ⟨h, hc⟩).1
  have hd : x ≠ .dispatch := by
    rcases hu with rfl | rfl <;> simp
  refine ⟨x.inPlace hi.1 hb hr hx ?_, (x.same_current hr hx hd).trans_ne hi.2⟩
  rcases hu with rfl | rfl
  · exact trivial
  · exact ⟨hi.2, hm⟩

theorem Move.inPlace (mv : Move c) (hb : Leads b) (hr : Rest s) (hi : InPlace b s)
    (ha : Aside b.currentTask (b.priority b.currentTask) s a) (hs : Sound k) (h : InPlace b k)
    (hg : mv.guard k) (hm : Allowed s a k mv) : InPlace b (mv.apply k) := by
  cases mv with
  | one x =>
    refine x.inPlace h hb hs hg.2 ?_
    cases x with
    | start =>
      obtain ⟨rfl, -⟩ := hm
      exact ha
    | age =>
      obtain ⟨-, rfl⟩ := hm
      exact ha
    | requeue | setBase | kill | sleep | release | expire => exact absurd hg.1 id
    | preempt key =>
      obtain ⟨hc, hkey | hy⟩ := hm
      · exact fun _ => hkey
      · intro he
        cases a with
        | call x => exact absurd (hc.symm.trans he) ha.1
        | tickLeave => exact absurd ha id
        | _ => exact absurd hy id
    | park t =>
      obtain ⟨ht, o, rfl, rfl, -⟩ := hm
      exact hi.target hb hr ha.1 ha.2.2
    | _ => exact trivial
  | giveUp m =>
    obtain ⟨rfl, call, hf, hc⟩ := hm
    have hno : inMutexCall s = false := ha
    simp [inMutexCall, hf, hc] at hno
  | repriority t p =>
    obtain ⟨ht, ho, o, q, rfl, rfl⟩ := hm
    have hchain : k.blockingOwner = s.blockingOwner := by
      funext u
      rw [Kernel.blockingOwner, Kernel.blockingOwner, ht, ho]
    have hfar : ∀ u, Donation.Reaches k.blockingOwner (o.getD s.currentTask) u → ¬ Kin b u := by
      intro u hu
      rw [hchain] at hu
      exact hi.target hb hr ha.1 (ha.2.2 u hu)
    exact (repriority_run (P := fun x => ∀ r, x.Heeds b r) hs _ p hg.1 hg.2 (fun _ => hfar _ .refl)
      fun u hu _ _ => hfar u hu).keeps hs (fun r x hr hx hu hi => x.inPlace hi hb hr hx (hu r)) h
  | block call list timeout =>
    obtain ⟨rfl, hc⟩ := hm
    refine block_inPlace hb hs h hg (fun m he => ?_) (hc.trans_ne ha.1)
    subst he
    obtain ⟨-, -, rfl | ⟨rfl, -⟩⟩ := hg.2.2.2.2.2
    · exact absurd ha.2.1 (by simp [Call.mutex])
    · exact absurd ha.2.1 (by simp [Call.mutex])
  | lock call m owner timeout =>
    obtain rfl : a = _ := hm
    rcases hg.2.2.2.2.2.2.2 with rfl | ⟨rfl, -⟩
    · exact absurd ha.2.1 (by simp [Call.mutex])
    · exact absurd ha.2.1 (by simp [Call.mutex])
  | lockIdle m owner =>
    obtain ⟨-, -, rfl | ⟨timeout, -, rfl⟩⟩ := hm
    · exact absurd ha.2.1 (by simp [Call.mutex])
    · exact absurd ha.2.1 (by simp [Call.mutex])
  | unlock m =>
    obtain rfl : a = _ := hm
    exact absurd ha.2.1 (by simp [Call.mutex])
  | delete t =>
    obtain ⟨ht, o, rfl, rfl⟩ := hm
    have hcur : k.currentTask = s.currentTask := by
      refine (hs.alive.running s.currentTask ?_).symm
      rw [ht]
      exact hr.running.kind
    exact delete_inPlace hb hs h hg (hi.target hb hr ha.1 ha.2.2) (hcur.trans_ne ha.1)
  | setEvent e flags =>
    refine ((Move.setEvent e flags).run hs hg).keeps hs (fun r x hr hx hu hi => x.inPlace hi hb hr hx ?_) h
    rcases hu with rfl | ⟨t, rfl⟩
    · exact trivial
    · exact trivial
  | tick =>
    obtain ⟨rfl, -⟩ := hm
    exact absurd ha id

/-- In a run of such actions the task is where it has to be all the time. -/
theorem aside_inPlace (hb : Leads b) (hk : Rest b)
    (h : Reach step (Aside b.currentTask (b.priority b.currentTask)) b k) : Rest k ∧ InPlace b k := by
  refine h.invariant (I := fun s => Rest s ∧ InPlace b s) ⟨hk, hb.refl⟩ ?_
  intro s a s' _ hi ha hs
  have hm := (step_moves hi.1.sound hi.1.running hi.1.noDead hs).1
  refine ⟨hi.1.step hs, (hm.invariant (I := fun r => Sound r ∧ InPlace b r)
    (fun r mv hg hr => ?_) ⟨hi.1.sound, hi.2⟩).2⟩
  exact ⟨mv.sound hr.1 hg.1, mv.inPlace hb hi.1 hi.2 ha hr.1 hr.2 hg.1 hg.2⟩

/-- Nobody is left but those who have been in line. -/
theorem InPlace.back (h : InPlace b k) (hk : Rest k)
    (hgone : ∀ t, k.stateOf t = OS_TASK_READY ∨ k.stateOf t = OS_TASK_RUNNING → queued b t = true) :
    k.currentTask = b.currentTask ∧ k.links .ready = b.links .ready := by
  have hall : (k.links .ready).filter (queued b) = k.links .ready :=
    List.filter_eq_self.mpr fun t ht => hgone t (Or.inl (hk.sound.ready_kind ht))
  rcases h.line with ⟨hc, -, hl⟩ | hl
  · exact ⟨hc, hall.symm.trans hl⟩
  · have hq := of_decide_eq_true (hgone k.currentTask (Or.inr hk.running.kind))
    have hm : k.currentTask ∈ k.links .ready := by
      rw [← hall, hl]
      exact hq
    exact absurd hm (hk.sound.current_unready hk.running)

theorem Sim.aside {k : Kernel c Links} {l : ListKernel c} (h : Sim k l) {t : Place c} {p : ℕ}
    (ha : Aside t p k a) : Aside t p l a := by
  cases a with
  | call x =>
    refine ⟨h.current ▸ ha.1, ha.2.1, ?_⟩
    have habove := ha.2.2
    cases x with
    | osTaskDelete o | osTaskSuspend o =>
      simp only [Above] at habove ⊢
      rwa [h.priority, h.current] at habove
    | osTaskSetPriority o q =>
      intro u hu
      rw [← h.current, ← h.priority]
      refine habove u ?_
      rw [h.blockingOwner, h.current]
      exact hu
    | _ => exact trivial
  | resume =>
    show inMutexCall l = false
    rw [inMutexCall, ← h.frames, ← h.current]
    exact ha
  | _ => exact ha

end

/-- A preempted task runs again once nobody is ready who has not been before, and those in line
behind it are in line as they have been. -/
theorem preempted_returns (k k' : Kernel c Links) (h : Reachable k)
    (hp : k.priority k.currentTask = k.osInheritedPriority k.currentTask) (hf : Foremost k)
    (hrun : Reach step (Aside k.currentTask (k.priority k.currentTask)) k k')
    (hgone : ∀ t, k'.stateOf t = OS_TASK_READY ∨ k'.stateOf t = OS_TASK_RUNNING →
      k.stateOf t = OS_TASK_READY ∨ k.stateOf t = OS_TASK_RUNNING) :
    k'.currentTask = k.currentTask ∧ k'.stateOf k.currentTask = OS_TASK_RUNNING ∧
      k'.list .ready = k.list .ready := by
  obtain ⟨l, hl, hs⟩ := reachable_lists h
  have hrest := rest_of_reachable hl
  have hleads : Leads l := by
    refine ⟨hrest.sound, hrest.running, ?_, fun t ht => ?_⟩
    · rw [← hrest.sound.inherited_eq, ← hs.priority, ← hs.inherited, ← hs.current]
      exact hp
    · rw [← hs.priority, ← hs.priority, ← hs.current]
      exact hf t (by rw [hs.list]; exact ht)
  obtain ⟨l', hr, hs'⟩ := hrun.simulate hs fun s a s' t ht hst ha hstep => ⟨hst.aside ha,
    step_sim hst (ht.invariant hrest fun _ _ _ _ hi _ hs => hi.step hs) a hstep⟩
  rw [hs.current, hs.priority] at hr
  obtain ⟨hrest', hplace⟩ := aside_inPlace hleads hrest hr
  obtain ⟨hc, hready⟩ := hplace.back hrest' fun t ht => by
    rw [← hs'.stateOf] at ht
    have hold := hgone t ht
    rw [hs.stateOf] at hold
    refine decide_eq_true ?_
    rcases hold with hk | hk
    · exact List.mem_cons_of_mem _ ((hrest.sound.linked.2 t).ready.mpr hk)
    · exact (hrest.sound.alive.running t hk) ▸ List.mem_cons_self
  refine ⟨?_, ?_, ?_⟩
  · rw [hs'.current, hc, hs.current]
  · rw [hs'.stateOf, hs.current, ← hc]
    exact hrest'.running.kind
  · rw [hs'.list, hs.list, hready]

/-- A task runs, another one of its priority is in line behind it, a third one sleeps. -/
def twoInLine : List (Action (Config.default 3)) :=
  [.call (.osTaskCreate 1 2 false), .resume, .call (.osTaskCreate 2 2 false), .resume,
    .call (.osTaskCreate 3 5 false), .resume, .run, .call (.osSemaphoreTake 0 (OS_WAIT_FOREVER _))]

/-- A handler wakes the third one up, which comes back to its semaphore. -/
def wokenAndGone : List (Action (Config.default 3)) :=
  [.isrEnter true, .isrCall (.osSemaphoreGiveFromISR 0), .isrLeave, .resume, .resume,
    .call (.osSemaphoreTake 0 (OS_WAIT_FOREVER _)), .resume]

/-- Actions of handlers, and calls of anybody but the first task. -/
def wakesOrWaits (k : Kernel (Config.default 3) Links) : Action (Config.default 3) → Bool
  | .call (.osSemaphoreTake _ _) => k.currentTask ≠ 1
  | .resume => !inMutexCall k
  | .isrEnter _ | .isrCall _ | .isrLeave => true
  | _ => false

theorem preempted_returns_taken : ∃ k k' : Kernel (Config.default 3) Links,
    steps step (osInit (Config.default 3) Links) twoInLine = some k ∧
      steps (only step wakesOrWaits) k wokenAndGone = some k' ∧
      k'.currentTask = k.currentTask ∧ k'.stateOf k.currentTask = OS_TASK_RUNNING ∧
      k'.list .ready = k.list .ready := by
  have hrun : (steps step (osInit (Config.default 3) Links) twoInLine).bind (fun k =>
      (steps (only step wakesOrWaits) k wokenAndGone).map fun k' =>
        decide (k.currentTask = 1 ∧ k.priority k.currentTask = k.osInheritedPriority k.currentTask ∧
          (∀ t ∈ k.list .ready, k.priority t ≤ k.priority k.currentTask) ∧
          ∀ t, k'.stateOf t = OS_TASK_READY ∨ k'.stateOf t = OS_TASK_RUNNING →
            k.stateOf t = OS_TASK_READY ∨ k.stateOf t = OS_TASK_RUNNING)) = some true := by decide +kernel
  obtain ⟨k, hk, hrest⟩ := Option.bind_eq_some_iff.mp hrun
  obtain ⟨k', hk', hc⟩ := Option.map_eq_some_iff.mp hrest
  obtain ⟨hcur, hp, hf, hgone⟩ := of_decide_eq_true hc
  have hreach : Reachable k := Reach.steps_reach _ (fun _ _ _ => trivial) .init hk
  have haside : Reach step (Aside k.currentTask (k.priority k.currentTask)) k k' := by
    refine Reach.only_reach (fun s a ha => ?_) wokenAndGone .init hk'
    unfold wakesOrWaits at ha
    split at ha
    · exact ⟨by rw [hcur]; exact of_decide_eq_true ha, rfl, trivial⟩
    · exact Bool.not_inj ha
    · exact trivial
    · exact trivial
    · exact trivial
    · cases ha
  exact ⟨k, k', hk, hk', preempted_returns k k' hreach hp hf haside hgone⟩

end AvrOs
