import AvrOs.Priorities
import AvrOs.World

/-!
# Tasks in line

Whoever waits for an object is in line by priority, and behind those of the same priority
who have been in line for longer. A task gets in line when it goes to sleep, and once more
when its priority changes.
-/

namespace AvrOs
open Intrusive Transition Kernel

variable {c : Config} {k k' : ListKernel c}

/-! ### Steps and the lists of those who wait -/

theorem onReady_wait (k : ListKernel c) (links : Lists (ListId c) (Place c)) (t : Place c)
    (w : WaitList c) : k.onReady links t (.wait w) = links (.wait w) :=
  Lists.insert_of_ne _ _ _ _ _ (by simp)

theorem wake_wait (k : ListKernel c) (t : Place c) (r : Bool) (w : WaitList c) :
    ((k.osWake t r).links (.wait w)).Sublist (k.links (.wait w)) := by
  rw [osWake_eq]
  dsimp only
  rw [onReady_wait]
  exact offWait_sublist ..

theorem detach_wait (k : ListKernel c) (t : Place c) (w : WaitList c) :
    ((k.osTaskDetach t).links (.wait w)).Sublist (k.links (.wait w)) := by
  unfold osTaskDetach
  split
  · exact Lists.remove_sublist k.links .ready (.wait w) t
  · rw [osUnblock_eq]
    exact offWait_sublist ..

theorem ready_wait (k : ListKernel c) (t : Place c) (w : WaitList c) :
    (k.osReady t).links (.wait w) = k.links (.wait w) := by
  rw [osReady_eq]
  exact onReady_wait k k.links t w

/-- Nobody gets in line but by going to sleep and by a change of priority. -/
theorem Atom.wait_sublist (a : Atom c) (h : Sound k) (hg : a.guard k)
    (hr : ∀ t p, a ≠ .requeue t p) (hs : ∀ call list timeout, a ≠ .sleep call list timeout)
    (w : WaitList c) : ((a.apply k).links (.wait w)).Sublist (k.links (.wait w)) := by
  have hclear : ∀ i, (Lists.clear k.links i (.wait w)).Sublist (k.links (.wait w)) := by
    intro i
    unfold Lists.clear
    by_cases hi : ListId.wait w = i
    · subst hi
      simp
    · simp [hi]
  cases a with
  | requeue t p => exact absurd rfl (hr t p)
  | sleep call list timeout => exact absurd rfl (hs call list timeout)
  | called | returns | pause | timerCalled | quiet | take | flagsSet | flagsClear | tick | start
  | settle | setBase | flag | unflag | setWait => exact List.Sublist.refl _
  | mutexInit | semaphoreInit | queueInit | eventInit => exact hclear _
  | leave =>
    rcases leave_cases k with ⟨call, value, -, he⟩ | ⟨-, he⟩
    · rw [apply, he]
      exact List.Sublist.refl _
    · rw [apply, he]
      exact List.Sublist.refl _
  | preempt key =>
    rw [apply, osListInsert]
    dsimp only
    rw [insert_lists, Lists.insert_of_ne _ _ _ _ _ (by simp)]
    exact List.Sublist.refl _
  | dispatch =>
    obtain ⟨-, n, hn⟩ := osDispatch_sound h hg
    rw [apply, osDispatch_eq k n hn]
    dsimp only
    rw [Lists.pop_of_ne _ _ _ (by simp)]
  | expire t => exact wake_wait k t false w
  | kill t => exact detach_wait k t w
  | park t => exact detach_wait k t w
  | unpark t =>
    rw [apply, ready_wait]
    exact List.Sublist.refl _
  | bury t =>
    rw [apply]
    dsimp only
    rw [Lists.push_of_ne _ _ _ _ (by simp)]
  | reap =>
    rw [apply]
    dsimp only
    rw [Lists.pop_of_ne _ _ _ (by simp)]
  | create t p d =>
    rw [apply, osTaskSetup, ready_wait]
    exact List.Sublist.refl _
  | own m =>
    rw [apply, osMutexOwn_eq]
  | release t m =>
    rw [apply, release_eq]
    rcases pass_cases { k with ownedLinks := offOwned k t m } m with ⟨v, rest, -, he⟩ | ⟨-, he⟩
    · rw [he, osMutexOwn_eq]
      exact wake_wait _ v true w
    · rw [he]
      exact List.Sublist.refl _
  | give s =>
    rw [apply]
    rcases give_cases k s with ⟨v, rest, -, he⟩ | ⟨-, -, he⟩ | ⟨-, -, he⟩
    · rw [he]
      exact wake_wait (k.emit (.gave s)) v true w
    · rw [he]
      exact List.Sublist.refl _
    · rw [he]
      exact List.Sublist.refl _
  | send q item =>
    rw [apply]
    rcases send_cases k q item with ⟨v, rest, -, -, he⟩ | ⟨-, -, he⟩ | ⟨-, -, he⟩
    · rw [he, ← hand_links k q item (k.tasks v).wait.itemPtr]
      exact wake_wait _ v true w
    · rw [he, append_links]
    · rw [he]
  | receive q item =>
    rw [apply]
    rcases receive_cases k q item with ⟨v, rest, -, -, he⟩ | ⟨-, -, he⟩ | ⟨-, he⟩
    · rw [he, ← take_links k q item, ← append_links (k.osQueueTake q item) q (k.tasks v).wait.itemPtr]
      exact wake_wait _ v true w
    · rw [he, take_links]
    · rw [he]
  | consume e wanted options =>
    rw [apply]
    unfold osEventConsume
    split <;> exact List.Sublist.refl _
  | serve e t =>
    rw [apply]
    rcases serve_cases k e t with ⟨-, he⟩ | ⟨matched, options, -, -, -, he⟩
    · rw [he]
      exact List.Sublist.refl _
    · rw [he]
      refine (wake_wait _ t true w).trans ?_
      unfold osEventConsume
      split <;> exact List.Sublist.refl _
  | age =>
    rw [apply, age_fold _ _ _ (h.linked.1.separate.nodup _)]

/-- Where nobody waits, nobody does but who goes to sleep there. -/
theorem Atom.wait_nil (a : Atom c) (h : Sound k) (hg : a.guard k) (w : WaitList c)
    (hs : ∀ call timeout, a ≠ .sleep call (some w) timeout) (he : k.links (.wait w) = []) :
    (a.apply k).links (.wait w) = [] := by
  by_cases hr : ∃ t p, a = .requeue t p
  · obtain ⟨t, p, rfl⟩ := hr
    refine List.eq_nil_iff_forall_not_mem.mpr fun u hu => ?_
    rw [apply, requeue_mem h.linked, he] at hu
    cases hu
  · by_cases hsl : ∃ call list timeout, a = .sleep call list timeout
    · obtain ⟨call, list, timeout, rfl⟩ := hsl
      rw [apply, sleep_eq]
      dsimp only
      unfold onWait
      cases list with
      | none => exact he
      | some w' =>
        have hw : ListId.wait w ≠ .wait w' := by
          intro hw
          injection hw with hw
          exact hs call timeout (hw ▸ rfl)
        exact (Lists.insert_of_ne _ _ _ _ _ hw).trans he
    · have hsub := a.wait_sublist h hg (fun t p hx => hr ⟨t, p, hx⟩)
        (fun call list timeout hx => hsl ⟨call, list, timeout, hx⟩) w
      rw [he] at hsub
      exact List.sublist_nil.mp hsub

/-! ### Who is in line for how long -/

/-- The entry tells that the task gets in line, or gets in line once more. -/
def linesUp (t : Place c) : Event c → Bool
  | .blocked u _ _ | .requeued u => u = t
  | _ => false

/-- Entries since the task has got in line. -/
def inLine (log : List (Event c)) (t : Place c) : ℕ := log.findIdx (linesUp t)

theorem inLine_cons (log : List (Event c)) (e : Event c) (t : Place c) :
    inLine (e :: log) t = if linesUp t e then 0 else inLine log t + 1 := by
  unfold inLine
  rw [List.findIdx_cons]
  cases linesUp t e <;> rfl

theorem inLine_append (log es : List (Event c)) (t : Place c) (h : ∀ e ∈ es, linesUp t e = false) :
    inLine (es ++ log) t = es.length + inLine log t := by
  induction es with
  | nil => simp
  | cons e es ih =>
    rw [List.cons_append, inLine_cons, if_neg (by simp [h e List.mem_cons_self]),
      ih fun x hx => h x (List.mem_cons_of_mem e hx), List.length_cons]
    omega

/-- Everybody in line is at the right place. -/
def InLine (k : ListKernel c) : Prop :=
  ∀ w, Fair k.priority (inLine k.log) (k.links (.wait w))

/-- Those who stay in line keep their priority, and nothing is told of them. -/
theorem InLine.stays (h : InLine k) {es : List (Event c)} (hl : k'.log = es ++ k.log)
    (hs : ∀ w, (k'.links (.wait w)).Sublist (k.links (.wait w)))
    (hk : ∀ w, ∀ t ∈ k.links (.wait w), k'.priority t = k.priority t ∧
      ∀ e ∈ es, linesUp t e = false) : InLine k' := by
  intro w
  have hsub := (hs w).subset
  refine ((h w).sublist (hs w)).congr (fun t ht => (hk w t (hsub ht)).1) fun t ht u hu hlt => ?_
  rw [hl, inLine_append _ _ _ (hk w t (hsub ht)).2, inLine_append _ _ _ (hk w u (hsub hu)).2]
  omega

/-- Waiting tasks keep their priority but for a change of priority of their own. -/
theorem Atom.waiter_rank (a : Atom c) (h : Sound k) (hg : a.guard k) (hr : ∀ t p, a ≠ .requeue t p)
    {t : Place c} (hb : k.stateOf t = OS_TASK_BLOCKED) :
    (a.apply k).priority t = k.priority t := by
  have hne : ∀ {s : Byte}, k.stateOf t = s → s ≠ OS_TASK_BLOCKED → False := by
    rintro s rfl hs
    exact hs hb
  cases a with
  | requeue u p => exact absurd rfl (hr u p)
  | start =>
    have hti : t ≠ osIdleTask := by
      rintro rfl
      exact hne (hg.1 ▸ hg.2) (by simp)
    simp [apply, priority, Kernel.setTask, hti]
  | settle =>
    have htc : t ≠ k.currentTask := by
      rintro rfl
      exact hne hg (by simp)
    rw [apply, setPriority_priority, if_neg htc]
  | setBase u p =>
    by_cases hu : t = u
    · subst hu
      simp [apply, priority, Kernel.setTask]
    · simp [apply, priority, Kernel.setTask, hu]
  | create u p d =>
    have htu : t ≠ u := by
      rintro rfl
      exact hne hg.1 (by simp)
    rw [apply, osTaskSetup, osReady_eq]
    simp [priority, Kernel.setTask, Kernel.setFrame, Kernel.emit, htu]
  | age =>
    have htr : t ∉ k.links .ready := fun hm => hne ((h.linked.2 t).ready.mp hm) (by simp)
    rw [apply, age_fold _ _ _ (h.linked.1.separate.nodup _)]
    simp [priority, htr]
  | _ => exact ((Atom.same_rank _ h hg (by simp [Ranks])) t).1

/-- Somebody gets in line, behind those of the same priority. -/
theorem InLine.joins (h : InLine k) {t : Place c} {e : Event c} (hl : k'.log = e :: k.log)
    (he : ∀ u, linesUp u e = true ↔ u = t) (hp : ∀ u, u ≠ t → k'.priority u = k.priority u)
    (hw : ∀ w, ∃ l, l.Sublist (k.links (.wait w)) ∧ t ∉ l ∧ (k'.links (.wait w) = l ∨
      k'.links (.wait w) = l.takeWhile (fun it => k'.priority t ≤ k'.priority it) ++
        t :: l.dropWhile (fun it => k'.priority t ≤ k'.priority it))) : InLine k' := by
  intro w
  obtain ⟨l, hs, ht, hlist⟩ := hw w
  have hne : ∀ u ∈ l, u ≠ t := fun u hu he => ht (he ▸ hu)
  have hage : ∀ u, u ≠ t → inLine k'.log u = inLine k.log u + 1 := fun u hu => by
    rw [hl, inLine_cons, if_neg fun hx => hu ((he u).mp hx)]
  have hold : Fair k'.priority (inLine k'.log) l := by
    refine ((h w).sublist hs).congr (fun u hu => hp u (hne u hu)) fun u hu v hv hlt => ?_
    rw [hage u (hne u hu), hage v (hne v hv)]
    omega
  rcases hlist with hlist | hlist
  · rw [hlist]
    exact hold
  · rw [hlist]
    refine hold.splice t fun u hu => ?_
    rw [hage u (hne u hu), hl, inLine_cons, if_pos ((he t).mpr rfl)]
    omega

theorem requeue_inLine (h : Sound k) (hi : InLine k) (t : Place c) (p : ℕ) :
    InLine ((k.setPriority t p).osRequeue t) := by
  have hsep := h.linked.1.separate
  cases hl : k.priorityList t with
  | none =>
    rw [requeue_off k t p hl]
    have hlog : ((k.setPriority t p).log) = [] ++ k.log := rfl
    refine hi.stays hlog (fun w => List.Sublist.refl _) fun w u hu => ⟨?_, by simp⟩
    rw [setPriority_priority, if_neg]
    rintro rfl
    have := h.linked.priorityList_of_mem (.wait w) (by simp) hu
    rw [hl] at this
    cases this
  | some i =>
    have hlog : ((k.setPriority t p).osRequeue t).log = .requeued t :: k.log := by
      unfold osRequeue
      rw [setPriority_list, hl]
      rfl
    refine hi.joins (t := t) hlog (by simp [linesUp, eq_comm]) (fun u hu => ?_) fun w => ?_
    · rw [requeue_priority, if_neg hu]
    · refine ⟨(k.links (.wait w)).erase t, List.erase_sublist .., (hsep.nodup _).not_mem_erase, ?_⟩
      rw [requeue_links k t p i hl]
      by_cases hw : ListId.wait w = i
      · right
        subst hw
        rw [Lists.insert_self, Lists.remove_self]
        have hpr : ∀ u, ((k.setPriority t p).osRequeue t).priority u = (k.setPriority t p).priority u :=
          fun u => by rw [requeue_priority, setPriority_priority]
        simp only [hpr]
        rw [setPriority_priority, if_pos rfl]
      · left
        have ht : t ∉ k.links (.wait w) := fun hm => by
          have := h.linked.priorityList_of_mem (.wait w) (by simp) hm
          rw [hl] at this
          injection this with this
          exact hw this.symm
        rw [Lists.insert_of_ne _ _ _ _ _ hw, Lists.remove_of_ne _ _ _ _ hw,
          List.erase_of_not_mem ht]

theorem sleep_inLine (h : Sound k) (hi : InLine k) (call : Call c) (list : Option (WaitList c))
    (timeout : OsTick c) (hr : k.stateOf k.currentTask = OS_TASK_RUNNING) :
    InLine (k.sleep call list timeout) := by
  have hfree : ∀ i, k.currentTask ∉ k.links i := (h.linked.running hr).2.1.1
  have hpr : ∀ u, (k.sleep call list timeout).priority u = k.priority u := fun u =>
    (sleep_rank k call list timeout u).1
  have hlog : (k.sleep call list timeout).log = .blocked k.currentTask list timeout :: k.log := by
    rw [sleep_eq]
  refine hi.joins (t := k.currentTask) hlog (by simp [linesUp, eq_comm]) (fun u _ => hpr u)
    fun w => ?_
  refine ⟨k.links (.wait w), List.Sublist.refl _, hfree _, ?_⟩
  simp only [hpr]
  rw [sleep_eq]
  dsimp only
  unfold onWait
  cases list with
  | none => exact Or.inl rfl
  | some w' =>
    by_cases hw : w = w'
    · subst hw
      exact Or.inr (Lists.insert_self ..)
    · exact Or.inl (Lists.insert_of_ne _ _ _ _ _ (by simpa using hw))

theorem Atom.writes_blocked {a : Atom c} {u : Place c} {list : Option (WaitList c)} {timeout : OsTick c}
    (h : a.Writes (.blocked u list timeout)) : ∃ call, a = .sleep call list timeout := by
  cases a with
  | sleep call list timeout =>
    obtain ⟨t, he⟩ := h
    injection he with _ hlist htimeout
    exact ⟨call, by rw [hlist, htimeout]⟩
  | _ => simp [Writes] at h

theorem Atom.writes_requeued {a : Atom c} {u : Place c} (h : a.Writes (.requeued u)) : ∃ p, a = .requeue u p := by
  cases a with
  | requeue t p =>
    injection h with h
    exact ⟨p, by rw [h]⟩
  | _ => simp [Writes] at h

/-- Everybody is in line where it belongs, whatever the kernel does. -/
theorem Atom.inLine (a : Atom c) (h : Sound k) (hg : a.guard k) (hi : InLine k) :
    InLine (a.apply k) := by
  by_cases hr : ∃ t p, a = .requeue t p
  · obtain ⟨t, p, rfl⟩ := hr
    exact requeue_inLine h hi t p
  · by_cases hs : ∃ call list timeout, a = .sleep call list timeout
    · obtain ⟨call, list, timeout, rfl⟩ := hs
      exact sleep_inLine h hi call list timeout hg.2.1
    · have hr' : ∀ t p, a ≠ .requeue t p := fun t p he => hr ⟨t, p, he⟩
      have hs' : ∀ call list timeout, a ≠ .sleep call list timeout := fun call list timeout he =>
        hs ⟨call, list, timeout, he⟩
      obtain ⟨es, he, hw⟩ := a.grows h hg
      refine hi.stays he (a.wait_sublist h hg hr' hs') fun w t ht => ⟨?_, fun e hm => ?_⟩
      · exact a.waiter_rank h hg hr' (h.waiter_blocked ht)
      · have hwr := hw e hm
        cases e with
        | blocked u list timeout =>
          obtain ⟨call, ha⟩ := writes_blocked hwr
          exact absurd ha (hs' call list timeout)
        | requeued u =>
          obtain ⟨p, ha⟩ := writes_requeued hwr
          exact absurd ha (hr' u p)
        | _ => rfl

/-! ### Those who stay in line -/

/-- Whoever goes on waiting is in the same call. -/
theorem Stage.waits {t : Place c} {parks revives beats : Life c → Prop} {l l' : Life c}
    (hst : Stage t parks revives beats l l') (hk : l.kind = OS_TASK_BLOCKED) (hk' : l'.kind = OS_TASK_BLOCKED) :
    l'.frame = l.frame ∧ l'.wait = l.wait := by
  cases hst with
  | rest => exact ⟨rfl, rfl⟩
  | ticked => exact ⟨rfl, rfl⟩
  | called _ _ h | returns _ _ h | pause h | goesOn h | returned _ _ h | setWait _ h | preempt h | dispatch h
  | sleep _ _ _ h | owned _ h | satisfied _ _ _ h =>
    rw [h] at hk
    simp at hk
  | expired | handed | given | served => simp [Life.wakes] at hk'
  | killed | parked | revived | created => simp at hk'
  | released => exact ⟨rfl, rfl⟩

/-- Whoever is still in line was there before, and is in the same call. -/
theorem Atom.still_waits (a : Atom c) (h : Sound k) (hg : a.guard k) (w : WaitList c)
    (hs : ∀ call timeout, a ≠ .sleep call (some w) timeout) {t : Place c} (ht : t ∈ (a.apply k).links (.wait w)) :
    t ∈ k.links (.wait w) ∧ (a.apply k).frames t = k.frames t ∧ ((a.apply k).tasks t).wait = (k.tasks t).wait := by
  have hmem : t ∈ k.links (.wait w) := by
    by_cases hr : ∃ u p, a = .requeue u p
    · obtain ⟨u, p, rfl⟩ := hr
      exact (requeue_mem h.linked p _ t).mp ht
    · by_cases hsl : ∃ call list timeout, a = .sleep call list timeout
      · obtain ⟨call, list, timeout, rfl⟩ := hsl
        rw [apply, sleep_eq] at ht
        dsimp only at ht
        unfold onWait at ht
        cases list with
        | none => exact ht
        | some w' =>
          have hw : ListId.wait w ≠ .wait w' := fun hw => by
            injection hw with hw
            exact hs call timeout (hw ▸ rfl)
          dsimp only at ht
          rwa [Lists.insert_of_ne _ _ _ _ _ hw] at ht
      · exact (a.wait_sublist h hg (fun u p hx => hr ⟨u, p, hx⟩)
          (fun call list timeout hx => hsl ⟨call, list, timeout, hx⟩) w).subset ht
  have hkind : (life k t).kind = OS_TASK_BLOCKED := (h.linked.2 t).blocked w (((h.linked.2 t).wait w).mp hmem)
  have hlinked := (a.sound h hg).linked.2 t
  have hkind' : (life (a.apply k) t).kind = OS_TASK_BLOCKED := hlinked.blocked w ((hlinked.wait w).mp ht)
  have hstage : Stage t (fun _ => True) (fun _ => True) (fun _ => True) (life k t) (life (a.apply k) t) :=
    a.stage h hg t (fun _ => trivial) (fun _ => trivial) fun _ => trivial
  obtain ⟨hf, hx⟩ := hstage.waits hkind hkind'
  exact ⟨hmem, hf, hx⟩

end AvrOs
