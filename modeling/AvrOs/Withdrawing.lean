import AvrOs.Settling

/-!
# Waiters taken away by somebody else

A task which waits for a mutex is deleted, suspended or given another priority. Nobody looks after
the owner of the mutex then, so it is left with what it has inherited from that task, unless
somebody else is a reason for it as well.
-/

namespace AvrOs
open Intrusive Transition Kernel

variable {c : Config}

/-- The call takes the task away from whatever it waits for, or gives it another priority. -/
def Call.takes (W : Place c) : Call c → Prop
  | .osTaskDelete t | .osTaskSuspend t | .osTaskSetPriority t _ => t = some W
  | _ => False

section
variable {S : Type → Type → Type} [LinkStore S]

/-- Somebody else but `W` is a reason for the priority of `t`, if only its own priority. -/
def Reasoned (k : Kernel c S) (W t : Place c) : Prop :=
  Donation.Reasoned k.blockingOwner (fun u => (k.tasks u).basePriority) k.priority W t

/-- The owner `o` can do without `W`. Whoever is next in line for a mutex of a task which is deleted
inherits from those behind it. A task which keeps its priority is not missed at all. -/
def Dispensable (k : Kernel c S) (W o : Place c) : Call c → Prop
  | .osTaskDelete _ => Reasoned k W o ∨ o = W ∨ ∃ m, k.owner m = some W ∧
      (k.waiters (.mutex m)).head? = some o ∧
        ∃ v ∈ (k.waiters (.mutex m)).tail, k.priority v = k.priority o
  | .osTaskSetPriority _ p => (k.priority W ≤ osTaskPriority p.toNat ∨
      ∃ u, k.blockingOwner u = some W ∧ k.priority u = k.priority W) ∨ Reasoned k W o
  | _ => Reasoned k W o

end

section
variable {k k' s : ListKernel c} {t u v o W : Place c}

/-! ### Mutexes passed on by a dead task -/

/-- `v` is behind the first one in line for a mutex of `W`, which is `t`. -/
def Behind (k : ListKernel c) (W t v : Place c) : Prop :=
  ∃ m, k.owner m = some W ∧ (k.links (.wait (.mutex m))).head? = some t ∧
    v ∈ (k.links (.wait (.mutex m))).tail

theorem release_owner (k : ListKernel c) (t m : Place c) : ((Atom.release t m).apply k).owner =
    Function.update k.owner m (k.links (.wait (.mutex m))).head? := by
  rw [Atom.apply, release_eq]
  rcases pass_cases { k with ownedLinks := offOwned k t m } m with ⟨w, rest, hl, he⟩ | ⟨hl, he⟩
  · rw [he, osWake_eq, osMutexOwn_eq, show k.links (.wait (.mutex m)) = w :: rest from hl]
    rfl
  · rw [he, show k.links (.wait (.mutex m)) = [] from hl]
    rfl

/-- Lines for other mutexes stay as they are. -/
theorem Sound.release_line (h : Sound k) (t : Place c) {m m' : Place c} (hm : m' ≠ m) :
    ((Atom.release t m).apply k).links (.wait (.mutex m')) = k.links (.wait (.mutex m')) := by
  rw [Atom.apply, release_eq]
  rcases pass_cases { k with ownedLinks := offOwned k t m } m with ⟨w, rest, hl, he⟩ | ⟨hl, he⟩
  · have hw := ((h.linked.2 w).wait (.mutex m)).mp (by rw [show k.links _ = w :: rest from hl]; simp)
    rw [he, osWake_eq, osMutexOwn_eq]
    simp [onReady, offWait, hw, Lists.insert, Lists.remove, hm]
  · rw [he]
    rfl

theorem Sound.tail_waits (h : Sound k) {m : Place c} (hv : v ∈ (k.links (.wait (.mutex m))).tail) :
    waitsFor k v = some m := h.waitsFor_mem.mpr (List.mem_of_mem_tail hv)

/-- Behind the first one in line means in line, but not the first one. -/
theorem Sound.tail_iff (h : Sound k) {m : Place c} (hm : waitsFor k v = some m) :
    v ∈ (k.links (.wait (.mutex m))).tail ↔ (k.links (.wait (.mutex m))).head? ≠ some v := by
  have hmem := h.waitsFor_mem.mp hm
  have hnd := h.linked.1.separate.nodup (.wait (.mutex m))
  cases hl : k.links (.wait (.mutex m)) with
  | nil =>
    rw [hl] at hmem
    cases hmem
  | cons w rest =>
    rw [hl] at hmem hnd
    obtain ⟨hw, -⟩ := List.nodup_cons.mp hnd
    rw [List.tail_cons, List.head?_cons]
    constructor
    · rintro hv he
      injection he with he
      exact hw (he ▸ hv)
    · intro hne
      exact (List.mem_cons.mp hmem).resolve_left fun he => hne (by rw [he])

/-- Whoever is behind the first one in line lends to it once the mutex is passed on. -/
theorem Sound.release_behind (h : Sound k) (hinh : c.mutexInheritance = true) {m : Place c}
    (ho : k.owner m = some W) (hW : k.stateOf W ≠ OS_TASK_BLOCKED) (ht : t ≠ W) (v : Place c) :
    lends ((Atom.release W m).apply k) v = some t ∨ Behind ((Atom.release W m).apply k) W t v ↔
      lends k v = some t ∨ Behind k W t v := by
  have hother : ∀ {m'}, ((Atom.release W m).apply k).owner m' = some W → m' ≠ m := by
    rintro m' ho' rfl
    rw [release_owner, Function.update_self] at ho'
    exact hW (h.waiter_blocked (List.mem_of_mem_head? ho'))
  have hbehind : Behind ((Atom.release W m).apply k) W t v ↔
      ∃ m', m' ≠ m ∧ k.owner m' = some W ∧ (k.links (.wait (.mutex m'))).head? = some t ∧
        v ∈ (k.links (.wait (.mutex m'))).tail := by
    constructor
    · rintro ⟨m', ho', hh, hv⟩
      have hm := hother ho'
      rw [h.release_line W hm] at hh hv
      rw [release_owner, Function.update_of_ne hm] at ho'
      exact ⟨m', hm, ho', hh, hv⟩
    · rintro ⟨m', hm, ho', hh, hv⟩
      refine ⟨m', ?_, ?_, ?_⟩
      · rw [release_owner, Function.update_of_ne hm, ho']
      · rw [h.release_line W hm, hh]
      · rwa [h.release_line W hm]
  rw [h.release_lends, hbehind]
  by_cases hm : waitsFor k v = some m
  · have hl : lends k v ≠ some t := by
      rw [lends, if_pos hinh, hm, Option.bind_some, ho]
      exact fun he => ht (Option.some.inj he).symm
    have hnot : ¬ ∃ m', m' ≠ m ∧ k.owner m' = some W ∧ (k.links (.wait (.mutex m'))).head? = some t ∧
        v ∈ (k.links (.wait (.mutex m'))).tail := by
      rintro ⟨m', hne, -, -, hv⟩
      rw [h.tail_waits hv] at hm
      exact hne (Option.some.inj hm)
    have hk : Behind k W t v ↔ (k.links (.wait (.mutex m))).head? = some t ∧
        v ∈ (k.links (.wait (.mutex m))).tail := by
      constructor
      · rintro ⟨m', -, hh, hv⟩
        rw [h.tail_waits hv] at hm
        obtain rfl := Option.some.inj hm
        exact ⟨hh, hv⟩
      · rintro ⟨hh, hv⟩
        exact ⟨m, ho, hh, hv⟩
    rw [if_pos hm, if_pos hinh, hk, h.tail_iff hm, or_iff_left hnot, or_iff_right hl]
    split
    case isTrue he => simp [he]
    case isFalse he => exact ⟨fun hh => ⟨hh, he⟩, And.left⟩
  · rw [if_neg hm]
    refine or_congr_right ⟨?_, ?_⟩
    · rintro ⟨m', -, ho', hh, hv⟩
      exact ⟨m', ho', hh, hv⟩
    · rintro ⟨m', ho', hh, hv⟩
      refine ⟨m', ?_, ho', hh, hv⟩
      rintro rfl
      exact hm (h.tail_waits hv)

/-- A task which is killed leaves the line it is in, others stay as they are. -/
theorem kill_line (k : ListKernel c) {w : WaitList c} (hw : (k.tasks W).waitList ≠ some w) :
    ((Atom.kill W).apply k).links (.wait w) = k.links (.wait w) := by
  show (k.osTaskDetach W).links (.wait w) = k.links (.wait w)
  unfold osTaskDetach
  split
  · simp [osListRemove, Lists.remove]
  · rw [osUnblock_eq]
    unfold offWait
    cases hl : (k.tasks W).waitList with
    | none => rfl
    | some w' =>
      rw [hl] at hw
      have hne : ListId.wait w ≠ ListId.wait w' := fun he => hw (by injection he with he; rw [he])
      simp [Lists.remove, hne]

theorem kill_behind (h : Sound k) (hg : (Atom.kill W).guard k)
    (hW : ∀ m, waitsFor k W = some m → k.owner m ≠ some W) (t v : Place c) :
    Behind ((Atom.kill W).apply k) W t v ↔ Behind k W t v := by
  have hown : ((Atom.kill W).apply k).owner = k.owner := Atom.owner _ h hg (by simp) (by simp)
  have hline : ∀ m, k.owner m = some W →
      ((Atom.kill W).apply k).links (.wait (.mutex m)) = k.links (.wait (.mutex m)) :=
    fun m ho => kill_line k fun hw => hW m (waitsFor_iff.mpr hw) ho
  unfold Behind
  rw [hown]
  constructor
  · rintro ⟨m, ho, hh, hv⟩
    rw [hline m ho] at hh hv
    exact ⟨m, ho, hh, hv⟩
  · rintro ⟨m, ho, hh, hv⟩
    exact ⟨m, ho, by rw [hline m ho, hh], by rwa [hline m ho]⟩

/-- Who lends to a task after another one which waits for no mutex of its own is gone. -/
theorem delete_lends (h : Sound k) (hinh : c.mutexInheritance = true) (hg : (Move.delete W).guard k)
    (hW : ∀ m, waitsFor k W = some m → k.owner m ≠ some W) (ht : t ≠ W) (v : Place c) :
    lends (delete k W) v = some t ↔ v ≠ W ∧ lends k v = some t ∨ Behind k W t v := by
  have hkill : (Atom.kill W).guard k := hg
  have hks := Atom.sound (.kill W) h hkill
  have hdead := kill_dead h W hg.2
  have hreleased : lends (released k W) v = some t ∨ Behind (released k W) W t v ↔
      lends ((Atom.kill W).apply k) v = some t ∨ Behind ((Atom.kill W).apply k) W t v := by
    unfold released
    dsimp only
    rw [if_pos hinh]
    refine ((releaseLoop_run (c.places + 1) hks hinh W hdead.1).keeps (I := fun s => Dead W s ∧
      (lends s v = some t ∨ Behind s W t v ↔ lends ((Atom.kill W).apply k) v = some t ∨
        Behind ((Atom.kill W).apply k) W t v)) hks (fun s a hs hga ha hi => ?_) ⟨hdead, Iff.rfl⟩).2
    obtain ⟨m, rfl⟩ := ha
    have hnb : s.stateOf W ≠ OS_TASK_BLOCKED := by
      rw [hi.1.1]
      simp
    exact ⟨release_dead hs hi.1, (hs.release_behind hinh hga.1 hnb ht v).trans hi.2⟩
  have hlends : lends (delete k W) v = lends (released k W) v := by
    unfold delete
    dsimp only
    split <;> rfl
  have hnone : ¬ Behind (released k W) W t v := by
    rintro ⟨m, ho, -⟩
    have hs := Move.sound (.delete W) h hg
    have ho' : (delete k W).owner m = some W := by
      unfold delete
      dsimp only
      split <;> exact ho
    have hm := (hs.owned.records hinh m W).mpr ho'
    rw [show ((Move.delete W).apply k).ownedLinks W = [] from delete_owned h W hg.1 hg.2 hinh] at hm
    cases hm
  have hfirst : lends ((Atom.kill W).apply k) v = some t ↔ v ≠ W ∧ lends k v = some t := by
    by_cases hv : v = W
    · subst hv
      rw [Atom.withdrawn_lends (.kill v) h rfl]
      simp
    · rw [Atom.lends (.kill W) h hkill id fun he => hv he.symm]
      simp [hv]
  rw [or_iff_left hnone] at hreleased
  rw [hlends, hreleased, hfirst, kill_behind h hkill hW]

/-! ### Who is left with what it inherits -/

theorem reasoned_eq (hinh : c.mutexInheritance = true) (k : ListKernel c) (W t : Place c) :
    Reasoned k W t ↔ Donation.Reasoned (lends k) (ownPriority k) k.priority W t := by
  rw [Reasoned, lends_eq hinh]
  exact Iff.rfl

theorem park_exact_iff (h : Sound k) (hinh : c.mutexInheritance = true)
    (hg : (Atom.park W).guard k) (hex : k.priority t = inherits k t) (hW : lends k W = some o) :
    ((Atom.park W).apply k).priority t = inherits ((Atom.park W).apply k) t ↔
      t ≠ o ∨ Reasoned k W o := by
  have hr := Atom.same_rank (.park W) h hg id
  have hl : ∀ v, lends ((Atom.park W).apply k) v = some t ↔ v ≠ W ∧ lends k v = some t ∨ False := by
    intro v
    by_cases hv : v = W
    · subst hv
      rw [Atom.withdrawn_lends (.park v) h rfl]
      simp
    · rw [Atom.lends (.park W) h hg id fun he => hv he.symm]
      simp [hv]
  rw [inherits, Donation.exact_left hex (congrFun hr.priority t) (congrFun hr.own t) (fun _ hf => absurd hf id) hl
    fun v _ _ => congrFun hr.priority v, or_iff_left (by simp), reasoned_eq hinh]
  exact Donation.reasoned_iff hex hW

theorem delete_exact_iff (h : Sound k) (hinh : c.mutexInheritance = true)
    (hg : (Move.delete W).guard k) (hself : ∀ m, waitsFor k W = some m → k.owner m ≠ some W)
    (hW : lends k W = some o) (ht : t ≠ W) (hex : k.priority t = inherits k t) :
    (delete k W).priority t = inherits (delete k W) t ↔
      t ≠ o ∨ Reasoned k W o ∨ ∃ v, Behind k W o v ∧ k.priority v = k.priority o := by
  have hr : SameRank k (delete k W) := by
    refine (Move.run (.delete W) h hg).keeps (I := SameRank k) h (fun s a hs hga hu hi => ?_) (.refl k)
    refine hi.trans (a.same_rank hs hga fun hra => ?_)
    rcases hu with rfl | ⟨m, rfl⟩ | rfl <;> exact hra
  have hbehind : ∀ v, Behind k W t v → k.priority v ≤ k.priority t := by
    rintro v ⟨m, -, hh, hv⟩
    exact (h.linked.1.wait (.mutex m)).head_max t hh v (List.mem_of_mem_tail hv)
  rw [inherits, Donation.exact_left hex (congrFun hr.priority t) (congrFun hr.own t)
    (fun v hv => by rw [hr.priority]; exact hbehind v hv) (delete_lends h hinh hg hself ht)
    fun v _ _ => congrFun hr.priority v, hr.priority, reasoned_eq hinh, Donation.reasoned_iff hex hW]
  by_cases hto : t = o
  · simp [hto]
  · simp [hto]

/-- What the task has of its own or from those who wait for it is enough to keep its priority. -/
theorem keeps_iff (h : Sound k) (hn : NoDead k) (hex : AllExact k) (p : ℕ) :
    k.priority W ≤ inherits (rebased k W p) W ↔
      k.priority W ≤ p ∨ ∃ u, lends k u = some W ∧ k.priority u = k.priority W := by
  rw [inherits, Donation.le_inherited_iff, (rebased_same k W p).lends, rebased_priority, rebased_own,
    Function.update_self]
  refine or_congr_right (exists_congr fun u => and_congr_right fun hu => ?_)
  exact ⟨fun hle => le_antisymm (hex.lender h hn hu) hle, fun he => he.ge⟩

theorem repriority_exact_iff (h : Sound k) (hn : NoDead k) (hinh : c.mutexInheritance = true)
    (hex : AllExact k) (p : ℕ) (hlo : 1 ≤ p) (hhi : p ≤ 254) (hW : lends k W = some o) (ht : k.stateOf t ≠ OS_TASK_DEAD) :
    (repriority k W p).priority t = inherits (repriority k W p) t ↔
      t ≠ o ∨ (k.priority W ≤ p ∨ ∃ u, lends k u = some W ∧ k.priority u = k.priority W) ∨
        Reasoned k W o := by
  have helse : ∀ u, u ≠ W → inherits (rebased k W p) u = inherits k u := fun u => rebased_inherits W u p
  have hp := repriority_priorities h W p hlo hhi
  have hbase : ∀ u, inherits (rebased k W p) u =
      Donation.inherited (lends k) (ownPriority (rebased k W p)) k.priority u := by
    intro u
    rw [inherits, (rebased_same k W p).lends, rebased_priority]
  have hafter : ∀ u, inherits (repriority k W p) u = Donation.inherited (lends k)
      (ownPriority (rebased k W p)) (repriority k W p).priority u := by
    intro u
    rw [inherits, repriority_lends, repriority_own]
  rw [← keeps_iff h hn hex, or_left_comm]
  generalize hq : inherits (rebased k W p) W = q at hp ⊢
  rcases lt_trichotomy (k.priority W) q with hlt | heq | hgt
  · rw [if_pos hlt, Donation.raise_eq _ _ (fun u v _ huv => Or.inl (hex.lender h hn huv))
      (below_places _ _)] at hp
    refine iff_of_true ?_ (Or.inl hlt.le)
    rw [hafter, hp]
    refine Donation.raised_exact (fun hne => ?_) fun he => ?_
    · rw [← hbase, helse t hne]
      exact hex t ht
    · rw [← hbase, hq]
      exact max_eq_right hlt.le
  · rw [if_neg heq.not_lt, Donation.lowered, ← hbase, hq, if_neg heq.not_gt] at hp
    refine iff_of_true ?_ (Or.inl heq.le)
    rw [hafter, hp, ← hbase]
    by_cases hne : t = W
    · rw [hne, hq, heq]
    · rw [helse t hne]
      exact hex t ht
  · rw [if_neg hgt.not_gt, Donation.lowered, ← hbase, hq, if_pos hgt] at hp
    rw [or_iff_right hgt.not_ge]
    by_cases hne : t = W
    · have hto : t ≠ o := by
        rintro rfl
        rw [← hne] at hW
        have hself := Donation.waiter_le (ownPriority (rebased k W p)) k.priority hW
        rw [← hbase, hne, hq] at hself
        omega
      refine iff_of_true ?_ (Or.inl hto)
      rw [hafter, hp, hne, Function.update_self, ← hq, hbase]
      refine (Donation.inherited_congr rfl (fun _ => Iff.rfl) fun v hv => ?_).symm
      refine Function.update_of_ne ?_ ..
      rintro rfl
      rw [hW] at hv
      exact hto (hne.trans (Option.some.inj hv).symm)
    · have hle : lends k W = some t → q < k.priority t := fun hl =>
        hgt.trans_le (hex.lender h hn hl)
      have hothers : ∀ v, v ≠ W → (repriority k W p).priority v = k.priority v := fun v hv => by
        rw [hp, Function.update_of_ne hv]
      have hself : (repriority k W p).priority W = q := by rw [hp, Function.update_self]
      have hH : ∀ v, v = W ∧ lends k W = some t → (repriority k W p).priority v < k.priority t := by
        rintro v ⟨rfl, hl⟩
        rw [hself]
        exact hgt.trans_le (hex.lender h hn hl)
      have hl : ∀ v, lends (repriority k W p) v = some t ↔
          v ≠ W ∧ lends k v = some t ∨ v = W ∧ lends k W = some t := by
        intro v
        rw [repriority_lends]
        by_cases hv : v = W
        · simp [hv]
        · simp [hv]
      have hown : ownPriority (repriority k W p) t = ownPriority k t := by
        rw [repriority_own, rebased_own, Function.update_of_ne hne]
      rw [inherits, Donation.exact_left (hex t ht) (hothers t hne) hown (fun v hv => (hH v hv).le) hl
        fun v hv _ => hothers v hv]
      rw [or_iff_left (not_exists.mpr fun v hv => (hH v hv.1).ne hv.2), reasoned_eq hinh]
      exact Donation.reasoned_iff (hex t ht) hW

/-! ### Calls -/

theorem SameLoans.of_tasks (hp : ∀ u, (k'.tasks u).priority = (k.tasks u).priority)
    (hb : ∀ u, (k'.tasks u).basePriority = (k.tasks u).basePriority)
    (hw : ∀ u, (k'.tasks u).waitList = (k.tasks u).waitList) (ho : k'.owner = k.owner) :
    SameLoans k k' := by
  refine ⟨funext hp, funext hb, funext fun u => ?_⟩
  unfold AvrOs.lends
  rw [waitsFor_congr (hw u), ho]

/-- Without aging a switch is nothing to priorities. -/
theorem schedule_loans (ha : c.aging = false) (k : ListKernel c) (yield : ℕ) :
    SameLoans k (k.osSchedule yield) := by
  have hstate : ∀ (s : ListKernel c) t x, SameLoans s (s.setState t x) := fun s t x => by
    refine .of_tasks (fun u => ?_) (fun u => ?_) (fun u => ?_) rfl <;>
    · by_cases hu : u = t
      · subst hu
        simp [setState, setTask]
      · simp [setState, setTask, hu]
  have hd : ∀ s : ListKernel c, SameLoans s s.osDispatch := by
    intro s
    unfold osDispatch
    split
    · exact (hstate _ _ _).trans ⟨rfl, rfl, rfl⟩
    · exact .refl s
  unfold osSchedule
  split
  · dsimp only
    rw [settle_off ha]
    have hq : SameLoans (k.setState k.currentTask OS_TASK_READY)
        ((k.setState k.currentTask OS_TASK_READY).osListInsert .ready k.currentTask
          (((k.setState k.currentTask OS_TASK_READY).priority k.currentTask + 1 - yield) % 256)) :=
      ⟨rfl, rfl, rfl⟩
    exact (hstate k _ _).trans (hq.trans (hd _))
  · exact .refl k

/-- Tasks die by `osTaskDelete` and come to life by `osTaskCreate`. -/
theorem Moves.dead_iff {b : ListKernel c} {a : Action c} (hm : Moves b a k k') (hs : Sound k)
    (hdel : ∀ x, a = .call (.osTaskDelete x) → x.getD b.currentTask ≠ t)
    (hcre : ∀ p d, a ≠ .call (.osTaskCreate t p d)) :
    k'.stateOf t = OS_TASK_DEAD ↔ k.stateOf t = OS_TASK_DEAD := by
  refine (hm.invariant (I := fun s => Sound s ∧ (s.stateOf t = OS_TASK_DEAD ↔ k.stateOf t = OS_TASK_DEAD))
    (fun s mv hg hi => ?_) ⟨hs, Iff.rfl⟩).2
  refine ⟨mv.sound hi.1 hg.1, (mv.run hi.1 hg.1).keeps
    (I := fun s => s.stateOf t = OS_TASK_DEAD ↔ k.stateOf t = OS_TASK_DEAD) hi.1
    (fun r x hr hx hu hd => ?_) hi.2⟩
  by_cases hk : ∃ v, x = .kill v
  · obtain ⟨v, rfl⟩ := hk
    obtain ⟨w, rfl⟩ := mv.uses_kill hg.1 v hu
    obtain ⟨-, o, ho, hw⟩ := hg.2
    have hvt : t ≠ v := by
      rcases hu with hu | ⟨m, hu⟩ | hu
      · injection hu with hu
        rw [hu, ← hw]
        exact (hdel o ho).symm
      · cases hu
      · cases hu
    rwa [stateOf, kill_tasks hr.linked, Function.update_of_ne hvt]
  · by_cases hc : ∃ v p d, x = .create v p d
    · obtain ⟨v, p, d, rfl⟩ := hc
      have hvt : t ≠ v := by
        rintro rfl
        cases mv with
        | one y =>
          obtain rfl : Atom.create t p d = y := hu
          obtain ⟨q, he⟩ := hg.2
          exact hcre q d he
        | _ => simp [Move.Uses] at hu
      rwa [stateOf, create_tasks, Function.update_of_ne hvt]
    · exact (x.dead_iff hr hx (fun v he => hk ⟨v, he⟩) (fun v p d he => hc ⟨v, p, d, he⟩) t).trans hd

/-- What the call does before the switch. -/
theorem suspend_step (h : Rest k) (hW : k.stateOf W = OS_TASK_BLOCKED) (hi : W ≠ osIdleTask)
    (hcur : W ≠ k.currentTask) (hs : k.step (.call (.osTaskSuspend (some W))) = some k') :
    ∃ s, Alike k s ∧ (Atom.park W).guard s ∧ k' = (Atom.park W).apply s := by
  obtain ⟨s, he, -, rfl⟩ := entered h hs
  have hst : s.stateOf W = OS_TASK_BLOCKED := by rw [stateOf, he.tasks]; exact hW
  have hal := he.toAlike.returns (.osTaskSuspend (some W)) .void
  have hc : W ≠ osIdleTask ∧ (s.returns (.osTaskSuspend (some W)) .void).stateOf W ≠ OS_TASK_SUSPENDED ∧
      (s.returns (.osTaskSuspend (some W)) .void).stateOf W ≠ OS_TASK_DEAD := by
    change W ≠ osIdleTask ∧ s.stateOf W ≠ _ ∧ s.stateOf W ≠ _
    rw [hst]
    exact ⟨hi, by simp, by simp⟩
  refine ⟨_, hal, ⟨hi, hc.2.2, hc.2.1⟩, ?_⟩
  show s.osTaskSuspend (some W) = _
  unfold osTaskSuspend
  dsimp only [Option.getD_some]
  rw [if_pos hc, if_neg (by rw [he.current]; exact hcur)]
  rfl

theorem delete_step (h : Rest k) (hW : k.stateOf W = OS_TASK_BLOCKED)
    (hi : W ≠ osIdleTask) (hcur : W ≠ k.currentTask)
    (hs : k.step (.call (.osTaskDelete (some W))) = some k') :
    ∃ s, Alike k s ∧ (Move.delete W).guard s ∧ k' = (delete s W).osSchedule 0 := by
  obtain ⟨s, he, -, rfl⟩ := entered h hs
  have hst : s.stateOf W = OS_TASK_BLOCKED := by rw [stateOf, he.tasks]; exact hW
  have hal := he.toAlike.returns (.osTaskDelete (some W)) .void
  have hc : W ≠ osIdleTask ∧ (s.returns (.osTaskDelete (some W)) .void).stateOf W ≠ OS_TASK_DEAD := by
    change W ≠ osIdleTask ∧ s.stateOf W ≠ _
    rw [hst]
    exact ⟨hi, by simp⟩
  refine ⟨_, hal, hc, ?_⟩
  show s.osTaskDelete (some W) = _
  unfold osTaskDelete
  dsimp only [Option.getD_some]
  rw [if_pos hc, if_neg (by rw [he.current]; exact hcur)]
  rfl

theorem delete_running (h : Sound k) (hr : Running k) (hg : (Move.delete W).guard k)
    (hcur : W ≠ k.currentTask) : Running (delete k W) := by
  have hb : k.stateOf k.currentTask ≠ OS_TASK_BLOCKED := by
    rw [hr.kind]
    simp
  rw [Running, delete_current h W hg.1 hg.2, delete_frame h W hg.1 hg.2 k.currentTask (Ne.symm hcur) hb]
  exact hr

theorem setPriority_step (h : Rest k) (p : Byte)
    (hs : k.step (.call (.osTaskSetPriority (some W) p)) = some k') :
    ∃ s, Alike k s ∧ k' = (repriority s W (osTaskPriority p.toNat)).osSchedule 0 := by
  obtain ⟨s, he, -, rfl⟩ := entered h hs
  exact ⟨_, he.toAlike.returns (.osTaskSetPriority (some W) p) .void, rfl⟩

theorem Alike.reasoned (h : Alike k s) : Reasoned s W t ↔ Reasoned k W t := by
  have hb : s.blockingOwner = k.blockingOwner := by
    funext u
    rw [Kernel.blockingOwner, Kernel.blockingOwner, h.tasks, h.owner]
  rw [Reasoned, Reasoned, hb, h.loans.priority, h.tasks]

theorem Alike.behind (h : Alike k s) : Behind s W t v ↔ Behind k W t v := by
  rw [Behind, Behind, h.owner, h.links]

theorem Alike.allExact (h : Alike k s) (hex : AllExact k) : AllExact s :=
  hex.same h.loans fun t ht => by rwa [stateOf, h.tasks] at ht

theorem Sound.idle_awake (h : Sound k) (hW : k.stateOf W = OS_TASK_BLOCKED) : W ≠ osIdleTask := by
  rintro rfl
  rcases h.alive.idle with hi | hi
  · rw [stateOf, hi] at hW
    simp at hW
  · rw [stateOf, hi] at hW
    simp at hW

/-- The call leaves the owner with what it inherits if it can do without the waiter. -/
theorem taken_exact_iff {call : Call c} (hk : Rest k) (hinh : c.mutexInheritance = true)
    (ha : c.aging = false) (hex : AllExact k) (hl : lends k W = some o) (hcur : W ≠ k.currentTask)
    (hx : call.takes W) (hs : k.step (.call call) = some k') (ht : k.stateOf t ≠ OS_TASK_DEAD)
    (hdel : call = .osTaskDelete (some W) → t ≠ W ∧ o ≠ W) :
    Exact k' t ↔ t ≠ o ∨ Dispensable k W o call := by
  obtain ⟨-, m, hm, ho⟩ := hk.sound.lends_iff.mp hl
  have hw := hk.sound.waitsFor_mem.mpr hm
  have hblocked := hk.sound.waiter_blocked hm
  have hi := hk.sound.idle_awake hblocked
  rw [(hk.step hs).sound.exact_iff]
  cases call with
  | osTaskSuspend x =>
    obtain rfl : x = some W := hx
    obtain ⟨s, he, hg, rfl⟩ := suspend_step hk hblocked hi hcur hs
    rw [park_exact_iff he.sound hinh hg (he.allExact hex t (by rwa [stateOf, he.tasks]))
      (by rw [he.loans.lends, hl]), he.reasoned]
    exact Iff.rfl
  | osTaskDelete x =>
    obtain rfl : x = some W := hx
    obtain ⟨htW, hoW⟩ := hdel rfl
    obtain ⟨s, he, hg, rfl⟩ := delete_step hk hblocked hi hcur hs
    have hloans := schedule_loans ha (delete s W) 0
    have hself : ∀ m', waitsFor s W = some m' → s.owner m' ≠ some W := by
      intro m' hm' ho'
      rw [waitsFor_tasks he.tasks, hw] at hm'
      obtain rfl := Option.some.inj hm'
      rw [he.owner, ho] at ho'
      exact hoW (Option.some.inj ho')
    rw [hloans.priority, hloans.inherits, delete_exact_iff he.sound hinh hg hself
      (by rw [he.loans.lends, hl]) htW (he.allExact hex t (by rwa [stateOf, he.tasks])), he.reasoned]
    refine or_congr_right (or_congr_right ?_)
    rw [or_iff_right hoW]
    simp only [he.behind, he.loans.priority]
    constructor
    · rintro ⟨v, ⟨m', ho', hh, hv⟩, hp⟩
      exact ⟨m', ho', hh, v, hv, hp⟩
    · rintro ⟨m', ho', hh, v, hv, hp⟩
      exact ⟨v, ⟨m', ho', hh, hv⟩, hp⟩
  | osTaskSetPriority x p =>
    obtain rfl : x = some W := hx
    obtain ⟨s, he, rfl⟩ := setPriority_step hk p hs
    obtain ⟨hlo, hhi⟩ := osTaskPriority_bounds p.toNat
    have hloans := schedule_loans ha (repriority s W (osTaskPriority p.toNat)) 0
    rw [hloans.priority, hloans.inherits, repriority_exact_iff he.sound he.noDead hinh
      (he.allExact hex) _ hlo hhi (by rw [he.loans.lends, hl]) (by rwa [stateOf, he.tasks]),
      he.reasoned, he.loans.priority, he.loans.lends, lends_eq hinh]
    exact Iff.rfl
  | _ => exact absurd hx id

/-- The same of everybody on the chain. -/
theorem taken_chain_iff {call : Call c} (hk : Rest k) (hinh : c.mutexInheritance = true)
    (ha : c.aging = false) (hex : AllExact k) (hl : lends k W = some o) (hcur : W ≠ k.currentTask)
    (hx : call.takes W) (hs : k.step (.call call) = some k') :
    (∀ t, Donation.Reaches k.blockingOwner o t → k'.stateOf t ≠ OS_TASK_DEAD → Exact k' t) ↔
      Dispensable k W o call := by
  obtain ⟨-, m, hm, ho⟩ := hk.sound.lends_iff.mp hl
  have hblocked := hk.sound.waiter_blocked hm
  have ho' : k.stateOf o ≠ OS_TASK_DEAD := hk.noDead hinh m o ho
  have hmoves := (step_moves hk.sound hk.running hk.noDead hs).1
  have hgone : call = .osTaskDelete (some W) → k'.stateOf W = OS_TASK_DEAD := by
    rintro rfl
    obtain ⟨s, he, hg, rfl⟩ := delete_step hk hblocked (hk.sound.idle_awake hblocked) hcur hs
    have hr := delete_running he.sound he.running hg (by rw [he.current]; exact hcur)
    refine (Moves.dead_iff (schedule_moves (a := .isrLeave) (Move.sound _ he.sound hg) hr rfl 0
      (Or.inl rfl)).1 (Move.sound _ he.sound hg) (by simp) (by simp)).mpr ?_
    exact delete_kind he.sound W hg.1 hg.2
  constructor
  · intro h
    by_cases hself : call = .osTaskDelete (some W) ∧ o = W
    · obtain ⟨rfl, rfl⟩ := hself
      exact Or.inr (Or.inl rfl)
    · have hdel : ∀ x, call = .osTaskDelete x → x.getD k.currentTask ≠ o := by
        rintro x rfl
        obtain rfl : x = some W := hx
        exact fun he => hself ⟨rfl, he.symm⟩
      have hlive : k'.stateOf o ≠ OS_TASK_DEAD := by
        rwa [Ne, hmoves.dead_iff hk.sound]
        · rintro x hc
          injection hc with hc
          exact hdel x hc
        · rintro p d hc
          injection hc with hc
          subst hc
          exact hx
      exact ((taken_exact_iff hk hinh ha hex hl hcur hx hs ho' fun he =>
        ⟨fun h' => hself ⟨he, h'⟩, fun h' => hself ⟨he, h'⟩⟩).mp (h o .refl hlive)).resolve_left
          fun hne => hne rfl
  · intro hd t ht hlive
    rw [← lends_eq hinh] at ht
    refine (taken_exact_iff hk hinh ha hex hl hcur hx hs (reached_live hk.sound hk.noDead ho' ht)
      fun he => ?_).mpr (Or.inr hd)
    have htW : t ≠ W := by
      rintro rfl
      exact hlive (hgone he)
    refine ⟨htW, ?_⟩
    rintro rfl
    refine htW ?_
    clear hlive htW
    induction ht with
    | refl => rfl
    | tail _ hv ih =>
      rw [ih, hl] at hv
      exact (Option.some.inj hv).symm

end

/-- Owners have what they inherit after a waiter was taken away if and only if the first one can do
without the waiter. -/
theorem boost_withdrawn_iff {k k₁ : Kernel c Links} {W o m : Place c} {call : Call c}
    (hinh : c.mutexInheritance = true) (ha : c.aging = false) (hk : Reachable k)
    (hexact : ∀ t, k.stateOf t ≠ OS_TASK_DEAD → Exact k t)
    (hw : (k.tasks W).waitList = some (.mutex m)) (ho : k.owner m = some o) (hcur : W ≠ k.currentTask)
    (hx : call.takes W) (hcall : k.step (.call call) = some k₁) :
    (∀ t, Donation.Reaches k.blockingOwner o t → k₁.stateOf t ≠ OS_TASK_DEAD → Exact k₁ t) ↔
      Dispensable k W o call := by
  obtain ⟨l, hl, hs⟩ := reachable_lists hk
  have hr := rest_of_reachable hl
  obtain ⟨l₁, hcall', hs₁⟩ := step_sim hs hr _ hcall
  have hlends : lends l W = some o := by
    rw [lends_eq hinh, ← hs.blockingOwner, Kernel.blockingOwner, hw]
    exact ho
  have hiff := taken_chain_iff hr hinh ha (hs.allExact hr.sound hexact) hlends
    (by rw [← hs.current]; exact hcur) hx hcall'
  have hreasoned : Reasoned k W o ↔ Reasoned l W o := by
    rw [Reasoned, Reasoned, hs.blockingOwner, hs.tasks, show k.priority = l.priority from funext hs.priority]
  have hdis : Dispensable k W o call ↔ Dispensable l W o call := by
    have hwaiters : k.waiters = l.waiters := by
      funext w
      exact hs.links_list (.wait w)
    cases call with
    | osTaskDelete x => simp only [Dispensable, hreasoned, hs.owner, hwaiters, hs.priority]
    | osTaskSetPriority x p => simp only [Dispensable, hreasoned, hs.blockingOwner, hs.priority]
    | _ => exact hreasoned
  rw [hdis, hs.blockingOwner]
  simp only [hs₁.exact, hs₁.stateOf]
  exact hiff

/-- A task of priority 5 waits for the mutex of a task of priority 3, which sleeps. -/
def waiterOf : List (Action (Config.ageless 2)) :=
  [.call (.osTaskCreate 1 3 false), .resume, .run, .call (.osMutexLock 0), .resume,
    .call (.osSemaphoreTake 0 (OS_WAIT_FOREVER _)), .resume, .call (.osTaskCreate 2 5 false),
    .call (.osMutexLock 0), .resume]

/-- Two tasks of priority 5 wait for the mutex of task 1, which waits for the one of task 4. -/
def twoWaiters : List (Action (Config.ageless 4)) :=
  [.call (.osTaskCreate 4 2 false), .resume, .run, .call (.osMutexLock 1), .resume,
    .call (.osTaskCreate 1 3 false), .call (.osMutexLock 0), .resume, .call (.osMutexLock 1), .resume,
    .call (.osTaskCreate 2 5 false), .call (.osMutexLock 0), .resume, .call (.osTaskCreate 3 5 false),
    .resume, .call (.osSemaphoreTake 0 (OS_WAIT_FOREVER _)), .call (.osMutexLock 0), .resume]

/-- Task 2, which waits for mutex 0 of task 1, is suspended by the idle task. -/
def suspendedAfter {n : ℕ} (run : List (Action (Config.ageless (n + 1)))) (check : Kernel (Config.ageless (n + 1)) Links →
    Kernel (Config.ageless (n + 1)) Links → Bool) : Option Bool :=
  (steps step (osInit _ Links) run).bind fun k =>
    (k.step (.call (.osTaskSuspend (some 2)))).map fun k₁ =>
      decide ((∀ t, k.stateOf t ≠ OS_TASK_DEAD → Exact k t) ∧
        (k.tasks 2).waitList = some (.mutex 0) ∧ k.owner 0 = some 1 ∧ 2 ≠ k.currentTask ∧ check k k₁ = true)

theorem suspendedAfter_suspended {n : ℕ} (run : List (Action (Config.ageless (n + 1))))
    (check : Kernel (Config.ageless (n + 1)) Links → Kernel (Config.ageless (n + 1)) Links → Bool)
    (h : suspendedAfter run check = some true) :
    ∃ k k₁ : Kernel (Config.ageless (n + 1)) Links, Reachable k ∧
      (∀ t, k.stateOf t ≠ OS_TASK_DEAD → Exact k t) ∧ (k.tasks 2).waitList = some (.mutex 0) ∧
      k.owner 0 = some 1 ∧ 2 ≠ k.currentTask ∧
      k.step (.call (.osTaskSuspend (some 2))) = some k₁ ∧ check k k₁ = true := by
  obtain ⟨k, hk, h⟩ := Option.bind_eq_some_iff.mp h
  obtain ⟨k₁, hk₁, h⟩ := Option.map_eq_some_iff.mp h
  obtain ⟨hexact, hw, hown, hcur, hcheck⟩ := of_decide_eq_true h
  exact ⟨k, k₁, Reach.steps_reach _ (fun _ _ _ => trivial) .init hk, hexact, hw, hown, hcur, hk₁, hcheck⟩

/-- The owner is left with the priority of a waiter which does not wait anymore. -/
theorem boost_not_withdrawn : ¬ ∀ (k k₁ : Kernel (Config.ageless 2) Links) (W o m : Place _) (call : Call _),
    Reachable k → (∀ t, k.stateOf t ≠ OS_TASK_DEAD → Exact k t) →
      (k.tasks W).waitList = some (.mutex m) → k.owner m = some o → W ≠ k.currentTask → call.takes W →
      k.step (.call call) = some k₁ →
      ∀ t, Donation.Reaches k.blockingOwner o t → k₁.stateOf t ≠ OS_TASK_DEAD → Exact k₁ t := by
  intro h
  obtain ⟨k, k₁, hk, hexact, hw, hown, hcur, hcall, hcheck⟩ := suspendedAfter_suspended waiterOf
    (fun _ k₁ => decide (k₁.stateOf 1 = OS_TASK_BLOCKED ∧ k₁.priority 1 = 5 ∧ k₁.osInheritedPriority 1 = 3))
    (by decide +kernel)
  obtain ⟨hst, hp, hi⟩ := of_decide_eq_true hcheck
  have he := h k k₁ 2 1 0 (.osTaskSuspend (some 2)) hk hexact hw hown hcur rfl hcall 1 .refl (by rw [hst]; decide)
  rw [Exact, hp, hi] at he
  exact absurd he (by decide)

/-- The owner has been raised by the waiter, and by another one of the same priority. -/
theorem boost_withdrawn_taken : ∃ k k₁ : Kernel (Config.ageless 4) Links,
    k.step (.call (.osTaskSuspend (some 2))) = some k₁ ∧ (k.tasks 1).basePriority < k₁.priority 1 ∧
      ∀ t, Donation.Reaches k.blockingOwner 1 t → k₁.stateOf t ≠ OS_TASK_DEAD → Exact k₁ t := by
  obtain ⟨k, k₁, hk, hexact, hw, hown, hcur, hcall, hcheck⟩ := suspendedAfter_suspended twoWaiters
    (fun k k₁ => decide ((k.tasks 1).basePriority < k₁.priority 1 ∧ k.blockingOwner 3 = some 1 ∧
      k.priority 3 = k.priority 1)) (by decide +kernel)
  obtain ⟨hraised, hother, hsame⟩ := of_decide_eq_true hcheck
  have hreasoned : Reasoned k 2 1 := Or.inr ⟨3, by decide, hother, hsame⟩
  refine ⟨k, k₁, hcall, hraised, (boost_withdrawn_iff rfl rfl hk hexact hw hown hcur ?_ hcall).mpr hreasoned⟩
  exact rfl

end AvrOs
