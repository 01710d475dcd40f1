import AvrOs.Dynamic
import AvrOs.Graves
import AvrOs.Refinement

/-!
# Who holds the memory of a dynamic task

Every block has a single holder: the task which lives there, dead or not, a call which is going to
make a task of it or to give it back, or the program. On its way to the allocator the memory of a dead
task is on `osDeadList` first and in the hands of one task in the middle of `osTaskReap` afterwards.
-/

namespace AvrOs
open Intrusive Transition Kernel

variable {c : Config} {H : Type} {A : Heap.Allocator H} {B : Board c}
  {s s' : DynamicSystem c Links H} {l : ListKernel c} {heap : H}

namespace DynamicSystem

inductive Holder (c : Config) where
  | task (t : Place c)
  | caller (t : Place c)
  | program

/-- Memory of the task has been taken and not been freed. -/
def Keeps {S : Type → Type → Type} (s : DynamicSystem c S H) (t : Place c) : Prop := s.freed t < s.created t

/-- The block is about to become a task or to be given back. -/
def HeapCall.Holds : Option (HeapCall c) → ℕ → Prop
  | some (.setup memory _ _ _ _), p | some (.release memory), p => memory = p
  | _, _ => False

/-- What the task needs of the block. -/
def HeapCall.Needs : Option (HeapCall c) → ℕ → ℕ → Prop
  | some (.setup memory size _ _ _), p, n => memory = p ∧ size = n
  | _, _, _ => False

theorem HeapCall.Needs.holds {call : Option (HeapCall c)} {p n : ℕ} (h : HeapCall.Needs call p n) :
    HeapCall.Holds call p := by
  unfold HeapCall.Needs at h
  split at h
  · exact h.1
  · exact h.elim

def Holds (s : DynamicSystem c Links H) : Holder c → ℕ → Prop
  | .task t, p => s.Keeps t ∧ s.stack t = p
  | .caller t, p => HeapCall.Holds (s.calls t) p
  | .program, p => p ∈ s.given

/-- The task has been taken off `osDeadList` to free its memory. -/
def Takes (s : DynamicSystem c Links H) (u t : Place c) : Prop := ∃ next, s.calls u = some (.free t next)

instance (s : DynamicSystem c Links H) (u t : Place c) : Decidable (s.Takes u t) :=
  match hu : s.calls u with
  | some (.free t' next) =>
    if ht : t' = t then .isTrue ⟨next, by rw [hu, ht]⟩ else .isFalse fun ⟨_, he⟩ => ht (by rw [hu] at he; cases he; rfl)
  | some (.reap _) | some (.malloc _ _) | some (.setup _ _ _ _ _) | some (.release _) | none =>
    .isFalse fun ⟨_, he⟩ => by rw [hu] at he; cases he

/-- What holds between two actions, the kernel seen on lists. -/
structure Tidy (A : Heap.Allocator H) (B : Board c) (s : DynamicSystem c Links H) (l : ListKernel c) : Prop where
  sim : Sim s.kernel l
  rest : Rest l
  formed : Heap.Formed B.heapStart B.heapEnd (A.blocks s.heap)
  custody : Heap.Custody (A.blocks s.heap) s.Holds
  given : s.given.Nodup
  counts : ∀ t, s.freed t ≤ s.created t ∧ s.created t ≤ s.freed t + 1
  alive : ∀ t, l.stateOf t ≠ OS_TASK_DEAD → (l.tasks t).dynamic ∨ onHeap B t → s.Keeps t
  dynamic : ∀ t, s.Keeps t → (l.tasks t).dynamic = true
  listed : ∀ t ∈ l.links .dead, s.Keeps t
  taken : ∀ u t, s.Takes u t → s.Keeps t ∧ l.stateOf t = OS_TASK_DEAD ∧ t ∉ l.links .dead
  taker : ∀ u u' t, s.Takes u t → s.Takes u' t → u = u'
  room : ∀ u p n, HeapCall.Needs (s.calls u) p n → ∃ b ∈ A.blocks s.heap, b.start = p ∧ n ≤ b.size
  housed : ∀ t, s.Keeps t → ∃ b ∈ A.blocks s.heap, b.start = s.stack t ∧ ∃ a, b.Covers a ∧ B.place a = t
  homes : ∀ t, 0 < s.created t → onHeap B t

/-! ### Actions of the kernel -/

/-- Nothing but the kernel changes, and what a task which is created again was in the middle of. -/
theorem Tidy.kernel {l' : ListKernel c} {k' : Kernel c Links} {calls : Place c → Option (HeapCall c)}
    (h : Tidy A B s l) (hsim : Sim k' l') (hrest : Rest l')
    (hcalls : ∀ u, calls u = s.calls u ∨ calls u = none)
    (hdead : ∀ t, s.Keeps t → l.stateOf t = OS_TASK_DEAD → l'.stateOf t = OS_TASK_DEAD)
    (halive : ∀ t, l'.stateOf t ≠ OS_TASK_DEAD → (l'.tasks t).dynamic ∨ onHeap B t → s.Keeps t)
    (hdynamic : ∀ t, s.Keeps t → (l'.tasks t).dynamic = (l.tasks t).dynamic)
    (hlisted : ∀ t ∈ l'.links .dead, t ∈ l.links .dead ∨ s.Keeps t ∧ l.stateOf t ≠ OS_TASK_DEAD) :
    Tidy A B { s with kernel := k', calls := calls } l' := by
  have hstill : ∀ {u x}, calls u = some x → s.calls u = some x := fun {u x} hu => by
    rcases hcalls u with he | he
    · rwa [← he]
    · rw [hu] at he
      cases he
  have htakes : ∀ u t, Takes { s with kernel := k', calls := calls } u t → s.Takes u t :=
    fun u t hu => hu.imp fun _ he => hstill he
  refine ⟨hsim, hrest, h.formed, h.custody.less fun o p hp => ?_, h.given, h.counts, halive, fun t ht => ?_,
    fun t ht => ?_, fun u t hu => ?_, fun u u' t hu hu' => h.taker u u' t (htakes u t hu) (htakes u' t hu'),
    fun u p n hu => ?_, h.housed, h.homes⟩
  · cases o with
    | task t => exact hp
    | program => exact hp
    | caller t =>
      have hp' : HeapCall.Holds (calls t) p := hp
      show HeapCall.Holds (s.calls t) p
      rcases hcalls t with he | he
      · rwa [← he]
      · rw [he] at hp'
        exact hp'.elim
  · exact (hdynamic t ht).trans (h.dynamic t ht)
  · rcases hlisted t ht with hm | ⟨hk, -⟩
    · exact h.listed t hm
    · exact hk
  · obtain ⟨hk, hd, hn⟩ := h.taken u t (htakes u t hu)
    refine ⟨hk, hdead t hk hd, fun hm => ?_⟩
    rcases hlisted t hm with hm | ⟨-, ha⟩
    · exact hn hm
    · exact ha hd
  · have hu' : HeapCall.Needs (calls u) p n := hu
    rcases hcalls u with he | he
    · exact h.room u p n (he ▸ hu')
    · rw [he] at hu'
      exact hu'.elim

theorem Tidy.onHeap (h : Tidy A B s l) {t : Place c} (ht : s.Keeps t) : onHeap B t := by
  obtain ⟨b, hb, -, a, ⟨hlow, hhigh⟩, rfl⟩ := h.housed t ht
  obtain ⟨hstart, hend⟩ := h.formed.within b hb
  exact ⟨a, by omega, by omega, rfl⟩

/-- What a kernel action does to the lists it does to the system. -/
theorem Tidy.kernelStep (h : Tidy A B s l) {a : Action c} (hl : s.legal B a) {k' : Kernel c Links}
    (hk : s.kernel.step a = some k') {calls : Place c → Option (HeapCall c)}
    (hcalls : ∀ u, calls u = s.calls u ∨ calls u = none) :
    ∃ l', Tidy A B { s with kernel := k', calls := calls } l' := by
  obtain ⟨l', hl', hsim⟩ := step_sim h.sim h.rest a hk
  have hrest : Rest l' := h.rest.step hl'
  have hb := step_buried h.rest hl'
  refine ⟨l', ?_⟩
  cases hb with
  | same hm hd =>
    refine h.kernel hsim hrest hcalls (fun t _ => (hd t).mpr) (fun t ht => ?_) (fun t _ => hm.dynamic t) fun t ht => ?_
    · rw [hm.dynamic]
      exact h.alive t (by rwa [Ne, ← hd])
    · exact Or.inl (hm.list ▸ ht)
  | create t p d hlist hd hy ht hn =>
    obtain ⟨rfl, hheap⟩ := of_decide_eq_true hl.2
    have hne : ∀ u, s.Keeps u → u ≠ t := fun u hu he => hheap (he ▸ h.onHeap hu)
    refine h.kernel hsim hrest hcalls (fun u hu hdu => (hd u).mpr ⟨hdu, hne u hu⟩) (fun u hu hx => ?_)
      (fun u hu => ?_) fun u hu => Or.inl (hlist ▸ hu)
    · rw [hy] at hx
      by_cases hut : u = t
      · subst hut
        rw [if_pos rfl, Bool.and_false] at hx
        rcases hx with hx | hx
        · cases hx
        · exact absurd hx hheap
      · rw [if_neg hut] at hx
        exact h.alive u (fun he => hu ((hd u).mpr ⟨he, hut⟩)) hx
    · rw [hy, if_neg (hne u hu)]
  | delete o t ho hlist hd hy hi ht =>
    refine h.kernel hsim hrest hcalls (fun u _ hdu => (hd u).mpr (Or.inl hdu)) (fun u hu => ?_) (fun u _ => hy u) fun u hu => ?_
    · rw [hy]
      exact h.alive u fun he => hu ((hd u).mpr (Or.inl he))
    · rw [hlist] at hu
      split at hu
      case isTrue hdyn =>
        rcases List.mem_cons.mp hu with rfl | hu
        · exact Or.inr ⟨h.alive u ht (Or.inl hdyn), ht⟩
        · exact Or.inl hu
      case isFalse => exact Or.inl hu
  | reap => exact absurd hl.2 Bool.false_ne_true

/-! ### The other steps -/

/-- Calls begin and go on, the program gets blocks: nothing happens to tasks. -/
theorem Tidy.turn (h : Tidy A B s l) {d : Dynamic c Links H} (hk : d.kernel = s.kernel) (hst : d.stack = s.stack)
    {calls : Place c → Option (HeapCall c)} {given : List ℕ} {x : DynamicSystem c Links H}
    (hx : x = { s with toDynamic := d, calls := calls, given := given })
    (hblocks : A.blocks s.heap ⊆ A.blocks x.heap) (hformed : Heap.Formed B.heapStart B.heapEnd (A.blocks x.heap))
    (hcustody : Heap.Custody (A.blocks x.heap) x.Holds) (hgiven : given.Nodup)
    (htakes : ∀ u t, x.Takes u t → s.Takes u t)
    (hroom : ∀ u p n, HeapCall.Needs (calls u) p n →
      HeapCall.Needs (s.calls u) p n ∨ ∃ b ∈ A.blocks x.heap, b.start = p ∧ n ≤ b.size) : Tidy A B x l := by
  subst hx
  refine ⟨by rw [hk]; exact h.sim, h.rest, hformed, hcustody, hgiven, h.counts, h.alive, h.dynamic, h.listed,
    fun u t hu => h.taken u t (htakes u t hu), fun u u' t hu hu' => h.taker u u' t (htakes u t hu) (htakes u' t hu'),
    fun u p n hu => ?_, fun t ht => ?_, h.homes⟩
  · rcases hroom u p n hu with ho | hb
    · obtain ⟨b, hb, he⟩ := h.room u p n ho
      exact ⟨b, hblocks hb, he⟩
    · exact hb
  · obtain ⟨b, hb, he, ha⟩ := h.housed t ht
    exact ⟨b, hblocks hb, by rw [hst]; exact he, ha⟩

/-- A block is given back by its holder. -/
theorem Tidy.free (hA : A.Correct B.heapStart B.heapEnd) (h : Tidy A B s l) {o : Holder c} {p : ℕ} (ho : s.Holds o p)
    {calls : Place c → Option (HeapCall c)} {given : List ℕ} {freed : Place c → ℕ} {x : DynamicSystem c Links H}
    (hx : x = { s with heap := A.free s.heap p, calls := calls, given := given, freed := freed })
    (hlost : ¬ x.Holds o p) (hholds : ∀ o q, x.Holds o q → s.Holds o q) (hgiven : given.Nodup)
    (hcounts : ∀ t, freed t ≤ s.created t ∧ s.created t ≤ freed t + 1)
    (hkeeps : ∀ t, s.Keeps t → x.Keeps t ∨ l.stateOf t = OS_TASK_DEAD ∧ t ∉ l.links .dead ∧ ∀ u, ¬ x.Takes u t)
    (htakes : ∀ u t, x.Takes u t → s.Takes u t)
    (hroom : ∀ u p n, HeapCall.Needs (calls u) p n → HeapCall.Needs (s.calls u) p n) : Tidy A B x l := by
  obtain ⟨b, hb, rfl⟩ := h.custody.given o p ho
  have hblocks : A.blocks x.heap = A.blocks s.heap \ {b} := by
    subst hx
    exact hA.freed hb
  have hstay : ∀ {b'}, b' ∈ A.blocks s.heap → ∀ o', x.Holds o' b'.start → b' ∈ A.blocks x.heap := by
    intro b' hb' o' ho'
    rw [hblocks]
    refine ⟨hb', ?_⟩
    rintro rfl
    obtain rfl := h.custody.sole o' o b'.start (hholds o' _ ho') ho
    exact hlost ho'
  have hkeep : ∀ t, x.Keeps t → s.Keeps t := by
    subst hx
    exact fun t ht => (hholds (.task t) (s.stack t) ⟨ht, rfl⟩).1
  have hformed : Heap.Formed B.heapStart B.heapEnd (A.blocks x.heap) := by
    rw [hblocks]
    exact h.formed.subset Set.sdiff_subset
  have hcustody : Heap.Custody (A.blocks x.heap) x.Holds := by
    rw [hblocks]
    exact h.custody.release ho hlost hholds
  subst hx
  refine ⟨h.sim, h.rest, hformed, hcustody, hgiven, hcounts, fun t ht hd => ?_, fun t ht => h.dynamic t (hkeep t ht),
    fun t ht => ?_, fun u t hu => ?_, fun u u' t hu hu' => h.taker u u' t (htakes u t hu) (htakes u' t hu'),
    fun u p n hu => ?_, fun t ht => ?_, h.homes⟩
  · exact (hkeeps t (h.alive t ht hd)).resolve_right fun hgone => ht hgone.1
  · exact (hkeeps t (h.listed t ht)).resolve_right fun hgone => hgone.2.1 ht
  · obtain ⟨hk, hd, hn⟩ := h.taken u t (htakes u t hu)
    exact ⟨(hkeeps t hk).resolve_right fun hgone => hgone.2.2 u hu, hd, hn⟩
  · obtain ⟨b', hb', rfl, hsize⟩ := h.room u p n (hroom u p n hu)
    exact ⟨b', hstay hb' (.caller u) (HeapCall.Needs.holds hu), rfl, hsize⟩
  · obtain ⟨b', hb', he, ha⟩ := h.housed t (hkeep t ht)
    exact ⟨b', hstay hb' (.task t) ⟨ht, he.symm⟩, he, ha⟩

/-- The call of the current task goes on or is over. -/
theorem calls_update {x : DynamicSystem c Links H} {v u : Place c} {call : Option (HeapCall c)}
    (hx : x.calls = Function.update s.calls v call) {P : Option (HeapCall c) → Prop} (hu : P (x.calls u)) :
    u = v ∧ P call ∨ u ≠ v ∧ P (s.calls u) := by
  rw [hx] at hu
  by_cases he : u = v
  · subst he
    rw [Function.update_self] at hu
    exact Or.inl ⟨rfl, hu⟩
  · rw [Function.update_of_ne he] at hu
    exact Or.inr ⟨he, hu⟩

theorem takes_update {x : DynamicSystem c Links H} {v u t : Place c} {call : Option (HeapCall c)}
    (hx : x.calls = Function.update s.calls v call) (hu : x.Takes u t) :
    u = v ∧ (∃ next, call = some (.free t next)) ∨ u ≠ v ∧ s.Takes u t :=
  calls_update (P := fun y => ∃ next, y = some (.free t next)) hx hu

/-- Nobody gets a block as long as no call does. -/
theorem holds_update {x : DynamicSystem c Links H} {v : Place c} {call : Option (HeapCall c)}
    (hx : x.calls = Function.update s.calls v call)
    (hcall : ∀ p, HeapCall.Holds call p → HeapCall.Holds (s.calls v) p) (hst : x.stack = s.stack)
    (hkeeps : ∀ t, x.Keeps t → s.Keeps t) (hgiven : ∀ p ∈ x.given, p ∈ s.given) (o : Holder c) (p : ℕ)
    (ho : x.Holds o p) : s.Holds o p := by
  cases o with
  | task t => exact ⟨hkeeps t ho.1, hst ▸ ho.2⟩
  | program => exact hgiven p ho
  | caller u =>
    have ho' : HeapCall.Holds (x.calls u) p := ho
    rcases calls_update (P := fun y => HeapCall.Holds y p) hx ho' with ⟨rfl, hp⟩ | ⟨-, hp⟩
    · exact hcall p hp
    · exact hp

theorem Tidy.begin (h : Tidy A B s l) (call : Option (HeapCall c)) (hcall : ∀ p, ¬ HeapCall.Holds call p)
    (htake : ∀ t next, call ≠ some (.free t next)) (reaper : Bool) :
    Tidy A B { s.setCall call with reaper := reaper } l := by
  have hx : ({ s.setCall call with reaper := reaper } : DynamicSystem c Links H).calls =
      Function.update s.calls s.kernel.currentTask call := rfl
  refine h.turn (d := { s.toDynamic with reaper := reaper }) rfl rfl rfl (Set.Subset.refl _) h.formed
    (h.custody.less (holds_update hx (fun p hp => absurd hp (hcall p)) rfl (fun _ ht => ht) fun _ hp => hp)) h.given
    (fun u t hu => ?_) fun u p n hu => ?_
  · rcases takes_update hx hu with ⟨-, next, he⟩ | ⟨-, hu⟩
    · exact absurd he (htake t next)
    · exact hu
  · rcases calls_update (P := fun y => HeapCall.Needs y p n) hx hu with ⟨-, hn⟩ | ⟨-, hn⟩
    · exact absurd hn.holds (hcall p)
    · exact Or.inl hn

theorem Tidy.reap (h : Tidy A B s l) {next : Option (Bool × Request)} {k' : Kernel c Links}
    (hk : s.kernel.step (.call .osTaskReap) = some k') :
    ∃ l', Tidy A B { s.setCall (match LinkStore.head s.kernel.links .dead with
      | some task => some (.free task next)
      | none => next.map fun (again, request) => .malloc again request) with kernel := k' } l' := by
  obtain ⟨l', hl', hsim⟩ := step_sim h.sim h.rest _ hk
  obtain ⟨hlist, htasks, -⟩ := reap_step hl'
  have hhead : LinkStore.head s.kernel.links .dead = (l.links .dead).head? := h.sim.links_head _
  rw [hhead]
  have hnd : (l.links .dead).Nodup := h.rest.sound.linked.1.separate.nodup _
  generalize hcall : (match (l.links .dead).head? with
      | some task => some (.free task next)
      | none => next.map fun (again, request) => .malloc again request : Option (HeapCall c)) = call
  have hnone : ∀ p, ¬ HeapCall.Holds call p := by
    intro p hp
    subst hcall
    split at hp
    · exact hp
    · cases next <;> exact hp
  have htaken : ∀ t next', call = some (.free t next') → (l.links .dead).head? = some t := by
    intro t next' he
    subst hcall
    split at he
    · simp_all
    · cases next <;> simp at he
  have hmem : ∀ t, t ∈ l'.links .dead → t ∈ l.links .dead := fun t ht => by
    rw [hlist] at ht
    exact List.mem_of_mem_tail ht
  have hstate : ∀ t, l'.stateOf t = l.stateOf t := fun t => by rw [stateOf, stateOf, htasks]
  have hx : ({ s.setCall call with kernel := k' } : DynamicSystem c Links H).calls =
      Function.update s.calls s.kernel.currentTask call := rfl
  have hholds := holds_update hx (fun p hp => absurd hp (hnone p)) rfl (fun _ ht => ht) fun _ hp => hp
  refine ⟨l', hsim, h.rest.step hl', h.formed, h.custody.less hholds, h.given, h.counts, fun t ht => ?_, fun t ht => ?_, fun t ht => h.listed t (hmem t ht), fun u t hu => ?_, fun u u' t hu hu' => ?_, fun u p n hu => ?_, h.housed, h.homes⟩
  · rw [hstate] at ht
    rw [htasks]
    exact h.alive t ht
  · rw [htasks]
    exact h.dynamic t ht
  · rcases takes_update hx hu with ⟨-, next', he⟩ | ⟨-, hu⟩
    · have ht := htaken t next' he
      refine ⟨h.listed t (List.mem_of_head? ht), ?_, fun htail => ?_⟩
      · rw [hstate]
        exact (h.rest.sound.linked.2 t).dead (List.mem_of_head? ht)
      · obtain ⟨tail, hcons⟩ := List.head?_eq_some_iff.mp ht
        rw [hlist, hcons] at htail
        rw [hcons] at hnd
        exact (List.nodup_cons.mp hnd).1 htail
    · obtain ⟨hkeep, hd, hn⟩ := h.taken u t hu
      exact ⟨hkeep, (hstate t).trans hd, fun hm => hn (hmem t hm)⟩
  · rcases takes_update hx hu with ⟨he, next₁, h₁⟩ | ⟨-, h₁⟩ <;> rcases takes_update hx hu' with ⟨he', next₂, h₂⟩ | ⟨-, h₂⟩
    · exact he.trans he'.symm
    · exact absurd (List.mem_of_head? (htaken t next₁ h₁)) (h.taken u' t h₂).2.2
    · exact absurd (List.mem_of_head? (htaken t next₂ h₂)) (h.taken u t h₁).2.2
    · exact h.taker u u' t h₁ h₂
  · rcases calls_update (P := fun y => HeapCall.Needs y p n) hx hu with ⟨-, hn⟩ | ⟨-, hn⟩
    · exact absurd hn.holds (hnone p)
    · exact h.room u p n hn

/-- `osFree(task->stack)`. -/
theorem Tidy.freeTask (hA : A.Correct B.heapStart B.heapEnd) (h : Tidy A B s l) {t : Place c}
    {next : Option (Bool × Request)} (hu : s.calls s.kernel.currentTask = some (.free t next)) :
    Tidy A B { s.setCall (some (.reap next)) with
      toDynamic := s.toDynamic.osFree A (s.stack t)
      freed := Function.update s.freed t (s.freed t + 1) } l := by
  have htake : s.Takes s.kernel.currentTask t := ⟨next, hu⟩
  obtain ⟨hkeep, hdead, hlist⟩ := h.taken _ _ htake
  have hcount := h.counts t
  have hkeep' : s.freed t < s.created t := hkeep
  generalize hx : ({ s.setCall (some (.reap next)) with
      toDynamic := s.toDynamic.osFree A (s.stack t)
      freed := Function.update s.freed t (s.freed t + 1) } : DynamicSystem c Links H) = x
  have hcalls : x.calls = Function.update s.calls s.kernel.currentTask (some (.reap next)) := by rw [← hx]; rfl
  have hfreed : x.freed = Function.update s.freed t (s.freed t + 1) := by rw [← hx]
  have hkeeps : ∀ u, x.Keeps u ↔ s.Keeps u ∧ u ≠ t := fun u => by
    rw [Keeps, hfreed, ← hx]
    by_cases hut : u = t
    · subst hut
      rw [Function.update_self]
      exact iff_of_false (by show ¬ _ < s.created u; omega) fun hk => hk.2 rfl
    · rw [Function.update_of_ne hut]
      exact (and_iff_left hut).symm
  have htakes : ∀ u v, x.Takes u v → s.Takes u v ∧ v ≠ t := fun u v hv => by
    rcases takes_update hcalls hv with ⟨-, next', he⟩ | ⟨hne, hv⟩
    · cases he
    · refine ⟨hv, ?_⟩
      rintro rfl
      exact hne (h.taker u _ v hv htake)
  refine h.free hA (o := .task t) ⟨hkeep, rfl⟩ hx.symm (fun ho => ((hkeeps t).mp ho.1).2 rfl)
    (holds_update hcalls (fun p hp => hp.elim) (by rw [← hx]; rfl) (fun u hu => ((hkeeps u).mp hu).1)
      fun p hp => by rw [← hx] at hp; exact hp) h.given (fun u => ?_) (fun u hk => ?_) (fun u v hv => (htakes u v hv).1)
    fun u p n hn => ?_
  · by_cases hut : u = t
    · subst hut
      rw [Function.update_self]
      omega
    · rw [Function.update_of_ne hut]
      exact h.counts u
  · by_cases hut : u = t
    · subst hut
      exact Or.inr ⟨hdead, hlist, fun v hv => (htakes v u hv).2 rfl⟩
    · exact Or.inl ((hkeeps u).mpr ⟨hk, hut⟩)
  · rcases calls_update (P := fun y => HeapCall.Needs y p n) (x := x) hcalls (by rw [← hx]; exact hn) with ⟨-, hn⟩ | ⟨-, hn⟩
    · exact hn.elim
    · exact hn

/-- `osFree` of a block which has become nothing. -/
theorem Tidy.release (hA : A.Correct B.heapStart B.heapEnd) (h : Tidy A B s l) {p : ℕ}
    (hu : s.calls s.kernel.currentTask = some (.release p)) :
    Tidy A B { s.setCall none with toDynamic := s.toDynamic.osFree A p } l := by
  have hhold : s.Holds (.caller s.kernel.currentTask) p := by
    show HeapCall.Holds (s.calls s.kernel.currentTask) p
    rw [hu]
    rfl
  generalize hx : ({ s.setCall none with toDynamic := s.toDynamic.osFree A p } : DynamicSystem c Links H) = x
  have hcalls : x.calls = Function.update s.calls s.kernel.currentTask none := by rw [← hx]; rfl
  have hkeeps : ∀ t, x.Keeps t ↔ s.Keeps t := fun t => by rw [← hx]; exact Iff.rfl
  have htakes : ∀ u t, x.Takes u t → s.Takes u t := fun u t ht => by
    rcases takes_update hcalls ht with ⟨-, next, he⟩ | ⟨-, ht⟩
    · cases he
    · exact ht
  refine h.free hA hhold hx.symm (fun ho => ?_) (holds_update hcalls (fun p hp => hp.elim) (by rw [← hx]; rfl)
    (fun t => (hkeeps t).mp) fun p hp => by rw [← hx] at hp; exact hp) h.given h.counts
    (fun t ht => Or.inl ((hkeeps t).mpr ht)) htakes fun u q n hn => ?_
  · have ho' : HeapCall.Holds (x.calls s.kernel.currentTask) p := ho
    rw [hcalls, Function.update_self] at ho'
    exact ho'
  · rcases calls_update (P := fun y => HeapCall.Needs y q n) (x := x) hcalls (by rw [← hx]; exact hn) with ⟨-, hn⟩ | ⟨-, hn⟩
    · exact hn.elim
    · exact hn

theorem Tidy.giveBack (hA : A.Correct B.heapStart B.heapEnd) (h : Tidy A B s l) {p : ℕ} (hp : p ∈ s.given) :
    Tidy A B { s with toDynamic := s.toDynamic.osFree A p, given := s.given.erase p } l := by
  refine h.free hA (o := .program) (p := p) hp rfl (fun ho => ?_) (fun o q ho => ?_) (h.given.erase p) h.counts
    (fun t ht => Or.inl ht) (fun u t ht => ht) fun u q n hn => hn
  · exact (h.given.mem_erase_iff.mp ho).1 rfl
  · cases o with
    | task t => exact ho
    | caller t => exact ho
    | program => exact List.mem_of_mem_erase ho

/-- malloc says no. -/
theorem Tidy.refused (hA : A.Correct B.heapStart B.heapEnd) (h : Tidy A B s l) {size : ℕ} {heap : H}
    (hm : A.malloc s.heap size = (heap, none)) {call : Option (HeapCall c)} (hcall : ∀ p, ¬ HeapCall.Holds call p)
    (htake : ∀ t next, call ≠ some (.free t next)) : Tidy A B { s.setCall call with heap := heap } l := by
  have hblocks := hA.refused hm
  generalize hx : ({ s.setCall call with heap := heap } : DynamicSystem c Links H) = x
  have hheap : A.blocks x.heap = A.blocks s.heap := by rw [← hx]; exact hblocks
  have hcalls : x.calls = Function.update s.calls s.kernel.currentTask call := by rw [← hx]; rfl
  refine h.turn (d := { s.toDynamic with heap := heap }) rfl rfl hx.symm hheap.symm.subset (hheap ▸ h.formed)
    (hheap ▸ h.custody.less (holds_update hcalls (fun p hp => absurd hp (hcall p)) (by rw [← hx]; rfl)
      (fun t ht => by rw [← hx] at ht; exact ht) fun p hp => by rw [← hx] at hp; exact hp)) h.given
    (fun u t hu => ?_) fun u p n hu => ?_
  · rcases takes_update hcalls hu with ⟨-, next, he⟩ | ⟨-, hu⟩
    · exact absurd he (htake t next)
    · exact hu
  · rcases calls_update (P := fun y => HeapCall.Needs y p n) (x := x) hcalls (by rw [← hx]; exact hu) with ⟨-, hn⟩ | ⟨-, hn⟩
    · exact absurd hn.holds (hcall p)
    · exact Or.inl hn

/-- malloc has a block for a call or for the program. -/
theorem Tidy.granted (hA : A.Correct B.heapStart B.heapEnd) (h : Tidy A B s l) {size memory : ℕ} {heap : H}
    (hm : A.malloc s.heap size = (heap, some memory)) {call : Option (HeapCall c)} {given : List ℕ}
    (hcall : call = none ∧ given = memory :: s.given ∨
      (∃ function param priority, call = some (.setup memory size function param priority)) ∧ given = s.given) :
    Tidy A B { s.setCall call with heap := heap, given := given } l := by
  obtain ⟨n, hn, hlow, hhigh, hapart, hblocks⟩ := hA.granted hm
  generalize hx : ({ s.setCall call with heap := heap, given := given } : DynamicSystem c Links H) = x
  have hheap : A.blocks x.heap = insert ⟨memory, n⟩ (A.blocks s.heap) := by rw [← hx]; exact hblocks
  have hcalls : x.calls = Function.update s.calls s.kernel.currentTask call := by rw [← hx]; rfl
  have hgiven : x.given = given := by rw [← hx]
  have hsub : A.blocks s.heap ⊆ A.blocks x.heap := by
    rw [hheap]
    exact Set.subset_insert ..
  have hformed : Heap.Formed B.heapStart B.heapEnd (A.blocks x.heap) := by
    rw [hheap]
    exact h.formed.insert hlow hhigh hapart
  have hfresh : memory ∉ s.given := fun hp => by
    obtain ⟨b, hb, he⟩ := h.custody.given .program memory hp
    exact (hapart b hb).1 he.symm
  have hcustody : Heap.Custody (A.blocks x.heap) x.Holds := by
    rw [hheap]
    rcases hcall with ⟨rfl, rfl⟩ | ⟨⟨function, param, priority, rfl⟩, rfl⟩
    · refine h.custody.grant (o := .program) hapart fun o p ho => ?_
      cases o with
      | task t => exact Or.inl (by rw [← hx] at ho; exact ho)
      | caller u =>
        have ho' : HeapCall.Holds (x.calls u) p := ho
        rcases calls_update (P := fun y => HeapCall.Holds y p) hcalls ho' with ⟨-, hp⟩ | ⟨-, hp⟩
        · exact hp.elim
        · exact Or.inl hp
      | program =>
        have ho' : p ∈ x.given := ho
        rw [hgiven] at ho'
        rcases List.mem_cons.mp ho' with rfl | hp
        · exact Or.inr ⟨rfl, rfl⟩
        · exact Or.inl hp
    · refine h.custody.grant (o := .caller s.kernel.currentTask) hapart fun o p ho => ?_
      cases o with
      | task t => exact Or.inl (by rw [← hx] at ho; exact ho)
      | program => exact Or.inl (by rw [← hx] at ho; exact ho)
      | caller u =>
        have ho' : HeapCall.Holds (x.calls u) p := ho
        rcases calls_update (P := fun y => HeapCall.Holds y p) hcalls ho' with ⟨rfl, hp⟩ | ⟨-, hp⟩
        · exact Or.inr ⟨rfl, hp.symm⟩
        · exact Or.inl hp
  refine h.turn (d := { s.toDynamic with heap := heap }) rfl rfl hx.symm hsub hformed hcustody ?_ (fun u t hu => ?_)
    fun u p m hu => ?_
  · rcases hcall with ⟨-, rfl⟩ | ⟨-, rfl⟩
    · exact List.nodup_cons.mpr ⟨hfresh, h.given⟩
    · exact h.given
  · rcases takes_update hcalls hu with ⟨-, next, rfl⟩ | ⟨-, hu⟩
    · rcases hcall with ⟨he, -⟩ | ⟨⟨function, param, priority, he⟩, -⟩
      · cases he
      · cases he
    · exact hu
  · rcases calls_update (P := fun y => HeapCall.Needs y p m) (x := x) hcalls (by rw [← hx]; exact hu) with ⟨-, hm⟩ | ⟨-, hm⟩
    · rcases hcall with ⟨rfl, -⟩ | ⟨⟨function, param, priority, rfl⟩, -⟩
      · exact hm.elim
      · obtain ⟨rfl, rfl⟩ := hm
        exact Or.inr ⟨⟨memory, n⟩, by rw [hheap]; exact Set.mem_insert .., rfl, hn⟩
    · exact Or.inl hm

theorem minimum (c : Config) (target : Target) :
    OS_TASK_MEMORY c (OS_STACK_MIN target) = OS_STACK_MIN target + sizeofOsTask c := by
  refine Nat.mod_eq_of_lt ?_
  unfold OS_STACK_MIN OS_CONTEXT_SIZE OS_PC_SIZE sizeofOsTask
  dsimp only
  split <;> split <;> split <;> omega

/-- What `osTaskSetup` does apart from what it does to the kernel. -/
theorem osTaskSetup_some {d d' : Dynamic c Links H} {t : Place c} {function param : Word} {memory size : ℕ}
    {priority : Byte} (hd : d.osTaskSetup B function param memory size priority true = (d', some t)) :
    OS_STACK_MIN B.toTarget + sizeofOsTask c ≤ size ∧ t = B.place ((memory + size - sizeofOsTask c) % 65536) ∧
    d'.heap = d.heap ∧ d'.stack = Function.update d.stack t memory := by
  unfold Dynamic.osTaskSetup at hd
  split at hd
  case isTrue => cases hd
  case isFalse hsize =>
    rw [minimum] at hsize
    obtain ⟨rfl, ht⟩ := Prod.mk.inj hd
    cases ht
    exact ⟨by omega, rfl, rfl, rfl⟩

/-- A block becomes a task. -/
theorem Tidy.setup (h : Tidy A B s l) {memory size : ℕ} {function param : Word} {priority : Byte}
    (hu : s.calls s.kernel.currentTask = some (.setup memory size function param priority)) {d : Dynamic c Links H}
    {t : Place c} (hd : s.toDynamic.osTaskSetup B function param memory size priority true = (d, some t))
    {k' : Kernel c Links} (hk : s.kernel.step (.call (.osTaskCreate t priority true)) = some k') :
    ∃ l', Tidy A B { s with
      toDynamic := { d with kernel := k' }
      calls := Function.update (Function.update s.calls s.kernel.currentTask none) t none
      created := Function.update s.created t (s.created t + 1) } l' := by
  obtain ⟨hsize, ht, hheap, hstack⟩ := osTaskSetup_some hd
  obtain ⟨l', hl', hsim⟩ := step_sim h.sim h.rest _ hk
  obtain ⟨hdead, hlist, hlist', hdead', hdyn⟩ := create_step h.rest hl'
  have hneeds : HeapCall.Needs (s.calls s.kernel.currentTask) memory size := by
    rw [hu]
    exact ⟨rfl, rfl⟩
  have hhold : s.Holds (.caller s.kernel.currentTask) memory := hneeds.holds
  obtain ⟨b, hb, hstart, hroom⟩ := h.room _ _ _ hneeds
  obtain ⟨hlow, hhigh⟩ := h.formed.within b hb
  have hend := B.heapEnd_le
  have hpos : 0 < sizeofOsTask c := by
    unfold sizeofOsTask
    dsimp only
    omega
  rw [Nat.mod_eq_of_lt (by omega)] at ht
  have hcovers : b.Covers (memory + size - sizeofOsTask c) := ⟨by omega, by omega⟩
  -- a task which lives here has a block of its own
  have hfree : ¬ s.Keeps t := fun hkeep => by
    obtain ⟨b', hb', hstart', a, ha, hplace⟩ := h.housed t hkeep
    obtain ⟨hlow', hhigh'⟩ := h.formed.within b' hb'
    obtain ⟨ha₁, ha₂⟩ := ha
    have hsame : a = memory + size - sizeofOsTask c :=
      B.place_inj _ _ (by omega) (by omega) (by omega) (by omega) (hplace.trans ht)
    obtain rfl := h.formed.eq_of_covers hb hb' hcovers (hsame ▸ ⟨ha₁, ha₂⟩)
    have hsole := h.custody.sole _ (.task t) memory hhold ⟨hkeep, by rw [← hstart', hstart]⟩
    cases hsole
  generalize hx : ({ s with
      toDynamic := { d with kernel := k' }
      calls := Function.update (Function.update s.calls s.kernel.currentTask none) t none
      created := Function.update s.created t (s.created t + 1) } : DynamicSystem c Links H) = x
  have hkeeps : ∀ u, x.Keeps u ↔ s.Keeps u ∨ u = t := fun u => by
    have hcount := (h.counts t).1
    rw [← hx, Keeps]
    by_cases hut : u = t
    · subst hut
      dsimp only
      rw [Function.update_self]
      exact iff_of_true (by omega) (Or.inr rfl)
    · dsimp only
      rw [Function.update_of_ne hut]
      exact (or_iff_left hut).symm
  have hblocks : A.blocks x.heap = A.blocks s.heap := by
    rw [← hx]
    exact congrArg A.blocks hheap
  have hcalls : ∀ u, x.calls u = s.calls u ∨ x.calls u = none := fun u => by
    have hc : x.calls = Function.update (Function.update s.calls s.kernel.currentTask none) t none := by rw [← hx]
    rw [hc]
    by_cases hut : u = t
    · subst hut
      exact Or.inr (Function.update_self ..)
    · rw [Function.update_of_ne hut]
      by_cases huc : u = s.kernel.currentTask
      · subst huc
        exact Or.inr (Function.update_self ..)
      · exact Or.inl (Function.update_of_ne huc ..)
  have hstill : ∀ {P : Option (HeapCall c) → Prop} {u}, ¬ P none → P (x.calls u) → P (s.calls u) := by
    intro P u hnone hp
    rcases hcalls u with he | he
    · rwa [← he]
    · exact absurd (he ▸ hp) hnone
  have htakes : ∀ u v, x.Takes u v → s.Takes u v := fun u v =>
    hstill (P := fun y => ∃ next, y = some (.free v next)) (by simp)
  have hstay : ∀ u, x.stack u = if u = t then memory else s.stack u := fun u => by
    have hs : x.stack = Function.update s.stack t memory := by
      rw [← hx]
      exact hstack
    rw [hs, Function.update_apply]
  refine ⟨l', by rw [← hx]; exact hsim, h.rest.step hl', hblocks ▸ h.formed, ?_, by rw [← hx]; exact h.given,
    fun u => ?_, fun u hu hdu => ?_, fun u hk => ?_, fun u hm => ?_, fun u v hv => ?_,
    fun u u' v hv hv' => h.taker u u' v (htakes u v hv) (htakes u' v hv'), fun u p n hn => ?_, fun u hk => ?_, fun u hu => ?_⟩
  · rw [hblocks]
    refine h.custody.pass (d := .task t) hhold (Or.inl fun ho => ?_) fun o q ho => ?_
    · have ho' : HeapCall.Holds (x.calls s.kernel.currentTask) memory := ho
      have hc : x.calls = Function.update (Function.update s.calls s.kernel.currentTask none) t none := by rw [← hx]
      rw [hc, Function.update_apply, Function.update_self, ite_self] at ho'
      exact ho'
    · cases o with
      | task u =>
        obtain ⟨hk, hq⟩ := ho
        rw [hstay] at hq
        split at hq
        case isTrue hut => exact Or.inr ⟨congrArg Holder.task hut, hq.symm⟩
        case isFalse hut => exact Or.inl ⟨((hkeeps u).mp hk).resolve_right hut, hq⟩
      | caller u => exact Or.inl (hstill (P := fun y => HeapCall.Holds y q) id ho)
      | program =>
        rw [← hx] at ho
        exact Or.inl ho
  · have hcount := h.counts u
    rw [← hx]
    dsimp only
    by_cases hut : u = t
    · subst hut
      rw [Function.update_self]
      have hnot : ¬ s.freed u < s.created u := hfree
      omega
    · rwa [Function.update_of_ne hut]
  · by_cases hut : u = t
    · exact (hkeeps u).mpr (Or.inr hut)
    · rw [hdyn, if_neg hut] at hdu
      exact (hkeeps u).mpr (Or.inl (h.alive u (fun he => hu ((hdead' u).mpr ⟨he, hut⟩)) hdu))
  · rw [hdyn]
    split
    case isTrue => rw [B.dynamic]; rfl
    case isFalse hut => exact h.dynamic u (((hkeeps u).mp hk).resolve_right hut)
  · exact (hkeeps u).mpr (Or.inl (h.listed u (hlist' ▸ hm)))
  · obtain ⟨hkeep, hd, hn⟩ := h.taken u v (htakes u v hv)
    have hne : v ≠ t := fun he => hfree (he ▸ hkeep)
    exact ⟨(hkeeps v).mpr (Or.inl hkeep), (hdead' v).mpr ⟨hd, hne⟩, hlist' ▸ hn⟩
  · rw [hblocks]
    exact h.room u p n (hstill (P := fun y => HeapCall.Needs y p n) id hn)
  · rw [hblocks, hstay]
    split
    case isTrue hut => exact ⟨b, hb, hstart, _, hcovers, hut ▸ ht.symm⟩
    case isFalse hut => exact h.housed u (((hkeeps u).mp hk).resolve_right hut)
  · by_cases hut : u = t
    · exact ⟨_, by omega, by omega, (hut.trans ht).symm⟩
    · rw [← hx] at hu
      dsimp only at hu
      rw [Function.update_of_ne hut] at hu
      exact h.homes u hu

/-- A block which is not enough for a task is going to be given back. -/
theorem Tidy.tooSmall (h : Tidy A B s l) {memory size : ℕ} {function param : Word} {priority : Byte}
    (hu : s.calls s.kernel.currentTask = some (.setup memory size function param priority)) :
    Tidy A B (s.setCall (some (.release memory))) l := by
  have hcalls : (s.setCall (some (.release memory))).calls =
      Function.update s.calls s.kernel.currentTask (some (.release memory)) := rfl
  have hcall : ∀ p, HeapCall.Holds (c := c) (some (.release memory)) p → HeapCall.Holds (s.calls s.kernel.currentTask) p := by
    rintro p rfl
    rw [hu]
    rfl
  refine h.turn (d := s.toDynamic) rfl rfl rfl (Set.Subset.refl _) h.formed
    (h.custody.less (holds_update hcalls hcall rfl (fun _ ht => ht) fun _ hp => hp)) h.given (fun u t ht => ?_)
    fun u p n hn => ?_
  · rcases takes_update hcalls ht with ⟨-, next, he⟩ | ⟨-, ht⟩
    · cases he
    · exact ht
  · rcases calls_update (P := fun y => HeapCall.Needs y p n) hcalls hn with ⟨-, hn⟩ | ⟨-, hn⟩
    · exact hn.elim
    · exact Or.inl hn

theorem Tidy.go (hA : A.Correct B.heapStart B.heapEnd) (h : Tidy A B s l) {call : HeapCall c}
    (hu : s.calls s.kernel.currentTask = some call) (hs : s.go A B call = some s') : ∃ l', Tidy A B s' l' := by
  cases call with
  | reap next =>
    obtain ⟨k', hk, rfl⟩ := Option.map_eq_some_iff.mp hs
    exact h.reap hk
  | free t next =>
    injection hs with hs
    exact ⟨l, hs ▸ h.freeTask hA hu⟩
  | malloc again request =>
    unfold DynamicSystem.go at hs
    dsimp only at hs
    split at hs
    case h_1 heap memory hm =>
      split at hs
      · injection hs with hs
        exact ⟨l, hs ▸ h.granted hA hm (Or.inr ⟨⟨_, _, _, rfl⟩, rfl⟩)⟩
      · injection hs with hs
        exact ⟨l, hs ▸ h.granted hA hm (Or.inl ⟨rfl, rfl⟩)⟩
    case h_2 heap hm =>
      injection hs with hs
      refine ⟨l, hs ▸ h.refused hA hm (fun p hp => ?_) fun t next he => ?_⟩
      · cases again <;> exact hp
      · cases again <;> simp at he
  | setup memory size function param priority =>
    unfold DynamicSystem.go at hs
    dsimp only at hs
    split at hs
    case h_1 d t hd =>
      obtain ⟨k', hk, rfl⟩ := Option.map_eq_some_iff.mp hs
      exact h.setup hu hd hk
    case h_2 =>
      cases hs
      exact ⟨l, h.tooSmall hu⟩
  | release p =>
    injection hs with hs
    exact ⟨l, hs ▸ h.release hA hu⟩

/-- One action. -/
theorem Tidy.step (hA : A.Correct B.heapStart B.heapEnd) (h : Tidy A B s l) {a : DynamicAction c}
    (hs : s.step A B a = some s') : ∃ l', Tidy A B s' l' := by
  cases a with
  | kernel a =>
    unfold DynamicSystem.step at hs
    dsimp only at hs
    split at hs
    case isTrue hl =>
      obtain ⟨k', hk, rfl⟩ := Option.map_eq_some_iff.mp hs
      split
      case h_1 t p d =>
        refine h.kernelStep hl hk fun u => ?_
        by_cases hut : u = t
        · subst hut
          exact Or.inr (Function.update_self ..)
        · exact Or.inl (Function.update_of_ne hut ..)
      case h_2 => exact h.kernelStep hl hk fun u => Or.inl rfl
    case isFalse => cases hs
  | osTaskReap =>
    unfold DynamicSystem.step at hs
    dsimp only at hs
    split at hs
    · cases hs
      exact ⟨l, h.begin (some (.reap none)) (fun _ hp => hp) (by simp) s.reaper⟩
    · cases hs
  | osMalloc size =>
    unfold DynamicSystem.step at hs
    dsimp only at hs
    split at hs
    · cases hs
      exact ⟨l, h.begin (some (.malloc false ⟨size.toNat, none⟩)) (fun _ hp => hp) (by simp) s.reaper⟩
    · cases hs
  | osFree memory =>
    unfold DynamicSystem.step at hs
    dsimp only at hs
    split at hs
    case isTrue hp =>
      injection hs with hs
      exact ⟨l, hs ▸ h.giveBack hA hp.2⟩
    case isFalse => cases hs
  | osTaskCreateDynamic function param stackSize priority =>
    unfold DynamicSystem.step at hs
    dsimp only at hs
    split at hs
    · cases hs
      exact ⟨l, h.begin (some (.reap (some (false, _)))) (fun _ hp => hp) (by simp) true⟩
    · cases hs
  | go =>
    unfold DynamicSystem.step at hs
    dsimp only at hs
    split at hs
    case isTrue =>
      obtain ⟨call, hu, hs⟩ := Option.bind_eq_some_iff.mp hs
      exact h.go hA hu hs
    case isFalse => cases hs

theorem Tidy.init (hA : Heap.Formed B.heapStart B.heapEnd (A.blocks heap)) (ram : ℕ → Byte) :
    Tidy A B (DynamicSystem.init heap ram) (osInit c Lists) := by
  have hrest : Rest (osInit c Lists) := init_rest c
  have hnot : ∀ t, ¬ (DynamicSystem.init heap ram : DynamicSystem c Links H).Keeps t := fun t => Nat.lt_irrefl 0
  have hhold : ∀ o p, ¬ (DynamicSystem.init heap ram : DynamicSystem c Links H).Holds o p := by
    rintro (t | t | _) p ho
    · exact hnot t ho.1
    · exact ho
    · cases ho
  refine ⟨init_sim c, hrest, hA, ⟨fun o p ho => absurd ho (hhold o p), fun o o' p ho => absurd ho (hhold o p)⟩,
    List.nodup_nil, fun t => ⟨le_rfl, Nat.le_succ _⟩, fun t ht hd => ?_, fun t ht => absurd ht (hnot t),
    fun t ht => ?_, fun u t hu => ?_, fun u u' t hu => ?_, fun u p n hn => ?_, fun t ht => absurd ht (hnot t),
    fun t ht => absurd ht (hnot t)⟩
  · rw [init_kind] at ht
    obtain rfl : t = osIdleTask := by
      by_contra hne
      exact ht (if_neg hne)
    rcases hd with hd | ⟨a, hhigh, hlow, he⟩
    · cases hd
    · exact absurd he (B.place_idle a hlow hhigh)
  · cases ht
  · obtain ⟨next, he⟩ := hu
    cases he
  · obtain ⟨next, he⟩ := hu
    cases he
  · exact hn.elim

/-- States the system gets to, from whatever the heap is like at first. -/
def ReachableFrom (A : Heap.Allocator H) (B : Board c) (heap : H) (ram : ℕ → Byte) : DynamicSystem c Links H → Prop :=
  Reach (DynamicSystem.step A B) (fun _ _ => True) (DynamicSystem.init heap ram)

theorem tidy_of_reachable (hA : A.Correct B.heapStart B.heapEnd)
    (hheap : Heap.Formed B.heapStart B.heapEnd (A.blocks heap)) {ram : ℕ → Byte}
    (h : ReachableFrom A B heap ram s) : ∃ l, Tidy A B s l :=
  h.invariant (I := fun s => ∃ l, Tidy A B s l) ⟨_, Tidy.init hheap ram⟩
    fun _ _ _ _ ht _ hs => ht.elim fun _ ht => ht.step hA hs

end DynamicSystem

end AvrOs
