import AvrOs.Reaping

/-!
# `osTaskCreateDynamic` does all of it or nothing

The size it asks malloc for may have wrapped around. `osTaskSetup` sees that from the size alone: a
size which did is less than what a control block takes.
-/

namespace AvrOs
open Intrusive Transition Kernel

variable {c : Config} {H : Type} {A : Heap.Allocator H} {B : Board c} {heap : H} {ram : ℕ → Byte}

/-! ### Reaping in one go -/

/-- Nothing is left on `osDeadList`, everything else is as before. -/
structure Emptied (k k' : Kernel c Links) : Prop where
  dead : k'.list .dead = []
  list : ∀ i, i ≠ .dead → k'.list i = k.list i
  rest : k' = { k with links := k'.links }

namespace Dynamic

/-- Blocks of dead tasks start where their stacks do. -/
def graves (d : Dynamic c Links H) : Set Heap.Block :=
  { b | ∃ t ∈ d.kernel.list .dead, b.start = d.stack t }

/-- Every dead task on the list has a block. -/
structure Reapable (A : Heap.Allocator H) (B : Board c) (d : Dynamic c Links H) (l : ListKernel c) : Prop where
  sim : Sim d.kernel l
  sound : Sound l
  formed : Heap.Formed B.heapStart B.heapEnd (A.blocks d.heap)
  housed : ∀ t ∈ l.links .dead, ∃ b ∈ A.blocks d.heap, b.start = d.stack t
  apart : ((l.links .dead).map d.stack).Nodup

/-- A round of the loop. -/
def reapRound (A : Heap.Allocator H) (d : Dynamic c Links H) (t : Place c) : Dynamic c Links H :=
  { d with kernel := { d.kernel with links := LinkStore.pop d.kernel.links .dead } }.osFree A (d.stack t)

variable {d : Dynamic c Links H} {l : ListKernel c} {t : Place c} {tail : List (Place c)}

theorem Reapable.round (hA : A.Correct B.heapStart B.heapEnd) (h : Reapable A B d l) (hl : l.links .dead = t :: tail) :
    Reapable A B (d.reapRound A t) { l with links := Lists.pop l.links .dead } ∧
    ∃ b ∈ A.blocks d.heap, b.start = d.stack t ∧ A.blocks (d.reapRound A t).heap = A.blocks d.heap \ {b} := by
  obtain ⟨b, hb, hstart⟩ := h.housed t (hl ▸ List.mem_cons_self)
  have hblocks : A.blocks (d.reapRound A t).heap = A.blocks d.heap \ {b} := by
    have hfreed := hA.freed hb
    rwa [hstart] at hfreed
  have hapart := h.apart
  rw [hl, List.map_cons, List.nodup_cons] at hapart
  have hpop : Lists.pop l.links .dead .dead = tail := by
    rw [Lists.pop_self, hl]
    rfl
  refine ⟨⟨?_, Atom.reap.sound h.sound trivial, hblocks ▸ h.formed.subset Set.sdiff_subset, fun u hu => ?_, ?_⟩, b, hb, hstart, hblocks⟩
  · obtain ⟨st, hk, hst⟩ := h.sim
    exact ⟨{ st with links := st.links.pop .dead }, by rw [reapRound, osFree, hk]; rfl,
      ⟨hst.links.pop .dead, hst.timerLinks, hst.ownedLinks, hst.timersLinks⟩⟩
  · have hu' : u ∈ tail := hpop ▸ hu
    obtain ⟨b', hb', hstart'⟩ := h.housed u (hl ▸ List.mem_cons_of_mem t hu')
    refine ⟨b', hblocks ▸ ⟨hb', ?_⟩, hstart'⟩
    rintro rfl
    exact hapart.1 (List.mem_map.mpr ⟨u, hu', hstart'.symm.trans hstart⟩)
  · show ((Lists.pop l.links .dead .dead).map d.stack).Nodup
    rw [hpop]
    exact hapart.2

/-- As many rounds as there are tasks on the list, and one more. -/
theorem osTaskReapLoop_empties (hA : A.Correct B.heapStart B.heapEnd) (fuel : ℕ) (h : Reapable A B d l)
    (hfuel : (l.links .dead).length < fuel) {d' : Dynamic c Links H} (hd : osTaskReapLoop A fuel d = d') :
    Sim d'.kernel { l with links := Lists.clear l.links .dead } ∧ Sound { l with links := Lists.clear l.links .dead } ∧
    d' = { d with kernel := { d.kernel with links := d'.kernel.links }, heap := d'.heap } ∧
    A.blocks d'.heap = A.blocks d.heap \ { b | ∃ t ∈ l.links .dead, b.start = d.stack t } := by
  induction fuel generalizing d l with
  | zero => omega
  | succ fuel ih =>
    have hhead : LinkStore.head d.kernel.links .dead = (l.links .dead).head? := h.sim.links_head _
    unfold osTaskReapLoop at hd
    rw [hhead] at hd
    cases hl : l.links .dead with
    | nil =>
      rw [hl] at hd
      subst hd
      have hclear : Lists.clear l.links .dead = l.links := by
        rw [Lists.clear, ← hl]
        exact Function.update_eq_self ..
      rw [hclear]
      refine ⟨h.sim, h.sound, rfl, ?_⟩
      simp
    | cons t tail =>
      rw [hl] at hd hfuel
      obtain ⟨hround, b, hb, hstart, hblocks⟩ := h.round hA hl
      have hpop : Lists.pop l.links .dead .dead = tail := by
        rw [Lists.pop_self, hl]
        rfl
      have hlength : (Lists.pop l.links .dead .dead).length < fuel := by
        rw [hpop]
        simpa using hfuel
      have hclear : Lists.clear (Lists.pop l.links .dead) .dead = Lists.clear l.links .dead :=
        Function.update_idem ..
      obtain ⟨hsim, hsound, hrest, hleft⟩ := ih hround hlength hd
      dsimp only at hsim hsound
      rw [hclear] at hsim hsound
      refine ⟨hsim, hsound, hrest, ?_⟩
      · rw [hleft, hblocks]
        dsimp only
        rw [hpop]
        ext b'
        simp only [Set.mem_sdiff, Set.mem_singleton_iff, Set.mem_ofPred_eq, List.mem_cons, exists_eq_or_imp]
        have hself : b' ∈ A.blocks d.heap → (b' = b ↔ b'.start = d.stack t) := fun hb' =>
          ⟨fun he => he ▸ hstart, fun he => h.formed.eq_of_start hb' hb (he.trans hstart.symm)⟩
        constructor
        · rintro ⟨⟨hb', hne⟩, htail⟩
          exact ⟨hb', fun hor => hor.elim (fun he => hne ((hself hb').mpr he)) htail⟩
        · rintro ⟨hb', hnot⟩
          exact ⟨⟨hb', fun he => hnot (Or.inl ((hself hb').mp he))⟩, fun htail => hnot (Or.inr htail)⟩

/-- `osTaskReap` leaves nothing on the list. -/
theorem osTaskReap_empties (hA : A.Correct B.heapStart B.heapEnd) (h : Reapable A B d l) {d' : Dynamic c Links H}
    (hd : d.osTaskReap A = d') :
    Sim d'.kernel { l with links := Lists.clear l.links .dead } ∧ Sound { l with links := Lists.clear l.links .dead } ∧
    Emptied d.kernel d'.kernel ∧ (d'.ram = d.ram ∧ d'.stack = d.stack ∧ d'.sp = d.sp) ∧
    A.blocks d'.heap = A.blocks d.heap \ d.graves := by
  have hlength : (l.links .dead).length < c.places + 2 := by
    have hcard := (h.sound.linked.1.separate.nodup .dead).length_le_card
    rw [Fintype.card_fin] at hcard
    omega
  obtain ⟨hsim, hsound, hrest, hblocks⟩ := osTaskReapLoop_empties hA _ h hlength hd
  refine ⟨hsim, hsound, ⟨?_, fun i hi => ?_, congrArg Dynamic.kernel hrest⟩,
    ⟨by rw [hrest], by rw [hrest], by rw [hrest]⟩, ?_⟩
  · rw [hsim.list]
    exact Function.update_self ListId.dead [] l.links
  · rw [hsim.list, h.sim.list]
    exact Function.update_of_ne hi [] l.links
  · rw [hblocks, graves, h.sim.list]

/-- Once the list is empty malloc gets a second chance, but nothing to help it. -/
theorem osMalloc_eq (hA : A.Correct B.heapStart B.heapEnd) (hempty : LinkStore.head d.kernel.links .dead = none)
    (size : ℕ) : ∃ heap, A.blocks heap = A.blocks d.heap ∧
      d.osMalloc A size = ({ d with heap := (A.malloc heap size).1 }, (A.malloc heap size).2) := by
  unfold osMalloc
  split
  case h_1 heap memory hm => exact ⟨d.heap, rfl, by rw [hm]⟩
  case h_2 heap hm =>
    have hsame : ({ d with heap := heap } : Dynamic c Links H).osTaskReap A = { d with heap := heap } := by
      unfold osTaskReap osTaskReapLoop
      dsimp only
      rw [hempty]
    exact ⟨heap, hA.refused hm, by dsimp only; rw [hsame]⟩

/-- A stack which the first frame fits on, filled before or not. -/
theorem osTaskSetup_spec {function param : Word} {memory size : ℕ} {priority : Byte} {d' : Dynamic c Links H}
    (hd : d.osTaskSetup B function param memory size priority true = (d', some t)) (hpos : 0 < memory)
    (hhigh : memory + size ≤ 65536) : ∃ stackSize, size = stackSize + sizeofOsTask c ∧ OS_STACK_MIN B.toTarget ≤ stackSize ∧
      t = B.place (memory + stackSize) ∧ d'.kernel = (d.kernel.osTaskSetup t priority.toNat true).osSchedule 0 ∧
      d'.heap = d.heap ∧ d'.stack = Function.update d.stack t memory ∧
      d'.sp t + (3 * OS_PC_SIZE B.toTarget + 18) + 1 = memory + stackSize ∧
      (∀ u, u ≠ t → d'.sp u = d.sp u) ∧
      ∀ a, a < memory ∨ memory + stackSize ≤ a → d'.ram a = d.ram a := by
  unfold osTaskSetup at hd
  split at hd
  case isTrue => cases hd
  case isFalse hsize =>
    rw [DynamicSystem.minimum] at hsize
    have hmin : 3 * OS_PC_SIZE B.toTarget + 18 + 1 ≤ OS_STACK_MIN B.toTarget := by
      unfold OS_STACK_MIN OS_CONTEXT_SIZE
      omega
    have hcontrol : 0 < sizeofOsTask c := by
      unfold sizeofOsTask
      dsimp only
      omega
    obtain ⟨rfl, ht⟩ := Prod.mk.inj hd
    have haddress : (memory + size - sizeofOsTask c) % 65536 = memory + (size - sizeofOsTask c) := by
      rw [Nat.mod_eq_of_lt (by omega)]
      omega
    rw [haddress] at ht
    cases ht
    refine ⟨size - sizeofOsTask c, by omega, by omega, rfl, ?_⟩
    dsimp only
    rw [haddress]
    generalize hram : (if B.stackCheck = true then fill d.ram memory (size - sizeofOsTask c) OS_STACK_FILL else d.ram) = ram
    have hgrows := Stack.osPortStackInit_grows B.toTarget ⟨ram, memory + (size - sizeofOsTask c) - 1⟩ function param
      (by dsimp only; omega) (by dsimp only; omega)
    have hsp := hgrows.sp
    dsimp only at hsp
    refine ⟨rfl, rfl, rfl, ?_, fun u hu => Function.update_of_ne hu .., fun a ha => ?_⟩
    · rw [Function.update_self]
      omega
    · rw [hgrows.memory a (by dsimp only; omega), ← hram]
      split
      · exact if_neg (by omega)
      · rfl

/-! ### All or nothing -/

/-- Nothing has come of it, memory of dead tasks has been freed. -/
structure Refused (A : Heap.Allocator H) (d d' : Dynamic c Links H) : Prop where
  kernel : Emptied d.kernel d'.kernel
  heap : A.blocks d'.heap = A.blocks d.heap \ d.graves
  same : d'.ram = d.ram ∧ d'.stack = d.stack ∧ d'.sp = d.sp

/-- The task `t` has been created in a block of its own. -/
structure Created (A : Heap.Allocator H) (B : Board c) (d d' : Dynamic c Links H) (t : Place c) (stackSize priority : ℕ)
    (b : Heap.Block) : Prop where
  /-- Nobody was alive here. -/
  unused : d.kernel.stateOf t = OS_TASK_DEAD
  /-- The task is ready, then the scheduler decides who runs. -/
  kernel : ∃ k, Emptied d.kernel k ∧ (k.osTaskSetup t priority true).stateOf t = OS_TASK_READY ∧
    t ∈ (k.osTaskSetup t priority true).list .ready ∧ d'.kernel = (k.osTaskSetup t priority true).osSchedule 0
  heap : A.blocks d'.heap = insert b (A.blocks d.heap \ d.graves)
  fresh : ∀ b' ∈ A.blocks d.heap \ d.graves, b.Apart b'
  /-- The stack is at the start of the block, the control block on top of it. -/
  stack : d'.stack t = b.start
  place : t = B.place (b.start + stackSize)
  room : stackSize + sizeofOsTask c ≤ b.size
  addresses : b.start + b.size ≤ 65536
  enough : OS_STACK_MIN B.toTarget ≤ stackSize
  /-- The first frame goes from the top of the stack down to the stack pointer. -/
  frame : b.start ≤ d'.sp t ∧ d'.sp t + (3 * OS_PC_SIZE B.toTarget + 18) + 1 = b.start + stackSize
  ram : ∀ a, a < b.start ∨ b.start + stackSize ≤ a → d'.ram a = d.ram a
  others : ∀ u, u ≠ t → d'.stack u = d.stack u ∧ d'.sp u = d.sp u

end Dynamic

namespace DynamicSystem
open AvrOs.Dynamic

variable {s : DynamicSystem c Links H} {l : ListKernel c}

theorem Tidy.reapable (h : Tidy A B s l) : Reapable A B s.toDynamic l := by
  refine ⟨h.sim, h.rest.sound, h.formed, fun t ht => ?_, ?_⟩
  · obtain ⟨b, hb, hstart, -⟩ := h.housed t (h.listed t ht)
    exact ⟨b, hb, hstart⟩
  · refine List.Nodup.map_on (fun t ht u hu he => ?_) (h.rest.sound.linked.1.separate.nodup .dead)
    have hsole := h.custody.sole (.task t) (.task u) (s.stack t) ⟨h.listed t ht, rfl⟩ ⟨h.listed u hu, he.symm⟩
    injection hsole

/-- Nobody is alive on top of memory which is not given out, once the dead are out of the way. -/
theorem Tidy.vacant (h : Tidy A B s l) {a : ℕ} (hlow : B.heapStart ≤ a) (hhigh : a < B.heapEnd)
    (ha : ∀ b ∈ A.blocks s.heap \ s.graves, ¬ b.Covers a) : l.stateOf (B.place a) = OS_TASK_DEAD := by
  by_contra halive
  have hkeep := h.alive _ halive (Or.inr ⟨a, hhigh, hlow, rfl⟩)
  obtain ⟨b, hb, hstart, a', hcovers, hplace⟩ := h.housed _ hkeep
  obtain ⟨hblow, hbhigh⟩ := h.formed.within b hb
  obtain ⟨ha₁, ha₂⟩ := hcovers
  obtain rfl : a' = a := B.place_inj _ _ (by omega) (by omega) hlow hhigh hplace
  refine ha b ⟨hb, ?_⟩ ⟨ha₁, ha₂⟩
  rintro ⟨u, hu, he⟩
  rw [h.sim.list] at hu
  have hsole := h.custody.sole (.task u) (.task (B.place a')) (s.stack u) ⟨h.listed u hu, rfl⟩
    ⟨hkeep, hstart.symm.trans he⟩
  injection hsole with hsame
  exact halive (hsame ▸ (h.rest.sound.linked.2 u).dead hu)

theorem Tidy.created (hA : A.Correct B.heapStart B.heapEnd) (h : Tidy A B s l) (function param stackSize : Word)
    (priority : Byte) {d : Dynamic c Links H} {r : Option (Place c)}
    (hd : s.toDynamic.osTaskCreateDynamic A B function param stackSize priority = (d, r)) :
    r = none ∧ Refused A s.toDynamic d ∨
      ∃ t b, r = some t ∧ Created A B s.toDynamic d t stackSize.toNat priority.toNat b := by
  unfold osTaskCreateDynamic at hd
  have hreapable : Reapable A B { s.toDynamic with reaper := true } l :=
    ⟨h.sim, h.rest.sound, h.formed, h.reapable.housed, h.reapable.apart⟩
  dsimp only at hd
  generalize hd₁ : osTaskReap A { s.toDynamic with reaper := true } = d₁ at hd
  obtain ⟨hsim, hsound, hemptied, hsame, hblocks⟩ := osTaskReap_empties hA hreapable hd₁
  have hgraves : A.blocks d₁.heap = A.blocks s.heap \ s.graves := hblocks
  have hhead : LinkStore.head d₁.kernel.links .dead = none := by
    rw [hsim.links_head]
    exact congrArg List.head? (Function.update_self ListId.dead [] l.links)
  obtain ⟨heap', hheap', hmalloc⟩ := osMalloc_eq hA hhead (OS_TASK_MEMORY c stackSize.toNat)
  rw [hmalloc] at hd
  generalize hm : A.malloc heap' (OS_TASK_MEMORY c stackSize.toNat) = granted at hd
  obtain ⟨heap'', memory⟩ := granted
  cases memory with
  | none =>
    cases hd
    exact Or.inl ⟨rfl, hemptied, (hA.refused hm).trans (hheap'.trans hgraves), hsame⟩
  | some memory =>
    obtain ⟨n, hn, hlow, hhigh, hapart, hblocks'⟩ := hA.granted hm
    rw [hheap', hgraves] at hapart hblocks'
    dsimp only at hd
    generalize hset : Dynamic.osTaskSetup B ({ d₁ with heap := heap'' } : Dynamic c Links H) function param memory
        (OS_TASK_MEMORY c stackSize.toNat) priority true = setup at hd
    obtain ⟨d₂, t⟩ := setup
    cases t with
    | none =>
      -- it has not been touched since malloc
      have hd₂ : d₂ = { d₁ with heap := heap'' } := by
        unfold Dynamic.osTaskSetup at hset
        split at hset
        · exact (congrArg Prod.fst hset).symm
        · cases congrArg Prod.snd hset
      subst hd₂
      cases hd
      refine Or.inl ⟨rfl, hemptied, ?_, hsame⟩
      have hmem : (⟨memory, n⟩ : Heap.Block) ∈ A.blocks heap'' := hblocks' ▸ Set.mem_insert ..
      have hnot : (⟨memory, n⟩ : Heap.Block) ∉ A.blocks s.heap \ s.graves := fun hb => (hapart _ hb).1 rfl
      show A.blocks (A.free heap'' memory) = _
      rw [hA.freed hmem, hblocks', Set.insert_sdiff_self_of_notMem hnot]
    | some t =>
      cases hd
      have hend := B.heapEnd_le
      have hpos := B.heapStart_pos
      obtain ⟨size, hsize, henough, hplace, hkernel, hheap, hstack, hframe, hothers, hram⟩ :=
        osTaskSetup_spec hset (by omega) (by omega)
      -- it has not wrapped around
      have hword := stackSize.isLt
      have hcontrol : 0 < sizeofOsTask c := by
        unfold sizeofOsTask
        dsimp only
        omega
      obtain rfl : size = stackSize.toNat := by
        unfold OS_TASK_MEMORY at hsize
        omega
      have hdead : l.stateOf t = OS_TASK_DEAD := by
        rw [hplace]
        exact h.vacant (by omega) (by omega) fun b hb =>
          (hapart b hb).not_covers ⟨Nat.le_add_right .., by dsimp only; omega⟩
      have hnot : t ∉ Lists.clear l.links .dead .dead := by
        rw [Lists.clear, Function.update_self]
        exact List.not_mem_nil
      have hcreated := (Atom.create t priority.toNat true).sound hsound ⟨hdead, hnot, fun hinh m ho => h.rest.noDead hinh m t ho hdead⟩
      have hsetup := hsim.setup hsound t priority.toNat true hdead hnot
      have hready : (Kernel.osTaskSetup { l with links := Lists.clear l.links .dead } t priority.toNat true).stateOf t =
          OS_TASK_READY := by
        rw [stateOf]
        refine (congrArg (fun tasks => (tasks t).state &&& OS_TASK_STATE) (create_tasks _ t priority.toNat true)).trans ?_
        rw [Function.update_self]
        simp
      have hsp : d.sp t + (3 * OS_PC_SIZE B.toTarget + 18) + 1 = memory + stackSize.toNat := hframe
      have hmin : 3 * OS_PC_SIZE B.toTarget + 18 + 1 ≤ OS_STACK_MIN B.toTarget := by
        unfold OS_STACK_MIN OS_CONTEXT_SIZE
        omega
      refine Or.inr ⟨t, ⟨memory, n⟩, rfl, (h.sim.stateOf t).trans hdead,
        ⟨d₁.kernel, hemptied, (hsetup.stateOf t).trans hready, ?_, hkernel⟩, (congrArg A.blocks hheap).trans hblocks', hapart,
        (congrFun hstack t).trans (Function.update_self ..), hplace, by dsimp only; omega, by dsimp only; omega, henough,
        ⟨by dsimp only; omega, hsp⟩, fun a ha => (hram a ha).trans (congrFun hsame.1 a), fun u hu => ⟨?_, ?_⟩⟩
      · rw [hsetup.list]
        exact (hcreated.linked.2 t).ready.mpr hready
      · rw [congrFun hstack u, Function.update_of_ne hu, ← hsame.2.1]
      · rw [hothers u hu, ← hsame.2.2]

/-- Whatever the size and the heap are like: either there is a new task in memory which is large enough for
it, or nothing has happened but that memory of dead tasks has been freed. -/
theorem create_all_or_nothing (hA : A.Correct B.heapStart B.heapEnd)
    (hheap : Heap.Formed B.heapStart B.heapEnd (A.blocks heap)) (h : ReachableFrom A B heap ram s)
    (function param stackSize : Word) (priority : Byte) :
    match s.toDynamic.osTaskCreateDynamic A B function param stackSize priority with
    | (d, none) => Refused A s.toDynamic d
    | (d, some t) => ∃ b, Created A B s.toDynamic d t stackSize.toNat priority.toNat b := by
  obtain ⟨l, ht⟩ := tidy_of_reachable hA hheap h
  generalize hd : s.toDynamic.osTaskCreateDynamic A B function param stackSize priority = result
  obtain ⟨d, r⟩ := result
  rcases ht.created hA function param stackSize priority hd with ⟨rfl, hrefused⟩ | ⟨t, b, rfl, hcreated⟩
  · exact hrefused
  · exact ⟨b, hcreated⟩

/-- The memory of the task which has left is enough for another one like it, which is created at the same place. -/
theorem create_all_or_nothing_again : ∃ (s : DynamicSystem (Config.default 302) Links (List ℕ)) (d : _),
    steps (DynamicSystem.step smallHeap smallBoard) (DynamicSystem.init [] fun _ => 0) leftTask = some s ∧
    s.toDynamic.osTaskCreateDynamic smallHeap smallBoard 0x0300 0 64 7 = (d, some 65) ∧
    ∃ b, Created smallHeap smallBoard s.toDynamic d 65 64 7 b := by
  have hrun : (steps (DynamicSystem.step smallHeap smallBoard) (DynamicSystem.init [] fun _ => 0) leftTask).map
      (fun s : DynamicSystem _ Links _ => (s.toDynamic.osTaskCreateDynamic smallHeap smallBoard 0x0300 0 64 7).2) =
        some (some 65) := by
    decide +kernel
  obtain ⟨s, hs, hsome⟩ := Option.map_eq_some_iff.mp hrun
  have hreach : ReachableFrom smallHeap smallBoard [] (fun _ => 0) s := Reach.steps_reach _ (fun _ _ _ => trivial) .init hs
  have hnew := create_all_or_nothing smallHeap_correct smallHeap_empty hreach 0x0300 0 64 7
  generalize hd : s.toDynamic.osTaskCreateDynamic smallHeap smallBoard 0x0300 0 64 7 = result at hsome hnew
  obtain ⟨d, r⟩ := result
  dsimp only at hsome
  subst hsome
  exact ⟨s, d, hs, hd, hnew⟩

-- with its control block it wraps around
example : ((DynamicSystem.init [] fun _ => 0 : DynamicSystem _ Links _).toDynamic.osTaskCreateDynamic smallHeap smallBoard
    0x0300 0 65530 7).2 = none := by decide +kernel

end DynamicSystem

end AvrOs
