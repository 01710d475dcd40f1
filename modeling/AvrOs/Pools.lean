import AvrOs.Intrusive.Threaded
import AvrOs.Memory
import AvrOs.Transition.Run
import Mathlib.Data.Finset.Card

/-!
# Pools neither lose nor duplicate blocks

Tasks and handlers take blocks, give them back and write to the blocks they hold, in any
order. What is threaded through the free blocks is out of reach for all of them: the bytes
of a block belong either to the pool or to its holder.
-/

namespace AvrOs
open Intrusive Transition OsPool

/-- Blocks handed out and not given back yet go with the pool. -/
structure PoolSystem where
  pool : OsPool
  allocated : Finset ℕ

inductive PoolAction where
  | alloc
  | free (block : Address)
  /-- A byte is written by its owner. -/
  | write (a : Address) (x : Byte)

/-- There are as many bytes as the blocks need. -/
structure PoolMemory (memory : ℕ) (blockSize blocks : Byte) : Prop where
  holdsPointer : 2 ≤ blockSize.toNat
  notNull : memory ≠ 0
  fits : memory + blockSize.toNat * blocks.toNat ≤ 65536

def poolBlocks (memory : ℕ) (blockSize blocks : Byte) : List ℕ :=
  (List.range blocks.toNat).map fun i => memory + i * blockSize.toNat

namespace PoolSystem

def start (mem : ℕ → Byte) (memory : ℕ) (blockSize blocks : Byte) : PoolSystem :=
  ⟨osPoolInit mem memory blockSize blocks, ∅⟩

/-- The byte is in an allocated block or not a byte of the pool at all. -/
def writable (memory : ℕ) (blockSize blocks : Byte) (s : PoolSystem) (a : ℕ) : Prop :=
  a < memory ∨ memory + blockSize.toNat * blocks.toNat ≤ a ∨
    ∃ block ∈ s.allocated, block ≤ a ∧ a < block + blockSize.toNat

instance (memory : ℕ) (blockSize blocks : Byte) (s : PoolSystem) (a : ℕ) :
    Decidable (s.writable memory blockSize blocks a) :=
  inferInstanceAs (Decidable (_ ∨ _ ∨ ∃ block ∈ s.allocated, _))

def step (memory : ℕ) (blockSize blocks : Byte) (s : PoolSystem) : PoolAction → Option PoolSystem
  | .alloc =>
    let (pool, block) := s.pool.osPoolAlloc
    some ⟨pool, if block ≠ 0 then insert block s.allocated else s.allocated⟩
  | .free block =>
    if block ∈ s.allocated then some ⟨s.pool.osPoolFree block, s.allocated.erase block⟩ else none
  | .write a x =>
    if s.writable memory blockSize blocks a then
      some { s with pool := { s.pool with memory := Function.update s.pool.memory a x } }
    else none

/-- What a pool is for. -/
structure Kept (memory : ℕ) (blockSize blocks : Byte) (s : PoolSystem) : Prop where
  null : s.pool.osPoolAlloc.2 = 0 ↔ s.allocated.card = blocks.toNat
  fresh : s.pool.osPoolAlloc.2 ≠ 0 →
    s.pool.osPoolAlloc.2 ∈ poolBlocks memory blockSize blocks ∧ s.pool.osPoolAlloc.2 ∉ s.allocated
  inside : ∀ b ∈ s.allocated,
    memory ≤ b ∧ b + blockSize.toNat ≤ memory + blockSize.toNat * blocks.toNat
  disjoint : ∀ b ∈ s.allocated, ∀ b' ∈ s.allocated, b ≠ b' →
    b + blockSize.toNat ≤ b' ∨ b' + blockSize.toNat ≤ b
  free : ∃ list, Threaded (loadPointer s.pool.memory) s.pool.free list ∧ list.Nodup ∧
    ∀ b, b ∈ list ↔ b ∈ poolBlocks memory blockSize blocks ∧ b ∉ s.allocated

end PoolSystem

section

variable {memory : ℕ} {blockSize blocks : Byte} {s s' : PoolSystem} {b b' : ℕ}

theorem mem_poolBlocks :
    b ∈ poolBlocks memory blockSize blocks ↔ ∃ i < blocks.toNat, b = memory + i * blockSize.toNat := by
  unfold poolBlocks
  simp only [List.mem_map, List.mem_range]
  constructor
  · rintro ⟨i, hi, rfl⟩
    exact ⟨i, hi, rfl⟩
  · rintro ⟨i, hi, rfl⟩
    exact ⟨i, hi, rfl⟩

theorem poolBlocks_inside (hb : b ∈ poolBlocks memory blockSize blocks) :
    memory ≤ b ∧ b + blockSize.toNat ≤ memory + blockSize.toNat * blocks.toNat := by
  obtain ⟨i, hi, rfl⟩ := mem_poolBlocks.mp hb
  have hlast : (i + 1) * blockSize.toNat ≤ blocks.toNat * blockSize.toNat :=
    Nat.mul_le_mul_right _ hi
  rw [Nat.mul_comm blocks.toNat, Nat.succ_mul] at hlast
  omega

theorem poolBlocks_disjoint (hb : b ∈ poolBlocks memory blockSize blocks)
    (hb' : b' ∈ poolBlocks memory blockSize blocks) (hne : b ≠ b') :
    b + blockSize.toNat ≤ b' ∨ b' + blockSize.toNat ≤ b := by
  obtain ⟨i, -, rfl⟩ := mem_poolBlocks.mp hb
  obtain ⟨j, -, rfl⟩ := mem_poolBlocks.mp hb'
  have hij : i ≠ j := fun hij => hne (by rw [hij])
  rcases Nat.lt_or_gt_of_ne hij with hlt | hlt
  · have := Nat.mul_le_mul_right blockSize.toNat hlt
    rw [Nat.succ_mul] at this
    omega
  · have := Nat.mul_le_mul_right blockSize.toNat hlt
    rw [Nat.succ_mul] at this
    omega

theorem PoolMemory.block_ne_zero (hm : PoolMemory memory blockSize blocks)
    (hb : b ∈ poolBlocks memory blockSize blocks) : b ≠ 0 := by
  have := hm.notNull
  have := (poolBlocks_inside hb).1
  omega

theorem PoolMemory.block_lt (hm : PoolMemory memory blockSize blocks)
    (hb : b ∈ poolBlocks memory blockSize blocks) : b < 65536 := by
  have := hm.holdsPointer
  have := hm.fits
  have := (poolBlocks_inside hb).2
  omega

theorem PoolMemory.card_blocks (hm : PoolMemory memory blockSize blocks) :
    (poolBlocks memory blockSize blocks).toFinset.card = blocks.toNat := by
  have hsize : 0 < blockSize.toNat := Nat.lt_of_lt_of_le Nat.zero_lt_two hm.holdsPointer
  have hnodup : (poolBlocks memory blockSize blocks).Nodup := by
    refine List.Nodup.map (fun i j hij => ?_) List.nodup_range
    exact Nat.eq_of_mul_eq_mul_right hsize (Nat.add_left_cancel hij)
  rw [List.toFinset_card_of_nodup hnodup, poolBlocks, List.length_map, List.length_range]

/-! ### The free list -/

/-- The free list goes through exactly the blocks nobody holds. -/
structure Threads (memory : ℕ) (blockSize blocks : Byte) (s : PoolSystem) (list : List ℕ) :
    Prop where
  threaded : Threaded (loadPointer s.pool.memory) s.pool.free list
  mem_iff : ∀ b, b ∈ list ↔ b ∈ poolBlocks memory blockSize blocks ∧ b ∉ s.allocated
  held : ∀ b ∈ s.allocated, b ∈ poolBlocks memory blockSize blocks

theorem Threads.free_lt (hm : PoolMemory memory blockSize blocks) {list : List ℕ}
    (h : Threads memory blockSize blocks s list) : s.pool.free < 65536 := by
  by_cases hz : s.pool.free = 0
  · rw [hz]
    decide
  · obtain ⟨rest, rfl, -⟩ := h.threaded.of_ne_zero hz
    exact hm.block_lt ((h.mem_iff _).mp List.mem_cons_self).1

theorem initLoop_threads {size : ℕ} (hs : 2 ≤ size) (n : ℕ) {pool : OsPool} {block : ℕ} {list : List ℕ}
    (hlist : Threaded (loadPointer pool.memory) pool.free list) (hfree : pool.free < 65536)
    (hblock : n ≠ 0 → block ≠ 0 ∧ ∀ b ∈ list, b + 2 ≤ block) (hfit : block + size * n ≤ 65536) :
    ∃ list', Threaded (loadPointer (osPoolInitLoop n pool block size).memory)
        (osPoolInitLoop n pool block size).free list' ∧
      ∀ b, b ∈ list' ↔ b ∈ list ∨ ∃ i < n, b = block + i * size := by
  induction n generalizing pool block list with
  | zero => exact ⟨list, hlist, fun b => by simp⟩
  | succ n ih =>
    obtain ⟨hne, hbelow⟩ := hblock (Nat.succ_ne_zero n)
    rw [Nat.mul_succ] at hfit
    let next : OsPool :=
      { pool with memory := storePointer pool.memory block pool.free, free := block }
    have hnext : Threaded (loadPointer next.memory) next.free (block :: list) := by
      refine .cons hne ?_
      rw [load_stored_pointer _ _ _ hfree]
      exact hlist.congr fun b hb =>
        load_pointer_elsewhere _ _ _ _ (Or.inl (hbelow b hb))
    have hlt : next.free < 65536 := show block < 65536 by omega
    -- the address wraps around only behind the very last block
    have hstep : n ≠ 0 → (block + size) % 65536 = block + size := fun hn => by
      have : size * 1 ≤ size * n := Nat.mul_le_mul_left size (Nat.one_le_iff_ne_zero.mpr hn)
      omega
    have hgo : n ≠ 0 → (block + size) % 65536 ≠ 0 ∧
        ∀ b ∈ block :: list, b + 2 ≤ (block + size) % 65536 := fun hn => by
      rw [hstep hn]
      refine ⟨by omega, fun b hb => ?_⟩
      rcases List.mem_cons.mp hb with rfl | hb
      · omega
      · have := hbelow b hb
        omega
    have hroom : (block + size) % 65536 + size * n ≤ 65536 := by
      by_cases hn : n = 0
      · subst hn
        omega
      · rw [hstep hn]
        omega
    obtain ⟨list', hlist', hiff⟩ := ih hnext hlt hgo hroom
    refine ⟨list', hlist', fun b => ?_⟩
    rw [hiff, List.mem_cons]
    constructor
    · rintro ((rfl | hb) | ⟨i, hi, rfl⟩)
      · exact Or.inr ⟨0, Nat.succ_pos n, by simp⟩
      · exact Or.inl hb
      · rw [hstep (by omega)]
        exact Or.inr ⟨i + 1, by omega, by rw [Nat.succ_mul]; omega⟩
    · rintro (hb | ⟨i, hi, rfl⟩)
      · exact Or.inl (Or.inr hb)
      · cases i with
        | zero => exact Or.inl (Or.inl (by simp))
        | succ i =>
          rw [hstep (by omega)]
          exact Or.inr ⟨i, by omega, by rw [Nat.succ_mul]; omega⟩

theorem start_threads (hm : PoolMemory memory blockSize blocks) (mem : ℕ → Byte) :
    ∃ list, Threads memory blockSize blocks (PoolSystem.start mem memory blockSize blocks) list := by
  have hnil : Threaded (loadPointer mem) 0 [] := .nil
  have hgo : blocks.toNat ≠ 0 → memory ≠ 0 ∧ ∀ b ∈ ([] : List ℕ), b + 2 ≤ memory :=
    fun _ => ⟨hm.notNull, fun b hb => by cases hb⟩
  have hpool : Threaded (loadPointer (⟨0, mem⟩ : OsPool).memory) (⟨0, mem⟩ : OsPool).free [] := hnil
  obtain ⟨list, hlist, hiff⟩ := initLoop_threads hm.holdsPointer blocks.toNat hpool
    (show (0 : ℕ) < 65536 by decide) hgo hm.fits
  refine ⟨list, hlist, fun b => ?_, fun b hb => absurd hb (Finset.notMem_empty b)⟩
  rw [hiff, mem_poolBlocks]
  simp [PoolSystem.start]

theorem alloc_cases (pool : OsPool) :
    (pool.free = 0 ∧ pool.osPoolAlloc = (pool, pool.free)) ∨ (pool.free ≠ 0 ∧
      pool.osPoolAlloc = ({ pool with free := loadPointer pool.memory pool.free }, pool.free)) := by
  by_cases hz : pool.free = 0
  · exact Or.inl ⟨hz, if_neg (not_not.mpr hz)⟩
  · exact Or.inr ⟨hz, if_pos hz⟩

theorem alloc_threads {list : List ℕ} (h : Threads memory blockSize blocks s list)
    (hs : s.step memory blockSize blocks .alloc = some s') :
    ∃ list', Threads memory blockSize blocks s' list' := by
  have hs : s' = ⟨s.pool.osPoolAlloc.1, if s.pool.osPoolAlloc.2 ≠ 0 then
      insert s.pool.osPoolAlloc.2 s.allocated else s.allocated⟩ := (Option.some.inj hs).symm
  subst hs
  rcases alloc_cases s.pool with ⟨hz, he⟩ | ⟨hz, he⟩
  · rw [he]
    dsimp only
    rw [if_neg (not_not.mpr hz)]
    exact ⟨list, h⟩
  · obtain ⟨rest, rfl, hrest⟩ := h.threaded.of_ne_zero hz
    rw [he]
    dsimp only
    rw [if_pos hz]
    refine ⟨rest, hrest, fun b => ?_, fun b hb => ?_⟩
    · have hnotin : s.pool.free ∉ rest := (List.nodup_cons.mp h.threaded.nodup).1
      have hiff := h.mem_iff b
      rw [List.mem_cons] at hiff
      rw [Finset.mem_insert, not_or]
      constructor
      · intro hb
        obtain ⟨hin, hfree⟩ := hiff.mp (Or.inr hb)
        exact ⟨hin, fun he => hnotin (he ▸ hb), hfree⟩
      · rintro ⟨hin, hne, hfree⟩
        exact (hiff.mpr ⟨hin, hfree⟩).resolve_left hne
    · rcases Finset.mem_insert.mp hb with rfl | hb
      · exact ((h.mem_iff _).mp List.mem_cons_self).1
      · exact h.held b hb

theorem free_threads (hm : PoolMemory memory blockSize blocks) {list : List ℕ}
    (h : Threads memory blockSize blocks s list)
    (hs : s.step memory blockSize blocks (.free b) = some s') :
    ∃ list', Threads memory blockSize blocks s' list' := by
  change (if b ∈ s.allocated then _ else _) = _ at hs
  split at hs
  case isFalse => cases hs
  case isTrue hb =>
    injection hs with hs
    subst hs
    have hin := h.held b hb
    have hcells : ∀ q ∈ list,
        loadPointer (storePointer s.pool.memory b s.pool.free) q = loadPointer s.pool.memory q := by
      intro q hq
      obtain ⟨hqin, hqfree⟩ := (h.mem_iff q).mp hq
      have hne : q ≠ b := fun he => hqfree (he ▸ hb)
      have := hm.holdsPointer
      exact load_pointer_elsewhere _ _ _ _ (by have := poolBlocks_disjoint hqin hin hne; omega)
    refine ⟨b :: list, .cons (hm.block_ne_zero hin) ?_, fun q => ?_, fun q hq => ?_⟩
    · change Threaded (loadPointer (storePointer s.pool.memory b s.pool.free))
        (loadPointer (storePointer s.pool.memory b s.pool.free) b) list
      rw [load_stored_pointer _ _ _ (h.free_lt hm)]
      exact h.threaded.congr hcells
    · change q ∈ b :: list ↔ _ ∧ q ∉ s.allocated.erase b
      rw [List.mem_cons, h.mem_iff, Finset.mem_erase, not_and_or, not_not]
      constructor
      · rintro (rfl | ⟨hqin, hq⟩)
        · exact ⟨hin, Or.inl rfl⟩
        · exact ⟨hqin, Or.inr hq⟩
      · rintro ⟨hqin, rfl | hq⟩
        · exact Or.inl rfl
        · exact Or.inr ⟨hqin, hq⟩
    · exact h.held q (Finset.mem_of_mem_erase hq)

theorem write_threads (hm : PoolMemory memory blockSize blocks) {list : List ℕ} {a : ℕ} {x : Byte}
    (h : Threads memory blockSize blocks s list)
    (hs : s.step memory blockSize blocks (.write a x) = some s') :
    ∃ list', Threads memory blockSize blocks s' list' := by
  change (if s.writable memory blockSize blocks a then _ else _) = _ at hs
  split at hs
  case isFalse => cases hs
  case isTrue ha =>
    injection hs with hs
    subst hs
    refine ⟨list, h.threaded.congr fun q hq => load_pointer_update _ _ _ _ ?_, h.mem_iff, h.held⟩
    obtain ⟨hqin, hqfree⟩ := (h.mem_iff q).mp hq
    have := poolBlocks_inside hqin
    have := hm.holdsPointer
    rcases ha with ha | ha | ⟨b, hb, hba, hab⟩
    · omega
    · omega
    · have hne : q ≠ b := fun he => hqfree (he ▸ hb)
      have := poolBlocks_disjoint hqin (h.held b hb) hne
      omega

theorem step_threads (hm : PoolMemory memory blockSize blocks) {list : List ℕ} {a : PoolAction}
    (h : Threads memory blockSize blocks s list) (hs : s.step memory blockSize blocks a = some s') :
    ∃ list', Threads memory blockSize blocks s' list' := by
  cases a with
  | alloc => exact alloc_threads h hs
  | free b => exact free_threads hm h hs
  | write a x => exact write_threads hm h hs

theorem alloc_eq (pool : OsPool) : pool.osPoolAlloc.2 = pool.free := by
  rcases alloc_cases pool with ⟨-, he⟩ | ⟨-, he⟩ <;> rw [he]

theorem Threads.kept (hm : PoolMemory memory blockSize blocks) {list : List ℕ}
    (h : Threads memory blockSize blocks s list) : s.Kept memory blockSize blocks where
  null := by
    have hsub : s.allocated ⊆ (poolBlocks memory blockSize blocks).toFinset := fun b hb =>
      List.mem_toFinset.mpr (h.held b hb)
    rw [alloc_eq, ← hm.card_blocks]
    constructor
    · intro hz
      have hnil : list = [] := by
        have := h.threaded
        rw [hz] at this
        exact this.of_zero
      -- nothing is free, so everything is allocated
      refine congrArg Finset.card (Finset.Subset.antisymm hsub fun b hb => ?_)
      by_contra hfree
      have := (h.mem_iff b).mpr ⟨List.mem_toFinset.mp hb, hfree⟩
      rw [hnil] at this
      cases this
    · intro hcard
      by_contra hz
      obtain ⟨rest, rfl, -⟩ := h.threaded.of_ne_zero hz
      obtain ⟨hin, hfree⟩ := (h.mem_iff _).mp List.mem_cons_self
      rw [Finset.eq_of_subset_of_card_le hsub hcard.ge] at hfree
      exact hfree (List.mem_toFinset.mpr hin)
  fresh := by
    rw [alloc_eq]
    intro hz
    obtain ⟨rest, rfl, -⟩ := h.threaded.of_ne_zero hz
    exact (h.mem_iff _).mp List.mem_cons_self
  inside := fun b hb => poolBlocks_inside (h.held b hb)
  disjoint := fun b hb b' hb' hne => poolBlocks_disjoint (h.held b hb) (h.held b' hb') hne
  free := ⟨list, h.threaded, h.threaded.nodup, h.mem_iff⟩

end

/-- Whatever is done to a pool by those who use it, it keeps track of its blocks. -/
theorem pool_kept {memory : ℕ} {blockSize blocks : Byte} (hm : PoolMemory memory blockSize blocks)
    (mem : ℕ → Byte) {s : PoolSystem}
    (h : Reach (PoolSystem.step memory blockSize blocks) (fun _ _ => True)
      (PoolSystem.start mem memory blockSize blocks) s) : s.Kept memory blockSize blocks := by
  obtain ⟨list, hlist⟩ := h.invariant (I := fun s => ∃ list, Threads memory blockSize blocks s list)
    (start_threads hm mem) fun _ _ _ _ hi _ hst => by
      obtain ⟨list, hlist⟩ := hi
      exact step_threads hm hlist hst
  exact hlist.kept hm

/-- Two blocks of three bytes are handed out, written to and one of them is given back. -/
theorem pool_kept_taken : ∃ s, steps (PoolSystem.step 256 3 2)
    (PoolSystem.start (fun _ => 0xa5) 256 3 2)
    [.alloc, .write 259 1, .alloc, .write 258 7, .alloc, .free 259, .write 256 9] = some s ∧
      s.Kept 256 3 2 := by
  obtain ⟨s, hs⟩ := Option.isSome_iff_exists.mp (show (steps (PoolSystem.step 256 3 2)
    (PoolSystem.start (fun _ => 0xa5) 256 3 2)
    [.alloc, .write 259 1, .alloc, .write 258 7, .alloc, .free 259, .write 256 9]).isSome = true by
      decide +kernel)
  have hm : PoolMemory 256 3 2 := ⟨by decide, by decide, by decide⟩
  exact ⟨s, hs, pool_kept hm _ (Reach.steps_reach _ (fun _ _ _ => trivial) .init hs)⟩

end AvrOs
