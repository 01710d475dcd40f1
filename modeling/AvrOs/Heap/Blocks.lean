import Mathlib.Data.Set.Insert

/-!
# Heaps as sets of blocks

What a program may count on of an allocator it does not look into: blocks do not overlap, and the
one it gets was not there before. Who holds a block is up to the program, as long as every block has
a single holder.
-/

namespace Heap

/-- Memory given out by an allocator. -/
structure Block where
  start : ℕ
  size : ℕ
  deriving DecidableEq

def Block.Covers (b : Block) (a : ℕ) : Prop := b.start ≤ a ∧ a < b.start + b.size

/-- Blocks of size zero are told apart by where they start. -/
def Block.Apart (b b' : Block) : Prop :=
  b.start ≠ b'.start ∧ (b.start + b.size ≤ b'.start ∨ b'.start + b'.size ≤ b.start)

theorem Block.Apart.symm {b b' : Block} (h : b.Apart b') : b'.Apart b := ⟨h.1.symm, h.2.symm⟩

theorem Block.Apart.not_covers {b b' : Block} {a : ℕ} (h : b.Apart b') (ha : b.Covers a) : ¬ b'.Covers a := by
  obtain ⟨-, h⟩ := h
  obtain ⟨hlow, hhigh⟩ := ha
  rintro ⟨hlow', hhigh'⟩
  omega

structure Allocator (H : Type) where
  malloc : H → ℕ → H × Option ℕ
  free : H → ℕ → H
  blocks : H → Set Block

/-- What is documented of an allocator which has the memory between `low` and `high` to give out. -/
structure Allocator.Correct {H : Type} (A : Allocator H) (low high : ℕ) : Prop where
  refused {h h' : H} {n : ℕ} : A.malloc h n = (h', none) → A.blocks h' = A.blocks h
  granted {h h' : H} {n p : ℕ} : A.malloc h n = (h', some p) → ∃ size, n ≤ size ∧ low ≤ p ∧ p + size ≤ high ∧
    (∀ b ∈ A.blocks h, Block.Apart ⟨p, size⟩ b) ∧ A.blocks h' = insert ⟨p, size⟩ (A.blocks h)
  freed {h : H} {b : Block} : b ∈ A.blocks h → A.blocks (A.free h b.start) = A.blocks h \ {b}

/-- Blocks which do not overlap, all of them between `low` and `high`. -/
structure Formed (low high : ℕ) (s : Set Block) : Prop where
  within : ∀ b ∈ s, low ≤ b.start ∧ b.start + b.size ≤ high
  apart : ∀ b ∈ s, ∀ b' ∈ s, b ≠ b' → b.Apart b'

section
variable {low high : ℕ} {s : Set Block} {b b' : Block}

theorem Formed.empty : Formed low high ∅ := ⟨fun _ hb => hb.elim, fun _ hb => hb.elim⟩

theorem Formed.insert (h : Formed low high s) (hlow : low ≤ b.start) (hhigh : b.start + b.size ≤ high)
    (hb : ∀ b' ∈ s, b.Apart b') : Formed low high (insert b s) := by
  refine ⟨fun b₁ h₁ => ?_, fun b₁ h₁ b₂ h₂ hne => ?_⟩
  · rcases h₁ with rfl | h₁
    · exact ⟨hlow, hhigh⟩
    · exact h.within b₁ h₁
  · rcases h₁ with rfl | h₁ <;> rcases h₂ with rfl | h₂
    · exact absurd rfl hne
    · exact hb b₂ h₂
    · exact (hb b₁ h₁).symm
    · exact h.apart b₁ h₁ b₂ h₂ hne

theorem Formed.subset {s' : Set Block} (h : Formed low high s) (hs : s' ⊆ s) : Formed low high s' :=
  ⟨fun b hb => h.within b (hs hb), fun b hb b' hb' => h.apart b (hs hb) b' (hs hb')⟩

theorem Formed.eq_of_start (h : Formed low high s) (hb : b ∈ s) (hb' : b' ∈ s) (he : b.start = b'.start) :
    b = b' := by
  by_contra hne
  exact (h.apart b hb b' hb' hne).1 he

theorem Formed.eq_of_covers (h : Formed low high s) (hb : b ∈ s) (hb' : b' ∈ s) {a : ℕ} (ha : b.Covers a)
    (ha' : b'.Covers a) : b = b' := by
  by_contra hne
  exact (h.apart b hb b' hb' hne).not_covers ha ha'

end

/-! ### Holders -/

section
variable {O : Type} {low high : ℕ} {s : Set Block} {holds holds' : O → ℕ → Prop} {o : O} {p : ℕ}

/-- Everybody holds blocks which are given out, and no two hold the same. -/
structure Custody (s : Set Block) (holds : O → ℕ → Prop) : Prop where
  given : ∀ o p, holds o p → ∃ b ∈ s, b.start = p
  sole : ∀ o o' p, holds o p → holds o' p → o = o'

/-- Holders lose blocks, and what they keep is given out still. -/
theorem Custody.less (h : Custody s holds) (hsub : ∀ o p, holds' o p → holds o p) : Custody s holds' :=
  ⟨fun o p hp => h.given o p (hsub o p hp), fun o o' p hp hp' => h.sole o o' p (hsub o p hp) (hsub o' p hp')⟩

/-- A block which was not there before gets a holder. -/
theorem Custody.grant (h : Custody s holds) {b : Block} (hb : ∀ b' ∈ s, b.Apart b')
    (hsub : ∀ o' p, holds' o' p → holds o' p ∨ o' = o ∧ p = b.start) : Custody (insert b s) holds' := by
  have hold : ∀ o', ¬ holds o' b.start := fun o' ho => by
    obtain ⟨b', hb', he⟩ := h.given o' b.start ho
    exact (hb b' hb').1 he.symm
  refine ⟨fun o' p hp => ?_, fun o₁ o₂ p h₁ h₂ => ?_⟩
  · rcases hsub o' p hp with hp | ⟨-, rfl⟩
    · obtain ⟨b', hb', he⟩ := h.given o' p hp
      exact ⟨b', Or.inr hb', he⟩
    · exact ⟨b, Or.inl rfl, rfl⟩
  · rcases hsub o₁ p h₁ with h₁ | ⟨ho₁, hp₁⟩ <;> rcases hsub o₂ p h₂ with h₂ | ⟨ho₂, hp₂⟩
    · exact h.sole o₁ o₂ p h₁ h₂
    · exact absurd (hp₂ ▸ h₁) (hold o₁)
    · exact absurd (hp₁ ▸ h₂) (hold o₂)
    · exact ho₁.trans ho₂.symm

/-- A block changes hands. -/
theorem Custody.pass (h : Custody s holds) {d : O} (ho : holds o p) (hlost : ¬ holds' o p ∨ d = o)
    (hsub : ∀ o₁ q, holds' o₁ q → holds o₁ q ∨ o₁ = d ∧ q = p) : Custody s holds' := by
  refine ⟨fun o₁ q hq => ?_, fun o₁ o₂ q h₁ h₂ => ?_⟩
  · rcases hsub o₁ q hq with hq | ⟨-, rfl⟩
    · exact h.given o₁ q hq
    · exact h.given o q ho
  · have hother : ∀ o₁, holds' o₁ p → o₁ = d := fun o₁ h₁ => by
      rcases hsub o₁ p h₁ with hp | ⟨he, -⟩
      · obtain rfl := h.sole o₁ o p hp ho
        rcases hlost with hlost | he
        · exact absurd h₁ hlost
        · exact he.symm
      · exact he
    by_cases hq : q = p
    · subst hq
      exact (hother o₁ h₁).trans (hother o₂ h₂).symm
    · have hold : ∀ o₁, holds' o₁ q → holds o₁ q := fun o₁ h₁ => (hsub o₁ q h₁).resolve_right fun he => hq he.2
      exact h.sole o₁ o₂ q (hold o₁ h₁) (hold o₂ h₂)

/-- The holder has given the block back. -/
theorem Custody.release (h : Custody s holds) {b : Block} (ho : holds o b.start)
    (hlost : ¬ holds' o b.start) (hsub : ∀ o' p, holds' o' p → holds o' p) : Custody (s \ {b}) holds' := by
  refine ⟨fun o' p hp => ?_, (h.less hsub).sole⟩
  obtain ⟨b', hb', he⟩ := h.given o' p (hsub o' p hp)
  refine ⟨b', ⟨hb', ?_⟩, he⟩
  rintro rfl
  subst he
  obtain rfl := h.sole o' o b'.start (hsub o' _ hp) ho
  exact hlost hp

end

/-! ### The simplest allocator -/

/-- Slots of the same size from `low` on, the heap is the list of those in use. -/
def slots (low size count : ℕ) : Allocator (List ℕ) where
  malloc used n :=
    match (List.range count).find? (fun i => i ∉ used) with
    | some i => if n ≤ size then (i :: used, some (low + i * size)) else (used, none)
    | none => (used, none)
  free used p := used.filter fun i => low + i * size ≠ p
  blocks used := { b | ∃ i ∈ used, i < count ∧ b = ⟨low + i * size, size⟩ }

theorem slot_apart {low size i j : ℕ} (hsize : 0 < size) (hij : i ≠ j) :
    Block.Apart ⟨low + i * size, size⟩ ⟨low + j * size, size⟩ := by
  unfold Block.Apart
  dsimp only
  rcases Nat.lt_or_gt_of_ne hij with hlt | hlt
  · have hle := Nat.mul_le_mul_right size (Nat.succ_le_of_lt hlt)
    rw [Nat.succ_mul] at hle
    exact ⟨by omega, Or.inl (by omega)⟩
  · have hle := Nat.mul_le_mul_right size (Nat.succ_le_of_lt hlt)
    rw [Nat.succ_mul] at hle
    exact ⟨by omega, Or.inr (by omega)⟩

theorem slots_correct {low size count : ℕ} (hsize : 0 < size) :
    (slots low size count).Correct low (low + count * size) where
  refused {used used' n} hm := by
    unfold slots at hm ⊢
    dsimp only at hm ⊢
    split at hm
    · split at hm <;> cases hm
      rfl
    · cases hm
      rfl
  granted {used used' n p} hm := by
    unfold slots at hm ⊢
    dsimp only at hm ⊢
    split at hm
    case h_1 i hi =>
      split at hm <;> cases hm
      rename_i hn
      have hnot : i ∉ used := by simpa using List.find?_some hi
      have hlt : i < count := List.mem_range.mp (List.mem_of_find?_eq_some hi)
      have hle := Nat.mul_le_mul_right size (Nat.succ_le_of_lt hlt)
      rw [Nat.succ_mul] at hle
      refine ⟨size, hn, by omega, by omega, ?_, ?_⟩
      · rintro b ⟨j, hj, -, rfl⟩
        exact slot_apart hsize fun he => hnot (he ▸ hj)
      · ext b
        constructor
        · rintro ⟨j, hj, hjc, rfl⟩
          rcases List.mem_cons.mp hj with rfl | hj
          · exact Or.inl rfl
          · exact Or.inr ⟨j, hj, hjc, rfl⟩
        · rintro (rfl | ⟨j, hj, hjc, rfl⟩)
          · exact ⟨i, List.mem_cons_self, hlt, rfl⟩
          · exact ⟨j, List.mem_cons_of_mem _ hj, hjc, rfl⟩
    case h_2 => cases hm
  freed {used b} hb := by
    obtain ⟨i, hi, hic, rfl⟩ := hb
    ext b
    constructor
    · rintro ⟨j, hj, hjc, rfl⟩
      obtain ⟨hju, hne⟩ := List.mem_filter.mp hj
      refine ⟨⟨j, hju, hjc, rfl⟩, fun he => ?_⟩
      exact (of_decide_eq_true hne) (congrArg Block.start he)
    · rintro ⟨⟨j, hj, hjc, rfl⟩, hne⟩
      refine ⟨j, List.mem_filter.mpr ⟨hj, decide_eq_true fun he => ?_⟩, hjc, rfl⟩
      have hij : j = i := by
        by_contra hne'
        exact (slot_apart hsize hne').1 he
      exact hne (by rw [hij]; rfl)

end Heap
