import Mathlib.Data.List.Range

/-!
# Byte-addressed memory

`load` and `store` are the two halves of `memcpy`.
-/

namespace AvrOs

variable {β : Type}

def load (mem : ℕ → β) (p n : ℕ) : List β := (List.range n).map fun i => mem (p + i)

def store (mem : ℕ → β) (p : ℕ) (bytes : List β) : ℕ → β := fun a =>
  if p ≤ a then (bytes[a - p]?).getD (mem a) else mem a

@[simp] theorem load_length (mem : ℕ → β) (p n : ℕ) : (load mem p n).length = n := by
  simp [load]

theorem store_outside (mem : ℕ → β) (p a : ℕ) (bytes : List β)
    (h : a < p ∨ p + bytes.length ≤ a) : store mem p bytes a = mem a := by
  unfold store
  split
  · rename_i hp
    have hn : bytes.length ≤ a - p := by omega
    rw [List.getElem?_eq_none hn, Option.getD_none]
  · rfl

theorem load_store (mem : ℕ → β) (p : ℕ) (bytes : List β) :
    load (store mem p bytes) p bytes.length = bytes := by
  apply List.ext_getElem
  · simp
  · intro i hi hb
    simp [load, store, hb]

theorem load_store_disjoint (mem : ℕ → β) (p q n : ℕ) (bytes : List β)
    (h : q + n ≤ p ∨ p + bytes.length ≤ q) : load (store mem p bytes) q n = load mem q n := by
  unfold load
  apply List.map_congr_left
  intro i hi
  have hlt : i < n := List.mem_range.mp hi
  exact store_outside mem p (q + i) bytes (by omega)

end AvrOs
