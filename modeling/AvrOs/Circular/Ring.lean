import Mathlib.Data.List.Range
import Mathlib.Data.Nat.ModEq
import Mathlib.Logic.Function.Basic

/-!
# Ring buffers

What is in a ring of `length` slots are `count` of them, from `head` on.
-/

namespace Circular

variable {α : Type} {slots slots' : ℕ → α} {head count length i j : ℕ}

def ring (slots : ℕ → α) (head count length : ℕ) : List α := (List.range count).map fun i => slots ((head + i) % length)

/-- Slots which are not in use do not matter. -/
theorem ring_congr (h : ∀ i < count, slots' ((head + i) % length) = slots ((head + i) % length)) :
    ring slots' head count length = ring slots head count length :=
  List.map_congr_left fun i hi => h i (List.mem_range.mp hi)

/-- Slots which are less than a turn apart are different. -/
theorem slot_ne (hij : i < j) (hj : j < i + length) : i % length ≠ j % length := by
  intro he
  have hdvd : length ∣ j - i := (Nat.modEq_iff_dvd' (Nat.le_of_lt hij)).mp he
  have hzero := Nat.eq_zero_of_dvd_of_lt hdvd (by omega)
  omega

/-- One more behind the last one. -/
theorem ring_append (hroom : count < length) (x : α) :
    ring (Function.update slots ((head + count) % length) x) head (count + 1) length =
    ring slots head count length ++ [x] := by
  have hold : ring (Function.update slots ((head + count) % length) x) head count length = ring slots head count length :=
    ring_congr fun i hi => Function.update_of_ne (slot_ne (by omega) (by omega)) ..
  rw [← hold, ring, ring, List.range_succ, List.map_append, List.map_singleton, Function.update_self]

/-- The first one is taken, the next one is where the head goes to. -/
theorem ring_take (hcount : 0 < count) :
    ring slots head count length = slots (head % length) :: ring slots ((head + 1) % length) (count - 1) length := by
  obtain ⟨n, rfl⟩ : ∃ n, count = n + 1 := ⟨count - 1, by omega⟩
  rw [ring, ring, List.range_succ_eq_map, List.map_cons, List.map_map]
  congr 1
  refine List.map_congr_left fun i _ => ?_
  have hnext : (head + (i + 1)) % length = ((head + 1) % length + i) % length := by
    rw [Nat.mod_add_mod]
    congr 1
    omega
  exact congrArg slots hnext

end Circular
