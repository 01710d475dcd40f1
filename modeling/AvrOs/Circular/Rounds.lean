import Mathlib.Data.Nat.ModEq
import Mathlib.Tactic.Ring

/-!
# Rounds

What comes up again and again after as many steps. A countdown says when it is due next.
-/

namespace Circular

/-- Every remainder comes up once in as many numbers in a row. -/
theorem mod_window {n i : ℕ} (hi : i < n) (j : ℕ) : ∃! m, (j ≤ m ∧ m < j + n) ∧ m % n = i := by
  have hj := Nat.div_add_mod j n
  have hr := Nat.mod_lt j (Nat.lt_of_le_of_lt (Nat.zero_le i) hi)
  have hunique : ∀ a b, j ≤ a → b < j + n → a ≤ b → a % n = b % n → a = b := by
    intro a b ha hb hle hm
    have hdvd := (Nat.modEq_iff_dvd' hle).mp hm
    have := Nat.eq_zero_of_dvd_of_lt hdvd (by omega)
    omega
  have hexists : ∃ m, (j ≤ m ∧ m < j + n) ∧ m % n = i := by
    by_cases hle : j % n ≤ i
    · exact ⟨n * (j / n) + i, by omega, by rw [Nat.mul_add_mod, Nat.mod_eq_of_lt hi]⟩
    · refine ⟨n * (j / n) + n + i, by omega, ?_⟩
      rw [← Nat.mul_succ, Nat.mul_add_mod, Nat.mod_eq_of_lt hi]
  obtain ⟨m, hm, hmod⟩ := hexists
  refine ⟨m, ⟨hm, hmod⟩, fun b hb => ?_⟩
  rcases Nat.le_total b m with hle | hle
  · exact hunique b m hb.1.1 hm.2 hle (hb.2.trans hmod.symm)
  · exact (hunique m b hm.1 hb.1.2 hle (hmod.trans hb.2.symm)).symm

/-- One of `first`, `first + period`, `first + 2 * period` and so on. -/
def OnTurn (first period m : ℕ) : Prop := ∃ j, m = first + j * period

/-- After `m` steps there are `left` steps to go until the next turn. -/
def Due (first period m left : ℕ) : Prop := ∃ j, m + left = first + j * period ∧ (0 < j → left < period)

variable {first period m left : ℕ}

theorem due_first : Due first period 0 first := ⟨0, by omega, fun h => absurd h (Nat.lt_irrefl 0)⟩

theorem Due.step (h : Due first period m (left + 1)) : Due first period (m + 1) left := by
  obtain ⟨j, he, hlt⟩ := h
  refine ⟨j, by omega, fun hj => ?_⟩
  have := hlt hj
  omega

/-- A turn has been taken, the next one is a whole period ahead. -/
theorem Due.again (h : Due first period m 0) (hp : 0 < period) : Due first period (m + 1) (period - 1) := by
  obtain ⟨j, he, -⟩ := h
  refine ⟨j + 1, ?_, fun _ => by omega⟩
  have hmul : (j + 1) * period = j * period + period := by ring
  omega

theorem Due.onTurn_iff (h : Due first period m left) : OnTurn first period m ↔ left = 0 := by
  obtain ⟨j, he, hlt⟩ := h
  constructor
  · rintro ⟨i, hi⟩
    by_contra hne
    have hij : i * period < j * period := by omega
    have hstep : (i + 1) * period ≤ j * period := Nat.mul_le_mul_right period (Nat.lt_of_mul_lt_mul_right hij)
    have hmul : (i + 1) * period = i * period + period := by ring
    have hj : 0 < j := Nat.pos_of_ne_zero fun h0 => by
      subst h0
      omega
    have := hlt hj
    omega
  · rintro rfl
    exact ⟨j, he⟩

end Circular
