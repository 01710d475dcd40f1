import Mathlib.Algebra.Order.Group.Unbundled.Abs
import Mathlib.Tactic.Linarith
import Mathlib.Tactic.Ring

/-!
# Division to the nearest

What is rounded to the nearest is as close to a number as a multiple of the divisor gets. Multiples
of multiples are multiples, so a divisor of another one never does worse.
-/

namespace Numeric

/-- `n / d`, rounded to the nearest. -/
def roundDiv (n d : ℕ) : ℕ := (n + d / 2) / d

/-- How far a multiple of `d` is off. -/
def miss (n d k : ℕ) : ℕ := ((d * k : ℕ) - n : ℤ).natAbs

variable {n d e k : ℕ}

theorem roundDiv_bounds (hd : 0 < d) : d * roundDiv n d ≤ n + d / 2 ∧ n + d / 2 < d * roundDiv n d + d := by
  have hdiv := Nat.div_add_mod (n + d / 2) d
  have hmod := Nat.mod_lt (n + d / 2) hd
  unfold roundDiv
  omega

/-- No multiple of the divisor is closer. -/
theorem roundDiv_nearest (hd : 0 < d) (k : ℕ) : miss n d (roundDiv n d) ≤ miss n d k := by
  obtain ⟨hlo, hhi⟩ := roundDiv_bounds (n := n) hd
  unfold miss
  rcases Nat.lt_trichotomy k (roundDiv n d) with hlt | heq | hgt
  · have hstep : d * k + d ≤ d * roundDiv n d := by
      calc d * k + d = d * (k + 1) := by ring
        _ ≤ d * roundDiv n d := Nat.mul_le_mul_left d hlt
    omega
  · rw [heq]
  · have hstep : d * roundDiv n d + d ≤ d * k := by
      calc d * roundDiv n d + d = d * (roundDiv n d + 1) := by ring
        _ ≤ d * k := Nat.mul_le_mul_left d hgt
    omega

/-- A divisor does at least as well as its multiples. -/
theorem roundDiv_dvd (hd : 0 < d) (h : d ∣ e) : miss n d (roundDiv n d) ≤ miss n e (roundDiv n e) := by
  obtain ⟨m, rfl⟩ := h
  have hmul : miss n (d * m) (roundDiv n (d * m)) = miss n d (m * roundDiv n (d * m)) := by
    unfold miss
    rw [Nat.mul_assoc]
  rw [hmul]
  exact roundDiv_nearest hd _

/-- What has been divided is not less than the multiples below the quotient. -/
theorem mul_le_of_lt_roundDiv (h : k < roundDiv n d) : d * k ≤ n := by
  have hd : 0 < d := Nat.pos_of_ne_zero fun h0 => by
    subst h0
    simp [roundDiv] at h
  have hlo := (roundDiv_bounds (n := n) hd).1
  have hstep : d * (k + 1) ≤ d * roundDiv n d := Nat.mul_le_mul_left d h
  rw [Nat.mul_succ] at hstep
  omega

end Numeric
