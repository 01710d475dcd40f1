import AvrOs.Intrusive.Ordered
import Mathlib.Data.BitVec

/-!
# Deadlines on a clock which wraps around

The clock has `w` bits. A deadline is as far away as it takes the clock to get there, so
deadlines are compared by what is left until then and not by their values. A list in order
of time left stays in order as the clock goes on, as long as nothing on it is due.
-/

namespace Circular
open Intrusive

variable {w : ℕ} {α : Type}

/-- Ticks from now on until the deadline. -/
def left (now due : BitVec w) : ℕ := (due - now).toNat

theorem left_eq_zero (now due : BitVec w) : left now due = 0 ↔ due = now := by
  unfold left
  constructor
  · intro h
    have h0 : due - now = 0 := BitVec.eq_of_toNat_eq h
    rw [← BitVec.sub_add_cancel due now, h0]
    simp
  · rintro rfl
    simp

theorem left_pos (now due : BitVec w) : 0 < left now due ↔ due ≠ now := by
  rw [Nat.pos_iff_ne_zero, ne_eq, left_eq_zero]

/-- A deadline set now is as far away as it is set. -/
theorem left_add (now delay : BitVec w) : left now (now + delay) = delay.toNat := by
  unfold left
  rw [BitVec.add_comm, BitVec.add_sub_cancel]

theorem toNat_pred {x : BitVec w} (hx : x ≠ 0) : (x - 1).toNat + 1 = x.toNat := by
  have hpos : 0 < x.toNat := by
    rw [Nat.pos_iff_ne_zero]
    exact fun h => hx (BitVec.eq_of_toNat_eq h)
  have hw : w ≠ 0 := by
    rintro rfl
    exact hx (Subsingleton.elim _ _)
  have h1 : (1 : BitVec w).toNat = 1 := Nat.mod_eq_of_lt (Nat.one_lt_two_pow hw)
  have hlt := x.isLt
  rw [BitVec.toNat_sub, h1, show 2 ^ w - 1 + x.toNat = x.toNat - 1 + 2 ^ w by omega,
    Nat.add_mod_right, Nat.mod_eq_of_lt (by omega)]
  omega

/-- The clock comes closer to everything which is not due. -/
theorem left_tick {now due : BitVec w} (h : due ≠ now) :
    left (now + 1) due + 1 = left now due := by
  have h0 : due - now ≠ 0 := fun h0 => h ((left_eq_zero now due).mp (by rw [left, h0]; rfl))
  unfold left
  rw [sub_add_eq_sub_sub]
  exact toNat_pred h0

/-- The test for something between now and `y` ticks ahead, now excluded. -/
theorem pred_lt_iff {x y : BitVec w} : x - 1 < y ↔ 0 < x.toNat ∧ x.toNat ≤ y.toNat := by
  rw [BitVec.lt_def]
  by_cases hx : x = 0
  · subst hx
    have h0 : (0 : BitVec w) - 1 = BitVec.allOnes w := by simp [BitVec.neg_one_eq_allOnes]
    have hy := y.isLt
    have hz : (0 : BitVec w).toNat = 0 := by simp
    rw [h0, hz, BitVec.toNat_allOnes]
    omega
  · have := toNat_pred hx
    omega

/-- A deadline set in periods, `d` ticks after the period began. -/
theorem left_period {now previous period : BitVec w} {d : ℕ}
    (hd : now = previous + BitVec.ofNat w d) (hlt : d < 2 ^ w) :
    left now (previous + period) = if d ≤ period.toNat then period.toNat - d
      else 2 ^ w + period.toNat - d := by
  have hp := period.isLt
  have he : previous + period - now = period - BitVec.ofNat w d := by
    rw [hd]
    exact add_sub_add_left_eq_sub period (BitVec.ofNat w d) previous
  rw [left, he, BitVec.toNat_sub, BitVec.toNat_ofNat, Nat.mod_eq_of_lt hlt]
  split
  case isTrue h =>
    rw [show 2 ^ w - d + period.toNat = period.toNat - d + 2 ^ w by omega, Nat.add_mod_right,
      Nat.mod_eq_of_lt (by omega)]
  case isFalse h => rw [Nat.mod_eq_of_lt (by omega)]; omega
/-- In order of what is left. -/
def InTime (now : BitVec w) (due : α → BitVec w) (l : List α) : Prop :=
  l.Pairwise fun a b => left now (due a) ≤ left now (due b)

namespace InTime

variable {now : BitVec w} {due due' : α → BitVec w} {l l' : List α}

theorem nil : InTime now due [] := List.Pairwise.nil

theorem sublist (h : InTime now due l) (hs : l'.Sublist l) : InTime now due l' :=
  List.Pairwise.sublist hs h

theorem congr (h : InTime now due l) (he : ∀ a ∈ l, due' a = due a) : InTime now due' l :=
  List.Pairwise.imp_of_mem (fun {a b} ha hb hab => by rw [he a ha, he b hb]; exact hab) h

/-- Nobody is due as long as the first one is not. -/
theorem ahead (h : InTime now due l) (hh : ∀ a, l.head? = some a → due a ≠ now) :
    ∀ a ∈ l, due a ≠ now := by
  cases l with
  | nil => exact fun a ha => absurd ha List.not_mem_nil
  | cons x l =>
    intro a ha
    have hx := (left_pos now (due x)).mpr (hh x rfl)
    rcases List.mem_cons.mp ha with rfl | ha
    · exact hh a rfl
    · have hle := (List.pairwise_cons.mp h).1 a ha
      exact (left_pos now (due a)).mp (by omega)

theorem tick (h : InTime now due l) (ha : ∀ a ∈ l, due a ≠ now) : InTime (now + 1) due l := by
  refine List.Pairwise.imp_of_mem (fun {a b} hma hmb hab => ?_) h
  have h₁ := left_tick (ha a hma)
  have h₂ := left_tick (ha b hmb)
  omega

/-- Whoever is put behind those who are due earlier or at the same time is in its place. -/
theorem insert [DecidableEq α] (h : InTime now due l) (x : α) (delay : BitVec w) (hx : x ∉ l) :
    InTime now (Function.update due x (now + delay))
      (l.takeWhile (fun it => due it - now ≤ delay) ++
        x :: l.dropWhile (fun it => due it - now ≤ delay)) := by
  have hself : left now (Function.update due x (now + delay) x) = delay.toNat := by
    rw [Function.update_self, left_add]
  have hne : ∀ a ∈ l, Function.update due x (now + delay) a = due a := by
    intro a ha
    refine Function.update_of_ne ?_ ..
    rintro rfl
    exact hx ha
  have hl : InTime now (Function.update due x (now + delay)) l := h.congr hne
  refine pairwise_splice _ _ l x hl (fun b hb hp => ?_) (fun b hb hp => ?_)
    fun a ha b hb hp hab => ?_
  · have hp' : due b - now ≤ delay := by simpa using hp
    rw [hself, hne b hb]
    exact hp'
  · have hp' : ¬ due b - now ≤ delay := by simpa using hp
    rw [hself, hne b hb]
    exact Nat.le_of_lt (Nat.lt_of_not_le hp')
  · have hp' : ¬ due a - now ≤ delay := by simpa using hp
    rw [hne a ha, hne b hb] at hab
    have hb' : ¬ due b - now ≤ delay := fun hle => hp' (Nat.le_trans hab hle)
    simpa using hb'

end InTime

end Circular
