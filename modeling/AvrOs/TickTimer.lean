import AvrOs.Numeric.Nearest
import Mathlib.Data.BitVec
import Mathlib.Data.List.Find

/-!
# The timer behind the tick (asm.c)

The prescaler is chosen by the preprocessor, which calculates with 64 bits. What is written to the
compare register is calculated again with the 32 bits of an `unsigned long`.
-/

namespace AvrOs
open Numeric

/-! ### What is compiled -/

/-- `OS_TIMER_RANGE` -/
def osTimerRange (timer : ℕ) : ℕ := if timer = 0 ∨ timer = 2 then 256 else 65536

/-- `OS_TICK_COUNTS` in unsigned arithmetic of `w` bits. -/
def osTickCounts (w fCpu tickHz prescaler : ℕ) : BitVec w :=
  let hz := BitVec.ofNat w prescaler * 1 * BitVec.ofNat w tickHz
  (BitVec.ofNat w fCpu + hz / 2) / hz

/-- Values for `OS_TICK_PRESCALER` and `OS_TICK_CLOCK` in the order they are tried in. -/
def osTickClocks (timer : ℕ) : List (ℕ × ℕ) :=
  if timer = 2 then [(1, 1), (8, 2), (32, 3), (64, 4), (128, 5), (256, 6), (1024, 7)]
  else [(1, 1), (8, 2), (64, 3), (256, 4), (1024, 5)]

/-- The first one which fits. -/
def osTickClock (timer range fCpu tickHz : ℕ) : Option (ℕ × ℕ) :=
  (osTickClocks timer).find? fun x => (osTickCounts 64 fCpu tickHz x.1).toNat ≤ range

/-- No `#error` is met, and `x` is what has been chosen. -/
def Compiles (timer range fCpu tickHz : ℕ) (x : ℕ × ℕ) : Prop :=
  1 ≤ tickHz ∧ osTickClock timer range fCpu tickHz = some x ∧ 2 ≤ (osTickCounts 64 fCpu tickHz x.1).toNat

instance (timer range fCpu tickHz : ℕ) (x : ℕ × ℕ) : Decidable (Compiles timer range fCpu tickHz x) :=
  inferInstanceAs (Decidable (_ ∧ _ ∧ _))

/-- What `osPortTickStart` writes to `OCRnA`, a register for numbers below `range`. -/
def osPortTickStart (range fCpu tickHz prescaler : ℕ) : ℕ :=
  (osTickCounts 32 fCpu tickHz prescaler - 1).toNat % range

/-! ### What it means -/

/-- As long as nothing is too large for the arithmetic, counts are exact. -/
theorem osTickCounts_exact {w fCpu tickHz prescaler : ℕ} (hw : 2 ≤ w) (hp : prescaler < 2 ^ w) (hz : tickHz < 2 ^ w)
    (hmul : prescaler * tickHz < 2 ^ w) (hadd : fCpu + prescaler * tickHz / 2 < 2 ^ w) :
    (osTickCounts w fCpu tickHz prescaler).toNat = roundDiv fCpu (prescaler * tickHz) := by
  have hfour : 2 ^ 2 ≤ 2 ^ w := Nat.pow_le_pow_right (by decide) hw
  have hlit : ∀ n, n < 4 → (BitVec.ofNat w n).toNat = n := fun n hn => by
    rw [BitVec.toNat_ofNat]
    exact Nat.mod_eq_of_lt (by omega)
  have h1 : (1 : BitVec w).toNat = 1 := hlit 1 (by decide)
  have h2 : (2 : BitVec w).toNat = 2 := hlit 2 (by decide)
  have hd : (BitVec.ofNat w prescaler * 1 * BitVec.ofNat w tickHz).toNat = prescaler * tickHz := by
    rw [BitVec.toNat_mul, BitVec.toNat_mul, h1, BitVec.toNat_ofNat, BitVec.toNat_ofNat, Nat.mul_one,
      Nat.mod_eq_of_lt hp, Nat.mod_eq_of_lt hp, Nat.mod_eq_of_lt hz, Nat.mod_eq_of_lt hmul]
  unfold osTickCounts roundDiv
  dsimp only
  rw [BitVec.toNat_udiv, BitVec.toNat_add, BitVec.toNat_udiv, hd, h2, BitVec.toNat_ofNat,
    Nat.mod_eq_of_lt (show fCpu < 2 ^ w by omega), Nat.mod_eq_of_lt hadd]

theorem osTickClocks_pos {timer : ℕ} : ∀ x ∈ osTickClocks timer, 0 < x.1 ∧ x.1 ≤ 1024 := by
  unfold osTickClocks
  split <;> decide

/-- Each prescaler divides those which are tried later. -/
theorem osTickClocks_dvd (timer : ℕ) : (osTickClocks timer).Pairwise fun x y => x.1 ∣ y.1 := by
  unfold osTickClocks
  split <;> decide

theorem osTickClocks_head (timer : ℕ) : ∃ rest, osTickClocks timer = (1, 1) :: rest := by
  unfold osTickClocks
  split <;> exact ⟨_, rfl⟩

/-- The preprocessor has enough bits for clocks below 2^31, unless not even the first prescaler is slow
enough for the tick, and then no other one is looked at. -/
theorem osTickCounts_compiled {range fCpu tickHz prescaler : ℕ} (hr : 256 ≤ range) (hf : fCpu < 2 ^ 31)
    (hz : tickHz < 2 ^ 64) (hp : prescaler ≤ 1024)
    (h : prescaler = 1 ∨ range < roundDiv fCpu (1 * tickHz)) :
    (osTickCounts 64 fCpu tickHz prescaler).toNat = roundDiv fCpu (prescaler * tickHz) := by
  rcases h with rfl | hslow
  · exact osTickCounts_exact (by decide) (by decide) hz (by omega) (by omega)
  · have hle : 1 * tickHz * 256 ≤ fCpu := mul_le_of_lt_roundDiv (by omega)
    have hmul : prescaler * tickHz ≤ 1024 * tickHz := Nat.mul_le_mul_right _ hp
    exact osTickCounts_exact (by decide) (by omega) hz (by omega) (by omega)

theorem osTickClock_eq {timer range fCpu tickHz : ℕ} (hr : 256 ≤ range) (hf : fCpu < 2 ^ 31) (hz : tickHz < 2 ^ 64) :
    osTickClock timer range fCpu tickHz =
      (osTickClocks timer).find? fun x => decide (roundDiv fCpu (x.1 * tickHz) ≤ range) := by
  have hone := osTickCounts_compiled hr hf hz (by decide) (Or.inl rfl)
  by_cases hfit : roundDiv fCpu (1 * tickHz) ≤ range
  · obtain ⟨rest, hl⟩ := osTickClocks_head timer
    rw [osTickClock, hl, List.find?_cons_of_pos, List.find?_cons_of_pos]
    · exact decide_eq_true hfit
    · rw [hone]
      exact decide_eq_true hfit
  · unfold osTickClock
    refine List.find?_congr fun x hx => ?_
    rw [osTickCounts_compiled hr hf hz (osTickClocks_pos x hx).2 (Or.inr (Nat.lt_of_not_le hfit))]

/-- A count of two or more is exact with 32 bits as well. -/
theorem osTickCounts_runtime {fCpu tickHz prescaler : ℕ} (hf : fCpu < 2 ^ 31) (hp : prescaler ≤ 1024)
    (hpos : 1 ≤ prescaler) (htwo : 2 ≤ roundDiv fCpu (prescaler * tickHz)) :
    (osTickCounts 32 fCpu tickHz prescaler).toNat = roundDiv fCpu (prescaler * tickHz) := by
  have hle : prescaler * tickHz * 1 ≤ fCpu := mul_le_of_lt_roundDiv htwo
  have hz : tickHz ≤ prescaler * tickHz := Nat.le_mul_of_pos_left _ hpos
  exact osTickCounts_exact (by decide) (by omega) (by omega) (by omega) (by omega)

/-- The prescaler which is chosen makes the tick as exact as the timer gets, and nothing overflows on
the way to the compare register. -/
theorem prescaler_best (timer range fCpu tickHz : ℕ) (hr : range = 256 ∨ range = 65536) (hf : fCpu < 2 ^ 31)
    (hz : tickHz < 2 ^ 64) (x : ℕ × ℕ) (h : Compiles timer range fCpu tickHz x) :
    let counts := roundDiv fCpu (x.1 * tickHz)
    (osTickCounts 64 fCpu tickHz x.1).toNat = counts ∧ (osTickCounts 32 fCpu tickHz x.1).toNat = counts ∧
      2 ≤ counts ∧ counts ≤ range ∧ osPortTickStart range fCpu tickHz x.1 = counts - 1 ∧
      ∀ y ∈ osTickClocks timer, roundDiv fCpu (y.1 * tickHz) ≤ range →
        miss fCpu (x.1 * tickHz) counts ≤ miss fCpu (y.1 * tickHz) (roundDiv fCpu (y.1 * tickHz)) := by
  obtain ⟨htick, hsel, htwo⟩ := h
  rw [osTickClock_eq (by omega) hf hz] at hsel
  obtain ⟨hfit, before, after, hl, hbefore⟩ := List.find?_eq_some_iff_append.mp hsel
  have hmem : x ∈ osTickClocks timer := by
    rw [hl]
    simp
  obtain ⟨hpos, hle⟩ := osTickClocks_pos x hmem
  have hcompiled : (osTickCounts 64 fCpu tickHz x.1).toNat = roundDiv fCpu (x.1 * tickHz) := by
    obtain ⟨rest, hhead⟩ := osTickClocks_head timer
    have hslow : x.1 = 1 ∨ range < roundDiv fCpu (1 * tickHz) := by
      cases before with
      | nil =>
        rw [hl] at hhead
        injection hhead with hx
        exact Or.inl (congrArg Prod.fst hx)
      | cons y before =>
        rw [hl] at hhead
        injection hhead with hy
        have hnot := hbefore y List.mem_cons_self
        rw [hy] at hnot
        exact Or.inr (by simpa using hnot)
    exact osTickCounts_compiled (by omega) hf hz hle hslow
  rw [hcompiled] at htwo
  have hruntime := osTickCounts_runtime hf hle hpos htwo
  have hfit' : roundDiv fCpu (x.1 * tickHz) ≤ range := of_decide_eq_true hfit
  refine ⟨hcompiled, hruntime, htwo, hfit', ?_, fun y hy hyfit => ?_⟩
  · have hsub : (osTickCounts 32 fCpu tickHz x.1 - 1).toNat = roundDiv fCpu (x.1 * tickHz) - 1 := by
      rw [BitVec.toNat_sub_of_le, hruntime]
      · rfl
      · rw [BitVec.le_def, hruntime]
        exact Nat.le_trans (by decide) htwo
    unfold osPortTickStart
    rw [hsub]
    exact Nat.mod_eq_of_lt (by omega)
  · -- smaller ones do not fit, the others are multiples
    rw [hl] at hy
    rcases List.mem_append.mp hy with hy | hy
    · have hnot := hbefore y hy
      rw [decide_eq_true hyfit] at hnot
      cases hnot
    · have hdvd : x.1 ∣ y.1 := by
        rcases List.mem_cons.mp hy with rfl | hy
        · exact dvd_rfl
        · have hpair := osTickClocks_dvd timer
          rw [hl] at hpair
          exact List.rel_of_pairwise_cons (List.pairwise_append.mp hpair).2.1 hy
      exact roundDiv_dvd (Nat.mul_pos hpos htick) (Nat.mul_dvd_mul_right hdvd tickHz)

/-- An Arduino with a tick of 1 kHz from timer 0. -/
theorem prescaler_best_arduino : Compiles 0 (osTimerRange 0) 16000000 1000 (64, 3) ∧
    osPortTickStart (osTimerRange 0) 16000000 1000 64 = roundDiv 16000000 (64 * 1000) - 1 :=
  have h : Compiles 0 (osTimerRange 0) 16000000 1000 (64, 3) := by decide +kernel
  ⟨h, (prescaler_best 0 (osTimerRange 0) 16000000 1000 (Or.inl rfl) (by decide) (by decide) (64, 3)
    h).2.2.2.2.1⟩

end AvrOs
