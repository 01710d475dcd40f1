import AvrOs.Periodic
import Mathlib.Algebra.Order.Floor.Div

/-!
# Delays in milliseconds

`OS_MS` calculates with 32 bits and is cut down to the width of the tick counter at last.
-/

namespace AvrOs
open Intrusive Circular Transition Kernel

variable {c : Config} {S : Type → Type → Type} [LinkStore S]

/-- The values config.h comes with, with a counter of 32 bits. -/
def Config.wide (places : ℕ) : Config := { Config.default places with tick32Bit := true }

/-- `OS_MS` where `OS_CFG_TICK_HZ` is `tickHz`. -/
def osMs (c : Config) (tickHz : ℕ) (ms : BitVec 32) : OsTick c :=
  ((ms * BitVec.ofNat 32 tickHz + 999) / 1000).setWidth c.tickBits

/-- The ticks it takes, rounded up. -/
def ticksOf (tickHz : ℕ) (ms : BitVec 32) : ℕ := ms.toNat * tickHz ⌈/⌉ 1000

theorem osMs_toNat (c : Config) (tickHz : ℕ) (ms : BitVec 32) :
    (osMs c tickHz ms).toNat = (ms.toNat * tickHz + 999) % 2 ^ 32 / 1000 % 2 ^ c.tickBits := by
  have h999 : (999 : BitVec 32).toNat = 999 := rfl
  have h1000 : (1000 : BitVec 32).toNat = 1000 := rfl
  unfold osMs
  rw [BitVec.toNat_setWidth, BitVec.toNat_udiv, BitVec.toNat_add, BitVec.toNat_mul, BitVec.toNat_ofNat,
    h999, h1000, Nat.mul_mod_mod, Nat.mod_add_mod]

theorem ticksOf_eq (tickHz : ℕ) (ms : BitVec 32) :
    ticksOf tickHz ms = (ms.toNat * tickHz + 999) / 1000 := by
  unfold ticksOf
  rw [Nat.ceilDiv_eq_add_pred_div]
  rfl

/-- What is lost if the product does not fit is never made up for. -/
theorem osMs_exact_iff {tickHz : ℕ} {ms : BitVec 32} (hmax : ticksOf tickHz ms < 2 ^ c.tickBits) :
    (osMs c tickHz ms).toNat = ticksOf tickHz ms ↔ ms.toNat * tickHz + 999 < 2 ^ 32 := by
  rw [osMs_toNat]
  rw [ticksOf_eq] at hmax ⊢
  constructor
  · intro he
    by_contra hbig
    have hwrap : (ms.toNat * tickHz + 999) % 2 ^ 32 + 1000 ≤ ms.toNat * tickHz + 999 := by omega
    have hless : (ms.toNat * tickHz + 999) % 2 ^ 32 / 1000 < (ms.toNat * tickHz + 999) / 1000 := by omega
    have hle := Nat.mod_le ((ms.toNat * tickHz + 999) % 2 ^ 32 / 1000) (2 ^ c.tickBits)
    omega
  · intro hfits
    rw [Nat.mod_eq_of_lt hfits, Nat.mod_eq_of_lt hmax]

/-! ### What a delay is good for -/

/-- The task sleeps from now on, and the tick which wakes it up is the `n`-th one, as long as
nobody suspends or deletes it. -/
structure Delayed (t : Place c) (k : Kernel c S) (wake : OsTick c) (n : ℕ) : Prop where
  blocked : k.stateOf t = OS_TASK_BLOCKED
  sleeps : ∀ k', Reach step (fun _ _ => True) k k' → SleepsUntil t (k.history t) wake n k'
  wakes : ∀ k₁ k₂ i, Reach step (fun _ _ => True) k k₁ →
    k₁.history t = List.replicate i Event.ticked ++ k.history t → k₁.step .tickEnter = some k₂ →
    (i + 1 = n ↔ ∃ w, k₂.history t = .woken t w false :: .ticked :: k₁.history t)

section
variable {k k' : ListKernel c} {t : Place c} {ticks wake : OsTick c} {n : ℕ}

/-- What is seen of the ticks tells how long the task has slept. -/
theorem Asleep.count {past : List (Event c)} {d i : ℕ} (h : Asleep t past wake d i k)
    (hh : k.history t = List.replicate n Event.ticked ++ past) : i = n := by
  have hlen := congrArg List.length (h.history.symm.trans hh)
  simp only [List.length_append, List.length_replicate] at hlen
  omega

theorem delay_step (hs : k.step (.call (.osDelay ticks)) = some k') :
    k.userMode ∧ k' = (k.emit (.called k.currentTask (.osDelay ticks) false)).osDelay ticks := by
  simp only [step] at hs
  split at hs
  case isTrue hc =>
    injection hs with hs
    exact ⟨hc.1, hs.symm⟩
  case isFalse => cases hs

theorem delay_sleeps (h : OnTime k) (hs : k.step (.call (.osDelay ticks)) = some k')
    (hi : k.currentTask ≠ osIdleTask) (h0 : ticks ≠ 0) (hforever : ticks ≠ OS_WAIT_FOREVER c) :
    Asleep k.currentTask (k'.history k.currentTask) (k.ticks + ticks) ticks.toNat 0 k' ∧
      ticksAsleep (k'.history k.currentTask) = 0 ∧
      sleepsFor (k'.history k.currentTask) = some ticks ∧ ticks ≠ OS_WAIT_FOREVER c := by
  have hticks := step_keeps_ticks h.toRest hs (by simp)
  obtain ⟨hmode, he⟩ := delay_step hs
  let s : ListKernel c := k.emit (.called k.currentTask (.osDelay ticks) false)
  have hsound : Sound s := h.sound.congr rfl rfl rfl rfl rfl rfl
  have hblockable : Blockable s (.osDelay ticks) ticks none := Or.inl rfl
  have hblock : k' = s.blockThen (.osDelay ticks) none ticks
      (fun k _ => k.returns (.osDelay ticks) .void) := by
    rw [he]
    exact if_pos h0
  have hfree : Open k := userMode_open hmode
  have hasleep := block_asleep hsound h.running hfree hi h0 hforever hblockable hblock hticks
  exact hasleep

/-- Whatever happens meanwhile, the delay takes as many ticks as it says. -/
theorem Asleep.delayed {past : List (Event c)} (h : OnTime k) (hh : k.history t = past)
    (hsl : Asleep t past (k.ticks + ticks) ticks.toNat 0 k) (hpast₀ : ticksAsleep past = 0)
    (hpast : sleepsFor past = some ticks ∧ ticks ≠ OS_WAIT_FOREVER c) :
    Delayed t k (k.ticks + ticks) ticks.toNat := by
  subst hh
  have hsleeps : ∀ {s}, Reach Kernel.step (fun _ _ => True) k s →
      (∃ n, Asleep t (k.history t) (k.ticks + ticks) ticks.toNat n s) ∨ Awoken t (k.history t) ticks.toNat s :=
    sleeps_on h hsl ⟨hpast.1, hpast.2, rfl⟩ hpast₀
  refine ⟨hsl.blocked, fun k' hr => ?_, fun k₁ k₂ i hr hi htick => ?_⟩
  · rcases hsleeps hr with ⟨n, hn⟩ | hw
    · have hleft := hn.left
      exact Or.inl ⟨hn.blocked, n, hn.early, hn.history, by omega⟩
    · exact Or.inr hw
  · obtain ⟨n, hn⟩ := (hsleeps hr).resolve_right (not_awoken hi)
    have hcount := hn.count hi
    have htime₁ : OnTime k₁ := hr.invariant h fun _ _ _ _ hi _ hst => hi.step hst
    rcases hn.tick htime₁ htick ⟨hpast.1, hpast.2, rfl⟩ hpast₀ with hn' | ⟨hlast, w, hw⟩
    · constructor
      · intro he
        have hearly := hn'.early
        omega
      · rintro ⟨w, hw⟩
        rw [hn'.history, List.replicate_succ] at hw
        injection hw with hw _
        cases hw
    · exact ⟨fun _ => ⟨w, hw⟩, fun _ => by omega⟩

end

theorem Delayed.of_sim {k : Kernel c Links} {l : ListKernel c} (h : Sim k l) (hl : Rest l) {t : Place c}
    {wake : OsTick c} {n : ℕ} (hd : Delayed t l wake n) : Delayed t k wake n := by
  refine ⟨h.stateOf t ▸ hd.blocked, fun k' hr => ?_, fun k₁ k₂ i hr hi htick => ?_⟩
  · obtain ⟨l', hr', h'⟩ := h.reach hl hr
    rw [h'.sleepsUntil, h.history]
    exact hd.sleeps l' hr'
  · obtain ⟨l₁, hr₁, h₁⟩ := h.reach hl hr
    have hl₁ : Rest l₁ := hr₁.invariant hl fun _ _ _ _ hi _ hst => hi.step hst
    obtain ⟨l₂, htick', h₂⟩ := step_sim h₁ hl₁ _ htick
    rw [h₁.history, h.history] at hi
    rw [h₂.history, h₁.history]
    exact hd.wakes l₁ l₂ i hr₁ hi htick'

/-- Any delay which is not for ever ends with the tick it is meant for. -/
theorem delay_exact {k k' : Kernel c Links} {ticks : OsTick c} (h : Reachable k)
    (hs : k.step (.call (.osDelay ticks)) = some k') (hi : k.currentTask ≠ osIdleTask)
    (h0 : ticks ≠ 0) (hforever : ticks ≠ OS_WAIT_FOREVER c) :
    Delayed k.currentTask k' (k.ticks + ticks) ticks.toNat := by
  obtain ⟨l, hl, hsim⟩ := reachable_lists h
  have htime := onTime_of_reachable hl
  obtain ⟨l', hs', hsim'⟩ := step_sim hsim htime.toRest _ hs
  obtain ⟨hsl, hpast₀, hpast⟩ := delay_sleeps htime hs' (hsim.current ▸ hi) h0 hforever
  have hticks := step_keeps_ticks htime.toRest hs' (by simp)
  rw [← hticks] at hsl
  have hd := (hsl.delayed (htime.step hs') rfl hpast₀ hpast).of_sim hsim' (htime.toRest.step hs')
  rwa [hticks, ← hsim.current, ← hsim.timers.2] at hd

/-! ### Milliseconds -/

/-- `OS_MS` is the number of ticks asked for, and that is how long a task sleeps. -/
def LongEnough (c : Config) (tickHz : ℕ) (ms : BitVec 32) : Prop :=
  (osMs c tickHz ms).toNat = ticksOf tickHz ms ∧ ∀ k k' : Kernel c Links, Reachable k →
    k.currentTask ≠ osIdleTask → k.step (.call (.osDelay (osMs c tickHz ms))) = some k' →
      Delayed k.currentTask k' (k.ticks + BitVec.ofNat _ (ticksOf tickHz ms)) (ticksOf tickHz ms)

/-- A delay is long enough if and only if the product and what rounds it up fit 32 bits. -/
theorem long_enough_iff (c : Config) (tickHz : ℕ) (ms : BitVec 32)
    (hn : 1 ≤ ticksOf tickHz ms ∧ ticksOf tickHz ms ≤ 2 ^ c.tickBits - 2) :
    LongEnough c tickHz ms ↔ ms.toNat * tickHz + 999 < 2 ^ 32 := by
  rw [← osMs_exact_iff (c := c) (by omega)]
  refine ⟨And.left, fun he => ⟨he, fun k k' hk hi hs => ?_⟩⟩
  have hmax : (OS_WAIT_FOREVER c).toNat = 2 ^ c.tickBits - 1 := BitVec.toNat_allOnes
  have h0 : osMs c tickHz ms ≠ 0 := fun h0 => by
    rw [h0] at he
    have hzero : (0 : OsTick c).toNat = 0 := by simp
    omega
  have hforever : osMs c tickHz ms ≠ OS_WAIT_FOREVER c := fun hf => by
    rw [hf] at he
    omega
  rw [← he, BitVec.ofNat_toNat, BitVec.setWidth_eq]
  exact delay_exact hk hs hi h0 hforever

/-- A counter of 16 bits does not get as far as that. -/
theorem long_enough_16 {c : Config} (hc : c.tick32Bit = false) (tickHz : ℕ) (ms : BitVec 32)
    (hn : 1 ≤ ticksOf tickHz ms ∧ ticksOf tickHz ms ≤ 2 ^ c.tickBits - 2) : LongEnough c tickHz ms := by
  refine (long_enough_iff c tickHz ms hn).mpr ?_
  have hbits : c.tickBits = 16 := by
    unfold Config.tickBits
    rw [hc]
    rfl
  rw [ticksOf_eq, hbits] at hn
  omega

/-- A quarter of a second at the usual 1 kHz. -/
theorem long_enough_250 : LongEnough (Config.default 1) 1000 250 :=
  (long_enough_iff (Config.default 1) 1000 250 (by decide)).mpr (by decide)

/-- A task which is to sleep for more than an hour, counted with 32 bits. -/
def seventyMinutes : Option Bool :=
  (steps step (osInit (Config.wide 1) Links) [.call (.osTaskCreate 1 3 false), .resume, .run]).bind fun k =>
    (k.step (.call (.osDelay (osMs _ 1000 4294968)))).bind fun k' =>
      (k'.step .resume).bind fun k₁ => (k₁.step .tickEnter).map fun k₂ =>
        decide (k.currentTask = 1 ∧ k₁.history 1 = k'.history 1 ∧
          k₂.history 1 = .woken 1 none false :: .ticked :: k₁.history 1)

/-- It is woken up by the first tick. -/
theorem delay_too_short : ¬ ∀ (c : Config) (tickHz : ℕ) (ms : BitVec 32), 1 ≤ tickHz →
    1 ≤ ticksOf tickHz ms ∧ ticksOf tickHz ms ≤ 2 ^ c.tickBits - 2 → LongEnough c tickHz ms := by
  intro h
  have hlong := h (Config.wide 1) 1000 4294968 (by decide) (by decide)
  have hrun : seventyMinutes = some true := by decide +kernel
  obtain ⟨k, hk, hrun⟩ := Option.bind_eq_some_iff.mp hrun
  obtain ⟨k', hk', hrun⟩ := Option.bind_eq_some_iff.mp hrun
  obtain ⟨k₁, hk₁, hrun⟩ := Option.bind_eq_some_iff.mp hrun
  obtain ⟨k₂, hk₂, hrun⟩ := Option.map_eq_some_iff.mp hrun
  obtain ⟨hcur, hpast, hwoken⟩ := of_decide_eq_true hrun
  have hd := hlong.2 k k' (Reach.steps_reach _ (fun _ _ _ => trivial) .init hk) (by rw [hcur]; decide) hk'
  rw [hcur] at hd
  have hone := (hd.wakes k₁ k₂ 0 (.step .resume .init trivial hk₁) hpast hk₂).mpr ⟨none, hwoken⟩
  exact absurd hone (by decide)

end AvrOs
