import AvrOs.Refinement
import AvrOs.Switching

/-!
# The most important task runs

Whenever a task runs, and not a handler, nobody is ready who is more important. A task which waits
for a mutex of its own can undo that, as nobody looks for a better one once it has given up.
-/

namespace AvrOs
open Intrusive Transition Kernel

variable {c : Config}

section
variable {k k' : ListKernel c} {a : Action c}

/-- Only `osRun` starts the system. -/
theorem starts_by_run (h : Rest k) (hs : k.step a = some k') (h₀ : k.started = false)
    (h₁ : k'.started = true) : a = .run := by
  by_contra ha
  have hm := (step_moves h.sound h.running h.noDead hs).1
  have hkeep := (hm.invariant (I := fun s => Sound s ∧ s.started = false) (fun s mv hg hi => ?_)
    ⟨h.sound, h₀⟩).2
  · rw [h₁] at hkeep
    cases hkeep
  · refine ⟨mv.sound hi.1 hg.1, ?_⟩
    refine (mv.run hi.1 hg.1).keeps (I := fun s => s.started = false) hi.1 (fun s x hs hx hu hst => ?_) hi.2
    rw [x.same_started hs hx]
    · exact hst
    · rintro rfl
      have hone : mv = .one .start := Move.uses_alone hu trivial
      subst hone
      exact ha hg.2.1

theorem osTickLeave_mode (h : Sound k) : k.osTickLeave.mode = k.mode := by
  have hage : k.osAge.mode = k.mode := by
    cases ha : c.aging with
    | false => rw [osAge_off ha]
    | true =>
      obtain ⟨p, hp⟩ := settle_eq k k.currentTask
      rw [osAge_eq h ha, hp]
      split <;> rfl
  exact (schedule_world k.osAge _).1.mode.trans hage

/-- Nobody is in a handler which does not schedule unless it has been entered. -/
theorem step_isr (h : Rest k) (hs : k.step a = some k') (ha : a ≠ .isrEnter false)
    (hk : k.mode ≠ .isr false) : k'.mode ≠ .isr false := by
  by_cases hsw : a.Switches
  · cases a with
    | isrEnter os =>
      simp only [step] at hs
      split at hs
      · injection hs with hs
        rw [← hs]
        exact fun he => ha (by injection he with he; rw [he])
      · cases hs
    | isrLeave =>
      simp only [step] at hs
      split at hs
      · injection hs with hs
        rw [← hs, (schedule_world _ _).1.mode]
        simp
      case h_2 hm => exact absurd hm hk
      · cases hs
    | tickEnter =>
      simp only [step] at hs
      split at hs
      · injection hs with hs
        rw [← hs]
        simp
      · cases hs
    | tickTimer =>
      simp only [step] at hs
      split at hs
      · split at hs
        · injection hs with hs
          rw [← hs]
          simp
        · cases hs
      · cases hs
    | tickLeave =>
      simp only [step] at hs
      split at hs
      · split at hs
        · injection hs with hs
          have hsound : Sound { k with mode := .thread } := h.sound.congr rfl rfl rfl rfl rfl rfl
          rw [← hs, osTickLeave_mode hsound]
          simp
        · cases hs
      · cases hs
    | _ => exact absurd hsw id
  · rw [Moves.mode (step_moves h.sound h.running h.noDead hs).1 h.sound hsw]
    exact hk

/-- What holds between two actions: handlers schedule, and the right task runs when they are over. -/
structure Leading (k : ListKernel c) : Prop where
  os : k.mode ≠ .isr false
  top : k.mode = .thread → Top k

theorem Leading.step (h : Leading k) (hr : Rest k) (ha : a ≠ .isrEnter false)
    (hf : ¬ k.FallsBehind a) (hs : k.step a = some k') : Leading k' where
  os := step_isr hr hs ha h.os
  top hm := step_top hr hf h.os h.top hs hm

/-- Whatever has been before, `osRun` makes the right task run. -/
theorem leading_of_run (hr : Rest k) (hs : k.step .run = some k') : Leading k' := by
  have hmode : k.mode = .thread := by
    simp only [Kernel.step] at hs
    split at hs
    case isTrue hc => exact hc.1.1
    case isFalse => cases hs
  have hisr : k.mode ≠ .isr false := by
    rw [hmode]
    simp
  refine ⟨step_isr hr hs (by simp) hisr, fun hm => ?_⟩
  simp only [Kernel.step] at hs
  split at hs
  case isTrue hc =>
    injection hs with hs
    exact hs ▸ osRun_top hr.sound hr.running hc.2.1
  case isFalse => cases hs

end

/-- Every handler is an `OS_ISR`, and nobody falls behind by a wait for its own mutex. -/
def Orderly {S : Type → Type → Type} [LinkStore S] (k : Kernel c S) (a : Action c) : Prop :=
  k.started = true → a ≠ .isrEnter false ∧ ¬ k.FallsBehind a

theorem Sim.orderly {k : Kernel c Links} {l : ListKernel c} (h : Sim k l) {a : Action c}
    (ho : Orderly k a) : Orderly l a := by
  unfold Orderly FallsBehind at ho ⊢
  simp only [toList_lists]
  simp only [h.priority] at ho
  rwa [h.started, h.owner, h.current, h.tasks, h.frames, h.links_list, h.inherited] at ho

theorem leading_of_orderly {l : ListKernel c} (h : ReachableBy Orderly l) (hst : l.started = true) :
    Leading l := by
  refine (h.invariant (I := fun l => l.started = true → Leading l) (fun he => (by cases he))
    fun k a k' hr hi hok hs hst => ?_) hst
  have hrest := rest_of_reachable hr
  cases hk : k.started with
  | false =>
    obtain rfl := starts_by_run hrest hs hk hst
    exact leading_of_run hrest hs
  | true =>
    obtain ⟨ha, hf⟩ := hok hk
    exact (hi hk).step hrest ha hf hs

/-- Nobody is ready who is more important than the task which runs. -/
def Foremost (k : Kernel c Links) : Prop := ∀ t ∈ k.list .ready, k.priority t ≤ k.priority k.currentTask

/-- The most important task runs, unless it falls behind by a wait for its own mutex. -/
theorem reachable_foremost (k : Kernel c Links) (h : ReachableBy Orderly k) (hst : k.started = true)
    (hm : k.mode = .thread) : Foremost k := by
  have hsim : ∃ l : ListKernel c, ReachableBy Orderly l ∧ Sim k l :=
    reachable_sim (fun _ _ _ hs ho => hs.orderly ho) h
  obtain ⟨l, hl, hs⟩ := hsim
  intro t ht
  rw [hs.list] at ht
  rw [hs.priority, hs.priority, hs.current]
  exact (leading_of_orderly hl (hs.started ▸ hst)).top (hs.mode ▸ hm) t ht

/-- A task waits for its own mutex, another one which has come later gives up in the same tick. -/
def waitsForItself : List (Action (Config.ageless 3)) :=
  [Action.call (.osTaskCreate 1 2 false), .resume, .run, .call (.osMutexLock 0), .resume,
    .call (.osMutexTryLock 0 3), .resume, .call (.osTaskCreate 2 5 false),
    .call (.osMutexTryLock 0 3), .resume] ++
  (List.replicate 3 [Action.tickEnter, .tickLeave, .resume]).flatten ++ [Action.resume]

/-- It goes on with less than the other one has. -/
theorem not_foremost : ¬ ∀ k : Kernel (Config.ageless 3) Links,
    ReachableBy (fun k a => k.started = true → a ≠ .isrEnter false) k → k.started = true →
      k.mode = .thread → Foremost k := by
  intro h
  have hrun : (steps step (osInit (Config.ageless 3) Links) waitsForItself).map (fun k =>
      decide (k.started = true ∧ k.mode = .thread ∧ k.currentTask = 1 ∧ k.priority 1 = 2 ∧
        2 ∈ k.list .ready ∧ k.priority 2 = 5)) = some true := by decide +kernel
  obtain ⟨k, hk, hc⟩ := Option.map_eq_some_iff.mp hrun
  obtain ⟨hst, hm, hcur, hp, hready, hp₂⟩ := of_decide_eq_true hc
  have hreach : ReachableBy (fun k a => k.started = true → a ≠ .isrEnter false) k := Reach.steps_reach
    waitsForItself (fun a ha s _ he => by subst he; simp [waitsForItself] at ha) .init hk
  have hle := h k hreach hst hm 2 hready
  rw [hcur, hp, hp₂] at hle
  exact absurd hle (by decide)

/-- The idle task does not call the kernel, and nobody gives up who owns a mutex. -/
def keepsAhead (k : Kernel c Links) (a : Action c) : Bool :=
  match a, k.frames k.currentTask with
  | .isrEnter os, _ => os
  | .call _, _ => k.currentTask ≠ osIdleTask
  | .resume, some (.blocked _) => (k.tasks k.currentTask).result ∨ ∀ m, k.owner m ≠ some k.currentTask
  | _, _ => true

theorem keepsAhead_orderly {k : Kernel c Links} {a : Action c} (h : keepsAhead k a = true) :
    a ≠ .isrEnter false ∧ ¬ k.FallsBehind a := by
  constructor
  · rintro rfl
    exact Bool.false_ne_true h
  · rintro ⟨-, ⟨m, ho, ⟨hmay, hi⟩ | ⟨rfl, hr, call, hf, -⟩⟩, -⟩
    · cases a with
      | call x => exact of_decide_eq_true h hi
      | _ => cases hmay
    · unfold keepsAhead at h
      rw [hf] at h
      rcases of_decide_eq_true h with ht | hm
      · rw [hr] at ht
        cases ht
      · exact hm m ho

/-- A task gives up on the mutex of a less important one, and gets it once it waits for longer. -/
def waitsAgain : List (Action (Config.default 2)) :=
  [.call (.osTaskCreate 1 3 false), .resume, .run, .call (.osMutexLock 0), .resume,
    .call (.osTaskCreate 2 5 false), .call (.osMutexTryLock 0 1), .resume, .tickEnter, .tickLeave, .resume,
    .resume, .call (.osMutexLock 0), .resume, .call (.osMutexUnlock 0), .resume]

theorem reachable_foremost_taken : ∃ k, steps (only step fun k a => !k.started || keepsAhead k a)
    (osInit (Config.default 2) Links) waitsAgain = some k ∧ k.owner 0 = some 2 ∧ 1 ∈ k.list .ready ∧
      Foremost k := by
  have hrun : (steps (only step fun k a => !k.started || keepsAhead k a) (osInit (Config.default 2) Links)
      waitsAgain).map (fun k => decide (k.started = true ∧ k.mode = .thread ∧ k.owner 0 = some 2 ∧
        1 ∈ k.list .ready)) = some true := by decide +kernel
  obtain ⟨k, hk, hc⟩ := Option.map_eq_some_iff.mp hrun
  obtain ⟨hst, hm, ho, hready⟩ := of_decide_eq_true hc
  refine ⟨k, hk, ho, hready, reachable_foremost k (Reach.only_reach (fun k a ha hst => ?_) _ .init hk) hst hm⟩
  rw [hst] at ha
  exact keepsAhead_orderly ha

end AvrOs
