import Mathlib.Data.List.Range
import Mathlib.Tactic.Ring

/-!
# Alarms

An alarm counts ticks down, rings when there are none left, and starts all over again if it
has a period. When it rings depends on nothing but its plan, however ticks and rings of it
are mixed with other things.
-/

namespace Circular

/-- Ticks left and the period, which is zero if the alarm rings once. -/
abbrev Plan := Option (ℕ × ℕ)

inductive Beat where
  | tick
  | ring
  deriving DecidableEq

namespace Plan

/-- The alarm has to ring now. -/
def due : Plan → Bool
  | some (0, _) => true
  | _ => false

/-- What an alarm which has rung does next. -/
def again (p : ℕ) : Plan := if p = 0 then none else some (p, p)

/-- From one plan to another by these beats. -/
inductive Runs : Plan → List Beat → Plan → Prop where
  | stop (P : Plan) : Runs P [] P
  | off {bs : List Beat} {P' : Plan} (h : Runs none bs P') : Runs none (.tick :: bs) P'
  | tick {n p : ℕ} {bs : List Beat} {P' : Plan} (h : Runs (some (n, p)) bs P') :
      Runs (some (n + 1, p)) (.tick :: bs) P'
  | ring {p : ℕ} {bs : List Beat} {P' : Plan} (h : Runs (again p) bs P') :
      Runs (some (0, p)) (.ring :: bs) P'

end Plan

namespace Plan.Runs

variable {P P' P'' : Plan} {bs bs' : List Beat}

theorem append (h : Runs P bs P') (h' : Runs P' bs' P'') : Runs P (bs ++ bs') P'' := by
  induction h with
  | stop => exact h'
  | off _ ih => exact .off (ih h')
  | tick _ ih => exact .tick (ih h')
  | ring _ ih => exact .ring (ih h')

/-- An alarm which is due has counted down all it had. -/
theorem counted (h : Runs P bs P') {n p p' : ℕ} (hP : P = some (n, p)) (hd : P' = some (0, p')) :
    n ≤ bs.count .tick := by
  induction h generalizing n p with
  | stop =>
    subst hd
    injection hP with hP
    injection hP with hP
    omega
  | off _ _ => cases hP
  | tick _ ih =>
    injection hP with hP
    injection hP with hn hp
    have := ih (by rw [hp]) hd
    rw [List.count_cons_self]
    omega
  | ring _ _ =>
    injection hP with hP
    injection hP with hP
    omega

end Plan.Runs

end Circular
