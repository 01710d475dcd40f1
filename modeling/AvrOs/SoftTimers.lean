import AvrOs.Circular.Alarm
import AvrOs.Circular.Deadlines
import AvrOs.Refinement
import AvrOs.World

/-!
# Software timers

A timer is an alarm: it counts ticks down and calls its function when there are none left,
whatever else goes on and whatever the functions of timers do to other timers. The list of
running timers is in order of the ticks left, so `osTimerTick` looks at its front only.
-/

namespace AvrOs
open Intrusive Circular Transition Kernel

variable {c : Config} {k k' : ListKernel c}

/-! ### What steps do to timers -/

/-- The clock and the timers stay as they are, and so does the mode. -/
structure SameTimers (k k' : ListKernel c) : Prop where
  mode : k'.mode = k.mode
  ticks : k'.ticks = k.ticks
  timers : k'.timers = k.timers
  links : k'.timersLinks = k.timersLinks

theorem SameTimers.same (k : ListKernel c) : SameTimers k k := ⟨rfl, rfl, rfl, rfl⟩

theorem SameTimers.trans {k₁ k₂ : ListKernel c} (h : SameTimers k k₁) (h' : SameTimers k₁ k₂) :
    SameTimers k k₂ :=
  ⟨h'.mode.trans h.mode, h'.ticks.trans h.ticks, h'.timers.trans h.timers, h'.links.trans h.links⟩

/-- Entries which tell neither of the clock nor of timers. -/
def Silent (e : Event c) : Prop := e ≠ .ticked ∧ ∀ tm, e ≠ .timerCalled tm

/-- Steps which are about the clock or about timers. -/
def Atom.OnTimers : Atom c → Prop
  | .quiet .. | .timerCalled _ | .tick => True
  | _ => False

theorem Atom.same_timers (a : Atom c) (h : Sound k) (hg : a.guard k) (ha : ¬ a.OnTimers) :
    SameTimers k (a.apply k) := by
  have hk := a.kept h hg
  have hq : ¬ a.IsQuiet := fun hq => ha (by cases a <;> trivial)
  have ht : a ≠ .tick := fun ht => ha (ht ▸ trivial)
  exact ⟨hk.mode hq, hk.ticks ht, hk.timers hq, hk.timersLinks hq⟩

theorem Atom.silent (a : Atom c) (ha : ¬ a.OnTimers) (e : Event c) (he : a.Writes e) : Silent e := by
  cases a with
  | quiet | timerCalled | tick => exact absurd trivial ha
  | called x =>
    obtain ⟨t, mine, rfl⟩ := he
    exact ⟨by simp, by simp⟩
  | leave =>
    obtain ⟨t, call, v, rfl⟩ := he
    exact ⟨by simp, by simp⟩
  | sleep call list timeout =>
    obtain ⟨t, rfl⟩ := he
    exact ⟨by simp, by simp⟩
  | expire t =>
    obtain ⟨w, rfl⟩ := he
    exact ⟨by simp, by simp⟩
  | release t m =>
    obtain ⟨u, rfl⟩ := he
    exact ⟨by simp, by simp⟩
  | give s => rcases he with rfl | rfl | ⟨t, rfl⟩ <;> exact ⟨by simp, by simp⟩
  | send q item | receive q item =>
    rcases he with ⟨msg, rfl⟩ | ⟨msg, rfl⟩ | ⟨n, rfl⟩ | ⟨t, rfl⟩ <;> exact ⟨by simp, by simp⟩
  | consume e wanted options =>
    obtain ⟨t, f, o, rfl⟩ := he
    exact ⟨by simp, by simp⟩
  | serve e t => rcases he with rfl | ⟨f, o, rfl⟩ | rfl <;> exact ⟨by simp, by simp⟩
  | requeue | kill | park | unpark | create | take | semaphoreInit | queueInit | flagsSet
  | eventInit =>
    rw [show _ = _ from he]
    exact ⟨by simp, by simp⟩
  | _ => exact absurd he id

/-- The clock and the timers are where they were, and the log tells nothing of them. -/
def Still (k k' : ListKernel c) : Prop := SameTimers k k' ∧ Grows Silent k k'

theorem Still.same (k : ListKernel c) : Still k k := ⟨.same k, .same rfl⟩

theorem Still.trans {k₁ k₂ : ListKernel c} (h : Still k k₁) (h' : Still k₁ k₂) : Still k k₂ :=
  ⟨h.1.trans h'.1, h.2.trans h'.2⟩

theorem Atom.still (a : Atom c) (h : Sound k) (hg : a.guard k) (ha : ¬ a.OnTimers) :
    Still k (a.apply k) := by
  obtain ⟨es, he, hw⟩ := a.grows h hg
  exact ⟨a.same_timers h hg ha, es, he, fun e hm => a.silent ha e (hw e hm)⟩

theorem Atoms.still {P : Atom c → Prop} (h : Atoms P k k') (hs : Sound k)
    (hP : ∀ a, P a → ¬ a.OnTimers) : Still k k' :=
  h.keeps (I := fun s => Still k s) hs
    (fun _ a hs hg ha hi => hi.trans (a.still hs hg (hP a ha))) (.same k)

theorem Still.setMode (h : Still k k') (mode : Mode) :
    Still { k with mode := mode } { k' with mode := mode } :=
  ⟨⟨rfl, h.1.ticks, h.1.timers, h.1.links⟩, h.2⟩

/-- When the timer is due. -/
def whenOf (k : ListKernel c) (tm : Place c) : OsTick c := (k.timers tm).when

/-- What a timer is up to. -/
def plan (k : ListKernel c) (tm : Place c) : Plan :=
  if tm ∈ k.timersLinks () then
    some (left k.ticks (whenOf k tm), (k.timers tm).period.toNat)
  else none

/-- What an entry of the log means to the timer. -/
def beat (tm : Place c) : Event c → Option Beat
  | .ticked => some .tick
  | .timerCalled u => if u = tm then some .ring else none
  | _ => none

/-- Beats of the timer, the log has the latest of them in front. -/
def beats (tm : Place c) (es : List (Event c)) : List Beat := (es.filterMap (beat tm)).reverse

theorem beats_append (tm : Place c) (es es' : List (Event c)) :
    beats tm (es' ++ es) = beats tm es ++ beats tm es' := by
  simp [beats]

theorem SameTimers.plan (h : SameTimers k k') (tm : Place c) : plan k' tm = plan k tm := by
  unfold AvrOs.plan whenOf
  rw [h.ticks, h.timers, h.links]

/-- The timer goes on by the beats in the log. -/
def Plays (tm : Place c) (k k' : ListKernel c) : Prop :=
  ∃ es, k'.log = es ++ k.log ∧ (plan k tm).Runs (beats tm es) (plan k' tm)

theorem Plays.trans {tm : Place c} {k₁ k₂ : ListKernel c} (h : Plays tm k k₁)
    (h' : Plays tm k₁ k₂) : Plays tm k k₂ := by
  obtain ⟨es, he, hr⟩ := h
  obtain ⟨es', he', hr'⟩ := h'
  exact ⟨es' ++ es, by rw [he', he, List.append_assoc], beats_append tm es es' ▸ hr.append hr'⟩

/-- Nobody is on the list twice, and who comes first is due first. -/
structure Sorted (k : ListKernel c) : Prop where
  nodup : (k.timersLinks ()).Nodup
  order : InTime k.ticks (whenOf k) (k.timersLinks ())

theorem SameTimers.whenOf (h : SameTimers k k') : AvrOs.whenOf k' = AvrOs.whenOf k := by
  funext tm
  rw [AvrOs.whenOf, h.timers]
  rfl

/-- Whoever is put in comes behind those who are due earlier or at the same time. -/
theorem insert_list (k : ListKernel c) (tm : Place c) (delay : OsTick c) :
    (k.osTimerInsert tm k.ticks delay).timersLinks () =
      (k.timersLinks ()).takeWhile (fun it => whenOf k it - k.ticks ≤ delay) ++
        tm :: (k.timersLinks ()).dropWhile (fun it => whenOf k it - k.ticks ≤ delay) :=
  Lists.insert_self k.timersLinks () tm fun it => whenOf k it - k.ticks ≤ delay

section
variable (h : Sorted k) (tm u : Place c)
include h

theorem Sorted.remove : Sorted (k.osTimerRemove tm) where
  nodup := h.nodup.sublist (List.erase_sublist ..)
  order := h.order.sublist (List.erase_sublist ..)

theorem Sorted.mem_remove : u ∈ (k.osTimerRemove tm).timersLinks () ↔
    u ≠ tm ∧ u ∈ k.timersLinks () := h.nodup.mem_erase_iff

theorem Sorted.insert (hx : tm ∉ k.timersLinks ()) (delay : OsTick c) :
    Sorted (k.osTimerInsert tm k.ticks delay) := by
  have hwhen : whenOf (k.osTimerInsert tm k.ticks delay) =
      Function.update (whenOf k) tm (k.ticks + delay) := by
    funext u
    by_cases hu : u = tm
    · subst hu
      simp [whenOf, osTimerInsert, setTimer]
    · simp [whenOf, osTimerInsert, setTimer, hu]
  refine ⟨?_, ?_⟩
  · rw [insert_list]
    exact Lists.nodup_splice _ _ _ hx h.nodup
  · rw [hwhen, insert_list]
    exact h.order.insert tm delay hx

/-- The deadline stays, whatever becomes of the period and the function. -/
theorem Sorted.setTimer (period : OsTick c) (function : ℕ) :
    Sorted (k.setTimer tm { k.timers tm with period := period, function := function }) := by
  have hwhen : whenOf (k.setTimer tm { k.timers tm with period := period, function := function }) =
      whenOf k := by
    funext u
    by_cases hu : u = tm
    · subst hu
      simp [whenOf, Kernel.setTimer]
    · simp [whenOf, Kernel.setTimer, hu]
  exact ⟨h.nodup, by rw [hwhen]; exact h.order⟩

end

/-- The timer has to be called now. -/
theorem due_iff (k : ListKernel c) (tm : Place c) :
    (plan k tm).due = true ↔ tm ∈ k.timersLinks () ∧ whenOf k tm = k.ticks := by
  unfold plan
  by_cases hm : tm ∈ k.timersLinks ()
  · rw [if_pos hm, ← left_eq_zero]
    cases left k.ticks (whenOf k tm) with
    | zero => simp [Plan.due, hm]
    | succ n => simp [Plan.due]
  · simp [hm, Plan.due]

/-- Between two actions timers are ahead, but in the tick handler. -/
structure Armed (k : ListKernel c) : Prop extends Sorted k where
  ahead : (∀ callback, k.mode ≠ .tick callback) → ∀ tm, (plan k tm).due = false
  off : c.timers = false → k.timersLinks () = []

/-- Nobody is due once the front is not. -/
theorem Armed.over (h : Armed k) (hd : c.timers = false ∨ k.osTimerDue = none) (tm : Place c) :
    (plan k tm).due = false := by
  rw [← Bool.not_eq_true, due_iff]
  rintro ⟨hm, hw⟩
  rcases hd with hc | hd
  · rw [h.off hc] at hm
    cases hm
  · refine h.order.ahead (fun u hh hu => ?_) tm hm hw
    unfold osTimerDue at hd
    rw [head_lists, hh] at hd
    dsimp only at hd
    rw [if_pos (show (k.timers u).when = k.ticks from hu)] at hd
    cases hd

/-! ### Every step -/

/-- The tick handler counts a tick before it gets to the timers. -/
theorem step_tickEnter (h : Rest k) (hs : k.step .tickEnter = some k') :
    (∀ callback, k.mode ≠ .tick callback) ∧ k'.mode = .tick false ∧ k'.ticks = k.ticks + 1 ∧
      k'.timers = k.timers ∧ k'.timersLinks = k.timersLinks ∧
        ∃ es, k'.log = es ++ Event.ticked :: k.log ∧ ∀ e ∈ es, Silent e := by
  simp only [step] at hs
  split at hs
  case isTrue hc =>
    injection hs with hs
    subst hs
    have hpre := setFrame_sound h.sound k.currentTask (some .preempted)
    have hst := (Atom.tick).sound hpre trivial
    have hx : Atoms (fun a => ∃ t, a = .expire t)
        ((Atom.tick).apply (k.setFrame k.currentTask (some .preempted)))
        (k.setFrame k.currentTask (some .preempted)).osTickEnter :=
      expire_atoms _ hst
    obtain ⟨hsame, es, he, hq⟩ := hx.still hst fun a ha => by
      obtain ⟨t, rfl⟩ := ha
      exact id
    refine ⟨fun callback hm => ?_, rfl, hsame.ticks, hsame.timers, hsame.links, es, he, hq⟩
    rw [hc.1.1] at hm
    cases hm
  case isFalse => cases hs

/-- Timers which are due. -/
def pending (k : ListKernel c) : Finset (Place c) :=
  Finset.univ.filter fun tm => (plan k tm).due = true

section
variable {kl kl' : Kernel c Links} {l : ListKernel c}

end

end AvrOs
