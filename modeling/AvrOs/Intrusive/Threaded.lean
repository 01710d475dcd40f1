import Mathlib.Data.List.Nodup

/-!
# Lists threaded through raw memory

The cells of such a list are nothing but addresses, `next` tells what is stored in a cell
and zero is the end. Nothing but the stored addresses holds the list together: it is the
same list for as long as its cells hold what they did.
-/

namespace Intrusive

/-- The list found when the addresses are followed from `p`. -/
inductive Threaded (next : ℕ → ℕ) : ℕ → List ℕ → Prop where
  | nil : Threaded next 0 []
  | cons {p : ℕ} {ps : List ℕ} (h : p ≠ 0) (rest : Threaded next (next p) ps) :
      Threaded next p (p :: ps)

namespace Threaded

variable {next next' : ℕ → ℕ} {p q : ℕ} {ps qs : List ℕ}

theorem of_zero (h : Threaded next 0 ps) : ps = [] := by
  cases h with
  | nil => rfl
  | cons h => exact absurd rfl h

theorem of_ne_zero (h : Threaded next p ps) (hp : p ≠ 0) :
    ∃ qs, ps = p :: qs ∧ Threaded next (next p) qs := by
  cases h with
  | nil => exact absurd rfl hp
  | cons _ rest => exact ⟨_, rfl, rest⟩

theorem congr (h : Threaded next p ps) (hn : ∀ q ∈ ps, next' q = next q) : Threaded next' p ps := by
  induction h with
  | nil => exact .nil
  | @cons p ps hp _ ih =>
    have hnext : next' p = next p := hn p List.mem_cons_self
    refine .cons hp ?_
    rw [hnext]
    exact ih fun q hq => hn q (List.mem_cons_of_mem p hq)

theorem unique (h : Threaded next p ps) (h' : Threaded next p qs) : ps = qs := by
  induction h generalizing qs with
  | nil => exact h'.of_zero.symm
  | cons hp _ ih =>
    obtain ⟨rs, rfl, hr⟩ := h'.of_ne_zero hp
    rw [ih hr]

/-- The list goes on from any of its cells. -/
theorem suffix (h : Threaded next p ps) (hq : q ∈ ps) :
    ∃ as bs, ps = as ++ bs ∧ Threaded next q bs := by
  induction h with
  | nil => cases hq
  | @cons p ps hp rest ih =>
    rcases List.mem_cons.mp hq with rfl | hq
    · exact ⟨[], q :: ps, rfl, .cons hp rest⟩
    · obtain ⟨as, bs, rfl, hb⟩ := ih hq
      exact ⟨p :: as, bs, rfl, hb⟩

/-- A list which comes to an end does not meet a cell twice. -/
theorem nodup (h : Threaded next p ps) : ps.Nodup := by
  induction h with
  | nil => exact List.nodup_nil
  | @cons p ps hp rest ih =>
    refine List.nodup_cons.mpr ⟨fun hm => ?_, ih⟩
    obtain ⟨as, bs, rfl, hb⟩ := rest.suffix hm
    -- from `p` the same list would be found again further behind
    have hlen : (p :: (as ++ bs)).length = bs.length := by rw [(Threaded.cons hp rest).unique hb]
    simp only [List.length_cons, List.length_append] at hlen
    omega

end Threaded

end Intrusive
