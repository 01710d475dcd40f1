import AvrOs.Donation.Chains

/-!
# How far a raise gets

Without any assumption on priorities a raise gets as far as the first one who needs no raise,
and it comes to an end on a circle as well.
-/

namespace Donation
open Function Relation

variable {α : Type} {next : α → Option α} {p : α → ℕ} {a b : α} {q : ℕ}

/-- From `a` to `b` along the chain everybody is below `q`, both of them included. -/
def Climbs (next : α → Option α) (p : α → ℕ) (q : ℕ) (a b : α) : Prop :=
  p a < q ∧ ReflTransGen (fun c d => next c = some d ∧ p d < q) a b

theorem Climbs.below (h : Climbs next p q a b) : p b < q := by
  obtain ⟨ha, hr⟩ := h
  cases hr with
  | refl => exact ha
  | tail _ hd => exact hd.2

variable [DecidableEq α]

/-- Whoever is reached is reached without coming back to the start, which is raised by then. -/
theorem Climbs.of_next (hn : next a = some b) {d : α} (h : Climbs next p q a d) (hd : d ≠ a) :
    Climbs next (update p a q) q b d := by
  obtain ⟨-, hr⟩ := h
  induction hr with
  | refl => exact absurd rfl hd
  | @tail u v _ hv ih =>
    obtain ⟨hv, hlt⟩ := hv
    have hlt' : update p a q v < q := by rwa [update_of_ne hd]
    by_cases hu : u = a
    · subst hu
      rw [hn] at hv
      injection hv with hv
      subst hv
      exact ⟨hlt', .refl⟩
    · obtain ⟨hb, hr⟩ := ih hu
      exact ⟨hb, hr.tail ⟨hv, hlt'⟩⟩

theorem Climbs.to_next (ha : p a < q) (hn : next a = some b) {d : α}
    (h : Climbs next (update p a q) q b d) : Climbs next p q a d := by
  have hbelow : ∀ u, update p a q u < q → p u < q := fun u hu => lt_of_le_of_lt (le_update ha u) hu
  obtain ⟨hb, hr⟩ := h
  refine ⟨ha, .head ⟨hn, hbelow b hb⟩ ?_⟩
  exact hr.lift id fun u v huv => ⟨huv.1, hbelow v huv.2⟩

variable [Fintype α]

/-- The induction is on the number of those who are below `q`. -/
theorem raise_climbs (fuel : ℕ) (p : α → ℕ) (a : α)
    (hf : (Finset.univ.filter fun c => p c < q).card ≤ fuel) (d : α) :
    (Climbs next p q a d → raise next fuel p a q d = q) ∧
      (¬ Climbs next p q a d → raise next fuel p a q d = p d) := by
  induction fuel generalizing p a with
  | zero => exact ⟨fun h => absurd h.1 (not_lt.mpr (none_below hf a)), fun _ => rfl⟩
  | succ fuel ih =>
    unfold raise
    by_cases hq : p a < q
    · rw [if_pos hq]
      cases hn : next a with
      | none =>
        dsimp only
        by_cases hd : d = a
        · rw [hd, update_self]
          exact ⟨fun _ => rfl, fun h => absurd ⟨hq, .refl⟩ h⟩
        · refine ⟨fun h => ?_, fun _ => update_of_ne hd ..⟩
          rcases h.2.cases_head with he | ⟨v, hv, -⟩
          · exact absurd he.symm hd
          · rw [hn] at hv
            cases hv.1
      | some b =>
        dsimp only
        obtain ⟨hon, hoff⟩ := ih (update p a q) b (below_update hq hf)
        by_cases hd : d = a
        · -- the start has its priority by now, it is not raised again
          subst hd
          have hself : update p d q d = q := update_self ..
          have hnot : ¬ Climbs next (update p d q) q b d := fun h => by
            have hlt := h.below
            omega
          exact ⟨fun _ => (hoff hnot).trans hself, fun h => absurd ⟨hq, .refl⟩ h⟩
        · refine ⟨fun h => hon (h.of_next hn hd), fun h => ?_⟩
          rw [hoff fun h' => h (h'.to_next hq hn), update_of_ne hd]
    · rw [if_neg hq]
      exact ⟨fun h => absurd h.1 hq, fun _ => rfl⟩

end Donation
