/-!
# Runs of systems

`Run` is a sequence of updates, every one of them allowed where it is made. `Reach` are
the states a system gets to by steps which may be impossible. What is kept by one step is
kept by all of them, and a simulation of one step is a simulation of a whole run.
-/

namespace Transition

variable {σ τ α β : Type}

/-- From one state to the other by updates, `ok` says where each of them may be made. -/
inductive Run (apply : σ → α → σ) (ok : σ → α → Prop) : σ → σ → Prop where
  | refl (s : σ) : Run apply ok s s
  | step {s s' : σ} (a : α) (h : ok s a) (rest : Run apply ok (apply s a) s') : Run apply ok s s'

namespace Run

variable {apply : σ → α → σ} {ok ok' : σ → α → Prop} {s s₁ s₂ : σ}

theorem single (a : α) (h : ok s a) : Run apply ok s (apply s a) := .step a h (.refl _)

theorem trans (h : Run apply ok s s₁) (h' : Run apply ok s₁ s₂) : Run apply ok s s₂ := by
  induction h with
  | refl => exact h'
  | step a ha _ ih => exact .step a ha (ih h')

theorem mono (hok : ∀ s a, ok s a → ok' s a) (h : Run apply ok s s₁) : Run apply ok' s s₁ := by
  induction h with
  | refl => exact .refl _
  | step a ha _ ih => exact .step a (hok _ a ha) ih

/-- What every update keeps, a run keeps. -/
theorem invariant {I : σ → Prop} (h : Run apply ok s s₁)
    (hI : ∀ s a, ok s a → I s → I (apply s a)) (hs : I s) : I s₁ := by
  induction h with
  | refl => exact hs
  | step a ha _ ih => exact ih (hI _ a ha hs)

end Run

/-- States the system gets to from `s₀`, `ok` says which steps are taken. -/
inductive Reach (step : σ → α → Option σ) (ok : σ → α → Prop) (s₀ : σ) : σ → Prop where
  | init : Reach step ok s₀ s₀
  | step {s s' : σ} (a : α) (h : Reach step ok s₀ s) (hok : ok s a) (hs : step s a = some s') :
      Reach step ok s₀ s'

/-- The state after these steps, `none` if one of them is impossible. -/
def steps (step : σ → α → Option σ) : σ → List α → Option σ
  | s, [] => some s
  | s, a :: as => (step s a).bind fun s' => steps step s' as

/-- The same steps, those which are not allowed left out. -/
def only (step : σ → α → Option σ) (allowed : σ → α → Bool) (s : σ) (a : α) : Option σ :=
  if allowed s a then step s a else none

namespace Reach

variable {step : σ → α → Option σ} {ok ok' : σ → α → Prop} {s₀ s s' : σ}

theorem invariant {I : σ → Prop} (h : Reach step ok s₀ s) (h₀ : I s₀)
    (hI : ∀ s a s', Reach step ok s₀ s → I s → ok s a → step s a = some s' → I s') : I s := by
  induction h with
  | init => exact h₀
  | step a hr ha hs ih => exact hI _ a _ hr ih ha hs

theorem steps_reach (as : List α) (hok : ∀ a ∈ as, ∀ s, ok s a) (h : Reach step ok s₀ s)
    (hs : steps step s as = some s') : Reach step ok s₀ s' := by
  induction as generalizing s with
  | nil =>
    injection hs with hs
    exact hs ▸ h
  | cons a as ih =>
    obtain ⟨s₁, h₁, h₂⟩ := Option.bind_eq_some_iff.mp hs
    exact ih (fun b hb => hok b (List.mem_cons_of_mem a hb))
      (.step a h (hok a List.mem_cons_self s) h₁) h₂

/-- States after allowed steps only. -/
theorem only_reach {allowed : σ → α → Bool} (hok : ∀ s a, allowed s a = true → ok s a) (as : List α)
    (h : Reach step ok s₀ s) (hs : steps (only step allowed) s as = some s') : Reach step ok s₀ s' := by
  induction as generalizing s with
  | nil =>
    injection hs with hs
    exact hs ▸ h
  | cons a as ih =>
    obtain ⟨s₁, h₁, h₂⟩ := Option.bind_eq_some_iff.mp hs
    unfold only at h₁
    split at h₁
    case isTrue ha => exact ih (.step a h (hok s a ha) h₁) h₂
    case isFalse => cases h₁

/-- A simulation: every step of the one is a step of the other with the same label. -/
theorem simulate {step' : τ → α → Option τ} {okτ : τ → α → Prop} {t₀ : τ} {R : σ → τ → Prop}
    (h : Reach step ok s₀ s) (h₀ : R s₀ t₀)
    (hR : ∀ s a s' t, Reach step' okτ t₀ t → R s t → ok s a → step s a = some s' →
      okτ t a ∧ ∃ t', step' t a = some t' ∧ R s' t') :
    ∃ t, Reach step' okτ t₀ t ∧ R s t := by
  induction h with
  | init => exact ⟨t₀, .init, h₀⟩
  | step a _ ha hs ih =>
    obtain ⟨t, ht, hst⟩ := ih
    obtain ⟨ho, t', ht', hst'⟩ := hR _ a _ t ht hst ha hs
    exact ⟨t', .step a ht ho ht', hst'⟩

end Reach

/-- States the system gets to from `s₀` with `n` steps which count among those it takes. -/
inductive Counted (step : σ → α → Option σ) (ok : σ → α → Prop) (counts : α → Bool) (s₀ : σ) :
    Nat → σ → Prop where
  | init : Counted step ok counts s₀ 0 s₀
  | step {n : Nat} {s s' : σ} (a : α) (h : Counted step ok counts s₀ n s) (hok : ok s a)
      (hs : step s a = some s') : Counted step ok counts s₀ (n + (counts a).toNat) s'

namespace Counted

variable {step : σ → α → Option σ} {ok : σ → α → Prop} {counts : α → Bool} {s₀ s s' : σ} {n : Nat}

theorem invariant {I : Nat → σ → Prop} (h : Counted step ok counts s₀ n s) (h₀ : I 0 s₀)
    (hI : ∀ n s a s', I n s → ok s a → step s a = some s' → I (n + (counts a).toNat) s') : I n s := by
  induction h with
  | init => exact h₀
  | step a _ ha hs ih => exact hI _ _ a _ ih ha hs

/-- A simulation takes as many steps which count. -/
theorem simulate {step' : τ → α → Option τ} {okτ : τ → α → Prop} {t₀ : τ} {R : σ → τ → Prop}
    (h : Counted step ok counts s₀ n s) (h₀ : R s₀ t₀)
    (hR : ∀ s a s' t, R s t → ok s a → step s a = some s' → okτ t a ∧ ∃ t', step' t a = some t' ∧ R s' t') :
    ∃ t, Counted step' okτ counts t₀ n t ∧ R s t := by
  induction h with
  | init => exact ⟨t₀, .init, h₀⟩
  | step a _ ha hs ih =>
    obtain ⟨t, ht, hst⟩ := ih
    obtain ⟨ho, t', ht', hst'⟩ := hR _ a _ t hst ha hs
    exact ⟨t', .step a ht ho ht', hst'⟩

theorem only_counted {allowed : σ → α → Bool} (hok : ∀ s a, allowed s a = true → ok s a) (as : List α)
    (h : Counted step ok counts s₀ n s) (hs : steps (only step allowed) s as = some s') :
    Counted step ok counts s₀ (n + as.countP counts) s' := by
  induction as generalizing n s with
  | nil =>
    injection hs with hs
    exact hs ▸ h
  | cons a as ih =>
    obtain ⟨s₁, h₁, h₂⟩ := Option.bind_eq_some_iff.mp hs
    unfold only at h₁
    split at h₁
    case isTrue ha =>
      have hnext := ih (.step a h (hok s a ha) h₁) h₂
      have hn : n + (counts a).toNat + as.countP counts = n + (a :: as).countP counts := by
        have hone : (if counts a = true then 1 else 0) = (counts a).toNat := by cases counts a <;> rfl
        rw [List.countP_cons, hone]
        omega
      exact hn ▸ hnext
    case isFalse => cases h₁

end Counted

end Transition
