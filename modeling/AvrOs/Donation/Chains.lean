import Mathlib.Data.Fintype.Card
import Mathlib.Data.Finset.Lattice.Fold
import Mathlib.Logic.Relation
import Mathlib.Order.Lattice.Nat
import Mathlib.Order.WellFounded
import Mathlib.Order.Bounds.Basic
import Mathlib.Data.Fintype.EquivFin

/-!
# Priorities passed on along chains of waiters

Everybody waits for at most one other one (`next`), so those who wait form chains which may
end in a cycle. Whoever is waited for is to have a priority which is not below the one of
those who wait, directly or further up a chain.
-/

namespace Donation
open Function Relation

variable {α : Type} [Fintype α] [DecidableEq α]

/-- What `a` is to have: its own priority or the one of somebody who waits for it. -/
def inherited (next : α → Option α) (base p : α → ℕ) (a : α) : ℕ :=
  max (base a) ((Finset.univ.filter fun b => next b = some a).sup p)

section
variable {next next' : α → Option α} {base base' p p' : α → ℕ} {a b : α} {n : ℕ}

theorem inherited_le_iff :
    inherited next base p a ≤ n ↔ base a ≤ n ∧ ∀ b, next b = some a → p b ≤ n := by
  simp [inherited, Finset.sup_le_iff]

theorem base_le (next : α → Option α) (base p : α → ℕ) (a : α) : base a ≤ inherited next base p a :=
  le_max_left ..

theorem waiter_le (base p : α → ℕ) (h : next b = some a) : p b ≤ inherited next base p a :=
  (inherited_le_iff.mp (le_refl (inherited next base p a))).2 b h

/-- Fewer waiters with lower priorities pass less on. -/
theorem inherited_mono (hb : base' a ≤ base a)
    (hn : ∀ b, next' b = some a → next b = some a ∧ p' b ≤ p b) :
    inherited next' base' p' a ≤ inherited next base p a := by
  refine inherited_le_iff.mpr ⟨hb.trans (base_le next base p a), fun b h => ?_⟩
  obtain ⟨hw, hp⟩ := hn b h
  exact hp.trans (waiter_le base p hw)

theorem inherited_congr (hb : base' a = base a) (hn : ∀ b, next' b = some a ↔ next b = some a)
    (hp : ∀ b, next b = some a → p' b = p b) :
    inherited next' base' p' a = inherited next base p a := by
  apply le_antisymm
  · exact inherited_mono hb.le fun b h => ⟨(hn b).mp h, (hp b ((hn b).mp h)).le⟩
  · exact inherited_mono hb.ge fun b h => ⟨(hn b).mpr h, (hp b h).ge⟩

/-- What somebody has who waits for nobody is nothing to the others. -/
theorem inherited_unlent (base p : α → ℕ) (hn : next a = none) (n : ℕ) :
    inherited next base (update p a n) b = inherited next base p b := by
  refine inherited_congr rfl (fun _ => Iff.rfl) fun c hc => update_of_ne ?_ ..
  rintro rfl
  rw [hn] at hc
  cases hc

/-- Somebody is the reason for what is inherited. -/
theorem inherited_cases (next : α → Option α) (base p : α → ℕ) (a : α) :
    inherited next base p a = base a ∨ ∃ b, next b = some a ∧ inherited next base p a = p b := by
  by_cases h : (Finset.univ.filter fun b => next b = some a).sup p ≤ base a
  · exact Or.inl (max_eq_left h)
  · obtain ⟨b, hm, he⟩ := Finset.exists_mem_eq_sup (Finset.univ.filter fun b => next b = some a)
      (Finset.nonempty_iff_ne_empty.mpr fun he => h (by rw [he]; exact Nat.zero_le _)) p
    refine Or.inr ⟨b, (Finset.mem_filter.mp hm).2, ?_⟩
    rw [← he]
    exact max_eq_right (not_le.mp h).le

theorem le_inherited_iff (next : α → Option α) (base p : α → ℕ) (a : α) :
    n ≤ inherited next base p a ↔ n ≤ base a ∨ ∃ b, next b = some a ∧ n ≤ p b := by
  constructor
  · intro h
    rcases inherited_cases next base p a with he | ⟨b, hb, he⟩
    · exact Or.inl (he ▸ h)
    · exact Or.inr ⟨b, hb, he ▸ h⟩
  · rintro (h | ⟨b, hb, h⟩)
    · exact h.trans (base_le next base p a)
    · exact h.trans (waiter_le base p hb)

/-- Whoever is short of nothing has what it inherits if somebody is the reason for it. -/
theorem exact_iff (h : inherited next base p a ≤ p a) :
    p a = inherited next base p a ↔ base a = p a ∨ ∃ b, next b = some a ∧ p b = p a := by
  obtain ⟨hb, hw⟩ := inherited_le_iff.mp h
  rw [le_antisymm_iff, and_iff_left h, le_inherited_iff]
  constructor
  · rintro (hp | ⟨b, hn, hp⟩)
    · exact Or.inl (le_antisymm hb hp)
    · exact Or.inr ⟨b, hn, le_antisymm (hw b hn) hp⟩
  · rintro (hp | ⟨b, hn, hp⟩)
    · exact Or.inl hp.ge
    · exact Or.inr ⟨b, hn, hp.ge⟩

/-! ### Waiters taken away -/

/-- Somebody else but `w` is a reason for what `a` has, if only `a` itself. -/
def Reasoned (next : α → Option α) (base p : α → ℕ) (w a : α) : Prop :=
  base a = p a ∨ ∃ b, b ≠ w ∧ next b = some a ∧ p b = p a

/-- Whoever does not inherit from `w` has reasons without it. -/
theorem reasoned_iff {w o : α} (ha : p a = inherited next base p a) (hw : next w = some o) :
    Reasoned next base p w a ↔ a ≠ o ∨ Reasoned next base p w o := by
  by_cases hao : a = o
  · simp [hao]
  · refine iff_of_true ?_ (Or.inl hao)
    rcases (exact_iff ha.ge).mp ha with he | ⟨b, hb, he⟩
    · exact Or.inl he
    · refine Or.inr ⟨b, ?_, hb, he⟩
      rintro rfl
      rw [hw] at hb
      exact hao (Option.some.inj hb).symm

/-- Without `w`, maybe with others who wait as well, `a` has what it inherits if there is a reason
for it. -/
theorem exact_left {w : α} (ha : p a = inherited next base p a) (hpa : p' a = p a)
    (hb : base' a = base a) {H : α → Prop} (hH : ∀ b, H b → p' b ≤ p a)
    (hn : ∀ b, next' b = some a ↔ b ≠ w ∧ next b = some a ∨ H b)
    (hp : ∀ b, b ≠ w → next b = some a → p' b = p b) :
    p' a = inherited next' base' p' a ↔ Reasoned next base p w a ∨ ∃ b, H b ∧ p' b = p a := by
  have hle : inherited next' base' p' a ≤ p' a := by
    obtain ⟨hbase, hw⟩ := inherited_le_iff.mp ha.ge
    rw [hpa, inherited_le_iff, hb]
    refine ⟨hbase, fun b hx => ?_⟩
    rcases (hn b).mp hx with ⟨hne, hx⟩ | hx
    · rw [hp b hne hx]
      exact hw b hx
    · exact hH b hx
  rw [exact_iff hle, hpa, hb, Reasoned, or_assoc]
  refine or_congr_right ⟨?_, ?_⟩
  · rintro ⟨b, hx, he⟩
    rcases (hn b).mp hx with ⟨hne, hx⟩ | hx
    · exact Or.inl ⟨b, hne, hx, (hp b hne hx).symm.trans he⟩
    · exact Or.inr ⟨b, hx, he⟩
  · rintro (⟨b, hne, hx, he⟩ | ⟨b, hx, he⟩)
    · exact ⟨b, (hn b).mpr (Or.inl ⟨hne, hx⟩), (hp b hne hx).trans he⟩
    · exact ⟨b, (hn b).mpr (Or.inr hx), he⟩

/-! ### Chains -/

/-- Whoever is met on the way from `a` along the chain. -/
abbrev Reaches (next : α → Option α) : α → α → Prop := ReflTransGen fun b c => next b = some c

omit [Fintype α] [DecidableEq α] in
theorem Reaches.of_none (ha : next a = none) (h : Reaches next a b) : b = a := by
  rcases h.cases_head with he | ⟨c, hc, -⟩
  · exact he.symm
  · rw [ha] at hc
    cases hc

omit [Fintype α] [DecidableEq α] in
theorem Reaches.head_iff (hn : next a = some b) {c : α} :
    Reaches next a c ↔ c = a ∨ Reaches next b c := by
  constructor
  · intro h
    rcases h.cases_head with he | ⟨d, hd, hr⟩
    · exact Or.inl he.symm
    · rw [hn] at hd
      injection hd with hd
      exact Or.inr (hd ▸ hr)
  · rintro (rfl | h)
    · exact .refl
    · exact .head hn h

omit [Fintype α] in
/-- One step further at the end of the chain leads nowhere new if it leads to its start. -/
theorem Reaches.update_iff (hb : next b = none) {c : α} :
    Reaches (update next b (some a)) a c ↔ Reaches next a c := by
  constructor
  · intro h
    induction h with
    | refl => exact .refl
    | @tail u v _ hv ih =>
      by_cases hu : u = b
      · subst hu
        rw [update_self] at hv
        injection hv with hv
        exact hv ▸ .refl
      · rw [update_of_ne hu] at hv
        exact ih.tail hv
  · intro h
    induction h with
    | refl => exact .refl
    | @tail u v _ hv ih =>
      have hu : u ≠ b := by
        rintro rfl
        rw [hb] at hv
        cases hv
      exact ih.tail (by rw [update_of_ne hu]; exact hv)

omit [Fintype α] [DecidableEq α] in
/-- Priorities do not fall along a chain, if they do not from one to the next. -/
theorem Reaches.le (h : Reaches next a b) (hp : ∀ c d, next c = some d → p c ≤ p d) : p a ≤ p b := by
  induction h with
  | refl => exact le_rfl
  | tail _ hv ih => exact ih.trans (hp _ _ hv)

/-! ### Raising a chain -/

/-- The walk along the chain, which ends where nobody has to be raised. -/
def raise (next : α → Option α) : ℕ → (α → ℕ) → α → ℕ → α → ℕ
  | 0, p, _, _ => p
  | fuel + 1, p, a, q =>
    if p a < q then
      match next a with
      | some b => raise next fuel (update p a q) b q
      | none => update p a q
    else p

open Classical in
/-- Everybody on the chain has `q` at least. -/
noncomputable def raised (next : α → Option α) (p : α → ℕ) (a : α) (q : ℕ) (b : α) : ℕ :=
  if Reaches next a b then max (p b) q else p b

omit [Fintype α] [DecidableEq α] in
theorem raised_on {q : ℕ} (h : Reaches next a b) : raised next p a q b = max (p b) q := if_pos h

omit [Fintype α] [DecidableEq α] in
theorem raised_off {q : ℕ} (h : ¬ Reaches next a b) : raised next p a q b = p b := if_neg h

omit [Fintype α] [DecidableEq α] in
theorem le_raised (next : α → Option α) (p : α → ℕ) (a b : α) (q : ℕ) :
    p b ≤ raised next p a q b := by
  unfold raised
  split
  · exact le_max_left ..
  · exact le_rfl

omit [Fintype α] [DecidableEq α] in
theorem raised_le (next : α → Option α) (p : α → ℕ) (a b : α) (q : ℕ) :
    raised next p a q b ≤ max (p b) q := by
  unfold raised
  split
  · exact le_rfl
  · exact le_max_left ..

omit [Fintype α] [DecidableEq α] in
/-- Nobody has to be raised who is above `q` already, and nobody behind. -/
theorem raised_same {q : ℕ} (hp : ∀ c d, Reaches next a c → next c = some d → p c ≤ p d ∨ d = a)
    (ha : q ≤ p a) : raised next p a q = p := by
  funext b
  by_cases h : Reaches next a b
  · have hq : q ≤ p b := by
      induction h with
      | refl => exact ha
      | tail hr hv ih =>
        rcases hp _ _ hr hv with hle | rfl
        · exact ih.trans hle
        · exact ha
    rw [raised_on h, max_eq_left hq]
  · exact raised_off h

omit [Fintype α] in
theorem raised_next {q : ℕ} (hn : next a = some b) (hq : p a < q) :
    raised next (update p a q) b q = raised next p a q := by
  funext c
  by_cases hc : c = a
  · subst hc
    rw [raised_on (p := p) (.refl : Reaches next c c), max_eq_right hq.le]
    apply le_antisymm
    · exact (raised_le ..).trans (by rw [update_self, max_self])
    · exact le_of_eq_of_le (update_self c q p).symm (le_raised next (update p c q) b c q)
  · have hr := Reaches.head_iff hn (c := c)
    by_cases h : Reaches next b c
    · rw [raised_on h, raised_on (hr.mpr (Or.inr h)), update_of_ne hc]
    · rw [raised_off h, raised_off (fun ha => (hr.mp ha).elim hc h), update_of_ne hc]

omit [Fintype α] in
theorem raised_last {q : ℕ} (hn : next a = none) (hq : p a < q) :
    raised next p a q = update p a q := by
  funext c
  by_cases hc : c = a
  · subst hc
    rw [raised_on .refl, update_self, max_eq_right hq.le]
  · rw [raised_off (fun h => hc (Reaches.of_none hn h)), update_of_ne hc]

/-- Whoever is raised is not below `q` anymore. -/
theorem below_update {q : ℕ} (hq : p a < q) {fuel : ℕ}
    (hf : (Finset.univ.filter fun c => p c < q).card ≤ fuel + 1) :
    (Finset.univ.filter fun c => update p a q c < q).card ≤ fuel := by
  have hsub : (Finset.univ.filter fun c => update p a q c < q) ⊆
      Finset.univ.filter fun c => p c < q := by
    intro c hc
    rw [Finset.mem_filter] at hc ⊢
    have hca : c ≠ a := by
      rintro rfl
      rw [update_self] at hc
      exact absurd hc.2 (lt_irrefl q)
    rwa [update_of_ne hca] at hc
  have hlt := Finset.card_lt_card ((Finset.ssubset_iff_of_subset hsub).mpr
    ⟨a, by simpa using hq, by simp⟩)
  omega

omit [DecidableEq α] in
theorem none_below {q : ℕ} (hf : (Finset.univ.filter fun c => p c < q).card ≤ 0) (a : α) :
    q ≤ p a := by
  have hnone : a ∉ Finset.univ.filter fun c => p c < q := by
    rw [Finset.card_eq_zero.mp (Nat.le_zero.mp hf)]
    exact Finset.notMem_empty a
  simpa using hnone

/-- The walk raises everybody on the chain, as nobody on it is above `q` and lends to one who is
below. The induction is on the number of those who are below `q`. -/
theorem raise_eq (fuel : ℕ) (q : ℕ)
    (hp : ∀ c d, Reaches next a c → next c = some d → p c ≤ p d ∨ d = a ∧ p c ≤ q)
    (hf : (Finset.univ.filter fun c => p c < q).card ≤ fuel) :
    raise next fuel p a q = raised next p a q := by
  have hstop : q ≤ p a → raised next p a q = p :=
    raised_same fun c d hr h => (hp c d hr h).imp_right And.left
  induction fuel generalizing p a with
  | zero => exact (hstop (none_below hf a)).symm
  | succ fuel ih =>
    unfold raise
    split
    case isFalse hq => exact (hstop (not_lt.mp hq)).symm
    case isTrue hq =>
      split
      case h_2 hn => exact (raised_last hn hq).symm
      case h_1 b hn =>
        have hp' : ∀ c d, Reaches next b c → next c = some d →
            update p a q c ≤ update p a q d ∨ d = b ∧ update p a q c ≤ q := by
          intro c d hr h
          by_cases hc : c = a
          · subst hc
            rw [hn] at h
            injection h with h
            exact Or.inr ⟨h.symm, by rw [update_self]⟩
          · have hrise := hp c d (.head hn hr) h
            rw [update_of_ne hc]
            by_cases hd : d = a
            · subst hd
              rw [update_self]
              rcases hrise with hle | ⟨-, hle⟩
              · exact Or.inl (hle.trans hq.le)
              · exact Or.inl hle
            · rw [update_of_ne hd]
              exact Or.inl (hrise.resolve_right fun he => hd he.1)
        rw [ih hp' (below_update hq hf) fun hb =>
          raised_same (fun c d hr h => (hp' c d hr h).imp_right And.left) hb]
        exact raised_next hn hq

omit [Fintype α] in
theorem update_le_max (p : α → ℕ) (a b : α) (q : ℕ) : update p a q b ≤ max (p b) q := by
  rw [update_apply]
  split
  · exact le_max_right ..
  · exact le_max_left ..

omit [Fintype α] in
theorem le_update {q : ℕ} (hq : p a < q) (b : α) : p b ≤ update p a q b := by
  rw [update_apply]
  split
  case isTrue hb => exact hb ▸ hq.le
  case isFalse => exact le_rfl

omit [Fintype α] in
/-- The walk raises nobody above `q`. -/
theorem raise_le (fuel : ℕ) (p : α → ℕ) (a b : α) (q : ℕ) : raise next fuel p a q b ≤ max (p b) q := by
  induction fuel generalizing p a with
  | zero => exact le_max_left ..
  | succ fuel ih =>
    unfold raise
    split
    · cases next a with
      | none => exact update_le_max p a b q
      | some v => exact (ih _ v).trans (max_le (update_le_max p a b q) (le_max_right ..))
    · exact le_max_left ..

omit [Fintype α] in
theorem le_raise (fuel : ℕ) (p : α → ℕ) (a b : α) (q : ℕ) : p b ≤ raise next fuel p a q b := by
  induction fuel generalizing p a with
  | zero => exact le_rfl
  | succ fuel ih =>
    unfold raise
    split
    case isTrue hq =>
      cases next a with
      | none => exact le_update hq b
      | some v => exact (le_update hq b).trans (ih _ v)
    case isFalse => exact le_rfl

theorem raise_start (fuel : ℕ) (q : ℕ) (hf : (Finset.univ.filter fun c => p c < q).card ≤ fuel) :
    q ≤ raise next fuel p a q a := by
  cases fuel with
  | zero => exact none_below hf a
  | succ fuel =>
    unfold raise
    split
    · cases next a with
      | none => exact (update_self a q p).ge
      | some v => exact le_of_eq_of_le (update_self a q p).symm (le_raise ..)
    case isFalse hq => exact not_lt.mp hq

/-- The walk leaves nobody short, except where it starts somebody who lends nothing may be. -/
theorem raise_covers (good : α → Prop) (fuel : ℕ) (q : ℕ)
    (hf : (Finset.univ.filter fun c => p c < q).card ≤ fuel)
    (hp : ∀ b, good b → b ≠ a → inherited next base p b ≤ p b)
    (ha : good a → inherited next base p a ≤ max (p a) q) (b : α) (hb : good b) :
    inherited next base (raise next fuel p a q) b ≤ raise next fuel p a q b := by
  have hstop : q ≤ p a → inherited next base p b ≤ p b := by
    intro hq
    by_cases hab : b = a
    · subst hab
      exact (ha hb).trans (max_le le_rfl hq)
    · exact hp b hb hab
  induction fuel generalizing p a with
  | zero => exact hstop (none_below hf a)
  | succ fuel ih =>
    unfold raise
    split
    case isFalse hq => exact hstop (not_lt.mp hq)
    case isTrue hq =>
      have hoff : ∀ c, next a ≠ some c → inherited next base (update p a q) c = inherited next base p c := by
        intro c hc
        refine inherited_congr rfl (fun _ => Iff.rfl) fun d hd => update_of_ne ?_ ..
        rintro rfl
        exact hc hd
      have hon : ∀ c, inherited next base (update p a q) c ≤ max (inherited next base p c) q := by
        intro c
        refine inherited_le_iff.mpr ⟨(base_le next base p c).trans (le_max_left ..), fun d hd => ?_⟩
        rw [update_apply]
        split
        · exact le_max_right ..
        · exact (waiter_le base p hd).trans (le_max_left ..)
      have hself : good a → inherited next base (update p a q) a ≤ update p a q a := by
        intro hg
        rw [update_self]
        exact (hon a).trans (max_le ((ha hg).trans (max_le hq.le le_rfl)) le_rfl)
      have helse : ∀ c, good c → next a ≠ some c →
          inherited next base (update p a q) c ≤ update p a q c := by
        intro c hg hc
        by_cases hca : c = a
        · subst hca
          exact hself hg
        · rw [update_of_ne hca, hoff c hc]
          exact hp c hg hca
      cases hn : next a with
      | none => exact helse b hb (by rw [hn]; simp)
      | some v =>
        have hv : good v → inherited next base (update p a q) v ≤ max (update p a q v) q := by
          intro hg
          by_cases hva : v = a
          · subst hva
            exact (hself hg).trans (le_max_left ..)
          · rw [update_of_ne hva]
            exact (hon v).trans (max_le ((hp v hg hva).trans (le_max_left ..)) (le_max_right ..))
        have hrest : ∀ c, good c → c ≠ v → inherited next base (update p a q) c ≤ update p a q c :=
          fun c hg hc => helse c hg (by rw [hn]; exact fun he => hc (Option.some.inj he).symm)
        refine ih (below_update hq hf) hrest hv fun hle => ?_
        by_cases hbv : b = v
        · subst hbv
          exact (hv hb).trans (max_le le_rfl hle)
        · exact hrest b hb hbv

/-! ### What a raise does to what is inherited -/

/-- Off the chain nothing changes. -/
theorem inherited_off {q : ℕ} (h : ¬ Reaches next a b) :
    inherited next base (raised next p a q) b = inherited next base p b :=
  inherited_congr rfl (fun _ => Iff.rfl) fun _ hc => raised_off fun hr => h (hr.tail hc)

theorem inherited_le_raised (q : ℕ) :
    inherited next base p b ≤ inherited next base (raised next p a q) b :=
  inherited_mono le_rfl fun c hc => ⟨hc, le_raised next p a c q⟩

/-- Nobody on the chain inherits more than it has been raised to. -/
theorem inherited_raised_le {q : ℕ} (h : inherited next base p b ≤ max (p b) q) :
    inherited next base (raised next p a q) b ≤ max (p b) q := by
  obtain ⟨hb, hw⟩ := inherited_le_iff.mp h
  refine inherited_le_iff.mpr ⟨hb, fun c hc => (raised_le next p a c q).trans ?_⟩
  exact max_le (hw c hc) (le_max_right ..)

/-- A raise which starts with what the first one inherits leaves nobody short. -/
theorem raised_covers {q : ℕ} (hb : b ≠ a → inherited next base p b ≤ p b)
    (ha : b = a → inherited next base p a ≤ max (p a) q) :
    inherited next base (raised next p a q) b ≤ raised next p a q b := by
  by_cases hr : Reaches next a b
  · rw [raised_on hr]
    refine inherited_raised_le ?_
    by_cases hab : b = a
    · subst hab
      exact ha rfl
    · exact (hb hab).trans (le_max_left ..)
  · have hab : b ≠ a := by
      rintro rfl
      exact hr .refl
    rw [inherited_off hr, raised_off hr]
    exact hb hab

/-- A raise which starts with what the first one inherits is as high as it has to be. -/
theorem raised_exact {q : ℕ} (hb : b ≠ a → p b = inherited next base p b)
    (ha : b = a → max (p a) q = inherited next base p a) :
    raised next p a q b = inherited next base (raised next p a q) b := by
  apply le_antisymm
  · by_cases hr : Reaches next a b
    · rw [raised_on hr]
      rcases hr.cases_tail with hab | ⟨c, hc, hcb⟩
      · rw [← hab] at ha ⊢
        rw [ha rfl]
        exact inherited_le_raised q
      · by_cases hab : b = a
        · subst hab
          rw [ha rfl]
          exact inherited_le_raised q
        · refine max_le ((hb hab).le.trans (inherited_le_raised q)) ?_
          calc q ≤ max (p c) q := le_max_right ..
            _ = raised next p a q c := (raised_on hc).symm
            _ ≤ inherited next base (raised next p a q) b := waiter_le _ _ hcb
    · have hab : b ≠ a := by
        rintro rfl
        exact hr .refl
      rw [inherited_off hr, raised_off hr]
      exact (hb hab).le
  · exact raised_covers (fun h => (hb h).ge) fun h => (ha h).ge

/-- What `a` inherits once `b`, which waits for nobody, waits for it. -/
theorem inherited_joined (base p : α → ℕ) (hb : next b = none) :
    inherited (update next b (some a)) base p a = max (inherited next base p a) (p b) := by
  apply le_antisymm
  · refine inherited_le_iff.mpr ⟨(base_le next base p a).trans (le_max_left ..), fun c hc => ?_⟩
    by_cases hcb : c = b
    · subst hcb
      exact le_max_right ..
    · rw [update_of_ne hcb] at hc
      exact (waiter_le base p hc).trans (le_max_left ..)
  · refine max_le (inherited_mono le_rfl fun c hc => ⟨?_, le_rfl⟩) (waiter_le base p (update_self ..))
    have hcb : c ≠ b := by
      rintro rfl
      rw [hb] at hc
      cases hc
    rwa [update_of_ne hcb]

/-- Nobody else inherits anything else. -/
theorem inherited_elsewhere (base p : α → ℕ) (hb : next b = none) {c : α} (hc : c ≠ a) :
    inherited (update next b (some a)) base p c = inherited next base p c := by
  refine inherited_congr rfl (fun d => ?_) fun _ _ => rfl
  by_cases hd : d = b
  · subst hd
    rw [update_self, hb]
    exact ⟨fun h => absurd (Option.some.inj h).symm hc, fun h => (by cases h)⟩
  · rw [update_of_ne hd]

omit [Fintype α] in
theorem raised_joined (p : α → ℕ) (q : ℕ) (hb : next b = none) :
    raised (update next b (some a)) p a q = raised next p a q := by
  funext c
  have h := Reaches.update_iff (a := a) hb (c := c)
  by_cases hr : Reaches next a c
  · rw [raised_on hr, raised_on (h.mpr hr)]
  · rw [raised_off hr, raised_off fun h' => hr (h.mp h')]

/-- Whoever waits from there on is the reason for what it has raised. -/
theorem raised_lent {c : α} (hb : next b = none) (hc : p c = inherited next base p c) :
    raised next p a (p b) c =
      inherited (update next b (some a)) base (raised next p a (p b)) c := by
  rw [← raised_joined p _ hb]
  refine raised_exact (fun hca => ?_) fun hca => ?_
  · rw [inherited_elsewhere _ _ hb hca]
    exact hc
  · subst hca
    rw [inherited_joined _ _ hb]
    exact congrArg (max · _) hc

/-! ### Lending less than was raised -/

/-- Nobody inherits from itself by the raise of a chain it is on. -/
theorem inherited_raised_self (h : Reaches next a b → p b = inherited next base p b) :
    inherited next base (raised next p a (p b)) b = inherited next base p b := by
  by_cases hr : Reaches next a b
  · refine le_antisymm ?_ (inherited_le_raised _)
    calc inherited next base (raised next p a (p b)) b
        ≤ max (p b) (p b) := inherited_raised_le ((h hr).ge.trans (le_max_left ..))
      _ = inherited next base p b := by rw [max_self, h hr]
  · exact inherited_off hr

/-- The chain is raised to what `b` has, which then waits with no more than it inherits. -/
noncomputable def settled (next : α → Option α) (base p : α → ℕ) (a b : α) : α → ℕ :=
  update (raised next p a (p b)) b (inherited next base p b)

/-- Everybody on the chain is left with what it inherits if and only if `b` has no more than it
inherits, or nobody had to be raised. -/
theorem settled_iff (hb : next b = none) (hcovered : inherited next base p b ≤ p b)
    (hchain : ∀ c, Reaches next a c → p c = inherited next base p c) :
    (∀ c, Reaches next a c → settled next base p a b c =
        inherited (update next b (some a)) base (settled next base p a b) c ∧
      settled next base p a b c = max (p c) (settled next base p a b b)) ↔
      p b = inherited next base p b ∨ p b ≤ p a := by
  have hself : settled next base p a b b = inherited next base p b := update_self ..
  have hrise : ∀ c d, Reaches next a c → next c = some d → p c ≤ p d ∨ d = a := fun c d hr hd => by
    rw [hchain d (hr.tail hd)]
    exact Or.inl (waiter_le base p hd)
  have hle : ∀ c, Reaches next a c → p a ≤ p c := by
    intro c hc
    induction hc with
    | refl => exact le_rfl
    | tail hr hd ih => exact ih.trans ((hchain _ (hr.tail hd)).ge.trans' (waiter_le base p hd))
  have hexact : p b = inherited next base p b → ∀ c, Reaches next a c → settled next base p a b c =
      inherited (update next b (some a)) base (settled next base p a b) c ∧
      settled next base p a b c = max (p c) (settled next base p a b b) := by
    intro he c hc
    have hsame : settled next base p a b = raised next p a (p b) := by
      have hraised : raised next p a (p b) b = inherited next base p b := by
        rw [← he]
        exact le_antisymm ((raised_le ..).trans (max_self _).le) (le_raised ..)
      rw [settled, ← hraised, update_eq_self]
    refine ⟨?_, ?_⟩
    · rw [hsame]
      exact raised_lent hb (hchain c hc)
    · rw [hself, ← he, hsame, raised_on hc]
  constructor
  · intro h
    rw [hself] at h
    have ha := (h a .refl).2
    by_cases hab : a = b
    · subst hab
      exact Or.inr le_rfl
    · rw [settled, update_of_ne hab, raised_on .refl] at ha
      omega
  · rintro (he | hq)
    · exact hexact he
    · by_cases hr : Reaches next a b
      · exact hexact (hchain b hr)
      · intro c hc
        have hcb : c ≠ b := by
          rintro rfl
          exact hr hc
        have hp : settled next base p a b = update p b (inherited next base p b) := by
          rw [settled, raised_same hrise hq]
        have hmax : max (p c) (inherited next base p b) = p c :=
          max_eq_left ((hcovered.trans hq).trans (hle c hc))
        rw [hself, hp, update_of_ne hcb, hmax]
        refine ⟨?_, rfl⟩
        by_cases hca : c = a
        · subst hca
          rw [inherited_joined _ _ hb, update_self, inherited_unlent _ _ hb, ← hchain c hc, hmax]
        · rw [inherited_elsewhere _ _ hb hca, inherited_unlent _ _ hb]
          exact hchain c hc

/-! ### Taking a raise back at its start only -/

/-- The one at the start of the chain is set back to what it inherits, if that is less. -/
def lowered (next : α → Option α) (base p : α → ℕ) (a : α) : α → ℕ :=
  if inherited next base p a < p a then update p a (inherited next base p a) else p

theorem lowered_le (next : α → Option α) (base p : α → ℕ) (a b : α) :
    lowered next base p a b ≤ p b := by
  unfold lowered
  split
  case isTrue h =>
    by_cases hb : b = a
    · subst hb
      rw [update_self]
      exact h.le
    · rw [update_of_ne hb]
  case isFalse => exact le_rfl

theorem lowered_of_ne (next : α → Option α) (base p : α → ℕ) (hb : b ≠ a) :
    lowered next base p a b = p b := by
  unfold lowered
  split
  · exact update_of_ne hb ..
  · rfl

/-- It is lowered to what it inherits, unless it falls short of that. -/
theorem lowered_self (next : α → Option α) (base p : α → ℕ) (a : α) :
    lowered next base p a a = min (inherited next base p a) (p a) := by
  unfold lowered
  split
  case isTrue h => rw [update_self, min_eq_left h.le]
  case isFalse h => rw [min_eq_right (not_lt.mp h)]

/-- Nobody falls short of anything by that. -/
theorem lowered_covers (h : inherited next base p b ≤ p b) :
    inherited next base (lowered next base p a) b ≤ lowered next base p a b := by
  have hle : inherited next base (lowered next base p a) b ≤ inherited next base p b :=
    inherited_mono le_rfl fun c hc => ⟨hc, lowered_le next base p a c⟩
  by_cases hb : b = a
  · subst hb
    rw [lowered_self]
    exact le_min hle (hle.trans h)
  · rw [lowered_of_ne next base p hb]
    exact hle.trans h

/-- That undoes the whole raise just in case nobody further down the chain had to be raised. -/
theorem lowered_raised {q : ℕ} (hp : ∀ c d, next c = some d → p c ≤ p d)
    (ha : p a = inherited next base p a) (h : ∀ b, next a = some b → q ≤ p b) :
    lowered next base (raised next p a q) a = p := by
  have hexact : ¬ inherited next base p a < p a := by
    rw [← ha]
    exact lt_irrefl _
  by_cases hq : q ≤ p a
  · rw [raised_same (fun c d _ hc => Or.inl (hp c d hc)) hq, lowered, if_neg hexact]
  · have hback : ∀ c, next c = some a → ¬ Reaches next a c := by
      intro c hc hr
      obtain ⟨b, hb, hbc⟩ : ∃ b, next a = some b ∧ Reaches next b a := by
        rcases hr.cases_head with rfl | ⟨b, hb, hbc⟩
        · exact ⟨a, hc, .refl⟩
        · exact ⟨b, hb, hbc.tail hc⟩
      exact hq ((h b hb).trans (hbc.le hp))
    have hinh : inherited next base (raised next p a q) a = p a := by
      rw [ha]
      exact inherited_congr rfl (fun _ => Iff.rfl) fun c hc => raised_off (hback c hc)
    funext c
    by_cases hc : c = a
    · subst hc
      rw [lowered_self, hinh]
      exact min_eq_left (le_raised ..)
    · rw [lowered_of_ne _ _ _ hc]
      by_cases hr : Reaches next a c
      · obtain ⟨b, hb, hbc⟩ := (hr.cases_head).resolve_left fun he => hc he.symm
        rw [raised_on hr]
        exact max_eq_left ((h b hb).trans (Reaches.le hbc hp))
      · exact raised_off hr

theorem raised_of_lowered {q : ℕ} (hb : next a = some b)
    (h : lowered next base (raised next p a q) a b = p b) : q ≤ p b := by
  have hr : Reaches next a b := .single hb
  have he : raised next p a q b = p b := by
    rw [← h]
    by_cases hab : b = a
    · subst hab
      rw [lowered_self]
      exact (min_eq_right (waiter_le _ _ hb)).symm
    · exact (lowered_of_ne _ _ _ hab).symm
  rw [raised_on hr] at he
  rw [← he]
  exact le_max_right ..

/-! ### Without cycles -/

omit [DecidableEq α] in
/-- Who waits ahead of `a` without cycles waits there in finitely many rounds. -/
theorem waiters_wellFounded
    (h : ∀ b, Reaches next b a → ¬ TransGen (fun c d => next c = some d) b b) :
    WellFounded fun c d => next c = some d ∧ Reaches next d a := by
  let r : α → α → Prop := fun c d => next c = some d ∧ Reaches next d a
  have hr : ∀ {c d}, TransGen r c d → TransGen (fun c d => next c = some d) c d ∧ Reaches next d a := by
    intro c d hcd
    refine ⟨TransGen.mono (fun _ _ hx => hx.1) _ _ hcd, ?_⟩
    cases hcd with
    | single hx => exact hx.2
    | tail _ hx => exact hx.2
  have htrans : IsTrans α (TransGen r) := ⟨fun _ _ _ hbc hcd => hbc.trans hcd⟩
  have hirrefl : Std.Irrefl (TransGen r) := ⟨fun b hb => h b (hr hb).2 (hr hb).1⟩
  have hwf : WellFounded (TransGen r) := Finite.wellFounded_of_trans_of_irrefl _
  exact Subrelation.wf (r := TransGen r) (fun hx => .single hx) hwf

omit [DecidableEq α] in
/-- Whoever waits is behind somebody who does not, unless there are cycles. -/
theorem exists_free {r : α → α → Prop} (h : ∀ b, ¬ TransGen r b b) (a : α) : ∃ b, ReflTransGen r a b ∧ ∀ c, ¬ r b c := by
  have htrans : IsTrans α (TransGen (Function.swap r)) := ⟨fun _ _ _ hbc hcd => hbc.trans hcd⟩
  have hirrefl : Std.Irrefl (TransGen (Function.swap r)) := ⟨fun b hb => h b (transGen_swap.mp hb)⟩
  have hwf : WellFounded (TransGen (Function.swap r)) := Finite.wellFounded_of_trans_of_irrefl _
  induction a using hwf.induction with
  | _ a ih =>
    by_cases hfree : ∀ c, ¬ r a c
    · exact ⟨a, .refl, hfree⟩
    · obtain ⟨c, hc⟩ := not_forall.mp hfree
      have hac : r a c := not_not.mp hc
      obtain ⟨b, hb, hlast⟩ := ih c (.single hac)
      exact ⟨b, .head hac hb, hlast⟩

/-- Without cycles everybody has the greatest of the own priorities of those who wait for it,
directly or further up a chain. -/
theorem exact_max (hacyclic : ∀ b, Reaches next b a → ¬ TransGen (fun c d => next c = some d) b b)
    (hexact : ∀ b, Reaches next b a → p b = inherited next base p b) :
    IsGreatest {n | ∃ b, Reaches next b a ∧ base b = n} (p a) := by
  have hfrom : ∀ b, Reaches next b a → ∃ c, Reaches next c b ∧ base c = p b := by
    intro b
    induction b using (waiters_wellFounded hacyclic).induction with
    | _ b ih =>
      intro hb
      rcases inherited_cases next base p b with he | ⟨c, hc, he⟩
      · exact ⟨b, .refl, by rw [hexact b hb, he]⟩
      · obtain ⟨d, hd, hp⟩ := ih c ⟨hc, hb⟩ (.head hc hb)
        exact ⟨d, hd.tail hc, by rw [hp, hexact b hb, he]⟩
  have hbound : ∀ b, Reaches next b a → base b ≤ p a := by
    intro b hb
    have hle : p b ≤ p a := by
      induction hb using ReflTransGen.head_induction_on with
      | refl => exact le_rfl
      | head hx hr ih => exact (waiter_le base p hx).trans ((hexact _ hr).ge.trans ih)
    exact (base_le next base p b).trans ((hexact b hb).ge.trans hle)
  refine ⟨?_, fun n hn => ?_⟩
  · obtain ⟨c, hc, he⟩ := hfrom a .refl
    exact ⟨c, hc, he⟩
  · obtain ⟨b, hb, rfl⟩ := hn
    exact hbound b hb

end

end Donation
