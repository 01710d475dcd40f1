import AvrOs.Intrusive.Refine

/-!
# Ordered lists

Insertion ahead of the first member which does not pass keeps a list in order as long
as the test agrees with the order. Membership of the operations of `Lists` is here as well.
-/

namespace Intrusive

variable {ι α : Type} [DecidableEq ι]

/-! ### Membership -/

namespace Lists

theorem mem_insert (s : Lists ι α) (i j : ι) (a b : α) (pass : α → Bool) :
    b ∈ Lists.insert s i a pass j ↔ (j = i ∧ b = a) ∨ b ∈ s j := by
  rw [Lists.insert, mem_update, mem_splice]
  by_cases h : j = i
  · subst h; simp
  · simp [h]

theorem mem_remove [DecidableEq α] (s : Lists ι α) (i j : ι) (a b : α) (h : Separate s) :
    b ∈ Lists.remove s i a j ↔ b ∈ s j ∧ ¬ (j = i ∧ b = a) := by
  rw [Lists.remove, mem_update, (h.nodup i).mem_erase_iff]
  by_cases hj : j = i
  · subst hj; simp [and_comm]
  · simp [hj]

theorem mem_push (s : Lists ι α) (i j : ι) (a b : α) :
    b ∈ Lists.push s i a j ↔ (j = i ∧ b = a) ∨ b ∈ s j := by
  rw [Lists.push, mem_update, List.mem_cons]
  by_cases h : j = i
  · subst h; simp
  · simp [h]

theorem mem_pop (s : Lists ι α) (i j : ι) (a b : α) (h : Separate s)
    (ha : (s i).head? = some a) : b ∈ Lists.pop s i j ↔ b ∈ s j ∧ ¬ (j = i ∧ b = a) := by
  obtain ⟨as, hs⟩ := List.head?_eq_some_iff.mp ha
  have hnd := h.nodup i
  rw [hs] at hnd
  rw [Lists.pop, mem_update, hs, List.tail_cons]
  by_cases hj : j = i
  · subst hj
    have hna : a ∉ as := (List.nodup_cons.mp hnd).1
    simp only [hs, List.mem_cons, true_and, ne_eq, not_true_eq_false, false_and, or_false]
    constructor
    · intro hb
      exact ⟨Or.inr hb, fun e => hna (e ▸ hb)⟩
    · rintro ⟨hb | hb, hne⟩
      · exact absurd hb hne
      · exact hb
  · simp [hj]

theorem separate_insert (s : Lists ι α) (i : ι) (a : α) (pass : α → Bool) (h : Separate s)
    (hf : Free s a) : Separate (Lists.insert s i a pass) :=
  separate_grow s i a _ h hf (nodup_splice _ _ _ (hf i) (h.nodup i))
    (fun _ hb => (mem_splice ..).mp hb)

theorem separate_remove [DecidableEq α] (s : Lists ι α) (i : ι) (a : α) (h : Separate s) :
    Separate (Lists.remove s i a) := separate_shrink s i _ h (List.erase_sublist ..)

theorem separate_push (s : Lists ι α) (i : ι) (a : α) (h : Separate s) (hf : Free s a) :
    Separate (Lists.push s i a) :=
  separate_grow s i a _ h hf (List.nodup_cons.mpr ⟨hf i, h.nodup i⟩) (fun _ hb => List.mem_cons.mp hb)

theorem separate_pop (s : Lists ι α) (i : ι) (h : Separate s) : Separate (Lists.pop s i) :=
  separate_shrink s i _ h (List.tail_sublist _)

theorem insert_of_ne (s : Lists ι α) (i j : ι) (a : α) (pass : α → Bool) (h : j ≠ i) :
    Lists.insert s i a pass j = s j := Function.update_of_ne h ..

theorem insert_self (s : Lists ι α) (i : ι) (a : α) (pass : α → Bool) :
    Lists.insert s i a pass i = (s i).takeWhile pass ++ a :: (s i).dropWhile pass :=
  Function.update_self ..

theorem remove_of_ne [DecidableEq α] (s : Lists ι α) (i j : ι) (a : α) (h : j ≠ i) :
    Lists.remove s i a j = s j := Function.update_of_ne h ..

theorem remove_self [DecidableEq α] (s : Lists ι α) (i : ι) (a : α) :
    Lists.remove s i a i = (s i).erase a := Function.update_self ..

theorem remove_sublist [DecidableEq α] (s : Lists ι α) (i j : ι) (a : α) :
    (Lists.remove s i a j).Sublist (s j) := by
  by_cases h : j = i
  · subst h; rw [remove_self]; exact List.erase_sublist ..
  · rw [remove_of_ne _ _ _ _ h]

omit [DecidableEq ι] in
/-- The member behind `a`, where `a` splits its list. -/
theorem next_append [DecidableEq α] (s : Lists ι α) (i : ι) (a : α) (as bs : List α)
    (h : s i = as ++ a :: bs) (ha : a ∉ as) : Lists.next s i a = bs.head? := by
  have hd : (as ++ a :: bs).dropWhile (fun b => b ≠ a) = a :: bs := by
    rw [List.dropWhile_append_of_pos]
    · simp
    · intro b hb
      have hne : b ≠ a := fun he => ha (he ▸ hb)
      simpa using hne
  rw [next, h, hd]
  rfl

theorem pop_of_ne (s : Lists ι α) (i j : ι) (h : j ≠ i) : Lists.pop s i j = s j :=
  Function.update_of_ne h ..

theorem pop_self (s : Lists ι α) (i : ι) : Lists.pop s i i = (s i).tail := Function.update_self ..

theorem push_of_ne (s : Lists ι α) (i j : ι) (a : α) (h : j ≠ i) : Lists.push s i a j = s j :=
  Function.update_of_ne h ..

theorem push_self (s : Lists ι α) (i : ι) (a : α) : Lists.push s i a i = a :: s i :=
  Function.update_self ..

end Lists

/-! ### Some of the members -/

/-- Whoever is not looked at may join. -/
theorem filter_splice (P pass : α → Bool) (l : List α) (x : α) (hx : P x = false) :
    (l.takeWhile pass ++ x :: l.dropWhile pass).filter P = l.filter P := by
  rw [List.filter_append, List.filter_cons_of_neg (by simp [hx]), ← List.filter_append,
    List.takeWhile_append_dropWhile]

/-- Whoever is not looked at may leave. -/
theorem filter_erase [DecidableEq α] (P : α → Bool) (l : List α) (x : α) (hx : P x = false) :
    (l.erase x).filter P = l.filter P := by
  induction l with
  | nil => rfl
  | cons a l ih =>
    by_cases ha : a = x
    · subst ha
      rw [List.erase_cons_head, List.filter_cons_of_neg (by simp [hx])]
    · rw [List.erase_cons_tail (by simpa using ha), List.filter_cons, List.filter_cons, ih]

/-- Whoever joins ahead of all the others who are looked at is the first of them. -/
theorem filter_splice_ahead (P pass : α → Bool) (l : List α) (x : α) (hx : P x = true)
    (hl : ∀ a ∈ l, P a = true → pass a = false) :
    (l.takeWhile pass ++ x :: l.dropWhile pass).filter P = x :: l.filter P := by
  have hahead : (l.takeWhile pass).filter P = [] := by
    refine List.filter_eq_nil_iff.mpr fun a ha hp => ?_
    have hpass := List.mem_takeWhile_imp ha
    rw [hl a ((List.takeWhile_sublist pass).subset ha) hp] at hpass
    cases hpass
  calc (l.takeWhile pass ++ x :: l.dropWhile pass).filter P
    _ = x :: (l.dropWhile pass).filter P := by
      rw [List.filter_append, hahead, List.nil_append, List.filter_cons_of_pos hx]
    _ = x :: ((l.takeWhile pass).filter P ++ (l.dropWhile pass).filter P) := by
      rw [hahead, List.nil_append]
    _ = x :: l.filter P := by rw [← List.filter_append, List.takeWhile_append_dropWhile]

/-! ### Order -/

theorem dropWhile_fails (pass : α → Bool) (R : α → α → Prop) (l : List α) (h : l.Pairwise R)
    (hr : ∀ a ∈ l, ∀ b ∈ l, pass a = false → R a b → pass b = false) :
    ∀ b ∈ l.dropWhile pass, pass b = false := by
  induction l with
  | nil => simp
  | cons a l ih =>
    have hp := List.pairwise_cons.mp h
    by_cases ha : pass a = true
    · rw [List.dropWhile_cons_of_pos ha]
      exact ih hp.2 (fun x hx y hy => hr x (List.mem_cons_of_mem _ hx) y (List.mem_cons_of_mem _ hy))
    · have ha' : pass a = false := by simpa using ha
      rw [List.dropWhile_cons_of_neg ha]
      intro b hb
      rcases List.mem_cons.mp hb with rfl | hb'
      · exact ha'
      · exact hr a (List.mem_cons_self ..) b hb ha' (hp.1 b hb')

/-- Members which pass go ahead of `x`, the ones which do not go behind it. -/
theorem pairwise_splice (pass : α → Bool) (R : α → α → Prop) (l : List α) (x : α)
    (h : l.Pairwise R) (hpass : ∀ b ∈ l, pass b = true → R b x)
    (hfail : ∀ b ∈ l, pass b = false → R x b)
    (hr : ∀ a ∈ l, ∀ b ∈ l, pass a = false → R a b → pass b = false) :
    (l.takeWhile pass ++ x :: l.dropWhile pass).Pairwise R := by
  have hdrop := dropWhile_fails pass R l h hr
  have hl := h
  rw [← List.takeWhile_append_dropWhile (p := pass) (l := l), List.pairwise_append] at hl
  obtain ⟨ht, hd, htd⟩ := hl
  have hx : ∀ b ∈ l.dropWhile pass, R x b := fun b hb =>
    hfail b ((List.dropWhile_sublist pass).subset hb) (hdrop b hb)
  rw [List.pairwise_append]
  refine ⟨ht, List.pairwise_cons.mpr ⟨hx, hd⟩, fun a ha b hb => ?_⟩
  rcases List.mem_cons.mp hb with rfl | hb'
  · exact hpass a ((List.takeWhile_sublist pass).subset ha) (List.mem_takeWhile_imp ha)
  · exact htd a ha b hb'

/-- The key of the members does not go up along the list. -/
def Ordered (f : α → ℕ) (l : List α) : Prop := l.Pairwise fun a b => f b ≤ f a

namespace Ordered

variable {f g : α → ℕ} {l : List α}

theorem nil : Ordered f [] := List.Pairwise.nil

theorem sublist {l' : List α} (h : Ordered f l) (hs : l'.Sublist l) : Ordered f l' :=
  List.Pairwise.sublist hs h

theorem splice (h : Ordered f l) (x : α) (key : ℕ) (hx : f x ≤ key) (hk : key ≤ f x + 1) :
    Ordered f (l.takeWhile (fun it => key ≤ f it) ++ x :: l.dropWhile (fun it => key ≤ f it)) := by
  refine pairwise_splice _ _ l x h (fun b _ hb => ?_) (fun b _ hb => ?_) (fun a _ b _ ha hab => ?_)
  · have hb' : key ≤ f b := by simpa using hb
    omega
  · have hb' : f b < key := by simpa using hb
    omega
  · have ha' : f a < key := by simpa using ha
    have hlt : f b < key := by omega
    simpa using hlt

theorem mono (h : Ordered f l) (hm : ∀ a ∈ l, ∀ b ∈ l, f b ≤ f a → g b ≤ g a) : Ordered g l :=
  List.Pairwise.imp_of_mem (fun {a b} ha hb hab => hm a ha b hb hab) h

theorem congr (h : Ordered f l) (he : ∀ a ∈ l, g a = f a) : Ordered g l :=
  h.mono fun a ha b hb hab => by rw [he a ha, he b hb]; exact hab

theorem head_max (h : Ordered f l) (a : α) (ha : l.head? = some a) : ∀ b ∈ l, f b ≤ f a := by
  obtain ⟨as, hl⟩ := List.head?_eq_some_iff.mp ha
  subst hl
  intro b hb
  rcases List.mem_cons.mp hb with rfl | hb'
  · exact Nat.le_refl _
  · exact (List.pairwise_cons.mp h).1 b hb'

/-- Whoever joins behind all the others who are looked at is the last of them. -/
theorem filter_splice_behind (h : Ordered f l) (P : α → Bool) (x : α) (key : ℕ) (hx : P x = true)
    (hl : ∀ a ∈ l, P a = true → key ≤ f a) :
    (l.takeWhile (fun it => key ≤ f it) ++ x :: l.dropWhile (fun it => key ≤ f it)).filter P =
      l.filter P ++ [x] := by
  have hbehind : (l.dropWhile (fun it => key ≤ f it)).filter P = [] := by
    refine List.filter_eq_nil_iff.mpr fun a ha hp => ?_
    have hfail := dropWhile_fails (fun it => key ≤ f it) _ l h (fun a _ b _ ha hab => by
      simp only [decide_eq_false_iff_not] at ha ⊢
      omega) a ha
    exact of_decide_eq_false hfail (hl a ((List.dropWhile_sublist _).subset ha) hp)
  have hall : (l.takeWhile (fun it => key ≤ f it)).filter P = l.filter P := by
    calc (l.takeWhile (fun it => key ≤ f it)).filter P
      _ = (l.takeWhile (fun it => key ≤ f it)).filter P ++ (l.dropWhile (fun it => key ≤ f it)).filter P := by
        rw [hbehind, List.append_nil]
      _ = l.filter P := by rw [← List.filter_append, List.takeWhile_append_dropWhile]
  rw [List.filter_append, List.filter_cons_of_pos hx, hall, hbehind]

/-- Those who are looked at come first if the others have smaller keys. -/
theorem filter_first (h : Ordered f l) (P : α → Bool) (key : ℕ) (hp : ∀ a ∈ l, P a = true → key ≤ f a)
    (hn : ∀ a ∈ l, P a = false → f a < key) : l = l.filter P ++ l.filter (fun a => !P a) := by
  induction l with
  | nil => rfl
  | cons a l ih =>
    have hl := List.pairwise_cons.mp h
    have hrest := ih hl.2 (fun b hb => hp b (List.mem_cons_of_mem a hb))
      (fun b hb => hn b (List.mem_cons_of_mem a hb))
    cases ha : P a with
    | true =>
      rw [List.filter_cons_of_pos ha, List.filter_cons_of_neg (by simp [ha]), List.cons_append, ← hrest]
    | false =>
      have hnone : l.filter P = [] := by
        refine List.filter_eq_nil_iff.mpr fun b hb hpb => ?_
        have hle := hl.1 b hb
        have hlt := hn a List.mem_cons_self ha
        have hge := hp b (List.mem_cons_of_mem a hb) hpb
        omega
      rw [hnone, List.nil_append] at hrest
      rw [List.filter_cons_of_neg (by simp [ha]), List.filter_cons_of_pos (by simp [ha]), hnone,
        List.nil_append, ← hrest]

end Ordered

/-- The key goes down along the list, members with the same key are in order of age. -/
def Fair (f age : α → ℕ) (l : List α) : Prop :=
  l.Pairwise fun a b => f b < f a ∨ f b = f a ∧ age b < age a

namespace Fair

variable {f g age age' : α → ℕ} {l : List α}

theorem nil : Fair f age [] := List.Pairwise.nil

theorem sublist {l' : List α} (h : Fair f age l) (hs : l'.Sublist l) : Fair f age l' :=
  List.Pairwise.sublist hs h

theorem congr (h : Fair f age l) (hf : ∀ a ∈ l, g a = f a)
    (ha : ∀ a ∈ l, ∀ b ∈ l, age b < age a → age' b < age' a) : Fair g age' l :=
  List.Pairwise.imp_of_mem (fun {a b} hma hmb hab => by
    rw [hf a hma, hf b hmb]
    exact hab.imp_right fun hab => ⟨hab.1, ha a hma b hmb hab.2⟩) h

/-- The youngest one goes behind everybody with a key not below its own. -/
theorem splice (h : Fair f age l) (x : α) (hx : ∀ a ∈ l, age x < age a) :
    Fair f age (l.takeWhile (fun it => f x ≤ f it) ++ x :: l.dropWhile (fun it => f x ≤ f it)) := by
  refine pairwise_splice _ _ l x h (fun b hm hb => ?_) (fun b _ hb => ?_) (fun a _ b _ ha hab => ?_)
  · have hb' : f x ≤ f b := by simpa using hb
    have := hx b hm
    omega
  · have hb' : f b < f x := by simpa using hb
    exact Or.inl hb'
  · have ha' : f a < f x := by simpa using ha
    have hlt : f b < f x := by omega
    simpa using hlt

end Fair

end Intrusive
