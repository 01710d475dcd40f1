import AvrOs.Intrusive.Ordered

/-!
# Stable sorting

Greatest key first, and members with the same key in the order they came in. A list which is
kept in order one member at a time is the sorted list of all of them.
-/

namespace Intrusive

variable {α : Type} {f g : α → ℕ} {l : List α}

/-- A list in order is known once it is known who comes first among equals. -/
theorem Ordered.ext {l' : List α} (h : Ordered f l) (h' : Ordered f l')
    (he : ∀ n, l.filter (fun a => f a = n) = l'.filter (fun a => f a = n)) : l = l' := by
  induction l generalizing l' with
  | nil =>
    cases l' with
    | nil => rfl
    | cons b l' =>
      have hb := he (f b)
      rw [List.filter_cons_of_pos (by simp)] at hb
      cases hb
  | cons a l ih =>
    cases l' with
    | nil =>
      have ha := he (f a)
      rw [List.filter_cons_of_pos (by simp)] at ha
      cases ha
    | cons b l' =>
      have hmem : ∀ x, x ∈ a :: l ↔ x ∈ b :: l' := fun x => by
        have hx : x ∈ (a :: l).filter (fun y => f y = f x) ↔ x ∈ (b :: l').filter (fun y => f y = f x) := by
          rw [he]
        simpa only [List.mem_filter, decide_true, and_true] using hx
      have hab : f b ≤ f a := Ordered.head_max h a rfl b ((hmem b).mpr List.mem_cons_self)
      have hba : f a ≤ f b := Ordered.head_max h' b rfl a ((hmem a).mp List.mem_cons_self)
      have hfirst := he (f a)
      rw [List.filter_cons_of_pos (by simp), List.filter_cons_of_pos (by simp; omega)] at hfirst
      injection hfirst with hfirst _
      subst hfirst
      have hrest : l = l' := by
        refine ih h.of_cons h'.of_cons fun n => ?_
        have hn := he n
        rw [List.filter_cons, List.filter_cons] at hn
        split at hn
        · injection hn
        · exact hn
      rw [hrest]

/-- In a list in order those with a key large enough are in front. -/
theorem Ordered.split (h : Ordered f l) (key : ℕ) :
    l.takeWhile (fun a => key ≤ f a) = l.filter (fun a => key ≤ f a) ∧
      l.dropWhile (fun a => key ≤ f a) = l.filter (fun a => f a < key) := by
  induction l with
  | nil => exact ⟨rfl, rfl⟩
  | cons a l ih =>
    obtain ⟨htake, hdrop⟩ := ih h.of_cons
    rcases Nat.lt_or_ge (f a) key with hlt | hge
    · have hall : ∀ b ∈ l, f b < key := fun b hb => by
        have hle := (List.pairwise_cons.mp h).1 b hb
        omega
      have hnone : l.filter (fun b => decide (key ≤ f b)) = [] :=
        List.filter_eq_nil_iff.mpr fun b hb => by simpa using hall b hb
      have hself : l.filter (fun b => decide (f b < key)) = l :=
        List.filter_eq_self.mpr fun b hb => by simpa using hall b hb
      have hfail : decide (key ≤ f a) = false := decide_eq_false (by omega)
      simp only [List.takeWhile_cons, List.dropWhile_cons, List.filter_cons, hfail, hlt, decide_true,
        Bool.false_eq_true, if_false, if_true, hnone, hself, and_self]
    · have hfail : decide (f a < key) = false := decide_eq_false (by omega)
      have hpass : decide (key ≤ f a) = true := decide_eq_true hge
      simp only [List.takeWhile_cons, List.dropWhile_cons, List.filter_cons, hfail, hpass,
        Bool.false_eq_true, if_false, if_true, htake, hdrop, and_self]

/-- Greatest key first, those with the same key stay in order. -/
def stableSort (f : α → ℕ) (l : List α) : List α := l.mergeSort fun a b => f b ≤ f a

theorem mem_stableSort {a : α} : a ∈ stableSort f l ↔ a ∈ l := List.mem_mergeSort

theorem stableSort_perm (f : α → ℕ) (l : List α) : (stableSort f l).Perm l := List.mergeSort_perm l _

theorem stableSort_ordered (f : α → ℕ) (l : List α) : Ordered f (stableSort f l) := by
  have htrans : ∀ a b c : α, decide (f b ≤ f a) = true → decide (f c ≤ f b) = true → decide (f c ≤ f a) = true := by
    intro a b c hab hbc
    simp only [decide_eq_true_eq] at hab hbc ⊢
    omega
  have htotal : ∀ a b : α, (decide (f b ≤ f a) || decide (f a ≤ f b)) = true := by
    intro a b
    simp only [Bool.or_eq_true, decide_eq_true_eq]
    omega
  have hp := List.pairwise_mergeSort htrans htotal l
  exact hp.imp fun h => of_decide_eq_true h

/-- Among equals nobody gets ahead of anybody. -/
theorem filter_stableSort (f : α → ℕ) (l : List α) (n : ℕ) :
    (stableSort f l).filter (fun a => f a = n) = l.filter (fun a => f a = n) := by
  have hequal : (l.filter fun a => f a = n).Pairwise fun a b => decide (f b ≤ f a) = true := by
    refine List.Pairwise.imp_of_mem (R := fun _ _ => True) (fun {a b} ha hb _ => ?_)
      (List.pairwise_of_forall fun _ _ => trivial)
    have ha' := of_decide_eq_true (List.mem_filter.mp ha).2
    have hb' := of_decide_eq_true (List.mem_filter.mp hb).2
    exact decide_eq_true (by omega)
  have hsub := List.sublist_mergeSort
    (fun a b c hab hbc => by
      simp only [decide_eq_true_eq] at hab hbc ⊢
      omega)
    (fun a b => by
      simp only [Bool.or_eq_true, decide_eq_true_eq]
      omega) hequal List.filter_sublist
  have hfilter := hsub.filter fun a => f a = n
  rw [List.filter_filter] at hfilter
  simp only [Bool.and_self] at hfilter
  exact (hfilter.eq_of_length ((stableSort_perm f l).filter _).length_eq.symm).symm

theorem eq_stableSort {l' : List α} (h : Ordered f l')
    (he : ∀ n, l'.filter (fun a => f a = n) = l.filter (fun a => f a = n)) : l' = stableSort f l :=
  h.ext (stableSort_ordered f l) fun n => (he n).trans (filter_stableSort f l n).symm

theorem stableSort_congr (h : ∀ a ∈ l, g a = f a) : stableSort g l = stableSort f l := by
  refine (eq_stableSort ((stableSort_ordered f l).congr fun a ha => h a (mem_stableSort.mp ha)) fun n => ?_).symm
  have hsame : ∀ l' : List α, (∀ a ∈ l', a ∈ l) →
      l'.filter (fun a => decide (g a = n)) = l'.filter fun a => decide (f a = n) := fun l' hl =>
    List.filter_congr fun a ha => by rw [h a (hl a ha)]
  rw [hsame _ fun a ha => mem_stableSort.mp ha, hsame l fun _ ha => ha, filter_stableSort]

/-- Whoever comes in last goes behind everybody with a key not below its own. -/
theorem stableSort_append (f : α → ℕ) (l : List α) (x : α) :
    stableSort f (l ++ [x]) = (stableSort f l).takeWhile (fun it => f x ≤ f it) ++
      x :: (stableSort f l).dropWhile (fun it => f x ≤ f it) := by
  have hord := stableSort_ordered f l
  refine (eq_stableSort (hord.splice x (f x) (by omega) (by omega)) fun n => ?_).symm
  by_cases hn : f x = n
  · subst hn
    have hkey : ∀ a ∈ stableSort f l, decide (f a = f x) = true → f x ≤ f a := fun a _ ha =>
      Nat.le_of_eq (of_decide_eq_true ha).symm
    rw [hord.filter_splice_behind _ x (f x) (by simp) hkey, filter_stableSort, List.filter_append]
    simp
  · rw [filter_splice _ _ _ x (by simpa using hn), filter_stableSort, List.filter_append]
    simp [hn]

theorem stableSort_erase [DecidableEq α] (f : α → ℕ) (l : List α) (x : α) :
    stableSort f (l.erase x) = (stableSort f l).erase x := by
  refine (eq_stableSort ((stableSort_ordered f l).sublist List.erase_sublist) fun n => ?_).symm
  rw [← List.erase_filter, ← List.erase_filter, filter_stableSort]

/-- Whoever comes first has the greatest key, and came in before all the others with this key. -/
theorem stableSort_head {a b : α} (ha : (stableSort f l).head? = some a) (hb : b ∈ l) (hne : b ≠ a) :
    f b < f a ∨ f b = f a ∧ [a, b].Sublist l := by
  have hmax := (stableSort_ordered f l).head_max a ha b (mem_stableSort.mpr hb)
  rcases Nat.lt_or_eq_of_le hmax with hlt | heq
  · exact Or.inl hlt
  · refine Or.inr ⟨heq, ?_⟩
    obtain ⟨rest, hl⟩ := List.head?_eq_some_iff.mp ha
    have hrest : b ∈ rest := by
      have hb' := mem_stableSort (f := f).mpr hb
      rw [hl] at hb'
      exact (List.mem_cons.mp hb').resolve_left hne
    have hsub : [a, b].Sublist (stableSort f l) := by
      rw [hl]
      exact (List.singleton_sublist.mpr hrest).cons_cons a
    have hfilter := hsub.filter fun x => f x = f a
    rw [filter_stableSort, List.filter_cons_of_pos (by simp), List.filter_cons_of_pos (by simpa using heq)]
      at hfilter
    exact hfilter.trans List.filter_sublist

end Intrusive
