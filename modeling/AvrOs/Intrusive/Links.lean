import Mathlib.Data.Fintype.Card
import Mathlib.Data.List.Nodup
import Mathlib.Logic.Function.Basic

/-!
# Intrusive singly linked lists

The members of type `α` carry the link to their successor, the lists of type `ι`
are nothing but the address of a first member. One link is shared by every list a
member may be on, so the operations are right only as long as nobody is linked
twice. `Links` is the memory with its links, `Lists` is what the memory stands for
and `Refines` says when it does.
-/

namespace Intrusive

/-- The two kinds of places which hold a link: the head of a list, the member itself. -/
inductive Link (ι α : Type) where
  | head (i : ι)
  | next (a : α)
  deriving DecidableEq

/-- Memory: the head of every list and the link inside every member. -/
structure Links (ι α : Type) where
  head : ι → Option α
  next : α → Option α

/-- The members of every list, first to last. -/
abbrev Lists (ι α : Type) := ι → List α

variable {ι α : Type} [DecidableEq ι] [DecidableEq α]

namespace Links

def get (s : Links ι α) : Link ι α → Option α
  | .head i => s.head i
  | .next a => s.next a

def set (s : Links ι α) (l : Link ι α) (v : Option α) : Links ι α :=
  match l with
  | .head i => { s with head := Function.update s.head i v }
  | .next a => { s with next := Function.update s.next a v }

omit [DecidableEq ι] [DecidableEq α] in
@[simp] theorem get_head (s : Links ι α) (i : ι) : s.get (.head i) = s.head i := rfl

omit [DecidableEq ι] [DecidableEq α] in
@[simp] theorem get_next (s : Links ι α) (a : α) : s.get (.next a) = s.next a := rfl

theorem get_set (s : Links ι α) (l l' : Link ι α) (v : Option α) :
    (s.set l v).get l' = if l' = l then v else s.get l' := by
  cases l <;> cases l' <;> simp [get, set, Function.update_apply]

/-- Follows the links for as long as the members pass, answers with the link it stopped at. -/
def seek (s : Links ι α) (pass : α → Bool) : ℕ → Link ι α → Link ι α
  | 0, l => l
  | fuel + 1, l => match s.get l with
    | none => l
    | some it => if pass it then s.seek pass fuel (.next it) else l

/-- The members met when the links are followed from `v` to the end. -/
def collect (s : Links ι α) : ℕ → Option α → List α
  | 0, _ => []
  | _, none => []
  | fuel + 1, some a => a :: s.collect fuel (s.next a)

variable [Fintype α]

def toList (s : Links ι α) (i : ι) : List α := s.collect (Fintype.card α) (s.head i)

/-- Links `a` in ahead of the first member which does not pass. -/
def insert (s : Links ι α) (i : ι) (a : α) (pass : α → Bool) : Links ι α :=
  let l := s.seek pass (Fintype.card α) (.head i)
  (s.set (.next a) (s.get l)).set l (some a)

/-- Links `a` out, a list without it stays as it is. -/
def remove (s : Links ι α) (i : ι) (a : α) : Links ι α :=
  let l := s.seek (fun it => it ≠ a) (Fintype.card α) (.head i)
  match s.get l with
  | none => s
  | some it => s.set l (s.next it)

end Links

namespace Lists

def insert (s : Lists ι α) (i : ι) (a : α) (pass : α → Bool) : Lists ι α :=
  Function.update s i ((s i).takeWhile pass ++ a :: (s i).dropWhile pass)

def remove (s : Lists ι α) (i : ι) (a : α) : Lists ι α := Function.update s i ((s i).erase a)

end Lists

/-! ### Chains -/

/-- The links lead from `v` through exactly these members and end there. -/
def Chain (s : Links ι α) : Option α → List α → Prop
  | v, [] => v = none
  | v, a :: as => v = some a ∧ Chain s (s.next a) as

/-- The last link of a chain which starts at the link `l`. -/
def lastLink : Link ι α → List α → Link ι α
  | l, [] => l
  | _, a :: as => lastLink (.next a) as

omit [DecidableEq ι] [DecidableEq α] in
theorem chain_head (s : Links ι α) (v : Option α) (as : List α) (h : Chain s v as) :
    v = as.head? := by
  cases as with
  | nil => exact h
  | cons a as => exact h.1

omit [DecidableEq ι] [DecidableEq α] in
theorem chain_congr (s t : Links ι α) (v : Option α) (as : List α)
    (hn : ∀ a ∈ as, t.next a = s.next a) (h : Chain s v as) : Chain t v as := by
  induction as generalizing v with
  | nil => exact h
  | cons a as ih =>
    obtain ⟨hv, hc⟩ := h
    have ha : t.next a = s.next a := hn a (List.mem_cons_self ..)
    refine ⟨hv, ?_⟩
    rw [ha]
    exact ih _ (fun b hb => hn b (List.mem_cons_of_mem _ hb)) hc

omit [DecidableEq ι] [DecidableEq α] in
theorem chain_get_lastLink (s : Links ι α) (l : Link ι α) (as bs : List α)
    (h : Chain s (s.get l) (as ++ bs)) : Chain s (s.get (lastLink l as)) bs := by
  induction as generalizing l with
  | nil => exact h
  | cons a as ih => exact ih (.next a) h.2

omit [DecidableEq ι] [DecidableEq α] in
theorem lastLink_eq (l : Link ι α) (as : List α) :
    lastLink l as = l ∨ ∃ a ∈ as, lastLink l as = .next a := by
  induction as generalizing l with
  | nil => exact Or.inl rfl
  | cons a as ih =>
    rcases ih (.next a) with h | ⟨b, hb, h⟩
    · exact Or.inr ⟨a, List.mem_cons_self .., h⟩
    · exact Or.inr ⟨b, List.mem_cons_of_mem _ hb, h⟩

omit [DecidableEq ι] [DecidableEq α] in
theorem seek_chain (s : Links ι α) (pass : α → Bool) (fuel : ℕ) (l : Link ι α) (as : List α)
    (h : Chain s (s.get l) as) (hf : as.length ≤ fuel) :
    s.seek pass fuel l = lastLink l (as.takeWhile pass) := by
  induction as generalizing fuel l with
  | nil =>
    have hg : s.get l = none := h
    cases fuel <;> simp [Links.seek, hg, lastLink]
  | cons a as ih =>
    cases fuel with
    | zero => simp at hf
    | succ fuel =>
      have hl : as.length ≤ fuel := by simpa using hf
      simp only [Links.seek, h.1]
      by_cases hp : pass a = true
      · simp only [hp, if_true, List.takeWhile_cons, lastLink]
        exact ih fuel (.next a) h.2 hl
      · simp [hp, lastLink]

omit [DecidableEq ι] [DecidableEq α] in
theorem collect_chain (s : Links ι α) (fuel : ℕ) (v : Option α) (as : List α)
    (h : Chain s v as) (hf : as.length ≤ fuel) : s.collect fuel v = as := by
  induction as generalizing fuel v with
  | nil =>
    have hv : v = none := h
    subst hv
    cases fuel <;> rfl
  | cons a as ih =>
    obtain ⟨hv, hc⟩ := h
    subst hv
    cases fuel with
    | zero => simp at hf
    | succ fuel =>
      have hl : as.length ≤ fuel := by simpa using hf
      simp only [Links.collect, ih fuel _ hc hl]

/-- Cuts the chain behind `as` and puts `a` in between. -/
theorem chain_splice (s : Links ι α) (l : Link ι α) (a : α) (as bs : List α)
    (h : Chain s (s.get l) (as ++ bs)) (hnd : (a :: (as ++ bs)).Nodup)
    (hl : ∀ b ∈ a :: (as ++ bs), l ≠ .next b) :
    let t := (s.set (.next a) bs.head?).set (lastLink l as) (some a)
    Chain t (t.get l) (as ++ a :: bs) := by
  induction as generalizing l with
  | nil =>
    have hal : Link.next a ≠ l := fun e => hl a (List.mem_cons_self ..) e.symm
    simp only [lastLink, List.nil_append, List.nodup_cons] at *
    refine ⟨by simp [Links.get_set], ?_⟩
    have hna : (((s.set (.next a) bs.head?).set l (some a)).next a) = bs.head? := by
      rw [← Links.get_next, Links.get_set, if_neg hal, Links.get_set, if_pos rfl]
    rw [hna, ← chain_head s _ bs h]
    refine chain_congr s _ _ bs (fun b hb => ?_) h
    have hba : b ≠ a := fun e => hnd.1 (e ▸ hb)
    have hbl : Link.next b ≠ l := fun e => hl b (List.mem_cons_of_mem _ hb) e.symm
    rw [← Links.get_next, Links.get_set, if_neg hbl, Links.get_set, if_neg (by simpa using hba)]
    rfl
  | cons x as ih =>
    have hx : s.get l = some x := h.1
    have hxa : x ≠ a := by
      intro e
      simp [e] at hnd
    have hnd' : (a :: (as ++ bs)).Nodup := by
      simp only [List.cons_append, List.nodup_cons, List.mem_cons] at hnd ⊢
      exact ⟨fun e => hnd.1 (Or.inr e), hnd.2.2⟩
    have hl' : ∀ b ∈ a :: (as ++ bs), Link.next x ≠ (Link.next b : Link ι α) := by
      intro b hb e
      simp only [Link.next.injEq] at e
      subst e
      simp only [List.cons_append, List.nodup_cons, List.mem_cons] at hnd hb
      rcases hb with hb | hb
      · exact hxa hb
      · exact hnd.2.1 hb
    have hc := ih (.next x) h.2 hnd' hl'
    refine ⟨?_, hc⟩
    have hlx : l ≠ lastLink (Link.next x) as := by
      intro e
      rcases lastLink_eq (Link.next x : Link ι α) as with h' | ⟨b, hb, h'⟩
      · exact hl x (by simp) (e.trans h')
      · exact hl b (by simp [hb]) (e.trans h')
    have hla : l ≠ .next a := hl a (List.mem_cons_self ..)
    show (((s.set (.next a) bs.head?).set (lastLink l (x :: as)) (some a)).get l) = some x
    rw [lastLink, Links.get_set, if_neg hlx, Links.get_set, if_neg hla, hx]

/-- Cuts `a` out of the chain. -/
theorem chain_unlink (s : Links ι α) (l : Link ι α) (a : α) (as bs : List α)
    (h : Chain s (s.get l) (as ++ a :: bs)) (hnd : (as ++ a :: bs).Nodup)
    (hl : ∀ b ∈ as ++ a :: bs, l ≠ .next b) :
    let t := s.set (lastLink l as) (s.next a)
    Chain t (t.get l) (as ++ bs) := by
  induction as generalizing l with
  | nil =>
    simp only [lastLink, List.nil_append] at *
    have hna : (s.set l (s.next a)).get l = s.next a := by rw [Links.get_set, if_pos rfl]
    rw [hna]
    refine chain_congr s _ _ bs (fun b hb => ?_) h.2
    have hbl : Link.next b ≠ l := fun e => hl b (List.mem_cons_of_mem _ hb) e.symm
    rw [← Links.get_next, Links.get_set, if_neg hbl]
    rfl
  | cons x as ih =>
    have hx : s.get l = some x := h.1
    have hnd' : x ∉ as ++ a :: bs ∧ (as ++ a :: bs).Nodup := by simpa using hnd
    have hl' : ∀ b ∈ as ++ a :: bs, Link.next x ≠ (Link.next b : Link ι α) := by
      intro b hb e
      simp only [Link.next.injEq] at e
      exact hnd'.1 (e ▸ hb)
    refine ⟨?_, ih (.next x) h.2 hnd'.2 hl'⟩
    have hlx : l ≠ lastLink (Link.next x) as := by
      intro e
      rcases lastLink_eq (Link.next x : Link ι α) as with h' | ⟨b, hb, h'⟩
      · exact hl x (by simp) (e.trans h')
      · exact hl b (by simp [hb]) (e.trans h')
    show ((s.set (lastLink l (x :: as)) (s.next a)).get l) = some x
    rw [lastLink, Links.get_set, if_neg hlx, hx]

end Intrusive
