import AvrOs.Intrusive.Links
import Mathlib.Data.Fintype.List
import Mathlib.Data.List.TakeWhile

/-!
# Links refine lists

Every operation on the links does to the lists what its namesake in `Lists` says, as
long as nobody is linked in twice. `LinkStore` is what the two have in common:
code written against it runs on the memory with its links and on plain lists.
-/

namespace Intrusive

variable {ι α : Type} [DecidableEq ι] [DecidableEq α]

namespace Links

/-- `*list = (*list)->next`, an empty list stays empty. -/
def pop (s : Links ι α) (i : ι) : Links ι α :=
  match s.head i with
  | none => s
  | some a => s.set (.head i) (s.next a)

/-- `member->next = *list; *list = member`. -/
def push (s : Links ι α) (i : ι) (a : α) : Links ι α :=
  (s.set (.next a) (s.head i)).set (.head i) (some a)

/-- `*list = NULL`. -/
def clear (s : Links ι α) (i : ι) : Links ι α := s.set (.head i) none

/-- `member->next = NULL`, for a member which is on no list. -/
def reset (s : Links ι α) (a : α) : Links ι α := s.set (.next a) none

def empty : Links ι α := ⟨fun _ => none, fun _ => none⟩

end Links

namespace Lists

def pop (s : Lists ι α) (i : ι) : Lists ι α := Function.update s i (s i).tail
def push (s : Lists ι α) (i : ι) (a : α) : Lists ι α := Function.update s i (a :: s i)
def clear (s : Lists ι α) (i : ι) : Lists ι α := Function.update s i []

/-- The member behind `a` on the list `i`. -/
def next (s : Lists ι α) (i : ι) (a : α) : Option α :=
  ((s i).dropWhile (fun b => b ≠ a)).tail.head?

/-- Nobody is linked in twice, on one list or on two. -/
structure Separate (s : Lists ι α) : Prop where
  nodup : ∀ i, (s i).Nodup
  disjoint : ∀ i j a, a ∈ s i → a ∈ s j → i = j

/-- The member is on no list, its link is free to be used. -/
def Free (s : Lists ι α) (a : α) : Prop := ∀ i, a ∉ s i

end Lists

/-! ### Operations on separate lists -/

namespace Lists

omit [DecidableEq α]

theorem mem_update (s : Lists ι α) (i j : ι) (as : List α) (a : α) :
    a ∈ Function.update s i as j ↔ (j = i ∧ a ∈ as) ∨ (j ≠ i ∧ a ∈ s j) := by
  by_cases h : j = i <;> simp [h]

theorem mem_splice (as : List α) (pass : α → Bool) (a b : α) :
    b ∈ as.takeWhile pass ++ a :: as.dropWhile pass ↔ b = a ∨ b ∈ as := by
  conv_rhs => rw [← List.takeWhile_append_dropWhile (p := pass) (l := as)]
  simp only [List.mem_append, List.mem_cons]
  tauto

theorem nodup_splice (as : List α) (pass : α → Bool) (a : α) (ha : a ∉ as) (h : as.Nodup) :
    (as.takeWhile pass ++ a :: as.dropWhile pass).Nodup := by
  have hp : (as.takeWhile pass ++ a :: as.dropWhile pass).Perm
      (a :: (as.takeWhile pass ++ as.dropWhile pass)) := List.perm_middle
  rw [hp.nodup_iff, List.takeWhile_append_dropWhile]
  exact List.nodup_cons.mpr ⟨ha, h⟩

theorem separate_grow (s : Lists ι α) (i : ι) (a : α) (as : List α) (h : Separate s)
    (hf : Free s a) (hnd : as.Nodup) (hm : ∀ b ∈ as, b = a ∨ b ∈ s i) :
    Separate (Function.update s i as) := by
  refine ⟨fun j => ?_, fun j k b hj hk => ?_⟩
  · by_cases hji : j = i
    · subst hji; simpa using hnd
    · simpa [Function.update_apply, hji] using h.nodup j
  · rw [mem_update] at hj hk
    rcases hj with ⟨rfl, hj⟩ | ⟨hji, hj⟩ <;> rcases hk with ⟨rfl, hk⟩ | ⟨hki, hk⟩
    · rfl
    · rcases hm b hj with rfl | hb
      · exact absurd hk (hf k)
      · exact h.disjoint _ _ b hb hk
    · rcases hm b hk with rfl | hb
      · exact absurd hj (hf j)
      · exact h.disjoint _ _ b hj hb
    · exact h.disjoint _ _ b hj hk

theorem separate_shrink (s : Lists ι α) (i : ι) (as : List α) (h : Separate s)
    (hs : as.Sublist (s i)) : Separate (Function.update s i as) := by
  refine ⟨fun j => ?_, fun j k b hj hk => ?_⟩
  · by_cases hji : j = i
    · subst hji; simpa using hs.nodup (h.nodup j)
    · simpa [Function.update_apply, hji] using h.nodup j
  · rw [mem_update] at hj hk
    have hj' : b ∈ s j := by
      rcases hj with ⟨rfl, hj⟩ | ⟨-, hj⟩
      · exact hs.subset hj
      · exact hj
    have hk' : b ∈ s k := by
      rcases hk with ⟨rfl, hk⟩ | ⟨-, hk⟩
      · exact hs.subset hk
      · exact hk
    exact h.disjoint j k b hj' hk'

end Lists

/-! ### The refinement -/

variable [Fintype α]

/-- The lists the links stand for. -/
def Links.lists (s : Links ι α) : Lists ι α := fun i => s.toList i

/-- The memory stands for these lists: every head leads through exactly the members. -/
structure Refines (s : Links ι α) (ls : Lists ι α) : Prop where
  chain : ∀ i, Chain s (s.head i) (ls i)
  separate : Lists.Separate ls

namespace Refines

variable {s : Links ι α} {ls : Lists ι α}

omit [DecidableEq ι] [DecidableEq α] in
theorem length_le (h : Refines s ls) (i : ι) : (ls i).length ≤ Fintype.card α :=
  (h.separate.nodup i).length_le_card

omit [DecidableEq ι] [DecidableEq α] in
theorem lists_eq (h : Refines s ls) : s.lists = ls := by
  funext i
  exact collect_chain s _ _ _ (h.chain i) (h.length_le i)

omit [Fintype α] [DecidableEq ι] [DecidableEq α] in
theorem head_eq (h : Refines s ls) (i : ι) : s.head i = (ls i).head? := chain_head s _ _ (h.chain i)

omit [Fintype α] [DecidableEq ι] in
theorem next_eq (h : Refines s ls) (i : ι) (a : α) (ha : a ∈ ls i) :
    s.next a = Lists.next ls i a := by
  obtain ⟨as, bs, hab⟩ := List.append_of_mem ha
  have hc := h.chain i
  have hnd := h.separate.nodup i
  rw [hab] at hc hnd
  have hd := chain_get_lastLink s (.head i) as (a :: bs) hc
  have hna : a ∉ as := fun hm => (List.nodup_append.mp hnd).2.2 a hm a (List.mem_cons_self ..) rfl
  have hdrop : (as ++ a :: bs).dropWhile (fun b => decide (b ≠ a)) = a :: bs := by
    rw [List.dropWhile_append_of_pos]
    · simp
    · intro b hb
      have hba : b ≠ a := fun e => hna (e ▸ hb)
      simpa using hba
  rw [Lists.next, hab, hdrop]
  exact chain_head s _ _ hd.2

omit [Fintype α] [DecidableEq α] in
/-- Nobody but the members of the list `i` has its place in memory changed. -/
theorem of_update (h : Refines s ls) (t : Links ι α) (i : ι) (as : List α)
    (hc : Chain t (t.head i) as) (hsep : Lists.Separate (Function.update ls i as))
    (hhead : ∀ j, j ≠ i → t.head j = s.head j)
    (hnext : ∀ j, j ≠ i → ∀ b ∈ ls j, t.next b = s.next b) :
    Refines t (Function.update ls i as) := by
  refine ⟨fun j => ?_, hsep⟩
  by_cases hji : j = i
  · subst hji; simpa using hc
  · rw [Function.update_of_ne hji, hhead j hji]
    exact chain_congr s t _ _ (hnext j hji) (h.chain j)

theorem insert (h : Refines s ls) (i : ι) (a : α) (pass : α → Bool) (hf : Lists.Free ls a) :
    Refines (s.insert i a pass) (Lists.insert ls i a pass) := by
  have hseek := seek_chain s pass (Fintype.card α) (.head i) (ls i) (h.chain i) (h.length_le i)
  have hsplit : Chain s (s.get (.head i)) ((ls i).takeWhile pass ++ (ls i).dropWhile pass) := by
    rw [List.takeWhile_append_dropWhile]
    exact h.chain i
  have hget : s.get (lastLink (.head i) ((ls i).takeWhile pass)) = ((ls i).dropWhile pass).head? :=
    chain_head s _ _ (chain_get_lastLink s _ _ _ hsplit)
  have hnd : (a :: ((ls i).takeWhile pass ++ (ls i).dropWhile pass)).Nodup := by
    rw [List.takeWhile_append_dropWhile]
    exact List.nodup_cons.mpr ⟨hf i, h.separate.nodup i⟩
  have hc := chain_splice s (.head i) a _ _ hsplit hnd (fun b _ => by simp)
  have ht : s.insert i a pass = (s.set (.next a) ((ls i).dropWhile pass).head?).set
      (lastLink (.head i) ((ls i).takeWhile pass)) (some a) := by
    simp only [Links.insert, hseek, hget]
  rw [ht]
  refine h.of_update _ i _ hc ?_ (fun j hj => ?_) (fun j hj b hb => ?_)
  · exact Lists.separate_grow ls i a _ h.separate hf
      (Lists.nodup_splice _ _ _ (hf i) (h.separate.nodup i)) (fun b hb => (Lists.mem_splice ..).mp hb)
  · have hl : Link.head j ≠ lastLink (.head i) ((ls i).takeWhile pass) := by
      intro e
      rcases lastLink_eq (Link.head i : Link ι α) ((ls i).takeWhile pass) with h' | ⟨b, _, h'⟩
      · rw [h'] at e; exact hj (by simpa using e)
      · rw [h'] at e; cases e
    rw [← Links.get_head, Links.get_set, if_neg hl, Links.get_set, if_neg (by simp)]
    rfl
  · have hba : b ≠ a := fun e => hf j (e ▸ hb)
    have hl : Link.next b ≠ lastLink (.head i) ((ls i).takeWhile pass) := by
      intro e
      rcases lastLink_eq (Link.head i : Link ι α) ((ls i).takeWhile pass) with h' | ⟨c, hc, h'⟩
      · rw [h'] at e; cases e
      · rw [h'] at e
        have hbc : b = c := by simpa using e
        have hci : c ∈ ls i := (List.takeWhile_sublist pass).subset hc
        exact hj (h.separate.disjoint j i b hb (hbc ▸ hci))
    rw [← Links.get_next, Links.get_set, if_neg hl, Links.get_set, if_neg (by simpa using hba)]
    rfl

/-- Not a single link is written if `a` is not found. -/
theorem remove_absent (h : Refines s ls) (i : ι) (a : α) (ha : a ∉ ls i) : s.remove i a = s := by
  have hpass : ∀ b ∈ ls i, decide (b ≠ a) = true := fun b hb => decide_eq_true fun e => ha (e ▸ hb)
  have hseek := seek_chain s (fun it => decide (it ≠ a)) (Fintype.card α) (.head i) (ls i)
    (h.chain i) (h.length_le i)
  rw [List.takeWhile_eq_self_iff.mpr hpass] at hseek
  have hsplit : Chain s (s.get (.head i)) (ls i ++ []) := by
    rw [List.append_nil]
    exact h.chain i
  have hget := chain_head s _ _ (chain_get_lastLink s _ _ _ hsplit)
  simp only [Links.remove, hseek, hget, List.head?_nil]

theorem remove (h : Refines s ls) (i : ι) (a : α) :
    Refines (s.remove i a) (Lists.remove ls i a) := by
  have hseek := seek_chain s (fun it => decide (it ≠ a)) (Fintype.card α) (.head i) (ls i)
    (h.chain i) (h.length_le i)
  have hsplit : Chain s (s.get (.head i)) ((ls i).takeWhile (fun it => decide (it ≠ a)) ++
      (ls i).dropWhile (fun it => decide (it ≠ a))) := by
    rw [List.takeWhile_append_dropWhile]
    exact h.chain i
  have hget := chain_head s _ _ (chain_get_lastLink s _ _ _ hsplit)
  by_cases ha : a ∈ ls i
  · obtain ⟨as, bs, hna, hab, her⟩ := List.exists_erase_eq ha
    have htake : (ls i).takeWhile (fun it => decide (it ≠ a)) = as := by
      rw [hab, List.takeWhile_append_of_pos]
      · simp
      · intro b hb
        have hba : b ≠ a := fun e => hna (e ▸ hb)
        simpa using hba
    have hdrop : (ls i).dropWhile (fun it => decide (it ≠ a)) = a :: bs := by
      rw [hab, List.dropWhile_append_of_pos]
      · simp
      · intro b hb
        have hba : b ≠ a := fun e => hna (e ▸ hb)
        simpa using hba
    rw [htake, hdrop] at hget
    rw [htake] at hseek
    have ht : s.remove i a = s.set (lastLink (.head i) as) (s.next a) := by
      simp only [Links.remove, hseek, hget, List.head?_cons]
    have hci := h.chain i
    have hndi := h.separate.nodup i
    rw [hab] at hci hndi
    have hc := chain_unlink s (.head i) a as bs hci hndi (fun b _ => by simp)
    rw [ht, Lists.remove, her]
    refine h.of_update _ i _ hc ?_ (fun j hj => ?_) (fun j hj b hb => ?_)
    · refine Lists.separate_shrink ls i _ h.separate ?_
      rw [← her]
      exact List.erase_sublist ..
    · have hl : Link.head j ≠ lastLink (.head i) as := by
        intro e
        rcases lastLink_eq (Link.head i : Link ι α) as with h' | ⟨b, _, h'⟩
        · rw [h'] at e; exact hj (by simpa using e)
        · rw [h'] at e; cases e
      rw [← Links.get_head, Links.get_set, if_neg hl]
      rfl
    · have hl : Link.next b ≠ lastLink (.head i) as := by
        intro e
        rcases lastLink_eq (Link.head i : Link ι α) as with h' | ⟨c, hcm, h'⟩
        · rw [h'] at e; cases e
        · rw [h'] at e
          have hbc : b = c := by simpa using e
          have hci : c ∈ ls i := by rw [hab]; simp [hcm]
          exact hj (h.separate.disjoint j i b hb (hbc ▸ hci))
      rw [← Links.get_next, Links.get_set, if_neg hl]
      rfl
  · rw [h.remove_absent i a ha, Lists.remove, List.erase_of_not_mem ha, Function.update_eq_self]
    exact h

omit [Fintype α]

theorem pop (h : Refines s ls) (i : ι) : Refines (s.pop i) (Lists.pop ls i) := by
  have hh := h.head_eq i
  have hc := h.chain i
  cases hl : ls i with
  | nil =>
    rw [hl] at hh
    have ht : s.pop i = s := by simp only [Links.pop, hh, List.head?_nil]
    have hu : Lists.pop ls i = ls := by
      rw [Lists.pop, hl, List.tail_nil, ← hl, Function.update_eq_self]
    rw [ht, hu]
    exact h
  | cons a as =>
    rw [hl] at hh hc
    have ht : s.pop i = s.set (.head i) (s.next a) := by simp only [Links.pop, hh, List.head?_cons]
    rw [ht, Lists.pop, hl]
    refine h.of_update _ i _ ?_ ?_ (fun j hj => ?_) (fun j hj b hb => rfl)
    · have hg : (s.set (.head i) (s.next a)).head i = s.next a := by simp [Links.set]
      rw [hg]
      exact chain_congr s _ _ _ (fun b _ => rfl) hc.2
    · refine Lists.separate_shrink ls i _ h.separate ?_
      rw [hl]
      exact List.tail_sublist _
    · simp [Links.set, hj]

theorem push (h : Refines s ls) (i : ι) (a : α) (hf : Lists.Free ls a) :
    Refines (s.push i a) (Lists.push ls i a) := by
  have hc := chain_splice s (.head i) a [] (ls i) (h.chain i)
    (List.nodup_cons.mpr ⟨hf i, h.separate.nodup i⟩) (fun b _ => by simp)
  have ht : s.push i a = (s.set (.next a) (ls i).head?).set (.head i) (some a) := by
    simp only [Links.push, h.head_eq i]
  rw [ht]
  refine h.of_update _ i _ hc ?_ (fun j hj => ?_) (fun j hj b hb => ?_)
  · exact Lists.separate_grow ls i a _ h.separate hf
      (List.nodup_cons.mpr ⟨hf i, h.separate.nodup i⟩) (fun b hb => List.mem_cons.mp hb)
  · simp [Links.set, hj]
  · have hba : b ≠ a := fun e => hf j (e ▸ hb)
    simp [Links.set, hba]

theorem clear (h : Refines s ls) (i : ι) : Refines (s.clear i) (Lists.clear ls i) := by
  refine h.of_update _ i _ ?_ ?_ (fun j hj => ?_) (fun j hj b hb => rfl)
  · show (s.clear i).head i = none
    simp [Links.clear, Links.set]
  · exact Lists.separate_shrink ls i _ h.separate (List.nil_sublist _)
  · simp [Links.clear, Links.set, hj]

theorem reset (h : Refines s ls) (a : α) (hf : Lists.Free ls a) :
    Refines (s.reset a) ls := by
  refine ⟨fun i => ?_, h.separate⟩
  refine chain_congr s _ _ _ (fun b hb => ?_) (h.chain i)
  have hba : b ≠ a := fun e => hf i (e ▸ hb)
  simp [Links.reset, Links.set, hba]

omit [DecidableEq ι] [DecidableEq α] in
theorem empty : Refines (Links.empty : Links ι α) (fun _ => []) :=
  ⟨fun _ => rfl, ⟨fun _ => List.nodup_nil, fun _ _ _ h => absurd h List.not_mem_nil⟩⟩

end Refines

/-! ### What the two levels have in common -/

/-- The operations on lists, for memory with links and for plain lists alike. -/
class LinkStore (S : Type → Type → Type) where
  head {ι α : Type} : S ι α → ι → Option α
  next {ι α : Type} [DecidableEq α] : S ι α → ι → α → Option α
  toList {ι α : Type} [Fintype α] : S ι α → ι → List α
  insert {ι α : Type} [DecidableEq ι] [DecidableEq α] [Fintype α] :
    S ι α → ι → α → (α → Bool) → S ι α
  remove {ι α : Type} [DecidableEq ι] [DecidableEq α] [Fintype α] : S ι α → ι → α → S ι α
  pop {ι α : Type} [DecidableEq ι] [DecidableEq α] : S ι α → ι → S ι α
  push {ι α : Type} [DecidableEq ι] [DecidableEq α] : S ι α → ι → α → S ι α
  clear {ι α : Type} [DecidableEq ι] [DecidableEq α] : S ι α → ι → S ι α
  reset {ι α : Type} [DecidableEq ι] [DecidableEq α] : S ι α → α → S ι α
  empty {ι α : Type} : S ι α

instance : LinkStore Links where
  head s i := s.head i
  next s _ a := s.next a
  toList s i := s.toList i
  insert := Links.insert
  remove := Links.remove
  pop := Links.pop
  push := Links.push
  clear := Links.clear
  reset := Links.reset
  empty := Links.empty

instance : LinkStore Lists where
  head s i := (s i).head?
  next := Lists.next
  toList s i := s i
  insert := Lists.insert
  remove := Lists.remove
  pop := Lists.pop
  push := Lists.push
  clear := Lists.clear
  reset s _ := s
  empty _ := []

end Intrusive
