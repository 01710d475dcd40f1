import Mathlib.Data.List.Infix

/-!
# What has happened last

The newest entry of a log comes first. `Since p q` is a log with an entry of the kind `p`, and with none of
the kind `q` after it.
-/

namespace Transition

variable {α : Type} {p q : α → Prop} {x : α} {log : List α}

inductive Since (p q : α → Prop) : List α → Prop where
  | now {x : α} {log : List α} (h : p x) : Since p q (x :: log)
  | still {x : α} {log : List α} (h : ¬ q x) (rest : Since p q log) : Since p q (x :: log)

theorem Since.split (h : Since p q log) :
    ∃ later x earlier, log = later ++ x :: earlier ∧ p x ∧ ∀ y ∈ later, ¬ q y := by
  induction h with
  | now h => exact ⟨[], _, _, rfl, h, fun y hy => absurd hy List.not_mem_nil⟩
  | @still y _ h _ ih =>
    obtain ⟨later, x, earlier, he, hx, hq⟩ := ih
    refine ⟨y :: later, x, earlier, by rw [he, List.cons_append], hx, fun z hz => ?_⟩
    rcases List.mem_cons.mp hz with hz | hz
    · exact hz ▸ h
    · exact hq z hz

/-- Whatever is spent has been provided before, and has not been taken since. Having provided it is good
for as long as nobody takes it. -/
structure Account (provides takes spends : α → Prop) (left : Prop) (log : List α) : Prop where
  left : left → Since provides takes log
  spent : ∀ x earlier, x :: earlier <:+ log → spends x → Since provides takes earlier

namespace Account

variable {provides takes spends : α → Prop} {left left' : Prop}

theorem nil (h : ¬ left) : Account provides takes spends left [] where
  left hl := absurd hl h
  spent x earlier hs := by simp at hs

theorem cons (h : Account provides takes spends left log) (hs : spends x → left)
    (hl : left' → provides x ∨ left ∧ ¬ takes x) : Account provides takes spends left' (x :: log) where
  left hleft := by
    rcases hl hleft with hp | ⟨hold, ht⟩
    · exact .now hp
    · exact .still ht (h.left hold)
  spent y earlier hy hspends := by
    rcases List.suffix_cons_iff.mp hy with he | hy
    · injection he with he hlog
      rw [hlog]
      exact h.left (hs (he ▸ hspends))
    · exact h.spent y earlier hy hspends

/-- Entries of others. -/
theorem append (h : Account provides takes spends left log) (es : List α) (hes : ∀ y ∈ es, ¬ spends y ∧ ¬ takes y)
    (hl : left' → left) : Account provides takes spends left' (es ++ log) := by
  induction es with
  | nil => exact ⟨fun hleft => h.left (hl hleft), h.spent⟩
  | cons y es ih =>
    have hy := hes y List.mem_cons_self
    exact (ih fun z hz => hes z (List.mem_cons_of_mem y hz)).cons (fun hs => absurd hs hy.1) fun hleft => .inr ⟨hleft, hy.2⟩

end Account

end Transition
