import AvrOs.Intrusive.Stable
import AvrOs.Placement

/-!
# Lists of tasks

Whatever is done to a list of tasks, it is the list of those who are on it in a stable order by
priority. Priorities of tasks on the list may change, as long as they are queued again.
-/

namespace AvrOs
open Intrusive Kernel

/-- What is done to a list. -/
inductive ListOp (c : Config) where
  | insert (t : Place c)
  | remove (t : Place c)
  | requeue (t : Place c) (priority : Byte)

variable {c : Config} {S : Type → Type → Type} [LinkStore S]

def ListOp.apply (list : ListId c) (k : Kernel c S) : ListOp c → Kernel c S
  | .insert t => k.osListInsert list t (k.priority t)
  | .remove t => k.osListRemove list t
  | .requeue t p => (k.setPriority t p.toNat).osRequeue t

/-- The task is on no list at all. -/
def Unlinked (k : Kernel c S) (t : Place c) : Prop := ∀ i, t ∉ LinkStore.toList k.links i

/-- A task has one link only. Whoever is queued again is sent to the list by its own fields. -/
def ListOp.legal (list : ListId c) (k : Kernel c S) : ListOp c → Prop
  | .insert t => Unlinked k t
  | .remove _ => True
  | .requeue t _ => k.priorityList t = some list ∧ ∀ i, t ∈ LinkStore.toList k.links i → i = list

def performed (list : ListId c) (k : Kernel c S) (ops : List (ListOp c)) : Kernel c S :=
  ops.foldl (ListOp.apply list) k

def AllLegal (list : ListId c) (k : Kernel c S) (ops : List (ListOp c)) : Prop :=
  ∀ before op after, ops = before ++ op :: after → op.legal list (performed list k before)

/-! ### What the list is to be -/

/-- The tasks on the list, in the order they have been inserted or queued again. -/
def ListOp.arrive (present : List (Place c)) : ListOp c → List (Place c)
  | .insert t => present ++ [t]
  | .remove t => present.erase t
  | .requeue t _ => present.erase t ++ [t]

def arrivals (ops : List (ListOp c)) : List (Place c) := ops.foldl ListOp.arrive []

/-- The task has been on the list with this priority ever since. -/
def Held (list : ListId c) (k : Kernel c S) (before after : List (ListOp c)) (t : Place c) (p : ℕ) : Prop :=
  ∀ n ≤ after.length, t ∈ LinkStore.toList (performed list k (before ++ after.take n)).links list ∧
    (performed list k (before ++ after.take n)).priority t = p

/-- Nobody is queued again without a new priority. -/
def AllChange (list : ListId c) (k : Kernel c S) (ops : List (ListOp c)) : Prop :=
  ∀ before t p after, ops = before ++ ListOp.requeue t p :: after →
    (performed list k before).priority t ≠ p.toNat

section
variable {list : ListId c} {k : Kernel c S} {ops : List (ListOp c)} {op : ListOp c}

theorem performed_snoc (list : ListId c) (k : Kernel c S) (ops : List (ListOp c)) (op : ListOp c) :
    performed list k (ops ++ [op]) = op.apply list (performed list k ops) := by
  simp only [performed, List.foldl_append, List.foldl_cons, List.foldl_nil]

theorem arrivals_snoc (ops : List (ListOp c)) (op : ListOp c) :
    arrivals (ops ++ [op]) = op.arrive (arrivals ops) := by
  simp only [arrivals, List.foldl_append, List.foldl_cons, List.foldl_nil]

theorem append_eq_snoc {before after : List (ListOp c)} {x : ListOp c} (h : ops ++ [op] = before ++ x :: after) :
    (before = ops ∧ x = op) ∨ ∃ rest, ops = before ++ x :: rest := by
  rcases List.eq_nil_or_concat after with rfl | ⟨rest, y, rfl⟩
  · obtain ⟨rfl, hx⟩ := List.append_inj' h rfl
    injection hx with hx _
    exact Or.inl ⟨rfl, hx.symm⟩
  · rw [List.concat_eq_append, ← List.cons_append, ← List.append_assoc] at h
    exact Or.inr ⟨rest, (List.append_inj' h rfl).1⟩

theorem AllLegal.nil : AllLegal list k [] := fun before op after he => by simp at he

theorem AllLegal.snoc (h : AllLegal list k (ops ++ [op])) :
    AllLegal list k ops ∧ op.legal list (performed list k ops) := by
  refine ⟨fun before x after he => h before x (after ++ [op]) ?_, h ops op [] rfl⟩
  rw [he]
  simp

theorem AllLegal.append (h : AllLegal list k ops) (hop : op.legal list (performed list k ops)) :
    AllLegal list k (ops ++ [op]) := by
  intro before x after he
  rcases append_eq_snoc he with ⟨rfl, rfl⟩ | ⟨rest, hrest⟩
  · exact hop
  · exact h before x rest hrest

theorem AllChange.append (h : AllChange list k ops)
    (hop : ∀ t p, op = .requeue t p → (performed list k ops).priority t ≠ p.toNat) :
    AllChange list k (ops ++ [op]) := by
  intro before t p after he
  rcases append_eq_snoc he with ⟨rfl, hx⟩ | ⟨rest, hrest⟩
  · exact hop t p hx.symm
  · exact h before t p rest hrest

theorem AllChange.snoc (h : AllChange list k (ops ++ [op])) : AllChange list k ops ∧
    ∀ t p, op = .requeue t p → (performed list k ops).priority t ≠ p.toNat := by
  refine ⟨fun before t p after he => h before t p (after ++ [op]) ?_, fun t p he => h ops t p [] ?_⟩
  · rw [he]
    simp
  · rw [he]

end

/-! ### One operation -/

section
variable {list : ListId c} {k : Kernel c Links} {present : List (Place c)}

/-- The memory holds lists, and on this one are those who are present. -/
structure Serving (list : ListId c) (present : List (Place c)) (k : Kernel c Links)
    (s : Lists (ListId c) (Place c)) : Prop where
  refines : Refines k.links s
  sorted : s list = stableSort k.priority present
  nodup : present.Nodup

theorem Serving.toList {s : Lists (ListId c) (Place c)} (h : Serving list present k s) (i : ListId c) :
    LinkStore.toList k.links i = s i := congrFun h.refines.lists_eq i

theorem Serving.mem_present {s : Lists (ListId c) (Place c)} (h : Serving list present k s) {t : Place c} :
    t ∈ LinkStore.toList k.links list ↔ t ∈ present := by
  rw [h.toList, h.sorted, mem_stableSort]

theorem Serving.free {s : Lists (ListId c) (Place c)} (h : Serving list present k s) {t : Place c}
    (ht : Unlinked k t) : Lists.Free s t := fun i hm => ht i (by rwa [h.toList])

theorem nodup_snoc {t : Place c} (h : present.Nodup) (ht : t ∉ present) : (present ++ [t]).Nodup := by
  rw [List.nodup_append]
  refine ⟨h, List.nodup_singleton t, fun a ha b hb => ?_⟩
  rw [List.mem_singleton.mp hb]
  rintro rfl
  exact ht ha

/-- A task of the list which moves, or one which joins it, goes to its place. -/
theorem Serving.requeue {s : Lists (ListId c) (Place c)} (h : Serving list present k s) {t : Place c} {p : Byte}
    (hop : (ListOp.requeue t p).legal list k) :
    ∃ s', Serving list (ListOp.arrive present (.requeue t p)) ((k.setPriority t p.toNat).osRequeue t) s' := by
  obtain ⟨hlist, halone⟩ := hop
  have hfree : Lists.Free (Lists.remove s list t) t := fun i hm => by
    obtain ⟨hi, hne⟩ := (Lists.mem_remove s list i t t h.refines.separate).mp hm
    exact hne ⟨halone i (by rwa [h.toList]), rfl⟩
  have hgone : t ∉ present.erase t := h.nodup.not_mem_erase
  have hsame : stableSort (k.setPriority t p.toNat).priority (present.erase t) =
      stableSort k.priority (present.erase t) := stableSort_congr fun a ha => by
    have hne : a ≠ t := fun he => hgone (he ▸ ha)
    rw [setPriority_priority, if_neg hne]
  have hprio : ((k.setPriority t p.toNat).osRequeue t).priority = (k.setPriority t p.toNat).priority :=
    funext fun u => by rw [requeue_priority, setPriority_priority]
  refine ⟨Lists.insert (Lists.remove s list t) list t fun it =>
    (k.setPriority t p.toNat).priority t ≤ (k.setPriority t p.toNat).priority it, ?_, ?_, ?_⟩
  · unfold osRequeue
    rw [setPriority_list, hlist]
    exact (h.refines.remove list t).insert list t _ hfree
  · rw [hprio, Lists.insert_self, Lists.remove_self, h.sorted, ← stableSort_erase, ← hsame]
    exact (stableSort_append (k.setPriority t p.toNat).priority (present.erase t) t).symm
  · exact nodup_snoc (h.nodup.erase t) hgone

theorem Serving.step {s : Lists (ListId c) (Place c)} (h : Serving list present k s) {op : ListOp c}
    (hop : op.legal list k) : ∃ s', Serving list (op.arrive present) (op.apply list k) s' := by
  cases op with
  | insert t =>
    have hgone : t ∉ present := fun hm => hop list (h.mem_present.mpr hm)
    refine ⟨_, h.refines.insert list t _ (h.free hop), ?_, ?_⟩
    · rw [Lists.insert_self, h.sorted]
      exact (stableSort_append k.priority present t).symm
    · exact nodup_snoc h.nodup hgone
  | remove t =>
    refine ⟨_, h.refines.remove list t, ?_, h.nodup.erase t⟩
    rw [Lists.remove_self, h.sorted, ← stableSort_erase]
    rfl
  | requeue t p => exact h.requeue hop

end

/-! ### Any number of operations -/

section
variable {list : ListId c} {k₀ : Kernel c Links} {s : Lists (ListId c) (Place c)} {ops : List (ListOp c)}

theorem performed_serving (h₀ : Refines k₀.links s) (hempty : s list = []) (hlegal : AllLegal list k₀ ops) :
    ∃ s', Serving list (arrivals ops) (performed list k₀ ops) s' := by
  induction ops using List.reverseRecOn with
  | nil =>
    refine ⟨s, h₀, ?_, List.nodup_nil⟩
    rw [hempty]
    exact List.mergeSort_nil.symm
  | append_singleton ops op ih =>
    obtain ⟨s', hs'⟩ := ih hlegal.snoc.1
    rw [performed_snoc, arrivals_snoc]
    exact hs'.step hlegal.snoc.2

theorem pair_sublist_snoc {α : Type} {a b x : α} {l : List α} (h : [a, b].Sublist (l ++ [x])) (hb : b ≠ x) :
    [a, b].Sublist l := by
  obtain ⟨l₁, l₂, he, h₁, h₂⟩ := List.sublist_append_iff.mp h
  rcases List.sublist_singleton.mp h₂ with hnil | hx
  · rw [he, hnil, List.append_nil]
    exact h₁
  · exfalso
    have hlast := congrArg List.getLast? he
    rw [hx, List.getLast?_concat] at hlast
    injection hlast with hlast
    exact hb hlast

/-- The last operation leaves those who have been there before it alone. -/
theorem arrive_before {present : List (Place c)} {op : ListOp c} {a b : Place c} (hnd : present.Nodup)
    (hab : [a, b].Sublist (op.arrive present)) (hb : ∀ p, op ≠ .requeue b p) (hi : op ≠ .insert b) :
    [a, b].Sublist present ∧ ∀ p, op ≠ .requeue a p := by
  cases op with
  | insert t => exact ⟨pair_sublist_snoc hab fun he => hi (by rw [he]), by simp⟩
  | remove t => exact ⟨hab.trans List.erase_sublist, by simp⟩
  | requeue t p =>
    have herase := pair_sublist_snoc hab fun he => hb p (by rw [he])
    refine ⟨herase.trans List.erase_sublist, fun q he => ?_⟩
    injection he with he _
    subst he
    exact hnd.not_mem_erase (herase.subset List.mem_cons_self)

theorem apply_priority (k : Kernel c Links) (op : ListOp c) (t : Place c) (h : ∀ p, op ≠ .requeue t p) :
    (op.apply list k).priority t = k.priority t := by
  cases op with
  | insert u => rfl
  | remove u => rfl
  | requeue u p => exact (requeue_priority k u t _).trans (if_neg fun he => h p (by rw [he]))

/-- Whoever came before another one of the list has held its priority for as long. -/
theorem held_longer (h₀ : Refines k₀.links s) (hempty : s list = []) (hlegal : AllLegal list k₀ ops)
    (hchange : AllChange list k₀ ops) {a b : Place c} (hab : [a, b].Sublist (arrivals ops))
    {before after : List (ListOp c)} (he : ops = before ++ after)
    (hb : Held list k₀ before after b ((performed list k₀ ops).priority b)) :
    Held list k₀ before after a ((performed list k₀ ops).priority a) := by
  induction ops using List.reverseRecOn generalizing after with
  | nil => cases hab
  | append_singleton ops op ih =>
    have hpresent : a ∈ LinkStore.toList (performed list k₀ (ops ++ [op])).links list := by
      obtain ⟨s', hs'⟩ := performed_serving h₀ hempty hlegal
      exact hs'.mem_present.mpr (hab.subset List.mem_cons_self)
    rcases List.eq_nil_or_concat after with rfl | ⟨rest, op', rfl⟩
    · intro n hn
      rw [List.length_nil, Nat.le_zero] at hn
      rw [hn, List.take_nil, ← he]
      exact ⟨hpresent, rfl⟩
    · rw [List.concat_eq_append, ← List.append_assoc] at he
      obtain ⟨hops, hop⟩ := List.append_inj' he rfl
      injection hop with hop _
      subst hop
      obtain ⟨s', hs'⟩ := performed_serving h₀ hempty hlegal.snoc.1
      have htake : ∀ n ≤ rest.length, (rest.concat op).take n = rest.take n := fun n hn => by
        rw [List.concat_eq_append, List.take_append_of_le_length hn]
      -- the task has been there with its priority before the last operation as well
      have hlast := hb rest.length (by simp)
      rw [htake _ (Nat.le_refl _), List.take_length, ← hops] at hlast
      have hnew : ∀ p, op ≠ .requeue b p := fun p hop => by
        refine hchange.snoc.2 b p hop ?_
        rw [hlast.2, performed_snoc, hop]
        exact (requeue_priority _ b b _).trans (if_pos rfl)
      have hjoin : op ≠ .insert b := fun hop => by
        have hlegal := hlegal.snoc.2
        rw [hop] at hlegal
        exact hlegal list hlast.1
      rw [arrivals_snoc] at hab
      obtain ⟨hab, hkeep⟩ := arrive_before hs'.nodup hab hnew hjoin
      have hprio : (performed list k₀ (ops ++ [op])).priority a = (performed list k₀ ops).priority a := by
        rw [performed_snoc]
        exact apply_priority _ op a hkeep
      have hrest : Held list k₀ before rest a ((performed list k₀ ops).priority a) := by
        refine ih hlegal.snoc.1 hchange.snoc.1 hab hops fun n hn => ?_
        have hbn := hb n (by simp; omega)
        rwa [htake n hn, ← hlast.2] at hbn
      intro n hn
      rcases Nat.lt_or_ge rest.length n with hlt | hle
      · have hall : (rest.concat op).take n = rest.concat op := List.take_of_length_le (by simp; omega)
        rw [hall, List.concat_eq_append, ← List.append_assoc, ← hops]
        exact ⟨hpresent, rfl⟩
      · rw [htake n hle, hprio]
        exact hrest n hle

end

/-- The list is in a stable order by priority whatever has been done to it, a key one higher puts a
task ahead of its peers, and who leaves does so without a trace. -/
theorem task_lists_stable {list : ListId c} {k₀ : Kernel c Links} {s : Lists (ListId c) (Place c)}
    (h₀ : Refines k₀.links s) (hempty : s list = []) {ops : List (ListOp c)} (hlegal : AllLegal list k₀ ops) :
    let k := performed list k₀ ops
    let tasks := LinkStore.toList k.links list
    tasks = stableSort k.priority (arrivals ops) ∧
    (∀ t, LinkStore.head k.links list = some t → ∀ u ∈ tasks, u ≠ t → k.priority u < k.priority t ∨
      k.priority u = k.priority t ∧ [t, u].Sublist (arrivals ops) ∧
        (AllChange list k₀ ops → ∀ before after, ops = before ++ after →
          Held list k₀ before after u (k.priority u) → Held list k₀ before after t (k.priority t))) ∧
    (∀ t (key : Byte), Unlinked k t → key.toNat = k.priority t + 1 →
      LinkStore.toList (k.osListInsert list t key.toNat).links list =
        tasks.filter (fun u => k.priority t < k.priority u) ++
          t :: tasks.filter (fun u => k.priority u ≤ k.priority t)) ∧
    (∀ t, LinkStore.toList (k.osListRemove list t).links list = tasks.erase t) ∧
    ∀ t, t ∉ tasks → k.osListRemove list t = k := by
  intro k tasks
  obtain ⟨s', hs'⟩ := performed_serving h₀ hempty hlegal
  have htasks : tasks = s' list := hs'.toList list
  have hsorted : tasks = stableSort k.priority (arrivals ops) := htasks.trans hs'.sorted
  refine ⟨hsorted, fun t ht u hu hne => ?_, fun t key hfree hkey => ?_, fun t => ?_, fun t ht => ?_⟩
  · have hhead : (stableSort k.priority (arrivals ops)).head? = some t := by
      rw [← hsorted, htasks, ← hs'.refines.head_eq]
      exact ht
    rcases stableSort_head hhead (hs'.mem_present.mp hu) hne with hlt | ⟨heq, hsub⟩
    · exact Or.inl hlt
    · exact Or.inr ⟨heq, hsub, fun hchange before after he hheld =>
        held_longer h₀ hempty hlegal hchange hsub he hheld⟩
  · have hord : Ordered k.priority (s' list) := hs'.sorted ▸ stableSort_ordered _ _
    obtain ⟨htake, hdrop⟩ := hord.split (k.priority t + 1)
    have hins := hs'.refines.insert list t (fun it => k.priority t + 1 ≤ k.priority it) (hs'.free hfree)
    rw [hkey, htasks]
    refine (congrFun hins.lists_eq list).trans ?_
    rw [Lists.insert_self, htake, hdrop]
    simp only [Nat.succ_le_iff, Nat.lt_succ_iff]
  · rw [htasks]
    exact (congrFun (hs'.refines.remove list t).lists_eq list).trans (Lists.remove_self ..)
  · have hsame : k.links.remove list t = k.links :=
      hs'.refines.remove_absent list t (htasks ▸ ht)
    exact congrArg (fun links => { k with links := links }) hsame

/-- Three tasks which are ready, none of them on the list by now. -/
def threeReady : Kernel (Config.default 3) Links :=
  { osInit (Config.default 3) Links with
    tasks := fun _ => { newTask (Config.default 3) 5 false with state := OS_TASK_READY } }

/-- Three tasks join the list, the first one goes behind the second one as it is queued again, and the
third one leaves. -/
def threeJoin : List (ListOp (Config.default 3)) :=
  [.insert 1, .insert 2, .insert 3, .requeue 1 7, .requeue 1 5, .remove 3]

/-- The operations are legal, and nobody is queued again without a new priority. -/
def LegalChange (ops : List (ListOp (Config.default 3))) : Prop :=
  AllLegal .ready threeReady ops ∧ AllChange .ready threeReady ops

/-- One operation more, with nobody on another list than the ready list. -/
theorem LegalChange.append {ops : List (ListOp (Config.default 3))} (h : LegalChange ops) (op : ListOp (Config.default 3))
    (hdead : LinkStore.toList (performed .ready threeReady ops).links .dead = [])
    (hwait : ∀ w, LinkStore.toList (performed .ready threeReady ops).links (.wait w) = [])
    (hinsert : ∀ t, op = .insert t → t ∉ LinkStore.toList (performed .ready threeReady ops).links .ready)
    (hrequeue : ∀ t p, op = .requeue t p → (performed .ready threeReady ops).priorityList t = some .ready ∧
      (performed .ready threeReady ops).priority t ≠ p.toNat) : LegalChange (ops ++ [op]) := by
  refine ⟨h.1.append ?_, h.2.append fun t p he => (hrequeue t p he).2⟩
  cases op with
  | insert t =>
    rintro (_ | _ | w)
    · exact hinsert t rfl
    · rw [hdead]
      exact List.not_mem_nil
    · rw [hwait]
      exact List.not_mem_nil
  | remove t => trivial
  | requeue t p =>
    refine ⟨(hrequeue t p rfl).1, ?_⟩
    rintro (_ | _ | w) hm
    · rfl
    · rw [hdead] at hm
      exact absurd hm List.not_mem_nil
    · rw [hwait] at hm
      exact absurd hm List.not_mem_nil

theorem threeJoin_legal : LegalChange threeJoin := by
  have hnil : LegalChange [] := ⟨AllLegal.nil, fun before t p after he => by simp at he⟩
  have hjoin := ((hnil.append (.insert 1) rfl (fun _ => rfl) (by simp; decide) (by simp)).append
    (.insert 2) rfl (fun _ => rfl) (by simp; decide) (by simp)).append
    (.insert 3) rfl (fun _ => rfl) (by simp; decide) (by simp)
  have hqueue := (hjoin.append (.requeue 1 7) rfl (fun _ => rfl) (by simp) (by simp; decide)).append
    (.requeue 1 5) rfl (fun _ => rfl) (by simp) (by simp; decide)
  exact hqueue.append (.remove 3) rfl (fun _ => rfl) (by simp) (by simp)

/-- The second task is the head of the list then, has been on it for as long as the first one, and
is behind the third one after that has been put ahead of its peers. -/
theorem task_lists_stable_taken :
    let k := performed .ready threeReady threeJoin
    LinkStore.toList k.links .ready = stableSort k.priority [2, 1] ∧
      Held .ready threeReady (threeJoin.take 5) (threeJoin.drop 5) 2 5 ∧
      LinkStore.toList (k.osListInsert .ready 3 6).links .ready = [3, 2, 1] ∧
      LinkStore.toList (k.osListRemove .ready 2).links .ready = [1] ∧ k.osListRemove .ready 3 = k := by
  intro k
  obtain ⟨hsorted, hhead, hahead, hremove, habsent⟩ :=
    task_lists_stable (s := fun _ => []) Refines.empty rfl threeJoin_legal.1
  have hlist : LinkStore.toList k.links .ready = [2, 1] := by decide
  have htwo : k.priority 2 = 5 := by decide
  have hsame : k.priority 1 = k.priority 2 := by decide
  have hfree : Unlinked k 3 := by
    rintro (_ | _ | w)
    · decide
    · decide
    · exact List.not_mem_nil
  refine ⟨hsorted, ?_, (hahead 3 6 hfree (by decide)).trans (by decide), (hremove 2).trans (by decide),
    habsent 3 (by decide)⟩
  -- the first task has been queued for the last time before the third one left
  have hheld : Held .ready threeReady (threeJoin.take 5) (threeJoin.drop 5) 1 (k.priority 1) := by
    unfold Held
    decide
  rcases hhead 2 (by decide) 1 (hlist ▸ by simp) (by decide) with hlt | ⟨-, -, hlonger⟩
  · exact absurd hlt hsame.not_lt
  · exact htwo ▸ hlonger threeJoin_legal.2 _ _ rfl hheld

end AvrOs
