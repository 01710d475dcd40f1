import AvrOs.Refinement
import AvrOs.Transition.Since
import AvrOs.Waiting

/-!
# Events leave nobody behind

Flags which are set go to those who wait for them, the first one in line is asked first. Whoever is still
in line afterwards could not have been satisfied, and flags which somebody has got are gone unless he wants
them to be kept.
-/

namespace AvrOs
open Intrusive Transition Kernel

variable {c : Config} {k k' : ListKernel c} {e t : Place c} {todo : List (Place c)}

/-! ### Requests -/

theorem and_of_and_and {flags mask wanted : Byte} (h : flags &&& mask &&& wanted = wanted) : flags &&& wanted = wanted := by
  have hall : flags &&& (flags &&& mask &&& wanted) = flags &&& mask &&& wanted := by
    rw [← BitVec.and_assoc, ← BitVec.and_assoc, BitVec.and_self]
  rw [h] at hall
  exact hall

/-- With fewer flags nobody gets satisfied. -/
theorem osEventMatch_and {flags wanted options : Byte} (mask : Byte) (h : osEventMatch flags wanted options = 0) :
    osEventMatch (flags &&& mask) wanted options = 0 := by
  have hless : flags &&& wanted = 0 → flags &&& mask &&& wanted = 0 := fun hz => by
    rw [BitVec.and_assoc, BitVec.and_comm mask, ← BitVec.and_assoc, hz]
    exact BitVec.zero_and
  unfold osEventMatch at h ⊢
  dsimp only at h ⊢
  by_cases hall : options &&& OS_EVENT_ALL ≠ 0
  · simp only [hall, ne_eq, not_false_eq_true, true_and] at h ⊢
    by_cases hsome : flags &&& mask &&& wanted = wanted
    · have hwanted := and_of_and_and hsome
      rw [if_neg (not_not.mpr hwanted)] at h
      rw [if_neg (not_not.mpr hsome)]
      exact hless h
    · exact if_pos hsome
  · rw [if_neg fun hx => hall hx.1] at h ⊢
    exact hless h

/-! ### Those in line -/

/-- The task is in line for these flags. -/
def WaitsForFlags {S : Type → Type → Type} (k : Kernel c S) (e t : Place c) (flags options : Byte) : Prop :=
  (∃ timeout, k.frames t = some (.blocked (.osEventWait e flags options timeout))) ∧ (k.tasks t).wait = .event flags options

/-- Nobody in line can be satisfied, except for those who are still to be asked. -/
def Asked (e : Place c) (todo : List (Place c)) (k : ListKernel c) : Prop :=
  ∀ t ∈ k.links (.wait (.event e)), ∃ flags options, WaitsForFlags k e t flags options ∧
    (t ∉ todo → osEventMatch (k.events e) flags options = 0)

/-- Flags get fewer unless they are set. -/
theorem Atom.fewer (a : Atom c) (h : Sound k) (hg : a.guard k) (ha : ∀ flags, a ≠ .flagsSet e flags) :
    ∃ mask, (a.apply k).events e = k.events e &&& mask := by
  have hsame : ∀ {s : ListKernel c}, s.events e = k.events e → ∃ mask, s.events e = k.events e &&& mask := fun hs =>
    ⟨BitVec.allOnes 8, by rw [hs, BitVec.and_allOnes]⟩
  have hcleared : ∀ (u : Place c) (flags mask : Byte), flags = k.events u &&& mask →
      ∃ mask, Function.update k.events u flags e = k.events e &&& mask := fun u flags mask hf => by
    by_cases hu : e = u
    · exact ⟨mask, by rw [hu, Function.update_self, hf]⟩
    · exact ⟨BitVec.allOnes 8, by rw [Function.update_of_ne hu, BitVec.and_allOnes]⟩
  have hconsumed : ∀ (s : ListKernel c) (u : Place c) (matched options : Byte), s.events = k.events →
      ∃ mask, (s.osEventConsume u matched options).events e = k.events e &&& mask := fun s u matched options hs => by
    unfold osEventConsume
    split
    · show ∃ mask, Function.update s.events u (s.events u &&& ~~~matched) e = _
      rw [hs]
      exact hcleared u _ _ rfl
    · exact hsame (congrFun hs e)
  cases a with
  | consume u wanted options => exact hconsumed k u _ options rfl
  | flagsSet u flags =>
    refine hsame (Function.update_of_ne (fun he => ?_) ..)
    exact ha flags (by rw [he])
  | serve u t =>
    rw [apply]
    rcases serve_cases k u t with ⟨-, he⟩ | ⟨matched, options, -, -, -, he⟩
    · rw [he]
      exact hsame rfl
    · rw [he, osWake_eq]
      exact hconsumed (k.emit (.visited u t)) u matched options rfl
  | flagsClear u flags => exact hcleared u _ _ rfl
  | eventInit u => exact hcleared u 0 0 (BitVec.and_zero).symm
  | _ => exact hsame (congrFun ((Atom.kept _ h hg).events (by simp [OnEvents])) e)

theorem Asked.fewer (h : Asked e todo k) {mask : Byte} (hm : k'.events e = k.events e &&& mask)
    (hw : ∀ t ∈ k'.links (.wait (.event e)), t ∈ k.links (.wait (.event e)) ∧ k'.frames t = k.frames t ∧
      (k'.tasks t).wait = (k.tasks t).wait) : Asked e todo k' := fun t ht => by
  obtain ⟨hold, hf, hx⟩ := hw t ht
  obtain ⟨flags, options, hwaits, hzero⟩ := h t hold
  refine ⟨flags, options, ?_, fun hn => ?_⟩
  · unfold WaitsForFlags at hwaits ⊢
    rw [hf, hx]
    exact hwaits
  · rw [hm]
    exact osEventMatch_and mask (hzero hn)

/-- The current task gets in line because there is nothing for it. -/
theorem sleep_asked {call : Call c} {timeout : OsTick c} (hg : (Atom.sleep call (some (.event e)) timeout).guard k)
    (h : Asked e todo k) : Asked e todo ((Atom.sleep call (some (.event e)) timeout).apply k) := by
  obtain ⟨-, -, -, -, -, flags, options, hwait, hcall, hzero⟩ := hg
  have hsleeper : (k.sleeper (some (.event e)) timeout).wait = (k.tasks k.currentTask).wait := by
    unfold sleeper
    dsimp only
    split <;> rfl
  rw [Atom.apply, sleep_eq]
  intro t ht
  unfold WaitsForFlags
  dsimp only at ht ⊢
  by_cases hc : t = k.currentTask
  · rw [hc, Function.update_self, Function.update_self, hsleeper]
    exact ⟨flags, options, ⟨⟨timeout, by rw [hcall]⟩, hwait⟩, fun _ => hzero⟩
  · rw [Function.update_of_ne hc, Function.update_of_ne hc]
    exact h t (((Lists.mem_insert ..).mp ht).elim (fun hx => absurd hx.2 hc) id)

/-- Flags are given to those who are asked only. -/
theorem Atom.asked (a : Atom c) (h : Sound k) (hg : a.guard k) (ha : ∀ flags, a ≠ .flagsSet e flags)
    (hi : Asked e todo k) : Asked e todo (a.apply k) := by
  by_cases hs : ∃ call timeout, a = .sleep call (some (.event e)) timeout
  · obtain ⟨call, timeout, rfl⟩ := hs
    exact sleep_asked hg hi
  · obtain ⟨mask, hm⟩ := a.fewer h hg ha
    exact hi.fewer hm fun t ht => a.still_waits h hg (.event e) (fun call timeout hx => hs ⟨call, timeout, hx⟩) ht

/-- Whoever has been asked and is still in line has not been satisfied. -/
theorem serve_asked (h : Sound k) (ht : t ∈ k.links (.wait (.event e))) (hi : Asked e (t :: todo) k) :
    Asked e todo (k.osEventServe e t) := by
  have hkept := (Atom.serve e t).asked h (((h.linked.2 t).wait _).mp ht) (by simp) hi
  intro u hu
  obtain ⟨flags, options, hwaits, hzero⟩ := hkept u hu
  refine ⟨flags, options, hwaits, fun hn => ?_⟩
  by_cases hut : u = t
  · rw [hut] at hwaits hu
    rcases serve_cases k e t with ⟨hnone, he⟩ | ⟨matched, options', hm, -, -, he⟩
    · rw [he]
      have hwait : (k.tasks t).wait = .event flags options := by
        have hw := hwaits.2
        rwa [show (Atom.serve e t).apply k = k.emit (.visited e t) from he] at hw
      rw [hwait] at hnone
      exact hnone
    · have hlisted := (((Atom.serve e t).sound h (((h.linked.2 t).wait _).mp ht)).linked.2 t).wait _ |>.mp hu
      rw [Atom.apply, he, osWake_eq] at hlisted
      dsimp only at hlisted
      rw [Function.update_self] at hlisted
      cases hlisted
  · exact hzero (by simp [hut, hn])

theorem serve_stays (h : Sound k) (ht : t ∈ k.links (.wait (.event e))) {u : Place c} (hu : u ≠ t)
    (hm : u ∈ k.links (.wait (.event e))) : u ∈ (k.osEventServe e t).links (.wait (.event e)) := by
  rcases serve_links h e t ht with he | he
  · rw [he]
    exact hm
  · rw [he]
    exact (List.mem_erase_of_ne hu).mpr hm

theorem serveAll_asked (h : Sound k) (hn : todo.Nodup) (hl : ∀ u ∈ todo, u ∈ k.links (.wait (.event e)))
    (hi : Asked e todo k) : Asked e [] (todo.foldl (fun k t => k.osEventServe e t) k) := by
  induction todo generalizing k with
  | nil => exact hi
  | cons t rest ih =>
    have ht := hl t List.mem_cons_self
    obtain ⟨hnot, hn⟩ := List.nodup_cons.mp hn
    refine ih ((Atom.serve e t).sound h (((h.linked.2 t).wait _).mp ht)) hn (fun u hu => ?_) (serve_asked h ht hi)
    exact serve_stays h ht (fun he => hnot (he ▸ hu)) (hl u (List.mem_cons_of_mem t hu))

theorem setEvent_asked (h : Sound k) (flags : Byte) (hi : Asked e [] k) : Asked e [] (k.osEventSetFromISR e flags) := by
  rw [setEvent_eq h]
  refine serveAll_asked ((Atom.flagsSet e flags).sound h trivial) (h.linked.1.separate.nodup _) (fun u hu => hu) ?_
  intro t ht
  obtain ⟨wanted, options, hwaits, -⟩ := hi t ht
  exact ⟨wanted, options, hwaits, fun hn => absurd ht hn⟩

theorem Move.asked (mv : Move c) (h : Sound k) (hg : mv.guard k) (hi : Asked e [] k) : Asked e [] (mv.apply k) := by
  by_cases hs : ∃ flags, mv = .setEvent e flags
  · obtain ⟨flags, rfl⟩ := hs
    exact setEvent_asked h flags hi
  · refine (mv.run h hg).keeps h (fun s a hss hga hu hi => a.asked hss hga (fun flags ha => ?_) hi) hi
    subst ha
    cases mv with
    | one a =>
      obtain rfl : Atom.flagsSet e flags = a := hu
      exact hg.1
    | setEvent u flags' =>
      rcases hu with hu | ⟨t, hu⟩
      · injection hu with hu
        exact hs ⟨flags', by rw [hu]⟩
      · cases hu
    | giveUp | repriority | block | lock | lockIdle | unlock | delete | tick => simp [Uses] at hu

/-- Nobody sleeps who could be satisfied. -/
theorem reachable_unsatisfied (k : Kernel c Links) (h : Reachable k) (e t : Place c) (ht : t ∈ k.waiters (.event e)) :
    ∃ flags options, WaitsForFlags k e t flags options ∧ osEventMatch (k.events e) flags options = 0 := by
  obtain ⟨l, hl, hs⟩ := reachable_lists h
  have hasked : Asked e [] l := reachable_moves hl (fun t ht => absurd ht List.not_mem_nil) fun s mv hss hg hi =>
    mv.asked hss hg hi
  have hw : k.waiters (.event e) = l.links (.wait (.event e)) := hs.links_list _
  unfold WaitsForFlags
  rw [hs.frames, hs.tasks, hs.events]
  obtain ⟨flags, options, hwaits, hzero⟩ := hasked t (hw ▸ ht)
  exact ⟨flags, options, hwaits, hzero List.not_mem_nil⟩

/-- A task waits for two flags. -/
def flagsAwaited : List (Action (Config.default 2)) :=
  [.call (.osTaskCreate 1 3 false), .resume, .run, .call (.osEventWait 0 3 OS_EVENT_ALL 5)]

theorem reachable_unsatisfied_taken : ∃ k, steps step (osInit (Config.default 2) Links) flagsAwaited = some k ∧
    k.waiters (.event 0) = [1] ∧ ∃ flags options, WaitsForFlags k 0 1 flags options ∧ osEventMatch (k.events 0) flags options = 0 := by
  have hrun : (steps step (osInit (Config.default 2) Links) flagsAwaited).map
      (fun k => decide (k.waiters (.event 0) = [1])) = some true := by decide +kernel
  obtain ⟨k, hk, hdec⟩ := Option.map_eq_some_iff.mp hrun
  have hw := of_decide_eq_true hdec
  exact ⟨k, hk, hw, reachable_unsatisfied k (Reach.steps_reach _ (fun _ _ _ => trivial) .init hk) 0 1 (by simp [hw])⟩

/-! ### The account of a flag -/

/-- Flag `i` of the event is set. -/
def SetsFlag (e : Place c) (i : ℕ) (x : Event c) : Prop := ∃ flags, x = .flagsSet e flags ∧ flags.getLsbD i = true

/-- Somebody gets flag `i` of the event. -/
def GivesFlag (e : Place c) (i : ℕ) (x : Event c) : Prop :=
  ∃ t flags options, x = .satisfied e t flags options ∧ flags.getLsbD i = true

/-- Flag `i` of the event is gone: somebody has got it who does not want it to be kept. -/
def TakesFlag (e : Place c) (i : ℕ) (x : Event c) : Prop :=
  x = .eventInit e ∨
    ∃ t flags options, x = .satisfied e t flags options ∧ flags.getLsbD i = true ∧ options &&& OS_EVENT_KEEP = 0

/-- Nobody gets a flag which has not been set, or has been taken by somebody else. -/
abbrev FlagAccount (e : Place c) (i : ℕ) (flags : Byte) : List (Event c) → Prop :=
  Account (SetsFlag e i) (TakesFlag e i) (GivesFlag e i) (flags.getLsbD i = true)

section
variable {i : ℕ} {flags matched options : Byte} {log : List (Event c)}

theorem osEventMatch_subset {wanted : Byte} (h : (osEventMatch flags wanted options).getLsbD i = true) :
    flags.getLsbD i = true := by
  unfold osEventMatch at h
  dsimp only at h
  split at h
  · simp at h
  · rw [BitVec.getLsbD_and] at h
    exact (Bool.and_eq_true_iff.mp h).1

/-- What is left once somebody is satisfied. -/
def leftOver (flags matched options : Byte) : Byte := if options &&& OS_EVENT_KEEP = 0 then flags &&& ~~~matched else flags

theorem FlagAccount.satisfied (h : FlagAccount e i flags log) (t : Place c) (hm : matched.getLsbD i = true → flags.getLsbD i = true) :
    FlagAccount e i (leftOver flags matched options) (.satisfied e t matched options :: log) := by
  refine h.cons (fun hs => ?_) fun hl => .inr ?_
  · obtain ⟨u, f, o, he, hf⟩ := hs
    injection he with _ _ hflags
    rw [← hflags] at hf
    exact hm hf
  · unfold leftOver at hl
    split at hl
    case isTrue =>
      rw [BitVec.getLsbD_and, Bool.and_eq_true_iff] at hl
      refine ⟨hl.1, fun ht => ?_⟩
      rcases ht with he | ⟨u, f, o, he, hf, -⟩
      · cases he
      · injection he with _ _ hflags
        have hnot := hl.2
        rw [BitVec.getLsbD_not, hflags, hf] at hnot
        simp at hnot
    case isFalse hkeep =>
      refine ⟨hl, fun ht => ?_⟩
      rcases ht with he | ⟨u, f, o, he, -, ho⟩
      · cases he
      · injection he with _ _ _ hoptions
        exact hkeep (hoptions ▸ ho)

theorem FlagAccount.flagsSet (h : FlagAccount e i flags log) (set : Byte) :
    FlagAccount e i (flags ||| set) (.flagsSet e set :: log) := by
  refine h.cons (fun hs => ?_) fun hl => ?_
  · obtain ⟨u, f, o, he, -⟩ := hs
    cases he
  · rw [BitVec.getLsbD_or, Bool.or_eq_true_iff] at hl
    rcases hl with hl | hl
    · refine .inr ⟨hl, fun ht => ?_⟩
      rcases ht with he | ⟨u, f, o, he, -⟩
      · cases he
      · cases he
    · exact .inl ⟨set, rfl, hl⟩

theorem FlagAccount.eventInit (h : FlagAccount e i flags log) : FlagAccount e i 0 (.eventInit e :: log) := by
  refine h.cons (fun hs => ?_) fun hl => ?_
  · obtain ⟨u, f, o, he, -⟩ := hs
    cases he
  · simp at hl

end

/-- Steps which take flags of this event or provide them. -/
def Atom.IsAbout (e : Place c) : Atom c → Prop
  | .consume u _ _ | .flagsSet u _ | .serve u _ | .eventInit u => u = e
  | _ => False

theorem foreign_flag {x : Event c} (i : ℕ) (hs : ∀ t flags options, x ≠ .satisfied e t flags options) (hi : x ≠ .eventInit e) :
    ¬ GivesFlag e i x ∧ ¬ TakesFlag e i x := by
  refine ⟨fun hg => ?_, fun ht => ?_⟩
  · obtain ⟨t, flags, options, he, -⟩ := hg
    exact hs t flags options he
  · rcases ht with he | ⟨t, flags, options, he, -⟩
    · exact hi he
    · exact hs t flags options he

theorem Atom.foreign_flags (a : Atom c) (ha : ¬ a.IsAbout e) (i : ℕ) (x : Event c) (hx : a.Writes x) :
    ¬ GivesFlag e i x ∧ ¬ TakesFlag e i x := by
  cases a with
  | called y =>
    obtain ⟨t, mine, rfl⟩ := hx
    exact foreign_flag i (by simp) (by simp)
  | leave =>
    obtain ⟨t, call, v, rfl⟩ := hx
    exact foreign_flag i (by simp) (by simp)
  | sleep call list timeout | release t m =>
    obtain ⟨t, rfl⟩ := hx
    exact foreign_flag i (by simp) (by simp)
  | expire t =>
    obtain ⟨w, rfl⟩ := hx
    exact foreign_flag i (by simp) (by simp)
  | give u =>
    rcases hx with rfl | rfl | ⟨t, rfl⟩ <;> exact foreign_flag i (by simp) (by simp)
  | send u item | receive u item =>
    rcases hx with ⟨msg, rfl⟩ | ⟨msg, rfl⟩ | ⟨n, rfl⟩ | ⟨t, rfl⟩ <;> exact foreign_flag i (by simp) (by simp)
  | consume u wanted options =>
    have hu : u ≠ e := ha
    obtain ⟨t, f, o, rfl⟩ := hx
    exact foreign_flag i (by simp [hu]) (by simp)
  | serve u t =>
    have hu : u ≠ e := ha
    rcases hx with rfl | ⟨f, o, rfl⟩ | rfl <;> exact foreign_flag i (by simp [hu]) (by simp)
  | eventInit u =>
    have hu : u ≠ e := ha
    obtain rfl : x = _ := hx
    exact foreign_flag i (by simp) (by simp [hu])
  | timerCalled | requeue | kill | park | unpark | create | take | semaphoreInit | flagsSet | queueInit | tick =>
    obtain rfl : x = _ := hx
    exact foreign_flag i (by simp) (by simp)
  | _ => exact absurd hx id

theorem consume_left (k : ListKernel c) (e : Place c) (matched options : Byte) :
    (k.osEventConsume e matched options).events e = leftOver (k.events e) matched options := by
  unfold osEventConsume leftOver
  split
  · exact Function.update_self ..
  · rfl

theorem Atom.flagAccount (a : Atom c) (h : Sound k) (hg : a.guard k) {i : ℕ} (hi : FlagAccount e i (k.events e) k.log) :
    FlagAccount e i ((a.apply k).events e) (a.apply k).log := by
  by_cases ha : a.IsAbout e
  · cases a with
    | consume u wanted options =>
      obtain rfl : u = e := ha
      rw [apply]
      show FlagAccount u i ((k.osEventConsume u _ options).events u) (_ :: (k.osEventConsume u _ options).log)
      rw [consume_log, consume_left]
      exact hi.satisfied _ osEventMatch_subset
    | flagsSet u flags =>
      obtain rfl : u = e := ha
      have hflags : ((Atom.flagsSet u flags).apply k).events u = k.events u ||| flags := Function.update_self ..
      rw [hflags]
      exact hi.flagsSet flags
    | serve u t =>
      obtain rfl : u = e := ha
      have hvisited : FlagAccount u i (k.events u) (.visited u t :: k.log) :=
        hi.append [.visited u t] (fun y hy => by
          rw [List.mem_singleton.mp hy]
          exact foreign_flag i (by simp) (by simp)) id
      rw [apply]
      rcases serve_cases k u t with ⟨-, he⟩ | ⟨matched, options, -, -, hmatch, he⟩
      · rw [he]
        exact hvisited
      · rw [he, osWake_eq]
        show FlagAccount u i (((k.emit _).osEventConsume u matched options).events u)
          (_ :: _ :: ((k.emit _).osEventConsume u matched options).log)
        rw [consume_log, consume_left]
        refine (hvisited.satisfied t ?_).append [_] (fun y hy => ?_) id
        · rw [hmatch]
          exact osEventMatch_subset
        · rw [List.mem_singleton.mp hy]
          exact foreign_flag i (by simp) (by simp)
    | eventInit u =>
      obtain rfl : u = e := ha
      have hflags : ((Atom.eventInit u).apply k).events u = 0 := Function.update_self ..
      rw [hflags]
      exact hi.eventInit
    | _ => exact absurd ha id
  · obtain ⟨es, he, hw⟩ := a.grows h hg
    obtain ⟨mask, hm⟩ := a.fewer (e := e) h hg fun flags hf => ha (by rw [hf]; rfl)
    rw [he, hm]
    refine hi.append es (fun y hy => a.foreign_flags ha i y (hw y hy)) fun hl => ?_
    rw [BitVec.getLsbD_and] at hl
    exact (Bool.and_eq_true_iff.mp hl).1

/-- A flag somebody gets has been set before, and nobody else has taken it in the meantime. -/
theorem reachable_flags_once (k : Kernel c Links) (h : Reachable k) (e t : Place c) (flags options : Byte)
    (later earlier : List (Event c)) (hl : k.log = later ++ Event.satisfied e t flags options :: earlier) (i : ℕ)
    (hi : flags.getLsbD i = true) :
    ∃ between set before, earlier = between ++ Event.flagsSet e set :: before ∧ set.getLsbD i = true ∧
      .eventInit e ∉ between ∧
      ∀ u flags' options', .satisfied e u flags' options' ∈ between → flags'.getLsbD i = true →
        options' &&& OS_EVENT_KEEP ≠ 0 := by
  obtain ⟨l, hr, hs⟩ := reachable_lists h
  have haccount : FlagAccount e i (l.events e) l.log :=
    reachable_keeps (I := fun l => FlagAccount e i (l.events e) l.log) hr (.nil (by simp [osInit]))
      fun s a hss hg hi => a.flagAccount hss hg hi
  rw [← hs.log, ← hs.events] at haccount
  have hsince := haccount.spent _ earlier ⟨later, hl.symm⟩ ⟨t, flags, options, rfl, hi⟩
  obtain ⟨between, x, before, he, ⟨set, hx, hset⟩, hnot⟩ := hsince.split
  refine ⟨between, set, before, by rw [he, hx], hset, fun hm => hnot _ hm (.inl rfl), fun u flags' options' hm hf hk => ?_⟩
  exact hnot _ hm (.inr ⟨u, flags', options', rfl, hf, hk⟩)

theorem reachable_flags_once_taken : ∃ k earlier, steps step (osInit (Config.default 2) Links)
      [.call (.osEventSet 0 1), .resume, .call (.osEventWait 0 1 0 0)] = some k ∧
    k.log = .satisfied 0 0 1 0 :: earlier ∧ ∃ set, .flagsSet 0 set ∈ earlier ∧ set.getLsbD 0 = true := by
  have hrun : (steps step (osInit (Config.default 2) Links)
      [.call (.osEventSet 0 1), .resume, .call (.osEventWait 0 1 0 0)]).map
      (fun k => decide (k.log.head? = some (.satisfied 0 0 1 0))) = some true := by decide +kernel
  obtain ⟨k, hk, hdec⟩ := Option.map_eq_some_iff.mp hrun
  obtain ⟨earlier, hl⟩ := List.head?_eq_some_iff.mp (of_decide_eq_true hdec)
  obtain ⟨between, set, before, he, hset, -⟩ := reachable_flags_once k
    (Reach.steps_reach _ (fun _ _ _ => trivial) .init hk) 0 0 1 0 [] earlier hl 0 (by decide)
  exact ⟨k, earlier, hk, hl, set, by rw [he]; simp, hset⟩

/-! ### Who gets what -/

/-- Flags which are left, and who has got which of them: the first in line is asked first. -/
def shareOut {α : Type} : Byte → List (α × Byte × Byte) → Byte × List (α × Byte)
  | flags, [] => (flags, [])
  | flags, (t, wanted, options) :: rest =>
    let matched := osEventMatch flags wanted options
    if matched = 0 then shareOut flags rest
    else ((shareOut (leftOver flags matched options) rest).1,
      (t, matched) :: (shareOut (leftOver flags matched options) rest).2)

/-- What these tasks ask for. -/
def requests {S : Type → Type → Type} (k : Kernel c S) (ts : List (Place c)) : List (Place c × Byte × Byte) :=
  ts.map fun t => (t, (k.tasks t).wait.flags, (k.tasks t).wait.options)

/-- The task has been visited. -/
def visitedTask (e : Place c) : Event c → Option (Place c)
  | .visited u t => if u = e then some t else none
  | _ => none

/-- The same apart from the event, those who wait for it, and what they are given. -/
structure SameBeyond {S : Type → Type → Type} [LinkStore S] (e : Place c) (k k' : Kernel c S) : Prop where
  current : k'.currentTask = k.currentTask
  owner : k'.owner = k.owner
  semaphores : k'.semaphores = k.semaphores
  queues : k'.queues = k.queues
  events : ∀ u, u ≠ e → k'.events u = k.events u
  lines : ∀ w, w ≠ .event e → k'.waiters w = k.waiters w

/-- `flags` are shared out among those of `ts` who ask for them. -/
structure SharedOut {S : Type → Type → Type} [LinkStore S] (e : Place c) (flags : Byte) (ts : List (Place c))
    (k k' : Kernel c S) : Prop where
  left : k'.events e = (shareOut flags (requests k ts)).1
  visits : ∃ es, k'.log = es ++ k.log ∧ (es.filterMap (visitedTask e)).reverse = ts
  got : ∀ t matched, (t, matched) ∈ (shareOut flags (requests k ts)).2 → k'.tasks t =
    { k.tasks t with
      result := true, waitList := none, state := OS_TASK_READY, wait := .event matched (k.tasks t).wait.options }
  rest : ∀ t, t ∉ (shareOut flags (requests k ts)).2.map Prod.fst → k'.tasks t = k.tasks t
  line : ∀ pre, k.waiters (.event e) = pre ++ ts → k'.waiters (.event e) =
    pre ++ ts.filter fun t => t ∉ (shareOut flags (requests k ts)).2.map Prod.fst
  beyond : SameBeyond e k k'

theorem shareOut_subset {α : Type} (flags : Byte) (rs : List (α × Byte × Byte)) :
    (shareOut flags rs).2.map Prod.fst ⊆ rs.map Prod.fst := by
  induction rs generalizing flags with
  | nil => exact fun x hx => hx
  | cons r rest ih =>
    obtain ⟨t, wanted, options⟩ := r
    unfold shareOut
    dsimp only
    split
    · exact fun x hx => List.mem_cons_of_mem t (ih _ hx)
    · intro x hx
      rcases List.mem_cons.mp hx with hx | hx
      · exact hx ▸ List.mem_cons_self
      · exact List.mem_cons_of_mem t (ih _ hx)

theorem requests_fst {S : Type → Type → Type} (k : Kernel c S) (ts : List (Place c)) : (requests k ts).map Prod.fst = ts := by
  unfold requests
  rw [List.map_map]
  exact List.map_id ts

theorem got_asked {S : Type → Type → Type} {k : Kernel c S} {flags : Byte} {ts : List (Place c)} {t : Place c}
    (h : t ∈ (shareOut flags (requests k ts)).2.map Prod.fst) : t ∈ ts := by
  have hm := shareOut_subset _ _ h
  rwa [requests_fst] at hm

theorem requests_congr {S S' : Type → Type → Type} {k : Kernel c S} {k' : Kernel c S'} {ts : List (Place c)}
    (h : ∀ t ∈ ts, k'.tasks t = k.tasks t) : requests k' ts = requests k ts :=
  List.map_congr_left fun t ht => by rw [h t ht]

theorem SameBeyond.refl (k : ListKernel c) : SameBeyond e k k := ⟨rfl, rfl, rfl, rfl, fun _ _ => rfl, fun _ _ => rfl⟩

theorem SameBeyond.trans {k₁ : ListKernel c} (h : SameBeyond e k k₁) (h' : SameBeyond e k₁ k') : SameBeyond e k k' :=
  ⟨h'.current.trans h.current, h'.owner.trans h.owner, h'.semaphores.trans h.semaphores, h'.queues.trans h.queues,
    fun u hu => (h'.events u hu).trans (h.events u hu), fun w hw => (h'.lines w hw).trans (h.lines w hw)⟩

/-- What a waiter gets who is satisfied. -/
structure Satisfied (e t : Place c) (matched : Byte) (k k' : ListKernel c) : Prop where
  tasks : k'.tasks = Function.update k.tasks t { k.tasks t with
    result := true, waitList := none, state := OS_TASK_READY, wait := .event matched (k.tasks t).wait.options }
  flags : k'.events e = leftOver (k.events e) matched (k.tasks t).wait.options
  log : k'.log = .woken t (some (.event e)) true :: .satisfied e t matched (k.tasks t).wait.options :: .visited e t :: k.log
  line : k'.waiters (.event e) = (k.waiters (.event e)).erase t
  beyond : SameBeyond e k k'

theorem consume_beyond (k : ListKernel c) (e : Place c) (matched options : Byte) :
    SameBeyond e k (k.osEventConsume e matched options) := by
  unfold osEventConsume
  split
  · exact ⟨rfl, rfl, rfl, rfl, fun u hu => Function.update_of_ne hu .., fun _ _ => rfl⟩
  · exact .refl k

theorem serve_satisfied (h : Sound k) (ht : t ∈ k.links (.wait (.event e))) :
    (osEventMatch (k.events e) (k.tasks t).wait.flags (k.tasks t).wait.options = 0 ∧
      k.osEventServe e t = k.emit (.visited e t)) ∨
    ∃ matched, matched ≠ 0 ∧ matched = osEventMatch (k.events e) (k.tasks t).wait.flags (k.tasks t).wait.options ∧
      Satisfied e t matched k (k.osEventServe e t) := by
  have hwait := ((h.linked.2 t).wait _).mp ht
  rcases serve_cases k e t with ⟨hnone, he⟩ | ⟨matched, options, hm, rfl, hmatch, he⟩
  · exact .inl ⟨hnone, he⟩
  · refine .inr ⟨matched, hm, hmatch, ?_⟩
    obtain ⟨htasks, hlinks, -, -, hlog⟩ := consume_frame (k.emit (.visited e t)) e matched (k.tasks t).wait.options
    have hbeyond := consume_beyond (k.emit (.visited e t)) e matched (k.tasks t).wait.options
    have hleft := consume_left (k.emit (.visited e t)) e matched (k.tasks t).wait.options
    generalize (k.emit (.visited e t)).osEventConsume e matched (k.tasks t).wait.options = s at he htasks hlinks hlog hbeyond hleft
    have hline : ∀ w, (k.osEventServe e t).links (.wait w) = Lists.remove k.links (.wait (.event e)) t (.wait w) := fun w => by
      rw [he, osWake_eq]
      dsimp only
      rw [onReady_wait]
      unfold offWait
      simp only [setWait, setTask, Kernel.emit, Function.update_self, htasks, hlinks, hwait]
    refine ⟨?_, ?_, ?_, ?_, ⟨?_, ?_, ?_, ?_, fun u hu => ?_, fun w hw => ?_⟩⟩
    · rw [he, osWake_eq]
      simp only [setWait, setTask, Kernel.emit, Function.update_self, Function.update_idem, htasks]
    · rw [he, osWake_eq]
      exact hleft
    · rw [he, osWake_eq]
      simp only [setWait, setTask, Kernel.emit, Function.update_self, htasks, hlog, hwait]
    · exact (hline _).trans (Lists.remove_self ..)
    · rw [he, osWake_eq]
      exact hbeyond.current
    · rw [he, osWake_eq]
      exact hbeyond.owner
    · rw [he, osWake_eq]
      exact hbeyond.semaphores
    · rw [he, osWake_eq]
      exact hbeyond.queues
    · rw [he, osWake_eq]
      exact hbeyond.events u hu
    · exact (hline w).trans (Lists.remove_of_ne _ _ _ _ (by simpa using hw))

theorem serveAll_shared (h : Sound k) (hn : todo.Nodup) (hl : ∀ u ∈ todo, u ∈ k.links (.wait (.event e))) :
    SharedOut e (k.events e) todo k (todo.foldl (fun k t => k.osEventServe e t) k) := by
  induction todo generalizing k with
  | nil =>
    exact ⟨rfl, ⟨[], rfl, rfl⟩, fun t f ht => absurd ht List.not_mem_nil, fun _ _ => rfl, fun pre hp => hp, .refl k⟩
  | cons t rest ih =>
    have ht := hl t List.mem_cons_self
    obtain ⟨hnot, hnodup⟩ := List.nodup_cons.mp hn
    have hshared := ih ((Atom.serve e t).sound h (((h.linked.2 t).wait _).mp ht)) hnodup fun u hu =>
      serve_stays h ht (fun he => hnot (he ▸ hu)) (hl u (List.mem_cons_of_mem t hu))
    rw [Atom.apply] at hshared
    rw [List.foldl_cons]
    rcases serve_satisfied h ht with ⟨hnone, he⟩ | ⟨matched, hm, hmatch, hsat⟩
    · have hshare : shareOut (k.events e) (requests k (t :: rest)) = shareOut (k.events e) (requests k rest) := by
        rw [requests, List.map_cons, shareOut]
        exact if_pos hnone
      rw [he] at hshared ⊢
      have hrequests : requests (k.emit (.visited e t)) rest = requests k rest := rfl
      obtain ⟨es, hlog, hvisits⟩ := hshared.visits
      refine ⟨?_, ⟨es ++ [Event.visited e t], ?_, ?_⟩, ?_, ?_, fun pre hp => ?_, ?_⟩
      · rw [hshare]
        exact hshared.left
      · rw [hlog, List.append_assoc]
        rfl
      · rw [List.filterMap_append, List.reverse_append, hvisits]
        simp [visitedTask]
      · rw [hshare]
        exact hshared.got
      · rw [hshare]
        exact hshared.rest
      · rw [hshare, hshared.line (pre ++ [t]) (by rw [List.append_assoc]; exact hp), List.append_assoc,
          List.filter_cons_of_pos (by simpa using fun f hf => hnot (got_asked (List.mem_map.mpr ⟨_, hf, rfl⟩)))]
        rfl
      · have hvisited : SameBeyond e k (k.emit (.visited e t)) := ⟨rfl, rfl, rfl, rfl, fun _ _ => rfl, fun _ _ => rfl⟩
        exact hvisited.trans hshared.beyond
    · have hshare : shareOut (k.events e) (requests k (t :: rest)) =
          ((shareOut (leftOver (k.events e) matched (k.tasks t).wait.options) (requests k rest)).1,
            (t, matched) :: (shareOut (leftOver (k.events e) matched (k.tasks t).wait.options) (requests k rest)).2) := by
        rw [requests, List.map_cons, shareOut]
        rw [← hmatch, if_neg hm]
        rfl
      have hothers : ∀ u ∈ rest, (k.osEventServe e t).tasks u = k.tasks u := fun u hu => by
        have hut : u ≠ t := fun he => hnot (he ▸ hu)
        rw [hsat.tasks, Function.update_of_ne hut]
      obtain ⟨hleft, ⟨es, hlog, hvisits⟩, hgot, hrest, hline, hbeyond⟩ := hshared
      rw [hsat.flags, requests_congr hothers] at hleft hgot hrest hline
      refine ⟨?_, ⟨es ++ [Event.woken t (some (.event e)) true, .satisfied e t matched (k.tasks t).wait.options, .visited e t],
        ?_, ?_⟩, fun u f hu => ?_, fun u hu => ?_, fun pre hp => ?_, hsat.beyond.trans hbeyond⟩
      · rw [hshare]
        exact hleft
      · rw [hlog, hsat.log, List.append_assoc]
        rfl
      · rw [List.filterMap_append, List.reverse_append, hvisits]
        simp only [List.filterMap_cons, List.filterMap_nil, visitedTask, if_true]
        rfl
      · rw [hshare] at hu
        rcases List.mem_cons.mp hu with hu | hu
        · injection hu with hut hf
          rw [hut, hf, hrest t fun hm => hnot (got_asked hm), hsat.tasks, Function.update_self]
        · rw [hgot u f hu, hothers u (got_asked (List.mem_map.mpr ⟨_, hu, rfl⟩))]
      · rw [hshare, List.map_cons, List.mem_cons, not_or] at hu
        rw [hrest u hu.2, hsat.tasks, Function.update_of_ne hu.1]
      · have htp : t ∉ pre := fun hm => by
          have hnd : (k.waiters (.event e)).Nodup := h.linked.1.separate.nodup (.wait (.event e))
          rw [hp] at hnd
          exact List.disjoint_of_nodup_append hnd hm List.mem_cons_self
        have hnext : (k.osEventServe e t).waiters (.event e) = pre ++ rest := by
          rw [hsat.line, hp, List.erase_append_right _ htp, List.erase_cons_head]
        rw [hshare, hline pre hnext, List.filter_cons_of_neg (by simp)]
        congr 1
        refine List.filter_congr fun u hu => ?_
        have hut : u ≠ t := fun he => hnot (he ▸ hu)
        simp [hut]

theorem setEvent_shared (h : Sound k) (e : Place c) (flags : Byte) :
    SharedOut e (k.events e ||| flags) (k.waiters (.event e)) k (k.osEventSetFromISR e flags) := by
  have hset : ((Atom.flagsSet e flags).apply k).events e = k.events e ||| flags := Function.update_self ..
  have hbeyond : SameBeyond e k ((Atom.flagsSet e flags).apply k) :=
    ⟨rfl, rfl, rfl, rfl, fun u hu => Function.update_of_ne hu .., fun _ _ => rfl⟩
  rw [setEvent_eq h]
  have hshared := serveAll_shared ((Atom.flagsSet e flags).sound h trivial) (h.linked.1.separate.nodup (.wait (.event e)))
    (e := e) fun u hu => hu
  rw [hset] at hshared
  obtain ⟨hleft, ⟨es, hlog, hvisits⟩, hgot, hrest, hline, hrestBeyond⟩ := hshared
  refine ⟨hleft, ⟨es ++ [Event.flagsSet e flags], ?_, ?_⟩, hgot, hrest, hline, hbeyond.trans hrestBeyond⟩
  · rw [List.append_assoc]
    exact hlog
  · rw [List.filterMap_append, List.reverse_append, hvisits]
    rfl

theorem SameBeyond.of_sim {kl kl' : Kernel c Links} (hk : Sim kl k) (hk' : Sim kl' k') (h : SameBeyond e k k') :
    SameBeyond e kl kl' := by
  have hw : ∀ w, kl.waiters w = k.waiters w := fun w => hk.links_list _
  have hw' : ∀ w, kl'.waiters w = k'.waiters w := fun w => hk'.links_list _
  refine ⟨?_, ?_, ?_, ?_, fun u hu => ?_, fun w hne => ?_⟩
  · rw [hk'.current, hk.current]
    exact h.current
  · rw [hk'.owner, hk.owner]
    exact h.owner
  · rw [hk'.semaphores, hk.semaphores]
    exact h.semaphores
  · rw [hk'.queues, hk.queues]
    exact h.queues
  · rw [hk'.events, hk.events]
    exact h.events u hu
  · rw [hw', hw]
    exact h.lines w hne

/-- Setting flags asks everybody in line once, in the order of the line, and gives each one what those ahead of it have left. -/
theorem reachable_shared_out (k : Kernel c Links) (h : Reachable k) (e : Place c) (flags : Byte) :
    SharedOut e (k.events e ||| flags) (k.waiters (.event e)) k (k.osEventSetFromISR e flags) ∧
    ∀ t ∈ (shareOut (k.events e ||| flags) (requests k (k.waiters (.event e)))).2.map Prod.fst,
      t ∈ LinkStore.toList (k.osEventSetFromISR e flags).links .ready := by
  obtain ⟨l, hr, hs⟩ := reachable_lists h
  have hsound := (rest_of_reachable hr).sound
  have hs' := osEventSetFromISR_sim hs hsound e flags
  obtain ⟨hleft, hvisits, hgot, hrest, hline, hbeyond⟩ := setEvent_shared hsound e flags
  have hw : k.waiters (.event e) = l.waiters (.event e) := hs.links_list _
  have hw' : (k.osEventSetFromISR e flags).waiters (.event e) = (l.osEventSetFromISR e flags).waiters (.event e) :=
    hs'.links_list _
  have hready : LinkStore.toList (k.osEventSetFromISR e flags).links .ready = (l.osEventSetFromISR e flags).links .ready :=
    hs'.links_list _
  have hrequests : requests k (k.waiters (.event e)) = requests l (l.waiters (.event e)) := by
    rw [hw]
    exact requests_congr fun t _ => by rw [hs.tasks]
  refine ⟨⟨?_, ?_, fun t matched hm => ?_, fun t hm => ?_, fun pre hp => ?_, hbeyond.of_sim hs hs'⟩, fun t ht => ?_⟩
  · rw [hrequests, hs.events, hs'.events]
    exact hleft
  · rw [hs.log, hs'.log, hw]
    exact hvisits
  · rw [hrequests, hs.events] at hm
    rw [hs'.tasks, hs.tasks]
    exact hgot t matched hm
  · rw [hrequests, hs.events] at hm
    rw [hs'.tasks, hs.tasks]
    exact hrest t hm
  · rw [hw] at hp
    rw [hrequests, hs.events, hw', hw]
    exact hline pre hp
  · rw [hrequests, hs.events] at ht
    rw [hready]
    obtain ⟨⟨u, matched⟩, hm, rfl⟩ := List.mem_map.mp ht
    refine (((Move.setEvent e flags).sound hsound trivial).linked.2 u).ready.mpr ?_
    show ((l.osEventSetFromISR e flags).tasks u).state &&& OS_TASK_STATE = OS_TASK_READY
    rw [hgot u matched hm]
    simp

theorem reachable_shared_out_taken : ∃ k, steps step (osInit (Config.default 2) Links) flagsAwaited = some k ∧
    (k.osEventSetFromISR 0 7).events 0 = 4 ∧ (k.osEventSetFromISR 0 7).waiters (.event 0) = [] ∧
    1 ∈ LinkStore.toList (k.osEventSetFromISR 0 7).links .ready := by
  have hrun : (steps step (osInit (Config.default 2) Links) flagsAwaited).map
      (fun k => decide (k.waiters (.event 0) = [1] ∧
        shareOut (k.events 0 ||| 7) (requests k (k.waiters (.event 0))) = (4, [(1, 3)]))) = some true := by decide +kernel
  obtain ⟨k, hk, hdec⟩ := Option.map_eq_some_iff.mp hrun
  obtain ⟨hw, hshare⟩ := of_decide_eq_true hdec
  obtain ⟨hshared, hready⟩ := reachable_shared_out k (Reach.steps_reach _ (fun _ _ _ => trivial) .init hk) 0 7
  refine ⟨k, hk, ?_, ?_, hready 1 (by rw [hshare]; simp)⟩
  · rw [hshared.left, hshare]
  · rw [hshared.line [] rfl, hshare, hw]
    simp

end AvrOs
