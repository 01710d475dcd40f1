import AvrOs.Refinement
import AvrOs.Waiting

/-!
# Semaphores lose nothing

What a semaphore had at first and has been given is what it has now, what has been taken
and what has been dropped for want of room.
-/

namespace AvrOs
open Intrusive Transition Kernel

variable {c : Config} {k k' : ListKernel c}

/-! ### The account of a semaphore -/

/-- The semaphore gets a count and a limit. -/
def setsUp (s : Place c) : Event c → Bool
  | .semaphoreInit u _ _ => u = s
  | _ => false

/-- Count and limit it has been initialised with. -/
def initialised (s : Place c) : List (Event c) → Option (ℕ × ℕ)
  | [] => none
  | .semaphoreInit u count limit :: past =>
    if u = s then some (count, limit) else initialised s past
  | _ :: past => initialised s past

/-- Somebody who has waited for the semaphore is woken up with a unit of it. -/
def wakesUp (s : Place c) : Event c → Bool
  | .woken _ (some (.semaphore u)) result => u = s && result
  | _ => false

/-- Entries of the kind since the semaphore has been initialised. -/
def tally (s : Place c) (p : Event c → Bool) (log : List (Event c)) : ℕ :=
  (log.takeWhile fun e => !setsUp s e).countP p

def gaves (s : Place c) : List (Event c) → ℕ := tally s fun e => e = .gave s
def drops (s : Place c) : List (Event c) → ℕ := tally s fun e => e = .dropped s
def takes (s : Place c) : List (Event c) → ℕ := tally s fun e => e = .taken s
def wakes (s : Place c) : List (Event c) → ℕ := tally s (wakesUp s)

/-- The entry is none of this semaphore. -/
def Foreign (s : Place c) (e : Event c) : Prop :=
  setsUp s e = false ∧ e ≠ .gave s ∧ e ≠ .dropped s ∧ e ≠ .taken s ∧ wakesUp s e = false

theorem tally_cons (s : Place c) (p : Event c → Bool) (e : Event c) (log : List (Event c))
    (he : setsUp s e = false) : tally s p (e :: log) = tally s p log + if p e then 1 else 0 := by
  unfold tally
  rw [List.takeWhile_cons_of_pos (by simp [he]), List.countP_cons]

theorem tally_init (s : Place c) (p : Event c → Bool) (count limit : ℕ) (log : List (Event c)) :
    tally s p (.semaphoreInit s count limit :: log) = 0 := by
  unfold tally
  rw [List.takeWhile_cons_of_neg (by simp [setsUp])]
  rfl

theorem initialised_cons (s : Place c) (e : Event c) (log : List (Event c))
    (he : setsUp s e = false) : initialised s (e :: log) = initialised s log := by
  cases e with
  | semaphoreInit u count limit =>
    have hu : u ≠ s := by simpa [setsUp] using he
    simp [initialised, hu]
  | _ => rfl

theorem tally_foreign (s : Place c) (p : Event c → Bool) (es log : List (Event c))
    (h : ∀ e ∈ es, setsUp s e = false ∧ p e = false) : tally s p (es ++ log) = tally s p log := by
  induction es with
  | nil => rfl
  | cons e es ih =>
    obtain ⟨h₁, h₂⟩ := h e List.mem_cons_self
    rw [List.cons_append, tally_cons s p e _ h₁, ih fun x hx => h x (List.mem_cons_of_mem e hx), h₂]
    rfl

theorem initialised_foreign (s : Place c) (es log : List (Event c))
    (h : ∀ e ∈ es, setsUp s e = false) : initialised s (es ++ log) = initialised s log := by
  induction es with
  | nil => rfl
  | cons e es ih =>
    rw [List.cons_append, initialised_cons s e _ (h e List.mem_cons_self),
      ih fun x hx => h x (List.mem_cons_of_mem e hx)]

/-- The account of the semaphore is balanced, provided it has been set up properly. -/
def Balanced (s : Place c) (k : ListKernel c) : Prop :=
  ∀ initial limit, initialised s k.log = some (initial, limit) → initial ≤ limit →
    (k.semaphores s).limit = limit ∧ limit ≤ 255 ∧ (k.semaphores s).count ≤ limit ∧
    (0 < (k.semaphores s).count → k.links (.wait (.semaphore s)) = []) ∧
    initial + gaves s k.log =
      (k.semaphores s).count + takes s k.log + wakes s k.log + drops s k.log

/-- Steps which are none of this semaphore. -/
theorem Balanced.foreign {s : Place c} (h : Balanced s k) {es : List (Event c)}
    (hl : k'.log = es ++ k.log) (he : ∀ e ∈ es, Foreign s e)
    (hs : k'.semaphores s = k.semaphores s)
    (hw : 0 < (k.semaphores s).count → k.links (.wait (.semaphore s)) = [] →
      k'.links (.wait (.semaphore s)) = []) : Balanced s k' := by
  intro initial limit hi hle
  have ht : ∀ p : Event c → Bool, (∀ e, Foreign s e → p e = false) →
      tally s p k'.log = tally s p k.log := fun p hp => by
    rw [hl]
    exact tally_foreign s p es k.log fun e hm => ⟨(he e hm).1, hp e (he e hm)⟩
  rw [hl, initialised_foreign s es k.log fun e hm => (he e hm).1] at hi
  obtain ⟨h₁, h₂, h₃, h₄, h₅⟩ := h initial limit hi hle
  have hg : gaves s k'.log = gaves s k.log := ht _ fun e hf => by simpa using hf.2.1
  have hd : drops s k'.log = drops s k.log := ht _ fun e hf => by simpa using hf.2.2.1
  have htk : takes s k'.log = takes s k.log := ht _ fun e hf => by simpa using hf.2.2.2.1
  have hwk : wakes s k'.log = wakes s k.log := ht _ fun e hf => hf.2.2.2.2
  rw [hs, hg, hd, htk, hwk]
  exact ⟨h₁, h₂, h₃, fun hpos => hw hpos (h₄ hpos), h₅⟩

/-- Steps which are about this semaphore. -/
def Atom.IsOf (s : Place c) : Atom c → Prop
  | .take u | .give u | .semaphoreInit u _ _ => u = s
  | _ => False

theorem Atom.foreign (s : Place c) (a : Atom c) (ha : ¬ a.IsOf s) (e : Event c) (he : a.Writes e) :
    Foreign s e := by
  cases a with
  | called x =>
    obtain ⟨t, mine, rfl⟩ := he
    simp [Foreign, setsUp, wakesUp]
  | leave =>
    obtain ⟨t, call, v, rfl⟩ := he
    simp [Foreign, setsUp, wakesUp]
  | sleep call list timeout =>
    obtain ⟨t, rfl⟩ := he
    simp [Foreign, setsUp, wakesUp]
  | expire t =>
    obtain ⟨w, rfl⟩ := he
    refine ⟨rfl, by simp, by simp, by simp, ?_⟩
    unfold wakesUp
    split <;> simp_all
  | release t m =>
    obtain ⟨u, rfl⟩ := he
    simp [Foreign, setsUp, wakesUp]
  | take u | semaphoreInit u count limit =>
    have hu : u ≠ s := ha
    rw [show e = _ from he]
    simp [Foreign, setsUp, wakesUp, hu]
  | give u =>
    have hu : u ≠ s := ha
    rcases he with rfl | rfl | ⟨t, rfl⟩ <;> simp [Foreign, setsUp, wakesUp, hu]
  | send q item | receive q item =>
    rcases he with ⟨msg, rfl⟩ | ⟨msg, rfl⟩ | ⟨n, rfl⟩ | ⟨t, rfl⟩ <;> simp [Foreign, setsUp, wakesUp]
  | consume e wanted options =>
    obtain ⟨t, f, o, rfl⟩ := he
    simp [Foreign, setsUp, wakesUp]
  | serve e t => rcases he with rfl | ⟨f, o, rfl⟩ | rfl <;> simp [Foreign, setsUp, wakesUp]
  | timerCalled | requeue | kill | park | unpark | create | queueInit | flagsSet | eventInit | tick =>
    rw [show e = _ from he]
    simp [Foreign, setsUp, wakesUp]
  | _ => exact absurd he id

theorem Atom.other_semaphore (s : Place c) (a : Atom c) (h : Sound k) (hg : a.guard k)
    (ha : ¬ a.IsOf s) : (a.apply k).semaphores s = k.semaphores s := by
  cases a with
  | take u | semaphoreInit u count limit => exact Function.update_of_ne (Ne.symm ha) ..
  | give u =>
    have hu : s ≠ u := Ne.symm ha
    rw [apply]
    rcases give_cases k u with ⟨w, rest, -, he⟩ | ⟨-, -, he⟩ | ⟨-, -, he⟩
    · rw [he, osWake_eq]
      rfl
    · rw [he]
      exact Function.update_of_ne hu ..
    · rw [he]
      rfl
  | _ => exact congrFun ((Atom.kept _ h hg).semaphores (by simp [OnSemaphores])) s

/-- Nobody goes to sleep for a semaphore which has something left. -/
theorem Atom.stays_empty (s : Place c) (a : Atom c) (h : Sound k) (hg : a.guard k)
    (hpos : 0 < (k.semaphores s).count) (he : k.links (.wait (.semaphore s)) = []) :
    (a.apply k).links (.wait (.semaphore s)) = [] := by
  refine a.wait_nil h hg _ (fun call timeout hx => ?_) he
  subst hx
  have hzero : (k.semaphores s).count = 0 := hg.2.2.2.2.2.1
  omega

theorem take_balanced {s : Place c} (h : Sound k) (hg : (Atom.take s).guard k) (hb : Balanced s k) :
    Balanced s ((Atom.take s).apply k) := by
  intro initial limit hi hle
  have hlog : ((Atom.take s).apply k).log = .taken s :: k.log := rfl
  have hsem : ((Atom.take s).apply k).semaphores s =
      { k.semaphores s with count := (k.semaphores s).count - 1 } := Function.update_self ..
  have hpos : 0 < (k.semaphores s).count := Nat.pos_of_ne_zero hg
  rw [hlog, initialised_cons s _ _ rfl] at hi
  obtain ⟨h₁, h₂, h₃, h₄, h₅⟩ := hb initial limit hi hle
  rw [hlog, hsem]
  unfold gaves drops takes wakes at h₅ ⊢
  simp only [tally_cons s _ (.taken s) k.log rfl]
  refine ⟨h₁, h₂, by omega, fun _ => (Atom.take s).stays_empty s h hg hpos (h₄ hpos), ?_⟩
  simp [wakesUp]
  omega

theorem give_balanced {s : Place c} (h : Sound k) (hb : Balanced s k) :
    Balanced s ((Atom.give s).apply k) := by
  have hempty := (Atom.give s).stays_empty s h trivial
  rw [Atom.apply] at hempty ⊢
  intro initial limit hi hle
  rcases give_cases k s with ⟨w, rest, hl, he⟩ | ⟨hl, hlt, he⟩ | ⟨hl, hge, he⟩
  · have hw : (k.tasks w).waitList = some (.semaphore s) :=
      ((h.linked.2 w).wait _).mp (by rw [hl]; simp)
    have hlog : (k.osSemaphoreGiveFromISR s).log =
        .woken w (some (.semaphore s)) true :: .gave s :: k.log := by
      rw [he, osWake_eq]
      exact congrArg (fun x => Event.woken w x true :: .gave s :: k.log) hw
    have hsem : (k.osSemaphoreGiveFromISR s).semaphores = k.semaphores := by
      rw [he, osWake_eq]
      rfl
    rw [hlog, initialised_cons s _ _ rfl, initialised_cons s _ _ rfl] at hi
    obtain ⟨h₁, h₂, h₃, h₄, h₅⟩ := hb initial limit hi hle
    rw [hlog, hsem]
    unfold gaves drops takes wakes at h₅ ⊢
    simp only [tally_cons s _ (.woken w (some (.semaphore s)) true) _ rfl,
      tally_cons s _ (.gave s) k.log rfl]
    refine ⟨h₁, h₂, h₃, fun hpos => hempty hpos (h₄ hpos), ?_⟩
    simp [wakesUp]
    omega
  · have hlog : (k.osSemaphoreGiveFromISR s).log = .gave s :: k.log := by
      rw [he]
      rfl
    rw [hlog, initialised_cons s _ _ rfl] at hi
    obtain ⟨h₁, h₂, h₃, h₄, h₅⟩ := hb initial limit hi hle
    have hsem : (k.osSemaphoreGiveFromISR s).semaphores s =
        { k.semaphores s with count := (k.semaphores s).count + 1 } := by
      rw [he]
      refine (Function.update_self ..).trans ?_
      rw [Nat.mod_eq_of_lt (by omega)]
      rfl
    have hnil : (k.osSemaphoreGiveFromISR s).links (.wait (.semaphore s)) = [] := by
      rw [he]
      exact hl
    rw [hlog, hsem, hnil]
    unfold gaves drops takes wakes at h₅ ⊢
    simp only [tally_cons s _ (.gave s) k.log rfl]
    refine ⟨h₁, h₂, by omega, fun _ => trivial, ?_⟩
    simp [wakesUp]
    omega
  · have hlog : (k.osSemaphoreGiveFromISR s).log = .dropped s :: .gave s :: k.log := by
      rw [he]
      rfl
    have hsem : (k.osSemaphoreGiveFromISR s).semaphores = k.semaphores := by
      rw [he]
      rfl
    rw [hlog, initialised_cons s _ _ rfl, initialised_cons s _ _ rfl] at hi
    obtain ⟨h₁, h₂, h₃, h₄, h₅⟩ := hb initial limit hi hle
    rw [hlog, hsem]
    unfold gaves drops takes wakes at h₅ ⊢
    simp only [tally_cons s _ (.dropped s) _ rfl, tally_cons s _ (.gave s) k.log rfl]
    refine ⟨h₁, h₂, h₃, fun hpos => hempty hpos (h₄ hpos), ?_⟩
    simp [wakesUp]
    omega

theorem semaphoreInit_balanced (s : Place c) (count limit : Byte) :
    Balanced s ((Atom.semaphoreInit s count limit).apply k) := by
  intro initial bound hi hle
  have hlog : ((Atom.semaphoreInit s count limit).apply k).log =
      .semaphoreInit s count.toNat limit.toNat :: k.log := rfl
  have hsem : ((Atom.semaphoreInit s count limit).apply k).semaphores s =
      ⟨count.toNat, limit.toNat⟩ := Function.update_self ..
  have hnil : ((Atom.semaphoreInit s count limit).apply k).links (.wait (.semaphore s)) = [] :=
    Function.update_self ..
  rw [hlog] at hi
  simp only [initialised, if_true] at hi
  injection hi with hi
  injection hi with hi hb
  subst hi hb
  rw [hlog, hsem, hnil]
  unfold gaves drops takes wakes
  simp only [tally_init]
  have := limit.isLt
  exact ⟨trivial, by omega, hle, fun _ => trivial, trivial⟩

theorem Atom.balanced (s : Place c) (a : Atom c) (h : Sound k) (hg : a.guard k)
    (hb : Balanced s k) : Balanced s (a.apply k) := by
  by_cases ha : a.IsOf s
  · cases a with
    | take u =>
      rw [show u = s from ha] at hg ⊢
      exact take_balanced h hg hb
    | give u =>
      rw [show u = s from ha]
      exact give_balanced h hb
    | semaphoreInit u count limit =>
      rw [show u = s from ha]
      exact semaphoreInit_balanced s count limit
    | _ => exact absurd ha id
  · obtain ⟨es, he, hw⟩ := a.grows h hg
    exact hb.foreign he (fun e hm => a.foreign s ha e (hw e hm)) (a.other_semaphore s h hg ha)
      fun hpos => a.stays_empty s h hg hpos

/-! ### Every run -/

/-- The action gives the semaphore a unit. -/
def Action.Gives (a : Action c) (s : Place c) : Prop :=
  a = .call (.osSemaphoreGive s) ∨ a = .isrCall (.osSemaphoreGiveFromISR s)

/-- Nobody else drops units, or wakes tasks up with them. -/
theorem step_keeps_units {a : Action c} {s : Place c} (h : Rest k) (hs : k.step a = some k')
    (ha : ¬ a.Gives s) : ∃ es, k'.log = es ++ k.log ∧ .dropped s ∉ es ∧
      ∀ w, .woken w (some (.semaphore s)) true ∉ es := by
  obtain ⟨es, he, hes⟩ := step_writes h hs
  have hgive : ∀ e ∈ es, ∀ y mv x, Allowed k a y mv → mv.Uses x → x.Writes e → x ≠ .give s := by
    rintro e hm y mv x hal hu hw rfl
    rw [Move.uses_alone hu trivial] at hal
    exact ha hal
  refine ⟨es, he, fun hm => ?_, fun w hm => ?_⟩
  all_goals
    obtain ⟨y, mv, x, hal, hu, hw⟩ := hes _ hm
    have hx := hgive _ hm y mv x hal hu hw
    cases x <;> simp [Atom.Writes] at hw hx
    exact hx hw.symm

/-- Units are taken by `osSemaphoreTake` only. -/
theorem step_takes {a : Action c} {s : Place c} (h : Rest k) (hs : k.step a = some k')
    (ha : ∀ timeout, a ≠ .call (.osSemaphoreTake s timeout)) :
    ∃ es, k'.log = es ++ k.log ∧ .taken s ∉ es := by
  obtain ⟨es, he, hes⟩ := step_writes h hs
  refine ⟨es, he, fun hm => ?_⟩
  obtain ⟨y, mv, x, hal, hu, hw⟩ := hes _ hm
  cases x with
  | take u =>
    have hs : s = u := by simpa [Atom.Writes] using hw
    rw [Move.uses_alone hu trivial, ← hs] at hal
    obtain ⟨timeout, he⟩ := hal
    exact ha timeout he
  | _ => simp [Atom.Writes] at hw

/-- What becomes of an attempt to take a unit: whoever gets one is told so at once. -/
structure Attempted {S : Type → Type → Type} (k : Kernel c S) (s : Place c) (timeout : OsTick c)
    (k' : Kernel c S) (es : List (Event c)) : Prop where
  granted : 0 < (k.semaphores s).count → (k.semaphores s).count = (k'.semaphores s).count + 1 ∧
    es.count (.taken s) = 1 ∧
    k'.frames k.currentTask = some (.returning (.osSemaphoreTake s timeout) (.bool true))
  refused : (k.semaphores s).count = 0 → (k'.semaphores s).count = 0 ∧ .taken s ∉ es ∧
    k'.frames k.currentTask ≠ some (.returning (.osSemaphoreTake s timeout) (.bool true))

theorem take_declined (s : Place c) (timeout : OsTick c) (hzero : (k.semaphores s).count = 0) :
    Declined k (.osSemaphoreTake s timeout) (k.osSemaphoreTake s timeout) := by
  unfold osSemaphoreTake
  dsimp only
  rw [if_neg (not_not.mpr hzero)]
  split
  · exact .returns (.same k) rfl rfl
  · exact .blockThen k _ _ timeout _ fun _ hw hl hcur => .returns hw hl hcur

theorem take_attempted {s : Place c} {timeout : OsTick c}
    (hs : k.step (.call (.osSemaphoreTake s timeout)) = some k') :
    ∃ es, k'.log = es ++ k.log ∧ Attempted k s timeout k' es := by
  obtain ⟨-, -, he⟩ := step_call hs
  have hexec : k' = (k.emit (.called k.currentTask (.osSemaphoreTake s timeout)
    (k.mine (.osSemaphoreTake s timeout)))).osSemaphoreTake s timeout := he
  by_cases hzero : (k.semaphores s).count = 0
  · have hr := take_declined (k := k.emit (.called k.currentTask (.osSemaphoreTake s timeout)
      (k.mine (.osSemaphoreTake s timeout)))) s timeout hzero
    rw [← hexec] at hr
    obtain ⟨es, hlog, hes⟩ := hr.waits
    refine ⟨es ++ [Event.called k.currentTask (.osSemaphoreTake s timeout)
      (k.mine (.osSemaphoreTake s timeout))], by rw [hlog]; simp [emit],
      ⟨fun hpos => by omega, fun _ => ⟨?_, fun hm => ?_, hr.told⟩⟩⟩
    · rw [hr.world.semaphores]
      exact hzero
    · rcases List.mem_append.mp hm with hm | hm
      · obtain ⟨list, t, he⟩ := hes _ hm
        cases he
      · simp at hm
  · unfold osSemaphoreTake at hexec
    dsimp only at hexec
    rw [if_pos (show ((k.emit _).semaphores s).count ≠ 0 from hzero)] at hexec
    subst hexec
    refine ⟨[.taken s, .called k.currentTask (.osSemaphoreTake s timeout)
      (k.mine (.osSemaphoreTake s timeout))], rfl, ⟨fun hpos => ⟨?_, by simp, ?_⟩, fun h => absurd h hzero⟩⟩
    · simp only [Kernel.returns, setFrame, emit, setCount, Function.update_self]
      omega
    · exact Function.update_self ..

/-- An action which gives does so at once, and nothing else to semaphores. -/
theorem step_gives {a : Action c} {s : Place c} (hs : k.step a = some k') (ha : a.Gives s) :
    ∃ k₁ : ListKernel c, k₁.links = k.links ∧ k₁.semaphores = k.semaphores ∧ k₁.tasks = k.tasks ∧
      (∃ es, k₁.log = es ++ k.log ∧ ∀ e ∈ es, e ≠ .dropped s) ∧
      k'.semaphores = (k₁.osSemaphoreGiveFromISR s).semaphores ∧
      k'.log = (k₁.osSemaphoreGiveFromISR s).log ∧
      ∀ t, (k'.tasks t).result = ((k₁.osSemaphoreGiveFromISR s).tasks t).result := by
  rcases ha with rfl | rfl
  · obtain ⟨-, -, rfl⟩ := step_call hs
    refine ⟨k.emit (.called k.currentTask (.osSemaphoreGive s) (k.mine (.osSemaphoreGive s))),
      rfl, rfl, rfl, ⟨[.called k.currentTask (.osSemaphoreGive s) (k.mine (.osSemaphoreGive s))],
        rfl, by simp⟩, ?_, ?_, ?_⟩
    · exact (schedule_world _ 0).1.semaphores
    · exact (schedule_world _ 0).2
    · exact (schedule_told _ 0).2
  · obtain ⟨-, rfl⟩ := step_isrCall hs
    exact ⟨k, rfl, rfl, rfl, ⟨[], rfl, by simp⟩, rfl, rfl, fun _ => rfl⟩

/-- What becomes of a unit which is given. -/
structure Given (k : Kernel c Links) (s : Place c) (k' : Kernel c Links) (es : List (Event c)) :
    Prop where
  taken : ∀ w rest, k.waiters (.semaphore s) = w :: rest →
    (k'.semaphores s).count = (k.semaphores s).count ∧ .dropped s ∉ es ∧
    .woken w (some (.semaphore s)) true ∈ es ∧ (k'.tasks w).result = true ∧
    ∀ u ∈ rest, k.priority u < k.priority w ∨
      k.priority u = k.priority w ∧ inLine k.log u < inLine k.log w
  counted : k.waiters (.semaphore s) = [] → (k.semaphores s).count < (k.semaphores s).limit →
    (k'.semaphores s).count = (k.semaphores s).count + 1 ∧ .dropped s ∉ es
  dropped : k.waiters (.semaphore s) = [] → (k.semaphores s).limit ≤ (k.semaphores s).count →
    (k'.semaphores s).count = (k.semaphores s).count ∧ .dropped s ∈ es

/-- A semaphore initialised with this count and this limit has its account balanced. -/
structure Conserved (k : Kernel c Links) (s : Place c) (initial limit : ℕ) : Prop where
  balance : initial + gaves s k.log =
    (k.semaphores s).count + takes s k.log + wakes s k.log + drops s k.log
  bounded : (k.semaphores s).limit = limit ∧ (k.semaphores s).count ≤ limit
  noWaiters : 0 < (k.semaphores s).count → k.waiters (.semaphore s) = []
  gives : ∀ a k', a.Gives s → k.step a = some k' → ∃ es, k'.log = es ++ k.log ∧ Given k s k' es
  takes : ∀ timeout k', k.step (.call (.osSemaphoreTake s timeout)) = some k' →
    ∃ es, k'.log = es ++ k.log ∧ Attempted k s timeout k' es
  /-- Nobody gets a unit in any other way. -/
  grants : ∀ a k' es, k.step a = some k' → k'.log = es ++ k.log →
    (.taken s ∈ es → ∃ timeout, a = .call (.osSemaphoreTake s timeout)) ∧
    ∀ w, .woken w (some (.semaphore s)) true ∈ es → a.Gives s
  drops : ∀ a k' es, k.step a = some k' → k'.log = es ++ k.log → .dropped s ∈ es →
    a.Gives s ∧ k.waiters (.semaphore s) = [] ∧ (k.semaphores s).count = limit

theorem give_given {s : Place c} (h : Sound k) (hi : InLine k) {k₁ : ListKernel c}
    (hlinks : k₁.links = k.links) (hsem : k₁.semaphores = k.semaphores) (htasks : k₁.tasks = k.tasks)
    (hlog : ∃ es, k₁.log = es ++ k.log ∧ ∀ e ∈ es, e ≠ .dropped s)
    (hlim : (k.semaphores s).limit ≤ 255) :
    ∃ es, (k₁.osSemaphoreGiveFromISR s).log = es ++ k.log ∧
      (∀ w rest, k.links (.wait (.semaphore s)) = w :: rest →
        ((k₁.osSemaphoreGiveFromISR s).semaphores s).count = (k.semaphores s).count ∧
        .dropped s ∉ es ∧ .woken w (some (.semaphore s)) true ∈ es ∧
        ((k₁.osSemaphoreGiveFromISR s).tasks w).result = true ∧ ∀ u ∈ rest, k.priority u < k.priority w ∨
          k.priority u = k.priority w ∧ inLine k.log u < inLine k.log w) ∧
      (k.links (.wait (.semaphore s)) = [] → (k.semaphores s).count < (k.semaphores s).limit →
        ((k₁.osSemaphoreGiveFromISR s).semaphores s).count = (k.semaphores s).count + 1 ∧
        .dropped s ∉ es) ∧
      (k.links (.wait (.semaphore s)) = [] → (k.semaphores s).limit ≤ (k.semaphores s).count →
        ((k₁.osSemaphoreGiveFromISR s).semaphores s).count = (k.semaphores s).count ∧
        .dropped s ∈ es) := by
  obtain ⟨es, hes, hno⟩ := hlog
  have hno' : Event.dropped s ∉ es := fun hm => hno _ hm rfl
  rcases give_cases k₁ s with ⟨w, rest, hl, he⟩ | ⟨hl, hlt, he⟩ | ⟨hl, hge, he⟩
  · rw [hlinks] at hl
    have hw : (k₁.tasks w).waitList = some (.semaphore s) := by
      rw [htasks]
      exact ((h.linked.2 w).wait _).mp (by rw [hl]; simp)
    have hnil : k.links (.wait (.semaphore s)) ≠ [] := by
      rw [hl]
      simp
    refine ⟨.woken w (some (.semaphore s)) true :: .gave s :: es, ?_, fun w' rest' hl' => ?_,
      fun hn => absurd hn hnil, fun hn => absurd hn hnil⟩
    · rw [he, osWake_eq]
      refine (congrArg (fun x => Event.woken w x true :: .gave s :: k₁.log) hw).trans ?_
      rw [hes]
      rfl
    · rw [hl] at hl'
      injection hl' with hw' hr'
      subst hw' hr'
      refine ⟨?_, by simpa using hno', by simp, ?_, fun u hu => ?_⟩
      · rw [he, osWake_eq]
        exact congrArg (fun x => (x s).count) hsem
      · rw [he, osWake_eq]
        simp
      · have hp := hi (.semaphore s)
        rw [hl] at hp
        exact (List.pairwise_cons.mp hp).1 u hu
  · rw [hlinks] at hl
    rw [hsem] at hlt
    have hnil : ∀ w rest, k.links (.wait (.semaphore s)) ≠ w :: rest := by
      rw [hl]
      simp
    refine ⟨.gave s :: es, ?_, fun w rest hl' => absurd hl' (hnil w rest),
      fun _ _ => ⟨?_, by simpa using hno'⟩, fun _ hge => by omega⟩
    · rw [he]
      exact congrArg _ hes
    · rw [he]
      refine (congrArg OsSemaphore.count (Function.update_self ..)).trans ?_
      show ((k₁.semaphores s).count + 1) % 256 = _
      rw [hsem, Nat.mod_eq_of_lt (by omega)]
  · rw [hlinks] at hl
    rw [hsem] at hge
    have hnil : ∀ w rest, k.links (.wait (.semaphore s)) ≠ w :: rest := by
      rw [hl]
      simp
    refine ⟨.dropped s :: .gave s :: es, ?_, fun w rest hl' => absurd hl' (hnil w rest),
      fun _ hlt => by omega, fun _ _ => ⟨?_, by simp⟩⟩
    · rw [he]
      exact congrArg (fun l => Event.dropped s :: .gave s :: l) hes
    · rw [he]
      exact congrArg (fun x => (x s).count) hsem

theorem conserved_of_sim {kl : Kernel c Links} {l : ListKernel c} {s : Place c} {initial limit : ℕ}
    (h : Sim kl l) (hr : Rest l) (hb : Balanced s l) (hi : InLine l)
    (hinit : initialised s kl.log = some (initial, limit)) (hle : initial ≤ limit) :
    Conserved kl s initial limit := by
  rw [h.log] at hinit
  obtain ⟨h₁, h₂, h₃, h₄, h₅⟩ := hb initial limit hinit hle
  have hw : kl.waiters (.semaphore s) = l.links (.wait (.semaphore s)) := h.links_list _
  have hgives : ∀ a k', a.Gives s → kl.step a = some k' →
      ∃ es, k'.log = es ++ kl.log ∧ Given kl s k' es := by
    intro a k' ha hs
    obtain ⟨l', hl', h'⟩ := step_sim h hr a hs
    obtain ⟨k₁, e₁, e₂, e₃, e₄, e₅, e₆, e₇⟩ := step_gives hl' ha
    obtain ⟨es, hes, g₁, g₂, g₃⟩ := give_given hr.sound hi e₁ e₂ e₃ e₄ (by omega)
    have hpr : kl.priority = l.priority := funext h.priority
    refine ⟨es, by rw [h'.log, e₆, hes, h.log], ⟨fun w rest hl => ?_, fun hl hlt => ?_, fun hl hge => ?_⟩⟩
    · rw [h'.semaphores, e₅, h.semaphores, h.log, hpr, h'.tasks, e₇]
      exact g₁ w rest (hw ▸ hl)
    · rw [h.semaphores] at hlt
      rw [h'.semaphores, e₅, h.semaphores]
      exact g₂ (hw ▸ hl) hlt
    · rw [h.semaphores] at hge
      rw [h'.semaphores, e₅, h.semaphores]
      exact g₃ (hw ▸ hl) hge
  have htakes : ∀ timeout k', kl.step (.call (.osSemaphoreTake s timeout)) = some k' →
      ∃ es, k'.log = es ++ kl.log ∧ Attempted kl s timeout k' es := by
    intro timeout k' hs
    obtain ⟨l', hl', h'⟩ := step_sim h hr _ hs
    obtain ⟨es, hes, ha⟩ := take_attempted hl'
    refine ⟨es, by rw [h'.log, hes, h.log], ⟨?_, ?_⟩⟩
    · rw [h.semaphores, h'.semaphores, h'.frames, h.current]
      exact ha.granted
    · rw [h.semaphores, h'.semaphores, h'.frames, h.current]
      exact ha.refused
  -- entries are missing on links if they are on lists
  have hmissing : ∀ {a k' es e}, kl.step a = some k' → k'.log = es ++ kl.log →
      (∀ l', l.step a = some l' → ∃ es', l'.log = es' ++ l.log ∧ e ∉ es') → e ∉ es := by
    intro a k' es e hs hes hno
    obtain ⟨l', hl', h'⟩ := step_sim h hr a hs
    obtain ⟨es', hes', hno⟩ := hno l' hl'
    rw [h'.log, h.log] at hes
    have he : es' = es := List.append_cancel_right (hes'.symm.trans hes)
    exact he ▸ hno
  refine ⟨?_, ?_, fun hpos => ?_, hgives, htakes, fun a k' es hs hes => ⟨fun ht => ?_, fun w hwk => ?_⟩,
    fun a k' es hs hes hd => ?_⟩
  · rw [h.log, h.semaphores]
    exact h₅
  · rw [h.semaphores]
    exact ⟨h₁, h₃⟩
  · rw [h.semaphores] at hpos
    rw [hw]
    exact h₄ hpos
  · by_contra hne
    exact hmissing hs hes (fun l' hl' => step_takes hr hl' fun timeout he => hne ⟨timeout, he⟩) ht
  · by_contra hne
    refine hmissing hs hes (fun l' hl' => ?_) hwk
    obtain ⟨es', hes', -, hno⟩ := step_keeps_units hr hl' hne
    exact ⟨es', hes', hno w⟩
  · by_cases ha : a.Gives s
    · obtain ⟨es', hes', hg⟩ := hgives a k' ha hs
      have he : es' = es := List.append_cancel_right (hes'.symm.trans hes)
      subst he
      refine ⟨ha, ?_⟩
      cases hl : kl.waiters (.semaphore s) with
      | cons w rest => exact absurd hd (hg.taken w rest hl).2.1
      | nil =>
        refine ⟨rfl, ?_⟩
        have hlim : (kl.semaphores s).limit = limit := by rw [h.semaphores, h₁]
        have hc : (kl.semaphores s).count ≤ limit := by rw [h.semaphores]; exact h₃
        by_contra hne
        exact (hg.counted hl (by omega)).2 hd
    · refine absurd hd (hmissing hs hes fun l' hl' => ?_)
      obtain ⟨es', hes', hno, -⟩ := step_keeps_units hr hl' ha
      exact ⟨es', hes', hno⟩

theorem init_balanced (s : Place c) : Balanced s (osInit c Lists) := by
  intro initial limit hi
  cases hi

/-- Semaphores lose nothing in any run, whoever takes and gives in whatever order. -/
theorem reachable_conserved (k : Kernel c Links) (h : Reachable k) (s : Place c)
    (initial limit : ℕ) (hinit : initialised s k.log = some (initial, limit))
    (hle : initial ≤ limit) : Conserved k s initial limit := by
  obtain ⟨l, hl, hs⟩ := reachable_lists h
  refine conserved_of_sim hs (rest_of_reachable hl) ?_ ?_ hinit hle
  · exact reachable_keeps hl (init_balanced s) fun _ x hs hg hb => x.balanced s hs hg hb
  · exact reachable_keeps hl (fun _ => .nil) fun _ x hs hg hi => x.inLine hs hg hi

/-- A unit given while a task waits, one which is counted and one which is dropped. The second one is
taken then, and the next attempt is in vain. -/
def unitsGiven : List (Action (Config.default 2)) :=
  [.call (.osSemaphoreInit 0 0 1), .resume, .call (.osTaskCreate 1 3 false), .resume, .run,
    .call (.osSemaphoreTake 0 7), .resume, .call (.osSemaphoreGive 0), .resume, .resume,
    .call (.osSemaphoreGive 0), .resume, .call (.osSemaphoreGive 0), .resume,
    .call (.osSemaphoreTake 0 0), .resume, .call (.osSemaphoreTake 0 0)]

theorem reachable_conserved_taken : ∃ k, steps step (osInit (Config.default 2) Links) unitsGiven =
    some k ∧ takes 0 k.log = 1 ∧ wakes 0 k.log = 1 ∧ drops 0 k.log = 1 ∧ Conserved k 0 0 1 := by
  have hrun : (steps step (osInit (Config.default 2) Links) unitsGiven).map (fun k =>
      decide (initialised 0 k.log = some (0, 1) ∧ takes 0 k.log = 1 ∧ wakes 0 k.log = 1 ∧
        drops 0 k.log = 1)) = some true := by decide +kernel
  obtain ⟨k, hk, hc⟩ := Option.map_eq_some_iff.mp hrun
  obtain ⟨hinit, htakes, hwakes, hdrops⟩ := of_decide_eq_true hc
  exact ⟨k, hk, htakes, hwakes, hdrops, reachable_conserved k
    (Reach.steps_reach _ (fun _ _ _ => trivial) .init hk) 0 0 1 hinit (by decide)⟩

end AvrOs
