import AvrOs.Lives
import AvrOs.Refinement

/-!
# Grants are reported

Whoever wakes a task up does its job first, the task is told later. What it is told is
compared with what the history says.
-/

namespace AvrOs
open Intrusive Transition Kernel

variable {c : Config}

/-! ### Inside a call which had to wait -/

structure Pending (l : Life c) (call : Call c) : Prop where
  waited : hadToWait l.history = true
  asleep : l.kind = OS_TASK_BLOCKED → granted l.history = false
  awake : l.kind ≠ OS_TASK_BLOCKED → l.result = true → granted l.history = true
  mutex : ∀ m, call.locks = some m →
    (l.kind = OS_TASK_BLOCKED → l.waitList = some (.mutex m)) ∧
    (l.owns m ↔ granted l.history = true ∨ wasMine l.history = true)
  event : ∀ e flags options timeout, call = .osEventWait e flags options timeout →
    (l.kind = OS_TASK_BLOCKED → l.waitList = some (.event e)) ∧
    (granted l.history = false → flagsTaken l.history = 0) ∧
    (granted l.history = true →
      l.wait.flags = flagsTaken l.history ∧ flagsTaken l.history ≠ 0)

/-- The frame of the task agrees with its history. -/
structure Coherent (l : Life c) : Prop where
  blocked : l.kind = OS_TASK_BLOCKED → ∃ call, l.frame = some (.blocked call)
  dead : l.kind = OS_TASK_DEAD → l.frame = none
  pending : ∀ call, l.frame = some (.blocked call) → Pending l call
  idle : l.frame = none ∨ l.frame = some .preempted → hadToWait l.history = false

section
variable {l l' : Life c} {t : Place c} {call : Call c} {parks revives beats : Life c → Prop}

/-- A task which sleeps waits for what its call is about. -/
theorem sleep_pending (list : Option (WaitList c)) (timeout : OsTick c)
    (hs : l.Suits call timeout list) : Pending { l with
      kind := OS_TASK_BLOCKED, waitList := list, frame := some (.blocked call)
      timeout := if timeout ≠ OS_WAIT_FOREVER c then some timeout else none
      history := .blocked t list timeout :: l.history } call where
  waited := rfl
  asleep _ := rfl
  awake h := absurd rfl h
  mutex m hm := by
    cases list with
    | none => rcases hs with rfl | ⟨p, period, rfl⟩ <;> cases hm
    | some w =>
      cases w with
      | mutex m' =>
        obtain ⟨ho, hc⟩ := hs
        have he : m' = m := by
          rcases hc with rfl | ⟨rfl, -⟩
          · exact Option.some.inj hm
          · exact Option.some.inj hm
        subst he
        exact ⟨fun _ => rfl, by simpa [granted, wasMine] using ho⟩
      | semaphore s => cases hs; cases hm
      | queue q => obtain ⟨item, -, rfl | rfl⟩ := hs <;> cases hm
      | event e => obtain ⟨flags, options, -, rfl⟩ := hs; cases hm
  event e flags options d he := by
    subst he
    cases list with
    | none => rcases hs with hs | ⟨p, period, hs⟩ <;> cases hs
    | some w =>
      cases w with
      | mutex m' => rcases hs.2 with hs | ⟨hs, -⟩ <;> cases hs
      | semaphore s => cases hs
      | queue q => obtain ⟨item, -, hs | hs⟩ := hs <;> cases hs
      | event e' =>
        obtain ⟨flags', options', -, hs⟩ := hs
        injection hs with he
        subst he
        exact ⟨fun _ => rfl, fun _ => rfl, fun hg => by cases hg⟩

/-- Nothing but the tick passes for a task which is not running. -/
theorem Pending.pass (h : Pending l call) (hk : l.kind = OS_TASK_BLOCKED ↔ l'.kind = OS_TASK_BLOCKED)
    (hw : l'.waitList = l.waitList) (hr : l'.result = true → l.result = true)
    (ho : l'.owns = l.owns) (hx : l'.wait = l.wait) (hh : l'.history = l.history ∨
      ∃ e, l'.history = e :: l.history ∧ (e = .ticked ∨ e = .resumed t)) : Pending l' call := by
  have h₁ : hadToWait l'.history = hadToWait l.history := by
    rcases hh with hh | ⟨e, hh, rfl | rfl⟩ <;> rw [hh] <;> rfl
  have h₂ : granted l'.history = granted l.history := by
    rcases hh with hh | ⟨e, hh, rfl | rfl⟩ <;> rw [hh] <;> rfl
  have h₃ : wasMine l'.history = wasMine l.history := by
    rcases hh with hh | ⟨e, hh, rfl | rfl⟩ <;> rw [hh] <;> rfl
  have h₄ : flagsTaken l'.history = flagsTaken l.history := by
    rcases hh with hh | ⟨e, hh, rfl | rfl⟩ <;> rw [hh] <;> rfl
  refine ⟨by rw [h₁]; exact h.waited, fun hb => by rw [h₂]; exact h.asleep (hk.mpr hb),
    fun hb hr' => by rw [h₂]; exact h.awake (fun hb' => hb (hk.mp hb')) (hr hr'), fun m hm => ?_,
    fun e flags options d he => ?_⟩
  · rw [h₂, h₃, ho, hw]
    exact ⟨fun hb => (h.mutex m hm).1 (hk.mpr hb), (h.mutex m hm).2⟩
  · rw [h₂, h₄, hw, hx]
    obtain ⟨h1, h2, h3⟩ := h.event e flags options d he
    exact ⟨fun hb => h1 (hk.mpr hb), h2, h3⟩

/-- The task is off the list it waited on and did not get anything. -/
theorem Pending.leaves (h : Pending l call) (hk : l'.kind ≠ OS_TASK_BLOCKED)
    (hr : l'.result = false) (ho : l'.owns = l.owns) (hx : l'.wait = l.wait) {e : Event c}
    (hh : l'.history = e :: l.history) (he : (∃ w, e = .woken t w false) ∨ e = .suspended t) :
    Pending l' call := by
  have h₁ : hadToWait l'.history = hadToWait l.history := by
    rcases he with ⟨w, rfl⟩ | rfl <;> rw [hh] <;> rfl
  have h₂ : granted l'.history = granted l.history := by
    rcases he with ⟨w, rfl⟩ | rfl <;> rw [hh] <;> rfl
  have h₃ : wasMine l'.history = wasMine l.history := by
    rcases he with ⟨w, rfl⟩ | rfl <;> rw [hh] <;> rfl
  have h₄ : flagsTaken l'.history = flagsTaken l.history := by
    rcases he with ⟨w, rfl⟩ | rfl <;> rw [hh] <;> rfl
  refine ⟨by rw [h₁]; exact h.waited, fun hb => absurd hb hk,
    fun _ hr' => absurd hr' (by rw [hr]; simp), fun m hm => ?_, fun e flags options d he => ?_⟩
  · rw [h₂, h₃, ho]
    exact ⟨fun hb => absurd hb hk, (h.mutex m hm).2⟩
  · rw [h₂, h₄, hx]
    obtain ⟨-, h2, h3⟩ := h.event e flags options d he
    exact ⟨fun hb => absurd hb hk, h2, h3⟩

theorem Pending.handed (h : Pending l call) (m : Place c) (hk : l.kind = OS_TASK_BLOCKED)
    (hw : l.waitList = some (.mutex m)) :
    Pending { l.wakes t true with owns := fun x => x = m ∨ l.owns x } call where
  waited := h.waited
  asleep hb := absurd hb (by simp [Life.wakes])
  awake _ _ := rfl
  mutex m' hm' := by
    have he := (h.mutex m' hm').1 hk
    rw [hw] at he
    injection he with he
    injection he with he
    exact ⟨fun hb => absurd hb (by simp [Life.wakes]), fun _ => Or.inl rfl, fun _ => Or.inl he.symm⟩
  event e flags options d he := by
    have hw' := (h.event e flags options d he).1 hk
    rw [hw] at hw'
    cases hw'

theorem Pending.given (h : Pending l call) (w : WaitList c) (hk : l.kind = OS_TASK_BLOCKED)
    (hw : l.waitList = some w) (hm : ∀ m, w ≠ .mutex m) (he : ∀ e, w ≠ .event e) :
    Pending (l.wakes t true) call where
  waited := h.waited
  asleep hb := absurd hb (by simp [Life.wakes])
  awake _ _ := rfl
  mutex m hm' := by
    have hw' := (h.mutex m hm').1 hk
    rw [hw] at hw'
    injection hw' with hw'
    exact absurd hw' (hm m)
  event e flags options d hc := by
    have hw' := (h.event e flags options d hc).1 hk
    rw [hw] at hw'
    injection hw' with hw'
    exact absurd hw' (he e)

theorem Pending.served (h : Pending l call) (e : Place c) (flags options : Byte)
    (hk : l.kind = OS_TASK_BLOCKED) (hw : l.waitList = some (.event e)) (hf : flags ≠ 0) :
    Pending ({ l with
      wait := .event flags options
      history := .satisfied e t flags options :: l.history }.wakes t true) call where
  waited := h.waited
  asleep hb := absurd hb (by simp [Life.wakes])
  awake _ _ := rfl
  mutex m hm := by
    have hw' := (h.mutex m hm).1 hk
    rw [hw] at hw'
    cases hw'
  event e' flags' options' d hc :=
    ⟨fun hb => absurd hb (by simp [Life.wakes]), fun hg => absurd hg (by simp [Life.wakes, granted]),
      fun _ => ⟨rfl, hf⟩⟩

theorem Stage.coherent (hst : Stage t parks revives beats l l') (h : Coherent l) : Coherent l' := by
  have hnb : ∀ {call : Call c}, l.frame = none → l.frame ≠ some (.blocked call) :=
    fun hf => by rw [hf]; simp
  cases hst with
  | rest => exact h
  | called x mine hk hf hm =>
    exact ⟨fun hb => h.blocked hb, h.dead, fun call hc => absurd hc (hnb hf), fun _ => rfl⟩
  | returns call v hk hf =>
    refine ⟨fun hb => ?_, fun hd => ?_, fun call hc => by simp at hc, fun hn => by simp at hn⟩
    · rw [hk] at hb; simp at hb
    · rw [hk] at hd; simp at hd
  | pause hk hf =>
    refine ⟨fun hb => ?_, fun hd => ?_, fun call hc => by simp at hc, fun _ => h.idle (Or.inl hf)⟩
    · rw [hk] at hb; simp at hb
    · rw [hk] at hd; simp at hd
  | goesOn hk hf =>
    refine ⟨fun hb => ?_, fun _ => rfl, fun call hc => by simp at hc, fun _ => h.idle (Or.inr hf)⟩
    rw [hk] at hb; simp at hb
  | returned call v hk hf =>
    refine ⟨fun hb => ?_, fun _ => rfl, fun call hc => by simp at hc, fun _ => rfl⟩
    rw [hk] at hb; simp at hb
  | setWait w hk hf => exact ⟨h.blocked, h.dead, fun call hc => absurd hc (hnb hf), h.idle⟩
  | preempt hk =>
    refine ⟨fun hb => by simp at hb, fun hd => by simp at hd, fun call hc => ?_, h.idle⟩
    exact (h.pending call hc).pass (t := t) (by simp [hk]) rfl id rfl rfl (Or.inl rfl)
  | dispatch hk =>
    refine ⟨fun hb => by simp at hb, fun hd => by simp at hd, fun call hc => ?_, h.idle⟩
    exact (h.pending call hc).pass (t := t) (by simp [hk]) rfl id rfl rfl (Or.inl rfl)
  | sleep call list timeout hk hf hi ht hs =>
    refine ⟨fun _ => ⟨call, rfl⟩, fun hd => by simp at hd, fun call' hc => ?_, fun hn => by simp at hn⟩
    simp only [Option.some.injEq, Frame.blocked.injEq] at hc
    subst hc
    exact sleep_pending list timeout hs
  | expired hk ht =>
    obtain ⟨call, hf⟩ := h.blocked hk
    refine ⟨fun hb => by simp [Life.wakes] at hb, fun hd => by simp [Life.wakes] at hd,
      fun call hc => ?_, fun hn => by simp [Life.wakes, hf] at hn⟩
    exact (h.pending call hc).leaves (t := t) (by simp [Life.wakes]) rfl rfl rfl rfl
      (Or.inl ⟨l.waitList, rfl⟩)
  | handed m hk hw =>
    obtain ⟨call, hf⟩ := h.blocked hk
    exact ⟨fun hb => by simp [Life.wakes] at hb, fun hd => by simp [Life.wakes] at hd,
      fun call hc => (h.pending call hc).handed m hk hw, fun hn => by simp [Life.wakes, hf] at hn⟩
  | given w hk hw hm he =>
    obtain ⟨call, hf⟩ := h.blocked hk
    exact ⟨fun hb => by simp [Life.wakes] at hb, fun hd => by simp [Life.wakes] at hd,
      fun call hc => (h.pending call hc).given w hk hw hm he,
      fun hn => by simp [Life.wakes, hf] at hn⟩
  | served e flags options hk hw hf =>
    obtain ⟨call, hfr⟩ := h.blocked hk
    exact ⟨fun hb => by simp [Life.wakes] at hb, fun hd => by simp [Life.wakes] at hd,
      fun call hc => (h.pending call hc).served e flags options hk hw hf,
      fun hn => by simp [Life.wakes, hfr] at hn⟩
  | satisfied e flags options hk hf =>
    exact ⟨h.blocked, h.dead, fun call hc => absurd hc (hnb hf), h.idle⟩
  | killed =>
    exact ⟨fun hb => by simp at hb, fun _ => rfl, fun call hc => by simp at hc, fun _ => rfl⟩
  | parked hk hp =>
    refine ⟨fun hb => by simp at hb, fun hd => by simp at hd, fun call hc => ?_, h.idle⟩
    exact (h.pending call hc).leaves (t := t) (by simp) rfl rfl rfl rfl (Or.inr rfl)
  | revived hk hr =>
    refine ⟨fun hb => by simp at hb, fun hd => by simp at hd, fun call hc => ?_, h.idle⟩
    exact (h.pending call hc).pass (t := t) (by simp [hk]) rfl id rfl rfl
      (Or.inr ⟨_, rfl, Or.inr rfl⟩)
  | created hk =>
    exact ⟨fun hb => by simp at hb, fun _ => rfl, fun call hc => by simp at hc, fun _ => rfl⟩
  | owned m hk hf => exact ⟨h.blocked, h.dead, fun call hc => absurd hc (hnb hf), h.idle⟩
  | released m hm =>
    refine ⟨h.blocked, h.dead, fun call hc => ?_, h.idle⟩
    rcases hm with hd | ⟨⟨v, hf⟩, -⟩
    · exact absurd hc (hnb (h.dead hd))
    · rw [hf] at hc; simp at hc
  | ticked hb =>
    refine ⟨h.blocked, h.dead, fun call hc => ?_, h.idle⟩
    exact (h.pending call hc).pass (t := t) Iff.rfl rfl id rfl rfl (Or.inr ⟨_, rfl, Or.inl rfl⟩)

/-! ### What a call tells -/

/-- What a call which had to wait should return, going by what happened. -/
def outcome (call : Call c) (past : List (Event c)) : Value c :=
  call.told (granted past) (.event (flagsTaken past) 0)

/-- A call which had to wait and was served with flags got some. -/
def Served (call : Call c) (past : List (Event c)) : Prop :=
  ∀ e flags options timeout, call = .osEventWait e flags options timeout →
    granted past = true → flagsTaken past ≠ 0

structure Reporting (t : Place c) (l : Life c) : Prop extends Coherent l where
  kept : ∀ call, l.frame = some (.blocked call) → l.kind ≠ OS_TASK_BLOCKED →
    granted l.history = true → l.result = true
  done : ∀ call v, l.frame = some (.returning call v) → hadToWait l.history = true →
    v = outcome call l.history ∧ Served call l.history
  locked : ∀ m timeout v, l.frame = some (.returning (.osMutexTryLock m timeout) v) →
    ∃ b, v = .bool b ∧ (b = true → l.owns m) ∧ (b = false → l.owns m → wasMine l.history = true)
  told : ∀ call v past, .returned t call v :: past <:+ l.history → hadToWait past = true →
    v = outcome call past ∧ Served call past

/-- The value of a call which had to wait, as the task makes it out of its result. -/
theorem Pending.outcome (h : Pending l call) (hk : l.kind ≠ OS_TASK_BLOCKED)
    (hr : granted l.history = true → l.result = true) :
    call.told l.result l.wait = AvrOs.outcome call l.history ∧ Served call l.history := by
  have hg : l.result = granted l.history := by
    cases hres : l.result with
    | true => exact (h.awake hk hres).symm
    | false =>
      cases hgr : granted l.history with
      | true => rw [hr hgr] at hres; cases hres
      | false => rfl
  refine ⟨?_, fun e flags options d he hgr => ((h.event e flags options d he).2.2 hgr).2⟩
  unfold AvrOs.outcome
  cases call with
  | osEventWait e flags options d =>
    rw [hg]
    cases hgr : granted l.history with
    | true => exact congrArg Value.flags ((h.event e flags options d rfl).2.2 hgr).1
    | false => rfl
  | osMutexTryLock m d => simp [Call.told, hg]
  | osSemaphoreTake s d => simp [Call.told, hg]
  | osQueueSend q item d => simp [Call.told, hg]
  | osQueueReceive q item d => simp [Call.told, hg]
  | _ => rfl

/-- Entries which are no returns do not add anything to be told. -/
theorem told_cons {h : List (Event c)} {e : Event c} (he : ∀ call v, e ≠ .returned t call v)
    (hold : ∀ call v past, .returned t call v :: past <:+ h → hadToWait past = true →
      v = outcome call past ∧ Served call past) :
    ∀ call v past, .returned t call v :: past <:+ e :: h → hadToWait past = true →
      v = outcome call past ∧ Served call past := by
  intro call v past hs hw
  rcases List.suffix_cons_iff.mp hs with hs | hs
  · injection hs with hs
    exact absurd hs.symm (he call v)
  · exact hold call v past hs hw

/-- The task is not in a call, or has not got its result yet. -/
theorem Reporting.busy (h : Reporting t l) (hc : Coherent l')
    (hk : ∀ call, l'.frame = some (.blocked call) → l'.kind ≠ OS_TASK_BLOCKED →
      granted l'.history = true → l'.result = true)
    (hf : ∀ call v, l'.frame ≠ some (.returning call v))
    (hh : l'.history = l.history ∨ ∃ e, l'.history = e :: l.history ∧
      ∀ call v, e ≠ .returned t call v) : Reporting t l' where
  toCoherent := hc
  kept := hk
  done call v hr := absurd hr (hf call v)
  locked m d v hr := absurd hr (hf _ v)
  told := by
    rcases hh with hh | ⟨e, hh, he⟩
    · rw [hh]
      exact h.told
    · rw [hh]
      exact told_cons he h.told

/-- Nothing happens to the task but that time goes by. -/
theorem Reporting.pass (h : Reporting t l) (hc : Coherent l') (hf : l'.frame = l.frame)
    (ho : l'.owns = l.owns)
    (hk : ∀ call, l'.frame = some (.blocked call) → l'.kind ≠ OS_TASK_BLOCKED →
      granted l'.history = true → l'.result = true)
    (hh : l'.history = l.history ∨ ∃ e, l'.history = e :: l.history ∧
      (e = .ticked ∨ e = .resumed t ∨ e = .suspended t)) : Reporting t l' := by
  have h₁ : hadToWait l'.history = hadToWait l.history := by
    rcases hh with hh | ⟨e, hh, rfl | rfl | rfl⟩ <;> rw [hh] <;> rfl
  have h₂ : granted l'.history = granted l.history := by
    rcases hh with hh | ⟨e, hh, rfl | rfl | rfl⟩ <;> rw [hh] <;> rfl
  have h₃ : wasMine l'.history = wasMine l.history := by
    rcases hh with hh | ⟨e, hh, rfl | rfl | rfl⟩ <;> rw [hh] <;> rfl
  have h₄ : flagsTaken l'.history = flagsTaken l.history := by
    rcases hh with hh | ⟨e, hh, rfl | rfl | rfl⟩ <;> rw [hh] <;> rfl
  refine ⟨hc, hk, fun call v hr hw => ?_, fun m d v hr => ?_, ?_⟩
  · rw [hf] at hr
    rw [h₁] at hw
    rw [outcome, Served, h₂, h₄]
    exact h.done call v hr hw
  · rw [hf] at hr
    rw [ho, h₃]
    exact h.locked m d v hr
  · rcases hh with hh | ⟨e, hh, he⟩
    · rw [hh]
      exact h.told
    · rw [hh]
      refine told_cons (fun call v => ?_) h.told
      rcases he with rfl | rfl | rfl <;> simp

/-- A task which has been granted something is not suspended before it runs. -/
def Spared (l : Life c) : Prop :=
  ¬ (l.kind ≠ OS_TASK_BLOCKED ∧ l.result = true ∧ ∃ call, l.frame = some (.blocked call))

theorem Stage.reporting (hst : Stage t Spared revives beats l l') (h : Reporting t l) :
    Reporting t l' := by
  have hc := hst.coherent h.toCoherent
  have hnb : ∀ {call : Call c}, l.frame = none → l.frame ≠ some (.blocked call) :=
    fun hf => by rw [hf]; simp
  have hnr : ∀ {call : Call c} {v}, l.frame = none → l.frame ≠ some (.returning call v) :=
    fun hf => by rw [hf]; simp
  -- whoever is woken up is inside its call
  have hin : l.kind = OS_TASK_BLOCKED → ∀ {call : Call c} {v}, l.frame ≠ some (.returning call v) := by
    intro hk call v hr
    obtain ⟨call', hb⟩ := h.blocked hk
    rw [hb] at hr
    cases hr
  cases hst with
  | rest => exact h
  | called x mine hk hf hm =>
    exact h.busy hc (fun call hb => absurd hb (hnb hf)) (fun _ _ => hnr hf) (Or.inr ⟨_, rfl, by simp⟩)
  | returns call v hk hf =>
    refine ⟨hc, fun call hb => by simp at hb, fun call' v' hr hw => ?_, fun m d v' hr => ?_, h.told⟩
    · injection hr with hr
      injection hr with hr₁ hr₂
      subst hr₁ hr₂
      rcases hf with ⟨hf, -⟩ | ⟨hf, hv⟩
      · rw [h.idle (Or.inl hf)] at hw
        cases hw
      · rw [hv]
        have hkb : l.kind ≠ OS_TASK_BLOCKED := by rw [hk]; simp
        exact (h.pending call hf).outcome hkb (h.kept call hf hkb)
    · injection hr with hr
      injection hr with hr₁ hr₂
      subst hr₁ hr₂
      rcases hf with ⟨-, hp⟩ | ⟨hf, hv⟩
      · exact hp
      · have hkb : l.kind ≠ OS_TASK_BLOCKED := by rw [hk]; simp
        have hm := ((h.pending _ hf).mutex m rfl).2
        refine ⟨l.result, hv, fun hr => hm.mpr (Or.inl ((h.pending _ hf).awake hkb hr)),
          fun hr ho => (hm.mp ho).resolve_left fun hg => ?_⟩
        rw [h.kept _ hf hkb hg] at hr
        cases hr
  | pause hk hf =>
    exact h.busy hc (fun call hb => by simp at hb) (fun _ _ hr => by simp at hr) (Or.inl rfl)
  | goesOn hk hf =>
    exact h.busy hc (fun call hb => by simp at hb) (fun _ _ hr => by simp at hr) (Or.inl rfl)
  | returned call v hk hf =>
    refine ⟨hc, fun call hb => by simp at hb, fun call v hr => by simp at hr,
      fun m d v hr => by simp at hr, fun call' v' past hs hw => ?_⟩
    rcases List.suffix_cons_iff.mp hs with hs | hs
    · injection hs with hs₁ hs₂
      injection hs₁ with _ hc₁ hv₁
      subst hc₁ hv₁ hs₂
      exact h.done call' v' hf hw
    · exact h.told call' v' past hs hw
  | setWait w hk hf =>
    exact h.busy hc (fun call hb => absurd hb (hnb hf)) (fun _ _ => hnr hf) (Or.inl rfl)
  | preempt hk =>
    exact h.pass hc rfl rfl (fun call hb _ hg => h.kept call hb (by rw [hk]; simp) hg) (Or.inl rfl)
  | dispatch hk =>
    exact h.pass hc rfl rfl (fun call hb _ hg => h.kept call hb (by rw [hk]; simp) hg) (Or.inl rfl)
  | sleep call list timeout hk hf hi ht hs =>
    exact h.busy hc (fun call _ hn => absurd rfl hn) (fun _ _ hr => by simp at hr)
      (Or.inr ⟨_, rfl, by simp⟩)
  | expired hk ht =>
    refine h.busy hc (fun call hb _ hg => ?_) (fun _ _ => hin hk) (Or.inr ⟨_, rfl, by simp⟩)
    rw [show granted (l.wakes t false).history = granted l.history from rfl,
      (h.pending call hb).asleep hk] at hg
    cases hg
  | handed m hk hw =>
    exact h.busy hc (fun _ _ _ _ => rfl) (fun _ _ => hin hk) (Or.inr ⟨_, rfl, by simp⟩)
  | given w hk hw hm he =>
    exact h.busy hc (fun _ _ _ _ => rfl) (fun _ _ => hin hk) (Or.inr ⟨_, rfl, by simp⟩)
  | served e flags options hk hw hf =>
    refine ⟨hc, fun _ _ _ _ => rfl, fun _ _ hr => absurd hr (hin hk), fun _ _ _ hr => absurd hr (hin hk),
      ?_⟩
    exact told_cons (by simp) (told_cons (by simp) h.told)
  | satisfied e flags options hk hf =>
    exact h.busy hc (fun call hb => absurd hb (hnb hf)) (fun _ _ => hnr hf) (Or.inr ⟨_, rfl, by simp⟩)
  | killed =>
    exact h.busy hc (fun call hb => by simp at hb) (fun _ _ hr => by simp at hr)
      (Or.inr ⟨_, rfl, by simp⟩)
  | parked hk hp =>
    refine h.pass hc rfl rfl (fun call hb _ hg => ?_) (Or.inr ⟨_, rfl, Or.inr (Or.inr rfl)⟩)
    by_cases hkb : l.kind = OS_TASK_BLOCKED
    · rw [show granted (Event.suspended t :: l.history) = granted l.history from rfl,
        (h.pending call hb).asleep hkb] at hg
      cases hg
    · exact absurd ⟨hkb, h.kept call hb hkb hg, call, hb⟩ hp
  | revived hk hr =>
    exact h.pass hc rfl rfl (fun call hb _ hg => h.kept call hb (by rw [hk]; simp) hg)
      (Or.inr ⟨_, rfl, Or.inr (Or.inl rfl)⟩)
  | created hk =>
    exact h.busy hc (fun call hb => by simp at hb) (fun _ _ hr => by simp at hr)
      (Or.inr ⟨_, rfl, by simp⟩)
  | owned m hk hf =>
    exact h.busy hc (fun call hb => absurd hb (hnb hf)) (fun _ _ => hnr hf) (Or.inl rfl)
  | released m hm =>
    refine ⟨hc, h.kept, h.done, fun m' d v hr => ?_, h.told⟩
    rcases hm with hd | ⟨⟨v, hf⟩, -⟩
    · exact absurd hr (hnr (h.dead hd))
    · rw [hf] at hr
      cases hr
  | ticked hb =>
    exact h.pass hc rfl rfl h.kept (Or.inr ⟨_, rfl, Or.inl rfl⟩)

end

/-! ### Grants in every run -/

namespace Kernel

variable {S : Type → Type → Type}

/-- The action suspends a task which has been granted what it waited for and has not run yet. -/
def suspendsGranted (k : Kernel c S) : Action c → Prop
  | .call (.osTaskSuspend (some t)) => k.stateOf t ≠ OS_TASK_BLOCKED ∧
      (k.tasks t).result = true ∧ ∃ call, k.frames t = some (.blocked call)
  | _ => False

end Kernel

/-- A call which had to wait returns what the task was granted, and a timeout if nothing was.
`osMutexTryLock` returns `true` to whoever owns the mutex then and did not before. -/
structure Reported {S : Type → Type → Type} (k : Kernel c S) : Prop where
  told : ∀ t call v past, .returned t call v :: past <:+ k.history t → hadToWait past = true →
    v = outcome call past ∧ Served call past
  locked : ∀ t m timeout v, k.frames t = some (.returning (.osMutexTryLock m timeout) v) →
    wasMine (k.history t) = false → v = .bool (k.owner m = some t)

section
variable {k k' : ListKernel c}

theorem step_reporting {a : Action c} (h : Rest k) (ha : ¬ k.suspendsGranted a)
    (hr : ∀ t, Reporting t (life k t)) (hs : k.step a = some k') (t : Place c) :
    Reporting t (life k' t) := by
  have hl : Lived t Spared (fun _ => True) (fun _ => True) (life k t) (life k' t) := by
    refine step_lived h hs t (fun s hg hsame hn => ?_) (fun _ _ _ => trivial)
      fun _ _ => trivial
    obtain ⟨htk, o, he, ho, hf⟩ := hsame
    obtain ⟨hkb, hres, call, hfr⟩ := hn
    have hfr' : s.frames t = some (.blocked call) := hfr
    rw [hf] at hfr'
    by_cases ht : t = k.currentTask
    · rw [ht, Function.update_self] at hfr'
      cases hfr'
    · rw [Function.update_of_ne ht] at hfr'
      cases o with
      | none => exact ht ho.symm
      | some u =>
        have hu : u = t := ho
        subst he hu
        refine ha ⟨fun hb => hkb ?_, ?_, call, hfr'⟩
        · show (s.tasks u).state &&& OS_TASK_STATE = _
          rw [htk]
          exact hb
        · rw [← htk]
          exact hres
  exact hl.keeps (fun _ _ hst hi => hst.reporting hi) (hr t)

theorem init_reporting (t : Place c) : Reporting t (life (osInit c Lists) t) := by
  have hf : (life (osInit c Lists) t).frame = none := rfl
  have hh : (life (osInit c Lists) t).history = [] := rfl
  refine ⟨⟨fun hb => ?_, fun _ => hf, fun call hc => ?_, fun _ => by rw [hh]; rfl⟩,
    fun call hc => ?_, fun call v hc => ?_, fun m d v hc => ?_, fun call v past hs => ?_⟩
  · have hk := init_kind t
    rw [show (osInit c Lists).stateOf t = OS_TASK_BLOCKED from hb] at hk
    split at hk <;> simp at hk
  · rw [hf] at hc; cases hc
  · rw [hf] at hc; cases hc
  · rw [hf] at hc; cases hc
  · rw [hf] at hc; cases hc
  · rw [hh] at hs
    simp at hs

end

/-- As long as nobody is suspended between a grant and the moment it runs, grants are reported. -/
theorem grants_reported (k : Kernel c Links)
    (h : ReachableBy (fun k a => ¬ k.suspendsGranted a) k) : Reported k := by
  have hsim : ∃ l : ListKernel c, ReachableBy (fun l a => ¬ l.suspendsGranted a) l ∧ Sim k l := by
    refine reachable_sim (fun k l a hs hk hl => hk ?_) h
    unfold suspendsGranted at hl ⊢
    split at hl
    · rw [hs.stateOf, hs.tasks, hs.frames]
      exact hl
    · exact hl
  obtain ⟨l, hl, hs⟩ := hsim
  have hrep : Rest l ∧ ∀ t, Reporting t (life l t) :=
    hl.invariant (I := fun l => Rest l ∧ ∀ t, Reporting t (life l t))
      ⟨init_rest c, init_reporting⟩ fun _ _ _ _ hi ha hst =>
        ⟨hi.1.step hst, step_reporting hi.1 ha hi.2 hst⟩
  refine ⟨fun t call v past hp hw => ?_, fun t m d v hf hm => ?_⟩
  · rw [hs.history] at hp
    exact (hrep.2 t).told call v past hp hw
  · rw [hs.frames] at hf
    rw [hs.history] at hm
    obtain ⟨b, hv, hb, hb'⟩ := (hrep.2 t).locked m d v hf
    rw [hv, hs.owner]
    cases b with
    | true => simp [show l.owner m = some t from hb rfl]
    | false =>
      have hno : l.owner m ≠ some t := fun ho => by
        have := hb' rfl ho
        rw [show (life l t).history = l.history t from rfl, hm] at this
        cases this
      simp [hno]

/-- A task waits for a mutex, gets it and is suspended before it runs. -/
def suspendedOwner : List (Action (Config.default 2)) :=
  [.call (.osTaskCreate 1 3 false), .resume, .run, .call (.osMutexTryLock 0 10), .resume,
    .call (.osTaskCreate 2 5 false), .call (.osMutexTryLock 0 50), .resume,
    .call (.osTaskSetPriority none 9), .resume, .call (.osMutexUnlock 0), .resume,
    .call (.osTaskSuspend (some 2)), .resume, .call (.osTaskResume 2), .resume,
    .call (.osDelay 1), .resume, .resume]

theorem suspendedOwner_history : (steps step (osInit (Config.default 2) Links) suspendedOwner).map
    (fun k => k.history 2) = some
      [.returned 2 (.osMutexTryLock 0 50) (.bool false), .resumed 2, .suspended 2,
        .woken 2 (some (.mutex 0)) true, .blocked 2 (some (.mutex 0)) 50,
        .called 2 (.osMutexTryLock 0 50) false, .created 2] := by
  decide +kernel

/-- The task owns the mutex, but `osMutexTryLock` returns `false`. -/
theorem grants_not_reported :
    ¬ ∀ k : Kernel (Config.default 2) Links, Reachable k → Reported k := by
  intro h
  obtain ⟨k, hk, hh⟩ := Option.map_eq_some_iff.mp suspendedOwner_history
  have hr := h k (Reach.steps_reach _ (fun _ _ _ => trivial) .init hk)
  have ht := (hr.told 2 (.osMutexTryLock 0 50) (.bool false) _ (by rw [hh]) rfl).1
  revert ht
  decide

/-- A task waits for a semaphore and is given one. -/
def semaphoreTaken : List (Action (Config.default 2)) :=
  [.call (.osTaskCreate 1 3 false), .resume, .run, .call (.osSemaphoreTake 0 7), .resume,
    .call (.osSemaphoreGive 0), .resume, .resume]

theorem grants_reported_taken : ∃ k, steps step (osInit (Config.default 2) Links) semaphoreTaken =
    some k ∧ Reported k := by
  obtain ⟨k, hk⟩ := Option.isSome_iff_exists.mp (show (steps step (osInit (Config.default 2) Links)
    semaphoreTaken).isSome = true by decide +kernel)
  refine ⟨k, hk, grants_reported k (Reach.steps_reach _ (fun a ha s => ?_) .init hk)⟩
  simp only [semaphoreTaken, List.mem_cons, List.not_mem_nil, or_false] at ha
  rcases ha with rfl | rfl | rfl | rfl | rfl | rfl | rfl | rfl <;> exact id

end AvrOs
