import AvrOs.Contexts
import AvrOs.Exactness
import AvrOs.Refinement

/-!
# The kernel on the processor

What the kernel keeps about the tasks, and the processor with their stacks. An action of the kernel is the code of the
kernel up to the switch, and the switch itself if there is another task to run.
-/

namespace AvrOs
open Intrusive Transition Kernel Avr

variable {c : Config} {k k' : ListKernel c} {t : Place c} {a : Action c}

/-! ### Who comes to life, and who dies -/

/-- The task the action creates. -/
def Action.creates : Action c → Option (Place c)
  | .call (.osTaskCreate t _ _) => some t
  | _ => none

/-- The task the action deletes, if it is not dead yet and not the idle one. -/
def Action.deletes (current : Place c) : Action c → Option (Place c)
  | .call (.osTaskDelete o) => some (o.getD current)
  | _ => none

theorem create_kind (p : ℕ) (d : Bool) (u : Place c) :
    ((Atom.create t p d).apply k).stateOf u = if u = t then OS_TASK_READY else k.stateOf u := by
  rw [Atom.apply, osTaskSetup, osReady_eq, stateOf]
  by_cases hu : u = t
  · simp [hu]
  · simp [hu, emit, setFrame, setTask, stateOf]

/-- Nobody comes to life but by being created. -/
theorem step_born (h : Rest k) (hs : k.step a = some k') (ht : k'.stateOf t ≠ OS_TASK_DEAD) :
    k.stateOf t ≠ OS_TASK_DEAD ∨ a.creates = some t := by
  have hm := (step_moves h.sound h.running h.noDead hs).1
  refine (hm.invariant (I := fun s => Sound s ∧ (s.stateOf t ≠ OS_TASK_DEAD → k.stateOf t ≠ OS_TASK_DEAD ∨ a.creates = some t))
    (fun s mv hg hi => ⟨mv.sound hi.1 hg.1, fun hlive => ?_⟩) ⟨h.sound, .inl⟩).2 ht
  by_cases hc : ∃ u p d, mv = .one (.create u p d)
  · obtain ⟨u, p, d, rfl⟩ := hc
    obtain ⟨q, rfl⟩ := hg.2
    by_cases hut : u = t
    · exact .inr (congrArg some hut)
    · refine hi.2 ?_
      rwa [Move.apply, create_kind, if_neg (Ne.symm hut)] at hlive
  · exact hi.2 (mv.live hi.1 hg.1 (fun u p d he => hc ⟨u, p, d, he⟩) hlive)

theorem kill_kind (h : Sound k) {u : Place c} (hu : t ≠ u) : ((Atom.kill u).apply k).stateOf t = k.stateOf t := by
  rw [stateOf, kill_tasks h.linked, Function.update_of_ne hu]
  rfl

/-- Nobody dies but by being deleted. -/
theorem moves_survive {b : ListKernel c} (h : Sound k) (hm : Moves b a k k') (ht : k.stateOf t ≠ OS_TASK_DEAD)
    (hd : a.deletes b.currentTask ≠ some t) : k'.stateOf t ≠ OS_TASK_DEAD := by
  refine (hm.invariant (I := fun s => Sound s ∧ s.stateOf t ≠ OS_TASK_DEAD) (fun s mv hg hi =>
    ⟨mv.sound hi.1 hg.1, (mv.run hi.1 hg.1).keeps (I := fun s => s.stateOf t ≠ OS_TASK_DEAD) hi.1
      (fun s x hss hx hu hlive => ?_) hi.2⟩) ⟨h, ht⟩).2
  by_cases hk : ∃ u, x = .kill u
  · obtain ⟨u, rfl⟩ := hk
    obtain ⟨v, rfl⟩ := mv.uses_kill hg.1 u hu
    obtain ⟨-, o, rfl, ho⟩ := hg.2
    have huv : u = v := by
      obtain hu | ⟨m, hu⟩ | hu := hu
      · injection hu
      · cases hu
      · cases hu
    have htu : t ≠ u := fun he => hd (by rw [Action.deletes, ho, he, huv])
    rwa [kill_kind hss htu]
  · exact x.alive hss hx (fun u he => hk ⟨u, he⟩) hlive

theorem step_survives (h : Rest k) (hs : k.step a = some k') (ht : k.stateOf t ≠ OS_TASK_DEAD)
    (hd : a.deletes k.currentTask ≠ some t) : k'.stateOf t ≠ OS_TASK_DEAD :=
  moves_survive h.sound (step_moves h.sound h.running h.noDead hs).1 ht hd

theorem osTaskCreate_live (h : Sound k) (hr : Running k) (hf : Open k) (p : Byte) (d : Bool)
    (hg : (Atom.create t p.toNat d).guard k) : (k.osTaskCreate t p d).stateOf t ≠ OS_TASK_DEAD := by
  let new := (Atom.create t p.toNat d).apply k
  have hsound : Sound new := Atom.sound (.create t p.toNat d) h hg
  have hlive : new.stateOf t ≠ OS_TASK_DEAD := by
    rw [create_kind, if_pos rfl]
    simp
  obtain ⟨hm, hrun⟩ := Moves.returns (b := k) (.refl new) (create_running hr t p.toNat d hg.1)
    (create_open hr hf t p.toNat d hg.1) (.osTaskCreate t p d) (.task (some t)) trivial rfl
  exact moves_survive hsound (hm.schedule hsound hrun rfl 0 (.inl rfl)).1 hlive (by simp [Action.deletes])

/-- A task is created where nobody lives, and somebody does from then on. -/
theorem step_creates (h : Rest k) (hs : k.step a = some k') (ha : a.creates = some t) :
    k.stateOf t = OS_TASK_DEAD ∧ k'.stateOf t ≠ OS_TASK_DEAD := by
  unfold Action.creates at ha
  split at ha
  case h_2 => cases ha
  case h_1 u p d =>
    injection ha with ha
    subst ha
    simp only [step] at hs
    split at hs
    case isFalse => cases hs
    case isTrue hc =>
      injection hs with hs
      obtain ⟨hf, hdead, hlisted⟩ := hc
      have hopen := userMode_open hf
      let b := k.emit (.called k.currentTask (.osTaskCreate u p d) (k.mine (.osTaskCreate u p d)))
      have hb : Sound b := Atom.sound (.called _) h.sound ⟨h.running.kind, hopen⟩
      rw [← hs]
      exact ⟨hdead, osTaskCreate_live (k := b) hb h.running hopen p d
        ⟨hdead, hlisted, fun hinh m ho => h.noDead hinh m u ho hdead⟩⟩

/-- What an action does to the set of live tasks. -/
structure Turnover (k k' : Kernel c Links) (a : Action c) : Prop where
  running : k.stateOf k.currentTask ≠ OS_TASK_DEAD
  running' : k'.stateOf k'.currentTask ≠ OS_TASK_DEAD
  born : ∀ t, k'.stateOf t ≠ OS_TASK_DEAD → k.stateOf t ≠ OS_TASK_DEAD ∨ a.creates = some t
  survives : ∀ t, k.stateOf t ≠ OS_TASK_DEAD → a.deletes k.currentTask ≠ some t → k'.stateOf t ≠ OS_TASK_DEAD
  created : ∀ t, a.creates = some t → k.stateOf t = OS_TASK_DEAD ∧ k'.stateOf t ≠ OS_TASK_DEAD

theorem reachable_turnover {k k' : Kernel c Links} (h : Reachable k) (hs : k.step a = some k') : Turnover k k' a := by
  obtain ⟨l, hr, hsim⟩ := reachable_lists h
  have hrest := rest_of_reachable hr
  obtain ⟨l', hl, hsim'⟩ := step_sim hsim hrest a hs
  have hrest' := hrest.step hl
  refine ⟨?_, ?_, fun t ht => ?_, fun t ht hd => ?_, fun t ht => ?_⟩
  · rw [hsim.stateOf, hsim.current, hrest.running.kind]
    simp
  · rw [hsim'.stateOf, hsim'.current, hrest'.running.kind]
    simp
  · rw [hsim'.stateOf] at ht
    rw [hsim.stateOf]
    exact step_born hrest hl ht
  · rw [hsim.stateOf] at ht
    rw [hsim.current] at hd
    rw [hsim'.stateOf]
    exact step_survives hrest hl ht hd
  · rw [hsim.stateOf, hsim'.stateOf]
    exact step_creates hrest hl ht

/-! ### The device -/

structure Device (c : Config) where
  kernel : Kernel c Links
  machine : Machine (Place c)

inductive DeviceAction (c : Config) where
  /-- The current task, or a handler, has run for a while. -/
  | run (cpu : Cpu)
  /-- An action of the kernel, `cpu` is the processor once all of it is done but the switch. The function and its
  parameter are for a new task, the switch is called from before `back`. -/
  | act (a : Action c) (function param : Word) (cpu : Cpu) (back : ℕ)

/-- `task->result`. -/
def resultByte (result : Bool) : Byte := if result then 1 else 0

/-- The byte `osPortSwitch` returns is the one the kernel means. -/
def Results (L : Layout (Place c)) (k : Kernel c Links) (m : ℕ → Byte) : Prop :=
  ∀ t, k.stateOf t ≠ OS_TASK_DEAD → m (L.task t + 2) = resultByte (k.tasks t).result

/-- Memory of a new task is large enough and not in use. -/
structure Vacant (target : Target) (L : Layout (Place c)) (k : Kernel c Links) (t : Place c) : Prop where
  fits : L.Fits t
  top : L.high t + 1 = L.task t
  room : L.low t + OS_STACK_MIN target ≤ L.task t
  apart : ∀ u, k.stateOf u ≠ OS_TASK_DEAD → L.Apart t u

namespace Machine

/-- One task runs, the other live ones are parked. -/
structure Hosts {T : Type} (s : Machine T) (current : T) (alive : T → Prop) : Prop where
  running : s.current = current
  waiting : ∀ t, (s.parked t).isSome ↔ t ≠ current ∧ alive t

variable (target : Target) (stackCheck : Bool) (code : ℕ) (L : Layout (Place c))

/-- The stack of a task which is created. -/
def setUp (s : Machine (Place c)) (a : Action c) (function param : Word) : Machine (Place c) :=
  match a.creates with
  | some t => s.apply target stackCheck code L (.osTaskSetup t function param)
  | none => s

/-- The switch, as long as it is not the current task which goes on. -/
def handOver (s : Machine (Place c)) (next : Place c) (back : ℕ) : Machine (Place c) :=
  if next = s.current then s else s.apply target stackCheck code L (.osPortSwitch next back)

/-- Nobody goes back to a task which is deleted. -/
def dropDead (s : Machine (Place c)) (k k' : Kernel c Links) (a : Action c) : Machine (Place c) :=
  match a.deletes k.currentTask with
  | some t => if k'.stateOf t = OS_TASK_DEAD then s.apply target stackCheck code L (.gone t) else s
  | none => s

end Machine

namespace Device

variable (target : Target) (stackCheck : Bool) (code : ℕ) (L : Layout (Place c))

/-- Once all of the kernel's code has run but the switch. -/
def ready (d : Device c) (a : Action c) (function param : Word) (cpu : Cpu) : Machine (Place c) :=
  (d.machine.setUp target stackCheck code L a function param).apply target stackCheck code L (.run cpu)

def step (d : Device c) : DeviceAction c → Option (Device c)
  | .run cpu => some { d with machine := d.machine.apply target stackCheck code L (.run cpu) }
  | .act a function param cpu back => (d.kernel.step a).map fun k =>
    { kernel := k
      machine := ((d.ready target stackCheck code L a function param cpu).handOver target stackCheck code L k.currentTask
        back).dropDead target stackCheck code L d.kernel k a }

/-- What the code of tasks, handlers and the kernel is like: it leaves the stacks of those who are not running and where
they are alone, there is room for one more frame, and results are where they belong. -/
def ok (d : Device c) : DeviceAction c → Prop
  | .run cpu => d.machine.ok target L (.run cpu) ∧
      ∀ t, d.kernel.stateOf t ≠ OS_TASK_DEAD → cpu.memory (L.task t + 2) = d.machine.cpu.memory (L.task t + 2)
  | .act a function param cpu back => ∀ k, d.kernel.step a = some k →
      (∀ t, a.creates = some t → Vacant target L d.kernel t) ∧
      (d.machine.setUp target stackCheck code L a function param).ok target L (.run cpu) ∧ Results L k cpu.memory ∧
      (k.currentTask ≠ d.kernel.currentTask → Room target L d.kernel.currentTask cpu ∧
        back < if target.threeBytePc then 16777216 else 65536)

structure Sound (d : Device c) : Prop where
  machine : d.machine.Sound target L
  hosts : d.machine.Hosts d.kernel.currentTask (d.kernel.stateOf · ≠ OS_TASK_DEAD)
  results : Results L d.kernel d.machine.cpu.memory

/-- `main` is back from `osInit`. -/
structure Initial (d : Device c) : Prop where
  kernel : d.kernel = osInit c Links
  machine : d.machine.Initial target L
  current : d.machine.current = osIdleTask
  result : d.machine.cpu.memory (L.task osIdleTask + 2) = 0

end Device

section
variable {T : Type} [DecidableEq T] {target : Target} {stackCheck : Bool} {code : ℕ} {L : Layout T} {s : Machine T} {t u current : T}
  {alive alive' : T → Prop}

namespace Machine

omit [DecidableEq T] in
theorem Hosts.congr (h : s.Hosts current alive) (hl : ∀ t, t ≠ current → (alive' t ↔ alive t)) : s.Hosts current alive' :=
  ⟨h.running, fun t => (h.waiting t).trans (and_congr_right fun ht => (hl t ht).symm)⟩

omit [DecidableEq T] in
theorem Hosts.live (h : s.Hosts current alive) (hc : alive current) (ht : s.live t) : alive t := by
  obtain rfl | ht := ht
  · rwa [h.running]
  · exact ((h.waiting t).mp ht).2

omit [DecidableEq T] in
theorem Hosts.lives (h : s.Hosts current alive) (ht : alive t) : s.live t := by
  by_cases hc : t = current
  · exact .inl (hc.trans h.running.symm)
  · exact .inr ((h.waiting t).mpr ⟨hc, ht⟩)

theorem Hosts.osTaskSetup (h : s.Hosts current alive) (ht : t ≠ current) (function param : Word) :
    (s.apply target stackCheck code L (.osTaskSetup t function param)).Hosts current (fun u => alive u ∨ u = t) := by
  refine ⟨h.running, fun u => ?_⟩
  rw [apply_setup_parked]
  by_cases hut : u = t
  · simp [hut, ht]
  · rw [Function.update_of_ne hut, h.waiting]
    simp [hut]

theorem Hosts.osPortSwitch (h : s.Hosts current alive) (hc : alive current) (hu : u ≠ current) (back : ℕ) :
    (s.apply target stackCheck code L (.osPortSwitch u back)).Hosts u alive := by
  refine ⟨rfl, fun t => ?_⟩
  have hparked : (s.apply target stackCheck code L (.osPortSwitch u back)).parked =
    Function.update (Function.update s.parked s.current (some { s.cpu with pc := back })) u none := rfl
  rw [hparked]
  by_cases htu : t = u
  · simp [htu]
  · rw [Function.update_of_ne htu, h.running]
    by_cases htc : t = current
    · simp [htc, hc, Ne.symm hu]
    · rw [Function.update_of_ne htc, h.waiting]
      simp [htu, htc]

theorem Hosts.gone (h : s.Hosts current alive) (t : T) :
    (s.apply target stackCheck code L (.gone t)).Hosts current (fun u => alive u ∧ u ≠ t) := by
  refine ⟨h.running, fun u => ?_⟩
  have hparked : (s.apply target stackCheck code L (.gone t)).parked = Function.update s.parked t none := rfl
  rw [hparked]
  by_cases hut : u = t
  · simp [hut]
  · rw [Function.update_of_ne hut, h.waiting]
    simp [hut]

end Machine
end

section
variable {target : Target} {stackCheck : Bool} {code : ℕ} {L : Layout (Place c)} {k k' : Kernel c Links} {s : Machine (Place c)}
  {function param : Word} {cpu : Cpu} {back : ℕ}

namespace Machine

theorem setUp_hosts (h : s.Hosts k.currentTask (k.stateOf · ≠ OS_TASK_DEAD)) (ht : Turnover k k' a) (function param : Word) :
    (s.setUp target stackCheck code L a function param).Hosts k.currentTask
      (fun t => k.stateOf t ≠ OS_TASK_DEAD ∨ a.creates = some t) := by
  unfold setUp
  cases ha : a.creates with
  | none => exact h.congr fun t _ => by simp
  | some t =>
    have hne : t ≠ k.currentTask := fun he => ht.running (he ▸ (ht.created t ha).1)
    exact (h.osTaskSetup hne function param).congr fun u _ => by simp [eq_comm]

theorem setUp_sound (hs : s.Sound target L) (h : s.Hosts k.currentTask (k.stateOf · ≠ OS_TASK_DEAD)) (ht : Turnover k k' a)
    (hv : ∀ t, a.creates = some t → Vacant target L k t) :
    (s.setUp target stackCheck code L a function param).Sound target L := by
  unfold setUp
  cases ha : a.creates with
  | none => exact hs
  | some t =>
    have hvacant := hv t ha
    have hdead := (ht.created t ha).1
    exact hs.osTaskSetup ⟨fun hl => h.live ht.running hl hdead, hvacant.fits, hvacant.top, hvacant.room, fun u hu =>
      hvacant.apart u (h.live ht.running hu)⟩

/-- Whoever is going to run is parked. -/
theorem next_parked (h : s.Hosts k.currentTask (fun t => k.stateOf t ≠ OS_TASK_DEAD ∨ a.creates = some t)) (ht : Turnover k k' a)
    (hne : k'.currentTask ≠ k.currentTask) : (s.parked k'.currentTask).isSome :=
  (h.waiting _).mpr ⟨hne, ht.born _ ht.running'⟩

theorem dropDead_hosts (h : s.Hosts k'.currentTask (fun t => k.stateOf t ≠ OS_TASK_DEAD ∨ a.creates = some t))
    (ht : Turnover k k' a) :
    (s.dropDead target stackCheck code L k k' a).Hosts k'.currentTask (k'.stateOf · ≠ OS_TASK_DEAD) := by
  -- a task which is created is not the one which is deleted
  have hlive : ∀ t, a.deletes k.currentTask ≠ some t →
      (k'.stateOf t ≠ OS_TASK_DEAD ↔ k.stateOf t ≠ OS_TASK_DEAD ∨ a.creates = some t) := fun t hd =>
    ⟨ht.born t, fun hl => hl.elim (fun hl => ht.survives t hl hd) fun hc => (ht.created t hc).2⟩
  unfold dropDead
  cases hd : a.deletes k.currentTask with
  | none => exact h.congr fun t _ => hlive t (by simp [hd])
  | some t =>
    dsimp only
    split
    case isTrue hdead =>
      refine (h.gone t).congr fun u _ => ?_
      by_cases hut : u = t
      · simp [hut, hdead]
      · simp only [ne_eq, hut, not_false_eq_true, and_true]
        exact hlive u (by rw [hd]; simpa using Ne.symm hut)
    case isFalse hdead =>
      refine h.congr fun u _ => ?_
      by_cases hut : u = t
      · rw [hut]
        exact ⟨ht.born t, fun _ => hdead⟩
      · exact hlive u (by rw [hd]; simpa using Ne.symm hut)

theorem dropDead_sound (h : s.Sound target L) : (s.dropDead target stackCheck code L k k' a).Sound target L := by
  unfold dropDead
  split
  · split
    · exact h.gone _
    · exact h
  · exact h

theorem dropDead_parked {t : Place c} {y : Cpu} (hy : s.parked t = some y) (hl : k'.stateOf t ≠ OS_TASK_DEAD) :
    (s.dropDead target stackCheck code L k k' a).parked t = some y := by
  unfold dropDead
  split
  · split
    case isTrue u _ hdead =>
      have hne : t ≠ u := fun he => hl (he ▸ hdead)
      exact (Function.update_of_ne hne ..).trans hy
    · exact hy
  · exact hy

theorem dropDead_cpu : (s.dropDead target stackCheck code L k k' a).cpu = s.cpu := by
  unfold dropDead
  split
  · split <;> rfl
  · rfl

/-- A switch writes `sp`, which is in front of `result`. -/
theorem switch_result {u t : Place c} (hs : s.Sound target L) (hok : s.ok target L (.osPortSwitch u back)) (ht : s.live t) :
    (s.apply target stackCheck code L (.osPortSwitch u back)).cpu.memory (L.task t + 2) = s.cpu.memory (L.task t + 2) := by
  obtain ⟨x, hx⟩ := Option.isSome_iff_exists.mp hok.1
  have hswitched := switched stackCheck code hs hok hx
  have hlow := hok.2.1.low
  have hhigh := hok.2.1.high
  have hsize := (hs.fits t ht).size
  have hcurrent := (hs.fits s.current (.inl rfl)).size
  have hblock : L.block t (L.task t + 2) := ⟨by omega, by omega⟩
  by_cases htc : t = s.current
  · subst htc
    have hstack : ¬ L.stack s.current (L.task s.current + 2) := fun ha => (hs.fits s.current (.inl rfl)).apart _ ha hblock
    unfold Layout.stack at hstack
    exact hswitched.memory _ (by omega) (by omega) (by omega)
  · have hapart := hs.apart t s.current ht (.inl rfl) htc _ (.inr hblock)
    unfold Layout.stack Layout.block at hapart
    exact hswitched.memory _ (by omega) (by omega) (by omega)

/-- The switch the kernel asks for can be made. -/
theorem switch_ok (h : s.Hosts k.currentTask (fun t => k.stateOf t ≠ OS_TASK_DEAD ∨ a.creates = some t)) (ht : Turnover k k' a)
    (hne : k'.currentTask ≠ k.currentTask) (hroom : Room target L k.currentTask s.cpu)
    (hback : back < if target.threeBytePc then 16777216 else 65536) : s.ok target L (.osPortSwitch k'.currentTask back) :=
  ⟨next_parked h ht hne, by rwa [h.running], hback⟩

theorem handOver_spec (hs : s.Sound target L) (h : s.Hosts k.currentTask (fun t => k.stateOf t ≠ OS_TASK_DEAD ∨ a.creates = some t))
    (ht : Turnover k k' a) (hok : k'.currentTask ≠ k.currentTask → Room target L k.currentTask s.cpu ∧
      back < if target.threeBytePc then 16777216 else 65536) :
    (s.handOver target stackCheck code L k'.currentTask back).Sound target L ∧
    (s.handOver target stackCheck code L k'.currentTask back).Hosts k'.currentTask
      (fun t => k.stateOf t ≠ OS_TASK_DEAD ∨ a.creates = some t) ∧
    ∀ t, k.stateOf t ≠ OS_TASK_DEAD ∨ a.creates = some t →
      (s.handOver target stackCheck code L k'.currentTask back).cpu.memory (L.task t + 2) = s.cpu.memory (L.task t + 2) := by
  unfold handOver
  rw [h.running]
  split
  case isTrue he => exact ⟨hs, by rwa [he], fun _ _ => rfl⟩
  case isFalse hne =>
    have hswitch := switch_ok h ht hne (hok hne).1 (hok hne).2
    exact ⟨hs.osPortSwitch hswitch, h.osPortSwitch (.inl ht.running) hne back, fun t hl => switch_result hs hswitch (h.lives hl)⟩

end Machine
end

section
variable {target : Target} {stackCheck : Bool} {code : ℕ} {L : Layout (Place c)} {d d₀ d' : Device c}

namespace Device

theorem ready_spec {k : Kernel c Links} {function param : Word} {cpu : Cpu} {back : ℕ} (hd : d.Sound target L)
    (ht : Turnover d.kernel k a) (hs : d.kernel.step a = some k)
    (hok : d.ok target stackCheck code L (.act a function param cpu back)) :
    (d.ready target stackCheck code L a function param cpu).Sound target L ∧
    (d.ready target stackCheck code L a function param cpu).Hosts d.kernel.currentTask
      (fun t => d.kernel.stateOf t ≠ OS_TASK_DEAD ∨ a.creates = some t) := by
  obtain ⟨hvacant, hrun, -, -⟩ := hok k hs
  have hhosts : (d.machine.setUp target stackCheck code L a function param).Hosts d.kernel.currentTask
      (fun t => d.kernel.stateOf t ≠ OS_TASK_DEAD ∨ a.creates = some t) := Machine.setUp_hosts hd.hosts ht function param
  exact ⟨(Machine.setUp_sound hd.machine hd.hosts ht hvacant).run hrun, hhosts.running, hhosts.waiting⟩

theorem Sound.act {k : Kernel c Links} {function param : Word} {cpu : Cpu} {back : ℕ} (hd : d.Sound target L)
    (ht : Turnover d.kernel k a) (hs : d.kernel.step a = some k)
    (hok : d.ok target stackCheck code L (.act a function param cpu back)) :
    Sound target L ⟨k, ((d.ready target stackCheck code L a function param cpu).handOver target stackCheck code L
      k.currentTask back).dropDead target stackCheck code L d.kernel k a⟩ := by
  obtain ⟨hsound, hhosts⟩ := ready_spec hd ht hs hok
  obtain ⟨-, -, hresults, hroom⟩ := hok k hs
  obtain ⟨hsound', hhosts', hmemory⟩ := Machine.handOver_spec hsound hhosts ht hroom
  refine ⟨Machine.dropDead_sound hsound', Machine.dropDead_hosts hhosts' ht, fun t hl => ?_⟩
  dsimp only
  rw [Machine.dropDead_cpu, hmemory t (ht.born t hl)]
  exact hresults t hl

theorem Initial.sound (h : d.Initial target L) : d.Sound target L := by
  have hkind : ∀ t, d.kernel.stateOf t = if t = osIdleTask then OS_TASK_RUNNING else OS_TASK_DEAD := fun t => by
    rw [h.kernel]
    by_cases ht : t = osIdleTask <;> simp [stateOf, osInit, ht]
  have hcurrent : d.kernel.currentTask = osIdleTask := by
    rw [h.kernel]
    rfl
  have hdead : ∀ t, t ≠ osIdleTask → d.kernel.stateOf t = OS_TASK_DEAD := fun t ht => by rw [hkind, if_neg ht]
  refine ⟨h.machine.sound, ⟨h.current.trans hcurrent.symm, fun t => ?_⟩, fun t ht => ?_⟩
  · rw [h.machine.parked, hcurrent]
    simpa using hdead t
  · obtain rfl : t = osIdleTask := by
      by_contra hne
      exact ht (hdead t hne)
    rw [h.result, h.kernel]
    rfl

theorem Sound.step (hd : d.Sound target L) (hr : Reachable d.kernel) {x : DeviceAction c}
    (hok : d.ok target stackCheck code L x) (hs : d.step target stackCheck code L x = some d') :
    d'.Sound target L ∧ Reachable d'.kernel := by
  cases x with
  | run cpu =>
    injection hs with hs
    rw [← hs]
    have hmachine : (d.machine.apply target stackCheck code L (.run cpu)).Sound target L := hd.machine.run hok.1
    exact ⟨⟨hmachine, ⟨hd.hosts.running, hd.hosts.waiting⟩, fun t ht => (hok.2 t ht).trans (hd.results t ht)⟩, hr⟩
  | act a function param cpu back =>
    obtain ⟨k, hk, rfl⟩ := Option.map_eq_some_iff.mp hs
    exact ⟨hd.act (reachable_turnover hr hk) hk hok, .step a hr trivial hk⟩

theorem ready_parked (hd : d.Sound target L) {k : Kernel c Links} (ht : Turnover d.kernel k a) {t : Place c} {y : Cpu}
    (hy : d.machine.parked t = some y) (function param : Word) (cpu : Cpu) :
    (d.ready target stackCheck code L a function param cpu).parked t = some y := by
  have hlive := ((hd.hosts.waiting t).mp (Option.isSome_of_eq_some hy)).2
  show (d.machine.setUp target stackCheck code L a function param).parked t = some y
  unfold Machine.setUp
  cases ha : a.creates with
  | none => exact hy
  | some u =>
    have hne : u ≠ t := fun he => hlive (he ▸ (ht.created u ha).1)
    exact Machine.apply_spares hd.machine (a := .osTaskSetup u function param) hne hy

theorem Sound.stays_act (hd : d.Sound target L) {k : Kernel c Links} (ht : Turnover d.kernel k a) {function param : Word}
    {cpu : Cpu} {back : ℕ} (hk : d.kernel.step a = some k) (hok : d.ok target stackCheck code L (.act a function param cpu back))
    (hs : d.step target stackCheck code L (.act a function param cpu back) = some d') {t : Place c} {y : Cpu}
    (hready : (d.ready target stackCheck code L a function param cpu).parked t = some y) (hc : d'.kernel.currentTask ≠ t)
    (hl : d'.kernel.stateOf t ≠ OS_TASK_DEAD) : d'.machine.parked t = some y := by
  obtain ⟨k', hk', rfl⟩ := Option.map_eq_some_iff.mp hs
  obtain rfl : k = k' := Option.some.inj (hk.symm.trans hk')
  refine Machine.dropDead_parked ?_ hl
  unfold Machine.handOver
  split
  · exact hready
  · exact Machine.apply_spares (ready_spec hd ht hk hok).1 (a := .osPortSwitch k.currentTask back) hc hready

/-- A task which is parked stays so until it runs again or is deleted. -/
theorem Sound.stays (hd : d.Sound target L) (hr : Reachable d.kernel) {x : DeviceAction c} {t : Place c} {y : Cpu}
    (hok : d.ok target stackCheck code L x) (hs : d.step target stackCheck code L x = some d') (hy : d.machine.parked t = some y)
    (hc : d'.kernel.currentTask ≠ t) (hl : d'.kernel.stateOf t ≠ OS_TASK_DEAD) : d'.machine.parked t = some y := by
  cases x with
  | run cpu =>
    injection hs with hs
    rw [← hs]
    exact hy
  | act a function param cpu back =>
    obtain ⟨k, hk, -⟩ := Option.map_eq_some_iff.mp hs
    have ht := reachable_turnover hr hk
    exact hd.stays_act ht hk hok hs (ready_parked hd ht hy function param cpu) hc hl

/-- What an action does which comes with a switch. -/
theorem Sound.switched (hd : d.Sound target L) (hr : Reachable d.kernel) {function param : Word} {cpu : Cpu} {back : ℕ}
    (hok : d.ok target stackCheck code L (.act a function param cpu back))
    (hs : d.step target stackCheck code L (.act a function param cpu back) = some d')
    (hne : d'.kernel.currentTask ≠ d.kernel.currentTask) :
    (∃ x, (d.ready target stackCheck code L a function param cpu).parked d'.kernel.currentTask = some x ∧
      Switched target L d.kernel.currentTask d'.kernel.currentTask cpu x back d'.machine.cpu) ∧
    (d'.kernel.stateOf d.kernel.currentTask ≠ OS_TASK_DEAD →
      d'.machine.parked d.kernel.currentTask = some { cpu with pc := back }) := by
  obtain ⟨k, hk, rfl⟩ := Option.map_eq_some_iff.mp hs
  have ht := reachable_turnover hr hk
  obtain ⟨hsound, hhosts⟩ := ready_spec hd ht hk hok
  obtain ⟨-, -, -, hroom⟩ := hok k hk
  have hswitch := Machine.switch_ok hhosts ht hne (hroom hne).1 (hroom hne).2
  have hover : (d.ready target stackCheck code L a function param cpu).handOver target stackCheck code L k.currentTask back =
      (d.ready target stackCheck code L a function param cpu).apply target stackCheck code L
        (.osPortSwitch k.currentTask back) := if_neg (by rw [hhosts.running]; exact hne)
  obtain ⟨x, hx⟩ := Option.isSome_iff_exists.mp hswitch.1
  have hswitched := Machine.switched stackCheck code hsound hswitch hx
  rw [hhosts.running, ← hover] at hswitched
  refine ⟨⟨x, hx, ?_⟩, fun hl => Machine.dropDead_parked ?_ hl⟩
  · dsimp only
    rw [Machine.dropDead_cpu]
    exact hswitched
  · rw [hover]
    refine (Function.update_of_ne (Ne.symm hne) ..).trans ?_
    rw [hhosts.running]
    exact Function.update_self ..

/-- As long as the task neither runs nor is deleted. -/
def waits (target : Target) (stackCheck : Bool) (code : ℕ) (L : Layout (Place c)) (t : Place c) (d : Device c)
    (x : DeviceAction c) : Prop :=
  d.ok target stackCheck code L x ∧ ∀ d', d.step target stackCheck code L x = some d' →
    d'.kernel.currentTask ≠ t ∧ d'.kernel.stateOf t ≠ OS_TASK_DEAD

/-- What a task is parked with is what it goes on with. -/
theorem comes_back {d₂ : Device c} {t : Place c} {y : Cpu} {function param : Word} {cpu : Cpu} {back : ℕ}
    (hd : d.Sound target L) (hr : Reachable d.kernel) (hy : d.machine.parked t = some y)
    (hrun : Reach (step target stackCheck code L) (waits target stackCheck code L t) d d')
    (hin : d'.ok target stackCheck code L (.act a function param cpu back))
    (hs : d'.step target stackCheck code L (.act a function param cpu back) = some d₂) (hback : d₂.kernel.currentTask = t) :
    Resumed L t y (resultByte (d₂.kernel.tasks t).result) d₂.machine.cpu ∧ d₂.machine.cpu.interrupts = cpu.interrupts := by
  obtain ⟨hd', hr', hparked⟩ := hrun.invariant
    (I := fun e => e.Sound target L ∧ Reachable e.kernel ∧ e.machine.parked t = some y)
    ⟨hd, hr, hy⟩ fun e x e' _ hi hok he =>
      have hstep := hi.1.step hi.2.1 hok.1 he
      ⟨hstep.1, hstep.2, hi.1.stays hi.2.1 hok.1 he hi.2.2 (hok.2 e' he).1 (hok.2 e' he).2⟩
  have hne : d₂.kernel.currentTask ≠ d'.kernel.currentTask := by
    rw [hback]
    exact ((hd'.hosts.waiting _).mp (Option.isSome_of_eq_some hparked)).1
  obtain ⟨x, hx, hswitched⟩ := (hd'.switched hr' hin hs hne).1
  have hresumed := hswitched.resumed
  obtain ⟨k, hk, he⟩ := Option.map_eq_some_iff.mp hs
  have hkernel : d₂.kernel = k := by rw [← he]
  have ht := reachable_turnover hr' hk
  have hresult := (hin k hk).2.2.1 _ ht.running'
  rw [← hkernel] at hresult
  rw [hback] at hx hresumed hresult
  rw [ready_parked hd' ht hparked] at hx
  injection hx with hx
  rw [hresult, ← hx] at hresumed
  exact ⟨hresumed, hswitched.interrupts⟩

theorem reachable_sound (h₀ : d₀.Initial target L) (h : Reach (step target stackCheck code L) (ok target stackCheck code L) d₀ d) :
    d.Sound target L ∧ Reachable d.kernel :=
  h.invariant (I := fun d => d.Sound target L ∧ Reachable d.kernel) ⟨h₀.sound, h₀.kernel ▸ .init⟩
    fun _ _ _ _ hi hok hs => hi.1.step hi.2 hok hs

/-- In every state the device gets to, the task the kernel means is the one which runs. Everybody else who is not dead
has what it goes on with on a stack of its own, and so has whoever the kernel picks next. -/
theorem reachable_parked (h₀ : d₀.Initial target L)
    (h : Reach (step target stackCheck code L) (ok target stackCheck code L) d₀ d) :
    d.machine.current = d.kernel.currentTask ∧
    (∀ t, t ≠ d.kernel.currentTask → d.kernel.stateOf t ≠ OS_TASK_DEAD →
      ∃ x, d.machine.parked t = some x ∧ Parked target L d.machine.cpu.memory t x) ∧
    (∀ t u, d.kernel.stateOf t ≠ OS_TASK_DEAD → d.kernel.stateOf u ≠ OS_TASK_DEAD → t ≠ u → L.Apart t u) ∧
    ∀ a function param cpu back d', d.ok target stackCheck code L (.act a function param cpu back) →
      d.step target stackCheck code L (.act a function param cpu back) = some d' →
      d'.kernel.currentTask ≠ d.kernel.currentTask →
      ∃ x, (d.ready target stackCheck code L a function param cpu).parked d'.kernel.currentTask = some x ∧
        Switched target L d.kernel.currentTask d'.kernel.currentTask cpu x back d'.machine.cpu := by
  obtain ⟨hd, hr⟩ := reachable_sound h₀ h
  refine ⟨hd.hosts.running, fun t hc ht => ?_, fun t u ht hu => hd.machine.apart t u (hd.hosts.lives ht) (hd.hosts.lives hu),
    fun a function param cpu back d' hok hs hne => (hd.switched hr hok hs hne).1⟩
  obtain ⟨x, hx⟩ := Option.isSome_iff_exists.mp ((hd.hosts.waiting t).mpr ⟨hc, ht⟩)
  exact ⟨x, hx, hd.machine.parked t x hx⟩

/-- A task which is switched out, and neither deleted nor run again in between, gets back with its registers and its stack
as they were when it called the switch. What the switch returns is the result the kernel has for it by then. -/
theorem reachable_resumed {d₁ d₂ : Device c} {a a' : Action c} {function param function' param' : Word} {cpu cpu' : Cpu}
    {back back' : ℕ} (h₀ : d₀.Initial target L)
    (h : Reach (step target stackCheck code L) (ok target stackCheck code L) d₀ d)
    (hout : d.ok target stackCheck code L (.act a function param cpu back))
    (hs : d.step target stackCheck code L (.act a function param cpu back) = some d₁)
    (hc : d₁.kernel.currentTask ≠ d.kernel.currentTask) (hl : d₁.kernel.stateOf d.kernel.currentTask ≠ OS_TASK_DEAD)
    (hrun : Reach (step target stackCheck code L) (waits target stackCheck code L d.kernel.currentTask) d₁ d')
    (hin : d'.ok target stackCheck code L (.act a' function' param' cpu' back'))
    (hs' : d'.step target stackCheck code L (.act a' function' param' cpu' back') = some d₂)
    (hback : d₂.kernel.currentTask = d.kernel.currentTask) :
    Resumed L d.kernel.currentTask { cpu with pc := back } (resultByte (d₂.kernel.tasks d.kernel.currentTask).result)
      d₂.machine.cpu ∧ d₂.machine.cpu.interrupts = cpu'.interrupts := by
  obtain ⟨hd, hr⟩ := reachable_sound h₀ h
  obtain ⟨hd₁, hr₁⟩ := hd.step hr hout hs
  exact comes_back hd₁ hr₁ ((hd.switched hr hout hs hc).2 hl) hrun hin hs' hback

/-- A task which is created starts with its function and its parameter, no matter whether it runs at once or later. -/
theorem reachable_started {d₁ : Device c} {t : Place c} {priority : Byte} {dynamic : Bool} {function param : Word} {cpu : Cpu}
    {back : ℕ} (h₀ : d₀.Initial target L)
    (h : Reach (step target stackCheck code L) (ok target stackCheck code L) d₀ d)
    (hnew : d.ok target stackCheck code L (.act (.call (.osTaskCreate t priority dynamic)) function param cpu back))
    (hs : d.step target stackCheck code L (.act (.call (.osTaskCreate t priority dynamic)) function param cpu back) = some d₁) :
    (d₁.kernel.currentTask = t → Started target L t function param d₁.machine.cpu) ∧
    (d₁.kernel.currentTask ≠ t → ∀ d' d₂ a function' param' cpu' back',
      Reach (step target stackCheck code L) (waits target stackCheck code L t) d₁ d' →
      d'.ok target stackCheck code L (.act a function' param' cpu' back') →
      d'.step target stackCheck code L (.act a function' param' cpu' back') = some d₂ → d₂.kernel.currentTask = t →
      Started target L t function param d₂.machine.cpu) := by
  obtain ⟨hd, hr⟩ := reachable_sound h₀ h
  obtain ⟨hd₁, hr₁⟩ := hd.step hr hnew hs
  obtain ⟨k, hk, he⟩ := Option.map_eq_some_iff.mp hs
  have hkernel : d₁.kernel = k := by rw [← he]
  have ht := reachable_turnover hr hk
  obtain ⟨hdead, hlive⟩ := ht.created t rfl
  have hvacant := (hnew k hk).1 t rfl
  -- the frame of the new task
  have hready : (d.ready target stackCheck code L (.call (.osTaskCreate t priority dynamic)) function param cpu).parked t =
      some (firstContext target (d.machine.setupStack target stackCheck L t function param) (L.task t - 1) param) :=
    Function.update_self ..
  refine ⟨fun hc => ?_, fun hc d' d₂ a function' param' cpu' back' hrun hin hs' hback => ?_⟩
  · have hne : t ≠ d.kernel.currentTask := fun he => ht.running (he ▸ hdead)
    obtain ⟨x, hx, hswitched⟩ := (hd.switched hr hnew hs (hc ▸ hne)).1
    rw [hc] at hx hswitched
    rw [hready] at hx
    injection hx with hx
    have hresumed := hswitched.resumed
    rw [← hx] at hresumed
    exact Machine.setupStack_started hvacant.fits hvacant.top hvacant.room hresumed
  · have hparked := hd.stays_act ht hk hnew hs hready hc (hkernel ▸ hlive)
    exact Machine.setupStack_started hvacant.fits hvacant.top hvacant.room
      (comes_back hd₁ hr₁ hparked hrun hin hs' hback).1

/-! Two tasks, the code of the kernel does nothing but to switch. -/

def deviceLayout : Layout (Place (Config.default 1)) where
  size := 28
  task t := 0x500 + 0x400 * t.val
  low t := 0x400 + 0x400 * t.val
  high t := 0x4ff + 0x400 * t.val

def deviceStart : Device (Config.default 1) where
  kernel := osInit _ Links
  machine :=
    { cpu := ⟨fun r => BitVec.ofNat 8 r.val, 0x4f0, 0, false, fun _ => 0⟩
      current := osIdleTask
      parked _ := none }

def quietly (d : Device (Config.default 1)) (a : Action (Config.default 1)) : DeviceAction (Config.default 1) :=
  .act a 0x1234 0x5678 (d.machine.setUp Machine.pairTarget true 0x600 deviceLayout a 0x1234 0x5678).cpu 100

abbrev deviceNext (d : Device (Config.default 1)) (a : Action (Config.default 1)) : Device (Config.default 1) :=
  (d.step Machine.pairTarget true 0x600 deviceLayout (quietly d a)).getD d

/-- `main` has created a task. -/
abbrev deviceReady : Device (Config.default 1) := deviceNext (deviceNext deviceStart (.call (.osTaskCreate 1 3 false))) .resume

/-- The task runs. -/
abbrev deviceRunning : Device (Config.default 1) := deviceNext deviceReady .run

theorem deviceLayout_fits (t : Place (Config.default 1)) : deviceLayout.Fits t := by
  have ht := t.isLt
  simp only [Config.default] at ht
  constructor <;> simp [deviceLayout, Layout.stack, Layout.block] <;> omega

theorem deviceLayout_apart {t u : Place (Config.default 1)} (h : t ≠ u) : deviceLayout.Apart t u := by
  have htu : t.val ≠ u.val := fun he => h (Fin.ext he)
  intro a
  simp [deviceLayout, Layout.stack, Layout.block]
  omega

theorem deviceStart_initial : deviceStart.Initial Machine.pairTarget deviceLayout :=
  ⟨rfl, ⟨fun _ => rfl, deviceLayout_fits _⟩, rfl, rfl⟩

/-- What there is to check. -/
def quiet (d : Device (Config.default 1)) (a : Action (Config.default 1)) (k : Kernel (Config.default 1) Links) : Prop :=
  let x := (d.machine.setUp Machine.pairTarget true 0x600 deviceLayout a 0x1234 0x5678).cpu
  (∀ t, a.creates = some t → ∀ u, d.kernel.stateOf u ≠ OS_TASK_DEAD → t ≠ u) ∧
  (∀ t, k.stateOf t ≠ OS_TASK_DEAD → x.memory (deviceLayout.task t + 2) = resultByte (k.tasks t).result) ∧
  deviceLayout.low d.kernel.currentTask + 20 ≤ x.sp + 1 ∧ x.sp ≤ deviceLayout.high d.kernel.currentTask

instance (d : Device (Config.default 1)) (a : Action (Config.default 1)) (k : Kernel (Config.default 1) Links) :
    Decidable (quiet d a k) := inferInstanceAs (Decidable (_ ∧ _ ∧ _ ∧ _))

theorem quietly_ok {d : Device (Config.default 1)} {a : Action (Config.default 1)}
    (h : (d.kernel.step a).any (fun k => decide (quiet d a k)) = true) :
    d.ok Machine.pairTarget true 0x600 deviceLayout (quietly d a) ∧
    d.step Machine.pairTarget true 0x600 deviceLayout (quietly d a) = some (deviceNext d a) := by
  cases hk : d.kernel.step a with
  | none =>
    rw [hk] at h
    cases h
  | some k =>
    rw [hk] at h
    obtain ⟨hnew, hresults, hlow, hhigh⟩ : quiet d a k := of_decide_eq_true h
    refine ⟨fun k' hk' => ?_, ?_⟩
    · rw [hk] at hk'
      injection hk' with hk'
      rw [← hk']
      refine ⟨fun t ht => ⟨deviceLayout_fits t, ?_, ?_, fun u hu => deviceLayout_apart (hnew t ht u hu)⟩,
        fun _ _ _ _ => rfl, hresults, fun _ => ⟨⟨hlow, hhigh⟩, by decide⟩⟩
      · simp [deviceLayout]
        omega
      · show deviceLayout.low t + 58 ≤ deviceLayout.task t
        simp [deviceLayout]
        omega
    · have hstep : d.step Machine.pairTarget true 0x600 deviceLayout (quietly d a) =
          (d.kernel.step a).map _ := rfl
      rw [deviceNext, hstep, hk]
      rfl

theorem deviceReady_reached : Reach (step Machine.pairTarget true 0x600 deviceLayout)
    (ok Machine.pairTarget true 0x600 deviceLayout) deviceStart deviceReady := by
  obtain ⟨hok₁, hs₁⟩ := quietly_ok (d := deviceStart) (a := .call (.osTaskCreate 1 3 false)) (by decide +kernel)
  obtain ⟨hok₂, hs₂⟩ := quietly_ok (d := deviceNext deviceStart (.call (.osTaskCreate 1 3 false))) (a := .resume)
    (by decide +kernel)
  exact .step _ (.step _ .init hok₁ hs₁) hok₂ hs₂

theorem reachable_parked_ready : ∃ x, deviceReady.machine.parked 1 = some x ∧
    Parked Machine.pairTarget deviceLayout deviceReady.machine.cpu.memory 1 x :=
  (reachable_parked deviceStart_initial deviceReady_reached).2.1 1 (by decide +kernel) (by decide +kernel)

/-- `main` is back once the task has gone to sleep. -/
theorem reachable_resumed_delay :
    Resumed deviceLayout osIdleTask { deviceReady.machine.cpu with pc := 100 } 0
      (deviceNext deviceRunning (.call (.osDelay 5))).machine.cpu := by
  obtain ⟨hok, hs⟩ := quietly_ok (d := deviceReady) (a := .run) (by decide +kernel)
  obtain ⟨hok', hs'⟩ := quietly_ok (d := deviceRunning) (a := .call (.osDelay 5)) (by decide +kernel)
  exact (reachable_resumed deviceStart_initial deviceReady_reached hok hs (by decide +kernel)
    (by decide +kernel) .init hok' hs' (by decide +kernel)).1

theorem reachable_started_run :
    Started Machine.pairTarget deviceLayout 1 0x1234 0x5678 deviceRunning.machine.cpu := by
  obtain ⟨hok, hs⟩ := quietly_ok (d := deviceStart) (a := .call (.osTaskCreate 1 3 false)) (by decide +kernel)
  obtain ⟨hok₁, hs₁⟩ := quietly_ok (d := deviceNext deviceStart (.call (.osTaskCreate 1 3 false))) (a := .resume)
    (by decide +kernel)
  obtain ⟨hok₂, hs₂⟩ := quietly_ok (d := deviceReady) (a := .run) (by decide +kernel)
  refine (reachable_started deviceStart_initial .init hok hs).2 (by decide +kernel) _ _ _ _ _ _ _
    (.step _ .init ⟨hok₁, fun d' hd' => ?_⟩ hs₁) hok₂ hs₂ (by decide +kernel)
  rw [hs₁] at hd'
  injection hd' with hd'
  rw [← hd']
  exact ⟨by decide +kernel, by decide +kernel⟩

end Device
end

end AvrOs
