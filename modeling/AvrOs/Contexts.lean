import AvrOs.Dynamic
import AvrOs.Switch

/-!
# Tasks on their stacks

The processor, and the memory with the stacks of all tasks. A task runs whatever it likes, as long as it stays away from
the stacks of the others and from where their stack pointers are.
-/

namespace AvrOs
open Avr Transition

/-! ### The first frame -/

section
variable {target : Target}

/-- As much of the processor as `*sp-- = byte` is about. -/
def toStack (x : Cpu) : Stack := ⟨x.memory, x.sp⟩

theorem toStack_push (x : Cpu) (b : Byte) : (toStack x).push b = toStack (x.pushByte b) := by
  unfold toStack Stack.push Cpu.pushByte Cpu.down
  rfl

theorem toStack_pushAddress (x : Cpu) (a : Word) :
    (toStack x).osPortPushAddress target a = toStack (x.pushBytes (Cpu.addressBytes target.threeBytePc a.toNat)) := by
  have hlow : a.setWidth 8 = BitVec.ofNat 8 a.toNat := rfl
  have hhigh : (a >>> 8).setWidth 8 = BitVec.ofNat 8 (a.toNat / 256) := by
    apply BitVec.eq_of_toNat_eq
    simp [Nat.shiftRight_eq_div_pow]
  have hext : BitVec.ofNat 8 (a.toNat / 65536) = 0 := by
    rw [Nat.div_eq_of_lt a.isLt]
    rfl
  unfold Stack.osPortPushAddress Cpu.addressBytes
  dsimp only
  rw [toStack_push, toStack_push, hlow, hhigh, hext]
  cases target.threeBytePc with
  | false => rfl
  | true =>
    rw [if_pos rfl, if_pos rfl, toStack_push]
    rfl

theorem toStack_pushZeros (count : ℕ) (x : Cpu) :
    (toStack x).pushZeros count = toStack (x.pushBytes (List.replicate count 0)) := by
  induction count generalizing x with
  | zero => rfl
  | succ count ih =>
    rw [Stack.pushZeros, toStack_push, ih]
    rfl

/-- What `osPortStackInit` pushes. -/
def firstBytes (target : Target) (function param : Word) : List Byte :=
  Cpu.addressBytes target.threeBytePc target.osTaskExit.toNat ++ Cpu.addressBytes target.threeBytePc function.toNat ++
  Cpu.addressBytes target.threeBytePc target.osPortTaskStart.toNat ++
  [param.setWidth 8, (param >>> 8).setWidth 8] ++ List.replicate 16 0

theorem toStack_init (x : Cpu) (function param : Word) :
    (toStack x).osPortStackInit target function param = toStack (x.pushBytes (firstBytes target function param)) := by
  unfold Stack.osPortStackInit firstBytes Cpu.pushBytes
  dsimp only
  rw [toStack_pushAddress, toStack_pushAddress, toStack_pushAddress, toStack_push, toStack_push, toStack_pushZeros]
  simp only [Cpu.pushBytes, List.foldl_append, List.foldl_cons, List.foldl_nil]

/-- What a new task goes on with: the parameter is in r3:r2, and there are two more addresses on its stack. -/
def firstContext (target : Target) (top : Stack) (high : ℕ) (param : Word) : Cpu where
  reg r := if r = 2 then param.setWidth 8 else if r = 3 then (param >>> 8).setWidth 8 else 0
  sp := high - 2 * OS_PC_SIZE target
  pc := target.osPortTaskStart.toNat
  interrupts := false
  memory := top.memory

theorem firstBytes_reverse (target : Target) (top : Stack) (high : ℕ) (function param : Word) :
    (firstBytes target function param).reverse =
    savedRegisters.reverse.map (firstContext target top high param).reg ++
      (Cpu.addressBytes target.threeBytePc target.osPortTaskStart.toNat).reverse ++
      ((Cpu.addressBytes target.threeBytePc function.toNat).reverse ++
      (Cpu.addressBytes target.threeBytePc target.osTaskExit.toNat).reverse) := by
  unfold firstBytes
  simp only [List.reverse_append, List.append_assoc]
  rfl

/-- `osPortStackInit` leaves the stack of a new task as if it had been switched out right before `osPortTaskStart`. -/
theorem osPortStackInit_pushed (target : Target) (m : ℕ → Byte) (high : ℕ) (function param : Word)
    (hroom : 3 * OS_PC_SIZE target + 18 ≤ high) (hhigh : high < 65536) :
    (Stack.osPortStackInit target ⟨m, high⟩ function param).sp + OS_CONTEXT_SIZE target = high - 2 * OS_PC_SIZE target ∧
    OnStack (Stack.osPortStackInit target ⟨m, high⟩ function param).memory
      (Stack.osPortStackInit target ⟨m, high⟩ function param).sp
      (savedRegisters.reverse.map
        (firstContext target (Stack.osPortStackInit target ⟨m, high⟩ function param) high param).reg ++
      (Cpu.addressBytes target.threeBytePc target.osPortTaskStart.toNat).reverse ++
      ((Cpu.addressBytes target.threeBytePc function.toNat).reverse ++
      (Cpu.addressBytes target.threeBytePc target.osTaskExit.toNat).reverse)) := by
  have hsize : OS_CONTEXT_SIZE target = 18 + OS_PC_SIZE target := rfl
  have hlen : (firstBytes target function param).length = 3 * OS_PC_SIZE target + 18 := by
    simp only [firstBytes, List.length_append, addressBytes_length, List.length_replicate, List.length_cons,
      List.length_nil]
    omega
  let x : Cpu := ⟨fun _ => 0, high, 0, false, m⟩
  have hinit : Stack.osPortStackInit target ⟨m, high⟩ function param =
      toStack (x.pushBytes (firstBytes target function param)) := toStack_init x function param
  have hpushed := Cpu.pushBytes_pushed (firstBytes target function param) x (by rw [hlen]; exact hroom) hhigh
  have hsp : (x.pushBytes (firstBytes target function param)).sp + (firstBytes target function param).reverse.length = high :=
    hpushed.sp
  have hstack := hpushed.stack
  rw [firstBytes_reverse target (Stack.osPortStackInit target ⟨m, high⟩ function param) high] at hstack
  rw [List.length_reverse, hlen] at hsp
  rw [hinit] at hstack ⊢
  refine ⟨?_, hstack⟩
  show (x.pushBytes (firstBytes target function param)).sp + OS_CONTEXT_SIZE target = _
  omega

theorem firstContext_stack (target : Target) (m : ℕ → Byte) (high : ℕ) (function param : Word)
    (hroom : 3 * OS_PC_SIZE target + 18 ≤ high) (hhigh : high < 65536) :
    OnStack (Stack.osPortStackInit target ⟨m, high⟩ function param).memory (high - 2 * OS_PC_SIZE target)
      ((Cpu.addressBytes target.threeBytePc function.toNat).reverse ++
      (Cpu.addressBytes target.threeBytePc target.osTaskExit.toNat).reverse) := by
  obtain ⟨hsp, hstack⟩ := osPortStackInit_pushed target m high function param hroom hhigh
  generalize Stack.osPortStackInit target ⟨m, high⟩ function param = top at hsp hstack ⊢
  have hlen := context_length (firstContext target top high param) target
  rw [show (firstContext target top high param).pc = target.osPortTaskStart.toNat from rfl] at hlen
  have habove := (OnStack.append.mp hstack).2
  rw [hlen, hsp] at habove
  exact habove

end

section
variable {T : Type} {target : Target} {L : Layout T} {t : T}

/-- A new task looks as if it had been switched out. -/
theorem setupStack_parked {function param : Word} {m : ℕ → Byte} (hfits : L.Fits t) (htop : L.high t + 1 = L.task t)
    (hroom : L.low t + OS_STACK_MIN target ≤ L.task t) :
    Parked target L
      (storePointer (Stack.osPortStackInit target ⟨m, L.task t - 1⟩ function param).memory (L.task t)
        (Stack.osPortStackInit target ⟨m, L.task t - 1⟩ function param).sp) t
      (firstContext target (Stack.osPortStackInit target ⟨m, L.task t - 1⟩ function param) (L.task t - 1) param) := by
  have hsize : OS_CONTEXT_SIZE target = 18 + OS_PC_SIZE target := rfl
  have hmin : OS_STACK_MIN target = OS_CONTEXT_SIZE target + 3 * OS_PC_SIZE target + 32 := rfl
  have hhigh := hfits.high
  have hlow := hfits.low
  obtain ⟨hsp, hstack⟩ := osPortStackInit_pushed target m (L.task t - 1) function param
    (by omega) (by omega)
  generalize Stack.osPortStackInit target ⟨m, L.task t - 1⟩ function param = top at hsp hstack ⊢
  have hload : loadPointer (storePointer top.memory (L.task t) top.sp) (L.task t) = top.sp :=
    load_stored_pointer _ _ _ (by omega)
  have hown : ∀ a, a ≤ L.high t → storePointer top.memory (L.task t) top.sp a = top.memory a := fun a ha =>
    storePointer_elsewhere (by omega) (by omega)
  refine ⟨by rw [hload]; exact hsp, by rw [hload]; omega, ?_, ?_, fun a _ ha => hown a ha, ?_⟩
  · show L.task t - 1 - 2 * OS_PC_SIZE target ≤ L.high t
    omega
  · rw [hload]
    refine (OnStack.append.mp hstack).1.congr fun a _ ha => hown a ?_
    have hlen := context_length (firstContext target top (L.task t - 1) param) target
    rw [show (firstContext target top (L.task t - 1) param).pc = target.osPortTaskStart.toNat from rfl] at hlen
    omega
  · have hstart := target.osPortTaskStart.isLt
    show target.osPortTaskStart.toNat < _
    split <;> omega

/-- Nothing but the memory of the new task is written. -/
theorem setupStack_elsewhere {function param : Word} {m : ℕ → Byte} (hfits : L.Fits t) (htop : L.high t + 1 = L.task t)
    (hroom : L.low t + OS_STACK_MIN target ≤ L.task t) {a : ℕ} (hstack : ¬ L.stack t a) (hblock : ¬ L.block t a) :
    storePointer (Stack.osPortStackInit target ⟨m, L.task t - 1⟩ function param).memory (L.task t)
      (Stack.osPortStackInit target ⟨m, L.task t - 1⟩ function param).sp a = m a := by
  have hsize : OS_CONTEXT_SIZE target = 18 + OS_PC_SIZE target := rfl
  have hmin : OS_STACK_MIN target = OS_CONTEXT_SIZE target + 3 * OS_PC_SIZE target + 32 := rfl
  have hblocks := hfits.size
  have hhigh := hfits.high
  have hlow := hfits.low
  have hgrows := Stack.osPortStackInit_grows target ⟨m, L.task t - 1⟩ function param
    (by show _ ≤ L.task t - 1; omega) (by show L.task t - 1 < 65536; omega)
  have hsp : _ + (3 * OS_PC_SIZE target + 18) = L.task t - 1 := hgrows.sp
  unfold Layout.stack at hstack
  unfold Layout.block at hblock
  rw [storePointer_elsewhere (by omega) (by omega)]
  exact hgrows.memory a (by show a ≤ _ ∨ L.task t - 1 < a; omega)

end

/-- From `osPortTaskStart` to the function, and from there to where it returns. -/
theorem osPortTaskStart_spec {target : Target} {y : Cpu} {function param : Word} (hlow : y.reg 2 = param.setWidth 8)
    (hhigh : y.reg 3 = (param >>> 8).setWidth 8) (hsp : y.sp + 2 * OS_PC_SIZE target < 65536)
    (hstack : OnStack y.memory y.sp ((Cpu.addressBytes target.threeBytePc function.toNat).reverse ++
      (Cpu.addressBytes target.threeBytePc target.osTaskExit.toNat).reverse)) :
    (y.run target.threeBytePc osPortTaskStart).pc = function.toNat ∧
    (y.run target.threeBytePc osPortTaskStart).pair 24 = param.toNat ∧
    (y.run target.threeBytePc osPortTaskStart).interrupts = true ∧
    (y.run target.threeBytePc osPortTaskStart).sp = y.sp + OS_PC_SIZE target ∧
    (y.run target.threeBytePc osPortTaskStart).memory = y.memory := by
  have hfunction := function.isLt
  have hparam := param.isLt
  let x : Cpu := { (y.setReg 24 (y.reg 2)).setReg 25 (y.reg 3) with interrupts := true }
  have hrun : y.run target.threeBytePc osPortTaskStart = x.ret target.threeBytePc := rfl
  have hret := Cpu.ret_spec (x := x) _ hstack
    (by rw [addressBytes_length]; show y.sp + _ < 65536; omega) (by split <;> omega)
  rw [hrun, hret, addressBytes_length]
  refine ⟨rfl, ?_, rfl, rfl, rfl⟩
  have h₂ : x.reg 24 = y.reg 2 := rfl
  have h₃ : x.reg 25 = y.reg 3 := rfl
  show (x.reg 24).toNat + 256 * (x.reg 25).toNat = param.toNat
  rw [h₂, h₃, hlow, hhigh]
  simp [Nat.shiftRight_eq_div_pow]
  omega

/-- The processor is about to start a new task: it gets to the function with the parameter where the first argument is
expected and with interrupts enabled, and from there to `osTaskExit`. -/
structure Started {T : Type} (target : Target) (L : Layout T) (t : T) (function param : Word) (y : Cpu) : Prop where
  pc : y.pc = target.osPortTaskStart.toNat
  function : (y.run target.threeBytePc osPortTaskStart).pc = function.toNat
  param : (y.run target.threeBytePc osPortTaskStart).pair 24 = param.toNat
  interrupts : (y.run target.threeBytePc osPortTaskStart).interrupts = true
  exit : ∀ w : Cpu, w.sp = (y.run target.threeBytePc osPortTaskStart).sp →
    (∀ a, w.sp < a → a ≤ L.high t → w.memory a = (y.run target.threeBytePc osPortTaskStart).memory a) →
    (w.ret target.threeBytePc).pc = target.osTaskExit.toNat ∧ (w.ret target.threeBytePc).sp = L.high t

/-! ### The machine -/

structure Machine (T : Type) where
  cpu : Cpu
  current : T
  /-- Tasks which are not running and what they go on with (the code has it on their stacks only). -/
  parked : T → Option Cpu

inductive MachineAction (T : Type) where
  /-- The current task has run for a while. -/
  | run (cpu : Cpu)
  | osTaskSetup (t : T) (function param : Word)
  /-- It is called from before `back`. -/
  | osPortSwitch (next : T) (back : ℕ)
  /-- Deleted, nobody is going to switch to it. -/
  | gone (t : T)

/-- The action leaves the context of the task alone. -/
def MachineAction.spares {T : Type} (t : T) : MachineAction T → Prop
  | .run _ => True
  | .osTaskSetup u _ _ | .osPortSwitch u _ | .gone u => u ≠ t

namespace Machine

variable {T : Type} [DecidableEq T] (target : Target) (stackCheck : Bool) (code : ℕ) (L : Layout T)

def live (s : Machine T) (t : T) : Prop := t = s.current ∨ (s.parked t).isSome

/-- Stack of the task once `osTaskSetup` is done with it. -/
def setupStack (s : Machine T) (t : T) (function param : Word) : Stack :=
  let ram := Dynamic.fill s.cpu.memory (L.task t) L.size 0
  let ram := if stackCheck then Dynamic.fill ram (L.low t) (L.task t - L.low t) OS_STACK_FILL else ram
  Stack.osPortStackInit target ⟨ram, L.task t - 1⟩ function param

def apply (s : Machine T) : MachineAction T → Machine T
  | .run cpu => { s with cpu := cpu }
  | .osTaskSetup t function param =>
    let top := s.setupStack target stackCheck L t function param
    { s with
      cpu := { s.cpu with memory := storePointer top.memory (L.task t) top.sp }
      parked := Function.update s.parked t (some (firstContext target top (L.task t - 1) param)) }
  | .osPortSwitch next back =>
    { cpu := callSwitch target s.cpu back code (L.task next) (L.task s.current)
      current := next
      parked := Function.update (Function.update s.parked s.current (some { s.cpu with pc := back })) next none }
  | .gone t => { s with parked := Function.update s.parked t none }

/-- Tasks stay away from the frames of the others, memory of a new task is not in use, and there is room
for the frame of whoever is switched out. -/
def ok (s : Machine T) : MachineAction T → Prop
  | .run cpu => ∀ t, (s.parked t).isSome → ∀ a, L.stack t a ∨ a = L.task t ∨ a = L.task t + 1 →
      cpu.memory a = s.cpu.memory a
  | .osTaskSetup t _ _ => ¬ s.live t ∧ L.Fits t ∧ L.high t + 1 = L.task t ∧
      L.low t + OS_STACK_MIN target ≤ L.task t ∧ ∀ u, s.live u → L.Apart t u
  | .osPortSwitch next back => (s.parked next).isSome ∧ Room target L s.current s.cpu ∧
      back < if target.threeBytePc then 16777216 else 65536
  | .gone _ => True

/-- Whoever is not running is parked, and nobody is in the way of somebody else. -/
structure Sound (s : Machine T) : Prop where
  current : s.parked s.current = none
  fits : ∀ t, s.live t → L.Fits t
  apart : ∀ t u, s.live t → s.live u → t ≠ u → L.Apart t u
  parked : ∀ t c, s.parked t = some c → Parked target L s.cpu.memory t c

end Machine

section
variable {T : Type} [DecidableEq T] {target : Target} {stackCheck : Bool} {code : ℕ} {L : Layout T} {s s' : Machine T}
  {t u : T} {c : Cpu} {a : MachineAction T}

namespace Machine

theorem apply_setup_memory (function param : Word) :
    (apply target stackCheck code L s (.osTaskSetup t function param)).cpu.memory =
    storePointer (setupStack target stackCheck L s t function param).memory (L.task t)
      (setupStack target stackCheck L s t function param).sp := rfl

theorem apply_setup_parked (function param : Word) :
    (apply target stackCheck code L s (.osTaskSetup t function param)).parked = Function.update s.parked t
      (some (firstContext target (setupStack target stackCheck L s t function param) (L.task t - 1) param)) := rfl

theorem setupStack_spares (hfits : L.Fits t) (htop : L.high t + 1 = L.task t) (hroom : L.low t + OS_STACK_MIN target ≤ L.task t)
    (function param : Word) {b : ℕ} (hstack : ¬ L.stack t b) (hblock : ¬ L.block t b) :
    (apply target stackCheck code L s (.osTaskSetup t function param)).cpu.memory b = s.cpu.memory b := by
  have hfill : Dynamic.fill s.cpu.memory (L.task t) L.size 0 b = s.cpu.memory b := if_neg hblock
  rw [apply_setup_memory, setupStack, setupStack_elsewhere hfits htop hroom hstack hblock]
  split
  · refine (if_neg fun hb => hstack ?_).trans hfill
    unfold Layout.stack
    omega
  · exact hfill

theorem Sound.run (h : s.Sound target L) {cpu : Cpu} (hok : s.ok target L (.run cpu)) :
    (s.apply target stackCheck code L (.run cpu)).Sound target L :=
  ⟨h.current, h.fits, h.apart, fun t c hc => by
    have hsome : (s.parked t).isSome := Option.isSome_of_eq_some hc
    exact (h.parked t c hc).congr (fun a ha => hok t hsome a (.inl ha)) fun a ha => hok t hsome a (.inr ha)⟩

theorem live_setup {function param : Word} (hu : (apply target stackCheck code L s (.osTaskSetup t function param)).live u) :
    u = t ∨ s.live u := by
  by_cases hut : u = t
  · exact .inl hut
  · refine .inr (hu.imp id fun hu => ?_)
    rwa [apply_setup_parked, Function.update_of_ne hut] at hu

theorem Sound.osTaskSetup (h : s.Sound target L) {function param : Word} (hok : s.ok target L (.osTaskSetup t function param)) :
    (s.apply target stackCheck code L (.osTaskSetup t function param)).Sound target L := by
  obtain ⟨hnew, hfits, htop, hroom, hapart⟩ := hok
  refine ⟨?_, fun u hu => ?_, fun u v hu hv huv => ?_, fun u c hc => ?_⟩
  · have hne : s.current ≠ t := fun he => hnew (.inl he.symm)
    rw [apply_setup_parked]
    exact (Function.update_of_ne hne ..).trans h.current
  · obtain hut | hu' := live_setup hu
    · rw [hut]
      exact hfits
    · exact h.fits u hu'
  · obtain hut | hu' := live_setup hu
    · obtain hvt | hv' := live_setup hv
      · exact absurd (hut.trans hvt.symm) huv
      · rw [hut]
        exact hapart v hv'
    · obtain hvt | hv' := live_setup hv
      · rw [hvt]
        exact (hapart u hu').symm
      · exact h.apart u v hu' hv' huv
  · rw [apply_setup_parked] at hc
    by_cases hut : u = t
    · rw [hut, Function.update_self] at hc
      injection hc with hc
      rw [hut, ← hc, apply_setup_memory, setupStack]
      exact setupStack_parked hfits htop hroom
    · rw [Function.update_of_ne hut] at hc
      have hlive : s.live u := .inr (Option.isSome_of_eq_some hc)
      have hu := hapart u hlive
      have hsize := (h.fits u hlive).size
      have hspares : ∀ b, L.stack u b ∨ L.block u b →
          (apply target stackCheck code L s (.osTaskSetup t function param)).cpu.memory b = s.cpu.memory b := fun b hb =>
        setupStack_spares hfits htop hroom function param (fun ht => hu b (.inl ht) hb) fun ht => hu b (.inr ht) hb
      refine (h.parked u c hc).congr (fun b hb => hspares b (.inl hb)) fun b hb => hspares b (.inr ?_)
      unfold Layout.block
      omega

/-- What one switch does. -/
theorem switched (stackCheck : Bool) (code : ℕ) {back : ℕ} (h : s.Sound target L) (hok : s.ok target L (.osPortSwitch u back)) (hu : s.parked u = some c) :
    Switched target L s.current u s.cpu c back
      (s.apply target stackCheck code L (.osPortSwitch u back)).cpu := by
  obtain ⟨hsome, hroom, hback⟩ := hok
  have hne : u ≠ s.current := fun he => by
    rw [he, h.current] at hu
    cases hu
  exact callSwitch_spec (h.fits _ (.inl rfl)) (h.fits u (.inr hsome))
    (h.apart u s.current (.inr hsome) (.inl rfl) hne) hroom hback (h.parked u c hu)

theorem Sound.osPortSwitch {back : ℕ} (h : s.Sound target L) (hok : s.ok target L (.osPortSwitch u back)) :
    (s.apply target stackCheck code L (.osPortSwitch u back)).Sound target L := by
  obtain ⟨d, hd⟩ := Option.isSome_iff_exists.mp hok.1
  have hswitched := switched stackCheck code h hok hd
  have hroom := hok.2.1
  have hne : s.current ≠ u := fun he => by
    rw [← he, h.current] at hd
    cases hd
  have hparked : (s.apply target stackCheck code L (.osPortSwitch u back)).parked =
    Function.update (Function.update s.parked s.current (some { s.cpu with pc := back })) u none := rfl
  have hlive : ∀ t, (s.apply target stackCheck code L (.osPortSwitch u back)).live t → s.live t := fun t ht => by
    by_cases htu : t = u
    · rw [htu]
      exact .inr hok.1
    · by_cases htc : t = s.current
      · exact .inl htc
      · obtain ht | ht := ht
        · exact absurd ht htu
        · rw [hparked, Function.update_of_ne htu, Function.update_of_ne htc] at ht
          exact .inr ht
  refine ⟨?_, fun t ht => h.fits t (hlive t ht), fun t v ht hv => h.apart t v (hlive t ht) (hlive v hv), fun t c hc => ?_⟩
  · rw [hparked]
    exact Function.update_self ..
  · rw [hparked] at hc
    by_cases htu : t = u
    · rw [htu, Function.update_self] at hc
      cases hc
    · rw [Function.update_of_ne htu] at hc
      by_cases htc : t = s.current
      · rw [htc, Function.update_self] at hc
        injection hc with hc
        rw [htc, ← hc]
        exact hswitched.parked
      · rw [Function.update_of_ne htc] at hc
        have hlive : s.live t := .inr (Option.isSome_of_eq_some hc)
        have hapart := h.apart t s.current hlive (.inl rfl) htc
        have hsize := (h.fits t hlive).size
        have hspares : ∀ b, L.stack t b ∨ L.block t b →
            (s.apply target stackCheck code L (.osPortSwitch u back)).cpu.memory b = s.cpu.memory b := fun b hb =>
          hswitched.elsewhere (h.fits _ (.inl rfl)) hroom (fun hs => hapart b hb (.inl hs)) fun hs => hapart b hb (.inr hs)
        refine (h.parked t c hc).congr (fun b hb => hspares b (.inl hb)) fun b hb => hspares b (.inr ?_)
        unfold Layout.block
        omega

theorem Sound.gone (h : s.Sound target L) (t : T) :
    (s.apply target stackCheck code L (.gone t)).Sound target L := by
  have hparked : (s.apply target stackCheck code L (.gone t)).parked = Function.update s.parked t none := rfl
  have hsome : ∀ u c, Function.update s.parked t none u = some c → s.parked u = some c := fun u c hc => by
    by_cases hut : u = t
    · rw [hut, Function.update_self] at hc
      cases hc
    · rwa [Function.update_of_ne hut] at hc
  have hlive : ∀ u, (s.apply target stackCheck code L (.gone t)).live u → s.live u := fun u hu => hu.imp id fun hu => by
    obtain ⟨c, hc⟩ := Option.isSome_iff_exists.mp hu
    exact Option.isSome_of_eq_some (hsome u c hc)
  refine ⟨?_, fun u hu => h.fits u (hlive u hu), fun u v hu hv => h.apart u v (hlive u hu) (hlive v hv), fun u c hc =>
    h.parked u c (hsome u c hc)⟩
  rw [hparked]
  by_cases hc : s.current = t
  · show Function.update s.parked t none s.current = none
    rw [hc, Function.update_self]
  · exact (Function.update_of_ne hc ..).trans h.current

theorem Sound.apply (h : s.Sound target L) (a : MachineAction T) (hok : s.ok target L a) :
    (s.apply target stackCheck code L a).Sound target L := by
  cases a with
  | run cpu => exact h.run hok
  | osTaskSetup t function param => exact h.osTaskSetup hok
  | osPortSwitch next back => exact h.osPortSwitch hok
  | gone t => exact h.gone t

theorem apply_spares (h : s.Sound target L) (hspares : a.spares t) (hc : s.parked t = some c) :
    (s.apply target stackCheck code L a).parked t = some c := by
  cases a with
  | run cpu => exact hc
  | osTaskSetup u function param => exact (Function.update_of_ne (Ne.symm hspares) ..).trans hc
  | osPortSwitch u back =>
    have hne : t ≠ s.current := fun he => by
      rw [he, h.current] at hc
      cases hc
    exact (Function.update_of_ne (Ne.symm hspares) ..).trans ((Function.update_of_ne hne ..).trans hc)
  | gone u => exact (Function.update_of_ne (Ne.symm hspares) ..).trans hc

/-- Nobody has been created yet. -/
structure Initial (target : Target) (L : Layout T) (s : Machine T) : Prop where
  parked : ∀ t, s.parked t = none
  fits : L.Fits s.current

omit [DecidableEq T] in
theorem Initial.sound (h : s.Initial target L) : s.Sound target L := by
  have hlive : ∀ t, s.live t → t = s.current := fun t ht => ht.elim id fun ht => by
    rw [h.parked] at ht
    cases ht
  refine ⟨h.parked _, fun t ht => ?_, fun t u ht hu htu => ?_, fun t c hc => ?_⟩
  · rw [hlive t ht]
    exact h.fits
  · exact absurd ((hlive t ht).trans (hlive u hu).symm) htu
  · rw [h.parked] at hc
    cases hc

theorem sound_run (h : s.Sound target L) (hrun : Run (apply target stackCheck code L) (ok target L) s s') : s'.Sound target L :=
  hrun.invariant (fun _ a hok h => h.apply a hok) h

/-- As long as nobody switches to the task, it goes on with the same. -/
theorem parked_run (h : s.Sound target L) (hc : s.parked t = some c)
    (hrun : Run (apply target stackCheck code L) (fun s a => s.ok target L a ∧ a.spares t) s s') :
    s'.Sound target L ∧ s'.parked t = some c :=
  hrun.invariant (I := fun s => s.Sound target L ∧ s.parked t = some c)
    (fun _ a hok h => ⟨h.1.apply a hok.1, apply_spares h.1 hok.2 h.2⟩) ⟨h, hc⟩

/-- Whoever is switched out gets back with its registers and its stack as they were, where it called the switch. -/
theorem back_again {s₀ : Machine T} {back back' : ℕ} (h₀ : s₀.Initial target L)
    (hreach : Run (apply target stackCheck code L) (ok target L) s₀ s) (hout : s.ok target L (.osPortSwitch u back))
    (hrun : Run (apply target stackCheck code L) (fun s' a => s'.ok target L a ∧ a.spares s.current)
      (s.apply target stackCheck code L (.osPortSwitch u back)) s')
    (hin : s'.ok target L (.osPortSwitch s.current back')) :
    Resumed L s.current { s.cpu with pc := back } (s'.cpu.memory (L.task s.current + 2))
      (s'.apply target stackCheck code L (.osPortSwitch s.current back')).cpu ∧
    (s'.apply target stackCheck code L (.osPortSwitch s.current back')).cpu.interrupts = s'.cpu.interrupts := by
  have hsound := sound_run h₀.sound hreach
  have hne : s.current ≠ u := fun he => by
    have hsome := hout.1
    rw [← he, hsound.current] at hsome
    cases hsome
  have hparked : (s.apply target stackCheck code L (.osPortSwitch u back)).parked s.current =
      some { s.cpu with pc := back } :=
    (Function.update_of_ne hne ..).trans (Function.update_self ..)
  obtain ⟨hsound', hparked'⟩ := parked_run (hsound.osPortSwitch hout) hparked hrun
  have hswitched := switched stackCheck code hsound' hin hparked'
  exact ⟨hswitched.resumed, hswitched.interrupts⟩

/-! Two tasks, the stack of each takes 256 bytes. -/

def pairLayout : Layout Bool where
  size := 28
  task t := if t then 0x500 else 0x100
  low t := if t then 0x400 else 0x800
  high t := if t then 0x4ff else 0x8ff

def pairTarget : Target := ⟨false, 0x200, 0x300⟩

def pairStart : Machine Bool where
  cpu := ⟨fun r => BitVec.ofNat 8 r.val, 0x8f0, 0, false, fun _ => 0⟩
  current := false
  parked _ := none

abbrev pairApply : Machine Bool → MachineAction Bool → Machine Bool := apply pairTarget true 0x600 pairLayout

/-- The other task has been created. -/
abbrev pairCreated : Machine Bool := pairApply pairStart (.osTaskSetup true 0x1234 0x5678)

theorem pair_fits (t : Bool) : pairLayout.Fits t := by
  cases t <;> constructor <;> simp [pairLayout, Layout.stack, Layout.block] <;> omega

theorem pair_initial : pairStart.Initial pairTarget pairLayout := ⟨fun _ => rfl, pair_fits _⟩

theorem pair_setup : pairStart.ok pairTarget pairLayout (.osTaskSetup true 0x1234 0x5678) := by
  refine ⟨by simp [live, pairStart], pair_fits _, rfl, by decide, fun u hu a => ?_⟩
  obtain rfl | hu := hu
  · simp [pairStart, pairLayout, Layout.stack, Layout.block]
    omega
  · cases hu

theorem pair_switch : pairCreated.ok pairTarget pairLayout (.osPortSwitch true 100) :=
  ⟨rfl, ⟨by decide, by decide⟩, by decide⟩

theorem back_again_pair :
    Resumed pairLayout false { pairCreated.cpu with pc := 100 } ((pairApply pairCreated (.osPortSwitch true 100)).cpu.memory 0x102)
      (pairApply (pairApply pairCreated (.osPortSwitch true 100)) (.osPortSwitch false 200)).cpu :=
  (back_again pair_initial (.single _ pair_setup) pair_switch (.refl _)
    ⟨rfl, ⟨by decide +kernel, by decide +kernel⟩, by decide⟩).1

omit [DecidableEq T] in
/-- Whoever goes on with what a new task has is started. -/
theorem setupStack_started {function param : Word} {result : Byte} {y : Cpu} (hfits : L.Fits t) (htop : L.high t + 1 = L.task t)
    (hroom : L.low t + OS_STACK_MIN target ≤ L.task t)
    (hy : Resumed L t (firstContext target (setupStack target stackCheck L s t function param) (L.task t - 1) param) result y) :
    Started target L t function param y := by
  have hsize : OS_CONTEXT_SIZE target = 18 + OS_PC_SIZE target := rfl
  have hmin : OS_STACK_MIN target = OS_CONTEXT_SIZE target + 3 * OS_PC_SIZE target + 32 := rfl
  have hfit := hfits.high
  have hlow := hfits.low
  have hexit := target.osTaskExit.isLt
  have hstack : OnStack (setupStack target stackCheck L s t function param).memory (L.task t - 1 - 2 * OS_PC_SIZE target)
      ((Cpu.addressBytes target.threeBytePc function.toNat).reverse ++
      (Cpu.addressBytes target.threeBytePc target.osTaskExit.toNat).reverse) := by
    unfold setupStack
    exact firstContext_stack target _ (L.task t - 1) function param (by omega) (by omega)
  generalize setupStack target stackCheck L s t function param = top at hy hstack
  have hsp : y.sp = L.task t - 1 - 2 * OS_PC_SIZE target := hy.sp
  have hlen : ((Cpu.addressBytes target.threeBytePc function.toNat).reverse ++
      (Cpu.addressBytes target.threeBytePc target.osTaskExit.toNat).reverse).length = 2 * OS_PC_SIZE target := by
    rw [List.length_append, List.length_reverse, List.length_reverse, addressBytes_length, addressBytes_length]
    omega
  have hframe : OnStack y.memory y.sp ((Cpu.addressBytes target.threeBytePc function.toNat).reverse ++
      (Cpu.addressBytes target.threeBytePc target.osTaskExit.toNat).reverse) := by
    rw [hsp]
    exact hstack.congr fun a ha ha' => hy.stack a ha (by omega)
  obtain ⟨hpc, hpair, hi, hzsp, hzm⟩ := osPortTaskStart_spec (hy.saved 2 (by decide)) (hy.saved 3 (by decide))
    (by omega) hframe
  refine ⟨hy.pc, hpc, hpair, hi, fun w hw hm => ?_⟩
  have hreturn := (OnStack.append.mp hframe).2
  rw [List.length_reverse, addressBytes_length, ← hzsp, ← hzm, ← hw] at hreturn
  rw [hzsp] at hw
  have hwstack : OnStack w.memory w.sp ((Cpu.addressBytes target.threeBytePc target.osTaskExit.toNat).reverse ++ []) := by
    rw [List.append_nil]
    refine hreturn.congr fun a ha ha' => hm a ha ?_
    rw [List.length_reverse, addressBytes_length] at ha'
    omega
  rw [Cpu.ret_spec _ hwstack (by rw [addressBytes_length]; omega) (by split <;> omega), addressBytes_length]
  exact ⟨rfl, by dsimp only; omega⟩

/-- A task which runs for the first time gets to its function: the parameter is where the first argument is expected,
interrupts are enabled. The function returns to `osTaskExit`. -/
theorem enters_function {s₀ : Machine T} {function param : Word} {back : ℕ} (h₀ : s₀.Initial target L)
    (hreach : Run (apply target stackCheck code L) (ok target L) s₀ s) (hsetup : s.ok target L (.osTaskSetup t function param))
    (hrun : Run (apply target stackCheck code L) (fun s' a => s'.ok target L a ∧ a.spares t)
      (s.apply target stackCheck code L (.osTaskSetup t function param)) s')
    (hin : s'.ok target L (.osPortSwitch t back)) {y z : Cpu}
    (hy : y = (s'.apply target stackCheck code L (.osPortSwitch t back)).cpu)
    (hz : z = y.run target.threeBytePc osPortTaskStart) :
    y.pc = target.osPortTaskStart.toNat ∧ z.pc = function.toNat ∧ z.pair 24 = param.toNat ∧ z.interrupts = true ∧
    ∀ w : Cpu, w.sp = z.sp → (∀ a, z.sp < a → a ≤ L.high t → w.memory a = z.memory a) →
      (w.ret target.threeBytePc).pc = target.osTaskExit.toNat ∧ (w.ret target.threeBytePc).sp = L.high t := by
  have hsound := sound_run h₀.sound hreach
  obtain ⟨hsound', hparked⟩ := parked_run (hsound.osTaskSetup hsetup) (t := t) (Function.update_self ..) hrun
  have hresumed := (switched stackCheck code hsound' hin hparked).resumed
  rw [← hy] at hresumed
  obtain ⟨-, hfits, htop, hroom, -⟩ := hsetup
  have hstarted := setupStack_started hfits htop hroom hresumed
  rw [hz]
  exact ⟨hstarted.pc, hstarted.function, hstarted.param, hstarted.interrupts, fun w hw hm =>
    hstarted.exit w hw fun a ha => hm a (hw ▸ ha)⟩

theorem enters_function_pair :
    ((pairApply pairCreated (.osPortSwitch true 100)).cpu.run false osPortTaskStart).pc = 0x1234 ∧
    ((pairApply pairCreated (.osPortSwitch true 100)).cpu.run false osPortTaskStart).pair 24 = 0x5678 ∧
    ((pairApply pairCreated (.osPortSwitch true 100)).cpu.run false osPortTaskStart).interrupts = true := by
  obtain ⟨-, hpc, hpair, hi, -⟩ := enters_function pair_initial (.refl _) pair_setup (.refl _) pair_switch rfl rfl
  exact ⟨hpc, hpair, hi⟩

end Machine

end

end AvrOs
