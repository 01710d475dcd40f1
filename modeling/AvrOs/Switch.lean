import AvrOs.Asm
import AvrOs.Avr.Cpu
import AvrOs.Memory
import AvrOs.Transition.Run

/-!
# asm.c (context switch)

What a task which is not running goes on with is on its own stack only, `sp` of its control block says where.
-/

namespace AvrOs
open Avr Transition

/-- R2-R17, R28-R29. -/
def savedRegisters : List Register := [2, 3, 4, 5, 6, 7, 8, 9, 10, 11, 12, 13, 14, 15, 16, 17, 28, 29]

/-- The stack pointer goes to `sp` of the task in r23:r22, and the one of the task in r25:r24 is taken. -/
def exchangeStacks : List Instr :=
  [.movw 30 22, .inSpl 0, .std 0 0, .inSph 0, .std 1 0, .movw 30 24, .ldd 0 0, .outSpl 0, .ldd 0 1, .outSph 0, .ldd 24 2]

def osPortSwitch : List Instr :=
  savedRegisters.map Instr.push ++ exchangeStacks ++ savedRegisters.reverse.map Instr.pop ++ [Instr.ret]

def osPortTaskStart : List Instr := [.movw 24 2, .sei, .ret]

/-- Arguments of two bytes are in r25:r24 and in r23:r22. -/
def arguments (x : Cpu) (first second : ℕ) : Cpu :=
  (((x.setReg 24 (BitVec.ofNat 8 first)).setReg 25 (BitVec.ofNat 8 (first / 256))).setReg 22
    (BitVec.ofNat 8 second)).setReg 23 (BitVec.ofNat 8 (second / 256))

/-- `osPortSwitch(next, prev)`, its code is at `function`. -/
def callSwitch (target : Target) (x : Cpu) (back function next prev : ℕ) : Cpu :=
  ((arguments x next prev).call target.threeBytePc back function).run target.threeBytePc osPortSwitch

/-! ### One switch -/

section
variable {target : Target} {x : Cpu} {back next prev : ℕ}

theorem addressBytes_length (target : Target) (a : ℕ) :
    (Cpu.addressBytes target.threeBytePc a).length = OS_PC_SIZE target := by
  unfold Cpu.addressBytes OS_PC_SIZE
  cases target.threeBytePc <;> rfl

theorem arguments_saved (x : Cpu) (first second : ℕ) {r : Register} (h : r ∈ savedRegisters) :
    (arguments x first second).reg r = x.reg r := by
  have hr : r ≠ 22 ∧ r ≠ 23 ∧ r ≠ 24 ∧ r ≠ 25 := by
    revert r
    decide
  simp [arguments, Cpu.setReg, hr]

theorem arguments_first (x : Cpu) {first second : ℕ} (h : first < 65536) : (arguments x first second).pair 24 = first := by
  simp only [Cpu.pair, arguments, Cpu.setReg]
  simp
  omega

theorem arguments_second (x : Cpu) {first second : ℕ} (h : second < 65536) : (arguments x first second).pair 22 = second := by
  simp only [Cpu.pair, arguments, Cpu.setReg]
  simp
  omega

/-- The address and the registers are all which gets on the stack. -/
theorem callSwitch_pushed (target : Target) (x : Cpu) (back function next prev : ℕ) (hlow : OS_CONTEXT_SIZE target ≤ x.sp)
    (hhigh : x.sp < 65536) :
    Cpu.Pushed (arguments x next prev)
      (((arguments x next prev).call target.threeBytePc back function).run target.threeBytePc (savedRegisters.map .push))
      (savedRegisters.reverse.map x.reg ++ (Cpu.addressBytes target.threeBytePc back).reverse) := by
  have hsize : OS_CONTEXT_SIZE target = 18 + OS_PC_SIZE target := rfl
  have hcall := Cpu.call_pushed target.threeBytePc back function (arguments x next prev)
    (by rw [addressBytes_length]; show _ ≤ x.sp; omega) hhigh
  have hsp := hcall.sp
  rw [List.length_reverse, addressBytes_length] at hsp
  replace hsp : _ + OS_PC_SIZE target = x.sp := hsp
  have hregs := Cpu.run_pushed target.threeBytePc savedRegisters
    ((arguments x next prev).call target.threeBytePc back function) (by show 18 ≤ _; omega) (by omega)
  have hsaved : savedRegisters.reverse.map ((arguments x next prev).call target.threeBytePc back function).reg =
      savedRegisters.reverse.map x.reg := by
    rw [hcall.reg]
    exact List.map_congr_left fun r hr => arguments_saved x _ _ (List.mem_reverse.mp hr)
  rw [hsaved] at hregs
  exact hcall.trans hregs

theorem storePointer_update (m : ℕ → Byte) (a p : ℕ) :
    storePointer m a p = Function.update (Function.update m a (BitVec.ofNat 8 p)) (a + 1) (BitVec.ofNat 8 (p / 256)) := by
  funext b
  by_cases hb : b = a + 1
  · subst hb
    simp [storePointer, store]
  · by_cases ha : b = a
    · subst ha
      simp [storePointer, store]
    · rw [Function.update_of_ne hb, Function.update_of_ne ha]
      exact store_outside _ _ _ _ (by simp only [List.length_cons, List.length_nil]; omega)

/-- The one stack pointer is stored, the other one is loaded, and so is `result`. -/
theorem exchangeStacks_spec (three : Bool) (x : Cpu) (hprev : x.pair 22 = prev) (hnext : x.pair 24 = next)
    (hp : prev + 1 < 65536) (hn : next + 2 < 65536) :
    (x.run three exchangeStacks).memory = storePointer x.memory prev x.sp ∧
    (x.run three exchangeStacks).sp = loadPointer (storePointer x.memory prev x.sp) next ∧
    (x.run three exchangeStacks).reg 24 = storePointer x.memory prev x.sp (next + 2) ∧
    (x.run three exchangeStacks).interrupts = x.interrupts := by
  unfold Cpu.pair at hprev hnext
  simp only [exchangeStacks, Cpu.run, List.foldl_cons, List.foldl_nil, Cpu.exec, Cpu.setReg, Cpu.pair]
  simp only [Fin.isValue, Fin.reduceAdd] at hprev hnext
  have hprev₀ : prev % 65536 = prev := by omega
  have hprev₁ : (prev + 1) % 65536 = prev + 1 := by omega
  have hnext₀ : next % 65536 = next := by omega
  have hnext₁ : (next + 1) % 65536 = next + 1 := by omega
  have hnext₂ : (next + 2) % 65536 = next + 2 := by omega
  simp [hprev, hnext, hprev₀, hprev₁, hnext₀, hnext₁, hnext₂, storePointer_update, loadPointer]
  exact BitVec.isLt _

end

/-! ### Tasks which are not running -/

/-- Where the control blocks are, and where the stacks are: from the lowest address to the highest one. -/
structure Layout (T : Type) where
  /-- `sizeof(OsTask)`. -/
  size : ℕ
  task : T → ℕ
  low : T → ℕ
  high : T → ℕ

namespace Layout

variable {T : Type} (L : Layout T)

def stack (t : T) (a : ℕ) : Prop := L.low t ≤ a ∧ a ≤ L.high t

def block (t : T) (a : ℕ) : Prop := L.task t ≤ a ∧ a < L.task t + L.size

/-- `sp` and `result` are in the control block, which is not on the stack. -/
structure Fits (t : T) : Prop where
  size : 3 ≤ L.size
  low : 0 < L.low t
  high : L.high t < 65536
  task : L.task t + L.size ≤ 65536
  apart : ∀ a, L.stack t a → ¬ L.block t a

def Apart (t u : T) : Prop := ∀ a, L.stack t a ∨ L.block t a → ¬ (L.stack u a ∨ L.block u a)

variable {L} in
theorem Apart.symm {t u : T} (h : L.Apart t u) : L.Apart u t := fun a hu ht => h a ht hu

end Layout

/-- What the task goes on with is on its stack: these are the registers, the address, and whatever it had on the
stack when it made the call. -/
structure Parked {T : Type} (target : Target) (L : Layout T) (m : ℕ → Byte) (t : T) (c : Cpu) : Prop where
  sp : loadPointer m (L.task t) + OS_CONTEXT_SIZE target = c.sp
  low : L.low t ≤ loadPointer m (L.task t) + 1
  high : c.sp ≤ L.high t
  frame : OnStack m (loadPointer m (L.task t))
    (savedRegisters.reverse.map c.reg ++ (Cpu.addressBytes target.threeBytePc c.pc).reverse)
  above : ∀ a, c.sp < a → a ≤ L.high t → m a = c.memory a
  pc : c.pc < if target.threeBytePc then 16777216 else 65536

/-- The task is back where it was, with the byte the switch returns. -/
structure Resumed {T : Type} (L : Layout T) (t : T) (c : Cpu) (result : Byte) (y : Cpu) : Prop where
  saved : ∀ r ∈ savedRegisters, y.reg r = c.reg r
  result : y.reg 24 = result
  sp : y.sp = c.sp
  pc : y.pc = c.pc
  stack : ∀ a, c.sp < a → a ≤ L.high t → y.memory a = c.memory a

section
variable {T : Type} {target : Target} {L : Layout T} {m m' : ℕ → Byte} {t u : T} {c x : Cpu}

theorem context_length (c : Cpu) (target : Target) :
    (savedRegisters.reverse.map c.reg ++ (Cpu.addressBytes target.threeBytePc c.pc).reverse).length =
    OS_CONTEXT_SIZE target := by
  rw [List.length_append, List.length_map, List.length_reverse, List.length_reverse, addressBytes_length]
  rfl

theorem loadPointer_congr {a : ℕ} (h₀ : m' a = m a) (h₁ : m' (a + 1) = m (a + 1)) : loadPointer m' a = loadPointer m a := by
  unfold loadPointer
  rw [h₀, h₁]

/-- Whatever is written elsewhere. -/
theorem Parked.congr (h : Parked target L m t c) (hm : ∀ a, L.stack t a → m' a = m a)
    (hsp : ∀ a, a = L.task t ∨ a = L.task t + 1 → m' a = m a) : Parked target L m' t c := by
  have hload : loadPointer m' (L.task t) = loadPointer m (L.task t) := loadPointer_congr (hsp _ (.inl rfl)) (hsp _ (.inr rfl))
  have hc := h.sp
  have hlow := h.low
  have hhigh := h.high
  refine ⟨by rw [hload]; exact h.sp, by rw [hload]; exact h.low, h.high, ?_, fun a ha ha' => ?_, h.pc⟩
  · rw [hload]
    refine h.frame.congr fun a ha ha' => hm a ⟨by omega, ?_⟩
    rw [context_length] at ha'
    omega
  · rw [hm a ⟨by omega, ha'⟩]
    exact h.above a ha ha'

/-- From where the stack of the task is taken to the end of the switch. -/
theorem restore_spec (hfits : L.Fits t) (h : Parked target L x.memory t c) (hsp : x.sp = loadPointer x.memory (L.task t)) :
    Resumed L t c (x.reg 24) (x.run target.threeBytePc (savedRegisters.reverse.map Instr.pop ++ [Instr.ret])) ∧
    (x.run target.threeBytePc (savedRegisters.reverse.map Instr.pop ++ [Instr.ret])).memory = x.memory ∧
    (x.run target.threeBytePc (savedRegisters.reverse.map Instr.pop ++ [Instr.ret])).interrupts = x.interrupts := by
  have hc := h.sp
  have hhigh := h.high
  have hfit := hfits.high
  have hsize : OS_CONTEXT_SIZE target = 18 + OS_PC_SIZE target := rfl
  have hlen : savedRegisters.reverse.length = 18 := rfl
  have hframe := h.frame
  rw [← hsp] at hframe
  obtain ⟨hsp', hm, -, hi, hreg⟩ := Cpu.run_pop target.threeBytePc savedRegisters.reverse c.reg hframe
    (by omega)
  rw [Cpu.run_append]
  generalize x.run target.threeBytePc (savedRegisters.reverse.map .pop) = y at hsp' hm hi hreg ⊢
  have haddress : OnStack y.memory y.sp ((Cpu.addressBytes target.threeBytePc c.pc).reverse ++ []) := by
    rw [List.append_nil, hsp', hm, ← List.length_map (f := c.reg)]
    exact (OnStack.append.mp hframe).2
  have hret := Cpu.ret_spec (x := y) _ haddress (by rw [addressBytes_length]; omega) h.pc
  have hrun : y.run target.threeBytePc [.ret] = y.ret target.threeBytePc := rfl
  rw [hrun, hret, addressBytes_length]
  refine ⟨⟨fun r hr => ?_, ?_, ?_, rfl, fun a ha ha' => ?_⟩, hm, hi⟩
  · exact (hreg r).trans (if_pos (List.mem_reverse.mpr hr))
  · exact (hreg 24).trans (if_neg (by decide))
  · show y.sp + OS_PC_SIZE target = c.sp
    omega
  · show y.memory a = c.memory a
    rw [hm]
    exact h.above a ha ha'

/-- There is room for the frame. -/
structure Room (target : Target) (L : Layout T) (t : T) (x : Cpu) : Prop where
  low : L.low t + OS_CONTEXT_SIZE target ≤ x.sp + 1
  high : x.sp ≤ L.high t

/-- One task is left with its frame on the stack, the other one is back. Nothing else is written. -/
structure Switched (target : Target) (L : Layout T) (t u : T) (x c : Cpu) (back : ℕ) (y : Cpu) : Prop where
  parked : Parked target L y.memory t { x with pc := back }
  resumed : Resumed L u c (x.memory (L.task u + 2)) y
  interrupts : y.interrupts = x.interrupts
  memory : ∀ a, a + OS_CONTEXT_SIZE target ≤ x.sp ∨ x.sp < a → a ≠ L.task t → a ≠ L.task t + 1 → y.memory a = x.memory a

theorem Switched.elsewhere {back : ℕ} {y : Cpu} (h : Switched target L t u x c back y) (hfits : L.Fits t) (hroom : Room target L t x)
    {a : ℕ} (hstack : ¬ L.stack t a) (hblock : ¬ L.block t a) : y.memory a = x.memory a := by
  have hlow := hroom.low
  have hhigh := hroom.high
  have hsize := hfits.size
  unfold Layout.stack at hstack
  unfold Layout.block at hblock
  exact h.memory a (by omega) (by omega) (by omega)

theorem storePointer_elsewhere {a p b : ℕ} (h₀ : b ≠ a) (h₁ : b ≠ a + 1) : storePointer m a p b = m b := by
  rw [storePointer_update, Function.update_of_ne h₁, Function.update_of_ne h₀]

theorem callSwitch_spec {back function : ℕ} (ht : L.Fits t) (hu : L.Fits u) (hapart : L.Apart u t) (hroom : Room target L t x)
    (hback : back < if target.threeBytePc then 16777216 else 65536) (h : Parked target L x.memory u c) :
    Switched target L t u x c back (callSwitch target x back function (L.task u) (L.task t)) := by
  have hlow := hroom.low
  have hhigh := hroom.high
  have hlow' := ht.low
  have hhigh' := ht.high
  have hsize := ht.size
  have hsize' := hu.size
  have htask := ht.task
  have htask' := hu.task
  have hcontext : OS_CONTEXT_SIZE target = 18 + OS_PC_SIZE target := rfl
  have hpushed := callSwitch_pushed target x back function (L.task u) (L.task t) (by omega) (by omega)
  unfold callSwitch osPortSwitch
  rw [List.append_assoc, List.append_assoc, Cpu.run_append, Cpu.run_append]
  generalize ((arguments x (L.task u) (L.task t)).call target.threeBytePc back function).run target.threeBytePc
    (savedRegisters.map .push) = y at hpushed ⊢
  have hsp := hpushed.sp
  rw [context_length { x with pc := back } target] at hsp
  replace hsp : y.sp + OS_CONTEXT_SIZE target = x.sp := hsp
  -- nothing but the own stack has been written
  have hm : ∀ a, a ≤ y.sp ∨ x.sp < a → y.memory a = x.memory a := hpushed.memory
  have hprev : y.pair 22 = L.task t := by
    unfold Cpu.pair
    rw [hpushed.reg]
    exact arguments_second x (by omega)
  have hnext : y.pair 24 = L.task u := by
    unfold Cpu.pair
    rw [hpushed.reg]
    exact arguments_first x (by omega)
  obtain ⟨hmemory, hload, hresult, hi⟩ := exchangeStacks_spec target.threeBytePc y hprev hnext (by omega) (by omega)
  generalize y.run target.threeBytePc exchangeStacks = z at hmemory hload hresult hi ⊢
  rw [← hmemory] at hload hresult
  have hstore : ∀ a, a ≠ L.task t → a ≠ L.task t + 1 → z.memory a = y.memory a := fun a h₀ h₁ => by
    rw [hmemory, storePointer_elsewhere h₀ h₁]
  have hown : ∀ a, L.stack t a → z.memory a = y.memory a := fun a ha => by
    have hblock := ht.apart a ha
    unfold Layout.block at hblock
    exact hstore a (by omega) (by omega)
  have hothers : ∀ a, L.stack u a ∨ L.block u a → z.memory a = x.memory a := fun a ha => by
    have hnot := hapart a ha
    unfold Layout.stack Layout.block at hnot
    rw [hstore a (by omega) (by omega)]
    exact hm a (by omega)
  have hresume : Parked target L z.memory u c := by
    refine h.congr (fun a ha => hothers a (.inl ha)) fun a ha => hothers a (.inr ?_)
    unfold Layout.block
    omega
  obtain ⟨hback', hmem', hi'⟩ := restore_spec hu hresume hload
  rw [hresult, hothers (L.task u + 2) (.inr ⟨by omega, by omega⟩)] at hback'
  refine ⟨?_, hback', hi'.trans (hi.trans hpushed.interrupts), fun a ha h₀ h₁ => ?_⟩
  · have hsp' : loadPointer z.memory (L.task t) = y.sp := by
      rw [hmemory]
      exact load_stored_pointer _ _ _ (by omega)
    rw [hmem']
    refine ⟨by rw [hsp']; exact hsp, by rw [hsp']; omega, hhigh, ?_, fun a ha ha' => ?_, hback⟩
    · rw [hsp']
      refine hpushed.stack.congr fun a ha ha' => hown a ⟨by omega, ?_⟩
      rw [context_length { x with pc := back } target] at ha'
      omega
    · have ha : x.sp < a := ha
      rw [hown a ⟨by omega, ha'⟩]
      exact hm a (.inr ha)
  · rw [hmem', hstore a h₀ h₁]
    exact hm a (by omega)

end

end AvrOs
