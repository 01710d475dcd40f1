import Mathlib.Data.BitVec
import Mathlib.Logic.Function.Basic

/-!
# Straight-line AVR code which works on the stack

Addresses have 16 bits. The stack pointer is the address the next byte goes to, the stack grows
towards lower addresses. A return address takes two bytes or three, the most significant one of them is
the last one pushed. What is on the stack is a list of bytes, the one to be popped first at its head.
-/

namespace Avr

abbrev Register := Fin 32

/-- Registers are written as their numbers. -/
instance (n : ℕ) : OfNat Register n := ⟨Fin.ofNat 32 n⟩

structure Cpu where
  reg : Register → BitVec 8
  sp : ℕ
  pc : ℕ
  interrupts : Bool
  memory : ℕ → BitVec 8

inductive Instr where
  | push (r : Register)
  | pop (r : Register)
  | movw (d r : Register)
  /-- `in r, SPL` and `in r, SPH`. -/
  | inSpl (r : Register)
  | inSph (r : Register)
  /-- `out SPL, r` and `out SPH, r`. -/
  | outSpl (r : Register)
  | outSph (r : Register)
  /-- `std z+q, r` and `ldd r, z+q`. -/
  | std (q : ℕ) (r : Register)
  | ldd (r : Register) (q : ℕ)
  | sei
  | ret

namespace Cpu

def setReg (x : Cpu) (r : Register) (b : BitVec 8) : Cpu := { x with reg := Function.update x.reg r b }

/-- The address below. -/
@[irreducible] def down (a : ℕ) : ℕ := (a + 65535) % 65536

theorem down_eq {a : ℕ} (hlow : 0 < a) (hhigh : a < 65536) : down a = a - 1 := by
  unfold down
  omega

def pushByte (x : Cpu) (b : BitVec 8) : Cpu :=
  { x with memory := Function.update x.memory x.sp b, sp := down x.sp }

def popByte (x : Cpu) : BitVec 8 × Cpu :=
  let sp := (x.sp + 1) % 65536
  (x.memory sp, { x with sp := sp })

/-- The register pair `r`, `r + 1`. -/
def pair (x : Cpu) (r : Register) : ℕ := (x.reg r).toNat + 256 * (x.reg (r + 1)).toNat

/-- Bytes of an address in the order they are pushed in. -/
def addressBytes (three : Bool) (a : ℕ) : List (BitVec 8) :=
  let bytes := [BitVec.ofNat 8 a, BitVec.ofNat 8 (a / 256)]
  if three then bytes ++ [BitVec.ofNat 8 (a / 65536)] else bytes

def pushBytes (x : Cpu) (bytes : List (BitVec 8)) : Cpu := bytes.foldl pushByte x

/-- `call`, the address behind it is `back`. -/
def call (three : Bool) (x : Cpu) (back function : ℕ) : Cpu :=
  { x.pushBytes (addressBytes three back) with pc := function }

/-- `ret`. -/
def ret (three : Bool) (x : Cpu) : Cpu :=
  let (extended, x) := if three then x.popByte else (0, x)
  let (high, x) := x.popByte
  let (low, x) := x.popByte
  { x with pc := low.toNat + 256 * high.toNat + 65536 * extended.toNat }

/-- The Z register is the pair r31:r30. -/
def exec (three : Bool) (x : Cpu) : Instr → Cpu
  | .push r => x.pushByte (x.reg r)
  | .pop r =>
    let (b, x) := x.popByte
    x.setReg r b
  | .movw d r => (x.setReg d (x.reg r)).setReg (d + 1) (x.reg (r + 1))
  | .inSpl r => x.setReg r (BitVec.ofNat 8 x.sp)
  | .inSph r => x.setReg r (BitVec.ofNat 8 (x.sp / 256))
  | .outSpl r => { x with sp := x.sp / 256 * 256 + (x.reg r).toNat }
  | .outSph r => { x with sp := x.sp % 256 + 256 * (x.reg r).toNat }
  | .std q r => { x with memory := Function.update x.memory ((x.pair 30 + q) % 65536) (x.reg r) }
  | .ldd r q => x.setReg r (x.memory ((x.pair 30 + q) % 65536))
  | .sei => { x with interrupts := true }
  | .ret => x.ret three

def run (three : Bool) (x : Cpu) (code : List Instr) : Cpu := code.foldl (exec three) x

theorem run_append (three : Bool) (x : Cpu) (code code' : List Instr) :
    x.run three (code ++ code') = (x.run three code).run three code' := List.foldl_append

theorem run_cons (three : Bool) (x : Cpu) (i : Instr) (code : List Instr) :
    x.run three (i :: code) = (x.exec three i).run three code := rfl

theorem pushBytes_cons (x : Cpu) (b : BitVec 8) (bytes : List (BitVec 8)) :
    x.pushBytes (b :: bytes) = (x.pushByte b).pushBytes bytes := List.foldl_cons ..

end Cpu

/-! ### What is on the stack -/

/-- Above the stack pointer there are these bytes. -/
def OnStack (m : ℕ → BitVec 8) : ℕ → List (BitVec 8) → Prop
  | _, [] => True
  | sp, b :: bytes => m (sp + 1) = b ∧ OnStack m (sp + 1) bytes

section
variable {m m' : ℕ → BitVec 8} {sp : ℕ} {bytes bytes' : List (BitVec 8)}

theorem OnStack.append : OnStack m sp (bytes ++ bytes') ↔ OnStack m sp bytes ∧ OnStack m (sp + bytes.length) bytes' := by
  induction bytes generalizing sp with
  | nil => simp [OnStack]
  | cons b bytes ih =>
    simp only [List.cons_append, OnStack, ih, List.length_cons, and_assoc]
    rw [show sp + 1 + bytes.length = sp + (bytes.length + 1) by omega]

/-- Whatever is written elsewhere. -/
theorem OnStack.congr (h : OnStack m sp bytes) (hm : ∀ a, sp < a → a ≤ sp + bytes.length → m' a = m a) :
    OnStack m' sp bytes := by
  induction bytes generalizing sp with
  | nil => exact h
  | cons b bytes ih =>
    obtain ⟨hb, h⟩ := h
    simp only [List.length_cons] at hm
    refine ⟨(hm _ (by omega) (by omega)).trans hb, ih h fun a ha ha' => hm a (by omega) (by omega)⟩

end

namespace Cpu

variable {x y z : Cpu} {bytes bytes' below : List (BitVec 8)} {b : BitVec 8}

/-- These bytes have been pushed, the last one is at the head. -/
structure Pushed (x y : Cpu) (bytes : List (BitVec 8)) : Prop where
  reg : y.reg = x.reg
  interrupts : y.interrupts = x.interrupts
  sp : y.sp + bytes.length = x.sp
  stack : OnStack y.memory y.sp bytes
  memory : ∀ a, a ≤ y.sp ∨ x.sp < a → y.memory a = x.memory a

theorem Pushed.refl (x : Cpu) : Pushed x x [] := ⟨rfl, rfl, rfl, trivial, fun _ _ => rfl⟩

theorem Pushed.trans (h : Pushed x y bytes) (h' : Pushed y z bytes') : Pushed x z (bytes' ++ bytes) := by
  have hsp := h.sp
  have hsp' := h'.sp
  refine ⟨h'.reg.trans h.reg, h'.interrupts.trans h.interrupts, by rw [List.length_append]; omega, ?_, fun a ha => ?_⟩
  · refine OnStack.append.mpr ⟨h'.stack, ?_⟩
    rw [hsp']
    exact h.stack.congr fun a ha _ => h'.memory a (.inr ha)
  · rw [h'.memory a (by omega), h.memory a (by omega)]

theorem store_pushed (x : Cpu) (b : BitVec 8) {sp : ℕ} (h : sp + 1 = x.sp) :
    Pushed x { x with memory := Function.update x.memory x.sp b, sp := sp } [b] := by
  refine ⟨rfl, rfl, h, ⟨?_, trivial⟩, fun a ha => ?_⟩
  · dsimp only
    rw [h]
    exact Function.update_self ..
  · dsimp only at ha ⊢
    exact Function.update_of_ne (by omega) ..

theorem pushByte_pushed (x : Cpu) (b : BitVec 8) (hlow : 0 < x.sp) (hhigh : x.sp < 65536) : Pushed x (x.pushByte b) [b] :=
  store_pushed x b (by rw [down_eq hlow hhigh]; omega)

theorem pushBytes_pushed (bytes : List (BitVec 8)) (x : Cpu) (hlow : bytes.length ≤ x.sp) (hhigh : x.sp < 65536) :
    Pushed x (x.pushBytes bytes) bytes.reverse := by
  induction bytes generalizing x with
  | nil => exact .refl x
  | cons b bytes ih =>
    simp only [List.length_cons] at hlow
    have h := pushByte_pushed x b (by omega) hhigh
    have hsp := h.sp
    simp only [List.length_cons, List.length_nil] at hsp
    rw [List.reverse_cons, pushBytes_cons]
    exact h.trans (ih (x.pushByte b) (by omega) (by omega))

theorem call_pushed (three : Bool) (back function : ℕ) (x : Cpu) (hlow : (addressBytes three back).length ≤ x.sp) (hhigh : x.sp < 65536) :
    Pushed x (x.call three back function) (addressBytes three back).reverse := by
  have h := pushBytes_pushed (addressBytes three back) x hlow hhigh
  exact ⟨h.reg, h.interrupts, h.sp, h.stack, h.memory⟩

/-- A run of `push` instructions. -/
theorem run_pushed (three : Bool) (rs : List Register) (x : Cpu) (hlow : rs.length ≤ x.sp) (hhigh : x.sp < 65536) :
    Pushed x (x.run three (rs.map .push)) (rs.reverse.map x.reg) := by
  induction rs generalizing x with
  | nil => exact .refl x
  | cons r rs ih =>
    simp only [List.length_cons] at hlow
    have h := pushByte_pushed x (x.reg r) (by omega) hhigh
    have hsp := h.sp
    simp only [List.length_cons, List.length_nil] at hsp
    rw [List.reverse_cons, List.map_append, List.map_cons, run_cons, exec]
    have hrest := ih (x.pushByte (x.reg r)) (by omega) (by omega)
    rw [h.reg] at hrest
    exact h.trans hrest

theorem popByte_eq (h : OnStack x.memory x.sp (b :: bytes)) (hhigh : x.sp + 1 < 65536) :
    x.popByte = (b, { x with sp := x.sp + 1 }) := by
  unfold popByte
  dsimp only
  rw [Nat.mod_eq_of_lt hhigh, h.1]

/-- A run of `pop` instructions: every register gets the value which was meant for it. -/
theorem run_pop (three : Bool) (rs : List Register) (v : Register → BitVec 8) {x : Cpu} (h : OnStack x.memory x.sp (rs.map v ++ below))
    (hhigh : x.sp + rs.length < 65536) :
    (x.run three (rs.map .pop)).sp = x.sp + rs.length ∧ (x.run three (rs.map .pop)).memory = x.memory ∧
    (x.run three (rs.map .pop)).pc = x.pc ∧ (x.run three (rs.map .pop)).interrupts = x.interrupts ∧
    ∀ r, (x.run three (rs.map .pop)).reg r = if r ∈ rs then v r else x.reg r := by
  induction rs generalizing x with
  | nil => exact ⟨rfl, rfl, rfl, rfl, fun r => by simp [run]⟩
  | cons r rs ih =>
    simp only [List.length_cons] at hhigh
    have hpop : x.exec three (.pop r) = ({ x with sp := x.sp + 1 } : Cpu).setReg r (v r) := by
      rw [exec, popByte_eq h (by omega)]
    have hnext : OnStack (x.exec three (.pop r)).memory (x.exec three (.pop r)).sp (rs.map v ++ below) := by
      rw [hpop]
      exact h.2
    obtain ⟨hsp, hm, hpc, hi, hreg⟩ := ih hnext (by rw [hpop]; show x.sp + 1 + rs.length < 65536; omega)
    rw [List.map_cons, run_cons]
    rw [hpop] at hsp hm hpc hi hreg ⊢
    refine ⟨hsp.trans (by simp only [setReg, List.length_cons]; omega), hm, hpc, hi, fun r' => ?_⟩
    rw [hreg r']
    by_cases hmem : r' ∈ rs
    · simp [hmem]
    · by_cases hr : r' = r
      · simp [hr, setReg]
      · simp [hmem, hr, setReg]

/-- `ret` goes where the address on the stack says. -/
theorem ret_spec (three : Bool) {a : ℕ} (h : OnStack x.memory x.sp ((addressBytes three a).reverse ++ below))
    (hhigh : x.sp + (addressBytes three a).length < 65536) (ha : a < if three then 16777216 else 65536) :
    x.ret three = { x with sp := x.sp + (addressBytes three a).length, pc := a } := by
  cases three with
  | false =>
    simp only [addressBytes, Bool.false_eq_true, if_false, List.reverse_cons, List.reverse_nil, List.nil_append,
      List.cons_append] at h hhigh ha ⊢
    simp only [List.length_cons, List.length_nil] at hhigh ⊢
    have hpop : x.popByte = (BitVec.ofNat 8 (a / 256), { x with sp := x.sp + 1 }) := popByte_eq h (by omega)
    have hpop' : ({ x with sp := x.sp + 1 } : Cpu).popByte = (BitVec.ofNat 8 a, { x with sp := x.sp + 1 + 1 }) :=
      popByte_eq h.2 (by show x.sp + 1 + 1 < 65536; omega)
    simp only [ret, Bool.false_eq_true, if_false, hpop, hpop']
    congr 1
    simp only [BitVec.toNat_ofNat]
    rw [show (0 : BitVec 8).toNat = 0 from rfl]
    omega
  | true =>
    simp only [addressBytes, if_true, List.reverse_cons, List.reverse_nil, List.nil_append,
      List.cons_append] at h hhigh ha ⊢
    simp only [List.length_cons, List.length_nil] at hhigh ⊢
    have hpop : x.popByte = (BitVec.ofNat 8 (a / 65536), { x with sp := x.sp + 1 }) := popByte_eq h (by omega)
    have hpop' : ({ x with sp := x.sp + 1 } : Cpu).popByte = (BitVec.ofNat 8 (a / 256), { x with sp := x.sp + 1 + 1 }) :=
      popByte_eq h.2 (by show x.sp + 1 + 1 < 65536; omega)
    have hpop'' : ({ x with sp := x.sp + 1 + 1 } : Cpu).popByte = (BitVec.ofNat 8 a, { x with sp := x.sp + 1 + 1 + 1 }) :=
      popByte_eq h.2.2 (by show x.sp + 1 + 1 + 1 < 65536; omega)
    simp only [ret, if_true, hpop, hpop', hpop'']
    congr 1
    simp only [BitVec.toNat_ofNat]
    omega

end Cpu

end Avr
