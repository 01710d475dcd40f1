import AvrOs.Types

/-!
# asm.c (stacks)

The stack grows towards lower addresses, the stack pointer is the address the next byte goes to.
-/

namespace AvrOs

abbrev Word := BitVec 16

/-- What the target is. -/
structure Target where
  /-- `__AVR_3_BYTE_PC__`. -/
  threeBytePc : Bool
  osTaskExit : Word
  osPortTaskStart : Word

def OS_PC_SIZE (target : Target) : ℕ := if target.threeBytePc then 3 else 2
def OS_CONTEXT_SIZE (target : Target) : ℕ := 18 + OS_PC_SIZE target
def OS_STACK_MIN (target : Target) : ℕ := OS_CONTEXT_SIZE target + 3 * OS_PC_SIZE target + 32
def OS_STACK_FILL : Byte := 0xa5

structure Stack where
  memory : ℕ → Byte
  sp : ℕ

namespace Stack

/-- `*sp-- = byte`. -/
def push (s : Stack) (byte : Byte) : Stack where
  memory := Function.update s.memory s.sp byte
  sp := (s.sp + 65535) % 65536

def osPortPushAddress (target : Target) (s : Stack) (address : Word) : Stack :=
  let s := s.push (address.setWidth 8)
  let s := s.push ((address >>> 8).setWidth 8)
  if target.threeBytePc then s.push 0 else s

/-- `count` bytes of zero. -/
def pushZeros (s : Stack) : ℕ → Stack
  | 0 => s
  | count + 1 => (s.push 0x00).pushZeros count

def osPortStackInit (target : Target) (top : Stack) (function param : Word) : Stack :=
  let top := top.osPortPushAddress target target.osTaskExit
  let top := top.osPortPushAddress target function
  let top := top.osPortPushAddress target target.osPortTaskStart
  let top := top.push (param.setWidth 8)
  let top := top.push ((param >>> 8).setWidth 8)
  top.pushZeros 16

/-! ### How far it goes -/

/-- At most `count` bytes below the stack pointer are written. -/
structure Grows (s s' : Stack) (count : ℕ) : Prop where
  sp : s'.sp + count = s.sp
  memory : ∀ a, a ≤ s'.sp ∨ s.sp < a → s'.memory a = s.memory a

theorem Grows.trans {s s₁ s' : Stack} {n n' : ℕ} (h : Grows s s₁ n) (h' : Grows s₁ s' n') : Grows s s' (n + n') := by
  have hsp := h.sp
  have hsp' := h'.sp
  refine ⟨by omega, fun a ha => ?_⟩
  rw [h'.memory a (by omega), h.memory a (by omega)]

theorem push_grows (s : Stack) (byte : Byte) (hlow : 1 ≤ s.sp) (hhigh : s.sp < 65536) : Grows s (s.push byte) 1 := by
  unfold push
  refine ⟨by dsimp only; omega, fun a ha => ?_⟩
  dsimp only at ha ⊢
  rw [Function.update_of_ne (by omega)]

theorem osPortPushAddress_grows (target : Target) (s : Stack) (address : Word) (hlow : OS_PC_SIZE target ≤ s.sp)
    (hhigh : s.sp < 65536) : Grows s (s.osPortPushAddress target address) (OS_PC_SIZE target) := by
  unfold osPortPushAddress OS_PC_SIZE at *
  have h₁ := push_grows s (address.setWidth 8) (by split at hlow <;> omega) hhigh
  have hsp₁ := h₁.sp
  generalize s.push (address.setWidth 8) = s₁ at h₁ hsp₁ ⊢
  have h₂ := push_grows s₁ ((address >>> 8).setWidth 8) (by split at hlow <;> omega) (by omega)
  have hsp₂ := h₂.sp
  dsimp only
  generalize s₁.push ((address >>> 8).setWidth 8) = s₂ at h₂ hsp₂ ⊢
  split at hlow
  case isTrue hpc =>
    rw [if_pos hpc, if_pos hpc]
    exact (h₁.trans h₂).trans (push_grows s₂ 0 (by omega) (by omega))
  case isFalse hpc =>
    rw [if_neg hpc, if_neg hpc]
    exact h₁.trans h₂

theorem pushZeros_grows (count : ℕ) (s : Stack) (hlow : count ≤ s.sp) (hhigh : s.sp < 65536) :
    Grows s (s.pushZeros count) count := by
  induction count generalizing s with
  | zero => exact ⟨rfl, fun _ _ => rfl⟩
  | succ count ih =>
    have h := push_grows s 0x00 (by omega) hhigh
    have hsp := h.sp
    have hrest := ih (s.push 0x00) (by omega) (by omega)
    have hall := h.trans hrest
    rwa [Nat.add_comm] at hall

/-- The first frame of a task takes three addresses and 18 registers. -/
theorem osPortStackInit_grows (target : Target) (s : Stack) (function param : Word)
    (hlow : 3 * OS_PC_SIZE target + 18 ≤ s.sp) (hhigh : s.sp < 65536) :
    Grows s (s.osPortStackInit target function param) (3 * OS_PC_SIZE target + 18) := by
  unfold osPortStackInit
  dsimp only
  have h₁ := osPortPushAddress_grows target s target.osTaskExit (by omega) hhigh
  have hsp₁ := h₁.sp
  generalize s.osPortPushAddress target target.osTaskExit = s₁ at h₁ hsp₁ ⊢
  have h₂ := osPortPushAddress_grows target s₁ function (by omega) (by omega)
  have hsp₂ := h₂.sp
  generalize s₁.osPortPushAddress target function = s₂ at h₂ hsp₂ ⊢
  have h₃ := osPortPushAddress_grows target s₂ target.osPortTaskStart (by omega) (by omega)
  have hsp₃ := h₃.sp
  generalize s₂.osPortPushAddress target target.osPortTaskStart = s₃ at h₃ hsp₃ ⊢
  have h₄ := push_grows s₃ (param.setWidth 8) (by omega) (by omega)
  have hsp₄ := h₄.sp
  generalize s₃.push (param.setWidth 8) = s₄ at h₄ hsp₄ ⊢
  have h₅ := push_grows s₄ ((param >>> 8).setWidth 8) (by omega) (by omega)
  have hsp₅ := h₅.sp
  generalize s₄.push ((param >>> 8).setWidth 8) = s₅ at h₅ hsp₅ ⊢
  have h₆ := pushZeros_grows 16 s₅ (by omega) (by omega)
  have hall := ((((h₁.trans h₂).trans h₃).trans h₄).trans h₅).trans h₆
  rw [show 3 * OS_PC_SIZE target + 18 = OS_PC_SIZE target + OS_PC_SIZE target + OS_PC_SIZE target + 1 + 1 + 16 by omega]
  exact hall

end Stack

end AvrOs
