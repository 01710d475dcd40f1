import AvrOs.Bytes
import AvrOs.Types

/-!
# memory.c (pools)

A pointer takes two bytes and the null pointer is zero. Free blocks are kept in a list
which goes through their first two bytes.
-/

namespace AvrOs

def storePointer (mem : ℕ → Byte) (a p : ℕ) : ℕ → Byte :=
  store mem a [BitVec.ofNat 8 p, BitVec.ofNat 8 (p / 256)]

def loadPointer (mem : ℕ → Byte) (a : ℕ) : ℕ :=
  (mem a).toNat + 256 * (mem (a + 1)).toNat

/-- The pool and the memory it is about. -/
structure OsPool where
  free : Address
  memory : Address → Byte

namespace OsPool

def osPoolInitLoop : ℕ → OsPool → Address → ℕ → OsPool
  | 0, pool, _, _ => pool
  | blocks + 1, pool, block, blockSize =>
    let pool := { pool with memory := storePointer pool.memory block pool.free, free := block }
    osPoolInitLoop blocks pool ((block + blockSize) % 65536) blockSize

def osPoolInit (mem : Address → Byte) (memory : Address) (blockSize blocks : Byte) : OsPool :=
  osPoolInitLoop blocks.toNat ⟨0, mem⟩ memory blockSize.toNat

def osPoolAlloc (pool : OsPool) : OsPool × Address :=
  let block := pool.free
  if block ≠ 0 then ({ pool with free := loadPointer pool.memory block }, block) else (pool, block)

def osPoolFree (pool : OsPool) (block : Address) : OsPool :=
  { pool with memory := storePointer pool.memory block pool.free, free := block }

end OsPool

theorem load_stored_pointer (mem : ℕ → Byte) (a p : ℕ) (hp : p < 65536) :
    loadPointer (storePointer mem a p) a = p := by
  have h₀ : storePointer mem a p a = BitVec.ofNat 8 p := by simp [storePointer, store]
  have h₁ : storePointer mem a p (a + 1) = BitVec.ofNat 8 (p / 256) := by simp [storePointer, store]
  unfold loadPointer
  rw [h₀, h₁, BitVec.toNat_ofNat, BitVec.toNat_ofNat]
  omega

theorem load_pointer_elsewhere (mem : ℕ → Byte) (a b p : ℕ)
    (h : b + 2 ≤ a ∨ a + 2 ≤ b) : loadPointer (storePointer mem a p) b = loadPointer mem b := by
  have h₀ : storePointer mem a p b = mem b :=
    store_outside mem a b _ (by simp only [List.length_cons, List.length_nil]; omega)
  have h₁ : storePointer mem a p (b + 1) = mem (b + 1) :=
    store_outside mem a (b + 1) _ (by simp only [List.length_cons, List.length_nil]; omega)
  unfold loadPointer
  rw [h₀, h₁]

theorem load_pointer_update (mem : ℕ → Byte) (a b : ℕ) (x : Byte)
    (h : a < b ∨ b + 2 ≤ a) : loadPointer (Function.update mem a x) b = loadPointer mem b := by
  unfold loadPointer
  rw [Function.update_of_ne (by omega), Function.update_of_ne (by omega)]

end AvrOs
