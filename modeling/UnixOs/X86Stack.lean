import UnixOs.ByteMemory

/-! The part of a 32-bit x86 processor that entry and exit code uses: general registers, a stack in
byte memory, and calls of C functions. What a call may change is a structure that a modelled C
function carries with it. -/

namespace UnixOs

/-- The general registers apart from `esp`. -/
inductive Reg where
  | eax
  | ecx
  | edx
  | ebx
  | ebp
  | esi
  | edi
  deriving DecidableEq

structure Cpu where
  regs : Reg → BitVec 32
  esp : Nat
  mem : Mem

/-- The 32-bit word at an address. -/
def Mem.word (m : Mem) (a : Nat) : BitVec 32 := BitVec.ofNat 32 (m.load32 a)

namespace Cpu

def push (c : Cpu) (v : BitVec 32) : Cpu :=
  { c with esp := c.esp - 4, mem := c.mem.store32 (c.esp - 4) v.toNat }

/-- Several pushes, first to last. -/
def pushAll (c : Cpu) (vs : List (BitVec 32)) : Cpu := vs.foldl push c

def pop (c : Cpu) (r : Reg) : Cpu :=
  { c with regs := Function.update c.regs r (c.mem.word c.esp), esp := c.esp + 4 }

/-- The values `pusha` pushes, first to last. -/
def pushaWords (c : Cpu) : List (BitVec 32) :=
  [c.regs .eax, c.regs .ecx, c.regs .edx, c.regs .ebx, BitVec.ofNat 32 c.esp, c.regs .ebp,
    c.regs .esi, c.regs .edi]

def pusha (c : Cpu) : Cpu := c.pushAll c.pushaWords

/-- The registers that `popa` loads from a stack pointer; the saved `esp` at offset 12 is skipped. -/
def poppedRegs (m : Mem) (esp : Nat) : Reg → BitVec 32
  | .edi => m.word esp
  | .esi => m.word (esp + 4)
  | .ebp => m.word (esp + 8)
  | .ebx => m.word (esp + 16)
  | .edx => m.word (esp + 20)
  | .ecx => m.word (esp + 24)
  | .eax => m.word (esp + 28)

def popa (c : Cpu) : Cpu := { c with regs := poppedRegs c.mem c.esp, esp := c.esp + 32 }

/-- `addl $n, %esp` -/
def addEsp (c : Cpu) (n : Int) : Cpu := { c with esp := (c.esp + n).toNat }

end Cpu

/-- A function that keeps the C calling convention on the stack below `top`, from its call to its
return: the stack pointer and the callee-saved registers come back, and of the stack only its own
`args` bytes of arguments and what is below them may have changed. -/
structure CFunction (top args : Nat) where
  run : Cpu → Cpu
  esp : ∀ c, (run c).esp = c.esp
  saved : ∀ c, ∀ r ∈ [Reg.ebx, .ebp, .esi, .edi], (run c).regs r = c.regs r
  above : ∀ c a, c.esp + args ≤ a → a < top → (run c).mem a = c.mem a

/-! ### Words and pushes -/

theorem Mem.word_congr {m m' : Mem} {a : Nat} (h : ∀ i < 4, m (a + i) = m' (a + i)) :
    m.word a = m'.word a := by
  rw [Mem.word, Mem.word, Mem.load32_congr h]

theorem Mem.word_store32 (m : Mem) (a : Nat) (v : BitVec 32) : (m.store32 a v.toNat).word a = v := by
  rw [Mem.word, Mem.load32_store32_of_lt _ _ v.isLt, BitVec.ofNat_toNat, BitVec.setWidth_eq]

namespace Cpu

theorem pushAll_regs (c : Cpu) (vs : List (BitVec 32)) : (c.pushAll vs).regs = c.regs := by
  induction vs generalizing c with
  | nil => rfl
  | cons v vs ih => exact ih (c.push v)

theorem pushAll_esp (c : Cpu) (vs : List (BitVec 32)) : (c.pushAll vs).esp = c.esp - 4 * vs.length := by
  induction vs generalizing c with
  | nil => rfl
  | cons v vs ih =>
      have hrest := ih (c.push v)
      simp only [pushAll, List.foldl_cons, push, List.length_cons] at hrest ⊢
      omega

theorem pushAll_append (c : Cpu) (vs ws : List (BitVec 32)) :
    c.pushAll (vs ++ ws) = (c.pushAll vs).pushAll ws := List.foldl_append

/-- `pusha` after other pushes. -/
theorem pusha_pushAll (c : Cpu) (vs : List (BitVec 32)) :
    (c.pushAll vs).pusha = c.pushAll (vs ++ [c.regs .eax, c.regs .ecx, c.regs .edx, c.regs .ebx,
      BitVec.ofNat 32 (c.esp - 4 * vs.length), c.regs .ebp, c.regs .esi, c.regs .edi]) := by
  rw [pushAll_append, pusha, pushaWords, pushAll_regs, pushAll_esp]

/-- Pushes change memory only below the stack pointer they start from. -/
theorem pushAll_mem_above (c : Cpu) (vs : List (BitVec 32)) (hroom : 4 * vs.length ≤ c.esp) {a : Nat}
    (ha : c.esp ≤ a) : (c.pushAll vs).mem a = c.mem a := by
  induction vs generalizing c with
  | nil => rfl
  | cons v vs ih =>
      simp only [List.length_cons] at hroom
      have hrest := ih (c.push v) (by simp only [push]; omega) (by simp only [push]; omega)
      rw [pushAll, List.foldl_cons]
      rw [pushAll] at hrest
      rw [hrest]
      exact Mem.store32_of_outside _ (by omega)

/-- The `i`-th pushed value is `i + 1` words below the stack pointer the pushes start from. -/
theorem pushAll_word (c : Cpu) (vs : List (BitVec 32)) (hroom : 4 * vs.length ≤ c.esp) {i : Nat}
    (hi : i < vs.length) : (c.pushAll vs).mem.word (c.esp - 4 * (i + 1)) = vs[i] := by
  induction vs generalizing c i with
  | nil => exact absurd hi (Nat.not_lt_zero i)
  | cons v vs ih =>
      simp only [List.length_cons] at hroom hi
      have hroom' : 4 * vs.length ≤ (c.push v).esp := by simp only [push]; omega
      cases i with
      | zero =>
          have hkept : (c.pushAll (v :: vs)).mem.word (c.esp - 4) = (c.push v).mem.word (c.esp - 4) := by
            apply Mem.word_congr
            intro j hj
            exact pushAll_mem_above (c.push v) vs hroom' (by simp only [push]; omega)
          simpa using hkept.trans (Mem.word_store32 _ _ _)
      | succ i =>
          have hrest := ih (c.push v) hroom' (i := i) (by omega)
          have haddr : (c.push v).esp - 4 * (i + 1) = c.esp - 4 * (i + 1 + 1) := by
            simp only [push]; omega
          rw [haddr] at hrest
          exact hrest

end Cpu

end UnixOs
