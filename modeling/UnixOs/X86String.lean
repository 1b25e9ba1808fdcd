import UnixOs.ByteMemory

/-! The string instructions of a 32-bit x86 processor on byte memory, with the registers they use.
Addresses are 32-bit registers, so that every access is taken modulo `2^32`. -/

namespace UnixOs

namespace Mem

/-- The `n` bytes from a 32-bit address on. -/
def loadAt (m : Mem) (a : BitVec 32) (n : Nat) : List UInt8 :=
  (List.range n).map fun i => m (a + BitVec.ofNat 32 i).toNat

/-- The bytes `bs` stored from a 32-bit address on. -/
def storeAt (m : Mem) (a : BitVec 32) (bs : List UInt8) : Mem := fun x =>
  if x < 2 ^ 32 ∧ (BitVec.ofNat 32 x - a).toNat < bs.length
  then bs.getD (BitVec.ofNat 32 x - a).toNat 0 else m x

@[simp] theorem length_loadAt (m : Mem) (a : BitVec 32) (n : Nat) : (m.loadAt a n).length = n := by
  simp [loadAt]

theorem loadAt_one (m : Mem) (a : BitVec 32) : m.loadAt a 1 = [m a.toNat] := by
  rw [loadAt, List.range_one, List.map_singleton, BitVec.add_zero]

theorem loadAt_append (m : Mem) (a : BitVec 32) (k n : Nat) :
    m.loadAt a k ++ m.loadAt (a + BitVec.ofNat 32 k) n = m.loadAt a (k + n) := by
  simp only [loadAt, List.range_add, List.map_append, List.map_map]
  congr 1
  apply List.map_congr_left
  intro i _
  rw [Function.comp_apply, BitVec.add_assoc, BitVec.ofNat_add_ofNat]

theorem getElem_loadAt (m : Mem) (a : BitVec 32) (n i : Nat) (h : i < (m.loadAt a n).length) :
    (m.loadAt a n)[i] = m (a + BitVec.ofNat 32 i).toNat := by
  simp [loadAt]

theorem loadAt_congr {m m' : Mem} {a b : BitVec 32} {n : Nat}
    (h : ∀ i < n, m (a + BitVec.ofNat 32 i).toNat = m' (b + BitVec.ofNat 32 i).toNat) :
    m.loadAt a n = m'.loadAt b n := by
  apply List.map_congr_left
  intro i hi
  exact h i (List.mem_range.mp hi)

theorem toNat_add_ofNat {a : BitVec 32} {i : Nat} (h : a.toNat + i < 2 ^ 32) :
    (a + BitVec.ofNat 32 i).toNat = a.toNat + i := by
  rw [BitVec.toNat_add, BitVec.toNat_ofNat, Nat.add_mod_mod, Nat.mod_eq_of_lt h]

theorem toNat_sub_one {x : BitVec 32} (h : ¬x = 0) : (x - 1).toNat + 1 = x.toNat := by
  bv_omega

/-- A range that does not run past the last address is read byte by byte. -/
theorem loadAt_eq_readBytes (m : Mem) {a : BitVec 32} {n : Nat} (h : a.toNat + n ≤ 2 ^ 32) :
    m.loadAt a n = m.readBytes a.toNat n := by
  apply List.map_congr_left
  intro i hi
  have hlt := List.mem_range.mp hi
  rw [toNat_add_ofNat (by omega)]

/-- A store that does not run past the last address is a write of its range. -/
theorem storeAt_eq_writeBytes (m : Mem) {a : BitVec 32} {bs : List UInt8} (h : a.toNat + bs.length ≤ 2 ^ 32) :
    m.storeAt a bs = m.writeBytes a.toNat bs := by
  funext x
  have ha := a.isLt
  rcases Nat.lt_or_ge x (2 ^ 32) with hx | hx
  · have hdist : (BitVec.ofNat 32 x - a).toNat = (2 ^ 32 - a.toNat + x) % 2 ^ 32 := by
      rw [BitVec.toNat_sub, BitVec.toNat_ofNat, Nat.mod_eq_of_lt hx]
    rcases Nat.lt_or_ge x a.toNat with hbelow | hfrom
    · have hfar : (BitVec.ofNat 32 x - a).toNat = 2 ^ 32 - a.toNat + x := by
        rw [hdist, Nat.mod_eq_of_lt (by omega)]
      rw [storeAt, writeBytes, if_neg (by omega), if_neg (by omega)]
    · have hnear : (BitVec.ofNat 32 x - a).toNat = x - a.toNat := by
        rw [hdist, show 2 ^ 32 - a.toNat + x = x - a.toNat + 2 ^ 32 by omega, Nat.add_mod_right,
          Nat.mod_eq_of_lt (by omega)]
      rw [storeAt, writeBytes, hnear]
      exact if_congr (by omega) rfl rfl
  · rw [storeAt, writeBytes, if_neg (by omega), if_neg (by omega)]

end Mem

/-- The registers that string instructions use, the direction flag and the memory. -/
structure StringCpu where
  eax : BitVec 32
  ecx : BitVec 32
  edx : BitVec 32
  esi : BitVec 32
  edi : BitVec 32
  df : Bool
  mem : Mem

namespace StringCpu

/-- The low byte of `eax`. -/
def al (c : StringCpu) : UInt8 := UInt8.ofBitVec (c.eax.setWidth 8)

/-- `movb v, %al` -/
def setAl (c : StringCpu) (v : UInt8) : StringCpu :=
  { c with eax := (c.eax &&& 0xFFFFFF00#32) ||| v.toBitVec.setWidth 32 }

/-- What a string instruction on `w` bytes adds to its pointers. -/
def stride (c : StringCpu) (w : Nat) : BitVec 32 :=
  if c.df then -(BitVec.ofNat 32 w) else BitVec.ofNat 32 w

/-- `movsb` for one byte, `movsl` for four. -/
def movs (w : Nat) (c : StringCpu) : StringCpu :=
  { c with
    mem := c.mem.storeAt c.edi (c.mem.loadAt c.esi w)
    esi := c.esi + c.stride w
    edi := c.edi + c.stride w }

/-- The bytes of `eax` from the lowest. -/
def eaxBytes (c : StringCpu) : List UInt8 := Mem.wordBytes c.eax.toNat

/-- `stosl` -/
def stosl (c : StringCpu) : StringCpu :=
  { c with
    mem := c.mem.storeAt c.edi c.eaxBytes
    edi := c.edi + c.stride 4 }

/-- `rep`: the instruction once for each count in `ecx`, which ends at zero. -/
def rep (instr : StringCpu → StringCpu) (c : StringCpu) : StringCpu :=
  (fun c => { instr c with ecx := c.ecx - 1 })^[c.ecx.toNat] c

theorem al_setAl (c : StringCpu) (v : UInt8) : (c.setAl v).al = v := by
  apply UInt8.toBitVec_inj.mp
  rw [al, setAl, UInt8.toBitVec_ofBitVec]
  generalize v.toBitVec = b
  generalize c.eax = w
  ext i hi
  simp

/-- What each repetition carries on holds after the last one. -/
theorem rep_invariant (instr : StringCpu → StringCpu) (Inv : Nat → StringCpu → Prop) (c : StringCpu)
    (hstart : Inv 0 c)
    (hstep : ∀ k c', k < c.ecx.toNat → Inv k c' → Inv (k + 1) { instr c' with ecx := c'.ecx - 1 }) :
    Inv c.ecx.toNat (rep instr c) := by
  have hall : ∀ k ≤ c.ecx.toNat, Inv k ((fun c => { instr c with ecx := c.ecx - 1 })^[k] c) := by
    intro k
    induction k with
    | zero => exact fun _ => hstart
    | succ k ih =>
        intro hk
        rw [Function.iterate_succ_apply']
        exact hstep k _ hk (ih (Nat.le_of_succ_le hk))
  exact hall _ le_rfl

end StringCpu

end UnixOs
