import UnixOs.X86String

/-! The block primitives of `lib.c`, one function for each label of their assembly: `memcpy` and `memset`
with their byte, double-word and tail phases, and `memmove` with its two directions. The loads of `es`
are left out, since all data segments are the same flat one. -/

namespace UnixOs

open StringCpu

/-- `movb (%esi), %al; movb %al, (%edi); addl $1, %edi; addl $1, %esi` -/
def copyByte (c : StringCpu) : StringCpu :=
  let c := c.setAl (c.mem c.esi.toNat)
  { c with mem := c.mem.storeAt c.edi [c.al], edi := c.edi + 1, esi := c.esi + 1 }

def memcpyBottom (c : StringCpu) : StringCpu :=
  if c.edx = 0 then c else memcpyBottom { copyByte c with edx := c.edx - 1 }
termination_by c.edx.toNat
decreasing_by exact Nat.lt_of_succ_le (Mem.toNat_sub_one (by assumption)).le

def memcpyAligned (c : StringCpu) : StringCpu :=
  let c := { c with edx := c.ecx }
  let c := { c with ecx := c.ecx >>> 2, edx := c.edx &&& 3, df := false }
  memcpyBottom (rep (movs 4) c)

def memcpyTop (c : StringCpu) : StringCpu :=
  if c.ecx = 0 then c
  else if c.edi &&& 3 = 0 then memcpyAligned c
  else memcpyTop { copyByte c with ecx := c.ecx - 1 }
termination_by c.ecx.toNat
decreasing_by exact Nat.lt_of_succ_le (Mem.toNat_sub_one (by assumption)).le

/-- `memcpy(dest, src, n)` from any contents of the other registers. -/
def memcpy (c : StringCpu) (dest src n : BitVec 32) : StringCpu :=
  memcpyTop { c with esi := src, edi := dest, ecx := n }

/-- `movb %al, (%edi); addl $1, %edi` -/
def setByte (c : StringCpu) : StringCpu :=
  { c with mem := c.mem.storeAt c.edi [c.al], edi := c.edi + 1 }

def memsetBottom (c : StringCpu) : StringCpu :=
  if c.edx = 0 then c else memsetBottom { setByte c with edx := c.edx - 1 }
termination_by c.edx.toNat
decreasing_by exact Nat.lt_of_succ_le (Mem.toNat_sub_one (by assumption)).le

def memsetAligned (c : StringCpu) : StringCpu :=
  let c := { c with edx := c.ecx }
  let c := { c with ecx := c.ecx >>> 2, edx := c.edx &&& 3, df := false }
  memsetBottom (rep stosl c)

def memsetTop (c : StringCpu) : StringCpu :=
  if c.ecx = 0 then c
  else if c.edi &&& 3 = 0 then memsetAligned c
  else memsetTop { setByte c with ecx := c.ecx - 1 }
termination_by c.ecx.toNat
decreasing_by exact Nat.lt_of_succ_le (Mem.toNat_sub_one (by assumption)).le

/-- The value `memset` loads into `eax`, after `c &= 0xFF`. -/
def fillWord (v : BitVec 32) : BitVec 32 :=
  let v := v &&& 0xFF
  v <<< 24 ||| v <<< 16 ||| v <<< 8 ||| v

/-- `memset(s, v, n)` from any contents of the other registers. -/
def memset (c : StringCpu) (s v n : BitVec 32) : StringCpu :=
  memsetTop { c with eax := fillWord v, edi := s, ecx := n }

/-- `memmove(dest, src, n)` from any contents of the other registers; when it copies downwards it leaves
the direction flag set. -/
def memmove (c : StringCpu) (dest src n : BitVec 32) : StringCpu :=
  let c := { c with edi := dest, esi := src, ecx := n, df := false }
  let c := if c.esi ≥ c.edi then c
    else { c with esi := c.esi + c.ecx - 1, edi := c.edi + c.ecx - 1, df := true }
  rep (movs 1) c

/-! ### The three phases -/

theorem toNat_shift_two (x : BitVec 32) : (x >>> 2).toNat = x.toNat / 4 := by
  rw [BitVec.toNat_ushiftRight, Nat.shiftRight_eq_div_pow]

theorem toNat_and_three (x : BitVec 32) : (x &&& 3).toNat = x.toNat % 4 := by
  rw [BitVec.toNat_and]
  exact Nat.and_two_pow_sub_one_eq_mod x.toNat 2

/-- `Inv k` says that `k` of the `n` bytes are done, whatever the counters hold; `one` does the next byte
and `four` the next double word. -/
structure Advances (n : Nat) (one four : StringCpu → StringCpu) (Inv : Nat → StringCpu → Prop) : Prop where
  counters : ∀ {k : Nat} {c : StringCpu} (ecx edx : BitVec 32) (df : Bool), Inv k c →
    Inv k { c with ecx := ecx, edx := edx, df := df }
  byte : ∀ {k : Nat} {c : StringCpu}, Inv k c → k + 1 ≤ n → Inv (k + 1) (one c)
  word : ∀ {k : Nat} {c : StringCpu}, Inv k c → c.df = false → k + 4 ≤ n → Inv (k + 4) (four c)
  frame : ∀ c : StringCpu, (four c).df = c.df ∧ (four c).edx = c.edx

section Phases

variable {n k : Nat} {one four bottom top : StringCpu → StringCpu} {Inv : Nat → StringCpu → Prop} {c : StringCpu}

theorem Advances.tailPhase (h : Advances n one four Inv)
    (hbottom : ∀ c, bottom c = if c.edx = 0 then c else bottom { one c with edx := c.edx - 1 })
    (hinv : Inv k c) (hleft : k + c.edx.toNat = n) : Inv n (bottom c) := by
  induction hedx : c.edx.toNat generalizing k c with
  | zero =>
      rw [hbottom, if_pos (BitVec.eq_of_toNat_eq hedx)]
      have hk : k = n := by omega
      exact hk ▸ hinv
  | succ left ih =>
      have hne : ¬c.edx = 0 := fun h0 => by rw [h0] at hedx; exact absurd hedx (by simp)
      have hpred := Mem.toNat_sub_one hne
      rw [hbottom, if_neg hne]
      have hnext : Inv (k + 1) { one c with edx := c.edx - 1 } := h.counters _ _ _ (h.byte hinv (by omega))
      exact ih hnext (by simp only; omega) (by simp only; omega)

theorem Advances.wordPhase (h : Advances n one four Inv)
    (hbottom : ∀ c, bottom c = if c.edx = 0 then c else bottom { one c with edx := c.edx - 1 })
    (hinv : Inv k c) (hleft : k + c.ecx.toNat = n) :
    Inv n (bottom (rep four { c with ecx := c.ecx >>> 2, edx := c.ecx &&& 3, df := false })) := by
  have hrep := rep_invariant four
    (fun j c' => Inv (k + 4 * j) c' ∧ c'.df = false ∧ c'.edx = c.ecx &&& 3)
    { c with ecx := c.ecx >>> 2, edx := c.ecx &&& 3, df := false }
    ⟨h.counters _ _ _ hinv, rfl, rfl⟩ (fun j c' hj ⟨hdone, hup, hedx⟩ => by
      simp only [toNat_shift_two] at hj
      have hnext := h.word hdone hup (by omega)
      exact ⟨h.counters _ _ _ hnext, (h.frame c').1.trans hup, (h.frame c').2.trans hedx⟩)
  obtain ⟨hdone, -, hedx⟩ := hrep
  refine h.tailPhase hbottom hdone ?_
  rw [hedx, toNat_and_three]
  simp only [toNat_shift_two]
  omega

theorem Advances.bytePhase (h : Advances n one four Inv)
    (hbottom : ∀ c, bottom c = if c.edx = 0 then c else bottom { one c with edx := c.edx - 1 })
    (htop : ∀ c, top c = if c.ecx = 0 then c
      else if c.edi &&& 3 = 0 then
        bottom (rep four { c with ecx := c.ecx >>> 2, edx := c.ecx &&& 3, df := false })
      else top { one c with ecx := c.ecx - 1 })
    (hinv : Inv k c) (hleft : k + c.ecx.toNat = n) : Inv n (top c) := by
  induction hecx : c.ecx.toNat generalizing k c with
  | zero =>
      rw [htop, if_pos (BitVec.eq_of_toNat_eq hecx)]
      have hk : k = n := by omega
      exact hk ▸ hinv
  | succ left ih =>
      have hne : ¬c.ecx = 0 := fun h0 => by rw [h0] at hecx; exact absurd hecx (by simp)
      have hpred := Mem.toNat_sub_one hne
      rw [htop, if_neg hne]
      by_cases haligned : c.edi &&& 3 = 0
      · rw [if_pos haligned]
        exact h.wordPhase hbottom hinv hleft
      · rw [if_neg haligned]
        have hnext : Inv (k + 1) { one c with ecx := c.ecx - 1 } := h.counters _ _ _ (h.byte hinv (by omega))
        exact ih hnext (by simp only; omega) (by simp only; omega)

end Phases

section Copy

variable {m : Mem} {dest src : BitVec 32} {n k w : Nat} {c : StringCpu}

/-- `k` bytes have been copied, and both pointers stand behind them. -/
structure Copied (m : Mem) (dest src : BitVec 32) (k : Nat) (c : StringCpu) : Prop where
  esi : c.esi = src + BitVec.ofNat 32 k
  edi : c.edi = dest + BitVec.ofNat 32 k
  mem : c.mem = m.writeBytes dest.toNat (m.loadAt src k)

/-- The destination is a range of memory, and a copy upwards reads each source byte before it writes over
it. -/
structure Ahead (dest src : BitVec 32) (n : Nat) : Prop where
  fits : dest.toNat + n ≤ 2 ^ 32
  unread : ∀ i < n, (src + BitVec.ofNat 32 i).toNat < dest.toNat ∨
    dest.toNat + i ≤ (src + BitVec.ofNat 32 i).toNat

/-- The next `w` bytes of the source are still the original ones, and storing them extends the copy. -/
theorem Copied.next (h : Copied m dest src k c) (hahead : Ahead dest src n) (hw : 0 < w) (hk : k + w ≤ n) :
    c.mem.storeAt c.edi (c.mem.loadAt c.esi w) = m.writeBytes dest.toNat (m.loadAt src (k + w)) := by
  have hfits := hahead.fits
  have hload : c.mem.loadAt c.esi w = m.loadAt (src + BitVec.ofNat 32 k) w := by
    rw [h.esi, h.mem]
    apply Mem.loadAt_congr
    intro i hi
    have hsource := hahead.unread (k + i) (by omega)
    rw [BitVec.add_assoc, BitVec.ofNat_add_ofNat]
    apply Mem.writeBytes_of_outside
    rw [Mem.length_loadAt]
    omega
  have hedi : c.edi.toNat = dest.toNat + k := by rw [h.edi, Mem.toNat_add_ofNat (by omega)]
  rw [hload, Mem.storeAt_eq_writeBytes _ (by rw [Mem.length_loadAt]; omega), hedi, h.mem,
    ← Mem.loadAt_append m src k w, ← Mem.writeBytes_append, Mem.length_loadAt]

theorem Copied.copyByte (h : Copied m dest src k c) (hahead : Ahead dest src n) (hk : k + 1 ≤ n) :
    Copied m dest src (k + 1) (UnixOs.copyByte c) := by
  refine ⟨?_, ?_, ?_⟩
  · change c.esi + 1 = _
    rw [h.esi, BitVec.add_assoc]
    exact congrArg (src + ·) (BitVec.ofNat_add_ofNat k 1)
  · change c.edi + 1 = _
    rw [h.edi, BitVec.add_assoc]
    exact congrArg (dest + ·) (BitVec.ofNat_add_ofNat k 1)
  · rw [← h.next hahead Nat.one_pos hk]
    change c.mem.storeAt c.edi [(c.setAl (c.mem c.esi.toNat)).al] = _
    rw [al_setAl, Mem.loadAt_one]

theorem Copied.movs (h : Copied m dest src k c) (hahead : Ahead dest src n) (hup : c.df = false) (hw : 0 < w)
    (hk : k + w ≤ n) : Copied m dest src (k + w) (StringCpu.movs w c) := by
  have hstride : c.stride w = BitVec.ofNat 32 w := by rw [stride, hup]; rfl
  refine ⟨?_, ?_, h.next hahead hw hk⟩
  · change c.esi + c.stride w = _
    rw [hstride, h.esi, BitVec.add_assoc, BitVec.ofNat_add_ofNat]
  · change c.edi + c.stride w = _
    rw [hstride, h.edi, BitVec.add_assoc, BitVec.ofNat_add_ofNat]

theorem Copied.advances (hahead : Ahead dest src n) :
    Advances n UnixOs.copyByte (StringCpu.movs 4) (Copied m dest src) where
  counters _ _ _ h := ⟨h.esi, h.edi, h.mem⟩
  byte h hk := h.copyByte hahead hk
  word h hup hk := h.movs hahead hup (by decide) hk
  frame _ := ⟨rfl, rfl⟩

end Copy

theorem mem_memcpy (c : StringCpu) {dest src n : BitVec 32} (hahead : Ahead dest src n.toNat) :
    (memcpy c dest src n).mem = c.mem.writeBytes dest.toNat (c.mem.loadAt src n.toNat) := by
  have hstart : Copied c.mem dest src 0 { c with esi := src, edi := dest, ecx := n } :=
    ⟨by simp, by simp, by simp [Mem.loadAt]⟩
  have hdone := (Copied.advances hahead).bytePhase memcpyBottom.eq_1 memcpyTop.eq_1 hstart (Nat.zero_add _)
  exact hdone.mem

/-- On two ranges of memory that do not meet, `memcpy` is the copy of the source range. -/
theorem memcpy_eq_copyFrom (c : StringCpu) {dest src n : BitVec 32} (hahead : Ahead dest src n.toNat)
    (hsrc : src.toNat + n.toNat ≤ 2 ^ 32) :
    (memcpy c dest src n).mem = c.mem.copyFrom dest.toNat c.mem src.toNat n.toNat := by
  rw [mem_memcpy c hahead, Mem.loadAt_eq_readBytes _ hsrc, Mem.copyFrom]

section Fill

variable {m : Mem} {s word : BitVec 32} {b : UInt8} {n k : Nat} {c : StringCpu}

/-- `k` bytes have been set, and the pointer stands behind them; `eax` holds the byte four times. -/
structure Filled (m : Mem) (s word : BitVec 32) (b : UInt8) (k : Nat) (c : StringCpu) : Prop where
  eax : c.eax = word
  edi : c.edi = s + BitVec.ofNat 32 k
  mem : c.mem = m.writeBytes s.toNat (List.replicate k b)

/-- A word whose four bytes are all `b`. -/
def Repeats (word : BitVec 32) (b : UInt8) : Prop := Mem.wordBytes word.toNat = List.replicate 4 b

theorem Repeats.low (h : Repeats word b) : UInt8.ofBitVec (word.setWidth 8) = b := by
  have hhead : (Mem.wordBytes word.toNat).head? = some b := by rw [h]; rfl
  have hlow : UInt8.ofNat word.toNat = b := by simpa [Mem.wordBytes] using hhead
  rw [← hlow]
  apply UInt8.toBitVec_inj.mp
  apply BitVec.eq_of_toNat_eq
  simp

theorem Filled.next (h : Filled m s word b k c) (bs : List UInt8) (hbs : bs = List.replicate bs.length b)
    (hpos : 0 < bs.length) (hk : k + bs.length ≤ n) (hfits : s.toNat + n ≤ 2 ^ 32) :
    c.mem.storeAt c.edi bs = m.writeBytes s.toNat (List.replicate (k + bs.length) b) := by
  have hedi : c.edi.toNat = s.toNat + k := by rw [h.edi, Mem.toNat_add_ofNat (by omega)]
  rw [Mem.storeAt_eq_writeBytes _ (by omega), hedi, h.mem, List.replicate_add, ← hbs,
    ← Mem.writeBytes_append, List.length_replicate]

theorem Filled.setByte (h : Filled m s word b k c) (hword : Repeats word b) (hk : k + 1 ≤ n)
    (hfits : s.toNat + n ≤ 2 ^ 32) : Filled m s word b (k + 1) (UnixOs.setByte c) := by
  have hal : c.al = b := by rw [al, h.eax, hword.low]
  refine ⟨h.eax, ?_, ?_⟩
  · change c.edi + 1 = _
    rw [h.edi, BitVec.add_assoc]
    exact congrArg (s + ·) (BitVec.ofNat_add_ofNat k 1)
  · exact h.next [c.al] (by rw [hal]; rfl) Nat.one_pos hk hfits

theorem Filled.stosl (h : Filled m s word b k c) (hword : Repeats word b) (hup : c.df = false) (hk : k + 4 ≤ n)
    (hfits : s.toNat + n ≤ 2 ^ 32) : Filled m s word b (k + 4) (StringCpu.stosl c) := by
  have hstride : c.stride 4 = BitVec.ofNat 32 4 := by rw [stride, hup]; rfl
  have hbytes : c.eaxBytes = List.replicate 4 b := by rw [eaxBytes, h.eax, hword]
  refine ⟨h.eax, ?_, ?_⟩
  · change c.edi + c.stride 4 = _
    rw [hstride, h.edi, BitVec.add_assoc, BitVec.ofNat_add_ofNat]
  · exact h.next c.eaxBytes (by rw [hbytes]; rfl) (Nat.succ_pos 3) hk hfits

theorem Filled.advances (hword : Repeats word b) (hfits : s.toNat + n ≤ 2 ^ 32) :
    Advances n UnixOs.setByte StringCpu.stosl (Filled m s word b) where
  counters _ _ _ h := ⟨h.eax, h.edi, h.mem⟩
  byte h hk := h.setByte hword hk hfits
  word h hup hk := h.stosl hword hup hk hfits
  frame _ := ⟨rfl, rfl⟩

end Fill

theorem repeats_fillWord (v : BitVec 32) : Repeats (fillWord v) (UInt8.ofBitVec (v.setWidth 8)) := by
  have hbytes : ∀ b : BitVec 8, Repeats (fillWord (b.setWidth 32)) (UInt8.ofBitVec b) := by
    unfold Repeats
    decide +kernel
  have hmask : fillWord v = fillWord ((v.setWidth 8).setWidth 32) := by
    have hlow : v &&& 0xFF = ((v.setWidth 8).setWidth 32) &&& 0xFF := by
      apply BitVec.eq_of_toNat_eq
      rw [BitVec.toNat_and, BitVec.toNat_and, BitVec.toNat_setWidth, BitVec.toNat_setWidth]
      have hand : ∀ x : Nat, x &&& 255 = x % 2 ^ 8 := fun x => Nat.and_two_pow_sub_one_eq_mod x 8
      change v.toNat &&& 255 = _ &&& 255
      rw [hand, hand]
      omega
    rw [fillWord, fillWord, hlow]
  rw [hmask]
  exact hbytes (v.setWidth 8)

theorem mem_memset (c : StringCpu) (s v n : BitVec 32) (hfits : s.toNat + n.toNat ≤ 2 ^ 32) :
    (memset c s v n).mem =
      c.mem.writeBytes s.toNat (List.replicate n.toNat (UInt8.ofBitVec (v.setWidth 8))) := by
  have hstart : Filled c.mem s (fillWord v) (UInt8.ofBitVec (v.setWidth 8)) 0
      { c with eax := fillWord v, edi := s, ecx := n } := ⟨rfl, by simp, by simp⟩
  have hdone := (Filled.advances (repeats_fillWord v) hfits).bytePhase memsetBottom.eq_1 memsetTop.eq_1
    hstart (Nat.zero_add _)
  exact hdone.mem

/-! ### Moving -/

/-- The last `k` of `n` bytes have been copied, and both pointers stand below them. -/
structure CopiedDown (m : Mem) (dest src n : BitVec 32) (k : Nat) (c : StringCpu) : Prop where
  df : c.df = true
  esi : c.esi = src + n - 1 - BitVec.ofNat 32 k
  edi : c.edi = dest + n - 1 - BitVec.ofNat 32 k
  mem : c.mem = m.writeBytes (dest.toNat + (n.toNat - k)) (m.readBytes (src.toNat + (n.toNat - k)) k)

theorem toNat_from_end {a n : BitVec 32} {k : Nat} (hfits : a.toNat + n.toNat ≤ 2 ^ 32) (hk : k < n.toNat) :
    (a + n - 1 - BitVec.ofNat 32 k).toNat = a.toNat + (n.toNat - (k + 1)) := by
  bv_omega

theorem CopiedDown.movs {m : Mem} {dest src n : BitVec 32} {k : Nat} {c : StringCpu}
    (h : CopiedDown m dest src n k c) (hdest : dest.toNat + n.toNat ≤ 2 ^ 32)
    (hsrc : src.toNat + n.toNat ≤ 2 ^ 32) (hlt : src.toNat < dest.toNat) (hk : k < n.toNat) :
    CopiedDown m dest src n (k + 1) { StringCpu.movs 1 c with ecx := c.ecx - 1 } := by
  have hstride : c.stride 1 = -(1 : BitVec 32) := by rw [stride, h.df]; rfl
  have hedi : c.edi.toNat = dest.toNat + (n.toNat - (k + 1)) := by rw [h.edi, toNat_from_end hdest hk]
  have hesi : c.esi.toNat = src.toNat + (n.toNat - (k + 1)) := by rw [h.esi, toNat_from_end hsrc hk]
  have hback : ∀ a : BitVec 32, a - BitVec.ofNat 32 k + -1 = a - BitVec.ofNat 32 (k + 1) := by
    intro a
    bv_omega
  refine ⟨h.df, ?_, ?_, ?_⟩
  · change c.esi + c.stride 1 = _
    rw [hstride, h.esi, hback]
  · change c.edi + c.stride 1 = _
    rw [hstride, h.edi, hback]
  · change c.mem.storeAt c.edi (c.mem.loadAt c.esi 1) = _
    have hread : c.mem c.esi.toNat = m (src.toNat + (n.toNat - (k + 1))) := by
      rw [hesi, h.mem]
      exact Mem.writeBytes_of_outside (by omega)
    have hsplit : m.readBytes (src.toNat + (n.toNat - (k + 1))) (k + 1) =
        m (src.toNat + (n.toNat - (k + 1))) :: m.readBytes (src.toNat + (n.toNat - k)) k := by
      rw [Mem.readBytes_succ]
      congr 2
      omega
    have habove : dest.toNat + (n.toNat - k) = dest.toNat + (n.toNat - (k + 1)) + 1 := by omega
    rw [Mem.loadAt_one, hread, Mem.storeAt_eq_writeBytes _ (by rw [hedi]; simp; omega), hedi, h.mem, hsplit,
      habove]
    exact Mem.writeBytes_below m _ [m (src.toNat + (n.toNat - (k + 1)))] _

theorem mem_memmove (c : StringCpu) {dest src n : BitVec 32} (hdest : dest.toNat + n.toNat ≤ 2 ^ 32)
    (hsrc : src.toNat + n.toNat ≤ 2 ^ 32) :
    (memmove c dest src n).mem = c.mem.writeBytes dest.toNat (c.mem.readBytes src.toNat n.toNat) := by
  by_cases hup : src ≥ dest
  · have hahead : Ahead dest src n.toNat := by
      refine ⟨hdest, fun i hi => .inr ?_⟩
      rw [Mem.toNat_add_ofNat (by omega)]
      exact Nat.add_le_add_right hup i
    have hrep := rep_invariant (StringCpu.movs 1)
      (fun k c' => Copied c.mem dest src k c' ∧ c'.df = false)
      { c with edi := dest, esi := src, ecx := n, df := false }
      ⟨⟨by simp, by simp, by simp [Mem.loadAt]⟩, rfl⟩ (fun k c' hk ⟨hcopied, hdf⟩ =>
        ⟨(Copied.advances hahead).counters _ _ _ (hcopied.movs hahead hdf Nat.one_pos hk), hdf⟩)
    rw [memmove, if_pos hup, ← Mem.loadAt_eq_readBytes _ hsrc]
    exact hrep.1.mem
  · have hlt : src.toNat < dest.toNat := Nat.lt_of_not_le hup
    have hrep := rep_invariant (StringCpu.movs 1) (CopiedDown c.mem dest src n)
      { c with edi := dest + n - 1, esi := src + n - 1, ecx := n, df := true }
      ⟨rfl, by simp, by simp, by simp [Mem.readBytes]⟩
      (fun k c' hk hcopied => hcopied.movs hdest hsrc hlt hk)
    rw [memmove, if_neg hup]
    have hmem := hrep.mem
    simp only [Nat.sub_self, Nat.add_zero] at hmem
    exact hmem

/-- Both aligned primitives equal their byte-wise definitions, whatever the alignment and the length. -/
theorem block_primitives_bytewise (c : StringCpu) :
    (∀ dest src n : BitVec 32, dest.toNat + n.toNat ≤ 2 ^ 32 →
      (∀ i < n.toNat, ∀ j < n.toNat, dest.toNat + i ≠ (src + BitVec.ofNat 32 j).toNat) →
      (∀ i < n.toNat, (memcpy c dest src n).mem (dest.toNat + i) = c.mem (src + BitVec.ofNat 32 i).toNat) ∧
      ∀ a, (a < dest.toNat ∨ dest.toNat + n.toNat ≤ a) → (memcpy c dest src n).mem a = c.mem a) ∧
    ∀ s v n : BitVec 32, s.toNat + n.toNat ≤ 2 ^ 32 →
      (∀ i < n.toNat, (memset c s v n).mem (s.toNat + i) = UInt8.ofNat (v.toNat % 256)) ∧
      ∀ a, (a < s.toNat ∨ s.toNat + n.toNat ≤ a) → (memset c s v n).mem a = c.mem a := by
  refine ⟨fun dest src n hfits hapart => ?_, fun s v n hfits => ?_⟩
  · have hahead : Ahead dest src n.toNat := by
      refine ⟨hfits, fun j hj => ?_⟩
      by_contra hinside
      refine hapart ((src + BitVec.ofNat 32 j).toNat - dest.toNat) (by omega) j hj (by omega)
    rw [mem_memcpy c hahead]
    refine ⟨fun i hi => ?_, fun a ha => ?_⟩
    · rw [Mem.writeBytes_add (by rw [Mem.length_loadAt]; exact hi), Mem.getElem_loadAt]
    · exact Mem.writeBytes_of_outside (by rw [Mem.length_loadAt]; exact ha)
  · rw [mem_memset c s v n hfits]
    refine ⟨fun i hi => ?_, fun a ha => ?_⟩
    · rw [Mem.writeBytes_add (by rw [List.length_replicate]; exact hi), List.getElem_replicate]
      apply UInt8.toNat_inj.mp
      simp
    · exact Mem.writeBytes_of_outside (by rw [List.length_replicate]; exact ha)

/-- A processor on a memory whose bytes are the low bytes of their addresses. -/
def addressCpu : StringCpu where
  eax := 0
  ecx := 0
  edx := 0
  esi := 0
  edi := 0
  df := true
  mem := fun a => UInt8.ofNat a

/-- Seven bytes to an odd address, and a fill that ends at the last address. -/
theorem block_primitives_bytewise_odd :
    (memcpy addressCpu 0x1001#32 0x2002#32 7#32).mem 0x1004 = 5 ∧
      (memset addressCpu 0xFFFFFFFD#32 0x141#32 3#32).mem 0xFFFFFFFF = 0x41 := by
  obtain ⟨hcpy, hset⟩ := block_primitives_bytewise addressCpu
  have hdisjoint : ∀ i < (7#32).toNat, ∀ j < (7#32).toNat,
      (0x1001#32).toNat + i ≠ (0x2002#32 + BitVec.ofNat 32 j).toNat := by decide
  refine ⟨?_, ?_⟩
  · exact (hcpy 0x1001#32 0x2002#32 7#32 (by decide) hdisjoint).1 3 (by decide)
  · exact (hset 0xFFFFFFFD#32 0x141#32 3#32 (by decide)).1 2 (by decide)

/-- However the two ranges overlap, the destination ends with the original source bytes. -/
theorem memmove_overlap (c : StringCpu) (dest src n : BitVec 32) (hdest : dest.toNat + n.toNat ≤ 2 ^ 32)
    (hsrc : src.toNat + n.toNat ≤ 2 ^ 32) :
    (∀ i < n.toNat, (memmove c dest src n).mem (dest.toNat + i) = c.mem (src.toNat + i)) ∧
    ∀ a, (a < dest.toNat ∨ dest.toNat + n.toNat ≤ a) → (memmove c dest src n).mem a = c.mem a := by
  rw [mem_memmove c hdest hsrc]
  refine ⟨fun i hi => ?_, fun a ha => ?_⟩
  · exact Mem.writeBytes_readBytes_add _ _ _ _ hi
  · exact Mem.writeBytes_of_outside (by rw [Mem.length_readBytes]; exact ha)

/-- The destination two bytes above the source. -/
theorem memmove_overlap_above :
    (memmove addressCpu 0x1002#32 0x1000#32 6#32).mem 0x1005 = 3 ∧
      (memmove addressCpu 0x1002#32 0x1000#32 6#32).mem 0x1001 = 1 := by
  obtain ⟨hinside, houtside⟩ := memmove_overlap addressCpu 0x1002#32 0x1000#32 6#32 (by decide) (by decide)
  exact ⟨hinside 3 (by decide), houtside 0x1001 (by decide)⟩

end UnixOs
