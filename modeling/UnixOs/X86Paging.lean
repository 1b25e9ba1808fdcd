import UnixOs.ByteMemory

/-! Two-level paging with 4 MB pages, as the processor walks the tables in physical memory. The write
protection of supervisor accesses is off. The processor marks the entries that it uses as accessed and dirty, which
changes no translation. -/

namespace UnixOs

/-- Who makes an access, and what for. -/
structure Access where
  user : Bool
  write : Bool
  deriving DecidableEq

namespace Access

/-- An access of the kernel, where writes need no more than reads. -/
def kernel : Access := ⟨false, true⟩

def userWrite : Access := ⟨true, true⟩

end Access

/-- An entry of either level allows an access: it is present, and a user access needs the user bit and, to write,
the write bit. -/
def entryAllows (entry : Nat) (acc : Access) : Bool :=
  entry.testBit 0 && (!acc.user || (entry.testBit 2 && (!acc.write || entry.testBit 1)))

/-- The physical address of a virtual address. -/
def pageWalk (m : Mem) (cr3 : Nat) (acc : Access) (a : Nat) : Option Nat :=
  let pde := m.load32 (cr3 / 2 ^ 12 * 2 ^ 12 + 4 * (a / 2 ^ 22))
  if entryAllows pde acc then
    if pde.testBit 7 then some (pde / 2 ^ 22 * 2 ^ 22 + a % 2 ^ 22)
    else
      let pte := m.load32 (pde / 2 ^ 12 * 2 ^ 12 + 4 * (a / 2 ^ 12 % 2 ^ 10))
      if entryAllows pte acc then some (pte / 2 ^ 12 * 2 ^ 12 + a % 2 ^ 12) else none
  else none

/-- An entry as the processor may leave it: when it is present, its accessed bit may be set, and its dirty bit with
it. -/
def Marked (v e : Nat) : Prop := e = v ∨ (v.testBit 0 = true ∧ (e = v ||| 0x20 ∨ e = v ||| 0x60))

/-- Bytes read one after the other through the tables. -/
def walkRead (m : Mem) (cr3 : Nat) (acc : Access) (a : Nat) : Nat → Option (List UInt8)
  | 0 => some []
  | n + 1 => do
      let p ← pageWalk m cr3 acc a
      let rest ← walkRead m cr3 acc (a + 1) n
      return m p :: rest

/-- Bytes written one after the other through the tables as they are by then. -/
def walkWrite (m : Mem) (cr3 : Nat) (acc : Access) (a : Nat) : List UInt8 → Option Mem
  | [] => some m
  | b :: bs => do
      let p ← pageWalk m cr3 acc a
      walkWrite (m.writeBytes p [b]) cr3 acc (a + 1) bs

theorem Mem.writeBytes_comm (m : Mem) {a b : Nat} {bs cs : List UInt8} (h : a + bs.length ≤ b ∨ b + cs.length ≤ a) :
    (m.writeBytes a bs).writeBytes b cs = (m.writeBytes b cs).writeBytes a bs := by
  funext x
  by_cases hx : a ≤ x ∧ x < a + bs.length
  · rw [writeBytes_of_outside (by omega), writeBytes, if_pos hx, writeBytes, if_pos hx]
  · rw [writeBytes, writeBytes_of_outside (m := m.writeBytes b cs) (by omega),
      writeBytes_of_outside (m := m) (by omega),
      writeBytes]

theorem Mem.store32_store32 (m : Mem) (a v w : Nat) : (m.store32 a v).store32 a w = m.store32 a w := by
  have hlength : (wordBytes w).length = (wordBytes v).length := rfl
  have hover := m.writeBytes_overwrite a [] hlength
  rwa [List.append_nil, List.append_nil] at hover

section Marks

variable {v e : Nat}

theorem Marked.refl (v : Nat) : Marked v v := .inl rfl

theorem Marked.flag (h : Marked v e) {i : Nat} (hi : i ∈ [0, 1, 2, 7]) : e.testBit i = v.testBit i := by
  have hclear : ∀ i ∈ [0, 1, 2, 7], (0x20).testBit i = false ∧ (0x60).testBit i = false := by decide
  obtain ⟨hacc, hdirty⟩ := hclear i hi
  rcases h with rfl | ⟨-, rfl | rfl⟩
  · rfl
  · rw [Nat.testBit_or, hacc, Bool.or_false]
  · rw [Nat.testBit_or, hdirty, Bool.or_false]

theorem Marked.base (h : Marked v e) {n : Nat} (hn : n ∈ [12, 22]) : e / 2 ^ n = v / 2 ^ n := by
  have hclear : ∀ n ∈ [12, 22], 0x20 >>> n = 0 ∧ 0x60 >>> n = 0 := by decide
  obtain ⟨hacc, hdirty⟩ := hclear n hn
  rw [← Nat.shiftRight_eq_div_pow, ← Nat.shiftRight_eq_div_pow]
  rcases h with rfl | ⟨-, rfl | rfl⟩
  · rfl
  · rw [Nat.shiftRight_or_distrib, hacc, Nat.or_zero]
  · rw [Nat.shiftRight_or_distrib, hdirty, Nat.or_zero]

theorem Marked.entryAllows_eq (h : Marked v e) (acc : Access) : entryAllows e acc = entryAllows v acc := by
  rw [entryAllows, entryAllows, h.flag (by decide), h.flag (by decide), h.flag (by decide)]

theorem Marked.mark (h : Marked v e) (hpresent : e.testBit 0 = true) {bits : Nat} (hbits : bits ∈ [0x20, 0x60]) :
    Marked v (e ||| bits) := by
  rw [h.flag (by decide)] at hpresent
  refine .inr ⟨hpresent, ?_⟩
  have hor : ∀ bits ∈ [0x20, 0x60], (0x20 ||| bits = 0x20 ∨ 0x20 ||| bits = 0x60) ∧ 0x60 ||| bits = 0x60 := by decide
  obtain ⟨hacc, hdirty⟩ := hor bits hbits
  rcases h with rfl | ⟨-, rfl | rfl⟩
  · have hbits' : bits = 0x20 ∨ bits = 0x60 := by simpa using hbits
    exact hbits'.imp (congrArg (e ||| ·)) (congrArg (e ||| ·))
  · rw [Nat.or_assoc]
    exact hacc.imp (congrArg (v ||| ·)) (congrArg (v ||| ·))
  · rw [Nat.or_assoc, hdirty]
    exact .inr rfl

theorem pageWalk_marked {m m' : Mem} {cr3 a pde pde' : Nat} {acc : Access}
    (hm : m.load32 (cr3 / 2 ^ 12 * 2 ^ 12 + 4 * (a / 2 ^ 22)) = pde)
    (hm' : m'.load32 (cr3 / 2 ^ 12 * 2 ^ 12 + 4 * (a / 2 ^ 22)) = pde') (hpde : Marked pde pde')
    (hpte : entryAllows pde acc = true → pde.testBit 7 = false →
      Marked (m.load32 (pde / 2 ^ 12 * 2 ^ 12 + 4 * (a / 2 ^ 12 % 2 ^ 10)))
        (m'.load32 (pde / 2 ^ 12 * 2 ^ 12 + 4 * (a / 2 ^ 12 % 2 ^ 10)))) :
    pageWalk m' cr3 acc a = pageWalk m cr3 acc a := by
  rw [pageWalk, pageWalk, hm, hm']
  dsimp only
  rw [hpde.entryAllows_eq, hpde.flag (by decide), hpde.base (n := 22) (by decide), hpde.base (n := 12) (by decide)]
  cases hallows : entryAllows pde acc with
  | false => rw [if_neg Bool.false_ne_true, if_neg Bool.false_ne_true]
  | true =>
      cases hlarge : pde.testBit 7 with
      | true => simp only [if_true]
      | false =>
          have hmarked := hpte hallows hlarge
          rw [hmarked.entryAllows_eq, hmarked.base (by decide)]

end Marks

section Walk

variable {m : Mem} {cr3 a pde pte : Nat} {acc : Access}

theorem pageWalk_refused (hpde : m.load32 (cr3 / 2 ^ 12 * 2 ^ 12 + 4 * (a / 2 ^ 22)) = pde)
    (hrefused : entryAllows pde acc = false) : pageWalk m cr3 acc a = none := by
  rw [pageWalk, hpde]
  exact if_neg (by rw [hrefused]; exact Bool.false_ne_true)

theorem pageWalk_large (hpde : m.load32 (cr3 / 2 ^ 12 * 2 ^ 12 + 4 * (a / 2 ^ 22)) = pde)
    (hlarge : pde.testBit 7 = true) :
    pageWalk m cr3 acc a = if entryAllows pde acc then some (pde / 2 ^ 22 * 2 ^ 22 + a % 2 ^ 22) else none := by
  rw [pageWalk, hpde]
  dsimp only
  rw [if_pos hlarge]

theorem pageWalk_small (hpde : m.load32 (cr3 / 2 ^ 12 * 2 ^ 12 + 4 * (a / 2 ^ 22)) = pde)
    (hallows : entryAllows pde acc = true) (hsmall : pde.testBit 7 = false)
    (hpte : m.load32 (pde / 2 ^ 12 * 2 ^ 12 + 4 * (a / 2 ^ 12 % 2 ^ 10)) = pte) :
    pageWalk m cr3 acc a = if entryAllows pte acc then some (pte / 2 ^ 12 * 2 ^ 12 + a % 2 ^ 12) else none := by
  rw [pageWalk, hpde]
  dsimp only
  rw [if_pos hallows, if_neg (by rw [hsmall]; exact Bool.false_ne_true), hpte]

theorem walkRead_block {n p : Nat} (h : ∀ i < n, pageWalk m cr3 acc (a + i) = some (p + i)) :
    walkRead m cr3 acc a n = some (m.readBytes p n) := by
  induction n generalizing a p with
  | zero => rfl
  | succ n ih =>
      have hrest : walkRead m cr3 acc (a + 1) n = some (m.readBytes (p + 1) n) := by
        refine ih fun i hi => ?_
        rw [Nat.add_assoc, Nat.add_comm 1 i, h (i + 1) (Nat.succ_lt_succ hi), Nat.add_assoc, Nat.add_comm 1 i]
      have hfirst : pageWalk m cr3 acc a = some p := h 0 (Nat.succ_pos n)
      rw [walkRead, hfirst, hrest, Mem.readBytes_succ]
      rfl

/-- One byte that is not mapped makes a read fail. -/
theorem walkRead_fails {n i : Nat} (hi : i < n) (hnone : pageWalk m cr3 acc (a + i) = none) :
    walkRead m cr3 acc a n = none := by
  induction n generalizing a i with
  | zero => exact absurd hi (Nat.not_lt_zero i)
  | succ n ih =>
      rw [walkRead]
      cases i with
      | zero =>
          rw [Nat.add_zero] at hnone
          rw [hnone]
          rfl
      | succ i =>
          rw [ih (Nat.lt_of_succ_lt_succ hi) (by rw [Nat.add_assoc, Nat.add_comm 1 i]; exact hnone)]
          cases pageWalk m cr3 acc a <;> rfl

/-- What every byte written keeps, a write keeps. -/
theorem walkWrite_invariant (Inv : Mem → Prop) {bs : List UInt8} {m' : Mem}
    (hkeep : ∀ m, ∀ i < bs.length, ∀ p b, Inv m → pageWalk m cr3 acc (a + i) = some p → Inv (m.writeBytes p [b]))
    (h : Inv m) (hwrite : walkWrite m cr3 acc a bs = some m') : Inv m' := by
  induction bs generalizing m a with
  | nil =>
      rw [← Option.some.inj hwrite]
      exact h
  | cons b bs ih =>
      rw [walkWrite] at hwrite
      obtain ⟨p, hp, hrest⟩ := Option.bind_eq_some_iff.mp hwrite
      refine ih (fun m i hi q c hm hq => ?_) (hkeep m 0 (Nat.succ_pos _) p b h hp) hrest
      rw [Nat.add_assoc, Nat.add_comm 1 i] at hq
      exact hkeep m (i + 1) (Nat.succ_lt_succ hi) q c hm hq

/-- A range that is mapped as a block, whatever is written to the block, is written as a block. -/
theorem walkWrite_block (Inv : Mem → Prop) {bs : List UInt8} {p : Nat}
    (hwalk : ∀ m, Inv m → ∀ i < bs.length, pageWalk m cr3 acc (a + i) = some (p + i))
    (hkeep : ∀ m b, ∀ i < bs.length, Inv m → Inv (m.writeBytes (p + i) [b])) (h : Inv m) :
    walkWrite m cr3 acc a bs = some (m.writeBytes p bs) := by
  induction bs generalizing m a p with
  | nil => rw [Mem.writeBytes_nil]; rfl
  | cons b bs ih =>
      have hfirst : pageWalk m cr3 acc a = some p := hwalk m h 0 (Nat.succ_pos _)
      have hrest : walkWrite (m.writeBytes p [b]) cr3 acc (a + 1) bs =
          some ((m.writeBytes p [b]).writeBytes (p + 1) bs) := by
        refine ih (fun m hm i hi => ?_) (fun m c i hi hm => ?_) (hkeep m b 0 (Nat.succ_pos _) h)
        · rw [Nat.add_assoc, Nat.add_assoc, Nat.add_comm 1 i]
          exact hwalk m hm (i + 1) (Nat.succ_lt_succ hi)
        · rw [Nat.add_assoc, Nat.add_comm 1 i]
          exact hkeep m c (i + 1) (Nat.succ_lt_succ hi) hm
      rw [walkWrite, hfirst]
      refine hrest.trans ?_
      rw [show p + 1 = p + [b].length from rfl, Mem.writeBytes_append]
      rfl

/-- One byte that is mapped in no memory the write can lead to makes it fail. -/
theorem walkWrite_fails (Inv : Mem → Prop) {bs : List UInt8} {i : Nat} (hi : i < bs.length)
    (hnone : ∀ m, Inv m → pageWalk m cr3 acc (a + i) = none)
    (hkeep : ∀ m, ∀ j < i, ∀ p b, Inv m → pageWalk m cr3 acc (a + j) = some p → Inv (m.writeBytes p [b]))
    (h : Inv m) : walkWrite m cr3 acc a bs = none := by
  induction bs generalizing m a i with
  | nil => exact absurd hi (Nat.not_lt_zero i)
  | cons b bs ih =>
      rw [walkWrite]
      cases i with
      | zero =>
          have hfirst : pageWalk m cr3 acc a = none := hnone m h
          rw [hfirst]
          rfl
      | succ i =>
          cases hfirst : pageWalk m cr3 acc a with
          | none => rfl
          | some p =>
              refine ih (Nat.lt_of_succ_lt_succ hi) (fun m hm => ?_) (fun m j hj q c hm hq => ?_)
                (hkeep m 0 (Nat.succ_pos i) p b h hfirst)
              · rw [Nat.add_assoc, Nat.add_comm 1 i]
                exact hnone m hm
              · rw [Nat.add_assoc, Nat.add_comm 1 j] at hq
                exact hkeep m (j + 1) (Nat.succ_lt_succ hj) q c hm hq

end Walk

end UnixOs
