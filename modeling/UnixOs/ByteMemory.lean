import Mathlib

/-! Byte-addressed memory with little-endian 32-bit words. A write is described by its range: inside
it the bytes are those written, outside it the memory is unchanged. -/

namespace UnixOs

/-- Memory by byte address. -/
abbrev Mem := Nat → UInt8

namespace Mem

/-- The bytes `bs` stored from address `a` on. -/
def writeBytes (m : Mem) (a : Nat) (bs : List UInt8) : Mem :=
  fun x => if a ≤ x ∧ x < a + bs.length then bs.getD (x - a) 0 else m x

/-- The `n` bytes from address `a` on. -/
def readBytes (m : Mem) (a n : Nat) : List UInt8 := (List.range n).map fun i => m (a + i)

/-- `n` bytes copied from `src` of one memory to `dst` of another, or of the same one when the two
ranges do not meet. -/
def copyFrom (m : Mem) (dst : Nat) (from_ : Mem) (src n : Nat) : Mem :=
  m.writeBytes dst (from_.readBytes src n)

/-- The little-endian bytes of a 32-bit word. -/
def wordBytes (v : Nat) : List UInt8 :=
  [UInt8.ofNat v, UInt8.ofNat (v / 2 ^ 8), UInt8.ofNat (v / 2 ^ 16), UInt8.ofNat (v / 2 ^ 24)]

def store32 (m : Mem) (a v : Nat) : Mem := m.writeBytes a (wordBytes v)

def load32 (m : Mem) (a : Nat) : Nat :=
  (m a).toNat + (m (a + 1)).toNat * 2 ^ 8 + (m (a + 2)).toNat * 2 ^ 16 + (m (a + 3)).toNat * 2 ^ 24

/-- Words stored one after the other. -/
def storeWords (m : Mem) (words : List (Nat × Nat)) : Mem :=
  words.foldl (fun m w => m.store32 w.1 w.2) m

theorem writeBytes_of_outside {m : Mem} {a x : Nat} {bs : List UInt8}
    (h : x < a ∨ a + bs.length ≤ x) : m.writeBytes a bs x = m x := by
  rw [writeBytes, if_neg (by omega)]

theorem writeBytes_add {m : Mem} {a i : Nat} {bs : List UInt8} (h : i < bs.length) :
    m.writeBytes a bs (a + i) = bs[i] := by
  rw [writeBytes, if_pos (by omega), Nat.add_sub_cancel_left, List.getD_eq_getElem _ _ h]

theorem writeBytes_here (m : Mem) (a : Nat) (b : UInt8) : m.writeBytes a [b] a = b := by
  rw [writeBytes, if_pos (by simp), Nat.sub_self, List.getD_cons_zero]

@[simp] theorem writeBytes_nil (m : Mem) (a : Nat) : m.writeBytes a [] = m := by
  funext x
  exact writeBytes_of_outside (by simp; omega)

/-- Two consecutive writes are one write of the concatenation. -/
theorem writeBytes_append (m : Mem) (a : Nat) (bs cs : List UInt8) :
    (m.writeBytes a bs).writeBytes (a + bs.length) cs = m.writeBytes a (bs ++ cs) := by
  funext x
  simp only [writeBytes, List.length_append]
  rcases Nat.lt_or_ge x a with hlt | hge
  · rw [if_neg (by omega), if_neg (by omega), if_neg (by omega)]
  · obtain ⟨i, rfl⟩ := Nat.exists_eq_add_of_le hge
    simp only [Nat.add_sub_cancel_left]
    rcases Nat.lt_or_ge i bs.length with hi | hi
    · rw [if_neg (by omega), if_pos (by omega), if_pos (by omega), List.getD_append _ _ _ _ hi]
    · rw [List.getD_append_right _ _ _ _ hi, show a + i - (a + bs.length) = i - bs.length by omega]
      split_ifs <;> first | rfl | omega

/-- A second write over the start of the first. -/
theorem writeBytes_overwrite (m : Mem) (a : Nat) {bs cs : List UInt8} (rest : List UInt8)
    (h : cs.length = bs.length) : (m.writeBytes a (bs ++ rest)).writeBytes a cs = m.writeBytes a (cs ++ rest) := by
  rw [← writeBytes_append m a bs rest, ← writeBytes_append m a cs rest, h]
  funext x
  simp only [writeBytes]
  split_ifs <;> first | rfl | omega

/-- A write just below another one extends it downwards. -/
theorem writeBytes_below (m : Mem) (a : Nat) (bs cs : List UInt8) :
    (m.writeBytes (a + bs.length) cs).writeBytes a bs = m.writeBytes a (bs ++ cs) := by
  rw [← writeBytes_append m a bs cs]
  funext x
  simp only [writeBytes]
  split_ifs <;> first | rfl | omega

@[simp] theorem length_readBytes (m : Mem) (a n : Nat) : (m.readBytes a n).length = n := by
  simp [readBytes]

@[simp] theorem getElem_readBytes (m : Mem) (a n i : Nat) (h : i < (m.readBytes a n).length) :
    (m.readBytes a n)[i] = m (a + i) := by
  simp [readBytes]

theorem readBytes_succ (m : Mem) (a n : Nat) : m.readBytes a (n + 1) = m a :: m.readBytes (a + 1) n := by
  rw [readBytes, List.range_succ_eq_map, List.map_cons, List.map_map]
  congr 1
  apply List.map_congr_left
  intro i _
  rw [Function.comp_apply, Nat.succ_eq_add_one, Nat.add_assoc, Nat.add_comm 1 i]

theorem readBytes_add (m : Mem) (a n k : Nat) :
    m.readBytes a (n + k) = m.readBytes a n ++ m.readBytes (a + n) k := by
  rw [readBytes, List.range_add, List.map_append, List.map_map]
  congr 1
  apply List.map_congr_left
  intro i _
  rw [Function.comp_apply, Nat.add_assoc]

/-- The start of what was just written. -/
theorem readBytes_writeBytes (m : Mem) (a : Nat) (bs cs : List UInt8) :
    (m.writeBytes a (bs ++ cs)).readBytes a bs.length = bs := by
  apply List.ext_getElem
  · exact length_readBytes _ _ _
  · intro i _ hi
    have hlt : i < (bs ++ cs).length := by rw [List.length_append]; omega
    rw [getElem_readBytes, writeBytes_add hlt, List.getElem_append_left hi]

/-- A range of one memory copied into another. -/
theorem writeBytes_readBytes_add (m src : Mem) (a b : Nat) {i n : Nat} (h : i < n) :
    m.writeBytes a (src.readBytes b n) (a + i) = src (b + i) := by
  rw [writeBytes_add (by rw [length_readBytes]; exact h), getElem_readBytes]

theorem readBytes_congr {m m' : Mem} {a b n : Nat} (h : ∀ i < n, m (a + i) = m' (b + i)) :
    m.readBytes a n = m'.readBytes b n := by
  apply List.map_congr_left
  intro i hi
  exact h i (List.mem_range.mp hi)

@[simp] theorem length_wordBytes (v : Nat) : (wordBytes v).length = 4 := rfl

theorem load32_lt (m : Mem) (a : Nat) : m.load32 a < 2 ^ 32 := by
  have h0 := (m a).toNat_lt
  have h1 := (m (a + 1)).toNat_lt
  have h2 := (m (a + 2)).toNat_lt
  have h3 := (m (a + 3)).toNat_lt
  simp only [load32]
  omega

theorem load32_congr {m m' : Mem} {a b : Nat} (h : ∀ i < 4, m (a + i) = m' (b + i)) :
    m.load32 a = m'.load32 b := by
  have h0 := h 0 (by decide)
  rw [Nat.add_zero, Nat.add_zero] at h0
  rw [load32, load32, h0, h 1 (by decide), h 2 (by decide), h 3 (by decide)]

theorem load32_writeBytes_of_outside {m : Mem} {a b : Nat} {bs : List UInt8}
    (h : b + 4 ≤ a ∨ a + bs.length ≤ b) : (m.writeBytes a bs).load32 b = m.load32 b := by
  apply load32_congr
  intro i hi
  exact writeBytes_of_outside (by omega)

theorem load32_store32 (m : Mem) (a v : Nat) : (m.store32 a v).load32 a = v % 2 ^ 32 := by
  have hbyte : ∀ i (hi : i < 4), m.store32 a v (a + i) = (wordBytes v)[i] := fun i hi =>
    writeBytes_add hi
  have h0 := hbyte 0 (by decide)
  rw [Nat.add_zero] at h0
  rw [load32, h0, hbyte 1 (by decide), hbyte 2 (by decide), hbyte 3 (by decide)]
  simp only [wordBytes, List.getElem_cons_zero, List.getElem_cons_succ, UInt8.toNat_ofNat']
  omega

theorem load32_store32_of_lt (m : Mem) (a : Nat) {v : Nat} (h : v < 2 ^ 32) :
    (m.store32 a v).load32 a = v := by
  rw [load32_store32, Nat.mod_eq_of_lt h]

/-- A word store leaves every word apart from it unchanged. -/
theorem load32_store32_of_ne {m : Mem} {a b : Nat} (v : Nat) (h : b + 4 ≤ a ∨ a + 4 ≤ b) :
    (m.store32 a v).load32 b = m.load32 b :=
  load32_writeBytes_of_outside (by simpa using h)

theorem store32_of_outside {m : Mem} {a x : Nat} (v : Nat) (h : x < a ∨ a + 4 ≤ x) :
    m.store32 a v x = m x :=
  writeBytes_of_outside (by simpa using h)

theorem load32_writeBytes_readBytes (m src : Mem) (a b : Nat) {i n : Nat} (h : i + 4 ≤ n) :
    (m.writeBytes a (src.readBytes b n)).load32 (a + i) = src.load32 (b + i) := by
  apply load32_congr
  intro j hj
  rw [Nat.add_assoc, Nat.add_assoc, writeBytes_readBytes_add _ _ _ _ (by omega)]

theorem storeWords_of_outside (words : List (Nat × Nat)) (m : Mem) {x : Nat}
    (h : ∀ w ∈ words, x < w.1 ∨ w.1 + 4 ≤ x) : m.storeWords words x = m x := by
  induction words generalizing m with
  | nil => rfl
  | cons w words ih =>
      rw [storeWords, List.foldl_cons]
      refine (ih _ fun w' hw' => h w' (List.mem_cons_of_mem _ hw')).trans ?_
      exact store32_of_outside _ (h w List.mem_cons_self)

theorem load32_storeWords_of_apart (words : List (Nat × Nat)) (m : Mem) {a : Nat}
    (h : ∀ w ∈ words, a + 4 ≤ w.1 ∨ w.1 + 4 ≤ a) : (m.storeWords words).load32 a = m.load32 a := by
  induction words generalizing m with
  | nil => rfl
  | cons w words ih =>
      rw [storeWords, List.foldl_cons]
      refine (ih _ fun w' hw' => h w' (List.mem_cons_of_mem _ hw')).trans ?_
      exact load32_store32_of_ne _ (h w List.mem_cons_self)

/-- Words that do not overlap are all read back. -/
theorem load32_storeWords {words : List (Nat × Nat)} (m : Mem)
    (hapart : words.Pairwise fun w w' => w.1 + 4 ≤ w'.1 ∨ w'.1 + 4 ≤ w.1) {w : Nat × Nat} (hw : w ∈ words) :
    (m.storeWords words).load32 w.1 = w.2 % 2 ^ 32 := by
  induction words generalizing m with
  | nil => exact absurd hw List.not_mem_nil
  | cons w' words ih =>
      obtain ⟨hfirst, hrest⟩ := List.pairwise_cons.mp hapart
      rw [storeWords, List.foldl_cons]
      rcases List.mem_cons.mp hw with rfl | hw
      · exact (load32_storeWords_of_apart words _ hfirst).trans (load32_store32 _ _ _)
      · exact ih _ hrest hw

end Mem

end UnixOs
