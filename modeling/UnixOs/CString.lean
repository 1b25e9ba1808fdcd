import UnixOs.ByteMemory

/-! NUL-terminated strings, in byte memory and as lists of their bytes, with the comparison of
`lib.c`. -/

namespace UnixOs

/-- The bytes of a C string as `s[0]`, `s[1]` and so on, the terminator included. -/
def str (bs : List UInt8) : Nat → UInt8 := fun i => bs.getD i 0

/-- `strncmp` on the first `n` bytes. -/
def strncmp (s t : Nat → UInt8) : Nat → Int
  | 0 => 0
  | n + 1 =>
      if s 0 ≠ t 0 ∨ s 0 = 0 then (s 0).toInt8.toInt - (t 0).toInt8.toInt
      else strncmp (fun i => s (i + 1)) (fun i => t (i + 1)) n

namespace Mem

/-- The string at an address, cut after `n` bytes when there is no terminator before. -/
def cstr (m : Mem) (a : Nat) : Nat → List UInt8
  | 0 => []
  | n + 1 => if m a = 0 then [] else m a :: cstr m (a + 1) n

/-- The memory holds a string and its terminator at an address. -/
structure HoldsString (m : Mem) (a : Nat) (bs : List UInt8) : Prop where
  plain : 0 ∉ bs
  bytes : ∀ i (h : i < bs.length), m (a + i) = bs[i]
  terminated : m (a + bs.length) = 0

theorem HoldsString.tail {m : Mem} {a : Nat} {b : UInt8} {bs : List UInt8}
    (h : m.HoldsString a (b :: bs)) : m.HoldsString (a + 1) bs := by
  refine ⟨fun hmem => h.plain (List.mem_cons_of_mem _ hmem), fun i hi => ?_, ?_⟩
  · have := h.bytes (i + 1) (by simpa using hi)
    rw [Nat.add_assoc, Nat.add_comm 1 i]
    simpa using this
  · have := h.terminated
    rwa [List.length_cons, Nat.add_comm bs.length 1, ← Nat.add_assoc] at this

theorem HoldsString.cstr_eq {m : Mem} {a n : Nat} {bs : List UInt8} (h : m.HoldsString a bs)
    (hn : bs.length < n) : m.cstr a n = bs := by
  induction bs generalizing a n with
  | nil =>
      obtain ⟨k, rfl⟩ : ∃ k, n = k + 1 := ⟨n - 1, by simp at hn; omega⟩
      rw [cstr, if_pos (by simpa using h.terminated)]
  | cons b bs ih =>
      obtain ⟨k, rfl⟩ : ∃ k, n = k + 1 := ⟨n - 1, by simp at hn; omega⟩
      have hfirst : m a = b := h.bytes 0 (Nat.succ_pos _)
      have hb : b ≠ 0 := fun hb => h.plain (hb ▸ List.mem_cons_self)
      rw [cstr, hfirst, if_neg hb, ih h.tail (by simpa using hn)]

theorem holdsString_cstr {m : Mem} {a n : Nat} (h : (m.cstr a n).length < n) :
    m.HoldsString a (m.cstr a n) := by
  induction n generalizing a with
  | zero => exact absurd h (Nat.not_lt_zero _)
  | succ n ih =>
      rw [cstr] at h ⊢
      by_cases hzero : m a = 0
      · rw [if_pos hzero]
        exact ⟨List.not_mem_nil, fun i hi => absurd hi (Nat.not_lt_zero i), hzero⟩
      · rw [if_neg hzero] at h ⊢
        have hrest := ih (a := a + 1) (by simpa using h)
        refine ⟨?_, fun i hi => ?_, ?_⟩
        · rw [List.mem_cons]
          rintro (h0 | h0)
          · exact hzero h0.symm
          · exact hrest.plain h0
        · cases i with
          | zero => rfl
          | succ i =>
              have := hrest.bytes i (by simpa using hi)
              rw [List.getElem_cons_succ, ← this, Nat.add_assoc, Nat.add_comm 1 i]
        · have := hrest.terminated
          rwa [List.length_cons, Nat.add_comm _ 1, ← Nat.add_assoc]

theorem HoldsString.congr {m m' : Mem} {a : Nat} {bs : List UInt8} (h : m.HoldsString a bs)
    (heq : ∀ i ≤ bs.length, m' (a + i) = m (a + i)) : m'.HoldsString a bs :=
  ⟨h.plain, fun i hi => by rw [heq i (by omega), h.bytes i hi], by rw [heq _ le_rfl, h.terminated]⟩

theorem holdsString_writeBytes (m : Mem) (a : Nat) {bs : List UInt8} (h : 0 ∉ bs) :
    (m.writeBytes a (bs ++ [0])).HoldsString a bs := by
  refine ⟨h, fun i hi => ?_, ?_⟩
  · rw [writeBytes_add (by simp; omega), List.getElem_append_left hi]
  · rw [writeBytes_add (by simp), List.getElem_append_right le_rfl]
    simp

theorem byte_of_readBytes {m : Mem} {a i : Nat} {bs : List UInt8} (h : m.readBytes a bs.length = bs)
    (hi : i < bs.length) : m (a + i) = str bs i := by
  have hget := getElem_readBytes m a bs.length i (by rw [length_readBytes]; exact hi)
  rw [← hget, str, List.getD_eq_getElem _ _ hi]
  simp only [h]

theorem load32_of_readBytes {m : Mem} {a i : Nat} {bs : List UInt8} (h : m.readBytes a bs.length = bs)
    (hi : i + 4 ≤ bs.length) : m.load32 (a + i) = load32 (str bs) i := by
  apply load32_congr
  intro j hj
  rw [Nat.add_assoc, byte_of_readBytes h (by omega)]

end Mem

theorem strncmp_congr {s t : Nat → UInt8} (t' : Nat → UInt8) {n : Nat} (h : ∀ i < n, t i = t' i) :
    strncmp s t n = strncmp s t' n := by
  induction n generalizing s t t' with
  | zero => rfl
  | succ n ih =>
      rw [strncmp, strncmp, h 0 (by omega), ih _ (fun i hi => h (i + 1) (by omega))]

theorem toInt8_sub_eq_zero {x y : UInt8} : x.toInt8.toInt - y.toInt8.toInt = 0 ↔ x = y := by
  rw [Int.sub_eq_zero, Int8.toInt_inj]
  constructor
  · intro h
    have := congrArg Int8.toUInt8 h
    simpa using this
  · rintro rfl
    rfl

theorem strncmp_eq_zero_iff {xs ys : List UInt8} (hx : 0 ∉ xs) (hy : 0 ∉ ys) (n : Nat) :
    strncmp (str xs) (str ys) n = 0 ↔ xs.take n = ys.take n := by
  induction n generalizing xs ys with
  | zero => simp [strncmp]
  | succ n ih =>
      have hhead : ∀ (z : UInt8) (zs : List UInt8), str (z :: zs) 0 = z := fun _ _ => rfl
      have hnil : str [] 0 = 0 := rfl
      have htail : ∀ (z : UInt8) (zs : List UInt8), (fun i => str (z :: zs) (i + 1)) = str zs :=
        fun _ _ => rfl
      cases xs with
      | nil =>
          cases ys with
          | nil => simp [strncmp, hnil]
          | cons y ys =>
              have hy0 : y ≠ 0 := fun h => hy (h ▸ List.mem_cons_self)
              rw [strncmp, hnil, hhead, if_pos (.inr rfl), toInt8_sub_eq_zero]
              simp [hy0.symm]
      | cons x xs =>
          have hx0 : x ≠ 0 := fun h => hx (h ▸ List.mem_cons_self)
          cases ys with
          | nil =>
              rw [strncmp, hnil, hhead, if_pos (.inl hx0), toInt8_sub_eq_zero]
              simp [hx0]
          | cons y ys =>
              rw [strncmp, hhead, hhead, htail, htail]
              by_cases hxy : x = y
              · subst hxy
                rw [if_neg (by simp [hx0]), ih (fun h => hx (List.mem_cons_of_mem _ h))
                  (fun h => hy (List.mem_cons_of_mem _ h))]
                simp
              · rw [if_pos (.inl hxy), toInt8_sub_eq_zero]
                simp [hxy]

end UnixOs
