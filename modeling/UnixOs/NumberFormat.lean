import UnixOs.CString

/-! Number formatting: `itoa` and `strrev` of `lib.c` and their copies in the user library
`ece391support.c`, on byte memory. The loops take fuel, and a result needs no more than the string is long. -/

namespace UnixOs

/-- The static digits of `itoa`. -/
def lookup : List UInt8 :=
  [0x30, 0x31, 0x32, 0x33, 0x34, 0x35, 0x36, 0x37, 0x38, 0x39, 0x41, 0x42, 0x43, 0x44, 0x45, 0x46, 0x47, 0x48,
    0x49, 0x4A, 0x4B, 0x4C, 0x4D, 0x4E, 0x4F, 0x50, 0x51, 0x52, 0x53, 0x54, 0x55, 0x56, 0x57, 0x58, 0x59, 0x5A]

/-- `while(s[len] != '\0') len++;` -/
def strlenLoop (m : Mem) (s : Nat) : Nat → Nat → Option Nat
  | 0, _ => none
  | fuel + 1, len => if m (s + len) ≠ 0 then strlenLoop m s fuel (len + 1) else some len

def strlen (fuel : Nat) (m : Mem) (s : Nat) : Option Nat := strlenLoop m s fuel 0

/-- `for (len = 0; '\0' != *s; s++, len++);` -/
def ece391StrlenLoop (m : Mem) : Nat → Nat → Nat → Option Nat
  | 0, _, _ => none
  | fuel + 1, s, len => if m s ≠ 0 then ece391StrlenLoop m fuel (s + 1) (len + 1) else some len

def ece391Strlen (fuel : Nat) (m : Mem) (s : Nat) : Option Nat := ece391StrlenLoop m fuel s 0

/-- The swaps of both reversals, while `beg < end`. -/
def strrevLoop (s : Nat) : Nat → Mem → Int → Int → Option Mem
  | 0, _, _, _ => none
  | fuel + 1, m, beg, end_ =>
      if beg < end_ then
        let tmp := m (s + end_).toNat
        let m := m.writeBytes (s + end_).toNat [m (s + beg).toNat]
        let m := m.writeBytes (s + beg).toNat [tmp]
        strrevLoop s fuel m (beg + 1) (end_ - 1)
      else some m

def strrev (fuel : Nat) (m : Mem) (s : Nat) : Option Mem := do
  let len ← strlen fuel m s
  strrevLoop s fuel m 0 (len - 1)

/-- The user library returns early from a string of at most one character. -/
def ece391Strrev (fuel : Nat) (m : Mem) (s : Nat) : Option Mem := do
  let len ← ece391Strlen fuel m s
  let end_ : Int := len - 1
  if end_ ≤ 0 then return m
  strrevLoop s fuel m 0 end_

/-- The digits from the lowest place on, with the pointer behind them. -/
def itoaLoop (radix : UInt32) : Nat → Mem → Nat → UInt32 → Option (Mem × Nat)
  | 0, _, _, _ => none
  | fuel + 1, m, newbuf, newval =>
      if newval > 0 then
        itoaLoop radix fuel (m.writeBytes newbuf [lookup.getD (newval % radix).toNat 0]) (newbuf + 1)
          (newval / radix)
      else some (m, newbuf)

/-- The body that both copies of `itoa` share, up to their reversal. -/
def itoaWith (reversal : Nat → Mem → Nat → Option Mem) (fuel : Nat) (m : Mem) (value : UInt32) (buf : Nat)
    (radix : UInt32) : Option Mem := do
  if value = 0 then return m.writeBytes buf [0x30, 0]
  let (m, newbuf) ← itoaLoop radix fuel m buf value
  reversal fuel (m.writeBytes newbuf [0]) buf

def itoa : Nat → Mem → UInt32 → Nat → UInt32 → Option Mem := itoaWith strrev

def ece391Itoa : Nat → Mem → UInt32 → Nat → UInt32 → Option Mem := itoaWith ece391Strrev

/-! ### Lengths and reversals of strings -/

theorem strlenLoop_eq {m : Mem} {s : Nat} {bs : List UInt8} (h : m.HoldsString s bs) {fuel len : Nat}
    (hlen : len ≤ bs.length) (hfuel : bs.length < fuel + len) : strlenLoop m s fuel len = some bs.length := by
  induction fuel generalizing len with
  | zero => omega
  | succ fuel ih =>
      rw [strlenLoop]
      rcases Nat.lt_or_ge len bs.length with hlt | hge
      · have hbyte : m (s + len) ≠ 0 := by
          rw [h.bytes len hlt]
          exact fun hzero => h.plain (hzero ▸ List.getElem_mem hlt)
        rw [if_pos hbyte]
        exact ih hlt (by omega)
      · have hend : len = bs.length := Nat.le_antisymm hlen hge
        rw [hend, if_neg (not_not_intro h.terminated)]

theorem strlen_eq {m : Mem} {s : Nat} {bs : List UInt8} (h : m.HoldsString s bs) {fuel : Nat}
    (hfuel : bs.length < fuel) : strlen fuel m s = some bs.length :=
  strlenLoop_eq h (Nat.zero_le _) (by omega)

theorem ece391StrlenLoop_eq (m : Mem) (s fuel len : Nat) :
    ece391StrlenLoop m fuel (s + len) len = strlenLoop m s fuel len := by
  induction fuel generalizing len with
  | zero => rfl
  | succ fuel ih => rw [ece391StrlenLoop, strlenLoop, Nat.add_assoc s len 1, ih]

theorem ece391Strlen_eq_strlen (fuel : Nat) (m : Mem) (s : Nat) : ece391Strlen fuel m s = strlen fuel m s :=
  ece391StrlenLoop_eq m s fuel 0

/-- The first and the last `k` bytes of `bs` have changed places, and nothing else has changed. -/
structure Swapped (m0 : Mem) (s : Nat) (bs : List UInt8) (k : Nat) (m : Mem) : Prop where
  outer : ∀ i < bs.length, i < k ∨ bs.length - k ≤ i → m (s + i) = bs.getD (bs.length - 1 - i) 0
  inner : ∀ i < bs.length, k ≤ i → i < bs.length - k → m (s + i) = bs.getD i 0
  frame : ∀ a, a < s ∨ s + bs.length ≤ a → m a = m0 a

theorem Swapped.step {m0 m : Mem} {s k : Nat} {bs : List UInt8} (h : Swapped m0 s bs k m)
    (hk : 2 * k + 1 < bs.length) :
    Swapped m0 s bs (k + 1)
      ((m.writeBytes (s + (bs.length - 1 - k)) [m (s + k)]).writeBytes (s + k)
        [m (s + (bs.length - 1 - k))]) := by
  have hlow := h.inner k (by omega) le_rfl (by omega)
  have hhigh := h.inner (bs.length - 1 - k) (by omega) (by omega) (by omega)
  refine ⟨fun i hi houter => ?_, fun i hi hlo hhi => ?_, fun a ha => ?_⟩
  · by_cases hfirst : i = k
    · rw [hfirst, Mem.writeBytes_here, hhigh]
    · rw [Mem.writeBytes_of_outside (by simp; omega)]
      by_cases hlast : i = bs.length - 1 - k
      · rw [hlast, Mem.writeBytes_here, hlow]
        congr 1
        omega
      · rw [Mem.writeBytes_of_outside (by simp; omega)]
        exact h.outer i hi (by omega)
  · rw [Mem.writeBytes_of_outside (by simp; omega), Mem.writeBytes_of_outside (by simp; omega)]
    exact h.inner i hi (by omega) (by omega)
  · rw [Mem.writeBytes_of_outside (by simp; omega), Mem.writeBytes_of_outside (by simp; omega)]
    exact h.frame a ha

/-- Once the indices have met, the whole string is reversed. -/
theorem Swapped.eq_reverse {m0 m : Mem} {s k : Nat} {bs : List UInt8} (h : Swapped m0 s bs k m)
    (hmet : bs.length ≤ 2 * k + 1) : m = m0.writeBytes s bs.reverse := by
  have hinside : ∀ i < bs.length, m (s + i) = bs.getD (bs.length - 1 - i) 0 := by
    intro i hi
    by_cases houter : i < k ∨ bs.length - k ≤ i
    · exact h.outer i hi houter
    · rw [h.inner i hi (by omega) (by omega)]
      congr 1
      omega
  funext a
  by_cases ha : a < s ∨ s + bs.length ≤ a
  · rw [h.frame a ha, Mem.writeBytes_of_outside (by rw [List.length_reverse]; exact ha)]
  · obtain ⟨i, rfl⟩ := Nat.exists_eq_add_of_le (show s ≤ a by omega)
    have hi : i < bs.length := by omega
    rw [Mem.writeBytes_add (by rw [List.length_reverse]; exact hi), hinside i hi, List.getElem_reverse,
      List.getD_eq_getElem _ _ (by omega)]

theorem strrevLoop_eq {m0 m : Mem} {s k fuel : Nat} {bs : List UInt8} (h : Swapped m0 s bs k m)
    (hfuel : bs.length < fuel + k) (hk : k ≤ bs.length) :
    strrevLoop s fuel m k ((bs.length : Int) - 1 - k) = some (m0.writeBytes s bs.reverse) := by
  induction fuel generalizing m k with
  | zero => omega
  | succ fuel ih =>
      rw [strrevLoop]
      by_cases hmet : bs.length ≤ 2 * k + 1
      · rw [if_neg (by omega), h.eq_reverse hmet]
      · have hhigh : ((s : Int) + ((bs.length : Int) - 1 - k)).toNat = s + (bs.length - 1 - k) := by omega
        have hlow : ((s : Int) + k).toNat = s + k := by omega
        rw [if_pos (by omega), hhigh, hlow]
        have hnext := ih (h.step (by omega)) (by omega) (by omega)
        have hindices : ((bs.length : Int) - 1 - k) - 1 = (bs.length : Int) - 1 - (k + 1 : Nat) := by
          push_cast
          ring
        rw [hindices]
        exact hnext

/-- A string in memory is reversed in place. -/
theorem strrev_eq {m : Mem} {s fuel : Nat} {bs : List UInt8} (h : m.HoldsString s bs) (hfuel : bs.length < fuel) :
    strrev fuel m s = some (m.writeBytes s bs.reverse) := by
  have hstart : Swapped m s bs 0 m := by
    refine ⟨fun i hi houter => by omega, fun i hi _ _ => ?_, fun _ _ => rfl⟩
    rw [h.bytes i hi, List.getD_eq_getElem _ _ hi]
  rw [strrev, strlen_eq h hfuel]
  have hloop := strrevLoop_eq hstart hfuel (Nat.zero_le _)
  simpa using hloop

theorem ece391Strrev_eq {m : Mem} {s fuel : Nat} {bs : List UInt8} (h : m.HoldsString s bs)
    (hfuel : bs.length < fuel) : ece391Strrev fuel m s = some (m.writeBytes s bs.reverse) := by
  have hrev := strrev_eq h hfuel
  rw [strrev, strlen_eq h hfuel] at hrev
  rw [ece391Strrev, ece391Strlen_eq_strlen, strlen_eq h hfuel]
  simp only [Option.bind_eq_bind, Option.bind_some] at hrev ⊢
  by_cases hshort : (bs.length : Int) - 1 ≤ 0
  · -- both reversals leave a string of at most one character alone
    rw [if_pos hshort]
    obtain ⟨k, rfl⟩ : ∃ k, fuel = k + 1 := ⟨fuel - 1, by omega⟩
    rw [strrevLoop, if_neg (by omega)] at hrev
    exact hrev
  · rw [if_neg hshort]
    exact hrev

/-! ### The positional representation -/

/-- The digit `itoa` writes for a place value. -/
def digitChar (d : Nat) : UInt8 := lookup.getD d 0

/-- The digits of `v` in base `r` from the highest place on. -/
def numeral (r v : Nat) : List UInt8 :=
  if v = 0 then [0x30] else ((Nat.digits r v).map digitChar).reverse

/-- The value of a digit `0-9A-Z`; every other character is above all digits. -/
def digitValue (c : UInt8) : Nat :=
  if 0x30 ≤ c ∧ c ≤ 0x39 then c.toNat - 0x30
  else if 0x41 ≤ c ∧ c ≤ 0x5A then c.toNat - 0x41 + 10
  else 36

/-- What a string of digits means in base `r`. -/
def evaluate (r : Nat) (s : List UInt8) : Nat := s.foldl (fun value c => value * r + digitValue c) 0

/-- The canonical positional representation of a value. -/
structure Canonical (r v : Nat) (s : List UInt8) : Prop where
  length : s.length + 1 ≤ 33
  digits : ∀ c ∈ s, digitValue c < r
  leading : s.head? = some 0x30 → s = [0x30] ∧ v = 0
  zero : v = 0 → s = [0x30]
  value : evaluate r s = v

theorem digitValue_digitChar : ∀ d < 36, digitValue (digitChar d) = d := by decide

theorem digitChar_ne_zero {d : Nat} (h : d < 36) : digitChar d ≠ 0 := by
  intro hzero
  have hvalue := digitValue_digitChar d h
  rw [hzero] at hvalue
  have hout : digitValue 0 = 36 := by decide
  omega

theorem digitChar_eq_zeroDigit {d : Nat} (h : d < 36) (heq : digitChar d = 0x30) : d = 0 := by
  rw [← digitValue_digitChar d h, heq]
  decide

theorem plain_numeral {r v : Nat} (hr : 2 ≤ r) (hr' : r ≤ 36) : 0 ∉ numeral r v := by
  rw [numeral]
  split
  · decide
  · rw [List.mem_reverse, List.mem_map]
    rintro ⟨d, hd, hzero⟩
    have hlt : d < r := Nat.digits_lt_base hr hd
    exact digitChar_ne_zero (by omega) hzero

theorem length_digits_le {r v : Nat} (hr : 2 ≤ r) (hv : v < 2 ^ 32) : (Nat.digits r v).length ≤ 32 := by
  rw [Nat.digits_length_le_iff hr]
  exact hv.trans_le (Nat.pow_le_pow_left hr 32)

theorem length_numeral_le {r v : Nat} (hr : 2 ≤ r) (hv : v < 2 ^ 32) : (numeral r v).length ≤ 32 := by
  rw [numeral]
  split
  · decide
  · rw [List.length_reverse, List.length_map]
    exact length_digits_le hr hv

theorem evaluate_reverse (r : Nat) (ds : List Nat) (h : ∀ d ∈ ds, d < 36) :
    evaluate r (ds.map digitChar).reverse = Nat.ofDigits r ds := by
  rw [evaluate, List.foldl_reverse, List.foldr_map, Nat.ofDigits_eq_foldr]
  apply List.foldr_ext
  intro d hd value
  rw [digitValue_digitChar d (h d hd)]
  push_cast
  ring

/-- The numeral is canonical: short, of digits below the radix, without a leading zero, and it means `v`. -/
theorem canonical_numeral {r v : Nat} (hr : 2 ≤ r) (hr' : r ≤ 36) (hv : v < 2 ^ 32) :
    Canonical r v (numeral r v) := by
  have hlength := length_numeral_le hr hv
  by_cases hzero : v = 0
  · have hnumeral : numeral r v = [0x30] := if_pos hzero
    rw [hnumeral] at hlength ⊢
    refine ⟨by decide, ?_, fun _ => ⟨rfl, hzero⟩, fun _ => rfl, ?_⟩
    · intro c hc
      rw [List.mem_singleton.mp hc]
      exact Nat.lt_of_lt_of_le (by decide) hr
    · rw [hzero]
      simp [evaluate, digitValue]
  · have hnumeral : numeral r v = ((Nat.digits r v).map digitChar).reverse := if_neg hzero
    have hdigit : ∀ d ∈ Nat.digits r v, d < 36 := fun d hd => (Nat.digits_lt_base hr hd).trans_le hr'
    refine ⟨by omega, ?_, ?_, fun h => absurd h hzero, ?_⟩
    · rw [hnumeral]
      intro c hc
      obtain ⟨d, hd, rfl⟩ := List.mem_map.mp (List.mem_reverse.mp hc)
      rw [digitValue_digitChar d (hdigit d hd)]
      exact Nat.digits_lt_base hr hd
    · -- the leading digit is the last one `Nat.digits` lists, which is not zero
      intro hhead
      have hne : Nat.digits r v ≠ [] := Nat.digits_ne_nil_iff_ne_zero.mpr hzero
      rw [hnumeral, List.head?_reverse, List.getLast?_map, List.getLast?_eq_getLast_of_ne_nil hne] at hhead
      have hlast := Nat.getLast_digit_ne_zero r hzero
      have hchar : digitChar ((Nat.digits r v).getLast hne) = 0x30 := by simpa using hhead
      exact absurd (digitChar_eq_zeroDigit (hdigit _ (List.getLast_mem hne)) hchar) hlast
    · rw [hnumeral, evaluate_reverse r _ hdigit, Nat.ofDigits_digits]

theorem itoaLoop_eq {radix : UInt32} (hr : 2 ≤ radix.toNat) (m : Mem) (newbuf : Nat) (newval : UInt32) {fuel : Nat}
    (hfuel : (Nat.digits radix.toNat newval.toNat).length < fuel) :
    itoaLoop radix fuel m newbuf newval =
      some (m.writeBytes newbuf ((Nat.digits radix.toNat newval.toNat).map digitChar),
        newbuf + (Nat.digits radix.toNat newval.toNat).length) := by
  induction fuel generalizing m newbuf newval with
  | zero => omega
  | succ fuel ih =>
      rw [itoaLoop]
      by_cases hpos : newval > 0
      · have hvalue : 0 < newval.toNat := hpos
        have hdigits := Nat.digits_def' (b := radix.toNat) hr hvalue
        rw [hdigits, List.length_cons] at hfuel
        have hnext := ih (m.writeBytes newbuf [lookup.getD (newval % radix).toNat 0]) (newbuf + 1)
          (newval / radix) (by rw [UInt32.toNat_div]; omega)
        rw [if_pos hpos, hnext, UInt32.toNat_div, UInt32.toNat_mod, hdigits, List.map_cons, List.length_cons]
        congr 2
        · exact Mem.writeBytes_append m newbuf [digitChar (newval.toNat % radix.toNat)] _
        · omega
      · have hzero : newval.toNat = 0 := Nat.eq_zero_of_not_pos hpos
        rw [if_neg hpos, hzero]
        simp

theorem itoaWith_eq {reversal : Nat → Mem → Nat → Option Mem} {radix : UInt32} (hr : 2 ≤ radix.toNat)
    (hr' : radix.toNat ≤ 36) (m : Mem) (value : UInt32) (buf : Nat) {fuel : Nat} (hfuel : 33 ≤ fuel)
    (hreversal : ∀ {m : Mem} {s : Nat} {bs : List UInt8}, m.HoldsString s bs → bs.length < fuel →
      reversal fuel m s = some (m.writeBytes s bs.reverse)) :
    itoaWith reversal fuel m value buf radix =
      some (m.writeBytes buf (numeral radix.toNat value.toNat ++ [0])) := by
  rw [itoaWith]
  by_cases hzero : value = 0
  · rw [if_pos hzero, hzero]
    rfl
  · have hvalue : value.toNat ≠ 0 := fun h => hzero (UInt32.toNat_inj.mp h)
    have hlength := length_digits_le (r := radix.toNat) hr value.toNat_lt
    have hplain := plain_numeral (v := value.toNat) hr hr'
    rw [if_neg hzero, itoaLoop_eq hr m buf value (by omega)]
    rw [numeral, if_neg hvalue] at hplain ⊢
    generalize hdigits : (Nat.digits radix.toNat value.toNat).map digitChar = digits at hplain ⊢
    have hlen : (Nat.digits radix.toNat value.toNat).length = digits.length := by
      rw [← hdigits, List.length_map]
    have hplain' : 0 ∉ digits := by rwa [List.mem_reverse] at hplain
    have hholds := Mem.holdsString_writeBytes m buf hplain'
    simp only [Option.bind_eq_bind, Option.bind_some]
    rw [hlen, Mem.writeBytes_append, hreversal hholds (by omega)]
    rw [Mem.writeBytes_overwrite m buf [0] digits.length_reverse]

theorem itoa_eq {radix : UInt32} (hr : 2 ≤ radix.toNat) (hr' : radix.toNat ≤ 36) (m : Mem) (value : UInt32)
    (buf : Nat) {fuel : Nat} (hfuel : 33 ≤ fuel) :
    itoa fuel m value buf radix = some (m.writeBytes buf (numeral radix.toNat value.toNat ++ [0])) :=
  itoaWith_eq hr hr' m value buf hfuel strrev_eq

theorem ece391Itoa_eq {radix : UInt32} (hr : 2 ≤ radix.toNat) (hr' : radix.toNat ≤ 36) (m : Mem) (value : UInt32)
    (buf : Nat) {fuel : Nat} (hfuel : 33 ≤ fuel) :
    ece391Itoa fuel m value buf radix = some (m.writeBytes buf (numeral radix.toNat value.toNat ++ [0])) :=
  itoaWith_eq hr hr' m value buf hfuel ece391Strrev_eq

/-- Both copies of `itoa` end with the canonical representation of the value and its terminator in the
buffer, and with the rest of memory unchanged. -/
theorem itoa_canonical (m : Mem) (v : UInt32) (buf : Nat) (radix : UInt32) (hr : 2 ≤ radix.toNat)
    (hr' : radix.toNat ≤ 36) :
    ∃ s, Canonical radix.toNat v.toNat s ∧ ∀ fuel ≥ 33,
      (∃ m', itoa fuel m v buf radix = some m' ∧ m'.HoldsString buf s ∧
        ∀ a, a < buf ∨ buf + s.length + 1 ≤ a → m' a = m a) ∧
      ece391Itoa fuel m v buf radix = itoa fuel m v buf radix := by
  refine ⟨numeral radix.toNat v.toNat, canonical_numeral hr hr' v.toNat_lt, fun fuel hfuel => ⟨?_, ?_⟩⟩
  · refine ⟨_, itoa_eq hr hr' m v buf hfuel, ?_, fun a ha => ?_⟩
    · exact Mem.holdsString_writeBytes m buf (plain_numeral hr hr')
    · exact Mem.writeBytes_of_outside (by rw [List.length_append, List.length_singleton]; omega)
  · rw [itoa_eq hr hr' m v buf hfuel, ece391Itoa_eq hr hr' m v buf hfuel]

/-- The largest value in base 2 has the longest string. -/
theorem itoa_canonical_binary :
    ∃ s, Canonical 2 0xFFFFFFFF s ∧ ∀ fuel ≥ 33,
      (∃ m', itoa fuel (fun _ => 0) 0xFFFFFFFF 0x1000 2 = some m' ∧ m'.HoldsString 0x1000 s ∧
        ∀ a, a < 0x1000 ∨ 0x1000 + s.length + 1 ≤ a → m' a = 0) ∧
      ece391Itoa fuel (fun _ => 0) 0xFFFFFFFF 0x1000 2 = itoa fuel (fun _ => 0) 0xFFFFFFFF 0x1000 2 :=
  itoa_canonical (fun _ => 0) 0xFFFFFFFF 0x1000 2 (by decide) (by decide)

end UnixOs
