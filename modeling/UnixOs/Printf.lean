import UnixOs.NumberFormat

/-! `printf` of `lib.c`: a scan of the format with a second control point, the label `format_char_switch`
that the modifier `#` jumps back to. What is passed to `putc` is collected in order. -/

namespace UnixOs

/-- Where `printf` is: at the top of its scan loop, or at `format_char_switch`. -/
inductive PrintfAt where
  | scan
  | convert (alternate : Bool)
  deriving DecidableEq

/-- The cursor in the format, the cursor in the arguments and the characters passed to `putc`. -/
structure Printf where
  place : PrintfAt
  buf : Nat
  esp : Nat
  out : List UInt8

/-- The characters `puts` passes to `putc`: the string at an address, up to the end of memory at most. -/
def puts (m : Mem) (s : Nat) : List UInt8 := m.cstr s (2 ^ 32 - s)

/-- `while(i < 8) conv_buf[i++] = '0';` -/
def padZeros (conv : Mem) (i : Nat) : Mem :=
  if i < 8 then padZeros (conv.writeBytes i [0x30]) (i + 1) else conv
termination_by 8 - i

/-- `%x` and `%#x`; `conv` is the local `conv_buf` with whatever it held before. -/
def hexText (conv : Mem) (value : UInt32) (alternate : Bool) : Option (List UInt8) :=
  if alternate = false then do
    let conv ← itoa 33 conv value 0 16
    return puts conv 0
  else do
    let conv ← itoa 33 conv value 8 16
    let startingIndex ← strlen 33 conv 8
    return puts (padZeros conv startingIndex) startingIndex

/-- `%u` -/
def unsignedText (conv : Mem) (value : UInt32) : Option (List UInt8) := do
  let conv ← itoa 33 conv value 0 10
  return puts conv 0

/-- `%d`; the negation is that of a 32-bit register. -/
def signedText (conv : Mem) (value : UInt32) : Option (List UInt8) :=
  if value.toInt32 < 0 then do
    let conv ← itoa 33 (conv.writeBytes 0 [0x2D]) (-value) 1 10
    return puts conv 0
  else do
    let conv ← itoa 33 conv value 0 10
    return puts conv 0

namespace Printf

/-- A conversion that passes `text` to `putc` and takes one argument; then `buf++` at the bottom of the
scan loop. -/
def take (s : Printf) (text : List UInt8) : Printf where
  place := .scan
  buf := s.buf + 1
  esp := s.esp + 4
  out := s.out ++ text

/-- A character that takes no argument. -/
def pass (s : Printf) (text : List UInt8) : Printf where
  place := .scan
  buf := s.buf + 1
  esp := s.esp
  out := s.out ++ text

/-- The switch on the conversion specifier. -/
def convert (m conv : Mem) (alternate : Bool) (s : Printf) : Option Printf :=
  let c := m s.buf
  let arg := UInt32.ofNat (m.load32 s.esp)
  if c = 0x25 then some (s.pass [0x25])
  else if c = 0x23 then some { s with place := .convert true, buf := s.buf + 1 }
  else if c = 0x78 then (hexText conv arg alternate).map s.take
  else if c = 0x75 then (unsignedText conv arg).map s.take
  else if c = 0x64 then (signedText conv arg).map s.take
  else if c = 0x63 then some (s.take [arg.toUInt8])
  else if c = 0x73 then some (s.take (puts m arg.toNat))
  else some (s.pass [])

/-- One character of the format. -/
def step (m conv : Mem) (s : Printf) : Option Printf :=
  match s.place with
  | .scan =>
      if m s.buf = 0x25 then some { s with place := .convert false, buf := s.buf + 1 }
      else some (s.pass [m s.buf])
  | .convert alternate => s.convert m conv alternate

/-- The test `*buf != '\0'` of the scan loop fails. -/
def Finished (m : Mem) (s : Printf) : Prop := s.place = .scan ∧ m s.buf = 0

instance (m : Mem) (s : Printf) : Decidable (s.Finished m) := inferInstanceAs (Decidable (_ ∧ _))

def loop (m conv : Mem) : Nat → Printf → Option Printf
  | 0, _ => none
  | fuel + 1, s => if s.Finished m then some s else (s.step m conv).bind (loop m conv fuel)

/-- `printf(format, ...)` with its arguments on the stack from `esp` on: where it ends, and `buf - format`. -/
def printf (fuel : Nat) (m conv : Mem) (format esp : Nat) : Option (Printf × Nat) := do
  let s ← loop m conv fuel ⟨.scan, format, esp, []⟩
  return (s, s.buf - format)

end Printf

theorem puts_eq {m : Mem} {a : Nat} {s : List UInt8} (h : m.HoldsString a s) (hfits : a + s.length < 2 ^ 32) :
    puts m a = s :=
  h.cstr_eq (by omega)

theorem puts_itoa {r : Nat} (hr : 2 ≤ r) (hr' : r ≤ 36) (conv : Mem) (v : UInt32) {a : Nat} (ha : a < 2 ^ 31) :
    puts (conv.writeBytes a (numeral r v.toNat ++ [0])) a = numeral r v.toNat := by
  have hlength := length_numeral_le hr v.toNat_lt
  exact puts_eq (Mem.holdsString_writeBytes conv a (plain_numeral hr hr')) (by omega)

theorem padZeros_eq (conv : Mem) {i : Nat} (hi : i ≤ 8) :
    padZeros conv i = conv.writeBytes i (List.replicate (8 - i) 0x30) := by
  induction hleft : 8 - i generalizing conv i with
  | zero =>
      rw [padZeros, if_neg (by omega)]
      simp
  | succ left ih =>
      rw [padZeros, if_pos (by omega), ih _ (by omega) (by omega), List.replicate_succ]
      exact Mem.writeBytes_append conv i [0x30] _

/-- A hexadecimal number on exactly 8 places. -/
def paddedHex (v : Nat) : List UInt8 := List.replicate (8 - (numeral 16 v).length) 0x30 ++ numeral 16 v

/-- The canonical signed decimal representation. -/
def signedDecimal (z : Int) : List UInt8 := if z < 0 then 0x2D :: numeral 10 z.natAbs else numeral 10 z.natAbs

theorem length_hex_le (v : UInt32) : (numeral 16 v.toNat).length ≤ 8 := by
  rw [numeral]
  split
  · decide
  · rw [List.length_reverse, List.length_map, Nat.digits_length_le_iff (by decide)]
    exact v.toNat_lt

theorem length_numeral_pos (r v : Nat) : 0 < (numeral r v).length := by
  rw [numeral]
  split
  · decide
  · rename_i hv
    rw [List.length_reverse, List.length_map]
    exact List.length_pos_iff.mpr (Nat.digits_ne_nil_iff_ne_zero.mpr hv)

theorem itoa_sixteen (conv : Mem) (v : UInt32) (a : Nat) :
    itoa 33 conv v a 16 = some (conv.writeBytes a (numeral 16 v.toNat ++ [0])) :=
  itoa_eq (by decide) (by decide) conv v a le_rfl

theorem itoa_ten (conv : Mem) (v : UInt32) (a : Nat) :
    itoa 33 conv v a 10 = some (conv.writeBytes a (numeral 10 v.toNat ++ [0])) :=
  itoa_eq (by decide) (by decide) conv v a le_rfl

theorem hexText_eq (conv : Mem) (v : UInt32) (alternate : Bool) :
    hexText conv v alternate = some (if alternate then paddedHex v.toNat else numeral 16 v.toNat) := by
  have hplain : 0 ∉ numeral 16 v.toNat := plain_numeral (by decide) (by decide)
  rw [hexText]
  cases alternate with
  | false =>
      rw [if_pos rfl, itoa_sixteen]
      exact congrArg some (puts_itoa (by decide) (by decide) conv v (by decide))
  | true =>
      have hlength := length_hex_le v
      have hpos := length_numeral_pos 16 v.toNat
      rw [if_neg (by decide), itoa_sixteen]
      have hholds := Mem.holdsString_writeBytes conv 8 hplain
      change (strlen 33 (conv.writeBytes 8 (numeral 16 v.toNat ++ [0])) 8).bind _ = _
      rw [strlen_eq hholds (by omega), Option.bind_some, padZeros_eq _ hlength]
      -- the zeros end where the digits start
      have hjoin := Mem.writeBytes_below conv (numeral 16 v.toNat).length
        (List.replicate (8 - (numeral 16 v.toNat).length) 0x30) (numeral 16 v.toNat ++ [0])
      rw [List.length_replicate, Nat.add_sub_cancel' hlength, ← List.append_assoc] at hjoin
      have hplain' : 0 ∉ paddedHex v.toNat := by
        rw [paddedHex, List.mem_append]
        rintro (hzero | hdigit)
        · exact absurd (List.eq_of_mem_replicate hzero) (by decide)
        · exact hplain hdigit
      have hpadded : (paddedHex v.toNat).length = 8 := by
        rw [paddedHex, List.length_append, List.length_replicate]
        omega
      rw [hjoin, if_pos rfl]
      exact congrArg some (puts_eq (Mem.holdsString_writeBytes conv _ hplain') (by omega))

theorem unsignedText_eq (conv : Mem) (v : UInt32) : unsignedText conv v = some (numeral 10 v.toNat) := by
  rw [unsignedText, itoa_ten]
  exact congrArg some (puts_itoa (by decide) (by decide) conv v (by decide))

theorem toInt_toInt32 (v : UInt32) :
    v.toInt32.toInt = if v.toNat < 2 ^ 31 then (v.toNat : Int) else (v.toNat : Int) - 2 ^ 32 := by
  change v.toBitVec.toInt = _
  rw [BitVec.toInt_eq_toNat_cond]
  change (if 2 * v.toNat < 2 ^ 32 then (v.toNat : Int) else (v.toNat : Int) - 2 ^ 32) = _
  exact if_congr (by omega) rfl rfl

/-- The magnitude of a negative value is what the register holds after the negation, also for `-2^31`. -/
theorem natAbs_of_neg {v : UInt32} (h : v.toInt32.toInt < 0) : v.toInt32.toInt.natAbs = (-v).toNat := by
  have hv := v.toNat_lt
  rw [toInt_toInt32] at h ⊢
  have hsize : UInt32.size = 2 ^ 32 := rfl
  rw [UInt32.toNat_neg, hsize]
  split_ifs at h ⊢ with hsmall
  · omega
  · rw [Nat.mod_eq_of_lt (by omega)]
    omega

theorem natAbs_of_nonneg {v : UInt32} (h : ¬v.toInt32.toInt < 0) : v.toInt32.toInt.natAbs = v.toNat := by
  have hv := v.toNat_lt
  rw [toInt_toInt32] at h ⊢
  split_ifs at h ⊢ with hsmall
  · exact Int.natAbs_natCast _
  · omega

theorem signedText_eq (conv : Mem) (v : UInt32) : signedText conv v = some (signedDecimal v.toInt32.toInt) := by
  rw [signedText, signedDecimal]
  have hsign : v.toInt32 < 0 ↔ v.toInt32.toInt < 0 := Int32.lt_iff_toInt_lt
  by_cases hneg : v.toInt32.toInt < 0
  · have hplain : 0 ∉ numeral 10 (-v).toNat := plain_numeral (by decide) (by decide)
    have hlength := length_numeral_le (r := 10) (by decide) (-v).toNat_lt
    rw [if_pos (hsign.mpr hneg), if_pos hneg, natAbs_of_neg hneg, itoa_ten]
    have hjoin := Mem.writeBytes_append conv 0 [0x2D] (numeral 10 (-v).toNat ++ [0])
    change some (puts ((conv.writeBytes 0 [0x2D]).writeBytes (0 + [(0x2D : UInt8)].length)
      (numeral 10 (-v).toNat ++ [0])) 0) = _
    rw [hjoin, ← List.append_assoc]
    refine congrArg some (puts_eq (Mem.holdsString_writeBytes conv 0 ?_) ?_)
    · rw [List.singleton_append, List.mem_cons]
      rintro (hminus | hdigit)
      · exact absurd hminus (by decide)
      · exact hplain hdigit
    · rw [List.length_cons]
      omega
  · rw [if_neg (mt hsign.mp hneg), if_neg hneg, natAbs_of_nonneg hneg, itoa_ten]
    exact congrArg some (puts_itoa (by decide) (by decide) conv v (by decide))

/-! ### One character of the format -/

/-- The conversions that take an argument: `x`, `u`, `d`, `c` and `s`. -/
def takesArg (c : UInt8) : Bool := c ∈ ([0x78, 0x75, 0x64, 0x63, 0x73] : List UInt8)

/-- What such a conversion stands for; `text` gives the string at an address. -/
def conversionText (text : Nat → List UInt8) (alternate : Bool) (c : UInt8) (v : UInt32) : List UInt8 :=
  if c = 0x78 then if alternate then paddedHex v.toNat else numeral 16 v.toNat
  else if c = 0x75 then numeral 10 v.toNat
  else if c = 0x64 then signedDecimal v.toInt32.toInt
  else if c = 0x63 then [v.toUInt8]
  else text v.toNat

/-- What a conversion without an argument stands for. -/
def plainText (c : UInt8) : List UInt8 := if c = 0x25 then [0x25] else []

namespace Printf

variable {m : Mem} (conv : Mem) {s : Printf} (alternate : Bool)

theorem convert_modifier (h : m s.buf = 0x23) :
    s.convert m conv alternate = some { s with place := .convert true, buf := s.buf + 1 } := by
  rw [convert, h, if_neg (by decide), if_pos rfl]

theorem convert_takes (h : takesArg (m s.buf) = true) :
    s.convert m conv alternate =
      some (s.take (conversionText (puts m) alternate (m s.buf) (UInt32.ofNat (m.load32 s.esp)))) := by
  simp only [takesArg, List.mem_cons, List.not_mem_nil, or_false, decide_eq_true_eq] at h
  rw [convert, conversionText]
  rcases h with h | h | h | h | h
  · rw [h, if_neg (by decide), if_neg (by decide), if_pos rfl, hexText_eq, Option.map_some, if_pos rfl]
  · rw [h, if_neg (by decide), if_neg (by decide), if_neg (by decide), if_pos rfl, unsignedText_eq,
      Option.map_some, if_neg (by decide), if_pos rfl]
  · rw [h, if_neg (by decide), if_neg (by decide), if_neg (by decide), if_neg (by decide), if_pos rfl,
      signedText_eq, Option.map_some, if_neg (by decide), if_neg (by decide), if_pos rfl]
  · rw [h, if_neg (by decide), if_neg (by decide), if_neg (by decide), if_neg (by decide), if_neg (by decide),
      if_pos rfl, if_neg (by decide), if_neg (by decide), if_neg (by decide), if_pos rfl]
  · rw [h, if_neg (by decide), if_neg (by decide), if_neg (by decide), if_neg (by decide), if_neg (by decide),
      if_neg (by decide), if_pos rfl, if_neg (by decide), if_neg (by decide), if_neg (by decide),
      if_neg (by decide)]

theorem convert_plain (hmodifier : m s.buf ≠ 0x23) (h : takesArg (m s.buf) = false) :
    s.convert m conv alternate = some (s.pass (plainText (m s.buf))) := by
  simp only [takesArg, List.mem_cons, List.not_mem_nil, or_false, decide_eq_false_iff_not, not_or] at h
  obtain ⟨hx, hu, hd, hc, hs⟩ := h
  rw [convert, plainText]
  by_cases hpercent : m s.buf = 0x25
  · rw [if_pos hpercent, if_pos hpercent]
  · rw [if_neg hpercent, if_neg hmodifier, if_neg hx, if_neg hu, if_neg hd, if_neg hc, if_neg hs, if_neg hpercent]

/-- At a conversion, the modifier alone keeps `printf` there. -/
theorem convert_moves : ∃ s', s.convert m conv alternate = some s' ∧ s'.buf = s.buf + 1 ∧
    (s'.place = .scan ↔ m s.buf ≠ 0x23) := by
  by_cases hmodifier : m s.buf = 0x23
  · exact ⟨_, convert_modifier conv alternate hmodifier, rfl, by simp [hmodifier]⟩
  · by_cases htakes : takesArg (m s.buf) = true
    · exact ⟨_, convert_takes conv alternate htakes, rfl, by simp [take, hmodifier]⟩
    · exact ⟨_, convert_plain conv alternate hmodifier (Bool.eq_false_of_not_eq_true htakes), rfl, by simp [pass, hmodifier]⟩

/-- Every step moves the cursor by one. -/
theorem step_moves : ∃ s', s.step m conv = some s' ∧ s'.buf = s.buf + 1 ∧
    (s'.place = .scan ↔ if s.place = .scan then m s.buf ≠ 0x25 else m s.buf ≠ 0x23) := by
  cases hplace : s.place with
  | scan =>
      rw [if_pos rfl]
      by_cases hpercent : m s.buf = 0x25
      · exact ⟨_, by rw [step, hplace]; exact if_pos hpercent, rfl, by simp [hpercent]⟩
      · exact ⟨_, by rw [step, hplace]; exact if_neg hpercent, rfl, by simp [pass, hpercent]⟩
  | convert alternate =>
      rw [if_neg (by simp)]
      obtain ⟨s', hstep, hbuf, hnext⟩ := convert_moves (m := m) conv (s := s) alternate
      exact ⟨s', by rw [step, hplace]; exact hstep, hbuf, hnext⟩

end Printf

/-- Whether a format ends inside a conversion, from a place inside one or not. -/
def endsInConversion : Bool → List UInt8 → Bool
  | inside, [] => inside
  | false, b :: bs => endsInConversion (b == 0x25) bs
  | true, b :: bs => endsInConversion (b == 0x23) bs

/-- Whether `printf` stands at a conversion specifier. -/
def Printf.inside (s : Printf) : Bool := s.place ≠ .scan

/-- The states that `printf` passes through, before the test of its scan loop fails. -/
def PrintfReaches (m conv : Mem) : Printf → Printf → Prop :=
  Relation.ReflTransGen fun s s' => ¬s.Finished m ∧ s.step m conv = some s'

/-- The cursor never moves beyond the terminator of the format `bs`, and `printf` returns its length. -/
structure StaysInFormat (m conv : Mem) (format esp : Nat) (bs : List UInt8) : Prop where
  cursor : ∀ s, PrintfReaches m conv ⟨.scan, format, esp, []⟩ s → s.buf ≤ format + bs.length
  returns : ∀ fuel > bs.length, ∃ s, Printf.printf fuel m conv format esp = some (s, bs.length)

section Scan

variable {m conv : Mem} {format i : Nat} {bs : List UInt8} {s : Printf}

/-- A step before the terminator follows the format by one byte. -/
theorem step_inside (h : m.HoldsString format bs) (hi : i < bs.length) (hbuf : s.buf = format + i) :
    ¬s.Finished m ∧ ∃ s', s.step m conv = some s' ∧ s'.buf = format + (i + 1) ∧
      endsInConversion s'.inside (bs.drop (i + 1)) = endsInConversion s.inside (bs.drop i) := by
  have hbyte : m s.buf = bs[i] := by rw [hbuf, h.bytes i hi]
  have hne : bs[i] ≠ 0 := fun hzero => h.plain (hzero ▸ List.getElem_mem hi)
  refine ⟨fun hdone => hne (hbyte.symm.trans hdone.2), ?_⟩
  obtain ⟨s', hstep, hnext, hplace⟩ : ∃ s', s.step m conv = some s' ∧ s'.buf = s.buf + 1 ∧
    (s'.place = .scan ↔ if s.place = .scan then m s.buf ≠ 0x25 else m s.buf ≠ 0x23) := Printf.step_moves conv
  refine ⟨s', hstep, by omega, ?_⟩
  rw [hbyte] at hplace
  rw [List.drop_eq_getElem_cons hi]
  by_cases hscan : s.place = .scan
  · have hinside : s.inside = false := by simp [Printf.inside, hscan]
    have hinside' : s'.inside = (bs[i] == 0x25) := by
      rw [Bool.eq_iff_iff]
      simp [Printf.inside, hplace, hscan]
    rw [hinside, hinside', endsInConversion]
  · have hinside : s.inside = true := by simp [Printf.inside, hscan]
    have hinside' : s'.inside = (bs[i] == 0x23) := by
      rw [Bool.eq_iff_iff]
      simp [Printf.inside, hplace, hscan]
    rw [hinside, hinside', endsInConversion]

/-- A place from which the scan ends at the terminator, outside every conversion. -/
def EndsOutside (format : Nat) (bs : List UInt8) (s : Printf) : Prop :=
  ∃ i ≤ bs.length, s.buf = format + i ∧ endsInConversion s.inside (bs.drop i) = false

theorem finished_at_end (h : m.HoldsString format bs) (hbuf : s.buf = format + bs.length)
    (hend : endsInConversion s.inside (bs.drop bs.length) = false) : s.Finished m := by
  rw [List.drop_length, endsInConversion] at hend
  exact ⟨by simpa [Printf.inside] using hend, by rw [hbuf, h.terminated]⟩

theorem EndsOutside.step {s' : Printf} (h : m.HoldsString format bs) (hs : EndsOutside format bs s)
    (hmore : ¬s.Finished m) (hstep : s.step m conv = some s') : EndsOutside format bs s' := by
  obtain ⟨i, hi, hbuf, hend⟩ := hs
  rcases Nat.lt_or_eq_of_le hi with hlt | rfl
  · obtain ⟨-, t, ht, hbuf', hend'⟩ := step_inside h hlt hbuf
    obtain rfl : t = s' := Option.some.inj (ht.symm.trans hstep)
    exact ⟨i + 1, hlt, hbuf', hend'.trans hend⟩
  · exact absurd (finished_at_end h hbuf hend) hmore

theorem loop_of_endsOutside (h : m.HoldsString format bs) {fuel : Nat} (hi : i ≤ bs.length)
    (hbuf : s.buf = format + i) (hend : endsInConversion s.inside (bs.drop i) = false)
    (hfuel : bs.length < fuel + i) :
    ∃ s', s.loop m conv fuel = some s' ∧ s'.buf = format + bs.length := by
  induction fuel generalizing s i with
  | zero => omega
  | succ fuel ih =>
      rw [Printf.loop]
      rcases Nat.lt_or_eq_of_le hi with hlt | rfl
      · obtain ⟨hmore, t, ht, hbuf', hend'⟩ := step_inside h hlt hbuf
        rw [if_neg hmore, ht]
        exact ih hlt hbuf' (hend'.trans hend) (by omega)
      · rw [if_pos (finished_at_end h hbuf hend)]
        exact ⟨s, rfl, hbuf⟩

/-- Inside a conversion the terminator is taken for its specifier, and the cursor moves past it. -/
theorem passes_terminator (h : m.HoldsString format bs) (hi : i ≤ bs.length) (hbuf : s.buf = format + i)
    (hend : endsInConversion s.inside (bs.drop i) = true) :
    ∃ s', PrintfReaches m conv s s' ∧ s'.buf = format + bs.length + 1 := by
  induction hleft : bs.length - i generalizing s i with
  | zero =>
      obtain rfl : i = bs.length := by omega
      rw [List.drop_length, endsInConversion] at hend
      have hplace : s.place ≠ .scan := by simpa [Printf.inside] using hend
      obtain ⟨s', hstep, hnext, -⟩ : ∃ s', s.step m conv = some s' ∧ s'.buf = s.buf + 1 ∧
        (s'.place = .scan ↔ if s.place = .scan then m s.buf ≠ 0x25 else m s.buf ≠ 0x23) :=
          Printf.step_moves conv
      exact ⟨s', .single ⟨fun hdone => hplace hdone.1, hstep⟩, by omega⟩
  | succ left ih =>
      obtain ⟨hmore, t, ht, hbuf', hend'⟩ := step_inside h (by omega) hbuf
      obtain ⟨s', hreach, hpast⟩ := ih (s := t) (i := i + 1) (by omega) hbuf' (hend'.trans hend) (by omega)
      exact ⟨s', .head ⟨hmore, ht⟩ hreach, hpast⟩

end Scan

/-- The cursor stays in the format exactly when the format does not end inside a conversion. -/
theorem printf_stays_in_format_iff (m conv : Mem) (format esp : Nat) (bs : List UInt8)
    (h : m.HoldsString format bs) :
    StaysInFormat m conv format esp bs ↔ endsInConversion false bs = false := by
  constructor
  · intro hstays
    by_contra hend
    obtain ⟨s, hreach, hpast⟩ := passes_terminator (s := ⟨.scan, format, esp, []⟩) h
      (Nat.zero_le _) rfl (Bool.eq_true_of_not_eq_false hend)
    have hbound := hstays.cursor s hreach
    omega
  · intro hend
    refine ⟨fun s hreach => ?_, fun fuel hfuel => ?_⟩
    · have hinv : EndsOutside format bs s := by
        induction hreach with
        | refl => exact ⟨0, Nat.zero_le _, rfl, hend⟩
        | tail _ hstep ih => exact ih.step h hstep.1 hstep.2
      obtain ⟨i, hi, hbuf, -⟩ := hinv
      omega
    · obtain ⟨s, hloop, hbuf⟩ := loop_of_endsOutside (s := ⟨.scan, format, esp, []⟩)
        h (Nat.zero_le _) rfl hend hfuel
      refine ⟨s, ?_⟩
      rw [Printf.printf, hloop]
      exact congrArg (fun n => some (s, n)) (by omega)

/-- A memory that holds only a string, from address 0 on. -/
theorem holdsString_str {bs : List UInt8} (h : 0 ∉ bs) : Mem.HoldsString (str bs) 0 bs := by
  refine ⟨h, fun i hi => ?_, ?_⟩
  · rw [Nat.zero_add, str, List.getD_eq_getElem _ _ hi]
  · rw [Nat.zero_add, str, List.getD_eq_default _ _ le_rfl]

/-- The format `%#x` -/
theorem printf_stays_in_format_iff_hex :
    StaysInFormat (str [0x25, 0x23, 0x78]) (fun _ => 0) 0 0x100 [0x25, 0x23, 0x78] :=
  (printf_stays_in_format_iff _ _ 0 0x100 _ (holdsString_str (by decide))).mpr (by decide)

/-- The format `100%` moves the cursor behind its terminator. -/
theorem trailing_percent_passes_terminator :
    ¬StaysInFormat (str [0x31, 0x30, 0x30, 0x25]) (fun _ => 0) 0 0x100 [0x31, 0x30, 0x30, 0x25] := by
  intro hstays
  have hholds : Mem.HoldsString (str [0x31, 0x30, 0x30, 0x25]) 0 [0x31, 0x30, 0x30, 0x25] :=
    holdsString_str (by decide)
  obtain ⟨s, hreach, hpast⟩ := passes_terminator (s := ⟨.scan, 0, 0x100, []⟩) hholds (Nat.zero_le _) rfl (by decide)
  have hbound := hstays.cursor s hreach
  omega

/-! ### Expansion -/

/-- A literal character, or a conversion with its modifiers. -/
inductive Piece where
  | lit (c : UInt8)
  | conv (hashes : Nat) (c : UInt8)

/-- How a piece is written in a format. -/
def Piece.bytes : Piece → List UInt8
  | .lit c => [c]
  | .conv hashes c => 0x25 :: (List.replicate hashes 0x23 ++ [c])

/-- A literal is not `%`, and a specifier is not the modifier; neither is NUL. -/
def Piece.Ok : Piece → Prop
  | .lit c => c ≠ 0 ∧ c ≠ 0x25
  | .conv _ c => c ≠ 0 ∧ c ≠ 0x23

def render (ps : List Piece) : List UInt8 := ps.flatMap Piece.bytes

/-- Whether a piece takes an argument. -/
def Piece.takes : Piece → Bool
  | .lit _ => false
  | .conv _ c => takesArg c

/-- What the pieces stand for, given their arguments and the strings at addresses. -/
def expand (text : Nat → List UInt8) : List Piece → List UInt32 → List UInt8
  | [], _ => []
  | .lit c :: ps, args => c :: expand text ps args
  | .conv hashes c :: ps, args =>
      if takesArg c then conversionText text (0 < hashes) c (args.headD 0) ++ expand text ps args.tail
      else plainText c ++ expand text ps args

theorem endsInConversion_bytes {p : Piece} (hok : p.Ok) (rest : List UInt8) :
    endsInConversion false (p.bytes ++ rest) = endsInConversion false rest := by
  cases p with
  | lit c =>
      have hc : (c == 0x25) = false := beq_eq_false_iff_ne.mpr hok.2
      rw [Piece.bytes, List.singleton_append, endsInConversion, hc]
  | conv hashes c =>
      have hc : (c == 0x23) = false := beq_eq_false_iff_ne.mpr hok.2
      have hskip : ∀ k, endsInConversion true (List.replicate k 0x23 ++ c :: rest) =
          endsInConversion false rest := by
        intro k
        induction k with
        | zero => rw [List.replicate_zero, List.nil_append, endsInConversion, hc]
        | succ k ih =>
            rw [List.replicate_succ, List.cons_append, endsInConversion]
            exact ih
      rw [Piece.bytes, List.cons_append, List.append_assoc, List.singleton_append, endsInConversion]
      exact hskip hashes

/-- The rest of a conversion that the format completes. -/
theorem conversion_of_inside {bs : List UInt8} (h : endsInConversion true bs = false) :
    ∃ hashes c rest, bs = List.replicate hashes 0x23 ++ c :: rest ∧ c ≠ 0x23 ∧
      endsInConversion false rest = false := by
  induction bs with
  | nil => exact absurd h (by decide)
  | cons b bs ih =>
      rw [endsInConversion] at h
      by_cases hb : b = 0x23
      · rw [hb] at h ⊢
        obtain ⟨hashes, c, rest, rfl, hc, hrest⟩ := ih h
        exact ⟨hashes + 1, c, rest, rfl, hc, hrest⟩
      · rw [beq_eq_false_iff_ne.mpr hb] at h
        exact ⟨0, b, bs, rfl, hb, h⟩

/-- The formats made of well-formed pieces are those that do not end inside a conversion. -/
theorem exists_pieces_iff {bs : List UInt8} (hplain : 0 ∉ bs) :
    (∃ ps, (∀ p ∈ ps, p.Ok) ∧ render ps = bs) ↔ endsInConversion false bs = false := by
  constructor
  · rintro ⟨ps, hok, rfl⟩
    clear hplain
    induction ps with
    | nil => rfl
    | cons p ps ih =>
        rw [render, List.flatMap_cons, endsInConversion_bytes (hok p List.mem_cons_self)]
        exact ih fun q hq => hok q (List.mem_cons_of_mem _ hq)
  · intro hend
    induction hlength : bs.length using Nat.strong_induction_on generalizing bs with
    | h n ih =>
        cases bs with
        | nil => exact ⟨[], by simp, rfl⟩
        | cons b bs =>
            have hb : b ≠ 0 := fun h0 => hplain (h0 ▸ List.mem_cons_self)
            have hplain' : 0 ∉ bs := fun h0 => hplain (List.mem_cons_of_mem _ h0)
            rw [endsInConversion] at hend
            rw [List.length_cons] at hlength
            by_cases hpercent : b = 0x25
            · rw [hpercent] at hend ⊢
              obtain ⟨hashes, c, rest, rfl, hc, hrest⟩ := conversion_of_inside hend
              simp only [List.mem_append, List.mem_cons, not_or] at hplain'
              obtain ⟨-, hc0, hplain''⟩ := hplain'
              obtain ⟨ps, hok, rfl⟩ := ih rest.length (by simp at hlength; omega) hplain'' hrest rfl
              refine ⟨.conv hashes c :: ps, ?_, ?_⟩
              · rintro p (_ | ⟨_, hp⟩)
                · exact ⟨Ne.symm hc0, hc⟩
                · exact hok p hp
              · simp [render, Piece.bytes]
            · rw [beq_eq_false_iff_ne.mpr hpercent] at hend
              obtain ⟨ps, hok, rfl⟩ := ih bs.length (by omega) hplain' hend rfl
              refine ⟨.lit b :: ps, ?_, ?_⟩
              · rintro p (_ | ⟨_, hp⟩)
                · exact ⟨hb, hpercent⟩
                · exact hok p hp
              · simp [render, Piece.bytes]

/-- The arguments that `%s` takes. -/
def stringArgs : List Piece → List UInt32 → List UInt32
  | [], _ => []
  | .lit _ :: ps, args => stringArgs ps args
  | .conv _ c :: ps, args =>
      if takesArg c then (if c = 0x73 then [args.headD 0] else []) ++ stringArgs ps args.tail
      else stringArgs ps args

/-- The strings that `%s` prints: NUL-terminated, in memory. -/
def HoldsStrings (m : Mem) (text : Nat → List UInt8) (addrs : List UInt32) : Prop :=
  ∀ v ∈ addrs, m.HoldsString v.toNat (text v.toNat) ∧ v.toNat + (text v.toNat).length < 2 ^ 32

/-- The arguments lie on the stack one word after the other. -/
def HoldsArgs (m : Mem) (esp : Nat) (args : List UInt32) : Prop :=
  ∀ i (h : i < args.length), m.load32 (esp + 4 * i) = args[i].toNat

theorem HoldsArgs.head {m : Mem} {esp : Nat} {v : UInt32} {args : List UInt32} (h : HoldsArgs m esp (v :: args)) :
    UInt32.ofNat (m.load32 esp) = v := by
  have hfirst : m.load32 esp = v.toNat := h 0 (Nat.succ_pos _)
  rw [hfirst, UInt32.ofNat_toNat]

theorem HoldsArgs.tail {m : Mem} {esp : Nat} {v : UInt32} {args : List UInt32} (h : HoldsArgs m esp (v :: args)) :
    HoldsArgs m (esp + 4) args := by
  intro i hi
  have hnext := h (i + 1) (by rw [List.length_cons]; omega)
  rw [List.getElem_cons_succ] at hnext
  rw [← hnext]
  congr 1
  omega

theorem conversionText_puts {m : Mem} {text : Nat → List UInt8} {c : UInt8} {v : UInt32} (alternate : Bool)
    (h : c = 0x73 → puts m v.toNat = text v.toNat) (htakes : takesArg c = true) :
    conversionText (puts m) alternate c v = conversionText text alternate c v := by
  simp only [takesArg, List.mem_cons, List.not_mem_nil, or_false, decide_eq_true_eq] at htakes
  rw [conversionText, conversionText]
  split_ifs with hx _ hu hd hc
  · rfl
  · rfl
  · rfl
  · rfl
  · rfl
  · obtain hs : c = 0x73 := by tauto
    exact h hs

namespace Printf

variable {m : Mem} (conv : Mem)

theorem loop_step {s s' : Printf} (fuel : Nat) (hmore : ¬s.Finished m) (hstep : s.step m conv = some s') :
    loop m conv (fuel + 1) s = loop m conv fuel s' := by
  rw [loop, if_neg hmore, hstep, Option.bind_some]

theorem loop_modifiers {b : Nat} (hashes fuel : Nat) (alternate : Bool) (esp : Nat) (out : List UInt8)
    (h : ∀ i < hashes, m (b + i) = 0x23) :
    loop m conv (fuel + hashes) ⟨.convert alternate, b, esp, out⟩ =
      loop m conv fuel ⟨.convert (alternate || decide (0 < hashes)), b + hashes, esp, out⟩ := by
  induction hashes generalizing b alternate with
  | zero => simp
  | succ hashes ih =>
      have hfirst : m b = 0x23 := h 0 (Nat.succ_pos _)
      have hrest : ∀ i < hashes, m (b + 1 + i) = 0x23 := by
        intro i hi
        rw [Nat.add_assoc, Nat.add_comm 1 i]
        exact h (i + 1) (by omega)
      have hmore : ¬Finished m ⟨.convert alternate, b, esp, out⟩ := fun hdone => absurd hdone.1 (by simp)
      have hstep : step m conv ⟨.convert alternate, b, esp, out⟩ = some ⟨.convert true, b + 1, esp, out⟩ :=
        convert_modifier conv (s := ⟨.convert alternate, b, esp, out⟩) alternate hfirst
      rw [← Nat.add_assoc, loop_step conv _ hmore hstep, ih true hrest]
      congr 2
      · simp
      · omega

theorem loop_lit {c : UInt8} {a : Nat} (fuel esp : Nat) (out : List UInt8) (hok : (Piece.lit c).Ok)
    (h : m a = c) :
    loop m conv (fuel + 1) ⟨.scan, a, esp, out⟩ = loop m conv fuel ⟨.scan, a + 1, esp, out ++ [c]⟩ := by
  apply loop_step conv fuel
  · exact fun hdone => hok.1 (h.symm.trans hdone.2)
  · rw [step, h]
    exact if_neg hok.2

theorem loop_conv {hashes : Nat} {c : UInt8} {a : Nat} (fuel esp : Nat) (out : List UInt8)
    (hpercent : m a = 0x25) (hhashes : ∀ i < hashes, m (a + 1 + i) = 0x23) (hspec : m (a + 1 + hashes) = c)
    (hok : (Piece.conv hashes c).Ok) :
    loop m conv (fuel + hashes + 2) ⟨.scan, a, esp, out⟩ =
      loop m conv fuel (if takesArg c
        then ⟨.scan, a + hashes + 2, esp + 4, out ++
          conversionText (puts m) (0 < hashes) c (UInt32.ofNat (m.load32 esp))⟩
        else ⟨.scan, a + hashes + 2, esp, out ++ plainText c⟩) := by
  have hmore : ¬Finished m ⟨.scan, a, esp, out⟩ := by
    intro hdone
    exact absurd (hpercent.symm.trans hdone.2) (by decide)
  have hstep : step m conv ⟨.scan, a, esp, out⟩ = some ⟨.convert false, a + 1, esp, out⟩ := if_pos hpercent
  have hinside : ∀ alternate, ¬Finished m ⟨.convert alternate, a + 1 + hashes, esp, out⟩ :=
    fun alternate hdone => absurd hdone.1 (by simp)
  rw [show fuel + hashes + 2 = fuel + 1 + hashes + 1 by omega, loop_step conv _ hmore hstep,
    loop_modifiers conv hashes (fuel + 1) false esp out hhashes, Bool.false_or]
  have hbuf : a + 1 + hashes + 1 = a + hashes + 2 := by omega
  by_cases htakes : takesArg c = true
  · have hconv := convert_takes conv (s := ⟨.convert (decide (0 < hashes)), a + 1 + hashes, esp, out⟩)
      (decide (0 < hashes)) (hspec ▸ htakes)
    rw [loop_step conv _ (hinside _) hconv, if_pos htakes, hspec, take, hbuf]
  · have hconv := convert_plain conv (s := ⟨.convert (decide (0 < hashes)), a + 1 + hashes, esp, out⟩)
      (decide (0 < hashes)) (hspec ▸ hok.2) (hspec ▸ Bool.eq_false_of_not_eq_true htakes)
    rw [loop_step conv _ (hinside _) hconv, if_neg htakes, hspec, pass, hbuf]

end Printf

theorem HoldsString.drop_append {m : Mem} {a : Nat} {xs ys : List UInt8} (h : m.HoldsString a (xs ++ ys)) :
    m.HoldsString (a + xs.length) ys := by
  induction xs generalizing a with
  | nil => exact h
  | cons x xs ih =>
      have hrest := ih h.tail
      rwa [List.length_cons, Nat.add_comm xs.length 1, ← Nat.add_assoc]

theorem HoldsString.byte_append {m : Mem} {a i : Nat} {xs ys : List UInt8} (h : m.HoldsString a (xs ++ ys))
    (hi : i < xs.length) : m (a + i) = xs[i] := by
  rw [h.bytes i (by rw [List.length_append]; omega), List.getElem_append_left hi]

theorem HoldsString.conversion {m : Mem} {a hashes : Nat} {c : UInt8} {rest : List UInt8}
    (h : m.HoldsString a ((Piece.conv hashes c).bytes ++ rest)) :
    m a = 0x25 ∧ (∀ i < hashes, m (a + 1 + i) = 0x23) ∧ m (a + 1 + hashes) = c := by
  have hlength : (Piece.conv hashes c).bytes.length = hashes + 2 := by simp [Piece.bytes]
  refine ⟨HoldsString.byte_append h (i := 0) (by omega), fun i hi => ?_, ?_⟩
  · have hbyte := HoldsString.byte_append h (i := 1 + i) (by omega)
    rw [← Nat.add_assoc] at hbyte
    rw [hbyte]
    simp only [Piece.bytes, Nat.add_comm 1 i, List.getElem_cons_succ]
    rw [List.getElem_append_left (by simpa using hi), List.getElem_replicate]
  · have hbyte := HoldsString.byte_append h (i := 1 + hashes) (by omega)
    rw [← Nat.add_assoc] at hbyte
    rw [hbyte]
    simp [Piece.bytes, Nat.add_comm 1 hashes]

/-- The number of arguments that the pieces take. -/
def argsUsed (ps : List Piece) : Nat := ps.countP Piece.takes

theorem loop_pieces {m : Mem} (conv : Mem) {text : Nat → List UInt8} {ps : List Piece} {args : List UInt32}
    {fuel a esp : Nat} (out : List UInt8) (hok : ∀ p ∈ ps, p.Ok) (hformat : m.HoldsString a (render ps))
    (hused : argsUsed ps ≤ args.length) (hargs : HoldsArgs m esp args)
    (hstrings : HoldsStrings m text (stringArgs ps args)) (hfuel : (render ps).length < fuel) :
    Printf.loop m conv fuel ⟨.scan, a, esp, out⟩ =
      some ⟨.scan, a + (render ps).length, esp + 4 * argsUsed ps, out ++ expand text ps args⟩ := by
  induction ps generalizing args fuel a esp out with
  | nil =>
      obtain ⟨k, rfl⟩ : ∃ k, fuel = k + 1 := ⟨fuel - 1, by omega⟩
      have hdone : Printf.Finished m ⟨.scan, a, esp, out⟩ := ⟨rfl, by simpa [render] using hformat.terminated⟩
      rw [Printf.loop, if_pos hdone]
      simp [render, argsUsed, expand]
  | cons p ps ih =>
      have hsplit : render (p :: ps) = p.bytes ++ render ps := List.flatMap_cons
      rw [hsplit] at hformat hfuel ⊢
      rw [List.length_append] at hfuel ⊢
      have hrest := HoldsString.drop_append hformat
      have hok' : ∀ q ∈ ps, q.Ok := fun q hq => hok q (List.mem_cons_of_mem _ hq)
      have hokp : p.Ok := hok p List.mem_cons_self
      cases p with
      | lit c =>
          obtain ⟨k, rfl⟩ : ∃ k, fuel = k + 1 := ⟨fuel - 1, by omega⟩
          have hbyte : m a = c := HoldsString.byte_append hformat (i := 0) Nat.one_pos
          have hused' : argsUsed (.lit c :: ps) = argsUsed ps := List.countP_cons_of_neg (by simp [Piece.takes])
          rw [hused'] at hused ⊢
          have hlength : (Piece.lit c).bytes.length = 1 := rfl
          rw [hlength] at hrest hfuel ⊢
          rw [Printf.loop_lit conv k esp out hokp hbyte, ih (out ++ [c]) hok' hrest hused hargs hstrings (by omega),
            expand, List.append_assoc, List.singleton_append, Nat.add_assoc]
      | conv hashes c =>
          have hlength : (Piece.conv hashes c).bytes.length = hashes + 2 := by simp [Piece.bytes]
          rw [hlength] at hrest hfuel ⊢
          obtain ⟨k, rfl⟩ : ∃ k, fuel = k + hashes + 2 := ⟨fuel - hashes - 2, by omega⟩
          obtain ⟨hpercent, hhashes, hspec⟩ := HoldsString.conversion hformat
          rw [Printf.loop_conv conv k esp out hpercent hhashes hspec hokp]
          by_cases htakes : takesArg c = true
          · have hused' : argsUsed (.conv hashes c :: ps) = argsUsed ps + 1 := List.countP_cons_of_pos htakes
            rw [hused'] at hused ⊢
            cases args with
            | nil => exact absurd hused (by simp)
            | cons v args =>
                rw [stringArgs, if_pos htakes] at hstrings
                have hstrings' : HoldsStrings m text (stringArgs ps args) :=
                  fun w hw => hstrings w (List.mem_append_right _ hw)
                have htext : c = 0x73 → puts m v.toNat = text v.toNat := by
                  intro hs
                  obtain ⟨hholds, hfits⟩ := hstrings v (List.mem_append_left _ (by simp [hs]))
                  exact puts_eq hholds hfits
                rw [if_pos htakes, hargs.head, conversionText_puts _ htext htakes, Nat.add_assoc a,
                  ih _ hok' hrest (by simpa using hused) hargs.tail hstrings' (by omega), expand, if_pos htakes,
                  List.append_assoc]
                congr 2
                · omega
                · omega
          · have hused' : argsUsed (.conv hashes c :: ps) = argsUsed ps := List.countP_cons_of_neg htakes
            rw [hused'] at hused ⊢
            rw [stringArgs, if_neg htakes] at hstrings
            rw [if_neg htakes, Nat.add_assoc a, ih _ hok' hrest hused hargs hstrings (by omega), expand,
              if_neg htakes, List.append_assoc, Nat.add_assoc]

/-- A format that does not end inside a conversion is made of literals and conversions, and `printf` prints
what they stand for, takes one argument for each `x`, `u`, `d`, `c` and `s`, and returns the length. -/
theorem printf_expands (m conv : Mem) (format esp : Nat) (bs : List UInt8) (hformat : m.HoldsString format bs)
    (hwell : endsInConversion false bs = false) :
    (∃ ps, (∀ p ∈ ps, p.Ok) ∧ render ps = bs) ∧
    ∀ ps, (∀ p ∈ ps, p.Ok) → render ps = bs →
      ∀ (text : Nat → List UInt8) (args : List UInt32), argsUsed ps ≤ args.length → HoldsArgs m esp args →
        HoldsStrings m text (stringArgs ps args) → ∀ fuel > bs.length, Printf.printf fuel m conv format esp =
          some (⟨.scan, format + bs.length, esp + 4 * argsUsed ps, expand text ps args⟩, bs.length) := by
  refine ⟨(exists_pieces_iff hformat.plain).mpr hwell, ?_⟩
  rintro ps hok rfl text args hused hargs hstrings fuel hfuel
  rw [Printf.printf, loop_pieces conv [] hok hformat hused hargs hstrings hfuel]
  simp

/-- A memory with the format `%d` at address 0 and the word `2^31` at address `0x100`. -/
def lowestMem : Mem := fun a => if a = 0 then 0x25 else if a = 1 then 0x64 else if a = 0x103 then 0x80 else 0

/-- The smallest integer, whose negation overflows. -/
theorem printf_expands_lowest :
    Printf.printf 3 lowestMem (fun _ => 0xFF) 0 0x100 =
      some (⟨.scan, 2, 0x104, [0x2D, 0x32, 0x31, 0x34, 0x37, 0x34, 0x38, 0x33, 0x36, 0x34, 0x38]⟩, 2) := by
  have hformat : lowestMem.HoldsString 0 (render [.conv 0 0x64]) := ⟨by decide, by decide, by decide⟩
  have hargs : HoldsArgs lowestMem 0x100 [0x80000000] := by
    intro i hi
    obtain rfl : i = 0 := by simpa using hi
    change lowestMem.load32 0x100 = 0x80000000
    decide
  have hrun := (printf_expands lowestMem (fun _ => 0xFF) 0 0x100 _ hformat (by decide)).2 [.conv 0 0x64]
    (by simp [Piece.Ok]) rfl (fun _ => []) [0x80000000] (by decide) hargs
    (by simp [stringArgs, takesArg, HoldsStrings]) 3 (by decide)
  have hdecimal : expand (fun _ => []) [.conv 0 0x64] [0x80000000] =
      [0x2D, 0x32, 0x31, 0x34, 0x37, 0x34, 0x38, 0x33, 0x36, 0x34, 0x38] := by decide
  rw [hrun, hdecimal]
  rfl

end UnixOs
