import UnixOs.CString

/-! `do_one_file` of the user program `grep`. The file is read in chunks behind a partial line kept at the
start of the buffer; strings are the bytes before their terminator. -/

namespace UnixOs.Grep

/-- `BUFSIZE`; the buffer has one byte more. -/
def bufSize : Nat := 1024

/-- What was written, in order, with the descriptor of each write. -/
abbrev Writes := List (Nat × List UInt8)

/-- `ece391_fdputs` -/
def ece391Fdputs (out : Writes) (fd : Nat) (s : List UInt8) : Writes := out ++ [(fd, s)]

def literal (text : String) : List UInt8 := text.toUTF8.toList

/-- `ece391_strcpy`, of at most `n` bytes when there is no terminator before. -/
def ece391Strcpy (m : Mem) (dst src : Nat) : Nat → Mem
  | 0 => m
  | n + 1 =>
      if m src = 0 then m.writeBytes dst [m src]
      else ece391Strcpy (m.writeBytes dst [m src]) (dst + 1) (src + 1) n

/-- `ece391_strncmp`; the bytes are unsigned here. -/
def ece391Strncmp (s1 s2 : Nat → UInt8) : Nat → Int
  | 0 => 0
  | n + 1 =>
      if s1 0 = s2 0 then
        if s1 0 = 0 ∨ n = 0 then 0 else ece391Strncmp (fun i => s1 (i + 1)) (fun i => s2 (i + 1)) n
      else ((s1 0).toNat : Int) - (s2 0).toNat

/-- The system calls on a file; `none` stands for the result `-1` of `open` and `read`. -/
structure FileCalls (ρ : Type) where
  openFile : Option ρ
  read : ρ → Nat → Option (List UInt8 × ρ)
  close : ρ → Int

/-- The locals `data` and `last` of `do_one_file`, and what it has written. -/
structure Scan where
  data : Mem
  last : Nat
  out : Writes

/-- `while (line_end < last && '\n' != data[line_end]) line_end++;` -/
def lineEnd (data : Mem) (last i : Nat) : Nat :=
  if i < last ∧ data i ≠ 0x0A then lineEnd data last (i + 1) else i
termination_by last - i

theorem le_lineEnd (data : Mem) (last i : Nat) : i ≤ lineEnd data last i := by
  fun_induction lineEnd data last i with
  | case1 i _ ih => exact (Nat.le_succ i).trans ih
  | case2 i _ => exact le_rfl

/-- The loop over `check`, with `n` places to go. The comparison of the first bytes is of a `char`, which is
signed on the target, with a `uint8_t`. -/
def lineMatches (s : List UInt8) (data : Mem) (check : Nat) : Nat → Bool
  | 0 => false
  | n + 1 =>
      if (str s 0).toInt8.toInt = (data check).toNat ∧
          ece391Strncmp (fun i => data (check + i)) (str s) s.length = 0 then true
      else lineMatches s data (check + 1) n

/-- The search of one line and its report. -/
def searchLine (s fname : List UInt8) (data : Mem) (lineStart lineEnd : Nat) (out : Writes) : Writes :=
  if lineMatches s data lineStart (lineEnd - lineStart) then
    ece391Fdputs (ece391Fdputs (ece391Fdputs (ece391Fdputs out 1 fname) 1 (literal ":")) 1
      (data.cstr lineStart (bufSize + 1 - lineStart))) 1 (literal "\n")
  else out

/-- The inner loop, over the lines in the buffer. -/
def lineLoop (s fname : List UInt8) (cnt : Nat) (t : Scan) (lineStart : Nat) : Scan :=
  if t.data (lineEnd t.data t.last lineStart) ≠ 0x0A ∧ cnt ≠ 0 ∧ lineStart ≠ 0 then
    { t with
      data := ece391Strcpy (t.data.writeBytes (lineEnd t.data t.last lineStart) [0]) 0 lineStart
        (bufSize + 1 - lineStart)
      last := t.last - lineStart }
  else
    let t' : Scan :=
      { t with
        data := t.data.writeBytes (lineEnd t.data t.last lineStart) [0]
        out := searchLine s fname (t.data.writeBytes (lineEnd t.data t.last lineStart) [0]) lineStart
          (lineEnd t.data t.last lineStart) t.out }
    if t.last ≤ lineEnd t.data t.last lineStart + 1 then { t' with last := 0 }
    else lineLoop s fname cnt t' (lineEnd t.data t.last lineStart + 1)
termination_by t.last - lineStart
decreasing_by
  have := le_lineEnd t.data t.last lineStart
  omega

/-- `ece391_close` and the result. -/
def closeFile {ρ : Type} (calls : FileCalls ρ) (fd : ρ) (out : Writes) : Int × Writes :=
  if calls.close fd = -1 then (-1, ece391Fdputs out 1 (literal "file close failed\n")) else (0, out)

/-- The bytes of a read, stored at `data + last`, and `last += cnt`. -/
def Scan.fill (t : Scan) (bytes : List UInt8) : Scan :=
  { t with data := t.data.writeBytes t.last bytes, last := t.last + bytes.length }

/-- The outer loop, for at most `fuel` reads. -/
def fileLoop {ρ : Type} (calls : FileCalls ρ) (s fname : List UInt8) : Nat → ρ → Scan → Option (Int × Writes)
  | 0, _, _ => none
  | fuel + 1, fd, t =>
      match calls.read fd (bufSize - t.last) with
      | none => some (-1, ece391Fdputs t.out 1 (literal "file read failed\n"))
      | some (bytes, fd') =>
          let t' := lineLoop s fname bytes.length (t.fill bytes) 0
          if bytes.length = 0 then some (closeFile calls fd' t'.out) else fileLoop calls s fname fuel fd' t'

/-- `do_one_file`, with the result and the writes; `data` is the buffer before it is first written. -/
def doOneFile {ρ : Type} (calls : FileCalls ρ) (s fname : List UInt8) (data : Mem) (fuel : Nat) :
    Option (Int × Writes) :=
  match calls.openFile with
  | none => some (-1, ece391Fdputs [] 1 (literal "file open failed\n"))
  | some fd => fileLoop calls s fname fuel fd ⟨data, 0, []⟩

/-- A file whose reads return the bytes asked for, in order, as long as there are any. -/
def wholeFile (file : List UInt8) : FileCalls (List UInt8) where
  openFile := some file
  read rest n := some (rest.take n, rest.drop n)
  close _ := 0

/-! ### What grep is for -/

def reportLine (fname line : List UInt8) : Writes :=
  [(1, fname), (1, literal ":"), (1, line), (1, literal "\n")]

/-- The report of the lines of a text that satisfy `found`. -/
def reportLines (found : List UInt8 → Prop) [DecidablePred found] (fname text : List UInt8) : Writes :=
  ((text.splitOn 0x0A).filter fun line => found line).flatMap (reportLine fname)

/-- The lines the search finds: its first comparison holds for no byte from `0x80` on. -/
def Found (s line : List UInt8) : Prop := str s 0 < 0x80 ∧ s <:+: line

instance (s line : List UInt8) : Decidable (Found s line) := inferInstanceAs (Decidable (_ ∧ _))

/-- No line is longer than the buffer holds. -/
def ShortLines (text : List UInt8) : Prop := ∀ line ∈ text.splitOn 0x0A, line.length < bufSize

section

variable {found : List UInt8 → Prop} [DecidablePred found] {fname line : List UInt8}

theorem reportLines_line (hline : 0x0A ∉ line) :
    reportLines found fname line = if found line then reportLine fname line else [] := by
  rw [reportLines, List.splitOn_eq_singleton hline]
  split_ifs with hfound
  · simp [hfound]
  · simp [hfound]

theorem reportLines_append (hline : 0x0A ∉ line) (rest : List UInt8) :
    reportLines found fname (line ++ 0x0A :: rest) =
      reportLines found fname line ++ reportLines found fname rest := by
  simp only [reportLines]
  rw [List.splitOn_append_cons_self_of_not_mem hline, List.splitOn_eq_singleton hline, ← List.flatMap_append,
    ← List.filter_append, List.singleton_append]

theorem reportLines_nil {s : List UInt8} (hpat : s ≠ []) : reportLines (Found s) fname [] = [] := by
  rw [reportLines_line List.not_mem_nil, if_neg]
  intro hfound
  exact hpat (List.infix_nil.mp hfound.2)

theorem ShortLines.tail {line rest : List UInt8} (hline : 0x0A ∉ line)
    (h : ShortLines (line ++ 0x0A :: rest)) : ShortLines rest := by
  intro l hl
  apply h l
  rw [List.splitOn_append_cons_self_of_not_mem hline]
  exact List.mem_cons_of_mem _ hl

theorem ShortLines.length_lt {line : List UInt8} (hline : 0x0A ∉ line) (rest : List UInt8)
    (h : ShortLines (line ++ rest)) : line.length < bufSize := by
  by_cases hrest : 0x0A ∈ rest
  · obtain ⟨before, after, rfl, hbefore⟩ := List.eq_append_cons_of_mem hrest
    have hall : 0x0A ∉ line ++ before := by
      rw [List.mem_append]
      exact fun hmem => hmem.elim hline hbefore
    have hlength := h (line ++ before) (by
      rw [← List.append_assoc, List.splitOn_append_cons_self_of_not_mem hall]
      exact List.mem_cons_self)
    rw [List.length_append] at hlength
    exact (Nat.le_add_right _ _).trans_lt hlength
  · have hall : 0x0A ∉ line ++ rest := by
      rw [List.mem_append]
      exact fun hmem => hmem.elim hline hrest
    have hlength := h (line ++ rest) (by
      rw [List.splitOn_eq_singleton hall]
      exact List.mem_singleton_self _)
    rw [List.length_append] at hlength
    exact (Nat.le_add_right _ _).trans_lt hlength

end

/-- A byte as a signed `char` equals a byte as a `uint8_t` only below `0x80`. -/
theorem toInt8_eq_toNat_iff (b c : UInt8) : b.toInt8.toInt = (c.toNat : Int) ↔ b < 0x80 ∧ b = c := by
  have hsigned : b.toInt8.toInt = if 2 * b.toNat < 2 ^ 8 then (b.toNat : Int) else (b.toNat : Int) - 2 ^ 8 :=
    BitVec.toInt_eq_toNat_cond b.toBitVec
  rw [hsigned, UInt8.lt_iff_toNat_lt, ← UInt8.toNat_inj]
  have hb := b.toNat_lt
  have hc := c.toNat_lt
  have hbound : (0x80 : UInt8).toNat = 128 := rfl
  split_ifs <;> omega

/-- The comparison of the bytes at an address with the pattern. -/
theorem ece391Strncmp_eq_zero_iff {data : Mem} {a : Nat} {s line : List UInt8} (hs : 0 ∉ s)
    (h : data.HoldsString a line) :
    ece391Strncmp (fun i => data (a + i)) (str s) s.length = 0 ↔ s <+: line := by
  induction s generalizing a line with
  | nil => simp [ece391Strncmp]
  | cons b s ih =>
      have hb : b ≠ 0 := fun hb => hs (hb ▸ List.mem_cons_self)
      have hs' : 0 ∉ s := fun hmem => hs (List.mem_cons_of_mem _ hmem)
      have hshift : (fun i => data (a + (i + 1))) = fun i => data (a + 1 + i) := by
        funext i
        rw [Nat.add_assoc, Nat.add_comm 1 i]
      have htail : (fun i => str (b :: s) (i + 1)) = str s := rfl
      have hhead : str (b :: s) 0 = b := rfl
      rw [List.length_cons, ece391Strncmp, hshift, htail, hhead, Nat.add_zero]
      cases line with
      | nil =>
          have hzero : data a = 0 := h.terminated
          rw [hzero, if_neg hb.symm, Int.sub_eq_zero, Int.natCast_inj, UInt8.toNat_inj]
          simp [hb.symm]
      | cons c line =>
          have hfirst : data a = c := h.bytes 0 (Nat.succ_pos _)
          have hc : c ≠ 0 := fun hc => h.plain (hc ▸ List.mem_cons_self)
          rw [hfirst, List.cons_prefix_cons]
          by_cases heq : c = b
          · rw [if_pos heq]
            by_cases hlast : s.length = 0
            · rw [if_pos (.inr hlast), List.length_eq_zero_iff.mp hlast]
              simp [heq]
            · rw [if_neg (by simp [hc, hlast]), ih hs' h.tail]
              simp [heq]
          · rw [if_neg heq, Int.sub_eq_zero, Int.natCast_inj, UInt8.toNat_inj]
            simp [heq, Ne.symm heq]

theorem lineMatches_iff {data : Mem} {a : Nat} {s line : List UInt8} (hpat : s ≠ []) (hs : 0 ∉ s)
    (h : data.HoldsString a line) : lineMatches s data a line.length = true ↔ Found s line := by
  induction line generalizing a with
  | nil => simp [lineMatches, Found, hpat]
  | cons b line ih =>
      have hfirst : data a = b := h.bytes 0 (Nat.succ_pos _)
      rw [List.length_cons, lineMatches, Found, List.infix_cons_iff]
      simp only [ece391Strncmp_eq_zero_iff hs h, hfirst, toInt8_eq_toNat_iff]
      have hprefixed : s <+: b :: line → str s 0 = b := by
        intro hstart
        obtain ⟨c, s', rfl⟩ := List.exists_cons_of_ne_nil hpat
        exact (List.cons_prefix_cons.mp hstart).1
      by_cases hmatch : s <+: b :: line
      · by_cases hlow : str s 0 < 0x80
        · rw [if_pos ⟨⟨hlow, hprefixed hmatch⟩, hmatch⟩]
          simp [hlow, hmatch]
        · rw [if_neg fun hc => hlow hc.1.1, ih h.tail, Found]
          simp [hlow]
      · rw [if_neg fun hc => hmatch hc.2, ih h.tail, Found]
        simp [hmatch]

theorem searchLine_eq {data : Mem} {a : Nat} {s fname line : List UInt8} (hpat : s ≠ []) (hs : 0 ∉ s)
    (hline : 0x0A ∉ line) (h : data.HoldsString a line) (hfits : a + line.length ≤ bufSize) (out : Writes) :
    searchLine s fname data a (a + line.length) out = out ++ reportLines (Found s) fname line := by
  rw [searchLine, Nat.add_sub_cancel_left, reportLines_line hline, h.cstr_eq (by omega)]
  by_cases hfound : Found s line
  · rw [if_pos ((lineMatches_iff hpat hs h).mpr hfound), if_pos hfound]
    simp only [ece391Fdputs, reportLine, List.append_assoc, List.cons_append, List.nil_append]
  · rw [if_neg fun hc => hfound ((lineMatches_iff hpat hs h).mp hc), if_neg hfound, List.append_nil]

/-! ### The lines of the buffer -/

theorem lineEnd_line (data : Mem) {last i : Nat} (h : i ≤ last) :
    ∃ line : List UInt8, lineEnd data last i = i + line.length ∧ i + line.length ≤ last ∧ 0x0A ∉ line ∧
      data.readBytes i line.length = line ∧ (i + line.length < last → data (i + line.length) = 0x0A) := by
  fun_induction lineEnd data last i with
  | case1 i hgo ih =>
      obtain ⟨line, hend, hle, hline, hbytes, hstop⟩ := ih hgo.1
      have hshift : i + 1 + line.length = i + (data i :: line).length := by
        rw [List.length_cons]
        omega
      rw [hshift] at hend hle hstop
      refine ⟨data i :: line, hend, hle, ?_, ?_, hstop⟩
      · rw [List.mem_cons]
        exact fun hmem => hmem.elim (fun heq => hgo.2 heq.symm) hline
      · rw [List.length_cons, Mem.readBytes_succ, hbytes]
  | case2 i hstop =>
      refine ⟨[], rfl, h, List.not_mem_nil, rfl, ?_⟩
      intro hlt
      by_contra hne
      exact hstop ⟨hlt, hne⟩

theorem holdsString_terminate {data : Mem} {a : Nat} {line : List UInt8} (hplain : 0 ∉ line)
    (hbytes : data.readBytes a line.length = line) :
    (data.writeBytes (a + line.length) [0]).HoldsString a line := by
  refine ⟨hplain, fun i hi => ?_, Mem.writeBytes_here _ _ _⟩
  rw [Mem.writeBytes_of_outside (.inl (Nat.add_lt_add_left hi a)), Mem.byte_of_readBytes hbytes hi, str,
    List.getD_eq_getElem _ _ hi]

/-- A copy to a lower address, the ranges overlapping or not. -/
theorem ece391Strcpy_eq {m : Mem} {dst src n : Nat} {bs : List UInt8} (h : m.HoldsString src bs)
    (hlow : dst ≤ src) (hn : bs.length < n) : ece391Strcpy m dst src n = m.writeBytes dst (bs ++ [0]) := by
  induction bs generalizing m dst src n with
  | nil =>
      obtain ⟨k, rfl⟩ : ∃ k, n = k + 1 := ⟨n - 1, by rw [List.length_nil] at hn; omega⟩
      have hzero : m src = 0 := h.terminated
      rw [ece391Strcpy, if_pos hzero, hzero, List.nil_append]
  | cons b bs ih =>
      rw [List.length_cons] at hn
      obtain ⟨k, rfl⟩ : ∃ k, n = k + 1 := ⟨n - 1, by omega⟩
      have hfirst : m src = b := h.bytes 0 (Nat.succ_pos _)
      have hb : b ≠ 0 := fun hb => h.plain (hb ▸ List.mem_cons_self)
      have hrest : (m.writeBytes dst [b]).HoldsString (src + 1) bs := by
        apply h.tail.congr
        intro i _
        exact Mem.writeBytes_of_outside (.inr (by rw [List.length_singleton]; omega))
      rw [ece391Strcpy, hfirst, if_neg hb, ih hrest (by omega) (by omega)]
      exact Mem.writeBytes_append m dst [b] (bs ++ [0])

/-- The bytes kept at the start of the buffer. -/
def Scan.pending (t : Scan) : List UInt8 := t.data.readBytes 0 t.last

/-- The buffer before a read, `rest` being what is left of the file. -/
structure Ready (rest : List UInt8) (t : Scan) : Prop where
  fits : t.last < bufSize
  plain : 0 ∉ t.pending
  guard : t.data bufSize ≠ 0x0A
  short : ShortLines (t.pending ++ rest)

/-- The buffer is empty when nothing of a line is left over. -/
theorem ready_empty {rest : List UInt8} {t : Scan} (hlast : t.last = 0) (hguard : t.data bufSize ≠ 0x0A)
    (hshort : ShortLines rest) : Ready rest t := by
  have hpending : t.pending = [] := by
    rw [Scan.pending, hlast]
    rfl
  refine ⟨?_, ?_, hguard, ?_⟩
  · rw [hlast]
    exact Nat.succ_pos _
  · rw [hpending]
    exact List.not_mem_nil
  · rw [hpending]
    exact hshort

theorem shortLines_nil : ShortLines [] := by
  intro line hline
  rw [List.splitOn_nil, List.mem_singleton] at hline
  rw [hline]
  exact Nat.succ_pos _

/-- The bytes of the buffer from a line on. -/
def Scan.segment (t : Scan) (lineStart : Nat) : List UInt8 := t.data.readBytes lineStart (t.last - lineStart)

/-- The inner loop at the start of a line, after a read of `cnt` bytes that left `rest`. -/
structure Scanning (rest : List UInt8) (cnt : Nat) (t : Scan) (lineStart : Nat) : Prop where
  inside : lineStart ≤ t.last
  fits : t.last ≤ bufSize
  plain : 0 ∉ t.segment lineStart
  guard : t.data bufSize ≠ 0x0A
  short : ShortLines (t.segment lineStart ++ rest)
  drained : t.last < bufSize → rest = []
  ended : cnt = 0 → rest = []

/-- What the inner loop leaves: the reports made and those still to come are the reports of the text. -/
structure Scanned (s fname rest : List UInt8) (cnt : Nat) (reports : Writes) (t' : Scan) : Prop where
  ready : Ready rest t'
  ended : cnt = 0 → t'.last = 0
  written : t'.out ++ reportLines (Found s) fname (t'.pending ++ rest) = reports

section

variable {s fname rest line : List UInt8} {cnt lineStart : Nat} {t : Scan}

/-- The line found and what follows its newline. -/
theorem segment_of_newline (hend : lineStart + line.length < t.last)
    (hbytes : t.data.readBytes lineStart line.length = line)
    (hnewline : t.data (lineStart + line.length) = 0x0A) :
    t.segment lineStart = line ++ 0x0A :: t.segment (lineStart + line.length + 1) := by
  have hcount : t.last - lineStart = line.length + (t.last - (lineStart + line.length + 1) + 1) := by omega
  rw [Scan.segment, hcount, Mem.readBytes_add, hbytes, Mem.readBytes_succ, hnewline, Scan.segment]

theorem segment_of_end (hend : lineStart + line.length = t.last)
    (hbytes : t.data.readBytes lineStart line.length = line) : t.segment lineStart = line := by
  rw [Scan.segment, ← hend, Nat.add_sub_cancel_left, hbytes]

/-- Without a newline up to `last` the text ends there, unless the line is moved. -/
theorem Scanning.rest_nil (h : Scanning rest cnt t lineStart) (hline : 0x0A ∉ line)
    (hend : lineStart + line.length = t.last) (hbytes : t.data.readBytes lineStart line.length = line)
    (hstay : ¬ (t.data t.last ≠ 0x0A ∧ cnt ≠ 0 ∧ lineStart ≠ 0)) : rest = [] := by
  by_cases hcnt : cnt = 0
  · exact h.ended hcnt
  apply h.drained
  by_cases hnewline : t.data t.last = 0x0A
  · rcases Nat.lt_or_ge t.last bufSize with hlt | hge
    · exact hlt
    · exact absurd (le_antisymm h.fits hge ▸ hnewline) h.guard
  · have hstart : lineStart = 0 := by
      by_contra hne
      exact hstay ⟨hnewline, hcnt, hne⟩
    have hshort := h.short
    rw [segment_of_end hend hbytes] at hshort
    calc t.last = line.length := by rw [← hend, hstart, Nat.zero_add]
      _ < bufSize := hshort.length_lt hline

theorem guard_terminate {data : Mem} (h : data bufSize ≠ 0x0A) (a : Nat) :
    data.writeBytes a [0] bufSize ≠ 0x0A := by
  by_cases ha : a = bufSize
  · rw [ha, Mem.writeBytes_here]
    decide
  · rw [Mem.writeBytes_of_outside (by rw [List.length_singleton]; omega)]
    exact h

theorem segment_terminate (t : Scan) (a : Nat) (out : Writes) :
    Scan.segment ⟨t.data.writeBytes a [0], t.last, out⟩ (a + 1) = t.segment (a + 1) := by
  apply Mem.readBytes_congr
  intro i _
  exact Mem.writeBytes_of_outside (.inr (Nat.le_add_right _ i))

/-- The next line after a newline. -/
theorem Scanning.next (h : Scanning rest cnt t lineStart) (out : Writes) (hline : 0x0A ∉ line)
    (hbytes : t.data.readBytes lineStart line.length = line)
    (hnewline : t.data (lineStart + line.length) = 0x0A) (hmore : lineStart + line.length + 1 < t.last) :
    Scanning rest cnt ⟨t.data.writeBytes (lineStart + line.length) [0], t.last, out⟩
      (lineStart + line.length + 1) := by
  have hsegment := segment_of_newline (Nat.lt_of_succ_lt hmore) hbytes hnewline
  have hplain := h.plain
  have hshort := h.short
  rw [hsegment] at hplain hshort
  rw [List.append_assoc, List.cons_append] at hshort
  refine ⟨hmore.le, h.fits, ?_, guard_terminate h.guard _, ?_, h.drained, h.ended⟩
  · rw [segment_terminate]
    exact fun hmem => hplain (List.mem_append_right _ (List.mem_cons_of_mem _ hmem))
  · rw [segment_terminate]
    exact hshort.tail hline

theorem scanned_empty {data : Mem} {out reports : Writes} (hguard : data bufSize ≠ 0x0A)
    (hshort : ShortLines rest) (hreports : out ++ reportLines (Found s) fname rest = reports) (a : Nat) :
    Scanned s fname rest cnt reports ⟨data.writeBytes a [0], 0, out⟩ :=
  ⟨ready_empty rfl (guard_terminate hguard a) hshort, fun _ => rfl, hreports⟩

/-- A line that ends behind the data read is moved to the start of the buffer. -/
theorem scanned_move (h : Scanning rest cnt t lineStart) (hline : 0x0A ∉ line)
    (hend : lineStart + line.length = t.last) (hbytes : t.data.readBytes lineStart line.length = line)
    (hcnt : cnt ≠ 0) (hstart : lineStart ≠ 0) :
    Scanned s fname rest cnt (t.out ++ reportLines (Found s) fname (t.segment lineStart ++ rest))
      { t with
        data := ece391Strcpy (t.data.writeBytes (lineStart + line.length) [0]) 0 lineStart
          (bufSize + 1 - lineStart)
        last := t.last - lineStart } := by
  have hsegment := segment_of_end hend hbytes
  have hplain := h.plain
  have hshort := h.short
  rw [hsegment] at hplain hshort
  have hfits := h.fits
  have hcopy := ece391Strcpy_eq (holdsString_terminate hplain hbytes) (Nat.zero_le _)
    (show line.length < bufSize + 1 - lineStart by omega)
  have hlength : t.last - lineStart = line.length := by omega
  have hkept : Scan.pending ⟨(t.data.writeBytes (lineStart + line.length) [0]).writeBytes 0 (line ++ [0]),
      line.length, t.out⟩ = line := Mem.readBytes_writeBytes _ _ _ _
  rw [hcopy, hlength, hsegment]
  refine ⟨⟨?_, ?_, ?_, ?_⟩, fun hzero => absurd hzero hcnt, ?_⟩
  · exact hshort.length_lt hline
  · rw [hkept]
    exact hplain
  · refine ne_of_eq_of_ne (Mem.writeBytes_of_outside ?_) (guard_terminate h.guard _)
    rw [List.length_append, List.length_singleton]
    omega
  · rw [hkept]
    exact hshort
  · rw [hkept]

theorem lineLoop_scanned (hpat : s ≠ []) (hs : 0 ∉ s) (h : Scanning rest cnt t lineStart) :
    Scanned s fname rest cnt (t.out ++ reportLines (Found s) fname (t.segment lineStart ++ rest))
      (lineLoop s fname cnt t lineStart) := by
  -- by the bytes behind the start of the line
  induction hk : t.last - lineStart using Nat.strong_induction_on generalizing t lineStart with
  | _ k ih =>
      obtain ⟨line, hend, hle, hline, hbytes, hstop⟩ := lineEnd_line t.data h.inside
      have hfits := h.fits
      rw [lineLoop, hend]
      rcases Nat.lt_or_ge (lineStart + line.length) t.last with hlt | hge
      · have hnewline := hstop hlt
        have hsegment := segment_of_newline hlt hbytes hnewline
        have hplain := h.plain
        have hshort := h.short
        rw [hsegment] at hplain hshort
        rw [List.append_assoc, List.cons_append] at hshort
        have hfound := holdsString_terminate (fun hmem => hplain (List.mem_append_left _ hmem)) hbytes
        rw [if_neg fun hc => hc.1 hnewline, searchLine_eq hpat hs hline hfound (by omega), hsegment,
          List.append_assoc, List.cons_append, reportLines_append hline, ← List.append_assoc]
        by_cases hdone : t.last ≤ lineStart + line.length + 1
        · have hempty : t.segment (lineStart + line.length + 1) = [] := by
            rw [Scan.segment, Nat.sub_eq_zero_of_le hdone]
            rfl
          rw [if_pos hdone, hempty, List.nil_append]
          exact scanned_empty h.guard (by rw [hempty] at hshort; exact hshort.tail hline) rfl _
        · rw [if_neg hdone]
          have hnext := h.next (t.out ++ reportLines (Found s) fname line) hline hbytes hnewline
            (Nat.lt_of_not_ge hdone)
          have hrec := ih _ (by rw [← hk]; simp only; omega) hnext rfl
          rw [segment_terminate] at hrec
          exact hrec
      · have hlast : lineStart + line.length = t.last := le_antisymm hle hge
        by_cases hmove : t.data (lineStart + line.length) ≠ 0x0A ∧ cnt ≠ 0 ∧ lineStart ≠ 0
        · rw [if_pos hmove]
          exact scanned_move h hline hlast hbytes hmove.2.1 hmove.2.2
        · have hrest := h.rest_nil hline hlast hbytes (hlast ▸ hmove)
          have hplain := h.plain
          rw [segment_of_end hlast hbytes] at hplain
          rw [if_neg hmove, searchLine_eq hpat hs hline (holdsString_terminate hplain hbytes) (by omega),
            if_pos (by omega), segment_of_end hlast hbytes]
          subst hrest
          apply scanned_empty h.guard shortLines_nil
          rw [reportLines_nil hpat, List.append_nil, List.append_nil]

theorem segment_fill (t : Scan) (bytes : List UInt8) : (t.fill bytes).segment 0 = t.pending ++ bytes := by
  rw [Scan.segment, Nat.sub_zero, Scan.fill, Mem.readBytes_add, Nat.zero_add]
  congr 1
  · apply Mem.readBytes_congr
    intro i hi
    exact Mem.writeBytes_of_outside (.inl (by omega))
  · have hwritten := Mem.readBytes_writeBytes t.data t.last bytes []
    rwa [List.append_nil] at hwritten

theorem Ready.scanning (h : Ready rest t) (hfile : 0 ∉ rest) :
    Scanning (rest.drop (bufSize - t.last)) (rest.take (bufSize - t.last)).length
      (t.fill (rest.take (bufSize - t.last))) 0 := by
  have hroom := h.fits
  have hcount : (rest.take (bufSize - t.last)).length = min (bufSize - t.last) rest.length := List.length_take
  have hlast : (t.fill (rest.take (bufSize - t.last))).last =
      t.last + (rest.take (bufSize - t.last)).length := rfl
  refine ⟨Nat.zero_le _, ?_, ?_, ?_, ?_, fun hshortRead => ?_, fun hzero => ?_⟩
  · rw [hlast, hcount]
    omega
  · rw [segment_fill, List.mem_append]
    exact fun hmem => hmem.elim h.plain fun hmem => hfile (List.mem_of_mem_take hmem)
  · refine ne_of_eq_of_ne (Mem.writeBytes_of_outside (.inr ?_)) h.guard
    rw [hcount]
    omega
  · rw [segment_fill, List.append_assoc, List.take_append_drop]
    exact h.short
  · rw [hlast, hcount] at hshortRead
    rw [List.drop_eq_nil_iff]
    omega
  · rw [List.drop_eq_nil_iff]
    omega

/-- Enough reads reach the end of the file and report every line. -/
theorem fileLoop_eq (hpat : s ≠ []) (hs : 0 ∉ s) (file : List UInt8) (hready : Ready rest t)
    (hfile : 0 ∉ rest) {fuel : Nat} (hfuel : rest.length < fuel) :
    fileLoop (wholeFile file) s fname fuel rest t =
      some (0, t.out ++ reportLines (Found s) fname (t.pending ++ rest)) := by
  induction fuel generalizing rest t with
  | zero => exact absurd hfuel (Nat.not_lt_zero _)
  | succ fuel ih =>
      have hroom := hready.fits
      have hcount : (rest.take (bufSize - t.last)).length = min (bufSize - t.last) rest.length :=
        List.length_take
      have hdone : Scanned s fname _ _ _ _ := lineLoop_scanned hpat hs (hready.scanning hfile)
      rw [segment_fill, List.append_assoc, List.take_append_drop] at hdone
      have hwritten := hdone.written
      rw [fileLoop]
      simp only [wholeFile]
      by_cases hzero : (rest.take (bufSize - t.last)).length = 0
      · have hdrop : rest.drop (bufSize - t.last) = [] := List.drop_eq_nil_iff.mpr (by omega)
        have hempty : (lineLoop s fname (rest.take (bufSize - t.last)).length
            (t.fill (rest.take (bufSize - t.last))) 0).pending = [] := by
          rw [Scan.pending, hdone.ended hzero]
          rfl
        rw [hdrop, hempty, List.append_nil, reportLines_nil hpat, List.append_nil] at hwritten
        rw [if_pos hzero, closeFile, if_neg (show ¬ (0 : Int) = -1 by decide), hwritten]
        rfl
      · have hfewer : (rest.drop (bufSize - t.last)).length < fuel := by
          rw [List.length_drop]
          omega
        rw [if_neg hzero]
        refine (ih hdone.ready (fun hmem => hfile (List.mem_of_mem_drop hmem)) hfewer).trans ?_
        rw [hwritten]
        rfl

theorem doOneFile_eq (hpat : s ≠ []) (hs : 0 ∉ s) {file : List UInt8} (hfile : 0 ∉ file)
    (hshort : ShortLines file) {data : Mem} (hguard : data bufSize ≠ 0x0A) {fuel : Nat}
    (hfuel : file.length < fuel) :
    doOneFile (wholeFile file) s fname data fuel = some (0, reportLines (Found s) fname file) := by
  exact fileLoop_eq hpat hs file (ready_empty rfl hguard hshort) hfile hfuel

end

/-- Nothing is reported exactly when no line is found. -/
theorem reportLines_eq_nil_iff {found : List UInt8 → Prop} [DecidablePred found] {fname text : List UInt8} :
    reportLines found fname text = [] ↔ ∀ line ∈ text.splitOn 0x0A, ¬ found line := by
  rw [reportLines, List.flatMap_eq_nil_iff]
  constructor
  · intro h line hline hfound
    have hnil := h line (List.mem_filter.mpr ⟨hline, decide_eq_true hfound⟩)
    exact List.cons_ne_nil _ _ hnil
  · intro h line hline
    obtain ⟨hmem, hfound⟩ := List.mem_filter.mp hline
    exact absurd (of_decide_eq_true hfound) (h line hmem)

/-- The two reports agree when the first byte is compared right, and when there is nothing to report. -/
theorem reportLines_found_eq_iff {s fname file : List UInt8} :
    reportLines (Found s) fname file = reportLines (s <:+: ·) fname file ↔
      str s 0 < 0x80 ∨ ∀ line ∈ file.splitOn 0x0A, ¬ s <:+: line := by
  by_cases hlow : str s 0 < 0x80
  · have hsame : Found s = fun line => s <:+: line := by
      funext line
      exact propext ⟨fun h => h.2, fun h => ⟨hlow, h⟩⟩
    simp only [hsame, hlow, true_or]
  · have hnone : reportLines (Found s) fname file = [] :=
      reportLines_eq_nil_iff.mpr fun _ _ hfound => hlow hfound.1
    rw [hnone, eq_comm, reportLines_eq_nil_iff]
    simp only [hlow, false_or]

/-- `do_one_file` ends and reports the lines that contain the pattern, each once and in order, exactly when
the pattern starts with a byte below `0x80` or is in no line. -/
theorem doOneFile_reports_iff {s fname file : List UInt8} {data : Mem} (hpat : s ≠ []) (hs : 0 ∉ s)
    (hfile : 0 ∉ file) (hshort : ∀ line ∈ file.splitOn 0x0A, line.length ≤ 1023)
    (hguard : data bufSize ≠ 0x0A) :
    (∃ reads, ∀ fuel, reads ≤ fuel →
      doOneFile (wholeFile file) s fname data fuel = some (0, reportLines (s <:+: ·) fname file)) ↔
    (str s 0 < 0x80 ∨ ∀ line ∈ file.splitOn 0x0A, ¬ s <:+: line) := by
  have hlines : ShortLines file := fun line hline => Nat.lt_succ_of_le (hshort line hline)
  have hresult : ∀ fuel, file.length < fuel →
      doOneFile (wholeFile file) s fname data fuel = some (0, reportLines (Found s) fname file) :=
    fun fuel hfuel => doOneFile_eq hpat hs hfile hlines hguard hfuel
  rw [← @reportLines_found_eq_iff s fname file]
  constructor
  · rintro ⟨reads, hreads⟩
    have hboth := hreads (reads + file.length + 1) (by omega)
    rw [hresult _ (by omega)] at hboth
    exact congrArg Prod.snd (Option.some.inj hboth)
  · intro heq
    refine ⟨file.length + 1, fun fuel hfuel => ?_⟩
    rw [hresult fuel hfuel, heq]

/-- A file whose second line begins in the first read and ends, with a `b`, in the second. -/
def crossingFile : List UInt8 :=
  List.replicate 1000 0x61 ++ [0x0A] ++ (List.replicate 40 0x61 ++ [0x62]) ++ [0x0A]

theorem doOneFile_reports_letter :
    ∃ reads, ∀ fuel, reads ≤ fuel →
      doOneFile (wholeFile crossingFile) [0x62] [0x66] (fun _ => 0) fuel =
        some (0, reportLines ([0x62] <:+: ·) [0x66] crossingFile) :=
  (doOneFile_reports_iff (by decide) (by decide) (by decide +kernel) (by decide +kernel) (by decide)).mpr
    (.inl (by decide))

/-- A pattern that starts with `0x80` is not found in a file that is the pattern. -/
theorem doOneFile_misses_high_byte :
    ¬ ∃ reads, ∀ fuel, reads ≤ fuel →
      doOneFile (wholeFile [0x80]) [0x80] [0x66] (fun _ => 0) fuel =
        some (0, reportLines ([0x80] <:+: ·) [0x66] [0x80]) := by
  rintro ⟨reads, hreads⟩
  have hboth := hreads (reads + 2) (by omega)
  rw [doOneFile_eq (by decide) (by decide) (by decide) (by unfold ShortLines; decide) (by decide)
    (by rw [List.length_singleton]; omega)] at hboth
  have heq := congrArg Prod.snd (Option.some.inj hboth)
  rw [reportLines_found_eq_iff] at heq
  exact absurd heq (by decide)

end UnixOs.Grep
