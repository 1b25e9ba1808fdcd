import UnixOs.UserPrograms

/-! What is typed while a program runs. Scan codes make lines, with Caps Lock and Shift pressed and released at any
time; what the program writes meanwhile does not touch the line, and a line that Enter has completed waits for its
read behind keys that have no character. -/

namespace UnixOs

/-- The characters of the keys. -/
def charTable (caps shift : Bool) : List UInt8 :=
  if caps && shift then capsShiftKeyPress
  else if caps then capsKeyPress
  else if shift then shiftKeyPress
  else keyPress

/-- What is being typed: Caps Lock, Shift, and the text of the line. -/
structure Typing where
  caps : Bool
  shift : Bool
  text : List UInt8

/-- What a scan code makes of it, other than Enter. -/
def Typing.press (y : Typing) (c : Nat) : Typing where
  caps := if c = capsKey then !y.caps else y.caps
  shift := if c = lShiftMake ∨ c = rShiftMake then true
    else if c = lShiftBreak ∨ c = rShiftBreak then false else y.shift
  text := if (charTable y.caps y.shift).getD c 0 = 0 then y.text else y.text ++ [(charTable y.caps y.shift).getD c 0]

/-- The next line. -/
def Typing.line (y : Typing) : Typing := { y with text := [] }

/-- What scan codes make of the complete lines and of what is typed behind them. -/
def typeInto (s : List (List UInt8) × Typing) (c : Nat) : List (List UInt8) × Typing :=
  if c = enterKey then (s.1 ++ [s.2.text], s.2.line) else (s.1, s.2.press c)

/-- The lines that scan codes complete, and what is typed behind the last of them. -/
def typedLines (y : Typing) (codes : List Nat) : List (List UInt8) × Typing := codes.foldl typeInto ([], y)

/-- The scan codes apart from those of Enter and Backspace and the makes of Ctrl and Alt. -/
def typingCode (c : Nat) : Bool := decide (c ∉ [enterKey, backspaceKey, lCtrlMake, lAltMake])

/-- What is being typed on a console. -/
def typingOf (s : Console) : Typing := ⟨s.capsOn, s.shiftOn, bufferedLine s⟩

/-- On the console the line of `y` is being typed, with Ctrl and Alt released. -/
structure TypingAt (y : Typing) (s : Console) : Prop where
  editing : Editing (keyTable s) y.text s
  caps : s.capsOn = y.caps
  shift : s.shiftOn = y.shift

/-- Enter has completed a line, which waits for its read, and `y` is typed behind it. -/
structure LineAt (y : Typing) (line : List UInt8) (s : Console) : Prop where
  ready : ReadyLine (line ++ [0x0A]) s
  next : TypingAt y (clearKeyboardBuf s)

section Codes

variable {y : Typing} {s : Console} {line : List UInt8} {c : Nat}

theorem typingCode_ne (h : typingCode c = true) :
    c ≠ enterKey ∧ c ≠ backspaceKey ∧ c ≠ lCtrlMake ∧ c ≠ lAltMake := by
  simpa [typingCode] using h

/-- Only the keys with a character have one in some table. -/
theorem printableKey_of_value {caps shift : Bool} (hcode : typingCode c = true)
    (hvalue : (charTable caps shift).getD c 0 ≠ 0) : printableKey c = true := by
  have hlength : (charTable caps shift).length = supportedKeys := by cases caps <;> cases shift <;> rfl
  have hlt : c < supportedKeys := by
    by_contra hge
    exact hvalue (List.getD_eq_default _ _ (by omega))
  have hall : ∀ caps shift, ∀ k < supportedKeys, (charTable caps shift).getD k 0 ≠ 0 → keyPress.getD k 0 ≠ 0 := by
    decide
  simp only [printableKey, Bool.and_eq_true, decide_eq_true_eq]
  exact ⟨⟨hlt, (typingCode_ne hcode).1⟩, hall caps shift c hlt hvalue⟩

theorem Typing.length_press (y : Typing) (hcode : typingCode c = true) :
    y.text.length ≤ (y.press c).text.length ∧
      (y.press c).text.length ≤ y.text.length + if printableKey c = true then 1 else 0 := by
  rw [Typing.press]
  dsimp only
  split_ifs with hzero hprint hprint
  · exact ⟨le_rfl, Nat.le_add_right _ _⟩
  · exact ⟨le_rfl, Nat.le_add_right _ _⟩
  · rw [List.length_append, List.length_singleton]
    exact ⟨Nat.le_add_right _ _, le_rfl⟩
  · exact absurd (printableKey_of_value hcode hzero) hprint

/-- Every character comes from a key that has one. -/
theorem Typing.length_foldl (y : Typing) {codes : List Nat} (hcodes : ∀ c ∈ codes, typingCode c = true) :
    y.text.length ≤ (codes.foldl Typing.press y).text.length ∧
      (codes.foldl Typing.press y).text.length ≤ y.text.length + codes.countP printableKey := by
  induction codes generalizing y with
  | nil => exact ⟨le_rfl, le_rfl⟩
  | cons c codes ih =>
      obtain ⟨hlow, hhigh⟩ := y.length_press (hcodes c List.mem_cons_self)
      obtain ⟨hlow', hhigh'⟩ := ih (y.press c) fun c' hc' => hcodes c' (List.mem_cons_of_mem _ hc')
      rw [List.foldl_cons, List.countP_cons]
      exact ⟨hlow.trans hlow', by omega⟩

theorem foldl_typeInto {codes : List Nat} (hcodes : ∀ c ∈ codes, typingCode c = true)
    (s : List (List UInt8) × Typing) : codes.foldl typeInto s = (s.1, codes.foldl Typing.press s.2) := by
  induction codes generalizing s with
  | nil => rfl
  | cons c codes ih =>
      have hpress : typeInto s c = (s.1, s.2.press c) := if_neg (typingCode_ne (hcodes c List.mem_cons_self)).1
      rw [List.foldl_cons, hpress, ih fun c' hc' => hcodes c' (List.mem_cons_of_mem _ hc')]
      rfl

theorem typedLines_line {z : Typing} {keys : List Nat} {lines : List (List UInt8)}
    (h : typedLines y keys = (lines, z)) {ks behind : List Nat} (hks : ∀ c ∈ ks, typingCode c = true)
    (hbehind : ∀ c ∈ behind, typingCode c = true) :
    typedLines y (keys ++ (ks ++ enterKey :: behind)) =
      (lines ++ [(ks.foldl Typing.press z).text], behind.foldl Typing.press (ks.foldl Typing.press z).line) := by
  rw [typedLines, List.foldl_append, ← typedLines, h, List.foldl_append, foldl_typeInto hks, List.foldl_cons,
    foldl_typeInto hbehind]
  rfl

theorem TypingAt.typingOf_eq (h : TypingAt y s) : typingOf s = y := by
  rw [typingOf, h.caps, h.shift, h.editing.bufferedLine_eq]

theorem TypingAt.keyTable_eq (h : TypingAt y s) : keyTable s = charTable y.caps y.shift := by
  rw [keyTable, charTable, h.caps, h.shift]

/-! ### What a scan code does -/

/-- With Ctrl and Alt released a scan code changes a modifier or nothing, or its character is stored and echoed. -/
theorem keyboardStep_typing (halt : s.altOn = false) (hctrl : s.ctrlOn = false) (hreset : resetFull s = s)
    (hcode : typingCode c = true) :
    (((keyTable s).getD c 0 = 0 ∨ s.kbBufIndex s.displayTerminal = maxKbBuf - 1) ∧
      ∃ caps shift ctrl alt lookups, (keyboardStep s c).1 =
        { s with capsOn := caps, shiftOn := shift, ctrlOn := ctrl, altOn := alt, keyLookups := lookups }) ∨
    ((keyTable s).getD c 0 ≠ 0 ∧ s.kbBufIndex s.displayTerminal ≠ maxKbBuf - 1 ∧
      ∃ lookups, (keyboardStep s c).1 =
        putc (kbAppend { s with keyLookups := lookups } ((keyTable s).getD c 0)) ((keyTable s).getD c 0)) := by
  obtain ⟨henter, hback, -, -⟩ := typingCode_ne hcode
  rcases keyboardStep_cases s c with ⟨hsilent, caps, shift, ctrl, alt, heq⟩ | ⟨heq, -⟩ | ⟨heq, -⟩ | ⟨-, -, heq⟩
  · rw [hreset] at heq
    exact .inl ⟨.inl (keyTable_silentKey s hsilent), caps, shift, ctrl, alt, s.keyLookups, heq⟩
  · exact absurd heq hback
  · exact absurd heq henter
  rw [heq, hreset]
  rcases otherKey_cases s c with ⟨hon, -⟩ | ⟨hon, -⟩ | ⟨hnone, hsame | hsame⟩ | ⟨-, hfree, hvalue, hsame⟩
  · exact absurd (halt.symm.trans hon) Bool.false_ne_true
  · exact absurd (hctrl.symm.trans hon) Bool.false_ne_true
  · exact .inl ⟨hnone.symm, s.capsOn, s.shiftOn, s.ctrlOn, s.altOn, s.keyLookups, hsame⟩
  · exact .inl ⟨hnone.symm, s.capsOn, s.shiftOn, s.ctrlOn, s.altOn, _, hsame⟩
  · exact .inr ⟨hvalue, hfree, _, hsame⟩

theorem flags_press (hcode : typingCode c = true) (halt : s.altOn = false) (hctrl : s.ctrlOn = false)
    (hcaps : s.capsOn = y.caps) (hshift : s.shiftOn = y.shift) :
    ((keyboardStep s c).1.altOn = false ∧ (keyboardStep s c).1.ctrlOn = false) ∧
      (keyboardStep s c).1.capsOn = (y.press c).caps ∧ (keyboardStep s c).1.shiftOn = (y.press c).shift := by
  have hflags := keyboardStep_flags s c
  obtain ⟨-, -, hmakeCtrl, hmakeAlt⟩ := typingCode_ne hcode
  refine ⟨⟨?_, ?_⟩, ?_, ?_⟩
  · rw [hflags.alt, if_neg hmakeAlt, halt]
  · rw [hflags.ctrl, if_neg hmakeCtrl, hctrl, ite_self]
  · rw [hflags.caps, hcaps]
    rfl
  · rw [hflags.shift, hshift]
    rfl

/-- While there is room a scan code does to the console what it does to the text. -/
theorem TypingAt.press (h : TypingAt y s) (hcode : typingCode c = true) (hroom : (y.press c).text.length ≤ 127) :
    TypingAt (y.press c) (keyboardHandler s [c]) := by
  obtain ⟨⟨halt, hctrl⟩, hcaps, hshift⟩ :=
    flags_press hcode h.editing.altReleased h.editing.ctrlReleased h.caps h.shift
  have hindex := h.editing.index
  rw [keyboardHandler_single]
  refine ⟨?_, hcaps, hshift⟩
  rcases keyboardStep_typing h.editing.altReleased h.editing.ctrlReleased h.editing.resetFull_eq hcode with
    ⟨hnone, caps, shift, ctrl, alt, lookups, heq⟩ | ⟨hvalue, hfree, lookups, heq⟩
  · rw [h.keyTable_eq] at hnone
    have hzero : (charTable y.caps y.shift).getD c 0 = 0 := by
      by_contra hne
      have htext : (y.press c).text = y.text ++ [(charTable y.caps y.shift).getD c 0] := if_neg hne
      have hfull := hnone.resolve_left hne
      rw [hindex, maxKbBuf] at hfull
      rw [htext, List.length_append, List.length_singleton] at hroom
      omega
    have htext : (y.press c).text = y.text := if_pos hzero
    rw [heq] at halt hctrl ⊢
    rw [htext]
    exact ⟨halt, hctrl, rfl, h.editing.nonneg, h.editing.width, hindex, h.editing.room, h.editing.bytes⟩
  · have htext : (y.press c).text = y.text ++ [(keyTable s).getD c 0] := by
      rw [h.keyTable_eq] at hvalue ⊢
      exact if_neg hvalue
    have hlt : y.text.length < 127 := by
      have hmax := h.editing.room
      rw [hindex, maxKbBuf] at hfree
      omega
    have hafter := h.editing.append hlt lookups ((keyTable s).getD c 0)
    rw [← heq] at hafter
    rw [htext, hafter.shifted]
    exact hafter

theorem TypingAt.enter (h : TypingAt y s) : LineAt y.line y.text (keyboardHandler s [enterKey]) := by
  have hline := holdsLine_enter h.editing.room h.editing.index h.editing.bytes
  have henter : keyboardHandler s [enterKey] = UnixOs.enter s := by
    rw [keyboardHandler_single, show (keyboardStep s enterKey).1 = UnixOs.enter (resetFull s) from rfl,
      h.editing.resetFull_eq]
  rw [henter] at hline ⊢
  refine ⟨⟨hline.ready, ?_, hline.bytes⟩, ⟨h.editing.altReleased, h.editing.ctrlReleased, rfl, hline.nonneg,
    hline.width, rfl, Nat.zero_le _, fun i hi => absurd hi (Nat.not_lt_zero i)⟩, h.caps, h.shift⟩
  simp only [UnixOs.enter, putc, kbAppend, Function.update_self, h.editing.index, List.length_append,
    List.length_singleton]
  push_cast
  rfl

/-- A key without a character leaves the completed line, unless the line fills the buffer. -/
theorem LineAt.press (h : LineAt y line s) (hcode : typingCode c = true) (hsilent : silentKey c = true)
    (hroom : line.length ≤ 126) : LineAt (y.press c) line (keyboardHandler s [c]) := by
  have hedit := h.next.editing
  have hindex := h.ready.index
  rw [List.length_append, List.length_singleton] at hindex
  have hreset : resetFull s = s := if_neg (by rw [hindex, maxKbBuf]; omega)
  have haltOff : s.altOn = false := hedit.altReleased
  have hctrlOff : s.ctrlOn = false := hedit.ctrlReleased
  obtain ⟨⟨halt, hctrl⟩, hcaps, hshift⟩ := flags_press (s := s) hcode haltOff hctrlOff h.next.caps h.next.shift
  have hvalue := keyTable_silentKey s hsilent
  have htext : (y.press c).text = y.text := by
    have htable : keyTable s = charTable y.caps y.shift := h.next.keyTable_eq
    rw [htable] at hvalue
    exact if_pos hvalue
  rw [keyboardHandler_single]
  rcases keyboardStep_typing haltOff hctrlOff hreset hcode with
    ⟨-, caps, shift, ctrl, alt, lookups, heq⟩ | ⟨hsome, -⟩
  · rw [heq] at halt hctrl hcaps hshift ⊢
    refine ⟨⟨h.ready.ready, h.ready.index, h.ready.bytes⟩, ?_, hcaps, hshift⟩
    rw [htext]
    exact ⟨halt, hctrl, rfl, hedit.nonneg, hedit.width, hedit.index, hedit.room, hedit.bytes⟩
  · exact absurd hvalue hsome

theorem TypingAt.of_putc (h : TypingAt y s) (b : UInt8) : TypingAt y (putc s b) := by
  obtain ⟨hnonneg, hwidth⟩ := putRegion_column .screen b s.screenY s.video h.editing.nonneg
  exact ⟨⟨h.editing.altReleased, h.editing.ctrlReleased, rfl, hnonneg, hwidth, h.editing.index, h.editing.room,
    h.editing.bytes⟩, h.caps, h.shift⟩

theorem TypingAt.of_termPutc (h : TypingAt y s) (u : Term) (b : UInt8) : TypingAt y (termPutc u s b) :=
  ⟨⟨h.editing.altReleased, h.editing.ctrlReleased, rfl, h.editing.nonneg, h.editing.width, h.editing.index,
    h.editing.room, h.editing.bytes⟩, h.caps, h.shift⟩

/-- It does not touch the line that is typed. -/
theorem TypingAt.of_termWrite (h : TypingAt y s) (u : Term) (buf : List UInt8) : TypingAt y (termWrite u s buf) := by
  rw [termWrite]
  split_ifs
  · exact List.foldlRecOn buf putc h fun s hs b _ => hs.of_putc b
  · exact List.foldlRecOn buf (termPutc u) h fun s hs b _ => hs.of_termPutc u b

theorem LineAt.of_putc (h : LineAt y line s) (b : UInt8) : LineAt y line (putc s b) :=
  ⟨⟨h.ready.ready, h.ready.index, h.ready.bytes⟩, h.next.of_putc b⟩

theorem LineAt.of_termPutc (h : LineAt y line s) (u : Term) (b : UInt8) : LineAt y line (termPutc u s b) :=
  ⟨⟨h.ready.ready, h.ready.index, h.ready.bytes⟩, h.next.of_termPutc u b⟩

theorem LineAt.of_termWrite (h : LineAt y line s) (u : Term) (buf : List UInt8) :
    LineAt y line (termWrite u s buf) := by
  rw [termWrite]
  split_ifs
  · exact List.foldlRecOn buf putc h fun s hs b _ => hs.of_putc b
  · exact List.foldlRecOn buf (termPutc u) h fun s hs b _ => hs.of_termPutc u b

end Codes

section Events

variable {y : Typing} {s : Console} {line : List UInt8} {t : Term} {es : List ProgramEvent}

theorem eventKeys_key (c : Nat) (es : List ProgramEvent) : eventKeys (.key c :: es) = c :: eventKeys es := rfl

/-- Scan codes are typed, whatever is written in between. -/
theorem TypingAt.events (h : TypingAt y s) (hreads : eventReads es = 0)
    (hcodes : ∀ c ∈ eventKeys es, typingCode c = true)
    (hroom : ((eventKeys es).foldl Typing.press y).text.length ≤ 127) :
    TypingAt ((eventKeys es).foldl Typing.press y) (es.foldl (programStep t) s) := by
  induction es generalizing y s with
  | nil => exact h
  | cons e es ih =>
      cases e with
      | write buf => exact ih (h.of_termWrite t buf) hreads hcodes hroom
      | readLine => exact absurd hreads (by simp [eventReads])
      | key c =>
          rw [eventKeys_key] at hcodes hroom ⊢
          have hrest : ∀ c' ∈ eventKeys es, typingCode c' = true := fun c' hc' =>
            hcodes c' (List.mem_cons_of_mem _ hc')
          have hnext := h.press (hcodes c List.mem_cons_self)
            (((y.press c).length_foldl hrest).1.trans hroom)
          exact ih hnext hreads hrest hroom

/-- Keys without a character come behind a completed line. -/
theorem LineAt.events (h : LineAt y line s) (hreads : eventReads es = 0)
    (hcodes : ∀ c ∈ eventKeys es, typingCode c = true ∧ silentKey c = true)
    (hroom : eventKeys es = [] ∨ line.length ≤ 126) :
    LineAt ((eventKeys es).foldl Typing.press y) line (es.foldl (programStep t) s) := by
  induction es generalizing y s with
  | nil => exact h
  | cons e es ih =>
      cases e with
      | write buf => exact ih (h.of_termWrite t buf) hreads hcodes hroom
      | readLine => exact absurd hreads (by simp [eventReads])
      | key c =>
          rw [eventKeys_key] at hcodes hroom ⊢
          obtain ⟨hcode, hsilent⟩ := hcodes c List.mem_cons_self
          have hshort := hroom.resolve_left (List.cons_ne_nil _ _)
          exact ih (h.press hcode hsilent hshort) hreads (fun c' hc' => hcodes c' (List.mem_cons_of_mem _ hc'))
            (.inr hshort)

theorem TypingAt.events_line (h : TypingAt y s) (hreads : eventReads es = 0) {ks behind : List Nat}
    (hkeys : eventKeys es = ks ++ enterKey :: behind) (hcodes : ∀ c ∈ ks, typingCode c = true)
    (hbehind : ∀ c ∈ behind, typingCode c = true ∧ silentKey c = true)
    (hroom : (ks.foldl Typing.press y).text.length ≤ 127)
    (hend : behind = [] ∨ (ks.foldl Typing.press y).text.length ≤ 126) :
    LineAt (behind.foldl Typing.press (ks.foldl Typing.press y).line) (ks.foldl Typing.press y).text
      (es.foldl (programStep t) s) := by
  obtain ⟨before, rest, rfl, hbefore, hrest⟩ := List.filterMap_eq_append_iff.mp hkeys
  obtain ⟨quiet, e, after, rfl, hquiet, he, hafter⟩ := List.filterMap_eq_cons_iff.mp hrest
  obtain rfl : e = .key enterKey := by
    cases e with
    | key c => rw [Option.some.inj he]
    | write buf => cases he
    | readLine => cases he
  rw [eventReads, List.countP_append, List.countP_append, List.countP_cons_of_neg Bool.false_ne_true] at hreads
  have hnone : eventKeys quiet = [] := List.filterMap_eq_nil_iff.mpr hquiet
  rw [List.foldl_append, List.foldl_append, List.foldl_cons]
  obtain rfl : eventKeys before = ks := hbefore
  obtain rfl : eventKeys after = behind := hafter
  have htyped := h.events (t := t) (show eventReads before = 0 by rw [eventReads]; omega) hcodes hroom
  have hwaits := htyped.events (t := t) (show eventReads quiet = 0 by rw [eventReads]; omega)
    (by rw [hnone]; exact fun c hc => absurd hc List.not_mem_nil) (by rw [hnone]; exact hroom)
  rw [hnone] at hwaits
  exact hwaits.enter.events (show eventReads after = 0 by rw [eventReads]; omega) hbehind hend

end Events

end UnixOs
