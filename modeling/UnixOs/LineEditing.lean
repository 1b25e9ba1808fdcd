import UnixOs.CompletedLine
import UnixOs.TerminalIndependence

/-! Editing of the line that is being typed. The handler undoes a character only where it can undo it on the
screen too, so a Backspace in the first column does not reach the characters in front of a wrap. -/

namespace UnixOs

/-- A key with a character, apart from Enter. -/
def printableKey (pressed : Nat) : Bool :=
  decide (pressed < supportedKeys) && decide (pressed ≠ enterKey) && decide (keyPress.getD pressed 0 ≠ 0)

/-- The line in the buffer of the displayed terminal. -/
def bufferedLine (s : Console) : List UInt8 :=
  (List.range (s.kbBufIndex s.displayTerminal).toNat).map fun i : Nat => s.kbBuf s.displayTerminal i

/-- One interrupt for each key. -/
def typeKeys (s : Console) (keys : List Nat) : Console := keys.foldl (fun s c => keyboardHandler s [c]) s

/-- What a key does to a line, with the characters of one table. -/
def editKey (table : List UInt8) (text : List UInt8) (pressed : Nat) : List UInt8 :=
  if pressed = backspaceKey then text.dropLast
  else if text.length < 127 then text ++ [table.getD pressed 0]
  else text

/-- The reference edit of a sequence of keys. -/
def editLine (table : List UInt8) (keys : List Nat) : List UInt8 := keys.foldl (editKey table) []

/-- There is nothing to remove, or the cursor is behind the first column. -/
def CanErase (s : Console) : Prop := s.kbBufIndex s.displayTerminal = 0 ∨ 0 < s.screenX

/-! ### Keys of the four tables -/

theorem printableKey_table (s : Console) {pressed : Nat} (h : printableKey pressed = true) :
    pressed < supportedKeys ∧ pressed ≠ enterKey ∧ pressed ≠ backspaceKey ∧ (keyTable s).getD pressed 0 ≠ 0 := by
  simp only [printableKey, Bool.and_eq_true, decide_eq_true_eq] at h
  obtain ⟨⟨hlt, henter⟩, hchar⟩ := h
  have hall : ∀ table ∈ [capsShiftKeyPress, capsKeyPress, shiftKeyPress, keyPress],
      ∀ k < supportedKeys, keyPress.getD k 0 ≠ 0 → k ≠ backspaceKey ∧ table.getD k 0 ≠ 0 := by decide
  have hmem : keyTable s ∈ [capsShiftKeyPress, capsKeyPress, shiftKeyPress, keyPress] := by
    unfold keyTable
    split_ifs <;> simp
  obtain ⟨hback, hvalue⟩ := hall _ hmem pressed hlt hchar
  exact ⟨hlt, henter, hback, hvalue⟩

/-! ### The buffer while a line is typed -/

/-- The buffer holds `text`, the modifiers are those of `table`, and the cursor is on the screen. -/
structure Editing (table text : List UInt8) (s : Console) : Prop where
  altReleased : s.altOn = false
  ctrlReleased : s.ctrlOn = false
  shifted : keyTable s = table
  nonneg : 0 ≤ s.screenX
  width : s.screenX < numCols
  index : s.kbBufIndex s.displayTerminal = text.length
  room : text.length ≤ 127
  bytes : ∀ i (h : i < text.length), s.kbBuf s.displayTerminal i = text[i]

namespace Editing

variable {table text : List UInt8} {s : Console}

theorem bufferedLine_eq (h : Editing table text s) : bufferedLine s = text := by
  rw [bufferedLine, h.index, Int.toNat_natCast]
  apply List.ext_getElem
  · rw [List.length_map, List.length_range]
  · intro i _ hi
    rw [List.getElem_map, List.getElem_range, h.bytes i hi]

theorem resetFull_eq (h : Editing table text s) : resetFull s = s := by
  have hroom := h.room
  refine if_neg ?_
  rw [h.index, maxKbBuf]
  omega

theorem append (h : Editing table text s) (hroom : text.length < 127) (lookups : List Int) (value : UInt8) :
    Editing table (text ++ [value]) (putc (kbAppend { s with keyLookups := lookups } value) value) := by
  have hcolumn := putRegion_column .screen value s.screenY s.video h.nonneg
  refine ⟨h.altReleased, h.ctrlReleased, h.shifted, hcolumn.1, hcolumn.2, ?_, ?_, fun i hi => ?_⟩
  · simp only [putc, kbAppend, Function.update_self, h.index, List.length_append, List.length_singleton]
    push_cast
    rfl
  · rw [List.length_append, List.length_singleton]
    omega
  · simp only [putc, kbAppend, Function.update_self, h.index]
    rw [List.length_append, List.length_singleton] at hi
    rcases Nat.lt_or_ge i text.length with hlt | hge
    · have hother : (i : Int) ≠ text.length := by omega
      rw [Function.update_of_ne hother, List.getElem_append_left hlt, h.bytes i hlt]
    · obtain rfl : i = text.length := by omega
      rw [Function.update_self, List.getElem_concat_length rfl]

theorem printable (h : Editing table text s) {pressed : Nat} (hkey : printableKey pressed = true) :
    Editing table (editKey table text pressed) (keyboardStep s pressed).1 := by
  obtain ⟨-, henter, hback, hvalue⟩ := printableKey_table s hkey
  have hindex := h.index
  rw [editKey, if_neg hback]
  rcases keyboardStep_cases s pressed with ⟨hsilent, -⟩ | ⟨heq, -⟩ | ⟨heq, -⟩ | ⟨-, -, hstep⟩
  · exact absurd (keyTable_silentKey s hsilent) hvalue
  · exact absurd heq hback
  · exact absurd heq henter
  rw [hstep, h.resetFull_eq]
  rcases otherKey_cases s pressed with ⟨halt, -⟩ | ⟨hctrl, -⟩ | ⟨hfull | hzero, hsame⟩ | ⟨-, hfull, -, heq⟩
  · exact absurd halt (by rw [h.altReleased]; decide)
  · exact absurd hctrl (by rw [h.ctrlReleased]; decide)
  · rw [hindex, maxKbBuf] at hfull
    rw [if_neg (by omega)]
    rcases hsame with hsame | hsame
    · rw [hsame]
      exact h
    · rw [hsame]
      exact ⟨h.altReleased, h.ctrlReleased, h.shifted, h.nonneg, h.width, h.index, h.room, h.bytes⟩
  · exact absurd hzero hvalue
  · have hroom := h.room
    rw [hindex, maxKbBuf] at hfull
    have hlt : text.length < 127 := by omega
    rw [if_pos hlt, heq, h.shifted]
    exact h.append hlt _ _

theorem keyboardStep_backspace (h : Editing table text s) :
    (UnixOs.keyboardStep s backspaceKey).1 = UnixOs.backspace s := by
  have hnone : modifierKey s backspaceKey = none := rfl
  simp only [UnixOs.keyboardStep, h.resetFull_eq, hnone, if_true]

/-- Backspace behind the first column removes the last character, if there is one. -/
theorem backspace (h : Editing table text s) (herase : CanErase s) :
    Editing table text.dropLast (UnixOs.backspace s) := by
  have hroom := h.room
  have hwidth := h.width
  have hindex := h.index
  have hlength : text.dropLast.length = text.length - 1 := List.length_dropLast
  have hbytes : ∀ i (hi : i < text.dropLast.length), s.kbBuf s.displayTerminal i = text.dropLast[i] := by
    intro i hi
    rw [List.getElem_dropLast, h.bytes i (by omega)]
  by_cases hpos : s.screenX > 0
  · have hcur : (putRegion .screen 0x20 ⟨s.screenX - 1, s.screenY⟩ s.video).1 = ⟨s.screenX, s.screenY⟩ :=
      putRegion_erase hwidth s.video
    simp only [UnixOs.backspace, if_pos hpos, putc, hcur]
    by_cases hsome : s.kbBufIndex s.displayTerminal > 0
    · rw [if_pos hsome]
      refine ⟨h.altReleased, h.ctrlReleased, h.shifted, ?_, ?_, ?_, by omega, hbytes⟩
      · simp only
        omega
      · simp only
        omega
      · simp only [Function.update_self]
        omega
    · rw [if_neg hsome]
      refine ⟨h.altReleased, h.ctrlReleased, h.shifted, ?_, ?_, ?_, by omega, hbytes⟩
      · simp only
        omega
      · simp only
        omega
      · simp only
        omega
  · have hempty : s.kbBufIndex s.displayTerminal = 0 := herase.resolve_right hpos
    rw [UnixOs.backspace, if_neg hpos]
    exact ⟨h.altReleased, h.ctrlReleased, h.shifted, h.nonneg, h.width, by omega, by omega, hbytes⟩

/-- Elsewhere it does nothing. -/
theorem backspace_stuck (h : Editing table text s) (hstuck : ¬ CanErase s) :
    UnixOs.backspace s = s ∧ text.dropLast ≠ text := by
  rw [CanErase, not_or] at hstuck
  refine ⟨if_neg hstuck.2, fun heq => ?_⟩
  have hlength := congrArg List.length heq
  have hindex := h.index
  rw [List.length_dropLast] at hlength
  omega

end Editing

theorem Editing.key {table text : List UInt8} {s : Console} (h : Editing table text s) {c : Nat}
    (hkey : printableKey c = true ∨ c = backspaceKey) (herase : c = backspaceKey → CanErase s) :
    Editing table (editKey table text c) (keyboardHandler s [c]) := by
  rw [keyboardHandler_single]
  rcases hkey with hprint | hback
  · exact h.printable hprint
  · rw [editKey, if_pos hback, hback, h.keyboardStep_backspace]
    exact h.backspace (herase hback)

theorem edits_from_iff {table text : List UInt8} {s : Console} (h : Editing table text s) {keys : List Nat}
    (hkeys : ∀ c ∈ keys, printableKey c = true ∨ c = backspaceKey) :
    (∀ n, bufferedLine (typeKeys s (keys.take n)) = (keys.take n).foldl (editKey table) text) ↔
      ∀ n (hn : n < keys.length), keys[n] = backspaceKey → CanErase (typeKeys s (keys.take n)) := by
  induction keys generalizing s text with
  | nil =>
      constructor
      · intro _ n hn
        exact absurd hn (Nat.not_lt_zero n)
      · intro _ n
        rw [List.take_nil]
        exact h.bufferedLine_eq
  | cons c keys ih =>
      have hfirst := hkeys c List.mem_cons_self
      by_cases herase : c = backspaceKey → CanErase s
      · have hrest := ih (h.key hfirst herase) fun c' hc' => hkeys c' (List.mem_cons_of_mem _ hc')
        constructor
        · intro hall n hn hback
          cases n with
          | zero => exact herase hback
          | succ n =>
              refine hrest.mp (fun k => ?_) n (Nat.lt_of_succ_lt_succ hn) hback
              exact hall (k + 1)
        · intro hall n
          cases n with
          | zero => exact h.bufferedLine_eq
          | succ n =>
              refine hrest.mpr (fun k hk hback => ?_) n
              exact hall (k + 1) (Nat.succ_lt_succ hk) hback
      · -- the first key is a Backspace that does nothing
        rw [Classical.not_imp] at herase
        obtain ⟨rfl, hstuck⟩ := herase
        obtain ⟨hsame, hshorter⟩ := h.backspace_stuck hstuck
        constructor
        · intro hall
          have hone : bufferedLine (keyboardHandler s [backspaceKey]) = text.dropLast := hall 1
          rw [keyboardHandler_single, h.keyboardStep_backspace, hsame, h.bufferedLine_eq] at hone
          exact absurd hone.symm hshorter
        · intro hall
          exact absurd (hall 0 (Nat.succ_pos _) rfl) hstuck

/-- After every key the buffer holds what the reference makes of the keys so far, exactly when every
Backspace was given with nothing to remove or behind the first column. -/
theorem line_editing_iff {s : Console} (hx : 0 ≤ s.screenX) (hwidth : s.screenX < 80)
    (halt : s.altOn = false) (hctrl : s.ctrlOn = false) (hempty : s.kbBufIndex s.displayTerminal = 0)
    {keys : List Nat} (hkeys : ∀ c ∈ keys, printableKey c = true ∨ c = backspaceKey) :
    (∀ n, bufferedLine (typeKeys s (keys.take n)) = editLine (keyTable s) (keys.take n)) ↔
      ∀ n (hn : n < keys.length), keys[n] = backspaceKey → CanErase (typeKeys s (keys.take n)) := by
  have hstart : Editing (keyTable s) [] s :=
    ⟨halt, hctrl, rfl, hx, hwidth, hempty, Nat.zero_le _, fun i hi => absurd hi (Nat.not_lt_zero i)⟩
  exact edits_from_iff hstart hkeys

theorem line_editing_iff_typo :
    (∀ n, bufferedLine (typeKeys blankConsole (List.take n [0x1E, 0x30, backspaceKey])) =
        editLine (keyTable blankConsole) (List.take n [0x1E, 0x30, backspaceKey])) ↔
      ∀ n (hn : n < [0x1E, 0x30, backspaceKey].length), [0x1E, 0x30, backspaceKey][n] = backspaceKey →
        CanErase (typeKeys blankConsole (List.take n [0x1E, 0x30, backspaceKey])) :=
  line_editing_iff (by decide) (by decide) rfl rfl rfl (by decide)

/-- A prompt that leaves one column. -/
def lastColumn : Console := { blankConsole with screenX := 79 }

/-- The character typed into the last column cannot be erased. -/
theorem wrapped_character_stays :
    bufferedLine (typeKeys lastColumn [0x1E, backspaceKey]) = [0x61] ∧
      editLine (keyTable lastColumn) [0x1E, backspaceKey] = [] := by
  decide

end UnixOs
