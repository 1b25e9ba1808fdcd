import UnixOs.KeyboardBounds
import UnixOs.ModifierKeys

/-! A line that Enter has completed, from then until a `term_read` takes it. Later scan codes edit the
same buffer; they append behind the line and erase at most what they appended, as long as the buffer
is not reset. -/

namespace UnixOs

/-- The buffer of the displayed terminal starts with a complete line. The cursor is never further right
than there are characters behind the line, so that Backspace stops before it. -/
structure HoldsLine (text : List UInt8) (s : Console) : Prop where
  ready : s.readyToRead s.displayTerminal = true
  bytes : ∀ i (h : i < text.length), s.kbBuf s.displayTerminal i = text[i]
  index : (text.length : Int) + s.screenX ≤ s.kbBufIndex s.displayTerminal
  max : s.kbBufIndex s.displayTerminal ≤ maxKbBuf
  nonneg : 0 ≤ s.screenX
  width : s.screenX < numCols

theorem nextLine_x (r : Region) (y : Int) (v : Video) : (nextLine r y v).1.x = 0 := by
  unfold nextLine
  split_ifs <;> rfl

theorem putRegion_x (r : Region) (c : UInt8) (x y : Int) (v : Video) :
    (putRegion r c ⟨x, y⟩ v).1.x = 0 ∨ ((putRegion r c ⟨x, y⟩ v).1.x = x + 1 ∧ x + 1 < numCols) := by
  unfold putRegion
  split_ifs with hnewline hwrap
  · exact .inl (nextLine_x r y v)
  · exact .inl (nextLine_x r y _)
  · simp only at hwrap
    exact .inr ⟨rfl, by omega⟩

theorem putRegion_column (r : Region) (c : UInt8) {x : Int} (y : Int) (v : Video) (h : 0 ≤ x) :
    0 ≤ (putRegion r c ⟨x, y⟩ v).1.x ∧ (putRegion r c ⟨x, y⟩ v).1.x < numCols := by
  rcases putRegion_x r c x y v with hzero | ⟨heq, hlt⟩
  · rw [hzero]
    decide
  · rw [heq]
    exact ⟨by omega, hlt⟩

namespace HoldsLine

variable {text : List UInt8} {s : Console}

theorem append (h : HoldsLine text s) (hroom : s.kbBufIndex s.displayTerminal ≠ maxKbBuf) (value c : UInt8) :
    HoldsLine text (putc (kbAppend s value) c) := by
  have hindex := h.index
  have hmax := h.max
  have hnonneg := h.nonneg
  have hx := putRegion_x .screen c s.screenX s.screenY s.video
  refine ⟨h.ready, fun i hi => ?_, ?_, ?_, ?_, ?_⟩
  · have hbehind : (i : Int) ≠ s.kbBufIndex s.displayTerminal := by omega
    simp only [putc, kbAppend, Function.update_self, Function.update_of_ne hbehind]
    exact h.bytes i hi
  · simp only [putc, kbAppend, Function.update_self]
    omega
  · simp only [putc, kbAppend, Function.update_self]
    omega
  · exact (putRegion_column .screen c s.screenY s.video hnonneg).1
  · exact (putRegion_column .screen c s.screenY s.video hnonneg).2

theorem of_home (h : HoldsLine text s) {s' : Console} (hdisplay : s'.displayTerminal = s.displayTerminal)
    (hbuf : s'.kbBuf = s.kbBuf) (hindex : s'.kbBufIndex = s.kbBufIndex) (hready : s'.readyToRead = s.readyToRead)
    (hx : s'.screenX = 0 ∨ s'.screenX = s.screenX) : HoldsLine text s' := by
  have hroom := h.index
  have hnonneg := h.nonneg
  have hwidth := h.width
  refine ⟨?_, ?_, ?_, ?_, ?_, ?_⟩
  · rw [hdisplay, hready]
    exact h.ready
  · rw [hdisplay, hbuf]
    exact h.bytes
  · rw [hdisplay, hindex]
    omega
  · rw [hdisplay, hindex]
    exact h.max
  · omega
  · have : (0 : Int) < numCols := by decide
    omega

theorem backspace (h : HoldsLine text s) : HoldsLine text (backspace s) := by
  have hindex := h.index
  have hmax := h.max
  have hwidth := h.width
  by_cases hpos : s.screenX > 0
  · have hcur : (putRegion .screen 0x20 ⟨s.screenX - 1, s.screenY⟩ s.video).1 = ⟨s.screenX, s.screenY⟩ :=
      putRegion_erase hwidth s.video
    have hsome : s.kbBufIndex s.displayTerminal > 0 := by omega
    simp only [UnixOs.backspace, if_pos hpos, putc, hcur, if_pos hsome]
    refine ⟨h.ready, h.bytes, ?_, ?_, ?_, ?_⟩
    · simp only [Function.update_self]
      omega
    · simp only [Function.update_self]
      omega
    · simp only
      omega
    · simp only
      omega
  · rw [UnixOs.backspace, if_neg hpos]
    exact h

theorem enter (h : HoldsLine text s) (hroom : s.kbBufIndex s.displayTerminal ≠ maxKbBuf) :
    HoldsLine text (enter s) := by
  have hafter := h.append hroom 0x0A 0x0A
  exact ⟨Function.update_self _ _ _, hafter.bytes, hafter.index, hafter.max, hafter.nonneg, hafter.width⟩

/-- The function keys from F4 on rewrite the saved cursor and take it back. -/
theorem switchTerminal (h : HoldsLine text s) {c : Nat} (hother : c ∉ [f1Key, f2Key, f3Key]) :
    HoldsLine text (switchTerminal s c) := by
  simp only [List.mem_cons, List.not_mem_nil, or_false, not_or] at hother
  simp only [UnixOs.switchTerminal, if_neg hother.1, if_neg hother.2.1, if_neg hother.2.2]
  exact h.of_home rfl rfl rfl rfl (.inr (Function.update_self _ _ _))

theorem otherKey (h : HoldsLine text s) (hroom : s.kbBufIndex s.displayTerminal ≠ maxKbBuf) {c : Nat}
    (hswitch : ¬ (s.altOn = true ∧ c ∈ [f1Key, f2Key, f3Key])) : HoldsLine text (otherKey s c).1 := by
  rcases UnixOs.otherKey_cases s c with ⟨halt, -, heq | heq⟩ | ⟨-, -, heq⟩ | ⟨-, heq | heq⟩ | ⟨-, -, -, heq⟩
  · rw [heq]
    exact h.switchTerminal fun hmem => hswitch ⟨halt, hmem⟩
  · rw [heq]
    exact (h.switchTerminal fun hmem => hswitch ⟨halt, hmem⟩).of_home rfl rfl rfl rfl (.inr rfl)
  · rw [heq]
    exact h.of_home rfl rfl rfl rfl (.inl rfl)
  · rw [heq]
    exact h
  · rw [heq]
    exact h.of_home rfl rfl rfl rfl (.inr rfl)
  · rw [heq]
    have hlookup : HoldsLine text { s with keyLookups := (c : Int) :: s.keyLookups } :=
      h.of_home rfl rfl rfl rfl (.inr rfl)
    exact hlookup.append hroom _ _

theorem keyboardStep (h : HoldsLine text s) (hroom : s.kbBufIndex s.displayTerminal ≠ maxKbBuf) {c : Nat}
    (hswitch : ¬ (s.altOn = true ∧ c ∈ [f1Key, f2Key, f3Key])) : HoldsLine text (keyboardStep s c).1 := by
  have hreset : resetFull s = s := if_neg hroom
  rcases keyboardStep_cases s c with ⟨-, _, _, _, _, heq⟩ | ⟨-, heq⟩ | ⟨-, heq⟩ | ⟨-, -, heq⟩
  · rw [heq, hreset]
    exact h.of_home rfl rfl rfl rfl (.inr rfl)
  · rw [heq, hreset]
    exact h.backspace
  · rw [heq, hreset]
    exact h.enter hroom
  · rw [heq, hreset]
    exact h.otherKey hroom hswitch

end HoldsLine

/-! ### Scan codes between Enter and the read -/

/-- No scan code switches the terminal. -/
def NoSwitch (s : Console) : List Nat → Prop
  | [] => True
  | c :: rest => ¬ (s.altOn = true ∧ c ∈ [f1Key, f2Key, f3Key]) ∧ NoSwitch (keyboardStep s c).1 rest

/-- No scan code finds the displayed terminal's buffer full, with its index at 128. -/
def NeverFull (s : Console) : List Nat → Prop
  | [] => True
  | c :: rest => s.kbBufIndex s.displayTerminal ≠ maxKbBuf ∧ NeverFull (keyboardStep s c).1 rest

theorem HoldsLine.pressAll {text : List UInt8} {s : Console} (h : HoldsLine text s) {codes : List Nat}
    (hswitch : NoSwitch s codes) (hroom : NeverFull s codes) : HoldsLine text (pressAll s codes) := by
  induction codes generalizing s with
  | nil => exact h
  | cons c rest ih => exact ih (h.keyboardStep hroom.1 hswitch.1) hswitch.2 hroom.2

theorem holdsLine_enter {text : List UInt8} {s : Console} (hlen : text.length ≤ 127)
    (hindex : s.kbBufIndex s.displayTerminal = text.length)
    (hbytes : ∀ i (h : i < text.length), s.kbBuf s.displayTerminal i = text[i]) :
    HoldsLine (text ++ [0x0A]) (keyboardHandler s [enterKey]) := by
  have hreset : resetFull s = s := if_neg (by rw [hindex, maxKbBuf]; omega)
  have hx : (putc (kbAppend s 0x0A) 0x0A).screenX = 0 := by
    simp only [putc, kbAppend, putRegion, true_or, if_true, nextLine_x]
  rw [keyboardHandler_single, show (keyboardStep s enterKey).1 = enter (resetFull s) from rfl, hreset, enter]
  refine ⟨Function.update_self _ _ _, fun i hi => ?_, ?_, ?_, ?_, ?_⟩
  · simp only [putc, kbAppend, Function.update_self, hindex]
    rcases Nat.lt_or_ge i text.length with hlt | hge
    · rw [Function.update_of_ne (by omega), hbytes i hlt, List.getElem_append_left hlt]
    · obtain rfl : i = text.length := by
        simp only [List.length_append, List.length_singleton] at hi
        omega
      rw [Function.update_self, List.getElem_append_right le_rfl]
      simp
  · simp only [hx]
    simp only [putc, kbAppend, Function.update_self, hindex, List.length_append, List.length_singleton]
    omega
  · simp only [putc, kbAppend, Function.update_self, hindex, maxKbBuf]
    omega
  · simp only [hx]
    exact le_rfl
  · simp only [hx]
    decide

/-! ### The read -/

theorem prefix_map_range {α : Type} {l : List α} {f : Nat → α} (h : ∀ i (hi : i < l.length), f i = l[i]) {n : Nat}
    (hn : l.length ≤ n) : l <+: (List.range n).map f := by
  obtain ⟨m, rfl⟩ := Nat.exists_eq_add_of_le hn
  have hl : l = (List.range l.length).map f :=
    List.ext_getElem (by simp) fun i hi _ => by rw [List.getElem_map, List.getElem_range, h i hi]
  rw [List.range_add, List.map_append, ← hl]
  exact List.prefix_append _ _

theorem HoldsLine.termRead {text : List UInt8} {s : Console} (h : HoldsLine text s) {nbytes : Int}
    (hn : 128 ≤ nbytes) : ∃ s' n bytes, termRead s nbytes = some (s', n, bytes) ∧ text <+: bytes := by
  have hindex := h.index
  have hmax := h.max
  have hnonneg := h.nonneg
  simp only [maxKbBuf] at hmax
  simp only [UnixOs.termRead, h.ready, if_true]
  by_cases hmore : nbytes > s.kbBufIndex s.displayTerminal
  · rw [if_pos hmore]
    refine ⟨_, _, _, rfl, ?_⟩
    refine List.IsPrefix.trans (prefix_map_range h.bytes ?_) (List.prefix_append _ _)
    omega
  · rw [if_neg hmore]
    refine ⟨_, _, _, rfl, prefix_map_range h.bytes ?_⟩
    omega

/-- While no scan code finds the buffer full, a line that Enter has completed is what the next read of at
least 128 bytes starts with. -/
theorem completed_line_survives {text : List UInt8} {s : Console} (hlen : text.length ≤ 127)
    (hindex : s.kbBufIndex s.displayTerminal = text.length)
    (hbytes : ∀ i (h : i < text.length), s.kbBuf s.displayTerminal i = text[i]) (interrupts : List (List Nat))
    (hswitch : NoSwitch (keyboardHandler s [enterKey]) (handledIn (keyboardHandler s [enterKey]) interrupts))
    (hroom : NeverFull (keyboardHandler s [enterKey]) (handledIn (keyboardHandler s [enterKey]) interrupts))
    {nbytes : Int} (hn : 128 ≤ nbytes) :
    ∃ s' n bytes, termRead (interrupts.foldl keyboardHandler (keyboardHandler s [enterKey])) nbytes =
      some (s', n, bytes) ∧ text ++ [0x0A] <+: bytes := by
  rw [interrupts_eq_pressAll]
  exact ((holdsLine_enter hlen hindex hbytes).pressAll hswitch hroom).termRead hn

/-- The keys of `a` and `b` on an empty console. -/
def typedConsole : Console := [[0x1E], [0x9E], [0x30]].foldl keyboardHandler blankConsole

/-- The line `ab`, the releases of its last key and of Enter, and another key that is erased again. -/
theorem completed_line_survives_typing :
    ∃ s' n bytes, termRead ([[0xB0], [0x9C], [0x1E, backspaceKey]].foldl keyboardHandler
      (keyboardHandler typedConsole [enterKey])) 128 = some (s', n, bytes) ∧ [0x61, 0x62, 0x0A] <+: bytes := by
  have hhandled : handledIn (keyboardHandler typedConsole [enterKey]) [[0xB0], [0x9C], [0x1E, backspaceKey]] =
      [0xB0, 0x9C, 0x1E, backspaceKey] := by decide
  have hswitch : NoSwitch (keyboardHandler typedConsole [enterKey]) [0xB0, 0x9C, 0x1E, backspaceKey] :=
    ⟨by decide, by decide, by decide, by decide, trivial⟩
  have hroom : NeverFull (keyboardHandler typedConsole [enterKey]) [0xB0, 0x9C, 0x1E, backspaceKey] :=
    ⟨by decide, by decide, by decide, by decide, trivial⟩
  rw [← hhandled] at hswitch hroom
  have hlength : ([0x61, 0x62] : List UInt8).length ≤ 127 := by decide
  have hbytes : ∀ i (hi : i < [0x61, 0x62].length),
      typedConsole.kbBuf typedConsole.displayTerminal i = [0x61, 0x62][i] := by
    decide
  exact completed_line_survives hlength (by decide) hbytes _ hswitch hroom le_rfl

/-- A line of 127 characters in the displayed terminal's buffer. -/
def fullLine : Console := { blankConsole with kbBufIndex := fun _ => 127, kbBuf := fun _ _ => 0x61 }

/-- The release of Enter resets the index of a full buffer: the read returns no byte of the line. -/
theorem full_line_is_lost :
    termRead ([[0x9C]].foldl keyboardHandler (keyboardHandler fullLine [enterKey])) 128 =
      some (clearKeyboardBuf (keyboardHandler (keyboardHandler fullLine [enterKey]) [0x9C]), 0,
        List.replicate 128 0) ∧
    ¬ ∃ s' n bytes, termRead ([[0x9C]].foldl keyboardHandler (keyboardHandler fullLine [enterKey])) 128 =
      some (s', n, bytes) ∧ List.replicate 127 0x61 ++ [0x0A] <+: bytes := by
  have hread : termRead ([[0x9C]].foldl keyboardHandler (keyboardHandler fullLine [enterKey])) 128 =
      some (clearKeyboardBuf (keyboardHandler (keyboardHandler fullLine [enterKey]) [0x9C]), 0,
        List.replicate 128 0) := rfl
  refine ⟨hread, ?_⟩
  rintro ⟨s', n, bytes, hsome, hbefore⟩
  rw [hread] at hsome
  cases hsome
  exact absurd hbefore (by decide)

/-- The displayed terminal is ready and holds the bytes of a line. -/
structure ReadyLine (text : List UInt8) (s : Console) : Prop where
  ready : s.readyToRead s.displayTerminal = true
  index : s.kbBufIndex s.displayTerminal = text.length
  bytes : ∀ i (h : i < text.length), s.kbBuf s.displayTerminal i = text[i]

/-- A read of `nbytes` returns the smaller of `nbytes` and the length of the line, stores as many bytes of
the line, and sets the rest of the buffer to zero. -/
def ReportsDelivered (text : List UInt8) (s : Console) (nbytes : Nat) : Prop :=
  ∃ s' bytes, termRead s nbytes = some (s', ((min nbytes text.length : Nat) : Int), bytes) ∧
    bytes.length = nbytes ∧ bytes.take (min nbytes text.length) = text.take (min nbytes text.length) ∧
    ∀ i (h : i < bytes.length), text.length ≤ i → bytes[i] = 0

theorem ReadyLine.held {text : List UInt8} {s : Console} (h : ReadyLine text s) {n : Nat} (hn : n ≤ text.length) :
    (List.range n).map (fun i : Nat => s.kbBuf s.displayTerminal i) = text.take n := by
  apply List.ext_getElem
  · simp [hn]
  · intro i hi _
    have hlt : i < text.length := by simp at hi; omega
    rw [List.getElem_map, List.getElem_range, List.getElem_take, h.bytes i hlt]

theorem ReadyLine.termRead_long {text : List UInt8} {s : Console} (h : ReadyLine text s) {nbytes : Nat}
    (hlong : text.length < nbytes) :
    termRead s nbytes =
      some (clearKeyboardBuf s, (text.length : Int), text ++ List.replicate (nbytes - text.length) 0) := by
  have hfill : ((nbytes : Int) - text.length).toNat = nbytes - text.length := by omega
  simp only [UnixOs.termRead, h.ready, h.index, if_true]
  rw [if_pos (by omega), Int.toNat_natCast, h.held le_rfl, List.take_length, hfill]

/-- When the buffer is not larger than the line, the bytes are stored and the count stays zero. -/
theorem ReadyLine.termRead_short {text : List UInt8} {s : Console} (h : ReadyLine text s) {nbytes : Nat}
    (hshort : nbytes ≤ text.length) (hn : nbytes < 2 ^ 31) :
    termRead s nbytes = some (clearKeyboardBuf s, 0, text.take nbytes) := by
  have hcount : ((nbytes : Int) % 2 ^ 32).toNat = nbytes := by omega
  simp only [UnixOs.termRead, h.ready, h.index, if_true]
  rw [if_neg (by omega), hcount, h.held hshort]

/-- A read reports what it delivers exactly when its buffer is empty or larger than the line. -/
theorem read_reports_delivered_iff {text : List UInt8} {s : Console} (h : ReadyLine text s) {nbytes : Nat}
    (hn : nbytes < 2 ^ 31) :
    ReportsDelivered text s nbytes ↔ nbytes = 0 ∨ text.length < nbytes := by
  constructor
  · rintro ⟨s', bytes, hread, -⟩
    by_contra hbetween
    rw [h.termRead_short (by omega) hn] at hread
    have hcount : (0 : Int) = ((min nbytes text.length : Nat) : Int) := congrArg (fun r => r.2.1) (Option.some.inj hread)
    omega
  · rintro (rfl | hlong)
    · refine ⟨_, _, h.termRead_short (Nat.zero_le _) hn, ?_⟩
      simp
    · have hmin : min nbytes text.length = text.length := Nat.min_eq_right hlong.le
      refine ⟨_, _, by rw [hmin]; exact h.termRead_long hlong, ?_, ?_, fun i hi hrest => ?_⟩
      · rw [List.length_append, List.length_replicate]
        omega
      · rw [hmin, List.take_left, List.take_length]
      · rw [List.getElem_append_right hrest, List.getElem_replicate]

/-- The line `exit` and its newline, typed on the displayed terminal. -/
def exitLine : List UInt8 := [0x65, 0x78, 0x69, 0x74, 0x0A]

def exitConsole : Console :=
  { blankConsole with
    readyToRead := fun _ => true
    kbBufIndex := fun _ => 5
    kbBuf := fun _ i => exitLine.getD i.toNat 0 }

theorem readyLine_exitConsole : ReadyLine exitLine exitConsole := by
  refine ⟨rfl, rfl, fun i hi => ?_⟩
  rw [show exitConsole.kbBuf exitConsole.displayTerminal i = exitLine.getD i 0 from rfl,
    List.getD_eq_getElem _ _ hi]

/-- The buffer of the shell is larger than the line. -/
theorem read_reports_delivered_iff_shell : ReportsDelivered exitLine exitConsole 1023 :=
  (read_reports_delivered_iff readyLine_exitConsole (by decide)).mpr (.inr (by decide))

/-- A buffer as long as the line receives all of it, and the read returns zero. -/
theorem exact_buffer_reports_nothing :
    termRead exitConsole 5 = some (clearKeyboardBuf exitConsole, 0, exitLine) ∧
    ¬ReportsDelivered exitLine exitConsole 5 := by
  have hread : termRead exitConsole (5 : Nat) = some (clearKeyboardBuf exitConsole, 0, exitLine) :=
    readyLine_exitConsole.termRead_short (by decide) (by decide)
  refine ⟨hread, ?_⟩
  rintro ⟨s', bytes, hdelivered, -⟩
  rw [hread] at hdelivered
  have hcount : (0 : Int) = ((min 5 exitLine.length : Nat) : Int) :=
    congrArg (fun r => r.2.1) (Option.some.inj hdelivered)
  exact absurd hcount (by decide)

end UnixOs
