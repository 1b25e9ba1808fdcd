import UnixOs.TerminalConsole

/-! The keyboard interrupt handler of `keyboard.c` and the terminal read that empties its buffers. A
scan code is one iteration of the handler's loop; a `return` inside the loop drops the scan codes that
were still waiting, and how many are waiting is up to the keyboard controller. -/

namespace UnixOs

def capsKey : Nat := 0x3A
def lShiftMake : Nat := 0x2A
def rShiftMake : Nat := 0x36
def lShiftBreak : Nat := 0xAA
def rShiftBreak : Nat := 0xB6
def lCtrlMake : Nat := 0x1D
def lCtrlBreak : Nat := 0x9D
def lAltMake : Nat := 0x38
def lAltBreak : Nat := 0xB8
def lKey : Nat := 0x26
def enterKey : Nat := 0x1C
def backspaceKey : Nat := 0x0E
def f1Key : Nat := 0x3B
def f2Key : Nat := 0x3C
def f3Key : Nat := 0x3D
def supportedKeys : Nat := 0x45
def maxKbBuf : Int := 128

def keyPress : List UInt8 :=
  [0, 0, 0x31, 0x32, 0x33, 0x34, 0x35, 0x36, 0x37, 0x38, 0x39, 0x30, 0x2D, 0x3D, 0, 0,
    0x71, 0x77, 0x65, 0x72, 0x74, 0x79, 0x75, 0x69, 0x6F, 0x70, 0x5B, 0x5D, 0x0A, 0, 0x61, 0x73,
    0x64, 0x66, 0x67, 0x68, 0x6A, 0x6B, 0x6C, 0x3B, 0x27, 0x60, 0, 0x5C, 0x7A, 0x78, 0x63, 0x76,
    0x62, 0x6E, 0x6D, 0x2C, 0x2E, 0x2F, 0, 0x2A, 0, 0x20, 0, 0, 0, 0, 0, 0, 0, 0, 0, 0, 0]

def capsKeyPress : List UInt8 :=
  [0, 0, 0x31, 0x32, 0x33, 0x34, 0x35, 0x36, 0x37, 0x38, 0x39, 0x30, 0x2D, 0x3D, 0, 0,
    0x51, 0x57, 0x45, 0x52, 0x54, 0x59, 0x55, 0x49, 0x4F, 0x50, 0x5B, 0x5D, 0x0A, 0, 0x41, 0x53,
    0x44, 0x46, 0x47, 0x48, 0x4A, 0x4B, 0x4C, 0x3B, 0x27, 0x60, 0, 0x5C, 0x5A, 0x58, 0x43, 0x56,
    0x42, 0x4E, 0x4D, 0x2C, 0x2E, 0x2F, 0, 0x2A, 0, 0x20, 0, 0, 0, 0, 0, 0, 0, 0, 0, 0, 0]

def shiftKeyPress : List UInt8 :=
  [0, 0, 0x21, 0x40, 0x23, 0x24, 0x25, 0x5E, 0x26, 0x2A, 0x28, 0x29, 0x5F, 0x2B, 0, 0,
    0x51, 0x57, 0x45, 0x52, 0x54, 0x59, 0x55, 0x49, 0x4F, 0x50, 0x7B, 0x7D, 0x0A, 0, 0x41, 0x53,
    0x44, 0x46, 0x47, 0x48, 0x4A, 0x4B, 0x4C, 0x3A, 0x22, 0x7E, 0, 0x7C, 0x5A, 0x58, 0x43, 0x56,
    0x42, 0x4E, 0x4D, 0x3C, 0x3E, 0x3F, 0, 0x2A, 0, 0x20, 0, 0, 0, 0, 0, 0, 0, 0, 0, 0, 0]

def capsShiftKeyPress : List UInt8 :=
  [0, 0, 0x21, 0x40, 0x23, 0x24, 0x25, 0x5E, 0x26, 0x2A, 0x28, 0x29, 0x5F, 0x2B, 0, 0,
    0x71, 0x77, 0x65, 0x72, 0x74, 0x79, 0x75, 0x69, 0x6F, 0x70, 0x7B, 0x7D, 0x0A, 0, 0x61, 0x73,
    0x64, 0x66, 0x67, 0x68, 0x6A, 0x6B, 0x6C, 0x3A, 0x22, 0x7E, 0, 0x7C, 0x7A, 0x78, 0x63, 0x76,
    0x62, 0x6E, 0x6D, 0x3C, 0x3E, 0x3F, 0, 0x2A, 0, 0x20, 0, 0, 0, 0, 0, 0, 0, 0, 0, 0, 0]

/-- The table the two shifting modifiers select. -/
def keyTable (s : Console) : List UInt8 :=
  if s.capsOn && s.shiftOn then capsShiftKeyPress
  else if s.capsOn then capsKeyPress
  else if s.shiftOn then shiftKeyPress
  else keyPress

theorem length_keyTable (s : Console) : (keyTable s).length = supportedKeys := by
  unfold keyTable
  split_ifs <;> rfl

/-- The keys that have a character in no table: the modifiers, and every key from F1 on. -/
def silentKey (pressed : Nat) : Bool :=
  pressed ∈ [capsKey, lShiftMake, rShiftMake, lCtrlMake, lAltMake] || decide (f1Key ≤ pressed)

theorem keyTable_silentKey (s : Console) {pressed : Nat} (h : silentKey pressed = true) :
    (keyTable s).getD pressed 0 = 0 := by
  rcases Nat.lt_or_ge pressed supportedKeys with hlt | hge
  · have hcases : ∀ table ∈ [capsShiftKeyPress, capsKeyPress, shiftKeyPress, keyPress],
        ∀ k < supportedKeys, silentKey k = true → table.getD k 0 = 0 := by decide
    apply hcases _ _ pressed hlt h
    unfold keyTable
    split_ifs <;> simp
  · exact List.getD_eq_default _ _ (by rw [length_keyTable]; exact hge)

def clearKeyboardBuf (s : Console) : Console :=
  { s with readyToRead := fun _ => false, kbBufIndex := fun _ => 0 }

/-- The reset of a full buffer at the start of each iteration. -/
def resetFull (s : Console) : Console :=
  if s.kbBufIndex s.displayTerminal = maxKbBuf then
    { s with kbBufIndex := Function.update s.kbBufIndex s.displayTerminal 0 }
  else s

/-- `kb_buf[display_terminal][kb_buf_index[display_terminal]] = value` and the increment of the index. -/
def kbAppend (s : Console) (value : UInt8) : Console :=
  let t := s.displayTerminal
  let i := s.kbBufIndex t
  { s with
    kbBuf := Function.update s.kbBuf t (Function.update (s.kbBuf t) i value)
    kbBufIndex := Function.update s.kbBufIndex t (i + 1)
    kbStores := (t, i) :: s.kbStores }

def backspace (s : Console) : Console :=
  if s.screenX > 0 then
    let s := putc { s with screenX := s.screenX - 1 } 0x20
    let s := { s with screenX := s.screenX - 1 }
    if s.kbBufIndex s.displayTerminal > 0 then
      { s with kbBufIndex :=
          Function.update s.kbBufIndex s.displayTerminal (s.kbBufIndex s.displayTerminal - 1) }
    else s
  else s

def enter (s : Console) : Console :=
  let s := putc (kbAppend s 0x0A) 0x0A
  { s with readyToRead := Function.update s.readyToRead s.displayTerminal true }

/-- The cursor is saved, the display changed for F1, F2 and F3, and the cursor restored. -/
def switchTerminal (s : Console) (pressed : Nat) : Console :=
  let s := { s with
    virtualX := Function.update s.virtualX s.displayTerminal s.screenX
    virtualY := Function.update s.virtualY s.displayTerminal s.screenY }
  let s :=
    if pressed = f1Key then changeDisplayTerm s 0
    else if pressed = f2Key then changeDisplayTerm s 1
    else if pressed = f3Key then changeDisplayTerm s 2
    else s
  { s with screenX := s.virtualX s.displayTerminal, screenY := s.virtualY s.displayTerminal }

/-- The `default` case for a supported key. The flag says that the handler returned. -/
def otherKey (s : Console) (pressed : Nat) : Console × Bool :=
  let s := if s.altOn && decide (pressed ≥ f1Key) then switchTerminal s pressed else s
  if s.ctrlOn && decide (pressed = lKey) then (termClear s, true)
  else if s.kbBufIndex s.displayTerminal = maxKbBuf - 1 then (s, true)
  else
    let value := (keyTable s).getD pressed 0
    let s := { s with keyLookups := (pressed : Int) :: s.keyLookups }
    if value ≠ 0 then (putc (kbAppend s value) value, false) else (s, false)

/-- The cases of the `switch` that only set a modifier. The release of Left Alt clears `ctrl_on`. -/
def modifierKey (s : Console) (pressed : Nat) : Option Console :=
  if pressed = capsKey then some { s with capsOn := !s.capsOn }
  else if pressed = lShiftMake ∨ pressed = rShiftMake then some { s with shiftOn := true }
  else if pressed = lShiftBreak ∨ pressed = rShiftBreak then some { s with shiftOn := false }
  else if pressed = lCtrlMake then some { s with ctrlOn := true }
  else if pressed = lCtrlBreak then some { s with ctrlOn := false }
  else if pressed = lAltMake then some { s with altOn := true }
  else if pressed = lAltBreak then some { s with ctrlOn := false }
  else none

/-- One iteration of the loop of `keyboard_handler`. -/
def keyboardStep (s : Console) (pressed : Nat) : Console × Bool :=
  let s := resetFull s
  match modifierKey s pressed with
  | some s => (s, false)
  | none =>
      if pressed = backspaceKey then (backspace s, false)
      else if pressed = enterKey then (enter s, false)
      else if pressed < supportedKeys then otherKey s pressed
      else (s, false)

/-- The scan codes the controller offers in one interrupt, until the handler returns. -/
def keyboardHandler (s : Console) : List Nat → Console
  | [] => s
  | pressed :: rest =>
      let (s, returned) := keyboardStep s pressed
      if returned then s else keyboardHandler s rest

/-- `keyboard_init`, without the interrupt line it enables. `alt_on` is kept. -/
def keyboardInit (s : Console) : Console :=
  clearKeyboardBuf { s with capsOn := false, ctrlOn := false, shiftOn := false }

def termOpen (s : Console) : Console :=
  { termClear (keyboardInit s) with virtualX := fun _ => 0, virtualY := fun _ => 0 }

/-- `term_close`, without the interrupt line that `keyboard_disable` masks. -/
def termClose (s : Console) : Console := clearKeyboardBuf s

/-- `term_read` into a non-NULL buffer: the new state, the returned count and the bytes stored from
the start of the buffer. `none` is the wait for `ready_to_read`. The count stays 0 in the second
branch, and a negative `nbytes` is a huge `memcpy` length there. -/
def termRead (s : Console) (nbytes : Int) : Option (Console × Int × List UInt8) :=
  let t := s.displayTerminal
  let held (n : Nat) : List UInt8 := (List.range n).map fun i : Nat => s.kbBuf t i
  if s.readyToRead t then
    if nbytes > s.kbBufIndex t then
      some (clearKeyboardBuf s, s.kbBufIndex t,
        held (s.kbBufIndex t).toNat ++ List.replicate (nbytes - s.kbBufIndex t).toNat 0)
    else some (clearKeyboardBuf s, 0, held (nbytes % 2 ^ 32).toNat)
  else none

theorem modifierKey_some {s s' : Console} {pressed : Nat} (h : modifierKey s pressed = some s') :
    silentKey pressed = true ∧ ∃ caps shift ctrl alt,
      s' = { s with capsOn := caps, shiftOn := shift, ctrlOn := ctrl, altOn := alt } := by
  rw [modifierKey] at h
  split at h
  · next hk => subst hk; exact ⟨by decide, _, _, _, _, (Option.some.inj h).symm⟩
  split at h
  · next hk => exact ⟨by rcases hk with rfl | rfl <;> decide, _, _, _, _, (Option.some.inj h).symm⟩
  split at h
  · next hk => exact ⟨by rcases hk with rfl | rfl <;> decide, _, _, _, _, (Option.some.inj h).symm⟩
  split at h
  · next hk => subst hk; exact ⟨by decide, _, _, _, _, (Option.some.inj h).symm⟩
  split at h
  · next hk => subst hk; exact ⟨by decide, _, _, _, _, (Option.some.inj h).symm⟩
  split at h
  · next hk => subst hk; exact ⟨by decide, _, _, _, _, (Option.some.inj h).symm⟩
  split at h
  · next hk => subst hk; exact ⟨by decide, _, _, _, _, (Option.some.inj h).symm⟩
  · cases h

/-- What one iteration can do: change a modifier or nothing at all, which only keys without a character
do, or take one of the three cases that touch the screen. -/
theorem keyboardStep_cases (s : Console) (pressed : Nat) :
    (silentKey pressed = true ∧ ∃ caps shift ctrl alt, (keyboardStep s pressed).1 =
      { resetFull s with capsOn := caps, shiftOn := shift, ctrlOn := ctrl, altOn := alt }) ∨
    (pressed = backspaceKey ∧ (keyboardStep s pressed).1 = backspace (resetFull s)) ∨
    (pressed = enterKey ∧ (keyboardStep s pressed).1 = enter (resetFull s)) ∨
    (pressed ≠ enterKey ∧ pressed < supportedKeys ∧
      keyboardStep s pressed = otherKey (resetFull s) pressed) := by
  cases hmod : modifierKey (resetFull s) pressed with
  | some s' =>
      obtain ⟨hsilent, caps, shift, ctrl, alt, rfl⟩ := modifierKey_some hmod
      refine .inl ⟨hsilent, caps, shift, ctrl, alt, ?_⟩
      simp only [keyboardStep, hmod]
  | none =>
      simp only [keyboardStep, hmod]
      by_cases hback : pressed = backspaceKey
      · exact .inr (.inl ⟨hback, by rw [if_pos hback]⟩)
      by_cases henter : pressed = enterKey
      · exact .inr (.inr (.inl ⟨henter, by rw [if_neg hback, if_pos henter]⟩))
      by_cases hother : pressed < supportedKeys
      · exact .inr (.inr (.inr ⟨henter, hother, by rw [if_neg hback, if_neg henter, if_pos hother]⟩))
      · refine .inl ⟨?_, _, _, _, _, by rw [if_neg hback, if_neg henter, if_neg hother]⟩
        simp only [silentKey, Bool.or_eq_true, decide_eq_true_eq]
        simp only [supportedKeys, f1Key] at *
        omega

/-- What the default case can do: switch the terminal, clear it, nothing but look the key up, or store a
character and echo it. A key that switches has no character. -/
theorem otherKey_cases (s : Console) (pressed : Nat) :
    (s.altOn = true ∧ f1Key ≤ pressed ∧
      ((otherKey s pressed).1 = switchTerminal s pressed ∨ (otherKey s pressed).1 =
        { switchTerminal s pressed with
          keyLookups := (pressed : Int) :: (switchTerminal s pressed).keyLookups })) ∨
    (s.ctrlOn = true ∧ pressed = lKey ∧ (otherKey s pressed).1 = termClear s) ∨
    ((s.kbBufIndex s.displayTerminal = maxKbBuf - 1 ∨ (keyTable s).getD pressed 0 = 0) ∧
      ((otherKey s pressed).1 = s ∨
        (otherKey s pressed).1 = { s with keyLookups := (pressed : Int) :: s.keyLookups })) ∨
    (¬ (s.ctrlOn = true ∧ pressed = lKey) ∧ s.kbBufIndex s.displayTerminal ≠ maxKbBuf - 1 ∧
      (keyTable s).getD pressed 0 ≠ 0 ∧ (otherKey s pressed).1 =
        putc (kbAppend { s with keyLookups := (pressed : Int) :: s.keyLookups } ((keyTable s).getD pressed 0))
          ((keyTable s).getD pressed 0)) := by
  by_cases hswitch : s.altOn = true ∧ f1Key ≤ pressed
  · refine .inl ⟨hswitch.1, hswitch.2, ?_⟩
    have hsilent : silentKey pressed = true := by simp [silentKey, hswitch.2]
    have hclear : ¬ pressed = lKey := by
      have := hswitch.2
      simp only [f1Key, lKey] at *
      omega
    have hcond : (s.altOn && decide (pressed ≥ f1Key)) = true := by simpa using hswitch
    simp only [otherKey, hcond, if_true, hclear, decide_false, Bool.and_false, Bool.false_eq_true, if_false,
      keyTable_silentKey _ hsilent, ne_eq, not_true_eq_false]
    split_ifs
    · exact .inl rfl
    · exact .inr rfl
  · refine .inr ?_
    have hcond : (s.altOn && decide (pressed ≥ f1Key)) = false := by simpa using hswitch
    simp only [otherKey, hcond, Bool.false_eq_true, if_false]
    by_cases hclear : (s.ctrlOn && decide (pressed = lKey)) = true
    · rw [if_pos hclear]
      rw [Bool.and_eq_true, decide_eq_true_eq] at hclear
      exact .inl ⟨hclear.1, hclear.2, rfl⟩
    · rw [if_neg hclear]
      refine .inr ?_
      by_cases hfull : s.kbBufIndex s.displayTerminal = maxKbBuf - 1
      · rw [if_pos hfull]
        exact .inl ⟨.inl hfull, .inl rfl⟩
      · rw [if_neg hfull]
        by_cases hvalue : (keyTable s).getD pressed 0 = 0
        · rw [if_neg (not_not.mpr hvalue)]
          exact .inl ⟨.inr hvalue, .inr rfl⟩
        · rw [if_pos hvalue]
          exact .inr ⟨by simpa using hclear, hfull, hvalue, rfl⟩

end UnixOs
