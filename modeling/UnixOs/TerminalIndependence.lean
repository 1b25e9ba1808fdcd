import UnixOs.KeyboardHandler

/-! Which terminal is displayed does not show in what the terminals display. Every terminal's logical
screen is the reference terminal fed with that terminal's own bytes, for any order of writes, echoed
keys and switches: a switch swaps pages and cursors but feeds nothing, and both output paths feed the
same way. -/

namespace UnixOs

/-- The variables that logical screens are made of are the same in two states. -/
structure SameDisplay (s s' : Console) : Prop where
  video : s'.video = s.video
  screenX : s'.screenX = s.screenX
  screenY : s'.screenY = s.screenY
  virtualX : s'.virtualX = s.virtualX
  virtualY : s'.virtualY = s.virtualY
  displayTerminal : s'.displayTerminal = s.displayTerminal

theorem SameDisplay.feeds {s s' : Console} (h : SameDisplay s s') (t : Term) : Feeds s s' t [] := by
  intro scr hscr u
  have hu := hscr u
  simp only [Console.ShowsOn, Console.region, Console.cursor] at hu ⊢
  rw [h.video, h.screenX, h.screenY, h.virtualX, h.virtualY, h.displayTerminal]
  simpa [Screen.feed] using hu

theorem sameDisplay_resetFull (s : Console) : SameDisplay s (resetFull s) := by
  unfold resetFull
  split_ifs <;> exact ⟨rfl, rfl, rfl, rfl, rfl, rfl⟩

/-! ### Switching -/

theorem copy4kbPage_apply (source dest : Nat) (v : Video) (x : Nat) :
    (copy4kbPage source dest v).vram x =
      if dest ≤ x ∧ x < dest + 4096 then v.vram (source + (x - dest)) else v.vram x := by
  simp only [copy4kbPage, Mem.copyFrom, Mem.writeBytes, Mem.length_readBytes]
  split_ifs with h
  · rw [List.getD_eq_getElem _ _ (by rw [Mem.length_readBytes]; omega), Mem.getElem_readBytes]
  · rfl

theorem termMem_apart {t u : Term} (h : t ≠ u) :
    termMem t + 4096 ≤ termMem u ∨ termMem u + 4096 ≤ termMem t := by
  revert t u
  decide

theorem videoMem_apart (t : Term) : videoMem + 4096 ≤ termMem t := by
  revert t
  decide

/-- Saving the cursor, changing the display and restoring the cursor. -/
def switchTo (s : Console) (next : Term) : Console :=
  let s := changeDisplayTerm { s with
    virtualX := Function.update s.virtualX s.displayTerminal s.screenX
    virtualY := Function.update s.virtualY s.displayTerminal s.screenY } next
  { s with screenX := s.virtualX s.displayTerminal, screenY := s.virtualY s.displayTerminal }

/-- The visible page after a switch is the page the next terminal had. -/
theorem switchTo_visible (s : Console) (next : Term) {i : Nat} (hi : i < 4096) :
    (switchTo s next).video.vram (videoMem + i) =
      s.video.vram ((s.region next).base + i) := by
  have hpage := videoMem_apart next
  simp only [switchTo, changeDisplayTerm, getBackingPage_eq_termMem, copy4kbPage_apply]
  rw [if_pos (by omega), Nat.add_sub_cancel_left]
  by_cases hnext : next = s.displayTerminal
  · rw [if_pos (by rw [hnext]; omega), hnext, Nat.add_sub_cancel_left]
    simp [Console.region, Region.base]
  · have hapart := termMem_apart hnext
    rw [if_neg (by omega)]
    simp [Console.region, Region.base, hnext]

/-- Every terminal has in its backing page after a switch what it showed before. -/
theorem switchTo_backing (s : Console) (next u : Term) {i : Nat} (hi : i < 4096) :
    (switchTo s next).video.vram (termMem u + i) = s.video.vram ((s.region u).base + i) := by
  have hpage := videoMem_apart u
  simp only [switchTo, changeDisplayTerm, getBackingPage_eq_termMem, copy4kbPage_apply]
  rw [if_neg (by omega)]
  by_cases hd : u = s.displayTerminal
  · rw [if_pos (by rw [hd]; omega), hd, Nat.add_sub_cancel_left]
    simp [Console.region, Region.base]
  · have hapart := termMem_apart hd
    rw [if_neg (by omega)]
    simp [Console.region, Region.base, hd]

theorem switchTo_cursor (s : Console) (next u : Term) : (switchTo s next).cursor u = s.cursor u := by
  simp only [switchTo, changeDisplayTerm, Console.cursor, Function.update_apply]
  split_ifs <;> simp_all

theorem switchTo_feeds (s : Console) (next t : Term) : Feeds s (switchTo s next) t [] := by
  intro scr h u
  obtain ⟨hcells, hx, hy⟩ := h u
  rw [← switchTo_cursor s next u] at hx hy
  have hshows : (switchTo s next).ShowsOn u (scr u) := by
    refine ⟨fun y x => ?_, hx, hy⟩
    have hylt := y.isLt
    have hxlt := x.isLt
    obtain ⟨hchar, hattr⟩ := hcells y x
    by_cases hu : u = next
    · subst hu
      have hregion : (switchTo s u).region u = .screen := by
        simp [Console.region, switchTo, changeDisplayTerm]
      rw [hregion, Nat.add_assoc, Region.base, switchTo_visible s u (by omega),
        switchTo_visible s u (by omega)]
      exact ⟨hchar, hattr⟩
    · have hregion : (switchTo s next).region u = .backing u := by
        simp [Console.region, switchTo, changeDisplayTerm, hu]
      rw [hregion, Nat.add_assoc, Region.base, switchTo_backing s next u (by omega),
        switchTo_backing s next u (by omega)]
      exact ⟨hchar, hattr⟩
  simpa [Screen.feed] using hshows

/-- The handler's block is a switch for F1, F2 and F3, and only rewrites the saved cursor with itself
for the other function keys. -/
theorem switchTerminal_feeds (s : Console) (pressed : Nat) (t : Term) :
    Feeds s (switchTerminal s pressed) t [] := by
  by_cases h1 : pressed = f1Key
  · have heq : switchTerminal s pressed = switchTo s 0 := by simp only [switchTerminal, switchTo, if_pos h1]
    exact heq ▸ switchTo_feeds s 0 t
  by_cases h2 : pressed = f2Key
  · have heq : switchTerminal s pressed = switchTo s 1 := by
      simp only [switchTerminal, switchTo, if_neg h1, if_pos h2]
    exact heq ▸ switchTo_feeds s 1 t
  by_cases h3 : pressed = f3Key
  · have heq : switchTerminal s pressed = switchTo s 2 := by
      simp only [switchTerminal, switchTo, if_neg h1, if_neg h2, if_pos h3]
    exact heq ▸ switchTo_feeds s 2 t
  intro scr h u
  have hu := h u
  simp only [switchTerminal, if_neg h1, if_neg h2, if_neg h3, Console.ShowsOn, Console.region,
    Console.cursor] at hu ⊢
  by_cases hd : u = s.displayTerminal
  · simpa [hd, Screen.feed] using hu
  · simpa [hd, Screen.feed] using hu

/-! ### Runs of writes, echoed keys and switches -/

/-- The bytes a key echoes: a newline for Enter, otherwise its character, unless the displayed
terminal's buffer already holds 127 characters. -/
def echo (s : Console) (pressed : Nat) : List UInt8 :=
  if pressed = enterKey then [0x0A]
  else if s.kbBufIndex s.displayTerminal = maxKbBuf - 1 then []
  else if (keyTable s).getD pressed 0 = 0 then []
  else [(keyTable s).getD pressed 0]

/-- The keys that edit the screen instead of echoing: Backspace and Ctrl+L. -/
def Erases (s : Console) (pressed : Nat) : Prop :=
  pressed = backspaceKey ∨ (s.ctrlOn = true ∧ pressed = lKey)

theorem kbAppend_sameDisplay (s : Console) (value : UInt8) : SameDisplay s (kbAppend s value) :=
  ⟨rfl, rfl, rfl, rfl, rfl, rfl⟩

theorem enter_feeds (s : Console) : Feeds s (enter s) s.displayTerminal [0x0A] := by
  have hputc := putc_feeds (kbAppend s 0x0A) 0x0A
  have hready : SameDisplay (putc (kbAppend s 0x0A) 0x0A) (enter s) := ⟨rfl, rfl, rfl, rfl, rfl, rfl⟩
  exact (((kbAppend_sameDisplay s 0x0A).feeds s.displayTerminal).trans hputc).trans (hready.feeds _)

theorem echo_silentKey (s : Console) {pressed : Nat} (hsilent : silentKey pressed = true) :
    echo s pressed = [] := by
  have henter : pressed ≠ enterKey := by
    intro h
    subst h
    revert hsilent
    decide
  rw [echo, if_neg henter, if_pos (keyTable_silentKey s hsilent)]
  split_ifs <;> rfl

theorem otherKey_feeds {s : Console} {pressed : Nat} (henter : pressed ≠ enterKey)
    (herase : ¬ Erases s pressed) :
    Feeds s (otherKey s pressed).1 s.displayTerminal (echo s pressed) := by
  have hlookup : ∀ s : Console, SameDisplay s { s with keyLookups := (pressed : Int) :: s.keyLookups } :=
    fun _ => ⟨rfl, rfl, rfl, rfl, rfl, rfl⟩
  rcases otherKey_cases s pressed with ⟨-, hfunction, heq⟩ | ⟨hon, hl, -⟩ | ⟨hnone, heq⟩ |
    ⟨-, hfull, hvalue, heq⟩
  · -- a function key: the block runs, and no table has a character for it
    have hsilent : silentKey pressed = true := by simp [silentKey, hfunction]
    have hfeeds := switchTerminal_feeds s pressed s.displayTerminal
    rw [echo_silentKey s hsilent]
    rcases heq with heq | heq
    · rw [heq]
      exact hfeeds
    · rw [heq]
      exact hfeeds.trans ((hlookup _).feeds _)
  · exact absurd (.inr ⟨hon, hl⟩) herase
  · have hempty : echo s pressed = [] := by
      rw [echo, if_neg henter]
      rcases hnone with hfull | hvalue
      · rw [if_pos hfull]
      · rw [if_pos hvalue, ite_self]
    rw [hempty]
    rcases heq with heq | heq
    · rw [heq]
      exact .refl _ _
    · rw [heq]
      exact (hlookup s).feeds _
  · rw [heq, echo, if_neg henter, if_neg hfull, if_neg hvalue]
    have hsame : SameDisplay s (kbAppend { s with keyLookups := (pressed : Int) :: s.keyLookups }
        ((keyTable s).getD pressed 0)) := ⟨rfl, rfl, rfl, rfl, rfl, rfl⟩
    exact (hsame.feeds _).trans (putc_feeds _ _)

theorem ctrlOn_resetFull (s : Console) : (resetFull s).ctrlOn = s.ctrlOn := by
  unfold resetFull
  split_ifs <;> rfl

/-- The reset of a full buffer does not change what a key echoes. -/
theorem echo_resetFull (s : Console) (pressed : Nat) : echo (resetFull s) pressed = echo s pressed := by
  have htable : keyTable (resetFull s) = keyTable s := by
    unfold resetFull
    split_ifs <;> rfl
  have hfull : (resetFull s).kbBufIndex (resetFull s).displayTerminal = maxKbBuf - 1 ↔
      s.kbBufIndex s.displayTerminal = maxKbBuf - 1 := by
    unfold resetFull
    split_ifs with h
    · simp [h, maxKbBuf]
    · rfl
  simp only [echo, htable, hfull]

/-- One scan code feeds its echo to the displayed terminal and nothing to the others. -/
theorem keyboardStep_feeds {s : Console} {pressed : Nat} (herase : ¬ Erases s pressed) :
    Feeds s (keyboardStep s pressed).1 s.displayTerminal (echo s pressed) := by
  have hreset := sameDisplay_resetFull s
  have hfirst := hreset.feeds s.displayTerminal
  rcases keyboardStep_cases s pressed with ⟨hsilent, _, _, _, _, heq⟩ | ⟨hback, _⟩ | ⟨henter, heq⟩ |
    ⟨henter, _, heq⟩
  · rw [heq, echo_silentKey s hsilent]
    exact hfirst.trans (SameDisplay.feeds ⟨rfl, rfl, rfl, rfl, rfl, rfl⟩ _)
  · exact absurd (.inl hback) herase
  · rw [heq, echo, if_pos henter]
    have := enter_feeds (resetFull s)
    rw [hreset.displayTerminal] at this
    exact hfirst.trans this
  · rw [heq]
    have hother := otherKey_feeds (s := resetFull s) henter (by rw [Erases, ctrlOn_resetFull]; exact herase)
    rw [hreset.displayTerminal, echo_resetFull] at hother
    exact hfirst.trans hother

/-- A whole `term_write` by a process of a terminal, or one scan code. -/
inductive ConsoleEvent where
  | write (t : Term) (buf : List UInt8)
  | key (pressed : Nat)

def consoleStep (s : Console) : ConsoleEvent → Console
  | .write t buf => termWrite t s buf
  | .key pressed => keyboardHandler s [pressed]

/-- No key of the sequence is Backspace or Ctrl+L. -/
def NoErase (s : Console) : List ConsoleEvent → Prop
  | [] => True
  | .write t buf :: es => NoErase (consoleStep s (.write t buf)) es
  | .key pressed :: es => ¬ Erases s pressed ∧ NoErase (consoleStep s (.key pressed)) es

/-- The bytes one event sends to a terminal: what its processes write, and what is echoed while it is
displayed. -/
def sent (s : Console) (t : Term) : ConsoleEvent → List UInt8
  | .write u buf => if t = u then buf else []
  | .key pressed => if t = s.displayTerminal then echo s pressed else []

/-- A terminal's own byte stream. -/
def stream (t : Term) (s : Console) : List ConsoleEvent → List UInt8
  | [] => []
  | e :: es => sent s t e ++ stream t (consoleStep s e) es

theorem keyboardHandler_single (s : Console) (pressed : Nat) :
    keyboardHandler s [pressed] = (keyboardStep s pressed).1 := by
  simp only [keyboardHandler]
  split_ifs <;> rfl

/-- One event feeds every terminal what the event sends it. -/
theorem consoleStep_shows {s : Console} {scr : Term → Screen 25 80} {e : ConsoleEvent}
    {es : List ConsoleEvent} (herase : NoErase s (e :: es)) (h : ∀ t, s.ShowsOn t (scr t)) (t : Term) :
    (consoleStep s e).ShowsOn t ((scr t).feed attrib (sent s t e)) := by
  cases e with
  | write u buf =>
      have hfed := termWrite_feeds u s buf scr h t
      by_cases ht : t = u
      · simpa [sent, consoleStep, ht] using hfed
      · simpa [sent, consoleStep, ht, Screen.feed] using hfed
  | key pressed =>
      have hfed := keyboardStep_feeds herase.1 scr h t
      rw [consoleStep, keyboardHandler_single]
      by_cases ht : t = s.displayTerminal
      · simpa [sent, ht] using hfed
      · simpa [sent, ht, Screen.feed] using hfed

theorem run_shows (es : List ConsoleEvent) {s : Console} {scr : Term → Screen 25 80}
    (herase : NoErase s es) (h : ∀ t, s.ShowsOn t (scr t)) (t : Term) :
    (es.foldl consoleStep s).ShowsOn t ((scr t).feed attrib (stream t s es)) := by
  induction es generalizing s scr with
  | nil => simpa [stream, Screen.feed] using h t
  | cons e es ih =>
      have hrest : NoErase (consoleStep s e) es := by
        cases e with
        | write => exact herase
        | key => exact herase.2
      have := ih hrest (fun u => consoleStep_shows herase h u)
      rwa [← Screen.feed_append] at this

theorem logicalScreen_eq_of_shows {s s' : Console} {t : Term} {scr : Screen 25 80}
    (h : s.ShowsOn t scr) (h' : s'.ShowsOn t scr) : logicalScreen s' t = logicalScreen s t :=
  ((logicalScreen_eq_raw_iff s' t scr).mpr h').trans ((logicalScreen_eq_raw_iff s t scr).mpr h).symm

/-- After any sequence of writes, echoed keys and switches, every terminal's logical screen is its
first one fed with its own bytes. In the state reached, a switch changes no logical screen and a write
only the writer's. -/
theorem logicalScreens_independent {s : Console} {scr : Term → Screen 25 80}
    (hstart : ∀ t, logicalScreen s t = (scr t).raw) {es : List ConsoleEvent} (herase : NoErase s es) :
    (∀ t, logicalScreen (es.foldl consoleStep s) t = ((scr t).feed attrib (stream t s es)).raw) ∧
    (∀ pressed ∈ [f1Key, f2Key, f3Key], ∀ t,
      logicalScreen (consoleStep (es.foldl consoleStep s) (.key pressed)) t =
        logicalScreen (es.foldl consoleStep s) t) ∧
    (∀ t buf u, u ≠ t → logicalScreen (consoleStep (es.foldl consoleStep s) (.write t buf)) u =
      logicalScreen (es.foldl consoleStep s) u) := by
  have hshows := fun t => run_shows es herase (fun u => (logicalScreen_eq_raw_iff s u _).mp (hstart u)) t
  refine ⟨fun t => (logicalScreen_eq_raw_iff _ t _).mpr (hshows t), ?_, ?_⟩
  · intro pressed hpressed t
    have hsilent : silentKey pressed = true := by
      have : ∀ k ∈ [f1Key, f2Key, f3Key], silentKey k = true := by decide
      exact this pressed hpressed
    have hkeep : ∀ k ∈ [f1Key, f2Key, f3Key], k ≠ backspaceKey ∧ k ≠ lKey := by decide
    have hplain : ¬ Erases (es.foldl consoleStep s) pressed := by
      rintro (h | h)
      · exact (hkeep pressed hpressed).1 h
      · exact (hkeep pressed hpressed).2 h.2
    have hfed := keyboardStep_feeds hplain _ hshows t
    rw [echo_silentKey _ hsilent] at hfed
    refine logicalScreen_eq_of_shows (hshows t) ?_
    rw [consoleStep, keyboardHandler_single]
    simpa [Screen.feed] using hfed
  · intro t buf u hu
    refine logicalScreen_eq_of_shows (hshows u) ?_
    have hfed := termWrite_feeds t (es.foldl consoleStep s) buf _ hshows u
    simpa [hu, consoleStep] using hfed

def blankScreen : Screen 25 80 where
  chars := fun _ _ => 0
  attrs := fun _ _ => 0
  row := 0
  col := 0

theorem logicalScreen_blankConsole (t : Term) : logicalScreen blankConsole t = blankScreen.raw := by
  have hcursor : blankConsole.cursor t = ⟨0, 0⟩ := ite_self _
  refine LogicalScreen.ext (funext fun i => ?_) ?_ ?_
  · simp [logicalScreen, blankConsole, blankScreen, Screen.raw]
  · simp [logicalScreen, hcursor, blankScreen, Screen.raw]
  · simp [logicalScreen, hcursor, blankScreen, Screen.raw]

/-- A process of terminal 1 writes while 0 is shown, then the display changes to 1 and back. -/
theorem logicalScreens_independent_hidden_write :
    logicalScreen ([.write 1 [0x41, 0x0A], .key lAltMake, .key f2Key, .key f1Key].foldl
        consoleStep blankConsole) 1 =
      (blankScreen.feed attrib [0x41, 0x0A]).raw := by
  have herase : NoErase blankConsole
      [.write 1 [0x41, 0x0A], .key lAltMake, .key f2Key, .key f1Key] := by
    simp [NoErase, Erases, backspaceKey, lKey, lAltMake, f1Key, f2Key]
  exact (logicalScreens_independent logicalScreen_blankConsole herase).1 1

end UnixOs
