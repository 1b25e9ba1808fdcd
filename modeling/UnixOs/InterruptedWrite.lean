import UnixOs.TerminalIndependence

/-! `term_write` with terminal switches between its characters. The test for the displayed terminal is
made once, before the first character; a keyboard interrupt may change the display after it. -/

namespace UnixOs

/-- One character of a write, or a keyboard interrupt with Alt and a function key. -/
inductive WriteEvent where
  | char (c : UInt8)
  | switch (next : Term)

/-- The function key of a terminal. -/
def functionKey : Term → Nat
  | 0 => f1Key
  | 1 => f2Key
  | 2 => f3Key

/-- A step of `term_write` after its test: `direct` is what the test found. -/
def writeStep (t : Term) (direct : Bool) (s : Console) : WriteEvent → Console
  | .char c => if direct then putc s c else termPutc t s c
  | .switch next => keyboardHandler s [lAltMake, functionKey next]

/-- A `term_write` by a process of terminal `t`, cut into its characters. -/
def interruptedWrite (t : Term) (s : Console) (es : List WriteEvent) : Console :=
  es.foldl (writeStep t (decide (t = s.displayTerminal))) s

/-- The bytes that are written. -/
def written (es : List WriteEvent) : List UInt8 :=
  es.filterMap fun
    | .char c => some c
    | .switch _ => none

/-- Where the switches are: `none` stands for a character. -/
def placement (es : List WriteEvent) : List (Option Term) :=
  es.map fun
    | .char _ => none
    | .switch next => some next

/-- Without interrupts the steps are `term_write`. -/
theorem interruptedWrite_chars (t : Term) (s : Console) (buf : List UInt8) :
    interruptedWrite t s (buf.map .char) = termWrite t s buf := by
  unfold interruptedWrite termWrite
  by_cases ht : t = s.displayTerminal
  · rw [if_pos ht, decide_eq_true ht, List.foldl_map]
    rfl
  · rw [if_neg ht, decide_eq_false ht, List.foldl_map]
    rfl

/-! ### Steps -/

theorem silentKey_functionKey (next : Term) : silentKey (functionKey next) = true := by
  fin_cases next <;> decide

theorem not_erases_functionKey (s : Console) (next : Term) : ¬ Erases s (functionKey next) := by
  have hkeys : functionKey next ≠ backspaceKey ∧ functionKey next ≠ lKey := by
    fin_cases next <;> decide
  rintro (h | ⟨-, h⟩)
  · exact hkeys.1 h
  · exact hkeys.2 h

theorem keyboardStep_alt (s : Console) : keyboardStep s lAltMake = ({ resetFull s with altOn := true }, false) := rfl

theorem keyboardHandler_switch (s : Console) (next : Term) :
    keyboardHandler s [lAltMake, functionKey next] =
      (keyboardStep { resetFull s with altOn := true } (functionKey next)).1 := by
  rw [keyboardHandler, keyboardStep_alt]
  simp only [Bool.false_eq_true, if_false]
  exact keyboardHandler_single _ _

theorem switch_feeds (s : Console) (next t : Term) :
    Feeds s (keyboardHandler s [lAltMake, functionKey next]) t [] := by
  have hreset := sameDisplay_resetFull s
  have hfirst : SameDisplay s { resetFull s with altOn := true } :=
    ⟨hreset.video, hreset.screenX, hreset.screenY, hreset.virtualX, hreset.virtualY, hreset.displayTerminal⟩
  have hsecond := keyboardStep_feeds (not_erases_functionKey { resetFull s with altOn := true } next)
  rw [echo_silentKey _ (silentKey_functionKey next)] at hsecond
  rw [keyboardHandler_switch]
  intro scr hscr u
  have hafter := hsecond _ (hfirst.feeds t scr hscr) u
  simpa [Screen.feed] using hafter

/-- With Alt held the function key displays its terminal, whether or not the buffer there is full. -/
theorem displayTerminal_switch (s : Console) (next : Term) :
    (keyboardHandler s [lAltMake, functionKey next]).displayTerminal = next := by
  have hafter : ∀ s : Console, s.altOn = true → (keyboardStep s (functionKey next)).1.displayTerminal = next := by
    intro s halt
    have hmod : modifierKey (resetFull s) (functionKey next) = none := by fin_cases next <;> rfl
    have hflag : (resetFull s).altOn = true := by
      unfold resetFull
      split_ifs <;> exact halt
    have hkeys : functionKey next ≠ backspaceKey ∧ functionKey next ≠ enterKey ∧
        functionKey next < supportedKeys ∧ functionKey next ≥ f1Key := by
      fin_cases next <;> decide
    have hswitch : ∀ s, (switchTerminal s (functionKey next)).displayTerminal = next := by
      intro s
      fin_cases next <;> rfl
    simp only [keyboardStep, hmod]
    rw [if_neg hkeys.1, if_neg hkeys.2.1, if_pos hkeys.2.2.1, otherKey]
    simp only [hflag, decide_eq_true hkeys.2.2.2, Bool.and_self, if_true]
    split_ifs <;> exact hswitch _
  rw [keyboardHandler_switch]
  exact hafter _ rfl

theorem displayTerminal_char (t : Term) (direct : Bool) (s : Console) (c : UInt8) :
    (writeStep t direct s (.char c)).displayTerminal = s.displayTerminal := by
  cases direct <;> rfl

/-- A character takes the right path when the test still holds. -/
theorem char_feeds {t : Term} {direct : Bool} {s : Console} (h : decide (t = s.displayTerminal) = direct)
    (c : UInt8) : Feeds s (writeStep t direct s (.char c)) t [c] := by
  cases direct with
  | true =>
      have ht : t = s.displayTerminal := of_decide_eq_true h
      have hputc := putc_feeds s c
      rwa [← ht] at hputc
  | false => exact termPutc_feeds (of_decide_eq_false h) c

/-- A printed character moves the cursor to another column. -/
theorem col_put_ne (scr : Screen 25 80) : (scr.put attrib 0x41).col ≠ scr.col := by
  have hcol := scr.col.isLt
  have hprint : ¬ ((0x41 : UInt8) = 0x0A ∨ (0x41 : UInt8) = 0x0D) := by decide
  rw [Screen.put, if_neg hprint]
  split_ifs with hnext
  · intro heq
    have := congrArg Fin.val heq
    simp only at this
    omega
  · unfold Screen.lineFeed
    intro heq
    have hzero : scr.col.val = 0 := by
      split_ifs at heq
      · exact (congrArg Fin.val heq).symm
      · exact (congrArg Fin.val heq).symm
    omega

/-- On the wrong path a character leaves the writer's own cursor where it was. -/
theorem cursor_wrong_path {t : Term} {direct : Bool} {s : Console}
    (h : decide (t = s.displayTerminal) ≠ direct) (c : UInt8) :
    (writeStep t direct s (.char c)).cursor t = s.cursor t := by
  cases direct with
  | true =>
      have ht : t ≠ s.displayTerminal := by simpa using h
      simp [writeStep, Console.cursor, putc, ht]
  | false =>
      have ht : t = s.displayTerminal := by simpa using h
      simp [writeStep, Console.cursor, termPutc, ht]

/-! ### Whole writes -/

/-- At every character the displayed terminal is the writer's exactly if it was at the test. -/
def Steady (t : Term) (direct : Bool) : Term → List (Option Term) → Prop
  | _, [] => True
  | shown, none :: rest => decide (t = shown) = direct ∧ Steady t direct shown rest
  | _, some next :: rest => Steady t direct next rest

theorem Steady.of_prefix {t : Term} {direct : Bool} {shown : Term} {first places : List (Option Term)}
    (h : Steady t direct shown places) (hbefore : first <+: places) : Steady t direct shown first := by
  induction first generalizing shown places with
  | nil => trivial
  | cons place first ih =>
      obtain ⟨after, rfl⟩ := hbefore
      cases place with
      | none => exact ⟨h.1, ih h.2 (List.prefix_append _ _)⟩
      | some next => exact ih h (List.prefix_append first after)

theorem steady_feeds {t : Term} {direct : Bool} (es : List WriteEvent) {s : Console}
    (h : Steady t direct s.displayTerminal (placement es)) :
    Feeds s (es.foldl (writeStep t direct) s) t (written es) := by
  induction es generalizing s with
  | nil => exact .refl s t
  | cons e es ih =>
      cases e with
      | char c =>
          have hrest := ih (s := writeStep t direct s (.char c)) (by rw [displayTerminal_char]; exact h.2)
          exact (char_feeds h.1 c).trans hrest
      | switch next =>
          have hrest := ih (s := writeStep t direct s (.switch next))
            (by rw [writeStep, displayTerminal_switch]; exact h)
          exact (switch_feeds s next t).trans hrest

/-- The screens that a write should leave. -/
def WriteReaches (t : Term) (direct : Bool) (s : Console) (scr : Term → Screen 25 80)
    (es : List WriteEvent) : Prop :=
  ∀ u, (es.foldl (writeStep t direct) s).ShowsOn u ((scr u).feed attrib (if u = t then written es else []))

theorem steady_of_reaches {t : Term} {direct : Bool} (places : List (Option Term)) {s : Console}
    {scr : Term → Screen 25 80} (hstart : ∀ u, s.ShowsOn u (scr u))
    (h : ∀ es, placement es <+: places → WriteReaches t direct s scr es) :
    Steady t direct s.displayTerminal places := by
  induction places generalizing s scr with
  | nil => trivial
  | cons place places ih =>
      cases place with
      | none =>
          -- the byte is free, so take one that moves the cursor
          have hfirst := h [.char 0x41] ⟨places, rfl⟩
          have hright : decide (t = s.displayTerminal) = direct := by
            by_contra hwrong
            have hshown := (hfirst t).x
            have hcursor := cursor_wrong_path hwrong 0x41
            rw [List.foldl_cons, List.foldl_nil, hcursor, (hstart t).x, if_pos rfl] at hshown
            exact col_put_ne (scr t) (Fin.ext (by exact_mod_cast hshown.symm))
          refine ⟨hright, ?_⟩
          have hrest := ih (s := writeStep t direct s (.char 0x41)) hfirst fun es hes u => ?_
          · rwa [displayTerminal_char] at hrest
          · have hall := h (.char 0x41 :: es) (List.cons_prefix_cons.mpr ⟨rfl, hes⟩) u
            by_cases hu : u = t
            · simpa [hu, written, Screen.feed] using hall
            · simpa [hu, Screen.feed] using hall
      | some next =>
          have hfirst : ∀ u, (writeStep t direct s (.switch next)).ShowsOn u (scr u) := fun u => by
            simpa [writeStep, Screen.feed] using switch_feeds s next t scr hstart u
          have hrest := ih (s := writeStep t direct s (.switch next)) hfirst fun es hes =>
            h (.switch next :: es) (List.cons_prefix_cons.mpr ⟨rfl, hes⟩)
          rwa [writeStep, displayTerminal_switch] at hrest

/-- For a placement of switches, the characters reach the writer's terminal and no other, whatever they
are and however many of them have been written, exactly if at every character the display is the
writer's terminal as it was at the test. -/
theorem write_reaches_terminal_iff {s : Console} {scr : Term → Screen 25 80}
    (hstart : ∀ u, logicalScreen s u = (scr u).raw) (t : Term) (places : List (Option Term)) :
    (∀ es, placement es <+: places → ∀ u, logicalScreen (interruptedWrite t s es) u =
      ((scr u).feed attrib (if u = t then written es else [])).raw) ↔
    Steady t (decide (t = s.displayTerminal)) s.displayTerminal places := by
  have hshows : ∀ u, s.ShowsOn u (scr u) := fun u => (logicalScreen_eq_raw_iff s u _).mp (hstart u)
  constructor
  · intro h
    exact steady_of_reaches places hshows fun es hes u => (logicalScreen_eq_raw_iff _ u _).mp (h es hes u)
  · intro h es hes u
    rw [logicalScreen_eq_raw_iff]
    have hfed := steady_feeds es (h.of_prefix hes) scr hshows u
    by_cases hu : u = t
    · simpa [hu, interruptedWrite] using hfed
    · simpa [hu, interruptedWrite, Screen.feed] using hfed

/-- A hidden terminal is written to while the display changes between the other two. -/
theorem write_reaches_terminal_iff_hidden :
    logicalScreen (interruptedWrite 1 blankConsole [.char 0x68, .switch 2, .char 0x69]) 1 =
      (blankScreen.feed attrib [0x68, 0x69]).raw :=
  (write_reaches_terminal_iff logicalScreen_blankConsole 1 [none, some 2, none]).mpr
    ⟨by decide, by decide, trivial⟩ [.char 0x68, .switch 2, .char 0x69] (List.prefix_refl _) 1

/-- The display changes from 0 to 1 after the test of a write by terminal 0: its character moves the
cursor of terminal 1, and the one of terminal 0 stays. -/
theorem switch_diverts_output :
    (logicalScreen (interruptedWrite 0 blankConsole [.switch 1, .char 0x41]) 1).x = 1 ∧
    (logicalScreen (interruptedWrite 0 blankConsole [.switch 1, .char 0x41]) 0).x = 0 ∧
    ¬ ∀ u, logicalScreen (interruptedWrite 0 blankConsole [.switch 1, .char 0x41]) u =
      (blankScreen.feed attrib (if u = 0 then [0x41] else [])).raw := by
  have hother : (logicalScreen (interruptedWrite 0 blankConsole [.switch 1, .char 0x41]) 1).x = 1 := by decide
  refine ⟨hother, by decide, fun h => ?_⟩
  have hone := congrArg LogicalScreen.x (h 1)
  rw [hother] at hone
  exact absurd hone (by decide)

end UnixOs
