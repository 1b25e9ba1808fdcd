import UnixOs.TerminalIndependence

/-! The modifier flags of the keyboard handler against the keys that are held. A flag is right when it
says whether the most recent event of its key was a press. -/

namespace UnixOs

/-- Whether the most recent of a key's events was a make. -/
def mostRecentMake (isMake isBreak : Nat → Bool) (codes : List Nat) : Bool :=
  ((codes.reverse.find? fun c => isMake c || isBreak c).map isMake).getD false

def altHeld : List Nat → Bool := mostRecentMake (fun c => c = lAltMake) (fun c => c = lAltBreak)

def ctrlHeld : List Nat → Bool := mostRecentMake (fun c => c = lCtrlMake) (fun c => c = lCtrlBreak)

/-- The two Shift keys count as one. -/
def shiftHeld : List Nat → Bool :=
  mostRecentMake (fun c => c = lShiftMake ∨ c = rShiftMake) (fun c => c = lShiftBreak ∨ c = rShiftBreak)

/-- The parity of the Caps Lock presses. -/
def capsLocked (codes : List Nat) : Bool := codes.count capsKey % 2 = 1

theorem mostRecentMake_append (isMake isBreak : Nat → Bool) (codes : List Nat) (c : Nat) :
    mostRecentMake isMake isBreak (codes ++ [c]) =
      if isMake c || isBreak c then isMake c else mostRecentMake isMake isBreak codes := by
  simp only [mostRecentMake, List.reverse_append, List.reverse_singleton, List.singleton_append]
  rw [List.find?_cons]
  cases hc : isMake c || isBreak c with
  | true => rw [if_pos rfl, Option.map_some, Option.getD_some]
  | false => rw [if_neg Bool.false_ne_true]

theorem capsLocked_append (codes : List Nat) (c : Nat) :
    capsLocked (codes ++ [c]) = if c = capsKey then !capsLocked codes else capsLocked codes := by
  unfold capsLocked
  rw [List.count_append]
  by_cases hc : c = capsKey
  · subst hc
    rw [if_pos rfl, List.count_singleton_self]
    rcases Nat.mod_two_eq_zero_or_one (codes.count capsKey) with hmod | hmod
    · simp [hmod, Nat.add_mod]
    · simp [hmod, Nat.add_mod]
  · rw [if_neg hc, List.count_singleton, if_neg (by simpa using hc), Nat.add_zero]

/-! ### Scan codes over interrupts -/

/-- The state after scan codes that were all handled. -/
def pressAll (s : Console) (codes : List Nat) : Console := codes.foldl (fun s c => (keyboardStep s c).1) s

/-- The scan codes that one interrupt handles: those up to the one it returns at. -/
def handled (s : Console) : List Nat → List Nat
  | [] => []
  | c :: rest => if (keyboardStep s c).2 then [c] else c :: handled (keyboardStep s c).1 rest

/-- The scan codes that interrupts handle one after the other. -/
def handledIn (s : Console) : List (List Nat) → List Nat
  | [] => []
  | codes :: rest => handled s codes ++ handledIn (keyboardHandler s codes) rest

theorem pressAll_append (s : Console) (codes rest : List Nat) :
    pressAll s (codes ++ rest) = pressAll (pressAll s codes) rest :=
  List.foldl_append

theorem keyboardHandler_eq_pressAll (s : Console) (codes : List Nat) :
    keyboardHandler s codes = pressAll s (handled s codes) := by
  induction codes generalizing s with
  | nil => rfl
  | cons c rest ih =>
      rw [keyboardHandler, handled]
      by_cases hreturn : (keyboardStep s c).2 = true
      · simp only [hreturn, if_true]
        rfl
      · simp only [hreturn, Bool.false_eq_true, if_false]
        exact ih (keyboardStep s c).1

theorem interrupts_eq_pressAll (s : Console) (interrupts : List (List Nat)) :
    interrupts.foldl keyboardHandler s = pressAll s (handledIn s interrupts) := by
  induction interrupts generalizing s with
  | nil => rfl
  | cons codes rest ih =>
      rw [List.foldl_cons, handledIn, pressAll_append, ← keyboardHandler_eq_pressAll]
      exact ih (keyboardHandler s codes)

/-- The four flags of two states are the same. -/
structure SameFlags (s s' : Console) : Prop where
  alt : s'.altOn = s.altOn
  ctrl : s'.ctrlOn = s.ctrlOn
  shift : s'.shiftOn = s.shiftOn
  caps : s'.capsOn = s.capsOn

theorem SameFlags.trans {s s' s'' : Console} (h : SameFlags s s') (h' : SameFlags s' s'') : SameFlags s s'' :=
  ⟨h'.alt.trans h.alt, h'.ctrl.trans h.ctrl, h'.shift.trans h.shift, h'.caps.trans h.caps⟩

theorem sameFlags_resetFull (s : Console) : SameFlags s (resetFull s) := by
  unfold resetFull
  split_ifs <;> exact ⟨rfl, rfl, rfl, rfl⟩

theorem sameFlags_backspace (s : Console) : SameFlags s (backspace s) := by
  simp only [backspace]
  split_ifs <;> exact ⟨rfl, rfl, rfl, rfl⟩

theorem sameFlags_switchTerminal (s : Console) (pressed : Nat) : SameFlags s (switchTerminal s pressed) := by
  simp only [switchTerminal]
  split_ifs <;> exact ⟨rfl, rfl, rfl, rfl⟩

theorem sameFlags_otherKey (s : Console) (pressed : Nat) : SameFlags s (otherKey s pressed).1 := by
  have hswitch := sameFlags_switchTerminal s pressed
  rcases otherKey_cases s pressed with ⟨-, -, heq | heq⟩ | ⟨-, -, heq⟩ | ⟨-, heq | heq⟩ | ⟨-, -, -, heq⟩
  · rw [heq]
    exact hswitch
  · rw [heq]
    exact ⟨hswitch.alt, hswitch.ctrl, hswitch.shift, hswitch.caps⟩
  all_goals
    rw [heq]
    exact ⟨rfl, rfl, rfl, rfl⟩

/-- The flags after one scan code. The release of Left Alt acts on `ctrl_on`. -/
structure FlagsAfter (s : Console) (c : Nat) (s' : Console) : Prop where
  alt : s'.altOn = if c = lAltMake then true else s.altOn
  ctrl : s'.ctrlOn =
    if c = lCtrlMake then true else if c = lCtrlBreak ∨ c = lAltBreak then false else s.ctrlOn
  shift : s'.shiftOn = if c = lShiftMake ∨ c = rShiftMake then true
    else if c = lShiftBreak ∨ c = rShiftBreak then false else s.shiftOn
  caps : s'.capsOn = if c = capsKey then !s.capsOn else s.capsOn

theorem modifierKey_flags {s s' : Console} {c : Nat} (h : modifierKey s c = some s') : FlagsAfter s c s' := by
  rw [modifierKey] at h
  split at h
  · next hk => subst hk; cases h; exact ⟨rfl, rfl, rfl, rfl⟩
  split at h
  · next hk => cases h; rcases hk with rfl | rfl <;> exact ⟨rfl, rfl, rfl, rfl⟩
  split at h
  · next hk => cases h; rcases hk with rfl | rfl <;> exact ⟨rfl, rfl, rfl, rfl⟩
  split at h
  · next hk => subst hk; cases h; exact ⟨rfl, rfl, rfl, rfl⟩
  split at h
  · next hk => subst hk; cases h; exact ⟨rfl, rfl, rfl, rfl⟩
  split at h
  · next hk => subst hk; cases h; exact ⟨rfl, rfl, rfl, rfl⟩
  split at h
  · next hk => subst hk; cases h; exact ⟨rfl, rfl, rfl, rfl⟩
  · cases h

theorem SameFlags.flagsAfter {s s' : Console} {c : Nat} (h : SameFlags s s') (hmod : modifierKey s c = none) :
    FlagsAfter s c s' := by
  rw [modifierKey] at hmod
  split_ifs at hmod with hcaps hmake hbreak hctrl hctrlBreak halt haltBreak
  refine ⟨?_, ?_, ?_, ?_⟩
  · rw [if_neg halt, h.alt]
  · rw [if_neg hctrl, if_neg (not_or.mpr ⟨hctrlBreak, haltBreak⟩), h.ctrl]
  · rw [if_neg hmake, if_neg hbreak, h.shift]
  · rw [if_neg hcaps, h.caps]

theorem keyboardStep_flags (s : Console) (c : Nat) : FlagsAfter s c (keyboardStep s c).1 := by
  have hreset := sameFlags_resetFull s
  have hstep : FlagsAfter (resetFull s) c (keyboardStep s c).1 := by
    cases hmod : modifierKey (resetFull s) c with
    | some s' =>
        simp only [keyboardStep, hmod]
        exact modifierKey_flags hmod
    | none =>
        refine SameFlags.flagsAfter ?_ hmod
        simp only [keyboardStep, hmod]
        split_ifs
        · exact sameFlags_backspace _
        · exact ⟨rfl, rfl, rfl, rfl⟩
        · exact sameFlags_otherKey _ _
        · exact ⟨rfl, rfl, rfl, rfl⟩
  obtain ⟨halt, hctrl, hshift, hcaps⟩ := hstep
  rw [hreset.alt] at halt
  rw [hreset.ctrl] at hctrl
  rw [hreset.shift] at hshift
  rw [hreset.caps] at hcaps
  exact ⟨halt, hctrl, hshift, hcaps⟩

/-! ### Flags that track the keys -/

/-- The flags say which modifiers are held, so that function keys switch only with Alt and nothing but
Backspace erases without Ctrl. -/
structure TracksKeys (codes : List Nat) (s : Console) : Prop where
  alt : s.altOn = altHeld codes
  ctrl : s.ctrlOn = ctrlHeld codes
  shift : s.shiftOn = shiftHeld codes
  caps : s.capsOn = capsLocked codes
  switch : ∀ c, (keyboardStep s c).1.displayTerminal ≠ s.displayTerminal →
    altHeld codes = true ∧ c ∈ [f1Key, f2Key, f3Key]
  clear : ∀ c, c ≠ backspaceKey → ctrlHeld codes = false →
    Feeds s (keyboardStep s c).1 s.displayTerminal (echo s c)

/-- Every release of Left Alt comes before its first press and while Ctrl is not held. -/
def AltReleasesHarmless (codes : List Nat) : Prop :=
  ∀ before rest, codes = before ++ lAltBreak :: rest → lAltMake ∉ before ∧ ctrlHeld before = false

/-- All modifiers released. -/
structure Released (s : Console) : Prop where
  alt : s.altOn = false
  ctrl : s.ctrlOn = false
  shift : s.shiftOn = false
  caps : s.capsOn = false

theorem pressAll_snoc (s : Console) (codes : List Nat) (c : Nat) :
    pressAll s (codes ++ [c]) = (keyboardStep (pressAll s codes) c).1 := by
  rw [pressAll_append]
  rfl

/-- Nothing clears `alt_on`. -/
theorem altOn_pressAll {s : Console} (h : s.altOn = false) (codes : List Nat) :
    (pressAll s codes).altOn = decide (lAltMake ∈ codes) := by
  induction codes using List.reverseRecOn with
  | nil => simpa [pressAll] using h
  | append_singleton codes c ih =>
      rw [pressAll_snoc, (keyboardStep_flags _ c).alt, ih]
      by_cases hc : c = lAltMake
      · simp [hc]
      · simp [hc, Ne.symm hc]

theorem displayTerminal_keyboardStep {s : Console} {c : Nat}
    (h : (keyboardStep s c).1.displayTerminal ≠ s.displayTerminal) :
    s.altOn = true ∧ c ∈ [f1Key, f2Key, f3Key] := by
  have hreset : (resetFull s).displayTerminal = s.displayTerminal ∧ (resetFull s).altOn = s.altOn := by
    unfold resetFull
    split_ifs <;> exact ⟨rfl, rfl⟩
  rcases keyboardStep_cases s c with ⟨-, _, _, _, _, heq⟩ | ⟨-, heq⟩ | ⟨-, heq⟩ | ⟨-, -, heq⟩
  · rw [heq] at h
    exact absurd hreset.1 h
  · rw [heq] at h
    simp only [backspace] at h
    split_ifs at h
    all_goals exact absurd hreset.1 h
  · rw [heq] at h
    exact absurd hreset.1 h
  · rw [heq] at h
    have hsame : c ∉ [f1Key, f2Key, f3Key] →
        (switchTerminal (resetFull s) c).displayTerminal = (resetFull s).displayTerminal := by
      intro hnone
      simp only [List.mem_cons, List.not_mem_nil, or_false, not_or] at hnone
      simp only [switchTerminal, if_neg hnone.1, if_neg hnone.2.1, if_neg hnone.2.2]
    rcases otherKey_cases (resetFull s) c with ⟨halt, -, heq | heq⟩ | ⟨-, -, heq⟩ | ⟨-, heq | heq⟩ |
      ⟨-, -, -, heq⟩
    · rw [heq] at h
      exact ⟨hreset.2 ▸ halt, by_contra fun hnone => h ((hsame hnone).trans hreset.1)⟩
    · rw [heq] at h
      exact ⟨hreset.2 ▸ halt, by_contra fun hnone => h ((hsame hnone).trans hreset.1)⟩
    all_goals
      rw [heq] at h
      exact absurd hreset.1 h

theorem altHeld_of_not_mem {codes : List Nat} (h : lAltMake ∉ codes) : altHeld codes = false := by
  induction codes using List.reverseRecOn with
  | nil => rfl
  | append_singleton codes c ih =>
      rw [List.mem_append, List.mem_singleton, not_or] at h
      have hc : ¬ c = lAltMake := fun heq => h.2 heq.symm
      rw [altHeld, mostRecentMake_append]
      simp only [hc, decide_false, Bool.false_or]
      split_ifs
      · rfl
      · exact ih h.1

/-- The consequences follow from the four flags. -/
theorem TracksKeys.of_flags {codes : List Nat} {s : Console} (halt : s.altOn = altHeld codes)
    (hctrl : s.ctrlOn = ctrlHeld codes) (hshift : s.shiftOn = shiftHeld codes)
    (hcaps : s.capsOn = capsLocked codes) : TracksKeys codes s where
  alt := halt
  ctrl := hctrl
  shift := hshift
  caps := hcaps
  switch := fun c h => by
    obtain ⟨hon, hkey⟩ := displayTerminal_keyboardStep h
    exact ⟨halt ▸ hon, hkey⟩
  clear := fun c hback hnone => by
    apply keyboardStep_feeds
    rintro (hc | ⟨hon, -⟩)
    · exact hback hc
    · rw [hctrl, hnone] at hon
      cases hon

theorem TracksKeys.snoc {codes : List Nat} {s : Console} (h : TracksKeys codes s) {c : Nat}
    (hrelease : c = lAltBreak → altHeld codes = false ∧ ctrlHeld codes = false) :
    TracksKeys (codes ++ [c]) (keyboardStep s c).1 := by
  obtain ⟨halt, hctrl, hshift, hcaps⟩ := keyboardStep_flags s c
  rw [h.alt] at halt
  rw [h.ctrl] at hctrl
  rw [h.shift] at hshift
  rw [h.caps] at hcaps
  refine .of_flags ?_ ?_ ?_ ?_
  · rw [halt, altHeld, mostRecentMake_append]
    by_cases hmake : c = lAltMake
    · simp [hmake]
    · by_cases hbreak : c = lAltBreak
      · have hfree := (hrelease hbreak).1
        rw [altHeld] at hfree
        rw [if_neg hmake, hfree, decide_eq_true hbreak, decide_eq_false hmake]
        rfl
      · simp [hmake, hbreak]
  · rw [hctrl, ctrlHeld, mostRecentMake_append]
    by_cases hmake : c = lCtrlMake
    · simp [hmake]
    · by_cases hbreak : c = lCtrlBreak
      · simp [hbreak, lCtrlMake, lCtrlBreak]
      · by_cases haltBreak : c = lAltBreak
        · have hfree := (hrelease haltBreak).2
          rw [ctrlHeld] at hfree
          rw [if_neg hmake, if_pos (.inr haltBreak)]
          simp [hmake, hbreak, hfree]
        · simp [hmake, hbreak, haltBreak]
  · rw [hshift, shiftHeld, mostRecentMake_append]
    by_cases hmake : c = lShiftMake ∨ c = rShiftMake
    · simp [hmake]
    · by_cases hbreak : c = lShiftBreak ∨ c = rShiftBreak
      · simp [hmake, hbreak]
      · simp [hmake, hbreak]
  · rw [hcaps, capsLocked_append]

theorem AltReleasesHarmless.of_prefix {codes before : List Nat} (h : AltReleasesHarmless codes)
    (hbefore : before <+: codes) : AltReleasesHarmless before := by
  obtain ⟨after, rfl⟩ := hbefore
  intro first rest hsplit
  apply h first (rest ++ after)
  rw [hsplit, List.append_assoc, List.cons_append]

theorem tracksKeys_pressAll {s : Console} (h : Released s) {codes : List Nat}
    (hharmless : AltReleasesHarmless codes) : TracksKeys codes (pressAll s codes) := by
  induction codes using List.reverseRecOn with
  | nil => exact .of_flags h.alt h.ctrl h.shift h.caps
  | append_singleton codes c ih =>
      rw [pressAll_snoc]
      refine (ih (hharmless.of_prefix (List.prefix_append _ _))).snoc ?_
      rintro rfl
      obtain ⟨hmake, hctrl⟩ := hharmless codes [] rfl
      exact ⟨altHeld_of_not_mem hmake, hctrl⟩

/-- In every sequence of interrupts, the flags track the keys after each scan code exactly if every
release of Left Alt comes before its first press and while Ctrl is not held. -/
theorem modifiers_track_iff {s : Console} (h : Released s) (interrupts : List (List Nat)) :
    interrupts.foldl keyboardHandler s = pressAll s (handledIn s interrupts) ∧
    ((∀ codes, codes <+: handledIn s interrupts → TracksKeys codes (pressAll s codes)) ↔
      AltReleasesHarmless (handledIn s interrupts)) := by
  refine ⟨interrupts_eq_pressAll s interrupts, fun htracks before rest hsplit => ?_, ?_⟩
  · have hbefore := htracks before (hsplit ▸ List.prefix_append _ _)
    have hafter := htracks (before ++ [lAltBreak]) ⟨rest, by rw [hsplit]; simp⟩
    obtain ⟨halt, hctrl, -, -⟩ := keyboardStep_flags (pressAll s before) lAltBreak
    rw [pressAll_snoc] at hafter
    constructor
    · intro hmake
      have hheld : altHeld (before ++ [lAltBreak]) = false := by
        rw [altHeld, mostRecentMake_append]
        simp [lAltMake, lAltBreak]
      rw [hafter.alt, hheld, if_neg (by decide), altOn_pressAll h.alt] at halt
      simp [hmake] at halt
    · have hheld : ctrlHeld (before ++ [lAltBreak]) = ctrlHeld before := by
        rw [ctrlHeld, mostRecentMake_append]
        simp [lCtrlMake, lCtrlBreak, lAltBreak]
      rw [hafter.ctrl, hheld, if_neg (by decide), if_pos (.inr rfl)] at hctrl
      exact hctrl
  · intro hharmless codes hbefore
    exact tracksKeys_pressAll h (hharmless.of_prefix hbefore)

theorem released_blankConsole : Released blankConsole := ⟨rfl, rfl, rfl, rfl⟩

/-- Shift, a letter and Alt+F2 in two interrupts. -/
theorem modifiers_track_iff_chord :
    TracksKeys [lShiftMake, 0x1E, lAltMake, f2Key]
      (pressAll blankConsole [lShiftMake, 0x1E, lAltMake, f2Key]) := by
  have hhandled : handledIn blankConsole [[lShiftMake, 0x1E], [lAltMake, f2Key]] =
      [lShiftMake, 0x1E, lAltMake, f2Key] := by decide
  have hiff := (modifiers_track_iff released_blankConsole [[lShiftMake, 0x1E], [lAltMake, f2Key]]).2
  rw [hhandled] at hiff
  refine hiff.mpr ?_ _ (List.prefix_refl _)
  intro before rest hsplit
  have hmem : lAltBreak ∈ [lShiftMake, 0x1E, lAltMake, f2Key] := by
    rw [hsplit]
    simp
  exact absurd hmem (by decide)

/-- Alt pressed and released: `alt_on` stays set, and F2 switches the terminal. -/
theorem alt_stays_on :
    keyboardHandler blankConsole [lAltMake, lAltBreak] = pressAll blankConsole [lAltMake, lAltBreak] ∧
    altHeld [lAltMake, lAltBreak] = false ∧
    (pressAll blankConsole [lAltMake, lAltBreak]).altOn = true ∧
    (keyboardHandler blankConsole [lAltMake, lAltBreak, f2Key]).displayTerminal = 1 ∧
    ¬ TracksKeys [lAltMake, lAltBreak] (pressAll blankConsole [lAltMake, lAltBreak]) := by
  have hon : (pressAll blankConsole [lAltMake, lAltBreak]).altOn = true := by decide
  refine ⟨rfl, by decide, hon, by decide, fun htracks => ?_⟩
  have halt := htracks.alt
  rw [hon] at halt
  exact absurd halt (by decide)

end UnixOs
