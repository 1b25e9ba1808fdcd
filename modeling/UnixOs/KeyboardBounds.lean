import UnixOs.KeyboardHandler
import UnixOs.LabelledRun

/-! Every index the keyboard and the screen code computes stays in range, over whole runs of
interrupts, terminal writes, terminal reads and clears. -/

namespace UnixOs

open Video

/-- A cursor inside the 80 by 25 grid. -/
structure Cursor.InGrid (cur : Cursor) : Prop where
  x_nonneg : 0 ≤ cur.x
  x_lt : cur.x < numCols
  y_nonneg : 0 ≤ cur.y
  y_lt : cur.y < numRows

/-- The screen that a page holds under a cursor in the grid. -/
theorem Cursor.InGrid.exists_shows {cur : Cursor} (h : cur.InGrid) (r : Region) (v : Video) :
    ∃ scr, Shows r cur v scr := by
  obtain ⟨hx0, hx, hy0, hy⟩ := h
  simp only [numCols, numRows] at hx hy
  refine ⟨{ chars := fun y x => v.vram (r.base + 2 * (80 * y + x))
            attrs := fun y x => v.vram (r.base + 2 * (80 * y + x) + 1)
            row := ⟨cur.y.toNat, by omega⟩
            col := ⟨cur.x.toNat, by omega⟩ }, fun _ _ => ⟨rfl, rfl⟩, ?_, ?_⟩
  · simp only
    omega
  · simp only
    omega

theorem Shows.inGrid {r : Region} {cur : Cursor} {v : Video} {scr : Screen 25 80}
    (h : Shows r cur v scr) : cur.InGrid := by
  have hcol := scr.col.isLt
  have hrow := scr.row.isLt
  have hx := h.x
  have hy := h.y
  refine ⟨by omega, ?_, by omega, ?_⟩
  · rw [numCols]
    omega
  · rw [numRows]
    omega

/-- One printed byte keeps the cursor in the grid and stores into its page's cells only. -/
theorem putRegion_inGrid {r : Region} {cur : Cursor} (h : cur.InGrid) (c : UInt8) (v : Video) :
    (putRegion r c cur v).1.InGrid ∧ Within r v (putRegion r c cur v).2 := by
  obtain ⟨scr, hshows⟩ := h.exists_shows r v
  obtain ⟨hafter, hwithin⟩ := putRegion_spec hshows c
  exact ⟨hafter.inGrid, hwithin⟩

/-- A blank before the last column moves the cursor by one and does not wrap. -/
theorem putRegion_space {r : Region} {cur : Cursor} (h : cur.x + 1 < numCols) (v : Video) :
    (putRegion r 0x20 cur v).1 = ⟨cur.x + 1, cur.y⟩ := by
  have hprint : ¬ ((0x20 : UInt8) = 0x0A ∨ (0x20 : UInt8) = 0x0D) := by decide
  rw [putRegion, if_neg hprint]
  simp only
  rw [if_neg (by omega)]

/-- A blank over the character before the cursor brings the cursor back. -/
theorem putRegion_erase {r : Region} {x y : Int} (h : x < numCols) (v : Video) :
    (putRegion r 0x20 ⟨x - 1, y⟩ v).1 = ⟨x, y⟩ := by
  rw [putRegion_space (by simp only; omega), Int.sub_add_cancel]

/-! ### The invariant -/

/-- Every index is in range: the keyboard buffers', the cursors', and those of all stores and table
lookups made so far. -/
structure ConsoleOk (s : Console) : Prop where
  kbBufIndex : ∀ t, 0 ≤ s.kbBufIndex t ∧ s.kbBufIndex t ≤ maxKbBuf
  screen : (⟨s.screenX, s.screenY⟩ : Cursor).InGrid
  virtual : ∀ t, (⟨s.virtualX t, s.virtualY t⟩ : Cursor).InGrid
  kbStores : ∀ st ∈ s.kbStores, 0 ≤ st.2 ∧ st.2 < maxKbBuf
  stores : ∀ st ∈ s.video.stores, 0 ≤ st.2 ∧ st.2 < screenBytes
  keyLookups : ∀ i ∈ s.keyLookups, 0 ≤ i ∧ i < supportedKeys

theorem Within.stores_lt {r : Region} {v v' : Video} (h : Within r v v')
    (hv : ∀ st ∈ v.stores, 0 ≤ st.2 ∧ st.2 < screenBytes) :
    ∀ st ∈ v'.stores, 0 ≤ st.2 ∧ st.2 < screenBytes := by
  obtain ⟨made, heq, hmade⟩ := h.stores
  intro st hst
  rw [heq, List.mem_append] at hst
  rcases hst with hst | hst
  · exact (hmade st hst).2
  · exact hv st hst

theorem within_clear (v : Video) : Within .screen v (clear v) := by
  unfold clear
  refine forUpTo_invariant
    (fun i w => (w.store .screen ((i : Int) * 2) 0x20).store .screen ((i : Int) * 2 + 1) attrib)
    (n := numRows * numCols) (fun _ w => Within .screen v w) (.refl _ v) ?_
  intro i w hi hw
  simp only [numRows, numCols] at hi
  have hlast : (i : Int) * 2 + 1 < screenBytes := by simp only [screenBytes]; omega
  exact (hw.store _ (by omega) (by omega)).store _ (by omega) hlast

namespace ConsoleOk

variable {s : Console}

theorem putc (h : ConsoleOk s) (c : UInt8) : ConsoleOk (putc s c) := by
  obtain ⟨hgrid, hwithin⟩ := putRegion_inGrid (r := .screen) h.screen c s.video
  exact { h with screen := hgrid, stores := hwithin.stores_lt h.stores }

theorem termPutc (h : ConsoleOk s) (t : Term) (c : UInt8) : ConsoleOk (termPutc t s c) := by
  obtain ⟨hgrid, hwithin⟩ := putRegion_inGrid (r := .backing t) (h.virtual t) c s.video
  refine { h with virtual := fun u => ?_, stores := hwithin.stores_lt h.stores }
  by_cases hu : u = t
  · subst hu
    simpa [UnixOs.termPutc] using hgrid
  · simpa [UnixOs.termPutc, hu] using h.virtual u

theorem termWrite (h : ConsoleOk s) (t : Term) (buf : List UInt8) : ConsoleOk (termWrite t s buf) := by
  unfold UnixOs.termWrite
  split_ifs
  · induction buf generalizing s with
    | nil => exact h
    | cons c buf ih => exact ih (h.putc c) ‹_›
  · induction buf generalizing s with
    | nil => exact h
    | cons c buf ih => exact ih (h.termPutc t c) ‹_›

theorem termClear (h : ConsoleOk s) : ConsoleOk (termClear s) :=
  { h with
    screen := ⟨le_rfl, by simp [numCols, UnixOs.termClear], le_rfl, by simp [numRows, UnixOs.termClear]⟩
    stores := (within_clear s.video).stores_lt h.stores }

theorem kbAppend (h : ConsoleOk s) (hlt : s.kbBufIndex s.displayTerminal < maxKbBuf) (value : UInt8) :
    ConsoleOk (kbAppend s value) := by
  have hindex := h.kbBufIndex s.displayTerminal
  refine { h with kbBufIndex := fun t => ?_, kbStores := fun st hst => ?_ }
  · by_cases ht : t = s.displayTerminal
    · subst ht
      simp only [UnixOs.kbAppend, Function.update_self]
      omega
    · simpa [UnixOs.kbAppend, ht] using h.kbBufIndex t
  · rcases List.mem_cons.mp hst with rfl | hst
    · exact ⟨hindex.1, hlt⟩
    · exact h.kbStores st hst

theorem resetFull (h : ConsoleOk s) : ConsoleOk (resetFull s) ∧
    (resetFull s).kbBufIndex (resetFull s).displayTerminal < maxKbBuf := by
  have hindex := h.kbBufIndex s.displayTerminal
  unfold UnixOs.resetFull
  split_ifs with hfull
  · refine ⟨{ h with kbBufIndex := fun t => ?_ }, by simp [maxKbBuf]⟩
    by_cases ht : t = s.displayTerminal
    · subst ht
      simp [maxKbBuf]
    · simpa [ht] using h.kbBufIndex t
  · exact ⟨h, by omega⟩

/-- Backspace steps back, prints a blank and steps back again: the blank cannot wrap, since the first
step left the last column. -/
theorem backspace (h : ConsoleOk s) : ConsoleOk (backspace s) := by
  obtain ⟨hx0, hx, hy0, hy⟩ := h.screen
  simp only at hx0 hx hy0 hy
  by_cases hpos : s.screenX > 0
  · have hback : ConsoleOk { s with screenX := s.screenX - 1 } :=
      { h with screen := ⟨by simp only; omega, by simp only; omega, hy0, hy⟩ }
    have hcur : (putRegion .screen 0x20 ⟨s.screenX - 1, s.screenY⟩ s.video).1 = ⟨s.screenX, s.screenY⟩ :=
      putRegion_erase hx s.video
    have hputc := hback.putc 0x20
    have hagain : ConsoleOk { UnixOs.putc { s with screenX := s.screenX - 1 } 0x20 with
        screenX := (UnixOs.putc { s with screenX := s.screenX - 1 } 0x20).screenX - 1 } := by
      refine { hputc with screen := ?_ }
      simp only [UnixOs.putc, hcur]
      exact ⟨by simp only; omega, by simp only; omega, hy0, hy⟩
    simp only [UnixOs.backspace, if_pos hpos]
    split_ifs with hindex
    · refine { hagain with kbBufIndex := fun t => ?_ }
      have hle := hagain.kbBufIndex s.displayTerminal
      simp only [UnixOs.putc] at hindex hle ⊢
      by_cases ht : t = s.displayTerminal
      · subst ht
        simp only [Function.update_self]
        omega
      · simpa [ht] using h.kbBufIndex t
    · exact hagain
  · simpa [UnixOs.backspace, hpos] using h

theorem enter (h : ConsoleOk s) (hlt : s.kbBufIndex s.displayTerminal < maxKbBuf) :
    ConsoleOk (enter s) :=
  { (h.kbAppend hlt 0x0A).putc 0x0A with }

/-- A change of the display copies pages and moves cursors between the screen and the saved ones. -/
theorem switchTerminal (h : ConsoleOk s) (pressed : Nat) : ConsoleOk (switchTerminal s pressed) := by
  have hsaved : ∀ t, (⟨Function.update s.virtualX s.displayTerminal s.screenX t,
      Function.update s.virtualY s.displayTerminal s.screenY t⟩ : Cursor).InGrid := by
    intro t
    by_cases ht : t = s.displayTerminal
    · subst ht
      simpa using h.screen
    · simpa [ht] using h.virtual t
  unfold UnixOs.switchTerminal
  simp only
  split_ifs <;> exact { h with screen := hsaved _, virtual := hsaved }

/-- A character is stored only for a key below F1. Such a key does not switch, so the buffer it is
stored into is the one that was checked. -/
theorem otherKey (h : ConsoleOk s) (hlt : s.kbBufIndex s.displayTerminal < maxKbBuf) {pressed : Nat}
    (hkey : pressed < supportedKeys) : ConsoleOk (otherKey s pressed).1 := by
  have hlookup : ∀ s, ConsoleOk s →
      ConsoleOk { s with keyLookups := (pressed : Int) :: s.keyLookups } := by
    intro s h
    refine { h with keyLookups := fun i hi => ?_ }
    rcases List.mem_cons.mp hi with rfl | hi
    · exact ⟨by omega, by exact_mod_cast hkey⟩
    · exact h.keyLookups i hi
  rcases otherKey_cases s pressed with ⟨-, -, heq | heq⟩ | ⟨-, -, heq⟩ | ⟨-, heq | heq⟩ | ⟨-, -, -, heq⟩
  · rw [heq]
    exact h.switchTerminal pressed
  · rw [heq]
    exact hlookup _ (h.switchTerminal pressed)
  · rw [heq]
    exact h.termClear
  · rw [heq]
    exact h
  · rw [heq]
    exact hlookup _ h
  · rw [heq]
    exact ((hlookup _ h).kbAppend hlt _).putc _

theorem keyboardStep (h : ConsoleOk s) (pressed : Nat) : ConsoleOk (keyboardStep s pressed).1 := by
  obtain ⟨hreset, hlt⟩ := h.resetFull
  rcases keyboardStep_cases s pressed with ⟨_, _, _, _, _, heq⟩ | ⟨_, heq⟩ | ⟨_, heq⟩ | ⟨_, hkey, heq⟩
  · rw [heq]
    exact { hreset with }
  · rw [heq]
    exact hreset.backspace
  · rw [heq]
    exact hreset.enter hlt
  · rw [heq]
    exact hreset.otherKey hlt hkey

theorem keyboardHandler (h : ConsoleOk s) (codes : List Nat) : ConsoleOk (keyboardHandler s codes) := by
  induction codes generalizing s with
  | nil => exact h
  | cons pressed rest ih =>
      simp only [UnixOs.keyboardHandler]
      split_ifs
      · exact h.keyboardStep pressed
      · exact ih (h.keyboardStep pressed)

theorem termRead (h : ConsoleOk s) {nbytes n : Int} {s' : Console} {bytes : List UInt8}
    (hread : termRead s nbytes = some (s', n, bytes)) : ConsoleOk s' := by
  have hcleared : ConsoleOk (clearKeyboardBuf s) :=
    { h with kbBufIndex := fun _ => ⟨le_rfl, by simp [clearKeyboardBuf, maxKbBuf]⟩ }
  simp only [UnixOs.termRead] at hread
  split_ifs at hread
  · cases hread
    exact hcleared
  · cases hread
    exact hcleared

end ConsoleOk

/-! ### Runs -/

/-- One keyboard interrupt with the scan codes waiting, or one terminal call. -/
inductive ConsoleCall where
  | interrupt (codes : List Nat)
  | write (t : Term) (buf : List UInt8)
  | read (nbytes n : Int) (bytes : List UInt8)
  | clear

/-- A `term_read` takes place on a ready terminal. -/
inductive CallStep : Console → ConsoleCall → Console → Prop
  | interrupt {s : Console} {codes : List Nat} (hcodes : ∀ c ∈ codes, c < 256) :
      CallStep s (.interrupt codes) (keyboardHandler s codes)
  | write {s : Console} (t : Term) (buf : List UInt8) : CallStep s (.write t buf) (termWrite t s buf)
  | read {s s' : Console} {nbytes n : Int} {bytes : List UInt8}
      (hread : termRead s nbytes = some (s', n, bytes)) : CallStep s (.read nbytes n bytes) s'
  | clear {s : Console} : CallStep s .clear (termClear s)

/-- The state after boot: a cursor on the screen, empty buffers, and nothing stored yet. -/
structure AfterBoot (s : Console) : Prop where
  screen : (⟨s.screenX, s.screenY⟩ : Cursor).InGrid
  virtualX : s.virtualX = fun _ => 0
  virtualY : s.virtualY = fun _ => 0
  kbBufIndex : s.kbBufIndex = fun _ => 0
  kbStores : s.kbStores = []
  stores : s.video.stores = []
  keyLookups : s.keyLookups = []

theorem AfterBoot.consoleOk {s : Console} (h : AfterBoot s) : ConsoleOk s where
  kbBufIndex := by simp [h.kbBufIndex, maxKbBuf]
  screen := h.screen
  virtual := fun t => by
    rw [h.virtualX, h.virtualY]
    exact ⟨le_rfl, by simp [numCols], le_rfl, by simp [numRows]⟩
  kbStores := by simp [h.kbStores]
  stores := by simp [h.stores]
  keyLookups := by simp [h.keyLookups]

theorem CallStep.consoleOk {s s' : Console} {e : ConsoleCall} (h : ConsoleOk s) (hstep : CallStep s e s') :
    ConsoleOk s' := by
  cases hstep with
  | interrupt _ => exact h.keyboardHandler _
  | write t buf => exact h.termWrite t buf
  | read hread => exact h.termRead hread
  | clear => exact h.termClear

/-- A writer stores only into the cells of the page its terminal has at the moment. -/
theorem ConsoleOk.within_termWrite {s : Console} (h : ConsoleOk s) (t : Term) (buf : List UInt8) :
    Within (s.region t) s.video (UnixOs.termWrite t s buf).video := by
  unfold UnixOs.termWrite Console.region
  split_ifs with ht
  · induction buf generalizing s with
    | nil => exact .refl _ _
    | cons c buf ih =>
        exact (putRegion_inGrid (r := .screen) h.screen c s.video).2.trans (ih (h.putc c) ht)
  · induction buf generalizing s with
    | nil => exact .refl _ _
    | cons c buf ih =>
        exact (putRegion_inGrid (r := .backing t) (h.virtual t) c s.video).2.trans (ih (h.termPutc t c) ht)

/-- After boot, whatever scan codes arrive and whatever the processes write, read and clear, all
indices are in range, and a write stores only into the writer's own page. -/
theorem console_indices_in_range {boot s : Console} {es : List ConsoleCall} (hboot : AfterBoot boot)
    (hrun : Run CallStep boot es s) :
    ConsoleOk s ∧ ∀ t buf, Within (s.region t) s.video (termWrite t s buf).video := by
  have hok : ConsoleOk s := hrun.invariant hboot.consoleOk (fun _ _ _ h hstep => hstep.consoleOk h)
  exact ⟨hok, fun t buf => hok.within_termWrite t buf⟩

/-- `a` and Enter, a write by a hidden terminal, and a switch to it. -/
theorem console_indices_in_range_typed :
    let s := keyboardHandler (termWrite 1 (keyboardHandler blankConsole [0x1E, enterKey]) [0x41, 0x0A])
      [lAltMake, f2Key]
    ConsoleOk s ∧ ∀ t buf, Within (s.region t) s.video (termWrite t s buf).video :=
  console_indices_in_range
    ⟨⟨le_rfl, by decide, le_rfl, by decide⟩, rfl, rfl, rfl, rfl, rfl, rfl⟩
    (.snoc (.snoc (.snoc .nil (.interrupt (by decide))) (.write 1 _)) (.interrupt (by decide)))

end UnixOs
