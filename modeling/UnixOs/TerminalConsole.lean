import UnixOs.TerminalVideo

/-! The terminals: the visible screen with its cursor, the three backing pages with theirs, the
keyboard buffers, and the output functions of `lib.c` and `terminal.c` on them. The hardware cursor
that `update_cursor` programs is an output port and holds no state the kernel reads. -/

namespace UnixOs

/-- The globals of `lib.c`, `terminal.c` and `keyboard.c`. `kbStores` and `keyLookups` record the
indices at which the keyboard handler stored into `kb_buf` and read a key table. -/
structure Console where
  video : Video
  screenX : Int
  screenY : Int
  virtualX : Term → Int
  virtualY : Term → Int
  displayTerminal : Term
  altOn : Bool
  capsOn : Bool
  ctrlOn : Bool
  shiftOn : Bool
  readyToRead : Term → Bool
  kbBufIndex : Term → Int
  kbBuf : Term → Int → UInt8
  kbStores : List (Term × Int)
  keyLookups : List Int

/-- The console after `term_open`, on zeroed memory. -/
def blankConsole : Console where
  video := ⟨fun _ => 0, []⟩
  screenX := 0
  screenY := 0
  virtualX := fun _ => 0
  virtualY := fun _ => 0
  displayTerminal := ⟨0, by decide⟩
  altOn := false
  capsOn := false
  ctrlOn := false
  shiftOn := false
  readyToRead := fun _ => false
  kbBufIndex := fun _ => 0
  kbBuf := fun _ _ => 0
  kbStores := []
  keyLookups := []

/-- `scroll_down` -/
def scrollDown (v : Video) : Video := Video.scrollRegion .screen v

/-- `term_scroll_down`, for the terminal of the running process. -/
def termScrollDown (activeTerm : Term) (v : Video) : Video := Video.scrollRegion (.backing activeTerm) v

def putc (s : Console) (c : UInt8) : Console :=
  let (cur, v) := putRegion .screen c ⟨s.screenX, s.screenY⟩ s.video
  { s with video := v, screenX := cur.x, screenY := cur.y }

/-- `activeTerm` is what `pq_get_active_term` returns: the terminal of the running process. -/
def termPutc (activeTerm : Term) (s : Console) (c : UInt8) : Console :=
  let (cur, v) := putRegion (.backing activeTerm) c ⟨s.virtualX activeTerm, s.virtualY activeTerm⟩ s.video
  { s with
    video := v
    virtualX := Function.update s.virtualX activeTerm cur.x
    virtualY := Function.update s.virtualY activeTerm cur.y }

/-- The bytes are those of the caller's non-NULL buffer, up to `nbytes`. -/
def termWrite (activeTerm : Term) (s : Console) (buf : List UInt8) : Console :=
  if activeTerm = s.displayTerminal then buf.foldl putc s else buf.foldl (termPutc activeTerm) s

/-- `clear` -/
def clear (v : Video) : Video :=
  forUpTo (fun i v => (v.store .screen ((i : Int) * 2) 0x20).store .screen ((i : Int) * 2 + 1) attrib)
    (numRows * numCols) v

def termClear (s : Console) : Console :=
  { s with video := clear s.video, screenX := 0, screenY := 0 }

def getBackingPage (t : Term) : Nat := 0x000B9000 + t * 4096

def copy4kbPage (source dest : Nat) (v : Video) : Video :=
  { v with vram := v.vram.copyFrom dest v.vram source 4096 }

def changeDisplayTerm (s : Console) (nextTerminal : Term) : Console :=
  let v := copy4kbPage videoMem (getBackingPage s.displayTerminal) s.video
  let v := copy4kbPage (getBackingPage nextTerminal) videoMem v
  { s with video := v, displayTerminal := nextTerminal }

theorem getBackingPage_eq_termMem (t : Term) : getBackingPage t = termMem t := by
  fin_cases t <;> rfl

/-! ### Logical screens -/

/-- The page and the cursor a terminal's output goes to. -/
def Console.region (s : Console) (t : Term) : Region :=
  if t = s.displayTerminal then .screen else .backing t

def Console.cursor (s : Console) (t : Term) : Cursor :=
  if t = s.displayTerminal then ⟨s.screenX, s.screenY⟩ else ⟨s.virtualX t, s.virtualY t⟩

/-- What a terminal shows or would show: the first 4000 bytes of its page and its cursor. -/
@[ext] structure LogicalScreen where
  bytes : Fin 4000 → UInt8
  x : Int
  y : Int

def logicalScreen (s : Console) (t : Term) : LogicalScreen where
  bytes := fun i => s.video.vram ((s.region t).base + i)
  x := (s.cursor t).x
  y := (s.cursor t).y

/-- The bytes and the cursor of a reference terminal's screen. -/
def Screen.raw (scr : Screen 25 80) : LogicalScreen where
  bytes := fun i =>
    if i.val % 2 = 0 then scr.chars ⟨i.val / 2 / 80, by omega⟩ ⟨i.val / 2 % 80, by omega⟩
    else scr.attrs ⟨i.val / 2 / 80, by omega⟩ ⟨i.val / 2 % 80, by omega⟩
  x := scr.col
  y := scr.row

/-- A terminal shows a screen. -/
def Console.ShowsOn (s : Console) (t : Term) (scr : Screen 25 80) : Prop :=
  Shows (s.region t) (s.cursor t) s.video scr

theorem logicalScreen_eq_raw_iff (s : Console) (t : Term) (scr : Screen 25 80) :
    logicalScreen s t = scr.raw ↔ s.ShowsOn t scr := by
  constructor
  · intro heq
    refine ⟨fun y x => ?_, congrArg LogicalScreen.x heq, congrArg LogicalScreen.y heq⟩
    have hbyte : ∀ i : Fin 4000, s.video.vram ((s.region t).base + i) = scr.raw.bytes i :=
      fun i => congrFun (congrArg LogicalScreen.bytes heq) i
    have hy := y.isLt
    have hx := x.isLt
    have hrow : (80 * y.val + x.val) / 80 = y.val := by omega
    have hcol : (80 * y.val + x.val) % 80 = x.val := by omega
    constructor
    · rw [hbyte ⟨2 * (80 * y + x), by omega⟩]
      simp [Screen.raw, hrow, hcol]
    · have hodd : (2 * (80 * y.val + x.val) + 1) / 2 = 80 * y.val + x.val := by omega
      rw [Nat.add_assoc, hbyte ⟨2 * (80 * y + x) + 1, by omega⟩]
      simp [Screen.raw, hodd, hrow, hcol]
  · rintro ⟨hcells, hx, hy⟩
    refine LogicalScreen.ext (funext fun i => ?_) hx hy
    obtain ⟨i, hi⟩ := i
    obtain ⟨hchar, hattr⟩ := hcells ⟨i / 2 / 80, by omega⟩ ⟨i / 2 % 80, by omega⟩
    simp only [logicalScreen, Screen.raw]
    split_ifs with heven
    · rw [← hchar]
      exact congrArg s.video.vram (by simp only; omega)
    · rw [← hattr]
      exact congrArg s.video.vram (by simp only; omega)

/-! ### Output and switching -/

theorem region_base_lt (r r' : Region) (h : r ≠ r') :
    r.base + screenBytes ≤ r'.base ∨ r'.base + screenBytes ≤ r.base := by
  rcases r with _ | t <;> rcases r' with _ | t'
  · exact absurd rfl h
  · fin_cases t' <;> simp [Region.base, termMem, videoMem, screenBytes]
  · fin_cases t <;> simp [Region.base, termMem, videoMem, screenBytes]
  · fin_cases t <;> fin_cases t' <;> simp_all [Region.base, termMem, screenBytes]

/-- Output on one page leaves the screen on another page as it is. -/
theorem Shows.of_within {r r' : Region} {cur : Cursor} {v v' : Video} {scr : Screen 25 80}
    (h : Shows r' cur v scr) (hwithin : Within r v v') (hne : r ≠ r') : Shows r' cur v' scr := by
  refine ⟨fun y x => ?_, h.x, h.y⟩
  have hy := y.isLt
  have hx := x.isLt
  have happart := region_base_lt r r' hne
  simp only [screenBytes] at happart
  rw [hwithin.outside _ (by simp only [screenBytes]; omega),
    hwithin.outside _ (by simp only [screenBytes]; omega)]
  exact h.cells y x

theorem region_ne {s : Console} {t t' : Term} (h : t ≠ t') : s.region t ≠ s.region t' := by
  unfold Console.region
  split_ifs with h1 h2
  · exact absurd (h1.trans h2.symm) h
  · simp
  · simp
  · simpa using h

/-- A step that keeps a terminal's page and cursor variables keeps the screen it shows. -/
theorem Console.ShowsOn.of_eq {s s' : Console} {t : Term} {scr : Screen 25 80}
    (hregion : s'.region t = s.region t) (hcursor : s'.cursor t = s.cursor t)
    (h : Shows (s.region t) (s.cursor t) s'.video scr) : s'.ShowsOn t scr := by
  unfold Console.ShowsOn
  rwa [hregion, hcursor]

/-- What a step did to the screens: the ones it was given, with bytes fed to one terminal. -/
def Feeds (s s' : Console) (t : Term) (bytes : List UInt8) : Prop :=
  ∀ scr : Term → Screen 25 80, (∀ u, s.ShowsOn u (scr u)) →
    ∀ u, s'.ShowsOn u (if u = t then (scr u).feed attrib bytes else scr u)

theorem Feeds.refl (s : Console) (t : Term) : Feeds s s t [] := by
  intro scr h u
  simpa [Screen.feed] using h u

theorem Feeds.trans {s s' s'' : Console} {t : Term} {bs cs : List UInt8} (h : Feeds s s' t bs)
    (h' : Feeds s' s'' t cs) : Feeds s s'' t (bs ++ cs) := by
  intro scr hscr u
  have hu := h' _ (h scr hscr) u
  by_cases hut : u = t
  · simpa [hut, Screen.feed_append] using hu
  · simpa [hut] using hu

theorem putc_feeds (s : Console) (c : UInt8) : Feeds s (putc s c) s.displayTerminal [c] := by
  intro scr h u
  have hcur := h s.displayTerminal
  simp only [Console.ShowsOn, Console.region, Console.cursor, if_true] at hcur
  obtain ⟨hshows, hwithin⟩ := putRegion_spec hcur c
  by_cases hu : u = s.displayTerminal
  · subst hu
    simpa [Console.ShowsOn, Console.region, Console.cursor, putc, Screen.feed] using hshows
  · rw [if_neg hu]
    have hne : Region.screen ≠ s.region u := by simp [Console.region, hu]
    refine .of_eq (s := s) rfl ?_ ((h u).of_within hwithin hne)
    simp [Console.cursor, putc, hu]

theorem termPutc_feeds {s : Console} {t : Term} (ht : t ≠ s.displayTerminal) (c : UInt8) :
    Feeds s (termPutc t s c) t [c] := by
  intro scr h u
  have hcur := h t
  simp only [Console.ShowsOn, Console.region, Console.cursor, if_neg ht] at hcur
  obtain ⟨hshows, hwithin⟩ := putRegion_spec hcur c
  by_cases hu : u = t
  · subst hu
    simpa [Console.ShowsOn, Console.region, Console.cursor, termPutc, ht, Screen.feed] using hshows
  · rw [if_neg hu]
    have hne := region_ne (s := s) (Ne.symm hu)
    rw [show s.region t = .backing t from if_neg ht] at hne
    refine .of_eq (s := s) rfl ?_ ((h u).of_within hwithin hne)
    simp [Console.cursor, termPutc, hu]

theorem termWrite_feeds (t : Term) (s : Console) (buf : List UInt8) :
    Feeds s (termWrite t s buf) t buf := by
  unfold termWrite
  by_cases ht : t = s.displayTerminal
  · rw [if_pos ht]
    induction buf generalizing s with
    | nil => exact .refl s t
    | cons c buf ih =>
        have hfirst := putc_feeds s c
        rw [← ht] at hfirst
        exact hfirst.trans (ih (putc s c) ht)
  · rw [if_neg ht]
    induction buf generalizing s with
    | nil => exact .refl s t
    | cons c buf ih => exact (termPutc_feeds ht c).trans (ih (termPutc t s c) ht)

end UnixOs
