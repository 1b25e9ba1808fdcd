import UnixOs.ByteMemory
import UnixOs.CountedLoop
import UnixOs.TerminalScreen

/-! Character output into video memory. `lib.c` writes to the visible page and `terminal.c` to a
terminal's backing page with the same steps on other variables, so both are one definition with the
page as a parameter. Every store is also recorded with the page and the offset it was computed for. -/

namespace UnixOs

/-- `NUM_COLS` -/
def numCols : Nat := 80

/-- `NUM_ROWS` -/
def numRows : Nat := 25

/-- `ATTRIB` -/
def attrib : UInt8 := 0x7

/-- `VIDEO` -/
def videoMem : Nat := 0xB8000

/-- `NUM_TERMINALS` -/
def numTerminals : Nat := 3

/-- A terminal number in `0 .. NUM_TERMINALS - 1`. -/
abbrev Term := Fin 3

/-- The table `term_mem`. -/
def termMem : Term → Nat
  | 0 => 0x0B9000
  | 1 => 0x0BA000
  | 2 => 0x0BB000

/-- A page that characters are written to: the visible one or a terminal's backing page. -/
inductive Region where
  | screen
  | backing (t : Term)
  deriving DecidableEq

def Region.base : Region → Nat
  | .screen => videoMem
  | .backing t => termMem t

/-- The bytes of a page that hold the 80 by 25 cells. -/
def screenBytes : Nat := 4000

/-- Video memory, with the stores of the output functions so far. -/
structure Video where
  vram : Mem
  stores : List (Region × Int)

namespace Video

def store (v : Video) (r : Region) (off : Int) (b : UInt8) : Video where
  vram := Function.update v.vram (r.base + off).toNat b
  stores := (r, off) :: v.stores

def load (v : Video) (r : Region) (off : Int) : UInt8 := v.vram (r.base + off).toNat

/-- `(NUM_COLS*y + x) << 1` -/
def cellOffset (x y : Int) : Int := (numCols * y + x) * 2

/-- One row of characters is moved up by one line. -/
def scrollRow (r : Region) (y : Nat) (v : Video) : Video :=
  forUpTo (fun x v => v.store r (cellOffset x y) (v.load r (cellOffset x (y + 1 : Nat)))) numCols v

/-- The body of `scroll_down` and `term_scroll_down`. -/
def scrollRegion (r : Region) (v : Video) : Video :=
  let v := forUpTo (fun y v => scrollRow r y v) (numRows - 1) v
  forUpTo (fun x v => v.store r (cellOffset x (numRows - 1 : Nat)) 0x20) numCols v

end Video

open Video

/-- A cursor as the two C `int`s that hold it. -/
structure Cursor where
  x : Int
  y : Int

/-- `y++` with a scroll below the last row, and `x = 0`. -/
def nextLine (r : Region) (y : Int) (v : Video) : Cursor × Video :=
  if y + 1 ≥ numRows then (⟨0, numRows - 1⟩, scrollRegion r v) else (⟨0, y + 1⟩, v)

/-- The body of `putc` and `term_putc`. -/
def putRegion (r : Region) (c : UInt8) (cur : Cursor) (v : Video) : Cursor × Video :=
  if c = 0x0A ∨ c = 0x0D then nextLine r cur.y v
  else
    let v := (v.store r (cellOffset cur.x cur.y) c).store r (cellOffset cur.x cur.y + 1) attrib
    if cur.x + 1 ≥ numCols then nextLine r cur.y v
    else (⟨cur.x + 1, cur.y⟩, v)

/-! ### What a scroll does to memory -/

/-- Between two states only the cells of one page were stored to. -/
structure Within (r : Region) (v v' : Video) : Prop where
  stores : ∃ made, v'.stores = made ++ v.stores ∧
    ∀ st ∈ made, st.1 = r ∧ 0 ≤ st.2 ∧ st.2 < screenBytes
  outside : ∀ a, a < r.base ∨ r.base + screenBytes ≤ a → v'.vram a = v.vram a

theorem Within.refl (r : Region) (v : Video) : Within r v v := ⟨⟨[], rfl, by simp⟩, fun _ _ => rfl⟩

theorem Within.trans {r : Region} {u v w : Video} (h : Within r u v) (h' : Within r v w) :
    Within r u w := by
  obtain ⟨⟨made, heq, hmade⟩, hout⟩ := h
  obtain ⟨⟨made', heq', hmade'⟩, hout'⟩ := h'
  refine ⟨⟨made' ++ made, by rw [heq', heq, List.append_assoc], ?_⟩, ?_⟩
  · intro st hst
    rcases List.mem_append.mp hst with hst | hst
    · exact hmade' st hst
    · exact hmade st hst
  · intro a ha
    rw [hout' a ha, hout a ha]

theorem Within.store {r : Region} {u v : Video} (h : Within r u v) {off : Int} (b : UInt8)
    (h0 : 0 ≤ off) (hlt : off < screenBytes) : Within r u (v.store r off b) := by
  refine h.trans ⟨⟨[(r, off)], rfl, ?_⟩, ?_⟩
  · intro st hst
    rw [List.mem_singleton] at hst
    subst hst
    exact ⟨rfl, h0, hlt⟩
  · intro a ha
    exact Function.update_of_ne (by omega) _ _

/-- The first `k` cells hold the characters of the cells one line below. -/
def MovedUp (r : Region) (v : Video) (k : Nat) (v' : Video) : Prop :=
  Within r v v' ∧ ∀ a, v'.vram a =
    if r.base ≤ a ∧ a < r.base + 2 * k ∧ (a - r.base) % 2 = 0 then v.vram (a + 160) else v.vram a

theorem movedUp_store {r : Region} {v v' : Video} {k : Nat} (h : MovedUp r v k v')
    (hk : k < numCols * (numRows - 1)) :
    MovedUp r v (k + 1) (v'.store r (2 * k : Nat) (v'.load r (2 * k + 160 : Nat))) := by
  obtain ⟨hwithin, hmem⟩ := h
  simp only [numCols, numRows] at hk
  refine ⟨hwithin.store _ (by omega) (by simp only [screenBytes]; omega), ?_⟩
  intro a
  have haddr : ∀ n : Nat, ((r.base : Int) + (n : Int)).toNat = r.base + n := fun n => by omega
  simp only [Video.store, Video.load, haddr, Function.update_apply]
  by_cases ha : a = r.base + 2 * k
  · subst ha
    rw [if_pos rfl, hmem, if_neg (by omega), if_pos (by omega), Nat.add_assoc]
  · rw [if_neg ha, hmem]
    by_cases hin : r.base ≤ a ∧ a < r.base + 2 * k ∧ (a - r.base) % 2 = 0
    · rw [if_pos hin, if_pos (by omega)]
    · rw [if_neg hin, if_neg (by omega)]

theorem movedUp_scrollRow {r : Region} {v v' : Video} {y : Nat} (h : MovedUp r v (numCols * y) v')
    (hy : y < numRows - 1) : MovedUp r v (numCols * (y + 1)) (scrollRow r y v') := by
  have hloop := forUpTo_invariant
    (fun x w => w.store r (cellOffset x y) (w.load r (cellOffset x (y + 1 : Nat))))
    (n := numCols) (s := v') (fun x w => MovedUp r v (numCols * y + x) w) h ?_
  · exact hloop
  · intro x w hx hw
    have hstore := movedUp_store hw (by simp only [numCols, numRows] at *; omega)
    have hdst : cellOffset x y = ((2 * (numCols * y + x) : Nat) : Int) := by
      simp only [cellOffset, numCols]; omega
    have hsrc : cellOffset x (y + 1 : Nat) = ((2 * (numCols * y + x) + 160 : Nat) : Int) := by
      simp only [cellOffset, numCols]; omega
    rw [hdst, hsrc, ← Nat.add_assoc]
    exact hstore

/-- The last row with its first `k` characters blanked, after the rows above have moved up. -/
def Blanked (r : Region) (v : Video) (k : Nat) (v' : Video) : Prop :=
  Within r v v' ∧ ∀ a, v'.vram a =
    if r.base ≤ a ∧ a < r.base + 3840 ∧ (a - r.base) % 2 = 0 then v.vram (a + 160)
    else if r.base + 3840 ≤ a ∧ a < r.base + 3840 + 2 * k ∧ (a - r.base) % 2 = 0 then 0x20
    else v.vram a

theorem blanked_scrollRegion (r : Region) (v : Video) : Blanked r v numCols (scrollRegion r v) := by
  have hrows := forUpTo_invariant (fun y w => scrollRow r y w) (n := numRows - 1) (s := v)
    (fun y w => MovedUp r v (numCols * y) w) ⟨.refl r v, fun a => by rw [if_neg (by omega)]⟩
    (fun y w hy hw => movedUp_scrollRow hw hy)
  unfold scrollRegion
  refine forUpTo_invariant (fun x w => w.store r (cellOffset x (numRows - 1 : Nat)) 0x20)
    (n := numCols) (fun x w => Blanked r v x w) ?_ ?_
  · refine ⟨hrows.1, fun a => ?_⟩
    have hnone : ¬ (r.base + 3840 ≤ a ∧ a < r.base + 3840 + 2 * 0 ∧ (a - r.base) % 2 = 0) := by omega
    rw [hrows.2, if_neg hnone]
    rfl
  · rintro x w hx ⟨hwithin, hmem⟩
    simp only [numCols] at hx
    have hoff : cellOffset x (numRows - 1 : Nat) = ((3840 + 2 * x : Nat) : Int) := by
      simp only [cellOffset, numCols, numRows]; omega
    refine ⟨hwithin.store _ (by omega) (by simp only [screenBytes, hoff]; omega), fun a => ?_⟩
    have haddr : ((r.base : Int) + ((3840 + 2 * x : Nat) : Int)).toNat = r.base + 3840 + 2 * x := by
      omega
    simp only [Video.store, hoff, haddr, Function.update_apply, hmem]
    by_cases ha : a = r.base + 3840 + 2 * x
    · rw [if_pos ha, if_neg (by omega), if_pos (by omega)]
    · rw [if_neg ha]
      split_ifs <;> first | rfl | omega

/-! ### The page as a screen -/

/-- The 4000 bytes of a page hold a screen: characters at even offsets, attributes at odd ones. -/
def ShowsCells (vram : Mem) (base : Nat) (scr : Screen 25 80) : Prop :=
  ∀ (y : Fin 25) (x : Fin 80), vram (base + 2 * (80 * y + x)) = scr.chars y x ∧
    vram (base + 2 * (80 * y + x) + 1) = scr.attrs y x

/-- A page and a cursor hold a screen. -/
structure Shows (r : Region) (cur : Cursor) (v : Video) (scr : Screen 25 80) : Prop where
  cells : ShowsCells v.vram r.base scr
  x : cur.x = scr.col
  y : cur.y = scr.row

theorem showsCells_scroll {r : Region} {v : Video} {scr : Screen 25 80}
    (h : ShowsCells v.vram r.base scr) : ShowsCells (scrollRegion r v).vram r.base scr.scroll := by
  intro y x
  have hmem := (blanked_scrollRegion r v).2
  have hx := x.isLt
  have hy := y.isLt
  constructor
  · rw [hmem]
    simp only [Screen.scroll]
    by_cases hlast : y.val + 1 < 25
    · rw [if_pos (by omega), dif_pos hlast, ← (h ⟨y.val + 1, hlast⟩ x).1]
      congr 1
      simp only
      omega
    · rw [if_neg (by omega), if_pos (by simp only [numCols]; omega), dif_neg hlast]
  · rw [hmem, if_neg (by omega), if_neg (by omega)]
    exact (h y x).2

/-- The two stores of a printed character are the reference terminal's write. -/
theorem showsCells_write {r : Region} {cur : Cursor} {v : Video} {scr : Screen 25 80}
    (h : Shows r cur v scr) (c : UInt8) :
    ShowsCells ((v.store r (cellOffset cur.x cur.y) c).store r (cellOffset cur.x cur.y + 1)
      attrib).vram r.base (scr.write attrib c) := by
  obtain ⟨hcells, hx, hy⟩ := h
  intro y x
  have hcol := scr.col.isLt
  have hxlt := x.isLt
  have hchar : ((r.base : Int) + cellOffset cur.x cur.y).toNat =
      r.base + 2 * (80 * scr.row + scr.col) := by
    simp only [cellOffset, numCols, hx, hy]; omega
  have hattr : ((r.base : Int) + (cellOffset cur.x cur.y + 1)).toNat =
      r.base + 2 * (80 * scr.row + scr.col) + 1 := by
    simp only [cellOffset, numCols, hx, hy]; omega
  simp only [Video.store, hchar, hattr, Function.update_apply, Screen.write]
  by_cases hcell : y = scr.row ∧ x = scr.col
  · obtain ⟨rfl, rfl⟩ := hcell
    simp
  · have hne : 80 * y.val + x.val ≠ 80 * scr.row.val + scr.col.val := by
      intro heq
      exact hcell ⟨Fin.ext (by omega), Fin.ext (by omega)⟩
    rw [if_neg (by omega), if_neg (by omega), if_neg hcell, if_neg (by omega), if_neg (by omega),
      if_neg hcell]
    exact hcells y x

theorem shows_nextLine {r : Region} {y : Int} {v : Video} {scr : Screen 25 80}
    (hcells : ShowsCells v.vram r.base scr) (hy : y = scr.row) :
    Shows r (nextLine r y v).1 (nextLine r y v).2 scr.lineFeed ∧ Within r v (nextLine r y v).2 := by
  have hrow := scr.row.isLt
  by_cases hlast : scr.row.val + 1 < 25
  · have hno : ¬ y + 1 ≥ numRows := by simp only [numRows]; omega
    simp only [nextLine, if_neg hno, Screen.lineFeed, dif_pos hlast]
    exact ⟨⟨hcells, rfl, by simp only; omega⟩, .refl r v⟩
  · have hyes : y + 1 ≥ numRows := by simp only [numRows]; omega
    simp only [nextLine, if_pos hyes, Screen.lineFeed, dif_neg hlast]
    refine ⟨⟨showsCells_scroll hcells, rfl, ?_⟩, (blanked_scrollRegion r v).1⟩
    simp only [numRows, Screen.scroll]
    omega

/-- One printed byte, in either path, is one byte fed to the reference terminal, and it stores only
into the cells of its own page. -/
theorem putRegion_spec {r : Region} {cur : Cursor} {v : Video} {scr : Screen 25 80}
    (h : Shows r cur v scr) (c : UInt8) :
    Shows r (putRegion r c cur v).1 (putRegion r c cur v).2 (scr.put attrib c) ∧
      Within r v (putRegion r c cur v).2 := by
  have hrow := scr.row.isLt
  have hcol := scr.col.isLt
  have hx := h.x
  have hy := h.y
  unfold putRegion Screen.put
  by_cases hnl : c = 0x0A ∨ c = 0x0D
  · rw [if_pos hnl, if_pos hnl]
    exact shows_nextLine h.cells hy
  · rw [if_neg hnl, if_neg hnl]
    have hwrite := showsCells_write h c
    have hwithin : Within r v ((v.store r (cellOffset cur.x cur.y) c).store r
        (cellOffset cur.x cur.y + 1) attrib) := by
      refine ((Within.refl r v).store c ?_ ?_).store attrib ?_ ?_ <;>
        simp only [cellOffset, numCols, screenBytes, hx, hy] <;> omega
    by_cases hlast : scr.col.val + 1 < 80
    · have hno : ¬ cur.x + 1 ≥ numCols := by simp only [numCols]; omega
      simp only [if_neg hno, dif_pos hlast]
      exact ⟨⟨hwrite, by simp only; omega, by simpa [Screen.write] using hy⟩, hwithin⟩
    · have hyes : cur.x + 1 ≥ numCols := by simp only [numCols]; omega
      simp only [if_pos hyes, dif_neg hlast]
      obtain ⟨hshows, hscroll⟩ := shows_nextLine hwrite hy
      exact ⟨hshows, hwithin.trans hscroll⟩

end UnixOs
