import Mathlib

/-! The reference terminal: a grid of characters with attributes and a cursor inside it. A line feed
or carriage return opens the next line, a printed byte takes the cursor's cell and moves the cursor,
the last column wraps, and below the last row the characters (not the attributes) move up one line. -/

namespace UnixOs

/-- A terminal's display. The cursor is always in the grid. -/
@[ext] structure Screen (rows cols : Nat) where
  chars : Fin rows → Fin cols → UInt8
  attrs : Fin rows → Fin cols → UInt8
  row : Fin rows
  col : Fin cols

namespace Screen

variable {rows cols : Nat}

/-- Every character moves up one line; the last line becomes blank. -/
def scroll (s : Screen rows cols) : Screen rows cols :=
  { s with chars := fun r c => if h : r.val + 1 < rows then s.chars ⟨r.val + 1, h⟩ c else 0x20 }

/-- The first column of the next line, which scrolling makes when there is none. -/
def lineFeed (s : Screen rows cols) : Screen rows cols :=
  if h : s.row.val + 1 < rows then
    { s with row := ⟨s.row.val + 1, h⟩, col := ⟨0, s.col.pos⟩ }
  else { s.scroll with col := ⟨0, s.col.pos⟩ }

/-- The byte and the attribute in the cursor's cell. -/
def write (attr : UInt8) (s : Screen rows cols) (b : UInt8) : Screen rows cols :=
  { s with
    chars := fun r c => if r = s.row ∧ c = s.col then b else s.chars r c
    attrs := fun r c => if r = s.row ∧ c = s.col then attr else s.attrs r c }

def put (attr : UInt8) (s : Screen rows cols) (b : UInt8) : Screen rows cols :=
  if b = 0x0A ∨ b = 0x0D then s.lineFeed
  else if h : s.col.val + 1 < cols then { s.write attr b with col := ⟨s.col.val + 1, h⟩ }
  else (s.write attr b).lineFeed

/-- The display after a stream of bytes. -/
def feed (attr : UInt8) (s : Screen rows cols) (bytes : List UInt8) : Screen rows cols :=
  bytes.foldl (put attr) s

theorem feed_append (attr : UInt8) (s : Screen rows cols) (before after : List UInt8) :
    s.feed attr (before ++ after) = (s.feed attr before).feed attr after :=
  List.foldl_append

end Screen

end UnixOs
