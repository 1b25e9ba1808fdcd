import UnixOs.BlinkTiming

/-! The picture of the fish program: `add_frames` of `fish.c` reads two text files in step and adds a structure
for every column where one of them is not blank. A file is the bytes that `read` has still to deliver. -/

namespace UnixOs

/-- An open file of `add_frames`, with the local variables `c0` and `eof0` that go with it. -/
structure FrameFile where
  rest : List UInt8
  c : UInt8
  eof : Bool

namespace FrameFile

def opened (bytes : List UInt8) : FrameFile := ⟨bytes, 0x30, false⟩

/-- One byte is read unless the line has ended; the end of the file ends the line as well. -/
def read (f : FrameFile) : FrameFile :=
  if f.c ≠ 0x0A then
    match f.rest with
    | [] => { f with c := 0x0A, eof := true }
    | b :: rest => { f with rest := rest, c := b }
  else f

/-- The end of a row. -/
def nextRow (f : FrameFile) : FrameFile := { f with c := if f.eof then 0x0A else 0x30 }

end FrameFile

namespace Fish

/-- The structure of one column; `temp` is the local structure, of which the other fields are not set. -/
def frameBlink (temp : Blink) (row col : Nat) (c0 c1 : UInt8) : Blink :=
  { temp with
    location := UInt16.ofNat (row * 80 + col + 40)
    onChar := if c0 = 0x0A then 0x20 else c0
    offChar := if c1 = 0x0A then 0x20 else c1
    onLength := 15
    offLength := 15 }

/-- The inner loop of `add_frames`. -/
def rowLoop (blinkArray : Nat) (temp : Blink) (row : Nat) :
    Nat → Nat → FrameFile → FrameFile → Fish → Option (FrameFile × FrameFile × Fish)
  | 0, _, _, _, _ => none
  | fuel + 1, col, f0, f1, s =>
      let f0 := f0.read
      let f1 := f1.read
      if f0.c = 0x0A ∧ f1.c = 0x0A then some (f0, f1, s)
      else
        let s :=
          if (f0.c ≠ 0x20 ∧ f0.c ≠ 0x0A) ∨ (f1.c ≠ 0x20 ∧ f1.c ≠ 0x0A) then
            (s.add blinkArray (frameBlink temp row col f0.c f1.c)).1
          else s
        rowLoop blinkArray temp row fuel (col + 1) f0 f1 s

/-- The outer loop of `add_frames`. -/
def framesLoop (blinkArray : Nat) (temp : Blink) (rowFuel : Nat) :
    Nat → Nat → FrameFile → FrameFile → Fish → Option Fish
  | 0, _, _, _, _ => none
  | fuel + 1, row, f0, f1, s =>
      if f0.eof = false ∨ f1.eof = false then do
        let (f0, f1, s) ← rowLoop blinkArray temp row rowFuel 0 f0 f1 s
        framesLoop blinkArray temp rowFuel fuel (row + 1) f0.nextRow f1.nextRow s
      else some s

/-- `add_frames` with what opening the two files gives; the result is none inside when the program halts. -/
def addFrames (blinkArray : Nat) (temp : Blink) (fuel : Nat) (file0 file1 : Option (List UInt8)) (s : Fish) :
    Option (Option Fish) :=
  match file0, file1 with
  | some bytes0, some bytes1 =>
      (framesLoop blinkArray temp fuel fuel 0 (.opened bytes0) (.opened bytes1) s).map some
  | _, _ => some none

end Fish

/-! ### The files as lines -/

/-- A line of a file; there is none after the last. -/
def frameLine (bytes : List UInt8) (row : Nat) : List UInt8 := (bytes.splitOn 0x0A).getD row []

/-- The character of a picture at a row and a column; it is blank to the right of and below its lines. -/
def frameAt (bytes : List UInt8) (row col : Nat) : UInt8 := (frameLine bytes row).getD col 0x20

/-- What `add_frames` adds for a row and a column. -/
def cellBlink (temp : Blink) (row col : Nat) (a b : UInt8) : Option Blink :=
  if a ≠ 0x20 ∨ b ≠ 0x20 then some (Fish.frameBlink temp row col a b) else none

def rowBlinks (temp : Blink) (row : Nat) (l0 l1 : List UInt8) : List Blink :=
  (List.range (max l0.length l1.length)).filterMap fun col =>
    cellBlink temp row col (l0.getD col 0x20) (l1.getD col 0x20)

/-- The structures of two pictures, row by row. -/
def frameBlinks (temp : Blink) (bytes0 bytes1 : List UInt8) : List Blink :=
  (List.range (max (bytes0.splitOn 0x0A).length (bytes1.splitOn 0x0A).length)).flatMap fun row =>
    rowBlinks temp row (frameLine bytes0 row) (frameLine bytes1 row)

def Fish.addAll (blinkArray : Nat) (s : Fish) (bs : List Blink) : Fish :=
  bs.foldl (fun s b => (s.add blinkArray b).1) s

section Reading

variable {f g : FrameFile} {l : List UInt8}

/-- The rest of a line, and the file after it. -/
inductive LineLeft : FrameFile → List UInt8 → FrameFile → Prop
  | ended {f : FrameFile} (hc : f.c = 0x0A) : LineLeft f [] f
  | newline {l : List UInt8} {c : UInt8} (rest : List UInt8) (eof : Bool) (hc : c ≠ 0x0A) (hl : (0x0A : UInt8) ∉ l) :
      LineLeft ⟨l ++ 0x0A :: rest, c, eof⟩ l ⟨rest, 0x0A, eof⟩
  | last {l : List UInt8} {c : UInt8} (eof : Bool) (hc : c ≠ 0x0A) (hl : (0x0A : UInt8) ∉ l) :
      LineLeft ⟨l, c, eof⟩ l ⟨[], 0x0A, true⟩

theorem LineLeft.read_nil (h : LineLeft f [] g) : f.read = g := by
  cases h with
  | ended hc => exact if_neg (not_not.mpr hc)
  | newline rest eof hc => exact if_pos hc
  | last eof hc => exact if_pos hc

theorem LineLeft.done (h : LineLeft f l g) : g.c = 0x0A := by
  cases h with
  | ended hc => exact hc
  | newline => rfl
  | last => rfl

theorem LineLeft.read_cons {b : UInt8} (h : LineLeft f (b :: l) g) :
    f.read.c = b ∧ b ≠ 0x0A ∧ LineLeft f.read l g := by
  cases h with
  | newline rest eof hc hl =>
      obtain ⟨hb, hl⟩ := not_or.mp (mt List.mem_cons.mpr hl)
      have hread : FrameFile.read ⟨b :: l ++ 0x0A :: rest, _, eof⟩ = ⟨l ++ 0x0A :: rest, b, eof⟩ := if_pos hc
      rw [hread]
      exact ⟨rfl, Ne.symm hb, .newline rest eof (Ne.symm hb) hl⟩
  | last eof hc hl =>
      obtain ⟨hb, hl⟩ := not_or.mp (mt List.mem_cons.mpr hl)
      have hread : FrameFile.read ⟨b :: l, _, eof⟩ = ⟨l, b, eof⟩ := if_pos hc
      rw [hread]
      exact ⟨rfl, Ne.symm hb, .last eof (Ne.symm hb) hl⟩

theorem LineLeft.column {col : Nat} (h : LineLeft f (l.drop col) g) :
    f.read.c = l.getD col 0x0A ∧ LineLeft f.read (l.drop (col + 1)) g ∧ (f.read.c = 0x0A ↔ l.length ≤ col) ∧
      (l.length ≤ col → f.read = g) := by
  rcases Nat.lt_or_ge col l.length with hlt | hge
  · rw [List.drop_eq_getElem_cons hlt] at h
    obtain ⟨hc, hne, hrest⟩ := h.read_cons
    refine ⟨by rw [hc, List.getD_eq_getElem _ _ hlt], hrest, ?_, fun hge => absurd hge (by omega)⟩
    rw [hc]
    exact ⟨fun heq => absurd heq hne, fun hge => absurd hge (by omega)⟩
  · rw [List.drop_eq_nil_of_le hge] at h
    have hread := h.read_nil
    have hdone := h.done
    rw [List.drop_eq_nil_of_le (by omega), List.getD_eq_default _ _ hge, hread]
    exact ⟨hdone, .ended hdone, ⟨fun _ => hge, fun _ => hdone⟩, fun _ => rfl⟩

/-- The rows that are left at the start of a row. -/
inductive RowsLeft : FrameFile → List (List UInt8) → Prop
  | none {f : FrameFile} (heof : f.eof = true) (hc : f.c = 0x0A) : RowsLeft f []
  | some {f : FrameFile} (heof : f.eof = false) (hc : f.c ≠ 0x0A) : RowsLeft f (f.rest.splitOn 0x0A)

theorem rowsLeft_opened (bytes : List UInt8) : RowsLeft (.opened bytes) ((bytes.splitOn 0x0A).drop 0) :=
  .some rfl (show (0x30 : UInt8) ≠ 0x0A by decide)

theorem RowsLeft.eof_iff {lines : List (List UInt8)} (h : RowsLeft f lines) : f.eof = false ↔ lines ≠ [] := by
  cases h with
  | none heof => simp [heof]
  | some heof => simp [heof, List.splitOn_ne_nil]

theorem RowsLeft.row {lines : List (List UInt8)} (h : RowsLeft f lines) :
    ∃ g, LineLeft f (lines.headD []) g ∧ RowsLeft g.nextRow lines.tail := by
  cases h with
  | none heof hc => exact ⟨f, .ended hc, .none heof (if_pos heof)⟩
  | some heof hc =>
      obtain ⟨rest, c, eof⟩ := f
      obtain rfl : eof = false := heof
      by_cases hmem : (0x0A : UInt8) ∈ rest
      · obtain ⟨l, after, rfl, hl⟩ := List.eq_append_cons_of_mem hmem
        rw [List.splitOn_append_cons_self_of_not_mem hl]
        exact ⟨_, .newline after false hc hl, .some rfl (show (0x30 : UInt8) ≠ 0x0A by decide)⟩
      · rw [List.splitOn_eq_singleton hmem]
        exact ⟨_, .last false hc hmem, .none rfl rfl⟩

theorem LineLeft.shown {col : Nat} (h : LineLeft f (l.drop col) g) :
    (if f.read.c = 0x0A then 0x20 else f.read.c) = l.getD col 0x20 ∧
      (f.read.c ≠ 0x20 ∧ f.read.c ≠ 0x0A ↔ l.getD col 0x20 ≠ 0x20) ∧ l.getD col 0x20 ≠ 0x0A := by
  obtain ⟨hc, -, hend, -⟩ := h.column
  rcases Nat.lt_or_ge col l.length with hlt | hge
  · have hne : f.read.c ≠ 0x0A := fun heq => absurd (hend.mp heq) (by omega)
    rw [List.getD_eq_getElem _ _ hlt] at hc ⊢
    rw [if_neg hne, ← hc]
    exact ⟨rfl, ⟨fun hboth => hboth.1, fun hblank => ⟨hblank, hne⟩⟩, hne⟩
  · have heq : f.read.c = 0x0A := hend.mpr hge
    rw [List.getD_eq_default _ _ hge, if_pos heq]
    exact ⟨rfl, ⟨fun hboth => absurd heq hboth.2, fun hblank => absurd rfl hblank⟩, by decide⟩

end Reading

section Loops

variable {blinkArray fuel : Nat} {s : Fish} {temp : Blink} {f0 f1 g0 g1 : FrameFile} {l0 l1 : List UInt8}

theorem Fish.addAll_append (bs cs : List Blink) :
    s.addAll blinkArray (bs ++ cs) = (s.addAll blinkArray bs).addAll blinkArray cs :=
  List.foldl_append

theorem column_adds {row col : Nat} (h0 : LineLeft f0 (l0.drop col) g0) (h1 : LineLeft f1 (l1.drop col) g1) :
    (if (f0.read.c ≠ 0x20 ∧ f0.read.c ≠ 0x0A) ∨ (f1.read.c ≠ 0x20 ∧ f1.read.c ≠ 0x0A) then
        (s.add blinkArray (Fish.frameBlink temp row col f0.read.c f1.read.c)).1
      else s) =
      s.addAll blinkArray (cellBlink temp row col (l0.getD col 0x20) (l1.getD col 0x20)).toList := by
  obtain ⟨hc0, hblank0, hne0⟩ := h0.shown
  obtain ⟨hc1, hblank1, hne1⟩ := h1.shown
  have hblink : Fish.frameBlink temp row col f0.read.c f1.read.c =
      Fish.frameBlink temp row col (l0.getD col 0x20) (l1.getD col 0x20) := by
    rw [Fish.frameBlink, Fish.frameBlink, hc0, hc1, if_neg hne0, if_neg hne1]
  rw [hblink, cellBlink]
  by_cases hshown : l0.getD col 0x20 ≠ 0x20 ∨ l1.getD col 0x20 ≠ 0x20
  · rw [if_pos hshown, if_pos (hshown.imp hblank0.mpr hblank1.mpr)]
    rfl
  · rw [if_neg hshown, if_neg fun hread => hshown (hread.imp hblank0.mp hblank1.mp)]
    rfl

theorem rowLoop_eq {row : Nat} (k : Nat) {col : Nat} (h0 : LineLeft f0 (l0.drop col) g0)
    (h1 : LineLeft f1 (l1.drop col) g1) (hk : k = max l0.length l1.length - col) (hfuel : k < fuel) :
    Fish.rowLoop blinkArray temp row fuel col f0 f1 s = some (g0, g1, s.addAll blinkArray
      ((List.range' col k).filterMap fun col => cellBlink temp row col (l0.getD col 0x20) (l1.getD col 0x20))) := by
  induction k generalizing col f0 f1 s fuel with
  | zero =>
      obtain ⟨fuel, rfl⟩ : ∃ n, fuel = n + 1 := ⟨fuel - 1, by omega⟩
      obtain ⟨-, -, hend0, hread0⟩ := h0.column
      obtain ⟨-, -, hend1, hread1⟩ := h1.column
      have hle0 : l0.length ≤ col := by omega
      have hle1 : l1.length ≤ col := by omega
      rw [Fish.rowLoop]
      dsimp only
      rw [if_pos ⟨hend0.mpr hle0, hend1.mpr hle1⟩, hread0 hle0, hread1 hle1]
      rfl
  | succ k ih =>
      obtain ⟨fuel, rfl⟩ : ∃ n, fuel = n + 1 := ⟨fuel - 1, by omega⟩
      obtain ⟨-, hnext0, hend0, -⟩ := h0.column
      obtain ⟨-, hnext1, hend1, -⟩ := h1.column
      have hmore : ¬(f0.read.c = 0x0A ∧ f1.read.c = 0x0A) := by
        rw [hend0, hend1]
        omega
      rw [Fish.rowLoop]
      dsimp only
      rw [if_neg hmore, column_adds h0 h1, ih hnext0 hnext1 (by omega) (by omega), List.range'_succ,
        List.filterMap_cons, ← Fish.addAll_append]
      cases cellBlink temp row col (l0.getD col 0x20) (l1.getD col 0x20) <;> rfl

theorem rowLoop_line {row : Nat} (h0 : LineLeft f0 l0 g0) (h1 : LineLeft f1 l1 g1) (hfuel0 : l0.length < fuel)
    (hfuel1 : l1.length < fuel) :
    Fish.rowLoop blinkArray temp row fuel 0 f0 f1 s =
      some (g0, g1, s.addAll blinkArray (rowBlinks temp row l0 l1)) := by
  rw [rowBlinks, List.range_eq_range']
  exact rowLoop_eq (max l0.length l1.length) h0 h1 rfl (Nat.max_lt.mpr ⟨hfuel0, hfuel1⟩)

theorem drop_ne_nil_iff {α : Type} (row : Nat) (lines : List α) : lines.drop row ≠ [] ↔ row < lines.length := by
  rw [Ne, List.drop_eq_nil_iff, Nat.not_le]

theorem framesLoop_eq {rowFuel : Nat} {lines0 lines1 : List (List UInt8)} (k : Nat) {row : Nat}
    (h0 : RowsLeft f0 (lines0.drop row)) (h1 : RowsLeft f1 (lines1.drop row))
    (hk : k = max lines0.length lines1.length - row) (hfuel : k < fuel)
    (hrows0 : ∀ l ∈ lines0, l.length < rowFuel) (hrows1 : ∀ l ∈ lines1, l.length < rowFuel) (hpos : 0 < rowFuel) :
    Fish.framesLoop blinkArray temp rowFuel fuel row f0 f1 s = some (s.addAll blinkArray
      ((List.range' row k).flatMap fun row => rowBlinks temp row (lines0.getD row []) (lines1.getD row []))) := by
  induction k generalizing row f0 f1 s fuel with
  | zero =>
      obtain ⟨fuel, rfl⟩ : ∃ n, fuel = n + 1 := ⟨fuel - 1, by omega⟩
      rw [Fish.framesLoop, if_neg]
      · rfl
      · rw [h0.eof_iff, h1.eof_iff, drop_ne_nil_iff, drop_ne_nil_iff]
        omega
  | succ k ih =>
      obtain ⟨fuel, rfl⟩ : ∃ n, fuel = n + 1 := ⟨fuel - 1, by omega⟩
      have hmore : f0.eof = false ∨ f1.eof = false := by
        rw [h0.eof_iff, h1.eof_iff, drop_ne_nil_iff, drop_ne_nil_iff]
        omega
      obtain ⟨g0, hline0, hnext0⟩ := h0.row
      obtain ⟨g1, hline1, hnext1⟩ := h1.row
      have hhead : ∀ lines : List (List UInt8), (lines.drop row).headD [] = lines.getD row [] := fun lines => by
        rw [List.headD_eq_head?_getD, List.head?_drop, List.getD_eq_getElem?_getD]
      have hlen : ∀ lines : List (List UInt8), (∀ l ∈ lines, l.length < rowFuel) →
          (lines.getD row []).length < rowFuel := by
        intro lines hrows
        rcases Nat.lt_or_ge row lines.length with hlt | hge
        · rw [List.getD_eq_getElem _ _ hlt]
          exact hrows _ (List.getElem_mem hlt)
        · rw [List.getD_eq_default _ _ hge]
          exact hpos
      rw [hhead] at hline0 hline1
      rw [List.tail_drop] at hnext0 hnext1
      rw [Fish.framesLoop, if_pos hmore, rowLoop_line hline0 hline1 (hlen _ hrows0) (hlen _ hrows1)]
      refine (ih hnext0 hnext1 (by omega) (by omega)).trans ?_
      rw [← Fish.addAll_append, List.range'_succ, List.flatMap_cons]

theorem length_splitOn_le (sep : UInt8) (bytes : List UInt8) : (bytes.splitOn sep).length ≤ bytes.length + 1 ∧
    ∀ l ∈ bytes.splitOn sep, l.length ≤ bytes.length := by
  induction bytes with
  | nil => simp [List.splitOn_nil]
  | cons b bytes ih =>
      rw [List.splitOn_cons_eq_if_modifyHead]
      obtain ⟨hcount, hlength⟩ := ih
      split_ifs with hsep
      · refine ⟨Nat.succ_le_succ hcount, fun l hl => ?_⟩
        rcases List.mem_cons.mp hl with rfl | hl
        · exact Nat.zero_le _
        · exact (hlength l hl).trans (Nat.le_succ _)
      · cases hlines : bytes.splitOn sep with
        | nil => exact absurd hlines (List.splitOn_ne_nil sep bytes)
        | cons first lines =>
            rw [hlines] at hcount hlength
            refine ⟨Nat.le_succ_of_le hcount, fun l hl => ?_⟩
            rcases List.mem_cons.mp hl with rfl | hl
            · exact Nat.succ_le_succ (hlength first List.mem_cons_self)
            · exact (hlength l (List.mem_cons_of_mem _ hl)).trans (Nat.le_succ _)

/-- `add_frames` ends, and adds the structures of the two pictures row by row. -/
theorem addFrames_adds (bytes0 bytes1 : List UInt8) (hfuel0 : bytes0.length + 1 < fuel)
    (hfuel1 : bytes1.length + 1 < fuel) :
    Fish.addFrames blinkArray temp fuel (some bytes0) (some bytes1) s =
      some (some (s.addAll blinkArray (frameBlinks temp bytes0 bytes1))) := by
  obtain ⟨hcount0, hlength0⟩ := length_splitOn_le 0x0A bytes0
  obtain ⟨hcount1, hlength1⟩ := length_splitOn_le 0x0A bytes1
  have hloop : Fish.framesLoop blinkArray temp fuel fuel 0 (.opened bytes0) (.opened bytes1) s =
      some (s.addAll blinkArray (frameBlinks temp bytes0 bytes1)) := by
    rw [frameBlinks, List.range_eq_range']
    exact framesLoop_eq _ (rowsLeft_opened bytes0) (rowsLeft_opened bytes1) rfl (by omega)
      (fun l hl => (hlength0 l hl).trans_lt (by omega)) (fun l hl => (hlength1 l hl).trans_lt (by omega)) (by omega)
  rw [Fish.addFrames, hloop]
  rfl

end Loops

/-! ### The animation -/

/-- The loops of `main` that wait for the clock: each tick runs the tasklet once. -/
def Fish.ticks (fuel : Nat) : Nat → Fish → Option Fish
  | 0, s => some s
  | n + 1, s => do
      let s ← s.tasklet fuel
      Fish.ticks fuel n s

/-- The clock when every structure is equally old. -/
def clockAt (n : Nat) : BlinkClock := ⟨fun _ => n, fun _ => false⟩

/-- What the structures added since `s₀` have put on the screen and in the slots. -/
structure Drawn (blinkArray : Nat) (s₀ s : Fish) (bs : List Blink) (xs : List Nat) : Prop where
  showing : Showing blinkArray s (clockAt 0) xs
  complete : ∀ b ∈ bs, ∃ p ∈ xs, SameShape b (s.cell p)
  sound : ∀ p ∈ xs, ∃ b ∈ bs, SameShape b (s.cell p)
  count : xs.length = bs.length
  free : ∀ i < slotCount, slotAddr blinkArray i ∉ xs → (s.cell (slotAddr blinkArray i)).location = 0
  dark : ∀ x, (∀ b ∈ bs, x ≠ b.place) → s.video x = s₀.video x

/-- Structures on the screen, each at a place of its own. -/
structure Spread (bs : List Blink) : Prop where
  located : ∀ b ∈ bs, 0 < b.location.toNat ∧ b.location.toNat < 80 * 25
  timed : ∀ b ∈ bs, b.Timed
  apart : bs.Pairwise fun b c => b.location ≠ c.location

section Animation

variable {blinkArray fuel : Nat} {s₀ s : Fish} {bs : List Blink} {xs : List Nat}

theorem Spread.length_lt (h : Spread bs) : bs.length < slotCount := by
  have hnodup : (bs.map fun b => b.location.toNat).Nodup := by
    rw [List.Nodup, List.pairwise_map]
    exact h.apart.imp fun hne heq => hne (UInt16.toNat_inj.mp heq)
  have hsub : (bs.map fun b => b.location.toNat) ⊆ (List.range 1999).map (· + 1) := by
    intro n hn
    obtain ⟨b, hb, rfl⟩ := List.mem_map.mp hn
    obtain ⟨hpos, hlt⟩ := h.located b hb
    exact List.mem_map.mpr ⟨b.location.toNat - 1, List.mem_range.mpr (by omega), by omega⟩
  have hlength := (hnodup.subperm hsub).length_le
  rw [List.length_map, List.length_map, List.length_range] at hlength
  rw [slotCount]
  omega

/-- While fewer structures are on the list than there are slots, the allocator finds one. -/
theorem Drawn.malloc_ne_zero (h : Drawn blinkArray s₀ s bs xs) (harray : 0 < blinkArray)
    (hroom : bs.length < slotCount) :
    s.malloc blinkArray ≠ 0 := by
  have hsome : ∃ i < slotCount, (s.cell (slotAddr blinkArray i)).location = 0 := by
    by_contra hfull
    push Not at hfull
    have hsub : (List.range slotCount).map (slotAddr blinkArray) ⊆ xs := by
      intro p hp
      obtain ⟨i, hi, rfl⟩ := List.mem_map.mp hp
      rw [List.mem_range] at hi
      by_contra hnot
      exact hfull i hi (h.free i hi hnot)
    have hnodup : ((List.range slotCount).map (slotAddr blinkArray)).Nodup := by
      refine List.Nodup.map (fun i j hij => ?_) List.nodup_range
      rw [slotAddr, slotAddr] at hij
      omega
    have hlength := (hnodup.subperm hsub).length_le
    rw [List.length_map, List.length_range, h.count] at hlength
    omega
  obtain ⟨i, hi, hzero⟩ := hsome
  intro hnull
  cases hfind : s.freeSlot blinkArray with
  | none =>
      rw [Fish.freeSlot, List.find?_eq_none] at hfind
      exact hfind i (List.mem_range.mpr hi) (decide_eq_true hzero)
  | some j =>
      rw [Fish.malloc, hfind, Option.elim_some, slotAddr] at hnull
      omega

theorem clockAt_add (p : Nat) : (clockAt 0).add p = clockAt 0 := by
  rw [BlinkClock.add, clockAt]
  simp only [Function.update_eq_self]

theorem Drawn.add {b : Blink} (h : Drawn blinkArray s₀ s bs xs) (harray : 0 < blinkArray)
    (hroom : bs.length < slotCount) (hlocated : 0 < b.location.toNat ∧ b.location.toNat < 80 * 25) (htimed : b.Timed)
    (hapart : ∀ c ∈ bs, c.location ≠ b.location) :
    Drawn blinkArray s₀ (s.add blinkArray b).1 (bs ++ [b]) (s.malloc blinkArray :: xs) := by
  have hnull := h.malloc_ne_zero harray hroom
  have hsmall : ¬ b.location ≥ 80 * 25 := by
    rw [ge_iff_le, UInt16.le_iff_toNat_le, Nat.not_le]
    exact hlocated.2
  obtain ⟨-, hret, hadded⟩ := (add_cases blinkArray s b).resolve_left fun hfail => hfail.1.elim hsmall hnull
  have hne : b.location ≠ 0 := by
    intro hzero
    rw [hzero] at hlocated
    exact absurd hlocated.1 (by decide)
  have hfresh : s.findHelper (slotCount + 1) b.location = some 0 := by
    obtain ⟨p, hfind, hp⟩ := h.showing.list.findHelper (Nat.lt_succ_self slotCount) b.location
    by_cases hpnull : p = 0
    · rw [hfind, hpnull]
    · obtain ⟨c, hc, hshape⟩ := h.sound p (hp.resolve_left hpnull)
      exact absurd (hshape.location.symm.trans (location_of_findLoop hfind hpnull)) (hapart c hc)
  obtain ⟨hshowing, hkept⟩ := h.showing.add_ok hne htimed hfresh hret
  rw [clockAt_add] at hshowing
  have hshape : SameShape b ((s.add blinkArray b).1.cell (s.malloc blinkArray)) := by
    rw [(add_shows hret).1]
    exact ⟨rfl, rfl, rfl, rfl, rfl⟩
  refine ⟨hshowing, fun c hc => ?_, fun p hp => ?_, ?_, fun i hi hnot => ?_, fun x hx => ?_⟩
  · rcases List.mem_append.mp hc with hc | hc
    · obtain ⟨p, hp, hold⟩ := h.complete c hc
      exact ⟨p, List.mem_cons_of_mem _ hp, hold.trans (hkept.shape p hp trivial)⟩
    · rw [List.mem_singleton.mp hc]
      exact ⟨_, List.mem_cons_self, hshape⟩
  · rcases List.mem_cons.mp hp with hnew | hp
    · rw [hnew]
      exact ⟨b, List.mem_append_right _ List.mem_cons_self, hshape⟩
    · obtain ⟨c, hc, hold⟩ := h.sound p hp
      exact ⟨c, List.mem_append_left _ hc, hold.trans (hkept.shape p hp trivial)⟩
  · rw [List.length_cons, List.length_append, h.count]
    rfl
  · obtain ⟨hnew, hnot⟩ := not_or.mp (mt List.mem_cons.mpr hnot)
    rw [hadded.others _ hnew]
    exact h.free i hi hnot
  · rw [(add_shows hret).2, Function.update_of_ne (hx b (List.mem_append_right _ List.mem_cons_self))]
    exact h.dark x fun c hc => hx c (List.mem_append_left _ hc)

theorem Drawn.addAll (h : Drawn blinkArray s₀ s bs xs) (harray : 0 < blinkArray) (cs : List Blink)
    (hspread : Spread (bs ++ cs)) : ∃ ys, Drawn blinkArray s₀ (s.addAll blinkArray cs) (bs ++ cs) ys := by
  induction cs generalizing s bs xs with
  | nil =>
      rw [List.append_nil]
      exact ⟨xs, h⟩
  | cons c cs ih =>
      have hroom : bs.length < slotCount := by
        have hlt := hspread.length_lt
        rw [List.length_append] at hlt
        omega
      have hmem : c ∈ bs ++ c :: cs := List.mem_append_right _ List.mem_cons_self
      have hapart : ∀ b ∈ bs, b.location ≠ c.location := fun b hb =>
        (List.pairwise_append.mp hspread.apart).2.2 b hb c List.mem_cons_self
      have hnext := h.add harray hroom (hspread.located c hmem) (hspread.timed c hmem) hapart
      rw [List.append_cons] at hspread ⊢
      exact ih hnext hspread

/-- Ticks leave the structures where they are and make them older. -/
theorem Showing.wait {m : Nat} (h : Showing blinkArray s (clockAt m) xs) (hfuel : slotCount < fuel) (n : Nat) :
    ∃ s', s.ticks fuel n = some s' ∧ Showing blinkArray s' (clockAt (m + n)) xs ∧
      (∀ p ∈ xs, SameShape (s.cell p) (s'.cell p)) ∧
      ∀ x, (∀ p ∈ xs, x ≠ (s.cell p).place) → s'.video x = s.video x := by
  induction n generalizing s m with
  | zero => exact ⟨s, rfl, h, fun _ _ => .refl _, fun _ _ => rfl⟩
  | succ n ih =>
      obtain ⟨t, htick, hshowing, hkept⟩ := h.tasklet hfuel
      have hclock : (clockAt m).tick s = clockAt (m + 1) := rfl
      rw [hclock] at hshowing
      obtain ⟨s', hticks, hlast, hshape, hdark⟩ := ih hshowing
      have hfirst : ∀ p ∈ xs, SameShape (s.cell p) (t.cell p) := fun p hp => hkept.shape p hp trivial
      refine ⟨s', ?_, ?_, fun p hp => (hfirst p hp).trans (hshape p hp), fun x hx => ?_⟩
      · rw [Fish.ticks, htick]
        exact hticks
      · rw [Nat.add_assoc, Nat.add_comm 1 n] at hlast
        exact hlast
      · rw [hdark x fun p hp => by rw [(hfirst p hp).place]; exact hx p hp]
        exact hkept.dark x hx fun user hcall => nomatch hcall

theorem StartsEmpty.drawn (h : StartsEmpty blinkArray s) : Drawn blinkArray s s [] [] where
  showing := h.showing _
  complete := by simp
  sound := by simp
  count := rfl
  free i hi _ := by rw [h.zeroed i hi]; rfl
  dark _ _ := rfl

/-- A picture of at most 25 rows and 40 columns; the last row may end in a line feed. -/
structure Fits (bytes : List UInt8) : Prop where
  rows : (bytes.splitOn 0x0A).length ≤ 26
  last : frameLine bytes 25 = []
  cols : ∀ l ∈ bytes.splitOn 0x0A, l.length ≤ 40

theorem not_mem_of_mem_splitOn {sep : UInt8} {bytes l : List UInt8} (hl : l ∈ bytes.splitOn sep) : sep ∉ l := by
  induction bytes generalizing l with
  | nil =>
      rw [List.splitOn_nil, List.mem_singleton] at hl
      rw [hl]
      exact List.not_mem_nil
  | cons b bytes ih =>
      rw [List.splitOn_cons_eq_if_modifyHead] at hl
      split_ifs at hl with hsep
      · rcases List.mem_cons.mp hl with rfl | hl
        · exact List.not_mem_nil
        · exact ih hl
      · cases hlines : bytes.splitOn sep with
        | nil => exact absurd hlines (List.splitOn_ne_nil sep bytes)
        | cons first lines =>
            rw [hlines] at hl ih
            rcases List.mem_cons.mp hl with rfl | hl
            · rintro (_ | ⟨_, hmem⟩)
              · exact hsep (BEq.refl _)
              · exact ih List.mem_cons_self hmem
            · exact ih (List.mem_cons_of_mem _ hl)

theorem frameAt_ne_newline (bytes : List UInt8) (row col : Nat) : frameAt bytes row col ≠ 0x0A := by
  rw [frameAt, frameLine]
  rcases Nat.lt_or_ge row (bytes.splitOn 0x0A).length with hlt | hge
  · rw [List.getD_eq_getElem _ _ hlt]
    have hnot := not_mem_of_mem_splitOn (List.getElem_mem hlt)
    rcases Nat.lt_or_ge col (bytes.splitOn 0x0A)[row].length with hin | hout
    · rw [List.getD_eq_getElem _ _ hin]
      intro heq
      have hmem := List.getElem_mem hin
      rw [heq] at hmem
      exact hnot hmem
    · rw [List.getD_eq_default _ _ hout]
      decide
  · rw [List.getD_eq_default _ _ hge]
    exact show (0x20 : UInt8) ≠ 0x0A by decide

theorem Fits.length_frameLine {bytes : List UInt8} (h : Fits bytes) (row : Nat) :
    (frameLine bytes row).length ≤ 40 := by
  rw [frameLine]
  rcases Nat.lt_or_ge row (bytes.splitOn 0x0A).length with hlt | hge
  · rw [List.getD_eq_getElem _ _ hlt]
    exact h.cols _ (List.getElem_mem hlt)
  · rw [List.getD_eq_default _ _ hge]
    exact Nat.zero_le _

theorem Fits.frameLine_eq_nil {bytes : List UInt8} (h : Fits bytes) {row : Nat} (hrow : 25 ≤ row) :
    frameLine bytes row = [] := by
  rcases Nat.eq_or_lt_of_le hrow with rfl | hlt
  · exact h.last
  · exact List.getD_eq_default _ _ (h.rows.trans hlt)

/-- A file is its lines with a line feed between them. -/
theorem length_add_one_eq_sum (sep : UInt8) (bytes : List UInt8) :
    bytes.length + 1 = ((bytes.splitOn sep).map fun l => l.length + 1).sum := by
  induction bytes with
  | nil => rfl
  | cons b bytes ih =>
      rw [List.splitOn_cons_eq_if_modifyHead]
      split_ifs with hsep
      · rw [List.map_cons, List.sum_cons, ← ih, List.length_cons, List.length_nil]
        omega
      · cases hlines : bytes.splitOn sep with
        | nil => exact absurd hlines (List.splitOn_ne_nil sep bytes)
        | cons first lines =>
            rw [hlines, List.map_cons, List.sum_cons] at ih
            rw [List.modifyHead_cons, List.map_cons, List.sum_cons, List.length_cons, List.length_cons]
            omega

theorem Fits.length_lt {bytes : List UInt8} (h : Fits bytes) : bytes.length < 26 * 41 := by
  have hsum : ((bytes.splitOn 0x0A).map fun l => l.length + 1).sum ≤ (bytes.splitOn 0x0A).length • 41 := by
    have hle := List.sum_le_card_nsmul ((bytes.splitOn 0x0A).map fun l => l.length + 1) 41 fun n hn => ?_
    · rwa [List.length_map] at hle
    · obtain ⟨l, hl, rfl⟩ := List.mem_map.mp hn
      exact Nat.succ_le_succ (h.cols l hl)
  have hrows := h.rows
  rw [← length_add_one_eq_sum, smul_eq_mul] at hsum
  omega

/-- The offset of a picture's row and column in video memory. -/
def frameCell (row col : Nat) : Nat := (row * 80 + col + 40) * 2

variable {temp : Blink} {bytes0 bytes1 : List UInt8}

theorem toNat_location_frameBlink {row col : Nat} (hrow : row < 25) (hcol : col < 40) (a b : UInt8) :
    (Fish.frameBlink temp row col a b).location.toNat = row * 80 + col + 40 := by
  change (UInt16.ofNat _).toNat = _
  rw [UInt16.toNat_ofNat']
  omega

theorem toNat_location_cellBlink {row col : Nat} {a b : UInt8} {c : Blink} (hrow : row < 25) (hcol : col < 40)
    (hc : cellBlink temp row col a b = some c) : c.location.toNat = row * 80 + col + 40 := by
  rw [cellBlink, Option.ite_none_right_eq_some] at hc
  rw [← Option.some.inj hc.2, toNat_location_frameBlink hrow hcol]

theorem lt_of_lt_length_frameLine {row col : Nat} (hfits0 : Fits bytes0) (hfits1 : Fits bytes1)
    (hcol : col < max (frameLine bytes0 row).length (frameLine bytes1 row).length) :
    row < 25 ∧ col < 40 := by
  have hcols0 := hfits0.length_frameLine row
  have hcols1 := hfits1.length_frameLine row
  refine ⟨?_, by omega⟩
  by_contra hge
  rw [hfits0.frameLine_eq_nil (Nat.not_lt.mp hge), hfits1.frameLine_eq_nil (Nat.not_lt.mp hge)] at hcol
  exact absurd hcol (Nat.not_lt_zero col)

theorem toNat_location_rowBlinks {row : Nat} {b : Blink} (hfits0 : Fits bytes0) (hfits1 : Fits bytes1)
    (hb : b ∈ rowBlinks temp row (frameLine bytes0 row) (frameLine bytes1 row)) :
    ∃ col < 40, b.location.toNat = row * 80 + col + 40 := by
  obtain ⟨col, hcol, hc⟩ := List.mem_filterMap.mp hb
  obtain ⟨hrow, hin⟩ := lt_of_lt_length_frameLine hfits0 hfits1 (List.mem_range.mp hcol)
  exact ⟨col, hin, toNat_location_cellBlink hrow hin hc⟩

theorem mem_frameBlinks {b : Blink} (hfits0 : Fits bytes0) (hfits1 : Fits bytes1) :
    b ∈ frameBlinks temp bytes0 bytes1 ↔ ∃ row < 25, ∃ col < 40,
      (frameAt bytes0 row col ≠ 0x20 ∨ frameAt bytes1 row col ≠ 0x20) ∧
        b = Fish.frameBlink temp row col (frameAt bytes0 row col) (frameAt bytes1 row col) := by
  simp only [frameBlinks, rowBlinks, List.mem_flatMap, List.mem_filterMap, List.mem_range, cellBlink, frameAt,
    Option.ite_none_right_eq_some, Option.some.injEq]
  constructor
  · rintro ⟨row, hrow, col, hcol, hshown, rfl⟩
    obtain ⟨hin, hin'⟩ := lt_of_lt_length_frameLine hfits0 hfits1 hcol
    exact ⟨row, hin, col, hin', hshown, rfl⟩
  · rintro ⟨row, -, col, -, hshown, rfl⟩
    have hcol : col < max (frameLine bytes0 row).length (frameLine bytes1 row).length := by
      by_contra hge
      rw [List.getD_eq_default _ _ (by omega), List.getD_eq_default _ _ (by omega)] at hshown
      exact hshown.elim (absurd rfl) (absurd rfl)
    refine ⟨row, ?_, col, hcol, hshown, rfl⟩
    by_contra hge
    rw [frameLine, frameLine, List.getD_eq_default _ _ (by omega), List.getD_eq_default _ _ (by omega)] at hcol
    exact absurd hcol (Nat.not_lt_zero col)

theorem spread_frameBlinks (hfits0 : Fits bytes0) (hfits1 : Fits bytes1) : Spread (frameBlinks temp bytes0 bytes1) := by
  refine ⟨fun b hb => ?_, fun b hb => ?_, ?_⟩
  · obtain ⟨row, hrow, col, hcol, -, rfl⟩ := (mem_frameBlinks hfits0 hfits1).mp hb
    rw [toNat_location_frameBlink hrow hcol]
    omega
  · obtain ⟨row, hrow, col, hcol, -, rfl⟩ := (mem_frameBlinks hfits0 hfits1).mp hb
    exact ⟨show 0 < 15 by decide, show 15 < 2 ^ 15 by decide, show 0 < 15 by decide, show 15 < 2 ^ 15 by decide⟩
  · rw [frameBlinks, List.pairwise_flatMap]
    refine ⟨fun row hrow => ?_, List.pairwise_lt_range.imp fun hlt => ?_⟩
    · rw [rowBlinks, List.pairwise_filterMap]
      refine List.pairwise_lt_range.imp_of_mem fun hc hc' hlt b hb b' hb' heq => ?_
      obtain ⟨hin, hcol⟩ := lt_of_lt_length_frameLine hfits0 hfits1 (List.mem_range.mp hc)
      obtain ⟨-, hcol'⟩ := lt_of_lt_length_frameLine hfits0 hfits1 (List.mem_range.mp hc')
      have hat := toNat_location_cellBlink hin hcol hb
      have hat' := toNat_location_cellBlink hin hcol' hb'
      rw [heq] at hat
      omega
    · intro b hb b' hb' heq
      obtain ⟨col, hcol, hat⟩ := toNat_location_rowBlinks hfits0 hfits1 hb
      obtain ⟨col', hcol', hat'⟩ := toNat_location_rowBlinks hfits0 hfits1 hb'
      rw [heq] at hat
      omega

/-- Two pictures that fit are shown in turn, each for fifteen ticks: after any number of ticks every cell of the
screen where one of them is not blank shows the character of the picture whose turn it is, and nothing else on
the screen has changed. -/
theorem frames_alternate (temp : Blink) (hfits0 : Fits bytes0) (hfits1 : Fits bytes1) (harray : 0 < blinkArray)
    (hstart : StartsEmpty blinkArray s₀) (hfuel : slotCount < fuel) (n : Nat) :
    ∃ s s', Fish.addFrames blinkArray temp fuel (some bytes0) (some bytes1) s₀ = some (some s) ∧
      s.ticks fuel n = some s' ∧
      (∀ row < 25, ∀ col < 40, s'.video (frameCell row col) =
        if frameAt bytes0 row col = 0x20 ∧ frameAt bytes1 row col = 0x20 then s₀.video (frameCell row col)
        else if n % 30 < 15 then frameAt bytes0 row col else frameAt bytes1 row col) ∧
      ∀ x, (∀ row < 25, ∀ col < 40, x ≠ frameCell row col) → s'.video x = s₀.video x := by
  have hslots : slotCount = 2000 := rfl
  have hlength0 := hfits0.length_lt
  have hlength1 := hfits1.length_lt
  have hspread : Spread (frameBlinks temp bytes0 bytes1) := spread_frameBlinks hfits0 hfits1
  obtain ⟨xs, hdrawn⟩ := hstart.drawn.addAll harray _ hspread
  rw [List.nil_append] at hdrawn
  obtain ⟨s', hticks, hshowing, hshape, hdark⟩ := hdrawn.showing.wait hfuel n
  rw [Nat.zero_add] at hshowing
  have hout : ∀ x, (∀ b ∈ frameBlinks temp bytes0 bytes1, x ≠ b.place) → s'.video x = s₀.video x := by
    intro x hx
    rw [hdark x fun p hp => ?_, hdrawn.dark x hx]
    obtain ⟨b, hb, hsame⟩ := hdrawn.sound p hp
    rw [hsame.place]
    exact hx b hb
  have hplace : ∀ row < 25, ∀ col < 40, ∀ a b, (Fish.frameBlink temp row col a b).place = frameCell row col := by
    intro row hrow col hcol a b
    rw [Blink.place, toNat_location_frameBlink hrow hcol, frameCell]
  refine ⟨_, s', addFrames_adds bytes0 bytes1 (by omega) (by omega), hticks, fun row hrow col hcol => ?_,
    fun x hx => ?_⟩
  · by_cases hblank : frameAt bytes0 row col = 0x20 ∧ frameAt bytes1 row col = 0x20
    · rw [if_pos hblank]
      refine hout _ fun b hb => ?_
      obtain ⟨row', hrow', col', hcol', hshown, rfl⟩ := (mem_frameBlinks hfits0 hfits1).mp hb
      rw [hplace row' hrow' col' hcol', frameCell, frameCell]
      intro heq
      obtain ⟨rfl, rfl⟩ : row = row' ∧ col = col' := by omega
      exact hshown.elim (absurd hblank.1) (absurd hblank.2)
    · rw [if_neg hblank]
      have hmem : Fish.frameBlink temp row col (frameAt bytes0 row col) (frameAt bytes1 row col) ∈
          frameBlinks temp bytes0 bytes1 :=
        (mem_frameBlinks hfits0 hfits1).mpr ⟨row, hrow, col, hcol, by tauto, rfl⟩
      obtain ⟨p, hp, hsame⟩ := hdrawn.complete _ hmem
      have hwhole := hsame.trans (hshape p hp)
      have hshown := hshowing.shown p hp
      rw [hwhole.place, hwhole.shownAt, hplace row hrow col hcol] at hshown
      refine hshown.trans ?_
      change (if (Fish.frameBlink temp row col _ _).litAt n then _ else _) = _
      simp only [Blink.litAt, Blink.period, Fish.frameBlink, if_neg (frameAt_ne_newline bytes0 row col),
        if_neg (frameAt_ne_newline bytes1 row col), decide_eq_true_eq]
      rfl
  · refine hout x fun b hb => ?_
    obtain ⟨row, hrow, col, hcol, -, rfl⟩ := (mem_frameBlinks hfits0 hfits1).mp hb
    rw [hplace row hrow col hcol]
    exact hx row hrow col hcol

/-- A fish that opens and closes its mouth: `  ,`, `><((o>` and `  v` with the mouth `>` or `-`. -/
def fishFrame (mouth : UInt8) : List UInt8 :=
  [0x20, 0x20, 0x2C, 0x0A, 0x3E, 0x3C, 0x28, 0x28, 0x6F, mouth, 0x0A, 0x20, 0x20, 0x76, 0x0A]

theorem splitOn_fishFrame {mouth : UInt8} (hmouth : mouth ≠ 0x0A) : (fishFrame mouth).splitOn 0x0A =
    [[0x20, 0x20, 0x2C], [0x3E, 0x3C, 0x28, 0x28, 0x6F, mouth], [0x20, 0x20, 0x76], []] := by
  have hfirst : fishFrame mouth = [0x20, 0x20, 0x2C] ++ 0x0A :: ([0x3E, 0x3C, 0x28, 0x28, 0x6F, mouth] ++
    0x0A :: ([0x20, 0x20, 0x76] ++ 0x0A :: [])) := rfl
  rw [hfirst, List.splitOn_append_cons_self_of_not_mem (by decide),
    List.splitOn_append_cons_self_of_not_mem (by simpa using hmouth.symm),
    List.splitOn_append_cons_self_of_not_mem (by decide), List.splitOn_nil]

theorem fits_fishFrame {mouth : UInt8} (hmouth : mouth ≠ 0x0A) : Fits (fishFrame mouth) where
  rows := by
    rw [splitOn_fishFrame hmouth]
    exact show 4 ≤ 26 by decide
  last := by
    rw [frameLine, splitOn_fishFrame hmouth]
    rfl
  cols l hl := by
    rw [splitOn_fishFrame hmouth] at hl
    fin_cases hl <;> exact Nat.le_of_ble_eq_true rfl

/-- After twenty ticks the mouth is closed and the eye and the tail are where they were. -/
theorem frames_alternate_twenty : ∃ s s',
    Fish.addFrames sampleArray Blink.zero 2001 (some (fishFrame 0x3E)) (some (fishFrame 0x2D)) startFish =
      some (some s) ∧ s.ticks 2001 20 = some s' ∧ s'.video (frameCell 1 5) = 0x2D ∧
      s'.video (frameCell 1 4) = 0x6F ∧ s'.video (frameCell 2 2) = 0x76 ∧
      s'.video (frameCell 2 0) = startFish.video (frameCell 2 0) := by
  obtain ⟨s, s', hadd, hticks, hshown, -⟩ := frames_alternate Blink.zero (@fits_fishFrame 0x3E (by decide))
    (@fits_fishFrame 0x2D (by decide)) (show 0 < sampleArray by decide) startsEmpty_startFish
    (show slotCount < 2001 by decide) 20
  exact ⟨s, s', hadd, hticks, hshown 1 (by decide) 5 (by decide), hshown 1 (by decide) 4 (by decide),
    hshown 2 (by decide) 2 (by decide), hshown 2 (by decide) 0 (by decide)⟩

end Animation

end UnixOs
