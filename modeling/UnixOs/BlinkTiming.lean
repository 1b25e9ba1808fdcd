import UnixOs.BlinkList
import UnixOs.LabelledRun

/-! The blink list as a clock. A structure shows its two characters in turn, each for its own number of
ticks; how far it is, and what is on the screen, is a function of the ticks since it was added. The ticks
since and the effect of `mp1_ioctl_sync` are recorded beside the program's state. -/

namespace UnixOs

namespace Blink

/-- One turn of `tasklet_loop` on a structure. -/
def tick (b : Blink) : Blink :=
  if (b.countdown - 1).toInt16 > 0 then { b with countdown := b.countdown - 1 }
  else { b with
    countdown := if b.status &&& 1 ≠ 0 then b.offLength else b.onLength
    status := b.status ^^^ 1 }

/-- The character that the turn shows, when it shows one. -/
def pokes (b : Blink) : Option UInt8 :=
  if (b.countdown - 1).toInt16 > 0 then none
  else some (if b.status &&& 1 ≠ 0 then b.offChar else b.onChar)

/-- The offset of a structure's character in video memory. -/
def place (b : Blink) : Nat := b.location.toNat * 2

/-- The ticks of one on phase and one off phase. -/
def period (b : Blink) : Nat := b.onLength.toNat + b.offLength.toNat

/-- The on phase comes first. -/
def litAt (b : Blink) (n : Nat) : Bool := decide (n % b.period < b.onLength.toNat)

/-- The character on the screen `n` ticks after the structure was added. -/
def shownAt (b : Blink) (n : Nat) : UInt8 := if b.litAt n then b.onChar else b.offChar

/-- Lengths that the signed comparison of the countdown takes as they are. -/
structure Timed (b : Blink) : Prop where
  onPos : 0 < b.onLength.toNat
  onMax : b.onLength.toNat < 2 ^ 15
  offPos : 0 < b.offLength.toNat
  offMax : b.offLength.toNat < 2 ^ 15

/-- The status and the countdown are those of a structure `n` ticks after it was added. -/
structure InPhase (b : Blink) (n : Nat) : Prop where
  status : b.status = if b.litAt n then 1 else 0
  countdown : b.countdown.toNat = if b.litAt n then b.onLength.toNat - n % b.period else b.period - n % b.period

end Blink

section OneStructure

variable {b : Blink} {n : Nat}

theorem toInt16_pred_pos {c : UInt16} (hpos : 0 < c.toNat) (hmax : c.toNat < 2 ^ 15) :
    (c - 1).toInt16 > 0 ↔ 1 < c.toNat := by
  have hpred : (c - 1).toNat = c.toNat - 1 := by
    rw [UInt16.toNat_sub_of_le _ _ (by rw [UInt16.le_iff_toNat_le]; exact hpos)]
    rfl
  have hint : (c - 1).toInt16.toInt = ((c.toNat - 1 : Nat) : Int) := by
    rw [← hpred]
    change (c - 1).toBitVec.toInt = _
    rw [BitVec.toInt_eq_toNat_of_lt (by rw [UInt16.toNat_toBitVec, hpred]; omega)]
    rfl
  rw [gt_iff_lt, Int16.lt_iff_toInt_lt, hint]
  change (0 : Int) < _ ↔ _
  omega

theorem toNat_pred {c : UInt16} (hpos : 0 < c.toNat) : (c - 1).toNat = c.toNat - 1 := by
  rw [UInt16.toNat_sub_of_le _ _ (by rw [UInt16.le_iff_toNat_le]; exact hpos)]
  rfl

/-- A turn leaves the location, the characters, the lengths and the link alone. -/
structure SameShape (b b' : Blink) : Prop where
  location : b'.location = b.location
  onChar : b'.onChar = b.onChar
  offChar : b'.offChar = b.offChar
  onLength : b'.onLength = b.onLength
  offLength : b'.offLength = b.offLength

theorem sameShape_tick (b : Blink) : SameShape b b.tick := by
  unfold Blink.tick
  split_ifs <;> exact ⟨rfl, rfl, rfl, rfl, rfl⟩

theorem next_tick (b : Blink) : b.tick.next = b.next := by
  unfold Blink.tick
  split_ifs <;> rfl

theorem SameShape.timed {b' : Blink} (h : SameShape b b') (htimed : b.Timed) : b'.Timed := by
  refine ⟨?_, ?_, ?_, ?_⟩
  · rw [h.onLength]; exact htimed.onPos
  · rw [h.onLength]; exact htimed.onMax
  · rw [h.offLength]; exact htimed.offPos
  · rw [h.offLength]; exact htimed.offMax

theorem SameShape.period {b' : Blink} (h : SameShape b b') : b'.period = b.period := by
  rw [Blink.period, Blink.period, h.onLength, h.offLength]

theorem SameShape.litAt {b' : Blink} (h : SameShape b b') (n : Nat) : b'.litAt n = b.litAt n := by
  rw [Blink.litAt, Blink.litAt, h.period, h.onLength]

theorem SameShape.shownAt {b' : Blink} (h : SameShape b b') (n : Nat) : b'.shownAt n = b.shownAt n := by
  rw [Blink.shownAt, Blink.shownAt, h.litAt, h.onChar, h.offChar]

theorem SameShape.place {b' : Blink} (h : SameShape b b') : b'.place = b.place := by
  rw [Blink.place, Blink.place, h.location]

/-- The place in the period moves on by one, or back to its start. -/
theorem succ_mod_cases (n : Nat) {p : Nat} (hp : 0 < p) :
    (n % p + 1 < p ∧ (n + 1) % p = n % p + 1) ∨ (n % p + 1 = p ∧ (n + 1) % p = 0) := by
  have hlt := Nat.mod_lt n hp
  have hmod : (n + 1) % p = (n % p + 1) % p := (Nat.mod_add_mod n p 1).symm
  rcases Nat.lt_or_ge (n % p + 1) p with hless | hge
  · exact .inl ⟨hless, by rw [hmod, Nat.mod_eq_of_lt hless]⟩
  · have heq : n % p + 1 = p := by omega
    exact .inr ⟨heq, by rw [hmod, heq, Nat.mod_self]⟩

/-- The countdown of a structure in phase is the number of ticks to the next change. -/
theorem Blink.InPhase.left (h : b.InPhase n) (htimed : b.Timed) :
    0 < b.countdown.toNat ∧ b.countdown.toNat < 2 ^ 15 ∧
      (1 < b.countdown.toNat ↔ b.litAt (n + 1) = b.litAt n ∧ (n + 1) % b.period = n % b.period + 1) := by
  obtain ⟨honPos, honMax, hoffPos, hoffMax⟩ := htimed
  have hperiod : b.period = b.onLength.toNat + b.offLength.toNat := rfl
  have hcount := h.countdown
  have hlt := Nat.mod_lt n (show 0 < b.period by omega)
  rcases succ_mod_cases n (p := b.period) (by omega) with ⟨hless, hnext⟩ | ⟨hwrap, hnext⟩
  · by_cases hlit : n % b.period < b.onLength.toNat
    · rw [if_pos (by simpa [Blink.litAt] using hlit)] at hcount
      simp only [Blink.litAt, hnext, decide_eq_decide, and_true]
      omega
    · rw [if_neg (by simpa [Blink.litAt] using hlit)] at hcount
      simp only [Blink.litAt, hnext, decide_eq_decide, and_true]
      omega
  · have hlit : ¬ n % b.period < b.onLength.toNat := by omega
    rw [if_neg (by simpa [Blink.litAt] using hlit)] at hcount
    simp only [Blink.litAt, hnext, decide_eq_decide]
    omega

/-- At the end of a phase the other one starts. -/
theorem Blink.InPhase.flips (h : b.InPhase n) (htimed : b.Timed) (hlast : ¬ 1 < b.countdown.toNat) :
    b.litAt (n + 1) = !b.litAt n ∧
      (n + 1) % b.period = if b.litAt n then b.onLength.toNat else 0 := by
  obtain ⟨honPos, honMax, hoffPos, hoffMax⟩ := htimed
  have hperiod : b.period = b.onLength.toNat + b.offLength.toNat := rfl
  have hcount := h.countdown
  have hlt := Nat.mod_lt n (show 0 < b.period by omega)
  by_cases hlit : n % b.period < b.onLength.toNat
  · have hlitAt : b.litAt n = true := by simpa [Blink.litAt] using hlit
    rw [hlitAt, if_pos rfl] at hcount
    have hnext : (n + 1) % b.period = b.onLength.toNat := by
      rcases succ_mod_cases n (p := b.period) (by omega) with ⟨_, hnext⟩ | ⟨_, _⟩ <;> omega
    rw [hlitAt, hnext, if_pos rfl]
    exact ⟨by simp [Blink.litAt, hnext], rfl⟩
  · have hlitAt : b.litAt n = false := by simpa [Blink.litAt] using hlit
    rw [hlitAt] at hcount ⊢
    rw [if_neg Bool.false_ne_true] at hcount
    have hnext : (n + 1) % b.period = 0 := by
      rcases succ_mod_cases n (p := b.period) (by omega) with ⟨_, _⟩ | ⟨_, hnext⟩ <;> omega
    rw [hnext, if_neg Bool.false_ne_true]
    exact ⟨by simpa [Blink.litAt, hnext] using honPos, rfl⟩

/-- A turn is one tick further, and it shows the new phase's character when the phase changes. -/
theorem Blink.InPhase.tick (h : b.InPhase n) (htimed : b.Timed) :
    b.tick.InPhase (n + 1) ∧ b.shownAt (n + 1) = b.pokes.getD (b.shownAt n) ∧
      (b.pokes = none ↔ b.litAt (n + 1) = b.litAt n) := by
  have hshape := sameShape_tick b
  obtain ⟨hpos, hmax, hmore⟩ := h.left htimed
  have hcond := toInt16_pred_pos hpos hmax
  have hcount := h.countdown
  have hstatus := h.status
  by_cases hgoes : 1 < b.countdown.toNat
  · obtain ⟨hlit, hmod⟩ := hmore.mp hgoes
    have htick : b.tick = { b with countdown := b.countdown - 1 } := if_pos (hcond.mpr hgoes)
    have hpokes : b.pokes = none := if_pos (hcond.mpr hgoes)
    refine ⟨⟨?_, ?_⟩, ?_, fun _ => hlit, fun _ => hpokes⟩
    · rw [hshape.litAt, hlit, htick, ← hstatus]
    · rw [hshape.litAt, hshape.period, hshape.onLength, hlit, hmod, htick]
      simp only [toNat_pred hpos]
      split_ifs at hcount ⊢ <;> omega
    · rw [hpokes, Option.getD_none, Blink.shownAt, Blink.shownAt, hlit]
  · obtain ⟨hlit, hmod⟩ := h.flips htimed hgoes
    have htick : b.tick = _ := if_neg (mt hcond.mp hgoes)
    have hpokes : b.pokes = some _ := if_neg (mt hcond.mp hgoes)
    have hperiod : b.period = b.onLength.toNat + b.offLength.toNat := rfl
    refine ⟨⟨?_, ?_⟩, ?_, fun hnone => absurd (hpokes.symm.trans hnone) (by simp), fun hsame => ?_⟩
    · rw [hshape.litAt, hlit, htick, hstatus]
      cases b.litAt n <;> rfl
    · rw [hshape.litAt, hshape.period, hshape.onLength, hlit, hmod, htick, hstatus]
      cases hl : b.litAt n with
      | false => rfl
      | true =>
          simp only [Bool.not_true, if_true]
          change b.offLength.toNat = _
          rw [if_neg Bool.false_ne_true]
          omega
    · rw [hpokes, Option.getD_some, Blink.shownAt, hlit, hstatus]
      cases b.litAt n <;> rfl
    · rw [hlit] at hsame
      exact absurd hsame (by cases b.litAt n <;> decide)

/-- `n` turns of a structure: before its countdown ends, only that has changed, and whether `sync` has shown its off
character since its phase changed last; behind its end the phase has changed. -/
structure Dwells (n : Nat) (b b' : Blink) (off off' : Bool) : Prop where
  before : n < b.countdown.toNat → b'.countdown.toNat + n = b.countdown.toNat ∧ off' = off
  behind : ¬ n < b.countdown.toNat → off' = false

theorem Dwells.trans {m n : Nat} {b b' b'' : Blink} {off off' off'' : Bool} (h : Dwells m b b' off off')
    (h' : Dwells n b' b'' off' off'') : Dwells (m + n) b b'' off off'' := by
  refine ⟨fun hlt => ?_, fun hge => ?_⟩
  · obtain ⟨hcount, hoff⟩ := h.before (by omega)
    obtain ⟨hcount', hoff'⟩ := h'.before (by omega)
    exact ⟨by omega, hoff'.trans hoff⟩
  · by_cases hfirst : m < b.countdown.toNat
    · have hcount := (h.before hfirst).1
      exact h'.behind (by omega)
    · have hoff := h.behind hfirst
      by_cases hsecond : n < b'.countdown.toNat
      · exact (h'.before hsecond).2.trans hoff
      · exact h'.behind hsecond

theorem Dwells.shown {m : Nat} {b b' : Blink} {off off' : Bool} (h : Dwells m b b' off off') (hoff : off = false) :
    off' = false := by
  by_cases hlt : m < b.countdown.toNat
  · exact (h.before hlt).2.trans hoff
  · exact h.behind hlt

/-- Without a turn. -/
theorem Dwells.still {b b' : Blink} {off off' : Bool} (hpos : 0 < b.countdown.toNat) (hcount : b'.countdown = b.countdown)
    (hoff : off' = off) : Dwells 0 b b' off off' :=
  ⟨fun _ => ⟨by rw [hcount, Nat.add_zero], hoff⟩, fun hge => absurd hpos hge⟩

theorem Blink.InPhase.dwells (h : b.InPhase n) (htimed : b.Timed) (off : Bool) :
    Dwells 1 b b.tick off (off && (b.litAt (n + 1) == b.litAt n)) := by
  obtain ⟨hpos, hmax, hmore⟩ := h.left htimed
  have hcond := toInt16_pred_pos hpos hmax
  refine ⟨fun hgoes => ?_, fun hlast => ?_⟩
  · have htick : b.tick = { b with countdown := b.countdown - 1 } := if_pos (hcond.mpr hgoes)
    rw [htick, (hmore.mp hgoes).1, beq_self_eq_true, Bool.and_true]
    exact ⟨by rw [toNat_pred hpos, Nat.sub_add_cancel hpos], rfl⟩
  · rw [(h.flips htimed hlast).1]
    cases b.litAt n <;> exact Bool.and_false off

/-- A structure that was just added is at the start of its on phase. -/
theorem Blink.InPhase.start {b : Blink} (htimed : b.Timed) (hstatus : b.status = 1)
    (hcountdown : b.countdown = b.onLength) : b.InPhase 0 := by
  have hlit : b.litAt 0 = true := decide_eq_true (by rw [Nat.zero_mod]; exact htimed.onPos)
  refine ⟨?_, ?_⟩
  · rw [hlit, hstatus, if_pos rfl]
  · rw [hlit, hcountdown, if_pos rfl, Nat.zero_mod, Nat.sub_zero]

end OneStructure

/-! ### One tick of the list -/

section List

variable {blinkArray fuel : Nat} {s s' : Fish} {xs : List Nat} {user : Blink}

/-- One structure's turn: its fields, and its character when the phase changes. -/
theorem blink_eq (s : Fish) (p : Nat) : s.blink p =
    { s with
      cell := Function.update s.cell p (s.cell p).tick
      video := (s.cell p).pokes.elim s.video (Function.update s.video (s.cell p).place) } := by
  rw [Fish.blink]
  simp only [Fish.cell_setCell]
  by_cases hmore : ((s.cell p).countdown - 1).toInt16 > 0
  · have htick : (s.cell p).tick = _ := if_pos hmore
    have hpokes : (s.cell p).pokes = none := if_pos hmore
    rw [if_pos hmore, htick, hpokes]
    rfl
  · have htick : (s.cell p).tick = _ := if_neg hmore
    have hpokes : (s.cell p).pokes = some _ := if_neg hmore
    rw [if_neg hmore, htick, hpokes]
    by_cases hlit : (s.cell p).status &&& 1 ≠ 0
    · simp [Fish.poke, Fish.setCell, hlit, Blink.place]
    · simp [Fish.poke, Fish.setCell, hlit, Blink.place]

/-- No two structures of a list are at one location. -/
def Apart (s : Fish) (xs : List Nat) : Prop := xs.Pairwise fun p q => (s.cell p).place ≠ (s.cell q).place

/-- Every structure of the list had one turn. -/
structure Ticked (xs : List Nat) (s s' : Fish) : Prop where
  head : s'.head = s.head
  cells : ∀ p ∈ xs, s'.cell p = (s.cell p).tick
  others : ∀ p ∉ xs, s'.cell p = s.cell p
  shown : ∀ p ∈ xs, s'.video (s.cell p).place = (s.cell p).pokes.getD (s.video (s.cell p).place)
  dark : ∀ x, (∀ p ∈ xs, x ≠ (s.cell p).place) → s'.video x = s.video x

theorem video_blink_of_ne {p x : Nat} (hx : x ≠ (s.cell p).place) : (s.blink p).video x = s.video x := by
  rw [blink_eq]
  cases (s.cell p).pokes with
  | none => rfl
  | some c => exact Function.update_of_ne hx _ _

theorem video_blink_here (s : Fish) (p : Nat) :
    (s.blink p).video (s.cell p).place = (s.cell p).pokes.getD (s.video (s.cell p).place) := by
  rw [blink_eq]
  cases (s.cell p).pokes with
  | none => rfl
  | some c => exact Function.update_self _ _ _

theorem cell_blink_of_ne {p q : Nat} (hq : q ≠ p) : (s.blink p).cell q = s.cell q := by
  rw [blink_eq]
  exact Function.update_of_ne hq _ _

theorem cell_blink_here (s : Fish) (p : Nat) : (s.blink p).cell p = (s.cell p).tick := by
  rw [blink_eq]
  exact Function.update_self _ _ _

/-- The loop gives every structure of a list its turn. -/
theorem taskletLoop_ticked {ebx : Nat} (h : Chain (fun p => (s.cell p).next) 0 ebx xs) (hapart : Apart s xs)
    (hfuel : xs.length < fuel) : ∃ s', Fish.taskletLoop fuel s ebx = some s' ∧ Ticked xs s s' := by
  induction xs generalizing s ebx fuel with
  | nil =>
      obtain ⟨k, rfl⟩ : ∃ k, fuel = k + 1 := ⟨fuel - 1, by omega⟩
      refine ⟨s, if_pos h, rfl, ?_, fun _ _ => rfl, ?_, fun _ _ => rfl⟩
      · exact fun p hp => absurd hp List.not_mem_nil
      · exact fun p hp => absurd hp List.not_mem_nil
  | cons x xs ih =>
      obtain ⟨k, rfl⟩ : ∃ k, fuel = k + 1 := ⟨fuel - 1, by omega⟩
      have hnodup := List.nodup_cons.mp h.nodup
      obtain ⟨rfl, hne, hrest⟩ := h
      obtain ⟨hfirst, hpairs⟩ := List.pairwise_cons.mp hapart
      have hcell : ∀ q ∈ xs, (s.blink ebx).cell q = s.cell q := fun q hq =>
        cell_blink_of_ne fun heq => hnodup.1 (heq ▸ hq)
      have hchain : Chain (fun p => ((s.blink ebx).cell p).next) 0 ((s.blink ebx).cell ebx).next xs := by
        rw [cell_blink_here, next_tick]
        exact hrest.congr fun q hq => by rw [hcell q hq]
      have hapart' : Apart (s.blink ebx) xs := by
        refine hpairs.imp_of_mem fun hp hq hpq => ?_
        rw [hcell _ hp, hcell _ hq]
        exact hpq
      obtain ⟨s', hloop, hticked⟩ := ih hchain hapart' (Nat.lt_of_succ_lt_succ hfuel)
      refine ⟨s', (if_neg hne).trans hloop, ?_, ?_, ?_, ?_, ?_⟩
      · rw [hticked.head, blink_eq]
      · rintro q (_ | ⟨_, hq⟩)
        · rw [hticked.others _ hnodup.1, cell_blink_here]
        · rw [hticked.cells q hq, hcell q hq]
      · intro q hq
        rw [List.mem_cons, not_or] at hq
        rw [hticked.others q hq.2, cell_blink_of_ne hq.1]
      · rintro q (_ | ⟨_, hq⟩)
        · rw [hticked.dark _ fun r hr => by rw [hcell r hr]; exact hfirst r hr, video_blink_here]
        · have hshown := hticked.shown q hq
          rw [hcell q hq, video_blink_of_ne (hfirst q hq).symm] at hshown
          exact hshown
      · intro y hy
        rw [hticked.dark y fun r hr => by rw [hcell r hr]; exact hy r (List.mem_cons_of_mem _ hr),
          video_blink_of_ne (hy ebx List.mem_cons_self)]

/-- A search that fails has looked at every structure. -/
theorem findLoop_fails {ax : UInt16} {ebx : Nat} (h : Chain (fun p => (s.cell p).next) 0 ebx xs)
    (hnone : s.findLoop ax fuel ebx = some 0) : ∀ p ∈ xs, (s.cell p).location ≠ ax := by
  induction xs generalizing ebx fuel with
  | nil => exact fun p hp => absurd hp List.not_mem_nil
  | cons x xs ih =>
      obtain ⟨rfl, hne, hrest⟩ := h
      cases fuel with
      | zero => cases hnone
      | succ fuel =>
          rw [Fish.findLoop, if_neg hne] at hnone
          by_cases hhere : (s.cell ebx).location = ax
          · rw [if_pos hhere] at hnone
            exact absurd (Option.some.inj hnone) hne
          · rw [if_neg hhere] at hnone
            rintro p (_ | ⟨_, hp⟩)
            · exact hhere
            · exact ih hrest hnone p hp

theorem location_of_findLoop {ax : UInt16} {ebx p : Nat} (hfind : s.findLoop ax fuel ebx = some p) (hp : p ≠ 0) :
    (s.cell p).location = ax := by
  induction fuel generalizing ebx with
  | zero => cases hfind
  | succ fuel ih =>
      rw [Fish.findLoop] at hfind
      split_ifs at hfind with hnull hhere
      · exact absurd (Option.some.inj hfind).symm hp
      · rw [← Option.some.inj hfind]
        exact hhere
      · exact ih hfind

theorem cell_store (s : Fish) (v : Nat) (link : Fish.Link) (q : Nat) :
    (s.store v link).cell q = { s.cell q with next := ((s.store v link).cell q).next } := by
  cases link with
  | head => rfl
  | next p =>
      rw [Fish.store]
      by_cases hq : q = p
      · rw [hq, Fish.cell_setCell]
      · rw [Fish.cell_setCell_of_ne _ _ hq]

theorem video_store (s : Fish) (v : Nat) (link : Fish.Link) : (s.store v link).video = s.video := by
  cases link <;> rfl

/-- Only structures at the location leave the list; the others are as before but for their links, and so is the
screen. -/
structure Removed (ax : UInt16) (xs ys : List Nat) (s s' : Fish) : Prop where
  sublist : ys.Sublist xs
  stays : ∀ p ∈ xs, (s.cell p).location ≠ ax → p ∈ ys
  cells : ∀ p ∈ ys, s'.cell p = { s.cell p with next := (s'.cell p).next }
  video : s'.video = s.video

theorem LinkedList.remove_keeps (h : LinkedList blinkArray s xs) (hfuel : slotCount < fuel) (arg : UInt32) :
    ∃ s' ret ys, s.remove fuel arg = some (s', ret) ∧ LinkedList blinkArray s' ys ∧
      Removed arg.toUInt16 xs ys s s' := by
  obtain ⟨p, hfind, hp⟩ := h.findHelper hfuel arg.toUInt16
  by_cases hnull : p = 0
  · refine ⟨s, -1, xs, ?_, h, List.Sublist.refl xs, fun _ hp _ => hp, fun _ _ => rfl, rfl⟩
    rw [Fish.remove, hfind]
    exact if_pos hnull
  · obtain ⟨before, after, rfl⟩ := List.append_of_mem (hp.resolve_left hnull)
    have hapart := List.nodup_append.mp h.chain.nodup
    have hnot : p ∉ before := fun hmem => hapart.2.2 p hmem p List.mem_cons_self rfl
    have hlength := h.length_le
    rw [List.length_append] at hlength
    have hprev : s.findPrev p fuel .head = some (linkTo .head before) := findPrev_eq h.chain hnot (by omega)
    refine ⟨_, 0, before ++ after, ?_, h.unlink, ?_, fun q hq hloc => ?_, fun q hq => ?_, video_store _ _ _⟩
    · rw [Fish.remove, hfind]
      change (if p = 0 then _ else _) = _
      rw [if_neg hnull, hprev]
      rfl
    · exact (List.Sublist.refl before).append (List.sublist_cons_self p after)
    · rcases List.mem_append.mp hq with hbefore | hafter
      · exact List.mem_append_left _ hbefore
      · rcases List.mem_cons.mp hafter with rfl | hafter
        · exact absurd (location_of_findLoop hfind hnull) hloc
        · exact List.mem_append_right _ hafter
    · have hqp : q ≠ p := by
        rintro rfl
        rcases List.mem_append.mp hq with hbefore | hafter
        · exact hnot hbefore
        · exact (List.nodup_cons.mp hapart.2.1).1 hafter
      rw [Fish.free, Fish.cell_setCell_of_ne _ _ hqp]
      exact cell_store _ _ _ _

/-- What a successful `add` stored and showed. -/
theorem add_shows (hok : (s.add blinkArray user).2 = 0) :
    (s.add blinkArray user).1.cell (s.malloc blinkArray) =
      { user with status := 1, countdown := user.onLength, next := s.head } ∧
    (s.add blinkArray user).1.video = Function.update s.video user.place user.onChar := by
  rw [Fish.add] at hok ⊢
  by_cases hlarge : user.location ≥ 80 * 25
  · rw [if_pos hlarge] at hok
    exact absurd (show (-1 : Int) = 0 from hok) (by decide)
  · rw [if_neg hlarge] at hok ⊢
    dsimp only at hok ⊢
    generalize s.malloc blinkArray = p at hok ⊢
    by_cases hnull : p = 0
    · rw [if_pos hnull] at hok
      exact absurd (show (-1 : Int) = 0 from hok) (by decide)
    · rw [if_neg hnull]
      refine ⟨?_, ?_⟩
      · simp [Fish.poke, Fish.setCell]
      · simp [Fish.poke, Fish.setCell, Blink.place]

/-- A structure that takes over another one's lengths and phase. -/
def Blink.follow (b first : Blink) : Blink :=
  { b with
    onLength := first.onLength
    offLength := first.offLength
    countdown := first.countdown
    status := first.status }

theorem sync_eq {arg : UInt32} {p q : Nat} (hfirst : s.findHelper fuel (arg >>> 16).toUInt16 = some p)
    (hsecond : s.findHelper fuel (arg &&& 0xFFFF).toUInt16 = some q) :
    s.sync fuel arg = some (if p = 0 ∨ q = 0 then (s, -1)
      else ((s.setCell q ((s.cell q).follow (s.cell p))).poke (s.cell q).place (s.cell q).offChar, 0)) := by
  rw [Fish.sync, hfirst, hsecond]
  by_cases hp : p = 0
  · rw [if_pos (.inl hp)]
    exact if_pos hp
  · by_cases hq : q = 0
    · rw [if_pos (.inr hq)]
      exact (if_neg hp).trans (if_pos hq)
    · rw [if_neg (not_or.mpr ⟨hp, hq⟩)]
      refine (if_neg hp).trans ((if_neg hq).trans ?_)
      simp [Blink.follow, Blink.place]

/-- `sync` finds no structure for one of its locations, or it makes the second follow the first. -/
theorem LinkedList.sync_cases {arg : UInt32} {p q : Nat} {ret : Int} (h : LinkedList blinkArray s xs)
    (hfuel : slotCount < fuel) (hfirst : s.findHelper fuel (arg >>> 16).toUInt16 = some p)
    (hsecond : s.findHelper fuel (arg &&& 0xFFFF).toUInt16 = some q) (hsync : s.sync fuel arg = some (s', ret)) :
    (ret = -1 ∧ s' = s) ∨ (ret = 0 ∧ (p ∈ xs ∧ q ∈ xs) ∧ (p ≠ 0 ∧ q ≠ 0) ∧
      s' = (s.setCell q ((s.cell q).follow (s.cell p))).poke (s.cell q).place (s.cell q).offChar) := by
  obtain ⟨p', hfirst', hp⟩ := h.findHelper hfuel (arg >>> 16).toUInt16
  obtain ⟨q', hsecond', hq⟩ := h.findHelper hfuel (arg &&& 0xFFFF).toUInt16
  obtain rfl := Option.some.inj (hfirst.symm.trans hfirst')
  obtain rfl := Option.some.inj (hsecond.symm.trans hsecond')
  rw [sync_eq hfirst hsecond] at hsync
  by_cases hnull : p = 0 ∨ q = 0
  · rw [if_pos hnull] at hsync
    obtain ⟨rfl, rfl⟩ := Prod.mk.inj (Option.some.inj hsync)
    exact .inl ⟨rfl, rfl⟩
  · rw [if_neg hnull] at hsync
    obtain ⟨rfl, rfl⟩ := Prod.mk.inj (Option.some.inj hsync)
    rw [not_or] at hnull
    exact .inr ⟨rfl, ⟨hp.resolve_left hnull.1, hq.resolve_left hnull.2⟩, hnull, rfl⟩

end List

/-! ### Runs -/

/-- Beside the program: the ticks since each slot's structure was added or synchronised with an older one,
and the structures that `sync` has shown off whose phase has not changed since. -/
structure BlinkClock where
  age : Nat → Nat
  shownOff : Nat → Bool

def BlinkClock.add (g : BlinkClock) (p : Nat) : BlinkClock where
  age := Function.update g.age p 0
  shownOff := Function.update g.shownOff p false

/-- The clock after a call of `add`, which may fail. -/
def BlinkClock.added (blinkArray : Nat) (g : BlinkClock) (s : Fish) (user : Blink) : BlinkClock :=
  if (s.add blinkArray user).2 = 0 then g.add (s.malloc blinkArray) else g

def BlinkClock.sync (g : BlinkClock) (p q : Nat) : BlinkClock where
  age := Function.update g.age q (g.age p)
  shownOff := Function.update g.shownOff q true

theorem BlinkClock.add_self (g : BlinkClock) (p : Nat) : (g.add p).age p = 0 ∧ (g.add p).shownOff p = false :=
  ⟨Function.update_self .., Function.update_self ..⟩

theorem BlinkClock.add_of_ne (g : BlinkClock) {p r : Nat} (h : r ≠ p) :
    (g.add p).age r = g.age r ∧ (g.add p).shownOff r = g.shownOff r :=
  ⟨Function.update_of_ne h .., Function.update_of_ne h ..⟩

theorem BlinkClock.sync_self (g : BlinkClock) (p q : Nat) :
    (g.sync p q).age q = g.age p ∧ (g.sync p q).shownOff q = true :=
  ⟨Function.update_self .., Function.update_self ..⟩

theorem BlinkClock.sync_of_ne (g : BlinkClock) (p : Nat) {q r : Nat} (h : r ≠ q) :
    (g.sync p q).age r = g.age r ∧ (g.sync p q).shownOff r = g.shownOff r :=
  ⟨Function.update_of_ne h .., Function.update_of_ne h ..⟩

def BlinkClock.tick (g : BlinkClock) (s : Fish) : BlinkClock where
  age := fun p => g.age p + 1
  shownOff := fun p => g.shownOff p && ((s.cell p).litAt (g.age p + 1) == (s.cell p).litAt (g.age p))

/-- Calls of `mp1_ioctl` and ticks. A structure that is added has a location other than the corner, where no
structure of the list is, and lengths that the countdown can hold. -/
inductive BlinkStep (blinkArray fuel : Nat) : Fish × BlinkClock → BlinkCall → Fish × BlinkClock → Prop
  | add (s : Fish) (g : BlinkClock) {user : Blink} (hlocated : user.location ≠ 0) (htimed : user.Timed)
      (hfresh : s.findHelper fuel user.location = some 0) :
      BlinkStep blinkArray fuel (s, g) (.add user)
        ((s.add blinkArray user).1, g.added blinkArray s user)
  | remove {s s' : Fish} (g : BlinkClock) {arg : UInt32} {ret : Int} (hcall : s.remove fuel arg = some (s', ret)) :
      BlinkStep blinkArray fuel (s, g) (.remove arg) (s', g)
  | find (s : Fish) (g : BlinkClock) (location : UInt16) :
      BlinkStep blinkArray fuel (s, g) (.find location) (s, g)
  | sync {s s' : Fish} (g : BlinkClock) {arg : UInt32} {p q : Nat} {ret : Int}
      (hfirst : s.findHelper fuel (arg >>> 16).toUInt16 = some p)
      (hsecond : s.findHelper fuel (arg &&& 0xFFFF).toUInt16 = some q)
      (hcall : s.sync fuel arg = some (s', ret)) :
      BlinkStep blinkArray fuel (s, g) (.sync arg) (s', if ret = 0 then g.sync p q else g)
  | tasklet {s s' : Fish} (g : BlinkClock) (hcall : s.tasklet fuel = some s') :
      BlinkStep blinkArray fuel (s, g) .tasklet (s', g.tick s)

/-- Every structure of the list is in its phase, and the screen shows its character. -/
structure Showing (blinkArray : Nat) (s : Fish) (g : BlinkClock) (xs : List Nat) : Prop where
  list : LinkedList blinkArray s xs
  apart : Apart s xs
  timed : ∀ p ∈ xs, (s.cell p).Timed
  phase : ∀ p ∈ xs, (s.cell p).InPhase (g.age p)
  shown : ∀ p ∈ xs, s.video (s.cell p).place =
    if g.shownOff p then (s.cell p).offChar else (s.cell p).shownAt (g.age p)

/-- The call neither removes a structure at the location nor synchronises it with another one. -/
def BlinkCall.Leaves (location : UInt16) : BlinkCall → Prop
  | .remove arg => arg.toUInt16 ≠ location
  | .sync arg => (arg &&& 0xFFFF).toUInt16 ≠ location
  | _ => True

def BlinkCall.ticks : BlinkCall → Nat
  | .tasklet => 1
  | _ => 0

/-- What a call leaves alone: the screen but for the places of the structures, and the structures at other
locations. -/
structure Kept (call : BlinkCall) (s : Fish) (g : BlinkClock) (xs : List Nat) (s' : Fish) (g' : BlinkClock)
    (ys : List Nat) : Prop where
  dark : ∀ x, (∀ r ∈ xs, x ≠ (s.cell r).place) → (∀ user, call = .add user → x ≠ user.place) → s'.video x = s.video x
  stays : ∀ r ∈ xs, call.Leaves (s.cell r).location → r ∈ ys
  shape : ∀ r ∈ xs, call.Leaves (s.cell r).location → SameShape (s.cell r) (s'.cell r)
  age : ∀ r ∈ xs, call.Leaves (s.cell r).location → g'.age r = g.age r + call.ticks
  dwells : ∀ r ∈ xs, call.Leaves (s.cell r).location →
    Dwells call.ticks (s.cell r) (s'.cell r) (g.shownOff r) (g'.shownOff r)

section Runs

variable {blinkArray fuel : Nat} {s s' : Fish} {g g' : BlinkClock} {xs : List Nat}

theorem SameShape.refl (b : Blink) : SameShape b b := ⟨rfl, rfl, rfl, rfl, rfl⟩

theorem SameShape.trans {a b c : Blink} (h : SameShape a b) (h' : SameShape b c) : SameShape a c :=
  ⟨h'.location.trans h.location, h'.onChar.trans h.onChar, h'.offChar.trans h.offChar, h'.onLength.trans h.onLength,
    h'.offLength.trans h.offLength⟩

theorem Showing.countdown_pos (h : Showing blinkArray s g xs) {p : Nat} (hp : p ∈ xs) :
    0 < (s.cell p).countdown.toNat := ((h.phase p hp).left (h.timed p hp)).1

theorem Kept.refl (h : Showing blinkArray s g xs) {call : BlinkCall} (hticks : call.ticks = 0) :
    Kept call s g xs s g xs where
  dark _ _ _ := rfl
  stays _ hr _ := hr
  shape _ _ _ := .refl _
  age _ _ _ := by rw [hticks, Nat.add_zero]
  dwells r hr _ := by
    rw [hticks]
    exact .still (h.countdown_pos hr) rfl rfl

/-- The characters are at even offsets. -/
theorem Kept.attributes {call : BlinkCall} {ys : List Nat} (h : Kept call s g xs s' g' ys) {x : Nat} (hx : x % 2 = 1) :
    s'.video x = s.video x := by
  refine h.dark x (fun r _ heq => ?_) fun user _ heq => ?_
  · rw [heq, Blink.place] at hx
    omega
  · rw [heq, Blink.place] at hx
    omega

theorem Showing.place_ne (h : Showing blinkArray s g xs) {p q : Nat} (hp : p ∈ xs) (hq : q ∈ xs) (hne : p ≠ q) :
    (s.cell p).place ≠ (s.cell q).place := by
  have hsymm : Std.Symm fun p q => (s.cell p).place ≠ (s.cell q).place := ⟨fun _ _ hne => hne.symm⟩
  exact List.Pairwise.forall h.apart hp hq hne

theorem Showing.tasklet (h : Showing blinkArray s g xs) (hfuel : slotCount < fuel) :
    ∃ s', s.tasklet fuel = some s' ∧ Showing blinkArray s' (g.tick s) xs ∧
      Kept .tasklet s g xs s' (g.tick s) xs := by
  obtain ⟨s', hloop, hticked⟩ := taskletLoop_ticked h.list.chain h.apart (h.list.length_le.trans_lt hfuel)
  have hshape : ∀ p ∈ xs, SameShape (s.cell p) (s'.cell p) := fun p hp => by
    rw [hticked.cells p hp]
    exact sameShape_tick _
  refine ⟨s', hloop, ⟨⟨?_, h.list.slots, fun p hp => ?_⟩, ?_, fun p hp => ?_, fun p hp => ?_, fun p hp => ?_⟩,
    fun x hx _ => hticked.dark x hx, fun r hr _ => hr, fun r hr _ => hshape r hr, fun _ _ _ => rfl,
    fun r hr _ => ?_⟩
  · rw [hticked.head]
    refine h.list.chain.congr fun p hp => ?_
    rw [hticked.cells p hp, next_tick]
  · rw [(hshape p hp).location]
    exact h.list.located p hp
  · refine h.apart.imp_of_mem fun hp hq hpq => ?_
    rw [(hshape _ hp).place, (hshape _ hq).place]
    exact hpq
  · exact (hshape p hp).timed (h.timed p hp)
  · rw [hticked.cells p hp]
    exact ((h.phase p hp).tick (h.timed p hp)).1
  · obtain ⟨-, hnext, hnone⟩ := (h.phase p hp).tick (h.timed p hp)
    rw [(hshape p hp).place, (hshape p hp).offChar, (hshape p hp).shownAt, hticked.shown p hp, h.shown p hp]
    simp only [BlinkClock.tick, hnext]
    cases hpokes : (s.cell p).pokes with
    | none => simp [hnone.mp hpokes]
    | some c =>
        have hchanged : ¬ (s.cell p).litAt (g.age p + 1) = (s.cell p).litAt (g.age p) := fun hsame =>
          absurd (hpokes.symm.trans (hnone.mpr hsame)) (by simp)
        simp [hchanged]
  · rw [hticked.cells r hr]
    exact (h.phase r hr).dwells (h.timed r hr) _

theorem Showing.add_ok (h : Showing blinkArray s g xs) {user : Blink} (hlocated : user.location ≠ 0)
    (htimed : user.Timed) (hfresh : s.findHelper fuel user.location = some 0) (hret : (s.add blinkArray user).2 = 0) :
    Showing blinkArray (s.add blinkArray user).1 (g.add (s.malloc blinkArray)) (s.malloc blinkArray :: xs) ∧
      Kept (.add user) s g xs (s.add blinkArray user).1 (g.add (s.malloc blinkArray)) (s.malloc blinkArray :: xs) := by
  rcases add_cases blinkArray s user with ⟨-, hfail⟩ | ⟨hnull, -, hadded⟩
  · rw [hfail] at hret
    exact absurd (show (-1 : Int) = 0 from hret) (by decide)
  obtain ⟨hcell, hvideo⟩ := add_shows hret
  obtain ⟨i, hi, haddr, hzero, -⟩ := (malloc_cases s).resolve_left hnull
  have hnew : s.malloc blinkArray ∉ xs := fun hmem => h.list.located _ hmem (haddr ▸ hzero)
  have hother : ∀ q ∈ xs, q ≠ s.malloc blinkArray := fun q hq heq => hnew (heq ▸ hq)
  have hplace : ∀ q ∈ xs, user.place ≠ (s.cell q).place := by
    intro q hq heq
    have hne := findLoop_fails h.list.chain hfresh q hq
    rw [Blink.place, Blink.place] at heq
    exact hne (UInt16.toNat_inj.mp (by omega))
  have hplaceNew : ((s.add blinkArray user).1.cell (s.malloc blinkArray)).place = user.place := by
    rw [hcell]
    rfl
  refine ⟨⟨hadded.linked h.list hnew hnull ⟨i, hi, haddr⟩ hlocated, ?_, ?_, ?_, ?_⟩,
    ?_, fun r hr _ => List.mem_cons_of_mem _ hr, fun r hr _ => ?_, fun r hr _ => ?_, fun r hr _ => ?_⟩
  · refine List.pairwise_cons.mpr ⟨fun q hq => ?_, h.apart.imp_of_mem fun hp hq hpq => ?_⟩
    · rw [hplaceNew, hadded.others q (hother q hq)]
      exact hplace q hq
    · rw [hadded.others _ (hother _ hp), hadded.others _ (hother _ hq)]
      exact hpq
  · intro q hq
    rcases List.mem_cons.mp hq with heq | hq
    · rw [heq, hcell]
      exact ⟨htimed.onPos, htimed.onMax, htimed.offPos, htimed.offMax⟩
    · rw [hadded.others q (hother q hq)]
      exact h.timed q hq
  · intro q hq
    rcases List.mem_cons.mp hq with heq | hq
    · rw [heq, (g.add_self _).1, hcell]
      exact .start ⟨htimed.onPos, htimed.onMax, htimed.offPos, htimed.offMax⟩ rfl rfl
    · rw [(g.add_of_ne (hother q hq)).1, hadded.others q (hother q hq)]
      exact h.phase q hq
  · intro q hq
    rcases List.mem_cons.mp hq with heq | hq
    · rw [heq]
      have hlit : ((s.add blinkArray user).1.cell (s.malloc blinkArray)).litAt 0 = true := by
        rw [hcell]
        exact decide_eq_true (by rw [Nat.zero_mod]; exact htimed.onPos)
      rw [hplaceNew, hvideo, Function.update_self, (g.add_self _).1, (g.add_self _).2,
        if_neg Bool.false_ne_true, Blink.shownAt, hlit, if_pos rfl, hcell]
    · rw [hadded.others q (hother q hq), hvideo, Function.update_of_ne (hplace q hq).symm, h.shown q hq,
        (g.add_of_ne (hother q hq)).1, (g.add_of_ne (hother q hq)).2]
  · intro x _ hx
    rw [hvideo, Function.update_of_ne (hx user rfl)]
  · rw [hadded.others r (hother r hr)]
    exact .refl _
  · exact (g.add_of_ne (hother r hr)).1
  · rw [hadded.others r (hother r hr), (g.add_of_ne (hother r hr)).2]
    exact .still (h.countdown_pos hr) rfl rfl

theorem Showing.add (h : Showing blinkArray s g xs) {user : Blink} (hlocated : user.location ≠ 0)
    (htimed : user.Timed) (hfresh : s.findHelper fuel user.location = some 0) :
    ∃ ys, Showing blinkArray (s.add blinkArray user).1 (g.added blinkArray s user) ys ∧
      Kept (.add user) s g xs (s.add blinkArray user).1 (g.added blinkArray s user) ys ∧
      ((s.add blinkArray user).2 = 0 → s.malloc blinkArray ∈ ys) := by
  rw [BlinkClock.added]
  by_cases hret : (s.add blinkArray user).2 = 0
  · obtain ⟨hshowing, hkept⟩ := h.add_ok hlocated htimed hfresh hret
    rw [if_pos hret]
    exact ⟨_, hshowing, hkept, fun _ => List.mem_cons_self⟩
  · rcases add_cases blinkArray s user with ⟨-, hfail⟩ | ⟨-, hok, -⟩
    · rw [if_neg hret, hfail]
      exact ⟨xs, h, .refl h rfl, fun hzero => absurd (show (-1 : Int) = 0 from hzero) (by decide)⟩
    · exact absurd hok hret

theorem Showing.remove (h : Showing blinkArray s g xs) {arg : UInt32} {ret : Int} (hfuel : slotCount < fuel)
    (hcall : s.remove fuel arg = some (s', ret)) :
    ∃ ys, Showing blinkArray s' g ys ∧ Kept (.remove arg) s g xs s' g ys := by
  obtain ⟨s'', ret', ys, hcall', hlist, hsublist, hstays, hcells, hvideo⟩ := h.list.remove_keeps hfuel arg
  obtain ⟨rfl, rfl⟩ := Prod.mk.inj (Option.some.inj (hcall'.symm.trans hcall))
  have hmem : ∀ p ∈ ys, p ∈ xs := fun p hp => hsublist.subset hp
  have hshape : ∀ p ∈ ys, SameShape (s.cell p) (s''.cell p) := fun p hp => by
    rw [hcells p hp]
    exact ⟨rfl, rfl, rfl, rfl, rfl⟩
  have hleft : ∀ r ∈ xs, (BlinkCall.remove arg).Leaves (s.cell r).location → r ∈ ys := fun r hr hne =>
    hstays r hr (Ne.symm hne)
  refine ⟨ys, ⟨hlist, ?_, fun p hp => ?_, fun p hp => ?_, fun p hp => ?_⟩, fun _ _ _ => by rw [hvideo], hleft,
    fun r hr hne => hshape r (hleft r hr hne), fun _ _ _ => rfl, fun r hr hne => ?_⟩
  · refine (h.apart.sublist hsublist).imp_of_mem fun hp hq hpq => ?_
    rw [(hshape _ hp).place, (hshape _ hq).place]
    exact hpq
  · exact (hshape p hp).timed (h.timed p (hmem p hp))
  · have hphase := h.phase p (hmem p hp)
    refine ⟨?_, ?_⟩
    · rw [(hshape p hp).litAt, ← hphase.status, hcells p hp]
    · rw [(hshape p hp).litAt, (hshape p hp).onLength, (hshape p hp).period, ← hphase.countdown, hcells p hp]
  · rw [(hshape p hp).place, (hshape p hp).offChar, (hshape p hp).shownAt, hvideo]
    exact h.shown p (hmem p hp)
  · rw [hcells r (hleft r hr hne)]
    exact .still (h.countdown_pos hr) rfl rfl

theorem Showing.sync (h : Showing blinkArray s g xs) {arg : UInt32} {p q : Nat} {ret : Int} (hfuel : slotCount < fuel)
    (hfirst : s.findHelper fuel (arg >>> 16).toUInt16 = some p)
    (hsecond : s.findHelper fuel (arg &&& 0xFFFF).toUInt16 = some q)
    (hcall : s.sync fuel arg = some (s', ret)) :
    Showing blinkArray s' (if ret = 0 then g.sync p q else g) xs ∧
      Kept (.sync arg) s g xs s' (if ret = 0 then g.sync p q else g) xs := by
  rcases h.list.sync_cases hfuel hfirst hsecond hcall with ⟨rfl, rfl⟩ | ⟨rfl, ⟨hp, hq⟩, hnull, rfl⟩
  · exact ⟨h, .refl h rfl⟩
  rw [if_pos rfl]
  have hmoved : ∀ r, (BlinkCall.sync arg).Leaves (s.cell r).location → r ≠ q := by
    rintro r hne rfl
    exact hne (location_of_findLoop hsecond hnull.2).symm
  -- only the second structure changes, and only its character is shown
  have hself : ((s.setCell q ((s.cell q).follow (s.cell p))).poke (s.cell q).place (s.cell q).offChar).cell q =
      (s.cell q).follow (s.cell p) := Fish.cell_setCell _ _ _
  have hother : ∀ r, r ≠ q →
      ((s.setCell q ((s.cell q).follow (s.cell p))).poke (s.cell q).place (s.cell q).offChar).cell r = s.cell r :=
    fun r hr => Fish.cell_setCell_of_ne _ _ hr
  have hvideo : ((s.setCell q ((s.cell q).follow (s.cell p))).poke (s.cell q).place (s.cell q).offChar).video =
      Function.update s.video (s.cell q).place (s.cell q).offChar := rfl
  have hhead : ((s.setCell q ((s.cell q).follow (s.cell p))).poke (s.cell q).place (s.cell q).offChar).head =
      s.head := rfl
  generalize (s.setCell q ((s.cell q).follow (s.cell p))).poke (s.cell q).place (s.cell q).offChar = t at *
  have hplace : ∀ r, (t.cell r).place = (s.cell r).place ∧ (t.cell r).next = (s.cell r).next ∧
      (t.cell r).location = (s.cell r).location := by
    intro r
    by_cases hr : r = q
    · rw [hr, hself]
      exact ⟨rfl, rfl, rfl⟩
    · rw [hother r hr]
      exact ⟨rfl, rfl, rfl⟩
  refine ⟨⟨⟨?_, h.list.slots, fun r hr => ?_⟩, ?_, fun r hr => ?_, fun r hr => ?_, fun r hr => ?_⟩,
    fun x hx _ => ?_, fun r hr _ => hr, fun r _ hne => ?_, fun r _ hne => ?_, fun r hr hne => ?_⟩
  · rw [hhead]
    exact h.list.chain.congr fun r _ => (hplace r).2.1
  · rw [(hplace r).2.2]
    exact h.list.located r hr
  · refine h.apart.imp fun hne => ?_
    rw [(hplace _).1, (hplace _).1]
    exact hne
  · by_cases hrq : r = q
    · rw [hrq, hself]
      exact ⟨(h.timed p hp).onPos, (h.timed p hp).onMax, (h.timed p hp).offPos, (h.timed p hp).offMax⟩
    · rw [hother r hrq]
      exact h.timed r hr
  · by_cases hrq : r = q
    · rw [hrq, hself, (g.sync_self p q).1]
      exact ⟨(h.phase p hp).status, (h.phase p hp).countdown⟩
    · rw [hother r hrq, (g.sync_of_ne p hrq).1]
      exact h.phase r hr
  · by_cases hrq : r = q
    · rw [hrq, (hplace q).1, hvideo, Function.update_self, (g.sync_self p q).2, if_pos rfl, hself]
      rfl
    · have hne : (s.cell r).place ≠ (s.cell q).place := h.place_ne hr hq hrq
      rw [hother r hrq, hvideo, Function.update_of_ne hne, (g.sync_of_ne p hrq).1, (g.sync_of_ne p hrq).2]
      exact h.shown r hr
  · rw [hvideo, Function.update_of_ne (hx q hq)]
  · rw [hother r (hmoved r hne)]
    exact .refl _
  · exact (g.sync_of_ne p (hmoved r hne)).1
  · rw [hother r (hmoved r hne), (g.sync_of_ne p (hmoved r hne)).2]
    exact .still (h.countdown_pos hr) rfl rfl

theorem BlinkStep.keeps {call : BlinkCall} (h : Showing blinkArray s g xs) (hfuel : slotCount < fuel)
    (hstep : BlinkStep blinkArray fuel (s, g) call (s', g')) :
    ∃ ys, Showing blinkArray s' g' ys ∧ Kept call s g xs s' g' ys := by
  cases hstep with
  | add _ _ hlocated htimed hfresh =>
      obtain ⟨ys, hshowing, hkept, -⟩ := h.add hlocated htimed hfresh
      exact ⟨ys, hshowing, hkept⟩
  | remove _ hcall => exact h.remove hfuel hcall
  | find _ _ location => exact ⟨xs, h, .refl h rfl⟩
  | sync _ hfirst hsecond hcall => exact ⟨xs, h.sync hfuel hfirst hsecond hcall⟩
  | tasklet _ hcall =>
      obtain ⟨s'', hcall', hshowing, hkept⟩ := h.tasklet hfuel
      obtain rfl := Option.some.inj (hcall'.symm.trans hcall)
      exact ⟨xs, hshowing, hkept⟩

theorem StartsEmpty.showing (hstart : StartsEmpty blinkArray s) (g : BlinkClock) : Showing blinkArray s g [] where
  list := ⟨hstart.head, by simp, by simp⟩
  apart := List.Pairwise.nil
  timed := by simp
  phase := by simp
  shown := by simp

/-- A structure of the list is left alone by a whole run. -/
structure Left (es : List BlinkCall) (s : Fish) (g : BlinkClock) (s' : Fish) (g' : BlinkClock) (ys : List Nat)
    (r : Nat) : Prop where
  stays : r ∈ ys
  shape : SameShape (s.cell r) (s'.cell r)
  age : g'.age r = g.age r + (es.map BlinkCall.ticks).sum
  dwells : Dwells (es.map BlinkCall.ticks).sum (s.cell r) (s'.cell r) (g.shownOff r) (g'.shownOff r)

/-- What one call keeps, a run keeps. -/
theorem blink_run {es : List BlinkCall} (h : Showing blinkArray s g xs) (hfuel : slotCount < fuel)
    (hrun : Run (BlinkStep blinkArray fuel) (s, g) es (s', g')) :
    ∃ ys, Showing blinkArray s' g' ys ∧ (∀ x, x % 2 = 1 → s'.video x = s.video x) ∧
      ∀ r ∈ xs, (∀ e ∈ es, e.Leaves (s.cell r).location) → Left es s g s' g' ys r := by
  generalize hlast : (s', g') = t at hrun
  induction hrun generalizing s' g' with
  | nil =>
      obtain ⟨rfl, rfl⟩ := Prod.mk.inj hlast
      exact ⟨xs, h, fun _ _ => rfl, fun r hr _ => ⟨hr, .refl _, rfl, .still (h.countdown_pos hr) rfl rfl⟩⟩
  | @snoc es mid t e _ hstep ih =>
      obtain ⟨m, gm⟩ := mid
      subst hlast
      obtain ⟨ys, hshowing, hattr, hleft⟩ := ih rfl
      obtain ⟨zs, hshowing', hkept⟩ := BlinkStep.keeps hshowing hfuel hstep
      refine ⟨zs, hshowing', fun x hx => (hkept.attributes hx).trans (hattr x hx), fun r hr hleaves => ?_⟩
      have hsofar := hleft r hr fun e he => hleaves e (List.mem_append_left _ he)
      have hhere : e.Leaves (m.cell r).location := by
        rw [hsofar.shape.location]
        exact hleaves e (List.mem_append_right _ List.mem_cons_self)
      refine ⟨hkept.stays r hsofar.stays hhere, hsofar.shape.trans (hkept.shape r hsofar.stays hhere), ?_, ?_⟩
      · rw [hkept.age r hsofar.stays hhere, hsofar.age, List.map_append, List.sum_append, Nat.add_assoc]
        rfl
      · have hdwells := hsofar.dwells.trans (hkept.dwells r hsofar.stays hhere)
        rw [List.map_append, List.sum_append]
        exact hdwells

/-- Ticks can always go on. -/
theorem Showing.ticks (h : Showing blinkArray s g xs) (hfuel : slotCount < fuel) (n : Nat) :
    ∃ s' g', Run (BlinkStep blinkArray fuel) (s, g) (List.replicate n .tasklet) (s', g') := by
  suffices hrun : ∃ s' g', Run (BlinkStep blinkArray fuel) (s, g) (List.replicate n .tasklet) (s', g') ∧
      Showing blinkArray s' g' xs by
    obtain ⟨s', g', hrun, -⟩ := hrun
    exact ⟨s', g', hrun⟩
  induction n with
  | zero => exact ⟨s, g, .nil, h⟩
  | succ n ih =>
      obtain ⟨s', g', hrun, hshowing⟩ := ih
      obtain ⟨s'', hcall, hshowing', -⟩ := hshowing.tasklet hfuel
      refine ⟨s'', g'.tick s', ?_, hshowing'⟩
      rw [List.replicate_succ']
      exact hrun.snoc (.tasklet g' hcall)

/-- Structures with the same lengths at the same age have the same status and countdown. -/
theorem Blink.InPhase.together {b c : Blink} {n : Nat} (hb : b.InPhase n) (hc : c.InPhase n)
    (hon : c.onLength = b.onLength) (hoff : c.offLength = b.offLength) :
    c.status = b.status ∧ c.countdown = b.countdown := by
  have hperiod : c.period = b.period := by rw [Blink.period, Blink.period, hon, hoff]
  have hlit : c.litAt n = b.litAt n := by rw [Blink.litAt, Blink.litAt, hperiod, hon]
  refine ⟨?_, UInt16.toNat_inj.mp ?_⟩
  · rw [hc.status, hb.status, hlit]
  · rw [hc.countdown, hb.countdown, hlit, hperiod, hon]

/-- The clock at the start. -/
def startClock : BlinkClock := ⟨fun _ => 0, fun _ => false⟩

theorem timed_blinkAt (location : UInt16) : (blinkAt location).Timed where
  onPos := Nat.succ_pos 6
  onMax := show 7 < 2 ^ 15 by decide
  offPos := Nat.succ_pos 5
  offMax := show 6 < 2 ^ 15 by decide

theorem add_startFish {location : UInt16} (hsmall : ¬ location ≥ 80 * 25) :
    (startFish.add sampleArray (blinkAt location)).2 = 0 ∧
      Added startFish sampleArray (blinkAt location) (startFish.add sampleArray (blinkAt location)).1 := by
  have hne : startFish.malloc sampleArray ≠ 0 := by rw [malloc_startFish]; decide
  obtain ⟨-, hret, hadded⟩ :=
    (add_cases sampleArray startFish (blinkAt location)).resolve_left fun hfail => hfail.1.elim hsmall hne
  rw [malloc_startFish] at hadded
  exact ⟨hret, hadded⟩

/-- The state after one structure was added at location 540, and after one more at location 541. -/
def oneBlink : Fish := (startFish.add sampleArray (blinkAt 540)).1

def twoBlinks : Fish := (oneBlink.add sampleArray (blinkAt 541)).1

def oneClock : BlinkClock := startClock.added sampleArray startFish (blinkAt 540)

def twoClock : BlinkClock := oneClock.added sampleArray oneBlink (blinkAt 541)

theorem run_oneBlink :
    Run (BlinkStep sampleArray 2001) (startFish, startClock) [.add (blinkAt 540)] (oneBlink, oneClock) :=
  .snoc .nil (.add startFish startClock (by decide) (timed_blinkAt 540) rfl)

/-- After every run from the empty list, each structure of the list is in phase and its character is on the
screen, no attribute byte was touched, and the next tick returns. -/
theorem blink_timeline {es : List BlinkCall} {s₀ : Fish} {g₀ : BlinkClock} (hfuel : slotCount < fuel)
    (hstart : StartsEmpty blinkArray s₀) (hrun : Run (BlinkStep blinkArray fuel) (s₀, g₀) es (s, g)) :
    (∃ xs, Showing blinkArray s g xs) ∧ (∀ x, x % 2 = 1 → s.video x = s₀.video x) ∧
      ∃ s', s.tasklet fuel = some s' := by
  obtain ⟨xs, hshowing, hattr, -⟩ := blink_run (hstart.showing g₀) hfuel hrun
  obtain ⟨s', htick, -⟩ := hshowing.tasklet hfuel
  exact ⟨⟨xs, hshowing⟩, hattr, s', htick⟩

/-- The screen after one structure was added. -/
theorem blink_timeline_one : ∃ xs, Showing sampleArray oneBlink oneClock xs :=
  (blink_timeline (by decide) startsEmpty_startFish run_oneBlink).1

/-- A structure that was added shows its two characters in turn: what is on the screen depends on the number of
ticks since, whatever else is added, removed, looked up or synchronised meanwhile. -/
theorem blink_shows_in_turn {cs es : List BlinkCall} {s₀ : Fish} {g₀ : BlinkClock} {user : Blink}
    (hfuel : slotCount < fuel) (hstart : StartsEmpty blinkArray s₀)
    (hbefore : Run (BlinkStep blinkArray fuel) (s₀, g₀) cs (s, g))
    (hlocated : user.location ≠ 0) (htimed : user.Timed) (hfresh : s.findHelper fuel user.location = some 0)
    (hadded : (s.add blinkArray user).2 = 0)
    (hafter : Run (BlinkStep blinkArray fuel) ((s.add blinkArray user).1, g.added blinkArray s user) es (s', g'))
    (hleaves : ∀ e ∈ es, e.Leaves user.location) :
    s'.video user.place = user.shownAt (es.map BlinkCall.ticks).sum := by
  obtain ⟨xs, hshowing, -⟩ := blink_run (hstart.showing g₀) hfuel hbefore
  obtain ⟨ys, hshowing', -, hmem⟩ := hshowing.add hlocated htimed hfresh
  obtain ⟨zs, hlast, -, hleft⟩ := blink_run hshowing' hfuel hafter
  obtain ⟨hcell, -⟩ := add_shows hadded
  have hshape : SameShape user ((s.add blinkArray user).1.cell (s.malloc blinkArray)) := by
    rw [hcell]
    exact ⟨rfl, rfl, rfl, rfl, rfl⟩
  obtain ⟨hstays, hkept, hage, hdwells⟩ := hleft _ (hmem hadded) (by rw [hshape.location]; exact hleaves)
  have hclock : (g.added blinkArray s user).age (s.malloc blinkArray) = 0 ∧
      (g.added blinkArray s user).shownOff (s.malloc blinkArray) = false := by
    rw [BlinkClock.added, if_pos hadded]
    exact g.add_self _
  have hshown := hlast.shown _ hstays
  have hwhole := hshape.trans hkept
  rw [hdwells.shown hclock.2, if_neg Bool.false_ne_true, hwhole.place, hwhole.shownAt, hage, hclock.1,
    Nat.zero_add] at hshown
  exact hshown

/-- Seven ticks after it was added, a structure shows `M`. -/
theorem blink_shows_in_turn_seven : ∃ s g,
    Run (BlinkStep sampleArray 2001) (oneBlink, oneClock) (List.replicate 7 .tasklet) (s, g) ∧
      s.video 1080 = 0x4D := by
  obtain ⟨xs, hshowing, -⟩ := blink_run (startsEmpty_startFish.showing startClock) (by decide) run_oneBlink
  obtain ⟨s, g, hrun⟩ := hshowing.ticks (show slotCount < 2001 by decide) 7
  refine ⟨s, g, hrun, ?_⟩
  exact blink_shows_in_turn (by decide) startsEmpty_startFish .nil (by decide) (timed_blinkAt 540) rfl
    (add_startFish (by decide)).1 hrun fun e he => by rw [List.eq_of_mem_replicate he]; trivial

/-- Two synchronised structures change at the same ticks from then on. The second one shows its off character, whatever
its phase, until it changes next. -/
theorem synced_blink_together {cs es : List BlinkCall} {s₀ t : Fish} {g₀ : BlinkClock} {arg : UInt32} {p q : Nat}
    (hfuel : slotCount < fuel) (hstart : StartsEmpty blinkArray s₀)
    (hbefore : Run (BlinkStep blinkArray fuel) (s₀, g₀) cs (s, g))
    (hfirst : s.findHelper fuel (arg >>> 16).toUInt16 = some p)
    (hsecond : s.findHelper fuel (arg &&& 0xFFFF).toUInt16 = some q) (hsync : s.sync fuel arg = some (t, 0))
    (hafter : Run (BlinkStep blinkArray fuel) (t, g.sync p q) es (s', g'))
    (hleaves : ∀ e ∈ es, e.Leaves (arg >>> 16).toUInt16 ∧ e.Leaves (arg &&& 0xFFFF).toUInt16) :
    (s'.cell q).onLength = (s'.cell p).onLength ∧ (s'.cell q).offLength = (s'.cell p).offLength ∧
      (s'.cell q).status = (s'.cell p).status ∧ (s'.cell q).countdown = (s'.cell p).countdown ∧
      s'.video (t.cell q).place =
        if (es.map BlinkCall.ticks).sum < (t.cell q).countdown.toNat ∨ (s'.cell q).status = 0 then (t.cell q).offChar
        else (t.cell q).onChar := by
  obtain ⟨xs, hshowing, -⟩ := blink_run (hstart.showing g₀) hfuel hbefore
  obtain ⟨-, ⟨hp, hq⟩, ⟨hpnull, hqnull⟩, ht⟩ := (hshowing.list.sync_cases hfuel hfirst hsecond hsync).resolve_left
    fun hfails => absurd hfails.1 (by decide)
  obtain ⟨hshowing', -⟩ := hshowing.sync hfuel hfirst hsecond hsync
  rw [if_pos rfl] at hshowing'
  obtain ⟨ys, hlast, -, hleft⟩ := blink_run hshowing' hfuel hafter
  have hcellq : t.cell q = (s.cell q).follow (s.cell p) := by
    rw [ht]
    exact Fish.cell_setCell _ _ _
  have hlocq : (t.cell q).location = (arg &&& 0xFFFF).toUInt16 := by
    rw [hcellq]
    exact location_of_findLoop hsecond hqnull
  -- the first structure may be the second one
  have hcellp : (t.cell p).location = (arg >>> 16).toUInt16 ∧ (t.cell q).onLength = (t.cell p).onLength ∧
      (t.cell q).offLength = (t.cell p).offLength := by
    have hloc := location_of_findLoop hfirst hpnull
    by_cases hpq : p = q
    · rw [← hpq] at hcellq ⊢
      rw [hcellq]
      exact ⟨hloc, rfl, rfl⟩
    · have hcell : t.cell p = s.cell p := by
        rw [ht]
        exact Fish.cell_setCell_of_ne _ _ hpq
      rw [hcell, hcellq]
      exact ⟨hloc, rfl, rfl⟩
  have hleftp := hleft p hp fun e he => by rw [hcellp.1]; exact (hleaves e he).1
  have hleftq := hleft q hq fun e he => by rw [hlocq]; exact (hleaves e he).2
  have hage : g'.age q = g'.age p := by
    rw [hleftq.age, hleftp.age, (g.sync_self p q).1]
    by_cases hpq : p = q
    · rw [← hpq, (g.sync_self p p).1]
    · rw [(g.sync_of_ne p hpq).1]
  have hon : (s'.cell q).onLength = (s'.cell p).onLength := by
    rw [hleftq.shape.onLength, hleftp.shape.onLength, hcellp.2.1]
  have hoff : (s'.cell q).offLength = (s'.cell p).offLength := by
    rw [hleftq.shape.offLength, hleftp.shape.offLength, hcellp.2.2]
  have hphase := hlast.phase q hleftq.stays
  have hshown := hlast.shown q hleftq.stays
  rw [hleftq.shape.place, hleftq.shape.offChar] at hshown
  have hvideo : s'.video (t.cell q).place =
      if (es.map BlinkCall.ticks).sum < (t.cell q).countdown.toNat ∨ (s'.cell q).status = 0 then (t.cell q).offChar
      else (t.cell q).onChar := by
    rw [hshown]
    by_cases hsoon : (es.map BlinkCall.ticks).sum < (t.cell q).countdown.toNat
    · rw [(hleftq.dwells.before hsoon).2, (g.sync_self p q).2, if_pos rfl, if_pos (.inl hsoon)]
    · rw [hleftq.dwells.behind hsoon, if_neg Bool.false_ne_true, Blink.shownAt, hleftq.shape.onChar,
        hleftq.shape.offChar, hphase.status]
      cases (s'.cell q).litAt (g'.age q) with
      | true => rw [if_pos rfl, if_pos rfl, if_neg (by simp [hsoon])]
      | false => rw [if_neg Bool.false_ne_true, if_neg Bool.false_ne_true, if_pos (.inr rfl)]
  rw [hage] at hphase
  obtain ⟨hstatus, hcountdown⟩ := (hlast.phase p hleftp.stays).together hphase hon hoff
  exact ⟨hon, hoff, hstatus, hcountdown, hvideo⟩

theorem malloc_oneBlink : oneBlink.malloc sampleArray = sampleArray + 16 := by
  have hadded : Added startFish sampleArray (blinkAt 540) oneBlink := (add_startFish (by decide)).2
  have hslot : oneBlink.freeSlot sampleArray = some 1 := by
    rw [Fish.freeSlot, List.find?_range_eq_some]
    refine ⟨?_, List.mem_range.mpr (by decide), fun j hj => ?_⟩
    · rw [hadded.others _ (by decide)]
      rfl
    · obtain rfl : j = 0 := by omega
      rw [show slotAddr sampleArray 0 = sampleArray from rfl, hadded.location]
      rfl
  rw [Fish.malloc, hslot, Option.elim_some]
  rfl

theorem add_oneBlink : Added oneBlink (sampleArray + 16) (blinkAt 541) twoBlinks := by
  have hadded : Added oneBlink (oneBlink.malloc sampleArray) (blinkAt 541) twoBlinks :=
    added_of_located (by rw [malloc_oneBlink]; decide) (by decide)
  rw [malloc_oneBlink] at hadded
  exact hadded

/-- Both structures of the sample are found where they were added. -/
theorem find_twoBlinks : twoBlinks.findHelper 2001 540 = some sampleArray ∧
    twoBlinks.findHelper 2001 541 = some (sampleArray + 16) := by
  have hfirst : Added startFish sampleArray (blinkAt 540) oneBlink := (add_startFish (by decide)).2
  have hsecond := add_oneBlink
  have hloc : (twoBlinks.cell (sampleArray + 16)).location = 541 := hsecond.location
  have hnext : (twoBlinks.cell (sampleArray + 16)).next = sampleArray := hsecond.next.trans hfirst.head
  have hloc' : (twoBlinks.cell sampleArray).location = 540 := by
    rw [hsecond.others _ (by decide)]
    exact hfirst.location
  have hhead := hsecond.head
  refine ⟨?_, ?_⟩
  · rw [Fish.findHelper, hhead, Fish.findLoop, if_neg (by decide), hloc, if_neg (by decide), hnext, Fish.findLoop,
      if_neg (by decide), hloc', if_pos rfl]
  · rw [Fish.findHelper, hhead, Fish.findLoop, if_neg (by decide), hloc, if_pos rfl]

theorem run_twoBlinks : Run (BlinkStep sampleArray 2001) (startFish, startClock)
    ([.add (blinkAt 540)] ++ [.add (blinkAt 541)]) (twoBlinks, twoClock) := by
  have hfirst : Added startFish sampleArray (blinkAt 540) oneBlink := (add_startFish (by decide)).2
  refine run_oneBlink.snoc (.add oneBlink oneClock (by decide) (timed_blinkAt 541) ?_)
  have hnext : (oneBlink.cell sampleArray).next = 0 := hfirst.next
  have hloc : (oneBlink.cell sampleArray).location = 540 := hfirst.location
  rw [Fish.findHelper, hfirst.head, Fish.findLoop, if_neg (by decide), hloc, if_neg (by decide), hnext, Fish.findLoop,
    if_pos rfl]

/-- Twenty ticks after they were synchronised, two structures have the same countdown. -/
theorem synced_blink_together_twenty : ∃ t s g, twoBlinks.sync 2001 0x021C021D = some (t, 0) ∧
    Run (BlinkStep sampleArray 2001) (t, twoClock.sync sampleArray (sampleArray + 16)) (List.replicate 20 .tasklet)
      (s, g) ∧
      (s.cell (sampleArray + 16)).countdown = (s.cell sampleArray).countdown := by
  have hfuel : slotCount < 2001 := by decide
  have hfirst : twoBlinks.findHelper 2001 ((0x021C021D : UInt32) >>> 16).toUInt16 = some sampleArray :=
    find_twoBlinks.1
  have hsecond : twoBlinks.findHelper 2001 ((0x021C021D : UInt32) &&& 0xFFFF).toUInt16 = some (sampleArray + 16) :=
    find_twoBlinks.2
  have hsync := sync_eq hfirst hsecond
  rw [if_neg (by decide)] at hsync
  obtain ⟨xs, hshowing, -⟩ := blink_run (startsEmpty_startFish.showing startClock) hfuel run_twoBlinks
  obtain ⟨hshowing', -⟩ := hshowing.sync hfuel hfirst hsecond hsync
  rw [if_pos rfl] at hshowing'
  obtain ⟨s, g, hrun⟩ := hshowing'.ticks hfuel 20
  refine ⟨_, s, g, hsync, hrun, ?_⟩
  refine (synced_blink_together hfuel startsEmpty_startFish run_twoBlinks hfirst hsecond hsync hrun ?_).2.2.2.1
  intro e he
  rw [List.eq_of_mem_replicate he]
  exact ⟨trivial, trivial⟩

end Runs

end UnixOs
