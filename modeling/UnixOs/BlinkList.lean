import UnixOs.LinkedChain

/-! The blink list of the fish program: `blink.S` links slots of `blink_array` from `mp1_list_head`, and the
allocator in `fish.c` takes a slot for free when its location is zero. Structures are kept by address; the
loops over the list take fuel. -/

namespace UnixOs

/-- `struct mp1_blink_struct` -/
structure Blink where
  location : UInt16
  onChar : UInt8
  offChar : UInt8
  onLength : UInt16
  offLength : UInt16
  countdown : UInt16
  status : UInt16
  next : Nat
  deriving DecidableEq

/-- A structure of zero bytes. -/
def Blink.zero : Blink := ⟨0, 0, 0, 0, 0, 0, 0, 0⟩

/-- `mp1_list_head`, the structures in memory, and the video memory from `vmem_base_addr` on. -/
structure Fish where
  head : Nat
  cell : Nat → Blink
  video : Nat → UInt8

/-- The number of slots, `80*25`. -/
def slotCount : Nat := 2000

/-- `&blink_array[i]` -/
def slotAddr (blinkArray i : Nat) : Nat := blinkArray + 16 * i

namespace Fish

/-- `mp1_poke`: the byte in `cl` at offset `eax`. -/
def poke (s : Fish) (eax : Nat) (cl : UInt8) : Fish := { s with video := Function.update s.video eax cl }

def setCell (s : Fish) (p : Nat) (b : Blink) : Fish := { s with cell := Function.update s.cell p b }

/-- The first index whose slot has location zero. -/
def freeSlot (blinkArray : Nat) (s : Fish) : Option Nat :=
  (List.range slotCount).find? fun i => (s.cell (slotAddr blinkArray i)).location = 0

/-- `mp1_malloc`; 0 is NULL. -/
def malloc (blinkArray : Nat) (s : Fish) : Nat := (s.freeSlot blinkArray).elim 0 (slotAddr blinkArray)

/-- `mp1_free` -/
def free (s : Fish) (p : Nat) : Fish := s.setCell p Blink.zero

/-- The loop of `mp1_find_helper`; 0 is the failure return. -/
def findLoop (s : Fish) (ax : UInt16) : Nat → Nat → Option Nat
  | 0, _ => none
  | fuel + 1, ebx =>
      if ebx = 0 then some 0
      else if (s.cell ebx).location = ax then some ebx
      else findLoop s ax fuel (s.cell ebx).next

def findHelper (fuel : Nat) (s : Fish) (ax : UInt16) : Option Nat := s.findLoop ax fuel s.head

/-- Where a link of the list is stored: in `mp1_list_head` or in the field `NEXT` of a structure. -/
inductive Link where
  | head
  | next (p : Nat)

def load (s : Fish) : Link → Nat
  | .head => s.head
  | .next p => (s.cell p).next

def store (s : Fish) (v : Nat) : Link → Fish
  | .head => { s with head := v }
  | .next p => s.setCell p { s.cell p with next := v }

/-- `remove_find_prev`: the place that links to `eax`. -/
def findPrev (s : Fish) (eax : Nat) : Nat → Link → Option Link
  | 0, _ => none
  | fuel + 1, edx => if s.load edx = eax then some edx else s.findPrev eax fuel (.next (s.load edx))

/-- `mp1_ioctl_add` with the structure at its argument. -/
def add (blinkArray : Nat) (s : Fish) (user : Blink) : Fish × Int :=
  if user.location ≥ 80 * 25 then (s, -1)
  else
    let temp := { user with status := 1, countdown := user.onLength }
    let edx := s.malloc blinkArray
    if edx = 0 then (s, -1)
    else
      let s := s.setCell edx temp
      let s := s.setCell edx { s.cell edx with next := s.head }
      let s := { s with head := edx }
      (s.poke ((s.cell edx).location.toNat * 2) (s.cell edx).onChar, 0)

/-- `mp1_ioctl_remove`; its argument is a location. -/
def remove (fuel : Nat) (s : Fish) (arg : UInt32) : Option (Fish × Int) := do
  let eax ← s.findHelper fuel arg.toUInt16
  if eax = 0 then return (s, -1)
  let edx ← s.findPrev eax fuel .head
  let s := s.store (s.cell eax).next edx
  return (s.free eax, 0)

/-- `mp1_ioctl_find` with the location at its argument; the structure found is copied to the caller. -/
def find (fuel : Nat) (s : Fish) (location : UInt16) : Option (Option Blink × Int) := do
  let eax ← s.findHelper fuel location
  if eax = 0 then return (none, -1)
  return (some (s.cell eax), 0)

/-- `mp1_ioctl_sync`. The `cmovl` after `testb $1` never moves, so that the off character is shown. -/
def sync (fuel : Nat) (s : Fish) (arg : UInt32) : Option (Fish × Int) := do
  let esi ← s.findHelper fuel (arg >>> 16).toUInt16
  if esi = 0 then return (s, -1)
  let edi ← s.findHelper fuel (arg &&& 0xFFFF).toUInt16
  if edi = 0 then return (s, -1)
  let first := s.cell esi
  let s := s.setCell edi { s.cell edi with
    onLength := first.onLength
    offLength := first.offLength
    countdown := first.countdown
    status := first.status }
  return (s.poke ((s.cell edi).location.toNat * 2) (s.cell edi).offChar, 0)

/-- The body of `tasklet_loop` for one structure. -/
def blink (s : Fish) (ebx : Nat) : Fish :=
  let s := s.setCell ebx { s.cell ebx with countdown := (s.cell ebx).countdown - 1 }
  if (s.cell ebx).countdown.toInt16 > 0 then s
  else
    let eax := (s.cell ebx).location.toNat * 2
    let (cl, dx) :=
      if (s.cell ebx).status &&& 1 ≠ 0 then ((s.cell ebx).offChar, (s.cell ebx).offLength)
      else ((s.cell ebx).onChar, (s.cell ebx).onLength)
    let s := s.poke eax cl
    s.setCell ebx { s.cell ebx with countdown := dx, status := (s.cell ebx).status ^^^ 1 }

def taskletLoop : Nat → Fish → Nat → Option Fish
  | 0, _, _ => none
  | fuel + 1, s, ebx =>
      if ebx = 0 then some s
      else
        let s := s.blink ebx
        taskletLoop fuel s (s.cell ebx).next

/-- `mp1_rtc_tasklet` -/
def tasklet (fuel : Nat) (s : Fish) : Option Fish := taskletLoop fuel s s.head

end Fish

/-- The calls of `mp1_ioctl` and the clock. -/
inductive BlinkCall where
  | add (user : Blink)
  | remove (arg : UInt32)
  | find (location : UInt16)
  | sync (arg : UInt32)
  | tasklet

/-- One call, with its return value. -/
def Fish.call (blinkArray fuel : Nat) (s : Fish) : BlinkCall → Option (Fish × Int)
  | .add user => some (s.add blinkArray user)
  | .remove arg => s.remove fuel arg
  | .find location => (s.find fuel location).map fun r => (s, r.2)
  | .sync arg => s.sync fuel arg
  | .tasklet => (s.tasklet fuel).map fun s => (s, 0)

@[simp] theorem Fish.cell_setCell (s : Fish) (p : Nat) (b : Blink) : (s.setCell p b).cell p = b :=
  Function.update_self _ _ _

theorem Fish.cell_setCell_of_ne {p q : Nat} (s : Fish) (b : Blink) (h : q ≠ p) :
    (s.setCell p b).cell q = s.cell q :=
  Function.update_of_ne h _ _

/-- Following `NEXT` from the head visits the slots `xs` and reaches NULL, and none of them would be handed out
by `mp1_malloc`. -/
structure ProperList (blinkArray : Nat) (s : Fish) (xs : List Nat) : Prop where
  chain : Chain (fun p => (s.cell p).next) 0 s.head xs
  slots : ∀ p ∈ xs, ∃ i < slotCount, p = slotAddr blinkArray i
  taken : s.malloc blinkArray ∉ xs

/-- A list whose slots all have a location, so that the allocator knows them to be in use. -/
structure LinkedList (blinkArray : Nat) (s : Fish) (xs : List Nat) : Prop where
  chain : Chain (fun p => (s.cell p).next) 0 s.head xs
  slots : ∀ p ∈ xs, ∃ i < slotCount, p = slotAddr blinkArray i
  located : ∀ p ∈ xs, (s.cell p).location ≠ 0

section Invariant

variable {blinkArray fuel : Nat} {s s' : Fish} {xs : List Nat}

theorem freeSlot_some {i : Nat} (h : s.freeSlot blinkArray = some i) :
    i < slotCount ∧ (s.cell (slotAddr blinkArray i)).location = 0 ∧
      ∀ j < i, (s.cell (slotAddr blinkArray j)).location ≠ 0 := by
  rw [Fish.freeSlot, List.find?_range_eq_some] at h
  obtain ⟨hzero, hmem, hfirst⟩ := h
  refine ⟨List.mem_range.mp hmem, of_decide_eq_true hzero, fun j hj => ?_⟩
  have hbefore := hfirst j hj
  exact of_decide_eq_false (by simpa using hbefore)

theorem malloc_cases (s : Fish) :
    s.malloc blinkArray = 0 ∨ ∃ i < slotCount, s.malloc blinkArray = slotAddr blinkArray i ∧
      (s.cell (slotAddr blinkArray i)).location = 0 ∧
      ∀ j < i, (s.cell (slotAddr blinkArray j)).location ≠ 0 := by
  cases hfind : s.freeSlot blinkArray with
  | none => exact .inl (by rw [Fish.malloc, hfind, Option.elim_none])
  | some i =>
      obtain ⟨hi, hzero, hfirst⟩ := freeSlot_some hfind
      exact .inr ⟨i, hi, by rw [Fish.malloc, hfind, Option.elim_some], hzero, hfirst⟩

theorem LinkedList.proper (h : LinkedList blinkArray s xs) :
    ProperList blinkArray s xs := by
  refine ⟨h.chain, h.slots, fun hmem => ?_⟩
  rcases malloc_cases s with hnull | ⟨i, -, haddr, hzero, -⟩
  · exact h.chain.ne_null hmem hnull
  · rw [haddr] at hmem
    exact h.located _ hmem hzero

theorem LinkedList.length_le (h : LinkedList blinkArray s xs) : xs.length ≤ slotCount := by
  have hsub : xs ⊆ (List.range slotCount).map (slotAddr blinkArray) := by
    intro p hp
    obtain ⟨i, hi, rfl⟩ := h.slots p hp
    exact List.mem_map_of_mem (List.mem_range.mpr hi)
  have hlength := (h.chain.nodup.subperm hsub).length_le
  rwa [List.length_map, List.length_range] at hlength

/-- Nothing that the list consists of has changed. -/
structure SameLinks (s s' : Fish) : Prop where
  head : s'.head = s.head
  next : ∀ p, (s'.cell p).next = (s.cell p).next
  location : ∀ p, (s'.cell p).location = (s.cell p).location

theorem SameLinks.refl (s : Fish) : SameLinks s s := ⟨rfl, fun _ => rfl, fun _ => rfl⟩

theorem SameLinks.trans {s'' : Fish} (h : SameLinks s s') (h' : SameLinks s' s'') : SameLinks s s'' :=
  ⟨h'.head.trans h.head, fun p => (h'.next p).trans (h.next p), fun p => (h'.location p).trans (h.location p)⟩

theorem SameLinks.linked (h : SameLinks s s') (hlist : LinkedList blinkArray s xs) :
    LinkedList blinkArray s' xs := by
  refine ⟨?_, hlist.slots, fun p hp => ?_⟩
  · rw [h.head]
    exact hlist.chain.congr fun p _ => h.next p
  · rw [h.location]
    exact hlist.located p hp

theorem sameLinks_setCell {p : Nat} {b : Blink} (hnext : b.next = (s.cell p).next)
    (hlocation : b.location = (s.cell p).location) : SameLinks s (s.setCell p b) := by
  refine ⟨rfl, fun q => ?_, fun q => ?_⟩
  · by_cases hq : q = p
    · rw [hq, Fish.cell_setCell, hnext]
    · rw [Fish.cell_setCell_of_ne _ _ hq]
  · by_cases hq : q = p
    · rw [hq, Fish.cell_setCell, hlocation]
    · rw [Fish.cell_setCell_of_ne _ _ hq]

theorem sameLinks_poke (s : Fish) (eax : Nat) (cl : UInt8) : SameLinks s (s.poke eax cl) :=
  ⟨rfl, fun _ => rfl, fun _ => rfl⟩

/-! ### The loops -/

theorem findLoop_eq {ax : UInt16} {ebx : Nat} (h : Chain (fun p => (s.cell p).next) 0 ebx xs)
    (hfuel : xs.length < fuel) : ∃ p, s.findLoop ax fuel ebx = some p ∧ (p = 0 ∨ p ∈ xs) := by
  induction xs generalizing ebx fuel with
  | nil =>
      obtain ⟨k, rfl⟩ : ∃ k, fuel = k + 1 := ⟨fuel - 1, by omega⟩
      exact ⟨0, if_pos h, .inl rfl⟩
  | cons x xs ih =>
      obtain ⟨k, rfl⟩ : ∃ k, fuel = k + 1 := ⟨fuel - 1, by omega⟩
      obtain ⟨rfl, hne, hrest⟩ := h
      rw [Fish.findLoop, if_neg hne]
      by_cases hfound : (s.cell ebx).location = ax
      · exact ⟨ebx, if_pos hfound, .inr List.mem_cons_self⟩
      · obtain ⟨p, hp, hcases⟩ := ih hrest (Nat.lt_of_succ_lt_succ hfuel)
        exact ⟨p, by rw [if_neg hfound]; exact hp, hcases.imp id (List.mem_cons_of_mem _)⟩

theorem LinkedList.findHelper (h : LinkedList blinkArray s xs) (hfuel : slotCount < fuel) (ax : UInt16) :
    ∃ p, s.findHelper fuel ax = some p ∧ (p = 0 ∨ p ∈ xs) :=
  findLoop_eq h.chain (h.length_le.trans_lt hfuel)

/-- The place that links to `p`: where the search started, or the element before it. -/
def linkTo (edx : Fish.Link) (before : List Nat) : Fish.Link := before.getLast?.elim edx .next

theorem findPrev_eq {edx : Fish.Link} {p : Nat} {before after : List Nat}
    (h : Chain (fun p => (s.cell p).next) 0 (s.load edx) (before ++ p :: after)) (hnot : p ∉ before)
    (hfuel : before.length < fuel) : s.findPrev p fuel edx = some (linkTo edx before) := by
  induction before generalizing edx fuel with
  | nil =>
      obtain ⟨k, rfl⟩ : ∃ k, fuel = k + 1 := ⟨fuel - 1, by omega⟩
      exact if_pos h.1
  | cons q before ih =>
      obtain ⟨k, rfl⟩ : ∃ k, fuel = k + 1 := ⟨fuel - 1, by omega⟩
      obtain ⟨hq, -, hrest⟩ := h
      have hne : s.load edx ≠ p := by
        rw [hq]
        exact fun heq => hnot (heq ▸ List.mem_cons_self)
      have hrest' : s.findPrev p k (.next q) = some (linkTo (.next q) before) :=
        ih hrest (fun hmem => hnot (List.mem_cons_of_mem _ hmem)) (Nat.lt_of_succ_lt_succ hfuel)
      rw [Fish.findPrev, if_neg hne, hq, hrest']
      cases before with
      | nil => rfl
      | cons r before =>
          rw [linkTo, linkTo, List.getLast?_cons_cons, List.getLast?_eq_getLast_of_ne_nil (by simp)]
          rfl

theorem location_store (s : Fish) (v : Nat) (link : Fish.Link) (q : Nat) :
    ((s.store v link).cell q).location = (s.cell q).location := by
  cases link with
  | head => rfl
  | next p =>
      rw [Fish.store]
      by_cases hq : q = p
      · rw [hq, Fish.cell_setCell]
      · rw [Fish.cell_setCell_of_ne _ _ hq]

theorem next_store_of_ne (s : Fish) (v : Nat) {link : Fish.Link} {q : Nat} (h : ∀ p, link = .next p → q ≠ p) :
    ((s.store v link).cell q).next = (s.cell q).next := by
  cases link with
  | head => rfl
  | next p => rw [Fish.store, Fish.cell_setCell_of_ne _ _ (h p rfl)]

theorem LinkedList.unlink {p : Nat} {before after : List Nat}
    (h : LinkedList blinkArray s (before ++ p :: after)) :
    LinkedList blinkArray ((s.store (s.cell p).next (linkTo .head before)).free p) (before ++ after) := by
  have hnodup := h.chain.nodup
  have hapart : ∀ q ∈ before ++ after, q ≠ p := by
    rintro q hq rfl
    rw [List.nodup_append] at hnodup
    rcases List.mem_append.mp hq with hbefore | hafter
    · exact hnodup.2.2 q hbefore q List.mem_cons_self rfl
    · exact (List.nodup_cons.mp hnodup.2.1).1 hafter
  have hmem : ∀ q ∈ before ++ after, q ∈ before ++ p :: after := by
    intro q hq
    rw [List.mem_append] at hq ⊢
    exact hq.imp id (List.mem_cons_of_mem _)
  refine ⟨?_, fun q hq => h.slots q (hmem q hq), fun q hq => ?_⟩
  · rcases List.eq_nil_or_concat before with rfl | ⟨first, q, rfl⟩
    · -- the head of the list
      refine h.chain.2.2.congr fun r hr => ?_
      rw [Fish.free, Fish.cell_setCell_of_ne _ _ (hapart r hr)]
      rfl
    · rw [List.concat_eq_append] at hnodup hapart h ⊢
      have hlink : linkTo .head (first ++ [q]) = .next q := by simp [linkTo]
      rw [hlink]
      have hchain := h.chain
      rw [List.append_assoc, List.singleton_append] at hchain ⊢
      refine hchain.unlink ?_ fun r hr => ?_
      · rw [Fish.free, Fish.cell_setCell_of_ne _ _ (hapart q (by simp)), Fish.store, Fish.cell_setCell]
      · have hr' : r ∈ first ++ [q] ++ after := by
          simp only [List.mem_append] at hr ⊢
          tauto
        have hrq : r ≠ q := by
          rintro rfl
          rw [List.append_assoc, List.singleton_append, List.nodup_append] at hnodup
          obtain ⟨-, htail, hdisjoint⟩ := hnodup
          rcases List.mem_append.mp hr with hfirst | hafter
          · exact hdisjoint r hfirst r List.mem_cons_self rfl
          · exact (List.nodup_cons.mp htail).1 (List.mem_cons_of_mem _ hafter)
        rw [Fish.free, Fish.cell_setCell_of_ne _ _ (hapart r hr'), next_store_of_ne]
        rintro p' ⟨⟩
        exact hrq
  · rw [Fish.free, Fish.cell_setCell_of_ne _ _ (hapart q hq), location_store]
    exact h.located q (hmem q hq)

theorem LinkedList.remove (h : LinkedList blinkArray s xs) (hfuel : slotCount < fuel) (arg : UInt32) :
    ∃ s' ret ys, s.remove fuel arg = some (s', ret) ∧ LinkedList blinkArray s' ys := by
  obtain ⟨p, hfind, hp⟩ := h.findHelper hfuel arg.toUInt16
  by_cases hnull : p = 0
  · refine ⟨s, -1, xs, ?_, h⟩
    rw [Fish.remove, hfind]
    exact if_pos hnull
  · obtain ⟨before, after, rfl⟩ := List.append_of_mem (hp.resolve_left hnull)
    have hnot : p ∉ before := by
      intro hmem
      exact (List.nodup_append.mp h.chain.nodup).2.2 p hmem p List.mem_cons_self rfl
    have hlength := h.length_le
    rw [List.length_append] at hlength
    have hprev : s.findPrev p fuel .head = some (linkTo .head before) := findPrev_eq h.chain hnot (by omega)
    refine ⟨_, 0, _, ?_, h.unlink⟩
    rw [Fish.remove, hfind]
    change (if p = 0 then _ else _) = _
    rw [if_neg hnull, hprev]
    rfl

theorem LinkedList.sync (h : LinkedList blinkArray s xs) (hfuel : slotCount < fuel) (arg : UInt32) :
    ∃ s' ret, s.sync fuel arg = some (s', ret) ∧ SameLinks s s' := by
  obtain ⟨esi, hfirst, -⟩ := h.findHelper hfuel (arg >>> 16).toUInt16
  obtain ⟨edi, hsecond, -⟩ := h.findHelper hfuel (arg &&& 0xFFFF).toUInt16
  rw [Fish.sync, hfirst, hsecond]
  by_cases hesi : esi = 0
  · exact ⟨s, -1, if_pos hesi, .refl s⟩
  · by_cases hedi : edi = 0
    · exact ⟨s, -1, (if_neg hesi).trans (if_pos hedi), .refl s⟩
    · refine ⟨_, 0, (if_neg hesi).trans (if_neg hedi), ?_⟩
      refine SameLinks.trans ?_ (sameLinks_poke _ _ _)
      exact sameLinks_setCell rfl rfl

theorem sameLinks_blink (s : Fish) (ebx : Nat) : SameLinks s (s.blink ebx) := by
  have hdown : SameLinks s (s.setCell ebx { s.cell ebx with countdown := (s.cell ebx).countdown - 1 }) :=
    sameLinks_setCell rfl rfl
  rw [Fish.blink]
  dsimp only
  generalize s.setCell ebx { s.cell ebx with countdown := (s.cell ebx).countdown - 1 } = t at hdown ⊢
  by_cases hmore : (t.cell ebx).countdown.toInt16 > 0
  · rw [if_pos hmore]
    exact hdown
  · rw [if_neg hmore]
    exact (hdown.trans (sameLinks_poke t _ _)).trans (sameLinks_setCell rfl rfl)

theorem taskletLoop_eq {ebx : Nat} (h : Chain (fun p => (s.cell p).next) 0 ebx xs) (hfuel : xs.length < fuel) :
    ∃ s', Fish.taskletLoop fuel s ebx = some s' ∧ SameLinks s s' := by
  induction xs generalizing s ebx fuel with
  | nil =>
      obtain ⟨k, rfl⟩ : ∃ k, fuel = k + 1 := ⟨fuel - 1, by omega⟩
      exact ⟨s, if_pos h, .refl s⟩
  | cons x xs ih =>
      obtain ⟨k, rfl⟩ : ∃ k, fuel = k + 1 := ⟨fuel - 1, by omega⟩
      obtain ⟨rfl, hne, hrest⟩ := h
      have hblink := sameLinks_blink s ebx
      have hrest' : Chain (fun p => ((s.blink ebx).cell p).next) 0 ((s.blink ebx).cell ebx).next xs := by
        rw [hblink.next]
        exact hrest.congr fun p _ => hblink.next p
      obtain ⟨s', hloop, hsame⟩ := ih hrest' (Nat.lt_of_succ_lt_succ hfuel)
      exact ⟨s', (if_neg hne).trans hloop, hblink.trans hsame⟩

/-- What a successful `mp1_ioctl_add` leaves: its slot is the new head and links to the old one. -/
structure Added (s : Fish) (p : Nat) (user : Blink) (s' : Fish) : Prop where
  head : s'.head = p
  next : (s'.cell p).next = s.head
  location : (s'.cell p).location = user.location
  others : ∀ q ≠ p, s'.cell q = s.cell q

theorem add_cases (blinkArray : Nat) (s : Fish) (user : Blink) :
    ((user.location ≥ 80 * 25 ∨ s.malloc blinkArray = 0) ∧ s.add blinkArray user = (s, -1)) ∨
    (s.malloc blinkArray ≠ 0 ∧ (s.add blinkArray user).2 = 0 ∧
      Added s (s.malloc blinkArray) user (s.add blinkArray user).1) := by
  rw [Fish.add]
  by_cases hlarge : user.location ≥ 80 * 25
  · exact .inl ⟨.inl hlarge, if_pos hlarge⟩
  · rw [if_neg hlarge]
    dsimp only
    generalize s.malloc blinkArray = p
    by_cases hnull : p = 0
    · exact .inl ⟨.inr hnull, if_pos hnull⟩
    · rw [if_neg hnull]
      refine .inr ⟨hnull, rfl, rfl, ?_, ?_, fun q hq => ?_⟩
      · simp [Fish.poke, Fish.setCell]
      · simp [Fish.poke, Fish.setCell]
      · simp [Fish.poke, Fish.setCell, Function.update_of_ne hq]

theorem Added.linked {p : Nat} {user : Blink} (h : Added s p user s') (hlist : LinkedList blinkArray s xs)
    (hp : p ∉ xs) (hnull : p ≠ 0) (hslot : ∃ i < slotCount, p = slotAddr blinkArray i)
    (hlocation : user.location ≠ 0) : LinkedList blinkArray s' (p :: xs) := by
  have hother : ∀ q ∈ xs, s'.cell q = s.cell q := fun q hq => h.others q fun heq => hp (heq ▸ hq)
  refine ⟨?_, ?_, ?_⟩
  · rw [h.head]
    exact hlist.chain.push hnull h.next fun q hq => by rw [hother q hq]
  · rintro q (_ | ⟨_, hq⟩)
    · exact hslot
    · exact hlist.slots q hq
  · rintro q (_ | ⟨_, hq⟩)
    · rw [h.location]
      exact hlocation
    · rw [hother q hq]
      exact hlist.located q hq

theorem LinkedList.add (h : LinkedList blinkArray s xs) {user : Blink}
    (hlocation : user.location = 0 → s.malloc blinkArray = 0) :
    ∃ ys, LinkedList blinkArray (s.add blinkArray user).1 ys ∧
      ((s.add blinkArray user).2 = 0 → ys.length = xs.length + 1) := by
  rcases add_cases blinkArray s user with ⟨-, hfail⟩ | ⟨hnull, -, hadded⟩
  · rw [hfail]
    exact ⟨xs, h, fun hret => absurd (show (-1 : Int) = 0 from hret) (by decide)⟩
  · obtain ⟨i, hi, haddr, hzero, -⟩ := (malloc_cases s).resolve_left hnull
    have hfresh : s.malloc blinkArray ∉ xs := by
      intro hmem
      rw [haddr] at hmem
      exact h.located _ hmem hzero
    refine ⟨_, hadded.linked h hfresh hnull ⟨i, hi, haddr⟩ fun h0 => hnull (hlocation h0), fun _ => ?_⟩
    rw [List.length_cons]

/-- A slot with location zero is handed out again at once. -/
theorem Added.malloc {user : Blink} (h : Added s (s.malloc blinkArray) user s')
    (hnull : s.malloc blinkArray ≠ 0) (hzero : user.location = 0) :
    s'.malloc blinkArray = s.malloc blinkArray := by
  cases hslot : s.freeSlot blinkArray with
  | none => exact absurd (by rw [Fish.malloc, hslot, Option.elim_none]) hnull
  | some i =>
      obtain ⟨hi, -, hfirst⟩ := freeSlot_some hslot
      have haddr : s.malloc blinkArray = slotAddr blinkArray i := by rw [Fish.malloc, hslot, Option.elim_some]
      have hslot' : s'.freeSlot blinkArray = some i := by
        rw [Fish.freeSlot, List.find?_range_eq_some]
        refine ⟨?_, List.mem_range.mpr hi, fun j hj => ?_⟩
        · rw [← haddr, h.location]
          exact decide_eq_true hzero
        · have hne : slotAddr blinkArray j ≠ s.malloc blinkArray := by
            rw [haddr, slotAddr, slotAddr]
            omega
          rw [h.others _ hne]
          simpa using hfirst j hj
      rw [haddr, Fish.malloc, hslot', Option.elim_some]

/-- No proper list has such a slot as its head. -/
theorem Added.not_proper {user : Blink} (h : Added s (s.malloc blinkArray) user s')
    (hnull : s.malloc blinkArray ≠ 0) (hzero : user.location = 0) (ys : List Nat) :
    ¬ProperList blinkArray s' ys := by
  intro hproper
  have hmalloc := h.malloc hnull hzero
  have hchain := hproper.chain
  have htaken := hproper.taken
  rw [hmalloc] at htaken
  rw [h.head] at hchain
  cases ys with
  | nil => exact hnull hchain
  | cons y ys =>
      obtain ⟨rfl, -, -⟩ := hchain
      exact htaken List.mem_cons_self

end Invariant

/-! ### Runs -/

/-- The list is proper in every state that the calls lead through, every call returns, and every successful
`add` makes the list one longer. -/
def StaysProper (blinkArray fuel : Nat) : Fish → List BlinkCall → Prop
  | s, [] => ∃ xs, ProperList blinkArray s xs
  | s, c :: cs => ∃ xs, ProperList blinkArray s xs ∧ ∃ s' ret, s.call blinkArray fuel c = some (s', ret) ∧
      (∀ user, c = .add user → ret = 0 →
        ∃ ys, Chain (fun p => (s'.cell p).next) 0 s'.head ys ∧ ys.length = xs.length + 1) ∧
      StaysProper blinkArray fuel s' cs

/-- Location zero is added only while no slot is free. -/
def AddsLocated (blinkArray fuel : Nat) : Fish → List BlinkCall → Prop
  | _, [] => True
  | s, c :: cs => (∀ user, c = .add user → user.location = 0 → s.malloc blinkArray = 0) ∧
      ∀ s' ret, s.call blinkArray fuel c = some (s', ret) → AddsLocated blinkArray fuel s' cs

theorem LinkedList.call {blinkArray fuel : Nat} {s : Fish} {xs : List Nat} (h : LinkedList blinkArray s xs)
    (hfuel : slotCount < fuel) {c : BlinkCall}
    (hlocated : ∀ user, c = .add user → user.location = 0 → s.malloc blinkArray = 0) :
    ∃ s' ret ys, s.call blinkArray fuel c = some (s', ret) ∧ LinkedList blinkArray s' ys ∧
      (∀ user, c = .add user → ret = 0 → ys.length = xs.length + 1) := by
  cases c with
  | add user =>
      obtain ⟨ys, hlist, hlength⟩ := h.add (hlocated user rfl)
      exact ⟨_, _, ys, rfl, hlist, fun _ _ hret => hlength hret⟩
  | remove arg =>
      obtain ⟨s', ret, ys, hcall, hlist⟩ := h.remove hfuel arg
      exact ⟨s', ret, ys, hcall, hlist, fun _ hadd => by cases hadd⟩
  | find location =>
      obtain ⟨p, hfind, -⟩ := h.findHelper hfuel location
      rw [Fish.call, Fish.find, hfind]
      by_cases hnull : p = 0
      · exact ⟨s, -1, xs, congrArg (Option.map _) (if_pos hnull), h, fun _ hadd => by cases hadd⟩
      · exact ⟨s, 0, xs, congrArg (Option.map _) (if_neg hnull), h, fun _ hadd => by cases hadd⟩
  | sync arg =>
      obtain ⟨s', ret, hcall, hsame⟩ := h.sync hfuel arg
      exact ⟨s', ret, xs, hcall, hsame.linked h, fun _ hadd => by cases hadd⟩
  | tasklet =>
      obtain ⟨s', hcall, hsame⟩ := taskletLoop_eq h.chain (h.length_le.trans_lt hfuel)
      refine ⟨s', 0, xs, ?_, hsame.linked h, fun _ hadd => by cases hadd⟩
      rw [Fish.call, Fish.tasklet, hcall, Option.map_some]

theorem staysProper_iff_of_linked {blinkArray fuel : Nat} (hfuel : slotCount < fuel) {cs : List BlinkCall} {s : Fish}
    {xs : List Nat} (h : LinkedList blinkArray s xs) :
    StaysProper blinkArray fuel s cs ↔ AddsLocated blinkArray fuel s cs := by
  induction cs generalizing s xs with
  | nil => exact ⟨fun _ => trivial, fun _ => ⟨xs, h.proper⟩⟩
  | cons c cs ih =>
      constructor
      · rintro ⟨xs', -, s', ret, hcall, -, hrest⟩
        have hlocated : ∀ user, c = .add user → user.location = 0 → s.malloc blinkArray = 0 := by
          rintro user rfl hzero
          by_contra hnull
          obtain rfl : s' = (s.add blinkArray user).1 := (congrArg Prod.fst (Option.some.inj hcall)).symm
          rcases add_cases blinkArray s user with ⟨hlarge | hfull, -⟩ | ⟨-, -, hadded⟩
          · rw [hzero] at hlarge
            exact absurd hlarge (by decide)
          · exact hnull hfull
          · cases cs with
            | nil => exact hrest.elim fun ys hproper => hadded.not_proper hnull hzero ys hproper
            | cons c' cs => exact hrest.elim fun ys hproper => hadded.not_proper hnull hzero ys hproper.1
        refine ⟨hlocated, fun t ret' hcall' => ?_⟩
        obtain ⟨t', ret'', ys, hcall'', hlist, -⟩ := h.call hfuel hlocated
        obtain rfl : t' = s' := congrArg Prod.fst (Option.some.inj (hcall''.symm.trans hcall))
        obtain rfl : t = t' := congrArg Prod.fst (Option.some.inj (hcall'.symm.trans hcall))
        exact (ih hlist).mp hrest
      · rintro ⟨hlocated, hrest⟩
        obtain ⟨s', ret, ys, hcall, hlist, hlength⟩ := h.call hfuel hlocated
        exact ⟨xs, h.proper, s', ret, hcall, fun user hadd hret => ⟨ys, hlist.chain, hlength user hadd hret⟩,
          (ih hlist).mpr (hrest s' ret hcall)⟩

/-- The program's state before its first call: an empty list, and every slot zeroed. -/
structure StartsEmpty (blinkArray : Nat) (s : Fish) : Prop where
  head : s.head = 0
  zeroed : ∀ i < slotCount, s.cell (slotAddr blinkArray i) = Blink.zero

/-- From the empty list, the list stays proper exactly when location zero is added only while no slot is
free. -/
theorem blink_list_proper_iff {blinkArray fuel : Nat} (hfuel : slotCount < fuel) {s : Fish}
    (hstart : StartsEmpty blinkArray s) (cs : List BlinkCall) :
    StaysProper blinkArray fuel s cs ↔ AddsLocated blinkArray fuel s cs := by
  have hempty : LinkedList blinkArray s [] := ⟨hstart.head, by simp, by simp⟩
  exact staysProper_iff_of_linked hfuel hempty

/-- The start of the program, with the array at an address of its data section. -/
def startFish : Fish where
  head := 0
  cell := fun _ => Blink.zero
  video := fun _ => 0

def sampleArray : Nat := 0x8049000

/-- A structure that shows `I` and `M` in turn at a location. -/
def blinkAt (location : UInt16) : Blink := ⟨location, 0x49, 0x4D, 7, 6, 0, 0, 0⟩

theorem startsEmpty_startFish : StartsEmpty sampleArray startFish := ⟨rfl, fun _ _ => rfl⟩

/-- One structure is added, blinks and is removed. -/
theorem blink_list_proper_iff_removed :
    StaysProper sampleArray 2001 startFish [.add (blinkAt 540), .tasklet, .remove 540] := by
  have hfuel : slotCount < 2001 := by decide
  refine (blink_list_proper_iff hfuel startsEmpty_startFish _).mpr ⟨?_, fun _ _ _ => ⟨?_, fun _ _ _ => ⟨?_, ?_⟩⟩⟩
  · rintro user ⟨⟩ hzero
    exact absurd hzero (by decide)
  · rintro user ⟨⟩
  · rintro user ⟨⟩
  · exact fun _ _ _ => trivial

theorem malloc_startFish : startFish.malloc sampleArray = sampleArray := by
  have hslot : startFish.freeSlot sampleArray = some 0 := by
    rw [Fish.freeSlot, List.find?_range_eq_some]
    exact ⟨rfl, List.mem_range.mpr (by decide), fun j hj => absurd hj (Nat.not_lt_zero j)⟩
  rw [Fish.malloc, hslot, Option.elim_some]
  rfl

/-- The state after one structure was added at the top left corner, and after two. -/
def cornerOnce : Fish := (startFish.add sampleArray (blinkAt 0)).1

def cornerTwice : Fish := (cornerOnce.add sampleArray (blinkAt 0)).1

theorem added_of_located {s : Fish} {user : Blink} (hnull : s.malloc sampleArray ≠ 0)
    (hsmall : ¬user.location ≥ 80 * 25) :
    Added s (s.malloc sampleArray) user (s.add sampleArray user).1 := by
  obtain ⟨-, -, hadded⟩ := (add_cases sampleArray s user).resolve_left fun hfail => hfail.1.elim hsmall hnull
  exact hadded

/-- Two structures at the top left corner share one slot, which then links to itself. -/
theorem corner_links_to_itself :
    cornerTwice.head = sampleArray ∧ (cornerTwice.cell sampleArray).next = sampleArray ∧
      ¬StaysProper sampleArray 2001 startFish [.add (blinkAt 0), .add (blinkAt 0), .tasklet] := by
  have hmalloc := malloc_startFish
  have hne : startFish.malloc sampleArray ≠ 0 := by rw [hmalloc]; decide
  have honce : Added startFish (startFish.malloc sampleArray) (blinkAt 0) cornerOnce :=
    added_of_located hne (by decide)
  have hagain : cornerOnce.malloc sampleArray = startFish.malloc sampleArray := honce.malloc hne rfl
  have htwice : Added cornerOnce (cornerOnce.malloc sampleArray) (blinkAt 0) cornerTwice :=
    added_of_located (by rw [hagain]; exact hne) (by decide)
  rw [hagain, hmalloc] at htwice
  have hself : (cornerTwice.cell sampleArray).next = sampleArray := by rw [htwice.next, honce.head, hmalloc]
  refine ⟨htwice.head, hself, ?_⟩
  rintro ⟨-, -, s', ret, hcall, -, ys, hproper, -⟩
  obtain rfl : cornerOnce = s' := congrArg Prod.fst (Option.some.inj hcall)
  exact honce.not_proper hne rfl ys hproper

end UnixOs
