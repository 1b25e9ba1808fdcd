import UnixOs.SchedQueue

/-! Rotation of the process queue. `pq_rotate` wraps `front` but advances `rear` without the test that
`pq_enqueue` makes, so a rotation is one of the ring exactly while `rear` is not yet the last index;
at the last index the pointer it stores lands in the `front` field behind the array. -/

namespace UnixOs

open ProcessQueue

/-- The index of `pcbs` that `pq_rotate` stores at. -/
def pqRotateSlot (q : ProcessQueue) : Int := (pqDequeue q).1.rear + 1

/-- One rotation does what a round-robin scheduler needs: the live entries turn by one place, both
indices stay in the array, and the only store is into a slot of the array. -/
structure RotatesIntact (s : LiveQueue) : Prop where
  entries : (pqRotate s.queue).live s.count = (s.queue.live s.count).rotate 1
  front_nonneg : 0 ≤ (pqRotate s.queue).front
  front_lt : (pqRotate s.queue).front < maxProcesses
  rear_nonneg : 0 ≤ (pqRotate s.queue).rear
  rear_lt : (pqRotate s.queue).rear < maxProcesses
  slot_nonneg : 0 ≤ pqRotateSlot s.queue
  slot_lt : pqRotateSlot s.queue < maxProcesses

theorem pqRotate_eq (q : ProcessQueue) :
    pqRotate q =
      { (pqDequeue q).1 with rear := pqRotateSlot q }.setSlot (pqRotateSlot q) (pqDequeue q).2 := rfl

/-- With room behind `rear` the rotated queue is again a ring of the same entries. -/
theorem pqRotate_spec {q : ProcessQueue} {count : Nat} (h : RingOk q count) (hpos : 0 < count)
    (hrear : q.rear < maxProcesses - 1) :
    RingOk (pqRotate q) count ∧ (pqRotate q).live count = (q.live count).rotate 1 := by
  obtain ⟨n, rfl⟩ : ∃ n, count = n + 1 := ⟨count - 1, by omega⟩
  obtain ⟨hok, hlive⟩ := pqDequeue_spec h
  have hslot : pqRotateSlot q = q.rear + 1 := rfl
  have hslot0 : 0 ≤ pqRotateSlot q := by have := h.rear_nonneg; omega
  have hslotlt : pqRotateSlot q < maxProcesses := by omega
  have hcell : (pqRotateSlot q).toNat =
      ((pqDequeue q).1.front.toNat + n) % maxProcesses := by
    rw [hok.back_slot, hslot, show (pqDequeue q).1.rear = q.rear from rfl]
    have := h.rear_nonneg
    simp only [maxProcesses] at *
    omega
  rw [pqRotate_eq, setSlot_of_lt _ hslot0 hslotlt]
  refine ⟨⟨hok.front_nonneg, hok.front_lt, hslot0, hslotlt, h.count_le, ?_⟩, ?_⟩
  · have hspacing := hok.spacing
    rw [show (pqDequeue q).1.rear = q.rear from rfl] at hspacing
    rw [hslot]
    push_cast
    rwa [show q.rear + 1 - (n + 1 : Int) = q.rear - n by omega]
  · rw [hlive, List.rotate_cons_succ, List.rotate_zero, live, hcell]
    exact Ring.window_push_back _ _ (by have := h.count_le; omega)

theorem rotatesIntact_iff {s : LiveQueue} (h : RingOk s.queue s.count) (hpos : 0 < s.count) :
    RotatesIntact s ↔ s.queue.rear < maxProcesses - 1 := by
  constructor
  · intro hintact
    have hslot : pqRotateSlot s.queue = s.queue.rear + 1 := rfl
    have := hintact.slot_lt
    omega
  · intro hrear
    obtain ⟨hok, hentries⟩ := pqRotate_spec h hpos hrear
    have hslot : pqRotateSlot s.queue = s.queue.rear + 1 := rfl
    have hrear0 := h.rear_nonneg
    exact ⟨hentries, hok.front_nonneg, hok.front_lt, hok.rear_nonneg, hok.rear_lt, by omega, by omega⟩

/-- A step of the queue that rotates only while `rear` is below the last index. -/
def BoundedStep (s : LiveQueue) (e : QueueEvent) (s' : LiveQueue) : Prop :=
  QueueStep s e s' ∧ (e = .rotate → s.queue.rear < maxProcesses - 1)

theorem represents_boundedStep {s s' : LiveQueue} {l : List Nat} {e : QueueEvent}
    (h : Represents s l) (hstep : BoundedStep s e s') : ∃ l', DequeStep l e l' ∧ Represents s' l' := by
  obtain ⟨hstep, hbound⟩ := hstep
  by_cases hrotate : e = .rotate
  · subst hrotate
    cases hstep with
    | @rotate q count hpos =>
        obtain ⟨hok, rfl⟩ := h
        obtain ⟨hok', hlive⟩ := pqRotate_spec hok hpos (hbound rfl)
        obtain ⟨n, rfl⟩ : ∃ n, count = n + 1 := ⟨count - 1, by omega⟩
        obtain ⟨-, hhead⟩ := pqDequeue_spec hok
        refine ⟨_, ?_, hok', hlive⟩
        rw [LiveQueue.entries, hhead, List.rotate_cons_succ, List.rotate_zero]
        exact .rotate _ _
  · exact represents_step h hstep hrotate

/-- While every rotation is made before `rear` is the last index, the queue is the double-ended list
turned by each rotation, so no entry is lost, duplicated or served out of order; and the next rotation
is intact exactly if `rear` is not the last index then. -/
theorem bounded_run_rotates_iff {es : List QueueEvent} {s : LiveQueue}
    (hrun : Run BoundedStep .init es s) :
    (∃ l, Run DequeStep [] es l ∧ s.entries = l) ∧
      (0 < s.count → (RotatesIntact s ↔ s.queue.rear < maxProcesses - 1)) := by
  obtain ⟨l, hlist, hok, hentries⟩ := hrun.simulation represents_init
    (fun s l e s' h hstep => represents_boundedStep h hstep)
  exact ⟨⟨l, hlist, hentries⟩, rotatesIntact_iff hok⟩

/-- Among pushes at the front, pops and rotations only a rotation moves `rear`, so the bound on `rear`
is a bound on the number of rotations since `pq_init`. -/
theorem rear_eq_rotations {es : List QueueEvent} {s : LiveQueue} (hrun : Run BoundedStep .init es s)
    (hfront : ∀ n, .enqueue n ∉ es) :
    s.queue.rear = es.countP (fun e => match e with | .rotate => true | _ => false) := by
  induction hrun with
  | nil => rfl
  | @snoc es s s' e hbefore hlast ih =>
      have hrear := ih (fun n hn => hfront n (List.mem_append_left _ hn))
      obtain ⟨l, -, hok, -⟩ := hbefore.simulation represents_init
        (fun s l e s' h hstep => represents_boundedStep h hstep)
      obtain ⟨hstep, hbound⟩ := hlast
      rw [List.countP_append]
      cases hstep with
      | enqueue => exact absurd (List.mem_append_right _ List.mem_cons_self) (hfront _)
      | @enqueueFront q count p hroom =>
          have hkept : (pqEnqueueFront q p).1.rear = q.rear := by
            obtain ⟨hf0, hf, -⟩ := hok
            simp only [pqEnqueueFront]
            rw [setSlot_of_lt]
            · split_ifs <;> simp only [maxProcesses] at * <;> omega
            · split_ifs <;> simp only [maxProcesses] at * <;> omega
          simpa [hkept] using hrear
      | dequeue => simpa [pqDequeue] using hrear
      | @rotate q count hpos =>
          have hmoved : (pqRotate q).rear = q.rear + 1 := by
            have := hbound rfl
            rw [pqRotate_eq, setSlot_of_lt]
            · rfl
            · have := hok.rear_nonneg
              simp only [pqRotateSlot, pqDequeue] at *
              omega
            · simp only [pqRotateSlot, pqDequeue] at *
              omega
          simp only at hrear
          simp [hmoved, hrear]

/-- Three shells, as `execute` starts them at boot, and five timer switches. -/
def fiveSwitches : List QueueEvent :=
  [.enqueueFront (pcbAddr 1), .enqueueFront (pcbAddr 2), .enqueueFront (pcbAddr 3),
    .rotate, .rotate, .rotate, .rotate, .rotate]

/-- The queue after `fiveSwitches`. -/
def afterFiveSwitches : LiveQueue where
  queue := pqRotate (pqRotate (pqRotate (pqRotate (pqRotate (pqEnqueueFront (pqEnqueueFront
    (pqEnqueueFront pqInit (pcbAddr 1)).1 (pcbAddr 2)).1 (pcbAddr 3)).1))))
  count := 3

theorem run_fiveSwitches : Run BoundedStep .init fiveSwitches afterFiveSwitches := by
  have h1 : Run BoundedStep .init ([] ++ [.enqueueFront (pcbAddr 1)]) _ :=
    .snoc .nil ⟨.enqueueFront _ (by decide), by simp⟩
  have h2 := Run.snoc h1 ⟨.enqueueFront (pcbAddr 2) (by decide), by simp⟩
  have h3 := Run.snoc h2 ⟨.enqueueFront (pcbAddr 3) (by decide), by simp⟩
  have h4 := Run.snoc h3 ⟨.rotate (by decide), fun _ => by decide⟩
  have h5 := Run.snoc h4 ⟨.rotate (by decide), fun _ => by decide⟩
  have h6 := Run.snoc h5 ⟨.rotate (by decide), fun _ => by decide⟩
  have h7 := Run.snoc h6 ⟨.rotate (by decide), fun _ => by decide⟩
  exact Run.snoc h7 ⟨.rotate (by decide), fun _ => by decide⟩

/-- The sixth switch stores the rotated PCB pointer into `front`: the next `pq_peak` indexes the array
with an address. -/
theorem sixth_rotation_overwrites_front :
    Run QueueStep .init fiveSwitches afterFiveSwitches ∧
      (pqRotate afterFiveSwitches.queue).front = pcbAddr 1 ∧ ¬ RotatesIntact afterFiveSwitches := by
  refine ⟨run_fiveSwitches.mono (fun _ _ _ h => h.1), by decide, ?_⟩
  intro hintact
  exact absurd hintact.slot_lt (by decide)

/-- At boot the queue of three shells rotates as it should. -/
theorem bounded_run_rotates_iff_boot :
    RotatesIntact ⟨(pqEnqueueFront (pqEnqueueFront (pqEnqueueFront pqInit (pcbAddr 1)).1
      (pcbAddr 2)).1 (pcbAddr 3)).1, 3⟩ := by
  have h1 : Run BoundedStep .init ([] ++ [.enqueueFront (pcbAddr 1)]) _ :=
    .snoc .nil ⟨.enqueueFront _ (by decide), by simp⟩
  have h2 := Run.snoc h1 ⟨.enqueueFront (pcbAddr 2) (by decide), by simp⟩
  have h3 := Run.snoc h2 ⟨.enqueueFront (pcbAddr 3) (by decide), by simp⟩
  exact ((bounded_run_rotates_iff h3).2 (by decide)).mpr (by decide)

end UnixOs
