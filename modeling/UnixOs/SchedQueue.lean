import UnixOs.LabelledRun
import UnixOs.RingWindow

/-! The process queue of `sched.c`: a ring of `MAX_PROCESSES` PCB pointers with two indices and no
count of its own. The struct is `pcbs[MAX_PROCESSES]`, then `front`, then `rear`, so a store at index
`MAX_PROCESSES` of `pcbs` hits `front` and the next one hits `rear`; `setSlot` follows that layout.
The queue with the number of live entries beside it (the kernel keeps it in `process_count`) refines
a double-ended list. -/

namespace UnixOs

/-- `MAX_PROCESSES` -/
def maxProcesses : Nat := 6

/-- `ADDR_8MB` -/
def addr8MB : Nat := 0x00800000

/-- `ADDR_8KB` -/
def addr8KB : Nat := 0x2000

/-- `ADDR_8MB - process_num*ADDR_8KB`: where the PCB of a process number is. -/
def pcbAddr (processNum : Nat) : Nat := addr8MB - processNum * addr8KB

/-- `process_queue_t`. Only the cells of `pcbs` below `MAX_PROCESSES` are the array. -/
structure ProcessQueue where
  pcbs : Nat → Nat
  front : Int
  rear : Int

namespace ProcessQueue

/-- The store `pcbs[i] = v` by its address: the two fields behind the array are its cells
`MAX_PROCESSES` and `MAX_PROCESSES + 1`. A store outside the struct is not seen in it. -/
def setSlot (q : ProcessQueue) (i : Int) (v : Nat) : ProcessQueue :=
  if 0 ≤ i ∧ i < maxProcesses then { q with pcbs := Function.update q.pcbs i.toNat v }
  else if i = maxProcesses then { q with front := v }
  else if i = maxProcesses + 1 then { q with rear := v }
  else q

/-- The `count` live entries, read cyclically from `front`. -/
def live (q : ProcessQueue) (count : Nat) : List Nat :=
  Ring.window maxProcesses q.pcbs q.front.toNat count

end ProcessQueue

open ProcessQueue

def pqInit : ProcessQueue where
  pcbs := fun _ => 0
  front := 1
  rear := 0

/-- Returns the new queue and the return code. -/
def pqEnqueue (q : ProcessQueue) (processNum : Nat) : ProcessQueue × Int :=
  if processNum > maxProcesses then (q, -1)
  else
    let rear : Int := if q.rear ≥ maxProcesses - 1 then 0 else q.rear + 1
    ({ q with rear := rear }.setSlot rear (pcbAddr processNum), 0)

def pqEnqueueFront (q : ProcessQueue) (thisPcb : Nat) : ProcessQueue × Int :=
  let front : Int := if q.front - 1 < 0 then maxProcesses - 1 else q.front - 1
  ({ q with front := front }.setSlot front thisPcb, 0)

def pqPeak (q : ProcessQueue) : Nat := q.pcbs q.front.toNat

/-- Returns the new queue and the entry taken from the front. -/
def pqDequeue (q : ProcessQueue) : ProcessQueue × Nat :=
  let front : Int := if q.front + 1 ≥ maxProcesses then 0 else q.front + 1
  ({ q with front := front }, q.pcbs q.front.toNat)

/-- `rear` is advanced without a bounds check. -/
def pqRotate (q : ProcessQueue) : ProcessQueue :=
  let (q, oldFront) := pqDequeue q
  { q with rear := q.rear + 1 }.setSlot (q.rear + 1) oldFront

/-- Both indices are array indices and are `count` places apart. -/
structure RingOk (q : ProcessQueue) (count : Nat) : Prop where
  front_nonneg : 0 ≤ q.front
  front_lt : q.front < maxProcesses
  rear_nonneg : 0 ≤ q.rear
  rear_lt : q.rear < maxProcesses
  count_le : count ≤ maxProcesses
  spacing : q.front ≡ q.rear - count + 1 [ZMOD maxProcesses]

/-- The slot behind the last live entry, by both indices. -/
theorem RingOk.back_slot {q : ProcessQueue} {count : Nat} (h : RingOk q count) :
    (q.front.toNat + count) % maxProcesses = (q.rear.toNat + 1) % maxProcesses := by
  obtain ⟨hf0, hf, hr0, hr, hc, hs⟩ := h
  simp only [maxProcesses, Int.ModEq] at *
  omega

theorem ringOk_pqInit : RingOk pqInit 0 := by
  constructor <;> simp [pqInit, maxProcesses]

theorem setSlot_of_lt {q : ProcessQueue} {i : Int} (v : Nat) (h0 : 0 ≤ i) (h : i < maxProcesses) :
    q.setSlot i v = { q with pcbs := Function.update q.pcbs i.toNat v } := by
  rw [setSlot, if_pos ⟨h0, h⟩]

/-- Up to the ring's size, index arithmetic with a wrap test is arithmetic modulo that size. -/
theorem pqEnqueue_spec {q : ProcessQueue} {count n : Nat} (h : RingOk q count)
    (hroom : count < maxProcesses) (hn : n ≤ maxProcesses) :
    (pqEnqueue q n).2 = 0 ∧ RingOk (pqEnqueue q n).1 (count + 1) ∧
      (pqEnqueue q n).1.live (count + 1) = q.live count ++ [pcbAddr n] := by
  have hback := h.back_slot
  obtain ⟨hf0, hf, hr0, hr, hc, hs⟩ := h
  set rear : Int := if q.rear ≥ maxProcesses - 1 then 0 else q.rear + 1 with hrear
  have hslot : rear.toNat = (q.front.toNat + count) % maxProcesses := by
    rw [hback, hrear]
    simp only [maxProcesses] at *
    split_ifs <;> omega
  have hrear0 : 0 ≤ rear := by rw [hrear]; split_ifs <;> omega
  have hrearlt : rear < maxProcesses := by
    rw [hrear]
    simp only [maxProcesses] at *
    split_ifs <;> omega
  have heq : pqEnqueue q n =
      ({ q with rear := rear, pcbs := Function.update q.pcbs rear.toNat (pcbAddr n) }, 0) := by
    rw [pqEnqueue, if_neg (by omega)]
    simp only [← hrear]
    rw [setSlot_of_lt _ hrear0 hrearlt]
  rw [heq]
  refine ⟨rfl, ⟨hf0, hf, hrear0, hrearlt, hroom, ?_⟩, ?_⟩
  · simp only [hrear, maxProcesses, Int.ModEq] at *
    push_cast
    split_ifs <;> omega
  · simp only [live]
    rw [hslot, Ring.window_push_back _ _ hroom]

theorem pqEnqueueFront_spec {q : ProcessQueue} {count : Nat} (p : Nat) (h : RingOk q count)
    (hroom : count < maxProcesses) :
    RingOk (pqEnqueueFront q p).1 (count + 1) ∧
      (pqEnqueueFront q p).1.live (count + 1) = p :: q.live count := by
  obtain ⟨hf0, hf, hr0, hr, hc, hs⟩ := h
  set front : Int := if q.front - 1 < 0 then maxProcesses - 1 else q.front - 1 with hfront
  have hfront0 : 0 ≤ front := by
    rw [hfront]
    simp only [maxProcesses]
    split_ifs <;> omega
  have hfrontlt : front < maxProcesses := by
    rw [hfront]
    simp only [maxProcesses] at *
    split_ifs <;> omega
  have hslot : front.toNat = (q.front.toNat + (maxProcesses - 1)) % maxProcesses := by
    rw [hfront]
    simp only [maxProcesses] at *
    split_ifs <;> omega
  have heq : (pqEnqueueFront q p).1 =
      { q with front := front, pcbs := Function.update q.pcbs front.toNat p } := by
    simp only [pqEnqueueFront, ← hfront]
    rw [setSlot_of_lt _ hfront0 hfrontlt]
  rw [heq]
  refine ⟨⟨hfront0, hfrontlt, hr0, hr, hroom, ?_⟩, ?_⟩
  · simp only [hfront, maxProcesses, Int.ModEq] at *
    push_cast
    split_ifs <;> omega
  · simp only [live]
    rw [hslot, Ring.window_front_mod, Ring.window_push_front _ _ hroom]

/-- The front index is already reduced, so the peeked entry is the window's first one. -/
theorem live_succ {q : ProcessQueue} {count : Nat} (h : RingOk q (count + 1)) :
    q.live (count + 1) = pqPeak q :: Ring.window maxProcesses q.pcbs (q.front.toNat + 1) count := by
  have hfront : q.front.toNat < maxProcesses := by
    have := h.front_lt
    simp only [maxProcesses] at *
    omega
  rw [live, Ring.window_succ_front, Nat.mod_eq_of_lt hfront, pqPeak]

theorem pqPeak_eq_head {q : ProcessQueue} {count : Nat} (h : RingOk q count) (hpos : 0 < count) :
    (q.live count).head? = some (pqPeak q) := by
  obtain ⟨n, rfl⟩ : ∃ n, count = n + 1 := ⟨count - 1, by omega⟩
  rw [live_succ h, List.head?_cons]

theorem pqDequeue_spec {q : ProcessQueue} {count : Nat} (h : RingOk q (count + 1)) :
    RingOk (pqDequeue q).1 count ∧
      q.live (count + 1) = (pqDequeue q).2 :: (pqDequeue q).1.live count := by
  have hlive := live_succ h
  obtain ⟨hf0, hf, hr0, hr, hc, hs⟩ := h
  set front : Int := if q.front + 1 ≥ maxProcesses then 0 else q.front + 1 with hfront
  have hslot : front.toNat = (q.front.toNat + 1) % maxProcesses := by
    rw [hfront]
    simp only [maxProcesses] at *
    split_ifs <;> omega
  have heq : (pqDequeue q).1 = { q with front := front } := by
    simp only [pqDequeue, ← hfront]
  refine ⟨?_, ?_⟩
  · rw [heq]
    simp only [hfront, maxProcesses, Int.ModEq] at *
    push_cast at *
    constructor <;> simp only [maxProcesses, Int.ModEq] <;> (try split_ifs) <;> omega
  · rw [hlive, heq, live, hslot, Ring.window_front_mod]
    rfl

/-! ### Runs of queue operations -/

/-- An operation on the queue; a dequeue is labelled with the entry it returned. -/
inductive QueueEvent where
  | enqueue (processNum : Nat)
  | enqueueFront (thisPcb : Nat)
  | dequeue (returned : Nat)
  | rotate

/-- The queue and the number of its live entries. -/
structure LiveQueue where
  queue : ProcessQueue
  count : Nat

/-- The entries in service order. -/
def LiveQueue.entries (s : LiveQueue) : List Nat := s.queue.live s.count

def LiveQueue.init : LiveQueue := ⟨pqInit, 0⟩

/-- The operations as their callers may use them: none adds to a full queue or takes from an empty one. -/
inductive QueueStep : LiveQueue → QueueEvent → LiveQueue → Prop
  | enqueue {q : ProcessQueue} {count n : Nat} (hone : 1 ≤ n) (hmax : n ≤ maxProcesses)
      (hroom : count < maxProcesses) :
      QueueStep ⟨q, count⟩ (.enqueue n) ⟨(pqEnqueue q n).1, count + 1⟩
  | enqueueFront {q : ProcessQueue} {count : Nat} (p : Nat) (hroom : count < maxProcesses) :
      QueueStep ⟨q, count⟩ (.enqueueFront p) ⟨(pqEnqueueFront q p).1, count + 1⟩
  | dequeue {q : ProcessQueue} {count : Nat} :
      QueueStep ⟨q, count + 1⟩ (.dequeue (pqDequeue q).2) ⟨(pqDequeue q).1, count⟩
  | rotate {q : ProcessQueue} {count : Nat} (hpos : 0 < count) :
      QueueStep ⟨q, count⟩ .rotate ⟨pqRotate q, count⟩

/-- What the operations are for: a double-ended list of PCB pointers. -/
inductive DequeStep : List Nat → QueueEvent → List Nat → Prop
  | enqueue (l : List Nat) (n : Nat) : DequeStep l (.enqueue n) (l ++ [pcbAddr n])
  | enqueueFront (l : List Nat) (p : Nat) : DequeStep l (.enqueueFront p) (p :: l)
  | dequeue (l : List Nat) (p : Nat) : DequeStep (p :: l) (.dequeue p) l
  | rotate (l : List Nat) (p : Nat) : DequeStep (p :: l) .rotate (l ++ [p])

/-- The queue represents the list. -/
def Represents (s : LiveQueue) (l : List Nat) : Prop := RingOk s.queue s.count ∧ s.entries = l

theorem represents_init : Represents .init [] := ⟨ringOk_pqInit, rfl⟩

theorem represents_step {s s' : LiveQueue} {l : List Nat} {e : QueueEvent} (h : Represents s l)
    (hstep : QueueStep s e s') (hrotate : e ≠ .rotate) :
    ∃ l', DequeStep l e l' ∧ Represents s' l' := by
  obtain ⟨hok, rfl⟩ := h
  cases hstep with
  | enqueue hone hmax hroom =>
      obtain ⟨_, hok', hlive⟩ := pqEnqueue_spec hok hroom hmax
      exact ⟨_, .enqueue _ _, hok', hlive⟩
  | enqueueFront p hroom =>
      obtain ⟨hok', hlive⟩ := pqEnqueueFront_spec p hok hroom
      exact ⟨_, .enqueueFront _ _, hok', hlive⟩
  | dequeue =>
      obtain ⟨hok', hlive⟩ := pqDequeue_spec hok
      refine ⟨_, ?_, hok', rfl⟩
      rw [LiveQueue.entries, hlive]
      exact .dequeue _ _
  | rotate => exact absurd rfl hrotate

/-- A run that only adds and removes entries is a run of the double-ended list with the same
returned entries; the front entry of the list is the one `pq_peak` reads, and both indices stay in
the array, `count` places apart. -/
theorem queue_refines_deque {es : List QueueEvent} {s : LiveQueue}
    (hrun : Run (fun s e s' => QueueStep s e s' ∧ e ≠ .rotate) .init es s) :
    ∃ l, Run DequeStep [] es l ∧ s.entries = l ∧ l.length = s.count ∧
      (l ≠ [] → l.head? = some (pqPeak s.queue)) ∧
      0 ≤ s.queue.front ∧ s.queue.front < maxProcesses ∧
      0 ≤ s.queue.rear ∧ s.queue.rear < maxProcesses ∧
      s.queue.front ≡ s.queue.rear - s.count + 1 [ZMOD maxProcesses] := by
  obtain ⟨l, hlist, hok, rfl⟩ := hrun.simulation represents_init
    (fun s l e s' h hstep => represents_step h hstep.1 hstep.2)
  have hlen : s.entries.length = s.count := Ring.length_window _ _ _ _
  refine ⟨_, hlist, rfl, hlen, ?_, hok.front_nonneg, hok.front_lt, hok.rear_nonneg, hok.rear_lt,
    hok.spacing⟩
  intro hne
  exact pqPeak_eq_head hok (hlen ▸ List.length_pos_iff.mpr hne)

/-- A front push and a back push, then a pop that wraps `front` from the last slot to the first. -/
theorem queue_refines_deque_wrap :
    ∃ (s : LiveQueue) (l : List Nat),
      Run DequeStep [] [.enqueueFront (pcbAddr 2), .enqueueFront (pcbAddr 3), .enqueue 1,
        .dequeue (pcbAddr 3)] l ∧ s.entries = l ∧ s.queue.front = 0 ∧ s.queue.rear = 1 := by
  have h1 : Run (fun s e s' => QueueStep s e s' ∧ e ≠ .rotate) .init
      ([] ++ [.enqueueFront (pcbAddr 2)]) _ :=
    .snoc .nil ⟨.enqueueFront _ (by decide), by simp⟩
  have h2 := Run.snoc h1 ⟨.enqueueFront (pcbAddr 3) (by decide), by simp⟩
  have h3 := Run.snoc h2 ⟨.enqueue (n := 1) (by decide) (by decide) (by decide), by simp⟩
  have h4 := Run.snoc h3 ⟨.dequeue, by simp⟩
  obtain ⟨l, hlist, hentries, -⟩ := queue_refines_deque h4
  exact ⟨_, l, hlist, hentries, by decide, by decide⟩

end UnixOs
