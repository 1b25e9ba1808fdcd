import Mathlib

/-! Two cascaded 8259 interrupt controllers in the fully nested mode: the registers of each chip, what its two ports
do, and which line a pair of them delivers. The slave's output is line 2 of the master. -/

namespace UnixOs

/-- One chip. `step` is the number of the initialization word that is expected next, 0 when there is none. -/
structure Pic where
  irr : BitVec 8
  isr : BitVec 8
  imr : BitVec 8
  base : BitVec 8
  step : Nat

namespace Pic

/-- A byte at the command port: the start of an initialization, or a specific end of interrupt. -/
def command (c : Pic) (b : BitVec 8) : Pic :=
  if b.getLsbD 4 then { c with irr := 0, isr := 0, imr := 0, step := 2 }
  else if b.getLsbD 3 = false ∧ b >>> 5 = 3 then
    { c with isr := c.isr &&& ~~~BitVec.twoPow 8 (b &&& 7).toNat }
  else c

/-- A byte at the data port: the expected initialization word, or the mask. -/
def data (c : Pic) (b : BitVec 8) : Pic :=
  match c.step with
  | 2 => { c with base := b &&& 0xF8, step := 3 }
  | 3 => { c with step := 4 }
  | 4 => { c with step := 0 }
  | _ => { c with imr := b }

/-- A line can be delivered: it is requested, not masked, and no line from it up in priority is in service. -/
def ready (c : Pic) (requests : BitVec 8) (n : Nat) : Bool :=
  requests.getLsbD n && !c.imr.getLsbD n && (List.range (n + 1)).all fun i => !c.isr.getLsbD i

/-- The line of highest priority that can be delivered. -/
def pending (c : Pic) (requests : BitVec 8) : Option Nat := (List.range 8).find? fun n => c.ready requests n

/-- The processor takes a line: it is in service and no longer requested. -/
def accept (c : Pic) (n : Nat) : Pic :=
  { c with isr := c.isr ||| BitVec.twoPow 8 n, irr := c.irr &&& ~~~BitVec.twoPow 8 n }

def request (c : Pic) (n : Nat) : Pic := { c with irr := c.irr ||| BitVec.twoPow 8 n }

end Pic

/-- The pair. -/
structure Pics where
  master : Pic
  slave : Pic

namespace Pics

/-- The lines of the master: its own, and the output of the slave on line 2. -/
def masterRequests (p : Pics) : BitVec 8 :=
  (p.master.irr &&& ~~~BitVec.twoPow 8 2) |||
    if (p.slave.pending p.slave.irr).isSome then BitVec.twoPow 8 2 else 0

/-- The line that the pair delivers, numbered from 0 to 15. -/
def pending (p : Pics) : Option Nat :=
  match p.master.pending p.masterRequests with
  | some 2 => (p.slave.pending p.slave.irr).map (· + 8)
  | line => line

def accept (p : Pics) (n : Nat) : Pics :=
  if n < 8 then { p with master := p.master.accept n }
  else { master := p.master.accept 2, slave := p.slave.accept (n - 8) }

/-- The vector that the processor is given. -/
def vector (p : Pics) (n : Nat) : Nat :=
  if n < 8 then p.master.base.toNat + n else p.slave.base.toNat + (n - 8)

def request (p : Pics) (n : Nat) : Pics :=
  if n < 8 then { p with master := p.master.request n } else { p with slave := p.slave.request (n - 8) }

end Pics

/-- The priority of a line of the pair, as a line of the master. -/
def picLevel (n : Nat) : Nat := if n < 8 then n else 2

section Lines

variable {c : Pic} {requests : BitVec 8} {p : Pics} {n : Nat}

theorem picLevel_lt (n : Nat) : picLevel n < 8 := by
  unfold picLevel
  split_ifs with h
  · exact h
  · decide

theorem getLsbD_set (r : BitVec 8) (n : Nat) {i : Nat} (hi : i < 8) :
    (r ||| BitVec.twoPow 8 n).getLsbD i = true ↔ r.getLsbD i = true ∨ i = n := by
  rw [BitVec.getLsbD_or, Bool.or_eq_true, BitVec.getLsbD_twoPow, Bool.and_eq_true, decide_eq_true_eq, decide_eq_true_eq]
  constructor
  · rintro (hr | ⟨-, rfl⟩)
    · exact .inl hr
    · exact .inr rfl
  · rintro (hr | rfl)
    · exact .inl hr
    · exact .inr ⟨hi, rfl⟩

theorem getLsbD_clear (r : BitVec 8) (n : Nat) {i : Nat} (hi : i < 8) :
    (r &&& ~~~BitVec.twoPow 8 n).getLsbD i = true ↔ r.getLsbD i = true ∧ i ≠ n := by
  rw [BitVec.getLsbD_and, Bool.and_eq_true, BitVec.getLsbD_not, BitVec.getLsbD_twoPow]
  simp only [hi, decide_true, Bool.true_and, Bool.not_eq_true', Bool.and_eq_false_imp, decide_eq_true_eq,
    decide_eq_false_iff_not]
  refine and_congr_right fun _ => ⟨fun h heq => h (heq ▸ hi) heq.symm, fun h _ heq => h heq.symm⟩

theorem pending_spec (h : c.pending requests = some n) :
    n < 8 ∧ requests.getLsbD n = true ∧ c.imr.getLsbD n = false ∧ ∀ i ≤ n, c.isr.getLsbD i = false := by
  have hmem := List.mem_of_find?_eq_some h
  have hready := List.find?_some h
  rw [List.mem_range] at hmem
  rw [Pic.ready, Bool.and_eq_true, Bool.and_eq_true, Bool.not_eq_true', List.all_eq_true] at hready
  refine ⟨hmem, hready.1.1, hready.1.2, fun i hi => ?_⟩
  have hfree := hready.2 i (List.mem_range.mpr (Nat.lt_succ_of_le hi))
  rwa [Bool.not_eq_true'] at hfree

/-- A line that the pair delivers: its level is above every level in service at the master, and behind the master
no line of the slave of its priority or higher is in service. -/
theorem pics_pending_spec (h : p.pending = some n) :
    n < 16 ∧ n ≠ 2 ∧ (∀ i ≤ picLevel n, p.master.isr.getLsbD i = false) ∧
      (8 ≤ n → ∀ i ≤ n - 8, p.slave.isr.getLsbD i = false) := by
  unfold Pics.pending at h
  split at h
  · rename_i hmaster
    obtain ⟨m, hslave, rfl⟩ := Option.map_eq_some_iff.mp h
    obtain ⟨hm, -, -, hfree⟩ := pending_spec hslave
    obtain ⟨-, -, -, hfree'⟩ := pending_spec hmaster
    have hlevel : picLevel (m + 8) = 2 := if_neg (by omega)
    refine ⟨by omega, by omega, fun i hi => hfree' i (by omega), fun _ i hi => hfree i (by omega)⟩
  · rename_i hne
    obtain ⟨hn, -, -, hfree⟩ := pending_spec h
    have hlevel : picLevel n = n := if_pos hn
    refine ⟨by omega, ?_, fun i hi => hfree i (by omega), fun hge => absurd hge (by omega)⟩
    rintro rfl
    exact hne h

/-- A line waits at the pair: it is requested and masked nowhere on its way. -/
def Pics.Waiting (p : Pics) (n : Nat) : Prop :=
  if n < 8 then n ≠ 2 ∧ p.master.irr.getLsbD n = true ∧ p.master.imr.getLsbD n = false
  else n < 16 ∧ p.slave.irr.getLsbD (n - 8) = true ∧ p.slave.imr.getLsbD (n - 8) = false ∧
    p.master.imr.getLsbD 2 = false

theorem pending_isSome (hn : n < 8) (hrequested : requests.getLsbD n = true) (hopen : c.imr.getLsbD n = false)
    (hidle : c.isr = 0) : (c.pending requests).isSome := by
  rw [Pic.pending, List.find?_isSome]
  refine ⟨n, List.mem_range.mpr hn, ?_⟩
  rw [Pic.ready, hrequested, hopen, hidle]
  simp

/-- With nothing in service, a line that waits makes the pair deliver one. -/
theorem pics_pending_isSome (hwaiting : p.Waiting n) (hmaster : p.master.isr = 0) (hslave : p.slave.isr = 0) :
    p.pending.isSome := by
  have hsome : (p.master.pending p.masterRequests).isSome := by
    unfold Pics.Waiting at hwaiting
    split_ifs at hwaiting with hn
    · refine pending_isSome hn ?_ hwaiting.2.2 hmaster
      have hclear := (getLsbD_clear p.master.irr 2 hn).mpr ⟨hwaiting.2.1, hwaiting.1⟩
      rw [Pics.masterRequests, BitVec.getLsbD_or, hclear, Bool.true_or]
    · have hout : (p.slave.pending p.slave.irr).isSome :=
        pending_isSome (by omega) hwaiting.2.1 hwaiting.2.2.1 hslave
      refine pending_isSome (show 2 < 8 by decide) ?_ hwaiting.2.2.2 hmaster
      rw [Pics.masterRequests, if_pos hout, BitVec.getLsbD_or]
      simp
  unfold Pics.pending
  split
  · rename_i hline
    obtain ⟨-, hrequested, -, -⟩ := pending_spec hline
    by_contra hnone
    have hquiet : ¬ (p.slave.pending p.slave.irr).isSome := by
      rwa [Option.isSome_map] at hnone
    rw [Pics.masterRequests, if_neg hquiet] at hrequested
    simp at hrequested
  · exact hsome

end Lines

end UnixOs
