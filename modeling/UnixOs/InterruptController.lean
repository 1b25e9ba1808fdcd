import UnixOs.LabelledRun
import UnixOs.PicDevice

/-! The interrupt controllers as the kernel drives them: `i8259.c`, the gates of `idt.c` and the way of a device
interrupt through `handler.S` and `pic_handler`. The gates of the devices leave interrupts enabled, and the keyboard
handler enables them itself, so that handlers nest. A line without a gate raises the exception of a segment that is
not present, whose handler does not return. -/

namespace UnixOs

namespace Pics

/-- `outb` to one of the four ports; the other ports are not the controllers'. -/
def outb (p : Pics) (b : BitVec 8) (port : Nat) : Pics :=
  match port with
  | 0x20 => { p with master := p.master.command b }
  | 0x21 => { p with master := p.master.data b }
  | 0xA0 => { p with slave := p.slave.command b }
  | 0xA1 => { p with slave := p.slave.data b }
  | _ => p

/-- `i8259_init` -/
def i8259Init (p : Pics) : Pics :=
  let p := p.outb 0x11 0x20
  let p := p.outb 0x20 0x21
  let p := p.outb 0x04 0x21
  let p := p.outb 0x01 0x21
  let p := p.outb 0x11 0xA0
  let p := p.outb 0x28 0xA1
  let p := p.outb 0x02 0xA1
  p.outb 0x01 0xA1

/-- `enable_irq`; a read of a data port is the mask. -/
def enableIrq (p : Pics) (irqNum : Nat) : Pics :=
  if irqNum ≥ 8 then p.outb (p.slave.imr &&& ~~~BitVec.twoPow 8 (irqNum - 8)) 0xA1
  else p.outb (p.master.imr &&& ~~~BitVec.twoPow 8 irqNum) 0x21

/-- `disable_irq` -/
def disableIrq (p : Pics) (irqNum : Nat) : Pics :=
  if irqNum ≥ 8 then p.outb (p.slave.imr ||| BitVec.twoPow 8 (irqNum - 8)) 0xA1
  else p.outb (p.master.imr ||| BitVec.twoPow 8 irqNum) 0x21

/-- `send_eoi`; for a line of the slave it calls itself with `IRQ_CAS`. -/
def sendEoi (p : Pics) (irqNum : Nat) : Pics :=
  if irqNum ≥ 8 then (p.outb (0x60 ||| BitVec.ofNat 8 (irqNum - 8)) 0xA0).outb (0x60 ||| 2) 0x20
  else p.outb (0x60 ||| BitVec.ofNat 8 irqNum) 0x20

end Pics

/-! ### The gates -/

/-- `idt_desc_t` -/
structure IdtDesc where
  offset15_00 : BitVec 16
  segSelector : BitVec 16
  reserved4 : BitVec 8
  reserved3 : BitVec 1
  reserved2 : BitVec 1
  reserved1 : BitVec 1
  size : BitVec 1
  reserved0 : BitVec 1
  dpl : BitVec 2
  present : BitVec 1
  offset31_16 : BitVec 16

/-- `idt_set_vector` -/
def idtSetVector (vec : Nat) (dpl : BitVec 2) (handler : BitVec 32) : IdtDesc where
  offset15_00 := (handler &&& 0xFFFF).setWidth 16
  segSelector := 0x10
  reserved4 := 0
  reserved3 := if vec = 128 then 0 else 1
  reserved2 := 1
  reserved1 := 1
  size := 1
  reserved0 := 0
  dpl := dpl
  present := 1
  offset31_16 := ((handler &&& 0xFFFF0000) >>> 16).setWidth 16

/-- The four bits in which the processor finds the kind of a gate. -/
def IdtDesc.kind (d : IdtDesc) : BitVec 4 := d.size ++ d.reserved1 ++ d.reserved2 ++ d.reserved3

/-- An interrupt gate disables interrupts, a trap gate does not. -/
def IdtDesc.isTrap (d : IdtDesc) : Bool := d.kind = 0b1111

/-- Where the processor continues. -/
def IdtDesc.offset (d : IdtDesc) : BitVec 32 := d.offset31_16 ++ d.offset15_00

/-- The routines of `handler.S`. -/
inductive Stub where
  | exception (n : Nat)
  | irq (n : Nat)
  | syscall
  deriving DecidableEq

/-- The vectors that `idt_init` sets, with the privilege level and the routine. -/
def idtVectors : List (Nat × BitVec 2 × Stub) :=
  (List.range 32).map (fun n => (n, if n = 4 ∨ n = 5 then 3 else 0, Stub.exception n)) ++
    [0, 1, 2, 3, 4, 6, 8, 10, 11, 12, 13, 14, 15].map (fun n => (32 + n, 0, Stub.irq n)) ++ [(128, 3, Stub.syscall)]

/-- The table after `idt_init`, with the addresses of the routines; the other vectors are not present. -/
def idtInit (address : Stub → BitVec 32) (vec : Nat) : Option IdtDesc :=
  (idtVectors.find? fun v => v.1 = vec).map fun v => idtSetVector vec v.2.1 (address v.2.2)

/-- The routine of a vector. -/
def idtStub (vec : Nat) : Option Stub := (idtVectors.find? fun v => v.1 = vec).map fun v => v.2.2

/-- Where the processor continues for a vector: a gate that is not present raises exception 11. -/
def enteredStub (vec : Nat) : Stub := (idtStub vec).getD (.exception 11)

theorem offset_halves (a : BitVec 32) :
    ((a &&& 0xFFFF0000) >>> 16).setWidth 16 ++ (a &&& 0xFFFF).setWidth 16 = a := by
  have hmask : ∀ b : BitVec 32, (b &&& 0xFFFF).setWidth 16 = b.setWidth 16 := by
    intro b
    apply BitVec.eq_of_toNat_eq
    have hmod : b.toNat &&& (2 ^ 16 - 1) = b.toNat % 2 ^ 16 := Nat.and_two_pow_sub_one_eq_mod _ _
    rw [BitVec.toNat_setWidth, BitVec.toNat_and, BitVec.toNat_setWidth]
    change (b.toNat &&& (2 ^ 16 - 1)) % 2 ^ 16 = _
    rw [hmod, Nat.mod_mod]
  have hhigh : (a &&& 0xFFFF0000) >>> 16 = a >>> 16 &&& 0xFFFF := BitVec.ushiftRight_and_distrib _ _ _
  rw [hhigh, hmask, hmask]
  apply BitVec.eq_of_getLsbD_eq
  intro i hi
  rw [BitVec.getLsbD_append]
  by_cases hlow : i < 16
  · simp [hlow]
  · simp [hlow, show i - 16 < 16 by omega, show 16 + (i - 16) = i by omega]

/-- A gate that was set leads to its routine; only the system call's disables interrupts, and a user program can
only raise that one and the two of `into` and `bound`. -/
theorem idt_gates {address : Stub → BitVec 32} {vec : Nat} {d : IdtDesc} (h : idtInit address vec = some d) :
    (∃ stub, idtStub vec = some stub ∧ d.offset = address stub) ∧ (d.isTrap = false ↔ vec = 128) ∧
      (d.dpl = 3 ↔ vec = 4 ∨ vec = 5 ∨ vec = 128) := by
  obtain ⟨v, hfind, rfl⟩ := Option.map_eq_some_iff.mp h
  have hmem := List.mem_of_find?_eq_some hfind
  have hvec : decide (v.1 = vec) = true :=
    List.find?_some (p := fun w : Nat × BitVec 2 × Stub => decide (w.1 = vec)) hfind
  rw [decide_eq_true_eq] at hvec
  refine ⟨⟨v.2.2, by rw [idtStub, hfind, Option.map_some], offset_halves _⟩, ?_, ?_⟩
  · rw [IdtDesc.isTrap, IdtDesc.kind, idtSetVector, decide_eq_false_iff_not]
    by_cases hsys : vec = 128
    · simp [hsys]
    · simp [hsys]
  · have hall : ∀ v ∈ idtVectors, v.2.1 = 3 ↔ v.1 = 4 ∨ v.1 = 5 ∨ v.1 = 128 := by decide
    rw [← hvec]
    exact hall v hmem

example : (idtSetVector 128 3 0x00401234).offset = 0x00401234 ∧ (idtSetVector 128 3 0x00401234).isTrap = false := by
  decide

/-- The lines whose vectors `idt_init` does not set. -/
def ungatedLines : List Nat := [5, 7, 9]

/-- A line that has a gate has the routine of its own number. -/
theorem enteredStub_line {n : Nat} (hn : n < 16) :
    enteredStub (32 + n) = if n ∈ ungatedLines then .exception 11 else .irq n := by
  have hall : ∀ n < 16, enteredStub (32 + n) = if n ∈ ungatedLines then .exception 11 else .irq n := by decide
  exact hall n hn

theorem irq_of_entered {n k : Nat} (hn : n < 16) (h : enteredStub (32 + n) = .irq k) : k = n := by
  rw [enteredStub_line hn] at h
  split_ifs at h
  exact (Stub.irq.inj h).symm

/-! ### Nested handlers -/

/-- A handler on the kernel's stack: the line that was taken, its routine, whether interrupts are enabled in it, and
whether it has sent its end of interrupt. -/
structure IrqFrame where
  irq : Nat
  routine : Stub
  enabled : Bool
  acked : Bool

/-- The controllers and the handlers on the stack, the running one first. -/
structure IrqCpu where
  pics : Pics
  stack : List IrqFrame

inductive IrqEvent where
  | request (n : Nat)
  | accept (n : Nat)
  | cli
  | sti
  | eoi (n : Nat)
  | iret
  | enable (n : Nat)
  | disable (n : Nat)

/-- Interrupts are enabled in the running handler, or outside all of them. -/
def Interruptible : List IrqFrame → Prop
  | [] => True
  | f :: _ => f.enabled = true

/-- What a device, the processor and the running handler can do next. The handler of a line sends its end of interrupt
once, for the number that its routine pushed, and returns with interrupts disabled, as `restore_flags` leaves them; the
handler of the exception disables interrupts and spins. -/
inductive IrqStep : IrqCpu → IrqEvent → IrqCpu → Prop
  | request (s : IrqCpu) (n : Nat) : IrqStep s (.request n) { s with pics := s.pics.request n }
  | accept {s : IrqCpu} {n : Nat} (hopen : Interruptible s.stack) (hpending : s.pics.pending = some n) :
      IrqStep s (.accept n) ⟨s.pics.accept n, ⟨n, enteredStub (s.pics.vector n),
        (idtSetVector (s.pics.vector n) 0 0).isTrap, false⟩ :: s.stack⟩
  | cli {s : IrqCpu} {f : IrqFrame} {rest : List IrqFrame} (htop : s.stack = f :: rest) :
      IrqStep s .cli { s with stack := { f with enabled := false } :: rest }
  | sti {s : IrqCpu} {f : IrqFrame} {rest : List IrqFrame} {k : Nat} (htop : s.stack = f :: rest)
      (hirq : f.routine = .irq k) : IrqStep s .sti { s with stack := { f with enabled := true } :: rest }
  | eoi {s : IrqCpu} {f : IrqFrame} {rest : List IrqFrame} {k : Nat} (htop : s.stack = f :: rest)
      (hirq : f.routine = .irq k) (honce : f.acked = false) :
      IrqStep s (.eoi k) ⟨s.pics.sendEoi k, { f with acked := true } :: rest⟩
  | iret {s : IrqCpu} {f : IrqFrame} {rest : List IrqFrame} (htop : s.stack = f :: rest) (hacked : f.acked = true)
      (hclosed : f.enabled = false) : IrqStep s .iret { s with stack := rest }
  | enable (s : IrqCpu) (n : Nat) : IrqStep s (.enable n) { s with pics := s.pics.enableIrq n }
  | disable (s : IrqCpu) (n : Nat) : IrqStep s (.disable n) { s with pics := s.pics.disableIrq n }

/-- The handlers that have not sent their end of interrupt. -/
def activeFrames (stack : List IrqFrame) : List IrqFrame := stack.filter fun f => !f.acked

/-- The in-service bits are exactly those of the active handlers, and a handler is only interrupted by one of higher
priority. -/
structure InService (s : IrqCpu) : Prop where
  programmed : (s.pics.master.step = 0 ∧ s.pics.master.base = 0x20) ∧ s.pics.slave.step = 0 ∧ s.pics.slave.base = 0x28
  lines : ∀ f ∈ activeFrames s.stack, (f.irq < 16 ∧ f.irq ≠ 2) ∧ f.routine = enteredStub (32 + f.irq)
  nested : (activeFrames s.stack).Pairwise fun f g => picLevel f.irq < picLevel g.irq
  master : ∀ i < 8, s.pics.master.isr.getLsbD i = true ↔ ∃ f ∈ activeFrames s.stack, picLevel f.irq = i
  slave : ∀ i < 8, s.pics.slave.isr.getLsbD i = true ↔ ∃ f ∈ activeFrames s.stack, f.irq = i + 8

section Nesting

variable {p : Pics} {s s' : IrqCpu} {e : IrqEvent} {n : Nat}

theorem i8259Init_eq (p : Pics) : p.i8259Init = ⟨⟨0, 0, 0, 0x20, 0⟩, ⟨0, 0, 0, 0x28, 0⟩⟩ := rfl

theorem command_eoi (c : Pic) (hn : n < 8) :
    c.command (0x60 ||| BitVec.ofNat 8 n) = { c with isr := c.isr &&& ~~~BitVec.twoPow 8 n } := by
  have hbyte : ∀ n < 8, ((0x60 : BitVec 8) ||| BitVec.ofNat 8 n).getLsbD 4 = false ∧
      (((0x60 : BitVec 8) ||| BitVec.ofNat 8 n).getLsbD 3 = false ∧ ((0x60 : BitVec 8) ||| BitVec.ofNat 8 n) >>> 5 = 3) ∧
      (((0x60 : BitVec 8) ||| BitVec.ofNat 8 n) &&& 7).toNat = n := by decide
  obtain ⟨hinit, heoi, hlevel⟩ := hbyte n hn
  rw [Pic.command, if_neg (by rw [hinit]; exact Bool.false_ne_true), if_pos heoi, hlevel]

theorem sendEoi_master (hn : n < 8) :
    p.sendEoi n = { p with master := { p.master with isr := p.master.isr &&& ~~~BitVec.twoPow 8 n } } := by
  rw [Pics.sendEoi, if_neg (by omega), ← command_eoi p.master hn]
  rfl

theorem sendEoi_slave (hlow : 8 ≤ n) (hhigh : n < 16) :
    p.sendEoi n = ⟨{ p.master with isr := p.master.isr &&& ~~~BitVec.twoPow 8 2 },
      { p.slave with isr := p.slave.isr &&& ~~~BitVec.twoPow 8 (n - 8) }⟩ := by
  rw [Pics.sendEoi, if_pos hlow, ← command_eoi p.master (show 2 < 8 by decide), ← command_eoi p.slave (by omega)]
  rfl

/-- Once the controllers are programmed, a mask write changes the masks only. -/
theorem mask_write (hmaster : p.master.step = 0) (hslave : p.slave.step = 0) (b : BitVec 8) {port : Nat}
    (hport : port = 0x21 ∨ port = 0xA1) :
    ∃ m m', p.outb b port = ⟨{ p.master with imr := m }, { p.slave with imr := m' }⟩ := by
  obtain ⟨⟨irr, isr, imr, base, step⟩, ⟨irr', isr', imr', base', step'⟩⟩ := p
  obtain rfl : step = 0 := hmaster
  obtain rfl : step' = 0 := hslave
  rcases hport with rfl | rfl
  · exact ⟨b, imr', rfl⟩
  · exact ⟨imr, b, rfl⟩

/-- The registers that the invariant reads, before and after a step that leaves the stack alone. -/
theorem InService.congr (h : InService s) {q : Pics} (hmaster : q.master.isr = s.pics.master.isr)
    (hslave : q.slave.isr = s.pics.slave.isr)
    (hsteps : q.master.step = s.pics.master.step ∧ q.slave.step = s.pics.slave.step)
    (hbases : q.master.base = s.pics.master.base ∧ q.slave.base = s.pics.slave.base) :
    InService { s with pics := q } where
  programmed := by
    rw [hsteps.1, hsteps.2, hbases.1, hbases.2]
    exact h.programmed
  lines := h.lines
  nested := h.nested
  master i hi := by
    rw [hmaster]
    exact h.master i hi
  slave i hi := by
    rw [hslave]
    exact h.slave i hi

/-- Nothing that the invariant reads of a stack but its active frames. -/
theorem InService.restack (h : InService s) {stack : List IrqFrame}
    (hsame : (activeFrames stack).map (fun f => (f.irq, f.routine)) =
      (activeFrames s.stack).map fun f => (f.irq, f.routine)) : InService { s with stack := stack } := by
  have hlines : (activeFrames stack).map IrqFrame.irq = (activeFrames s.stack).map IrqFrame.irq := by
    have hfirst := congrArg (List.map Prod.fst) hsame
    rwa [List.map_map, List.map_map] at hfirst
  have hex : ∀ P : Nat → Prop, (∃ f ∈ activeFrames stack, P f.irq) ↔ ∃ f ∈ activeFrames s.stack, P f.irq := by
    intro P
    have hmem : ∀ fs : List IrqFrame, (∃ f ∈ fs, P f.irq) ↔ ∃ n ∈ fs.map IrqFrame.irq, P n := fun fs => by simp
    rw [hmem, hmem, hlines]
  refine ⟨h.programmed, fun f hf => ?_, ?_, fun i hi => ?_, fun i hi => ?_⟩
  · have hf' : (f.irq, f.routine) ∈ (activeFrames s.stack).map fun f => (f.irq, f.routine) :=
      hsame ▸ List.mem_map.mpr ⟨f, hf, rfl⟩
    obtain ⟨g, hg, heq⟩ := List.mem_map.mp hf'
    obtain ⟨hirq, hroutine⟩ := Prod.mk.inj heq
    rw [← hirq, ← hroutine]
    exact h.lines g hg
  · have hpairs := h.nested
    rw [← List.pairwise_map (R := fun m n => picLevel m < picLevel n)] at hpairs ⊢
    rwa [hlines]
  · exact (h.master i hi).trans (hex fun n => picLevel n = i).symm
  · exact (h.slave i hi).trans (hex fun n => n = i + 8).symm

theorem vector_eq (h : InService s) (hn : n < 16) : s.pics.vector n = 32 + n := by
  obtain ⟨⟨-, hmaster⟩, -, hslave⟩ := h.programmed
  rw [Pics.vector, hmaster, hslave]
  split_ifs with hlow
  · rfl
  · change 40 + (n - 8) = 32 + n
    omega

theorem InService.accept {enabled : Bool} (h : InService s) (hpending : s.pics.pending = some n) :
    InService ⟨s.pics.accept n, ⟨n, enteredStub (s.pics.vector n), enabled, false⟩ :: s.stack⟩ := by
  obtain ⟨hlt, hne, hfree, -⟩ := pics_pending_spec hpending
  rw [vector_eq h hlt]
  generalize hframe : (⟨n, enteredStub (32 + n), enabled, false⟩ : IrqFrame) = frame
  have hirq : frame.irq = n := by rw [← hframe]
  have hactive : activeFrames (frame :: s.stack) = frame :: activeFrames s.stack := by
    rw [activeFrames, List.filter_cons_of_pos (by rw [← hframe]; rfl)]
    rfl
  have hmaster : (s.pics.accept n).master.isr = s.pics.master.isr ||| BitVec.twoPow 8 (picLevel n) := by
    unfold Pics.accept picLevel
    split_ifs <;> rfl
  have hslave : (s.pics.accept n).slave.isr =
      if n < 8 then s.pics.slave.isr else s.pics.slave.isr ||| BitVec.twoPow 8 (n - 8) := by
    unfold Pics.accept
    split_ifs <;> rfl
  refine ⟨?_, fun f hf => ?_, ?_, fun i hi => ?_, fun i hi => ?_⟩
  · have hprogrammed := h.programmed
    unfold Pics.accept
    split_ifs <;> exact hprogrammed
  · rcases List.mem_cons.mp (hactive ▸ hf) with rfl | hf
    · rw [← hframe]
      exact ⟨⟨hlt, hne⟩, rfl⟩
    · exact h.lines f hf
  · change (activeFrames (frame :: s.stack)).Pairwise _
    rw [hactive, List.pairwise_cons]
    refine ⟨fun g hg => ?_, h.nested⟩
    rw [hirq]
    by_contra hle
    have hset := (h.master _ (picLevel_lt g.irq)).mpr ⟨g, hg, rfl⟩
    rw [hfree _ (Nat.le_of_not_lt hle)] at hset
    exact absurd hset Bool.false_ne_true
  · change (s.pics.accept n).master.isr.getLsbD i = true ↔ ∃ f ∈ activeFrames (frame :: s.stack), _
    rw [hmaster, getLsbD_set _ _ hi, h.master i hi, hactive, List.exists_mem_cons_iff, or_comm, hirq]
    exact or_congr_left eq_comm
  · change (s.pics.accept n).slave.isr.getLsbD i = true ↔ ∃ f ∈ activeFrames (frame :: s.stack), _
    rw [hslave, hactive, List.exists_mem_cons_iff, hirq]
    split_ifs with hlow
    · rw [h.slave i hi]
      exact ⟨.inr, fun hor => hor.resolve_left (by omega)⟩
    · rw [getLsbD_set _ _ hi, h.slave i hi, or_comm]
      exact or_congr_left (by omega)

theorem InService.eoi {f : IrqFrame} {rest : List IrqFrame} {k : Nat} (h : InService s) (htop : s.stack = f :: rest)
    (hirq : f.routine = .irq k) (honce : f.acked = false) :
    InService ⟨s.pics.sendEoi k, { f with acked := true } :: rest⟩ := by
  have hbefore : activeFrames s.stack = f :: activeFrames rest := by
    rw [htop, activeFrames, List.filter_cons_of_pos (by rw [honce]; rfl)]
    rfl
  have hafter : activeFrames ({ f with acked := true } :: rest) = activeFrames rest := rfl
  obtain ⟨⟨hlt, hne⟩, hroutine⟩ := h.lines f (hbefore ▸ List.mem_cons_self)
  obtain rfl : k = f.irq := irq_of_entered hlt (hroutine.symm.trans hirq)
  have hnested := h.nested
  rw [hbefore, List.pairwise_cons] at hnested
  -- no other active handler has the level of the one that ends
  have hother : ∀ g ∈ activeFrames rest, picLevel g.irq ≠ picLevel f.irq := fun g hg => (hnested.1 g hg).ne'
  have hmaster : (s.pics.sendEoi f.irq).master.isr = s.pics.master.isr &&& ~~~BitVec.twoPow 8 (picLevel f.irq) := by
    unfold picLevel
    split_ifs with hlow
    · rw [sendEoi_master hlow]
    · rw [sendEoi_slave (by omega) hlt]
  refine ⟨?_, fun g hg => ?_, hnested.2, fun i hi => ?_, fun i hi => ?_⟩
  · have hprogrammed := h.programmed
    by_cases hlow : f.irq < 8
    · rw [sendEoi_master hlow]
      exact hprogrammed
    · rw [sendEoi_slave (by omega) hlt]
      exact hprogrammed
  · exact h.lines g (hbefore ▸ List.mem_cons_of_mem _ hg)
  · change (s.pics.sendEoi f.irq).master.isr.getLsbD i = true ↔ ∃ g ∈ activeFrames rest, _
    rw [hmaster, getLsbD_clear _ _ hi, h.master i hi, hbefore, List.exists_mem_cons_iff]
    constructor
    · rintro ⟨hhere | hthere, hnot⟩
      · exact absurd hhere.symm hnot
      · exact hthere
    · rintro ⟨g, hg, rfl⟩
      exact ⟨.inr ⟨g, hg, rfl⟩, hother g hg⟩
  · change (s.pics.sendEoi f.irq).slave.isr.getLsbD i = true ↔ ∃ g ∈ activeFrames rest, _
    have hold := h.slave i hi
    rw [hbefore, List.exists_mem_cons_iff] at hold
    by_cases hlow : f.irq < 8
    · rw [sendEoi_master hlow]
      exact hold.trans ⟨fun hor => hor.resolve_left (by omega), .inr⟩
    · rw [sendEoi_slave (by omega) hlt, getLsbD_clear _ _ hi, hold]
      constructor
      · rintro ⟨hhere | hthere, hnot⟩
        · exact absurd (by omega) hnot
        · exact hthere
      · rintro ⟨g, hg, hirq⟩
        -- two lines of the slave have one level
        have hlevel : picLevel g.irq = picLevel f.irq := by
          rw [picLevel, picLevel, if_neg (by omega), if_neg hlow]
        exact absurd hlevel (hother g hg)

theorem activeFrames_top {f f' : IrqFrame} (rest : List IrqFrame) (hirq : f'.irq = f.irq)
    (hroutine : f'.routine = f.routine) (hacked : f'.acked = f.acked) :
    (activeFrames (f' :: rest)).map (fun f => (f.irq, f.routine)) =
      (activeFrames (f :: rest)).map fun f => (f.irq, f.routine) := by
  cases hf : f.acked with
  | false =>
      rw [activeFrames, activeFrames, List.filter_cons_of_pos (by rw [hacked, hf]; rfl),
        List.filter_cons_of_pos (by rw [hf]; rfl), List.map_cons, List.map_cons, hirq, hroutine]
  | true =>
      rw [activeFrames, activeFrames, List.filter_cons_of_neg (by rw [hacked, hf]; decide),
        List.filter_cons_of_neg (by rw [hf]; decide)]

theorem InService.masks (h : InService s) (b : BitVec 8) {port : Nat} (hport : port = 0x21 ∨ port = 0xA1) :
    InService { s with pics := s.pics.outb b port } := by
  obtain ⟨m, m', hwrite⟩ := mask_write h.programmed.1.1 h.programmed.2.1 b hport
  rw [hwrite]
  exact h.congr rfl rfl ⟨rfl, rfl⟩ ⟨rfl, rfl⟩

theorem IrqStep.inService (h : InService s) (hstep : IrqStep s e s') : InService s' := by
  cases hstep with
  | request n =>
      unfold Pics.request
      split_ifs
      · exact h.congr rfl rfl ⟨rfl, rfl⟩ ⟨rfl, rfl⟩
      · exact h.congr rfl rfl ⟨rfl, rfl⟩ ⟨rfl, rfl⟩
  | accept _ hpending => exact h.accept hpending
  | cli htop => exact h.restack (by rw [htop]; exact activeFrames_top _ rfl rfl rfl)
  | sti htop _ => exact h.restack (by rw [htop]; exact activeFrames_top _ rfl rfl rfl)
  | eoi htop hirq honce => exact h.eoi htop hirq honce
  | iret htop hacked _ =>
      refine h.restack ?_
      rw [htop, activeFrames, activeFrames, List.filter_cons_of_neg (by rw [hacked]; decide)]
  | enable n =>
      unfold Pics.enableIrq
      split_ifs
      · exact h.masks _ (.inr rfl)
      · exact h.masks _ (.inl rfl)
  | disable n =>
      unfold Pics.disableIrq
      split_ifs
      · exact h.masks _ (.inr rfl)
      · exact h.masks _ (.inl rfl)

theorem inService_init (p : Pics) : InService ⟨p.i8259Init, []⟩ := by
  rw [i8259Init_eq]
  refine ⟨⟨⟨rfl, rfl⟩, rfl, rfl⟩, fun f hf => absurd hf List.not_mem_nil, List.Pairwise.nil, fun i hi => ?_,
    fun i hi => ?_⟩
  · simp [activeFrames]
  · simp [activeFrames]

/-- The levels of the active handlers are distinct levels of the master. -/
theorem InService.length_le (h : InService s) : (activeFrames s.stack).length ≤ 8 := by
  have hnodup : ((activeFrames s.stack).map fun f => picLevel f.irq).Nodup := by
    rw [List.Nodup, List.pairwise_map]
    exact h.nested.imp Nat.ne_of_lt
  have hsub : ((activeFrames s.stack).map fun f => picLevel f.irq) ⊆ List.range 8 := by
    intro n hn
    obtain ⟨f, -, rfl⟩ := List.mem_map.mp hn
    exact List.mem_range.mpr (picLevel_lt f.irq)
  have hlength := (hnodup.subperm hsub).length_le
  rwa [List.length_map, List.length_range] at hlength

theorem InService.idle (h : InService s) (hnone : activeFrames s.stack = []) :
    s.pics.master.isr = 0 ∧ s.pics.slave.isr = 0 := by
  have hzero : ∀ r : BitVec 8, (∀ i < 8, ¬ r.getLsbD i = true) → r = 0 := by
    intro r hr
    apply BitVec.eq_of_getLsbD_eq
    intro i hi
    rw [Bool.eq_false_iff.mpr (hr i hi)]
    exact (BitVec.getLsbD_zero).symm
  refine ⟨hzero _ fun i hi hset => ?_, hzero _ fun i hi hset => ?_⟩
  · obtain ⟨f, hf, -⟩ := (h.master i hi).mp hset
    rw [hnone] at hf
    exact absurd hf List.not_mem_nil
  · obtain ⟨f, hf, -⟩ := (h.slave i hi).mp hset
    rw [hnone] at hf
    exact absurd hf List.not_mem_nil

/-- Above the frames of `below` there is one of an exception's handler. -/
def ExceptionAbove (v : Nat) (below : List IrqFrame) (s : IrqCpu) : Prop :=
  ∃ above f, s.stack = above ++ f :: below ∧ f.routine = .exception v ∧ f.acked = false

/-- The handler of an exception never leaves the stack. -/
theorem exception_stays {es : List IrqEvent} {f : IrqFrame} {below : List IrqFrame} {v : Nat}
    (hexception : f.routine = .exception v) (hacked : f.acked = false) (hstart : s.stack = f :: below)
    (hrun : Run IrqStep s es s') :
    ExceptionAbove v below s' := by
  have hfirst : ExceptionAbove v below s := ⟨[], f, hstart, hexception, hacked⟩
  refine hrun.invariant hfirst fun s₁ e s₂ hold hstep => ?_
  obtain ⟨above, f', hstack, hroutine, hkept⟩ := hold
  -- the frame on top is the exception's, or one above it
  have htop : ∀ {g : IrqFrame} {rest : List IrqFrame}, s₁.stack = g :: rest →
      (g = f' ∧ rest = below) ∨ ∃ above', rest = above' ++ f' :: below := by
    intro g rest hg
    cases above with
    | nil => exact .inl (List.cons.inj (hg.symm.trans hstack))
    | cons _ above' => exact .inr ⟨above', (List.cons.inj (hg.symm.trans hstack)).2⟩
  cases hstep with
  | request n => exact ⟨above, f', hstack, hroutine, hkept⟩
  | enable n => exact ⟨above, f', hstack, hroutine, hkept⟩
  | disable n => exact ⟨above, f', hstack, hroutine, hkept⟩
  | @accept n _ _ =>
      refine ⟨⟨n, enteredStub (s₁.pics.vector n), (idtSetVector (s₁.pics.vector n) 0 0).isTrap, false⟩ :: above, f', ?_,
        hroutine, hkept⟩
      rw [hstack]
      rfl
  | @cli g rest hg =>
      rcases htop hg with ⟨rfl, rfl⟩ | ⟨above', rfl⟩
      · exact ⟨[], { g with enabled := false }, rfl, hroutine, hkept⟩
      · exact ⟨_ :: above', f', rfl, hroutine, hkept⟩
  | @sti g rest k hg hirq =>
      rcases htop hg with ⟨rfl, rfl⟩ | ⟨above', rfl⟩
      · cases hirq.symm.trans hroutine
      · exact ⟨_ :: above', f', rfl, hroutine, hkept⟩
  | @eoi g rest k hg hirq honce =>
      rcases htop hg with ⟨rfl, rfl⟩ | ⟨above', rfl⟩
      · cases hirq.symm.trans hroutine
      · exact ⟨_ :: above', f', rfl, hroutine, hkept⟩
  | @iret g rest hg hdone hclosed =>
      rcases htop hg with ⟨rfl, rfl⟩ | ⟨above', rfl⟩
      · cases hdone.symm.trans hkept
      · exact ⟨above', f', rfl, hroutine, hkept⟩

/-- However interrupts arrive and nest, the controllers have in service exactly the lines whose handlers have not
ended yet, at most eight, each of higher priority than the ones it interrupted; when none is left and interrupts are
enabled, a line is taken if one waits; and a line that is taken enters the routine of its own number if it has a gate,
and otherwise the handler of the exception, which never leaves the stack. -/
theorem interrupts_balanced {es : List IrqEvent} (hrun : Run IrqStep ⟨p.i8259Init, []⟩ es s) :
    InService s ∧ (activeFrames s.stack).length ≤ 8 ∧
      (activeFrames s.stack = [] → Interruptible s.stack → (∃ n, s.pics.Waiting n) →
        ∃ n s', IrqStep s (.accept n) s') ∧
      ∀ n s', IrqStep s (.accept n) s' → ∃ f, s'.stack = f :: s.stack ∧ f.irq = n ∧
        (n ∉ ungatedLines → f.routine = .irq n) ∧
          (n ∈ ungatedLines → f.routine = .exception 11 ∧
            ∀ es' s'', Run IrqStep s' es' s'' → ∃ g ∈ s''.stack, g.routine = .exception 11) := by
  have h : InService s := hrun.invariant (inService_init p) fun _ _ _ h hstep => hstep.inService h
  refine ⟨h, h.length_le, fun hnone hopen hwaits => ?_, fun n s' hstep => ?_⟩
  · obtain ⟨n, hwaiting⟩ := hwaits
    obtain ⟨m, hpending⟩ := Option.isSome_iff_exists.mp (pics_pending_isSome hwaiting (h.idle hnone).1 (h.idle hnone).2)
    exact ⟨m, _, .accept hopen hpending⟩
  · cases hstep with
    | accept _ hpending =>
        have hlt := (pics_pending_spec hpending).1
        have hroutine := enteredStub_line hlt
        rw [← vector_eq h hlt] at hroutine
        refine ⟨_, rfl, rfl, fun hgate => hroutine.trans (if_neg hgate), fun hnone => ?_⟩
        have hexception := hroutine.trans (if_pos hnone)
        refine ⟨hexception, fun es' s'' hrest => ?_⟩
        obtain ⟨above, g, hstack, hg, -⟩ := exception_stays hexception rfl rfl hrest
        exact ⟨g, by rw [hstack]; simp, hg⟩

end Nesting

/-- Controllers that were never programmed. -/
def freshPics : Pics := ⟨⟨0, 0, 0, 0, 0⟩, ⟨0, 0, 0, 0, 0⟩⟩

/-- The keyboard interrupts the handler of the clock, and line 5 of an unknown device raises the exception behind
it. -/
theorem interrupts_balanced_nested : ∃ s, Run IrqStep ⟨freshPics.i8259Init, []⟩
    [.request 8, .accept 8, .request 1, .accept 1, .cli, .eoi 1, .iret, .cli, .eoi 8, .iret, .request 5, .accept 5] s ∧
      s.stack.map IrqFrame.routine = [.exception 11] ∧ InService s := by
  have hclock := (Run.nil.snoc (IrqStep.request ⟨freshPics.i8259Init, []⟩ 8)).snoc
    (IrqStep.accept trivial (show _ = some 8 by decide))
  have hkey := (hclock.snoc (IrqStep.request _ 1)).snoc
    (IrqStep.accept (show _ = true by decide) (show _ = some 1 by decide))
  have hended := ((hkey.snoc (.cli rfl)).snoc (.eoi rfl (show _ = Stub.irq 1 by decide) rfl)).snoc (.iret rfl rfl rfl)
  have hidle := ((hended.snoc (.cli rfl)).snoc (.eoi rfl (show _ = Stub.irq 8 by decide) rfl)).snoc (.iret rfl rfl rfl)
  have hrun := (hidle.snoc (IrqStep.request _ 5)).snoc (IrqStep.accept trivial (show _ = some 5 by decide))
  exact ⟨_, hrun, by decide, (interrupts_balanced hrun).1⟩

end UnixOs
