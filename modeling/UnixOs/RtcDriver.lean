import Mathlib
import UnixOs.LabelledRun

/-! The driver of the clock, `rtc.c` with `rtc_handler`. The functions of the driver and the interrupt handler share
the index port of the chip, so an interrupt between the index and the data would send the data to another register. -/

namespace UnixOs

/-- The registers that the driver reads and writes back. -/
inductive RtcReg where
  | a
  | b
  deriving DecidableEq

/-- `REG_A` and `REG_B` -/
def RtcReg.port : RtcReg → BitVec 8
  | .a => 0x0A
  | .b => 0x0B

/-- The chip: what the index port selects, registers A and B, and the flag in register C that a period sets and a read
clears. -/
structure Rtc where
  index : BitVec 8
  regA : BitVec 8
  regB : BitVec 8
  flag : Bool

namespace Rtc

/-- The interrupt line: the flag, when bit 6 of register B lets it through. -/
def line (r : Rtc) : Bool := r.flag && r.regB.getLsbD 6

/-- A byte at the data port; register C is not written. -/
def outData (r : Rtc) (b : BitVec 8) : Rtc :=
  if r.index = RtcReg.a.port then { r with regA := b }
  else if r.index = RtcReg.b.port then { r with regB := b }
  else r

/-- A read of the data port. Of register C it gives the flag in bits 6 and 7, and clears it. -/
def inData (r : Rtc) : BitVec 8 × Rtc :=
  if r.index = RtcReg.a.port then (r.regA, r)
  else if r.index = RtcReg.b.port then (r.regB, r)
  else if r.index = 0x0C then (if r.line then 0xC0 else if r.flag then 0x40 else 0, { r with flag := false })
  else (0, r)

/-- A period of the clock ends. -/
def period (r : Rtc) : Rtc := { r with flag := true }

end Rtc

/-! ### The driver -/

/-- What the functions of the driver do, in the order of the source. -/
inductive RtcInstr where
  | cli
  | sti
  | outIndex (reg : RtcReg)
  | inPrev
  | outPrev (keep value : BitVec 8)
  | setRead
  | spin

/-- A register is read and written back with some bits kept and some set. -/
def rtcUpdate (reg : RtcReg) (keep value : BitVec 8) : List RtcInstr :=
  [.cli, .outIndex reg, .inPrev, .outIndex reg, .outPrev keep value, .sti]

/-- `rtc_init`; its test variables are left out. -/
def rtcInit : List RtcInstr := rtcUpdate .b 0xFF 0x40

/-- The `switch` of `rtc_write`. -/
def rtcRate : Nat → Option (BitVec 8)
  | 1024 => some 6
  | 512 => some 7
  | 256 => some 8
  | 128 => some 9
  | 64 => some 10
  | 32 => some 11
  | 16 => some 12
  | 8 => some 13
  | 4 => some 14
  | 2 => some 15
  | 0 => some 0
  | _ => none

/-- The functions that a system call comes to, `rtc_write` with the frequency in its buffer. -/
inductive RtcCall where
  | open
  | write (freq : Nat)
  | read
  | close

def RtcCall.code : RtcCall → List RtcInstr
  | .open => rtcUpdate .a 0x40 15
  | .write freq =>
      match rtcRate freq with
      | some rate => rtcUpdate .a 0x40 rate
      | none => []
  | .read => [.setRead, .spin]
  | .close => []

/-- The chip, the request that the interrupt controller has latched, the interrupt flag, `prev`, `RTC_READ`, and the
rest of the function that runs. -/
structure RtcCpu where
  chip : Rtc
  irq : Bool
  enabled : Bool
  prev : BitVec 8
  rtcRead : Bool
  code : List RtcInstr

namespace RtcCpu

/-- The chip changes; a line that goes up is latched. -/
def drive (s : RtcCpu) (chip : Rtc) : RtcCpu :=
  { s with chip := chip, irq := s.irq || (!s.chip.line && chip.line) }

def exec (s : RtcCpu) : RtcInstr → RtcCpu
  | .cli => { s with enabled := false }
  | .sti => { s with enabled := true }
  | .outIndex reg => s.drive { s.chip with index := reg.port }
  | .inPrev => { s.drive s.chip.inData.2 with prev := s.chip.inData.1 }
  | .outPrev keep value => s.drive (s.chip.outData (s.prev &&& keep ||| value))
  | .setRead => { s with rtcRead := true }
  | .spin => s

/-- `rtc_handler`, with the acceptance of the request. The frequencies that `clear_rtc_read` tries when the test flag
is set are left out. -/
def handler (s : RtcCpu) : RtcCpu :=
  { s with chip := ({ s.chip with index := 0x0C } : Rtc).inData.2, irq := false, rtcRead := false }

end RtcCpu

inductive RtcEvent where
  | period
  | interrupt
  | instr
  | call (c : RtcCall)

/-- What can happen: a period ends at any time, an interrupt is taken between two instructions when they are enabled,
the loop of `rtc_read` is left when `RTC_READ` is clear, and a function is called when none is running. -/
inductive RtcStep : RtcCpu → RtcEvent → RtcCpu → Prop
  | period (s : RtcCpu) : RtcStep s .period (s.drive s.chip.period)
  | interrupt {s : RtcCpu} (henabled : s.enabled = true) (hirq : s.irq = true) : RtcStep s .interrupt s.handler
  | instr {s : RtcCpu} {i : RtcInstr} {rest : List RtcInstr} (hcode : s.code = i :: rest)
      (hleft : i = .spin → s.rtcRead = false) : RtcStep s .instr { s.exec i with code := rest }
  | call {s : RtcCpu} (c : RtcCall) (hcode : s.code = []) : RtcStep s (.call c) { s with code := c.code }

/-- Both registers. -/
structure RtcRegs where
  a : BitVec 8
  b : BitVec 8

def RtcRegs.get (r : RtcRegs) : RtcReg → BitVec 8
  | .a => r.a
  | .b => r.b

def RtcRegs.set (r : RtcRegs) (v : BitVec 8) : RtcReg → RtcRegs
  | .a => { r with a := v }
  | .b => { r with b := v }

/-- What the registers are when the code has run, whatever interrupts it; `none` when that depends on the interrupts.
`enabled` is the interrupt flag, and `index` what the index port is known to select. -/
def settle : List RtcInstr → Bool → Option RtcReg → BitVec 8 → RtcRegs → Option RtcRegs
  | [], _, _, _, r => some r
  | .cli :: code, _, index, prev, r => settle code false index prev r
  | .sti :: code, _, _, prev, r => settle code true none prev r
  | .outIndex reg :: code, enabled, _, prev, r => settle code enabled (if enabled then none else some reg) prev r
  | .inPrev :: code, enabled, some reg, _, r => settle code enabled (some reg) (r.get reg) r
  | .inPrev :: _, _, none, _, _ => none
  | .outPrev keep value :: code, enabled, some reg, prev, r =>
      settle code enabled (some reg) prev (r.set (prev &&& keep ||| value) reg)
  | .outPrev _ _ :: _, _, none, _, _ => none
  | .setRead :: code, enabled, index, prev, r => settle code enabled index prev r
  | .spin :: code, enabled, index, prev, r => settle code enabled index prev r

/-- The rate that a call sets, if it sets one. -/
def RtcCall.rate : RtcCall → Option (BitVec 8)
  | .open => some 15
  | .write freq => rtcRate freq
  | .read => none
  | .close => none

/-- What a call does to the registers. -/
def RtcCall.apply (r : RtcRegs) (c : RtcCall) : RtcRegs :=
  match c.rate with
  | some rate => { r with a := r.a &&& 0x40 ||| rate }
  | none => r

theorem settle_update (reg : RtcReg) (keep value : BitVec 8) (enabled : Bool) (prev : BitVec 8) (r : RtcRegs) :
    settle (rtcUpdate reg keep value) enabled none prev r = some (r.set (r.get reg &&& keep ||| value) reg) := rfl

/-- Every function of the driver is protected from the interrupt handler. -/
theorem settle_code (c : RtcCall) (enabled : Bool) (prev : BitVec 8) (r : RtcRegs) :
    settle c.code enabled none prev r = some (c.apply r) := by
  cases c with
  | «open» => exact settle_update .a _ _ enabled prev r
  | write freq =>
      rw [RtcCall.code, RtcCall.apply, RtcCall.rate]
      cases rtcRate freq with
      | none => rfl
      | some rate => exact settle_update .a _ _ enabled prev r
  | read => rfl
  | close => rfl

def Rtc.regs (r : Rtc) : RtcRegs := ⟨r.regA, r.regB⟩

/-- The index port is not known while interrupts are enabled, the code settles the registers to `r`, and a line that is
up is latched. -/
structure Protected (r : RtcRegs) (s : RtcCpu) : Prop where
  settles : ∃ index, (s.enabled = true → index = none) ∧ (∀ reg, index = some reg → s.chip.index = reg.port) ∧
    settle s.code s.enabled index s.prev s.chip.regs = some r
  latched : s.chip.line = true → s.irq = true

theorem drive_latched {s : RtcCpu} (h : s.chip.line = true → s.irq = true) (chip : Rtc) :
    chip.line = true → (s.drive chip).irq = true := by
  intro hline
  rw [RtcCpu.drive, Bool.or_eq_true, Bool.and_eq_true, Bool.not_eq_true']
  by_cases hold : s.chip.line = true
  · exact .inl (h hold)
  · exact .inr ⟨Bool.eq_false_of_not_eq_true hold, hline⟩

theorem inData_reg {r : Rtc} {reg : RtcReg} (h : r.index = reg.port) : r.inData = (r.regs.get reg, r) := by
  cases reg with
  | a => exact if_pos h
  | b =>
      have hne : r.index ≠ RtcReg.a.port := by
        rw [h]
        decide
      exact (if_neg hne).trans (if_pos h)

theorem outData_reg {r : Rtc} {reg : RtcReg} (h : r.index = reg.port) (v : BitVec 8) :
    (r.outData v).regs = r.regs.set v reg ∧ (r.outData v).index = r.index := by
  cases reg with
  | a =>
      rw [Rtc.outData, if_pos h]
      exact ⟨rfl, rfl⟩
  | b =>
      have hne : r.index ≠ RtcReg.a.port := by
        rw [h]
        decide
      rw [Rtc.outData, if_neg hne, if_pos h]
      exact ⟨rfl, rfl⟩

theorem Protected.instr {r : RtcRegs} {s : RtcCpu} (h : Protected r s) {i : RtcInstr} {rest : List RtcInstr}
    (hcode : s.code = i :: rest) : Protected r { s.exec i with code := rest } := by
  obtain ⟨index, hopen, hindex, hsettle⟩ := h.settles
  rw [hcode] at hsettle
  cases i with
  | cli => exact ⟨⟨index, fun hfalse => (by cases hfalse), hindex, hsettle⟩, h.latched⟩
  | sti => exact ⟨⟨none, fun _ => rfl, fun reg hreg => (by cases hreg), hsettle⟩, h.latched⟩
  | outIndex reg =>
      refine ⟨⟨if s.enabled then none else some reg, fun htrue => if_pos htrue, fun reg' hreg => ?_, hsettle⟩,
        drive_latched h.latched _⟩
      split_ifs at hreg with henabled
      exact congrArg RtcReg.port (Option.some.inj hreg)
  | inPrev =>
      cases index with
      | none => cases hsettle
      | some reg =>
          have hdata := inData_reg (hindex reg rfl)
          simp only [RtcCpu.exec, hdata]
          exact ⟨⟨some reg, hopen, hindex, hsettle⟩, drive_latched h.latched _⟩
  | outPrev keep value =>
      cases index with
      | none => cases hsettle
      | some reg =>
          obtain ⟨hregs, hsame⟩ := outData_reg (hindex reg rfl) (s.prev &&& keep ||| value)
          refine ⟨⟨some reg, hopen, fun reg' hreg => ?_, ?_⟩, drive_latched h.latched _⟩
          · rw [← hindex reg' hreg]
            exact hsame
          · have hdriven : (s.exec (.outPrev keep value)).chip.regs = _ := hregs
            simp only [hdriven]
            exact hsettle
  | setRead => exact ⟨⟨index, hopen, hindex, hsettle⟩, h.latched⟩
  | spin => exact ⟨⟨index, hopen, hindex, hsettle⟩, h.latched⟩

theorem Protected.handler {r : RtcRegs} {s : RtcCpu} (h : Protected r s) (henabled : s.enabled = true) :
    Protected r s.handler := by
  obtain ⟨index, hopen, -, hsettle⟩ := h.settles
  obtain rfl := hopen henabled
  have hread : ({ s.chip with index := 0x0C } : Rtc).inData.2 = { s.chip with index := 0x0C, flag := false } := rfl
  refine ⟨⟨none, fun _ => rfl, fun reg hreg => (by cases hreg), ?_⟩, fun hline => ?_⟩
  · exact hsettle
  · rw [RtcCpu.handler, hread, Rtc.line] at hline
    cases hline

/-- The calls among events. -/
def rtcCalls (es : List RtcEvent) : List RtcCall :=
  es.filterMap fun
    | .call c => some c
    | _ => none

def RtcEvent.apply (r : RtcRegs) : RtcEvent → RtcRegs
  | .call c => c.apply r
  | _ => r

theorem RtcStep.protected {r : RtcRegs} {s s' : RtcCpu} {e : RtcEvent} (h : Protected r s) (hstep : RtcStep s e s') :
    Protected (e.apply r) s' := by
  cases hstep with
  | period =>
      obtain ⟨index, hopen, hindex, hsettle⟩ := h.settles
      exact ⟨⟨index, hopen, hindex, hsettle⟩, drive_latched h.latched _⟩
  | interrupt henabled _ => exact h.handler henabled
  | instr hcode _ => exact h.instr hcode
  | call c hcode =>
      obtain ⟨index, -, -, hsettle⟩ := h.settles
      rw [hcode] at hsettle
      obtain rfl : s.chip.regs = r := Option.some.inj hsettle
      exact ⟨⟨none, fun _ => rfl, fun reg hreg => (by cases hreg), settle_code c _ _ _⟩, h.latched⟩

theorem protected_run {r : RtcRegs} {s s' : RtcCpu} {es : List RtcEvent} (h : Protected r s)
    (hrun : Run RtcStep s es s') : Protected ((rtcCalls es).foldl RtcCall.apply r) s' := by
  induction hrun with
  | nil => exact h
  | @snoc es s₁ s₂ e _ hlast ih =>
      have hnext := hlast.protected ih
      rw [rtcCalls, List.filterMap_append, List.foldl_append]
      cases e with
      | call c => exact hnext
      | period => exact hnext
      | interrupt => exact hnext
      | instr => exact hnext

/-! ### The registers after any run -/

/-- `frequency = 32768 >> (rate - 1)` -/
theorem rtcRate_frequency {freq : Nat} {rate : BitVec 8} (h : rtcRate freq = some rate) :
    rate.toNat ≤ 15 ∧ (freq ≠ 0 → 32768 >>> (rate.toNat - 1) = freq) := by
  unfold rtcRate at h
  split at h <;> cases h <;> decide

theorem rate_masked {c : RtcCall} {rate : BitVec 8} (h : c.rate = some rate) : rate &&& 0x40 = 0 := by
  have hall : ∀ n ≤ 15, (BitVec.ofNat 8 n) &&& 0x40 = 0 := by decide
  have hsmall : rate.toNat ≤ 15 := by
    cases c with
    | «open» =>
        cases h
        decide
    | write freq => exact (rtcRate_frequency h).1
    | read => cases h
    | close => cases h
  have hrate := hall rate.toNat hsmall
  rwa [BitVec.ofNat_toNat, BitVec.setWidth_eq] at hrate

/-- The calls leave register A with its old bit 6 and the rate that was set last, and register B alone. -/
theorem foldl_apply (r : RtcRegs) (cs : List RtcCall) :
    cs.foldl RtcCall.apply r =
      ⟨((cs.filterMap RtcCall.rate).getLast?.map fun rate => r.a &&& 0x40 ||| rate).getD r.a, r.b⟩ := by
  induction cs using List.reverseRecOn with
  | nil => rfl
  | append_singleton cs c ih =>
      rw [List.foldl_append, List.foldl_cons, List.foldl_nil, ih, List.filterMap_append, RtcCall.apply]
      cases hrate : c.rate with
      | none => rw [List.filterMap_cons_none hrate, List.filterMap_nil, List.append_nil]
      | some rate =>
          rw [List.filterMap_cons_some hrate, List.filterMap_nil, List.getLast?_concat, Option.map_some,
            Option.getD_some]
          simp only
          congr 2
          cases hlast : (cs.filterMap RtcCall.rate).getLast? with
          | none => rfl
          | some before =>
              obtain ⟨c', -, hc'⟩ := List.mem_filterMap.mp (List.mem_of_getLast? hlast)
              rw [Option.map_some, Option.getD_some, BitVec.and_or_distrib_right, rate_masked hc']
              simp [BitVec.and_assoc]

theorem protected_init {s : RtcCpu} (hstart : s.code = rtcInit) (hlatched : s.chip.line = true → s.irq = true) :
    Protected ⟨s.chip.regA, s.chip.regB &&& 0xFF ||| 0x40⟩ s := by
  have hinit : settle rtcInit s.enabled none s.prev s.chip.regs = some ⟨s.chip.regA, s.chip.regB &&& 0xFF ||| 0x40⟩ :=
    settle_update .b _ _ _ _ _
  exact ⟨⟨none, fun _ => rfl, fun reg hreg => (by cases hreg), by rw [hstart]; exact hinit⟩, hlatched⟩

/-- From `rtc_init` on, whatever calls are made and wherever interrupts come between their instructions: when no
function runs, periodic interrupts are enabled, the other bits of register B are as they were, register A has its old
bit 6 and the rate that an `rtc_open` or an accepted `rtc_write` set last, and a flag that is set in the chip has a
request waiting. -/
theorem rtc_registers_kept {s₀ s : RtcCpu} {es : List RtcEvent} (hstart : s₀.code = rtcInit)
    (hlatched : s₀.chip.line = true → s₀.irq = true) (hrun : Run RtcStep s₀ es s) (hdone : s.code = []) :
    s.chip.regB = s₀.chip.regB ||| 0x40 ∧
      s.chip.regA = (((rtcCalls es).filterMap RtcCall.rate).getLast?.map
        fun rate => s₀.chip.regA &&& 0x40 ||| rate).getD s₀.chip.regA ∧
      (s.chip.flag = true → s.irq = true) := by
  have hlast := protected_run (protected_init hstart hlatched) hrun
  obtain ⟨index, -, -, hsettle⟩ := hlast.settles
  rw [hdone, foldl_apply] at hsettle
  have hregs := Option.some.inj hsettle
  have hB : s.chip.regB = s₀.chip.regB ||| 0x40 := by
    have hkeep : s₀.chip.regB &&& 0xFF = s₀.chip.regB := BitVec.and_allOnes
    have hb := congrArg RtcRegs.b hregs
    rwa [hkeep] at hb
  refine ⟨hB, congrArg RtcRegs.a hregs, fun hflag => hlast.latched ?_⟩
  rw [Rtc.line, hflag, hB, Bool.true_and, BitVec.getLsbD_or]
  simp

theorem foldl_exec_code (s : RtcCpu) (code rest : List RtcInstr) :
    code.foldl RtcCpu.exec { s with code := rest } = { code.foldl RtcCpu.exec s with code := rest } := by
  induction code generalizing s with
  | nil => rfl
  | cons i code ih =>
      have hexec : RtcCpu.exec { s with code := rest } i = { s.exec i with code := rest } := by cases i <;> rfl
      rw [List.foldl_cons, List.foldl_cons, hexec, ih]

/-- A function that does not wait can run to its end. -/
theorem run_code {s₀ s : RtcCpu} {es : List RtcEvent} {code : List RtcInstr} (hrun : Run RtcStep s₀ es s)
    (hcode : s.code = code) (hwait : ∀ i ∈ code, i ≠ .spin) :
    Run RtcStep s₀ (es ++ List.replicate code.length .instr) { code.foldl RtcCpu.exec s with code := [] } := by
  induction code generalizing s es with
  | nil =>
      have hsame : ({ s with code := [] } : RtcCpu) = s := by rw [← hcode]
      rw [List.foldl_nil, hsame, List.length_nil, List.replicate_zero, List.append_nil]
      exact hrun
  | cons i code ih =>
      have hstep : RtcStep s .instr { s.exec i with code := code } :=
        .instr hcode fun heq => absurd heq (hwait i List.mem_cons_self)
      have hrest := ih (hrun.snoc hstep) rfl fun j hj => hwait j (List.mem_cons_of_mem _ hj)
      rwa [foldl_exec_code, List.append_assoc] at hrest

/-- The clock at boot: 1024 interrupts a second, none of them let through. -/
def bootClock : RtcCpu := ⟨⟨0, 0x26, 0x02, false⟩, false, true, 0, false, rtcInit⟩

/-- `rtc_init`, an interrupt, and `rtc_write` of 32. -/
theorem rtc_registers_kept_write : ∃ es s, Run RtcStep bootClock es s ∧ rtcCalls es = [.write 32] ∧
    s.chip.regB = 0x42 ∧ s.chip.regA = 11 := by
  have hinit := run_code (Run.nil : Run RtcStep bootClock [] bootClock) rfl (by simp [bootClock, rtcInit, rtcUpdate])
  have hcalled := ((hinit.snoc (.period _)).snoc (.interrupt rfl rfl)).snoc (.call (.write 32) rfl)
  have hrun := run_code hcalled rfl (by simp [RtcCall.code, rtcRate, rtcUpdate])
  obtain ⟨hregB, hregA, -⟩ := rtc_registers_kept rfl (by decide) hrun rfl
  exact ⟨_, _, hrun, rfl, hregB, hregA⟩

/-! ### Waiting -/

/-- Whether interrupts are enabled when the code has run. -/
def leavesEnabled : List RtcInstr → Bool → Bool
  | [], enabled => enabled
  | .cli :: code, _ => leavesEnabled code false
  | .sti :: code, _ => leavesEnabled code true
  | _ :: code, enabled => leavesEnabled code enabled

theorem leavesEnabled_code (c : RtcCall) : leavesEnabled c.code true = true := by
  cases c with
  | «open» => rfl
  | write freq =>
      rw [RtcCall.code]
      cases rtcRate freq <;> rfl
  | read => rfl
  | close => rfl

theorem RtcStep.leavesEnabled {s s' : RtcCpu} {e : RtcEvent} (h : UnixOs.leavesEnabled s.code s.enabled = true)
    (hstep : RtcStep s e s') : UnixOs.leavesEnabled s'.code s'.enabled = true := by
  cases hstep with
  | period => exact h
  | interrupt _ _ => exact h
  | @instr i rest hcode _ =>
      rw [hcode] at h
      cases i <;> exact h
  | call c hcode =>
      rw [hcode, UnixOs.leavesEnabled] at h
      simp only [h]
      exact leavesEnabled_code c

theorem leavesEnabled_run {s s' : RtcCpu} {es : List RtcEvent} (h : leavesEnabled s.code s.enabled = true)
    (hrun : Run RtcStep s es s') : leavesEnabled s'.code s'.enabled = true := by
  induction hrun with
  | nil => exact h
  | snoc _ hlast ih => exact hlast.leavesEnabled ih

/-- The events behind the first instruction. -/
def behindFirst : List RtcEvent → List RtcEvent
  | [] => []
  | .instr :: es => es
  | _ :: es => behindFirst es

theorem behindFirst_of_not_mem {es : List RtcEvent} (h : RtcEvent.instr ∉ es) (fs : List RtcEvent) :
    behindFirst (es ++ fs) = behindFirst fs := by
  induction es with
  | nil => rfl
  | cons e es ih =>
      rw [List.mem_cons, not_or] at h
      cases e with
      | instr => exact absurd rfl h.1
      | period => exact ih h.2
      | interrupt => exact ih h.2
      | call c => exact ih h.2

theorem behindFirst_of_mem {es : List RtcEvent} (h : RtcEvent.instr ∈ es) (fs : List RtcEvent) :
    behindFirst (es ++ fs) = behindFirst es ++ fs := by
  induction es with
  | nil => cases h
  | cons e es ih =>
      have hrest : e ≠ .instr → RtcEvent.instr ∈ es := fun hne => (List.mem_cons.mp h).resolve_left (Ne.symm hne)
      cases e with
      | instr => rfl
      | period => exact ih (hrest fun heq => by cases heq)
      | interrupt => exact ih (hrest fun heq => by cases heq)
      | call c => exact ih (hrest fun heq => by cases heq)

/-- Where an `rtc_read` is, when it made the events since its call. -/
inductive ReadAt (es : List RtcEvent) (s : RtcCpu) : Prop
  | start (hcode : s.code = RtcCall.code .read) (hnone : RtcEvent.instr ∉ es)
  | waits (hcode : s.code = [.spin]) (hset : RtcEvent.instr ∈ es)
      (hread : s.rtcRead = false ↔ RtcEvent.interrupt ∈ behindFirst es)
  | done (hcode : s.code = []) (hset : RtcEvent.instr ∈ es) (hcame : RtcEvent.interrupt ∈ behindFirst es)

theorem ReadAt.step {es : List RtcEvent} {s s' : RtcCpu} {e : RtcEvent} (h : ReadAt es s) (hstep : RtcStep s e s')
    (hinside : ∀ c, e ≠ .call c) : ReadAt (es ++ [e]) s' := by
  cases h with
  | start hcode hnone =>
      cases hstep with
      | period =>
          refine .start hcode ?_
          simp [hnone]
      | interrupt _ _ =>
          refine .start hcode ?_
          simp [hnone]
      | call c _ => exact absurd rfl (hinside c)
      | instr hhere _ =>
          obtain ⟨rfl, rfl⟩ := List.cons.inj (hhere.symm.trans hcode)
          refine .waits rfl (by simp) ?_
          rw [behindFirst_of_not_mem hnone]
          simp [RtcCpu.exec, behindFirst]
  | waits hcode hset hread =>
      have hbehind := behindFirst_of_mem hset
      cases hstep with
      | period =>
          refine .waits hcode (List.mem_append_left _ hset) ?_
          rw [hbehind, List.mem_append, List.mem_singleton, or_iff_left (by simp)]
          exact hread
      | interrupt _ _ =>
          refine .waits hcode (List.mem_append_left _ hset) (iff_of_true rfl ?_)
          rw [hbehind]
          exact List.mem_append_right _ (List.mem_singleton.mpr rfl)
      | call c _ => exact absurd rfl (hinside c)
      | instr hhere hleft =>
          obtain ⟨rfl, rfl⟩ := List.cons.inj (hhere.symm.trans hcode)
          refine .done rfl (List.mem_append_left _ hset) ?_
          rw [hbehind]
          exact List.mem_append_left _ (hread.mp (hleft rfl))
  | done hcode hset hcame =>
      have hbehind := behindFirst_of_mem hset [e]
      have hdone : s'.code = [] → ReadAt (es ++ [e]) s' := fun hcode' => by
        refine .done hcode' (List.mem_append_left _ hset) ?_
        rw [hbehind]
        exact List.mem_append_left _ hcame
      cases hstep with
      | period => exact hdone hcode
      | interrupt _ _ => exact hdone hcode
      | call c _ => exact absurd rfl (hinside c)
      | instr hhere _ =>
          rw [hcode] at hhere
          cases hhere

theorem readAt_run {es : List RtcEvent} {s₀ s : RtcCpu} (hstart : s₀.code = RtcCall.code .read)
    (hrun : Run RtcStep s₀ es s) (hinside : ∀ c, RtcEvent.call c ∉ es) : ReadAt es s := by
  induction hrun with
  | nil => exact .start hstart (List.not_mem_nil)
  | @snoc es s₁ s₂ e _ hlast ih =>
      refine (ih fun c hc => hinside c (List.mem_append_left _ hc)).step hlast fun c heq => hinside c ?_
      rw [heq]
      exact List.mem_append_right _ (List.mem_singleton.mpr rfl)

/-- A period that ends while the loop waits is followed by an interrupt, and then the loop can be left. -/
theorem Protected.wakes {r : RtcRegs} {s : RtcCpu} (h : Protected r s) (hb : r.b.getLsbD 6 = true)
    (henabled : s.enabled = true) (hcode : s.code = [.spin]) :
    ∃ s', Run RtcStep s [.period, .interrupt, .instr] s' ∧ s'.code = [] := by
  have hafter := RtcStep.protected h (.period s)
  obtain ⟨index, -, -, hsettle⟩ := hafter.settles
  rw [show (s.drive s.chip.period).code = s.code from rfl, hcode] at hsettle
  have hregs : (s.drive s.chip.period).chip.regs = r := Option.some.inj hsettle
  have hregB : (s.drive s.chip.period).chip.regB = r.b := congrArg RtcRegs.b hregs
  have hirq : (s.drive s.chip.period).irq = true := by
    refine hafter.latched ?_
    rw [Rtc.line, hregB, hb]
    rfl
  have hrun := (Run.nil.snoc (RtcStep.period s)).snoc (.interrupt henabled hirq)
  exact ⟨_, hrun.snoc (.instr hcode fun _ => rfl), rfl⟩

/-- `rtc_read` waits for the next interrupt of the clock: after its call the loop can be left exactly if an interrupt
has come since `RTC_READ` was set, and while it waits the next period that ends lets it return. -/
theorem rtc_read_waits {s₀ s₁ s₂ s : RtcCpu} {before es : List RtcEvent} (hstart : s₀.code = rtcInit)
    (hlatched : s₀.chip.line = true → s₀.irq = true) (hbefore : Run RtcStep s₀ before s₁)
    (hcall : RtcStep s₁ (.call .read) s₂) (hrun : Run RtcStep s₂ es s) (hinside : ∀ c, RtcEvent.call c ∉ es) :
    (s.code = [] → RtcEvent.interrupt ∈ behindFirst es) ∧
      (s.code = [.spin] →
        ((∃ s', RtcStep s .instr s') ↔ RtcEvent.interrupt ∈ behindFirst es) ∧
          ∃ s', Run RtcStep s [.period, .interrupt, .instr] s' ∧ s'.code = []) := by
  have hread : s₂.code = RtcCall.code .read := by
    cases hcall
    rfl
  have hat := readAt_run hread hrun hinside
  refine ⟨fun hdone => ?_, fun hhere => ⟨?_, ?_⟩⟩
  · cases hat with
    | start hcode _ => cases hdone.symm.trans hcode
    | waits hcode _ _ => cases hdone.symm.trans hcode
    | done _ _ hcame => exact hcame
  · cases hat with
    | start hcode _ => cases hhere.symm.trans hcode
    | done hcode _ _ => cases hhere.symm.trans hcode
    | waits _ _ hread =>
        rw [← hread]
        constructor
        · rintro ⟨s', hstep⟩
          cases hstep with
          | instr hcode hleft =>
              obtain ⟨rfl, -⟩ := List.cons.inj (hcode.symm.trans hhere)
              exact hleft rfl
        · exact fun hclear => ⟨_, .instr hhere fun _ => hclear⟩
  · have hinit := protected_init hstart hlatched
    have hlast := protected_run (hcall.protected (protected_run hinit hbefore)) hrun
    have henabled : leavesEnabled s.code s.enabled = true :=
      leavesEnabled_run (hcall.leavesEnabled (leavesEnabled_run (by rw [hstart]; rfl) hbefore)) hrun
    rw [hhere] at henabled
    refine hlast.wakes ?_ henabled hhere
    simp only [RtcEvent.apply, foldl_apply, RtcCall.apply, RtcCall.rate]
    rw [BitVec.getLsbD_or]
    simp

/-- `rtc_init`, a read that sets `RTC_READ`, a period and its interrupt. -/
theorem rtc_read_waits_period : ∃ before s₁ s₂ s, Run RtcStep bootClock before s₁ ∧ RtcStep s₁ (.call .read) s₂ ∧
    Run RtcStep s₂ [.instr, .period, .interrupt] s ∧ ∃ s', RtcStep s .instr s' := by
  have hinit := run_code (Run.nil : Run RtcStep bootClock [] bootClock) rfl (by simp [bootClock, rtcInit, rtcUpdate])
  have hcall := RtcStep.call (s := { rtcInit.foldl RtcCpu.exec bootClock with code := [] }) .read rfl
  have hset := Run.nil.snoc (RtcStep.instr (s := { rtcInit.foldl RtcCpu.exec bootClock with code := RtcCall.code .read })
    rfl fun heq => by cases heq)
  have hrun := (hset.snoc (.period _)).snoc (.interrupt rfl rfl)
  have hwaits := (rtc_read_waits rfl (by decide) hinit hcall hrun (by simp)).2 rfl
  exact ⟨_, _, _, _, hinit, hcall, hrun, hwaits.1.mpr (by simp [behindFirst])⟩

end UnixOs
