import UnixOs.SchedQueue
import UnixOs.X86Stack

/-! The entry and exit code of `int 0x80` in `handler.S`, with hardware interrupts serviced between its
instructions. The exit code keeps the returned value just below the stack pointer while `popa` runs,
where the next interrupt pushes its frame. -/

namespace UnixOs

variable {top : Nat}

/-- One hardware interrupt. The processor's flags, code segment and instruction pointer are no
registers of the machine here: an interrupt brings the words that are pushed for them. -/
structure Interrupt (top : Nat) where
  eflags : BitVec 32
  cs : BitVec 32
  eip : BitVec 32
  irq : BitVec 32
  picHandler : CFunction top 0

/-- The processor's push, the two pushes of `handler_irqN`, and `irq_handler` up to its `iret`. -/
def irqHandler (i : Interrupt top) (c : Cpu) : Cpu :=
  let c := c.pushAll [i.eflags, i.cs, i.eip]
  let c := c.pushAll [0, i.irq]
  let c := (i.picHandler.run c.pusha).popa
  (c.addEsp 8).addEsp 12

def serviceAll (is : List (Interrupt top)) (c : Cpu) : Cpu := is.foldl (fun c i => irqHandler i c) c

inductive Instr where
  | pusha
  | popa
  | pushl (r : Reg)
  | popl (r : Reg)
  | movl (v : BitVec 32) (r : Reg)
  | addlEsp (n : Int)
  | sti
  | callTable
  | jmp

/-- A system call with three words of arguments, and the value it returns. -/
structure SysCall (top : Nat) extends CFunction top 12 where
  value : BitVec 32
  returns : ∀ c, (run c).regs .eax = value

/-- One instruction; `callTable` is `call *sys_call_table(, %eax, 4)`. -/
def exec (table : Nat → SysCall top) (c : Cpu) : Instr → Cpu
  | .pusha => c.pusha
  | .popa => c.popa
  | .pushl r => c.push (c.regs r)
  | .popl r => c.pop r
  | .movl v r => { c with regs := Function.update c.regs r v }
  | .addlEsp n => c.addEsp n
  | .sti => c
  | .callTable => (table (c.regs .eax).toNat).run c
  | .jmp => c

/-- Straight-line code from instruction number `n` on, with the interrupts `ints n` serviced right
after instruction number `n`. -/
def runCode (table : Nat → SysCall top) (ints : Nat → List (Interrupt top)) : Nat → List Instr → Cpu → Cpu
  | _, [], c => c
  | n, i :: is, c => runCode table ints (n + 1) is (serviceAll (ints n) (exec table c i))

/-- The code before the number is checked. The gate of vector 0x80 clears the interrupt flag. -/
def entryCode : List Instr := [.pusha, .pushl .edx, .pushl .ecx, .pushl .ebx]

/-- From `sti` to the `iret` of `sys_success`. -/
def successCode : List Instr :=
  [.sti, .callTable, .jmp, .addlEsp 12, .pushl .eax, .addlEsp 4, .popa, .addlEsp (-36), .popl .eax,
    .addlEsp 32]

/-- `sys_error`, up to its `iret`. -/
def errorCode : List Instr := [.addlEsp 12, .popa, .movl (-1) .eax]

/-- The state at the handler's `iret`. -/
def handlerSyscall (table : Nat → SysCall top) (ints : Nat → List (Interrupt top)) (c : Cpu) : Cpu :=
  let c := runCode table (fun _ => []) 0 entryCode c
  if (c.regs .eax).toInt < 1 ∨ (c.regs .eax).toInt > 10 then runCode table (fun _ => []) 0 errorCode c
  else runCode table ints 0 successCode c

/-- The number of `addl $4, %esp`, which leaves the returned value below the stack pointer. -/
def afterDrop : Nat := 5

/-- The number of `popa`, which leaves the returned value nine words below the stack pointer. -/
def afterPopa : Nat := 6

/-- What the user finds after the call: the value in `eax`, the other registers as at entry, and the
frame of `iret` untouched. -/
structure RegisterContract (entry : Cpu) (v : BitVec 32) (final : Cpu) : Prop where
  eax : final.regs .eax = v
  others : ∀ r, r ≠ .eax → final.regs r = entry.regs r
  esp : final.esp = entry.esp
  frame : ∀ a, entry.esp ≤ a → a < entry.esp + 20 → final.mem a = entry.mem a

/-- `tss.esp0` while process `k` runs. -/
def kernelStackTop (k : Nat) : Nat := pcbAddr k - 4

/-- An interrupt restores all registers and the stack from its stack pointer up. Its frame stays in
memory below: the flags in the first word, `ebx` in the ninth. -/
theorem irqHandler_spec (i : Interrupt top) (c : Cpu) (hroom : 52 ≤ c.esp) (htop : c.esp ≤ top) :
    (irqHandler i c).regs = c.regs ∧ (irqHandler i c).esp = c.esp ∧
      (∀ a, c.esp ≤ a → a < top → (irqHandler i c).mem a = c.mem a) ∧
      (irqHandler i c).mem.word (c.esp - 4) = i.eflags ∧
      (irqHandler i c).mem.word (c.esp - 36) = c.regs .ebx := by
  set pushed := ((c.pushAll [i.eflags, i.cs, i.eip]).pushAll [0, i.irq]).pusha with hpushed
  have hwords : pushed = c.pushAll [i.eflags, i.cs, i.eip, 0, i.irq, c.regs .eax, c.regs .ecx,
      c.regs .edx, c.regs .ebx, BitVec.ofNat 32 (c.esp - 20), c.regs .ebp, c.regs .esi,
      c.regs .edi] := by
    rw [hpushed, ← Cpu.pushAll_append, Cpu.pusha_pushAll]
    rfl
  have hesp : pushed.esp = c.esp - 52 := by rw [hwords, Cpu.pushAll_esp]; rfl
  set after := i.picHandler.run pushed with hafter
  have hafterEsp : after.esp = c.esp - 52 := (i.picHandler.esp pushed).trans hesp
  have hkept : ∀ a, c.esp - 52 ≤ a → a < top → after.mem a = pushed.mem a := fun a ha hatop =>
    i.picHandler.above pushed a (by omega) hatop
  have hword : ∀ j (hj : j < 13), after.mem.word (c.esp - 4 * (j + 1)) =
      [i.eflags, i.cs, i.eip, 0, i.irq, c.regs .eax, c.regs .ecx, c.regs .edx, c.regs .ebx,
        BitVec.ofNat 32 (c.esp - 20), c.regs .ebp, c.regs .esi, c.regs .edi][j] := by
    intro j hj
    have hsame : after.mem.word (c.esp - 4 * (j + 1)) = pushed.mem.word (c.esp - 4 * (j + 1)) :=
      Mem.word_congr fun b hb => hkept _ (by omega) (by omega)
    rw [hsame, hwords]
    exact Cpu.pushAll_word c _ (by simpa using hroom) hj
  have hdef : irqHandler i c = { after with
      regs := Cpu.poppedRegs after.mem after.esp, esp := c.esp } := by
    have hpop : (after.popa.addEsp 8).addEsp 12 = { after with
        regs := Cpu.poppedRegs after.mem after.esp, esp := after.esp + 52 } := by
      simp only [Cpu.popa, Cpu.addEsp, Cpu.mk.injEq, true_and, and_true]
      omega
    rw [show irqHandler i c = (after.popa.addEsp 8).addEsp 12 from rfl, hpop, hafterEsp]
    simp only [Cpu.mk.injEq, true_and, and_true]
    omega
  rw [hdef]
  refine ⟨funext fun r => ?_, rfl, fun a ha hatop => ?_, hword 0 (by decide), hword 8 (by decide)⟩
  · simp only [hafterEsp]
    have hslot : ∀ j, j < 13 → c.esp - 52 + 4 * (12 - j) = c.esp - 4 * (j + 1) := fun j hj => by omega
    cases r with
    | eax => exact (congrArg _ (hslot 5 (by decide))).trans (hword 5 (by decide))
    | ecx => exact (congrArg _ (hslot 6 (by decide))).trans (hword 6 (by decide))
    | edx => exact (congrArg _ (hslot 7 (by decide))).trans (hword 7 (by decide))
    | ebx => exact (congrArg _ (hslot 8 (by decide))).trans (hword 8 (by decide))
    | ebp => exact (congrArg _ (hslot 10 (by decide))).trans (hword 10 (by decide))
    | esi => exact (congrArg _ (hslot 11 (by decide))).trans (hword 11 (by decide))
    | edi => exact (congrArg _ (hslot 12 (by decide))).trans (hword 12 (by decide))
  · simp only
    rw [hkept a (by omega) hatop, hwords]
    exact Cpu.pushAll_mem_above c _ (by simpa using hroom) ha

/-- Two states between which interrupts were serviced at one point. -/
structure Resumed (top : Nat) (c c' : Cpu) : Prop where
  regs : c'.regs = c.regs
  esp : c'.esp = c.esp
  above : ∀ a, c.esp ≤ a → a < top → c'.mem a = c.mem a

theorem serviceAll_resumed (is : List (Interrupt top)) (c : Cpu) (hroom : 52 ≤ c.esp)
    (htop : c.esp ≤ top) : Resumed top c (serviceAll is c) := by
  induction is generalizing c with
  | nil => exact ⟨rfl, rfl, fun _ _ _ => rfl⟩
  | cons i is ih =>
      obtain ⟨hregs, hesp, habove, -, -⟩ := irqHandler_spec i c hroom htop
      obtain ⟨hregs', hesp', habove'⟩ := ih (irqHandler i c) (by omega) (by omega)
      refine ⟨hregs'.trans hregs, hesp'.trans hesp, fun a ha hatop => ?_⟩
      exact (habove' a (by omega) hatop).trans (habove a ha hatop)

theorem serviceAll_flags {is : List (Interrupt top)} (hne : is ≠ []) (c : Cpu) (hroom : 52 ≤ c.esp)
    (htop : c.esp ≤ top) :
    (serviceAll is c).mem.word (c.esp - 4) = (is.getLast hne).eflags := by
  have hsplit := List.dropLast_append_getLast hne
  obtain ⟨-, hesp, -⟩ := serviceAll_resumed is.dropLast c hroom htop
  have hlast : serviceAll is c = irqHandler (is.getLast hne) (serviceAll is.dropLast c) := by
    conv_lhs => rw [← hsplit, serviceAll, List.foldl_append]
    rfl
  obtain ⟨-, -, -, hflags, -⟩ :=
    irqHandler_spec (is.getLast hne) (serviceAll is.dropLast c) (by omega) (by omega)
  rw [hlast, ← hesp]
  exact hflags

theorem serviceAll_ebx {is : List (Interrupt top)} (hne : is ≠ []) (c : Cpu) (hroom : 52 ≤ c.esp)
    (htop : c.esp ≤ top) : (serviceAll is c).mem.word (c.esp - 36) = c.regs .ebx := by
  have hsplit := List.dropLast_append_getLast hne
  obtain ⟨hregs, hesp, -⟩ := serviceAll_resumed is.dropLast c hroom htop
  have hlast : serviceAll is c = irqHandler (is.getLast hne) (serviceAll is.dropLast c) := by
    conv_lhs => rw [← hsplit, serviceAll, List.foldl_append]
    rfl
  obtain ⟨-, -, -, -, hebx⟩ :=
    irqHandler_spec (is.getLast hne) (serviceAll is.dropLast c) (by omega) (by omega)
  rw [hlast, ← hesp, hebx, hregs]

/-! ### The handler's run -/

/-- On the stack, the registers of the entry are saved where `popa` will find them, under the frame
of `iret`. -/
structure SavedAt (entry : Cpu) (m : Mem) : Prop where
  regs : Cpu.poppedRegs m (entry.esp - 32) = entry.regs
  frame : ∀ a, entry.esp ≤ a → a < entry.esp + 20 → m a = entry.mem a

theorem poppedRegs_congr {m m' : Mem} {esp : Nat} (h : ∀ a, esp ≤ a → a < esp + 32 → m a = m' a) :
    Cpu.poppedRegs m esp = Cpu.poppedRegs m' esp := by
  have hword : ∀ d, d + 4 ≤ 32 → m.word (esp + d) = m'.word (esp + d) := fun d hd =>
    Mem.word_congr fun i hi => h _ (by omega) (by omega)
  funext r
  cases r with
  | edi => exact hword 0 (by decide)
  | esi => exact hword 4 (by decide)
  | ebp => exact hword 8 (by decide)
  | ebx => exact hword 16 (by decide)
  | edx => exact hword 20 (by decide)
  | ecx => exact hword 24 (by decide)
  | eax => exact hword 28 (by decide)

theorem SavedAt.congr {entry : Cpu} {m m' : Mem} (h : SavedAt entry m) (hroom : 32 ≤ entry.esp)
    (heq : ∀ a, entry.esp - 32 ≤ a → a < entry.esp + 20 → m' a = m a) : SavedAt entry m' := by
  refine ⟨?_, fun a ha hatop => ?_⟩
  · rw [← h.regs]
    exact poppedRegs_congr fun a ha hlt => heq a ha (by omega)
  · rw [heq a (by omega) hatop, h.frame a ha hatop]

section

variable (table : Nat → SysCall top) (ints : Nat → List (Interrupt top)) {entry : Cpu}

theorem entryCode_spec (hroom : 128 ≤ entry.esp) :
    ∃ c, runCode table (fun _ => []) 0 entryCode entry = c ∧ c.regs = entry.regs ∧
      c.esp = entry.esp - 44 ∧ SavedAt entry c.mem := by
  have hwords : runCode table (fun _ => []) 0 entryCode entry =
      entry.pushAll (entry.pushaWords ++ [entry.regs .edx, entry.regs .ecx, entry.regs .ebx]) := rfl
  have hlen : 4 * (entry.pushaWords ++ [entry.regs .edx, entry.regs .ecx, entry.regs .ebx]).length ≤
      entry.esp := by
    simp only [Cpu.pushaWords, List.length_append, List.length_cons, List.length_nil]
    omega
  refine ⟨_, rfl, ?_, ?_, ?_, ?_⟩
  · rw [hwords, Cpu.pushAll_regs]
  · rw [hwords, Cpu.pushAll_esp]
    rfl
  · have hslot : ∀ j, j < 8 → entry.esp - 32 + 4 * (7 - j) = entry.esp - 4 * (j + 1) :=
      fun j hj => by omega
    have hword := fun j (hj : j < 11) => Cpu.pushAll_word entry _ hlen (i := j) hj
    rw [hwords]
    funext r
    cases r with
    | eax => exact (congrArg _ (hslot 0 (by decide))).trans (hword 0 (by decide))
    | ecx => exact (congrArg _ (hslot 1 (by decide))).trans (hword 1 (by decide))
    | edx => exact (congrArg _ (hslot 2 (by decide))).trans (hword 2 (by decide))
    | ebx => exact (congrArg _ (hslot 3 (by decide))).trans (hword 3 (by decide))
    | ebp => exact (congrArg _ (hslot 5 (by decide))).trans (hword 5 (by decide))
    | esi => exact (congrArg _ (hslot 6 (by decide))).trans (hword 6 (by decide))
    | edi => exact (congrArg _ (hslot 7 (by decide))).trans (hword 7 (by decide))
  · intro a ha hatop
    rw [hwords]
    exact Cpu.pushAll_mem_above entry _ hlen ha

theorem SavedAt.service (htop : entry.esp + 20 = top) (hroom : 128 ≤ entry.esp) {c : Cpu}
    (h : SavedAt entry c.mem) (hlow : 52 ≤ c.esp) (hesp : c.esp ≤ entry.esp - 32)
    (is : List (Interrupt top)) : SavedAt entry (serviceAll is c).mem :=
  h.congr (by omega) fun a ha hatop =>
    (serviceAll_resumed is c hlow (by omega)).above a (by omega) (by omega)

theorem call_spec (htop : entry.esp + 20 = top) (hroom : 128 ≤ entry.esp) {c : Cpu}
    (hregs : c.regs = entry.regs) (hesp : c.esp = entry.esp - 44) (hsaved : SavedAt entry c.mem) :
    ∃ c', runCode table ints 0 successCode c =
        runCode table ints 4 [.pushl .eax, .addlEsp 4, .popa, .addlEsp (-36), .popl .eax, .addlEsp 32] c' ∧
      c'.regs .eax = (table (entry.regs .eax).toNat).value ∧ c'.esp = entry.esp - 32 ∧
      SavedAt entry c'.mem := by
  set c0 := serviceAll (ints 0) c with hc0
  obtain ⟨hregs0, hesp0, -⟩ : Resumed top c c0 :=
    serviceAll_resumed _ _ (by omega) (by omega)
  have hsaved0 : SavedAt entry c0.mem := hsaved.service htop hroom (by omega) (by omega) (ints 0)
  set called := (table (c0.regs .eax).toNat).run c0 with hcalled
  have hespCalled : called.esp = entry.esp - 44 := by
    rw [hcalled, (table _).esp, hesp0, hesp]
  have heaxCalled : called.regs .eax = (table (entry.regs .eax).toNat).value := by
    rw [hcalled, (table _).returns, hregs0, hregs]
  have hsavedCalled : SavedAt entry called.mem := hsaved0.congr (by omega) fun a ha hatop =>
    (table _).above c0 a (by omega) (by omega)
  set c1 := serviceAll (ints 1) called with hc1
  obtain ⟨hregs1, hesp1, -⟩ : Resumed top called c1 :=
    serviceAll_resumed _ _ (by omega) (by omega)
  have hsaved1 : SavedAt entry c1.mem := hsavedCalled.service htop hroom (by omega) (by omega) (ints 1)
  set c2 := serviceAll (ints 2) c1 with hc2
  obtain ⟨hregs2, hesp2, -⟩ : Resumed top c1 c2 :=
    serviceAll_resumed _ _ (by omega) (by omega)
  have hsaved2 : SavedAt entry c2.mem := hsaved1.service htop hroom (by omega) (by omega) (ints 2)
  have hdropped : (c2.addEsp 12).esp = entry.esp - 32 := by
    simp only [Cpu.addEsp]
    omega
  obtain ⟨hregs3, hesp3, -⟩ := serviceAll_resumed (ints 3) (c2.addEsp 12) (by omega) (by omega)
  have hsaved3 := SavedAt.service (c := c2.addEsp 12) htop hroom hsaved2 (by omega) (by omega) (ints 3)
  refine ⟨serviceAll (ints 3) (c2.addEsp 12), rfl, ?_, hesp3.trans hdropped, hsaved3⟩
  rw [hregs3, show (c2.addEsp 12).regs = c2.regs from rfl, hregs2, hregs1, heaxCalled]

/-- The word that is left where the returned value was stored, after the interrupts that arrive while
the stack pointer is just above it. -/
def droppedWord (ints : Nat → List (Interrupt top)) (v : BitVec 32) : BitVec 32 :=
  match (ints afterDrop).getLast? with
  | some i => i.eflags
  | none => v

/-- The value is pushed and the stack pointer moved back above it. -/
theorem drop_spec (htop : entry.esp + 20 = top) (hroom : 128 ≤ entry.esp) {c : Cpu}
    (hesp : c.esp = entry.esp - 32) (hsaved : SavedAt entry c.mem) :
    ∃ c', runCode table ints 4 [.pushl .eax, .addlEsp 4, .popa, .addlEsp (-36), .popl .eax, .addlEsp 32] c =
        runCode table ints 6 [.popa, .addlEsp (-36), .popl .eax, .addlEsp 32] c' ∧
      c'.esp = entry.esp - 32 ∧ SavedAt entry c'.mem ∧
      c'.mem.word (entry.esp - 36) = droppedWord ints (c.regs .eax) := by
  set pushed := c.push (c.regs .eax) with hpushed
  have hespPushed : pushed.esp = entry.esp - 36 := by
    rw [hpushed, Cpu.push, hesp]
    simp only
    omega
  have hwordPushed : pushed.mem.word (entry.esp - 36) = c.regs .eax := by
    have haddr : entry.esp - 36 = c.esp - 4 := by omega
    rw [haddr]
    exact Mem.word_store32 _ _ _
  have hsavedPushed : SavedAt entry pushed.mem := hsaved.congr (by omega) fun a ha _ =>
    Mem.store32_of_outside _ (by omega)
  set c4 := serviceAll (ints 4) pushed with hc4
  obtain ⟨-, hesp4, habove4⟩ : Resumed top pushed c4 :=
    serviceAll_resumed _ _ (by omega) (by omega)
  have hsaved4 : SavedAt entry c4.mem := hsavedPushed.service htop hroom (by omega) (by omega) (ints 4)
  have hword4 : c4.mem.word (entry.esp - 36) = c.regs .eax := by
    rw [← hwordPushed]
    exact Mem.word_congr fun i hi => habove4 _ (by omega) (by omega)
  have hmoved : (c4.addEsp 4).esp = entry.esp - 32 := by
    simp only [Cpu.addEsp]
    omega
  obtain ⟨-, hesp5, -⟩ := serviceAll_resumed (ints 5) (c4.addEsp 4) (by omega) (by omega)
  have hsaved5 := SavedAt.service (c := c4.addEsp 4) htop hroom hsaved4 (by omega) (by omega) (ints 5)
  refine ⟨serviceAll (ints 5) (c4.addEsp 4), rfl, hesp5.trans hmoved, hsaved5, ?_⟩
  by_cases hnone : ints afterDrop = []
  · rw [droppedWord, hnone, show ints 5 = [] from hnone]
    exact hword4
  · have hflags := serviceAll_flags hnone (c4.addEsp 4) (by omega) (by omega)
    rw [hmoved, show entry.esp - 32 - 4 = entry.esp - 36 by omega] at hflags
    rw [droppedWord, List.getLast?_eq_getLast_of_ne_nil hnone]
    exact hflags

/-- The word that `popl %eax` finds. -/
def fetchedWord (ints : Nat → List (Interrupt top)) (entry : Cpu) (v : BitVec 32) : BitVec 32 :=
  if ints afterPopa = [] then droppedWord ints v else entry.regs .ebx

/-- The registers are restored and the stack pointer moved down again to fetch the value. -/
theorem fetch_spec (htop : entry.esp + 20 = top) (hroom : 128 ≤ entry.esp) {c : Cpu} {v : BitVec 32}
    (hesp : c.esp = entry.esp - 32) (hsaved : SavedAt entry c.mem)
    (hword : c.mem.word (entry.esp - 36) = droppedWord ints v) :
    RegisterContract entry (fetchedWord ints entry v)
      (runCode table ints 6 [.popa, .addlEsp (-36), .popl .eax, .addlEsp 32] c) := by
  have hpopRegs : c.popa.regs = entry.regs := by
    rw [Cpu.popa, hesp]
    exact hsaved.regs
  have hpopEsp : c.popa.esp = entry.esp := by
    rw [Cpu.popa, hesp]
    simp only
    omega
  set c6 := serviceAll (ints 6) c.popa with hc6
  obtain ⟨hregs6, hesp6, habove6⟩ : Resumed top c.popa c6 :=
    serviceAll_resumed _ _ (by omega) (by omega)
  have hword6 : c6.mem.word (entry.esp - 36) = fetchedWord ints entry v := by
    by_cases hnone : ints afterPopa = []
    · rw [fetchedWord, if_pos hnone, ← hword, hc6, show ints 6 = [] from hnone]
      rfl
    · have hebx := serviceAll_ebx hnone c.popa (by omega) (by omega)
      rw [hpopEsp, hpopRegs] at hebx
      rw [fetchedWord, if_neg hnone]
      exact hebx
  have hlow : (c6.addEsp (-36)).esp = entry.esp - 36 := by
    simp only [Cpu.addEsp]
    omega
  set c7 := serviceAll (ints 7) (c6.addEsp (-36)) with hc7
  obtain ⟨hregs7, hesp7, habove7⟩ : Resumed top (c6.addEsp (-36)) c7 :=
    serviceAll_resumed _ _ (by omega) (by omega)
  have hword7 : c7.mem.word c7.esp = fetchedWord ints entry v := by
    rw [← hword6, hesp7, hlow]
    exact Mem.word_congr fun i hi => habove7 _ (by omega) (by omega)
  have hpopped : (c7.pop .eax).esp = entry.esp - 32 := by
    simp only [Cpu.pop]
    omega
  set c8 := serviceAll (ints 8) (c7.pop .eax) with hc8
  obtain ⟨hregs8, hesp8, habove8⟩ : Resumed top (c7.pop .eax) c8 :=
    serviceAll_resumed _ _ (by omega) (by omega)
  have hback : (c8.addEsp 32).esp = entry.esp := by
    simp only [Cpu.addEsp]
    omega
  obtain ⟨hregs9, hesp9, habove9⟩ := serviceAll_resumed (ints 9) (c8.addEsp 32) (by omega) (by omega)
  have hregs : (serviceAll (ints 9) (c8.addEsp 32)).regs =
      Function.update entry.regs .eax (fetchedWord ints entry v) := by
    rw [hregs9, show (c8.addEsp 32).regs = c8.regs from rfl, hregs8, Cpu.pop, hword7, hregs7,
      show (c6.addEsp (-36)).regs = c6.regs from rfl, hregs6, hpopRegs]
  have hmem : ∀ a, entry.esp ≤ a → a < entry.esp + 20 →
      (serviceAll (ints 9) (c8.addEsp 32)).mem a = c.mem a := by
    intro a ha hatop
    rw [habove9 a (by omega) (by omega), show (c8.addEsp 32).mem = c8.mem from rfl,
      habove8 a (by omega) (by omega), show (c7.pop .eax).mem = c7.mem from rfl,
      habove7 a (by omega) (by omega), show (c6.addEsp (-36)).mem = c6.mem from rfl,
      habove6 a (by omega) (by omega)]
    rfl
  have hrun : runCode table ints 6 [.popa, .addlEsp (-36), .popl .eax, .addlEsp 32] c =
      serviceAll (ints 9) (c8.addEsp 32) := rfl
  rw [hrun]
  refine ⟨?_, fun r hr => ?_, hesp9.trans hback, fun a ha hatop => ?_⟩
  · rw [hregs, Function.update_self]
  · rw [hregs, Function.update_of_ne hr]
  · rw [hmem a ha hatop, hsaved.frame a ha hatop]

/-- Everything but `eax` is always as it should be, and `eax` is the word that is found. -/
theorem handlerSyscall_spec (entry : Cpu) (htop : entry.esp + 20 = top) (hroom : 128 ≤ entry.esp)
    (hlow : 1 ≤ (entry.regs .eax).toInt) (hhigh : (entry.regs .eax).toInt ≤ 10) :
    RegisterContract entry (fetchedWord ints entry (table (entry.regs .eax).toNat).value)
      (handlerSyscall table ints entry) := by
  obtain ⟨c, hentry, hregs, hesp, hsaved⟩ := entryCode_spec table hroom
  obtain ⟨c', hcall, heax, hesp', hsaved'⟩ := call_spec table ints htop hroom hregs
    hesp hsaved
  obtain ⟨c'', hdrop, hesp'', hsaved'', hword⟩ := drop_spec table ints htop hroom
    hesp' hsaved'
  have hvalid : ¬ ((c.regs .eax).toInt < 1 ∨ (c.regs .eax).toInt > 10) := by
    rw [hregs]
    omega
  rw [heax] at hword
  rw [handlerSyscall]
  simp only [hentry]
  rw [if_neg hvalid, hcall, hdrop]
  exact fetch_spec table ints htop hroom hesp'' hsaved'' hword

end

/-! ### When the contract holds -/

/-- A system call that only returns a value. -/
def returning (top : Nat) (v : BitVec 32) : SysCall top where
  run := fun c => { c with regs := Function.update c.regs .eax v }
  esp := fun _ => rfl
  saved := fun c r hr => Function.update_of_ne (by rintro rfl; simp at hr) _ _
  above := fun _ _ _ _ => rfl
  value := v
  returns := fun c => by simp

theorem kernelStackTop_room {k : Nat} (hmax : k ≤ maxProcesses) : 148 ≤ kernelStackTop k := by
  simp only [kernelStackTop, pcbAddr, addr8MB, addr8KB, maxProcesses] at *
  omega

/-- On the kernel stack of any process, a placement of interrupts keeps the register contract for all
registers at entry and all returned values exactly if it has none after `addl $4, %esp` and none after
`popa`, where the value is below the stack pointer. -/
theorem syscall_contract_iff {k : Nat} (hmax : k ≤ maxProcesses)
    (ints : Nat → List (Interrupt (kernelStackTop k))) :
    (∀ (table : Nat → SysCall (kernelStackTop k)) (entry : Cpu), entry.esp + 20 = kernelStackTop k →
      1 ≤ (entry.regs .eax).toInt → (entry.regs .eax).toInt ≤ 10 →
      RegisterContract entry (table (entry.regs .eax).toNat).value (handlerSyscall table ints entry)) ↔
    ints afterDrop = [] ∧ ints afterPopa = [] := by
  have htop := kernelStackTop_room hmax
  constructor
  · intro hcontract
    -- a call that returns a value other than both words an interrupt can leave
    have hvalue : ∀ v, fetchedWord ints ⟨fun _ => 1, kernelStackTop k - 20, fun _ => 0⟩ v = v := by
      intro v
      have hroom : 128 ≤ kernelStackTop k - 20 := by omega
      have hesp : kernelStackTop k - 20 + 20 = kernelStackTop k := by omega
      have hfound := handlerSyscall_spec (fun _ => returning (kernelStackTop k) v) ints
        ⟨fun _ => 1, kernelStackTop k - 20, fun _ => 0⟩ hesp hroom
        (show 1 ≤ (1 : BitVec 32).toInt by decide) (show (1 : BitVec 32).toInt ≤ 10 by decide)
      have hheld := hcontract (fun _ => returning (kernelStackTop k) v)
        ⟨fun _ => 1, kernelStackTop k - 20, fun _ => 0⟩ hesp
        (show 1 ≤ (1 : BitVec 32).toInt by decide) (show (1 : BitVec 32).toInt ≤ 10 by decide)
      exact hfound.eax.symm.trans hheld.eax
    have hpopa : ints afterPopa = [] := by
      by_contra hne
      have htwo := hvalue 2
      rw [fetchedWord, if_neg hne] at htwo
      exact absurd (show (1 : BitVec 32) = 2 from htwo) (by decide)
    refine ⟨?_, hpopa⟩
    by_contra hne
    have hflags : ∀ v, ((ints afterDrop).getLast hne).eflags = v := by
      intro v
      have hv := hvalue v
      rwa [fetchedWord, if_pos hpopa, droppedWord, List.getLast?_eq_getLast_of_ne_nil hne] at hv
    exact absurd ((hflags 0).symm.trans (hflags 1)) (by decide)
  · rintro ⟨hdrop, hpopa⟩ table entry hesp hlow hhigh
    have hfound := handlerSyscall_spec table ints entry hesp (by omega) hlow hhigh
    rwa [fetchedWord, if_pos hpopa, droppedWord, hdrop] at hfound

/-- A keyboard interrupt whose handler changes no memory. -/
def keyboardInterrupt (top : Nat) : Interrupt top where
  eflags := 0x202
  cs := 0x10
  eip := 0x400000
  irq := 1
  picHandler :=
    { run := id
      esp := fun _ => rfl
      saved := fun _ _ _ => rfl
      above := fun _ _ _ _ => rfl }

/-- `open` with its name at 0x8048000, which finds descriptor 2, on the kernel stack of process 3. -/
def openEntry : Cpu where
  regs := fun r => if r = .eax then 5 else if r = .ebx then 0x8048000 else 0
  esp := kernelStackTop 3 - 20
  mem := fun _ => 0

/-- Keyboard interrupts before the call and after the value is fetched are harmless. -/
theorem syscall_contract_iff_harmless :
    RegisterContract openEntry 2 (handlerSyscall (fun _ => returning (kernelStackTop 3) 2)
      (fun n => if n = 0 ∨ n = 8 then [keyboardInterrupt _] else []) openEntry) :=
  (syscall_contract_iff (k := 3) (by decide) _).mpr ⟨rfl, rfl⟩ (fun _ => returning _ 2) openEntry
    (by decide) (by decide) (by decide)

/-- A keyboard interrupt right after `popa` makes the call return its first argument. -/
theorem interrupt_after_popa_returns_ebx :
    (handlerSyscall (fun _ => returning (kernelStackTop 3) 2)
      (fun n => if n = afterPopa then [keyboardInterrupt _] else []) openEntry).regs .eax = 0x8048000 ∧
    ¬ RegisterContract openEntry 2 (handlerSyscall (fun _ => returning (kernelStackTop 3) 2)
      (fun n => if n = afterPopa then [keyboardInterrupt _] else []) openEntry) := by
  have hfound := handlerSyscall_spec (fun _ => returning (kernelStackTop 3) 2)
    (fun n => if n = afterPopa then [keyboardInterrupt _] else []) openEntry
    (by decide) (by decide) (by decide) (by decide)
  have heax := hfound.eax
  simp only [fetchedWord, if_true, List.cons_ne_nil, if_false] at heax
  refine ⟨heax, fun hcontract => ?_⟩
  have htwo := heax.symm.trans hcontract.eax
  exact absurd htwo (by decide)

end UnixOs
