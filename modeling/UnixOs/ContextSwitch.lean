import UnixOs.KernelState
import UnixOs.X86Stack

/-! `change_task` and `save_pcb_regs` of `sched.c`: the frame of a timer interrupt is stored in the block of
the process at the front of the queue, and the process behind it is resumed from its own block. The queue
is the list of its live entries, which `pq_rotate` turns by one place. -/

namespace UnixOs

/-- `registers_t` -/
structure Registers where
  edi : BitVec 32
  esi : BitVec 32
  ebp : BitVec 32
  esp : BitVec 32
  ebx : BitVec 32
  edx : BitVec 32
  ecx : BitVec 32
  eax : BitVec 32
  intNum : BitVec 32
  errorCode : BitVec 32
  eip : BitVec 32
  cs : BitVec 32
  eflags : BitVec 32
  useresp : BitVec 32
  ss : BitVec 32

/-- `KERNEL_CS` -/
def kernelCs : BitVec 32 := 0x10

/-- `KERNEL_DS` -/
def kernelDs : BitVec 32 := 0x18

/-- `USER_CS` -/
def userCs : BitVec 32 := 0x23

/-- `USER_DS` -/
def userDs : BitVec 32 := 0x2B

/-- The fields that `save_pcb_regs` stores, by their offsets in the block. -/
def savedWords (regs : Registers) : List (Nat × BitVec 32) :=
  [(0, regs.eip), (4, regs.esp), (8, regs.ebp), (12, regs.edi), (16, regs.esi), (20, regs.ebx), (24, regs.edx),
    (28, regs.ecx), (32, regs.eax), (36, regs.cs), (40, regs.eflags), (44, regs.useresp), (48, regs.ss)]

/-- `save_pcb_regs` -/
def savePcbRegs (m : Mem) (curr : Nat) (regs : Registers) : Mem :=
  m.storeWords ((savedWords regs).map fun w => (curr + w.1, w.2.toNat))

/-- The field `pid` of a block. -/
def pidAddr (pcb : Nat) : Nat := pcb + 52

/-! ### The instructions that resume a process -/

/-- The registers and the words pushed, the last one first. -/
structure TaskCpu where
  regs : Reg → BitVec 32
  stack : List (BitVec 32)

inductive TaskInstr where
  | movl (v : BitVec 32) (r : Reg)
  | pushl (v : BitVec 32)
  | pushReg (r : Reg)
  | popl (r : Reg)
  | orl (v : BitVec 32) (r : Reg)

def TaskInstr.exec (c : TaskCpu) : TaskInstr → TaskCpu
  | .movl v r => { c with regs := Function.update c.regs r v }
  | .pushl v => { c with stack := v :: c.stack }
  | .pushReg r => { c with stack := c.regs r :: c.stack }
  | .popl r => { regs := Function.update c.regs r (c.stack.headD 0), stack := c.stack.tail }
  | .orl v r => { c with regs := Function.update c.regs r (c.regs r ||| v) }

/-- What runs after `iret`; the stack pointer and its segment are popped only on a return to user level. -/
structure Context where
  regs : Reg → BitVec 32
  eip : BitVec 32
  cs : BitVec 32
  eflags : BitVec 32
  userStack : Option (BitVec 32 × BitVec 32)

def TaskCpu.word (c : TaskCpu) (i : Nat) : BitVec 32 := c.stack.getD i 0

/-- `iret` from kernel level. -/
def iret (c : TaskCpu) : Context where
  regs := c.regs
  eip := c.word 0
  cs := c.word 1
  eflags := c.word 2
  userStack := if c.word 1 &&& 3 = 0 then none else some (c.word 3, c.word 4)

/-- The `asm` statements of `change_task`. Without optimization its locals stay in its frame, so the values
moved and pushed are those of the block. -/
def resumeInstrs (m : Mem) (next : Nat) (dataSegment codeSegment tmpEsp : BitVec 32) : List TaskInstr :=
  [.movl (m.word (next + 12)) .edi, .movl (m.word (next + 16)) .esi, .movl (m.word (next + 20)) .ebx,
    .movl (m.word (next + 24)) .edx, .movl (m.word (next + 28)) .ecx, .movl (m.word (next + 32)) .eax,
    .pushl dataSegment, .pushl tmpEsp, .pushl (m.word (next + 40)), .popl .eax, .orl 0x286 .eax, .pushReg .eax,
    .pushl codeSegment, .pushl (m.word next)]

/-- The live processes, front first, with the blocks and what the processor uses of the running process. -/
structure Tasks where
  mem : Mem
  live : List Nat
  pdUser : Nat
  tssEsp0 : BitVec 32

/-- `change_task`. `cpu` holds the registers on entry and `entryEsp` the stack pointer; the prologue sets
`ebp` to the frame of the function. -/
def changeTask (t : Tasks) (regs : Registers) (cpu : TaskCpu) (entryEsp : BitVec 32) : Tasks × Context :=
  let cpu := { cpu with regs := Function.update cpu.regs .ebp (entryEsp - 4) }
  let m := savePcbRegs t.mem (t.live.headD 0) regs
  let live := t.live.rotate 1
  let next := live.headD 0
  let kernel : Bool := m.word (next + 36) = kernelCs
  let dataSegment := if kernel then kernelDs else userDs
  let codeSegment := if kernel then kernelCs else userCs
  let tmpEsp := if kernel then m.word (next + 4) else m.word (next + 44)
  let pid := m.word (pidAddr next)
  ({ mem := m
     live := live
     pdUser := init4mbUserPde (BitVec.ofNat 32 addr4MB + pid * BitVec.ofNat 32 addr4MB).toNat
     tssEsp0 := BitVec.ofNat 32 addr8MB - pid * BitVec.ofNat 32 addr8KB - 4 },
    iret ((resumeInstrs m next dataSegment codeSegment tmpEsp).foldl TaskInstr.exec cpu))

/-! ### Runs of switches -/

/-- A switch: the process preempted and its frame, the entry to `change_task`, the process resumed and what
runs then. -/
structure Switch where
  preempted : Nat
  regs : Registers
  cpu : TaskCpu
  entryEsp : BitVec 32
  resumed : Nat
  context : Context

def switchOf (t : Tasks) (regs : Registers) (cpu : TaskCpu) (entryEsp : BitVec 32) : Switch :=
  ⟨t.live.headD 0, regs, cpu, entryEsp, (t.live.rotate 1).headD 0, (changeTask t regs cpu entryEsp).2⟩

/-- A timer interrupt taken in user mode. -/
inductive SwitchStep : Tasks → Switch → Tasks → Prop
  | tick (t : Tasks) (regs : Registers) (cpu : TaskCpu) (entryEsp : BitVec 32) (huser : regs.cs = userCs) :
      SwitchStep t (switchOf t regs cpu entryEsp) (changeTask t regs cpu entryEsp).1

/-- The frame stored for each process at its last preemption. -/
def lastSaved (es : List Switch) : Nat → Option Registers :=
  es.foldl (fun saved e => Function.update saved e.preempted (some e.regs)) fun _ => none

/-- Live processes, each with its number in its block. -/
structure LiveTasks (pids : List Nat) (t : Tasks) : Prop where
  two : 2 ≤ pids.length
  distinct : pids.Nodup
  range : ∀ pid ∈ pids, 1 ≤ pid ∧ pid ≤ maxProcesses
  entries : t.live = pids.map pcbAddr
  numbered : ∀ pid ∈ pids, t.mem.word (pidAddr (pcbAddr pid)) = BitVec.ofNat 32 pid

/-- The context of a process preempted with the frame `regs` is back, with its page and its kernel stack. -/
structure Resumes (regs : Registers) (pid : Nat) (t : Tasks) (c : Context) : Prop where
  eip : c.eip = regs.eip
  stack : c.userStack = some (regs.useresp, userDs)
  edi : c.regs .edi = regs.edi
  esi : c.regs .esi = regs.esi
  ebp : c.regs .ebp = regs.ebp
  ebx : c.regs .ebx = regs.ebx
  edx : c.regs .edx = regs.edx
  ecx : c.regs .ecx = regs.ecx
  eax : c.regs .eax = regs.eax
  eflags : c.eflags = regs.eflags ||| 0x286
  cs : c.cs = userCs
  page : t.pdUser = init4mbUserPde (addr4MB + pid * addr4MB)
  esp0 : t.tssEsp0.toNat = addr8MB - pid * addr8KB - 4

/-- A block holds a saved frame. -/
def HoldsRegs (m : Mem) (pcb : Nat) (regs : Registers) : Prop :=
  ∀ w ∈ savedWords regs, m.word (pcb + w.1) = w.2

theorem savedWords_offset {regs : Registers} {w : Nat × BitVec 32} (hw : w ∈ savedWords regs) : w.1 ≤ 48 := by
  have hall : ∀ o ∈ (savedWords regs).map Prod.fst, o ≤ 48 := by
    simp only [savedWords, List.map_cons, List.map_nil]
    decide
  exact hall _ (List.mem_map_of_mem hw)

theorem savePcbRegs_load32 (m : Mem) {curr a : Nat} (regs : Registers) (h : a + 4 ≤ curr ∨ curr + 52 ≤ a) :
    (savePcbRegs m curr regs).load32 a = m.load32 a := by
  rw [savePcbRegs, Mem.load32_storeWords_of_apart]
  intro w hw
  obtain ⟨v, hv, rfl⟩ := List.mem_map.mp hw
  have hoffset := savedWords_offset hv
  omega

theorem savePcbRegs_word (m : Mem) {curr a : Nat} (regs : Registers) (h : a + 4 ≤ curr ∨ curr + 52 ≤ a) :
    (savePcbRegs m curr regs).word a = m.word a := by
  rw [Mem.word, savePcbRegs_load32 m regs h, Mem.word]

theorem savePcbRegs_holds (m : Mem) (curr : Nat) (regs : Registers) :
    HoldsRegs (savePcbRegs m curr regs) curr regs := by
  intro w hw
  have happart : ((savedWords regs).map fun w => (curr + w.1, w.2.toNat)).Pairwise
      fun w w' => w.1 + 4 ≤ w'.1 ∨ w'.1 + 4 ≤ w.1 := by
    rw [List.pairwise_map]
    have hoffsets : ((savedWords regs).map Prod.fst).Pairwise fun o o' => o + 4 ≤ o' := by
      simp only [savedWords, List.map_cons, List.map_nil]
      decide
    refine (List.pairwise_map.mp hoffsets).imp ?_
    intro v v' hv
    exact .inl (by omega)
  rw [Mem.word, savePcbRegs, Mem.load32_storeWords m happart (List.mem_map_of_mem hw),
    Nat.mod_eq_of_lt w.2.isLt, BitVec.ofNat_toNat, BitVec.setWidth_eq]

theorem HoldsRegs.save_apart {m : Mem} {pcb curr : Nat} {regs : Registers} (h : HoldsRegs m pcb regs)
    (regs' : Registers) (hapart : pcb + 52 ≤ curr ∨ curr + 52 ≤ pcb) :
    HoldsRegs (savePcbRegs m curr regs') pcb regs := by
  intro w hw
  have hoffset := savedWords_offset hw
  rw [savePcbRegs_word m regs' (by omega)]
  exact h w hw

/-- The blocks of two processes do not meet. -/
theorem pcbAddr_apart {p q : Nat} (hp : p ≤ maxProcesses) (hq : q ≤ maxProcesses) (hne : p ≠ q) :
    pcbAddr p + addr8KB ≤ pcbAddr q ∨ pcbAddr q + addr8KB ≤ pcbAddr p := by
  simp only [pcbAddr, addr8MB, addr8KB, maxProcesses] at *
  omega

/-- What the instructions leave: all registers but `eax`, which holds the flags, and `ebp`. -/
theorem iret_resume (m : Mem) (next : Nat) (dataSegment codeSegment tmpEsp : BitVec 32) (cpu : TaskCpu) :
    iret ((resumeInstrs m next dataSegment codeSegment tmpEsp).foldl TaskInstr.exec cpu) =
      { regs := fun r => match r with
          | .eax => m.word (next + 40) ||| 0x286
          | .ecx => m.word (next + 28)
          | .edx => m.word (next + 24)
          | .ebx => m.word (next + 20)
          | .ebp => cpu.regs .ebp
          | .esi => m.word (next + 16)
          | .edi => m.word (next + 12)
        eip := m.word next
        cs := codeSegment
        eflags := m.word (next + 40) ||| 0x286
        userStack := if codeSegment &&& 3 = 0 then none else some (tmpEsp, dataSegment) } := by
  rw [iret, Context.mk.injEq]
  refine ⟨?_, rfl, rfl, rfl, rfl⟩
  funext r
  cases r <;> rfl

theorem frame_base {pid : Nat} (h : pid ≤ maxProcesses) :
    (BitVec.ofNat 32 addr4MB + BitVec.ofNat 32 pid * BitVec.ofNat 32 addr4MB).toNat =
      addr4MB + pid * addr4MB := by
  rw [BitVec.toNat_add, BitVec.toNat_mul, BitVec.toNat_ofNat, BitVec.toNat_ofNat]
  simp only [addr4MB, maxProcesses] at *
  omega

theorem kernel_stack {pid : Nat} (hpos : 1 ≤ pid) (h : pid ≤ maxProcesses) :
    (BitVec.ofNat 32 addr8MB - BitVec.ofNat 32 pid * BitVec.ofNat 32 addr8KB - 4).toNat =
      addr8MB - pid * addr8KB - 4 := by
  have hfour : (4 : BitVec 32).toNat = 4 := rfl
  rw [BitVec.toNat_sub, BitVec.toNat_sub, BitVec.toNat_mul, BitVec.toNat_ofNat, BitVec.toNat_ofNat,
    BitVec.toNat_ofNat, hfour]
  simp only [addr8MB, addr8KB, maxProcesses] at *
  omega

section

variable {t : Tasks} {frame regs : Registers} {cpu : TaskCpu} {entryEsp : BitVec 32} {pid : Nat}

/-- A block with a frame saved in user mode is resumed from that frame, except for two registers. -/
theorem changeTask_resumes_iff (hpid : 1 ≤ pid ∧ pid ≤ maxProcesses)
    (hnext : (t.live.rotate 1).headD 0 = pcbAddr pid)
    (hnumber : (changeTask t frame cpu entryEsp).1.mem.word (pidAddr (pcbAddr pid)) = BitVec.ofNat 32 pid)
    (hholds : HoldsRegs (changeTask t frame cpu entryEsp).1.mem (pcbAddr pid) regs) (huser : regs.cs = userCs) :
    Resumes regs pid (changeTask t frame cpu entryEsp).1 (changeTask t frame cpu entryEsp).2 ↔
      regs.eax = regs.eflags ||| 0x286 ∧ regs.ebp = entryEsp - 4 := by
  simp only [changeTask, hnext] at hnumber hholds ⊢
  rw [HoldsRegs] at hholds
  generalize savePcbRegs t.mem (t.live.headD 0) frame = m at *
  simp only [savedWords, List.forall_mem_cons] at hholds
  obtain ⟨heip, hesp, hebp, hedi, hesi, hebx, hedx, hecx, heax, hcs, heflags, huseresp, hss, -⟩ := hholds
  have hkernel : ¬ regs.cs = kernelCs := by
    rw [huser]
    decide
  rw [iret_resume, hnumber, hcs]
  simp only [hkernel, decide_false, Bool.false_eq_true, if_false]
  constructor
  · intro h
    have heaxNow := h.eax
    have hebpNow := h.ebp
    simp only [heflags, Function.update_self] at heaxNow hebpNow
    exact ⟨heaxNow.symm, hebpNow.symm⟩
  · rintro ⟨heaxEq, hebpEq⟩
    refine ⟨heip, ?_, hedi, hesi, ?_, hebx, hedx, hecx, ?_, ?_, rfl, ?_, ?_⟩
    · exact congrArg (fun esp => some (esp, userDs)) huseresp
    · exact hebpEq.symm
    · rw [heaxEq, heflags]
    · rw [heflags]
    · rw [frame_base hpid.2]
    · rw [kernel_stack hpid.1 hpid.2]

end

/-! ### Every switch of a run -/

/-- After the switches `es` the queue holds the same processes, each with its number and the frame of its
last preemption. -/
structure SwitchInv (pids : List Nat) (es : List Switch) (t : Tasks) : Prop where
  nonempty : t.live ≠ []
  entries : ∀ p ∈ t.live, ∃ pid ∈ pids, p = pcbAddr pid
  numbered : ∀ pid ∈ pids, t.mem.word (pidAddr (pcbAddr pid)) = BitVec.ofNat 32 pid
  saved : ∀ pid ∈ pids, ∀ regs, lastSaved es (pcbAddr pid) = some regs →
    HoldsRegs t.mem (pcbAddr pid) regs ∧ regs.cs = userCs

theorem lastSaved_append (es : List Switch) (e : Switch) :
    lastSaved (es ++ [e]) = Function.update (lastSaved es) e.preempted (some e.regs) := by
  rw [lastSaved, List.foldl_append]
  rfl

theorem mem_headD {l : List Nat} (h : l ≠ []) : l.headD 0 ∈ l := by
  obtain ⟨p, l', rfl⟩ := List.exists_cons_of_ne_nil h
  exact List.mem_cons_self

theorem switchInv_start {pids : List Nat} {t : Tasks} (h : LiveTasks pids t) : SwitchInv pids [] t := by
  refine ⟨?_, ?_, h.numbered, fun _ _ _ hnone => absurd hnone (by simp [lastSaved])⟩
  · rw [h.entries]
    intro hnil
    have htwo := h.two
    rw [List.map_eq_nil_iff.mp hnil] at htwo
    exact absurd htwo (by decide)
  · intro p hp
    rw [h.entries] at hp
    obtain ⟨pid, hpid, rfl⟩ := List.mem_map.mp hp
    exact ⟨pid, hpid, rfl⟩

theorem SwitchInv.step {pids : List Nat} {es : List Switch} {e : Switch} {t t' : Tasks}
    (hrange : ∀ pid ∈ pids, 1 ≤ pid ∧ pid ≤ maxProcesses) (h : SwitchInv pids es t) (hstep : SwitchStep t e t') :
    SwitchInv pids (es ++ [e]) t' := by
  cases hstep with
  | tick regs cpu entryEsp huser =>
      obtain ⟨q, hq, hfront⟩ := h.entries _ (mem_headD h.nonempty)
      have hmem : (changeTask t regs cpu entryEsp).1.mem = savePcbRegs t.mem (pcbAddr q) regs := by
        rw [← hfront]
        rfl
      refine ⟨?_, ?_, ?_, ?_⟩
      · exact fun hnil => h.nonempty (List.rotate_eq_nil_iff.mp hnil)
      · exact fun p hp => h.entries p (List.mem_rotate.mp hp)
      · intro pid hpid
        rw [hmem, savePcbRegs_word, h.numbered pid hpid]
        by_cases heq : pid = q
        · rw [heq]
          exact .inr le_rfl
        · have hapart := pcbAddr_apart (hrange pid hpid).2 (hrange q hq).2 heq
          simp only [pidAddr, addr8KB] at hapart ⊢
          omega
      · intro pid hpid regs' hsaved
        rw [lastSaved_append, switchOf, hfront] at hsaved
        rw [hmem]
        by_cases heq : pid = q
        · rw [heq, Function.update_self] at hsaved
          obtain rfl := Option.some.inj hsaved
          rw [heq]
          exact ⟨savePcbRegs_holds _ _ _, huser⟩
        · have hapart := pcbAddr_apart (hrange pid hpid).2 (hrange q hq).2 heq
          have hne : pcbAddr pid ≠ pcbAddr q := by
            intro hsame
            rw [hsame] at hapart
            simp only [addr8KB] at hapart
            omega
          rw [Function.update_of_ne hne] at hsaved
          obtain ⟨hholds, hcs⟩ := h.saved pid hpid regs' hsaved
          refine ⟨hholds.save_apart regs ?_, hcs⟩
          simp only [addr8KB] at hapart
          omega

theorem switchInv_run {pids : List Nat} {start t : Tasks} {es : List Switch} (hstart : LiveTasks pids start)
    (hrun : Run SwitchStep start es t) : SwitchInv pids es t := by
  induction hrun with
  | nil => exact switchInv_start hstart
  | snoc _ hlast ih => exact ih.step hstart.range hlast

/-- At every switch of a run one of the live processes is resumed. If it was preempted before, its context
comes back exactly when it was preempted with the flags to be restored in `eax` and with the frame pointer
of `change_task` in `ebp`. -/
theorem switch_resumes_iff {pids : List Nat} {start t : Tasks} {es : List Switch} {e : Switch}
    (hstart : LiveTasks pids start) (hrun : Run SwitchStep start (es ++ [e]) t) :
    ∃ pid ∈ pids, e.resumed = pcbAddr pid ∧
      ∀ regs, lastSaved (es ++ [e]) e.resumed = some regs →
        (Resumes regs pid t e.context ↔ regs.eax = regs.eflags ||| 0x286 ∧ regs.ebp = e.entryEsp - 4) := by
  obtain ⟨mid, hbefore, hlast⟩ := hrun.last
  have hinv := switchInv_run hstart hrun
  cases hlast with
  | tick frame cpu entryEsp huser =>
      obtain ⟨pid, hpid, hnext⟩ := hinv.entries _ (mem_headD hinv.nonempty)
      refine ⟨pid, hpid, hnext, fun regs hsaved => ?_⟩
      rw [show (switchOf _ frame cpu entryEsp).resumed = pcbAddr pid from hnext] at hsaved
      obtain ⟨hholds, hcs⟩ := hinv.saved pid hpid regs hsaved
      exact changeTask_resumes_iff (hstart.range pid hpid) hnext (hinv.numbered pid hpid) hholds hcs

/-- Two processes and the frames of two timer interrupts. -/
def twoTasks : Tasks where
  mem := Mem.storeWords (fun _ => 0) [(pidAddr (pcbAddr 1), 1), (pidAddr (pcbAddr 2), 2)]
  live := [pcbAddr 1, pcbAddr 2]
  pdUser := 0
  tssEsp0 := 0

def plainFrame : Registers := ⟨0, 0, 0, 0, 0, 0, 0, 0, 0, 0, 0x08048000, userCs, 0x200, 0x083FFFFC, userDs⟩

def plainCpu : TaskCpu := ⟨fun _ => 0, []⟩

def firstSwitch : Switch := switchOf twoTasks plainFrame plainCpu 0x7FDF00

def afterFirst : Tasks := (changeTask twoTasks plainFrame plainCpu 0x7FDF00).1

def secondSwitch : Switch := switchOf afterFirst plainFrame plainCpu 0x7FBF00

def afterSecond : Tasks := (changeTask afterFirst plainFrame plainCpu 0x7FBF00).1

theorem twoTasks_live : LiveTasks [1, 2] twoTasks := by
  refine ⟨by decide, by decide, by decide, rfl, ?_⟩
  decide

theorem twoTasks_run : Run SwitchStep twoTasks ([firstSwitch] ++ [secondSwitch]) afterSecond :=
  .snoc (.snoc .nil (.tick _ _ _ _ rfl)) (.tick _ _ _ _ rfl)

theorem switch_resumes_first_of_two :
    ∃ pid ∈ [1, 2], secondSwitch.resumed = pcbAddr pid ∧
      ∀ regs, lastSaved ([firstSwitch] ++ [secondSwitch]) secondSwitch.resumed = some regs →
        (Resumes regs pid afterSecond secondSwitch.context ↔
          regs.eax = regs.eflags ||| 0x286 ∧ regs.ebp = secondSwitch.entryEsp - 4) :=
  switch_resumes_iff twoTasks_live twoTasks_run

/-- The first process is resumed with its flags in `eax`. -/
theorem switch_loses_eax :
    LiveTasks [1, 2] twoTasks ∧ Run SwitchStep twoTasks ([firstSwitch] ++ [secondSwitch]) afterSecond ∧
      secondSwitch.resumed = pcbAddr 1 ∧
      lastSaved ([firstSwitch] ++ [secondSwitch]) (pcbAddr 1) = some plainFrame ∧
      ¬ Resumes plainFrame 1 afterSecond secondSwitch.context := by
  have hinv := switchInv_run twoTasks_live twoTasks_run
  have hsaved : lastSaved ([firstSwitch] ++ [secondSwitch]) (pcbAddr 1) = some plainFrame := by
    have hother : pcbAddr 1 ≠ secondSwitch.preempted := by decide
    rw [lastSaved_append, Function.update_of_ne hother]
    rfl
  obtain ⟨hholds, hcs⟩ := hinv.saved 1 (by decide) plainFrame hsaved
  refine ⟨twoTasks_live, twoTasks_run, rfl, hsaved, ?_⟩
  rw [afterSecond, secondSwitch, switchOf,
    changeTask_resumes_iff (by decide) rfl (hinv.numbered 1 (by decide)) hholds hcs]
  decide

end UnixOs
