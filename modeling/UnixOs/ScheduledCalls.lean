import UnixOs.ContextSwitch
import UnixOs.ProcessExit

/-! System calls while timer interrupts switch between the processes. The calls find the running process by the
number of processes, the switches by the queue; the two agree when the queue has been turned all the way
round since the last process was started or ended. -/

namespace UnixOs

open ProcessQueue

variable {fops : FopsTables} {fs : FileSys} {k k' : Kernel}

/-- What `change_task` works on. -/
def Kernel.tasks (k : Kernel) : Tasks where
  mem := k.mem
  live := k.processQ.live k.processCount
  pdUser := k.pdUser
  tssEsp0 := BitVec.ofNat 32 k.tssEsp0

/-- A call of `execute` or `halt`, or a timer interrupt. -/
inductive SchedEvent where
  | call (e : ProcessCall)
  | tick

/-- The calls that return or enter a program, and the switches. `change_task` is taken as enabled, once all
terminals have their shells, and `pq_rotate` as turning the live entries by one place. -/
inductive SchedStep (fops : FopsTables) (fs : FileSys) : Kernel → SchedEvent → Kernel → Prop
  | start {k k' : Kernel} {locals : ExecuteLocals} {command : List UInt8} {eip esp : Nat}
      (hexec : execute fops fs locals k command = .ok (k', .iret eip esp)) :
      SchedStep fops fs k (.call (.started command)) k'
  | refuse {k k' : Kernel} {locals : ExecuteLocals} {command : List UInt8}
      (hexec : execute fops fs locals k command = .ok (k', .fail)) :
      SchedStep fops fs k (.call (.refused command)) k'
  | halt {k k' : Kernel} {locals : ExecuteLocals} {ebp : Nat} {ending : HaltEnd} (hsome : 0 < k.processCount)
      (hhalt : halt fops fs locals k ebp = .ok (k', ending)) : SchedStep fops fs k (.call .halted) k'
  | tick {k : Kernel} {q : ProcessQueue} (regs : Registers) (cpu : TaskCpu) (entryEsp : BitVec 32)
      (henabled : numTerminals ≤ k.processCount) (hring : RingOk q k.processCount)
      (hturned : q.live k.processCount = (changeTask k.tasks regs cpu entryEsp).1.live) :
      SchedStep fops fs k .tick
        { k with
          mem := (changeTask k.tasks regs cpu entryEsp).1.mem
          processQ := q
          pdUser := (changeTask k.tasks regs cpu entryEsp).1.pdUser
          tssEsp0 := (changeTask k.tasks regs cpu entryEsp).1.tssEsp0.toNat }

/-- The switches since the last process was started or ended. -/
def SchedEvent.ticksAfter (n : Nat) : SchedEvent → Nat
  | .tick => n + 1
  | .call (.refused _) => n
  | .call _ => 0

/-- A step of the kernel with the switches counted; calls are made only when the queue is turned all the way
round. -/
def InTurnStep (fops : FopsTables) (fs : FileSys) (s : Kernel × Nat) (e : SchedEvent) (s' : Kernel × Nat) : Prop :=
  SchedStep fops fs s.1 e s'.1 ∧ s'.2 = e.ticksAfter s.2 ∧ (e ≠ .tick → s.2 % s.1.processCount = 0)

/-- System calls made now act on the running process: the block they compute is the one at the front, `halt`
removes and unmaps that process, the numbers of the live processes are distinct, and the slot and the frame
of the next process belong to none of them. -/
structure ActsOnRunning (fops : FopsTables) (fs : FileSys) (k : Kernel) : Prop where
  current : pqPeak k.processQ = k.currentPblock
  ended : ∀ locals ebp k' ending, halt fops fs locals k ebp = .ok (k', ending) →
    k'.processCount = k.processCount - 1 ∧
      k.processQ.live k.processCount = k.currentPblock :: k'.processQ.live k'.processCount ∧
      k'.pdUser = init4mbUserPde (addr4MB + (k.processCount - 1) * addr4MB)
  distinct : ((k.processQ.live k.processCount).map fun p => k.mem.load32 (p + 52)).Nodup
  freshSlot : pcbAddr (k.processCount + 1) ∉ k.processQ.live k.processCount
  freshFrame : ∀ p ∈ k.processQ.live k.processCount, k.mem.load32 (p + 52) ≠ k.processCount + 1

/-! ### The queue turned by some places -/

theorem length_newestFirst (n : Nat) : (newestFirst n).length = n := by
  induction n with
  | zero => rfl
  | succ n ih => rw [newestFirst, List.length_cons, ih]

theorem mem_newestFirst {n a : Nat} : a ∈ newestFirst n ↔ ∃ p, 1 ≤ p ∧ p ≤ n ∧ a = pcbAddr p := by
  induction n with
  | zero =>
      constructor
      · exact fun h => absurd h List.not_mem_nil
      · rintro ⟨p, hone, hle, -⟩
        omega
  | succ n ih =>
      rw [newestFirst, List.mem_cons, ih]
      constructor
      · rintro (rfl | ⟨p, hone, hle, rfl⟩)
        · exact ⟨n + 1, by omega, le_rfl, rfl⟩
        · exact ⟨p, hone, by omega, rfl⟩
      · rintro ⟨p, hone, hle, rfl⟩
        rcases Nat.lt_or_ge n p with hnew | hold
        · exact .inl (by rw [show p = n + 1 by omega])
        · exact .inr ⟨p, hone, hold, rfl⟩

theorem getElem_newestFirst (n i : Nat) (h : i < (newestFirst n).length) : (newestFirst n)[i] = pcbAddr (n - i) := by
  induction n generalizing i with
  | zero => exact absurd h (Nat.not_lt_zero i)
  | succ n ih =>
      cases i with
      | zero => rfl
      | succ i =>
          have hi : i < (newestFirst n).length := Nat.lt_of_succ_lt_succ h
          calc (newestFirst (n + 1))[i + 1] = (newestFirst n)[i] := rfl
            _ = pcbAddr (n - i) := ih i hi
            _ = pcbAddr (n + 1 - (i + 1)) := by rw [Nat.add_sub_add_right]

theorem pcbAddr_inj {p q : Nat} (hp : p ≤ maxProcesses + 1) (hq : q ≤ maxProcesses + 1)
    (h : pcbAddr p = pcbAddr q) : p = q := by
  simp only [pcbAddr, addr8MB, addr8KB, maxProcesses] at *
  omega

theorem nodup_newestFirst {n : Nat} (h : n ≤ maxProcesses) : (newestFirst n).Nodup := by
  induction n with
  | zero => exact List.nodup_nil
  | succ n ih =>
      refine List.nodup_cons.mpr ⟨fun hmem => ?_, ih (by omega)⟩
      obtain ⟨p, -, hle, heq⟩ := mem_newestFirst.mp hmem
      have hsame := pcbAddr_inj (by omega) (by omega) heq
      omega

/-- The table after `n` switches since the last start or end. -/
structure TurnedTable (n : Nat) (k : Kernel) : Prop where
  min : numTerminals ≤ k.processCount
  max : k.processCount ≤ maxProcesses
  shells : k.primaryShellCount = numTerminals
  ring : RingOk k.processQ k.processCount
  entries : k.processQ.live k.processCount = (newestFirst k.processCount).rotate n
  blocks : Blocks k.mem k.processCount

namespace TurnedTable

variable {n : Nat}

theorem pos (h : TurnedTable n k) : 0 < k.processCount := lt_of_lt_of_le (by decide) h.min

theorem pqPeak_eq (h : TurnedTable n k) : pqPeak k.processQ = pcbAddr (k.processCount - n % k.processCount) := by
  have hhead := pqPeak_eq_head h.ring h.pos
  have hlength := length_newestFirst k.processCount
  have hpos : 0 < ((newestFirst k.processCount).rotate n).length := by
    rw [List.length_rotate, hlength]
    exact h.pos
  rw [h.entries, List.head?_eq_getElem?, List.getElem?_eq_getElem hpos, List.getElem_rotate, getElem_newestFirst,
    Nat.zero_add, hlength] at hhead
  exact (Option.some.inj hhead).symm

theorem front_iff (h : TurnedTable n k) : pqPeak k.processQ = k.currentPblock ↔ n % k.processCount = 0 := by
  have hlt := Nat.mod_lt n h.pos
  have hmax := h.max
  rw [h.pqPeak_eq, Kernel.currentPblock]
  constructor
  · intro heq
    have hsame := pcbAddr_inj (by omega) (by omega) heq
    omega
  · intro hzero
    rw [hzero, Nat.sub_zero]

theorem entry (h : TurnedTable n k) {a : Nat} (ha : a ∈ k.processQ.live k.processCount) :
    ∃ p, p ≤ k.processCount ∧ a = pcbAddr p ∧ k.mem.load32 (a + 52) = p := by
  rw [h.entries, List.mem_rotate] at ha
  obtain ⟨p, hone, hle, rfl⟩ := mem_newestFirst.mp ha
  exact ⟨p, hle, rfl, h.blocks.pid p hone hle⟩

theorem distinct (h : TurnedTable n k) :
    ((k.processQ.live k.processCount).map fun p => k.mem.load32 (p + 52)).Nodup := by
  refine List.Nodup.map_on ?_ ?_
  · intro a ha b hb heq
    obtain ⟨p, -, rfl, hp⟩ := h.entry ha
    obtain ⟨q, -, rfl, hq⟩ := h.entry hb
    rw [show p = q by omega]
  · rw [h.entries, List.nodup_rotate]
    exact nodup_newestFirst h.max

/-- All the way round, the queue is as it was. -/
theorem processTable (h : TurnedTable n k) (hturn : n % k.processCount = 0) : ProcessTable k := by
  refine ⟨h.max, ?_, h.ring, ?_, h.blocks⟩
  · rw [h.shells, Nat.min_eq_right h.min]
  · rw [h.entries, ← List.rotate_mod, length_newestFirst, hturn, List.rotate_zero]

end TurnedTable

theorem LiveTable.turned (h : LiveTable k) : TurnedTable 0 k := by
  refine ⟨h.min, h.max, ?_, h.ring, ?_, h.blocks⟩
  · rw [h.shells, Nat.min_eq_right h.min]
  · rw [h.entries, List.rotate_zero]

/-! ### Steps -/

theorem Blocks.save {m : Mem} {count q : Nat} (h : Blocks m count) (hmax : count ≤ maxProcesses) (hq : q ≤ count)
    (regs : Registers) : Blocks (savePcbRegs m (pcbAddr q) regs) count := by
  refine h.congr fun p _ hle off hlow hhigh => savePcbRegs_load32 m regs ?_
  by_cases heq : p = q
  · rw [heq]
    omega
  · have hapart := pcbAddr_apart (show p ≤ maxProcesses by omega) (show q ≤ maxProcesses by omega) heq
    simp only [addr8KB] at hapart
    omega

theorem TurnedTable.tick {n : Nat} (h : TurnedTable n k) (hstep : SchedStep fops fs k .tick k') :
    TurnedTable (n + 1) k' := by
  cases hstep with
  | @tick q regs cpu entryEsp henabled hring hturned =>
      have hne : k.processQ.live k.processCount ≠ [] := by
        intro hnil
        have hlength := congrArg List.length hnil
        rw [h.entries, List.length_rotate, length_newestFirst] at hlength
        exact absurd hlength h.pos.ne'
      obtain ⟨p, -, hle, hfront⟩ : ∃ p, 1 ≤ p ∧ p ≤ k.processCount ∧
          (k.processQ.live k.processCount).headD 0 = pcbAddr p := by
        have hmem : (k.processQ.live k.processCount).headD 0 ∈ (newestFirst k.processCount).rotate n := by
          rw [← h.entries]
          exact mem_headD hne
        exact mem_newestFirst.mp (List.mem_rotate.mp hmem)
      refine ⟨h.min, h.max, h.shells, hring, ?_, ?_⟩
      · calc q.live k.processCount = (k.processQ.live k.processCount).rotate 1 := hturned
          _ = ((newestFirst k.processCount).rotate n).rotate 1 := by rw [h.entries]
          _ = (newestFirst k.processCount).rotate (n + 1) := List.rotate_rotate _ _ _
      · have hmem : (changeTask k.tasks regs cpu entryEsp).1.mem = savePcbRegs k.mem (pcbAddr p) regs := by
          rw [← hfront]
          rfl
        simp only [hmem]
        exact h.blocks.save h.max hle regs

theorem TurnedTable.onlyConsole {n : Nat} (h : TurnedTable n k) (hsame : OnlyConsole k k') : TurnedTable n k' := by
  obtain ⟨console, rfl⟩ := hsame
  exact ⟨h.min, h.max, h.shells, h.ring, h.entries, h.blocks⟩

/-- A process that halts has a parent: a shell would fault. -/
theorem ProcessTable.halted {locals : ExecuteLocals} {ebp : Nat} {ending : HaltEnd} (h : ProcessTable k)
    (hmin : numTerminals ≤ k.processCount) (hhalt : halt fops fs locals k ebp = .ok (k', ending)) :
    numTerminals < k.processCount ∧ k' = UnixOs.afterHalt k := by
  have hone : 1 < k.processCount := lt_of_lt_of_le (by decide) hmin
  rcases Nat.eq_or_lt_of_le hmin with heq | hlt
  · have hparent := h.blocks.parent k.processCount hone.le le_rfl
    rw [if_pos heq.ge] at hparent
    rw [halt_null_parent hone h.max hparent] at hhalt
    cases hhalt
  · rw [h.halt_eq hlt] at hhalt
    exact ⟨hlt, (Prod.mk.inj (Except.ok.inj hhalt)).1.symm⟩

/-- At boot, or with the queue turned by the switches counted. -/
def Scheduled (s : Kernel × Nat) : Prop := (AtBoot s.1 ∧ s.2 = 0) ∨ TurnedTable s.2 s.1

theorem Scheduled.called {s : Kernel × Nat} (h : Scheduled s) (hturn : s.2 % s.1.processCount = 0) :
    ProcessTable s.1 ∧ Called s.1 := by
  rcases h with ⟨hboot, -⟩ | h
  · exact ⟨hboot.processTable, .inl ⟨hboot.count, hboot.queue⟩⟩
  · exact ⟨h.processTable hturn, .inr h.min⟩

theorem Scheduled.step {s s' : Kernel × Nat} {e : SchedEvent} (h : Scheduled s)
    (hstep : InTurnStep fops fs s e s') : Scheduled s' := by
  obtain ⟨k, n⟩ := s
  obtain ⟨k', n'⟩ := s'
  obtain ⟨hkernel, hticks, hturn⟩ := hstep
  simp only at hkernel hticks hturn
  subst hticks
  cases e with
  | tick =>
      rcases h with ⟨hboot, -⟩ | h
      · cases hkernel with
        | tick regs cpu entryEsp henabled hring hturned =>
            rw [show k.processCount = 0 from hboot.count] at henabled
            exact absurd henabled (by decide)
      · exact .inr (h.tick hkernel)
  | call call =>
      have hround := hturn (by simp)
      obtain ⟨htable, hcalled⟩ := h.called hround
      cases hkernel with
      | start hexec => exact .inr (htable.execute hcalled hexec).1.turned
      | refuse hexec =>
          obtain ⟨text, rfl⟩ := execute_returned hexec
          rcases h with ⟨hboot, hzero⟩ | h
          · exact .inl ⟨⟨hboot.count, hboot.shells, hboot.queue⟩, hzero⟩
          · exact .inr (h.onlyConsole ⟨_, rfl⟩)
      | halt hsome hhalt =>
          rcases hcalled with ⟨hzero, -⟩ | hmin
          · exact absurd hzero hsome.ne'
          · obtain ⟨hlt, rfl⟩ := htable.halted hmin hhalt
            exact .inr (htable.afterHalt hlt).turned

/-- In such a run the queue is turned by the switches counted. -/
theorem turnedTable_run {boot : Kernel} {es : List SchedEvent} {n : Nat} (hboot : AtBoot boot)
    (hrun : Run (InTurnStep fops fs) (boot, 0) es (k, n)) (hsome : 0 < k.processCount) : TurnedTable n k := by
  have hscheduled : Scheduled (k, n) :=
    hrun.invariant (.inl ⟨hboot, rfl⟩) fun _ _ _ h hstep => h.step hstep
  rcases hscheduled with ⟨hempty, -⟩ | h
  · exact absurd hempty.count hsome.ne'
  · exact h

/-- In every run in which calls are made only when the queue is turned all the way round, system calls act on
the running process exactly when the queue is turned all the way round. -/
theorem calls_act_on_running_iff {boot : Kernel} {es : List SchedEvent} {n : Nat} (hboot : AtBoot boot)
    (hrun : Run (InTurnStep fops fs) (boot, 0) es (k, n)) (hsome : 0 < k.processCount) :
    ActsOnRunning fops fs k ↔ n % k.processCount = 0 := by
  have h := turnedTable_run hboot hrun hsome
  refine ⟨fun hacts => h.front_iff.mp hacts.current, fun hturn => ⟨h.front_iff.mpr hturn, ?_, ?_, ?_, ?_⟩⟩
  · intro locals ebp k' ending hhalt
    have htable := h.processTable hturn
    obtain ⟨hlt, rfl⟩ := htable.halted h.min hhalt
    refine ⟨rfl, ?_, rfl⟩
    have hpred : k.processCount = (afterHalt k).processCount + 1 := (Nat.sub_add_cancel hsome).symm
    rw [htable.entries, (htable.afterHalt hlt).entries, Kernel.currentPblock, hpred, newestFirst]
  · exact h.distinct
  · intro hmem
    obtain ⟨p, hle, heq, -⟩ := h.entry hmem
    have hmax := h.max
    have hsame := pcbAddr_inj (by omega) (by omega) heq
    omega
  · intro a ha
    obtain ⟨p, hle, -, hp⟩ := h.entry ha
    omega

theorem started_bootKernel :
    ∃ first, Run (InTurnStep sampleFops sampleFs) (bootKernel, 0)
        [.call (.started (ascii "shell"))] (first, 0) ∧ LiveTable first ∧ first.processCount = 3 := by
  obtain ⟨prog, first, eip, esp, hexec, -⟩ := execute_shell
    (show inodeOf (checkCommand sampleFs bootKernel clearedLocals (ascii "shell")) = some 0 by decide +kernel)
  have hboot := atBoot_bootKernel
  exact ⟨first, .snoc .nil ⟨.start hexec, rfl, fun _ => rfl⟩,
    (hboot.processTable.execute (.inl ⟨hboot.count, hboot.queue⟩) hexec).1, execute_count startable_bootKernel hexec⟩

/-- A queue for every list of entries that fits. -/
theorem exists_queue (l : List Nat) (h : l.length ≤ maxProcesses) :
    ∃ q, RingOk q l.length ∧ q.live l.length = l := by
  induction l with
  | nil => exact ⟨pqInit, ringOk_pqInit, rfl⟩
  | cons p l ih =>
      rw [List.length_cons] at h
      obtain ⟨q, hring, hlive⟩ := ih (by omega)
      obtain ⟨hring', hlive'⟩ := pqEnqueueFront_spec p hring (by omega)
      rw [hlive] at hlive'
      exact ⟨_, hring', hlive'⟩

theorem TurnedTable.exists_tick {n : Nat} (fops : FopsTables) (fs : FileSys) (h : TurnedTable n k) :
    ∃ k', SchedStep fops fs k .tick k' ∧ k'.processCount = k.processCount := by
  have hlength : ((changeTask k.tasks plainFrame plainCpu 0).1.live).length = k.processCount := by
    have hlive : (changeTask k.tasks plainFrame plainCpu 0).1.live =
        (k.processQ.live k.processCount).rotate 1 := rfl
    rw [hlive, List.length_rotate, h.entries, List.length_rotate, length_newestFirst]
  obtain ⟨q, hring, hlive⟩ := exists_queue (changeTask k.tasks plainFrame plainCpu 0).1.live
    (by rw [hlength]; exact h.max)
  rw [hlength] at hring hlive
  exact ⟨_, .tick plainFrame plainCpu 0 h.min hring hlive, rfl⟩

theorem exists_run_tick {boot : Kernel} {n : Nat} {es : List SchedEvent} (hboot : AtBoot boot)
    (hrun : Run (InTurnStep fops fs) (boot, 0) es (k, n)) (hsome : 0 < k.processCount) :
    ∃ k', Run (InTurnStep fops fs) (boot, 0) (es ++ [.tick]) (k', n + 1) ∧ k'.processCount = k.processCount := by
  have h := turnedTable_run hboot hrun hsome
  obtain ⟨k', hstep, hcount⟩ := h.exists_tick fops fs
  exact ⟨k', .snoc hrun ⟨hstep, rfl, fun hcall => absurd rfl hcall⟩, hcount⟩

/-- A full round of switches between the three shells. -/
theorem calls_act_on_running_iff_boot :
    ∃ k, Run (InTurnStep sampleFops sampleFs) (bootKernel, 0)
        [.call (.started (ascii "shell")), .tick, .tick, .tick] (k, 3) ∧
      k.processCount = 3 ∧ ActsOnRunning sampleFops sampleFs k := by
  obtain ⟨first, hrun, htable, hcount⟩ := started_bootKernel
  have hsome : 0 < first.processCount := htable.turned.pos
  obtain ⟨k₁, hrun₁, hcount₁⟩ := exists_run_tick atBoot_bootKernel hrun hsome
  obtain ⟨k₂, hrun₂, hcount₂⟩ := exists_run_tick atBoot_bootKernel hrun₁ (by omega)
  obtain ⟨k₃, hrun₃, hcount₃⟩ := exists_run_tick atBoot_bootKernel hrun₂ (by omega)
  have hthree : k₃.processCount = 3 := by omega
  refine ⟨k₃, hrun₃, hthree, (calls_act_on_running_iff atBoot_bootKernel hrun₃ (by omega)).mpr ?_⟩
  rw [hthree]

/-- After the first switch the block that system calls compute is not that of the running process. -/
theorem switch_misleads_calls :
    ∃ k, Run (InTurnStep sampleFops sampleFs) (bootKernel, 0)
        ([] ++ [SchedEvent.call (.started (ascii "shell"))] ++ [SchedEvent.tick]) (k, 1) ∧
      pqPeak k.processQ ≠ k.currentPblock ∧ ¬ ActsOnRunning sampleFops sampleFs k := by
  obtain ⟨first, hrun, htable, hcount⟩ := started_bootKernel
  obtain ⟨k, hrun', hcount'⟩ := exists_run_tick atBoot_bootKernel hrun htable.turned.pos
  have hturned : TurnedTable 1 k := turnedTable_run atBoot_bootKernel hrun' (by omega)
  have hfront : ¬ 1 % k.processCount = 0 := by
    rw [hcount', hcount]
    decide
  refine ⟨k, hrun', ?_, ?_⟩
  · exact fun heq => hfront (hturned.front_iff.mp heq)
  · exact fun hacts => hfront (hturned.front_iff.mp hacts.current)

end UnixOs
