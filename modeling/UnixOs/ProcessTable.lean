import UnixOs.NewProcess

/-! The process table over whole runs of `execute` and `halt`. The number of processes, the queue, the control
blocks, the page of the running process and its kernel stack are set one by one; between calls they agree. -/

namespace UnixOs

open ProcessQueue

variable {fops : FopsTables} {fs : FileSys} {locals : ExecuteLocals} {prog : Program} {k k' : Kernel} {pcb : Mem}

/-- The blocks of the processes, the newest one first. -/
def newestFirst : Nat → List Nat
  | 0 => []
  | n + 1 => pcbAddr (n + 1) :: newestFirst n

/-- The numbers, parents and terminals in the blocks of the first `count` processes. The first three are the
shells of the terminals. -/
structure Blocks (m : Mem) (count : Nat) : Prop where
  pid : ∀ p, 1 ≤ p → p ≤ count → m.load32 (pcbAddr p + 52) = p
  parent : ∀ p, 1 ≤ p → p ≤ count →
    m.load32 (pcbAddr p + 56) = if p ≤ numTerminals then 0 else pcbAddr (p - 1)
  terminal : ∀ p, 1 ≤ p → p ≤ count →
    m.load32 (pcbAddr p + 60) = if p ≤ numTerminals then numTerminals - p else m.load32 (pcbAddr (p - 1) + 60)

/-- The counts, the queue and the blocks agree. -/
structure ProcessTable (k : Kernel) : Prop where
  max : k.processCount ≤ maxProcesses
  shells : k.primaryShellCount = min k.processCount numTerminals
  ring : RingOk k.processQ k.processCount
  entries : k.processQ.live k.processCount = newestFirst k.processCount
  blocks : Blocks k.mem k.processCount

/-- All terminals have their shell, and the processor is set up for the newest process. -/
structure LiveTable (k : Kernel) : Prop extends ProcessTable k where
  min : numTerminals ≤ k.processCount
  page : k.pdUser = init4mbUserPde (addr4MB + k.processCount * addr4MB)
  esp0 : k.tssEsp0 = addr8MB - k.processCount * addr8KB - 4

theorem pqPeak_newest {q : ProcessQueue} {count : Nat} (hring : RingOk q count)
    (hentries : q.live count = newestFirst count) (hpos : 0 < count) : pqPeak q = pcbAddr count := by
  have hhead := pqPeak_eq_head hring hpos
  obtain ⟨n, rfl⟩ : ∃ n, count = n + 1 := ⟨count - 1, by omega⟩
  rw [hentries, newestFirst, List.head?_cons] at hhead
  exact (Option.some.inj hhead).symm

theorem pcbAddr_ne_zero {p : Nat} (h : p ≤ maxProcesses) : pcbAddr p ≠ 0 := by
  simp only [pcbAddr, addr8MB, addr8KB, maxProcesses] at *
  omega

/-- The blocks of processes whose memory is kept. -/
theorem Blocks.congr {m m' : Mem} {count : Nat} (h : Blocks m count)
    (hkeep : ∀ p, 1 ≤ p → p ≤ count → ∀ off, 52 ≤ off → off + 4 ≤ 64 →
      m'.load32 (pcbAddr p + off) = m.load32 (pcbAddr p + off)) : Blocks m' count := by
  refine ⟨fun p hone hle => ?_, fun p hone hle => ?_, fun p hone hle => ?_⟩
  · rw [hkeep p hone hle 52 (by omega) (by omega), h.pid p hone hle]
  · rw [hkeep p hone hle 56 (by omega) (by omega), h.parent p hone hle]
  · rw [hkeep p hone hle 60 (by omega) (by omega), h.terminal p hone hle]
    split_ifs with hshell
    · rfl
    · simp only [numTerminals] at hshell
      rw [hkeep (p - 1) (by omega) (by omega) 60 (by omega) (by omega)]

theorem Blocks.mono {m : Mem} {count n : Nat} (h : Blocks m count) (hle : n ≤ count) : Blocks m n :=
  ⟨fun p hone hp => h.pid p hone (hp.trans hle), fun p hone hp => h.parent p hone (hp.trans hle),
    fun p hone hp => h.terminal p hone (hp.trans hle)⟩

/-- One process more. -/
theorem Blocks.succ {m : Mem} {count : Nat} (h : Blocks m count)
    (hpid : m.load32 (pcbAddr (count + 1) + 52) = count + 1)
    (hparent : m.load32 (pcbAddr (count + 1) + 56) = if count + 1 ≤ numTerminals then 0 else pcbAddr count)
    (hterminal : m.load32 (pcbAddr (count + 1) + 60) =
      if count + 1 ≤ numTerminals then numTerminals - (count + 1) else m.load32 (pcbAddr count + 60)) :
    Blocks m (count + 1) := by
  have hcases : ∀ p, p ≤ count + 1 → p ≤ count ∨ p = count + 1 := fun p hp => by omega
  refine ⟨fun p hone hle => ?_, fun p hone hle => ?_, fun p hone hle => ?_⟩
  · rcases hcases p hle with hold | rfl
    · exact h.pid p hone hold
    · exact hpid
  · rcases hcases p hle with hold | rfl
    · exact h.parent p hone hold
    · exact hparent
  · rcases hcases p hle with hold | rfl
    · exact h.terminal p hone hold
    · exact hterminal

section Turn

variable {bytes : List UInt8}

theorem ProcessTable.parentPtr_eq (h : ProcessTable k) :
    parentPtr k = if k.processCount + 1 ≤ numTerminals then 0 else pcbAddr k.processCount := by
  have hshells := h.shells
  have hthree : numTerminals = 3 := rfl
  rw [parentPtr]
  by_cases hlow : k.processCount + 1 ≤ numTerminals
  · rw [if_neg (by omega), if_pos hlow]
  · rw [if_pos (by omega), if_neg hlow, pqPeak_newest h.ring h.entries (by omega)]

theorem ProcessTable.nextTerminal_eq (h : ProcessTable k) :
    nextTerminal k = if k.processCount + 1 ≤ numTerminals then numTerminals - (k.processCount + 1)
      else k.mem.load32 (pcbAddr k.processCount + 60) := by
  have hshells := h.shells
  rw [nextTerminal, h.parentPtr_eq]
  by_cases hlow : k.processCount + 1 ≤ numTerminals
  · rw [if_pos hlow, if_pos rfl, if_pos hlow]
    simp only [numTerminals] at *
    omega
  · rw [if_neg hlow, if_neg (pcbAddr_ne_zero h.max), if_neg hlow]

/-- A turn of the loop leaves the blocks of the processes before it. -/
theorem startTurn_keeps (hfit : bytes.length ≤ imageRoom) (hmax : k.processCount < maxProcesses) {p : Nat}
    (hone : 1 ≤ p) (hle : p ≤ k.processCount) {x : Nat} (hx : OwnedBy p x) :
    (startTurn fops locals prog bytes (k, pcb)).1.mem x = k.mem x := by
  apply startTurn_frame hfit
  intro hnew
  have hsame := hx.unique hnew.owned hone (by omega) (by omega) hmax
  omega

theorem ProcessTable.startTurn (h : ProcessTable k) (hmax : k.processCount < maxProcesses)
    (hfit : bytes.length ≤ imageRoom) : ProcessTable (startTurn fops locals prog bytes (k, pcb)).1 := by
  have hcount : (UnixOs.startTurn fops locals prog bytes (k, pcb)).1.processCount = k.processCount + 1 :=
    processCount_startTurn _
  have hkeep : ∀ p, 1 ≤ p → p ≤ k.processCount → ∀ off, off + 4 ≤ 64 →
      (UnixOs.startTurn fops locals prog bytes (k, pcb)).1.mem.load32 (pcbAddr p + off) =
        k.mem.load32 (pcbAddr p + off) := by
    intro p hone hle off hoff
    refine load32_congr_of_pcb (fun x hx => startTurn_keeps hfit hmax hone hle hx) ?_
    simp only [addr8KB]
    omega
  obtain ⟨hring, hentries⟩ := pqEnqueueFront_spec (pcbAddr (k.processCount + 1)) h.ring hmax
  have hshells := h.shells
  refine ⟨?_, ?_, ?_, ?_, ?_⟩
  · rw [hcount]
    exact hmax
  · rw [primaryShellCount_startTurn, hcount]
    simp only [numTerminals] at *
    split_ifs <;> omega
  · rw [processQ_startTurn, hcount]
    exact hring
  · rw [processQ_startTurn, hcount, hentries, h.entries, newestFirst]
  · rw [hcount]
    refine (h.blocks.congr fun p hone hle off _ hoff => hkeep p hone hle off hoff).succ ?_ ?_ ?_
    · have hmem : (52, k.processCount + 1) ∈ nextWords fops locals bytes k := by simp [nextWords, pcbWords]
      rw [startTurn_word _ _ hmem]
      simp only [maxProcesses] at hmax
      omega
    · have hmem : (56, parentPtr k) ∈ nextWords fops locals bytes k := by simp [nextWords, pcbWords]
      rw [startTurn_word _ _ hmem, h.parentPtr_eq]
      split_ifs
      · rfl
      · simp only [pcbAddr, addr8MB]
        omega
    · have hmem : (60, nextTerminal k) ∈ nextWords fops locals bytes k := by simp [nextWords, pcbWords]
      rw [startTurn_word _ _ hmem, h.nextTerminal_eq]
      by_cases hlow : k.processCount + 1 ≤ numTerminals
      · rw [if_pos hlow, if_pos hlow]
        simp only [numTerminals]
        omega
      · rw [if_neg hlow, if_neg hlow, Nat.mod_eq_of_lt (Mem.load32_lt _ _)]
        simp only [numTerminals] at hlow
        rw [hkeep _ (by omega) le_rfl 60 (by omega)]

theorem ProcessTable.afterTurns (h : ProcessTable k) (hfit : bytes.length ≤ imageRoom) (n : Nat)
    (hmax : k.processCount + n ≤ maxProcesses) :
    ProcessTable (afterTurns fops locals prog bytes k n).1 ∧
      (UnixOs.afterTurns fops locals prog bytes k n).1.processCount = k.processCount + n := by
  induction n with
  | zero => exact ⟨h, rfl⟩
  | succ n ih =>
      obtain ⟨htable, hcount⟩ := ih (by omega)
      rw [afterTurns_succ]
      generalize UnixOs.afterTurns fops locals prog bytes k n = s at htable hcount ⊢
      obtain ⟨k1, pcb1⟩ := s
      refine ⟨htable.startTurn (by omega) hfit, ?_⟩
      rw [processCount_startTurn, hcount]
      rfl

end Turn

/-- The states that `execute` is called in: at boot, and when the terminals have their shells. -/
def Called (k : Kernel) : Prop :=
  (k.processCount = 0 ∧ k.processQ = pqInit) ∨ numTerminals ≤ k.processCount

theorem ProcessTable.startable (h : ProcessTable k) (hcalled : Called k) : Startable k := by
  have hshells := h.shells
  have hthree : numTerminals = 3 := rfl
  rcases hcalled with ⟨hzero, hqueue⟩ | hlow
  · refine ⟨.inr ⟨?_, hzero⟩, .inl ?_⟩
    · omega
    · rw [hqueue]
      rfl
  · refine ⟨.inl ?_, .inr ⟨k.processCount, ?_, h.max, pqPeak_newest h.ring h.entries ?_⟩⟩
    · omega
    · omega
    · omega

theorem ProcessTable.shells_started (h : ProcessTable k) (hcalled : Called k) :
    numTerminals ≤ k.processCount + turns k := by
  have hshells := h.shells
  have hthree : numTerminals = 3 := rfl
  have hturns : turns k = (numTerminals - k.primaryShellCount - 1).toNat + 1 := rfl
  rcases hcalled with ⟨hzero, -⟩ | hlow
  · omega
  · omega

/-- A program that is entered is the newest process of the table, and the others keep their memory. -/
theorem ProcessTable.execute (h : ProcessTable k) (hcalled : Called k) {command : List UInt8} {eip esp : Nat}
    (hexec : UnixOs.execute fops fs locals k command = .ok (k', .iret eip esp)) :
    LiveTable k' ∧ ∀ p, 1 ≤ p → p ≤ k.processCount → ∀ x, OwnedBy p x → k'.mem x = k.mem x := by
  have hs := h.startable hcalled
  obtain ⟨prog, hacc, hfit, rfl⟩ := execute_turns hs hexec
  have hentered : Entered fops fs locals k prog _ := entered_afterTurns hs hacc hfit
  have hmax := hs.turns_le hacc.count
  have hstarted := h.shells_started hcalled
  have hlen : (fileSlice fs prog.inode 0 (fs.fileLength prog.inode)).length ≤ imageRoom := by
    rw [length_fileSlice]
    exact hfit
  obtain ⟨htable, hcount⟩ : ProcessTable (UnixOs.afterTurns fops locals prog _ k (turns k)).1 ∧ _ :=
    h.afterTurns hlen (turns k) hmax
  generalize UnixOs.afterTurns fops locals prog (fileSlice fs prog.inode 0 (fs.fileLength prog.inode)) k (turns k) = s
    at hentered htable hcount ⊢
  have hrange := hentered.running.max
  refine ⟨⟨⟨htable.max, htable.shells, htable.ring, htable.entries, htable.blocks⟩, ?_, ?_, rfl⟩, ?_⟩
  · exact hstarted.trans_eq hcount.symm
  · exact hentered.running.frame
  · intro p hone hle x hx
    apply hentered.frame
    intro q hlow hhigh hother
    have hsame := hx.unique hother.owned hone (by omega) (by omega) (by omega)
    omega

/-! ### Ending processes -/

/-- What `halt` makes of the kernel when the running process has a parent. -/
def afterHalt (k : Kernel) : Kernel :=
  { k with
    processQ := (pqDequeue k.processQ).1
    pdUser := init4mbUserPde (addr4MB + (k.processCount - 1) * addr4MB)
    processCount := k.processCount - 1
    tssEsp0 := kernelStack (k.processCount - 1) }

theorem halt_eq (hcount : 1 < k.processCount) (hmax : k.processCount ≤ maxProcesses)
    (hparent : k.mem.load32 (pcbAddr k.processCount + 56) = pcbAddr (k.processCount - 1)) (ebp : Nat) :
    halt fops fs locals k ebp = .ok (afterHalt k, .leave ebp) := by
  obtain ⟨hlow, hhigh⟩ := pcbAddr_range (show 1 ≤ k.processCount by omega) hmax
  obtain ⟨hlow', hhigh'⟩ := pcbAddr_range (show 1 ≤ k.processCount - 1 by omega) (by omega)
  simp only [addr8KB] at hhigh hhigh'
  rw [halt, if_neg (by omega), haltToParent, if_pos hcount, Kernel.currentPblock,
    fetch32_kernel _ (by omega) (by omega), ok_bind, hparent, fetch32_kernel _ (by omega) (by omega), ok_bind,
    fetch32_kernel _ (by omega) (by omega), ok_bind]
  rfl

theorem ProcessTable.afterHalt (h : ProcessTable k) (hcount : numTerminals < k.processCount) :
    LiveTable (afterHalt k) := by
  obtain ⟨n, hn⟩ : ∃ n, k.processCount = n + 1 := ⟨k.processCount - 1, by omega⟩
  have hring := h.ring
  have hentries := h.entries
  have hshells := h.shells
  have hmax := h.max
  have hpred : k.processCount - 1 = n := by omega
  rw [hn] at hring hentries
  obtain ⟨hring', hlive⟩ := pqDequeue_spec hring
  rw [hentries, newestFirst] at hlive
  refine ⟨⟨?_, ?_, ?_, ?_, ?_⟩, ?_, rfl, rfl⟩
  · simp only [UnixOs.afterHalt]
    omega
  · simp only [UnixOs.afterHalt]
    omega
  · simp only [UnixOs.afterHalt, hpred]
    exact hring'
  · simp only [UnixOs.afterHalt, hpred]
    exact (List.cons.inj hlive).2.symm
  · exact h.blocks.mono (Nat.sub_le _ _)
  · simp only [UnixOs.afterHalt]
    omega

theorem ProcessTable.halt_eq (h : ProcessTable k) (hcount : numTerminals < k.processCount) (ebp : Nat) :
    halt fops fs locals k ebp = .ok (UnixOs.afterHalt k, .leave ebp) := by
  have hone : 1 < k.processCount := lt_of_le_of_lt (by decide) hcount
  apply UnixOs.halt_eq hone h.max
  rw [h.blocks.parent _ hone.le le_rfl, if_neg (Nat.not_le_of_gt hcount)]

/-! ### Runs -/

/-- A call of `execute` that entered a program or returned -1, or a call of `halt`. -/
inductive ProcessCall where
  | started (command : List UInt8)
  | refused (command : List UInt8)
  | halted

/-- The calls that come to an end, with whatever the locals of `execute` hold and whatever `ebp` the caller has; `halt`
is called by a process that has a parent. A call that faults is no step: a command with more than 100 spaces, a file
that does not fit its page. -/
inductive ProcessStep (fops : FopsTables) (fs : FileSys) : Kernel → ProcessCall → Kernel → Prop
  | start {k k' : Kernel} {locals : ExecuteLocals} {command : List UInt8} {eip esp : Nat}
      (hexec : execute fops fs locals k command = .ok (k', .iret eip esp)) :
      ProcessStep fops fs k (.started command) k'
  | refuse {k k' : Kernel} {locals : ExecuteLocals} {command : List UInt8}
      (hexec : execute fops fs locals k command = .ok (k', .fail)) : ProcessStep fops fs k (.refused command) k'
  | halt {k k' : Kernel} {locals : ExecuteLocals} {ebp : Nat} {ending : HaltEnd}
      (hcount : numTerminals < k.processCount) (hhalt : halt fops fs locals k ebp = .ok (k', ending)) :
      ProcessStep fops fs k .halted k'

/-- Two kernels that differ in what is on the screen only. -/
def OnlyConsole (k k' : Kernel) : Prop := ∃ console, k' = { k with console := console }

theorem LiveTable.onlyConsole (h : LiveTable k) (hsame : OnlyConsole k k') : LiveTable k' := by
  obtain ⟨console, rfl⟩ := hsame
  exact ⟨⟨h.max, h.shells, h.ring, h.entries, h.blocks⟩, h.min, h.page, h.esp0⟩

/-- What a call does to the table: a refused one leaves it, and no call changes the memory of a process that
was live before it and still is. -/
structure CallKeeps (k : Kernel) (e : ProcessCall) (k' : Kernel) : Prop where
  refused : ∀ command, e = .refused command → OnlyConsole k k'
  others : ∀ p, 1 ≤ p → p ≤ k.processCount → p ≤ k'.processCount → ∀ x, OwnedBy p x → k'.mem x = k.mem x

theorem LiveTable.step {e : ProcessCall} (h : LiveTable k) (hstep : ProcessStep fops fs k e k') :
    LiveTable k' ∧ CallKeeps k e k' := by
  cases hstep with
  | start hexec =>
      obtain ⟨htable, hkeep⟩ := h.toProcessTable.execute (.inr h.min) hexec
      refine ⟨htable, ⟨fun _ hrefused => ?_, fun p hone hle _ => hkeep p hone hle⟩⟩
      cases hrefused
  | refuse hexec =>
      obtain ⟨text, rfl⟩ := execute_returned hexec
      have hsame : OnlyConsole k (printf k text) := ⟨_, rfl⟩
      exact ⟨h.onlyConsole hsame, ⟨fun _ _ => hsame, fun _ _ _ _ _ _ => rfl⟩⟩
  | halt hcount hhalt =>
      rw [h.halt_eq hcount] at hhalt
      obtain ⟨rfl, -⟩ := Prod.mk.inj (Except.ok.inj hhalt)
      refine ⟨h.afterHalt hcount, ⟨fun _ hrefused => ?_, fun _ _ _ _ _ _ => rfl⟩⟩
      cases hrefused

/-- The kernel before the first `execute`. -/
structure AtBoot (k : Kernel) : Prop where
  count : k.processCount = 0
  shells : k.primaryShellCount = 0
  queue : k.processQ = pqInit

theorem AtBoot.processTable (h : AtBoot k) : ProcessTable k := by
  obtain ⟨hcount, hshells, hqueue⟩ := h
  refine ⟨?_, ?_, ?_, ?_, ?_⟩
  · rw [hcount]
    exact Nat.zero_le _
  · rw [hcount, hshells]
    rfl
  · rw [hcount, hqueue]
    exact ringOk_pqInit
  · rw [hcount]
    rfl
  · rw [hcount]
    exact ⟨fun p hone hle => by omega, fun p hone hle => by omega, fun p hone hle => by omega⟩

theorem liveTable_run {boot first : Kernel} {es : List ProcessCall} (hboot : AtBoot boot) {command : List UInt8}
    {eip esp : Nat} (hfirst : execute fops fs locals boot command = .ok (first, .iret eip esp))
    (hrun : Run (ProcessStep fops fs) first es k) : LiveTable k :=
  hrun.invariant (hboot.processTable.execute (.inl ⟨hboot.count, hboot.queue⟩) hfirst).1
    fun _ _ _ h hstep => (h.step hstep).1

/-- After the first shell was started, and after any calls of `execute` and `halt` since, the table is
consistent and its newest process is at the front of the queue. No further call breaks it: a refused one
changes nothing but the screen, none changes another live process, and a process with a parent can halt. -/
theorem process_table_invariant {boot first : Kernel} {es : List ProcessCall} (hboot : AtBoot boot) {eip esp : Nat}
    (hshell : execute fops fs locals boot (ascii "shell") = .ok (first, .iret eip esp))
    (hrun : Run (ProcessStep fops fs) first es k) :
    LiveTable k ∧ pqPeak k.processQ = k.currentPblock ∧
      (∀ e k', ProcessStep fops fs k e k' → CallKeeps k e k') ∧
      (numTerminals < k.processCount → ∀ stale ebp, ∃ k', halt fops fs stale k ebp = .ok (k', .leave ebp)) := by
  have h := liveTable_run hboot hshell hrun
  have hpos : 0 < k.processCount := lt_of_lt_of_le (by decide) h.min
  refine ⟨h, pqPeak_newest h.ring h.entries hpos, fun e k' hstep => (h.step hstep).2, fun hcount stale ebp => ?_⟩
  exact ⟨_, h.halt_eq hcount ebp⟩

theorem atBoot_bootKernel : AtBoot bootKernel := ⟨rfl, rfl, rfl⟩

theorem LiveTable.running (h : LiveTable k) : Running k := ⟨by have := h.min; simp only [numTerminals] at this; omega,
  h.max, h.page⟩

theorem LiveTable.shells_eq (h : LiveTable k) : k.primaryShellCount = numTerminals := by
  rw [h.shells]
  exact congrArg Nat.cast (min_eq_right h.min)

theorem LiveTable.turns_eq (h : LiveTable k) : turns k = 1 := by
  rw [turns, h.shells_eq]
  rfl

/-- `execute` makes as many processes as its loop has turns. -/
theorem execute_count (hs : Startable k) (hexec : execute fops fs locals k command = .ok (k₁, .iret eip esp)) :
    k₁.processCount = k.processCount + turns k := by
  obtain ⟨prog, -, -, rfl⟩ := execute_turns hs hexec
  have henter : ∀ s : Kernel × Mem, (enterProcess s).1.processCount = s.1.processCount := fun s => rfl
  rw [henter]
  generalize turns k = n
  induction n with
  | zero => rfl
  | succ n ih => rw [afterTurns_succ, processCount_startTurn, ih, Nat.add_assoc]

/-- The checks see of the kernel whether there is room for a process and whether a user page is mapped. -/
theorem checkCommand_congr {sample : Kernel} (hcount : k.processCount < maxProcesses)
    (hcount' : sample.processCount < maxProcesses) (hpresent : k.userPresent = sample.userPresent)
    (command : List UInt8) : checkCommand fs k locals command = checkCommand fs sample locals command := by
  simp only [checkCommand, checkName, checkHeader, readStart, ge_iff_le, Nat.not_le_of_lt hcount,
    Nat.not_le_of_lt hcount', if_false, hpresent]

/-- A command of a small program is started. -/
theorem execute_small {sample : Kernel} {command : List UInt8} (hs : Startable k)
    (hcount : k.processCount < maxProcesses) (hcount' : sample.processCount < maxProcesses)
    (hpresent : k.userPresent = sample.userPresent) {inode : Nat}
    (hcheck : inodeOf (checkCommand fs sample locals command) = some inode)
    (hfit : fs.fileLength inode ≤ imageRoom) (hmapped : FileMapped fs inode) :
    ∃ k' eip esp, execute fops fs locals k command = .ok (k', .iret eip esp) := by
  obtain ⟨prog, hpass, rfl⟩ := pass_of_inodeOf hcheck
  rw [← checkCommand_congr hcount hcount' hpresent] at hpass
  exact ⟨_, _, _, execute_starts hs hpass hfit hmapped⟩

/-- The text of a command that was refused. -/
def textOf : Except Fault Check → Option (List UInt8)
  | .ok (.fail text) => some text
  | _ => none

theorem fail_of_textOf {r : Except Fault Check} {text : List UInt8} (h : textOf r = some text) :
    r = .ok (.fail text) := by
  unfold textOf at h
  split at h
  · rw [Option.some.inj h]
  · cases h

theorem execute_refused {sample : Kernel} {command : List UInt8} (hcount : k.processCount < maxProcesses)
    (hcount' : sample.processCount < maxProcesses) (hpresent : k.userPresent = sample.userPresent)
    {text : List UInt8} (hcheck : textOf (checkCommand fs sample locals command) = some text) :
    execute fops fs locals k command = .ok (printf k text, .fail) := by
  have hfail := fail_of_textOf hcheck
  rw [← checkCommand_congr hcount hcount' hpresent] at hfail
  rw [execute, hfail, ok_bind]
  rfl

theorem LiveTable.userPresent_eq (h : LiveTable k) : k.userPresent = (enterFrame bootKernel).userPresent := by
  rw [userPresent_enterFrame]
  exact decide_eq_true h.running.present

/-- A second shell, a command that is not in the directory, and the end of the shell. -/
theorem process_table_invariant_boot :
    ∃ first k eip esp, execute sampleFops sampleFs clearedLocals bootKernel (ascii "shell") =
        .ok (first, .iret eip esp) ∧
      Run (ProcessStep sampleFops sampleFs) first
        [.started (ascii "shell"), .refused (ascii "ls"), .halted] k ∧
      LiveTable k ∧ pqPeak k.processQ = k.currentPblock := by
  have hinode : inodeOf (checkCommand sampleFs (enterFrame bootKernel) clearedLocals (ascii "shell")) = some 0 := by
    decide +kernel
  obtain ⟨prog, first, eip, esp, hexec, -⟩ := execute_shell
    (show inodeOf (checkCommand sampleFs bootKernel clearedLocals (ascii "shell")) = some 0 by decide +kernel)
  obtain ⟨hlive, -⟩ := atBoot_bootKernel.processTable.execute (.inl ⟨rfl, rfl⟩) hexec
  have hcount : first.processCount = 3 := execute_count startable_bootKernel hexec
  have hroom : first.processCount < maxProcesses := by rw [hcount]; decide
  have hcalled := hlive.startable (.inr hlive.min)
  obtain ⟨k₁, eip', esp', hstart⟩ : ∃ k' eip esp,
      execute sampleFops sampleFs clearedLocals first (ascii "shell") = .ok (k', .iret eip esp) :=
    execute_small hcalled hroom (by decide) hlive.userPresent_eq hinode (by decide) (by decide +kernel)
  have hlive₁ := (hlive.step (.start hstart)).1
  have hcount₁ : k₁.processCount = 4 := by rw [execute_count hcalled hstart, hlive.turns_eq, hcount]
  have hrefuse : execute sampleFops sampleFs clearedLocals k₁ (ascii "ls") = .ok (printf k₁ [], .fail) :=
    execute_refused (by rw [hcount₁]; decide) (by decide) hlive₁.userPresent_eq
      (show textOf (checkCommand sampleFs (enterFrame bootKernel) clearedLocals (ascii "ls")) = some [] by decide +kernel)
  have hlive₂ := (hlive₁.step (.refuse hrefuse)).1
  have hlast : numTerminals < (printf k₁ []).processCount := by
    rw [show (printf k₁ []).processCount = k₁.processCount from rfl, hcount₁]
    decide
  have hhalt : halt sampleFops sampleFs clearedLocals (printf k₁ []) 0x7FFFF0 = .ok (_, .leave 0x7FFFF0) :=
    hlive₂.halt_eq hlast 0x7FFFF0
  have hrun := ((Run.nil.snoc (.start hstart)).snoc (.refuse hrefuse)).snoc (ProcessStep.halt hlast hhalt)
  obtain ⟨htable, hpeak, -⟩ := process_table_invariant atBoot_bootKernel hexec hrun
  exact ⟨first, _, eip, esp, hexec, hrun, htable, hpeak⟩

end UnixOs
