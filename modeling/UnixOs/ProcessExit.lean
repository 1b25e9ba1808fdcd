import UnixOs.ProcessTable

/-! Where `halt` leaves the machine. `halt` decides by the number of processes whether to go back to a parent or
to start over, while `execute` decides by the number of shells ever started whether a process has a parent
and which terminal it gets. The way back goes through the `ebp` that the process halts with. -/

namespace UnixOs

open ProcessQueue

variable {fops : FopsTables} {fs : FileSys} {locals : ExecuteLocals} {k k' : Kernel} {ebp shells : Nat}

/-- A consistent table in which the first `shells` processes are the shells of terminals, all three of which
were started once. -/
structure ConsistentTable (shells : Nat) (k : Kernel) : Prop where
  one : 1 ≤ k.processCount
  max : k.processCount ≤ maxProcesses
  started : k.primaryShellCount = numTerminals
  primary : 1 ≤ shells
  ring : RingOk k.processQ k.processCount
  entries : k.processQ.live k.processCount = newestFirst k.processCount
  pid : ∀ p, 1 ≤ p → p ≤ k.processCount → k.mem.load32 (pcbAddr p + 52) = p
  parent : ∀ p, 1 ≤ p → p ≤ k.processCount →
    k.mem.load32 (pcbAddr p + 56) = if p ≤ shells then 0 else pcbAddr (p - 1)

/-- Children have the terminals of their parents, as `execute` gives them. -/
def Inherited (shells : Nat) (k : Kernel) : Prop :=
  ∀ p, shells < p → p ≤ k.processCount → k.mem.load32 (pcbAddr p + 60) = k.mem.load32 (pcbAddr (p - 1) + 60)

/-- A frame on the kernel stack of a process, which lies between the next process's block and its own. -/
def OnKernelStack (p ebp : Nat) : Prop := pcbAddr (p + 1) + pcbSize ≤ ebp ∧ ebp + 8 ≤ kernelStack p

/-- Control is back in the process one slot below, which is at the front of the queue: it leaves through the frame of
the `execute` that started the halting process, whose `ebp` is in that one's block. -/
structure ReturnsBelow (k k' : Kernel) (ending : HaltEnd) : Prop where
  more : 1 < k.processCount
  count : k'.processCount = k.processCount - 1
  front : pqPeak k'.processQ = pcbAddr (k.processCount - 1)
  frame : ending = .leave (k.mem.load32 (k.currentPblock + 8))
  onStack : OnKernelStack (k.processCount - 1) (k.mem.load32 (k.currentPblock + 8))
  back : ∃ ret, leaveFrame k' (k.mem.load32 (k.currentPblock + 8)) = .ok ret

/-- A new shell was entered. -/
def RestartsShell (k' : Kernel) (ending : HaltEnd) : Prop :=
  1 ≤ k'.processCount ∧ pqPeak k'.processQ = pcbAddr k'.processCount ∧ ∃ eip esp, ending = .iret eip esp

/-- `halt` goes back to the parent or starts a shell, without a fault, and whatever runs then has a terminal. -/
def LandsLive (fops : FopsTables) (fs : FileSys) (locals : ExecuteLocals) (k : Kernel) (ebp : Nat) : Prop :=
  ∃ k' ending, halt fops fs locals k ebp = .ok (k', ending) ∧
    (ReturnsBelow k k' ending ∨ RestartsShell k' ending) ∧
    k'.mem.load32 (pqPeak k'.processQ + 60) < numTerminals

/-- The halting process has a parent, and halts with the `ebp` of the `execute` that started it. -/
structure KeepsFrame (k : Kernel) (ebp : Nat) : Prop where
  parent : k.mem.load32 (pcbAddr k.processCount + 56) ≠ 0
  frame : ebp = k.mem.load32 (k.currentPblock + 8)
  onStack : OnKernelStack (k.processCount - 1) ebp

/-- A process without a parent, above another one: its parent pointer is read through. -/
theorem halt_null_parent (hcount : 1 < k.processCount) (hmax : k.processCount ≤ maxProcesses)
    (hparent : k.mem.load32 (pcbAddr k.processCount + 56) = 0) :
    halt fops fs locals k ebp = .error .pageFault := by
  obtain ⟨hlow, hhigh⟩ := pcbAddr_range hcount.le hmax
  simp only [addr8KB] at hhigh
  have hnull : k.fetch32 (0 + 4) = .error .pageFault := rfl
  rw [halt, if_neg (by omega), haltToParent, if_pos hcount, Kernel.currentPblock,
    fetch32_kernel _ (by omega) (by omega), ok_bind, hparent, hnull]
  rfl

/-- The table that `halt` calls `execute` with. -/
def emptied (k : Kernel) : Kernel := { k with processCount := 0, processQ := pqInit }

theorem startable_emptied (hstarted : k.primaryShellCount = numTerminals) : Startable (emptied k) :=
  ⟨.inl hstarted, .inl rfl⟩

/-- The shell that replaces the last process has no parent, and the number of its terminal is -1. -/
theorem restarted_terminal (hstarted : k.primaryShellCount = numTerminals) {command : List UInt8} {eip esp : Nat}
    (hexec : execute fops fs locals (emptied k) command = .ok (k', .iret eip esp)) :
    pqPeak k'.processQ = pcbAddr 1 ∧ k'.mem.load32 (pcbAddr 1 + 60) = 2 ^ 32 - 1 := by
  obtain ⟨prog, -, -, rfl⟩ := execute_turns (startable_emptied hstarted) hexec
  have hshells : (emptied k).primaryShellCount = numTerminals := hstarted
  have hturns : turns (emptied k) = 1 := by
    rw [turns, hshells]
    rfl
  have hparent : parentPtr (emptied k) = 0 := by
    rw [parentPtr, hshells]
    rfl
  have hterminal : nextTerminal (emptied k) = 2 ^ 32 - 1 := by
    rw [nextTerminal, hparent, hshells, if_pos rfl, sub_self]
    omega
  generalize fileSlice fs prog.inode 0 (fs.fileLength prog.inode) = bytes
  have hturn : afterTurns fops locals prog bytes (emptied k) 1 =
      startTurn fops locals prog bytes (emptied k, locals.pcb) := rfl
  have hqueue : ∀ s, (enterProcess s).1.processQ = s.1.processQ := fun _ => rfl
  have hblocks : ∀ s, (enterProcess s).1.mem = s.1.mem := fun _ => rfl
  rw [hturns, hturn, hqueue, hblocks]
  refine ⟨?_, ?_⟩
  · have hfront : ∀ p, pqPeak (pqEnqueueFront pqInit p).1 = p := fun _ => rfl
    rw [processQ_startTurn, show (emptied k).processQ = pqInit from rfl, hfront]
    rfl
  · have hmem : (60, nextTerminal (emptied k)) ∈ nextWords fops locals bytes (emptied k) := by
      simp [nextWords, pcbWords]
    have hword := startTurn_word prog locals.pcb hmem
    have hfirst : (emptied k).processCount + 1 = 1 := rfl
    rw [hterminal, hfirst, Nat.mod_eq_of_lt (by norm_num)] at hword
    exact hword

theorem halt_last (hcount : k.processCount ≤ 1) : halt fops fs locals k ebp =
    (execute fops fs locals
      (emptied (printf k (ascii "Command refused.  Cannot exit last remaining process.\n"))) (ascii "shell")).bind
      fun s => match s with
        | (k, .iret eip esp) => .ok (k, .iret eip esp)
        | (k, .fail) => haltToParent k ebp := by
  rw [halt, if_pos hcount]
  rfl

theorem processCount_printf (k : Kernel) (text : List UInt8) : (printf k text).processCount = k.processCount := rfl

/-- Without a process there is no block to read a parent from. -/
theorem haltToParent_none (hcount : k.processCount = 0) : haltToParent k ebp = .error .pageFault := by
  have hnone : ∀ k : Kernel, k.fetch32 (pcbAddr 0 + 56) = .error .pageFault := fun _ => rfl
  rw [haltToParent, Kernel.currentPblock, hcount, hnone]
  rfl

/-- The last process does not come back to a terminal. -/
theorem not_landsLive_last (hcount : k.processCount ≤ 1) (hstarted : k.primaryShellCount = numTerminals) :
    ¬ LandsLive fops fs locals k ebp := by
  rintro ⟨k', ending, hhalt, -, hterminal⟩
  rw [halt_last hcount] at hhalt
  generalize ascii "Command refused.  Cannot exit last remaining process.\n" = text at hhalt
  have hstill : (printf k text).primaryShellCount = numTerminals := hstarted
  generalize printf k text = k₁ at hhalt hstill
  obtain ⟨⟨k₂, executed⟩, hexec, hhalt⟩ := bind_eq_ok hhalt
  cases executed with
  | iret eip esp =>
      obtain ⟨hpeak, hword⟩ := restarted_terminal hstill hexec
      obtain ⟨rfl, -⟩ := Prod.mk.inj (Except.ok.inj hhalt)
      rw [hpeak, hword] at hterminal
      exact absurd hterminal (by decide)
  | fail =>
      obtain ⟨text', rfl⟩ := execute_returned hexec
      have hnone : haltToParent (printf (emptied k₁) text') ebp = .error .pageFault :=
        haltToParent_none (processCount_printf _ _)
      simp only [hnone] at hhalt
      cases hhalt

theorem OnKernelStack.leaveFrame_eq {p : Nat} (h : OnKernelStack p ebp) (hmax : p < maxProcesses) :
    leaveFrame k ebp = .ok ⟨k.mem.load32 (ebp + 4), ebp + 8, k.mem.load32 ebp⟩ := by
  obtain ⟨hlow, hhigh⟩ := h
  simp only [pcbAddr, pcbSize, kernelStack, addr8MB, addr8KB, maxProcesses] at hlow hhigh hmax
  have hpage : addr4MB ≤ ebp ∧ ebp + 8 ≤ addr8MB := by
    simp only [addr4MB, addr8MB]
    omega
  rw [leaveFrame, fetch32_kernel k hpage.1 (by omega), ok_bind, fetch32_kernel k (by omega) (by omega), ok_bind]
  rfl

/-- A process with a parent lands in it when it halts with the right `ebp`. -/
theorem landsLive_below (h : ConsistentTable shells k) (hcount : 1 < k.processCount)
    (hparent : k.mem.load32 (pcbAddr k.processCount + 56) = pcbAddr (k.processCount - 1)) :
    LandsLive fops fs locals k ebp ↔
      (ebp = k.mem.load32 (k.currentPblock + 8) ∧ OnKernelStack (k.processCount - 1) ebp) ∧
        k.mem.load32 (pcbAddr (k.processCount - 1) + 60) < numTerminals := by
  obtain ⟨n, hn⟩ : ∃ n, k.processCount = n + 1 := ⟨k.processCount - 1, by omega⟩
  have hpred : k.processCount - 1 = n := by omega
  have hmax := h.max
  have hring := h.ring
  have hentries := h.entries
  rw [hn] at hring hentries
  obtain ⟨hring', hlive⟩ := pqDequeue_spec hring
  rw [hentries, newestFirst] at hlive
  have hpeak : pqPeak (afterHalt k).processQ = pcbAddr (k.processCount - 1) := by
    rw [hpred]
    exact pqPeak_newest hring' (List.cons.inj hlive).2.symm (by omega)
  have hhalt : halt fops fs locals k ebp = _ := halt_eq hcount hmax hparent ebp
  constructor
  · rintro ⟨k', ending, hresult, hends, hterminal⟩
    rw [hhalt] at hresult
    obtain ⟨rfl, rfl⟩ := Prod.mk.inj (Except.ok.inj hresult)
    rw [hpeak] at hterminal
    rcases hends with hback | ⟨-, -, eip, esp, hiret⟩
    · have hframe : ebp = k.mem.load32 (k.currentPblock + 8) := HaltEnd.leave.inj hback.frame
      exact ⟨⟨hframe, by rw [hframe]; exact hback.onStack⟩, hterminal⟩
    · cases hiret
  · rintro ⟨⟨hframe, hstack⟩, hterminal⟩
    have hback : leaveFrame (afterHalt k) ebp = .ok _ := hstack.leaveFrame_eq (by omega)
    rw [hframe] at hstack hback
    refine ⟨_, _, hhalt, .inl ⟨hcount, rfl, hpeak, by rw [← hframe], hstack, _, hback⟩, ?_⟩
    rwa [hpeak]

/-- The terminal of a shell goes down to all that stem from it. -/
theorem Inherited.terminal (h : Inherited shells k) {p : Nat} (hlow : shells ≤ p) (hhigh : p ≤ k.processCount) :
    k.mem.load32 (pcbAddr p + 60) = k.mem.load32 (pcbAddr shells + 60) := by
  induction p, hlow using Nat.le_induction with
  | base => rfl
  | succ p hlow ih => rw [h (p + 1) (by omega) hhigh, Nat.add_sub_cancel, ih (by omega)]

/-- The blocks of the three shells and of a child of the newest one. -/
def sampleBlocks : Mem := Mem.storeWords (fun _ => 0)
  [(pcbAddr 1 + 52, 1), (pcbAddr 1 + 60, 2), (pcbAddr 2 + 52, 2), (pcbAddr 2 + 60, 1), (pcbAddr 3 + 52, 3),
    (pcbAddr 4 + 52, 4), (pcbAddr 4 + 56, pcbAddr 3), (pcbAddr 4 + 8, 0x7F9FC0)]

/-- The first `count` of these processes. -/
def sampleTable (count : Nat) : Kernel where
  __ := bootKernel
  mem := sampleBlocks
  processCount := count
  primaryShellCount := 3
  processQ := (List.range count).foldl (fun q p => (pqEnqueueFront q (pcbAddr (p + 1))).1) pqInit

theorem queue_sampleTable {count : Nat} (hmax : count ≤ maxProcesses) :
    RingOk (sampleTable count).processQ count ∧ (sampleTable count).processQ.live count = newestFirst count := by
  induction count with
  | zero => exact ⟨ringOk_pqInit, rfl⟩
  | succ n ih =>
      obtain ⟨hring, hentries⟩ := ih (by omega)
      have hqueue : (sampleTable (n + 1)).processQ =
          (pqEnqueueFront (sampleTable n).processQ (pcbAddr (n + 1))).1 := by
        simp only [sampleTable, List.range_succ, List.foldl_append, List.foldl_cons, List.foldl_nil]
      obtain ⟨hring', hentries'⟩ := pqEnqueueFront_spec (pcbAddr (n + 1)) hring hmax
      rw [hqueue, hentries', hentries, newestFirst]
      exact ⟨hring', rfl⟩

theorem consistent_sampleTable {count : Nat} (hone : 1 ≤ count) (hmax : count ≤ 4) :
    ConsistentTable 3 (sampleTable count) := by
  obtain ⟨hring, hentries⟩ := queue_sampleTable (show count ≤ maxProcesses from hmax.trans (by decide))
  have hwords : ∀ p ∈ [1, 2, 3, 4], sampleBlocks.load32 (pcbAddr p + 52) = p ∧
      sampleBlocks.load32 (pcbAddr p + 56) = if p ≤ 3 then 0 else pcbAddr (p - 1) := by decide
  have hlisted : ∀ p, 1 ≤ p → p ≤ count → p ∈ [1, 2, 3, 4] := by
    intro p hlow hhigh
    simp only [List.mem_cons, List.not_mem_nil, or_false]
    omega
  exact ⟨hone, hmax.trans (by decide), rfl, by decide, hring, hentries,
    fun p hlow hhigh => (hwords p (hlisted p hlow hhigh)).1, fun p hlow hhigh => (hwords p (hlisted p hlow hhigh)).2⟩

end UnixOs
