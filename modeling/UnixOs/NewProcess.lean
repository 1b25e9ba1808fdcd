import UnixOs.ProcessStart

/-! What a new process finds: the program that step 4 of `execute` loads, and the descriptors of the control
block that step 5 copies to its slot. -/

namespace UnixOs

variable {fops : FopsTables} {fs : FileSys} {locals : ExecuteLocals} {prog : Program} {k k' : Kernel}
  {command : List UInt8}

/-! ### The program -/

/-- The contents of a file. -/
def contents (fs : FileSys) (inode : Nat) : List UInt8 := fileSlice fs inode 0 (fs.fileLength inode)

/-- A load that is exact: the running process sees the program, every process that was started has it in its
frame and the entry point in its control block, and the frames of the others are as before. -/
structure LoadedExactly (k : Kernel) (f : List UInt8) (k' : Kernel) : Prop where
  seen : k'.fetch progBuf f.length = .ok f
  inPage : ∀ j < f.length, progBuf + j < addr128MB + addr4MB
  frames : ∀ p, k.processCount < p → p ≤ k'.processCount →
    k'.mem.readBytes (frameBase p + progImgOffset) f.length = f
  entry : ∀ p, k.processCount < p → p ≤ k'.processCount →
    k'.mem.load32 (pcbAddr p) = Mem.load32 (str f) 24
  others : ∀ p, 1 ≤ p → p ≤ maxProcesses → (p ≤ k.processCount ∨ k'.processCount < p) →
    ∀ x, frameBase p ≤ x → x < frameBase (p + 1) → k'.mem x = k.mem x

/-- `execute` enters a program that was loaded exactly. -/
def LoadsExactly (k : Kernel) (f : List UInt8) (result : Except Fault (Kernel × ExecuteEnd)) : Prop :=
  ∃ k' eip esp, result = .ok (k', .iret eip esp) ∧ LoadedExactly k f k'

theorem length_contents (fs : FileSys) (inode : Nat) : (contents fs inode).length = fs.fileLength inode :=
  length_fileSlice fs inode 0 _

theorem fetch_program (hrun : Running k') {f : List UInt8} (hfit : f.length ≤ imageRoom)
    (himage : k'.mem.readBytes (frameBase k'.processCount + progImgOffset) f.length = f) :
    k'.fetch progBuf f.length = .ok f := by
  rw [Kernel.fetch]
  by_cases hempty : f.length = 0
  · rw [if_pos hempty, List.length_eq_zero_iff.mp hempty]
  · have harea : areaOf progBuf f.length = some .user := by
      apply areaOf_user
      · simp only [progBuf]
        omega
      · simp only [progBuf, imageRoom, progImgOffset, addr4MB] at *
        omega
    have hphys : k'.userPhys progBuf = frameBase k'.processCount + progImgOffset := by
      rw [Kernel.userPhys, hrun.pdeBase_eq, progBuf, Nat.add_sub_cancel_left, frameBase]
    rw [if_neg hempty, harea]
    simp only [if_pos hrun.present, hphys, himage]

theorem Entered.loadedExactly (h : Entered fops fs locals k prog k') (hheader : 28 ≤ fs.fileLength prog.inode) :
    LoadedExactly k (contents fs prog.inode) k' := by
  have hlen := length_contents fs prog.inode
  have hfit : (contents fs prog.inode).length ≤ imageRoom := hlen.trans_le h.fits
  refine ⟨fetch_program h.running hfit (h.started _ h.more le_rfl).image, fun j hj => ?_,
    fun p hlow hhigh => (h.started p hlow hhigh).image, fun p hlow hhigh => ?_, fun p hone hmax hother x hx hx' => ?_⟩
  · simp only [progBuf, imageRoom, progImgOffset, addr4MB] at *
    omega
  · have hp := h.started p hlow hhigh
    rw [hp.eip]
    exact Mem.load32_of_readBytes hp.image (hlen ▸ hheader)
  · apply h.frame
    intro q hlow hhigh howned
    have hq := h.running.max
    have := howned.owned.unique (.inl ⟨hx, hx'⟩) (by omega) (by omega) hone hmax
    omega

/-- An accepted file with a header is loaded exactly when it fits the page behind the offset of the image, and its
inode and its blocks can be read. -/
theorem program_loaded_iff (hs : Startable k) (hcheck : checkCommand fs k locals command = .ok (.pass prog))
    (hheader : 28 ≤ fs.fileLength prog.inode) :
    LoadsExactly k (contents fs prog.inode) (execute fops fs locals k command) ↔
      fs.fileLength prog.inode ≤ imageRoom ∧ FileMapped fs prog.inode := by
  constructor
  · rintro ⟨k', eip, esp, hexec, -⟩
    by_contra hnot
    have hbad : imageRoom < fs.fileLength prog.inode ∨ ¬ FileMapped fs prog.inode := by
      rcases not_and_or.mp hnot with hlong | hunmapped
      · exact .inl (Nat.lt_of_not_le hlong)
      · exact .inr hunmapped
    rw [execute_unloadable hcheck hbad] at hexec
    cases hexec
  · rintro ⟨hfit, hmapped⟩
    refine ⟨_, _, _, execute_starts hs hcheck hfit hmapped, ?_⟩
    exact (entered_afterTurns hs (accepted_of_pass hcheck) hfit).loadedExactly hheader

/-- The state at boot, with nothing started. -/
def bootKernel : Kernel where
  mem := fun _ => 0
  processCount := 0
  primaryShellCount := 0
  processQ := pqInit
  pdUser := 0
  tssEsp0 := 0
  console := blankConsole
  dirReadCount := 0

theorem startable_bootKernel : Startable bootKernel := ⟨.inr ⟨rfl, rfl⟩, .inl rfl⟩

/-- Locals that hold zeros. -/
def clearedLocals : ExecuteLocals := ⟨fun _ => 0, fun _ => 0, 0x7FFFE0, 0x7FFFF0⟩

/-- The inode of a command that passed. -/
def inodeOf : Except Fault Check → Option Nat
  | .ok (.pass prog) => some prog.inode
  | _ => none

theorem pass_of_inodeOf {r : Except Fault Check} {inode : Nat} (h : inodeOf r = some inode) :
    ∃ prog, r = .ok (.pass prog) ∧ prog.inode = inode := by
  unfold inodeOf at h
  split at h
  · exact ⟨_, rfl, Option.some.inj h⟩
  · cases h

theorem program_loaded_iff_shell :
    ∃ prog, checkCommand sampleFs bootKernel clearedLocals shellName = .ok (.pass prog) ∧
      (LoadsExactly bootKernel (contents sampleFs prog.inode)
        (execute sampleFops sampleFs clearedLocals bootKernel shellName) ↔
          sampleFs.fileLength prog.inode ≤ imageRoom ∧ FileMapped sampleFs prog.inode) := by
  obtain ⟨prog, hcheck, hinode⟩ : ∃ prog, checkCommand sampleFs bootKernel clearedLocals shellName = .ok (.pass prog) ∧
      prog.inode = 0 := pass_of_inodeOf (by decide +kernel)
  have hheader : 28 ≤ sampleFs.fileLength prog.inode := by
    rw [hinode]
    decide
  exact ⟨prog, hcheck, program_loaded_iff startable_bootKernel hcheck hheader⟩

/-- An executable of 3899393 bytes, one more than the page has room for. -/
def largeFs : FileSys where
  start := sampleFs.start
  img := sampleFs.img.store32 0x40E000 3899393

/-- It is accepted, and loading it runs into the end of the page. -/
theorem large_program_faults :
    ∃ prog, checkCommand largeFs bootKernel clearedLocals shellName = .ok (.pass prog) ∧
      largeFs.fileLength prog.inode = 3899393 ∧
      execute sampleFops largeFs clearedLocals bootKernel shellName = .error .pageFault ∧
      ¬ LoadsExactly bootKernel (contents largeFs prog.inode)
        (execute sampleFops largeFs clearedLocals bootKernel shellName) := by
  obtain ⟨prog, hcheck, hinode⟩ : ∃ prog, checkCommand largeFs bootKernel clearedLocals shellName = .ok (.pass prog) ∧
      prog.inode = 0 := pass_of_inodeOf (by decide +kernel)
  have hlen : largeFs.fileLength prog.inode = 3899393 := by
    rw [hinode]
    decide
  have hfault : execute sampleFops largeFs clearedLocals bootKernel shellName = .error .pageFault :=
    execute_unloadable hcheck (.inl (by rw [hlen]; decide))
  refine ⟨prog, hcheck, hlen, hfault, ?_⟩
  rintro ⟨k', eip, esp, hexec, -⟩
  rw [hfault] at hexec
  cases hexec

/-! ### The descriptors -/

/-- The table of a control block with the two terminal descriptors and nothing else. -/
structure CleanTable (fops : FopsTables) (m : Mem) (pcb : Nat) : Prop where
  terminal : ∀ fd < 2, m.load32 (fopPtrAddr pcb fd) = fops.terminal ∧ m.load32 (filePosAddr pcb fd) = 0 ∧
    m.load32 (inUseAddr pcb fd) = 1
  free : ∀ fd, 2 ≤ fd → fd < opsSize → m.load32 (inUseAddr pcb fd) = 0 ∧ m.load32 (fopPtrAddr pcb fd) = 0 ∧
    m.load32 (filePosAddr pcb fd) = 0

/-- The memory of the local `pcb` already holds cleared descriptors behind the first two. -/
def ClearedLocal (stale : Mem) : Prop :=
  ∀ fd, 2 ≤ fd → fd < opsSize → stale.load32 (fdeOffset fd + 44) = 0 ∧ stale.load32 (fdeOffset fd) = 0 ∧
    stale.load32 (fdeOffset fd + 40) = 0

theorem StartedProcess.stale_word {bytes : List UInt8} {stale m : Mem} {p : Nat}
    (h : StartedProcess fops prog bytes stale m p) {off : Nat} (hlow : 160 ≤ off) (hhigh : off + 4 ≤ 448) :
    m.load32 (pcbAddr p + off) = stale.load32 off := by
  apply Mem.load32_congr
  intro j hj
  rw [Nat.add_assoc, h.rest _ (by omega) (by omega)]

theorem StartedProcess.cleanTable_iff {bytes : List UInt8} {stale m : Mem} {p : Nat}
    (h : StartedProcess fops prog bytes stale m p) : CleanTable fops m (pcbAddr p) ↔ ClearedLocal stale := by
  have hwords : ∀ fd, 2 ≤ fd → fd < opsSize →
      m.load32 (inUseAddr (pcbAddr p) fd) = stale.load32 (fdeOffset fd + 44) ∧
      m.load32 (fopPtrAddr (pcbAddr p) fd) = stale.load32 (fdeOffset fd) ∧
      m.load32 (filePosAddr (pcbAddr p) fd) = stale.load32 (fdeOffset fd + 40) := by
    intro fd hlow hhigh
    simp only [inUseAddr, fopPtrAddr, filePosAddr, Nat.add_assoc]
    simp only [opsSize] at hhigh
    refine ⟨?_, ?_, ?_⟩ <;> apply h.stale_word <;> simp only [fdeOffset] <;> omega
  constructor
  · intro hclean fd hlow hhigh
    obtain ⟨huse, hfop, hpos⟩ := hwords fd hlow hhigh
    rw [← huse, ← hfop, ← hpos]
    exact hclean.free fd hlow hhigh
  · intro hcleared
    refine ⟨h.terminalFds, fun fd hlow hhigh => ?_⟩
    obtain ⟨huse, hfop, hpos⟩ := hwords fd hlow hhigh
    rw [huse, hfop, hpos]
    exact hcleared fd hlow hhigh

/-- The processes that `execute` starts have clean tables exactly when its local `pcb` happened to be cleared:
`init_fd` clears a copy. -/
theorem descriptors_clean_iff {eip esp : Nat} (hs : Startable k)
    (hexec : execute fops fs locals k command = .ok (k', .iret eip esp)) :
    (∀ p, k.processCount < p → p ≤ k'.processCount → CleanTable fops k'.mem (pcbAddr p)) ↔
      ClearedLocal locals.pcb := by
  obtain ⟨prog, -, hentered⟩ := execute_entered hs hexec
  constructor
  · intro hclean
    exact (hentered.started _ hentered.more le_rfl).cleanTable_iff.mp (hclean _ hentered.more le_rfl)
  · intro hcleared p hlow hhigh
    exact (hentered.started p hlow hhigh).cleanTable_iff.mpr hcleared

theorem execute_shell {locals : ExecuteLocals} {command : List UInt8}
    (hinodes : inodeOf (checkCommand sampleFs bootKernel locals command) = some 0) :
    ∃ prog k' eip esp, execute sampleFops sampleFs locals bootKernel command = .ok (k', .iret eip esp) ∧
      Entered sampleFops sampleFs locals bootKernel prog k' := by
  obtain ⟨prog, hcheck, hinode⟩ := pass_of_inodeOf hinodes
  have hfit : sampleFs.fileLength prog.inode ≤ imageRoom := by
    rw [hinode]
    decide
  have hmapped : FileMapped sampleFs prog.inode := by
    rw [hinode]
    decide +kernel
  exact ⟨prog, _, _, _, execute_starts startable_bootKernel hcheck hfit hmapped,
    entered_afterTurns startable_bootKernel (accepted_of_pass hcheck) hfit⟩

theorem descriptors_clean_iff_shell :
    ∃ k' eip esp, execute sampleFops sampleFs clearedLocals bootKernel shellName = .ok (k', .iret eip esp) ∧
      ((∀ p, bootKernel.processCount < p → p ≤ k'.processCount → CleanTable sampleFops k'.mem (pcbAddr p)) ↔
        ClearedLocal clearedLocals.pcb) := by
  obtain ⟨prog, k', eip, esp, hexec, -⟩ :=
    execute_shell (show inodeOf (checkCommand sampleFs bootKernel clearedLocals shellName) = some 0 by decide +kernel)
  exact ⟨k', eip, esp, hexec, descriptors_clean_iff startable_bootKernel hexec⟩

/-- A local `pcb` that holds a descriptor 2 in use. -/
def staleLocals : ExecuteLocals where
  exeBuff := fun _ => 0
  pcb := Mem.store32 (fun _ => 0) (fdeOffset 2 + 44) 1
  esp := 0x7FFFE0
  ebp := 0x7FFFF0

/-- The shell of boot then has a descriptor 2 in use that points nowhere. -/
theorem stale_descriptor_in_use :
    ∃ k' eip esp, execute sampleFops sampleFs staleLocals bootKernel shellName = .ok (k', .iret eip esp) ∧
      k'.mem.load32 (inUseAddr (pcbAddr k'.processCount) 2) = 1 ∧
      k'.mem.load32 (fopPtrAddr (pcbAddr k'.processCount) 2) = 0 ∧
      ¬ ∀ p, bootKernel.processCount < p → p ≤ k'.processCount → CleanTable sampleFops k'.mem (pcbAddr p) := by
  obtain ⟨prog, k', eip, esp, hexec, hentered⟩ :=
    execute_shell (show inodeOf (checkCommand sampleFs bootKernel staleLocals shellName) = some 0 by decide +kernel)
  have hlast := hentered.started _ hentered.more le_rfl
  have huse : k'.mem.load32 (inUseAddr (pcbAddr k'.processCount) 2) = 1 := by
    rw [inUseAddr, Nat.add_assoc, hlast.stale_word (by decide) (by decide)]
    decide
  have hfop : k'.mem.load32 (fopPtrAddr (pcbAddr k'.processCount) 2) = 0 := by
    rw [fopPtrAddr, hlast.stale_word (by decide) (by decide)]
    decide
  refine ⟨k', eip, esp, hexec, huse, hfop, fun hclean => ?_⟩
  have hfree := (hclean _ hentered.more le_rfl).free 2 le_rfl (by decide)
  rw [huse] at hfree
  exact absurd hfree.1 (by decide)

end UnixOs
