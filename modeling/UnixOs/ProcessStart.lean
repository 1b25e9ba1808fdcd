import UnixOs.Execute
import UnixOs.DescriptorRuns

/-! What a started process finds: its program in its own 4 MB frame and its control block in its own 8 KB
slot. A turn of `execute`'s loop touches nothing else, so what it set up is still there when the later
turns are done. -/

namespace UnixOs

variable {fops : FopsTables} {fs : FileSys} {locals : ExecuteLocals} {prog : Program} {k k' : Kernel} {pcb : Mem}

/-- The physical frame of a process. -/
def frameBase (pid : Nat) : Nat := addr4MB + pid * addr4MB

/-- The room for a program behind `PROG_IMG_OFFSET` of its page. -/
def imageRoom : Nat := addr4MB - progImgOffset

/-- The state that `execute` can be called in: the shells are all started or none of them is, and the front of
the queue is empty or a control block. -/
structure Startable (k : Kernel) : Prop where
  shells : k.primaryShellCount = numTerminals ∨ (k.primaryShellCount = 0 ∧ k.processCount = 0)
  front : pqPeak k.processQ = 0 ∨ ∃ pid, 1 ≤ pid ∧ pid ≤ maxProcesses ∧ pqPeak k.processQ = pcbAddr pid

/-- The next process's parent can be read. -/
def ParentOk (k : Kernel) : Prop :=
  parentPtr k = 0 ∨ ∃ pid, 1 ≤ pid ∧ pid ≤ maxProcesses ∧ parentPtr k = pcbAddr pid

/-- The terminal that a new process gets. -/
def nextTerminal (k : Kernel) : Nat :=
  if parentPtr k = 0 then ((numTerminals - k.primaryShellCount - 1) % 2 ^ 32).toNat
  else k.mem.load32 (parentPtr k + 60)

/-- Memory with the next process's program in its frame. -/
def loadImage (k : Kernel) (bytes : List UInt8) : Mem :=
  k.mem.writeBytes (frameBase (k.processCount + 1) + progImgOffset) bytes

/-- The kernel with the next process's page mapped, and the memory with its program. -/
def loaded (k : Kernel) (m : Mem) : Kernel where
  __ := enterFrame k
  mem := m

/-- The words of the next process's control block. -/
def nextWords (fops : FopsTables) (locals : ExecuteLocals) (bytes : List UInt8) (k : Kernel) : List (Nat × Nat) :=
  pcbWords fops locals (parentPtr k) (nextTerminal k)
    ((loadImage k bytes).load32 (frameBase (k.processCount + 1) + progImgOffset + 24)) (k.processCount + 1)

/-- The control block that a turn of the loop builds. -/
def nextPcb (fops : FopsTables) (locals : ExecuteLocals) (prog : Program) (bytes : List UInt8) (k : Kernel)
    (pcb : Mem) : Mem := (argsInitialize prog pcb).storeWords (nextWords fops locals bytes k)

/-- The kernel behind a turn of the loop. -/
def startTurn (fops : FopsTables) (locals : ExecuteLocals) (prog : Program) (bytes : List UInt8)
    (s : Kernel × Mem) : Kernel × Mem :=
  let pcb := nextPcb fops locals prog bytes s.1 s.2
  (enqueuePcb (loaded s.1 (loadImage s.1 bytes)) pcb, pcb)

/-- A file that can be read as a whole when a user page is mapped. -/
abbrev FileMapped (fs : FileSys) (inode : Nat) : Prop := readMapped true fs inode (fs.fileLength inode) = true

theorem frameBase_le {pid : Nat} (h : pid ≤ maxProcesses) :
    pdeBase (init4mbUserPde (addr4MB + pid * addr4MB)) = frameBase pid :=
  pdeBase_init4mbUserPde h

theorem userPhys_progBuf (hmax : k.processCount < maxProcesses) :
    (enterFrame k).userPhys progBuf = frameBase (k.processCount + 1) + progImgOffset := by
  have hbase : pdeBase (enterFrame k).pdUser = frameBase (k.processCount + 1) := frameBase_le hmax
  rw [Kernel.userPhys, hbase, progBuf, Nat.add_sub_cancel_left]

theorem present_enterFrame (k : Kernel) : (enterFrame k).pdUser % 2 = 1 := by
  simp only [enterFrame, init4mbUserPde]
  omega

theorem userPresent_enterFrame (k : Kernel) : (enterFrame k).userPresent = true :=
  decide_eq_true (present_enterFrame k)

/-- Step 4 reads with the new page mapped. -/
theorem readStart_enterFrame (hmapped : FileMapped fs prog.inode) :
    readStart (enterFrame k) fs prog.inode (fs.fileLength prog.inode) =
      .ok (readData fs prog.inode 0 (fs.fileLength prog.inode)) := by
  rw [readStart, userPresent_enterFrame, if_pos hmapped]

/-- A program that fits its page is loaded. -/
theorem store_image (hmax : k.processCount < maxProcesses) {bytes : List UInt8} (hfit : bytes.length ≤ imageRoom) :
    (enterFrame k).store progBuf bytes = .ok (loaded k (loadImage k bytes)) := by
  have hhigh : progBuf + bytes.length ≤ addr128MB + addr4MB := by
    simp only [progBuf, imageRoom, progImgOffset, addr4MB] at *
    omega
  have hlow : addr128MB ≤ progBuf := Nat.le_add_right _ _
  rw [store_user _ bytes hlow hhigh (present_enterFrame k), userPhys_progBuf hmax]
  rfl

/-- A longer one runs into the end of the page. -/
theorem store_image_long {bytes : List UInt8} (hlong : imageRoom < bytes.length) :
    (enterFrame k).store progBuf bytes = .error .pageFault := by
  have hvideo : ¬ (videoMem ≤ progBuf ∧ progBuf + bytes.length ≤ videoEnd) := by
    simp only [videoMem, videoEnd, progBuf, addr128MB]
    omega
  have hkernel : ¬ (addr4MB ≤ progBuf ∧ progBuf + bytes.length ≤ addr8MB) := by
    simp only [addr8MB, progBuf, addr128MB]
    omega
  have huser : ¬ (addr128MB ≤ progBuf ∧ progBuf + bytes.length ≤ addr128MB + addr4MB) := by
    simp only [imageRoom, progBuf, progImgOffset, addr4MB] at *
    omega
  rw [Kernel.store, if_neg (by omega), areaOf, if_neg hvideo, if_neg hkernel, if_neg huser]

theorem mem_loaded (k : Kernel) (m : Mem) : (loaded k m).mem = m := rfl

/-- The word at an address of the new frame. -/
theorem fetch32_image (hmax : k.processCount < maxProcesses) (m : Mem) :
    (loaded k m).fetch32 (progBuf + 24) =
      .ok (m.load32 (frameBase (k.processCount + 1) + progImgOffset + 24)) := by
  have harea : areaOf (progBuf + 24) 4 = some .user := by
    apply areaOf_user
    · simp only [progBuf]
      omega
    · simp only [progBuf, progImgOffset, addr4MB]
      omega
  have hphys : (loaded k m).userPhys (progBuf + 24) =
      frameBase (k.processCount + 1) + progImgOffset + 24 := by
    have hbase : pdeBase (loaded k m).pdUser = frameBase (k.processCount + 1) := frameBase_le hmax
    rw [Kernel.userPhys, hbase, progBuf, Nat.add_assoc addr128MB, Nat.add_sub_cancel_left]
    exact (Nat.add_assoc _ _ _).symm
  have hpresent : (loaded k m).pdUser % 2 = 1 := present_enterFrame k
  have hfetch : (loaded k m).fetch (progBuf + 24) 4 =
      .ok (m.readBytes (frameBase (k.processCount + 1) + progImgOffset + 24) 4) := by
    rw [Kernel.fetch, if_neg (by decide), harea]
    simp only [hphys, hpresent, if_true]
    rw [mem_loaded]
  exact fetch32_of_fetch hfetch

/-- The frames begin where the kernel's page ends. -/
theorem addr8MB_le_frameBase (pid : Nat) : addr8MB ≤ frameBase (pid + 1) := by
  simp only [addr8MB, frameBase, addr4MB]
  omega

theorem pcbAddr_range {pid : Nat} (hone : 1 ≤ pid) (hmax : pid ≤ maxProcesses) :
    addr4MB ≤ pcbAddr pid ∧ pcbAddr pid + addr8KB ≤ addr8MB := by
  simp only [pcbAddr, addr4MB, addr8MB, addr8KB, maxProcesses] at *
  omega

theorem load32_loadImage {a : Nat} (bytes : List UInt8) (ha : a + 4 ≤ addr8MB) :
    (loadImage k bytes).load32 a = k.mem.load32 a := by
  have hbelow : a + 4 ≤ frameBase (k.processCount + 1) + progImgOffset :=
    (ha.trans (addr8MB_le_frameBase k.processCount)).trans (Nat.le_add_right _ _)
  rw [loadImage, Mem.load32_writeBytes_of_outside (.inl hbelow)]

theorem processCount_loaded (k : Kernel) (m : Mem) : (loaded k m).processCount = k.processCount + 1 := rfl

theorem primaryShellCount_loaded (k : Kernel) (m : Mem) : (loaded k m).primaryShellCount = k.primaryShellCount := rfl

theorem processQ_loaded (k : Kernel) (m : Mem) : (loaded k m).processQ = k.processQ := rfl

theorem parentPtr_loaded (k : Kernel) (m : Mem) : parentPtr (loaded k m) = parentPtr k := by
  rw [parentPtr, parentPtr, primaryShellCount_loaded, processQ_loaded]

theorem Startable.parentOk (hs : Startable k) : ParentOk k := by
  rw [ParentOk, parentPtr]
  split_ifs with hshells
  · exact hs.front
  · exact .inl rfl

theorem terminalNum_next (hs : ParentOk k) (bytes : List UInt8) :
    terminalNum (loaded k (loadImage k bytes)) (parentPtr k) = .ok (nextTerminal k) := by
  rw [terminalNum, nextTerminal]
  by_cases hparent : parentPtr k = 0
  · rw [if_pos hparent, if_pos hparent, primaryShellCount_loaded]
  · rw [if_neg hparent, if_neg hparent]
    obtain ⟨pid, hone, hmax, hpeak⟩ := hs.resolve_left hparent
    obtain ⟨hlow, hhigh⟩ := pcbAddr_range hone hmax
    simp only [addr8KB] at hhigh
    rw [hpeak, fetch32_kernel _ (by omega) (by omega), mem_loaded, load32_loadImage _ (by omega)]

/-- A turn starts a process when the program fits. -/
theorem startProcess_eq (hs : ParentOk k) (hmax : k.processCount < maxProcesses) {ret : Int} {bytes : List UInt8}
    (hmapped : FileMapped fs prog.inode) (hread : readData fs prog.inode 0 (fs.fileLength prog.inode) = (ret, bytes))
    (hfit : bytes.length ≤ imageRoom) :
    startProcess fops fs locals prog k pcb = .ok (startTurn fops locals prog bytes (k, pcb)) := by
  rw [startProcess, readStart_enterFrame hmapped, hread, ok_bind]
  simp only
  rw [store_image hmax hfit, ok_bind]
  simp only [parentPtr_loaded, terminalNum_next hs, fetch32_image hmax, ok_bind, pure_eq_ok, processCount_loaded]
  simp only [startTurn, nextPcb, nextWords]

theorem startProcess_long {ret : Int} {bytes : List UInt8}
    (hread : readData fs prog.inode 0 (fs.fileLength prog.inode) = (ret, bytes))
    (hlong : imageRoom < bytes.length) : startProcess fops fs locals prog k pcb = .error .pageFault := by
  rw [startProcess, readStart, hread]
  split_ifs with hmapped
  · rw [ok_bind]
    simp only
    rw [store_image_long hlong]
    rfl
  · rfl

theorem startProcess_unmapped (hunmapped : ¬ FileMapped fs prog.inode) :
    startProcess fops fs locals prog k pcb = .error .pageFault := by
  rw [startProcess, readStart, userPresent_enterFrame, if_neg hunmapped]
  rfl

/-! ### What a turn leaves -/

/-- The argument of a command. -/
def progArgs (prog : Program) : List UInt8 :=
  match prog.spaces with
  | [] => []
  | first :: _ => prog.command.drop (first + 1)

theorem argsInitialize_eq (prog : Program) (pcb : Mem) : argsInitialize prog pcb =
    ((pcb.writeBytes 452 (progArgs prog)).store32 448 ((progArgs prog).length + 1)).writeBytes
      (452 + (progArgs prog).length) [0] := by
  rw [argsInitialize, progArgs]
  cases prog.spaces with
  | nil => simp
  | cons first spaces => rfl

/-- Process `p` as `execute` set it up: its program and the words and arguments of its control block. The
descriptors behind the first two are those that the memory of the local `pcb` held. -/
structure StartedProcess (fops : FopsTables) (prog : Program) (bytes : List UInt8) (stale m : Mem)
    (p : Nat) : Prop where
  image : m.readBytes (frameBase p + progImgOffset) bytes.length = bytes
  eip : m.load32 (pcbAddr p) = m.load32 (frameBase p + progImgOffset + 24)
  pid : m.load32 (pcbAddr p + 52) = p
  terminalFds : ∀ fd < 2, m.load32 (fopPtrAddr (pcbAddr p) fd) = fops.terminal ∧
    m.load32 (filePosAddr (pcbAddr p) fd) = 0 ∧ m.load32 (inUseAddr (pcbAddr p) fd) = 1
  rest : ∀ i, 160 ≤ i → i < 448 → m (pcbAddr p + i) = stale i
  argLength : m.load32 (pcbAddr p + 448) = (progArgs prog).length + 1
  argBytes : m.readBytes (pcbAddr p + 452) ((progArgs prog).length + 1) = progArgs prog ++ [0]

/-- The memory that belongs to a process. -/
def OwnedBy (p x : Nat) : Prop :=
  (frameBase p ≤ x ∧ x < frameBase (p + 1)) ∨ (pcbAddr p ≤ x ∧ x < pcbAddr p + addr8KB)

theorem OwnedBy.unique {p q x : Nat} (hp : OwnedBy p x) (hq : OwnedBy q x) (hp1 : 1 ≤ p) (hpm : p ≤ maxProcesses)
    (hq1 : 1 ≤ q) (hqm : q ≤ maxProcesses) : p = q := by
  simp only [OwnedBy, frameBase, pcbAddr, addr4MB, addr8MB, addr8KB, maxProcesses] at *
  omega

theorem OwnedBy.of_frame {p i : Nat} (h : i < addr4MB) : OwnedBy p (frameBase p + i) := by
  simp only [OwnedBy, frameBase] at *
  left
  rw [Nat.add_mul, Nat.one_mul]
  omega

theorem OwnedBy.of_pcb {p i : Nat} (h : i < addr8KB) : OwnedBy p (pcbAddr p + i) :=
  .inr ⟨Nat.le_add_right _ _, Nat.add_lt_add_left h _⟩

/-- The memory that is set up for a process: its frame and its control block. The rest of its slot is the kernel stack
of the process above. -/
def SetUpFor (p x : Nat) : Prop :=
  (frameBase p ≤ x ∧ x < frameBase (p + 1)) ∨ (pcbAddr p ≤ x ∧ x < pcbAddr p + pcbSize)

theorem SetUpFor.owned {p x : Nat} (h : SetUpFor p x) : OwnedBy p x := by
  simp only [SetUpFor, OwnedBy, pcbSize, addr8KB] at *
  omega

theorem load32_congr_of_pcb {m m' : Mem} {p off : Nat} (h : ∀ x, OwnedBy p x → m' x = m x) (hoff : off + 4 ≤ addr8KB) :
    m'.load32 (pcbAddr p + off) = m.load32 (pcbAddr p + off) := by
  apply Mem.load32_congr
  intro i hi
  rw [Nat.add_assoc]
  exact h _ (.of_pcb (by omega))

/-- What belongs to the process decides it. -/
theorem StartedProcess.congr {bytes : List UInt8} {stale m m' : Mem} {p : Nat}
    (hs : StartedProcess fops prog bytes stale m p) (hfit : bytes.length ≤ imageRoom)
    (hargs : (progArgs prog).length + 1 ≤ 128) (h : ∀ x, OwnedBy p x → m' x = m x) :
    StartedProcess fops prog bytes stale m' p := by
  have hword : ∀ off, off + 4 ≤ addr8KB → m'.load32 (pcbAddr p + off) = m.load32 (pcbAddr p + off) :=
    fun off hoff => load32_congr_of_pcb h hoff
  have hfd : ∀ fd < 2, fdeOffset fd + 48 ≤ addr8KB := by
    intro fd hfd
    simp only [fdeOffset, addr8KB]
    omega
  refine ⟨?_, ?_, ?_, fun fd hlt => ?_, fun i hlow hhigh => ?_, ?_, ?_⟩
  · refine (Mem.readBytes_congr ?_).trans hs.image
    intro i hi
    rw [Nat.add_assoc]
    apply h
    apply OwnedBy.of_frame
    simp only [imageRoom, progImgOffset, addr4MB] at *
    omega
  · have hfirst := hword 0 (by simp only [addr8KB]; omega)
    rw [Nat.add_zero] at hfirst
    rw [hfirst, hs.eip]
    apply Mem.load32_congr
    intro i hi
    rw [Nat.add_assoc, Nat.add_assoc]
    exact (h _ (.of_frame (by simp only [progImgOffset, addr4MB]; omega))).symm
  · rw [hword 52 (by simp only [addr8KB]; omega), hs.pid]
  · have hroom := hfd fd hlt
    have hpos := hword (fdeOffset fd + 40) (by omega)
    have huse := hword (fdeOffset fd + 44) (by omega)
    rw [← Nat.add_assoc] at hpos huse
    obtain ⟨hfop, hpos', huse'⟩ := hs.terminalFds fd hlt
    exact ⟨(hword _ (by omega)).trans hfop, hpos.trans hpos', huse.trans huse'⟩
  · rw [h _ (.of_pcb (by simp only [addr8KB]; omega)), hs.rest i hlow hhigh]
  · rw [hword 448 (by simp only [addr8KB]; omega), hs.argLength]
  · rw [← hs.argBytes]
    apply Mem.readBytes_congr
    intro i hi
    rw [Nat.add_assoc]
    exact h _ (.of_pcb (by simp only [addr8KB]; omega))

theorem argsInitialize_of_lt {i : Nat} (h : i < 448) : argsInitialize prog pcb i = pcb i := by
  rw [argsInitialize_eq, Mem.writeBytes_of_outside (.inl (by omega)), Mem.store32_of_outside _ (.inl h),
    Mem.writeBytes_of_outside (.inl (by omega))]

theorem argsInitialize_length (pcb : Mem) (h : (progArgs prog).length + 1 ≤ 128) :
    (argsInitialize prog pcb).load32 448 = (progArgs prog).length + 1 := by
  rw [argsInitialize_eq, Mem.load32_writeBytes_of_outside (.inl (by omega)), Mem.load32_store32_of_lt _ _ (by omega)]

theorem argsInitialize_bytes (prog : Program) (pcb : Mem) :
    (argsInitialize prog pcb).readBytes 452 ((progArgs prog).length + 1) = progArgs prog ++ [0] := by
  rw [argsInitialize_eq]
  generalize progArgs prog = args
  apply List.ext_getElem
  · simp
  · intro i hi hi'
    rw [Mem.getElem_readBytes]
    rw [Mem.length_readBytes] at hi
    rcases Nat.lt_or_ge i args.length with hlt | hge
    · rw [Mem.writeBytes_of_outside (.inl (by omega)), Mem.store32_of_outside _ (.inr (by omega)),
        Mem.writeBytes_add hlt, List.getElem_append_left hlt]
    · obtain rfl : i = args.length := by omega
      rw [List.getElem_append_right le_rfl]
      have hlast : ∀ m : Mem, m.writeBytes (452 + args.length) [0] (452 + args.length + 0) = 0 :=
        fun m => Mem.writeBytes_add (by decide)
      simpa using hlast _

/-- The words of a control block do not overlap. -/
theorem pairwise_pcbWords (fops : FopsTables) (locals : ExecuteLocals) (parent terminal eip pid : Nat) :
    (pcbWords fops locals parent terminal eip pid).Pairwise fun w w' => w.1 + 4 ≤ w'.1 ∨ w'.1 + 4 ≤ w.1 := by
  have hoffsets : ((pcbWords fops locals parent terminal eip pid).map Prod.fst).Pairwise
      fun o o' => o + 4 ≤ o' ∨ o' + 4 ≤ o := by
    simp only [pcbWords, List.map_cons, List.map_nil]
    decide
  exact List.pairwise_map.mp hoffsets

theorem pcbWords_lt {parent terminal eip pid : Nat} {w : Nat × Nat}
    (h : w ∈ pcbWords fops locals parent terminal eip pid) : w.1 + 4 ≤ 160 := by
  simp only [pcbWords, fdeOffset, List.mem_cons, List.not_mem_nil, or_false] at h
  rcases h with rfl | rfl | rfl | rfl | rfl | rfl | rfl | rfl | rfl | rfl | rfl | rfl | rfl | rfl | rfl <;> simp

section Turn

variable {bytes : List UInt8}

/-- Behind the first two descriptors only the arguments are set. -/
theorem nextPcb_of_ge {i : Nat} (h : 160 ≤ i) :
    nextPcb fops locals prog bytes k pcb i = argsInitialize prog pcb i := by
  rw [nextPcb]
  apply Mem.storeWords_of_outside
  intro w hw
  have := pcbWords_lt hw
  omega

theorem nextPcb_rest {i : Nat} (hlow : 160 ≤ i) (hhigh : i < 448) :
    nextPcb fops locals prog bytes k pcb i = pcb i := by
  rw [nextPcb_of_ge hlow, argsInitialize_of_lt hhigh]

theorem nextPcb_word {w : Nat × Nat} (h : w ∈ nextWords fops locals bytes k) :
    (nextPcb fops locals prog bytes k pcb).load32 w.1 = w.2 % 2 ^ 32 := by
  rw [nextPcb]
  exact Mem.load32_storeWords _ (pairwise_pcbWords _ _ _ _ _ _) h

theorem mem_startTurn (fops : FopsTables) (locals : ExecuteLocals) (prog : Program) (bytes : List UInt8)
    (k : Kernel) (pcb : Mem) : (startTurn fops locals prog bytes (k, pcb)).1.mem =
      (loadImage k bytes).writeBytes (pcbAddr (k.processCount + 1))
        ((nextPcb fops locals prog bytes k pcb).readBytes 0 pcbSize) := by
  simp only [startTurn, enqueuePcb, mem_loaded, processCount_loaded]

/-- A turn changes memory of the new process only. -/
theorem startTurn_frame (hfit : bytes.length ≤ imageRoom) {x : Nat} (hx : ¬ SetUpFor (k.processCount + 1) x) :
    (startTurn fops locals prog bytes (k, pcb)).1.mem x = k.mem x := by
  rw [mem_startTurn, Mem.writeBytes_of_outside, loadImage, Mem.writeBytes_of_outside]
  · by_contra hin
    refine hx (.inl ?_)
    simp only [imageRoom, progImgOffset, frameBase, addr4MB] at *
    omega
  · rw [Mem.length_readBytes]
    by_contra hin
    refine hx (.inr ?_)
    omega

/-- The new control block is read back at its place. -/
theorem startTurn_pcb {off : Nat} (hoff : off + 4 ≤ pcbSize) :
    (startTurn fops locals prog bytes (k, pcb)).1.mem.load32 (pcbAddr (k.processCount + 1) + off) =
      (nextPcb fops locals prog bytes k pcb).load32 off := by
  rw [mem_startTurn, Mem.load32_writeBytes_readBytes _ _ _ _ hoff, Nat.zero_add]

theorem startTurn_pcb_byte {i : Nat} (hi : i < pcbSize) :
    (startTurn fops locals prog bytes (k, pcb)).1.mem (pcbAddr (k.processCount + 1) + i) =
      nextPcb fops locals prog bytes k pcb i := by
  rw [mem_startTurn, Mem.writeBytes_readBytes_add _ _ _ _ hi, Nat.zero_add]

/-- The frames are not in the kernel's page, where the control blocks are. -/
theorem pcb_below_frame {p q : Nat} (hp : 1 ≤ p) : pcbAddr p + addr8KB ≤ frameBase (q + 1) := by
  simp only [pcbAddr, frameBase, addr8MB, addr8KB, addr4MB]
  omega

theorem startTurn_image {i : Nat} :
    (startTurn fops locals prog bytes (k, pcb)).1.mem (frameBase (k.processCount + 1) + i) =
      loadImage k bytes (frameBase (k.processCount + 1) + i) := by
  have hbelow := pcb_below_frame (p := k.processCount + 1) (q := k.processCount) (by omega)
  rw [mem_startTurn, Mem.writeBytes_of_outside]
  right
  rw [Mem.length_readBytes]
  simp only [pcbSize, addr8KB] at *
  omega

/-- Every word that a turn sets is found in the control block. -/
theorem startTurn_word (prog : Program) (pcb : Mem) {off v : Nat} (h : (off, v) ∈ nextWords fops locals bytes k) :
    (startTurn fops locals prog bytes (k, pcb)).1.mem.load32 (pcbAddr (k.processCount + 1) + off) = v % 2 ^ 32 := by
  have hlt : off + 4 ≤ 160 := pcbWords_lt h
  rw [startTurn_pcb (by simp only [pcbSize]; omega)]
  exact nextPcb_word (w := (off, v)) h

theorem mem_nextWords {off v : Nat} (fops : FopsTables) (locals : ExecuteLocals) (bytes : List UInt8) (k : Kernel)
    (h : (off, v) ∈ [(fdeOffset 0, fops.terminal), (fdeOffset 0 + 40, 0), (fdeOffset 0 + 44, 1),
      (fdeOffset 1, fops.terminal), (fdeOffset 1 + 40, 0), (fdeOffset 1 + 44, 1)]) :
    (off, v) ∈ nextWords fops locals bytes k := by
  simp only [nextWords, pcbWords, List.mem_cons] at *
  tauto

theorem FopsTables.terminal_lt (fops : FopsTables) : fops.terminal < 2 ^ 32 := fops.small _ (by simp)

/-- A turn starts the next process. -/
theorem startTurn_started {stale : Mem} (hmax : k.processCount < maxProcesses)
    (hargs : (progArgs prog).length + 1 ≤ 128) (hstale : ∀ i, 160 ≤ i → i < 448 → pcb i = stale i) :
    StartedProcess fops prog bytes stale (startTurn fops locals prog bytes (k, pcb)).1.mem
      (k.processCount + 1) := by
  have hload : ∀ i, (startTurn fops locals prog bytes (k, pcb)).1.mem.load32
      (frameBase (k.processCount + 1) + i) = (loadImage k bytes).load32 (frameBase (k.processCount + 1) + i) := by
    intro i
    apply Mem.load32_congr
    intro j _
    rw [Nat.add_assoc, startTurn_image]
  refine ⟨?_, ?_, ?_, fun fd hfd => ?_, fun i hlow hhigh => ?_, ?_, ?_⟩
  · have hcopy := Mem.readBytes_writeBytes k.mem (frameBase (k.processCount + 1) + progImgOffset) bytes []
    rw [List.append_nil] at hcopy
    refine (Mem.readBytes_congr ?_).trans hcopy
    intro i _
    rw [Nat.add_assoc, startTurn_image, loadImage]
  · have hmem : (0, (loadImage k bytes).load32 (frameBase (k.processCount + 1) + progImgOffset + 24)) ∈
        nextWords fops locals bytes k := by simp [nextWords, pcbWords]
    have hword := startTurn_word prog pcb hmem
    rw [Nat.add_zero, Nat.mod_eq_of_lt (Mem.load32_lt _ _)] at hword
    rw [hword, Nat.add_assoc, hload]
  · have hmem : (52, k.processCount + 1) ∈ nextWords fops locals bytes k := by simp [nextWords, pcbWords]
    rw [startTurn_word _ _ hmem]
    simp only [maxProcesses] at hmax
    omega
  · have hword : ∀ off v, (off, v) ∈ [(fdeOffset 0, fops.terminal), (fdeOffset 0 + 40, 0),
        (fdeOffset 0 + 44, 1), (fdeOffset 1, fops.terminal), (fdeOffset 1 + 40, 0), (fdeOffset 1 + 44, 1)] →
        (startTurn fops locals prog bytes (k, pcb)).1.mem.load32 (pcbAddr (k.processCount + 1) + off) =
          v % 2 ^ 32 := fun off v h => startTurn_word _ _ (mem_nextWords fops locals bytes k h)
    have hterm : fops.terminal % 2 ^ 32 = fops.terminal := Nat.mod_eq_of_lt fops.terminal_lt
    simp only [fopPtrAddr, filePosAddr, inUseAddr, Nat.add_assoc]
    interval_cases fd
    · rw [hword _ fops.terminal (by simp), hword _ 0 (by simp), hword _ 1 (by simp)]
      exact ⟨hterm, rfl, rfl⟩
    · rw [hword _ fops.terminal (by simp), hword _ 0 (by simp), hword _ 1 (by simp)]
      exact ⟨hterm, rfl, rfl⟩
  · rw [startTurn_pcb_byte (by simp only [pcbSize]; omega), nextPcb_rest hlow hhigh, hstale i hlow hhigh]
  · rw [startTurn_pcb (by simp [pcbSize]), ← argsInitialize_length pcb hargs]
    apply Mem.load32_congr
    intro i _
    exact nextPcb_of_ge (by omega)
  · rw [← argsInitialize_bytes prog pcb]
    apply Mem.readBytes_congr
    intro i hi
    rw [Nat.add_assoc, startTurn_pcb_byte (by simp only [pcbSize]; omega), nextPcb_of_ge (by omega)]

theorem fst_startTurn (s : Kernel × Mem) : (startTurn fops locals prog bytes s).1 =
    enqueuePcb (loaded s.1 (loadImage s.1 bytes)) (nextPcb fops locals prog bytes s.1 s.2) := by
  rw [startTurn]

theorem snd_startTurn (s : Kernel × Mem) :
    (startTurn fops locals prog bytes s).2 = nextPcb fops locals prog bytes s.1 s.2 := by
  rw [startTurn]

theorem processCount_startTurn (s : Kernel × Mem) :
    (startTurn fops locals prog bytes s).1.processCount = s.1.processCount + 1 := by
  have henqueue : ∀ k pcb, (enqueuePcb k pcb).processCount = k.processCount := fun k pcb => by rw [enqueuePcb]
  rw [fst_startTurn, henqueue, processCount_loaded]

theorem primaryShellCount_startTurn (s : Kernel × Mem) :
    (startTurn fops locals prog bytes s).1.primaryShellCount =
      if s.1.primaryShellCount < numTerminals then s.1.primaryShellCount + 1 else s.1.primaryShellCount := by
  have henqueue : ∀ k pcb, (enqueuePcb k pcb).primaryShellCount =
      if k.primaryShellCount < numTerminals then k.primaryShellCount + 1 else k.primaryShellCount :=
    fun k pcb => by rw [enqueuePcb]
  rw [fst_startTurn, henqueue, primaryShellCount_loaded]

theorem processQ_startTurn (s : Kernel × Mem) :
    (startTurn fops locals prog bytes s).1.processQ =
      (pqEnqueueFront s.1.processQ (pcbAddr (s.1.processCount + 1))).1 := by
  have henqueue : ∀ k pcb, (enqueuePcb k pcb).processQ = (pqEnqueueFront k.processQ (pcbAddr k.processCount)).1 :=
    fun k pcb => by rw [enqueuePcb]
  rw [fst_startTurn, henqueue, processQ_loaded, processCount_loaded]

theorem pdUser_startTurn (s : Kernel × Mem) :
    (startTurn fops locals prog bytes s).1.pdUser = init4mbUserPde (addr4MB + (s.1.processCount + 1) * addr4MB) := by
  have henqueue : ∀ k pcb, (enqueuePcb k pcb).pdUser = k.pdUser := fun k pcb => by rw [enqueuePcb]
  rw [fst_startTurn, henqueue]
  rfl

/-! ### The loop -/

/-- The turns that `execute` makes. -/
def turns (k : Kernel) : Nat := (numTerminals - k.primaryShellCount - 1).toNat + 1

/-- The state of the loop after some turns. -/
def afterTurns (fops : FopsTables) (locals : ExecuteLocals) (prog : Program) (bytes : List UInt8) (k : Kernel)
    (n : Nat) : Kernel × Mem := (startTurn fops locals prog bytes)^[n] (k, locals.pcb)

theorem afterTurns_succ (k : Kernel) (n : Nat) : afterTurns fops locals prog bytes k (n + 1) =
    startTurn fops locals prog bytes (afterTurns fops locals prog bytes k n) :=
  Function.iterate_succ_apply' _ _ _

theorem parentOk_of_lt (h : k.primaryShellCount < numTerminals) : ParentOk k :=
  .inl (by rw [parentPtr, if_neg (by omega)])

/-- The loop makes its turns one after the other. -/
theorem startLoop_eq {ret : Int} (hmapped : FileMapped fs prog.inode)
    (hread : readData fs prog.inode 0 (fs.fileLength prog.inode) = (ret, bytes))
    (hfit : bytes.length ≤ imageRoom) (n : Nat) (hparent : ParentOk k) (hmax : k.processCount + n < maxProcesses)
    (hturns : k.primaryShellCount + n + 1 = numTerminals ∨ n = 0) :
    startLoop fops fs locals prog n k pcb = .ok ((startTurn fops locals prog bytes)^[n + 1] (k, pcb)) := by
  induction n generalizing k pcb with
  | zero =>
      rw [startLoop, Nat.zero_add, Function.iterate_one]
      exact startProcess_eq hparent hmax hmapped hread hfit
  | succ n ih =>
      have hshells : k.primaryShellCount + (n + 1 : Nat) + 1 = numTerminals := hturns.resolve_right (by omega)
      have hlt : k.primaryShellCount < numTerminals := by omega
      have hcount : (startTurn fops locals prog bytes (k, pcb)).1.processCount = k.processCount + 1 :=
        processCount_startTurn _
      have hnext : (startTurn fops locals prog bytes (k, pcb)).1.primaryShellCount = k.primaryShellCount + 1 := by
        rw [primaryShellCount_startTurn, if_pos hlt]
      rw [startLoop, startProcess_eq hparent (by omega) hmapped hread hfit, ok_bind, Function.iterate_succ_apply]
      generalize startTurn fops locals prog bytes (k, pcb) = s at hcount hnext
      obtain ⟨k1, pcb1⟩ := s
      simp only at hcount hnext ⊢
      rw [if_pos (by omega)]
      exact ih (parentOk_of_lt (by omega)) (by omega) (.inl (by omega))

/-- What the loop has done after `n` turns. -/
structure AfterTurns (fops : FopsTables) (prog : Program) (bytes : List UInt8) (stale : Mem) (k : Kernel) (n : Nat)
    (s : Kernel × Mem) : Prop where
  count : s.1.processCount = k.processCount + n
  mapped : n ≠ 0 → s.1.pdUser = init4mbUserPde (addr4MB + (k.processCount + n) * addr4MB)
  rest : ∀ i, 160 ≤ i → i < 448 → s.2 i = stale i
  started : ∀ p, k.processCount < p → p ≤ k.processCount + n → StartedProcess fops prog bytes stale s.1.mem p
  frame : ∀ x, (∀ p, k.processCount < p → p ≤ k.processCount + n → ¬ SetUpFor p x) → s.1.mem x = k.mem x

theorem afterTurns_spec (hfit : bytes.length ≤ imageRoom) (hargs : (progArgs prog).length + 1 ≤ 128) (n : Nat)
    (hmax : k.processCount + n ≤ maxProcesses) :
    AfterTurns fops prog bytes locals.pcb k n (afterTurns fops locals prog bytes k n) := by
  induction n with
  | zero =>
      exact ⟨rfl, fun h => absurd rfl h, fun _ _ _ => rfl, fun p hlow hhigh => by omega, fun _ _ => rfl⟩
  | succ n ih =>
      have hbefore := ih (by omega)
      rw [afterTurns_succ]
      generalize afterTurns fops locals prog bytes k n = s at hbefore
      obtain ⟨k1, pcb1⟩ := s
      obtain ⟨hcount, -, hrest, hstarted, hframe⟩ := hbefore
      simp only at hcount hrest hstarted hframe
      refine ⟨?_, fun _ => ?_, fun i hlow hhigh => ?_, fun p hlow hhigh => ?_, fun x hx => ?_⟩
      · rw [processCount_startTurn, hcount]
        rfl
      · rw [pdUser_startTurn]
        simp only [hcount]
        rw [Nat.add_assoc]
      · rw [snd_startTurn, nextPcb_rest hlow hhigh]
        exact hrest i hlow hhigh
      · -- the process of this turn is new, and those of the earlier turns are left alone
        rcases Nat.lt_or_ge (k.processCount + n) p with hnew | hold
        · obtain rfl : p = k1.processCount + 1 := by omega
          exact startTurn_started (by omega) hargs hrest
        · apply (hstarted p hlow hold).congr hfit hargs
          intro x hx
          apply startTurn_frame hfit
          intro hother
          have := hx.unique hother.owned (by omega) (by omega) (by omega) (by omega)
          omega
      · rw [startTurn_frame hfit (hx _ (by omega) (by omega))]
        exact hframe x fun p hlow hhigh => hx p hlow (by omega)

end Turn

/-- What a command went through to be accepted. -/
structure Accepted (fs : FileSys) (k : Kernel) (locals : ExecuteLocals) (command : List UInt8) (prog : Program) :
    Prop where
  count : k.processCount < maxProcesses
  nonempty : strncmp (str command) (str []) 2 ≠ 0
  short : command.length < 128
  spaces : (charSpaceIndices command).length ≤ 1
  named : 0 < (charSpaceIndices command).headD command.length
  nameFits : (charSpaceIndices command).headD command.length ≤ fnameLength
  found : ∃ d, readDentryByName fs (command.take ((charSpaceIndices command).headD command.length)) = .ok (some d) ∧
    prog = ⟨command, charSpaceIndices command, d.inode⟩
  headerMapped : readMapped k.userPresent fs prog.inode 4 = true
  header : (readData fs prog.inode 0 4).1 ≠ -1
  magic : exeHeader locals.exeBuff (readData fs prog.inode 0 4).2 = elfMagic

theorem checkHeader_pass {name : List UInt8} {prog prog' : Program}
    (h : checkHeader fs k locals name prog = .ok (.pass prog')) :
    prog' = prog ∧ readMapped k.userPresent fs prog.inode 4 = true ∧ (readData fs prog.inode 0 4).1 ≠ -1 ∧
      exeHeader locals.exeBuff (readData fs prog.inode 0 4).2 = elfMagic := by
  rw [checkHeader, readStart] at h
  generalize readData fs prog.inode 0 4 = header at h
  split_ifs at h with hmapped
  · rw [ok_bind] at h
    split_ifs at h with hfail hmagic
    · cases h
    · cases h
      exact ⟨rfl, hmapped, hfail, hmagic⟩
    · cases h
  · cases h

theorem accepted_of_pass {command : List UInt8} (h : checkCommand fs k locals command = .ok (.pass prog)) :
    Accepted fs k locals command prog := by
  rw [checkCommand] at h
  split_ifs at h with hcount hempty hlong hspaces
  · cases h
  · cases h
  simp only [checkName] at h
  split_ifs at h with hname hmany hfit
  · cases h
  · cases h
  obtain ⟨found, hlookup, h⟩ := bind_eq_ok h
  cases found with
  | none => cases h
  | some d =>
      obtain ⟨hprog, hmapped, hheader, hmagic⟩ := checkHeader_pass h
      subst hprog
      exact ⟨by omega, hempty, by omega, by omega, by omega, by omega, ⟨d, hlookup, rfl⟩, hmapped, hheader, hmagic⟩

theorem progArgs_length {command : List UInt8} (h : Accepted fs k locals command prog) :
    (progArgs prog).length + 1 ≤ 128 := by
  obtain ⟨d, -, rfl⟩ := h.found
  have hshort := h.short
  simp only [progArgs]
  cases charSpaceIndices command with
  | nil => simp
  | cons first spaces =>
      simp only [List.length_drop]
      omega

/-- The size limit of `read_data`, which the header was read under. -/
theorem Accepted.size {command : List UInt8} (h : Accepted fs k locals command prog) :
    fs.fileLength prog.inode ≤ kb4 * maxDblocksPerFile := by
  by_contra hlong
  apply h.header
  simp only [readData]
  rw [if_pos (by omega)]

/-- The bytes that step 4 reads. -/
theorem Accepted.read {command : List UInt8} (h : Accepted fs k locals command prog) :
    readData fs prog.inode 0 (fs.fileLength prog.inode) =
      ((fs.fileLength prog.inode : Int), fileSlice fs prog.inode 0 (fs.fileLength prog.inode)) := by
  have hsize := h.size
  have hlt : 0 + fs.fileLength prog.inode < 2 ^ 32 := by
    simp only [kb4, maxDblocksPerFile] at hsize
    omega
  rw [readData_spec fs hsize (Nat.zero_le _) hlt, Nat.sub_zero, Nat.min_self]

theorem Startable.turns_le (hs : Startable k) (hmax : k.processCount < maxProcesses) :
    k.processCount + turns k ≤ maxProcesses := by
  have hshells := hs.shells
  simp only [turns, numTerminals, maxProcesses] at *
  omega

/-- The state in which a process is entered. -/
def enterProcess (s : Kernel × Mem) : Kernel × ExecuteEnd :=
  ({ s.1 with tssEsp0 := kernelStack s.1.processCount }, .iret (s.2.load32 0) (s.2.load32 44))

/-- An accepted command whose file fits is started. -/
theorem execute_starts {command : List UInt8} (hs : Startable k)
    (hcheck : checkCommand fs k locals command = .ok (.pass prog))
    (hfit : fs.fileLength prog.inode ≤ imageRoom) (hmapped : FileMapped fs prog.inode) :
    execute fops fs locals k command = .ok (enterProcess (afterTurns fops locals prog
      (fileSlice fs prog.inode 0 (fs.fileLength prog.inode)) k (turns k))) := by
  have hacc := accepted_of_pass hcheck
  have hmax := hs.turns_le hacc.count
  have hlen : (fileSlice fs prog.inode 0 (fs.fileLength prog.inode)).length ≤ imageRoom := by
    rw [length_fileSlice]
    exact hfit
  have hturns : k.primaryShellCount + (numTerminals - k.primaryShellCount - 1).toNat + 1 = numTerminals ∨
      (numTerminals - k.primaryShellCount - 1).toNat = 0 := by
    have hshells := hs.shells
    simp only [numTerminals] at *
    omega
  rw [execute, hcheck, ok_bind]
  simp only
  rw [startLoop_eq hmapped hacc.read hlen _ hs.parentOk (by rw [turns] at hmax; omega) hturns, ok_bind, pure_eq_ok,
    enterProcess, afterTurns, turns]

/-- A longer file runs into the end of the page, and one with bad numbers into memory that is not mapped. -/
theorem execute_unloadable {command : List UInt8} (hcheck : checkCommand fs k locals command = .ok (.pass prog))
    (hbad : imageRoom < fs.fileLength prog.inode ∨ ¬ FileMapped fs prog.inode) :
    execute fops fs locals k command = .error .pageFault := by
  have hread := (accepted_of_pass hcheck).read
  have hloop : ∀ n, startLoop fops fs locals prog n k locals.pcb = .error .pageFault := by
    intro n
    have hstart : startProcess fops fs locals prog k locals.pcb = .error .pageFault := by
      rcases hbad with hlong | hunmapped
      · exact startProcess_long hread (by rw [length_fileSlice]; exact hlong)
      · exact startProcess_unmapped hunmapped
    cases n with
    | zero => rw [startLoop, hstart]
    | succ n =>
        rw [startLoop, hstart]
        rfl
  rw [execute, hcheck, ok_bind]
  simp only
  rw [hloop]
  rfl

/-- What is known when `execute` entered a program. -/
structure Entered (fops : FopsTables) (fs : FileSys) (locals : ExecuteLocals) (k : Kernel) (prog : Program)
    (k' : Kernel) : Prop where
  fits : fs.fileLength prog.inode ≤ imageRoom
  args : (progArgs prog).length + 1 ≤ 128
  more : k.processCount < k'.processCount
  running : Running k'
  started : ∀ p, k.processCount < p → p ≤ k'.processCount → StartedProcess fops prog
    (fileSlice fs prog.inode 0 (fs.fileLength prog.inode)) locals.pcb k'.mem p
  frame : ∀ x, (∀ p, k.processCount < p → p ≤ k'.processCount → ¬ SetUpFor p x) → k'.mem x = k.mem x

theorem entered_afterTurns {command : List UInt8} (hs : Startable k) (hacc : Accepted fs k locals command prog)
    (hfit : fs.fileLength prog.inode ≤ imageRoom) :
    Entered fops fs locals k prog (enterProcess (afterTurns fops locals prog
      (fileSlice fs prog.inode 0 (fs.fileLength prog.inode)) k (turns k))).1 := by
  have hargs := progArgs_length hacc
  have hmax := hs.turns_le hacc.count
  have hspec : AfterTurns fops prog _ locals.pcb k (turns k) (afterTurns fops locals prog
      (fileSlice fs prog.inode 0 (fs.fileLength prog.inode)) k (turns k)) :=
    afterTurns_spec (by rw [length_fileSlice]; exact hfit) hargs (turns k) hmax
  generalize afterTurns fops locals prog (fileSlice fs prog.inode 0 (fs.fileLength prog.inode)) k (turns k) = s at hspec
  have hpos : 0 < turns k := Nat.succ_pos _
  obtain ⟨hcount, hmapped, -, hstarted, hframe⟩ := hspec
  rw [← hcount] at hmax hstarted hframe
  have hmapped := hmapped (by omega)
  rw [← hcount] at hmapped
  exact ⟨hfit, hargs, by simp only [enterProcess]; omega, ⟨by simp only [enterProcess]; omega, hmax, hmapped⟩,
    hstarted, hframe⟩

/-- A process is entered only after a command was accepted and its file loaded. -/
theorem execute_turns {command : List UInt8} {eip esp : Nat} (hs : Startable k)
    (h : execute fops fs locals k command = .ok (k', .iret eip esp)) :
    ∃ prog, Accepted fs k locals command prog ∧ fs.fileLength prog.inode ≤ imageRoom ∧
      k' = (enterProcess (afterTurns fops locals prog
        (fileSlice fs prog.inode 0 (fs.fileLength prog.inode)) k (turns k))).1 := by
  have hexec := h
  rw [execute] at h
  obtain ⟨check, hcheck, h⟩ := bind_eq_ok h
  cases check with
  | fail text =>
      simp only [pure_eq_ok] at h
      cases h
  | pass prog =>
      by_cases hbad : imageRoom < fs.fileLength prog.inode ∨ ¬ FileMapped fs prog.inode
      · rw [execute_unloadable hcheck hbad] at hexec
        cases hexec
      · obtain ⟨hfit, hmapped⟩ := not_or.mp hbad
        have hfit := Nat.le_of_not_lt hfit
        rw [execute_starts hs hcheck hfit (not_not.mp hmapped)] at hexec
        exact ⟨prog, accepted_of_pass hcheck, hfit, (Prod.mk.inj (Except.ok.inj hexec)).1.symm⟩

theorem execute_entered {command : List UInt8} {eip esp : Nat} (hs : Startable k)
    (h : execute fops fs locals k command = .ok (k', .iret eip esp)) :
    ∃ prog, Accepted fs k locals command prog ∧ Entered fops fs locals k prog k' := by
  obtain ⟨prog, hacc, hfit, rfl⟩ := execute_turns hs h
  exact ⟨prog, hacc, entered_afterTurns hs hacc hfit⟩

/-- An `execute` that returns -1 has printed at most. -/
theorem execute_returned {command : List UInt8} (h : execute fops fs locals k command = .ok (k', .fail)) :
    ∃ text, k' = printf k text := by
  rw [execute] at h
  obtain ⟨check, -, h⟩ := bind_eq_ok h
  cases check with
  | fail text =>
      simp only [pure_eq_ok] at h
      exact ⟨text, (Prod.mk.inj (Except.ok.inj h)).1.symm⟩
  | pass prog =>
      simp only at h
      obtain ⟨s, -, h⟩ := bind_eq_ok h
      simp only [pure_eq_ok] at h
      cases h

end UnixOs
