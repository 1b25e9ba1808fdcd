import UnixOs.ProcessExit
import UnixOs.UserPrograms

/-! A command from the shell and back. `execute` starts the program in the slot above the shell, the program runs,
and `halt` goes back through the frame of `execute`: the terminal was written what the program prints, and the shell
finds its memory, its page and its queue as they were. -/

namespace UnixOs

open ProcessQueue

variable {fops : FopsTables} {fs : FileSys} {locals : ExecuteLocals} {prog : Program} {k₀ k₁ k k' : Kernel} {t : Term}
  {command : List UInt8} {eip esp : Nat}

/-- A shell that can start a command on terminal `t`. -/
structure InShell (t : Term) (k : Kernel) : Prop where
  table : LiveTable k
  terminal : OnTerminal t k
  counter : k.dirReadCount = 0

theorem console_enqueuePcb (k : Kernel) (pcb : Mem) :
    (enqueuePcb k pcb).console = k.console ∧ (enqueuePcb k pcb).dirReadCount = k.dirReadCount := by
  rw [enqueuePcb]
  exact ⟨rfl, rfl⟩

theorem console_startTurn (fops : FopsTables) (locals : ExecuteLocals) (prog : Program) (bytes : List UInt8)
    (s : Kernel × Mem) :
    (startTurn fops locals prog bytes s).1.console = s.1.console ∧
      (startTurn fops locals prog bytes s).1.dirReadCount = s.1.dirReadCount := by
  have hloaded : ∀ m, (loaded s.1 m).console = s.1.console ∧ (loaded s.1 m).dirReadCount = s.1.dirReadCount :=
    fun m => ⟨rfl, rfl⟩
  rw [fst_startTurn, (console_enqueuePcb _ _).1, (console_enqueuePcb _ _).2]
  exact hloaded _

/-- Starting processes leaves the console and the directory counter. -/
theorem console_afterTurns (fops : FopsTables) (locals : ExecuteLocals) (prog : Program) (bytes : List UInt8)
    (k : Kernel) (n : Nat) :
    (afterTurns fops locals prog bytes k n).1.console = k.console ∧
      (afterTurns fops locals prog bytes k n).1.dirReadCount = k.dirReadCount := by
  induction n with
  | zero => exact ⟨rfl, rfl⟩
  | succ n ih =>
      obtain ⟨hconsole, hcounter⟩ := console_startTurn fops locals prog bytes
        (afterTurns fops locals prog bytes k n)
      rw [afterTurns_succ]
      exact ⟨hconsole.trans ih.1, hcounter.trans ih.2⟩

theorem execute_console (hs : Startable k₀) (hexec : execute fops fs locals k₀ command = .ok (k₁, .iret eip esp)) :
    k₁.console = k₀.console ∧ k₁.dirReadCount = k₀.dirReadCount := by
  obtain ⟨prog, -, -, rfl⟩ := execute_turns hs hexec
  have henter : ∀ s : Kernel × Mem, (enterProcess s).1.console = s.1.console ∧
      (enterProcess s).1.dirReadCount = s.1.dirReadCount := fun s => ⟨rfl, rfl⟩
  obtain ⟨hconsole, hcounter⟩ := console_afterTurns fops locals prog
    (fileSlice fs prog.inode 0 (fs.fileLength prog.inode)) k₀ (turns k₀)
  exact ⟨(henter _).1.trans hconsole, (henter _).2.trans hcounter⟩

/-- The process that a shell's `execute` started. -/
structure Child (fops : FopsTables) (fs : FileSys) (locals : ExecuteLocals) (prog : Program) (k₀ k₁ : Kernel) :
    Prop where
  table : LiveTable k₁
  count : k₁.processCount = k₀.processCount + 1
  entered : Entered fops fs locals k₀ prog k₁
  console : k₁.console = k₀.console
  counter : k₁.dirReadCount = k₀.dirReadCount

theorem LiveTable.child (h : LiveTable k₀) (hexec : execute fops fs locals k₀ command = .ok (k₁, .iret eip esp)) :
    ∃ prog, Accepted fs k₀ locals command prog ∧ Child fops fs locals prog k₀ k₁ := by
  have hs := h.startable (.inr h.min)
  have htable := (h.execute (.inr h.min) hexec).1
  obtain ⟨prog, hacc, hentered⟩ := execute_entered hs hexec
  obtain ⟨hconsole, hcounter⟩ := execute_console hs hexec
  have hcount := execute_count hs hexec
  rw [h.turns_eq] at hcount
  exact ⟨prog, hacc, htable, hcount, hentered, hconsole, hcounter⟩

/-- It runs on the terminal of the shell. -/
theorem Child.onTerminal (h : Child fops fs locals prog k₀ k₁) (hlive : LiveTable k₀) (ht : OnTerminal t k₀) :
    OnTerminal t k₁ := by
  have hmin := hlive.min
  simp only [numTerminals] at hmin
  have hcount := h.count
  refine ⟨?_, ?_⟩
  · exact pqPeak_newest h.table.ring h.table.entries (by omega)
  · have hword := h.table.blocks.terminal k₁.processCount (by omega) le_rfl
    rw [if_neg (by simp only [numTerminals]; omega), hcount, Nat.add_sub_cancel] at hword
    have hsame : k₁.mem.load32 (pcbAddr k₀.processCount + 60) = k₀.mem.load32 (pcbAddr k₀.processCount + 60) := by
      refine load32_congr_of_pcb (fun x hx => h.entered.frame x fun p hlow hhigh hp => ?_) (by decide)
      have hmax := h.table.max
      have := hp.owned.unique hx (by omega) (by omega) (by omega) (by omega)
      omega
    rw [Kernel.currentPblock, hcount, hword, hsame]
    exact ht.number

/-- With cleared locals it starts with no more than the two terminal descriptors. -/
theorem Child.canOpen (h : Child fops fs locals prog k₀ k₁) (hclean : ClearedLocal locals.pcb)
    (hcounter : k₀.dirReadCount = 0) : CanOpen fops fs (fun _ => none) 2 k₁ := by
  have hstarted := h.entered.started k₁.processCount h.entered.more le_rfl
  have hclear := hstarted.cleanTable_iff.mpr hclean
  refine ⟨⟨⟨h.table.running, ?_⟩, ?_⟩, by decide, h.counter.trans hcounter⟩
  · refine ⟨fun fd hfd => ?_, fun fd i _ _ ht => ?_, fun fd hlow hhigh _ => ?_⟩
    · obtain ⟨hfop, -, huse⟩ := hclear.terminal fd hfd
      exact ⟨by rw [Kernel.currentPblock, huse], hfop⟩
    · cases ht
    · obtain ⟨huse, hfop, -⟩ := hclear.free fd hlow hhigh
      exact ⟨by rw [Kernel.currentPblock, huse], hfop⟩
  · intro fd s _ _ hs
    cases hs

/-! ### Back in the shell -/

theorem LiveTable.of_own (h : LiveTable k) (hown : OwnChanges k k') : LiveTable k' := by
  have hmax := h.max
  refine ⟨⟨?_, ?_, ?_, ?_, ?_⟩, ?_, ?_, ?_⟩
  · rw [hown.count]
    exact hmax
  · rw [hown.shells, hown.count]
    exact h.shells
  · rw [hown.queue, hown.count]
    exact h.ring
  · rw [hown.queue, hown.count]
    exact h.entries
  · rw [hown.count]
    refine h.blocks.congr fun p hone hle off _ hoff => Mem.load32_congr fun i hi => ?_
    rw [Nat.add_assoc]
    by_cases hp : p = k.processCount
    · rw [hp]
      exact hown.block (off + i) (by omega)
    · refine hown.others _ fun hown' => hp ?_
      have hslot : OwnedBy p (pcbAddr p + (off + i)) := .of_pcb (by simp only [addr8KB]; omega)
      exact hslot.unique hown'.owned hone (by omega) (by omega) (by omega)
  · rw [hown.count]
    exact h.min
  · rw [hown.pd, hown.count]
    exact h.page
  · rw [hown.stack, hown.count]
    exact h.esp0

/-- The kernel stacks in use while the child of process `count` runs: the child's own, and the parent's below the
frame at `ebp`. What the calls store there is not followed. -/
def StackInUse (count ebp x : Nat) : Prop :=
  (pcbAddr (count + 2) ≤ x ∧ x < pcbAddr (count + 1)) ∨ (pcbAddr (count + 1) + pcbSize ≤ x ∧ x < ebp)

/-- The shell finds the kernel as it was when it called `execute`, whose frame is at `ebp`, apart from what was set up
for the child and the kernel stacks in use. -/
structure ShellResumed (k₀ k₂ : Kernel) (ebp : Nat) : Prop where
  table : LiveTable k₂
  count : k₂.processCount = k₀.processCount
  page : k₂.pdUser = k₀.pdUser
  stack : k₂.tssEsp0 = k₀.tssEsp0
  queue : k₂.processQ.live k₂.processCount = k₀.processQ.live k₀.processCount
  mem : ∀ x, ¬ SetUpFor (k₀.processCount + 1) x → ¬ StackInUse k₀.processCount ebp x → k₂.mem x = k₀.mem x
  frame : leaveFrame k₂ ebp = leaveFrame k₀ ebp

/-- What belongs to the shell is neither. -/
theorem ShellResumed.own {k₂ : Kernel} {ebp : Nat} (h : ShellResumed k₀ k₂ ebp) (hlive : LiveTable k₀)
    (hstack : OnKernelStack k₀.processCount ebp) {x : Nat} (hx : OwnedBy k₀.processCount x) : k₂.mem x = k₀.mem x := by
  have hone := hlive.running.one
  have hmax := hlive.max
  have hhigh := hstack.2
  refine h.mem x (fun hx' => ?_) (fun hx' => ?_)
  · simp only [OwnedBy, SetUpFor, frameBase, pcbAddr, pcbSize, addr4MB, addr8MB, addr8KB, maxProcesses] at *
    omega
  · simp only [OwnedBy, StackInUse, frameBase, kernelStack, pcbAddr, pcbSize, addr4MB, addr8MB, addr8KB,
      maxProcesses] at *
    omega

/-- `halt` of a child that changed its own memory only, with the `ebp` that it was started with. -/
theorem Child.returns (h : Child fops fs locals prog k₀ k₁) (hlive : LiveTable k₀) (hown : OwnChanges k₁ k')
    {ebp : Nat} (hstack : OnKernelStack k₀.processCount ebp) (stale : ExecuteLocals) :
    ∃ k₂, halt fops fs stale k' ebp = .ok (k₂, .leave ebp) ∧ ShellResumed k₀ k₂ ebp ∧
      k₂.console = k'.console ∧ k₂.dirReadCount = k'.dirReadCount := by
  have htable := h.table.of_own hown
  have hcount : k'.processCount = k₀.processCount + 1 := hown.count.trans h.count
  have hmin := hlive.min
  have hmax := htable.max
  have hmem : ∀ x, ¬ SetUpFor (k₀.processCount + 1) x → k'.mem x = k₀.mem x := by
    intro x hx
    rw [hown.others x (by rwa [h.count])]
    refine h.entered.frame x fun p hlow hhigh hp => hx ?_
    have hlast : p = k₀.processCount + 1 := by have := h.count; omega
    rwa [← hlast]
  -- the frame of `execute` lies between the child's block and the shell's
  have hword : ∀ off, off + 4 ≤ 8 → k'.mem.load32 (ebp + off) = k₀.mem.load32 (ebp + off) := by
    intro off hoff
    obtain ⟨hlow, hhigh⟩ := hstack
    refine Mem.load32_congr fun i hi => hmem _ fun hx => ?_
    simp only [SetUpFor, frameBase, kernelStack, pcbAddr, pcbSize, addr4MB, addr8MB, addr8KB, maxProcesses] at *
    omega
  have hhalt : halt fops fs stale k' ebp = .ok (afterHalt k', .leave ebp) := htable.halt_eq (by omega) ebp
  have hlast := htable.afterHalt (by omega)
  have hcount' : (afterHalt k').processCount = k₀.processCount := by
    rw [afterHalt, hcount, Nat.add_sub_cancel]
  have hframe : leaveFrame (afterHalt k') ebp = leaveFrame k₀ ebp := by
    rw [hstack.leaveFrame_eq (by omega), hstack.leaveFrame_eq (by omega)]
    exact congrArg₂ (fun eip caller => Except.ok (Return.mk eip (ebp + 8) caller)) (hword 4 (by decide))
      (hword 0 (by decide))
  refine ⟨afterHalt k', hhalt, ⟨hlast, hcount', ?_, ?_, ?_, fun x hx _ => hmem x hx, hframe⟩, rfl, rfl⟩
  · rw [hlast.page, hlive.page, hcount']
  · rw [hlast.esp0, hlive.esp0, hcount']
  · rw [hlast.entries, hlive.entries, hcount']

/-- A text of an executable, at the address that loading gives it. -/
structure TextIn (file : List UInt8) (a : Nat) (text : List UInt8) : Prop where
  low : progBuf ≤ a
  bytes : (file.drop (a - progBuf)).take (text.length + 1) = text ++ [0]
  plain : 0 ∉ text

/-- The byte of a list behind a place. -/
theorem getElem_of_drop_take {file part : List UInt8} {n len : Nat} (h : (file.drop n).take len = part) {i : Nat}
    (hi : i < part.length) : ∃ hlt : n + i < file.length, file[n + i] = part[i] := by
  subst h
  have hi' := hi
  rw [List.length_take, List.length_drop] at hi'
  refine ⟨by omega, ?_⟩
  rw [List.getElem_take, List.getElem_drop]

/-- The running process has the text where the program expects it. -/
theorem TextIn.holds {file : List UInt8} {a : Nat} {text : List UInt8} (h : TextIn file a text) (hrun : Running k)
    (himage : k.mem.readBytes (frameBase k.processCount + progImgOffset) file.length = file)
    (hfit : file.length ≤ imageRoom) : HoldsText k a text := by
  have hlow := h.low
  have hend := getElem_of_drop_take h.bytes (i := text.length)
    (by rw [List.length_append, List.length_singleton]; omega)
  have hbase : k.userPhys a = frameBase k.processCount + progImgOffset + (a - progBuf) := by
    have hpage := hrun.pdeBase_eq
    simp only [Kernel.userPhys, hpage, frameBase, progBuf] at *
    omega
  -- a byte of the text is a byte of the file
  have hbyte : ∀ i (hi : i < (text ++ [0]).length), k.mem (k.userPhys a + i) = (text ++ [0])[i] := by
    intro i hi
    obtain ⟨hlt, hfile⟩ := getElem_of_drop_take h.bytes hi
    have hlt' : a - progBuf + i < (k.mem.readBytes (frameBase k.processCount + progImgOffset) file.length).length := by
      rwa [Mem.length_readBytes]
    have hread : (k.mem.readBytes (frameBase k.processCount + progImgOffset) file.length)[a - progBuf + i] =
        file[a - progBuf + i] := by
      simp only [himage]
    rw [Mem.getElem_readBytes] at hread
    rw [← hfile, ← hread, hbase, Nat.add_assoc]
  refine ⟨?_, ?_, h.plain, fun i hi => ?_, ?_⟩
  · simp only [progBuf] at hlow
    omega
  · obtain ⟨hlt, -⟩ := hend
    simp only [imageRoom, progBuf] at *
    omega
  · rw [hbyte i (by rw [List.length_append]; omega), List.getElem_append_left hi]
  · rw [hbyte text.length (by rw [List.length_append, List.length_singleton]; omega)]
    exact List.getElem_concat_length rfl _

/-- An executable with the texts of `cat`. -/
structure CatFile (image : CatImage) (file : List UInt8) : Prop where
  buffer : UserBuffer image.buf 1024
  noArguments : TextIn file image.noArguments (ascii "could not read arguments\n")
  notFound : TextIn file image.notFound (ascii "file not found\n")
  apart : image.notFound + 15 < image.buf ∨ image.buf + 1024 ≤ image.notFound

/-- An executable with the texts of `ls`. -/
structure LsFile (image : LsImage) (file : List UInt8) : Prop where
  buffer : UserBuffer image.buf sbufSize
  dot : TextIn file image.dot [0x2E]
  openFailed : TextIn file image.openFailed (ascii "directory open failed\n")

/-- The state in which `execute` enters the program in the file of an inode. -/
structure JustStarted (fops : FopsTables) (fs : FileSys) (t : Term) (inode : Nat) (arg : List UInt8) (k : Kernel) :
    Prop where
  canOpen : CanOpen fops fs (fun _ => none) 2 k
  terminal : OnTerminal t k
  argument : HoldsArgument k arg
  fits : (contents fs inode).length ≤ imageRoom
  image : k.mem.readBytes (frameBase k.processCount + progImgOffset) (contents fs inode).length = contents fs inode

theorem JustStarted.text {inode : Nat} {arg : List UInt8} (h : JustStarted fops fs t inode arg k) {a : Nat}
    {text : List UInt8} (htext : TextIn (contents fs inode) a text) : HoldsText k a text :=
  htext.holds h.canOpen.streams.serves.running h.image h.fits

theorem JustStarted.catLoaded {inode : Nat} {arg : List UInt8} (h : JustStarted fops fs t inode arg k)
    {image : CatImage} (hfile : CatFile image (contents fs inode)) : CatLoaded image k :=
  ⟨hfile.buffer, h.text hfile.noArguments, h.text hfile.notFound, hfile.apart⟩

theorem JustStarted.lsLoaded {inode : Nat} {arg : List UInt8} (h : JustStarted fops fs t inode arg k)
    {image : LsImage} (hfile : LsFile image (contents fs inode)) : LsLoaded image k :=
  ⟨hfile.buffer, h.text hfile.dot, h.text hfile.openFailed⟩

theorem Splits.firstWord_eq {name arg : List UInt8} (h : Splits command name arg) : firstWord command = name := by
  have hword : ∀ b ∈ name, decide (b ≠ asciiSpace) = true := by
    intro b hb
    rw [decide_eq_true_eq]
    rintro rfl
    exact h.nameWord hb
  rcases h.shape with rfl | ⟨rfl, -⟩
  · rw [firstWord, List.takeWhile_append_of_pos hword, List.takeWhile_cons_of_neg (by simp), List.append_nil]
  · exact List.takeWhile_eq_self_iff.mpr hword

/-- A command that is accepted runs the file of the entry that its first word names, with its argument. -/
theorem Splits.program (himg : ImageOk fs) {name arg : List UInt8} (h : Splits command name arg)
    (hacc : Accepted fs k₀ locals command prog) {i : Nat} (hfind : findEntry fs name = some i) :
    prog.inode = fs.entryInode i ∧ UnixOs.progArgs prog = arg := by
  obtain ⟨d, hd, hprog⟩ := hacc.found
  have hshort := h.nameShort
  have halias : ¬ Aliased fs name := fun halias => absurd halias.1 (by omega)
  rw [take_progNameLen, h.firstWord_eq, readDentryByName_spec himg.entries h.plain.1 halias, hfind] at hd
  have hentry := Option.some.inj (Except.ok.inj hd)
  rw [hprog]
  refine ⟨?_, h.progArgs _⟩
  rw [← hentry]

/-- The program of a shell's command starts with the argument of the command. -/
theorem Child.justStarted (h : Child fops fs locals prog k₀ k₁) (himg : ImageOk fs) (hshell : InShell t k₀)
    (hclean : ClearedLocal locals.pcb) {name arg : List UInt8} (hsplit : Splits command name arg)
    (hacc : Accepted fs k₀ locals command prog) {i : Nat} (hfind : findEntry fs name = some i) :
    JustStarted fops fs t (fs.entryInode i) arg k₁ := by
  obtain ⟨hinode, hargs⟩ := hsplit.program himg hacc hfind
  have hlast := h.entered.started _ h.entered.more le_rfl
  have hfits := h.entered.fits
  have hholds := h.entered.holdsArgument
  have himage : k₁.mem.readBytes (frameBase k₁.processCount + progImgOffset) (contents fs prog.inode).length =
      contents fs prog.inode := hlast.image
  rw [hinode] at hfits himage
  rw [hargs] at hholds
  exact ⟨h.canOpen hclean hshell.counter, h.onTerminal hshell.table hshell.terminal, hholds,
    by rwa [length_contents], himage⟩

/-- What a command's program did and its call of `halt` left, with the `ebp` that the program was started with. -/
structure Ran (fops : FopsTables) (fs : FileSys) (t : Term) (k₀ : Kernel) (keys : List CallKeys)
    (bytes : List UInt8) (p : Process) (stale : ExecuteLocals) (ebp : Nat) (k₂ : Kernel) : Prop where
  halted : halt fops fs stale p.pressed ebp = .ok (k₂, .leave ebp)
  resumed : ShellResumed k₀ k₂ ebp
  counter : k₂.dirReadCount = 0
  printed : Printed t bytes ⟨k₀, keys⟩ ⟨k₂, p.keys.tail⟩

/-- A program that printed and changed only its own memory returns to the shell. -/
theorem Child.ran (h : Child fops fs locals prog k₀ k₁) (hlive : LiveTable k₀) {keys : List CallKeys} {p : Process}
    {bytes : List UInt8} (hprinted : Printed t bytes ⟨k₁, keys⟩ p) (hown : OwnChanges k₁ p.kernel)
    (hcounter : p.kernel.dirReadCount = 0) {ebp : Nat} (hstack : OnKernelStack k₀.processCount ebp)
    (stale : ExecuteLocals) : ∃ k₂, Ran fops fs t k₀ keys bytes p stale ebp k₂ := by
  have hpressed := onlyConsole_pressed p
  obtain ⟨k₂, hhalt, hresumed, hconsole, hcount⟩ := h.returns hlive (hown.trans hpressed.own) hstack stale
  refine ⟨k₂, hhalt, hresumed, hcount.trans (hpressed.keeps.2.trans hcounter), ?_⟩
  have hhalted : Printed t [] p ⟨k₂, p.keys.tail⟩ := Printed.quiet p hconsole
  obtain ⟨es, hes, hbytes, hreads, hkeys⟩ := hprinted.trans hhalted
  rw [List.append_nil] at hbytes
  refine ⟨es, ?_, hbytes, hreads, hkeys⟩
  rw [hes]
  exact congrArg (es.foldl (programStep t)) h.console

theorem InShell.resumed {k₂ : Kernel} {ebp : Nat} (h : InShell t k₀) (hstack : OnKernelStack k₀.processCount ebp)
    (hres : ShellResumed k₀ k₂ ebp) (hcounter : k₂.dirReadCount = 0) : InShell t k₂ := by
  have hone := h.table.running.one
  have hblock : k₂.currentPblock = k₀.currentPblock := by
    rw [Kernel.currentPblock, Kernel.currentPblock, hres.count]
  refine ⟨hres.table, ⟨?_, ?_⟩, hcounter⟩
  · exact pqPeak_newest hres.table.ring hres.table.entries (by rw [hres.count]; omega)
  · rw [hblock, ← h.terminal.number]
    exact load32_congr_of_pcb (fun x hx => hres.own h.table hstack hx) (by decide)

/-- What the locals of a shell's `execute` hold: cleared descriptors, and a frame on the shell's kernel stack. -/
structure ShellLocals (k : Kernel) (locals : ExecuteLocals) : Prop where
  cleared : ClearedLocal locals.pcb
  onStack : OnKernelStack k.processCount locals.ebp

/-- A shell's `cat` command prints what the directory says of its argument on the shell's terminal, whatever is typed
before its calls and between the bytes that it writes, and its `halt` goes back to the shell, which finds its memory
as it was. -/
theorem cat_command_prints (himg : ImageOk fs) (hshell : InShell t k₀) (hlocals : ShellLocals k₀ locals)
    {name arg : List UInt8} (hsplit : Splits command name arg) {i : Nat} (hfind : findEntry fs name = some i)
    {image : CatImage} (hfile : CatFile image (contents fs (fs.entryInode i)))
    (hexec : execute fops fs locals k₀ command = .ok (k₁, .iret eip esp)) (keys : List CallKeys) (staleInode : Nat)
    {fuel : Nat} (hfuel : (catResult fs arg).1.length < fuel) (stale : ExecuteLocals) :
    ∃ p k₂, cat fops fs image staleInode fuel ⟨k₁, keys⟩ = .ok (some (p, (catResult fs arg).2)) ∧
      Ran fops fs t k₀ keys (catResult fs arg).1 p stale locals.ebp k₂ := by
  obtain ⟨prog, hacc, hchild⟩ := hshell.table.child hexec
  have hstarted := hchild.justStarted himg hshell hlocals.cleared hsplit hacc hfind
  obtain ⟨p, hcat, hprinted, hown, hcounter⟩ := cat_prints (p := ⟨k₁, keys⟩) himg hstarted.canOpen hstarted.terminal
    hstarted.argument hsplit.plain.2 (hstarted.catLoaded hfile) staleInode hfuel
  obtain ⟨k₂, hran⟩ := hchild.ran hshell.table hprinted hown hcounter hlocals.onStack stale
  exact ⟨p, k₂, hcat, hran⟩

/-- A shell's `ls` command prints the names of the directory, one on each line. -/
theorem ls_command_lists (himg : ImageOk fs) (hdot : ∀ i, findEntry fs [0x2E] = some i → fs.entryType i = 1)
    (hshell : InShell t k₀) (hlocals : ShellLocals k₀ locals) {name arg : List UInt8}
    (hsplit : Splits command name arg) {i : Nat} (hfind : findEntry fs name = some i) {image : LsImage}
    (hfile : LsFile image (contents fs (fs.entryInode i)))
    (hexec : execute fops fs locals k₀ command = .ok (k₁, .iret eip esp)) (keys : List CallKeys) (staleInode : Nat)
    {fuel : Nat} (hfuel : (lsResult fs).1.length < fuel) (stale : ExecuteLocals) :
    ∃ p k₂, ls fops fs image staleInode fuel ⟨k₁, keys⟩ = .ok (some (p, (lsResult fs).2)) ∧
      Ran fops fs t k₀ keys (lsResult fs).1 p stale locals.ebp k₂ := by
  obtain ⟨prog, hacc, hchild⟩ := hshell.table.child hexec
  have hstarted := hchild.justStarted himg hshell hlocals.cleared hsplit hacc hfind
  obtain ⟨p, hls, hprinted, hown, hcounter⟩ := ls_prints (p := ⟨k₁, keys⟩) himg hdot hstarted.canOpen
    hstarted.terminal (hstarted.lsLoaded hfile) staleInode hfuel
  obtain ⟨k₂, hran⟩ := hchild.ran hshell.table hprinted hown hcounter hlocals.onStack stale
  exact ⟨p, k₂, hls, hran⟩

/-! ### An image with the programs -/

/-- The header of an executable whose entry point is 0. -/
def elfHeader : List UInt8 := elfMagic ++ List.replicate 24 0

def catBytes : List UInt8 :=
  elfHeader ++ ascii "could not read arguments\n" ++ [0] ++ ascii "file not found\n" ++ [0]

def lsBytes : List UInt8 := elfHeader ++ [0x2E, 0] ++ ascii "directory open failed\n" ++ [0]

def shellBytes : List UInt8 :=
  elfHeader ++ ascii "391OS> " ++ [0] ++ ascii "exit" ++ [0] ++ ascii "no such command\n" ++ [0]

/-- The directory with the entries `.`, `cat`, `ls` and `shell`. -/
def programsFs : FileSys where
  start := 0x40D000
  img :=
    let zero : Mem := fun _ => 0
    let boot := ((zero.store32 0x40D000 4).store32 0x40D004 4).store32 0x40D008 3
    let dot := (boot.writeBytes 0x40D040 [0x2E]).writeBytes 0x40D060 [1]
    let cat := (dot.writeBytes 0x40D080 (ascii "cat")).writeBytes 0x40D0A0 [2, 0, 0, 0, 1]
    let ls := (cat.writeBytes 0x40D0C0 (ascii "ls")).writeBytes 0x40D0E0 [2, 0, 0, 0, 2]
    let shell := (ls.writeBytes 0x40D100 (ascii "shell")).writeBytes 0x40D120 [2, 0, 0, 0, 3]
    let catInode := shell.store32 0x40F000 catBytes.length
    let lsInode := (catInode.store32 0x410000 lsBytes.length).store32 0x410004 1
    let shellInode := (lsInode.store32 0x411000 shellBytes.length).store32 0x411004 2
    ((shellInode.writeBytes 0x412000 catBytes).writeBytes 0x413000 lsBytes).writeBytes 0x414000 shellBytes

theorem imageOk_programsFs : ImageOk programsFs := by
  have hcount : programsFs.info.numDirEntries = 4 := by decide +kernel
  have hall : ∀ i < 4, (programsFs.entryName i).length < fnameLength ∧ programsFs.entryType i ∈ [0, 1, 2] ∧
      programsFs.entryName i ≠ [] ∧ programsFs.fileLength (programsFs.entryInode i) ≤ kb4 * maxDblocksPerFile := by
    decide +kernel
  have hdistinct : ∀ i < 4, ∀ j < 4, programsFs.entryName i = programsFs.entryName j → i = j := by decide +kernel
  refine ⟨⟨by rw [hcount]; decide, fun i hi => ?_, fun i hi => ?_⟩, fun i hi => ?_, ?_, fun i hi _ => ?_⟩
  · exact (hall i (by rwa [hcount] at hi)).1
  · exact (hall i (by rwa [hcount] at hi)).2.1
  · exact (hall i (by rwa [hcount] at hi)).2.2.1
  · rw [hcount]
    exact hdistinct
  · exact (hall i (by rwa [hcount] at hi)).2.2.2

def catImage : CatImage := ⟨0x83FF000, 0x804801C, 0x8048036, 0x8048036⟩

def lsImage : LsImage := ⟨0x83FF000, 0x804801C, 0x804801E, 0x804801E⟩

theorem catFile_programsFs : CatFile catImage (contents programsFs (programsFs.entryInode 1)) where
  buffer := ⟨by decide, .inr (by decide)⟩
  noArguments := ⟨by decide, by decide +kernel, by decide +kernel⟩
  notFound := ⟨by decide, by decide +kernel, by decide +kernel⟩
  apart := .inl (by decide)

theorem lsFile_programsFs : LsFile lsImage (contents programsFs (programsFs.entryInode 2)) where
  buffer := ⟨by decide, .inr (by decide)⟩
  dot := ⟨by decide, by decide +kernel, by decide +kernel⟩
  openFailed := ⟨by decide, by decide +kernel, by decide +kernel⟩

theorem clearedLocal_clearedLocals : ClearedLocal clearedLocals.pcb := by
  have hzero : ∀ a, clearedLocals.pcb.load32 a = 0 := fun a => by simp [clearedLocals, Mem.load32]
  exact fun fd _ _ => ⟨hzero _, hzero _, hzero _⟩

/-- The three shells of boot, with `cat` in their place. -/
theorem inShell_programsFs : ∃ k₀, InShell 0 k₀ ∧ k₀.processCount = 3 ∧ k₀.console = blankConsole := by
  obtain ⟨k₀, eip, esp, hexec⟩ : ∃ k₀ eip esp, execute sampleFops programsFs clearedLocals bootKernel (ascii "cat") =
      .ok (k₀, .iret eip esp) :=
    execute_small startable_bootKernel (by decide) (by decide) rfl
      (show inodeOf (checkCommand programsFs bootKernel clearedLocals (ascii "cat")) = some 1 by decide +kernel)
      (by decide +kernel) (by decide +kernel)
  have htable := (atBoot_bootKernel.processTable.execute (.inl ⟨rfl, rfl⟩) hexec).1
  obtain ⟨hconsole, hcounter⟩ := execute_console startable_bootKernel hexec
  have hcount : k₀.processCount = 3 := execute_count startable_bootKernel hexec
  refine ⟨k₀, ⟨htable, ⟨pqPeak_newest htable.ring htable.entries (by omega), ?_⟩, hcounter⟩, hcount, hconsole⟩
  have hterminal := htable.blocks.terminal 3 (by decide) (by rw [hcount])
  rw [Kernel.currentPblock, hcount]
  exact hterminal

/-- The locals of a shell in the third slot. -/
def sampleLocals : ExecuteLocals where
  __ := clearedLocals
  esp := 0x7F9F80
  ebp := 0x7F9FC0

theorem shellLocals_sampleLocals {k : Kernel} (hcount : k.processCount = 3) : ShellLocals k sampleLocals := by
  refine ⟨clearedLocal_clearedLocals, ?_⟩
  rw [hcount]
  exact ⟨by decide, by decide⟩

theorem stays_key_b : ∀ c ∈ [[0x30]].flatten, c ∉ [f1Key, f2Key, f3Key] := by decide

/-- A key before the first call of a program, and one behind the first byte that the fourth writes. -/
def sampleKeys : List CallKeys := [.typed [0x1E], .quiet, .quiet, ⟨[], [[0x30]], stays_key_b⟩]

theorem cat_command_prints_itself : ∃ k₀ k₁ p k₂, InShell 0 k₀ ∧
    cat sampleFops programsFs catImage 0 71 ⟨k₁, sampleKeys⟩ = .ok (some (p, 0)) ∧
      Ran sampleFops programsFs 0 k₀ sampleKeys catBytes p clearedLocals sampleLocals.ebp k₂ := by
  obtain ⟨k₀, hshell, hcount, -⟩ := inShell_programsFs
  obtain ⟨k₁, eip, esp, hexec⟩ : ∃ k₁ eip esp, execute sampleFops programsFs sampleLocals k₀ (ascii "cat cat") =
      .ok (k₁, .iret eip esp) :=
    execute_small (hshell.table.startable (.inr hshell.table.min)) (by rw [hcount]; decide) (by decide)
      hshell.table.userPresent_eq
      (show inodeOf (checkCommand programsFs (enterFrame bootKernel) sampleLocals (ascii "cat cat")) = some 1 by
        decide +kernel)
      (by decide +kernel) (by decide +kernel)
  have hsplit : Splits (ascii "cat cat") (ascii "cat") (ascii "cat") :=
    ⟨.inl (by decide), by decide, by decide, by decide, by decide, by decide, by decide⟩
  have hresult : catResult programsFs (ascii "cat") = (catBytes, 0) := by decide +kernel
  have hfuel : (catResult programsFs (ascii "cat")).1.length < 71 := by
    rw [hresult]
    decide
  obtain ⟨p, k₂, hcat, hran⟩ := cat_command_prints imageOk_programsFs hshell (shellLocals_sampleLocals hcount) hsplit
    (show findEntry programsFs (ascii "cat") = some 1 by decide +kernel) catFile_programsFs hexec sampleKeys 0 hfuel
    clearedLocals
  rw [hresult] at hcat hran
  exact ⟨k₀, k₁, p, k₂, hshell, hcat, hran⟩

theorem lsResult_programsFs : lsResult programsFs = (ascii ".\ncat\nls\nshell\n", 0) := by decide +kernel

theorem dotType_programsFs : ∀ i, findEntry programsFs [0x2E] = some i → programsFs.entryType i = 1 := by
  have hdot : findEntry programsFs [0x2E] = some 0 := by decide +kernel
  intro i hi
  rw [hdot] at hi
  cases hi
  decide +kernel

theorem ls_command_lists_four : ∃ k₀ k₁ p k₂, InShell 0 k₀ ∧
    ls sampleFops programsFs lsImage 0 16 ⟨k₁, []⟩ = .ok (some (p, 0)) ∧
      Ran sampleFops programsFs 0 k₀ [] (ascii ".\ncat\nls\nshell\n") p clearedLocals sampleLocals.ebp k₂ := by
  obtain ⟨k₀, hshell, hcount, -⟩ := inShell_programsFs
  obtain ⟨k₁, eip, esp, hexec⟩ : ∃ k₁ eip esp, execute sampleFops programsFs sampleLocals k₀ (ascii "ls") =
      .ok (k₁, .iret eip esp) :=
    execute_small (hshell.table.startable (.inr hshell.table.min)) (by rw [hcount]; decide) (by decide)
      hshell.table.userPresent_eq
      (show inodeOf (checkCommand programsFs (enterFrame bootKernel) sampleLocals (ascii "ls")) = some 2 by
        decide +kernel)
      (by decide +kernel) (by decide +kernel)
  have hsplit : Splits (ascii "ls") (ascii "ls") [] :=
    ⟨.inr ⟨rfl, rfl⟩, by decide, by decide, by decide, by decide, by decide, by decide⟩
  have hfuel : (lsResult programsFs).1.length < 16 := by
    rw [lsResult_programsFs]
    decide
  obtain ⟨p, k₂, hls, hran⟩ := ls_command_lists imageOk_programsFs dotType_programsFs hshell
    (shellLocals_sampleLocals hcount) hsplit
    (show findEntry programsFs (ascii "ls") = some 2 by decide +kernel) lsFile_programsFs hexec [] 0 hfuel clearedLocals
  rw [lsResult_programsFs] at hls hran
  exact ⟨k₀, k₁, p, k₂, hshell, hls, hran⟩

end UnixOs
