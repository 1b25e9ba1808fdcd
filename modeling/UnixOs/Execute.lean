import UnixOs.Descriptors

/-! `execute` and `halt` of `syscalls.c`. `execute` checks the command and the file, and then starts one
process, or three when the terminals have no shell yet; it does not return to its caller but enters the
new program. What its uninitialised locals hold is a parameter, and so is the `ebp` that `halt` is called with. -/

namespace UnixOs

def asciiSpace : UInt8 := 0x20

def progImgOffset : Nat := 0x48000

/-- `ADDR_128MB + PROG_IMG_OFFSET` -/
def progBuf : Nat := addr128MB + progImgOffset

def ascii (text : String) : List UInt8 := text.toList.map fun c => UInt8.ofNat c.toNat

def printf (k : Kernel) (text : List UInt8) : Kernel := { k with console := text.foldl putc k.console }

/-- What `exe_buff` and `pcb` hold before they are set, and the registers that `execute` saves. -/
structure ExecuteLocals where
  exeBuff : Nat → UInt8
  pcb : Mem
  esp : Nat
  ebp : Nat

structure Program where
  command : List UInt8
  spaces : List Nat
  inode : Nat

/-- `char_space_indices`, as far as it is set. -/
def charSpaceIndices (command : List UInt8) : List Nat :=
  (List.range command.length).filter fun i => command.getD i 0 = asciiSpace

/-- `exe_buff` after the first bytes of a file were read into it. -/
def exeHeader (stale : Nat → UInt8) (bytes : List UInt8) : List UInt8 :=
  (List.range 4).map fun i => bytes.getD i (stale i)

def elfMagic : List UInt8 := [0x7F, 0x45, 0x4C, 0x46]

/-- The result of the checks: a program, or the text that is printed before -1 is returned. -/
inductive Check where
  | pass (prog : Program)
  | fail (text : List UInt8)

/-- Whether `read_data` of `length` bytes from the start of a file touches mapped memory only: the length in the
inode and, for each block that it copies from, its number and the bytes. -/
def readMapped (userPresent : Bool) (fs : FileSys) (inode length : Nat) : Bool :=
  let total := min length (fs.fileLength inode)
  rangeMapped userPresent (fs.inodePtr inode) 4 &&
    (decide (fs.fileLength inode > kb4 * maxDblocksPerFile) ||
      (List.range ((total + kb4 - 1) / kb4)).all fun check =>
        rangeMapped userPresent (fs.inodePtr inode + 4 + 4 * check) 4 &&
          rangeMapped userPresent (fs.blockPtr inode check) (min kb4 (total - kb4 * check)))

/-- `read_data` from the start of a file. Inode and block numbers are not checked, so it can run into memory that is
not mapped. -/
def readStart (k : Kernel) (fs : FileSys) (inode length : Nat) : Except Fault (Int × List UInt8) :=
  if readMapped k.userPresent fs inode length then .ok (readData fs inode 0 length) else .error .pageFault

/-- Step 2: the first four bytes of the file. The number of bytes read is not looked at. -/
def checkHeader (fs : FileSys) (k : Kernel) (locals : ExecuteLocals) (name : List UInt8) (prog : Program) :
    Except Fault Check := do
  let header ← readStart k fs prog.inode 4
  if header.1 = -1 then return .fail []
  else if exeHeader locals.exeBuff header.2 = elfMagic then return .pass prog
  else return .fail (ascii "ERROR.  " ++ name ++ ascii " is not an executable file.\n")

/-- The end of step 1: the name before the first space. Its array has `FNAME_LENGTH + 1` bytes. The type of
the entry is not looked at. -/
def checkName (fs : FileSys) (k : Kernel) (locals : ExecuteLocals) (command : List UInt8) (spaces : List Nat) :
    Except Fault Check := do
  let progNameLen := spaces.headD command.length
  if progNameLen = 0 then return .fail []
  else if spaces.length > 1 then
    return .fail (ascii "ERROR: Command contains too many spaces and/or too many arguments.\n")
  else if progNameLen > fnameLength then .error .overrun
  else
    match ← readDentryByName fs (command.take progNameLen) with
    | none => return .fail []
    | some d => checkHeader fs k locals (command.take progNameLen) ⟨command, spaces, d.inode⟩

/-- Everything up to the page directory. `command` has 128 bytes and `char_space_indices` 100. -/
def checkCommand (fs : FileSys) (k : Kernel) (locals : ExecuteLocals) (command : List UInt8) :
    Except Fault Check := do
  if k.processCount ≥ maxProcesses then
    return .fail (ascii "Command refused.  Attempting to exceed max processes.\n")
  else if strncmp (str command) (str []) 2 = 0 then return .fail []
  else if command.length + 1 > 128 then .error .overrun
  else if (charSpaceIndices command).length > 100 then .error .overrun
  else checkName fs k locals command (charSpaceIndices command)

def argsInitialize (prog : Program) (pcb : Mem) : Mem :=
  match prog.spaces with
  | [] => (pcb.store32 448 1).writeBytes 452 [0]
  | first :: _ =>
      let args := prog.command.drop (first + 1)
      ((pcb.writeBytes 452 args).store32 448 (args.length + 1)).writeBytes (452 + args.length) [0]

def parentPtr (k : Kernel) : Nat := if k.primaryShellCount ≥ numTerminals then pqPeak k.processQ else 0

def terminalNum (k : Kernel) (parent : Nat) : Except Fault Nat :=
  if parent = 0 then .ok ((numTerminals - k.primaryShellCount - 1) % 2 ^ 32).toNat
  else k.fetch32 (parent + 60)

/-- The words of a new control block, in the order they are set. `init_fd` works on a copy. -/
def pcbWords (fops : FopsTables) (locals : ExecuteLocals) (parent terminal eip pid : Nat) : List (Nat × Nat) :=
  [(56, parent), (60, terminal), (0, eip), (52, pid), (44, addr128MB + addr4MB - 4), (4, locals.esp),
    (8, locals.ebp), (fdeOffset 0, fops.terminal), (fdeOffset 0 + 4, 0), (fdeOffset 0 + 40, 0),
    (fdeOffset 0 + 44, 1), (fdeOffset 1, fops.terminal), (fdeOffset 1 + 4, 0), (fdeOffset 1 + 40, 0),
    (fdeOffset 1 + 44, 1)]

def enterFrame (k : Kernel) : Kernel :=
  { k with
    processCount := k.processCount + 1
    pdUser := init4mbUserPde (addr4MB + (k.processCount + 1) * addr4MB) }

def enqueuePcb (k : Kernel) (pcb : Mem) : Kernel :=
  { k with
    mem := k.mem.writeBytes (pcbAddr k.processCount) (pcb.readBytes 0 pcbSize)
    processQ := (pqEnqueueFront k.processQ (pcbAddr k.processCount)).1
    primaryShellCount := if k.primaryShellCount < numTerminals then k.primaryShellCount + 1
      else k.primaryShellCount }

/-- One turn of the loop: paging, loading, and the control block. The local `pcb` keeps its contents from
turn to turn. -/
def startProcess (fops : FopsTables) (fs : FileSys) (locals : ExecuteLocals) (prog : Program) (k : Kernel)
    (pcb : Mem) : Except Fault (Kernel × Mem) := do
  let file ← readStart (enterFrame k) fs prog.inode (fs.fileLength prog.inode)
  let k ← (enterFrame k).store progBuf file.2
  let parent := parentPtr k
  let terminal ← terminalNum k parent
  let eip ← k.fetch32 (progBuf + 24)
  let pcb := (argsInitialize prog pcb).storeWords (pcbWords fops locals parent terminal eip k.processCount)
  return (enqueuePcb k pcb, pcb)

/-- `do ... while (primary_shell_count < NUM_TERMINALS)`, with the number of further turns. -/
def startLoop (fops : FopsTables) (fs : FileSys) (locals : ExecuteLocals) (prog : Program) :
    Nat → Kernel → Mem → Except Fault (Kernel × Mem)
  | 0, k, pcb => startProcess fops fs locals prog k pcb
  | n + 1, k, pcb => do
      let (k, pcb) ← startProcess fops fs locals prog k pcb
      if k.primaryShellCount < numTerminals then startLoop fops fs locals prog n k pcb else return (k, pcb)

/-- How `execute` ends: it returns -1, or enters user mode. -/
inductive ExecuteEnd where
  | fail
  | iret (eip esp : Nat)

/-- `tss.esp0` for the process of the current count. -/
def kernelStack (count : Nat) : Nat := addr8MB - count * addr8KB - 4

def execute (fops : FopsTables) (fs : FileSys) (locals : ExecuteLocals) (k : Kernel) (command : List UInt8) :
    Except Fault (Kernel × ExecuteEnd) := do
  match ← checkCommand fs k locals command with
  | .fail text => return (printf k text, .fail)
  | .pass prog =>
      let (k, pcb) ← startLoop fops fs locals prog (numTerminals - k.primaryShellCount - 1).toNat k locals.pcb
      return ({ k with tssEsp0 := kernelStack k.processCount }, .iret (pcb.load32 0) (pcb.load32 44))

/-- How `halt` ends: a new shell is entered, or control goes back through the frame at an address. -/
inductive HaltEnd where
  | iret (eip esp : Nat)
  | leave (ebp : Nat)

/-- Where a frame leads: the return address, the stack pointer behind it, and the caller's `ebp`. -/
structure Return where
  eip : Nat
  esp : Nat
  ebp : Nat
  deriving DecidableEq

/-- `leave` and `ret` through the frame at `ebp`. -/
def leaveFrame (k : Kernel) (ebp : Nat) : Except Fault Return := do
  let caller ← k.fetch32 ebp
  let eip ← k.fetch32 (ebp + 4)
  return ⟨eip, ebp + 8, caller⟩

/-- The part of `halt` behind the test for the last process. The parent's `esp` and `ebp` are pushed, and `leave` drops
them: it pops the `ebp` that `halt` was called with, and the `leave` of the function's end goes through that. -/
def haltToParent (k : Kernel) (ebp : Nat) : Except Fault (Kernel × HaltEnd) := do
  let processQ := if k.processCount > 1 then (pqDequeue k.processQ).1 else k.processQ
  let parent ← k.fetch32 (k.currentPblock + 56)
  let _ ← k.fetch32 (parent + 4)
  let _ ← k.fetch32 (parent + 8)
  let count := k.processCount - 1
  return ({ k with
    processQ := processQ
    pdUser := init4mbUserPde (addr4MB + count * addr4MB)
    processCount := count
    tssEsp0 := kernelStack count }, .leave ebp)

/-- `halt`, called with `ebp`. When the last process halts, `execute` is tried first and what follows is reached only
if it returns. -/
def halt (fops : FopsTables) (fs : FileSys) (locals : ExecuteLocals) (k : Kernel) (ebp : Nat) :
    Except Fault (Kernel × HaltEnd) := do
  if k.processCount ≤ 1 then
    let k := printf k (ascii "Command refused.  Cannot exit last remaining process.\n")
    let k := { k with processCount := 0, processQ := pqInit }
    match ← execute fops fs locals k (ascii "shell") with
    | (k, .iret eip esp) => return (k, .iret eip esp)
    | (k, .fail) => haltToParent k ebp
  else haltToParent k ebp

end UnixOs
