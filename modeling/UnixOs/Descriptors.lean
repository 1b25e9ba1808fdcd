import UnixOs.KernelState

/-! The system calls on file descriptors: `read`, `write`, `open` and `close` of `syscalls.c`, and the
file, directory, RTC and terminal operations they dispatch to. -/

namespace UnixOs

inductive FopsKind where
  | rtc
  | directory
  | file
  | terminal
  deriving DecidableEq

def FopsTables.addr (fops : FopsTables) : FopsKind → Nat
  | .rtc => fops.rtc
  | .directory => fops.directory
  | .file => fops.file
  | .terminal => fops.terminal

def fopsAt (fops : FopsTables) (ptr : Nat) : Except Fault FopsKind :=
  if ptr = fops.rtc then .ok .rtc
  else if ptr = fops.directory then .ok .directory
  else if ptr = fops.file then .ok .file
  else if ptr = fops.terminal then .ok .terminal
  else .error .wildCall

/-- `check_use`. The index is not checked, and the address wraps as C pointers do. -/
def checkUse (k : Kernel) (fd : Int) : Except Fault Nat :=
  k.fetch32 ((inUseAddr k.currentPblock 0 + 48 * fd) % 2 ^ 32).toNat

/-- The end of `read_file`: the data goes to the buffer and the position is advanced by what was read. -/
def readAtPos (fs : FileSys) (k : Kernel) (fd buf : Nat) (nbytes : Int) (inode : Nat) :
    Except Fault (Kernel × Int) := do
  let posAddr := filePosAddr k.currentPblock fd
  let result := readData fs inode (k.mem.load32 posAddr) (nbytes % 2 ^ 32).toNat
  let k ← k.store buf result.2
  let pos := (k.mem.load32 posAddr + result.1) % 2 ^ 32
  return ({ k with mem := k.mem.store32 posAddr pos.toNat }, result.1)

/-- `read_file`. The result of the lookup is not checked: after a failed one the inode number is what
the uninitialised entry holds. -/
def readFile (fs : FileSys) (k : Kernel) (fd buf : Nat) (nbytes : Int) (staleInode : Nat) :
    Except Fault (Kernel × Int) := do
  let dentry ← readDentryByName fs (k.mem.cstr (fileNameAddr k.currentPblock fd) (2 ^ 32))
  readAtPos fs k fd buf nbytes ((dentry.map Dentry.inode).getD staleInode)

/-- `read_directory`: the next name, however many bytes were asked for. -/
def readDirectory (fs : FileSys) (k : Kernel) (buf : Nat) : Except Fault (Kernel × Int) := do
  match ← readDentryByIndex fs k.dirReadCount with
  | none => return ({ k with dirReadCount := 0 }, 0)
  | some d =>
      let k ← { k with dirReadCount := k.dirReadCount + 1 }.store buf (d.name ++ [0])
      return (k, d.name.length)

def readTerminal (k : Kernel) (buf : Nat) (nbytes : Int) : Except Fault (Kernel × Int) := do
  match termRead k.console nbytes with
  | none => .error .waiting
  | some (console, ret, bytes) =>
      let k ← { k with console := console }.store buf bytes
      return (k, ret)

/-- `rtc_write`: the rate goes to the clock's register, which holds no state of the kernel. -/
def rtcWrite (k : Kernel) (buf : Nat) : Except Fault Int := do
  let freq ← k.fetch32 buf
  return if freq ∈ [1024, 512, 256, 128, 64, 32, 16, 8, 4, 2, 0] then 0 else -1

/-- The call of `term_write`. What it does to the console is a parameter, as interrupts may come between the bytes. -/
def writeTerminal (write : Term → Console → List UInt8 → Console) (k : Kernel) (buf : Nat) (nbytes : Int) :
    Except Fault (Kernel × Int) := do
  let t ← activeTerm k
  let bytes ← k.fetch buf nbytes.toNat
  return ({ k with console := write t k.console bytes }, 0)

/-- The call of `function_read`. The RTC returns at its next tick. -/
def callRead (fs : FileSys) (k : Kernel) (kind : FopsKind) (fd buf : Nat) (nbytes : Int)
    (staleInode : Nat) : Except Fault (Kernel × Int) :=
  match kind with
  | .rtc => .ok (k, 0)
  | .directory => readDirectory fs k buf
  | .file => readFile fs k fd buf nbytes staleInode
  | .terminal => readTerminal k buf nbytes

def callWrite (write : Term → Console → List UInt8 → Console) (k : Kernel) (kind : FopsKind) (buf : Nat)
    (nbytes : Int) : Except Fault (Kernel × Int) :=
  match kind with
  | .rtc => do return (k, ← rtcWrite k buf)
  | .directory => .ok (k, -1)
  | .file => .ok (k, -1)
  | .terminal => writeTerminal write k buf nbytes

def callOpen (k : Kernel) : FopsKind → Kernel
  | .terminal => { k with console := termOpen k.console }
  | _ => k

def callClose (k : Kernel) : FopsKind → Kernel
  | .terminal => { k with console := termClose k.console }
  | _ => k

def sysRead (fops : FopsTables) (fs : FileSys) (k : Kernel) (fd : Int) (buf : Nat) (nbytes : Int)
    (staleInode : Nat) : Except Fault (Kernel × Int) := do
  if 0 ≤ fd ∧ fd < opsSize ∧ buf ≠ 0 then
    let use ← checkUse k fd
    if use % 2 ≠ 0 ∧ fd ≠ 1 then
      let kind ← fopsAt fops (k.mem.load32 (fopPtrAddr k.currentPblock fd.toNat))
      callRead fs k kind fd.toNat buf nbytes staleInode
    else return (k, -1)
  else return (k, -1)

def sysWriteWith (write : Term → Console → List UInt8 → Console) (fops : FopsTables) (k : Kernel) (fd : Int)
    (buf : Nat) (nbytes : Int) : Except Fault (Kernel × Int) := do
  if 0 ≤ fd ∧ fd < opsSize ∧ buf ≠ 0 then
    let use ← checkUse k fd
    if use % 2 ≠ 0 ∧ fd ≠ 0 then
      let kind ← fopsAt fops (k.mem.load32 (fopPtrAddr k.currentPblock fd.toNat))
      callWrite write k kind buf nbytes
    else return (k, -1)
  else return (k, -1)

/-- Without interrupts between the bytes. -/
def sysWrite (fops : FopsTables) (k : Kernel) (fd : Int) (buf : Nat) (nbytes : Int) : Except Fault (Kernel × Int) :=
  sysWriteWith termWrite fops k fd buf nbytes

/-- The search loop of `open`: the first of the `n` descriptors from `location` on that is not in use. -/
def freeFrom (k : Kernel) : Nat → Nat → Except Fault (Option Nat)
  | 0, _ => .ok none
  | n + 1, location => do
      let use ← checkUse k location
      if use % 2 = 0 then return some location else freeFrom k n (location + 1)

/-- The fields of a descriptor that `open` sets before it looks at the file type. -/
def openFields (m : Mem) (pcb location : Nat) (filename : List UInt8) : Mem :=
  let m := m.store32 (inodeAddr pcb location) 0
  let m := m.writeBytes (fileNameAddr pcb location) (filename ++ [0])
  let m := m.store32 (filePosAddr pcb location) 0
  m.store32 (inUseAddr pcb location) 1

def openSwitch (fops : FopsTables) (fs : FileSys) (m : Mem) (pcb location : Nat) (d : Dentry) : Mem :=
  if d.type = 0 then m.store32 (fopPtrAddr pcb location) fops.rtc
  else if d.type = 1 then m.store32 (fopPtrAddr pcb location) fops.directory
  else if d.type = 2 then
    (m.store32 (fopPtrAddr pcb location) fops.file).store32 (inodeAddr pcb location)
      ((inodeAddress fs d.inode).getD 0)
  else m

/-- The call of `function_open` on the descriptor that was set up. -/
def finishOpen (fops : FopsTables) (k : Kernel) (location : Nat) : Except Fault (Kernel × Int) := do
  let kind ← fopsAt fops (k.mem.load32 (fopPtrAddr k.currentPblock location))
  return (callOpen k kind, location)

/-- `open` of a name that is not NULL. -/
def sysOpen (fops : FopsTables) (fs : FileSys) (k : Kernel) (filename : List UInt8) :
    Except Fault (Kernel × Int) := do
  match ← freeFrom k opsSize 0 with
  | none => return (k, -1)
  | some location =>
      match ← readDentryByName fs filename with
      | none => return (k, -1)
      | some d =>
          let m := openFields k.mem k.currentPblock location filename
          finishOpen fops { k with mem := openSwitch fops fs m k.currentPblock location d } location

def closeFields (m : Mem) (pcb fd : Nat) : Mem :=
  let m := m.store32 (fopPtrAddr pcb fd) 0
  let m := m.store32 (inodeAddr pcb fd) 0
  let m := m.store32 (filePosAddr pcb fd) 0
  m.store32 (inUseAddr pcb fd) 0

def sysClose (fops : FopsTables) (k : Kernel) (fd : Int) : Except Fault (Kernel × Int) := do
  let use ← checkUse k fd
  if use % 2 = 0 then return (k, -1)
  else if fd ≤ 1 ∨ fd ≥ opsSize then return (k, -1)
  else
    let fopPtr := k.mem.load32 (fopPtrAddr k.currentPblock fd.toNat)
    if fopPtr ≠ 0 then
      let kind ← fopsAt fops fopPtr
      let k := callClose k kind
      return ({ k with mem := closeFields k.mem k.currentPblock fd.toNat }, 0)
    else return (k, -1)

end UnixOs
