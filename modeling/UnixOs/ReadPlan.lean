import UnixOs.DirectoryListing

/-! Every `read` has one shape: it settles what to store without looking at the buffer, stores it from
the start of the buffer on, and then at most advances a file position. -/

namespace UnixOs

variable {fops : FopsTables} {fs : FileSys} {k k' : Kernel}

/-- What a `read` is about to do: the kernel when the store is made, the bytes for the buffer, the return
value, and what happens to the kernel behind the store. -/
structure ReadPlan where
  before : Kernel
  out : List UInt8
  ret : Int
  finish : Kernel → Kernel

/-- A `read` that stores nothing. -/
def emptyPlan (k : Kernel) (ret : Int) : ReadPlan := ⟨k, [], ret, id⟩

/-- The advance of a file position by what was read. -/
def advancePos (pcb fd : Nat) (ret : Int) (k : Kernel) : Kernel :=
  { k with mem := k.mem.store32 (filePosAddr pcb fd) ((k.mem.load32 (filePosAddr pcb fd) + ret) % 2 ^ 32).toNat }

/-- The result of `read_data` for a descriptor. -/
def dataPlan (k : Kernel) (fd : Nat) (result : Int × List UInt8) : ReadPlan :=
  ⟨k, result.2, result.1, advancePos k.currentPblock fd result.1⟩

def filePlan (fs : FileSys) (k : Kernel) (fd : Nat) (nbytes : Int) (inode : Nat) : ReadPlan :=
  dataPlan k fd (readData fs inode (k.mem.load32 (filePosAddr k.currentPblock fd)) (nbytes % 2 ^ 32).toNat)

def callPlan (fs : FileSys) (k : Kernel) (kind : FopsKind) (fd : Nat) (nbytes : Int) (staleInode : Nat) :
    Except Fault ReadPlan :=
  match kind with
  | .rtc => .ok (emptyPlan k 0)
  | .directory => do
      match ← readDentryByIndex fs k.dirReadCount with
      | none => return emptyPlan { k with dirReadCount := 0 } 0
      | some d => return ⟨{ k with dirReadCount := k.dirReadCount + 1 }, d.name ++ [0], d.name.length, id⟩
  | .file => do
      let dentry ← readDentryByName fs (k.mem.cstr (fileNameAddr k.currentPblock fd) (2 ^ 32))
      return filePlan fs k fd nbytes ((dentry.map Dentry.inode).getD staleInode)
  | .terminal =>
      match termRead k.console nbytes with
      | none => .error .waiting
      | some (console, ret, bytes) => .ok ⟨{ k with console := console }, bytes, ret, id⟩

def readPlan (fops : FopsTables) (fs : FileSys) (k : Kernel) (fd : Int) (buf : Nat) (nbytes : Int)
    (staleInode : Nat) : Except Fault ReadPlan := do
  if 0 ≤ fd ∧ fd < opsSize ∧ buf ≠ 0 then
    let use ← checkUse k fd
    if use % 2 ≠ 0 ∧ fd ≠ 1 then
      let kind ← fopsAt fops (k.mem.load32 (fopPtrAddr k.currentPblock fd.toNat))
      callPlan fs k kind fd.toNat nbytes staleInode
    else return emptyPlan k (-1)
  else return emptyPlan k (-1)

/-- The store of a plan's bytes and what comes behind it. -/
def ReadPlan.run (p : ReadPlan) (buf : Nat) : Except Fault (Kernel × Int) := do
  let k ← p.before.store buf p.out
  return (p.finish k, p.ret)

theorem run_emptyPlan (k : Kernel) (ret : Int) (buf : Nat) : (emptyPlan k ret).run buf = .ok (k, ret) := rfl

theorem out_dataPlan (k : Kernel) (fd : Nat) (result : Int × List UInt8) : (dataPlan k fd result).out = result.2 := rfl

theorem run_dataPlan (k : Kernel) (fd buf : Nat) (result : Int × List UInt8) :
    (dataPlan k fd result).run buf = k.store buf result.2 >>= fun k1 =>
      .ok (advancePos k.currentPblock fd result.1 k1, result.1) := rfl

theorem run_filePlan (fs : FileSys) (k : Kernel) (fd buf : Nat) (nbytes : Int) (inode : Nat) :
    (filePlan fs k fd nbytes inode).run buf = readAtPos fs k fd buf nbytes inode := by
  rw [filePlan, readAtPos]
  generalize readData fs inode (k.mem.load32 (filePosAddr k.currentPblock fd)) (nbytes % 2 ^ 32).toNat = result
  rw [run_dataPlan]
  refine bind_congr fun k1 => ?_
  rw [advancePos, pure_eq_ok]

theorem callRead_eq_run (fs : FileSys) (k : Kernel) (kind : FopsKind) (fd buf : Nat) (nbytes : Int)
    (staleInode : Nat) : callRead fs k kind fd buf nbytes staleInode =
      callPlan fs k kind fd nbytes staleInode >>= fun p => p.run buf := by
  cases kind with
  | rtc => rfl
  | directory =>
      rw [callRead, callPlan, readDirectory, bind_assoc]
      refine bind_congr fun d => ?_
      cases d <;> rfl
  | file =>
      rw [callRead, callPlan, readFile, bind_assoc]
      refine bind_congr fun d => ?_
      rw [pure_eq_ok, ok_bind, run_filePlan]
  | terminal =>
      rw [callRead, callPlan, readTerminal]
      cases termRead k.console nbytes with
      | none => rfl
      | some r => rfl

theorem callPlan_found {fd staleInode : Nat} {nbytes : Int} {d : Dentry}
    (h : readDentryByName fs (k.mem.cstr (fileNameAddr k.currentPblock fd) (2 ^ 32)) = .ok (some d)) :
    callPlan fs k .file fd nbytes staleInode = .ok (filePlan fs k fd nbytes d.inode) := by
  rw [callPlan, h, ok_bind, pure_eq_ok, Option.map_some, Option.getD_some]

/-- `read` is its plan, carried out. -/
theorem sysRead_eq_run (fops : FopsTables) (fs : FileSys) (k : Kernel) (fd : Int) (buf : Nat) (nbytes : Int)
    (staleInode : Nat) : sysRead fops fs k fd buf nbytes staleInode =
      readPlan fops fs k fd buf nbytes staleInode >>= fun p => p.run buf := by
  rw [sysRead, readPlan]
  split_ifs
  · rw [bind_assoc]
    refine bind_congr fun use => ?_
    split_ifs
    · rw [bind_assoc]
      refine bind_congr fun kind => ?_
      exact callRead_eq_run fs k kind fd.toNat buf nbytes staleInode
    · rfl
  · rfl

end UnixOs
