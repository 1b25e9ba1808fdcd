import UnixOs.CommandRun

/-! The shell. A turn of its loop prints the prompt, takes the line that was typed and executes it; a session is a
run of such turns with the commands that they start. -/

namespace UnixOs

variable {fops : FopsTables} {fs : FileSys} {k k' : Kernel} {t : Term}

/-- `ece391_strcmp`, of strings as the bytes before their terminators; the bytes are unsigned. -/
def ece391Strcmp : List UInt8 → List UInt8 → Int
  | [], [] => 0
  | [], b :: _ => -(b.toNat : Int)
  | a :: _, [] => a.toNat
  | a :: as, b :: bs => if a = b then ece391Strcmp as bs else (a.toNat : Int) - b.toNat

/-- Where the buffer of the shell and its texts are. -/
structure ShellImage where
  buf : Nat
  prompt : Nat
  readFailed : Nat
  exit : Nat
  noCommand : Nat
  exception : Nat
  abnormal : Nat

/-- What a line comes to: `main` returns, the loop goes on, or a command is executed. -/
inductive LineCase where
  | leave (ret : Int)
  | again
  | execute (command : List UInt8)
  deriving DecidableEq

def shellCase (line exit : List UInt8) : LineCase :=
  if ece391Strcmp line exit = 0 then .leave 0
  else if str line 0 = 0 then .again
  else .execute line

/-- `BUFSIZE` -/
def shellBufSize : Nat := 1024

/-- The loop of `main` of `ece391shell.c` up to the call of `ece391_execute`. -/
def readCommand (fops : FopsTables) (fs : FileSys) (image : ShellImage) (staleInode : Nat) (p : Process) :
    Except Fault (Process × LineCase) := do
  let p ← ece391Fdputs fops p 1 image.prompt
  let (p, cnt) ← p.call fun k => sysRead fops fs k 0 image.buf (shellBufSize - 1 : Nat) staleInode
  if cnt = -1 then
    let p ← ece391Fdputs fops p 1 image.readFailed
    return (p, .leave 3)
  else
    let last ← if cnt > 0 then p.kernel.fetch (image.buf + cnt - 1).toNat 1 else .ok []
    let cnt := if last = [0x0A] then cnt - 1 else cnt
    let k ← p.kernel.store (image.buf + cnt).toNat [0]
    return (⟨k, p.keys⟩, shellCase (k.userString image.buf) (k.userString image.exit))

/-- What the program in the file of an inode does from the `ebp` that it is entered with up to its `halt`, the status
that it gives and the `ebp` that it halts with. -/
abbrev UserProgram := Nat → Nat → Process → Except Fault (Option (Process × Int × Nat))

/-- `_start` of `ece391syscall.S`, which halts when `main` has returned; `main` keeps the `ebp`. -/
def cProgram (main : Process → Except Fault (Option (Process × Int))) (ebp : Nat) (p : Process) :
    Except Fault (Option (Process × Int × Nat)) := do
  match ← main p with
  | none => return none
  | some (p, status) => return some (p, status, ebp)

/-- `ece391_execute` of a string, with the programs as a parameter. The shell goes on when the `halt` of the program
leads to where the frame of this `execute` leads; the value is 0 then, and the status is lost. Otherwise the call does
not return: a new shell was entered, or `halt` left through some other frame. -/
def ece391Execute (fops : FopsTables) (fs : FileSys) (programs : UserProgram) (locals : ExecuteLocals) (p : Process)
    (command : List UInt8) : Except Fault (Option (Process × Int)) := do
  let check ← checkCommand fs p.pressed locals command
  let (k, ret) ← execute fops fs locals p.pressed command
  match check, ret with
  | .pass prog, .iret _ _ =>
      match ← programs prog.inode locals.ebp ⟨k, p.keys.tail⟩ with
      | none => return none
      | some (child, _, ebp) =>
          match ← halt fops fs locals child.pressed ebp with
          | (_, .iret _ _) => return none
          | (k, .leave ebp) =>
              let own ← leaveFrame p.pressed locals.ebp
              let back ← leaveFrame k ebp
              if back = own then return some (⟨k, child.keys.tail⟩, 0) else return none
  | _, _ => return some (⟨k, p.keys.tail⟩, -1)

/-- The rest of the loop, for the value that `ece391_execute` returned. -/
def shellReport (fops : FopsTables) (image : ShellImage) (rval : Int) (p : Process) : Except Fault Process :=
  if rval = -1 then ece391Fdputs fops p 1 image.noCommand
  else if rval = 256 then ece391Fdputs fops p 1 image.exception
  else if rval ≠ 0 then ece391Fdputs fops p 1 image.abnormal
  else .ok p

/-- One turn of the loop, with the status when it is the last. -/
def shellTurn (fops : FopsTables) (fs : FileSys) (programs : UserProgram) (image : ShellImage) (locals : ExecuteLocals)
    (staleInode : Nat) (p : Process) : Except Fault (Option (Process × Option Int)) := do
  match ← readCommand fops fs image staleInode p with
  | (p, .leave ret) => return some (p, some ret)
  | (p, .again) => return some (p, none)
  | (p, .execute command) =>
      match ← ece391Execute fops fs programs locals p command with
      | none => return none
      | some (p, rval) =>
          let p ← shellReport fops image rval p
          return some (p, none)

theorem ece391Strcmp_eq_zero_iff {xs ys : List UInt8} (hx : 0 ∉ xs) (hy : 0 ∉ ys) :
    ece391Strcmp xs ys = 0 ↔ xs = ys := by
  have hpos : ∀ b : UInt8, b ≠ 0 → 0 < b.toNat := fun b hb => by
    rw [Nat.pos_iff_ne_zero]
    exact fun hzero => hb (UInt8.toNat_inj.mp hzero)
  induction xs generalizing ys with
  | nil =>
      cases ys with
      | nil => simp [ece391Strcmp]
      | cons b bs =>
          have := hpos b fun hb => hy (hb ▸ List.mem_cons_self)
          simp only [ece391Strcmp, reduceCtorEq, iff_false]
          omega
  | cons a as ih =>
      cases ys with
      | nil =>
          have := hpos a fun ha => hx (ha ▸ List.mem_cons_self)
          simp only [ece391Strcmp, reduceCtorEq, iff_false]
          omega
      | cons b bs =>
          rw [ece391Strcmp, List.cons.injEq]
          split_ifs with hab
          · have hrest := ih (fun h => hx (List.mem_cons_of_mem _ h)) fun h => hy (List.mem_cons_of_mem _ h)
            exact ⟨fun h => ⟨hab, hrest.mp h⟩, fun h => hrest.mpr h.2⟩
          · have hne : a.toNat ≠ b.toNat := fun h => hab (UInt8.toNat_inj.mp h)
            refine ⟨fun h => absurd ?_ hne, fun h => absurd h.1 hab⟩
            omega

def lineCase (line : List UInt8) : LineCase :=
  if line = ascii "exit" then .leave 0 else if line = [] then .again else .execute line

theorem shellCase_eq {line : List UInt8} (hplain : 0 ∉ line) : shellCase line (ascii "exit") = lineCase line := by
  have hexit := ece391Strcmp_eq_zero_iff hplain (show 0 ∉ ascii "exit" by decide)
  by_cases h : line = ascii "exit"
  · rw [shellCase, lineCase, if_pos (hexit.mpr h), if_pos h]
  · rw [shellCase, lineCase, if_neg fun hzero => h (hexit.mp hzero), if_neg h]
    cases line with
    | nil => rfl
    | cons b bs =>
        have hb : str (b :: bs) 0 ≠ 0 := fun hb => hplain (by rw [← hb]; exact List.mem_cons_self)
        rw [if_neg hb, if_neg (by simp)]

/-! ### The shell between its turns -/

/-- The shell's image in its page: the buffer, and the texts that it does not reach. -/
structure ShellLoaded (image : ShellImage) (k : Kernel) : Prop where
  buffer : UserBuffer image.buf shellBufSize
  prompt : HoldsText k image.prompt (ascii "391OS> ")
  exit : HoldsText k image.exit (ascii "exit")
  noCommand : HoldsText k image.noCommand (ascii "no such command\n")
  apart : ∀ a ∈ [image.prompt, image.exit, image.noCommand], a + 16 < image.buf ∨ image.buf + shellBufSize ≤ a

/-- A shell at the start of its loop, on terminal `t`. -/
structure AtPrompt (fops : FopsTables) (fs : FileSys) (image : ShellImage) (t : Term) (k : Kernel) : Prop
    extends InShell t k where
  serves : ∃ table, Serves fops fs table k
  loaded : ShellLoaded image k
  room : k.processCount < maxProcesses

theorem ShellLoaded.of_user {image : ShellImage} (h : ShellLoaded image k) (hphys : ∀ a, k'.userPhys a = k.userPhys a)
    (hmem : ∀ a i, addr128MB ≤ a → a + i < addr128MB + addr4MB → a + i < image.buf ∨ image.buf + shellBufSize ≤ a + i →
      k'.mem (k.userPhys a + i) = k.mem (k.userPhys a + i)) : ShellLoaded image k' := by
  have htext : ∀ {a : Nat} {text : List UInt8}, HoldsText k a text → text.length ≤ 16 →
      (a + 16 < image.buf ∨ image.buf + shellBufSize ≤ a) → HoldsText k' a text := by
    intro a text htext hlen hapart
    have hhigh := htext.high
    refine htext.of_user (hphys a) fun i hi => hmem a i htext.low (by omega) ?_
    rcases hapart with h | h
    · exact .inl (by omega)
    · exact .inr (by omega)
  exact ⟨h.buffer, htext h.prompt (by decide) (h.apart _ (by simp)), htext h.exit (by decide) (h.apart _ (by simp)),
    htext h.noCommand (by decide) (h.apart _ (by simp)), h.apart⟩

theorem AtPrompt.onlyConsole {image : ShellImage} (h : AtPrompt fops fs image t k) (hsame : OnlyConsole k k') :
    AtPrompt fops fs image t k' := by
  obtain ⟨table, hserves⟩ := h.serves
  have hmem := hsame.mem_eq
  refine ⟨⟨h.table.onlyConsole hsame, hsame.onTerminal h.terminal, hsame.keeps.2.trans h.counter⟩,
    ⟨table, hsame.serves hserves⟩, h.loaded.of_user (fun a => congrFun hmem.2 a) fun a i _ _ _ => ?_,
    by rw [hsame.own.count]; exact h.room⟩
  rw [hmem.1]

theorem AtPrompt.stored {image : ShellImage} (h : AtPrompt fops fs image t k) (hdir : DirectoryOk fs) {off : Nat}
    {bs : List UInt8} (hfit : off + bs.length ≤ shellBufSize) :
    AtPrompt fops fs image t (withMem k (k.mem.writeBytes (k.userPhys (image.buf + off)) bs)) ∧
      k.store (image.buf + off) bs = .ok (withMem k (k.mem.writeBytes (k.userPhys (image.buf + off)) bs)) := by
  obtain ⟨table, hserves⟩ := h.serves
  have hbuf := h.loaded.buffer
  have hlow := hbuf.low
  have hhigh : image.buf + shellBufSize ≤ addr128MB + addr4MB := by
    rcases hbuf.high with hzero | hhigh
    · cases hzero
    · exact hhigh
  have hroom : UserBuffer (image.buf + off) bs.length := ⟨by omega, .inr (by omega)⟩
  have hown := ownChanges_user hserves.running hroom
  have hkeeps : KeepsKernelPage k (withMem k (k.mem.writeBytes (k.userPhys (image.buf + off)) bs)) :=
    KeepsKernelPage.writeBytes k bs (Nat.le_add_right _ _)
  refine ⟨⟨⟨h.table.of_own hown, h.terminal.of_own hown, (dirReadCount_withMem _ _).trans h.counter⟩,
    ⟨table, hserves.of_keeps hdir hkeeps⟩, h.loaded.of_user (userPhys_withMem k _) fun a i ha hai hout => ?_,
    by rw [hown.count]; exact h.room⟩, hroom.store hserves.running⟩
  rw [mem_withMem]
  refine Mem.writeBytes_of_outside ?_
  simp only [Kernel.userPhys]
  omega

theorem AtPrompt.resumed {image : ShellImage} {k₂ : Kernel} {ebp : Nat} (h : AtPrompt fops fs image t k)
    (hdir : DirectoryOk fs) (hstack : OnKernelStack k.processCount ebp) (hres : ShellResumed k k₂ ebp)
    (hcounter : k₂.dirReadCount = 0) : AtPrompt fops fs image t k₂ := by
  obtain ⟨table, hserves⟩ := h.serves
  have hrun := hserves.running
  have hbase := hrun.pdeBase_eq
  have hown : ∀ x, OwnedBy k.processCount x → k₂.mem x = k.mem x := fun x => hres.own h.table hstack
  have hblock : k₂.currentPblock = k.currentPblock := by
    rw [Kernel.currentPblock, Kernel.currentPblock, hres.count]
  refine ⟨h.toInShell.resumed hstack hres hcounter, ⟨table, hres.table.running, ?_⟩, ?_, by rw [hres.count]; exact h.room⟩
  · rw [hblock]
    refine hserves.table.congr hdir fun a hlow hhigh => hown a (.inr ?_)
    simp only [Kernel.currentPblock, fdeOffset, opsSize, addr8KB] at *
    omega
  · refine h.loaded.of_user (fun a => by rw [Kernel.userPhys, Kernel.userPhys, hres.page]) fun a i ha hai _ => ?_
    refine hown _ (.inl ?_)
    simp only [Kernel.userPhys, hbase, frameBase, addr4MB] at *
    omega

/-- The console when the read of a turn is made: the prompt, with the keys before and between its bytes, and the keys
before the read. -/
def consoleAtRead (t : Term) (p : Process) : Console := (p.wrote t (ascii "391OS> ")).pressed.console

theorem sysRead_line {table : Nat → Option Nat} (h : Serves fops fs table k) {line : List UInt8} {buf n : Nat}
    (hnull : buf ≠ 0) (hready : ReadyLine line k.console) (hlong : line.length < n) {k' : Kernel}
    (hstore : Kernel.store { k with console := clearKeyboardBuf k.console } buf
      (line ++ List.replicate (n - line.length) 0) = .ok k') (staleInode : Nat) :
    sysRead fops fs k 0 buf n staleInode = .ok (k', line.length) := by
  obtain ⟨huse, hfop⟩ := h.table.terminal 0 (by decide)
  have hkind : fopsAt fops fops.terminal = .ok .terminal := fopsAt_addr fops .terminal
  rw [show (0 : Int) = ((0 : Nat) : Int) from rfl, sysRead_eq h.running (by decide) hnull,
    if_pos ⟨by omega, by decide⟩, hfop, hkind, ok_bind, callRead, readTerminal, hready.termRead_long hlong]
  simp only
  rw [hstore, ok_bind]
  rfl

theorem AtPrompt.readLine {image : ShellImage} (h : AtPrompt fops fs image t k) (hdir : DirectoryOk fs)
    {line : List UInt8} (hshort : line.length ≤ 127) (hready : ReadyLine (line ++ [0x0A]) k.console)
    (staleInode : Nat) :
    ∃ k', sysRead fops fs k 0 image.buf (shellBufSize - 1 : Nat) staleInode = .ok (k', (line.length + 1 : Nat)) ∧
      AtPrompt fops fs image t k' ∧ k'.processCount = k.processCount ∧
      k'.console = clearKeyboardBuf k.console ∧
      k'.mem.readBytes (k'.userPhys image.buf) (line ++ [0x0A]).length = line ++ [0x0A] := by
  obtain ⟨table, hserves⟩ := h.serves
  have hlength : (line ++ [0x0A]).length = line.length + 1 := by rw [List.length_append, List.length_singleton]
  have hcleared : OnlyConsole k { k with console := clearKeyboardBuf k.console } := ⟨_, rfl⟩
  have hat := h.onlyConsole hcleared
  generalize hk0 : ({ k with console := clearKeyboardBuf k.console } : Kernel) = k0 at hcleared hat
  have hconsole : k0.console = clearKeyboardBuf k.console := by rw [← hk0]
  have hcount := hcleared.own.count
  let bs : List UInt8 := line ++ [0x0A] ++ List.replicate (1023 - (line ++ [0x0A]).length) 0
  have hroom : 0 + bs.length ≤ shellBufSize := by
    simp only [bs, List.length_append, List.length_singleton, List.length_replicate, shellBufSize]
    omega
  obtain ⟨hat', hstore⟩ := hat.stored hdir hroom
  rw [Nat.add_zero] at hat' hstore
  refine ⟨_, ?_, hat', (processCount_withMem _ _).trans hcount, (console_withMem _ _).trans hconsole, ?_⟩
  · rw [← hlength]
    refine sysRead_line hserves h.loaded.buffer.ne_null hready ?_ ?_ staleInode
    · rw [hlength]
      simp only [shellBufSize]
      omega
    · rw [hk0]
      exact hstore
  · rw [mem_withMem, userPhys_withMem]
    exact Mem.readBytes_writeBytes _ _ _ _

theorem AtPrompt.cutLine {image : ShellImage} (h : AtPrompt fops fs image t k) (hdir : DirectoryOk fs)
    {line : List UInt8} (hplain : 0 ∉ line) (hshort : line.length ≤ 127)
    (hbytes : k.mem.readBytes (k.userPhys image.buf) (line ++ [0x0A]).length = line ++ [0x0A]) :
    k.fetch (image.buf + line.length) 1 = .ok [0x0A] ∧
    ∃ k', k.store (image.buf + line.length) [0] = .ok k' ∧ AtPrompt fops fs image t k' ∧
      k'.processCount = k.processCount ∧ k'.console = k.console ∧ k'.userString image.buf = line := by
  obtain ⟨table, hserves⟩ := h.serves
  have hbuf := h.loaded.buffer
  have hlow := hbuf.low
  have hhigh : image.buf + shellBufSize ≤ addr128MB + addr4MB := by
    rcases hbuf.high with hzero | hhigh
    · cases hzero
    · exact hhigh
  simp only [shellBufSize] at hhigh
  have hphys : k.userPhys (image.buf + line.length) = k.userPhys image.buf + line.length := by
    simp only [Kernel.userPhys]
    omega
  rw [List.length_append, List.length_singleton, Mem.readBytes_add] at hbytes
  obtain ⟨hline, hnewline⟩ := List.append_inj hbytes (Mem.length_readBytes _ _ _)
  constructor
  · rw [fetch_user hserves.running fun j hj => ⟨by omega, by omega⟩, hphys, hnewline]
  · have hroom : line.length + ([0] : List UInt8).length ≤ shellBufSize := by
      simp only [List.length_singleton, shellBufSize]
      omega
    obtain ⟨hat, hstore⟩ := h.stored hdir hroom
    refine ⟨_, hstore, hat, processCount_withMem _ _, console_withMem _ _, ?_⟩
    have hstring : (k.mem.writeBytes (k.userPhys (image.buf + line.length)) [0]).HoldsString (k.userPhys image.buf)
        line := by
      rw [hphys]
      refine ⟨hplain, fun i hi => ?_, Mem.writeBytes_here _ _ _⟩
      have hread := List.getElem_of_eq hline (i := i) (by rwa [Mem.length_readBytes])
      rw [Mem.writeBytes_of_outside (.inl (by omega)), ← hread, Mem.getElem_readBytes]
    rw [Kernel.userString, mem_withMem, userPhys_withMem]
    exact hstring.cstr_eq (by omega)

/-- A turn in which a line was typed takes it without its newline. -/
theorem readCommand_spec (hdir : DirectoryOk fs) {image : ShellImage} {p : Process}
    (h : AtPrompt fops fs image t p.kernel) {line : List UInt8} (hplain : 0 ∉ line) (hshort : line.length ≤ 127)
    (hready : ReadyLine (line ++ [0x0A]) (consoleAtRead t p)) (staleInode : Nat) :
    ∃ p', readCommand fops fs image staleInode p = .ok (p', lineCase line) ∧ AtPrompt fops fs image t p'.kernel ∧
      p'.kernel.processCount = p.kernel.processCount ∧
      p'.kernel.console = clearKeyboardBuf (consoleAtRead t p) ∧ p'.keys = p.keys.tail.tail ∧
      Shown t (ascii "391OS> ") 1 p p' := by
  obtain ⟨table, hserves⟩ := h.serves
  have hputs := ece391Fdputs_eq hserves h.terminal h.loaded.prompt
  have hwrote : OnlyConsole p.kernel (p.wrote t (ascii "391OS> ")).kernel := onlyConsole_wrote p _
  have hprompt := h.onlyConsole hwrote
  have hprinted : Printed t (ascii "391OS> ") p (p.wrote t (ascii "391OS> ")) := printed_wrote p _
  have hkeys : (p.wrote t (ascii "391OS> ")).keys = p.keys.tail := rfl
  have hcount := hwrote.own.count
  rw [consoleAtRead] at hready ⊢
  generalize p.wrote t (ascii "391OS> ") = q at *
  have hpressed := hprompt.onlyConsole (onlyConsole_pressed q)
  have hcount0 := (onlyConsole_pressed q).own.count
  obtain ⟨k1, hread, hat1, hcount1, hconsole1, hbytes⟩ := hpressed.readLine hdir hshort hready staleInode
  obtain ⟨hlast, k2, hstore, hat2, hcount2, hconsole2, hstring⟩ := hat1.cutLine hdir hplain hshort hbytes
  have hconsole := hconsole2.trans hconsole1
  have hcounts : k2.processCount = p.kernel.processCount := calc
    k2.processCount = k1.processCount := hcount2
    _ = q.pressed.processCount := hcount1
    _ = q.kernel.processCount := hcount0
    _ = p.kernel.processCount := hcount
  refine ⟨⟨k2, q.keys.tail⟩, ?_, hat2, hcounts, hconsole, by rw [hkeys], ?_⟩
  · have hend : (image.buf + ((line.length + 1 : Nat) : Int) - 1).toNat = image.buf + line.length := by omega
    have hcut : (image.buf + (((line.length + 1 : Nat) : Int) - 1)).toNat = image.buf + line.length := by omega
    rw [readCommand, hputs, ok_bind, Process.call_eq hread, ok_bind]
    simp only
    rw [if_neg (by omega), if_pos (by omega), hend, hlast, ok_bind]
    simp only
    rw [if_pos trivial, hcut, hstore, ok_bind, hstring, hat2.loaded.exit.userString_eq, shellCase_eq hplain, pure_eq_ok]
  · have hevent : Shown t (eventBytes [.readLine]) (eventReads [.readLine]) q ⟨k2, q.keys.tail⟩ :=
      Shown.event q .readLine rfl hconsole
    have hall := Shown.trans hprinted hevent
    rwa [show eventBytes [.readLine] = [] from rfl, List.append_nil] at hall

end UnixOs
