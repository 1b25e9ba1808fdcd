import UnixOs.ExecuteAcceptance
import UnixOs.ShellProgram
import UnixOs.TypedText

/-! Sessions of the shell. A session is a run of turns of its loop, each on a line that was typed: the terminal is
written the prompts and the answers to the lines, and the lines are what the keyboard gave, also what was typed ahead
while a command was running. -/

namespace UnixOs

variable {fops : FopsTables} {fs : FileSys} {programs : UserProgram}
  {locals : ExecuteLocals} {image : ShellImage} {k k' k₀ k₁ : Kernel} {t : Term} {p p' : Process}
  {line name arg : List UInt8}

theorem Splits.spaceCount_le (h : Splits line name arg) : spaceCount line ≤ 1 := by
  have hname : name.count asciiSpace = 0 := List.count_eq_zero.mpr h.nameWord
  have harg : arg.count asciiSpace = 0 := List.count_eq_zero.mpr h.argWord
  rcases h.shape with rfl | ⟨rfl, -⟩
  · rw [spaceCount, List.count_append, List.count_cons_self, hname, harg]
  · rw [spaceCount, hname]
    exact Nat.zero_le 1

theorem Splits.plain_line (h : Splits line name arg) : 0 ∉ line := by
  obtain ⟨hname, harg⟩ := h.plain
  rcases h.shape with rfl | ⟨rfl, -⟩
  · rw [List.mem_append, List.mem_cons, not_or, not_or]
    exact ⟨hname, by decide, harg⟩
  · exact hname

theorem Splits.line_ne_nil (h : Splits line name arg) : line ≠ [] := by
  rcases h.shape with rfl | ⟨rfl, -⟩
  · exact fun hnil => h.named (List.append_eq_nil_iff.mp hnil).1
  · exact h.named

theorem Splits.lineCase_eq (h : Splits line name arg) (hstays : line ≠ ascii "exit") :
    lineCase line = .execute line := by
  rw [lineCase, if_neg hstays, if_neg h.line_ne_nil]

/-- A line of a name and at most one argument is judged by the entry that its name finds. -/
theorem Splits.checkCommand_eq (hok : EntriesOk fs) (hcount : k.processCount < maxProcesses)
    (h : Splits line name arg) :
    checkCommand fs k locals line = checkEntry fs k locals line (findEntry fs name) := by
  have hone := h.spaceCount_le
  have hword := h.firstWord_eq
  have hshort := h.nameShort
  rw [UnixOs.checkCommand_eq hcount h.plain_line h.line_ne_nil h.short, if_neg (by omega),
    checkName_eq hok h.plain_line hone (by rw [hword]; exact h.named) (by rw [hword, fnameLength]; omega), hword]

/-- A file that is mapped as a whole has its header mapped. -/
theorem FileMapped.header {inode : Nat} (h : FileMapped fs inode) : readMapped true fs inode 4 = true := by
  simp only [FileMapped, readMapped, Bool.and_eq_true, Bool.or_eq_true, List.all_eq_true, List.mem_range,
    Nat.min_self] at h ⊢
  obtain ⟨hlength, hlong | hblocks⟩ := h
  · exact ⟨hlength, .inl hlong⟩
  · refine ⟨hlength, .inr fun check hcheck => ?_⟩
    simp only [kb4] at *
    obtain ⟨hnumber, hbytes⟩ := hblocks check (by omega)
    exact ⟨hnumber, rangeMapped_mono (by omega) hbytes⟩

/-- An executable passes. -/
theorem Executable.checkEntry_eq {i : Nat} (h : Executable fs i)
    (hsize : entryLength fs i ≤ kb4 * maxDblocksPerFile)
    (hmapped : readMapped k.userPresent fs (fs.entryInode i) 4 = true) :
    checkEntry fs k locals line (some i) = .ok (.pass ⟨line, charSpaceIndices line, fs.entryInode i⟩) := by
  have hlength : (fileSlice fs (fs.entryInode i) 0 4).length = 4 := length_fileSlice _ _ _ _
  rw [checkEntry, checkHeader_eq _ ⟨line, charSpaceIndices line, fs.entryInode i⟩ hmapped hsize]
  simp only
  rw [Nat.min_eq_left h.long, exeHeader_full _ hlength, if_pos h.magic]

/-! ### Answers -/

/-- A program that prints `out arg` for an argument, changes no memory but its own, and halts with the `ebp` that it
was entered with. -/
def Prints (fops : FopsTables) (fs : FileSys) (programs : UserProgram) (inode : Nat)
    (out : List UInt8 → List UInt8) : Prop :=
  ∀ t k arg keys ebp, JustStarted fops fs t inode arg k → 0 ∉ arg →
    ∃ p status, programs inode ebp ⟨k, keys⟩ = .ok (some (p, status, ebp)) ∧ Printed t (out arg) ⟨k, keys⟩ p ∧
      OwnChanges k p.kernel ∧ p.kernel.dirReadCount = 0

theorem cProgram_eq {main : Process → Except Fault (Option (Process × Int))} {status : Int}
    (h : main p = .ok (some (p', status))) (ebp : Nat) : cProgram main ebp p = .ok (some (p', status, ebp)) := by
  rw [cProgram, h, ok_bind]
  rfl

theorem prints_cat (himg : ImageOk fs) {inode : Nat} {image : CatImage} (hfile : CatFile image (contents fs inode))
    {staleInode fuel : Nat} (hfuel : ∀ arg, (catResult fs arg).1.length < fuel)
    (hprogram : programs inode = cProgram (cat fops fs image staleInode fuel)) :
    Prints fops fs programs inode fun arg => (catResult fs arg).1 := by
  intro t k arg keys ebp hstarted hplain
  obtain ⟨p, hcat, hprinted, hown, hcounter⟩ := cat_prints (p := ⟨k, keys⟩) himg hstarted.canOpen hstarted.terminal
    hstarted.argument hplain (hstarted.catLoaded hfile) staleInode (hfuel arg)
  exact ⟨p, _, by rw [hprogram]; exact cProgram_eq hcat ebp, hprinted, hown, hcounter⟩

theorem prints_ls (himg : ImageOk fs) (hdot : ∀ i, findEntry fs [0x2E] = some i → fs.entryType i = 1) {inode : Nat}
    {image : LsImage} (hfile : LsFile image (contents fs inode)) {staleInode fuel : Nat}
    (hfuel : (lsResult fs).1.length < fuel)
    (hprogram : programs inode = cProgram (ls fops fs image staleInode fuel)) :
    Prints fops fs programs inode fun _ => (lsResult fs).1 := by
  intro t k arg keys ebp hstarted _
  obtain ⟨p, hls, hprinted, hown, hcounter⟩ := ls_prints (p := ⟨k, keys⟩) himg hdot hstarted.canOpen hstarted.terminal
    (hstarted.lsLoaded hfile) staleInode hfuel
  exact ⟨p, _, by rw [hprogram]; exact cProgram_eq hls ebp, hprinted, hown, hcounter⟩

/-- What the shell prints for a line, before it goes on. -/
inductive Answers (fops : FopsTables) (fs : FileSys) (programs : UserProgram) : List UInt8 → List UInt8 → Prop
  | blank : Answers fops fs programs [] []
  | unknown {line name arg : List UInt8} (splits : Splits line name arg) (stays : line ≠ ascii "exit")
      (missing : findEntry fs name = none) : Answers fops fs programs line (ascii "no such command\n")
  | command {line name arg : List UInt8} {i : Nat} {out : List UInt8 → List UInt8} (splits : Splits line name arg)
      (stays : line ≠ ascii "exit") (find : findEntry fs name = some i) (executable : Executable fs i)
      (fits : entryLength fs i ≤ imageRoom) (mapped : FileMapped fs (fs.entryInode i))
      (prints : Prints fops fs programs (fs.entryInode i) out) : Answers fops fs programs line (out arg)

theorem printf_nil (k : Kernel) : printf k [] = k := by
  cases k
  rfl

/-- A name that is not in the directory. -/
theorem ece391Execute_unknown (hok : EntriesOk fs) (hcount : p.pressed.processCount < maxProcesses)
    (hsplit : Splits line name arg) (hmissing : findEntry fs name = none) :
    ece391Execute fops fs programs locals p line = .ok (some (⟨p.pressed, p.keys.tail⟩, -1)) := by
  have hcheck : checkCommand fs p.pressed locals line = .ok (.fail []) := by
    rw [hsplit.checkCommand_eq hok hcount, hmissing, checkEntry]
  have hexec : execute fops fs locals p.pressed line = .ok (p.pressed, .fail) := by
    rw [execute, hcheck, ok_bind]
    simp only
    rw [printf_nil, pure_eq_ok]
  rw [ece391Execute, hcheck, hexec, ok_bind, ok_bind]
  rfl

/-- A program that prints, executed from the shell. -/
theorem ece391Execute_prints (himg : ImageOk fs) (h : AtPrompt fops fs image t p.kernel)
    (hlocals : ShellLocals p.kernel locals) (hsplit : Splits line name arg) {i : Nat}
    (hfind : findEntry fs name = some i) (hexe : Executable fs i) (hfits : entryLength fs i ≤ imageRoom)
    (hmapped : FileMapped fs (fs.entryInode i)) {out : List UInt8 → List UInt8}
    (hprints : Prints fops fs programs (fs.entryInode i) out) :
    ∃ p', ece391Execute fops fs programs locals p line = .ok (some (p', 0)) ∧ Printed t (out arg) p p' ∧
      AtPrompt fops fs image t p'.kernel := by
  have hat := h.onlyConsole (onlyConsole_pressed p)
  have hlive := hat.table
  have hentry := (findEntry_some hfind).1
  have hstack : OnKernelStack p.pressed.processCount locals.ebp := hlocals.onStack
  have hheader : readMapped p.pressed.userPresent fs (fs.entryInode i) 4 = true := by
    rw [hlive.userPresent_eq, userPresent_enterFrame]
    exact hmapped.header
  have hcheck : checkCommand fs p.pressed locals line =
      .ok (.pass ⟨line, charSpaceIndices line, fs.entryInode i⟩) := by
    rw [hsplit.checkCommand_eq himg.entries hat.room, hfind,
      hexe.checkEntry_eq (himg.sizes i hentry hexe.regular) hheader]
  obtain ⟨k₁, eip, esp, hexec⟩ : ∃ k₁ eip esp, execute fops fs locals p.pressed line = .ok (k₁, .iret eip esp) :=
    ⟨_, _, _, execute_starts (hlive.startable (.inr hlive.min)) hcheck hfits hmapped⟩
  obtain ⟨prog, hacc, hchild⟩ := hlive.child hexec
  have hstarted := hchild.justStarted himg hat.toInShell hlocals.cleared hsplit hacc hfind
  obtain ⟨p2, status, hrun, hprinted, hown, hcounter⟩ :=
    hprints t k₁ arg p.keys.tail locals.ebp hstarted hsplit.plain.2
  obtain ⟨k₂, hran⟩ := hchild.ran hlive hprinted hown hcounter hstack locals
  refine ⟨⟨k₂, p2.keys.tail⟩, ?_, ?_, hat.resumed himg.toDirectoryOk hstack hran.resumed hran.counter⟩
  · have hown := hstack.leaveFrame_eq (k := p.pressed) hat.room
    rw [ece391Execute, hcheck, hexec, ok_bind, ok_bind]
    simp only
    rw [hrun, ok_bind]
    simp only
    rw [hran.halted, ok_bind]
    simp only
    rw [hran.resumed.frame, hown, ok_bind, ok_bind, if_pos rfl]
    rfl
  · have hquiet : Printed t [] p ⟨p.pressed, p.keys.tail⟩ := Printed.quiet p rfl
    exact hquiet.trans hran.printed

/-- A turn has ended: the line was read at `p₁`, and the answer was printed since. -/
structure Turned (fops : FopsTables) (fs : FileSys) (image : ShellImage) (t : Term) (out : List UInt8)
    (p p₁ p' : Process) : Prop where
  prompt : AtPrompt fops fs image t p'.kernel
  reading : Shown t (ascii "391OS> ") 1 p p₁
  console : p₁.kernel.console = clearKeyboardBuf (consoleAtRead t p)
  keys : p₁.keys = p.keys.tail.tail
  answer : Printed t out p₁ p'

theorem Turned.shown {p₁ : Process} {out : List UInt8} (h : Turned fops fs image t out p p₁ p') :
    Shown t (ascii "391OS> " ++ out) 1 p p' := h.reading.trans h.answer

/-- The shell answers a line. -/
theorem shellTurn_answers (himg : ImageOk fs) (h : AtPrompt fops fs image t p.kernel) {out : List UInt8}
    (hline : Answers fops fs programs line out) (hready : ReadyLine (line ++ [0x0A]) (consoleAtRead t p))
    (hlocals : ShellLocals p.kernel locals) (staleInode : Nat) :
    ∃ p₁ p', shellTurn fops fs programs image locals staleInode p = .ok (some (p', none)) ∧
      Turned fops fs image t out p p₁ p' := by
  cases hline with
  | blank =>
      obtain ⟨p₁, hread, hat, -, hconsole, hkeys, hshown⟩ :=
        readCommand_spec himg.toDirectoryOk h (List.not_mem_nil) (Nat.zero_le _) hready staleInode
      have hcase : lineCase [] = .again := by decide
      refine ⟨p₁, p₁, ?_, hat, hshown, hconsole, hkeys, Shown.refl t p₁⟩
      rw [shellTurn, hread, ok_bind, hcase]
      rfl
  | unknown hsplit hstays hmissing =>
      obtain ⟨p₁, hread, hat, -, hconsole, hkeys, hshown⟩ :=
        readCommand_spec himg.toDirectoryOk h hsplit.plain_line hsplit.short hready staleInode
      have hat' := hat.onlyConsole (onlyConsole_pressed p₁)
      obtain ⟨table, hserves⟩ := hat'.serves
      have hexec : ece391Execute fops fs programs locals p₁ line = .ok (some (⟨p₁.pressed, p₁.keys.tail⟩, -1)) :=
        ece391Execute_unknown himg.entries hat'.room hsplit hmissing
      have hputs := ece391Fdputs_eq (p := ⟨p₁.pressed, p₁.keys.tail⟩) hserves hat'.terminal hat'.loaded.noCommand
      have hquiet : Printed t [] p₁ ⟨p₁.pressed, p₁.keys.tail⟩ := Printed.quiet p₁ rfl
      refine ⟨p₁, _, ?_, hat'.onlyConsole (onlyConsole_wrote ⟨p₁.pressed, p₁.keys.tail⟩ (ascii "no such command\n")),
        hshown, hconsole, hkeys, hquiet.trans (printed_wrote _ _)⟩
      rw [shellTurn, hread, ok_bind, hsplit.lineCase_eq hstays]
      simp only
      rw [hexec, ok_bind]
      simp only
      rw [shellReport, if_pos rfl, hputs, ok_bind]
      rfl
  | command hsplit hstays hfind hexe hfits hmapped hprints =>
      obtain ⟨p₁, hread, hat, hcount, hconsole, hkeys, hshown⟩ :=
        readCommand_spec himg.toDirectoryOk h hsplit.plain_line hsplit.short hready staleInode
      have hlocals₁ : ShellLocals p₁.kernel locals := ⟨hlocals.cleared, by rw [hcount]; exact hlocals.onStack⟩
      obtain ⟨p', hexec, hprinted, hat'⟩ :=
        ece391Execute_prints himg hat hlocals₁ hsplit hfind hexe hfits hmapped hprints
      refine ⟨p₁, p', ?_, hat', hshown, hconsole, hkeys, hprinted⟩
      rw [shellTurn, hread, ok_bind, hsplit.lineCase_eq hstays]
      simp only
      rw [hexec, ok_bind]
      rfl

/-! ### Sessions -/

/-- A turn of the loop on a line that is ready when it is read. -/
structure SessionStep (fops : FopsTables) (fs : FileSys) (programs : UserProgram) (image : ShellImage) (t : Term)
    (p : Process) (e : List UInt8 × List UInt8) (p' : Process) : Prop where
  answers : Answers fops fs programs e.1 e.2
  ready : ReadyLine (e.1 ++ [0x0A]) (consoleAtRead t p)
  turn : ∃ locals staleInode, ShellLocals p.kernel locals ∧
    shellTurn fops fs programs image locals staleInode p = .ok (some (p', none))

theorem SessionStep.turned (himg : ImageOk fs) (h : AtPrompt fops fs image t p.kernel)
    {e : List UInt8 × List UInt8} (hstep : SessionStep fops fs programs image t p e p') :
    ∃ p₁, Turned fops fs image t e.2 p p₁ p' := by
  obtain ⟨locals, staleInode, hlocals, hturn⟩ := hstep.turn
  obtain ⟨p₁, p'', hturn', hturned⟩ := shellTurn_answers himg h hstep.answers hstep.ready hlocals staleInode
  rw [hturn] at hturn'
  obtain ⟨rfl, -⟩ := Prod.mk.inj (Option.some.inj (Except.ok.inj hturn'))
  exact ⟨p₁, hturned⟩

/-- Locals of an `execute` whose frame is at the low end of the kernel stack. -/
def lowestFrame (k : Kernel) : ExecuteLocals where
  __ := clearedLocals
  ebp := pcbAddr (k.processCount + 1) + pcbSize

theorem shellLocals_lowestFrame (hroom : k.processCount < maxProcesses) : ShellLocals k (lowestFrame k) := by
  refine ⟨clearedLocal_clearedLocals, le_rfl, ?_⟩
  simp only [lowestFrame, kernelStack, pcbAddr, pcbSize, addr8MB, addr8KB, maxProcesses] at *
  omega

/-- What a session prints. -/
def sessionBytes (es : List (List UInt8 × List UInt8)) : List UInt8 := es.flatMap fun e => ascii "391OS> " ++ e.2

/-- In a session the terminal is written the prompt and the answer of every line, whatever is typed meanwhile; the
shell is at its prompt again, and answers the next line that is ready. -/
theorem session_prints (himg : ImageOk fs) (h : AtPrompt fops fs image t p.kernel)
    {es : List (List UInt8 × List UInt8)} (hrun : Run (SessionStep fops fs programs image t) p es p') :
    AtPrompt fops fs image t p'.kernel ∧ Shown t (sessionBytes es) es.length p p' ∧
      ∀ line out, Answers fops fs programs line out → ReadyLine (line ++ [0x0A]) (consoleAtRead t p') →
        ∃ p'', SessionStep fops fs programs image t p' (line, out) p'' := by
  have hwhole : AtPrompt fops fs image t p'.kernel ∧ Shown t (sessionBytes es) es.length p p' := by
    induction hrun with
    | nil => exact ⟨h, Shown.refl t p⟩
    | @snoc es p₁ p₂ e _ hlast ih =>
        obtain ⟨q, hturned⟩ := hlast.turned himg ih.1
        refine ⟨hturned.prompt, ?_⟩
        rw [sessionBytes, List.flatMap_append, List.flatMap_singleton, List.length_append, List.length_singleton]
        exact ih.2.trans hturned.shown
  refine ⟨hwhole.1, hwhole.2, fun line out hline hready => ?_⟩
  have hlocals := shellLocals_lowestFrame hwhole.1.room
  obtain ⟨p₁, p'', hturn, -⟩ := shellTurn_answers himg hwhole.1 hline hready hlocals 0
  exact ⟨p'', hline, hready, _, 0, hlocals, hturn⟩

/-- A turn on the line that was typed: behind its Enter come only keys without a character before the read, and none
when the line has 127 characters; what is typed ahead behind the read has at most 127. -/
structure TypedStep (fops : FopsTables) (fs : FileSys) (programs : UserProgram) (image : ShellImage) (t : Term)
    (p : Process) (e : List UInt8 × List UInt8) (p' : Process) : Prop where
  answers : Answers fops fs programs e.1 e.2
  line : ∃ ks behind, pendingKeys p.keys = ks ++ enterKey :: behind ++ pendingKeys p.keys.tail.tail ∧
    (∀ c ∈ ks, typingCode c = true) ∧ (∀ c ∈ behind, typingCode c = true ∧ silentKey c = true) ∧
    (behind = [] ∨ e.1.length ≤ 126) ∧ e.1 = (ks.foldl Typing.press (typingOf p.kernel.console)).text
  ahead : ∃ ks, pendingKeys p.keys.tail.tail = ks ++ pendingKeys p'.keys ∧ (∀ c ∈ ks, typingCode c = true) ∧
    ks.countP printableKey ≤ 127
  turn : ∃ locals staleInode, ShellLocals p.kernel locals ∧
    shellTurn fops fs programs image locals staleInode p = .ok (some (p', none))

theorem Answers.length_le {out : List UInt8} (h : Answers fops fs programs line out) : line.length ≤ 127 := by
  cases h with
  | blank => exact Nat.zero_le _
  | unknown hsplit _ _ => exact hsplit.short
  | command hsplit _ _ _ _ _ _ => exact hsplit.short

/-- What was typed is what the read takes. -/
theorem TypingAt.lineAt {y : Typing} (h : TypingAt y p.kernel.console) {ks behind : List Nat}
    (hkeys : pendingKeys p.keys = ks ++ enterKey :: behind ++ pendingKeys p.keys.tail.tail)
    (hcodes : ∀ c ∈ ks, typingCode c = true) (hbehind : ∀ c ∈ behind, typingCode c = true ∧ silentKey c = true)
    (hroom : (ks.foldl Typing.press y).text.length ≤ 127)
    (hend : behind = [] ∨ (ks.foldl Typing.press y).text.length ≤ 126) :
    LineAt (behind.foldl Typing.press (ks.foldl Typing.press y).line) (ks.foldl Typing.press y).text
      (consoleAtRead t p) := by
  have hquiet := Printed.quiet (t := t) (p.wrote t (ascii "391OS> ")) rfl
  obtain ⟨es, hes, -, hreads, hall⟩ := (printed_wrote (t := t) p (ascii "391OS> ")).trans hquiet
  rw [show consoleAtRead t p = es.foldl (programStep t) p.kernel.console from hes]
  exact h.events_line hreads (List.append_cancel_right (hall.symm.trans hkeys)) hcodes hbehind hroom hend

/-- A turn takes the line that was typed, and the console goes on with what comes behind its Enter. -/
theorem TypedStep.typed (himg : ImageOk fs) (h : AtPrompt fops fs image t p.kernel) {z : Typing}
    (hz : TypingAt z p.kernel.console) {e : List UInt8 × List UInt8}
    (hstep : TypedStep fops fs programs image t p e p') :
    SessionStep fops fs programs image t p e p' ∧ AtPrompt fops fs image t p'.kernel ∧
      ∃ ks behind, pendingKeys p.keys = ks ++ enterKey :: behind ++ pendingKeys p'.keys ∧
        (∀ c ∈ ks, typingCode c = true) ∧ (∀ c ∈ behind, typingCode c = true) ∧
        e.1 = (ks.foldl Typing.press z).text ∧
        TypingAt (behind.foldl Typing.press (ks.foldl Typing.press z).line) p'.kernel.console := by
  obtain ⟨ks, before, hks, hplain, hbefore, hend, hline⟩ := hstep.line
  rw [hz.typingOf_eq] at hline
  have hroom : (ks.foldl Typing.press z).text.length ≤ 127 := by
    rw [← hline]
    exact hstep.answers.length_le
  rw [hline] at hend
  have hwaits := hz.lineAt (t := t) hks hplain hbefore hroom hend
  have hturn : SessionStep fops fs programs image t p e p' :=
    ⟨hstep.answers, by rw [hline]; exact hwaits.ready, hstep.turn⟩
  obtain ⟨q, hturned⟩ := hturn.turned himg h
  -- what comes ahead is typed behind the read
  obtain ⟨ahead, hahead, hplain', hfew⟩ := hstep.ahead
  have hnext := hwaits.next
  rw [← hturned.console] at hnext
  obtain ⟨es, hes, -, hreads, hkeys⟩ := hturned.answer
  rw [hturned.keys] at hkeys
  obtain rfl : eventKeys es = ahead := List.append_cancel_right (hkeys.symm.trans hahead)
  generalize hbehind : before.foldl Typing.press (ks.foldl Typing.press z).line = y at hnext
  have hempty : y.text.length = 0 := by
    have hindex := hnext.editing.index
    rw [hturned.console] at hindex
    exact Int.ofNat_inj.mp hindex.symm
  have hroom' : ((eventKeys es).foldl Typing.press y).text.length ≤ 127 := calc
    ((eventKeys es).foldl Typing.press y).text.length
    _ ≤ y.text.length + (eventKeys es).countP printableKey := (y.length_foldl hplain').2
    _ = (eventKeys es).countP printableKey := by rw [hempty, Nat.zero_add]
    _ ≤ 127 := hfew
  have hlast := hnext.events (t := t) hreads hplain' hroom'
  rw [← hes, ← hbehind, ← List.foldl_append] at hlast
  refine ⟨hturn, hturned.prompt, ks, before ++ eventKeys es, ?_, hplain, fun c hc => ?_, hline, hlast⟩
  · rw [hks, hahead]
    simp only [List.append_assoc, List.cons_append]
  · rcases List.mem_append.mp hc with hc | hc
    · exact (hbefore c hc).1
    · exact hplain' c hc

/-- In a session on what was typed, the lines that the shell executed are those that the scan codes completed,
whatever the commands printed meanwhile, and what is typed behind them is in the buffer. -/
theorem session_takes_typed_lines (himg : ImageOk fs) (h : AtPrompt fops fs image t p.kernel) {y : Typing}
    (htyping : TypingAt y p.kernel.console) {es : List (List UInt8 × List UInt8)}
    (hrun : Run (TypedStep fops fs programs image t) p es p') :
    Run (SessionStep fops fs programs image t) p es p' ∧
      ∃ codes, pendingKeys p.keys = codes ++ pendingKeys p'.keys ∧
        typedLines y codes = (es.map Prod.fst, typingOf p'.kernel.console) := by
  have hwhole : Run (SessionStep fops fs programs image t) p es p' ∧ AtPrompt fops fs image t p'.kernel ∧
      ∃ codes z, pendingKeys p.keys = codes ++ pendingKeys p'.keys ∧ TypingAt z p'.kernel.console ∧
        typedLines y codes = (es.map Prod.fst, z) := by
    induction hrun with
    | nil => exact ⟨Run.nil, h, [], y, rfl, htyping, rfl⟩
    | @snoc es p₁ p₂ e _ hlast ih =>
        obtain ⟨hrun, hat, codes, z, hcodes, hz, hlines⟩ := ih
        obtain ⟨hstep, hat', ks, behind, hks, hplain, hbehind, hline, htyped⟩ := hlast.typed himg hat hz
        refine ⟨hrun.snoc hstep, hat', codes ++ (ks ++ enterKey :: behind), _, ?_, htyped, ?_⟩
        · rw [hcodes, hks, List.append_assoc codes]
        · rw [typedLines_line hlines hplain hbehind, List.map_append, List.map_singleton, hline]
  obtain ⟨hrun', hat, codes, z, hcodes, hz, hlines⟩ := hwhole
  exact ⟨hrun', codes, hcodes, by rw [hlines, hz.typingOf_eq]⟩

/-! ### A session -/

/-- An executable with the texts of the shell. -/
structure ShellFile (image : ShellImage) (file : List UInt8) : Prop where
  buffer : UserBuffer image.buf shellBufSize
  prompt : TextIn file image.prompt (ascii "391OS> ")
  exit : TextIn file image.exit (ascii "exit")
  noCommand : TextIn file image.noCommand (ascii "no such command\n")
  apart : ∀ a ∈ [image.prompt, image.exit, image.noCommand], a + 16 < image.buf ∨ image.buf + shellBufSize ≤ a

/-- A shell that was started by a shell comes to its prompt. -/
theorem Child.atPrompt {prog : Program} (h : Child fops fs locals prog k₀ k₁) (himg : ImageOk fs)
    (hshell : InShell t k₀) (hclean : ClearedLocal locals.pcb) (hsplit : Splits line name arg)
    (hacc : Accepted fs k₀ locals line prog) {i : Nat} (hfind : findEntry fs name = some i)
    (hfile : ShellFile image (contents fs (fs.entryInode i))) (hroom : k₁.processCount < maxProcesses) :
    AtPrompt fops fs image t k₁ := by
  have hstarted := h.justStarted himg hshell hclean hsplit hacc hfind
  exact ⟨⟨h.table, hstarted.terminal, h.counter.trans hshell.counter⟩, ⟨_, hstarted.canOpen.streams.serves⟩,
    ⟨hfile.buffer, hstarted.text hfile.prompt, hstarted.text hfile.exit, hstarted.text hfile.noCommand, hfile.apart⟩,
    hroom⟩

def sampleShell : ShellImage := ⟨0x83FF000, 0x804801C, 0x804801C, 0x8048024, 0x8048029, 0x8048029, 0x8048029⟩

theorem shellFile_programsFs : ShellFile sampleShell (contents programsFs (programsFs.entryInode 3)) where
  buffer := ⟨by decide, .inr (by decide)⟩
  prompt := ⟨by decide, by decide +kernel, by decide +kernel⟩
  exit := ⟨by decide, by decide +kernel, by decide +kernel⟩
  noCommand := ⟨by decide, by decide +kernel, by decide +kernel⟩
  apart := by decide

/-- The programs of the image; a shell in a shell is not returned from here. -/
def samplePrograms : UserProgram
  | 1 => cProgram (cat sampleFops programsFs catImage 0 100)
  | 2 => cProgram (ls sampleFops programsFs lsImage 0 100)
  | _ => fun _ _ => .ok none

theorem answers_ls : Answers sampleFops programsFs samplePrograms (ascii "ls") (ascii ".\ncat\nls\nshell\n") := by
  have hsplit : Splits (ascii "ls") (ascii "ls") [] :=
    ⟨.inr ⟨rfl, rfl⟩, by decide, by decide, by decide, by decide, by decide, by decide⟩
  have hinode : programsFs.entryInode 2 = 2 := by decide +kernel
  have hexe : Executable programsFs 2 := ⟨by decide +kernel, by decide +kernel, by decide +kernel⟩
  have hprints : Prints sampleFops programsFs samplePrograms (programsFs.entryInode 2)
      fun _ => (lsResult programsFs).1 :=
    prints_ls imageOk_programsFs dotType_programsFs lsFile_programsFs
      (show (lsResult programsFs).1.length < 100 by rw [lsResult_programsFs]; decide) (by rw [hinode]; rfl)
  have hanswers := Answers.command hsplit (by decide)
    (show findEntry programsFs (ascii "ls") = some 2 by decide +kernel) hexe (by decide +kernel) (by decide +kernel)
    hprints
  rwa [lsResult_programsFs] at hanswers

theorem stays_key_s : ∀ c ∈ [[0x1F]].flatten, c ∉ [f1Key, f2Key, f3Key] := by decide

theorem stays_key_x : ∀ c ∈ [[0x2D, 0xAD]].flatten, c ∉ [f1Key, f2Key, f3Key] := by decide

/-- The keys of `ls` and Enter, pressed and released while the shell prints its prompt and reads, and a capital `X`
while the command runs and prints. -/
def sampleTyping : List CallKeys :=
  [⟨[0x26, 0xA6], [[0x1F]], stays_key_s⟩, .typed [0x9F, enterKey, 0x9C], .typed [lShiftMake], .quiet, .quiet,
    ⟨[], [[0x2D, 0xAD]], stays_key_x⟩, .typed [lShiftBreak]]

theorem typedStep_ls : ∃ p p' y, AtPrompt sampleFops programsFs sampleShell 0 p.kernel ∧
    TypingAt y p.kernel.console ∧
      TypedStep sampleFops programsFs samplePrograms sampleShell 0 p (ascii "ls", ascii ".\ncat\nls\nshell\n") p' := by
  obtain ⟨k₀, hshell, hcount, hconsole⟩ := inShell_programsFs
  obtain ⟨k₁, eip, esp, hexec⟩ : ∃ k₁ eip esp, execute sampleFops programsFs clearedLocals k₀ (ascii "shell") =
      .ok (k₁, .iret eip esp) :=
    execute_small (hshell.table.startable (.inr hshell.table.min)) (by rw [hcount]; decide) (by decide)
      hshell.table.userPresent_eq
      (show inodeOf (checkCommand programsFs (enterFrame bootKernel) clearedLocals (ascii "shell")) = some 3 by
        decide +kernel)
      (by decide +kernel) (by decide +kernel)
  have hsplit : Splits (ascii "shell") (ascii "shell") [] :=
    ⟨.inr ⟨rfl, rfl⟩, by decide, by decide, by decide, by decide, by decide, by decide⟩
  obtain ⟨prog, hacc, hchild⟩ := hshell.table.child hexec
  have hat := hchild.atPrompt imageOk_programsFs hshell clearedLocal_clearedLocals hsplit hacc
    (show findEntry programsFs (ascii "shell") = some 3 by decide +kernel) shellFile_programsFs
    (by rw [hchild.count, hcount]; decide)
  have htyping : TypingAt ⟨false, false, []⟩ k₁.console := by
    rw [hchild.console, hconsole]
    exact ⟨⟨rfl, rfl, rfl, by decide, by decide, rfl, by decide, fun i hi => absurd hi (Nat.not_lt_zero i)⟩, rfl, rfl⟩
  let p : Process := ⟨k₁, sampleTyping⟩
  have hkeys : pendingKeys p.keys = [0x26, 0xA6, 0x1F, 0x9F] ++ enterKey :: [0x9C] ++ pendingKeys p.keys.tail.tail := rfl
  have hplain : ∀ c ∈ [0x26, 0xA6, 0x1F, 0x9F], typingCode c = true := by decide
  have hbehind : ∀ c ∈ [0x9C], typingCode c = true ∧ silentKey c = true := by decide
  have hwaits := TypingAt.lineAt (p := p) (t := 0) htyping hkeys hplain hbehind (by decide) (.inr (by decide))
  have hlocals := shellLocals_lowestFrame hat.room
  obtain ⟨p₁, p', hturn, hturned⟩ :=
    shellTurn_answers (p := p) imageOk_programsFs hat answers_ls hwaits.ready hlocals 0
  obtain ⟨es, -, -, -, hahead⟩ := hturned.answer
  rw [hturned.keys] at hahead
  have hpart : eventKeys es <+: [lShiftMake, 0x2D, 0xAD, lShiftBreak] := ⟨_, hahead.symm⟩
  refine ⟨p, p', _, hat, htyping, answers_ls, ⟨_, _, hkeys, hplain, hbehind, .inr (by decide), ?_⟩,
    ⟨eventKeys es, hahead, fun c hc => ?_, ?_⟩, _, 0, hlocals, hturn⟩
  · rw [htyping.typingOf_eq]
    decide
  · have hall : ∀ c ∈ [lShiftMake, 0x2D, 0xAD, lShiftBreak], typingCode c = true := by decide
    exact hall c (hpart.subset hc)
  · exact (List.countP_le_length.trans hpart.length_le).trans (by decide)

theorem session_takes_typed_lines_ls : ∃ (p p' : Process) (y : Typing),
    Run (SessionStep sampleFops programsFs samplePrograms sampleShell 0) p
        [(ascii "ls", ascii ".\ncat\nls\nshell\n")] p' ∧
      ∃ codes, pendingKeys p.keys = codes ++ pendingKeys p'.keys ∧
        typedLines y codes = ([ascii "ls"], typingOf p'.kernel.console) := by
  obtain ⟨p, p', y, hat, htyping, hstep⟩ := typedStep_ls
  exact ⟨p, p', y, session_takes_typed_lines imageOk_programsFs hat htyping (Run.nil.snoc hstep)⟩

theorem session_prints_ls : ∃ p p' : Process, AtPrompt sampleFops programsFs sampleShell 0 p'.kernel ∧
    Shown 0 (ascii "391OS> .\ncat\nls\nshell\n") 1 p p' := by
  obtain ⟨p, p', y, hat, htyping, hstep⟩ := typedStep_ls
  obtain ⟨ks, behind, hkeys, hplain, hbehind, hend, hline⟩ := hstep.line
  rw [htyping.typingOf_eq] at hline
  have hwaits := htyping.lineAt (t := 0) hkeys hplain hbehind (by rw [← hline]; decide) (by rwa [← hline])
  rw [← hline] at hwaits
  obtain ⟨hprompt, hshown, -⟩ :=
    session_prints imageOk_programsFs hat (Run.nil.snoc ⟨hstep.answers, hwaits.ready, hstep.turn⟩)
  exact ⟨p, p', hprompt, hshown⟩

end UnixOs
