import UnixOs.Arguments
import UnixOs.DirectoryListing
import UnixOs.InterruptedWrite
import UnixOs.LineEditing
import UnixOs.ProcessTable

/-! User programs on the system calls: `cat` and `ls`. Keys may be pressed before every call of a program and behind
each byte that it writes; the console then sees an interleaving of what the program does and of the keys. -/

namespace UnixOs

variable {fops : FopsTables} {fs : FileSys} {k k' : Kernel} {t : Term}

/-- The keys that are handled while a call is made: before it, and behind each byte that it writes to the terminal,
where none of them can switch terminals. -/
structure CallKeys where
  before : List Nat
  inside : List (List Nat)
  stays : ∀ c ∈ inside.flatten, c ∉ [f1Key, f2Key, f3Key]

/-- Keys before a call only. -/
def CallKeys.typed (codes : List Nat) : CallKeys := ⟨codes, [], fun _ hc => absurd hc List.not_mem_nil⟩

def CallKeys.quiet : CallKeys := .typed []

def CallKeys.all (c : CallKeys) : List Nat := c.before ++ c.inside.flatten

/-- The keys of the calls to come. -/
def pendingKeys (keys : List CallKeys) : List Nat := keys.flatMap CallKeys.all

/-- A program between two system calls: the kernel, and the keys of each of the calls to come. -/
structure Process where
  kernel : Kernel
  keys : List CallKeys

def Process.callKeys (p : Process) : CallKeys := p.keys.headD .quiet

/-- The kernel when the keys of the next call have been handled. A call that does not use the console does not see where
in it they come; in a read of the terminal they come while it waits for Enter, and none between the copy of the line
and the clearing of the buffer. -/
def Process.pressed (p : Process) : Kernel :=
  { p.kernel with console := typeKeys p.kernel.console p.callKeys.all }

/-- A system call that does not write. -/
def Process.call (p : Process) (f : Kernel → Except Fault (Kernel × Int)) : Except Fault (Process × Int) := do
  let (k, ret) ← f p.pressed
  return (⟨k, p.keys.tail⟩, ret)

/-- `term_write` behind its test, with keys behind each byte and the last of them at its end. -/
def keyedPuts (t : Term) (direct : Bool) : Console → List UInt8 → List (List Nat) → Console
  | s, [], keys => typeKeys s keys.flatten
  | s, b :: buf, keys => keyedPuts t direct (typeKeys (writeStep t direct s (.char b)) (keys.headD [])) buf keys.tail

def keyedWrite (keys : List (List Nat)) (t : Term) (s : Console) (buf : List UInt8) : Console :=
  keyedPuts t (decide (t = s.displayTerminal)) s buf keys

/-- The kernel when the keys before the next call have been handled. -/
def Process.entered (p : Process) : Kernel :=
  { p.kernel with console := typeKeys p.kernel.console p.callKeys.before }

/-- A call of `write`, which handles interrupts between the bytes. -/
def Process.write (p : Process) (fops : FopsTables) (fd : Int) (buf : Nat) (nbytes : Int) :
    Except Fault (Process × Int) := do
  let (k, ret) ← sysWriteWith (keyedWrite p.callKeys.inside) fops p.entered fd buf nbytes
  return (⟨k, p.keys.tail⟩, ret)

/-- The string at an address of the user page. -/
def Kernel.userString (k : Kernel) (a : Nat) : List UInt8 :=
  k.mem.cstr (k.userPhys a) (addr128MB + addr4MB - a)

def ece391Fdputs (fops : FopsTables) (p : Process) (fd : Int) (s : Nat) : Except Fault Process := do
  let (p, _) ← p.write fops fd s (p.kernel.userString s).length
  return p

/-- The loop of `cat` and of `ls`: what a read of `size` bytes returned is written with `ending` stored behind it.
A read is the turn that takes one unit of `fuel`. -/
def catLoop (fops : FopsTables) (fs : FileSys) (fd : Int) (buf size readFailed : Nat) (ending : List UInt8)
    (staleInode : Nat) : Nat → Process → Except Fault (Option (Process × Int))
  | 0, _ => .ok none
  | fuel + 1, p => do
      let (p, cnt) ← p.call fun k => sysRead fops fs k fd buf size staleInode
      if cnt = 0 then return some (p, 0)
      else if cnt = -1 then
        let p ← ece391Fdputs fops p 1 readFailed
        return some (p, 3)
      else
        let k ← p.kernel.store (buf + cnt).toNat ending
        let (p, ret) ← { p with kernel := k }.write fops 1 buf (cnt + ending.length)
        if ret = -1 then return some (p, 3)
        else catLoop fops fs fd buf size readFailed ending staleInode fuel p

/-- Where the buffer of `cat` and its texts are. -/
structure CatImage where
  buf : Nat
  noArguments : Nat
  notFound : Nat
  readFailed : Nat

/-- `main` of `ece391cat.c` -/
def cat (fops : FopsTables) (fs : FileSys) (image : CatImage) (staleInode fuel : Nat) (p : Process) :
    Except Fault (Option (Process × Int)) := do
  let (p, ret) ← p.call fun k => getargs k image.buf 1024
  if ret ≠ 0 then
    let p ← ece391Fdputs fops p 1 image.noArguments
    return some (p, 3)
  else
    let (p, fd) ← p.call fun k => sysOpen fops fs k (k.userString image.buf)
    if fd = -1 then
      let p ← ece391Fdputs fops p 1 image.notFound
      return some (p, 2)
    else catLoop fops fs fd image.buf 1024 image.readFailed [] staleInode fuel p

/-- Where the buffer of `ls` and its texts are. -/
structure LsImage where
  buf : Nat
  dot : Nat
  openFailed : Nat
  readFailed : Nat

/-- `SBUFSIZE` -/
def sbufSize : Nat := 33

/-- `main` of `ece391ls.c` -/
def ls (fops : FopsTables) (fs : FileSys) (image : LsImage) (staleInode fuel : Nat) (p : Process) :
    Except Fault (Option (Process × Int)) := do
  let (p, fd) ← p.call fun k => sysOpen fops fs k (k.userString image.dot)
  if fd = -1 then
    let p ← ece391Fdputs fops p 1 image.openFailed
    return some (p, 2)
  else catLoop fops fs fd image.buf (sbufSize - 1) image.readFailed [0x0A] staleInode fuel p

/-! ### What a program does to the console -/

/-- What happens to the console while a program of one terminal runs: it writes, a key is pressed, or it reads the
line that was typed. -/
inductive ProgramEvent where
  | write (buf : List UInt8)
  | key (pressed : Nat)
  | readLine

def programStep (t : Term) (s : Console) : ProgramEvent → Console
  | .write buf => termWrite t s buf
  | .key pressed => keyboardHandler s [pressed]
  | .readLine => clearKeyboardBuf s

/-- The bytes that events write. -/
def eventBytes (es : List ProgramEvent) : List UInt8 :=
  es.flatMap fun
    | .write buf => buf
    | _ => []

/-- The keys that events press. -/
def eventKeys (es : List ProgramEvent) : List Nat :=
  es.filterMap fun
    | .key pressed => some pressed
    | _ => none

/-- How many lines events read. -/
def eventReads (es : List ProgramEvent) : Nat :=
  es.countP fun
    | .readLine => true
    | _ => false

/-- Between two points of a program, terminal `t` was written `bytes`, so many lines were read, and the keys given for
the calls in between were pressed. -/
def Shown (t : Term) (bytes : List UInt8) (reads : Nat) (p p' : Process) : Prop :=
  ∃ es, p'.kernel.console = es.foldl (programStep t) p.kernel.console ∧ eventBytes es = bytes ∧
    eventReads es = reads ∧ pendingKeys p.keys = eventKeys es ++ pendingKeys p'.keys

/-- Without a line that is read. -/
def Printed (t : Term) (bytes : List UInt8) (p p' : Process) : Prop := Shown t bytes 0 p p'

theorem Shown.refl (t : Term) (p : Process) : Shown t [] 0 p p := ⟨[], rfl, rfl, rfl, rfl⟩

theorem Shown.trans {bs cs : List UInt8} {m n : Nat} {p p' p'' : Process} (h : Shown t bs m p p')
    (h' : Shown t cs n p' p'') : Shown t (bs ++ cs) (m + n) p p'' := by
  obtain ⟨es, hes, hbytes, hreads, hkeys⟩ := h
  obtain ⟨es', hes', hbytes', hreads', hkeys'⟩ := h'
  refine ⟨es ++ es', ?_, ?_, ?_, ?_⟩
  · rw [hes', hes, List.foldl_append]
  · rw [eventBytes, List.flatMap_append, ← hbytes, ← hbytes']
    rfl
  · rw [eventReads, List.countP_append, ← hreads, ← hreads']
    rfl
  · rw [hkeys, hkeys', ← List.append_assoc, eventKeys, eventKeys, eventKeys, List.filterMap_append]

theorem Printed.trans {bs cs : List UInt8} {p p' p'' : Process} (h : Printed t bs p p') (h' : Printed t cs p' p'') :
    Printed t (bs ++ cs) p p'' := Shown.trans h h'

theorem typeKeys_eq (t : Term) (s : Console) (keys : List Nat) :
    typeKeys s keys = (keys.map ProgramEvent.key).foldl (programStep t) s := by
  rw [typeKeys, List.foldl_map]
  rfl

theorem eventBytes_keys (keys : List Nat) : eventBytes (keys.map ProgramEvent.key) = [] := by
  rw [eventBytes, List.flatMap_map, List.flatMap_eq_nil_iff]
  exact fun _ _ => rfl

theorem eventKeys_keys (keys : List Nat) : eventKeys (keys.map ProgramEvent.key) = keys := by
  rw [eventKeys, List.filterMap_map]
  exact List.filterMap_some

theorem flatten_headD (keys : List (List Nat)) : keys.flatten = keys.headD [] ++ keys.tail.flatten := by
  cases keys with
  | nil => rfl
  | cons codes rest => rfl

theorem pendingKeys_eq (p : Process) : pendingKeys p.keys = p.callKeys.all ++ pendingKeys p.keys.tail := by
  obtain ⟨k, keys⟩ := p
  cases keys with
  | nil => rfl
  | cons c rest => rfl

theorem eventReads_keys (keys : List Nat) : eventReads (keys.map ProgramEvent.key) = 0 := by
  rw [eventReads, List.countP_map, List.countP_eq_zero]
  exact fun _ _ => Bool.false_ne_true

theorem Printed.quiet (p : Process) {k' : Kernel} (h : k'.console = p.pressed.console) :
    Printed t [] p ⟨k', p.keys.tail⟩ := by
  refine ⟨p.callKeys.all.map .key, h.trans (typeKeys_eq t _ _), eventBytes_keys _, eventReads_keys _, ?_⟩
  rw [eventKeys_keys]
  exact pendingKeys_eq p

theorem Shown.event (p : Process) (e : ProgramEvent) (hkey : eventKeys [e] = []) {k' : Kernel}
    (h : k'.console = programStep t p.pressed.console e) :
    Shown t (eventBytes [e]) (eventReads [e]) p ⟨k', p.keys.tail⟩ := by
  refine ⟨p.callKeys.all.map .key ++ [e], ?_, ?_, ?_, ?_⟩
  · rw [List.foldl_append, ← typeKeys_eq]
    exact h
  · rw [eventBytes, List.flatMap_append, ← eventBytes, eventBytes_keys, List.nil_append, eventBytes]
  · rw [eventReads, List.countP_append, ← eventReads, eventReads_keys, Nat.zero_add, eventReads]
  · rw [eventKeys, List.filterMap_append, ← eventKeys, ← eventKeys, eventKeys_keys, hkey, List.append_nil]
    exact pendingKeys_eq p

theorem displayTerminal_typeKeys {s : Console} {keys : List Nat} (h : ∀ c ∈ keys, c ∉ [f1Key, f2Key, f3Key]) :
    (typeKeys s keys).displayTerminal = s.displayTerminal := by
  induction keys generalizing s with
  | nil => rfl
  | cons c keys ih =>
      have hstep : (keyboardHandler s [c]).displayTerminal = s.displayTerminal := by
        rw [keyboardHandler_single]
        by_contra hne
        exact h c List.mem_cons_self (displayTerminal_keyboardStep hne).2
      exact (ih fun c' hc' => h c' (List.mem_cons_of_mem _ hc')).trans hstep

/-- While no key switches terminals, a write with keys between its bytes is a write of each byte and the keys. -/
theorem keyedPuts_events {s : Console} {direct : Bool} (hdirect : decide (t = s.displayTerminal) = direct)
    (buf : List UInt8) {keys : List (List Nat)} (hstays : ∀ c ∈ keys.flatten, c ∉ [f1Key, f2Key, f3Key]) :
    ∃ es, keyedPuts t direct s buf keys = es.foldl (programStep t) s ∧ eventBytes es = buf ∧ eventReads es = 0 ∧
      eventKeys es = keys.flatten := by
  induction buf generalizing s keys with
  | nil => exact ⟨_, typeKeys_eq t _ _, eventBytes_keys _, eventReads_keys _, eventKeys_keys _⟩
  | cons b buf ih =>
      rw [flatten_headD] at hstays ⊢
      have hfirst : writeStep t direct s (.char b) = programStep t s (.write [b]) := by
        rw [← hdirect]
        exact interruptedWrite_chars t s [b]
      have hshown : (typeKeys (writeStep t direct s (.char b)) (keys.headD [])).displayTerminal = s.displayTerminal :=
        (displayTerminal_typeKeys fun c hc => hstays c (List.mem_append_left _ hc)).trans
          (displayTerminal_char t direct s b)
      obtain ⟨es, hes, hbytes, hreads, hkeys⟩ := ih (by rw [hshown, hdirect])
        fun c hc => hstays c (List.mem_append_right _ hc)
      refine ⟨.write [b] :: ((keys.headD []).map .key ++ es), ?_, ?_, ?_, ?_⟩
      · rw [keyedPuts, hes, List.foldl_cons, List.foldl_append, ← typeKeys_eq, hfirst]
      · rw [eventBytes, List.flatMap_cons, List.flatMap_append, ← eventBytes, ← eventBytes, eventBytes_keys, hbytes]
        rfl
      · rw [eventReads, List.countP_cons_of_neg Bool.false_ne_true, List.countP_append, ← eventReads, ← eventReads,
          eventReads_keys, hreads]
      · rw [eventKeys, List.filterMap_cons_none rfl, List.filterMap_append, ← eventKeys, ← eventKeys, eventKeys_keys,
          hkeys]

theorem clearKeyboardBuf_feeds (s : Console) (t : Term) : Feeds s (clearKeyboardBuf s) t [] :=
  SameDisplay.feeds ⟨rfl, rfl, rfl, rfl, rfl, rfl⟩ t

/-- While no key is pressed the terminal is fed what was written, and the others nothing. -/
theorem Shown.feeds {bytes : List UInt8} {reads : Nat} {p p' : Process} (h : Shown t bytes reads p p')
    (hquiet : pendingKeys p.keys = []) : Feeds p.kernel.console p'.kernel.console t bytes := by
  obtain ⟨es, hes, rfl, -, hkeys⟩ := h
  have hnone : eventKeys es = [] := by
    rw [hquiet] at hkeys
    exact (List.append_eq_nil_iff.mp hkeys.symm).1
  rw [hes]
  clear hes hkeys hquiet
  generalize p.kernel.console = s
  -- along the events, none of which is a key
  induction es generalizing s with
  | nil => exact Feeds.refl s t
  | cons e es ih =>
      cases e with
      | key pressed => cases hnone
      | write buf => exact (termWrite_feeds t s buf).trans (ih hnone _)
      | readLine => exact (clearKeyboardBuf_feeds s t).trans (ih hnone _)

/-! ### Calls of a process on its terminal -/

/-- The running process is the one at the front of the queue, and `t` is its terminal. -/
structure OnTerminal (t : Term) (k : Kernel) : Prop where
  front : pqPeak k.processQ = k.currentPblock
  number : k.mem.load32 (k.currentPblock + 60) = t

/-- Only memory of the running process changed, its control block from the descriptors on, besides the console and
the directory counter. -/
structure OwnChanges (k k' : Kernel) : Prop where
  count : k'.processCount = k.processCount
  shells : k'.primaryShellCount = k.primaryShellCount
  queue : k'.processQ = k.processQ
  pd : k'.pdUser = k.pdUser
  stack : k'.tssEsp0 = k.tssEsp0
  block : ∀ i < 64, k'.mem (k.currentPblock + i) = k.mem (k.currentPblock + i)
  others : ∀ x, ¬ SetUpFor k.processCount x → k'.mem x = k.mem x

theorem OwnChanges.currentPblock_eq (h : OwnChanges k k') : k'.currentPblock = k.currentPblock := by
  rw [Kernel.currentPblock, Kernel.currentPblock, h.count]

theorem OwnChanges.trans {k1 k2 k3 : Kernel} (h : OwnChanges k1 k2) (h' : OwnChanges k2 k3) : OwnChanges k1 k3 where
  count := h'.count.trans h.count
  shells := h'.shells.trans h.shells
  queue := h'.queue.trans h.queue
  pd := h'.pd.trans h.pd
  stack := h'.stack.trans h.stack
  block := fun i hi => by rw [← h.block i hi, ← h.currentPblock_eq, h'.block i hi]
  others := fun x hx => by rw [h'.others x (by rwa [h.count]), h.others x hx]

theorem OwnChanges.of_same (k : Kernel) (console : Console) (dirReadCount : Nat) :
    OwnChanges k { k with console := console, dirReadCount := dirReadCount } :=
  ⟨rfl, rfl, rfl, rfl, rfl, fun _ _ => rfl, fun _ _ => rfl⟩

theorem OwnChanges.of_mem {m : Mem} (hblock : ∀ i < 64, m (k.currentPblock + i) = k.mem (k.currentPblock + i))
    (hothers : ∀ x, ¬ SetUpFor k.processCount x → m x = k.mem x) : OwnChanges k (withMem k m) :=
  ⟨rfl, rfl, rfl, rfl, rfl, hblock, hothers⟩

theorem OwnChanges.trans_mem {m m' : Mem} (h : OwnChanges k (withMem k m))
    (h' : OwnChanges (withMem k m) (withMem (withMem k m) m')) : OwnChanges k (withMem k m') := h.trans h'

theorem ownChanges_user (hrun : Running k) {a : Nat} {bs : List UInt8} (ha : UserBuffer a bs.length) :
    OwnChanges k (withMem k (k.mem.writeBytes (k.userPhys a) bs)) := by
  obtain ⟨hpcb, hhigh, hframe⟩ := hrun.pcb_range
  have hbase := hrun.pdeBase_eq
  have hlow := ha.low
  have hphys : k.userPhys a = pdeBase k.pdUser + (a - addr128MB) := rfl
  have hone := hrun.one
  refine OwnChanges.of_mem (fun i hi => Mem.writeBytes_of_outside (.inl ?_)) fun x hx =>
    Mem.writeBytes_of_outside ?_
  · simp only [addr8KB] at hhigh
    omega
  · rcases ha.high with hzero | hhigh'
    · omega
    · by_contra hin
      refine hx (.inl ?_)
      simp only [frameBase, addr4MB, addr128MB] at *
      omega

theorem ownChanges_slot {fd : Nat} (hfd : fd < opsSize) {m : Mem} (h : OnlySlot k.currentPblock fd k.mem m) :
    OwnChanges k (withMem k m) := by
  simp only [opsSize] at hfd
  refine OwnChanges.of_mem (fun i hi => h _ (.inl ?_)) fun x hx => h x ?_
  · simp only [fdeOffset]
    omega
  · by_contra hin
    refine hx (.inr ?_)
    simp only [Kernel.currentPblock, fdeOffset, pcbSize] at *
    omega

theorem OnTerminal.of_own (h : OnTerminal t k) (hown : OwnChanges k k') : OnTerminal t k' := by
  refine ⟨by rw [hown.queue, hown.currentPblock_eq, h.front], ?_⟩
  rw [hown.currentPblock_eq, ← h.number]
  refine Mem.load32_congr fun i hi => ?_
  rw [Nat.add_assoc]
  exact hown.block _ (by omega)

theorem OnTerminal.activeTerm_eq (h : OnTerminal t k) (hrun : Running k) : activeTerm k = .ok t := by
  obtain ⟨hlow, hhigh, -⟩ := hrun.pcb_range
  have hfetch : pqGetActiveTerm k = .ok (t : Nat) := by
    have := hrun.one
    rw [pqGetActiveTerm, if_pos (by omega), h.front, ← h.number]
    simp only [addr8KB] at hhigh
    exact fetch32_kernel k (by omega) (by omega)
  rw [activeTerm, hfetch, ok_bind, dif_pos t.isLt]

theorem sysWriteWith_terminal (write : Term → Console → List UInt8 → Console) {table : Nat → Option Nat}
    (h : Serves fops fs table k) (ht : OnTerminal t k) {buf n : Nat} {bytes : List UInt8} (hnull : buf ≠ 0)
    (hfetch : k.fetch buf n = .ok bytes) :
    sysWriteWith write fops k 1 buf n = .ok ({ k with console := write t k.console bytes }, 0) := by
  obtain ⟨huse, hfop⟩ := h.table.terminal 1 (by decide)
  have hkind : fopsAt fops fops.terminal = .ok .terminal := fopsAt_addr fops .terminal
  rw [show (1 : Int) = ((1 : Nat) : Int) from rfl, sysWriteWith_eq write h.running (by decide) hnull,
    if_pos ⟨by omega, by decide⟩, hfop, hkind, ok_bind, callWrite, writeTerminal, ht.activeTerm_eq h.running,
    ok_bind, Int.toNat_natCast, hfetch, ok_bind]
  rfl

theorem Process.call_eq {p : Process} {f : Kernel → Except Fault (Kernel × Int)} {k' : Kernel} {ret : Int}
    (h : f p.pressed = .ok (k', ret)) : p.call f = .ok (⟨k', p.keys.tail⟩, ret) := by
  rw [Process.call, h]
  rfl

theorem OnlyConsole.keeps (h : OnlyConsole k k') :
    KeepsKernelPage k k' ∧ k'.dirReadCount = k.dirReadCount := by
  obtain ⟨console, rfl⟩ := h
  exact ⟨KeepsKernelPage.of_same k console k.dirReadCount, rfl⟩

theorem OnlyConsole.own (h : OnlyConsole k k') : OwnChanges k k' := by
  obtain ⟨console, rfl⟩ := h
  exact OwnChanges.of_same k console k.dirReadCount

theorem OnlyConsole.onTerminal (h : OnlyConsole k k') (ht : OnTerminal t k) : OnTerminal t k' := ht.of_own h.own

theorem OnlyConsole.serves {table : Nat → Option Nat} (h : OnlyConsole k k') (hs : Serves fops fs table k) :
    Serves fops fs table k' := by
  obtain ⟨console, rfl⟩ := h
  exact hs.of_same console k.dirReadCount

theorem OnlyConsole.mem_eq (h : OnlyConsole k k') : k'.mem = k.mem ∧ k'.userPhys = k.userPhys := by
  obtain ⟨console, rfl⟩ := h
  exact ⟨rfl, rfl⟩

theorem onlyConsole_pressed (p : Process) : OnlyConsole p.kernel p.pressed := ⟨_, rfl⟩

theorem onlyConsole_entered (p : Process) : OnlyConsole p.kernel p.entered := ⟨_, rfl⟩

/-- The process behind a write of `bytes`. -/
def Process.wrote (p : Process) (t : Term) (bytes : List UInt8) : Process :=
  ⟨{ p.entered with console := keyedWrite p.callKeys.inside t p.entered.console bytes }, p.keys.tail⟩

theorem printed_wrote (p : Process) (bytes : List UInt8) : Printed t bytes p (p.wrote t bytes) := by
  obtain ⟨es, hes, hbytes, hreads, hkeys⟩ := keyedPuts_events (t := t) (s := p.entered.console) rfl bytes p.callKeys.stays
  refine ⟨p.callKeys.before.map .key ++ es, ?_, ?_, ?_, ?_⟩
  · rw [List.foldl_append, ← typeKeys_eq]
    exact hes
  · rw [eventBytes, List.flatMap_append, ← eventBytes, ← eventBytes, eventBytes_keys, hbytes, List.nil_append]
  · rw [eventReads, List.countP_append, ← eventReads, ← eventReads, eventReads_keys, hreads]
  · rw [eventKeys, List.filterMap_append, ← eventKeys, ← eventKeys, eventKeys_keys, hkeys]
    exact pendingKeys_eq p

theorem onlyConsole_wrote (p : Process) (bytes : List UInt8) : OnlyConsole p.kernel (p.wrote t bytes).kernel := ⟨_, rfl⟩

theorem Process.write_eq {table : Nat → Option Nat} {p : Process} (h : Serves fops fs table p.kernel)
    (ht : OnTerminal t p.kernel) {buf : Nat} {bytes : List UInt8} (hrange : RangeInPage buf bytes.length)
    (hnull : buf ≠ 0) (hbytes : p.kernel.mem.readBytes (p.kernel.userPhys buf) bytes.length = bytes) :
    p.write fops 1 buf bytes.length = .ok (p.wrote t bytes, 0) := by
  have hentered := onlyConsole_entered p
  have hserves := hentered.serves h
  have hfetch : p.entered.fetch buf bytes.length = .ok bytes := by
    rw [fetch_user hserves.running hrange, hentered.mem_eq.1, hentered.mem_eq.2, hbytes]
  rw [Process.write, sysWriteWith_terminal _ hserves (hentered.onTerminal ht) hnull hfetch, ok_bind]
  rfl

/-- A text in the user page. -/
structure HoldsText (k : Kernel) (a : Nat) (text : List UInt8) : Prop where
  low : addr128MB ≤ a
  high : a + text.length < addr128MB + addr4MB
  holds : k.mem.HoldsString (k.userPhys a) text

theorem HoldsText.userString_eq {a : Nat} {text : List UInt8} (h : HoldsText k a text) : k.userString a = text := by
  have := h.high
  exact h.holds.cstr_eq (by omega)

theorem ece391Fdputs_eq {table : Nat → Option Nat} {p : Process} (h : Serves fops fs table p.kernel)
    (ht : OnTerminal t p.kernel) {a : Nat} {text : List UInt8} (htext : HoldsText p.kernel a text) :
    ece391Fdputs fops p 1 a = .ok (p.wrote t text) := by
  have hlow := htext.low
  have hhigh := htext.high
  have hbytes : p.kernel.mem.readBytes (p.kernel.userPhys a) text.length = text := by
    refine List.ext_getElem (by simp) fun i hi hi' => ?_
    rw [Mem.getElem_readBytes]
    exact htext.holds.bytes i hi'
  have hwrite := Process.write_eq h ht (fun j hj => ⟨by omega, by omega⟩)
    (by simp only [addr128MB] at hlow; omega) hbytes
  rw [ece391Fdputs, htext.userString_eq, hwrite]
  rfl

/-- What the reads of a loop deliver. In a state with `P rest` the terminal is still to be written `rest`: a read
returns the next part of it, up to an `ending`, and after the last part a read returns 0 and leaves the directory
counter at 0. -/
structure Delivers (fops : FopsTables) (fs : FileSys) (fd buf size : Nat) (ending : List UInt8)
    (P : List UInt8 → Kernel → Prop) : Prop where
  serves : ∀ {rest k}, P rest k → ∃ table, Serves fops fs table k
  keeps : ∀ {rest k k'}, P rest k → KeepsKernelPage k k' → k'.dirReadCount = k.dirReadCount → P rest k'
  next : ∀ {rest k} staleInode, P rest k → rest ≠ [] → ∃ c rest' k', c ≠ [] ∧ rest = c ++ ending ++ rest' ∧
    UserBuffer buf (c.length + ending.length) ∧ sysRead fops fs k fd buf size staleInode = .ok (k', c.length) ∧
    OwnChanges k k' ∧ k'.console = k.console ∧ k'.mem.readBytes (k'.userPhys buf) c.length = c ∧ P rest' k'
  finish : ∀ {k} staleInode, P [] k → ∃ k', sysRead fops fs k fd buf size staleInode = .ok (k', 0) ∧
    OwnChanges k k' ∧ k'.console = k.console ∧ k'.dirReadCount = 0

theorem readBytes_behind {m : Mem} {a : Nat} {bs : List UInt8} (h : m.readBytes a bs.length = bs) (cs : List UInt8) :
    (m.writeBytes (a + bs.length) cs).readBytes a (bs.length + cs.length) = bs ++ cs := by
  have hfirst : (m.writeBytes (a + bs.length) cs).readBytes a bs.length = m.readBytes a bs.length :=
    Mem.readBytes_congr fun i hi => Mem.writeBytes_of_outside (.inl (by omega))
  have hsecond : (m.writeBytes (a + bs.length) cs).readBytes (a + bs.length) cs.length = cs := by
    simpa using Mem.readBytes_writeBytes m (a + bs.length) cs []
  rw [Mem.readBytes_add, hfirst, hsecond, h]

section Loop

variable {fd buf size : Nat} {ending : List UInt8} {P : List UInt8 → Kernel → Prop}

theorem dirReadCount_withMem (k : Kernel) (m : Mem) : (withMem k m).dirReadCount = k.dirReadCount := rfl

theorem console_withMem (k : Kernel) (m : Mem) : (withMem k m).console = k.console := rfl

theorem store_ending (hrun : Running k) {c ending : List UInt8} (hbuf : UserBuffer buf (c.length + ending.length))
    (hc : c ≠ []) (hbytes : k.mem.readBytes (k.userPhys buf) c.length = c) :
    ∃ m, k.store (buf + c.length) ending = .ok (withMem k m) ∧ KeepsKernelPage k (withMem k m) ∧
      OwnChanges k (withMem k m) ∧ m.readBytes (k.userPhys buf) (c ++ ending).length = c ++ ending := by
  have hcpos : 0 < c.length := List.length_pos_iff.mpr hc
  have hlow := hbuf.low
  have hend : UserBuffer (buf + c.length) ending.length := by
    refine ⟨by omega, ?_⟩
    rcases hbuf.high with hzero | hhigh
    · omega
    · exact .inr (by omega)
  have hphys : k.userPhys (buf + c.length) = k.userPhys buf + c.length := by
    simp only [Kernel.userPhys]
    omega
  have hkeeps : KeepsKernelPage k (withMem k (k.mem.writeBytes (k.userPhys (buf + c.length)) ending)) :=
    KeepsKernelPage.writeBytes k ending (Nat.le_add_right _ _)
  refine ⟨_, hend.store hrun, hkeeps, ownChanges_user hrun hend, ?_⟩
  rw [hphys, List.length_append]
  exact readBytes_behind hbytes ending

theorem catLoop_next (readFailed staleInode : Nat) (h : Delivers fops fs fd buf size ending P) {rest : List UInt8}
    {p : Process} (hP : P rest p.kernel) (ht : OnTerminal t p.kernel) (hrest : rest ≠ []) (fuel : Nat) :
    ∃ c rest' p', c ≠ [] ∧ rest = c ++ ending ++ rest' ∧
      catLoop fops fs fd buf size readFailed ending staleInode (fuel + 1) p =
        catLoop fops fs fd buf size readFailed ending staleInode fuel p' ∧
      Printed t (c ++ ending) p p' ∧ P rest' p'.kernel ∧ OwnChanges p.kernel p'.kernel := by
  have hpressed := onlyConsole_pressed p
  obtain ⟨c, rest', k1, hc, hsplit, hbuf, hread, hown, hconsole, hbytes, hnext⟩ :=
    h.next staleInode (h.keeps hP hpressed.keeps.1 hpressed.keeps.2) hrest
  obtain ⟨table, hserves⟩ := h.serves hnext
  obtain ⟨m, hstore, hkeeps, hown2, hbytes2⟩ := store_ending hserves.running hbuf hc hbytes
  have hnext2 := h.keeps hnext hkeeps (dirReadCount_withMem k1 m)
  obtain ⟨table2, hserves2⟩ := h.serves hnext2
  have hownall := (hpressed.own.trans hown).trans hown2
  have hcpos : 0 < c.length := List.length_pos_iff.mpr hc
  have hlow := hbuf.low
  have hrange : RangeInPage buf (c ++ ending).length := by
    intro j hj
    rw [List.length_append] at hj
    rcases hbuf.high with hzero | hhigh
    · omega
    · exact ⟨by omega, by omega⟩
  have hwrite := Process.write_eq (p := ⟨withMem k1 m, p.keys.tail⟩) hserves2 (ht.of_own hownall) hrange
    (by simp only [addr128MB] at hlow; omega) hbytes2
  have hsame := onlyConsole_wrote (t := t) ⟨withMem k1 m, p.keys.tail⟩ (c ++ ending)
  refine ⟨c, rest', _, hc, hsplit, ?_, ?_, h.keeps hnext2 hsame.keeps.1 hsame.keeps.2, hownall.trans hsame.own⟩
  · have htoNat : (buf + (c.length : Int)).toNat = buf + c.length := by omega
    have hlength : (c.length : Int) + ending.length = ((c ++ ending).length : Nat) := by simp
    rw [catLoop, Process.call_eq hread, ok_bind]
    simp only
    rw [if_neg (by omega), if_neg (by omega), htoNat, hstore, ok_bind, hlength, hwrite, ok_bind]
    simp only
    rw [if_neg (by decide)]
  · have hquiet : Printed t [] p ⟨withMem k1 m, p.keys.tail⟩ :=
      Printed.quiet p ((console_withMem k1 m).trans hconsole)
    exact hquiet.trans (printed_wrote _ _)

theorem catLoop_prints (readFailed staleInode : Nat) (h : Delivers fops fs fd buf size ending P) (fuel : Nat)
    {rest : List UInt8} {p : Process} (hP : P rest p.kernel) (ht : OnTerminal t p.kernel) (hfuel : rest.length < fuel) :
    ∃ p', catLoop fops fs fd buf size readFailed ending staleInode fuel p = .ok (some (p', 0)) ∧
      Printed t rest p p' ∧ OwnChanges p.kernel p'.kernel ∧ p'.kernel.dirReadCount = 0 := by
  induction fuel generalizing rest p with
  | zero => omega
  | succ fuel ih =>
      by_cases hrest : rest = []
      · subst hrest
        have hpressed := onlyConsole_pressed p
        obtain ⟨k1, hread, hown, hconsole, hend⟩ :=
          h.finish staleInode (h.keeps hP hpressed.keeps.1 hpressed.keeps.2)
        refine ⟨⟨k1, p.keys.tail⟩, ?_, Printed.quiet p hconsole, hpressed.own.trans hown, hend⟩
        rw [catLoop, Process.call_eq hread, ok_bind]
        simp only
        rw [if_pos trivial, pure_eq_ok]
      · obtain ⟨c, rest', p1, hc, rfl, hloop, hprinted, hnext, hown⟩ :=
          catLoop_next readFailed staleInode h hP ht hrest fuel
        have hcpos : 0 < c.length := List.length_pos_iff.mpr hc
        simp only [List.length_append] at hfuel
        obtain ⟨p', hrun, hprinted', hown', hend⟩ := ih hnext (ht.of_own hown) (by omega)
        exact ⟨p', hloop.trans hrun, hprinted.trans hprinted', hown.trans hown', hend⟩

end Loop

section Sources

variable {fd i buf : Nat}

/-- `rest` is what is left of the file that the descriptor was opened on. -/
def FileRest (fops : FopsTables) (fs : FileSys) (fd i : Nat) (rest : List UInt8) (k : Kernel) : Prop :=
  k.dirReadCount = 0 ∧ ∃ st got, Streams fops fs st k ∧ st fd = some ⟨i, got⟩ ∧
    contents fs (fs.entryInode i) = got ++ rest

/-- What a read delivers is the start of what is left. -/
theorem next_of_rest {got rest : List UInt8} (hrest : contents fs (fs.entryInode i) = got ++ rest) (n : Nat) :
    rest = Stream.next fs ⟨i, got⟩ n ++ rest.drop (min n rest.length) := by
  have hlength := congrArg List.length hrest
  rw [length_contents, List.length_append] at hlength
  have htake : rest = (contents fs (fs.entryInode i)).drop got.length := by rw [hrest, List.drop_left]
  have hnext : Stream.next fs ⟨i, got⟩ n = rest.take (min n rest.length) := by
    refine List.ext_getElem ?_ fun j hj hj' => ?_
    · rw [Stream.length_next, List.length_take, Stream.size]
      simp only
      omega
    · simp only [Stream.next, fileSlice, List.getElem_map, List.getElem_range, List.getElem_take, htake, contents,
        List.getElem_drop, Nat.zero_add]
  rw [hnext, List.take_append_drop]

theorem readMem_spec (hrun : Running k) (hhigh : fd < opsSize) {c : List UInt8} (hbuf : UserBuffer buf c.length)
    (pos : Nat) : OwnChanges k (withMem k (readMem k fd buf pos c)) ∧
      (readMem k fd buf pos c).readBytes (k.userPhys buf) c.length = c := by
  obtain ⟨-, hpcb, hframe⟩ := hrun.pcb_range
  have hbase : pdeBase k.pdUser ≤ k.userPhys buf := Nat.le_add_right _ _
  have hstored := ownChanges_user hrun hbuf
  constructor
  · have hslot : OnlySlot k.currentPblock fd (k.mem.writeBytes (k.userPhys buf) c) (readMem k fd buf pos c) :=
      (OnlySlot.refl k.currentPblock fd (k.mem.writeBytes (k.userPhys buf) c)).store32 40 (pos + c.length) (by decide)
    rw [← mem_withMem k (k.mem.writeBytes (k.userPhys buf) c),
      ← currentPblock_withMem k (k.mem.writeBytes (k.userPhys buf) c)] at hslot
    exact hstored.trans_mem (ownChanges_slot hhigh hslot)
  · have hsame : (readMem k fd buf pos c).readBytes (k.userPhys buf) c.length =
        (k.mem.writeBytes (k.userPhys buf) c).readBytes (k.userPhys buf) c.length := by
      refine Mem.readBytes_congr fun j hj => Mem.store32_of_outside _ (.inr ?_)
      simp only [filePosAddr, fdeOffset, opsSize, addr8KB] at *
      omega
    rw [hsame]
    simpa using Mem.readBytes_writeBytes k.mem (k.userPhys buf) c []

theorem read_fileRest (himg : ImageOk fs) (hlow : 2 ≤ fd) (hhigh : fd < opsSize) (htype : fs.entryType i = 2)
    {size : Nat} (hsize : size < 2 ^ 31) (hbuf : UserBuffer buf size) {rest : List UInt8}
    (h : FileRest fops fs fd i rest k) (staleInode : Nat) :
    ∃ c m, c.length = min size rest.length ∧ rest = c ++ rest.drop (min size rest.length) ∧
      sysRead fops fs k fd buf size staleInode = .ok (withMem k m, c.length) ∧ OwnChanges k (withMem k m) ∧
      m.readBytes (k.userPhys buf) c.length = c ∧
      FileRest fops fs fd i (rest.drop (min size rest.length)) (withMem k m) := by
  obtain ⟨hcount, st, got, hst, hfd, hsplit⟩ := h
  have hnext := next_of_rest hsplit size
  have hlength := congrArg List.length hsplit
  rw [length_contents, List.length_append] at hlength
  have hclen : (Stream.next fs ⟨i, got⟩ size).length = min size rest.length := by
    rw [Stream.length_next, Stream.size]
    simp only
    omega
  have hroom : UserBuffer buf (Stream.next fs ⟨i, got⟩ size).length := by
    refine ⟨hbuf.low, ?_⟩
    rcases hbuf.high with hzero | hhigh'
    · exact .inl (by omega)
    · exact .inr (by omega)
  obtain ⟨hown, hbytes⟩ := readMem_spec hst.serves.running hhigh hroom got.length
  refine ⟨_, _, hclen, hnext, sysRead_stream hst himg hlow hhigh hfd htype hsize hroom staleInode, hown, hbytes,
    hcount, _, _, hst.read himg hlow hhigh hfd htype, Function.update_self _ _ _, ?_⟩
  rw [hsplit, List.append_assoc]
  exact congrArg (got ++ ·) hnext

theorem delivers_file (himg : ImageOk fs) (hlow : 2 ≤ fd) (hhigh : fd < opsSize) (htype : fs.entryType i = 2)
    {size : Nat} (hsize : size < 2 ^ 31) (hpos : 0 < size) (hbuf : UserBuffer buf size) :
    Delivers fops fs fd buf size [] (FileRest fops fs fd i) where
  serves := by
    rintro rest k ⟨-, st, got, hst, -, -⟩
    exact ⟨_, hst.serves⟩
  keeps := by
    rintro rest k k' ⟨hcount, st, got, hst, hfd, hsplit⟩ hkeeps hsame
    exact ⟨hsame.trans hcount, st, got, hst.of_keeps himg hkeeps, hfd, hsplit⟩
  next := by
    intro rest k staleInode h hne
    obtain ⟨c, m, hclen, hsplit, hread, hown, hbytes, hnext⟩ :=
      read_fileRest himg hlow hhigh htype hsize hbuf h staleInode
    have hrest : 0 < rest.length := List.length_pos_iff.mpr hne
    refine ⟨c, _, _, List.length_pos_iff.mp (by omega), by rwa [List.append_nil], ⟨hbuf.low, ?_⟩, hread, hown,
      console_withMem k m, by rwa [mem_withMem, userPhys_withMem], hnext⟩
    rcases hbuf.high with hzero | hhigh'
    · exact .inl (by simp only [List.length_nil]; omega)
    · exact .inr (by simp only [List.length_nil]; omega)
  finish := by
    intro k staleInode h
    obtain ⟨c, m, hclen, -, hread, hown, -, hcount, -⟩ := read_fileRest himg hlow hhigh htype hsize hbuf h staleInode
    have hzero : c.length = 0 := by simpa using hclen
    rw [hzero] at hread
    exact ⟨_, hread, hown, console_withMem k m, hcount⟩

/-- The names from the counter's place on, each with `ending` behind it, are left of the listing. -/
def NamesRest (fops : FopsTables) (fs : FileSys) (ending : List UInt8) (fd i : Nat) (rest : List UInt8)
    (k : Kernel) : Prop :=
  ∃ table, Serves fops fs table k ∧ table fd = some i ∧
    rest = (List.range' k.dirReadCount (fs.info.numDirEntries - k.dirReadCount)).flatMap
      fun j => fs.entryName j ++ ending

theorem ImageOk.namesOk (himg : ImageOk fs) : NamesOk fs :=
  ⟨himg.count, fun j hj => ⟨himg.nonempty j hj, himg.names j hj⟩⟩

theorem Serves.directoryOpen {table : Nat → Option Nat} (h : Serves fops fs table k) (hlow : 2 ≤ fd)
    (hhigh : fd < opsSize) (hfd : table fd = some i) (htype : fs.entryType i = 1) : DirectoryOpen fops k fd := by
  obtain ⟨-, huse, hfop, -⟩ := h.table.opened fd i hlow hhigh hfd
  refine ⟨h.running, hlow, hhigh, huse, ?_⟩
  rw [hfop, htype]
  rfl

theorem UserBuffer.ne_null {n : Nat} (h : UserBuffer buf n) : buf ≠ 0 := by
  have := h.low
  simp only [addr128MB] at this
  omega

theorem read_namesRest (himg : ImageOk fs) (hlow : 2 ≤ fd) (hhigh : fd < opsSize) (htype : fs.entryType i = 1)
    {table : Nat → Option Nat} (h : Serves fops fs table k) (hfd : table fd = some i)
    (hlt : k.dirReadCount < fs.info.numDirEntries)
    (hbuf : UserBuffer buf (fs.entryName k.dirReadCount ++ [0]).length) (size : Int) (staleInode : Nat) :
    ∃ m, sysRead fops fs k fd buf size staleInode =
        .ok ({ withMem k m with dirReadCount := k.dirReadCount + 1 }, (fs.entryName k.dirReadCount).length) ∧
      OwnChanges k (withMem k m) ∧ KeepsKernelPage k (withMem k m) ∧
      m.readBytes (k.userPhys buf) (fs.entryName k.dirReadCount).length = fs.entryName k.dirReadCount := by
  have hrun := h.running
  have hrun' : Running { k with dirReadCount := k.dirReadCount + 1 } := ⟨hrun.one, hrun.max, hrun.frame⟩
  have hstore := hbuf.store hrun'
  have hphys : Kernel.userPhys { k with dirReadCount := k.dirReadCount + 1 } buf = k.userPhys buf := rfl
  rw [hphys] at hstore
  refine ⟨k.mem.writeBytes (k.userPhys buf) (fs.entryName k.dirReadCount ++ [0]), ?_, ownChanges_user hrun hbuf,
    KeepsKernelPage.writeBytes k _ (Nat.le_add_right _ _), Mem.readBytes_writeBytes _ _ _ _⟩
  rw [sysRead_directory (h.directoryOpen hlow hhigh hfd htype) hbuf.ne_null,
    readDirectory_name himg.namesOk.entries hlt, hstore, ok_bind, withMem]

theorem read_namesEnd (himg : ImageOk fs) (hlow : 2 ≤ fd) (hhigh : fd < opsSize) (htype : fs.entryType i = 1)
    {table : Nat → Option Nat} (h : Serves fops fs table k) (hfd : table fd = some i)
    (hge : ¬ k.dirReadCount < fs.info.numDirEntries) (hnull : buf ≠ 0) (size : Int) (staleInode : Nat) :
    sysRead fops fs k fd buf size staleInode = .ok ({ k with dirReadCount := 0 }, 0) := by
  rw [sysRead_directory (h.directoryOpen hlow hhigh hfd htype) hnull, readDirectory_end himg.namesOk.entries hge]

theorem delivers_directory (himg : ImageOk fs) (hlow : 2 ≤ fd) (hhigh : fd < opsSize) (htype : fs.entryType i = 1)
    {ending : List UInt8} (hending : ending.length ≤ 1) {size : Nat} (hbuf : UserBuffer buf sbufSize) :
    Delivers fops fs fd buf size ending (NamesRest fops fs ending fd i) where
  serves := by
    rintro rest k ⟨table, hserves, -, -⟩
    exact ⟨table, hserves⟩
  keeps := by
    rintro rest k k' ⟨table, hserves, hfd, hrest⟩ hkeeps hcount
    exact ⟨table, hserves.of_keeps himg.toDirectoryOk hkeeps, hfd, by rw [hcount, hrest]⟩
  next := by
    rintro rest k staleInode ⟨table, hserves, hfd, hrest⟩ hne
    have hlt : k.dirReadCount < fs.info.numDirEntries := by
      by_contra hge
      rw [show fs.info.numDirEntries - k.dirReadCount = 0 by omega] at hrest
      exact hne hrest
    obtain ⟨hname, hshort⟩ := himg.namesOk.names _ hlt
    have hroom : ∀ n ≤ 32, UserBuffer buf n := by
      intro n hn
      refine ⟨hbuf.low, .inr ?_⟩
      rcases hbuf.high with hzero | hhigh'
      · cases hzero
      · simp only [sbufSize] at hhigh'
        omega
    simp only [fnameLength] at hshort
    obtain ⟨m, hread, hown, hkeeps, hbytes⟩ := read_namesRest himg hlow hhigh htype hserves hfd hlt
      (hroom _ (by rw [List.length_append, List.length_singleton]; omega)) size staleInode
    refine ⟨_, (List.range' (k.dirReadCount + 1) (fs.info.numDirEntries - (k.dirReadCount + 1))).flatMap
      fun j => fs.entryName j ++ ending, _, hname, ?_, hroom _ (by omega), hread,
      hown.trans (OwnChanges.of_same _ k.console _), rfl, hbytes, table, ?_, hfd, rfl⟩
    · rw [hrest, show fs.info.numDirEntries - k.dirReadCount =
        fs.info.numDirEntries - (k.dirReadCount + 1) + 1 by omega, List.range'_succ, List.flatMap_cons]
    · exact (hserves.of_keeps himg.toDirectoryOk hkeeps).of_same k.console _
  finish := by
    rintro k staleInode ⟨table, hserves, hfd, hrest⟩
    have hge : ¬ k.dirReadCount < fs.info.numDirEntries := by
      intro hlt
      have hmem := List.flatMap_eq_nil_iff.mp hrest.symm k.dirReadCount (by rw [List.mem_range'_1]; omega)
      exact (himg.namesOk.names _ hlt).1 (List.append_eq_nil_iff.mp hmem).1
    exact ⟨{ k with dirReadCount := 0 }, read_namesEnd himg hlow hhigh htype hserves hfd hge hbuf.ne_null _ _,
      OwnChanges.of_same k k.console 0, rfl, rfl⟩

/-- Nothing is left of the clock's file: a read returns 0. -/
def ClockRest (fops : FopsTables) (fs : FileSys) (fd i : Nat) (rest : List UInt8) (k : Kernel) : Prop :=
  k.dirReadCount = 0 ∧ rest = [] ∧ ∃ table, Serves fops fs table k ∧ table fd = some i

theorem delivers_clock (himg : ImageOk fs) (hlow : 2 ≤ fd) (hhigh : fd < opsSize) (htype : fs.entryType i = 0)
    {ending : List UInt8} {size : Nat} (hnull : buf ≠ 0) :
    Delivers fops fs fd buf size ending (ClockRest fops fs fd i) where
  serves := by
    rintro rest k ⟨-, -, table, hserves, -⟩
    exact ⟨table, hserves⟩
  keeps := by
    rintro rest k k' ⟨hcount, hrest, table, hserves, hfd⟩ hkeeps hsame
    exact ⟨hsame.trans hcount, hrest, table, hserves.of_keeps himg.toDirectoryOk hkeeps, hfd⟩
  next := by
    rintro rest k staleInode ⟨-, hrest, -⟩ hne
    exact absurd hrest hne
  finish := by
    rintro k staleInode ⟨hcount, -, table, hserves, hfd⟩
    refine ⟨k, ?_, OwnChanges.of_same k k.console k.dirReadCount, rfl, hcount⟩
    rw [sysRead_opened hserves hlow hhigh hfd hnull, htype]
    rfl

end Sources

/-! ### The programs -/

/-- What `cat` prints for an entry. -/
def entryText (fs : FileSys) (i : Nat) : List UInt8 :=
  match kindOfType (fs.entryType i) with
  | .directory => (List.range fs.info.numDirEntries).flatMap fs.entryName
  | .file => contents fs (fs.entryInode i)
  | _ => []

/-- What `cat` should print and return. -/
def catResult (fs : FileSys) (arg : List UInt8) : List UInt8 × Int :=
  if arg = [] then (ascii "could not read arguments\n", 3)
  else
    match findEntry fs arg with
    | none => (ascii "file not found\n", 2)
    | some i => (entryText fs i, 0)

/-- The image of `cat` in the user page: the buffer, and the texts it does not reach. -/
structure CatLoaded (image : CatImage) (k : Kernel) : Prop where
  buffer : UserBuffer image.buf 1024
  noArguments : HoldsText k image.noArguments (ascii "could not read arguments\n")
  notFound : HoldsText k image.notFound (ascii "file not found\n")
  apart : image.notFound + 15 < image.buf ∨ image.buf + 1024 ≤ image.notFound

/-- `getargs` leaves the argument in the buffer as a string. -/
theorem getargs_string (hrun : Running k) {arg : List UInt8} (hargs : HoldsArgument k arg) (hne : arg ≠ [])
    (hplain : 0 ∉ arg) {buf : Nat} (hbuf : UserBuffer buf 1024) :
    ∃ m, getargs k buf (1024 : Nat) = .ok (withMem k m, 0) ∧ OwnChanges k (withMem k m) ∧
      KeepsKernelPage k (withMem k m) ∧ m.HoldsString (k.userPhys buf) arg ∧
      ∀ x, x < k.userPhys buf ∨ k.userPhys buf + 1024 ≤ x → m x = k.mem x := by
  obtain ⟨-, hpcb, -⟩ := hrun.pcb_range
  have hpos : 0 < arg.length := List.length_pos_iff.mpr hne
  have hfits := hargs.fits
  have hlength := hargs.length
  have hsource : argumentBufferAddr k.currentPblock + 1024 ≤ addr8MB := by
    simp only [argumentBufferAddr, addr8KB] at *
    omega
  have hrange : RangeInPage buf 1024 := by
    intro j hj
    rcases hbuf.high with hzero | hhigh
    · cases hzero
    · exact ⟨by have := hbuf.low; omega, by omega⟩
  have hcopied := getargs_copies hrun (by decide) (by omega) (by omega) hsource hrange
  have hbytes := readBytes_split k.mem (argumentBufferAddr k.currentPblock) (show arg.length + 1 ≤ 1024 by omega)
  rw [hargs.bytes] at hbytes
  generalize k.mem.readBytes (argumentBufferAddr k.currentPblock) 1024 = bytes at hcopied hbytes
  have hlen : bytes.length = 1024 := by
    rw [hbytes, List.length_append, List.length_append, Mem.length_readBytes, List.length_singleton]
    omega
  refine ⟨_, hcopied, ownChanges_user hrun (by rwa [hlen]), KeepsKernelPage.writeBytes k bytes (Nat.le_add_right _ _),
    ?_, fun x hx => Mem.writeBytes_of_outside (by rwa [hlen])⟩
  rw [hbytes, ← Mem.writeBytes_append]
  refine (Mem.holdsString_writeBytes k.mem (k.userPhys buf) hplain).congr fun j hj =>
    Mem.writeBytes_of_outside (.inl ?_)
  rw [List.length_append, List.length_singleton]
  omega

/-- A process with the table `st`, a free descriptor and no directory listing under way. -/
structure CanOpen (fops : FopsTables) (fs : FileSys) (st : Nat → Option Stream) (fd : Nat) (k : Kernel) : Prop where
  streams : Streams fops fs st k
  free : firstFree (entriesOf st) = some fd
  counter : k.dirReadCount = 0

theorem CanOpen.of_keeps {st : Nat → Option Stream} {fd : Nat} (h : CanOpen fops fs st fd k) (himg : ImageOk fs)
    (hkeeps : KeepsKernelPage k k') (hcount : k'.dirReadCount = k.dirReadCount) : CanOpen fops fs st fd k' :=
  ⟨h.streams.of_keeps himg hkeeps, h.free, hcount.trans h.counter⟩

theorem CanOpen.missing {st : Nat → Option Stream} {fd : Nat} (h : CanOpen fops fs st fd k) (himg : ImageOk fs)
    {name : List UInt8} (hplain : 0 ∉ name) (hshort : name.length < 256) (hnone : findEntry fs name = none) :
    sysOpen fops fs k name = .ok (k, -1) :=
  sysOpen_fail h.streams.serves.running himg.toDirectoryOk h.streams.serves.table hplain
    (fun halias => absurd halias.1 (by omega)) (.inr hnone)

theorem CanOpen.opened {st : Nat → Option Stream} {fd i : Nat} (h : CanOpen fops fs st fd k) (himg : ImageOk fs)
    {name : List UInt8} (hplain : 0 ∉ name) (hshort : name.length < 256) (hfind : findEntry fs name = some i) :
    ∃ m, sysOpen fops fs k name = .ok (withMem k m, fd) ∧ OwnChanges k (withMem k m) ∧
      Streams fops fs (Function.update st fd (some ⟨i, []⟩)) (withMem k m) := by
  have halias : ¬ Aliased fs name := fun halias => absurd halias.1 (by omega)
  obtain ⟨hi, -⟩ := findEntry_some hfind
  obtain ⟨-, hhigh, -⟩ := firstFree_some h.free
  have hopen := sysOpen_ok h.streams.serves.running himg.toDirectoryOk h.streams.serves.table hplain halias h.free hfind
  obtain ⟨k', hcall, hstreams⟩ := h.streams.sysOpen himg hplain halias
  rw [hopen] at hcall
  obtain ⟨hk', -⟩ := Prod.mk.inj (Except.ok.inj hcall)
  rw [← hk', streamOpen, h.free, hfind] at hstreams
  exact ⟨_, hopen, ownChanges_slot hhigh (openSlot_only himg.toDirectoryOk hi fd), hstreams⟩

theorem delivers_entry (himg : ImageOk fs) {st : Nat → Option Stream} {fd i buf : Nat} (hlow : 2 ≤ fd)
    (hhigh : fd < opsSize) (hi : i < fs.info.numDirEntries) (hbuf : UserBuffer buf 1024)
    (hstreams : Streams fops fs (Function.update st fd (some ⟨i, []⟩)) k) (hcount : k.dirReadCount = 0) :
    ∃ P, Delivers fops fs fd buf 1024 [] P ∧ P (entryText fs i) k := by
  have hself : Function.update st fd (some (⟨i, []⟩ : Stream)) fd = some ⟨i, []⟩ := Function.update_self _ _ _
  have hentry : entriesOf (Function.update st fd (some (⟨i, []⟩ : Stream))) fd = some i := by
    rw [entriesOf, hself, Option.map_some]
  have hnone : ([] : List UInt8).length ≤ 1 := Nat.zero_le 1
  have htypes := himg.types i hi
  simp only [List.mem_cons, List.not_mem_nil, or_false] at htypes
  rcases htypes with htype | htype | htype
  · refine ⟨_, delivers_clock himg hlow hhigh htype hbuf.ne_null, hcount, ?_, _, hstreams.serves, hentry⟩
    rw [entryText, htype]
    rfl
  · refine ⟨_, delivers_directory himg hlow hhigh htype hnone ⟨hbuf.low, ?_⟩, _, hstreams.serves, hentry, ?_⟩
    · rcases hbuf.high with hzero | hhigh'
      · cases hzero
      · exact .inr (by simp only [sbufSize]; omega)
    · rw [entryText, htype, hcount, Nat.sub_zero, ← List.range_eq_range']
      simp [kindOfType]
  · refine ⟨_, delivers_file himg hlow hhigh htype (by decide) (by decide) hbuf, hcount, _, [], hstreams, hself, ?_⟩
    rw [entryText, htype, List.nil_append]
    rfl

theorem fails_with {table : Nat → Option Nat} {p : Process} (h : Serves fops fs table p.kernel)
    (ht : OnTerminal t p.kernel) {a : Nat} {text : List UInt8} (htext : HoldsText p.kernel a text) (ret : Int) :
    ∃ p', (ece391Fdputs fops p 1 a >>= fun p' => pure (some (p', ret)) : Except Fault (Option (Process × Int))) =
        .ok (some (p', ret)) ∧ Printed t text p p' ∧ OwnChanges p.kernel p'.kernel ∧
      p'.kernel.dirReadCount = p.kernel.dirReadCount := by
  have hsame := onlyConsole_wrote (t := t) p text
  exact ⟨p.wrote t text, by rw [ece391Fdputs_eq h ht htext]; rfl, printed_wrote p text, hsame.own, hsame.keeps.2⟩

theorem HoldsText.of_user {a : Nat} {text : List UInt8} (h : HoldsText k a text) (hphys : k'.userPhys a = k.userPhys a)
    (hmem : ∀ i ≤ text.length, k'.mem (k.userPhys a + i) = k.mem (k.userPhys a + i)) : HoldsText k' a text :=
  ⟨h.low, h.high, by rw [hphys]; exact h.holds.congr hmem⟩

theorem cat_without_argument {st : Nat → Option Stream} {fd : Nat} {p : Process} {image : CatImage}
    (hopen : CanOpen fops fs st fd p.kernel) (ht : OnTerminal t p.kernel) (hargs : HoldsArgument p.kernel [])
    (himage : CatLoaded image p.kernel) (staleInode fuel : Nat) :
    ∃ p', cat fops fs image staleInode fuel p = .ok (some (p', 3)) ∧
      Printed t (ascii "could not read arguments\n") p p' ∧ OwnChanges p.kernel p'.kernel ∧
      p'.kernel.dirReadCount = 0 := by
  have hpressed := onlyConsole_pressed p
  have hnone : getargs p.pressed image.buf 1024 = .ok (p.pressed, -1) := by
    refine getargs_none ?_ _ _
    have hlength := hargs.length
    rw [argumentLength, Kernel.currentPblock, hpressed.mem_eq.1]
    exact hlength.le
  obtain ⟨p', hfails, hprinted, hown, hcount⟩ := fails_with (p := ⟨p.pressed, p.keys.tail⟩)
    (hpressed.serves hopen.streams.serves) (hpressed.onTerminal ht)
    (himage.noArguments.of_user rfl fun _ _ => rfl) 3
  refine ⟨p', ?_, (Printed.quiet p rfl).trans hprinted, hpressed.own.trans hown, hcount.trans hopen.counter⟩
  rw [cat, Process.call_eq hnone, ok_bind]
  simp only
  rw [if_pos (by decide), hfails]

theorem length_notFound : (ascii "file not found\n").length = 15 := by decide

/-- `cat` behind its `getargs`: the argument is in the buffer, and the text for a missing file is still there. -/
structure CatStarted (image : CatImage) (arg : List UInt8) (k : Kernel) : Prop where
  string : k.userString image.buf = arg
  notFound : HoldsText k image.notFound (ascii "file not found\n")

theorem CatStarted.of_console {image : CatImage} {arg : List UInt8} (h : CatStarted image arg k)
    (hsame : OnlyConsole k k') : CatStarted image arg k' := by
  obtain ⟨console, rfl⟩ := hsame
  exact ⟨h.string, h.notFound.of_user rfl fun _ _ => rfl⟩

theorem getargs_started (hrun : Running k) {arg : List UInt8} (hargs : HoldsArgument k arg) (hne : arg ≠ [])
    (hplain : 0 ∉ arg) {image : CatImage} (himage : CatLoaded image k) :
    ∃ m, getargs k image.buf (1024 : Nat) = .ok (withMem k m, 0) ∧ OwnChanges k (withMem k m) ∧
      KeepsKernelPage k (withMem k m) ∧ CatStarted image arg (withMem k m) := by
  obtain ⟨m, hcall, hown, hkeeps, hstring, hrest⟩ := getargs_string hrun hargs hne hplain himage.buffer
  have hbuf := himage.buffer
  have hlow := hbuf.low
  have htext := himage.notFound
  have hlow' := htext.low
  have hapart := himage.apart
  have hfits := hargs.fits
  have hhigh : image.buf + 1024 ≤ addr128MB + addr4MB := by
    rcases hbuf.high with hzero | hhigh
    · cases hzero
    · exact hhigh
  refine ⟨m, hcall, hown, hkeeps, ?_, htext.of_user (userPhys_withMem k m _) fun i hi => hrest _ ?_⟩
  · exact hstring.cstr_eq (by omega)
  · rw [length_notFound] at hi
    simp only [Kernel.userPhys]
    omega

theorem cat_with_argument (himg : ImageOk fs) {st : Nat → Option Stream} {fd : Nat} {p : Process} {image : CatImage}
    {arg : List UInt8} (hopen : CanOpen fops fs st fd p.kernel) (ht : OnTerminal t p.kernel)
    (hargs : HoldsArgument p.kernel arg) (hplain : 0 ∉ arg) (hne : arg ≠ []) (himage : CatLoaded image p.kernel)
    (staleInode : Nat) {fuel : Nat} (hfuel : (catResult fs arg).1.length < fuel) :
    ∃ p', cat fops fs image staleInode fuel p = .ok (some (p', (catResult fs arg).2)) ∧
      Printed t (catResult fs arg).1 p p' ∧ OwnChanges p.kernel p'.kernel ∧ p'.kernel.dirReadCount = 0 := by
  have hpressed := onlyConsole_pressed p
  have hfits := hargs.fits
  have hrun := (hpressed.serves hopen.streams.serves).running
  have hargs' : HoldsArgument p.pressed arg := ⟨hargs.length, hargs.bytes, hargs.fits⟩
  have himage' : CatLoaded image p.pressed :=
    ⟨himage.buffer, himage.noArguments.of_user rfl fun _ _ => rfl, himage.notFound.of_user rfl fun _ _ => rfl,
      himage.apart⟩
  obtain ⟨m, hgetargs, hown, hkeeps, hstarted⟩ := getargs_started hrun hargs' hne hplain himage'
  -- behind `getargs`
  let p1 : Process := ⟨withMem p.pressed m, p.keys.tail⟩
  have hprinted1 : Printed t [] p p1 := Printed.quiet p (console_withMem p.pressed m)
  have hown1 : OwnChanges p.kernel p1.kernel := hpressed.own.trans hown
  have hpressed1 := onlyConsole_pressed p1
  have hstarted1 := hstarted.of_console hpressed1
  have hopen0 := hopen.of_keeps himg hpressed.keeps.1 hpressed.keeps.2
  have hopen1 := (hopen0.of_keeps himg hkeeps (dirReadCount_withMem _ m)).of_keeps himg hpressed1.keeps.1
    hpressed1.keeps.2
  have hown2 := hown1.trans hpressed1.own
  have hcat : cat fops fs image staleInode fuel p = p1.call (fun k => sysOpen fops fs k (k.userString image.buf)) >>=
      fun r => if r.2 = -1 then (ece391Fdputs fops r.1 1 image.notFound >>= fun p => pure (some (p, 2)))
        else catLoop fops fs r.2 image.buf 1024 image.readFailed [] staleInode fuel r.1 := by
    rw [cat, Process.call_eq hgetargs, ok_bind]
    simp only
    rw [if_neg (by decide)]
  rw [hcat]
  cases hfind : findEntry fs arg with
  | none =>
      have hresult : catResult fs arg = (ascii "file not found\n", 2) := by rw [catResult, if_neg hne, hfind]
      have hmissing : sysOpen fops fs p1.pressed (p1.pressed.userString image.buf) = .ok (p1.pressed, -1) := by
        rw [hstarted1.string]
        exact hopen1.missing himg hplain (by omega) hfind
      obtain ⟨p', hfails, hprinted, hown', hcount⟩ := fails_with (p := ⟨p1.pressed, p1.keys.tail⟩)
        hopen1.streams.serves (ht.of_own hown2) hstarted1.notFound 2
      rw [hresult, Process.call_eq hmissing, ok_bind]
      simp only
      rw [if_pos trivial, hfails]
      exact ⟨p', rfl, (hprinted1.trans (Printed.quiet p1 rfl)).trans hprinted, hown2.trans hown',
        hcount.trans hopen1.counter⟩
  | some i =>
      have hresult : catResult fs arg = (entryText fs i, 0) := by rw [catResult, if_neg hne, hfind]
      obtain ⟨m', hcall, hown', hstreams⟩ := hopen1.opened himg hplain (by omega) hfind
      obtain ⟨hlow, hhigh, -⟩ := firstFree_some hopen1.free
      obtain ⟨P, hdelivers, hP⟩ := delivers_entry himg hlow hhigh (findEntry_some hfind).1 himage.buffer hstreams
        hopen1.counter
      have hown3 := hown2.trans hown'
      rw [← hstarted1.string] at hcall
      rw [hresult] at hfuel ⊢
      obtain ⟨p', hloop, hprinted, hown4, hcount⟩ := catLoop_prints image.readFailed staleInode
        (p := ⟨withMem p1.pressed m', p1.keys.tail⟩) hdelivers fuel hP (ht.of_own hown3) hfuel
      rw [Process.call_eq hcall, ok_bind]
      simp only
      rw [if_neg (by omega), hloop]
      exact ⟨p', rfl, (hprinted1.trans (Printed.quiet p1 rfl)).trans hprinted, hown3.trans hown4, hcount⟩

/-- `cat` prints on its terminal what the directory says of its argument, whatever is typed before its calls, and
returns without changing any other process. -/
theorem cat_prints (himg : ImageOk fs) {st : Nat → Option Stream} {fd : Nat} {p : Process} {image : CatImage}
    {arg : List UInt8} (hopen : CanOpen fops fs st fd p.kernel) (ht : OnTerminal t p.kernel)
    (hargs : HoldsArgument p.kernel arg) (hplain : 0 ∉ arg) (himage : CatLoaded image p.kernel)
    (staleInode : Nat) {fuel : Nat} (hfuel : (catResult fs arg).1.length < fuel) :
    ∃ p', cat fops fs image staleInode fuel p = .ok (some (p', (catResult fs arg).2)) ∧
      Printed t (catResult fs arg).1 p p' ∧ OwnChanges p.kernel p'.kernel ∧ p'.kernel.dirReadCount = 0 := by
  by_cases hne : arg = []
  · subst hne
    exact cat_without_argument hopen ht hargs himage staleInode fuel
  · exact cat_with_argument himg hopen ht hargs hplain hne himage staleInode hfuel

/-- What `ls` should print and return: every name of the directory on a line of its own. -/
def lsResult (fs : FileSys) : List UInt8 × Int :=
  if findEntry fs [0x2E] = none then (ascii "directory open failed\n", 2)
  else ((List.range fs.info.numDirEntries).flatMap fun j => fs.entryName j ++ [0x0A], 0)

/-- The image of `ls` in the user page. -/
structure LsLoaded (image : LsImage) (k : Kernel) : Prop where
  buffer : UserBuffer image.buf sbufSize
  dot : HoldsText k image.dot [0x2E]
  openFailed : HoldsText k image.openFailed (ascii "directory open failed\n")

/-- `ls` prints the whole directory on its terminal, whatever is typed before its calls, and leaves the counter of
`read_directory` as it has to be for the next listing. -/
theorem ls_prints (himg : ImageOk fs) (hdot : ∀ i, findEntry fs [0x2E] = some i → fs.entryType i = 1)
    {st : Nat → Option Stream} {fd : Nat} {p : Process} {image : LsImage} (hopen : CanOpen fops fs st fd p.kernel)
    (ht : OnTerminal t p.kernel) (himage : LsLoaded image p.kernel) (staleInode : Nat) {fuel : Nat}
    (hfuel : (lsResult fs).1.length < fuel) :
    ∃ p', ls fops fs image staleInode fuel p = .ok (some (p', (lsResult fs).2)) ∧
      Printed t (lsResult fs).1 p p' ∧ OwnChanges p.kernel p'.kernel ∧ p'.kernel.dirReadCount = 0 := by
  have hpressed := onlyConsole_pressed p
  have hopen' := hopen.of_keeps himg hpressed.keeps.1 hpressed.keeps.2
  have hdotText : HoldsText p.pressed image.dot [0x2E] := himage.dot.of_user rfl fun _ _ => rfl
  have hname := hdotText.userString_eq
  cases hfind : findEntry fs [0x2E] with
  | none =>
      have hresult : lsResult fs = (ascii "directory open failed\n", 2) := by rw [lsResult, if_pos hfind]
      have hmissing : sysOpen fops fs p.pressed (p.pressed.userString image.dot) = .ok (p.pressed, -1) := by
        rw [hname]
        exact hopen'.missing himg (by decide) (by decide) hfind
      obtain ⟨p', hfails, hprinted, hown, hcount⟩ := fails_with (p := ⟨p.pressed, p.keys.tail⟩)
        hopen'.streams.serves (hpressed.onTerminal ht) (himage.openFailed.of_user rfl fun _ _ => rfl) 2
      rw [hresult, ls, Process.call_eq hmissing, ok_bind]
      simp only
      rw [if_pos trivial, hfails]
      exact ⟨p', rfl, (Printed.quiet p rfl).trans hprinted, hpressed.own.trans hown, hcount.trans hopen.counter⟩
  | some i =>
      have hresult : lsResult fs =
          ((List.range fs.info.numDirEntries).flatMap fun j => fs.entryName j ++ [0x0A], 0) := by
        rw [lsResult, if_neg (by rw [hfind]; exact Option.some_ne_none i)]
      obtain ⟨m, hcall, hown, hstreams⟩ := hopen'.opened himg (by decide) (by decide) hfind
      obtain ⟨hlow, hhigh, -⟩ := firstFree_some hopen.free
      have hself : entriesOf (Function.update st fd (some (⟨i, []⟩ : Stream))) fd = some i := by
        rw [entriesOf, Function.update_self, Option.map_some]
      have hrest : NamesRest fops fs [0x0A] fd i
          ((List.range fs.info.numDirEntries).flatMap fun j => fs.entryName j ++ [0x0A]) (withMem p.pressed m) := by
        refine ⟨_, hstreams.serves, hself, ?_⟩
        rw [dirReadCount_withMem, hopen'.counter, Nat.sub_zero, List.range_eq_range']
      have hown2 := hpressed.own.trans hown
      rw [hresult] at hfuel ⊢
      have hdelivers : Delivers fops fs fd image.buf (sbufSize - 1) [0x0A] (NamesRest fops fs [0x0A] fd i) :=
        delivers_directory himg hlow hhigh (hdot i hfind) (by decide) himage.buffer
      obtain ⟨p', hloop, hprinted, hown3, hcount⟩ := catLoop_prints image.readFailed staleInode
        (p := ⟨withMem p.pressed m, p.keys.tail⟩) hdelivers fuel hrest (ht.of_own hown2) hfuel
      rw [← hname] at hcall
      rw [ls, Process.call_eq hcall, ok_bind]
      simp only
      rw [if_neg (by omega), hloop]
      have hquiet : Printed t [] p ⟨withMem p.pressed m, p.keys.tail⟩ := Printed.quiet p (console_withMem _ m)
      have hall := hquiet.trans hprinted
      rw [List.nil_append] at hall
      exact ⟨p', rfl, hall, hown2.trans hown3, hcount⟩

end UnixOs
