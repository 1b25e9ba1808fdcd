import UnixOs.Descriptors
import UnixOs.LabelledRun

/-! The descriptor table as a table: which directory entry each descriptor from 2 to 7 was opened on.
The words of the process control block represent such a table, and the system calls keep doing so as
long as no `read` is given a buffer inside the kernel's own page. -/

namespace UnixOs

/-- The state of a running process: its number is in range and its frame is mapped. -/
structure Running (k : Kernel) : Prop where
  one : 1 ≤ k.processCount
  max : k.processCount ≤ maxProcesses
  frame : k.pdUser = init4mbUserPde (addr4MB + k.processCount * addr4MB)

theorem pdeBase_init4mbUserPde {c : Nat} (h : c ≤ maxProcesses) :
    pdeBase (init4mbUserPde (addr4MB + c * addr4MB)) = addr4MB + c * addr4MB := by
  simp only [pdeBase, init4mbUserPde, addr4MB, maxProcesses] at *
  omega

namespace Running

variable {k : Kernel}

theorem pdeBase_eq (h : Running k) : pdeBase k.pdUser = addr4MB + k.processCount * addr4MB := by
  rw [h.frame, pdeBase_init4mbUserPde h.max]

theorem present (h : Running k) : k.pdUser % 2 = 1 := by
  rw [h.frame]
  simp only [init4mbUserPde]
  omega

/-- The control block lies in the kernel's page, below every frame. -/
theorem pcb_range (h : Running k) :
    addr4MB ≤ k.currentPblock ∧ k.currentPblock + addr8KB ≤ addr8MB ∧ addr8MB ≤ pdeBase k.pdUser := by
  have hone := h.one
  have hmax := h.max
  rw [h.pdeBase_eq]
  simp only [Kernel.currentPblock, pcbAddr, addr4MB, addr8MB, addr8KB, maxProcesses] at *
  omega

theorem checkUse_eq (h : Running k) {fd : Nat} (hfd : fd < opsSize) :
    checkUse k fd = .ok (k.mem.load32 (inUseAddr k.currentPblock fd)) := by
  obtain ⟨hlow, hhigh, -⟩ := h.pcb_range
  simp only [addr4MB, addr8KB, addr8MB, opsSize] at hlow hhigh hfd
  have haddr : (((inUseAddr k.currentPblock 0 : Nat) + 48 * (fd : Int)) % 2 ^ 32).toNat =
      inUseAddr k.currentPblock fd := by
    simp only [inUseAddr, fdeOffset]
    omega
  rw [checkUse, haddr]
  apply fetch32_kernel
  · simp only [inUseAddr, addr4MB]
    omega
  · simp only [inUseAddr, fdeOffset, addr8MB]
    omega

end Running

/-! ### Tables in memory -/

/-- The operations that `open` selects for a file type. -/
def kindOfType (type : UInt8) : FopsKind :=
  if type = 0 then .rtc else if type = 1 then .directory else .file

/-- The words of a control block represent a table: descriptors 0 and 1 are the terminal's, an opened
one has the operations for its entry's type and the entry's name, a free one has a NULL pointer. -/
structure TableOk (fops : FopsTables) (fs : FileSys) (m : Mem) (pcb : Nat) (t : Nat → Option Nat) : Prop where
  terminal : ∀ fd < 2, m.load32 (inUseAddr pcb fd) % 2 = 1 ∧ m.load32 (fopPtrAddr pcb fd) = fops.terminal
  opened : ∀ fd i, 2 ≤ fd → fd < opsSize → t fd = some i → i < fs.info.numDirEntries ∧
    m.load32 (inUseAddr pcb fd) % 2 = 1 ∧
    m.load32 (fopPtrAddr pcb fd) = fops.addr (kindOfType (fs.entryType i)) ∧
    m.HoldsString (fileNameAddr pcb fd) (fs.entryName i)
  free : ∀ fd, 2 ≤ fd → fd < opsSize → t fd = none →
    m.load32 (inUseAddr pcb fd) % 2 = 0 ∧ m.load32 (fopPtrAddr pcb fd) = 0

/-- Two memories agree outside one descriptor. -/
def OnlySlot (pcb fd : Nat) (m m' : Mem) : Prop :=
  ∀ a, a < pcb + fdeOffset fd ∨ pcb + fdeOffset (fd + 1) ≤ a → m' a = m a

variable {fops : FopsTables} {fs : FileSys} {m m' : Mem} {pcb : Nat} {t : Nat → Option Nat}

theorem OnlySlot.word {fd other : Nat} (h : OnlySlot pcb fd m m') (hne : other ≠ fd) (off : Nat)
    (hoff : off + 4 ≤ 48) :
    m'.load32 (pcb + fdeOffset other + off) = m.load32 (pcb + fdeOffset other + off) := by
  apply Mem.load32_congr
  intro i hi
  apply h
  simp only [fdeOffset]
  omega

theorem OnlySlot.name {fd other : Nat} {bs : List UInt8} (h : OnlySlot pcb fd m m') (hne : other ≠ fd)
    (hlen : bs.length < fnameLength) (hname : m.HoldsString (fileNameAddr pcb other) bs) :
    m'.HoldsString (fileNameAddr pcb other) bs := by
  apply hname.congr
  intro i hi
  apply h
  simp only [fileNameAddr, fdeOffset, fnameLength] at *
  omega

/-- A change of one descriptor that makes it opened or free keeps the others as they are. -/
theorem TableOk.update (h : TableOk fops fs m pcb t) (hdir : DirectoryOk fs) {fd : Nat} (hfd : 2 ≤ fd)
    (honly : OnlySlot pcb fd m m') (entry : Option Nat)
    (hopened : ∀ i, entry = some i → i < fs.info.numDirEntries ∧
      m'.load32 (inUseAddr pcb fd) % 2 = 1 ∧
      m'.load32 (fopPtrAddr pcb fd) = fops.addr (kindOfType (fs.entryType i)) ∧
      m'.HoldsString (fileNameAddr pcb fd) (fs.entryName i))
    (hfree : entry = none → m'.load32 (inUseAddr pcb fd) % 2 = 0 ∧ m'.load32 (fopPtrAddr pcb fd) = 0) :
    TableOk fops fs m' pcb (Function.update t fd entry) := by
  have hwords : ∀ other, other ≠ fd →
      m'.load32 (inUseAddr pcb other) = m.load32 (inUseAddr pcb other) ∧
      m'.load32 (fopPtrAddr pcb other) = m.load32 (fopPtrAddr pcb other) := fun other hne =>
    ⟨honly.word hne 44 (by decide), honly.word hne 0 (by decide)⟩
  refine ⟨fun other hother => ?_, fun other i hlow hhigh hti => ?_, fun other hlow hhigh hnone => ?_⟩
  · obtain ⟨huse, hfop⟩ := hwords other (by omega)
    rw [huse, hfop]
    exact h.terminal other hother
  · by_cases hne : other = fd
    · subst hne
      rw [Function.update_self] at hti
      exact hopened i hti
    · rw [Function.update_of_ne hne] at hti
      obtain ⟨hi, huse, hfop, hname⟩ := h.opened other i hlow hhigh hti
      obtain ⟨huse', hfop'⟩ := hwords other hne
      rw [huse', hfop']
      exact ⟨hi, huse, hfop, honly.name hne (hdir.names i hi) hname⟩
  · by_cases hne : other = fd
    · subst hne
      rw [Function.update_self] at hnone
      exact hfree hnone
    · rw [Function.update_of_ne hne] at hnone
      obtain ⟨huse', hfop'⟩ := hwords other hne
      rw [huse', hfop']
      exact h.free other hlow hhigh hnone

/-- The table depends on the bytes of the descriptors only. -/
theorem TableOk.congr (h : TableOk fops fs m pcb t) (hdir : DirectoryOk fs)
    (heq : ∀ a, pcb + fdeOffset 0 ≤ a → a < pcb + fdeOffset opsSize → m' a = m a) :
    TableOk fops fs m' pcb t := by
  have hword : ∀ fd off, fd < opsSize → off + 4 ≤ 48 →
      m'.load32 (pcb + fdeOffset fd + off) = m.load32 (pcb + fdeOffset fd + off) := by
    intro fd off hfd hoff
    apply Mem.load32_congr
    intro i hi
    apply heq
    · simp only [fdeOffset]
      omega
    · simp only [fdeOffset, opsSize] at *
      omega
  have huse : ∀ fd < opsSize, m'.load32 (inUseAddr pcb fd) = m.load32 (inUseAddr pcb fd) :=
    fun fd hfd => hword fd 44 hfd (by decide)
  have hfop : ∀ fd < opsSize, m'.load32 (fopPtrAddr pcb fd) = m.load32 (fopPtrAddr pcb fd) :=
    fun fd hfd => hword fd 0 hfd (by decide)
  refine ⟨fun fd hfd => ?_, fun fd i hlow hhigh hti => ?_, fun fd hlow hhigh hnone => ?_⟩
  · have hlt : fd < opsSize := by simp only [opsSize]; omega
    rw [huse fd hlt, hfop fd hlt]
    exact h.terminal fd hfd
  · obtain ⟨hi, huse', hfop', hname⟩ := h.opened fd i hlow hhigh hti
    rw [huse fd hhigh, hfop fd hhigh]
    refine ⟨hi, huse', hfop', hname.congr fun j hj => heq _ ?_ ?_⟩
    · simp only [fileNameAddr, fdeOffset]
      omega
    · have := hdir.names i hi
      simp only [fileNameAddr, fdeOffset, opsSize, fnameLength] at *
      omega
  · rw [huse fd hhigh, hfop fd hhigh]
    exact h.free fd hlow hhigh hnone

theorem FopsTables.addr_lt (fops : FopsTables) (kind : FopsKind) : fops.addr kind < 2 ^ 32 := by
  apply fops.small
  cases kind <;> simp [FopsTables.addr]

theorem FopsTables.addr_ne_zero (fops : FopsTables) (kind : FopsKind) : fops.addr kind ≠ 0 := by
  have hzero : (0 : Nat) ∉ [fops.rtc, fops.directory, fops.file, fops.terminal] :=
    (List.nodup_cons.mp fops.distinct).1
  intro h
  apply hzero
  rw [← h]
  cases kind <;> simp [FopsTables.addr]

theorem fopsAt_addr (fops : FopsTables) (kind : FopsKind) : fopsAt fops (fops.addr kind) = .ok kind := by
  have hdistinct := fops.distinct
  simp only [List.nodup_cons, List.mem_cons, not_or] at hdistinct
  obtain ⟨-, ⟨hrd, hrf, hrt, -⟩, ⟨hdf, hdt, -⟩, ⟨hft, -⟩, -⟩ := hdistinct
  cases kind with
  | rtc => simp [fopsAt, FopsTables.addr]
  | directory => simp [fopsAt, FopsTables.addr, Ne.symm hrd]
  | file => simp [fopsAt, FopsTables.addr, Ne.symm hrf, Ne.symm hdf]
  | terminal => simp [fopsAt, FopsTables.addr, Ne.symm hrt, Ne.symm hdt, Ne.symm hft]

theorem OnlySlot.refl (pcb fd : Nat) (m : Mem) : OnlySlot pcb fd m m := fun _ _ => rfl

theorem OnlySlot.writeBytes {fd : Nat} (h : OnlySlot pcb fd m m') (off : Nat) {bs : List UInt8}
    (hoff : off + bs.length ≤ 48) : OnlySlot pcb fd m (m'.writeBytes (pcb + fdeOffset fd + off) bs) := by
  intro a ha
  rw [Mem.writeBytes_of_outside, h a ha]
  simp only [fdeOffset] at *
  omega

theorem OnlySlot.store32 {fd : Nat} (h : OnlySlot pcb fd m m') (off v : Nat) (hoff : off + 4 ≤ 48) :
    OnlySlot pcb fd m (m'.store32 (pcb + fdeOffset fd + off) v) :=
  h.writeBytes off hoff

/-- The memory after a successful `open` of an entry. -/
def openSlot (fops : FopsTables) (fs : FileSys) (m : Mem) (pcb location i : Nat) : Mem :=
  openSwitch fops fs (openFields m pcb location (fs.entryName i)) pcb location
    ⟨fs.entryName i, fs.entryType i, fs.entryInode i⟩

theorem openSlot_only (hdir : DirectoryOk fs) {i : Nat} (hi : i < fs.info.numDirEntries) (location : Nat) :
    OnlySlot pcb location m (openSlot fops fs m pcb location i) := by
  have hlen := hdir.names i hi
  have hfields : OnlySlot pcb location m (openFields m pcb location (fs.entryName i)) := by
    refine (((((OnlySlot.refl pcb location m).store32 4 0 (by decide)).writeBytes 8 ?_).store32 40 0
      (by decide))).store32 44 1 (by decide)
    simp only [fnameLength] at hlen
    simp only [List.length_append, List.length_singleton]
    omega
  unfold openSlot openSwitch
  split_ifs
  · exact hfields.store32 0 _ (by decide)
  · exact hfields.store32 0 _ (by decide)
  · exact (hfields.store32 0 _ (by decide)).store32 4 _ (by decide)
  · exact hfields

/-- The switch leaves the name, the position and the use word alone. -/
theorem openSwitch_of_outside (m : Mem) (pcb location : Nat) (d : Dentry) {a : Nat}
    (ha : pcb + fdeOffset location + 8 ≤ a) : openSwitch fops fs m pcb location d a = m a := by
  unfold openSwitch
  split_ifs
  · exact Mem.store32_of_outside _ (by simp only [fopPtrAddr]; omega)
  · exact Mem.store32_of_outside _ (by simp only [fopPtrAddr]; omega)
  · rw [Mem.store32_of_outside _ (by simp only [inodeAddr]; omega),
      Mem.store32_of_outside _ (by simp only [fopPtrAddr]; omega)]
  · rfl

/-- The opened descriptor: in use, at position 0, with the operations and the name of its entry. -/
theorem openSlot_spec (fops : FopsTables) (m : Mem) (pcb : Nat) (hdir : DirectoryOk fs) {i : Nat}
    (hi : i < fs.info.numDirEntries) (location : Nat) :
    (openSlot fops fs m pcb location i).load32 (inUseAddr pcb location) = 1 ∧
    (openSlot fops fs m pcb location i).load32 (filePosAddr pcb location) = 0 ∧
    (openSlot fops fs m pcb location i).load32 (fopPtrAddr pcb location) =
      fops.addr (kindOfType (fs.entryType i)) ∧
    (openSlot fops fs m pcb location i).HoldsString (fileNameAddr pcb location) (fs.entryName i) := by
  have hlen := hdir.names i hi
  have htype := hdir.types i hi
  simp only [fnameLength] at hlen
  refine ⟨?_, ?_, ?_, ?_⟩
  · have hkept : (openSlot fops fs m pcb location i).load32 (inUseAddr pcb location) =
        (openFields m pcb location (fs.entryName i)).load32 (inUseAddr pcb location) :=
      Mem.load32_congr fun j _ =>
        openSwitch_of_outside _ _ _ _ (by simp only [inUseAddr]; omega)
    rw [hkept]
    exact Mem.load32_store32_of_lt _ _ (by decide)
  · have hkept : (openSlot fops fs m pcb location i).load32 (filePosAddr pcb location) =
        (openFields m pcb location (fs.entryName i)).load32 (filePosAddr pcb location) :=
      Mem.load32_congr fun j _ =>
        openSwitch_of_outside _ _ _ _ (by simp only [filePosAddr]; omega)
    rw [hkept, openFields]
    rw [Mem.load32_store32_of_ne _ (by simp only [filePosAddr, inUseAddr]; omega)]
    exact Mem.load32_store32_of_lt _ _ (by decide)
  · simp only [List.mem_cons, List.not_mem_nil, or_false] at htype
    rw [openSlot, openSwitch]
    rcases htype with htype | htype | htype
    · simp only [htype, if_true]
      exact Mem.load32_store32_of_lt _ _ (fops.addr_lt .rtc)
    · simp only [htype, if_true]
      exact Mem.load32_store32_of_lt _ _ (fops.addr_lt .directory)
    · have h0 : (2 : UInt8) ≠ 0 := by decide
      have h1 : (2 : UInt8) ≠ 1 := by decide
      simp only [htype, h0, h1, if_false, if_true]
      rw [Mem.load32_store32_of_ne _ (by simp only [fopPtrAddr, inodeAddr]; omega)]
      exact Mem.load32_store32_of_lt _ _ (fops.addr_lt .file)
  · have hplain := (entryName_holds hdir.entries hi).plain
    have hname : ((m.store32 (inodeAddr pcb location) 0).writeBytes (fileNameAddr pcb location)
        (fs.entryName i ++ [0])).HoldsString (fileNameAddr pcb location) (fs.entryName i) :=
      Mem.holdsString_writeBytes _ _ hplain
    apply hname.congr
    intro j hj
    rw [openSlot, openSwitch_of_outside _ _ _ _ (by simp only [fileNameAddr]; omega), openFields]
    rw [Mem.store32_of_outside _ (by simp only [fileNameAddr, inUseAddr]; omega),
      Mem.store32_of_outside _ (by simp only [fileNameAddr, filePosAddr]; omega)]

theorem closeFields_only (m : Mem) (pcb fd : Nat) : OnlySlot pcb fd m (closeFields m pcb fd) :=
  ((((OnlySlot.refl pcb fd m).store32 0 0 (by decide)).store32 4 0 (by decide)).store32 40 0
    (by decide)).store32 44 0 (by decide)

theorem closeFields_spec (m : Mem) (pcb fd : Nat) :
    (closeFields m pcb fd).load32 (inUseAddr pcb fd) = 0 ∧
    (closeFields m pcb fd).load32 (fopPtrAddr pcb fd) = 0 := by
  constructor
  · exact Mem.load32_store32_of_lt _ _ (by decide)
  · rw [closeFields]
    rw [Mem.load32_store32_of_ne _ (by simp only [fopPtrAddr, inUseAddr]; omega),
      Mem.load32_store32_of_ne _ (by simp only [fopPtrAddr, filePosAddr]; omega),
      Mem.load32_store32_of_ne _ (by simp only [fopPtrAddr, inodeAddr]; omega)]
    exact Mem.load32_store32_of_lt _ _ (by decide)

/-! ### The system calls on a table -/

/-- The smallest free descriptor of a table. -/
def firstFree (t : Nat → Option Nat) : Option Nat := (List.range' 2 6).find? fun fd => (t fd).isNone

theorem firstFree_some {fd : Nat} (h : firstFree t = some fd) : 2 ≤ fd ∧ fd < opsSize ∧ t fd = none := by
  have hmem := List.mem_of_find?_eq_some h
  have hnone := List.find?_some h
  simp only [List.mem_range'_1] at hmem
  exact ⟨hmem.1, hmem.2, Option.isNone_iff_eq_none.mp hnone⟩

theorem findEntry_some {name : List UInt8} {i : Nat} (h : findEntry fs name = some i) :
    i < fs.info.numDirEntries ∧ fs.entryName i = name := by
  refine ⟨List.mem_range.mp (List.mem_of_find?_eq_some h), ?_⟩
  simpa using List.find?_some h

theorem freeFrom_succ {k : Kernel} {location use : Nat} (h : checkUse k location = .ok use) (n : Nat) :
    freeFrom k (n + 1) location =
      if use % 2 = 0 then .ok (some location) else freeFrom k n (location + 1) := by
  rw [freeFrom, h]
  rfl

theorem freeFrom_spec {k : Kernel} (hrun : Running k) (n location : Nat) (h : location + n ≤ opsSize) :
    freeFrom k n location = .ok ((List.range' location n).find? fun fd =>
      k.mem.load32 (inUseAddr k.currentPblock fd) % 2 = 0) := by
  induction n generalizing location with
  | zero => rfl
  | succ n ih =>
      rw [freeFrom_succ (hrun.checkUse_eq (by omega)), List.range'_succ]
      by_cases hfree : k.mem.load32 (inUseAddr k.currentPblock location) % 2 = 0
      · rw [if_pos hfree, List.find?_cons_of_pos (by simpa using hfree)]
      · rw [if_neg hfree, List.find?_cons_of_neg (by simpa using hfree), ih (location + 1) (by omega)]

section

variable {k : Kernel}

/-- The search loop finds the table's first free descriptor: 0 and 1 are always in use. -/
theorem freeFrom_eq_firstFree (hrun : Running k) (htable : TableOk fops fs k.mem k.currentPblock t) :
    freeFrom k opsSize 0 = .ok (firstFree t) := by
  have huse : ∀ fd < 2, ¬ k.mem.load32 (inUseAddr k.currentPblock fd) % 2 = 0 := fun fd hfd => by
    rw [(htable.terminal fd hfd).1]
    decide
  have hfirst : ∀ fd ∈ List.range' 2 6,
      decide (k.mem.load32 (inUseAddr k.currentPblock fd) % 2 = 0) = (t fd).isNone := by
    intro fd hfd
    simp only [List.mem_range'_1] at hfd
    cases ht : t fd with
    | none => rw [(htable.free fd hfd.1 hfd.2 ht).1]; rfl
    | some i => rw [(htable.opened fd i hfd.1 hfd.2 ht).2.1]; rfl
  rw [freeFrom_spec hrun _ 0 (by decide), firstFree]
  rw [show List.range' 0 opsSize = 0 :: 1 :: List.range' 2 6 from rfl,
    List.find?_cons_of_neg (by simpa using huse 0 (by decide)),
    List.find?_cons_of_neg (by simpa using huse 1 (by decide)), List.find?_congr hfirst]

theorem sysOpen_fail (hrun : Running k) (hdir : DirectoryOk fs)
    (htable : TableOk fops fs k.mem k.currentPblock t) {name : List UInt8} (hplain : 0 ∉ name)
    (halias : ¬ Aliased fs name) (h : firstFree t = none ∨ findEntry fs name = none) :
    sysOpen fops fs k name = .ok (k, -1) := by
  rw [sysOpen, freeFrom_eq_firstFree hrun htable, readDentryByName_spec hdir.entries hplain halias]
  cases hfree : firstFree t with
  | none => simp only [ok_bind, pure_eq_ok]
  | some fd =>
      rcases h with h | h
      · rw [hfree] at h
        cases h
      · simp only [h, Option.map_none, ok_bind, pure_eq_ok]

theorem finishOpen_ok {location : Nat} (type : UInt8)
    (hfop : k.mem.load32 (fopPtrAddr k.currentPblock location) = fops.addr (kindOfType type)) :
    finishOpen fops k location = .ok (k, location) := by
  have hopen : callOpen k (kindOfType type) = k := by
    unfold kindOfType
    split_ifs <;> rfl
  rw [finishOpen, hfop, fopsAt_addr, ok_bind, hopen, pure_eq_ok]

theorem sysOpen_ok (hrun : Running k) (hdir : DirectoryOk fs)
    (htable : TableOk fops fs k.mem k.currentPblock t) {name : List UInt8} (hplain : 0 ∉ name)
    (halias : ¬ Aliased fs name) {fd i : Nat} (hfree : firstFree t = some fd)
    (hfind : findEntry fs name = some i) :
    sysOpen fops fs k name = .ok ({ k with mem := openSlot fops fs k.mem k.currentPblock fd i }, fd) := by
  obtain ⟨hi, rfl⟩ := findEntry_some hfind
  obtain ⟨-, -, hfop, -⟩ := openSlot_spec fops k.mem k.currentPblock hdir hi fd
  rw [sysOpen, freeFrom_eq_firstFree hrun htable, hfree, ok_bind]
  simp only
  rw [readDentryByName_spec hdir.entries hplain halias, hfind, Option.map_some, ok_bind]
  simp only
  exact finishOpen_ok (fs.entryType i) hfop

theorem sysClose_ok (hrun : Running k) (htable : TableOk fops fs k.mem k.currentPblock t) {fd i : Nat}
    (hlow : 2 ≤ fd) (hhigh : fd < opsSize) (ht : t fd = some i) :
    sysClose fops k fd = .ok ({ k with mem := closeFields k.mem k.currentPblock fd }, 0) := by
  obtain ⟨-, huse, hfop, -⟩ := htable.opened fd i hlow hhigh ht
  have hclose : callClose k (kindOfType (fs.entryType i)) = k := by
    unfold kindOfType
    split_ifs <;> rfl
  have hrange : ¬ ((fd : Int) ≤ 1 ∨ (fd : Int) ≥ opsSize) := by omega
  rw [sysClose, hrun.checkUse_eq hhigh, ok_bind, if_neg (by omega), if_neg hrange]
  simp only [Int.toNat_natCast, hfop]
  rw [if_pos (fops.addr_ne_zero _), fopsAt_addr, ok_bind, hclose, pure_eq_ok]

theorem sysClose_fail (hrun : Running k) (htable : TableOk fops fs k.mem k.currentPblock t) {fd : Nat}
    (hhigh : fd < opsSize) (h : fd < 2 ∨ t fd = none) : sysClose fops k fd = .ok (k, -1) := by
  rw [sysClose, hrun.checkUse_eq hhigh, ok_bind]
  by_cases hlow : fd < 2
  · have huse := (htable.terminal fd hlow).1
    rw [if_neg (by omega), if_pos (by omega), pure_eq_ok]
  · have hnone := h.resolve_left hlow
    rw [if_pos (htable.free fd (by omega) hhigh hnone).1, pure_eq_ok]

/-- A descriptor in use points to one of the tables. -/
theorem fopsAt_inUse (htable : TableOk fops fs k.mem k.currentPblock t) {fd : Nat} (hhigh : fd < opsSize)
    (huse : k.mem.load32 (inUseAddr k.currentPblock fd) % 2 ≠ 0) :
    (fd < 2 ∧ fopsAt fops (k.mem.load32 (fopPtrAddr k.currentPblock fd)) = .ok .terminal) ∨
    (∃ i, 2 ≤ fd ∧ t fd = some i ∧
      fopsAt fops (k.mem.load32 (fopPtrAddr k.currentPblock fd)) = .ok (kindOfType (fs.entryType i))) := by
  by_cases hlow : fd < 2
  · refine .inl ⟨hlow, ?_⟩
    rw [(htable.terminal fd hlow).2]
    exact fopsAt_addr fops .terminal
  · cases ht : t fd with
    | none => exact absurd (htable.free fd (by omega) hhigh ht).1 huse
    | some i =>
        refine .inr ⟨i, by omega, rfl, ?_⟩
        rw [(htable.opened fd i (by omega) hhigh ht).2.2.1, fopsAt_addr]

end

end UnixOs
