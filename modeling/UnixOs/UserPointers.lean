import UnixOs.ReadBounds

/-! The system calls that store through a pointer of the user program: `read`, `getargs` and `vidmap`.
The user program owns one 4 MB page; the pointer and the length are whatever it passes. -/

namespace UnixOs

variable {fops : FopsTables} {fs : FileSys} {k k' : Kernel} {t : Nat → Option Nat}

/-- `TOP_PAGE` -/
def topPage : Nat := 0x08000000

/-- `BOTTOM_PAGE` -/
def bottomPage : Nat := 0x08400000

def argumentLengthAddr (pcb : Nat) : Nat := pcb + 448
def argumentBufferAddr (pcb : Nat) : Nat := pcb + 452

/-- What `getargs` is about to store: `nbytes` bytes from the argument buffer on, whatever the length of
the arguments. The comparison with `nbytes` is unsigned. -/
def getargsPlan (k : Kernel) (buf : Nat) (nbytes : Int) : Except Fault ReadPlan := do
  let argumentLength := k.mem.load32 (argumentLengthAddr k.currentPblock)
  if buf = 0 then return emptyPlan k (-1)
  else if argumentLength ≤ 1 then return emptyPlan k (-1)
  else if argumentLength > (nbytes % 2 ^ 32).toNat then return emptyPlan k (-1)
  else
    let bytes ← k.fetch (argumentBufferAddr k.currentPblock) (nbytes % 2 ^ 32).toNat
    return ⟨k, bytes, 0, id⟩

/-- `getargs` -/
def getargs (k : Kernel) (buf : Nat) (nbytes : Int) : Except Fault (Kernel × Int) := do
  let p ← getargsPlan k buf nbytes
  p.run buf

/-- What `vidmap` is about to store: the address of video memory. -/
def vidmapPlan (k : Kernel) (screenStart : Nat) : ReadPlan :=
  if screenStart < topPage then emptyPlan k (-1)
  else if screenStart ≥ bottomPage then emptyPlan k (-1)
  else if screenStart = 0 then emptyPlan k (-1)
  else ⟨k, Mem.wordBytes videoMem, 0, id⟩

/-- `vidmap` -/
def vidmap (k : Kernel) (screenStart : Nat) : Except Fault (Kernel × Int) :=
  (vidmapPlan k screenStart).run screenStart

inductive PointerCall where
  | read (fd : Int) (buf : Nat) (nbytes : Int)
  | getargs (buf : Nat) (nbytes : Int)
  | vidmap (screenStart : Nat)

namespace PointerCall

/-- Where the destination range starts. -/
def ptr : PointerCall → Nat
  | read _ buf _ => buf
  | getargs buf _ => buf
  | vidmap screenStart => screenStart

/-- How long the destination range is. -/
def len : PointerCall → Nat
  | read _ _ nbytes => (nbytes % 2 ^ 32).toNat
  | getargs _ nbytes => (nbytes % 2 ^ 32).toNat
  | vidmap _ => 4

/-- The length is an `int32_t`. -/
def IsInt32 : PointerCall → Prop
  | read _ _ nbytes => -2 ^ 31 ≤ nbytes ∧ nbytes < 2 ^ 31
  | getargs _ nbytes => -2 ^ 31 ≤ nbytes ∧ nbytes < 2 ^ 31
  | vidmap _ => True

def plan (fops : FopsTables) (fs : FileSys) (k : Kernel) (staleInode : Nat) : PointerCall → Except Fault ReadPlan
  | read fd buf nbytes => readPlan fops fs k fd buf nbytes staleInode
  | getargs buf nbytes => getargsPlan k buf nbytes
  | vidmap screenStart => .ok (vidmapPlan k screenStart)

def exec (fops : FopsTables) (fs : FileSys) (k : Kernel) (staleInode : Nat) :
    PointerCall → Except Fault (Kernel × Int)
  | read fd buf nbytes => sysRead fops fs k fd buf nbytes staleInode
  | getargs buf nbytes => UnixOs.getargs k buf nbytes
  | vidmap screenStart => UnixOs.vidmap k screenStart

/-- A call stores what its plan says, from its pointer on. -/
theorem exec_eq_run (c : PointerCall) (staleInode : Nat) :
    c.exec fops fs k staleInode = c.plan fops fs k staleInode >>= fun p => p.run c.ptr := by
  cases c with
  | read fd buf nbytes => exact sysRead_eq_run fops fs k fd buf nbytes staleInode
  | getargs buf nbytes => rfl
  | vidmap screenStart => rfl

end PointerCall

/-- A range of the user's page. The empty range is one wherever it starts. -/
def RangeInPage (a n : Nat) : Prop := ∀ j < n, addr128MB ≤ a + j ∧ a + j < addr128MB + addr4MB

/-- Every byte stored lies in the user's page, and a call whose range is not inside stores nothing and
returns -1. A call that never gets to its store does not do that. -/
def PointerSafe (ptr len : Nat) : Except Fault ReadPlan → Prop
  | .ok p => RangeInPage ptr p.out.length ∧
      (¬ RangeInPage ptr len → p.out = [] ∧ ∃ k, p.run ptr = .ok (k, -1))
  | .error _ => RangeInPage ptr len

/-- A file descriptor of a file that `read_data` refuses. -/
structure FileTooLong (fops : FopsTables) (fs : FileSys) (k : Kernel) (fd : Nat) : Prop where
  fop : k.mem.load32 (fopPtrAddr k.currentPblock fd) = fops.file
  long : ∃ d, readDentryByName fs (k.mem.cstr (fileNameAddr k.currentPblock fd) (2 ^ 32)) = .ok (some d) ∧
    kb4 * maxDblocksPerFile < fs.fileLength d.inode

/-- The calls that stay in the page: `read` and `getargs` refuse no range, so it has to be inside unless
they return for another reason, and a directory's name has to fit as well; `vidmap` looks at the first
byte only. -/
def PointerCall.Checked (fops : FopsTables) (fs : FileSys) (k : Kernel) : PointerCall → Prop
  | read fd buf nbytes => ¬ Readable k fd buf ∨ FileTooLong fops fs k fd.toNat ∨
      (RangeInPage buf (nbytes % 2 ^ 32).toNat ∧
        (DirectoryOpen fops k fd.toNat → k.dirReadCount < fs.info.numDirEntries →
          RangeInPage buf ((fs.entryName k.dirReadCount).length + 1)))
  | getargs buf nbytes => buf = 0 ∨ k.mem.load32 (argumentLengthAddr k.currentPblock) ≤ 1 ∨
      (nbytes % 2 ^ 32).toNat < k.mem.load32 (argumentLengthAddr k.currentPblock) ∨
      RangeInPage buf (nbytes % 2 ^ 32).toNat
  | vidmap screenStart => screenStart < topPage ∨ screenStart + 4 ≤ bottomPage ∨ bottomPage ≤ screenStart

/-! ### Plans -/

theorem RangeInPage.mono {a n n' : Nat} (h : RangeInPage a n) (hle : n' ≤ n) : RangeInPage a n' :=
  fun j hj => h j (Nat.lt_of_lt_of_le hj hle)

theorem rangeInPage_zero (a : Nat) : RangeInPage a 0 := fun j hj => absurd hj (Nat.not_lt_zero j)

theorem RangeInPage.len_le {a n : Nat} (h : RangeInPage a n) : n ≤ addr4MB := by
  by_contra hlong
  have hlast := (h (n - 1) (by omega)).2
  have hfirst := (h 0 (by omega)).1
  omega

theorem RangeInPage.outside_kernel {a n : Nat} (h : RangeInPage a n) : n = 0 ∨ addr8MB ≤ a := by
  rcases Nat.eq_zero_or_pos n with hzero | hpos
  · exact .inl hzero
  · have hfirst := (h 0 hpos).1
    simp only [addr128MB, addr8MB] at *
    omega

/-- A call that returns -1 without a store is safe whatever the pointer. -/
theorem pointerSafe_refused {p : ReadPlan} (hout : p.out = []) (hret : p.ret = -1) (ptr len : Nat) :
    PointerSafe ptr len (.ok p) := by
  refine ⟨?_, fun _ => ⟨hout, p.finish p.before, ?_⟩⟩
  · rw [hout]
    exact rangeInPage_zero ptr
  · rw [ReadPlan.run, hout, hret]
    rfl

/-- Any other call has to have both ranges inside. -/
theorem pointerSafe_iff {p : ReadPlan} (hret : p.ret ≠ -1) (ptr len : Nat) :
    PointerSafe ptr len (.ok p) ↔ RangeInPage ptr p.out.length ∧ RangeInPage ptr len := by
  refine and_congr_right fun _ => ⟨fun h => ?_, fun h hnot => absurd h hnot⟩
  by_contra hnot
  obtain ⟨-, k, hrun⟩ := h hnot
  obtain ⟨k1, -, hdone⟩ := bind_eq_ok hrun
  exact hret (Prod.mk.inj (Except.ok.inj hdone)).2

theorem pointerSafe_iff_of_le {p : ReadPlan} (hret : p.ret ≠ -1) {len : Nat} (hle : p.out.length ≤ len) (ptr : Nat) :
    PointerSafe ptr len (.ok p) ↔ RangeInPage ptr len := by
  rw [pointerSafe_iff hret]
  exact ⟨fun h => h.2, fun h => ⟨h.mono hle, h⟩⟩

theorem vidmap_safe_iff (k : Kernel) (screenStart : Nat) :
    PointerSafe screenStart 4 (.ok (vidmapPlan k screenStart)) ↔
      screenStart < topPage ∨ screenStart + 4 ≤ bottomPage ∨ bottomPage ≤ screenStart := by
  rw [vidmapPlan]
  split_ifs with hlow hhigh hnull
  · exact ⟨fun _ => .inl hlow, fun _ => pointerSafe_refused rfl rfl _ _⟩
  · exact ⟨fun _ => .inr (.inr hhigh), fun _ => pointerSafe_refused rfl rfl _ _⟩
  · simp only [topPage] at hlow
    omega
  · have hret : (0 : Int) ≠ -1 := by decide
    rw [pointerSafe_iff_of_le (p := ⟨k, Mem.wordBytes videoMem, 0, id⟩) hret (Nat.le_refl 4)]
    simp only [topPage, bottomPage, RangeInPage, addr128MB, addr4MB] at *
    constructor
    · intro h
      have hlast := (h 3 (by decide)).2
      omega
    · intro h j hj
      omega

theorem fetch_length {a n : Nat} {bs : List UInt8} (h : k.fetch a n = .ok bs) : bs.length = n := by
  rw [Kernel.fetch] at h
  split at h
  · next hzero =>
      cases h
      exact hzero.symm
  · split at h
    · cases h
      exact Mem.length_readBytes _ _ _
    · cases h
      exact Mem.length_readBytes _ _ _
    · split at h
      · cases h
        exact Mem.length_readBytes _ _ _
      · cases h
    · cases h

theorem getargs_safe_iff (k : Kernel) (buf : Nat) (nbytes : Int) :
    PointerSafe buf (nbytes % 2 ^ 32).toNat (getargsPlan k buf nbytes) ↔
      buf = 0 ∨ k.mem.load32 (argumentLengthAddr k.currentPblock) ≤ 1 ∨
        (nbytes % 2 ^ 32).toNat < k.mem.load32 (argumentLengthAddr k.currentPblock) ∨
        RangeInPage buf (nbytes % 2 ^ 32).toNat := by
  rw [getargsPlan]
  generalize (nbytes % 2 ^ 32).toNat = n
  generalize k.mem.load32 (argumentLengthAddr k.currentPblock) = length
  split_ifs with hnull hnone hmore
  · exact ⟨fun _ => .inl hnull, fun _ => pointerSafe_refused rfl rfl _ _⟩
  · exact ⟨fun _ => .inr (.inl hnone), fun _ => pointerSafe_refused rfl rfl _ _⟩
  · exact ⟨fun _ => .inr (.inr (.inl hmore)), fun _ => pointerSafe_refused rfl rfl _ _⟩
  · have hrange : (buf = 0 ∨ length ≤ 1 ∨ n < length ∨ RangeInPage buf n) ↔ RangeInPage buf n := by
      simp only [hnull, hnone, hmore, false_or]
    rw [hrange]
    cases hfetch : k.fetch (argumentBufferAddr k.currentPblock) n with
    | error e => exact Iff.rfl
    | ok bytes =>
        have hret : (0 : Int) ≠ -1 := by decide
        exact pointerSafe_iff_of_le (p := ⟨k, bytes, 0, id⟩) hret (fetch_length hfetch).le buf

theorem terminal_safe_iff (h : ConsoleOk k.console) {nbytes : Int} (hint : -2 ^ 31 ≤ nbytes ∧ nbytes < 2 ^ 31)
    (fd buf staleInode : Nat) :
    PointerSafe buf (nbytes % 2 ^ 32).toNat (callPlan fs k .terminal fd nbytes staleInode) ↔
      RangeInPage buf (nbytes % 2 ^ 32).toNat := by
  have hindex := (h.kbBufIndex k.console.displayTerminal).1
  rw [callPlan]
  cases hterm : termRead k.console nbytes with
  | none => exact Iff.rfl
  | some r =>
      obtain ⟨console, ret, bytes⟩ := r
      have hbytes : bytes.length = (nbytes % 2 ^ 32).toNat ∧ 0 ≤ ret := by
        simp only [termRead] at hterm
        split_ifs at hterm with hready hmore
        · cases hterm
          simp only [List.length_append, List.length_map, List.length_range, List.length_replicate]
          exact ⟨by omega, hindex⟩
        · cases hterm
          simp only [List.length_map, List.length_range]
          exact ⟨trivial, le_rfl⟩
      have hret : ret ≠ -1 := by omega
      exact pointerSafe_iff_of_le (p := ⟨{ k with console := console }, bytes, ret, id⟩) hret hbytes.1.le buf

theorem directory_safe_iff (hdir : DirectoryOk fs) (fd buf n staleInode : Nat) (nbytes : Int) :
    PointerSafe buf n (callPlan fs k .directory fd nbytes staleInode) ↔
      RangeInPage buf n ∧ (k.dirReadCount < fs.info.numDirEntries →
        RangeInPage buf ((fs.entryName k.dirReadCount).length + 1)) := by
  rw [callPlan, readDentryByIndex_spec hdir.entries, ok_bind]
  by_cases hlt : k.dirReadCount < fs.info.numDirEntries
  · rw [if_pos hlt]
    have hret : ((fs.entryName k.dirReadCount).length : Int) ≠ -1 := by omega
    refine (pointerSafe_iff (p := ⟨_, fs.entryName k.dirReadCount ++ [0], _, id⟩) hret buf n).trans ?_
    simp only [List.length_append, List.length_singleton]
    exact ⟨fun h => ⟨h.2, fun _ => h.1⟩, fun h => ⟨h.2 hlt, h.1⟩⟩
  · rw [if_neg hlt]
    have hret : (0 : Int) ≠ -1 := by decide
    refine (pointerSafe_iff_of_le (p := emptyPlan _ 0) hret (Nat.zero_le n) buf).trans ?_
    exact ⟨fun h => ⟨h, fun hin => absurd hin hlt⟩, fun h => h.1⟩

theorem PointerSafe.range_dataPlan {fd buf n : Nat} {result : Int × List UInt8}
    (h : PointerSafe buf n (.ok (dataPlan k fd result))) : RangeInPage buf result.2.length := h.1

theorem pointerSafe_dataPlan_iff (k : Kernel) (fd : Nat) {result : Int × List UInt8} (hret : result.1 ≠ -1)
    (buf n : Nat) : PointerSafe buf n (.ok (dataPlan k fd result)) ↔
      RangeInPage buf result.2.length ∧ RangeInPage buf n :=
  pointerSafe_iff (p := dataPlan k fd result) hret buf n

/-- A read of a file that is not too long never returns -1 without a store. -/
theorem dataPlan_safe_iff (k : Kernel) (fd : Nat) {inode pos n : Nat}
    (hsize : fs.fileLength inode ≤ kb4 * maxDblocksPerFile) (hpos : pos ≤ fs.fileLength inode) (hn : n < 2 ^ 32)
    (buf : Nat) : PointerSafe buf n (.ok (dataPlan k fd (readData fs inode pos n))) ↔ RangeInPage buf n := by
  have hbounded : RangeInPage buf n → (readData fs inode pos n).2.length ≤ n := fun h =>
    (readData_bounded fs (Nat.lt_of_le_of_lt h.len_le (by decide)) fun _ => hpos).1
  have hnonneg : (readData fs inode pos n).2.length ≤ addr4MB → (readData fs inode pos n).1 ≠ -1 := fun h => by
    obtain ⟨c, hc, -⟩ := readData_pos_le fs hsize hpos hn h
    rw [hc]
    omega
  generalize readData fs inode pos n = result at hbounded hnonneg
  constructor
  · intro h
    exact ((pointerSafe_dataPlan_iff k fd (hnonneg h.range_dataPlan.len_le) buf n).mp h).2
  · intro h
    have hle := hbounded h
    exact (pointerSafe_dataPlan_iff k fd (hnonneg (hle.trans h.len_le)) buf n).mpr ⟨h.mono hle, h⟩

theorem checked_read_iff {fd : Int} {buf : Nat} (hread : Readable k fd buf)
    (hfile : ¬ FileTooLong fops fs k fd.toNat) (hdirectory : ¬ DirectoryOpen fops k fd.toNat) (nbytes : Int) :
    (PointerCall.read fd buf nbytes).Checked fops fs k ↔ RangeInPage buf (nbytes % 2 ^ 32).toNat := by
  rw [PointerCall.Checked]
  constructor
  · rintro (hnot | hlong | hrange)
    · exact absurd hread hnot
    · exact absurd hlong hfile
    · exact hrange.1
  · exact fun hrange => .inr (.inr ⟨hrange, fun hopen => absurd hopen hdirectory⟩)

/-- A descriptor whose table is not the file operations' is not that of a file. -/
theorem not_fileTooLong {f : Nat} {kind : FopsKind} (hfop : k.mem.load32 (fopPtrAddr k.currentPblock f) = fops.addr kind)
    (hkind : kind ≠ .file) : ¬ FileTooLong fops fs k f :=
  fun h => hkind (fops.addr_inj (hfop.symm.trans h.fop))

theorem not_directoryOpen {f : Nat} {kind : FopsKind}
    (hfop : k.mem.load32 (fopPtrAddr k.currentPblock f) = fops.addr kind) (hkind : kind ≠ .directory) :
    ¬ DirectoryOpen fops k f :=
  fun h => hkind (fops.addr_inj (hfop.symm.trans h.fop))

theorem file_safe_iff (h : ReadersOk fops fs t k) (hdir : DirectoryOk fs) {f i : Nat} (hlow : 2 ≤ f)
    (hf : f < opsSize) (ht : t f = some i) (hfop : k.mem.load32 (fopPtrAddr k.currentPblock f) = fops.addr .file)
    {buf : Nat} (hread : Readable k f buf) (nbytes : Int) (staleInode : Nat) :
    PointerSafe buf (nbytes % 2 ^ 32).toNat (callPlan fs k .file f nbytes staleInode) ↔
      (PointerCall.read f buf nbytes).Checked fops fs k := by
  have hlookup := lookup_stored h.serves hdir hlow hf ht (h.found f i hlow hf ht)
  rw [callPlan_found hlookup, filePlan]
  by_cases hsize : fs.fileLength (fs.entryInode i) ≤ kb4 * maxDblocksPerFile
  · have hfits : ¬ FileTooLong fops fs k f := by
      rintro ⟨-, d, hd, hlong⟩
      rw [hlookup] at hd
      cases hd
      exact absurd hsize (Nat.not_le.mpr hlong)
    rw [checked_read_iff hread hfits (not_directoryOpen hfop (by decide))]
    exact dataPlan_safe_iff k f hsize (h.position f i hlow hf ht hsize) (by omega) buf
  · have hlong : FileTooLong fops fs k f := ⟨hfop, _, hlookup, Nat.not_le.mp hsize⟩
    refine ⟨fun _ => .inr (.inl hlong), fun _ => ?_⟩
    rw [readData_too_long fs (Nat.not_le.mp hsize)]
    exact pointerSafe_refused rfl rfl _ _

theorem read_safe_iff (h : ReadersOk fops fs t k) (hdir : DirectoryOk fs) {nbytes : Int}
    (hint : -2 ^ 31 ≤ nbytes ∧ nbytes < 2 ^ 31) (fd : Int) (buf staleInode : Nat) :
    PointerSafe buf (nbytes % 2 ^ 32).toNat (readPlan fops fs k fd buf nbytes staleInode) ↔
      (PointerCall.read fd buf nbytes).Checked fops fs k := by
  rcases readPlan_cases h.serves fd buf nbytes staleInode with ⟨hnot, heq⟩ | ⟨f, rfl, hlow, hread, hfop, heq⟩ |
    ⟨f, i, rfl, hlow, hf, ht, hread, hfop, heq⟩ <;> rw [heq]
  · exact ⟨fun _ => .inl hnot, fun _ => pointerSafe_refused rfl rfl _ _⟩
  · rw [terminal_safe_iff h.console hint, checked_read_iff hread (not_fileTooLong hfop (by decide))
      (not_directoryOpen hfop (by decide))]
  · generalize kindOfType (fs.entryType i) = kind at hfop
    cases kind with
    | rtc =>
        have hret : (0 : Int) ≠ -1 := by decide
        rw [checked_read_iff hread (not_fileTooLong hfop (by decide)) (not_directoryOpen hfop (by decide))]
        exact pointerSafe_iff_of_le (p := emptyPlan k 0) hret (Nat.zero_le _) buf
    | directory =>
        have hopen : DirectoryOpen fops k f := ⟨h.serves.running, hlow, hf, hread.inUse, hfop⟩
        rw [directory_safe_iff hdir]
        constructor
        · exact fun hsafe => .inr (.inr ⟨hsafe.1, fun _ => hsafe.2⟩)
        · rintro (hnot | hlong | hrange)
          · exact absurd hread hnot
          · exact absurd hlong (not_fileTooLong hfop (by decide))
          · exact ⟨hrange.1, hrange.2 hopen⟩
    | file => exact file_safe_iff h hdir hlow hf ht hfop hread nbytes staleInode
    | terminal =>
        rw [terminal_safe_iff h.console hint, checked_read_iff hread (not_fileTooLong hfop (by decide))
          (not_directoryOpen hfop (by decide))]

theorem pointer_safe_iff (h : ReadersOk fops fs t k) (hdir : DirectoryOk fs) {c : PointerCall} (hint : c.IsInt32)
    (staleInode : Nat) : PointerSafe c.ptr c.len (c.plan fops fs k staleInode) ↔ c.Checked fops fs k := by
  cases c with
  | read fd buf nbytes => exact read_safe_iff h hdir hint fd buf staleInode
  | getargs buf nbytes => exact getargs_safe_iff k buf nbytes
  | vidmap screenStart => exact vidmap_safe_iff k screenStart

/-! ### Runs -/

inductive UserEvent where
  | «open» (name : List UInt8) (ret : Int)
  | close (fd ret : Int)
  | keys (codes : List Nat)
  | call (c : PointerCall) (ret : Int)

/-- The calls of a process that return, and keyboard interrupts in between. -/
inductive UserStep (fops : FopsTables) (fs : FileSys) : Kernel → UserEvent → Kernel → Prop
  | «open» {k k' : Kernel} {name : List UInt8} {ret : Int} (hplain : 0 ∉ name)
      (hcall : sysOpen fops fs k name = .ok (k', ret)) : UserStep fops fs k (.open name ret) k'
  | close {k k' : Kernel} {fd ret : Int} (hcall : sysClose fops k fd = .ok (k', ret)) :
      UserStep fops fs k (.close fd ret) k'
  | keys {k : Kernel} (codes : List Nat) :
      UserStep fops fs k (.keys codes) { k with console := keyboardHandler k.console codes }
  | call {k k' : Kernel} {c : PointerCall} {ret : Int} (staleInode : Nat) (hint : c.IsInt32)
      (hcall : c.exec fops fs k staleInode = .ok (k', ret)) : UserStep fops fs k (.call c ret) k'

/-- The calls with a pointer stay in the page. -/
def ChecksPointers (fops : FopsTables) (fs : FileSys) (k : Kernel) : UserEvent → Prop
  | .call c _ => c.Checked fops fs k
  | _ => True

/-- `getargs` and `vidmap` only store. -/
theorem ReadersOk.stores (h : ReadersOk fops fs t k) (hdir : DirectoryOk fs) {p : ReadPlan} {ptr : Nat} {ret : Int}
    (hbefore : p.before = k) (hfinish : p.finish = id) (ha : p.out = [] ∨ ptr < addr4MB ∨ addr8MB ≤ ptr)
    (hrun : p.run ptr = .ok (k', ret)) : ReadersOk fops fs t k' := by
  rw [ReadPlan.run, hbefore, hfinish] at hrun
  obtain ⟨k1, hstore, hdone⟩ := bind_eq_ok hrun
  cases hdone
  exact h.of_keeps hdir (.of_store ha hstore) (h.console.store hstore)

theorem getargsPlan_stores {buf : Nat} {nbytes : Int} {p : ReadPlan} (h : getargsPlan k buf nbytes = .ok p) :
    p.before = k ∧ p.finish = id := by
  rw [getargsPlan] at h
  generalize (nbytes % 2 ^ 32).toNat = n at h
  split_ifs at h
  · cases h
    exact ⟨rfl, rfl⟩
  · cases h
    exact ⟨rfl, rfl⟩
  · cases h
    exact ⟨rfl, rfl⟩
  · obtain ⟨bytes, -, h⟩ := bind_eq_ok h
    cases h
    exact ⟨rfl, rfl⟩

theorem vidmapPlan_stores (k : Kernel) (screenStart : Nat) :
    (vidmapPlan k screenStart).before = k ∧ (vidmapPlan k screenStart).finish = id := by
  rw [vidmapPlan]
  split_ifs <;> exact ⟨rfl, rfl⟩

theorem ReadersOk.pointerCall (h : ReadersOk fops fs t k) (hdir : DirectoryOk fs) {c : PointerCall} {ret : Int}
    {staleInode : Nat} (hint : c.IsInt32) (hchecked : c.Checked fops fs k)
    (hcall : c.exec fops fs k staleInode = .ok (k', ret)) : ReadersOk fops fs t k' := by
  have hsafe := (pointer_safe_iff h hdir hint staleInode).mpr hchecked
  rw [c.exec_eq_run] at hcall
  obtain ⟨p, hplan, hrun⟩ := bind_eq_ok hcall
  rw [hplan] at hsafe
  have ha : p.out = [] ∨ c.ptr < addr4MB ∨ addr8MB ≤ c.ptr :=
    hsafe.1.outside_kernel.imp List.length_eq_zero_iff.mp .inr
  cases c with
  | read fd buf nbytes => exact h.run hdir hplan ha hrun
  | getargs buf nbytes =>
      obtain ⟨hbefore, hfinish⟩ := getargsPlan_stores hplan
      exact h.stores hdir hbefore hfinish ha hrun
  | vidmap screenStart =>
      obtain ⟨hbefore, hfinish⟩ := vidmapPlan_stores k screenStart
      cases hplan
      exact h.stores hdir hbefore hfinish ha hrun

theorem ReadersOk.userStep (h : ReadersOk fops fs t k) (hdir : DirectoryOk fs) {e : UserEvent}
    (hstep : UserStep fops fs k e k') (hchecks : ChecksPointers fops fs k e) : ∃ t', ReadersOk fops fs t' k' := by
  cases hstep with
  | «open» hplain hcall => exact h.sysOpen hdir hplain hcall
  | close hcall => exact h.sysClose hdir hcall
  | keys codes =>
      exact ⟨t, h.of_keeps hdir (.of_same k _ k.dirReadCount) (h.console.keyboardHandler codes)⟩
  | call staleInode hint hcall => exact ⟨t, h.pointerCall hdir hint hchecks hcall⟩

/-- As long as the calls with a pointer stay in the user's page, the next one does exactly if it is given
a range inside, or is refused for another reason; `vidmap` fails on the last three bytes of the page. -/
theorem user_pointers_safe_iff {start : Kernel} {es : List UserEvent} (hdir : DirectoryOk fs)
    (hrunning : Running start) (htable : TableOk fops fs start.mem start.currentPblock fun _ => none)
    (hconsole : ConsoleOk start.console)
    (hrun : Run (fun k e k' => UserStep fops fs k e k' ∧ ChecksPointers fops fs k e) start es k)
    {c : PointerCall} (hint : c.IsInt32) (staleInode : Nat) :
    c.exec fops fs k staleInode = c.plan fops fs k staleInode >>= (fun p => p.run c.ptr) ∧
    (PointerSafe c.ptr c.len (c.plan fops fs k staleInode) ↔ c.Checked fops fs k) := by
  obtain ⟨t, hreaders⟩ : ∃ t, ReadersOk fops fs t k := by
    apply hrun.invariant ⟨_, readersOk_start hrunning htable hconsole⟩
    rintro k e k' ⟨t, h⟩ hstep
    exact h.userStep hdir hstep.1 hstep.2
  exact ⟨c.exec_eq_run staleInode, pointer_safe_iff hreaders hdir hint staleInode⟩

theorem step_shellOpened_user : UserStep sampleFops sampleFs sampleKernel (.open shellName 2) shellOpened :=
  .open (by decide) (eq_ok_of_returned _ (by decide +kernel))

theorem user_pointers_safe_iff_shell :
    PointerSafe 0x8048000 4 ((PointerCall.read 2 0x8048000 4).plan sampleFops sampleFs shellOpened 0) := by
  have hsafe := (user_pointers_safe_iff directoryOk_sampleFs running_sampleKernel tableOk_sampleKernel
    consoleOk_sampleKernel (.snoc .nil ⟨step_shellOpened_user, trivial⟩) (c := .read 2 0x8048000 4)
    ⟨by decide, by decide⟩ 0).2
  have hrange : ∀ n ≤ 40, RangeInPage 0x8048000 n := fun n hn j hj => by
    simp only [addr128MB, addr4MB]
    omega
  refine hsafe.mpr (.inr (.inr ⟨hrange 4 (by decide), fun _ hlt => hrange _ ?_⟩))
  have hname := directoryOk_sampleFs.names _ hlt
  simp only [fnameLength] at hname
  omega

/-- A `read` of four bytes of a file to the process's own control block: they are stored there, and the
call returns 4. -/
theorem read_into_control_block :
    Run (UserStep sampleFops sampleFs) sampleKernel [.open shellName 2] shellOpened ∧
    (PointerCall.read 2 0x7FA040 4).exec sampleFops sampleFs shellOpened 0 = .ok (shellRead 0x7FA040, 4) ∧
    ¬ PointerSafe 0x7FA040 4 ((PointerCall.read 2 0x7FA040 4).plan sampleFops sampleFs shellOpened 0) := by
  refine ⟨.snoc .nil step_shellOpened_user, eq_ok_of_returned _ (by decide +kernel), fun hsafe => ?_⟩
  have hlen : ((PointerCall.read 2 0x7FA040 4).plan sampleFops sampleFs shellOpened 0).map (fun p => p.out.length) =
      .ok 4 := by decide +kernel
  cases hplan : (PointerCall.read 2 0x7FA040 4).plan sampleFops sampleFs shellOpened 0 with
  | error e =>
      rw [hplan] at hlen
      cases hlen
  | ok p =>
      rw [hplan] at hlen hsafe
      have hfour : p.out.length = 4 := Except.ok.inj hlen
      have hfirst := (hsafe.1 0 (by rw [hfour]; decide)).1
      exact absurd hfirst (by decide)

end UnixOs
