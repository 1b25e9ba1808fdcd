import UnixOs.ReadPlan
import UnixOs.KeyboardBounds

/-! How much a `read` stores and returns, for the four kinds of descriptors, in every state that opens,
reads, closes and keystrokes lead to. -/

namespace UnixOs

variable {fops : FopsTables} {fs : FileSys} {k k' : Kernel} {t : Nat → Option Nat}

/-- Nothing is stored at index `n` of the buffer or above, and the return value is -1 or at most `n`. -/
structure ReadPlan.Bounded (p : ReadPlan) (n : Nat) : Prop where
  out : p.out.length ≤ n
  ret : p.ret = -1 ∨ (0 ≤ p.ret ∧ p.ret ≤ n)

/-- A read of a directory whose next name does not fit the bytes asked for. -/
structure NameTooLong (fops : FopsTables) (fs : FileSys) (k : Kernel) (fd : Int) (buf n : Nat) : Prop where
  notNull : buf ≠ 0
  directory : DirectoryOpen fops k fd.toNat
  notEnd : k.dirReadCount < fs.info.numDirEntries
  long : n ≤ (fs.entryName k.dirReadCount).length

/-- A block count that fits the number of bytes: all of them are copied. -/
theorem length_copyBlocks (fs : FileSys) (inode n check offset readBytes : Nat) (hoff : offset ≤ kb4)
    (hsmall : readBytes < 2 ^ 32) (hct : kb4 * n ≤ readBytes) :
    (copyBlocks fs inode n check offset readBytes).length = readBytes := by
  induction n generalizing check offset readBytes with
  | zero =>
      rw [copyBlocks]
      split_ifs with hpos
      · exact Mem.length_readBytes _ _ _
      · rw [List.length_nil]
        omega
  | succ n ih =>
      have hge : kb4 - offset + kb4 * n ≤ readBytes := by
        simp only [kb4] at *
        omega
      have hpos : readBytes > 0 := by
        simp only [kb4] at hct
        omega
      have hrest : (readBytes + 2 ^ 32 - (kb4 - offset)) % 2 ^ 32 = readBytes - (kb4 - offset) := by omega
      rw [copyBlocks, if_pos hpos, hrest, List.length_append, Mem.length_readBytes,
        ih _ _ _ (Nat.zero_le _) (by omega) (by omega)]
      omega

/-- A request whose end wraps around is not trimmed. -/
theorem length_readData_of_wrap (fs : FileSys) {inode pos n : Nat}
    (hsize : fs.fileLength inode ≤ kb4 * maxDblocksPerFile) (hpos : pos < fs.fileLength inode)
    (hn : n < 2 ^ 32) (hwrap : 2 ^ 32 ≤ pos + n) : (readData fs inode pos n).2.length = n := by
  have hlen : fs.fileLength inode < 2 ^ 22 := by
    simp only [kb4, maxDblocksPerFile] at hsize
    omega
  have hsum : (pos + n) % 2 ^ 32 = pos + n - 2 ^ 32 := by omega
  have hend : ¬ (fs.fileLength inode + 2 ^ 32 - pos) % 2 ^ 32 = 0 := by omega
  have hkept : ¬ pos + n - 2 ^ 32 > fs.fileLength inode := by omega
  simp only [readData, hsum]
  rw [if_neg (Nat.not_lt.mpr hsize), if_neg hend, if_neg hkept, hsum,
    skipBlocks_spec pos pos 0 _ (by simp only [kb4]; omega)]
  have hblocks : (((pos + n - 2 ^ 32) / kb4 : Nat) - ((pos - 1) / kb4 : Nat) : Int).toNat ≤ 1023 := by
    simp only [kb4]
    omega
  apply length_copyBlocks
  · simp only [kb4]
    omega
  · exact hn
  · refine le_trans (Nat.mul_le_mul_left _ hblocks) ?_
    simp only [kb4]
    omega

theorem store_length_le {a : Nat} {bs : List UInt8} (h : k.store a bs = .ok k') : bs.length ≤ addr4MB := by
  by_contra hlong
  have hempty : ¬ bs.length = 0 := by omega
  have hnone : areaOf a bs.length = none := by
    have hvideo : ¬ (videoMem ≤ a ∧ a + bs.length ≤ videoEnd) := by
      simp only [videoEnd, addr4MB] at *
      omega
    have hkernel : ¬ (addr4MB ≤ a ∧ a + bs.length ≤ addr8MB) := by
      simp only [addr4MB, addr8MB] at *
      omega
    rw [areaOf, if_neg hvideo, if_neg hkernel, if_neg (by omega)]
  rw [Kernel.store, if_neg hempty, hnone] at h
  cases h

theorem toNat_add_mod {a c : Nat} (h : a + c < 2 ^ 32) : (((a : Int) + c) % 2 ^ 32).toNat = a + c := by omega

/-- A read whose bytes could be stored does not take a position behind the end of the file. -/
theorem readData_pos_le (fs : FileSys) {inode pos n : Nat}
    (hsize : fs.fileLength inode ≤ kb4 * maxDblocksPerFile) (hpos : pos ≤ fs.fileLength inode)
    (hn : n < 2 ^ 32) (hfits : (readData fs inode pos n).2.length ≤ addr4MB) :
    ∃ c : Nat, (readData fs inode pos n).1 = c ∧ pos + c ≤ fs.fileLength inode := by
  by_cases hend : pos = fs.fileLength inode
  · have hcheck : (fs.fileLength inode + 2 ^ 32 - pos) % 2 ^ 32 = 0 := by omega
    refine ⟨0, ?_, hpos⟩
    simp only [readData]
    rw [if_neg (Nat.not_lt.mpr hsize), if_pos hcheck]
    rfl
  · have hlt : pos < fs.fileLength inode := by omega
    have hsum : pos + n < 2 ^ 32 := by
      by_contra hwrap
      rw [length_readData_of_wrap fs hsize hlt hn (by omega)] at hfits
      simp only [kb4, maxDblocksPerFile, addr4MB] at *
      omega
    refine ⟨min n (fs.fileLength inode - pos), ?_, by omega⟩
    rw [readData_spec fs hsize hpos hsum]

/-! ### Runs -/

inductive IoCall where
  | «open» (name : List UInt8) (ret : Int)
  | close (fd ret : Int)
  | read (fd : Int) (buf : Nat) (nbytes ret : Int)
  | keys (codes : List Nat)

/-- The calls of a process that return, and keyboard interrupts in between. -/
inductive IoStep (fops : FopsTables) (fs : FileSys) : Kernel → IoCall → Kernel → Prop
  | «open» {k k' : Kernel} {name : List UInt8} {ret : Int} (hplain : 0 ∉ name)
      (hcall : sysOpen fops fs k name = .ok (k', ret)) : IoStep fops fs k (.open name ret) k'
  | close {k k' : Kernel} {fd ret : Int} (hcall : sysClose fops k fd = .ok (k', ret)) :
      IoStep fops fs k (.close fd ret) k'
  | read {k k' : Kernel} {fd : Int} {buf : Nat} {nbytes ret : Int} (staleInode : Nat)
      (hcall : sysRead fops fs k fd buf nbytes staleInode = .ok (k', ret)) :
      IoStep fops fs k (.read fd buf nbytes ret) k'
  | keys {k : Kernel} (codes : List Nat) :
      IoStep fops fs k (.keys codes) { k with console := keyboardHandler k.console codes }

/-- The buffer of a read does not start in the kernel's own page. -/
def ReadsOutsideKernel : IoCall → Prop
  | .read _ buf _ _ => buf < addr4MB ∨ addr8MB ≤ buf
  | _ => True

/-- The control block represents a table of entries that their names lead back to, no position is behind
the end of its file, and the keyboard's indices are in range. -/
structure ReadersOk (fops : FopsTables) (fs : FileSys) (t : Nat → Option Nat) (k : Kernel) : Prop where
  serves : Serves fops fs t k
  console : ConsoleOk k.console
  found : ∀ fd i, 2 ≤ fd → fd < opsSize → t fd = some i → findEntry fs (fs.entryName i) = some i
  position : ∀ fd i, 2 ≤ fd → fd < opsSize → t fd = some i →
    fs.fileLength (fs.entryInode i) ≤ kb4 * maxDblocksPerFile →
    k.mem.load32 (filePosAddr k.currentPblock fd) ≤ fs.fileLength (fs.entryInode i)

theorem ConsoleOk.store {a : Nat} {bs : List UInt8} (h : ConsoleOk k.console) (hstore : k.store a bs = .ok k') :
    ConsoleOk k'.console := by
  obtain ⟨m, vram, rfl⟩ := store_changes hstore
  exact { h with }

/-- The keyboard's state when the store is made is the one that is left. -/
theorem ConsoleOk.callPlan {kind : FopsKind} {fd staleInode : Nat} {nbytes : Int} {p : ReadPlan}
    (h : ConsoleOk k.console) (hplan : callPlan fs k kind fd nbytes staleInode = .ok p) :
    ConsoleOk p.before.console ∧ ∀ k1, (p.finish k1).console = k1.console := by
  cases kind with
  | rtc =>
      cases hplan
      exact ⟨h, fun _ => rfl⟩
  | directory =>
      obtain ⟨d, -, hplan⟩ := bind_eq_ok hplan
      cases d <;> (cases hplan; exact ⟨h, fun _ => rfl⟩)
  | file =>
      obtain ⟨d, -, hplan⟩ := bind_eq_ok hplan
      cases hplan
      exact ⟨h, fun _ => rfl⟩
  | terminal =>
      rw [UnixOs.callPlan] at hplan
      cases hterm : UnixOs.termRead k.console nbytes with
      | none =>
          rw [hterm] at hplan
          cases hplan
      | some r =>
          rw [hterm] at hplan
          cases hplan
          exact ⟨h.termRead hterm, fun _ => rfl⟩

theorem ConsoleOk.run {kind : FopsKind} {fd buf staleInode : Nat} {nbytes ret : Int} {p : ReadPlan}
    (h : ConsoleOk k.console) (hplan : UnixOs.callPlan fs k kind fd nbytes staleInode = .ok p)
    (hcall : p.run buf = .ok (k', ret)) : ConsoleOk k'.console := by
  obtain ⟨hbefore, hfinish⟩ := h.callPlan hplan
  obtain ⟨k1, hstore, hdone⟩ := bind_eq_ok hcall
  cases hdone
  rw [hfinish]
  exact hbefore.store hstore

/-- A plan for anything but a file changes no memory beside the store. -/
theorem run_keeps {kind : FopsKind} {fd buf staleInode : Nat} {nbytes ret : Int} {p : ReadPlan}
    (hkind : kind ≠ .file) (hplan : callPlan fs k kind fd nbytes staleInode = .ok p)
    (ha : p.out = [] ∨ buf < addr4MB ∨ addr8MB ≤ buf) (hcall : p.run buf = .ok (k', ret)) :
    KeepsKernelPage k k' := by
  obtain ⟨k1, hstore, hdone⟩ := bind_eq_ok hcall
  have hkeeps : KeepsKernelPage p.before k1 := .of_store ha hstore
  cases hdone
  cases kind with
  | rtc =>
      cases hplan
      exact hkeeps
  | directory =>
      obtain ⟨d, -, hplan⟩ := bind_eq_ok hplan
      cases d with
      | none =>
          cases hplan
          exact (KeepsKernelPage.of_same k k.console 0).trans hkeeps
      | some d =>
          cases hplan
          exact (KeepsKernelPage.of_same k k.console (k.dirReadCount + 1)).trans hkeeps
  | file => exact absurd rfl hkind
  | terminal =>
      rw [callPlan] at hplan
      cases hterm : termRead k.console nbytes with
      | none =>
          rw [hterm] at hplan
          cases hplan
      | some r =>
          obtain ⟨console, n, bytes⟩ := r
          rw [hterm] at hplan
          cases hplan
          exact (KeepsKernelPage.of_same k console k.dirReadCount).trans hkeeps

/-- A descriptor that `read` serves. -/
structure Readable (k : Kernel) (fd : Int) (buf : Nat) : Prop where
  low : 0 ≤ fd
  high : fd < opsSize
  notNull : buf ≠ 0
  inUse : k.mem.load32 (inUseAddr k.currentPblock fd.toNat) % 2 = 1
  notOut : fd ≠ 1

/-- A `read` is refused, or is the terminal's, or is that of an opened entry. -/
theorem readPlan_cases (h : Serves fops fs t k) (fd : Int) (buf : Nat) (nbytes : Int) (staleInode : Nat) :
    (¬ Readable k fd buf ∧ readPlan fops fs k fd buf nbytes staleInode = .ok (emptyPlan k (-1))) ∨
    (∃ f : Nat, fd = f ∧ f < 2 ∧ Readable k fd buf ∧
      k.mem.load32 (fopPtrAddr k.currentPblock f) = fops.addr .terminal ∧
      readPlan fops fs k fd buf nbytes staleInode = callPlan fs k .terminal f nbytes staleInode) ∨
    (∃ f i : Nat, fd = f ∧ 2 ≤ f ∧ f < opsSize ∧ t f = some i ∧ Readable k fd buf ∧
      k.mem.load32 (fopPtrAddr k.currentPblock f) = fops.addr (kindOfType (fs.entryType i)) ∧
      readPlan fops fs k fd buf nbytes staleInode =
        callPlan fs k (kindOfType (fs.entryType i)) f nbytes staleInode) := by
  by_cases hrange : 0 ≤ fd ∧ fd < opsSize ∧ buf ≠ 0
  · obtain ⟨f, rfl⟩ := Int.eq_ofNat_of_zero_le hrange.1
    have hf : f < opsSize := by omega
    rw [readPlan, if_pos hrange, h.running.checkUse_eq hf, ok_bind]
    by_cases huse : k.mem.load32 (inUseAddr k.currentPblock f) % 2 ≠ 0 ∧ (f : Int) ≠ 1
    · have hodd : k.mem.load32 (inUseAddr k.currentPblock f) % 2 = 1 := by omega
      have hreadable : Readable k f buf := ⟨hrange.1, hrange.2.1, hrange.2.2, hodd, huse.2⟩
      rw [if_pos huse, Int.toNat_natCast]
      rcases fopsAt_inUse h.table hf huse.1 with ⟨hlow, hkind⟩ | ⟨i, hlow, ht, hkind⟩
      · rw [hkind, ok_bind]
        exact .inr (.inl ⟨f, rfl, hlow, hreadable, (h.table.terminal f hlow).2, rfl⟩)
      · rw [hkind, ok_bind]
        exact .inr (.inr ⟨f, i, rfl, hlow, hf, ht, hreadable, (h.table.opened f i hlow hf ht).2.2.1, rfl⟩)
    · rw [if_neg huse]
      refine .inl ⟨fun hread => huse ⟨?_, hread.notOut⟩, rfl⟩
      have hodd := hread.inUse
      rw [Int.toNat_natCast] at hodd
      omega
  · rw [readPlan, if_neg hrange]
    exact .inl ⟨fun hread => hrange ⟨hread.low, hread.high, hread.notNull⟩, rfl⟩

namespace ReadersOk

theorem of_keeps (h : ReadersOk fops fs t k) (hdir : DirectoryOk fs) (hkeeps : KeepsKernelPage k k')
    (hconsole : ConsoleOk k'.console) : ReadersOk fops fs t k' := by
  refine ⟨h.serves.of_keeps hdir hkeeps, hconsole, h.found, fun fd i hlow hhigh ht hsize => ?_⟩
  rw [hkeeps.filePos h.serves.running hhigh]
  exact h.position fd i hlow hhigh ht hsize

/-- A change of one descriptor. -/
theorem update {m : Mem} (h : ReadersOk fops fs t k) {fd : Nat} (entry : Option Nat)
    (honly : OnlySlot k.currentPblock fd k.mem m)
    (htable : TableOk fops fs m k.currentPblock (Function.update t fd entry))
    (hfound : ∀ i, entry = some i → findEntry fs (fs.entryName i) = some i)
    (hpos : ∀ i, entry = some i → fs.fileLength (fs.entryInode i) ≤ kb4 * maxDblocksPerFile →
      m.load32 (filePosAddr k.currentPblock fd) ≤ fs.fileLength (fs.entryInode i)) :
    ReadersOk fops fs (Function.update t fd entry) { k with mem := m } := by
  have hrun := h.serves.running
  refine ⟨⟨⟨hrun.one, hrun.max, hrun.frame⟩, htable⟩, h.console, fun other i hlow hhigh ht => ?_,
    fun other i hlow hhigh ht hsize => ?_⟩
  · by_cases hne : other = fd
    · subst hne
      rw [Function.update_self] at ht
      exact hfound i ht
    · rw [Function.update_of_ne hne] at ht
      exact h.found other i hlow hhigh ht
  · by_cases hne : other = fd
    · subst hne
      rw [Function.update_self] at ht
      exact hpos i ht hsize
    · rw [Function.update_of_ne hne] at ht
      have hword : m.load32 (filePosAddr k.currentPblock other) =
          k.mem.load32 (filePosAddr k.currentPblock other) := honly.word hne 40 (by decide)
      exact hword.trans_le (h.position other i hlow hhigh ht hsize)

theorem sysOpen (h : ReadersOk fops fs t k) (hdir : DirectoryOk fs) {name : List UInt8} {ret : Int}
    (hplain : 0 ∉ name) (hcall : sysOpen fops fs k name = .ok (k', ret)) :
    ∃ t', ReadersOk fops fs t' k' := by
  have hrun := h.serves.running
  have htable := h.serves.table
  cases hfree : firstFree t with
  | none =>
      rw [UnixOs.sysOpen, freeFrom_eq_firstFree hrun htable, hfree] at hcall
      cases hcall
      exact ⟨t, h⟩
  | some fd =>
      have halias : ¬ Aliased fs name := by
        intro halias
        rw [UnixOs.sysOpen, freeFrom_eq_firstFree hrun htable, hfree, ok_bind,
          readDentryByName_aliased hdir.entries halias] at hcall
        cases hcall
      cases hfind : findEntry fs name with
      | none =>
          rw [sysOpen_fail hrun hdir htable hplain halias (.inr hfind)] at hcall
          cases hcall
          exact ⟨t, h⟩
      | some i =>
          rw [sysOpen_ok hrun hdir htable hplain halias hfree hfind] at hcall
          cases hcall
          obtain ⟨hlow, -, -⟩ := firstFree_some hfree
          obtain ⟨hi, hname⟩ := findEntry_some hfind
          obtain ⟨huse, hzero, hfop, hstored⟩ := openSlot_spec fops k.mem k.currentPblock hdir hi fd
          refine ⟨_, h.update (some i) (openSlot_only hdir hi fd) ?_ ?_ ?_⟩
          · refine htable.update hdir hlow (openSlot_only hdir hi fd) (some i) ?_ (fun hnone => by cases hnone)
            intro j hj
            cases hj
            exact ⟨hi, by rw [huse], hfop, hstored⟩
          · intro j hj
            cases hj
            rw [hname, hfind]
          · rintro j hj -
            rw [hzero]
            exact Nat.zero_le _

theorem sysClose (h : ReadersOk fops fs t k) (hdir : DirectoryOk fs) {fd ret : Int}
    (hcall : sysClose fops k fd = .ok (k', ret)) : ∃ t', ReadersOk fops fs t' k' := by
  have hrun := h.serves.running
  have htable := h.serves.table
  by_cases hrange : 0 ≤ fd ∧ fd < opsSize
  · obtain ⟨n, rfl⟩ := Int.eq_ofNat_of_zero_le hrange.1
    have hn : n < opsSize := by omega
    by_cases hfree : n < 2 ∨ t n = none
    · rw [sysClose_fail hrun htable hn hfree] at hcall
      cases hcall
      exact ⟨t, h⟩
    · rw [not_or] at hfree
      have hlow : 2 ≤ n := by omega
      obtain ⟨i, ht⟩ := Option.ne_none_iff_exists'.mp hfree.2
      obtain ⟨huse, hfop⟩ := closeFields_spec k.mem k.currentPblock n
      rw [sysClose_ok hrun htable hlow hn ht] at hcall
      cases hcall
      refine ⟨_, h.update none (closeFields_only _ _ _) ?_ (fun i hi => by cases hi) fun i hi => by cases hi⟩
      exact htable.update hdir hlow (closeFields_only _ _ _) none (fun i hi => by cases hi)
        fun _ => ⟨by rw [huse], hfop⟩
  · obtain ⟨rfl, -⟩ := sysClose_out_of_range (by omega) hcall
    exact ⟨t, h⟩

theorem filePlan (h : ReadersOk fops fs t k) (hdir : DirectoryOk fs) {fd i buf : Nat}
    {nbytes ret : Int} (hlow : 2 ≤ fd) (hhigh : fd < opsSize) (ht : t fd = some i)
    (ha : (filePlan fs k fd nbytes (fs.entryInode i)).out = [] ∨ buf < addr4MB ∨ addr8MB ≤ buf)
    (hcall : (filePlan fs k fd nbytes (fs.entryInode i)).run buf = .ok (k', ret)) : ReadersOk fops fs t k' := by
  rw [UnixOs.filePlan, out_dataPlan] at ha
  rw [UnixOs.filePlan, run_dataPlan] at hcall
  have hn : (nbytes % 2 ^ 32).toNat < 2 ^ 32 := by omega
  generalize (nbytes % 2 ^ 32).toNat = n at hcall hn ha
  generalize hresult : readData fs (fs.entryInode i) (k.mem.load32 (filePosAddr k.currentPblock fd)) n = result
    at hcall ha
  obtain ⟨k1, hstore, hdone⟩ := bind_eq_ok hcall
  obtain ⟨rfl, -⟩ := Prod.mk.inj (Except.ok.inj hdone)
  have hkeeps : KeepsKernelPage k k1 := .of_store ha hstore
  have hmid := h.of_keeps hdir hkeeps (h.console.store hstore)
  have hold := hkeeps.filePos h.serves.running hhigh
  rw [← hkeeps.currentPblock_eq, advancePos, hold]
  generalize hpos : (((k.mem.load32 (filePosAddr k.currentPblock fd) : Nat) + result.1) % 2 ^ 32).toNat = pos
  have honly := (OnlySlot.refl k1.currentPblock fd k1.mem).store32 40 pos (by decide)
  have hupdate := hmid.update (some i) honly ?_ ?_ ?_
  · rwa [← ht, Function.update_eq_self] at hupdate
  · rw [← ht, Function.update_eq_self]
    exact hmid.serves.table.storePos hdir hlow hhigh ht pos
  · intro j hj
    cases hj
    exact h.found fd i hlow hhigh ht
  · intro j hj hsize
    cases hj
    obtain ⟨c, hc, hle⟩ := readData_pos_le fs hsize (h.position fd i hlow hhigh ht hsize) hn
      (by rw [hresult]; exact store_length_le hstore)
    have hlen : fs.fileLength (fs.entryInode i) < 2 ^ 32 := Mem.load32_lt _ _
    rw [← hresult, hc, toNat_add_mod (hle.trans_lt hlen)] at hpos
    rw [hpos] at hle
    exact (Mem.load32_store32_of_lt _ _ (hle.trans_lt hlen)).trans_le hle

/-- Carrying out a plan that was made for this state. -/
theorem run (h : ReadersOk fops fs t k) (hdir : DirectoryOk fs) {fd : Int} {buf staleInode : Nat}
    {nbytes ret : Int} {p : ReadPlan} (hplan : readPlan fops fs k fd buf nbytes staleInode = .ok p)
    (ha : p.out = [] ∨ buf < addr4MB ∨ addr8MB ≤ buf) (hcall : p.run buf = .ok (k', ret)) :
    ReadersOk fops fs t k' := by
  rcases readPlan_cases h.serves fd buf nbytes staleInode with ⟨-, heq⟩ | ⟨f, rfl, -, -, -, heq⟩ |
    ⟨f, i, rfl, hlow, hf, ht, -, -, heq⟩ <;> rw [heq] at hplan
  · cases hplan
    cases hcall
    exact h
  · exact h.of_keeps hdir (run_keeps (by decide) hplan ha hcall) (h.console.run hplan hcall)
  · by_cases hfile : kindOfType (fs.entryType i) = .file
    · rw [hfile, callPlan_found (lookup_stored h.serves hdir hlow hf ht (h.found f i hlow hf ht))] at hplan
      obtain rfl := Except.ok.inj hplan
      exact h.filePlan hdir hlow hf ht ha hcall
    · exact h.of_keeps hdir (run_keeps hfile hplan ha hcall) (h.console.run hplan hcall)

theorem step (h : ReadersOk fops fs t k) (hdir : DirectoryOk fs) {e : IoCall} (hstep : IoStep fops fs k e k')
    (hbuf : ReadsOutsideKernel e) : ∃ t', ReadersOk fops fs t' k' := by
  cases hstep with
  | «open» hplain hcall => exact h.sysOpen hdir hplain hcall
  | close hcall => exact h.sysClose hdir hcall
  | read staleInode hcall =>
      rw [sysRead_eq_run] at hcall
      obtain ⟨p, hplan, hcall⟩ := bind_eq_ok hcall
      exact ⟨t, h.run hdir hplan (.inr hbuf) hcall⟩
  | keys codes =>
      exact ⟨t, h.of_keeps hdir (.of_same k _ k.dirReadCount) (h.console.keyboardHandler codes)⟩

end ReadersOk

/-! ### The four kinds -/

theorem bounded_emptyPlan (k : Kernel) {ret : Int} (hret : ret = -1 ∨ ret = 0) (n : Nat) :
    (emptyPlan k ret).Bounded n := by
  refine ⟨Nat.zero_le _, ?_⟩
  simp only [emptyPlan]
  omega

/-- `term_read` stores exactly as many bytes as asked for: the line, cut or filled up with zeros. -/
theorem bounded_terminal (h : ConsoleOk k.console) {fd n staleInode : Nat} (hn : n < 2 ^ 31) {p : ReadPlan}
    (hplan : callPlan fs k .terminal fd n staleInode = .ok p) : p.Bounded n := by
  have hindex := (h.kbBufIndex k.console.displayTerminal).1
  simp only [callPlan, termRead] at hplan
  split_ifs at hplan with hready hmore
  · cases hplan
    refine ⟨?_, .inr ⟨hindex, hmore.le⟩⟩
    simp only [List.length_append, List.length_map, List.length_range, List.length_replicate]
    omega
  · cases hplan
    refine ⟨?_, .inr ⟨le_rfl, Int.natCast_nonneg n⟩⟩
    simp only [List.length_map, List.length_range]
    omega

theorem readData_too_long (fs : FileSys) {inode : Nat} (hsize : kb4 * maxDblocksPerFile < fs.fileLength inode)
    (pos n : Nat) : readData fs inode pos n = (-1, []) := by
  simp only [readData]
  rw [if_pos hsize]

/-- What `read_data` stores and returns of a file that is not read behind its end, or is too long. -/
theorem readData_bounded (fs : FileSys) {inode pos n : Nat} (hn : n < 2 ^ 31)
    (hpos : fs.fileLength inode ≤ kb4 * maxDblocksPerFile → pos ≤ fs.fileLength inode) :
    (readData fs inode pos n).2.length ≤ n ∧
      ((readData fs inode pos n).1 = -1 ∨ (0 ≤ (readData fs inode pos n).1 ∧ (readData fs inode pos n).1 ≤ n)) := by
  by_cases hsize : fs.fileLength inode ≤ kb4 * maxDblocksPerFile
  · have hle := hpos hsize
    have hsum : pos + n < 2 ^ 32 := by
      simp only [kb4, maxDblocksPerFile] at hsize
      omega
    rw [readData_spec fs hsize hle hsum]
    refine ⟨?_, .inr ⟨Int.natCast_nonneg _, ?_⟩⟩
    · rw [length_fileSlice]
      exact Nat.min_le_left _ _
    · exact Int.ofNat_le.mpr (Nat.min_le_left _ _)
  · rw [readData_too_long fs (Nat.not_le.mp hsize)]
    exact ⟨Nat.zero_le _, .inl rfl⟩

theorem bounded_dataPlan (k : Kernel) (fd : Nat) {result : Int × List UInt8} {n : Nat} (hout : result.2.length ≤ n)
    (hret : result.1 = -1 ∨ (0 ≤ result.1 ∧ result.1 ≤ n)) : (dataPlan k fd result).Bounded n :=
  ⟨hout, hret⟩

theorem bounded_file (h : ReadersOk fops fs t k) (hdir : DirectoryOk fs) {fd i n staleInode : Nat} (hlow : 2 ≤ fd)
    (hhigh : fd < opsSize) (ht : t fd = some i) (hn : n < 2 ^ 31) {p : ReadPlan}
    (hplan : callPlan fs k .file fd n staleInode = .ok p) : p.Bounded n := by
  have hlookup := lookup_stored h.serves hdir hlow hhigh ht (h.found fd i hlow hhigh ht)
  have hnat : ((n : Int) % 2 ^ 32).toNat = n := by omega
  obtain ⟨hout, hret⟩ := readData_bounded fs hn (h.position fd i hlow hhigh ht)
  rw [callPlan_found hlookup, filePlan, hnat] at hplan
  rw [← Except.ok.inj hplan]
  exact bounded_dataPlan k fd hout hret

/-- A directory's name is stored with its NUL however many bytes were asked for. -/
theorem bounded_directory_iff (hdir : DirectoryOk fs) {fd n staleInode : Nat} {nbytes : Int} {p : ReadPlan}
    (hplan : callPlan fs k .directory fd nbytes staleInode = .ok p) :
    p.Bounded n ↔ ¬ (k.dirReadCount < fs.info.numDirEntries ∧ n ≤ (fs.entryName k.dirReadCount).length) := by
  rw [callPlan, readDentryByIndex_spec hdir.entries, ok_bind] at hplan
  by_cases hlt : k.dirReadCount < fs.info.numDirEntries
  · rw [if_pos hlt] at hplan
    cases hplan
    constructor
    · rintro ⟨hout, -⟩ ⟨-, hlong⟩
      simp only [List.length_append, List.length_singleton] at hout
      omega
    · intro hfits
      have hlen : (fs.entryName k.dirReadCount).length < n := by
        by_contra hge
        exact hfits ⟨hlt, by omega⟩
      refine ⟨?_, .inr ⟨Int.natCast_nonneg _, ?_⟩⟩
      · simp only [List.length_append, List.length_singleton]
        omega
      · simp only
        omega
  · rw [if_neg hlt] at hplan
    cases hplan
    exact ⟨fun _ hboth => hlt hboth.1, fun _ => bounded_emptyPlan _ (.inr rfl) n⟩

theorem FopsTables.addr_inj (fops : FopsTables) {a b : FopsKind} (h : fops.addr a = fops.addr b) : a = b := by
  have hat := fopsAt_addr fops a
  rw [h, fopsAt_addr] at hat
  exact (Except.ok.inj hat).symm

theorem Readable.of_directoryOpen {fd : Int} {buf : Nat} (h : DirectoryOpen fops k fd.toNat) (hnull : buf ≠ 0) :
    Readable k fd buf := by
  have hlow := h.low
  have hhigh := h.high
  exact ⟨by omega, by omega, hnull, h.inUse, by omega⟩

theorem readPlan_bounded_iff (h : ReadersOk fops fs t k) (hdir : DirectoryOk fs) {fd : Int}
    {buf n staleInode : Nat} (hn : n < 2 ^ 31) {p : ReadPlan}
    (hplan : readPlan fops fs k fd buf n staleInode = .ok p) :
    p.Bounded n ↔ ¬ NameTooLong fops fs k fd buf n := by
  rcases readPlan_cases h.serves fd buf n staleInode with ⟨hnot, heq⟩ | ⟨f, rfl, hlow, -, -, heq⟩ |
    ⟨f, i, rfl, hlow, hf, ht, hread, hfop, heq⟩ <;> rw [heq] at hplan
  · have hshort : ¬ NameTooLong fops fs k fd buf n := fun htoo =>
      hnot (.of_directoryOpen htoo.directory htoo.notNull)
    cases hplan
    exact ⟨fun _ => hshort, fun _ => bounded_emptyPlan k (.inl rfl) n⟩
  · have hshort : ¬ NameTooLong fops fs k f buf n := fun htoo => by
      have := htoo.directory.low
      omega
    exact ⟨fun _ => hshort, fun _ => bounded_terminal h.console hn hplan⟩
  · generalize kindOfType (fs.entryType i) = kind at hplan hfop
    by_cases hdirectory : kind = .directory
    · rw [hdirectory] at hplan hfop
      rw [bounded_directory_iff hdir hplan]
      exact not_congr ⟨fun hboth => ⟨hread.notNull, ⟨h.serves.running, hlow, hf, hread.inUse, hfop⟩, hboth.1,
        hboth.2⟩, fun htoo => ⟨htoo.notEnd, htoo.long⟩⟩
    · have hshort : ¬ NameTooLong fops fs k f buf n := fun htoo =>
        hdirectory (fops.addr_inj (hfop.symm.trans htoo.directory.fop))
      refine ⟨fun _ => hshort, fun _ => ?_⟩
      cases kind with
      | rtc =>
          cases hplan
          exact bounded_emptyPlan k (.inr rfl) n
      | directory => exact absurd rfl hdirectory
      | file => exact bounded_file h hdir hlow hf ht hn hplan
      | terminal => exact bounded_terminal h.console hn hplan

theorem readersOk_start {start : Kernel} (hrunning : Running start)
    (htable : TableOk fops fs start.mem start.currentPblock fun _ => none) (hconsole : ConsoleOk start.console) :
    ReadersOk fops fs (fun _ => none) start :=
  ⟨⟨hrunning, htable⟩, hconsole, fun _ _ _ _ h => (Option.some_ne_none _ h.symm).elim,
    fun _ _ _ _ h => (Option.some_ne_none _ h.symm).elim⟩

theorem consoleOk_sampleKernel : ConsoleOk sampleKernel.console :=
  AfterBoot.consoleOk ⟨⟨le_rfl, by decide, le_rfl, by decide⟩, rfl, rfl, rfl, rfl, rfl, rfl⟩

theorem step_dotOpened_io : IoStep sampleFops listedFs sampleKernel (.open [0x2E] 2) dotOpened :=
  .open (by decide) (eq_ok_of_returned _ (by decide +kernel))

end UnixOs
