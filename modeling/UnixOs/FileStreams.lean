import UnixOs.DescriptorRuns

/-! Descriptors as streams. A descriptor opened on a regular file delivers the file's bytes in order:
each read continues where the last one on that descriptor ended, whatever is done with the others in
between. -/

namespace UnixOs

/-- An image whose directory is well formed, with distinct names and files that fit their inode. -/
structure ImageOk (fs : FileSys) : Prop extends DirectoryOk fs where
  nonempty : ∀ i < fs.info.numDirEntries, fs.entryName i ≠ []
  distinctNames : ∀ i < fs.info.numDirEntries, ∀ j < fs.info.numDirEntries,
    fs.entryName i = fs.entryName j → i = j
  sizes : ∀ i < fs.info.numDirEntries, fs.entryType i = 2 →
    fs.fileLength (fs.entryInode i) ≤ kb4 * maxDblocksPerFile

/-- An open descriptor: the entry it was opened on and the bytes its reads have returned since. -/
structure Stream where
  entry : Nat
  got : List UInt8
  deriving DecidableEq

/-- The length of a stream's file. -/
def Stream.size (fs : FileSys) (s : Stream) : Nat := fs.fileLength (fs.entryInode s.entry)

/-- What a read of `n` bytes returns next. -/
def Stream.next (fs : FileSys) (s : Stream) (n : Nat) : List UInt8 :=
  fileSlice fs (fs.entryInode s.entry) s.got.length (min n (s.size fs - s.got.length))

/-- The bytes returned so far are a prefix of the file. -/
structure Stream.Ok (fs : FileSys) (s : Stream) : Prop where
  length_le : s.got.length ≤ s.size fs
  got_eq : s.got = fileSlice fs (fs.entryInode s.entry) 0 s.got.length

variable {fops : FopsTables} {fs : FileSys} {k k' : Kernel} {t : Nat → Option Nat}

theorem Stream.length_next (s : Stream) (fs : FileSys) (n : Nat) :
    (s.next fs n).length = min n (s.size fs - s.got.length) := by
  rw [Stream.next, length_fileSlice]

theorem Stream.Ok.append {s : Stream} (h : s.Ok fs) (n : Nat) : Stream.Ok fs ⟨s.entry, s.got ++ s.next fs n⟩ := by
  have hlen := s.length_next fs n
  refine ⟨?_, ?_⟩
  · have hle := h.length_le
    simp only [List.length_append, hlen, Stream.size] at *
    omega
  · simp only [List.length_append]
    rw [← fileSlice_append, Nat.zero_add, ← h.got_eq, hlen, Stream.next]

theorem Stream.Ok.prefix_file {s : Stream} (h : s.Ok fs) :
    s.got <+: fileSlice fs (fs.entryInode s.entry) 0 (s.size fs) := by
  refine ⟨fileSlice fs (fs.entryInode s.entry) s.got.length (s.size fs - s.got.length), ?_⟩
  conv_lhs => rw [h.got_eq]
  rw [length_fileSlice]
  have happend := fileSlice_append fs (fs.entryInode s.entry) 0 s.got.length (s.size fs - s.got.length)
  rwa [Nat.zero_add, Nat.add_sub_cancel' h.length_le] at happend

/-- A table of streams as a table of entries. -/
def entriesOf (st : Nat → Option Stream) : Nat → Option Nat := fun fd => (st fd).map Stream.entry

/-- The control block represents the streams: the table, and the position of every regular file. -/
structure Streams (fops : FopsTables) (fs : FileSys) (st : Nat → Option Stream) (k : Kernel) : Prop where
  serves : Serves fops fs (entriesOf st) k
  positions : ∀ fd s, 2 ≤ fd → fd < opsSize → st fd = some s → fs.entryType s.entry = 2 →
    k.mem.load32 (filePosAddr k.currentPblock fd) = s.got.length ∧ s.Ok fs

/-- A buffer of `n` bytes in the user page. -/
structure UserBuffer (buf n : Nat) : Prop where
  low : addr128MB ≤ buf
  high : n = 0 ∨ buf + n ≤ addr128MB + addr4MB

theorem UserBuffer.store (hrun : Running k) {buf : Nat} {bytes : List UInt8}
    (h : UserBuffer buf bytes.length) :
    k.store buf bytes = .ok { k with mem := k.mem.writeBytes (k.userPhys buf) bytes } := by
  rcases h.high with hempty | hhigh
  · rw [List.length_eq_zero_iff.mp hempty, Mem.writeBytes_nil]
    rfl
  · exact store_user k bytes h.low hhigh hrun.present

/-- A store above 128 MB returns only when it stays in the user page. -/
theorem UserBuffer.of_store {buf : Nat} {bytes : List UInt8} (hlow : addr128MB ≤ buf)
    (h : k.store buf bytes = .ok k') : UserBuffer buf bytes.length := by
  refine ⟨hlow, ?_⟩
  by_contra hout
  have hempty : ¬ bytes.length = 0 := fun h0 => hout (.inl h0)
  have hvideo : ¬ (videoMem ≤ buf ∧ buf + bytes.length ≤ videoEnd) := by
    simp only [videoMem, videoEnd, addr128MB] at *
    omega
  have hkernel : ¬ (addr4MB ≤ buf ∧ buf + bytes.length ≤ addr8MB) := by
    simp only [addr4MB, addr8MB, addr128MB] at *
    omega
  have hnone : areaOf buf bytes.length = none := by
    rw [areaOf, if_neg hvideo, if_neg hkernel, if_neg (fun hin => hout (.inr hin.2))]
  rw [Kernel.store, if_neg hempty, hnone] at h
  cases h

theorem findEntry_self (himg : ImageOk fs) {i : Nat} (hi : i < fs.info.numDirEntries) :
    findEntry fs (fs.entryName i) = some i := by
  cases hfind : findEntry fs (fs.entryName i) with
  | none =>
      have hnone := List.find?_eq_none.mp hfind i (List.mem_range.mpr hi)
      simp at hnone
  | some j =>
      obtain ⟨hj, hname⟩ := findEntry_some hfind
      rw [himg.distinctNames j hj i hi hname]

/-- The memory after a read: the bytes in the buffer and the new position, nothing else. -/
def readMem (k : Kernel) (fd buf pos : Nat) (bytes : List UInt8) : Mem :=
  (k.mem.writeBytes (k.userPhys buf) bytes).store32 (filePosAddr k.currentPblock fd) (pos + bytes.length)

theorem readFile_found {fd buf staleInode : Nat} {nbytes : Int} {d : Dentry}
    (h : readDentryByName fs (k.mem.cstr (fileNameAddr k.currentPblock fd) (2 ^ 32)) = .ok (some d)) :
    readFile fs k fd buf nbytes staleInode = readAtPos fs k fd buf nbytes d.inode := by
  rw [readFile, h, ok_bind, Option.map_some, Option.getD_some]

theorem readAtPos_user (hrun : Running k) {fd buf n inode pos : Nat} {bytes : List UInt8}
    (hfd : fd < opsSize) (hpos : k.mem.load32 (filePosAddr k.currentPblock fd) = pos) (hn : n < 2 ^ 31)
    (hdata : readData fs inode pos n = ((bytes.length : Int), bytes)) (hbuf : UserBuffer buf bytes.length)
    (hsum : pos + bytes.length < 2 ^ 32) :
    readAtPos fs k fd buf n inode =
      .ok ({ k with mem := readMem k fd buf pos bytes }, bytes.length) := by
  obtain ⟨-, hpcb, hframe⟩ := hrun.pcb_range
  have hnat : ((n : Int) % 2 ^ 32).toNat = n := by omega
  have hkept : (k.mem.writeBytes (k.userPhys buf) bytes).load32 (filePosAddr k.currentPblock fd) = pos := by
    rw [← hpos]
    apply Mem.load32_writeBytes_of_outside
    left
    simp only [filePosAddr, fdeOffset, Kernel.userPhys, addr8KB, opsSize] at *
    omega
  have htoNat : (((pos : Int) + bytes.length) % 2 ^ 32).toNat = pos + bytes.length := by omega
  rw [readAtPos]
  simp only [hpos, hnat, hdata]
  rw [hbuf.store hrun, ok_bind]
  simp only [pure_eq_ok, hkept, htoNat, readMem]

/-- The stored name of a descriptor leads back to its entry. -/
theorem lookup_stored (h : Serves fops fs t k) (hdir : DirectoryOk fs) {fd i : Nat} (hlow : 2 ≤ fd)
    (hhigh : fd < opsSize) (ht : t fd = some i) (hfound : findEntry fs (fs.entryName i) = some i) :
    readDentryByName fs (k.mem.cstr (fileNameAddr k.currentPblock fd) (2 ^ 32)) =
      .ok (some ⟨fs.entryName i, fs.entryType i, fs.entryInode i⟩) := by
  obtain ⟨hi, -, -, hname⟩ := h.table.opened fd i hlow hhigh ht
  have hshort := hdir.names i hi
  have hcstr : k.mem.cstr (fileNameAddr k.currentPblock fd) (2 ^ 32) = fs.entryName i := by
    simp only [fnameLength] at hshort
    exact hname.cstr_eq (by omega)
  rw [hcstr, readDentryByName_spec hdir.entries (entryName_holds hdir.entries hi).plain
    (not_aliased_of_short hshort), hfound, Option.map_some]

/-- `read` of an opened descriptor reaches the operations of its entry's type. -/
theorem sysRead_opened (h : Serves fops fs t k) {fd i buf : Nat} (hlow : 2 ≤ fd) (hhigh : fd < opsSize)
    (ht : t fd = some i) (hnull : buf ≠ 0) (nbytes : Int) (staleInode : Nat) :
    sysRead fops fs k fd buf nbytes staleInode =
      callRead fs k (kindOfType (fs.entryType i)) fd buf nbytes staleInode := by
  obtain ⟨-, huse, hfop, -⟩ := h.table.opened fd i hlow hhigh ht
  rw [sysRead_eq h.running hhigh hnull, if_pos ⟨by omega, by omega⟩, hfop, fopsAt_addr, ok_bind]

theorem sysRead_regular {st : Nat → Option Stream} (h : Streams fops fs st k) (himg : ImageOk fs)
    {fd buf n : Nat} {s : Stream} (hlow : 2 ≤ fd) (hhigh : fd < opsSize) (hst : st fd = some s)
    (htype : fs.entryType s.entry = 2) (hnull : buf ≠ 0) (staleInode : Nat) :
    sysRead fops fs k fd buf n staleInode = readAtPos fs k fd buf n (fs.entryInode s.entry) := by
  have hentry : entriesOf st fd = some s.entry := by simp [entriesOf, hst]
  have hkind : kindOfType (fs.entryType s.entry) = .file := by rw [htype]; decide
  have hi := (h.serves.table.opened fd s.entry hlow hhigh hentry).1
  rw [sysRead_opened h.serves hlow hhigh hentry hnull, hkind, callRead,
    readFile_found (lookup_stored h.serves himg.toDirectoryOk hlow hhigh hentry (findEntry_self himg hi))]

theorem Streams.readData_next {st : Nat → Option Stream} (h : Streams fops fs st k) (himg : ImageOk fs)
    {fd n : Nat} {s : Stream} (hlow : 2 ≤ fd) (hhigh : fd < opsSize) (hst : st fd = some s)
    (htype : fs.entryType s.entry = 2) (hn : n < 2 ^ 31) :
    readData fs (fs.entryInode s.entry) s.got.length n = (((s.next fs n).length : Int), s.next fs n) := by
  have hentry : entriesOf st fd = some s.entry := by simp [entriesOf, hst]
  obtain ⟨hi, -, -, -⟩ := h.serves.table.opened fd s.entry hlow hhigh hentry
  have hsize := himg.sizes s.entry hi htype
  have hle := (h.positions fd s hlow hhigh hst htype).2.length_le
  have hsum : s.got.length + n < 2 ^ 32 := by
    simp only [Stream.size, kb4, maxDblocksPerFile] at *
    omega
  rw [readData_spec fs hsize hle hsum, s.length_next]
  rfl

/-- A read of a regular file returns what is next in its stream. -/
theorem sysRead_stream {st : Nat → Option Stream} (h : Streams fops fs st k) (himg : ImageOk fs)
    {fd buf n : Nat} {s : Stream} (hlow : 2 ≤ fd) (hhigh : fd < opsSize) (hst : st fd = some s)
    (htype : fs.entryType s.entry = 2) (hn : n < 2 ^ 31) (hbuf : UserBuffer buf (s.next fs n).length)
    (staleInode : Nat) :
    sysRead fops fs k fd buf n staleInode =
      .ok ({ k with mem := readMem k fd buf s.got.length (s.next fs n) }, (s.next fs n).length) := by
  have hentry : entriesOf st fd = some s.entry := by simp [entriesOf, hst]
  obtain ⟨hi, -, -, -⟩ := h.serves.table.opened fd s.entry hlow hhigh hentry
  obtain ⟨hpos, hok⟩ := h.positions fd s hlow hhigh hst htype
  have hnull : buf ≠ 0 := by
    have := hbuf.low
    simp only [addr128MB] at this
    omega
  have hsum : s.got.length + (s.next fs n).length < 2 ^ 32 := by
    have hsize := himg.sizes s.entry hi htype
    have hle := hok.length_le
    rw [s.length_next]
    simp only [Stream.size, kb4, maxDblocksPerFile] at *
    omega
  rw [sysRead_regular h himg hlow hhigh hst htype hnull]
  exact readAtPos_user h.serves.running hhigh hpos hn (h.readData_next himg hlow hhigh hst htype hn) hbuf hsum

/-- A read of a regular file that returned had room for what is next in its stream. -/
theorem userBuffer_of_sysRead {st : Nat → Option Stream} (h : Streams fops fs st k) (himg : ImageOk fs)
    {fd buf n : Nat} {s : Stream} {ret : Int} (hlow : 2 ≤ fd) (hhigh : fd < opsSize) (hst : st fd = some s)
    (htype : fs.entryType s.entry = 2) (hn : n < 2 ^ 31) (hbuf : addr128MB ≤ buf) {staleInode : Nat}
    (hcall : sysRead fops fs k fd buf n staleInode = .ok (k', ret)) :
    UserBuffer buf (s.next fs n).length := by
  have hnull : buf ≠ 0 := by
    simp only [addr128MB] at hbuf
    omega
  have hnat : ((n : Int) % 2 ^ 32).toNat = n := by omega
  rw [sysRead_regular h himg hlow hhigh hst htype hnull, readAtPos] at hcall
  obtain ⟨k1, hstore, -⟩ := bind_eq_ok hcall
  rw [(h.positions fd s hlow hhigh hst htype).1, hnat, h.readData_next himg hlow hhigh hst htype hn] at hstore
  exact UserBuffer.of_store hbuf hstore

/-- Only the frame of the process, the visible pages, the console and the directory counter changed. -/
structure KeepsKernelPage (k k' : Kernel) : Prop where
  count : k'.processCount = k.processCount
  pd : k'.pdUser = k.pdUser
  mem : ∀ x < pdeBase k.pdUser, k'.mem x = k.mem x

theorem KeepsKernelPage.of_same (k : Kernel) (console : Console) (dirReadCount : Nat) :
    KeepsKernelPage k { k with console := console, dirReadCount := dirReadCount } :=
  ⟨rfl, rfl, fun _ _ => rfl⟩

theorem KeepsKernelPage.trans {k1 k2 k3 : Kernel} (h : KeepsKernelPage k1 k2) (h' : KeepsKernelPage k2 k3) :
    KeepsKernelPage k1 k3 := by
  refine ⟨h'.count.trans h.count, h'.pd.trans h.pd, fun x hx => ?_⟩
  rw [h'.mem x (by rwa [h.pd]), h.mem x hx]

theorem KeepsKernelPage.writeBytes (k : Kernel) {a : Nat} (bs : List UInt8) (ha : pdeBase k.pdUser ≤ a) :
    KeepsKernelPage k { k with mem := k.mem.writeBytes a bs } :=
  ⟨rfl, rfl, fun _ hx => Mem.writeBytes_of_outside (.inl (Nat.lt_of_lt_of_le hx ha))⟩

theorem KeepsKernelPage.of_store {a : Nat} {bs : List UInt8} (ha : bs = [] ∨ a < addr4MB ∨ addr8MB ≤ a)
    (h : k.store a bs = .ok k') : KeepsKernelPage k k' := by
  rcases ha with rfl | ha
  · cases h
    exact .of_same k k.console k.dirReadCount
  · obtain ⟨m, v, rfl, hmem⟩ := store_outside_kernel h ha
    exact ⟨rfl, rfl, hmem⟩

theorem callRead_keeps {kind : FopsKind} {fd buf staleInode : Nat} {nbytes ret : Int} (hkind : kind ≠ .file)
    (ha : buf < addr4MB ∨ addr8MB ≤ buf) (h : callRead fs k kind fd buf nbytes staleInode = .ok (k', ret)) :
    KeepsKernelPage k k' := by
  cases kind with
  | rtc =>
      cases h
      exact .of_same k k.console k.dirReadCount
  | file => exact absurd rfl hkind
  | directory =>
      rw [callRead, readDirectory] at h
      obtain ⟨d, -, h⟩ := bind_eq_ok h
      cases d with
      | none =>
          cases h
          exact .of_same k k.console 0
      | some d =>
          obtain ⟨k1, hstore, h⟩ := bind_eq_ok h
          cases h
          exact (KeepsKernelPage.of_same k k.console (k.dirReadCount + 1)).trans (.of_store (.inr ha) hstore)
  | terminal =>
      rw [callRead, readTerminal] at h
      cases hterm : termRead k.console nbytes with
      | none =>
          rw [hterm] at h
          cases h
      | some r =>
          obtain ⟨console, n, bytes⟩ := r
          rw [hterm] at h
          obtain ⟨k1, hstore, h⟩ := bind_eq_ok h
          cases h
          exact (KeepsKernelPage.of_same k console k.dirReadCount).trans (.of_store (.inr ha) hstore)

theorem KeepsKernelPage.currentPblock_eq (h : KeepsKernelPage k k') : k'.currentPblock = k.currentPblock := by
  rw [Kernel.currentPblock, Kernel.currentPblock, h.count]

theorem KeepsKernelPage.block (h : KeepsKernelPage k k') (hrun : Running k) {x : Nat}
    (hx : x < k.currentPblock + fdeOffset opsSize) : k'.mem x = k.mem x := by
  obtain ⟨-, hhigh, hframe⟩ := hrun.pcb_range
  apply h.mem
  simp only [fdeOffset, opsSize, addr8KB] at *
  omega

theorem KeepsKernelPage.filePos (h : KeepsKernelPage k k') (hrun : Running k) {fd : Nat} (hfd : fd < opsSize) :
    k'.mem.load32 (filePosAddr k'.currentPblock fd) = k.mem.load32 (filePosAddr k.currentPblock fd) := by
  rw [h.currentPblock_eq]
  apply Mem.load32_congr
  intro j hj
  apply h.block hrun
  simp only [filePosAddr, fdeOffset, opsSize] at *
  omega

theorem Serves.of_keeps (h : Serves fops fs t k) (hdir : DirectoryOk fs) (hkeeps : KeepsKernelPage k k') :
    Serves fops fs t k' := by
  refine ⟨⟨?_, ?_, ?_⟩, ?_⟩
  · rw [hkeeps.count]
    exact h.running.one
  · rw [hkeeps.count]
    exact h.running.max
  · rw [hkeeps.pd, hkeeps.count]
    exact h.running.frame
  · rw [hkeeps.currentPblock_eq]
    exact h.table.congr hdir fun x _ hx => hkeeps.block h.running hx

theorem Streams.of_keeps {st : Nat → Option Stream} (h : Streams fops fs st k) (himg : ImageOk fs)
    (hkeeps : KeepsKernelPage k k') : Streams fops fs st k' := by
  refine ⟨h.serves.of_keeps himg.toDirectoryOk hkeeps, fun fd s hlow hlt hst htype => ?_⟩
  rw [hkeeps.filePos h.serves.running hlt]
  exact h.positions fd s hlow hlt hst htype

/-! ### Streams step by step -/

theorem Streams.table_mem {st : Nat → Option Stream} {m : Mem} (h : Streams fops fs st { k with mem := m }) :
    TableOk fops fs m k.currentPblock (entriesOf st) :=
  h.serves.table

theorem Streams.update {st : Nat → Option Stream} {m m' : Mem} (h : Streams fops fs st { k with mem := m })
    {fd : Nat} (entry : Option Stream) (honly : OnlySlot k.currentPblock fd m m')
    (htable : TableOk fops fs m' k.currentPblock (entriesOf (Function.update st fd entry)))
    (hpos : ∀ s, entry = some s → fs.entryType s.entry = 2 →
      m'.load32 (filePosAddr k.currentPblock fd) = s.got.length ∧ s.Ok fs) :
    Streams fops fs (Function.update st fd entry) { k with mem := m' } := by
  refine ⟨⟨⟨h.serves.running.one, h.serves.running.max, h.serves.running.frame⟩, htable⟩,
    fun other s hlow hhigh hst htype => ?_⟩
  by_cases hne : other = fd
  · subst hne
    rw [Function.update_self] at hst
    exact hpos s hst htype
  · rw [Function.update_of_ne hne] at hst
    have hword : m'.load32 (filePosAddr k.currentPblock other) =
        m.load32 (filePosAddr k.currentPblock other) := honly.word hne 40 (by decide)
    obtain ⟨hold, hok⟩ := h.positions other s hlow hhigh hst htype
    exact ⟨hword.trans hold, hok⟩

theorem entriesOf_update (st : Nat → Option Stream) (fd : Nat) (entry : Option Stream) :
    entriesOf (Function.update st fd entry) = Function.update (entriesOf st) fd (entry.map Stream.entry) := by
  funext other
  by_cases hne : other = fd
  · subst hne
    simp [entriesOf]
  · simp [entriesOf, hne]

/-- `open` on streams: a new one has delivered nothing. -/
def streamOpen (fs : FileSys) (st : Nat → Option Stream) (name : List UInt8) :
    (Nat → Option Stream) × Int :=
  match firstFree (entriesOf st), findEntry fs name with
  | some fd, some i => (Function.update st fd (some ⟨i, []⟩), fd)
  | _, _ => (st, -1)

/-- `close` on streams. -/
def streamClose (st : Nat → Option Stream) (fd : Int) : (Nat → Option Stream) × Int :=
  if 2 ≤ fd ∧ fd < opsSize ∧ (st fd.toNat).isSome then (Function.update st fd.toNat none, 0) else (st, -1)

theorem Streams.sysOpen {st : Nat → Option Stream} (h : Streams fops fs st k) (himg : ImageOk fs)
    {name : List UInt8} (hplain : 0 ∉ name) (halias : ¬ Aliased fs name) :
    ∃ k', sysOpen fops fs k name = .ok (k', (streamOpen fs st name).2) ∧
      Streams fops fs (streamOpen fs st name).1 k' := by
  obtain ⟨k1, hcall, hserves, -⟩ := h.serves.sysOpen himg.toDirectoryOk hplain halias
  cases hfree : firstFree (entriesOf st) with
  | none =>
      refine ⟨k, ?_, by simpa [streamOpen, hfree] using h⟩
      simpa [streamOpen, hfree] using
        sysOpen_fail h.serves.running himg.toDirectoryOk h.serves.table hplain halias (.inl hfree)
  | some fd =>
      cases hfind : findEntry fs name with
      | none =>
          refine ⟨k, ?_, by simpa [streamOpen, hfree, hfind] using h⟩
          simpa [streamOpen, hfree, hfind] using
            sysOpen_fail h.serves.running himg.toDirectoryOk h.serves.table hplain halias (.inr hfind)
      | some i =>
          obtain ⟨hi, -⟩ := findEntry_some hfind
          have hopen := sysOpen_ok h.serves.running himg.toDirectoryOk h.serves.table hplain halias hfree hfind
          simp only [tableOpen, hfree, hfind] at hcall hserves
          rw [hopen] at hcall
          cases hcall
          simp only [streamOpen, hfree, hfind]
          refine ⟨_, hopen, Streams.update (k := k) (m := k.mem) h (some ⟨i, []⟩)
            (openSlot_only himg.toDirectoryOk hi fd) ?_ ?_⟩
          · rw [entriesOf_update]
            exact hserves.table
          · rintro s hs -
            cases hs
            obtain ⟨-, hzero, -, -⟩ := openSlot_spec fops k.mem k.currentPblock
              himg.toDirectoryOk hi fd
            exact ⟨hzero, Nat.zero_le _, rfl⟩

theorem sysClose_out_of_range {fd ret : Int} (hfd : fd < 0 ∨ opsSize ≤ fd)
    (h : sysClose fops k fd = .ok (k', ret)) : k' = k ∧ ret = -1 := by
  rw [sysClose] at h
  obtain ⟨use, -, h⟩ := bind_eq_ok h
  by_cases huse : use % 2 = 0
  · rw [if_pos huse] at h
    cases h
    exact ⟨rfl, rfl⟩
  · rw [if_neg huse, if_pos (by omega)] at h
    cases h
    exact ⟨rfl, rfl⟩

theorem Streams.sysClose {st : Nat → Option Stream} (h : Streams fops fs st k) (himg : ImageOk fs) {fd : Nat}
    (hhigh : fd < opsSize) :
    ∃ k', sysClose fops k fd = .ok (k', (streamClose st fd).2) ∧
      Streams fops fs (streamClose st fd).1 k' := by
  have hisSome : (entriesOf st fd).isSome = (st fd).isSome := by simp [entriesOf]
  by_cases hopen : 2 ≤ fd ∧ (st fd).isSome
  · obtain ⟨s, hst⟩ := Option.isSome_iff_exists.mp hopen.2
    have hentry : entriesOf st fd = some s.entry := by simp [entriesOf, hst]
    have hclose := sysClose_ok h.serves.running h.serves.table hopen.1 hhigh hentry
    obtain ⟨k1, hcall, hserves, -⟩ := h.serves.sysClose himg.toDirectoryOk hhigh
    rw [tableClose, if_pos ⟨hopen.1, by rw [hisSome]; exact hopen.2⟩, hclose] at hcall
    rw [tableClose, if_pos ⟨hopen.1, by rw [hisSome]; exact hopen.2⟩] at hserves
    cases hcall
    have hcond : 2 ≤ (fd : Int) ∧ (fd : Int) < opsSize ∧ (st (fd : Int).toNat).isSome :=
      ⟨by omega, by omega, hopen.2⟩
    rw [streamClose, if_pos hcond]
    refine ⟨_, hclose, Streams.update (k := k) (m := k.mem) h none (closeFields_only _ _ _) ?_ fun s hs => by cases hs⟩
    rw [entriesOf_update]
    exact hserves.table
  · have hcond : ¬ (2 ≤ (fd : Int) ∧ (fd : Int) < opsSize ∧ (st (fd : Int).toNat).isSome) := by
      rintro ⟨hlow, -, hsome⟩
      exact hopen ⟨by omega, hsome⟩
    have hfree : fd < 2 ∨ entriesOf st fd = none := by
      by_cases hlow : fd < 2
      · exact .inl hlow
      · refine .inr (Option.not_isSome_iff_eq_none.mp fun hsome => hopen ⟨by omega, hisSome ▸ hsome⟩)
    rw [streamClose, if_neg hcond]
    exact ⟨k, sysClose_fail h.serves.running h.serves.table hhigh hfree, h⟩

/-- What a read appends to its stream. -/
def Stream.advance (fs : FileSys) (s : Stream) (n : Nat) : Stream := ⟨s.entry, s.got ++ s.next fs n⟩

/-- The memory that a read leaves differs in the frame and in one descriptor. -/
theorem Streams.read {st : Nat → Option Stream} (h : Streams fops fs st k) (himg : ImageOk fs)
    {fd buf n : Nat} {s : Stream} (hlow : 2 ≤ fd) (hhigh : fd < opsSize) (hst : st fd = some s)
    (htype : fs.entryType s.entry = 2) :
    Streams fops fs (Function.update st fd (some (s.advance fs n)))
      { k with mem := readMem k fd buf s.got.length (s.next fs n) } := by
  have hentry : entriesOf st fd = some s.entry := by simp [entriesOf, hst]
  obtain ⟨hi, -, -, -⟩ := h.serves.table.opened fd s.entry hlow hhigh hentry
  have hok := (h.positions fd s hlow hhigh hst htype).2
  have hstored : KeepsKernelPage k { k with mem := k.mem.writeBytes (k.userPhys buf) (s.next fs n) } :=
    .writeBytes k _ (Nat.le_add_right _ _)
  have hmid := h.of_keeps himg hstored
  have honly : OnlySlot k.currentPblock fd (k.mem.writeBytes (k.userPhys buf) (s.next fs n))
      (readMem k fd buf s.got.length (s.next fs n)) := by
    rw [readMem, filePosAddr]
    exact (OnlySlot.refl _ _ _).store32 40 _ (by decide)
  refine Streams.update (k := k) hmid (some (s.advance fs n)) honly ?_ ?_
  · have hsame : entriesOf (Function.update st fd (some (s.advance fs n))) = entriesOf st := by
      rw [entriesOf_update]
      funext other
      by_cases hne : other = fd
      · subst hne
        simp [hentry, Stream.advance]
      · simp [hne]
    rw [hsame]
    exact (Streams.table_mem (k := k) hmid).storePos himg.toDirectoryOk hlow hhigh hentry _
  · rintro s' hs' -
    cases hs'
    refine ⟨?_, hok.append n⟩
    have hsize := himg.sizes s.entry hi htype
    have hle := (hok.append n).length_le
    simp only [Stream.advance, Stream.size, kb4, maxDblocksPerFile, List.length_append] at *
    exact Mem.load32_store32_of_lt _ _ (by omega)

/-! ### Runs -/

/-- A call of `open`, `close` or `read` with its result, or keyboard input in between. -/
inductive StreamCall where
  | «open» (name : List UInt8) (ret : Int)
  | close (fd ret : Int)
  | read (fd : Int) (buf n : Nat) (ret : Int)
  | keys (codes : List Nat)

/-- The calls of a process that return, with buffers in or above its own page. An `open` that overruns its own stack
frame does not. -/
inductive StreamStep (fops : FopsTables) (fs : FileSys) : Kernel → StreamCall → Kernel → Prop
  | «open» {k k' : Kernel} {name : List UInt8} {ret : Int} (hplain : 0 ∉ name)
      (hcall : sysOpen fops fs k name = .ok (k', ret)) : StreamStep fops fs k (.open name ret) k'
  | close {k k' : Kernel} {fd ret : Int} (hcall : sysClose fops k fd = .ok (k', ret)) :
      StreamStep fops fs k (.close fd ret) k'
  | read {k k' : Kernel} {fd : Int} {buf n : Nat} {ret : Int} (staleInode : Nat) (hn : n < 2 ^ 31)
      (hbuf : addr128MB ≤ buf) (hcall : sysRead fops fs k fd buf n staleInode = .ok (k', ret)) :
      StreamStep fops fs k (.read fd buf n ret) k'
  | keys {k : Kernel} (codes : List Nat) :
      StreamStep fops fs k (.keys codes) { k with console := keyboardHandler k.console codes }

/-- The stream of a regular file behind a descriptor. -/
def regularAt (fs : FileSys) (st : Nat → Option Stream) (fd : Int) : Option Stream :=
  if 2 ≤ fd ∧ fd < opsSize then (st fd.toNat).filter fun s => fs.entryType s.entry = 2 else none

/-- The calls on streams: a read of a regular file returns what is next, other reads leave the streams
as they are. -/
inductive StreamTableStep (fs : FileSys) : (Nat → Option Stream) → StreamCall → (Nat → Option Stream) → Prop
  | «open» (st : Nat → Option Stream) (name : List UInt8) :
      StreamTableStep fs st (.open name (streamOpen fs st name).2) (streamOpen fs st name).1
  | close (st : Nat → Option Stream) (fd : Int) :
      StreamTableStep fs st (.close fd (streamClose st fd).2) (streamClose st fd).1
  | read {st : Nat → Option Stream} {fd : Int} {s : Stream} (h : regularAt fs st fd = some s) (buf n : Nat) :
      StreamTableStep fs st (.read fd buf n (s.next fs n).length)
        (Function.update st fd.toNat (some (s.advance fs n)))
  | other {st : Nat → Option Stream} {fd : Int} (h : regularAt fs st fd = none) (buf n : Nat) (ret : Int) :
      StreamTableStep fs st (.read fd buf n ret) st
  | keys (st : Nat → Option Stream) (codes : List Nat) : StreamTableStep fs st (.keys codes) st

/-- The name given to an `open` is no alias of an entry's name. -/
def OpensNoAlias (fs : FileSys) : StreamCall → Prop
  | .open name _ => ¬ Aliased fs name
  | _ => True

theorem regularAt_some {st : Nat → Option Stream} {fd : Int} {s : Stream} (h : regularAt fs st fd = some s) :
    ∃ n : Nat, fd = n ∧ 2 ≤ n ∧ n < opsSize ∧ st n = some s ∧ fs.entryType s.entry = 2 := by
  unfold regularAt at h
  split_ifs at h with hrange
  rw [Option.filter_eq_some_iff] at h
  exact ⟨fd.toNat, by omega, by omega, by omega, h.1, by simpa using h.2⟩

theorem kindOfType_ne_file (himg : ImageOk fs) {st : Nat → Option Stream} {fd i : Nat} (hlow : 2 ≤ fd)
    (hhigh : fd < opsSize) (hi : i < fs.info.numDirEntries) (ht : entriesOf st fd = some i)
    (hother : regularAt fs st fd = none) : kindOfType (fs.entryType i) ≠ .file := by
  obtain ⟨s, hst, rfl⟩ := Option.map_eq_some_iff.mp ht
  have hne : fs.entryType s.entry ≠ 2 := by
    intro htype
    have hcond : 2 ≤ (fd : Int) ∧ (fd : Int) < opsSize := ⟨by omega, by omega⟩
    rw [regularAt, if_pos hcond, Int.toNat_natCast, hst] at hother
    simp [htype] at hother
  have htypes := himg.types s.entry hi
  simp only [List.mem_cons, List.not_mem_nil, or_false] at htypes
  rcases htypes with htype | htype | htype
  · rw [htype]
    decide
  · rw [htype]
    decide
  · exact absurd htype hne

theorem sysRead_other {st : Nat → Option Stream} (h : Streams fops fs st k) (himg : ImageOk fs) {fd : Int}
    {buf staleInode : Nat} {nbytes ret : Int} (hother : regularAt fs st fd = none)
    (ha : buf < addr4MB ∨ addr8MB ≤ buf) (hcall : sysRead fops fs k fd buf nbytes staleInode = .ok (k', ret)) :
    KeepsKernelPage k k' := by
  have hsame : KeepsKernelPage k k := .of_same k k.console k.dirReadCount
  by_cases hrange : 0 ≤ fd ∧ fd < opsSize ∧ buf ≠ 0
  · obtain ⟨n, rfl⟩ := Int.eq_ofNat_of_zero_le hrange.1
    have hn : n < opsSize := by omega
    rw [sysRead_eq h.serves.running hn hrange.2.2] at hcall
    split_ifs at hcall with huse
    · rcases fopsAt_inUse h.serves.table hn huse.1 with ⟨-, hkind⟩ | ⟨i, hlow, ht, hkind⟩
      · rw [hkind, ok_bind] at hcall
        exact callRead_keeps (by decide) ha hcall
      · rw [hkind, ok_bind] at hcall
        have hi := (h.serves.table.opened n i hlow hn ht).1
        exact callRead_keeps (kindOfType_ne_file himg hlow hn hi ht hother) ha hcall
    · cases hcall
      exact hsame
  · rw [sysRead, if_neg hrange] at hcall
    cases hcall
    exact hsame

theorem streams_step (himg : ImageOk fs) {st : Nat → Option Stream} {e : StreamCall}
    (h : Streams fops fs st k) (hstep : StreamStep fops fs k e k') (halias : OpensNoAlias fs e) :
    ∃ st', StreamTableStep fs st e st' ∧ Streams fops fs st' k' := by
  cases hstep with
  | «open» hplain hcall =>
      obtain ⟨k1, hopen, hstreams⟩ := h.sysOpen himg hplain halias
      rw [hopen] at hcall
      cases hcall
      exact ⟨_, .open st _, hstreams⟩
  | @close _ fd ret hcall =>
      by_cases hrange : 0 ≤ fd ∧ fd < opsSize
      · obtain ⟨n, rfl⟩ := Int.eq_ofNat_of_zero_le hrange.1
        obtain ⟨k1, hclose, hstreams⟩ := h.sysClose himg (show n < opsSize by omega)
        rw [hclose] at hcall
        cases hcall
        exact ⟨_, .close st n, hstreams⟩
      · obtain ⟨rfl, rfl⟩ := sysClose_out_of_range (by omega) hcall
        have hclose : streamClose st fd = (st, -1) := if_neg (by omega)
        have hlabel : StreamTableStep fs st (.close fd (streamClose st fd).2) (streamClose st fd).1 :=
          .close st fd
        rw [hclose] at hlabel
        exact ⟨st, hlabel, h⟩
  | @read _ fd buf n ret staleInode hn hbuf hcall =>
      cases hreg : regularAt fs st fd with
      | none =>
          have ha : buf < addr4MB ∨ addr8MB ≤ buf := .inr (le_trans (by decide) hbuf)
          exact ⟨st, .other hreg _ _ _, h.of_keeps himg (sysRead_other h himg hreg ha hcall)⟩
      | some s =>
          obtain ⟨fd, rfl, hlow, hhigh, hst, htype⟩ := regularAt_some hreg
          have hroom := userBuffer_of_sysRead h himg hlow hhigh hst htype hn hbuf hcall
          rw [sysRead_stream h himg hlow hhigh hst htype hn hroom] at hcall
          cases hcall
          exact ⟨_, .read hreg _ _, h.read himg hlow hhigh hst htype⟩
  | keys codes => exact ⟨st, .keys st codes, h.of_keeps himg (.of_same k _ k.dirReadCount)⟩

/-- What the streams guarantee of the next read of a regular file: it returns what is left, up to the
number asked for, stores those bytes of the file, and moves no other position. -/
structure ReadsStreams (fops : FopsTables) (fs : FileSys) (st : Nat → Option Stream) (k : Kernel) : Prop where
  delivered : ∀ fd s, regularAt fs st fd = some s → s.got <+: fileSlice fs (fs.entryInode s.entry) 0 (s.size fs)
  read : ∀ (fd : Nat) s n buf staleInode, regularAt fs st fd = some s → n < 2 ^ 31 →
    UserBuffer buf (min n (s.size fs - s.got.length)) →
    let bytes := fileSlice fs (fs.entryInode s.entry) s.got.length (min n (s.size fs - s.got.length))
    sysRead fops fs k fd buf n staleInode =
      .ok ({ k with mem := readMem k fd buf s.got.length bytes },
        (min n (s.size fs - s.got.length) : Nat)) ∧
    (∀ other < opsSize, other ≠ fd → (readMem k fd buf s.got.length bytes).load32
      (filePosAddr k.currentPblock other) = k.mem.load32 (filePosAddr k.currentPblock other))

/-- An `open` of such a name returns what it returns on the streams. -/
def OpensStreams (fops : FopsTables) (fs : FileSys) (names : List UInt8 → Prop) (st : Nat → Option Stream)
    (k : Kernel) : Prop :=
  ∀ name, 0 ∉ name → names name → ∃ k', sysOpen fops fs k name = .ok (k', (streamOpen fs st name).2)

theorem readMem_other (hrun : Running k) {fd other buf pos : Nat} {bytes : List UInt8} (hother : other < opsSize)
    (hne : other ≠ fd) : (readMem k fd buf pos bytes).load32 (filePosAddr k.currentPblock other) =
      k.mem.load32 (filePosAddr k.currentPblock other) := by
  obtain ⟨-, hpcb, hframe⟩ := hrun.pcb_range
  have hbase : pdeBase k.pdUser ≤ k.userPhys buf := Nat.le_add_right _ _
  rw [readMem, Mem.load32_store32_of_ne]
  · apply Mem.load32_writeBytes_of_outside
    simp only [filePosAddr, fdeOffset, addr8KB, opsSize] at *
    omega
  · simp only [filePosAddr, fdeOffset]
    omega

theorem Streams.readsStreams {st : Nat → Option Stream} (h : Streams fops fs st k) (himg : ImageOk fs) :
    ReadsStreams fops fs st k := by
  constructor
  · intro fd s hreg
    obtain ⟨fd, rfl, hlow, hhigh, hst, htype⟩ := regularAt_some hreg
    exact (h.positions fd s hlow hhigh hst htype).2.prefix_file
  · intro fd s n buf staleInode hreg hn hbuf
    obtain ⟨fd', hfd, hlow, hhigh, hst, htype⟩ := regularAt_some hreg
    obtain rfl : fd = fd' := by omega
    rw [← s.length_next] at hbuf
    refine ⟨?_, fun other hother hne => readMem_other h.serves.running hother hne⟩
    rw [sysRead_stream h himg hlow hhigh hst htype hn hbuf, s.length_next]
    rfl

/-- While no opened name is an alias, every run is a run of streams with the same results: each read of
a regular file returns the next bytes of its own stream, and the next `open` returns. -/
theorem reads_deliver_streams {start : Kernel} {es : List StreamCall} (himg : ImageOk fs)
    (hrunning : Running start) (htable : TableOk fops fs start.mem start.currentPblock fun _ => none)
    (hrun : Run (fun k e k' => StreamStep fops fs k e k' ∧ OpensNoAlias fs e) start es k) :
    ∃ st, Run (StreamTableStep fs) (fun _ => none) es st ∧ ReadsStreams fops fs st k ∧
      OpensStreams fops fs (fun name => ¬ Aliased fs name) st k := by
  have hstart : Streams fops fs (fun _ => none) start :=
    ⟨⟨hrunning, htable⟩, fun _ _ _ _ h => (Option.some_ne_none _ h.symm).elim⟩
  obtain ⟨st, habstract, hstreams⟩ := hrun.simulation (R := fun k st => Streams fops fs st k)
    hstart (fun _ _ _ _ h hstep => streams_step himg h hstep.1 hstep.2)
  refine ⟨st, habstract, hstreams.readsStreams himg, fun name hplain halias => ?_⟩
  obtain ⟨k', hopen, -⟩ := hstreams.sysOpen himg hplain halias
  exact ⟨k', hopen⟩

theorem imageOk_sampleFs : ImageOk sampleFs := by
  have hcount : sampleFs.info.numDirEntries = 1 := by decide
  refine ⟨directoryOk_sampleFs, fun i hi => ?_, fun i hi j hj _ => by omega, fun i hi _ => ?_⟩
  · rw [hcount] at hi
    obtain rfl : i = 0 := by omega
    decide
  · rw [hcount] at hi
    obtain rfl : i = 0 := by omega
    decide

/-- The second read continues where the first one ended. -/
theorem reads_deliver_streams_twice :
    ∃ st, Run (StreamTableStep sampleFs) (fun _ => none) [.open shellName 2, .read 2 0x8048000 4 4] st ∧
      ReadsStreams sampleFops sampleFs st (shellRead 0x8048000) ∧
      OpensStreams sampleFops sampleFs (fun name => ¬ Aliased sampleFs name) st (shellRead 0x8048000) := by
  have hopen : StreamStep sampleFops sampleFs sampleKernel (.open shellName 2) shellOpened :=
    .open (by decide) (eq_ok_of_returned _ (by decide))
  have hread : StreamStep sampleFops sampleFs shellOpened (.read 2 0x8048000 4 4) (shellRead 0x8048000) :=
    .read 0 (by decide) (by decide) (eq_ok_of_returned _ (by decide))
  exact reads_deliver_streams imageOk_sampleFs running_sampleKernel tableOk_sampleKernel
    (.snoc (.snoc .nil ⟨hopen, not_aliased_of_short (by decide)⟩) ⟨hread, trivial⟩)

/-- `shell` and 256 more bytes, which the eight-bit length does not count. -/
def aliasName : List UInt8 := shellName ++ List.replicate 256 0x61

/-- The file opened as descriptors 2 and 3, and 2 closed again. -/
def shellTwice : Kernel := stateAfter shellOpened (sysOpen sampleFops sampleFs shellOpened shellName)

def shellOnThree : Kernel := stateAfter shellTwice (sysClose sampleFops shellTwice 2)

/-- The fault that a call ends with. -/
def faultOf : Except Fault (Kernel × Int) → Option Fault
  | .ok _ => none
  | .error e => some e

theorem eq_error_of_faultOf {r : Except Fault (Kernel × Int)} {e : Fault} (h : faultOf r = some e) :
    r = .error e := by
  cases r with
  | ok r => cases h
  | error e' =>
      cases h
      rfl

/-- After two opens and a close, `open` of the alias overruns the entry on its stack and does not return, where the
streams have no such name. -/
theorem alias_open_damages_stream :
    Run (StreamStep sampleFops sampleFs) sampleKernel [.open shellName 2, .open shellName 3, .close 2 0] shellOnThree ∧
    sysOpen sampleFops sampleFs shellOnThree aliasName = .error .overrun ∧
    ¬ ∃ st, Run (StreamTableStep sampleFs) (fun _ => none) [.open shellName 2, .open shellName 3, .close 2 0] st ∧
      ReadsStreams sampleFops sampleFs st shellOnThree ∧
      OpensStreams sampleFops sampleFs (fun _ => True) st shellOnThree := by
  have hplain : 0 ∉ shellName := by decide
  have hfirst : sysOpen sampleFops sampleFs sampleKernel shellName = .ok (shellOpened, 2) :=
    eq_ok_of_returned sampleKernel (by decide)
  have hsecond : sysOpen sampleFops sampleFs shellOpened shellName = .ok (shellTwice, 3) :=
    eq_ok_of_returned shellOpened (by decide)
  have hclose : sysClose sampleFops shellTwice 2 = .ok (shellOnThree, 0) :=
    eq_ok_of_returned shellTwice (by decide)
  have halias : sysOpen sampleFops sampleFs shellOnThree aliasName = .error .overrun :=
    eq_error_of_faultOf (by decide +kernel)
  refine ⟨.snoc (.snoc (.snoc .nil (.open hplain hfirst)) (.open hplain hsecond)) (.close hclose), halias, ?_⟩
  rintro ⟨st, -, -, hopens⟩
  obtain ⟨k', hreturns⟩ := hopens aliasName (by decide +kernel) trivial
  rw [halias] at hreturns
  cases hreturns

end UnixOs
