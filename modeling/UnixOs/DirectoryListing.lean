import UnixOs.FileStreams

/-! Directory listings. `read_directory` keeps its place in one static counter, whatever descriptor it is
called through. What each descriptor's reads delivered since its `open` is recorded beside the kernel. -/

namespace UnixOs

variable {fops : FopsTables} {fs : FileSys} {k k' : Kernel}

/-- A directory with at most 63 entries and names of 1 to 31 bytes. -/
structure NamesOk (fs : FileSys) : Prop where
  count : fs.info.numDirEntries ≤ maxDentries
  names : ∀ i < fs.info.numDirEntries, fs.entryName i ≠ [] ∧ (fs.entryName i).length < fnameLength

theorem NamesOk.entries (h : NamesOk fs) : EntriesOk fs := ⟨h.count, fun i hi => (h.names i hi).2⟩

/-- A name and a return value of `read`. -/
abbrev NameRead := List UInt8 × Int

/-- What the read at a place of a listing should deliver. -/
def listingEntry (fs : FileSys) (p : Nat) : NameRead :=
  if p < fs.info.numDirEntries then (fs.entryName p, (fs.entryName p).length) else ([], 0)

/-- The listing up to a place. -/
def listingUpTo (fs : FileSys) (n : Nat) : List NameRead := (List.range n).map (listingEntry fs)

/-- A descriptor of a process. -/
abbrev Handle := Nat × Nat

/-- What directory reads delivered through each descriptor since its `open`, and the descriptors of the
reads since the last one that returned 0. -/
structure Listings where
  got : Handle → List NameRead
  since : List Handle

def noListings : Listings := ⟨fun _ => [], []⟩

/-- `open` in process `pid` returned `ret`. -/
def Listings.opened (g : Listings) (pid : Nat) (ret : Int) : Listings :=
  if 0 ≤ ret then { g with got := Function.update g.got (pid, ret.toNat) [] } else g

/-- A directory read delivered `r`. -/
def Listings.delivered (g : Listings) (d : Handle) (r : NameRead) : Listings where
  got := Function.update g.got d (g.got d ++ [r])
  since := if r.2 = 0 then [] else g.since ++ [d]

/-- Every directory read since the last end of a listing was made on this descriptor, and these are all
its reads since its `open`. -/
def Listings.InTurn (g : Listings) (d : Handle) : Prop := g.since = List.replicate (g.got d).length d

instance (g : Listings) (d : Handle) : Decidable (g.InTurn d) :=
  inferInstanceAs (Decidable (g.since = List.replicate (g.got d).length d))

/-- A descriptor of the running process that is open on a directory. -/
structure DirectoryOpen (fops : FopsTables) (k : Kernel) (fd : Nat) : Prop where
  running : Running k
  low : 2 ≤ fd
  high : fd < opsSize
  inUse : k.mem.load32 (inUseAddr k.currentPblock fd) % 2 = 1
  fop : k.mem.load32 (fopPtrAddr k.currentPblock fd) = fops.directory

inductive ListingCall where
  | «open» (name : List UInt8) (ret : Int)
  | close (fd ret : Int)
  | read (fd buf : Nat) (nbytes : Int) (r : NameRead)
  | other

/-- Calls of any process. The others, and switching between processes, leave the counter alone. -/
inductive ListingStep (fops : FopsTables) (fs : FileSys) :
    Kernel × Listings → ListingCall → Kernel × Listings → Prop
  | «open» {k k' : Kernel} {name : List UInt8} {ret : Int} (g : Listings)
      (hcall : sysOpen fops fs k name = .ok (k', ret)) :
      ListingStep fops fs (k, g) (.open name ret) (k', g.opened k.processCount ret)
  | close {k k' : Kernel} {fd ret : Int} (g : Listings) (hcall : sysClose fops k fd = .ok (k', ret)) :
      ListingStep fops fs (k, g) (.close fd ret) (k', g)
  | read {k k' : Kernel} {fd buf : Nat} {nbytes : Int} {r : NameRead} (g : Listings) (staleInode : Nat)
      (hopen : DirectoryOpen fops k fd) (hnull : buf ≠ 0)
      (hcall : sysRead fops fs k fd buf nbytes staleInode = .ok (k', r.2))
      (hname : k'.fetch buf r.2.toNat = .ok r.1) :
      ListingStep fops fs (k, g) (.read fd buf nbytes r) (k', g.delivered (k.processCount, fd) r)
  | other {k k' : Kernel} (g : Listings) (hcount : k'.dirReadCount = k.dirReadCount) :
      ListingStep fops fs (k, g) .other (k', g)

/-- Directory reads are made in turn. -/
def ReadInTurn (s : Kernel × Listings) : ListingCall → Prop
  | .read fd _ _ _ => s.2.InTurn (s.1.processCount, fd)
  | _ => True

/-! ### One read -/

theorem readDentryByIndex_spec (hok : EntriesOk fs) (index : Nat) :
    readDentryByIndex fs index = .ok (if index < fs.info.numDirEntries then
      some ⟨fs.entryName index, fs.entryType index, fs.entryInode index⟩ else none) := by
  rw [readDentryByIndex]
  by_cases hlt : index < fs.info.numDirEntries
  · have hcount := hok.count
    have hname := hok.names index hlt
    rw [if_neg (by omega), if_neg (by omega), if_pos hlt]
  · rw [if_pos (by omega), if_neg hlt]

theorem readDirectory_name (hok : EntriesOk fs) (hlt : k.dirReadCount < fs.info.numDirEntries) (buf : Nat) :
    readDirectory fs k buf =
      ({ k with dirReadCount := k.dirReadCount + 1 }.store buf (fs.entryName k.dirReadCount ++ [0]) >>=
        fun k' => .ok (k', ((fs.entryName k.dirReadCount).length : Int))) := by
  rw [readDirectory, readDentryByIndex_spec hok, ok_bind, if_pos hlt]
  rfl

theorem readDirectory_end (hok : EntriesOk fs) (hge : ¬ k.dirReadCount < fs.info.numDirEntries) (buf : Nat) :
    readDirectory fs k buf = .ok ({ k with dirReadCount := 0 }, 0) := by
  rw [readDirectory, readDentryByIndex_spec hok, ok_bind, if_neg hge]
  rfl

/-- A directory read delivers the entry that the counter stands at, and the counter moves on or back. -/
theorem readDirectory_delivers (himg : NamesOk fs) {buf : Nat} {r : NameRead}
    (hcall : readDirectory fs k buf = .ok (k', r.2)) (hname : k'.fetch buf r.2.toNat = .ok r.1) :
    r = listingEntry fs k.dirReadCount ∧ k'.dirReadCount = if r.2 = 0 then 0 else k.dirReadCount + 1 := by
  by_cases hlt : k.dirReadCount < fs.info.numDirEntries
  · rw [readDirectory_name himg.entries hlt] at hcall
    obtain ⟨k1, hstore, hdone⟩ := bind_eq_ok hcall
    obtain ⟨rfl, hret⟩ := Prod.mk.inj (Except.ok.inj hdone)
    have hne : ((fs.entryName k.dirReadCount).length : Int) ≠ 0 := by
      have := (himg.names _ hlt).1
      simpa using this
    rw [← hret, Int.toNat_natCast, fetch_of_store hstore] at hname
    obtain ⟨m, vram, rfl⟩ := store_changes hstore
    refine ⟨Prod.ext ?_ ?_, ?_⟩
    · rw [listingEntry, if_pos hlt, ← Except.ok.inj hname]
    · rw [listingEntry, if_pos hlt, ← hret]
    · rw [← hret, if_neg hne]
  · rw [readDirectory_end himg.entries hlt] at hcall
    obtain ⟨rfl, hret⟩ := Prod.mk.inj (Except.ok.inj hcall)
    rw [← hret] at hname
    refine ⟨Prod.ext ?_ ?_, ?_⟩
    · rw [listingEntry, if_neg hlt]
      exact (Except.ok.inj hname).symm
    · rw [listingEntry, if_neg hlt, ← hret]
    · rw [← hret, if_pos rfl]

/-- `read` on a directory descriptor is `read_directory`. -/
theorem sysRead_directory {fd buf : Nat} (h : DirectoryOpen fops k fd) (hnull : buf ≠ 0) (nbytes : Int)
    (staleInode : Nat) : sysRead fops fs k fd buf nbytes staleInode = readDirectory fs k buf := by
  have hcond : k.mem.load32 (inUseAddr k.currentPblock fd) % 2 ≠ 0 ∧ (fd : Int) ≠ 1 := by
    have huse := h.inUse
    have hlow := h.low
    omega
  rw [sysRead_eq h.running h.high hnull, if_pos hcond, h.fop,
    show fops.directory = fops.addr .directory from rfl, fopsAt_addr, ok_bind, callRead]

/-- Into a buffer with room a directory read returns. -/
theorem readDirectory_returns (himg : NamesOk fs) (hrun : Running k) {buf : Nat}
    (hbuf : UserBuffer buf ((listingEntry fs k.dirReadCount).1.length + 1)) :
    ∃ k', readDirectory fs k buf = .ok (k', (listingEntry fs k.dirReadCount).2) ∧
      k'.fetch buf (listingEntry fs k.dirReadCount).2.toNat = .ok (listingEntry fs k.dirReadCount).1 := by
  by_cases hlt : k.dirReadCount < fs.info.numDirEntries
  · rw [readDirectory_name himg.entries hlt]
    rw [listingEntry, if_pos hlt] at hbuf ⊢
    have hrun' : Running { k with dirReadCount := k.dirReadCount + 1 } := ⟨hrun.one, hrun.max, hrun.frame⟩
    have hroom : UserBuffer buf (fs.entryName k.dirReadCount ++ [0]).length := by
      rwa [List.length_append, List.length_singleton]
    have hstore := hroom.store hrun'
    rw [hstore, ok_bind]
    exact ⟨_, rfl, fetch_of_store hstore⟩
  · rw [readDirectory_end himg.entries hlt, listingEntry, if_neg hlt]
    exact ⟨_, rfl, rfl⟩

/-! ### Runs -/

theorem sysOpen_dirReadCount {name : List UInt8} {ret : Int} (h : sysOpen fops fs k name = .ok (k', ret)) :
    k'.dirReadCount = k.dirReadCount := by
  rw [sysOpen] at h
  obtain ⟨location, -, h⟩ := bind_eq_ok h
  cases location with
  | none =>
      cases h
      rfl
  | some location =>
      obtain ⟨d, -, h⟩ := bind_eq_ok h
      cases d with
      | none =>
          cases h
          rfl
      | some d =>
          obtain ⟨kind, -, h⟩ := bind_eq_ok h
          cases h
          cases kind <;> rfl

theorem sysClose_dirReadCount {fd ret : Int} (h : sysClose fops k fd = .ok (k', ret)) :
    k'.dirReadCount = k.dirReadCount := by
  rw [sysClose] at h
  obtain ⟨use, -, h⟩ := bind_eq_ok h
  simp only at h
  split_ifs at h
  · cases h
    rfl
  · cases h
    rfl
  · obtain ⟨kind, -, h⟩ := bind_eq_ok h
    cases h
    cases kind <;> rfl
  · cases h
    rfl

/-- The counter counts the reads since the last end, and every descriptor got the start of the listing. -/
structure ListingInv (fs : FileSys) (s : Kernel × Listings) : Prop where
  counter : s.1.dirReadCount = s.2.since.length
  got_eq : ∀ d, s.2.got d = listingUpTo fs (s.2.got d).length

theorem listingUpTo_succ (fs : FileSys) (n : Nat) :
    listingUpTo fs (n + 1) = listingUpTo fs n ++ [listingEntry fs n] := by
  rw [listingUpTo, List.range_succ, List.map_append]
  rfl

theorem ListingInv.inTurn {s : Kernel × Listings} (h : ListingInv fs s) {d : Handle} (hturn : s.2.InTurn d) :
    s.1.dirReadCount = (s.2.got d).length := by
  rw [h.counter, hturn, List.length_replicate]

theorem ListingInv.opened {g : Listings} (h : ListingInv fs (k, g)) (hcount : k'.dirReadCount = k.dirReadCount)
    (pid : Nat) (ret : Int) : ListingInv fs (k', g.opened pid ret) := by
  rw [Listings.opened]
  split_ifs with hret
  · refine ⟨hcount.trans h.counter, fun d => ?_⟩
    by_cases hd : d = (pid, ret.toNat)
    · simp only [hd, Function.update_self]
      rfl
    · simp only [Function.update_of_ne hd]
      exact h.got_eq d
  · exact ⟨hcount.trans h.counter, h.got_eq⟩

theorem ListingInv.delivered {g : Listings} (h : ListingInv fs (k, g)) {d : Handle} {r : NameRead}
    (hentry : r = listingEntry fs (g.got d).length)
    (hcount : k'.dirReadCount = if r.2 = 0 then 0 else k.dirReadCount + 1) :
    ListingInv fs (k', g.delivered d r) := by
  refine ⟨?_, fun other => ?_⟩
  · simp only [Listings.delivered]
    rw [hcount, h.counter]
    split_ifs with hzero
    · rfl
    · rw [List.length_append, List.length_singleton]
  · by_cases hd : other = d
    · subst hd
      simp only [Listings.delivered, Function.update_self, List.length_append, List.length_singleton]
      rw [listingUpTo_succ, ← h.got_eq other, ← hentry]
    · simp only [Listings.delivered, Function.update_of_ne hd]
      exact h.got_eq other

theorem listingInv_step (himg : NamesOk fs) {s s' : Kernel × Listings} {e : ListingCall} (h : ListingInv fs s)
    (hstep : ListingStep fops fs s e s') (hturn : ReadInTurn s e) : ListingInv fs s' := by
  cases hstep with
  | «open» g hcall => exact h.opened (sysOpen_dirReadCount hcall) _ _
  | close g hcall => exact ⟨(sysClose_dirReadCount hcall).trans h.counter, h.got_eq⟩
  | read g staleInode hopen hnull hcall hname =>
      rw [sysRead_directory hopen hnull] at hcall
      obtain ⟨hentry, hcount⟩ := readDirectory_delivers himg hcall hname
      have hplace := h.inTurn hturn
      rw [hplace] at hentry
      exact h.delivered hentry hcount
  | other g hcount => exact ⟨hcount.trans h.counter, h.got_eq⟩

/-- The next read of a descriptor whose turn it is delivers the next place of its listing. -/
def DeliversNext (fops : FopsTables) (fs : FileSys) (s : Kernel × Listings) : Prop :=
  ∀ (fd buf : Nat) (nbytes : Int) (staleInode : Nat), DirectoryOpen fops s.1 fd →
    s.2.InTurn (s.1.processCount, fd) →
    UserBuffer buf ((listingEntry fs (s.2.got (s.1.processCount, fd)).length).1.length + 1) →
    ∃ k', sysRead fops fs s.1 fd buf nbytes staleInode =
        .ok (k', (listingEntry fs (s.2.got (s.1.processCount, fd)).length).2) ∧
      k'.fetch buf (listingEntry fs (s.2.got (s.1.processCount, fd)).length).2.toNat =
        .ok (listingEntry fs (s.2.got (s.1.processCount, fd)).length).1

theorem ListingInv.deliversNext (himg : NamesOk fs) {s : Kernel × Listings} (h : ListingInv fs s) :
    DeliversNext fops fs s := by
  intro fd buf nbytes staleInode hopen hturn hbuf
  have hplace := h.inTurn hturn
  have hnull : buf ≠ 0 := by
    have := hbuf.low
    simp only [addr128MB] at this
    omega
  rw [← hplace] at hbuf ⊢
  rw [sysRead_directory hopen hnull]
  exact readDirectory_returns himg hopen.running hbuf

/-- An image with the directory's own entry and one file. -/
def listedFs : FileSys where
  start := 0x40D000
  img :=
    let zero : Mem := fun _ => 0
    let boot := ((zero.store32 0x40D000 2).store32 0x40D004 1).store32 0x40D008 1
    let entry := (boot.writeBytes 0x40D040 [0x2E]).writeBytes 0x40D060 [1]
    (entry.writeBytes 0x40D080 shellName).writeBytes 0x40D0A0 [2]

theorem namesOk_listedFs : NamesOk listedFs := by
  have hcount : listedFs.info.numDirEntries = 2 := by decide
  have hnames : ∀ i < 2, listedFs.entryName i ≠ [] ∧ (listedFs.entryName i).length < fnameLength := by decide
  exact ⟨by rw [hcount]; decide, fun i hi => hnames i (by omega)⟩

theorem directoryOk_listedFs : DirectoryOk listedFs := by
  have hcount : listedFs.info.numDirEntries = 2 := by decide
  have htypes : ∀ i < 2, listedFs.entryType i ∈ [0, 1, 2] := by decide
  refine ⟨namesOk_listedFs.count, namesOk_listedFs.entries.names, fun i hi => htypes i ?_⟩
  rwa [hcount] at hi

/-- The directory opened as descriptor 2, and the states after reads of it and a second `open`. -/
def dotOpened : Kernel := stateAfter sampleKernel (sysOpen sampleFops listedFs sampleKernel [0x2E])

def dotRead : Kernel := stateAfter dotOpened (sysRead sampleFops listedFs dotOpened 2 0x8048000 33 0)

def dotClosed : Kernel := stateAfter dotRead (sysClose sampleFops dotRead 2)

def dotReopened : Kernel := stateAfter dotClosed (sysOpen sampleFops listedFs dotClosed [0x2E])

def dotReread : Kernel := stateAfter dotReopened (sysRead sampleFops listedFs dotReopened 2 0x8048000 33 0)

theorem step_dotOpened : ListingStep sampleFops listedFs (sampleKernel, noListings) (.open [0x2E] 2)
    (dotOpened, noListings.opened 3 2) :=
  .open noListings (eq_ok_of_returned _ (by decide +kernel))

theorem directoryOpen_dotOpened : DirectoryOpen sampleFops dotOpened 2 :=
  ⟨⟨by decide +kernel, by decide +kernel, by decide +kernel⟩, by decide, by decide, by decide +kernel,
    by decide +kernel⟩

theorem step_dotRead (g : Listings) : ListingStep sampleFops listedFs (dotOpened, g)
    (.read 2 0x8048000 33 ([0x2E], 1)) (dotRead, g.delivered (3, 2) ([0x2E], 1)) :=
  .read g 0 directoryOpen_dotOpened (by decide) (eq_ok_of_returned _ (by decide +kernel)) (by decide +kernel)

end UnixOs
