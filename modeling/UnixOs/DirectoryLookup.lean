import UnixOs.DirectoryListing

/-! Looking up directory entries. The search by name decides equality with lengths kept in eight bits, so a
long name can pass for a short one; every other name is looked up exactly. The search by index decodes the
same 64 bytes of an entry. -/

namespace UnixOs

variable {fops : FopsTables} {fs : FileSys} {fname : List UInt8}

/-- The entry at an index. -/
def entryAt (fs : FileSys) (i : Nat) : Dentry := ⟨fs.entryName i, fs.entryType i, fs.entryInode i⟩

/-- What a caller of `read_dentry_by_name` finds in `*dentry`, and the return value. -/
def dentryByName (fs : FileSys) (fname : List UInt8) (dentry : Dentry) : Except Fault (Dentry × Int) := do
  match ← readDentryByName fs fname with
  | none => return (dentry, -1)
  | some d => return (d, 0)

/-- The lookup that the directory calls for: the lowest entry with the whole name, or -1 and nothing
stored. -/
structure LookupExact (fs : FileSys) (fname : List UInt8) (old : Dentry)
    (result : Except Fault (Dentry × Int)) : Prop where
  found : ∀ i < fs.info.numDirEntries, fs.entryName i = fname → (∀ j < i, fs.entryName j ≠ fname) →
    result = .ok (⟨fname, fs.entryType i, fs.entryInode i⟩, 0)
  missing : (∀ i < fs.info.numDirEntries, fs.entryName i ≠ fname) → result = .ok (old, -1)

/-- A name of 256 bytes or more that starts with an entry's name and goes on for a multiple of 256 bytes. -/
def WrapsTo (fs : FileSys) (fname : List UInt8) : Prop :=
  256 ≤ fname.length ∧ ∃ i < fs.info.numDirEntries, fname.take (fname.length % 256) = fs.entryName i

theorem wrapsTo_iff_aliased (hok : EntriesOk fs) (hplain : 0 ∉ fname) : WrapsTo fs fname ↔ Aliased fs fname := by
  constructor
  · rintro ⟨hlong, i, hi, htake⟩
    refine ⟨hlong, i, hi, (nameMatches_iff hok hplain hi).mpr ⟨?_, htake⟩⟩
    have hle : fname.length % 256 ≤ fname.length := Nat.mod_le _ _
    rw [← htake, List.length_take, Nat.min_eq_left hle]
  · rintro ⟨hlong, i, hi, hmatch⟩
    exact ⟨hlong, i, hi, ((nameMatches_iff hok hplain hi).mp hmatch).2⟩

theorem findEntry_eq_none (h : ∀ i < fs.info.numDirEntries, fs.entryName i ≠ fname) :
    findEntry fs fname = none := by
  apply List.find?_eq_none.mpr
  intro i hi
  simpa using h i (List.mem_range.mp hi)

theorem findEntry_eq_some {i : Nat} (hi : i < fs.info.numDirEntries) (hname : fs.entryName i = fname)
    (hfirst : ∀ j < i, fs.entryName j ≠ fname) : findEntry fs fname = some i := by
  rw [findEntry, List.find?_range_eq_some]
  refine ⟨by simpa using hname, List.mem_range.mpr hi, fun j hj => ?_⟩
  simpa using hfirst j hj

theorem dentryByName_spec (hok : EntriesOk fs) (hplain : 0 ∉ fname) (halias : ¬ Aliased fs fname)
    (old : Dentry) :
    dentryByName fs fname old = .ok (match findEntry fs fname with
      | none => (old, -1)
      | some i => (⟨fname, fs.entryType i, fs.entryInode i⟩, 0)) := by
  rw [dentryByName, readDentryByName_spec hok hplain halias, ok_bind]
  cases findEntry fs fname with
  | none => rfl
  | some i => rfl

/-- A name that wraps is the name of no entry. -/
theorem entryName_ne_of_long (hok : EntriesOk fs) (hlong : 256 ≤ fname.length) {i : Nat}
    (hi : i < fs.info.numDirEntries) : fs.entryName i ≠ fname := by
  rintro rfl
  have hshort := hok.names i hi
  simp only [fnameLength] at hshort
  omega

/-- A lookup is exact for every name but those that wrap to the name of an entry. -/
theorem lookup_exact_iff (hok : EntriesOk fs) (hplain : 0 ∉ fname) (old : Dentry) :
    LookupExact fs fname old (dentryByName fs fname old) ↔ ¬ WrapsTo fs fname := by
  rw [wrapsTo_iff_aliased hok hplain]
  constructor
  · intro hexact halias
    have hmissing := hexact.missing fun i hi => entryName_ne_of_long hok halias.1 hi
    rw [dentryByName, readDentryByName_aliased hok halias] at hmissing
    cases hmissing
  · intro halias
    have hspec := dentryByName_spec hok hplain halias old
    refine ⟨fun i hi hname hfirst => ?_, fun hmissing => ?_⟩
    · rw [hspec, findEntry_eq_some hi hname hfirst]
    · rw [hspec, findEntry_eq_none hmissing]

theorem lookup_exact_iff_shell :
    LookupExact sampleFs shellName ⟨[], 0, 0⟩ (dentryByName sampleFs shellName ⟨[], 0, 0⟩) ↔
      ¬ WrapsTo sampleFs shellName :=
  lookup_exact_iff directoryOk_sampleFs.entries (by decide) _

/-- `shell` and 256 more bytes is accepted for `shell`, and its copy overruns the entry. -/
theorem long_name_not_looked_up :
    EntriesOk sampleFs ∧ 0 ∉ aliasName ∧ dentryByName sampleFs aliasName ⟨[], 0, 0⟩ = .error .overrun ∧
      ¬ LookupExact sampleFs aliasName ⟨[], 0, 0⟩ (dentryByName sampleFs aliasName ⟨[], 0, 0⟩) := by
  have hplain : 0 ∉ aliasName := by decide
  have halias : Aliased sampleFs aliasName := ⟨by decide +kernel, 0, by decide, by decide +kernel⟩
  have hresult : dentryByName sampleFs aliasName ⟨[], 0, 0⟩ = .error .overrun := by
    rw [dentryByName, readDentryByName_aliased directoryOk_sampleFs.entries halias]
    rfl
  refine ⟨directoryOk_sampleFs.entries, hplain, hresult, fun hexact => ?_⟩
  have hmissing := hexact.missing fun i hi =>
    entryName_ne_of_long directoryOk_sampleFs.entries halias.1 hi
  rw [hresult] at hmissing
  cases hmissing

/-! ### By index and by name -/

/-- A directory whose names also are distinct and not empty. -/
structure DistinctDirectory (fs : FileSys) : Prop extends DirectoryOk fs where
  nonempty : ∀ i < fs.info.numDirEntries, fs.entryName i ≠ []
  distinctNames : ∀ i < fs.info.numDirEntries, ∀ j < fs.info.numDirEntries,
    fs.entryName i = fs.entryName j → i = j

/-- The 64 bytes at an address hold an entry: its name with the terminator, its type and its inode. -/
structure StoresEntry (img : Mem) (a : Nat) (d : Dentry) : Prop where
  name : img.HoldsString a d.name
  fits : d.name.length < fnameLength
  type : d.type = img (a + 32)
  inode : d.inode = img.load32 (a + 36)

theorem dirEntries_eq (fs : FileSys) (i : Nat) : fs.info.dirEntries i = fs.start + (64 + 64 * i) := by
  simp only [FileSys.info, filesysInit, dentrySize]
  omega

theorem storesEntry_entryAt (hok : EntriesOk fs) {i : Nat} (hi : i < fs.info.numDirEntries) :
    StoresEntry fs.img (fs.start + (64 + 64 * i)) (entryAt fs i) := by
  have hname := entryName_holds hok hi
  rw [dirEntries_eq] at hname
  refine ⟨hname, hok.names i hi, ?_, ?_⟩
  · rw [← dirEntries_eq]
    rfl
  · rw [← dirEntries_eq]
    rfl

theorem DistinctDirectory.lookup (hdir : DistinctDirectory fs) {i : Nat} (hi : i < fs.info.numDirEntries) :
    readDentryByName fs (fs.entryName i) = .ok (some (entryAt fs i)) := by
  have hentries := hdir.toDirectoryOk.entries
  have hplain := (entryName_holds hentries hi).plain
  have halias : ¬ Aliased fs (fs.entryName i) := not_aliased_of_short (hentries.names i hi)
  have hfind : findEntry fs (fs.entryName i) = some i :=
    findEntry_eq_some hi rfl fun j hj hname => by
      have := hdir.distinctNames j (by omega) i hi hname
      omega
  rw [readDentryByName_spec hentries hplain halias, hfind]
  rfl

/-- The kernel when `open` has set up a descriptor for an entry. -/
def openedAt (fops : FopsTables) (fs : FileSys) (k : Kernel) (location : Nat) (d : Dentry) : Kernel where
  __ := k
  mem := openSwitch fops fs (openFields k.mem k.currentPblock location d.name) k.currentPblock location d

theorem sysOpen_found {k : Kernel} {location : Nat} {d : Dentry}
    (hfree : freeFrom k opsSize 0 = .ok (some location)) (hfound : readDentryByName fs d.name = .ok (some d)) :
    sysOpen fops fs k d.name = finishOpen fops (openedAt fops fs k location d) location := by
  rw [sysOpen, hfree, ok_bind]
  simp only
  rw [hfound, ok_bind]
  simp only
  rw [openedAt]

/-- A descriptor that `open` has set up for an entry: at position 0, with the operations of its type, its name, and for
a regular file the address of its inode. -/
structure OpenedOn (fops : FopsTables) (fs : FileSys) (k : Kernel) (fd : Nat) (d : Dentry) : Prop where
  inUse : k.mem.load32 (inUseAddr k.currentPblock fd) = 1
  position : k.mem.load32 (filePosAddr k.currentPblock fd) = 0
  operations : k.mem.load32 (fopPtrAddr k.currentPblock fd) = fops.addr (kindOfType d.type)
  inode : k.mem.load32 (inodeAddr k.currentPblock fd) = if d.type = 2 then (inodeAddress fs d.inode).getD 0 else 0
  name : k.mem.HoldsString (fileNameAddr k.currentPblock fd) d.name

theorem inodeAddress_lt (fs : FileSys) (inode : Nat) : (inodeAddress fs inode).getD 0 < 2 ^ 32 := by
  rw [inodeAddress]
  split_ifs
  · exact Nat.zero_lt_succ _
  · exact Nat.mod_lt _ (Nat.zero_lt_succ _)

theorem openSlot_inode (m : Mem) (pcb location i : Nat) :
    (openSlot fops fs m pcb location i).load32 (inodeAddr pcb location) =
      if fs.entryType i = 2 then (inodeAddress fs (fs.entryInode i)).getD 0 else 0 := by
  have hfields : (openFields m pcb location (fs.entryName i)).load32 (inodeAddr pcb location) = 0 := by
    rw [openFields, Mem.load32_store32_of_ne _ (by simp only [inodeAddr, inUseAddr]; omega),
      Mem.load32_store32_of_ne _ (by simp only [inodeAddr, filePosAddr]; omega),
      Mem.load32_writeBytes_of_outside (.inl (by simp only [inodeAddr, fileNameAddr]; omega))]
    exact Mem.load32_store32_of_lt _ _ (by decide)
  have hpointer : ∀ v, ((openFields m pcb location (fs.entryName i)).store32 (fopPtrAddr pcb location) v).load32
      (inodeAddr pcb location) = 0 := fun v => by
    rw [Mem.load32_store32_of_ne _ (by simp only [inodeAddr, fopPtrAddr]; omega), hfields]
  rw [openSlot, openSwitch]
  dsimp only
  by_cases hfile : fs.entryType i = 2
  · rw [if_neg (by rw [hfile]; decide), if_neg (by rw [hfile]; decide), if_pos hfile, if_pos hfile]
    exact Mem.load32_store32_of_lt _ _ (inodeAddress_lt fs _)
  · rw [if_neg hfile, if_neg hfile]
    split_ifs
    · exact hpointer _
    · exact hpointer _
    · exact hfields

theorem openedAt_spec (hdir : DirectoryOk fs) {i : Nat} (hi : i < fs.info.numDirEntries) (k : Kernel) (location : Nat) :
    finishOpen fops (openedAt fops fs k location (entryAt fs i)) location =
        .ok (openedAt fops fs k location (entryAt fs i), location) ∧
      OpenedOn fops fs (openedAt fops fs k location (entryAt fs i)) location (entryAt fs i) := by
  obtain ⟨huse, hpos, hfop, hname⟩ := openSlot_spec fops k.mem k.currentPblock hdir hi location
  exact ⟨finishOpen_ok (fs.entryType i) hfop, huse, hpos, hfop, openSlot_inode _ _ _ _, hname⟩

/-- The two lookups read the same entries, and a name that a directory read delivers opens its entry. -/
structure LookupsAgree (fops : FopsTables) (fs : FileSys) : Prop where
  index : ∀ i < fs.info.numDirEntries, ∃ d, readDentryByIndex fs i = .ok (some d) ∧
    StoresEntry fs.img (fs.start + (64 + 64 * i)) d ∧ readDentryByName fs d.name = .ok (some d)
  behind : ∀ i, fs.info.numDirEntries ≤ i → readDentryByIndex fs i = .ok none
  listed : ∀ k buf k' ret, readDirectory fs k buf = .ok (k', ret) → ret ≠ 0 →
    ∃ d, readDentryByIndex fs k.dirReadCount = .ok (some d) ∧ k'.fetch buf ret.toNat = .ok d.name ∧
      ∀ k1 location, freeFrom k1 opsSize 0 = .ok (some location) →
        sysOpen fops fs k1 d.name = .ok (openedAt fops fs k1 location d, location) ∧
          OpenedOn fops fs (openedAt fops fs k1 location d) location d

theorem readDentryByIndex_entryAt (hok : EntriesOk fs) {i : Nat} (hi : i < fs.info.numDirEntries) :
    readDentryByIndex fs i = .ok (some (entryAt fs i)) := by
  rw [readDentryByIndex_spec hok, if_pos hi]
  rfl

/-- A directory read that delivers something delivers the name of the entry the counter stands at. -/
theorem readDirectory_listed {k k' : Kernel} {buf : Nat} {ret : Int} (hok : EntriesOk fs)
    (hread : readDirectory fs k buf = .ok (k', ret)) (hret : ret ≠ 0) :
    k.dirReadCount < fs.info.numDirEntries ∧ k'.fetch buf ret.toNat = .ok (fs.entryName k.dirReadCount) := by
  by_cases hlt : k.dirReadCount < fs.info.numDirEntries
  · rw [readDirectory_name hok hlt] at hread
    obtain ⟨k1, hstore, hdone⟩ := bind_eq_ok hread
    obtain ⟨rfl, rfl⟩ := Prod.mk.inj (Except.ok.inj hdone)
    exact ⟨hlt, fetch_of_store hstore⟩
  · rw [readDirectory_end hok hlt] at hread
    exact absurd (Prod.mk.inj (Except.ok.inj hread)).2.symm hret

/-- Lookup by index and lookup by name agree on every directory of the format. -/
theorem index_and_name_agree (fops : FopsTables) (hdir : DistinctDirectory fs) : LookupsAgree fops fs := by
  have hentries := hdir.toDirectoryOk.entries
  refine ⟨fun i hi => ?_, fun i hi => ?_, fun k buf k' ret hread hret => ?_⟩
  · exact ⟨entryAt fs i, readDentryByIndex_entryAt hentries hi, storesEntry_entryAt hentries hi,
      hdir.lookup hi⟩
  · rw [readDentryByIndex_spec hentries, if_neg (by omega)]
  · obtain ⟨hlt, hfetch⟩ := readDirectory_listed hentries hread hret
    refine ⟨entryAt fs k.dirReadCount, readDentryByIndex_entryAt hentries hlt, hfetch, ?_⟩
    intro k1 location hfree
    obtain ⟨hfinish, hopened⟩ := openedAt_spec hdir.toDirectoryOk hlt k1 location
    exact ⟨(sysOpen_found hfree (hdir.lookup hlt)).trans hfinish, hopened⟩

/-- The directory's own entry and a file. -/
theorem index_and_name_agree_shell : LookupsAgree sampleFops listedFs := by
  have hcount : listedFs.info.numDirEntries = 2 := by decide
  have hdistinct : ∀ i < 2, ∀ j < 2, listedFs.entryName i = listedFs.entryName j → i = j := by decide
  refine index_and_name_agree sampleFops ⟨directoryOk_listedFs, fun i hi => (namesOk_listedFs.names i hi).1, ?_⟩
  rw [hcount]
  exact hdistinct

end UnixOs
