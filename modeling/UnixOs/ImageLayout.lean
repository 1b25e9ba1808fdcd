import UnixOs.DirectoryListing

/-! How the fields of an image are laid out. A directory entry gives its name 32 bytes and no terminator, so
that the name of an entry that uses them all ends at the type behind it; and the header is decoded a second
time through a `boot_block_t` laid over it. -/

namespace UnixOs

variable {fs : FileSys}

/-! ### Names of the full width -/

/-- A directory entry: a name of 1 to 32 bytes, padded with NULs, and a type of four bytes. -/
structure StoresName (fs : FileSys) (i : Nat) (name : List UInt8) (type : Nat) : Prop where
  plain : 0 ∉ name
  nonempty : 1 ≤ name.length
  width : name.length ≤ fnameLength
  bytes : fs.img.readBytes (fs.info.dirEntries i) fnameLength =
    name ++ List.replicate (fnameLength - name.length) 0
  typeOk : type ≤ 2
  typeField : fs.img.load32 (fs.info.dirEntries i + fnameLength) = type

/-- `read_dentry_by_index` stores the name and one NUL in the 33 bytes of `dentry.name`, and a directory read
of the entry delivers them to the buffer and returns the length. -/
structure NameHandled (fs : FileSys) (i : Nat) (name : List UInt8) : Prop where
  index : ∃ d, readDentryByIndex fs i = .ok (some d) ∧ d.name = name
  read : ∀ k : Kernel, k.dirReadCount = i → ∀ buf, readDirectory fs k buf =
    ({ k with dirReadCount := i + 1 }.store buf (name ++ [0]) >>= fun k' => .ok (k', (name.length : Int)))

theorem type_bytes {m : Mem} {a type : Nat} (htype : type ≤ 2) (h : m.load32 a = type) :
    m a = UInt8.ofNat type ∧ m (a + 1) = 0 := by
  have h0 := (m a).toNat_lt
  have h1 := (m (a + 1)).toNat_lt
  rw [Mem.load32] at h
  have hlow : (m a).toNat = type := by omega
  have hnext : (m (a + 1)).toNat = 0 := by omega
  exact ⟨by rw [← hlow, UInt8.ofNat_toNat], UInt8.toNat_inj.mp hnext⟩

theorem StoresName.byte {i : Nat} {name : List UInt8} {type : Nat} (h : StoresName fs i name type) {j : Nat}
    (hj : j < name.length) : fs.img (fs.info.dirEntries i + j) = name[j] := by
  have hlt : j < fnameLength := Nat.lt_of_lt_of_le hj h.width
  have hget := Mem.getElem_readBytes fs.img (fs.info.dirEntries i) fnameLength j (by simpa using hlt)
  rw [← hget]
  simp only [h.bytes, List.getElem_append_left hj]

theorem StoresName.padding {i : Nat} {name : List UInt8} {type : Nat} (h : StoresName fs i name type)
    (hshort : name.length < fnameLength) : fs.img (fs.info.dirEntries i + name.length) = 0 := by
  have hget := Mem.getElem_readBytes fs.img (fs.info.dirEntries i) fnameLength name.length (by simpa using hshort)
  rw [← hget]
  simp only [h.bytes]
  rw [List.getElem_append_right le_rfl, List.getElem_replicate]

/-- A shorter name, or one in front of a type whose first byte is zero, is terminated. -/
theorem StoresName.entryName_eq {i : Nat} {name : List UInt8} {type : Nat} (h : StoresName fs i name type)
    (hend : name.length < fnameLength ∨ type = 0) : fs.entryName i = name := by
  have hwidth := h.width
  have hholds : fs.img.HoldsString (fs.info.dirEntries i) name := by
    refine ⟨h.plain, fun j hj => h.byte hj, ?_⟩
    by_cases hshort : name.length < fnameLength
    · exact h.padding hshort
    · have hfull : name.length = fnameLength := by omega
      rw [hfull, (type_bytes h.typeOk h.typeField).1, hend.resolve_left hshort]
      rfl
  exact hholds.cstr_eq (by rw [fnameLength] at hwidth; omega)

/-- A name of the full width runs on into a type that is not zero. -/
theorem StoresName.entryName_runs_on {i : Nat} {name : List UInt8} {type : Nat} (h : StoresName fs i name type)
    (hfull : name.length = fnameLength) (htype : type ≠ 0) : fs.entryName i = name ++ [UInt8.ofNat type] := by
  have hbound := h.typeOk
  obtain ⟨hfirst, hsecond⟩ := type_bytes h.typeOk h.typeField
  have hne : UInt8.ofNat type ≠ 0 := by
    intro hzero
    have hmod := congrArg UInt8.toNat hzero
    rw [UInt8.toNat_ofNat', UInt8.toNat_zero] at hmod
    omega
  have hlength : (name ++ [UInt8.ofNat type]).length = fnameLength + 1 := by
    rw [List.length_append, List.length_singleton, hfull]
  have hholds : fs.img.HoldsString (fs.info.dirEntries i) (name ++ [UInt8.ofNat type]) := by
    refine ⟨?_, fun j hj => ?_, ?_⟩
    · rw [List.mem_append, List.mem_singleton]
      rintro (hmem | hzero)
      · exact h.plain hmem
      · exact hne hzero.symm
    · rcases Nat.lt_or_ge j name.length with hlt | hge
      · rw [h.byte hlt, List.getElem_append_left hlt]
      · obtain rfl : j = name.length := by omega
        have hat : fs.img (fs.info.dirEntries i + name.length) = UInt8.ofNat type := by rw [hfull, hfirst]
        rw [hat, List.getElem_append_right le_rfl]
        simp
    · rw [hlength, ← Nat.add_assoc]
      exact hsecond
  exact hholds.cstr_eq (by rw [hlength]; decide)

/-- An entry of 1 to 32 bytes is handled unless its name has the full width and its type is not zero. -/
theorem name_handled_iff (hcount : fs.info.numDirEntries ≤ maxDentries) {i : Nat} (hi : i < fs.info.numDirEntries)
    {name : List UInt8} {type : Nat} (h : StoresName fs i name type) :
    NameHandled fs i name ↔ name.length < fnameLength ∨ type = 0 := by
  constructor
  · rintro ⟨⟨d, hread, -⟩, -⟩
    by_contra hfull
    rw [not_or] at hfull
    have hwidth := h.width
    have hlength : (fs.entryName i).length > fnameLength := by
      rw [h.entryName_runs_on (by omega) hfull.2, List.length_append, List.length_singleton]
      omega
    rw [readDentryByIndex, if_neg (by omega), if_pos (.inr hlength)] at hread
    cases hread
  · intro hend
    have hname := h.entryName_eq hend
    have hwidth := h.width
    have hread : readDentryByIndex fs i = .ok (some ⟨name, fs.entryType i, fs.entryInode i⟩) := by
      rw [readDentryByIndex, if_neg (by omega), hname, if_neg (by omega)]
    refine ⟨⟨_, hread, rfl⟩, ?_⟩
    rintro k rfl buf
    rw [readDirectory, hread]
    rfl

/-- An image with one entry, whose name is 32 times the letter `a`. -/
def wideFs (type : UInt8) : FileSys where
  start := 0
  img := ((Mem.store32 (fun _ => 0) 0 1).writeBytes 64 (List.replicate 32 0x61)).writeBytes 96 [type]

theorem numDirEntries_wideFs (type : UInt8) : (wideFs type).info.numDirEntries = 1 := by
  change (wideFs type).img.load32 0 = 1
  rw [wideFs, Mem.load32_writeBytes_of_outside (.inl (by decide)), Mem.load32_writeBytes_of_outside (by decide),
    Mem.load32_store32_of_lt _ _ (by decide)]

theorem storesName_wideFs {type : Nat} (htype : type ≤ 2) :
    StoresName (wideFs (UInt8.ofNat type)) 0 (List.replicate 32 0x61) type := by
  have hcases : type = 0 ∨ type = 1 ∨ type = 2 := by omega
  rcases hcases with rfl | rfl | rfl
  all_goals exact ⟨by decide, by decide, by decide, by decide, by decide, by decide⟩

/-- The clock may have a name of the full width. -/
theorem name_handled_iff_clock : NameHandled (wideFs 0) 0 (List.replicate 32 0x61) :=
  (name_handled_iff (by rw [numDirEntries_wideFs]; decide) (by rw [numDirEntries_wideFs]; decide)
    (storesName_wideFs (Nat.zero_le 2))).mpr (.inr rfl)

/-- A regular file with a name of the full width: the copy of the name writes behind `dentry.name`. -/
theorem wide_file_name_overruns :
    readDentryByIndex (wideFs 2) 0 = .error .overrun ∧ ¬NameHandled (wideFs 2) 0 (List.replicate 32 0x61) := by
  have hname : (wideFs 2).entryName 0 = List.replicate 32 0x61 ++ [2] :=
    (storesName_wideFs (Nat.le_refl 2)).entryName_runs_on (by decide) (by decide)
  have hread : readDentryByIndex (wideFs 2) 0 = .error .overrun := by
    rw [readDentryByIndex, numDirEntries_wideFs, if_neg (by decide), hname, if_pos (by decide)]
  refine ⟨hread, fun hhandled => ?_⟩
  obtain ⟨d, hfound, -⟩ := hhandled.index
  rw [hread] at hfound
  cases hfound

/-! ### The address of an inode -/

/-- The ways to locate an inode agree: `inode_address` knows the inodes that `filesys_init` counted, and gives
the address that `read_data` and `execute` compute, inside the inode blocks and before the data blocks.
Pointers are addresses modulo `2^32`. -/
structure InodeLocated (fs : FileSys) (i : Nat) : Prop where
  known : inodeAddress fs i ≠ none ↔ i < fs.info.numInodes
  located : ∀ a, inodeAddress fs i = some a →
    a = fs.inodePtr i ∧ a = (fs.info.inodeBlocks + kb4 * i) % 2 ^ 32 ∧
      a + kb4 ≤ fs.info.dataBlocks % 2 ^ 32

theorem inodeBlocks_eq (fs : FileSys) : fs.info.inodeBlocks = fs.start + 4096 := by
  simp only [FileSys.info, filesysInit, maxDentries, dentrySize]

theorem dataBlocks_eq (fs : FileSys) : fs.info.dataBlocks = fs.start + 4096 * (fs.info.numInodes + 1) := by
  simp only [FileSys.info, filesysInit, maxDentries, dentrySize, kb4]
  omega

/-- The overlaid structure has the number of data blocks where `inode_address` looks for the inodes. -/
theorem inodeAddress_eq (fs : FileSys) (i : Nat) :
    inodeAddress fs i = if i < fs.info.numDataBlocks then some ((fs.start + 4096 * (i + 1)) % 2 ^ 32) else none := by
  have haddr : fs.start + kb4 + i * kb4 = fs.start + 4096 * (i + 1) := by
    rw [kb4]
    omega
  rw [inodeAddress]
  change (if i ≥ fs.info.numDataBlocks then none else some ((fs.start + kb4 + i * kb4) % 2 ^ 32)) = _
  rw [haddr]
  by_cases hlt : i < fs.info.numDataBlocks
  · rw [if_neg (by omega), if_pos hlt]
  · rw [if_pos (by omega), if_neg hlt]

theorem known_iff (fs : FileSys) {i : Nat} (h : InodeLocated fs i) :
    i < fs.info.numDataBlocks ↔ i < fs.info.numInodes := by
  rw [← h.known, inodeAddress_eq]
  split_ifs with hlt <;> simp [hlt]

/-- The last block that starts inside the address space. -/
theorem exists_last_block {start n : Nat} (hboot : start + 4096 < 2 ^ 32)
    (hwraps : ¬start + 4096 * (n + 1) < 2 ^ 32) :
    ∃ i < n, (i + 1) * 4096 < 2 ^ 32 ∧ start + 4096 * (i + 1) < 2 ^ 32 ∧ 2 ^ 32 ≤ start + 4096 * (i + 2) := by
  obtain ⟨r, hr⟩ := Nat.exists_eq_add_of_lt hboot
  have hlow := Nat.mul_div_le r 4096
  have hhigh := Nat.lt_mul_div_succ r (show 0 < 4096 by decide)
  refine ⟨r / 4096, ?_, ?_, ?_, ?_⟩
  · omega
  · omega
  · calc
      start + 4096 * (r / 4096 + 1) = start + 4096 + 4096 * (r / 4096) := by ring
      _ ≤ start + 4096 + r := Nat.add_le_add_left hlow _
      _ < 2 ^ 32 := by rw [hr]; exact Nat.lt_succ_self _
  · omega

theorem counts_eq_of_agree {start n d : Nat} (hfits : start + 4096 * (n + 1) < 2 ^ 32)
    (hagree : ∀ i, (i + 1) * 4096 < 2 ^ 32 → (i < d ↔ i < n)) : n = d := by
  have hat := hagree n (by omega)
  have hbefore := hagree (n - 1) (by omega)
  omega

/-- Inode blocks that run past the end of the address space: the inode just before that end is not before
`data_blocks`. -/
theorem inode_blocks_fit {fs : FileSys} (hboot : fs.start + 4096 < 2 ^ 32)
    (hall : ∀ i, (i + 1) * 4096 < 2 ^ 32 → InodeLocated fs i) :
    fs.start + 4096 * (fs.info.numInodes + 1) < 2 ^ 32 := by
  by_contra hwraps
  obtain ⟨i, hinode, hi, hbelow, habove⟩ := exists_last_block hboot hwraps
  have hlocated := hall i hi
  have haddress := inodeAddress_eq fs i
  rw [if_pos ((known_iff fs hlocated).mpr hinode), Nat.mod_eq_of_lt hbelow] at haddress
  obtain ⟨-, -, hbefore⟩ := hlocated.located _ haddress
  have hlt : fs.info.dataBlocks % 2 ^ 32 < 2 ^ 32 := Nat.mod_lt _ (by decide)
  rw [kb4] at hbefore
  omega

/-- Where both counts are the same, and the inode blocks end inside the address space, every way to locate an
inode agrees; otherwise some inode is found in one way and not in another, or lies behind `data_blocks`. -/
theorem inodes_located_iff (fs : FileSys) (hboot : fs.start + 4096 < 2 ^ 32) :
    (∀ i, (i + 1) * 4096 < 2 ^ 32 → InodeLocated fs i) ↔
      fs.info.numInodes = fs.info.numDataBlocks ∧ fs.start + 4096 * (fs.info.numInodes + 1) < 2 ^ 32 := by
  have hinodes := dataBlocks_eq fs
  constructor
  · intro hall
    have hfits := inode_blocks_fit hboot hall
    exact ⟨counts_eq_of_agree hfits fun i hi => known_iff fs (hall i hi), hfits⟩
  · rintro ⟨hsame, hend⟩ i hi
    have haddress := inodeAddress_eq fs i
    rw [← hsame] at haddress
    refine ⟨?_, fun a ha => ?_⟩
    · rw [haddress]
      split_ifs with hlt <;> simp [hlt]
    · rw [haddress] at ha
      split_ifs at ha with hlt
      obtain rfl := Option.some.inj ha
      have hptr : fs.inodePtr i = (fs.start + kb4 * (i + 1)) % 2 ^ 32 := rfl
      have hsum : fs.start + 4096 + 4096 * i = fs.start + 4096 * (i + 1) := by omega
      rw [hinodes, inodeBlocks_eq, hptr, kb4, hsum]
      refine ⟨rfl, rfl, ?_⟩
      omega

/-- The image of `shell` has one inode and one data block. -/
theorem inodes_located_iff_shell : InodeLocated sampleFs 0 := by
  have hcounts : sampleFs.info.numInodes = sampleFs.info.numDataBlocks := by decide
  have hone : sampleFs.info.numInodes = 1 := by decide
  have hfits : sampleFs.start + 4096 * (sampleFs.info.numInodes + 1) < 2 ^ 32 := by rw [hone]; decide
  exact (inodes_located_iff sampleFs (by decide)).mpr ⟨hcounts, hfits⟩ 0 (by decide)

/-- A header with one directory entry, one inode and no data block. -/
def emptyFileFs : FileSys where
  start := 0x40D000
  img := (Mem.store32 (fun _ => 0) 0x40D000 1).store32 0x40D004 1

/-- The only inode of an image without data blocks is not found. -/
theorem inode_of_empty_file_unknown :
    inodeAddress emptyFileFs 0 = none ∧ 0 < emptyFileFs.info.numInodes ∧ ¬InodeLocated emptyFileFs 0 := by
  have hcount : emptyFileFs.info.numDataBlocks = 0 := by decide
  have hone : 0 < emptyFileFs.info.numInodes := by decide
  have hnone : inodeAddress emptyFileFs 0 = none := by
    rw [inodeAddress_eq, hcount, if_neg (Nat.lt_irrefl 0)]
  exact ⟨hnone, hone, fun hlocated => hlocated.known.mpr hone hnone⟩

end UnixOs
