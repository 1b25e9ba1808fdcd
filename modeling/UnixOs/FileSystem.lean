import UnixOs.CString

/-! The read-only file system of `filesys_mod.c`: a boot block with directory entries, inodes that list
data blocks, and the data blocks, all in the bytes of one image. The kernel never stores into the
image, so it is a memory of its own here, with whatever else is mapped around it. -/

namespace UnixOs

/-- Why an operation does not return: it touched unmapped memory, it wrote or read behind one of its own
objects, it called through a pointer that is no operations table, or it waits for a key. -/
inductive Fault where
  | pageFault
  | overrun
  | wildCall
  | waiting
  deriving DecidableEq

@[simp] theorem ok_bind {ε α β : Type} (x : α) (f : α → Except ε β) : (Except.ok x >>= f) = f x := rfl

@[simp] theorem pure_eq_ok {ε α : Type} (x : α) : (pure x : Except ε α) = .ok x := rfl

/-- A computation that returned went through a value of its first part. -/
theorem bind_eq_ok {ε α β : Type} {x : Except ε α} {f : α → Except ε β} {b : β}
    (h : x >>= f = .ok b) : ∃ a, x = .ok a ∧ f a = .ok b := by
  cases x with
  | error e => cases h
  | ok a => exact ⟨a, rfl, h⟩

def fnameLength : Nat := 32

def dentrySize : Nat := 64

def fsFieldSize : Nat := 4

def kb4 : Nat := 4096

def maxDblocksPerFile : Nat := 1023

def maxDentries : Nat := 63

/-- `boot_block_t`: what `filesys_init` collects. -/
structure BootBlock where
  filesysPtr : Nat
  numDirEntries : Nat
  numInodes : Nat
  numDataBlocks : Nat
  dirEntries : Nat → Nat
  inodeBlocks : Nat
  dataBlocks : Nat

/-- Three words, 52 reserved bytes, 63 directory entries; then the inodes, then the data blocks. -/
def filesysInit (img : Mem) (fileSysStart : Nat) : BootBlock :=
  let numInodes := img.load32 (fileSysStart + 4)
  let names := fileSysStart + 12 + 13 * 4
  let inodeBlocks := names + maxDentries * dentrySize
  { filesysPtr := fileSysStart
    numDirEntries := img.load32 fileSysStart
    numInodes := numInodes
    numDataBlocks := img.load32 (fileSysStart + 8)
    dirEntries := fun dIdx => names + dIdx * dentrySize
    inodeBlocks := inodeBlocks
    dataBlocks := inodeBlocks + numInodes * kb4 }

structure FileSys where
  img : Mem
  start : Nat

namespace FileSys

def info (fs : FileSys) : BootBlock := filesysInit fs.img fs.start

/-- The name of an entry as `strlen` and `strcpy` see it. -/
def entryName (fs : FileSys) (check : Nat) : List UInt8 := fs.img.cstr (fs.info.dirEntries check) (2 ^ 32)

def entryType (fs : FileSys) (check : Nat) : UInt8 := fs.img (fs.info.dirEntries check + fnameLength)

def entryInode (fs : FileSys) (check : Nat) : Nat :=
  fs.img.load32 (fs.info.dirEntries check + fnameLength + fsFieldSize)

/-- The address of an inode, in 32 bits: the number is not checked. -/
def inodePtr (fs : FileSys) (inode : Nat) : Nat := (fs.info.filesysPtr + kb4 * (inode + 1)) % 2 ^ 32

def fileLength (fs : FileSys) (inode : Nat) : Nat := fs.img.load32 (fs.inodePtr inode)

def dblockNumber (fs : FileSys) (inode check : Nat) : Nat := fs.img.load32 (fs.inodePtr inode + 4 + 4 * check)

/-- Where a data block of a file starts, in 32 bits. -/
def blockPtr (fs : FileSys) (inode check : Nat) : Nat :=
  (fs.info.dataBlocks + kb4 * fs.dblockNumber inode check) % 2 ^ 32

end FileSys

structure Dentry where
  name : List UInt8
  type : UInt8
  inode : Nat

/-- The test of one entry in `read_dentry_by_name`. Both lengths are kept in a `uint8_t`. -/
def nameMatches (fs : FileSys) (fname : List UInt8) (check : Nat) : Bool :=
  (fs.entryName check).length % 256 = fname.length % 256 &&
    strncmp (str fname) (fun i => fs.img (fs.info.dirEntries check + i)) (fname.length % 256) = 0

/-- The `n` entries from `check` on. An index behind the table and a name longer than the 33 bytes of
`dentry->name` are overruns. -/
def lookupFrom (fs : FileSys) (fname : List UInt8) : Nat → Nat → Except Fault (Option Dentry)
  | 0, _ => .ok none
  | n + 1, check =>
      if check ≥ maxDentries then .error .overrun
      else if nameMatches fs fname check then
        if fname.length > fnameLength then .error .overrun
        else .ok (some ⟨fname, fs.entryType check, fs.entryInode check⟩)
      else lookupFrom fs fname n (check + 1)

/-- `none` is the return value -1. -/
def readDentryByName (fs : FileSys) (fname : List UInt8) : Except Fault (Option Dentry) :=
  lookupFrom fs fname fs.info.numDirEntries 0

def readDentryByIndex (fs : FileSys) (index : Nat) : Except Fault (Option Dentry) :=
  if index ≥ fs.info.numDirEntries then .ok none
  else if index ≥ maxDentries ∨ (fs.entryName index).length > fnameLength then .error .overrun
  else .ok (some ⟨fs.entryName index, fs.entryType index, fs.entryInode index⟩)

def asInt32 (n : Nat) : Int := if n < 2 ^ 31 then n else n - 2 ^ 32

/-- `while (offset > KB4)`, with the number of turns bounded by the first argument. -/
def skipBlocks : Nat → Nat → Nat → Int → Nat × Nat × Int
  | 0, offset, check, blockCt => (offset, check, blockCt)
  | n + 1, offset, check, blockCt =>
      if offset > kb4 then skipBlocks n (offset - kb4) (check + 1) (blockCt - 1)
      else (offset, check, blockCt)

/-- `while (read_bytes > 0)`: the bytes it stores from the start of the buffer. The first argument is
`block_ct`, or 0 when that is negative. -/
def copyBlocks (fs : FileSys) (inode : Nat) : Nat → Nat → Nat → Nat → List UInt8
  | 0, check, offset, readBytes =>
      if readBytes > 0 then fs.img.readBytes (fs.blockPtr inode check + offset) readBytes else []
  | n + 1, check, offset, readBytes =>
      if readBytes > 0 then
        fs.img.readBytes (fs.blockPtr inode check + offset) (kb4 - offset) ++
          copyBlocks fs inode n (check + 1) 0 ((readBytes + 2 ^ 32 - (kb4 - offset)) % 2 ^ 32)
      else []

/-- The return value and the bytes stored from the start of the buffer. -/
def readData (fs : FileSys) (inode offset length : Nat) : Int × List UInt8 :=
  let fileLength := fs.fileLength inode
  let lengthCheck := (fileLength + 2 ^ 32 - offset) % 2 ^ 32
  if fileLength > kb4 * maxDblocksPerFile then (-1, [])
  else
    let adjustedLength := if (offset + length) % 2 ^ 32 > fileLength then lengthCheck else length
    let sizeTotal := (offset + adjustedLength) % 2 ^ 32
    if lengthCheck = 0 then (0, [])
    else
      let (offset, check, blockCt) := skipBlocks offset offset 0 (sizeTotal / kb4 : Nat)
      (asInt32 adjustedLength, copyBlocks fs inode blockCt.toNat check offset adjustedLength)

/-- `none` is the NULL pointer. The count is read through a `boot_block_t` laid over the image, whose
`num_inodes` stands behind a pointer and a count. -/
def inodeAddress (fs : FileSys) (inode : Nat) : Option Nat :=
  let startAddress := fs.info.filesysPtr
  if inode ≥ fs.img.load32 (startAddress + 8) then none
  else some ((startAddress + kb4 + inode * kb4) % 2 ^ 32)

/-- A directory of the format: at most 63 entries, names of at most 31 bytes, and the three types. -/
structure DirectoryOk (fs : FileSys) : Prop where
  count : fs.info.numDirEntries ≤ maxDentries
  names : ∀ i < fs.info.numDirEntries, (fs.entryName i).length < fnameLength
  types : ∀ i < fs.info.numDirEntries, fs.entryType i ∈ [0, 1, 2]

/-- The part of this that looking up a name relies on. -/
structure EntriesOk (fs : FileSys) : Prop where
  count : fs.info.numDirEntries ≤ maxDentries
  names : ∀ i < fs.info.numDirEntries, (fs.entryName i).length < fnameLength

theorem DirectoryOk.entries {fs : FileSys} (h : DirectoryOk fs) : EntriesOk fs := ⟨h.count, h.names⟩

def findEntry (fs : FileSys) (fname : List UInt8) : Option Nat :=
  (List.range fs.info.numDirEntries).find? fun i => fs.entryName i = fname

/-- A name that is accepted for an entry because its length is truncated to eight bits. -/
def Aliased (fs : FileSys) (fname : List UInt8) : Prop :=
  256 ≤ fname.length ∧ ∃ i < fs.info.numDirEntries, nameMatches fs fname i = true

theorem entryName_holds {fs : FileSys} (hok : EntriesOk fs) {i : Nat} (hi : i < fs.info.numDirEntries) :
    fs.img.HoldsString (fs.info.dirEntries i) (fs.entryName i) := by
  apply Mem.holdsString_cstr
  have := hok.names i hi
  simp only [FileSys.entryName, fnameLength] at this
  omega

/-- The test compares a name with as many of its bytes as the truncated length says. -/
theorem nameMatches_iff {fs : FileSys} (hok : EntriesOk fs) {fname : List UInt8} (hplain : 0 ∉ fname)
    {i : Nat} (hi : i < fs.info.numDirEntries) :
    nameMatches fs fname i = true ↔
      (fs.entryName i).length = fname.length % 256 ∧ fname.take (fname.length % 256) = fs.entryName i := by
  have hholds := entryName_holds hok hi
  have hshort : (fs.entryName i).length % 256 = (fs.entryName i).length := by
    have := hok.names i hi
    simp only [fnameLength] at this
    omega
  simp only [nameMatches, Bool.and_eq_true, decide_eq_true_eq, hshort]
  constructor
  · rintro ⟨hlen, hcmp⟩
    rw [strncmp_congr (str (fs.entryName i)), strncmp_eq_zero_iff hplain hholds.plain, ← hlen,
      List.take_length] at hcmp
    · exact ⟨hlen, hlen ▸ hcmp⟩
    · intro j hj
      rw [hholds.bytes j (by omega), str, List.getD_eq_getElem _ _ (by omega)]
  · rintro ⟨hlen, htake⟩
    refine ⟨hlen, ?_⟩
    rw [strncmp_congr (str (fs.entryName i)), strncmp_eq_zero_iff hplain hholds.plain, htake, ← hlen,
      List.take_length]
    intro j hj
    rw [hholds.bytes j (by omega), str, List.getD_eq_getElem _ _ (by omega)]

theorem nameMatches_of_not_aliased {fs : FileSys} (hok : EntriesOk fs) {fname : List UInt8}
    (hplain : 0 ∉ fname) (halias : ¬ Aliased fs fname) {i : Nat} (hi : i < fs.info.numDirEntries) :
    nameMatches fs fname i = decide (fs.entryName i = fname) := by
  have hname := hok.names i hi
  simp only [fnameLength] at hname
  rw [Bool.eq_iff_iff, decide_eq_true_eq]
  constructor
  · intro hmatch
    have hlt : fname.length < 256 := by
      by_contra hge
      exact halias ⟨by omega, i, hi, hmatch⟩
    obtain ⟨-, htake⟩ := (nameMatches_iff hok hplain hi).mp hmatch
    rw [Nat.mod_eq_of_lt hlt, List.take_length] at htake
    exact htake.symm
  · intro heq
    rw [nameMatches_iff hok hplain hi, heq, Nat.mod_eq_of_lt (by rw [← heq]; omega)]
    exact ⟨rfl, List.take_length⟩

theorem lookupFrom_spec {fs : FileSys} (hok : EntriesOk fs) {fname : List UInt8} (hplain : 0 ∉ fname)
    (halias : ¬ Aliased fs fname) (n check : Nat) (h : check + n ≤ fs.info.numDirEntries) :
    lookupFrom fs fname n check = .ok (((List.range' check n).find? fun i => fs.entryName i = fname).map
      fun i => ⟨fname, fs.entryType i, fs.entryInode i⟩) := by
  induction n generalizing check with
  | zero => rfl
  | succ n ih =>
      have hcount := hok.count
      have hi : check < fs.info.numDirEntries := by omega
      rw [lookupFrom, if_neg (by omega), nameMatches_of_not_aliased hok hplain halias hi,
        List.range'_succ, List.find?_cons]
      by_cases hname : fs.entryName check = fname
      · have hlen := hok.names check hi
        rw [hname] at hlen
        simp only [hname, decide_true, if_true]
        rw [if_neg (by omega)]
        rfl
      · simp only [hname, decide_false, Bool.false_eq_true, if_false]
        exact ih (check + 1) (by omega)

/-- The lookup finds the first entry with the name, for every name that is no alias. -/
theorem readDentryByName_spec {fs : FileSys} (hok : EntriesOk fs) {fname : List UInt8}
    (hplain : 0 ∉ fname) (halias : ¬ Aliased fs fname) :
    readDentryByName fs fname = .ok ((findEntry fs fname).map
      fun i => ⟨fname, fs.entryType i, fs.entryInode i⟩) := by
  rw [readDentryByName, lookupFrom_spec hok hplain halias _ 0 (by omega), findEntry, List.range_eq_range']

/-- An alias overruns the entry it is copied to. -/
theorem readDentryByName_aliased {fs : FileSys} (hok : EntriesOk fs) {fname : List UInt8}
    (halias : Aliased fs fname) : readDentryByName fs fname = .error .overrun := by
  obtain ⟨hlong, i, hi, hmatch⟩ := halias
  have hcount := hok.count
  have hloop : ∀ n check, check ≤ i → i < check + n → check + n ≤ fs.info.numDirEntries →
      lookupFrom fs fname n check = .error .overrun := by
    intro n
    induction n with
    | zero => intro check _ _ _; omega
    | succ n ih =>
        intro check hle hlt hend
        rw [lookupFrom, if_neg (by omega)]
        by_cases hhere : nameMatches fs fname check = true
        · rw [if_pos hhere, if_pos (by simp only [fnameLength]; omega)]
        · rw [if_neg hhere]
          have hne : check ≠ i := fun heq => hhere (heq ▸ hmatch)
          exact ih (check + 1) (by omega) (by omega) (by omega)
  exact hloop _ 0 (Nat.zero_le i) (by omega) (by omega)

def fileByte (fs : FileSys) (inode pos : Nat) : UInt8 := fs.img (fs.blockPtr inode (pos / kb4) + pos % kb4)

def fileSlice (fs : FileSys) (inode pos n : Nat) : List UInt8 :=
  (List.range n).map fun i => fileByte fs inode (pos + i)

@[simp] theorem length_fileSlice (fs : FileSys) (inode pos n : Nat) :
    (fileSlice fs inode pos n).length = n := by
  simp [fileSlice]

theorem fileSlice_append (fs : FileSys) (inode pos m n : Nat) :
    fileSlice fs inode pos m ++ fileSlice fs inode (pos + m) n = fileSlice fs inode pos (m + n) := by
  simp only [fileSlice, List.range_add, List.map_append, List.map_map]
  congr 2
  funext i
  simp [Nat.add_assoc]

theorem readBytes_block (fs : FileSys) (inode check offset n : Nat) (h : offset + n ≤ kb4) :
    fs.img.readBytes (fs.blockPtr inode check + offset) n =
      fileSlice fs inode (kb4 * check + offset) n := by
  simp only [Mem.readBytes, fileSlice]
  apply List.map_congr_left
  intro i hi
  have hi := List.mem_range.mp hi
  have hdiv : (kb4 * check + offset + i) / kb4 = check := by
    simp only [kb4] at *
    omega
  have hmod : (kb4 * check + offset + i) % kb4 = offset + i := by
    simp only [kb4] at *
    omega
  rw [fileByte, hdiv, hmod, Nat.add_assoc]

/-- The loop stops with the offset in `1 .. 4096`, or at 0, of the block it counts to. -/
theorem skipBlocks_spec (n offset check : Nat) (blockCt : Int) (h : offset ≤ kb4 * (n + 1)) :
    skipBlocks n offset check blockCt =
      (offset - kb4 * ((offset - 1) / kb4), check + (offset - 1) / kb4,
        blockCt - ((offset - 1) / kb4 : Nat)) := by
  induction n generalizing offset check blockCt with
  | zero =>
      have hzero : (offset - 1) / kb4 = 0 := by
        simp only [kb4] at *
        omega
      simp [skipBlocks, hzero]
  | succ n ih =>
      rw [skipBlocks]
      by_cases hbig : offset > kb4
      · have hq : (offset - 1) / kb4 = (offset - kb4 - 1) / kb4 + 1 := by
          simp only [kb4] at *
          omega
        rw [if_pos hbig, ih _ _ _ (by simp only [kb4] at *; omega), hq]
        refine Prod.ext ?_ (Prod.ext ?_ ?_)
        · simp only [kb4]
          omega
        · simp only
          omega
        · simp only
          push_cast
          omega
      · have hzero : (offset - 1) / kb4 = 0 := by
          simp only [kb4] at *
          omega
        simp [if_neg hbig, hzero]

/-- From an offset within a block, possibly its end, the copy is a slice of the file. -/
theorem copyBlocks_spec (fs : FileSys) (inode n check offset readBytes : Nat) (hoff : offset ≤ kb4)
    (hsmall : kb4 * check + offset + readBytes < 2 ^ 32)
    (hct : (kb4 * check + offset + readBytes) / kb4 = check + n) :
    copyBlocks fs inode n check offset readBytes =
      fileSlice fs inode (kb4 * check + offset) readBytes := by
  induction n generalizing check offset readBytes with
  | zero =>
      rw [copyBlocks]
      split_ifs with hpos
      · exact readBytes_block fs inode check offset readBytes (by simp only [kb4] at *; omega)
      · rw [show readBytes = 0 by omega]
        rfl
  | succ n ih =>
      rw [copyBlocks]
      split_ifs with hpos
      · have hge : kb4 - offset ≤ readBytes := by
          simp only [kb4] at *
          omega
        have hrest : (readBytes + 2 ^ 32 - (kb4 - offset)) % 2 ^ 32 = readBytes - (kb4 - offset) := by
          omega
        have hnext : kb4 * (check + 1) + 0 = kb4 * check + offset + (kb4 - offset) := by
          simp only [kb4] at *
          omega
        rw [hrest, readBytes_block fs inode check offset _ (by omega),
          ih (check + 1) 0 _ (Nat.zero_le _) (by omega), hnext, fileSlice_append,
          Nat.add_sub_cancel' hge]
        rw [hnext, show kb4 * check + offset + (kb4 - offset) + (readBytes - (kb4 - offset)) =
          kb4 * check + offset + readBytes by omega, hct]
        omega
      · rw [show readBytes = 0 by omega]
        rfl

/-- A read at a position of a file returns what is asked for, up to the end of the file. -/
theorem readData_spec (fs : FileSys) {inode pos n : Nat}
    (hsize : fs.fileLength inode ≤ kb4 * maxDblocksPerFile) (hpos : pos ≤ fs.fileLength inode)
    (hn : pos + n < 2 ^ 32) :
    readData fs inode pos n = (((min n (fs.fileLength inode - pos) : Nat) : Int),
      fileSlice fs inode pos (min n (fs.fileLength inode - pos))) := by
  have hlen : fs.fileLength inode < 2 ^ 22 := by
    simp only [kb4, maxDblocksPerFile] at hsize
    omega
  have hcheck : (fs.fileLength inode + 2 ^ 32 - pos) % 2 ^ 32 = fs.fileLength inode - pos := by omega
  simp only [readData, hcheck]
  rw [if_neg (by omega)]
  by_cases hend : fs.fileLength inode - pos = 0
  · rw [if_pos hend, hend, Nat.min_zero]
    rfl
  · rw [if_neg hend]
    have hadj : (if (pos + n) % 2 ^ 32 > fs.fileLength inode then fs.fileLength inode - pos else n) =
        min n (fs.fileLength inode - pos) := by
      rw [Nat.mod_eq_of_lt (by omega)]
      split_ifs <;> omega
    rw [hadj]
    have hmin : min n (fs.fileLength inode - pos) ≤ fs.fileLength inode - pos := Nat.min_le_right _ _
    generalize min n (fs.fileLength inode - pos) = m at hmin
    rw [Nat.mod_eq_of_lt (show pos + m < 2 ^ 32 by omega),
      skipBlocks_spec pos pos 0 _ (by simp only [kb4]; omega)]
    have hret : asInt32 m = (m : Int) := by rw [asInt32, if_pos (by omega)]
    have hblocks : (((pos + m) / kb4 : Nat) - ((pos - 1) / kb4 : Nat) : Int).toNat =
        (pos + m) / kb4 - (pos - 1) / kb4 := by omega
    have hat : kb4 * ((pos - 1) / kb4) + (pos - kb4 * ((pos - 1) / kb4)) = pos := by
      simp only [kb4]
      omega
    have hcopy := copyBlocks_spec fs inode ((pos + m) / kb4 - (pos - 1) / kb4) ((pos - 1) / kb4)
      (pos - kb4 * ((pos - 1) / kb4)) m (by simp only [kb4]; omega) (by omega)
      (by rw [hat]; simp only [kb4]; omega)
    rw [hat] at hcopy
    simp only [Nat.zero_add]
    rw [hret, hblocks, hcopy]

/-- An image with one file, an executable named `shell`. -/
def sampleFs : FileSys where
  start := 0x40D000
  img :=
    let zero : Mem := fun _ => 0
    let boot := ((zero.store32 0x40D000 1).store32 0x40D004 1).store32 0x40D008 1
    let entry := (boot.writeBytes 0x40D040 [0x73, 0x68, 0x65, 0x6C, 0x6C]).writeBytes 0x40D060 [2]
    (entry.store32 0x40E000 28).writeBytes 0x40F000 [0x7F, 0x45, 0x4C, 0x46]

def shellName : List UInt8 := [0x73, 0x68, 0x65, 0x6C, 0x6C]

theorem directoryOk_sampleFs : DirectoryOk sampleFs := by
  have hcount : sampleFs.info.numDirEntries = 1 := by decide
  refine ⟨by rw [hcount]; decide, fun i hi => ?_, fun i hi => ?_⟩
  · rw [hcount] at hi
    obtain rfl : i = 0 := by omega
    decide
  · rw [hcount] at hi
    obtain rfl : i = 0 := by omega
    decide

end UnixOs
