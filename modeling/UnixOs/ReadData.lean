import UnixOs.FileSystem

/-! `read_data` with its buffer. The loop stores block by block and moves the buffer pointer along; the
bytes together are those of the list model. Beside the memory this records how much was stored and
which entries of `dblock_numbers` were read. -/

namespace UnixOs

/-- The copying loop's pointer and memory, the number of bytes stored, and the indices into
`dblock_numbers` so far, the last one first. -/
structure Copying where
  buffer : Nat
  mem : Mem
  written : Nat
  used : List Nat

/-- `memcpy` of `n` bytes of a data block to the buffer. -/
def Copying.memcpy (fs : FileSys) (inode check offset n : Nat) (c : Copying) : Copying :=
  { c with
    mem := c.mem.writeBytes c.buffer (fs.img.readBytes (fs.blockPtr inode check + offset) n)
    written := c.written + n
    used := check :: c.used }

/-- `while (read_bytes > 0)`. The first argument is `block_ct`, or 0 when that is negative. -/
def copyLoop (fs : FileSys) (inode : Nat) : Nat → Nat → Nat → Nat → Copying → Copying
  | 0, check, offset, readBytes, c =>
      if readBytes > 0 then c.memcpy fs inode check offset readBytes else c
  | n + 1, check, offset, readBytes, c =>
      if readBytes > 0 then
        let c := c.memcpy fs inode check offset (kb4 - offset)
        copyLoop fs inode n (check + 1) 0 ((readBytes + 2 ^ 32 - (kb4 - offset)) % 2 ^ 32)
          { c with buffer := c.buffer + kb4 - offset }
      else c

/-- `read_data` into a buffer of memory: the return value, and what the loop did. -/
def readDataTo (fs : FileSys) (inode offset length buf : Nat) (m : Mem) : Int × Copying :=
  let start : Copying := ⟨buf, m, 0, []⟩
  let fileLength := fs.fileLength inode
  let lengthCheck := (fileLength + 2 ^ 32 - offset) % 2 ^ 32
  if fileLength > kb4 * maxDblocksPerFile then (-1, start)
  else
    let adjustedLength := if (offset + length) % 2 ^ 32 > fileLength then lengthCheck else length
    let sizeTotal := (offset + adjustedLength) % 2 ^ 32
    if lengthCheck = 0 then (0, start)
    else
      let (offset, check, blockCt) := skipBlocks offset offset 0 (sizeTotal / kb4 : Nat)
      (asInt32 adjustedLength, copyLoop fs inode blockCt.toNat check offset adjustedLength start)

/-- The blocks that are copied one behind the other are one run of bytes. -/
theorem copyLoop_eq (fs : FileSys) (inode n check offset readBytes : Nat) (hoff : offset ≤ kb4) (c : Copying) :
    (copyLoop fs inode n check offset readBytes c).mem =
      c.mem.writeBytes c.buffer (copyBlocks fs inode n check offset readBytes) ∧
    (copyLoop fs inode n check offset readBytes c).written =
      c.written + (copyBlocks fs inode n check offset readBytes).length := by
  induction n generalizing check offset readBytes c with
  | zero =>
      rw [copyLoop, copyBlocks]
      split_ifs
      · exact ⟨rfl, by simp [Copying.memcpy]⟩
      · exact ⟨by simp, rfl⟩
  | succ n ih =>
      rw [copyLoop, copyBlocks]
      split_ifs
      · obtain ⟨hmem, hwritten⟩ := ih (check + 1) 0 ((readBytes + 2 ^ 32 - (kb4 - offset)) % 2 ^ 32)
          (Nat.zero_le _)
          { c.memcpy fs inode check offset (kb4 - offset) with buffer := c.buffer + kb4 - offset }
        constructor
        · refine hmem.trans ?_
          simp only [Copying.memcpy]
          rw [← Mem.writeBytes_append, Mem.length_readBytes, ← Nat.add_sub_assoc hoff]
        · refine hwritten.trans ?_
          simp only [Copying.memcpy, List.length_append, Mem.length_readBytes]
          omega
      · exact ⟨by simp, rfl⟩

theorem skipBlocks_le (n offset check : Nat) (blockCt : Int) (h : offset ≤ kb4 * (n + 1)) :
    (skipBlocks n offset check blockCt).1 ≤ kb4 := by
  rw [skipBlocks_spec n offset check blockCt h]
  simp only [kb4]
  omega

/-- `read_data` returns what the list model returns and stores its bytes from the start of the buffer. -/
theorem readDataTo_eq (fs : FileSys) (inode offset length buf : Nat) (m : Mem) :
    (readDataTo fs inode offset length buf m).1 = (readData fs inode offset length).1 ∧
    (readDataTo fs inode offset length buf m).2.mem = m.writeBytes buf (readData fs inode offset length).2 ∧
    (readDataTo fs inode offset length buf m).2.written = (readData fs inode offset length).2.length := by
  simp only [readDataTo, readData]
  by_cases hsize : fs.fileLength inode > kb4 * maxDblocksPerFile
  · rw [if_pos hsize, if_pos hsize]
    exact ⟨rfl, by simp, rfl⟩
  rw [if_neg hsize, if_neg hsize]
  by_cases hend : (fs.fileLength inode + 2 ^ 32 - offset) % 2 ^ 32 = 0
  · rw [if_pos hend, if_pos hend]
    exact ⟨rfl, by simp, rfl⟩
  rw [if_neg hend, if_neg hend]
  generalize (if (offset + length) % 2 ^ 32 > fs.fileLength inode then
    (fs.fileLength inode + 2 ^ 32 - offset) % 2 ^ 32 else length) = adjusted
  have hoff := skipBlocks_le offset offset 0 ((offset + adjusted) % 2 ^ 32 / kb4 : Nat)
    (by simp only [kb4]; omega)
  obtain ⟨hmem, hwritten⟩ := copyLoop_eq fs inode
    (skipBlocks offset offset 0 ((offset + adjusted) % 2 ^ 32 / kb4 : Nat)).2.2.toNat
    (skipBlocks offset offset 0 ((offset + adjusted) % 2 ^ 32 / kb4 : Nat)).2.1 _ adjusted hoff ⟨buf, m, 0, []⟩
  exact ⟨rfl, hmem, hwritten.trans (Nat.zero_add _)⟩

/-! ### The blocks that are read -/

/-- Up to a position that the number of blocks fits, only blocks below that position are read. -/
theorem copyLoop_used (fs : FileSys) (inode n check offset readBytes : Nat) (hoff : offset ≤ kb4)
    (hsmall : kb4 * check + offset + readBytes < 2 ^ 32)
    (hct : (kb4 * check + offset + readBytes) / kb4 = check + n) (c : Copying) :
    ∀ i ∈ (copyLoop fs inode n check offset readBytes c).used,
      i ∈ c.used ∨ kb4 * i < kb4 * check + offset + readBytes := by
  induction n generalizing check offset readBytes c with
  | zero =>
      intro i hi
      rw [copyLoop] at hi
      split_ifs at hi with hpos
      · rcases List.mem_cons.mp hi with rfl | hi
        · exact .inr (by omega)
        · exact .inl hi
      · exact .inl hi
  | succ n ih =>
      intro i hi
      rw [copyLoop] at hi
      split_ifs at hi with hpos
      · have hge : kb4 - offset ≤ readBytes := by
          simp only [kb4] at *
          omega
        have hrest : (readBytes + 2 ^ 32 - (kb4 - offset)) % 2 ^ 32 = readBytes - (kb4 - offset) := by omega
        have hnext : kb4 * (check + 1) + 0 + (readBytes - (kb4 - offset)) = kb4 * check + offset + readBytes := by
          simp only [kb4] at *
          omega
        rw [hrest] at hi
        have hlater := ih (check + 1) 0 (readBytes - (kb4 - offset)) (Nat.zero_le _) (by rw [hnext]; exact hsmall)
          (by rw [hnext, hct]; omega) _ i hi
        rw [hnext] at hlater
        rcases hlater with hold | hlt
        · rcases List.mem_cons.mp hold with rfl | hold
          · exact .inr (by omega)
          · exact .inl hold
        · exact .inr hlt
      · exact .inl hi

/-- In range, the loop starts in the block that holds the byte before the position. -/
theorem readDataTo_in_range (fs : FileSys) {inode pos n : Nat}
    (hsize : fs.fileLength inode ≤ kb4 * maxDblocksPerFile) (hpos : pos < fs.fileLength inode)
    (hn : pos + n < 2 ^ 32) (buf : Nat) (m : Mem) :
    (readDataTo fs inode pos n buf m).2 = copyLoop fs inode
      ((pos + min n (fs.fileLength inode - pos)) / kb4 - (pos - 1) / kb4) ((pos - 1) / kb4)
      (pos - kb4 * ((pos - 1) / kb4)) (min n (fs.fileLength inode - pos)) ⟨buf, m, 0, []⟩ := by
  have hlen : fs.fileLength inode < 2 ^ 22 := by
    simp only [kb4, maxDblocksPerFile] at hsize
    omega
  have hcheck : (fs.fileLength inode + 2 ^ 32 - pos) % 2 ^ 32 = fs.fileLength inode - pos := by omega
  have hadj : (if (pos + n) % 2 ^ 32 > fs.fileLength inode then fs.fileLength inode - pos else n) =
      min n (fs.fileLength inode - pos) := by
    rw [Nat.mod_eq_of_lt hn]
    split_ifs <;> omega
  have htotal : (pos + min n (fs.fileLength inode - pos)) % 2 ^ 32 = pos + min n (fs.fileLength inode - pos) :=
    Nat.mod_eq_of_lt (by omega)
  have hblocks : (((pos + min n (fs.fileLength inode - pos)) / kb4 : Nat) - ((pos - 1) / kb4 : Nat) : Int).toNat =
      (pos + min n (fs.fileLength inode - pos)) / kb4 - (pos - 1) / kb4 := by omega
  simp only [readDataTo, hcheck, hadj, htotal]
  rw [if_neg (by omega), if_neg (by omega), skipBlocks_spec pos pos 0 _ (by simp only [kb4]; omega)]
  simp only [hblocks, Nat.zero_add]

theorem readDataTo_used (fs : FileSys) {inode pos n : Nat}
    (hsize : fs.fileLength inode ≤ kb4 * maxDblocksPerFile) (hpos : pos < fs.fileLength inode)
    (hn : pos + n < 2 ^ 32) (buf : Nat) (m : Mem) :
    ∀ i ∈ (readDataTo fs inode pos n buf m).2.used, kb4 * i < fs.fileLength inode := by
  intro i hi
  have hlen : fs.fileLength inode < 2 ^ 22 := by
    simp only [kb4, maxDblocksPerFile] at hsize
    omega
  have hat : kb4 * ((pos - 1) / kb4) + (pos - kb4 * ((pos - 1) / kb4)) = pos := by
    simp only [kb4]
    omega
  rw [readDataTo_in_range fs hsize hpos hn] at hi
  have hused := copyLoop_used fs inode _ _ _ _ (by simp only [kb4]; omega) (by rw [hat]; omega)
    (by rw [hat]; simp only [kb4]; omega) _ i hi
  rw [hat] at hused
  rcases hused with hnone | hlt
  · exact absurd hnone List.not_mem_nil
  · omega

/-! ### The contract -/

theorem readDataTo_end (fs : FileSys) {inode pos : Nat} (hsize : fs.fileLength inode ≤ kb4 * maxDblocksPerFile)
    (hpos : pos = fs.fileLength inode) (n buf : Nat) (m : Mem) :
    readDataTo fs inode pos n buf m = (0, ⟨buf, m, 0, []⟩) := by
  have hcheck : (fs.fileLength inode + 2 ^ 32 - pos) % 2 ^ 32 = 0 := by omega
  simp only [readDataTo]
  rw [if_neg (Nat.not_lt.mpr hsize), if_pos hcheck]

/-- `read_data` on every request that starts inside the file: it returns the number of bytes up to the
end, stores exactly those bytes of the listed blocks, and reads no entry behind the last block. A file
that is too long is refused. -/
theorem readData_delivers (fs : FileSys) (inode offset length buf : Nat) (m : Mem) :
    (fs.fileLength inode ≤ kb4 * maxDblocksPerFile → offset ≤ fs.fileLength inode → offset + length < 2 ^ 32 →
      (readDataTo fs inode offset length buf m).1 = (min length (fs.fileLength inode - offset) : Nat) ∧
      (∀ j < min length (fs.fileLength inode - offset),
        (readDataTo fs inode offset length buf m).2.mem (buf + j) =
          fs.img ((fs.info.dataBlocks + kb4 * fs.dblockNumber inode ((offset + j) / kb4)) % 2 ^ 32 +
            (offset + j) % kb4)) ∧
      (∀ a, a < buf ∨ buf + min length (fs.fileLength inode - offset) ≤ a →
        (readDataTo fs inode offset length buf m).2.mem a = m a) ∧
      (∀ i ∈ (readDataTo fs inode offset length buf m).2.used, i < maxDblocksPerFile)) ∧
    (fs.fileLength inode > kb4 * maxDblocksPerFile →
      readDataTo fs inode offset length buf m = (-1, ⟨buf, m, 0, []⟩)) := by
  refine ⟨fun hsize hpos hn => ?_, fun hsize => ?_⟩
  · obtain ⟨hret, hmem, -⟩ := readDataTo_eq fs inode offset length buf m
    have hspec := readData_spec fs hsize hpos hn
    rw [hspec] at hret hmem
    simp only at hret hmem
    refine ⟨hret, fun j hj => ?_, fun a ha => ?_, fun i hi => ?_⟩
    · rw [hmem, Mem.writeBytes_add (by rw [length_fileSlice]; exact hj)]
      simp only [fileSlice, List.getElem_map, List.getElem_range]
      rfl
    · rw [hmem]
      exact Mem.writeBytes_of_outside (by rwa [length_fileSlice])
    · rcases Nat.lt_or_eq_of_le hpos with hlt | heq
      · have hused := readDataTo_used fs hsize hlt hn buf m i hi
        simp only [kb4, maxDblocksPerFile] at *
        omega
      · rw [readDataTo_end fs hsize heq] at hi
        exact absurd hi List.not_mem_nil
  · simp only [readDataTo]
    rw [if_pos hsize]

theorem readData_delivers_shell :
    (readDataTo sampleFs 0 1 10 0x8048000 fun _ => 0).1 = 10 ∧
    (readDataTo sampleFs 0 1 10 0x8048000 fun _ => 0).2.mem 0x8048001 = 0x4C := by
  obtain ⟨hret, hbytes, -, -⟩ := (readData_delivers sampleFs 0 1 10 0x8048000 fun _ => 0).1
    (by decide) (by decide) (by decide)
  have hmin : min 10 (sampleFs.fileLength 0 - 1) = 10 := by decide
  rw [hmin] at hret hbytes
  exact ⟨hret, (hbytes 1 (by decide)).trans (by decide)⟩

/-- No byte behind what was asked for or behind the end of the file is stored, the return value counts
the bytes stored, and only blocks of the file are read. -/
structure ReadDataBounded (fs : FileSys) (inode offset length buf : Nat) (m : Mem) : Prop where
  inside : offset < fs.fileLength inode →
    (readDataTo fs inode offset length buf m).2.written ≤ min length (fs.fileLength inode - offset)
  behind : fs.fileLength inode ≤ offset → (readDataTo fs inode offset length buf m).2.written = 0
  count : (readDataTo fs inode offset length buf m).1 % 2 ^ 32 = (readDataTo fs inode offset length buf m).2.written
  blocks : ∀ i ∈ (readDataTo fs inode offset length buf m).2.used, kb4 * i < fs.fileLength inode

theorem asInt32_mod {n : Nat} (h : n < 2 ^ 32) : asInt32 n % 2 ^ 32 = n := by
  unfold asInt32
  split_ifs <;> omega

theorem readDataTo_ret (fs : FileSys) {inode offset length : Nat}
    (hsize : fs.fileLength inode ≤ kb4 * maxDblocksPerFile) (hoff : offset < 2 ^ 32) (hlen : length < 2 ^ 32)
    (hne : offset ≠ fs.fileLength inode) (buf : Nat) (m : Mem) :
    (readDataTo fs inode offset length buf m).1 % 2 ^ 32 =
      (if (offset + length) % 2 ^ 32 > fs.fileLength inode then
        (fs.fileLength inode + 2 ^ 32 - offset) % 2 ^ 32 else length : Nat) := by
  have hfile : fs.fileLength inode < 2 ^ 22 := by
    simp only [kb4, maxDblocksPerFile] at hsize
    omega
  simp only [readDataTo]
  rw [if_neg (by omega), if_neg (by omega)]
  apply asInt32_mod
  split_ifs
  · exact Nat.mod_lt _ (by decide)
  · exact hlen

/-- On all 32-bit arguments, `read_data` stays in bounds exactly if it starts at the end of the file, or
before it with an end that does not wrap around. -/
theorem readData_bounded_iff (fs : FileSys) {inode offset length : Nat}
    (hsize : fs.fileLength inode ≤ kb4 * maxDblocksPerFile) (hoff : offset < 2 ^ 32) (hlen : length < 2 ^ 32)
    (buf : Nat) (m : Mem) :
    ReadDataBounded fs inode offset length buf m ↔
      offset = fs.fileLength inode ∨ (offset < fs.fileLength inode ∧ offset + length < 2 ^ 32) := by
  have hfile : fs.fileLength inode < 2 ^ 22 := by
    simp only [kb4, maxDblocksPerFile] at hsize
    omega
  constructor
  · intro h
    by_contra hout
    have hret := readDataTo_ret fs hsize hoff hlen (fun heq => hout (.inl heq)) buf m
    rw [h.count] at hret
    by_cases hlt : offset < fs.fileLength inode
    · -- the end wraps, so the length is not trimmed
      have hinside := h.inside hlt
      rw [if_neg (by omega)] at hret
      omega
    · have hnone := h.behind (by omega)
      rw [hnone] at hret
      split_ifs at hret
      · omega
      · omega
  · rintro (heq | ⟨hlt, hend⟩)
    · have hstop := readDataTo_end fs hsize heq length buf m
      exact ⟨fun h => absurd h (by omega), fun _ => by rw [hstop], by rw [hstop]; rfl,
        fun i hi => by rw [hstop] at hi; exact absurd hi List.not_mem_nil⟩
    · obtain ⟨hret, -, hwritten⟩ := readDataTo_eq fs inode offset length buf m
      rw [readData_spec fs hsize hlt.le hend] at hret hwritten
      simp only [length_fileSlice] at hret hwritten
      refine ⟨fun _ => hwritten.le, fun h => by omega, ?_, readDataTo_used fs hsize hlt hend buf m⟩
      rw [hret, hwritten]
      omega

theorem readData_bounded_iff_shell : ReadDataBounded sampleFs 0 4 10 0x8048000 fun _ => 0 :=
  (readData_bounded_iff sampleFs (by decide) (by decide) (by decide) _ _).mpr (.inr ⟨by decide, by decide⟩)

/-- One byte from a position behind the end of the file: the rest of the file is the negative number -1,
which is no `length_check <= 0` as an unsigned value, and 4 GB less one byte are copied. -/
theorem readData_past_end :
    ¬ ∀ (fs : FileSys) (inode offset length buf : Nat) (m : Mem),
      fs.fileLength inode ≤ kb4 * maxDblocksPerFile → offset < 2 ^ 32 → length < 2 ^ 32 →
      ReadDataBounded fs inode offset length buf m := by
  intro h
  have hbounded := h sampleFs 0 29 1 0x8048000 (fun _ => 0) (by decide) (by decide) (by decide)
  have hret : (readDataTo sampleFs 0 29 1 0x8048000 fun _ => 0).1 = -1 := by decide
  have hcount := hbounded.count
  rw [hbounded.behind (by decide), hret] at hcount
  exact absurd hcount (by decide)

end UnixOs
