import UnixOs.CommandParsing

/-! Which commands `execute` starts. The checks look neither at the type of the entry nor at how many bytes
of the header were read, so stale bytes of `exe_buff` can decide, and the size of the page is not checked. -/

namespace UnixOs

variable {fops : FopsTables} {fs : FileSys} {locals : ExecuteLocals} {prog : Program} {k k' : Kernel}
  {command : List UInt8}

/-- The length of an entry's file. -/
abbrev entryLength (fs : FileSys) (i : Nat) : Nat := fs.fileLength (fs.entryInode i)

/-- An entry that is an executable: a regular file that begins with the four bytes. -/
structure Executable (fs : FileSys) (i : Nat) : Prop where
  regular : fs.entryType i = 2
  long : 4 ≤ entryLength fs i
  magic : fileSlice fs (fs.entryInode i) 0 4 = elfMagic

/-- The entry with the name is an executable. -/
def NamedExecutable (fs : FileSys) (name : List UInt8) : Prop := ∃ i, findEntry fs name = some i ∧ Executable fs i

/-- The commands that should start a process. -/
structure ShouldStart (fs : FileSys) (k : Kernel) (command : List UInt8) : Prop where
  count : k.processCount < maxProcesses
  named : firstWord command ≠ []
  spaces : spaceCount command ≤ 1
  file : NamedExecutable fs (firstWord command)

/-- The result of `execute`: a process is entered, or it returns -1. -/
structure StartsExactly (fs : FileSys) (k : Kernel) (command : List UInt8)
    (result : Except Fault (Kernel × ExecuteEnd)) : Prop where
  starts : ShouldStart fs k command → ∃ k' eip esp, result = .ok (k', .iret eip esp)
  fails : ¬ ShouldStart fs k command → ∃ k', result = .ok (k', .fail)

/-- The entry that the lookup takes for a name. -/
def takenEntry (fs : FileSys) (name : List UInt8) : Option Nat :=
  (List.range fs.info.numDirEntries).find? fun i => nameMatches fs name i

/-- The bytes of a file that `read_data` delivers, completed by stale ones, are those of an executable. -/
def HeaderAccepted (fs : FileSys) (stale : Nat → UInt8) (inode : Nat) : Prop :=
  fs.fileLength inode ≤ kb4 * maxDblocksPerFile ∧
    exeHeader stale (fileSlice fs inode 0 (min 4 (fs.fileLength inode))) = elfMagic

/-- The entries that are judged right for a name: they are in the table, their header can be read, and it is accepted
exactly when the name is that of an executable, which then fits its page and can be read as a whole. -/
structure JudgedRight (fs : FileSys) (userPresent : Bool) (stale : Nat → UInt8) (name : List UInt8) (i : Nat) :
    Prop where
  inTable : i < maxDentries
  readable : readMapped userPresent fs (fs.entryInode i) 4 = true
  starts : NamedExecutable fs name →
    HeaderAccepted fs stale (fs.entryInode i) ∧ entryLength fs i ≤ imageRoom ∧ FileMapped fs (fs.entryInode i)
  refused : ¬ NamedExecutable fs name → ¬ HeaderAccepted fs stale (fs.entryInode i)

/-- The lookup ends inside the table, at an entry that is judged right if it takes one. -/
structure NameJudgedRight (fs : FileSys) (userPresent : Bool) (stale : Nat → UInt8) (name : List UInt8) : Prop where
  missing : takenEntry fs name = none → fs.info.numDirEntries ≤ maxDentries
  taken : ∀ i, takenEntry fs name = some i → JudgedRight fs userPresent stale name i

/-- The commands that are judged right. -/
def CommandJudgedRight (fs : FileSys) (k : Kernel) (stale : Nat → UInt8) (command : List UInt8) : Prop :=
  k.processCount ≥ maxProcesses ∨ command = [] ∨
    (spaceCount command ≤ 100 ∧ (firstWord command ≠ [] → spaceCount command ≤ 1 →
      NameJudgedRight fs k.userPresent stale (firstWord command)))

/-! ### The lookup -/

/-- The search takes the first entry that agrees, unless it runs behind the table before. -/
theorem lookupFrom_taken {name : List UInt8} (hshort : name.length ≤ fnameLength) (n check : Nat) :
    lookupFrom fs name n check =
      match (List.range' check n).find? fun i => nameMatches fs name i with
      | none => if n = 0 ∨ check + n ≤ maxDentries then .ok none else .error .overrun
      | some i => if i < maxDentries then .ok (some ⟨name, fs.entryType i, fs.entryInode i⟩) else .error .overrun := by
  induction n generalizing check with
  | zero => rfl
  | succ n ih =>
      rw [lookupFrom, List.range'_succ, List.find?_cons, ih]
      by_cases hbehind : check ≥ maxDentries
      · rw [if_pos hbehind]
        cases hfind : (check :: List.range' (check + 1) n).find? fun i => nameMatches fs name i with
        | none =>
            rw [List.find?_cons] at hfind
            simp only [hfind]
            rw [if_neg (by omega)]
        | some i =>
            have hi := List.mem_of_find?_eq_some hfind
            rw [← List.range'_succ, List.mem_range'_1] at hi
            rw [List.find?_cons] at hfind
            simp only [hfind]
            rw [if_neg (by omega)]
      · rw [if_neg hbehind]
        by_cases hhere : nameMatches fs name check = true
        · simp only [hhere, if_true]
          rw [if_neg (by omega), if_pos (by omega)]
        · rw [if_neg hhere]
          simp only [hhere]
          have hend : (n = 0 ∨ check + 1 + n ≤ maxDentries) ↔ (n + 1 = 0 ∨ check + (n + 1) ≤ maxDentries) := by omega
          simp only [hend]

theorem takenEntry_none {name : List UInt8} (hshort : name.length ≤ fnameLength) (htaken : takenEntry fs name = none) :
    readDentryByName fs name =
      if fs.info.numDirEntries ≤ maxDentries then .ok none else .error .overrun := by
  rw [takenEntry, List.range_eq_range'] at htaken
  rw [readDentryByName, lookupFrom_taken hshort, htaken]
  simp only [Nat.zero_add, or_iff_right_of_imp fun hzero : fs.info.numDirEntries = 0 => hzero.trans_le (Nat.zero_le _)]

theorem takenEntry_some {name : List UInt8} (hshort : name.length ≤ fnameLength) {i : Nat}
    (htaken : takenEntry fs name = some i) :
    readDentryByName fs name =
      if i < maxDentries then .ok (some ⟨name, fs.entryType i, fs.entryInode i⟩) else .error .overrun := by
  rw [takenEntry, List.range_eq_range'] at htaken
  rw [readDentryByName, lookupFrom_taken hshort, htaken]

theorem nameMatches_self {name : List UInt8} (hplain : 0 ∉ name) (hshort : name.length ≤ fnameLength) {i : Nat}
    (hname : fs.entryName i = name) : nameMatches fs name i = true := by
  simp only [fnameLength] at hshort
  have hholds : fs.img.HoldsString (fs.info.dirEntries i) name := by
    rw [← hname]
    apply Mem.holdsString_cstr
    rw [← FileSys.entryName, hname]
    omega
  rw [nameMatches, hname, Nat.mod_eq_of_lt (by omega), Bool.and_eq_true, decide_eq_true_eq, decide_eq_true_eq]
  refine ⟨rfl, ?_⟩
  rw [strncmp_congr (str name), strncmp_eq_zero_iff hplain hplain]
  intro j hj
  rw [hholds.bytes j hj, str, List.getD_eq_getElem _ _ hj]

theorem not_namedExecutable_of_none {name : List UInt8} (hplain : 0 ∉ name) (hshort : name.length ≤ fnameLength)
    (htaken : takenEntry fs name = none) : ¬ NamedExecutable fs name := by
  rintro ⟨i, hfind, -⟩
  obtain ⟨hi, hname⟩ := findEntry_some hfind
  have hnone := List.find?_eq_none.mp htaken i (List.mem_range.mpr hi)
  exact hnone (nameMatches_self hplain hshort hname)

/-- Four bytes leave nothing stale. -/
theorem exeHeader_full (stale : Nat → UInt8) {bytes : List UInt8} (h : bytes.length = 4) :
    exeHeader stale bytes = bytes := by
  apply List.ext_getElem
  · simp [exeHeader, h]
  · intro i _ hi
    simp only [exeHeader, List.getElem_map, List.getElem_range]
    exact List.getD_eq_getElem _ _ hi

theorem checkHeader_eq (name : List UInt8) (prog : Program)
    (hmapped : readMapped k.userPresent fs prog.inode 4 = true)
    (hsize : fs.fileLength prog.inode ≤ kb4 * maxDblocksPerFile) :
    checkHeader fs k locals name prog =
      if exeHeader locals.exeBuff (fileSlice fs prog.inode 0 (min 4 (fs.fileLength prog.inode))) = elfMagic
      then .ok (.pass prog) else .ok (.fail (ascii "ERROR.  " ++ name ++ ascii " is not an executable file.\n")) := by
  have hread := readData_spec fs hsize (Nat.zero_le _) (show 0 + 4 < 2 ^ 32 by decide)
  rw [Nat.sub_zero] at hread
  rw [checkHeader, readStart, if_pos hmapped, hread, ok_bind]
  simp only
  rw [if_neg (by omega)]
  rfl

theorem checkHeader_accepted (name : List UInt8) (prog : Program)
    (hmapped : readMapped k.userPresent fs prog.inode 4 = true)
    (haccepted : HeaderAccepted fs locals.exeBuff prog.inode) :
    checkHeader fs k locals name prog = .ok (.pass prog) := by
  rw [checkHeader_eq name prog hmapped haccepted.1, if_pos haccepted.2]

theorem checkHeader_refused (name : List UInt8) (prog : Program)
    (hmapped : readMapped k.userPresent fs prog.inode 4 = true)
    (hrefused : ¬ HeaderAccepted fs locals.exeBuff prog.inode) :
    ∃ text, checkHeader fs k locals name prog = .ok (.fail text) := by
  by_cases hsize : fs.fileLength prog.inode ≤ kb4 * maxDblocksPerFile
  · rw [checkHeader_eq name prog hmapped hsize, if_neg fun hmagic => hrefused ⟨hsize, hmagic⟩]
    exact ⟨_, rfl⟩
  · have hread : readData fs prog.inode 0 4 = (-1, []) := by
      simp only [readData]
      rw [if_pos (Nat.lt_of_not_le hsize)]
    rw [checkHeader, readStart, if_pos hmapped, hread, ok_bind]
    exact ⟨_, rfl⟩

theorem checkHeader_unmapped (name : List UInt8) (prog : Program)
    (hmapped : ¬ readMapped k.userPresent fs prog.inode 4 = true) :
    checkHeader fs k locals name prog = .error .pageFault := by
  rw [checkHeader, readStart, if_neg hmapped]
  rfl

/-! ### The result -/

theorem execute_fail {text : List UInt8} (h : checkCommand fs k locals command = .ok (.fail text)) :
    ∃ k', execute fops fs locals k command = .ok (k', .fail) := by
  rw [execute, h, ok_bind]
  exact ⟨_, rfl⟩

theorem execute_error {e : Fault} (h : checkCommand fs k locals command = .error e) :
    execute fops fs locals k command = .error e := by
  rw [execute, h]
  rfl

theorem startsExactly_of_fail (hnot : ¬ ShouldStart fs k command) {text : List UInt8}
    (h : checkCommand fs k locals command = .ok (.fail text)) :
    StartsExactly fs k command (execute fops fs locals k command) :=
  ⟨fun hs => absurd hs hnot, fun _ => execute_fail h⟩

/-- A call that faulted is neither of the two. -/
theorem not_startsExactly_of_error {e : Fault} (h : checkCommand fs k locals command = .error e) :
    ¬ StartsExactly fs k command (execute fops fs locals k command) := by
  rintro ⟨hstarts, hfails⟩
  rw [execute_error h] at hstarts hfails
  by_cases hshould : ShouldStart fs k command
  · obtain ⟨k', eip, esp, hresult⟩ := hstarts hshould
    cases hresult
  · obtain ⟨k', hresult⟩ := hfails hshould
    cases hresult

theorem startsExactly_of_pass_iff (hs : Startable k) (h : checkCommand fs k locals command = .ok (.pass prog)) :
    StartsExactly fs k command (execute fops fs locals k command) ↔
      ShouldStart fs k command ∧ fs.fileLength prog.inode ≤ imageRoom ∧ FileMapped fs prog.inode := by
  by_cases hload : fs.fileLength prog.inode ≤ imageRoom ∧ FileMapped fs prog.inode
  · constructor
    · intro hexact
      by_contra hnot
      obtain ⟨k', hfail⟩ := hexact.fails fun hshould => hnot ⟨hshould, hload⟩
      rw [execute_starts hs h hload.1 hload.2] at hfail
      cases (Prod.mk.inj (Except.ok.inj hfail)).2
    · exact fun hboth =>
        ⟨fun _ => ⟨_, _, _, execute_starts hs h hload.1 hload.2⟩, fun hnot => absurd hboth.1 hnot⟩
  · have hbad : imageRoom < fs.fileLength prog.inode ∨ ¬ FileMapped fs prog.inode := by
      rcases not_and_or.mp hload with hlong | hunmapped
      · exact .inl (Nat.lt_of_not_le hlong)
      · exact .inr hunmapped
    refine ⟨fun hexact => ?_, fun hboth => absurd hboth.2 hload⟩
    have hexec : execute fops fs locals k command = .error .pageFault := execute_unloadable h hbad
    by_cases hshould : ShouldStart fs k command
    · obtain ⟨k', eip, esp, hresult⟩ := hexact.starts hshould
      rw [hexec] at hresult
      cases hresult
    · obtain ⟨k', hresult⟩ := hexact.fails hshould
      rw [hexec] at hresult
      cases hresult

theorem startsExactly_of_fail_iff {text : List UInt8} (h : checkCommand fs k locals command = .ok (.fail text)) :
    StartsExactly fs k command (execute fops fs locals k command) ↔ ¬ ShouldStart fs k command := by
  refine ⟨fun hexact hshould => ?_, fun hnot => startsExactly_of_fail hnot h⟩
  obtain ⟨k', eip, esp, hstart⟩ := hexact.starts hshould
  obtain ⟨k'', hfail⟩ : ∃ k', execute fops fs locals k command = .ok (k', .fail) := execute_fail h
  rw [hstart] at hfail
  cases (Prod.mk.inj (Except.ok.inj hfail)).2

theorem startsExactly_entry_iff {i : Nat} (hs : Startable k)
    (hshould : ShouldStart fs k command ↔ NamedExecutable fs (firstWord command)) (htable : i < maxDentries)
    (hcheck : checkCommand fs k locals command =
      checkHeader fs k locals (firstWord command) ⟨command, charSpaceIndices command, fs.entryInode i⟩) :
    StartsExactly fs k command (execute fops fs locals k command) ↔
      JudgedRight fs k.userPresent locals.exeBuff (firstWord command) i := by
  generalize hprog : (⟨command, charSpaceIndices command, fs.entryInode i⟩ : Program) = prog at hcheck
  have hinode : fs.entryInode i = prog.inode := by rw [← hprog]
  by_cases hmapped : readMapped k.userPresent fs prog.inode 4 = true
  · by_cases haccepted : HeaderAccepted fs locals.exeBuff prog.inode
    · rw [checkHeader_accepted _ prog hmapped haccepted] at hcheck
      rw [startsExactly_of_pass_iff hs hcheck, hshould]
      constructor
      · rintro ⟨hnamed, hfit, hfile⟩
        rw [← hinode] at hmapped haccepted hfit hfile
        exact ⟨htable, hmapped, fun _ => ⟨haccepted, hfit, hfile⟩, fun hnot => absurd hnamed hnot⟩
      · intro hright
        have hnamed : NamedExecutable fs (firstWord command) := by
          by_contra hnot
          exact hright.refused hnot (by rwa [hinode])
        obtain ⟨-, hfit, hfile⟩ := hright.starts hnamed
        rw [entryLength, hinode] at hfit
        rw [hinode] at hfile
        exact ⟨hnamed, hfit, hfile⟩
    · obtain ⟨text, hfail⟩ := checkHeader_refused (firstWord command) prog hmapped haccepted
      rw [hfail] at hcheck
      rw [startsExactly_of_fail_iff hcheck, hshould]
      rw [← hinode] at hmapped haccepted
      constructor
      · exact fun hnot => ⟨htable, hmapped, fun hnamed => absurd hnamed hnot, fun _ => haccepted⟩
      · exact fun hright hnamed => haccepted (hright.starts hnamed).1
  · rw [checkHeader_unmapped _ prog hmapped] at hcheck
    refine ⟨fun hexact => absurd hexact (not_startsExactly_of_error hcheck), fun hright => ?_⟩
    have hreadable := hright.readable
    rw [hinode] at hreadable
    exact absurd hreadable hmapped

theorem startsExactly_name_iff (hs : Startable k) (hplain : 0 ∉ command)
    (hword : (firstWord command).length ≤ fnameLength) (hnamed : firstWord command ≠ [])
    (hone : spaceCount command ≤ 1) (hcount : k.processCount < maxProcesses)
    (hcheck : checkCommand fs k locals command = checkName fs k locals command (charSpaceIndices command)) :
    StartsExactly fs k command (execute fops fs locals k command) ↔
      NameJudgedRight fs k.userPresent locals.exeBuff (firstWord command) := by
  have hshould : ShouldStart fs k command ↔ NamedExecutable fs (firstWord command) :=
    ⟨fun h => h.file, fun hfile => ⟨hcount, hnamed, hone, hfile⟩⟩
  have hoverrun : readDentryByName fs (firstWord command) = .error .overrun →
      ¬ StartsExactly fs k command (execute fops fs locals k command) := by
    intro hlookup
    have herror : checkCommand fs k locals command = .error .overrun := by
      rw [hcheck, checkName_overrun_of_lookup hone hnamed hword hlookup]
    exact not_startsExactly_of_error herror
  cases htaken : takenEntry fs (firstWord command) with
  | none =>
      have hlookup := takenEntry_none hword htaken
      have hiff : NameJudgedRight fs k.userPresent locals.exeBuff (firstWord command) ↔
          fs.info.numDirEntries ≤ maxDentries :=
        ⟨fun hright => hright.missing htaken, fun hend => ⟨fun _ => hend, fun i hi => by rw [htaken] at hi; cases hi⟩⟩
      rw [hiff]
      by_cases hend : fs.info.numDirEntries ≤ maxDentries
      · rw [if_pos hend] at hlookup
        have hmissing : checkName fs k locals command (charSpaceIndices command) = .ok (.fail []) :=
          checkName_lookup hone hnamed hword none hlookup
        have hnot := mt hshould.mp (not_namedExecutable_of_none (firstWord_plain hplain) hword htaken)
        exact ⟨fun _ => hend, fun _ => startsExactly_of_fail hnot (hcheck.trans hmissing)⟩
      · rw [if_neg hend] at hlookup
        exact ⟨fun hexact => absurd hexact (hoverrun hlookup), fun h => absurd h hend⟩
  | some i =>
      have hlookup := takenEntry_some hword htaken
      have hiff : NameJudgedRight fs k.userPresent locals.exeBuff (firstWord command) ↔
          JudgedRight fs k.userPresent locals.exeBuff (firstWord command) i := by
        refine ⟨fun hright => hright.taken i htaken, fun hright => ⟨fun hnone => ?_, fun j hj => ?_⟩⟩
        · rw [htaken] at hnone
          cases hnone
        · rw [htaken] at hj
          cases hj
          exact hright
      rw [hiff]
      by_cases htable : i < maxDentries
      · rw [if_pos htable] at hlookup
        have hheader : checkName fs k locals command (charSpaceIndices command) =
            checkEntry fs k locals command (some i) := checkName_lookup hone hnamed hword (some i) hlookup
        exact startsExactly_entry_iff hs hshould htable (hcheck.trans hheader)
      · rw [if_neg htable] at hlookup
        exact ⟨fun hexact => absurd hexact (hoverrun hlookup), fun hright => absurd hright.inTable htable⟩

/-- `execute` starts exactly the executable regular files for the commands that are judged right, and only for
these. -/
theorem execute_starts_exactly_iff (hs : Startable k) (hplain : 0 ∉ command) (hlen : command.length ≤ 127)
    (hword : (firstWord command).length ≤ 31) :
    StartsExactly fs k command (execute fops fs locals k command) ↔
      CommandJudgedRight fs k locals.exeBuff command := by
  rw [CommandJudgedRight]
  by_cases hcount : k.processCount ≥ maxProcesses
  · obtain ⟨text, hcheck⟩ : ∃ text, checkCommand fs k locals command = .ok (.fail text) := checkCommand_full hcount
    exact ⟨fun _ => .inl hcount, fun _ => startsExactly_of_fail (fun h => absurd h.count (by omega)) hcheck⟩
  by_cases hempty : command = []
  · subst hempty
    obtain ⟨text, hcheck⟩ := checkCommand_nil fs k locals
    exact ⟨fun _ => .inr (.inl rfl), fun _ => startsExactly_of_fail (fun h => h.named rfl) hcheck⟩
  simp only [hcount, hempty, false_or]
  have hcheck : checkCommand fs k locals command = if spaceCount command > 100 then .error .overrun
      else checkName fs k locals command (charSpaceIndices command) :=
    checkCommand_eq (by omega) hplain hempty hlen
  by_cases hspaces : spaceCount command > 100
  · rw [if_pos hspaces] at hcheck
    exact ⟨fun hexact => absurd hexact (not_startsExactly_of_error hcheck), fun hright => absurd hright.1 (by omega)⟩
  rw [if_neg hspaces] at hcheck
  by_cases hrefused : firstWord command = [] ∨ 1 < spaceCount command
  · obtain ⟨text, hname⟩ : ∃ text, checkName fs k locals command (charSpaceIndices command) = .ok (.fail text) :=
      checkName_refused hrefused
    rw [hname] at hcheck
    have hnot : ¬ ShouldStart fs k command := fun h => by
      rcases hrefused with hnil | hmany
      · exact h.named hnil
      · have := h.spaces
        omega
    refine ⟨fun _ => ⟨by omega, fun hnamed hone => ?_⟩, fun _ => startsExactly_of_fail hnot hcheck⟩
    rcases hrefused with hnil | hmany
    · exact absurd hnil hnamed
    · omega
  obtain ⟨hnamed, hone⟩ := not_or.mp hrefused
  rw [startsExactly_name_iff hs hplain (by simp only [fnameLength]; omega) hnamed (by omega) (by omega) hcheck]
  exact ⟨fun hright => ⟨by omega, fun _ _ => hright⟩, fun hright => hright.2 hnamed (by omega)⟩

theorem execute_starts_exactly_iff_shell :
    StartsExactly sampleFs bootKernel shellName (execute sampleFops sampleFs clearedLocals bootKernel shellName) ↔
      CommandJudgedRight sampleFs bootKernel clearedLocals.exeBuff shellName :=
  execute_starts_exactly_iff startable_bootKernel (by decide) (by decide) (by decide)

/-- An image whose one entry is the directory, with the number of an inode whose data is an executable. -/
def dotFs : FileSys where
  start := sampleFs.start
  img := (sampleFs.img.writeBytes 0x40D040 [0x2E, 0]).writeBytes 0x40D060 [1]

/-- The directory is executed. -/
theorem directory_is_started :
    Startable bootKernel ∧ ¬ ShouldStart dotFs bootKernel [0x2E] ∧
      (∃ k' eip esp, execute sampleFops dotFs clearedLocals bootKernel [0x2E] = .ok (k', .iret eip esp)) ∧
      ¬ StartsExactly dotFs bootKernel [0x2E] (execute sampleFops dotFs clearedLocals bootKernel [0x2E]) := by
  have hcount : dotFs.info.numDirEntries = 1 := by decide
  have hnot : ¬ ShouldStart dotFs bootKernel [0x2E] := by
    rintro ⟨-, -, -, i, hfind, hexe⟩
    have hi := (findEntry_some hfind).1
    rw [hcount] at hi
    obtain rfl : i = 0 := by omega
    exact absurd hexe.regular (by decide)
  obtain ⟨prog, hcheck, hinode⟩ : ∃ prog, checkCommand dotFs bootKernel clearedLocals [0x2E] = .ok (.pass prog) ∧
      prog.inode = 0 := pass_of_inodeOf (by decide +kernel)
  have hfit : dotFs.fileLength prog.inode ≤ imageRoom := by
    rw [hinode]
    decide
  have hmapped : FileMapped dotFs prog.inode := by
    rw [hinode]
    decide +kernel
  refine ⟨startable_bootKernel, hnot, ⟨_, _, _, execute_starts startable_bootKernel hcheck hfit hmapped⟩, ?_⟩
  rw [startsExactly_of_pass_iff startable_bootKernel hcheck]
  exact fun hboth => hnot hboth.1

end UnixOs
