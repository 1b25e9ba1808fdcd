import UnixOs.NewProcess

/-! Step 1 of `execute`: the command is copied, its spaces are recorded and its first word is extracted, each
into an array of its own size, before the checks that would refuse it. -/

namespace UnixOs

variable {fops : FopsTables} {fs : FileSys} {locals : ExecuteLocals} {prog : Program} {k k' : Kernel}
  {command : List UInt8}

/-- The bytes before the first space. -/
def firstWord (command : List UInt8) : List UInt8 := command.takeWhile fun b => b ≠ asciiSpace

def spaceCount (command : List UInt8) : Nat := command.count asciiSpace

theorem charSpaceIndices_cons (b : UInt8) (bs : List UInt8) :
    charSpaceIndices (b :: bs) = (if b = asciiSpace then [0] else []) ++ (charSpaceIndices bs).map (· + 1) := by
  simp only [charSpaceIndices, List.length_cons, List.range_succ_eq_map, List.filter_cons, List.filter_map]
  have hcomp : ((fun i => decide ((b :: bs).getD i 0 = asciiSpace)) ∘ Nat.succ) =
      fun i => decide (bs.getD i 0 = asciiSpace) := by
    funext i
    simp
  rw [hcomp]
  by_cases hspace : b = asciiSpace
  · simp [hspace]
  · simp [hspace]

theorem length_charSpaceIndices (command : List UInt8) :
    (charSpaceIndices command).length = spaceCount command := by
  induction command with
  | nil => rfl
  | cons b bs ih =>
      rw [charSpaceIndices_cons, List.length_append, List.length_map, ih, spaceCount, spaceCount, List.count_cons]
      by_cases hspace : b = asciiSpace
      · simp [hspace, Nat.add_comm]
      · simp [hspace]

/-- `prog_name_len` is the length of the first word. -/
theorem headD_charSpaceIndices (command : List UInt8) :
    (charSpaceIndices command).headD command.length = (firstWord command).length := by
  induction command with
  | nil => rfl
  | cons b bs ih =>
      rw [charSpaceIndices_cons, firstWord, List.takeWhile_cons]
      by_cases hspace : b = asciiSpace
      · simp [hspace]
      · simp only [hspace, if_false, List.nil_append, ne_eq, not_false_eq_true, decide_true, if_true,
          List.length_cons]
        rw [← firstWord, ← ih]
        cases charSpaceIndices bs with
        | nil => rfl
        | cons first spaces => rfl

/-- The name that is looked up is the first word. -/
theorem take_progNameLen (command : List UInt8) :
    command.take ((charSpaceIndices command).headD command.length) = firstWord command := by
  rw [headD_charSpaceIndices]
  exact (List.prefix_iff_eq_take.mp (List.takeWhile_prefix _)).symm

/-- The spaces of a word and what follows it. -/
theorem charSpaceIndices_append {name : List UInt8} (h : asciiSpace ∉ name) (rest : List UInt8) :
    charSpaceIndices (name ++ rest) = (charSpaceIndices rest).map (· + name.length) := by
  induction name with
  | nil => simp
  | cons b bs ih =>
      have hb : b ≠ asciiSpace := fun hb => h (hb ▸ List.mem_cons_self)
      rw [List.cons_append, charSpaceIndices_cons, if_neg hb, ih fun hmem => h (List.mem_cons_of_mem _ hmem),
        List.nil_append, List.map_map]
      apply List.map_congr_left
      intro i _
      simp only [Function.comp_apply, List.length_cons]
      omega

theorem charSpaceIndices_word {name : List UInt8} (h : asciiSpace ∉ name) : charSpaceIndices name = [] := by
  have := charSpaceIndices_append h []
  rwa [List.append_nil] at this

theorem charSpaceIndices_pair {name arg : List UInt8} (hname : asciiSpace ∉ name) (harg : asciiSpace ∉ arg) :
    charSpaceIndices (name ++ asciiSpace :: arg) = [name.length] := by
  rw [charSpaceIndices_append hname, charSpaceIndices_cons, if_pos rfl, charSpaceIndices_word harg]
  simp

/-- The first test finds the empty command only. -/
theorem strncmp_empty_iff (hplain : 0 ∉ command) : strncmp (str command) (str []) 2 = 0 ↔ command = [] := by
  rw [strncmp_eq_zero_iff hplain List.not_mem_nil]
  cases command with
  | nil => simp
  | cons b bs => simp

/-! ### The stores -/

/-- The local arrays that step 1 fills. -/
inductive LocalArray where
  | command
  | charSpaceIndices
  | programName
  deriving DecidableEq

def LocalArray.size : LocalArray → Nat
  | .command => 128
  | .charSpaceIndices => 100
  | .programName => fnameLength + 1

/-- The stores of step 1 by array and index: the copy of the command and its terminator, one store for every
space, and the copy of the first word and its terminator. -/
def parseStores (k : Kernel) (command : List UInt8) : List (LocalArray × Nat) :=
  if k.processCount ≥ maxProcesses then []
  else if strncmp (str command) (str []) 2 = 0 then []
  else
    let numSpaces := (charSpaceIndices command).length
    let progNameLen := (charSpaceIndices command).headD command.length
    (List.range (command.length + 1)).map (LocalArray.command, ·) ++
      (List.range numSpaces).map (LocalArray.charSpaceIndices, ·) ++
      if progNameLen = 0 ∨ numSpaces > 1 then []
      else (List.range (progNameLen + 1)).map (LocalArray.programName, ·)

/-- Every store is inside its array. -/
def StoresInside (stores : List (LocalArray × Nat)) : Prop := ∀ s ∈ stores, s.2 < s.1.size

theorem storesInside_append {xs ys : List (LocalArray × Nat)} :
    StoresInside (xs ++ ys) ↔ StoresInside xs ∧ StoresInside ys := by
  simp only [StoresInside, List.forall_mem_append]

theorem storesInside_range (a : LocalArray) (n : Nat) :
    StoresInside ((List.range n).map (a, ·)) ↔ n ≤ a.size := by
  simp only [StoresInside, List.mem_map, List.mem_range, forall_exists_index, and_imp,
    forall_apply_eq_imp_iff₂]
  constructor
  · intro h
    by_contra hlong
    have := h a.size (by omega)
    omega
  · intro h i hi
    omega

/-- The arrays that are filled are large enough. -/
structure FitsArrays (command : List UInt8) : Prop where
  spaces : spaceCount command ≤ 100
  word : spaceCount command ≤ 1 → (firstWord command).length ≤ fnameLength

theorem storesInside_parseStores_iff (hplain : 0 ∉ command) (hlen : command.length ≤ 127) :
    StoresInside (parseStores k command) ↔
      k.processCount ≥ maxProcesses ∨ command = [] ∨ FitsArrays command := by
  rw [parseStores]
  by_cases hcount : k.processCount ≥ maxProcesses
  · rw [if_pos hcount]
    exact ⟨fun _ => .inl hcount, fun _ s hs => absurd hs List.not_mem_nil⟩
  by_cases hempty : command = []
  · rw [if_neg hcount, if_pos ((strncmp_empty_iff hplain).mpr hempty)]
    exact ⟨fun _ => .inr (.inl hempty), fun _ s hs => absurd hs List.not_mem_nil⟩
  rw [if_neg hcount, if_neg (mt (strncmp_empty_iff hplain).mp hempty)]
  simp only [storesInside_append, storesInside_range, length_charSpaceIndices, headD_charSpaceIndices,
    LocalArray.size]
  constructor
  · rintro ⟨⟨-, hspaces⟩, hword⟩
    refine .inr (.inr ⟨hspaces, fun hone => ?_⟩)
    by_cases hzero : (firstWord command).length = 0
    · omega
    · rw [if_neg (by omega), storesInside_range] at hword
      simp only [LocalArray.size] at hword
      omega
  · rintro (hmax | hnil | hfits)
    · exact absurd hmax hcount
    · exact absurd hnil hempty
    · refine ⟨⟨by omega, hfits.spaces⟩, ?_⟩
      split_ifs with hrefused
      · exact fun s hs => absurd hs List.not_mem_nil
      · rw [storesInside_range]
        exact Nat.succ_le_succ (hfits.word (by omega))

/-! ### The checks -/

theorem firstWord_plain (hplain : 0 ∉ command) : 0 ∉ firstWord command :=
  fun hmem => hplain ((List.takeWhile_prefix _).subset hmem)

/-- The lookup of a first word that fits its array. -/
theorem readDentryByName_firstWord (hok : EntriesOk fs) (hplain : 0 ∉ command)
    (hfit : (firstWord command).length ≤ fnameLength) :
    readDentryByName fs (firstWord command) = .ok ((findEntry fs (firstWord command)).map
      fun i => ⟨firstWord command, fs.entryType i, fs.entryInode i⟩) := by
  apply readDentryByName_spec hok (firstWord_plain hplain)
  rintro ⟨hlong, -⟩
  simp only [fnameLength] at hfit
  omega

/-- What the checks of a command that passed step 1 come to. -/
def checkEntry (fs : FileSys) (k : Kernel) (locals : ExecuteLocals) (command : List UInt8) :
    Option Nat → Except Fault Check
  | none => .ok (.fail [])
  | some i => checkHeader fs k locals (firstWord command) ⟨command, charSpaceIndices command, fs.entryInode i⟩

/-- They go on with the entry that the lookup takes. -/
theorem checkName_lookup (hone : spaceCount command ≤ 1) (hword : firstWord command ≠ [])
    (hfit : (firstWord command).length ≤ fnameLength) (found : Option Nat)
    (hlookup : readDentryByName fs (firstWord command) =
      .ok (found.map fun i => ⟨firstWord command, fs.entryType i, fs.entryInode i⟩)) :
    checkName fs k locals command (charSpaceIndices command) = checkEntry fs k locals command found := by
  have hpos : (firstWord command).length ≠ 0 := fun h => hword (List.length_eq_zero_iff.mp h)
  simp only [checkName, take_progNameLen]
  rw [headD_charSpaceIndices, length_charSpaceIndices, if_neg hpos, if_neg (by omega), if_neg (by omega), hlookup,
    ok_bind]
  cases found with
  | none => simp only [Option.map_none, pure_eq_ok, checkEntry]
  | some i => simp only [Option.map_some, checkEntry]

/-- A lookup that runs behind the table. -/
theorem checkName_overrun_of_lookup (hone : spaceCount command ≤ 1) (hword : firstWord command ≠ [])
    (hfit : (firstWord command).length ≤ fnameLength)
    (hlookup : readDentryByName fs (firstWord command) = .error .overrun) :
    checkName fs k locals command (charSpaceIndices command) = .error .overrun := by
  have hpos : (firstWord command).length ≠ 0 := fun h => hword (List.length_eq_zero_iff.mp h)
  simp only [checkName, take_progNameLen]
  rw [headD_charSpaceIndices, length_charSpaceIndices, if_neg hpos, if_neg (by omega), if_neg (by omega), hlookup]
  rfl

theorem checkName_eq (hok : EntriesOk fs) (hplain : 0 ∉ command) (hone : spaceCount command ≤ 1)
    (hword : firstWord command ≠ []) (hfit : (firstWord command).length ≤ fnameLength) :
    checkName fs k locals command (charSpaceIndices command) =
      checkEntry fs k locals command (findEntry fs (firstWord command)) :=
  checkName_lookup hone hword hfit _ (readDentryByName_firstWord hok hplain hfit)

/-- Reading the header faults at an address that is not mapped only. -/
theorem checkHeader_not_overrun (name : List UInt8) (prog : Program) :
    checkHeader fs k locals name prog ≠ .error .overrun := by
  rw [checkHeader, readStart]
  split_ifs with hmapped
  · rw [ok_bind]
    split_ifs <;> exact fun h => by cases h
  · exact fun h => by cases h

/-- Commands that step 1 refuses without a lookup. -/
theorem checkName_refused (h : firstWord command = [] ∨ 1 < spaceCount command) :
    ∃ text, checkName fs k locals command (charSpaceIndices command) = .ok (.fail text) := by
  simp only [checkName]
  rw [headD_charSpaceIndices, length_charSpaceIndices]
  by_cases hword : (firstWord command).length = 0
  · rw [if_pos hword]
    exact ⟨_, rfl⟩
  · rw [if_neg hword, if_pos (h.resolve_left fun hnil => hword (by rw [hnil]; rfl))]
    exact ⟨_, rfl⟩

theorem checkName_overrun (hone : spaceCount command ≤ 1) (hlong : fnameLength < (firstWord command).length) :
    checkName fs k locals command (charSpaceIndices command) = .error .overrun := by
  simp only [checkName]
  rw [headD_charSpaceIndices, length_charSpaceIndices, if_neg (by omega), if_neg (by omega), if_pos hlong]

theorem checkCommand_full (hcount : k.processCount ≥ maxProcesses) :
    ∃ text, checkCommand fs k locals command = .ok (.fail text) := by
  rw [checkCommand, if_pos hcount]
  exact ⟨_, rfl⟩

theorem checkCommand_nil (fs : FileSys) (k : Kernel) (locals : ExecuteLocals) :
    ∃ text, checkCommand fs k locals [] = .ok (.fail text) := by
  by_cases hcount : k.processCount ≥ maxProcesses
  · exact checkCommand_full hcount
  · rw [checkCommand, if_neg hcount, if_pos ((strncmp_empty_iff List.not_mem_nil).mpr rfl)]
    exact ⟨_, rfl⟩

theorem checkCommand_eq (hcount : k.processCount < maxProcesses) (hplain : 0 ∉ command) (hne : command ≠ [])
    (hlen : command.length ≤ 127) : checkCommand fs k locals command =
      if spaceCount command > 100 then .error .overrun
      else checkName fs k locals command (charSpaceIndices command) := by
  rw [checkCommand, if_neg (by omega), if_neg (mt (strncmp_empty_iff hplain).mp hne), if_neg (by omega),
    length_charSpaceIndices]

/-- The stores outside their array are the overruns of `execute`'s checks. -/
theorem checkCommand_overrun_iff (hok : EntriesOk fs) (hplain : 0 ∉ command) (hlen : command.length ≤ 127) :
    checkCommand fs k locals command = .error .overrun ↔ ¬ StoresInside (parseStores k command) := by
  rw [storesInside_parseStores_iff hplain hlen]
  by_cases hcount : k.processCount ≥ maxProcesses
  · obtain ⟨text, hcheck⟩ : ∃ text, checkCommand fs k locals command = .ok (.fail text) := checkCommand_full hcount
    rw [hcheck]
    exact ⟨fun h => (by cases h), fun h => absurd (.inl hcount) h⟩
  by_cases hempty : command = []
  · obtain ⟨text, hcheck⟩ := checkCommand_nil fs k locals
    rw [hempty, hcheck]
    exact ⟨fun h => (by cases h), fun h => absurd (.inr (.inl rfl)) h⟩
  rw [checkCommand_eq (by omega) hplain hempty hlen]
  by_cases hspaces : spaceCount command > 100
  · rw [if_pos hspaces]
    refine ⟨fun _ h => ?_, fun _ => rfl⟩
    have := (h.resolve_left hcount).resolve_left hempty
    exact absurd this.spaces (by omega)
  rw [if_neg hspaces]
  by_cases hrefused : firstWord command = [] ∨ 1 < spaceCount command
  · obtain ⟨text, hcheck⟩ : ∃ text, checkName fs k locals command (charSpaceIndices command) = .ok (.fail text) :=
      checkName_refused hrefused
    rw [hcheck]
    refine ⟨fun h => (by cases h), fun h => absurd (.inr (.inr ⟨by omega, fun hone => ?_⟩)) h⟩
    rw [hrefused.resolve_right (by omega)]
    exact Nat.zero_le _
  rw [not_or] at hrefused
  rcases Nat.lt_or_ge fnameLength (firstWord command).length with hlong | hfit
  · rw [checkName_overrun (by omega) hlong]
    refine ⟨fun _ h => ?_, fun _ => rfl⟩
    have := ((h.resolve_left hcount).resolve_left hempty).word (by omega)
    omega
  · rw [checkName_eq hok hplain (by omega) hrefused.1 hfit]
    refine ⟨fun h => ?_, fun h => absurd (.inr (.inr ⟨by omega, fun _ => hfit⟩)) h⟩
    cases hfind : findEntry fs (firstWord command) with
    | none =>
        rw [hfind] at h
        cases h
    | some i =>
        rw [hfind] at h
        exact absurd h (checkHeader_not_overrun _ _)

/-- Step 1 stays inside its arrays exactly when they are large enough or it ends before it fills them, and
these are the commands that `execute` checks without an overrun. -/
theorem command_parsing_inside_iff (hok : EntriesOk fs) (locals : ExecuteLocals) (hplain : 0 ∉ command)
    (hlen : command.length ≤ 127) :
    (StoresInside (parseStores k command) ↔
      k.processCount ≥ maxProcesses ∨ command = [] ∨ FitsArrays command) ∧
    (checkCommand fs k locals command ≠ .error .overrun ↔ StoresInside (parseStores k command)) := by
  refine ⟨storesInside_parseStores_iff hplain hlen, ?_⟩
  rw [ne_eq, checkCommand_overrun_iff hok hplain hlen, not_not]

theorem command_parsing_inside_iff_shell :
    (StoresInside (parseStores bootKernel shellName) ↔
      bootKernel.processCount ≥ maxProcesses ∨ shellName = [] ∨ FitsArrays shellName) ∧
    (checkCommand sampleFs bootKernel clearedLocals shellName ≠ .error .overrun ↔
      StoresInside (parseStores bootKernel shellName)) :=
  command_parsing_inside_iff directoryOk_sampleFs.entries clearedLocals (by decide) (by decide)

/-- A command of 127 spaces records 127 of them in an array of 100. -/
theorem spaces_overrun_their_array :
    0 ∉ List.replicate 127 asciiSpace ∧ (List.replicate 127 asciiSpace).length ≤ 127 ∧
      (LocalArray.charSpaceIndices, 100) ∈ parseStores bootKernel (List.replicate 127 asciiSpace) ∧
      ¬ StoresInside (parseStores bootKernel (List.replicate 127 asciiSpace)) := by
  have hmem : (LocalArray.charSpaceIndices, 100) ∈ parseStores bootKernel (List.replicate 127 asciiSpace) := by
    decide +kernel
  refine ⟨by decide +kernel, (List.length_replicate).le, hmem, fun hinside => ?_⟩
  have := hinside _ hmem
  exact absurd this (by decide)

end UnixOs
