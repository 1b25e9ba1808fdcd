import UnixOs.UserPointers
import UnixOs.CommandParsing

/-! The argument of a command: `args_initialize` stores it in the control block with its length, and `getargs`
copies it to the user's buffer. It copies as many bytes as the caller has room for, not as many as the argument
has, so bytes behind the argument are copied as well. -/

namespace UnixOs

variable {fops : FopsTables} {fs : FileSys} {locals : ExecuteLocals} {k k' : Kernel} {buf n : Nat}

/-- `argument_length` of the running process. -/
def argumentLength (k : Kernel) : Nat := k.mem.load32 (argumentLengthAddr k.currentPblock)

/-- The kernel with another memory. -/
def withMem (k : Kernel) (m : Mem) : Kernel := { k with mem := m }

theorem mem_withMem (k : Kernel) (m : Mem) : (withMem k m).mem = m := rfl

theorem processCount_withMem (k : Kernel) (m : Mem) : (withMem k m).processCount = k.processCount := rfl

theorem currentPblock_withMem (k : Kernel) (m : Mem) : (withMem k m).currentPblock = k.currentPblock := rfl

theorem userPhys_withMem (k : Kernel) (m : Mem) (a : Nat) : (withMem k m).userPhys a = k.userPhys a := rfl

theorem Running.withMem (h : Running k) (m : Mem) : Running (withMem k m) := ⟨h.one, h.max, h.frame⟩

theorem toNat_emod_of_lt (hn : n < 2 ^ 31) : ((n : Int) % 2 ^ 32).toNat = n := by omega

theorem getargs_refused (hn : n < 2 ^ 31) (h : buf = 0 ∨ argumentLength k ≤ 1 ∨ n < argumentLength k) :
    getargs k buf n = .ok (k, -1) := by
  have hplan : getargsPlan k buf n = .ok (emptyPlan k (-1)) := by
    rw [getargsPlan, toNat_emod_of_lt hn]
    rw [argumentLength] at h
    split_ifs with hnull hnone hroom
    · rfl
    · rfl
    · rfl
    · omega
  rw [getargs, hplan, ok_bind, run_emptyPlan]

/-- Without an argument it does not matter what `nbytes` is. -/
theorem getargs_none (h : argumentLength k ≤ 1) (buf : Nat) (n : Int) : getargs k buf n = .ok (k, -1) := by
  have hplan : getargsPlan k buf n = .ok (emptyPlan k (-1)) := by
    rw [argumentLength] at h
    rw [getargsPlan]
    by_cases hnull : buf = 0
    · rw [if_pos hnull, pure_eq_ok]
    · rw [if_neg hnull, if_pos h, pure_eq_ok]
  rw [getargs, hplan, ok_bind, run_emptyPlan]

theorem getargs_eq (hn : n < 2 ^ 31) (hnull : buf ≠ 0) (hone : 1 < argumentLength k) (hroom : argumentLength k ≤ n) :
    getargs k buf n = k.fetch (argumentBufferAddr k.currentPblock) n >>= fun bytes =>
      k.store buf bytes >>= fun k' => .ok (k', 0) := by
  rw [argumentLength] at hone hroom
  rw [getargs, getargsPlan, toNat_emod_of_lt hn, if_neg hnull, if_neg (by omega), if_neg (by omega)]
  cases k.fetch (argumentBufferAddr k.currentPblock) n with
  | error e => rfl
  | ok bytes => rfl

theorem RangeInPage.bounds (h : RangeInPage buf n) (hpos : 0 < n) :
    addr128MB ≤ buf ∧ buf + n ≤ addr128MB + addr4MB := by
  have hfirst := (h 0 hpos).1
  have hlast := (h (n - 1) (by omega)).2
  omega

theorem fetch_user (hrun : Running k) (hbuf : RangeInPage buf n) :
    k.fetch buf n = .ok (k.mem.readBytes (k.userPhys buf) n) := by
  rw [Kernel.fetch]
  by_cases hzero : n = 0
  · rw [if_pos hzero, hzero]
    rfl
  · obtain ⟨hlow, hhigh⟩ := hbuf.bounds (Nat.pos_of_ne_zero hzero)
    rw [if_neg hzero, areaOf_user hlow hhigh]
    simp only [if_pos hrun.present]

theorem fetch_arguments (hrun : Running k) (n : Nat) :
    k.fetch (argumentBufferAddr k.currentPblock) n =
      if argumentBufferAddr k.currentPblock + n ≤ addr8MB
      then .ok (k.mem.readBytes (argumentBufferAddr k.currentPblock) n) else .error .pageFault := by
  obtain ⟨hlow, hhigh, -⟩ := hrun.pcb_range
  have hstart : addr4MB ≤ argumentBufferAddr k.currentPblock ∧ argumentBufferAddr k.currentPblock ≤ addr8MB := by
    simp only [argumentBufferAddr, addr8KB] at *
    omega
  generalize argumentBufferAddr k.currentPblock = a at hstart
  rw [Kernel.fetch]
  by_cases hzero : n = 0
  · subst hzero
    rw [if_pos rfl, Nat.add_zero, if_pos hstart.2]
    rfl
  rw [if_neg hzero]
  by_cases hend : a + n ≤ addr8MB
  · rw [if_pos hend, areaOf_kernel hstart.1 hend]
  · have hvideo : ¬ (videoMem ≤ a ∧ a + n ≤ videoEnd) := by
      simp only [videoEnd, addr8MB] at *
      omega
    have huser : ¬ (addr128MB ≤ a ∧ a + n ≤ addr128MB + addr4MB) := by
      simp only [addr128MB, addr8MB] at *
      omega
    rw [if_neg hend, areaOf, if_neg hvideo, if_neg (fun h => hend h.2), if_neg huser]

theorem store_user_fault {bytes : List UInt8} (hlow : addr128MB ≤ buf) (hlong : addr128MB + addr4MB < buf + bytes.length)
    (hpos : bytes.length ≠ 0) : k.store buf bytes = .error .pageFault := by
  have hvideo : ¬ (videoMem ≤ buf ∧ buf + bytes.length ≤ videoEnd) := by
    simp only [videoEnd, addr128MB] at hlow ⊢
    omega
  have hkernel : ¬ (addr4MB ≤ buf ∧ buf + bytes.length ≤ addr8MB) := by
    simp only [addr8MB, addr128MB] at hlow ⊢
    omega
  rw [Kernel.store, if_neg hpos, areaOf, if_neg hvideo, if_neg hkernel, if_neg (by omega)]

theorem getargs_copies (hrun : Running k) (hn : n < 2 ^ 31) (hone : 1 < argumentLength k)
    (hroom : argumentLength k ≤ n) (hsource : argumentBufferAddr k.currentPblock + n ≤ addr8MB)
    (hbuf : RangeInPage buf n) :
    getargs k buf n = .ok (withMem k (k.mem.writeBytes (k.userPhys buf)
      (k.mem.readBytes (argumentBufferAddr k.currentPblock) n)), 0) := by
  obtain ⟨hlow, hhigh⟩ := hbuf.bounds (by omega)
  have hnull : buf ≠ 0 := by
    simp only [addr128MB] at hlow
    omega
  rw [getargs_eq hn hnull hone hroom, fetch_arguments hrun, if_pos hsource, ok_bind,
    store_user k _ hlow (by rw [Mem.length_readBytes]; exact hhigh) hrun.present, ok_bind, withMem]

theorem getargs_source_fault (hrun : Running k) (hn : n < 2 ^ 31) (hnull : buf ≠ 0) (hone : 1 < argumentLength k)
    (hroom : argumentLength k ≤ n) (hsource : ¬ argumentBufferAddr k.currentPblock + n ≤ addr8MB) :
    getargs k buf n = .error .pageFault := by
  rw [getargs_eq hn hnull hone hroom, fetch_arguments hrun, if_neg hsource]
  rfl

theorem getargs_buffer_fault (hrun : Running k) (hn : n < 2 ^ 31) (hone : 1 < argumentLength k)
    (hroom : argumentLength k ≤ n) (hsource : argumentBufferAddr k.currentPblock + n ≤ addr8MB)
    (hlow : addr128MB ≤ buf) (hlong : addr128MB + addr4MB < buf + n) : getargs k buf n = .error .pageFault := by
  have hnull : buf ≠ 0 := by
    simp only [addr128MB] at hlow
    omega
  rw [getargs_eq hn hnull hone hroom, fetch_arguments hrun, if_pos hsource, ok_bind,
    store_user_fault hlow (by rw [Mem.length_readBytes]; exact hlong) (by rw [Mem.length_readBytes]; omega)]
  rfl

/-! ### What the copy discloses -/

/-- A second memory that has the same argument and the same user buffer, and is arbitrary elsewhere. -/
structure AgreesOnArgs (k : Kernel) (buf n : Nat) (m : Mem) : Prop where
  length : argumentLength (withMem k m) = argumentLength k
  args : ∀ i < argumentLength k, m (argumentBufferAddr k.currentPblock + i) =
    k.mem (argumentBufferAddr k.currentPblock + i)
  buffer : ∀ j < n, m (k.userPhys buf + j) = k.mem (k.userPhys buf + j)

/-- Two calls return the same value and leave the same bytes in the buffer. -/
def SameForUser (buf n : Nat) (r r' : Except Fault (Kernel × Int)) : Prop :=
  ∃ k k' ret bytes, r = .ok (k, ret) ∧ r' = .ok (k', ret) ∧ k.fetch buf n = .ok bytes ∧ k'.fetch buf n = .ok bytes

/-- The call cannot tell the two memories apart. -/
def DisclosesArgsOnly (k : Kernel) (buf n : Nat) : Prop :=
  ∀ m, AgreesOnArgs k buf n m → SameForUser buf n (getargs k buf n) (getargs (withMem k m) buf n)

theorem fetch_copied (hrun : Running k) (hbuf : RangeInPage buf n) (bytes : List UInt8) (hlen : bytes.length = n) :
    (withMem k (k.mem.writeBytes (k.userPhys buf) bytes)).fetch buf n = .ok bytes := by
  have hread := Mem.readBytes_writeBytes k.mem (k.userPhys buf) bytes []
  rw [List.append_nil, hlen] at hread
  rw [fetch_user (hrun.withMem _) hbuf, userPhys_withMem, mem_withMem, hread]

theorem AgreesOnArgs.same_refused {m : Mem} (h : AgreesOnArgs k buf n m) (hrun : Running k) (hn : n < 2 ^ 31)
    (hbuf : RangeInPage buf n) (hrefused : buf = 0 ∨ argumentLength k ≤ 1 ∨ n < argumentLength k) :
    SameForUser buf n (getargs k buf n) (getargs (withMem k m) buf n) := by
  refine ⟨k, withMem k m, -1, k.mem.readBytes (k.userPhys buf) n, getargs_refused hn hrefused,
    getargs_refused hn (by rw [h.length]; exact hrefused), fetch_user hrun hbuf, ?_⟩
  rw [fetch_user (hrun.withMem m) hbuf, userPhys_withMem, mem_withMem]
  exact congrArg _ (Mem.readBytes_congr h.buffer)

theorem AgreesOnArgs.same_exact {m : Mem} (h : AgreesOnArgs k buf n m) (hrun : Running k)
    (hbuf : RangeInPage buf n) (hone : 1 < argumentLength k) (hmax : argumentLength k ≤ 128)
    (hexact : n = argumentLength k) :
    SameForUser buf n (getargs k buf n) (getargs (withMem k m) buf n) := by
  obtain ⟨-, hhigh, -⟩ := hrun.pcb_range
  have hn : n < 2 ^ 31 := by omega
  have hsource : argumentBufferAddr k.currentPblock + n ≤ addr8MB := by
    simp only [argumentBufferAddr, addr8KB] at *
    omega
  have hcopy := getargs_copies hrun hn hone hexact.ge hsource hbuf
  have hcopy' := getargs_copies (hrun.withMem m) hn (by rw [h.length]; exact hone) (by rw [h.length]; exact hexact.ge)
    hsource hbuf
  have hbytes : m.readBytes (argumentBufferAddr k.currentPblock) n =
      k.mem.readBytes (argumentBufferAddr k.currentPblock) n :=
    Mem.readBytes_congr fun i hi => h.args i (hexact ▸ hi)
  refine ⟨_, _, 0, _, hcopy, hcopy', fetch_copied hrun hbuf _ (Mem.length_readBytes _ _ _), ?_⟩
  rw [fetch_copied (hrun.withMem m) hbuf _ (Mem.length_readBytes _ _ _), currentPblock_withMem, mem_withMem, hbytes]

/-- Memory with the byte behind the argument changed. -/
def flipBehindArgs (k : Kernel) : Mem :=
  k.mem.writeBytes (argumentBufferAddr k.currentPblock + argumentLength k)
    [k.mem (argumentBufferAddr k.currentPblock + argumentLength k) + 1]

theorem flipBehindArgs_at (k : Kernel) : flipBehindArgs k (argumentBufferAddr k.currentPblock + argumentLength k) =
    k.mem (argumentBufferAddr k.currentPblock + argumentLength k) + 1 := by
  have hone : ∀ (m : Mem) (a : Nat) (v : UInt8), m.writeBytes a [v] a = v := by
    intro m a v
    simp [Mem.writeBytes]
  rw [flipBehindArgs, hone]

theorem agreesOnArgs_flip (hrun : Running k) (hmax : argumentLength k ≤ 128) (buf n : Nat) :
    AgreesOnArgs k buf n (flipBehindArgs k) := by
  obtain ⟨-, hhigh, hframe⟩ := hrun.pcb_range
  refine ⟨?_, fun i hi => Mem.writeBytes_of_outside (.inl (by omega)), fun j hj => ?_⟩
  · rw [argumentLength, mem_withMem, currentPblock_withMem]
    exact Mem.load32_writeBytes_of_outside (.inl (by simp only [argumentLengthAddr, argumentBufferAddr]; omega))
  · apply Mem.writeBytes_of_outside
    right
    simp only [List.length_singleton]
    have hphys : pdeBase k.pdUser ≤ k.userPhys buf := Nat.le_add_right _ _
    simp only [argumentBufferAddr, addr8KB] at *
    omega

theorem uint8_add_one_ne (x : UInt8) : x + 1 ≠ x := by
  intro h
  simp at h

/-- When both calls copy, the user sees the bytes of both sources. -/
theorem AgreesOnArgs.bytes_eq {m : Mem} (h : AgreesOnArgs k buf n m) (hrun : Running k) (hn : n < 2 ^ 31)
    (hbuf : RangeInPage buf n) (hone : 1 < argumentLength k) (hroom : argumentLength k ≤ n)
    (hsource : argumentBufferAddr k.currentPblock + n ≤ addr8MB)
    (hsame : SameForUser buf n (getargs k buf n) (getargs (withMem k m) buf n)) :
    m.readBytes (argumentBufferAddr k.currentPblock) n = k.mem.readBytes (argumentBufferAddr k.currentPblock) n := by
  obtain ⟨k1, k2, ret, bytes, h1, h2, hf1, hf2⟩ := hsame
  have hcopy := getargs_copies hrun hn hone hroom hsource hbuf
  have hcopy' := getargs_copies (hrun.withMem m) hn (by rw [h.length]; exact hone) (by rw [h.length]; exact hroom)
    hsource hbuf
  have hk1 := (Prod.mk.inj (Except.ok.inj (h1.symm.trans hcopy))).1
  have hk2 := (Prod.mk.inj (Except.ok.inj (h2.symm.trans hcopy'))).1
  rw [hk1, fetch_copied hrun hbuf _ (Mem.length_readBytes _ _ _)] at hf1
  rw [hk2, fetch_copied (hrun.withMem m) hbuf _ (Mem.length_readBytes _ _ _), currentPblock_withMem,
    mem_withMem, ← hf1] at hf2
  exact Except.ok.inj hf2

theorem byte_eq_of_readBytes_eq {m m' : Mem} {a i : Nat} (h : m.readBytes a n = m'.readBytes a n) (hi : i < n) :
    m (a + i) = m' (a + i) := by
  rw [← Mem.getElem_readBytes m a n i (by rw [Mem.length_readBytes]; exact hi),
    ← Mem.getElem_readBytes m' a n i (by rw [Mem.length_readBytes]; exact hi)]
  simp only [h]

theorem not_disclosesArgsOnly (hrun : Running k) (hn : n < 2 ^ 31) (hbuf : RangeInPage buf n)
    (hone : 1 < argumentLength k) (hmax : argumentLength k ≤ 128) (hmore : argumentLength k < n) :
    ¬ DisclosesArgsOnly k buf n := by
  intro hsecret
  have hagree := agreesOnArgs_flip hrun hmax buf n
  have hsame := hsecret _ hagree
  by_cases hsource : argumentBufferAddr k.currentPblock + n ≤ addr8MB
  · -- the two copies differ at the byte behind the argument
    have hbytes := hagree.bytes_eq hrun hn hbuf hone hmore.le hsource hsame
    exact uint8_add_one_ne _ ((flipBehindArgs_at k).symm.trans (byte_eq_of_readBytes_eq hbytes hmore))
  · obtain ⟨hlow, -⟩ := hbuf.bounds (by omega)
    have hnull : buf ≠ 0 := by
      simp only [addr128MB] at hlow
      omega
    obtain ⟨k1, k2, ret, bytes, h1, -⟩ := hsame
    rw [getargs_source_fault hrun hn hnull hone hmore.le hsource] at h1
    cases h1

/-- `getargs` discloses only the argument exactly when it copies nothing or no more than the argument. -/
theorem getargs_discloses_args_only_iff (hrun : Running k) (hmax : argumentLength k ≤ 128) (hn : n < 2 ^ 31)
    (hbuf : RangeInPage buf n) :
    DisclosesArgsOnly k buf n ↔ argumentLength k ≤ 1 ∨ n ≤ argumentLength k := by
  constructor
  · intro hsecret
    by_contra hmore
    rw [not_or] at hmore
    exact not_disclosesArgsOnly hrun hn hbuf (by omega) hmax (by omega) hsecret
  · intro hless m hagree
    by_cases hrefused : argumentLength k ≤ 1 ∨ n < argumentLength k
    · exact hagree.same_refused hrun hn hbuf (.inr hrefused)
    · exact hagree.same_exact hrun hbuf (by omega) hmax (by omega)

/-- Process 3 with the argument `a`. -/
def argumentKernel : Kernel :=
  withMem sampleKernel ((sampleKernel.mem.store32 (argumentLengthAddr (pcbAddr 3)) 2).writeBytes
    (argumentBufferAddr (pcbAddr 3)) [0x61])

theorem running_argumentKernel : Running argumentKernel := running_sampleKernel.withMem _

theorem rangeInPage_sample (n : Nat) (hn : n ≤ 1024) : RangeInPage 0x8050000 n := by
  intro j hj
  simp only [addr128MB, addr4MB]
  omega

theorem getargs_discloses_args_only_iff_two :
    DisclosesArgsOnly argumentKernel 0x8050000 2 ↔ argumentLength argumentKernel ≤ 1 ∨ 2 ≤ argumentLength argumentKernel :=
  getargs_discloses_args_only_iff running_argumentKernel (by decide) (by decide) (rangeInPage_sample 2 (by decide))

/-- With the buffer size that user programs pass, the bytes behind the argument are disclosed. -/
theorem getargs_discloses_more :
    Running argumentKernel ∧ argumentLength argumentKernel = 2 ∧ ¬ DisclosesArgsOnly argumentKernel 0x8050000 1024 := by
  have hlength : argumentLength argumentKernel = 2 := by decide
  refine ⟨running_argumentKernel, hlength, ?_⟩
  exact not_disclosesArgsOnly running_argumentKernel (by decide) (rangeInPage_sample 1024 (by decide))
    (by rw [hlength]; decide) (by rw [hlength]; decide) (by rw [hlength]; decide)

/-! ### From the command to the buffer -/

/-- A command with its first word and its argument, which is empty when there is none. -/
structure Splits (command name arg : List UInt8) : Prop where
  shape : command = name ++ asciiSpace :: arg ∨ (command = name ∧ arg = [])
  short : command.length ≤ 127
  named : name ≠ []
  nameShort : name.length ≤ 31
  nameWord : asciiSpace ∉ name
  argWord : asciiSpace ∉ arg
  plain : 0 ∉ name ∧ 0 ∉ arg

/-- The argument in the control block of the running process. -/
structure HoldsArgument (k : Kernel) (arg : List UInt8) : Prop where
  length : argumentLength k = arg.length + 1
  bytes : k.mem.readBytes (argumentBufferAddr k.currentPblock) (arg.length + 1) = arg ++ [0]
  fits : arg.length + 1 ≤ 128

/-- A later state of the same process. -/
structure KeepsArgument (k k' : Kernel) : Prop where
  count : k'.processCount = k.processCount
  running : Running k'
  argument : ∀ i, 448 ≤ i → i < pcbSize → k'.mem (k.currentPblock + i) = k.mem (k.currentPblock + i)

/-- What `getargs` should do with an argument. -/
structure RoundTrips (k : Kernel) (arg : List UInt8) (buf : Nat) (n : Int) : Prop where
  copied : arg ≠ [] → (arg.length + 1 : Nat) ≤ n →
    ∃ k', getargs k buf n = .ok (k', 0) ∧ k'.fetch buf (arg.length + 1) = .ok (arg ++ [0])
  small : arg ≠ [] → 0 ≤ n → n ≤ arg.length → getargs k buf n = .ok (k, -1)
  none : arg = [] → getargs k buf n = .ok (k, -1)

/-- The copy of `n` bytes stays in the two pages. -/
def CopyInPages (k : Kernel) (buf : Nat) (n : Int) : Prop :=
  argumentBufferAddr k.currentPblock + n ≤ addr8MB ∧ buf + n ≤ (addr128MB + addr4MB : Nat)

theorem Splits.progArgs {command name arg : List UInt8} (h : Splits command name arg) (inode : Nat) :
    progArgs ⟨command, charSpaceIndices command, inode⟩ = arg := by
  rcases h.shape with rfl | ⟨rfl, rfl⟩
  · rw [UnixOs.progArgs, charSpaceIndices_pair h.nameWord h.argWord]
    simp only
    rw [← List.drop_drop, List.drop_left]
    rfl
  · rw [UnixOs.progArgs, charSpaceIndices_word h.nameWord]

theorem Entered.holdsArgument {prog : Program} (h : Entered fops fs locals k prog k') :
    HoldsArgument k' (progArgs prog) := by
  have hlast := h.started _ h.more le_rfl
  exact ⟨hlast.argLength, hlast.argBytes, h.args⟩

theorem HoldsArgument.later {arg : List UInt8} (h : HoldsArgument k arg) (hlater : KeepsArgument k k') :
    HoldsArgument k' arg := by
  have hpcb : k'.currentPblock = k.currentPblock := by
    rw [Kernel.currentPblock, Kernel.currentPblock, hlater.count]
  have hfits := h.fits
  refine ⟨?_, ?_, hfits⟩
  · rw [← h.length, argumentLength, argumentLength, hpcb]
    apply Mem.load32_congr
    intro i hi
    simp only [argumentLengthAddr, Nat.add_assoc]
    exact hlater.argument _ (by omega) (by simp only [pcbSize]; omega)
  · rw [← h.bytes, hpcb]
    apply Mem.readBytes_congr
    intro i hi
    simp only [argumentBufferAddr, Nat.add_assoc]
    exact hlater.argument _ (by omega) (by simp only [pcbSize]; omega)

theorem fetch_copied_start (hrun : Running k) {bs cs : List UInt8} (hbuf : RangeInPage buf bs.length) :
    (withMem k (k.mem.writeBytes (k.userPhys buf) (bs ++ cs))).fetch buf bs.length = .ok bs := by
  rw [fetch_user (hrun.withMem _) hbuf, userPhys_withMem, mem_withMem, Mem.readBytes_writeBytes]

theorem readBytes_split (m : Mem) (a : Nat) {i n : Nat} (h : i ≤ n) :
    m.readBytes a n = m.readBytes a i ++ m.readBytes (a + i) (n - i) := by
  obtain ⟨j, rfl⟩ := Nat.exists_eq_add_of_le h
  simp only [Mem.readBytes, List.range_add, List.map_append, List.map_map, Nat.add_sub_cancel_left]
  congr 2
  funext x
  simp [Nat.add_assoc]

section RoundTrip

variable {arg : List UInt8} (hrun : Running k) (hargs : HoldsArgument k arg)
include hrun hargs

theorem HoldsArgument.copied (hn : n < 2 ^ 31) (hne : arg ≠ []) (hroom : arg.length + 1 ≤ n)
    (hsource : argumentBufferAddr k.currentPblock + n ≤ addr8MB) (hbuf : RangeInPage buf n) :
    ∃ k', getargs k buf n = .ok (k', 0) ∧ k'.fetch buf (arg.length + 1) = .ok (arg ++ [0]) := by
  have hpos : arg.length ≠ 0 := fun h => hne (List.length_eq_zero_iff.mp h)
  have hlen : (arg ++ [0]).length = arg.length + 1 := by simp
  refine ⟨_, getargs_copies hrun hn (by rw [hargs.length]; omega) (by rw [hargs.length]; exact hroom) hsource hbuf, ?_⟩
  rw [readBytes_split _ _ hroom, hargs.bytes, ← hlen]
  exact fetch_copied_start hrun (hbuf.mono (by rw [hlen]; exact hroom))

theorem HoldsArgument.faults (hn : n < 2 ^ 31) (hne : arg ≠ []) (hroom : arg.length + 1 ≤ n)
    (hbuf : RangeInPage buf (arg.length + 1)) (hout : ¬ CopyInPages k buf n) :
    getargs k buf n = .error .pageFault := by
  have hpos : arg.length ≠ 0 := fun h => hne (List.length_eq_zero_iff.mp h)
  have hone : 1 < argumentLength k := by rw [hargs.length]; omega
  have hroom' : argumentLength k ≤ n := by rw [hargs.length]; exact hroom
  obtain ⟨hlow, -⟩ := hbuf.bounds (Nat.succ_pos _)
  have hnull : buf ≠ 0 := by
    simp only [addr128MB] at hlow
    omega
  by_cases hsource : argumentBufferAddr k.currentPblock + n ≤ addr8MB
  · apply getargs_buffer_fault hrun hn hone hroom' hsource hlow
    by_contra hin
    exact hout ⟨by exact_mod_cast hsource, by exact_mod_cast Nat.le_of_not_lt hin⟩
  · exact getargs_source_fault hrun hn hnull hone hroom' hsource

theorem roundTrips_iff {n : Int} (hn : n < 2 ^ 31)
    (hbuf : arg ≠ [] → (arg.length + 1 : Nat) ≤ n → RangeInPage buf (arg.length + 1)) :
    RoundTrips k arg buf n ↔ arg = [] ∨ n ≤ arg.length ∨ CopyInPages k buf n := by
  by_cases hempty : arg = []
  · have hnone : getargs k buf n = .ok (k, -1) := getargs_none (by rw [hargs.length, hempty]; exact le_rfl) buf n
    exact ⟨fun _ => .inl hempty, fun _ => ⟨fun h => absurd hempty h, fun h => absurd hempty h, fun _ => hnone⟩⟩
  by_cases hsmall : n ≤ arg.length
  · refine ⟨fun _ => .inr (.inl hsmall), fun _ => ⟨fun _ h => by omega, fun _ hpos _ => ?_, fun h => absurd h hempty⟩⟩
    obtain ⟨n, rfl⟩ := Int.eq_ofNat_of_zero_le hpos
    exact getargs_refused (by exact_mod_cast hn) (.inr (.inr (by rw [hargs.length]; omega)))
  have hroom : (arg.length + 1 : Nat) ≤ n := by omega
  obtain ⟨n, rfl⟩ := Int.eq_ofNat_of_zero_le (show 0 ≤ n by omega)
  have hn' : n < 2 ^ 31 := by exact_mod_cast hn
  have hroom' : arg.length + 1 ≤ n := by exact_mod_cast hroom
  have hstart := hbuf hempty hroom
  have hlow := (hstart.bounds (Nat.succ_pos _)).1
  simp only [hempty, hsmall, false_or]
  constructor
  · intro hround
    by_contra hout
    obtain ⟨k', hcall, -⟩ := hround.copied hempty hroom
    rw [hargs.faults hrun hn' hempty hroom' hstart hout] at hcall
    cases hcall
  · intro hin
    refine ⟨fun _ _ => ?_, fun _ _ h => by omega, fun h => absurd h hempty⟩
    obtain ⟨hsource, hend⟩ := hin
    have hrange : RangeInPage buf n := fun j hj => by
      have hend' : buf + n ≤ addr128MB + addr4MB := by exact_mod_cast hend
      omega
    exact hargs.copied hrun hn' hempty hroom' (by exact_mod_cast hsource) hrange

end RoundTrip

/-- In every later state of a process that `execute` started, `getargs` returns the argument of its command
exactly when the copy of `nbytes` bytes stays in its two pages or is refused. -/
theorem arguments_round_trip_iff {command name arg : List UInt8} {eip esp : Nat} {k₀ k₁ : Kernel} {n : Int}
    (hs : Startable k₀) (hsplit : Splits command name arg)
    (hexec : execute fops fs locals k₀ command = .ok (k₁, .iret eip esp)) (hlater : KeepsArgument k₁ k)
    (hn : n < 2 ^ 31) (hbuf : arg ≠ [] → (arg.length + 1 : Nat) ≤ n → RangeInPage buf (arg.length + 1)) :
    RoundTrips k arg buf n ↔ arg = [] ∨ n ≤ arg.length ∨ CopyInPages k buf n := by
  obtain ⟨prog, hacc, hentered⟩ := execute_entered hs hexec
  obtain ⟨d, -, hprog⟩ := hacc.found
  have hargs : HoldsArgument k arg := by
    have := hentered.holdsArgument.later hlater
    rwa [hprog, hsplit.progArgs] at this
  exact roundTrips_iff hlater.running hargs hn hbuf

/-- `shell a` -/
def shellCommand : List UInt8 := shellName ++ asciiSpace :: [0x61]

theorem splits_shellCommand : Splits shellCommand shellName [0x61] where
  shape := .inl rfl
  short := by decide
  named := by decide
  nameShort := by decide
  nameWord := by decide
  argWord := by decide
  plain := by decide

theorem Running.keepsArgument (h : Running k) : KeepsArgument k k := ⟨rfl, h, fun _ _ _ => rfl⟩

theorem arguments_round_trip_iff_shell :
    ∃ k₁ eip esp, execute sampleFops sampleFs clearedLocals bootKernel shellCommand = .ok (k₁, .iret eip esp) ∧
      (RoundTrips k₁ [0x61] 0x8050000 1024 ↔
        [(0x61 : UInt8)] = [] ∨ (1024 : Int) ≤ [(0x61 : UInt8)].length ∨ CopyInPages k₁ 0x8050000 1024) := by
  obtain ⟨prog, k₁, eip, esp, hexec, hentered⟩ :=
    execute_shell (show inodeOf (checkCommand sampleFs bootKernel clearedLocals shellCommand) = some 0 by decide +kernel)
  exact ⟨k₁, eip, esp, hexec, arguments_round_trip_iff startable_bootKernel splits_shellCommand hexec
    hentered.running.keepsArgument (by decide) fun _ _ => rangeInPage_sample 2 (by decide)⟩

/-- With a buffer of 64 kB the copy runs into the end of the kernel's page. -/
theorem large_buffer_faults :
    RangeInPage 0x8050000 65536 ∧
    ∃ k₁ eip esp, execute sampleFops sampleFs clearedLocals bootKernel shellCommand = .ok (k₁, .iret eip esp) ∧
      getargs k₁ 0x8050000 (65536 : Nat) = .error .pageFault ∧ ¬ RoundTrips k₁ [0x61] 0x8050000 (65536 : Nat) := by
  refine ⟨fun j hj => by simp only [addr128MB, addr4MB]; omega, ?_⟩
  obtain ⟨prog, k₁, eip, esp, hexec, hentered⟩ :=
    execute_shell (show inodeOf (checkCommand sampleFs bootKernel clearedLocals shellCommand) = some 0 by decide +kernel)
  obtain ⟨prog', hacc, hentered'⟩ := execute_entered startable_bootKernel hexec
  obtain ⟨d, -, hprog⟩ := hacc.found
  have hargs : HoldsArgument k₁ [0x61] := by
    have := hentered'.holdsArgument
    rwa [hprog, splits_shellCommand.progArgs] at this
  have hout : ¬ CopyInPages k₁ 0x8050000 (65536 : Nat) := by
    rintro ⟨hsource, -⟩
    have hmax := hentered.running.max
    simp only [argumentBufferAddr, Kernel.currentPblock, pcbAddr, addr8MB, addr8KB, maxProcesses] at *
    omega
  have hfault : getargs k₁ 0x8050000 (65536 : Nat) = .error .pageFault :=
    hargs.faults hentered.running (by decide) (by decide) (by decide) (rangeInPage_sample 2 (by decide)) hout
  refine ⟨k₁, eip, esp, hexec, hfault, fun hround => ?_⟩
  obtain ⟨k', hcall, -⟩ := hround.copied (by decide) (by decide)
  rw [hfault] at hcall
  cases hcall

end UnixOs
