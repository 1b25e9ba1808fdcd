import UnixOs.FileSystem
import UnixOs.KeyboardHandler
import UnixOs.SchedQueue

/-! The state that the system calls share, and the memory they see. Memory is physical; the page
directory maps the video pages and the kernel's 4 MB page to themselves and one 4 MB page at 128 MB to
the running process's frame. Everything else is not present. -/

namespace UnixOs

def addr4MB : Nat := 0x00400000

def addr128MB : Nat := 0x8000000

/-- The end of the video page and the three backing pages behind it. -/
def videoEnd : Nat := 0xBC000

/-- The globals of the kernel. `pdUser` is `pd[PD_IDX_USER]`; `dirReadCount` is the static counter of
`read_directory`. -/
structure Kernel where
  mem : Mem
  processCount : Nat
  primaryShellCount : Int
  processQ : ProcessQueue
  pdUser : Nat
  tssEsp0 : Nat
  console : Console
  dirReadCount : Nat

/-- The entry that `init_4mb_user_pde` builds: present, writable, user, write-through, 4 MB, and the
high ten bits of the base. -/
def init4mbUserPde (pageBaseAddr : Nat) : Nat := 0x8F + pageBaseAddr / 2 ^ 22 % 2 ^ 10 * 2 ^ 22

/-- The physical base that an entry maps. -/
def pdeBase (pde : Nat) : Nat := pde / 2 ^ 22 * 2 ^ 22

/-- The mapped areas. No two of them are adjacent. -/
inductive Area where
  | video
  | kernel
  | user

/-- The area that a range lies in. -/
def areaOf (a n : Nat) : Option Area :=
  if videoMem ≤ a ∧ a + n ≤ videoEnd then some .video
  else if addr4MB ≤ a ∧ a + n ≤ addr8MB then some .kernel
  else if addr128MB ≤ a ∧ a + n ≤ addr128MB + addr4MB then some .user
  else none

/-- Whether a range is mapped, with the user page present or not. -/
def rangeMapped (userPresent : Bool) (a n : Nat) : Bool :=
  match areaOf a n with
  | some .user => userPresent
  | some _ => true
  | none => false

namespace Kernel

/-- The physical address of an address of the user page. -/
def userPhys (k : Kernel) (a : Nat) : Nat := pdeBase k.pdUser + (a - addr128MB)

def fetch (k : Kernel) (a n : Nat) : Except Fault (List UInt8) :=
  if n = 0 then .ok []
  else
    match areaOf a n with
    | some .video => .ok (k.console.video.vram.readBytes a n)
    | some .kernel => .ok (k.mem.readBytes a n)
    | some .user =>
        if k.pdUser % 2 = 1 then .ok (k.mem.readBytes (k.userPhys a) n) else .error .pageFault
    | none => .error .pageFault

def store (k : Kernel) (a : Nat) (bs : List UInt8) : Except Fault Kernel :=
  if bs.length = 0 then .ok k
  else
    match areaOf a bs.length with
    | some .video =>
        .ok { k with console.video.vram := k.console.video.vram.writeBytes a bs }
    | some .kernel => .ok { k with mem := k.mem.writeBytes a bs }
    | some .user =>
        if k.pdUser % 2 = 1 then .ok { k with mem := k.mem.writeBytes (k.userPhys a) bs }
        else .error .pageFault
    | none => .error .pageFault

/-- Whether the user page is present. -/
def userPresent (k : Kernel) : Bool := decide (k.pdUser % 2 = 1)

def fetch32 (k : Kernel) (a : Nat) : Except Fault Nat := do
  let bs ← k.fetch a 4
  return Mem.load32 (fun i => bs.getD i 0) 0

/-- `ADDR_8MB - process_count*ADDR_8KB` -/
def currentPblock (k : Kernel) : Nat := pcbAddr k.processCount

end Kernel

/-- `sizeof(process_control_block_t)` -/
def pcbSize : Nat := 580

def opsSize : Nat := 8

/-- Where `fde[fd]` starts in a block. -/
def fdeOffset (fd : Nat) : Nat := 64 + 48 * fd

def fopPtrAddr (pcb fd : Nat) : Nat := pcb + fdeOffset fd
def inodeAddr (pcb fd : Nat) : Nat := pcb + fdeOffset fd + 4
def fileNameAddr (pcb fd : Nat) : Nat := pcb + fdeOffset fd + 8
def filePosAddr (pcb fd : Nat) : Nat := pcb + fdeOffset fd + 40
def inUseAddr (pcb fd : Nat) : Nat := pcb + fdeOffset fd + 44

/-- The addresses the linker gives the four operations tables. -/
structure FopsTables where
  rtc : Nat
  directory : Nat
  file : Nat
  terminal : Nat
  distinct : [0, rtc, directory, file, terminal].Nodup
  small : ∀ a ∈ [rtc, directory, file, terminal], a < 2 ^ 32

def pqGetActiveTerm (k : Kernel) : Except Fault Nat :=
  if k.processCount > 0 then k.fetch32 (pqPeak k.processQ + 60) else .ok 0

/-- The active terminal as an index of the cursor tables, which a number that is no terminal overruns. -/
def activeTerm (k : Kernel) : Except Fault Term := do
  let n ← pqGetActiveTerm k
  if h : n < 3 then .ok ⟨n, h⟩ else .error .overrun

/-! ### Loads and stores -/

theorem areaOf_kernel {a n : Nat} (hlow : addr4MB ≤ a) (hhigh : a + n ≤ addr8MB) :
    areaOf a n = some .kernel := by
  have hvideo : ¬ (videoMem ≤ a ∧ a + n ≤ videoEnd) := by
    simp only [videoMem, videoEnd, addr4MB] at *
    omega
  rw [areaOf, if_neg hvideo, if_pos ⟨hlow, hhigh⟩]

theorem areaOf_user {a n : Nat} (hlow : addr128MB ≤ a) (hhigh : a + n ≤ addr128MB + addr4MB) :
    areaOf a n = some .user := by
  have hvideo : ¬ (videoMem ≤ a ∧ a + n ≤ videoEnd) := by
    simp only [videoMem, videoEnd, addr128MB] at *
    omega
  have hkernel : ¬ (addr4MB ≤ a ∧ a + n ≤ addr8MB) := by
    simp only [addr8MB, addr128MB] at *
    omega
  rw [areaOf, if_neg hvideo, if_neg hkernel, if_pos ⟨hlow, hhigh⟩]

theorem rangeMapped_mono {userPresent : Bool} {a m n : Nat} (hle : n ≤ m) (h : rangeMapped userPresent a m = true) :
    rangeMapped userPresent a n = true := by
  have harea : areaOf a m = none ∨ areaOf a n = areaOf a m := by
    unfold areaOf
    split_ifs <;> simp only [videoMem, videoEnd, addr4MB, addr8MB, addr128MB, or_true, true_or] at * <;>
      omega
  rcases harea with hnone | hsame
  · rw [rangeMapped, hnone] at h
    cases h
  · rw [rangeMapped, hsame]
    exact h

theorem areaOf_eq_kernel {a n : Nat} (h : areaOf a n = some .kernel) : addr4MB ≤ a ∧ a + n ≤ addr8MB := by
  unfold areaOf at h
  split_ifs at h with hvideo hkernel huser
  · cases h
  · exact hkernel
  · cases h

theorem fetch32_of_fetch {k : Kernel} {a b : Nat} {m : Mem} (h : k.fetch a 4 = .ok (m.readBytes b 4)) :
    k.fetch32 a = .ok (m.load32 b) := by
  have hload : Mem.load32 (fun i => (m.readBytes b 4).getD i 0) 0 = m.load32 b := by
    simp [Mem.load32, Mem.readBytes]
  rw [Kernel.fetch32, h, ← hload]
  rfl

theorem fetch32_kernel (k : Kernel) {a : Nat} (hlow : addr4MB ≤ a) (hhigh : a + 4 ≤ addr8MB) :
    k.fetch32 a = .ok (k.mem.load32 a) := by
  apply fetch32_of_fetch
  simp only [Kernel.fetch, areaOf_kernel hlow hhigh]
  rfl

theorem store_changes {k k' : Kernel} {a : Nat} {bs : List UInt8} (h : k.store a bs = .ok k') :
    ∃ m vram, k' = { k with mem := m, console.video.vram := vram } := by
  unfold Kernel.store at h
  by_cases hempty : bs.length = 0
  · rw [if_pos hempty] at h
    cases h
    exact ⟨k.mem, k.console.video.vram, rfl⟩
  · rw [if_neg hempty] at h
    cases harea : areaOf a bs.length with
    | none => simp [harea] at h
    | some area =>
        simp only [harea] at h
        generalize k.userPhys a = phys at h
        cases area with
        | video =>
            cases h
            exact ⟨_, _, rfl⟩
        | kernel =>
            cases h
            exact ⟨_, k.console.video.vram, rfl⟩
        | user =>
            simp only at h
            split_ifs at h with hpresent
            cases h
            exact ⟨_, k.console.video.vram, rfl⟩

/-- Where a store that starts outside the kernel's page ends up: memory below the frame of the running
process is untouched, and only memory and the visible pages change. -/
theorem store_outside_kernel {k k' : Kernel} {a : Nat} {bs : List UInt8} (h : k.store a bs = .ok k')
    (ha : a < addr4MB ∨ addr8MB ≤ a) :
    ∃ m v, k' = { k with mem := m, console := { k.console with video := v } } ∧
      ∀ x < pdeBase k.pdUser, m x = k.mem x := by
  unfold Kernel.store at h
  by_cases hempty : bs.length = 0
  · rw [if_pos hempty] at h
    cases h
    exact ⟨k.mem, k.console.video, rfl, fun _ _ => rfl⟩
  · rw [if_neg hempty] at h
    cases harea : areaOf a bs.length with
    | none => simp [harea] at h
    | some area =>
        simp only [harea] at h
        cases area with
        | video =>
            cases h
            exact ⟨_, _, rfl, fun _ _ => rfl⟩
        | kernel =>
            have := areaOf_eq_kernel harea
            omega
        | user =>
            simp only at h
            split_ifs at h with hpresent
            refine ⟨k.mem.writeBytes (k.userPhys a) bs, k.console.video, (Except.ok.inj h).symm,
              fun x hx => Mem.writeBytes_of_outside (.inl ?_)⟩
            exact Nat.lt_of_lt_of_le hx (Nat.le_add_right _ _)

theorem areaOf_of_le {a n n' : Nat} {area : Area} (h : areaOf a n = some area) (hle : n' ≤ n) :
    areaOf a n' = some area := by
  unfold areaOf at h
  split_ifs at h with hvideo hkernel huser
  · cases h
    rw [areaOf, if_pos ⟨hvideo.1, by omega⟩]
  · cases h
    exact areaOf_kernel hkernel.1 (by omega)
  · cases h
    exact areaOf_user huser.1 (by omega)

theorem fetch_of_store {k k' : Kernel} {a : Nat} {bs cs : List UInt8} (h : k.store a (bs ++ cs) = .ok k') :
    k'.fetch a bs.length = .ok bs := by
  by_cases hempty : bs.length = 0
  · rw [Kernel.fetch, if_pos hempty, List.length_eq_zero_iff.mp hempty]
  have hlen : (bs ++ cs).length ≠ 0 := by rw [List.length_append]; omega
  rw [Kernel.store, if_neg hlen] at h
  cases harea : areaOf a (bs ++ cs).length with
  | none =>
      rw [harea] at h
      cases h
  | some area =>
      have hpart : areaOf a bs.length = some area :=
        areaOf_of_le harea (by rw [List.length_append]; omega)
      rw [Kernel.fetch, if_neg hempty, hpart]
      simp only [harea] at h
      cases area with
      | video =>
          cases h
          simp only [Mem.readBytes_writeBytes]
      | kernel =>
          cases h
          simp only [Mem.readBytes_writeBytes]
      | user =>
          simp only at h
          split_ifs at h with hpresent
          -- the physical address is kept as a variable
          generalize hphys : k.userPhys a = phys at h
          have hk' := (Except.ok.inj h).symm
          have hmem : k'.mem = k.mem.writeBytes phys (bs ++ cs) := by rw [hk']
          have hpd : k'.pdUser = k.pdUser := by rw [hk']
          have hphys' : k'.userPhys a = phys := by rw [← hphys, Kernel.userPhys, Kernel.userPhys, hpd]
          simp only [hmem, hpd, hphys', if_pos hpresent, Mem.readBytes_writeBytes]

theorem store_user (k : Kernel) {a : Nat} (bs : List UInt8) (hlow : addr128MB ≤ a)
    (hhigh : a + bs.length ≤ addr128MB + addr4MB) (hpresent : k.pdUser % 2 = 1) :
    k.store a bs = .ok { k with mem := k.mem.writeBytes (k.userPhys a) bs } := by
  unfold Kernel.store
  by_cases hempty : bs.length = 0
  · rw [if_pos hempty, List.length_eq_zero_iff.mp hempty, Mem.writeBytes_nil]
  · rw [if_neg hempty, areaOf_user hlow hhigh]
    simp only [if_pos hpresent]

end UnixOs
