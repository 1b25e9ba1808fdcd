import UnixOs.CountedLoop
import UnixOs.ProcessStart
import UnixOs.X86Paging

/-! The page tables of `page.c` in memory, and what the processor makes of them. The walk through them is the map
of areas that the system calls are modelled on, and it keeps user programs out of the kernel's page and out of
each other's frames. -/

namespace UnixOs

/-- The page directory `pd` and the page table `pt_0_4` of `x86_desc.S`, in the kernel's page. -/
structure PageTables where
  pd : Nat
  pt : Nat
  pdAligned : pd % 2 ^ 12 = 0
  ptAligned : pt % 2 ^ 12 = 0
  pdInside : addr4MB ≤ pd ∧ pd + 2 ^ 12 ≤ addr8MB
  ptInside : addr4MB ≤ pt ∧ pt + 2 ^ 12 ≤ addr8MB
  apart : pd + 2 ^ 12 ≤ pt ∨ pt + 2 ^ 12 ≤ pd

/-- The control registers that paging needs. -/
structure ControlRegs where
  cr0 : Nat
  cr3 : Nat
  cr4 : Nat

namespace PageTables

/-- A loop that stores one word in each of the 1024 entries of a table. -/
def fill (table v : Nat) (m : Mem) : Mem := forUpTo (fun i m => m.store32 (table + 4 * i) v) 1024 m

/-- `set_read_write` -/
def setReadWrite (t : PageTables) (m : Mem) : Mem := fill t.pd 0x2 m

/-- `init_table` -/
def initTable (t : PageTables) (m : Mem) : Mem :=
  let m := fill t.pt 0x2 m
  let m := m.store32 (t.pt + 4 * 184) 0x000B8007
  let m := m.store32 (t.pt + 4 * 185) 0x000B9007
  let m := m.store32 (t.pt + 4 * 186) 0x000BA007
  m.store32 (t.pt + 4 * 187) 0x000BB007

/-- `init_page` -/
def initPage (t : PageTables) (m : Mem) (regs : ControlRegs) : Mem × ControlRegs :=
  let m := t.setReadWrite m
  let m := t.initTable m
  let m := m.store32 (t.pd + 4 * 0) (t.pt ||| 0x4 ||| 0x1 ||| 0x2)
  let m := m.store32 (t.pd + 4 * 1) 0x00400183
  let regs := { regs with cr4 := regs.cr4 ||| 0x10 }
  let regs := { regs with cr3 := t.pd }
  (m, { regs with cr0 := regs.cr0 ||| 0x80000000 })

/-- `pd[PD_IDX_USER] = pde.val`, followed by `set_cr3(pd)`, which reloads the same directory. -/
def setUserPage (t : PageTables) (m : Mem) (base : Nat) : Mem := m.store32 (t.pd + 4 * 0x20) (init4mbUserPde base)

end PageTables

/-- The tables as `init_page` leaves them, with a given entry for the user page. -/
structure TablesReady (t : PageTables) (pde : Nat) (m : Mem) : Prop where
  low : m.load32 (t.pd + 4 * 0) = t.pt + 7
  kernel : m.load32 (t.pd + 4 * 1) = 0x00400183
  user : m.load32 (t.pd + 4 * 0x20) = pde
  others : ∀ i < 1024, i ≠ 0 → i ≠ 1 → i ≠ 0x20 → m.load32 (t.pd + 4 * i) = 0x2
  video : ∀ i, 184 ≤ i → i < 188 → m.load32 (t.pt + 4 * i) = i * 2 ^ 12 + 7
  holes : ∀ i < 1024, i < 184 ∨ 188 ≤ i → m.load32 (t.pt + 4 * i) = 0x2

section Entries

variable {t : PageTables} {pde : Nat} {m m' : Mem}

theorem load32_fill {table v i : Nat} (hi : i < 1024) :
    (PageTables.fill table v m).load32 (table + 4 * i) = v % 2 ^ 32 := by
  have hinv := forUpTo_invariant (fun i m => m.store32 (table + 4 * i) v) (n := 1024) (s := m)
    (fun k (m : Mem) => ∀ i < k, m.load32 (table + 4 * i) = v % 2 ^ 32) (fun i hi => absurd hi (Nat.not_lt_zero i)) ?_
  · exact hinv i hi
  · intro k m _ hk i hi
    by_cases heq : i = k
    · rw [heq, Mem.load32_store32]
    · rw [Mem.load32_store32_of_ne _ (by omega)]
      exact hk i (by omega)

theorem fill_of_outside {table v x : Nat} (hx : x < table ∨ table + 2 ^ 12 ≤ x) :
    PageTables.fill table v m x = m x := by
  refine forUpTo_invariant (fun i m => m.store32 (table + 4 * i) v) (fun _ (m' : Mem) => m' x = m x) rfl ?_
  intro k m' hk hm'
  rw [Mem.store32_of_outside _ (by omega), hm']

/-- Only the bytes of the two tables matter. -/
theorem TablesReady.congr (h : TablesReady t pde m)
    (hsame : ∀ x, t.pd ≤ x ∧ x < t.pd + 2 ^ 12 ∨ t.pt ≤ x ∧ x < t.pt + 2 ^ 12 → m' x = m x) : TablesReady t pde m' := by
  have hpd : ∀ i < 1024, m'.load32 (t.pd + 4 * i) = m.load32 (t.pd + 4 * i) := fun i hi =>
    Mem.load32_congr fun j hj => hsame _ (.inl (by omega))
  have hpt : ∀ i < 1024, m'.load32 (t.pt + 4 * i) = m.load32 (t.pt + 4 * i) := fun i hi =>
    Mem.load32_congr fun j hj => hsame _ (.inr (by omega))
  refine ⟨?_, ?_, ?_, fun i hi h0 h1 h32 => ?_, fun i hlow hhigh => ?_, fun i hi hhole => ?_⟩
  · rw [hpd 0 (by omega), h.low]
  · rw [hpd 1 (by omega), h.kernel]
  · rw [hpd 0x20 (by omega), h.user]
  · rw [hpd i hi, h.others i hi h0 h1 h32]
  · rw [hpt i (by omega), h.video i hlow hhigh]
  · rw [hpt i hi, h.holes i hi hhole]

theorem or_flags (t : PageTables) : t.pt ||| 0x4 ||| 0x1 ||| 0x2 = t.pt + 7 := by
  have hpt : t.pt = 2 ^ 12 * (t.pt / 2 ^ 12) := by have := t.ptAligned; omega
  rw [Nat.or_assoc, Nat.or_assoc, hpt]
  exact (Nat.two_pow_add_eq_or_of_lt (show 7 < 2 ^ 12 by decide) _).symm

theorem load32_fill_of_apart {table a v : Nat} (ha : a + 4 ≤ table ∨ table + 2 ^ 12 ≤ a) :
    (PageTables.fill table v m).load32 a = m.load32 a :=
  Mem.load32_congr fun i hi => fill_of_outside (by omega)

theorem load32_pd_initTable (t : PageTables) {i : Nat} (hi : i < 1024) :
    (t.initTable (t.setReadWrite m)).load32 (t.pd + 4 * i) = 0x2 := by
  have hapart := t.apart
  rw [PageTables.initTable]
  rw [Mem.load32_store32_of_ne _ (by omega), Mem.load32_store32_of_ne _ (by omega), Mem.load32_store32_of_ne _ (by omega),
    Mem.load32_store32_of_ne _ (by omega), load32_fill_of_apart (by omega)]
  exact load32_fill hi

theorem load32_pt_initTable (t : PageTables) {i : Nat} (hi : i < 1024) : (t.initTable m).load32 (t.pt + 4 * i) =
    if 184 ≤ i ∧ i < 188 then i * 2 ^ 12 + 7 else 0x2 := by
  rw [PageTables.initTable]
  by_cases h187 : i = 187
  · rw [h187, Mem.load32_store32]
    rfl
  rw [Mem.load32_store32_of_ne _ (by omega)]
  by_cases h186 : i = 186
  · rw [h186, Mem.load32_store32]
    rfl
  rw [Mem.load32_store32_of_ne _ (by omega)]
  by_cases h185 : i = 185
  · rw [h185, Mem.load32_store32]
    rfl
  rw [Mem.load32_store32_of_ne _ (by omega)]
  by_cases h184 : i = 184
  · rw [h184, Mem.load32_store32]
    rfl
  rw [Mem.load32_store32_of_ne _ (by omega), load32_fill hi, if_neg (by omega)]
  rfl

/-- The tables that `init_page` builds have no user page yet. -/
theorem initPage_ready (t : PageTables) (m : Mem) (regs : ControlRegs) : TablesReady t 0x2 (t.initPage m regs).1 := by
  have hapart := t.apart
  have hinside := t.ptInside
  have hpd : ∀ i < 1024, i ≠ 0 → i ≠ 1 → (t.initPage m regs).1.load32 (t.pd + 4 * i) = 0x2 := by
    intro i hi h0 h1
    rw [PageTables.initPage]
    dsimp only
    rw [Mem.load32_store32_of_ne _ (by omega), Mem.load32_store32_of_ne _ (by omega), load32_pd_initTable t hi]
  have hpt : ∀ i < 1024, (t.initPage m regs).1.load32 (t.pt + 4 * i) =
      if 184 ≤ i ∧ i < 188 then i * 2 ^ 12 + 7 else 0x2 := by
    intro i hi
    rw [PageTables.initPage]
    dsimp only
    rw [Mem.load32_store32_of_ne _ (by omega), Mem.load32_store32_of_ne _ (by omega), load32_pt_initTable t hi]
  refine ⟨?_, ?_, hpd 0x20 (by omega) (by omega) (by omega), fun i hi h0 h1 _ => hpd i hi h0 h1,
    fun i hlow hhigh => ?_, fun i hi hhole => ?_⟩
  · rw [PageTables.initPage]
    dsimp only
    rw [Mem.load32_store32_of_ne _ (by omega), Mem.load32_store32, or_flags, Nat.mod_eq_of_lt]
    rw [addr8MB] at hinside
    omega
  · rw [PageTables.initPage]
    dsimp only
    rw [Mem.load32_store32]
    rfl
  · rw [hpt i (by omega), if_pos ⟨hlow, hhigh⟩]
  · rw [hpt i hi, if_neg (by omega)]

theorem init4mbUserPde_lt (base : Nat) : init4mbUserPde base < 2 ^ 32 := by
  rw [init4mbUserPde]
  omega

theorem TablesReady.setUser (h : TablesReady t pde m) {v : Nat} (hv : v < 2 ^ 32) :
    TablesReady t v (m.store32 (t.pd + 4 * 0x20) v) := by
  have hapart := t.apart
  have hpd : ∀ i < 1024, i ≠ 0x20 → (m.store32 (t.pd + 4 * 0x20) v).load32 (t.pd + 4 * i) = m.load32 (t.pd + 4 * i) :=
    fun i hi hne => Mem.load32_store32_of_ne _ (by omega)
  have hpt : ∀ i < 1024, (m.store32 (t.pd + 4 * 0x20) v).load32 (t.pt + 4 * i) = m.load32 (t.pt + 4 * i) :=
    fun i hi => Mem.load32_store32_of_ne _ (by omega)
  refine ⟨?_, ?_, Mem.load32_store32_of_lt _ _ hv, fun i hi h0 h1 h32 => ?_,
    fun i hlow hhigh => ?_, fun i hi hhole => ?_⟩
  · rw [hpd 0 (by omega) (by omega), h.low]
  · rw [hpd 1 (by omega) (by omega), h.kernel]
  · rw [hpd i hi h32, h.others i hi h0 h1 h32]
  · rw [hpt i (by omega), h.video i hlow hhigh]
  · rw [hpt i hi, h.holes i hi hhole]

theorem TablesReady.setUserPage (h : TablesReady t pde m) (base : Nat) :
    TablesReady t (init4mbUserPde base) (t.setUserPage m base) := h.setUser (init4mbUserPde_lt base)

end Entries

/-- An entry for the user page that the kernel writes: none, or a 4 MB page. -/
def UserEntry (pde : Nat) : Prop := pde = 0x2 ∨ ∃ base, pde = init4mbUserPde base

/-- The map of addresses: the video pages and the kernel's page to themselves, the latter for the kernel only, and
the user page to the frame of its entry. -/
def mapped (pde : Nat) (user : Bool) (a : Nat) : Option Nat :=
  if videoMem ≤ a ∧ a < videoEnd then some a
  else if addr4MB ≤ a ∧ a < addr8MB then if user then none else some a
  else if (addr128MB ≤ a ∧ a < addr128MB + addr4MB) ∧ pde % 2 = 1 then some (pdeBase pde + (a - addr128MB))
  else none

section Walk

variable {t : PageTables} {pde a : Nat} {m : Mem} {acc : Access}

theorem entryAllows_absent (acc : Access) : entryAllows 0x2 acc = false := by
  revert acc
  rintro ⟨_ | _, _ | _⟩ <;> decide

theorem testBit_entry {k flags j : Nat} (hflags : flags < 2 ^ 12) (hj : j < 12) :
    (k * 2 ^ 12 + flags).testBit j = flags.testBit j := by
  rw [Nat.mul_comm, Nat.testBit_two_pow_mul_add _ hflags, if_pos hj]

theorem entryAllows_entry {k flags : Nat} (hflags : flags < 2 ^ 12) (acc : Access) :
    entryAllows (k * 2 ^ 12 + flags) acc = entryAllows flags acc := by
  rw [entryAllows, entryAllows, testBit_entry hflags (by omega), testBit_entry hflags (by omega),
    testBit_entry hflags (by omega)]

theorem entry_base {k flags : Nat} (hflags : flags < 2 ^ 12) : (k * 2 ^ 12 + flags) / 2 ^ 12 * 2 ^ 12 = k * 2 ^ 12 := by
  omega

theorem init4mbUserPde_eq (base : Nat) : init4mbUserPde base = base / 2 ^ 22 % 2 ^ 10 * 2 ^ 10 * 2 ^ 12 + 0x8F := by
  rw [init4mbUserPde]
  omega

theorem load32_pde (h : m.load32 (t.pd + 4 * (a / 2 ^ 22)) = pde) :
    m.load32 (t.pd / 2 ^ 12 * 2 ^ 12 + 4 * (a / 2 ^ 22)) = pde := by
  have hcr3 : t.pd / 2 ^ 12 * 2 ^ 12 = t.pd := by have := t.pdAligned; omega
  rw [hcr3, h]

theorem TablesReady.walk_low (h : TablesReady t pde m) (ha : a / 2 ^ 22 = 0) :
    pageWalk m t.pd acc a = if videoMem ≤ a ∧ a < videoEnd then some a else none := by
  have hpt : t.pt / 2 ^ 12 * 2 ^ 12 = t.pt := by have := t.ptAligned; omega
  have hphys : a / 2 ^ 12 * 2 ^ 12 + a % 2 ^ 12 = a := Nat.div_add_mod' a (2 ^ 12)
  have hindex : a / 2 ^ 12 % 2 ^ 10 = a / 2 ^ 12 ∧ a / 2 ^ 12 < 1024 := by omega
  have hbase : (t.pt / 2 ^ 12 * 2 ^ 12 + 7) / 2 ^ 12 * 2 ^ 12 = t.pt := by rw [entry_base (by decide), hpt]
  have hrange : videoMem ≤ a ∧ a < videoEnd ↔ 184 ≤ a / 2 ^ 12 ∧ a / 2 ^ 12 < 188 := by
    rw [videoMem, videoEnd]
    omega
  have hpde : m.load32 (t.pd / 2 ^ 12 * 2 ^ 12 + 4 * (a / 2 ^ 22)) = t.pt / 2 ^ 12 * 2 ^ 12 + 7 :=
    load32_pde (by rw [ha, h.low, hpt])
  have hallows : entryAllows (t.pt / 2 ^ 12 * 2 ^ 12 + 7) acc = true := by
    rw [entryAllows_entry (by omega)]
    rcases acc with ⟨_ | _, _ | _⟩ <;> decide
  have hsmall : (t.pt / 2 ^ 12 * 2 ^ 12 + 7).testBit 7 = false := by
    rw [testBit_entry (by omega) (by omega)]
    decide
  by_cases hvideo : 184 ≤ a / 2 ^ 12 ∧ a / 2 ^ 12 < 188
  · have hpte := h.video _ hvideo.1 hvideo.2
    have hallows' : entryAllows (a / 2 ^ 12 * 2 ^ 12 + 7) acc = true := by
      rw [entryAllows_entry (by omega)]
      rcases acc with ⟨_ | _, _ | _⟩ <;> decide
    rw [pageWalk_small hpde hallows hsmall (by rw [hbase, hindex.1, hpte]), if_pos (hrange.mpr hvideo), if_pos hallows',
      entry_base (by decide), hphys]
  · have hpte := h.holes _ hindex.2 (by omega)
    rw [pageWalk_small hpde hallows hsmall (by rw [hbase, hindex.1, hpte]), if_neg (mt hrange.mp hvideo),
      entryAllows_absent acc, if_neg Bool.false_ne_true]

theorem TablesReady.walk_kernel (h : TablesReady t pde m) (ha : a / 2 ^ 22 = 1) :
    pageWalk m t.pd acc a = if acc.user then none else some a := by
  rw [pageWalk_large (load32_pde (by rw [ha, h.kernel])) (by decide)]
  have hphys : 0x00400183 / 2 ^ 22 * 2 ^ 22 + a % 2 ^ 22 = a := by omega
  rw [hphys]
  rcases acc with ⟨_ | _, _ | _⟩ <;> rfl

theorem TablesReady.walk_user (h : TablesReady t pde m) (hentry : UserEntry pde) (ha : a / 2 ^ 22 = 0x20) :
    pageWalk m t.pd acc a = if pde % 2 = 1 then some (pdeBase pde + (a - addr128MB)) else none := by
  have hpde := load32_pde (by rw [ha, h.user])
  rcases hentry with rfl | ⟨base, rfl⟩
  · rw [pageWalk_refused hpde (entryAllows_absent acc)]
    rfl
  · have hallows : entryAllows (init4mbUserPde base) acc = true := by
      rw [init4mbUserPde_eq, entryAllows_entry (by omega)]
      rcases acc with ⟨_ | _, _ | _⟩ <;> decide
    have hlarge : (init4mbUserPde base).testBit 7 = true := by
      rw [init4mbUserPde_eq, testBit_entry (by omega) (by omega)]
      decide
    have hodd : init4mbUserPde base % 2 = 1 := by
      rw [init4mbUserPde]
      omega
    rw [pageWalk_large hpde hlarge, if_pos hallows, if_pos hodd, pdeBase]
    have hoffset : a % 2 ^ 22 = a - addr128MB := by
      rw [addr128MB]
      omega
    rw [hoffset]

theorem TablesReady.walk_other (h : TablesReady t pde m) (hlt : a < 2 ^ 32) (h0 : a / 2 ^ 22 ≠ 0) (h1 : a / 2 ^ 22 ≠ 1)
    (h32 : a / 2 ^ 22 ≠ 0x20) : pageWalk m t.pd acc a = none :=
  pageWalk_refused (load32_pde (h.others _ (by omega) h0 h1 h32)) (entryAllows_absent acc)

theorem pageWalk_eq (h : TablesReady t pde m) (hentry : UserEntry pde) (ha : a < 2 ^ 32) :
    pageWalk m t.pd acc a = mapped pde acc.user a := by
  have hvideo : videoMem ≤ a ∧ a < videoEnd → a / 2 ^ 22 = 0 := by
    rw [videoMem, videoEnd]
    omega
  have hkernel : addr4MB ≤ a ∧ a < addr8MB ↔ a / 2 ^ 22 = 1 := by
    rw [addr4MB, addr8MB]
    omega
  have huser : addr128MB ≤ a ∧ a < addr128MB + addr4MB ↔ a / 2 ^ 22 = 0x20 := by
    rw [addr4MB, addr128MB]
    omega
  rw [mapped]
  by_cases h0 : a / 2 ^ 22 = 0
  · have hno : ¬ (addr4MB ≤ a ∧ a < addr8MB) := by rw [hkernel]; omega
    have hno' : ¬ ((addr128MB ≤ a ∧ a < addr128MB + addr4MB) ∧ pde % 2 = 1) := by rw [huser]; omega
    rw [h.walk_low h0, if_neg hno, if_neg hno']
  rw [if_neg (mt hvideo h0)]
  by_cases h1 : a / 2 ^ 22 = 1
  · rw [h.walk_kernel h1, if_pos (hkernel.mpr h1)]
  rw [if_neg (mt hkernel.mp h1)]
  by_cases h32 : a / 2 ^ 22 = 0x20
  · rw [h.walk_user hentry h32]
    exact if_congr ⟨fun hodd => ⟨huser.mpr h32, hodd⟩, fun hboth => hboth.2⟩ rfl rfl
  · rw [h.walk_other ha h0 h1 h32, if_neg fun hboth => h32 (huser.mp hboth.1)]

end Walk

/-- Memory with the video pages as the screen shows them. -/
def Kernel.ram (k : Kernel) : Mem := fun x => if videoMem ≤ x ∧ x < videoEnd then k.console.video.vram x else k.mem x

/-- Physical memory: the directory has the user entry as well. -/
def Kernel.phys (t : PageTables) (k : Kernel) : Mem := k.ram.store32 (t.pd + 4 * 0x20) k.pdUser

/-- The tables are in memory, and the user page is a frame above the kernel's page. -/
structure Paged (t : PageTables) (k : Kernel) : Prop where
  tables : TablesReady t k.pdUser (k.phys t)
  entry : UserEntry k.pdUser
  frame : k.pdUser % 2 = 1 → addr8MB ≤ pdeBase k.pdUser

/-- An address is in neither table. -/
def OffTables (t : PageTables) (x : Nat) : Prop :=
  (x < t.pd ∨ t.pd + 2 ^ 12 ≤ x) ∧ (x < t.pt ∨ t.pt + 2 ^ 12 ≤ x)

section Refinement

variable {t : PageTables} {k k' : Kernel} {a n pde : Nat} {m : Mem} {acc : Access}

theorem areaOf_eq_video (h : areaOf a n = some .video) : videoMem ≤ a ∧ a + n ≤ videoEnd := by
  unfold areaOf at h
  split_ifs at h with hvideo hkernel huser
  · exact hvideo
  · cases h
  · cases h

theorem mapped_video {user : Bool} (hlow : videoMem ≤ a) (hhigh : a < videoEnd) : mapped pde user a = some a :=
  if_pos ⟨hlow, hhigh⟩

theorem mapped_kernel {user : Bool} (hlow : addr4MB ≤ a) (hhigh : a < addr8MB) :
    mapped pde user a = if user then none else some a := by
  have hvideo : ¬ (videoMem ≤ a ∧ a < videoEnd) := by
    rw [videoEnd]
    rw [addr4MB] at hlow
    omega
  rw [mapped, if_neg hvideo, if_pos ⟨hlow, hhigh⟩]

theorem mapped_user {user : Bool} (hlow : addr128MB ≤ a) (hhigh : a < addr128MB + addr4MB) :
    mapped pde user a = if pde % 2 = 1 then some (pdeBase pde + (a - addr128MB)) else none := by
  have hvideo : ¬ (videoMem ≤ a ∧ a < videoEnd) := by
    rw [videoEnd]
    rw [addr128MB] at hlow
    omega
  have hkernel : ¬ (addr4MB ≤ a ∧ a < addr8MB) := by
    rw [addr8MB]
    rw [addr128MB] at hlow
    omega
  rw [mapped, if_neg hvideo, if_neg hkernel]
  exact if_congr ⟨fun hboth => hboth.2, fun hodd => ⟨⟨hlow, hhigh⟩, hodd⟩⟩ rfl rfl

/-- The three areas are apart, so that a range in none of them has a byte that is not mapped. -/
theorem exists_unmapped {user : Bool} (hpos : 0 < n) (hnone : areaOf a n = none) :
    ∃ i < n, mapped pde user (a + i) = none := by
  have hranges : ¬ (videoMem ≤ a ∧ a + n ≤ videoEnd) ∧ ¬ (addr4MB ≤ a ∧ a + n ≤ addr8MB) ∧
      ¬ (addr128MB ≤ a ∧ a + n ≤ addr128MB + addr4MB) := by
    unfold areaOf at hnone
    split_ifs at hnone with hvideo hkernel huser
    exact ⟨hvideo, hkernel, huser⟩
  simp only [videoMem, videoEnd, addr4MB, addr8MB, addr128MB] at hranges
  have hgap : ∀ x, (x < 0xB8000 ∨ 0xBC000 ≤ x) → (x < 0x400000 ∨ 0x800000 ≤ x) → (x < 0x8000000 ∨ 0x8400000 ≤ x) →
      mapped pde user x = none := by
    intro x hvideo hkernel huser
    rw [mapped, if_neg, if_neg, if_neg]
    · simp only [addr4MB, addr128MB]
      omega
    · simp only [addr4MB, addr8MB]
      omega
    · simp only [videoMem, videoEnd]
      omega
  by_cases hvideo : 0xB8000 ≤ a ∧ a < 0xBC000
  · exact ⟨0xBC000 - a, by omega, hgap _ (by omega) (by omega) (by omega)⟩
  by_cases hkernel : 0x400000 ≤ a ∧ a < 0x800000
  · exact ⟨0x800000 - a, by omega, hgap _ (by omega) (by omega) (by omega)⟩
  by_cases huser : 0x8000000 ≤ a ∧ a < 0x8400000
  · exact ⟨0x8400000 - a, by omega, hgap _ (by omega) (by omega) (by omega)⟩
  · exact ⟨0, hpos, hgap _ (by omega) (by omega) (by omega)⟩

/-- Where the bytes of an area are in physical memory. -/
def areaPhys (pde a : Nat) : Area → Option Nat
  | .video => some a
  | .kernel => some a
  | .user => if pde % 2 = 1 then some (pdeBase pde + (a - addr128MB)) else none

theorem mapped_area {area : Area} (harea : areaOf a n = some area) {i : Nat} (hi : i < n) :
    mapped pde false (a + i) = (areaPhys pde a area).map (· + i) := by
  unfold areaOf at harea
  split_ifs at harea with hvideo hkernel huser
  · cases harea
    exact mapped_video (by omega) (by omega)
  · cases harea
    exact mapped_kernel (by omega) (by omega)
  · cases harea
    rw [mapped_user (by omega) (by omega), areaPhys]
    split_ifs with hodd
    · rw [Option.map_some]
      exact congrArg some (by omega)
    · rfl

theorem phys_video {x : Nat} (hlow : videoMem ≤ x) (hhigh : x < videoEnd) : k.phys t x = k.console.video.vram x := by
  have hpd := t.pdInside
  have hend : videoEnd < addr4MB := by decide
  rw [Kernel.phys, Mem.store32_of_outside _ (.inl (by omega))]
  exact if_pos ⟨hlow, hhigh⟩

theorem phys_mem {x : Nat} (hx : OffTables t x) (hvideo : videoEnd ≤ x) : k.phys t x = k.mem x := by
  rw [Kernel.phys, Mem.store32_of_outside _ (by rw [OffTables] at hx; omega)]
  exact if_neg (by omega)

theorem offTables_of_high {x : Nat} (hx : addr8MB ≤ x) : OffTables t x := by
  have hpd := t.pdInside
  have hpt := t.ptInside
  exact ⟨.inr (by omega), .inr (by omega)⟩

/-- A frame is above the video pages. -/
theorem Paged.frame_high (h : Paged t k) (hpresent : k.pdUser % 2 = 1) : videoEnd ≤ pdeBase k.pdUser := by
  have hframe := h.frame hpresent
  rw [addr8MB] at hframe
  rw [videoEnd]
  omega

theorem fetch_walks (h : Paged t k) (hend : a + n ≤ 2 ^ 32) (hoff : ∀ i < n, OffTables t (a + i)) :
    k.fetch a n = (walkRead (k.phys t) t.pd .kernel a n).elim (.error .pageFault) .ok := by
  have hwalk : ∀ i < n, pageWalk (k.phys t) t.pd .kernel (a + i) = mapped k.pdUser false (a + i) := fun i hi =>
    pageWalk_eq h.tables h.entry (by omega)
  by_cases hzero : n = 0
  · rw [Kernel.fetch, if_pos hzero, hzero]
    rfl
  rw [Kernel.fetch, if_neg hzero]
  cases harea : areaOf a n with
  | none =>
      obtain ⟨i, hi, hnone⟩ : ∃ i < n, mapped k.pdUser false (a + i) = none :=
        exists_unmapped (Nat.pos_of_ne_zero hzero) harea
      rw [walkRead_fails hi (by rw [hwalk i hi, hnone])]
      rfl
  | some area =>
      have hblock : ∀ p, areaPhys k.pdUser a area = some p →
          walkRead (k.phys t) t.pd .kernel a n = some ((k.phys t).readBytes p n) := by
        intro p hp
        refine walkRead_block fun i hi => ?_
        rw [hwalk i hi, mapped_area harea hi, hp, Option.map_some]
      cases area with
      | video =>
          obtain ⟨hlow, hhigh⟩ := areaOf_eq_video harea
          rw [hblock a rfl]
          exact congrArg Except.ok (Mem.readBytes_congr fun i hi => (phys_video (by omega) (by omega)).symm)
      | kernel =>
          obtain ⟨hlow, -⟩ := areaOf_eq_kernel harea
          have hvideo : videoEnd < addr4MB := by decide
          rw [hblock a rfl]
          exact congrArg Except.ok (Mem.readBytes_congr fun i hi => (phys_mem (hoff i hi) (by omega)).symm)
      | user =>
          by_cases hpresent : k.pdUser % 2 = 1
          · have hframe := h.frame hpresent
            have hhigh := h.frame_high hpresent
            rw [hblock (k.userPhys a) (if_pos hpresent)]
            refine (if_pos hpresent).trans (congrArg Except.ok ?_)
            refine Mem.readBytes_congr fun i hi => (phys_mem (offTables_of_high ?_) ?_).symm
            · rw [Kernel.userPhys]
              omega
            · rw [Kernel.userPhys]
              omega
          · have hnone : pageWalk (k.phys t) t.pd .kernel (a + 0) = none := by
              rw [hwalk 0 (by omega), mapped_area harea (by omega), areaPhys, if_neg hpresent]
              rfl
            rw [walkRead_fails (by omega) hnone]
            exact if_neg hpresent

theorem TablesReady.write (h : TablesReady t pde m) {p : Nat} (hp : OffTables t p) (b : UInt8) :
    TablesReady t pde (m.writeBytes p [b]) := by
  refine h.congr fun x hx => Mem.writeBytes_of_outside ?_
  rw [OffTables] at hp
  rw [List.length_singleton]
  omega

/-- A user access reaches neither table, and a kernel access only at its own address. -/
theorem offTables_of_mapped {user : Bool} {p : Nat} (hframe : pde % 2 = 1 → addr8MB ≤ pdeBase pde)
    (hmapped : mapped pde user a = some p) (ha : user = true ∨ OffTables t a) : OffTables t p := by
  have hpd := t.pdInside
  have hpt := t.ptInside
  rw [mapped] at hmapped
  split_ifs at hmapped with hvideo hkernel huser hother
  · obtain rfl := Option.some.inj hmapped
    rw [videoEnd] at hvideo
    rw [addr4MB] at hpd hpt
    exact ⟨.inl (by omega), .inl (by omega)⟩
  · obtain rfl := Option.some.inj hmapped
    exact ha.resolve_left huser
  · have hhigh := hframe hother.2
    rw [← Option.some.inj hmapped]
    exact ⟨.inr (by omega), .inr (by omega)⟩

theorem phys_store_mem {p : Nat} {bs : List UInt8} (hp : videoEnd ≤ p)
    (hoff : p + bs.length ≤ t.pd + 4 * 0x20 ∨ t.pd + 4 * 0x20 + 4 ≤ p) :
    Kernel.phys t { k with mem := k.mem.writeBytes p bs } = (k.phys t).writeBytes p bs := by
  have hram : Kernel.ram { k with mem := k.mem.writeBytes p bs } = k.ram.writeBytes p bs := by
    funext x
    by_cases hvideo : videoMem ≤ x ∧ x < videoEnd
    · rw [Mem.writeBytes_of_outside (.inl (by omega)), Kernel.ram, Kernel.ram, if_pos hvideo, if_pos hvideo]
    · simp only [Kernel.ram, Mem.writeBytes, if_neg hvideo]
  rw [Kernel.phys, hram, Kernel.phys, Mem.store32, Mem.store32, Mem.writeBytes_comm]
  rwa [Mem.length_wordBytes]

theorem phys_store_video {bs : List UInt8} (hlow : videoMem ≤ a) (hhigh : a + bs.length ≤ videoEnd) :
    Kernel.phys t { k with console.video.vram := k.console.video.vram.writeBytes a bs } =
      (k.phys t).writeBytes a bs := by
  have hram : Kernel.ram { k with console.video.vram := k.console.video.vram.writeBytes a bs } =
      k.ram.writeBytes a bs := by
    funext x
    by_cases hvideo : videoMem ≤ x ∧ x < videoEnd
    · simp only [Kernel.ram, Mem.writeBytes, if_pos hvideo]
    · rw [Mem.writeBytes_of_outside (by omega), Kernel.ram, Kernel.ram, if_neg hvideo, if_neg hvideo]
  have hpd := t.pdInside
  have hend : videoEnd < addr4MB := by decide
  rw [Kernel.phys, hram, Kernel.phys, Mem.store32, Mem.store32, Mem.writeBytes_comm _ (.inl (by omega))]

theorem off_word (hpos : 0 < n) (hoff : ∀ i < n, OffTables t (a + i)) :
    a + n ≤ t.pd + 4 * 0x20 ∨ t.pd + 4 * 0x20 + 4 ≤ a := by
  by_contra hmeet
  have hat := (hoff (t.pd + 4 * 0x20 - a) (by omega)).1
  omega

/-- A store of the system calls that keeps off the tables is a store through them, and it leaves them in place. -/
theorem store_walks (h : Paged t k) {bs : List UInt8} (hend : a + bs.length ≤ 2 ^ 32)
    (hoff : ∀ i < bs.length, OffTables t (a + i)) :
    (∀ k', k.store a bs = .ok k' → walkWrite (k.phys t) t.pd .kernel a bs = some (k'.phys t) ∧ Paged t k') ∧
      ∀ fault, k.store a bs = .error fault → walkWrite (k.phys t) t.pd .kernel a bs = none := by
  have hwalk : ∀ m, TablesReady t k.pdUser m → ∀ i < bs.length,
      pageWalk m t.pd .kernel (a + i) = mapped k.pdUser false (a + i) := fun m hm i hi =>
    pageWalk_eq hm h.entry (by omega)
  have hkeep : ∀ m, ∀ i < bs.length, ∀ p b, TablesReady t k.pdUser m → pageWalk m t.pd .kernel (a + i) = some p →
      TablesReady t k.pdUser (m.writeBytes p [b]) := by
    intro m i hi p b hm hp
    rw [hwalk m hm i hi] at hp
    exact hm.write (offTables_of_mapped h.frame hp (.inr (hoff i hi))) b
  -- what a store into an area does, once the area's place in physical memory is known
  have hblock : ∀ area p k', areaOf a bs.length = some area → areaPhys k.pdUser a area = some p →
      k'.pdUser = k.pdUser → k'.phys t = (k.phys t).writeBytes p bs →
      walkWrite (k.phys t) t.pd .kernel a bs = some (k'.phys t) ∧ Paged t k' := by
    intro area p k' harea hp hpde hphys
    have hwrite : walkWrite (k.phys t) t.pd .kernel a bs = some (k'.phys t) := by
      rw [hphys]
      refine walkWrite_block (TablesReady t k.pdUser) (fun m hm i hi => ?_) (fun m b i hi hm => ?_) h.tables
      · rw [hwalk m hm i hi, mapped_area harea hi, hp, Option.map_some]
      · refine hkeep m i hi (p + i) b hm ?_
        rw [hwalk m hm i hi, mapped_area harea hi, hp, Option.map_some]
    have htables := walkWrite_invariant (TablesReady t k.pdUser) hkeep h.tables hwrite
    refine ⟨hwrite, ⟨?_, ?_, ?_⟩⟩
    · rw [hpde]
      exact htables
    · rw [hpde]
      exact h.entry
    · rw [hpde]
      exact h.frame
  have hfails : ∀ i < bs.length, mapped k.pdUser false (a + i) = none →
      walkWrite (k.phys t) t.pd .kernel a bs = none := by
    intro i hi hnone
    refine walkWrite_fails (TablesReady t k.pdUser) hi (fun m hm => ?_) (fun m j hj => hkeep m j (by omega)) h.tables
    rw [hwalk m hm i hi, hnone]
  rw [Kernel.store]
  by_cases hempty : bs.length = 0
  · rw [if_pos hempty, List.length_eq_zero_iff.mp hempty]
    refine ⟨fun k' hk' => ?_, fun fault hfault => by cases hfault⟩
    rw [← Except.ok.inj hk']
    exact ⟨rfl, h⟩
  rw [if_neg hempty]
  cases harea : areaOf a bs.length with
  | none =>
      obtain ⟨i, hi, hnone⟩ : ∃ i < bs.length, mapped k.pdUser false (a + i) = none :=
        exists_unmapped (Nat.pos_of_ne_zero hempty) harea
      exact ⟨fun k' hk' => (by cases hk'), fun _ _ => hfails i hi hnone⟩
  | some area =>
      cases area with
      | video =>
          obtain ⟨hlow, hhigh⟩ := areaOf_eq_video harea
          refine ⟨fun k' hk' => ?_, fun fault hfault => by cases hfault⟩
          obtain rfl := Except.ok.inj hk'
          exact hblock .video a _ harea rfl rfl (phys_store_video hlow hhigh)
      | kernel =>
          obtain ⟨hlow, -⟩ := areaOf_eq_kernel harea
          refine ⟨fun k' hk' => ?_, fun fault hfault => by cases hfault⟩
          obtain rfl := Except.ok.inj hk'
          have hvideo : videoEnd < addr4MB := by decide
          exact hblock .kernel a _ harea rfl rfl (phys_store_mem (by omega) (off_word (by omega) hoff))
      | user =>
          by_cases hpresent : k.pdUser % 2 = 1
          · have hframe := h.frame hpresent
            have hhigh := h.frame_high hpresent
            have hpd := t.pdInside
            have hphys : pdeBase k.pdUser ≤ k.userPhys a := Nat.le_add_right _ _
            simp only [if_pos hpresent]
            refine ⟨fun k' hk' => ?_, fun fault hfault => by cases hfault⟩
            obtain rfl := Except.ok.inj hk'
            exact hblock .user (k.userPhys a) _ harea (if_pos hpresent) rfl
              (phys_store_mem (by omega) (.inr (by omega)))
          · simp only [if_neg hpresent]
            refine ⟨fun k' hk' => (by cases hk'), fun _ _ => hfails 0 (by omega) ?_⟩
            rw [mapped_area harea (by omega), areaPhys, if_neg hpresent]
            rfl

end Refinement

/-! ### Marked tables -/

/-- Memory is the same apart from the marks of the processor in the entries of the tables. -/
structure SameButMarks (t : PageTables) (m m' : Mem) : Prop where
  off : ∀ x, OffTables t x → m' x = m x
  pd : ∀ i < 1024, Marked (m.load32 (t.pd + 4 * i)) (m'.load32 (t.pd + 4 * i))
  pt : ∀ i < 1024, Marked (m.load32 (t.pt + 4 * i)) (m'.load32 (t.pt + 4 * i))

/-- The address of an entry. -/
def HasEntry (t : PageTables) (addr : Nat) : Prop := ∃ i < 1024, addr = t.pd + 4 * i ∨ addr = t.pt + 4 * i

section Marks

variable {t : PageTables} {pde a : Nat} {m m' : Mem} {acc : Access}

theorem SameButMarks.refl (t : PageTables) (m : Mem) : SameButMarks t m m :=
  ⟨fun _ _ => rfl, fun _ _ => .refl _, fun _ _ => .refl _⟩

theorem load32_write_off {p addr : Nat} (hp : OffTables t p) (haddr : HasEntry t addr) (b : UInt8) :
    (m.writeBytes p [b]).load32 addr = m.load32 addr := by
  obtain ⟨i, hi, hentry⟩ := haddr
  refine Mem.load32_congr fun j hj => Mem.writeBytes_of_outside ?_
  rw [OffTables] at hp
  rw [List.length_singleton]
  omega

theorem SameButMarks.write (h : SameButMarks t m m') {p : Nat} (hp : OffTables t p) (b : UInt8) :
    SameButMarks t (m.writeBytes p [b]) (m'.writeBytes p [b]) where
  off x hx := by
    simp only [Mem.writeBytes]
    split_ifs
    · rfl
    · exact h.off x hx
  pd i hi := by
    have haddr : HasEntry t (t.pd + 4 * i) := ⟨i, hi, .inl rfl⟩
    rw [load32_write_off hp haddr, load32_write_off hp haddr]
    exact h.pd i hi
  pt i hi := by
    have haddr : HasEntry t (t.pt + 4 * i) := ⟨i, hi, .inr rfl⟩
    rw [load32_write_off hp haddr, load32_write_off hp haddr]
    exact h.pt i hi

theorem SameButMarks.mark (h : SameButMarks t m m') {addr bits : Nat} (haddr : HasEntry t addr)
    (hpresent : (m'.load32 addr).testBit 0 = true) (hbits : bits ∈ [0x20, 0x60]) :
    SameButMarks t m (m'.store32 addr (m'.load32 addr ||| bits)) := by
  have hapart := t.apart
  have hlt : m'.load32 addr ||| bits < 2 ^ 32 := by
    refine Nat.or_lt_two_pow (Mem.load32_lt _ _) ?_
    have hall : ∀ bits ∈ [0x20, 0x60], bits < 2 ^ 32 := by decide
    exact hall bits hbits
  -- the entry itself, and any other one
  have hword : ∀ other, HasEntry t other → Marked (m.load32 other) (m'.load32 other) →
      Marked (m.load32 other) ((m'.store32 addr (m'.load32 addr ||| bits)).load32 other) := by
    intro other hother hmarked
    by_cases heq : other = addr
    · subst heq
      rw [Mem.load32_store32_of_lt _ _ hlt]
      exact hmarked.mark hpresent hbits
    · have hpdAligned := t.pdAligned
      have hptAligned := t.ptAligned
      obtain ⟨i, hi, hat⟩ := haddr
      obtain ⟨j, hj, hat'⟩ := hother
      rw [Mem.load32_store32_of_ne _ (by omega)]
      exact hmarked
  refine ⟨fun x hx => ?_, fun i hi => hword _ ⟨i, hi, .inl rfl⟩ (h.pd i hi),
    fun i hi => hword _ ⟨i, hi, .inr rfl⟩ (h.pt i hi)⟩
  rw [Mem.store32_of_outside _ ?_, h.off x hx]
  obtain ⟨i, hi, hat⟩ := haddr
  rw [OffTables] at hx
  omega

theorem SameButMarks.setUserPage (h : SameButMarks t m m') (base : Nat) :
    SameButMarks t (t.setUserPage m base) (t.setUserPage m' base) := by
  have hapart := t.apart
  refine ⟨fun x hx => ?_, fun i hi => ?_, fun i hi => ?_⟩
  · rw [OffTables] at hx
    rw [PageTables.setUserPage, PageTables.setUserPage, Mem.store32_of_outside _ (by omega),
      Mem.store32_of_outside _ (by omega)]
    exact h.off x hx
  · by_cases huser : i = 0x20
    · rw [huser, PageTables.setUserPage, PageTables.setUserPage, Mem.load32_store32, Mem.load32_store32]
      exact .refl _
    · rw [PageTables.setUserPage, PageTables.setUserPage, Mem.load32_store32_of_ne _ (by omega),
        Mem.load32_store32_of_ne _ (by omega)]
      exact h.pd i hi
  · rw [PageTables.setUserPage, PageTables.setUserPage, Mem.load32_store32_of_ne _ (by omega),
      Mem.load32_store32_of_ne _ (by omega)]
    exact h.pt i hi

theorem SameButMarks.walk (h : SameButMarks t m m') (hready : TablesReady t pde m) (hentry : UserEntry pde)
    (ha : a < 2 ^ 32) : pageWalk m' t.pd acc a = pageWalk m t.pd acc a := by
  refine pageWalk_marked (load32_pde rfl) (load32_pde rfl) (h.pd _ (by omega)) fun hallows hsmall => ?_
  -- the only directory entry that leads to a page table is the first one
  have hzero : a / 2 ^ 22 = 0 := by
    by_contra hne
    by_cases h1 : a / 2 ^ 22 = 1
    · rw [h1, hready.kernel] at hsmall
      exact absurd hsmall (by decide)
    by_cases h32 : a / 2 ^ 22 = 0x20
    · rw [h32, hready.user] at hallows hsmall
      rcases hentry with rfl | ⟨base, rfl⟩
      · rw [entryAllows_absent] at hallows
        cases hallows
      · rw [init4mbUserPde_eq, testBit_entry (by omega) (by omega)] at hsmall
        exact absurd hsmall (by decide)
    · rw [hready.others _ (by omega) hne h1 h32, entryAllows_absent] at hallows
      cases hallows
  have hpt : (t.pt + 7) / 2 ^ 12 * 2 ^ 12 = t.pt := by have := t.ptAligned; omega
  rw [hzero, hready.low, hpt]
  exact h.pt _ (by omega)

theorem SameButMarks.walkRead (h : SameButMarks t m m') (hready : TablesReady t pde m) (hentry : UserEntry pde)
    (hframe : pde % 2 = 1 → addr8MB ≤ pdeBase pde) {n : Nat} (hend : a + n ≤ 2 ^ 32)
    (hoff : ∀ i < n, OffTables t (a + i)) :
    UnixOs.walkRead m' t.pd .kernel a n = UnixOs.walkRead m t.pd .kernel a n := by
  induction n generalizing a with
  | zero => rfl
  | succ n ih =>
      have hwalk : pageWalk m' t.pd .kernel a = pageWalk m t.pd .kernel a := h.walk hready hentry (by omega)
      have hrest := ih (a := a + 1) (by omega) fun i hi => by
        rw [Nat.add_assoc, Nat.add_comm 1 i]
        exact hoff (i + 1) (Nat.succ_lt_succ hi)
      rw [UnixOs.walkRead, UnixOs.walkRead, hwalk, hrest]
      cases hp : pageWalk m t.pd .kernel a with
      | none => rfl
      | some p =>
          rw [pageWalk_eq hready hentry (by omega)] at hp
          have hfirst := hoff 0 (Nat.succ_pos n)
          rw [Nat.add_zero] at hfirst
          have hbyte := h.off p (offTables_of_mapped hframe hp (.inr hfirst))
          rw [Option.bind_eq_bind, Option.bind_some, Option.bind_eq_bind, Option.bind_some, hbyte]

theorem SameButMarks.walkWrite (h : SameButMarks t m m') (hready : TablesReady t pde m) (hentry : UserEntry pde)
    (hframe : pde % 2 = 1 → addr8MB ≤ pdeBase pde) {bs : List UInt8} (hend : a + bs.length ≤ 2 ^ 32)
    (hoff : ∀ i < bs.length, OffTables t (a + i)) :
    Option.Rel (SameButMarks t) (UnixOs.walkWrite m t.pd .kernel a bs) (UnixOs.walkWrite m' t.pd .kernel a bs) := by
  induction bs generalizing m m' a with
  | nil => exact .some h
  | cons b bs ih =>
      rw [List.length_cons] at hend hoff
      have hwalk : pageWalk m' t.pd .kernel a = pageWalk m t.pd .kernel a := h.walk hready hentry (by omega)
      rw [UnixOs.walkWrite, UnixOs.walkWrite, hwalk]
      cases hp : pageWalk m t.pd .kernel a with
      | none => exact .none
      | some p =>
          rw [pageWalk_eq hready hentry (by omega)] at hp
          have hfirst := hoff 0 (Nat.succ_pos bs.length)
          rw [Nat.add_zero] at hfirst
          have hp' := offTables_of_mapped hframe hp (.inr hfirst)
          refine ih (h.write hp' b) (hready.write hp' b) (by omega) fun i hi => ?_
          rw [Nat.add_assoc, Nat.add_comm 1 i]
          exact hoff (i + 1) (Nat.succ_lt_succ hi)

end Marks

/-! ### Runs -/

/-- What the kernel does with memory: loads and stores, with the faults they end in, and entering a process's frame.
The processor marks entries besides. -/
inductive MemEvent where
  | load (a : Nat) (bs : List UInt8)
  | loadFault (a n : Nat)
  | store (a : Nat) (bs : List UInt8)
  | storeFault (a : Nat) (bs : List UInt8)
  | enter (pid : Nat)
  | mark

def MemEvent.ofKernel : MemEvent → Bool
  | .mark => false
  | _ => true

/-- A range of 32-bit addresses off the tables. -/
def FreeRange (t : PageTables) (a n : Nat) : Prop := a + n ≤ 2 ^ 32 ∧ ∀ i < n, OffTables t (a + i)

/-- The accesses that keep off the tables. -/
def MemEvent.KeepsOff (t : PageTables) : MemEvent → Prop
  | .load a bs => FreeRange t a bs.length
  | .loadFault a n => FreeRange t a n
  | .store a bs => FreeRange t a bs.length
  | .storeFault a bs => FreeRange t a bs.length
  | _ => True

/-- The memory of the system calls. After a page fault nothing runs any more, as `idt_handler` spins. -/
inductive KernelMemStep : Option Kernel → MemEvent → Option Kernel → Prop
  | load {k : Kernel} {a : Nat} {bs : List UInt8} (hload : k.fetch a bs.length = .ok bs) :
      KernelMemStep (some k) (.load a bs) (some k)
  | loadFault {k : Kernel} {a n : Nat} {fault : Fault} (hload : k.fetch a n = .error fault) :
      KernelMemStep (some k) (.loadFault a n) none
  | store {k k' : Kernel} {a : Nat} {bs : List UInt8} (hstore : k.store a bs = .ok k') :
      KernelMemStep (some k) (.store a bs) (some k')
  | storeFault {k : Kernel} {a : Nat} {bs : List UInt8} {fault : Fault} (hstore : k.store a bs = .error fault) :
      KernelMemStep (some k) (.storeFault a bs) none
  | enter (k : Kernel) {pid : Nat} (hone : 1 ≤ pid) (hmax : pid ≤ maxProcesses) :
      KernelMemStep (some k) (.enter pid) (some { k with pdUser := init4mbUserPde (frameBase pid) })

/-- The processor's memory, through the tables that are in it. -/
inductive WalkStep (t : PageTables) : Option Mem → MemEvent → Option Mem → Prop
  | load {m : Mem} {a : Nat} {bs : List UInt8} (hload : walkRead m t.pd .kernel a bs.length = some bs) :
      WalkStep t (some m) (.load a bs) (some m)
  | loadFault {m : Mem} {a n : Nat} (hload : walkRead m t.pd .kernel a n = none) :
      WalkStep t (some m) (.loadFault a n) none
  | store {m m' : Mem} {a : Nat} {bs : List UInt8} (hstore : walkWrite m t.pd .kernel a bs = some m') :
      WalkStep t (some m) (.store a bs) (some m')
  | storeFault {m : Mem} {a : Nat} {bs : List UInt8} (hstore : walkWrite m t.pd .kernel a bs = none) :
      WalkStep t (some m) (.storeFault a bs) none
  | enter (m : Mem) {pid : Nat} (hone : 1 ≤ pid) (hmax : pid ≤ maxProcesses) :
      WalkStep t (some m) (.enter pid) (some (t.setUserPage m (frameBase pid)))
  | mark {m : Mem} {addr bits : Nat} (hentry : HasEntry t addr) (hpresent : (m.load32 addr).testBit 0 = true)
      (hbits : bits ∈ [0x20, 0x60]) :
      WalkStep t (some m) .mark (some (m.store32 addr (m.load32 addr ||| bits)))

/-- The processor's memory is the one of the system calls, apart from marks in the tables. -/
structure Realizes (t : PageTables) (k : Kernel) (m : Mem) : Prop where
  paged : Paged t k
  same : SameButMarks t (k.phys t) m

section Runs

variable {t : PageTables} {k : Kernel} {m : Mem} {es : List MemEvent}

theorem pdeBase_frame {pid : Nat} (hmax : pid ≤ maxProcesses) :
    pdeBase (init4mbUserPde (frameBase pid)) = frameBase pid :=
  pdeBase_init4mbUserPde hmax

theorem phys_enter (k : Kernel) (base : Nat) :
    Kernel.phys t { k with pdUser := init4mbUserPde base } = t.setUserPage (k.phys t) base := by
  have hram : Kernel.ram { k with pdUser := init4mbUserPde base } = k.ram := by
    funext x
    simp only [Kernel.ram]
  calc Kernel.phys t { k with pdUser := init4mbUserPde base }
      = (Kernel.ram { k with pdUser := init4mbUserPde base }).store32 (t.pd + 4 * 0x20) (init4mbUserPde base) := rfl
    _ = k.ram.store32 (t.pd + 4 * 0x20) (init4mbUserPde base) := by rw [hram]
    _ = (k.ram.store32 (t.pd + 4 * 0x20) k.pdUser).store32 (t.pd + 4 * 0x20) (init4mbUserPde base) :=
        (Mem.store32_store32 _ _ _ _).symm
    _ = t.setUserPage (k.phys t) base := rfl

theorem Paged.enter (h : Paged t k) {pid : Nat} (hone : 1 ≤ pid) (hmax : pid ≤ maxProcesses) :
    Paged t { k with pdUser := init4mbUserPde (frameBase pid) } := by
  refine ⟨?_, .inr ⟨frameBase pid, rfl⟩, fun _ => ?_⟩
  · rw [phys_enter]
    exact h.tables.setUserPage (frameBase pid)
  · obtain ⟨p, rfl⟩ : ∃ p, pid = p + 1 := ⟨pid - 1, by omega⟩
    rw [pdeBase_frame hmax]
    exact addr8MB_le_frameBase p

/-- A step of the processor is one of the system calls' memory, or a mark, which that one does not see. -/
theorem WalkStep.refines {e : MemEvent} {s : Option Mem} (h : Realizes t k m) (hoff : e.KeepsOff t)
    (hstep : WalkStep t (some m) e s) :
    ∃ s', (if e.ofKernel then KernelMemStep (some k) e s' else s' = some k) ∧ Option.Rel (Realizes t) s' s := by
  obtain ⟨hpaged, hsame⟩ := h
  cases hstep with
  | @load _ a bs hload =>
      have hfetch := fetch_walks hpaged hoff.1 hoff.2
      rw [hsame.walkRead hpaged.tables hpaged.entry hpaged.frame hoff.1 hoff.2] at hload
      rw [hload] at hfetch
      exact ⟨some k, .load hfetch, .some ⟨hpaged, hsame⟩⟩
  | @loadFault _ a n hload =>
      have hfetch := fetch_walks hpaged hoff.1 hoff.2
      rw [hsame.walkRead hpaged.tables hpaged.entry hpaged.frame hoff.1 hoff.2] at hload
      rw [hload] at hfetch
      exact ⟨none, .loadFault hfetch, .none⟩
  | @store _ m' a bs hstore =>
      have hrel := hsame.walkWrite hpaged.tables hpaged.entry hpaged.frame hoff.1 hoff.2
      obtain ⟨hok, herror⟩ := store_walks hpaged hoff.1 hoff.2
      rw [hstore] at hrel
      cases hcall : k.store a bs with
      | error fault =>
          rw [herror fault hcall] at hrel
          cases hrel
      | ok k' =>
          obtain ⟨hwrite, hpaged'⟩ := hok k' hcall
          rw [hwrite] at hrel
          cases hrel with
          | some hsame' => exact ⟨some k', .store hcall, .some ⟨hpaged', hsame'⟩⟩
  | @storeFault _ a bs hstore =>
      have hrel := hsame.walkWrite hpaged.tables hpaged.entry hpaged.frame hoff.1 hoff.2
      obtain ⟨hok, herror⟩ := store_walks hpaged hoff.1 hoff.2
      rw [hstore] at hrel
      cases hcall : k.store a bs with
      | error fault => exact ⟨none, .storeFault hcall, .none⟩
      | ok k' =>
          rw [(hok k' hcall).1] at hrel
          cases hrel
  | @enter _ pid hone hmax =>
      refine ⟨_, .enter k hone hmax, .some ⟨hpaged.enter hone hmax, ?_⟩⟩
      rw [phys_enter]
      exact hsame.setUserPage (frameBase pid)
  | mark hentry hpresent hbits => exact ⟨some k, rfl, .some ⟨hpaged, hsame.mark hentry hpresent hbits⟩⟩

/-- The memory that the system calls are modelled on is the processor's: every run of loads, stores and frame
switches through the page tables, with marks set in them at any time, is a run of that memory with the same results
and the same fault, and ends in the same physical memory apart from the marks. -/
theorem memory_refines_paging (hstart : Realizes t k m) {s : Option Mem} (hrun : Run (WalkStep t) (some m) es s)
    (hoff : ∀ e ∈ es, e.KeepsOff t) :
    ∃ s', Run KernelMemStep (some k) (es.filter MemEvent.ofKernel) s' ∧ Option.Rel (Realizes t) s' s := by
  induction hrun with
  | nil => exact ⟨some k, .nil, .some hstart⟩
  | @snoc es s₁ s₂ e _ hlast ih =>
      obtain ⟨s', hrun', hrel⟩ := ih fun e he => hoff e (List.mem_append_left _ he)
      have hlastOff := hoff e (List.mem_append_right _ List.mem_cons_self)
      cases hrel with
      | none => cases hlast
      | some hrep =>
          obtain ⟨s'', hstep, hrel'⟩ := hlast.refines hrep hlastOff
          refine ⟨s'', ?_, hrel'⟩
          rw [List.filter_append]
          cases hkind : e.ofKernel with
          | true =>
              rw [hkind, if_pos rfl] at hstep
              rw [List.filter_cons_of_pos hkind]
              exact hrun'.snoc hstep
          | false =>
              rw [hkind, if_neg Bool.false_ne_true] at hstep
              rw [List.filter_cons_of_neg (by rw [hkind]; exact Bool.false_ne_true), List.filter_nil, List.append_nil,
                hstep]
              exact hrun'

theorem paged_initPage {m : Mem} {regs : ControlRegs} (hmem : k.mem = (t.initPage m regs).1) (hpde : k.pdUser = 0x2) :
    Paged t k := by
  refine ⟨?_, .inl hpde, fun hpresent => ?_⟩
  · have hready := initPage_ready t m regs
    have hpd := t.pdInside
    have hpt := t.ptInside
    have hvideo : videoEnd < addr4MB := by decide
    have hram : TablesReady t 0x2 k.ram := hready.congr fun x hx => by
      rw [Kernel.ram, if_neg (by omega), hmem]
    rw [Kernel.phys, hpde]
    exact hram.setUser (by decide)
  · rw [hpde] at hpresent
    exact absurd hpresent (by decide)

/-- Tables at the start of the kernel's page. -/
def sampleTables : PageTables where
  pd := 0x408000
  pt := 0x409000
  pdAligned := by decide
  ptAligned := by decide
  pdInside := by decide
  ptInside := by decide
  apart := by decide

def sampleRegs : ControlRegs := ⟨0x11, 0, 0⟩

/-- The sample kernel with the tables of `init_page` in its memory. -/
def bootedKernel : Kernel :=
  { sampleKernel with mem := (sampleTables.initPage (fun _ => 0) sampleRegs).1, pdUser := 0x2 }

/-- A frame is entered, a byte of it stored, and the entry marked. -/
theorem memory_refines_paging_store : ∃ m s', Run (WalkStep sampleTables) (some (bootedKernel.phys sampleTables))
      [.enter 1, .store 0x8048000 [0x7F], .mark] (some m) ∧
    Run KernelMemStep (some bootedKernel) [.enter 1, .store 0x8048000 [0x7F]] s' ∧
      Option.Rel (Realizes sampleTables) s' (some m) := by
  have hmem : bootedKernel.mem = (sampleTables.initPage (fun _ => 0) sampleRegs).1 := rfl
  have hpaged : Paged sampleTables bootedKernel := paged_initPage hmem rfl
  have hentered := hpaged.enter (show 1 ≤ 1 from le_rfl) (by decide)
  have hoff : ∀ i < 1, OffTables sampleTables (0x8048000 + i) := fun i _ =>
    offTables_of_high (show addr8MB ≤ 0x8048000 + i from Nat.le_add_right_of_le (by decide))
  have hstore := store_user { bootedKernel with pdUser := init4mbUserPde (frameBase 1) } (a := 0x8048000) [0x7F]
    (by decide) (by decide) (by decide)
  obtain ⟨hwrite, hstored⟩ := (store_walks hentered (show 0x8048000 + [(0x7F : UInt8)].length ≤ 2 ^ 32 by decide)
    hoff).1 _ hstore
  rw [phys_enter] at hwrite
  have hpresent := hstored.tables.user
  have hrun := ((Run.nil.snoc (WalkStep.enter (t := sampleTables) (bootedKernel.phys sampleTables)
    (show 1 ≤ 1 from le_rfl) (by decide))).snoc (.store hwrite)).snoc (.mark ⟨0x20, by decide, .inl rfl⟩
      (by rw [hpresent]; decide) (show 0x60 ∈ [0x20, 0x60] by decide))
  obtain ⟨s', hkernel, hrel⟩ := memory_refines_paging ⟨hpaged, .refl _ _⟩ hrun fun e he => by
    simp only [List.nil_append, List.cons_append, List.mem_cons, List.not_mem_nil, or_false] at he
    rcases he with rfl | rfl | rfl
    · trivial
    · exact ⟨by decide, hoff⟩
    · trivial
  exact ⟨_, s', hrun, hkernel, hrel⟩

end Runs

/-! ### User programs -/

/-- A byte that a process stores, the switch to another one, and a mark of the processor. -/
inductive PageEvent where
  | store (pid a : Nat) (b : UInt8)
  | enter (pid : Nat)
  | mark

def PageEvent.ofProgram : PageEvent → Bool
  | .mark => false
  | _ => true

/-- Stores of the process whose frame is entered, in user mode, and switches, as the processor makes them. -/
inductive UserPageStep (t : PageTables) : Mem → PageEvent → Mem → Prop
  | store {m : Mem} {pid a p : Nat} (b : UInt8) (hone : 1 ≤ pid) (hmax : pid ≤ maxProcesses)
      (hentered : Marked (init4mbUserPde (frameBase pid)) (m.load32 (t.pd + 4 * 0x20))) (ha : a < 2 ^ 32)
      (hwalk : pageWalk m t.pd .userWrite a = some p) : UserPageStep t m (.store pid a b) (m.writeBytes p [b])
  | enter (m : Mem) {pid : Nat} (hone : 1 ≤ pid) (hmax : pid ≤ maxProcesses) :
      UserPageStep t m (.enter pid) (t.setUserPage m (frameBase pid))
  | mark {m : Mem} {addr bits : Nat} (hentry : HasEntry t addr) (hpresent : (m.load32 addr).testBit 0 = true)
      (hbits : bits ∈ [0x20, 0x60]) : UserPageStep t m .mark (m.store32 addr (m.load32 addr ||| bits))

/-- The same without the marks. -/
inductive PageStep (t : PageTables) : Mem → PageEvent → Mem → Prop
  | store {m : Mem} {pid a p : Nat} (b : UInt8) (hone : 1 ≤ pid) (hmax : pid ≤ maxProcesses)
      (hentered : m.load32 (t.pd + 4 * 0x20) = init4mbUserPde (frameBase pid)) (ha : a < 2 ^ 32)
      (hwalk : pageWalk m t.pd .userWrite a = some p) : PageStep t m (.store pid a b) (m.writeBytes p [b])
  | enter (m : Mem) {pid : Nat} (hone : 1 ≤ pid) (hmax : pid ≤ maxProcesses) :
      PageStep t m (.enter pid) (t.setUserPage m (frameBase pid))

/-- The tables, with the frame of a process entered or none. -/
def FrameEntered (t : PageTables) (m : Mem) : Prop :=
  ∃ pde, TablesReady t pde m ∧ (pde = 0x2 ∨ ∃ pid, 1 ≤ pid ∧ pid ≤ maxProcesses ∧ pde = init4mbUserPde (frameBase pid))

/-- Where a step can change memory: in the video pages, in the user entry, and in the frame of the process that
stores. -/
def Touches (t : PageTables) (e : PageEvent) (x : Nat) : Prop :=
  (videoMem ≤ x ∧ x < videoEnd) ∨ (t.pd + 4 * 0x20 ≤ x ∧ x < t.pd + 4 * 0x20 + 4) ∨
    ∃ pid a b, e = .store pid a b ∧ 1 ≤ pid ∧ frameBase pid ≤ x ∧ x < frameBase (pid + 1)

section Users

variable {t : PageTables} {m m' : Mem} {e : PageEvent}

theorem FrameEntered.entry {pde : Nat}
    (h : pde = 0x2 ∨ ∃ pid, 1 ≤ pid ∧ pid ≤ maxProcesses ∧ pde = init4mbUserPde (frameBase pid)) :
    UserEntry pde ∧ (pde % 2 = 1 → addr8MB ≤ pdeBase pde) := by
  rcases h with rfl | ⟨pid, hone, hmax, rfl⟩
  · exact ⟨.inl rfl, fun hodd => absurd hodd (by decide)⟩
  · refine ⟨.inr ⟨_, rfl⟩, fun _ => ?_⟩
    obtain ⟨p, rfl⟩ : ∃ p, pid = p + 1 := ⟨pid - 1, by omega⟩
    rw [pdeBase_frame hmax]
    exact addr8MB_le_frameBase p

theorem PageStep.frameEntered (h : FrameEntered t m) (hstep : PageStep t m e m') : FrameEntered t m' := by
  obtain ⟨pde, htables, hpde⟩ := h
  obtain ⟨hentry, hframe⟩ := FrameEntered.entry hpde
  cases hstep with
  | store b hone hmax hentered ha hwalk =>
      rw [pageWalk_eq htables hentry ha] at hwalk
      exact ⟨pde, htables.write (offTables_of_mapped hframe hwalk (.inl rfl)) b, hpde⟩
  | enter hone hmax => exact ⟨_, htables.setUserPage _, .inr ⟨_, hone, hmax, rfl⟩⟩

theorem PageStep.touches (h : FrameEntered t m) (hstep : PageStep t m e m') {x : Nat} (hx : ¬ Touches t e x) :
    m' x = m x := by
  obtain ⟨pde, htables, hpde⟩ := h
  obtain ⟨hentry, hframe⟩ := FrameEntered.entry hpde
  rw [Touches, not_or, not_or] at hx
  cases hstep with
  | @store pid a p b hone hmax hentered ha hwalk =>
      rw [pageWalk_eq htables hentry ha] at hwalk
      have hsame : pde = init4mbUserPde (frameBase pid) := htables.user.symm.trans hentered
      have hne : x ≠ p := by
        rintro rfl
        rw [mapped] at hwalk
        split_ifs at hwalk with hvideo hkernel huser
        · obtain rfl := Option.some.inj hwalk
          exact hx.1 hvideo
        · exact absurd rfl huser
        · rw [hsame, pdeBase_frame hmax] at hwalk
          have hp := Option.some.inj hwalk
          have hnext : frameBase (pid + 1) = frameBase pid + addr4MB := by
            rw [frameBase, frameBase]
            ring
          exact hx.2.2 ⟨pid, a, b, rfl, hone, by omega, by omega⟩
      exact Mem.writeBytes_of_outside (by rw [List.length_singleton]; omega)
  | enter hone hmax => exact Mem.store32_of_outside _ (by omega)

theorem PageStep.run {es : List PageEvent} (h : FrameEntered t m) (hrun : Run (PageStep t) m es m') :
    FrameEntered t m' ∧ ∀ x, (∀ e ∈ es, ¬ Touches t e x) → m' x = m x := by
  induction hrun with
  | nil => exact ⟨h, fun _ _ => rfl⟩
  | @snoc es mid m' e _ hstep ih =>
      refine ⟨hstep.frameEntered ih.1, fun x hx => ?_⟩
      rw [hstep.touches ih.1 (hx e (List.mem_append_right _ List.mem_cons_self))]
      exact ih.2 x fun e he => hx e (List.mem_append_left _ he)

/-- Two entries without marks that one entry is a mark of. -/
theorem Marked.unique {pid pid' e : Nat} (h : Marked (init4mbUserPde (frameBase pid)) e)
    (h' : Marked (init4mbUserPde (frameBase pid')) e) (hmax : pid ≤ maxProcesses) (hmax' : pid' ≤ maxProcesses) :
    pid = pid' := by
  have hbase := (h.base (n := 22) (by decide)).symm.trans (h'.base (by decide))
  have hframe : pdeBase (init4mbUserPde (frameBase pid)) = pdeBase (init4mbUserPde (frameBase pid')) := by
    rw [pdeBase, pdeBase, hbase]
  rw [pdeBase_frame hmax, pdeBase_frame hmax'] at hframe
  simp only [frameBase, addr4MB] at hframe
  omega

/-- A step of the processor is one without marks, or a mark. -/
theorem UserPageStep.unmarked {c : Mem} (hframe : FrameEntered t c) (hsame : SameButMarks t c m)
    (hstep : UserPageStep t m e m') :
    ∃ c', (if e.ofProgram then PageStep t c e c' else c' = c) ∧ SameButMarks t c' m' := by
  obtain ⟨pde, htables, hpde⟩ := hframe
  obtain ⟨hentry, hhigh⟩ := FrameEntered.entry hpde
  cases hstep with
  | @store pid a p b hone hmax hentered ha hwalk =>
      rw [hsame.walk htables hentry ha] at hwalk
      -- the entry without its marks is that of the process
      have hclean : c.load32 (t.pd + 4 * 0x20) = init4mbUserPde (frameBase pid) := by
        have hmarked := hsame.pd 0x20 (by decide)
        rw [htables.user] at hmarked ⊢
        rcases hpde with rfl | ⟨pid', -, hmax', rfl⟩
        · rw [hmarked.resolve_right fun hset => absurd hset.1 (by decide)] at hentered
          exact absurd (hentered.flag (i := 0) (by decide)) (by rw [init4mbUserPde_eq, testBit_entry] <;> decide)
        · rw [Marked.unique hmarked hentered hmax' hmax]
      have hoff : OffTables t p := by
        have hp := hwalk
        rw [pageWalk_eq htables hentry ha] at hp
        exact offTables_of_mapped hhigh hp (.inl rfl)
      exact ⟨_, .store b hone hmax hclean ha hwalk, hsame.write hoff b⟩
  | enter hone hmax => exact ⟨_, .enter c hone hmax, hsame.setUserPage _⟩
  | mark hat hpresent hbits => exact ⟨c, rfl, hsame.mark hat hpresent hbits⟩

theorem UserPageStep.run {es : List PageEvent} (h : FrameEntered t m) (hrun : Run (UserPageStep t) m es m') :
    ∃ c, Run (PageStep t) m (es.filter PageEvent.ofProgram) c ∧ SameButMarks t c m' := by
  induction hrun with
  | nil => exact ⟨m, .nil, .refl t m⟩
  | @snoc es m₁ m₂ e _ hlast ih =>
      obtain ⟨c, hclean, hsame⟩ := ih
      obtain ⟨c', hstep, hsame'⟩ := hlast.unmarked (PageStep.run h hclean).1 hsame
      refine ⟨c', ?_, hsame'⟩
      rw [List.filter_append]
      cases hkind : e.ofProgram with
      | true =>
          rw [hkind, if_pos rfl] at hstep
          rw [List.filter_cons_of_pos hkind]
          exact hclean.snoc hstep
      | false =>
          rw [hkind, if_neg Bool.false_ne_true] at hstep
          rw [List.filter_cons_of_neg (by rw [hkind]; exact Bool.false_ne_true), List.filter_nil, List.append_nil,
            hstep]
          exact hclean

/-- User programs are kept apart: whatever processes store in user mode, in whatever order they are switched, nothing
in the kernel's page changes but the entry for the user page and the marks that the processor sets in the entries of
the tables, a process's frame changes only by its own stores, and the kernel's page stays out of reach of user mode. -/
theorem user_pages_isolated {regs : ControlRegs} {es : List PageEvent}
    (hrun : Run (UserPageStep t) (t.initPage m regs).1 es m') :
    (∀ x, addr4MB ≤ x → x < addr8MB → OffTables t x → m' x = (t.initPage m regs).1 x) ∧
      (∀ addr, HasEntry t addr → addr ≠ t.pd + 4 * 0x20 →
        Marked ((t.initPage m regs).1.load32 addr) (m'.load32 addr)) ∧
      (∀ pid, 1 ≤ pid → (∀ a b, .store pid a b ∉ es) → ∀ x, frameBase pid ≤ x → x < frameBase (pid + 1) →
        m' x = (t.initPage m regs).1 x) ∧
      ∀ a, addr4MB ≤ a → a < addr8MB → ∀ write, pageWalk m' t.pd ⟨true, write⟩ a = none := by
  have hinit : FrameEntered t (t.initPage m regs).1 := ⟨_, initPage_ready t m regs, .inl rfl⟩
  obtain ⟨c, hclean, hmarks⟩ := UserPageStep.run hinit hrun
  obtain ⟨⟨pde, htables, hpde⟩, hsame⟩ := PageStep.run hinit hclean
  have hvideo : videoEnd < addr4MB := by decide
  have hpd := t.pdInside
  have hpt := t.ptInside
  have hlower : ∀ pid, 1 ≤ pid → addr8MB ≤ frameBase pid := by
    intro pid hone
    obtain ⟨p, rfl⟩ : ∃ p, pid = p + 1 := ⟨pid - 1, by omega⟩
    exact addr8MB_le_frameBase p
  -- in the kernel's page only the user entry is touched
  have hkernel : ∀ x, addr4MB ≤ x → x < addr8MB → x < t.pd + 4 * 0x20 ∨ t.pd + 4 * 0x20 + 4 ≤ x →
      c x = (t.initPage m regs).1 x := by
    intro x hlow hhigh hoff
    refine hsame x ?_
    rintro e - (hin | hin | ⟨pid, a, b, rfl, hone, hframe, -⟩)
    · omega
    · omega
    · have hhigher := hlower pid hone
      omega
  refine ⟨fun x hlow hhigh hoff => ?_, fun addr haddr hne => ?_, fun pid hone hnot x hlow hhigh => ?_,
    fun a hlow hhigh write => ?_⟩
  · rw [hmarks.off x hoff, hkernel x hlow hhigh]
    rw [OffTables] at hoff
    omega
  · obtain ⟨i, hi, hat⟩ := haddr
    have hapart := t.apart
    have hword : c.load32 addr = (t.initPage m regs).1.load32 addr :=
      Mem.load32_congr fun j hj => hkernel _ (by omega) (by omega) (by omega)
    rw [← hword]
    rcases hat with rfl | rfl
    · exact hmarks.pd i hi
    · exact hmarks.pt i hi
  · have hhigher := hlower pid hone
    rw [hmarks.off x (offTables_of_high (hhigher.trans hlow))]
    refine hsame x ?_
    rintro e he (hin | hin | ⟨pid', a, b, rfl, -, hframe, hframe'⟩)
    · omega
    · omega
    · obtain rfl : pid' = pid := by
        simp only [frameBase, addr4MB] at hlow hhigh hframe hframe'
        omega
      exact hnot a b (List.mem_filter.mp he).1
  · have hlt : a < 2 ^ 32 := hhigh.trans (by decide)
    have hentry := (FrameEntered.entry hpde).1
    rw [hmarks.walk htables hentry hlt, pageWalk_eq htables hentry hlt, mapped_kernel hlow hhigh]
    rfl

/-- The first process stores a byte: the second one's frame is as before. -/
theorem user_pages_isolated_first : ∃ m', Run (UserPageStep sampleTables) (sampleTables.initPage (fun _ => 0) sampleRegs).1
    [.enter 1, .mark, .store 1 0x8000000 0x2A] m' ∧
      ∀ x, frameBase 2 ≤ x → x < frameBase 3 → m' x = (sampleTables.initPage (fun _ => 0) sampleRegs).1 x := by
  have hready := (initPage_ready sampleTables (fun _ => 0) sampleRegs).setUserPage (frameBase 1)
  have hentry : UserEntry (init4mbUserPde (frameBase 1)) := .inr ⟨_, rfl⟩
  have hat : HasEntry sampleTables (sampleTables.pd + 4 * 0x20) := ⟨0x20, by decide, .inl rfl⟩
  have henter := Run.nil.snoc (UserPageStep.enter (t := sampleTables) (sampleTables.initPage (fun _ => 0) sampleRegs).1
    (show 1 ≤ 1 from le_rfl) (by decide))
  generalize sampleTables.setUserPage (sampleTables.initPage (fun _ => 0) sampleRegs).1 (frameBase 1) = m at *
  have hpresent : (m.load32 (sampleTables.pd + 4 * 0x20)).testBit 0 = true := by
    rw [hready.user]
    decide
  have hsame := (SameButMarks.refl sampleTables m).mark hat hpresent (show 0x60 ∈ [0x20, 0x60] by decide)
  have hmarked := henter.snoc (.mark hat hpresent (show 0x60 ∈ [0x20, 0x60] by decide))
  generalize m.store32 (sampleTables.pd + 4 * 0x20) (m.load32 (sampleTables.pd + 4 * 0x20) ||| 0x60) = m₁ at *
  have hwalk : pageWalk m₁ sampleTables.pd .userWrite 0x8000000 = some (frameBase 1) := by
    rw [hsame.walk hready hentry (by decide), pageWalk_eq hready hentry (by decide), mapped_user (by decide) (by decide)]
    decide
  have hentered := hsame.pd 0x20 (by decide)
  rw [hready.user] at hentered
  have hrun := hmarked.snoc (.store 0x2A (by decide) (by decide) hentered (by decide) hwalk)
  exact ⟨_, hrun, fun x => (user_pages_isolated hrun).2.2.1 2 (by decide) (by simp) x⟩

end Users

end UnixOs
