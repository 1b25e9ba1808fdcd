import UnixOs.DescriptorTable

/-! Runs of the descriptor system calls. Their labels are calls with what they returned, so the run of
the kernel and the run of the abstract table make the same calls with the same results. -/

namespace UnixOs

variable {fops : FopsTables} {fs : FileSys} {k k' : Kernel} {t : Nat → Option Nat}

theorem bind_eq_error {ε α β : Type} {x : Except ε α} {f : α → Except ε β} {e : ε}
    (h : x >>= f = .error e) : x = .error e ∨ ∃ a, x = .ok a ∧ f a = .error e := by
  cases x with
  | error e' =>
      cases h
      exact .inl rfl
  | ok a => exact .inr ⟨a, rfl, h⟩

theorem fetch_fault {a n : Nat} {e : Fault} (h : k.fetch a n = .error e) : e = .pageFault := by
  unfold Kernel.fetch at h
  split at h
  · cases h
  split at h
  · cases h
  · cases h
  · split at h
    · cases h
    · cases h
      rfl
  · cases h
    rfl

theorem store_fault {a : Nat} {bs : List UInt8} {e : Fault} (h : k.store a bs = .error e) :
    e = .pageFault := by
  unfold Kernel.store at h
  split at h
  · cases h
  split at h
  · cases h
  · cases h
  · split at h
    · cases h
    · cases h
      rfl
  · cases h
    rfl

theorem fetch32_fault {a : Nat} {e : Fault} (h : k.fetch32 a = .error e) : e = .pageFault := by
  rcases bind_eq_error h with h | ⟨bs, -, h⟩
  · exact fetch_fault h
  · cases h

theorem lookupFrom_fault {name : List UInt8} {n check : Nat} {e : Fault}
    (h : lookupFrom fs name n check = .error e) : e = .overrun := by
  induction n generalizing check with
  | zero => cases h
  | succ n ih =>
      rw [lookupFrom] at h
      split_ifs at h
      · cases h
        rfl
      · cases h
        rfl
      · exact ih h

theorem readDentryByIndex_fault {index : Nat} {e : Fault} (h : readDentryByIndex fs index = .error e) :
    e = .overrun := by
  unfold readDentryByIndex at h
  split_ifs at h
  cases h
  rfl

theorem readDirectory_ne_wildCall (buf : Nat) : readDirectory fs k buf ≠ .error .wildCall := by
  intro h
  rw [readDirectory] at h
  rcases bind_eq_error h with h | ⟨d, -, h⟩
  · cases readDentryByIndex_fault h
  · cases d with
    | none => cases h
    | some d =>
        rcases bind_eq_error h with h | ⟨k', -, h⟩
        · cases store_fault h
        · cases h

theorem readFile_ne_wildCall (fd buf : Nat) (nbytes : Int) (staleInode : Nat) :
    readFile fs k fd buf nbytes staleInode ≠ .error .wildCall := by
  intro h
  rw [readFile] at h
  rcases bind_eq_error h with h | ⟨d, -, h⟩
  · rw [readDentryByName] at h
    cases lookupFrom_fault h
  · rw [readAtPos] at h
    rcases bind_eq_error h with h | ⟨k', -, h⟩
    · cases store_fault h
    · cases h

theorem readTerminal_ne_wildCall (buf : Nat) (nbytes : Int) :
    readTerminal k buf nbytes ≠ .error .wildCall := by
  intro h
  rw [readTerminal] at h
  cases hread : termRead k.console nbytes with
  | none =>
      rw [hread] at h
      cases h
  | some r =>
      rw [hread] at h
      rcases bind_eq_error h with h | ⟨k', -, h⟩
      · cases store_fault h
      · cases h

/-- The operations themselves never call through a bad pointer. -/
theorem callRead_ne_wildCall (kind : FopsKind) (fd buf : Nat) (nbytes : Int) (staleInode : Nat) :
    callRead fs k kind fd buf nbytes staleInode ≠ .error .wildCall := by
  cases kind with
  | rtc => exact fun h => by cases h
  | directory => exact readDirectory_ne_wildCall buf
  | file => exact readFile_ne_wildCall fd buf nbytes staleInode
  | terminal => exact readTerminal_ne_wildCall buf nbytes

theorem activeTerm_fault {e : Fault} (h : activeTerm k = .error e) : e = .pageFault ∨ e = .overrun := by
  rw [activeTerm] at h
  rcases bind_eq_error h with h | ⟨n, -, h⟩
  · rw [pqGetActiveTerm] at h
    split at h
    · exact .inl (fetch32_fault h)
    · cases h
  · split at h
    · cases h
    · cases h
      exact .inr rfl

theorem callWrite_ne_wildCall (write : Term → Console → List UInt8 → Console) (kind : FopsKind) (buf : Nat)
    (nbytes : Int) : callWrite write k kind buf nbytes ≠ .error .wildCall := by
  intro h
  cases kind with
  | rtc =>
      rcases bind_eq_error (x := rtcWrite k buf) h with h | ⟨r, -, h⟩
      · rcases bind_eq_error (x := k.fetch32 buf) h with h | ⟨freq, -, h⟩
        · cases fetch32_fault h
        · cases h
      · cases h
  | directory => cases h
  | file => cases h
  | terminal =>
      rcases bind_eq_error (x := activeTerm k) h with h | ⟨n, -, h⟩
      · rcases activeTerm_fault h with h | h <;> cases h
      · rcases bind_eq_error h with h | ⟨bs, -, h⟩
        · cases fetch_fault h
        · cases h

/-! ### Reads and writes on a table -/

/-- A read of a descriptor in range, with the use word read. -/
theorem sysRead_eq (hrun : Running k) {fd buf : Nat} (hfd : fd < opsSize) (hbuf : buf ≠ 0) (nbytes : Int)
    (staleInode : Nat) :
    sysRead fops fs k fd buf nbytes staleInode =
      if k.mem.load32 (inUseAddr k.currentPblock fd) % 2 ≠ 0 ∧ (fd : Int) ≠ 1 then
        fopsAt fops (k.mem.load32 (fopPtrAddr k.currentPblock fd)) >>= fun kind =>
          callRead fs k kind fd buf nbytes staleInode
      else .ok (k, -1) := by
  rw [sysRead, if_pos ⟨by omega, by omega, hbuf⟩, hrun.checkUse_eq hfd, ok_bind]
  simp only [Int.toNat_natCast, pure_eq_ok]

theorem sysRead_null {fd : Int} {buf : Nat} (hbuf : buf = 0) (nbytes : Int) (staleInode : Nat) :
    sysRead fops fs k fd buf nbytes staleInode = .ok (k, -1) := by
  rw [sysRead, if_neg (fun h => h.2.2 hbuf), pure_eq_ok]

theorem sysWriteWith_eq (write : Term → Console → List UInt8 → Console) (hrun : Running k) {fd buf : Nat}
    (hfd : fd < opsSize) (hbuf : buf ≠ 0) (nbytes : Int) :
    sysWriteWith write fops k fd buf nbytes =
      if k.mem.load32 (inUseAddr k.currentPblock fd) % 2 ≠ 0 ∧ (fd : Int) ≠ 0 then
        fopsAt fops (k.mem.load32 (fopPtrAddr k.currentPblock fd)) >>= fun kind =>
          callWrite write k kind buf nbytes
      else .ok (k, -1) := by
  rw [sysWriteWith, if_pos ⟨by omega, by omega, hbuf⟩, hrun.checkUse_eq hfd, ok_bind]
  simp only [Int.toNat_natCast, pure_eq_ok]

theorem sysWrite_null {fd : Int} {buf : Nat} (hbuf : buf = 0) (nbytes : Int) :
    sysWrite fops k fd buf nbytes = .ok (k, -1) := by
  rw [sysWrite, sysWriteWith, if_neg (fun h => h.2.2 hbuf), pure_eq_ok]

/-- `read` never dispatches through a pointer that is no table. -/
theorem sysRead_ne_wildCall (hrun : Running k) (htable : TableOk fops fs k.mem k.currentPblock t) {fd : Nat}
    (hfd : fd < opsSize) (buf : Nat) (nbytes : Int) (staleInode : Nat) :
    sysRead fops fs k fd buf nbytes staleInode ≠ .error .wildCall := by
  by_cases hbuf : buf = 0
  · rw [sysRead_null hbuf]
    exact fun h => by cases h
  rw [sysRead_eq hrun hfd hbuf]
  split_ifs with huse
  · rcases fopsAt_inUse htable hfd huse.1 with ⟨-, hkind⟩ | ⟨i, -, -, hkind⟩
    · rw [hkind, ok_bind]
      exact callRead_ne_wildCall _ _ _ _ _
    · rw [hkind, ok_bind]
      exact callRead_ne_wildCall _ _ _ _ _
  · exact fun h => by cases h

theorem sysWrite_ne_wildCall (hrun : Running k) (htable : TableOk fops fs k.mem k.currentPblock t) {fd : Nat}
    (hfd : fd < opsSize) (buf : Nat) (nbytes : Int) : sysWrite fops k fd buf nbytes ≠ .error .wildCall := by
  by_cases hbuf : buf = 0
  · rw [sysWrite_null hbuf]
    exact fun h => by cases h
  rw [sysWrite, sysWriteWith_eq _ hrun hfd hbuf]
  split_ifs with huse
  · rcases fopsAt_inUse htable hfd huse.1 with ⟨-, hkind⟩ | ⟨i, -, -, hkind⟩
    · rw [hkind, ok_bind]
      exact callWrite_ne_wildCall _ _ _ _
    · rw [hkind, ok_bind]
      exact callWrite_ne_wildCall _ _ _ _
  · exact fun h => by cases h

/-- The running process's control block represents a table. -/
structure Serves (fops : FopsTables) (fs : FileSys) (t : Nat → Option Nat) (k : Kernel) : Prop where
  running : Running k
  table : TableOk fops fs k.mem k.currentPblock t

/-- Only the console or the directory counter changed. -/
theorem Serves.of_same (h : Serves fops fs t k) (console : Console) (dirReadCount : Nat) :
    Serves fops fs t { k with console := console, dirReadCount := dirReadCount } :=
  ⟨⟨h.running.one, h.running.max, h.running.frame⟩, h.table⟩

/-- A store outside the kernel's page does not reach the descriptors. -/
theorem Serves.store (h : Serves fops fs t k) (hdir : DirectoryOk fs) {a : Nat} {bs : List UInt8}
    (ha : a < addr4MB ∨ addr8MB ≤ a) (hstore : k.store a bs = .ok k') : Serves fops fs t k' := by
  obtain ⟨m, v, rfl, hmem⟩ := store_outside_kernel hstore ha
  obtain ⟨-, hhigh, hframe⟩ := h.running.pcb_range
  refine ⟨⟨h.running.one, h.running.max, h.running.frame⟩, h.table.congr hdir fun x _ hx => hmem x ?_⟩
  simp only [fdeOffset, opsSize, addr8KB, addr8MB] at *
  omega

/-- A new position in an opened descriptor. -/
theorem TableOk.storePos {m : Mem} {pcb fd i : Nat} (h : TableOk fops fs m pcb t) (hdir : DirectoryOk fs)
    (hlow : 2 ≤ fd) (hhigh : fd < opsSize) (ht : t fd = some i) (pos : Nat) :
    TableOk fops fs (m.store32 (filePosAddr pcb fd) pos) pcb t := by
  have honly : OnlySlot pcb fd m (m.store32 (filePosAddr pcb fd) pos) :=
    (OnlySlot.refl pcb fd m).store32 40 pos (by decide)
  have hupdate := h.update hdir hlow honly (t fd) ?_ ?_
  · rwa [Function.update_eq_self] at hupdate
  · intro j hj
    obtain ⟨hi, huse, hfop, hname⟩ := h.opened fd j hlow hhigh hj
    refine ⟨hi, ?_, ?_, hname.congr fun b hb => ?_⟩
    · rwa [Mem.load32_store32_of_ne _ (by simp only [inUseAddr, filePosAddr]; omega)]
    · rwa [Mem.load32_store32_of_ne _ (by simp only [fopPtrAddr, filePosAddr]; omega)]
    · have := hdir.names j hi
      simp only [fnameLength] at this
      exact Mem.store32_of_outside _ (by simp only [fileNameAddr, filePosAddr]; omega)
  · intro hnone
    rw [ht] at hnone
    cases hnone

theorem Serves.readFile (h : Serves fops fs t k) (hdir : DirectoryOk fs) {fd i buf : Nat} {nbytes ret : Int}
    {staleInode : Nat} (hlow : 2 ≤ fd) (hhigh : fd < opsSize) (ht : t fd = some i)
    (ha : buf < addr4MB ∨ addr8MB ≤ buf)
    (hread : readFile fs k fd buf nbytes staleInode = .ok (k', ret)) : Serves fops fs t k' := by
  rw [UnixOs.readFile] at hread
  obtain ⟨d, -, hread⟩ := bind_eq_ok hread
  rw [readAtPos] at hread
  obtain ⟨k1, hstore, hread⟩ := bind_eq_ok hread
  have hserves := h.store hdir ha hstore
  obtain ⟨m, v, rfl, -⟩ := store_outside_kernel hstore ha
  cases hread
  exact ⟨⟨h.running.one, h.running.max, h.running.frame⟩, hserves.table.storePos hdir hlow hhigh ht _⟩

theorem Serves.readDirectory (h : Serves fops fs t k) (hdir : DirectoryOk fs) {buf : Nat} {ret : Int}
    (ha : buf < addr4MB ∨ addr8MB ≤ buf) (hread : readDirectory fs k buf = .ok (k', ret)) :
    Serves fops fs t k' := by
  rw [UnixOs.readDirectory] at hread
  obtain ⟨d, -, hread⟩ := bind_eq_ok hread
  cases d with
  | none =>
      cases hread
      exact h.of_same k.console 0
  | some d =>
      obtain ⟨k1, hstore, hread⟩ := bind_eq_ok hread
      cases hread
      exact (h.of_same k.console (k.dirReadCount + 1)).store hdir ha hstore

theorem Serves.readTerminal (h : Serves fops fs t k) (hdir : DirectoryOk fs) {buf : Nat} {nbytes ret : Int}
    (ha : buf < addr4MB ∨ addr8MB ≤ buf) (hread : readTerminal k buf nbytes = .ok (k', ret)) :
    Serves fops fs t k' := by
  rw [UnixOs.readTerminal] at hread
  cases hterm : termRead k.console nbytes with
  | none =>
      rw [hterm] at hread
      cases hread
  | some r =>
      obtain ⟨console, n, bytes⟩ := r
      rw [hterm] at hread
      obtain ⟨k1, hstore, hread⟩ := bind_eq_ok hread
      cases hread
      exact (h.of_same console k.dirReadCount).store hdir ha hstore

theorem Serves.sysRead (h : Serves fops fs t k) (hdir : DirectoryOk fs) {fd buf : Nat} {nbytes ret : Int}
    {staleInode : Nat} (hfd : fd < opsSize) (ha : buf < addr4MB ∨ addr8MB ≤ buf)
    (hread : sysRead fops fs k fd buf nbytes staleInode = .ok (k', ret)) : Serves fops fs t k' := by
  by_cases hbuf : buf = 0
  · rw [sysRead_null hbuf] at hread
    cases hread
    exact h
  rw [sysRead_eq h.running hfd hbuf] at hread
  split_ifs at hread with huse
  · rcases fopsAt_inUse h.table hfd huse.1 with ⟨-, hkind⟩ | ⟨i, hlow, ht, hkind⟩
    · rw [hkind, ok_bind] at hread
      exact h.readTerminal hdir ha hread
    · rw [hkind, ok_bind] at hread
      generalize kindOfType (fs.entryType i) = kind at hread
      cases kind with
      | rtc =>
          cases hread
          exact h
      | directory => exact h.readDirectory hdir ha hread
      | file => exact h.readFile hdir hlow hfd ht ha hread
      | terminal => exact h.readTerminal hdir ha hread
  · cases hread
    exact h

theorem Serves.sysWrite (h : Serves fops fs t k) {fd buf : Nat} {nbytes ret : Int} (hfd : fd < opsSize)
    (hwrite : sysWrite fops k fd buf nbytes = .ok (k', ret)) : Serves fops fs t k' := by
  by_cases hbuf : buf = 0
  · rw [sysWrite_null hbuf] at hwrite
    cases hwrite
    exact h
  rw [UnixOs.sysWrite, sysWriteWith_eq _ h.running hfd hbuf] at hwrite
  split_ifs at hwrite with huse
  · obtain ⟨kind, -, hwrite⟩ := bind_eq_ok hwrite
    cases kind with
    | rtc =>
        rw [callWrite] at hwrite
        obtain ⟨r, -, hwrite⟩ := bind_eq_ok hwrite
        cases hwrite
        exact h
    | directory =>
        cases hwrite
        exact h
    | file =>
        cases hwrite
        exact h
    | terminal =>
        rw [callWrite, writeTerminal] at hwrite
        obtain ⟨n, -, hwrite⟩ := bind_eq_ok hwrite
        obtain ⟨bytes, -, hwrite⟩ := bind_eq_ok hwrite
        cases hwrite
        exact h.of_same _ k.dirReadCount
  · cases hwrite
    exact h

/-! ### Runs -/

/-- `open` on the abstract table: the smallest free descriptor, when there is one and the name exists. -/
def tableOpen (fs : FileSys) (t : Nat → Option Nat) (name : List UInt8) : (Nat → Option Nat) × Int :=
  match firstFree t, findEntry fs name with
  | some fd, some i => (Function.update t fd (some i), fd)
  | _, _ => (t, -1)

/-- `close` on the abstract table. -/
def tableClose (t : Nat → Option Nat) (fd : Nat) : (Nat → Option Nat) × Int :=
  if 2 ≤ fd ∧ (t fd).isSome then (Function.update t fd none, 0) else (t, -1)

theorem Serves.sysOpen (h : Serves fops fs t k) (hdir : DirectoryOk fs) {name : List UInt8}
    (hplain : 0 ∉ name) (halias : ¬ Aliased fs name) :
    ∃ k', sysOpen fops fs k name = .ok (k', (tableOpen fs t name).2) ∧
      Serves fops fs (tableOpen fs t name).1 k' ∧ ((tableOpen fs t name).2 = -1 → k' = k) := by
  cases hfree : firstFree t with
  | none =>
      refine ⟨k, ?_, ?_, fun _ => rfl⟩
      · simpa [tableOpen, hfree] using sysOpen_fail h.running hdir h.table hplain halias (.inl hfree)
      · simpa [tableOpen, hfree] using h
  | some fd =>
      cases hfind : findEntry fs name with
      | none =>
          refine ⟨k, ?_, ?_, fun _ => rfl⟩
          · simpa [tableOpen, hfree, hfind] using
              sysOpen_fail h.running hdir h.table hplain halias (.inr hfind)
          · simpa [tableOpen, hfree, hfind] using h
      | some i =>
          obtain ⟨hlow, hhigh, -⟩ := firstFree_some hfree
          obtain ⟨hi, -⟩ := findEntry_some hfind
          obtain ⟨huse, -, hfop, hname⟩ := openSlot_spec fops k.mem k.currentPblock hdir
            hi fd
          have htable : TableOk fops fs (openSlot fops fs k.mem k.currentPblock fd i) k.currentPblock
              (Function.update t fd (some i)) := by
            refine h.table.update hdir hlow (openSlot_only hdir hi fd) (some i) (fun j hj => ?_)
              (fun hnone => by cases hnone)
            cases hj
            exact ⟨hi, by rw [huse], hfop, hname⟩
          have hopened : tableOpen fs t name = (Function.update t fd (some i), (fd : Int)) := by
            simp only [tableOpen, hfree, hfind]
          rw [hopened]
          refine ⟨{ k with mem := openSlot fops fs k.mem k.currentPblock fd i },
            sysOpen_ok h.running hdir h.table hplain halias hfree hfind, ?_, ?_⟩
          · exact ⟨⟨h.running.one, h.running.max, h.running.frame⟩, htable⟩
          · simp only
            omega

theorem Serves.sysClose (h : Serves fops fs t k) (hdir : DirectoryOk fs) {fd : Nat} (hhigh : fd < opsSize) :
    ∃ k', sysClose fops k fd = .ok (k', (tableClose t fd).2) ∧
      Serves fops fs (tableClose t fd).1 k' ∧ ((tableClose t fd).2 = -1 → k' = k) := by
  by_cases hopen : 2 ≤ fd ∧ (t fd).isSome
  · obtain ⟨i, ht⟩ := Option.isSome_iff_exists.mp hopen.2
    obtain ⟨huse, hfop⟩ := closeFields_spec k.mem k.currentPblock fd
    have htable : TableOk fops fs (closeFields k.mem k.currentPblock fd) k.currentPblock
        (Function.update t fd none) :=
      h.table.update hdir hopen.1 (closeFields_only _ _ _) none (fun j hj => by cases hj)
        (fun _ => ⟨by rw [huse], hfop⟩)
    rw [tableClose, if_pos hopen]
    refine ⟨{ k with mem := closeFields k.mem k.currentPblock fd },
      sysClose_ok h.running h.table hopen.1 hhigh ht, ?_, ?_⟩
    · exact ⟨⟨h.running.one, h.running.max, h.running.frame⟩, htable⟩
    · exact fun hret => by cases hret
  · have hfree : fd < 2 ∨ t fd = none := by
      by_cases hlow : fd < 2
      · exact .inl hlow
      · refine .inr (Option.not_isSome_iff_eq_none.mp fun hsome => hopen ⟨by omega, hsome⟩)
    refine ⟨k, ?_, ?_, fun _ => rfl⟩
    · rw [tableClose, if_neg hopen]
      exact sysClose_fail h.running h.table hhigh hfree
    · rw [tableClose, if_neg hopen]
      exact h

/-- A system call on descriptors with its result, or keyboard input that arrives in between. -/
inductive DescriptorCall where
  | «open» (name : List UInt8) (ret : Int)
  | close (fd : Nat) (ret : Int)
  | read (fd buf : Nat) (nbytes ret : Int)
  | write (fd buf : Nat) (nbytes ret : Int)
  | keys (codes : List Nat)

inductive DescriptorStep (fops : FopsTables) (fs : FileSys) : Kernel → DescriptorCall → Kernel → Prop
  | «open» {k k' : Kernel} {name : List UInt8} {ret : Int} (hplain : 0 ∉ name)
      (hshort : name.length < fnameLength) (hcall : sysOpen fops fs k name = .ok (k', ret)) :
      DescriptorStep fops fs k (.open name ret) k'
  | close {k k' : Kernel} {fd : Nat} {ret : Int} (hfd : fd < opsSize)
      (hcall : sysClose fops k fd = .ok (k', ret)) : DescriptorStep fops fs k (.close fd ret) k'
  | read {k k' : Kernel} {fd buf : Nat} {nbytes ret : Int} (staleInode : Nat) (hfd : fd < opsSize)
      (hcall : sysRead fops fs k fd buf nbytes staleInode = .ok (k', ret)) :
      DescriptorStep fops fs k (.read fd buf nbytes ret) k'
  | write {k k' : Kernel} {fd buf : Nat} {nbytes ret : Int} (hfd : fd < opsSize)
      (hcall : sysWrite fops k fd buf nbytes = .ok (k', ret)) :
      DescriptorStep fops fs k (.write fd buf nbytes ret) k'
  | keys {k : Kernel} (codes : List Nat) :
      DescriptorStep fops fs k (.keys codes) { k with console := keyboardHandler k.console codes }

/-- The calls on the abstract table: reads and writes do not change it. -/
inductive TableStep (fs : FileSys) : (Nat → Option Nat) → DescriptorCall → (Nat → Option Nat) → Prop
  | «open» (t : Nat → Option Nat) (name : List UInt8) :
      TableStep fs t (.open name (tableOpen fs t name).2) (tableOpen fs t name).1
  | close (t : Nat → Option Nat) (fd : Nat) :
      TableStep fs t (.close fd (tableClose t fd).2) (tableClose t fd).1
  | read (t : Nat → Option Nat) (fd buf : Nat) (nbytes ret : Int) :
      TableStep fs t (.read fd buf nbytes ret) t
  | write (t : Nat → Option Nat) (fd buf : Nat) (nbytes ret : Int) :
      TableStep fs t (.write fd buf nbytes ret) t
  | keys (t : Nat → Option Nat) (codes : List Nat) : TableStep fs t (.keys codes) t

/-- A read's buffer does not start in the kernel's own page. -/
def BufferOutsideKernel : DescriptorCall → Prop
  | .read _ buf _ _ => buf < addr4MB ∨ addr8MB ≤ buf
  | _ => True

theorem not_aliased_of_short {name : List UInt8} (h : name.length < fnameLength) : ¬ Aliased fs name := by
  rintro ⟨hlong, -⟩
  simp only [fnameLength] at h
  omega

theorem serves_step (hdir : DirectoryOk fs) {e : DescriptorCall} (h : Serves fops fs t k)
    (hstep : DescriptorStep fops fs k e k') (hbuf : BufferOutsideKernel e) :
    ∃ t', TableStep fs t e t' ∧ Serves fops fs t' k' := by
  cases hstep with
  | «open» hplain hshort hcall =>
      obtain ⟨k1, hopen, hserves, -⟩ := h.sysOpen hdir hplain (not_aliased_of_short hshort)
      rw [hopen] at hcall
      cases hcall
      exact ⟨_, .open t _, hserves⟩
  | close hfd hcall =>
      obtain ⟨k1, hclose, hserves, -⟩ := h.sysClose hdir hfd
      rw [hclose] at hcall
      cases hcall
      exact ⟨_, .close t _, hserves⟩
  | read staleInode hfd hcall => exact ⟨t, .read t _ _ _ _, h.sysRead hdir hfd hbuf hcall⟩
  | write hfd hcall => exact ⟨t, .write t _ _ _ _, h.sysWrite hfd hcall⟩
  | keys codes => exact ⟨t, .keys t codes, h.of_same _ k.dirReadCount⟩

/-- What a table guarantees of the next call. -/
structure DescriptorsOk (fops : FopsTables) (fs : FileSys) (t : Nat → Option Nat) (k : Kernel) : Prop where
  table : TableOk fops fs k.mem k.currentPblock t
  inUse_iff : ∀ fd, 2 ≤ fd → fd < opsSize → (k.mem.load32 (inUseAddr k.currentPblock fd) % 2 = 1 ↔
    k.mem.load32 (fopPtrAddr k.currentPblock fd) ∈ [fops.rtc, fops.directory, fops.file])
  read : ∀ fd < opsSize, ∀ buf nbytes staleInode,
    sysRead fops fs k fd buf nbytes staleInode ≠ .error .wildCall
  write : ∀ fd < opsSize, ∀ buf nbytes, sysWrite fops k fd buf nbytes ≠ .error .wildCall
  «open» : ∀ name : List UInt8, 0 ∉ name → name.length < fnameLength →
    ∃ k', sysOpen fops fs k name = .ok (k', (tableOpen fs t name).2) ∧
      TableOk fops fs k'.mem k'.currentPblock (tableOpen fs t name).1 ∧
      ((tableOpen fs t name).2 = -1 → k' = k)
  close : ∀ fd < opsSize, ∃ k', sysClose fops k fd = .ok (k', (tableClose t fd).2) ∧
    TableOk fops fs k'.mem k'.currentPblock (tableClose t fd).1 ∧ ((tableClose t fd).2 = -1 → k' = k)

theorem inUse_iff_table (h : TableOk fops fs k.mem k.currentPblock t) {fd : Nat} (hlow : 2 ≤ fd)
    (hhigh : fd < opsSize) : k.mem.load32 (inUseAddr k.currentPblock fd) % 2 = 1 ↔
      k.mem.load32 (fopPtrAddr k.currentPblock fd) ∈ [fops.rtc, fops.directory, fops.file] := by
  cases ht : t fd with
  | none =>
      obtain ⟨huse, hfop⟩ := h.free fd hlow hhigh ht
      have hzero : (0 : Nat) ∉ [fops.rtc, fops.directory, fops.file, fops.terminal] :=
        (List.nodup_cons.mp fops.distinct).1
      simp only [huse, hfop, zero_ne_one, false_iff]
      exact fun hmem => hzero (List.mem_append_left [fops.terminal] hmem)
  | some i =>
      obtain ⟨-, huse, hfop, -⟩ := h.opened fd i hlow hhigh ht
      simp only [huse, hfop, true_iff]
      unfold kindOfType
      split_ifs <;> simp [FopsTables.addr]

theorem Serves.descriptorsOk (h : Serves fops fs t k) (hdir : DirectoryOk fs) : DescriptorsOk fops fs t k where
  table := h.table
  inUse_iff := fun _ hlow hhigh => inUse_iff_table h.table hlow hhigh
  read := fun _ hfd buf nbytes staleInode => sysRead_ne_wildCall h.running h.table hfd buf nbytes staleInode
  write := fun _ hfd buf nbytes => sysWrite_ne_wildCall h.running h.table hfd buf nbytes
  «open» := fun _ hplain hshort => by
    obtain ⟨k', hcall, hserves, hsame⟩ := h.sysOpen hdir hplain (not_aliased_of_short hshort)
    exact ⟨k', hcall, hserves.table, hsame⟩
  close := fun _ hfd => by
    obtain ⟨k', hcall, hserves, hsame⟩ := h.sysClose hdir hfd
    exact ⟨k', hcall, hserves.table, hsame⟩

/-- While no `read` is given a buffer in the kernel's page, every run from a table with descriptors 0
and 1 is a run of the abstract table with the same results, and the table it reaches is represented. -/
theorem descriptor_run_refines_table {start : Kernel} {es : List DescriptorCall} (hdir : DirectoryOk fs)
    (hrunning : Running start) (htable : TableOk fops fs start.mem start.currentPblock fun _ => none)
    (hrun : Run (fun k e k' => DescriptorStep fops fs k e k' ∧ BufferOutsideKernel e) start es k) :
    ∃ t, Run (TableStep fs) (fun _ => none) es t ∧ DescriptorsOk fops fs t k := by
  obtain ⟨t, habstract, hserves⟩ := hrun.simulation (R := fun k t => Serves fops fs t k) ⟨hrunning, htable⟩
    (fun _ _ _ _ h hstep => serves_step hdir h hstep.1 hstep.2)
  exact ⟨t, habstract, hserves.descriptorsOk hdir⟩

def sampleFops : FopsTables where
  rtc := 0x500000
  directory := 0x500010
  file := 0x500020
  terminal := 0x500030
  distinct := by decide
  small := by decide

/-- Process 3 with its two terminal descriptors. -/
def sampleKernel : Kernel where
  mem :=
    let zero : Mem := fun _ => 0
    let stdin := (zero.store32 (fopPtrAddr (pcbAddr 3) 0) 0x500030).store32 (inUseAddr (pcbAddr 3) 0) 1
    (stdin.store32 (fopPtrAddr (pcbAddr 3) 1) 0x500030).store32 (inUseAddr (pcbAddr 3) 1) 1
  processCount := 3
  primaryShellCount := 3
  processQ := pqInit
  pdUser := init4mbUserPde (addr4MB + 3 * addr4MB)
  tssEsp0 := 0
  console := blankConsole
  dirReadCount := 0

theorem running_sampleKernel : Running sampleKernel := ⟨by decide, by decide, rfl⟩

theorem tableOk_sampleKernel {fs : FileSys} :
    TableOk sampleFops fs sampleKernel.mem sampleKernel.currentPblock fun _ => none := by
  refine ⟨by decide, fun _ _ _ _ h => (Option.some_ne_none _ h.symm).elim, fun fd hlow hhigh _ => ?_⟩
  have hall : ∀ fd < opsSize, 2 ≤ fd → sampleKernel.mem.load32 (inUseAddr sampleKernel.currentPblock fd) % 2 = 0 ∧
      sampleKernel.mem.load32 (fopPtrAddr sampleKernel.currentPblock fd) = 0 := by decide
  exact hall fd hhigh hlow

/-- The state that a call leaves, and what it returned. -/
def stateAfter (k : Kernel) : Except Fault (Kernel × Int) → Kernel
  | .ok r => r.1
  | .error _ => k

def returned : Except Fault (Kernel × Int) → Option Int
  | .ok r => some r.2
  | .error _ => none

theorem eq_ok_of_returned {r : Except Fault (Kernel × Int)} {ret : Int} (k : Kernel)
    (h : returned r = some ret) : r = .ok (stateAfter k r, ret) := by
  cases r with
  | error e => cases h
  | ok r =>
      cases h
      rfl

/-- The file opened as descriptor 2. -/
def shellOpened : Kernel := stateAfter sampleKernel (sysOpen sampleFops sampleFs sampleKernel shellName)

/-- Four bytes of the file read to an address. -/
def shellRead (buf : Nat) : Kernel := stateAfter shellOpened (sysRead sampleFops sampleFs shellOpened 2 buf 4 0)

theorem step_shellOpened :
    DescriptorStep sampleFops sampleFs sampleKernel (.open shellName 2) shellOpened :=
  .open (by decide) (by decide) (eq_ok_of_returned _ (by decide))

/-- A read whose buffer is the first descriptor in the process's own control block: `read` stores the
file's first word over the pointer to the terminal operations, and the next read of the keyboard calls
through it. -/
theorem read_into_descriptors :
    Run (DescriptorStep sampleFops sampleFs) sampleKernel
      [.open shellName 2, .read 2 (fopPtrAddr (pcbAddr 3) 0) 4 4] (shellRead (fopPtrAddr (pcbAddr 3) 0)) ∧
    (shellRead (fopPtrAddr (pcbAddr 3) 0)).mem.load32 (fopPtrAddr (pcbAddr 3) 0) = 0x464C457F ∧
    ¬ ∃ t, DescriptorsOk sampleFops sampleFs t (shellRead (fopPtrAddr (pcbAddr 3) 0)) := by
  have hword : (shellRead (fopPtrAddr (pcbAddr 3) 0)).mem.load32 (fopPtrAddr (pcbAddr 3) 0) = 0x464C457F := by
    decide
  refine ⟨?_, hword, ?_⟩
  · exact .snoc (.snoc .nil step_shellOpened) (.read 0 (by decide) (eq_ok_of_returned _ (by decide)))
  · rintro ⟨t, hok⟩
    have hterminal := (hok.table.terminal 0 (by decide)).2
    have hpcb : (shellRead (fopPtrAddr (pcbAddr 3) 0)).currentPblock = pcbAddr 3 := by decide
    rw [hpcb, hword] at hterminal
    exact absurd hterminal (by decide)

/-- The same read into the user page keeps the table. -/
theorem descriptor_run_refines_table_user :
    ∃ t, Run (TableStep sampleFs) (fun _ => none) [.open shellName 2, .read 2 0x8048000 4 4] t ∧
      DescriptorsOk sampleFops sampleFs t (shellRead 0x8048000) := by
  have hread : DescriptorStep sampleFops sampleFs shellOpened (.read 2 0x8048000 4 4) (shellRead 0x8048000) :=
    .read 0 (by decide) (eq_ok_of_returned _ (by decide))
  exact descriptor_run_refines_table directoryOk_sampleFs running_sampleKernel tableOk_sampleKernel
    (.snoc (.snoc .nil ⟨step_shellOpened, trivial⟩) ⟨hread, .inr (by decide)⟩)

end UnixOs
