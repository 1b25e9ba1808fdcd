import UnixOs.FileStreams

/-! The descriptor argument of `read`, `write` and `close`. The first two test its range before they look at
the table. `close` looks first, at whatever lies 48 bytes times the argument away from the table. -/

namespace UnixOs

variable {fops : FopsTables} {fs : FileSys} {k : Kernel}

/-- The `fde` array as a call looks at it: what `check_use` gives for an index, and the `fop_ptr` there. The
other fields are reached only through the operations of the entry that was found. -/
structure FdeView where
  use : Int → Except Fault Nat
  fop : Int → Nat

/-- The array of the running process, and what lies around it. -/
def fdeView (k : Kernel) : FdeView := ⟨checkUse k, fun fd => k.mem.load32 (fopPtrAddr k.currentPblock fd.toNat)⟩

/-- Two arrays with the same entries 0 to 7. -/
def FdeView.SameTable (v v' : FdeView) : Prop :=
  ∀ fd : Int, 0 ≤ fd → fd < opsSize → v.use fd = v'.use fd ∧ v.fop fd = v'.fop fd

/-- A call with a descriptor argument. -/
inductive FdCall where
  | read (fd : Int) (buf : Nat) (nbytes : Int)
  | write (fd : Int) (buf : Nat) (nbytes : Int)
  | close (fd : Int)

namespace FdCall

def fd : FdCall → Int
  | read fd _ _ => fd
  | write fd _ _ => fd
  | close fd => fd

def exec (fops : FopsTables) (fs : FileSys) (k : Kernel) (staleInode : Nat) : FdCall → Except Fault (Kernel × Int)
  | read fd buf nbytes => sysRead fops fs k fd buf nbytes staleInode
  | write fd buf nbytes => sysWrite fops k fd buf nbytes
  | close fd => sysClose fops k fd

/-- The same call with the array as a parameter. -/
def execOn (v : FdeView) (fops : FopsTables) (fs : FileSys) (k : Kernel) (staleInode : Nat) :
    FdCall → Except Fault (Kernel × Int)
  | read fd buf nbytes => do
      if 0 ≤ fd ∧ fd < opsSize ∧ buf ≠ 0 then
        let use ← v.use fd
        if use % 2 ≠ 0 ∧ fd ≠ 1 then
          let kind ← fopsAt fops (v.fop fd)
          callRead fs k kind fd.toNat buf nbytes staleInode
        else return (k, -1)
      else return (k, -1)
  | write fd buf nbytes => do
      if 0 ≤ fd ∧ fd < opsSize ∧ buf ≠ 0 then
        let use ← v.use fd
        if use % 2 ≠ 0 ∧ fd ≠ 0 then
          let kind ← fopsAt fops (v.fop fd)
          callWrite termWrite k kind buf nbytes
        else return (k, -1)
      else return (k, -1)
  | close fd => do
      let use ← v.use fd
      if use % 2 = 0 then return (k, -1)
      else if fd ≤ 1 ∨ fd ≥ opsSize then return (k, -1)
      else
        if v.fop fd ≠ 0 then
          let kind ← fopsAt fops (v.fop fd)
          let k := callClose k kind
          return ({ k with mem := closeFields k.mem k.currentPblock fd.toNat }, 0)
        else return (k, -1)

theorem execOn_fdeView (c : FdCall) (staleInode : Nat) :
    c.execOn (fdeView k) fops fs k staleInode = c.exec fops fs k staleInode := by
  cases c with
  | read fd buf nbytes => rw [execOn, exec, sysRead, fdeView]
  | write fd buf nbytes => rw [execOn, exec, sysWrite, sysWriteWith, fdeView]
  | close fd => rw [execOn, exec, sysClose, fdeView]

/-- The arguments that a call has to refuse. -/
def Refuses : FdCall → Prop
  | close fd => fd ≤ 1 ∨ 7 < fd
  | read fd _ _ => fd < 0 ∨ 7 < fd
  | write fd _ _ => fd < 0 ∨ 7 < fd

/-- A call looks at entries 0 to 7 only, and refuses without a change. -/
structure Validates (fops : FopsTables) (fs : FileSys) (k : Kernel) (staleInode : Nat) (c : FdCall) : Prop where
  inside : ∀ v v', v.SameTable v' → c.execOn v fops fs k staleInode = c.execOn v' fops fs k staleInode
  refused : c.Refuses → c.exec fops fs k staleInode = .ok (k, -1)

/-- The call is not a `close` with an argument outside the table. -/
def InTable : FdCall → Prop
  | close fd => 0 ≤ fd ∧ fd < opsSize
  | _ => True

/-- Inside the table a call depends on the entry alone. -/
theorem execOn_congr {v v' : FdeView} (hsame : v.SameTable v') {c : FdCall} (hin : 0 ≤ c.fd) (hmax : c.fd < opsSize)
    (staleInode : Nat) : c.execOn v fops fs k staleInode = c.execOn v' fops fs k staleInode := by
  obtain ⟨huse, hfop⟩ := hsame c.fd hin hmax
  cases c with
  | read fd buf nbytes =>
      simp only [FdCall.fd] at huse hfop
      rw [execOn, execOn, huse, hfop]
  | write fd buf nbytes =>
      simp only [FdCall.fd] at huse hfop
      rw [execOn, execOn, huse, hfop]
  | close fd =>
      simp only [FdCall.fd] at huse hfop
      rw [execOn, execOn, huse, hfop]

theorem read_outside {fd : Int} (h : ¬ (0 ≤ fd ∧ fd < opsSize)) (v : FdeView) (buf : Nat) (nbytes : Int)
    (staleInode : Nat) : (read fd buf nbytes).execOn v fops fs k staleInode = .ok (k, -1) := by
  rw [execOn, if_neg (fun hin => h ⟨hin.1, hin.2.1⟩), pure_eq_ok]

theorem write_outside {fd : Int} (h : ¬ (0 ≤ fd ∧ fd < opsSize)) (v : FdeView) (buf : Nat) (nbytes : Int)
    (staleInode : Nat) : (write fd buf nbytes).execOn v fops fs k staleInode = .ok (k, -1) := by
  rw [execOn, if_neg (fun hin => h ⟨hin.1, hin.2.1⟩), pure_eq_ok]

/-- `close` returns what the look outside the table comes to. -/
theorem close_outside {fd : Int} (h : fd ≤ 1 ∨ 7 < fd) (v : FdeView) (staleInode : Nat) :
    (close fd).execOn v fops fs k staleInode = v.use fd >>= fun _ => .ok (k, -1) := by
  rw [execOn]
  refine bind_congr fun use => ?_
  have hrange : fd ≤ 1 ∨ fd ≥ opsSize := by
    simp only [opsSize]
    omega
  rw [if_pos hrange]
  split_ifs <;> rfl

/-- An array that faults everywhere outside the table. -/
def faultingView : FdeView := ⟨fun fd => if 0 ≤ fd ∧ fd < opsSize then .ok 0 else .error .pageFault, fun _ => 0⟩

/-- `close` outside the table is decided by what lies there. -/
theorem not_inside_close {fd : Int} (h : ¬ (0 ≤ fd ∧ fd < opsSize)) (staleInode : Nat) :
    ¬ ∀ v v', v.SameTable v' →
      (close fd).execOn v fops fs k staleInode = (close fd).execOn v' fops fs k staleInode := by
  intro hinside
  have hsame : faultingView.SameTable ⟨fun _ => .ok 0, fun _ => 0⟩ := fun i hlow hhigh => by
    simp only [faultingView, if_pos (And.intro hlow hhigh), and_self]
  have hrange : fd ≤ 1 ∨ 7 < fd := by
    simp only [opsSize] at h
    omega
  have heq := hinside _ _ hsame
  rw [close_outside hrange, close_outside hrange] at heq
  simp only [faultingView, if_neg h, ok_bind] at heq
  cases heq

theorem exec_refused (hrun : Running k) {c : FdCall} (hin : c.InTable) (href : c.Refuses) (staleInode : Nat) :
    c.exec fops fs k staleInode = .ok (k, -1) := by
  rw [← execOn_fdeView]
  cases c with
  | read fd buf nbytes =>
      simp only [Refuses] at href
      exact read_outside (by simp only [opsSize]; omega) _ _ _ _
  | write fd buf nbytes =>
      simp only [Refuses] at href
      exact write_outside (by simp only [opsSize]; omega) _ _ _ _
  | close fd =>
      obtain ⟨hlow, hhigh⟩ := hin
      obtain ⟨f, rfl⟩ := Int.eq_ofNat_of_zero_le hlow
      rw [close_outside href]
      simp only [fdeView]
      rw [hrun.checkUse_eq (by omega), ok_bind]

end FdCall

/-- A call validates its descriptor exactly when it is no `close` with an argument outside the table. -/
theorem descriptor_validated_iff (hrun : Running k) (staleInode : Nat) (c : FdCall) :
    c.Validates fops fs k staleInode ↔ c.InTable := by
  constructor
  · intro hvalid
    cases c with
    | read fd buf nbytes => trivial
    | write fd buf nbytes => trivial
    | close fd =>
        by_contra hout
        exact FdCall.not_inside_close hout staleInode hvalid.inside
  · intro hin
    refine ⟨fun v v' hsame => ?_, fun href => FdCall.exec_refused hrun hin href staleInode⟩
    by_cases htable : 0 ≤ c.fd ∧ c.fd < opsSize
    · exact FdCall.execOn_congr hsame htable.1 htable.2 staleInode
    · cases c with
      | read fd buf nbytes =>
          exact (FdCall.read_outside htable v buf nbytes _).trans (FdCall.read_outside htable v' buf nbytes _).symm
      | write fd buf nbytes =>
          exact (FdCall.write_outside htable v buf nbytes _).trans (FdCall.write_outside htable v' buf nbytes _).symm
      | close fd => exact absurd hin htable

theorem descriptor_validated_iff_read :
    (FdCall.read 8 0x8048000 4).Validates sampleFops sampleFs sampleKernel 0 ↔
      (FdCall.read 8 0x8048000 4).InTable :=
  descriptor_validated_iff running_sampleKernel 0 _

/-- `close` of descriptor 1000000 looks at an address that is not mapped. -/
theorem close_far_descriptor_faults :
    (FdCall.close 1000000).exec sampleFops sampleFs sampleKernel 0 = .error .pageFault ∧
      ¬ (FdCall.close 1000000).Validates sampleFops sampleFs sampleKernel 0 := by
  have hfault : (FdCall.close 1000000).exec sampleFops sampleFs sampleKernel 0 = .error .pageFault :=
    eq_error_of_faultOf (by decide +kernel)
  refine ⟨hfault, fun hvalid => ?_⟩
  have hrefused := hvalid.refused (.inr (by decide))
  rw [hfault] at hrefused
  cases hrefused

end UnixOs
