import Micro86.Exec.Stack

/-!
# How `exec` ends

* `load_safe_iff` — a file with the ELF magic is loaded or refused, without a panic in `vm.c`,
  exactly if no segment that is got to ends above `KERNBASE`.
-/

namespace Micro86.ExecFile

open Exec
open Mm (PGSIZE KERNBASE NPTENTRIES NPDENTRIES NFRAMES Pte Tables)
open Vm (Image PageDir Mem Store NPAGES PGROUNDUP pages KPAGE Loaded)

/-! ## Loading any file -/

section

variable (img : Image) (phystop : Nat) (disk : Disk) (kstack : Nat → Nat → UInt8)

/-- What is relied on when a file is loaded: `exec` returns, and all entries at `KERNBASE` or above
    are those `setupkvm` wrote.  Only arguments that do not fit on the stack may fault, in
    `copyout`. -/
def LoadsSafely (fuel depth : Nat) (path : Str) (argv : List Str) (s : Sys) : Prop :=
  wp (execve img phystop disk kstack fuel depth path argv)
    (fun r t => (∃ c, r = some (.code c)) ∧ WritesBelow img phystop s t ∧
      (r = some (.code 0) → ∃ m, Vm.setupkvm img phystop { s.vm with stores := [] } =
        .ok (true, m) ∧ ∀ y, KPAGE ≤ y → t.proc.pgdir.entry y = m.pgdir.entry y))
    (fun msg => msg = "Page Fault" ∧ ¬ ArgsSmall argv) s

end

section

variable {img : Image} {phystop : Nat} {disk : Disk} {kstack : Nat → Nat → UInt8}
  {s : Sys} {fuel depth inum : Nat} {path : Str} {argv : List Str}

/-- Whatever the file is after the magic. -/
theorem load_safe_iff (h : Ready img phystop s) (hpath : disk.namei path = some inum)
    (hmagic : [0x7F, 0x45, 0x4C, 0x46] <+: (disk.inode inum).bytes) :
    LoadsSafely img phystop disk kstack (fuel + 1) depth path argv s ↔
      ProgramFits img phystop (disk.inode inum) s.vm := by
  have hready := h.open inum
  unfold LoadsSafely wp
  rw [execve_elf hpath hmagic]
  constructor
  · intro hsafe
    by_contra hfit
    rw [bind_of_error (execElf_panics hready hfit)] at hsafe
    exact absurd hsafe.1 (by decide)
  · intro hfit
    refine wp_bind.mpr (wp_execElf hready hfit (fun t hgiven _ _ => ?_)
      fun data sz t _ _ _ hbuilt hb _ hclosed => ?_)
    · exact ⟨⟨_, rfl⟩, hgiven.writes, fun heq => absurd heq (by decide)⟩
    have hspace := hb.space hready hbuilt hclosed.proc
    by_cases hargs : ArgsFit sz argv
    · obtain ⟨mem, hpush, -⟩ := pushArgs_inside hspace hargs
      unfold wp
      rw [bind_of_ok hpush]
      refine wp_commit (hready.retire hb.sound.owned.free hclosed.proc) fun u hproc _ hbelow _ _ =>
        ⟨⟨0, rfl⟩, fun w hw => ?_, fun _ => ?_⟩
      · rcases hbelow.writes w hw with hw | hw
        · exact hb.writes w hw
        · exact .inr (.inl hw)
      · obtain ⟨m, hrun, -, hm⟩ := hb.kernel
        rw [hproc]
        exact ⟨m, hrun, hm.kernel⟩
    · refine ((pushArgs_outside hspace hargs).and pushArgs_frame).bind
        (fun msg hmsg => ⟨hmsg.1, fun hsmall => hargs (hsmall.fit hbuilt)⟩) ?_
      rintro r _ ⟨rfl, mem, rfl⟩
      have hb' : Building img phystop (s.open inum) { t with mem := mem } :=
        ⟨hb.kernel, hb.sound, hb.census⟩
      refine wp_bind.mpr (wp_freevm hb' fun t' hgiven _ _ _ _ => ?_)
      exact ⟨⟨_, rfl⟩, hgiven.writes, fun heq => absurd heq (by decide)⟩

def hugeProgram : File where
  mode := 0o755
  uid := 0
  gid := 0
  bytes := [0x7F, 0x45, 0x4C, 0x46] ++ List.replicate 24 0 ++
    ByteBlock.le32 52 ++ List.replicate 12 0 ++ [1, 0] ++ List.replicate 6 0 ++
    ByteBlock.words [1, 0, 0, 0, 0, 0xC0001000, 0, 0]
  small := by decide

end

/-- `exec` of the file panics. -/
theorem huge_segment_panics : ∃ s, Ready Vm.smallImage physTop s ∧
    execve Vm.smallImage physTop (oneFile hugeProgram) (fun _ _ => 0) 1 0 [0x78] [[0x78]] s =
      .error "kfree" ∧
    ¬ LoadsSafely Vm.smallImage physTop (oneFile hugeProgram)
      (fun _ _ => 0) 1 0 [0x78] [[0x78]] s := by
  obtain ⟨s, hready, hfree⟩ := exists_ready
  have hfit : ¬ ProgramFits Vm.smallImage physTop hugeProgram s.vm := by
    intro hfit
    obtain ⟨ok, m1, hrun, hsetup⟩ := (Vm.setupkvm_spec (m := { s.vm with stores := [] })
        hready.fits hready.free).returns fun _ => id
    obtain rfl : ok = true := by
      by_contra hno
      have hfew : s.vm.freelist.length ≤ 256 := hsetup.nomem (by simpa using hno)
      omega
    have hsegs : SegmentsFit Vm.smallImage physTop hugeProgram 1 52 0 { m1 with stores := [] } :=
      hfit (hugeProgram.bytes.take 52) m1 (by decide) (by decide) hrun
    have hfits := (hsegs (hugeProgram.bytes.drop 52) (by decide)).1
    exact absurd (hfits (by decide) (by decide) (by decide)) (by decide)
  have hpanic : execve Vm.smallImage physTop (oneFile hugeProgram)
      (fun _ _ => 0) 1 0 [0x78] [[0x78]] s = .error "kfree" := by
    rw [execve_elf (show (oneFile hugeProgram).namei [0x78] = some 1 from rfl) (by decide)]
    exact bind_of_error (execElf_panics (hready.open 1) hfit)
  refine ⟨s, hready, hpanic, fun hsafe => ?_⟩
  unfold LoadsSafely wp at hsafe
  rw [hpanic] at hsafe
  exact absurd hsafe.1 (by decide)

/-- A file with one program header, for four bytes in a segment of a page. -/
def oneSegment : File where
  mode := 0o755
  uid := 0
  gid := 0
  bytes := [0x7F, 0x45, 0x4C, 0x46] ++ List.replicate 24 0 ++
    ByteBlock.le32 52 ++ List.replicate 12 0 ++ [1, 0] ++ List.replicate 6 0 ++
    ByteBlock.words [1, 84, 0, 0, 4, 4096, 0, 0] ++ [0x90, 0x90, 0x90, 0x90]
  small := by decide

/-- With a path `ls` and the argument `-l`. -/
theorem load_safe_iff_one_segment : ∃ s, Ready Vm.smallImage physTop s ∧
    ArgsSmall [[0x6C, 0x73], [0x2D, 0x6C]] ∧
    LoadsSafely Vm.smallImage physTop (oneFile oneSegment)
      (fun _ _ => 0) 1 0 [0x6C, 0x73] [[0x6C, 0x73], [0x2D, 0x6C]] s := by
  obtain ⟨s, hready, -⟩ := exists_ready
  have hfit : ProgramFits Vm.smallImage physTop oneSegment s.vm := by
    intro data m' hread _ _
    have hone : data = oneSegment.bytes.take 52 := by
      cases hread
      rfl
    subst hone
    have hsegs : SegmentsFit Vm.smallImage physTop oneSegment 1 52 0 { m' with stores := [] } := by
      intro data hdata
      have hheader : data = (oneSegment.bytes.drop 52).take 32 := by
        cases hdata
        rfl
      subst hheader
      refine ⟨?_, fun _ _ _ => trivial⟩
      unfold ProgHdr.Fits
      decide
    exact hsegs
  have hpath : (oneFile oneSegment).namei [0x6C, 0x73] = some 1 := rfl
  exact ⟨s, hready, by decide, (load_safe_iff hready hpath (by decide)).mpr hfit⟩

end Micro86.ExecFile
