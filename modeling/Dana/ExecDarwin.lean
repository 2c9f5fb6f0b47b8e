import Dana.ExecMap
import Dana.LoadFrame

/-! Images as Darwin's linker lays them out, with an empty first page zero: `exec_load` takes
none of them. -/
namespace Dana
open ByteMem Transition

/-- The command `i` places after `lc`. -/
def lcAt (img : Mem) : ℕ → Word → Word
  | 0, lc => lc
  | i+1, lc => lcAt img i (lcNext img lc)

/-- The `i`-th load command of an image. -/
def commandAt (img : Mem) (imageData : Word) (i : ℕ) : Word :=
  lcAt img i (imageData+sizeofMachHeader64)

/-- A segment with its pages in the user range and its bytes in the image. -/
structure SegmentFits (img : Mem) (imageSize seg : Word) : Prop where
  aligned : PageAligned (segVmaddr img seg)
  sized : PageAligned (segVmsize img seg)
  low : userMapMin.toNat ≤ (segVmaddr img seg).toNat
  high : (segVmaddr img seg).toNat+(segVmsize img seg).toNat ≤ userMapMax.toNat
  filesize : (segFilesize img seg).toNat ≤ (segVmsize img seg).toNat
  file : (segFileoff img seg).toNat+(segFilesize img seg).toNat ≤ imageSize.toNat

instance (img : Mem) (imageSize seg : Word) : Decidable (SegmentFits img imageSize seg) :=
  decidable_of_iff (PageAligned (segVmaddr img seg) ∧ PageAligned (segVmsize img seg) ∧
    userMapMin.toNat ≤ (segVmaddr img seg).toNat ∧
    (segVmaddr img seg).toNat+(segVmsize img seg).toNat ≤ userMapMax.toNat ∧
    (segFilesize img seg).toNat ≤ (segVmsize img seg).toNat ∧
    (segFileoff img seg).toNat+(segFilesize img seg).toNat ≤ imageSize.toNat)
    ⟨fun ⟨h1, h2, h3, h4, h5, h6⟩ => ⟨h1, h2, h3, h4, h5, h6⟩,
      fun ⟨h1, h2, h3, h4, h5, h6⟩ => ⟨h1, h2, h3, h4, h5, h6⟩⟩

/-- Two segments without a common address. -/
def SegmentsApart (img : Mem) (seg seg' : Word) : Prop :=
  (segVmaddr img seg).toNat+(segVmsize img seg).toNat ≤ (segVmaddr img seg').toNat ∨
  (segVmaddr img seg').toNat+(segVmsize img seg').toNat ≤ (segVmaddr img seg).toNat

instance (img : Mem) (seg seg' : Word) : Decidable (SegmentsApart img seg seg') :=
  inferInstanceAs (Decidable (_ ∨ _))

/-- An x86-64 executable with `__PAGEZERO` as its first segment, the command `pagezero`, one that
maps offset 0 of the file, `text`, and one `LC_MAIN`, `main`. -/
structure DarwinImage (img : Mem) (imageData imageSize : Word) (pagezero text main : ℕ) : Prop where
  size : 32 ≤ imageSize.toNat
  magic : mhMagic img imageData = mhMagic64
  filetype : mhFiletype img imageData = mhExecute
  cputype : mhCputype img imageData = cpuTypeX8664
  commands : ∀ i < (mhNcmds img imageData).toNat, 8 ≤ (lcCmdsize img (commandAt img imageData i)).toNat ∧
    (commandAt img imageData i-imageData).toNat+(lcCmdsize img (commandAt img imageData i)).toNat ≤
      imageSize.toNat
  zero_lt : pagezero < (mhNcmds img imageData).toNat
  zero_cmd : lcCmd img (commandAt img imageData pagezero) = lcSegment64
  zero_first : ∀ i < pagezero, lcCmd img (commandAt img imageData i) ≠ lcSegment64
  zero_vmaddr : segVmaddr img (commandAt img imageData pagezero) = 0
  zero_vmsize : segVmsize img (commandAt img imageData pagezero) ≠ 0
  zero_filesize : segFilesize img (commandAt img imageData pagezero) = 0
  zero_prot : segInitprot img (commandAt img imageData pagezero) = 0
  segments : ∀ i < (mhNcmds img imageData).toNat, i ≠ pagezero →
    lcCmd img (commandAt img imageData i) = lcSegment64 →
    SegmentFits img imageSize (commandAt img imageData i)
  apart : ∀ i < (mhNcmds img imageData).toNat, ∀ j < (mhNcmds img imageData).toNat, i ≠ j →
    lcCmd img (commandAt img imageData i) = lcSegment64 →
    lcCmd img (commandAt img imageData j) = lcSegment64 →
    SegmentsApart img (commandAt img imageData i) (commandAt img imageData j)
  text_lt : text < (mhNcmds img imageData).toNat
  text_ne : text ≠ pagezero
  text_cmd : lcCmd img (commandAt img imageData text) = lcSegment64
  text_fileoff : segFileoff img (commandAt img imageData text) = 0
  text_filesize : segFilesize img (commandAt img imageData text) ≠ 0
  main_iff : ∀ i < (mhNcmds img imageData).toNat,
    lcCmd img (commandAt img imageData i) = lcMain ↔ i = main
  main_lt : main < (mhNcmds img imageData).toNat

section Darwin
variable {h : Hhdm} {img : Mem} {v : VmMap} {lc imageData imageSize task : Word} {s s' : ExecState}

theorem CommandsAccepted.at {n i : ℕ} (ha : CommandsAccepted v img n lc) (hi : i < n) :
    ¬ SegRejected v img (lcAt img i lc) := by
  induction n generalizing lc i with
  | zero => exact absurd hi i.not_lt_zero
  | succ n ih =>
    cases i with
    | zero => exact ha.1
    | succ i =>
      show ¬ SegRejected v img (lcAt img i (lcNext img lc))
      exact ih ha.2 (by omega)

/-- `exec_load` takes no image with a `__PAGEZERO`, in any memory and for any task: address 0 is
below `USER_MAP_MIN`. -/
theorem exec_load_darwin {w : VmWorld} {s₀ vm₀ : VmState} (hb : VmBoot h s₀)
    (hs : vmMapInit s₀ = some vm₀) {trace : List VmOp}
    (hr : Run (VmStep h) (VmWorld.boot vm₀) trace w) (ho : ExecOver w s) {pagezero text main : ℕ}
    (himg : DarwinImage img imageData imageSize pagezero text main) (task entryPoint : Word) :
    (execLoad h img task imageData imageSize entryPoint s).1 ≠ some .success := by
  obtain ⟨g, lists, hI⟩ := VmWorldInv.run hb hs hr
  rcases execLoad_cases h img task imageData imageSize entryPoint s with ⟨_, hrun⟩ |
    ⟨_, ⟨_, _, hrun⟩ | ⟨s', hm, ⟨l, hl, _⟩ | ⟨r, l, _, hne, hrun⟩⟩⟩
  · rw [hrun]
    simp
  · rw [hrun]
    simp
  · have hmin : (s'.load.vm.maps (s'.taskMap task)).minOffset = userMapMin := by
      rcases execMap_true hm with ⟨rfl, hne⟩ | ⟨_, p, pm, m, vm, _, hvm, hne, rfl⟩
      · exact (ho.bounds hI hne).1
      · simp only [ExecState.withVm, Function.update_self]
        exact (vmMapCreate_bounds hvm hne).1
    by_cases ha : HeaderAccepted img (s'.taskMap task) imageData imageSize localPtr
    swap
    · obtain ⟨kr, rs, hrun, hkr, _⟩ := machoLoad_rejected (h := h) (s := s'.load) ha
      rw [hl] at hrun
      exact absurd (Option.some.inj (Prod.mk.inj hrun).1).symm hkr
    rcases machoLoad_accepted (h := h) (s := s'.load) ha with ⟨t, hp, _⟩ | ⟨r, t, _, hne, hrun⟩
    · have hacc := machoParseSegments_accepted (v := s'.load.vm.maps (s'.taskMap task))
        (s := s'.load.start imageData imageSize) imageData _ rfl hp
      refine absurd ⟨himg.zero_cmd, himg.zero_vmsize, ?_⟩ (hacc.at himg.zero_lt)
      change vmRangeOk _ (segVmaddr img (commandAt img imageData pagezero)) _ = false
      rw [himg.zero_vmaddr, vmRangeOk, hmin]
      simp [userMapMin]
    · rw [hl] at hrun
      exact absurd (Prod.mk.inj hrun).1.symm hne
  · rw [hrun]
    exact hne

end Darwin

/-- `__PAGEZERO`, one segment with the file, and `LC_MAIN`. -/
def darwinBytes : List Byte :=
  machHeader 3 168 ++ segmentCommand 0 0x100000000 0 0 0 ++
    segmentCommand 0x100000000 0x1000 0 0x200 5 ++ entryPointCommand 0x100

def darwinImage : Mem := imageAt 0x100000 darwinBytes

theorem darwinImage_darwin : DarwinImage darwinImage 0x100000 0x200 0 1 2 := by
  constructor <;> decide +kernel

/-- The state of `exec_load` over `vmFirst`, with no map for the task at 0x2000. -/
def execFirst : ExecState := ⟨⟨vmFirst, ⟨0, 0, 0, 0⟩, [], []⟩, fun _ => vmMapNull, 0⟩

theorem execFirst_over : ExecOver vmFirstWorld execFirst := ⟨rfl, fun _ => Or.inl rfl⟩

theorem exec_load_darwin_first :
    (execLoad higherHalf darwinImage 0x2000 0x100000 0x200 0x3000 execFirst).1 ≠ some .success :=
  exec_load_darwin vmBootState_boot vmBooted_init vmFirst_run execFirst_over darwinImage_darwin
    0x2000 0x3000

/-- The load is rejected, not out of memory. -/
theorem exec_load_pagezero :
    DarwinImage darwinImage 0x100000 0x200 0 1 2 ∧
    (execLoad higherHalf darwinImage 0x2000 0x100000 0x200 0x3000 execFirst).1 =
      some .invalidArgument := ⟨darwinImage_darwin, by decide +kernel⟩

end Dana
