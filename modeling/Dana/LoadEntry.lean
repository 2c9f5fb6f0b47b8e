import Dana.LoadBytes
import Dana.MachoUnload

/-! The entry point that `macho_load` reports: `entryoff` from a base address that is guessed
from the segments, or 0 where the image has no `LC_MAIN`. -/
namespace Dana
open ByteMem

/-- The first `LC_MAIN` among the `n` commands from `lc` on. -/
def mainOf (img : Mem) : ℕ → Word → Option Word
  | 0, _ => none
  | n+1, lc => if lcCmd img lc = lcMain then some lc else mainOf img n (lcNext img lc)

/-- The byte at `off` of the file is one of those of the segment. -/
def InFile (img : Mem) (seg off : Word) : Prop :=
  (segFileoff img seg).toNat ≤ off.toNat ∧
    off.toNat < (segFileoff img seg).toNat+(segFilesize img seg).toNat

instance (img : Mem) (seg off : Word) : Decidable (InFile img seg off) :=
  inferInstanceAs (Decidable (_ ∧ _))

/-- The address of the byte at `off` of the file in the segment. -/
def fileAddr (img : Mem) (seg off : Word) : Word := segVmaddr img seg+(off-segFileoff img seg)

/-- The segments of the image with pages. -/
def imageSegments (img : Mem) (imageData : Word) : List Word :=
  segmentsOf img (mhNcmds img imageData).toNat (imageData+sizeofMachHeader64)

def imageMain (img : Mem) (imageData : Word) : Option Word :=
  mainOf img (mhNcmds img imageData).toNat (imageData+sizeofMachHeader64)

/-- The address is in a segment that may be executed. -/
def InText (img : Mem) (imageData va : Word) : Prop :=
  ∃ seg ∈ imageSegments img imageData,
    InSegment img seg va ∧ segInitprot img seg &&& vmProtExecute ≠ 0

/-- There is an `LC_MAIN`, and the entry point is where the byte at its `entryoff` was loaded,
in a segment that may be executed. -/
def EntryLoaded (img : Mem) (imageData entryPoint : Word) : Prop :=
  ∃ ep, imageMain img imageData = some ep ∧
    (∃ seg ∈ imageSegments img imageData, InFile img seg (epEntryoff img ep) ∧
      entryPoint = fileAddr img seg (epEntryoff img ep)) ∧
    InText img imageData entryPoint

/-- How far the addresses of a segment are from its place in the file. -/
def segSlide (img : Mem) (seg : Word) : Word := segVmaddr img seg-segFileoff img seg

/-- The first segment that maps offset 0 of the file, at an address that is not 0. -/
def baseSegment (img : Mem) (segs : List Word) : Option Word :=
  segs.find? fun seg => segFileoff img seg = 0 ∧ segVmaddr img seg ≠ 0

/-- There is an `LC_MAIN`, and a segment with the byte at its `entryoff` is as far from its place
in the file as the base segment, or not moved where there is none; and the address of the byte
may be executed. -/
def EntryPlaced (img : Mem) (imageData : Word) : Prop :=
  ∃ ep, imageMain img imageData = some ep ∧
    ∃ seg ∈ imageSegments img imageData, InFile img seg (epEntryoff img ep) ∧
      segSlide img seg = (baseSegment img (imageSegments img imageData)).elim 0 (segSlide img) ∧
      InText img imageData (fileAddr img seg (epEntryoff img ep))

/-- What the loop makes of the base address: 0 says that it is not set. -/
def baseAfter (img : Mem) (base seg : Word) : Word :=
  if segFileoff img seg = 0 ∧ base = 0 then segVmaddr img seg else base

section Entry
variable {h : Hhdm} {img : Mem} {s t : Loader} {map : VmMapPtr} {segs : List Word}
  {imageData imageSize imageOut header lc seg off va : Word}

/-- The byte at `off` of the file is laid at its address, where that is in the segment. -/
theorem InFile.segByte (hf : InFile img seg off) (hin : InSegment img seg (fileAddr img seg off)) :
    segByte img imageData seg (fileAddr img seg off) = some (img (imageData+off)) := by
  obtain ⟨hge, hlt⟩ := hf
  have hd : fileAddr img seg off-segVmaddr img seg = off-segFileoff img seg := by
    rw [fileAddr, BitVec.add_comm, BitVec.add_sub_cancel]
  have hn : (off-segFileoff img seg).toNat = off.toNat-(segFileoff img seg).toNat :=
    BitVec.toNat_sub_of_le hge
  have hadd : imageData+segFileoff img seg+(off-segFileoff img seg) = imageData+off := by
    rw [BitVec.add_assoc, BitVec.add_comm (segFileoff img seg), BitVec.sub_add_cancel]
  rw [Dana.segByte, if_pos hin, hd, hn, if_pos (by omega), hadd]

/-- A base address and an offset give the address of the byte exactly if the segment is as far
from its place in the file as the base. -/
theorem fileAddr_eq (base : Word) : base+off = fileAddr img seg off ↔ segSlide img seg = base := by
  have hslide : fileAddr img seg off = segSlide img seg+off := by
    rw [fileAddr, segSlide, BitVec.sub_eq_add_neg, BitVec.sub_eq_add_neg,
      BitVec.add_comm off, BitVec.add_assoc]
  rw [hslide, eq_comm]
  exact ⟨add_right_cancel, congrArg (·+off)⟩

theorem machoBase_base (seg : Word) :
    (machoBase img seg s).image.baseAddress = baseAfter img s.image.baseAddress seg := by
  unfold machoBase baseAfter
  split_ifs <;> rfl

/-- A segment that is loaded with success may give the base address. -/
theorem machoSegment_base (hr : machoSegment h img imageData map seg s = (some .success, t)) :
    t.image.baseAddress = if segVmsize img seg = 0 then s.image.baseAddress
      else baseAfter img s.image.baseAddress seg := by
  rcases machoSegment_done hr with ⟨hz, rfl⟩ | ⟨hz, _, vm, _, ht⟩
  · rw [if_pos hz]
    rfl
  · have hcopy : (stateOf (machoCopy h img imageData seg (s.mapped img seg vm))).image =
        (s.mapped img seg vm).image :=
      machoCopy_inv (I := fun t => t.image = (s.mapped img seg vm).image)
        (fun _ _ _ ht => ht) (fun t va b ht => (storeByte_image va b).trans ht) rfl seg
    rw [ht] at hcopy
    rw [if_neg hz]
    exact (congrArg MachoImage.baseAddress hcopy).trans (machoBase_base seg)

/-- The walk folds the base address over the segments with pages. -/
theorem machoParseSegments_base (n : ℕ)
    (hr : machoParseSegments h img header imageData map n lc s = (some .success, t)) :
    t.image.baseAddress = (segmentsOf img n lc).foldl (baseAfter img) s.image.baseAddress := by
  refine machoParseSegments_chain (P := fun segs s => t.image.baseAddress =
    segs.foldl (baseAfter img) s.image.baseAddress) n hr (fun _ _ _ hP => hP) rfl ?_
  intro seg segs s t' hz ht hP
  rw [hP, machoSegment_base ht, if_neg hz]
  rfl

/-- A base address that is set stays. -/
theorem baseAfter_set {base : Word} (hb : base ≠ 0) : segs.foldl (baseAfter img) base = base := by
  induction segs with
  | nil => rfl
  | cons seg segs ih =>
    rw [List.foldl_cons, baseAfter, if_neg fun hc => hb hc.2, ih]

theorem baseSegment_cons : baseSegment img (seg :: segs) =
    if segFileoff img seg = 0 ∧ segVmaddr img seg ≠ 0 then some seg else baseSegment img segs := by
  unfold baseSegment
  split_ifs with hc
  · exact List.find?_cons_of_pos (decide_eq_true hc)
  · exact List.find?_cons_of_neg fun hd => hc (of_decide_eq_true hd)

/-- The base address is that of the base segment: one at address 0 leaves it unset. -/
theorem baseAfter_slide :
    segs.foldl (baseAfter img) 0 = (baseSegment img segs).elim 0 (segSlide img) := by
  induction segs with
  | nil => rfl
  | cons seg segs ih =>
    rw [List.foldl_cons, baseAfter, baseSegment_cons]
    by_cases hoff : segFileoff img seg = 0
    · rw [if_pos ⟨hoff, rfl⟩]
      by_cases haddr : segVmaddr img seg = 0
      · rw [if_neg fun hc => hc.2 haddr, haddr, ih]
      · rw [if_pos ⟨hoff, haddr⟩, baseAfter_set haddr, Option.elim_some, segSlide, hoff]
        exact (BitVec.sub_zero _).symm
    · rw [if_neg fun hc => hoff hc.1, if_neg fun hc => hoff hc.1, ih]

theorem machoFindEntry_entry (header : Word) (n : ℕ) :
    (machoFindEntry img header n lc s).image.entryPoint =
      (mainOf img n lc).elim 0 fun ep => s.image.baseAddress+epEntryoff img ep := by
  induction n generalizing lc s with
  | zero => rfl
  | succ n ih =>
    rw [machoFindEntry, mainOf]
    dsimp only
    split_ifs
    · rfl
    · exact ih

/-- The entry point of a load that succeeds, as the image gives it. -/
theorem machoLoad_entry
    (hl : machoLoad h img map imageData imageSize imageOut s = (some .success, t)) :
    t.image.entryPoint = (imageMain img imageData).elim 0 fun ep =>
      (baseSegment img (imageSegments img imageData)).elim 0 (segSlide img)+epEntryoff img ep := by
  obtain ⟨_, t', hp, rfl⟩ := machoLoad_found hl
  have hbase := machoParseSegments_base _ hp
  change t'.image.baseAddress = List.foldl _ 0 _ at hbase
  rw [machoFindEntry_entry, hbase, baseAfter_slide, imageMain, imageSegments]

/-- A load that succeeds reports where the byte at `entryoff` was loaded, in a segment that may
be executed, if and only if the image has an `LC_MAIN` and the byte is placed as the base
segment is. -/
theorem macho_load_entry
    (hl : machoLoad h img map imageData imageSize imageOut s = (some .success, t)) :
    EntryLoaded img imageData t.image.entryPoint ↔ EntryPlaced img imageData := by
  have hentry := machoLoad_entry hl
  constructor
  · rintro ⟨ep, hmain, ⟨seg, hseg, hfile, haddr⟩, htext⟩
    rw [haddr] at htext
    rw [hmain, haddr, Option.elim_some] at hentry
    exact ⟨ep, hmain, seg, hseg, hfile, (fileAddr_eq _).mp hentry.symm, htext⟩
  · rintro ⟨ep, hmain, seg, hseg, hfile, hslide, htext⟩
    rw [hmain, Option.elim_some] at hentry
    have haddr := hentry.trans ((fileAddr_eq _).mpr hslide)
    exact ⟨ep, hmain, ⟨seg, hseg, hfile, haddr⟩, haddr ▸ htext⟩

end Entry

/-- A segment for the header, with no bytes, and one for the text, the byte at 0x1000. -/
def entryImage : Mem := Function.update (imageAt 0x100000
  (machHeader 3 168 ++ segmentCommand 0x10000 0x1000 0 0 1 ++
    segmentCommand 0x11000 1 0x1000 1 7 ++ entryPointCommand 0x1000)) 0x101000 0xc3

/-- The loader before the load, with the tables of the map in CR3. -/
def entryFirst : Loader := ⟨vmFirst.pmapSwitch (.page 0x4000), ⟨0, 0, 0, 0⟩, [], []⟩

theorem entryFirst_load : machoLoad higherHalf entryImage vmFirstMap 0x100000 0x1001 localPtr entryFirst =
    (some .success, (machoLoad higherHalf entryImage vmFirstMap 0x100000 0x1001 localPtr entryFirst).2) := by
  have hkr : (machoLoad higherHalf entryImage vmFirstMap 0x100000 0x1001 localPtr entryFirst).1 =
      some .success := by decide +kernel
  rw [← hkr]

theorem entryImage_placed : EntryPlaced entryImage 0x100000 := by
  have hfacts : imageMain entryImage 0x100000 = some 0x1000b0 ∧
      0x100068 ∈ imageSegments entryImage 0x100000 ∧
      InFile entryImage 0x100068 (epEntryoff entryImage 0x1000b0) ∧
      segSlide entryImage 0x100068 = (baseSegment entryImage
        (imageSegments entryImage 0x100000)).elim 0 (segSlide entryImage) ∧
      InSegment entryImage 0x100068 (fileAddr entryImage 0x100068 (epEntryoff entryImage 0x1000b0)) ∧
      segInitprot entryImage 0x100068 &&& vmProtExecute ≠ 0 := by
    decide +kernel
  obtain ⟨hmain, hseg, hfile, hslide, hin, hexec⟩ := hfacts
  exact ⟨_, hmain, _, hseg, hfile, hslide, _, hseg, hin, hexec⟩

/-- The entry point of the image is where it was placed. -/
theorem macho_load_entry_text :
    let t := (machoLoad higherHalf entryImage vmFirstMap 0x100000 0x1001 localPtr entryFirst).2
    EntryPlaced entryImage 0x100000 ∧
      (EntryLoaded entryImage 0x100000 t.image.entryPoint ↔ EntryPlaced entryImage 0x100000) :=
  ⟨entryImage_placed, macho_load_entry entryFirst_load⟩

theorem pageImage_inside (v : VmMap) : LoadCommandsInside v pageImage 0x100000 0x68 := by
  have hfacts : (mhNcmds pageImage 0x100000).toNat = 1 ∧
      (0x100000+sizeofMachHeader64 : Word) = 0x100020 ∧
      lcCmd pageImage 0x100020 ≠ lcMain ∧ segFilesize pageImage 0x100020 = 0 := by decide
  obtain ⟨hn, hlc, hmain, hfile⟩ := hfacts
  rw [LoadCommandsInside, hn, hlc]
  have hseg : SegmentInside v pageImage 0x100000 0x68 0x100020 :=
    ⟨by decide, fun _ => by decide, fun _ _ => ⟨by decide, by decide, fun hne => absurd hfile hne⟩⟩
  exact ⟨⟨by decide, fun _ => hseg, Or.inr ⟨by decide, trivial⟩⟩,
    fun _ => ⟨by decide, fun hc => absurd hc hmain, fun _ => ⟨by decide, trivial⟩⟩⟩

/-- An image without `LC_MAIN` is loaded with success, and its entry point is 0. -/
theorem macho_load_without_entry :
    mhFiletype pageImage 0x100000 = mhExecute ∧
    LoadCommandsInside (unloadFirst.vm.maps vmFirstMap) pageImage 0x100000 0x68 ∧
    ∃ t, machoLoad higherHalf pageImage vmFirstMap 0x100000 0x68 localPtr unloadFirst =
        (some .success, t) ∧
      t.image.entryPoint = 0 ∧ ¬ EntryLoaded pageImage 0x100000 t.image.entryPoint := by
  have hmain : imageMain pageImage 0x100000 = none := by decide
  have hentry := machoLoad_entry unloadFirst_load
  rw [hmain, Option.elim_none] at hentry
  refine ⟨by decide, pageImage_inside _, _, unloadFirst_load, hentry, ?_⟩
  rintro ⟨ep, hep, _⟩
  rw [hmain] at hep
  cases hep

end Dana
