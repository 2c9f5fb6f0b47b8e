import Dana.LoadFrame

/-! Which bytes a load reads: the loader checks that the image holds a header, and nothing of
what the header says. -/
namespace Dana
open ByteMem AddrLoop

/-- The `n` bytes at `a` are in the image. -/
def Inside (imageData imageSize a : Word) (n : ℕ) : Prop := (a-imageData).toNat+n ≤ imageSize.toNat

instance (imageData imageSize a : Word) (n : ℕ) : Decidable (Inside imageData imageSize a n) :=
  inferInstanceAs (Decidable (_ ≤ _))

def ReadsInside (imageData imageSize : Word) (s : Loader) : Prop :=
  ∀ r ∈ s.reads, Inside imageData imageSize r.1 r.2.toNat

instance (imageData imageSize : Word) (s : Loader) : Decidable (ReadsInside imageData imageSize s) :=
  List.decidableBAll (fun r : Word × Word => Inside imageData imageSize r.1 r.2.toNat) s.reads

/-- The fields of a segment that the loader needs, and the bytes of the file, are in the
image. -/
structure SegmentInside (v : VmMap) (img : Mem) (imageData imageSize seg : Word) : Prop where
  vmsize : Inside imageData imageSize (seg+32) 8
  range : segVmsize img seg ≠ 0 →
    Inside imageData imageSize (seg+24) 8 ∧ Inside imageData imageSize (seg+60) 4
  file : segVmsize img seg ≠ 0 → vmRangeOk v (segVmaddr img seg) (segVmsize img seg) = true →
    Inside imageData imageSize (seg+40) 8 ∧ Inside imageData imageSize (seg+48) 8 ∧
    (segFilesize img seg ≠ 0 →
      (segFileoff img seg).toNat+(segFilesize img seg).toNat ≤ imageSize.toNat)

/-- The `n` commands from `lc` on are in the image, up to the first that is rejected. -/
def CommandsInside (v : VmMap) (img : Mem) (imageData imageSize : Word) : ℕ → Word → Prop
  | 0, _ => True
  | n+1, lc => Inside imageData imageSize lc 4 ∧
    (lcCmd img lc = lcSegment64 → SegmentInside v img imageData imageSize lc) ∧
    (SegRejected v img lc ∨ Inside imageData imageSize (lc+4) 4 ∧
      CommandsInside v img imageData imageSize n (lcNext img lc))

/-- Of the `n` commands from `lc` on, those up to the first entry point are in the image. -/
def EntryInside (img : Mem) (imageData imageSize : Word) : ℕ → Word → Prop
  | 0, _ => True
  | n+1, lc => Inside imageData imageSize lc 4 ∧
    (lcCmd img lc = lcMain → Inside imageData imageSize (lc+8) 8) ∧
    (lcCmd img lc ≠ lcMain → Inside imageData imageSize (lc+4) 4 ∧
      EntryInside img imageData imageSize n (lcNext img lc))

/-- The load commands of the header are in the image. -/
def LoadCommandsInside (v : VmMap) (img : Mem) (imageData imageSize : Word) : Prop :=
  let ncmds := (mhNcmds img imageData).toNat
  let lc := imageData+sizeofMachHeader64
  CommandsInside v img imageData imageSize ncmds lc ∧
    (CommandsAccepted v img ncmds lc → EntryInside img imageData imageSize ncmds lc)

section Reads
variable {h : Hhdm} {img : Mem} {imageData imageSize : Word} {s s' : Loader} {map : VmMapPtr}
  {v : VmMap} {lc seg : Word}

theorem readsInside_read {a n : Word} : ReadsInside imageData imageSize (s.read a n) ↔
    Inside imageData imageSize a n.toNat ∧ ReadsInside imageData imageSize s :=
  List.forall_mem_cons

theorem ReadsInside.of_frame (hr : ReadsInside imageData imageSize s') (hf : LoadFrame s s') :
    ReadsInside imageData imageSize s := fun r hm => hr r (hf.reads.subset hm)

theorem readsInside_congr (he : s'.reads = s.reads) :
    ReadsInside imageData imageSize s' ↔ ReadsInside imageData imageSize s := by
  rw [ReadsInside, he]
  rfl

/-- The header is in an image of 32 bytes. -/
theorem inside_header (hsize : 32 ≤ imageSize.toNat) {k : Word} {n : ℕ} (hk : k.toNat+n ≤ 32) :
    Inside imageData imageSize (imageData+k) n := by
  have hsub : imageData+k-imageData = k := by
    rw [BitVec.add_comm]
    exact BitVec.add_sub_cancel _ _
  rw [Inside, hsub]
  omega

theorem inside_magic (hsize : 32 ≤ imageSize.toNat) : Inside imageData imageSize imageData 4 := by
  rw [Inside, BitVec.sub_self]
  exact le_trans (by decide) hsize

variable (imageData) in
/-- A range of the file whose bytes are all in the image does not wrap. -/
theorem inside_bytes {off n : Word} (hn : n ≠ 0) :
    (∀ i < n.toNat, Inside imageData imageSize (imageData+off+BitVec.ofNat 64 i) 1) ↔
      off.toNat+n.toNat ≤ imageSize.toNat := by
  have hpos : 0 < n.toNat := by
    refine Nat.pos_of_ne_zero fun hz => hn (BitVec.eq_of_toNat_eq ?_)
    rw [hz]
    rfl
  have hoff (i : ℕ) : (imageData+off+BitVec.ofNat 64 i-imageData).toNat = (off.toNat+i)%2^64 := by
    have hsub : imageData+off+BitVec.ofNat 64 i-imageData = off+BitVec.ofNat 64 i := by
      rw [BitVec.add_assoc, BitVec.add_comm]
      exact BitVec.add_sub_cancel _ _
    rw [hsub, BitVec.toNat_add, BitVec.toNat_ofNat, Nat.add_mod_mod]
  have hsz := imageSize.isLt
  have hol := off.isLt
  simp only [Inside, hoff]
  constructor
  · intro hall
    by_cases hwrap : off.toNat+n.toNat ≤ 2^64
    · have hlast := hall (n.toNat-1) (by omega)
      rw [Nat.mod_eq_of_lt (by omega)] at hlast
      omega
    · -- the byte before the wrap is past every image
      have hlast := hall (2^64-1-off.toNat) (by omega)
      rw [Nat.mod_eq_of_lt (by omega)] at hlast
      omega
  · intro hle i hi
    rw [Nat.mod_eq_of_lt (by omega)]
    omega

theorem storeByte_reads (va : Word) (b : Byte) : (stateOf (s.storeByte h va b)).reads = s.reads := by
  unfold Loader.storeByte
  split <;> rfl

theorem kmemset_reads (dst n : Word) (c : Byte) : (stateOf (kmemset h dst c n s)).reads = s.reads := by
  refine forBytes_inv (I := fun t => t.reads = s.reads) _ _ (fun i _ t ht => ?_) rfl
  exact (storeByte_reads _ _).trans ht

/-- The address that `kmemcpy` reads in round `i`. -/
theorem kmemcpy_src (dst src : Word) (i : ℕ) :
    src+(dst+BitVec.ofNat 64 i-dst) = src+BitVec.ofNat 64 i := by
  rw [BitVec.add_comm dst, BitVec.add_sub_cancel]

theorem kmemcpy_inside {dst src n : Word} (hs : ReadsInside imageData imageSize s)
    (hin : ∀ i < n.toNat, Inside imageData imageSize (src+BitVec.ofNat 64 i) 1) :
    ReadsInside imageData imageSize (stateOf (kmemcpy h img dst src n s)) := by
  refine forBytes_inv _ _ (fun i hi t ht => ?_) hs
  dsimp only
  rw [kmemcpy_src, readsInside_congr (storeByte_reads _ _), readsInside_read]
  exact ⟨hin i hi, ht⟩

theorem kmemcpy_reads {dst src n : Word} (hr : kmemcpy h img dst src n s = .ok s') :
    ∀ i < n.toNat, (src+BitVec.ofNat 64 i, 1) ∈ s'.reads := by
  refine forBytes_ok (I := fun k t => ∀ i < k, (src+BitVec.ofNat 64 i, (1 : Word)) ∈ t.reads) _ _
    (fun k _ t t' ht hb i hi => ?_) (fun i hi => absurd hi i.not_lt_zero) hr
  dsimp only at hb
  have hreads := storeByte_reads (h := h) (s := t.read (src+(dst+BitVec.ofNat 64 k-dst)) 1)
    (dst+BitVec.ofNat 64 k) (img (src+(dst+BitVec.ofNat 64 k-dst)))
  rw [hb, kmemcpy_src] at hreads
  change t'.reads = _ at hreads
  rw [hreads]
  by_cases hik : i = k
  · rw [hik]
    exact List.mem_cons_self
  · exact List.mem_cons_of_mem _ (ht i (by omega))

theorem machoCopy_inside (hs : ReadsInside imageData imageSize s)
    (h48 : Inside imageData imageSize (seg+48) 8)
    (hfile : segFilesize img seg ≠ 0 →
      (segFileoff img seg).toNat+(segFilesize img seg).toNat ≤ imageSize.toNat) :
    ReadsInside imageData imageSize (stateOf (machoCopy h img imageData seg s)) := by
  have h0 : ReadsInside imageData imageSize (s.read (seg+48) 8) := readsInside_read.mpr ⟨h48, hs⟩
  refine machoCopy_rule h0 (fun hz => ?_) fun t ht _ => ?_
  · exact kmemcpy_inside h0 ((inside_bytes imageData hz).mpr (hfile hz))
  · exact (readsInside_congr (kmemset_reads _ _ _)).mpr ht

/-- A copy that ends has read the whole file range. -/
theorem machoCopy_reads (hr : machoCopy h img imageData seg s = .ok s')
    (hin : ReadsInside imageData imageSize s') : Inside imageData imageSize (seg+48) 8 ∧
      (segFilesize img seg ≠ 0 →
        (segFileoff img seg).toNat+(segFilesize img seg).toNat ≤ imageSize.toNat) := by
  obtain ⟨hz, rfl⟩ | ⟨hz, t, hk, hset⟩ := machoCopy_done hr
  · exact ⟨(readsInside_read.mp hin).1, fun hne => absurd hz hne⟩
  have hframe := kmemcpy_frame h img (segVmaddr img seg) (imageData+segFileoff img seg)
    (segFilesize img seg) (s.read (seg+48) 8)
  rw [hk] at hframe
  have ht : ReadsInside imageData imageSize t := by
    rcases hset with ⟨_, hset⟩ | ⟨_, rfl⟩
    · have hreads := kmemset_reads (h := h) (s := t) (segVmaddr img seg+segFilesize img seg)
        (segVmsize img seg-segFilesize img seg) 0
      rw [hset] at hreads
      exact (readsInside_congr hreads).mp hin
    · exact hin
  refine ⟨(readsInside_read.mp (ht.of_frame hframe)).1, fun _ =>
    (inside_bytes imageData hz).mp fun i hi => ?_⟩
  exact ht _ (kmemcpy_reads hk i hi)

theorem readRange_inside : ReadsInside imageData imageSize (s.readRange seg) ↔
    Inside imageData imageSize (seg+32) 8 ∧
    (Inside imageData imageSize (seg+24) 8 ∧ Inside imageData imageSize (seg+60) 4) ∧
    ReadsInside imageData imageSize s := by
  rw [Loader.readRange, readsInside_read, readsInside_read, readsInside_read]
  constructor
  · intro hr
    exact ⟨hr.2.2.1, ⟨hr.2.1, hr.1⟩, hr.2.2.2⟩
  · intro hr
    exact ⟨hr.2.1.2, hr.2.1.1, hr.1, hr.2.2⟩

theorem mapped_inside {vm : VmState} : ReadsInside imageData imageSize (s.mapped img seg vm) ↔
    Inside imageData imageSize (seg+40) 8 ∧ ReadsInside imageData imageSize (s.readRange seg) := by
  rw [Loader.mapped, readsInside_congr (machoBase_reads _), readsInside_read]
  rfl

theorem machoSegment_inside (hv : (s.vm.maps map).fixed = v.fixed)
    (hs : ReadsInside imageData imageSize s) (hseg : SegmentInside v img imageData imageSize seg) :
    ReadsInside imageData imageSize (machoSegment h img imageData map seg s).2 := by
  have hrange (hz : segVmsize img seg ≠ 0) : ReadsInside imageData imageSize (s.readRange seg) :=
    readRange_inside.mpr ⟨hseg.vmsize, hseg.range hz, hs⟩
  have hcopy (hz : segVmsize img seg ≠ 0)
      (hok : vmRangeOk (s.vm.maps map) (segVmaddr img seg) (segVmsize img seg) = true)
      (vm : VmState) : ReadsInside imageData imageSize
        (stateOf (machoCopy h img imageData seg (s.mapped img seg vm))) := by
    obtain ⟨h40, h48, hfile⟩ := hseg.file hz (by rwa [← vmRangeOk_fixed hv])
    exact machoCopy_inside (mapped_inside.mpr ⟨h40, hrange hz⟩) h48 hfile
  rcases machoSegment_cases h img imageData map seg s with ⟨_, hr⟩ | ⟨hz, ⟨_, hr⟩ |
    ⟨hok, hr | ⟨vm, _, hr⟩ | ⟨vm, _, ⟨t, ht, hr⟩ | ⟨t, ht, hr⟩⟩⟩⟩
  · exact hr ▸ readsInside_read.mpr ⟨hseg.vmsize, hs⟩
  · exact hr ▸ hrange hz
  · exact hr ▸ hrange hz
  · rw [hr]
    exact hrange hz
  · have hin := hcopy hz hok vm
    rw [ht] at hin
    exact hr ▸ hin
  · have hin := hcopy hz hok vm
    rw [ht] at hin
    exact hr ▸ hin

/-- A segment that is handled without running out of memory has had its fields read, and its
bytes unless it is out of range. -/
theorem machoSegment_reads (hv : (s.vm.maps map).fixed = v.fixed) {kr : KernReturn}
    (hr : machoSegment h img imageData map seg s = (some kr, s')) (hkr : kr ≠ .noSpace)
    (hin : ReadsInside imageData imageSize s') :
    SegmentInside v img imageData imageSize seg ∧
    ((kr = .success ∧ (segVmsize img seg ≠ 0 →
        vmRangeOk v (segVmaddr img seg) (segVmsize img seg) = true)) ∨
      (kr = .invalidArgument ∧ segVmsize img seg ≠ 0 ∧
        vmRangeOk v (segVmaddr img seg) (segVmsize img seg) = false)) := by
  rw [← vmRangeOk_fixed hv]
  rcases machoSegment_cases h img imageData map seg s with ⟨hz, hr'⟩ | ⟨hz, ⟨hok, hr'⟩ |
    ⟨hok, hr' | ⟨vm, _, hr'⟩ | ⟨vm, _, ⟨t, ht, hr'⟩ | ⟨t, ht, hr'⟩⟩⟩⟩
  · obtain ⟨hk, rfl⟩ := Prod.mk.inj (hr.symm.trans hr')
    obtain rfl := Option.some.inj hk
    exact ⟨⟨(readsInside_read.mp hin).1, fun hne => absurd hz hne, fun hne => absurd hz hne⟩,
      Or.inl ⟨rfl, fun hne => absurd hz hne⟩⟩
  · obtain ⟨hk, rfl⟩ := Prod.mk.inj (hr.symm.trans hr')
    obtain rfl := Option.some.inj hk
    obtain ⟨h32, hrange, _⟩ := readRange_inside.mp hin
    refine ⟨⟨h32, fun _ => hrange, fun _ hok' => ?_⟩, Or.inr ⟨rfl, hz, hok⟩⟩
    rw [← vmRangeOk_fixed hv, hok] at hok'
    cases hok'
  · cases (Prod.mk.inj (hr.symm.trans hr')).1
  · obtain ⟨hk, _⟩ := Prod.mk.inj (hr.symm.trans hr')
    exact absurd (Option.some.inj hk) hkr
  · cases (Prod.mk.inj (hr.symm.trans hr')).1
  · obtain ⟨hk, rfl⟩ := Prod.mk.inj (hr.symm.trans hr')
    obtain rfl := Option.some.inj hk
    have hf := machoCopy_frame h img imageData seg (s.mapped img seg vm)
    rw [ht] at hf
    obtain ⟨h40, hbefore⟩ := mapped_inside.mp (hin.of_frame hf)
    obtain ⟨h32, hrange, _⟩ := readRange_inside.mp hbefore
    obtain ⟨h48, hfile⟩ := machoCopy_reads ht hin
    exact ⟨⟨h32, fun _ => hrange, fun _ _ => ⟨h40, h48, hfile⟩⟩, Or.inl ⟨rfl, fun _ => hok⟩⟩

theorem readCommand_inside : ReadsInside imageData imageSize (s.readCommand imageData lc) ↔
    Inside imageData imageSize lc 4 ∧ Inside imageData imageSize (imageData+16) 4 ∧
    ReadsInside imageData imageSize s := by
  rw [Loader.readCommand, readsInside_read, readsInside_read]
  rfl

theorem machoParseSegments_inside (hsize : 32 ≤ imageSize.toNat) (n : ℕ)
    (hv : (s.vm.maps map).fixed = v.fixed) (hs : ReadsInside imageData imageSize s)
    (hc : CommandsInside v img imageData imageSize n lc) :
    ReadsInside imageData imageSize
      (machoParseSegments h img imageData imageData map n lc s).2 := by
  have h16 : Inside imageData imageSize (imageData+16) 4 := inside_header hsize (by decide)
  induction n generalizing lc s with
  | zero => exact readsInside_read.mpr ⟨h16, hs⟩
  | succ n ih =>
    obtain ⟨hlc, hseg, hrest⟩ := hc
    have h0 : ReadsInside imageData imageSize (s.readCommand imageData lc) :=
      readCommand_inside.mpr ⟨hlc, h16, hs⟩
    have h1 (hcmd : lcCmd img lc = lcSegment64) : ReadsInside imageData imageSize
        (machoSegment h img imageData map lc (s.readCommand imageData lc)).2 :=
      machoSegment_inside (s := s.readCommand imageData lc) hv h0 (hseg hcmd)
    rcases machoParseSegments_cases h img imageData imageData map n lc s with
      ⟨t, ⟨hcmd, rfl⟩ | ⟨hcmd, ht⟩, hr⟩ | ⟨hcmd, _, hr⟩
    · rcases hrest with hrej | ⟨h4, hrest⟩
      · exact absurd hrej.1 hcmd
      · exact hr ▸ ih hv (readsInside_read.mpr ⟨h4, h0⟩) hrest
    · have hin := h1 hcmd
      have hf := machoSegment_frame h img imageData map lc (s.readCommand imageData lc)
      rw [ht] at hin hf
      rcases hrest with hrej | ⟨h4, hrest⟩
      · -- a segment that is out of range does not succeed
        rcases (machoSegment_reads (s := s.readCommand imageData lc) hv ht (by simp) hin).2 with ⟨_, hok⟩ | ⟨hk, _⟩
        · cases (hok hrej.2.1).symm.trans hrej.2.2
        · cases hk
      · exact hr ▸ ih ((hf.vm.fixed map).trans hv) (readsInside_read.mpr ⟨h4, hin⟩) hrest
    · exact hr ▸ h1 hcmd

/-- The walk has read every command up to the one where it ends. -/
theorem machoParseSegments_reads (n : ℕ) (hv : (s.vm.maps map).fixed = v.fixed) {kr : KernReturn}
    (hr : machoParseSegments h img imageData imageData map n lc s = (some kr, s'))
    (hkr : kr ≠ .noSpace) (hin : ReadsInside imageData imageSize s') :
    CommandsInside v img imageData imageSize n lc ∧
      (CommandsAccepted v img n lc ↔ kr = .success) := by
  induction n generalizing lc s with
  | zero =>
    exact ⟨trivial, fun _ => (Option.some.inj (Prod.mk.inj hr).1).symm, fun _ => trivial⟩
  | succ n ih =>
    have hseg {t : Loader} {k : KernReturn} (hk : k ≠ .noSpace)
        (ht : machoSegment h img imageData map lc (s.readCommand imageData lc) = (some k, t))
        (hin : ReadsInside imageData imageSize t) :=
      machoSegment_reads (s := s.readCommand imageData lc) hv ht hk hin
    rcases machoParseSegments_cases h img imageData imageData map n lc s with
      ⟨t, ⟨hcmd, rfl⟩ | ⟨hcmd, ht⟩, hr'⟩ | ⟨hcmd, hne, hr'⟩
    · rw [hr'] at hr
      have hf := machoParseSegments_frame h img imageData imageData map n (lcNext img lc)
        ((s.readCommand imageData lc).read (lc+4) 4)
      rw [hr] at hf
      obtain ⟨h4, hbefore⟩ := readsInside_read.mp (hin.of_frame hf)
      obtain ⟨hcs, hacc⟩ := ih (s := (s.readCommand imageData lc).read (lc+4) 4) hv hr
      exact ⟨⟨(readCommand_inside.mp hbefore).1, fun hc => absurd hc hcmd, Or.inr ⟨h4, hcs⟩⟩,
        fun ha => hacc.mp ha.2, fun hk => ⟨fun hrej => hcmd hrej.1, hacc.mpr hk⟩⟩
    · rw [hr'] at hr
      have hf := machoParseSegments_frame h img imageData imageData map n (lcNext img lc)
        (t.read (lc+4) 4)
      have hf0 := machoSegment_frame h img imageData map lc (s.readCommand imageData lc)
      rw [hr] at hf
      rw [ht] at hf0
      obtain ⟨h4, hbefore⟩ := readsInside_read.mp (hin.of_frame hf)
      obtain ⟨hcs, hacc⟩ := ih (s := t.read (lc+4) 4) ((hf0.vm.fixed map).trans hv) hr
      obtain ⟨hin', ⟨_, hok⟩ | ⟨hk, _⟩⟩ := hseg (by simp) ht hbefore
      · refine ⟨⟨(readCommand_inside.mp (hbefore.of_frame hf0)).1, fun _ => hin', Or.inr ⟨h4, hcs⟩⟩,
          fun ha => hacc.mp ha.2, fun hk => ⟨fun hrej => ?_, hacc.mpr hk⟩⟩
        cases (hok hrej.2.1).symm.trans hrej.2.2
      · cases hk
    · rw [hr'] at hr
      have hf0 := machoSegment_frame h img imageData map lc (s.readCommand imageData lc)
      rw [hr] at hf0
      obtain ⟨hin', ⟨rfl, _⟩ | ⟨hk, hrej⟩⟩ := hseg hkr hr hin
      · rw [hr] at hne
        exact absurd rfl hne
      · exact ⟨⟨(readCommand_inside.mp (hin.of_frame hf0)).1, fun _ => hin', Or.inl ⟨hcmd, hrej⟩⟩,
          fun ha => absurd ⟨hcmd, hrej⟩ ha.1, fun hs => by rw [hs] at hk; cases hk⟩

theorem machoFindEntry_inside (hsize : 32 ≤ imageSize.toNat) (n : ℕ) :
    ReadsInside imageData imageSize (machoFindEntry img imageData n lc s) ↔
      EntryInside img imageData imageSize n lc ∧ ReadsInside imageData imageSize s := by
  have h16 : Inside imageData imageSize (imageData+16) 4 := inside_header hsize (by decide)
  induction n generalizing lc s with
  | zero =>
    refine readsInside_read.trans ⟨fun hr => ⟨trivial, hr.2⟩, fun hr => ⟨h16, hr.2⟩⟩
  | succ n ih =>
    rw [machoFindEntry, EntryInside]
    dsimp only
    by_cases hc : lcCmd img lc = lcMain
    · rw [if_pos hc]
      refine (readsInside_read (s := s.readCommand imageData lc)).trans ?_
      rw [readCommand_inside]
      constructor
      · intro hr
        exact ⟨⟨hr.2.1, fun _ => hr.1, fun hne => absurd hc hne⟩, hr.2.2.2⟩
      · intro hr
        exact ⟨hr.1.2.1 hc, hr.1.1, h16, hr.2⟩
    · rw [if_neg hc]
      refine (ih (s := (s.readCommand imageData lc).read (lc+4) 4)).trans ?_
      rw [readsInside_read, readCommand_inside]
      constructor
      · intro hr
        exact ⟨⟨hr.2.2.1, fun he => absurd he hc, fun _ => ⟨hr.2.1, hr.1⟩⟩, hr.2.2.2.2⟩
      · intro hr
        exact ⟨(hr.1.2.2 hc).2, (hr.1.2.2 hc).1, hr.1.1, h16, hr.2⟩

/-- Every byte that `macho_load` reads is in the image if the load commands are, up to the
first segment outside the bounds of the map; and only then, unless a segment runs out of memory
or a store faults before the walk comes to the command that is not. -/
theorem macho_load_reads (h : Hhdm) (img : Mem) (map : VmMapPtr)
    (imageData imageSize imageOut : Word) (vm : VmState) (image : MachoImage) :
    ((HeaderAccepted img map imageData imageSize imageOut →
        LoadCommandsInside (vm.maps map) img imageData imageSize) →
      ReadsInside imageData imageSize
        (machoLoad h img map imageData imageSize imageOut ⟨vm, image, [], []⟩).2) ∧
    ((machoLoad h img map imageData imageSize imageOut ⟨vm, image, [], []⟩).1 ≠ none →
      (machoLoad h img map imageData imageSize imageOut ⟨vm, image, [], []⟩).1 ≠ some .noSpace →
      ReadsInside imageData imageSize
        (machoLoad h img map imageData imageSize imageOut ⟨vm, image, [], []⟩).2 →
      HeaderAccepted img map imageData imageSize imageOut →
        LoadCommandsInside (vm.maps map) img imageData imageSize) := by
  obtain ⟨s, hs⟩ : ∃ s : Loader, s = ⟨vm, image, [], []⟩ := ⟨_, rfl⟩
  have hnil : ReadsInside imageData imageSize s := by
    rw [hs]
    exact fun r hr => absurd hr List.not_mem_nil
  have hv : s.vm = vm := by rw [hs]
  rw [← hs, ← hv]
  by_cases ha : HeaderAccepted img map imageData imageSize imageOut
  swap
  · refine ⟨fun _ => ?_, fun _ _ _ ha' => absurd ha' ha⟩
    obtain ⟨kr, rs, hr, _, _, hrs⟩ := machoLoad_rejected (h := h) (s := s) ha
    rw [hr]
    intro r hmem
    rcases List.mem_append.mp hmem with hmem | hmem
    · obtain ⟨hsize, h4, hpos⟩ := hrs r hmem
      rw [h4]
      rcases hpos with he | he | he <;> rw [he]
      · exact inside_magic hsize
      · exact inside_header hsize (by decide)
      · exact inside_header hsize (by decide)
    · exact hnil r hmem
  have hstart : ReadsInside imageData imageSize (s.start imageData imageSize) :=
    readsInside_read.mpr ⟨inside_header ha.size (by decide), readsInside_read.mpr
      ⟨inside_header ha.size (by decide), readsInside_read.mpr ⟨inside_magic ha.size, hnil⟩⟩⟩
  have hload := machoLoad_accepted (h := h) (s := s) ha
  obtain ⟨n, hn⟩ : ∃ n, n = (mhNcmds img imageData).toNat := ⟨_, rfl⟩
  obtain ⟨lc, hlc⟩ : ∃ lc, lc = imageData+sizeofMachHeader64 := ⟨_, rfl⟩
  simp only [LoadCommandsInside, ← hn, ← hlc] at hload ⊢
  have hinside (hc : CommandsInside (s.vm.maps map) img imageData imageSize n lc) :
      ReadsInside imageData imageSize (machoParseSegments h img imageData imageData map n lc
        (s.start imageData imageSize)).2 :=
    machoParseSegments_inside (s := s.start imageData imageSize) ha.size n rfl hstart hc
  have hreads {kr : KernReturn} {t : Loader} (hr : machoParseSegments h img imageData imageData map n
      lc (s.start imageData imageSize) = (some kr, t)) (hkr : kr ≠ .noSpace)
      (hin : ReadsInside imageData imageSize t) :=
    machoParseSegments_reads (v := s.vm.maps map) (s := s.start imageData imageSize) n rfl hr hkr hin
  rcases hload with ⟨t, hp, hr⟩ | ⟨r, t, hp, hne, hr⟩
  · rw [hr]
    rw [hp] at hinside
    refine ⟨fun hin => ?_, fun _ _ hin _ => ?_⟩
    · obtain ⟨hc, he⟩ := hin ha
      have ht := hinside hc
      exact (machoFindEntry_inside ha.size n).mpr ⟨he ((hreads hp (by simp) ht).2.mpr rfl), ht⟩
    · obtain ⟨he, ht⟩ := (machoFindEntry_inside ha.size n).mp hin
      exact ⟨(hreads hp (by simp) ht).1, fun _ => he⟩
  · rw [hr]
    rw [hp] at hinside
    refine ⟨fun hin => hinside (hin ha).1, fun hsome hspace hin _ => ?_⟩
    obtain ⟨kr, rfl⟩ := Option.ne_none_iff_exists'.mp hsome
    obtain ⟨hc, hacc⟩ := hreads hp (fun hk => hspace (congrArg some hk)) hin
    exact ⟨hc, fun ha => absurd (congrArg some (hacc.mp ha)) hne⟩

/-- A header of 32 bytes that says it has one command: the command is read past the end. -/
theorem macho_load_reads_past_end :
    let r := machoLoad higherHalf (imageAt 0x100000 (machHeader 1 0)) vmFirstMap 0x100000 32 localPtr
      ⟨vmFirst, ⟨0, 0, 0, 0⟩, [], []⟩
    r.1 = some .success ∧ (0x100020, 4) ∈ r.2.reads ∧ ¬ ReadsInside 0x100000 32 r.2 := by
  decide +kernel

end Reads

end Dana
