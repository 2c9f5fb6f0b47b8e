import Dana.LoadBytes
import Dana.MachoUnload

/-! Which address space `exec_load` fills: the pages are those of the task's map, and the bytes
go through whatever tables CR3 holds. -/
namespace Dana
open ByteMem Transition

/-- Segments that are page-aligned, disjoint and in the user range, with their bytes in the
image. -/
structure WellFormedImage (img : Mem) (imageData imageSize : Word) : Prop where
  fits : ∀ seg ∈ segmentsOf img (mhNcmds img imageData).toNat (imageData+sizeofMachHeader64),
    SegmentFits img imageSize seg
  apart : (segmentsOf img (mhNcmds img imageData).toNat
    (imageData+sizeofMachHeader64)).Pairwise (SegmentsApart img)

/-- The load has touched the address space of `p` only: every store went through a present,
writable leaf of `p`, the segments read as in the image, and the address spaces of the world are
what they were. `pmap_kernel` has no user pages. -/
structure LoadsTarget (h : Hhdm) (img : Mem) (imageData : Word) (w : VmWorld) (p : PmapPtr)
    (s t : Loader) : Prop where
  stores : ∀ x ∈ s.storesSince t, x.1 = p ∧ x.2.2 &&& pteP ≠ 0 ∧ x.2.2 &&& pteW ≠ 0
  reads : ∀ seg ∈ segmentsOf img (mhNcmds img imageData).toNat (imageData+sizeofMachHeader64),
    ∀ k < (segVmsize img seg).toNat, hwLoad h t.vm p (segVmaddr img seg+BitVec.ofNat 64 k) =
      some (if k < (segFilesize img seg).toNat then
        img (imageData+segFileoff img seg+BitVec.ofNat 64 k) else 0)
  translations : ∀ q, w.Pmap q → q ≠ p → ∀ va,
    pmapTranslation h t.vm.pm q va = pmapTranslation h s.vm.pm q va
  user : ∀ q, w.Pmap q → q ≠ .kernel → q ≠ p → ∀ va, UserVa va →
    hwLoad h t.vm q va = hwLoad h s.vm q va

section Stores
variable {h : Hhdm} {img : Mem} {header imageData lc seg : Word} {s s' t : Loader} {m : VmMapPtr}

/-- There is a store since `s` through the tables of CR3. -/
def StoredActive (s t : Loader) : Prop :=
  ∃ new, t.stores = new ++ s.stores ∧ ∃ x ∈ new, x.1 = s.vm.active

/-- A segment that is loaded with success stores the bytes that it has in the file. -/
theorem machoSegment_active (hz : segVmsize img seg ≠ 0) (hfile : segFilesize img seg ≠ 0)
    (hr : machoSegment h img imageData m seg s = (some .success, t)) : StoredActive s t := by
  obtain ⟨hz', _⟩ | ⟨_, _, vm, hvm, ht⟩ := machoSegment_done hr
  · exact absurd hz' hz
  obtain ⟨new, hnew, hall⟩ := machoCopy_stored ht
  have hmapped : (s.mapped img seg vm).stores = s.stores := machoBase_stores seg
  have hvm' : (s.mapped img seg vm).vm = vm := machoBase_vm seg
  have hpos : 0 < (segFilesize img seg).toNat := by
    refine Nat.pos_of_ne_zero fun hc => hfile ?_
    exact BitVec.eq_of_toNat_eq hc
  obtain ⟨x, hx, hact, _⟩ := hall 0 hpos
  rw [hmapped] at hnew
  rw [hvm', (vmMapPageRange_same hvm).active] at hact
  exact ⟨new, hnew, x, hx, hact⟩

theorem machoParseSegments_active (n : ℕ)
    (hr : machoParseSegments h img header imageData m n lc s = (some .success, t))
    (hseg : seg ∈ segmentsOf img n lc) (hfile : segFilesize img seg ≠ 0) : StoredActive s t := by
  refine (machoParseSegments_chain (P := fun segs s => s.stores <:+ t.stores ∧
    (seg ∈ segs → StoredActive s t)) n hr (fun _ _ _ hP => hP) ?_ ?_).2 hseg
  · exact ⟨List.suffix_refl _, fun hin => absurd hin (by simp)⟩
  · intro seg' segs s t' hz ht hP
    have hframe := machoSegment_frame h img imageData m seg' s
    rw [ht] at hframe
    refine ⟨hframe.stores.trans hP.1, fun hin => ?_⟩
    rcases List.mem_cons.mp hin with rfl | hin
    · -- what the segment stores is still there at the end
      obtain ⟨later, hlater⟩ := hP.1
      obtain ⟨new, hnew, x, hx, hact⟩ := machoSegment_active hz hfile ht
      refine ⟨later ++ new, ?_, x, List.mem_append_right _ hx, hact⟩
      rw [← hlater, hnew, List.append_assoc]
    · obtain ⟨first, hfirst⟩ := hframe.stores
      obtain ⟨new, hnew, x, hx, hact⟩ := hP.2 hin
      refine ⟨new ++ first, ?_, x, List.mem_append_left _ hx, hact.trans hframe.vm.active⟩
      rw [hnew, ← hfirst, List.append_assoc]

end Stores

section Target
variable {h : Hhdm} {g : VmGhost} {maps : Set VmMapPtr} {lists : VmMapPtr → List EntryPtr}
  {w : VmWorld} {img : Mem} {imageData imageSize task entryPoint : Word} {s s' : ExecState}
  {l l' : Loader} {p : PmapPtr}

theorem pmapCreate_kernel {pm pm' : PmapState} (hr : pmapCreate h pm = (some p, pm')) :
    p ≠ .kernel ∧ pm'.pmaps .kernel = pm.pmaps .kernel := by
  obtain ⟨pa, pmm, d, pmm', mem, -, -, -, hcases⟩ := pmapCreate_cases h pm
  rw [hr] at hcases
  rcases hcases with ⟨_, hres⟩ | ⟨_, _, hres⟩ | ⟨_, _, hres⟩
  · cases (Prod.mk.inj hres).1
  · cases (Prod.mk.inj hres).1
  · obtain ⟨hp, rfl⟩ := Prod.mk.inj hres
    obtain rfl := Option.some.inj hp
    refine ⟨by simp, ?_⟩
    dsimp only
    exact Function.update_of_ne (by simp) _ _

/-- The address spaces there were are the same after a map has been made for a task. -/
structure MapMade (h : Hhdm) (g g' : VmGhost) (vm vm' : VmState) : Prop where
  live : g.live ⊆ g'.live
  active : vm'.active = vm.active
  translations : ∀ q, q = .kernel ∨ q ∈ g.live → ∀ va,
    pmapTranslation h vm'.pm q va = pmapTranslation h vm.pm q va
  user : ∀ q ∈ g.live, ∀ va, UserVa va → hwLoad h vm' q va = hwLoad h vm q va

theorem execMap_made (hI : VmInv h g w.maps lists s.load.vm)
    (hmap : s.taskMap task = vmMapNull ∨ s.taskMap task ∈ w.maps)
    (hr : execMap h task s = (true, s')) :
    ∃ g' maps' lists', VmInv h g' maps' lists' s'.load.vm ∧ s'.taskMap task ∈ maps' ∧
      s'.load.stores = s.load.stores ∧ MapMade h g g' s.load.vm s'.load.vm ∧
      (s.taskMap task ≠ vmMapNull → s' = s) ∧
      (s.taskMap task = vmMapNull → (s'.load.vm.maps (s'.taskMap task)).pmap ≠ .kernel ∧
        (s'.load.vm.maps (s'.taskMap task)).pmap ∉ g.live) := by
  rcases execMap_true hr with ⟨rfl, hne⟩ | ⟨hnull, p, pm, m, vm, hp, hm, hne, rfl⟩
  · exact ⟨g, w.maps, lists, hI, hmap.resolve_left hne, rfl, ⟨Set.Subset.refl _, rfl,
      fun _ _ _ => rfl, fun _ _ _ _ => rfl⟩, fun _ => rfl, fun hc => absurd hc hne⟩
  obtain ⟨g1, hI1, hk1, _, hlive1, hnew⟩ := hI.pmapCreate hp
  obtain ⟨hpk, hroot⟩ := pmapCreate_kernel hp
  have hp1 : p ∈ g1.live := by
    rw [hlive1]
    exact Or.inl rfl
  have hsub1 : g.live ⊆ g1.live := by
    rw [hlive1]
    exact Set.subset_union_right
  have hfree : ∀ m ∈ w.maps, (s.load.vm.maps m).pmap ≠ p := fun m hm hc =>
    (hnew p rfl).1 (hc ▸ hI.pmap m hm)
  rcases vmMapCreate_spec hI1 hp1 hfree with he | ⟨a, vm', g2, he, ha, hout, hI2, hk2, hlive2, hdata2,
    hpm2, hact2, hpmap2, hmaps2, _⟩
  · exact absurd (Prod.mk.inj (hm.symm.trans he)).1 hne
  obtain ⟨rfl, rfl⟩ := Prod.mk.inj (hm.symm.trans he)
  have hsub : g.live ⊆ g2.live := hlive2 ▸ hsub1
  have hpte (q : PmapPtr) (hq : q ∈ g.live) (va : Word) (hva : UserVa va) :
      pteOf h vm.pm q va = pteOf h s.load.vm.pm q va :=
    (hk2.same q (hsub1 hq) _ _ (vaPath_path hva.lower) (vaPath_leaf va)).trans
      (hk1.same q hq _ _ (vaPath_path hva.lower) (vaPath_leaf va))
  have hmem (x : Word) (hx : frameOf h x ∈ s.load.vm.data) :
      vm.pm.kmem.mem x = s.load.vm.pm.kmem.mem x := (hk2.mem x hx).trans (hk1.mem x hx)
  have hker (x : Word) (hx : g.own (frameOf h x) = .kernel) :
      vm.pm.kmem.mem x = s.load.vm.pm.kmem.mem x :=
    (hk2.kernelMem x (hk1.kernel _ hx)).trans (hk1.kernelMem x hx)
  refine ⟨g2, _, _, hI2, ?_, rfl, ⟨hsub, hact2, fun q hq va => ?_, fun q hq va hva => ?_⟩,
    fun hc => absurd hnull hc, fun _ => ?_⟩
  · dsimp only
    rw [Function.update_self]
    exact Set.mem_insert _ _
  · refine hI.mem.translation_same hI2.mem ?_ hker hsub hq fun hq hva => hpte q hq va hva
    exact (congrFun hpm2 _).trans hroot
  · have h1 : hwLoad h vm q va = vm.byteAt h q va := hI2.mem.hwLoad (hsub hq) hva
    have h2 : hwLoad h s.load.vm q va = s.load.vm.byteAt h q va := hI.mem.hwLoad hq hva
    exact h1.trans ((hI.mem.byteAt_congr hq hva (hpte q hq va hva) hmem).trans h2.symm)
  · dsimp only
    rw [Function.update_self]
    have he : (vm.maps (.elem a)).pmap = p := hpmap2
    exact ⟨fun hc => hpk (he.symm.trans hc), fun hc => (hnew p rfl).1 (he ▸ hc)⟩

/-- What a load has done that went through the target is what it should do. -/
theorem Loaded.target (hI : VmInv h g maps lists l.vm) (hp : p ∈ g.live)
    (himg : WellFormedImage img imageData imageSize)
    (hl : Loaded h g maps lists p (segsByte img imageData
      (segmentsOf img (mhNcmds img imageData).toNat (imageData+sizeofMachHeader64))) l l') :
    (∀ x ∈ l.storesSince l', x.1 = p ∧ x.2.2 &&& pteP ≠ 0 ∧ x.2.2 &&& pteW ≠ 0) ∧
    (∀ seg ∈ segmentsOf img (mhNcmds img imageData).toNat (imageData+sizeofMachHeader64),
      ∀ k < (segVmsize img seg).toNat, hwLoad h l'.vm p (segVmaddr img seg+BitVec.ofNat 64 k) =
        some (if k < (segFilesize img seg).toNat then
          img (imageData+segFileoff img seg+BitVec.ofNat 64 k) else 0)) ∧
    (∀ q, q = .kernel ∨ q ∈ g.live → q ≠ p → ∀ va,
      pmapTranslation h l'.vm.pm q va = pmapTranslation h l.vm.pm q va) ∧
    ∀ q ∈ g.live, q ≠ p → ∀ va, UserVa va → hwLoad h l'.vm q va = hwLoad h l.vm q va := by
  obtain ⟨own', hI'⟩ := hl.inv
  refine ⟨?_, fun seg hseg k hk => ?_, hl.overlay.others, fun q hq hne va hva => ?_⟩
  · obtain ⟨new, hnew, hall⟩ := hl.stores
    rw [storesSince_append hnew]
    exact hall
  · have hfit := himg.fits seg hseg
    have hhigh := hfit.high
    have hmax : userMapMax.toNat = 2^47-1 := rfl
    have hadd : (segVmaddr img seg+BitVec.ofNat 64 k).toNat = (segVmaddr img seg).toNat+k := by
      rw [BitVec.toNat_add, BitVec.toNat_ofNat]
      omega
    have hva : UserVa (segVmaddr img seg+BitVec.ofNat 64 k) := by
      rw [UserVa, hadd]
      omega
    have hin : InSegment img seg (segVmaddr img seg+BitVec.ofNat 64 k) := by
      rw [InSegment, hadd]
      omega
    have hk64 : (BitVec.ofNat 64 k).toNat = k := by
      rw [BitVec.toNat_ofNat]
      omega
    have hload : hwLoad h l'.vm p (segVmaddr img seg+BitVec.ofNat 64 k) =
        l'.vm.byteAt h p (segVmaddr img seg+BitVec.ofNat 64 k) := hI'.mem.hwLoad hp hva
    rw [hload, hl.overlay.bytes _ hva, segsByte_apart himg.apart hseg hin, segByte, if_pos hin,
      add_sub_cancel_left, hk64]
    split_ifs
    · rfl
    · rfl
  · have h1 : hwLoad h l'.vm q va = l'.vm.byteAt h q va := hI'.mem.hwLoad hq hva
    have h2 : hwLoad h l.vm q va = l.vm.byteAt h q va := hI.mem.hwLoad hq hva
    exact h1.trans ((hl.overlay.user q hq hne va hva).trans h2.symm)

theorem machoLoad_pmap {m : VmMapPtr}
    (hl : machoLoad h img m imageData imageSize localPtr l = (some .success, l')) :
    (l'.vm.maps m).pmap = (l.vm.maps m).pmap := by
  obtain ⟨_, _, _, t, hp, hvm, _⟩ := machoLoad_success hl
  have hframe := machoParseSegments_frame h img imageData imageData m (mhNcmds img imageData).toNat
    (imageData+sizeofMachHeader64) (l.start imageData imageSize)
  rw [hp] at hframe
  rw [hvm]
  exact fixed_pmap (hframe.vm.fixed _)

theorem VmWorld.pmap_of_map {vm : VmState} {pmaps : Set PmapPtr} {m : VmMapPtr}
    {wrote : Word → Set VmMapPtr} {p : PmapPtr} (hp : (vm.maps m).pmap = p) :
    VmWorld.Pmap ⟨vm, pmaps, {m}, wrote⟩ p :=
  Or.inr (Or.inr ⟨m, rfl, hp⟩)

/-- A load that touches the target only and has stored a byte has done so with the target in
CR3. -/
theorem LoadsTarget.active {m : VmMapPtr} {seg : Word} {t : Loader}
    (hl : machoLoad h img m imageData imageSize localPtr l = (some .success, l'))
    (ht : LoadsTarget h img imageData w (l'.vm.maps m).pmap t l') (hst : l.stores = t.stores)
    (hseg : seg ∈ segmentsOf img (mhNcmds img imageData).toNat (imageData+sizeofMachHeader64))
    (hfile : segFilesize img seg ≠ 0) : l.vm.active = (l.vm.maps m).pmap := by
  obtain ⟨_, _, _, u, hp, _, hu⟩ := machoLoad_success hl
  obtain ⟨new, hnew, x, hx, hxa⟩ := machoParseSegments_active _ hp hseg hfile
  have hsince : t.storesSince l' = new := by
    refine storesSince_append (hu.trans (hnew.trans ?_))
    exact congrArg (new ++ ·) hst
  have hxp := (ht.stores x (hsince ▸ hx)).1
  exact hxa.symm.trans (hxp.trans (machoLoad_pmap hl))

/-- A load that succeeds has a map for the task, from before or new. -/
theorem execLoad_success
    (hrun : execLoad h img task imageData imageSize entryPoint s = (some .success, s')) :
    ∃ s₁ l, execMap h task s = (true, s₁) ∧
      machoLoad h img (s₁.taskMap task) imageData imageSize localPtr s₁.load = (some .success, l) ∧
      s' = { s₁ with load := l, entryPoint := l.image.entryPoint } := by
  rcases execLoad_cases h img task imageData imageSize entryPoint s with ⟨_, hrun'⟩ |
    ⟨_, ⟨_, _, hrun'⟩ | ⟨s₁, hm, ⟨l, hl, hrun'⟩ | ⟨r, l, _, hne, hrun'⟩⟩⟩
  · cases (Prod.mk.inj (hrun.symm.trans hrun')).1
  · cases (Prod.mk.inj (hrun.symm.trans hrun')).1
  · exact ⟨s₁, l, hm, hl, (Prod.mk.inj (hrun.symm.trans hrun')).2⟩
  · exact absurd (Prod.mk.inj (hrun.symm.trans hrun')).1.symm hne

theorem execLoad_returns {s₁ : ExecState} {l : Loader}
    (hnull : ¬ (task = 0 ∨ imageData = 0 ∨ entryPoint = 0)) (hm : execMap h task s = (true, s₁))
    (hl : machoLoad h img (s₁.taskMap task) imageData imageSize localPtr s₁.load = (some .success, l)) :
    execLoad h img task imageData imageSize entryPoint s =
      (some .success, { s₁ with load := l, entryPoint := l.image.entryPoint }) := by
  rw [execLoad, if_neg hnull, hm]
  dsimp only
  rw [hl]

/-- A load that touches the target only has stored nothing, or the target was in CR3 before. -/
theorem LoadsTarget.through {g : VmGhost} {lists : VmMapPtr → List EntryPtr}
    (hW : VmWorldInv h g lists w) (ho : ExecOver w s) (hact : w.Pmap s.load.vm.active)
    (hrun : execLoad h img task imageData imageSize entryPoint s = (some .success, s'))
    (ht : LoadsTarget h img imageData w (s'.load.vm.maps (s'.taskMap task)).pmap s.load s'.load) :
    (∀ seg ∈ segmentsOf img (mhNcmds img imageData).toNat (imageData+sizeofMachHeader64),
        segFilesize img seg = 0) ∨
      s.taskMap task ≠ vmMapNull ∧
        s.load.vm.active = (s.load.vm.maps (s.taskMap task)).pmap := by
  obtain ⟨s₁, l, hm, hl, rfl⟩ := execLoad_success hrun
  obtain ⟨_, _, _, _, _, hstores, hmade, hsame, hfresh⟩ := execMap_made (ho.inv hW) (ho.tasks task) hm
  by_contra hc
  push Not at hc
  obtain ⟨⟨seg, hseg, hfile⟩, hother⟩ := hc
  have hactive := hmade.active.symm.trans (ht.active hl hstores hseg hfile)
  by_cases hnull : s.taskMap task = vmMapNull
  · -- A map made for this load has a pmap of its own, which no one can have put in CR3.
    obtain ⟨hnk, hnl⟩ := hfresh hnull
    rw [← hactive] at hnk hnl
    exact (hW.pmap hact).elim hnk hnl
  · rw [hsame hnull] at hactive
    exact hother hnull hactive

/-- A load that succeeds touches the target only, if and only if no segment has bytes in the file
or CR3 holds the tables of the map that the task had. -/
theorem exec_load_target {s₀ vm₀ : VmState} (hb : VmBoot h s₀) (hs : vmMapInit s₀ = some vm₀)
    {trace : List VmOp} (hr : Run (VmStep h) (VmWorld.boot vm₀) trace w) (ho : ExecOver w s)
    (hact : w.Pmap s.load.vm.active) (himg : WellFormedImage img imageData imageSize)
    (hrun : execLoad h img task imageData imageSize entryPoint s = (some .success, s')) :
    LoadsTarget h img imageData w (s'.load.vm.maps (s'.taskMap task)).pmap s.load s'.load ↔
      (∀ seg ∈ segmentsOf img (mhNcmds img imageData).toNat (imageData+sizeofMachHeader64),
        segFilesize img seg = 0) ∨
      s.taskMap task ≠ vmMapNull ∧
        s.load.vm.active = (s.load.vm.maps (s.taskMap task)).pmap := by
  obtain ⟨g, lists, hW⟩ := VmWorldInv.run hb hs hr
  refine ⟨fun ht => ht.through hW ho hact hrun, ?_⟩
  obtain ⟨s₁, l, hm, hl, rfl⟩ := execLoad_success hrun
  obtain ⟨g', maps', lists', hI', hm', hstores, hmade, hsame, hfresh⟩ :=
    execMap_made (ho.inv hW) (ho.tasks task) hm
  obtain ⟨_, _, _, t, hp, hvm, hst⟩ := machoLoad_success hl
  intro hc
  have hthrough : ∀ seg ∈ segmentsOf img (mhNcmds img imageData).toNat (imageData+sizeofMachHeader64),
      segFilesize img seg = 0 ∨
        s₁.load.vm.active = (s₁.load.vm.maps (s₁.taskMap task)).pmap := by
    intro seg hseg
    rcases hc with hz | ⟨hne, hactive⟩
    · exact Or.inl (hz seg hseg)
    · rw [hsame hne]
      exact Or.inr hactive
  have hloaded := machoParseSegments_loaded (s := s₁.load.start imageData imageSize) _ hI' hm' rfl
    himg.fits hthrough hp
  obtain ⟨h1, h2, h3, h4⟩ := Loaded.target (l := s₁.load.start imageData imageSize) hI'
    (hI'.pmap _ hm') himg hloaded
  dsimp only
  rw [machoLoad_pmap hl]
  refine ⟨fun x hx => h1 x ?_, fun seg hseg k hk => hvm ▸ h2 seg hseg k hk, fun q hq hne va => ?_,
    fun q hq hqk hne va hva => ?_⟩
  · rw [Loader.storesSince, hst] at hx
    rw [Loader.storesSince]
    change x ∈ t.stores.take (t.stores.length-s₁.load.stores.length)
    rwa [hstores]
  · have hq' := hW.pmap hq
    rw [hvm, h3 q (hq'.imp_right fun hq => hmade.live hq) hne va]
    exact hmade.translations q hq' va
  · have hq' := (hW.pmap hq).resolve_left hqk
    rw [hvm, h4 q (hmade.live hq') hne va hva]
    exact hmade.user q hq' va hva

end Target

/-- An image is well formed whose only segment is. -/
theorem WellFormedImage.single {img : Mem} {imageData imageSize seg : Word}
    (hseg : segmentsOf img (mhNcmds img imageData).toNat (imageData+sizeofMachHeader64) = [seg])
    (hfits : SegmentFits img imageSize seg) : WellFormedImage img imageData imageSize := by
  constructor
  · intro x hx
    rw [hseg, List.mem_singleton] at hx
    exact hx ▸ hfits
  · rw [hseg]
    exact List.pairwise_singleton _ _

theorem pageImage_wellFormed : WellFormedImage pageImage 0x100000 0x68 := by
  have hfacts : segmentsOf pageImage (mhNcmds pageImage 0x100000).toNat
      (0x100000+sizeofMachHeader64) = [0x100020] ∧ SegmentFits pageImage 0x68 0x100020 := by
    decide +kernel
  exact WellFormedImage.single hfacts.1 hfacts.2

theorem execMapped_active : execMapped.load.vm.active = .kernel := rfl

theorem execMapped_page : execLoad higherHalf pageImage 0x2000 0x100000 0x68 0x3000 execMapped =
    (some .success, (execLoad higherHalf pageImage 0x2000 0x100000 0x68 0x3000 execMapped).2) := by
  have hkr : (execLoad higherHalf pageImage 0x2000 0x100000 0x68 0x3000 execMapped).1 =
      some .success := by decide +kernel
  rw [← hkr]

theorem exec_load_target_page :
    let s' := (execLoad higherHalf pageImage 0x2000 0x100000 0x68 0x3000 execMapped).2
    LoadsTarget higherHalf pageImage 0x100000 vmFirstWorld
        (s'.load.vm.maps (s'.taskMap 0x2000)).pmap execMapped.load s'.load ↔
      (∀ seg ∈ segmentsOf pageImage (mhNcmds pageImage 0x100000).toNat (0x100000+sizeofMachHeader64),
        segFilesize pageImage seg = 0) ∨
      execMapped.taskMap 0x2000 ≠ vmMapNull ∧
        execMapped.load.vm.active = (execMapped.load.vm.maps (execMapped.taskMap 0x2000)).pmap :=
  exec_load_target vmBootState_boot vmBooted_init vmFirst_run execMapped_over
    (Or.inl execMapped_active) pageImage_wellFormed execMapped_page

/-- `vmFirst` with a writable page in its map at 0x10000. -/
def vmPaged : VmState :=
  ((VmCall.pageRange 0x10000 0x1000 3).run higherHalf vmFirst vmFirstMap).getD vmFirst

theorem vmPaged_run : ∃ wrote, Run (VmStep higherHalf) (VmWorld.boot vmBooted)
    [.pmapCreate, .mapCreate, .call vmFirstMap (.pageRange 0x10000 0x1000 3)]
    ⟨vmPaged, ({.page 0x4000} : Set PmapPtr) \ {.page 0x4000}, {vmFirstMap}, wrote⟩ := by
  obtain ⟨s, wrote, hs, hrun⟩ := vmFirst_call (.pageRange 0x10000 0x1000 3)
  have he : vmPaged = s := by
    rw [vmPaged, hs]
    rfl
  exact ⟨wrote, he ▸ hrun⟩

/-- The task at 0x2000 has no map, and CR3 holds the tables of the map with the page. -/
def execOther : ExecState :=
  ⟨⟨vmPaged.pmapSwitch (.page 0x4000), ⟨0, 0, 0, 0⟩, [], []⟩, fun _ => vmMapNull, 0⟩

theorem vmPaged_pmap : (vmPaged.maps vmFirstMap).pmap = .page 0x4000 := by decide +kernel

theorem execOther_vm : execOther.load.vm = vmPaged.pmapSwitch (.page 0x4000) := rfl

theorem pmapSwitch_maps (vm : VmState) (p : PmapPtr) : (vm.pmapSwitch p).maps = vm.maps := rfl

theorem vmPaged_active : (vmPaged.maps vmFirstMap).pmap = execOther.load.vm.active :=
  vmPaged_pmap.trans rfl

theorem execOther_arguments : ¬ ((0x2000 : Word) = 0 ∨ (0x100000 : Word) = 0 ∨
    (0x3000 : Word) = 0) := by decide

theorem execOther_taskMap (task : Word) : execOther.taskMap task = vmMapNull := rfl

/-- One segment of a page, with one byte in the file. -/
def byteImage : Mem := imageAt 0x100000
  (machHeader 1 72 ++ segmentCommand 0x10000 0x1000 0x68 1 3 ++ leBytes 1 0x2a)

theorem byteImage_fits : SegmentFits byteImage 0x69 0x100020 ∧
    segmentsOf byteImage (mhNcmds byteImage 0x100000).toNat (0x100000+sizeofMachHeader64) =
      [0x100020] ∧
    mhMagic byteImage 0x100000 = mhMagic64 ∧ mhFiletype byteImage 0x100000 = mhExecute ∧
    mhCputype byteImage 0x100000 = cpuTypeX8664 ∧
    segVmaddr byteImage 0x100020 = 0x10000 ∧ segVmsize byteImage 0x100020 = 0x1000 ∧
    machoProt (segInitprot byteImage 0x100020) = 3 ∧ segFilesize byteImage 0x100020 ≠ 0 ∧
    (mhNcmds byteImage 0x100000).toNat = 1 ∧ (0x100000+sizeofMachHeader64 : Word) = 0x100020 := by
  decide +kernel

theorem byteImage_header {map : VmMapPtr} (hm : map ≠ vmMapNull) :
    HeaderAccepted byteImage map 0x100000 0x69 localPtr := by
  obtain ⟨_, _, hmagic, htype, hcpu, _⟩ := byteImage_fits
  exact ⟨hm, by decide, by decide, by decide, hmagic, Or.inl htype, hcpu⟩

/-- The state of `exec_load` with a new map for the task. -/
def execOtherMap : ExecState := (execMap higherHalf 0x2000 execOther).2

/-- The new map is made, CR3 still holds the tables of the other, and the range is mapped. -/
theorem execOtherMap_range : (execMap higherHalf 0x2000 execOther).1 = true ∧
    execOtherMap.taskMap 0x2000 ≠ vmMapNull ∧ execOtherMap.load.vm.active = .page 0x4000 ∧
    (vmMapPageRange higherHalf execOtherMap.load.vm (execOtherMap.taskMap 0x2000) 0x10000 0x1000 3).map
      (fun r => (r.1, (hwStore higherHalf r.2.pm.kmem.mem r.2.cr3 0x10000).isSome)) =
      some (.success, true) := by
  decide +kernel

theorem execOtherMap_made : execMap higherHalf 0x2000 execOther = (true, execOtherMap) := by
  rw [← execOtherMap_range.1, execOtherMap]

/-- The segment is mapped in the new map, and stored through the page of the other. -/
theorem execOther_segment {g : VmGhost} {maps : Set VmMapPtr} {lists : VmMapPtr → List EntryPtr}
    (hI : VmInv higherHalf g maps lists execOtherMap.load.vm)
    (hm : execOtherMap.taskMap 0x2000 ∈ maps) (hp : .page 0x4000 ∈ g.live) (s : Loader)
    (hs : s.vm = execOtherMap.load.vm) :
    ∃ t, machoSegment higherHalf byteImage 0x100000 (execOtherMap.taskMap 0x2000) 0x100020 s =
      (some .success, t) := by
  obtain ⟨hfits, _, _, _, _, haddr, hsize, hprot, _⟩ := byteImage_fits
  obtain ⟨_, _, hact, hrun⟩ := execOtherMap_range
  obtain ⟨⟨kr, vm⟩, hvm, hvals⟩ := Option.map_eq_some_iff.mp hrun
  obtain ⟨rfl, hsome⟩ := Prod.mk.inj hvals
  rw [← hs] at hI hact hvm
  rw [← haddr, ← hsize, ← hprot] at hvm
  refine machoSegment_returns hI hm hp hact hfits ?_ hvm fun va hin => ?_
  · rw [hsize]
    decide
  · rw [InSegment, haddr, hsize] at hin
    have h1 : (0x10000 : Word).toNat = 0x10000 := rfl
    have h2 : (0x1000 : Word).toNat = 0x1000 := rfl
    rw [h1, h2] at hin
    have hva : UserVa va := by
      rw [UserVa]
      omega
    have hpage : pageOf va = pageOf 0x10000 := by
      rw [pageOf_eq, pageOf_eq, h1]
      omega
    have hbase : UserVa 0x10000 := by
      rw [UserVa, h1]
      omega
    rw [hwStore_page hva hbase hpage]
    intro hc
    rw [hc] at hsome
    cases hsome

/-- The load returns. -/
theorem execOther_load {g : VmGhost} {maps : Set VmMapPtr} {lists : VmMapPtr → List EntryPtr}
    (hI : VmInv higherHalf g maps lists execOtherMap.load.vm)
    (hm : execOtherMap.taskMap 0x2000 ∈ maps) (hp : .page 0x4000 ∈ g.live) :
    ∃ t, machoLoad higherHalf byteImage (execOtherMap.taskMap 0x2000) 0x100000 0x69 localPtr
      execOtherMap.load = (some .success, t) := by
  have hstart (l : Loader) : ((l.start 0x100000 0x69).readCommand 0x100000 0x100020).vm = l.vm := rfl
  obtain ⟨t, ht⟩ := execOther_segment hI hm hp _ (hstart execOtherMap.load)
  obtain ⟨_, _, _, _, _, _, _, _, _, hn, hlc⟩ := byteImage_fits
  have ha := byteImage_header execOtherMap_range.2.1
  rcases machoLoad_accepted (h := higherHalf) (s := execOtherMap.load) ha with ⟨t', _, hl⟩ |
    ⟨r, t', hp, hne, _⟩
  · exact ⟨_, hl⟩
  · rw [hn, hlc] at hp
    rcases machoParseSegments_cases higherHalf byteImage 0x100000 0x100000
      (execOtherMap.taskMap 0x2000) 0 0x100020 (execOtherMap.load.start 0x100000 0x69) with
      ⟨u, _, hr⟩ | ⟨_, hbad, _⟩
    · rw [hr, machoParseSegments] at hp
      exact absurd (Prod.mk.inj hp).1.symm hne
    · rw [ht] at hbad
      exact absurd rfl hbad

/-- The byte of the image is stored through the tables that CR3 holds. -/
theorem exec_load_other_target : WellFormedImage byteImage 0x100000 0x69 ∧
    ∃ w trace, Run (VmStep higherHalf) (VmWorld.boot vmBooted) trace w ∧ ExecOver w execOther ∧
      w.Pmap execOther.load.vm.active ∧
      ∃ s', execLoad higherHalf byteImage 0x2000 0x100000 0x69 0x3000 execOther = (some .success, s') ∧
        ¬ LoadsTarget higherHalf byteImage 0x100000 w (s'.load.vm.maps (s'.taskMap 0x2000)).pmap
          execOther.load s'.load := by
  obtain ⟨wrote, hrun⟩ := vmPaged_run
  obtain ⟨g, lists, hW⟩ := VmWorldInv.run vmBootState_boot vmBooted_init hrun
  have ho : ExecOver ⟨vmPaged, ({.page 0x4000} : Set PmapPtr) \ {.page 0x4000}, {vmFirstMap}, wrote⟩
      execOther := ⟨rfl, fun _ => Or.inl rfl⟩
  have hI := ho.inv hW
  have hlive : PmapPtr.page 0x4000 ∈ g.live := by
    have hpmap := hI.pmap vmFirstMap rfl
    rwa [execOther_vm, pmapSwitch_maps, vmPaged_pmap] at hpmap
  have hactive : VmWorld.Pmap ⟨vmPaged, ({.page 0x4000} : Set PmapPtr) \ {.page 0x4000},
      {vmFirstMap}, wrote⟩ execOther.load.vm.active := VmWorld.pmap_of_map vmPaged_active
  obtain ⟨hfits, hsegs, _, _, _, _, _, _, hfile, _⟩ := byteImage_fits
  refine ⟨WellFormedImage.single hsegs hfits, _, _, hrun, ho, hactive, ?_⟩
  obtain ⟨_, _, _, hI', hm', _, hmade, _⟩ :=
    execMap_made hI (Or.inl (execOther_taskMap 0x2000)) execOtherMap_made
  obtain ⟨t, ht⟩ := execOther_load hI' hm' (hmade.live hlive)
  have hload := execLoad_returns (execOther_arguments) execOtherMap_made ht
  refine ⟨_, hload, fun htarget => ?_⟩
  rcases htarget.through hW ho hactive hload with hz | ⟨hne, _⟩
  · refine hfile (hz 0x100020 ?_)
    rw [hsegs]
    exact List.mem_singleton_self _
  · exact hne (execOther_taskMap _)

end Dana
