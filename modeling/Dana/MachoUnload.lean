import Dana.ExecAtomic

/-! What `macho_unload` takes back of a load: it works on `kernel_map`, whatever map the image
was loaded into, and on the entries of it, which a load does not make. -/
namespace Dana
open ByteMem AddrLoop LinkedRing IntervalList

/-- Every map, every translation and the data pages are what they were. -/
structure UnloadRestores (h : Hhdm) (s s' : VmState) : Prop where
  maps : ∀ m, s'.maps m = s.maps m ∧ vmEntries s' m = vmEntries s m ∧
    ∀ l, vmEntries s m = some l → ∀ e ∈ l, s'.body e = s.body e
  translations : ∀ p va, pmapTranslation h s'.pm p va = pmapTranslation h s.pm p va
  data : ∀ n, n ∈ s'.data ↔ n ∈ s.data

section Unload
variable {h : Hhdm} {img : Mem} {s t u : Loader} {map : VmMapPtr} {vm vm' : VmState}
  {imageData imageSize imageOut header lc seg start stop size flags : Word} {p : PmapPtr}
  {prot : BitVec 32}

/-- A loop that maps all its pages takes a frame for the first. -/
theorem vmPagesIn_takes (h0 : ¬ vm.pm.kmem.pmm.Free 0) (hlt : start < stop)
    (hr : vmPagesIn h p flags stop start vm = some (.ok vm')) :
    ∃ n, vm.pm.kmem.pmm.Free n ∧ n ∈ vm'.data := by
  have hend := forAddr_inv _ _ _ (fun a t => (a = start ∧ t = vm) ∨
      ∃ n, vm.pm.kmem.pmm.Free n ∧ n ∈ t.data)
    (fun r => ∀ t, r = Except.ok (ε := Word × VmState) t → ∃ n, vm.pm.kmem.pmm.Free n ∧ n ∈ t.data)
    (fun a t _ ht => ⟨fun t' hb => Or.inr ?_, fun r _ t' he => by cases he⟩)
    (fun a t hge ht t' he => ?_) addrFuel start vm (Or.inl ⟨rfl, rfl⟩) _ hr _ rfl
  · exact hend
  · have hdata : t.data ⊆ (vmPageIn h t p a flags).2.data := vmPageIn_only.2
    obtain ⟨⟨ok, t1⟩, hin⟩ : ∃ r, vmPageIn h t p a flags = r := ⟨_, rfl⟩
    rw [hin] at hb hdata
    cases ok with
    | false => cases hb
    | true =>
      obtain rfl := Except.ok.inj hb
      rcases ht with ⟨rfl, rfl⟩ | ⟨n, hn, hmem⟩
      · obtain ⟨pa, pmm, hpa⟩ : ∃ pa pmm, pmmAllocPage t.pm.kmem.pmm = (pa, pmm) := ⟨_, _, rfl⟩
        by_cases hnull : pa = pmmNull
        · rw [vmPageIn, VmState.allocPage, hpa, hnull] at hin
          cases (Prod.mk.inj hin).1
        · obtain ⟨_, hfree, _⟩ := pmmAllocPage_some h0 hpa hnull
          refine ⟨pageOf pa, hfree, ?_⟩
          rw [vmPageIn_eq hpa hnull] at hin
          dsimp only at hin
          split_ifs at hin
          · cases (Prod.mk.inj hin).1
          · obtain ⟨_, rfl⟩ := Prod.mk.inj hin
            exact List.mem_cons_self
      · exact ⟨n, hn, hdata hmem⟩
  · obtain rfl := Except.ok.inj he
    rcases ht with ⟨rfl, rfl⟩ | hex
    · exact absurd hlt hge
    · exact hex

/-- A segment that is loaded with success is skipped, or its pages are mapped. -/
theorem machoSegment_success
    (hr : machoSegment h img imageData map seg s = (some .success, t)) :
    (segVmsize img seg = 0 ∧ t.vm = s.vm) ∨ segVmsize img seg ≠ 0 ∧
      ∃ vm, vmMapPageRange h s.vm map (segVmaddr img seg) (segVmsize img seg)
        (machoProt (segInitprot img seg)) = some (.success, vm) ∧
      PagesOnly vm t.vm ∧ t.vm.data = vm.data := by
  rcases machoSegment_done hr with ⟨hz, rfl⟩ | ⟨hz, _, vm, hvm, ht⟩
  · exact Or.inl ⟨hz, rfl⟩
  · have hcopy := machoCopy_only h img imageData seg (s.mapped img seg vm)
    have hvm' : (s.mapped img seg vm).vm = vm := machoBase_vm seg
    rw [ht, hvm'] at hcopy
    exact Or.inr ⟨hz, vm, hvm, hcopy⟩

theorem machoSegment_only (hr : machoSegment h img imageData map seg s = (some .success, t)) :
    PagesOnly s.vm t.vm ∧ s.vm.data ⊆ t.vm.data := by
  rcases machoSegment_success hr with ⟨_, hvm⟩ | ⟨_, vm, hvm, honly, hdata⟩
  · rw [hvm]
    exact ⟨PagesOnly.refl, List.Subset.refl _⟩
  · obtain ⟨_, hin⟩ := vmMapPageRange_success hvm
    have hpages := vmPagesIn_only hin
    exact ⟨hpages.1.trans honly, hdata ▸ hpages.2⟩

/-- A load that succeeds leaves the lists alone and gives no page back. -/
theorem machoParseSegments_only (n : ℕ)
    (hr : machoParseSegments h img header imageData map n lc s = (some .success, t)) :
    PagesOnly s.vm t.vm ∧ s.vm.data ⊆ t.vm.data := by
  induction n generalizing lc s with
  | zero =>
    obtain ⟨_, rfl⟩ := Prod.mk.inj hr
    exact ⟨PagesOnly.refl, List.Subset.refl _⟩
  | succ n ih =>
    rcases machoParseSegments_cases h img header imageData map n lc s with
      ⟨t', ⟨_, rfl⟩ | ⟨_, ht⟩, hr'⟩ | ⟨_, hne, hr'⟩
    · exact ih (s := (s.readCommand header lc).read (lc+4) 4) (hr'.symm.trans hr)
    · obtain ⟨honly, hdata⟩ := machoSegment_only ht
      obtain ⟨honly', hdata'⟩ := ih (s := t'.read (lc+4) 4) (hr'.symm.trans hr)
      exact ⟨honly.trans honly', List.Subset.trans hdata hdata'⟩
    · exact absurd (congrArg Prod.fst (hr'.symm.trans hr)) hne

/-- A load that succeeds takes a frame, if a segment has pages. -/
theorem machoParseSegments_takes (h0 : ¬ s.vm.pm.kmem.pmm.Free 0) (n : ℕ)
    (hr : machoParseSegments h img header imageData map n lc s = (some .success, t))
    (hseg : firstSegment img n lc ≠ none) :
    ∃ n, s.vm.pm.kmem.pmm.Free n ∧ n ∈ t.vm.data := by
  rcases machoParseSegments_first h img header imageData map n lc s with ⟨hnone, _⟩ |
    ⟨seg, k, s', _, hcmd, hz, hvm, hr'⟩
  · exact absurd hnone hseg
  rw [hr'] at hr
  rcases machoParseSegments_cases h img header imageData map k seg s' with
    ⟨t', ⟨hc, _⟩ | ⟨_, ht⟩, hr'⟩ | ⟨_, hne, hr'⟩
  · exact absurd hcmd hc
  · rcases machoSegment_success ht with ⟨hz', _⟩ | ⟨_, vm', hpages, _, hdata⟩
    · exact absurd hz' hz
    obtain ⟨hlt, hin⟩ := vmMapPageRange_success hpages
    rw [← hvm] at h0 ⊢
    obtain ⟨n, hn, hmem⟩ := vmPagesIn_takes h0 hlt hin
    have hrest := machoParseSegments_only (s := t'.read (seg+4) 4) k (hr'.symm.trans hr)
    have hmem' : n ∈ t'.vm.data := hdata ▸ hmem
    exact ⟨n, hn, hrest.2 hmem'⟩
  · exact absurd (congrArg Prod.fst (hr'.symm.trans hr)) hne

/-- An unload leaves a map of the kernel that has lost an entry, or a new data page, so. -/
theorem Spoiled.unload {l₀ l : List EntryPtr} {d₀ : List ℕ} (hs : Spoiled l₀ d₀ .kernel l s.vm)
    (n : ℕ) (hr : machoUnloadSegments h img header n lc s = some t) :
    ∃ l', Spoiled l₀ d₀ .kernel l' t.vm := by
  induction n generalizing lc s l with
  | zero =>
    obtain rfl := Option.some.inj hr
    exact ⟨l, hs⟩
  | succ n ih =>
    obtain ⟨s', hs', hr⟩ := Option.bind_eq_some_iff.mp hr
    split_ifs at hs' with hcmd hz
    · obtain rfl := Option.some.inj hs'
      refine ih (s := Loader.read _ _ _) (l := l) ?_ hr
      exact hs
    · obtain ⟨⟨kr, vm⟩, hvm, rfl⟩ := Option.map_eq_some_iff.mp hs'
      obtain ⟨l', hl'⟩ := hs.remove hvm
      refine ih (s := Loader.read _ _ _) (l := l') ?_ hr
      exact hl'
    · obtain rfl := Option.some.inj hs'
      refine ih (s := Loader.read _ _ _) (l := l) ?_ hr
      exact hs

/-- Where no segment has pages, an unload does nothing. -/
theorem machoUnloadSegments_none (h : Hhdm) (header : Word) (n : ℕ) (s : Loader)
    (hn : firstSegment img n lc = none) :
    ∃ t, machoUnloadSegments h img header n lc s = some t ∧ t.vm = s.vm := by
  induction n generalizing lc s with
  | zero => exact ⟨_, rfl, rfl⟩
  | succ n ih =>
    rw [firstSegment] at hn
    split_ifs at hn with hc
    rw [machoUnloadSegments]
    dsimp only
    by_cases hcmd : lcCmd img lc = lcSegment64
    · have hz : segVmsize img lc = 0 := by
        by_contra hz
        exact hc ⟨hcmd, hz⟩
      rw [if_pos hcmd, if_pos hz]
      exact ih _ hn
    · rw [if_neg hcmd]
      exact ih _ hn

/-- After a load that succeeds, an unload restores every map, translation and data page if and
only if no segment of the image has pages. -/
theorem macho_unload_restores {lk : List EntryPtr} (hk : VmMapInv s.vm .kernel lk)
    (h0 : ¬ s.vm.pm.kmem.pmm.Free 0) (hd : ∀ n ∈ s.vm.data, ¬ s.vm.pm.kmem.pmm.Free n)
    (hl : machoLoad h img map imageData imageSize imageOut s = (some .success, t)) :
    (∃ kr u, machoUnload h img imageOut t = some (kr, u) ∧ UnloadRestores h s.vm u.vm) ↔
      firstSegment img (mhNcmds img imageData).toNat (imageData+sizeofMachHeader64) = none := by
  obtain ⟨hout, hdata, hheader, t', hp, hvm, _⟩ := machoLoad_success hl
  have hstart : (s.start imageData imageSize).vm = s.vm := rfl
  constructor
  · rintro ⟨kr, u, hu, hrest⟩
    by_contra hseg
    -- the load has taken a page for the first segment
    obtain ⟨n, hn, hmem⟩ := machoParseSegments_takes (s := s.start imageData imageSize) h0 _ hp hseg
    obtain ⟨honly, hsub⟩ := machoParseSegments_only _ hp
    rw [hstart] at honly hsub hn
    have hnew : ∃ n ∈ t'.vm.data, n ∉ s.vm.data := ⟨n, hmem, fun hin => hd n hin hn⟩
    have hsp : Spoiled lk s.vm.data .kernel lk t.vm := by
      rw [hvm]
      exact ⟨honly.mapInv hk, le_rfl, Or.inr hnew⟩
    -- and the unload works on the map of the kernel
    obtain ⟨l, hl⟩ : ∃ l, Spoiled lk s.vm.data .kernel l u.vm := by
      rw [machoUnload] at hu
      split_ifs at hu with hz
      · obtain ⟨_, rfl⟩ := Prod.mk.inj (Option.some.inj hu)
        exact ⟨lk, hsp⟩
      · obtain ⟨u', hu', he⟩ := Option.map_eq_some_iff.mp hu
        obtain ⟨_, rfl⟩ := Prod.mk.inj he
        obtain ⟨l, hl⟩ := hsp.unload _ hu'
        exact ⟨l, hl⟩
    exact hl.changed hk ⟨(hrest.maps .kernel).2.1, hrest.data⟩
  · intro hnone
    rcases machoParseSegments_first h img imageData imageData map (mhNcmds img imageData).toNat
      (imageData+sizeofMachHeader64) (s.start imageData imageSize) with ⟨_, t1, ht1, hp1⟩ |
      ⟨seg, _, _, hseg, _⟩
    · obtain ⟨_, rfl⟩ := Prod.mk.inj (hp.symm.trans hp1)
      obtain ⟨u, hu, huvm⟩ := machoUnloadSegments_none h imageData
        (mhNcmds img imageData).toNat t hnone
      refine ⟨.success,
        { u with image := { u.image with header := 0, entryPoint := 0, size := 0 } }, ?_, ?_⟩
      · rw [machoUnload, hheader, if_neg (not_or.mpr ⟨hout, hdata⟩)]
        dsimp only
        rw [hu]
        rfl
      · have he : u.vm = s.vm := (huvm.trans hvm).trans ht1
        dsimp only
        rw [he]
        exact ⟨fun m => ⟨rfl, rfl, fun _ _ _ _ => rfl⟩, fun _ _ => rfl, fun _ => Iff.rfl⟩
    · rw [hnone] at hseg
      cases hseg

end Unload

/-- One segment of one page. -/
def pageImage : Mem := imageAt 0x100000 (machHeader 1 72 ++ segmentCommand 0x10000 0x1000 0 0 3)

/-- The loader before the load. -/
def unloadFirst : Loader := ⟨vmFirst, ⟨0, 0, 0, 0⟩, [], []⟩

theorem vmFirst_kernel : VmMapInv vmFirst .kernel [] := by
  refine ⟨ring_nil.mpr ⟨?_, ?_⟩, sorted_nil, by simp, ?_⟩
  · decide +kernel
  · decide +kernel
  · decide +kernel

theorem unloadFirst_load : machoLoad higherHalf pageImage vmFirstMap 0x100000 0x68 localPtr unloadFirst =
    (some .success, (machoLoad higherHalf pageImage vmFirstMap 0x100000 0x68 localPtr unloadFirst).2) := by
  have hkr : (machoLoad higherHalf pageImage vmFirstMap 0x100000 0x68 localPtr unloadFirst).1 =
      some .success := by decide +kernel
  rw [← hkr]

theorem macho_unload_restores_page :
    let t := (machoLoad higherHalf pageImage vmFirstMap 0x100000 0x68 localPtr unloadFirst).2
    (∃ kr u, machoUnload higherHalf pageImage localPtr t = some (kr, u) ∧
      UnloadRestores higherHalf vmFirst u.vm) ↔
        firstSegment pageImage (mhNcmds pageImage 0x100000).toNat (0x100000+sizeofMachHeader64) = none :=
  macho_unload_restores vmFirst_kernel (by decide +kernel) (by decide +kernel) unloadFirst_load

/-- The page of the segment stays after the unload. -/
theorem macho_unload_leaves_page :
    let t := (machoLoad higherHalf pageImage vmFirstMap 0x100000 0x68 localPtr unloadFirst).2
    (machoLoad higherHalf pageImage vmFirstMap 0x100000 0x68 localPtr unloadFirst).1 = some .success ∧
    ∃ kr u, machoUnload higherHalf pageImage localPtr t = some (kr, u) ∧ kr = .success ∧
      ¬ UnloadRestores higherHalf vmFirst u.vm := by
  intro t
  have hrun : (machoUnload higherHalf pageImage localPtr t).map (fun r => (r.1, r.2.vm.data)) =
      some (.success, [6]) := by decide +kernel
  obtain ⟨⟨kr, u⟩, hu, hvals⟩ := Option.map_eq_some_iff.mp hrun
  obtain ⟨hkr, hdata⟩ := Prod.mk.inj hvals
  refine ⟨by decide +kernel, kr, u, hu, hkr, fun hrest => ?_⟩
  have hn := (hrest.data 6).mp (by rw [hdata]; exact List.mem_cons_self)
  exact absurd hn (by decide +kernel)

end Dana
