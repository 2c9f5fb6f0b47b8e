import Dana.VmCover
import Dana.VmShape

/-! The ranges that `vm_map_enter` and `vm_map_page_range` take, and which of their pages
they map. -/
namespace Dana
open ByteMem AddrLoop Transition

/-- Every address of the range lies between the bounds of the map, which it may reach. -/
def VmMap.Within (v : VmMap) (start size : Word) : Prop :=
  ∀ k < size.toNat, v.minOffset.toNat ≤ start.toNat+k ∧ start.toNat+k ≤ v.maxOffset.toNat

/-- Every address of the range has a translation. -/
def RangeMapped (h : Hhdm) (s : VmState) (p : PmapPtr) (start size : Word) : Prop :=
  ∀ k < size.toNat, pmapTranslation h s.pm p (start+BitVec.ofNat 64 k) ≠ none

section Accept
variable {h : Hhdm} {s : VmState} {m : VmMapPtr} {start size : Word}

/-- The check compares the end of the range, which is not in it, with the last address of
the map. -/
theorem vmRangeOk_within {v : VmMap} : vmRangeOk v start size = true ↔
    (size ≠ 0 ∧ v.Within start size) ∧ start.toNat+size.toNat ≠ v.maxOffset.toNat+1 := by
  have hzero : size = 0 ↔ size.toNat = 0 :=
    ⟨fun hz => congrArg BitVec.toNat hz, fun hz => BitVec.eq_of_toNat_eq hz⟩
  rw [vmRangeOk_iff, ne_eq, hzero]
  constructor
  · intro hok
    refine ⟨⟨by omega, fun k hk => ?_⟩, by omega⟩
    omega
  · rintro ⟨⟨hne, hin⟩, hlast⟩
    have h0 := hin 0 (by omega)
    have h1 := hin (size.toNat-1) (by omega)
    omega

/-- An empty map takes what the check takes, where there is memory for the entry. -/
theorem vmMapEnter_empty (hempty : s.next (.header m) = .header m)
    (hmem : (vmMapEntryAlloc h s).1 ≠ 0) (prot maxProt : BitVec 32) {flags : BitVec 32}
    (hflags : flags &&& vmeWired = 0) :
    (∃ s', vmMapEnter h s m start size prot maxProt flags = some (.success, s')) ↔
      vmRangeOk (s.maps m) start size = true := by
  cases hok : vmRangeOk (s.maps m) start size with
  | false =>
    refine iff_of_false (fun hs => ?_) (by simp)
    obtain ⟨s', hs⟩ := hs
    rw [vmMapEnter, hok] at hs
    cases hs
  | true =>
    refine iff_of_true ?_ rfl
    have hfind (p : VmMapEntry → Bool) : vmMapFind s m p = some (.header m) := by
      have hnext : (s.entries (.header m)).next = .header m := hempty
      rw [vmMapFind, hnext, forNodes_stop]
      rfl
    have hpos (a : Word) (t : VmState) (ht : t.entries = Function.update s.entries (.elem a)
        vmMapEntryZero) (v : VmMapEntry) :
        vmMapFindPos (t.setEntry (.elem a) v) m start = some (.header m) := by
      have hnext : ((t.setEntry (.elem a) v).entries (.header m)).next = .header m := by
        rw [VmState.setEntry, ht]
        dsimp only
        rw [Function.update_of_ne (by simp), Function.update_of_ne (by simp)]
        exact hempty
      rw [vmMapFindPos, hnext, forNodes_stop]
      rfl
    have halloc : vmMapEntryAlloc h s = ((vmMapEntryAlloc h s).1, (vmMapEntryAlloc h s).2) := rfl
    have hentries : (vmMapEntryAlloc h s).2.entries =
        Function.update s.entries (.elem (vmMapEntryAlloc h s).1) vmMapEntryZero := by
      unfold vmMapEntryAlloc at hmem ⊢
      dsimp only at hmem ⊢
      split_ifs at hmem ⊢ with he
      · exact absurd rfl hmem
      · rfl
    rw [vmMapEnter_eq hok (hfind _), if_neg (not_not.mpr rfl), halloc]
    dsimp only
    rw [if_neg hmem, hpos _ _ hentries, Option.bind_some, if_neg (not_not.mpr hflags)]
    exact ⟨_, rfl⟩

/-- `vm_map_enter` and `vm_map_page_range` take the ranges that lie in the map, but for those
that end with its last address. -/
theorem vm_range_accepts (hempty : s.next (.header m) = .header m)
    (hmem : (vmMapEntryAlloc h s).1 ≠ 0) (start size : Word) (prot maxProt : BitVec 32)
    {flags : BitVec 32} (hflags : flags &&& vmeWired = 0) :
    (((∃ s', vmMapEnter h s m start size prot maxProt flags = some (.success, s')) ↔
        size ≠ 0 ∧ (s.maps m).Within start size) ∧
      ((∀ s', vmMapPageRange h s m start size prot ≠ some (.invalidArgument, s')) ↔
        size ≠ 0 ∧ (s.maps m).Within start size)) ↔
    ¬ (size ≠ 0 ∧ (s.maps m).minOffset ≤ start ∧
      start.toNat+size.toNat = (s.maps m).maxOffset.toNat+1) := by
  have hcheck : (∀ s', vmMapPageRange h s m start size prot ≠ some (.invalidArgument, s')) ↔
      vmRangeOk (s.maps m) start size = true := by
    cases hok : vmRangeOk (s.maps m) start size with
    | false =>
      refine iff_of_false (fun hs => hs s ?_) (by simp)
      rw [vmMapPageRange, hok]
      rfl
    | true =>
      refine iff_of_true (fun s' hs => ?_) rfl
      rcases vmMapPageRange_result hs with ⟨hbad, _⟩ | ⟨_, hr | hr⟩
      · cases hok.symm.trans hbad
      · cases hr
      · cases hr
  rw [vmMapEnter_empty hempty hmem prot maxProt hflags, hcheck, and_self, vmRangeOk_within,
    BitVec.le_def]
  constructor
  · rintro hiff ⟨hne, hmin, hlast⟩
    refine (hiff.mpr ⟨hne, fun k hk => ?_⟩).2 hlast
    omega
  · intro hnot
    refine ⟨fun hok => hok.1, fun hin => ⟨hin, fun hlast => hnot ⟨hin.1, ?_, hlast⟩⟩⟩
    have hpos : 0 < size.toNat := by
      have hne : size.toNat ≠ 0 := fun hz => hin.1 (BitVec.eq_of_toNat_eq hz)
      omega
    exact (hin.2 0 hpos).1

theorem vm_range_accepts_page :
    ((∃ s', vmMapEnter higherHalf vmFirst vmFirstMap 0x1000 0x1000 3 7 0 = some (.success, s')) ↔
      (0x1000 : Word) ≠ 0 ∧ (vmFirst.maps vmFirstMap).Within 0x1000 0x1000) := by
  have hempty : vmFirst.next (.header vmFirstMap) = .header vmFirstMap := by decide +kernel
  have hmem : (vmMapEntryAlloc higherHalf vmFirst).1 ≠ 0 := by decide +kernel
  refine ((vm_range_accepts hempty hmem 0x1000 0x1000 3 7 (by decide)).mpr fun hlast => ?_).1
  have hmax : (vmFirst.maps vmFirstMap).maxOffset = userMapMax := by decide +kernel
  rw [hmax] at hlast
  exact absurd hlast.2.2 (by decide)

/-- The last page of the user space is in the map, and neither call takes it. -/
theorem vm_range_rejects_last :
    (vmFirst.next (.header vmFirstMap) = .header vmFirstMap ∧
      (vmMapEntryAlloc higherHalf vmFirst).1 ≠ 0) ∧
    ((0x1000 : Word) ≠ 0 ∧ (vmFirst.maps vmFirstMap).Within 0x7ffffffff000 0x1000) ∧
    (∀ s', vmMapEnter higherHalf vmFirst vmFirstMap 0x7ffffffff000 0x1000 3 7 0 ≠
      some (.success, s')) ∧
    vmMapPageRange higherHalf vmFirst vmFirstMap 0x7ffffffff000 0x1000 3 =
      some (.invalidArgument, vmFirst) := by
  have hempty : vmFirst.next (.header vmFirstMap) = .header vmFirstMap := by decide +kernel
  have hmem : (vmMapEntryAlloc higherHalf vmFirst).1 ≠ 0 := by decide +kernel
  have hmin : (vmFirst.maps vmFirstMap).minOffset = userMapMin := by decide +kernel
  have hmax : (vmFirst.maps vmFirstMap).maxOffset = userMapMax := by decide +kernel
  have hbad : vmRangeOk (vmFirst.maps vmFirstMap) 0x7ffffffff000 0x1000 = false := by decide +kernel
  refine ⟨⟨hempty, hmem⟩, ⟨by decide, fun k hk => ?_⟩, fun s' hs => ?_, ?_⟩
  · have hk' : k < 4096 := hk
    have h1 : userMapMin.toNat = 0x1000 := rfl
    have h2 : userMapMax.toNat = 0x7fffffffffff := rfl
    have h3 : (0x7ffffffff000 : Word).toNat = 0x7ffffffff000 := rfl
    rw [hmin, hmax, h1, h2, h3]
    omega
  · have hok := (vmMapEnter_empty hempty hmem 3 7 (by decide)).mp ⟨s', hs⟩
    cases hbad.symm.trans hok
  · rw [vmMapPageRange, hbad]
    rfl

end Accept

section Cover
variable {h : Hhdm} {w : VmWorld} {s s' : VmState} {p : PmapPtr} {m : VmMapPtr}
  {start size va : Word}

/-- The page loops come to every page of the range, but for the last one where the offsets of
both ends in their pages add up to a page. -/
theorem page_visited (hstop : start.toNat+size.toNat ≤ 2^47) (h1 : start.toNat ≤ va.toNat)
    (h2 : va.toNat < start.toNat+size.toNat) :
    (∃ a ∈ pageAddrs start (start+size), pageOf a = pageOf va) ↔
      start.toNat+(va.toNat/4096-start.toNat/4096)*4096 < start.toNat+size.toNat := by
  have hsum : (start+size).toNat = start.toNat+size.toNat := by
    rw [BitVec.toNat_add]
    omega
  have hle : (start+size).toNat ≤ 2^47 := by omega
  constructor
  · rintro ⟨a, ha, hpage⟩
    obtain ⟨hlt, k, hk⟩ := (mem_pageAddrs hle).mp ha
    rw [BitVec.lt_def, hsum] at hlt
    rw [pageOf_eq, pageOf_eq] at hpage
    omega
  · intro hlt
    obtain ⟨a, ha⟩ : ∃ a : Word, a.toNat =
        start.toNat+(va.toNat/4096-start.toNat/4096)*4096 :=
      ⟨BitVec.ofNat 64 (start.toNat+(va.toNat/4096-start.toNat/4096)*4096), by
        rw [BitVec.toNat_ofNat]
        omega⟩
    refine ⟨a, (mem_pageAddrs hle).mpr ⟨?_, _, ha⟩, ?_⟩
    · rw [BitVec.lt_def]
      omega
    · rw [pageOf_eq, pageOf_eq, ha]
      omega

/-- The condition under which the loops come to all pages of a range, or its last page was
mapped before. -/
def CoversRange (h : Hhdm) (s : VmState) (p : PmapPtr) (start size : Word) : Prop :=
  start.toNat%4096+(size.toNat-1)%4096 < 4096 ∨
    pmapTranslation h s.pm p (start+size-1) ≠ none

theorem MappedIn.covers {g g' : VmGhost} {live : Set PmapPtr} {own own' : ℕ → Owner}
    {data data' : List ℕ} {pm : PmapState} {flags : Word}
    (hm : MappedIn h live p flags (pageAddrs start (start+size)) own own' pm s'.pm data data')
    (hI : VmMemInv h g s.pm s.zoneStore s.data) (hp : p ∈ g.live)
    (hI' : VmMemInv h g' s'.pm s'.zoneStore s'.data) (hp' : p ∈ g'.live)
    (hpte : ∀ va, UserVa va → pteOf h pm p va = pteOf h s.pm p va) (hpos : 0 < size.toNat)
    (hstop : start.toNat+size.toNat ≤ 2^47) :
    RangeMapped h s' p start size ↔ CoversRange h s p start size := by
  have haddr {k : ℕ} (hk : k < size.toNat) :
      (start+BitVec.ofNat 64 k).toNat = start.toNat+k := by
    rw [BitVec.toNat_add, BitVec.toNat_ofNat]
    omega
  have hlast : (start+size-1).toNat = start.toNat+(size.toNat-1) := by
    have h1 : (1 : Word).toNat = 1 := rfl
    rw [BitVec.toNat_sub, BitVec.toNat_add, h1]
    omega
  have huser {k : ℕ} (hk : k < size.toNat) : UserVa (start+BitVec.ofNat 64 k) := by
    rw [UserVa, haddr hk]
    omega
  have hulast : UserVa (start+size-1) := by
    rw [UserVa, hlast]
    omega
  have hkeep {va : Word} (hva : UserVa va)
      (hout : ¬ ∃ a ∈ pageAddrs start (start+size), pageOf a = pageOf va) :
      pteOf h s'.pm p va = pteOf h s.pm p va := by
    push Not at hout
    rw [hm.other va hva hout, hpte va hva]
  have hlastOut (hbad : ¬ start.toNat%4096+(size.toNat-1)%4096 < 4096) :
      ¬ ∃ a ∈ pageAddrs start (start+size), pageOf a = pageOf (start+size-1) := by
    rw [page_visited hstop (by omega) (by omega), hlast]
    omega
  constructor
  · intro hall
    by_cases hc : start.toNat%4096+(size.toNat-1)%4096 < 4096
    · exact Or.inl hc
    · right
      have hne := hall (size.toNat-1) (by omega)
      have heq : start+BitVec.ofNat 64 (size.toNat-1) = start+size-1 := by
        apply BitVec.eq_of_toNat_eq
        rw [haddr (by omega), hlast]
      rw [heq, ne_eq, hulast.translation hI' hp', hkeep hulast (hlastOut hc)] at hne
      rwa [ne_eq, hulast.translation hI hp]
  · intro hc k hk
    rw [ne_eq, (huser hk).translation hI' hp']
    by_cases hin : ∃ a ∈ pageAddrs start (start+size), pageOf a = pageOf (start+BitVec.ofNat 64 k)
    · obtain ⟨pa, _, _, he⟩ := hm.mapped _ (huser hk) hin
      rw [he]
      simp
    · -- only the last page of the range is left out
      have hin' := hin
      rw [page_visited hstop (by rw [haddr hk]; omega) (by rw [haddr hk]; omega), haddr hk] at hin'
      rcases hc with hc | hc
      · omega
      · have hpage : pageOf (start+BitVec.ofNat 64 k) = pageOf (start+size-1) := by
          rw [pageOf_eq, pageOf_eq, haddr hk, hlast]
          omega
        rw [hkeep (huser hk) hin, pteOf_page (huser hk) hulast hpage]
        rwa [ne_eq, hulast.translation hI hp] at hc

/-- Where `vm_map_page_range`, or `vm_map_enter` of a wired range, succeeds, every address of
the range has a translation exactly if the loop comes to the last page, or it had one. -/
theorem vm_run_range_covered {s₀ s : VmState} (hb : VmBoot h s₀) (hs : vmMapInit s₀ = some s)
    {trace : List VmOp} (hr : Run (VmStep h) (VmWorld.boot s) trace w) (hm : m ∈ w.maps)
    (start size : Word) (prot maxProt flags : BitVec 32) :
    (∀ s', vmMapPageRange h w.vm m start size prot = some (.success, s') →
      (RangeMapped h s' (s'.maps m).pmap start size ↔
        CoversRange h w.vm (w.vm.maps m).pmap start size)) ∧
    (flags &&& vmeWired ≠ 0 → ∀ s',
      vmMapEnter h w.vm m start size prot maxProt flags = some (.success, s') →
      (RangeMapped h s' (s'.maps m).pmap start size ↔
        CoversRange h w.vm (w.vm.maps m).pmap start size)) := by
  obtain ⟨g, lists, hI⟩ := VmWorldInv.run hb hs hr
  have hI := hI.inv
  have hbound (hok : vmRangeOk (w.vm.maps m) start size = true) :
      0 < size.toNat ∧ start.toNat+size.toNat ≤ 2^47 := by
    have hle := hI.stop_le hm hok
    rw [vmRange_stop hok] at hle
    exact ⟨(vmRangeOk_iff.mp hok).1, hle⟩
  refine ⟨fun s' hs' => ?_, fun hw s' hs' => ?_⟩
  · rcases vmMapPageRange_spec hI hm start size prot with ⟨_, hrun⟩ |
      ⟨hok, own', pm', data', hI', ⟨hrun, _, hin⟩ | ⟨_, _, _, _, _, _, _, hrun, _⟩⟩
    · cases (Prod.mk.inj (Option.some.inj (hs'.symm.trans hrun))).1
    · obtain ⟨_, rfl⟩ := Prod.mk.inj (Option.some.inj (hs'.symm.trans hrun))
      obtain ⟨hpos, hstop⟩ := hbound hok
      exact hin.covers hI.mem (hI.pmap m hm) hI'.mem (hI.pmap m hm) (fun _ _ => rfl) hpos hstop
    · cases (Prod.mk.inj (Option.some.inj (hs'.symm.trans hrun))).1
  · rcases vmMapEnter_spec hI hm start size prot maxProt flags with ⟨_, hrun⟩ |
      ⟨hok, hrun | ⟨a, s1, g1, he, _, ⟨hz, _⟩ | ⟨_, own', pm', data', hI', ⟨hrun, _, hin⟩ |
        ⟨_, _, _, _, _, _, _, hrun, _⟩⟩⟩⟩
    · cases (Prod.mk.inj (Option.some.inj (hs'.symm.trans hrun))).1
    · cases (Prod.mk.inj (Option.some.inj (hs'.symm.trans hrun))).1
    · exact absurd hz hw
    · obtain ⟨_, rfl⟩ := Prod.mk.inj (Option.some.inj (hs'.symm.trans hrun))
      obtain ⟨hpos, hstop⟩ := hbound hok
      have hpmap : (s1.maps m).pmap = (w.vm.maps m).pmap := fixed_pmap (he.quiet.fixed m)
      have hsame {va : Word} (hva : UserVa va) : pteOf h s1.pm (w.vm.maps m).pmap va =
          pteOf h w.vm.pm (w.vm.maps m).pmap va :=
        he.quiet.kept.same _ (hI.pmap m hm) _ _ (vaPath_path hva.lower) (vaPath_leaf va)
      show RangeMapped h _ (s1.maps m).pmap start size ↔ _
      rw [hpmap]
      exact hin.covers hI.mem (hI.pmap m hm) hI'.mem (hpmap ▸ hI'.pmap m hm)
        (fun va hva => hsame hva) hpos hstop
    · cases (Prod.mk.inj (Option.some.inj (hs'.symm.trans hrun))).1

theorem vm_run_range_covered_page : ∃ s',
    vmMapPageRange higherHalf vmFirst vmFirstMap 0x1000 0x1000 3 = some (.success, s') ∧
    RangeMapped higherHalf s' (s'.maps vmFirstMap).pmap 0x1000 0x1000 := by
  have hr : (vmMapPageRange higherHalf vmFirst vmFirstMap 0x1000 0x1000 3).map Prod.fst =
      some .success := by decide +kernel
  obtain ⟨⟨_, s'⟩, hs', rfl⟩ := Option.map_eq_some_iff.mp hr
  refine ⟨s', hs', ?_⟩
  exact ((vm_run_range_covered vmBootState_boot vmBooted_init vmFirst_run rfl 0x1000 0x1000 3 7 1).1
    s' hs').mpr (Or.inl (by decide))

/-- Half a page on each side of 0x2000: the loop stops short of the second half. -/
theorem vm_map_page_range_short : ∃ s',
    vmMapPageRange higherHalf vmFirst vmFirstMap 0x1800 0x1000 3 = some (.success, s') ∧
    ¬ RangeMapped higherHalf s' (s'.maps vmFirstMap).pmap 0x1800 0x1000 := by
  have hr : (vmMapPageRange higherHalf vmFirst vmFirstMap 0x1800 0x1000 3).map (fun r =>
      (r.1, pmapTranslation higherHalf r.2.pm (r.2.maps vmFirstMap).pmap 0x2000)) =
      some (.success, none) := by decide +kernel
  obtain ⟨⟨r, s'⟩, hs', hr⟩ := Option.map_eq_some_iff.mp hr
  obtain ⟨rfl, hnone⟩ := Prod.mk.inj hr
  exact ⟨s', hs', fun hall => hall 0x800 (by decide) hnone⟩

end Cover

end Dana
