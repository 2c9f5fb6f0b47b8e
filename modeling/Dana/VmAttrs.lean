import Dana.VmRuns

/-! What a map says of each address: the protection that `vm_map_lookup_entry` gives it and
the translation that the processor makes of it. -/
namespace Dana
open ByteMem RadixTree LinkedRing IntervalList

abbrev VmAttrs := BitVec 32 × BitVec 32 × BitVec 32

/-- `prot`, `max_prot` and `flags` of an entry. -/
def VmState.attrs (s : VmState) (e : EntryPtr) : VmAttrs :=
  ((s.entries e).prot, (s.entries e).maxProt, (s.entries e).flags)

/-- Those of the entry that the lookup finds for `addr`. -/
def vmAttrs (s : VmState) (m : VmMapPtr) (addr : Word) : Option (Option VmAttrs) :=
  (vmMapLookupEntry s m addr).map (Option.map s.attrs)

section Attrs
variable {s s' : VmState} {m : VmMapPtr} {l l' : List EntryPtr} {e : EntryPtr} {addr : Word}

theorem attrs_of_body (h : s'.body e = s.body e) : s'.attrs e = s.attrs e :=
  congrArg (fun b : Word × Word × BitVec 32 × BitVec 32 × BitVec 32 => b.2.2) h

theorem contains_of_body (h : s'.body e = s.body e) (addr : Word) :
    s'.Contains e addr ↔ s.Contains e addr := by
  obtain ⟨h1, h2⟩ := vmDrops_of_body h
  rw [VmState.Contains, VmState.Contains, h1, h2]

theorem VmMapInv.attrs_some (hm : VmMapInv s m l) (hlen : l.length ≤ addrFuel) (he : e ∈ l)
    (hc : s.Contains e addr) : vmAttrs s m addr = some (some (s.attrs e)) := by
  rw [vmAttrs, ((hm.lookup_iff hlen addr).1 e he hc).1]
  rfl

theorem VmMapInv.attrs_none (hm : VmMapInv s m l) (hlen : l.length ≤ addrFuel)
    (hno : ∀ e ∈ l, ¬ s.Contains e addr) : vmAttrs s m addr = some none := by
  rw [vmAttrs, (hm.lookup_iff hlen addr).2 hno]
  rfl

/-- Lists that have the same entry for an address give it the same attributes. -/
theorem VmMapInv.attrs_congr (hm : VmMapInv s m l) (hlen : l.length ≤ addrFuel)
    (hm' : VmMapInv s' m l') (hlen' : l'.length ≤ addrFuel)
    (hkeep : ∀ e ∈ l, s.Contains e addr → e ∈ l' ∧ s'.body e = s.body e)
    (hback : ∀ e ∈ l', s'.Contains e addr → e ∈ l ∧ s'.body e = s.body e) :
    vmAttrs s' m addr = vmAttrs s m addr := by
  by_cases hex : ∃ e ∈ l, s.Contains e addr
  · obtain ⟨e, he, hc⟩ := hex
    obtain ⟨he', hbody⟩ := hkeep e he hc
    rw [hm.attrs_some hlen he hc, hm'.attrs_some hlen' he' ((contains_of_body hbody addr).mpr hc),
      attrs_of_body hbody]
  · push Not at hex
    rw [hm.attrs_none hlen hex, hm'.attrs_none hlen' fun e he hc => ?_]
    obtain ⟨hel, hbody⟩ := hback e he hc
    exact hex e hel ((contains_of_body hbody addr).mp hc)

end Attrs

section Translation
variable {h : Hhdm} {g : VmGhost} {pm pm' : PmapState} {store store' : ZoneStore}
  {data data' : List ℕ} {own' : ℕ → Owner} {p q : PmapPtr} {va : Word}

theorem UserVa.translation (hI : VmMemInv h g pm store data) (hp : p ∈ g.live) (hva : UserVa va) :
    pmapTranslation h pm p va = none ↔ pteOf h pm p va = none := by
  rw [hI.pmap.translation hp hva, Option.map_eq_none_iff]

/-- Two addresses in one page have one entry. -/
theorem pteOf_page {a : Word} (ha : UserVa a) (hva : UserVa va) (hpage : pageOf a = pageOf va) :
    pteOf h pm p a = pteOf h pm p va := by
  obtain ⟨hq, hi⟩ := (vaPath_eq_iff ha hva).mpr hpage.symm
  rw [pteOf, ← hq, ← hi]
  rfl

/-- Where the kernel's frames and the leaf of `va` stay, its translation stays. -/
theorem VmMemInv.translation_same {g' : VmGhost} (hI : VmMemInv h g pm store data)
    (hI' : VmMemInv h g' pm' store' data') (hroot : pm'.pmaps .kernel = pm.pmaps .kernel)
    (hkernel : ∀ x, g.own (frameOf h x) = .kernel → pm'.kmem.mem x = pm.kmem.mem x)
    (hlive : g.live ⊆ g'.live) (hq : q = .kernel ∨ q ∈ g.live)
    (hsame : q ∈ g.live → UserVa va → pteOf h pm' q va = pteOf h pm q va) :
    pmapTranslation h pm' q va = pmapTranslation h pm q va := by
  by_cases hcan : Canonical va
  swap
  · rw [pmapTranslation, pmapTranslation, if_neg hcan, if_neg hcan]
  have hwalk (hslot : pteAt h pm'.kmem.mem (pm'.pmaps q).pml4Phys (pml4Idx va) =
      pteAt h pm.kmem.mem (pm.pmaps .kernel).pml4Phys (pml4Idx va))
      (hslot0 : pteAt h pm.kmem.mem (pm.pmaps q).pml4Phys (pml4Idx va) =
        pteAt h pm.kmem.mem (pm.pmaps .kernel).pml4Phys (pml4Idx va)) :
      pmapTranslation h pm' q va = pmapTranslation h pm q va := by
    have hal := hI.pmap.kernel.aligned
    rw [pmapTranslation, pmapTranslation, if_pos hcan, if_pos hcan,
      hI.kernelTables.walk hal hkernel hslot, hI.kernelTables.walk hal (fun _ _ => rfl) hslot0]
  have hslot (i : Idx) : pteAt h pm'.kmem.mem (pm'.pmaps .kernel).pml4Phys i =
      pteAt h pm.kmem.mem (pm.pmaps .kernel).pml4Phys i := by
    rw [hroot]
    exact hI.pmap.kernel.root_pte hkernel i
  rcases hq with rfl | hq
  · exact hwalk (hslot _) rfl
  rcases hcan with hva | hva
  · rw [hI'.pmap.translation (hlive hq) hva, hI.pmap.translation hq hva, hsame hq hva]
  · have hup : 256 ≤ (pml4Idx va).toNat := by
      have hlt := va.isLt
      rw [pml4Idx, idx_toNat]
      omega
    refine hwalk ?_ (hI.pmap.kernel.copied q hq _ hup)
    rw [hI'.pmap.kernel.copied q (hlive hq) _ hup]
    exact hslot _

/-- A call on the pmap `p` changes translations of `p` in the user half only. -/
theorem Paged.translation {g' : VmGhost} (hpg : Paged h p g.live g.own g'.own pm pm' data data')
    (hI : VmMemInv h g pm store data) (hI' : VmMemInv h g' pm' store' data')
    (hlive : g'.live = g.live) (hq : q = .kernel ∨ q ∈ g.live)
    (hsame : q = p → UserVa va → pteOf h pm' q va = pteOf h pm q va) :
    pmapTranslation h pm' q va = pmapTranslation h pm q va := by
  refine hI.translation_same hI' (congrFun hpg.pmaps _) hpg.kernelMem hlive.symm.subset hq
    fun hq hva => ?_
  by_cases hqp : q = p
  · exact hsame hqp hva
  · exact hpg.entry q hq hqp _ _ (vaPath_path (UserVa.lower hva)) (vaPath_leaf va)

end Translation

end Dana
