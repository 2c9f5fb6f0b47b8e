import Dana.HwStore
import Dana.VmCover
import Dana.VmShape

/-! What the address spaces read: the bytes behind the leaf entries, and what a store and a
mapped page do to them. -/
namespace Dana
open ByteMem RadixTree AddrLoop

/-- The byte at `va` in the address space of `p`, `none` where no page is mapped. -/
def VmState.byteAt (h : Hhdm) (s : VmState) (p : PmapPtr) (va : Word) : Option Byte :=
  (pteOf h s.pm p va).map fun e => s.pm.kmem.mem (leafByte h e va)

/-- The byte that the processor reads at `va` with the tables of `p`. -/
def hwLoad (h : Hhdm) (s : VmState) (p : PmapPtr) (va : Word) : Option Byte :=
  (pmapTranslation h s.pm p va).map fun x => s.pm.kmem.mem (hwByte h x.1 x.2 va)

section Bytes
variable {h : Hhdm} {g g' : VmGhost} {maps : Set VmMapPtr} {lists : VmMapPtr → List EntryPtr}
  {s s' : VmState} {p q : PmapPtr} {va vb e f a start stop flags : Word} {as : List Word}

theorem VmMemInv.hwLoad (hI : VmMemInv h g s.pm s.zoneStore s.data) (hp : p ∈ g.live)
    (hva : UserVa va) : hwLoad h s p va = s.byteAt h p va := by
  rw [Dana.hwLoad, VmState.byteAt, hI.pmap.translation hp hva, Option.map_map]
  refine congrArg (fun f => Option.map f (pteOf h s.pm p va)) (funext fun e => ?_)
  simp only [Function.comp_apply, hwByte_page]

/-- The bytes of a page are at different places of its frame. -/
theorem leafByte_page (he : Mappable (pteFrame e)) (hpage : pageOf va = pageOf vb)
    (heq : leafByte h e va = leafByte h e vb) : va = vb := by
  have hsame : pteFrame e ||| (va &&& 0xfff) = pteFrame e ||| (vb &&& 0xfff) :=
    add_right_cancel heq
  rw [or_offset he.1, or_offset he.1] at hsame
  have hoff := congrArg BitVec.toNat (add_left_cancel hsame)
  have h4 : (0xfff : Word).toNat = 2^12-1 := rfl
  rw [BitVec.toNat_and, BitVec.toNat_and, h4, Nat.and_two_pow_sub_one_eq_mod,
    Nat.and_two_pow_sub_one_eq_mod] at hoff
  rw [pageOf_eq, pageOf_eq] at hpage
  apply BitVec.eq_of_toNat_eq
  omega

/-- No two addresses of the user halves share a byte. -/
theorem VmMemInv.leafByte_inj (hI : VmMemInv h g s.pm s.zoneStore s.data) (hp : p ∈ g.live)
    (hq : q ∈ g.live) (hva : UserVa va) (hvb : UserVa vb) (he : pteOf h s.pm p va = some e)
    (hf : pteOf h s.pm q vb = some f) (heq : leafByte h e va = leafByte h f vb) :
    q = p ∧ vb = va := by
  have hde := hI.leaf p hp va e hva he
  have hdf := hI.leaf q hq vb f hvb hf
  have hframe := hde.leafByte (h := h)
  rw [heq, hdf.leafByte] at hframe
  have howner := hdf.owner
  rw [hframe, hde.owner] at howner
  obtain ⟨rfl, hpath, hidx⟩ := Owner.leaf.inj howner
  have hpage : pageOf vb = pageOf va := (vaPath_eq_iff hva hvb).mp ⟨hpath.symm, hidx.symm⟩
  rw [pteOf_page hvb hva hpage, he] at hf
  obtain rfl := Option.some.inj hf
  exact ⟨rfl, leafByte_page hdf.mappable hpage heq.symm⟩

/-- A store through a leaf of `p` changes one byte of the address space of `p`. -/
theorem VmMemInv.byteAt_store (hI : VmMemInv h g s.pm s.zoneStore s.data) (hp : p ∈ g.live)
    (hva : UserVa va) (he : pteOf h s.pm p va = some e) (b : Byte)
    (hsame : SameEntries h s.pm (s.writeByte (leafByte h e va) b).pm g.live) (hq : q ∈ g.live)
    (hvb : UserVa vb) : (s.writeByte (leafByte h e va) b).byteAt h q vb =
      if q = p ∧ vb = va then some b else s.byteAt h q vb := by
  have hpte : pteOf h (s.writeByte (leafByte h e va) b).pm q vb = pteOf h s.pm q vb :=
    hsame q hq _ _ (vaPath_path hvb.lower) (vaPath_leaf vb)
  rw [VmState.byteAt, hpte]
  split_ifs with hc
  · obtain ⟨rfl, rfl⟩ := hc
    rw [he, Option.map_some]
    exact congrArg some (Function.update_self _ _ _)
  · rw [VmState.byteAt]
    cases hf : pteOf h s.pm q vb with
    | none => rfl
    | some f =>
      refine congrArg some (Function.update_of_ne (fun heq => hc ?_) _ _)
      exact hI.leafByte_inj hp hq hva hvb he hf heq.symm

/-- To map a page changes no byte of the data pages there are. -/
theorem vmPageIn_mem (hI : VmMemInv h g s.pm s.zoneStore s.data) (hp : p ∈ g.live)
    (hva : UserVa a) (flags : Word) {x : Word} (hx : frameOf h x ∈ s.data) :
    (vmPageIn h s p a flags).2.pm.kmem.mem x = s.pm.kmem.mem x := by
  obtain ⟨pa, pmm, hpa⟩ : ∃ pa pmm, pmmAllocPage s.pm.kmem.pmm = (pa, pmm) := ⟨_, _, rfl⟩
  by_cases hnull : pa = pmmNull
  · simp only [vmPageIn, VmState.allocPage, hpa, hnull, ↓reduceIte]
  obtain ⟨ha, hfree, _⟩ := hI.pmap.alloc hpa hnull
  obtain ⟨p', q, i, ho⟩ := (hI.dataLeaf _).mp hx
  have hne : frameOf h x ≠ pageOf pa := by
    intro hc
    rw [hc, hfree] at ho
    cases ho
  have hzero (y : Word) (hy : frameOf h y ≠ pageOf pa) :
      zeroPage h s.pm.kmem.mem pa y = s.pm.kmem.mem y := by
    rw [zeroPage_apply h _ pa y ha, if_neg hy]
  obtain ⟨hI1, _⟩ := hI.pmap.take (o := .leaf p (vaPath a) (ptIdx a)) hpa hnull (by simp)
    (by simp) (by simp) hzero
  obtain ⟨pm2, own2, _, ht, _, hres⟩ := pmapMap_spec hI1 hp hva.lower pa flags
  have ho' : Function.update g.own (pageOf pa) (.leaf p (vaPath a) (ptIdx a)) (frameOf h x) =
      .leaf p' q i := by
    rw [Function.update_of_ne hne, ho]
  have hmem : pm2.kmem.mem x = s.pm.kmem.mem x := by
    rw [ht.mem x (by rw [ho']; simp) (by rw [ho']; simp)]
    exact hzero x hne
  rw [vmPageIn_eq hpa hnull]
  rcases hres with ⟨hr, _⟩ | ⟨hr, _⟩
  · rw [hr]
    exact hmem
  · rw [hr]
    exact hmem

theorem vmPagesIn_mem (hI : VmMemInv h g s.pm s.zoneStore s.data) (hp : p ∈ g.live)
    (hstop : stop.toNat ≤ 2^47) {r : Except (Word × VmState) VmState}
    (hr : vmPagesIn h p flags stop start s = some r) {x : Word} (hx : frameOf h x ∈ s.data) :
    (pagesInState r).pm.kmem.mem x = s.pm.kmem.mem x := by
  refine forAddr_inv _ _ _ (fun _ t => (∃ own', VmMemInv h { g with own := own' } t.pm t.zoneStore
      t.data) ∧ frameOf h x ∈ t.data ∧ t.pm.kmem.mem x = s.pm.kmem.mem x)
    (fun r => (pagesInState r).pm.kmem.mem x = s.pm.kmem.mem x)
    (fun b t hb ht => ?_) (fun _ _ _ ht => ht.2.2) addrFuel start s ⟨⟨g.own, hI⟩, hx, rfl⟩ r hr
  obtain ⟨⟨own', hI'⟩, hx', hmem⟩ := ht
  have hvb : UserVa b := (BitVec.lt_def.mp hb).trans_le hstop
  have hmem' : (vmPageIn h t p b flags).2.pm.kmem.mem x = s.pm.kmem.mem x :=
    (vmPageIn_mem hI' hp hvb flags hx').trans hmem
  have hdata : PagesOnly t (vmPageIn h t p b flags).2 ∧ t.data ⊆ (vmPageIn h t p b flags).2.data :=
    vmPageIn_only
  obtain ⟨own2, pm2, data2, hI2, _, ⟨he, _⟩ | ⟨pa, he, _⟩⟩ := vmPageIn_spec hI' hp hvb flags
  · rw [he] at hmem'
    rw [he]
    refine ⟨fun t' ht => (by cases ht), fun r hr => ?_⟩
    obtain rfl := Except.error.inj hr
    exact hmem'
  · rw [he] at hmem' hdata
    rw [he]
    refine ⟨fun t' ht => ?_, fun r hr => by cases hr⟩
    obtain rfl := Except.ok.inj ht
    exact ⟨⟨own2, hI2⟩, hdata.2 hx', hmem'⟩

/-- Pages that have been mapped read as zeros. -/
theorem MappedIn.byteAt_in {data : List ℕ} {pm : PmapState} {own : ℕ → Owner} {live : Set PmapPtr}
    (hm : MappedIn h live p flags as own g'.own pm s'.pm data s'.data)
    (hI' : VmMemInv h g' s'.pm s'.zoneStore s'.data) (hp : p ∈ g'.live) (hva : UserVa va)
    (hin : ∃ a ∈ as, pageOf a = pageOf va) : s'.byteAt h p va = some 0 := by
  obtain ⟨pa, hpa, hnew, he⟩ := hm.mapped va hva hin
  have hd := hI'.leaf p hp va _ hva he
  have hframe := hd.leafByte (h := h)
  rw [VmState.byteAt, he, Option.map_some]
  rcases hm.paged.mem (leafByte h (mapEntry pa flags) va) (hframe ▸ hd.mem) with ⟨hin, _⟩ | hz
  · rw [hframe, pteFrame_mapEntry hpa] at hin
    exact absurd hin hnew
  · rw [hz]

/-- A translation that stays reads the byte that it read, where the data pages stay. -/
theorem VmMemInv.byteAt_congr (hI : VmMemInv h g s.pm s.zoneStore s.data) (hq : q ∈ g.live)
    (hva : UserVa va) (hpte : pteOf h s'.pm q va = pteOf h s.pm q va)
    (hmem : ∀ x, frameOf h x ∈ s.data → s'.pm.kmem.mem x = s.pm.kmem.mem x) :
    s'.byteAt h q va = s.byteAt h q va := by
  rw [VmState.byteAt, VmState.byteAt, hpte]
  cases he : pteOf h s.pm q va with
  | none => rfl
  | some e =>
    have hd := hI.leaf q hq va e hva he
    exact congrArg some (hmem _ (hd.leafByte (h := h) ▸ hd.mem))

end Bytes

end Dana
