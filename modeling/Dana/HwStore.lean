import Dana.VmAttrs

/-! Stores of the kernel as the processor makes them, through the tables that CR3 points to. -/
namespace Dana
open ByteMem RadixTree

/-- An entry that lets a store of the kernel through: with CR0.WP set, as the boot loader
leaves it, every entry on the way has to be writable. -/
def pteStorable (e : Word) : Option Word := if e &&& pteP ≠ 0 ∧ e &&& pteW ≠ 0 then some e else none

/-- The entry that maps `va` for a store, with its level as in `hwWalk`; `none` is a fault. -/
def hwStoreWalk (h : Hhdm) (m : Mem) (pml4 va : Word) : Option (ℕ × Word) :=
  (pteStorable (pteAt h m pml4 (pml4Idx va))).bind fun e4 => (pteNext e4).bind fun pdpt =>
    (pteStorable (pteAt h m pdpt (pdptIdx va))).bind fun e3 =>
      if e3 &&& ptePS ≠ 0 then some (2, e3)
      else (pteNext e3).bind fun pd =>
        (pteStorable (pteAt h m pd (pdIdx va))).bind fun e2 =>
          if e2 &&& ptePS ≠ 0 then some (1, e2)
          else (pteNext e2).bind fun pt =>
            (pteStorable (pteAt h m pt (ptIdx va))).map fun e => (0, e)

def hwStore (h : Hhdm) (m : Mem) (pml4 va : Word) : Option (ℕ × Word) :=
  if Canonical va then hwStoreWalk h m pml4 va else none

/-- The physical address of `va` in a page `k` levels up with the entry `e`. -/
def hwPhys (k : ℕ) (e va : Word) : Word :=
  let offset : Word := BitVec.ofNat 64 (2^(12+9*k)-1)
  (e &&& pteAddrMask &&& ~~~offset) ||| (va &&& offset)

/-- Where the direct map has the byte at `va` of a page `k` levels up with the entry `e`. -/
def hwByte (h : Hhdm) (k : ℕ) (e va : Word) : Word :=
  let offset : Word := BitVec.ofNat 64 (2^(12+9*k)-1)
  physToVirt h ((e &&& pteAddrMask &&& ~~~offset) ||| (va &&& offset))

/-- `pmap_switch`. -/
def VmState.pmapSwitch (s : VmState) (p : PmapPtr) : VmState := { s with active := p }

/-- What CR3 holds. -/
def VmState.cr3 (s : VmState) : Word := (s.pm.pmaps s.active).pml4Phys

section Walk
variable {h : Hhdm} {m : Mem} {r va : Word}

theorem pteStorable_some {e x : Word} (hx : pteStorable e = some x) :
    x = e ∧ e &&& pteP ≠ 0 ∧ e &&& pteW ≠ 0 := by
  unfold pteStorable at hx
  split_ifs at hx with hc
  exact ⟨(Option.some.inj hx).symm, hc⟩

/-- A store goes through the entry that maps its address, which is writable. -/
theorem hwStoreWalk_some {x : ℕ × Word} (hx : hwStoreWalk h m r va = some x) :
    hwWalk h m r va = some x ∧ x.2 &&& pteP ≠ 0 ∧ x.2 &&& pteW ≠ 0 := by
  rw [hwStoreWalk, Option.bind_eq_some_iff] at hx
  obtain ⟨e4, h4, hx⟩ := hx
  obtain ⟨rfl, _⟩ := pteStorable_some h4
  rw [Option.bind_eq_some_iff] at hx
  obtain ⟨pdpt, hpdpt, hx⟩ := hx
  rw [Option.bind_eq_some_iff] at hx
  obtain ⟨e3, h3, hx⟩ := hx
  obtain ⟨rfl, hp3, hw3⟩ := pteStorable_some h3
  rw [hwWalk, hpdpt, Option.bind_some]
  split_ifs at hx with hs3
  · obtain rfl := Option.some.inj hx
    refine ⟨?_, hp3, hw3⟩
    dsimp only
    rw [if_pos ⟨hp3, hs3⟩]
  rw [Option.bind_eq_some_iff] at hx
  obtain ⟨pd, hpd, hx⟩ := hx
  rw [Option.bind_eq_some_iff] at hx
  obtain ⟨e2, h2, hx⟩ := hx
  obtain ⟨rfl, hp2, hw2⟩ := pteStorable_some h2
  dsimp only
  rw [if_neg fun hc => hs3 hc.2, hpd, Option.bind_some]
  split_ifs at hx with hs2
  · obtain rfl := Option.some.inj hx
    refine ⟨?_, hp2, hw2⟩
    rw [if_pos ⟨hp2, hs2⟩]
  rw [Option.bind_eq_some_iff] at hx
  obtain ⟨pt, hpt, hx⟩ := hx
  rw [Option.map_eq_some_iff] at hx
  obtain ⟨e1, h1, rfl⟩ := hx
  obtain ⟨rfl, hp1, hw1⟩ := pteStorable_some h1
  refine ⟨?_, hp1, hw1⟩
  rw [if_neg fun hc => hs2 hc.2, hpt, Option.bind_some, ptePresent, if_neg hp1]
  rfl

/-- Walks of a store that read the same entries end at the same one. -/
theorem hwStoreWalk_congr {m' : Mem} (hT : ∀ q t, q <+: vaPath va → hwTable h m r q = some t →
    ∀ i, pteAt h m' t i = pteAt h m t i) : hwStoreWalk h m' r va = hwStoreWalk h m r va := by
  unfold hwStoreWalk
  rw [hT [] r ⟨_, rfl⟩ rfl]
  refine Option.bind_congr fun e4 h4 => Option.bind_congr fun pdpt hpdpt => ?_
  obtain ⟨rfl, _⟩ := pteStorable_some h4
  have hn1 : hwTable h m r [pml4Idx va] = some pdpt := by
    rw [hwTable, node_cons, hpdpt]
    rfl
  rw [hT _ pdpt ⟨_, rfl⟩ hn1]
  refine Option.bind_congr fun e3 h3 => ?_
  obtain ⟨rfl, _⟩ := pteStorable_some h3
  split_ifs
  · rfl
  refine Option.bind_congr fun pd hpd => ?_
  have hn2 : hwTable h m r [pml4Idx va, pdptIdx va] = some pd := node_pair.mpr ⟨_, hpdpt, hpd⟩
  rw [hT _ pd ⟨[pdIdx va], rfl⟩ hn2]
  refine Option.bind_congr fun e2 h2 => ?_
  obtain ⟨rfl, _⟩ := pteStorable_some h2
  split_ifs
  · rfl
  refine Option.bind_congr fun pt hpt => ?_
  have hn3 : hwTable h m r (vaPath va) = some pt := node_triple.mpr ⟨_, hpdpt, _, hpd, hpt⟩
  rw [hT _ pt (List.prefix_refl _) hn3]

theorem hwPhys_page (e : Word) : hwPhys 0 e va = (e &&& pteAddrMask) ||| (va &&& (pmmPageSize-1)) := by
  have hmask : pteAddrMask &&& ~~~(BitVec.ofNat 64 (2^(12+9*0)-1) : Word) = pteAddrMask := by decide
  have hoff : (BitVec.ofNat 64 (2^(12+9*0)-1) : Word) = pmmPageSize-1 := by decide
  rw [hwPhys, BitVec.and_assoc, hmask, hoff]

theorem hwByte_page (e : Word) : hwByte h 0 e va = leafByte h e va := by
  rw [leafByte, ← hwPhys_page]
  rfl

end Walk

section Store
variable {h : Hhdm} {own : ℕ → Owner} {s : PmapState} {live : Set PmapPtr} {p : PmapPtr} {va : Word}

/-- In the user half of a pmap a store goes through the leaf of its page. -/
theorem PmapInv.store_leaf (hI : PmapInv h own s live) (hp : p ∈ live) (hva : UserVa va)
    {x : ℕ × Word} (hx : hwStore h s.kmem.mem (s.pmaps p).pml4Phys va = some x) :
    ∃ e, x = (0, e) ∧ pteOf h s p va = some e ∧ e &&& pteP ≠ 0 ∧ e &&& pteW ≠ 0 := by
  have hcan : Canonical va := Or.inl hva
  rw [hwStore, if_pos hcan] at hx
  obtain ⟨hwalk, hP, hW⟩ := hwStoreWalk_some hx
  have htr := hI.translation hp hva
  rw [pmapTranslation, if_pos hcan, hwalk] at htr
  obtain ⟨e, he, hxe⟩ := Option.map_eq_some_iff.mp htr.symm
  subst hxe
  exact ⟨e, rfl, he, hP, hW⟩

/-- The tables on the way to an address of the user half are tables of the pmap. -/
theorem PmapInv.table_lab (hI : PmapInv h own s live) (hp : p ∈ live) (hva : UserVa va)
    {q : List Idx} {t : Word} (hq : q <+: vaPath va)
    (ht : hwTable h s.kmem.mem (s.pmaps p).pml4Phys q = some t) : tableLab own t = some (p, q) := by
  have hF : Forest pteNext (pteAt h s.kmem.mem) lowerDom (tableLab own) := by
    intro n r q i c hn hd hc
    refine hI.forest n r q i c hn hd ?_
    unfold pteNext at hc
    split_ifs at hc
    exact hc
  obtain ⟨rest, hrest⟩ := hq
  have hpath := vaPath_path hva.lower
  rw [← hrest, path_append] at hpath
  exact hF.node_lab (hI.root p hp) hpath.1 ht

/-- Where the tables of the pmap stay, a store to the user half goes where it went. -/
theorem PmapInv.hwStore_congr (hI : PmapInv h own s live) (hp : p ∈ live) (hva : UserVa va)
    {m : Mem} (hm : ∀ x q, own (frameOf h x) = .table p q → m x = s.kmem.mem x) :
    hwStore h m (s.pmaps p).pml4Phys va = hwStore h s.kmem.mem (s.pmaps p).pml4Phys va := by
  have hcan : Canonical va := Or.inl hva
  rw [hwStore, hwStore, if_pos hcan, if_pos hcan]
  refine hwStoreWalk_congr fun q t hq ht i => ?_
  obtain ⟨ha, ho⟩ := tableLab_some.mp (hI.table_lab hp hva hq ht)
  exact pteAt_congr h s.kmem.mem m t i ha fun x hx => hm x q (hx ▸ ho)

end Store

/-- Stores to one page go through one entry. -/
theorem hwStore_page {h : Hhdm} {m : Mem} {r va vb : Word} (hva : UserVa va) (hvb : UserVa vb)
    (hpage : pageOf va = pageOf vb) : hwStore h m r va = hwStore h m r vb := by
  obtain ⟨hq, hi⟩ := (vaPath_eq_iff hvb hva).mpr hpage
  simp only [vaPath, List.cons.injEq, and_true] at hq
  rw [hwStore, hwStore, if_pos (show Canonical va from Or.inl hva),
    if_pos (show Canonical vb from Or.inl hvb), hwStoreWalk, hwStoreWalk, hq.1, hq.2.1, hq.2.2, hi]

end Dana
