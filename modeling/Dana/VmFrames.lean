import Mathlib.Data.Finset.Card
import Mathlib.Data.Finset.Union
import Dana.VmPages

/-! How many frames it takes to map a list of pages: one for each page and one for each table
that is missing. The page loops stop exactly where there are fewer. -/
namespace Dana
open ByteMem RadixTree AddrLoop

/-- The tables below the PML4 that the walk of `va` goes through. -/
def vaTables (va : Word) : Finset (List Idx) :=
  {[pml4Idx va], [pml4Idx va, pdptIdx va], [pml4Idx va, pdptIdx va, pdIdx va]}

/-- Those for the addresses `as` that are missing below the PML4 `r`. -/
def newTables (h : Hhdm) (m : Mem) (r : Word) (as : List Word) : Finset (List Idx) :=
  (as.toFinset.biUnion vaTables).filter fun q => tableAt h m r q = none

/-- The frames that it takes to map the pages `as` in `p`. -/
def framesFor (h : Hhdm) (pm : PmapState) (p : PmapPtr) (as : List Word) : ℕ :=
  as.length+(newTables h pm.kmem.mem (pm.pmaps p).pml4Phys as).card

/-- The tables below `r` are those that there were and the tables `qs`. -/
def TablesGrow (h : Hhdm) (m m' : Mem) (r : Word) (qs : Finset (List Idx)) : Prop :=
  ∀ q, Path lowerDom [] q → (tableAt h m' r q = none ↔ tableAt h m r q = none ∧ q ∉ qs)

section Grow
variable {h : Hhdm} {m m' m'' : Mem} {r va : Word} {qs qs' : Finset (List Idx)}

theorem TablesGrow.refl : TablesGrow h m m r ∅ := fun q _ => by simp

theorem TablesGrow.trans (h1 : TablesGrow h m m' r qs) (h2 : TablesGrow h m' m'' r qs') :
    TablesGrow h m m'' r (qs ∪ qs') := by
  intro q hq
  rw [h2 q hq, h1 q hq, Finset.mem_union, not_or, and_assoc]

theorem path_of_vaTables (hva : LowerHalf va) {q : List Idx} (hq : q ∈ vaTables va) :
    Path lowerDom [] q := by
  obtain ⟨h1, h2, h3, _⟩ := vaPath_path hva
  simp only [vaTables, Finset.mem_insert, Finset.mem_singleton] at hq
  rcases hq with rfl | rfl | rfl
  · exact ⟨h1, trivial⟩
  · exact ⟨h1, h2, trivial⟩
  · exact ⟨h1, h2, h3, trivial⟩

/-- The tables that are missing after the first page are those that it did not make. -/
theorem newTables_cons {a : Word} {as : List Word} (hu : ∀ b ∈ as, LowerHalf b)
    (hg : TablesGrow h m m' r (vaTables a)) :
    (newTables h m r (a :: as)).card = (newTables h m r [a]).card+(newTables h m' r as).card := by
  have hsplit : newTables h m r (a :: as) = newTables h m r [a] ∪ newTables h m' r as := by
    ext q
    simp only [newTables, List.toFinset_cons, List.toFinset_nil, Finset.biUnion_insert,
      Finset.biUnion_empty, Finset.union_empty, Finset.mem_union, Finset.mem_filter,
      Finset.mem_biUnion, List.mem_toFinset]
    constructor
    · rintro ⟨hq | ⟨b, hb, hq⟩, hnone⟩
      · exact Or.inl ⟨hq, hnone⟩
      · by_cases hqa : q ∈ vaTables a
        · exact Or.inl ⟨hqa, hnone⟩
        · exact Or.inr ⟨⟨b, hb, hq⟩, (hg q (path_of_vaTables (hu b hb) hq)).mpr ⟨hnone, hqa⟩⟩
    · rintro (⟨hq, hnone⟩ | ⟨⟨b, hb, hq⟩, hnone⟩)
      · exact ⟨Or.inl hq, hnone⟩
      · exact ⟨Or.inr ⟨b, hb, hq⟩, ((hg q (path_of_vaTables (hu b hb) hq)).mp hnone).1⟩
  rw [hsplit, Finset.card_union_of_disjoint]
  rw [Finset.disjoint_left]
  intro q hq hq'
  simp only [newTables, List.toFinset_cons, List.toFinset_nil, Finset.biUnion_insert,
    Finset.biUnion_empty, Finset.union_empty, Finset.mem_filter, Finset.mem_biUnion,
    List.mem_toFinset] at hq hq'
  obtain ⟨⟨b, hb, hqb⟩, hnone⟩ := hq'
  exact ((hg q (path_of_vaTables (hu b hb) hqb)).mp hnone).2 hq.1

/-- One for each level that has no table. -/
theorem newTables_single : (newTables h m r [va]).card =
    (if tableAt h m r [pml4Idx va] = none then 1 else 0)+
    (if tableAt h m r [pml4Idx va, pdptIdx va] = none then 1 else 0)+
    (if tableAt h m r [pml4Idx va, pdptIdx va, pdIdx va] = none then 1 else 0) := by
  simp only [newTables, List.toFinset_cons, List.toFinset_nil, Finset.biUnion_insert,
    Finset.biUnion_empty, Finset.union_empty, vaTables, Finset.filter_insert, Finset.filter_singleton]
  split_ifs <;> simp

end Grow

section Walk
variable {h : Hhdm} {own : ℕ → Owner} {s : PmapState} {live : Set PmapPtr} {p : PmapPtr}

/-- One level: where its table is missing it takes a frame. -/
theorem pmapWalkLevel_frames (hI : PmapInv h own s live) {t : Word} {q : List Idx} {i : Idx}
    (ht : tableLab own t = some (p, q)) (hd : lowerDom q i) {c : Option Word} {k : Kmem}
    (hrun : pmapWalkLevel h t i true s.kmem = (c, k)) :
    (c = none ∧ tableAt h s.kmem.mem (s.pmaps p).pml4Phys (q ++ [i]) = none ∧
      s.kmem.pmm.frames.card = 0) ∨
    (c ≠ none ∧ s.kmem.pmm.frames.card = k.pmm.frames.card+
        (if tableAt h s.kmem.mem (s.pmaps p).pml4Phys (q ++ [i]) = none then 1 else 0) ∧
      TablesGrow h s.kmem.mem k.mem (s.pmaps p).pml4Phys {q ++ [i]}) := by
  obtain ⟨hlive, hpath, hnode⟩ := hI.lab_node ht
  have hat : tableAt h s.kmem.mem (s.pmaps p).pml4Phys (q ++ [i]) =
      pteTable (pteAt h s.kmem.mem t i) := by
    rw [tableAt, node_concat, ← tableAt, hnode, Option.bind_some]
  unfold pmapWalkLevel at hrun
  by_cases hpres : pteAt h s.kmem.mem t i &&& pteP = 0
  · have hnone : pteTable (pteAt h s.kmem.mem t i) = none := if_pos hpres
    rw [if_pos hpres, if_neg (by decide)] at hrun
    obtain ⟨pa, pmm, hpa⟩ : ∃ pa pmm, pmmAllocPage s.kmem.pmm = (pa, pmm) := ⟨_, _, rfl⟩
    by_cases hnull : pa = pmmNull
    · left
      simp only [pmapAllocTable, hpa, hnull, ↓reduceIte] at hrun
      obtain ⟨rfl, _⟩ := Prod.mk.inj hrun
      refine ⟨rfl, hat.trans hnone, Pmm.frames_empty ?_⟩
      rcases pmmAllocPage_cases s.kmem.pmm hI.pageZero with ⟨hne, _⟩ | ⟨_, hfull, _⟩
      · rw [hpa] at hne
        exact absurd hnull hne
      · exact hfull
    · right
      simp only [pmapAllocTable, hpa, hnull, ↓reduceIte] at hrun
      obtain ⟨rfl, rfl⟩ := Prod.mk.inj hrun
      obtain ⟨ha, hf, _, hlt, hiff⟩ := hI.alloc hpa hnull
      have hL := linkMem_links ht hd hnone ha hf hlt
      have hroot := hI.root p hlive
      refine ⟨by simp, ?_, fun q' hq' => ?_⟩
      · rw [if_pos (hat.trans hnone)]
        refine Pmm.frames_take ((hI.free _).mpr hf) fun n => ?_
        rw [hiff, hI.free]
      · have hnew : tableAt h (linkMem h s.kmem.mem t i pa) (s.pmaps p).pml4Phys (q ++ [i]) =
            some pa := by
          rw [tableAt, node_concat, hL.node_mono hI.forest hroot hpath hnode, Option.bind_some]
          exact hL.link
        change tableAt h (linkMem h s.kmem.mem t i pa) (s.pmaps p).pml4Phys q' = none ↔ _
        rw [Finset.mem_singleton]
        constructor
        · intro hq0
          constructor
          · cases hq1 : tableAt h s.kmem.mem (s.pmaps p).pml4Phys q' with
            | none => rfl
            | some m => exact absurd (hL.node_mono hI.forest hroot hq' hq1) (by rw [← tableAt, hq0]; simp)
          · rintro rfl
            rw [hnew] at hq0
            cases hq0
        · intro hq0
          cases hq1 : tableAt h (linkMem h s.kmem.mem t i pa) (s.pmaps p).pml4Phys q' with
          | none => rfl
          | some m =>
            -- a table that is new is the one just made, which has one path
            rcases hL.node_cases hI.forest hroot hq' hq1 with hold | ⟨rfl, _⟩
            · rw [← tableAt, hq0.1] at hold
              cases hold
            · have hroot' := (hL.old _ (hL.labelled_ne hroot)).trans hroot
              have hlab := (hL.forest hI.forest).node_lab hroot' hq' hq1
              rw [hL.new] at hlab
              exact absurd (Prod.mk.inj (Option.some.inj hlab)).2.symm (by simpa using hq0.2)
  · right
    rw [if_neg hpres] at hrun
    obtain ⟨rfl, rfl⟩ := Prod.mk.inj hrun
    have hsome : pteTable (pteAt h s.kmem.mem t i) ≠ none := by
      rw [pteTable, if_neg hpres]
      simp
    refine ⟨by simp, ?_, fun q' _ => ?_⟩
    · rw [if_neg (by rwa [hat]), Nat.add_zero]
    · refine (and_iff_left_of_imp fun hq0 hq1 => ?_).symm
      rw [Finset.mem_singleton.mp hq1, hat] at hq0
      exact hsome hq0

/-- The same with the table that it comes to. -/
theorem pmapWalkLevel_grow (hI : PmapInv h own s live) {t : Word} {q : List Idx} {i : Idx}
    (ht : tableLab own t = some (p, q)) (hd : lowerDom q i) :
    (∃ k, pmapWalkLevel h t i true s.kmem = (none, k) ∧
      tableAt h s.kmem.mem (s.pmaps p).pml4Phys (q ++ [i]) = none ∧ s.kmem.pmm.frames.card = 0) ∨
    ∃ c k own', pmapWalkLevel h t i true s.kmem = (some c, k) ∧
      PmapInv h own' { s with kmem := k } live ∧ tableLab own' c = some (p, q ++ [i]) ∧
      s.kmem.pmm.frames.card = k.pmm.frames.card+
        (if tableAt h s.kmem.mem (s.pmaps p).pml4Phys (q ++ [i]) = none then 1 else 0) ∧
      TablesGrow h s.kmem.mem k.mem (s.pmaps p).pml4Phys {q ++ [i]} := by
  rcases pmapWalkLevel_create hI ht hd with ⟨he, _⟩ | ⟨c, k, own', he, hI', _, hc⟩
  · rcases pmapWalkLevel_frames hI ht hd he with ⟨_, hnone, hz⟩ | ⟨hne, _⟩
    · exact Or.inl ⟨_, he, hnone, hz⟩
    · exact absurd rfl hne
  · rcases pmapWalkLevel_frames hI ht hd he with ⟨hn, _⟩ | ⟨_, hcount, hgrow⟩
    · cases hn
    · exact Or.inr ⟨c, k, own', he, hI', hc, hcount, hgrow⟩

/-- The walk takes a frame for each level that has no table, or there are fewer. -/
theorem pmapWalk_frames (hI : PmapInv h own s live) (hp : p ∈ live) {va : Word}
    (hva : LowerHalf va) :
    (∃ k, pmapWalk h (s.pmaps p).pml4Phys va true s.kmem = (none, k) ∧ s.kmem.pmm.frames.card <
      (newTables h s.kmem.mem (s.pmaps p).pml4Phys [va]).card) ∨
    ∃ e k, pmapWalk h (s.pmaps p).pml4Phys va true s.kmem = (some e, k) ∧
      s.kmem.pmm.frames.card = k.pmm.frames.card+
        (newTables h s.kmem.mem (s.pmaps p).pml4Phys [va]).card ∧
      TablesGrow h s.kmem.mem k.mem (s.pmaps p).pml4Phys (vaTables va) := by
  obtain ⟨hd1, hd2, hd3, _⟩ := vaPath_path hva
  have hp2 : Path lowerDom [] [pml4Idx va, pdptIdx va] := ⟨hd1, hd2, trivial⟩
  have hp3 : Path lowerDom [] [pml4Idx va, pdptIdx va, pdIdx va] := ⟨hd1, hd2, hd3, trivial⟩
  rw [newTables_single]
  unfold pmapWalk
  rcases pmapWalkLevel_grow hI (hI.root p hp) hd1 with ⟨k, he, hnone, hz⟩ |
    ⟨pdpt, k1, own1, he, hI1, ht1, hn1, hg1⟩
  · rw [List.nil_append] at hnone
    refine Or.inl ⟨k, by rw [he], ?_⟩
    rw [hz, if_pos hnone]
    omega
  rw [he]
  dsimp only
  rw [List.nil_append] at hn1 hg1
  -- the second table is missing now if it was before
  have h2 : tableAt h k1.mem (s.pmaps p).pml4Phys [pml4Idx va, pdptIdx va] = none ↔
      tableAt h s.kmem.mem (s.pmaps p).pml4Phys [pml4Idx va, pdptIdx va] = none := by
    rw [hg1 _ hp2]
    simp
  rcases pmapWalkLevel_grow hI1 ht1 hd2 with ⟨k, he, hnone, hz⟩ |
    ⟨pd, k2, own2, he, hI2, ht2, hn2, hg2⟩
  · refine Or.inl ⟨k, by rw [he], ?_⟩
    rw [hn1, hz, if_pos (h2.mp hnone)]
    omega
  simp only [he]
  have hg2 := hg1.trans hg2
  have h3 : tableAt h k2.mem (s.pmaps p).pml4Phys [pml4Idx va, pdptIdx va, pdIdx va] = none ↔
      tableAt h s.kmem.mem (s.pmaps p).pml4Phys [pml4Idx va, pdptIdx va, pdIdx va] = none := by
    rw [hg2 _ hp3]
    simp
  have hn2 : k1.pmm.frames.card = k2.pmm.frames.card+
      if tableAt h s.kmem.mem (s.pmaps p).pml4Phys [pml4Idx va, pdptIdx va] = none then 1 else 0 := by
    rw [hn2]
    exact congrArg _ (if_congr h2 rfl rfl)
  rcases pmapWalkLevel_grow hI2 ht2 hd3 with ⟨k, he, hnone, hz⟩ |
    ⟨pt, k3, own3, he, hI3, ht3, hn3, hg3⟩
  · refine Or.inl ⟨k, by rw [he], ?_⟩
    rw [hn1, hn2, hz, if_pos (h3.mp hnone)]
    omega
  simp only [he]
  refine Or.inr ⟨_, k3, rfl, ?_, ?_⟩
  · have hn3 : k2.pmm.frames.card = k3.pmm.frames.card+
        if tableAt h s.kmem.mem (s.pmaps p).pml4Phys [pml4Idx va, pdptIdx va, pdIdx va] = none then 1
        else 0 := by
      rw [hn3]
      exact congrArg _ (if_congr h3 rfl rfl)
    omega
  · intro q hq
    rw [hg2.trans hg3 q hq]
    simp [vaTables]

/-- The tables depend on the entries of the tables above the last level. -/
theorem PmapInv.tableAt_congr (hI : PmapInv h own s live) (hp : p ∈ live) {m : Mem}
    (hT : ∀ t q i, tableLab own t = some (p, q) → lowerDom q i →
      pteAt h m t i = pteAt h s.kmem.mem t i) {q : List Idx} (hq : Path lowerDom [] q) :
    tableAt h m (s.pmaps p).pml4Phys q = tableAt h s.kmem.mem (s.pmaps p).pml4Phys q := by
  refine node_congr _ q fun q' i s' hs t ht => ?_
  rw [hs, path_append] at hq
  have hlab := hI.forest.node_lab (hI.root p hp) hq.1 ht
  exact congrArg pteTable (hT t _ i hlab hq.2.1)

/-- `pmap_map` takes the frames for the tables that are missing, or there are fewer. -/
theorem pmapMap_frames (hI : PmapInv h own s live) (hp : p ∈ live) {va : Word} (hva : LowerHalf va)
    (paddr flags : Word) :
    (∃ s', pmapMap h s p va paddr flags = (-1, s') ∧ s.kmem.pmm.frames.card <
      (newTables h s.kmem.mem (s.pmaps p).pml4Phys [va]).card) ∨
    ∃ s', pmapMap h s p va paddr flags = (0, s') ∧
      s.kmem.pmm.frames.card = s'.kmem.pmm.frames.card+
        (newTables h s.kmem.mem (s.pmaps p).pml4Phys [va]).card ∧
      TablesGrow h s.kmem.mem s'.kmem.mem (s.pmaps p).pml4Phys (vaTables va) := by
  unfold pmapMap
  rcases pmapWalk_frames hI hp hva with ⟨k, he, hlt⟩ | ⟨e, k, he, hn, hg⟩
  · rw [he]
    exact Or.inl ⟨_, rfl, hlt⟩
  · obtain ⟨k', own', hI', hw, hres⟩ := pmapWalk_create hI hp hva
    rcases hres with ⟨he', _⟩ | ⟨pt, he', hpt⟩
    · rw [he] at he'
      cases he'
    obtain ⟨hpe, rfl⟩ := Prod.mk.inj (he.symm.trans he')
    obtain rfl := Option.some.inj hpe
    rw [he]
    refine Or.inr ⟨_, rfl, hn, fun q hq => ?_⟩
    rw [← hg q hq]
    -- the entry written last is in the table of the last level
    have hsame := hI'.tableAt_congr hp (m := (PmapState.store { s with kmem := k }
      (pteAddr h pt (ptIdx va)) ((paddr &&& pteAddrMask) ||| (flags &&& ~~~pteAddrMask) |||
        pteP)).kmem.mem) (fun t q i ht hd => ?_) hq
    · exact Eq.congr_left hsame
    · refine (pteAt_store h k.mem pt t _ _ i (tableLab_some.mp hpt).1 (tableLab_some.mp ht).1).trans
        (if_neg ?_)
      rintro ⟨rfl, _⟩
      obtain ⟨_, rfl⟩ := Prod.mk.inj (Option.some.inj (ht.symm.trans hpt))
      exact absurd hd.1 (by simp [vaPath])

end Walk

section Pages
variable {h : Hhdm} {g : VmGhost} {s s' : VmState} {p : PmapPtr} {a start stop flags : Word}

/-- A page takes a frame and those for its tables, or there are fewer. -/
theorem vmPageIn_frames (hI : VmMemInv h g s.pm s.zoneStore s.data) (hp : p ∈ g.live)
    (hva : UserVa a) (flags : Word) :
    (∃ s', vmPageIn h s p a flags = (false, s') ∧
      s.pm.kmem.pmm.frames.card < framesFor h s.pm p [a]) ∨
    ∃ s', vmPageIn h s p a flags = (true, s') ∧
      s.pm.kmem.pmm.frames.card = s'.pm.kmem.pmm.frames.card+framesFor h s.pm p [a] ∧
      TablesGrow h s.pm.kmem.mem s'.pm.kmem.mem (s.pm.pmaps p).pml4Phys (vaTables a) := by
  obtain ⟨pa, pmm, hpa⟩ : ∃ pa pmm, pmmAllocPage s.pm.kmem.pmm = (pa, pmm) := ⟨_, _, rfl⟩
  by_cases hnull : pa = pmmNull
  · left
    simp only [vmPageIn, VmState.allocPage, hpa, hnull, ↓reduceIte]
    refine ⟨_, rfl, ?_⟩
    have hz : s.pm.kmem.pmm.frames.card = 0 := by
      refine Pmm.frames_empty ?_
      rcases pmmAllocPage_cases s.pm.kmem.pmm hI.pmap.pageZero with ⟨hne, _⟩ | ⟨_, hfull, _⟩
      · rw [hpa] at hne
        exact absurd hnull hne
      · exact hfull
    rw [hz, framesFor, List.length_singleton]
    omega
  obtain ⟨ha, hfree, hpos, hlt, hiff⟩ := hI.pmap.alloc hpa hnull
  have hcount : s.pm.kmem.pmm.frames.card = pmm.frames.card+1 := by
    refine Pmm.frames_take ((hI.pmap.free _).mpr hfree) fun n => ?_
    rw [hiff, hI.pmap.free]
  have hzero (x : Word) (hx : frameOf h x ≠ pageOf pa) :
      zeroPage h s.pm.kmem.mem pa x = s.pm.kmem.mem x := by
    rw [zeroPage_apply h _ pa x ha, if_neg hx]
  obtain ⟨hI1, _⟩ := hI.pmap.take (o := .leaf p (vaPath a) (ptIdx a)) hpa hnull (by simp)
    (by simp) (by simp) hzero
  obtain ⟨pm1, hpm1⟩ : ∃ pm1 : PmapState, pm1 =
    { s.pm with kmem := ⟨pmm, zeroPage h s.pm.kmem.mem pa⟩ } := ⟨_, rfl⟩
  rw [← hpm1] at hI1
  have htables {q : List Idx} (hq : Path lowerDom [] q) :
      tableAt h pm1.kmem.mem (s.pm.pmaps p).pml4Phys q =
        tableAt h s.pm.kmem.mem (s.pm.pmaps p).pml4Phys q := by
    refine hI.pmap.tableAt_congr hp (fun t q i ht _ => ?_) hq
    obtain ⟨hta, hto⟩ := tableLab_some.mp ht
    rw [hpm1]
    refine pteAt_congr h _ _ t i hta fun x hx => hzero x ?_
    rintro hc
    rw [← hx, hc, hfree] at hto
    cases hto
  have hnew : newTables h pm1.kmem.mem (s.pm.pmaps p).pml4Phys [a] =
      newTables h s.pm.kmem.mem (s.pm.pmaps p).pml4Phys [a] := by
    refine Finset.filter_congr fun q hq => ?_
    simp only [List.toFinset_cons, List.toFinset_nil, Finset.biUnion_insert, Finset.biUnion_empty,
      Finset.union_empty] at hq
    rw [htables (path_of_vaTables hva.lower hq)]
  have hpmaps : pm1.pmaps = s.pm.pmaps := by rw [hpm1]
  have hpmm : pm1.kmem.pmm = pmm := by rw [hpm1]
  have hrun := vmPageIn_eq (h := h) (p := p) (a := a) hpa hnull flags
  rw [← hpm1] at hrun
  rw [hrun, framesFor, List.length_singleton, hcount]
  rcases pmapMap_frames hI1 hp hva.lower pa flags with ⟨s', he, hlt⟩ | ⟨s', he, hn, hg⟩
  · left
    rw [hpmaps, hnew, hpmm] at hlt
    rw [he, if_pos (by simp)]
    exact ⟨_, rfl, by omega⟩
  · right
    rw [hpmaps, hnew, hpmm] at hn
    rw [he, if_neg (by simp)]
    refine ⟨_, rfl, ?_, fun q hq => ?_⟩
    · dsimp only
      omega
    · rw [hpmaps] at hg
      dsimp only
      rw [hg q hq, htables hq]

/-- The body of the page loops. -/
def vmPageStep (h : Hhdm) (p : PmapPtr) (flags : Word) (s : VmState) (a : Word) :
    Except (Word × VmState) VmState :=
  match vmPageIn h s p a flags with
  | (true, s) => .ok s
  | (false, s) => .error (a, s)

theorem framesFor_cons {b : Word} {as : List Word} {pm pm' : PmapState} (hu : ∀ c ∈ as, UserVa c)
    (hpm : pm'.pmaps = pm.pmaps)
    (hg : TablesGrow h pm.kmem.mem pm'.kmem.mem (pm.pmaps p).pml4Phys (vaTables b)) :
    framesFor h pm p (b :: as) = framesFor h pm p [b]+framesFor h pm' p as := by
  rw [framesFor, newTables_cons (fun c hc => (hu c hc).lower) hg, framesFor, framesFor, hpm,
    List.length_cons, List.length_singleton]
  omega

/-- The loop comes to the end if there are frames for all pages, and else to the first page
for which there are not. -/
theorem pagesIn_frames (hp : p ∈ g.live) (flags : Word) (as : List Word)
    (has : ∀ a ∈ as, UserVa a) (s : VmState) (hI : VmMemInv h g s.pm s.zoneStore s.data) :
    (∃ s', as.foldlM (vmPageStep h p flags) s = .ok s' ∧
      s.pm.kmem.pmm.frames.card = s'.pm.kmem.pmm.frames.card+framesFor h s.pm p as) ∨
    ∃ done a rest s', as = done ++ a :: rest ∧
      as.foldlM (vmPageStep h p flags) s = .error (a, s') ∧
      framesFor h s.pm p done ≤ s.pm.kmem.pmm.frames.card ∧
      s.pm.kmem.pmm.frames.card < framesFor h s.pm p (done ++ [a]) := by
  induction as generalizing s g with
  | nil => exact Or.inl ⟨s, rfl, (Nat.add_zero _).symm⟩
  | cons b as ih =>
    have hva := has b List.mem_cons_self
    have hrest (c : Word) (hc : c ∈ as) : UserVa c := has c (List.mem_cons_of_mem _ hc)
    rcases vmPageIn_frames hI hp hva flags with ⟨s1, he, hlt⟩ | ⟨s1, he, hn, hg⟩
    · refine Or.inr ⟨[], b, as, s1, rfl, ?_, Nat.zero_le _, hlt⟩
      rw [List.foldlM_cons, vmPageStep, he]
      rfl
    obtain ⟨own1, pm1, data1, hI1, hpg, ⟨he', _⟩ | ⟨pa, he', _⟩⟩ := vmPageIn_spec hI hp hva flags
    · rw [he] at he'
      cases he'
    obtain ⟨_, rfl⟩ := Prod.mk.inj (he.symm.trans he')
    have hcons {cs : List Word} (hcs : ∀ c ∈ cs, UserVa c) := framesFor_cons hcs hpg.pmaps hg
    have hfold : (b :: as).foldlM (vmPageStep h p flags) s =
        as.foldlM (vmPageStep h p flags) { s with pm := pm1, data := data1 } := by
      rw [List.foldlM_cons, vmPageStep, he]
      rfl
    rw [hfold]
    rcases ih (g := { g with own := own1 }) hp hrest { s with pm := pm1, data := data1 } hI1 with
      ⟨s', hf, hn'⟩ | ⟨done, a, rest, s', hsplit, hf, hle, hlt⟩
    · refine Or.inl ⟨s', hf, ?_⟩
      rw [hcons hrest]
      dsimp only at hn hn'
      omega
    · refine Or.inr ⟨b :: done, a, rest, s', by rw [hsplit, List.cons_append], hf, ?_, ?_⟩
      · rw [hcons fun c hc => hrest c (hsplit ▸ List.mem_append_left _ hc)]
        dsimp only at hn hle
        omega
      · rw [List.cons_append, hcons fun c hc => hrest c ?_]
        · dsimp only at hn hlt
          omega
        · rw [hsplit]
          rcases List.mem_append.mp hc with hc | hc
          · exact List.mem_append_left _ hc
          · obtain rfl := List.mem_singleton.mp hc
            exact List.mem_append_right _ List.mem_cons_self

/-- There are frames for the pages `done`, and none for the page after them. -/
def FramesEnd (h : Hhdm) (pm : PmapState) (p : PmapPtr) (done : List Word) (a : Word) : Prop :=
  framesFor h pm p done ≤ pm.kmem.pmm.frames.card ∧
    pm.kmem.pmm.frames.card < framesFor h pm p (done ++ [a])

theorem vmPagesIn_frames (hI : VmMemInv h g s.pm s.zoneStore s.data) (hp : p ∈ g.live)
    (hstop : stop.toNat ≤ 2^47) (start flags : Word) :
    (∀ s', vmPagesIn h p flags stop start s = some (.ok s') →
      s.pm.kmem.pmm.frames.card =
        s'.pm.kmem.pmm.frames.card+framesFor h s.pm p (pageAddrs start stop)) ∧
    ∀ done a rest s', pageAddrs start stop = done ++ a :: rest →
      vmPagesIn h p flags stop start s = some (.error (a, s')) → FramesEnd h s.pm p done a := by
  have hrun : vmPagesIn h p flags stop start s =
      some ((pageAddrs start stop).foldlM (vmPageStep h p flags) s) := forPages_eq hstop _ s
  rw [hrun]
  rcases pagesIn_frames hp flags (pageAddrs start stop) (fun a ha => user_of_pageAddrs hstop ha) s hI
    with ⟨s1, hf, hn⟩ | ⟨done1, b, rest1, s1, hsplit1, hf, hle, hlt⟩
  · rw [hf]
    refine ⟨fun s' hs' => ?_, fun done a rest s' _ hs' => ?_⟩
    · obtain rfl := Except.ok.inj (Option.some.inj hs')
      exact hn
    · cases hs'
  · rw [hf]
    refine ⟨fun s' hs' => ?_, fun done a rest s' hsplit hs' => ?_⟩
    · cases hs'
    · obtain ⟨rfl, rfl⟩ := Prod.mk.inj (Except.error.inj (Option.some.inj hs'))
      -- the page stands once in the list
      have hnd : (pageAddrs start stop).Nodup := List.Nodup.of_map _ (pageAddrs_nodup hstop)
      rw [hsplit1] at hnd hsplit
      have hnot (hb : b ∈ done1) : False := List.disjoint_of_nodup_append hnd hb List.mem_cons_self
      have hnot' (hb : b ∈ rest1) : False :=
        (List.nodup_cons.mp (hnd.sublist (List.sublist_append_right _ _))).1 hb
      obtain ⟨rfl, _⟩ := (List.append_cons_inj_of_notMem hnot hnot').mp hsplit
      exact ⟨hle, hlt⟩

/-- The page loop with what it tells of the frames. -/
theorem vmPagesIn_fits (hI : VmMemInv h g s.pm s.zoneStore s.data) (hp : p ∈ g.live)
    (hstop : stop.toNat ≤ 2^47) (start flags : Word) : ∃ own' pm' data',
      VmMemInv h { g with own := own' } pm' s.zoneStore data' ∧
      ((vmPagesIn h p flags stop start s = some (.ok { s with pm := pm', data := data' }) ∧
        framesFor h s.pm p (pageAddrs start stop) ≤ s.pm.kmem.pmm.frames.card ∧
        MappedIn h g.live p flags (pageAddrs start stop) g.own own' s.pm pm' s.data data') ∨
      ∃ done a rest, pageAddrs start stop = done ++ a :: rest ∧ FramesEnd h s.pm p done a ∧
        vmPagesIn h p flags stop start s =
          some (.error (a, { s with pm := pm', data := data' })) ∧
        MappedIn h g.live p flags done g.own own' s.pm pm' s.data data') := by
  obtain ⟨own', pm', data', hI', hres⟩ := vmPagesIn_spec hI hp hstop start flags
  obtain ⟨hok, herr⟩ := vmPagesIn_frames hI hp hstop start flags
  refine ⟨own', pm', data', hI', ?_⟩
  rcases hres with ⟨hrun, hin⟩ | ⟨done, a, rest, hsplit, hrun, hin⟩
  · have hn := hok _ hrun
    exact Or.inl ⟨hrun, by omega, hin⟩
  · exact Or.inr ⟨done, a, rest, hsplit, herr _ _ _ _ hsplit hrun, hrun, hin⟩

end Pages

end Dana
