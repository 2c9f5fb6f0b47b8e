import Dana.PmapInv

/-! What `pmap_walk` does: it follows the radix tree of the pmap, and when it creates
tables it takes free frames for them and changes no translation. -/
namespace Dana
open ByteMem RadixTree

/-- How operations on `p` can have changed the memory and its owners. -/
structure Touched (h : Hhdm) (own own' : ℕ → Owner) (p : PmapPtr) (k k' : Kmem) : Prop where
  new : ∀ n, own' n = own n ∨ own n = .free ∧ ∃ q, own' n = .table p q
  mem : ∀ x, own (frameOf h x) ≠ .free → (∀ q, own (frameOf h x) ≠ .table p q) →
    k'.mem x = k.mem x
  upper : ∀ r p', tableLab own r = some (p', []) → ∀ i : Idx, 256 ≤ i.toNat →
    pteAt h k'.mem r i = pteAt h k.mem r i

/-- What a walk that may create tables for `p` can have done: it changes no translation. -/
structure Walked (h : Hhdm) (own own' : ℕ → Owner) (p : PmapPtr) (k k' : Kmem) : Prop
    extends Touched h own own' p k k' where
  entry : ∀ r p' q i, tableLab own r = some (p', []) → Path lowerDom [] q → ¬ lowerDom q i →
    entryAt h k'.mem r q i = entryAt h k.mem r q i

section Walked
variable {h : Hhdm} {own own' own'' : ℕ → Owner} {p : PmapPtr} {k k' k'' : Kmem}

theorem Touched.refl : Touched h own own p k k :=
  ⟨fun _ => Or.inl rfl, fun _ _ _ => rfl, fun _ _ _ _ _ => rfl⟩

theorem Touched.old (hw : Touched h own own' p k k') {n : ℕ} (hn : own n ≠ .free) :
    own' n = own n := by
  rcases hw.new n with h1 | ⟨h1, _⟩
  · exact h1
  · exact absurd h1 hn

theorem Touched.lab (hw : Touched h own own' p k k') {t : Word} {l : PmapPtr × List Idx}
    (ht : tableLab own t = some l) : tableLab own' t = some l := by
  obtain ⟨p', q⟩ := l
  rw [tableLab_some] at ht ⊢
  refine ⟨ht.1, ?_⟩
  rw [hw.old (by rw [ht.2]; simp), ht.2]

theorem Touched.trans (hw : Touched h own own' p k k') (hw' : Touched h own' own'' p k' k'') :
    Touched h own own'' p k k'' := by
  refine ⟨fun n => ?_, fun x hf ht => ?_, fun r p' hr i hi => ?_⟩
  · rcases hw.new n with h1 | ⟨h1, q, h2⟩
    · rcases hw'.new n with h3 | ⟨h3, q', h4⟩
      · exact Or.inl (h3.trans h1)
      · exact Or.inr ⟨h1 ▸ h3, q', h4⟩
    · exact Or.inr ⟨h1, q, by rw [hw'.old (by rw [h2]; simp), h2]⟩
  · have ho := hw.old hf
    rw [hw'.mem x (by rwa [ho]) (by simpa only [ho] using ht), hw.mem x hf ht]
  · rw [hw'.upper r p' (hw.lab hr) i hi, hw.upper r p' hr i hi]

theorem Walked.refl : Walked h own own p k k := ⟨Touched.refl, fun _ _ _ _ _ _ _ => rfl⟩

theorem Walked.trans (hw : Walked h own own' p k k') (hw' : Walked h own' own'' p k' k'') :
    Walked h own own'' p k k'' := by
  refine ⟨hw.toTouched.trans hw'.toTouched, fun r p' q i hr hq hi => ?_⟩
  rw [hw'.entry r p' q i (hw.lab hr) hq hi, hw.entry r p' q i hr hq hi]

end Walked

section Inv
variable {h : Hhdm} {own own' : ℕ → Owner} {s : PmapState} {live : Set PmapPtr}

section Kernel
variable {m m' : Mem} {pmaps : PmapPtr → Pmap}

theorem KernelHalf.root_pte (hk : KernelHalf h own m pmaps live)
    (hm : ∀ x, own (frameOf h x) = .kernel → m' x = m x) (i : Idx) :
    pteAt h m' (pmaps .kernel).pml4Phys i = pteAt h m (pmaps .kernel).pml4Phys i :=
  pteAt_congr h m m' _ i hk.aligned fun x hx => hm x (by rw [hx]; exact hk.root)

theorem KernelHalf.congr (hk : KernelHalf h own m pmaps live)
    (ho : ∀ n, own n = .kernel → own' n = .kernel)
    (hm : ∀ x, own (frameOf h x) = .kernel → m' x = m x)
    (hu : ∀ p ∈ live, ∀ i : Idx, 256 ≤ i.toNat →
      pteAt h m' (pmaps p).pml4Phys i = pteAt h m (pmaps p).pml4Phys i) :
    KernelHalf h own' m' pmaps live := by
  refine ⟨hk.aligned, ho _ hk.root, fun p hp i hi => ?_⟩
  rw [hu p hp i hi, hk.root_pte hm, hk.copied p hp i hi]

end Kernel

theorem PmapInv.lab_node (hI : PmapInv h own s live) {t : Word} {p : PmapPtr} {q : List Idx}
    (ht : tableLab own t = some (p, q)) : p ∈ live ∧ Path lowerDom [] q ∧
      tableAt h s.kmem.mem (s.pmaps p).pml4Phys q = some t := by
  obtain ⟨ha, ho⟩ := tableLab_some.mp ht
  obtain ⟨_, _, hp, hq, t', ha', hpage, hn⟩ := hI.table _ p q ho
  obtain rfl := eq_of_pageOf ha' ha hpage
  exact ⟨hp, hq, hn⟩

/-- A page that the PMM hands out is a page-aligned address of a free frame. -/
theorem PmapInv.alloc (hI : PmapInv h own s live) {pa : Word} {pmm : Pmm}
    (hp : pmmAllocPage s.kmem.pmm = (pa, pmm)) (hpa : pa ≠ pmmNull) :
    PageAligned pa ∧ own (pageOf pa) = .free ∧ 0 < pageOf pa ∧ pageOf pa < pmmMaxPages ∧
      ∀ n, pmm.Free n ↔ own n = .free ∧ n ≠ pageOf pa := by
  obtain ⟨ha, hf, hiff⟩ := pmmAllocPage_some hI.pageZero hp hpa
  refine ⟨ha, (hI.free _).mp hf, ?_, hf.1, fun n => by rw [hiff, hI.free]⟩
  rcases Nat.eq_zero_or_pos (pageOf pa) with hz | hz
  · exact absurd (hz ▸ hf) hI.pageZero
  · exact hz

theorem toNat_lt_of_page {pa : Word} (hp : pageOf pa < pmmMaxPages) : pa.toNat < 2^32 := by
  rw [pageOf_eq] at hp
  have : pmmMaxPages = 2^20 := rfl
  omega

/-- The memory after a new table `pa` is linked at entry `i` of `t`. -/
def linkMem (h : Hhdm) (m : Mem) (t : Word) (i : Idx) (pa : Word) : Mem :=
  store64 (zeroPage h m pa) (pteAddr h t i) (pa ||| pteP ||| pteW ||| pteU)

theorem pteAt_linkMem (m : Mem) (t t' pa : Word) (i i' : Idx) (ht : PageAligned t)
    (ht' : PageAligned t') (hpa : PageAligned pa) :
    pteAt h (linkMem h m t i pa) t' i' =
      if t' = t ∧ i' = i then pa ||| pteP ||| pteW ||| pteU
      else if t' = pa then 0 else pteAt h m t' i' := by
  rw [linkMem, pteAt_store h _ t t' _ i i' ht ht', pteAt_zeroPage h m pa t' i' hpa ht']

theorem linkMem_other (m : Mem) (t pa x : Word) (i : Idx) (ht : PageAligned t)
    (hpa : PageAligned pa) (hxt : frameOf h x ≠ pageOf t) (hxp : frameOf h x ≠ pageOf pa) :
    linkMem h m t i pa x = m x := by
  rw [linkMem, store_pte_other h _ t _ x i ht hxt, zeroPage_apply h m pa x hpa, if_neg hxp]

/-- Seen as a radix tree, the memory has one more, empty table. -/
theorem linkMem_links {m : Mem} {t pa : Word} {p : PmapPtr} {q : List Idx} {i : Idx}
    (ht : tableLab own t = some (p, q)) (hd : lowerDom q i)
    (he : pteTable (pteAt h m t i) = none) (ha : PageAligned pa)
    (hf : own (pageOf pa) = .free) (hlt : pageOf pa < pmmMaxPages) :
    Links pteTable ptePresent (pteAt h m) (pteAt h (linkMem h m t i pa)) lowerDom
      (tableLab own) (tableLab (Function.update own (pageOf pa) (.table p (q ++ [i])))) t i pa p q := by
  obtain ⟨hta, hto⟩ := tableLab_some.mp ht
  have hne : pa ≠ t := by
    rintro rfl
    rw [hf] at hto
    cases hto
  have hpa (j : Idx) : pteAt h (linkMem h m t i pa) pa j = 0 := by
    rw [pteAt_linkMem _ t pa pa i j hta ha ha, if_neg (fun hc => hne hc.1), if_pos rfl]
  refine ⟨ht, hd, he, ?_, ?_, fun n j hn hc => ?_, fun j => ?_, fun j => ?_, ?_, fun n hn => ?_⟩
  · have hnone : ∀ l, tableLab own pa ≠ some l := by
      rintro ⟨p', q'⟩ hl
      rw [tableLab_some, hf] at hl
      cases hl.2
    exact Option.eq_none_iff_forall_ne_some.mpr hnone
  · rw [pteAt_linkMem _ t t pa i i hta hta ha, if_pos ⟨rfl, rfl⟩]
    exact pteTable_new pa ha ((toNat_lt_of_page hlt).trans (by decide))
  · obtain ⟨⟨p', q'⟩, hl⟩ := Option.ne_none_iff_exists'.mp hn
    obtain ⟨hna, hno⟩ := tableLab_some.mp hl
    rw [pteAt_linkMem _ t n pa i j hta hna ha, if_neg hc, if_neg]
    rintro rfl
    rw [hf] at hno
    cases hno
  · rw [hpa, pteTable_zero]
  · rw [hpa, ptePresent_zero]
  · rw [tableLab_some]
    exact ⟨ha, Function.update_self ..⟩
  · refine tableLab_congr fun hna => Function.update_of_ne ?_ _ _
    exact fun hc => hn (eq_of_pageOf hna ha hc)

/-- Linking a free frame as a table keeps the invariant and every translation. -/
theorem PmapInv.link (hI : PmapInv h own s live) {t pa : Word} {p : PmapPtr} {q : List Idx}
    {i : Idx} {pmm : Pmm} (ht : tableLab own t = some (p, q)) (hd : lowerDom q i)
    (he : pteTable (pteAt h s.kmem.mem t i) = none)
    (hp : pmmAllocPage s.kmem.pmm = (pa, pmm)) (hpa : pa ≠ pmmNull) :
    ∃ own', PmapInv h own' { s with kmem := ⟨pmm, linkMem h s.kmem.mem t i pa⟩ } live ∧
      Walked h own own' p s.kmem ⟨pmm, linkMem h s.kmem.mem t i pa⟩ ∧
      tableLab own' pa = some (p, q ++ [i]) := by
  obtain ⟨ha, hf, hpos, hlt, hfree⟩ := hI.alloc hp hpa
  obtain ⟨hta, hto⟩ := tableLab_some.mp ht
  obtain ⟨hlive, hpath, hnode⟩ := hI.lab_node ht
  have hL := linkMem_links ht hd he ha hf hlt
  obtain ⟨own', hown⟩ : ∃ own', own' = Function.update own (pageOf pa) (.table p (q ++ [i])) :=
    ⟨_, rfl⟩
  rw [← hown] at hL
  have hold (n : ℕ) (hn : n ≠ pageOf pa) : own' n = own n := by
    rw [hown, Function.update_of_ne hn]
  have hnew : own' (pageOf pa) = .table p (q ++ [i]) := by rw [hown, Function.update_self]
  have hne (n : ℕ) (hn : own n ≠ .free) : n ≠ pageOf pa := by
    rintro rfl
    exact hn hf
  have hmem (x : Word) (h1 : own (frameOf h x) ≠ .free) (h2 : ∀ q, own (frameOf h x) ≠ .table p q) :
      linkMem h s.kmem.mem t i pa x = s.kmem.mem x :=
    linkMem_other _ t pa x i hta ha (fun hc => h2 q (hc ▸ hto)) (hne _ h1)
  have hupper (r : Word) (p' : PmapPtr) (hr : tableLab own r = some (p', [])) (j : Idx)
      (hj : 256 ≤ j.toNat) : pteAt h (linkMem h s.kmem.mem t i pa) r j = pteAt h s.kmem.mem r j := by
    refine hL.other r j (by simp [hr]) ?_
    rintro ⟨rfl, rfl⟩
    obtain ⟨_, rfl⟩ := Prod.mk.inj (Option.some.inj (hr.symm.trans ht))
    have := hd.2 rfl
    omega
  have hcell (t' : Word) (j : Idx) (ht' : PageAligned t') :=
    pteAt_linkMem (h := h) s.kmem.mem t t' pa i j hta ht' ha
  refine ⟨own', ⟨?_, fun n => ?_, hL.forest hI.forest, fun t' p' q' j ht' hj => ?_, fun p' hp' => ?_,
    fun p' hp' => ?_, fun n p' q' hn => ?_, fun n p' hn => ?_, ?_⟩, ⟨⟨fun n => ?_, hmem, hupper⟩, ?_⟩,
    hL.new⟩
  · exact fun h0 => hI.pageZero ((hI.free 0).mpr ((hfree 0).mp h0).1)
  · rw [hfree]
    by_cases hn : n = pageOf pa
    · rw [hn, hnew]
      simp
    · rw [hold n hn]
      simp [hn]
  · rw [hcell t' j (tableLab_some.mp ht').1]
    split_ifs with h1 h2
    · exact ptePS_new pa ha
    · rfl
    · rw [hL.old t' h2] at ht'
      exact hI.small t' p' q' j ht' hj
  · have hr := hI.root p' hp'
    rw [hL.old _ (hL.labelled_ne hr)]
    exact hr
  · obtain ⟨pd, h1, h2, h3⟩ := hI.desc p' hp'
    exact ⟨pd, h1, h2, by rw [hold _ (hne _ (by rw [h3]; simp)), h3]⟩
  · by_cases hnp : n = pageOf pa
    · rw [hnp, hnew] at hn
      obtain ⟨rfl, rfl⟩ := Owner.table.inj hn
      refine ⟨hnp ▸ hpos, hnp ▸ hlt, hlive, (path_append _ _ _).mpr ⟨hpath, hd, trivial⟩, pa, ha,
        hnp.symm, ?_⟩
      rw [tableAt, node_concat, hL.node_mono hI.forest (hI.root p hlive) hpath hnode,
        Option.bind_some]
      exact hL.link
    · rw [hold n hnp] at hn
      obtain ⟨h1, h2, h3, h4, t', h5, h6, h7⟩ := hI.table n p' q' hn
      exact ⟨h1, h2, h3, h4, t', h5, h6, hL.node_mono hI.forest (hI.root p' h3) h4 h7⟩
  · refine hI.descPage n p' ?_
    rw [← hn, hold]
    rintro rfl
    rw [hnew] at hn
    cases hn
  · refine hI.kernel.congr (fun n hn => ?_) (fun x hx => ?_) fun p' hp' j hj => ?_
    · rw [hold n (hne n (by rw [hn]; simp)), hn]
    · exact hmem x (by rw [hx]; simp) (by rw [hx]; simp)
    · exact hupper _ p' (hI.root p' hp') j hj
  · by_cases hn : n = pageOf pa
    · exact Or.inr ⟨hn ▸ hf, q ++ [i], hn ▸ hnew⟩
    · exact Or.inl (hold n hn)
  · exact fun r p' q' j hr hq hj => hL.leaf_eq hI.forest hr hq hj

/-- One level of a walk that creates tables: it finds or makes the table, or there is no
free frame left. -/
theorem pmapWalkLevel_create (hI : PmapInv h own s live) {t : Word} {p : PmapPtr}
    {q : List Idx} {i : Idx} (ht : tableLab own t = some (p, q)) (hd : lowerDom q i) :
    (pmapWalkLevel h t i true s.kmem = (none, s.kmem) ∧ ∀ n, ¬ s.kmem.pmm.Free n) ∨
    ∃ c k' own', pmapWalkLevel h t i true s.kmem = (some c, k') ∧
      PmapInv h own' { s with kmem := k' } live ∧ Walked h own own' p s.kmem k' ∧
      tableLab own' c = some (p, q ++ [i]) := by
  unfold pmapWalkLevel
  by_cases hpres : pteAt h s.kmem.mem t i &&& pteP = 0
  · have hnone : pteTable (pteAt h s.kmem.mem t i) = none := if_pos hpres
    rw [if_pos hpres, if_neg (by decide)]
    obtain ⟨pa, pmm, hpa⟩ : ∃ pa pmm, pmmAllocPage s.kmem.pmm = (pa, pmm) := ⟨_, _, rfl⟩
    by_cases hnull : pa = pmmNull
    · left
      have hfull : ∀ n, ¬ s.kmem.pmm.Free n := by
        rcases pmmAllocPage_cases s.kmem.pmm hI.pageZero with ⟨hne, _⟩ | ⟨_, hfull, _⟩
        · rw [hpa] at hne
          exact absurd hnull hne
        · exact hfull
      have hpmm := pmmAllocPage_none hI.pageZero (hnull ▸ hpa)
      simp only [pmapAllocTable, hpa, hnull, ↓reduceIte, hpmm]
      exact ⟨trivial, hfull⟩
    · right
      obtain ⟨own', hI', hw, hc⟩ := hI.link ht hd hnone hpa hnull
      simp only [pmapAllocTable, hpa, hnull, ↓reduceIte]
      refine ⟨_, _, own', rfl, hI', hw, ?_⟩
      -- the entry just written points to the new table
      obtain ⟨ha, hf, _, hlt, _⟩ := hI.alloc hpa hnull
      have hlink := (linkMem_links ht hd hnone ha hf hlt).link
      unfold pteTable at hlink
      split_ifs at hlink
      change tableLab own' (pteAt h (linkMem h s.kmem.mem t i pa) t i &&& pteAddrMask) = _
      rw [Option.some.inj hlink]
      exact hc
  · right
    rw [if_neg hpres]
    refine ⟨_, _, own, rfl, hI, Walked.refl, ?_⟩
    exact hI.forest t p q i _ ht hd (if_neg hpres)

/-- The path of a virtual address: which tables its walk goes through. -/
def vaPath (va : Word) : List Idx := [pml4Idx va, pdptIdx va, pdIdx va]

/-- A virtual address whose walk starts in the lower half of the PML4. -/
def LowerHalf (va : Word) : Prop := (pml4Idx va).toNat < 256

theorem vaPath_path {va : Word} (hva : LowerHalf va) : Path lowerDom [] (vaPath va) := by
  refine ⟨⟨by simp, fun _ => hva⟩, ⟨by simp, by simp⟩, ⟨by simp, by simp⟩, trivial⟩

theorem vaPath_leaf (va : Word) : ¬ lowerDom (vaPath va) (ptIdx va) := fun h => by
  simp [vaPath, lowerDom] at h

/-- A walk that creates tables ends at an entry of the PT of its address, or there is no
free frame left; either way every translation is what it was. -/
theorem pmapWalk_create (hI : PmapInv h own s live) {p : PmapPtr} (hp : p ∈ live) {va : Word}
    (hva : LowerHalf va) : ∃ k' own', PmapInv h own' { s with kmem := k' } live ∧
      Walked h own own' p s.kmem k' ∧
      ((pmapWalk h (s.pmaps p).pml4Phys va true s.kmem = (none, k') ∧ ∀ n, ¬ k'.pmm.Free n) ∨
      ∃ pt, pmapWalk h (s.pmaps p).pml4Phys va true s.kmem =
          (some (pteAddr h pt (ptIdx va)), k') ∧ tableLab own' pt = some (p, vaPath va)) := by
  obtain ⟨hd1, hd2, hd3, _⟩ := vaPath_path hva
  unfold pmapWalk
  rcases pmapWalkLevel_create hI (hI.root p hp) hd1 with ⟨he, hfull⟩ |
    ⟨pdpt, k1, own1, he, hI1, hw1, ht1⟩
  · exact ⟨s.kmem, own, hI, Walked.refl, Or.inl ⟨by rw [he], hfull⟩⟩
  rw [he]
  rcases pmapWalkLevel_create hI1 ht1 hd2 with ⟨he, hfull⟩ | ⟨pd, k2, own2, he, hI2, hw2, ht2⟩
  · exact ⟨k1, own1, hI1, hw1, Or.inl ⟨by simp only [he], hfull⟩⟩
  simp only [he]
  rcases pmapWalkLevel_create hI2 ht2 hd3 with ⟨he, hfull⟩ | ⟨pt, k3, own3, he, hI3, hw3, ht3⟩
  · exact ⟨k2, own2, hI2, hw1.trans hw2, Or.inl ⟨by simp only [he], hfull⟩⟩
  simp only [he]
  exact ⟨k3, own3, hI3, (hw1.trans hw2).trans hw3, Or.inr ⟨pt, rfl, ht3⟩⟩

theorem pmapWalkLevel_lookup (t : Word) (i : Idx) (k : Kmem) :
    pmapWalkLevel h t i false k = (pteTable (pteAt h k.mem t i), k) := by
  unfold pmapWalkLevel pteTable
  split_ifs with h1 h2
  · rfl
  · exact absurd rfl h2
  · rfl

/-- A walk that creates nothing reads the tables. -/
theorem pmapWalk_lookup (pml4 va : Word) (k : Kmem) : pmapWalk h pml4 va false k =
    ((tableAt h k.mem pml4 (vaPath va)).map fun pt => pteAddr h pt (ptIdx va), k) := by
  unfold pmapWalk
  simp only [pmapWalkLevel_lookup, tableAt, vaPath, node_cons]
  cases pteTable (pteAt h k.mem pml4 (pml4Idx va)) with
  | none => rfl
  | some pdpt =>
    simp only [Option.bind_some]
    cases pteTable (pteAt h k.mem pdpt (pdptIdx va)) with
    | none => rfl
    | some pd =>
      simp only [Option.bind_some]
      cases pteTable (pteAt h k.mem pd (pdIdx va)) <;> rfl

end Inv

end Dana
