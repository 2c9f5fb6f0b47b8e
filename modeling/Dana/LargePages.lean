import Dana.HwStore

/-! Large pages. `pmap_walk` takes every present entry for a table, also one with PS set: on an
address that a large page maps it reads the memory of the page as entries, and `pmap_map` writes
there. -/
namespace Dana
open ByteMem RadixTree

/-- The translation of the bits 0 to 47 of `va`, 0 when it is not present. -/
def hwQuery (h : Hhdm) (m : Mem) (pml4 va : Word) : Word :=
  ((hwWalk h m pml4 va).map fun x => hwPhys x.1 x.2 va).getD 0

/-- A large page maps `va`. -/
def MapsLarge (h : Hhdm) (m : Mem) (pml4 va : Word) : Prop :=
  ∃ k e, hwWalk h m pml4 va = some (k+1, e)

/-- The frame has a table of the tree below the PML4. -/
def TableFrame (h : Hhdm) (m : Mem) (pml4 : Word) (n : ℕ) : Prop :=
  ∃ q t, q.length ≤ 3 ∧ hwTable h m pml4 q = some t ∧ pageOf t = n

/-- The tables are in page frames that the PMM does not hand out. -/
structure TreeFrames (h : Hhdm) (k : Kmem) (pml4 : Word) : Prop where
  aligned : PageAligned pml4
  pageZero : ¬ k.pmm.Free 0
  used : ∀ n, TableFrame h k.mem pml4 n → ¬ k.pmm.Free n

/-- A tree whose PDPT and PD entries may map large pages; an entry of the PML4 cannot. -/
structure PageTree (h : Hhdm) (s : PmapState) (p : PmapPtr) : Prop where
  frames : TreeFrames h s.kmem (s.pmaps p).pml4Phys
  top : ∀ i, pteAt h s.kmem.mem (s.pmaps p).pml4Phys i &&& ptePS = 0

/-- What the operations on `va` owe: the query gives the translation, and nothing is written
outside the tables, those included that `pmap_walk` has just made. -/
structure LargePagesOk (h : Hhdm) (s : PmapState) (p : PmapPtr) (va : Word) : Prop where
  query : pmapQuery h s p va = hwQuery h s.kmem.mem (s.pmaps p).pml4Phys va
  map : ∀ paddr flags x, ¬ TableFrame h (pmapWalk h (s.pmaps p).pml4Phys va true s.kmem).2.mem
      (s.pmaps p).pml4Phys (frameOf h x) →
    (pmapMap h s p va paddr flags).2.kmem.mem x = s.kmem.mem x
  unmap : ∀ x, ¬ TableFrame h s.kmem.mem (s.pmaps p).pml4Phys (frameOf h x) →
    (pmapUnmap h s p va).2.kmem.mem x = s.kmem.mem x
  protect : ∀ flags x, ¬ TableFrame h s.kmem.mem (s.pmaps p).pml4Phys (frameOf h x) →
    (pmapProtect h s p va flags).2.kmem.mem x = s.kmem.mem x

/-- The memories have the same tables: what lies in the other frames may differ. -/
def SameTree (h : Hhdm) (pml4 : Word) (m m' : Mem) : Prop :=
  ∀ x, TableFrame h m pml4 (frameOf h x) → m' x = m x

section Tree
variable {h : Hhdm} {m m' : Mem} {k k' k'' : Kmem} {r t pa va : Word} {i : Idx} {q : List Idx}

theorem pteNext_small {e : Word} (hs : e &&& pteP ≠ 0 → e &&& ptePS = 0) :
    pteNext e = pteTable e := by
  unfold pteNext pteTable
  split_ifs with h1 h2
  · rfl
  · rfl
  · rfl
  · exact absurd (hs ‹_›) h1

theorem SameTree.pte (hs : SameTree h r m m') (hr : PageAligned r) (hq : q.length ≤ 3)
    (ht : hwTable h m r q = some t) (i : Idx) : pteAt h m' t i = pteAt h m t i :=
  pteAt_congr h m m' t i (hwTable_aligned hr ht) fun x hx => hs x ⟨q, t, hq, ht, hx.symm⟩

theorem SameTree.table (hs : SameTree h r m m') (hr : PageAligned r) (hq : q.length ≤ 3) :
    hwTable h m' r q = hwTable h m r q := by
  refine node_congr r q fun q' i s hq' t ht => ?_
  have hlen : q'.length ≤ 3 := by
    rw [hq', List.length_append] at hq
    omega
  rw [hs.pte hr hlen ht]

theorem SameTree.frame (hs : SameTree h r m m') (hr : PageAligned r) (n : ℕ) :
    TableFrame h m' r n ↔ TableFrame h m r n := by
  constructor
  · rintro ⟨q, t, hq, ht, hn⟩
    exact ⟨q, t, hq, hs.table hr hq ▸ ht, hn⟩
  · rintro ⟨q, t, hq, ht, hn⟩
    exact ⟨q, t, hq, (hs.table hr hq).trans ht, hn⟩

theorem SameTree.walk (hs : SameTree h r m m') (hr : PageAligned r) (va : Word) :
    hwWalk h m' r va = hwWalk h m r va :=
  hwWalk_congr (hs.pte (q := []) hr (by simp) rfl _) fun q _ _ hpre ht i =>
    hs.pte hr hpre.length_le ht i

/-- A new table below an entry that was not present: nothing else of the tree changes. -/
theorem hwTable_linkMem (hr : PageAligned r) (ht : hwTable h m r q = some t) (hq : q.length < 3)
    (he : pteAt h m t i &&& pteP = 0) (ha : PageAligned pa) (hlt : pa.toNat < 2^52)
    (hnew : ¬ TableFrame h m r (pageOf pa)) :
    hwTable h (linkMem h m t i pa) r (q ++ [i]) = some pa ∧
    (∀ q' t', q'.length ≤ 3 → hwTable h m r q' = some t' →
      hwTable h (linkMem h m t i pa) r q' = some t') ∧
    ∀ q' t', q'.length ≤ 3 → hwTable h (linkMem h m t i pa) r q' = some t' →
      hwTable h m r q' = some t' ∨ t' = pa := by
  have hta := hwTable_aligned hr ht
  have hcell (t' : Word) (j : Idx) (ht' : PageAligned t') :=
    pteAt_linkMem (h := h) m t t' pa i j hta ht' ha
  have hne {q' : List Idx} {t' : Word} (hq' : q'.length ≤ 3) (ht' : hwTable h m r q' = some t') :
      t' ≠ pa := by
    rintro rfl
    exact hnew ⟨q', t', hq', ht', rfl⟩
  have hnone : pteNext (pteAt h m t i) = none := by
    rw [pteNext_small fun hp => absurd he hp]
    exact if_pos he
  have hzero : pteNext 0 = none := by decide
  have hold (q' : List Idx) (t' : Word) (hq' : q'.length ≤ 3) (ht' : hwTable h m r q' = some t') :
      hwTable h (linkMem h m t i pa) r q' = some t' := by
    induction q' using List.reverseRecOn generalizing t' with
    | nil =>
      rw [hwTable, node_nil] at ht' ⊢
      exact ht'
    | append_singleton q' j ih =>
      rw [List.length_append, List.length_singleton] at hq'
      rw [hwTable_concat, Option.bind_eq_some_iff] at ht' ⊢
      obtain ⟨t1, ht1, hnext⟩ := ht'
      refine ⟨t1, ih t1 (by omega) ht1, ?_⟩
      rw [hcell t1 j (hwTable_aligned hr ht1), if_neg, if_neg (hne (by omega) ht1)]
      · exact hnext
      · rintro ⟨rfl, rfl⟩
        rw [hnone] at hnext
        cases hnext
  refine ⟨?_, hold, fun q' t' hq' ht' => ?_⟩
  · rw [hwTable_concat, hold q t hq.le ht, Option.bind_some, hcell t i hta, if_pos ⟨rfl, rfl⟩,
      pteNext, if_pos (ptePS_new pa ha)]
    exact pteTable_new pa ha hlt
  · induction q' using List.reverseRecOn generalizing t' with
    | nil =>
      rw [hwTable, node_nil] at ht' ⊢
      exact Or.inl ht'
    | append_singleton q' j ih =>
      rw [List.length_append, List.length_singleton] at hq'
      rw [hwTable_concat, Option.bind_eq_some_iff] at ht'
      obtain ⟨t1, ht1, hnext⟩ := ht'
      rw [hcell t1 j (hwTable_aligned hr ht1)] at hnext
      split_ifs at hnext with h1 h2
      · rw [pteNext, if_pos (ptePS_new pa ha), pteTable_new pa ha hlt] at hnext
        exact Or.inr (Option.some.inj hnext).symm
      · rw [hzero] at hnext
        cases hnext
      · rcases ih t1 (by omega) ht1 with hm | rfl
        · refine Or.inl ?_
          rw [hwTable_concat, hm]
          exact hnext
        · exact absurd rfl h2

/-- How a walk that may make tables has changed the memory. -/
structure TreeGrown (h : Hhdm) (r : Word) (k k' : Kmem) : Prop where
  frames : TreeFrames h k' r
  tables : ∀ n, TableFrame h k.mem r n → TableFrame h k'.mem r n
  other : ∀ x, ¬ TableFrame h k'.mem r (frameOf h x) → k'.mem x = k.mem x

theorem TreeGrown.refl (hf : TreeFrames h k r) : TreeGrown h r k k :=
  ⟨hf, fun _ hn => hn, fun _ _ => rfl⟩

theorem TreeGrown.trans (h1 : TreeGrown h r k k') (h2 : TreeGrown h r k' k'') :
    TreeGrown h r k k'' := by
  refine ⟨h2.frames, fun n hn => h2.tables n (h1.tables n hn), fun x hx => ?_⟩
  rw [h2.other x hx, h1.other x fun hn => hx (h2.tables _ hn)]

/-- One level of a walk that creates tables, at an entry that maps no large page. -/
theorem pmapWalkLevel_grown (hf : TreeFrames h k r) (ht : hwTable h k.mem r q = some t)
    (hq : q.length < 3) (hs : pteAt h k.mem t i &&& pteP ≠ 0 → pteAt h k.mem t i &&& ptePS = 0) :
    pmapWalkLevel h t i true k = (none, k) ∨
    ∃ c k', pmapWalkLevel h t i true k = (some c, k') ∧ TreeGrown h r k k' ∧
      hwTable h k'.mem r (q ++ [i]) = some c ∧ (k' = k ∨ ∀ j, pteAt h k'.mem c j = 0) := by
  unfold pmapWalkLevel
  by_cases hpres : pteAt h k.mem t i &&& pteP = 0
  · rw [if_pos hpres, if_neg (by decide)]
    obtain ⟨pa, pmm, hpa⟩ : ∃ pa pmm, pmmAllocPage k.pmm = (pa, pmm) := ⟨_, _, rfl⟩
    by_cases hnull : pa = pmmNull
    · have hpmm := pmmAllocPage_none hf.pageZero (hnull ▸ hpa)
      simp only [pmapAllocTable, hpa, hnull, ↓reduceIte, hpmm]
      exact Or.inl trivial
    · obtain ⟨ha, hfree, hiff⟩ := pmmAllocPage_some hf.pageZero hpa hnull
      have hlt : pa.toNat < 2^52 := (toNat_lt_of_page hfree.1).trans (by decide)
      have hnew : ¬ TableFrame h k.mem r (pageOf pa) := fun hn => hf.used _ hn hfree
      have hta := hwTable_aligned hf.aligned ht
      obtain ⟨hlink, hold, hcases⟩ := hwTable_linkMem hf.aligned ht hq hpres ha hlt hnew
      have hpaF : TableFrame h (linkMem h k.mem t i pa) r (pageOf pa) :=
        ⟨q ++ [i], pa, by rw [List.length_append, List.length_singleton]; omega, hlink, rfl⟩
      have hkeep (n : ℕ) (hn : TableFrame h k.mem r n) :
          TableFrame h (linkMem h k.mem t i pa) r n := by
        obtain ⟨q', t', hq', ht', hn⟩ := hn
        exact ⟨q', t', hq', hold q' t' hq' ht', hn⟩
      have hval : pteAt h (linkMem h k.mem t i pa) t i &&& pteAddrMask = pa := by
        rw [pteAt_linkMem k.mem t t pa i i hta hta ha, if_pos ⟨rfl, rfl⟩]
        have hnext := pteTable_new pa ha hlt
        unfold pteTable at hnext
        split_ifs at hnext
        exact Option.some.inj hnext
      simp only [pmapAllocTable, hpa, hnull, ↓reduceIte]
      refine Or.inr ⟨_, _, rfl, ⟨⟨hf.aligned, fun h0 => hf.pageZero ((hiff 0).mp h0).1,
        fun n hn hn' => ?_⟩, hkeep, fun x hx => ?_⟩, ?_, Or.inr fun j => ?_⟩
      · obtain ⟨q', t', hq', ht', rfl⟩ := hn
        obtain ⟨hn', hne⟩ := (hiff _).mp hn'
        rcases hcases q' t' hq' ht' with hm | rfl
        · exact hf.used _ ⟨q', t', hq', hm, rfl⟩ hn'
        · exact hne rfl
      · refine linkMem_other _ t pa x i hta ha (fun hc => hx ?_) fun hc => hx (hc ▸ hpaF)
        exact hc ▸ hkeep _ ⟨q, t, hq.le, ht, rfl⟩
      · exact hlink.trans (congrArg some hval.symm)
      · have hne : pa ≠ t := by
          rintro rfl
          exact hnew ⟨q, pa, hq.le, ht, rfl⟩
        have hz : pteAt h (linkMem h k.mem t i pa) pa j = 0 := by
          rw [pteAt_linkMem _ t pa pa i j hta ha ha, if_neg fun hc => hne hc.1, if_pos rfl]
        rw [← hz]
        exact congrArg (fun c => pteAt h (linkMem h k.mem t i pa) c j) hval
  · rw [if_neg hpres]
    refine Or.inr ⟨_, _, rfl, TreeGrown.refl hf, ?_, Or.inl rfl⟩
    rw [hwTable_concat, ht, Option.bind_some, pteNext_small hs]
    exact if_neg hpres

/-- On the way to an address that no large page maps, no entry has PS set. -/
theorem pdpt_small (hs : ¬ MapsLarge h m r va) (ht : hwTable h m r [pml4Idx va] = some t)
    (hp : pteAt h m t (pdptIdx va) &&& pteP ≠ 0) : pteAt h m t (pdptIdx va) &&& ptePS = 0 := by
  by_contra hps
  rw [hwTable, node_single] at ht
  refine hs ⟨1, pteAt h m t (pdptIdx va), ?_⟩
  rw [hwWalk, ht, Option.bind_some]
  exact if_pos ⟨hp, hps⟩

theorem pd_small (hs : ¬ MapsLarge h m r va)
    (ht : hwTable h m r [pml4Idx va, pdptIdx va] = some t)
    (hp : pteAt h m t (pdIdx va) &&& pteP ≠ 0) : pteAt h m t (pdIdx va) &&& ptePS = 0 := by
  by_contra hps
  rw [hwTable, node_pair] at ht
  obtain ⟨pdpt, h4, h3⟩ := ht
  have hno : ¬ (pteAt h m pdpt (pdptIdx va) &&& pteP ≠ 0 ∧ pteAt h m pdpt (pdptIdx va) &&& ptePS ≠ 0) := by
    rintro ⟨_, hps3⟩
    rw [pteNext, if_neg hps3] at h3
    cases h3
  refine hs ⟨0, pteAt h m t (pdIdx va), ?_⟩
  rw [hwWalk, h4, Option.bind_some]
  dsimp only
  rw [if_neg hno, h3, Option.bind_some]
  exact if_pos ⟨hp, hps⟩

/-- The walk of an address that no large page maps. -/
theorem pmapWalk_grown (hf : TreeFrames h k r) (htop : pteAt h k.mem r (pml4Idx va) &&& ptePS = 0)
    (hs : ¬ MapsLarge h k.mem r va) :
    TreeGrown h r k (pmapWalk h r va true k).2 ∧
      ∀ pte, (pmapWalk h r va true k).1 = some pte →
        ∃ pt, hwTable h (pmapWalk h r va true k).2.mem r (vaPath va) = some pt ∧
          pte = pteAddr h pt (ptIdx va) := by
  have hzp : (0 : Word) &&& pteP = 0 := by decide
  unfold pmapWalk
  rcases pmapWalkLevel_grown (q := []) hf rfl (by simp) fun _ => htop with he |
    ⟨pdpt, k1, he, hg1, ht1, hc1⟩
  · rw [he]
    exact ⟨TreeGrown.refl hf, fun _ hc => by cases hc⟩
  rw [he]
  have hs1 : pteAt h k1.mem pdpt (pdptIdx va) &&& pteP ≠ 0 →
      pteAt h k1.mem pdpt (pdptIdx va) &&& ptePS = 0 := by
    intro hp
    rcases hc1 with rfl | hc1
    · exact pdpt_small hs ht1 hp
    · rw [hc1] at hp
      exact absurd hzp hp
  rcases pmapWalkLevel_grown hg1.frames ht1 (by simp) hs1 with he | ⟨pd, k2, he, hg2, ht2, hc2⟩
  · simp only [he]
    exact ⟨hg1, fun _ hc => by cases hc⟩
  simp only [he]
  have hs2 : pteAt h k2.mem pd (pdIdx va) &&& pteP ≠ 0 →
      pteAt h k2.mem pd (pdIdx va) &&& ptePS = 0 := by
    intro hp
    rcases hc2 with rfl | hc2
    · rcases hc1 with rfl | hc1
      · exact pd_small hs ht2 hp
      · -- the PDPT has just been made, and there is nothing below it
        have hnone : pteNext (pteAt h k2.mem pdpt (pdptIdx va)) = none := by
          rw [hc1]
          decide
        rw [hwTable_concat, ht1, Option.bind_some, hnone] at ht2
        cases ht2
    · rw [hc2] at hp
      exact absurd hzp hp
  rcases pmapWalkLevel_grown hg2.frames ht2 (by simp) hs2 with he | ⟨pt, k3, he, hg3, ht3, _⟩
  · simp only [he]
    exact ⟨hg1.trans hg2, fun _ hc => by cases hc⟩
  simp only [he]
  exact ⟨(hg1.trans hg2).trans hg3, fun pte hpte => ⟨pt, ht3, (Option.some.inj hpte).symm⟩⟩

/-- Where no large page maps `va`, `pmap_walk` goes through the tables that the processor goes
through. -/
theorem tableAt_small (htop : pteAt h m r (pml4Idx va) &&& ptePS = 0) (hs : ¬ MapsLarge h m r va) :
    tableAt h m r (vaPath va) = hwTable h m r (vaPath va) ∧
    hwWalk h m r va = (hwTable h m r (vaPath va)).bind fun pt =>
      (ptePresent (pteAt h m pt (ptIdx va))).map fun e => (0, e) := by
  have h4 := pteNext_small (e := pteAt h m r (pml4Idx va)) fun _ => htop
  rw [tableAt, hwTable, hwWalk, vaPath, node_cons, node_cons, h4]
  cases hpdpt : pteTable (pteAt h m r (pml4Idx va)) with
  | none => exact ⟨rfl, rfl⟩
  | some pdpt =>
    have ht1 : hwTable h m r [pml4Idx va] = some pdpt := by
      rw [hwTable, node_cons, h4, hpdpt]
      rfl
    have h3 := pteNext_small (pdpt_small hs ht1)
    simp only [Option.bind_some, node_cons]
    rw [if_neg fun hc => hc.2 (pdpt_small hs ht1 hc.1), h3]
    cases hpd : pteTable (pteAt h m pdpt (pdptIdx va)) with
    | none => exact ⟨rfl, rfl⟩
    | some pd =>
      have ht2 : hwTable h m r [pml4Idx va, pdptIdx va] = some pd := by
        rw [hwTable, node_cons, h4, hpdpt, Option.bind_some, node_cons, h3, hpd]
        rfl
      have h2 := pteNext_small (pd_small hs ht2)
      simp only [Option.bind_some]
      rw [if_neg fun hc => hc.2 (pd_small hs ht2 hc.1), h2]
      cases pteTable (pteAt h m pd (pdIdx va)) with
      | none => exact ⟨rfl, rfl⟩
      | some pt => exact ⟨rfl, rfl⟩

/-- The entry of a large page, in a PDPT or in a PD. -/
theorem hwWalk_large {n : ℕ} {e : Word} (hw : hwWalk h m r va = some (n+1, e)) :
    e &&& pteP ≠ 0 ∧ ∃ pdpt, hwTable h m r [pml4Idx va] = some pdpt ∧
      (e = pteAt h m pdpt (pdptIdx va) ∨ ∃ pd, hwTable h m r [pml4Idx va, pdptIdx va] = some pd ∧
        e = pteAt h m pd (pdIdx va)) := by
  rw [hwWalk, Option.bind_eq_some_iff] at hw
  obtain ⟨pdpt, h4, hw⟩ := hw
  have ht1 : hwTable h m r [pml4Idx va] = some pdpt := by
    rw [hwTable, node_cons, h4]
    rfl
  dsimp only at hw
  split_ifs at hw with h3
  · obtain ⟨_, rfl⟩ := Prod.mk.inj (Option.some.inj hw)
    exact ⟨h3.1, pdpt, ht1, Or.inl rfl⟩
  rw [Option.bind_eq_some_iff] at hw
  obtain ⟨pd, h3', hw⟩ := hw
  split_ifs at hw with h2
  · obtain ⟨_, rfl⟩ := Prod.mk.inj (Option.some.inj hw)
    refine ⟨h2.1, pdpt, ht1, Or.inr ⟨pd, ?_, rfl⟩⟩
    rw [hwTable, node_cons, h4, Option.bind_some, node_cons, h3']
    rfl
  · rw [Option.bind_eq_some_iff] at hw
    obtain ⟨pt, _, hw⟩ := hw
    obtain ⟨_, _, hw⟩ := Option.map_eq_some_iff.mp hw
    cases (Prod.mk.inj hw).1

theorem pteTable_of_next {e : Word} (he : pteNext e = some t) : pteTable e = some t := by
  unfold pteNext at he
  split_ifs at he
  exact he

theorem pmapWalkLevel_present {create : Bool} (ht : pteTable (pteAt h k.mem t i) = some pa) :
    pmapWalkLevel h t i create k = (some pa, k) := by
  unfold pteTable at ht
  split_ifs at ht with hp
  obtain rfl := Option.some.inj ht
  rw [pmapWalkLevel, if_neg hp]

theorem pmapWalk_present (ht : tableAt h k.mem r (vaPath va) = some t) (create : Bool) :
    pmapWalk h r va create k = (some (pteAddr h t (ptIdx va)), k) := by
  rw [tableAt, vaPath, node_triple] at ht
  obtain ⟨pdpt, h4, pd, h3, h2⟩ := ht
  rw [pmapWalk, pmapWalkLevel_present h4]
  simp only [pmapWalkLevel_present h3, pmapWalkLevel_present h2]

end Tree

section Ops
variable {h : Hhdm} {s : PmapState} {p : PmapPtr} {va : Word}

/-- An entry of a table is written: the other frames stay as they are. -/
theorem store_table {m : Mem} {F : ℕ → Prop} {pt v x : Word} {i : Idx} (ht : PageAligned pt)
    (hF : F (pageOf pt)) (hx : ¬ F (frameOf h x)) : store64 m (pteAddr h pt i) v x = m x :=
  store_pte_other h m pt v x i ht fun hc => hx (hc ▸ hF)

/-- The operations are right on an address that no large page maps. -/
theorem PageTree.ok (ht : PageTree h s p)
    (hs : ¬ MapsLarge h s.kmem.mem (s.pmaps p).pml4Phys va) : LargePagesOk h s p va := by
  obtain ⟨htable, hwalk⟩ := tableAt_small (ht.top _) hs
  obtain ⟨hgrown, hend⟩ := pmapWalk_grown ht.frames (ht.top _) hs
  have hlookup := pmapWalk_lookup (h := h) (s.pmaps p).pml4Phys va s.kmem
  rw [htable] at hlookup
  have htables {pt : Word} (hpt : hwTable h s.kmem.mem (s.pmaps p).pml4Phys (vaPath va) = some pt) :
      PageAligned pt ∧ TableFrame h s.kmem.mem (s.pmaps p).pml4Phys (pageOf pt) :=
    ⟨hwTable_aligned ht.frames.aligned hpt, vaPath va, pt, le_rfl, hpt, rfl⟩
  refine ⟨?_, fun paddr flags x hx => ?_, fun x hx => ?_, fun flags x hx => ?_⟩
  · rw [pmapQuery, hlookup, hwQuery, hwalk]
    cases hwTable h s.kmem.mem (s.pmaps p).pml4Phys (vaPath va) with
    | none => rfl
    | some pt =>
      change (if pteAt h s.kmem.mem pt (ptIdx va) &&& pteP = 0 then 0 else _) = _
      rw [Option.bind_some, ptePresent]
      split_ifs
      · rfl
      · exact (hwPhys_page _).symm
  · obtain ⟨⟨r, k⟩, hw⟩ : ∃ x, pmapWalk h (s.pmaps p).pml4Phys va true s.kmem = x := ⟨_, rfl⟩
    rw [hw] at hgrown hend hx
    rw [pmapMap, hw]
    cases r with
    | none => exact hgrown.other x hx
    | some pte =>
      obtain ⟨pt, hpt, rfl⟩ := hend pte rfl
      have hal := hwTable_aligned ht.frames.aligned hpt
      refine Eq.trans ?_ (hgrown.other x hx)
      exact store_table (F := TableFrame h k.mem (s.pmaps p).pml4Phys) hal
        ⟨vaPath va, pt, le_rfl, hpt, rfl⟩ hx
  · rw [pmapUnmap, hlookup]
    cases hpt : hwTable h s.kmem.mem (s.pmaps p).pml4Phys (vaPath va) with
    | none => rfl
    | some pt =>
      simp only [Option.map_some]
      split_ifs
      · rfl
      · exact store_table (htables hpt).1 (htables hpt).2 hx
  · rw [pmapProtect, hlookup]
    cases hpt : hwTable h s.kmem.mem (s.pmaps p).pml4Phys (vaPath va) with
    | none => rfl
    | some pt =>
      simp only [Option.map_some]
      split_ifs
      · rfl
      · exact store_table (htables hpt).1 (htables hpt).2 hx

/-- A tree with the same tables is as good. -/
theorem PageTree.same (ht : PageTree h s p) {m : Mem}
    (hm : SameTree h (s.pmaps p).pml4Phys s.kmem.mem m) :
    PageTree h { s with kmem := { s.kmem with mem := m } } p := by
  have hr := ht.frames.aligned
  refine ⟨⟨hr, ht.frames.pageZero, fun n hn => ht.frames.used n ((hm.frame hr n).mp hn)⟩,
    fun i => ?_⟩
  rw [← ht.top i]
  exact congrArg (· &&& ptePS) (hm.pte (q := []) hr (by simp) rfl i)

/-- A large page, whose memory holds what looks like a table that points to itself, has an entry
written into it. -/
theorem mapsLarge_not_ok (hr : PageAligned (s.pmaps p).pml4Phys) {k : ℕ} {e : Word}
    (hw : hwWalk h s.kmem.mem (s.pmaps p).pml4Phys va = some (k+1, e))
    (hb : ¬ TableFrame h s.kmem.mem (s.pmaps p).pml4Phys (pageOf (e &&& pteAddrMask))) :
    ∃ m, SameTree h (s.pmaps p).pml4Phys s.kmem.mem m ∧
      ¬ LargePagesOk h { s with kmem := { s.kmem with mem := m } } p va := by
  obtain ⟨b, hbe⟩ : ∃ b, b = e &&& pteAddrMask := ⟨_, rfl⟩
  rw [← hbe] at hb
  have hba : PageAligned b := hbe ▸ mask_aligned e
  obtain ⟨m, hm⟩ : ∃ m, m = store64 s.kmem.mem (pteAddr h b (pdIdx va)) (b ||| pteP) := ⟨_, rfl⟩
  have hsame : SameTree h (s.pmaps p).pml4Phys s.kmem.mem m := by
    intro x hx
    rw [hm]
    exact store_pte_other h _ b _ x _ hba fun hc => hb (hc ▸ hx)
  have hself : pteTable (pteAt h m b (pdIdx va)) = some b := by
    have hmask : (b ||| pteP) &&& pteAddrMask = b := by
      have hP : pteP &&& pteAddrMask = 0#64 := by decide
      rw [BitVec.and_or_distrib_right, hP, BitVec.or_zero, hbe, BitVec.and_assoc, BitVec.and_self]
    have hP : (b ||| pteP) &&& pteP ≠ 0 := by
      intro hc
      have hbit := congrArg (fun w : Word => w.getLsbD 0) hc
      simp [pteP] at hbit
    rw [hm, pteAt_store h _ b b _ _ _ hba hba, if_pos ⟨rfl, rfl⟩, pteTable, if_neg hP, hmask]
  have htable : tableAt h m (s.pmaps p).pml4Phys (vaPath va) = some b := by
    obtain ⟨hP, pdpt, ht1, he⟩ := hwWalk_large hw
    have hbase : pteTable e = some b := by
      rw [pteTable, if_neg hP, hbe]
    have h4 : pteTable (pteAt h m (s.pmaps p).pml4Phys (pml4Idx va)) = some pdpt := by
      refine pteTable_of_next ?_
      have ht := (hsame.table hr (q := [pml4Idx va]) (by simp)).trans ht1
      rwa [hwTable, node_single] at ht
    have h3same := hsame.pte hr (q := [pml4Idx va]) (by simp) ht1 (pdptIdx va)
    rw [tableAt, vaPath, node_cons, h4, Option.bind_some, node_cons, h3same]
    rcases he with he | ⟨pd, ht2, he⟩
    · rw [← he, hbase, Option.bind_some, node_cons, hself]
      rfl
    · have h2same := hsame.pte hr (q := [pml4Idx va, pdptIdx va]) (by simp) ht2 (pdIdx va)
      have h3 : pteTable (pteAt h s.kmem.mem pdpt (pdptIdx va)) = some pd := by
        refine pteTable_of_next ?_
        have ht := ht2
        rw [show [pml4Idx va, pdptIdx va] = [pml4Idx va] ++ [pdptIdx va] from rfl, hwTable_concat,
          ht1] at ht
        exact ht
      rw [h3, Option.bind_some, node_cons, h2same, ← he, hbase]
      rfl
  refine ⟨m, hsame, fun hok => ?_⟩
  -- the entry is in the memory of the page, and cannot hold two values
  have hentry (flags : Word) : pteAt h m b (ptIdx va) =
      ((0 &&& pteAddrMask) ||| (flags &&& ~~~pteAddrMask) ||| pteP) := by
    have hwalk := pmapWalk_present (k := { s.kmem with mem := m }) htable true
    have hmap := hok.map 0 flags
    rw [pmapMap, hwalk] at hmap
    have hstore := pteAt_store h m b b ((0 &&& pteAddrMask) ||| (flags &&& ~~~pteAddrMask) ||| pteP)
      (ptIdx va) (ptIdx va) hba hba
    rw [if_pos ⟨rfl, rfl⟩] at hstore
    rw [← hstore]
    refine (pteAt_congr h m _ b (ptIdx va) hba fun x hx => ?_).symm
    refine hmap x fun hn => hb ?_
    exact (hsame.frame hr _).mp (hx ▸ hn)
  have htwo := (hentry 0).symm.trans (hentry pteNX)
  exact absurd htwo (by decide)

/-- Where no large page maps `va`, the operations give and write what they should, whatever the
frames that are no tables hold. Where one does, and it does not start at a table of the tree,
they do not. -/
theorem pmap_large_pages (ht : PageTree h s p) (va : Word) :
    (¬ MapsLarge h s.kmem.mem (s.pmaps p).pml4Phys va → LargePagesOk h s p va) ∧
    ((∀ k e, hwWalk h s.kmem.mem (s.pmaps p).pml4Phys va = some (k+1, e) →
        ¬ TableFrame h s.kmem.mem (s.pmaps p).pml4Phys (pageOf (e &&& pteAddrMask))) →
      ((∀ m, SameTree h (s.pmaps p).pml4Phys s.kmem.mem m →
          LargePagesOk h { s with kmem := { s.kmem with mem := m } } p va) ↔
        ¬ MapsLarge h s.kmem.mem (s.pmaps p).pml4Phys va)) := by
  have hr := ht.frames.aligned
  refine ⟨ht.ok, fun hbase => ⟨?_, fun hs m hm => (ht.same hm).ok ?_⟩⟩
  · rintro hall ⟨k, e, hw⟩
    obtain ⟨m, hm, hnot⟩ := mapsLarge_not_ok hr hw (hbase k e hw)
    exact hnot (hall m hm)
  · rintro ⟨k, e, hw⟩
    exact hs ⟨k, e, (hm.walk hr va).symm.trans hw⟩

end Ops

/-- A PML4 at 0x1000, a PDPT and a PD, and a page of 2 MB at the physical address 0x200000. All
of memory is in use. -/
def largeTree : PmapState where
  kmem :=
    { pmm := ⟨fun _ => BitVec.allOnes 64, 0, 0⟩
      mem := store64 (store64 (store64 (fun _ => 0) (pteAddr higherHalf 0x1000 0) 0x2003)
        (pteAddr higherHalf 0x2000 0) 0x3003) (pteAddr higherHalf 0x3000 0) 0x200083 }
  pmaps := fun _ => ⟨0x1000, 1⟩

theorem largeTree_tree : PageTree higherHalf largeTree .kernel := by
  refine ⟨⟨rfl, by decide, fun n _ hn => ?_⟩, fun i => ?_⟩
  · have hbit := hn.2
    have hlt : bitIdx n < 64 := Nat.mod_lt _ (by decide)
    rw [bitmapTest_eq] at hbit
    simp only [largeTree, BitVec.getLsbD_allOnes, hlt, decide_true] at hbit
    cases hbit
  · have htop : ∀ i : Idx, pteAt higherHalf largeTree.kmem.mem 0x1000 i &&& ptePS = 0 := by
      decide +kernel
    exact htop i

theorem pmap_large_pages_beside : LargePagesOk higherHalf largeTree .kernel 0x40000000 := by
  have hnone : hwWalk higherHalf largeTree.kmem.mem 0x1000 0x40000000 = none := by decide +kernel
  refine (pmap_large_pages largeTree_tree 0x40000000).1 ?_
  rintro ⟨k, e, hw⟩
  cases hnone.symm.trans hw

/-- The query does not find the large page, and `pmap_map` writes into it. -/
theorem pmap_query_large_page : PageTree higherHalf largeTree .kernel ∧
    pmapQuery higherHalf largeTree .kernel 0x1000 = 0 ∧
    hwQuery higherHalf largeTree.kmem.mem 0x1000 0x1000 = 0x201000 ∧
    load64 (pmapMap higherHalf largeTree .kernel 0x1000 0x5000 pteW).2.kmem.mem
      (physToVirt higherHalf 0x200008) = 0x5003 ∧
    ¬ LargePagesOk higherHalf largeTree .kernel 0x1000 := by
  refine ⟨largeTree_tree, by decide +kernel, by decide +kernel, by decide +kernel, fun hok => ?_⟩
  have hq := hok.query
  revert hq
  decide +kernel

end Dana
