import Dana.LargePages

/-! The tables of all pmaps together. Pmaps may share tables, but each table has one path,
whichever pmap it is reached from, and lies in a frame that the PMM does not hand out. -/
namespace Dana
open ByteMem RadixTree

/-- The tables in use, each with its path. -/
abbrev TableLab := Word → Option (Unit × List Idx)

/-- The pointers are the entries of the PML4, the PDPTs and the PDs. -/
def treeDom (q : List Idx) (_ : Idx) : Prop := q.length < 3

structure PageTrees (h : Hhdm) (k : Kmem) (lab : TableLab) : Prop where
  pageZero : ¬ k.pmm.Free 0
  used : ∀ t l, lab t = some l → PageAligned t ∧ ¬ k.pmm.Free (pageOf t)
  forest : Forest pteNext (pteAt h k.mem) treeDom lab
  top : ∀ t i, lab t = some ((), []) → pteAt h k.mem t i &&& ptePS = 0

/-- An entry that maps a large page. -/
def pteLarge (e : Word) : Option Word := if e &&& pteP ≠ 0 ∧ e &&& ptePS ≠ 0 then some e else none

section Walk
variable {h : Hhdm} {m : Mem} {r : Word}

/-- The processor takes the first leaf on the way. -/
theorem hwWalk_leaves (va : Word) : hwWalk h m r va =
    ((leaf pteNext pteLarge (pteAt h m) r [pml4Idx va] (pdptIdx va)).map fun e => (2, e)).or
    (((leaf pteNext pteLarge (pteAt h m) r [pml4Idx va, pdptIdx va] (pdIdx va)).map
      fun e => (1, e)).or
    ((leaf pteNext ptePresent (pteAt h m) r (vaPath va) (ptIdx va)).map fun e => (0, e))) := by
  simp only [hwWalk, leaf, vaPath, node_cons, node_nil]
  cases pteNext (pteAt h m r (pml4Idx va)) with
  | none => rfl
  | some pdpt =>
    simp only [Option.bind_some, pteLarge]
    by_cases h3 : pteAt h m pdpt (pdptIdx va) &&& pteP ≠ 0 ∧ pteAt h m pdpt (pdptIdx va) &&& ptePS ≠ 0
    · rw [if_pos h3, if_pos h3]
      rfl
    rw [if_neg h3, if_neg h3]
    cases pteNext (pteAt h m pdpt (pdptIdx va)) with
    | none => rfl
    | some pd =>
      simp only [Option.bind_some]
      by_cases h2 : pteAt h m pd (pdIdx va) &&& pteP ≠ 0 ∧ pteAt h m pd (pdIdx va) &&& ptePS ≠ 0
      · rw [if_pos h2, if_pos h2]
        rfl
      rw [if_neg h2, if_neg h2]
      cases pteNext (pteAt h m pd (pdIdx va)) <;> rfl

/-- A walk that starts in the same slot ends at the same leaf. -/
theorem hwWalk_slot {r' va : Word}
    (hslot : pteAt h m r' (pml4Idx va) = pteAt h m r (pml4Idx va)) :
    hwWalk h m r' va = hwWalk h m r va := by
  rw [hwWalk, hwWalk, hslot]

theorem mapsLarge_iff {va : Word} : MapsLarge h m r va ↔
    leaf pteNext pteLarge (pteAt h m) r [pml4Idx va] (pdptIdx va) ≠ none ∨
    leaf pteNext pteLarge (pteAt h m) r [pml4Idx va, pdptIdx va] (pdIdx va) ≠ none := by
  rw [MapsLarge, hwWalk_leaves]
  cases leaf pteNext pteLarge (pteAt h m) r [pml4Idx va] (pdptIdx va) with
  | some e => simp
  | none =>
    cases leaf pteNext pteLarge (pteAt h m) r [pml4Idx va, pdptIdx va] (pdIdx va) with
    | some e => simp
    | none => cases leaf pteNext ptePresent (pteAt h m) r (vaPath va) (ptIdx va) <;> simp

theorem treeDom_path (p q : List Idx) (hq : p.length+q.length ≤ 3) : Path treeDom p q := by
  induction q generalizing p with
  | nil => trivial
  | cons i q ih =>
    rw [List.length_cons] at hq
    refine ⟨show p.length < 3 by omega, ih _ ?_⟩
    rw [List.length_append, List.length_singleton]
    omega

theorem treeDom_leaf {q : List Idx} (hq : q.length = 3) (i : Idx) : ¬ treeDom q i := by
  rw [treeDom, hq]
  decide

end Walk

section Trees
variable {h : Hhdm} {k k' k'' : Kmem} {lab lab' lab'' : TableLab} {r t pa va : Word} {q : List Idx}
  {i : Idx}

theorem PageTrees.path (hT : PageTrees h k lab) (hr : lab r = some ((), []))
    (hq : q.length ≤ 3) (ht : hwTable h k.mem r q = some t) : lab t = some ((), q) :=
  hT.forest.node_lab hr (treeDom_path [] q (by simpa using hq)) ht

/-- The first free frame hangs as an empty table below an entry that is not present. -/
theorem PageTrees.links {V : Type} (val : Word → Option V) (hval : val 0 = none)
    (hT : PageTrees h k lab) (ht : lab t = some ((), q)) (hq : q.length < 3)
    (he : pteAt h k.mem t i &&& pteP = 0) (ha : PageAligned pa) (hf : k.pmm.Free (pageOf pa)) :
    Links pteNext val (pteAt h k.mem) (pteAt h (linkMem h k.mem t i pa)) treeDom lab
      (Function.update lab pa (some ((), q ++ [i]))) t i pa () q := by
  obtain ⟨hta, hused⟩ := hT.used t _ ht
  have hfresh (t' : Word) (l : Unit × List Idx) (hl : lab t' = some l) : t' ≠ pa := by
    rintro rfl
    exact (hT.used _ l hl).2 hf
  have hcell (t' : Word) (j : Idx) (ht' : PageAligned t') :=
    pteAt_linkMem (h := h) k.mem t t' pa i j hta ht' ha
  have hnew (j : Idx) : pteAt h (linkMem h k.mem t i pa) pa j = 0 := by
    rw [hcell pa j ha, if_neg fun hc => hfresh t _ ht hc.1.symm, if_pos rfl]
  refine ⟨ht, hq, ?_, ?_, ?_, fun n j hn hc => ?_, fun j => ?_, fun j => ?_,
    Function.update_self .., fun n hn => Function.update_of_ne hn _ _⟩
  · rw [pteNext_small fun hp => absurd he hp]
    exact if_pos he
  · exact Option.eq_none_iff_forall_ne_some.mpr fun l hl => hfresh pa l hl rfl
  · rw [hcell t i hta, if_pos ⟨rfl, rfl⟩, pteNext, if_pos (ptePS_new pa ha)]
    exact pteTable_new pa ha ((toNat_lt_of_page hf.1).trans (by decide))
  · obtain ⟨l, hl⟩ := Option.ne_none_iff_exists'.mp hn
    rw [hcell n j (hT.used n l hl).1, if_neg hc, if_neg (hfresh n l hl)]
  · rw [hnew]
    decide
  · rw [hnew, hval]

/-- How a walk that may make tables changes the trees: it adds empty tables. -/
structure TreesGrown (h : Hhdm) (k k' : Kmem) (lab lab' : TableLab) : Prop where
  trees : PageTrees h k' lab'
  old : ∀ t l, lab t = some l → lab' t = some l
  free : ∀ n, k'.pmm.Free n → k.pmm.Free n
  walk : ∀ r va, lab r = some ((), []) → hwWalk h k'.mem r va = hwWalk h k.mem r va
  table : ∀ r q t, lab r = some ((), []) → q.length ≤ 3 → hwTable h k.mem r q = some t →
    hwTable h k'.mem r q = some t

theorem TreesGrown.refl (hT : PageTrees h k lab) : TreesGrown h k k lab lab :=
  ⟨hT, fun _ _ ht => ht, fun _ hn => hn, fun _ _ _ => rfl, fun _ _ _ _ _ ht => ht⟩

theorem TreesGrown.trans (h1 : TreesGrown h k k' lab lab') (h2 : TreesGrown h k' k'' lab' lab'') :
    TreesGrown h k k'' lab lab'' :=
  ⟨h2.trees, fun t l ht => h2.old t l (h1.old t l ht), fun n hn => h1.free n (h2.free n hn),
    fun r va hr => (h2.walk r va (h1.old r _ hr)).trans (h1.walk r va hr),
    fun r q t hr hq ht => h2.table r q t (h1.old r _ hr) hq (h1.table r q t hr hq ht)⟩

theorem TreesGrown.large (hg : TreesGrown h k k' lab lab') (hr : lab r = some ((), [])) :
    MapsLarge h k'.mem r va ↔ MapsLarge h k.mem r va := by
  unfold MapsLarge
  rw [hg.walk r va hr]

/-- The new table changes no translation, large pages included. -/
theorem PageTrees.link (hT : PageTrees h k lab) {pmm : Pmm} (ht : lab t = some ((), q))
    (hq : q.length < 3) (he : pteAt h k.mem t i &&& pteP = 0)
    (hp : pmmAllocPage k.pmm = (pa, pmm)) (hpa : pa ≠ pmmNull) :
    TreesGrown h k ⟨pmm, linkMem h k.mem t i pa⟩ lab
      (Function.update lab pa (some ((), q ++ [i]))) := by
  obtain ⟨ha, hf, hiff⟩ := pmmAllocPage_some hT.pageZero hp hpa
  have hta := (hT.used t _ ht).1
  have hzero : pteLarge 0 = none := by decide
  have hL := hT.links ptePresent ptePresent_zero ht hq he ha hf
  have hLl := hT.links pteLarge hzero ht hq he ha hf
  have hnew (t' : Word) (l : Unit × List Idx) (hl : lab t' = some l) : t' ≠ pa :=
    hL.labelled_ne hl
  have hlink : pteAt h (linkMem h k.mem t i pa) t i = pa ||| pteP ||| pteW ||| pteU := by
    rw [pteAt_linkMem k.mem t t pa i i hta hta ha, if_pos ⟨rfl, rfl⟩]
  have hlarge : pteLarge (pteAt h (linkMem h k.mem t i pa) t i) = pteLarge (pteAt h k.mem t i) := by
    rw [pteLarge, if_neg fun hc => hc.2 (hlink ▸ ptePS_new pa ha), pteLarge, if_neg fun hc => hc.1 he]
  refine ⟨⟨fun h0 => hT.pageZero ((hiff 0).mp h0).1, fun t' l hl => ?_, hL.forest hT.forest,
    fun t' j hl => ?_⟩, fun t' l hl => ?_, fun n hn => ((hiff n).mp hn).1, fun r va hr => ?_,
    fun r q' t' hr hq' ht' => ?_⟩
  · by_cases hc : t' = pa
    · subst hc
      exact ⟨ha, fun hn => ((hiff _).mp hn).2 rfl⟩
    · rw [Function.update_of_ne hc] at hl
      obtain ⟨ha', hu⟩ := hT.used t' l hl
      exact ⟨ha', fun hn => hu ((hiff _).mp hn).1⟩
  · by_cases hc : t' = pa
    · rw [hc, Function.update_self] at hl
      simp at hl
    rw [Function.update_of_ne hc] at hl
    by_cases hcell : t' = t ∧ j = i
    · obtain ⟨rfl, rfl⟩ := hcell
      rw [hlink]
      exact ptePS_new pa ha
    · rw [hL.other t' j (by simp [hl]) hcell]
      exact hT.top t' j hl
  · rw [Function.update_of_ne (hnew t' l hl)]
    exact hl
  · rw [hwWalk_leaves, hwWalk_leaves,
      hLl.leaf_same hT.forest hr (treeDom_path [] _ (by simp)) fun _ _ => hlarge,
      hLl.leaf_same hT.forest hr (treeDom_path [] _ (by simp)) fun _ _ => hlarge,
      hL.leaf_eq hT.forest hr (treeDom_path [] _ (by simp [vaPath])) (treeDom_leaf rfl _)]
  · exact hL.node_mono hT.forest hr (treeDom_path [] _ (by simpa using hq')) ht'

/-- One level of a walk that creates tables, at an entry that maps no large page. -/
theorem pmapWalkLevel_trees (hT : PageTrees h k lab) (ht : lab t = some ((), q)) (hq : q.length < 3)
    (hs : pteAt h k.mem t i &&& pteP ≠ 0 → pteAt h k.mem t i &&& ptePS = 0) :
    (pmapWalkLevel h t i true k = (none, k) ∧ pteAt h k.mem t i &&& pteP = 0 ∧
      ∀ n, ¬ k.pmm.Free n) ∨
    ∃ c k' lab', pmapWalkLevel h t i true k = (some c, k') ∧ TreesGrown h k k' lab lab' ∧
      lab' c = some ((), q ++ [i]) ∧ k.pmm.frames.card ≤ k'.pmm.frames.card+1 ∧
      (∀ r j, lab r = some ((), []) →
        (r = t → j = i → pteAt h k.mem t i &&& pteP ≠ 0 ∨ ∀ n, ¬ k.pmm.Free n) →
        pteAt h k'.mem r j = pteAt h k.mem r j) ∧
      ∀ r, lab r = some ((), []) → hwTable h k.mem r q = some t →
        hwTable h k'.mem r (q ++ [i]) = some c := by
  unfold pmapWalkLevel
  by_cases hpres : pteAt h k.mem t i &&& pteP = 0
  · rw [if_pos hpres, if_neg (by decide)]
    obtain ⟨pa, pmm, hpa⟩ : ∃ pa pmm, pmmAllocPage k.pmm = (pa, pmm) := ⟨_, _, rfl⟩
    rcases pmmAllocPage_cases k.pmm hT.pageZero with ⟨hne, _⟩ | ⟨hnull, hnone, hpmm⟩
    · rw [hpa] at hne
      obtain ⟨ha, hf, hiff⟩ := pmmAllocPage_some hT.pageZero hpa hne
      have hg := hT.link (i := i) ht hq hpres hpa hne
      have hL := hT.links ptePresent ptePresent_zero ht hq hpres ha hf
      have hval : pteAt h (linkMem h k.mem t i pa) t i &&& pteAddrMask = pa := by
        have hnext := pteTable_of_next hL.link
        unfold pteTable at hnext
        split_ifs at hnext
        exact Option.some.inj hnext
      have hc : some (pteAt h (store64 (zeroPage h k.mem pa) (pteAddr h t i)
          (pa ||| pteP ||| pteW ||| pteU)) t i &&& pteAddrMask) = some pa := congrArg some hval
      simp only [pmapAllocTable, hpa, if_neg hne, hc]
      refine Or.inr ⟨_, _, _, rfl, hg, Function.update_self .., (Pmm.frames_take hf hiff).le,
        fun r j hr hcell => ?_, fun r hr hn => ?_⟩
      · refine hL.other r j (by simp [hr]) ?_
        rintro ⟨hrt, hji⟩
        exact (hcell hrt hji).elim (fun hp => hp hpres) fun hn => hn _ hf
      · exact (hwTable_concat q i).trans ((congrArg (Option.bind · _)
          (hg.table r q t hr hq.le hn)).trans hL.link)
    · rw [hpa] at hnull hpmm
      obtain ⟨rfl, rfl⟩ : pa = 0 ∧ pmm = k.pmm := ⟨hnull, hpmm⟩
      simp only [pmapAllocTable, hpa]
      exact Or.inl ⟨rfl, hpres, hnone⟩
  · rw [if_neg hpres]
    have hnext : pteNext (pteAt h k.mem t i) = some (pteAt h k.mem t i &&& pteAddrMask) := by
      rw [pteNext_small hs]
      exact if_neg hpres
    refine Or.inr ⟨_, _, _, rfl, TreesGrown.refl hT, hT.forest t () q i _ ht hq hnext,
      Nat.le_succ _, fun _ _ _ _ => rfl, fun r hr hn => ?_⟩
    rw [hwTable_concat, hn, Option.bind_some, hnext]

/-- The walk of an address that no large page maps. It fails for want of three free frames only,
and fills a slot of the PML4 only if that is not present and a frame is free. -/
theorem pmapWalk_trees (hT : PageTrees h k lab) (hr : lab r = some ((), []))
    (hs : ¬ MapsLarge h k.mem r va) : ∃ k' lab', TreesGrown h k k' lab lab' ∧
      (∀ r' j, lab r' = some ((), []) → (r' = r → j = pml4Idx va →
          pteAt h k.mem r (pml4Idx va) &&& pteP ≠ 0 ∨ ∀ n, ¬ k.pmm.Free n) →
        pteAt h k'.mem r' j = pteAt h k.mem r' j) ∧
      ((pmapWalk h r va true k = (none, k') ∧ k.pmm.frames.card < 3) ∨
        ∃ pt, pmapWalk h r va true k = (some (pteAddr h pt (ptIdx va)), k') ∧
          hwTable h k'.mem r (vaPath va) = some pt) := by
  unfold pmapWalk
  rcases pmapWalkLevel_trees (i := pml4Idx va) hT hr (by simp) fun _ => hT.top r _ hr with
    ⟨he, _, hn⟩ | ⟨pdpt, k1, lab1, he, hg1, ht1, hc1, hslot1, hw1⟩
  · rw [he]
    refine ⟨k, lab, TreesGrown.refl hT, fun _ _ _ _ => rfl, Or.inl ⟨rfl, ?_⟩⟩
    rw [Pmm.frames_empty hn]
    decide
  rw [he]
  have hr1 := hg1.old r _ hr
  have hs1 := fun hc => hs ((hg1.large hr).mp hc)
  have hw1 := hw1 r hr rfl
  have hroot (lab' : TableLab) (t : Word) (q : List Idx) (hq : q ≠ []) (ht : lab' t = some ((), q))
      (r' : Word) (hr' : lab' r' = some ((), [])) : r' ≠ t := by
    rintro rfl
    exact hq (Prod.mk.inj (Option.some.inj (ht.symm.trans hr'))).2
  rcases pmapWalkLevel_trees (i := pdptIdx va) hg1.trees ht1 (by simp) (pdpt_small hs1 hw1) with
    ⟨he, _, hn⟩ | ⟨pd, k2, lab2, he, hg2, ht2, hc2, hslot2, hw2⟩
  · simp only [he]
    refine ⟨k1, lab1, hg1, hslot1, Or.inl ⟨rfl, ?_⟩⟩
    rw [Pmm.frames_empty hn] at hc1
    omega
  simp only [he]
  have hr2 := hg2.old r _ hr1
  have hs2 := fun hc => hs1 ((hg2.large hr1).mp hc)
  have hw2 := hw2 r hr1 hw1
  have hslots2 (r' : Word) (j : Idx) (hr' : lab r' = some ((), [])) :
      pteAt h k2.mem r' j = pteAt h k1.mem r' j :=
    hslot2 r' j (hg1.old r' _ hr') fun hc => absurd hc (hroot lab1 pdpt _ (by simp) ht1 r'
      (hg1.old r' _ hr'))
  rcases pmapWalkLevel_trees (i := pdIdx va) hg2.trees ht2 (by simp) (pd_small hs2 hw2) with
    ⟨he, _, hn⟩ | ⟨pt, k3, lab3, he, hg3, ht3, hc3, hslot3, hw3⟩
  · simp only [he]
    refine ⟨k2, lab2, hg1.trans hg2, fun r' j hr' hc => ?_, Or.inl ⟨rfl, ?_⟩⟩
    · rw [hslots2 r' j hr', hslot1 r' j hr' hc]
    · rw [Pmm.frames_empty hn] at hc2
      omega
  simp only [he]
  refine ⟨k3, lab3, (hg1.trans hg2).trans hg3, fun r' j hr' hc => ?_,
    Or.inr ⟨pt, rfl, hw3 r hr2 hw2⟩⟩
  have hr2' := hg2.old r' _ (hg1.old r' _ hr')
  rw [hslot3 r' j hr2' fun hc => absurd hc (hroot lab2 pd _ (by simp) ht2 r' hr2'),
    hslots2 r' j hr', hslot1 r' j hr' hc]

/-- Without creation the walk ends at the table that the processor finds. -/
theorem pmapWalk_find (hT : PageTrees h k lab) (hr : lab r = some ((), []))
    (hs : ¬ MapsLarge h k.mem r va) : pmapWalk h r va false k =
      ((hwTable h k.mem r (vaPath va)).map fun pt => pteAddr h pt (ptIdx va), k) := by
  rw [pmapWalk_lookup, (tableAt_small (hT.top r _ hr) hs).1]

/-- What writing an entry of a page table keeps. -/
structure EntryWritten (h : Hhdm) (m m' : Mem) (lab : TableLab) (q : List Idx) (i : Idx) : Prop where
  inner : ∀ t l j, lab t = some l → l.2.length < 3 → pteAt h m' t j = pteAt h m t j
  table : ∀ r q', lab r = some ((), []) → q'.length ≤ 3 → hwTable h m' r q' = hwTable h m r q'
  walk : ∀ r va, lab r = some ((), []) → ¬ (vaPath va = q ∧ ptIdx va = i) →
    hwWalk h m' r va = hwWalk h m r va
  large : ∀ r va, lab r = some ((), []) → (MapsLarge h m' r va ↔ MapsLarge h m r va)

theorem PageTrees.write (hT : PageTrees h k lab) (ht : lab t = some ((), q)) (hq : q.length = 3)
    (v : Word) : PageTrees h { k with mem := store64 k.mem (pteAddr h t i) v } lab ∧
      EntryWritten h k.mem (store64 k.mem (pteAddr h t i) v) lab q i := by
  have hta := (hT.used t _ ht).1
  have hother (n : Word) (j : Idx) (hn : lab n ≠ none) (hc : ¬ (n = t ∧ j = i)) :
      pteAt h (store64 k.mem (pteAddr h t i) v) n j = pteAt h k.mem n j := by
    obtain ⟨l, hl⟩ := Option.ne_none_iff_exists'.mp hn
    rw [pteAt_store h _ t n v i j hta (hT.used n l hl).1, if_neg hc]
  have hinner (n : Word) (l : Unit × List Idx) (j : Idx) (hl : lab n = some l) (hlen : l.2.length < 3) :
      pteAt h (store64 k.mem (pteAddr h t i) v) n j = pteAt h k.mem n j := by
    refine hother n j (by simp [hl]) ?_
    rintro ⟨rfl, _⟩
    obtain rfl := Option.some.inj (hl.symm.trans ht)
    exact hlen.ne hq
  have hleaf := treeDom_leaf hq i
  have hnode (r : Word) (q' : List Idx) (hr : lab r = some ((), [])) (hq' : q'.length ≤ 3) :=
    hT.forest.node_write ht hleaf hother hr (treeDom_path [] q' (by simpa using hq'))
  have hlarge (r : Word) (q' : List Idx) (j : Idx) (hr : lab r = some ((), [])) (hlen : q'.length < 3) :=
    hT.forest.leaf_write pteLarge ht hleaf hother j hr (treeDom_path [] q' (by simpa using hlen.le))
      fun hc => hlen.ne (hc.2.1 ▸ hq)
  refine ⟨⟨hT.pageZero, hT.used, hT.forest.congr fun n u q' j hn hd => ?_, fun n j hn => ?_⟩,
    hinner, hnode, fun r va hr hne => ?_, fun r va hr => ?_⟩
  · rw [hinner n _ j hn hd]
  · rw [hinner n _ j hn (by simp)]
    exact hT.top n j hn
  · rw [hwWalk_leaves, hwWalk_leaves, hlarge r _ _ hr (by simp), hlarge r _ _ hr (by simp),
      hT.forest.leaf_write ptePresent ht hleaf hother _ hr (treeDom_path [] _ (by simp [vaPath]))
        fun hc => hne hc.2]
  · rw [mapsLarge_iff, mapsLarge_iff, hlarge r _ _ hr (by simp), hlarge r _ _ hr (by simp)]

/-- Memory with the same entries in the tables has the same translations. -/
theorem PageTrees.same_walk {m : Mem} (hT : PageTrees h k lab) (hr : lab r = some ((), []))
    (hm : ∀ t l j, lab t = some l → pteAt h m t j = pteAt h k.mem t j) :
    hwWalk h m r va = hwWalk h k.mem r va :=
  hwWalk_congr (hm r _ _ hr) fun _ _ _ hpre ht j => hm _ _ j (hT.path hr hpre.length_le ht)

/-- An address with a page table is translated by its entry there. -/
theorem hwWalk_table {m : Mem} (ht : hwTable h m r (vaPath va) = some t) :
    hwWalk h m r va = (ptePresent (pteAt h m t (ptIdx va))).map fun e => (0, e) := by
  have hsmall {e c : Word} (he : pteNext e = some c) : ¬ (e &&& pteP ≠ 0 ∧ e &&& ptePS ≠ 0) := by
    rintro ⟨_, hps⟩
    rw [pteNext, if_neg hps] at he
    cases he
  rw [hwTable, vaPath, node_triple] at ht
  obtain ⟨pdpt, h4, pd, h3, h2⟩ := ht
  rw [hwWalk, h4, Option.bind_some]
  dsimp only
  rw [if_neg (hsmall h3), h3, Option.bind_some, if_neg (hsmall h2), h2, Option.bind_some]

/-- An address whose slot of the PML4 is not present is not translated. -/
theorem hwWalk_absent {m : Mem} (h4 : pteAt h m r (pml4Idx va) &&& pteP = 0) :
    hwWalk h m r va = none := by
  rw [hwWalk, pteNext_small fun hp => absurd h4 hp, pteTable, if_pos h4]
  rfl

end Trees

/-- The trees of `pmap_kernel` and of the pmaps in `live`. -/
structure PmapTrees (h : Hhdm) (s : PmapState) (live : Set PmapPtr) (lab : TableLab) : Prop where
  trees : PageTrees h s.kmem lab
  kernel : lab (s.pmaps .kernel).pml4Phys = some ((), [])
  root : ∀ p ∈ live, lab (s.pmaps p).pml4Phys = some ((), [])
  ne : ∀ p ∈ live, (s.pmaps p).pml4Phys ≠ (s.pmaps .kernel).pml4Phys
  desc : ∀ p ∈ live, ∃ d, p = .page d ∧ PageAligned d ∧ ¬ s.kmem.pmm.Free (pageOf d)

section Pmaps
variable {h : Hhdm} {s : PmapState} {live : Set PmapPtr} {lab lab' : TableLab} {k : Kmem}

theorem PmapTrees.kmem (hT : PmapTrees h s live lab) (hk : PageTrees h k lab')
    (hold : ∀ t l, lab t = some l → lab' t = some l)
    (hfree : ∀ n, k.pmm.Free n → s.kmem.pmm.Free n) :
    PmapTrees h { s with kmem := k } live lab' := by
  refine ⟨hk, hold _ _ hT.kernel, fun p hp => hold _ _ (hT.root p hp), hT.ne, fun p hp => ?_⟩
  obtain ⟨d, hd, ha, hu⟩ := hT.desc p hp
  exact ⟨d, hd, ha, fun hn => hu (hfree _ hn)⟩

/-- A PML4 with an empty lower half and the kernel's upper half joins the trees. -/
theorem PageTrees.add {m : Mem} {pmm : Pmm} {r pa : Word} (hT : PageTrees h k lab)
    (hr : lab r = some ((), [])) (hfree : ∀ n, pmm.Free n → k.pmm.Free n) (ha : PageAligned pa)
    (hnew : lab pa = none) (hused : ¬ pmm.Free (pageOf pa))
    (hm : ∀ t l j, lab t = some l → pteAt h m t j = pteAt h k.mem t j)
    (hpa : ∀ j : Idx, pteAt h m pa j = if 256 ≤ j.toNat then pteAt h k.mem r j else 0) :
    PageTrees h ⟨pmm, m⟩ (Function.update lab pa (some ((), []))) := by
  have hne (t : Word) (l : Unit × List Idx) (hl : lab t = some l) : t ≠ pa := by
    rintro rfl
    rw [hnew] at hl
    cases hl
  have hold (t : Word) (l : Unit × List Idx) (hl : lab t = some l) :
      Function.update lab pa (some ((), [])) t = some l := by
    rw [Function.update_of_ne (hne t l hl)]
    exact hl
  have hzero : pteNext 0 = none := by decide
  refine ⟨fun h0 => hT.pageZero (hfree 0 h0), fun t l hl => ?_, fun t u q j c hl hd hc => ?_,
    fun t j hl => ?_⟩
  · by_cases ht : t = pa
    · exact ht ▸ ⟨ha, hused⟩
    · rw [Function.update_of_ne ht] at hl
      exact ⟨(hT.used t l hl).1, fun hn => (hT.used t l hl).2 (hfree _ hn)⟩
  · by_cases ht : t = pa
    · rw [ht, Function.update_self] at hl
      obtain ⟨_, rfl⟩ := Prod.mk.inj (Option.some.inj hl)
      dsimp only at hc
      rw [ht, hpa] at hc
      split_ifs at hc
      · exact hold _ _ (hT.forest r () [] j c hr hd hc)
      · rw [hzero] at hc
        cases hc
    · rw [Function.update_of_ne ht] at hl
      dsimp only at hc
      rw [hm t _ j hl] at hc
      exact hold _ _ (hT.forest t u q j c hl hd hc)
  · by_cases ht : t = pa
    · dsimp only
      rw [ht, hpa]
      split_ifs
      · exact hT.top r j hr
      · decide
    · rw [Function.update_of_ne ht] at hl
      dsimp only
      rw [hm t _ j hl]
      exact hT.top t j hl

/-- A free frame is filled with the kernel's upper half: the tables keep their entries. -/
theorem PmapTrees.copied (hT : PmapTrees h s live lab) {pa : Word} {m : Mem} (ha : PageAligned pa)
    (hne : ∀ t l, lab t = some l → t ≠ pa)
    (hmem : m = pmapCopyKernel h pa (s.pmaps .kernel).pml4Phys 256 256 (zeroPage h s.kmem.mem pa)) :
    (∀ t l j, lab t = some l → pteAt h m t j = pteAt h s.kmem.mem t j) ∧
    ∀ j : Idx, pteAt h m pa j =
      if 256 ≤ j.toNat then pteAt h s.kmem.mem (s.pmaps .kernel).pml4Phys j else 0 := by
  obtain ⟨hka, _⟩ := hT.trees.used _ _ hT.kernel
  obtain ⟨hcopy, hpte⟩ := pmapCopyKernel_spec h pa (s.pmaps .kernel).pml4Phys ha hka
    (hne _ _ hT.kernel) 256 256 le_rfl (zeroPage h s.kmem.mem pa)
  refine ⟨fun t l j hl => ?_, fun j => ?_⟩
  · have hta := (hT.trees.used t l hl).1
    refine pteAt_congr h _ m t j hta fun x hx => ?_
    have hxp : frameOf h x ≠ pageOf pa := fun hc => hne t l hl (eq_of_pageOf hta ha (hx.symm.trans hc))
    rw [hmem, hcopy x hxp, zeroPage_apply h _ pa x ha, if_neg hxp]
  · have hj := j.isLt
    rw [hmem, hpte, pteAt_zeroPage h _ pa _ j ha hka, if_neg (hne _ _ hT.kernel),
      pteAt_zeroPage h _ pa pa j ha ha, if_pos rfl]
    by_cases hc : 256 ≤ j.toNat
    · rw [if_pos ⟨hc, by omega⟩, if_pos hc]
    · rw [if_neg fun hc' => hc hc'.1, if_neg hc]

/-- `pmap_create` takes two free frames and copies the kernel's upper half, or fails and changes
no table. -/
theorem pmapCreate_trees (hT : PmapTrees h s live lab) : ∃ lab' s',
    (∀ t l, lab t = some l → lab' t = some l) ∧
    (∀ t l j, lab t = some l → pteAt h s'.kmem.mem t j = pteAt h s.kmem.mem t j) ∧
    ((pmapCreate h s = (none, s') ∧ PmapTrees h s' live lab' ∧ s'.pmaps = s.pmaps) ∨
      ∃ d, pmapCreate h s = (some (.page d), s') ∧ .page d ∉ live ∧
        PmapTrees h s' (insert (.page d) live) lab' ∧ (∀ p, p ≠ .page d → s'.pmaps p = s.pmaps p) ∧
        ∀ j : Idx, pteAt h s'.kmem.mem (s'.pmaps (.page d)).pml4Phys j =
          if 256 ≤ j.toNat then pteAt h s'.kmem.mem (s'.pmaps .kernel).pml4Phys j else 0) := by
  have h0 := hT.trees.pageZero
  obtain ⟨pa, pmm, d, pmm', m, hpa, hd, hmem, hcases⟩ := pmapCreate_cases h s
  by_cases hnull : pa = pmmNull
  · have hpmm := pmmAllocPage_none h0 (hnull ▸ hpa)
    have hres := (hcases.resolve_right (by simp [hnull])).2
    rw [hpmm] at hres
    exact ⟨lab, s, fun _ _ hl => hl, fun _ _ _ _ => rfl, Or.inl ⟨hres, hT, rfl⟩⟩
  have hcases := hcases.resolve_left fun hc => hnull hc.1
  obtain ⟨ha, hf, hiff⟩ := pmmAllocPage_some h0 hpa hnull
  have hne (t : Word) (l : Unit × List Idx) (hl : lab t = some l) : t ≠ pa := by
    rintro rfl
    exact (hT.trees.used _ l hl).2 hf
  obtain ⟨htab, hnew⟩ := hT.copied ha hne hmem
  have h0' : ¬ pmm.Free 0 := fun hn => h0 ((hiff 0).mp hn).1
  rcases hcases with ⟨_, hdn, hres⟩ | ⟨_, hdn, hres⟩
  · have hpmm' := pmmAllocPage_none h0' (hdn ▸ hd)
    have hback (n : ℕ) (hn : (pmmFreePage pmm pa).Free n) : s.kmem.pmm.Free n := by
      rcases (pmmFreePage_free pmm pa n).mp hn with hn | ⟨rfl, _⟩
      · exact ((hiff n).mp hn).1
      · exact hf
    have hsame : PageTrees h ⟨pmmFreePage pmm pa, m⟩ lab := by
      refine ⟨fun hn => h0 (hback 0 hn), fun t l hl => ?_, hT.trees.forest.congr
        fun t u q j hl _ => ?_, fun t j hl => ?_⟩
      · exact ⟨(hT.trees.used t l hl).1, fun hn => (hT.trees.used t l hl).2 (hback _ hn)⟩
      · exact congrArg pteNext (htab t _ j hl)
      · exact (congrArg (· &&& ptePS) (htab t _ j hl)).trans (hT.trees.top t j hl)
    rw [hpmm'] at hres
    exact ⟨lab, { s with kmem := ⟨pmmFreePage pmm pa, m⟩ }, fun _ _ hl => hl, htab,
      Or.inl ⟨hres, hT.kmem hsame (fun _ _ hl => hl) hback, rfl⟩⟩
  · obtain ⟨hda, hdf, hdiff⟩ := pmmAllocPage_some h0' hd hdn
    have hfree (n : ℕ) (hn : pmm'.Free n) : s.kmem.pmm.Free n :=
      ((hiff n).mp ((hdiff n).mp hn).1).1
    have hdlive : .page d ∉ live := by
      intro hc
      obtain ⟨d', hd', _, hu⟩ := hT.desc _ hc
      obtain rfl := PmapPtr.page.inj hd'
      exact hu ((hiff _).mp hdf).1
    have hpan : lab pa = none := Option.eq_none_iff_forall_ne_some.mpr fun l hl => hne pa l hl rfl
    have hadd := hT.trees.add (m := m) hT.kernel hfree ha hpan
      (fun hn => ((hiff _).mp ((hdiff _).mp hn).1).2 rfl) htab hnew
    have hold (t : Word) (l : Unit × List Idx) (hl : lab t = some l) :
        Function.update lab pa (some ((), [])) t = some l := by
      rw [Function.update_of_ne (hne t l hl)]
      exact hl
    have hpne {p : PmapPtr} (hp : p ∈ live) : p ≠ .page d := fun hc => hdlive (hc ▸ hp)
    refine ⟨_, ⟨⟨pmm', m⟩, Function.update s.pmaps (.page d) ⟨pa, 1⟩⟩, hold, htab,
      Or.inr ⟨d, hres, hdlive, ⟨hadd, ?_, fun p hp => ?_, fun p hp => ?_, fun p hp => ?_⟩,
        fun p hp => Function.update_of_ne hp _ _, fun j => ?_⟩⟩
    · exact hold _ _ hT.kernel
    · dsimp only
      rcases hp with rfl | hp
      · rw [Function.update_self, Function.update_self]
      · rw [Function.update_of_ne (hpne hp)]
        exact hold _ _ (hT.root p hp)
    · dsimp only
      rw [Function.update_of_ne (a := PmapPtr.kernel) (by simp)]
      rcases hp with rfl | hp
      · rw [Function.update_self]
        exact (hne _ _ hT.kernel).symm
      · rw [Function.update_of_ne (hpne hp)]
        exact hT.ne p hp
    · rcases hp with rfl | hp
      · exact ⟨d, rfl, hda, fun hn => ((hdiff _).mp hn).2 rfl⟩
      · obtain ⟨d', hd', hda', hu⟩ := hT.desc p hp
        exact ⟨d', hd', hda', fun hn => hu (hfree _ hn)⟩
    · dsimp only
      rw [Function.update_self, Function.update_of_ne (a := PmapPtr.kernel) (by simp), hnew,
        htab _ _ j hT.kernel]

theorem PmapTrees.store {pt : Word} {q : List Idx} (hT : PmapTrees h s live lab)
    (ht : lab pt = some ((), q)) (hq : q.length = 3) (i : Idx) (v : Word) :
    PmapTrees h (s.store (pteAddr h pt i) v) live lab ∧
      EntryWritten h s.kmem.mem (s.store (pteAddr h pt i) v).kmem.mem lab q i := by
  obtain ⟨hT', hw⟩ := hT.trees.write (i := i) ht hq v
  exact ⟨hT.kmem hT' (fun _ _ hl => hl) fun _ hn => hn, hw⟩

/-- `pmap_unmap` writes the entry that the processor reads. -/
theorem pmapUnmap_trees {p : PmapPtr} {va : Word} (hT : PageTrees h s.kmem lab)
    (hr : lab (s.pmaps p).pml4Phys = some ((), []))
    (hs : ¬ MapsLarge h s.kmem.mem (s.pmaps p).pml4Phys va) :
    pmapUnmap h s p va = (-1, s) ∨ ∃ pt, lab pt = some ((), vaPath va) ∧
      pmapUnmap h s p va = (0, s.store (pteAddr h pt (ptIdx va)) 0) := by
  rw [pmapUnmap, pmapWalk_find hT hr hs]
  cases hpt : hwTable h s.kmem.mem (s.pmaps p).pml4Phys (vaPath va) with
  | none => exact Or.inl rfl
  | some pt =>
    simp only [Option.map_some]
    split_ifs
    · exact Or.inl rfl
    · exact Or.inr ⟨pt, hT.path hr le_rfl hpt, rfl⟩

theorem pmapProtect_trees {p : PmapPtr} {va : Word} (hT : PageTrees h s.kmem lab)
    (hr : lab (s.pmaps p).pml4Phys = some ((), []))
    (hs : ¬ MapsLarge h s.kmem.mem (s.pmaps p).pml4Phys va) (flags : Word) :
    pmapProtect h s p va flags = (-1, s) ∨ ∃ pt v, lab pt = some ((), vaPath va) ∧
      pmapProtect h s p va flags = (0, s.store (pteAddr h pt (ptIdx va)) v) := by
  rw [pmapProtect, pmapWalk_find hT hr hs]
  cases hpt : hwTable h s.kmem.mem (s.pmaps p).pml4Phys (vaPath va) with
  | none => exact Or.inl rfl
  | some pt =>
    simp only [Option.map_some]
    split_ifs
    · exact Or.inl rfl
    · exact Or.inr ⟨pt, _, hT.path hr le_rfl hpt, rfl⟩

end Pmaps

/-- The boot loader's tables: none is reached by two paths, and none is in a free frame. -/
structure TreesBoot (h : Hhdm) (s : PmapState) : Prop where
  tree : PageTree h s .kernel
  path : ∀ q q' t, q.length ≤ 3 → q'.length ≤ 3 →
    hwTable h s.kmem.mem (s.pmaps .kernel).pml4Phys q = some t →
    hwTable h s.kmem.mem (s.pmaps .kernel).pml4Phys q' = some t → q = q'

open Classical in
/-- The tables below a PML4, each with a path to it. -/
noncomputable def treeLab (h : Hhdm) (m : Mem) (r : Word) : TableLab := fun t =>
  if hq : ∃ q, q.length ≤ 3 ∧ hwTable h m r q = some t then some ((), hq.choose) else none

theorem treeLab_some {h : Hhdm} {m : Mem} {r t : Word} {l : Unit × List Idx}
    (hl : treeLab h m r t = some l) : l.2.length ≤ 3 ∧ hwTable h m r l.2 = some t := by
  unfold treeLab at hl
  split_ifs at hl with hq
  obtain rfl := Option.some.inj hl
  exact hq.choose_spec

theorem TreesBoot.lab {h : Hhdm} {s : PmapState} (hb : TreesBoot h s) {q : List Idx} {t : Word}
    (hq : q.length ≤ 3) (ht : hwTable h s.kmem.mem (s.pmaps .kernel).pml4Phys q = some t) :
    treeLab h s.kmem.mem (s.pmaps .kernel).pml4Phys t = some ((), q) := by
  have hex : ∃ q, q.length ≤ 3 ∧ hwTable h s.kmem.mem (s.pmaps .kernel).pml4Phys q = some t :=
    ⟨q, hq, ht⟩
  rw [treeLab, dif_pos hex, hb.path _ q t hex.choose_spec.1 hq hex.choose_spec.2 ht]

theorem TreesBoot.trees {h : Hhdm} {s : PmapState} (hb : TreesBoot h s) :
    PmapTrees h s ∅ (treeLab h s.kmem.mem (s.pmaps .kernel).pml4Phys) := by
  refine ⟨⟨hb.tree.frames.pageZero, fun t l hl => ?_, fun t u q i c hl hd hc => ?_,
    fun t i hl => ?_⟩, hb.lab (q := []) (by simp) rfl, fun _ hp => hp.elim, fun _ hp => hp.elim,
    fun _ hp => hp.elim⟩
  · obtain ⟨hlen, ht⟩ := treeLab_some hl
    exact ⟨hwTable_aligned hb.tree.frames.aligned ht, hb.tree.frames.used _ ⟨_, t, hlen, ht, rfl⟩⟩
  · obtain ⟨_, ht⟩ := treeLab_some hl
    refine hb.lab (q := q ++ [i]) ?_ ?_
    · rw [List.length_append, List.length_singleton]
      exact hd
    · rw [hwTable_concat, ht, Option.bind_some, hc]
  · obtain ⟨_, ht⟩ := treeLab_some hl
    obtain rfl := Option.some.inj ht
    exact hb.tree.top i

/-- Pages 0 to 2 are in use, and the kernel's PML4, in page 1, is empty. -/
def kernelBoot : PmapState := ⟨⟨pmmThree, fun _ => 0⟩, fun _ => ⟨0x1000, 1⟩⟩

theorem kernelBoot_boot : TreesBoot higherHalf kernelBoot := by
  refine ⟨⟨⟨rfl, by decide, ?_⟩, fun i => ?_⟩, fun q q' t _ _ hq hq' => ?_⟩
  · rintro _ ⟨q, t, _, ht, rfl⟩
    rw [(hwTable_blank ht).2]
    decide
  · exact congrArg (· &&& ptePS) (pteAt_blank _ _ i)
  · rw [(hwTable_blank hq).1, (hwTable_blank hq').1]

end Dana
