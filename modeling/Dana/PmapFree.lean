import Dana.PmapOps
import Mathlib.Data.Set.Lattice

/-! What `pmap_free_tables` gives back, and what is left of the other pmaps when a pmap
and its tables are gone. -/
namespace Dana
open ByteMem RadixTree

/-- A page that `pmm_free_page` does not ignore. -/
def Tracked (n : ℕ) : Prop := 0 < n ∧ n < pmmMaxPages

/-- The table that an entry of a PDPT or PD points to, unless it maps a large page. -/
def pteSub (e : Word) : Option Word :=
  if e &&& pteP = 0 then none else if e &&& ptePS ≠ 0 then none else some (e &&& pteAddrMask)

/-- The table at a path that the loops of `pmap_free_tables` reach. -/
def loopTable (h : Hhdm) (m : Mem) (pml4 : Word) : List Idx → Option Word
  | [] => some pml4
  | i :: q => (pteTable (pteAt h m pml4 i)).bind fun pdpt => node pteSub (pteAt h m) pdpt q

theorem loopTable_blank (h : Hhdm) (r : Word) (i : Idx) (q : List Idx) :
    loopTable h (fun _ => 0) r (i :: q) = none := by
  rw [loopTable, pteAt_blank, pteTable_zero]
  rfl

/-- `f` gives back the pages of `S` and no others. -/
def Frees (f : Pmm → Pmm) (S : Set ℕ) : Prop := ∀ pmm n, (f pmm).Free n ↔ pmm.Free n ∨ n ∈ S

section Frees

theorem frees_skip : Frees (fun pmm => pmm) ∅ := fun pmm n => by simp

theorem frees_page (a : Word) : Frees (fun pmm => pmmFreePage pmm a) {n | n = pageOf a ∧ Tracked n} := by
  intro pmm n
  rw [pmmFreePage_free]
  constructor
  · rintro (hf | ⟨rfl, ht⟩)
    · exact Or.inl hf
    · exact Or.inr ⟨rfl, ht⟩
  · rintro (hf | ⟨rfl, ht⟩)
    · exact Or.inl hf
    · exact Or.inr ⟨rfl, ht⟩

theorem Frees.comp {f g : Pmm → Pmm} {S S' : Set ℕ} (hf : Frees f S) (hg : Frees g S') :
    Frees (fun pmm => g (f pmm)) (S ∪ S') := by
  intro pmm n
  rw [hg, hf, or_assoc]
  rfl

theorem Frees.congr {f : Pmm → Pmm} {S S' : Set ℕ} (hf : Frees f S) (hS : ∀ n, n ∈ S ↔ n ∈ S') :
    Frees f S' := fun pmm n => by rw [hf, hS]

/-- A loop gives back what its rounds do. -/
theorem frees_forIdx {body : Idx → Pmm → Pmm} {S : Idx → Set ℕ} (hb : ∀ i, Frees (body i) (S i)) :
    Frees (forIdx body) (⋃ i, S i) := by
  have hfold (l : List ℕ) (pmm : Pmm) (n : ℕ) :
      (l.foldl (fun pmm i => body (BitVec.ofNat 9 i) pmm) pmm).Free n ↔
        pmm.Free n ∨ ∃ i ∈ l, n ∈ S (BitVec.ofNat 9 i) := by
    induction l generalizing pmm with
    | nil => simp
    | cons i l ih =>
      rw [List.foldl_cons, ih, hb]
      simp only [List.mem_cons, exists_eq_or_imp, or_assoc]
  intro pmm n
  rw [forIdx, hfold, Set.mem_iUnion]
  refine or_congr_right ⟨fun ⟨i, _, hi⟩ => ⟨_, hi⟩, fun ⟨i, hi⟩ => ⟨i.toNat, ?_, ?_⟩⟩
  · exact List.mem_range.mpr i.isLt
  · rwa [BitVec.ofNat_toNat, BitVec.setWidth_eq]

end Frees

section Tables
variable (h : Hhdm) (m : Mem)

/-- The pages of the tables up to `k` levels below `t`. -/
def subPages (t : Word) (k : ℕ) : Set ℕ :=
  {n | Tracked n ∧ ∃ i q c, q.length < k ∧ node pteSub (pteAt h m) t (i :: q) = some c ∧
    n = pageOf c}

theorem subPages_zero (t : Word) : subPages h m t 0 = ∅ := by
  ext n
  simp [subPages]

theorem mem_subPages_succ (t : Word) (k n : ℕ) : n ∈ subPages h m t (k+1) ↔
    ∃ i c, pteSub (pteAt h m t i) = some c ∧ (n ∈ subPages h m c k ∨ n = pageOf c ∧ Tracked n) := by
  constructor
  · rintro ⟨ht, i, q, c, hq, hn, rfl⟩
    rw [node_cons_some] at hn
    obtain ⟨d, hd, hn⟩ := hn
    refine ⟨i, d, hd, ?_⟩
    cases q with
    | nil =>
      obtain rfl := Option.some.inj hn
      exact Or.inr ⟨rfl, ht⟩
    | cons j q => exact Or.inl ⟨ht, j, q, c, by simpa using hq, hn, rfl⟩
  · rintro ⟨i, d, hd, ⟨ht, j, q, c, hq, hn, rfl⟩ | ⟨rfl, ht⟩⟩
    · refine ⟨ht, i, j :: q, c, by simpa using hq, ?_, rfl⟩
      rw [node_cons, hd]
      exact hn
    · refine ⟨ht, i, [], d, Nat.succ_pos k, ?_, rfl⟩
      rw [node_cons, hd]
      rfl

/-- One round of a loop over entries that may map large pages. -/
theorem frees_round {f : Word → Pmm → Pmm} {k : ℕ} (hf : ∀ t, Frees (f t) (subPages h m t k))
    (e : Word) : Frees (fun pmm => if e &&& pteP = 0 then pmm else if e &&& ptePS ≠ 0 then pmm
      else pmmFreePage (f (e &&& pteAddrMask) pmm) (e &&& pteAddrMask))
    {n | ∃ c, pteSub e = some c ∧ (n ∈ subPages h m c k ∨ n = pageOf c ∧ Tracked n)} := by
  by_cases hp : e &&& pteP = 0
  · simp only [hp, ↓reduceIte, pteSub]
    exact frees_skip.congr (by simp)
  · by_cases hps : e &&& ptePS = 0
    · simp only [hp, hps, ne_eq, not_true_eq_false, ↓reduceIte, pteSub]
      exact ((hf _).comp (frees_page _)).congr (by simp)
    · simp only [hp, hps, ne_eq, not_false_eq_true, ↓reduceIte, pteSub]
      exact frees_skip.congr (by simp)

theorem pmapFreePd_frees (pd : Word) : Frees (pmapFreePd h m pd) (subPages h m pd 1) := by
  refine (frees_forIdx fun i => frees_round h m (f := fun _ pmm => pmm) (k := 0) (fun t => ?_)
    (pteAt h m pd i)).congr fun n => ?_
  · rw [subPages_zero]
    exact frees_skip
  · rw [mem_subPages_succ, Set.mem_iUnion]
    rfl

theorem pmapFreePdpt_frees (pdpt : Word) :
    Frees (pmapFreePdpt h m pdpt) (subPages h m pdpt 2) := by
  refine (frees_forIdx fun i => frees_round h m (pmapFreePd_frees h m)
    (pteAt h m pdpt i)).congr fun n => ?_
  rw [mem_subPages_succ, Set.mem_iUnion]
  rfl

/-- `pmap_free_tables` gives back the tables that its loops reach, the PML4 included. -/
theorem pmapFreeTables_frees (pml4 : Word) : Frees (pmapFreeTables h m pml4)
    {n | Tracked n ∧ ∃ q t, q.length ≤ 3 ∧ loopTable h m pml4 q = some t ∧ n = pageOf t} := by
  have hround (e : Word) : Frees (fun pmm => if e &&& pteP = 0 then pmm
      else pmmFreePage (pmapFreePdpt h m (e &&& pteAddrMask) pmm) (e &&& pteAddrMask))
      {n | ∃ c, pteTable e = some c ∧ (n ∈ subPages h m c 2 ∨ n = pageOf c ∧ Tracked n)} := by
    by_cases hp : e &&& pteP = 0
    · simp only [hp, ↓reduceIte, pteTable]
      exact frees_skip.congr (by simp)
    · simp only [hp, ↓reduceIte, pteTable]
      exact ((pmapFreePdpt_frees h m _).comp (frees_page _)).congr (by simp)
  refine ((frees_forIdx fun i => hround (pteAt h m pml4 i)).comp (frees_page pml4)).congr fun n => ?_
  rw [Set.mem_union, Set.mem_iUnion]
  constructor
  · rintro (⟨i, c, hc, ⟨ht, j, q, t, hq, hn, rfl⟩ | ⟨rfl, ht⟩⟩ | ⟨rfl, ht⟩)
    · refine ⟨ht, i :: j :: q, t, Nat.succ_le_succ hq, ?_, rfl⟩
      rw [loopTable, hc]
      exact hn
    · refine ⟨ht, [i], c, by simp, ?_, rfl⟩
      rw [loopTable, hc]
      rfl
    · exact ⟨ht, [], pml4, by simp, rfl, rfl⟩
  · rintro ⟨ht, q, t, hq, hn, rfl⟩
    cases q with
    | nil =>
      obtain rfl := Option.some.inj hn
      exact Or.inr ⟨rfl, ht⟩
    | cons i q =>
      rw [loopTable, Option.bind_eq_some_iff] at hn
      obtain ⟨c, hc, hn⟩ := hn
      refine Or.inl ⟨i, c, hc, ?_⟩
      cases q with
      | nil =>
        obtain rfl := Option.some.inj hn
        exact Or.inr ⟨rfl, ht⟩
      | cons j q => exact Or.inl ⟨ht, j, q, t, Nat.le_of_succ_le_succ hq, hn, rfl⟩

end Tables

theorem pteSub_of_small {e : Word} (he : e &&& ptePS = 0) : pteSub e = pteTable e := by
  unfold pteSub pteTable
  split_ifs with h1 h2
  · rfl
  · exact absurd he h2
  · rfl

section Paths

theorem lowerPath_of_length (q0 q : List Idx) (hne : q0 ≠ []) (hlen : q0.length+q.length ≤ 3) :
    Path lowerDom q0 q := by
  induction q generalizing q0 with
  | nil => trivial
  | cons i q ih =>
    rw [List.length_cons] at hlen
    refine ⟨⟨by omega, fun hc => absurd hc hne⟩, ih (q0 ++ [i]) (by simp) ?_⟩
    rw [List.length_append, List.length_singleton]
    omega

theorem lowerPath_length (q0 q : List Idx) (hq : Path lowerDom q0 q) (hlen : q0.length ≤ 3) :
    q0.length+q.length ≤ 3 := by
  induction q generalizing q0 with
  | nil => exact hlen
  | cons i q ih =>
    have hlt := hq.1.1
    have := ih (q0 ++ [i]) hq.2 (by rw [List.length_append, List.length_singleton]; omega)
    rw [List.length_append, List.length_singleton] at this
    rw [List.length_cons]
    omega

theorem lowerPath_cons {i : Idx} {q : List Idx} :
    Path lowerDom [] (i :: q) ↔ i.toNat < 256 ∧ q.length < 3 := by
  constructor
  · intro hq
    have := lowerPath_length [] (i :: q) hq (by simp)
    rw [List.length_cons] at this
    exact ⟨hq.1.2 rfl, by simp only [List.length_nil] at this; omega⟩
  · rintro ⟨hi, hq⟩
    refine ⟨⟨by simp, fun _ => hi⟩, lowerPath_of_length _ q (by simp) ?_⟩
    simp only [List.nil_append, List.length_singleton]
    omega

end Paths

/-- The frames of a pmap: its PML4, the tables of its lower half, and its descriptor. -/
def pmapFrames (h : Hhdm) (s : PmapState) (p : PmapPtr) : Set ℕ :=
  {n | (∃ q t, Path lowerDom [] q ∧ tableAt h s.kmem.mem (s.pmaps p).pml4Phys q = some t ∧
    n = pageOf t) ∨ ∃ pa, p = .page pa ∧ n = pageOf pa}

/-- The frames of the kernel's tables that the loops reach through the upper half. -/
def kernelLoopFrames (h : Hhdm) (s : PmapState) : Set ℕ :=
  {n | ∃ (i : Idx) (q : List Idx) (t : Word), 256 ≤ i.toNat ∧ q.length < 3 ∧
    loopTable h s.kmem.mem (s.pmaps .kernel).pml4Phys (i :: q) = some t ∧ n = pageOf t}

/-- A table or the descriptor of `p`. -/
def Owner.isOf (p : PmapPtr) : Owner → Bool
  | .table p' _ => p' = p
  | .desc p' => p' = p
  | _ => false

/-- The owners when `p` has given back what it owned. -/
def releaseOwner (own : ℕ → Owner) (p : PmapPtr) (n : ℕ) : Owner :=
  if (own n).isOf p then .free else own n

section Owned
variable {h : Hhdm} {own : ℕ → Owner} {s : PmapState} {live : Set PmapPtr} {p : PmapPtr}

/-- No entry above the last level of the lower half is a large page, so the loops reach
what the walks do. -/
theorem PmapInv.loopTable_lower (hI : PmapInv h own s live) (hp : p ∈ live) {q : List Idx}
    (hq : Path lowerDom [] q) : loopTable h s.kmem.mem (s.pmaps p).pml4Phys q =
      tableAt h s.kmem.mem (s.pmaps p).pml4Phys q := by
  cases q with
  | nil => rfl
  | cons i q =>
    rw [loopTable, tableAt, node_cons]
    refine Option.bind_congr fun c hc => ?_
    have hlab := hI.forest _ p [] i c (hI.root p hp) hq.1 hc
    exact hI.forest.node_eq (fun t p' q' j ht hd => pteSub_of_small (hI.small t p' q' j ht hd))
      hlab hq.2

theorem PmapInv.table_of_tableAt (hI : PmapInv h own s live) (hp : p ∈ live) {q : List Idx}
    {t : Word} (hq : Path lowerDom [] q)
    (ht : tableAt h s.kmem.mem (s.pmaps p).pml4Phys q = some t) : own (pageOf t) = .table p q :=
  (tableLab_some.mp (hI.forest.node_lab (hI.root p hp) hq ht)).2

theorem PmapInv.mem_frames (hI : PmapInv h own s live) (hp : p ∈ live) (n : ℕ) :
    n ∈ pmapFrames h s p ↔ (∃ q, own n = .table p q) ∨ own n = .desc p := by
  constructor
  · rintro (⟨q, t, hq, ht, rfl⟩ | ⟨pa, rfl, rfl⟩)
    · exact Or.inl ⟨q, hI.table_of_tableAt hp hq ht⟩
    · obtain ⟨pa', h1, _, h2⟩ := hI.desc _ hp
      cases h1
      exact Or.inr h2
  · rintro (⟨q, hn⟩ | hn)
    · obtain ⟨_, _, _, hq, t, _, hpage, ht⟩ := hI.table n p q hn
      exact Or.inl ⟨q, t, hq, ht, hpage.symm⟩
    · obtain ⟨_, _, _, pa, h1, h2⟩ := hI.descPage n p hn
      exact Or.inr ⟨pa, h1, h2.symm⟩

/-- What dropping the last reference gives back. -/
theorem PmapInv.destroy_free (hI : PmapInv h own s live) {pa : Word} (hp : .page pa ∈ live)
    (href : (s.pmaps (.page pa)).refCount = 1) (n : ℕ) :
    (pmapDestroy h s (.page pa)).kmem.pmm.Free n ↔ s.kmem.pmm.Free n ∨
      (∃ q, own n = .table (.page pa) q) ∨ (n ∈ kernelLoopFrames h s ∧ Tracked n) ∨
      n = pageOf (virtToPhys h pa) ∧ Tracked n := by
  have hzero : ¬ (0 : BitVec 32) < (s.pmaps (.page pa)).refCount-1 := by
    rw [href]
    decide
  have hupper (i : Idx) (q : List Idx) (hi : 256 ≤ i.toNat) :
      loopTable h s.kmem.mem (s.pmaps (.page pa)).pml4Phys (i :: q) =
        loopTable h s.kmem.mem (s.pmaps .kernel).pml4Phys (i :: q) := by
    rw [loopTable, loopTable, hI.kernel.copied _ hp i hi]
  simp only [pmapDestroy, hzero, ↓reduceIte]
  rw [(pmapFreeTables_frees h s.kmem.mem _).comp (frees_page _)]
  refine or_congr_right ?_
  rw [Set.mem_union, ← or_assoc]
  refine or_congr_left ?_
  constructor
  · rintro ⟨ht, q, t, hq, hn, rfl⟩
    cases q with
    | nil =>
      obtain rfl := Option.some.inj hn
      exact Or.inl ⟨[], hI.table_of_tableAt hp trivial rfl⟩
    | cons i q =>
      have hlen : q.length < 3 := hq
      by_cases hi : i.toNat < 256
      · have hpath : Path lowerDom [] (i :: q) := lowerPath_cons.mpr ⟨hi, hlen⟩
        rw [hI.loopTable_lower hp hpath] at hn
        exact Or.inl ⟨_, hI.table_of_tableAt hp hpath hn⟩
      · rw [hupper i q (by omega)] at hn
        exact Or.inr ⟨⟨i, q, t, by omega, hlen, hn, rfl⟩, ht⟩
  · rintro (⟨q, hn⟩ | ⟨⟨i, q, t, hi, hq, hn, rfl⟩, ht⟩)
    · obtain ⟨h1, h2, _, hq, t, _, hpage, ht⟩ := hI.table n _ q hn
      refine ⟨⟨h1, h2⟩, q, t, ?_, ?_, hpage.symm⟩
      · simpa using lowerPath_length [] q hq (by simp)
      · rw [hI.loopTable_lower hp hq]
        exact ht
    · refine ⟨ht, i :: q, t, hq, ?_, rfl⟩
      rw [hupper i q hi]
      exact hn

theorem Owner.isOf_iff {o : Owner} : o.isOf p ↔ (∃ q, o = .table p q) ∨ o = .desc p := by
  cases o <;> simp [Owner.isOf]

theorem releaseOwner_free {n : ℕ} : releaseOwner own p n = .free ↔
    own n = .free ∨ (∃ q, own n = .table p q) ∨ own n = .desc p := by
  rw [releaseOwner, ← Owner.isOf_iff]
  split_ifs with hc <;> simp [hc]

theorem releaseOwner_eq {n : ℕ} {o : Owner} (ho : o ≠ .free) :
    releaseOwner own p n = o ↔ own n = o ∧ ¬ o.isOf p := by
  unfold releaseOwner
  split_ifs with hc
  · refine iff_of_false ho.symm ?_
    rintro ⟨rfl, hn⟩
    exact hn hc
  · refine ⟨?_, And.left⟩
    rintro rfl
    exact ⟨rfl, hc⟩

theorem releaseOwner_table {p' : PmapPtr} {q : List Idx} {n : ℕ} :
    releaseOwner own p n = .table p' q ↔ own n = .table p' q ∧ p' ≠ p := by
  rw [releaseOwner_eq (by simp)]
  simp [Owner.isOf]

theorem releaseOwner_desc {p' : PmapPtr} {n : ℕ} :
    releaseOwner own p n = .desc p' ↔ own n = .desc p' ∧ p' ≠ p := by
  rw [releaseOwner_eq (by simp)]
  simp [Owner.isOf]

/-- When a pmap has given back its frames and no others, the other pmaps are intact. -/
theorem PmapInv.remove (hI : PmapInv h own s live) (hp : p ∈ live) {s' : PmapState}
    (hmem : s'.kmem.mem = s.kmem.mem)
    (hfree : ∀ n, s'.kmem.pmm.Free n ↔ s.kmem.pmm.Free n ∨ n ∈ pmapFrames h s p)
    (hpm : ∀ p', p' ≠ p → s'.pmaps p' = s.pmaps p') :
    PmapInv h (releaseOwner own p) s' (live \ {p}) := by
  obtain ⟨pd, rfl, _, _⟩ := hI.desc p hp
  have hlab (t : Word) (p' : PmapPtr) (q : List Idx) :
      tableLab (releaseOwner own (.page pd)) t = some (p', q) ↔
        tableLab own t = some (p', q) ∧ p' ≠ .page pd := by
    rw [tableLab_some, tableLab_some, releaseOwner_table, and_assoc]
  have hroot (p' : PmapPtr) (hp' : p' ∈ live \ {.page pd}) : s'.pmaps p' = s.pmaps p' := hpm p' hp'.2
  have hker : s'.pmaps .kernel = s.pmaps .kernel := hpm _ (by simp)
  refine ⟨fun h0 => ?_, fun n => ?_, fun t p' q i c ht hd hc => ?_, fun t p' q i ht hd => ?_,
    fun p' hp' => ?_, fun p' hp' => ?_, fun n p' q hn => ?_, fun n p' hn => ?_, ?_⟩
  · rcases (hfree 0).mp h0 with h1 | h1
    · exact hI.pageZero h1
    · rcases (hI.mem_frames hp 0).mp h1 with ⟨q, hn⟩ | hn
      · exact absurd (hI.table 0 _ q hn).1 (by simp)
      · exact absurd (hI.descPage 0 _ hn).1 (by simp)
  · rw [releaseOwner_free, hfree, hI.free, hI.mem_frames hp]
  · obtain ⟨ht, hne⟩ := (hlab t p' q).mp ht
    rw [hmem] at hc
    exact (hlab c p' _).mpr ⟨hI.forest t p' q i c ht hd hc, hne⟩
  · rw [hmem]
    exact hI.small t p' q i ((hlab t p' q).mp ht).1 hd
  · rw [hroot p' hp', hlab]
    exact ⟨hI.root p' hp'.1, hp'.2⟩
  · obtain ⟨pa, h1, h2, h3⟩ := hI.desc p' hp'.1
    exact ⟨pa, h1, h2, releaseOwner_desc.mpr ⟨h3, hp'.2⟩⟩
  · obtain ⟨hn, hne⟩ := releaseOwner_table.mp hn
    obtain ⟨h1, h2, h3, h4, t, h5, h6, h7⟩ := hI.table n p' q hn
    refine ⟨h1, h2, ⟨h3, hne⟩, h4, t, h5, h6, ?_⟩
    rw [hmem, hpm p' hne]
    exact h7
  · obtain ⟨hn, hne⟩ := releaseOwner_desc.mp hn
    obtain ⟨h1, h2, h3, h4⟩ := hI.descPage n p' hn
    exact ⟨h1, h2, ⟨h3, hne⟩, h4⟩
  · refine ⟨?_, ?_, fun p' hp' i hi => ?_⟩
    · rw [hker]
      exact hI.kernel.aligned
    · rw [hker, releaseOwner_eq (by simp)]
      exact ⟨hI.kernel.root, by simp [Owner.isOf]⟩
    · rw [hmem, hker, hroot p' hp']
      exact hI.kernel.copied p' hp'.1 i hi

end Owned

end Dana
