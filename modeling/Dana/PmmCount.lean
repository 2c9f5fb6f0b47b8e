import Dana.PmmExact
import Dana.Transition

/-! `free_count` over runs of the allocator: what `pmm_init` leaves in it, and what each call
with any address does to it. -/
namespace Dana
open ByteMem AddrLoop Transition

inductive PmmCall
  | allocPage
  | freePage (paddr : Word)

def PmmCall.run (p : Pmm) : PmmCall → Pmm
  | .allocPage => (pmmAllocPage p).2
  | .freePage paddr => pmmFreePage p paddr

def pmmCalls (p : Pmm) (cs : List PmmCall) : Pmm := cs.foldl PmmCall.run p

/-- The call does not free a page that is free already; `pmm_free_page` leaves page 0 alone. -/
def PmmCall.FreesUsed (p : Pmm) : PmmCall → Prop
  | .allocPage => True
  | .freePage paddr => pageOf paddr = 0 ∨ ¬ p.Free (pageOf paddr)

/-- How often the loops over the USABLE regions free a page, and which pages they free. -/
def pagesFreed (mmap : List MemmapEntry) : ℕ := (mmap.map fun e => e.freed.card).sum

def freedPages (mmap : List MemmapEntry) : Finset ℕ :=
  mmap.foldr (fun e pages => e.freed ∪ pages) ∅

/-- `pmm_init` counts each page that it frees once, modulo the 2^64 values of the counter. -/
def FreedOnce (mmap : List MemmapEntry) : Prop :=
  pagesFreed mmap%2^64 = (freedPages mmap).card

theorem pagesFreed_cons (e : MemmapEntry) (es : List MemmapEntry) :
    pagesFreed (e :: es) = e.freed.card+pagesFreed es := rfl

theorem freedPages_cons (e : MemmapEntry) (es : List MemmapEntry) :
    freedPages (e :: es) = e.freed ∪ freedPages es := rfl

theorem MemmapEntry.freed_lt {e : MemmapEntry} {n : ℕ} (hn : n ∈ e.freed) : n < pmmMaxPages := by
  by_cases ht : e.type = limineMemmapUsable
  · exact ((mem_freed ht).mp hn).1
  · rw [freed, if_neg ht] at hn
    exact absurd hn (Finset.notMem_empty n)

theorem card_le_of_tracked {pages : Finset ℕ} (h : ∀ n ∈ pages, n < pmmMaxPages) :
    pages.card ≤ 2^20 := by
  have hsub : pages ⊆ Finset.range pmmMaxPages := fun n hn => Finset.mem_range.mpr (h n hn)
  exact (Finset.card_le_card hsub).trans (Finset.card_range _).le

theorem mem_freedPages {mmap : List MemmapEntry} {n : ℕ} :
    n ∈ freedPages mmap ↔ ∃ e ∈ mmap, n ∈ e.freed := by
  induction mmap with
  | nil => simp [freedPages]
  | cons e es ih => rw [freedPages_cons, Finset.mem_union, ih, List.exists_mem_cons_iff]

theorem freedPages_card_tracked (mmap : List MemmapEntry) : (freedPages mmap).card ≤ 2^20 := by
  refine card_le_of_tracked fun n hn => ?_
  obtain ⟨e, _, hn⟩ := mem_freedPages.mp hn
  exact MemmapEntry.freed_lt hn

theorem freedPages_card_le (mmap : List MemmapEntry) :
    (freedPages mmap).card ≤ pagesFreed mmap := by
  induction mmap with
  | nil => exact le_rfl
  | cons e es ih =>
    have hunion := Finset.card_union_le e.freed (freedPages es)
    rw [freedPages_cons, pagesFreed_cons]
    omega

theorem pagesFreed_le (mmap : List MemmapEntry) : pagesFreed mmap ≤ 2^20*mmap.length := by
  induction mmap with
  | nil => exact le_rfl
  | cons e es ih =>
    have he := card_le_of_tracked fun n (hn : n ∈ e.freed) => MemmapEntry.freed_lt hn
    rw [pagesFreed_cons, List.length_cons]
    omega

/-- No page is counted twice exactly when no page is in two regions. -/
theorem pagesFreed_eq_card {mmap : List MemmapEntry} : pagesFreed mmap = (freedPages mmap).card ↔
    mmap.Pairwise fun e f => Disjoint e.freed f.freed := by
  induction mmap with
  | nil => exact iff_of_true rfl List.Pairwise.nil
  | cons e es ih =>
    have hinter := Finset.card_union_add_card_inter e.freed (freedPages es)
    have hle := freedPages_card_le es
    have hdisj : (∀ f ∈ es, Disjoint e.freed f.freed) ↔ Disjoint e.freed (freedPages es) := by
      simp only [Finset.disjoint_left, mem_freedPages]
      constructor
      · rintro hall n hn ⟨f, hf, hnf⟩
        exact hall f hf hn hnf
      · exact fun hall f hf n hn hnf => hall hn ⟨f, hf, hnf⟩
    rw [List.pairwise_cons, hdisj, ← ih, pagesFreed_cons, freedPages_cons,
      Finset.disjoint_iff_inter_eq_empty, ← Finset.card_eq_zero]
    omega

/-- On a map of fewer than 2^44 regions. -/
theorem freedOnce_iff {mmap : List MemmapEntry} (hlen : mmap.length < 2^44) :
    FreedOnce mmap ↔ mmap.Pairwise fun e f => Disjoint e.freed f.freed := by
  have hle := pagesFreed_le mmap
  rw [FreedOnce, Nat.mod_eq_of_lt (by omega), pagesFreed_eq_card]

/-- How far `free_count` is ahead of the bitmap. -/
def Pmm.drift (p : Pmm) : Word := p.freeCount-BitVec.ofNat 64 p.frames.card

section Drift
variable {p p' : Pmm} {page n : ℕ} {t c : Word} {mmap : List MemmapEntry}

theorem Pmm.counted_iff : p.Counted ↔ p.drift = 0 := by
  have hle := p.frames_card_le
  rw [Counted, drift, sub_eq_zero, ← BitVec.toNat_inj, BitVec.toNat_ofNat,
    Nat.mod_eq_of_lt (by omega)]

theorem Pmm.drift_set (hf : p.Free page) :
    Pmm.drift ⟨bitmapSet p.bitmap page, t, p.freeCount-1⟩ = p.drift := by
  have hcard := @Pmm.frames_take p ⟨bitmapSet p.bitmap page, t, p.freeCount-1⟩ page hf
    fun n => free_bitmapSet
  simp only [Pmm.drift]
  rw [hcard]
  bv_omega

/-- A reservation takes each page out of both. -/
theorem pmmReserve_drift {start stop : Word} (h : pmmReserve start stop p = some p') :
    p'.drift = p.drift := by
  obtain ⟨r, hr, rfl⟩ := Option.map_eq_some_iff.mp h
  refine forAddr_inv _ _ _ (fun _ s => s.drift = p.drift) (fun r => (stateOf r).drift = p.drift)
    ?_ (fun a s _ hs => hs) addrFuel _ p rfl r hr
  rintro a s _ hs
  refine ⟨fun s' hs' => ?_, fun r' hr' => by cases hr'⟩
  obtain rfl := Except.ok.inj hs'
  split_ifs with hfree
  · rw [Pmm.drift_set ⟨hfree.1, by simpa using hfree.2⟩]
    exact hs
  · exact hs

theorem pmmFreeUsable_effect (h : pmmFreeUsable mmap p = some p') :
    (∀ n, p'.Free n ↔ p.Free n ∨ n ∈ freedPages mmap) ∧
      p'.freeCount = p.freeCount+BitVec.ofNat 64 (pagesFreed mmap) := by
  induction mmap generalizing p with
  | nil =>
    obtain rfl := Option.some.inj h
    simp [freedPages, pagesFreed]
  | cons e es ih =>
    obtain ⟨q, hq, hes⟩ := Option.bind_eq_some_iff.mp h
    obtain ⟨hf1, hc1, _⟩ := pmmFreeRegion_effect hq
    obtain ⟨hf2, hc2⟩ := ih hes
    refine ⟨fun n => ?_, ?_⟩
    · rw [hf2, hf1, freedPages_cons, Finset.mem_union, or_assoc]
    · rw [hc2, hc1, pagesFreed_cons, BitVec.ofNat_add, BitVec.add_assoc]

/-- What `pmm_init` leaves: the counter is ahead by the pages it has freed again. -/
theorem pmmInit_drift {ks ke : Word} (h : pmmInit mmap ks ke = some p) :
    p.drift = BitVec.ofNat 64 (pagesFreed mmap)-BitVec.ofNat 64 (freedPages mmap).card := by
  obtain ⟨p1, q, p2, h1, hzero, h2, h3⟩ := pmmInit_stages h
  obtain ⟨hfree, hcount⟩ := pmmFreeUsable_effect h1
  have hcount := hcount.trans (BitVec.zero_add _)
  have hframes : p1.frames = freedPages mmap := by
    ext n
    rw [Pmm.mem_frames, hfree, or_iff_right (not_free_allOnes 0 0 n)]
  rw [pmmReserve_drift h3, pmmReserve_drift h2]
  rcases hzero with ⟨h0, rfl⟩ | ⟨_, rfl⟩
  · rw [Pmm.drift_set h0, Pmm.drift, hframes, hcount]
  · rw [Pmm.drift, hframes, hcount]

theorem pmmInit_counted {ks ke : Word} (h : pmmInit mmap ks ke = some p) :
    p.Counted ↔ FreedOnce mmap := by
  have hcard := freedPages_card_tracked mmap
  rw [Pmm.counted_iff, pmmInit_drift h, sub_eq_zero, ← BitVec.toNat_inj, BitVec.toNat_ofNat,
    BitVec.toNat_ofNat, Nat.mod_eq_of_lt (a := (freedPages mmap).card) (by omega), FreedOnce]

/-- One call keeps the counter exact, unless it frees a page that is free. -/
theorem PmmCall.counted_iff (hc : p.Counted) (c : PmmCall) :
    (c.run p).Counted ↔ c.FreesUsed p := by
  cases c with
  | allocPage =>
    refine iff_of_true ?_ trivial
    rcases pmmAllocPage_spec p with ⟨m, hm, _, he⟩ | ⟨_, he⟩
    · have hpos := Finset.card_pos.mpr ⟨m, Pmm.mem_frames.mpr hm⟩
      have hcount : 0 < p.freeCount := by
        rw [BitVec.lt_def]
        rw [Pmm.Counted] at hc
        exact hc ▸ hpos
      change (pmmAllocPage p).2.Counted
      rw [he, if_pos hcount]
      exact hc.set hm
    · change (pmmAllocPage p).2.Counted
      rw [he]
      exact hc
  | freePage paddr =>
    change (pmmFreePage p paddr).Counted ↔ _ ∨ _
    unfold pmmFreePage
    simp only
    split_ifs with hskip
    · refine iff_of_true hc (hskip.imp_right fun hmax hf => ?_)
      exact absurd hf.1 (Nat.not_lt.mpr hmax)
    rw [not_or, Nat.not_le] at hskip
    rw [or_iff_right hskip.1]
    constructor
    · intro hc' hf
      have hsame : Pmm.frames ⟨bitmapClear p.bitmap (pageOf paddr), p.totalPages,
          p.freeCount+1⟩ = p.frames := by
        ext n
        rw [Pmm.mem_frames, Pmm.mem_frames, free_bitmapClear hskip.2]
        refine ⟨fun hn => hn.elim id fun he => he ▸ hf, Or.inl⟩
      have hle := p.frames_card_le
      simp only [Pmm.Counted, hsame] at hc hc'
      bv_omega
    · exact fun hf => hc.clear hskip.2 hf

theorem MemmapEntry.freed_holds {e : MemmapEntry} (hm : PhysicalMap mmap) (he : e ∈ mmap)
    (hn : n ∈ e.freed) : e.type = limineMemmapUsable ∧ e.Holds n := by
  by_cases ht : e.type = limineMemmapUsable
  · rw [freed_eq_pages ht (hm e he ht)] at hn
    exact ⟨ht, (mem_pages.mp hn).2⟩
  · rw [freed, if_neg ht] at hn
    exact absurd hn (Finset.notMem_empty n)

/-- What Limine promises of its map is enough for `pmm_init`. -/
theorem FreedOnce.of_disjoint (hm : PhysicalMap mmap) (hd : DisjointUsable mmap) :
    FreedOnce mmap := by
  have hpair : mmap.Pairwise fun e f => Disjoint e.freed f.freed := by
    refine (List.Pairwise.and_mem.mp hd).imp fun {e f} hef => ?_
    obtain ⟨he, hf, hap⟩ := hef
    rw [Finset.disjoint_left]
    intro n hne hnf
    obtain ⟨hte, hpe⟩ := MemmapEntry.freed_holds hm he hne
    obtain ⟨htf, hpf⟩ := MemmapEntry.freed_holds hm hf hnf
    apply hap hte htf (4096*n)
    simp only [MemmapEntry.Covers, MemmapEntry.Holds] at *
    omega
  have hcard := freedPages_card_tracked mmap
  rw [FreedOnce, pagesFreed_eq_card.mpr hpair, Nat.mod_eq_of_lt (by omega)]

/-- `pmm_free_pages` is the number of zero bits of the bitmap all along a run after `pmm_init`
exactly when no region frees a page again and no call frees a page that is free. -/
theorem pmm_free_pages_exact {ks ke : Word} (h : pmmInit mmap ks ke = some p)
    (cs : List PmmCall) :
    (∀ pre, pre <+: cs →
      (pmmFreePages (pmmCalls p pre)).toNat = (pmmCalls p pre).frames.card) ↔
    FreedOnce mmap ∧ ∀ pre c, pre ++ [c] <+: cs → c.FreesUsed (pmmCalls p pre) := by
  rw [← pmmInit_counted h]
  exact foldl_always_iff (f := PmmCall.run) (I := fun _ => True) (P := Pmm.Counted) trivial
    (fun _ _ _ => trivial) (fun _ c _ hc => PmmCall.counted_iff hc c) cs

end Drift

theorem twoRegions_init : ∃ p, pmmInit twoRegions 0x200000 0x210800 = some p ∧
    ExactInit twoRegions 0x200000 0x210800 p ∧ FreedOnce twoRegions := by
  obtain ⟨p, hp⟩ := pmmInit_total twoRegions 0x200000 0x210800
    (pmmBitmapRegion_found twoRegions_physical twoRegions_fits) (by decide)
  exact ⟨p, hp, pmmInit_exact twoRegions_physical twoRegions_disjoint rfl (by decide) hp,
    FreedOnce.of_disjoint twoRegions_physical twoRegions_disjoint⟩

/-- Calls with page 0, an address out of range, and an unaligned one in the kernel image. -/
theorem pmm_free_pages_exact_odd : ∃ p, pmmInit twoRegions 0x200000 0x210800 = some p ∧
    ∀ pre, pre <+: [PmmCall.freePage 0x10, .freePage 0xfffffffffffff123, .freePage 0x200123] →
      (pmmFreePages (pmmCalls p pre)).toNat = (pmmCalls p pre).frames.card := by
  obtain ⟨p, hp, hinit, honce⟩ := twoRegions_init
  refine ⟨p, hp, (pmm_free_pages_exact hp _).mpr ⟨honce, fun pre c hpre => ?_⟩⟩
  have hkernel : ¬ p.Free 0x200 := by
    rw [hinit.free]
    rintro ⟨_, _, _, _, hk⟩
    exact hk ⟨by decide, by decide⟩
  rcases pre with _ | ⟨c1, _ | ⟨c2, _ | ⟨c3, pre⟩⟩⟩
  · obtain ⟨rfl, _⟩ := List.cons_prefix_cons.mp hpre
    exact Or.inl (by decide)
  · obtain ⟨_, hpre⟩ := List.cons_prefix_cons.mp hpre
    obtain ⟨rfl, _⟩ := List.cons_prefix_cons.mp hpre
    exact Or.inr fun hf => absurd hf.1 (by decide)
  · obtain ⟨h1, hpre⟩ := List.cons_prefix_cons.mp hpre
    obtain ⟨h2, hpre⟩ := List.cons_prefix_cons.mp hpre
    obtain ⟨rfl, _⟩ := List.cons_prefix_cons.mp hpre
    rw [h1, h2]
    exact Or.inr hkernel
  · have hlen := hpre.length_le
    simp only [List.length_append, List.length_cons, List.length_nil] at hlen
    omega

/-- A page that is allocated and freed twice is counted as two free pages. -/
theorem pmm_free_twice_drifts : PhysicalMap twoRegions ∧ DisjointUsable twoRegions ∧
    ∃ p pa, pmmInit twoRegions 0x200000 0x210800 = some p ∧ (pmmAllocPage p).1 = pa ∧
      pa ≠ pmmNull ∧
      (pmmFreePages (pmmCalls p [.allocPage, .freePage pa, .freePage pa])).toNat ≠
        (pmmCalls p [.allocPage, .freePage pa, .freePage pa]).frames.card := by
  refine ⟨twoRegions_physical, twoRegions_disjoint, ?_⟩
  obtain ⟨p, hp, hinit, honce⟩ := twoRegions_init
  have h0 : ¬ p.Free 0 := fun hf => ((hinit.free 0).mp hf).1 rfl
  rcases pmmAllocPage_cases p h0 with ⟨hne, hfree, _, _, hiff⟩ | ⟨_, hnone, _⟩
  swap
  · -- page 0x300 is free, so the scan finds one
    refine absurd ((hinit.free 0x300).mpr ⟨by decide, by decide, ?_, ?_, ?_⟩) (hnone _)
    · exact ⟨_, List.mem_cons_of_mem _ List.mem_cons_self, rfl, by decide⟩
    · exact fun ho => absurd ho.2 (by decide +kernel)
    · exact fun ho => absurd ho.2 (by decide)
  obtain ⟨pa, hpa⟩ : ∃ pa, (pmmAllocPage p).1 = pa := ⟨_, rfl⟩
  rw [hpa] at hne hfree hiff
  have hpage : pageOf pa ≠ 0 := fun hc => h0 (hc ▸ hfree)
  refine ⟨p, pa, hp, hpa, hne, ?_⟩
  have hc0 : p.Counted := (pmmInit_counted hp).mpr honce
  have hc1 : (PmmCall.run p .allocPage).Counted := (PmmCall.counted_iff hc0 _).mpr trivial
  have hc2 : (pmmFreePage (pmmAllocPage p).2 pa).Counted :=
    (PmmCall.counted_iff hc1 (.freePage pa)).mpr (Or.inr fun hf => ((hiff _).mp hf).2 rfl)
  intro hc3
  rcases (PmmCall.counted_iff hc2 (.freePage pa)).mp hc3 with h | h
  · exact hpage h
  · exact h ((pmmFreePage_free _ pa _).mpr (Or.inr ⟨rfl, Nat.pos_of_ne_zero hpage, hfree.1⟩))

end Dana
