import Dana.Pmm

/-! `pmm_init` and the pages it leaves reserved, and runs of the allocator. -/
namespace Dana
open ByteMem AddrLoop

def limineMemmapUsable : Word := 0

/-- `struct limine_memmap_entry`. -/
structure MemmapEntry where
  base : Word
  length : Word
  type : Word

/-- More rounds than a 64-bit address has values. -/
def addrFuel : ℕ := 2^64

/-- The first USABLE region above 1 MB that fits the bitmap, 0 if there is none. -/
def pmmBitmapRegion : List MemmapEntry → Word
  | [] => 0
  | e :: es =>
    if e.type ≠ limineMemmapUsable then pmmBitmapRegion es
    else
      let start := (e.base+pmmPageSize-1) &&& ~~~(pmmPageSize-1)
      let start := if start < 0x100000 then 0x100000 else start
      if e.base+e.length < start+pmmBitmapBytes then pmmBitmapRegion es else start

/-- The state a loop leaves, whether it ran to its end or broke off. -/
def stateOf {σ : Type*} : Except σ σ → σ
  | .ok s => s
  | .error s => s

/-- Free the pages of one region when it is USABLE. -/
def pmmFreeRegion (e : MemmapEntry) (p : Pmm) : Option Pmm :=
  if e.type ≠ limineMemmapUsable then some p
  else
    let start := (e.base+pmmPageSize-1) &&& ~~~(pmmPageSize-1)
    let stop := (e.base+e.length) &&& ~~~(pmmPageSize-1)
    (forAddr pmmPageSize stop (fun addr (p : Pmm) =>
      let page := pageOf addr
      if pmmMaxPages ≤ page then .error p
      else .ok { bitmap := bitmapClear p.bitmap page
                 totalPages := p.totalPages+1
                 freeCount := p.freeCount+1 }) addrFuel start p).map stateOf

def pmmFreeUsable : List MemmapEntry → Pmm → Option Pmm
  | [], p => some p
  | e :: es, p => (pmmFreeRegion e p).bind (pmmFreeUsable es)

/-- Mark the pages of `[start, stop)`, read in steps of a page, as used. -/
def pmmReserve (start stop : Word) (p : Pmm) : Option Pmm :=
  (forAddr pmmPageSize stop (fun addr (p : Pmm) =>
    let page := pageOf addr
    Except.ok (ε := Pmm) (if page < pmmMaxPages ∧ !bitmapTest p.bitmap page then
      { p with bitmap := bitmapSet p.bitmap page, freeCount := p.freeCount-1 }
    else p)) addrFuel start p).map stateOf

/-- `none` when no region fits the bitmap (FATAL), or a loop does not end. -/
def pmmInit (mmap : List MemmapEntry) (kernPhysStart kernPhysEnd : Word) : Option Pmm :=
  let bitmapPhys := pmmBitmapRegion mmap
  if bitmapPhys = 0 then none
  else
    let p : Pmm := { bitmap := fun _ => BitVec.allOnes 64, totalPages := 0, freeCount := 0 }
    (pmmFreeUsable mmap p).bind fun p =>
    let p := if !bitmapTest p.bitmap 0 then
      { p with bitmap := bitmapSet p.bitmap 0, freeCount := p.freeCount-1 } else p
    (pmmReserve bitmapPhys (bitmapPhys+pmmBitmapBytes) p).bind
      (pmmReserve kernPhysStart kernPhysEnd)

/-- A page that has a byte in `[lo, hi)`. -/
def Overlaps (page lo hi : ℕ) : Prop := lo < 4096*(page+1) ∧ 4096*page < hi

/-- A page wholly inside one region. -/
def MemmapEntry.Holds (e : MemmapEntry) (page : ℕ) : Prop :=
  e.base.toNat ≤ 4096*page ∧ 4096*(page+1) ≤ e.base.toNat+e.length.toNat

def InUsable (mmap : List MemmapEntry) (page : ℕ) : Prop :=
  ∃ e ∈ mmap, e.type = limineMemmapUsable ∧ e.Holds page

/-- What Limine promises of the USABLE regions: they are physical memory. -/
def PhysicalMap (mmap : List MemmapEntry) : Prop :=
  ∀ e ∈ mmap, e.type = limineMemmapUsable → e.base.toNat+e.length.toNat < 2^63

/-- The pages that the reservation of `[start, stop)` visits. -/
def Visited (start stop : Word) (page : ℕ) : Prop :=
  ∃ k, start.toNat+4096*k < stop.toNat ∧ page = (start.toNat+4096*k)/4096

theorem toNat_pageMask (a : Word) :
    (a &&& ~~~(pmmPageSize-1)).toNat = 4096*(a.toNat/4096) := by
  have h : a &&& ~~~(pmmPageSize-1) = (a >>> 12) <<< 12 := by
    apply BitVec.eq_of_getLsbD_eq
    intro i hi
    have hm : (~~~(pmmPageSize-1)).getLsbD i = decide (12 ≤ i) := by
      simp only [pmmPageSize]
      revert i
      decide
    rw [BitVec.getLsbD_and, hm, BitVec.getLsbD_shiftLeft, BitVec.getLsbD_ushiftRight]
    by_cases h12 : 12 ≤ i
    · have : 12+(i-12) = i := by omega
      simp [h12, hi, this]
    · simp [h12]
  rw [h, BitVec.toNat_shiftLeft, BitVec.toNat_ushiftRight, Nat.shiftLeft_eq,
    Nat.shiftRight_eq_div_pow]
  have := a.isLt
  omega

theorem overlaps_visited (start stop : Word) (page : ℕ) (ha : start.toNat%4096 = 0)
    (ho : Overlaps page start.toNat stop.toNat) : Visited start stop page := by
  obtain ⟨h1, h2⟩ := ho
  exact ⟨page-start.toNat/4096, by omega, by omega⟩

/-- Freeing a region frees pages inside it only. -/
theorem pmmFreeRegion_free (e : MemmapEntry) (p p' : Pmm) (h : pmmFreeRegion e p = some p')
    (page : ℕ) (hf : p'.Free page) : p.Free page ∨
      e.type = limineMemmapUsable ∧ (e.base.toNat+e.length.toNat < 2^63 → e.Holds page) := by
  unfold pmmFreeRegion at h
  split_ifs at h with ht
  · obtain rfl := Option.some.inj h
    exact Or.inl hf
  simp only [Option.map_eq_some_iff] at h
  obtain ⟨r, hr, rfl⟩ := h
  have ht' : e.type = limineMemmapUsable := by simpa using ht
  let lo := 4096*((e.base+pmmPageSize-1).toNat/4096)
  let hi := 4096*((e.base+e.length).toNat/4096)
  -- the addresses stay aligned and inside [lo, hi), and so do the freed pages
  let P (p' : Pmm) : Prop := ∀ n, p'.Free n → p.Free n ∨ lo ≤ 4096*n ∧ 4096*(n+1) ≤ hi
  have hP : P (stateOf r) := by
    refine forAddr_inv _ _ _ (fun a p' => a.toNat%4096 = 0 ∧ lo ≤ a.toNat ∧ P p')
      (fun r => P (stateOf r)) ?_ ?_ addrFuel _ p ⟨?_, ?_, fun n hn => Or.inl hn⟩ r hr
    · rintro a s ha ⟨hal, hlo, hs⟩
      rw [BitVec.lt_def, toNat_pageMask] at ha
      have hlt := (e.base+e.length).isLt
      refine ⟨fun s' hs' => ?_, fun r' hr' => ?_⟩
      · split_ifs at hs' with hmax
        obtain rfl := Except.ok.inj hs'
        have hsum : (a+pmmPageSize).toNat = a.toNat+4096 := by
          have h4 : pmmPageSize.toNat = 4096 := rfl
          rw [BitVec.toNat_add, h4, Nat.mod_eq_of_lt (by omega)]
        refine ⟨by omega, by omega, fun n hn => ?_⟩
        have hn' : n < pmmMaxPages ∧
            (!decide (n = pageOf a) && bitmapTest s.bitmap n) = false := by
          simpa only [Pmm.Free, bitmapTest_clear] using hn
        by_cases hna : n = pageOf a
        · right
          rw [pageOf_eq] at hna
          simp only [hi]
          omega
        · exact hs n ⟨hn'.1, by simpa [hna] using hn'.2⟩
      · split_ifs at hr' with hmax
        obtain rfl := Except.error.inj hr'
        exact hs
    · rintro a s _ ⟨_, _, hs⟩
      exact hs
    · rw [toNat_pageMask]; omega
    · rw [toNat_pageMask]
  rcases hP page hf with hp | ⟨h1, h2⟩
  · exact Or.inl hp
  · refine Or.inr ⟨ht', fun hfit => ?_⟩
    have hb : (e.base+pmmPageSize-1).toNat = e.base.toNat+4095 := by
      simp only [pmmPageSize]
      bv_omega
    have hl : (e.base+e.length).toNat = e.base.toNat+e.length.toNat := by bv_omega
    simp only [lo, hi, hb, hl] at h1 h2
    exact ⟨by omega, by omega⟩

theorem pmmFreeUsable_free (mmap : List MemmapEntry) (p p' : Pmm)
    (h : pmmFreeUsable mmap p = some p') (hm : PhysicalMap mmap) (page : ℕ)
    (hf : p'.Free page) : p.Free page ∨ InUsable mmap page := by
  induction mmap generalizing p with
  | nil =>
    obtain rfl := Option.some.inj h
    exact Or.inl hf
  | cons e es ih =>
    obtain ⟨q, hq, hes⟩ := Option.bind_eq_some_iff.mp h
    have hes' : PhysicalMap es := fun e he => hm e (List.mem_cons_of_mem _ he)
    rcases ih q hes hes' with hfq | ⟨e', he', hin⟩
    · rcases pmmFreeRegion_free e p q hq page hfq with hfp | ⟨ht, hin⟩
      · exact Or.inl hfp
      · exact Or.inr ⟨e, List.mem_cons_self, ht, hin (hm e List.mem_cons_self ht)⟩
    · exact Or.inr ⟨e', List.mem_cons_of_mem _ he', hin⟩

/-- A reservation frees nothing, and no page it visits stays free. -/
theorem pmmReserve_free (start stop : Word) (p p' : Pmm)
    (h : pmmReserve start stop p = some p') (page : ℕ) (hf : p'.Free page) :
    p.Free page ∧ ¬ Visited start stop page := by
  unfold pmmReserve at h
  simp only [Option.map_eq_some_iff] at h
  obtain ⟨r, hr, rfl⟩ := h
  -- after j rounds the first j pages are used; a wrapped address has passed them all
  let P (j : ℕ) (p' : Pmm) : Prop := ∀ n, p'.Free n → p.Free n ∧
    ∀ k < j, n ≠ (start.toNat+4096*k)/4096
  let I (a : Word) (p' : Pmm) : Prop := ∃ j, P j p' ∧
    (a.toNat = start.toNat+4096*j ∨ 2^64 ≤ start.toNat+4096*j)
  refine forAddr_inv _ _ _ I (fun r => (stateOf r).Free page → p.Free page ∧
    ¬ Visited start stop page) ?_ ?_ addrFuel _ p
    ⟨0, fun n hn => ⟨hn, by intro k hk; omega⟩, Or.inl (by omega)⟩ r hr hf
  · rintro a s ha ⟨j, hP, hj⟩
    refine ⟨fun s' hs' => ?_, fun r' hr' => by cases hr'⟩
    obtain rfl := Except.ok.inj hs'
    have hmono (n : ℕ) (hn : Pmm.Free (if pageOf a < pmmMaxPages ∧ !bitmapTest s.bitmap (pageOf a)
        then { s with bitmap := bitmapSet s.bitmap (pageOf a), freeCount := s.freeCount-1 }
        else s) n) : s.Free n ∧ n ≠ pageOf a := by
      split_ifs at hn with hc
      · simp only [Pmm.Free, bitmapTest_set, Bool.or_eq_false_iff, decide_eq_false_iff_not] at hn
        exact ⟨⟨hn.1, hn.2.2⟩, hn.2.1⟩
      · refine ⟨hn, fun hna => hc ?_⟩
        rw [← hna]
        exact ⟨hn.1, by simp [hn.2]⟩
    rcases hj with hj | hj
    · refine ⟨j+1, fun n hn => ?_, ?_⟩
      · obtain ⟨hs, hna⟩ := hmono n hn
        refine ⟨(hP n hs).1, fun k hk => ?_⟩
        rcases Nat.lt_succ_iff_lt_or_eq.mp hk with hk | rfl
        · exact (hP n hs).2 k hk
        · rwa [← hj, ← pageOf_eq]
      · have h4 : (a+pmmPageSize).toNat = (a.toNat+4096)%2^64 := by
          rw [BitVec.toNat_add]; rfl
        omega
    · exact ⟨j, fun n hn => hP n (hmono n hn).1, Or.inr hj⟩
  · rintro a s ha ⟨j, hP, hj⟩ hfree
    rw [BitVec.lt_def] at ha
    obtain ⟨h1, h2⟩ := hP page hfree
    refine ⟨h1, ?_⟩
    rintro ⟨k, hk, hpage⟩
    have hstop := stop.isLt
    exact h2 k (by omega) hpage

theorem pmmBitmapRegion_aligned (mmap : List MemmapEntry) :
    (pmmBitmapRegion mmap).toNat%4096 = 0 := by
  induction mmap with
  | nil => rfl
  | cons e es ih =>
    simp only [pmmBitmapRegion]
    split_ifs
    · exact ih
    · exact ih
    · rfl
    · exact ih
    · rw [toNat_pageMask]; omega

/-- `pmm_init` begins with every page marked as used. -/
theorem not_free_allOnes (t c : Word) (n : ℕ) : ¬ Pmm.Free ⟨fun _ => BitVec.allOnes 64, t, c⟩ n := by
  intro hall
  have hlt : bitIdx n < 64 := Nat.mod_lt _ (by decide)
  have hbit := ((free_iff _ _).mp hall).2
  simp only [BitVec.getLsbD_allOnes, hlt, decide_true, Bool.true_eq_false] at hbit

/-- The stages of `pmm_init`: the USABLE regions are freed, then page 0, the bitmap and the
kernel image are taken. -/
theorem pmmInit_stages {mmap : List MemmapEntry} {ks ke : Word} {p : Pmm}
    (h : pmmInit mmap ks ke = some p) : ∃ p1 q p2,
    pmmFreeUsable mmap ⟨fun _ => BitVec.allOnes 64, 0, 0⟩ = some p1 ∧
    (p1.Free 0 ∧ q = ⟨bitmapSet p1.bitmap 0, p1.totalPages, p1.freeCount-1⟩ ∨
      ¬ p1.Free 0 ∧ q = p1) ∧
    pmmReserve (pmmBitmapRegion mmap) (pmmBitmapRegion mmap+pmmBitmapBytes) q = some p2 ∧
    pmmReserve ks ke p2 = some p := by
  unfold pmmInit at h
  simp only at h
  split_ifs at h with hbm
  obtain ⟨p1, h1, h2⟩ := Option.bind_eq_some_iff.mp h
  obtain ⟨p2, h2, h3⟩ := Option.bind_eq_some_iff.mp h2
  refine ⟨p1, _, p2, h1, ?_, h2, h3⟩
  split_ifs with h0
  · exact Or.inl ⟨⟨by decide, by simpa using h0⟩, rfl⟩
  · refine Or.inr ⟨fun hf => h0 ?_, rfl⟩
    simp [hf.2]

/-- The pages that `pmm_init` leaves free: never page 0, the bitmap, the kernel
image or memory that is not USABLE. -/
theorem pmmInit_free (mmap : List MemmapEntry) (ks ke : Word) (p0 : Pmm)
    (h : pmmInit mmap ks ke = some p0) (page : ℕ) (hf : p0.Free page) :
    page ≠ 0 ∧
    ¬ Overlaps page (pmmBitmapRegion mmap).toNat
      ((pmmBitmapRegion mmap).toNat+pmmBitmapBytes.toNat) ∧
    ¬ Visited ks ke page ∧
    (PhysicalMap mmap → InUsable mmap page) := by
  obtain ⟨p1, q, p2, h1, h0, h2, h3⟩ := pmmInit_stages h
  obtain ⟨hf2, hker⟩ := pmmReserve_free _ _ _ _ h3 page hf
  obtain ⟨hf1, hbit⟩ := pmmReserve_free _ _ _ _ h2 page hf2
  have hzero : p1.Free page ∧ page ≠ 0 := by
    rcases h0 with ⟨_, rfl⟩ | ⟨h0, rfl⟩
    · simp only [Pmm.Free, bitmapTest_set, Bool.or_eq_false_iff, decide_eq_false_iff_not] at hf1
      exact ⟨⟨hf1.1, hf1.2.2⟩, hf1.2.1⟩
    · refine ⟨hf1, ?_⟩
      rintro rfl
      exact h0 hf1
  refine ⟨hzero.2, fun ho => hbit ?_, hker, fun hm => ?_⟩
  · have hlt := hf.1
    have hal := pmmBitmapRegion_aligned mmap
    simp only [pmmMaxPages] at hlt
    apply overlaps_visited _ _ _ hal
    have hb : pmmBitmapBytes.toNat = 131072 := rfl
    have hsum : (pmmBitmapRegion mmap+pmmBitmapBytes).toNat =
        (pmmBitmapRegion mmap).toNat+131072 := by
      rw [BitVec.toNat_add, hb, Nat.mod_eq_of_lt]
      have := ho.1
      omega
    rw [hb] at ho
    rwa [hsum]
  · rcases pmmFreeUsable_free mmap _ _ h1 hm page hzero.1 with hall | hin
    · exact absurd hall (not_free_allOnes _ _ page)
    · exact hin

/-- A loop over pages ends when its bound is not in the last page of the space. -/
theorem pageLoop_total {σ : Type*} (start stop : Word) (body : Word → σ → Except σ σ) (s : σ)
    (hs : stop.toNat+4096 ≤ 2^64) :
    ∃ s', (forAddr pmmPageSize stop body addrFuel start s).map stateOf = some s' := by
  have h4 : pmmPageSize.toNat = 4096 := rfl
  obtain ⟨r, hr⟩ := forAddr_terminates pmmPageSize stop body hs addrFuel start s (by
    simp only [addrFuel]
    omega)
  exact ⟨stateOf r, by rw [hr, Option.map_some]⟩

/-- Every loop of `pmm_init` ends, unless the kernel image reaches the last page
of the 64-bit space. -/
theorem pmmInit_total (mmap : List MemmapEntry) (ks ke : Word)
    (hbm : pmmBitmapRegion mmap ≠ 0) (hke : ke.toNat+4096 ≤ 2^64) :
    ∃ p0, pmmInit mmap ks ke = some p0 := by
  have hregion (e : MemmapEntry) (p : Pmm) : ∃ p', pmmFreeRegion e p = some p' := by
    unfold pmmFreeRegion
    split_ifs with ht
    · exact ⟨p, rfl⟩
    · apply pageLoop_total
      have := (e.base+e.length).isLt
      rw [toNat_pageMask]
      omega
  have husable (es : List MemmapEntry) (p : Pmm) : ∃ p', pmmFreeUsable es p = some p' := by
    induction es generalizing p with
    | nil => exact ⟨p, rfl⟩
    | cons e es ih =>
      obtain ⟨q, hq⟩ := hregion e p
      obtain ⟨p', hp'⟩ := ih q
      exact ⟨p', by simp only [pmmFreeUsable, hq, Option.bind_some, hp']⟩
  have hbs : (pmmBitmapRegion mmap+pmmBitmapBytes).toNat+4096 ≤ 2^64 := by
    have hal := pmmBitmapRegion_aligned mmap
    have hb : pmmBitmapBytes.toNat = 131072 := rfl
    have := (pmmBitmapRegion mmap).isLt
    rw [BitVec.toNat_add, hb]
    omega
  unfold pmmInit
  simp only [hbm, ↓reduceIte]
  obtain ⟨p1, h1⟩ := husable mmap ⟨fun _ => BitVec.allOnes 64, 0, 0⟩
  rw [h1, Option.bind_some]
  obtain ⟨p2, h2⟩ : ∃ p2, pmmReserve (pmmBitmapRegion mmap)
      (pmmBitmapRegion mmap+pmmBitmapBytes) (if !bitmapTest p1.bitmap 0 then
        { p1 with bitmap := bitmapSet p1.bitmap 0, freeCount := p1.freeCount-1 } else p1) =
      some p2 := pageLoop_total _ _ _ _ hbs
  rw [h2, Option.bind_some]
  exact pageLoop_total _ _ _ _ hke

/-- Runs of `pmm_alloc_page` and of `pmm_free_page` on pages allocated and not
freed since; the set holds the pages that are allocated. -/
inductive PmmRun (p0 : Pmm) : Pmm → Finset ℕ → Prop
  | start : PmmRun p0 p0 ∅
  | alloc {p : Pmm} {live : Finset ℕ} (h : PmmRun p0 p live) :
    PmmRun p0 (pmmAllocPage p).2 (if (pmmAllocPage p).1 = pmmNull then live
      else insert (pageOf (pmmAllocPage p).1) live)
  | free {p : Pmm} {live : Finset ℕ} (h : PmmRun p0 p live) (paddr : Word)
      (hl : pageOf paddr ∈ live) : PmmRun p0 (pmmFreePage p paddr) (live.erase (pageOf paddr))

/-- Along a run a page is free exactly when it was free at the start and is not
allocated now. -/
theorem pmmRun_free_iff (p0 p : Pmm) (live : Finset ℕ) (h0 : ¬ p0.Free 0)
    (h : PmmRun p0 p live) : (∀ n ∈ live, p0.Free n) ∧ ∀ n, p.Free n ↔ p0.Free n ∧ n ∉ live := by
  induction h with
  | start => simp
  | @alloc p live _ ih =>
    obtain ⟨hlive, hfree⟩ := ih
    have hp0 : ¬ p.Free 0 := fun h => h0 ((hfree 0).mp h).1
    rcases pmmAllocPage_cases p hp0 with ⟨hne, hf, _, _, hiff⟩ | ⟨heq, _, hp⟩
    · simp only [hne, ↓reduceIte, Finset.mem_insert]
      refine ⟨?_, fun n => ?_⟩
      · rintro n (rfl | hn)
        · exact ((hfree _).mp hf).1
        · exact hlive n hn
      · rw [hiff, hfree]
        tauto
    · simp only [heq, ↓reduceIte, hp]
      exact ⟨hlive, hfree⟩
  | @free p live _ paddr hl ih =>
    obtain ⟨hlive, hfree⟩ := ih
    have hpage := hlive _ hl
    have hpos : pageOf paddr ≠ 0 := fun h => h0 (h ▸ hpage)
    refine ⟨fun n hn => hlive n (Finset.mem_of_mem_erase hn), fun n => ?_⟩
    rw [pmmFreePage_free, hfree, Finset.mem_erase]
    constructor
    · rintro (⟨hn, hnl⟩ | ⟨rfl, _⟩)
      · exact ⟨hn, fun h => hnl h.2⟩
      · exact ⟨hpage, fun h => h.1 rfl⟩
    · rintro ⟨hn, hnl⟩
      by_cases hna : n = pageOf paddr
      · exact Or.inr ⟨hna, by omega, hpage.1⟩
      · exact Or.inl ⟨hn, fun h => hnl ⟨hna, h⟩⟩

/-- The allocator hands out the lowest free page, never one that is allocated or
was reserved by `pmm_init`, and fails only when nothing is free. -/
theorem pmm_run_alloc (mmap : List MemmapEntry) (ks ke : Word) (p0 p : Pmm) (live : Finset ℕ)
    (hinit : pmmInit mmap ks ke = some p0) (hrun : PmmRun p0 p live) :
    (∀ n, p.Free n ↔ p0.Free n ∧ n ∉ live) ∧
    (∀ n, p0.Free n → n ≠ 0 ∧
      ¬ Overlaps n (pmmBitmapRegion mmap).toNat
        ((pmmBitmapRegion mmap).toNat+pmmBitmapBytes.toNat) ∧
      (ks.toNat%4096 = 0 → ¬ Overlaps n ks.toNat ke.toNat) ∧
      (PhysicalMap mmap → InUsable mmap n)) ∧
    ((pmmAllocPage p).1 ≠ pmmNull →
      (pmmAllocPage p).1.toNat = 4096*pageOf (pmmAllocPage p).1 ∧
      p0.Free (pageOf (pmmAllocPage p).1) ∧ pageOf (pmmAllocPage p).1 ∉ live ∧
      p.Free (pageOf (pmmAllocPage p).1) ∧
      ∀ m < pageOf (pmmAllocPage p).1, ¬ p.Free m) ∧
    ((pmmAllocPage p).1 = pmmNull ↔ ∀ n, ¬ p.Free n) := by
  have hres := pmmInit_free mmap ks ke p0 hinit
  have h0 : ¬ p0.Free 0 := fun h => (hres 0 h).1 rfl
  have hfree := (pmmRun_free_iff p0 p live h0 hrun).2
  have hp0 : ¬ p.Free 0 := fun h => h0 ((hfree 0).mp h).1
  refine ⟨hfree, fun n hn => ?_, fun hne => ?_, ?_⟩
  · obtain ⟨hz, hb, hk, hu⟩ := hres n hn
    exact ⟨hz, hb, fun ha ho => hk (overlaps_visited ks ke n ha ho), hu⟩
  · rcases pmmAllocPage_cases p hp0 with ⟨_, hf, hnat, hmin, _⟩ | ⟨heq, _⟩
    · exact ⟨hnat, ((hfree _).mp hf).1, ((hfree _).mp hf).2, hf, hmin⟩
    · exact absurd heq hne
  · rcases pmmAllocPage_cases p hp0 with ⟨hne, hf, _⟩ | ⟨heq, hnone, _⟩
    · exact ⟨fun h => absurd h hne, fun h => absurd hf (h _)⟩
    · exact ⟨fun _ => hnone, fun _ => heq⟩

/-- Two allocations after booting with one region: the second page is another one. -/
theorem pmm_run_alloc_twice : ∃ p0,
    pmmInit [⟨0x100000, 0x400000, limineMemmapUsable⟩] 0x200000 0x210000 = some p0 ∧
    ((pmmAllocPage p0).1 ≠ pmmNull → (pmmAllocPage (pmmAllocPage p0).2).1 ≠ pmmNull →
      pageOf (pmmAllocPage (pmmAllocPage p0).2).1 ≠ pageOf (pmmAllocPage p0).1) := by
  obtain ⟨p0, hp0⟩ := pmmInit_total [⟨0x100000, 0x400000, limineMemmapUsable⟩] 0x200000 0x210000
    (by decide) (by decide)
  refine ⟨p0, hp0, fun h1 h2 he => ?_⟩
  have h := ((pmm_run_alloc _ _ _ p0 _ _ hp0 (.alloc .start)).2.2.1 h2).2.2.1
  simp only [h1, ↓reduceIte, Finset.mem_insert, not_or] at h
  exact h.1 he

end Dana
