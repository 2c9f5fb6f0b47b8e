import Mathlib.Order.Interval.Finset.Nat
import Dana.PmmInit

/-! The exact set of pages that `pmm_init` leaves free, and its two counters. -/
namespace Dana
open ByteMem AddrLoop

/-- `free_count` is the number of free pages. -/
def Pmm.Counted (p : Pmm) : Prop := p.freeCount.toNat = p.frames.card

section Count
variable {p p' : Pmm} {page n : ℕ} {t c : Word}

theorem free_bitmapSet : Pmm.Free ⟨bitmapSet p.bitmap page, t, c⟩ n ↔ p.Free n ∧ n ≠ page := by
  simp only [Pmm.Free, bitmapTest_set, Bool.or_eq_false_iff, decide_eq_false_iff_not]
  tauto

theorem free_bitmapClear (hp : page < pmmMaxPages) :
    Pmm.Free ⟨bitmapClear p.bitmap page, t, c⟩ n ↔ p.Free n ∨ n = page := by
  simp only [Pmm.Free, bitmapTest_clear, Bool.and_eq_false_iff, Bool.not_eq_false',
    decide_eq_true_eq]
  constructor
  · rintro ⟨hn, rfl | hf⟩
    · exact Or.inr rfl
    · exact Or.inl ⟨hn, hf⟩
  · rintro (⟨hn, hf⟩ | rfl)
    · exact ⟨hn, Or.inr hf⟩
    · exact ⟨hp, Or.inl rfl⟩

theorem Pmm.frames_card_le (p : Pmm) : p.frames.card ≤ 2^20 := by
  have h := Finset.card_filter_le (Finset.range pmmMaxPages) fun n => bitmapTest p.bitmap n = false
  rwa [Finset.card_range] at h

theorem Pmm.Counted.set (hc : p.Counted) (hf : p.Free page) :
    Pmm.Counted ⟨bitmapSet p.bitmap page, t, p.freeCount-1⟩ := by
  have hcard := @Pmm.frames_take p ⟨bitmapSet p.bitmap page, t, p.freeCount-1⟩ page hf
    fun n => free_bitmapSet
  have hle := p.frames_card_le
  simp only [Pmm.Counted] at hc ⊢
  have h1 : (p.freeCount-1).toNat = p.freeCount.toNat-1 := by bv_omega
  omega

theorem Pmm.Counted.clear (hc : p.Counted) (hp : page < pmmMaxPages) (hf : ¬ p.Free page) :
    Pmm.Counted ⟨bitmapClear p.bitmap page, t, p.freeCount+1⟩ := by
  have hcard := @Pmm.frames_take ⟨bitmapClear p.bitmap page, t, p.freeCount+1⟩ p page
    ((free_bitmapClear hp).mpr (Or.inr rfl)) fun n => by
      rw [free_bitmapClear hp]
      constructor
      · intro hn
        exact ⟨Or.inl hn, fun he => hf (he ▸ hn)⟩
      · rintro ⟨hn | rfl, hne⟩
        · exact hn
        · exact absurd rfl hne
  have hle := p.frames_card_le
  simp only [Pmm.Counted] at hc ⊢
  have h1 : (p.freeCount+1).toNat = p.freeCount.toNat+1 := by bv_omega
  omega

end Count

/-- An address of the region. -/
def MemmapEntry.Covers (e : MemmapEntry) (a : ℕ) : Prop :=
  e.base.toNat ≤ a ∧ a < e.base.toNat+e.length.toNat

/-- No address is in two USABLE regions. -/
def DisjointUsable (mmap : List MemmapEntry) : Prop :=
  mmap.Pairwise fun e f => e.type = limineMemmapUsable → f.type = limineMemmapUsable →
    ∀ a, ¬ (e.Covers a ∧ f.Covers a)

/-- A USABLE region with room for the bitmap at a page of it at or above 1 MB. -/
def MemmapEntry.FitsBitmap (e : MemmapEntry) : Prop :=
  e.type = limineMemmapUsable ∧ ∃ page, 0x100000 ≤ 4096*page ∧ e.base.toNat ≤ 4096*page ∧
    4096*page+pmmBitmapBytes.toNat ≤ e.base.toNat+e.length.toNat

instance (e : MemmapEntry) (page : ℕ) : Decidable (e.Holds page) :=
  inferInstanceAs (Decidable (_ ∧ _))

instance (mmap : List MemmapEntry) (page : ℕ) : Decidable (InUsable mmap page) :=
  inferInstanceAs (Decidable (∃ e ∈ mmap, _ ∧ _))

/-- The tracked pages wholly inside the region. -/
def MemmapEntry.pages (e : MemmapEntry) : Finset ℕ := (Finset.range pmmMaxPages).filter e.Holds

/-- The tracked pages wholly inside a USABLE region. -/
def usablePages (mmap : List MemmapEntry) : Finset ℕ :=
  (Finset.range pmmMaxPages).filter (InUsable mmap)

section Init
variable {e : MemmapEntry} {mmap : List MemmapEntry} {p p' : Pmm} {n : ℕ}

theorem MemmapEntry.mem_pages : n ∈ e.pages ↔ n < pmmMaxPages ∧ e.Holds n := by
  rw [MemmapEntry.pages, Finset.mem_filter, Finset.mem_range]

theorem mem_usablePages : n ∈ usablePages mmap ↔ n < pmmMaxPages ∧ InUsable mmap n := by
  rw [usablePages, Finset.mem_filter, Finset.mem_range]

/-- The pages that the loop over a region frees, as the code rounds its ends. -/
def MemmapEntry.freed (e : MemmapEntry) : Finset ℕ :=
  if e.type = limineMemmapUsable then (Finset.range pmmMaxPages).filter fun n =>
    (e.base+pmmPageSize-1).toNat/4096 ≤ n ∧ n < (e.base+e.length).toNat/4096
  else ∅

theorem MemmapEntry.mem_freed (ht : e.type = limineMemmapUsable) : n ∈ e.freed ↔
    n < pmmMaxPages ∧ (e.base+pmmPageSize-1).toNat/4096 ≤ n ∧
      n < (e.base+e.length).toNat/4096 := by
  rw [freed, if_pos ht, Finset.mem_filter, Finset.mem_range]

/-- The loop over a region has seen all its pages when it ends, or comes to an untracked one. -/
theorem MemmapEntry.freed_eq (ht : e.type = limineMemmapUsable) {lo hi k : ℕ}
    (hlo : (e.base+pmmPageSize-1).toNat/4096 = lo) (hhi : (e.base+e.length).toNat/4096 = hi)
    (hk : k = 0 ∨ lo+k ≤ hi ∧ lo+k ≤ pmmMaxPages) (hend : hi ≤ lo+k ∨ pmmMaxPages ≤ lo+k) :
    e.freed = Finset.Ico lo (lo+k) := by
  ext n
  rw [mem_freed ht, Finset.mem_Ico]
  omega

/-- The pages of a region become free, and are counted twice. -/
theorem pmmFreeRegion_effect (h : pmmFreeRegion e p = some p') :
    (∀ n, p'.Free n ↔ p.Free n ∨ n ∈ e.freed) ∧
      p'.freeCount = p.freeCount+BitVec.ofNat 64 e.freed.card ∧
      p'.totalPages = p.totalPages+BitVec.ofNat 64 e.freed.card := by
  by_cases ht : e.type = limineMemmapUsable
  swap
  · rw [pmmFreeRegion, if_pos ht] at h
    obtain rfl := Option.some.inj h
    simp [MemmapEntry.freed, ht]
  rw [pmmFreeRegion, if_neg (not_not_intro ht)] at h
  obtain ⟨r, hr, rfl⟩ := Option.map_eq_some_iff.mp h
  have h4 : pmmPageSize.toNat = 4096 := rfl
  obtain ⟨lo, hlo⟩ : ∃ lo, (e.base+pmmPageSize-1).toNat/4096 = lo := ⟨_, rfl⟩
  obtain ⟨hi, hhi⟩ : ∃ hi, (e.base+e.length).toNat/4096 = hi := ⟨_, rfl⟩
  have hlt := (e.base+e.length).isLt
  -- after k rounds the first k pages from lo on are free
  let I (a : Word) (s : Pmm) : Prop := ∃ k, a.toNat = 4096*(lo+k) ∧
    (k = 0 ∨ lo+k ≤ hi ∧ lo+k ≤ pmmMaxPages) ∧
    (∀ n, s.Free n ↔ p.Free n ∨ n ∈ Finset.Ico lo (lo+k)) ∧
    s.freeCount = p.freeCount+BitVec.ofNat 64 k ∧ s.totalPages = p.totalPages+BitVec.ofNat 64 k
  have hdone (s : Pmm) (k : ℕ) (hk : k = 0 ∨ lo+k ≤ hi ∧ lo+k ≤ pmmMaxPages)
      (hend : hi ≤ lo+k ∨ pmmMaxPages ≤ lo+k)
      (hs : (∀ n, s.Free n ↔ p.Free n ∨ n ∈ Finset.Ico lo (lo+k)) ∧
        s.freeCount = p.freeCount+BitVec.ofNat 64 k ∧
        s.totalPages = p.totalPages+BitVec.ofNat 64 k) :
      (∀ n, s.Free n ↔ p.Free n ∨ n ∈ e.freed) ∧
        s.freeCount = p.freeCount+BitVec.ofNat 64 e.freed.card ∧
        s.totalPages = p.totalPages+BitVec.ofNat 64 e.freed.card := by
    rw [MemmapEntry.freed_eq ht hlo hhi hk hend, Nat.card_Ico, Nat.add_sub_cancel_left]
    exact hs
  refine forAddr_inv _ _ _ I (fun r => (∀ n, (stateOf r).Free n ↔ p.Free n ∨ n ∈ e.freed) ∧
    (stateOf r).freeCount = p.freeCount+BitVec.ofNat 64 e.freed.card ∧
    (stateOf r).totalPages = p.totalPages+BitVec.ofNat 64 e.freed.card)
    ?_ ?_ addrFuel _ p ⟨0, ?_, Or.inl rfl, ?_, ?_, ?_⟩ r hr
  · rintro a s ha ⟨k, hak, hk, hs, hcs, hts⟩
    rw [BitVec.lt_def, toNat_pageMask, hhi] at ha
    have hpage : pageOf a = lo+k := by rw [pageOf_eq]; omega
    refine ⟨fun s' hs' => ?_, fun r' hr' => ?_⟩
    · dsimp only at hs'
      split_ifs at hs' with hmax
      obtain rfl := Except.ok.inj hs'
      rw [hpage] at hmax ⊢
      have hsum : (a+pmmPageSize).toNat = a.toNat+4096 := by
        rw [BitVec.toNat_add, h4, Nat.mod_eq_of_lt (by omega)]
      refine ⟨k+1, by omega, by omega, fun n => ?_, ?_, ?_⟩
      · rw [free_bitmapClear (by omega), hs, Finset.mem_Ico, Finset.mem_Ico, or_assoc]
        exact or_congr_right (by omega)
      · rw [hcs]
        bv_omega
      · rw [hts]
        bv_omega
    · dsimp only at hr'
      split_ifs at hr' with hmax
      obtain rfl := Except.error.inj hr'
      exact hdone _ k hk (Or.inr (by omega)) ⟨hs, hcs, hts⟩
  · rintro a s ha ⟨k, hak, hk, hs⟩
    rw [BitVec.lt_def, toNat_pageMask, hhi] at ha
    exact hdone s k hk (Or.inl (by omega)) hs
  · rw [toNat_pageMask, hlo, Nat.add_zero]
  · simp
  · simp
  · simp

/-- Where a region's end does not wrap, the code frees the pages wholly inside it. -/
theorem MemmapEntry.freed_eq_pages (ht : e.type = limineMemmapUsable)
    (hfit : e.base.toNat+e.length.toNat < 2^63) : e.freed = e.pages := by
  have hb : (e.base+pmmPageSize-1).toNat = e.base.toNat+4095 := by
    simp only [pmmPageSize]
    bv_omega
  have hl : (e.base+e.length).toNat = e.base.toNat+e.length.toNat := by bv_omega
  ext n
  rw [mem_freed ht, mem_pages, Holds, hb, hl]
  omega

/-- Where none of them was free, the counter of free pages stays exact. -/
theorem pmmFreeRegion_spec (ht : e.type = limineMemmapUsable)
    (hfit : e.base.toNat+e.length.toNat < 2^63) (hnew : ∀ n ∈ e.pages, ¬ p.Free n)
    (hc : p.Counted) (h : pmmFreeRegion e p = some p') :
    (∀ n, p'.Free n ↔ p.Free n ∨ n ∈ e.pages) ∧ p'.Counted ∧
      p'.totalPages = p.totalPages+BitVec.ofNat 64 e.pages.card := by
  obtain ⟨hfree, hcount, htotal⟩ := pmmFreeRegion_effect h
  rw [MemmapEntry.freed_eq_pages ht hfit] at hfree hcount htotal
  refine ⟨hfree, ?_, htotal⟩
  have hframes : p'.frames = p.frames ∪ e.pages := by
    ext n
    rw [Finset.mem_union, Pmm.mem_frames, Pmm.mem_frames, hfree]
  have hdisj : Disjoint p.frames e.pages := Finset.disjoint_left.mpr fun n hn hin =>
    hnew n hin (Pmm.mem_frames.mp hn)
  have hcard : p'.frames.card = p.frames.card+e.pages.card := by
    rw [hframes, Finset.card_union_of_disjoint hdisj]
  have hle := p'.frames_card_le
  rw [Pmm.Counted] at hc ⊢
  rw [hcount, BitVec.toNat_add, BitVec.toNat_ofNat, hc]
  omega

theorem DisjointUsable.pages_disjoint {es : List MemmapEntry} (hd : DisjointUsable (e :: es))
    (ht : e.type = limineMemmapUsable) : Disjoint e.pages (usablePages es) := by
  rw [Finset.disjoint_left]
  intro n hn hin
  obtain ⟨f, hf, htf, hhf⟩ := (mem_usablePages.mp hin).2
  have he := (MemmapEntry.mem_pages.mp hn).2
  apply (List.pairwise_cons.mp hd).1 f hf ht htf (4096*n)
  simp only [MemmapEntry.Covers, MemmapEntry.Holds] at *
  omega

theorem usablePages_cons (ht : e.type = limineMemmapUsable) (es : List MemmapEntry) :
    usablePages (e :: es) = e.pages ∪ usablePages es := by
  ext n
  simp only [Finset.mem_union, mem_usablePages, MemmapEntry.mem_pages, InUsable,
    List.exists_mem_cons_iff, ht, true_and]
  exact and_or_left

theorem usablePages_skip (ht : e.type ≠ limineMemmapUsable) (es : List MemmapEntry) :
    usablePages (e :: es) = usablePages es := by
  ext n
  simp only [mem_usablePages, InUsable, List.exists_mem_cons_iff, ht, false_and, false_or]

/-- The loop over the regions frees their pages, and counts each of them once. -/
theorem pmmFreeUsable_spec (hm : PhysicalMap mmap) (hd : DisjointUsable mmap)
    (hnew : ∀ n ∈ usablePages mmap, ¬ p.Free n) (hc : p.Counted)
    (h : pmmFreeUsable mmap p = some p') :
    (∀ n, p'.Free n ↔ p.Free n ∨ n ∈ usablePages mmap) ∧ p'.Counted ∧
      p'.totalPages = p.totalPages+BitVec.ofNat 64 (usablePages mmap).card := by
  induction mmap generalizing p with
  | nil =>
    obtain rfl := Option.some.inj h
    have hnone : usablePages [] = ∅ := Finset.filter_false_of_mem fun n _ => by simp [InUsable]
    simp [hnone, hc]
  | cons e es ih =>
    obtain ⟨q, hq, hes⟩ := Option.bind_eq_some_iff.mp h
    have hm' : PhysicalMap es := fun f hf => hm f (List.mem_cons_of_mem _ hf)
    have hd' : DisjointUsable es := (List.pairwise_cons.mp hd).2
    by_cases ht : e.type = limineMemmapUsable
    · have hdisj := hd.pages_disjoint ht
      rw [usablePages_cons ht] at hnew ⊢
      obtain ⟨hf1, hc1, ht1⟩ := pmmFreeRegion_spec ht (hm e List.mem_cons_self ht)
        (fun n hn => hnew n (Finset.mem_union_left _ hn)) hc hq
      have hnew' : ∀ n ∈ usablePages es, ¬ q.Free n := by
        intro n hn
        rw [hf1, not_or]
        exact ⟨hnew n (Finset.mem_union_right _ hn), Finset.disjoint_right.mp hdisj hn⟩
      obtain ⟨hf2, hc2, ht2⟩ := ih hm' hd' hnew' hc1 hes
      refine ⟨fun n => ?_, hc2, ?_⟩
      · rw [hf2, hf1, Finset.mem_union, or_assoc]
      · rw [ht2, ht1, Finset.card_union_of_disjoint hdisj, BitVec.ofNat_add, BitVec.add_assoc]
    · rw [pmmFreeRegion, if_pos ht] at hq
      obtain rfl := Option.some.inj hq
      rw [usablePages_skip ht] at hnew ⊢
      exact ih hm' hd' hnew hc hes

/-- A reservation takes the pages that it visits, and no other. -/
theorem pmmReserve_spec {start stop : Word}
    (hstop : stop.toNat+4096 ≤ 2^64) (hc : p.Counted)
    (h : pmmReserve start stop p = some p') :
    (∀ n, p'.Free n ↔ p.Free n ∧ ¬ Visited start stop n) ∧ p'.Counted ∧
      p'.totalPages = p.totalPages := by
  obtain ⟨r, hr, rfl⟩ := Option.map_eq_some_iff.mp h
  have h4 : pmmPageSize.toNat = 4096 := rfl
  -- after j rounds, all below stop, the first j pages are used
  let I (a : Word) (s : Pmm) : Prop := ∃ j, a.toNat = start.toNat+4096*j ∧
    (j = 0 ∨ start.toNat+4096*(j-1) < stop.toNat) ∧
    (∀ n, s.Free n ↔ p.Free n ∧ ∀ k < j, n ≠ (start.toNat+4096*k)/4096) ∧ s.Counted ∧
    s.totalPages = p.totalPages
  refine forAddr_inv _ _ _ I (fun r => (∀ n, (stateOf r).Free n ↔ p.Free n ∧
    ¬ Visited start stop n) ∧ (stateOf r).Counted ∧ (stateOf r).totalPages = p.totalPages)
    ?_ ?_ addrFuel _ p ⟨0, by omega, Or.inl rfl, by simp, hc, rfl⟩ r hr
  · rintro a s ha ⟨j, haj, hj, hs, hcs, hts⟩
    refine ⟨fun s' hs' => ?_, fun r' hr' => by cases hr'⟩
    obtain rfl := Except.ok.inj hs'
    have ha' := ha
    rw [BitVec.lt_def] at ha'
    have hsum : (a+pmmPageSize).toNat = a.toNat+4096 := by
      rw [BitVec.toNat_add, h4, Nat.mod_eq_of_lt (by omega)]
    have hpage : pageOf a = (start.toNat+4096*j)/4096 := by rw [pageOf_eq, haj]
    have hlast (n : ℕ) : (∀ k < j+1, n ≠ (start.toNat+4096*k)/4096) ↔
        (∀ k < j, n ≠ (start.toNat+4096*k)/4096) ∧ n ≠ pageOf a := by
      rw [hpage]
      exact Nat.forall_lt_succ_right
    have hnext : (a+pmmPageSize).toNat = start.toNat+4096*(j+1) := by
      rw [hsum, haj, Nat.mul_add, Nat.mul_one, Nat.add_assoc]
    refine ⟨j+1, hnext, Or.inr (by rw [Nat.add_sub_cancel, ← haj]; exact ha'), fun n => ?_, ?_, ?_⟩
    · rw [hlast, ← and_assoc, ← hs]
      split_ifs with hfree
      · exact free_bitmapSet
      · rw [iff_self_and]
        rintro hn rfl
        exact hfree ⟨hn.1, by simp [hn.2]⟩
    · split_ifs with hfree
      · exact hcs.set ⟨hfree.1, by simpa using hfree.2⟩
      · exact hcs
    · split_ifs <;> exact hts
  · rintro a s ha ⟨j, haj, hj, hs, hcs, hts⟩
    rw [BitVec.lt_def] at ha
    refine ⟨fun n => ?_, hcs, hts⟩
    rw [stateOf, hs, Visited]
    push Not
    refine and_congr_right fun _ => ⟨fun hall k hk => hall k (by omega), fun hall k hk =>
      hall k (by omega)⟩

theorem visited_iff {start stop : Word} (ha : start.toNat%4096 = 0) :
    Visited start stop n ↔ Overlaps n start.toNat stop.toNat := by
  refine ⟨?_, overlaps_visited start stop n ha⟩
  rintro ⟨k, hk, rfl⟩
  exact ⟨by omega, by omega⟩

/-- What the search does at a USABLE region: its first page at or above 1 MB is taken when the
bitmap fits there. -/
theorem pmmBitmapRegion_cons (ht : e.type = limineMemmapUsable)
    (hfit : e.base.toNat+e.length.toNat < 2^63) (es : List MemmapEntry) {start : ℕ}
    (hstart : start = max (4096*((e.base.toNat+4095)/4096)) 0x100000) :
    (e.base.toNat+e.length.toNat < start+131072 ∧
      pmmBitmapRegion (e :: es) = pmmBitmapRegion es) ∨
    start+131072 ≤ e.base.toNat+e.length.toNat ∧ (pmmBitmapRegion (e :: es)).toNat = start := by
  have hb : (e.base+pmmPageSize-1).toNat = e.base.toNat+4095 := by
    simp only [pmmPageSize]
    bv_omega
  have hl : (e.base+e.length).toNat = e.base.toNat+e.length.toNat := by bv_omega
  have hbytes : pmmBitmapBytes.toNat = 131072 := rfl
  have hmega : (0x100000 : Word).toNat = 0x100000 := rfl
  have hmask := toNat_pageMask (e.base+pmmPageSize-1)
  rw [hb] at hmask
  have heq : pmmBitmapRegion (e :: es) =
      let start := (e.base+pmmPageSize-1) &&& ~~~(pmmPageSize-1)
      let start := if start < 0x100000 then 0x100000 else start
      if e.base+e.length < start+pmmBitmapBytes then pmmBitmapRegion es else start := by
    simp only [pmmBitmapRegion, ht, ne_eq, not_true_eq_false, ↓reduceIte]
  generalize (e.base+pmmPageSize-1) &&& ~~~(pmmPageSize-1) = a at hmask heq
  simp only at heq
  have hmax : (if a < 0x100000 then 0x100000 else a).toNat = start := by
    split_ifs with hlow <;> rw [BitVec.lt_def, hmask, hmega] at hlow <;> omega
  generalize (if a < 0x100000 then 0x100000 else a) = first at hmax heq
  have hsum : (first+pmmBitmapBytes).toNat = start+131072 := by
    rw [BitVec.toNat_add, hbytes, Nat.mod_eq_of_lt (by omega), hmax]
  split_ifs at heq with hroom <;> rw [BitVec.lt_def, hl, hsum] at hroom
  · exact Or.inl ⟨hroom, heq⟩
  · exact Or.inr ⟨by omega, by rw [heq, hmax]⟩

theorem pmmBitmapRegion_skip (ht : e.type ≠ limineMemmapUsable) (es : List MemmapEntry) :
    pmmBitmapRegion (e :: es) = pmmBitmapRegion es := by
  simp only [pmmBitmapRegion, ht, ne_eq, not_false_eq_true, ↓reduceIte]

theorem PhysicalMap.tail {es : List MemmapEntry} (hm : PhysicalMap (e :: es)) : PhysicalMap es :=
  fun f hf => hm f (List.mem_cons_of_mem _ hf)

/-- The bitmap lies in a region, and its end does not wrap. -/
theorem pmmBitmapRegion_fits (hm : PhysicalMap mmap) : (pmmBitmapRegion mmap).toNat < 2^63 := by
  induction mmap with
  | nil => decide
  | cons e es ih =>
    by_cases ht : e.type = limineMemmapUsable
    · have hfit := hm e List.mem_cons_self ht
      rcases pmmBitmapRegion_cons ht hfit es rfl with ⟨_, heq⟩ | ⟨hroom, heq⟩
      · rw [heq]
        exact ih hm.tail
      · omega
    · rw [pmmBitmapRegion_skip ht]
      exact ih hm.tail

/-- Where a USABLE region has room for the bitmap, one is found. -/
theorem pmmBitmapRegion_found (hm : PhysicalMap mmap) (hfit : ∃ e ∈ mmap, e.FitsBitmap) :
    pmmBitmapRegion mmap ≠ 0 := by
  induction mmap with
  | nil => simp at hfit
  | cons e es ih =>
    obtain ⟨f, hf, hfits⟩ := hfit
    rcases List.mem_cons.mp hf with rfl | hf
    · obtain ⟨ht, page, hlow, hbase, hend⟩ := hfits
      have hbytes : pmmBitmapBytes.toNat = 131072 := rfl
      rcases pmmBitmapRegion_cons ht (hm f List.mem_cons_self ht) es rfl with ⟨hno, _⟩ | ⟨_, heq⟩
      · omega
      · intro h0
        rw [h0] at heq
        change 0 = _ at heq
        omega
    · have hes := ih hm.tail ⟨f, hf, hfits⟩
      by_cases ht : e.type = limineMemmapUsable
      · rcases pmmBitmapRegion_cons ht (hm e List.mem_cons_self ht) es rfl with ⟨_, heq⟩ | ⟨_, heq⟩
        · rwa [heq]
        · intro h0
          rw [h0] at heq
          change 0 = _ at heq
          omega
      · rwa [pmmBitmapRegion_skip ht]

/-- A reservation whose end is in the last page of the 64-bit space never ends: the address
wraps round before it gets there. -/
theorem pmmReserve_diverges {start stop : Word} (ha : start.toNat%4096 = 0)
    (hstop : 2^64 < stop.toNat+4096) (p : Pmm) :
    pmmReserve start stop p = none := by
  have h4 : pmmPageSize.toNat = 4096 := rfl
  rw [pmmReserve, Option.map_eq_none_iff]
  apply forAddr_diverges _ _ _ fun a => a.toNat%4096 = 0
  · intro a hal
    have := a.isLt
    rw [BitVec.lt_def, BitVec.toNat_add, h4]
    omega
  · intro a s
    exact ⟨_, rfl⟩
  · exact ha

theorem pmmInit_diverges {ks ke : Word} (hks : ks.toNat%4096 = 0) (hke : 2^64 < ke.toNat+4096)
    (mmap : List MemmapEntry) : pmmInit mmap ks ke = none := by
  unfold pmmInit
  simp only
  split_ifs with hbm
  · rfl
  rw [Option.bind_eq_none_iff]
  intro p1 _
  rw [Option.bind_eq_none_iff]
  intro p2 _
  exact pmmReserve_diverges hks hke p2

/-- What `pmm_init` is for: the free pages are the tracked USABLE ones but page 0, the bitmap and
the kernel image, and the counters count them. -/
structure ExactInit (mmap : List MemmapEntry) (ks ke : Word) (p : Pmm) : Prop where
  free : ∀ n, p.Free n ↔ n ≠ 0 ∧ n < 2^20 ∧ InUsable mmap n ∧
    ¬ Overlaps n (pmmBitmapRegion mmap).toNat ((pmmBitmapRegion mmap).toNat+131072) ∧
    ¬ Overlaps n ks.toNat ke.toNat
  freeCount : p.freeCount.toNat = p.frames.card
  totalPages : p.totalPages.toNat = (usablePages mmap).card

theorem usablePages_card_lt : (usablePages mmap).card < 2^64 := by
  have h := Finset.card_filter_le (Finset.range pmmMaxPages) (InUsable mmap)
  rw [Finset.card_range, pmmMaxPages] at h
  exact lt_of_le_of_lt h (by decide)

theorem pmmInit_exact {ks ke : Word} (hm : PhysicalMap mmap) (hd : DisjointUsable mmap)
    (hks : ks.toNat%4096 = 0) (hke : ke.toNat+4096 ≤ 2^64)
    (h : pmmInit mmap ks ke = some p) : ExactInit mmap ks ke p := by
  obtain ⟨p1, q, p2, h1, hzero, h2, h3⟩ := pmmInit_stages h
  have hused := not_free_allOnes 0 0
  have hc0 : Pmm.Counted ⟨fun _ => BitVec.allOnes 64, 0, 0⟩ := (Pmm.frames_empty hused).symm
  obtain ⟨hf1, hc1, ht1⟩ := pmmFreeUsable_spec hm hd (fun n _ => hused n) hc0 h1
  obtain ⟨hfq, hcq, htq⟩ : (∀ n, q.Free n ↔ p1.Free n ∧ n ≠ 0) ∧ q.Counted ∧
      q.totalPages = p1.totalPages := by
    rcases hzero with ⟨h0, rfl⟩ | ⟨h0, rfl⟩
    · exact ⟨fun n => free_bitmapSet, hc1.set h0, rfl⟩
    · refine ⟨fun n => ?_, hc1, rfl⟩
      rw [iff_self_and]
      rintro hn rfl
      exact h0 hn
  have hal := pmmBitmapRegion_aligned mmap
  have hfits := pmmBitmapRegion_fits hm
  have hbytes : pmmBitmapBytes.toNat = 131072 := rfl
  have hsum : (pmmBitmapRegion mmap+pmmBitmapBytes).toNat = (pmmBitmapRegion mmap).toNat+131072 := by
    rw [BitVec.toNat_add, hbytes, Nat.mod_eq_of_lt (by omega)]
  obtain ⟨hf2, hc2, ht2⟩ := pmmReserve_spec (by rw [hsum]; omega) hcq h2
  obtain ⟨hf3, hc3, ht3⟩ := pmmReserve_spec hke hc2 h3
  refine ⟨fun n => ?_, hc3, ?_⟩
  · rw [hf3, hf2, hfq, hf1, visited_iff hal, visited_iff hks, hsum, mem_usablePages, pmmMaxPages]
    constructor
    · rintro ⟨⟨⟨hall | ⟨hlt, hin⟩, hz⟩, hb⟩, hk⟩
      · exact absurd hall (hused n)
      · exact ⟨hz, hlt, hin, hb, hk⟩
    · rintro ⟨hz, hlt, hin, hb, hk⟩
      exact ⟨⟨⟨Or.inr ⟨hlt, hin⟩, hz⟩, hb⟩, hk⟩
  · have htotal : p.totalPages = 0+BitVec.ofNat 64 (usablePages mmap).card := by
      rw [ht3, ht2, htq, ht1]
    rw [htotal, BitVec.toNat_add, BitVec.toNat_ofNat, Nat.mod_eq_of_lt usablePages_card_lt]
    exact (congrArg (·%2^64) (Nat.zero_add _)).trans (Nat.mod_eq_of_lt usablePages_card_lt)

/-- `pmm_init` ends with exactly the free set and the counters that it should, unless the kernel
image ends in the last page of the 64-bit space, where it does not end. -/
theorem pmmInit_exact_iff (mmap : List MemmapEntry) (ks ke : Word) (hm : PhysicalMap mmap)
    (hd : DisjointUsable mmap) (hfit : ∃ e ∈ mmap, e.FitsBitmap) (hks : ks.toNat%4096 = 0) :
    (∃ p, pmmInit mmap ks ke = some p ∧ ExactInit mmap ks ke p) ↔ ke.toNat+4096 ≤ 2^64 := by
  constructor
  · rintro ⟨p, hp, _⟩
    by_contra hke
    rw [pmmInit_diverges hks (Nat.not_le.mp hke)] at hp
    cases hp
  · intro hke
    obtain ⟨p, hp⟩ := pmmInit_total mmap ks ke (pmmBitmapRegion_found hm hfit) hke
    exact ⟨p, hp, pmmInit_exact hm hd hks hke hp⟩

end Init

/-- One region with an unaligned start, across 1 MB, and one that is not USABLE. -/
def twoRegions : List MemmapEntry := [⟨0x1000, 0x1000, 1⟩, ⟨0xfffe0, 0x400000, limineMemmapUsable⟩]

theorem twoRegions_physical : PhysicalMap twoRegions := by
  simp only [PhysicalMap, twoRegions, List.mem_cons, List.not_mem_nil, or_false]
  rintro e (rfl | rfl) _ <;> decide

theorem twoRegions_disjoint : DisjointUsable twoRegions := by
  refine List.pairwise_cons.mpr ⟨fun f _ ht => ?_, List.pairwise_singleton _ _⟩
  exact absurd ht (by decide)

theorem twoRegions_fits : ∃ e ∈ twoRegions, e.FitsBitmap :=
  ⟨_, List.mem_cons_of_mem _ List.mem_cons_self, rfl, 0x100, by decide⟩

theorem pmmInit_exact_iff_kernel : ∃ p, pmmInit twoRegions 0x200000 0x210800 = some p ∧
    ExactInit twoRegions 0x200000 0x210800 p :=
  (pmmInit_exact_iff _ _ _ twoRegions_physical twoRegions_disjoint twoRegions_fits rfl).mpr
    (by decide)

/-- A kernel image that ends at the last byte of the 64-bit space: the loop over it never ends. -/
theorem pmmInit_wraps : PhysicalMap twoRegions ∧ DisjointUsable twoRegions ∧
    (∃ e ∈ twoRegions, e.FitsBitmap) ∧ (0x200000 : Word).toNat%4096 = 0 ∧
    ¬ ∃ p, pmmInit twoRegions 0x200000 0xffffffffffffffff = some p ∧
      ExactInit twoRegions 0x200000 0xffffffffffffffff p := by
  refine ⟨twoRegions_physical, twoRegions_disjoint, twoRegions_fits, rfl, ?_⟩
  rintro ⟨p, hp, _⟩
  rw [pmmInit_diverges rfl (by decide)] at hp
  cases hp

end Dana
