import Mathlib.Data.Finset.Card
import Dana.AddrLoop
import Dana.ByteMem

/-! The bitmap allocator of vm/pmm.c: one bit per 4 KB page, 0 = free, 1 = used. -/
namespace Dana
open ByteMem AddrLoop

def pmmPageSize : Word := 4096
def pmmPageShift : ℕ := 12
def pmmNull : Word := 0
def bitsPerWord : ℕ := 64
def pmmMaxPages : ℕ := 2^20
def pmmBitmapWords : ℕ := pmmMaxPages/bitsPerWord
def pmmBitmapBytes : Word := 131072

def wordIdx (page : ℕ) : ℕ := page/bitsPerWord
def bitIdx (page : ℕ) : ℕ := page%bitsPerWord

abbrev Bitmap := ℕ → Word

def bitmapSet (b : Bitmap) (page : ℕ) : Bitmap :=
  Function.update b (wordIdx page) (b (wordIdx page) ||| (1 : Word) <<< bitIdx page)

def bitmapClear (b : Bitmap) (page : ℕ) : Bitmap :=
  Function.update b (wordIdx page) (b (wordIdx page) &&& ~~~((1 : Word) <<< bitIdx page))

def bitmapTest (b : Bitmap) (page : ℕ) : Bool :=
  (b (wordIdx page) >>> bitIdx page) &&& 1 != 0

/-- `free_count` and `total_pages` are `size_t` counters. -/
structure Pmm where
  bitmap : Bitmap
  totalPages : Word
  freeCount : Word

/-- The number of trailing zero bits; C leaves it undefined at 0. -/
def ctzll (x : Word) : ℕ := ((List.range 64).find? x.getLsbD).getD 64

/-- The scan of `pmm_alloc_page` over the `n` words from `w` on. -/
def pmmAllocScan (p : Pmm) : ℕ → ℕ → Word × Pmm
  | 0, _ => (pmmNull, p)
  | n+1, w =>
    if p.bitmap w = BitVec.allOnes 64 then pmmAllocScan p n (w+1)
    else
      let page := w*bitsPerWord+ctzll (~~~p.bitmap w)
      if pmmMaxPages ≤ page then (pmmNull, p)
      else (BitVec.ofNat 64 page <<< pmmPageShift,
        { p with
          bitmap := bitmapSet p.bitmap page
          freeCount := if 0 < p.freeCount then p.freeCount-1 else p.freeCount })

def pmmAllocPage (p : Pmm) : Word × Pmm := pmmAllocScan p pmmBitmapWords 0

def pageOf (paddr : Word) : ℕ := (paddr >>> pmmPageShift).toNat

def pmmFreePage (p : Pmm) (paddr : Word) : Pmm :=
  let page := pageOf paddr
  if page = 0 ∨ pmmMaxPages ≤ page then p
  else { p with bitmap := bitmapClear p.bitmap page, freeCount := p.freeCount+1 }

def pmmFreePages (p : Pmm) : Word := p.freeCount
def pmmTotalPages (p : Pmm) : Word := p.totalPages

/-- A page the allocator tracks and holds free. -/
def Pmm.Free (p : Pmm) (page : ℕ) : Prop := page < pmmMaxPages ∧ bitmapTest p.bitmap page = false

instance (p : Pmm) (page : ℕ) : Decidable (p.Free page) := inferInstanceAs (Decidable (_ ∧ _))

theorem bitmapTest_eq (b : Bitmap) (page : ℕ) :
    bitmapTest b page = (b (wordIdx page)).getLsbD (bitIdx page) := by
  have h : (b (wordIdx page) >>> bitIdx page) &&& 1 =
      BitVec.ofNat 64 ((b (wordIdx page)).getLsbD (bitIdx page)).toNat := by
    apply BitVec.eq_of_getLsbD_eq
    intro i _
    rcases Nat.eq_zero_or_pos i with rfl | hi
    · cases hb : (b (wordIdx page)).getLsbD (bitIdx page) <;> simp [hb]
    · cases hb : (b (wordIdx page)).getLsbD (bitIdx page) <;> simp <;> omega
  rw [bitmapTest, h]
  cases (b (wordIdx page)).getLsbD (bitIdx page) <;> decide

theorem getLsbD_one_shiftLeft (i j : ℕ) (hi : i < 64) :
    ((1 : Word) <<< i).getLsbD j = decide (j = i) := by
  rw [BitVec.getLsbD_shiftLeft]
  by_cases h : j = i
  · simp [h, hi]
  · simp [h]; omega

@[simp] theorem bitmapTest_set (b : Bitmap) (page q : ℕ) :
    bitmapTest (bitmapSet b page) q = (decide (q = page) || bitmapTest b q) := by
  have hq : bitIdx q < 64 := Nat.mod_lt _ (by decide)
  have hp : bitIdx page < 64 := Nat.mod_lt _ (by decide)
  have hidx : q = page ↔ wordIdx q = wordIdx page ∧ bitIdx q = bitIdx page := by
    simp only [wordIdx, bitIdx, bitsPerWord]; omega
  rw [bitmapTest_eq, bitmapTest_eq, bitmapSet]
  by_cases hw : wordIdx q = wordIdx page
  · rw [hw, Function.update_self, BitVec.getLsbD_or, getLsbD_one_shiftLeft _ _ hp]
    simp [hidx, hw, Bool.or_comm]
  · rw [Function.update_of_ne hw]
    simp [hidx, hw]

@[simp] theorem bitmapTest_clear (b : Bitmap) (page q : ℕ) :
    bitmapTest (bitmapClear b page) q = (!decide (q = page) && bitmapTest b q) := by
  have hq : bitIdx q < 64 := Nat.mod_lt _ (by decide)
  have hp : bitIdx page < 64 := Nat.mod_lt _ (by decide)
  have hidx : q = page ↔ wordIdx q = wordIdx page ∧ bitIdx q = bitIdx page := by
    simp only [wordIdx, bitIdx, bitsPerWord]; omega
  rw [bitmapTest_eq, bitmapTest_eq, bitmapClear]
  by_cases hw : wordIdx q = wordIdx page
  · rw [hw, Function.update_self, BitVec.getLsbD_and, BitVec.getLsbD_not,
      getLsbD_one_shiftLeft _ _ hp]
    simp [hidx, hw, hq, Bool.and_comm]
  · rw [Function.update_of_ne hw]
    simp [hidx, hw]

/-- For a word that is not 0, `ctzll` is the index of its lowest set bit. -/
theorem ctzll_spec (x : Word) (hx : x ≠ 0) :
    ctzll x < 64 ∧ x.getLsbD (ctzll x) = true ∧ ∀ i < ctzll x, x.getLsbD i = false := by
  obtain ⟨i, hi, hb⟩ : ∃ i < 64, x.getLsbD i = true := by
    by_contra h
    push Not at h
    apply hx
    apply BitVec.eq_of_getLsbD_eq
    intro i hi
    simpa using h i hi
  cases hf : (List.range 64).find? x.getLsbD with
  | none =>
    have hn := List.find?_eq_none.mp hf i (List.mem_range.mpr hi)
    exact absurd hb hn
  | some j =>
    obtain ⟨hj, hlt⟩ := List.find?_range_eq_some.mp hf |>.imp_right And.right
    have hm := List.mem_range.mp (List.mem_of_find?_eq_some hf)
    simp only [ctzll, hf, Option.getD_some]
    exact ⟨hm, hj, by simpa using hlt⟩

theorem free_iff (p : Pmm) (n : ℕ) :
    p.Free n ↔ n < pmmMaxPages ∧ (p.bitmap (wordIdx n)).getLsbD (bitIdx n) = false := by
  rw [Pmm.Free, bitmapTest_eq]

/-- The page of an address built from a page number. -/
theorem pageOf_shift (n : ℕ) (hn : n < pmmMaxPages) :
    pageOf (BitVec.ofNat 64 n <<< pmmPageShift) = n := by
  have hn' : n < 2^20 := hn
  rw [pageOf, BitVec.toNat_ushiftRight, BitVec.toNat_shiftLeft, BitVec.toNat_ofNat,
    Nat.shiftLeft_eq, Nat.shiftRight_eq_div_pow]
  simp only [pmmPageShift]
  omega

theorem toNat_shift (n : ℕ) (hn : n < pmmMaxPages) :
    (BitVec.ofNat 64 n <<< pmmPageShift).toNat = 4096*n := by
  have hn' : n < 2^20 := hn
  rw [BitVec.toNat_shiftLeft, BitVec.toNat_ofNat, Nat.shiftLeft_eq]
  simp only [pmmPageShift]
  omega

theorem pageOf_eq (a : Word) : pageOf a = a.toNat/4096 := by
  rw [pageOf, BitVec.toNat_ushiftRight, Nat.shiftRight_eq_div_pow]
  rfl

/-- The scan stops at the lowest free page at or after word `w`, or finds none. -/
theorem pmmAllocScan_spec (p : Pmm) (n w : ℕ) (hw : w+n = pmmBitmapWords)
    (hlow : ∀ m, p.Free m → w ≤ wordIdx m) :
    (∃ m, p.Free m ∧ (∀ j < m, ¬ p.Free j) ∧
      pmmAllocScan p n w = (BitVec.ofNat 64 m <<< pmmPageShift,
        { p with
          bitmap := bitmapSet p.bitmap m
          freeCount := if 0 < p.freeCount then p.freeCount-1 else p.freeCount })) ∨
    (∀ m, ¬ p.Free m) ∧ pmmAllocScan p n w = (pmmNull, p) := by
  induction n generalizing w with
  | zero =>
    refine Or.inr ⟨fun m hm => ?_, rfl⟩
    have h1 := hlow m hm
    have h2 := hm.1
    simp only [wordIdx, bitsPerWord, pmmBitmapWords, pmmMaxPages] at *
    omega
  | succ n ih =>
    by_cases hfull : p.bitmap w = BitVec.allOnes 64
    · simp only [pmmAllocScan, hfull, ↓reduceIte]
      apply ih (w+1) (by omega)
      intro m hm
      have h1 := hlow m hm
      by_contra h2
      have hwm : wordIdx m = w := by omega
      have hb := ((free_iff p m).mp hm).2
      have hlt : bitIdx m < 64 := Nat.mod_lt _ (by decide)
      rw [hwm, hfull, BitVec.getLsbD_allOnes] at hb
      simp [hlt] at hb
    · have hne : ~~~p.bitmap w ≠ 0 := by
        intro h
        apply hfull
        apply BitVec.eq_of_getLsbD_eq
        intro i hi
        have hb := congrArg (fun x : Word => x.getLsbD i) h
        simp only [BitVec.getLsbD_not, hi, decide_true, Bool.true_and] at hb
        rw [BitVec.getLsbD_allOnes, decide_eq_true hi]
        simpa using hb
      obtain ⟨hlt, hbit, hmin⟩ := ctzll_spec _ hne
      have hpage : w*bitsPerWord+ctzll (~~~p.bitmap w) < pmmMaxPages := by
        simp only [bitsPerWord, pmmBitmapWords, pmmMaxPages] at *
        omega
      have hidx : wordIdx (w*bitsPerWord+ctzll (~~~p.bitmap w)) = w ∧
          bitIdx (w*bitsPerWord+ctzll (~~~p.bitmap w)) = ctzll (~~~p.bitmap w) := by
        simp only [wordIdx, bitIdx, bitsPerWord]
        omega
      refine Or.inl ⟨w*bitsPerWord+ctzll (~~~p.bitmap w), ?_, ?_, ?_⟩
      · rw [free_iff, hidx.1, hidx.2]
        refine ⟨hpage, ?_⟩
        simpa [hlt] using hbit
      · intro j hj hfree
        have hwj := hlow j hfree
        have hbj := ((free_iff p j).mp hfree).2
        have hwj' : wordIdx j = w := by
          simp only [wordIdx, bitsPerWord] at *
          omega
        have hlt' : bitIdx j < ctzll (~~~p.bitmap w) := by
          simp only [wordIdx, bitIdx, bitsPerWord] at *
          omega
        have hnot := hmin _ hlt'
        rw [hwj'] at hbj
        simp [hbj] at hnot
        omega
      · simp only [pmmAllocScan, hfull, ↓reduceIte, Nat.not_le.mpr hpage]

/-- `pmm_alloc_page` marks and returns the lowest free page, or fails on a full bitmap. -/
theorem pmmAllocPage_spec (p : Pmm) :
    (∃ m, p.Free m ∧ (∀ j < m, ¬ p.Free j) ∧
      pmmAllocPage p = (BitVec.ofNat 64 m <<< pmmPageShift,
        { p with
          bitmap := bitmapSet p.bitmap m
          freeCount := if 0 < p.freeCount then p.freeCount-1 else p.freeCount })) ∨
    (∀ m, ¬ p.Free m) ∧ pmmAllocPage p = (pmmNull, p) :=
  pmmAllocScan_spec p pmmBitmapWords 0 (by omega) (fun _ _ => Nat.zero_le _)

/-- What one `pmm_alloc_page` does when page 0 is not free. -/
theorem pmmAllocPage_cases (p : Pmm) (h0 : ¬ p.Free 0) :
    ((pmmAllocPage p).1 ≠ pmmNull ∧ p.Free (pageOf (pmmAllocPage p).1) ∧
      (pmmAllocPage p).1.toNat = 4096*pageOf (pmmAllocPage p).1 ∧
      (∀ j < pageOf (pmmAllocPage p).1, ¬ p.Free j) ∧
      ∀ n, (pmmAllocPage p).2.Free n ↔ p.Free n ∧ n ≠ pageOf (pmmAllocPage p).1) ∨
    ((pmmAllocPage p).1 = pmmNull ∧ (∀ n, ¬ p.Free n) ∧ (pmmAllocPage p).2 = p) := by
  rcases pmmAllocPage_spec p with ⟨m, hm, hmin, he⟩ | ⟨hnone, he⟩
  · left
    have hpage := pageOf_shift m hm.1
    have hnat := toNat_shift m hm.1
    have hm0 : m ≠ 0 := fun h => h0 (h ▸ hm)
    rw [he]
    simp only [hpage]
    refine ⟨fun h => ?_, hm, hnat, hmin, fun n => ?_⟩
    · have hz : pmmNull.toNat = 0 := rfl
      rw [h, hz] at hnat
      omega
    · simp only [Pmm.Free, bitmapTest_set, Bool.or_eq_false_iff, decide_eq_false_iff_not]
      tauto
  · right
    rw [he]
    exact ⟨rfl, hnone, rfl⟩

/-- Freeing changes the state of the page of the address only. -/
theorem pmmFreePage_free (p : Pmm) (a : Word) (n : ℕ) :
    (pmmFreePage p a).Free n ↔
      p.Free n ∨ n = pageOf a ∧ 0 < pageOf a ∧ pageOf a < pmmMaxPages := by
  unfold pmmFreePage
  simp only [Pmm.Free]
  split_ifs with h
  · constructor
    · exact Or.inl
    · rintro (hf | ⟨_, h1, h2⟩)
      · exact hf
      · omega
  · simp only [bitmapTest_clear]
    by_cases hn : n = pageOf a
    · subst hn
      simp
      omega
    · simp [hn]

/-- A page handed out is page-aligned, was free, and is the only one that is free no more. -/
theorem pmmAllocPage_some {p p' : Pmm} {pa : Word} (h0 : ¬ p.Free 0)
    (h : pmmAllocPage p = (pa, p')) (hpa : pa ≠ pmmNull) :
    pa.toNat%4096 = 0 ∧ p.Free (pageOf pa) ∧ ∀ n, p'.Free n ↔ p.Free n ∧ n ≠ pageOf pa := by
  rcases pmmAllocPage_cases p h0 with ⟨_, hf, hnat, _, hiff⟩ | ⟨heq, _⟩
  · rw [h] at hf hnat hiff
    exact ⟨by rw [hnat]; omega, hf, hiff⟩
  · rw [h] at heq
    exact absurd heq hpa

theorem pmmAllocPage_none {p p' : Pmm} (h0 : ¬ p.Free 0) (h : pmmAllocPage p = (pmmNull, p')) :
    p' = p := by
  rcases pmmAllocPage_cases p h0 with ⟨hne, _⟩ | ⟨_, _, hp⟩
  · rw [h] at hne
    exact absurd rfl hne
  · rwa [h] at hp

/-- Nothing allocated yet, and page 0 reserved. -/
def pmmBoot : Pmm := ⟨fun w => if w = 0 then 1 else 0, 0, 0⟩

/-- The free frames. -/
def Pmm.frames (p : Pmm) : Finset ℕ :=
  (Finset.range pmmMaxPages).filter fun n => bitmapTest p.bitmap n = false

section Count
variable {p p' : Pmm} {m : ℕ}

theorem Pmm.mem_frames {n : ℕ} : n ∈ p.frames ↔ p.Free n := by
  rw [Pmm.frames, Finset.mem_filter, Finset.mem_range]
  rfl

theorem Pmm.frames_take (hm : p.Free m) (hiff : ∀ n, p'.Free n ↔ p.Free n ∧ n ≠ m) :
    p.frames.card = p'.frames.card+1 := by
  have herase : p'.frames = p.frames.erase m := by
    ext n
    rw [Finset.mem_erase, Pmm.mem_frames, Pmm.mem_frames, hiff, and_comm]
  rw [herase, Finset.card_erase_add_one (Pmm.mem_frames.mpr hm)]

theorem Pmm.frames_empty (h : ∀ n, ¬ p.Free n) : p.frames.card = 0 := by
  rw [Finset.card_eq_zero, Finset.eq_empty_iff_forall_notMem]
  intro n hn
  exact h n (Pmm.mem_frames.mp hn)

end Count

end Dana
