import Mathlib.Data.Set.Finite.Basic
import Dana.PmapOps
import Dana.Transition

/-! The pmaps that `pmap_create` returns refine independent finite maps from virtual page
numbers to frames and flags. -/
namespace Dana
open ByteMem RadixTree Transition

inductive PmapOp
  | create
  | map (p : PmapPtr) (vaddr paddr flags : Word)
  | unmap (p : PmapPtr) (vaddr : Word)
  | protect (p : PmapPtr) (vaddr flags : Word)
  | query (p : PmapPtr) (vaddr : Word)

inductive PmapRes
  | ptr (p : Option PmapPtr)
  | code (r : Int)
  | addr (paddr : Word)

/-- The state before the first `pmap_create`: page 0 and the kernel's PML4 are in use. -/
structure PmapBoot (h : Hhdm) (s : PmapState) : Prop where
  pageZero : ¬ s.kmem.pmm.Free 0
  aligned : PageAligned (s.pmaps .kernel).pml4Phys
  root : ¬ s.kmem.pmm.Free (pageOf (s.pmaps .kernel).pml4Phys)

/-- A lower-half canonical virtual address. -/
def UserVa (va : Word) : Prop := va.toNat < 2^47

/-- The physical addresses that `pmap_map` is called with. -/
def Mappable (pa : Word) : Prop := PageAligned pa ∧ pa ≠ 0 ∧ pa.toNat < 2^52

/-- One call, on a pmap that `pmap_create` returned; the labels show what it returns. -/
inductive PmapStep (h : Hhdm) :
    PmapState × Set PmapPtr → PmapOp × PmapRes → PmapState × Set PmapPtr → Prop
  | create (s : PmapState) (live : Set PmapPtr) :
    PmapStep h (s, live) (.create, .ptr (pmapCreate h s).1)
      ((pmapCreate h s).2, {p | (pmapCreate h s).1 = some p} ∪ live)
  | map (s : PmapState) {live : Set PmapPtr} {p : PmapPtr} {va pa : Word} (flags : Word)
    (hp : p ∈ live) (hva : UserVa va) (hpa : Mappable pa) :
    PmapStep h (s, live) (.map p va pa flags, .code (pmapMap h s p va pa flags).1)
      ((pmapMap h s p va pa flags).2, live)
  | unmap (s : PmapState) {live : Set PmapPtr} {p : PmapPtr} {va : Word} (hp : p ∈ live)
    (hva : UserVa va) :
    PmapStep h (s, live) (.unmap p va, .code (pmapUnmap h s p va).1) ((pmapUnmap h s p va).2, live)
  | protect (s : PmapState) {live : Set PmapPtr} {p : PmapPtr} {va : Word} (flags : Word)
    (hp : p ∈ live) (hva : UserVa va) :
    PmapStep h (s, live) (.protect p va flags, .code (pmapProtect h s p va flags).1)
      ((pmapProtect h s p va flags).2, live)
  | query (s : PmapState) {live : Set PmapPtr} {p : PmapPtr} {va : Word} (hp : p ∈ live)
    (hva : UserVa va) :
    PmapStep h (s, live) (.query p va, .addr (pmapQuery h s p va)) (s, live)

/-- What a pmap is for: virtual page numbers to the frame and the flags of the page. -/
abbrev PageMap := ℕ → Option (Word × Word)

def PageMap.query (f : PageMap) (va : Word) : Word :=
  match f (pageOf va) with
  | none => 0
  | some (frame, _) => frame+(va &&& 0xfff)

abbrev PageMaps := PmapPtr → Option PageMap

def PageMaps.set (A : PageMaps) (p : PmapPtr) (f : PageMap) (n : ℕ) (e : Option (Word × Word)) :
    PageMaps := Function.update A p (some (Function.update f n e))

/-- The same calls on independent finite maps. -/
inductive PageMaps.Step : PageMaps → PmapOp × PmapRes → PageMaps → Prop
  | create {A : PageMaps} {p : PmapPtr} (hp : A p = none) :
    Step A (.create, .ptr (some p)) (Function.update A p (some fun _ => none))
  | createFails (A : PageMaps) : Step A (.create, .ptr none) A
  | map {A : PageMaps} {p : PmapPtr} {f : PageMap} (hp : A p = some f) (va pa flags : Word) :
    Step A (.map p va pa flags, .code 0) (A.set p f (pageOf va) (some (pa, flags)))
  | mapFails (A : PageMaps) (p : PmapPtr) (va pa flags : Word) :
    Step A (.map p va pa flags, .code (-1)) A
  | unmap {A : PageMaps} {p : PmapPtr} {f : PageMap} (hp : A p = some f) {va : Word}
    (hf : f (pageOf va) ≠ none) :
    Step A (.unmap p va, .code 0) (A.set p f (pageOf va) none)
  | unmapAbsent {A : PageMaps} {p : PmapPtr} {f : PageMap} (hp : A p = some f) {va : Word}
    (hf : f (pageOf va) = none) : Step A (.unmap p va, .code (-1)) A
  | protect {A : PageMaps} {p : PmapPtr} {f : PageMap} (hp : A p = some f) {va frame old : Word}
    (hf : f (pageOf va) = some (frame, old)) (flags : Word) :
    Step A (.protect p va flags, .code 0) (A.set p f (pageOf va) (some (frame, flags)))
  | protectAbsent {A : PageMaps} {p : PmapPtr} {f : PageMap} (hp : A p = some f) {va : Word}
    (hf : f (pageOf va) = none) (flags : Word) : Step A (.protect p va flags, .code (-1)) A
  | query {A : PageMaps} {p : PmapPtr} {f : PageMap} (hp : A p = some f) (va : Word) :
    Step A (.query p va, .addr (f.query va)) A

section Index

theorem idx_toNat (va : Word) (k : ℕ) : ((va >>> k).setWidth 9).toNat = va.toNat/2^k%512 := by
  rw [BitVec.toNat_setWidth, BitVec.toNat_ushiftRight, Nat.shiftRight_eq_div_pow]

/-- The walk of a lower-half address starts in the lower half of the PML4. -/
theorem UserVa.lower {va : Word} (hva : UserVa va) : LowerHalf va := by
  have hlt : va.toNat < 2^47 := hva
  rw [LowerHalf, pml4Idx, idx_toNat]
  omega

/-- The 9/9/9/9 split of a lower-half address tells pages apart. -/
theorem vaPath_eq_iff {va va' : Word} (hva : UserVa va) (hva' : UserVa va') :
    (vaPath va' = vaPath va ∧ ptIdx va' = ptIdx va) ↔ pageOf va' = pageOf va := by
  have hlt : va.toNat < 2^47 := hva
  have hlt' : va'.toNat < 2^47 := hva'
  simp only [vaPath, List.cons.injEq, and_true, pml4Idx, pdptIdx, pdIdx, ptIdx,
    ← BitVec.toNat_inj, idx_toNat, pageOf_eq]
  omega

/-- The address bits of an entry that `pmap_map` wrote. -/
theorem mapEntry_frame {pa : Word} (hpa : Mappable pa) (flags : Word) :
    mapEntry pa flags &&& pteAddrMask = pa := by
  have hflags : (flags &&& ~~~pteAddrMask) &&& pteAddrMask = 0#64 := by
    rw [BitVec.and_assoc, BitVec.and_comm (~~~pteAddrMask), BitVec.and_not_self]
    exact BitVec.and_zero
  have hp : pteP &&& pteAddrMask = 0#64 := by decide
  rw [mapEntry, BitVec.and_or_distrib_right, BitVec.and_or_distrib_right, hflags, hp,
    BitVec.or_zero, BitVec.or_zero, and_mask_of_aligned pa hpa.1 hpa.2.2,
    and_mask_of_aligned pa hpa.1 hpa.2.2]

/-- `pmap_protect` keeps the frame of the entry it rewrites. -/
theorem mapEntry_mapEntry {pa : Word} (hpa : Mappable pa) (old flags : Word) :
    mapEntry (mapEntry pa old) flags = mapEntry pa flags := by
  rw [mapEntry, mapEntry_frame hpa, mapEntry, and_mask_of_aligned pa hpa.1 hpa.2.2]

theorem or_offset {pa : Word} (hpa : PageAligned pa) (va : Word) :
    pa ||| (va &&& 0xfff) = pa+(va &&& 0xfff) := by
  refine (BitVec.add_eq_or_of_and_eq_zero _ _ ?_).symm
  have hlow : pa &&& 0xfff = 0#64 := by
    apply BitVec.eq_of_toNat_eq
    have h4 : (0xfff : Word).toNat = 2^12-1 := rfl
    rw [BitVec.toNat_and, h4, Nat.and_two_pow_sub_one_eq_mod]
    exact hpa
  rw [BitVec.and_comm va, ← BitVec.and_assoc, hlow, BitVec.zero_and]

end Index

/-- The page tables represent the maps: each map's pages are the entries of its pmap. -/
structure PageMaps.Repr (h : Hhdm) (c : PmapState × Set PmapPtr) (A : PageMaps) : Prop where
  inv : ∃ own, PmapInv h own c.1 c.2
  dom : ∀ p, p ∈ c.2 ↔ A p ≠ none
  finite : ∀ p f, A p = some f → {n | f n ≠ none}.Finite
  mappable : ∀ p f n frame flags, A p = some f → f n = some (frame, flags) → Mappable frame
  entry : ∀ p f va, A p = some f → UserVa va →
    pteOf h c.1 p va = (f (pageOf va)).map fun e => mapEntry e.1 e.2

section Repr
variable {h : Hhdm} {s s' : PmapState} {live : Set PmapPtr} {A : PageMaps} {p : PmapPtr}
  {f : PageMap} {va : Word} {own' : ℕ → Owner}

theorem PageMaps.Repr.mem_live (hA : A.Repr h (s, live)) (hp : A p = some f) : p ∈ live := by
  rw [hA.dom p, hp]
  exact Option.some_ne_none f

theorem PageMaps.Repr.map_of_live (hA : A.Repr h (s, live)) (hp : p ∈ live) : ∃ f, A p = some f :=
  Option.ne_none_iff_exists'.mp ((hA.dom p).mp hp)

/-- Translations that stay represent the same maps. -/
theorem PageMaps.Repr.same (hA : A.Repr h (s, live)) (hI : PmapInv h own' s' live)
    (hsame : SameEntries h s s' live) : A.Repr h (s', live) := by
  refine ⟨⟨own', hI⟩, hA.dom, hA.finite, hA.mappable, fun p f va hp hva => ?_⟩
  rw [← hA.entry p f va hp hva]
  exact hsame p (hA.mem_live hp) _ _ (vaPath_path hva.lower) (vaPath_leaf va)

/-- Setting one entry sets one page of one map. -/
theorem PageMaps.Repr.set (hA : A.Repr h (s, live)) (hI : PmapInv h own' s' live)
    (hp : A p = some f) (hva : UserVa va) (e : Option (Word × Word))
    (he : ∀ frame flags, e = some (frame, flags) → Mappable frame)
    (hset : SetsEntry h s s' live p (vaPath va) (ptIdx va) (e.map fun x => mapEntry x.1 x.2)) :
    (A.set p f (pageOf va) e).Repr h (s', live) := by
  have hcases (p' : PmapPtr) (f' : PageMap) (hp' : A.set p f (pageOf va) e p' = some f') :
      p' = p ∧ f' = Function.update f (pageOf va) e ∨ p' ≠ p ∧ A p' = some f' := by
    rw [PageMaps.set, Function.update_apply] at hp'
    split_ifs at hp' with hc
    · exact Or.inl ⟨hc, (Option.some.inj hp').symm⟩
    · exact Or.inr ⟨hc, hp'⟩
  refine ⟨⟨own', hI⟩, fun p' => ?_, fun p' f' hp' => ?_, fun p' f' n frame flags hp' hn => ?_,
    fun p' f' va' hp' hva' => ?_⟩
  · rw [hA.dom, PageMaps.set, Function.update_apply]
    split_ifs with hc
    · simp [hc, hp]
    · rfl
  · rcases hcases p' f' hp' with ⟨_, rfl⟩ | ⟨_, hf'⟩
    · refine ((hA.finite p f hp).insert (pageOf va)).subset fun n hn => ?_
      by_cases hc : n = pageOf va
      · exact Or.inl hc
      · rw [Set.mem_ofPred_eq, Function.update_of_ne hc] at hn
        exact Or.inr hn
    · exact hA.finite p' f' hf'
  · rcases hcases p' f' hp' with ⟨_, rfl⟩ | ⟨_, hf'⟩
    · rw [Function.update_apply] at hn
      split_ifs at hn with hc
      · exact he frame flags hn
      · exact hA.mappable p f n frame flags hp hn
    · exact hA.mappable p' f' n frame flags hf' hn
  · have hlive : p' ∈ live := by
      rcases hcases p' f' hp' with ⟨rfl, _⟩ | ⟨_, hf'⟩
      · exact hA.mem_live hp
      · exact hA.mem_live hf'
    have hent := hset p' hlive _ _ (vaPath_path hva'.lower) (vaPath_leaf va')
    rw [pteOf, hent]
    rcases hcases p' f' hp' with ⟨rfl, rfl⟩ | ⟨hne, hf'⟩
    · rw [Function.update_apply]
      by_cases hc : pageOf va' = pageOf va
      · rw [if_pos hc, if_pos ⟨rfl, (vaPath_eq_iff hva hva').mpr hc⟩]
      · rw [if_neg hc, if_neg fun hx => hc ((vaPath_eq_iff hva hva').mp hx.2)]
        exact hA.entry p' f va' hp hva'
    · rw [if_neg fun hx => hne hx.1]
      exact hA.entry p' f' va' hf' hva'

/-- A new pmap represents a new, empty map. -/
theorem PageMaps.Repr.add (hA : A.Repr h (s, live)) (hnew : p ∉ live)
    (hI : PmapInv h own' s' ({p} ∪ live)) (hsame : SameEntries h s s' live)
    (hempty : ∀ va, LowerHalf va → pteOf h s' p va = none) :
    PageMaps.Repr h (s', {p} ∪ live) (Function.update A p (some fun _ => none)) := by
  have hcases (p' : PmapPtr) (f' : PageMap)
      (hp' : Function.update A p (some fun _ => none) p' = some f') :
      p' = p ∧ f' = (fun _ => none) ∨ A p' = some f' := by
    rw [Function.update_apply] at hp'
    split_ifs at hp' with hc
    · exact Or.inl ⟨hc, (Option.some.inj hp').symm⟩
    · exact Or.inr hp'
  refine ⟨⟨own', hI⟩, fun p' => ?_, fun p' f' hp' => ?_, fun p' f' n frame flags hp' hn => ?_,
    fun p' f' va hp' hva => ?_⟩
  · rw [Function.update_apply]
    split_ifs with hc
    · simp [hc]
    · simp [hc, hA.dom]
  · rcases hcases p' f' hp' with ⟨_, rfl⟩ | hf'
    · simp
    · exact hA.finite p' f' hf'
  · rcases hcases p' f' hp' with ⟨_, rfl⟩ | hf'
    · cases hn
    · exact hA.mappable p' f' n frame flags hf' hn
  · rcases hcases p' f' hp' with ⟨rfl, rfl⟩ | hf'
    · exact hempty va hva.lower
    · rw [← hA.entry p' f' va hf' hva]
      exact hsame p' (hA.mem_live hf') _ _ (vaPath_path hva.lower) (vaPath_leaf va)

theorem PageMaps.Repr.query_eq (hA : A.Repr h (s, live)) (hp : A p = some f) (hva : UserVa va) :
    pmapQuery h s p va = f.query va := by
  rw [pmapQuery_eq, hA.entry p f va hp hva, PageMap.query]
  cases hf : f (pageOf va) with
  | none => rfl
  | some e =>
    have hpa := hA.mappable p f _ e.1 e.2 hp hf
    change mapEntry e.1 e.2 &&& pteAddrMask ||| (va &&& 0xfff) = e.1+(va &&& 0xfff)
    rw [mapEntry_frame hpa, or_offset hpa.1]

/-- Every call on the page tables is the same call on the maps. -/
theorem PageMaps.Repr.step {c c' : PmapState × Set PmapPtr} {l : PmapOp × PmapRes}
    (hs : PmapStep h c l c') (hA : A.Repr h c) : ∃ A', PageMaps.Step A l A' ∧ A'.Repr h c' := by
  cases hs with
  | create s live =>
    obtain ⟨own, hI⟩ := hA.inv
    obtain ⟨own', s', _, hsame, ⟨he, _, hI', _⟩ | ⟨d, he, hnew, hI', _, _, hempty, _⟩⟩ :=
      pmapCreate_spec hI
    · rw [he]
      refine ⟨A, .createFails A, ?_⟩
      have hnone : {p | (none : Option PmapPtr) = some p} ∪ live = live := by simp
      rw [hnone]
      exact hA.same hI' hsame
    · rw [he]
      have hfresh : A (.page d) = none := by
        by_contra hc
        exact hnew ((hA.dom _).mpr hc)
      have hone : {p | some (PmapPtr.page d) = some p} = {.page d} := by
        ext p
        simp [eq_comm]
      dsimp only
      rw [hone]
      exact ⟨_, .create hfresh, hA.add hnew hI' hsame hempty⟩
  | @map s live p va pa flags hp hva hpa =>
    obtain ⟨own, hI⟩ := hA.inv
    obtain ⟨f, hf⟩ := hA.map_of_live hp
    obtain ⟨s', own', hI', _, _, ⟨he, _, hsame⟩ | ⟨he, hset⟩⟩ := pmapMap_spec hI hp hva.lower pa flags
    · rw [he]
      exact ⟨A, .mapFails A p va pa flags, hA.same hI' hsame⟩
    · rw [he]
      refine ⟨_, .map hf va pa flags, hA.set hI' hf hva _ ?_ hset⟩
      rintro frame flags' he'
      obtain ⟨rfl, rfl⟩ := Prod.mk.inj (Option.some.inj he')
      exact hpa
  | @unmap s live p va hp hva =>
    obtain ⟨own, hI⟩ := hA.inv
    obtain ⟨f, hf⟩ := hA.map_of_live hp
    have hentry := hA.entry p f va hf hva
    rcases pmapUnmap_spec hI hp hva.lower with ⟨he, hnone⟩ | ⟨s', e, he, hsome, hI', _, _, _, hset⟩
    · rw [he]
      rw [hnone, eq_comm, Option.map_eq_none_iff] at hentry
      exact ⟨A, .unmapAbsent hf hentry, hA⟩
    · rw [he]
      have hne : f (pageOf va) ≠ none := by
        intro hc
        rw [hsome, hc] at hentry
        cases hentry
      exact ⟨_, .unmap hf hne, hA.set hI' hf hva none (by simp) hset⟩
  | @protect s live p va flags hp hva =>
    obtain ⟨own, hI⟩ := hA.inv
    obtain ⟨f, hf⟩ := hA.map_of_live hp
    have hentry := hA.entry p f va hf hva
    rcases pmapProtect_spec hI hp hva.lower flags with
      ⟨he, hnone⟩ | ⟨s', e, he, hsome, hI', _, _, _, hset⟩
    · rw [he]
      rw [hnone, eq_comm, Option.map_eq_none_iff] at hentry
      exact ⟨A, .protectAbsent hf hentry flags, hA⟩
    · rw [he]
      rw [hsome, eq_comm, Option.map_eq_some_iff] at hentry
      obtain ⟨⟨frame, old⟩, hfe, rfl⟩ := hentry
      have hpa := hA.mappable p f _ frame old hf hfe
      rw [mapEntry_mapEntry hpa] at hset
      refine ⟨_, .protect hf hfe flags, hA.set hI' hf hva _ ?_ hset⟩
      rintro frame' flags' he'
      obtain ⟨rfl, rfl⟩ := Prod.mk.inj (Option.some.inj he')
      exact hpa
  | @query s live p va hp hva =>
    obtain ⟨f, hf⟩ := hA.map_of_live hp
    rw [hA.query_eq hf hva]
    exact ⟨A, .query hf va, hA⟩

end Repr

/-- Before the first call every used frame is the kernel's. -/
def bootOwner (pmm : Pmm) (n : ℕ) : Owner := if pmm.Free n then .free else .kernel

theorem PmapBoot.inv {h : Hhdm} {s : PmapState} (hb : PmapBoot h s) :
    PmapInv h (bootOwner s.kmem.pmm) s ∅ := by
  have htab (n : ℕ) (p : PmapPtr) (q : List Idx) : bootOwner s.kmem.pmm n ≠ .table p q := by
    unfold bootOwner
    split_ifs <;> simp
  have hlab (t : Word) (p : PmapPtr) (q : List Idx) :
      tableLab (bootOwner s.kmem.pmm) t ≠ some (p, q) :=
    fun ht => htab _ p q (tableLab_some.mp ht).2
  refine ⟨hb.pageZero, fun n => ?_, fun t p q i c ht => absurd ht (hlab t p q),
    fun t p q i ht => absurd ht (hlab t p q), fun p hp => hp.elim, fun p hp => hp.elim,
    fun n p q hn => absurd hn (htab n p q), fun n p hn => ?_, hb.aligned, if_neg hb.root,
    fun p hp => hp.elim⟩
  · unfold bootOwner
    split_ifs with hn <;> simp [hn]
  · unfold bootOwner at hn
    split_ifs at hn

theorem PmapBoot.repr {h : Hhdm} {s : PmapState} (hb : PmapBoot h s) :
    PageMaps.Repr h (s, ∅) fun _ => none :=
  ⟨⟨_, hb.inv⟩, by simp, by simp, by simp, by simp⟩

/-- The first three pages are in use. -/
def pmmThree : Pmm := ⟨fun w => if w = 0 then 7 else 0, 0, 0⟩

/-- The kernel's PML4 in page 1, with the PDPT of its last slot in page 2. -/
def pmapBoot (h : Hhdm) : PmapState where
  kmem := ⟨pmmThree, store64 (fun _ => 0) (pteAddr h 0x1000 511) 0x2003⟩
  pmaps := fun _ => ⟨0x1000, 1⟩

theorem pmapBoot_boot (h : Hhdm) : PmapBoot h (pmapBoot h) := by
  have h0 : ¬ pmmThree.Free 0 := by decide
  have h1 : ¬ pmmThree.Free (pageOf 0x1000) := by decide
  have hroot : ((pmapBoot h).pmaps .kernel).pml4Phys = 0x1000 := rfl
  exact ⟨h0, by rw [hroot]; decide, h1⟩

end Dana
