import Mathlib.Logic.Relation
import Dana.PmapFree
import Dana.PmapRefine

/-! Dropping the last reference of a pmap, in runs of the pmap calls and of the other
users of the PMM: exactly when it gives back the frames of the pmap and nothing else. -/
namespace Dana
open ByteMem RadixTree

/-- The frames that walks in the kernel's upper half read, below the PML4. They differ
from those of the loops where an entry maps a large page, which a walk does not test. -/
def kernelWalkFrames (h : Hhdm) (s : PmapState) : Set ℕ :=
  {n | ∃ (i : Idx) (q : List Idx) (t : Word), 256 ≤ i.toNat ∧ q.length < 3 ∧
    tableAt h s.kmem.mem (s.pmaps .kernel).pml4Phys (i :: q) = some t ∧ n = pageOf t}

/-- When the last reference of `p` can be dropped without harm. -/
structure DestroySafe (h : Hhdm) (s : PmapState) (p : PmapPtr) : Prop where
  offset : h.offset = 0
  loops : ∀ n ∈ kernelLoopFrames h s, ¬ Tracked n
  walks : ∀ n ∈ kernelWalkFrames h s, ¬ s.kmem.pmm.Free n ∧ n ∉ pmapFrames h s p

/-- Later allocations write frames that `s` holds free, and no others. -/
def Later (h : Hhdm) (s : PmapState) (k : Kmem) : Prop :=
  ∀ x, ¬ s.kmem.pmm.Free (frameOf h x) → k.mem x = s.kmem.mem x

/-- What dropping the last reference of `p` is to do. -/
structure DestroyExact (h : Hhdm) (s : PmapState) (live : Set PmapPtr) (p : PmapPtr) : Prop where
  freed : ∀ n, (pmapDestroy h s p).kmem.pmm.Free n ↔ s.kmem.pmm.Free n ∨ n ∈ pmapFrames h s p
  kernelKept : ∀ n ∈ kernelLoopFrames h s, ¬ (pmapDestroy h s p).kmem.pmm.Free n
  othersKept : ∀ p' ∈ live, p' ≠ p → ∀ n ∈ pmapFrames h s p',
    ¬ (pmapDestroy h s p).kmem.pmm.Free n
  others : ∀ k, Later h (pmapDestroy h s p) k → ∀ p' ∈ live, p' ≠ p → ∀ va,
    pmapQuery h { pmapDestroy h s p with kmem := k } p' va = pmapQuery h s p' va
  kernel : ∀ k, Later h (pmapDestroy h s p) k → ∀ va, ¬ LowerHalf va →
    pmapQuery h { pmapDestroy h s p with kmem := k } .kernel va = pmapQuery h s .kernel va

/-- The page tables, the pmaps in use, and the frames that the rest of the kernel holds. -/
structure PmapWorld where
  state : PmapState
  live : Set PmapPtr
  taken : Set ℕ

/-- One call on a pmap, or one step of another user of the PMM. A last reference is
dropped only where that is safe. -/
inductive PmapLife (h : Hhdm) : PmapWorld → PmapWorld → Prop
  | call {s s' : PmapState} {live live' : Set PmapPtr} {l : PmapOp × PmapRes} (taken : Set ℕ)
    (hs : PmapStep h (s, live) l (s', live')) : PmapLife h ⟨s, live, taken⟩ ⟨s', live', taken⟩
  | reference (s : PmapState) {live : Set PmapPtr} (taken : Set ℕ) {p : PmapPtr} (hp : p ∈ live) :
    PmapLife h ⟨s, live, taken⟩ ⟨pmapReference s p, live, taken⟩
  | drop {s : PmapState} {live : Set PmapPtr} (taken : Set ℕ) {p : PmapPtr} (hp : p ∈ live)
    (href : (s.pmaps p).refCount ≠ 1) :
    PmapLife h ⟨s, live, taken⟩ ⟨pmapDestroy h s p, live, taken⟩
  | destroy {s : PmapState} {live : Set PmapPtr} (taken : Set ℕ) {p : PmapPtr} (hp : p ∈ live)
    (href : (s.pmaps p).refCount = 1) (hsafe : DestroySafe h s p) :
    PmapLife h ⟨s, live, taken⟩ ⟨pmapDestroy h s p, live \ {p}, taken⟩
  | alloc {s : PmapState} (live : Set PmapPtr) (taken : Set ℕ) {pa : Word} {pmm : Pmm}
    (ha : pmmAllocPage s.kmem.pmm = (pa, pmm)) (hpa : pa ≠ pmmNull) :
    PmapLife h ⟨s, live, taken⟩
      ⟨{ s with kmem := { s.kmem with pmm := pmm } }, live, insert (pageOf pa) taken⟩
  | free (s : PmapState) (live : Set PmapPtr) {taken : Set ℕ} {pa : Word} (hpa : pageOf pa ∈ taken) :
    PmapLife h ⟨s, live, taken⟩
      ⟨{ s with kmem := { s.kmem with pmm := pmmFreePage s.kmem.pmm pa } }, live,
        taken \ {pageOf pa}⟩
  | write (s : PmapState) (live : Set PmapPtr) {taken : Set ℕ} {mem : Mem}
    (hmem : ∀ x, frameOf h x ∉ taken → mem x = s.kmem.mem x) :
    PmapLife h ⟨s, live, taken⟩ ⟨{ s with kmem := { s.kmem with mem := mem } }, live, taken⟩

/-- Before the first `pmap_create`, with the tables of the kernel in use. -/
structure KernelBoot (h : Hhdm) (s : PmapState) : Prop extends PmapBoot h s where
  table : ∀ n ∈ kernelLoopFrames h s, ¬ s.kmem.pmm.Free n

/-- What the run keeps: the frames of the kernel and their contents, beside the pmaps. -/
structure LifeInv (h : Hhdm) (s₀ : PmapState) (own : ℕ → Owner) (w : PmapWorld) : Prop where
  pmap : PmapInv h own w.state w.live
  kernel : ∀ n, own n = .kernel ↔ ¬ s₀.kmem.pmm.Free n
  taken : ∀ n, own n = .other ↔ n ∈ w.taken
  tracked : ∀ n ∈ w.taken, Tracked n
  mem : ∀ x, ¬ s₀.kmem.pmm.Free (frameOf h x) → w.state.kmem.mem x = s₀.kmem.mem x
  root : (w.state.pmaps .kernel).pml4Phys = (s₀.pmaps .kernel).pml4Phys

section Steps
variable {h : Hhdm} {own : ℕ → Owner} {s s' s₀ : PmapState} {live live' : Set PmapPtr} {p : PmapPtr}

/-- Only the PML4 of a descriptor matters to the invariant. -/
theorem PmapInv.withPmaps (hI : PmapInv h own s live) {pmaps : PmapPtr → Pmap}
    (hp : ∀ p, (pmaps p).pml4Phys = (s.pmaps p).pml4Phys) :
    PmapInv h own { s with pmaps := pmaps } live := by
  refine ⟨hI.pageZero, hI.free, hI.forest, hI.small, fun p hl => ?_, hI.desc, fun n p q hn => ?_,
    hI.descPage, ?_, ?_, fun p hl i hi => ?_⟩
  · rw [hp]
    exact hI.root p hl
  · rw [hp]
    exact hI.table n p q hn
  · rw [hp]
    exact hI.kernel.aligned
  · rw [hp]
    exact hI.kernel.root
  · rw [hp, hp]
    exact hI.kernel.copied p hl i hi

/-- A call takes free frames for tables and descriptors, and writes those and tables only. -/
theorem PmapInv.step (hI : PmapInv h own s live) {l : PmapOp × PmapRes}
    (hs : PmapStep h (s, live) l (s', live')) : ∃ own', PmapInv h own' s' live' ∧
      (∀ n, own' n = own n ∨ own n = .free ∧ ((∃ p q, own' n = .table p q) ∨ ∃ p, own' n = .desc p)) ∧
      (∀ x, own (frameOf h x) ≠ .free → (∀ p q, own (frameOf h x) ≠ .table p q) →
        s'.kmem.mem x = s.kmem.mem x) ∧ s'.pmaps .kernel = s.pmaps .kernel := by
  have hnew {own' : ℕ → Owner} {p : PmapPtr} {k k' : Kmem} (ht : Touched h own own' p k k') (n : ℕ) :
      own' n = own n ∨ own n = .free ∧ ((∃ p q, own' n = .table p q) ∨ ∃ p, own' n = .desc p) := by
    rcases ht.new n with h1 | ⟨h1, q, h2⟩
    · exact Or.inl h1
    · exact Or.inr ⟨h1, Or.inl ⟨p, q, h2⟩⟩
  cases hs with
  | create =>
    obtain ⟨own', s1, hmem, _, ⟨he, rfl, hI', hpm⟩ | ⟨d, he, _, hI', hpm, _, _, hown⟩⟩ :=
      pmapCreate_spec hI
    · rw [he]
      refine ⟨own', ?_, fun n => Or.inl rfl, fun x hx _ => hmem x hx, by rw [hpm]⟩
      simpa using hI'
    · rw [he]
      refine ⟨own', ?_, fun n => ?_, fun x hx _ => hmem x hx, hpm _ (by simp)⟩
      · have hone : {p | some (PmapPtr.page d) = some p} ∪ live = insert (.page d) live := by
          ext p
          simp [eq_comm]
        dsimp only
        rw [hone]
        exact hI'
      · rcases hown n with h1 | ⟨h1, h2 | h2⟩
        · exact Or.inl h1
        · exact Or.inr ⟨h1, Or.inl ⟨_, _, h2⟩⟩
        · exact Or.inr ⟨h1, Or.inr ⟨_, h2⟩⟩
  | map _ flags hp hva hpa =>
    obtain ⟨s1, own', hI', ht, hpm, ⟨he, _⟩ | ⟨he, _⟩⟩ := pmapMap_spec hI hp hva.lower _ flags
    · rw [he]
      exact ⟨own', hI', hnew ht, fun x h1 h2 => ht.mem x h1 (h2 _), by rw [hpm]⟩
    · rw [he]
      exact ⟨own', hI', hnew ht, fun x h1 h2 => ht.mem x h1 (h2 _), by rw [hpm]⟩
  | unmap _ hp hva =>
    rcases pmapUnmap_spec hI hp hva.lower with ⟨he, _⟩ | ⟨s1, e, he, _, hI', ht, hpm, _, _⟩
    · rw [he]
      exact ⟨own, hI, fun n => Or.inl rfl, fun _ _ _ => rfl, rfl⟩
    · rw [he]
      exact ⟨own, hI', hnew ht, fun x h1 h2 => ht.mem x h1 (h2 _), by rw [hpm]⟩
  | protect _ flags hp hva =>
    rcases pmapProtect_spec hI hp hva.lower flags with ⟨he, _⟩ | ⟨s1, e, he, _, hI', ht, hpm, _, _⟩
    · rw [he]
      exact ⟨own, hI, fun n => Or.inl rfl, fun _ _ _ => rfl, rfl⟩
    · rw [he]
      exact ⟨own, hI', hnew ht, fun x h1 h2 => ht.mem x h1 (h2 _), by rw [hpm]⟩
  | query => exact ⟨own, hI, fun n => Or.inl rfl, fun _ _ _ => rfl, rfl⟩

theorem virtToPhys_eq (h : Hhdm) (h0 : h.offset = 0) (pa : Word) : virtToPhys h pa = pa := by
  rw [virtToPhys, h0]
  exact BitVec.sub_zero pa

/-- The descriptor is given back only where the direct map is the identity. -/
theorem pageOf_virtToPhys_iff (h : Hhdm) {pa : Word} (ha : PageAligned pa) :
    pageOf (virtToPhys h pa) = pageOf pa ↔ h.offset = 0 := by
  constructor
  · intro he
    have hf := h.fits
    rw [pageOf_eq, pageOf_eq, virtToPhys, BitVec.toNat_sub] at he
    rw [PageAligned] at ha
    have h1 := h.offset.isLt
    have h2 := pa.isLt
    apply BitVec.eq_of_toNat_eq
    have hz : (0 : Word).toNat = 0 := rfl
    omega
  · exact fun h0 => by rw [virtToPhys_eq h h0]

/-- The two parts of the condition that decide which frames come back. -/
theorem PmapInv.freed_iff (hI : PmapInv h own s live) (hp : p ∈ live)
    (href : (s.pmaps p).refCount = 1) (hk : ∀ n ∈ kernelLoopFrames h s, own n = .kernel) :
    (∀ n, (pmapDestroy h s p).kmem.pmm.Free n ↔ s.kmem.pmm.Free n ∨ n ∈ pmapFrames h s p) ↔
      h.offset = 0 ∧ ∀ n ∈ kernelLoopFrames h s, ¬ Tracked n := by
  obtain ⟨pa, rfl, ha, hd⟩ := hI.desc p hp
  have hdt : Tracked (pageOf pa) := by
    obtain ⟨h1, h2, _⟩ := hI.descPage _ _ hd
    exact ⟨h1, h2⟩
  constructor
  · intro hfree
    have hloops (n : ℕ) (hn : n ∈ kernelLoopFrames h s) : ¬ Tracked n := by
      intro ht
      have hf := (hfree n).mp ((hI.destroy_free hp href n).mpr (Or.inr (Or.inr (Or.inl ⟨hn, ht⟩))))
      rw [hI.free, hI.mem_frames hp, hk n hn] at hf
      simp at hf
    refine ⟨?_, hloops⟩
    have hf := (hI.destroy_free hp href _).mp
      ((hfree (pageOf pa)).mpr (Or.inr ((hI.mem_frames hp _).mpr (Or.inr hd))))
    rw [hI.free, hd] at hf
    rcases hf with h1 | ⟨q, h1⟩ | ⟨h1, h2⟩ | ⟨h1, _⟩
    · cases h1
    · cases h1
    · exact absurd h2 (hloops _ h1)
    · exact (pageOf_virtToPhys_iff h ha).mp h1.symm
  · rintro ⟨h0, hloops⟩ n
    rw [hI.destroy_free hp href, hI.mem_frames hp, virtToPhys_eq h h0]
    refine or_congr_right (or_congr_right ?_)
    constructor
    · rintro (⟨h1, h2⟩ | ⟨rfl, _⟩)
      · exact absurd h2 (hloops n h1)
      · exact hd
    · intro hn
      obtain ⟨_, _, _, pa', h1, h2⟩ := hI.descPage n _ hn
      cases h1
      exact Or.inr ⟨h2.symm, h2 ▸ hdt⟩

theorem pmapDestroy_mem (h : Hhdm) (s : PmapState) (p : PmapPtr) :
    (pmapDestroy h s p).kmem.mem = s.kmem.mem := by
  cases p with
  | kernel => rfl
  | page pa =>
    unfold pmapDestroy
    dsimp only
    split_ifs <;> rfl

theorem pmapDestroy_pml4 (h : Hhdm) (s : PmapState) (p p' : PmapPtr) :
    ((pmapDestroy h s p).pmaps p').pml4Phys = (s.pmaps p').pml4Phys := by
  have hupd (pa : Word) (pmap : Pmap) (hpm : pmap.pml4Phys = (s.pmaps (.page pa)).pml4Phys) :
      (Function.update s.pmaps (.page pa) pmap p').pml4Phys = (s.pmaps p').pml4Phys := by
    rw [Function.update_apply]
    split_ifs with hc
    · rw [hpm, hc]
    · rfl
  cases p with
  | kernel => rfl
  | page pa =>
    unfold pmapDestroy
    dsimp only
    split_ifs
    · exact hupd pa _ rfl
    · exact hupd pa _ rfl

theorem pmapDestroy_other (h : Hhdm) (s : PmapState) {p p' : PmapPtr} (hp : p' ≠ p) :
    (pmapDestroy h s p).pmaps p' = s.pmaps p' := by
  cases p with
  | kernel => rfl
  | page pa =>
    unfold pmapDestroy
    dsimp only
    split_ifs
    · exact Function.update_of_ne hp _ _
    · exact Function.update_of_ne hp _ _

theorem pteSub_aligned {e t : Word} (h : pteSub e = some t) : PageAligned t := by
  unfold pteSub at h
  split_ifs at h
  obtain rfl := Option.some.inj h
  exact mask_aligned e

theorem LifeInv.pte_eq {w : PmapWorld} (hw : LifeInv h s₀ own w) {t : Word} (i : Idx)
    (ha : PageAligned t) (ht : ¬ s₀.kmem.pmm.Free (pageOf t)) :
    pteAt h w.state.kmem.mem t i = pteAt h s₀.kmem.mem t i :=
  pteAt_congr h _ _ t i ha fun x hx => hw.mem x (by rwa [hx])

/-- What the loops reach through the kernel's upper half is read from frames in use. -/
theorem LifeInv.loopTable_eq {w : PmapWorld} (hb : KernelBoot h s₀) (hw : LifeInv h s₀ own w)
    (i : Idx) (q : List Idx) (hi : 256 ≤ i.toNat) (hq : q.length < 3) :
    loopTable h w.state.kmem.mem (w.state.pmaps .kernel).pml4Phys (i :: q) =
      loopTable h s₀.kmem.mem (s₀.pmaps .kernel).pml4Phys (i :: q) := by
  rw [loopTable, loopTable, hw.root, hw.pte_eq i hb.aligned hb.root]
  refine Option.bind_congr fun c hc => node_congr c q fun q' j rest he t ht => ?_
  have hlen : q'.length < 3 := by
    rw [he, List.length_append] at hq
    omega
  have hreach : loopTable h s₀.kmem.mem (s₀.pmaps .kernel).pml4Phys (i :: q') = some t := by
    rw [loopTable, hc]
    exact ht
  have ha : PageAligned t := by
    rcases List.eq_nil_or_concat q' with rfl | ⟨q'', j', rfl⟩
    · obtain rfl := Option.some.inj ht
      exact pteTable_aligned hc
    · rw [List.concat_eq_append, node_concat, Option.bind_eq_some_iff] at ht
      obtain ⟨u, _, hu⟩ := ht
      exact pteSub_aligned hu
  rw [hw.pte_eq j ha (hb.table _ ⟨i, q', t, hi, hlen, hreach, rfl⟩)]

theorem LifeInv.loop_kernel {w : PmapWorld} (hb : KernelBoot h s₀) (hw : LifeInv h s₀ own w)
    (n : ℕ) (hn : n ∈ kernelLoopFrames h w.state) : own n = .kernel := by
  obtain ⟨i, q, t, hi, hq, ht, rfl⟩ := hn
  rw [hw.loopTable_eq hb i q hi hq] at ht
  exact (hw.kernel _).mpr (hb.table _ ⟨i, q, t, hi, hq, ht, rfl⟩)

theorem KernelBoot.life (hb : KernelBoot h s₀) :
    LifeInv h s₀ (bootOwner s₀.kmem.pmm) ⟨s₀, ∅, ∅⟩ := by
  refine ⟨hb.toPmapBoot.inv, fun n => ?_, fun n => ?_, fun n hn => hn.elim, fun _ _ => rfl, rfl⟩
  · unfold bootOwner
    split_ifs with hn <;> simp [hn]
  · unfold bootOwner
    split_ifs <;> simp

/-- A call takes its frames from the free ones, for tables and descriptors. -/
theorem LifeInv.call {taken : Set ℕ} {l : PmapOp × PmapRes}
    (hw : LifeInv h s₀ own ⟨s, live, taken⟩) (hs : PmapStep h (s, live) l (s', live')) :
    ∃ own', LifeInv h s₀ own' ⟨s', live', taken⟩ := by
  obtain ⟨own', hI', hnew, hmem, hpm⟩ := hw.pmap.step hs
  have hkeep (n : ℕ) (o : Owner) (ht : ∀ p q, o ≠ .table p q) (hd : ∀ p, o ≠ .desc p)
      (hf : o ≠ .free) : own' n = o ↔ own n = o := by
    rcases hnew n with h1 | ⟨h1, ⟨p, q, h2⟩ | ⟨p, h2⟩⟩
    · rw [h1]
    · rw [h1, h2]
      exact iff_of_false (ht p q).symm hf.symm
    · rw [h1, h2]
      exact iff_of_false (hd p).symm hf.symm
  refine ⟨own', hI', fun n => ?_, fun n => ?_, hw.tracked, fun x hx => ?_, ?_⟩
  · rw [hkeep n _ (by simp) (by simp) (by simp), hw.kernel]
  · rw [hkeep n _ (by simp) (by simp) (by simp), hw.taken]
  · have hker := (hw.kernel _).mpr hx
    rw [← hw.mem x hx]
    exact hmem x (by simp [hker]) (by simp [hker])
  · rw [← hw.root]
    exact congrArg Pmap.pml4Phys hpm

/-- Another part of the kernel takes a frame. -/
theorem LifeInv.alloc {taken : Set ℕ} {pa : Word} {pmm : Pmm}
    (hw : LifeInv h s₀ own ⟨s, live, taken⟩) (ha : pmmAllocPage s.kmem.pmm = (pa, pmm))
    (hpa : pa ≠ pmmNull) : ∃ own', LifeInv h s₀ own'
      ⟨{ s with kmem := { s.kmem with pmm := pmm } }, live, insert (pageOf pa) taken⟩ := by
  obtain ⟨_, hf, hpos, hlt, _⟩ := hw.pmap.alloc ha hpa
  have hI' := (hw.pmap.take (o := .other) ha hpa (by simp) (by simp) (by simp) fun _ _ => rfl).1
  refine ⟨_, hI', fun n => ?_, fun n => ?_, fun n hn => ?_, hw.mem, hw.root⟩
  · rw [Function.update_apply]
    split_ifs with hn
    · rw [← hw.kernel, hn, hf]
      simp
    · exact hw.kernel n
  · rw [Function.update_apply, Set.mem_insert_iff]
    split_ifs with hn
    · simp [hn]
    · simpa [hn] using hw.taken n
  · rcases hn with rfl | hn
    · exact ⟨hpos, hlt⟩
    · exact hw.tracked n hn

/-- It gives one back. -/
theorem LifeInv.free {taken : Set ℕ} {pa : Word} (hw : LifeInv h s₀ own ⟨s, live, taken⟩)
    (hpa : pageOf pa ∈ taken) : ∃ own', LifeInv h s₀ own'
      ⟨{ s with kmem := { s.kmem with pmm := pmmFreePage s.kmem.pmm pa } }, live,
        taken \ {pageOf pa}⟩ := by
  have ho := (hw.taken _).mpr hpa
  obtain ⟨hpos, hlt⟩ := hw.tracked _ hpa
  have hI' := (hw.pmap.give hpos hlt (by simp [ho]) (by simp [ho]) (by simp [ho])).1
  refine ⟨_, hI', fun n => ?_, fun n => ?_, fun n hn => hw.tracked n hn.1, hw.mem, hw.root⟩
  · rw [Function.update_apply]
    split_ifs with hn
    · rw [← hw.kernel, hn, ho]
      simp
    · exact hw.kernel n
  · rw [Function.update_apply, Set.mem_sdiff_singleton]
    split_ifs with hn
    · simp [hn]
    · simpa [hn] using hw.taken n

/-- Every step keeps the invariant of the run. -/
theorem LifeInv.step {w w' : PmapWorld} (hb : KernelBoot h s₀) (hw : LifeInv h s₀ own w)
    (hs : PmapLife h w w') : ∃ own', LifeInv h s₀ own' w' := by
  have hI := hw.pmap
  cases hs with
  | call taken hs => exact hw.call hs
  | @reference s live taken p hp =>
    have hpml (p' : PmapPtr) : ((pmapReference s p).pmaps p').pml4Phys = (s.pmaps p').pml4Phys := by
      rw [pmapReference]
      dsimp only
      rw [Function.update_apply]
      split_ifs with hc
      · rw [hc]
      · rfl
    refine ⟨own, hI.withPmaps hpml, hw.kernel, hw.taken, hw.tracked, hw.mem, ?_⟩
    rw [← hw.root]
    exact hpml .kernel
  | @drop s live taken p hp href =>
    obtain ⟨pa, rfl, _⟩ := hI.desc p hp
    by_cases hpos : (0 : BitVec 32) < (s.pmaps (.page pa)).refCount-1
    · have he : pmapDestroy h s (.page pa) =
          { s with pmaps := (pmapDestroy h s (.page pa)).pmaps } := by
        simp only [pmapDestroy, hpos, ↓reduceIte]
      rw [he]
      refine ⟨own, hI.withPmaps (pmapDestroy_pml4 h s _), hw.kernel, hw.taken, hw.tracked, hw.mem, ?_⟩
      rw [← hw.root]
      exact pmapDestroy_pml4 h s _ .kernel
    · -- the count minus one is zero only for one
      exfalso
      apply href
      have hz : (s.pmaps (.page pa)).refCount-1 = 0 := by
        rw [BitVec.lt_def] at hpos
        exact BitVec.eq_of_toNat_eq (by
          have hz : (0 : BitVec 32).toNat = 0 := rfl
          omega)
      exact sub_eq_zero.mp hz
  | @destroy s live taken p hp href hsafe =>
    have hk := hw.loop_kernel hb
    have hfree := (hI.freed_iff hp href hk).mpr ⟨hsafe.offset, hsafe.loops⟩
    have hI' := hI.remove hp (pmapDestroy_mem h s p) hfree fun p' hp' => pmapDestroy_other h s hp'
    refine ⟨releaseOwner own p, hI', fun n => ?_, fun n => ?_, hw.tracked, fun x hx => ?_, ?_⟩
    · rw [releaseOwner_eq (by simp), hw.kernel]
      simp [Owner.isOf]
    · rw [releaseOwner_eq (by simp), hw.taken]
      simp [Owner.isOf]
    · rw [← hw.mem x hx]
      exact congrFun (pmapDestroy_mem h s p) x
    · rw [← hw.root]
      exact pmapDestroy_pml4 h s p .kernel
  | alloc live taken ha hpa => exact hw.alloc ha hpa
  | free s live hpa => exact hw.free hpa
  | @write s live taken mem hmem =>
    have hused (x : Word) (hx : own (frameOf h x) ≠ .other) : mem x = s.kmem.mem x :=
      hmem x fun hc => hx ((hw.taken _).mpr hc)
    have hI' := (hI.congr (k := { s.kmem with mem := mem }) hI.pageZero hI.free
      (fun _ _ _ => Iff.rfl) (fun _ _ => Iff.rfl) (fun _ hn => hn) fun x hx => hused x ?_).1
    · refine ⟨own, hI', hw.kernel, hw.taken, hw.tracked, fun x hx => ?_, hw.root⟩
      rw [← hw.mem x hx]
      exact hused x (by rw [(hw.kernel _).mpr hx]; simp)
    · rcases hx with ⟨p, q, hx⟩ | hx <;> simp [hx]

theorem pmapLife_inv {w : PmapWorld} (hb : KernelBoot h s₀)
    (hr : Relation.ReflTransGen (PmapLife h) ⟨s₀, ∅, ∅⟩ w) : ∃ own, LifeInv h s₀ own w := by
  induction hr with
  | refl => exact ⟨_, hb.life⟩
  | tail _ hs ih =>
    obtain ⟨own, hw⟩ := ih
    exact hw.step hb hs

end Steps

section Query
variable {h : Hhdm} {s s' : PmapState} {p : PmapPtr} {va : Word}

theorem tableAt_mask {m : Mem} {pml4 t : Word} {i : Idx} {q : List Idx}
    (ht : tableAt h m pml4 (i :: q) = some t) : t &&& pteAddrMask = t := by
  rcases List.eq_nil_or_concat (i :: q) with hnil | ⟨q0, j0, hq0⟩
  · cases hnil
  · rw [tableAt, hq0, List.concat_eq_append, node_concat, Option.bind_eq_some_iff] at ht
    obtain ⟨n0, _, hn0⟩ := ht
    unfold pteTable at hn0
    split_ifs at hn0
    obtain rfl := Option.some.inj hn0
    rw [BitVec.and_assoc, BitVec.and_self]

theorem tableAt_aligned {m : Mem} {pml4 t : Word} {i : Idx} {q : List Idx}
    (ht : tableAt h m pml4 (i :: q) = some t) : PageAligned t := by
  rw [← tableAt_mask ht]
  exact mask_aligned t

/-- A query reads the tables of its walk only. -/
theorem pmapQuery_congr (hpml : (s'.pmaps p).pml4Phys = (s.pmaps p).pml4Phys)
    (hroot : PageAligned (s.pmaps p).pml4Phys)
    (hm : ∀ q rest t, vaPath va = q ++ rest →
      tableAt h s.kmem.mem (s.pmaps p).pml4Phys q = some t →
      ∀ x, frameOf h x = pageOf t → s'.kmem.mem x = s.kmem.mem x) :
    pmapQuery h s' p va = pmapQuery h s p va := by
  have hcell (q rest : List Idx) (t : Word) (j : Idx) (hq : vaPath va = q ++ rest)
      (ht : tableAt h s.kmem.mem (s.pmaps p).pml4Phys q = some t) :
      pteAt h s'.kmem.mem t j = pteAt h s.kmem.mem t j := by
    have ha : PageAligned t := by
      cases q with
      | nil =>
        obtain rfl := Option.some.inj ht
        exact hroot
      | cons i q => exact tableAt_aligned ht
    exact pteAt_congr h _ _ t j ha (hm q rest t hq ht)
  have hpte : pteOf h s' p va = pteOf h s p va := by
    rw [pteOf, pteOf, entryAt, entryAt, leaf, leaf, hpml]
    rw [node_congr _ _ fun q j rest he t ht => by rw [hcell q _ t j he ht]]
    exact Option.bind_congr fun t ht => by rw [hcell _ [] t _ (List.append_nil _).symm ht]
  rw [pmapQuery_eq, pmapQuery_eq, hpte]

/-- The tables on the walk of an address above the lower half. -/
theorem upperWalk (hva : ¬ LowerHalf va) {q rest : List Idx} {t : Word}
    (hq : vaPath va = q ++ rest) (ht : tableAt h s.kmem.mem (s.pmaps .kernel).pml4Phys q = some t) :
    t = (s.pmaps .kernel).pml4Phys ∨ pageOf t ∈ kernelWalkFrames h s := by
  cases q with
  | nil => exact Or.inl (Option.some.inj ht).symm
  | cons i q =>
    have hlen := congrArg List.length hq
    rw [vaPath_length, List.length_append, List.length_cons] at hlen
    rw [List.cons_append] at hq
    obtain ⟨rfl, _⟩ := List.cons.inj hq
    exact Or.inr ⟨_, q, t, Nat.le_of_not_lt hva, by omega, ht, rfl⟩

theorem idx_eq {i : Idx} {va : Word} {k : ℕ} (hi : va.toNat/2^k%512 = i.toNat) :
    (va >>> k).setWidth 9 = i := BitVec.eq_of_toNat_eq (by rw [idx_toNat, hi])

/-- An address with a given walk through the first three levels, entry 0 of the last
one, and page offset 1. -/
theorem exists_va (i a b : Idx) :
    ∃ va : Word, vaPath va = [i, a, b] ∧ ptIdx va = 0 ∧ va &&& 0xfff = 1 := by
  have hi := i.isLt
  have ha := a.isLt
  have hb := b.isLt
  obtain ⟨va, hva⟩ : ∃ va : Word, va.toNat = i.toNat*2^39+a.toNat*2^30+b.toNat*2^21+1 :=
    ⟨BitVec.ofNat 64 (i.toNat*2^39+a.toNat*2^30+b.toNat*2^21+1), by
      rw [BitVec.toNat_ofNat]
      omega⟩
  refine ⟨va, ?_, ?_, ?_⟩
  · have h1 : pml4Idx va = i := idx_eq (by omega)
    have h2 : pdptIdx va = a := idx_eq (by omega)
    have h3 : pdIdx va = b := idx_eq (by omega)
    rw [vaPath, h1, h2, h3]
  · have h0 : (0 : Idx).toNat = 0 := rfl
    exact idx_eq (by omega)
  · apply BitVec.eq_of_toNat_eq
    have h4 : (0xfff : Word).toNat = 2^12-1 := rfl
    have h1 : (1 : Word).toNat = 1 := rfl
    rw [BitVec.toNat_and, h4, Nat.and_two_pow_sub_one_eq_mod, h1]
    omega

/-- One that goes on through entry 0 at the levels that are left. -/
theorem exists_va_through (i : Idx) (q : List Idx) (hq : q.length < 3) : ∃ (va : Word) (k : ℕ),
    vaPath va = (i :: q) ++ List.replicate k 0 ∧ ptIdx va = 0 ∧ va &&& 0xfff = 1 := by
  match q, hq with
  | [], _ =>
    obtain ⟨va, hva⟩ := exists_va i 0 0
    exact ⟨va, 2, hva⟩
  | [a], _ =>
    obtain ⟨va, hva⟩ := exists_va i a 0
    exact ⟨va, 1, hva⟩
  | [a, b], _ =>
    obtain ⟨va, hva⟩ := exists_va i a b
    exact ⟨va, 0, hva⟩

/-- Where a walk goes through a table, what is written in that table decides the query. -/
theorem pmapQuery_through {i : Idx} {q : List Idx} {t : Word} (hq : q.length < 3)
    (ht : tableAt h s.kmem.mem (s.pmaps p).pml4Phys (i :: q) = some t)
    (hroot : PageAligned (s.pmaps p).pml4Phys)
    (hpre : ∀ q' rest t', i :: q = q' ++ rest → rest ≠ [] →
      tableAt h s.kmem.mem (s.pmaps p).pml4Phys q' = some t' → pageOf t' ≠ pageOf t) :
    ∃ va, pml4Idx va = i ∧ pmapQuery h (s.store (pteAddr h t 0) 0) p va ≠
      pmapQuery h (s.store (pteAddr h t 0) (t ||| pteP)) p va := by
  have hta := tableAt_aligned ht
  obtain ⟨va, k, hva, hidx, hoff⟩ := exists_va_through i q hq
  have hpml4 : pml4Idx va = i := by
    rw [vaPath, List.cons_append] at hva
    exact (List.cons.inj hva).1
  -- writing `t` does not change the way to it
  have hto (v : Word) : tableAt h (store64 s.kmem.mem (pteAddr h t 0) v) (s.pmaps p).pml4Phys
      (i :: q) = some t := by
    rw [← ht]
    refine node_congr _ _ fun q' j rest he t' ht' => ?_
    have hne : t' ≠ t := by
      rintro rfl
      exact hpre q' (j :: rest) t' he (by simp) ht' rfl
    have hta' : PageAligned t' := by
      cases q' with
      | nil =>
        obtain rfl := Option.some.inj ht'
        exact hroot
      | cons => exact tableAt_aligned ht'
    rw [pteAt_store h _ t t' v 0 j hta hta', if_neg fun hc => hne hc.1]
  have hcell (v : Word) : pteAt h (store64 s.kmem.mem (pteAddr h t 0) v) t 0 = v := by
    rw [pteAt_store h _ t t v 0 0 hta hta, if_pos ⟨rfl, rfl⟩]
  have hpte (v : Word) : pteOf h (s.store (pteAddr h t 0) v) p va =
      leaf pteTable ptePresent (pteAt h (store64 s.kmem.mem (pteAddr h t 0) v)) t
        (List.replicate k 0) 0 := by
    have hnode := hto v
    rw [tableAt] at hnode
    rw [pteOf, entryAt, hva, hidx, leaf, node_append, Option.bind_assoc]
    change (node pteTable (pteAt h (store64 s.kmem.mem (pteAddr h t 0) v)) (s.pmaps p).pml4Phys
      (i :: q)).bind _ = _
    rw [hnode]
    rfl
  have hnone : pteOf h (s.store (pteAddr h t 0) 0) p va = none := by
    rw [hpte]
    cases k with
    | zero =>
      rw [List.replicate_zero, leaf, node_nil, Option.bind_some, hcell]
      rfl
    | succ k =>
      rw [List.replicate_succ, leaf, node_cons, hcell]
      rfl
  have hself : pteTable (t ||| pteP) = some t := by
    have hne : (t ||| pteP) &&& pteP ≠ 0 := by
      intro hc
      have hb := congrArg (fun w : Word => w.getLsbD 0) hc
      simp [pteP] at hb
    have hp : pteP &&& pteAddrMask = 0#64 := by decide
    rw [pteTable, if_neg hne, BitVec.and_or_distrib_right, hp, BitVec.or_zero,
      tableAt_mask ht]
  have hsome : pteOf h (s.store (pteAddr h t 0) (t ||| pteP)) p va = some (t ||| pteP) := by
    rw [hpte]
    clear hva hpte hnone
    induction k with
    | zero =>
      rw [List.replicate_zero, leaf, node_nil, Option.bind_some, hcell]
      exact ptePresent_or t
    | succ k ih =>
      rw [List.replicate_succ, leaf, node_cons, hcell, hself, Option.bind_some]
      exact ih
  refine ⟨va, hpml4, ?_⟩
  rw [pmapQuery_eq, pmapQuery_eq, hnone, hsome]
  intro he
  have hb := congrArg (fun w : Word => w.getLsbD 0) he
  have hpage : pmmPageSize-1 = 0xfff := by decide
  simp only [hpage, hoff] at hb
  simp at hb

end Query

section Exact
variable {h : Hhdm} {own : ℕ → Owner} {s₀ : PmapState} {w : PmapWorld} {p : PmapPtr}

/-- No frame of the kernel's tables or of another pmap comes back with the frames of `p`. -/
theorem LifeInv.not_freed (hw : LifeInv h s₀ own w) (hp : p ∈ w.live)
    (hfree : ∀ n, (pmapDestroy h w.state p).kmem.pmm.Free n ↔
      w.state.kmem.pmm.Free n ∨ n ∈ pmapFrames h w.state p) {n : ℕ} (h1 : own n ≠ .free)
    (h2 : ∀ q, own n ≠ .table p q) (h3 : own n ≠ .desc p) :
    ¬ (pmapDestroy h w.state p).kmem.pmm.Free n := by
  rw [hfree, hw.pmap.free, hw.pmap.mem_frames hp]
  rintro (hc | ⟨q, hc⟩ | hc)
  · exact h1 hc
  · exact h2 q hc
  · exact h3 hc

/-- A safe destroy leaves every other query as it was, whatever is allocated later. -/
theorem LifeInv.exact_of_safe (hb : KernelBoot h s₀) (hw : LifeInv h s₀ own w)
    (hp : p ∈ w.live) (href : (w.state.pmaps p).refCount = 1) (hs : DestroySafe h w.state p) :
    DestroyExact h w.state w.live p := by
  have hI := hw.pmap
  have hfree := (hI.freed_iff hp href (hw.loop_kernel hb)).mpr ⟨hs.offset, hs.loops⟩
  have hwalk (n : ℕ) (hn : n ∈ kernelWalkFrames h w.state) :
      ¬ (pmapDestroy h w.state p).kmem.pmm.Free n := by
    rw [hfree]
    exact not_or.mpr (hs.walks n hn)
  have hother (p' : PmapPtr) (hne : p' ≠ p) (n : ℕ) (hn : (∃ q, own n = .table p' q) ∨ own n = .desc p') :
      ¬ (pmapDestroy h w.state p).kmem.pmm.Free n := by
    rcases hn with ⟨q, hn⟩ | hn
    · refine hw.not_freed hp hfree ?_ (fun q' => ?_) ?_ <;> rw [hn] <;> simp [hne]
    · refine hw.not_freed hp hfree ?_ (fun q' => ?_) ?_ <;> rw [hn] <;> simp [hne]
  have hkeep {k : Kmem} (hk : Later h (pmapDestroy h w.state p) k) {n : ℕ}
      (hn : ¬ (pmapDestroy h w.state p).kmem.pmm.Free n) (x : Word) (hx : frameOf h x = n) :
      k.mem x = w.state.kmem.mem x := by
    rw [hk x (by rwa [hx]), pmapDestroy_mem]
  refine ⟨hfree, fun n hn => ?_, fun p' hp' hne n hn => ?_, fun k hk p' hp' hne va => ?_,
    fun k hk va hva => ?_⟩
  · have hker := hw.loop_kernel hb n hn
    refine hw.not_freed hp hfree ?_ (fun q => ?_) ?_ <;> rw [hker] <;> simp
  · exact hother p' hne n ((hI.mem_frames hp' n).mp hn)
  · obtain ⟨hra, hro⟩ := tableLab_some.mp (hI.root p' hp')
    refine pmapQuery_congr (pmapDestroy_pml4 h _ p p') hra fun q rest t hq ht => hkeep hk ?_
    by_cases hva : LowerHalf va
    · have hpath : Path lowerDom [] q := by
        have := vaPath_path hva
        rw [hq, path_append] at this
        exact this.1
      exact hother p' hne _ (Or.inl ⟨q, hI.table_of_tableAt hp' hpath ht⟩)
    · cases q with
      | nil =>
        obtain rfl := Option.some.inj ht
        exact hother p' hne _ (Or.inl ⟨[], hro⟩)
      | cons i q =>
        -- above the lower half the walk goes on in the kernel's tables
        have hi : pml4Idx va = i := by
          rw [vaPath, List.cons_append] at hq
          exact (List.cons.inj hq).1
        have hcopy := hI.kernel.copied p' hp' i (hi ▸ Nat.le_of_not_lt hva)
        rw [tableAt, node_cons, hcopy, ← node_cons] at ht
        rcases upperWalk hva hq ht with rfl | hn
        · refine hw.not_freed hp hfree ?_ (fun q => ?_) ?_ <;> rw [hI.kernel.root] <;> simp
        · exact hwalk _ hn
  · refine pmapQuery_congr (pmapDestroy_pml4 h _ p .kernel) hI.kernel.aligned
      fun q rest t hq ht => hkeep hk ?_
    rcases upperWalk hva hq ht with rfl | hn
    · refine hw.not_freed hp hfree ?_ (fun q => ?_) ?_ <;> rw [hI.kernel.root] <;> simp
    · exact hwalk _ hn

/-- If no later allocation can change a query in the kernel's upper half, then the walks
there read no frame that is free by then. -/
theorem LifeInv.walk_not_free (hw : LifeInv h s₀ own w) (hp : p ∈ w.live)
    (he : DestroyExact h w.state w.live p) (n : ℕ) (hn : n ∈ kernelWalkFrames h w.state) :
    ¬ (pmapDestroy h w.state p).kmem.pmm.Free n := by
  have hI := hw.pmap
  obtain ⟨i, q, t, hi, hq, ht, rfl⟩ := hn
  -- the first table on the way that is free by then
  induction hlen : q.length using Nat.strong_induction_on generalizing q t with
  | _ len ih =>
    intro hfree
    have hpre (q' rest : List Idx) (t' : Word) (hq' : i :: q = q' ++ rest) (hr : rest ≠ [])
        (ht' : tableAt h w.state.kmem.mem (w.state.pmaps .kernel).pml4Phys q' = some t') :
        pageOf t' ≠ pageOf t := by
      intro hpage
      rw [← hpage] at hfree
      cases q' with
      | nil =>
        obtain rfl := Option.some.inj ht'
        refine hw.not_freed hp he.freed ?_ (fun q => ?_) ?_ hfree <;> rw [hI.kernel.root] <;> simp
      | cons j q' =>
        rw [List.cons_append] at hq'
        obtain ⟨rfl, rfl⟩ := List.cons.inj hq'
        have hpos := List.length_pos_of_ne_nil hr
        rw [List.length_append] at hq hlen
        exact ih q'.length (by omega) q' t' (by omega) ht' rfl hfree
    obtain ⟨va, hva, hne⟩ := pmapQuery_through (s := w.state) (p := .kernel) hq ht hI.kernel.aligned
      hpre
    have hlater (v : Word) : pmapQuery h (w.state.store (pteAddr h t 0) v) .kernel va =
        pmapQuery h w.state .kernel va := by
      have hup : ¬ LowerHalf va := by
        rw [LowerHalf, hva]
        omega
      have hk := he.kernel (w.state.store (pteAddr h t 0) v).kmem (fun x hx => ?_) va hup
      · rw [← hk, pmapQuery_eq, pmapQuery_eq, pteOf, pteOf, pmapDestroy_pml4]
        rfl
      · rw [pmapDestroy_mem]
        exact store_pte_other h _ t v x 0 (tableAt_aligned ht) fun hc => hx (hc ▸ hfree)
    exact hne ((hlater 0).trans (hlater _).symm)

theorem LifeInv.exact_iff (hb : KernelBoot h s₀) (hw : LifeInv h s₀ own w) (hp : p ∈ w.live)
    (href : (w.state.pmaps p).refCount = 1) :
    DestroyExact h w.state w.live p ↔ DestroySafe h w.state p := by
  refine ⟨fun he => ?_, hw.exact_of_safe hb hp href⟩
  obtain ⟨h1, h2⟩ := (hw.pmap.freed_iff hp href (hw.loop_kernel hb)).mp he.freed
  refine ⟨h1, h2, fun n hn => ?_⟩
  have hf := hw.walk_not_free hp he n hn
  rwa [he.freed, not_or] at hf

end Exact

/-- In every run whose earlier last references were dropped safely, dropping the last
reference of a pmap does exactly what it is to do if and only if that is safe. -/
theorem pmapDestroy_exact_iff (h : Hhdm) (s₀ : PmapState) (w : PmapWorld) (p : PmapPtr)
    (hb : KernelBoot h s₀) (hr : Relation.ReflTransGen (PmapLife h) ⟨s₀, ∅, ∅⟩ w)
    (hp : p ∈ w.live) (href : (w.state.pmaps p).refCount = 1) :
    DestroyExact h w.state w.live p ↔ DestroySafe h w.state p := by
  obtain ⟨own, hw⟩ := pmapLife_inv hb hr
  exact hw.exact_iff hb hp href

/-- The state when the first pmap has just been created. -/
theorem pmapLife_create (h : Hhdm) (s : PmapState) {p : PmapPtr} (hp : (pmapCreate h s).1 = some p) :
    Relation.ReflTransGen (PmapLife h) ⟨s, ∅, ∅⟩ ⟨(pmapCreate h s).2, {p}, ∅⟩ := by
  have hs := PmapLife.call ∅ (PmapStep.create (h := h) s ∅)
  have hlive : {p' | (pmapCreate h s).1 = some p'} ∪ ∅ = {p} := by
    ext p'
    simp [hp, eq_comm]
  rw [hlive] at hs
  exact Relation.ReflTransGen.single hs

/-- Nothing but an empty PML4 for the kernel. -/
def emptyBoot : PmapState := ⟨⟨pmmThree, fun _ => 0⟩, fun _ => ⟨0x1000, 1⟩⟩

theorem emptyBoot_boot (h : Hhdm) : KernelBoot h emptyBoot := by
  have h0 : ¬ pmmThree.Free 0 := by decide
  have h1 : ¬ pmmThree.Free (pageOf 0x1000) := by decide
  refine ⟨⟨h0, by decide, h1⟩, ?_⟩
  rintro n ⟨i, q, t, _, _, ht, rfl⟩
  cases (loopTable_blank h _ i q).symm.trans ht

/-- Physical memory at its own addresses. -/
def identityMap : Hhdm := ⟨0, by decide⟩

/-- Where the direct map is the identity and the kernel's PML4 is empty, a pmap just
created gives back its own frames. -/
theorem pmapDestroy_exact_identity :
    ∃ s, DestroyExact identityMap s {.page 0x4000} (.page 0x4000) := by
  have hp : (pmapCreate identityMap emptyBoot).1 = some (.page 0x4000) := by decide +kernel
  have hr := pmapLife_create identityMap emptyBoot hp
  have href : ((pmapCreate identityMap emptyBoot).2.pmaps (.page 0x4000)).refCount = 1 := by
    decide +kernel
  obtain ⟨s, hs⟩ : ∃ s, s = (pmapCreate identityMap emptyBoot).2 := ⟨_, rfl⟩
  rw [← hs] at hr href
  have hb := emptyBoot_boot identityMap
  obtain ⟨own, hw⟩ := pmapLife_inv hb hr
  have hz (i : Idx) : pteAt identityMap s.kmem.mem (s.pmaps .kernel).pml4Phys i = 0 := by
    have he := hw.pte_eq i hb.aligned hb.root
    rw [← hw.root] at he
    exact he.trans (pteAt_blank _ _ _)
  refine ⟨s, (pmapDestroy_exact_iff identityMap emptyBoot _ _ hb hr rfl href).mpr ⟨rfl, ?_, ?_⟩⟩
  · rintro n ⟨i, q, t, _, _, ht, rfl⟩
    rw [loopTable, hz, pteTable_zero] at ht
    cases ht
  · rintro n ⟨i, q, t, _, _, ht, rfl⟩
    rw [tableAt, node_cons, hz, pteTable_zero] at ht
    cases ht

theorem pteAt_pmapBoot (h : Hhdm) (t : Word) (i : Idx) (ht : PageAligned t) :
    pteAt h (pmapBoot h).kmem.mem t i = if t = 0x1000 ∧ i = 511 then 0x2003 else 0 := by
  rw [pmapBoot, pteAt_store h _ _ t _ _ i (by decide) ht, pteAt_blank]

theorem pmapBoot_loopFrames (h : Hhdm) (n : ℕ) : n ∈ kernelLoopFrames h (pmapBoot h) ↔ n = 2 := by
  have hroot : ((pmapBoot h).pmaps .kernel).pml4Phys = 0x1000 := rfl
  constructor
  · rintro ⟨i, q, t, hi, hq, ht, rfl⟩
    rw [hroot, loopTable, Option.bind_eq_some_iff] at ht
    obtain ⟨c, hc, hq⟩ := ht
    rw [pteAt_pmapBoot h _ i (by decide)] at hc
    split_ifs at hc with hi
    · obtain rfl : 0x2000 = c := Option.some.inj hc
      cases q with
      | nil =>
        obtain rfl : 0x2000 = t := Option.some.inj hq
        decide
      | cons j q =>
        have hne : ¬ ((0x2000 : Word) = 0x1000 ∧ j = 511) := fun hc => absurd hc.1 (by decide)
        rw [node_cons, pteAt_pmapBoot h _ j (by decide), if_neg hne] at hq
        cases hq
    · cases hc
  · rintro rfl
    refine ⟨511, [], 0x2000, by decide, by decide, ?_, by decide⟩
    rw [hroot, loopTable, pteAt_pmapBoot h _ _ (by decide), if_pos ⟨rfl, rfl⟩]
    rfl

/-- The first pmap is created and destroyed: the kernel's PDPT in page 2 is free
afterwards, and the descriptor in page 4 is not. -/
theorem pmapDestroy_frees_kernel_table : ∃ s, KernelBoot higherHalf (pmapBoot higherHalf) ∧
    Relation.ReflTransGen (PmapLife higherHalf) ⟨pmapBoot higherHalf, ∅, ∅⟩ ⟨s, {.page 0x4000}, ∅⟩ ∧
    (s.pmaps (.page 0x4000)).refCount = 1 ∧
    2 ∈ kernelLoopFrames higherHalf s ∧
    (pmapDestroy higherHalf s (.page 0x4000)).kmem.pmm.Free 2 ∧
    ¬ (pmapDestroy higherHalf s (.page 0x4000)).kmem.pmm.Free 4 ∧
    ¬ DestroyExact higherHalf s {.page 0x4000} (.page 0x4000) := by
  have hp : (pmapCreate higherHalf (pmapBoot higherHalf)).1 = some (.page 0x4000) := by
    decide +kernel
  have hr := pmapLife_create higherHalf (pmapBoot higherHalf) hp
  have href : ((pmapCreate higherHalf (pmapBoot higherHalf)).2.pmaps (.page 0x4000)).refCount = 1 := by
    decide +kernel
  obtain ⟨s, hs⟩ : ∃ s, s = (pmapCreate higherHalf (pmapBoot higherHalf)).2 := ⟨_, rfl⟩
  rw [← hs] at hr href
  have hb : KernelBoot higherHalf (pmapBoot higherHalf) := by
    refine ⟨pmapBoot_boot _, fun n hn => ?_⟩
    obtain rfl := (pmapBoot_loopFrames _ n).mp hn
    have h2 : ¬ pmmThree.Free 2 := by decide
    exact h2
  obtain ⟨own, hw⟩ := pmapLife_inv hb hr
  have hI := hw.pmap
  have hloop : 2 ∈ kernelLoopFrames higherHalf s := by
    obtain ⟨i, q, t, hi, hq, ht, hn⟩ := (pmapBoot_loopFrames higherHalf 2).mpr rfl
    exact ⟨i, q, t, hi, hq, (hw.loopTable_eq hb i q hi hq).trans ht, hn⟩
  have hfree := hI.destroy_free rfl href
  refine ⟨s, hb, hr, href, hloop, (hfree 2).mpr ?_, fun h4 => ?_, fun he => ?_⟩
  · exact Or.inr (Or.inr (Or.inl ⟨hloop, by unfold Tracked; decide⟩))
  · obtain ⟨_, h1, _, hd⟩ := hI.desc (.page 0x4000) rfl
    cases h1
    have hpage : pageOf 0x4000 = 4 := by decide
    rw [hpage] at hd
    rcases (hfree 4).mp h4 with h5 | ⟨q, h5⟩ | ⟨h5, _⟩ | ⟨h5, _⟩
    · rw [hI.free, hd] at h5
      cases h5
    · rw [hd] at h5
      cases h5
    · rw [hw.loop_kernel hb 4 h5] at hd
      cases hd
    · exact absurd h5 (by decide)
  · exact absurd ((hw.exact_iff hb rfl href).mp he).offset (by decide)

end Dana
