import Dana.PageTrees
import Dana.Transition

/-! The upper half, which is to be the same in every pmap: `pmap_create` copies the slots that the
kernel's PML4 has at that time, and `pmap_map` on `pmap_kernel` may fill one later. -/
namespace Dana
open ByteMem RadixTree Transition

/-- An upper-half canonical virtual address. -/
def UpperVa (va : Word) : Prop := 2^64-2^47 ≤ va.toNat

instance (va : Word) : Decidable (UpperVa va) := inferInstanceAs (Decidable (_ ≤ _))

/-- A call of `pmap_create`, or one on `pmap_kernel`. -/
inductive KernelOp
  | create
  | map (vaddr paddr flags : Word)
  | unmap (vaddr : Word)
  | protect (vaddr flags : Word)

/-- The address that the call is about. -/
def KernelOp.addr : KernelOp → Option Word
  | .create => none
  | .map va _ _ => some va
  | .unmap va => some va
  | .protect va _ => some va

/-- The call on a state with the pmaps that `pmap_create` has returned. -/
def KernelOp.run (h : Hhdm) (c : PmapState × Set PmapPtr) : KernelOp → PmapState × Set PmapPtr
  | .create => ((pmapCreate h c.1).2, {p | (pmapCreate h c.1).1 = some p} ∪ c.2)
  | .map va pa flags => ((pmapMap h c.1 .kernel va pa flags).2, c.2)
  | .unmap va => ((pmapUnmap h c.1 .kernel va).2, c.2)
  | .protect va flags => ((pmapProtect h c.1 .kernel va flags).2, c.2)

/-- The calls are at upper-half addresses. -/
def KernelStep (h : Hhdm) (c : PmapState × Set PmapPtr) (op : KernelOp)
    (c' : PmapState × Set PmapPtr) : Prop :=
  (∀ va, op.addr = some va → UpperVa va) ∧ c' = op.run h c

/-- Every pmap translates the upper half as `pmap_kernel` does, for the processor and for
`pmap_query`. -/
def SharedUpper (h : Hhdm) (c : PmapState × Set PmapPtr) : Prop :=
  ∀ p ∈ c.2, ∀ va, UpperVa va →
    pmapTranslation h c.1 p va = pmapTranslation h c.1 .kernel va ∧
      pmapQuery h c.1 p va = pmapQuery h c.1 .kernel va

/-- No large page of the kernel maps the address of the call. -/
def KernelOp.Small (h : Hhdm) (s : PmapState) (op : KernelOp) : Prop :=
  ∀ va, op.addr = some va → ¬ MapsLarge h s.kmem.mem (s.pmaps .kernel).pml4Phys va

/-- The call fills no slot of the kernel's PML4 after a pmap has been created: the slot of its
address is present, there is no pmap yet, or there is no frame for a table. -/
def KernelOp.Shares (h : Hhdm) (c : PmapState × Set PmapPtr) : KernelOp → Prop
  | .map va _ _ =>
    pteAt h c.1.kmem.mem (c.1.pmaps .kernel).pml4Phys (pml4Idx va) &&& pteP ≠ 0 ∨ c.2 = ∅ ∨
      ∀ n, ¬ c.1.kmem.pmm.Free n
  | _ => True

theorem UpperVa.slot {va : Word} (hva : UpperVa va) : 256 ≤ (pml4Idx va).toNat := by
  have hlt := va.isLt
  rw [UpperVa] at hva
  rw [pml4Idx, idx_toNat]
  omega

/-- The upper halves of the PML4s are the same. -/
structure SharedInv (h : Hhdm) (c : PmapState × Set PmapPtr) (lab : TableLab) : Prop where
  trees : PmapTrees h c.1 c.2 lab
  slots : ∀ p ∈ c.2, ∀ i : Idx, 256 ≤ i.toNat →
    pteAt h c.1.kmem.mem (c.1.pmaps p).pml4Phys i =
      pteAt h c.1.kmem.mem (c.1.pmaps .kernel).pml4Phys i

section Shared
variable {h : Hhdm} {s : PmapState} {live : Set PmapPtr} {lab : TableLab} {va : Word}
  {c : PmapState × Set PmapPtr}

/-- Equal slots lead to the same tables. -/
theorem SharedInv.shared (hI : SharedInv h c lab) : SharedUpper h c := by
  intro p hp va hva
  have hslot := hI.slots p hp _ hva.slot
  constructor
  · rw [pmapTranslation, pmapTranslation, hwWalk_slot hslot]
  · rw [pmapQuery_eq, pmapQuery_eq, pteOf_eq, pteOf_eq, tableAt, tableAt, vaPath, node_cons, node_cons,
      hslot]

theorem SharedInv.create (hI : SharedInv h c lab) : ∃ lab', SharedInv h (KernelOp.create.run h c) lab' := by
  obtain ⟨lab', s', _, hpte, hcases⟩ := pmapCreate_trees hI.trees
  have hslots {p : PmapPtr} (hp : p ∈ c.2) (hps : s'.pmaps p = c.1.pmaps p)
      (hks : s'.pmaps .kernel = c.1.pmaps .kernel) (i : Idx) (hi : 256 ≤ i.toNat) :
      pteAt h s'.kmem.mem (s'.pmaps p).pml4Phys i =
        pteAt h s'.kmem.mem (s'.pmaps .kernel).pml4Phys i := by
    rw [hps, hks, hpte _ _ i (hI.trees.root p hp), hpte _ _ i hI.trees.kernel, hI.slots p hp i hi]
  rw [KernelOp.run]
  rcases hcases with ⟨he, hT, hsame⟩ | ⟨d, he, hnew, hT, hsame, hcopied⟩
  · rw [he]
    have hlive : ({p | (none : Option PmapPtr) = some p} ∪ c.2) = c.2 := by simp
    dsimp only
    rw [hlive]
    exact ⟨lab', hT, fun p hp => hslots hp (congrFun hsame p) (congrFun hsame _)⟩
  · rw [he]
    have hlive : ({p | some (.page d) = some p} ∪ c.2) = insert (PmapPtr.page d) c.2 := by
      ext p
      simp [eq_comm]
    dsimp only
    rw [hlive]
    refine ⟨lab', hT, fun p hp i hi => ?_⟩
    rcases hp with rfl | hp
    · exact (hcopied i).trans (if_pos hi)
    · have hpd : p ≠ .page d := fun hc => hnew (hc ▸ hp)
      exact hslots hp (hsame p hpd) (hsame _ (by simp)) i hi

/-- An entry of a page table is written: the slots stay. -/
theorem SharedInv.store (hI : SharedInv h (s, live) lab) {pt : Word} {q : List Idx}
    (ht : lab pt = some ((), q)) (hq : q.length = 3) (i : Idx) (v : Word) :
    SharedInv h (s.store (pteAddr h pt i) v, live) lab := by
  obtain ⟨hT, hw⟩ := hI.trees.store ht hq i v
  refine ⟨hT, fun p hp j hj => ?_⟩
  have hp' := hw.inner _ _ j (hI.trees.root p hp) (by simp)
  have hk' := hw.inner _ _ j hI.trees.kernel (by simp)
  exact (hp'.trans (hI.slots p hp j hj)).trans hk'.symm

/-- The walk of `pmap_map` fills no slot that a pmap lacks. -/
theorem SharedInv.map (hI : SharedInv h (s, live) lab)
    (hs : ¬ MapsLarge h s.kmem.mem (s.pmaps .kernel).pml4Phys va) (pa flags : Word)
    (hsh : (KernelOp.map va pa flags).Shares h (s, live)) :
    ∃ lab', SharedInv h ((pmapMap h s .kernel va pa flags).2, live) lab' := by
  obtain ⟨k', lab', hg, hslot, hres⟩ := pmapWalk_trees hI.trees.trees hI.trees.kernel hs
  have hgrown : SharedInv h ({ s with kmem := k' }, live) lab' := by
    refine ⟨hI.trees.kmem hg.trees hg.old hg.free, fun p hp j hj => ?_⟩
    have hkeep (r : Word) (hr : lab r = some ((), [])) : pteAt h k'.mem r j = pteAt h s.kmem.mem r j := by
      refine hslot r j hr fun _ _ => ?_
      rcases hsh with hpres | hnone | hfree
      · exact Or.inl hpres
      · exact absurd hp (hnone ▸ Set.notMem_empty p)
      · exact Or.inr hfree
    exact (hkeep _ (hI.trees.root p hp)).trans ((hI.slots p hp j hj).trans
      (hkeep _ hI.trees.kernel).symm)
  rcases hres with ⟨he, _⟩ | ⟨pt, he, hpt⟩
  · rw [pmapMap, he]
    exact ⟨lab', hgrown⟩
  · rw [pmapMap, he]
    exact ⟨lab', hgrown.store (hg.trees.path hgrown.trees.kernel le_rfl hpt) rfl _ _⟩

/-- A new slot of the kernel is not seen from a pmap that there is already. -/
theorem SharedInv.map_unshared (hI : SharedInv h (s, live) lab) (hva : UpperVa va)
    (hs : ¬ MapsLarge h s.kmem.mem (s.pmaps .kernel).pml4Phys va) (pa flags : Word)
    (hframes : 3 ≤ s.kmem.pmm.frames.card)
    (habs : pteAt h s.kmem.mem (s.pmaps .kernel).pml4Phys (pml4Idx va) &&& pteP = 0)
    {p : PmapPtr} (hp : p ∈ live) :
    ¬ SharedUpper h ((pmapMap h s .kernel va pa flags).2, live) := by
  obtain ⟨k', lab', hg, hslot, hres⟩ := pmapWalk_trees hI.trees.trees hI.trees.kernel hs
  rcases hres with ⟨_, hfew⟩ | ⟨pt, he, hpt⟩
  · exact absurd hframes (Nat.not_le.mpr hfew)
  have hr := hg.old _ _ hI.trees.kernel
  have hlab := hg.trees.path hr le_rfl hpt
  obtain ⟨hT, hw⟩ := (hI.trees.kmem hg.trees hg.old hg.free).store hlab rfl (ptIdx va)
    (mapEntry pa flags)
  have hkernel : hwWalk h ({ s with kmem := k' }.store (pteAddr h pt (ptIdx va))
      (mapEntry pa flags)).kmem.mem (s.pmaps .kernel).pml4Phys va = some (0, mapEntry pa flags) := by
    rw [hwWalk_table ((hw.table _ _ hr le_rfl).trans hpt)]
    have hpta := (hg.trees.used pt _ hlab).1
    have hentry := pteAt_store h k'.mem pt pt (mapEntry pa flags) (ptIdx va) (ptIdx va) hpta hpta
    rw [if_pos ⟨rfl, rfl⟩] at hentry
    rw [PmapState.store, hentry, ptePresent_mapEntry]
    rfl
  have hpmap : hwWalk h ({ s with kmem := k' }.store (pteAddr h pt (ptIdx va))
      (mapEntry pa flags)).kmem.mem (s.pmaps p).pml4Phys va = none := by
    refine hwWalk_absent ?_
    have hroot := hI.trees.root p hp
    rw [hw.inner _ _ _ (hg.old _ _ hroot) (by simp),
      hslot _ _ hroot fun hc => absurd hc (hI.trees.ne p hp), hI.slots p hp _ hva.slot]
    exact habs
  intro hshared
  have heq := (hshared p hp va hva).1
  rw [pmapMap, he, pmapTranslation, pmapTranslation, if_pos (show Canonical va from Or.inr hva),
    if_pos (show Canonical va from Or.inr hva)] at heq
  have hnone := hpmap.symm.trans (heq.trans hkernel)
  cases hnone

/-- One call that fills no slot keeps the halves shared. -/
theorem SharedInv.step {op : KernelOp} {c' : PmapState × Set PmapPtr} (hI : SharedInv h c lab)
    (hstep : KernelStep h c op c') (hs : op.Small h c.1) (hsh : op.Shares h c) :
    ∃ lab', SharedInv h c' lab' := by
  obtain ⟨s, live⟩ := c
  obtain ⟨hva, rfl⟩ := hstep
  cases op with
  | create => exact hI.create
  | map va pa flags => exact hI.map (hs va rfl) pa flags hsh
  | unmap va =>
    rcases pmapUnmap_trees hI.trees.trees hI.trees.kernel (hs va rfl) with he | ⟨pt, hpt, he⟩
    · rw [KernelOp.run, he]
      exact ⟨lab, hI⟩
    · rw [KernelOp.run, he]
      exact ⟨lab, hI.store hpt rfl _ _⟩
  | protect va flags =>
    rcases pmapProtect_trees hI.trees.trees hI.trees.kernel (hs va rfl) flags with he | ⟨pt, v, hpt, he⟩
    · rw [KernelOp.run, he]
      exact ⟨lab, hI⟩
    · rw [KernelOp.run, he]
      exact ⟨lab, hI.store hpt rfl _ _⟩

/-- The halves are shared in every state of a run whose calls fill no slot that a pmap lacks, and
with frames for the tables the first call that fills one ends this. -/
theorem kernel_half_shared {s₀ : PmapState} (hb : TreesBoot h s₀) {trace : List KernelOp}
    (hr : Run (fun c op c' => KernelStep h c op c' ∧ op.Small h c.1 ∧ op.Shares h c) (s₀, ∅) trace c) :
    SharedUpper h c ∧ ∀ op c', KernelStep h c op c' → op.Small h c.1 →
      3 ≤ c.1.kmem.pmm.frames.card → (SharedUpper h c' ↔ op.Shares h c) := by
  obtain ⟨lab, hI⟩ : ∃ lab, SharedInv h c lab := by
    refine hr.inv (I := fun c => ∃ lab, SharedInv h c lab) ?_ ⟨_, hb.trees, fun _ hp => hp.elim⟩
    rintro c op c' ⟨hstep, hs, hsh⟩ ⟨lab, hI⟩
    exact hI.step hstep hs hsh
  refine ⟨hI.shared, fun op c' hstep hs hframes => ⟨fun hshared => ?_, fun hsh => ?_⟩⟩
  · obtain ⟨s, live⟩ := c
    obtain ⟨hva, rfl⟩ := hstep
    cases op with
    | create => trivial
    | unmap va => trivial
    | protect va flags => trivial
    | map va pa flags =>
      by_contra hno
      rw [KernelOp.Shares, not_or, not_or, not_not] at hno
      obtain ⟨habs, hlive, _⟩ := hno
      obtain ⟨p, hp⟩ := Set.nonempty_iff_ne_empty.mpr hlive
      exact hI.map_unshared (hva va rfl) (hs va rfl) pa flags hframes habs hp hshared
  · obtain ⟨_, hI'⟩ := hI.step hstep hs hsh
    exact hI'.shared

end Shared

/-- A slot is filled, and then a pmap is created. -/
def kernelMapped : PmapState × Set PmapPtr :=
  (KernelOp.map 0xffff800000000000 0x5000 pteW).run higherHalf (kernelBoot, ∅)

theorem KernelOp.create_step (h : Hhdm) (c : PmapState × Set PmapPtr) :
    KernelStep h c .create (KernelOp.create.run h c) ∧ KernelOp.create.Small h c.1 ∧
      KernelOp.create.Shares h c := by
  refine ⟨⟨fun va hva => ?_, rfl⟩, fun va hva => ?_, trivial⟩
  · cases hva
  · cases hva

theorem kernelBoot_map : KernelStep higherHalf (kernelBoot, ∅) (.map 0xffff800000000000 0x5000 pteW)
    kernelMapped ∧ (KernelOp.map 0xffff800000000000 0x5000 pteW).Small higherHalf kernelBoot ∧
    (KernelOp.map 0xffff800000000000 0x5000 pteW).Shares higherHalf (kernelBoot, ∅) := by
  have hnone : hwWalk higherHalf kernelBoot.kmem.mem 0x1000 0xffff800000000000 = none := by
    decide +kernel
  refine ⟨⟨fun va hva => ?_, rfl⟩, fun va hva => ?_, Or.inr (Or.inl rfl)⟩
  · obtain rfl := Option.some.inj hva
    decide
  · obtain rfl := Option.some.inj hva
    rintro ⟨k, e, hw⟩
    cases hnone.symm.trans hw

theorem kernel_half_shared_mapped : SharedUpper higherHalf (KernelOp.create.run higherHalf kernelMapped) ∧
    ∀ op c', KernelStep higherHalf (KernelOp.create.run higherHalf kernelMapped) op c' →
      op.Small higherHalf (KernelOp.create.run higherHalf kernelMapped).1 →
      3 ≤ (KernelOp.create.run higherHalf kernelMapped).1.kmem.pmm.frames.card →
      (SharedUpper higherHalf c' ↔ op.Shares higherHalf (KernelOp.create.run higherHalf kernelMapped)) :=
  kernel_half_shared kernelBoot_boot ((Run.start.snoc kernelBoot_map).snoc
    (KernelOp.create_step higherHalf kernelMapped))

/-- A pmap is created, and then the slot is filled: only `pmap_kernel` translates the address. -/
theorem kernel_slot_not_shared : ∃ trace c,
    Run (KernelStep higherHalf) (kernelBoot, ∅) trace c ∧ ¬ SharedUpper higherHalf c := by
  have hcreate : (pmapCreate higherHalf kernelBoot).1 = some (.page 0x4000) := by decide +kernel
  have hva : UpperVa 0xffff800000000000 := by decide
  have hstep (c : PmapState × Set PmapPtr) : KernelStep higherHalf c
      (.map 0xffff800000000000 0x5000 pteW)
      ((KernelOp.map 0xffff800000000000 0x5000 pteW).run higherHalf c) :=
    ⟨fun va hva' => Option.some.inj hva' ▸ hva, rfl⟩
  refine ⟨_, _, (Run.start.snoc (KernelOp.create_step higherHalf (kernelBoot, ∅)).1).snoc (hstep _),
    fun hshared => ?_⟩
  have heq := (hshared (.page 0x4000) (Or.inl hcreate) _ hva).1
  revert heq
  decide +kernel

end Dana
