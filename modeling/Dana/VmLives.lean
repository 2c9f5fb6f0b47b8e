import Dana.VmDestroy
import Dana.VmRollback

/-! Runs in which maps and pmaps are given back too: what a process writes is its own, whatever
map had the frame or the element before, and every pmap that goes keeps one page for good. -/
namespace Dana
open ByteMem RadixTree LinkedRing AddrLoop Transition

inductive VmLifeOp
  | op (l : VmOp)
  | destroy (m : VmMapPtr)
  | drop (p : PmapPtr)

/-- One step: as before, or a map is destroyed, or a pmap that no map took, as `exec_load` does
when it gets no map. The element of a destroyed map may become another map, so `wrote` then
holds nothing under its name. -/
inductive VmLifeStep (h : Hhdm) : VmWorld → VmLifeOp → VmWorld → Prop
  | op {w w' : VmWorld} {l : VmOp} (hs : VmStep h w l w') : VmLifeStep h w (.op l) w'
  | destroy (w : VmWorld) {m : VmMapPtr} {vm' : VmState} (hm : m ∈ w.maps)
    (hr : vmMapDestroy h w.vm m = some vm') :
    VmLifeStep h w (.destroy m)
      { w with vm := vm', maps := w.maps \ {m}, wrote := fun x => w.wrote x \ {m} }
  | drop (w : VmWorld) {p : PmapPtr} (hp : p ∈ w.pmaps) :
    VmLifeStep h w (.drop p)
      { w with vm := { w.vm with pm := pmapDestroy h w.vm.pm p }, pmaps := w.pmaps \ {p} }

/-- The step gives back a pmap. -/
def VmLifeOp.retires : VmLifeOp → Bool
  | .op _ => false
  | .destroy _ => true
  | .drop _ => true

/-- What the kernel held at boot it still holds, unchanged; the rest of the kernel has the frames
`R`, with what `rm` has in them; and the frames of `k` descriptors are gone for good. -/
structure KernelPart (h : Hhdm) (s₀ : VmState) (R : Set ℕ) (rm : Mem) (own : ℕ → Owner)
    (pm : PmapState) (k : ℕ) : Prop where
  frames : ∀ n, ¬ s₀.pm.kmem.pmm.Free n → own n = .kernel
  mem : ∀ x, ¬ s₀.pm.kmem.pmm.Free (frameOf h x) → pm.kmem.mem x = s₀.pm.kmem.mem x
  root : pm.pmaps .kernel = s₀.pm.pmaps .kernel
  rest : ∀ n ∈ R, own n = .kernel ∧ s₀.pm.kmem.pmm.Free n
  restMem : ∀ x, frameOf h x ∈ R → pm.kmem.mem x = rm x
  retired : ∃ D : Finset ℕ, D.card = k ∧
    ∀ n ∈ D, own n = .kernel ∧ s₀.pm.kmem.pmm.Free n ∧ n ∉ R

/-- The kernel has kept the descriptor of `p`. -/
def DescKept (R : Set ℕ) (own : ℕ → Owner) (p : PmapPtr) : Prop :=
  ∃ pa, p = .page pa ∧ own (pageOf pa) = .kernel ∧ pageOf pa ∉ R

/-- A frame that no call gives back: the kernel has it, or it was mapped in a pmap whose
descriptor the kernel has kept. -/
def Lost (own : ℕ → Owner) (n : ℕ) : Prop :=
  own n = .kernel ∨ ∃ pa q i, own n = .leaf (.page pa) q i ∧ own (pageOf pa) = .kernel

/-- What every state of a run with `k` pmaps given back keeps, the rest of the kernel aside. -/
structure VmLifeInv (h : Hhdm) (s₀ : VmState) (R : Set ℕ) (rm : Mem) (k : ℕ) (g : VmGhost)
    (lists : VmMapPtr → List EntryPtr) (w : VmWorld) : Prop where
  inv : VmInv h g w.maps lists w.vm
  spare : ∀ p ∈ w.pmaps, p ∈ g.live ∧ (∀ m ∈ w.maps, (w.vm.maps m).pmap ≠ p) ∧
    ∀ n q i, g.own n ≠ .leaf p q i
  refs : ∀ m ∈ w.maps, (w.vm.maps m).refCount = 1
  pmapRefs : ∀ p ∈ g.live, (w.vm.pm.pmaps p).refCount = 1
  owned : ∀ n p q i, g.own n = .leaf p q i → p ∈ g.live ∨ DescKept R g.own p
  bytes : ∀ m ∈ w.maps, ∀ x q i, g.own (frameOf h x) = .leaf (w.vm.maps m).pmap q i →
    (∀ m' ∈ w.wrote x, m' = m) ∧ (m ∉ w.wrote x → w.vm.pm.kmem.mem x = 0)
  kernel : KernelPart h s₀ R rm g.own w.vm.pm k

section Parts
variable {h : Hhdm} {s₀ s : VmState} {R : Set ℕ} {rm : Mem} {own own' : ℕ → Owner}
  {pm pm' : PmapState} {k : ℕ} {p : PmapPtr}

theorem Lost.keep {n : ℕ} (hn : Lost own n) (hk : ∀ n, own n = .kernel → own' n = .kernel)
    (hl : ∀ pa q i, own n = .leaf (.page pa) q i → own (pageOf pa) = .kernel →
      own' n = .leaf (.page pa) q i) : Lost own' n := by
  rcases hn with hn | ⟨pa, q, i, hn, hpa⟩
  · exact Or.inl (hk n hn)
  · exact Or.inr ⟨pa, q, i, hl pa q i hn hpa, hk _ hpa⟩

theorem Lost.not_free {n : ℕ} (hn : Lost own n) : own n ≠ .free := by
  rcases hn with hn | ⟨pa, q, i, hn, _⟩
  · rw [hn]
    simp
  · rw [hn]
    simp

theorem DescKept.keep (hd : DescKept R own p) (hk : ∀ n, own n = .kernel → own' n = .kernel) :
    DescKept R own' p := by
  obtain ⟨pa, hp, hn, hR⟩ := hd
  exact ⟨pa, hp, hk _ hn, hR⟩

/-- A pmap in use is none whose descriptor the kernel has kept. -/
theorem PmapInv.not_kept {live : Set PmapPtr} (hI : PmapInv h own pm live) (hp : p ∈ live) {pa : Word}
    (hpa : own (pageOf pa) = .kernel) : .page pa ≠ p := by
  rintro rfl
  obtain ⟨pa', he, _, hd⟩ := hI.desc _ hp
  obtain rfl := PmapPtr.page.inj he
  rw [hpa] at hd
  cases hd

theorem KernelPart.keep (hK : KernelPart h s₀ R rm own pm k) (hk : ∀ n, own n = .kernel → own' n = .kernel)
    (hm : ∀ x, own (frameOf h x) = .kernel → pm'.kmem.mem x = pm.kmem.mem x)
    (hr : pm'.pmaps .kernel = pm.pmaps .kernel) : KernelPart h s₀ R rm own' pm' k := by
  refine ⟨fun n hn => hk n (hK.frames n hn), fun x hx => ?_, hr.trans hK.root, fun n hn =>
    ⟨hk n (hK.rest n hn).1, (hK.rest n hn).2⟩, fun x hx => ?_, ?_⟩
  · exact (hm x (hK.frames _ hx)).trans (hK.mem x hx)
  · exact (hm x (hK.rest _ hx).1).trans (hK.restMem x hx)
  · obtain ⟨D, hcard, hD⟩ := hK.retired
    exact ⟨D, hcard, fun n hn => ⟨hk n (hD n hn).1, (hD n hn).2⟩⟩

/-- One more descriptor stays with the kernel. -/
theorem KernelPart.retire (hK : KernelPart h s₀ R rm own pm k) {n : ℕ} (hn : own n ≠ .kernel)
    (hn' : own' n = .kernel) (hk : ∀ n, own n = .kernel → own' n = .kernel)
    (hm : ∀ x, own (frameOf h x) = .kernel → pm'.kmem.mem x = pm.kmem.mem x)
    (hr : pm'.pmaps .kernel = pm.pmaps .kernel) : KernelPart h s₀ R rm own' pm' (k+1) := by
  obtain ⟨h1, h2, h3, h4, h5, -⟩ := hK.keep hk hm hr
  obtain ⟨D, hcard, hD⟩ := hK.retired
  have hnD : n ∉ D := fun hc => hn (hD n hc).1
  refine ⟨h1, h2, h3, h4, h5, insert n D, ?_, fun n' hmem => ?_⟩
  · rw [Finset.card_insert_of_notMem hnD, hcard]
  · rcases Finset.mem_insert.mp hmem with rfl | hmem
    · refine ⟨hn', ?_, fun hc => hn (hK.rest _ hc).1⟩
      by_contra hc
      exact hn (hK.frames _ hc)
    · exact ⟨hk _ (hD _ hmem).1, (hD _ hmem).2⟩

/-- The tables that the loops reach through the upper half are those of the boot. -/
theorem KernelPart.loops (hK : KernelPart h s₀ R rm own pm k) (ha : PageAligned (s₀.pm.pmaps .kernel).pml4Phys)
    (hroot : ¬ s₀.pm.kmem.pmm.Free (pageOf (s₀.pm.pmaps .kernel).pml4Phys))
    (hl : ∀ n ∈ kernelLoopFrames h s₀.pm, ¬ s₀.pm.kmem.pmm.Free n) :
    kernelLoopFrames h pm = kernelLoopFrames h s₀.pm := by
  refine kernelLoopFrames_congr ha hK.root fun x hx => hK.mem x ?_
  rcases hx with hx | hx
  · rwa [hx]
  · exact hl _ hx

theorem pmapCreate_pmaps {r : Option PmapPtr} (hr : pmapCreate h pm = (r, pm')) :
    pm'.pmaps .kernel = pm.pmaps .kernel ∧
      (∀ p, r ≠ some p → pm'.pmaps p = pm.pmaps p) ∧ ∀ p, r = some p → (pm'.pmaps p).refCount = 1 := by
  obtain ⟨pa, pmm, d, pmm', mem, -, -, -, hcases⟩ := pmapCreate_cases h pm
  rw [hr] at hcases
  rcases hcases with ⟨_, hres⟩ | ⟨_, _, hres⟩ | ⟨_, _, hres⟩
  · obtain ⟨rfl, rfl⟩ := Prod.mk.inj hres
    exact ⟨rfl, fun _ _ => rfl, fun p hp => by cases hp⟩
  · obtain ⟨rfl, rfl⟩ := Prod.mk.inj hres
    exact ⟨rfl, fun _ _ => rfl, fun p hp => by cases hp⟩
  · obtain ⟨rfl, rfl⟩ := Prod.mk.inj hres
    refine ⟨?_, fun p hp => ?_, fun p hp => ?_⟩
    · dsimp only
      rw [Function.update_of_ne (by simp)]
    · have hne : p ≠ .page d := fun hc => hp (by rw [hc])
      dsimp only
      rw [Function.update_of_ne hne]
    · obtain rfl := Option.some.inj hp
      dsimp only
      rw [Function.update_self]

theorem vmMapCreate_ref {min max : Word} {m : VmMapPtr} {s' : VmState}
    (hr : vmMapCreate h s p min max = (m, s')) (hm : m ≠ vmMapNull) :
    (s'.maps m).refCount = 1 := by
  rw [vmMapCreate] at hr
  obtain ⟨a, s1, ha⟩ : ∃ a s1, s.zalloc h s.vmMapZone = (a, s1) := ⟨_, _, rfl⟩
  rw [ha] at hr
  dsimp only at hr
  split_ifs at hr
  · exact absurd (Prod.mk.inj hr).1.symm hm
  · obtain ⟨rfl, rfl⟩ := Prod.mk.inj hr
    change (Function.update s1.maps (.elem a) _ (.elem a)).refCount = 1
    rw [Function.update_self]

end Parts

section Steps
variable {h : Hhdm} {s₀ : VmState} {R : Set ℕ} {rm : Mem} {k : ℕ} {g : VmGhost} {lists : VmMapPtr → List EntryPtr}
  {w w' : VmWorld} {m : VmMapPtr} {p : PmapPtr}

theorem VmLifeInv.pmapCreate (hI : VmLifeInv h s₀ R rm k g lists w) {r : Option PmapPtr}
    {pm' : PmapState} (hr : Dana.pmapCreate h w.vm.pm = (r, pm')) : ∃ g',
      VmLifeInv h s₀ R rm k g' lists
        { w with vm := { w.vm with pm := pm' }, pmaps := {p | r = some p} ∪ w.pmaps } ∧
      ∀ n, Lost g.own n → Lost g'.own n := by
  obtain ⟨g', hI', hk, _, hlive, hnew⟩ := hI.inv.pmapCreate hr
  obtain ⟨hroot, hother, href⟩ := pmapCreate_pmaps hr
  -- no page is left that was mapped under the name of the new pmap
  have hclean (p : PmapPtr) (hp : r = some p) (n : ℕ) (q : List Idx) (i : Idx) :
      g.own n ≠ .leaf p q i := by
    intro ho
    rcases hI.owned n p q i ho with hc | ⟨pa, rfl, hpa⟩
    · exact (hnew p hp).1 hc
    · have hlp : PmapPtr.page pa ∈ g'.live := by
        rw [hlive]
        exact Or.inl hp
      exact hI'.mem.pmap.not_kept hlp (hk.kernel _ hpa.1) rfl
  refine ⟨g', ⟨hI', fun p hp => ⟨?_, fun m hm => ?_, fun n q i => ?_⟩, hI.refs, fun p hp => ?_,
    fun n p q i hn => ?_, fun m hm x q i hn => ?_, hI.kernel.keep hk.kernel hk.kernelMem hroot⟩,
    fun n hn => hn.keep hk.kernel fun pa q i ho _ => (hk.leaf n _ q i).mpr ho⟩
  · rw [hlive]
    exact hp.imp_right fun hp => (hI.spare p hp).1
  · rcases hp with hp | hp
    · intro hc
      exact (hnew p hp).1 (hc ▸ hI.inv.pmap m hm)
    · exact (hI.spare p hp).2.1 m hm
  · rw [Ne, hk.leaf]
    rcases hp with hp | hp
    · exact hclean p hp n q i
    · exact (hI.spare p hp).2.2 n q i
  · rw [hlive] at hp
    by_cases hrp : r = some p
    · exact href p hrp
    · dsimp only
      rw [hother p hrp]
      exact hI.pmapRefs p (hp.resolve_left hrp)
  · rcases hI.owned n p q i ((hk.leaf n p q i).mp hn) with hp | hd
    · rw [hlive]
      exact Or.inl (Or.inr hp)
    · exact Or.inr (hd.keep hk.kernel)
  · have ho := (hk.leaf _ _ q i).mp hn
    obtain ⟨h1, h2⟩ := hI.bytes m hm x q i ho
    refine ⟨h1, fun hw => ?_⟩
    exact (hk.mem x ((hI.inv.mem.dataLeaf _).mpr ⟨_, q, i, ho⟩)).trans (h2 hw)

theorem VmLifeInv.mapCreated (hI : VmLifeInv h s₀ R rm k g lists w) (hp : p ∈ w.pmaps) {vm' : VmState}
    (hr : vmMapCreate h w.vm p userMapMin userMapMax = (m, vm')) (hm : m ≠ vmMapNull) :
    ∃ g' lists', VmLifeInv h s₀ R rm k g' lists'
        { w with vm := vm', pmaps := w.pmaps \ {p}, maps := insert m w.maps } ∧
      ∀ n, Lost g.own n → Lost g'.own n := by
  obtain ⟨hlive, hfree, hclean⟩ := hI.spare _ hp
  have href := vmMapCreate_ref hr hm
  rcases vmMapCreate_spec hI.inv hlive hfree with he | ⟨a, s', g', he, _, hout, hI', hk, hl, hd,
    hpm, _, hpmap, hmaps, _⟩
  · exact absurd (Prod.mk.inj (hr.symm.trans he)).1 hm
  obtain ⟨rfl, rfl⟩ := Prod.mk.inj (hr.symm.trans he)
  have hne (m : VmMapPtr) (hm : m ∈ w.maps) : m ≠ .elem a := fun hc => hout (hc ▸ hm)
  refine ⟨g', _, ⟨hI', fun p' hp' => ⟨?_, ?_, fun n q i => ?_⟩, ?_, fun p' hp' => ?_,
    fun n p' q i hn => ?_, ?_, hI.kernel.keep hk.kernel hk.kernelMem (congrFun hpm _)⟩,
    fun n hn => hn.keep hk.kernel fun pa q i ho _ => (hk.leaf n _ q i).mpr ho⟩
  · rw [hl]
    exact (hI.spare p' hp'.1).1
  · rintro m (rfl | hm)
    · rw [hpmap]
      exact fun hc => hp'.2 hc.symm
    · rw [hmaps m (hne m hm)]
      exact (hI.spare p' hp'.1).2.1 m hm
  · rw [Ne, hk.leaf]
    exact (hI.spare p' hp'.1).2.2 n q i
  · rintro m (rfl | hm)
    · exact href
    · dsimp only
      rw [hmaps m (hne m hm)]
      exact hI.refs m hm
  · dsimp only
    rw [hpm]
    exact hI.pmapRefs p' (hl ▸ hp')
  · rw [hl]
    exact (hI.owned n p' q i ((hk.leaf _ _ _ _).mp hn)).imp_right fun hd => hd.keep hk.kernel
  · rintro m (rfl | hm) x q i hn
    · dsimp only at hn
      rw [hpmap, hk.leaf] at hn
      exact absurd hn (hclean _ _ _)
    · dsimp only at hn
      rw [hmaps m (hne m hm), hk.leaf] at hn
      obtain ⟨h1, h2⟩ := hI.bytes m hm x q i hn
      refine ⟨h1, fun hw => ?_⟩
      exact (hk.mem x ((hI.inv.mem.dataLeaf _).mpr ⟨_, q, i, hn⟩)).trans (h2 hw)

theorem VmLifeInv.call (hI : VmLifeInv h s₀ R rm k g lists w) (hm : m ∈ w.maps) {c : VmCall}
    {vm' : VmState} (hr : c.run h w.vm m = some vm') : ∃ g' lists', VmLifeInv h s₀ R rm k g' lists'
        { w with
          vm := vm'
          wrote := fun x => {m' | m' ∈ w.wrote x ∧
            ¬ (frameOf h x ∈ vm'.data ∧ frameOf h x ∉ w.vm.data)} } ∧
      ∀ n, Lost g.own n → Lost g'.own n := by
  obtain ⟨s', g', lists', hrun, hC⟩ := VmCall.spec hI.inv hm c
  obtain rfl := Option.some.inj (hr.symm.trans hrun)
  have hpmap (m' : VmMapPtr) : (vm'.maps m').pmap = (w.vm.maps m').pmap := fixed_pmap (hC.fixed m')
  have href (m' : VmMapPtr) : (vm'.maps m').refCount = (w.vm.maps m').refCount :=
    congrArg (fun v : Word × Word × BitVec 32 × PmapPtr => v.2.2.1) (hC.fixed m')
  have hplive := hI.inv.pmap m hm
  refine ⟨g', lists', ⟨hC.inv, fun p hp => ⟨?_, fun m' hm' => ?_, fun n q i hn => ?_⟩,
    fun m' hm' => ?_, fun p hp => ?_, fun n p q i hn => ?_, fun m' hm' x q i hn => ?_,
    hI.kernel.keep hC.paged.kernel hC.paged.kernelMem (congrFun hC.paged.pmaps _)⟩,
    fun n hn => hn.keep hC.paged.kernel fun pa q i ho hpa =>
      hC.paged.keep n _ q i (hI.inv.mem.pmap.not_kept hplive hpa) ho⟩
  · rw [hC.live]
    exact (hI.spare p hp).1
  · rw [hpmap]
    exact (hI.spare p hp).2.1 m' hm'
  · rcases hC.paged.fresh n p q i hn with hc | hc
    · exact (hI.spare p hp).2.1 m hm hc.symm
    · exact (hI.spare p hp).2.2 n q i hc
  · dsimp only
    rw [href]
    exact hI.refs m' hm'
  · dsimp only
    rw [hC.paged.pmaps]
    exact hI.pmapRefs p (hC.live ▸ hp)
  · rw [hC.live]
    rcases hC.paged.fresh n p q i hn with rfl | hc
    · exact Or.inl hplive
    · exact (hI.owned n p q i hc).imp_right fun hd => hd.keep hC.paged.kernel
  · dsimp only at hn ⊢
    rw [hpmap] at hn
    have hx : frameOf h x ∈ vm'.data := (hC.inv.mem.dataLeaf _).mpr ⟨_, q, i, hn⟩
    by_cases hold : frameOf h x ∈ w.vm.data
    · -- the frame was owned before, and by this map
      obtain ⟨p', q', i', ho⟩ := (hI.inv.mem.dataLeaf _).mp hold
      have hp' : p' = (w.vm.maps m').pmap := by
        by_cases hpp : p' = (w.vm.maps m).pmap
        · rcases hC.paged.fresh _ _ _ _ hn with hc | hc
          · exact hpp.trans hc.symm
          · exact (Owner.leaf.inj (ho.symm.trans hc)).1
        · exact (Owner.leaf.inj ((hC.paged.keep _ _ _ _ hpp ho).symm.trans hn)).1
      obtain ⟨h1, h2⟩ := hI.bytes m' hm' x q' i' (hp' ▸ ho)
      refine ⟨fun m2 hm2 => h1 m2 hm2.1, fun hw => ?_⟩
      have hw' : m' ∉ w.wrote x := fun hc => hw ⟨hc, fun hc' => hc'.2 hold⟩
      rcases hC.paged.mem x hx with ⟨_, he⟩ | he
      · exact he.trans (h2 hw')
      · exact he
    · refine ⟨fun m2 hm2 => absurd ⟨hx, hold⟩ hm2.2, fun _ => ?_⟩
      exact (hC.paged.mem x hx).resolve_left fun hc => hold hc.1

theorem VmLifeInv.write (hI : VmLifeInv h s₀ R rm k g lists w) {va e : Word} (b : Byte) (hm : m ∈ w.maps)
    (hva : UserVa va) (he : pteOf h w.vm.pm (w.vm.maps m).pmap va = some e) :
    VmLifeInv h s₀ R rm k g lists { w with
      vm := w.vm.writeByte (leafByte h e va) b
      wrote := Function.update w.wrote (leafByte h e va)
        (insert m (w.wrote (leafByte h e va))) } := by
  have hd := hI.inv.mem.leaf _ (hI.inv.pmap _ hm) _ _ hva he
  have hframe := hd.leafByte (h := h)
  obtain ⟨hI', _⟩ := hI.inv.writeByte (hframe ▸ hd.mem) b
  have ho := hframe ▸ hd.owner
  have hother (x : Word) (hx : g.own (frameOf h x) = .kernel) :
      (w.vm.writeByte (leafByte h e va) b).pm.kmem.mem x = w.vm.pm.kmem.mem x := by
    refine Function.update_of_ne ?_ _ _
    rintro rfl
    rw [ho] at hx
    cases hx
  refine ⟨hI', hI.spare, hI.refs, hI.pmapRefs, hI.owned, fun m' hm' x q i hn => ?_,
    hI.kernel.keep (fun _ hn => hn) hother rfl⟩
  obtain ⟨h1, h2⟩ := hI.bytes m' hm' x q i hn
  dsimp only
  by_cases hx : x = leafByte h e va
  · -- a frame has one owner, and a pmap one map
    have hmm : m = m' := by
      rw [hx, ho] at hn
      exact hI.inv.pmaps m hm m' hm' (Owner.leaf.inj hn).1
    rw [hx, Function.update_self, ← hx, hmm]
    exact ⟨fun m2 hm2 => hm2.elim id (h1 m2), fun hw => absurd (Set.mem_insert _ _) hw⟩
  · rw [Function.update_of_ne hx]
    refine ⟨h1, fun hw => ?_⟩
    exact (Function.update_of_ne hx _ _).trans (h2 hw)

theorem VmLifeInv.op (hI : VmLifeInv h s₀ R rm k g lists w) {l : VmOp} (hs : VmStep h w l w') :
    ∃ g' lists', VmLifeInv h s₀ R rm k g' lists' w' ∧ ∀ n, Lost g.own n → Lost g'.own n := by
  cases hs with
  | pmapCreate hr =>
    obtain ⟨g', hI'⟩ := hI.pmapCreate hr
    exact ⟨g', lists, hI'⟩
  | mapCreate hp hr =>
    obtain ⟨hlive, hfree, _⟩ := hI.spare _ hp
    rcases vmMapCreate_spec hI.inv hlive hfree with he | ⟨a, s', g', he, hne, _⟩
    · obtain ⟨_, rfl⟩ := Prod.mk.inj (hr.symm.trans he)
      exact ⟨g, lists, hI, fun _ hn => hn⟩
    · obtain ⟨hm, _⟩ := Prod.mk.inj (hr.symm.trans he)
      exact absurd (VmMapPtr.elem.inj hm).symm hne
  | mapCreated hp hr hm => exact hI.mapCreated hp hr hm
  | call hm hr => exact hI.call hm hr
  | write b hm hva he => exact ⟨g, lists, hI.write b hm hva he, fun _ hn => hn⟩

/-- The loops of `pmap_free_tables` reach no table of the kernel that the PMM could take back. -/
def LoopsAbove (h : Hhdm) (pm : PmapState) : Prop := ∀ n ∈ kernelLoopFrames h pm, ¬ Tracked n

/-- Giving pmaps back does no harm: the direct map is high, and the loops reach no tracked table
through the upper half. -/
def SafeToRetire (h : Hhdm) (pm : PmapState) : Prop := h.High ∧ LoopsAbove h pm

theorem VmLifeInv.above (hb : VmBoot h s₀) (hl : LoopsAbove h s₀.pm)
    (hI : VmLifeInv h s₀ R rm k g lists w) :
    ∀ n ∈ kernelLoopFrames h w.vm.pm, g.own n = .kernel ∧ ¬ Tracked n := by
  have hused (n : ℕ) (hn : n ∈ kernelLoopFrames h s₀.pm) : ¬ s₀.pm.kmem.pmm.Free n := by
    intro hf
    refine hl n hn ⟨?_, hf.1⟩
    by_contra h0
    obtain rfl : n = 0 := by omega
    exact hb.pmap.pageZero hf
  intro n hn
  rw [hI.kernel.loops hb.pmap.aligned hb.pmap.root hused] at hn
  exact ⟨hI.kernel.frames n (hused n hn), hl n hn⟩

/-- A destroyed map takes its pages with it, and leaves the descriptor of its pmap behind. -/
theorem VmLifeInv.destroy (hb : VmBoot h s₀) (hh : h.High) (hl : LoopsAbove h s₀.pm)
    (hI : VmLifeInv h s₀ R rm k g lists w) (hm : m ∈ w.maps) : ∃ vm' g',
      vmMapDestroy h w.vm m = some vm' ∧ Destroyed h g g' w.maps lists m w.vm vm' ∧
      VmLifeInv h s₀ R rm (k+1) g' lists
        { w with vm := vm', maps := w.maps \ {m}, wrote := fun x => w.wrote x \ {m} } ∧
      ∀ n, Lost g.own n → Lost g'.own n := by
  obtain ⟨vm', g', hrun, hD⟩ := vmMapDestroy_spec hI.inv hm (hI.refs m hm)
    (hI.pmapRefs _ (hI.inv.pmap m hm)) hh (hI.above hb hl)
  have hpne (m' : VmMapPtr) (hm' : m' ∈ w.maps \ {m}) :
      (w.vm.maps m').pmap ≠ (w.vm.maps m).pmap := fun hc => hm'.2 (hI.inv.pmaps m' hm'.1 m hm hc)
  obtain ⟨pa, hpa, hd, hk⟩ := hD.desc
  refine ⟨vm', g', hrun, hD, ⟨hD.inv, fun p hp => ⟨?_, fun m' hm' => ?_, fun n q i hn => ?_⟩,
    fun m' hm' => ?_, fun p hp => ?_, fun n p q i hn => ?_, fun m' hm' x q i hn => ?_, ?_⟩,
    fun n hn => hn.keep hD.kernel fun pa q i ho hpa =>
      hD.keep n _ q i (hI.inv.mem.pmap.not_kept (hI.inv.pmap m hm) hpa) ho⟩
  · rw [hD.live]
    exact ⟨(hI.spare p hp).1, fun hc => (hI.spare p hp).2.1 m hm hc.symm⟩
  · dsimp only
    rw [hD.map m' hm'.2]
    exact (hI.spare p hp).2.1 m' hm'.1
  · obtain ⟨q', i', ho⟩ := hD.fresh n p q i hn
    exact (hI.spare p hp).2.2 n q' i' ho
  · dsimp only
    rw [hD.map m' hm'.2]
    exact hI.refs m' hm'.1
  · rw [hD.live] at hp
    dsimp only
    rw [hD.pmaps p hp.2]
    exact hI.pmapRefs p hp.1
  · obtain ⟨q', i', ho⟩ := hD.fresh n p q i hn
    rw [hD.live]
    by_cases hp : p = (w.vm.maps m).pmap
    · refine Or.inr ⟨pa, hp.trans hpa, hk, fun hc => ?_⟩
      have hker := (hI.kernel.rest _ hc).1
      rw [hd] at hker
      cases hker
    · exact (hI.owned n p q' i' ho).imp (fun hlp => ⟨hlp, hp⟩) fun hd => hd.keep hD.kernel
  · dsimp only at hn ⊢
    rw [hD.map m' hm'.2] at hn
    obtain ⟨q', i', ho⟩ := hD.fresh _ _ q i hn
    obtain ⟨h1, h2⟩ := hI.bytes m' hm'.1 x q' i' ho
    refine ⟨fun m2 hm2 => h1 m2 hm2.1, fun hw => ?_⟩
    refine (hD.mem x ((hD.inv.mem.dataLeaf _).mpr ⟨_, q, i, hn⟩)).trans (h2 fun hc => ?_)
    exact hw ⟨hc, hm'.2⟩
  · refine hI.kernel.retire (n := pageOf pa) (by rw [hd]; simp) hk hD.kernel hD.kernelMem ?_
    refine hD.pmaps _ ?_
    rw [hpa]
    simp

theorem VmLifeInv.drop (hb : VmBoot h s₀) (hh : h.High) (hl : LoopsAbove h s₀.pm)
    (hI : VmLifeInv h s₀ R rm k g lists w) (hp : p ∈ w.pmaps) : ∃ g', VmLifeInv h s₀ R rm (k+1) g' lists
        { w with vm := { w.vm with pm := pmapDestroy h w.vm.pm p }, pmaps := w.pmaps \ {p} } ∧
      ∀ n, Lost g.own n → Lost g'.own n := by
  obtain ⟨hlive, hfree, hclean⟩ := hI.spare p hp
  have hI' := hI.inv.retire hlive hfree (hI.pmapRefs p hlive) hh fun n hn => (hI.above hb hl n hn).2
  obtain ⟨pa, hpa, _, hd⟩ := hI.inv.mem.pmap.desc p hlive
  have hker (n : ℕ) (hn : g.own n = .kernel) : retireOwner g.own p n = .kernel :=
    retireOwner_kernel.mpr (Or.inl hn)
  refine ⟨_, ⟨hI', fun p' hp' => ⟨⟨(hI.spare p' hp'.1).1, hp'.2⟩, (hI.spare p' hp'.1).2.1,
    fun n q i hn => ?_⟩, hI.refs, fun p' hp' => ?_, fun n p' q i hn => ?_, fun m hm x q i hn => ?_, ?_⟩,
    fun n hn => hn.keep hker fun pa q i ho _ => retireOwner_leaf.mpr ho⟩
  · exact (hI.spare p' hp'.1).2.2 n q i (retireOwner_leaf.mp hn)
  · dsimp only
    rw [pmapDestroy_other h _ hp'.2]
    exact hI.pmapRefs p' hp'.1
  · have ho := retireOwner_leaf.mp hn
    refine (hI.owned n p' q i ho).imp (fun hlp => ⟨hlp, ?_⟩) fun hd => hd.keep hker
    rintro rfl
    exact hclean n q i ho
  · obtain ⟨h1, h2⟩ := hI.bytes m hm x q i (retireOwner_leaf.mp hn)
    refine ⟨h1, fun hw => ?_⟩
    dsimp only
    rw [pmapDestroy_mem]
    exact h2 hw
  · refine hI.kernel.retire (n := pageOf pa) (by rw [hd]; simp) ?_ hker (fun x _ => ?_) ?_
    · exact retireOwner_kernel.mpr (Or.inr hd)
    · dsimp only
      rw [pmapDestroy_mem]
    · refine pmapDestroy_other h _ ?_
      rw [hpa]
      simp

theorem VmBoot.life {s : VmState} (hb : VmBoot h s₀) (hs : vmMapInit s₀ = some s) :
    VmLifeInv h s₀ ∅ s₀.pm.kmem.mem 0 (vmGhostBoot s₀.pm.kmem.pmm) (fun _ => []) (VmWorld.boot s) := by
  obtain ⟨s', hs', hI, hpm, _⟩ := hb.init
  obtain rfl := Option.some.inj (hs.symm.trans hs')
  refine ⟨hI, fun p hp => hp.elim, fun m hm => hm.elim, fun p hp => hp.elim, fun n p q i hn => ?_,
    fun m hm => hm.elim, ⟨fun n hn => ?_, fun x _ => ?_, ?_, fun n hn => hn.elim, fun x hx => hx.elim, ∅, rfl, by simp⟩⟩
  · change bootOwner s₀.pm.kmem.pmm n = _ at hn
    unfold bootOwner at hn
    split_ifs at hn
  · exact if_neg hn
  · change s.pm.kmem.mem x = _
    rw [hpm]
  · change s.pm.pmaps .kernel = _
    rw [hpm]

/-- The number of steps of a run that gave back a pmap. -/
def retired (trace : List VmLifeOp) : ℕ := trace.countP VmLifeOp.retires

/-- Before the first pmap is given back nothing need be known of where the tables of the kernel
are. -/
theorem VmLifeInv.run_ops (hb : VmBoot h s₀) {s : VmState} (hs : vmMapInit s₀ = some s)
    {trace : List VmOp} (hr : Run (VmStep h) (VmWorld.boot s) trace w) :
    ∃ g lists, VmLifeInv h s₀ ∅ s₀.pm.kmem.mem 0 g lists w :=
  hr.inv (I := fun w => ∃ g lists, VmLifeInv h s₀ ∅ s₀.pm.kmem.mem 0 g lists w) (fun _ _ _ hstep hI => by
    obtain ⟨g, lists, hI⟩ := hI
    obtain ⟨g', lists', hI', _⟩ := hI.op hstep
    exact ⟨g', lists', hI'⟩) ⟨_, _, hb.life hs⟩

/-- One step, whichever it is. -/
theorem VmLifeInv.step (hb : VmBoot h s₀) (hI : VmLifeInv h s₀ R rm k g lists w) {l : VmLifeOp}
    (hl : l.retires = true → SafeToRetire h s₀.pm) (hs : VmLifeStep h w l w') :
    ∃ g' lists', VmLifeInv h s₀ R rm (k+retired [l]) g' lists' w' ∧ ∀ n, Lost g.own n → Lost g'.own n := by
  cases hs with
  | op hs => exact hI.op hs
  | destroy hm hr =>
    obtain ⟨hh, hl⟩ := hl rfl
    obtain ⟨vm', g', hrun, _, hI', hlost⟩ := hI.destroy hb hh hl hm
    obtain rfl := Option.some.inj (hr.symm.trans hrun)
    exact ⟨g', lists, hI', hlost⟩
  | drop hp =>
    obtain ⟨hh, hl⟩ := hl rfl
    obtain ⟨g', hI', hlost⟩ := hI.drop hb hh hl hp
    exact ⟨g', lists, hI', hlost⟩

theorem VmLifeInv.run_from (hb : VmBoot h s₀) (hI : VmLifeInv h s₀ R rm k g lists w)
    {trace : List VmLifeOp} (hl : ∀ l ∈ trace, l.retires = true → SafeToRetire h s₀.pm)
    (hr : Run (VmLifeStep h) w trace w') : ∃ g' lists',
      VmLifeInv h s₀ R rm (k+retired trace) g' lists' w' ∧ ∀ n, Lost g.own n → Lost g'.own n := by
  induction hr with
  | start => exact ⟨g, lists, hI, fun _ hn => hn⟩
  | snoc _ hs ih =>
    obtain ⟨g1, lists1, hI1, hlost1⟩ := ih fun l hl' => hl l (List.mem_append_left _ hl')
    obtain ⟨g2, lists2, hI2, hlost2⟩ := hI1.step hb (hl _ (by simp)) hs
    refine ⟨g2, lists2, ?_, fun n hn => hlost2 n (hlost1 n hn)⟩
    rw [retired, List.countP_append, ← Nat.add_assoc]
    exact hI2

theorem VmLifeInv.run (hb : VmBoot h s₀) {s : VmState} (hs : vmMapInit s₀ = some s)
    {trace : List VmLifeOp} (hl : ∀ l ∈ trace, l.retires = true → SafeToRetire h s₀.pm)
    (hr : Run (VmLifeStep h) (VmWorld.boot s) trace w) :
    ∃ g lists, VmLifeInv h s₀ ∅ s₀.pm.kmem.mem (retired trace) g lists w := by
  obtain ⟨g, lists, hI, _⟩ := (hb.life hs).run_from hb hl hr
  rw [Nat.zero_add] at hI
  exact ⟨g, lists, hI⟩

end Steps

/-- A run without a destroyed map is one of these runs. -/
theorem VmLifeStep.lift {h : Hhdm} {w w' : VmWorld} {trace : List VmOp}
    (hr : Run (VmStep h) w trace w') : Run (VmLifeStep h) w (trace.map VmLifeOp.op) w' := by
  induction hr with
  | start => exact Run.start
  | snoc _ hs ih =>
    rw [List.map_append]
    exact ih.snoc (VmLifeStep.op hs)

/-- A state with a page at 0x1000 of the first map, and no entry. -/
theorem vmFirst_page : ∃ w e, Run (VmStep higherHalf) (VmWorld.boot vmBooted)
      [.pmapCreate, .mapCreate, .call vmFirstMap (.pageRange 0x1000 0x1000 3)] w ∧
    vmFirstMap ∈ w.maps ∧ UserVa 0x1000 ∧
    pteOf higherHalf w.vm.pm (w.vm.maps vmFirstMap).pmap 0x1000 = some e ∧
    vmEntries w.vm vmFirstMap = some [] := by
  obtain ⟨s, wrote, hrun, hr⟩ := vmFirst_call (.pageRange 0x1000 0x1000 3)
  have hsome : (VmCall.run higherHalf vmFirst vmFirstMap (.pageRange 0x1000 0x1000 3)).map (fun s =>
      ((pteOf higherHalf s.pm (s.maps vmFirstMap).pmap 0x1000).isSome,
        decide (s.next (.header vmFirstMap) = .header vmFirstMap))) = some (true, true) := by
    decide +kernel
  rw [hrun, Option.map_some] at hsome
  obtain ⟨hpte, hnext⟩ := Prod.mk.inj (Option.some.inj hsome)
  obtain ⟨e, he⟩ := Option.isSome_iff_exists.mp hpte
  refine ⟨_, e, hr, rfl, show (0x1000 : Word).toNat < 2^47 by decide, he, ?_⟩
  rw [vmEntries, of_decide_eq_true hnext, follow_sentinel]

section Results
variable {h : Hhdm} {s₀ s : VmState} {w : VmWorld} {m : VmMapPtr}

theorem VmInv.entries_eq {g : VmGhost} {maps : Set VmMapPtr} {lists : VmMapPtr → List EntryPtr}
    (hI : VmInv h g maps lists s) (hm : m ∈ maps) : vmEntries s m = some (lists m) :=
  (hI.map m hm).ring.follow_next _ (hI.length_le hm)

/-- A page that a map has is its alone, and so are the bytes. -/
theorem VmLifeInv.page_private {R : Set ℕ} {rm : Mem} {k : ℕ} {g : VmGhost}
    {lists : VmMapPtr → List EntryPtr} (hI : VmLifeInv h s₀ R rm k g lists w) (hm : m ∈ w.maps)
    {va e : Word} (hva : UserVa va) (he : pteOf h w.vm.pm (w.vm.maps m).pmap va = some e) :
    ¬ w.vm.pm.kmem.pmm.Free (pageOf (pteFrame e)) ∧
    (∀ m' ∈ w.wrote (leafByte h e va), m' = m) ∧
    (m ∉ w.wrote (leafByte h e va) → w.vm.pm.kmem.mem (leafByte h e va) = 0) ∧
    ∀ m' ∈ w.maps, ∀ va' e', UserVa va' → pteOf h w.vm.pm (w.vm.maps m').pmap va' = some e' →
      pageOf (pteFrame e') = pageOf (pteFrame e) → m' = m ∧ pageOf va' = pageOf va := by
  have hd := hI.inv.mem.leaf _ (hI.inv.pmap m hm) va e hva he
  have hframe := hd.leafByte (h := h)
  obtain ⟨hwrote, hzero⟩ := hI.bytes m hm (leafByte h e va) _ _ (hframe ▸ hd.owner)
  refine ⟨hI.inv.mem.data_used hd.mem, hwrote, hzero, fun m' hm' va' e' hva' he' hpage => ?_⟩
  have hd' := hI.inv.mem.leaf _ (hI.inv.pmap m' hm') va' e' hva' he'
  have ho := hd'.owner
  rw [hpage, hd.owner] at ho
  obtain ⟨hp, hq, hi⟩ := Owner.leaf.inj ho
  exact ⟨hI.inv.pmaps m' hm' m hm hp.symm, (vaPath_eq_iff hva hva').mp ⟨hq.symm, hi.symm⟩⟩

/-- In every run, maps destroyed or not, a page that a map has is in use and its alone; each of
its bytes was last written through this map since the map was made, or is 0. -/
theorem vm_life_private (hb : VmBoot h s₀) (hs : vmMapInit s₀ = some s) {trace : List VmLifeOp}
    (hl : ∀ l ∈ trace, l.retires = true → SafeToRetire h s₀.pm)
    (hr : Run (VmLifeStep h) (VmWorld.boot s) trace w) (hm : m ∈ w.maps) {va e : Word}
    (hva : UserVa va) (he : pteOf h w.vm.pm (w.vm.maps m).pmap va = some e) :
    ¬ w.vm.pm.kmem.pmm.Free (pageOf (pteFrame e)) ∧
    (∀ m' ∈ w.wrote (leafByte h e va), m' = m) ∧
    (m ∉ w.wrote (leafByte h e va) → w.vm.pm.kmem.mem (leafByte h e va) = 0) ∧
    ∀ m' ∈ w.maps, ∀ va' e', UserVa va' → pteOf h w.vm.pm (w.vm.maps m').pmap va' = some e' →
      pageOf (pteFrame e') = pageOf (pteFrame e) → m' = m ∧ pageOf va' = pageOf va := by
  obtain ⟨g, lists, hI⟩ := VmLifeInv.run hb hs hl hr
  exact hI.page_private hm hva he

/-- No table of the kernel hangs in the first PML4. -/
theorem vmBootState_above : LoopsAbove higherHalf vmBootState.pm := by
  rintro n ⟨i, q, t, -, -, ht, rfl⟩
  cases (loopTable_blank higherHalf _ i q).symm.trans ht

theorem higherHalf_high : higherHalf.High := by decide

/-- The page at 0x1000 of the first map, which nobody has written. -/
theorem vm_life_private_page : ∃ (w : VmWorld) (e : Word),
    pteOf higherHalf w.vm.pm (w.vm.maps vmFirstMap).pmap 0x1000 = some e ∧ ¬ w.vm.pm.kmem.pmm.Free (pageOf (pteFrame e)) ∧
    ∀ m ∈ w.wrote (leafByte higherHalf e 0x1000), m = vmFirstMap := by
  obtain ⟨w, e, hr, hm, hva, he, -⟩ := vmFirst_page
  obtain ⟨hused, hwrote, -⟩ := vm_life_private vmBootState_boot vmBooted_init
    (by simp [VmLifeOp.retires]) (VmLifeStep.lift hr) hm hva he
  exact ⟨w, e, he, hused, hwrote⟩

/-- In every run each map can be destroyed. That gives back the pages under its entries and the
tables of its pmap, and every other map keeps its list, its translations and its bytes. -/
theorem vm_life_destroy (hb : VmBoot h s₀) (hh : h.High) (hl : LoopsAbove h s₀.pm)
    (hs : vmMapInit s₀ = some s) {trace : List VmLifeOp}
    (hr : Run (VmLifeStep h) (VmWorld.boot s) trace w) (hm : m ∈ w.maps) :
    ∃ vm' l, vmMapDestroy h w.vm m = some vm' ∧ vmEntries w.vm m = some l ∧
      (∀ n, vm'.pm.kmem.pmm.Free n ↔ w.vm.pm.kmem.pmm.Free n ∨ n ∈ entryPages h w.vm m l ∨
        n ∈ pmapTables h w.vm.pm (w.vm.maps m).pmap) ∧
      ∀ m' ∈ w.maps, m' ≠ m → vm'.maps m' = w.vm.maps m' ∧ vmEntries vm' m' = vmEntries w.vm m' ∧
        (∀ l', vmEntries w.vm m' = some l' → ∀ e ∈ l', vm'.entries e = w.vm.entries e) ∧
        ∀ va, UserVa va → pteOf h vm'.pm (w.vm.maps m').pmap va = pteOf h w.vm.pm (w.vm.maps m').pmap va ∧
          ∀ e, pteOf h w.vm.pm (w.vm.maps m').pmap va = some e →
            vm'.pm.kmem.mem (leafByte h e va) = w.vm.pm.kmem.mem (leafByte h e va) := by
  obtain ⟨g, lists, hI⟩ := VmLifeInv.run hb hs (fun _ _ _ => ⟨hh, hl⟩) hr
  obtain ⟨vm', g', hrun, hD, -⟩ := hI.destroy hb hh hl hm
  refine ⟨vm', lists m, hrun, hI.inv.entries_eq hm, hD.free, fun m' hm' hne => ?_⟩
  have hpne : (w.vm.maps m').pmap ≠ (w.vm.maps m).pmap := fun hc => hne (hI.inv.pmaps m' hm' m hm hc)
  refine ⟨hD.map m' hne, ?_, fun l' hl' e he => ?_, fun va hva => ⟨?_, fun e he => ?_⟩⟩
  · rw [hD.inv.entries_eq ⟨hm', hne⟩, hI.inv.entries_eq hm']
  · rw [hI.inv.entries_eq hm'] at hl'
    obtain rfl := Option.some.inj hl'
    exact hD.entries m' hm' hne e (List.mem_cons_of_mem _ he)
  · exact hD.pte _ (hI.inv.pmap m' hm') hpne va hva
  · have hd := hI.inv.mem.leaf _ (hI.inv.pmap m' hm') va e hva he
    have ho := hD.keep _ _ _ _ hpne hd.owner
    rw [← hd.leafByte] at ho
    exact hD.mem _ ((hD.inv.mem.dataLeaf _).mpr ⟨_, _, _, ho⟩)

theorem vm_life_destroy_first : ∃ vm' l, vmMapDestroy higherHalf vmFirst vmFirstMap = some vm' ∧
    vmEntries vmFirst vmFirstMap = some l ∧
    ∀ n, vm'.pm.kmem.pmm.Free n ↔ vmFirst.pm.kmem.pmm.Free n ∨
      n ∈ entryPages higherHalf vmFirst vmFirstMap l ∨
      n ∈ pmapTables higherHalf vmFirst.pm (vmFirst.maps vmFirstMap).pmap := by
  obtain ⟨vm', l, hrun, hl, hfree, -⟩ := vm_life_destroy vmBootState_boot higherHalf_high
    vmBootState_above vmBooted_init (VmLifeStep.lift vmFirst_run) rfl
  exact ⟨vm', l, hrun, hl, hfree⟩

/-- Wherever the tables of the kernel are: the first map to be destroyed gives back its pages
and tables, and with them every tracked table of the kernel that the loops reach, and the page
that the address of the descriptor is taken for. -/
theorem vm_run_destroy_frees (hb : VmBoot h s₀) (hs : vmMapInit s₀ = some s)
    (hused : ∀ n ∈ kernelLoopFrames h s₀.pm, ¬ s₀.pm.kmem.pmm.Free n) {trace : List VmOp}
    (hr : Run (VmStep h) (VmWorld.boot s) trace w) (hm : m ∈ w.maps) :
    ∃ vm' l, vmMapDestroy h w.vm m = some vm' ∧ vmEntries w.vm m = some l ∧
      ∀ n, vm'.pm.kmem.pmm.Free n ↔ w.vm.pm.kmem.pmm.Free n ∨ n ∈ entryPages h w.vm m l ∨
        n ∈ pmapTables h w.vm.pm (w.vm.maps m).pmap ∨
        Tracked n ∧ (n ∈ kernelLoopFrames h s₀.pm ∨
          ∃ pa, (w.vm.maps m).pmap = .page pa ∧ n = pageOf (virtToPhys h pa)) := by
  obtain ⟨g, lists, hI⟩ := VmLifeInv.run_ops hb hs hr
  have hloops := hI.kernel.loops hb.pmap.aligned hb.pmap.root hused
  obtain ⟨vm', hrun, hfree⟩ := vmMapDestroy_free hI.inv hm (hI.refs m hm)
    (hI.pmapRefs _ (hI.inv.pmap m hm)) fun n hn => hI.kernel.frames n (hused n (hloops ▸ hn))
  rw [hloops] at hfree
  exact ⟨vm', lists m, hrun, hI.inv.entries_eq hm, hfree⟩

theorem vm_run_destroy_frees_first : ∃ vm', vmMapDestroy higherHalf vmFirst vmFirstMap = some vm' ∧
    ∀ n ∈ pmapTables higherHalf vmFirst.pm (vmFirst.maps vmFirstMap).pmap,
      vm'.pm.kmem.pmm.Free n := by
  obtain ⟨vm', l, hrun, -, hfree⟩ := vm_run_destroy_frees vmBootState_boot vmBooted_init
    (fun n hn hf => vmBootState_above n hn ⟨Nat.pos_of_ne_zero fun h0 =>
      vmBootState_boot.pmap.pageZero (h0 ▸ hf), hf.1⟩) vmFirst_run rfl
  exact ⟨vm', hrun, fun n hn => (hfree n).mpr (Or.inr (Or.inr (Or.inl hn)))⟩

/-- Every pmap that is given back, with its map or without one, costs a page for good. -/
theorem vm_life_leak (hb : VmBoot h s₀) (hs : vmMapInit s₀ = some s) {trace : List VmLifeOp}
    (hl : ∀ l ∈ trace, l.retires = true → SafeToRetire h s₀.pm)
    (hr : Run (VmLifeStep h) (VmWorld.boot s) trace w) :
    w.vm.pm.kmem.pmm.frames.card + retired trace ≤ s₀.pm.kmem.pmm.frames.card := by
  obtain ⟨g, lists, hI⟩ := VmLifeInv.run hb hs hl hr
  obtain ⟨D, hcard, hD⟩ := hI.kernel.retired
  have hdisj : ∀ ⦃n⦄, n ∈ w.vm.pm.kmem.pmm.frames → n ∉ D := by
    intro n hn hnD
    rw [Pmm.mem_frames, hI.inv.mem.pmap.free, (hD n hnD).1] at hn
    cases hn
  have hsub : w.vm.pm.kmem.pmm.frames ∪ D ⊆ s₀.pm.kmem.pmm.frames := by
    intro n hn
    rw [Pmm.mem_frames]
    rcases Finset.mem_union.mp hn with hn | hn
    · by_contra hc
      rw [Pmm.mem_frames, hI.inv.mem.pmap.free, hI.kernel.frames n hc] at hn
      cases hn
    · exact (hD n hn).2.1
  rw [← hcard, ← Finset.card_union_of_disjoint (Finset.disjoint_left.mpr hdisj)]
  exact Finset.card_le_card hsub

/-- The first map is made and destroyed, and a page is gone. -/
theorem vm_life_leak_first : ∃ w : VmWorld, Run (VmLifeStep higherHalf) (VmWorld.boot vmBooted)
      [.op .pmapCreate, .op .mapCreate, .destroy vmFirstMap] w ∧
    w.vm.pm.kmem.pmm.frames.card + 1 ≤ vmBootState.pm.kmem.pmm.frames.card := by
  have hr := VmLifeStep.lift vmFirst_run
  obtain ⟨g, lists, hI⟩ := VmLifeInv.run vmBootState_boot vmBooted_init (by simp [VmLifeOp.retires]) hr
  obtain ⟨vm', _, hrun, _⟩ := hI.destroy vmBootState_boot higherHalf_high vmBootState_above rfl
  have hr' := hr.snoc (VmLifeStep.destroy vmFirstWorld rfl hrun)
  exact ⟨_, hr', vm_life_leak vmBootState_boot vmBooted_init
    (fun _ _ _ => ⟨higherHalf_high, vmBootState_above⟩) hr'⟩

/-- A page that a map has outside its entries when it is destroyed is never free again. -/
theorem vm_life_lost (hb : VmBoot h s₀) (hh : h.High) (hl : LoopsAbove h s₀.pm)
    (hs : vmMapInit s₀ = some s) {trace : List VmLifeOp}
    (hr : Run (VmLifeStep h) (VmWorld.boot s) trace w) {w₁ w₂ : VmWorld}
    (hd : VmLifeStep h w (.destroy m) w₁) {later : List VmLifeOp}
    (hr' : Run (VmLifeStep h) w₁ later w₂) {va e : Word} (hva : UserVa va)
    (he : pteOf h w.vm.pm (w.vm.maps m).pmap va = some e)
    (hout : ∀ l, vmEntries w.vm m = some l → ∀ x ∈ l, ∀ a ∈ entryAddrs w.vm x, pageOf a ≠ pageOf va) :
    ¬ w₂.vm.pm.kmem.pmm.Free (pageOf (pteFrame e)) := by
  obtain ⟨g, lists, hI⟩ := VmLifeInv.run hb hs (fun _ _ _ => ⟨hh, hl⟩) hr
  cases hd with
  | destroy hm hrun =>
  obtain ⟨vm', g', hrun', hD, hI', -⟩ := hI.destroy hb hh hl hm
  obtain rfl := Option.some.inj (hrun.symm.trans hrun')
  have hpage := hI.inv.mem.leaf _ (hI.inv.pmap m hm) va e hva he
  -- no entry has the page, so it is still a data page, of a pmap that is gone
  have hin : pageOf (pteFrame e) ∉ entryPages h w.vm m (lists m) := by
    rintro ⟨x, hx, a, ha, pte, hpte, hframe⟩
    have hua := hI.inv.entryAddrs_user hm hx ha
    have ho := (hI.inv.mem.leaf _ (hI.inv.pmap m hm) a pte hua hpte).owner
    rw [← hframe, hpage.owner] at ho
    obtain ⟨-, hq, hi⟩ := Owner.leaf.inj ho
    exact hout _ (hI.inv.entries_eq hm) x hx a ha ((vaPath_eq_iff hva hua).mp ⟨hq.symm, hi.symm⟩)
  obtain ⟨p, q, i, ho⟩ := (hD.inv.mem.dataLeaf _).mp ((hD.data _).mpr ⟨hpage.mem, hin⟩)
  obtain ⟨q', i', ho'⟩ := hD.fresh _ _ _ _ ho
  obtain ⟨pa, hpa, -, hk⟩ := hD.desc
  have hp : p = .page pa := (Owner.leaf.inj (ho'.symm.trans hpage.owner)).1.trans hpa
  obtain ⟨g₂, lists₂, hI₂, hlost⟩ := hI'.run_from hb (fun _ _ _ => ⟨hh, hl⟩) hr'
  rw [hI₂.inv.mem.pmap.free]
  exact (hlost _ (Or.inr ⟨pa, q, i, hp ▸ ho, hk⟩)).not_free

/-- `vm_map_page_range` maps a page, for which there is no entry, and the map is destroyed. -/
theorem vm_life_lost_page : ∃ (w w₁ : VmWorld) (e : Word),
    pteOf higherHalf w.vm.pm (w.vm.maps vmFirstMap).pmap 0x1000 = some e ∧
    VmLifeStep higherHalf w (.destroy vmFirstMap) w₁ ∧
    ¬ w₁.vm.pm.kmem.pmm.Free (pageOf (pteFrame e)) := by
  obtain ⟨w, e, hr, hm, hva, he, hnone⟩ := vmFirst_page
  have hr := VmLifeStep.lift hr
  obtain ⟨g, lists, hI⟩ := VmLifeInv.run vmBootState_boot vmBooted_init (by simp [VmLifeOp.retires]) hr
  obtain ⟨vm', _, hrun, _⟩ := hI.destroy vmBootState_boot higherHalf_high vmBootState_above hm
  have hd := VmLifeStep.destroy w hm hrun
  refine ⟨w, _, e, he, hd, vm_life_lost vmBootState_boot higherHalf_high vmBootState_above
    vmBooted_init hr hd Run.start hva he fun l hl x hx => ?_⟩
  rw [hnone] at hl
  obtain rfl := Option.some.inj hl
  cases hx

end Results

end Dana
