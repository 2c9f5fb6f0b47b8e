import Dana.ThreadZones
import Dana.VmZones

/-! The rest of the kernel beside the maps: it takes pages from the PMM, gives its own back and
writes to its own, and the maps notice nothing. -/
namespace Dana
open ByteMem RadixTree Transition

/-- The rest of the kernel had the frames `R` and has `R'`: it took free frames, gave back its own
and wrote to no others. -/
structure RestStep (h : Hhdm) (R R' : Set ℕ) (k k' : Kmem) : Prop where
  free : ∀ n, k'.pmm.Free n ↔ (k.pmm.Free n ∨ n ∈ R) ∧ n ∉ R'
  sub : ∀ n ∈ R', n ∈ R ∨ k.pmm.Free n
  mem : ∀ x, frameOf h x ∉ R → ¬ k.pmm.Free (frameOf h x) → k'.mem x = k.mem x

section Rest
variable {h : Hhdm} {R R' R'' : Set ℕ} {k k' k'' : Kmem}

theorem RestStep.refl (hR : ∀ n ∈ R, ¬ k.pmm.Free n) : RestStep h R R k k := by
  refine ⟨fun n => ⟨fun hf => ⟨Or.inl hf, fun hn => hR n hn hf⟩, fun hf => ?_⟩,
    fun n hn => Or.inl hn, fun _ _ _ => rfl⟩
  exact hf.1.resolve_right hf.2

theorem RestStep.trans (h1 : RestStep h R R' k k') (h2 : RestStep h R' R'' k' k'') :
    RestStep h R R'' k k'' := by
  have hall (n : ℕ) : k'.pmm.Free n ∨ n ∈ R' ↔ k.pmm.Free n ∨ n ∈ R := by
    rw [h1.free]
    constructor
    · rintro (hf | hn)
      · exact hf.1
      · exact (h1.sub n hn).symm
    · intro hn
      by_cases hR' : n ∈ R'
      · exact Or.inr hR'
      · exact Or.inl ⟨hn, hR'⟩
  refine ⟨fun n => by rw [h2.free, hall], fun n hn => ?_, fun x hx hf => ?_⟩
  · exact ((hall n).mp (h2.sub n hn).symm).symm
  · have hx' : frameOf h x ∉ R' := fun hc => (h1.sub _ hc).elim hx hf
    rw [h2.mem x hx' fun hf' => ((h1.free _).mp hf').1.elim hf hx, h1.mem x hx hf]

/-- What the rest has is in use. -/
theorem RestStep.used (hs : RestStep h R R' k k') : ∀ n ∈ R', ¬ k'.pmm.Free n :=
  fun n hn hf => ((hs.free n).mp hf).2 hn

theorem RestStep.take (hR : ∀ n ∈ R, ¬ k.pmm.Free n) (h0 : ¬ k.pmm.Free 0) {pa : Word} {pmm : Pmm}
    (hp : pmmAllocPage k.pmm = (pa, pmm)) (hpa : pa ≠ pmmNull) :
    RestStep h R (insert (pageOf pa) R) k { k with pmm := pmm } := by
  obtain ⟨-, hf, hiff⟩ := pmmAllocPage_some h0 hp hpa
  refine ⟨fun n => ?_, fun n hn => ?_, fun _ _ _ => rfl⟩
  · rw [hiff, Set.mem_insert_iff, not_or]
    constructor
    · exact fun hn => ⟨Or.inl hn.1, hn.2, fun hc => hR n hc hn.1⟩
    · exact fun hn => ⟨hn.1.resolve_right hn.2.2, hn.2.1⟩
  · rcases hn with rfl | hn
    · exact Or.inr hf
    · exact Or.inl hn

theorem RestStep.give (hR : ∀ n ∈ R, ¬ k.pmm.Free n) {pa : Word} (hpa : pageOf pa ∈ R)
    (hpos : 0 < pageOf pa) (hlt : pageOf pa < pmmMaxPages) :
    RestStep h R (R \ {pageOf pa}) k { k with pmm := pmmFreePage k.pmm pa } := by
  refine ⟨fun n => ?_, fun n hn => Or.inl hn.1, fun _ _ _ => rfl⟩
  rw [pmmFreePage_free]
  constructor
  · rintro (hf | ⟨rfl, -⟩)
    · exact ⟨Or.inl hf, fun hn => hR n hn.1 hf⟩
    · exact ⟨Or.inr hpa, fun hn => hn.2 rfl⟩
  · rintro ⟨hf | hn, hout⟩
    · exact Or.inl hf
    · refine Or.inr ⟨?_, hpos, hlt⟩
      by_contra hne
      exact hout ⟨hn, hne⟩

theorem RestStep.write (hR : ∀ n ∈ R, ¬ k.pmm.Free n) {m : Mem}
    (hm : ∀ x, frameOf h x ∉ R → m x = k.mem x) : RestStep h R R k { k with mem := m } := by
  obtain ⟨hfree, hsub, -⟩ := RestStep.refl (h := h) hR
  exact ⟨hfree, hsub, fun x hx _ => hm x hx⟩

/-- A zone of the rest has grown. -/
theorem RestStep.grown {pages pages' S : Set ℕ} (hg : Grown h k k' pages pages')
    (hR : ∀ n ∈ pages ∪ S, ¬ k.pmm.Free n) : RestStep h (pages ∪ S) (pages' ∪ S) k k' := by
  refine ⟨fun n => ?_, fun n hn => ?_, fun x hx hf => hg.mem x fun hc => ?_⟩
  · rw [hg.free]
    constructor
    · exact fun hn => ⟨Or.inl hn.1, fun hc => hc.elim hn.2 fun hS => hR n (Or.inr hS) hn.1⟩
    · rintro ⟨hf, hout⟩
      refine ⟨hf.resolve_right fun hc => hout ?_, fun hc => hout (Or.inl hc)⟩
      exact hc.imp_left fun hp => hg.sub hp
  · rcases hn with hn | hn
    · exact (hg.fresh n hn).imp_left Or.inl
    · exact Or.inl (Or.inr hn)
  · rcases hg.fresh _ hc with hp | hp
    · exact hx (Or.inl hp)
    · exact hf hp

end Rest

open Classical in
/-- Whose a frame is after the step, when the rest's frames go by the name of the kernel. -/
noncomputable def restOwner (own : ℕ → Owner) (R R' : Set ℕ) (n : ℕ) : Owner :=
  if n ∈ R' then .kernel else if n ∈ R then .free else own n

section Owners
variable {h : Hhdm} {R R' : Set ℕ} {own own' : ℕ → Owner} {pm : PmapState} {live : Set PmapPtr}
  {k' : Kmem}

/-- Frames of the kernel, but for its PML4, may go by another name. -/
theorem PmapInv.relabel (hI : PmapInv h own pm live)
    (ho : ∀ n, own' n = own n ∨ own n = .kernel ∧ own' n = .other)
    (hroot : own' (pageOf (pm.pmaps .kernel).pml4Phys) = .kernel) : PmapInv h own' pm live := by
  have hold (n : ℕ) (o : Owner) (h1 : o ≠ .kernel) (h2 : o ≠ .other) : own' n = o ↔ own n = o := by
    rcases ho n with he | ⟨he, he'⟩
    · rw [he]
    · rw [he, he']
      exact iff_of_false h2.symm h1.symm
  have hlab : tableLab own' = tableLab own := by
    funext t
    apply Option.ext
    rintro ⟨p, q⟩
    rw [tableLab_some, tableLab_some, hold _ _ (by simp) (by simp)]
  refine ⟨hI.pageZero, fun n => ?_, hlab ▸ hI.forest, hlab ▸ hI.small, hlab ▸ hI.root, fun p hp => ?_,
    fun n p q hn => hI.table n p q ((hold n _ (by simp) (by simp)).mp hn),
    fun n p hn => hI.descPage n p ((hold n _ (by simp) (by simp)).mp hn),
    ⟨hI.kernel.aligned, hroot, hI.kernel.copied⟩⟩
  · rw [hI.free, hold n _ (by simp) (by simp)]
  · obtain ⟨pa, hpa, ha, hd⟩ := hI.desc p hp
    exact ⟨pa, hpa, ha, (hold _ _ (by simp) (by simp)).mpr hd⟩

theorem restOwner_old (hs : RestStep h R R' pm.kmem k') (hfree : ∀ n, pm.kmem.pmm.Free n ↔ own n = .free)
    (hR : ∀ n ∈ R, own n = .kernel) (n : ℕ) {o : Owner} (h1 : o ≠ .kernel) (h2 : o ≠ .free) :
    restOwner own R R' n = o ↔ own n = o := by
  unfold restOwner
  split_ifs with hn' hn
  · refine iff_of_false h1.symm fun ho => ?_
    rcases hs.sub n hn' with hn | hf
    · exact h1 (ho.symm.trans (hR n hn))
    · exact h2 (ho.symm.trans ((hfree n).mp hf))
  · refine iff_of_false h2.symm fun ho => h1 (ho.symm.trans (hR n hn))
  · rfl

theorem restOwner_kernel {n : ℕ} (hn : own n = .kernel) (hR : n ∉ R) :
    restOwner own R R' n = .kernel := by
  unfold restOwner
  split_ifs
  · rfl
  · exact hn

theorem restOwner_free (hs : RestStep h R R' pm.kmem k') (hfree : ∀ n, pm.kmem.pmm.Free n ↔ own n = .free)
    (n : ℕ) : k'.pmm.Free n ↔ restOwner own R R' n = .free := by
  rw [hs.free]
  unfold restOwner
  split_ifs with hn' hn
  · exact iff_of_false (fun hc => hc.2 hn') (by simp)
  · exact iff_of_true ⟨Or.inr hn, hn'⟩ rfl
  · rw [hfree]
    exact ⟨fun hc => hc.1.resolve_right hn, fun hc => ⟨Or.inl hc, hn'⟩⟩

open Classical in
/-- The step as one of frames that are no concern of the pmaps. -/
theorem PmapInv.rest (hI : PmapInv h own pm live) (hR : ∀ n ∈ R, own n = .kernel)
    (hroot : pageOf (pm.pmaps .kernel).pml4Phys ∉ R) (h0 : 0 ∉ R)
    (hs : RestStep h R R' pm.kmem k') :
    PmapInv h (restOwner own R R') { pm with kmem := k' } live ∧
      SameEntries h pm { pm with kmem := k' } live := by
  obtain ⟨own0, hown0⟩ : ∃ own0 : ℕ → Owner, own0 = fun n => if n ∈ R then .other else own n :=
    ⟨_, rfl⟩
  have hin (n : ℕ) (hn : n ∈ R) : own0 n = .other := by
    rw [hown0]
    exact if_pos hn
  have hout (n : ℕ) (hn : n ∉ R) : own0 n = own n := by
    rw [hown0]
    exact if_neg hn
  have hI0 : PmapInv h own0 pm live := by
    refine hI.relabel (fun n => ?_) ((hout _ hroot).trans hI.kernel.root)
    by_cases hn : n ∈ R
    · exact Or.inr ⟨hR n hn, hin n hn⟩
    · exact Or.inl (hout n hn)
  have hsame (n : ℕ) {o : Owner} (h1 : o ≠ .kernel) (h2 : o ≠ .free) (h3 : o ≠ .other) :
      restOwner own R R' n = o ↔ own0 n = o := by
    rw [restOwner_old hs hI.free hR n h1 h2]
    by_cases hn : n ∈ R
    · rw [hR n hn, hin n hn]
      exact iff_of_false h1.symm h3.symm
    · rw [hout n hn]
  refine hI0.congr ?_ (restOwner_free hs hI.free) (fun n p q => hsame n (by simp) (by simp) (by simp))
    (fun n p => hsame n (by simp) (by simp) (by simp)) (fun n hn => ?_) fun x hx => ?_
  · exact fun hf => ((hs.free 0).mp hf).1.elim hI.pageZero h0
  · by_cases hc : n ∈ R
    · rw [hin n hc] at hn
      cases hn
    · exact restOwner_kernel ((hout n hc).symm.trans hn) hc
  · by_cases hc : frameOf h x ∈ R
    · rw [hin _ hc] at hx
      simp at hx
    · refine hs.mem x hc fun hf => ?_
      rw [hout _ hc, (hI.free _).mp hf] at hx
      simp at hx

end Owners

/-- More zones have been made, that the maps do not use. -/
def ZoneStore.More (st st' : ZoneStore) : Prop :=
  st.zoneCount ≤ st'.zoneCount ∧ (∀ z < st.zoneCount, st'.zones z = st.zones z) ∧
    ∀ z < st'.zoneCount, st.zoneCount ≤ z → st'.zones z = blankZone

section Maps
variable {h : Hhdm} {R R' : Set ℕ} {rm : Mem} {g : VmGhost} {pm : PmapState} {k' : Kmem}
  {st st' : ZoneStore} {data : List ℕ}

theorem ZonesInv.more {k : Kmem} {pages : ℕ → Set ℕ} {live : ℕ → Set Word}
    (hI : ZonesInv h k st pages live) (hm : st.More st') : ZonesInv h k st' pages live := by
  obtain ⟨hcount, hold, hnew⟩ := hm
  refine ⟨hI.pageZero, fun z hz => ?_, fun z hz => hI.unmade z (hcount.trans hz), hI.apart⟩
  rcases Nat.lt_or_ge z st.zoneCount with hlt | hge
  · rw [hold z hlt]
    exact hI.zone z hlt
  · rw [hnew z hz hge, (hI.unmade z hge).1, (hI.unmade z hge).2]
    exact ⟨[], zoneOk_new k blankZone (by decide) (by decide) rfl, zoneCounts_new _ rfl rfl rfl⟩

open Classical in
theorem VmMemInv.rest (hI : VmMemInv h g pm st data) (hR : ∀ n ∈ R, g.own n = .kernel)
    (hroot : pageOf (pm.pmaps .kernel).pml4Phys ∉ R) (h0 : 0 ∉ R)
    (htables : ∀ q t, q ≠ [] → q.length ≤ 3 →
      hwTable h pm.kmem.mem (pm.pmaps .kernel).pml4Phys q = some t → pageOf t ∉ R)
    (hs : RestStep h R R' pm.kmem k') (hm : st.More st') :
    VmMemInv h { g with own := restOwner g.own R R' } { pm with kmem := k' } st' data := by
  obtain ⟨hP, hsame⟩ := hI.pmap.rest hR hroot h0 hs
  have hold (n : ℕ) {o : Owner} (h1 : o ≠ .kernel) (h2 : o ≠ .free) :
      restOwner g.own R R' n = o ↔ g.own n = o := restOwner_old hs hI.pmap.free hR n h1 h2
  have hmem (x : Word) {o : Owner} (h1 : o ≠ .kernel) (h2 : o ≠ .free) (hx : g.own (frameOf h x) = o) :
      k'.mem x = pm.kmem.mem x := by
    refine hs.mem x (fun hc => h1 (hx.symm.trans (hR _ hc))) fun hf => h2 (hx.symm.trans ?_)
    exact (hI.pmap.free _).mp hf
  have hz : ZonesInv h k' st g.pages g.elems := by
    refine hI.zones.congr hP.pageZero (fun z n hn hf => ?_) fun z x hx hne => ?_
    · have ho := (hI.zonePage z n).mp hn
      rw [hP.free, (hold n (by simp) (by simp)).mpr ho] at hf
      cases hf
    · exact absurd (hmem x (by simp) (by simp) ((hI.zonePage z _).mp hx)) hne
  have hpte : ∀ p ∈ g.live, ∀ va e, UserVa va → pteOf h { pm with kmem := k' } p va = some e →
      DataPage (restOwner g.own R R') data p va e :=
    hsame.leaf hI fun n p q i hn hd => ⟨(hold n (by simp) (by simp)).mpr hn, hd⟩
  refine ⟨hP, hz.more hm, fun z n => ?_, hpte, fun n => ?_, hI.nodup, ?_⟩
  · rw [hI.zonePage, hold n (by simp) (by simp)]
  · rw [hI.dataLeaf]
    simp only [hold n (o := Owner.leaf _ _ _) (by simp) (by simp)]
  · -- the tables of the kernel are frames of the kernel that the rest does not have
    have hk0 : KernelTables h (fun n => if n ∈ R then .free else g.own n) pm.kmem.mem
        (pm.pmaps .kernel).pml4Phys := fun q t hne hq ht =>
      (if_neg (htables q t hne hq ht)).trans (hI.kernelTables q t hne hq ht)
    refine hk0.congr hI.pmap.kernel.aligned ((if_neg hroot).trans hI.pmap.kernel.root)
      (fun n hn => ?_) fun x hx => ?_
    · by_cases hc : n ∈ R
      · rw [if_pos hc] at hn
        cases hn
      · exact restOwner_kernel ((if_neg hc).symm.trans hn) hc
    · by_cases hc : frameOf h x ∈ R
      · rw [if_pos hc] at hx
        cases hx
      · rw [if_neg hc] at hx
        refine hs.mem x hc fun hf => ?_
        rw [(hI.pmap.free _).mp hf] at hx
        cases hx

end Maps

theorem bootOwner_kernel {pmm : Pmm} {n : ℕ} : bootOwner pmm n = .kernel ↔ ¬ pmm.Free n := by
  classical
  unfold bootOwner
  split_ifs with hf
  · exact iff_of_false (by simp) (fun hc => hc hf)
  · exact iff_of_true rfl hf

/-- The maps with other memory and other zones under them. -/
def VmWorld.withMem (w : VmWorld) (k : Kmem) (st : ZoneStore) : VmWorld :=
  { w with vm := { w.vm with pm := { w.vm.pm with kmem := k }, zoneStore := st } }

section Life
variable {h : Hhdm} {s₀ : VmState} {R R' : Set ℕ} {rm : Mem} {k : ℕ} {g : VmGhost}
  {lists : VmMapPtr → List EntryPtr} {w : VmWorld} {k' : Kmem} {st' : ZoneStore}

theorem VmBoot.kernelTables (hb : VmBoot h s₀) : KernelTables h (bootOwner s₀.pm.kmem.pmm)
    s₀.pm.kmem.mem (s₀.pm.pmaps .kernel).pml4Phys :=
  fun q t hne hq ht => bootOwner_kernel.mpr (hb.tables q t hne hq ht)

theorem KernelPart.mem_boot {own : ℕ → Owner} {pm : PmapState} (hK : KernelPart h s₀ R rm own pm k)
    (x : Word) (hx : bootOwner s₀.pm.kmem.pmm (frameOf h x) = .kernel) :
    pm.kmem.mem x = s₀.pm.kmem.mem x := hK.mem x (bootOwner_kernel.mp hx)

/-- The tables of the kernel are where they were at boot. -/
theorem VmLifeInv.tables (hb : VmBoot h s₀) (hI : VmLifeInv h s₀ R rm k g lists w) {q : List Idx}
    {t : Word} (hne : q ≠ []) (hq : q.length ≤ 3)
    (ht : hwTable h w.vm.pm.kmem.mem (w.vm.pm.pmaps .kernel).pml4Phys q = some t) :
    ¬ s₀.pm.kmem.pmm.Free (pageOf t) := by
  rw [hI.kernel.root] at ht
  exact bootOwner_kernel.mp (hb.kernelTables.congr hb.pmap.aligned (bootOwner_kernel.mpr hb.pmap.root)
    (fun _ hn => hn) hI.kernel.mem_boot q t hne hq ht)

/-- An entry in the PML4 of the kernel is what it was, and so is where the processor's walk ends. -/
theorem VmLifeInv.kernel_walk (hb : VmBoot h s₀) (hI : VmLifeInv h s₀ R rm k g lists w) (va : Word) :
    pteAt h w.vm.pm.kmem.mem (w.vm.pm.pmaps .kernel).pml4Phys (pml4Idx va) =
      pteAt h s₀.pm.kmem.mem (s₀.pm.pmaps .kernel).pml4Phys (pml4Idx va) ∧
    hwWalk h w.vm.pm.kmem.mem (w.vm.pm.pmaps .kernel).pml4Phys va =
      hwWalk h s₀.pm.kmem.mem (s₀.pm.pmaps .kernel).pml4Phys va := by
  have hslot : pteAt h w.vm.pm.kmem.mem (s₀.pm.pmaps .kernel).pml4Phys (pml4Idx va) =
      pteAt h s₀.pm.kmem.mem (s₀.pm.pmaps .kernel).pml4Phys (pml4Idx va) := by
    refine pteAt_congr h _ _ _ _ hb.pmap.aligned fun x hx => hI.kernel.mem x ?_
    rw [hx]
    exact hb.pmap.root
  rw [hI.kernel.root]
  exact ⟨hslot, hb.kernelTables.walk hb.pmap.aligned hI.kernel.mem_boot hslot⟩

/-- A step of the rest of the kernel is not seen by the maps. -/
theorem VmLifeInv.rest (hb : VmBoot h s₀) (hI : VmLifeInv h s₀ R rm k g lists w)
    (hs : RestStep h R R' w.vm.pm.kmem k') (hm : w.vm.zoneStore.More st') :
    VmLifeInv h s₀ R' k'.mem k { g with own := restOwner g.own R R' } lists (w.withMem k' st') := by
  have hR (n : ℕ) (hn : n ∈ R) : g.own n = .kernel := (hI.kernel.rest n hn).1
  -- what was in use at boot is never of the rest: the kernel's PML4, its tables and frame 0
  have hR0 (n : ℕ) (hn : ¬ s₀.pm.kmem.pmm.Free n) : n ∉ R := fun hc => hn (hI.kernel.rest n hc).2
  have hfree := hI.inv.mem.pmap.free
  have hold (n : ℕ) {o : Owner} (h1 : o ≠ .kernel) (h2 : o ≠ .free) :
      restOwner g.own R R' n = o ↔ g.own n = o := restOwner_old hs hfree hR n h1 h2
  have hroot : pageOf (w.vm.pm.pmaps .kernel).pml4Phys ∉ R := by
    rw [hI.kernel.root]
    exact hR0 _ hb.pmap.root
  have hmem := hI.inv.mem.rest hR hroot (hR0 0 hb.pmap.pageZero)
    (fun q t hne hq ht => hR0 _ (hI.tables hb hne hq ht)) hs hm
  -- the rest takes free frames only
  have hin {n : ℕ} (hn : g.own n = .kernel) (hout : n ∉ R) : n ∉ R' := by
    intro hc
    rcases hs.sub n hc with hc | hf
    · exact hout hc
    · rw [(hfree n).mp hf] at hn
      cases hn
  refine ⟨⟨hmem, hI.inv.mapZone.trans_le hm.1, hI.inv.entryZone.trans_le hm.1, hI.inv.zones,
    fun m hm => (hI.inv.map m hm).congr rfl fun _ _ => rfl, hI.inv.user, hI.inv.pmap, hI.inv.pmaps,
    hI.inv.elem, hI.inv.entry, hI.inv.apart⟩, fun p hp => ⟨(hI.spare p hp).1, (hI.spare p hp).2.1,
    fun n q i hn => (hI.spare p hp).2.2 n q i ((hold n (by simp) (by simp)).mp hn)⟩, hI.refs,
    hI.pmapRefs, fun n p q i hn => ?_, fun m hm x q i hn => ?_, ?_⟩
  · refine (hI.owned n p q i ((hold n (by simp) (by simp)).mp hn)).imp_right fun hd => ?_
    obtain ⟨pa, hp, hk, hout⟩ := hd
    exact ⟨pa, hp, restOwner_kernel hk hout, hin hk hout⟩
  · have ho := (hold _ (by simp) (by simp)).mp hn
    obtain ⟨h1, h2⟩ := hI.bytes m hm x q i ho
    refine ⟨h1, fun hw => (hs.mem x (fun hc => ?_) fun hf => ?_).trans (h2 hw)⟩
    · have := ho.symm.trans (hR _ hc)
      cases this
    · have := ho.symm.trans ((hfree _).mp hf)
      cases this
  · refine ⟨fun n hn => restOwner_kernel (hI.kernel.frames n hn) (hR0 n hn), fun x hx => ?_,
      hI.kernel.root, fun n hn => ⟨?_, ?_⟩, fun _ _ => rfl, ?_⟩
    · refine (hs.mem x (hR0 _ hx) fun hf => ?_).trans (hI.kernel.mem x hx)
      have := (hI.kernel.frames _ hx).symm.trans ((hfree _).mp hf)
      cases this
    · unfold restOwner
      exact if_pos hn
    · rcases hs.sub n hn with hc | hf
      · exact (hI.kernel.rest n hc).2
      · by_contra hc
        have := (hI.kernel.frames n hc).symm.trans ((hfree n).mp hf)
        cases this
    · obtain ⟨D, hcard, hD⟩ := hI.kernel.retired
      refine ⟨D, hcard, fun n hn => ?_⟩
      obtain ⟨h1, h2, h3⟩ := hD n hn
      exact ⟨restOwner_kernel h1 h3, h2, hin h1 h3⟩

/-- What the rest has is in use, and the maps have not changed it. -/
theorem VmLifeInv.rest_used (hI : VmLifeInv h s₀ R rm k g lists w) :
    ∀ n ∈ R, ¬ w.vm.pm.kmem.pmm.Free n := by
  intro n hn hf
  have := (hI.kernel.rest n hn).1.symm.trans ((hI.inv.mem.pmap.free n).mp hf)
  cases this

end Life

end Dana
