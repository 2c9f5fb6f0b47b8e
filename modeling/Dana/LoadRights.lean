import Dana.ExecTarget
import Dana.LoadEntry
import Dana.VmFaults

/-! The rights of user code to the pages of a loaded image: `prot_to_pte` leaves PTE_U out. -/
namespace Dana
open ByteMem RadixTree Transition

/-- The present entries on the way to the page of `va`, from the PML4 down. -/
def hwEntries (h : Hhdm) (m : Mem) (pml4 va : Word) : Option (List Word) :=
  let e4 := pteAt h m pml4 (pml4Idx va)
  (pteNext e4).bind fun pdpt =>
    let e3 := pteAt h m pdpt (pdptIdx va)
    if e3 &&& pteP ≠ 0 ∧ e3 &&& ptePS ≠ 0 then some [e4, e3]
    else (pteNext e3).bind fun pd =>
      let e2 := pteAt h m pd (pdIdx va)
      if e2 &&& pteP ≠ 0 ∧ e2 &&& ptePS ≠ 0 then some [e4, e3, e2]
      else (pteNext e2).bind fun pt =>
        (ptePresent (pteAt h m pt (ptIdx va))).map fun e1 => [e4, e3, e2, e1]

/-- User code reaches `va`, may write it exactly if `prot` lets it, and may execute it exactly if
`prot` lets it: a right is there if no level takes it away. -/
structure UserRights (h : Hhdm) (m : Mem) (pml4 va : Word) (prot : BitVec 32) (es : List Word) :
    Prop where
  entries : hwEntries h m pml4 va = some es
  user : ∀ e ∈ es, e &&& pteU ≠ 0
  write : (∀ e ∈ es, e &&& pteW ≠ 0) ↔ prot &&& vmProtWrite ≠ 0
  execute : (∀ e ∈ es, e &&& pteNX = 0) ↔ prot &&& vmProtExecute ≠ 0

/-- User code has the rights of `initprot` to every address of the segments that have one. -/
def SegmentRights (h : Hhdm) (img : Mem) (segs : List Word) (s : VmState) (p : PmapPtr) : Prop :=
  ∀ seg ∈ segs, segInitprot img seg ≠ 0 → ∀ va, InSegment img seg va →
    ∃ es, UserRights h s.pm.kmem.mem (s.pm.pmaps p).pml4Phys va (segInitprot img seg) es

/-- No entry lets user code to `va`. -/
def LeafPrivate (h : Hhdm) (pm : PmapState) (p : PmapPtr) (va : Word) : Prop :=
  ∀ e, pteOf h pm p va = some e → e &&& pteU = 0

/-- The stores of a load cannot change a table: CR3 has the tables of a pmap that was created, the
kernel has nothing mapped at the addresses of the user, or no segment has bytes in the file. -/
def StoresUser (h : Hhdm) (img : Mem) (segs : List Word) (s : VmState) : Prop :=
  s.active ≠ .kernel ∨ (∀ va, UserVa va → pmapTranslation h s.pm .kernel va = none) ∨
    ∀ seg ∈ segs, segFilesize img seg = 0

section Bits

theorem protToPte_user (prot : BitVec 32) : protToPte prot &&& pteU = 0 := by
  unfold protToPte
  dsimp only
  split_ifs <;> decide

/-- No entry that `vm_map` writes is for user code. -/
theorem mapEntry_user (pa : Word) (prot : BitVec 32) : mapEntry pa (protToPte prot) &&& pteU = 0 := by
  rw [mapEntry_flag (by decide) (by decide) (by decide), protToPte_user]

end Bits

section Rights
variable {h : Hhdm} {g : VmGhost} {maps : Set VmMapPtr} {lists : VmMapPtr → List EntryPtr}
  {m : Mem} {r va : Word} {es : List Word} {p q : PmapPtr} {pm : PmapState}
  {own : ℕ → Owner} {live : Set PmapPtr}

/-- The last of the entries is the one that maps the page. -/
theorem hwEntries_leaf (he : hwEntries h m r va = some es) :
    ∃ x, hwWalk h m r va = some x ∧ x.2 ∈ es := by
  rw [hwEntries] at he
  obtain ⟨pdpt, hpdpt, he⟩ := Option.bind_eq_some_iff.mp he
  rw [hwWalk, hpdpt, Option.bind_some]
  dsimp only at he ⊢
  split_ifs at he ⊢ with h3
  · obtain rfl := Option.some.inj he
    exact ⟨_, rfl, by simp⟩
  obtain ⟨pd, hpd, he⟩ := Option.bind_eq_some_iff.mp he
  rw [hpd, Option.bind_some]
  split_ifs at he ⊢ with h2
  · obtain rfl := Option.some.inj he
    exact ⟨_, rfl, by simp⟩
  obtain ⟨pt, hpt, he⟩ := Option.bind_eq_some_iff.mp he
  obtain ⟨e1, h1, rfl⟩ := Option.map_eq_some_iff.mp he
  rw [hpt, Option.bind_some, h1]
  exact ⟨_, rfl, by simp⟩

/-- User code does not get past a leaf that is not for it. -/
theorem LeafPrivate.not_rights (hl : LeafPrivate h pm p va) (hI : PmapInv h own pm live)
    (hp : p ∈ live) (hva : UserVa va) (prot : BitVec 32) (es : List Word) :
    ¬ UserRights h pm.kmem.mem (pm.pmaps p).pml4Phys va prot es := by
  intro hu
  obtain ⟨x, hx, hmem⟩ := hwEntries_leaf hu.entries
  have htr := hI.translation hp hva
  rw [pmapTranslation, if_pos (show Canonical va from Or.inl hva), hx] at htr
  obtain ⟨e, he, hxe⟩ := Option.map_eq_some_iff.mp htr.symm
  rw [← hxe] at hmem
  exact hu.user e hmem (hl e he)

end Rights

section Load
variable {h : Hhdm} {g : VmGhost} {maps : Set VmMapPtr} {lists : VmMapPtr → List EntryPtr}
  {s s' t : Loader} {vm vm' : VmState} {m : VmMapPtr} {p : PmapPtr} {img : Mem}
  {imageData header lc seg va start size : Word} {prot : BitVec 32}

/-- CR3 has the tables of a pmap that was created, or those of the kernel with nothing mapped at
the addresses of the user. -/
def UserTables (h : Hhdm) (live : Set PmapPtr) (s : VmState) : Prop :=
  s.active ∈ live ∨
    s.active = .kernel ∧ ∀ va, UserVa va → pmapTranslation h s.pm .kernel va = none

/-- A part of a load that keeps the invariant and adds no leaf for user code. -/
structure KeepsPrivate (h : Hhdm) (g : VmGhost) (maps : Set VmMapPtr)
    (lists : VmMapPtr → List EntryPtr) (s t : VmState) : Prop where
  inv : ∃ own', VmInv h { g with own := own' } maps lists t
  tables : UserTables h g.live s → UserTables h g.live t
  leaf : ∀ p ∈ g.live, ∀ va, UserVa va → LeafPrivate h s.pm p va → LeafPrivate h t.pm p va

theorem KeepsPrivate.refl (hI : VmInv h g maps lists vm) : KeepsPrivate h g maps lists vm vm :=
  ⟨⟨g.own, hI⟩, id, fun _ _ _ _ hl => hl⟩

theorem KeepsPrivate.trans {vm'' : VmState} (h1 : KeepsPrivate h g maps lists vm vm')
    (h2 : ∀ own', VmInv h { g with own := own' } maps lists vm' →
      KeepsPrivate h { g with own := own' } maps lists vm' vm'') :
    KeepsPrivate h g maps lists vm vm'' := by
  obtain ⟨own', hI⟩ := h1.inv
  have h2 := h2 own' hI
  exact ⟨h2.inv, fun ht => h2.tables (h1.tables ht),
    fun p hp va hva hl => h2.leaf p hp va hva (h1.leaf p hp va hva hl)⟩

/-- The pages of a range are mapped, and none of them for user code. -/
theorem vmMapPageRange_private (hI : VmInv h g maps lists vm) (hm : m ∈ maps)
    (hr : vmMapPageRange h vm m start size prot = some (.success, vm')) :
    KeepsPrivate h g maps lists vm vm' ∧ UserVa start ∧ LeafPrivate h vm'.pm (vm.maps m).pmap start := by
  rcases vmMapPageRange_spec hI hm start size prot with ⟨_, hrun⟩ |
    ⟨hok, own', pm', data', hI', ⟨hrun, _, hmap⟩ | ⟨_, _, _, _, _, _, _, hrun, _⟩⟩
  · cases (Prod.mk.inj (Option.some.inj (hr.symm.trans hrun))).1
  swap
  · cases (Prod.mk.inj (Option.some.inj (hr.symm.trans hrun))).1
  obtain ⟨_, rfl⟩ := Prod.mk.inj (Option.some.inj (hr.symm.trans hrun))
  have hp := hI.pmap m hm
  have hstop := hI.stop_le hm hok
  have hlt : start < start+size := (vmMapPageRange_success hr).1
  have hstart : start ∈ pageAddrs start (start+size) :=
    (mem_pageAddrs hstop).mpr ⟨hlt, 0, by omega⟩
  have huser := user_of_pageAddrs hstop hstart
  have hin (va : Word) (hva : UserVa va)
      (ha : ∃ a ∈ pageAddrs start (start+size), pageOf a = pageOf va) :
      LeafPrivate h pm' (vm.maps m).pmap va := by
    obtain ⟨pa, _, _, he⟩ := hmap.mapped va hva ha
    intro e he'
    obtain rfl := Option.some.inj (he.symm.trans he')
    exact mapEntry_user pa prot
  refine ⟨⟨⟨own', hI'⟩, fun ht => ?_, fun q hq va hva hl => ?_⟩, huser, hin start huser ⟨start, hstart, rfl⟩⟩
  · -- the tables of the kernel stay as they are
    refine ht.imp id fun hk => ⟨hk.1, fun va hva => ?_⟩
    have hne : PmapPtr.kernel = (vm.maps m).pmap → UserVa va →
        pteOf h pm' .kernel va = pteOf h vm.pm .kernel va := by
      intro hc
      obtain ⟨pa, hpa, _⟩ := hI.mem.pmap.desc _ hp
      exact absurd (hc.trans hpa) (by simp)
    rw [← hk.2 va hva]
    exact hmap.paged.translation hI.mem hI'.mem rfl (Or.inl rfl) hne
  · by_cases hqp : q = (vm.maps m).pmap
    · subst hqp
      by_cases ha : ∃ a ∈ pageAddrs start (start+size), pageOf a = pageOf va
      · exact hin va hva ha
      · have hsame := hmap.other va hva fun a hmem hpage => ha ⟨a, hmem, hpage⟩
        exact fun e he => hl e (hsame.symm.trans he)
    · have hsame := hmap.paged.entry q hq hqp _ _ (vaPath_path hva.lower) (vaPath_leaf va)
      exact fun e he => hl e (hsame.symm.trans he)

/-- A store at an address of the user goes to a data page. -/
theorem storeByte_private (hI : VmInv h g maps lists s.vm) (ht : UserTables h g.live s.vm)
    (hva : UserVa va) {b : Byte} (hr : s.storeByte h va b = .ok t) :
    VmInv h g maps lists t.vm ∧ UserTables h g.live t.vm ∧
      ∀ p ∈ g.live, ∀ x, UserVa x → pteOf h t.vm.pm p x = pteOf h s.vm.pm p x := by
  unfold Loader.storeByte at hr
  cases hx : hwStore h s.vm.pm.kmem.mem s.vm.cr3 va with
  | none =>
    rw [hx] at hr
    cases hr
  | some x =>
    rcases ht with hp | ⟨hk, hnone⟩
    · rw [VmState.cr3] at hx
      obtain ⟨e, rfl, he, hP, hW⟩ := hI.mem.pmap.store_leaf hp hva hx
      rw [VmState.cr3, hx] at hr
      obtain rfl := Except.ok.inj hr
      have hleaf := hI.mem.leaf _ hp va e hva he
      have hdata : frameOf h (leafByte h e va) ∈ s.vm.data := (hleaf.leafByte (h := h)) ▸ hleaf.mem
      obtain ⟨hI', hsame⟩ := hI.writeByte hdata b
      rw [← hwByte_page] at hI' hsame
      exact ⟨hI', Or.inl hp, fun q hq x hx => hsame q hq _ _ (vaPath_path hx.lower) (vaPath_leaf x)⟩
    · -- the kernel has no page there
      have hcan : Canonical va := Or.inl hva
      rw [VmState.cr3, hk, hwStore, if_pos hcan] at hx
      have hn := hnone va hva
      rw [pmapTranslation, if_pos hcan, (hwStoreWalk_some hx).1] at hn
      cases hn

/-- A loop of stores from the user half stays in it: the processor has no address after it. -/
theorem forBytes_private {body : Word → Loader → Except Loader Loader} (n : ℕ) {dst : Word}
    (hI : VmInv h g maps lists s.vm) (ht : UserTables h g.live s.vm) (hdst : dst.toNat ≤ 2^47)
    (hbody : ∀ d t t', body d t = .ok t' → ∃ t1 : Loader, t1.vm = t.vm ∧ ∃ b,
      t1.storeByte h d b = .ok t')
    (hr : forBytes body n dst s = .ok t) :
    VmInv h g maps lists t.vm ∧ UserTables h g.live t.vm ∧
      ∀ p ∈ g.live, ∀ x, UserVa x → pteOf h t.vm.pm p x = pteOf h s.vm.pm p x := by
  induction n generalizing dst s with
  | zero =>
    obtain rfl := Except.ok.inj hr
    exact ⟨hI, ht, fun _ _ _ _ => rfl⟩
  | succ n ih =>
    rw [forBytes] at hr
    cases hb : body dst s with
    | error t' =>
      rw [hb] at hr
      cases hr
    | ok t' =>
      rw [hb] at hr
      obtain ⟨t1, hvm, b, hs⟩ := hbody dst s t' hb
      have hva : UserVa dst := by
        by_contra hge
        have hn : ¬ Canonical dst := by
          rw [UserVa] at hge
          rw [Canonical]
          omega
        rw [Loader.storeByte, hwStore, if_neg hn] at hs
        cases hs
      rw [← hvm] at hI ht
      obtain ⟨hI', ht', hsame⟩ := storeByte_private hI ht hva hs
      have hnext : (dst+1).toNat ≤ 2^47 := by
        rw [UserVa] at hva
        rw [BitVec.toNat_add]
        have h1 : (1 : Word).toNat = 1 := rfl
        omega
      obtain ⟨hIt, htt, hrest⟩ := ih hI' ht' hnext hr
      refine ⟨hIt, htt, fun p hp x hx => ?_⟩
      rw [hrest p hp x hx, hsame p hp x hx, hvm]

/-- The copy of a segment changes no table. -/
theorem machoCopy_private (hI : VmInv h g maps lists s.vm)
    (ht : segFilesize img seg = 0 ∨ UserTables h g.live s.vm)
    (huser : (segVmaddr img seg).toNat+(segVmsize img seg).toNat ≤ 2^47)
    (hr : machoCopy h img imageData seg s = .ok t) : KeepsPrivate h g maps lists s.vm t.vm := by
  obtain ⟨_, rfl⟩ | ⟨hz, t1, hk, hset⟩ := machoCopy_done hr
  · exact KeepsPrivate.refl hI
  obtain ⟨hI1, ht1, h1⟩ := forBytes_private (s := s.read (seg+48) 8) _ hI (ht.resolve_left hz)
    (by omega) (fun d t t' hb => ⟨t.read _ 1, rfl, _, hb⟩) hk
  rcases hset with ⟨hlt, hset⟩ | ⟨_, rfl⟩
  · rw [BitVec.lt_def] at hlt
    have hdst : (segVmaddr img seg+segFilesize img seg).toNat ≤ 2^47 := by
      rw [BitVec.toNat_add]
      omega
    obtain ⟨hI2, ht2, h2⟩ := forBytes_private _ hI1 ht1 hdst
      (fun d t t' hb => ⟨t, rfl, _, hb⟩) hset
    exact ⟨⟨g.own, hI2⟩, fun _ => ht2, fun p hp va hva hl e he =>
      hl e ((h1 p hp va hva).symm.trans ((h2 p hp va hva).symm.trans he))⟩
  · exact ⟨⟨g.own, hI1⟩, fun _ => ht1, fun p hp va hva hl e he =>
      hl e ((h1 p hp va hva).symm.trans he)⟩

/-- A segment that is loaded with success is not for user code. -/
theorem machoSegment_private (hI : VmInv h g maps lists s.vm) (hm : m ∈ maps)
    (hz : segVmsize img seg ≠ 0) (ht : segFilesize img seg = 0 ∨ UserTables h g.live s.vm)
    (hr : machoSegment h img imageData m seg s = (some .success, t)) :
    KeepsPrivate h g maps lists s.vm t.vm ∧ UserVa (segVmaddr img seg) ∧
      LeafPrivate h t.vm.pm (s.vm.maps m).pmap (segVmaddr img seg) := by
  obtain ⟨hz', _⟩ | ⟨_, hok, vm, hvm, hc⟩ := machoSegment_done hr
  · exact absurd hz' hz
  obtain ⟨hmap, huser, hleaf⟩ := vmMapPageRange_private hI hm hvm
  have hmapped : (s.mapped img seg vm).vm = vm := machoBase_vm seg
  have hend := hI.stop_le hm hok
  rw [vmRange_stop hok] at hend
  have hcopy (own' : ℕ → Owner) (hI' : VmInv h { g with own := own' } maps lists vm) :
      KeepsPrivate h { g with own := own' } maps lists vm t.vm := by
    rw [← hmapped] at hI'
    have hk := machoCopy_private hI' (ht.imp_right fun ht => by
      rw [hmapped]
      exact hmap.tables ht) hend hc
    rwa [hmapped] at hk
  obtain ⟨own', hI'⟩ := hmap.inv
  exact ⟨hmap.trans hcopy, huser, (hcopy own' hI').leaf _ (hI.pmap m hm) _ huser hleaf⟩

/-- A walk over the commands that succeeds leaves no segment to user code. -/
theorem machoParseSegments_private (n : ℕ) (hI : VmInv h g maps lists s.vm) (hm : m ∈ maps)
    (hp : (s.vm.maps m).pmap = p)
    (ht : (∀ seg ∈ segmentsOf img n lc, segFilesize img seg = 0) ∨ UserTables h g.live s.vm)
    (hr : machoParseSegments h img header imageData m n lc s = (some .success, t)) :
    KeepsPrivate h g maps lists s.vm t.vm ∧ ∀ seg ∈ segmentsOf img n lc,
      UserVa (segVmaddr img seg) ∧ LeafPrivate h t.vm.pm p (segVmaddr img seg) := by
  refine machoParseSegments_chain (P := fun segs s => ∀ g, VmInv h g maps lists s.vm →
    (s.vm.maps m).pmap = p → ((∀ seg ∈ segs, segFilesize img seg = 0) ∨ UserTables h g.live s.vm) →
    KeepsPrivate h g maps lists s.vm t.vm ∧ ∀ seg ∈ segs,
      UserVa (segVmaddr img seg) ∧ LeafPrivate h t.vm.pm p (segVmaddr img seg))
    n hr (fun _ _ _ hP => hP) ?_ ?_ g hI hp ht
  · intro g hI _ _
    exact ⟨KeepsPrivate.refl hI, by simp⟩
  · intro seg segs s t' hz hseg hP g hI hp ht
    have hframe := machoSegment_frame h img imageData m seg s
    rw [hseg] at hframe
    obtain ⟨hkeep, huser, hleaf⟩ := machoSegment_private hI hm hz
      (ht.imp_left fun hz => hz seg List.mem_cons_self) hseg
    rw [hp] at hleaf
    have htail (own' : ℕ → Owner) (hI' : VmInv h { g with own := own' } maps lists t'.vm) :=
      hP _ hI' ((fixed_pmap (hframe.vm.fixed m)).trans hp)
        (ht.imp (fun hz seg hmem => hz seg (List.mem_cons_of_mem _ hmem)) hkeep.tables)
    obtain ⟨own', hI'⟩ := hkeep.inv
    refine ⟨hkeep.trans fun own' hI' => (htail own' hI').1, fun seg' hmem => ?_⟩
    rcases List.mem_cons.mp hmem with rfl | hmem
    · exact ⟨huser, (htail own' hI').1.leaf p (hp ▸ hI.pmap m hm) _ huser hleaf⟩
    · exact (htail own' hI').2 seg' hmem

end Load

section Exec
variable {h : Hhdm} {img : Mem} {n : ℕ} {lc seg imageData imageSize task entryPoint : Word}
  {w : VmWorld} {s s' : ExecState} {g : VmGhost} {lists : VmMapPtr → List EntryPtr}

theorem segmentsOf_vmsize (hseg : seg ∈ segmentsOf img n lc) : segVmsize img seg ≠ 0 := by
  induction n generalizing lc with
  | zero => cases hseg
  | succ n ih =>
    rw [segmentsOf] at hseg
    split_ifs at hseg with hc
    · rcases List.mem_cons.mp hseg with rfl | hseg
      · exact hc.2
      · exact ih hseg
    · exact ih hseg

theorem inSegment_vmaddr (hseg : seg ∈ imageSegments img imageData) :
    InSegment img seg (segVmaddr img seg) := by
  have hz : (segVmsize img seg).toNat ≠ 0 := fun hc =>
    segmentsOf_vmsize hseg (BitVec.eq_of_toNat_eq hc)
  rw [InSegment]
  omega

/-- After a load that succeeds user code does not reach the start of any segment. -/
theorem execLoad_private (hW : VmWorldInv h g lists w) (ho : ExecOver w s)
    (hact : w.Pmap s.load.vm.active)
    (huser : StoresUser h img (imageSegments img imageData) s.load.vm)
    (hrun : execLoad h img task imageData imageSize entryPoint s = (some .success, s'))
    (hseg : seg ∈ imageSegments img imageData) (prot : BitVec 32) (es : List Word) :
    ¬ UserRights h s'.load.vm.pm.kmem.mem
      (s'.load.vm.pm.pmaps (s'.load.vm.maps (s'.taskMap task)).pmap).pml4Phys
      (segVmaddr img seg) prot es := by
  obtain ⟨s₁, l, hm, hl, rfl⟩ := execLoad_success hrun
  obtain ⟨g', maps', lists', hI', hm', _, hmade, _⟩ := execMap_made (ho.inv hW) (ho.tasks task) hm
  obtain ⟨_, _, _, t, hp, hvm, _⟩ := machoLoad_success hl
  have htables : (∀ seg ∈ imageSegments img imageData, segFilesize img seg = 0) ∨
      UserTables h g'.live s₁.load.vm := by
    rcases huser with hne | hnone | hfile
    · refine Or.inr (Or.inl ?_)
      rw [hmade.active]
      exact hmade.live ((hW.pmap hact).resolve_left hne)
    · rcases hW.pmap hact with hk | hlive
      · refine Or.inr (Or.inr ⟨hmade.active.trans hk, fun va hva => ?_⟩)
        rw [hmade.translations .kernel (Or.inl rfl) va]
        exact hnone va hva
      · refine Or.inr (Or.inl ?_)
        rw [hmade.active]
        exact hmade.live hlive
    · exact Or.inl hfile
  obtain ⟨hkeep, hall⟩ := machoParseSegments_private (s := s₁.load.start imageData imageSize) _ hI'
    hm' rfl htables hp
  obtain ⟨hva, hleaf⟩ := hall seg hseg
  obtain ⟨own', hI⟩ := hkeep.inv
  dsimp only
  rw [machoLoad_pmap hl, hvm]
  exact hleaf.not_rights hI.mem.pmap (hI'.pmap _ hm') hva prot es

/-- A load that succeeds gives user code the rights of every `initprot` if no segment has one;
and only then, unless its stores may have gone over the tables. -/
theorem exec_load_rights {s₀ vm₀ : VmState} (hb : VmBoot h s₀) (hs : vmMapInit s₀ = some vm₀)
    {trace : List VmOp} (hr : Run (VmStep h) (VmWorld.boot vm₀) trace w) (ho : ExecOver w s)
    (hact : w.Pmap s.load.vm.active)
    (hrun : execLoad h img task imageData imageSize entryPoint s = (some .success, s')) :
    let p := (s'.load.vm.maps (s'.taskMap task)).pmap
    let segs := imageSegments img imageData
    ((∀ seg ∈ segs, segInitprot img seg = 0) → SegmentRights h img segs s'.load.vm p) ∧
    (StoresUser h img segs s.load.vm → SegmentRights h img segs s'.load.vm p →
      ∀ seg ∈ segs, segInitprot img seg = 0) := by
  intro p segs
  refine ⟨fun hnone seg hseg hne => absurd (hnone seg hseg) hne, fun huser hrights seg hseg => ?_⟩
  by_contra hne
  obtain ⟨g, lists, hW⟩ := VmWorldInv.run hb hs hr
  obtain ⟨es, hes⟩ := hrights seg hseg hne (segVmaddr img seg) (inSegment_vmaddr hseg)
  exact execLoad_private hW ho hact huser hrun hseg _ es hes

end Exec

theorem execMapped_pmap : vmFirstWorld.Pmap execMapped.load.vm.active := Or.inl execMapped_active

theorem pageImage_segment : imageSegments pageImage 0x100000 = [0x100020] ∧
    segFilesize pageImage 0x100020 = 0 ∧ segInitprot pageImage 0x100020 = 3 := by decide +kernel

theorem exec_load_rights_page :
    let s' := (execLoad higherHalf pageImage 0x2000 0x100000 0x68 0x3000 execMapped).2
    let p := (s'.load.vm.maps (s'.taskMap 0x2000)).pmap
    let segs := imageSegments pageImage 0x100000
    ((∀ seg ∈ segs, segInitprot pageImage seg = 0) →
      SegmentRights higherHalf pageImage segs s'.load.vm p) ∧
    (StoresUser higherHalf pageImage segs execMapped.load.vm →
      SegmentRights higherHalf pageImage segs s'.load.vm p →
      ∀ seg ∈ segs, segInitprot pageImage seg = 0) :=
  exec_load_rights vmBootState_boot vmBooted_init vmFirst_run execMapped_over execMapped_pmap
    execMapped_page

/-- The segment of the image may be read and written, and user code does not reach it. -/
theorem exec_load_without_user :
    WellFormedImage pageImage 0x100000 0x68 ∧
    (∀ seg ∈ imageSegments pageImage 0x100000, segInitprot pageImage seg = 3) ∧
    ∃ w trace, Run (VmStep higherHalf) (VmWorld.boot vmBooted) trace w ∧ ExecOver w execMapped ∧
      w.Pmap execMapped.load.vm.active ∧
      ∃ s', execLoad higherHalf pageImage 0x2000 0x100000 0x68 0x3000 execMapped =
          (some .success, s') ∧
        ¬ SegmentRights higherHalf pageImage (imageSegments pageImage 0x100000) s'.load.vm
          (s'.load.vm.maps (s'.taskMap 0x2000)).pmap := by
  obtain ⟨g, lists, hW⟩ := VmWorldInv.run vmBootState_boot vmBooted_init vmFirst_run
  obtain ⟨hsegs, hfile, hprot⟩ := pageImage_segment
  have hseg : 0x100020 ∈ imageSegments pageImage 0x100000 := by
    rw [hsegs]
    exact List.mem_cons_self
  have hone {seg : Word} (hin : seg ∈ imageSegments pageImage 0x100000) : seg = 0x100020 := by
    rw [hsegs] at hin
    exact List.mem_singleton.mp hin
  have hstores : StoresUser higherHalf pageImage (imageSegments pageImage 0x100000)
      execMapped.load.vm := Or.inr (Or.inr fun seg hin => hone hin ▸ hfile)
  refine ⟨pageImage_wellFormed, fun seg hin => hone hin ▸ hprot, _, _, vmFirst_run, execMapped_over,
    execMapped_pmap, _, execMapped_page, fun hrights => ?_⟩
  have hne : segInitprot pageImage 0x100020 ≠ 0 := by
    rw [hprot]
    decide
  obtain ⟨es, hes⟩ := hrights _ hseg hne _ (inSegment_vmaddr hseg)
  exact execLoad_private hW execMapped_over execMapped_pmap hstores execMapped_page hseg _ es hes

end Dana
