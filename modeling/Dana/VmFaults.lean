import Dana.VmExact
import Dana.VmCover

/-! What a page fault may do: which accesses it lets through, and what it leaves alone. -/
namespace Dana
open ByteMem RadixTree Transition

/-- The page of `addr` is present, and its leaf entry permits the access. -/
def FaultPermitted (h : Hhdm) (s : PmapState) (p : PmapPtr) (addr : Word) (faultType : BitVec 32) :
    Prop :=
  ∃ x, pmapTranslation h s p addr = some x ∧ (faultType = vmFaultWrite → x.2 &&& pteW ≠ 0) ∧
    (faultType = vmFaultExecute → x.2 &&& pteNX = 0)

/-- The permission that an access takes. -/
def faultProt (faultType : BitVec 32) : BitVec 32 :=
  if faultType = vmFaultWrite then vmProtWrite
  else if faultType = vmFaultExecute then vmProtExecute
  else vmProtRead

/-- An entry of the map covers the address and allows the access. -/
def EntryAllows (s : VmState) (m : VmMapPtr) (addr : Word) (faultType : BitVec 32) : Prop :=
  ∃ e, s.EntryOf m e ∧ s.Contains e addr ∧ (s.entries e).prot &&& faultProt faultType ≠ 0

/-- The entry that `vm_map_lookup_entry` finds has the permission. -/
def LookupAllows (s : VmState) (m : VmMapPtr) (addr : Word) (prot : BitVec 32) : Prop :=
  ∃ e, vmMapLookupEntry s m addr = some (some e) ∧ (s.entries e).prot &&& prot ≠ 0

/-- The condition under which `vm_fault` does not let an access through that it should not: for
a page that is not mapped the entry of a read allows reading; and of a page that is mapped, for
which `vm_fault` looks at no entry, the lookup would find one that allows the access. -/
def FaultGuarded (h : Hhdm) (s : VmState) (m : VmMapPtr) (addr : Word) (faultType : BitVec 32) :
    Prop :=
  if pmapQuery h s.pm (s.maps m).pmap (vmPageAddr addr) = 0 then
    faultProt faultType = vmProtRead → LookupAllows s m addr vmProtRead
  else LookupAllows s m addr (faultProt faultType)

/-- What `vm_fault` leaves alone: the entries, and every translation but that of the page of
`addr`, which may now lead to a frame that was free and is all zeros. Where it fails no
translation has changed and the frames it keeps are page tables. -/
structure FaultFrame (h : Hhdm) (w : VmWorld) (m : VmMapPtr) (addr : Word) (r : VmFaultReturn)
    (s' : VmState) : Prop where
  maps : s'.maps = w.vm.maps
  entries : s'.entries = w.vm.entries
  other : ∀ p, w.Pmap p → ∀ va, (p = (w.vm.maps m).pmap → pageOf va ≠ pageOf addr) →
    pmapTranslation h s'.pm p va = pmapTranslation h w.vm.pm p va
  installed : ∀ va, pmapTranslation h s'.pm (w.vm.maps m).pmap va ≠
      pmapTranslation h w.vm.pm (w.vm.maps m).pmap va → ∃ n e,
    pmapTranslation h s'.pm (w.vm.maps m).pmap va = some (n, e) ∧
    w.vm.pm.kmem.pmm.Free (pageOf (pteFrame e)) ∧
    ∀ x, frameOf h x = pageOf (pteFrame e) → s'.pm.kmem.mem x = 0
  failed : r ≠ .success → s'.data = w.vm.data ∧
    (∀ p, w.Pmap p → ∀ va, pmapTranslation h s'.pm p va = pmapTranslation h w.vm.pm p va) ∧
    ∀ n, w.vm.pm.kmem.pmm.Free n → ¬ s'.pm.kmem.pmm.Free n →
      ∃ p q t, w.Pmap p ∧ tableAt h s'.pm.kmem.mem (s'.pm.pmaps p).pml4Phys q = some t ∧ pageOf t = n

section Bits

/-- The flags of an entry that `pmap_map` wrote. -/
theorem mapEntry_flag {b : Word} (h1 : pteAddrMask &&& b = 0) (h2 : ~~~pteAddrMask &&& b = b)
    (h3 : pteP &&& b = 0) (pa flags : Word) : mapEntry pa flags &&& b = flags &&& b := by
  rw [mapEntry, BitVec.and_or_distrib_right, BitVec.and_or_distrib_right, BitVec.and_assoc, h1,
    BitVec.and_assoc, h2, h3]
  simp

theorem protToPte_write (prot : BitVec 32) :
    protToPte prot &&& pteW ≠ 0 ↔ prot &&& vmProtWrite ≠ 0 := by
  unfold protToPte
  dsimp only
  split_ifs with hx hw hw
  · exact iff_of_true (by decide) hw
  · exact iff_of_false (by decide) hw
  · exact iff_of_true (by decide) hw
  · exact iff_of_false (by decide) hw

theorem protToPte_execute (prot : BitVec 32) :
    protToPte prot &&& pteNX = 0 ↔ prot &&& vmProtExecute ≠ 0 := by
  unfold protToPte
  dsimp only
  split_ifs with hx hw hw
  · exact iff_of_false (by decide) (not_not.mpr hx)
  · exact iff_of_false (by decide) (not_not.mpr hx)
  · exact iff_of_true (by decide) hx
  · exact iff_of_true (by decide) hx

end Bits

section Faults
variable {h : Hhdm} {g : VmGhost} {maps : Set VmMapPtr} {lists : VmMapPtr → List EntryPtr}
  {w : VmWorld} {s s' : VmState} {p : PmapPtr} {m : VmMapPtr} {addr va : Word}
  {faultType : BitVec 32}

/-- The ways in which `vm_fault` succeeds: the page was mapped, or it is mapped now with the
protection of its entry, which the access may not go against. -/
theorem vmFault_success (hI : VmInv h g maps lists s) (hm : m ∈ maps)
    (hf : vmFault h s m addr faultType = some (.success, s')) :
    (pmapQuery h s.pm (s.maps m).pmap (vmPageAddr addr) ≠ 0 ∧ s' = s) ∨
    pmapQuery h s.pm (s.maps m).pmap (vmPageAddr addr) = 0 ∧ UserVa addr ∧
    ∃ e ∈ lists m, s.Contains e addr ∧
      (faultType = vmFaultWrite → (s.entries e).prot &&& vmProtWrite ≠ 0) ∧
      (faultType = vmFaultExecute → (s.entries e).prot &&& vmProtExecute ≠ 0) ∧
      ∃ own' pm' data' pa, s' = { s with pm := pm', data := data' } ∧
        VmInv h { g with own := own' } maps lists s' ∧
        pteOf h pm' (s.maps m).pmap addr =
          some (mapEntry pa (protToPte (s.entries e).prot)) := by
  rcases vmFault_cases hI hm addr faultType with ⟨hq, hrun⟩ | ⟨hq, ⟨_, hrun⟩ |
    ⟨e, hmem, h1, h2, hva, ⟨_, hrun⟩ | ⟨hallow, hrun⟩⟩⟩
  · exact Or.inl ⟨hq, (Prod.mk.inj (Option.some.inj (hf.symm.trans hrun))).2⟩
  · cases (Prod.mk.inj (Option.some.inj (hf.symm.trans hrun))).1
  · cases (Prod.mk.inj (Option.some.inj (hf.symm.trans hrun))).1
  obtain ⟨own', pm', data', hmem', _, hres⟩ := vmPageIn_spec hI.mem (hI.pmap m hm) hva.pageAddr
    (protToPte (s.entries e).prot)
  rcases hres with ⟨hin, _⟩ | ⟨pa, hin, _, _, _, hset⟩
  · rw [hin] at hrun
    cases (Prod.mk.inj (Option.some.inj (hf.symm.trans hrun))).1
  · rw [hin] at hrun
    obtain ⟨_, rfl⟩ := Prod.mk.inj (Option.some.inj (hf.symm.trans hrun))
    obtain ⟨hw, hx⟩ := not_or.mp hallow
    refine Or.inr ⟨hq, hva, e, hmem, ⟨h1, h2⟩, fun ht hz => hw ⟨ht, hz⟩, fun ht hz => hx ⟨ht, hz⟩,
      own', pm', data', pa, rfl, hI.with_mem hmem', ?_⟩
    rw [hset.pte (hI.pmap m hm) hva.pageAddr hva, if_pos (pageOf_vmPageAddr addr)]

/-- Where `vm_fault` succeeds the page permits the access, unless it was mapped with other
rights, which `vm_fault` leaves as they are. -/
theorem vm_fault_resolved {s₀ s : VmState} (hb : VmBoot h s₀) (hs : vmMapInit s₀ = some s)
    {trace : List VmOp} (hr : Run (VmStep h) (VmWorld.boot s) trace w) (hm : m ∈ w.maps)
    (hf : vmFault h w.vm m addr faultType = some (.success, s')) :
    FaultPermitted h s'.pm (s'.maps m).pmap addr faultType ↔
      pmapQuery h w.vm.pm (w.vm.maps m).pmap (vmPageAddr addr) = 0 ∨
      FaultPermitted h w.vm.pm (w.vm.maps m).pmap addr faultType := by
  obtain ⟨g, lists, hI⟩ := VmWorldInv.run hb hs hr
  rcases vmFault_success hI.inv hm hf with ⟨hq, rfl⟩ |
    ⟨hq, hva, e, _, _, hw, hx, own', pm', data', pa, rfl, hI', hpte⟩
  · exact ⟨Or.inr, fun hc => hc.resolve_left hq⟩
  · refine iff_of_true ⟨(0, mapEntry pa (protToPte (w.vm.entries e).prot)), ?_, fun ht => ?_,
      fun ht => ?_⟩ (Or.inl hq)
    · rw [hI'.mem.pmap.translation (hI.inv.pmap m hm) hva]
      exact congrArg (Option.map fun e => (0, e)) hpte
    · show mapEntry _ _ &&& pteW ≠ 0
      rw [mapEntry_flag (by decide) (by decide) (by decide)]
      exact (protToPte_write _).mpr (hw ht)
    · show mapEntry _ _ &&& pteNX = 0
      rw [mapEntry_flag (by decide) (by decide) (by decide)]
      exact (protToPte_execute _).mpr (hx ht)

theorem VmInv.entryAllows_iff (hI : VmInv h g maps lists s) (hm : m ∈ maps) :
    EntryAllows s m addr faultType ↔ LookupAllows s m addr (faultProt faultType) := by
  obtain ⟨hfind, hnone⟩ := (hI.map m hm).lookup_iff (hI.length_le hm) addr
  constructor
  · rintro ⟨e, he, hc, hprot⟩
    exact ⟨e, (hfind e ((hI.entryOf_iff hm).mp he) hc).1, hprot⟩
  · rintro ⟨e, he, hprot⟩
    by_cases hex : ∃ e' ∈ lists m, s.Contains e' addr
    · obtain ⟨e', he', hc⟩ := hex
      have heq := (hfind e' he' hc).1
      rw [he] at heq
      obtain rfl := Option.some.inj (Option.some.inj heq)
      exact ⟨e, (hI.entryOf_iff hm).mpr he', hc, hprot⟩
    · push Not at hex
      rw [hnone hex] at he
      cases he

/-- `vm_fault` succeeds with an entry that allows the access, except for reads, whose permission
it does not look at, and where the page was mapped already. -/
theorem vm_fault_protects {s₀ s : VmState} (hb : VmBoot h s₀) (hs : vmMapInit s₀ = some s)
    {trace : List VmOp} (hr : Run (VmStep h) (VmWorld.boot s) trace w) (hm : m ∈ w.maps)
    (hf : vmFault h w.vm m addr faultType = some (.success, s')) :
    EntryAllows w.vm m addr faultType ↔ FaultGuarded h w.vm m addr faultType := by
  obtain ⟨g, lists, hI⟩ := VmWorldInv.run hb hs hr
  have hI := hI.inv
  rw [hI.entryAllows_iff hm, FaultGuarded]
  by_cases hq : pmapQuery h w.vm.pm (w.vm.maps m).pmap (vmPageAddr addr) = 0
  swap
  · rw [if_neg hq]
  rw [if_pos hq]
  rcases vmFault_success hI hm hf with ⟨hne, _⟩ | ⟨_, _, e, he, hc, hw, hx, _⟩
  · exact absurd hq hne
  have hlookup := (((hI.map m hm).lookup_iff (hI.length_le hm) addr).1 e he hc).1
  constructor
  · intro hallow hread
    rwa [hread] at hallow
  · intro hread
    by_cases ht : faultType = vmFaultWrite
    · rw [faultProt, if_pos ht]
      exact ⟨e, hlookup, hw ht⟩
    by_cases ht' : faultType = vmFaultExecute
    · rw [faultProt, if_neg ht, if_pos ht']
      exact ⟨e, hlookup, hx ht'⟩
    · have hp : faultProt faultType = vmProtRead := by rw [faultProt, if_neg ht, if_neg ht']
      rw [hp]
      exact hread hp

/-- The frames that a call on a pmap took and that are no data pages are page tables. -/
theorem Paged.taken {g' : VmGhost} {data data' : List ℕ} {pm pm' : PmapState} {store : ZoneStore}
    (hpg : Paged h p g.live g.own g'.own pm pm' data data') (hI : VmMemInv h g pm store data)
    (hI' : VmMemInv h g' pm' store data') (hlive : g'.live = g.live) (hpages : g'.pages = g.pages)
    (hdata : data' = data) {n : ℕ} (hfree : pm.kmem.pmm.Free n) (htaken : ¬ pm'.kmem.pmm.Free n) :
    ∃ q path t, q ∈ g.live ∧ tableAt h pm'.kmem.mem (pm'.pmaps q).pml4Phys path = some t ∧
      pageOf t = n := by
  have hown : g.own n = .free := (hI.pmap.free n).mp hfree
  cases ho : g'.own n with
  | free => exact absurd ((hI'.pmap.free n).mpr ho) htaken
  | table q path =>
    obtain ⟨_, _, hq, _, t, _, hpage, ht⟩ := hI'.pmap.table n q path ho
    exact ⟨q, path, t, hlive ▸ hq, ht, hpage⟩
  | leaf q path i =>
    have hn : n ∈ data := hdata ▸ (hI'.dataLeaf n).mpr ⟨q, path, i, ho⟩
    exact absurd hfree (hI.data_used hn)
  | desc q =>
    -- the page of the descriptor was that of a live pmap before
    obtain ⟨_, _, hq, pa, hpa, hpage⟩ := hI'.pmap.descPage n q ho
    obtain ⟨pa', hpa', _, ho'⟩ := hI.pmap.desc q (hlive ▸ hq)
    obtain rfl := PmapPtr.page.inj (hpa.symm.trans hpa')
    rw [hpage, hown] at ho'
    cases ho'
  | zone z =>
    have hz := (hI.zonePage z n).mp (hpages ▸ (hI'.zonePage z n).mpr ho)
    rw [hown] at hz
    cases hz
  | kernel =>
    have hk := hpg.rest n (Or.inl ho)
    rw [hown, ho] at hk
    cases hk
  | other =>
    have hk := hpg.rest n (Or.inr ho)
    rw [hown, ho] at hk
    cases hk

theorem FaultFrame.same {r : VmFaultReturn} : FaultFrame h w m addr r w.vm :=
  ⟨rfl, rfl, fun _ _ _ _ => rfl, fun _ hne => absurd rfl hne,
    fun _ => ⟨rfl, fun _ _ _ => rfl, fun _ hn hn' => absurd hn hn'⟩⟩

/-- `vm_fault` changes no entry and at most the translation of its page, to a zeroed frame that
was free; where it fails it changes no translation and keeps no frame but for page tables. -/
theorem vm_fault_frame {s₀ s : VmState} (hb : VmBoot h s₀) (hs : vmMapInit s₀ = some s)
    {trace : List VmOp} (hr : Run (VmStep h) (VmWorld.boot s) trace w) (hm : m ∈ w.maps)
    (addr : Word) (faultType : BitVec 32) :
    ∃ r s', vmFault h w.vm m addr faultType = some (r, s') ∧ FaultFrame h w m addr r s' := by
  obtain ⟨g, lists, hI⟩ := VmWorldInv.run hb hs hr
  have hinv := hI.inv
  have hp := hinv.pmap m hm
  have hpmap (q : PmapPtr) (hq : q ∈ g.live) : w.Pmap q :=
    Or.inr ((hI.live q hq).imp id fun hex => hex)
  rcases vmFault_cases hinv hm addr faultType with ⟨_, hrun⟩ | ⟨_, ⟨_, hrun⟩ |
    ⟨e, _, _, _, hva, ⟨_, hrun⟩ | ⟨_, hrun⟩⟩⟩
  · exact ⟨_, _, hrun, .same⟩
  · exact ⟨_, _, hrun, .same⟩
  · exact ⟨_, _, hrun, .same⟩
  obtain ⟨own', pm', data', hmem', hpg, hres⟩ := vmPageIn_spec hinv.mem hp hva.pageAddr
    (protToPte (w.vm.entries e).prot)
  rcases hres with ⟨hin, hd, hsame⟩ | ⟨pa, hin, hd, hfree, hmap, hset⟩
  · -- out of memory, for the page or for one of its tables
    have htr (q : PmapPtr) (hq : w.Pmap q) (va : Word) :
        pmapTranslation h pm' q va = pmapTranslation h w.vm.pm q va :=
      hpg.translation hinv.mem hmem' rfl (hI.pmap hq) fun hqp hu =>
        hsame q (hqp ▸ hp) _ _ (vaPath_path hu.lower) (vaPath_leaf va)
    rw [hin] at hrun
    refine ⟨_, _, hrun, rfl, rfl, fun q hq va _ => htr q hq va, fun va hne => ?_, fun _ =>
      ⟨hd, htr, fun n hn hn' => ?_⟩⟩
    · exact absurd (htr _ (hpmap _ hp) va) hne
    · obtain ⟨q, path, t, hq, ht, hpage⟩ := hpg.taken hinv.mem hmem' rfl rfl hd hn hn'
      exact ⟨q, path, t, hpmap q hq, ht, hpage⟩
  · rw [hin] at hrun
    have htr (q : PmapPtr) (hq : w.Pmap q) (va : Word)
        (hpage : q = (w.vm.maps m).pmap → pageOf va ≠ pageOf addr) :
        pmapTranslation h pm' q va = pmapTranslation h w.vm.pm q va := by
      refine hpg.translation hinv.mem hmem' rfl (hI.pmap hq) fun hqp hu => ?_
      rw [hqp, hset.pte hp hva.pageAddr hu, if_neg]
      rw [pageOf_vmPageAddr]
      exact fun hc => hpage hqp hc.symm
    refine ⟨_, _, hrun, rfl, rfl, htr, fun va hne => ?_, fun hc => absurd rfl hc⟩
    have hpage : pageOf va = pageOf addr := by
      by_contra hc
      exact hne (htr _ (hpmap _ hp) va fun _ => hc)
    have hu := userVa_of_page hva hpage.symm
    have hpte : pteOf h pm' (w.vm.maps m).pmap va =
        some (mapEntry pa (protToPte (w.vm.entries e).prot)) := by
      rw [hset.pte hp hva.pageAddr hu, if_pos ((pageOf_vmPageAddr addr).trans hpage.symm)]
    refine ⟨0, mapEntry pa (protToPte (w.vm.entries e).prot), ?_, ?_, fun x hx => ?_⟩
    · rw [hmem'.pmap.translation hp hu, hpte]
      rfl
    · rw [pteFrame_mapEntry hmap]
      exact hfree
    · rw [pteFrame_mapEntry hmap] at hx
      rcases hpg.mem x (by rw [hx, hd]; exact List.mem_cons_self) with ⟨hx', _⟩ | hz
      · rw [hx] at hx'
        exact absurd hfree (hinv.mem.data_used hx')
      · exact hz

/-- A write fault in a writable entry. -/
theorem vmFirst_fault : ∃ s s' wrote, Run (VmStep higherHalf) (VmWorld.boot vmBooted)
      [.pmapCreate, .mapCreate, .call vmFirstMap (.enter 0x1000 0x2000 3 7 0)]
      ⟨s, ({.page 0x4000} : Set PmapPtr) \ {.page 0x4000}, {vmFirstMap}, wrote⟩ ∧
    vmFault higherHalf s vmFirstMap 0x1234 vmFaultWrite = some (.success, s') ∧
    pmapQuery higherHalf s.pm (s.maps vmFirstMap).pmap (vmPageAddr 0x1234) = 0 := by
  obtain ⟨s, wrote, hrun, hr⟩ := vmFirst_call (.enter 0x1000 0x2000 3 7 0)
  have hvals : ((VmCall.enter 0x1000 0x2000 3 7 0).run higherHalf vmFirst vmFirstMap).bind (fun s =>
      (vmFault higherHalf s vmFirstMap 0x1234 vmFaultWrite).map fun r =>
        (r.1, pmapQuery higherHalf s.pm (s.maps vmFirstMap).pmap (vmPageAddr 0x1234))) =
      some (.success, 0) := by decide +kernel
  rw [hrun, Option.bind_some] at hvals
  obtain ⟨⟨r, s'⟩, hf, hvals⟩ := Option.map_eq_some_iff.mp hvals
  obtain ⟨rfl, hq⟩ := Prod.mk.inj hvals
  exact ⟨s, s', wrote, hr, hf, hq⟩

theorem vm_fault_resolved_write : ∃ s s',
    vmFault higherHalf s vmFirstMap 0x1234 vmFaultWrite = some (.success, s') ∧
    FaultPermitted higherHalf s'.pm (s'.maps vmFirstMap).pmap 0x1234 vmFaultWrite := by
  obtain ⟨s, s', wrote, hr, hf, hq⟩ := vmFirst_fault
  exact ⟨s, s', hf, (vm_fault_resolved vmBootState_boot vmBooted_init hr rfl hf).mpr (Or.inl hq)⟩

theorem vm_fault_protects_write : ∃ s s',
    vmFault higherHalf s vmFirstMap 0x1234 vmFaultWrite = some (.success, s') ∧
    EntryAllows s vmFirstMap 0x1234 vmFaultWrite := by
  obtain ⟨s, s', wrote, hr, hf, hq⟩ := vmFirst_fault
  refine ⟨s, s', hf, (vm_fault_protects vmBootState_boot vmBooted_init hr rfl hf).mpr ?_⟩
  rw [FaultGuarded]
  show if pmapQuery higherHalf s.pm (s.maps vmFirstMap).pmap (vmPageAddr 0x1234) = 0 then _ else _
  rw [if_pos hq]
  exact fun hc => absurd hc (by decide)

theorem vm_fault_frame_write : ∃ w r s',
    vmFault higherHalf w.vm vmFirstMap 0x1234 vmFaultWrite = some (r, s') ∧
    FaultFrame higherHalf w vmFirstMap 0x1234 r s' := by
  obtain ⟨s, _, wrote, hr, _, _⟩ := vmFirst_fault
  obtain ⟨r, s', hf, hframe⟩ := vm_fault_frame vmBootState_boot vmBooted_init hr (m := vmFirstMap)
    rfl 0x1234 vmFaultWrite
  exact ⟨_, r, s', hf, hframe⟩

/-- A write to a page that was mapped to be read only: the fault is answered with success and
comes again. -/
theorem vm_fault_repeats : ∃ s s' wrote, Run (VmStep higherHalf) (VmWorld.boot vmBooted)
      [.pmapCreate, .mapCreate, .call vmFirstMap (.pageRange 0x1000 0x1000 1)]
      ⟨s, ({.page 0x4000} : Set PmapPtr) \ {.page 0x4000}, {vmFirstMap}, wrote⟩ ∧
    vmFault higherHalf s vmFirstMap 0x1000 vmFaultWrite = some (.success, s') ∧
    ¬ FaultPermitted higherHalf s'.pm (s'.maps vmFirstMap).pmap 0x1000 vmFaultWrite := by
  obtain ⟨s, wrote, hrun, hr⟩ := vmFirst_call (.pageRange 0x1000 0x1000 1)
  have hvals : ((VmCall.pageRange 0x1000 0x1000 1).run higherHalf vmFirst vmFirstMap).bind (fun s =>
      (vmFault higherHalf s vmFirstMap 0x1000 vmFaultWrite).map fun r =>
        (r.1, pmapTranslation higherHalf r.2.pm (r.2.maps vmFirstMap).pmap 0x1000)) =
      some (.success, some (0, 0x8000000000006001)) := by decide +kernel
  rw [hrun, Option.bind_some] at hvals
  obtain ⟨⟨r, s'⟩, hf, hvals⟩ := Option.map_eq_some_iff.mp hvals
  obtain ⟨rfl, he⟩ := Prod.mk.inj hvals
  refine ⟨s, s', wrote, hr, hf, ?_⟩
  rintro ⟨x, hx, hwrite, _⟩
  obtain rfl := Option.some.inj (he.symm.trans hx)
  exact hwrite rfl (by decide)

/-- A read in an entry with `VM_PROT_NONE`. -/
theorem vm_fault_reads_none : ∃ s s' wrote, Run (VmStep higherHalf) (VmWorld.boot vmBooted)
      [.pmapCreate, .mapCreate, .call vmFirstMap (.enter 0x1000 0x1000 0 7 0)]
      ⟨s, ({.page 0x4000} : Set PmapPtr) \ {.page 0x4000}, {vmFirstMap}, wrote⟩ ∧
    vmFault higherHalf s vmFirstMap 0x1000 vmFaultRead = some (.success, s') ∧
    ¬ EntryAllows s vmFirstMap 0x1000 vmFaultRead := by
  obtain ⟨s, wrote, hrun, hr⟩ := vmFirst_call (.enter 0x1000 0x1000 0 7 0)
  have hvals : ((VmCall.enter 0x1000 0x1000 0 7 0).run higherHalf vmFirst vmFirstMap).bind (fun s =>
      (vmFault higherHalf s vmFirstMap 0x1000 vmFaultRead).map fun r =>
        (r.1, (vmMapLookupEntry s vmFirstMap 0x1000).map fun e => e.map fun e => (s.entries e).prot)) =
      some (.success, some (some 0)) := by decide +kernel
  rw [hrun, Option.bind_some] at hvals
  obtain ⟨⟨r, s'⟩, hf, hvals⟩ := Option.map_eq_some_iff.mp hvals
  obtain ⟨rfl, he⟩ := Prod.mk.inj hvals
  obtain ⟨g, lists, hI⟩ := VmWorldInv.run vmBootState_boot vmBooted_init hr
  refine ⟨s, s', wrote, hr, hf, fun hallow => ?_⟩
  obtain ⟨e, hl, hprot⟩ := (hI.inv.entryAllows_iff rfl).mp hallow
  change vmMapLookupEntry s vmFirstMap 0x1000 = some (some e) at hl
  rw [hl] at he
  have hzero : (s.entries e).prot = 0 := Option.some.inj (Option.some.inj he)
  change (s.entries e).prot &&& _ ≠ 0 at hprot
  rw [hzero] at hprot
  exact hprot (by decide)

end Faults

end Dana
