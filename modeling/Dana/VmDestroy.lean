import Dana.PmapDestroy
import Dana.VmAttrs

/-! `vm_map_destroy`: what it gives back of a map and of its pmap, and what it leaves of them. -/
namespace Dana
open ByteMem RadixTree LinkedRing AddrLoop IntervalList

/-- The frames of the tables of a pmap, its PML4 and those below its lower half. -/
def pmapTables (h : Hhdm) (s : PmapState) (p : PmapPtr) : Set ℕ :=
  {n | ∃ q t, Path lowerDom [] q ∧ tableAt h s.kmem.mem (s.pmaps p).pml4Phys q = some t ∧
    n = pageOf t}

/-- Data pages have been given back, and no other frame has. -/
structure GivesPages (h : Hhdm) (live : Set PmapPtr) (s s' : VmState) : Prop where
  free : ∀ n, s'.pm.kmem.pmm.Free n ↔ s.pm.kmem.pmm.Free n ∨ n ∈ s.data ∧ n ∉ s'.data
  sub : ∀ n ∈ s'.data, n ∈ s.data
  tables : ∀ p ∈ live, pmapTables h s'.pm p = pmapTables h s.pm p
  mem : ∀ x, frameOf h x ∈ s'.data → s'.pm.kmem.mem x = s.pm.kmem.mem x

section Gives
variable {h : Hhdm} {g g' : VmGhost} {live : Set PmapPtr} {s s' s'' : VmState} {p : PmapPtr}
  {a start stop : Word}

theorem PmapInv.mem_tables {own : ℕ → Owner} {pm : PmapState} (hI : PmapInv h own pm live)
    (hp : p ∈ live) (n : ℕ) : n ∈ pmapTables h pm p ↔ ∃ q, own n = .table p q := by
  constructor
  · rintro ⟨q, t, hq, ht, rfl⟩
    exact ⟨q, hI.table_of_tableAt hp hq ht⟩
  · rintro ⟨q, hn⟩
    obtain ⟨_, _, _, hq, t, _, hpage, ht⟩ := hI.table n p q hn
    exact ⟨q, t, hq, ht, hpage.symm⟩

theorem GivesPages.refl : GivesPages h live s s :=
  ⟨fun n => by simp, fun _ hn => hn, fun _ _ => rfl, fun _ _ => rfl⟩

theorem GivesPages.trans (h1 : GivesPages h live s s') (h2 : GivesPages h live s' s'') :
    GivesPages h live s s'' := by
  refine ⟨fun n => ?_, fun n hn => h1.sub n (h2.sub n hn), fun p hp =>
    (h2.tables p hp).trans (h1.tables p hp), fun x hx =>
    (h2.mem x hx).trans (h1.mem x (h2.sub _ hx))⟩
  rw [h2.free, h1.free, or_assoc]
  apply or_congr_right
  constructor
  · rintro (⟨hn, hn'⟩ | ⟨hn, hn'⟩)
    · exact ⟨hn, fun hc => hn' (h2.sub n hc)⟩
    · exact ⟨h1.sub n hn, hn'⟩
  · intro hn
    by_cases hc : n ∈ s'.data
    · exact Or.inr ⟨hc, hn.2⟩
    · exact Or.inl ⟨hn.1, hc⟩

/-- The tables of a pmap are told by the owners, which stay while nothing is given back. -/
theorem GivesPages.of_own (hI : VmMemInv h g s.pm s.zoneStore s.data)
    (hI' : VmMemInv h g' s'.pm s'.zoneStore s'.data) (hown : g'.own = g.own)
    (hlive : g'.live = g.live) (hdata : s'.data = s.data)
    (hmem : ∀ x, frameOf h x ∈ s.data → s'.pm.kmem.mem x = s.pm.kmem.mem x) :
    GivesPages h g.live s s' := by
  refine ⟨fun n => ?_, fun n hn => hdata ▸ hn, fun p hp => ?_, fun x hx => hmem x (hdata ▸ hx)⟩
  · rw [hI'.pmap.free, hI.pmap.free, hown, hdata]
    simp
  · ext n
    rw [hI'.pmap.mem_tables (hlive ▸ hp), hI.pmap.mem_tables hp, hown]

theorem vmPageOut_gives (hI : VmMemInv h g s.pm s.zoneStore s.data) (hp : p ∈ g.live)
    (hva : UserVa a) : GivesPages h g.live s (vmPageOut h s p a) := by
  have hquery := pmapQuery_eq h s.pm p a
  rcases pmapUnmap_spec hI.pmap hp hva.lower with ⟨_, hnone⟩ |
    ⟨pm1, e, he, hsome, hI1, ht1, _, hpmm1, _⟩
  · rw [hnone] at hquery
    have hrun : vmPageOut h s p a = s := by
      simp only [vmPageOut, hquery, ↓reduceIte]
    rw [hrun]
    exact GivesPages.refl
  have hd := hI.leaf p hp a e hva hsome
  obtain ⟨hq0, hqp⟩ := hd.query
  simp only [hsome] at hquery
  obtain ⟨pa, hpa⟩ : ∃ pa, pa = (e &&& pteAddrMask) ||| (a &&& (pmmPageSize-1)) := ⟨_, rfl⟩
  rw [← hpa] at hq0 hqp hquery
  have hrun : vmPageOut h s p a = { s with
      pm := { pm1 with kmem := { pm1.kmem with pmm := pmmFreePage pm1.kmem.pmm pa } }
      data := s.data.erase (pageOf pa) } := by
    simp only [vmPageOut, hquery, hq0, ↓reduceIte, VmState.freePage, he]
  rw [hrun]
  refine ⟨fun n => ?_, fun n hn => List.mem_of_mem_erase hn, fun q hq => ?_, fun x hx => ?_⟩
  · rw [pmmFreePage_free, hpmm1]
    apply or_congr_right
    constructor
    · rintro ⟨rfl, _⟩
      exact ⟨hqp ▸ hd.mem, hI.nodup.not_mem_erase⟩
    · rintro ⟨hn, hn'⟩
      have hne : n = pageOf pa := by
        by_contra hc
        exact hn' ((List.mem_erase_of_ne hc).mpr hn)
      exact ⟨hne, hqp ▸ hd.pos, hqp ▸ hd.lt⟩
  · ext n
    have hsame : pmapTables h { pm1 with kmem := { pm1.kmem with
        pmm := pmmFreePage pm1.kmem.pmm pa } } q = pmapTables h pm1 q := rfl
    dsimp only
    rw [hsame, hI1.mem_tables hq, hI.pmap.mem_tables hq]
  · obtain ⟨p', q, i, ho⟩ := (hI.dataLeaf _).mp (List.mem_of_mem_erase hx)
    exact ht1.mem x (by rw [ho]; simp) (by rw [ho]; simp)

theorem pagesOut_gives (hp : p ∈ g.live) (as : List Word) (has : ∀ a ∈ as, UserVa a) (s s' : VmState)
    (hI : VmMemInv h g s.pm s.zoneStore s.data)
    (hf : as.foldlM (fun s a => Except.ok (ε := VmState) (vmPageOut h s p a)) s = .ok s') :
    GivesPages h g.live s s' := by
  induction as generalizing s g with
  | nil =>
    obtain rfl := Except.ok.inj hf
    exact GivesPages.refl
  | cons a as ih =>
    obtain ⟨own1, pm1, data1, hrun, hI1, _⟩ := vmPageOut_mapped hI hp (has a List.mem_cons_self)
    have h1 := vmPageOut_gives hI hp (has a List.mem_cons_self)
    rw [hrun] at h1
    rw [List.foldlM_cons, hrun] at hf
    exact h1.trans (ih (g := { g with own := own1 }) hp
      (fun b hb => has b (List.mem_cons_of_mem _ hb)) _ hI1 hf)

theorem vmPagesOut_gives (hI : VmMemInv h g s.pm s.zoneStore s.data) (hp : p ∈ g.live)
    (hstop : stop.toNat ≤ 2^47) (hr : vmPagesOut h p stop start s = some s') :
    GivesPages h g.live s s' := by
  have hu : ∀ a ∈ pageAddrs start stop, UserVa a := fun a ha => user_of_pageAddrs hstop ha
  obtain ⟨own', pm', data', hf, _⟩ := pagesOut_foldlM hp _ hu s hI
  rw [vmPagesOut, forPages_eq hstop, hf] at hr
  obtain rfl := Option.some.inj hr
  exact pagesOut_gives hp _ hu s _ hI hf

end Gives

/-- The addresses of the pages that an entry covers, as the loop of `vm_map_destroy` goes
through them. -/
def entryAddrs (s : VmState) (e : EntryPtr) : List Word :=
  pageAddrs (s.entries e).start (s.entries e).stop

/-- The entries `done` of the map `m` and their pages are gone. The other maps are in order;
the list of `m` itself is left as it was. -/
structure Emptied (h : Hhdm) (g g' : VmGhost) (maps : Set VmMapPtr)
    (lists : VmMapPtr → List EntryPtr) (m : VmMapPtr) (done : List EntryPtr) (s s' : VmState) :
    Prop where
  inv : VmInv h g' (maps \ {m}) lists s'
  live : g'.live = g.live
  elems : g'.elems = Function.update g.elems s.vmMapEntryZone
    (g.elems s.vmMapEntryZone \ {a | EntryPtr.elem a ∈ done})
  out : MappedOut h g.live (s.maps m).pmap (done.flatMap (entryAddrs s)) g.own g'.own s.pm s'.pm
    s.data s'.data
  gives : GivesPages h g.live s s'
  entries : ∀ x, x ∉ done → s'.entries x = s.entries x
  maps : s'.maps = s.maps
  active : s'.active = s.active
  mapZone : s'.vmMapZone = s.vmMapZone
  entryZone : s'.vmMapEntryZone = s.vmMapEntryZone

section Empty
variable {h : Hhdm} {g g1 : VmGhost} {maps maps' : Set VmMapPtr} {lists : VmMapPtr → List EntryPtr}
  {s s1 : VmState} {m : VmMapPtr} {a : Word} {e : EntryPtr} {done es : List EntryPtr}

theorem VmInv.sub (hI : VmInv h g maps lists s) (hsub : maps' ⊆ maps) :
    VmInv h g maps' lists s :=
  ⟨hI.mem, hI.mapZone, hI.entryZone, hI.zones, fun m hm => hI.map m (hsub hm),
    fun m hm => hI.user m (hsub hm), fun m hm => hI.pmap m (hsub hm),
    fun m hm m' hm' => hI.pmaps m (hsub hm) m' (hsub hm'), fun m hm => hI.elem m (hsub hm),
    fun m hm => hI.entry m (hsub hm), fun m hm m' hm' => hI.apart m (hsub hm) m' (hsub hm')⟩

/-- An entry that is in no list is given back to its zone. -/
theorem VmInv.entryFree (hI : VmInv h g maps lists s) (ha : a ∈ g.elems s.vmMapEntryZone)
    (hout : ∀ m ∈ maps, EntryPtr.elem a ∉ lists m) : ∃ g',
      VmInv h g' maps lists (vmMapEntryFree s (.elem a)) ∧ g'.own = g.own ∧ g'.live = g.live ∧
      g'.elems = Function.update g.elems s.vmMapEntryZone (g.elems s.vmMapEntryZone \ {a}) ∧
      Kept h g.live g.own g'.own s.pm (vmMapEntryFree s (.elem a)).pm s.data := by
  obtain ⟨zone, hzone⟩ : ∃ zone, zone =
    (zfree (s.zoneStore.zones s.vmMapEntryZone) a s.pm.kmem).1 := ⟨_, rfl⟩
  obtain ⟨k, hk⟩ : ∃ k, k = (zfree (s.zoneStore.zones s.vmMapEntryZone) a s.pm.kmem).2 := ⟨_, rfl⟩
  obtain ⟨hmem, hkept⟩ := hI.mem.zfree ha (Prod.ext hzone.symm hk.symm)
  obtain ⟨v, hrun⟩ : ∃ v, vmMapEntryFree s (.elem a) =
      ({ s with
        pm := { s.pm with kmem := k }
        zoneStore := s.zoneStore.set s.vmMapEntryZone zone } : VmState).setEntry (.elem a) v := by
    refine ⟨{ s.entries (.elem a) with
      start := (s.zoneStore.zones s.vmMapEntryZone).freeList }, ?_⟩
    rw [hzone, hk]
    rfl
  rw [hrun]
  refine ⟨_, ⟨hmem, hI.mapZone, hI.entryZone, hI.zones, fun m hm => (hI.map m hm).congr rfl
    fun x hx => ?_, hI.user, hI.pmap, hI.pmaps, fun m hm => ?_, fun m hm x hx => ?_, hI.apart⟩,
    rfl, rfl, rfl, hkept⟩
  · apply Function.update_of_ne
    rintro rfl
    rcases List.mem_cons.mp hx with hc | hx
    · cases hc
    · exact hout m hm hx
  · change ∃ b ∈ Function.update g.elems s.vmMapEntryZone (g.elems s.vmMapEntryZone \ {a})
      s.vmMapZone, m = .elem b
    rw [Function.update_of_ne hI.zones]
    exact hI.elem m hm
  · obtain ⟨b, hb, rfl⟩ := hI.entry m hm x hx
    refine ⟨b, ?_, rfl⟩
    change b ∈ Function.update g.elems s.vmMapEntryZone (g.elems s.vmMapEntryZone \ {a})
      s.vmMapEntryZone
    rw [Function.update_self]
    refine ⟨hb, fun hc => hout m hm ?_⟩
    rw [← Set.mem_singleton_iff.mp hc]
    exact hx

theorem Emptied.refl (hI : VmInv h g maps lists s) : Emptied h g g maps lists m [] s s := by
  refine ⟨hI.sub Set.sdiff_subset, rfl, ?_, MappedOut.refl, GivesPages.refl, fun _ _ => rfl, rfl, rfl,
    rfl, rfl⟩
  have hnone : {a | EntryPtr.elem a ∈ ([] : List EntryPtr)} = ∅ := by
    ext a
    simp
  rw [hnone, Set.sdiff_empty, Function.update_eq_self]

/-- The body of the loop of `vm_map_destroy`. -/
def vmDestroyEntry (h : Hhdm) (m : VmMapPtr) (e : EntryPtr) (s : VmState) :
    Except Unit (VmState × EntryPtr) :=
  match vmPagesOut h (s.maps m).pmap (s.entries e).stop (s.entries e).start s with
  | none => .error ()
  | some s' => .ok (vmMapEntryFree s' e, (s.entries e).next)

theorem vmMapFreeEntries_eq (s : VmState) (m : VmMapPtr) : vmMapFreeEntries h s m =
    match forNodes (.header m) (vmDestroyEntry h m) addrFuel (s.next (.header m)) s with
    | some (.ok s) => some s
    | _ => none := rfl

/-- One more entry is gone, with the pages that it covers. -/
theorem Emptied.step (hI : VmInv h g maps lists s) (hm : m ∈ maps)
    (hE : Emptied h g g1 maps lists m done s s1) (hl : lists m = done ++ e :: es) :
    ∃ s2 g2, vmDestroyEntry h m e s1 = .ok (s2, s.next e) ∧
      Emptied h g g2 maps lists m (done ++ [e]) s s2 := by
  have hel : e ∈ lists m := by simp [hl]
  have hnd : (done ++ e :: es).Nodup := hl ▸ (hI.map m hm).nodup
  have hout : e ∉ done := fun hd => List.disjoint_of_nodup_append hnd hd List.mem_cons_self
  obtain ⟨a, ha, rfl⟩ := hI.entry m hm e hel
  have hent := hE.entries _ hout
  have hlive : (s.maps m).pmap ∈ g1.live := hE.live ▸ hI.pmap m hm
  have hbound : (s.entries (.elem a)).stop.toNat ≤ 2^47 := by
    have h1 := ((hI.map m hm).inside _ hel).2
    rw [(hI.user m hm).2] at h1
    have h2 : userMapMax.toNat = 2^47-1 := rfl
    have h3 : (s.entries (.elem a)).stop.toNat ≤ userMapMax.toNat := h1
    omega
  obtain ⟨own', pm', data', hrun, hmem, hmout⟩ := vmPagesOut_spec hE.inv.mem hlive hbound
    (s.entries (.elem a)).start
  have hgives := vmPagesOut_gives hE.inv.mem hlive hbound hrun
  have hI2 := hE.inv.with_mem hmem
  have ha1 : a ∈ g1.elems s1.vmMapEntryZone := by
    rw [hE.elems, hE.entryZone, Function.update_self]
    exact ⟨ha, hout⟩
  obtain ⟨g2, hI3, hown, hlive2, helems, hkept⟩ := hI2.entryFree ha1 fun m' hm' =>
    hI.apart m hm m' hm'.1 (fun hc => hm'.2 hc.symm) _ hel
  have hfree : GivesPages h g1.live { s1 with pm := pm', data := data' }
      (vmMapEntryFree { s1 with pm := pm', data := data' } (.elem a)) :=
    GivesPages.of_own (g := { g1 with own := own' }) hI2.mem hI3.mem hown hlive2 rfl
      hkept.mem
  refine ⟨_, g2, ?_, hI3, hlive2.trans hE.live, ?_, ?_, ?_, fun x hx => ?_, hE.maps, hE.active,
    hE.mapZone, hE.entryZone⟩
  · have hp1 : (s1.maps m).pmap = (s.maps m).pmap := by rw [hE.maps]
    rw [vmDestroyEntry, hp1, hent, hrun]
    rfl
  · rw [helems]
    change Function.update g1.elems s1.vmMapEntryZone (g1.elems s1.vmMapEntryZone \ {a}) = _
    rw [hE.entryZone, hE.elems, Function.update_self, Function.update_idem]
    congr 1
    ext b
    simp only [Set.mem_sdiff, Set.mem_ofPred_eq, Set.mem_singleton_iff, List.mem_append,
      List.mem_singleton, EntryPtr.elem.injEq, not_or, and_assoc]
  · have hlast : MappedOut h g1.live (s.maps m).pmap [] own' g2.own pm'
        (vmMapEntryFree { s1 with pm := pm', data := data' } (.elem a)).pm data' data' :=
      MappedOut.same hlive (hkept.paged rfl) hkept.same
    have hall := hE.out.trans (hE.live ▸ (hmout.trans hlast))
    rw [List.append_nil] at hall
    rw [List.flatMap_append, List.flatMap_singleton]
    exact hall
  · exact hE.gives.trans (hE.live ▸ hgives.trans hfree)
  · rw [List.mem_append, List.mem_singleton, not_or] at hx
    exact (Function.update_of_ne hx.2 _ _).trans (hE.entries x hx.1)

/-- The loop over the entries ends, with all of them and their pages given back. -/
theorem vmMapFreeEntries_spec (hI : VmInv h g maps lists s) (hm : m ∈ maps) :
    ∃ s' g', vmMapFreeEntries h s m = some s' ∧ Emptied h g g' maps lists m (lists m) s s' := by
  have hmap := hI.map m hm
  -- the chain of the list is read from the entries that are still there
  obtain ⟨I, hIdef⟩ : ∃ I : List EntryPtr → VmState → Prop, I = fun es s1 =>
      ∃ done g1, lists m = done ++ es ∧ Emptied h g g1 maps lists m done s s1 := ⟨_, rfl⟩
  have hstep (e : EntryPtr) (es : List EntryPtr) (s1 : VmState) (hinv : I (e :: es) s1) :
      ∃ s' e', vmDestroyEntry h m e s1 = .ok (s', e') ∧
        e' = (es ++ [EntryPtr.header m]).head (by simp) ∧ I es s' := by
    rw [hIdef] at hinv
    obtain ⟨done, g1, hl, hE⟩ := hinv
    obtain ⟨s2, g2, hrun, hE2⟩ := hE.step hI hm hl
    refine ⟨s2, _, hrun, ?_, ?_⟩
    · rw [hl] at hmap
      exact hmap.ring.next_eq
    · rw [hIdef]
      exact ⟨done ++ [e], g2, by simp [hl], hE2⟩
  obtain ⟨r, hr, s', rfl, hend⟩ := forNodes_chain (.header m) (vmDestroyEntry h m) I
    (fun r => ∃ s', r = .ok s' ∧ I [] s') (fun e es s1 _ hinv => Or.inl (hstep e es s1 hinv))
    (fun s1 hinv => ⟨s1, rfl, hinv⟩) addrFuel (lists m) s (hI.length_le hm) hmap.not_header
    (hIdef ▸ ⟨[], g, rfl, Emptied.refl hI⟩)
  rw [hIdef] at hend
  obtain ⟨done, g', hl, hE⟩ := hend
  rw [List.append_nil] at hl
  refine ⟨s', g', ?_, hl ▸ hE⟩
  rw [vmMapFreeEntries_eq, hmap.ring.next_sentinel, hr]

end Empty

/-- The owners when `p` has given back its tables. Its descriptor is not given back where the
direct map starts above the frames, so it stays with the kernel. -/
def retireOwner (own : ℕ → Owner) (p : PmapPtr) (n : ℕ) : Owner :=
  if own n = .desc p then .kernel else releaseOwner own p n

/-- The direct map starts above every frame. -/
def Hhdm.High (h : Hhdm) : Prop := 2^32 ≤ h.offset.toNat

instance (h : Hhdm) : Decidable h.High := inferInstanceAs (Decidable (_ ≤ _))

section Retire
variable {h : Hhdm} {g : VmGhost} {maps : Set VmMapPtr} {lists : VmMapPtr → List EntryPtr}
  {s : VmState} {own : ℕ → Owner} {pm : PmapState} {live : Set PmapPtr} {p : PmapPtr} {n : ℕ}

theorem retireOwner_eq {o : Owner} (hf : o ≠ .free) (hk : o ≠ .kernel) :
    retireOwner own p n = o ↔ own n = o ∧ ¬ o.isOf p := by
  rw [retireOwner]
  split_ifs with hd
  · refine iff_of_false (Ne.symm hk) fun hc => hc.2 ?_
    rw [← hc.1, hd]
    simp [Owner.isOf]
  · exact releaseOwner_eq hf

theorem retireOwner_kernel : retireOwner own p n = .kernel ↔ own n = .kernel ∨ own n = .desc p := by
  rw [retireOwner]
  split_ifs with hd
  · exact iff_of_true rfl (Or.inr hd)
  · rw [releaseOwner_eq (by simp)]
    simp [Owner.isOf, hd]

theorem retireOwner_free : retireOwner own p n = .free ↔ own n = .free ∨ ∃ q, own n = .table p q := by
  rw [retireOwner]
  split_ifs with hd
  · rw [hd]
    simp
  · rw [releaseOwner_free]
    simp [hd]

theorem retireOwner_leaf {p' : PmapPtr} {q : List Idx} {i : Idx} :
    retireOwner own p n = .leaf p' q i ↔ own n = .leaf p' q i := by
  rw [retireOwner_eq (by simp) (by simp)]
  simp [Owner.isOf]

theorem retireOwner_zone {z : ℕ} : retireOwner own p n = .zone z ↔ own n = .zone z := by
  rw [retireOwner_eq (by simp) (by simp)]
  simp [Owner.isOf]

/-- The page that the address of the descriptor would be in the direct map is none of the frames. -/
theorem Hhdm.High.untracked (hh : h.High) {pa : Word} (hlt : pageOf pa < pmmMaxPages) :
    ¬ Tracked (pageOf (virtToPhys h pa)) := by
  rintro ⟨_, hc⟩
  have hfit := h.fits
  have hmax : pmmMaxPages = 2^20 := rfl
  rw [Hhdm.High] at hh
  rw [pageOf_eq] at hlt hc
  rw [virtToPhys, BitVec.toNat_sub] at hc
  omega

/-- What the last reference of `p` gives back where the loops reach no tracked table of the
kernel: the tables of `p`. -/
theorem PmapInv.retire_free (hI : PmapInv h own pm live) (hp : p ∈ live)
    (href : (pm.pmaps p).refCount = 1) (hh : h.High)
    (hloops : ∀ n ∈ kernelLoopFrames h pm, ¬ Tracked n) (n : ℕ) :
    (pmapDestroy h pm p).kmem.pmm.Free n ↔ pm.kmem.pmm.Free n ∨ n ∈ pmapTables h pm p := by
  obtain ⟨pa, rfl, _, hd⟩ := hI.desc p hp
  obtain ⟨_, hlt, _⟩ := hI.descPage _ _ hd
  rw [hI.destroy_free hp href, hI.mem_tables hp]
  apply or_congr_right
  apply or_iff_left
  rintro (⟨h1, h2⟩ | ⟨rfl, h2⟩)
  · exact hloops n h1 h2
  · exact hh.untracked hlt h2

/-- The other pmaps are intact when the last reference of `p` is gone. -/
theorem PmapInv.retire (hI : PmapInv h own pm live) (hp : p ∈ live)
    (href : (pm.pmaps p).refCount = 1) (hh : h.High)
    (hloops : ∀ n ∈ kernelLoopFrames h pm, ¬ Tracked n) :
    PmapInv h (retireOwner own p) (pmapDestroy h pm p) (live \ {p}) := by
  obtain ⟨pa, hpa, _, hd⟩ := hI.desc p hp
  obtain ⟨hpos, hlt, _⟩ := hI.descPage _ _ hd
  -- with the descriptor given back too, the pmap is removed, and the descriptor is then taken
  obtain ⟨pm1, hpm1⟩ : ∃ pm1 : PmapState, pm1 = { pmapDestroy h pm p with
    kmem := { (pmapDestroy h pm p).kmem with
      pmm := pmmFreePage (pmapDestroy h pm p).kmem.pmm pa } } := ⟨_, rfl⟩
  have hmem : pm1.kmem.mem = pm.kmem.mem := by
    rw [hpm1]
    exact pmapDestroy_mem h pm p
  have hfree (n : ℕ) : pm1.kmem.pmm.Free n ↔ pm.kmem.pmm.Free n ∨ n ∈ pmapFrames h pm p := by
    rw [hpm1]
    dsimp only
    rw [pmmFreePage_free, hI.retire_free hp href hh hloops, hI.mem_tables hp, hI.mem_frames hp,
      or_assoc]
    refine or_congr_right (or_congr_right ⟨?_, fun hn => ?_⟩)
    · rintro ⟨rfl, _⟩
      exact hd
    · obtain ⟨_, _, _, pa', h1, h2⟩ := hI.descPage n p hn
      rw [hpa] at h1
      obtain rfl := PmapPtr.page.inj h1
      exact ⟨h2.symm, hpos, hlt⟩
  have hother (p' : PmapPtr) (hne : p' ≠ p) : pm1.pmaps p' = pm.pmaps p' := by
    rw [hpm1]
    exact pmapDestroy_other h pm hne
  have hrem := hI.remove hp hmem hfree hother
  have hn0 : ¬ (pmapDestroy h pm p).kmem.pmm.Free 0 := by
    rw [hI.retire_free hp href hh hloops, hI.mem_tables hp, hI.free]
    rintro (hc | ⟨q, hc⟩)
    · exact hI.pageZero ((hI.free 0).mpr hc)
    · exact absurd (hI.table 0 p q hc).1 (by simp)
  have hback : { pm1 with kmem := (pmapDestroy h pm p).kmem } = pmapDestroy h pm p := by rw [hpm1]
  rw [← hback]
  refine (hrem.congr hn0 (fun n => ?_) (fun n p' q => ?_) (fun n p' => ?_) (fun n hn => ?_)
    fun x _ => ?_).1
  · rw [hI.retire_free hp href hh hloops, hI.mem_tables hp, hI.free, retireOwner_free]
  · rw [retireOwner_eq (by simp) (by simp), releaseOwner_eq (by simp)]
  · rw [retireOwner_eq (by simp) (by simp), releaseOwner_eq (by simp)]
  · rw [releaseOwner_eq (by simp)] at hn
    exact retireOwner_kernel.mpr (Or.inl hn.1)
  · rw [hmem, pmapDestroy_mem]

end Retire

section Loops
variable {h : Hhdm} {pm pm' : PmapState} {own : ℕ → Owner}

/-- What the loops reach through the kernel's upper half is read from the PML4 and from the
tables reached so far. -/
theorem kernelLoopFrames_congr (ha : PageAligned (pm.pmaps .kernel).pml4Phys)
    (hp : pm'.pmaps .kernel = pm.pmaps .kernel)
    (hmem : ∀ x, frameOf h x = pageOf (pm.pmaps .kernel).pml4Phys ∨
      frameOf h x ∈ kernelLoopFrames h pm → pm'.kmem.mem x = pm.kmem.mem x) :
    kernelLoopFrames h pm' = kernelLoopFrames h pm := by
  have hpte (t : Word) (i : Idx) (hat : PageAligned t)
      (ht : pageOf t = pageOf (pm.pmaps .kernel).pml4Phys ∨ pageOf t ∈ kernelLoopFrames h pm) :
      pteAt h pm'.kmem.mem t i = pteAt h pm.kmem.mem t i :=
    pteAt_congr h _ _ t i hat fun x hx => hmem x (by rwa [hx])
  have heq (i : Idx) (q : List Idx) (hi : 256 ≤ i.toNat) (hq : q.length < 3) :
      loopTable h pm'.kmem.mem (pm'.pmaps .kernel).pml4Phys (i :: q) =
        loopTable h pm.kmem.mem (pm.pmaps .kernel).pml4Phys (i :: q) := by
    rw [loopTable, loopTable, hp, hpte _ i ha (Or.inl rfl)]
    refine Option.bind_congr fun c hc => node_congr c q fun q' j rest he t ht => ?_
    have hlen : q'.length < 3 := by
      rw [he, List.length_append] at hq
      omega
    have hreach : loopTable h pm.kmem.mem (pm.pmaps .kernel).pml4Phys (i :: q') = some t := by
      rw [loopTable, hc]
      exact ht
    have hat : PageAligned t := by
      rcases List.eq_nil_or_concat q' with rfl | ⟨q'', j', rfl⟩
      · obtain rfl := Option.some.inj ht
        exact pteTable_aligned hc
      · rw [List.concat_eq_append, node_concat, Option.bind_eq_some_iff] at ht
        obtain ⟨u, _, hu⟩ := ht
        exact pteSub_aligned hu
    rw [hpte t j hat (Or.inr ⟨i, q', t, hi, hlen, hreach, rfl⟩)]
  ext n
  constructor
  · rintro ⟨i, q, t, hi, hq, ht, rfl⟩
    exact ⟨i, q, t, hi, hq, heq i q hi hq ▸ ht, rfl⟩
  · rintro ⟨i, q, t, hi, hq, ht, rfl⟩
    exact ⟨i, q, t, hi, hq, (heq i q hi hq).trans ht, rfl⟩

end Loops

/-- The data pages of the entries `l` of the map `m`: what is mapped at the addresses that
they cover. -/
def entryPages (h : Hhdm) (s : VmState) (m : VmMapPtr) (l : List EntryPtr) : Set ℕ :=
  {n | ∃ e ∈ l, ∃ a ∈ entryAddrs s e, ∃ pte, pteOf h s.pm (s.maps m).pmap a = some pte ∧
    n = pageOf (pteFrame pte)}

section Call
variable {h : Hhdm} {g g' : VmGhost} {maps : Set VmMapPtr} {lists : VmMapPtr → List EntryPtr}
  {s s' : VmState} {m : VmMapPtr} {p : PmapPtr} {a : Word}

/-- The count of references is no part of what the lists keep. -/
theorem VmInv.setRef (hI : VmInv h g maps lists s) (m : VmMapPtr) (c : BitVec 32) :
    VmInv h g maps lists (s.setMap m { s.maps m with refCount := c }) := by
  have hmap (m' : VmMapPtr) : ((s.setMap m { s.maps m with refCount := c }).maps m').minOffset =
        (s.maps m').minOffset ∧
      ((s.setMap m { s.maps m with refCount := c }).maps m').maxOffset = (s.maps m').maxOffset ∧
      ((s.setMap m { s.maps m with refCount := c }).maps m').nentries = (s.maps m').nentries ∧
      ((s.setMap m { s.maps m with refCount := c }).maps m').pmap = (s.maps m').pmap := by
    simp only [VmState.setMap, Function.update_apply]
    split_ifs with hc
    · rw [hc]
      exact ⟨rfl, rfl, rfl, rfl⟩
    · exact ⟨rfl, rfl, rfl, rfl⟩
  refine ⟨hI.mem, hI.mapZone, hI.entryZone, hI.zones, fun m' hm' => ?_, fun m' hm' => ?_,
    fun m' hm' => ?_, fun m1 h1 m2 h2 he => ?_, hI.elem, hI.entry, hI.apart⟩
  · have hinv := hI.map m' hm'
    refine ⟨hinv.ring, hinv.sorted, fun e he => ?_, (hmap m').2.2.1.trans hinv.nentries⟩
    rw [(hmap m').1, (hmap m').2.1]
    exact hinv.inside e he
  · rw [(hmap m').1, (hmap m').2.1]
    exact hI.user m' hm'
  · rw [(hmap m').2.2.2]
    exact hI.pmap m' hm'
  · rw [(hmap m1).2.2.2, (hmap m2).2.2.2] at he
    exact hI.pmaps m1 h1 m2 h2 he

/-- A pmap that no map has is given back. -/
theorem VmInv.retire (hI : VmInv h g maps lists s) (hp : p ∈ g.live)
    (hfree : ∀ m ∈ maps, (s.maps m).pmap ≠ p) (href : (s.pm.pmaps p).refCount = 1) (hh : h.High)
    (hloops : ∀ n ∈ kernelLoopFrames h s.pm, ¬ Tracked n) :
    VmInv h { g with own := retireOwner g.own p, live := g.live \ {p} } maps lists
      { s with pm := pmapDestroy h s.pm p } := by
  have hP := hI.mem.pmap.retire hp href hh hloops
  obtain ⟨pa, hpa, _⟩ := hI.mem.pmap.desc p hp
  have hmem : VmMemInv h { g with own := retireOwner g.own p, live := g.live \ {p} }
      (pmapDestroy h s.pm p) s.zoneStore s.data := by
    refine hI.mem.step hP (fun n hn => ?_) (fun n z hn => retireOwner_zone.mp hn) (fun x _ => ?_)
      ?_ (fun p' hp' va e hva he => ?_) (fun n => ?_) hI.mem.nodup
    · rcases hn with ⟨z, hn⟩ | hn
      · rw [hn]
        exact retireOwner_zone.mpr hn
      · rw [hn]
        exact retireOwner_kernel.mpr (Or.inl hn)
    · rw [pmapDestroy_mem]
    · refine pmapDestroy_other h s.pm ?_
      rw [hpa]
      simp
    · rw [pteOf, pmapDestroy_mem, pmapDestroy_pml4] at he
      obtain ⟨h1, h2, h3, h4⟩ := hI.mem.leaf p' hp'.1 va e hva he
      exact ⟨retireOwner_leaf.mpr h1, h2, h3, h4⟩
    · rw [hI.mem.dataLeaf]
      simp only [retireOwner_leaf]
  exact ⟨hmem, hI.mapZone, hI.entryZone, hI.zones, fun m hm => (hI.map m hm).congr rfl fun _ _ => rfl,
    hI.user, fun m hm => ⟨hI.pmap m hm, hfree m hm⟩, hI.pmaps, hI.elem, hI.entry, hI.apart⟩

/-- A map that is no longer used is given back to its zone. -/
theorem VmInv.mapFree (hI : VmInv h g maps lists s) (ha : a ∈ g.elems s.vmMapZone)
    (hout : VmMapPtr.elem a ∉ maps) : ∃ g',
      VmInv h g' maps lists (s.zfree s.vmMapZone a) ∧ g'.own = g.own ∧ g'.live = g.live ∧
      Kept h g.live g.own g'.own s.pm (s.zfree s.vmMapZone a).pm s.data := by
  obtain ⟨zone, hzone⟩ : ∃ zone, zone =
    (zfree (s.zoneStore.zones s.vmMapZone) a s.pm.kmem).1 := ⟨_, rfl⟩
  obtain ⟨k, hk⟩ : ∃ k, k = (zfree (s.zoneStore.zones s.vmMapZone) a s.pm.kmem).2 := ⟨_, rfl⟩
  obtain ⟨hmem, hkept⟩ := hI.mem.zfree ha (Prod.ext hzone.symm hk.symm)
  have hrun : s.zfree s.vmMapZone a = { s with
      pm := { s.pm with kmem := k }
      zoneStore := s.zoneStore.set s.vmMapZone zone } := by
    rw [hzone, hk]
    rfl
  rw [hrun]
  refine ⟨_, ⟨hmem, hI.mapZone, hI.entryZone, hI.zones, fun m hm => (hI.map m hm).congr rfl
    fun _ _ => rfl, hI.user, hI.pmap, hI.pmaps, fun m hm => ?_, fun m hm x hx => ?_, hI.apart⟩,
    rfl, rfl, hkept⟩
  · obtain ⟨b, hb, rfl⟩ := hI.elem m hm
    refine ⟨b, ?_, rfl⟩
    change b ∈ Function.update g.elems s.vmMapZone (g.elems s.vmMapZone \ {a}) s.vmMapZone
    rw [Function.update_self]
    refine ⟨hb, fun hc => hout ?_⟩
    rw [← Set.mem_singleton_iff.mp hc]
    exact hm
  · change ∃ b ∈ Function.update g.elems s.vmMapZone (g.elems s.vmMapZone \ {a})
      s.vmMapEntryZone, x = .elem b
    rw [Function.update_of_ne hI.zones.symm]
    exact hI.entry m hm x hx

/-- What a map is taken apart into when its last reference goes. -/
theorem vmMapDestroy_emptied (hI : VmInv h g maps lists s) (hm : m ∈ maps)
    (href : (s.maps m).refCount = 1) : ∃ a s1 g1, m = .elem a ∧ a ∈ g.elems s.vmMapZone ∧
      Emptied h g g1 maps lists m (lists m) (s.setMap m { s.maps m with refCount := 0 }) s1 ∧
      vmMapDestroy h s m = some ({ s1 with pm := pmapDestroy h s1.pm (s.maps m).pmap }.zfree
        s.vmMapZone a) := by
  obtain ⟨a, ha, rfl⟩ := hI.elem m hm
  obtain ⟨s1, g1, hrun, hE⟩ := vmMapFreeEntries_spec (hI.setRef (.elem a) 0) hm
  refine ⟨a, s1, g1, rfl, ha, hE, ?_⟩
  have hself : (s.setMap (.elem a) { s.maps (.elem a) with refCount := 0 }).maps (.elem a) =
      { s.maps (.elem a) with refCount := 0 } := Function.update_self _ _ _
  have hzero : (s.maps (.elem a)).refCount-1 = 0 := by
    rw [href]
    rfl
  rw [vmMapDestroy, hzero]
  dsimp only
  rw [hself, if_neg (by simp), hrun, Option.map_some, hE.maps, hE.mapZone, hself]
  rfl

theorem VmInv.entryAddrs_user (hI : VmInv h g maps lists s) (hm : m ∈ maps) {e : EntryPtr}
    (he : e ∈ lists m) (ha : a ∈ entryAddrs s e) : UserVa a := by
  have h1 := ((hI.map m hm).inside e he).2
  rw [(hI.user m hm).2] at h1
  have h2 : userMapMax.toNat = 2^47-1 := rfl
  have h3 : (s.entries e).stop.toNat ≤ userMapMax.toNat := h1
  exact user_of_pageAddrs (by omega) ha

/-- The data pages that have gone are those mapped at the addresses of the entries. -/
theorem Emptied.pages {g1 : VmGhost} {s1 : VmState} {l : List EntryPtr}
    (hI : VmInv h g maps lists s) (hm : m ∈ maps) (hl : ∀ e ∈ l, e ∈ lists m)
    (hE : Emptied h g g1 maps lists m l s s1) (n : ℕ) :
    n ∈ s.data ∧ n ∉ s1.data ↔ n ∈ entryPages h s m l := by
  have huser (e : EntryPtr) (he : e ∈ l) (a : Word) (ha : a ∈ entryAddrs s e) : UserVa a :=
    hI.entryAddrs_user hm (hl e he) ha
  rw [hE.out.mem_data]
  constructor
  · rintro ⟨hn, hgone⟩
    rw [not_and] at hgone
    have hgone := hgone hn
    push Not at hgone
    obtain ⟨va, pte, hva, ⟨a, ha, hpage⟩, hpte, rfl⟩ := hgone
    obtain ⟨e, he, hae⟩ := List.mem_flatMap.mp ha
    refine ⟨e, he, a, hae, pte, ?_, rfl⟩
    rw [← hpte]
    exact pteOf_page (huser e he a hae) hva hpage
  · rintro ⟨e, he, a, ha, pte, hpte, rfl⟩
    have hva := huser e he a ha
    refine ⟨(hI.mem.leaf _ (hI.pmap m hm) a pte hva hpte).mem, fun hc => ?_⟩
    exact hc.2 a pte hva ⟨a, List.mem_flatMap.mpr ⟨e, he, ha⟩, rfl⟩ hpte rfl

theorem entryPages_setRef (s : VmState) (m : VmMapPtr) (c : BitVec 32) (l : List EntryPtr) :
    entryPages h (s.setMap m { s.maps m with refCount := c }) m l = entryPages h s m l := by
  have hmap : ((s.setMap m { s.maps m with refCount := c }).maps m).pmap = (s.maps m).pmap := by
    simp only [VmState.setMap, Function.update_self]
  rw [entryPages, hmap]
  rfl

/-- Exactly what `vm_map_destroy` gives back: the pages mapped under the entries of the map, the
tables of its pmap, what the loops over the upper half reach, and the page that the address of
the descriptor is taken for. -/
theorem vmMapDestroy_free (hI : VmInv h g maps lists s) (hm : m ∈ maps)
    (href : (s.maps m).refCount = 1) (hpref : (s.pm.pmaps (s.maps m).pmap).refCount = 1)
    (hloops : ∀ n ∈ kernelLoopFrames h s.pm, g.own n = .kernel) :
    ∃ s', vmMapDestroy h s m = some s' ∧ ∀ n, s'.pm.kmem.pmm.Free n ↔ s.pm.kmem.pmm.Free n ∨
      n ∈ entryPages h s m (lists m) ∨ n ∈ pmapTables h s.pm (s.maps m).pmap ∨
      Tracked n ∧ (n ∈ kernelLoopFrames h s.pm ∨
        ∃ pa, (s.maps m).pmap = .page pa ∧ n = pageOf (virtToPhys h pa)) := by
  obtain ⟨a, s1, g1, rfl, ha, hE, hrun⟩ := vmMapDestroy_emptied hI hm href
  have hI0 := hI.setRef (.elem a) 0
  have hp := hI.pmap _ hm
  obtain ⟨pa, hpa, _, hd⟩ := hI.mem.pmap.desc _ hp
  have hp1 : PmapPtr.page pa ∈ g1.live := by
    rw [hE.live, ← hpa]
    exact hp
  have hpmaps : s1.pm.pmaps = s.pm.pmaps := hE.out.paged.pmaps
  have href1 : (s1.pm.pmaps (.page pa)).refCount = 1 := by
    rw [hpmaps, ← hpa]
    exact hpref
  have hloop1 : kernelLoopFrames h s1.pm = kernelLoopFrames h s.pm := by
    refine kernelLoopFrames_congr hI.mem.pmap.kernel.aligned (congrFun hpmaps _) fun x hx => ?_
    refine hE.out.paged.kernelMem x ?_
    rcases hx with hx | hx
    · rw [hx]
      exact hI.mem.pmap.kernel.root
    · exact hloops _ hx
  refine ⟨_, hrun, fun n => ?_⟩
  change (pmapDestroy h s1.pm (s.maps (.elem a)).pmap).kmem.pmm.Free n ↔ _
  rw [hpa, hE.inv.mem.pmap.destroy_free hp1 href1, hE.gives.free,
    hE.pages hI0 hm (fun _ he => he), ← hE.inv.mem.pmap.mem_tables hp1,
    hE.gives.tables _ (hpa ▸ hp), hloop1, or_assoc]
  refine or_congr_right (or_congr ?_ (or_congr_right ?_))
  · rw [entryPages_setRef]
  · simp only [PmapPtr.page.injEq, exists_eq_left']
    rw [← or_and_right, and_comm]

/-- The map `m` has been destroyed where the loops reach no tracked table of the kernel: what
has become of the frames, and what every other map and pmap still has. -/
structure Destroyed (h : Hhdm) (g g' : VmGhost) (maps : Set VmMapPtr)
    (lists : VmMapPtr → List EntryPtr) (m : VmMapPtr) (s s' : VmState) : Prop where
  inv : VmInv h g' (maps \ {m}) lists s'
  live : g'.live = g.live \ {(s.maps m).pmap}
  free : ∀ n, s'.pm.kmem.pmm.Free n ↔ s.pm.kmem.pmm.Free n ∨ n ∈ entryPages h s m (lists m) ∨
    n ∈ pmapTables h s.pm (s.maps m).pmap
  data : ∀ n, n ∈ s'.data ↔ n ∈ s.data ∧ n ∉ entryPages h s m (lists m)
  fresh : ∀ n p q i, g'.own n = .leaf p q i → ∃ q i, g.own n = .leaf p q i
  keep : ∀ n p q i, p ≠ (s.maps m).pmap → g.own n = .leaf p q i → g'.own n = .leaf p q i
  kernel : ∀ n, g.own n = .kernel → g'.own n = .kernel
  desc : ∃ pa, (s.maps m).pmap = .page pa ∧ g.own (pageOf pa) = .desc (.page pa) ∧
    g'.own (pageOf pa) = .kernel
  mem : ∀ x, frameOf h x ∈ s'.data → s'.pm.kmem.mem x = s.pm.kmem.mem x
  kernelMem : ∀ x, g.own (frameOf h x) = .kernel → s'.pm.kmem.mem x = s.pm.kmem.mem x
  pte : ∀ p ∈ g.live, p ≠ (s.maps m).pmap → ∀ va, UserVa va →
    pteOf h s'.pm p va = pteOf h s.pm p va
  pmaps : ∀ p, p ≠ (s.maps m).pmap → s'.pm.pmaps p = s.pm.pmaps p
  map : ∀ m', m' ≠ m → s'.maps m' = s.maps m'
  entries : ∀ m' ∈ maps, m' ≠ m → ∀ e ∈ .header m' :: lists m', s'.entries e = s.entries e

/-- `vm_map_destroy` of a map with one reference returns, and takes that map alone apart. -/
theorem vmMapDestroy_spec (hI : VmInv h g maps lists s) (hm : m ∈ maps)
    (href : (s.maps m).refCount = 1) (hpref : (s.pm.pmaps (s.maps m).pmap).refCount = 1)
    (hh : h.High) (hloops : ∀ n ∈ kernelLoopFrames h s.pm, g.own n = .kernel ∧ ¬ Tracked n) :
    ∃ s' g', vmMapDestroy h s m = some s' ∧ Destroyed h g g' maps lists m s s' := by
  have hfrees := vmMapDestroy_free hI hm href hpref fun n hn => (hloops n hn).1
  obtain ⟨a, s1, g1, rfl, ha, hE, hrun⟩ := vmMapDestroy_emptied hI hm href
  obtain ⟨s', hs', hfree⟩ := hfrees
  obtain rfl := Option.some.inj (hrun.symm.trans hs')
  have hI0 := hI.setRef (.elem a) 0
  have hp := hI.pmap _ hm
  obtain ⟨pa, hpa, _, hd⟩ := hI.mem.pmap.desc _ hp
  obtain ⟨_, hlt, _⟩ := hI.mem.pmap.descPage _ _ hd
  have hmaps1 (m' : VmMapPtr) (hne : m' ≠ .elem a) : s1.maps m' = s.maps m' := by
    rw [hE.maps]
    exact Function.update_of_ne hne _ _
  have hpaged : Paged h (s.maps (.elem a)).pmap g.live g.own g1.own s.pm s1.pm s.data s1.data := by
    have hpg := hE.out.paged
    simp only [VmState.setMap, Function.update_self] at hpg
    exact hpg
  have hpmaps : s1.pm.pmaps = s.pm.pmaps := hpaged.pmaps
  have hother : ∀ m' ∈ maps \ {VmMapPtr.elem a}, (s1.maps m').pmap ≠ (s.maps (.elem a)).pmap := by
    intro m' hm' hc
    rw [hmaps1 m' hm'.2] at hc
    exact hm'.2 (hI.pmaps m' hm'.1 _ hm hc)
  have hloop1 : kernelLoopFrames h s1.pm = kernelLoopFrames h s.pm := by
    refine kernelLoopFrames_congr hI.mem.pmap.kernel.aligned (congrFun hpmaps _) fun x hx => ?_
    refine hpaged.kernelMem x ?_
    rcases hx with hx | hx
    · rw [hx]
      exact hI.mem.pmap.kernel.root
    · exact (hloops _ hx).1
  have hI2 := hE.inv.retire (hE.live ▸ hp) hother (by rw [hpmaps]; exact hpref) hh fun n hn =>
    (hloops n (hloop1 ▸ hn)).2
  have hz1 : s1.vmMapZone = s.vmMapZone := hE.mapZone
  have ha1 : a ∈ g1.elems s1.vmMapZone := by
    rw [hE.elems, hz1]
    change a ∈ Function.update g.elems s.vmMapEntryZone _ s.vmMapZone
    rw [Function.update_of_ne hI.zones]
    exact ha
  obtain ⟨g3, hI3, hown3, hlive3, hk3⟩ := hI2.mapFree ha1 fun hc => hc.2 rfl
  rw [← hz1] at hs' hfree
  have hleaf3 (n : ℕ) (p : PmapPtr) (q : List Idx) (i : Idx) :
      g3.own n = .leaf p q i ↔ g1.own n = .leaf p q i := by
    rw [hown3]
    exact retireOwner_leaf
  have hpages (n : ℕ) := hE.pages hI0 hm (fun _ he => he) n
  have hp1 : (s.maps (.elem a)).pmap ∈ g1.live := hE.live ▸ hp
  refine ⟨_, g3, hs', hI3, hlive3.trans ?_, fun n => ?_, fun n => ?_, fun n p q i hn => ?_,
    fun n p q i hp hn => ?_, fun n hn => ?_, ⟨pa, hpa, hpa ▸ hd, ?_⟩, fun x hx => ?_, fun x hx => ?_,
    fun p' hp' hne va hva => ?_, fun p' hne => ?_, hmaps1, fun m' hm' hne e he => ?_⟩
  · dsimp only
    rw [hE.live]
  · rw [hfree]
    refine or_congr_right (or_congr_right (or_iff_left ?_))
    rintro ⟨ht, hn | ⟨pa', hpa', rfl⟩⟩
    · exact (hloops n hn).2 ht
    · obtain rfl := PmapPtr.page.inj (hpa.symm.trans hpa')
      exact hh.untracked hlt ht
  · change n ∈ s1.data ↔ _
    rw [← entryPages_setRef s (.elem a) 0, ← hpages]
    constructor
    · exact fun hn => ⟨hE.gives.sub n hn, fun hc => hc.2 hn⟩
    · rintro ⟨hn, hc⟩
      by_contra hn'
      exact hc ⟨hn, hn'⟩
  · have hn1 := (hleaf3 n p q i).mp hn
    have hold := hE.gives.sub n ((hE.inv.mem.dataLeaf n).mpr ⟨p, q, i, hn1⟩)
    obtain ⟨p', q', i', ho⟩ := (hI.mem.dataLeaf n).mp hold
    rcases hpaged.fresh n p q i hn1 with hc | ho'
    · refine ⟨q', i', ?_⟩
      by_cases hpp : p' = p
      · rw [ho, hpp]
      · have hk := hpaged.keep n p' q' i' (hc ▸ hpp) ho
        exact absurd (Owner.leaf.inj (hk.symm.trans hn1)).1 hpp
    · exact ⟨q, i, ho'⟩
  · exact (hleaf3 n p q i).mpr (hpaged.keep n p q i hp hn)
  · rw [hown3]
    exact retireOwner_kernel.mpr (Or.inl (hpaged.kernel n hn))
  · obtain ⟨pa', hpa', _, hd'⟩ := hE.inv.mem.pmap.desc _ hp1
    obtain rfl := PmapPtr.page.inj (hpa.symm.trans hpa')
    rw [hown3]
    exact retireOwner_kernel.mpr (Or.inr hd')
  · refine (hk3.mem x hx).trans ?_
    dsimp only
    rw [pmapDestroy_mem]
    exact hE.gives.mem x hx
  · refine (hk3.kernelMem x (retireOwner_kernel.mpr (Or.inl (hpaged.kernel _ hx)))).trans ?_
    dsimp only
    rw [pmapDestroy_mem]
    exact hpaged.kernelMem x hx
  · have hp'1 : p' ∈ g1.live \ {(s.maps (.elem a)).pmap} := ⟨hE.live ▸ hp', hne⟩
    refine (hk3.same p' hp'1 _ _ (vaPath_path hva.lower) (vaPath_leaf va)).trans ?_
    dsimp only
    rw [pmapDestroy_mem, pmapDestroy_pml4]
    exact hpaged.entry p' hp' hne _ _ (vaPath_path hva.lower) (vaPath_leaf va)
  · refine (pmapDestroy_other h s1.pm hne).trans ?_
    rw [hpmaps]
  · exact hE.entries e fun hc => hI.disjoint hm hm' hne (List.mem_cons_of_mem _ hc) he

end Call

end Dana
