import Dana.VmCover

/-! Every frame that the calls take and keep: it is a table, a page of a zone or the target of
an entry, unless a page that is mapped already is mapped over. -/
namespace Dana
open ByteMem RadixTree LinkedRing IntervalList AddrLoop Transition

section Alloc
variable {h : Hhdm} {g : VmGhost} {maps : Set VmMapPtr} {lists : VmMapPtr → List EntryPtr}
  {s : VmState}

/-- The frames that it takes to allocate an entry. -/
def vmEntryFrames (s : VmState) : ℕ :=
  if (s.zoneStore.zones s.vmMapEntryZone).freeList = 0 then 1 else 0

/-- `zalloc` takes a frame where the free list is empty. -/
theorem zalloc_frames {z z' : Zone} {k k' : Kmem} {e : Word} (h0 : ¬ k.pmm.Free 0)
    (hrun : zalloc h z k = (e, z', k')) (he : e ≠ 0) :
    k.pmm.frames.card = k'.pmm.frames.card+if z.freeList = 0 then 1 else 0 := by
  unfold zalloc at hrun
  by_cases hfree : z.freeList = 0
  swap
  · rw [if_neg hfree] at hrun ⊢
    obtain ⟨_, hrun⟩ := Prod.mk.inj hrun
    obtain ⟨_, rfl⟩ := Prod.mk.inj hrun
    rw [Nat.add_zero]
  rw [if_pos hfree] at hrun ⊢
  unfold zoneGrow at hrun
  by_cases hmax : z.maxSize ≠ 0 ∧ z.maxSize ≤ z.curSize
  · rw [if_pos hmax] at hrun
    exact absurd (Prod.mk.inj hrun).1.symm he
  rw [if_neg hmax] at hrun
  rcases pmmAllocPage_cases k.pmm h0 with ⟨hne, hf, _, _, hiff⟩ | ⟨hnull, _⟩
  · simp only [hne, ↓reduceIte] at hrun
    obtain ⟨_, hrun⟩ := Prod.mk.inj hrun
    obtain ⟨_, rfl⟩ := Prod.mk.inj hrun
    exact Pmm.frames_take hf hiff
  · simp only [hnull, ↓reduceIte] at hrun
    exact absurd (Prod.mk.inj hrun).1.symm he

/-- Allocating an entry takes frames for its zone, and leaves the tables alone. -/
theorem vmMapEntryAlloc_frames (hI : VmInv h g maps lists s) (ha : (vmMapEntryAlloc h s).1 ≠ 0) :
    s.pm.kmem.pmm.frames.card =
      (vmMapEntryAlloc h s).2.pm.kmem.pmm.frames.card+vmEntryFrames s ∧
    ∀ p ∈ g.live, ∀ as, (∀ a ∈ as, UserVa a) →
      framesFor h (vmMapEntryAlloc h s).2.pm p as = framesFor h s.pm p as := by
  obtain ⟨e, zone, k, hrun⟩ : ∃ e zone k,
    Dana.zalloc h (s.zoneStore.zones s.vmMapEntryZone) s.pm.kmem = (e, zone, k) := ⟨_, _, _, rfl⟩
  have hpm : (vmMapEntryAlloc h s).2.pm = { s.pm with kmem := k } := by
    rw [vmMapEntryAlloc, VmState.zalloc, hrun]
    dsimp only
    split_ifs <;> rfl
  have he : e ≠ 0 := by
    rintro rfl
    refine ha ?_
    rw [vmMapEntryAlloc, VmState.zalloc, hrun]
    rfl
  rw [hpm]
  refine ⟨zalloc_frames hI.mem.pmap.pageZero hrun he, fun p hp as has => ?_⟩
  rcases hI.mem.zones.zalloc hI.entryZone hrun with ⟨h0, _⟩ | ⟨_, _, _, _, pages', _, hgr⟩
  · exact absurd h0 he
  have hsame {q : List Idx} (hq : Path lowerDom [] q) :
      tableAt h k.mem (s.pm.pmaps p).pml4Phys q = tableAt h s.pm.kmem.mem (s.pm.pmaps p).pml4Phys q := by
    refine hI.mem.pmap.tableAt_congr hp (fun t q i ht _ => ?_) hq
    obtain ⟨hta, hto⟩ := tableLab_some.mp ht
    refine pteAt_congr h _ _ t i hta fun x hx => hgr.mem x fun hc => ?_
    -- the pages of the zone were its own or free
    rw [hx] at hc
    rcases hgr.fresh _ hc with hold | hf
    · rw [(hI.mem.zonePage _ _).mp hold] at hto
      cases hto
    · rw [(hI.mem.pmap.free _).mp hf] at hto
      cases hto
  have hnew : newTables h k.mem (s.pm.pmaps p).pml4Phys as =
      newTables h s.pm.kmem.mem (s.pm.pmaps p).pml4Phys as := by
    refine Finset.filter_congr fun q hq => ?_
    obtain ⟨a, ha, hq⟩ := Finset.mem_biUnion.mp hq
    rw [hsame (path_of_vaTables (has a (List.mem_toFinset.mp ha)).lower hq)]
  rw [framesFor, framesFor, hnew]

end Alloc

/-- Each data page is the target of an entry of a pmap in `ps`. -/
def VmHits (h : Hhdm) (ps : Set PmapPtr) (pm : PmapState) (data : List ℕ) : Prop :=
  ∀ n ∈ data, ∃ p ∈ ps, ∃ va e, UserVa va ∧ pteOf h pm p va = some e ∧ pageOf (pteFrame e) = n

section Hits
variable {h : Hhdm} {live ps : Set PmapPtr} {own own' : ℕ → Owner} {p : PmapPtr}
  {pm pm' : PmapState} {data data' : List ℕ} {flags : Word} {as : List Word}

/-- Pages that were not mapped are mapped. -/
theorem VmHits.mapped (hH : VmHits h ps pm data) (hps : ps ⊆ live) (hp : p ∈ ps)
    (hin : MappedIn h live p flags as own own' pm pm' data data') (hnd : (as.map pageOf).Nodup)
    (hva : ∀ a ∈ as, UserVa a) (hfresh : ∀ a ∈ as, pteOf h pm p a = none) :
    VmHits h ps pm' data' := by
  intro n hn
  rcases hin.target hnd n hn with hn | ⟨a, ha, e, he, hen⟩
  · obtain ⟨p', hp', va, e, hu, he, hen⟩ := hH n hn
    refine ⟨p', hp', va, e, hu, ?_, hen⟩
    by_cases hpp : p' = p
    · subst hpp
      rw [hin.other va hu fun a ha hpage => ?_, he]
      rw [← pteOf_page (hva a ha) hu hpage, hfresh a ha] at he
      cases he
    · rw [← he]
      exact hin.paged.entry p' (hps hp') hpp _ _ (vaPath_path hu.lower) (vaPath_leaf va)
  · exact ⟨p, hp, a, e, hva a ha, he, hen⟩

/-- Pages are unmapped, and their frames given back. -/
theorem VmHits.unmapped (hH : VmHits h ps pm data) (hps : ps ⊆ live)
    (hout : MappedOut h live p as own own' pm pm' data data') : VmHits h ps pm' data' := by
  intro n hn
  obtain ⟨hn, hall⟩ := (hout.mem_data n).mp hn
  obtain ⟨p', hp', va, e, hu, he, hen⟩ := hH n hn
  refine ⟨p', hp', va, e, hu, ?_, hen⟩
  by_cases hpp : p' = p
  · subst hpp
    rw [hout.other va hu fun a ha hpage => ?_, he]
    exact hall va e hu ⟨a, ha, hpage⟩ he hen
  · rw [← he]
    exact hout.paged.entry p' (hps hp') hpp _ _ (vaPath_path hu.lower) (vaPath_leaf va)

theorem VmHits.same (hH : VmHits h ps pm data) (hps : ps ⊆ live) (hs : SameEntries h pm pm' live) :
    VmHits h ps pm' data := by
  intro n hn
  obtain ⟨p', hp', va, e, hu, he, hen⟩ := hH n hn
  exact ⟨p', hp', va, e, hu, (hs.user (hps hp') hu).trans he, hen⟩

end Hits

/-- The call maps no page that is mapped already: neither a `vm_map_page_range` nor a wired
`vm_map_enter` that makes its entry comes to one before it runs out of frames. -/
def VmCall.Fresh (h : Hhdm) (s : VmState) (m : VmMapPtr) : VmCall → Prop
  | .enter start size _ _ flags => vmRangeOk (s.maps m) start size = true → flags &&& vmeWired ≠ 0 →
      (∀ e, s.EntryOf m e → ¬ (start < (s.entries e).stop ∧ (s.entries e).start < start+size)) →
      ∀ a, VmReach h s (s.maps m).pmap (vmEntryFrames s) (pageAddrs start (start+size)) a →
        pteOf h s.pm (s.maps m).pmap a = none
  | .pageRange start size _ => vmRangeOk (s.maps m) start size = true →
      ∀ a, VmReach h s (s.maps m).pmap 0 (pageAddrs start (start+size)) a →
        pteOf h s.pm (s.maps m).pmap a = none
  | _ => True

section Calls
variable {h : Hhdm} {g : VmGhost} {maps : Set VmMapPtr} {lists : VmMapPtr → List EntryPtr}
  {s s' : VmState} {m : VmMapPtr}

/-- The pmaps of the maps. -/
def mapPmaps (maps : Set VmMapPtr) (s : VmState) : Set PmapPtr := {p | ∃ m ∈ maps, (s.maps m).pmap = p}

theorem VmInv.mapPmaps_sub (hI : VmInv h g maps lists s) : mapPmaps maps s ⊆ g.live := by
  rintro p ⟨m, hm, rfl⟩
  exact hI.pmap m hm

theorem pages_fresh {start stop : Word} {done rest : List Word} (hstop : stop.toNat ≤ 2^47)
    (hsplit : pageAddrs start stop = done ++ rest) :
    (done.map pageOf).Nodup ∧ ∀ a ∈ done, UserVa a := by
  constructor
  · have hall : ((pageAddrs start stop).map pageOf).Nodup := pageAddrs_nodup hstop
    rw [hsplit, List.map_append] at hall
    exact hall.of_append_left
  · intro a ha
    exact user_of_pageAddrs hstop (hsplit ▸ List.mem_append_left _ ha)

theorem VmHits.pageRange (hH : VmHits h (mapPmaps maps s) s.pm s.data)
    (hI : VmInv h g maps lists s) (hm : m ∈ maps) {start size : Word} {prot : BitVec 32}
    (hf : (VmCall.pageRange start size prot).Fresh h s m) {r : KernReturn}
    (hr : vmMapPageRange h s m start size prot = some (r, s')) :
    VmHits h (mapPmaps maps s) s'.pm s'.data := by
  have hps := hI.mapPmaps_sub
  have hmem : (s.maps m).pmap ∈ mapPmaps maps s := ⟨m, hm, rfl⟩
  rcases vmMapPageRange_spec hI hm start size prot with ⟨_, hrun⟩ |
    ⟨hok, own', pm', data', hI', ⟨hrun, hfit, hin⟩ | ⟨done, a, rest, s2, g2, hsplit, hend, hrun, hin,
      hR⟩⟩
  all_goals obtain ⟨_, rfl⟩ := Prod.mk.inj (Option.some.inj (hr.symm.trans hrun))
  · exact hH
  · have hsplit : pageAddrs start (start+size) = pageAddrs start (start+size) ++ [] :=
      (List.append_nil _).symm
    obtain ⟨hnd, hva⟩ := pages_fresh (hI.stop_le hm hok) hsplit
    exact hH.mapped hps hmem hin hnd hva fun x hx => hf hok x (vmReach_of_mem hsplit hfit hx)
  · obtain ⟨hnd, hva⟩ := pages_fresh (hI.stop_le hm hok) hsplit
    have hH1 := hH.mapped hps hmem hin hnd hva fun x hx =>
      hf hok x (vmReach_of_mem hsplit hend.1 hx)
    exact hH1.unmapped hps hR.out

theorem VmHits.enter (hH : VmHits h (mapPmaps maps s) s.pm s.data) (hI : VmInv h g maps lists s)
    (hm : m ∈ maps) {start size : Word} {prot maxProt flags : BitVec 32}
    (hf : (VmCall.enter start size prot maxProt flags).Fresh h s m) {r : KernReturn}
    (hr : vmMapEnter h s m start size prot maxProt flags = some (r, s')) :
    VmHits h (mapPmaps maps s) s'.pm s'.data := by
  have hps := hI.mapPmaps_sub
  have hmem : (s.maps m).pmap ∈ mapPmaps maps s := ⟨m, hm, rfl⟩
  rcases vmMapEnter_spec hI hm start size prot maxProt flags with ⟨_, hrun⟩ |
    ⟨hok, hrun | ⟨a, s1, g1, he, halloc, hres⟩⟩
  · obtain ⟨_, rfl⟩ := Prod.mk.inj (Option.some.inj (hr.symm.trans hrun))
    exact hH
  · obtain ⟨_, rfl⟩ := Prod.mk.inj (Option.some.inj (hr.symm.trans hrun))
    exact hH
  have hlive := hI.pmap m hm
  have hstop := hI.stop_le hm hok
  have hq := he.quiet
  have hH1 : VmHits h (mapPmaps maps s) s1.pm s1.data := by
    rw [hq.data]
    exact hH.same hps hq.kept.same
  -- the new entry overlaps no other
  have hfree (e : EntryPtr) (hel : s.EntryOf m e) :
      ¬ (start < (s.entries e).stop ∧ (s.entries e).start < start+size) := by
    have hsorted := (he.inv.map m hm).sorted
    rw [Function.update_self] at hsorted
    have hel := (hI.entryOf_iff hm).mp hel
    have hne : e ≠ .elem a := fun hc => he.new (hc ▸ hel)
    have hbody : s1.body e = s.body e := by rw [he.body, Function.update_of_ne hne]
    have hnew : s1.body (.elem a) = (start, start+size, prot, maxProt, flags) := by
      rw [he.body, Function.update_self]
    have hst : (s1.entries (.elem a)).start = start := congrArg Prod.fst hnew
    have hsp : (s1.entries (.elem a)).stop = start+size := congrArg (fun b => b.2.1) hnew
    obtain ⟨h1, h2⟩ := vmDrops_of_body hbody
    have hapart := hsorted.apart (mem_vmPlace.mpr (Or.inr hel)) (mem_vmPlace.mpr (Or.inl rfl)) hne
    simp only [VmState.startOf, VmState.stopOf, hst, hsp, h1, h2] at hapart
    rw [BitVec.lt_def, BitVec.lt_def]
    omega
  have hframes : ∀ as, (∀ x ∈ as, UserVa x) → framesFor h s1.pm (s.maps m).pmap as ≤
      s1.pm.kmem.pmm.frames.card →
      framesFor h s.pm (s.maps m).pmap as+vmEntryFrames s ≤ s.pm.kmem.pmm.frames.card := by
    intro as has hle
    obtain ⟨hn, hsame⟩ := vmMapEntryAlloc_frames hI halloc.1
    rw [halloc.2, hsame _ hlive as has] at hle
    omega
  have hfresh {done rest : List Word} (hw : flags &&& vmeWired ≠ 0)
      (hsplit : pageAddrs start (start+size) = done ++ rest)
      (hfit : framesFor h s1.pm (s.maps m).pmap done ≤ s1.pm.kmem.pmm.frames.card) (x : Word)
      (hx : x ∈ done) : pteOf h s1.pm (s.maps m).pmap x = none := by
    have hva := (pages_fresh hstop hsplit).2
    rw [hq.kept.same.user hlive (hva x hx)]
    exact hf hok hw hfree x (vmReach_of_mem hsplit (hframes done hva hfit) hx)
  rcases hres with ⟨_, hrun⟩ | ⟨hw, own', pm', data', hI', ⟨hrun, hfit, hin⟩ |
    ⟨done, b, rest, s2, g2, hsplit, hend, hrun, hin, hR⟩⟩
  all_goals obtain ⟨_, rfl⟩ := Prod.mk.inj (Option.some.inj (hr.symm.trans hrun))
  · exact hH1
  · have hsplit : pageAddrs start (start+size) = pageAddrs start (start+size) ++ [] :=
      (List.append_nil _).symm
    obtain ⟨hnd, hva⟩ := pages_fresh hstop hsplit
    exact hH1.mapped (hq.live ▸ hps) hmem hin hnd hva (hfresh hw hsplit hfit)
  · obtain ⟨hnd, hva⟩ := pages_fresh hstop hsplit
    have hH2 := hH1.mapped (hq.live ▸ hps) hmem hin hnd hva (hfresh hw hsplit hend.1)
    exact hH2.unmapped (hq.live ▸ hps) hR.out

theorem VmHits.fault (hH : VmHits h (mapPmaps maps s) s.pm s.data) (hI : VmInv h g maps lists s)
    (hm : m ∈ maps) {addr : Word} {faultType : BitVec 32} {r : VmFaultReturn}
    (hr : vmFault h s m addr faultType = some (r, s')) :
    VmHits h (mapPmaps maps s) s'.pm s'.data := by
  by_cases hq : pmapQuery h s.pm (s.maps m).pmap (vmPageAddr addr) ≠ 0
  · have hrun : vmFault h s m addr faultType = some (.success, s) := if_pos hq
    obtain ⟨_, rfl⟩ := Prod.mk.inj (Option.some.inj (hr.symm.trans hrun))
    exact hH
  rcases vmFault_spec hI hm addr faultType with ⟨r, hrun⟩ |
    ⟨e, hel, hlo, hhi, own', pm', data', r, as, hI', hrun, has, hin⟩
  all_goals obtain ⟨_, rfl⟩ := Prod.mk.inj (Option.some.inj (hr.symm.trans hrun))
  · exact hH
  have hva : UserVa (vmPageAddr addr) := by
    have hstop := ((hI.map m hm).inside e hel).2
    have hmax : userMapMax.toNat = 2^47-1 := rfl
    rw [(hI.user m hm).2, hmax] at hstop
    rw [UserVa, vmPageAddr_toNat]
    omega
  have hnone : pteOf h s.pm (s.maps m).pmap (vmPageAddr addr) = none := by
    cases hpte : pteOf h s.pm (s.maps m).pmap (vmPageAddr addr) with
    | none => rfl
    | some v =>
      have hd := hI.mem.leaf _ (hI.pmap m hm) _ _ hva hpte
      rw [pmapQuery_eq, hpte] at hq
      exact absurd hd.query.1 hq
  rcases has with ⟨_, rfl⟩ | ⟨_, rfl⟩
  · exact hH.mapped hI.mapPmaps_sub ⟨m, hm, rfl⟩ hin List.nodup_nil (fun a ha => by cases ha)
      fun a ha => by cases ha
  · refine hH.mapped hI.mapPmaps_sub ⟨m, hm, rfl⟩ hin (List.nodup_singleton _) (fun a ha => ?_)
      fun a ha => ?_
    · rwa [List.mem_singleton.mp ha]
    · rwa [List.mem_singleton.mp ha]

theorem VmHits.call (hH : VmHits h (mapPmaps maps s) s.pm s.data) (hI : VmInv h g maps lists s)
    (hm : m ∈ maps) {c : VmCall} (hf : c.Fresh h s m) (hr : c.run h s m = some s') :
    VmHits h (mapPmaps maps s) s'.pm s'.data := by
  have hremove (start size : Word) (hr : (vmMapRemove h s m start size).map Prod.snd = some s') :
      VmHits h (mapPmaps maps s) s'.pm s'.data := by
    obtain ⟨s2, g2, hrun, hR⟩ := vmMapRemove_spec hI hm start size
    rw [hrun] at hr
    obtain rfl := Option.some.inj hr
    exact hH.unmapped hI.mapPmaps_sub hR.out
  cases c with
  | enter start size prot maxProt flags =>
    obtain ⟨⟨r, s2⟩, hrun, rfl⟩ := Option.map_eq_some_iff.mp hr
    exact hH.enter hI hm hf hrun
  | remove start size => exact hremove start size hr
  | deallocate start size => exact hremove start size hr
  | pageRange start size prot =>
    obtain ⟨⟨r, s2⟩, hrun, rfl⟩ := Option.map_eq_some_iff.mp hr
    exact hH.pageRange hI hm hf hrun
  | fault addr faultType =>
    obtain ⟨⟨r, s2⟩, hrun, rfl⟩ := Option.map_eq_some_iff.mp hr
    exact hH.fault hI hm hrun

end Calls

/-- The call of the step maps no page that is mapped already. -/
def VmWorld.FreshStep (h : Hhdm) (w : VmWorld) : VmOp → Prop
  | .call m c => c.Fresh h w.vm m
  | _ => True

/-- The pmaps that `pmap_create` gave. -/
def VmWorld.userPmaps (w : VmWorld) : Set PmapPtr := w.pmaps ∪ mapPmaps w.maps w.vm

/-- What the frame `n` is in use for: a table of a pmap or the page of its descriptor, a page of
a zone, or the target of an entry of a map. -/
def VmWorld.Uses (h : Hhdm) (g : VmGhost) (w : VmWorld) (n : ℕ) : Prop :=
  (∃ p ∈ w.userPmaps, ∃ q t, Path lowerDom [] q ∧
    tableAt h w.vm.pm.kmem.mem (w.vm.pm.pmaps p).pml4Phys q = some t ∧ pageOf t = n) ∨
  (∃ pa, .page pa ∈ w.userPmaps ∧ pageOf pa = n) ∨ (∃ z, n ∈ g.pages z) ∨
  ∃ m ∈ w.maps, ∃ va e, UserVa va ∧ pteOf h w.vm.pm (w.vm.maps m).pmap va = some e ∧
    pageOf (pteFrame e) = n

/-- What every state of a run has that starts with the free frames of `pmm`. -/
structure VmOrphanInv (h : Hhdm) (pmm : Pmm) (w : VmWorld) : Prop where
  inv : ∃ g lists, VmWorldInv h g lists w ∧
    ∀ n, g.own n = .kernel ∨ g.own n = .other → ¬ pmm.Free n
  hits : VmHits h (mapPmaps w.maps w.vm) w.vm.pm w.vm.data

section Run
variable {h : Hhdm} {pmm : Pmm} {w w' : VmWorld} {s₀ s : VmState} {l : VmOp}

theorem VmHits.untouched {maps maps' : Set VmMapPtr} {s s' : VmState}
    (hH : VmHits h (mapPmaps maps s) s.pm s.data) (hsub : maps ⊆ maps')
    (hU : ∀ m ∈ maps, VmUntouched h s s' m) (hd : s'.data = s.data) :
    VmHits h (mapPmaps maps' s') s'.pm s'.data := by
  intro n hn
  rw [hd] at hn
  obtain ⟨p, ⟨m, hm, rfl⟩, va, e, hu, he, hen⟩ := hH n hn
  exact ⟨_, ⟨m, hsub hm, (hU m hm).pmap⟩, va, e, hu, ((hU m hm).pte va hu).trans he, hen⟩

theorem VmOrphanInv.step (hO : VmOrphanInv h pmm w) (hs : VmStep h w l w') (hl : w.FreshStep h l) :
    VmOrphanInv h pmm w' := by
  obtain ⟨g, lists, hI, hrest⟩ := hO.inv
  obtain ⟨g', lists', hI', hback⟩ := hI.step hs
  refine ⟨⟨g', lists', hI', fun n hn => hrest n ?_⟩, ?_⟩
  · rwa [hback n hn]
  by_cases hcall : ∃ m c, l = .call m c
  · obtain ⟨m, c, rfl⟩ := hcall
    cases hs with
    | call hm hr =>
      rename_i vm'
      have hH := hO.hits.call hI.inv hm hl hr
      obtain ⟨s', g', lists', hrun, hC⟩ := VmCall.spec hI.inv hm c
      obtain rfl := Option.some.inj (hr.symm.trans hrun)
      have hps : mapPmaps w.maps vm' = mapPmaps w.maps w.vm := by
        ext p
        simp only [mapPmaps, Set.mem_ofPred_eq, fixed_pmap (hC.fixed _)]
      exact hps ▸ hH
  · push Not at hcall
    have hU (m : VmMapPtr) (hm : m ∈ w.maps) := hI.untouched hs hm fun c => hcall m c
    cases hs with
    | pmapCreate hr => exact hO.hits.untouched le_rfl hU rfl
    | mapCreate hp hr =>
      obtain ⟨hlp, hfree⟩ := hI.spare _ hp
      rcases vmMapCreate_spec hI.inv hlp hfree with he | ⟨a, s', g', he, hne, _⟩
      · obtain ⟨_, rfl⟩ := Prod.mk.inj (hr.symm.trans he)
        exact hO.hits
      · obtain ⟨hc, _⟩ := Prod.mk.inj (hr.symm.trans he)
        exact absurd (VmMapPtr.elem.inj hc).symm hne
    | mapCreated hp hr hnull =>
      obtain ⟨hlp, hfree⟩ := hI.spare _ hp
      rcases vmMapCreate_spec hI.inv hlp hfree with he | ⟨a, s', g', he, _, _, _, _, _, hd, _⟩
      · obtain ⟨rfl, _⟩ := Prod.mk.inj (hr.symm.trans he)
        exact absurd rfl hnull
      obtain ⟨rfl, rfl⟩ := Prod.mk.inj (hr.symm.trans he)
      exact hO.hits.untouched (Set.subset_insert _ _) hU hd
    | call hm hr => exact absurd rfl (hcall _ _)
    | write b hm hva he => exact hO.hits.untouched le_rfl hU rfl

/-- In every run whose calls map no page that is mapped already, each frame that was free at
the start and is not free now is one that `Uses` accounts for. -/
theorem vm_run_no_orphans (hb : VmBoot h s₀) (hs : vmMapInit s₀ = some s) {trace : List VmOp}
    (hr : Run (fun w l w' => VmStep h w l w' ∧ w.FreshStep h l) (VmWorld.boot s) trace w) :
    ∃ g lists, VmWorldInv h g lists w ∧
      ∀ n, s₀.pm.kmem.pmm.Free n → ¬ w.vm.pm.kmem.pmm.Free n → w.Uses h g n := by
  have hO : VmOrphanInv h s₀.pm.kmem.pmm w :=
    hr.inv (fun _ _ _ hstep hO => hO.step hstep.1 hstep.2) ⟨⟨_, _, hb.world hs, fun n hn hf => by
      change bootOwner s₀.pm.kmem.pmm n = _ ∨ bootOwner s₀.pm.kmem.pmm n = _ at hn
      rw [bootOwner, if_pos hf] at hn
      simp at hn⟩, by
        obtain ⟨s', hs', _, _, hd⟩ := hb.init
        obtain rfl := Option.some.inj (hs.symm.trans hs')
        intro n hn
        rw [VmWorld.boot, hd] at hn
        cases hn⟩
  obtain ⟨g, lists, hI, hrest⟩ := hO.inv
  refine ⟨g, lists, hI, fun n h0 hn => ?_⟩
  have huser (p : PmapPtr) (hp : p ∈ g.live) : p ∈ w.userPmaps := hI.live p hp
  have hP := hI.inv.mem.pmap
  rw [hP.free] at hn
  cases ho : g.own n with
  | free => exact absurd ho hn
  | kernel => exact absurd h0 (hrest n (Or.inl ho))
  | other => exact absurd h0 (hrest n (Or.inr ho))
  | zone z => exact Or.inr (Or.inr (Or.inl ⟨z, (hI.inv.mem.zonePage z n).mpr ho⟩))
  | table p q =>
    obtain ⟨_, _, hp, hq, t, _, htn, ht⟩ := hP.table n p q ho
    exact Or.inl ⟨p, huser p hp, q, t, hq, ht, htn⟩
  | desc p =>
    obtain ⟨_, _, hp, pa, rfl, hpa⟩ := hP.descPage n p ho
    exact Or.inr (Or.inl ⟨pa, huser _ hp, hpa⟩)
  | leaf p q i =>
    obtain ⟨p', ⟨m, hm, rfl⟩, va, e, hu, he, hen⟩ :=
      hO.hits n ((hI.inv.mem.dataLeaf n).mpr ⟨p, q, i, ho⟩)
    exact Or.inr (Or.inr (Or.inr ⟨m, hm, va, e, hu, he, hen⟩))

/-- An entry that is not wired, and a fault in it. -/
theorem vm_run_no_orphans_fault : ∃ w, Run (VmStep higherHalf) (VmWorld.boot vmBooted)
      [.pmapCreate, .mapCreate, .call vmFirstMap (.enter 0x1000 0x2000 3 7 0),
        .call vmFirstMap (.fault 0x1234 vmFaultWrite)] w ∧
    ∃ g, ∀ n, vmBootState.pm.kmem.pmm.Free n → ¬ w.vm.pm.kmem.pmm.Free n → w.Uses higherHalf g n := by
  obtain ⟨w0, h1, h2⟩ := vmFirst_steps
  obtain ⟨g, lists, hI⟩ := vmFirst_inv
  obtain ⟨s1, _, _, hrun1, _⟩ := VmCall.spec hI.inv rfl (.enter 0x1000 0x2000 3 7 0)
  obtain ⟨w1, hmap, h3⟩ : ∃ w1, vmFirstMap ∈ w1.maps ∧
      VmStep higherHalf vmFirstWorld (.call vmFirstMap (.enter 0x1000 0x2000 3 7 0)) w1 :=
    ⟨_, rfl, VmStep.call vmFirstWorld rfl hrun1⟩
  obtain ⟨g1, lists1, hI1, _⟩ := hI.step h3
  obtain ⟨s2, _, _, hrun2, _⟩ := VmCall.spec hI1.inv hmap (.fault 0x1234 vmFaultWrite)
  have h4 := VmStep.call w1 hmap hrun2
  have hfresh : (VmCall.enter 0x1000 0x2000 3 7 0).Fresh higherHalf vmFirst vmFirstMap :=
    fun _ hw => absurd rfl hw
  obtain ⟨g', _, _, hall⟩ := vm_run_no_orphans vmBootState_boot vmBooted_init
    ((((Run.start.snoc ⟨h1, trivial⟩).snoc ⟨h2, trivial⟩).snoc ⟨h3, hfresh⟩).snoc ⟨h4, trivial⟩)
  exact ⟨_, (((Run.start.snoc h1).snoc h2).snoc h3).snoc h4, g', hall⟩

/-- A frame that no entry points to any more is in use for nothing. -/
theorem VmWorldInv.orphan {g : VmGhost} {lists : VmMapPtr → List EntryPtr}
    (hI : VmWorldInv h g lists w) {n : ℕ} (hn : n ∈ w.vm.data)
    (hno : ∀ m ∈ w.maps, ∀ va e, UserVa va → pteOf h w.vm.pm (w.vm.maps m).pmap va = some e →
      pageOf (pteFrame e) ≠ n) : ¬ w.Uses h g n := by
  obtain ⟨p, q, i, ho⟩ := (hI.inv.mem.dataLeaf n).mp hn
  have hP := hI.inv.mem.pmap
  have hlive {p : PmapPtr} (hp : p ∈ w.userPmaps) : p ∈ g.live := by
    rcases hp with hp | ⟨m, hm, rfl⟩
    · exact (hI.spare p hp).1
    · exact hI.inv.pmap m hm
  rintro (⟨p', hp', q', t, hq', ht, rfl⟩ | ⟨pa, hpa, rfl⟩ | ⟨z, hz⟩ | ⟨m, hm, va, e, hva, he, hen⟩)
  · have hlab := hP.forest.node_lab (hP.root p' (hlive hp')) hq' ht
    rw [(tableLab_some.mp hlab).2] at ho
    cases ho
  · obtain ⟨pa', hpp, _, hdesc⟩ := hP.desc _ (hlive hpa)
    obtain rfl := PmapPtr.page.inj hpp
    rw [hdesc] at ho
    cases ho
  · rw [(hI.inv.mem.zonePage z n).mp hz] at ho
    cases ho
  · exact hno m hm va e hva he hen

/-- `vm_map_page_range` over a page that it has mapped already loses the first frame. -/
theorem vm_map_page_range_orphans : ∃ w, Run (VmStep higherHalf) (VmWorld.boot vmBooted)
      [.pmapCreate, .mapCreate, .call vmFirstMap (.pageRange 0x1000 0x1000 3),
        .call vmFirstMap (.pageRange 0x1000 0x1000 3)] w ∧
    vmBootState.pm.kmem.pmm.Free 6 ∧ ¬ w.vm.pm.kmem.pmm.Free 6 ∧
    ∀ g lists, VmWorldInv higherHalf g lists w → ¬ w.Uses higherHalf g 6 := by
  obtain ⟨s1, wrote, hrun1, hr1⟩ := vmFirst_call (.pageRange 0x1000 0x1000 3)
  obtain ⟨g1, lists1, hI1⟩ := VmWorldInv.run vmBootState_boot vmBooted_init hr1
  obtain ⟨s2, g2, lists2, hrun2, hC⟩ := VmCall.spec hI1.inv rfl (.pageRange 0x1000 0x1000 3)
  have hr2 := hr1.snoc (VmStep.call _ (m := vmFirstMap) rfl hrun2)
  have hvals : ((VmCall.pageRange 0x1000 0x1000 3).run higherHalf vmFirst vmFirstMap).bind (fun s1 =>
      ((VmCall.pageRange 0x1000 0x1000 3).run higherHalf s1 vmFirstMap).map fun s2 =>
        decide (6 ∈ s1.data ∧ 6 ∈ s2.data ∧
          (pteOf higherHalf s1.pm (s1.maps vmFirstMap).pmap 0x1000).map (pageOf ∘ pteFrame) = some 6 ∧
          (pteOf higherHalf s2.pm (s2.maps vmFirstMap).pmap 0x1000).map (pageOf ∘ pteFrame) =
            some 10)) = some true := by
    decide +kernel
  rw [hrun1, Option.bind_some, hrun2, Option.map_some] at hvals
  obtain ⟨hd1, hd2, hpte1, hpte2⟩ := of_decide_eq_true (Option.some.inj hvals)
  obtain ⟨e1, he1, hf1⟩ := Option.map_eq_some_iff.mp hpte1
  obtain ⟨e2, he2, hf2⟩ := Option.map_eq_some_iff.mp hpte2
  have hu : UserVa 0x1000 := show (0x1000 : Word).toNat < 2^47 by decide
  refine ⟨_, hr2, by decide, ?_, fun g lists hI => hI.orphan hd2 fun m hm va e hva he hen => ?_⟩
  · obtain ⟨g, lists, hI⟩ := VmWorldInv.run vmBootState_boot vmBooted_init hr2
    exact hI.inv.mem.data_used hd2
  · obtain rfl : m = vmFirstMap := hm
    have hpm : (s2.maps vmFirstMap).pmap = (s1.maps vmFirstMap).pmap := fixed_pmap (hC.fixed _)
    dsimp only at he he1
    rw [hpm] at he
    rcases hC.leaf va e hva he with hold | hnew
    · -- the frame was the page at 0x1000 alone, which has another one now
      have hlive := hI1.inv.pmap vmFirstMap rfl
      have ho := (hI1.inv.mem.leaf _ hlive va e hva hold).owner
      have ho1 := (hI1.inv.mem.leaf _ hlive _ e1 hu he1).owner
      rw [hen] at ho
      change pageOf (pteFrame e1) = 6 at hf1
      rw [hf1, ho] at ho1
      obtain ⟨_, hq, hi⟩ := Owner.leaf.inj ho1
      have hpage := (vaPath_eq_iff hu hva).mp ⟨hq, hi⟩
      rw [pteOf_page hva hu hpage, ← hpm, he2] at he
      obtain rfl := Option.some.inj he
      change pageOf (pteFrame e2) = 10 at hf2
      rw [hf2] at hen
      cases hen
    · exact hnew (hen ▸ hd1)

end Run

end Dana
