import Dana.VmExact
import Dana.VmFrames

/-! When the entries of a map cover its pages: `vm_map_page_range` makes no entry and
`vm_map_remove` drops whole ones, so this takes a condition on the calls. -/
namespace Dana
open ByteMem RadixTree LinkedRing IntervalList AddrLoop Transition

/-- The entry `e` is met along the list of the map. -/
def VmState.EntryOf (s : VmState) (m : VmMapPtr) (e : EntryPtr) : Prop :=
  ∃ n l, follow s.next (.header m) n (s.next (.header m)) = some l ∧ e ∈ l

/-- There are frames to map the page of `a` and those of the list before it, and `extra` more. -/
def VmReach (h : Hhdm) (s : VmState) (p : PmapPtr) (extra : ℕ) (as : List Word) (a : Word) : Prop :=
  ∃ done rest, as = done ++ a :: rest ∧
    framesFor h s.pm p (done ++ [a])+extra ≤ s.pm.kmem.pmm.frames.card

/-- No entry that overlaps `[start, stop)` has a mapped page outside it. -/
def MappedInside (h : Hhdm) (s : VmState) (m : VmMapPtr) (start stop : Word) : Prop :=
  ∀ e, s.EntryOf m e → (s.entries e).start < stop → start < (s.entries e).stop →
    ∀ va, UserVa va → s.Contains e va → pteOf h s.pm (s.maps m).pmap va ≠ none →
      start ≤ va ∧ va < stop

/-- The call leaves no page without an entry. A `vm_map_page_range` needs one for every page
that it comes to, and where it runs out of frames it removes what it has mapped. -/
def VmCall.Covers (h : Hhdm) (s : VmState) (m : VmMapPtr) : VmCall → Prop
  | .enter .. => True
  | .fault .. => True
  | .remove start size => MappedInside h s m start (start+size)
  | .deallocate start size => MappedInside h s m start (start+size)
  | .pageRange start size _ => vmRangeOk (s.maps m) start size = true →
      (∀ a, VmReach h s (s.maps m).pmap 0 (pageAddrs start (start+size)) a →
        ∃ e, s.EntryOf m e ∧ s.Contains e a) ∧
      ∀ done a rest, pageAddrs start (start+size) = done ++ a :: rest →
        FramesEnd h s.pm (s.maps m).pmap done a → MappedInside h s m start a

/-- `start` and `size` are multiples of the page size. -/
def VmCall.Aligned : VmCall → Prop
  | .enter start size .. => start.toNat%4096 = 0 ∧ size.toNat%4096 = 0
  | .remove start size => start.toNat%4096 = 0 ∧ size.toNat%4096 = 0
  | .deallocate start size => start.toNat%4096 = 0 ∧ size.toNat%4096 = 0
  | .pageRange start size _ => start.toNat%4096 = 0 ∧ size.toNat%4096 = 0
  | .fault .. => True

/-- Every mapped page of the map lies in an entry, and entries are made of whole pages. -/
structure VmCovered (h : Hhdm) (s : VmState) (m : VmMapPtr) : Prop where
  aligned : ∀ e, s.EntryOf m e →
    (s.entries e).start.toNat%4096 = 0 ∧ (s.entries e).stop.toNat%4096 = 0
  covered : ∀ va, UserVa va → pteOf h s.pm (s.maps m).pmap va ≠ none →
    ∃ e, s.EntryOf m e ∧ s.Contains e va

section Cover
variable {h : Hhdm} {g g1 g' : VmGhost} {maps : Set VmMapPtr} {lists lists' : VmMapPtr → List EntryPtr}
  {s s1 s' : VmState} {m m' : VmMapPtr} {start stop size : Word} {e : EntryPtr}

theorem VmInv.entryOf_iff (hI : VmInv h g maps lists s) (hm : m ∈ maps) :
    s.EntryOf m e ↔ e ∈ lists m := by
  have hread := (hI.map m hm).ring.follow_next (lists m).length le_rfl
  constructor
  · rintro ⟨n, l, hl, he⟩
    rwa [follow_unique hl hread] at he
  · intro he
    exact ⟨_, _, hread, he⟩

/-- The page of an address of an aligned range lies in the range. -/
theorem contains_of_page {a va : Word} (h1 : (s.entries e).start.toNat%4096 = 0)
    (h2 : (s.entries e).stop.toNat%4096 = 0) (hpage : pageOf a = pageOf va)
    (hc : s.Contains e a) : s.Contains e va := by
  obtain ⟨h3, h4⟩ := hc
  rw [pageOf_eq, pageOf_eq] at hpage
  simp only [VmState.Contains, BitVec.le_def, BitVec.lt_def] at h3 h4 ⊢
  omega

/-- A walk in steps of a page from an aligned address comes to every page. -/
theorem exists_pageAddrs {va : Word} (hstart : start.toNat%4096 = 0) (hstop : stop.toNat ≤ 2^47)
    (h1 : start ≤ va) (h2 : va < stop) : ∃ a ∈ pageAddrs start stop, pageOf a = pageOf va := by
  rw [BitVec.le_def] at h1
  rw [BitVec.lt_def] at h2
  have hva := va.isLt
  obtain ⟨a, ha⟩ : ∃ a : Word, a.toNat = 4096*(va.toNat/4096) :=
    ⟨BitVec.ofNat 64 (4096*(va.toNat/4096)), by rw [BitVec.toNat_ofNat]; omega⟩
  refine ⟨a, (mem_pageAddrs hstop).mpr ⟨?_, va.toNat/4096-start.toNat/4096, by omega⟩, ?_⟩
  · rw [BitVec.lt_def]
    omega
  · rw [pageOf_eq, pageOf_eq, ha]
    omega

/-- The addresses of the pages of an aligned range. -/
theorem page_iff_range {va : Word} (hstart : start.toNat%4096 = 0) (hstop4 : stop.toNat%4096 = 0)
    (hstop : stop.toNat ≤ 2^47) :
    (∃ a ∈ pageAddrs start stop, pageOf a = pageOf va) ↔ start ≤ va ∧ va < stop := by
  constructor
  · rintro ⟨a, ha, hpage⟩
    obtain ⟨hlt, k, hk⟩ := (mem_pageAddrs hstop).mp ha
    rw [pageOf_eq, pageOf_eq] at hpage
    simp only [BitVec.le_def, BitVec.lt_def] at hlt ⊢
    omega
  · rintro ⟨h1, h2⟩
    exact exists_pageAddrs hstart hstop h1 h2

/-- The pages before `a` lie in `[start, a)`. -/
theorem done_inside {done rest : List Word} {a x va : Word} (hstart : start.toNat%4096 = 0)
    (hstop : stop.toNat ≤ 2^47) (hsplit : pageAddrs start stop = done ++ a :: rest) (hx : x ∈ done)
    (hpage : pageOf x = pageOf va) : start ≤ va ∧ va < a := by
  have h4 : pmmPageSize.toNat = 4096 := rfl
  have hwrap : stop.toNat+pmmPageSize.toNat ≤ 2^64 := by omega
  have hpair := addrs_pairwise hwrap addrFuel start
  change (pageAddrs start stop).Pairwise _ at hpair
  rw [hsplit, List.pairwise_append] at hpair
  have hlt := hpair.2.2 x hx a List.mem_cons_self
  obtain ⟨_, k, hk⟩ := (mem_pageAddrs hstop).mp (hsplit ▸ List.mem_append_left _ hx)
  rw [pageOf_eq, pageOf_eq] at hpage
  simp only [BitVec.le_def, BitVec.lt_def]
  omega

/-- After a removal: an entry that goes has its mapped pages in the range, where they are all
unmapped. -/
theorem VmCovered.removed (hC : VmCovered h s m) (hI : VmInv h g maps lists s) (hm : m ∈ maps)
    (hR : RemovedFrom h g g' maps lists m start stop s s') (hstart : start.toNat%4096 = 0)
    (hin : MappedInside h s m start stop) : VmCovered h s' m := by
  obtain ⟨hmap, _, hbody⟩ := hR.kept hm
  have hof (e : EntryPtr) : s'.EntryOf m e ↔ e ∈ lists m ∧ vmDrops s start stop e = false := by
    rw [hR.inv.entryOf_iff hm, Function.update_self, mem_kept]
  have hpmap : (s'.maps m).pmap = (s.maps m).pmap := fixed_pmap (hR.fixed m)
  refine ⟨fun e he => ?_, fun va hva hsome => ?_⟩
  · obtain ⟨h1, h2⟩ := vmDrops_of_body (hbody e (mem_kept.mpr ((hof e).mp he)))
    rw [h1, h2]
    exact hC.aligned e ((hI.entryOf_iff hm).mpr ((hof e).mp he).1)
  · rw [hpmap] at hsome
    have hvisit (x : EntryPtr) (hx : x ∈ lists m) (hd : vmDrops s start stop x = true) (a : Word)
        (ha : a ∈ vmDropAddrs s start stop x) : pageOf a ≠ pageOf va := by
      intro hpage
      refine hsome (hR.out.gone va hva ⟨a, ?_, hpage⟩)
      exact List.mem_flatMap.mpr ⟨x, List.mem_filter.mpr ⟨hx, hd⟩, ha⟩
    have hold : pteOf h s.pm (s.maps m).pmap va ≠ none := by
      rwa [← hR.out.other va hva fun a ha => ?_]
      obtain ⟨x, hx, ha⟩ := List.mem_flatMap.mp ha
      obtain ⟨hx, hd⟩ := List.mem_filter.mp hx
      exact hvisit x hx hd a ha
    obtain ⟨x, hx, hc⟩ := hC.covered va hva hold
    have hxl := (hI.entryOf_iff hm).mp hx
    cases hd : vmDrops s start stop x with
    | false =>
      have hkept := mem_kept.mpr ⟨hxl, hd⟩
      exact ⟨x, (hof x).mpr ⟨hxl, hd⟩, (contains_of_body (hbody x hkept) va).mpr hc⟩
    | true =>
      -- the entry is dropped, so its page of `va` is visited
      exfalso
      obtain ⟨hst, hsp⟩ := vmDrops_iff.mp hd |>.symm
      obtain ⟨h1, h2⟩ := hin x hx hst hsp va hva hc hold
      obtain ⟨h3, h4⟩ := hc
      have hle := ((hI.map m hm).inside x hxl).2
      rw [(hI.user m hm).2] at hle
      have hmax : userMapMax.toNat = 2^47-1 := rfl
      have hle : (s.entries x).stop.toNat ≤ userMapMax.toNat := hle
      have hal := (hC.aligned x hx).1
      have hvisited : ∃ a ∈ vmDropAddrs s start stop x, pageOf a = pageOf va := by
        apply exists_pageAddrs
        · split_ifs
          exacts [hal, hstart]
        · split_ifs with hc
          · omega
          · rw [BitVec.lt_def] at hc
            omega
        · split_ifs
          exacts [h3, h1]
        · split_ifs
          exacts [h4, h2]
      obtain ⟨a, ha, hpage⟩ := hvisited
      exact hvisit x hxl hd a ha hpage

/-- After pages are mapped that lie in entries. -/
theorem VmCovered.mapped (hC : VmCovered h s m) {own' : ℕ → Owner} {pm' : PmapState}
    {data' : List ℕ} {flags : Word} {as : List Word}
    (hin : MappedIn h g.live (s.maps m).pmap flags as g.own own' s.pm pm' s.data data')
    (has : ∀ a ∈ as, ∃ e, s.EntryOf m e ∧ s.Contains e a) :
    VmCovered h { s with pm := pm', data := data' } m := by
  refine ⟨hC.aligned, fun va hva hsome => ?_⟩
  by_cases hpage : ∃ a ∈ as, pageOf a = pageOf va
  · obtain ⟨a, ha, hpage⟩ := hpage
    obtain ⟨e, he, hc⟩ := has a ha
    obtain ⟨h1, h2⟩ := hC.aligned e he
    exact ⟨e, he, contains_of_page h1 h2 hpage hc⟩
  · push Not at hpage
    refine hC.covered va hva ?_
    rwa [← hin.other va hva hpage]

/-- A new entry covers what was covered before. -/
theorem VmCovered.entered {a : Word} {v : BitVec 32 × BitVec 32 × BitVec 32} (hC : VmCovered h s m)
    (hI : VmInv h g maps lists s) (hm : m ∈ maps)
    (he : Entered h g g1 maps lists m a start (stop, v) s s1) (hstart : start.toNat%4096 = 0)
    (hstop : stop.toNat%4096 = 0) :
    VmCovered h s1 m ∧ s1.EntryOf m (.elem a) ∧ ∀ va, s1.Contains (.elem a) va ↔
      start ≤ va ∧ va < stop := by
  have hof (x : EntryPtr) : s1.EntryOf m x ↔ x = .elem a ∨ x ∈ lists m := by
    rw [he.inv.entryOf_iff hm, Function.update_self, mem_vmPlace]
  have hnew : s1.body (.elem a) = (start, stop, v) := by
    rw [he.body, Function.update_self]
  have hst : (s1.entries (.elem a)).start = start := congrArg Prod.fst hnew
  have hsp : (s1.entries (.elem a)).stop = stop := congrArg (fun b => b.2.1) hnew
  have hold (x : EntryPtr) (hx : x ∈ lists m) : s1.body x = s.body x := by
    rw [he.body, Function.update_of_ne]
    rintro rfl
    exact he.new hx
  refine ⟨⟨fun x hx => ?_, fun va hva hsome => ?_⟩, (hof _).mpr (Or.inl rfl), fun va => ?_⟩
  · rcases (hof x).mp hx with rfl | hx
    · rw [hst, hsp]
      exact ⟨hstart, hstop⟩
    · obtain ⟨h1, h2⟩ := vmDrops_of_body (hold x hx)
      rw [h1, h2]
      exact hC.aligned x ((hI.entryOf_iff hm).mpr hx)
  · rw [fixed_pmap (he.quiet.fixed m), pteOf,
      he.quiet.kept.same _ (hI.pmap m hm) _ _ (vaPath_path hva.lower) (vaPath_leaf va)] at hsome
    obtain ⟨x, hx, hc⟩ := hC.covered va hva hsome
    have hxl := (hI.entryOf_iff hm).mp hx
    exact ⟨x, (hof x).mpr (Or.inr hxl), (contains_of_body (hold x hxl) va).mpr hc⟩
  · rw [VmState.Contains, hst, hsp]

/-- After a failed wired `vm_map_enter`: the pages of the range are unmapped again. -/
theorem VmCovered.rolledBack (hC : VmCovered h s m) (hI : VmInv h g maps lists s) (hm : m ∈ maps)
    (hI' : VmInv h g' maps lists s') (hbody : ∀ e ∈ lists m, s'.body e = s.body e)
    (hpmap : (s'.maps m).pmap = (s.maps m).pmap)
    (hpte : ∀ va, UserVa va → pteOf h s'.pm (s.maps m).pmap va ≠ none →
      pteOf h s.pm (s.maps m).pmap va ≠ none) : VmCovered h s' m := by
  refine ⟨fun e he => ?_, fun va hva hsome => ?_⟩
  · have hel := (hI'.entryOf_iff hm).mp he
    obtain ⟨h1, h2⟩ := vmDrops_of_body (hbody e hel)
    rw [h1, h2]
    exact hC.aligned e ((hI.entryOf_iff hm).mpr hel)
  · rw [hpmap] at hsome
    obtain ⟨x, hx, hc⟩ := hC.covered va hva (hpte va hva hsome)
    have hxl := (hI.entryOf_iff hm).mp hx
    exact ⟨x, (hI'.entryOf_iff hm).mpr hxl, (contains_of_body (hbody x hxl) va).mpr hc⟩

theorem aligned_stop (h1 : start.toNat%4096 = 0) (h2 : size.toNat%4096 = 0) :
    (start+size).toNat%4096 = 0 := by
  rw [BitVec.toNat_add]
  omega

theorem VmCovered.enter (hC : VmCovered h s m) (hI : VmInv h g maps lists s) (hm : m ∈ maps)
    (hstart : start.toNat%4096 = 0) (hsize : size.toNat%4096 = 0) {prot maxProt flags : BitVec 32}
    {r : KernReturn} (hr : vmMapEnter h s m start size prot maxProt flags = some (r, s')) :
    VmCovered h s' m := by
  have hstop4 := aligned_stop hstart hsize
  rcases vmMapEnter_spec hI hm start size prot maxProt flags with ⟨_, hrun⟩ |
    ⟨hok, hrun | ⟨a, s1, g1, he, _, ⟨_, hrun⟩ | ⟨_, own', pm', data', hI', ⟨hrun, _, hin⟩ |
      ⟨done, b, rest, s2, g2, hsplit, _, hrun, hin, hR⟩⟩⟩⟩
  all_goals obtain ⟨_, rfl⟩ := Prod.mk.inj (Option.some.inj (hr.symm.trans hrun))
  · exact hC
  · exact hC
  · exact (hC.entered hI hm he hstart hstop4).1
  · obtain ⟨hC1, hof, hc⟩ := hC.entered hI hm he hstart hstop4
    rw [← fixed_pmap (he.quiet.fixed m)] at hin
    refine hC1.mapped hin fun x hx => ⟨_, hof, (hc x).mpr ?_⟩
    exact (page_iff_range hstart hstop4 (hI.stop_le hm hok)).mp ⟨x, hx, rfl⟩
  · obtain ⟨hinv', hbody, hfixed, hlive, hout⟩ := he.rollback hm hI' hR
    refine hC.rolledBack hI hm hinv' hbody (fixed_pmap (hfixed m)) fun va hva hsome => ?_
    by_cases hpage : ∃ a ∈ pageAddrs start (start+size), pageOf a = pageOf va
    · exact absurd (hout.gone va hva hpage) hsome
    · push Not at hpage
      rw [hout.other va hva hpage, hin.other va hva fun x hx => hpage x ?_, pteOf,
        he.quiet.kept.same _ (hI.pmap m hm) _ _ (vaPath_path hva.lower) (vaPath_leaf va)] at hsome
      · exact hsome
      · rw [hsplit]
        exact List.mem_append_left _ hx

theorem framesFor_mono {p : PmapPtr} {as bs : List Word} (hsub : ∀ a ∈ as, a ∈ bs)
    (hlen : as.length ≤ bs.length) : framesFor h s.pm p as ≤ framesFor h s.pm p bs := by
  refine Nat.add_le_add hlen (Finset.card_le_card (Finset.filter_subset_filter _ ?_))
  exact Finset.biUnion_subset_biUnion_of_subset_left _ fun a ha =>
    List.mem_toFinset.mpr (hsub a (List.mem_toFinset.mp ha))

/-- There are frames for each page of a list for which there are frames. -/
theorem vmReach_of_mem {p : PmapPtr} {extra : ℕ} {as done rest : List Word}
    (hsplit : as = done ++ rest) (hfit : framesFor h s.pm p done+extra ≤ s.pm.kmem.pmm.frames.card)
    {a : Word} (ha : a ∈ done) : VmReach h s p extra as a := by
  obtain ⟨xs, ys, rfl⟩ := List.append_of_mem ha
  refine ⟨xs, ys ++ rest, by simp [hsplit],
    le_trans (Nat.add_le_add_right (framesFor_mono (fun b hb => ?_) ?_) _) hfit⟩
  · rcases List.mem_append.mp hb with hb | hb
    · exact List.mem_append_left _ hb
    · exact List.mem_append_right _ (List.mem_singleton.mp hb ▸ List.mem_cons_self)
  · simp

theorem VmCovered.pageRange (hC : VmCovered h s m) (hI : VmInv h g maps lists s) (hm : m ∈ maps)
    {prot : BitVec 32} (ha : (VmCall.pageRange start size prot).Aligned)
    (hsafe : (VmCall.pageRange start size prot).Covers h s m) {r : KernReturn}
    (hr : vmMapPageRange h s m start size prot = some (r, s')) : VmCovered h s' m := by
  obtain ⟨hstart, hsize⟩ := ha
  rcases vmMapPageRange_spec hI hm start size prot with ⟨_, hrun⟩ |
    ⟨hok, own', pm', data', hI', ⟨hrun, hfit, hin⟩ | ⟨done, a, rest, s2, g2, hsplit, hend, hrun, hin,
      hR⟩⟩
  all_goals obtain ⟨_, rfl⟩ := Prod.mk.inj (Option.some.inj (hr.symm.trans hrun))
  · exact hC
  · exact hC.mapped hin fun x hx =>
      (hsafe hok).1 x (vmReach_of_mem (List.append_nil _).symm hfit hx)
  · obtain ⟨hreach, hinside⟩ := hsafe hok
    have hC1 := hC.mapped hin fun x hx => hreach x (vmReach_of_mem hsplit hend.1 hx)
    refine hC1.removed hI' hm hR hstart fun e he h1 h2 va hva hc hsome => ?_
    rw [BitVec.add_comm, BitVec.sub_add_cancel] at h1 ⊢
    by_cases hpage : ∃ x ∈ done, pageOf x = pageOf va
    · obtain ⟨x, hx, hpage⟩ := hpage
      exact done_inside hstart (hI.stop_le hm hok) hsplit hx hpage
    · push Not at hpage
      refine hinside done a rest hsplit hend e he h1 h2 va hva hc ?_
      rwa [← hin.other va hva hpage]

theorem VmCovered.fault (hC : VmCovered h s m) (hI : VmInv h g maps lists s) (hm : m ∈ maps)
    {addr : Word} {faultType : BitVec 32} {r : VmFaultReturn}
    (hr : vmFault h s m addr faultType = some (r, s')) : VmCovered h s' m := by
  rcases vmFault_spec hI hm addr faultType with ⟨r, hrun⟩ |
    ⟨e, hel, hlo, hhi, own', pm', data', r, as, hI', hrun, has, hin⟩
  all_goals obtain ⟨_, rfl⟩ := Prod.mk.inj (Option.some.inj (hr.symm.trans hrun))
  · exact hC
  · refine hC.mapped hin fun a ha => ?_
    rcases has with ⟨_, rfl⟩ | ⟨_, rfl⟩
    · cases ha
    · obtain rfl := List.mem_singleton.mp ha
      have he := (hI.entryOf_iff hm).mpr hel
      obtain ⟨h1, h2⟩ := hC.aligned e he
      exact ⟨e, he, contains_of_page h1 h2 (pageOf_vmPageAddr addr).symm ⟨hlo, hhi⟩⟩

/-- The map of the call. -/
theorem VmCovered.call (hC : VmCovered h s m) (hI : VmInv h g maps lists s) (hm : m ∈ maps)
    {c : VmCall} (ha : c.Aligned) (hsafe : c.Covers h s m) (hr : c.run h s m = some s') :
    VmCovered h s' m := by
  have hremove (start size : Word) (hstart : start.toNat%4096 = 0)
      (hin : MappedInside h s m start (start+size))
      (hr : (vmMapRemove h s m start size).map Prod.snd = some s') : VmCovered h s' m := by
    obtain ⟨s2, g2, hrun, hR⟩ := vmMapRemove_spec hI hm start size
    rw [hrun] at hr
    obtain rfl := Option.some.inj hr
    exact hC.removed hI hm hR hstart hin
  cases c with
  | enter start size prot maxProt flags =>
    obtain ⟨⟨r, s2⟩, hrun, rfl⟩ := Option.map_eq_some_iff.mp hr
    exact hC.enter hI hm ha.1 ha.2 hrun
  | remove start size => exact hremove start size ha.1 hsafe hr
  | deallocate start size => exact hremove start size ha.1 hsafe hr
  | pageRange start size prot =>
    obtain ⟨⟨r, s2⟩, hrun, rfl⟩ := Option.map_eq_some_iff.mp hr
    exact hC.pageRange hI hm ha hsafe hrun
  | fault addr faultType =>
    obtain ⟨⟨r, s2⟩, hrun, rfl⟩ := Option.map_eq_some_iff.mp hr
    exact hC.fault hI hm hrun

/-- The list of the map, its pmap and its pages stay. -/
structure VmUntouched (h : Hhdm) (s s' : VmState) (m : VmMapPtr) : Prop where
  entryOf : ∀ e, s'.EntryOf m e ↔ s.EntryOf m e
  body : ∀ e, s.EntryOf m e → s'.body e = s.body e
  pmap : (s'.maps m).pmap = (s.maps m).pmap
  pte : ∀ va, UserVa va → pteOf h s'.pm (s.maps m).pmap va = pteOf h s.pm (s.maps m).pmap va

theorem VmInv.untouched (hI : VmInv h g maps lists s) (hm : m ∈ maps) {maps' : Set VmMapPtr}
    (hI' : VmInv h g' maps' lists' s') (hm' : m ∈ maps') (hl : lists' m = lists m)
    (hbody : ∀ e ∈ lists m, s'.body e = s.body e) (hpmap : (s'.maps m).pmap = (s.maps m).pmap)
    (hpte : ∀ va, UserVa va → pteOf h s'.pm (s.maps m).pmap va = pteOf h s.pm (s.maps m).pmap va) :
    VmUntouched h s s' m := by
  refine ⟨fun e => ?_, fun e he => hbody e ((hI.entryOf_iff hm).mp he), hpmap, hpte⟩
  rw [hI'.entryOf_iff hm', hI.entryOf_iff hm, hl]

theorem VmCovered.untouched (hC : VmCovered h s m) (hU : VmUntouched h s s' m) :
    VmCovered h s' m := by
  refine ⟨fun e he => ?_, fun va hva hsome => ?_⟩
  · have he' := (hU.entryOf e).mp he
    obtain ⟨h1, h2⟩ := vmDrops_of_body (hU.body e he')
    rw [h1, h2]
    exact hC.aligned e he'
  · rw [hU.pmap, hU.pte va hva] at hsome
    obtain ⟨e, he, hc⟩ := hC.covered va hva hsome
    exact ⟨e, (hU.entryOf e).mpr he, (contains_of_body (hU.body e he) va).mpr hc⟩

theorem SameEntries.user {pm pm' : PmapState} {live : Set PmapPtr} {p : PmapPtr} {va : Word}
    (hs : SameEntries h pm pm' live) (hp : p ∈ live) (hva : UserVa va) :
    pteOf h pm' p va = pteOf h pm p va :=
  hs p hp _ _ (vaPath_path hva.lower) (vaPath_leaf va)

end Cover

section Run
variable {h : Hhdm} {g : VmGhost} {lists : VmMapPtr → List EntryPtr} {w w' : VmWorld}
  {s₀ s : VmState} {l : VmOp} {m : VmMapPtr}

/-- A step that is no call on a map leaves it alone. -/
theorem VmWorldInv.untouched (hI : VmWorldInv h g lists w) (hs : VmStep h w l w') (hm : m ∈ w.maps)
    (hne : ∀ c, l ≠ .call m c) : VmUntouched h w.vm w'.vm m := by
  have hlive := hI.inv.pmap m hm
  cases hs with
  | pmapCreate hr =>
    obtain ⟨g', hI', hk, _⟩ := hI.inv.pmapCreate hr
    exact hI.inv.untouched hm hI' hm rfl (fun _ _ => rfl) rfl fun va hva => hk.same.user hlive hva
  | mapCreate hp hr =>
    obtain ⟨hlp, hfree⟩ := hI.spare _ hp
    rcases vmMapCreate_spec hI.inv hlp hfree with he | ⟨a, s', g', he, hne, _⟩
    · obtain ⟨_, rfl⟩ := Prod.mk.inj (hr.symm.trans he)
      exact ⟨fun _ => Iff.rfl, fun _ _ => rfl, rfl, fun _ _ => rfl⟩
    · obtain ⟨hc, _⟩ := Prod.mk.inj (hr.symm.trans he)
      exact absurd (VmMapPtr.elem.inj hc).symm hne
  | mapCreated hp hr hnull =>
    obtain ⟨hlp, hfree⟩ := hI.spare _ hp
    rcases vmMapCreate_spec hI.inv hlp hfree with he | ⟨a, s', g', he, _, hout, hI', hk, _, _, _, _, _,
      hmaps, hentries⟩
    · obtain ⟨rfl, _⟩ := Prod.mk.inj (hr.symm.trans he)
      exact absurd rfl hnull
    obtain ⟨rfl, rfl⟩ := Prod.mk.inj (hr.symm.trans he)
    have hma : m ≠ .elem a := fun hc => hout (hc ▸ hm)
    refine hI.inv.untouched hm hI' (Set.mem_insert_of_mem _ hm) (Function.update_of_ne hma _ _)
      (fun e he => ?_) (by rw [hmaps m hma]) fun va hva => hk.same.user hlive hva
    obtain ⟨b, _, rfl⟩ := hI.inv.entry m hm e he
    rw [VmState.body, VmState.body, hentries _ (by simp)]
  | call hm' hr =>
    rename_i m' c vm'
    have hmm : m ≠ m' := fun hc => hne c (hc ▸ rfl)
    obtain ⟨s', g', lists', hrun, hC⟩ := VmCall.spec hI.inv hm' c
    obtain rfl := Option.some.inj (hr.symm.trans hrun)
    refine hI.inv.untouched hm hC.inv hm (hC.others m hmm) (hC.body m hm hmm)
      (fixed_pmap (hC.fixed m)) fun va hva => ?_
    exact hC.paged.entry _ hlive (fun hc => hmm (hI.inv.pmaps m hm m' hm' hc)) _ _
      (vaPath_path hva.lower) (vaPath_leaf va)
  | write b hm' hva he =>
    have hd := hI.inv.mem.leaf _ (hI.inv.pmap _ hm') _ _ hva he
    obtain ⟨hI', hsame⟩ := hI.inv.writeByte ((hd.leafByte (h := h)) ▸ hd.mem) b
    exact hI.inv.untouched hm hI' hm rfl (fun _ _ => rfl) rfl fun va hva => hsame.user hlive hva

/-- A pmap that has no map yet has no pages, and neither has a new map. -/
theorem VmWorldInv.spare_none (hI : VmWorldInv h g lists w) (hs : VmStep h w l w')
    (hnone : ∀ p ∈ w.pmaps, ∀ va, UserVa va → pteOf h w.vm.pm p va = none) :
    (∀ p ∈ w'.pmaps, ∀ va, UserVa va → pteOf h w'.vm.pm p va = none) ∧
    ∀ m ∈ w'.maps, m ∉ w.maps → (∀ e, ¬ w'.vm.EntryOf m e) ∧
      ∀ va, UserVa va → pteOf h w'.vm.pm (w'.vm.maps m).pmap va = none := by
  cases hs with
  | pmapCreate hr =>
    obtain ⟨g', hI', hk, _, _, hnew⟩ := hI.inv.pmapCreate hr
    refine ⟨fun p hp va hva => ?_, fun m hm hm' => absurd hm hm'⟩
    rcases hp with hp | hp
    · exact (hnew p hp).2 va hva
    · dsimp only
      rw [hk.same.user (hI.spare p hp).1 hva, hnone p hp va hva]
  | mapCreate hp hr =>
    obtain ⟨hlp, hfree⟩ := hI.spare _ hp
    rcases vmMapCreate_spec hI.inv hlp hfree with he | ⟨a, s', g', he, hne, _⟩
    · obtain ⟨_, rfl⟩ := Prod.mk.inj (hr.symm.trans he)
      exact ⟨hnone, fun m hm hm' => absurd hm hm'⟩
    · obtain ⟨hc, _⟩ := Prod.mk.inj (hr.symm.trans he)
      exact absurd (VmMapPtr.elem.inj hc).symm hne
  | mapCreated hp hr hnull =>
    obtain ⟨hlp, hfree⟩ := hI.spare _ hp
    rcases vmMapCreate_spec hI.inv hlp hfree with he | ⟨a, s', g', he, _, hout, hI', hk, _, _, _, _,
      hpmap, _⟩
    · obtain ⟨rfl, _⟩ := Prod.mk.inj (hr.symm.trans he)
      exact absurd rfl hnull
    obtain ⟨rfl, rfl⟩ := Prod.mk.inj (hr.symm.trans he)
    refine ⟨fun p hp' va hva => ?_, fun m hm hm' => ?_⟩
    · dsimp only
      rw [hk.same.user (hI.spare p hp'.1).1 hva, hnone p hp'.1 va hva]
    · rcases hm with rfl | hm
      · refine ⟨fun e he => ?_, fun va hva => ?_⟩
        · have hel := (hI'.entryOf_iff (Set.mem_insert _ _)).mp he
          rw [Function.update_self] at hel
          cases hel
        · dsimp only
          rw [hpmap, hk.same.user hlp hva, hnone _ hp va hva]
      · exact absurd hm hm'
  | call hm' hr =>
    rename_i m' c vm'
    obtain ⟨s', g', lists', hrun, hC⟩ := VmCall.spec hI.inv hm' c
    obtain rfl := Option.some.inj (hr.symm.trans hrun)
    refine ⟨fun p hp va hva => ?_, fun m hm hm' => absurd hm hm'⟩
    have hne : p ≠ (w.vm.maps m').pmap := fun hc => (hI.spare p hp).2 m' hm' hc.symm
    have hsame := hC.paged.entry p (hI.spare p hp).1 hne _ _ (vaPath_path hva.lower) (vaPath_leaf va)
    dsimp only
    rw [pteOf, hsame, ← hnone p hp va hva]
    rfl
  | write b hm' hva he =>
    have hd := hI.inv.mem.leaf _ (hI.inv.pmap _ hm') _ _ hva he
    obtain ⟨_, hsame⟩ := hI.inv.writeByte ((hd.leafByte (h := h)) ▸ hd.mem) b
    refine ⟨fun p hp va hva => ?_, fun m hm hm' => absurd hm hm'⟩
    dsimp only
    rw [hsame.user (hI.spare p hp).1 hva, hnone p hp va hva]

/-- The calls of the step are aligned and leave no page without an entry. -/
def VmWorld.CoverStep (h : Hhdm) (w : VmWorld) : VmOp → Prop
  | .call m c => c.Aligned ∧ c.Covers h w.vm m
  | _ => True

/-- What every state of such a run has. -/
structure VmCoverInv (h : Hhdm) (w : VmWorld) : Prop where
  inv : ∃ g lists, VmWorldInv h g lists w
  covered : ∀ m ∈ w.maps, VmCovered h w.vm m
  spare : ∀ p ∈ w.pmaps, ∀ va, UserVa va → pteOf h w.vm.pm p va = none

theorem VmCoverInv.step (hC : VmCoverInv h w) (hs : VmStep h w l w') (hl : w.CoverStep h l) :
    VmCoverInv h w' := by
  obtain ⟨g, lists, hI⟩ := hC.inv
  obtain ⟨hspare, hnew⟩ := hI.spare_none hs hC.spare
  obtain ⟨g', lists', hI', _⟩ := hI.step hs
  refine ⟨⟨g', lists', hI'⟩, fun m hm => ?_, hspare⟩
  by_cases hold : m ∈ w.maps
  swap
  · obtain ⟨hno, hnone⟩ := hnew m hm hold
    exact ⟨fun e he => absurd he (hno e), fun va hva hsome => absurd (hnone va hva) hsome⟩
  by_cases hcall : ∃ c, l = .call m c
  · obtain ⟨c, rfl⟩ := hcall
    cases hs with
    | call hm' hr => exact (hC.covered m hm').call hI.inv hm' hl.1 hl.2 hr
  · push Not at hcall
    exact (hC.covered m hold).untouched (hI.untouched hs hold hcall)

/-- In every run whose steps leave no page without an entry, each mapped page of a map lies in
an entry of its list, and stepping through the entry by pages comes to it. -/
theorem vm_run_covered (hb : VmBoot h s₀) (hs : vmMapInit s₀ = some s) {trace : List VmOp}
    (hr : Run (fun w l w' => VmStep h w l w' ∧ w.CoverStep h l) (VmWorld.boot s) trace w) :
    ∀ m ∈ w.maps, ∀ va, UserVa va → pteOf h w.vm.pm (w.vm.maps m).pmap va ≠ none →
      ∃ e, w.vm.EntryOf m e ∧ w.vm.Contains e va ∧ w.vm.Visits e va := by
  have hC : VmCoverInv h w := hr.inv (fun _ _ _ hstep hC => hC.step hstep.1 hstep.2)
    ⟨⟨_, _, hb.world hs⟩, fun m hm => hm.elim, fun p hp => hp.elim⟩
  intro m hm va hva hsome
  obtain ⟨g, lists, hI⟩ := hC.inv
  obtain ⟨e, he, hc⟩ := (hC.covered m hm).covered va hva hsome
  refine ⟨e, he, hc, exists_pageAddrs ((hC.covered m hm).aligned e he).1 ?_ hc.1 hc.2⟩
  have hle := ((hI.inv.map m hm).inside e ((hI.inv.entryOf_iff hm).mp he)).2
  rw [(hI.inv.user m hm).2] at hle
  exact le_trans hle (by decide)

/-- A wired entry of two pages. -/
theorem vm_run_covered_wired : ∃ s, (VmCall.enter 0x1000 0x2000 3 7 1).run higherHalf vmFirst
      vmFirstMap = some s ∧ ∀ va, UserVa va → pteOf higherHalf s.pm (s.maps vmFirstMap).pmap va ≠ none →
    ∃ e, s.EntryOf vmFirstMap e ∧ s.Contains e va := by
  obtain ⟨w, h1, h2⟩ := vmFirst_steps
  obtain ⟨g, lists, hI⟩ := vmFirst_inv
  obtain ⟨s, _, _, hrun, _⟩ := VmCall.spec hI.inv rfl (.enter 0x1000 0x2000 3 7 1)
  have h3 := VmStep.call vmFirstWorld (m := vmFirstMap) rfl hrun
  have haligned : (VmCall.enter 0x1000 0x2000 3 7 1).Aligned := ⟨rfl, rfl⟩
  have hall := vm_run_covered vmBootState_boot vmBooted_init
    (((Run.start.snoc ⟨h1, trivial⟩).snoc ⟨h2, trivial⟩).snoc ⟨h3, haligned, trivial⟩)
    vmFirstMap rfl
  refine ⟨s, hrun, fun va hva hsome => ?_⟩
  obtain ⟨e, he, hc, _⟩ := hall va hva hsome
  exact ⟨e, he, hc⟩

/-- `vm_map_page_range` maps a page for which there is no entry. -/
theorem vm_map_page_range_uncovered : ∃ w, Run (VmStep higherHalf) (VmWorld.boot vmBooted)
      [.pmapCreate, .mapCreate, .call vmFirstMap (.pageRange 0x1000 0x1000 3)] w ∧
    vmFirstMap ∈ w.maps ∧ UserVa 0x1000 ∧
    pteOf higherHalf w.vm.pm (w.vm.maps vmFirstMap).pmap 0x1000 ≠ none ∧
    ¬ ∃ e, w.vm.EntryOf vmFirstMap e ∧ w.vm.Contains e 0x1000 := by
  obtain ⟨s, wrote, hrun, hr⟩ := vmFirst_call (.pageRange 0x1000 0x1000 3)
  have hsome : (VmCall.run higherHalf vmFirst vmFirstMap (.pageRange 0x1000 0x1000 3)).map (fun s =>
      (decide (pteOf higherHalf s.pm (s.maps vmFirstMap).pmap 0x1000 ≠ none),
        decide (s.next (.header vmFirstMap) = .header vmFirstMap))) = some (true, true) := by
    decide +kernel
  rw [hrun, Option.map_some] at hsome
  obtain ⟨hpte, hnext⟩ := Prod.mk.inj (Option.some.inj hsome)
  refine ⟨_, hr, rfl, show (0x1000 : Word).toNat < 2^47 by decide, of_decide_eq_true hpte, fun hentry => ?_⟩
  obtain ⟨e, ⟨n, l, hl, he⟩, _⟩ := hentry
  dsimp only at hl
  rw [of_decide_eq_true hnext, follow_sentinel] at hl
  obtain rfl := Option.some.inj hl
  cases he

end Run

end Dana
