import Dana.PmmExact
import Dana.VmExact
import Dana.VmShape

/-! What `vm_map_page_range` leaves behind when it runs out of frames: it takes back the entries
over the pages that it mapped, and these pages only where an entry covers them. -/
namespace Dana
open ByteMem AddrLoop LinkedRing Transition

/-- The entries of a map, in order. -/
def vmEntries (s : VmState) (m : VmMapPtr) : Option (List EntryPtr) :=
  follow s.next (.header m) addrFuel (s.next (.header m))

/-- The entry has an address below `addr` and `addr` itself. -/
def VmState.Straddles (s : VmState) (e : EntryPtr) (addr : Word) : Prop :=
  (s.entries e).start < addr ∧ addr < (s.entries e).stop

/-- The map has lost an entry, or there is a data page that there was not. -/
structure Spoiled (l₀ : List EntryPtr) (d₀ : List ℕ) (m : VmMapPtr) (l : List EntryPtr)
    (s : VmState) : Prop where
  list : VmMapInv s m l
  length : l.length ≤ l₀.length
  spoiled : l.length < l₀.length ∨ ∃ n ∈ s.data, n ∉ d₀

/-- There are not enough frames for the page at `start` and the tables it takes, and no entry
straddles `start`. -/
def FirstPageFails (h : Hhdm) (s : VmState) (m : VmMapPtr) (start : Word) : Prop :=
  s.pm.kmem.pmm.frames.card < framesFor h s.pm (s.maps m).pmap [start] ∧
    ∀ l, vmEntries s m = some l → ∀ e ∈ l, ¬ s.Straddles e start

section Spoiled
variable {h : Hhdm} {l₀ l : List EntryPtr} {d₀ : List ℕ} {m : VmMapPtr} {s s' : VmState}
  {start size : Word} {prot : BitVec 32} {kr : KernReturn}

theorem Spoiled.pages (hs : Spoiled l₀ d₀ m l s) (hp : PagesOnly s s') (hd : s.data ⊆ s'.data) :
    Spoiled l₀ d₀ m l s' := by
  refine ⟨hp.mapInv hs.list, hs.length, hs.spoiled.imp_right fun hn => ?_⟩
  obtain ⟨n, hn, hnot⟩ := hn
  exact ⟨n, hd hn, hnot⟩

theorem Spoiled.remove (hs : Spoiled l₀ d₀ m l s)
    (hr : vmMapRemove h s m start size = some (kr, s')) : ∃ l', Spoiled l₀ d₀ m l' s' := by
  rcases vmMapRemove_list hs.list hr with rfl | ⟨l', hm, _, hlt⟩
  · exact ⟨l, hs⟩
  · exact ⟨l', hm, hlt.le.trans hs.length, Or.inl (hlt.trans_le hs.length)⟩

theorem Spoiled.pageRange (hs : Spoiled l₀ d₀ m l s)
    (hr : vmMapPageRange h s m start size prot = some (kr, s')) : ∃ l', Spoiled l₀ d₀ m l' s' := by
  unfold vmMapPageRange at hr
  split_ifs at hr with hok
  · obtain ⟨_, rfl⟩ := Prod.mk.inj (Option.some.inj hr)
    exact ⟨l, hs⟩
  · obtain ⟨x, hx, hr⟩ := Option.bind_eq_some_iff.mp hr
    obtain ⟨honly, hdata⟩ := vmPagesIn_only hx
    have hs1 := hs.pages honly hdata
    cases x with
    | ok s1 =>
      obtain ⟨_, rfl⟩ := Prod.mk.inj (Option.some.inj hr)
      exact ⟨l, hs1⟩
    | error as =>
      obtain ⟨y, hy, hr⟩ := Option.map_eq_some_iff.mp hr
      obtain ⟨_, rfl⟩ := Prod.mk.inj hr
      exact hs1.remove hy

theorem Spoiled.changed (hs : Spoiled l₀ d₀ m l s') (hm : VmMapInv s m l₀) :
    ¬ (vmEntries s' m = vmEntries s m ∧ ∀ n, n ∈ s'.data ↔ n ∈ d₀) := by
  intro hc
  have hl := hs.list.ring.follow_next addrFuel hs.list.length_le
  have hl' := hm.ring.follow_next addrFuel hm.length_le
  have he : l = l₀ := Option.some.inj (hl.symm.trans (hc.1.trans hl'))
  rcases hs.spoiled with hlt | ⟨n, hn, hnot⟩
  · rw [he] at hlt
    exact absurd hlt (lt_irrefl _)
  · exact hnot ((hc.2 n).mp hn)

end Spoiled

section First
variable {h : Hhdm} {g g' : VmGhost} {maps : Set VmMapPtr} {lists : VmMapPtr → List EntryPtr}
  {s s' : VmState} {m : VmMapPtr} {start size stop flags : Word} {prot : BitVec 32} {kr : KernReturn}

/-- The map `m` and its pages are the same. -/
structure MapUnchanged (h : Hhdm) (m : VmMapPtr) (s s' : VmState) : Prop where
  map : s'.maps m = s.maps m
  entries : vmEntries s' m = vmEntries s m
  body : ∀ e, s'.body e = s.body e
  translation : ∀ va, UserVa va →
    pmapTranslation h s'.pm (s.maps m).pmap va = pmapTranslation h s.pm (s.maps m).pmap va
  data : ∀ n, n ∈ s'.data ↔ n ∈ s.data

theorem MapUnchanged.refl : MapUnchanged h m s s :=
  ⟨rfl, rfl, fun _ => rfl, fun _ _ => rfl, fun _ => Iff.rfl⟩

theorem framesFor_head (pm : PmapState) (p : PmapPtr) (a : Word) (as : List Word) :
    framesFor h pm p [a] ≤ framesFor h pm p (a :: as) := by
  refine Nat.add_le_add (by simp) (Finset.card_le_card fun q hq => ?_)
  rw [newTables, Finset.mem_filter, Finset.mem_biUnion] at hq ⊢
  obtain ⟨⟨b, hb, hqb⟩, hnone⟩ := hq
  exact ⟨⟨b, by simp only [List.mem_toFinset, List.mem_singleton] at hb ⊢; simp [hb], hqb⟩, hnone⟩

theorem pageAddrs_head (hlt : start < stop) : ∃ as, pageAddrs start stop = start :: as := by
  obtain ⟨n, hn⟩ : ∃ n, addrFuel = n+1 := ⟨2^64-1, rfl⟩
  rw [pageAddrs, hn, addrs, if_pos hlt]
  exact ⟨_, rfl⟩

/-- A page that is mapped takes a frame that was no data page. -/
theorem MappedIn.spoiled {own' : ℕ → Owner} {pm' : PmapState} {data' : List ℕ} {p : PmapPtr}
    {a : Word} {as : List Word}
    (hI : VmInv h { g with own := own' } maps lists { s with pm := pm', data := data' })
    (hm : m ∈ maps)
    (hin : MappedIn h g.live p flags (a :: as) g.own own' s.pm pm' s.data data') :
    Spoiled (lists m) s.data m (lists m) { s with pm := pm', data := data' } := by
  refine ⟨hI.map m hm, le_rfl, Or.inr ?_⟩
  obtain ⟨frames, hd, hlen⟩ := hin.frames
  cases frames with
  | nil => simp at hlen
  | cons f fs =>
    have hnd : (f :: fs ++ s.data).Nodup := hd ▸ hI.mem.nodup
    refine ⟨f, by simp [hd], fun hf => ?_⟩
    rw [List.cons_append, List.nodup_cons] at hnd
    exact hnd.1 (List.mem_append_right _ hf)

/-- Entries that are dropped make the list shorter; where none is, nothing is given back. -/
theorem RemovedFrom.list (hR : RemovedFrom h g g' maps lists m start stop s s') (hm : m ∈ maps) :
    (∃ l', VmMapInv s' m l' ∧ l' ⊆ lists m ∧ l'.length < (lists m).length ∧
      ∃ e ∈ lists m, vmDrops s start stop e = true) ∨
    (VmMapInv s' m (lists m) ∧ (∀ n, n ∈ s'.data ↔ n ∈ s.data) ∧ (∀ e, s'.body e = s.body e) ∧
      (∀ va, UserVa va → pteOf h s'.pm (s.maps m).pmap va = pteOf h s.pm (s.maps m).pmap va) ∧
      ∀ e ∈ lists m, vmDrops s start stop e = false) := by
  have hkept := hR.inv.map m hm
  rw [Function.update_self] at hkept
  by_cases hd : (lists m).filter (vmDrops s start stop) = []
  · have hall : ∀ e ∈ lists m, vmDrops s start stop e = false := by
      simpa [List.filter_eq_nil_iff] using hd
    have hall' : ((lists m).filter fun e => !vmDrops s start stop e) = lists m := by
      rw [List.filter_eq_self]
      intro e he
      rw [hall e he]
      rfl
    rw [hall'] at hkept
    have hout := hR.out
    rw [hd, List.flatMap_nil] at hout
    refine Or.inr ⟨hkept, fun n => ?_, fun e => hR.body e (by rw [hd]; simp),
      fun va hva => hout.other va hva (by simp), hall⟩
    rw [hout.mem_data]
    simp
  · obtain ⟨e, he⟩ := List.exists_mem_of_ne_nil _ hd
    obtain ⟨hel, hdrop⟩ := List.mem_filter.mp he
    refine Or.inl ⟨_, hkept, List.filter_subset_self _, ?_, e, hel, hdrop⟩
    refine List.length_filter_lt_length_iff_exists.mpr ⟨e, hel, ?_⟩
    rw [hdrop]
    simp

/-- A page range on a map in order either fails before it has done anything or spoils the map. -/
theorem vmMapPageRange_first (hI : VmInv h g maps lists s) (hm : m ∈ maps)
    (hr : vmMapPageRange h s m start size prot = some (kr, s')) :
    (vmRangeOk (s.maps m) start size = false ∧ MapUnchanged h m s s') ∨
    vmRangeOk (s.maps m) start size = true ∧
    ((framesFor h s.pm (s.maps m).pmap [start] ≤ s.pm.kmem.pmm.frames.card ∧
        ∃ l, Spoiled (lists m) s.data m l s') ∨
      s.pm.kmem.pmm.frames.card < framesFor h s.pm (s.maps m).pmap [start] ∧ kr = .noSpace ∧
      (((∀ e ∈ lists m, ¬ s.Straddles e start) ∧ MapUnchanged h m s s') ∨
        (∃ e ∈ lists m, s.Straddles e start) ∧ ∃ l, Spoiled (lists m) s.data m l s')) := by
  have hunder : (lists m).length ≤ addrFuel := hI.length_le hm
  rcases vmMapPageRange_spec hI hm start size prot with ⟨hok, hrun⟩ |
    ⟨hok, own', pm', data', hI', ⟨hrun, hfit, hin⟩ | ⟨done, a, rest, s2, g2, hsplit, hend, hrun, hin, hR⟩⟩
  · obtain ⟨_, rfl⟩ := Prod.mk.inj (Option.some.inj (hr.symm.trans hrun))
    exact Or.inl ⟨hok, rfl, rfl, fun _ => rfl, fun _ _ => rfl, fun _ => Iff.rfl⟩
  all_goals
    have hlt : start < start+size := by
      rw [BitVec.lt_def, vmRange_stop hok]
      have := (vmRangeOk_iff.mp hok).1
      omega
    obtain ⟨as, has⟩ := pageAddrs_head hlt
    refine Or.inr ⟨hok, ?_⟩
  · obtain ⟨_, rfl⟩ := Prod.mk.inj (Option.some.inj (hr.symm.trans hrun))
    rw [has] at hfit hin
    exact Or.inl ⟨(framesFor_head _ _ _ _).trans hfit, _, hin.spoiled hI' hm⟩
  obtain ⟨rfl, rfl⟩ := Prod.mk.inj (Option.some.inj (hr.symm.trans hrun))
  rw [has] at hsplit
  cases done with
  | cons b done =>
    -- the first page was mapped
    obtain ⟨rfl, _⟩ := List.cons.inj hsplit
    refine Or.inl ⟨(framesFor_head _ _ _ _).trans hend.1, ?_⟩
    have hs1 := hin.spoiled hI' hm
    rcases hR.list hm with ⟨l', hl', hsub, hshort, _⟩ | ⟨hl', hdata, _⟩
    · exact ⟨l', hl', hshort.le, Or.inl hshort⟩
    · refine ⟨_, hl', le_rfl, Or.inr ?_⟩
      obtain ⟨n, hn, hnot⟩ := hs1.spoiled.resolve_left (lt_irrefl _)
      exact ⟨n, (hdata n).mpr hn, hnot⟩
  | nil =>
    obtain ⟨rfl, _⟩ := List.cons.inj hsplit
    have hzero : start+(start-start) = start := by rw [BitVec.sub_self, BitVec.add_zero]
    rw [hzero] at hR
    have hdrops (e : EntryPtr) : vmDrops { s with pm := pm', data := data' } start start e = true ↔
        s.Straddles e start := by
      rw [vmDrops, Bool.not_eq_true', decide_eq_false_iff_not, not_or, BitVec.not_le, BitVec.not_le]
      rfl
    refine Or.inr ⟨hend.2, rfl, ?_⟩
    obtain ⟨frames, hd, hlen⟩ := hin.frames
    obtain rfl := List.eq_nil_of_length_eq_zero hlen
    rw [List.nil_append] at hd
    rcases hR.list hm with ⟨l', hl', hsub, hshort, e, he, hdrop⟩ | ⟨hl', hdata, hbody, hpte, hall⟩
    · exact Or.inr ⟨⟨e, he, (hdrops e).mp hdrop⟩, l', hl', hshort.le,
        Or.inl hshort⟩
    · refine Or.inl ⟨fun e he hc => ?_, ?_, ?_, hbody, fun va hva => ?_, fun n => ?_⟩
      · have hf := hall e he
        rw [(hdrops e).mpr hc] at hf
        cases hf
      · exact vmMap_eq (hR.fixed m) (hl'.nentries.trans (hI.map m hm).nentries.symm)
      · exact (hl'.ring.follow_next _ hunder).trans ((hI.map m hm).ring.follow_next _ hunder).symm
      · have hp := hI.pmap m hm
        rw [hI.mem.pmap.translation hp hva,
          hR.inv.mem.pmap.translation (hR.live ▸ hp) hva, hpte va hva, hin.other va hva (by simp)]
      · rw [hdata, hd]

/-- Where `vm_map_page_range` runs out of frames it has changed nothing exactly if it stopped at
the first page and no entry straddles the start of the range. -/
theorem vm_map_page_range_no_space {w : VmWorld} {s₀ s : VmState} (hb : VmBoot h s₀)
    (hs : vmMapInit s₀ = some s) {trace : List VmOp}
    (hr : Run (VmStep h) (VmWorld.boot s) trace w) (hm : m ∈ w.maps) {start size : Word}
    {prot : BitVec 32} (hc : vmMapPageRange h w.vm m start size prot = some (.noSpace, s')) :
    MapUnchanged h m w.vm s' ↔ FirstPageFails h w.vm m start := by
  obtain ⟨g, lists, hI⟩ := VmWorldInv.run hb hs hr
  have hI := hI.inv
  have hlen := hI.length_le hm
  have hl : vmEntries w.vm m = some (lists m) := (hI.map m hm).ring.follow_next _ hlen
  have hspoiled {l : List EntryPtr} (hsp : Spoiled (lists m) w.vm.data m l s') :
      ¬ MapUnchanged h m w.vm s' := fun hu => hsp.changed (hI.map m hm) ⟨hu.entries, hu.data⟩
  have hfirst : FirstPageFails h w.vm m start ↔
      w.vm.pm.kmem.pmm.frames.card < framesFor h w.vm.pm (w.vm.maps m).pmap [start] ∧
        ∀ e ∈ lists m, ¬ w.vm.Straddles e start := by
    rw [FirstPageFails, hl]
    simp only [Option.some.injEq, forall_eq']
  rw [hfirst]
  rcases vmMapPageRange_first hI hm hc with ⟨hbad, _⟩ | ⟨_, ⟨hfit, l, hsp⟩ |
    ⟨hlow, _, ⟨hno, hu⟩ | ⟨⟨e, he, hst⟩, l, hsp⟩⟩⟩
  · rw [vmMapPageRange, hbad] at hc
    cases hc
  · exact iff_of_false (hspoiled hsp) fun hc => absurd hc.1 (not_lt.mpr hfit)
  · exact iff_of_true hu ⟨hlow, hno⟩
  · exact iff_of_false (hspoiled hsp) fun hc => hc.2 e he hst

theorem le_length_pageAddrs (hstop : stop.toNat ≤ 2^47) {n : ℕ}
    (hn : start.toNat+n*4096 ≤ stop.toNat) : n ≤ (pageAddrs start stop).length := by
  have hadd {k : ℕ} (hk : k < n) : (start+BitVec.ofNat 64 (k*4096)).toNat = start.toNat+k*4096 := by
    rw [BitVec.toNat_add, BitVec.toNat_ofNat]
    omega
  have hnd : ((List.range n).map fun k => start+BitVec.ofNat 64 (k*4096)).Nodup := by
    refine List.Nodup.map_on (fun i hi j hj hij => ?_) List.nodup_range
    have hnat := congrArg BitVec.toNat hij
    rw [hadd (List.mem_range.mp hi), hadd (List.mem_range.mp hj)] at hnat
    omega
  have hsub : (List.range n).map (fun k => start+BitVec.ofNat 64 (k*4096)) ⊆ pageAddrs start stop := by
    intro a ha
    obtain ⟨k, hk, rfl⟩ := List.mem_map.mp ha
    have hk := List.mem_range.mp hk
    rw [mem_pageAddrs hstop, BitVec.lt_def, hadd hk]
    exact ⟨by omega, k, rfl⟩
  calc n = ((List.range n).map fun k => start+BitVec.ofNat 64 (k*4096)).length := by simp
    _ ≤ (pageAddrs start stop).length := (hnd.subperm hsub).length_le

/-- More pages than there are frames do not fit. -/
theorem vmMapPageRange_large (hI : VmInv h g maps lists s) (hm : m ∈ maps)
    (hok : vmRangeOk (s.maps m) start size = true)
    (hbig : s.pm.kmem.pmm.frames.card < (pageAddrs start (start+size)).length) :
    ∃ s', vmMapPageRange h s m start size prot = some (.noSpace, s') := by
  rcases vmMapPageRange_spec hI hm start size prot with ⟨hbad, _⟩ |
    ⟨_, own', pm', data', _, ⟨_, hfit, _⟩ | ⟨done, a, rest, s2, g2, _, _, hrun, _⟩⟩
  · cases hok.symm.trans hbad
  · rw [framesFor] at hfit
    omega
  · exact ⟨s2, hrun⟩

/-- A page takes at most itself and three tables. -/
theorem framesFor_single_le (pm : PmapState) (p : PmapPtr) (a : Word) :
    framesFor h pm p [a] ≤ 4 := by
  have hsub : newTables h pm.kmem.mem (pm.pmaps p).pml4Phys [a] ⊆ vaTables a := by
    intro q hq
    obtain ⟨b, hb, hqb⟩ := Finset.mem_biUnion.mp (Finset.mem_filter.mp hq).1
    obtain rfl : b = a := by simpa using hb
    exact hqb
  have hthree : (vaTables a).card ≤ 3 := Finset.card_le_three
  have hcard := Finset.card_le_card hsub
  rw [framesFor, List.length_singleton]
  omega

/-- A range of more pages than the machine has frames, in the first map. -/
theorem vmFirst_large : ∃ s',
    vmMapPageRange higherHalf vmFirst vmFirstMap 0x1000 0x100001000 3 = some (.noSpace, s') := by
  obtain ⟨g, lists, hI⟩ := vmFirst_inv
  refine vmMapPageRange_large hI.inv rfl (by decide +kernel) ?_
  calc vmFirst.pm.kmem.pmm.frames.card ≤ 2^20 := Pmm.frames_card_le _
    _ < 2^20+1 := by decide
    _ ≤ _ := le_length_pageAddrs (by decide) (by decide)

theorem vm_map_page_range_no_space_large : ∃ s',
    vmMapPageRange higherHalf vmFirst vmFirstMap 0x1000 0x100001000 3 = some (.noSpace, s') ∧
    (MapUnchanged higherHalf vmFirstMap vmFirst s' ↔
      FirstPageFails higherHalf vmFirst vmFirstMap 0x1000) := by
  obtain ⟨s', hc⟩ := vmFirst_large
  exact ⟨s', hc, vm_map_page_range_no_space vmBootState_boot vmBooted_init vmFirst_run rfl hc⟩

/-- Nothing is mapped in the first 512 GB of the first map. -/
theorem vmFirst_unmapped {va : Word} (hva : va.toNat < 2^39) :
    pmapTranslation higherHalf vmFirst.pm (vmFirst.maps vmFirstMap).pmap va = none := by
  have hidx : pml4Idx va = 0 := by
    apply BitVec.eq_of_toNat_eq
    rw [pml4Idx, idx_toNat]
    have hz : (0 : Idx).toNat = 0 := rfl
    omega
  have hslot : pteNext (pteAt higherHalf vmFirst.pm.kmem.mem
      (vmFirst.pm.pmaps (vmFirst.maps vmFirstMap).pmap).pml4Phys 0) = none := by decide +kernel
  rw [pmapTranslation, if_pos (show Canonical va from Or.inl (by omega)), hwWalk, hidx, hslot]
  rfl

/-- The pages that were mapped before the frames ran out stay. -/
theorem vm_map_page_range_keeps_pages :
    (∀ va, 0x1000 ≤ va → va < (0x1000+0x100001000 : Word) →
      pmapTranslation higherHalf vmFirst.pm (vmFirst.maps vmFirstMap).pmap va = none) ∧
    ∃ s', vmMapPageRange higherHalf vmFirst vmFirstMap 0x1000 0x100001000 3 = some (.noSpace, s') ∧
      ¬ MapUnchanged higherHalf vmFirstMap vmFirst s' := by
  obtain ⟨g, lists, hI⟩ := vmFirst_inv
  refine ⟨fun va _ hlt => ?_, ?_⟩
  · rw [BitVec.lt_def] at hlt
    exact vmFirst_unmapped (hlt.trans (by decide))
  obtain ⟨s', hc⟩ := vmFirst_large
  have hlen := hI.inv.length_le (m := vmFirstMap) rfl
  have hfit : framesFor higherHalf vmFirst.pm (vmFirst.maps vmFirstMap).pmap [0x1000] ≤
      vmFirst.pm.kmem.pmm.frames.card := by
    have hsub : ({6, 7, 8, 9} : Finset ℕ) ⊆ vmFirst.pm.kmem.pmm.frames := by
      intro n hn
      rw [Pmm.mem_frames]
      revert n
      decide +kernel
    exact (framesFor_single_le _ _ _).trans (Finset.card_le_card hsub)
  refine ⟨s', hc, fun hu => ?_⟩
  rcases vmMapPageRange_first hI.inv rfl hc with ⟨hbad, _⟩ | ⟨_, ⟨_, l, hsp⟩ | ⟨hlow, _⟩⟩
  · change vmRangeOk (vmFirst.maps vmFirstMap) 0x1000 0x100001000 = false at hbad
    rw [vmMapPageRange, hbad] at hc
    cases hc
  · exact hsp.changed (hI.inv.map _ rfl) ⟨hu.entries, hu.data⟩
  · exact absurd hfit (not_le.mpr hlow)

end First

end Dana
