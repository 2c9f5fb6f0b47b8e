import Dana.VmFrames
import Dana.VmMapInv

/-! What `vm_map_remove`, `vm_map_enter`, `vm_map_page_range` and `vm_fault` do to a map: to
its list, its translations and its data pages. -/
namespace Dana
open ByteMem RadixTree LinkedRing AddrLoop IntervalList

/-- The parts of a map that no call on it changes. -/
def VmMap.fixed (v : VmMap) : Word × Word × BitVec 32 × PmapPtr :=
  (v.minOffset, v.maxOffset, v.refCount, v.pmap)

section Relist
variable {h : Hhdm} {g g' : VmGhost} {maps : Set VmMapPtr} {lists : VmMapPtr → List EntryPtr}
  {s s' : VmState} {m : VmMapPtr} {l' : List EntryPtr}

theorem VmInv.length_lt (hI : VmInv h g maps lists s) (hm : m ∈ maps) :
    (lists m).length < 2^32 := by
  obtain ⟨free, hok, _⟩ := hI.mem.zones.zone _ hI.entryZone
  obtain ⟨as, has, hel⟩ : ∃ as : List Word, lists m = as.map EntryPtr.elem ∧
      ∀ a ∈ as, a ∈ g.elems s.vmMapEntryZone := by
    have hall := hI.entry m hm
    generalize lists m = l at hall
    induction l with
    | nil => exact ⟨[], rfl, by simp⟩
    | cons e l ih =>
      obtain ⟨a, ha, rfl⟩ := hall e List.mem_cons_self
      obtain ⟨as, rfl, has⟩ := ih fun e he => hall e (List.mem_cons_of_mem _ he)
      exact ⟨a :: as, rfl, by simpa [ha] using has⟩
  have hnd := (hI.map m hm).nodup
  rw [has] at hnd ⊢
  rw [List.length_map]
  exact hok.live_length (List.Nodup.of_map _ hnd) hel

theorem VmInv.length_le (hI : VmInv h g maps lists s) (hm : m ∈ maps) :
    (lists m).length ≤ addrFuel :=
  (hI.length_lt hm).le.trans (Nat.pow_le_pow_right (by decide) (by decide))

/-- The frames change under the maps. -/
theorem VmInv.with_mem (hI : VmInv h g maps lists s) {own' : ℕ → Owner} {pm' : PmapState}
    {data' : List ℕ} (hmem : VmMemInv h { g with own := own' } pm' s.zoneStore data') :
    VmInv h { g with own := own' } maps lists { s with pm := pm', data := data' } :=
  ⟨hmem, hI.mapZone, hI.entryZone, hI.zones, fun m hm => (hI.map m hm).congr rfl fun _ _ => rfl,
    hI.user, hI.pmap, hI.pmaps, hI.elem, hI.entry, hI.apart⟩

/-- One map gets a new list, and the others stay as they are. -/
theorem VmInv.relist (hI : VmInv h g maps lists s)
    (hmem : VmMemInv h g' s'.pm s'.zoneStore s'.data) (hlive : g'.live = g.live)
    (hz : s'.vmMapZone = s.vmMapZone) (hez : s'.vmMapEntryZone = s.vmMapEntryZone)
    (hcount : s'.zoneStore.zoneCount = s.zoneStore.zoneCount)
    (hmap : ∀ m', (s'.maps m').fixed = (s.maps m').fixed)
    (hother : ∀ m' ∈ maps, m' ≠ m → s'.maps m' = s.maps m' ∧
      ∀ e ∈ .header m' :: lists m', s'.entries e = s.entries e)
    (hnew : VmMapInv s' m l')
    (helem : ∀ a ∈ g.elems s.vmMapZone, a ∈ g'.elems s.vmMapZone)
    (hentry : ∀ m' ∈ maps, m' ≠ m → ∀ e ∈ lists m', ∀ a, e = .elem a →
      a ∈ g.elems s.vmMapEntryZone → a ∈ g'.elems s.vmMapEntryZone)
    (hentry' : ∀ e ∈ l', ∃ a ∈ g'.elems s.vmMapEntryZone, e = .elem a)
    (hapart : ∀ m' ∈ maps, m' ≠ m → ∀ e ∈ l', e ∉ lists m') :
    VmInv h g' maps (Function.update lists m l') s' := by
  have hpmap (m' : VmMapPtr) : (s'.maps m').pmap = (s.maps m').pmap :=
    congrArg (fun v : Word × Word × BitVec 32 × PmapPtr => v.2.2.2) (hmap m')
  have hmin (m' : VmMapPtr) : (s'.maps m').minOffset = (s.maps m').minOffset :=
    congrArg (fun v : Word × Word × BitVec 32 × PmapPtr => v.1) (hmap m')
  have hmax (m' : VmMapPtr) : (s'.maps m').maxOffset = (s.maps m').maxOffset :=
    congrArg (fun v : Word × Word × BitVec 32 × PmapPtr => v.2.1) (hmap m')
  have hlist (m' : VmMapPtr) (hne : m' ≠ m) : Function.update lists m l' m' = lists m' :=
    Function.update_of_ne hne _ _
  refine ⟨hmem, ?_, ?_, ?_, fun m' hm' => ?_, fun m' hm' => ?_, fun m' hm' => ?_,
    fun m1 h1 m2 h2 he => ?_, fun m' hm' => ?_, fun m' hm' e he => ?_, fun m1 h1 m2 h2 hne e he => ?_⟩
  · rw [hz, hcount]
    exact hI.mapZone
  · rw [hez, hcount]
    exact hI.entryZone
  · rw [hz, hez]
    exact hI.zones
  · by_cases hmm : m' = m
    · rw [hmm, Function.update_self]
      exact hnew
    · rw [hlist m' hmm]
      exact (hI.map m' hm').congr (hother m' hm' hmm).1 (hother m' hm' hmm).2
  · rw [hmin, hmax]
    exact hI.user m' hm'
  · rw [hpmap, hlive]
    exact hI.pmap m' hm'
  · rw [hpmap, hpmap] at he
    exact hI.pmaps m1 h1 m2 h2 he
  · rw [hz]
    obtain ⟨a, ha, rfl⟩ := hI.elem m' hm'
    exact ⟨a, helem a ha, rfl⟩
  · rw [hez]
    by_cases hmm : m' = m
    · rw [hmm, Function.update_self] at he
      exact hentry' e he
    · rw [hlist m' hmm] at he
      obtain ⟨a, ha, hea⟩ := hI.entry m' hm' e he
      exact ⟨a, hentry m' hm' hmm e he a hea ha, hea⟩
  · by_cases hm1 : m1 = m
    · have hm2 : m2 ≠ m := fun hc => hne (hm1.trans hc.symm)
      rw [hm1, Function.update_self] at he
      rw [hlist m2 hm2]
      exact hapart m2 h2 hm2 e he
    · rw [hlist m1 hm1] at he
      by_cases hm2 : m2 = m
      · rw [hm2, Function.update_self]
        exact fun hc => hapart m1 h1 hm1 e hc he
      · rw [hlist m2 hm2]
        exact hI.apart m1 h1 m2 h2 hne e he

end Relist

/-- Entries may come and go, but no translation and no data page changes. -/
structure VmQuiet (h : Hhdm) (g g' : VmGhost) (s s' : VmState) : Prop where
  live : g'.live = g.live
  data : s'.data = s.data
  pmaps : s'.pm.pmaps = s.pm.pmaps
  kept : Kept h g.live g.own g'.own s.pm s'.pm s.data
  active : s'.active = s.active
  fixed : ∀ m, (s'.maps m).fixed = (s.maps m).fixed

section Entries
variable {h : Hhdm} {g g' : VmGhost} {maps : Set VmMapPtr} {lists : VmMapPtr → List EntryPtr}
  {s s' : VmState} {m : VmMapPtr} {l xs ys : List EntryPtr} {e : EntryPtr}

theorem setMap_nentries_fixed (s : VmState) (m m' : VmMapPtr) (n : BitVec 32) :
    ((s.setMap m { s.maps m with nentries := n }).maps m').fixed = (s.maps m').fixed := by
  simp only [VmState.setMap, Function.update_apply]
  split_ifs with hc
  · rw [hc]
    rfl
  · rfl

/-- Two maps have no node in common. -/
theorem VmInv.disjoint (hI : VmInv h g maps lists s) {m' : VmMapPtr} (hm : m ∈ maps)
    (hm' : m' ∈ maps) (hmm : m' ≠ m) {x : EntryPtr} (hx : x ∈ EntryPtr.header m :: lists m) :
    x ∉ EntryPtr.header m' :: lists m' := by
  intro hx'
  rcases List.mem_cons.mp hx with rfl | hx
  · rcases List.mem_cons.mp hx' with hc | hx'
    · exact hmm (EntryPtr.header.inj hc).symm
    · exact hI.header_not_mem hm' m hx'
  · rcases List.mem_cons.mp hx' with rfl | hx'
    · exact hI.header_not_mem hm m' hx
    · exact hI.apart m hm m' hm' (Ne.symm hmm) x hx hx'

/-- One entry is taken out of its list and freed. -/
theorem VmInv.drop (hI : VmInv h g maps lists s) (hm : m ∈ maps) (hl : lists m = xs ++ e :: ys) :
    ∃ g', VmInv h g' maps (Function.update lists m (xs ++ ys)) (vmMapDropEntry s m e) ∧
      g'.own = g.own ∧ VmQuiet h g g' s (vmMapDropEntry s m e) ∧
      ∀ x, x ≠ e → (vmMapDropEntry s m e).body x = s.body x := by
  have hmap := hI.map m hm
  rw [hl] at hmap
  have hel : e ∈ lists m := by simp [hl]
  obtain ⟨a, ha, rfl⟩ := hI.entry m hm e hel
  obtain ⟨_, _, hne, hpm, hnm⟩ := hmap.neighbours
  obtain ⟨zone, hzone⟩ : ∃ zone, zone =
    (zfree (s.zoneStore.zones s.vmMapEntryZone) a s.pm.kmem).1 := ⟨_, rfl⟩
  obtain ⟨k, hk⟩ : ∃ k, k = (zfree (s.zoneStore.zones s.vmMapEntryZone) a s.pm.kmem).2 := ⟨_, rfl⟩
  obtain ⟨hmem, hkept⟩ := hI.mem.zfree ha (Prod.ext hzone.symm hk.symm)
  obtain ⟨v, hrun⟩ : ∃ v, vmMapDropEntry s m (.elem a) =
      { ((mapListRemove s (.elem a)).setEntry (.elem a) v).setMap m
          { s.maps m with nentries := (s.maps m).nentries-1 } with
        pm := { s.pm with kmem := k }
        zoneStore := s.zoneStore.set s.vmMapEntryZone zone } := by
    refine ⟨{ (mapListRemove s (.elem a)).entries (.elem a) with
      start := (s.zoneStore.zones s.vmMapEntryZone).freeList }, ?_⟩
    rw [hzone, hk]
    rfl
  rw [hrun]
  have hdisj (m' : VmMapPtr) (hm' : m' ∈ maps) (hmm : m' ≠ m) (x : EntryPtr)
      (hx : x ∈ EntryPtr.header m :: lists m) : x ∉ EntryPtr.header m' :: lists m' :=
    hI.disjoint hm hm' hmm hx
  refine ⟨_, hI.relist hmem rfl rfl rfl rfl (fun m' => ?_) (fun m' hm' hmm => ⟨?_, fun x hx => ?_⟩)
    ((hmap.remove rfl).congr rfl fun _ _ => rfl) (fun b hb => ?_) (fun m' hm' hmm x hx b hb hbe => ?_)
    (fun x hx => ?_) fun m' hm' hmm x hx => ?_, rfl, ⟨rfl, rfl, rfl, hkept, rfl, fun m' => ?_⟩,
    fun x hx => ?_⟩
  · exact setMap_nentries_fixed s m m' _
  · exact Function.update_of_ne hmm _ _
  · have hxe : x ≠ .elem a := fun hc => hdisj m' hm' hmm _ (List.mem_cons_of_mem _ hel) (hc ▸ hx)
    refine (Function.update_of_ne hxe _ _).trans (mapListRemove_other s _ ?_ ?_ hne)
    · exact fun hc => hdisj m' hm' hmm _ (hl ▸ hpm) (hc ▸ hx)
    · exact fun hc => hdisj m' hm' hmm _ (hl ▸ hnm) (hc ▸ hx)
  · dsimp only
    rw [Function.update_of_ne hI.zones]
    exact hb
  · dsimp only
    rw [Function.update_self]
    refine ⟨hbe, fun hc => ?_⟩
    rw [hb, Set.mem_singleton_iff.mp hc] at hx
    exact hI.apart m hm m' hm' (Ne.symm hmm) _ hel hx
  · have hxl : x ∈ lists m := by
      rw [hl]
      rcases List.mem_append.mp hx with hx | hx
      · exact List.mem_append_left _ hx
      · exact List.mem_append_right _ (List.mem_cons_of_mem _ hx)
    obtain ⟨b, hb, rfl⟩ := hI.entry m hm x hxl
    refine ⟨b, ?_, rfl⟩
    dsimp only
    rw [Function.update_self]
    refine ⟨hb, fun hc => ?_⟩
    rw [Set.mem_singleton_iff.mp hc] at hx
    have hnd := List.nodup_middle.mp hmap.nodup
    exact (List.nodup_cons.mp hnd).1 hx
  · have hxl : x ∈ lists m := by
      rw [hl]
      rcases List.mem_append.mp hx with hx | hx
      · exact List.mem_append_left _ hx
      · exact List.mem_append_right _ (List.mem_cons_of_mem _ hx)
    exact hI.apart m hm m' hm' (Ne.symm hmm) x hxl
  · exact setMap_nentries_fixed s m m' _
  · refine (congrFun (setEntry_body (mapListRemove s (.elem a)) (.elem a) v) x).trans ?_
    rw [Function.update_of_ne hx, mapListRemove_body]

end Entries

/-- The entries that `vm_map_remove` drops, as its test has it. -/
def vmDrops (s : VmState) (start stop : Word) (e : EntryPtr) : Bool :=
  !decide (stop ≤ (s.entries e).start ∨ (s.entries e).stop ≤ start)

/-- The addresses whose pages it unmaps for the entry `e`. -/
def vmDropAddrs (s : VmState) (start stop : Word) (e : EntryPtr) : List Word :=
  pageAddrs (if start < (s.entries e).start then (s.entries e).start else start)
    (if (s.entries e).stop < stop then (s.entries e).stop else stop)

/-- The map `m` without the entries that overlap `[start, stop)`. -/
structure Removed (h : Hhdm) (g g' : VmGhost) (maps : Set VmMapPtr)
    (lists : VmMapPtr → List EntryPtr) (m : VmMapPtr) (start stop : Word) (dropped kept : List EntryPtr)
    (s s' : VmState) : Prop where
  inv : VmInv h g' maps (Function.update lists m kept) s'
  live : g'.live = g.live
  out : MappedOut h g.live (s.maps m).pmap (dropped.flatMap (vmDropAddrs s start stop)) g.own g'.own
    s.pm s'.pm s.data s'.data
  body : ∀ x, x ∉ dropped → s'.body x = s.body x
  fixed : ∀ m', (s'.maps m').fixed = (s.maps m').fixed
  active : s'.active = s.active

section Remove
variable {h : Hhdm} {g g1 : VmGhost} {maps : Set VmMapPtr} {lists : VmMapPtr → List EntryPtr}
  {s s1 : VmState} {m : VmMapPtr} {start stop : Word} {dropped kept es : List EntryPtr}
  {e : EntryPtr}

theorem Removed.refl (hI : VmInv h g maps lists s) :
    Removed h g g maps lists m start stop [] (lists m) s s := by
  refine ⟨?_, rfl, MappedOut.refl, fun _ _ => rfl, fun _ => rfl, rfl⟩
  rw [Function.update_eq_self]
  exact hI

/-- The fields of an entry that is still there. -/
theorem vmDrops_of_body {x : EntryPtr} (h : s1.body x = s.body x) :
    (s1.entries x).start = (s.entries x).start ∧ (s1.entries x).stop = (s.entries x).stop :=
  ⟨congrArg (fun b : Word × Word × BitVec 32 × BitVec 32 × BitVec 32 => b.1) h,
    congrArg (fun b : Word × Word × BitVec 32 × BitVec 32 × BitVec 32 => b.2.1) h⟩

/-- One more entry is dropped: its pages are unmapped, and it leaves the list. -/
theorem Removed.step (hm : m ∈ maps)
    (hR : Removed h g g1 maps lists m start stop dropped (kept ++ e :: es) s s1)
    (he : e ∉ dropped) : ∃ s2 g2,
      vmPagesOut h (s1.maps m).pmap
          (if (s1.entries e).stop < stop then (s1.entries e).stop else stop)
          (if start < (s1.entries e).start then (s1.entries e).start else start) s1 = some s2 ∧
      Removed h g g2 maps lists m start stop (dropped ++ [e]) (kept ++ es) s
        (vmMapDropEntry s2 m e) := by
  have hp1 : (s1.maps m).pmap = (s.maps m).pmap :=
    congrArg (fun v : Word × Word × BitVec 32 × PmapPtr => v.2.2.2) (hR.fixed m)
  have hlive : (s.maps m).pmap ∈ g1.live := hp1 ▸ hR.inv.pmap m hm
  obtain ⟨hstart, hstop⟩ := vmDrops_of_body (hR.body e he)
  have hmap := hR.inv.map m hm
  rw [Function.update_self] at hmap
  have hbound : (if (s1.entries e).stop < stop then (s1.entries e).stop else stop).toNat ≤ 2^47 := by
    have h1 := (hmap.inside e (by simp)).2
    rw [(hR.inv.user m hm).2] at h1
    have h2 : userMapMax.toNat = 2^47-1 := rfl
    have h3 : (s1.entries e).stop.toNat ≤ userMapMax.toNat := h1
    split_ifs with hc
    · omega
    · rw [BitVec.lt_def] at hc
      omega
  obtain ⟨own', pm', data', hrun, hmem, hout⟩ := vmPagesOut_spec hR.inv.mem hlive hbound
    (if start < (s1.entries e).start then (s1.entries e).start else start)
  rw [← hp1] at hrun
  have hI2 := hR.inv.with_mem hmem
  obtain ⟨g2, hI3, hown, hquiet, hbody⟩ := hI2.drop hm
    (show Function.update lists m (kept ++ e :: es) m = kept ++ e :: es by rw [Function.update_self])
  refine ⟨_, g2, hrun, ?_, hquiet.live.trans hR.live, ?_, fun x hx => ?_, fun m' =>
    (hquiet.fixed m').trans (hR.fixed m'), hquiet.active.trans hR.active⟩
  · rw [Function.update_idem] at hI3
    exact hI3
  · have hlast := MappedOut.same hlive (hquiet.kept.paged hquiet.pmaps) hquiet.kept.same
    have hall := hR.out.trans (hR.live ▸ (hout.trans hlast))
    rw [List.append_nil, hstart, hstop] at hall
    rw [List.flatMap_append, List.flatMap_singleton, hquiet.data]
    exact hall
  · rw [List.mem_append, List.mem_singleton, not_or] at hx
    exact (hbody x hx.2).trans (hR.body x hx.1)

/-- The body of the loop of `vm_map_remove`. -/
def vmRemoveEntry (h : Hhdm) (m : VmMapPtr) (start stop : Word) (e : EntryPtr) (s : VmState) :
    Except Unit (VmState × EntryPtr) :=
  if stop ≤ (s.entries e).start ∨ (s.entries e).stop ≤ start then .ok (s, (s.entries e).next)
  else
    match vmPagesOut h (s.maps m).pmap (if (s.entries e).stop < stop then (s.entries e).stop else stop)
      (if start < (s.entries e).start then (s.entries e).start else start) s with
    | none => .error ()
    | some s' => .ok (vmMapDropEntry s' m e, (s.entries e).next)

theorem vmMapRemove_eq (s : VmState) (m : VmMapPtr) (start size : Word) :
    vmMapRemove h s m start size =
      match forNodes (.header m) (vmRemoveEntry h m start (start+size)) addrFuel
        (s.next (.header m)) s with
      | some (.ok s) => some (.success, s)
      | _ => none := rfl

/-- `vm_map_remove` ends; it drops the entries that overlap the range and keeps the others. -/
theorem vmMapRemove_spec (hI : VmInv h g maps lists s) (hm : m ∈ maps) (start size : Word) :
    ∃ s' g', vmMapRemove h s m start size = some (.success, s') ∧
      Removed h g g' maps lists m start (start+size)
        ((lists m).filter (vmDrops s start (start+size)))
        ((lists m).filter fun e => !vmDrops s start (start+size) e) s s' := by
  obtain ⟨stop, hstop⟩ : ∃ stop, stop = start+size := ⟨_, rfl⟩
  have hmap := hI.map m hm
  -- `done` is the part of the list that the loop has passed
  obtain ⟨body, hbody⟩ : ∃ body, body = vmRemoveEntry h m start stop := ⟨_, rfl⟩
  obtain ⟨I, hIdef⟩ : ∃ I : List EntryPtr → VmState → Prop, I = fun es s1 =>
      ∃ done g1, lists m = done ++ es ∧
        Removed h g g1 maps lists m start stop (done.filter (vmDrops s start stop))
          (done.filter (fun e => !vmDrops s start stop e) ++ es) s s1 := ⟨_, rfl⟩
  have hstep (e : EntryPtr) (es : List EntryPtr) (s1 : VmState) (hinv : I (e :: es) s1) :
      ∃ s' e', body e s1 = .ok (s', e') ∧ e' = (es ++ [EntryPtr.header m]).head (by simp) ∧
        I es s' := by
    rw [hIdef] at hinv
    obtain ⟨done, g1, hl, hR⟩ := hinv
    have hnd : (done ++ e :: es).Nodup := hl ▸ hmap.nodup
    have hedone : e ∉ done := fun hd => List.disjoint_of_nodup_append hnd hd List.mem_cons_self
    have hedrop : e ∉ done.filter (vmDrops s start stop) := fun hd =>
      hedone (List.mem_of_mem_filter hd)
    obtain ⟨hst, hsp⟩ := vmDrops_of_body (hR.body e hedrop)
    have hring := (hR.inv.map m hm).ring
    rw [Function.update_self] at hring
    have hnext : (s1.entries e).next = (es ++ [EntryPtr.header m]).head (by simp) :=
      hring.next_eq
    have htest : (stop ≤ (s1.entries e).start ∨ (s1.entries e).stop ≤ start) ↔
        vmDrops s start stop e = false := by
      rw [hst, hsp, vmDrops, Bool.not_eq_false', decide_eq_true_eq]
    rw [hIdef]
    by_cases hskip : stop ≤ (s1.entries e).start ∨ (s1.entries e).stop ≤ start
    · refine ⟨s1, (s1.entries e).next, ?_, hnext, done ++ [e], g1, by simp [hl], ?_⟩
      · rw [hbody]
        exact if_pos hskip
      · have hk := htest.mp hskip
        simpa [List.filter_append, hk] using hR
    · have hk : vmDrops s start stop e = true := by
        rw [← Bool.not_eq_false]
        exact fun hc => hskip (htest.mpr hc)
      obtain ⟨s2, g2, hrun, hR2⟩ := hR.step hm hedrop
      refine ⟨vmMapDropEntry s2 m e, (s1.entries e).next, ?_, hnext, done ++ [e], g2, by simp [hl], ?_⟩
      · rw [hbody]
        refine (if_neg hskip).trans ?_
        rw [hrun]
      · simpa [List.filter_append, hk] using hR2
  obtain ⟨r, hr, s', rfl, hend⟩ := forNodes_chain (.header m) body I
    (fun r => ∃ s', r = .ok s' ∧ I [] s') (fun e es s1 _ hinv => Or.inl (hstep e es s1 hinv))
    (fun s1 hinv => ⟨s1, rfl, hinv⟩) addrFuel (lists m) s (hI.length_le hm) hmap.not_header
    (hIdef ▸ ⟨[], g, rfl, Removed.refl hI⟩)
  rw [hIdef] at hend
  obtain ⟨done, g', hl, hR⟩ := hend
  rw [List.append_nil] at hl hR
  refine ⟨s', g', ?_, hstop ▸ hl ▸ hR⟩
  rw [vmMapRemove_eq, ← hstop, ← hbody, hmap.ring.next_sentinel, hr]

end Remove

section Range
variable {map : VmMap} {start size : Word}

/-- What the range checks accept: a range that does not wrap and lies inside the bounds. -/
theorem vmRangeOk_iff : vmRangeOk map start size = true ↔ 0 < size.toNat ∧
    map.minOffset.toNat ≤ start.toNat ∧ start.toNat+size.toNat ≤ map.maxOffset.toNat := by
  have hmax := map.maxOffset.isLt
  have hst := start.isLt
  have hsz := size.isLt
  have hzero : size = 0 ↔ size.toNat = 0 :=
    ⟨fun hz => congrArg BitVec.toNat hz, fun hz => BitVec.eq_of_toNat_eq hz⟩
  simp only [vmRangeOk, Bool.and_eq_true, Bool.not_eq_true', decide_eq_false_iff_not, not_or, hzero,
    BitVec.lt_def, BitVec.toNat_add]
  omega

theorem vmRange_stop (hok : vmRangeOk map start size = true) :
    (start+size).toNat = start.toNat+size.toNat := by
  obtain ⟨_, _, h⟩ := vmRangeOk_iff.mp hok
  have := map.maxOffset.isLt
  rw [BitVec.toNat_add]
  omega

end Range

section Calls
variable {h : Hhdm} {g g1 : VmGhost} {maps : Set VmMapPtr} {lists : VmMapPtr → List EntryPtr}
  {s s1 : VmState} {m : VmMapPtr} {start size : Word}

theorem VmInv.stop_le (hI : VmInv h g maps lists s) (hm : m ∈ maps)
    (hok : vmRangeOk (s.maps m) start size = true) : (start+size).toNat ≤ 2^47 := by
  obtain ⟨_, _, hle⟩ := vmRangeOk_iff.mp hok
  rw [(hI.user m hm).2] at hle
  have hmax : userMapMax.toNat = 2^47-1 := rfl
  rw [vmRange_stop hok]
  omega

/-- The map `m` after `vm_map_remove` of `[start, stop)`. -/
def RemovedFrom (h : Hhdm) (g g' : VmGhost) (maps : Set VmMapPtr)
    (lists : VmMapPtr → List EntryPtr) (m : VmMapPtr) (start stop : Word) (s s' : VmState) : Prop :=
  Removed h g g' maps lists m start stop ((lists m).filter (vmDrops s start stop))
    ((lists m).filter fun e => !vmDrops s start stop e) s s'

/-- `vm_map_page_range` maps all pages of the range; or it maps those before `a`, and then
drops the entries over these. -/
theorem vmMapPageRange_spec (hI : VmInv h g maps lists s) (hm : m ∈ maps) (start size : Word)
    (prot : BitVec 32) :
    (vmRangeOk (s.maps m) start size = false ∧
      vmMapPageRange h s m start size prot = some (.invalidArgument, s)) ∨
    vmRangeOk (s.maps m) start size = true ∧ ∃ own' pm' data',
      VmInv h { g with own := own' } maps lists { s with pm := pm', data := data' } ∧
      ((vmMapPageRange h s m start size prot =
          some (.success, { s with pm := pm', data := data' }) ∧
        framesFor h s.pm (s.maps m).pmap (pageAddrs start (start+size)) ≤
          s.pm.kmem.pmm.frames.card ∧
        MappedIn h g.live (s.maps m).pmap (protToPte prot) (pageAddrs start (start+size)) g.own
          own' s.pm pm' s.data data') ∨
      ∃ done a rest s' g', pageAddrs start (start+size) = done ++ a :: rest ∧
        FramesEnd h s.pm (s.maps m).pmap done a ∧
        vmMapPageRange h s m start size prot = some (.noSpace, s') ∧
        MappedIn h g.live (s.maps m).pmap (protToPte prot) done g.own own' s.pm pm' s.data data' ∧
        RemovedFrom h { g with own := own' } g' maps lists m start (start+(a-start))
          { s with pm := pm', data := data' } s') := by
  by_cases hok : vmRangeOk (s.maps m) start size = true
  swap
  · rw [Bool.not_eq_true] at hok
    exact Or.inl ⟨hok, by rw [vmMapPageRange, hok]; rfl⟩
  obtain ⟨own', pm', data', hmem, hres⟩ :=
    vmPagesIn_fits hI.mem (hI.pmap m hm) (hI.stop_le hm hok) start (protToPte prot)
  have hI1 := hI.with_mem hmem
  refine Or.inr ⟨hok, own', pm', data', hI1, ?_⟩
  rcases hres with ⟨hrun, hfit, hmap⟩ | ⟨done, a, rest, hsplit, hend, hrun, hmap⟩
  · refine Or.inl ⟨?_, hfit, hmap⟩
    rw [vmMapPageRange, hok, hrun]
    rfl
  · obtain ⟨s', g', hrem, hR⟩ := vmMapRemove_spec hI1 hm start (a-start)
    refine Or.inr ⟨done, a, rest, s', g', hsplit, hend, ?_, hmap, hR⟩
    rw [vmMapPageRange, hok, hrun]
    change (vmMapRemove h _ m start (a-start)).map _ = _
    rw [hrem]
    rfl

/-- The place of an entry that starts at `start` in a list. -/
def vmPlace (s : VmState) (start : Word) (n : EntryPtr) (l : List EntryPtr) : List EntryPtr :=
  l.takeWhile (fun e => decide (s.startOf e < start.toNat)) ++
    n :: l.dropWhile fun e => decide (s.startOf e < start.toNat)

theorem zalloc_fail (s : VmState) {z : ℕ} {e : Word} {zone : Zone} {k : Kmem}
    (ha : zalloc h (s.zoneStore.zones z) s.pm.kmem = (e, zone, k))
    (hz : zone = s.zoneStore.zones z) (hk : k = s.pm.kmem) : s.zalloc h z = (e, s) := by
  subst hz hk
  unfold VmState.zalloc
  rw [ha]
  simp only [ZoneStore.set, Function.update_eq_self]

/-- `zalloc(vm_map_entry_zone)` fails and changes nothing, or gives an entry that is in no
list. -/
theorem vmMapEntryAlloc_spec (hI : VmInv h g maps lists s) :
    vmMapEntryAlloc h s = (0, s) ∨
    ∃ a pm' store' g', vmMapEntryAlloc h s =
        (a, ({ s with pm := pm', zoneStore := store' } : VmState).setEntry (.elem a)
          vmMapEntryZero) ∧
      a ≠ 0 ∧ a ∉ g.elems s.vmMapEntryZone ∧ store'.zoneCount = s.zoneStore.zoneCount ∧
      g'.live = g.live ∧
      g'.elems = Function.update g.elems s.vmMapEntryZone (insert a (g.elems s.vmMapEntryZone)) ∧
      pm'.pmaps = s.pm.pmaps ∧ VmMemInv h g' pm' store' s.data ∧
      Kept h g.live g.own g'.own s.pm pm' s.data := by
  obtain ⟨a, zone, k, ha⟩ : ∃ a zone k,
    zalloc h (s.zoneStore.zones s.vmMapEntryZone) s.pm.kmem = (a, zone, k) := ⟨_, _, _, rfl⟩
  rcases hI.mem.zalloc hI.entryZone ha with ⟨rfl, hz, hk⟩ |
    ⟨hne, hnew, own', pages', hmem, hkept⟩
  · left
    rw [vmMapEntryAlloc, zalloc_fail s ha hz hk]
    rfl
  · refine Or.inr ⟨a, { s.pm with kmem := k }, s.zoneStore.set s.vmMapEntryZone zone,
      ⟨own', g.live, pages', Function.update g.elems s.vmMapEntryZone
        (insert a (g.elems s.vmMapEntryZone))⟩, ?_, hne, hnew, rfl, rfl, rfl, rfl, hmem, hkept⟩
    rw [vmMapEntryAlloc, VmState.zalloc, ha]
    exact if_neg hne

theorem vmPlace_congr {l : List EntryPtr} (n : EntryPtr)
    (hs : ∀ e ∈ l, s1.startOf e = s.startOf e) : vmPlace s1 start n l = vmPlace s start n l := by
  induction l with
  | nil => rfl
  | cons e l ih =>
    have he := hs e List.mem_cons_self
    have hl := ih fun x hx => hs x (List.mem_cons_of_mem _ hx)
    unfold vmPlace at hl ⊢
    by_cases hc : s.startOf e < start.toNat <;> simp_all

theorem mem_vmPlace {n x : EntryPtr} {l : List EntryPtr} :
    x ∈ vmPlace s start n l ↔ x = n ∨ x ∈ l := by
  have hsplit := List.takeWhile_append_dropWhile (p := fun e => decide (s.startOf e < start.toNat))
    (l := l)
  rw [vmPlace, List.mem_append, List.mem_cons, ← or_assoc, or_comm (a := x ∈ _), or_assoc,
    ← List.mem_append, hsplit]

/-- The map `m` with a new entry at `.elem a`, which maps nothing yet. -/
structure Entered (h : Hhdm) (g g' : VmGhost) (maps : Set VmMapPtr)
    (lists : VmMapPtr → List EntryPtr) (m : VmMapPtr) (a start : Word)
    (v : Word × BitVec 32 × BitVec 32 × BitVec 32) (s s' : VmState) : Prop where
  inv : VmInv h g' maps (Function.update lists m (vmPlace s start (.elem a) (lists m))) s'
  quiet : VmQuiet h g g' s s'
  new : EntryPtr.elem a ∉ lists m
  body : s'.body = Function.update s.body (.elem a) (start, v)

/-- The entry that `vm_map_enter` fills in and links. -/
def vmMapLink (s : VmState) (map : VmMapPtr) (ne pos : EntryPtr) : VmState :=
  let s := mapListInsertAfter s pos ne
  s.setMap map { s.maps map with nentries := (s.maps map).nentries+1 }

/-- An element that the zone has not handed out is in no list. -/
theorem VmInv.fresh_not_mem (hI : VmInv h g maps lists s) {a : Word}
    (hnew : a ∉ g.elems s.vmMapEntryZone) (hm : m ∈ maps) :
    EntryPtr.elem a ∉ EntryPtr.header m :: lists m := by
  intro hc
  rcases List.mem_cons.mp hc with hc | hc
  · cases hc
  · obtain ⟨b, hb, hab⟩ := hI.entry m hm _ hc
    exact hnew (EntryPtr.elem.inj hab ▸ hb)

/-- The entry, once it is filled in, goes to its place in the list of its map. -/
theorem VmInv.placed (hI : VmInv h g maps lists s) (hm : m ∈ maps)
    (hok : vmRangeOk (s.maps m) start size = true)
    (hfree : ∀ e ∈ lists m, ¬ Meets s.startOf s.stopOf start.toNat (start+size).toNat e)
    {a : Word} (hnew : a ∉ g.elems s.vmMapEntryZone)
    (hentries : ∀ x, x ≠ .elem a → s1.entries x = s.entries x) (hmaps : s1.maps = s.maps)
    (hstn : s1.startOf (.elem a) = start.toNat) (hspn : s1.stopOf (.elem a) = (start+size).toNat) :
    ∃ pos, vmMapFindPos s1 m start = some pos ∧ pos ∈ EntryPtr.header m :: lists m ∧
      s1.next pos ∈ EntryPtr.header m :: lists m ∧
      VmMapInv (vmMapLink s1 m (.elem a) pos) m (vmPlace s start (.elem a) (lists m)) := by
  have hout := hI.fresh_not_mem hnew hm
  have hmap : VmMapInv s1 m (lists m) := (hI.map m hm).congr (congrFun hmaps m) fun x hx =>
    hentries x fun hc => hout (hc ▸ hx)
  have hin (x : EntryPtr) (hx : x ∈ lists m) : s1.entries x = s.entries x :=
    hentries x fun hc => hout (hc ▸ List.mem_cons_of_mem _ hx)
  have hst (x : EntryPtr) (hx : x ∈ lists m) : s1.startOf x = s.startOf x := by
    rw [VmState.startOf, hin x hx]
    rfl
  have hsp (x : EntryPtr) (hx : x ∈ lists m) : s1.stopOf x = s.stopOf x := by
    rw [VmState.stopOf, hin x hx]
    rfl
  obtain ⟨hpos, hmin, hmax⟩ := vmRangeOk_iff.mp hok
  have hsum := vmRange_stop hok
  -- the search stops at the last entry that starts below `start`
  obtain ⟨pos, hposdef⟩ : ∃ pos, pos =
    (EntryPtr.header m :: (lists m).takeWhile fun x =>
      decide (s1.startOf x < s1.startOf (.elem a))).getLast (by simp) := ⟨_, rfl⟩
  have hfind : vmMapFindPos s1 m start = some pos := by
    rw [hmap.findPos (hI.length_le hm), hposdef]
    simp only [hstn]
    rfl
  have hposmem : pos ∈ EntryPtr.header m :: lists m := by
    rw [hposdef]
    exact List.cons_subset_cons _ (List.takeWhile_subset _) (List.getLast_mem _)
  have hinv := hmap.insert (c := (s1.maps m).nentries+1) hout (by rw [hstn, hspn]; omega)
    (by rw [hmaps, hstn]; exact hmin) (by rw [hmaps, hspn, hsum]; exact hmax)
    (fun x hx => by
      rw [Meets, hst x hx, hsp x hx, hstn, hspn]
      exact hfree x hx) hposdef rfl
  rw [hstn] at hinv
  refine ⟨pos, hfind, hposmem, hmap.ring.next_mem hposmem, ?_⟩
  rw [← vmPlace_congr _ hst]
  exact hinv

/-- A range that meets no entry gets one. -/
theorem VmInv.enter (hI : VmInv h g maps lists s) (hm : m ∈ maps)
    (hok : vmRangeOk (s.maps m) start size = true)
    (hfree : ∀ e ∈ lists m, ¬ Meets s.startOf s.stopOf start.toNat (start+size).toNat e)
    {a : Word} {pm' : PmapState} {store' : ZoneStore} {g' : VmGhost} {v : VmMapEntry}
    (hnew : a ∉ g.elems s.vmMapEntryZone) (hcount : store'.zoneCount = s.zoneStore.zoneCount)
    (hlive : g'.live = g.live)
    (helems : g'.elems =
      Function.update g.elems s.vmMapEntryZone (insert a (g.elems s.vmMapEntryZone)))
    (hpmaps : pm'.pmaps = s.pm.pmaps) (hmem : VmMemInv h g' pm' store' s.data)
    (hkept : Kept h g.live g.own g'.own s.pm pm' s.data)
    (hstart : v.start = start) (hstop : v.stop = start+size)
    (hs1 : s1 = ({ s with pm := pm', zoneStore := store' } : VmState).setEntry (.elem a) v) :
    ∃ pos, vmMapFindPos s1 m start = some pos ∧
      Entered h g g' maps lists m a start (start+size, v.prot, v.maxProt, v.flags) s
        (vmMapLink s1 m (.elem a) pos) := by
  have hout (m' : VmMapPtr) (hm' : m' ∈ maps) : EntryPtr.elem a ∉ EntryPtr.header m' :: lists m' :=
    hI.fresh_not_mem hnew hm'
  have hentries (x : EntryPtr) (hx : x ≠ .elem a) : s1.entries x = s.entries x := by
    rw [hs1]
    exact Function.update_of_ne hx _ _
  have hself : s1.entries (.elem a) = v := by
    rw [hs1]
    exact Function.update_self _ _ _
  have hmaps : s1.maps = s.maps := by rw [hs1]; rfl
  obtain ⟨pos, hfind, hposmem, hnextmem, hinv⟩ := hI.placed hm hok hfree hnew hentries hmaps
    (by rw [VmState.startOf, hself, hstart]) (by rw [VmState.stopOf, hself, hstop])
  refine ⟨pos, hfind, ?_, ⟨hlive, ?_, ?_, ?_, ?_, ?_⟩,
    fun hc => hout m hm (List.mem_cons_of_mem _ hc), ?_⟩
  · have hlink : (vmMapLink s1 m (.elem a) pos).pm = pm' ∧
        (vmMapLink s1 m (.elem a) pos).zoneStore = store' ∧
        (vmMapLink s1 m (.elem a) pos).data = s.data := by
      rw [hs1]
      exact ⟨rfl, rfl, rfl⟩
    obtain ⟨hpm, hstore, hdata⟩ := hlink
    refine hI.relist (by rw [hpm, hstore, hdata]; exact hmem) hlive ?_ ?_
      (by rw [hstore]; exact hcount) (fun m' => ?_) (fun m' hm' hmm => ⟨?_, fun x hx => ?_⟩) hinv
      (fun b hb => ?_) (fun m' _ _ e _ b _ hb => ?_) (fun e he => ?_) fun m' hm' hmm e he => ?_
    · rw [hs1]
      rfl
    · rw [hs1]
      rfl
    · rw [← hmaps]
      exact setMap_nentries_fixed s1 m m' _
    · rw [← hmaps]
      exact Function.update_of_ne hmm _ _
    · -- the nodes of another map are neither the new entry nor its neighbours
      have hxa : x ≠ .elem a := fun hc => hout m' hm' (hc ▸ hx)
      have hxp : x ≠ pos := fun hc => hI.disjoint hm hm' hmm hposmem (hc ▸ hx)
      have hxn : x ≠ s1.next pos := fun hc => hI.disjoint hm hm' hmm hnextmem (hc ▸ hx)
      exact (mapListInsertAfter_other s1 pos _ hxa hxp hxn).trans (hentries x hxa)
    · rw [helems, Function.update_of_ne hI.zones]
      exact hb
    · rw [helems, Function.update_self]
      exact Set.mem_insert_of_mem _ hb
    · rw [helems, Function.update_self]
      rcases mem_vmPlace.mp he with rfl | he
      · exact ⟨a, Set.mem_insert _ _, rfl⟩
      · obtain ⟨b, hb, rfl⟩ := hI.entry m hm e he
        exact ⟨b, Set.mem_insert_of_mem _ hb, rfl⟩
    · rcases mem_vmPlace.mp he with rfl | he
      · exact fun hc => hout m' hm' (List.mem_cons_of_mem _ hc)
      · exact hI.apart m hm m' hm' (Ne.symm hmm) e he
  · rw [hs1]
    rfl
  · rw [hs1]
    exact hpmaps
  · rw [hs1]
    exact hkept
  · rw [hs1]
    rfl
  · intro m'
    rw [← hmaps]
    exact setMap_nentries_fixed s1 m m' _
  · refine (mapListInsertAfter_body s1 pos (.elem a)).trans ?_
    rw [hs1, setEntry_body, VmMapEntry.body, hstart, hstop]
    rfl

/-- `vm_map_enter` of a range that it accepts, after the search of the list. -/
theorem vmMapEnter_eq {prot maxProt flags : BitVec 32} {e : EntryPtr}
    (hok : vmRangeOk (s.maps m) start size = true)
    (hfind : (vmMapFind s m fun v => decide (start < v.stop ∧ v.start < start+size)) = some e) :
    vmMapEnter h s m start size prot maxProt flags =
      if e ≠ .header m then some (.noSpace, s)
      else
        let (a, s) := vmMapEntryAlloc h s
        if a = 0 then some (.noSpace, s)
        else
          let ne := EntryPtr.elem a
          let s := s.setEntry ne { s.entries ne with
            start := start, stop := start+size, prot := prot, maxProt := maxProt, flags := flags }
          (vmMapFindPos s m start).bind fun pos =>
          let s := vmMapLink s m ne pos
          if flags &&& vmeWired ≠ 0 then
            (vmPagesIn h (s.maps m).pmap (protToPte prot) (start+size) start s).bind fun
            | .ok s => some (.success, s)
            | .error (_, s) => (vmMapRemove h s m start size).map fun r => (.noSpace, r.2)
          else some (.success, s) := by
  rw [vmMapEnter, hok]
  dsimp only [Bool.not_true, Bool.false_eq_true, if_false]
  rw [hfind]
  rfl

/-- `vm_map_enter` rejects the range; finds it taken; has no entry to give; or makes an
entry, and then maps its pages or drops what overlaps the range again. -/
theorem vmMapEnter_spec (hI : VmInv h g maps lists s) (hm : m ∈ maps) (start size : Word)
    (prot maxProt flags : BitVec 32) :
    (vmRangeOk (s.maps m) start size = false ∧
      vmMapEnter h s m start size prot maxProt flags = some (.invalidArgument, s)) ∨
    vmRangeOk (s.maps m) start size = true ∧
      (vmMapEnter h s m start size prot maxProt flags = some (.noSpace, s) ∨
      ∃ a s1 g1, Entered h g g1 maps lists m a start (start+size, prot, maxProt, flags) s s1 ∧
        ((vmMapEntryAlloc h s).1 ≠ 0 ∧ s1.pm = (vmMapEntryAlloc h s).2.pm) ∧
        (flags &&& vmeWired = 0 ∧
          vmMapEnter h s m start size prot maxProt flags = some (.success, s1) ∨
        flags &&& vmeWired ≠ 0 ∧ ∃ own' pm' data',
          VmInv h { g1 with own := own' } maps
            (Function.update lists m (vmPlace s start (.elem a) (lists m)))
            { s1 with pm := pm', data := data' } ∧
          ((vmMapEnter h s m start size prot maxProt flags =
              some (.success, { s1 with pm := pm', data := data' }) ∧
            framesFor h s1.pm (s.maps m).pmap (pageAddrs start (start+size)) ≤
              s1.pm.kmem.pmm.frames.card ∧
            MappedIn h g1.live (s.maps m).pmap (protToPte prot) (pageAddrs start (start+size))
              g1.own own' s1.pm pm' s1.data data') ∨
          ∃ done b rest s' g', pageAddrs start (start+size) = done ++ b :: rest ∧
            FramesEnd h s1.pm (s.maps m).pmap done b ∧
            vmMapEnter h s m start size prot maxProt flags = some (.noSpace, s') ∧
            MappedIn h g1.live (s.maps m).pmap (protToPte prot) done g1.own own' s1.pm pm'
              s1.data data' ∧
            RemovedFrom h { g1 with own := own' } g' maps
              (Function.update lists m (vmPlace s start (.elem a) (lists m))) m start (start+size)
              { s1 with pm := pm', data := data' } s'))) := by
  by_cases hok : vmRangeOk (s.maps m) start size = true
  swap
  · rw [Bool.not_eq_true] at hok
    exact Or.inl ⟨hok, by rw [vmMapEnter, hok]; rfl⟩
  refine Or.inr ⟨hok, ?_⟩
  have hmap := hI.map m hm
  obtain ⟨r, hr⟩ : ∃ r, r = (lists m).find? fun e =>
    decide (start < (s.entries e).stop ∧ (s.entries e).start < start+size) := ⟨_, rfl⟩
  have hfind := hmap.find (hI.length_le hm) fun v =>
    decide (start < v.stop ∧ v.start < start+size)
  rw [← hr] at hfind
  rw [vmMapEnter_eq hok hfind]
  cases hrc : r with
  | some e =>
    left
    have hmem : e ∈ lists m := List.mem_of_find?_eq_some (hr.symm.trans hrc)
    have hne : e ≠ .header m := fun hc => hmap.not_header (hc ▸ hmem)
    rw [Option.getD_some, if_pos hne]
  | none =>
    have hfree : ∀ e ∈ lists m, ¬ Meets s.startOf s.stopOf start.toNat (start+size).toNat e := by
      intro e he hmeets
      refine List.find?_eq_none.mp (hr.symm.trans hrc) e he ?_
      rw [decide_eq_true_eq, BitVec.lt_def, BitVec.lt_def]
      exact hmeets
    rw [Option.getD_none, if_neg (not_not.mpr rfl)]
    rcases vmMapEntryAlloc_spec hI with hfail | ⟨a, pm1, store1, g1, halloc, hne, hnew, hcount,
      hlive, helems, hpmaps, hmem, hkept⟩
    · left
      rw [hfail]
      rfl
    obtain ⟨pos, hpos, hent⟩ := hI.enter hm hok hfree
      (v := { vmMapEntryZero with
        start := start, stop := start+size, prot := prot, maxProt := maxProt, flags := flags })
      hnew hcount hlive helems hpmaps hmem hkept rfl rfl rfl
    right
    refine ⟨a, _, g1, hent, by rw [halloc]; exact ⟨hne, rfl⟩, ?_⟩
    rw [halloc]
    dsimp only
    rw [if_neg hne, setEntry_entries, setEntry_setEntry, hpos, Option.bind_some]
    generalize vmMapLink _ m (.elem a) pos = s2 at hent ⊢
    by_cases hw : flags &&& vmeWired = 0
    · left
      exact ⟨hw, if_neg (not_not.mpr hw)⟩
    right
    rw [if_pos hw]
    have hpmap : (s2.maps m).pmap = (s.maps m).pmap :=
      congrArg (fun v : Word × Word × BitVec 32 × PmapPtr => v.2.2.2) (hent.quiet.fixed m)
    have hplive : (s.maps m).pmap ∈ g1.live := hpmap ▸ hent.inv.pmap m hm
    obtain ⟨own', pm', data', hmem', hres⟩ := vmPagesIn_fits hent.inv.mem hplive
      (hI.stop_le hm hok) start (protToPte prot)
    have hI2 := hent.inv.with_mem hmem'
    refine ⟨hw, own', pm', data', hI2, ?_⟩
    rcases hres with ⟨hin, hfit, hmapped⟩ | ⟨done, b, rest, hsplit, hend, hin, hmapped⟩
    · refine Or.inl ⟨?_, hfit, hmapped⟩
      rw [hpmap, hin]
      rfl
    · -- out of frames: the new entry goes, and what else overlaps the range
      obtain ⟨s', g', hrem, hR⟩ := vmMapRemove_spec hI2 hm start size
      refine Or.inr ⟨done, b, rest, s', g', hsplit, hend, ?_, hmapped, hR⟩
      rw [hpmap, hin]
      change (vmMapRemove h _ m start size).map _ = _
      rw [hrem]
      rfl

/-- The address of the page of `addr`. -/
def vmPageAddr (addr : Word) : Word := addr &&& ~~~(pmmPageSize-1)

theorem vmPageAddr_toNat (addr : Word) : (vmPageAddr addr).toNat = 4096*(addr.toNat/4096) :=
  toNat_pageMask addr

theorem pageOf_vmPageAddr (addr : Word) : pageOf (vmPageAddr addr) = pageOf addr := by
  rw [pageOf_eq, pageOf_eq, vmPageAddr_toNat]
  omega

/-- What `vm_fault` does where the lookup finds an entry. -/
theorem vmFault_found {e : EntryPtr} {addr : Word} (faultType : BitVec 32)
    (hq : ¬ pmapQuery h s.pm (s.maps m).pmap (vmPageAddr addr) ≠ 0)
    (hlookup : vmMapLookupEntry s m addr = some (some e)) : vmFault h s m addr faultType = some
      (if faultType = vmFaultWrite ∧ (s.entries e).prot &&& vmProtWrite = 0 then (.protection, s)
      else if faultType = vmFaultExecute ∧ (s.entries e).prot &&& vmProtExecute = 0 then
        (.protection, s)
      else
        match vmPageIn h s (s.maps m).pmap (vmPageAddr addr) (protToPte (s.entries e).prot) with
        | (true, s) => (.success, s)
        | (false, s) => (.oom, s)) := by
  refine (if_neg hq).trans ?_
  rw [hlookup]
  rfl

/-- `vm_fault` finds the page mapped, or no entry, or an entry that forbids the access; or it
maps the page of an address in an entry, if there are frames. -/
theorem vmFault_cases (hI : VmInv h g maps lists s) (hm : m ∈ maps) (addr : Word)
    (faultType : BitVec 32) :
    (pmapQuery h s.pm (s.maps m).pmap (vmPageAddr addr) ≠ 0 ∧
      vmFault h s m addr faultType = some (.success, s)) ∨
    pmapQuery h s.pm (s.maps m).pmap (vmPageAddr addr) = 0 ∧
    ((∀ e ∈ lists m, ¬ (s.startOf e ≤ addr.toNat ∧ addr.toNat < s.stopOf e)) ∧
        vmFault h s m addr faultType = some (.badAddress, s) ∨
      ∃ e ∈ lists m, s.startOf e ≤ addr.toNat ∧ addr.toNat < s.stopOf e ∧ UserVa addr ∧
      ((faultType = vmFaultWrite ∧ (s.entries e).prot &&& vmProtWrite = 0 ∨
          faultType = vmFaultExecute ∧ (s.entries e).prot &&& vmProtExecute = 0) ∧
          vmFault h s m addr faultType = some (.protection, s) ∨
        ¬ (faultType = vmFaultWrite ∧ (s.entries e).prot &&& vmProtWrite = 0 ∨
          faultType = vmFaultExecute ∧ (s.entries e).prot &&& vmProtExecute = 0) ∧
          vmFault h s m addr faultType = some
            (match vmPageIn h s (s.maps m).pmap (vmPageAddr addr) (protToPte (s.entries e).prot) with
            | (true, s) => (.success, s)
            | (false, s) => (.oom, s)))) := by
  have hlookup := (hI.map m hm).lookup (hI.length_le hm) addr
  obtain ⟨r, hr⟩ : ∃ r, r = (lists m).find? fun e =>
    decide ((s.entries e).start ≤ addr ∧ addr < (s.entries e).stop) := ⟨_, rfl⟩
  rw [← hr] at hlookup
  by_cases hq : pmapQuery h s.pm (s.maps m).pmap (vmPageAddr addr) ≠ 0
  · exact Or.inl ⟨hq, if_pos hq⟩
  refine Or.inr ⟨not_not.mp hq, ?_⟩
  cases hrc : r with
  | none =>
    refine Or.inl ⟨fun e he hc => ?_, (if_neg hq).trans ?_⟩
    · refine List.find?_eq_none.mp (hr.symm.trans hrc) e he ?_
      rw [decide_eq_true_eq, BitVec.le_def, BitVec.lt_def]
      exact hc
    · rw [hlookup, hrc]
      rfl
  | some e =>
    have hmem : e ∈ lists m := List.mem_of_find?_eq_some (hr.symm.trans hrc)
    have hin := List.find?_some (hr.symm.trans hrc)
    rw [decide_eq_true_eq, BitVec.le_def, BitVec.lt_def] at hin
    have hva : UserVa addr := by
      have hstop := ((hI.map m hm).inside e hmem).2
      have hmax : userMapMax.toNat = 2^47-1 := rfl
      rw [(hI.user m hm).2, hmax, VmState.stopOf] at hstop
      rw [UserVa]
      omega
    refine Or.inr ⟨e, hmem, hin.1, hin.2, hva, ?_⟩
    rw [vmFault_found faultType hq (by rw [hlookup, hrc])]
    by_cases hw : faultType = vmFaultWrite ∧ (s.entries e).prot &&& vmProtWrite = 0
    · exact Or.inl ⟨Or.inl hw, by rw [if_pos hw]⟩
    by_cases hx : faultType = vmFaultExecute ∧ (s.entries e).prot &&& vmProtExecute = 0
    · exact Or.inl ⟨Or.inr hx, by rw [if_neg hw, if_pos hx]⟩
    · exact Or.inr ⟨not_or.mpr ⟨hw, hx⟩, by rw [if_neg hw, if_neg hx]⟩

theorem UserVa.pageAddr {addr : Word} (hva : UserVa addr) : UserVa (vmPageAddr addr) := by
  have hlt : addr.toNat < 2^47 := hva
  rw [UserVa, vmPageAddr_toNat]
  omega

/-- `vm_fault` answers and changes nothing; or it maps the page of an address in an entry, if
there are frames. -/
theorem vmFault_spec (hI : VmInv h g maps lists s) (hm : m ∈ maps) (addr : Word)
    (faultType : BitVec 32) :
    (∃ r, vmFault h s m addr faultType = some (r, s)) ∨
    ∃ e ∈ lists m, s.startOf e ≤ addr.toNat ∧ addr.toNat < s.stopOf e ∧ ∃ own' pm' data' r as,
      VmInv h { g with own := own' } maps lists { s with pm := pm', data := data' } ∧
      vmFault h s m addr faultType = some (r, { s with pm := pm', data := data' }) ∧
      (r = .oom ∧ as = [] ∨ r = .success ∧ as = [vmPageAddr addr]) ∧
      MappedIn h g.live (s.maps m).pmap (protToPte (s.entries e).prot) as g.own own' s.pm pm'
        s.data data' := by
  rcases vmFault_cases hI hm addr faultType with ⟨_, hrun⟩ | ⟨_, ⟨_, hrun⟩ |
    ⟨e, hmem, h1, h2, hva, ⟨_, hrun⟩ | ⟨_, hrun⟩⟩⟩
  · exact Or.inl ⟨_, hrun⟩
  · exact Or.inl ⟨_, hrun⟩
  · exact Or.inl ⟨_, hrun⟩
  obtain ⟨own', pm', data', hmem', hpg, hres⟩ := vmPageIn_spec hI.mem (hI.pmap m hm) hva.pageAddr
    (protToPte (s.entries e).prot)
  have hI' := hI.with_mem hmem'
  refine Or.inr ⟨e, hmem, h1, h2, own', pm', data', ?_⟩
  rw [hrun]
  rcases hres with ⟨hin', hd, hsame⟩ | ⟨pa, hin', hd, hfree, hpa, hset⟩
  · refine ⟨.oom, [], hI', ?_, Or.inl ⟨rfl, rfl⟩, MappedIn.same (hI.pmap m hm) hpg hd hsame⟩
    rw [hin']
  · refine ⟨.success, [vmPageAddr addr], hI', ?_, Or.inr ⟨rfl, rfl⟩, ?_⟩
    · rw [hin']
    · subst hd
      exact MappedIn.refl.cons (hI.pmap m hm) hva.pageAddr hpg hpa
        (fun hn => hI.mem.data_used hn hfree) hset

end Calls

end Dana
