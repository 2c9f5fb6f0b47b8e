import Dana.Transition
import Dana.VmCreate

/-! Runs of the calls on user maps: maps are made, and every call on any of them may come at
any time, as may a write through a page that is mapped. -/
namespace Dana
open ByteMem RadixTree LinkedRing IntervalList Transition

/-- A call on a map, with its other arguments. -/
inductive VmCall
  | enter (start size : Word) (prot maxProt flags : BitVec 32)
  | remove (start size : Word)
  | deallocate (start size : Word)
  | pageRange (start size : Word) (prot : BitVec 32)
  | fault (addr : Word) (faultType : BitVec 32)

/-- The state a call leaves; `none` when it does not return. -/
def VmCall.run (h : Hhdm) (s : VmState) (m : VmMapPtr) : VmCall → Option VmState
  | .enter start size prot maxProt flags =>
    (vmMapEnter h s m start size prot maxProt flags).map Prod.snd
  | .remove start size => (vmMapRemove h s m start size).map Prod.snd
  | .deallocate start size => (vmDeallocate h s m start size).map Prod.snd
  | .pageRange start size prot => (vmMapPageRange h s m start size prot).map Prod.snd
  | .fault addr faultType => (vmFault h s m addr faultType).map Prod.snd

/-- What a call on the map `m` can have done: it works on its list, its pmap and its pages. -/
structure Called (h : Hhdm) (g g' : VmGhost) (maps : Set VmMapPtr)
    (lists lists' : VmMapPtr → List EntryPtr) (m : VmMapPtr) (s s' : VmState) : Prop where
  inv : VmInv h g' maps lists' s'
  live : g'.live = g.live
  paged : Paged h (s.maps m).pmap g.live g.own g'.own s.pm s'.pm s.data s'.data
  leaf : ∀ va e, UserVa va → pteOf h s'.pm (s.maps m).pmap va = some e →
    pteOf h s.pm (s.maps m).pmap va = some e ∨ pageOf (pteFrame e) ∉ s.data
  others : ∀ m', m' ≠ m → lists' m' = lists m'
  fixed : ∀ m', (s'.maps m').fixed = (s.maps m').fixed
  body : ∀ m' ∈ maps, m' ≠ m → ∀ e ∈ lists m', s'.body e = s.body e
  active : s'.active = s.active

section Called
variable {h : Hhdm} {g g' : VmGhost} {maps : Set VmMapPtr}
  {lists lists' : VmMapPtr → List EntryPtr} {s s' : VmState} {m : VmMapPtr}

theorem fixed_pmap {v v' : VmMap} (hf : v'.fixed = v.fixed) : v'.pmap = v.pmap :=
  congrArg (fun x : Word × Word × BitVec 32 × PmapPtr => x.2.2.2) hf

theorem Called.refl (hI : VmInv h g maps lists s) : Called h g g maps lists lists m s s :=
  ⟨hI, rfl, Paged.refl, fun _ _ _ he => Or.inl he, fun _ _ => rfl, fun _ => rfl,
    fun _ _ _ _ _ => rfl, rfl⟩

/-- Pages of the map have been mapped. -/
theorem MappedIn.called {own' : ℕ → Owner} {pm' : PmapState} {data' : List ℕ} {flags : Word}
    {as : List Word}
    (hI : VmInv h { g with own := own' } maps lists { s with pm := pm', data := data' })
    (hm : MappedIn h g.live (s.maps m).pmap flags as g.own own' s.pm pm' s.data data') :
    Called h g { g with own := own' } maps lists lists m s { s with pm := pm', data := data' } := by
  refine ⟨hI, rfl, hm.paged, fun va e hva he => ?_, fun _ _ => rfl, fun _ => rfl,
    fun _ _ _ _ _ => rfl, rfl⟩
  by_cases hin : ∃ a ∈ as, pageOf a = pageOf va
  · obtain ⟨pa, hpa, hnew, hpte⟩ := hm.mapped va hva hin
    obtain rfl := Option.some.inj (he.symm.trans hpte)
    right
    rwa [pteFrame_mapEntry hpa]
  · push Not at hin
    rw [hm.other va hva hin] at he
    exact Or.inl he

/-- An entry has been made. -/
theorem Entered.called {a start : Word} {v : Word × BitVec 32 × BitVec 32 × BitVec 32}
    (he : Entered h g g' maps lists m a start v s s') (hI : VmInv h g maps lists s) (hm : m ∈ maps) :
    Called h g g' maps lists (Function.update lists m (vmPlace s start (.elem a) (lists m))) m s s' := by
  have hlive := hI.pmap m hm
  have hpaged := he.quiet.kept.paged (p := (s.maps m).pmap) he.quiet.pmaps
  refine ⟨he.inv, he.quiet.live, he.quiet.data ▸ hpaged, fun va e hva hpte => ?_, fun m' hne =>
    Function.update_of_ne hne _ _, he.quiet.fixed, fun m' hm' hne x hx => ?_, he.quiet.active⟩
  · rw [pteOf, he.quiet.kept.same _ hlive _ _ (vaPath_path hva.lower) (vaPath_leaf va)] at hpte
    exact Or.inl hpte
  · rw [he.body, Function.update_of_ne]
    rintro rfl
    have hin : EntryPtr.elem a ∈ Function.update lists m (vmPlace s start (.elem a) (lists m)) m := by
      rw [Function.update_self]
      exact mem_vmPlace.mpr (Or.inl rfl)
    refine he.inv.apart m hm m' hm' (Ne.symm hne) _ hin ?_
    rw [Function.update_of_ne hne]
    exact hx

/-- A call, and then entries taken out with their pages. -/
theorem Called.removed {g1 : VmGhost} {s1 : VmState} {start stop : Word}
    {dropped kept : List EntryPtr} (hc : Called h g g1 maps lists lists' m s s1)
    (hm : m ∈ maps) (hd : ∀ e ∈ dropped, e ∈ lists' m)
    (hR : Removed h g1 g' maps lists' m start stop dropped kept s1 s') :
    Called h g g' maps lists (Function.update lists' m kept) m s s' := by
  have hp : (s1.maps m).pmap = (s.maps m).pmap := fixed_pmap (hc.fixed m)
  have hout := hR.out
  rw [hp, hc.live] at hout
  refine ⟨hR.inv, hR.live.trans hc.live, hc.paged.trans hout.paged, fun va e hva he => ?_,
    fun m' hne => ?_, fun m' => (hR.fixed m').trans (hc.fixed m'), fun m' hm' hne x hx => ?_,
    hR.active.trans hc.active⟩
  · refine hc.leaf va e hva ?_
    by_cases hin : ∃ a ∈ dropped.flatMap (vmDropAddrs s1 start stop), pageOf a = pageOf va
    · rw [hout.gone va hva hin] at he
      cases he
    · push Not at hin
      rwa [hout.other va hva hin] at he
  · rw [Function.update_of_ne hne, hc.others m' hne]
  · have hx' : x ∈ lists' m' := by rwa [hc.others m' hne]
    rw [hR.body x, hc.body m' hm' hne x hx]
    exact fun hxd => hc.inv.apart m hm m' hm' (Ne.symm hne) x (hd x hxd) hx'

theorem Called.trans_mapped {g1 : VmGhost} {s1 : VmState} {own' : ℕ → Owner} {pm' : PmapState}
    {data' : List ℕ} {flags : Word} {as : List Word}
    (hc : Called h g g1 maps lists lists' m s s1) (hdata : s1.data = s.data)
    (hI : VmInv h { g1 with own := own' } maps lists' { s1 with pm := pm', data := data' })
    (hmap : MappedIn h g1.live (s.maps m).pmap flags as g1.own own' s1.pm pm' s1.data data') :
    Called h g { g1 with own := own' } maps lists lists' m s
      { s1 with pm := pm', data := data' } := by
  have hp : (s1.maps m).pmap = (s.maps m).pmap := fixed_pmap (hc.fixed m)
  have hc2 := MappedIn.called hI (hp ▸ hmap)
  have hpaged := hc2.paged
  rw [hp, hc.live] at hpaged
  refine ⟨hI, hc.live, hc.paged.trans hpaged, fun va e hva he => ?_, hc.others, hc.fixed, hc.body,
    hc.active⟩
  rcases hc2.leaf va e hva (hp ▸ he) with h1 | h1
  · exact hc.leaf va e hva (hp ▸ h1)
  · exact Or.inr (hdata ▸ h1)

/-- Every call on a map returns, and works on this map only. -/
theorem VmCall.spec (hI : VmInv h g maps lists s) (hm : m ∈ maps) (c : VmCall) :
    ∃ s' g' lists', c.run h s m = some s' ∧ Called h g g' maps lists lists' m s s' := by
  have hrefl := Called.refl (m := m) hI
  have hremove (start size : Word) : ∃ s' g' lists',
      VmCall.run h s m (.remove start size) = some s' ∧ Called h g g' maps lists lists' m s s' := by
    obtain ⟨s', g', hrun, hR⟩ := vmMapRemove_spec hI hm start size
    refine ⟨s', g', _, ?_, hrefl.removed hm (fun e he => List.mem_of_mem_filter he) hR⟩
    rw [VmCall.run, hrun]
    rfl
  cases c with
  | remove start size => exact hremove start size
  | deallocate start size => exact hremove start size
  | enter start size prot maxProt flags =>
    rcases vmMapEnter_spec hI hm start size prot maxProt flags with ⟨_, hrun⟩ |
      ⟨hok, hrun | ⟨a, s1, g1, he, _, ⟨_, hrun⟩ | ⟨_, own', pm', data', hI', ⟨hrun, _, hmap⟩ |
        ⟨done, b, rest, s', g', _, _, hrun, hmap, hR⟩⟩⟩⟩
    · exact ⟨s, g, lists, by rw [VmCall.run, hrun]; rfl, hrefl⟩
    · exact ⟨s, g, lists, by rw [VmCall.run, hrun]; rfl, hrefl⟩
    · exact ⟨s1, g1, _, by rw [VmCall.run, hrun]; rfl, he.called hI hm⟩
    · exact ⟨_, _, _, by rw [VmCall.run, hrun]; rfl,
        (he.called hI hm).trans_mapped he.quiet.data hI' hmap⟩
    · exact ⟨s', g', _, by rw [VmCall.run, hrun]; rfl,
        ((he.called hI hm).trans_mapped he.quiet.data hI' hmap).removed hm
          (fun e he => List.mem_of_mem_filter he) hR⟩
  | pageRange start size prot =>
    rcases vmMapPageRange_spec hI hm start size prot with ⟨_, hrun⟩ |
      ⟨_, own', pm', data', hI', ⟨hrun, _, hmap⟩ | ⟨done, a, rest, s', g', _, _, hrun, hmap, hR⟩⟩
    · exact ⟨s, g, lists, by rw [VmCall.run, hrun]; rfl, hrefl⟩
    · exact ⟨_, _, _, by rw [VmCall.run, hrun]; rfl, hmap.called hI'⟩
    · exact ⟨s', g', _, by rw [VmCall.run, hrun]; rfl,
        (hmap.called hI').removed hm (fun e he => List.mem_of_mem_filter he) hR⟩
  | fault addr faultType =>
    rcases vmFault_spec hI hm addr faultType with ⟨r, hrun⟩ |
      ⟨e, _, _, _, own', pm', data', r, as, hI', hrun, _, hmap⟩
    · exact ⟨s, g, lists, by rw [VmCall.run, hrun]; rfl, hrefl⟩
    · exact ⟨_, _, _, by rw [VmCall.run, hrun]; rfl, hmap.called hI'⟩

end Called

/-- The maps made so far. `pmaps` are the pmaps that no map has yet, and `wrote` tells the maps
through which each byte has been written since its frame was last taken and zeroed. -/
structure VmWorld where
  vm : VmState
  pmaps : Set PmapPtr
  maps : Set VmMapPtr
  wrote : Word → Set VmMapPtr

inductive VmOp
  | pmapCreate
  | mapCreate
  | call (m : VmMapPtr) (c : VmCall)
  | write (m : VmMapPtr) (va : Word)

/-- Where the direct map has the byte at `va` of a page with the leaf entry `e`. -/
def leafByte (h : Hhdm) (e va : Word) : Word :=
  physToVirt h ((e &&& pteAddrMask) ||| (va &&& (pmmPageSize-1)))

def VmState.writeByte (s : VmState) (x : Word) (b : Byte) : VmState :=
  { s with pm := { s.pm with kmem := { s.pm.kmem with mem := Function.update s.pm.kmem.mem x b } } }

/-- One step: a new pmap, a new map with the bounds of `exec_load`, a call on a map, or a write
through a present page of one. -/
inductive VmStep (h : Hhdm) : VmWorld → VmOp → VmWorld → Prop
  | pmapCreate (w : VmWorld) {r : Option PmapPtr} {pm' : PmapState}
    (hr : pmapCreate h w.vm.pm = (r, pm')) :
    VmStep h w .pmapCreate
      { w with vm := { w.vm with pm := pm' }, pmaps := {p | r = some p} ∪ w.pmaps }
  | mapCreate (w : VmWorld) {p : PmapPtr} (hp : p ∈ w.pmaps) {vm' : VmState}
    (hr : vmMapCreate h w.vm p userMapMin userMapMax = (vmMapNull, vm')) :
    VmStep h w .mapCreate { w with vm := vm' }
  | mapCreated (w : VmWorld) {p : PmapPtr} (hp : p ∈ w.pmaps) {m : VmMapPtr} {vm' : VmState}
    (hr : vmMapCreate h w.vm p userMapMin userMapMax = (m, vm')) (hm : m ≠ vmMapNull) :
    VmStep h w .mapCreate
      { w with vm := vm', pmaps := w.pmaps \ {p}, maps := insert m w.maps }
  | call (w : VmWorld) {m : VmMapPtr} {c : VmCall} {vm' : VmState} (hm : m ∈ w.maps)
    (hr : c.run h w.vm m = some vm') :
    VmStep h w (.call m c) { w with
      vm := vm'
      wrote := fun x => {m' | m' ∈ w.wrote x ∧
        ¬ (frameOf h x ∈ vm'.data ∧ frameOf h x ∉ w.vm.data)} }
  | write (w : VmWorld) {m : VmMapPtr} {va e : Word} (b : Byte) (hm : m ∈ w.maps)
    (hva : UserVa va) (he : pteOf h w.vm.pm (w.vm.maps m).pmap va = some e) :
    VmStep h w (.write m va) { w with
      vm := w.vm.writeByte (leafByte h e va) b
      wrote := Function.update w.wrote (leafByte h e va) (insert m (w.wrote (leafByte h e va))) }

/-- What holds in every state of a run: the maps are in order, the spare pmaps are in use by
no map, and a byte of a data page was written through the map that owns it only. -/
structure VmWorldInv (h : Hhdm) (g : VmGhost) (lists : VmMapPtr → List EntryPtr) (w : VmWorld) :
    Prop where
  inv : VmInv h g w.maps lists w.vm
  spare : ∀ p ∈ w.pmaps, p ∈ g.live ∧ ∀ m ∈ w.maps, (w.vm.maps m).pmap ≠ p
  wrote : ∀ x, frameOf h x ∈ w.vm.data → ∀ m ∈ w.wrote x, m ∈ w.maps ∧
    ∃ q i, g.own (frameOf h x) = .leaf (w.vm.maps m).pmap q i
  live : ∀ p ∈ g.live, p ∈ w.pmaps ∨ ∃ m ∈ w.maps, (w.vm.maps m).pmap = p

section World
variable {h : Hhdm} {g : VmGhost} {lists : VmMapPtr → List EntryPtr} {w w' : VmWorld}

theorem DataPage.leafByte {own : ℕ → Owner} {data : List ℕ} {p : PmapPtr} {va e : Word}
    (hd : DataPage own data p va e) : frameOf h (leafByte h e va) = pageOf (pteFrame e) := by
  rw [Dana.leafByte, frameOf_physToVirt]
  exact hd.query.2

/-- A write into a data page leaves the tables, the zones and the lists alone. -/
theorem VmInv.writeByte {maps : Set VmMapPtr} {s : VmState} (hI : VmInv h g maps lists s) {x : Word}
    (hx : frameOf h x ∈ s.data) (b : Byte) :
    VmInv h g maps lists (s.writeByte x b) ∧ SameEntries h s.pm (s.writeByte x b).pm g.live := by
  obtain ⟨p, q, i, ho⟩ := (hI.mem.dataLeaf _).mp hx
  have hother (y : Word) (hy : g.own (frameOf h y) ≠ .leaf p q i) :
      (s.writeByte x b).pm.kmem.mem y = s.pm.kmem.mem y := by
    refine Function.update_of_ne ?_ _ _
    rintro rfl
    exact hy ho
  obtain ⟨hP, hsame⟩ := hI.mem.pmap.congr (k := (s.writeByte x b).pm.kmem) hI.mem.pmap.pageZero
    hI.mem.pmap.free (fun _ _ _ => Iff.rfl) (fun _ _ => Iff.rfl) (fun _ hn => hn) fun y hy => by
      rcases hy with ⟨p', q', hy⟩ | hy
      · exact hother y (by rw [hy]; simp)
      · exact hother y (by rw [hy]; simp)
  have hM : VmMemInv h { g with own := g.own } (s.writeByte x b).pm s.zoneStore s.data := by
    refine hI.mem.step hP (fun _ _ => rfl) (fun _ _ hn => hn) (fun y hy => ?_) rfl
      (hsame.leaf hI.mem fun n p q i hn hd => ⟨hn, hd⟩) hI.mem.dataLeaf hI.mem.nodup
    rcases hy with ⟨z, hy⟩ | hy
    · exact hother y (by rw [hy]; simp)
    · exact hother y (by rw [hy]; simp)
  exact ⟨hI.with_mem hM, hsame⟩

/-- A map takes one of the spare pmaps. -/
theorem VmWorldInv.mapCreated (hI : VmWorldInv h g lists w) {p : PmapPtr} (hp : p ∈ w.pmaps)
    {m : VmMapPtr} {vm' : VmState}
    (hr : vmMapCreate h w.vm p userMapMin userMapMax = (m, vm')) (hm : m ≠ vmMapNull) :
    ∃ g' lists', VmWorldInv h g' lists'
        { w with vm := vm', pmaps := w.pmaps \ {p}, maps := insert m w.maps } ∧
      ∀ n, g'.own n = .kernel ∨ g'.own n = .other → g.own n = g'.own n := by
  obtain ⟨hlive, hfree⟩ := hI.spare _ hp
  rcases vmMapCreate_spec hI.inv hlive hfree with he | ⟨a, s', g', he, _, hout, hI', hk, hl, hd, _,
    _, hpmap, hmaps, _⟩
  · obtain ⟨rfl, _⟩ := Prod.mk.inj (hr.symm.trans he)
    exact absurd rfl hm
  obtain ⟨rfl, rfl⟩ := Prod.mk.inj (hr.symm.trans he)
  have hne (m : VmMapPtr) (hm : m ∈ w.maps) : m ≠ .elem a := fun hc => hout (hc ▸ hm)
  refine ⟨g', _, ⟨hI', fun p hp' => ⟨by rw [hl]; exact (hI.spare p hp'.1).1, ?_⟩, fun x hx m hm => ?_,
    fun p' hp' => ?_⟩, hk.rest⟩
  · rintro m (rfl | hm)
    · rw [hpmap]
      exact fun hc => hp'.2 hc.symm
    · rw [hmaps m (hne m hm)]
      exact (hI.spare p hp'.1).2 m hm
  · dsimp only at hx
    rw [hd] at hx
    obtain ⟨hm', q, i, ho⟩ := hI.wrote x hx m hm
    refine ⟨Set.mem_insert_of_mem _ hm', q, i, ?_⟩
    dsimp only
    rw [hmaps m (hne m hm')]
    exact (hk.leaf _ _ _ _).mpr ho
  · rw [hl] at hp'
    by_cases hpp : p' = p
    · exact Or.inr ⟨_, Set.mem_insert _ _, hpmap.trans hpp.symm⟩
    · refine (hI.live p' hp').imp (fun hs => ⟨hs, hpp⟩) fun hm => ?_
      obtain ⟨m, hm, hmp⟩ := hm
      refine ⟨m, Set.mem_insert_of_mem _ hm, ?_⟩
      dsimp only
      rw [hmaps m (hne m hm), hmp]

/-- A call on a map: the pages it takes were written by none, the others keep their owner. -/
theorem VmWorldInv.call (hI : VmWorldInv h g lists w) {m : VmMapPtr} (hm : m ∈ w.maps) {c : VmCall}
    {vm' : VmState} (hr : c.run h w.vm m = some vm') : ∃ g' lists', VmWorldInv h g' lists'
        { w with
          vm := vm'
          wrote := fun x => {m' | m' ∈ w.wrote x ∧
            ¬ (frameOf h x ∈ vm'.data ∧ frameOf h x ∉ w.vm.data)} } ∧
      ∀ n, g'.own n = .kernel ∨ g'.own n = .other → g.own n = g'.own n := by
  obtain ⟨s', g', lists', hrun, hC⟩ := VmCall.spec hI.inv hm c
  obtain rfl := Option.some.inj (hr.symm.trans hrun)
  have hpmap (m' : VmMapPtr) : (vm'.maps m').pmap = (w.vm.maps m').pmap := fixed_pmap (hC.fixed m')
  refine ⟨g', lists', ⟨hC.inv, fun p hp => ⟨by rw [hC.live]; exact (hI.spare p hp).1, fun m' hm' => ?_⟩,
    fun x hx m' hm' => ?_, fun p hp => ?_⟩, hC.paged.rest⟩
  · rw [hpmap]
    exact (hI.spare p hp).2 m' hm'
  · obtain ⟨hwrote, hnot⟩ := hm'
    have hold : frameOf h x ∈ w.vm.data := by
      by_contra hc
      exact hnot ⟨hx, hc⟩
    obtain ⟨hm'', q, i, ho⟩ := hI.wrote x hold m' hwrote
    refine ⟨hm'', ?_⟩
    dsimp only
    rw [hpmap]
    by_cases hp : (w.vm.maps m').pmap = (w.vm.maps m).pmap
    · -- the frame still has an owner, which is no other pmap
      obtain ⟨p', q', i', ho'⟩ := (hC.inv.mem.dataLeaf _).mp hx
      rcases hC.paged.fresh _ _ _ _ ho' with rfl | hsame
      · exact ⟨q', i', hp ▸ ho'⟩
      · rw [ho] at hsame
        obtain ⟨rfl, _⟩ := Owner.leaf.inj hsame
        exact ⟨q', i', ho'⟩
    · exact ⟨q, i, hC.paged.keep _ _ _ _ hp ho⟩
  · rw [hC.live] at hp
    refine (hI.live p hp).imp_right fun hm' => ?_
    obtain ⟨m', hm', hmp⟩ := hm'
    exact ⟨m', hm', (hpmap m').trans hmp⟩

theorem VmWorldInv.step (hI : VmWorldInv h g lists w) {l : VmOp} (hs : VmStep h w l w') :
    ∃ g' lists', VmWorldInv h g' lists' w' ∧
      ∀ n, g'.own n = .kernel ∨ g'.own n = .other → g.own n = g'.own n := by
  cases hs with
  | pmapCreate hr =>
    obtain ⟨g', hI', hk, _, hlive, hnew⟩ := hI.inv.pmapCreate hr
    refine ⟨g', lists, ⟨hI', fun p hp => ?_, fun x hx m hm => ?_, fun p hp => ?_⟩, hk.rest⟩
    · rcases hp with hp | hp
      · refine ⟨by rw [hlive]; exact Or.inl hp, fun m hm hc => (hnew p hp).1 ?_⟩
        rw [← hc]
        exact hI.inv.pmap m hm
      · refine ⟨by rw [hlive]; exact Or.inr (hI.spare p hp).1, (hI.spare p hp).2⟩
    · obtain ⟨hm', q, i, ho⟩ := hI.wrote x hx m hm
      exact ⟨hm', q, i, (hk.leaf _ _ _ _).mpr ho⟩
    · rw [hlive] at hp
      rcases hp with hp | hp
      · exact Or.inl (Or.inl hp)
      · exact (hI.live p hp).imp_left Or.inr
  | mapCreate hp hr =>
    obtain ⟨hlive, hfree⟩ := hI.spare _ hp
    rcases vmMapCreate_spec hI.inv hlive hfree with he | ⟨a, s', g', he, hne, _⟩
    · obtain ⟨_, rfl⟩ := Prod.mk.inj (hr.symm.trans he)
      exact ⟨g, lists, hI, fun _ _ => rfl⟩
    · obtain ⟨hm, _⟩ := Prod.mk.inj (hr.symm.trans he)
      exact absurd (VmMapPtr.elem.inj hm).symm hne
  | mapCreated hp hr hm => exact hI.mapCreated hp hr hm
  | call hm hr => exact hI.call hm hr
  | write b hm hva he =>
    have hd := hI.inv.mem.leaf _ (hI.inv.pmap _ hm) _ _ hva he
    have hframe := hd.leafByte (h := h)
    obtain ⟨hI', _⟩ := hI.inv.writeByte (hframe ▸ hd.mem) b
    refine ⟨g, lists, ⟨hI', hI.spare, fun x hx m' hm' => ?_, hI.live⟩, fun _ _ => rfl⟩
    dsimp only at hm'
    rw [Function.update_apply] at hm'
    split_ifs at hm' with hc
    · rcases hm' with rfl | hm'
      · rw [hc, hframe]
        exact ⟨hm, _, _, hd.owner⟩
      · exact hI.wrote x hx m' (hc ▸ hm')
    · exact hI.wrote x hx m' hm'

/-- The first world: after `vm_map_init`, with no map. -/
def VmWorld.boot (s : VmState) : VmWorld := ⟨s, ∅, ∅, fun _ => ∅⟩

theorem VmBoot.world {s₀ s : VmState} (hb : VmBoot h s₀) (hs : vmMapInit s₀ = some s) :
    VmWorldInv h (vmGhostBoot s₀.pm.kmem.pmm) (fun _ => []) (VmWorld.boot s) := by
  obtain ⟨s', hs', hI, _⟩ := hb.init
  obtain rfl := Option.some.inj (hs.symm.trans hs')
  exact ⟨hI, fun p hp => hp.elim, fun x _ m hm => hm.elim, fun p hp => hp.elim⟩

theorem VmWorldInv.run {s₀ s : VmState} (hb : VmBoot h s₀) (hs : vmMapInit s₀ = some s)
    {trace : List VmOp} (hr : Run (VmStep h) (VmWorld.boot s) trace w) :
    ∃ g lists, VmWorldInv h g lists w :=
  hr.inv (I := fun w => ∃ g lists, VmWorldInv h g lists w) (fun _ _ _ hstep hI => by
    obtain ⟨_, _, hI⟩ := hI
    obtain ⟨g', lists', hI', _⟩ := hI.step hstep
    exact ⟨g', lists', hI'⟩) ⟨_, _, hb.world hs⟩

/-- The entry `e` contains the address. -/
def VmState.Contains (s : VmState) (e : EntryPtr) (addr : Word) : Prop :=
  (s.entries e).start ≤ addr ∧ addr < (s.entries e).stop

instance (s : VmState) (e : EntryPtr) (addr : Word) : Decidable (s.Contains e addr) :=
  inferInstanceAs (Decidable (_ ∧ _))

theorem VmMapInv.lookup_iff {s : VmState} {m : VmMapPtr} {l : List EntryPtr} (hm : VmMapInv s m l)
    (hlen : l.length ≤ addrFuel) (addr : Word) :
    (∀ e ∈ l, s.Contains e addr → vmMapLookupEntry s m addr = some (some e) ∧
      ∀ e' ∈ l, s.Contains e' addr → e' = e) ∧
    ((∀ e ∈ l, ¬ s.Contains e addr) → vmMapLookupEntry s m addr = some none) := by
  have hlookup := hm.lookup hlen addr
  have huniq (e e' : EntryPtr) (he : e ∈ l) (he' : e' ∈ l) (hc : s.Contains e addr)
      (hc' : s.Contains e' addr) : e' = e := by
    simp only [VmState.Contains, BitVec.le_def, BitVec.lt_def] at hc hc'
    exact hm.sorted.unique he' he hc'.1 hc'.2 hc.1 hc.2
  refine ⟨fun e he hc => ⟨?_, fun e' he' => huniq e e' he he' hc⟩, fun hno => ?_⟩
  · cases hf : l.find? fun e => decide ((s.entries e).start ≤ addr ∧ addr < (s.entries e).stop) with
    | none =>
      have hnone := List.find?_eq_none.mp hf e he
      exact absurd (decide_eq_true hc) hnone
    | some e' =>
      rw [hlookup, hf]
      have hc' := List.find?_some hf
      rw [decide_eq_true_eq] at hc'
      rw [huniq e e' he (List.mem_of_find?_eq_some hf) hc hc']
  · rw [hlookup, List.find?_eq_none.mpr]
    intro e he hc
    exact hno e he (of_decide_eq_true hc)

def vmFirstWorld : VmWorld :=
  ⟨vmFirst, ({.page 0x4000} : Set PmapPtr) \ {.page 0x4000}, {vmFirstMap}, fun _ => ∅⟩

/-- A pmap and a map are made. -/
theorem vmFirst_steps : ∃ w, VmStep higherHalf (VmWorld.boot vmBooted) .pmapCreate w ∧
    VmStep higherHalf w .mapCreate vmFirstWorld := by
  have h1 := VmStep.pmapCreate (VmWorld.boot vmBooted) vmFirstPmap_create
  have h2 := VmStep.mapCreated ⟨vmFirstPmap, {.page 0x4000}, ∅, fun _ => ∅⟩ rfl vmFirst_create
    (by decide)
  have hset : {p | some (.page 0x4000) = some p} ∪ ∅ = ({.page 0x4000} : Set PmapPtr) := by
    ext p
    simp [eq_comm]
  have hboot : (VmWorld.boot vmBooted).pmaps = ∅ := rfl
  rw [hboot, hset] at h1
  have hmaps : insert vmFirstMap (∅ : Set VmMapPtr) = {vmFirstMap} := by simp
  rw [hmaps] at h2
  exact ⟨_, h1, h2⟩

theorem vmFirst_run : Run (VmStep higherHalf) (VmWorld.boot vmBooted) [.pmapCreate, .mapCreate]
    vmFirstWorld := by
  obtain ⟨w, h1, h2⟩ := vmFirst_steps
  exact (Run.start.snoc h1).snoc h2

theorem vmFirst_inv : ∃ g lists, VmWorldInv higherHalf g lists vmFirstWorld :=
  VmWorldInv.run vmBootState_boot vmBooted_init vmFirst_run

/-- And then any call on the map. -/
theorem vmFirst_call (c : VmCall) : ∃ s wrote, c.run higherHalf vmFirst vmFirstMap = some s ∧
    Run (VmStep higherHalf) (VmWorld.boot vmBooted) [.pmapCreate, .mapCreate, .call vmFirstMap c]
      ⟨s, ({.page 0x4000} : Set PmapPtr) \ {.page 0x4000}, {vmFirstMap}, wrote⟩ := by
  obtain ⟨g, lists, hI⟩ := vmFirst_inv
  obtain ⟨s, _, _, hrun, _⟩ := VmCall.spec hI.inv rfl c
  exact ⟨s, _, hrun, vmFirst_run.snoc (VmStep.call _ rfl hrun)⟩

/-- In every state of a run the list of a map is a circular list in order, with `nentries`
entries inside the bounds; every call on it returns, and the lookup finds the one entry that
contains an address. -/
theorem vm_run_lists {s₀ s : VmState} (hb : VmBoot h s₀) (hs : vmMapInit s₀ = some s)
    {trace : List VmOp} (hr : Run (VmStep h) (VmWorld.boot s) trace w) {m : VmMapPtr}
    (hm : m ∈ w.maps) :
    (∀ c : VmCall, ∃ s', c.run h w.vm m = some s') ∧
    ∃ l : List EntryPtr, (EntryPtr.header m :: l).Nodup ∧
      follow w.vm.next (.header m) l.length (w.vm.next (.header m)) = some l ∧
      follow w.vm.prev (.header m) l.length (w.vm.prev (.header m)) = some l.reverse ∧
      (w.vm.maps m).nentries.toNat = l.length ∧
      (l.Pairwise fun e e' => (w.vm.entries e).start < (w.vm.entries e').start) ∧
      (l.Pairwise fun e e' => (w.vm.entries e).stop ≤ (w.vm.entries e').start) ∧
      (∀ e ∈ l, (w.vm.entries e).start < (w.vm.entries e).stop ∧
        (w.vm.maps m).minOffset ≤ (w.vm.entries e).start ∧
        (w.vm.entries e).stop ≤ (w.vm.maps m).maxOffset) ∧
      ∀ addr, (∀ e ∈ l, w.vm.Contains e addr → vmMapLookupEntry w.vm m addr = some (some e) ∧
          ∀ e' ∈ l, w.vm.Contains e' addr → e' = e) ∧
        ((∀ e ∈ l, ¬ w.vm.Contains e addr) → vmMapLookupEntry w.vm m addr = some none) := by
  obtain ⟨g, lists, hI⟩ := VmWorldInv.run hb hs hr
  have hmap := hI.inv.map m hm
  refine ⟨fun c => ?_, lists m, hmap.ring.nodup, hmap.ring.follow_next _ le_rfl,
    hmap.ring.follow_prev _ le_rfl, ?_, ?_, ?_, fun e he => ?_,
    hmap.lookup_iff (hI.inv.length_le hm)⟩
  · obtain ⟨s', _, _, hrun, _⟩ := VmCall.spec hI.inv hm c
    exact ⟨s', hrun⟩
  · rw [hmap.nentries, BitVec.toNat_ofNat, Nat.mod_eq_of_lt (hI.inv.length_lt hm)]
  · exact hmap.sorted.lo_lt.imp fun h => BitVec.lt_def.mpr h
  · exact hmap.sorted.ordered.imp fun h => BitVec.le_def.mpr h
  · exact ⟨BitVec.lt_def.mpr (hmap.sorted.nonempty e he), BitVec.le_def.mpr (hmap.inside e he).1,
      BitVec.le_def.mpr (hmap.inside e he).2⟩

/-- After the first entry of the first map. -/
theorem vm_run_lists_enter : ∃ s l,
    (VmCall.enter 0x1000 0x2000 3 7 0).run higherHalf vmFirst vmFirstMap = some s ∧
    follow s.next (.header vmFirstMap) l.length (s.next (.header vmFirstMap)) = some l ∧
    (s.maps vmFirstMap).nentries.toNat = l.length := by
  obtain ⟨s, wrote, hrun, hr⟩ := vmFirst_call (.enter 0x1000 0x2000 3 7 0)
  obtain ⟨_, l, _, hnext, _, hlen, _⟩ := vm_run_lists vmBootState_boot vmBooted_init hr rfl
  exact ⟨s, l, hrun, hnext, hlen⟩

/-- In every state of a run, each frame that a map maps is mapped once, is in use and is no
table; a call maps zeroed frames only, that no map had; and no byte written through one map
is read through another. -/
theorem vm_run_frames {s₀ s : VmState} (hb : VmBoot h s₀) (hs : vmMapInit s₀ = some s)
    {trace : List VmOp} (hr : Run (VmStep h) (VmWorld.boot s) trace w) {m : VmMapPtr}
    (hm : m ∈ w.maps) :
    (∀ va e, UserVa va → pteOf h w.vm.pm (w.vm.maps m).pmap va = some e →
      (∀ m' ∈ w.maps, ∀ va' e', UserVa va' → pteOf h w.vm.pm (w.vm.maps m').pmap va' = some e' →
        pageOf (pteFrame e') = pageOf (pteFrame e) → m' = m ∧ pageOf va' = pageOf va) ∧
      pageOf (pteFrame e) < pmmMaxPages ∧ ¬ w.vm.pm.kmem.pmm.Free (pageOf (pteFrame e)) ∧
      (∀ p, p ∈ w.pmaps ∨ (∃ m' ∈ w.maps, (w.vm.maps m').pmap = p) → ∀ q t,
        Path lowerDom [] q → tableAt h w.vm.pm.kmem.mem (w.vm.pm.pmaps p).pml4Phys q = some t →
        pageOf t ≠ pageOf (pteFrame e)) ∧
      (∀ q t, q.length ≤ 3 →
        hwTable h w.vm.pm.kmem.mem (w.vm.pm.pmaps .kernel).pml4Phys q = some t →
        pageOf t ≠ pageOf (pteFrame e)) ∧
      ∀ m' ∈ w.wrote (leafByte h e va), m' = m) ∧
    ∀ m' ∈ w.maps, ∀ c : VmCall, ∀ s', c.run h w.vm m' = some s' →
      ∀ va e, UserVa va → pteOf h s'.pm (s'.maps m).pmap va = some e →
        pteOf h w.vm.pm (w.vm.maps m).pmap va = some e ∨
        (∀ m'' ∈ w.maps, ∀ va' e', UserVa va' →
          pteOf h w.vm.pm (w.vm.maps m'').pmap va' = some e' →
          pageOf (pteFrame e') ≠ pageOf (pteFrame e)) ∧
        ∀ x, frameOf h x = pageOf (pteFrame e) → s'.pm.kmem.mem x = 0 := by
  obtain ⟨g, lists, hI⟩ := VmWorldInv.run hb hs hr
  have hleaf {m : VmMapPtr} (hm : m ∈ w.maps) {va e : Word} (hva : UserVa va)
      (he : pteOf h w.vm.pm (w.vm.maps m).pmap va = some e) :=
    hI.inv.mem.leaf _ (hI.inv.pmap m hm) va e hva he
  refine ⟨fun va e hva he => ?_, fun m' hm' c s' hc va e hva he => ?_⟩
  · have hd := hleaf hm hva he
    refine ⟨fun m' hm' va' e' hva' he' hpage => ?_, hd.lt, hI.inv.mem.data_used hd.mem,
      fun p hp q t hq ht hpage => ?_, fun q t hq ht hpage => ?_, fun m' hw => ?_⟩
    · have hd' := hleaf hm' hva' he'
      have ho := hd'.owner
      rw [hpage, hd.owner] at ho
      obtain ⟨h1, h2, h3⟩ := Owner.leaf.inj ho
      exact ⟨hI.inv.pmaps m' hm' m hm h1.symm, (vaPath_eq_iff hva hva').mp ⟨h2.symm, h3.symm⟩⟩
    · have hlive : p ∈ g.live := by
        rcases hp with hp | ⟨m', hm', rfl⟩
        · exact (hI.spare p hp).1
        · exact hI.inv.pmap m' hm'
      have hlab := hI.inv.mem.pmap.forest.node_lab (hI.inv.mem.pmap.root p hlive) hq ht
      have ho := (tableLab_some.mp hlab).2
      rw [hpage, hd.owner] at ho
      cases ho
    · have ho : g.own (pageOf t) = .kernel := by
        by_cases hnil : q = []
        · rw [hnil] at ht
          obtain rfl := Option.some.inj ht
          exact hI.inv.mem.pmap.kernel.root
        · exact hI.inv.mem.kernelTables q t hnil hq ht
      rw [hpage, hd.owner] at ho
      cases ho
    · have hframe := hd.leafByte (h := h)
      obtain ⟨hm', q, i, ho⟩ := hI.wrote _ (by rw [hframe]; exact hd.mem) m' hw
      rw [hframe, hd.owner] at ho
      exact hI.inv.pmaps m' hm' m hm (Owner.leaf.inj ho).1.symm
  · obtain ⟨s1, g', lists', hrun, hC⟩ := VmCall.spec hI.inv hm' c
    obtain rfl := Option.some.inj (hc.symm.trans hrun)
    rw [fixed_pmap (hC.fixed m)] at he
    by_cases hmm : (w.vm.maps m).pmap = (w.vm.maps m').pmap
    · have hd' := hC.inv.mem.leaf _ (hC.live ▸ hI.inv.pmap m hm) va e hva he
      rcases hC.leaf va e hva (hmm ▸ he) with hold | hnew
      · exact Or.inl (hmm ▸ hold)
      · refine Or.inr ⟨fun m'' hm'' va' e' hva' he' hpage => hnew ?_, fun x hx => ?_⟩
        · rw [← hpage]
          exact (hleaf hm'' hva' he').mem
        · rcases hC.paged.mem x (hx ▸ hd'.mem) with ⟨hin, _⟩ | hz
          · exact absurd (hx ▸ hin) hnew
          · exact hz
    · have hentry := hC.paged.entry _ (hI.inv.pmap m hm) hmm _ _ (vaPath_path hva.lower)
        (vaPath_leaf va)
      rw [pteOf, hentry] at he
      exact Or.inl he

/-- After the first page of the first map. -/
theorem vm_run_frames_page : ∃ s, (VmCall.pageRange 0x1000 0x1000 3).run higherHalf vmFirst vmFirstMap =
      some s ∧ ∀ va e, UserVa va → pteOf higherHalf s.pm (s.maps vmFirstMap).pmap va = some e →
        ¬ s.pm.kmem.pmm.Free (pageOf (pteFrame e)) := by
  obtain ⟨s, wrote, hrun, hr⟩ := vmFirst_call (.pageRange 0x1000 0x1000 3)
  have hframes := vm_run_frames vmBootState_boot vmBooted_init hr rfl
  exact ⟨s, hrun, fun va e hva he => (hframes.1 va e hva he).2.2.1⟩

end World

end Dana
