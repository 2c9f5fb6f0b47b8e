import Dana.VmKeeps

/-! The maps allocate from two zones. Every call on them does the same whatever the other zones
are, and leaves those as they are. -/
namespace Dana
open ByteMem AddrLoop LinkedRing Transition

/-- The same maps beside the other zones of `st`. -/
def VmState.onStore (s : VmState) (st : ZoneStore) : VmState :=
  { s with zoneStore :=
      { zones := fun z => if z = s.vmMapZone ∨ z = s.vmMapEntryZone then s.zoneStore.zones z
          else st.zones z
        zoneCount := st.zoneCount } }

section Calls
variable (h : Hhdm) (s : VmState) (st : ZoneStore) (m : VmMapPtr) (p : PmapPtr) (e : EntryPtr)

theorem VmState.onStore_self : s.onStore s.zoneStore = s := by
  rw [VmState.onStore]
  simp only [ite_self]

/-- A zone of the maps changes the same. -/
theorem VmState.onStore_set {z : ℕ} (hz : z = s.vmMapZone ∨ z = s.vmMapEntryZone) (zone : Zone)
    (pm : PmapState) :
    { s.onStore st with pm := pm, zoneStore := (s.onStore st).zoneStore.set z zone } =
      VmState.onStore { s with pm := pm, zoneStore := s.zoneStore.set z zone } st := by
  unfold VmState.onStore ZoneStore.set
  simp only [VmState.mk.injEq, ZoneStore.mk.injEq, and_true, true_and]
  funext z'
  rw [Function.update_apply, Function.update_apply]
  split_ifs with h1 h2 h3
  · rfl
  · exact absurd (h1 ▸ hz) h2
  · rfl
  · rfl

theorem VmState.onStore_zone {z : ℕ} (hz : z = s.vmMapZone ∨ z = s.vmMapEntryZone) :
    (s.onStore st).zoneStore.zones z = s.zoneStore.zones z := if_pos hz

theorem VmState.zalloc_onStore {z : ℕ} (hz : z = s.vmMapZone ∨ z = s.vmMapEntryZone) :
    (s.onStore st).zalloc h z = ((s.zalloc h z).1, (s.zalloc h z).2.onStore st) := by
  unfold VmState.zalloc
  rw [s.onStore_zone st hz]
  exact Prod.ext rfl (s.onStore_set st hz _ _)

theorem VmState.zfree_onStore {z : ℕ} (hz : z = s.vmMapZone ∨ z = s.vmMapEntryZone) (a : Word) :
    (s.onStore st).zfree z a = (s.zfree z a).onStore st := by
  unfold VmState.zfree
  rw [s.onStore_zone st hz]
  exact s.onStore_set st hz _ _

theorem vmMapEntryAlloc_onStore : vmMapEntryAlloc h (s.onStore st) =
    ((vmMapEntryAlloc h s).1, (vmMapEntryAlloc h s).2.onStore st) := by
  have hz : (s.onStore st).zalloc h (s.onStore st).vmMapEntryZone =
      ((s.zalloc h s.vmMapEntryZone).1, (s.zalloc h s.vmMapEntryZone).2.onStore st) :=
    s.zalloc_onStore h st (Or.inr rfl)
  rw [vmMapEntryAlloc, vmMapEntryAlloc, hz]
  cases s.zalloc h s.vmMapEntryZone with
  | mk a s1 =>
    dsimp only
    split_ifs <;> rfl

theorem vmMapEntryFree_onStore : vmMapEntryFree (s.onStore st) e = (vmMapEntryFree s e).onStore st := by
  cases e with
  | header m => rfl
  | elem a =>
    unfold vmMapEntryFree
    change ((s.onStore st).zfree s.vmMapEntryZone a).setEntry _ { s.entries (.elem a) with
      start := ((s.onStore st).zoneStore.zones s.vmMapEntryZone).freeList } = _
    rw [s.zfree_onStore st (Or.inr rfl), s.onStore_zone st (Or.inr rfl)]
    rfl

theorem vmMapCreate_onStore (min max : Word) : vmMapCreate h (s.onStore st) p min max =
    ((vmMapCreate h s p min max).1, (vmMapCreate h s p min max).2.onStore st) := by
  have hz : (s.onStore st).zalloc h (s.onStore st).vmMapZone =
      ((s.zalloc h s.vmMapZone).1, (s.zalloc h s.vmMapZone).2.onStore st) :=
    s.zalloc_onStore h st (Or.inl rfl)
  rw [vmMapCreate, vmMapCreate, hz]
  cases s.zalloc h s.vmMapZone with
  | mk a s1 =>
    dsimp only
    split_ifs <;> rfl

theorem vmPageIn_onStore (a flags : Word) : vmPageIn h (s.onStore st) p a flags =
    ((vmPageIn h s p a flags).1, (vmPageIn h s p a flags).2.onStore st) := by
  have halloc : (s.onStore st).allocPage = (s.allocPage.1, s.allocPage.2.onStore st) := rfl
  rw [vmPageIn, vmPageIn, halloc]
  cases s.allocPage with
  | mk pa s1 =>
    dsimp only
    have hzero : ((s1.onStore st).zeroPage h pa).pm = (s1.zeroPage h pa).pm := rfl
    rw [hzero]
    split_ifs <;> rfl

theorem vmPageOut_onStore (a : Word) : vmPageOut h (s.onStore st) p a =
    (vmPageOut h s p a).onStore st := by
  have hpm : (s.onStore st).pm = s.pm := rfl
  rw [vmPageOut, vmPageOut, hpm]
  split_ifs <;> rfl

theorem vmPagesIn_onStore (flags stop start : Word) : vmPagesIn h p flags stop start (s.onStore st) =
    (vmPagesIn h p flags stop start s).map fun r =>
      (r.map (VmState.onStore · st)).mapError fun x => (x.1, x.2.onStore st) := by
  rw [vmPagesIn, vmPagesIn]
  refine forAddr_map _ (VmState.onStore · st) (fun x : Word × VmState => (x.1, x.2.onStore st))
    (fun a s => ?_) addrFuel start s
  rw [vmPageIn_onStore]
  cases vmPageIn h s p a flags with
  | mk ok s' => cases ok <;> rfl

theorem vmPagesOut_onStore (stop start : Word) : vmPagesOut h p stop start (s.onStore st) =
    (vmPagesOut h p stop start s).map (VmState.onStore · st) := by
  unfold vmPagesOut
  rw [forAddr_map (fun a s => Except.ok (ε := VmState) (vmPageOut h s p a))
    (VmState.onStore · st) (VmState.onStore · st) (fun a s => ?_) addrFuel start s]
  · rw [Option.map_map, Option.map_map]
    apply congrArg (Option.map · _)
    funext r
    cases r <;> rfl
  · rw [vmPageOut_onStore]
    rfl

theorem vmMapDropEntry_onStore : vmMapDropEntry (s.onStore st) m e =
    (vmMapDropEntry s m e).onStore st := by
  have hremove : mapListRemove (s.onStore st) e = (mapListRemove s e).onStore st := rfl
  rw [vmMapDropEntry, vmMapDropEntry, hremove, vmMapEntryFree_onStore]
  rfl

theorem vmRemoveEntry_onStore (start stop : Word) : vmRemoveEntry h m start stop e (s.onStore st) =
    ((vmRemoveEntry h m start stop e s).map fun x => (x.1.onStore st, x.2)).mapError id := by
  have he : (s.onStore st).entries = s.entries := rfl
  have hm : (s.onStore st).maps = s.maps := rfl
  rw [vmRemoveEntry, vmRemoveEntry, he, hm]
  by_cases hout : stop ≤ (s.entries e).start ∨ (s.entries e).stop ≤ start
  · rw [if_pos hout, if_pos hout]
    rfl
  · rw [if_neg hout, if_neg hout, vmPagesOut_onStore]
    cases vmPagesOut h (s.maps m).pmap
        (if (s.entries e).stop < stop then (s.entries e).stop else stop)
        (if start < (s.entries e).start then (s.entries e).start else start) s with
    | none => rfl
    | some s1 =>
      dsimp only [Option.map_some]
      rw [vmMapDropEntry_onStore]
      rfl

theorem vmMapRemove_onStore (start size : Word) : vmMapRemove h (s.onStore st) m start size =
    (vmMapRemove h s m start size).map fun r => (r.1, r.2.onStore st) := by
  have hnext : (s.onStore st).next = s.next := rfl
  have hloop := forNodes_map (EntryPtr.header m) (VmState.onStore · st) id
    (fun e s => vmRemoveEntry_onStore h s st m e start (start+size)) addrFuel
    (s.next (.header m)) s
  rw [vmMapRemove_eq, vmMapRemove_eq, hnext, hloop]
  cases forNodes (EntryPtr.header m) (vmRemoveEntry h m start (start+size)) addrFuel
      (s.next (.header m)) s with
  | none => rfl
  | some r => cases r <;> rfl

theorem vmMapFind_onStore (f : VmMapEntry → Bool) : vmMapFind (s.onStore st) m f = vmMapFind s m f := rfl

/-- What is left of `vm_map_enter` once the entry is in the list. -/
theorem vmMapEnterPages_onStore (start size : Word) (prot flags : BitVec 32) :
    (if flags &&& vmeWired ≠ 0 then
        (vmPagesIn h p (protToPte prot) (start+size) start (s.onStore st)).bind fun
        | .ok s => some (KernReturn.success, s)
        | .error (_, s) => (vmMapRemove h s m start size).map fun r => (.noSpace, r.2)
      else some (.success, s.onStore st)) =
    (if flags &&& vmeWired ≠ 0 then
        (vmPagesIn h p (protToPte prot) (start+size) start s).bind fun
        | .ok s => some (KernReturn.success, s)
        | .error (_, s) => (vmMapRemove h s m start size).map fun r => (.noSpace, r.2)
      else some (.success, s)).map fun r => (r.1, r.2.onStore st) := by
  split_ifs with hw
  · rw [vmPagesIn_onStore]
    cases vmPagesIn h p (protToPte prot) (start+size) start s with
    | none => rfl
    | some r =>
      cases r with
      | ok s1 => rfl
      | error x =>
        obtain ⟨a, s1⟩ := x
        change (vmMapRemove h (s1.onStore st) m start size).map (fun r => (KernReturn.noSpace, r.2)) =
          ((vmMapRemove h s1 m start size).map fun r => (KernReturn.noSpace, r.2)).map _
        rw [vmMapRemove_onStore, Option.map_map, Option.map_map]
        rfl
  · rfl

theorem vmMapEnter_onStore (start size : Word) (prot maxProt flags : BitVec 32) :
    vmMapEnter h (s.onStore st) m start size prot maxProt flags =
      (vmMapEnter h s m start size prot maxProt flags).map fun r => (r.1, r.2.onStore st) := by
  have hm : (s.onStore st).maps = s.maps := rfl
  rw [vmMapEnter, vmMapEnter, hm]
  dsimp only
  -- the list is searched without a look at the zones; they are read when the entry is taken
  rw [vmMapFind_onStore]
  by_cases hok : (!vmRangeOk (s.maps m) start size) = true
  · rw [if_pos hok, if_pos hok]
    rfl
  rw [if_neg hok, if_neg hok]
  cases vmMapFind s m fun e => decide (start < e.stop ∧ e.start < start+size) with
  | none => rfl
  | some e =>
    rw [Option.bind_some, Option.bind_some]
    by_cases he : e ≠ .header m
    · rw [if_pos he, if_pos he]
      rfl
    rw [if_neg he, if_neg he, vmMapEntryAlloc_onStore]
    cases vmMapEntryAlloc h s with
    | mk a s1 =>
      dsimp only
      by_cases ha : a = 0
      · rw [if_pos ha, if_pos ha]
        rfl
      · rw [if_neg ha, if_neg ha]
        obtain ⟨s2, hs2⟩ : ∃ s2, s2 = s1.setEntry (.elem a) { s1.entries (.elem a) with
          start := start, stop := start+size, prot := prot, maxProt := maxProt, flags := flags } :=
          ⟨_, rfl⟩
        have hon : (s1.onStore st).setEntry (.elem a) { (s1.onStore st).entries (.elem a) with
            start := start, stop := start+size, prot := prot, maxProt := maxProt, flags := flags } =
              s2.onStore st := by
          rw [hs2]
          rfl
        have hpos : vmMapFindPos (s2.onStore st) m start = vmMapFindPos s2 m start := rfl
        rw [hon, hpos, ← hs2]
        cases vmMapFindPos s2 m start with
        | none => rfl
        | some pos =>
          obtain ⟨s3, hs3⟩ : ∃ s3, s3 = mapListInsertAfter s2 pos (.elem a) := ⟨_, rfl⟩
          have hins : mapListInsertAfter (s2.onStore st) pos (.elem a) = s3.onStore st := by
            rw [hs3]
            rfl
          rw [Option.bind_some, Option.bind_some, hins, ← hs3]
          exact vmMapEnterPages_onStore h
            (s3.setMap m { s3.maps m with nentries := (s3.maps m).nentries+1 }) st m _ start size
            prot flags

theorem vmMapPageRange_onStore (start size : Word) (prot : BitVec 32) :
    vmMapPageRange h (s.onStore st) m start size prot =
      (vmMapPageRange h s m start size prot).map fun r => (r.1, r.2.onStore st) := by
  have hm : (s.onStore st).maps = s.maps := rfl
  rw [vmMapPageRange, vmMapPageRange, hm]
  split_ifs with hok
  · rfl
  · rw [vmPagesIn_onStore]
    cases vmPagesIn h (s.maps m).pmap (protToPte prot) (start+size) start s with
    | none => rfl
    | some r =>
      cases r with
      | ok s1 => rfl
      | error x =>
        obtain ⟨a, s1⟩ := x
        change (vmMapRemove h (s1.onStore st) m start (a-start)).map
            (fun r => (KernReturn.noSpace, r.2)) =
          ((vmMapRemove h s1 m start (a-start)).map fun r => (KernReturn.noSpace, r.2)).map _
        rw [vmMapRemove_onStore, Option.map_map, Option.map_map]
        rfl

theorem vmFault_onStore (addr : Word) (faultType : BitVec 32) :
    vmFault h (s.onStore st) m addr faultType =
      (vmFault h s m addr faultType).map fun r => (r.1, r.2.onStore st) := by
  have hpm : (s.onStore st).pm = s.pm := rfl
  have hm : (s.onStore st).maps = s.maps := rfl
  have he : (s.onStore st).entries = s.entries := rfl
  have hfind : vmMapLookupEntry (s.onStore st) m addr = vmMapLookupEntry s m addr := rfl
  rw [vmFault, vmFault, hpm, hm, he, hfind]
  split_ifs with hq
  · rfl
  · rw [Option.map_map]
    apply congrArg (Option.map · _)
    funext r
    cases r with
    | none => rfl
    | some e =>
      dsimp only [Function.comp]
      rw [vmPageIn_onStore]
      split_ifs with hw hx
      · rfl
      · rfl
      · cases vmPageIn h s (s.maps m).pmap (addr &&& ~~~(pmmPageSize-1)) (protToPte (s.entries e).prot) with
        | mk ok s1 => cases ok <;> rfl

theorem VmCall.run_onStore (c : VmCall) :
    c.run h (s.onStore st) m = (c.run h s m).map (VmState.onStore · st) := by
  cases c with
  | enter start size prot maxProt flags =>
    rw [VmCall.run, VmCall.run, vmMapEnter_onStore, Option.map_map, Option.map_map]
    rfl
  | remove start size =>
    rw [VmCall.run, VmCall.run, vmMapRemove_onStore, Option.map_map, Option.map_map]
    rfl
  | deallocate start size =>
    rw [VmCall.run, VmCall.run, vmDeallocate, vmDeallocate, vmMapRemove_onStore, Option.map_map,
      Option.map_map]
    rfl
  | pageRange start size prot =>
    rw [VmCall.run, VmCall.run, vmMapPageRange_onStore, Option.map_map, Option.map_map]
    rfl
  | fault addr faultType =>
    rw [VmCall.run, VmCall.run, vmFault_onStore, Option.map_map, Option.map_map]
    rfl

theorem vmDestroyEntry_onStore : vmDestroyEntry h m e (s.onStore st) =
    ((vmDestroyEntry h m e s).map fun x => (x.1.onStore st, x.2)).mapError id := by
  have he : (s.onStore st).entries = s.entries := rfl
  have hm : (s.onStore st).maps = s.maps := rfl
  rw [vmDestroyEntry, vmDestroyEntry, he, hm, vmPagesOut_onStore]
  cases vmPagesOut h (s.maps m).pmap (s.entries e).stop (s.entries e).start s with
  | none => rfl
  | some s1 =>
    dsimp only [Option.map_some]
    rw [vmMapEntryFree_onStore]
    rfl

theorem vmMapFreeEntries_onStore : vmMapFreeEntries h (s.onStore st) m =
    (vmMapFreeEntries h s m).map (VmState.onStore · st) := by
  have hnext : (s.onStore st).next = s.next := rfl
  have hloop := forNodes_map (EntryPtr.header m) (VmState.onStore · st) id
    (fun e s => vmDestroyEntry_onStore h s st m e) addrFuel (s.next (.header m)) s
  rw [vmMapFreeEntries_eq, vmMapFreeEntries_eq, hnext, hloop]
  cases forNodes (EntryPtr.header m) (vmDestroyEntry h m) addrFuel (s.next (.header m)) s with
  | none => rfl
  | some r => cases r <;> rfl

theorem vmMapDestroy_onStore : vmMapDestroy h (s.onStore st) m =
    (vmMapDestroy h s m).map (VmState.onStore · st) := by
  cases m with
  | kernel => rfl
  | elem a =>
    obtain ⟨s1, hs1⟩ : ∃ s1, s1 = s.setMap (.elem a) { s.maps (.elem a) with
      refCount := (s.maps (.elem a)).refCount-1 } := ⟨_, rfl⟩
    have hon : (s.onStore st).setMap (.elem a) { (s.onStore st).maps (.elem a) with
        refCount := ((s.onStore st).maps (.elem a)).refCount-1 } = s1.onStore st := by
      rw [hs1]
      rfl
    have hm : (s1.onStore st).maps = s1.maps := rfl
    rw [vmMapDestroy, vmMapDestroy]
    dsimp only
    rw [hon, ← hs1, hm]
    split_ifs with href
    · rfl
    · rw [vmMapFreeEntries_onStore, Option.map_map, Option.map_map]
      apply congrArg (Option.map · _)
      funext s2
      exact VmState.zfree_onStore { s2 with pm := pmapDestroy h s2.pm (s2.maps (.elem a)).pmap } st
        (Or.inl rfl) a

end Calls

/-- Which zones the maps use. -/
def VmState.zoneIds (s : VmState) : ℕ × ℕ := (s.vmMapZone, s.vmMapEntryZone)

section Ids
variable {h : Hhdm} {s s' : VmState} {m : VmMapPtr}

theorem PagesOnly.zoneIds (hs : PagesOnly s s') : s'.zoneIds = s.zoneIds := by
  rw [hs.eq]
  rfl

theorem vmMapCreate_zoneIds {p : PmapPtr} {min max : Word} :
    (vmMapCreate h s p min max).2.zoneIds = s.zoneIds := by
  have hz : (s.zalloc h s.vmMapZone).2.zoneIds = s.zoneIds := rfl
  rw [vmMapCreate]
  dsimp only
  split_ifs <;> exact hz

theorem VmKeeps.zoneIds (m : VmMapPtr) (c : ℕ × ℕ) :
    VmKeeps m (fun t => t.zoneIds = c) fun _ => True where
  header := trivial
  elem _ := trivial
  links _ _ _ _ := ⟨trivial, trivial⟩
  pages _ _ hs hI := hs.zoneIds.trans hI
  zone _ _ _ _ hI := hI
  pm _ _ hI := hI
  map _ _ hI := hI
  entry _ _ _ hI _ _ := hI
  insert _ _ _ hI _ := hI
  remove _ _ hI _ := hI

end Ids

/-- The same world beside the other zones of `st`. -/
def VmWorld.onStore (w : VmWorld) (st : ZoneStore) : VmWorld := { w with vm := w.vm.onStore st }

section Steps
variable {h : Hhdm} {w w' : VmWorld} (st : ZoneStore)

theorem VmStep.onStore {l : VmOp} (hs : VmStep h w l w') :
    VmStep h (w.onStore st) l (w'.onStore st) := by
  cases hs with
  | pmapCreate hr => exact VmStep.pmapCreate (w.onStore st) hr
  | mapCreate hp hr =>
    refine VmStep.mapCreate (w.onStore st) hp ?_
    change vmMapCreate h (w.vm.onStore st) _ userMapMin userMapMax = _
    rw [vmMapCreate_onStore, hr]
  | mapCreated hp hr hm =>
    refine VmStep.mapCreated (w.onStore st) hp ?_ hm
    change vmMapCreate h (w.vm.onStore st) _ userMapMin userMapMax = _
    rw [vmMapCreate_onStore, hr]
  | call hm hr =>
    refine VmStep.call (w.onStore st) hm ?_
    change VmCall.run h (w.vm.onStore st) _ _ = _
    rw [VmCall.run_onStore, hr]
    rfl
  | write b hm hva he => exact VmStep.write (w.onStore st) b hm hva he

theorem VmLifeStep.onStore {l : VmLifeOp} (hs : VmLifeStep h w l w') :
    VmLifeStep h (w.onStore st) l (w'.onStore st) := by
  cases hs with
  | op hs => exact VmLifeStep.op (hs.onStore st)
  | destroy hm hr =>
    refine VmLifeStep.destroy (w.onStore st) hm ?_
    change vmMapDestroy h (w.vm.onStore st) _ = _
    rw [vmMapDestroy_onStore, hr]
    rfl
  | drop hp => exact VmLifeStep.drop (w.onStore st) hp

omit st in
theorem VmLifeStep.zoneIds {l : VmLifeOp} (hs : VmLifeStep h w l w') :
    w'.vm.zoneIds = w.vm.zoneIds := by
  cases hs with
  | op hs =>
    cases hs with
    | pmapCreate hr => rfl
    | mapCreate hp hr =>
      exact (congrArg (fun x => x.2.zoneIds) hr).symm.trans vmMapCreate_zoneIds
    | mapCreated hp hr hm =>
      exact (congrArg (fun x => x.2.zoneIds) hr).symm.trans vmMapCreate_zoneIds
    | @call m c s1 hm hr => exact (VmKeeps.zoneIds m w.vm.zoneIds).run rfl hr
    | write b hm hva he => rfl
  | @destroy m s1 hm hr => exact (VmKeeps.zoneIds m w.vm.zoneIds).mapDestroy rfl hr
  | drop hp => rfl

omit st in
/-- Nothing is different if the other zones are put back. -/
theorem VmLifeStep.onStore_eq {l : VmLifeOp} (hs : VmLifeStep h w l w') :
    w'.vm.onStore w.vm.zoneStore = w'.vm := by
  have hself := w.vm.onStore_self
  cases hs with
  | op hs =>
    cases hs with
    | pmapCreate hr => exact VmState.onStore_self _
    | mapCreate hp hr =>
      rename_i p _
      have hon := vmMapCreate_onStore h w.vm w.vm.zoneStore p userMapMin userMapMax
      rw [hself, hr] at hon
      exact (Prod.mk.inj hon).2.symm
    | mapCreated hp hr hm =>
      rename_i p _ _
      have hon := vmMapCreate_onStore h w.vm w.vm.zoneStore p userMapMin userMapMax
      rw [hself, hr] at hon
      exact (Prod.mk.inj hon).2.symm
    | call hm hr =>
      rename_i m c _
      have hon := VmCall.run_onStore h w.vm w.vm.zoneStore m c
      rw [hself, hr] at hon
      exact (Option.some.inj hon).symm
    | write b hm hva he => exact VmState.onStore_self _
  | destroy hm hr =>
    rename_i m _
    have hon := vmMapDestroy_onStore h w.vm w.vm.zoneStore m
    rw [hself, hr] at hon
    exact (Option.some.inj hon).symm
  | drop hp => exact VmState.onStore_self _

omit st in
/-- The zones that are not the maps' are as they were, and there are as many. -/
theorem VmLifeStep.others {l : VmLifeOp} (hs : VmLifeStep h w l w') :
    w'.vm.zoneStore.zoneCount = w.vm.zoneStore.zoneCount ∧
    ∀ z, z ≠ w.vm.vmMapZone → z ≠ w.vm.vmMapEntryZone →
      w'.vm.zoneStore.zones z = w.vm.zoneStore.zones z := by
  have heq := hs.onStore_eq
  obtain ⟨hmap, hentry⟩ := Prod.mk.inj hs.zoneIds
  refine ⟨(congrArg (fun s : VmState => s.zoneStore.zoneCount) heq).symm, fun z h1 h2 => ?_⟩
  have hz := congrArg (fun s : VmState => s.zoneStore.zones z) heq
  refine hz.symm.trans (if_neg ?_)
  rw [hmap, hentry, not_or]
  exact ⟨h1, h2⟩

end Steps

end Dana
