import Dana.VmMapOps

/-! The maps and pmaps that are made: `pmap_create` and `vm_map_create` beside the maps that
are there, and the first state after `vm_map_init`. -/
namespace Dana
open ByteMem RadixTree LinkedRing IntervalList

section Create
variable {h : Hhdm} {g : VmGhost} {maps : Set VmMapPtr} {lists : VmMapPtr → List EntryPtr}
  {s : VmState} {p : PmapPtr}

theorem VmMemInv.data_own {pm : PmapState} {store : ZoneStore} {data : List ℕ}
    (hI : VmMemInv h g pm store data) {n : ℕ} (hn : n ∈ data) : g.own n ≠ .free := by
  obtain ⟨p, q, i, ho⟩ := (hI.dataLeaf n).mp hn
  rw [ho]
  simp

/-- `pmap_create` gives an empty pmap or nothing, and the maps stay as they are. -/
theorem VmInv.pmapCreate (hI : VmInv h g maps lists s) {r : Option PmapPtr} {pm' : PmapState}
    (hr : pmapCreate h s.pm = (r, pm')) : ∃ g',
      VmInv h g' maps lists { s with pm := pm' } ∧
      Kept h g.live g.own g'.own s.pm pm' s.data ∧ g'.elems = g.elems ∧
      g'.live = {p | r = some p} ∪ g.live ∧
      ∀ p, r = some p → p ∉ g.live ∧ ∀ va, UserVa va → pteOf h pm' p va = none := by
  obtain ⟨own', s', hmem, hsame, hres⟩ := pmapCreate_spec hI.mem.pmap
  rcases hres with ⟨he, hown, hP, hpm⟩ | ⟨d, he, hnew, hP, hpm, _, hnone, hnewown⟩
  · obtain ⟨rfl, rfl⟩ := Prod.mk.inj (hr.symm.trans he)
    subst hown
    have hM : VmMemInv h { g with own := g.own } pm' s.zoneStore s.data := by
      refine hI.mem.step hP (fun _ _ => rfl) (fun _ _ hn => hn) (fun x hx => hmem x ?_) (congrFun hpm _)
        (hsame.leaf hI.mem fun n p q i hn hd => ⟨hn, hd⟩) hI.mem.dataLeaf hI.mem.nodup
      rcases hx with ⟨z, hx⟩ | hx <;> rw [hx] <;> simp
    refine ⟨g, hI.with_mem hM, ⟨fun _ _ _ _ => Iff.rfl, fun x hx => hmem x
      (hI.mem.data_own hx), hsame, fun _ hn => hn, fun _ _ => rfl, fun x hx => hmem x (by rw [hx]; simp)⟩,
      rfl, by simp, by simp⟩
  · obtain ⟨rfl, rfl⟩ := Prod.mk.inj (hr.symm.trans he)
    have hold (n : ℕ) (hn : g.own n ≠ .free) : own' n = g.own n := by
      rcases hnewown n with h1 | ⟨h1, _⟩
      · exact h1
      · exact absurd h1 hn
    have hleaf (n : ℕ) (p : PmapPtr) (q : List Idx) (i : Idx) :
        own' n = .leaf p q i ↔ g.own n = .leaf p q i := by
      rcases hnewown n with h1 | ⟨h1, h2 | h2⟩ <;> rw [h1]
      all_goals rw [h2]; simp
    have hpte : ∀ p ∈ insert (.page d) g.live, ∀ va e, UserVa va → pteOf h pm' p va = some e →
        DataPage own' s.data p va e := by
      rintro p (rfl | hp) va e hva he
      · rw [hnone va hva.lower] at he
        cases he
      · exact hsame.leaf hI.mem (fun n p q i hn hd => ⟨(hleaf n p q i).mpr hn, hd⟩) p hp va e hva he
    have hM : VmMemInv h { g with own := own', live := insert (.page d) g.live } pm' s.zoneStore
        s.data := by
      refine hI.mem.step hP (fun n hn => hold n ?_) (fun n z hn => ?_) (fun x hx => hmem x ?_)
        (hpm _ (by simp)) hpte (fun n => ?_) hI.mem.nodup
      · rcases hn with ⟨z, hn⟩ | hn <;> rw [hn] <;> simp
      · rcases hnewown n with h1 | ⟨_, h1 | h1⟩
        · exact h1.symm.trans hn
        all_goals
          rw [h1] at hn
          cases hn
      · rcases hx with ⟨z, hx⟩ | hx <;> rw [hx] <;> simp
      · simp only [hleaf]
        exact hI.mem.dataLeaf n
    refine ⟨_, ⟨hM, hI.mapZone, hI.entryZone, hI.zones, fun m hm => (hI.map m hm).congr rfl
      fun _ _ => rfl, hI.user, fun m hm => Set.mem_insert_of_mem _ (hI.pmap m hm), hI.pmaps, hI.elem,
      hI.entry, hI.apart⟩, ⟨hleaf, fun x hx => hmem x (hI.mem.data_own hx), hsame, fun n hn => ?_,
      fun n hn => ?_, fun x hx => hmem x (by rw [hx]; simp)⟩, rfl, ?_, fun p hp => ?_⟩
    · exact (hold n (by rw [hn]; simp)).trans hn
    · dsimp only at hn ⊢
      rcases hnewown n with h1 | ⟨_, h1 | h1⟩
      · exact h1.symm
      all_goals
        rw [h1] at hn
        simp at hn
    · ext p
      simp [eq_comm]
    · obtain rfl := Option.some.inj hp
      exact ⟨hnew, fun va hva => hnone va hva.lower⟩

/-- The record that `vm_map_create` writes for a new map. -/
def vmMapNew (p : PmapPtr) : VmMap :=
  { vmMapZero with minOffset := userMapMin, maxOffset := userMapMax, refCount := 1, pmap := p }

/-- `s'` has the map `.elem a` with an empty list and the pmap `p`; all other maps and entries
are those of `s`. -/
structure NewMap (s s' : VmState) (a : Word) (p : PmapPtr) : Prop where
  map : s'.maps (.elem a) = vmMapNew p
  maps : ∀ m, m ≠ .elem a → s'.maps m = s.maps m
  header : s'.entries (.header (.elem a)) = { vmMapEntryZero with
    next := .header (.elem a), prev := .header (.elem a) }
  entries : ∀ e, e ≠ .header (.elem a) → s'.entries e = s.entries e
  mapZone : s'.vmMapZone = s.vmMapZone
  entryZone : s'.vmMapEntryZone = s.vmMapEntryZone

theorem NewMap.empty {s' : VmState} {a : Word} (hm : NewMap s s' a p) :
    VmMapInv s' (.elem a) [] := by
  refine ⟨ring_nil.mpr ⟨?_, ?_⟩, sorted_nil, by simp, ?_⟩
  · rw [VmState.next, hm.header]
  · rw [VmState.prev, hm.header]
  · rw [hm.map]
    rfl

theorem VmInv.elem_ne (hI : VmInv h g maps lists s) {a : Word} (hnew : a ∉ g.elems s.vmMapZone)
    {m : VmMapPtr} (hm : m ∈ maps) : m ≠ .elem a := by
  rintro rfl
  obtain ⟨b, hb, hab⟩ := hI.elem _ hm
  exact hnew (VmMapPtr.elem.inj hab ▸ hb)

/-- The header of a map is in no list of another one. -/
theorem VmInv.header_ne (hI : VmInv h g maps lists s) {m m' : VmMapPtr} (hm : m ∈ maps)
    (hne : m ≠ m') {e : EntryPtr} (he : e ∈ EntryPtr.header m :: lists m) : e ≠ .header m' := by
  rintro rfl
  rcases List.mem_cons.mp he with hc | he
  · exact hne (EntryPtr.header.inj hc).symm
  · exact hI.header_not_mem hm m' he

/-- A new map on a pmap that no map has keeps the invariant, once the frames are accounted for. -/
theorem NewMap.inv {s' : VmState} {g' : VmGhost} {a : Word} (hn : NewMap s s' a p)
    (hI : VmInv h g maps lists s) (hnew : a ∉ g.elems s.vmMapZone) (hp : p ∈ g.live)
    (hfree : ∀ m ∈ maps, (s.maps m).pmap ≠ p)
    (hmem : VmMemInv h g' s'.pm s'.zoneStore s'.data) (hlive : g'.live = g.live)
    (helems : g'.elems = Function.update g.elems s.vmMapZone (insert a (g.elems s.vmMapZone)))
    (hcount : s'.zoneStore.zoneCount = s.zoneStore.zoneCount) :
    VmInv h g' (insert (.elem a) maps) (Function.update lists (.elem a) []) s' := by
  have hout (m : VmMapPtr) (hm : m ∈ maps) : m ≠ .elem a := hI.elem_ne hnew hm
  have hself : Function.update lists (.elem a) [] (.elem a) = [] := Function.update_self _ _ _
  have hlist (m : VmMapPtr) (hm : m ∈ maps) : Function.update lists (.elem a) [] m = lists m :=
    Function.update_of_ne (hout m hm) _ _
  have hpmap (m : VmMapPtr) (hm : m ∈ maps) : (s'.maps m).pmap = (s.maps m).pmap := by
    rw [hn.maps m (hout m hm)]
  refine ⟨hmem, ?_, ?_, ?_, ?_, ?_, ?_, ?_, ?_, ?_, ?_⟩
  · rw [hn.mapZone, hcount]
    exact hI.mapZone
  · rw [hn.entryZone, hcount]
    exact hI.entryZone
  · rw [hn.mapZone, hn.entryZone]
    exact hI.zones
  · rintro m (rfl | hm)
    · rw [hself]
      exact hn.empty
    · rw [hlist m hm]
      exact (hI.map m hm).congr (hn.maps m (hout m hm)) fun e he =>
        hn.entries e (hI.header_ne hm (hout m hm) he)
  · rintro m (rfl | hm)
    · rw [hn.map]
      exact ⟨rfl, rfl⟩
    · rw [hn.maps m (hout m hm)]
      exact hI.user m hm
  · rw [hlive]
    rintro m (rfl | hm)
    · rw [hn.map]
      exact hp
    · rw [hpmap m hm]
      exact hI.pmap m hm
  -- no map of `s` has `p`, so the new one shares its pmap with none
  · rintro m (rfl | hm) m' (rfl | hm') he
    · rfl
    · rw [hpmap m' hm', hn.map] at he
      exact absurd he.symm (hfree m' hm')
    · rw [hpmap m hm, hn.map] at he
      exact absurd he (hfree m hm)
    · rw [hpmap m hm, hpmap m' hm'] at he
      exact hI.pmaps m hm m' hm' he
  · rw [hn.mapZone, helems, Function.update_self]
    rintro m (rfl | hm)
    · exact ⟨a, Set.mem_insert _ _, rfl⟩
    · obtain ⟨b, hb, rfl⟩ := hI.elem m hm
      exact ⟨b, Set.mem_insert_of_mem _ hb, rfl⟩
  · rw [hn.entryZone, helems, Function.update_of_ne hI.zones.symm]
    rintro m (rfl | hm) e he
    · rw [hself] at he
      simp at he
    · rw [hlist m hm] at he
      exact hI.entry m hm e he
  · rintro m (rfl | hm) m' (rfl | hm') hmm e he
    · exact absurd rfl hmm
    · rw [hself] at he
      simp at he
    · rw [hself]
      simp
    · rw [hlist m hm] at he
      rw [hlist m' hm']
      exact hI.apart m hm m' hm' hmm e he

/-- `vm_map_create` on a pmap that no map has: an empty map, or nothing. -/
theorem vmMapCreate_spec (hI : VmInv h g maps lists s) (hp : p ∈ g.live)
    (hfree : ∀ m ∈ maps, (s.maps m).pmap ≠ p) :
    vmMapCreate h s p userMapMin userMapMax = (vmMapNull, s) ∨
    ∃ a s' g', vmMapCreate h s p userMapMin userMapMax = (.elem a, s') ∧ a ≠ 0 ∧
      .elem a ∉ maps ∧
      VmInv h g' (insert (.elem a) maps) (Function.update lists (.elem a) []) s' ∧
      Kept h g.live g.own g'.own s.pm s'.pm s.data ∧ g'.live = g.live ∧ s'.data = s.data ∧
      s'.pm.pmaps = s.pm.pmaps ∧ s'.active = s.active ∧ (s'.maps (.elem a)).pmap = p ∧
      (∀ m, m ≠ .elem a → s'.maps m = s.maps m) ∧
      ∀ e, e ≠ .header (.elem a) → s'.entries e = s.entries e := by
  obtain ⟨a, zone, k, ha⟩ : ∃ a zone k,
    zalloc h (s.zoneStore.zones s.vmMapZone) s.pm.kmem = (a, zone, k) := ⟨_, _, _, rfl⟩
  rcases hI.mem.zalloc hI.mapZone ha with ⟨rfl, hz, hk⟩ |
    ⟨hne, hnew, own', pages', hmem, hkept⟩
  · left
    rw [vmMapCreate, zalloc_fail s ha hz hk]
    rfl
  right
  obtain ⟨s', hs'⟩ : ∃ s', s' = (({ s with
      pm := { s.pm with kmem := k }
      zoneStore := s.zoneStore.set s.vmMapZone zone } : VmState).setMap (.elem a)
    (vmMapNew p)).setEntry (.header (.elem a)) { vmMapEntryZero with
      next := .header (.elem a), prev := .header (.elem a) } := ⟨_, rfl⟩
  have hrun : vmMapCreate h s p userMapMin userMapMax = (.elem a, s') := by
    rw [vmMapCreate, VmState.zalloc, ha]
    dsimp only
    rw [if_neg hne, mapListInit, setEntry_entries, setEntry_setEntry, hs']
    rfl
  have hnewMap : NewMap s s' a p := by
    subst hs'
    exact ⟨Function.update_self _ _ _, fun m hm => Function.update_of_ne hm _ _,
      setEntry_entries _ _ _, fun e he => Function.update_of_ne he _ _, rfl, rfl⟩
  have hfields : s'.pm = { s.pm with kmem := k } ∧
      s'.zoneStore = s.zoneStore.set s.vmMapZone zone ∧ s'.data = s.data ∧
      s'.active = s.active := by
    rw [hs']
    exact ⟨rfl, rfl, rfl, rfl⟩
  obtain ⟨hpm, hstore, hdata, hactive⟩ := hfields
  refine ⟨a, s', ⟨own', g.live, pages', Function.update g.elems s.vmMapZone
    (insert a (g.elems s.vmMapZone))⟩, hrun, hne, fun hc => hI.elem_ne hnew hc rfl, ?_, ?_, rfl,
    hdata, ?_, hactive, ?_, hnewMap.maps, hnewMap.entries⟩
  · refine hnewMap.inv hI hnew hp hfree ?_ rfl rfl ?_
    · rw [hpm, hstore, hdata]
      exact hmem
    · rw [hstore]
      rfl
  · rw [hpm]
    exact hkept
  · rw [hpm]
  · rw [hnewMap.map]
    rfl

end Create

/-- The state that `vm_map_init` finds: no zone has been made, nothing is mapped, and page 0,
the kernel's PML4 and the tables below it are in use. -/
structure VmBoot (h : Hhdm) (s : VmState) : Prop where
  pmap : PmapBoot h s.pm
  tables : ∀ q t, q ≠ [] → q.length ≤ 3 →
    hwTable h s.pm.kmem.mem (s.pm.pmaps .kernel).pml4Phys q = some t →
    ¬ s.pm.kmem.pmm.Free (pageOf t)
  zones : s.zoneStore.zoneCount = 0
  data : s.data = []

/-- Nothing is mapped and nothing is taken at first. -/
def vmGhostBoot (pmm : Pmm) : VmGhost := ⟨bootOwner pmm, ∅, fun _ => ∅, fun _ => ∅⟩

theorem VmBoot.init {h : Hhdm} {s : VmState} (hb : VmBoot h s) : ∃ s', vmMapInit s = some s' ∧
    VmInv h (vmGhostBoot s.pm.kmem.pmm) ∅ (fun _ => []) s' ∧ s'.pm = s.pm ∧ s'.data = [] := by
  have hz0 : ZonesInv h s.pm.kmem s.zoneStore (fun _ => ∅) fun _ => ∅ := by
    refine ⟨hb.pmap.pageZero, fun z hz => ?_, fun _ _ => ⟨rfl, rfl⟩, fun _ _ _ _ h0 => h0.elim⟩
    rw [hb.zones] at hz
    omega
  obtain ⟨st1, hst1⟩ : ∃ st1, st1 = (zinit s.zoneStore sizeofVmMapEntry 0).2 := ⟨_, rfl⟩
  obtain ⟨st2, hst2⟩ : ∃ st2, st2 = (zinit st1 sizeofVmMap 0).2 := ⟨_, rfl⟩
  have h1 : zinit s.zoneStore sizeofVmMapEntry 0 = (some 0, st1) := by
    rw [hst1, zinit, hb.zones]
    rfl
  have hc1 : st1.zoneCount = 1 := by
    rw [hst1, zinit, hb.zones]
    rfl
  have h2 : zinit st1 sizeofVmMap 0 = (some 1, st2) := by
    rw [hst2, zinit, hc1]
    rfl
  have hc2 : st2.zoneCount = 2 := by
    rw [hst2, zinit, hc1]
    rfl
  have hz1 : ZonesInv h s.pm.kmem st1 (fun _ => ∅) fun _ => ∅ := hst1 ▸ hz0.zinit 0 (by decide)
  have hz2 : ZonesInv h s.pm.kmem st2 (fun _ => ∅) fun _ => ∅ := hst2 ▸ hz1.zinit 0 (by decide)
  have hmem : VmMemInv h (vmGhostBoot s.pm.kmem.pmm) s.pm st2 s.data := by
    refine ⟨hb.pmap.inv, hz2, fun z n => ⟨fun hn => hn.elim, fun ho => ?_⟩, fun p hp => hp.elim, fun n => ?_, ?_, fun q t hne hq ht =>
      if_neg (hb.tables q t hne hq ht)⟩
    · change bootOwner s.pm.kmem.pmm n = _ at ho
      unfold bootOwner at ho
      split_ifs at ho
    · rw [hb.data]
      refine ⟨fun hn => absurd hn List.not_mem_nil, fun hleaf => ?_⟩
      obtain ⟨p, q, i, ho⟩ := hleaf
      change bootOwner s.pm.kmem.pmm n = _ at ho
      unfold bootOwner at ho
      split_ifs at ho
    · rw [hb.data]
      exact List.nodup_nil
  obtain ⟨s', hs'⟩ : ∃ s', vmMapInit s = some s' ∧ s'.pm = s.pm ∧ s'.zoneStore = st2 ∧
      s'.data = s.data ∧ s'.vmMapZone = 1 ∧ s'.vmMapEntryZone = 0 := by
    unfold vmMapInit
    rw [h1]
    dsimp only
    rw [h2]
    exact ⟨_, rfl, rfl, rfl, rfl, rfl, rfl⟩
  obtain ⟨hrun, hpm, hstore, hdata, hmz, hez⟩ := hs'
  refine ⟨s', hrun, ?_, hpm, hdata.trans hb.data⟩
  refine ⟨by rw [hpm, hstore, hdata]; exact hmem, ?_, ?_, ?_, ?_, ?_, ?_, ?_, ?_, ?_, ?_⟩
  · rw [hmz, hstore, hc2]
    decide
  · rw [hez, hstore, hc2]
    decide
  · rw [hmz, hez]
    decide
  all_goals
    intro m hm
    exact hm.elim

/-- Pages 0 to 2 are in use and the kernel's PML4, in page 1, is empty. -/
def vmBootState : VmState where
  pm := ⟨⟨pmmThree, fun _ => 0⟩, fun _ => ⟨0x1000, 1⟩⟩
  zoneStore := ⟨fun _ => ⟨0, 0, 0, 0, 0, 0⟩, 0⟩
  vmMapZone := 0
  vmMapEntryZone := 0
  maps := fun _ => vmMapZero
  entries := fun _ => vmMapEntryZero
  active := .kernel
  data := []

theorem vmBootState_boot : VmBoot higherHalf vmBootState := by
  refine ⟨⟨by decide, by decide, by decide⟩, fun q t hne _ ht => ?_, rfl, rfl⟩
  exact absurd (hwTable_blank ht).1 hne

def vmBooted : VmState := (vmMapInit vmBootState).getD vmBootState

theorem vmBooted_init : vmMapInit vmBootState = some vmBooted := rfl

/-- The first pmap and the first map that are made after `vmBooted`. -/
def vmFirstPmap : VmState := { vmBooted with pm := (pmapCreate higherHalf vmBooted.pm).2 }

def vmFirstMap : VmMapPtr := .elem 0xffff800000005fa0

def vmFirst : VmState := (vmMapCreate higherHalf vmFirstPmap (.page 0x4000) userMapMin userMapMax).2

theorem vmFirstPmap_create : pmapCreate higherHalf vmBooted.pm = (some (.page 0x4000), vmFirstPmap.pm) :=
  Prod.ext (by decide +kernel) rfl

set_option maxRecDepth 20000 in
theorem vmFirst_create : vmMapCreate higherHalf vmFirstPmap (.page 0x4000) userMapMin userMapMax =
    (vmFirstMap, vmFirst) := Prod.ext (by decide +kernel) rfl

end Dana
