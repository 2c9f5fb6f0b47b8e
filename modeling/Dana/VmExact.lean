import Dana.VmAttrs

/-! What `vm_map_enter` and `vm_map_remove` do to the addresses of a map: the first does all or
nothing, the second takes whole entries out. -/
namespace Dana
open ByteMem RadixTree LinkedRing IntervalList Transition

section Undo
variable {h : Hhdm} {live : Set PmapPtr} {own own' own'' : ℕ → Owner} {p : PmapPtr}
  {pm pm' pm'' : PmapState} {data data' data'' : List ℕ} {flags : Word} {done as : List Word}

/-- Pages that were not mapped are mapped, and then they and others that were not are
unmapped: every page and every frame is as before. -/
theorem MappedIn.undone (hin : MappedIn h live p flags done own own' pm pm' data data')
    (hout : MappedOut h live p as own' own'' pm' pm'' data' data'') (hsub : ∀ a ∈ done, a ∈ as)
    (hnd : (done.map pageOf).Nodup) (hva : ∀ a ∈ as, UserVa a)
    (hmiss : ∀ a ∈ as, pteOf h pm p a = none) :
    (∀ va, UserVa va → pteOf h pm'' p va = pteOf h pm p va) ∧ ∀ n, n ∈ data'' ↔ n ∈ data := by
  constructor
  · intro va hu
    by_cases has : ∃ a ∈ as, pageOf a = pageOf va
    · obtain ⟨a, ha, hpage⟩ := has
      rw [hout.gone va hu ⟨a, ha, hpage⟩, ← pteOf_page (hva a ha) hu hpage, hmiss a ha]
    · push Not at has
      rw [hout.other va hu has, hin.other va hu fun a ha => has a (hsub a ha)]
  · intro n
    rw [hout.mem_data]
    constructor
    · rintro ⟨hn, hall⟩
      rcases hin.target hnd n hn with hn | ⟨a, ha, e, he, hen⟩
      · exact hn
      · exact absurd hen (hall a e (hva a (hsub a ha)) ⟨a, hsub a ha, rfl⟩ he)
    · intro hn
      obtain ⟨frames, hframes, _⟩ := hin.frames
      refine ⟨hframes ▸ List.mem_append_right _ hn, fun va e hu has he hen => ?_⟩
      by_cases hdone : ∃ a ∈ done, pageOf a = pageOf va
      · obtain ⟨pa, hpa, hnew, hpte⟩ := hin.mapped va hu hdone
        obtain rfl := Option.some.inj (he.symm.trans hpte)
        rw [pteFrame_mapEntry hpa] at hen
        exact hnew (hen ▸ hn)
      · push Not at hdone
        obtain ⟨a, ha, hpage⟩ := has
        rw [hin.other va hu hdone, ← pteOf_page (hva a ha) hu hpage, hmiss a ha] at he
        cases he

end Undo

section Enter
variable {h : Hhdm} {g g1 g' : VmGhost} {maps : Set VmMapPtr} {lists : VmMapPtr → List EntryPtr}
  {s s1 s2 s' : VmState} {m : VmMapPtr} {a start size : Word} {prot maxProt flags : BitVec 32}

theorem vmDrops_iff {stop : Word} {e : EntryPtr} : vmDrops s start stop e = true ↔
    Meets s.startOf s.stopOf start.toNat stop.toNat e := by
  rw [vmDrops, Bool.not_eq_true', decide_eq_false_iff_not, not_or, BitVec.not_le, BitVec.not_le,
    BitVec.lt_def, BitVec.lt_def, and_comm]
  rfl

/-- The new entry contains the addresses of the range, and the others what they did. -/
theorem Entered.attrs (hI : VmInv h g maps lists s) (hm : m ∈ maps)
    (he : Entered h g g1 maps lists m a start (start+size, prot, maxProt, flags) s s1)
    (hI' : VmInv h g' maps (Function.update lists m (vmPlace s start (.elem a) (lists m))) s2)
    (hbody : s2.body = s1.body) (addr : Word) :
    vmAttrs s2 m addr = if start ≤ addr ∧ addr < start+size then some (some (prot, maxProt, flags))
      else vmAttrs s m addr := by
  have hmap := hI'.map m hm
  have hlen := hI'.length_le hm
  rw [Function.update_self] at hmap hlen
  have hnew : s2.body (.elem a) = (start, start+size, prot, maxProt, flags) := by
    rw [hbody, he.body, Function.update_self]
  have hold (e : EntryPtr) (hel : e ∈ lists m) : s2.body e = s.body e := by
    rw [hbody, he.body, Function.update_of_ne]
    rintro rfl
    exact he.new hel
  have hcontains : s2.Contains (.elem a) addr ↔ start ≤ addr ∧ addr < start+size := by
    have h1 : (s2.entries (.elem a)).start = start := congrArg Prod.fst hnew
    have h2 : (s2.entries (.elem a)).stop = start+size := congrArg (fun b => b.2.1) hnew
    rw [VmState.Contains, h1, h2]
  have hin : EntryPtr.elem a ∈ vmPlace s start (.elem a) (lists m) := mem_vmPlace.mpr (Or.inl rfl)
  split_ifs with hc
  · rw [hmap.attrs_some hlen hin (hcontains.mpr hc)]
    exact congrArg (fun b : Word × Word × BitVec 32 × BitVec 32 × BitVec 32 =>
      some (some b.2.2)) hnew
  · refine (hI.map m hm).attrs_congr (hI.length_le hm) hmap hlen
      (fun e hel _ => ⟨mem_vmPlace.mpr (Or.inr hel), hold e hel⟩) fun e hel hce => ?_
    rcases mem_vmPlace.mp hel with rfl | hel
    · exact absurd (hcontains.mp hce) hc
    · exact ⟨hel, hold e hel⟩

/-- What the rollback takes out is the new entry, with the pages mapped for it. -/
theorem Entered.rollback (hm : m ∈ maps)
    (he : Entered h g g1 maps lists m a start (start+size, prot, maxProt, flags) s s1)
    {own' : ℕ → Owner} {pm' : PmapState} {data' : List ℕ}
    (hI' : VmInv h { g1 with own := own' } maps
      (Function.update lists m (vmPlace s start (.elem a) (lists m)))
      { s1 with pm := pm', data := data' })
    (hR : RemovedFrom h { g1 with own := own' } g' maps
      (Function.update lists m (vmPlace s start (.elem a) (lists m))) m start (start+size)
      { s1 with pm := pm', data := data' } s') :
    VmInv h g' maps lists s' ∧ (∀ e ∈ lists m, s'.body e = s.body e) ∧
      (∀ m', (s'.maps m').fixed = (s.maps m').fixed) ∧ g'.live = g.live ∧
      MappedOut h g.live (s.maps m).pmap (pageAddrs start (start+size)) own' g'.own pm' s'.pm
        data' s'.data := by
  obtain ⟨s2, hs2⟩ : ∃ s2 : VmState, s2 = { s1 with pm := pm', data := data' } := ⟨_, rfl⟩
  have hbody2 : s2.body = s1.body := by rw [hs2]; rfl
  have hfixed2 : s2.maps = s1.maps := by rw [hs2]
  rw [RemovedFrom] at hR
  rw [← hs2] at hI' hR
  have hsorted := (hI'.map m hm).sorted
  rw [Function.update_self, vmPlace] at hsorted
  rw [Function.update_self, vmPlace] at hR
  have hnew : s2.body (.elem a) = (start, start+size, prot, maxProt, flags) := by
    rw [hbody2, he.body, Function.update_self]
  have hst : (s2.entries (.elem a)).start = start := congrArg Prod.fst hnew
  have hsp : (s2.entries (.elem a)).stop = start+size := congrArg (fun b => b.2.1) hnew
  obtain ⟨hdrop, hkeep⟩ := hsorted.filter_meets (p := vmDrops s2 start (start+size)) fun e => by
    rw [vmDrops_iff, VmState.startOf, VmState.stopOf, hst, hsp]
  rw [hdrop, hkeep, List.takeWhile_append_dropWhile] at hR
  have haddrs : [EntryPtr.elem a].flatMap (vmDropAddrs s2 start (start+size)) =
      pageAddrs start (start+size) := by
    rw [List.flatMap_singleton, vmDropAddrs, hst, hsp, if_neg (BitVec.lt_irrefl _),
      if_neg (BitVec.lt_irrefl _)]
  have hout := hR.out
  have hpmap : (s2.maps m).pmap = (s.maps m).pmap := by
    rw [hfixed2]
    exact fixed_pmap (he.quiet.fixed m)
  rw [haddrs, hpmap, hs2] at hout
  have hlive : g'.live = g.live := hR.live.trans he.quiet.live
  refine ⟨?_, fun e hel => ?_, fun m' => ?_, hlive, he.quiet.live ▸ hout⟩
  · have hinv := hR.inv
    rwa [Function.update_idem, Function.update_eq_self] at hinv
  · have hne : e ≠ .elem a := fun hc => he.new (hc ▸ hel)
    rw [hR.body e (by simpa using hne), hbody2, he.body, Function.update_of_ne hne]
  · rw [hR.fixed m', hfixed2]
    exact he.quiet.fixed m'

/-- Where no page of the range was mapped, the pages mapped before memory ran out are gone
again and the others are what they were. -/
theorem Entered.undone
    (he : Entered h g g1 maps lists m a start (start+size, prot, maxProt, flags) s s1)
    {own' own'' : ℕ → Owner} {pm' pm'' : PmapState} {data' data'' : List ℕ} {pte b : Word}
    {done rest : List Word}
    (hin : MappedIn h g1.live (s.maps m).pmap pte done g1.own own' s1.pm pm' s1.data data')
    (hout : MappedOut h g.live (s.maps m).pmap (pageAddrs start (start+size)) own' own'' pm' pm''
      data' data'')
    (hlive : (s.maps m).pmap ∈ g.live) (hstop : (start+size).toNat ≤ 2^47)
    (hsplit : pageAddrs start (start+size) = done ++ b :: rest)
    (hmiss : ∀ va, UserVa va → start ≤ va → va < start+size →
      pteOf h s.pm (s.maps m).pmap va = none) :
    (∀ va, UserVa va → pteOf h pm'' (s.maps m).pmap va = pteOf h s.pm (s.maps m).pmap va) ∧
      ∀ n, n ∈ data'' ↔ n ∈ s.data := by
  have hsame (va : Word) (hu : UserVa va) : pteOf h s1.pm (s.maps m).pmap va =
      pteOf h s.pm (s.maps m).pmap va :=
    he.quiet.kept.same _ hlive _ _ (vaPath_path hu.lower) (vaPath_leaf va)
  have hnd : (done.map pageOf).Nodup := by
    have hall : ((pageAddrs start (start+size)).map pageOf).Nodup := pageAddrs_nodup hstop
    rw [hsplit, List.map_append] at hall
    exact hall.of_append_left
  have hu (x : Word) (hx : x ∈ pageAddrs start (start+size)) : UserVa x :=
    user_of_pageAddrs hstop hx
  obtain ⟨hpte, hdata⟩ := (he.quiet.live ▸ hin).undone hout (fun x hx => by
    rw [hsplit]
    exact List.mem_append_left _ hx) hnd hu fun x hx => by
      obtain ⟨hlt, k, hk⟩ := (mem_pageAddrs hstop).mp hx
      have hge : start ≤ x := by
        rw [BitVec.le_def]
        omega
      rw [hsame x (hu x hx)]
      exact hmiss x (hu x hx) hge hlt
  exact ⟨fun va hva => (hpte va hva).trans (hsame va hva), fun n => by rw [hdata, he.quiet.data]⟩

theorem vmMap_eq {v v' : VmMap} (hf : v'.fixed = v.fixed) (hn : v'.nentries = v.nentries) :
    v' = v := by
  cases v
  cases v'
  simp only [VmMap.fixed, Prod.mk.injEq] at hf hn
  obtain ⟨rfl, rfl, rfl, rfl⟩ := hf
  rw [hn]

end Enter

section World
variable {h : Hhdm} {w : VmWorld}

/-- The pmaps there are: the kernel's and those that `pmap_create` gave. -/
def VmWorld.Pmap (w : VmWorld) (p : PmapPtr) : Prop :=
  p = .kernel ∨ p ∈ w.pmaps ∨ ∃ m ∈ w.maps, (w.vm.maps m).pmap = p

theorem VmWorldInv.pmap {g : VmGhost} {lists : VmMapPtr → List EntryPtr}
    (hI : VmWorldInv h g lists w) {p : PmapPtr} (hp : w.Pmap p) : p = .kernel ∨ p ∈ g.live := by
  rcases hp with hp | hp | ⟨m, hm, rfl⟩
  · exact Or.inl hp
  · exact Or.inr (hI.spare p hp).1
  · exact Or.inr (hI.inv.pmap m hm)

/-- On success `vm_map_enter` gives the range its attributes and every other address what it
had. On an error the list is what it was; and where no page of the range was mapped, so are
all translations of all pmaps and the frames of the data pages. -/
theorem vm_map_enter_atomic {s₀ s : VmState} (hb : VmBoot h s₀) (hs : vmMapInit s₀ = some s)
    {trace : List VmOp} (hr : Run (VmStep h) (VmWorld.boot s) trace w) {m : VmMapPtr}
    (hm : m ∈ w.maps) (start size : Word) (prot maxProt flags : BitVec 32) :
    ∃ r s', vmMapEnter h w.vm m start size prot maxProt flags = some (r, s') ∧
      (r = .success → ∀ addr, vmAttrs s' m addr =
        if start ≤ addr ∧ addr < start+size then some (some (prot, maxProt, flags))
        else vmAttrs w.vm m addr) ∧
      (r ≠ .success → s'.maps m = w.vm.maps m ∧
        (∃ l : List EntryPtr,
          follow w.vm.next (.header m) l.length (w.vm.next (.header m)) = some l ∧
          follow s'.next (.header m) l.length (s'.next (.header m)) = some l ∧
          follow s'.prev (.header m) l.length (s'.prev (.header m)) = some l.reverse ∧
          ∀ e ∈ l, s'.body e = w.vm.body e) ∧
        ((∀ va, start ≤ va → va < start+size →
            pmapTranslation h w.vm.pm (w.vm.maps m).pmap va = none) →
          (∀ p, w.Pmap p → ∀ va, pmapTranslation h s'.pm p va = pmapTranslation h w.vm.pm p va) ∧
          ∀ n, n ∈ s'.data ↔ n ∈ w.vm.data)) := by
  obtain ⟨g, lists, hI⟩ := VmWorldInv.run hb hs hr
  have hinv := hI.inv
  have hmap := hinv.map m hm
  have hsame : w.vm.maps m = w.vm.maps m ∧ (∃ l : List EntryPtr,
      follow w.vm.next (.header m) l.length (w.vm.next (.header m)) = some l ∧
      follow w.vm.next (.header m) l.length (w.vm.next (.header m)) = some l ∧
      follow w.vm.prev (.header m) l.length (w.vm.prev (.header m)) = some l.reverse ∧
      ∀ e ∈ l, w.vm.body e = w.vm.body e) ∧ ((∀ va, start ≤ va → va < start+size →
        pmapTranslation h w.vm.pm (w.vm.maps m).pmap va = none) → (∀ p, w.Pmap p → ∀ va,
        pmapTranslation h w.vm.pm p va = pmapTranslation h w.vm.pm p va) ∧
        ∀ n, n ∈ w.vm.data ↔ n ∈ w.vm.data) :=
    ⟨rfl, ⟨lists m, hmap.ring.follow_next _ le_rfl, hmap.ring.follow_next _ le_rfl,
      hmap.ring.follow_prev _ le_rfl, fun _ _ => rfl⟩, fun _ => ⟨fun _ _ _ => rfl, fun _ => Iff.rfl⟩⟩
  rcases vmMapEnter_spec hinv hm start size prot maxProt flags with ⟨_, hrun⟩ |
    ⟨hok, hrun | ⟨a, s1, g1, he, _, ⟨_, hrun⟩ | ⟨_, own', pm', data', hI', ⟨hrun, _, hin⟩ |
      ⟨done, b, rest, s', g', hsplit, _, hrun, hin, hR⟩⟩⟩⟩
  · exact ⟨_, _, hrun, by simp, fun _ => hsame⟩
  · exact ⟨_, _, hrun, by simp, fun _ => hsame⟩
  · exact ⟨_, _, hrun, fun _ => he.attrs hinv hm he.inv rfl, by simp⟩
  · exact ⟨_, _, hrun, fun _ => he.attrs hinv hm hI' rfl, by simp⟩
  · refine ⟨_, _, hrun, by simp, fun _ => ?_⟩
    obtain ⟨hinv', hbody, hfixed, hlive, hout⟩ := he.rollback hm hI' hR
    have hmap' := hinv'.map m hm
    refine ⟨vmMap_eq (hfixed m) (hmap'.nentries.trans hmap.nentries.symm), ⟨lists m,
      hmap.ring.follow_next _ le_rfl, hmap'.ring.follow_next _ le_rfl,
      hmap'.ring.follow_prev _ le_rfl, hbody⟩, fun hmiss => ?_⟩
    have hstop := hinv.stop_le hm hok
    obtain ⟨hpt, hk⟩ := he.undone hin hout (hinv.pmap m hm) hstop hsplit fun va hu hge hlt =>
      (UserVa.translation hinv.mem (hinv.pmap m hm) hu).mp (hmiss va hge hlt)
    have hpaged := ((he.quiet.kept.paged he.quiet.pmaps).trans (he.quiet.data ▸ he.quiet.live ▸
      hin.paged)).trans hout.paged
    exact ⟨fun p hp va => hpaged.translation hinv.mem hinv'.mem hlive (hI.pmap hp) fun hpp hu =>
      hpp ▸ hpt va hu, hk⟩

/-- A wired entry in the first map. -/
theorem vm_map_enter_atomic_wired : ∃ r s',
    vmMapEnter higherHalf vmFirst vmFirstMap 0x1000 0x2000 3 7 1 = some (r, s') ∧
      (r = .success → vmAttrs s' vmFirstMap 0x2fff = some (some (3, 7, 1))) := by
  obtain ⟨r, s', hrun, hok, _⟩ := vm_map_enter_atomic vmBootState_boot vmBooted_init vmFirst_run
    (m := vmFirstMap) rfl 0x1000 0x2000 3 7 1
  exact ⟨r, s', hrun, fun hr => (hok hr 0x2fff).trans (if_pos (by decide))⟩

end World

section Remove
variable {h : Hhdm} {g g' : VmGhost} {maps : Set VmMapPtr} {lists : VmMapPtr → List EntryPtr}
  {s s' : VmState} {m : VmMapPtr} {start stop addr va : Word} {e : EntryPtr}

/-- A walk over the entry in steps of a page comes to the page of `va`. -/
def VmState.Visits (s : VmState) (e : EntryPtr) (va : Word) : Prop :=
  ∃ a ∈ pageAddrs (s.entries e).start (s.entries e).stop, pageOf a = pageOf va

theorem mem_kept : e ∈ (lists m).filter (fun e => !vmDrops s start stop e) ↔
    e ∈ lists m ∧ vmDrops s start stop e = false := by
  rw [List.mem_filter, Bool.not_eq_true']

theorem vmDrops_of_contains (hc : s.Contains e addr) (h1 : start ≤ addr) (h2 : addr < stop) :
    vmDrops s start stop e = true := by
  rw [vmDrops_iff]
  obtain ⟨h3, h4⟩ := hc
  exact ⟨Nat.lt_of_le_of_lt h1 h4, Nat.lt_of_le_of_lt h3 h2⟩

/-- The list of the map afterwards. -/
theorem RemovedFrom.kept (hR : RemovedFrom h g g' maps lists m start stop s s') (hm : m ∈ maps) :
    VmMapInv s' m ((lists m).filter fun e => !vmDrops s start stop e) ∧
      ((lists m).filter fun e => !vmDrops s start stop e).length ≤ addrFuel ∧
      ∀ e ∈ (lists m).filter (fun e => !vmDrops s start stop e), s'.body e = s.body e := by
  have hmap := hR.inv.map m hm
  have hlen := hR.inv.length_le hm
  rw [Function.update_self] at hmap hlen
  refine ⟨hmap, hlen, fun e he => hR.body e fun hd => ?_⟩
  have hkept := (mem_kept.mp he).2
  rw [(List.mem_filter.mp hd).2] at hkept
  cases hkept

/-- An address of the range, or of an entry that goes, has no attributes any more. -/
theorem RemovedFrom.attrs_none (hR : RemovedFrom h g g' maps lists m start stop s s')
    (hI : VmInv h g maps lists s) (hm : m ∈ maps)
    (ha : start ≤ addr ∧ addr < stop ∨
      ∃ e ∈ lists m, vmDrops s start stop e = true ∧ s.Contains e addr) :
    vmAttrs s' m addr = some none := by
  obtain ⟨hmap, hlen, hbody⟩ := hR.kept hm
  refine hmap.attrs_none hlen fun e he hc => ?_
  have hc := (contains_of_body (hbody e he) addr).mp hc
  obtain ⟨hel, hkept⟩ := mem_kept.mp he
  rcases ha with ⟨h1, h2⟩ | ⟨e', hel', hdrop, hc'⟩
  · rw [vmDrops_of_contains hc h1 h2] at hkept
    cases hkept
  · have hee := ((hI.map m hm).lookup_iff (hI.length_le hm) addr).1 e hel hc |>.2 e' hel' hc'
    rw [← hee, hdrop] at hkept
    cases hkept

/-- Every other address keeps what it had. -/
theorem RemovedFrom.attrs_same (hR : RemovedFrom h g g' maps lists m start stop s s')
    (hI : VmInv h g maps lists s) (hm : m ∈ maps)
    (ha : ∀ e ∈ lists m, vmDrops s start stop e = true → ¬ s.Contains e addr) :
    vmAttrs s' m addr = vmAttrs s m addr := by
  obtain ⟨hmap, hlen, hbody⟩ := hR.kept hm
  refine (hI.map m hm).attrs_congr (hI.length_le hm) hmap hlen (fun e he hc => ?_) fun e he _ =>
    ⟨(mem_kept.mp he).1, hbody e he⟩
  have hin : e ∈ (lists m).filter fun e => !vmDrops s start stop e := by
    refine mem_kept.mpr ⟨he, ?_⟩
    rw [← Bool.not_eq_true]
    exact fun hd => ha e he hd hc
  exact ⟨hin, hbody e hin⟩

/-- The range has no entry and no translation left, and every address outside it has the
attributes and the translation it had. -/
def RemovedExactly (h : Hhdm) (s s' : VmState) (m : VmMapPtr) (start stop : Word) : Prop :=
  ∀ va, if start ≤ va ∧ va < stop then
      vmAttrs s' m va = some none ∧ pmapTranslation h s'.pm (s.maps m).pmap va = none
    else vmAttrs s' m va = vmAttrs s m va ∧
      pmapTranslation h s'.pm (s.maps m).pmap va = pmapTranslation h s.pm (s.maps m).pmap va

theorem userVa_of_page {a : Word} (ha : UserVa a) (hpage : pageOf a = pageOf va) : UserVa va := by
  rw [pageOf_eq, pageOf_eq] at hpage
  have ha : a.toNat < 2^47 := ha
  show va.toNat < 2^47
  omega

theorem mem_vmDropAddrs (hI : VmInv h g maps lists s) (hm : m ∈ maps) (he : e ∈ lists m) {a : Word}
    (ha : a ∈ vmDropAddrs s start stop e) : UserVa a ∧ start ≤ a ∧ a < stop := by
  have hbound := ((hI.map m hm).inside e he).2
  rw [(hI.user m hm).2] at hbound
  have hmax : userMapMax.toNat = 2^47-1 := rfl
  have hstop : (s.entries e).stop.toNat ≤ userMapMax.toNat := hbound
  rw [vmDropAddrs] at ha
  have hle : (if (s.entries e).stop < stop then (s.entries e).stop else stop).toNat ≤ 2^47 := by
    split_ifs with hc
    · omega
    · rw [BitVec.lt_def] at hc
      omega
  refine ⟨user_of_pageAddrs hle ha, ?_⟩
  obtain ⟨hlt, k, hk⟩ := (mem_pageAddrs hle).mp ha
  simp only [BitVec.le_def, BitVec.lt_def] at hlt ⊢
  constructor
  · split_ifs at hk with hc
    · rw [BitVec.lt_def] at hc
      omega
    · omega
  · split_ifs at hlt <;> omega

/-- The pages that are visited are unmapped, and no other page. -/
theorem RemovedFrom.translation (hR : RemovedFrom h g g' maps lists m start stop s s')
    (hI : VmInv h g maps lists s) (hm : m ∈ maps) (va : Word) :
    ((∃ e ∈ lists m, vmDrops s start stop e = true ∧
        ∃ a ∈ vmDropAddrs s start stop e, pageOf a = pageOf va) →
      pmapTranslation h s'.pm (s.maps m).pmap va = none) ∧
    ((∀ e ∈ lists m, vmDrops s start stop e = true →
        ∀ a ∈ vmDropAddrs s start stop e, pageOf a ≠ pageOf va) →
      pmapTranslation h s'.pm (s.maps m).pmap va = pmapTranslation h s.pm (s.maps m).pmap va) := by
  have hlive := hI.pmap m hm
  have hmem (a : Word) : a ∈ ((lists m).filter (vmDrops s start stop)).flatMap
      (vmDropAddrs s start stop) ↔ ∃ e ∈ lists m, vmDrops s start stop e = true ∧
        a ∈ vmDropAddrs s start stop e := by
    simp only [List.mem_flatMap, List.mem_filter, and_assoc]
  constructor
  · rintro ⟨e, he, hdrop, a, ha, hpage⟩
    have hva := userVa_of_page (mem_vmDropAddrs hI hm he ha).1 hpage
    rw [UserVa.translation hR.inv.mem (hR.live ▸ hlive) hva]
    exact hR.out.gone va hva ⟨a, (hmem a).mpr ⟨e, he, hdrop, ha⟩, hpage⟩
  · intro hno
    refine hR.out.paged.translation hI.mem hR.inv.mem hR.live (Or.inr hlive) fun _ hva => ?_
    refine hR.out.other va hva fun a ha => ?_
    obtain ⟨e, he, hdrop, ha⟩ := (hmem a).mp ha
    exact hno e he hdrop a ha

theorem vmDropAddrs_inside (h1 : start ≤ (s.entries e).start) (h2 : (s.entries e).stop ≤ stop) :
    vmDropAddrs s start stop e = pageAddrs (s.entries e).start (s.entries e).stop := by
  rw [vmDropAddrs]
  congr 1
  · split_ifs with hc
    · rfl
    · exact BitVec.le_antisymm h1 (BitVec.not_lt.mp hc)
  · split_ifs with hc
    · rfl
    · exact BitVec.le_antisymm (BitVec.not_lt.mp hc) h2

end Remove

end Dana
