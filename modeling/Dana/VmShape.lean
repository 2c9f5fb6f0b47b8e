import Dana.VmAttrs

/-! What the page loops and the list loop of vm_map.c leave alone in every state, whatever the
page tables and the zones hold. -/
namespace Dana
open ByteMem AddrLoop LinkedRing IntervalList

/-- The page tables, the memory and the data pages may have changed. -/
structure PagesOnly (s s' : VmState) : Prop where
  eq : s' = { s with pm := s'.pm, data := s'.data }
  pmaps : s'.pm.pmaps = s.pm.pmaps

/-- The parts of the maps that no call changes are the same, and so is CR3. -/
structure SameMaps (s s' : VmState) : Prop where
  active : s'.active = s.active
  fixed : ∀ m, (s'.maps m).fixed = (s.maps m).fixed
  pmaps : s'.pm.pmaps = s.pm.pmaps

section Shape
variable {h : Hhdm} {s s' s'' : VmState} {p : PmapPtr} {a start stop flags : Word} {m : VmMapPtr}

theorem PagesOnly.refl : PagesOnly s s := ⟨rfl, rfl⟩

theorem PagesOnly.trans (h1 : PagesOnly s s') (h2 : PagesOnly s' s'') : PagesOnly s s'' := by
  refine ⟨?_, h2.pmaps.trans h1.pmaps⟩
  rw [h2.eq, h1.eq]

theorem PagesOnly.maps (hs : PagesOnly s s') : s'.maps = s.maps := by rw [hs.eq]
theorem PagesOnly.entries (hs : PagesOnly s s') : s'.entries = s.entries := by rw [hs.eq]

theorem PagesOnly.same (hs : PagesOnly s s') : SameMaps s s' := by
  refine ⟨?_, fun m => ?_, hs.pmaps⟩
  · rw [hs.eq]
  · rw [hs.maps]

theorem SameMaps.refl : SameMaps s s := ⟨rfl, fun _ => rfl, rfl⟩

theorem SameMaps.trans (h1 : SameMaps s s') (h2 : SameMaps s' s'') : SameMaps s s'' :=
  ⟨h2.active.trans h1.active, fun m => (h2.fixed m).trans (h1.fixed m), h2.pmaps.trans h1.pmaps⟩

theorem PagesOnly.mapInv (hs : PagesOnly s s') {l : List EntryPtr} (hm : VmMapInv s m l) :
    VmMapInv s' m l :=
  hm.congr (congrFun hs.maps m) fun e _ => congrFun hs.entries e

theorem pmapMap_pmaps (s : PmapState) (paddr : Word) :
    (pmapMap h s p a paddr flags).2.pmaps = s.pmaps := by
  unfold pmapMap
  split <;> rfl

theorem pmapUnmap_pmaps (s : PmapState) : (pmapUnmap h s p a).2.pmaps = s.pmaps := by
  unfold pmapUnmap
  split
  · rfl
  · split_ifs <;> rfl

theorem vmPageIn_only : PagesOnly s (vmPageIn h s p a flags).2 ∧
    s.data ⊆ (vmPageIn h s p a flags).2.data := by
  unfold vmPageIn VmState.allocPage
  dsimp only
  split_ifs with hpa hr
  · exact ⟨⟨rfl, rfl⟩, List.Subset.refl _⟩
  · refine ⟨⟨rfl, pmapMap_pmaps _ _⟩, ?_⟩
    simp only [VmState.freePage, VmState.zeroPage, List.erase_cons_head]
    exact List.Subset.refl _
  · exact ⟨⟨rfl, pmapMap_pmaps _ _⟩, List.subset_cons_self _ _⟩

theorem vmPageOut_only : PagesOnly s (vmPageOut h s p a) := by
  unfold vmPageOut
  dsimp only
  split_ifs
  · exact PagesOnly.refl
  · exact ⟨rfl, pmapUnmap_pmaps _⟩

/-- The state in which the loop over mapped pages ends. -/
def pagesInState : Except (Word × VmState) VmState → VmState
  | .ok s => s
  | .error (_, s) => s

theorem vmPagesIn_only {r : Except (Word × VmState) VmState}
    (hr : vmPagesIn h p flags stop start s = some r) :
    PagesOnly s (pagesInState r) ∧ s.data ⊆ (pagesInState r).data := by
  refine forAddr_inv _ _ _ (fun _ s' => PagesOnly s s' ∧ s.data ⊆ s'.data)
    (fun r => PagesOnly s (pagesInState r) ∧ s.data ⊆ (pagesInState r).data)
    (fun b s' _ hI => ?_) (fun _ _ _ hI => hI) addrFuel start s
    ⟨PagesOnly.refl, List.Subset.refl _⟩ r hr
  have hpage : PagesOnly s (vmPageIn h s' p b flags).2 ∧ s.data ⊆ (vmPageIn h s' p b flags).2.data :=
    ⟨hI.1.trans vmPageIn_only.1, List.Subset.trans hI.2 vmPageIn_only.2⟩
  cases hb : vmPageIn h s' p b flags with
  | mk ok t =>
    rw [hb] at hpage
    cases ok with
    | true =>
      refine ⟨fun t' ht => ?_, fun r hr => by cases hr⟩
      obtain rfl := Except.ok.inj ht
      exact hpage
    | false =>
      refine ⟨fun t' ht => (by cases ht), fun r hr => ?_⟩
      obtain rfl := Except.error.inj hr
      exact hpage

theorem vmPagesOut_only (hr : vmPagesOut h p stop start s = some s') : PagesOnly s s' := by
  rw [vmPagesOut, Option.map_eq_some_iff] at hr
  obtain ⟨r, hr, rfl⟩ := hr
  refine forAddr_inv _ _ _ (fun _ s' => PagesOnly s s') (fun r => PagesOnly s (stateOf r))
    (fun b s' _ hI => ⟨fun t ht => ?_, fun r hr => by cases hr⟩) (fun _ _ _ hI => hI) addrFuel start s
    PagesOnly.refl r hr
  obtain rfl := Except.ok.inj ht
  exact hI.trans vmPageOut_only

theorem vmMapDropEntry_same (e : EntryPtr) : SameMaps s (vmMapDropEntry s m e) := by
  cases e with
  | header m' => exact ⟨rfl, fun _ => setMap_nentries_fixed _ _ _ _, rfl⟩
  | elem a => exact ⟨rfl, fun _ => setMap_nentries_fixed _ _ _ _, rfl⟩

theorem vmMapRemove_same {size : Word} {r : KernReturn}
    (hr : vmMapRemove h s m start size = some (r, s')) : r = .success ∧ SameMaps s s' := by
  unfold vmMapRemove at hr
  dsimp only at hr
  split at hr
  · rename_i t ht
    obtain ⟨rfl, rfl⟩ := Prod.mk.inj (Option.some.inj hr)
    refine ⟨rfl, ?_⟩
    refine forNodes_inv _ _ (fun t => SameMaps s t) (fun r => ∀ t, r = .ok t → SameMaps s t)
      (fun e t hI => ?_) (fun t hI t' ht => Except.ok.inj ht ▸ hI) _ _ s SameMaps.refl _ ht _ rfl
    refine ⟨fun t' e' hb => ?_, fun q _ t' ht => by cases ht⟩
    by_cases hskip : start+size ≤ (t.entries e).start ∨ (t.entries e).stop ≤ start
    · rw [if_pos hskip] at hb
      obtain ⟨rfl, _⟩ := Prod.mk.inj (Except.ok.inj hb)
      exact hI
    · rw [if_neg hskip] at hb
      split at hb
      · cases hb
      · rename_i t1 ht1
        obtain ⟨rfl, _⟩ := Prod.mk.inj (Except.ok.inj hb)
        exact (hI.trans (vmPagesOut_only ht1).same).trans (vmMapDropEntry_same e)
  · cases hr

/-- `vm_map_page_range` in any state. -/
theorem vmMapPageRange_same {size : Word} {prot : BitVec 32} {r : KernReturn}
    (hr : vmMapPageRange h s m start size prot = some (r, s')) : SameMaps s s' := by
  unfold vmMapPageRange at hr
  split_ifs at hr with hok
  · obtain ⟨_, rfl⟩ := Prod.mk.inj (Option.some.inj hr)
    exact SameMaps.refl
  · rw [Option.bind_eq_some_iff] at hr
    obtain ⟨x, hx, hr⟩ := hr
    obtain ⟨honly, _⟩ := vmPagesIn_only hx
    cases x with
    | ok t =>
      obtain ⟨_, rfl⟩ := Prod.mk.inj (Option.some.inj hr)
      exact honly.same
    | error at' =>
      dsimp only at hr
      rw [Option.map_eq_some_iff] at hr
      obtain ⟨y, hy, hr⟩ := hr
      obtain ⟨_, rfl⟩ := Prod.mk.inj hr
      exact honly.same.trans (vmMapRemove_same hy).2

/-- The range check is the only reason for `KERN_INVALID_ARGUMENT`, and no memory for
`KERN_NO_SPACE`. -/
theorem vmMapPageRange_result {size : Word} {prot : BitVec 32} {r : KernReturn}
    (hr : vmMapPageRange h s m start size prot = some (r, s')) :
    (vmRangeOk (s.maps m) start size = false ∧ r = .invalidArgument ∧ s' = s) ∨
    (vmRangeOk (s.maps m) start size = true ∧ (r = .success ∨ r = .noSpace)) := by
  unfold vmMapPageRange at hr
  cases hok : vmRangeOk (s.maps m) start size with
  | false =>
    rw [hok] at hr
    obtain ⟨rfl, rfl⟩ := Prod.mk.inj (Option.some.inj hr)
    exact Or.inl ⟨rfl, rfl, rfl⟩
  | true =>
    rw [hok] at hr
    obtain ⟨x, _, hr⟩ := Option.bind_eq_some_iff.mp hr
    refine Or.inr ⟨rfl, ?_⟩
    cases x with
    | ok t => exact Or.inl (Prod.mk.inj (Option.some.inj hr)).1.symm
    | error at' =>
      obtain ⟨y, _, hr⟩ := Option.map_eq_some_iff.mp hr
      exact Or.inr (Prod.mk.inj hr).1.symm

/-- What is mapped with success is mapped by the loop over the pages. -/
theorem vmMapPageRange_success {size : Word} {prot : BitVec 32}
    (hr : vmMapPageRange h s m start size prot = some (.success, s')) : start < start+size ∧
      vmPagesIn h (s.maps m).pmap (protToPte prot) (start+size) start s = some (.ok s') := by
  have hok : vmRangeOk (s.maps m) start size = true := by
    rcases vmMapPageRange_result hr with ⟨_, hbad, _⟩ | ⟨hok, _⟩
    · cases hbad
    · exact hok
  have hlt : start < start+size := by
    rw [BitVec.lt_def, vmRange_stop hok]
    have := (vmRangeOk_iff.mp hok).1
    omega
  rw [vmMapPageRange, hok] at hr
  obtain ⟨x, hx, hr⟩ : ∃ x, vmPagesIn h (s.maps m).pmap (protToPte prot) (start+size) start s =
    some x ∧ _ := Option.bind_eq_some_iff.mp hr
  cases x with
  | ok t =>
    obtain ⟨_, rfl⟩ := Prod.mk.inj (Option.some.inj hr)
    exact ⟨hlt, hx⟩
  | error x =>
    obtain ⟨y, _, hr⟩ := Option.map_eq_some_iff.mp hr
    cases (Prod.mk.inj hr).1

theorem vmRangeOk_fixed {v v' : VmMap} (hv : v'.fixed = v.fixed) (start size : Word) :
    vmRangeOk v' start size = vmRangeOk v start size := by
  obtain ⟨hmin, hmax, _⟩ := Prod.mk.inj hv |>.imp id Prod.mk.inj
  rw [vmRangeOk, vmRangeOk, hmin, hmax]

theorem vmMapDropEntry_eq (s : VmState) (m : VmMapPtr) (e : EntryPtr) : ∃ v k st,
    vmMapDropEntry s m e = { ((mapListRemove s e).setEntry e v).setMap m
        { s.maps m with nentries := (s.maps m).nentries-1 } with
      pm := { s.pm with kmem := k }
      zoneStore := st } := by
  cases e with
  | header m' =>
    refine ⟨(mapListRemove s (.header m')).entries (.header m'), s.pm.kmem, s.zoneStore, ?_⟩
    rw [VmState.setEntry, Function.update_eq_self]
    rfl
  | elem a =>
    exact ⟨{ (mapListRemove s (.elem a)).entries (.elem a) with
      start := (s.zoneStore.zones s.vmMapEntryZone).freeList }, _, _, rfl⟩

/-- Taking an entry out of a list, whatever the zone holds. -/
theorem VmMapInv.drop {xs ys : List EntryPtr} {e : EntryPtr} (hm : VmMapInv s m (xs ++ e :: ys)) :
    VmMapInv (vmMapDropEntry s m e) m (xs ++ ys) := by
  obtain ⟨v, k, st, hrun⟩ := vmMapDropEntry_eq s m e
  rw [hrun]
  exact (hm.remove rfl).congr rfl fun _ _ => rfl

theorem vmMapDropEntry_body {x e : EntryPtr} (hx : x ≠ e) :
    (vmMapDropEntry s m e).body x = s.body x := by
  obtain ⟨v, k, st, hrun⟩ := vmMapDropEntry_eq s m e
  rw [hrun]
  refine (congrFun (setEntry_body _ _ _) x).trans ?_
  rw [Function.update_of_ne hx, mapListRemove_body]

/-- `vm_map_remove` does nothing at all, or makes the list of the map shorter. -/
theorem vmMapRemove_list {size : Word} {r : KernReturn} {l : List EntryPtr}
    (hm : VmMapInv s m l)
    (hr : vmMapRemove h s m start size = some (r, s')) :
    s' = s ∨ ∃ l', VmMapInv s' m l' ∧ l' ⊆ l ∧ l'.length < l.length := by
  -- `done` is the part of the list that the loop has passed and kept
  obtain ⟨I, hI⟩ : ∃ I : List EntryPtr → VmState → Prop, I = fun es s1 =>
      ∃ done, VmMapInv s1 m (done ++ es) ∧ done ++ es ⊆ l ∧
        (s1 = s ∧ done ++ es = l ∨ (done ++ es).length < l.length) := ⟨_, rfl⟩
  have hstep (e : EntryPtr) (es : List EntryPtr) (s1 : VmState) (hinv : I (e :: es) s1) :
      (∃ s2 e', vmRemoveEntry h m start (start+size) e s1 = .ok (s2, e') ∧
        e' = (es ++ [EntryPtr.header m]).head (by simp) ∧ I es s2) ∨
      ∃ q, vmRemoveEntry h m start (start+size) e s1 = .error q ∧ True := by
    rw [hI] at hinv ⊢
    obtain ⟨done, hm1, hsub, hlist⟩ := hinv
    have hnext : (s1.entries e).next = (es ++ [EntryPtr.header m]).head (by simp) :=
      hm1.neighbours.2.1
    rw [vmRemoveEntry]
    by_cases hskip : start+size ≤ (s1.entries e).start ∨ (s1.entries e).stop ≤ start
    · rw [if_pos hskip]
      have hassoc : done ++ [e] ++ es = done ++ e :: es := by simp
      exact Or.inl ⟨s1, _, rfl, hnext, done ++ [e], hassoc ▸ hm1, hassoc ▸ hsub, hassoc ▸ hlist⟩
    rw [if_neg hskip]
    split
    · exact Or.inr ⟨_, rfl, trivial⟩
    rename_i s2 hs2
    have hdrop := ((vmPagesOut_only hs2).mapInv hm1).drop
    have hshort : (done ++ es).length < (done ++ e :: es).length := by simp
    refine Or.inl ⟨_, _, rfl, hnext, done, hdrop, fun x hx => hsub ?_, Or.inr ?_⟩
    · rcases List.mem_append.mp hx with hx | hx
      · exact List.mem_append_left _ hx
      · exact List.mem_append_right _ (List.mem_cons_of_mem _ hx)
    · rcases hlist with ⟨_, he⟩ | hlt
      · exact he ▸ hshort
      · exact hshort.trans hlt
  obtain ⟨q, hq, hend⟩ := forNodes_chain (.header m) (vmRemoveEntry h m start (start+size)) I
    (fun q => ∀ t, q = .ok t → I [] t) (fun e es s1 _ hinv => (hstep e es s1 hinv).imp_right
      fun hq => ⟨hq.choose, hq.choose_spec.1, fun _ ht => by cases ht⟩)
    (fun s1 hinv t ht => Except.ok.inj ht ▸ hinv) addrFuel l s hm.length_le hm.not_header
    (hI ▸ ⟨[], hm, List.Subset.refl _, Or.inl ⟨rfl, rfl⟩⟩)
  rw [vmMapRemove_eq, hm.ring.next_sentinel, hq] at hr
  cases q with
  | error u => cases hr
  | ok t =>
    obtain ⟨_, rfl⟩ := Prod.mk.inj (Option.some.inj hr)
    have ht := hend t rfl
    rw [hI] at ht
    obtain ⟨done, hm1, hsub, hlist⟩ := ht
    rw [List.append_nil] at hm1 hsub hlist
    exact hlist.imp (fun hs => hs.1) fun hlt => ⟨done, hm1, hsub, hlt⟩

end Shape

end Dana
