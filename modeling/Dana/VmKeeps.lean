import Dana.VmLives

/-! What the calls on a map keep because each of their steps keeps it: a rule over the steps, with
a property of the entries that the calls can reach. -/
namespace Dana
open ByteMem AddrLoop

/-- The steps that calls on the map `m` are made of keep `I`, and from the header of `m` they
reach entries of `N` only. -/
structure VmKeeps (m : VmMapPtr) (I : VmState → Prop) (N : EntryPtr → Prop) : Prop where
  header : N (.header m)
  elem : ∀ a, N (.elem a)
  links : ∀ s e, I s → N e → N (s.entries e).next ∧ N (s.entries e).prev
  pages : ∀ s s', PagesOnly s s' → I s → I s'
  zone : ∀ s z zone pm, I s → I { s with pm := pm, zoneStore := s.zoneStore.set z zone }
  pm : ∀ s pm, I s → I { s with pm := pm }
  map : ∀ s v, I s → I (s.setMap m v)
  entry : ∀ s a v, I s → N v.next → N v.prev → I (s.setEntry (.elem a) v)
  insert : ∀ s pos a, I s → N pos → I (mapListInsertAfter s pos (.elem a))
  remove : ∀ s e, I s → N e → I (mapListRemove s e)

namespace VmKeeps
variable {h : Hhdm} {m : VmMapPtr} {I : VmState → Prop} {N : EntryPtr → Prop} {s s' : VmState}
  {e e' : EntryPtr} {start size : Word}

theorem zfree (hk : VmKeeps m I N) (hI : I s) (z : ℕ) (a : Word) : I (s.zfree z a) := hk.zone s z _ _ hI

theorem entryAlloc (hk : VmKeeps m I N) (hI : I s) : I (vmMapEntryAlloc h s).2 := by
  have hz : I (s.zalloc h s.vmMapEntryZone).2 := hk.zone s _ _ _ hI
  rw [vmMapEntryAlloc]
  dsimp only
  split_ifs
  · exact hz
  · exact hk.entry _ _ _ hz (hk.elem 0) (hk.elem 0)

theorem entryFree (hk : VmKeeps m I N) (hI : I s) (e : EntryPtr) : I (vmMapEntryFree s e) := by
  cases e with
  | header m' => exact hI
  | elem a =>
    obtain ⟨hnext, hprev⟩ := hk.links s (.elem a) hI (hk.elem a)
    exact hk.entry _ a _ (hk.zfree hI s.vmMapEntryZone a) hnext hprev

theorem dropEntry (hk : VmKeeps m I N) (hI : I s) (he : N e) : I (vmMapDropEntry s m e) :=
  hk.map _ _ (hk.entryFree (hk.remove s e hI he) e)

theorem removeEntry (hk : VmKeeps m I N) (hI : I s) (he : N e) {stop : Word}
    (hr : vmRemoveEntry h m start stop e s = .ok (s', e')) : I s' ∧ N e' := by
  have hnext := (hk.links s e hI he).1
  rw [vmRemoveEntry] at hr
  by_cases hout : stop ≤ (s.entries e).start ∨ (s.entries e).stop ≤ start
  · rw [if_pos hout] at hr
    obtain ⟨rfl, rfl⟩ := Prod.mk.inj (Except.ok.inj hr)
    exact ⟨hI, hnext⟩
  · rw [if_neg hout] at hr
    revert hr
    cases ho : vmPagesOut h (s.maps m).pmap
        (if (s.entries e).stop < stop then (s.entries e).stop else stop)
        (if start < (s.entries e).start then (s.entries e).start else start) s with
    | none => exact fun hr => by cases hr
    | some s1 =>
      intro hr
      obtain ⟨rfl, rfl⟩ := Prod.mk.inj (Except.ok.inj hr)
      exact ⟨hk.dropEntry (hk.pages s s1 (vmPagesOut_only ho) hI) he, hnext⟩

theorem mapRemove (hk : VmKeeps m I N) (hI : I s) {r : KernReturn}
    (hr : vmMapRemove h s m start size = some (r, s')) : I s' := by
  rw [vmMapRemove_eq] at hr
  split at hr
  · rename_i s1 hloop
    obtain ⟨-, rfl⟩ := Prod.mk.inj (Option.some.inj hr)
    refine forNodes_inv_node _ _ (fun e t => I t ∧ N e) (fun r => ∀ t, r = .ok t → I t)
      (fun e t ht => ⟨fun t' e' hb => hk.removeEntry ht.1 ht.2 hb, fun q _ t' ht' => by cases ht'⟩)
      (fun t ht t' ht' => Except.ok.inj ht' ▸ ht.1) _ _ s ⟨hI, ?_⟩ _ hloop _ rfl
    exact (hk.links s _ hI hk.header).1
  · cases hr

/-- Pages are mapped one by one, and where that stops a range is removed. -/
theorem pagesIn (hk : VmKeeps m I N) (hI : I s) {p : PmapPtr} {flags stop : Word}
    {x : Except (Word × VmState) VmState} (hx : vmPagesIn h p flags stop start s = some x) :
    (∀ s1, x = .ok s1 → I s1) ∧
    ∀ a s1, x = .error (a, s1) → ∀ start size y, vmMapRemove h s1 m start size = some y → I y.2 := by
  have honly := hk.pages s _ (vmPagesIn_only hx).1 hI
  refine ⟨?_, ?_⟩
  · rintro s1 rfl
    exact honly
  · rintro a s1 rfl start size y hy
    exact hk.mapRemove honly hy

theorem mapPageRange (hk : VmKeeps m I N) (hI : I s) {prot : BitVec 32} {r : KernReturn}
    (hr : vmMapPageRange h s m start size prot = some (r, s')) : I s' := by
  rw [vmMapPageRange] at hr
  split_ifs at hr with hok
  · obtain ⟨-, rfl⟩ := Prod.mk.inj (Option.some.inj hr)
    exact hI
  · obtain ⟨x, hx, hr⟩ := Option.bind_eq_some_iff.mp hr
    obtain ⟨hdone, hundone⟩ := hk.pagesIn hI hx
    cases x with
    | ok s1 =>
      obtain ⟨-, rfl⟩ := Prod.mk.inj (Option.some.inj hr)
      exact hdone s1 rfl
    | error x =>
      obtain ⟨y, hy, hr⟩ := Option.map_eq_some_iff.mp hr
      obtain ⟨-, rfl⟩ := Prod.mk.inj hr
      exact hundone x.1 x.2 rfl _ _ y hy

theorem findPos (hk : VmKeeps m I N) (hI : I s) {pos : EntryPtr}
    (hp : vmMapFindPos s m start = some pos) : N pos := by
  obtain ⟨x, hx, rfl⟩ := Option.map_eq_some_iff.mp hp
  refine forNodes_inv_node _ _ (fun e pos => N e ∧ N pos) (fun r => N (stateOf r))
    (fun e pos hn => ⟨fun pos' e' hb => ?_, fun q hb => ?_⟩) (fun pos hn => hn.2) _ _ _
    ⟨(hk.links s _ hI hk.header).1, hk.header⟩ _ hx
  · split_ifs at hb
    obtain ⟨rfl, rfl⟩ := Prod.mk.inj (Except.ok.inj hb)
    exact ⟨(hk.links s e hI hn.1).1, hn.1⟩
  · split_ifs at hb
    obtain rfl := Except.error.inj hb
    exact hn.2

theorem mapEnter (hk : VmKeeps m I N) (hI : I s) {prot maxProt flags : BitVec 32} {r : KernReturn}
    (hr : vmMapEnter h s m start size prot maxProt flags = some (r, s')) : I s' := by
  rw [vmMapEnter] at hr
  dsimp only at hr
  by_cases hok : (!vmRangeOk (s.maps m) start size) = true
  · rw [if_pos hok] at hr
    obtain ⟨-, rfl⟩ := Prod.mk.inj (Option.some.inj hr)
    exact hI
  rw [if_neg hok] at hr
  obtain ⟨e, -, hr⟩ := Option.bind_eq_some_iff.mp hr
  by_cases he : e ≠ .header m
  · rw [if_pos he] at hr
    obtain ⟨-, rfl⟩ := Prod.mk.inj (Option.some.inj hr)
    exact hI
  rw [if_neg he] at hr
  have halloc : I (vmMapEntryAlloc h s).2 := hk.entryAlloc hI
  cases hs1 : vmMapEntryAlloc h s with
  | mk a s1 =>
    rw [hs1] at hr halloc
    dsimp only at hr halloc
    by_cases ha : a = 0
    · rw [if_pos ha] at hr
      obtain ⟨-, rfl⟩ := Prod.mk.inj (Option.some.inj hr)
      exact halloc
    rw [if_neg ha] at hr
    obtain ⟨pos, hpos, hr⟩ := Option.bind_eq_some_iff.mp hr
    obtain ⟨hnext, hprev⟩ := hk.links s1 (.elem a) halloc (hk.elem a)
    have hset := hk.entry s1 a { s1.entries (.elem a) with
      start := start, stop := start+size, prot := prot, maxProt := maxProt, flags := flags }
      halloc hnext hprev
    have hins (v : VmMap) := hk.map _ v (hk.insert _ pos a hset (hk.findPos hset hpos))
    by_cases hw : flags &&& vmeWired ≠ 0
    · rw [if_pos hw] at hr
      obtain ⟨x, hx, hr⟩ := Option.bind_eq_some_iff.mp hr
      obtain ⟨hdone, hundone⟩ := hk.pagesIn (hins _) hx
      cases x with
      | ok s2 =>
        obtain ⟨-, rfl⟩ := Prod.mk.inj (Option.some.inj hr)
        exact hdone s2 rfl
      -- a page that cannot be had takes back the entry and the pages before it
      | error x =>
        obtain ⟨y, hy, hr⟩ := Option.map_eq_some_iff.mp hr
        obtain ⟨-, rfl⟩ := Prod.mk.inj hr
        exact hundone x.1 x.2 rfl _ _ y hy
    · rw [if_neg hw] at hr
      obtain ⟨-, rfl⟩ := Prod.mk.inj (Option.some.inj hr)
      exact hins _

theorem fault (hk : VmKeeps m I N) (hI : I s) {addr : Word} {faultType : BitVec 32}
    {r : VmFaultReturn} (hr : vmFault h s m addr faultType = some (r, s')) : I s' := by
  rw [vmFault] at hr
  split_ifs at hr with hq
  · obtain ⟨-, rfl⟩ := Prod.mk.inj (Option.some.inj hr)
    exact hI
  · obtain ⟨e, -, hr⟩ := Option.map_eq_some_iff.mp hr
    cases e with
    | none =>
      obtain ⟨-, rfl⟩ := Prod.mk.inj hr
      exact hI
    | some e =>
      have hpage := hk.pages s (vmPageIn h s (s.maps m).pmap (addr &&& ~~~(pmmPageSize-1))
        (protToPte (s.entries e).prot)).2 vmPageIn_only.1 hI
      dsimp only at hr
      split_ifs at hr
      · obtain ⟨-, rfl⟩ := Prod.mk.inj hr
        exact hI
      · obtain ⟨-, rfl⟩ := Prod.mk.inj hr
        exact hI
      · cases hin : vmPageIn h s (s.maps m).pmap (addr &&& ~~~(pmmPageSize-1))
            (protToPte (s.entries e).prot) with
        | mk ok s1 =>
          rw [hin] at hr hpage
          cases ok with
          | true =>
            obtain ⟨-, rfl⟩ := Prod.mk.inj hr
            exact hpage
          | false =>
            obtain ⟨-, rfl⟩ := Prod.mk.inj hr
            exact hpage

/-- Every call on the map keeps it. -/
theorem run (hk : VmKeeps m I N) (hI : I s) {c : VmCall} (hr : c.run h s m = some s') : I s' := by
  cases c with
  | enter start size prot maxProt flags =>
    obtain ⟨x, hx, rfl⟩ := Option.map_eq_some_iff.mp hr
    exact hk.mapEnter hI hx
  | remove start size =>
    obtain ⟨x, hx, rfl⟩ := Option.map_eq_some_iff.mp hr
    exact hk.mapRemove hI hx
  | deallocate start size =>
    obtain ⟨x, hx, rfl⟩ := Option.map_eq_some_iff.mp hr
    exact hk.mapRemove hI hx
  | pageRange start size prot =>
    obtain ⟨x, hx, rfl⟩ := Option.map_eq_some_iff.mp hr
    exact hk.mapPageRange hI hx
  | fault addr faultType =>
    obtain ⟨x, hx, rfl⟩ := Option.map_eq_some_iff.mp hr
    exact hk.fault hI hx

theorem destroyEntry (hk : VmKeeps m I N) (hI : I s) (hr : vmDestroyEntry h m e s = .ok (s', e')) :
    I s' := by
  rw [vmDestroyEntry] at hr
  revert hr
  cases ho : vmPagesOut h (s.maps m).pmap (s.entries e).stop (s.entries e).start s with
  | none => exact fun hr => by cases hr
  | some s1 =>
    intro hr
    obtain ⟨rfl, -⟩ := Prod.mk.inj (Except.ok.inj hr)
    exact hk.entryFree (hk.pages s s1 (vmPagesOut_only ho) hI) e

theorem mapDestroy (hk : VmKeeps m I N) (hI : I s) (hr : vmMapDestroy h s m = some s') : I s' := by
  cases m with
  | kernel =>
    obtain rfl := Option.some.inj hr
    exact hI
  | elem a =>
    have href := hk.map s { s.maps (.elem a) with refCount := (s.maps (.elem a)).refCount-1 } hI
    rw [vmMapDestroy] at hr
    dsimp only at hr
    split_ifs at hr
    · obtain rfl := Option.some.inj hr
      exact href
    · obtain ⟨s2, hs2, rfl⟩ := Option.map_eq_some_iff.mp hr
      rw [vmMapFreeEntries_eq] at hs2
      split at hs2
      · rename_i s3 hloop
        obtain rfl := Option.some.inj hs2
        refine hk.zfree (hk.pm _ _ ?_) _ _
        exact forNodes_inv _ _ I (fun r => ∀ t, r = .ok t → I t)
          (fun e t ht => ⟨fun t' e' hb => hk.destroyEntry ht hb, fun q _ t' ht' => by cases ht'⟩)
          (fun t ht t' ht' => Except.ok.inj ht' ▸ ht) _ _ _ href _ hloop _ rfl
      · cases hs2

end VmKeeps

end Dana
