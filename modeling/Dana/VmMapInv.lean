import Dana.IntervalList
import Dana.LinkedRing
import Dana.VmPages

/-! The entry list of a map: a sorted circular list through its header, kept by every call
of vm_map.c. -/
namespace Dana
open ByteMem LinkedRing AddrLoop IntervalList

namespace VmState

def next (s : VmState) (e : EntryPtr) : EntryPtr := (s.entries e).next
def prev (s : VmState) (e : EntryPtr) : EntryPtr := (s.entries e).prev
def startOf (s : VmState) (e : EntryPtr) : ℕ := (s.entries e).start.toNat
def stopOf (s : VmState) (e : EntryPtr) : ℕ := (s.entries e).stop.toNat

end VmState

/-- The list of the map `m` is `l`. -/
structure VmMapInv (s : VmState) (m : VmMapPtr) (l : List EntryPtr) : Prop where
  ring : Ring s.next s.prev (.header m) l
  sorted : Sorted s.startOf s.stopOf l
  inside : ∀ e ∈ l, (s.maps m).minOffset.toNat ≤ s.startOf e ∧
    s.stopOf e ≤ (s.maps m).maxOffset.toNat
  nentries : (s.maps m).nentries = BitVec.ofNat 32 l.length

/-- The bounds that `exec_load` gives a map. -/
def userMapMin : Word := 0x1000
def userMapMax : Word := 0x7fffffffffff

/-- The user maps `maps`, each with its pmap and its list, over the frames. -/
structure VmInv (h : Hhdm) (g : VmGhost) (maps : Set VmMapPtr) (lists : VmMapPtr → List EntryPtr)
    (s : VmState) : Prop where
  mem : VmMemInv h g s.pm s.zoneStore s.data
  mapZone : s.vmMapZone < s.zoneStore.zoneCount
  entryZone : s.vmMapEntryZone < s.zoneStore.zoneCount
  zones : s.vmMapZone ≠ s.vmMapEntryZone
  map : ∀ m ∈ maps, VmMapInv s m (lists m)
  user : ∀ m ∈ maps, (s.maps m).minOffset = userMapMin ∧ (s.maps m).maxOffset = userMapMax
  pmap : ∀ m ∈ maps, (s.maps m).pmap ∈ g.live
  pmaps : ∀ m ∈ maps, ∀ m' ∈ maps, (s.maps m).pmap = (s.maps m').pmap → m = m'
  elem : ∀ m ∈ maps, ∃ a ∈ g.elems s.vmMapZone, m = .elem a
  entry : ∀ m ∈ maps, ∀ e ∈ lists m, ∃ a ∈ g.elems s.vmMapEntryZone, e = .elem a
  apart : ∀ m ∈ maps, ∀ m' ∈ maps, m ≠ m' → ∀ e ∈ lists m, e ∉ lists m'

section List
variable {s s' : VmState} {m : VmMapPtr} {l : List EntryPtr} {e : EntryPtr}

theorem VmMapInv.congr (hm : VmMapInv s m l) (hmap : s'.maps m = s.maps m)
    (he : ∀ e ∈ .header m :: l, s'.entries e = s.entries e) : VmMapInv s' m l := by
  have hel (e : EntryPtr) (hel : e ∈ l) : s'.entries e = s.entries e :=
    he e (List.mem_cons_of_mem _ hel)
  refine ⟨hm.ring.congr (fun e hx => congrArg VmMapEntry.next (he e hx))
    (fun e hx => congrArg VmMapEntry.prev (he e hx)), hm.sorted.congr
      (fun e hx => congrArg (fun v : VmMapEntry => v.start.toNat) (hel e hx))
      (fun e hx => congrArg (fun v : VmMapEntry => v.stop.toNat) (hel e hx)), fun e hx => ?_, ?_⟩
  · rw [VmState.startOf, VmState.stopOf, hel e hx, hmap]
    exact hm.inside e hx
  · rw [hmap]
    exact hm.nentries

theorem VmMapInv.not_header (hm : VmMapInv s m l) : EntryPtr.header m ∉ l :=
  (List.nodup_cons.mp hm.ring.nodup).1

theorem VmMapInv.nodup (hm : VmMapInv s m l) : l.Nodup := (List.nodup_cons.mp hm.ring.nodup).2

/-- The entries are disjoint, so the list is no longer than the address space. -/
theorem VmMapInv.length_le (hm : VmMapInv s m l) : l.length ≤ addrFuel := by
  have hlt := (s.maps m).maxOffset.isLt
  exact hm.sorted.length_le fun e he => (hm.inside e he).2.trans hlt.le

theorem VmMapInv.chain (hm : VmMapInv s m l) :
    (l ++ [EntryPtr.header m]).IsChain fun x y => s.next x = y := by
  have hl := hm.ring.linked.imp fun _ _ h => h.1
  exact (List.isChain_cons.mp hl).2

/-- A loop over the list finds what `List.find?` does. -/
theorem VmMapInv.find (hm : VmMapInv s m l) (hlen : l.length ≤ addrFuel) (p : VmMapEntry → Bool) :
    vmMapFind s m p = some ((l.find? fun e => p (s.entries e)).getD (.header m)) := by
  have hfind := forNodes_find (.header m) s.next (fun e => p (s.entries e)) addrFuel l hlen
    hm.not_header hm.chain
  rw [← hm.ring.next_sentinel] at hfind
  rw [vmMapFind]
  change (forNodes (EntryPtr.header m) (fun e (_ : Unit) =>
    if p (s.entries e) then Except.error e else .ok ((), s.next e)) addrFuel
    (s.next (.header m)) ()).map _ = _
  rw [hfind]
  cases l.find? fun e => p (s.entries e) <;> rfl

theorem VmMapInv.lookup (hm : VmMapInv s m l) (hlen : l.length ≤ addrFuel) (addr : Word) :
    vmMapLookupEntry s m addr = some (l.find? fun e =>
      decide ((s.entries e).start ≤ addr ∧ addr < (s.entries e).stop)) := by
  rw [vmMapLookupEntry, hm.find hlen, Option.map_some]
  cases hf : l.find? fun e => decide ((s.entries e).start ≤ addr ∧ addr < (s.entries e).stop) with
  | none => simp
  | some e =>
    have hne : e ≠ .header m := by
      rintro rfl
      exact hm.not_header (List.mem_of_find?_eq_some hf)
    simp [hne]

theorem VmMapInv.findPos (hm : VmMapInv s m l) (hlen : l.length ≤ addrFuel) (start : Word) :
    vmMapFindPos s m start = some
      ((.header m :: l.takeWhile fun e => decide ((s.entries e).start < start)).getLast
        (by simp)) := by
  obtain ⟨r, hr, hres⟩ := forNodes_while (.header m) s.next
    (fun e => decide ((s.entries e).start < start)) addrFuel l (.header m) hlen hm.not_header
    hm.chain
  rw [← hm.ring.next_sentinel] at hr
  simp only [decide_eq_true_eq] at hr
  have hrun : vmMapFindPos s m start = (some r).map stateOf := by
    rw [← hr]
    rfl
  rw [hrun]
  rcases hres with rfl | rfl <;> rfl

/-- Listed entries come from the zone, headers lie in their maps. -/
theorem VmInv.header_not_mem {h : Hhdm} {g : VmGhost} {maps : Set VmMapPtr}
    {lists : VmMapPtr → List EntryPtr} (hI : VmInv h g maps lists s) (hm : m ∈ maps)
    (m' : VmMapPtr) : EntryPtr.header m' ∉ lists m := by
  intro he
  obtain ⟨b, _, hb⟩ := hI.entry m hm _ he
  cases hb

end List

/-- The fields of an entry that the list operations leave alone. -/
def VmMapEntry.body (v : VmMapEntry) : Word × Word × BitVec 32 × BitVec 32 × BitVec 32 :=
  (v.start, v.stop, v.prot, v.maxProt, v.flags)

def VmState.body (s : VmState) (e : EntryPtr) : Word × Word × BitVec 32 × BitVec 32 × BitVec 32 :=
  (s.entries e).body

section Links
variable (s : VmState) (pos ne e : EntryPtr) (v : VmMapEntry)

theorem setEntry_field {α : Type*} (f : VmMapEntry → α) :
    (fun x => f ((s.setEntry e v).entries x)) =
      Function.update (fun x => f (s.entries x)) e (f v) := by
  funext x
  simp only [VmState.setEntry, Function.update_apply]
  split_ifs <;> rfl

theorem setEntry_next : (s.setEntry e v).next = Function.update s.next e v.next :=
  setEntry_field s e v VmMapEntry.next

theorem setEntry_prev : (s.setEntry e v).prev = Function.update s.prev e v.prev :=
  setEntry_field s e v VmMapEntry.prev

theorem setEntry_body : (s.setEntry e v).body = Function.update s.body e v.body :=
  setEntry_field s e v VmMapEntry.body

theorem setEntry_entries : (s.setEntry e v).entries e = v := Function.update_self _ _ _

theorem setEntry_setEntry (w : VmMapEntry) : (s.setEntry e v).setEntry e w = s.setEntry e w := by
  simp only [VmState.setEntry, Function.update_idem]

theorem mapListInsertAfter_next : (mapListInsertAfter s pos ne).next =
    Function.update (Function.update s.next ne (s.next pos)) pos ne := by
  rw [mapListInsertAfter, setEntry_next, setEntry_next]
  congr 1
  exact (Function.update_eq_self _ _).trans (setEntry_next ..)

theorem mapListInsertAfter_prev : (mapListInsertAfter s pos ne).prev =
    Function.update (Function.update s.prev ne pos) (s.next pos) ne := by
  rw [mapListInsertAfter, setEntry_prev]
  refine (Function.update_eq_self _ _).trans ?_
  rw [setEntry_prev, setEntry_prev]
  rfl

theorem mapListInsertAfter_body : (mapListInsertAfter s pos ne).body = s.body := by
  rw [mapListInsertAfter, setEntry_body]
  refine (Function.update_eq_self _ _).trans ?_
  rw [setEntry_body]
  refine (Function.update_eq_self _ _).trans ?_
  rw [setEntry_body]
  exact Function.update_eq_self _ _

theorem mapListRemove_next :
    (mapListRemove s e).next = Function.update s.next (s.prev e) (s.next e) := by
  rw [mapListRemove, setEntry_next]
  refine (Function.update_eq_self _ _).trans ?_
  rw [setEntry_next]
  rfl

theorem mapListRemove_body : (mapListRemove s e).body = s.body := by
  rw [mapListRemove, setEntry_body]
  refine (Function.update_eq_self _ _).trans ?_
  rw [setEntry_body]
  exact Function.update_eq_self _ _

variable {e} in
theorem mapListRemove_prev (hp : s.prev e ≠ e) :
    (mapListRemove s e).prev = Function.update s.prev (s.next e) (s.prev e) := by
  obtain ⟨s1, hs1⟩ : ∃ s1, s1 = s.setEntry (s.prev e)
    { s.entries (s.prev e) with next := (s.entries e).next } := ⟨_, rfl⟩
  have hprev : s1.prev = s.prev := by
    rw [hs1, setEntry_prev]
    exact Function.update_eq_self _ _
  have hnext : s1.next e = s.next e := by
    rw [hs1, setEntry_next, Function.update_of_ne (Ne.symm hp)]
  have hrun : mapListRemove s e =
      s1.setEntry (s1.next e) { s1.entries (s1.next e) with prev := s1.prev e } := by
    rw [hs1]
    rfl
  rw [hrun, setEntry_prev]
  dsimp only
  rw [hnext, hprev]

/-- Removal writes the two neighbours only. -/
theorem mapListRemove_other {x : EntryPtr} (h1 : x ≠ s.prev e) (h2 : x ≠ s.next e)
    (hp : s.prev e ≠ e) : (mapListRemove s e).entries x = s.entries x := by
  have hn : ((s.setEntry (s.prev e) { s.entries (s.prev e) with next := (s.entries e).next }).entries
      e).next = s.next e := by
    simp only [VmState.setEntry]
    rw [Function.update_of_ne (Ne.symm hp)]
    rfl
  have hrun : mapListRemove s e = (s.setEntry (s.prev e)
      { s.entries (s.prev e) with next := (s.entries e).next }).setEntry (s.next e) _ :=
    congrArg (fun q => (s.setEntry (s.prev e)
      { s.entries (s.prev e) with next := (s.entries e).next }).setEntry q _) hn
  rw [hrun]
  exact (Function.update_of_ne h2 _ _).trans (Function.update_of_ne h1 _ _)

/-- Insertion writes the new entry and its neighbours only. -/
theorem mapListInsertAfter_other {x : EntryPtr} (h1 : x ≠ ne) (h2 : x ≠ pos)
    (h3 : x ≠ s.next pos) : (mapListInsertAfter s pos ne).entries x = s.entries x :=
  (Function.update_of_ne h2 _ _).trans
    ((Function.update_of_ne h3 _ _).trans (Function.update_of_ne h1 _ _))

end Links

section Change
variable {s s' : VmState} {m : VmMapPtr} {xs ys l : List EntryPtr} {e n pos : EntryPtr}

theorem startOf_of_body (h : s'.body e = s.body e) : s'.startOf e = s.startOf e :=
  congrArg (fun b : Word × Word × BitVec 32 × BitVec 32 × BitVec 32 => b.1.toNat) h

theorem stopOf_of_body (h : s'.body e = s.body e) : s'.stopOf e = s.stopOf e :=
  congrArg (fun b : Word × Word × BitVec 32 × BitVec 32 × BitVec 32 => b.2.1.toNat) h

/-- The node before a member, and the node after it. -/
theorem VmMapInv.neighbours (hm : VmMapInv s m (xs ++ e :: ys)) :
    s.prev e = (.header m :: xs).getLast (by simp) ∧ s.next e = (ys ++ [EntryPtr.header m]).head (by simp) ∧
      s.prev e ≠ e ∧ s.prev e ∈ .header m :: (xs ++ e :: ys) ∧
      s.next e ∈ .header m :: (xs ++ e :: ys) := by
  have he : e ∈ .header m :: (xs ++ e :: ys) := by simp
  have hprev := hm.ring.prev_eq
  refine ⟨hprev, hm.ring.next_eq, fun hc => ?_, hm.ring.prev_mem he, hm.ring.next_mem he⟩
  have hlast : e ∈ EntryPtr.header m :: xs := by
    rw [← hc, hprev]
    exact List.getLast_mem _
  have hnd : (EntryPtr.header m :: xs ++ e :: ys).Nodup := hm.ring.nodup
  exact List.disjoint_of_nodup_append hnd hlast List.mem_cons_self

/-- The list without the member `e`, which is then outside it. -/
theorem VmMapInv.remove (hm : VmMapInv s m (xs ++ e :: ys)) {v : VmMapEntry} {n : BitVec 32}
    (hn : n = (s.maps m).nentries-1) :
    VmMapInv (((mapListRemove s e).setEntry e v).setMap m { s.maps m with nentries := n }) m
      (xs ++ ys) := by
  obtain ⟨hp, hq, hne, _, _⟩ := hm.neighbours
  have hring := hm.ring.remove hp.symm hq.symm
  rw [← mapListRemove_next, ← mapListRemove_prev s hne] at hring
  have hnd : (xs ++ e :: ys).Nodup := hm.nodup
  have hout : e ∉ EntryPtr.header m :: (xs ++ ys) := by
    have hmid := (List.nodup_middle.mp hnd)
    intro hc
    rcases List.mem_cons.mp hc with rfl | hc
    · exact hm.not_header (by simp)
    · exact (List.nodup_cons.mp hmid).1 hc
  have hsub : (xs ++ ys).Sublist (xs ++ e :: ys) :=
    List.Sublist.append_left (List.sublist_cons_self _ _) _
  have hbody (x : EntryPtr) (hx : x ∈ xs ++ ys) :
      (((mapListRemove s e).setEntry e v).setMap m { s.maps m with nentries := n }).body x =
        s.body x := by
    have hxe : x ≠ e := fun hc => hout (hc ▸ List.mem_cons_of_mem _ hx)
    refine (congrFun (setEntry_body _ _ _) x).trans ?_
    rw [Function.update_of_ne hxe, mapListRemove_body]
  refine ⟨hring.congr (fun x hx => ?_) (fun x hx => ?_), (hm.sorted.sublist hsub).congr
    (fun x hx => startOf_of_body (hbody x hx)) (fun x hx => stopOf_of_body (hbody x hx)),
    fun x hx => ?_, ?_⟩
  · refine (congrFun (setEntry_next _ _ _) x).trans (Function.update_of_ne ?_ _ _)
    exact fun hc => hout (hc ▸ hx)
  · refine (congrFun (setEntry_prev _ _ _) x).trans (Function.update_of_ne ?_ _ _)
    exact fun hc => hout (hc ▸ hx)
  · rw [startOf_of_body (hbody x hx), stopOf_of_body (hbody x hx)]
    simp only [VmState.setMap, Function.update_self]
    exact hm.inside x (hsub.subset hx)
  · simp only [VmState.setMap, Function.update_self, hn]
    rw [hm.nentries, List.length_append, List.length_append, List.length_cons, ← Nat.add_assoc,
      BitVec.ofNat_add]
    exact BitVec.add_sub_cancel _ _

/-- The list with the new entry `n` after the entries that start before it. -/
theorem VmMapInv.insert (hm : VmMapInv s m l) (hn : n ∉ EntryPtr.header m :: l)
    (hlt : s.startOf n < s.stopOf n) (hmin : (s.maps m).minOffset.toNat ≤ s.startOf n)
    (hmax : s.stopOf n ≤ (s.maps m).maxOffset.toNat)
    (hfree : ∀ x ∈ l, ¬ Meets s.startOf s.stopOf (s.startOf n) (s.stopOf n) x)
    (hpos : pos = (.header m :: l.takeWhile fun x => decide (s.startOf x < s.startOf n)).getLast
      (by simp)) {c : BitVec 32} (hc : c = (s.maps m).nentries+1) :
    VmMapInv ((mapListInsertAfter s pos n).setMap m { s.maps m with nentries := c }) m
      (l.takeWhile (fun x => decide (s.startOf x < s.startOf n)) ++
        n :: l.dropWhile fun x => decide (s.startOf x < s.startOf n)) := by
  have hsplit := List.takeWhile_append_dropWhile
    (p := fun x => decide (s.startOf x < s.startOf n)) (l := l)
  have hsorted := hm.sorted.insert hlt hfree
  have hring := hm.ring
  rw [← hsplit] at hring hn
  have hring' := hring.insert hn hpos.symm hring.next_getLast.symm
  rw [← hpos, ← mapListInsertAfter_next, ← mapListInsertAfter_prev] at hring'
  have hbody (x : EntryPtr) :
      ((mapListInsertAfter s pos n).setMap m { s.maps m with nentries := c }).body x = s.body x :=
    congrFun (mapListInsertAfter_body s pos n) x
  refine ⟨hring', hsorted.congr (fun x _ => startOf_of_body (hbody x))
    (fun x _ => stopOf_of_body (hbody x)), fun x hx => ?_, ?_⟩
  · rw [startOf_of_body (hbody x), stopOf_of_body (hbody x)]
    simp only [VmState.setMap, Function.update_self]
    rcases List.mem_append.mp hx with hx | hx
    · exact hm.inside x (List.takeWhile_subset _ hx)
    · rcases List.mem_cons.mp hx with rfl | hx
      · exact ⟨hmin, hmax⟩
      · exact hm.inside x (List.dropWhile_subset _ hx)
  · simp only [VmState.setMap, Function.update_self, hc]
    have hlen := congrArg List.length hsplit
    rw [List.length_append] at hlen
    rw [hm.nentries, List.length_append, List.length_cons, ← hlen, ← Nat.add_assoc]
    rw [BitVec.ofNat_add _ 1]
    rfl

end Change

end Dana
