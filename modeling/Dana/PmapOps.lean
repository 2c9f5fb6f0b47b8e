import Dana.PmapWalk

/-! What `pmap_map`, `pmap_unmap`, `pmap_protect`, `pmap_query` and `pmap_create` do to
the translations. -/
namespace Dana
open ByteMem RadixTree

/-- The present entry that the walk of `va` ends at. -/
def pteOf (h : Hhdm) (s : PmapState) (p : PmapPtr) (va : Word) : Option Word :=
  entryAt h s.kmem.mem (s.pmaps p).pml4Phys (vaPath va) (ptIdx va)

/-- The translations of two states are the same in every live pmap. -/
def SameEntries (h : Hhdm) (s s' : PmapState) (live : Set PmapPtr) : Prop :=
  ∀ p ∈ live, ∀ q i, Path lowerDom [] q → ¬ lowerDom q i →
    entryAt h s'.kmem.mem (s'.pmaps p).pml4Phys q i = entryAt h s.kmem.mem (s.pmaps p).pml4Phys q i

/-- The entry of `p` at `(q, i)` becomes `e`, and every other one stays. -/
def SetsEntry (h : Hhdm) (s s' : PmapState) (live : Set PmapPtr) (p : PmapPtr) (q : List Idx)
    (i : Idx) (e : Option Word) : Prop :=
  ∀ p' ∈ live, ∀ q' i', Path lowerDom [] q' → ¬ lowerDom q' i' →
    entryAt h s'.kmem.mem (s'.pmaps p').pml4Phys q' i' =
      if p' = p ∧ q' = q ∧ i' = i then e
      else entryAt h s.kmem.mem (s.pmaps p').pml4Phys q' i'

section Read
variable (h : Hhdm) (s : PmapState) (p : PmapPtr) (va : Word)

/-- The entry as the code meets it: it walks, then tests the present bit. -/
theorem pteOf_eq : pteOf h s p va =
    (tableAt h s.kmem.mem (s.pmaps p).pml4Phys (vaPath va)).bind fun pt =>
      ptePresent (pteAt h s.kmem.mem pt (ptIdx va)) := rfl

/-- The walk comes to no table, to an absent entry or to a present one. -/
theorem pmapWalk_entry :
    (pmapWalk h (s.pmaps p).pml4Phys va false s.kmem = (none, s.kmem) ∧
      tableAt h s.kmem.mem (s.pmaps p).pml4Phys (vaPath va) = none ∧ pteOf h s p va = none) ∨
    ∃ pt, tableAt h s.kmem.mem (s.pmaps p).pml4Phys (vaPath va) = some pt ∧
      pmapWalk h (s.pmaps p).pml4Phys va false s.kmem =
        (some (pteAddr h pt (ptIdx va)), s.kmem) ∧
      (load64 s.kmem.mem (pteAddr h pt (ptIdx va)) &&& pteP = 0 ∧ pteOf h s p va = none ∨
        ¬ load64 s.kmem.mem (pteAddr h pt (ptIdx va)) &&& pteP = 0 ∧
          pteOf h s p va = some (load64 s.kmem.mem (pteAddr h pt (ptIdx va)))) := by
  rw [pmapWalk_lookup, pteOf_eq]
  cases tableAt h s.kmem.mem (s.pmaps p).pml4Phys (vaPath va) with
  | none => exact Or.inl ⟨rfl, rfl, rfl⟩
  | some pt =>
    refine Or.inr ⟨pt, rfl, rfl, ?_⟩
    by_cases hp : load64 s.kmem.mem (pteAddr h pt (ptIdx va)) &&& pteP = 0
    · exact Or.inl ⟨hp, if_pos hp⟩
    · exact Or.inr ⟨hp, if_neg hp⟩

theorem pmapQuery_eq : pmapQuery h s p va =
    match pteOf h s p va with
    | none => 0
    | some e => (e &&& pteAddrMask) ||| (va &&& (pmmPageSize-1)) := by
  unfold pmapQuery
  rcases pmapWalk_entry h s p va with ⟨hw, _, he⟩ | ⟨pt, _, hw, ⟨hp, he⟩ | ⟨hp, he⟩⟩ <;> rw [hw, he]
  · exact if_pos hp
  · exact if_neg hp

/-- `pmap_unmap` fails on an absent page and clears the entry of a present one. -/
theorem pmapUnmap_eq : pmapUnmap h s p va =
    match pteOf h s p va, tableAt h s.kmem.mem (s.pmaps p).pml4Phys (vaPath va) with
    | some _, some pt => (0, s.store (pteAddr h pt (ptIdx va)) 0)
    | _, _ => (-1, s) := by
  unfold pmapUnmap
  rcases pmapWalk_entry h s p va with ⟨hw, ht, he⟩ | ⟨pt, ht, hw, ⟨hp, he⟩ | ⟨hp, he⟩⟩ <;>
    rw [hw, he, ht]
  · exact if_pos hp
  · exact if_neg hp

theorem pmapProtect_eq (flags : Word) : pmapProtect h s p va flags =
    match pteOf h s p va, tableAt h s.kmem.mem (s.pmaps p).pml4Phys (vaPath va) with
    | some e, some pt => (0, s.store (pteAddr h pt (ptIdx va))
        ((e &&& pteAddrMask) ||| (flags &&& ~~~pteAddrMask) ||| pteP))
    | _, _ => (-1, s) := by
  unfold pmapProtect
  rcases pmapWalk_entry h s p va with ⟨hw, ht, he⟩ | ⟨pt, ht, hw, ⟨hp, he⟩ | ⟨hp, he⟩⟩ <;>
    rw [hw, he, ht]
  · exact if_pos hp
  · exact if_neg hp

end Read

section Write
variable {h : Hhdm} {own own' : ℕ → Owner} {s s' : PmapState} {live : Set PmapPtr}

/-- Writing an entry of a table of the last level changes that translation only. -/
theorem PmapInv.store_entry (hI : PmapInv h own s live) {t v : Word} {p : PmapPtr}
    {q : List Idx} {i : Idx} (ht : tableLab own t = some (p, q)) (hq : q.length = 3) :
    PmapInv h own (s.store (pteAddr h t i) v) live ∧
      Touched h own own p s.kmem (s.store (pteAddr h t i) v).kmem ∧
      SetsEntry h s (s.store (pteAddr h t i) v) live p q i (ptePresent v) := by
  obtain ⟨hta, hto⟩ := tableLab_some.mp ht
  obtain ⟨_, _, hnode⟩ := hI.lab_node ht
  have hdom (j : Idx) : ¬ lowerDom q j := fun hd => by
    have := hd.1
    omega
  have hT (n : Word) (j : Idx) (hn : tableLab own n ≠ none) (hc : ¬ (n = t ∧ j = i)) :
      pteAt h (s.store (pteAddr h t i) v).kmem.mem n j = pteAt h s.kmem.mem n j := by
    obtain ⟨⟨p', q'⟩, hl⟩ := Option.ne_none_iff_exists'.mp hn
    have := pteAt_store h s.kmem.mem t n v i j hta (tableLab_some.mp hl).1
    rw [if_neg hc] at this
    exact this
  have hcell (n : Word) (p' : PmapPtr) (q' : List Idx) (j : Idx) (hn : tableLab own n = some (p', q'))
      (hd : lowerDom q' j) : pteAt h (s.store (pteAddr h t i) v).kmem.mem n j =
        pteAt h s.kmem.mem n j := by
    refine hT n j (by simp [hn]) ?_
    rintro ⟨rfl, rfl⟩
    obtain ⟨_, rfl⟩ := Prod.mk.inj (Option.some.inj (ht.symm.trans hn))
    exact hdom _ hd
  have hptr (n : Word) (p' : PmapPtr) (q' : List Idx) (j : Idx) (hn : tableLab own n = some (p', q'))
      (hd : lowerDom q' j) : pteTable (pteAt h (s.store (pteAddr h t i) v).kmem.mem n j) =
        pteTable (pteAt h s.kmem.mem n j) := by
    rw [hcell n p' q' j hn hd]
  have hmem (x : Word) (hx : ∀ q', own (frameOf h x) ≠ .table p q') :
      (s.store (pteAddr h t i) v).kmem.mem x = s.kmem.mem x :=
    store_pte_other h s.kmem.mem t v x i hta fun hc => hx q (hc ▸ hto)
  have hupper (r : Word) (p' : PmapPtr) (hr : tableLab own r = some (p', [])) (j : Idx) :
      pteAt h (s.store (pteAddr h t i) v).kmem.mem r j = pteAt h s.kmem.mem r j := by
    refine hT r j (by simp [hr]) ?_
    rintro ⟨rfl, _⟩
    obtain ⟨_, rfl⟩ := Prod.mk.inj (Option.some.inj (ht.symm.trans hr))
    simp at hq
  refine ⟨⟨hI.pageZero, hI.free, hI.forest.congr hptr, fun n p' q' j hn hd => ?_, hI.root, hI.desc,
    fun n p' q' hn => ?_, hI.descPage, ?_⟩, ⟨fun _ => Or.inl rfl, fun x _ hx => hmem x hx, fun r p' hr j _ =>
      hupper r p' hr j⟩, fun p' hp' q' i' hq' hi' => ?_⟩
  · rw [hcell n p' q' j hn hd]
    exact hI.small n p' q' j hn hd
  · obtain ⟨h1, h2, h3, h4, t', h5, h6, h7⟩ := hI.table n p' q' hn
    refine ⟨h1, h2, h3, h4, t', h5, h6, ?_⟩
    rw [← h7]
    exact hI.forest.node_eq hptr (hI.root p' h3) h4
  · exact hI.kernel.congr (fun _ hn => hn) (fun x hx => hmem x (by simp [hx]))
      fun p' hp' j _ => hupper _ p' (hI.root p' hp') j
  · have hroot : p' = p → node pteTable (pteAt h s.kmem.mem) (s.pmaps p').pml4Phys q = some t := by
      rintro rfl
      exact hnode
    have hset := hI.forest.leaf_set ptePresent ht (hdom i) hT i' (hI.root p' hp') hq' hroot
    have hnew : pteAt h (s.store (pteAddr h t i) v).kmem.mem t i = v := load64_store64_same ..
    rw [hnew] at hset
    exact hset

/-- The invariant depends on the frames of the tables and on who owns them. -/
theorem PmapInv.congr (hI : PmapInv h own s live) {k : Kmem} (h0 : ¬ k.pmm.Free 0)
    (hfree : ∀ n, k.pmm.Free n ↔ own' n = .free)
    (htab : ∀ n p q, own' n = .table p q ↔ own n = .table p q)
    (hdesc : ∀ n p, own' n = .desc p ↔ own n = .desc p)
    (hker : ∀ n, own n = .kernel → own' n = .kernel)
    (hmem : ∀ x, (∃ p q, own (frameOf h x) = .table p q) ∨ own (frameOf h x) = .kernel →
      k.mem x = s.kmem.mem x) :
    PmapInv h own' { s with kmem := k } live ∧ SameEntries h s { s with kmem := k } live := by
  have hlab : tableLab own' = tableLab own := by
    funext t
    apply Option.ext
    rintro ⟨p, q⟩
    rw [tableLab_some, tableLab_some, htab]
  have hT (n : Word) (p : PmapPtr) (q : List Idx) (j : Idx) (hn : tableLab own n = some (p, q)) :
      pteAt h k.mem n j = pteAt h s.kmem.mem n j := by
    obtain ⟨hna, hno⟩ := tableLab_some.mp hn
    exact pteAt_congr h _ _ n j hna fun x hx => hmem x (Or.inl ⟨p, q, hx ▸ hno⟩)
  have hptr (n : Word) (p : PmapPtr) (q : List Idx) (j : Idx) (hn : tableLab own n = some (p, q))
      (_ : lowerDom q j) : pteTable (pteAt h k.mem n j) = pteTable (pteAt h s.kmem.mem n j) := by
    rw [hT n p q j hn]
  refine ⟨⟨h0, hfree, ?_, fun t p q i ht hd => ?_, ?_, fun p hp => ?_, fun n p q hn => ?_,
    fun n p hn => ?_, ?_⟩, fun p hp q i hq hi => ?_⟩
  · rw [hlab]
    exact hI.forest.congr hptr
  · rw [hlab] at ht
    rw [hT t p q i ht]
    exact hI.small t p q i ht hd
  · rw [hlab]
    exact hI.root
  · obtain ⟨pa, h1, h2, h3⟩ := hI.desc p hp
    exact ⟨pa, h1, h2, (hdesc _ _).mpr h3⟩
  · obtain ⟨h1, h2, h3, h4, t, h5, h6, h7⟩ := hI.table n p q ((htab n p q).mp hn)
    refine ⟨h1, h2, h3, h4, t, h5, h6, ?_⟩
    rw [← h7]
    exact hI.forest.node_eq hptr (hI.root p h3) h4
  · exact hI.descPage n p ((hdesc n p).mp hn)
  · exact hI.kernel.congr hker (fun x hx => hmem x (Or.inr hx))
      fun p hp j _ => hT _ p [] j (hI.root p hp)
  · have hnode := hI.forest.node_eq hptr (hI.root p hp) hq
    rw [entryAt, leaf, hnode, entryAt, leaf]
    refine Option.bind_congr fun m hm => ?_
    rw [hT m p q i (hI.forest.node_lab (hI.root p hp) hq hm)]

theorem SameEntries.trans {s'' : PmapState} (h1 : SameEntries h s s' live)
    (h2 : SameEntries h s' s'' live) : SameEntries h s s'' live :=
  fun p hp q i hq hi => (h2 p hp q i hq hi).trans (h1 p hp q i hq hi)

/-- The entry `pmap_map` writes, and `pmap_protect` with the old entry for the address. -/
def mapEntry (paddr flags : Word) : Word :=
  (paddr &&& pteAddrMask) ||| (flags &&& ~~~pteAddrMask) ||| pteP

theorem ptePresent_or (e : Word) : ptePresent (e ||| pteP) = some (e ||| pteP) := by
  have hp : (e ||| pteP) &&& pteP ≠ 0 := by
    intro h
    have hb := congrArg (fun w : Word => w.getLsbD 0) h
    simp [pteP] at hb
  rw [ptePresent, if_neg hp]

theorem ptePresent_mapEntry (paddr flags : Word) :
    ptePresent (mapEntry paddr flags) = some (mapEntry paddr flags) := ptePresent_or _

theorem vaPath_length (va : Word) : (vaPath va).length = 3 := rfl

/-- `pmap_map` sets the entry of its address, or finds no free frame for a table and
leaves every translation as it was. -/
theorem pmapMap_spec (hI : PmapInv h own s live) {p : PmapPtr} (hp : p ∈ live) {va : Word}
    (hva : LowerHalf va) (paddr flags : Word) : ∃ s' own', PmapInv h own' s' live ∧
      Touched h own own' p s.kmem s'.kmem ∧ s'.pmaps = s.pmaps ∧
      ((pmapMap h s p va paddr flags = (-1, s') ∧ (∀ n, ¬ s'.kmem.pmm.Free n) ∧
        SameEntries h s s' live) ∨
      (pmapMap h s p va paddr flags = (0, s') ∧
        SetsEntry h s s' live p (vaPath va) (ptIdx va) (some (mapEntry paddr flags)))) := by
  obtain ⟨k', own', hI', hw, hres⟩ := pmapWalk_create hI hp hva
  have hsame : SameEntries h s { s with kmem := k' } live :=
    fun p' hp' q i hq hi => hw.entry _ p' q i (hI.root p' hp') hq hi
  rcases hres with ⟨he, hfull⟩ | ⟨pt, he, hpt⟩
  · refine ⟨_, own', hI', hw.toTouched, rfl, Or.inl ⟨?_, hfull, hsame⟩⟩
    simp only [pmapMap, he]
  · obtain ⟨hI2, ht2, hset⟩ := hI'.store_entry (v := mapEntry paddr flags) hpt (vaPath_length va)
    refine ⟨_, own', hI2, hw.toTouched.trans ht2, rfl, Or.inr ⟨?_, ?_⟩⟩
    · simp only [pmapMap, he]
      rfl
    · intro p' hp' q' i' hq' hi'
      rw [hset p' hp' q' i' hq' hi', ptePresent_mapEntry]
      split_ifs with hc
      · rfl
      · exact hsame p' hp' q' i' hq' hi'

/-- A present entry can be overwritten where `pmap_unmap` and `pmap_protect` do. -/
theorem PmapInv.rewrite (hI : PmapInv h own s live) {p : PmapPtr} (hp : p ∈ live) {va e : Word}
    (hva : LowerHalf va) (he : pteOf h s p va = some e) (v : Word) : ∃ pt,
      tableAt h s.kmem.mem (s.pmaps p).pml4Phys (vaPath va) = some pt ∧
      PmapInv h own (s.store (pteAddr h pt (ptIdx va)) v) live ∧
      Touched h own own p s.kmem (s.store (pteAddr h pt (ptIdx va)) v).kmem ∧
      SetsEntry h s (s.store (pteAddr h pt (ptIdx va)) v) live p (vaPath va) (ptIdx va)
        (ptePresent v) := by
  rw [pteOf_eq, Option.bind_eq_some_iff] at he
  obtain ⟨pt, hpt, _⟩ := he
  have hlab := hI.forest.node_lab (hI.root p hp) (vaPath_path hva) hpt
  exact ⟨pt, hpt, hI.store_entry hlab (vaPath_length va)⟩

theorem pmapUnmap_spec (hI : PmapInv h own s live) {p : PmapPtr} (hp : p ∈ live) {va : Word}
    (hva : LowerHalf va) :
    (pmapUnmap h s p va = (-1, s) ∧ pteOf h s p va = none) ∨
    ∃ s' e, pmapUnmap h s p va = (0, s') ∧ pteOf h s p va = some e ∧ PmapInv h own s' live ∧
      Touched h own own p s.kmem s'.kmem ∧ s'.pmaps = s.pmaps ∧ s'.kmem.pmm = s.kmem.pmm ∧
      SetsEntry h s s' live p (vaPath va) (ptIdx va) none := by
  rw [pmapUnmap_eq]
  cases he : pteOf h s p va with
  | none => exact Or.inl ⟨rfl, rfl⟩
  | some e =>
    obtain ⟨pt, hpt, hI', ht, hset⟩ := hI.rewrite hp hva he 0
    rw [hpt]
    exact Or.inr ⟨_, e, rfl, rfl, hI', ht, rfl, rfl, hset⟩

theorem pmapProtect_spec (hI : PmapInv h own s live) {p : PmapPtr} (hp : p ∈ live) {va : Word}
    (hva : LowerHalf va) (flags : Word) :
    (pmapProtect h s p va flags = (-1, s) ∧ pteOf h s p va = none) ∨
    ∃ s' e, pmapProtect h s p va flags = (0, s') ∧ pteOf h s p va = some e ∧
      PmapInv h own s' live ∧ Touched h own own p s.kmem s'.kmem ∧ s'.pmaps = s.pmaps ∧
      s'.kmem.pmm = s.kmem.pmm ∧
      SetsEntry h s s' live p (vaPath va) (ptIdx va) (some (mapEntry e flags)) := by
  rw [pmapProtect_eq]
  cases he : pteOf h s p va with
  | none => exact Or.inl ⟨rfl, rfl⟩
  | some e =>
    obtain ⟨pt, hpt, hI', ht, hset⟩ := hI.rewrite hp hva he (mapEntry e flags)
    rw [hpt]
    rw [ptePresent_mapEntry] at hset
    exact Or.inr ⟨_, e, rfl, rfl, hI', ht, rfl, rfl, hset⟩

/-- Taking a free frame for anything but a page table keeps the tables, whatever
happens to the frame. -/
theorem PmapInv.take (hI : PmapInv h own s live) {pa : Word} {pmm : Pmm} {mem : Mem} {o : Owner}
    (hp : pmmAllocPage s.kmem.pmm = (pa, pmm)) (hpa : pa ≠ pmmNull) (hfree : o ≠ .free)
    (htab : ∀ p q, o ≠ .table p q) (hdesc : ∀ p, o ≠ .desc p)
    (hmem : ∀ x, frameOf h x ≠ pageOf pa → mem x = s.kmem.mem x) :
    PmapInv h (Function.update own (pageOf pa) o) { s with kmem := ⟨pmm, mem⟩ } live ∧
      SameEntries h s { s with kmem := ⟨pmm, mem⟩ } live := by
  obtain ⟨_, hf, _, _, hiff⟩ := hI.alloc hp hpa
  have hupd (n : ℕ) (o' : Owner) (ho' : o' ≠ .free) (hne : o ≠ o') :
      Function.update own (pageOf pa) o n = o' ↔ own n = o' := by
    rw [Function.update_apply]
    split_ifs with hn
    · rw [hn, hf]
      exact iff_of_false hne ho'.symm
    · rfl
  refine hI.congr ?_ (fun n => ?_) (fun n p q => hupd n _ (by simp) (htab p q))
    (fun n p => hupd n _ (by simp) (hdesc p)) (fun n hn => ?_) fun x hx => hmem x ?_
  · exact fun h0 => hI.pageZero ((hI.free 0).mpr ((hiff 0).mp h0).1)
  · rw [hiff, Function.update_apply]
    split_ifs with hn
    · exact iff_of_false (fun hc => hc.2 hn) hfree
    · simp [hn]
  · rw [Function.update_of_ne, hn]
    rintro rfl
    rw [hf] at hn
    cases hn
  · intro hc
    rw [hc, hf] at hx
    rcases hx with ⟨p, q, hx⟩ | hx <;> cases hx

/-- Giving back a frame that is no table and no descriptor keeps the tables. -/
theorem PmapInv.give (hI : PmapInv h own s live) {pa : Word} (h0 : 0 < pageOf pa)
    (hlt : pageOf pa < pmmMaxPages) (htab : ∀ p q, own (pageOf pa) ≠ .table p q)
    (hdesc : ∀ p, own (pageOf pa) ≠ .desc p) (hker : own (pageOf pa) ≠ .kernel) :
    PmapInv h (Function.update own (pageOf pa) .free)
        { s with kmem := { s.kmem with pmm := pmmFreePage s.kmem.pmm pa } } live ∧
      SameEntries h s { s with kmem := { s.kmem with pmm := pmmFreePage s.kmem.pmm pa } } live := by
  have hupd (n : ℕ) (o' : Owner) (ho' : o' ≠ .free) (hne : own (pageOf pa) ≠ o') :
      Function.update own (pageOf pa) .free n = o' ↔ own n = o' := by
    rw [Function.update_apply]
    split_ifs with hn
    · rw [hn]
      exact iff_of_false ho'.symm hne
    · rfl
  refine hI.congr ?_ (fun n => ?_) (fun n p q => hupd n _ (by simp) (htab p q))
    (fun n p => hupd n _ (by simp) (hdesc p)) (fun n hn => (hupd n _ (by simp) hker).mpr hn)
    fun _ _ => rfl
  · rw [pmmFreePage_free]
    rintro (hf | ⟨he, _⟩)
    · exact hI.pageZero hf
    · omega
  · rw [pmmFreePage_free, Function.update_apply]
    split_ifs with hn
    · exact iff_of_true (Or.inr ⟨hn, h0, hlt⟩) rfl
    · rw [hI.free]
      simp [hn]

/-- The loop of `pmap_create` copies the entries from `i` on, and writes nowhere else. -/
theorem pmapCopyKernel_spec (h : Hhdm) (new kern : Word) (hn : PageAligned new)
    (hk : PageAligned kern) (hne : kern ≠ new) (n i : ℕ) (hi : i+n ≤ 512) (m : Mem) :
    (∀ x, frameOf h x ≠ pageOf new → pmapCopyKernel h new kern n i m x = m x) ∧
    ∀ j : Idx, pteAt h (pmapCopyKernel h new kern n i m) new j =
      if i ≤ j.toNat ∧ j.toNat < i+n then pteAt h m kern j else pteAt h m new j := by
  induction n generalizing i m with
  | zero =>
    refine ⟨fun _ _ => rfl, fun j => ?_⟩
    rw [if_neg (by omega)]
    rfl
  | succ n ih =>
    obtain ⟨h1, h2⟩ := ih (i+1) (by omega)
      (store64 m (pteAddr h new (BitVec.ofNat 9 i)) (pteAt h m kern (BitVec.ofNat 9 i)))
    have hnat : (BitVec.ofNat 9 i).toNat = i := by
      rw [BitVec.toNat_ofNat, Nat.mod_eq_of_lt (by omega)]
    have hkern (j : Idx) : pteAt h (store64 m (pteAddr h new (BitVec.ofNat 9 i))
        (pteAt h m kern (BitVec.ofNat 9 i))) kern j = pteAt h m kern j := by
      rw [pteAt_store h m new kern _ _ _ hn hk, if_neg fun hc => hne hc.1]
    have hnew (j : Idx) : pteAt h (store64 m (pteAddr h new (BitVec.ofNat 9 i))
        (pteAt h m kern (BitVec.ofNat 9 i))) new j =
        if j.toNat = i then pteAt h m kern j else pteAt h m new j := by
      rw [pteAt_store h m new new _ _ _ hn hn]
      by_cases hj : j.toNat = i
      · obtain rfl : j = BitVec.ofNat 9 i := BitVec.eq_of_toNat_eq (by rw [hj, hnat])
        rw [if_pos ⟨rfl, rfl⟩, if_pos hj]
      · rw [if_neg hj, if_neg]
        rintro ⟨_, rfl⟩
        exact hj hnat
    refine ⟨fun x hx => ?_, fun j => ?_⟩
    · rw [pmapCopyKernel, h1 x hx, store_pte_other h m new _ x _ hn hx]
    · rw [pmapCopyKernel, h2, hkern, hnew]
      by_cases hr : i ≤ j.toNat ∧ j.toNat < i+(n+1)
      · rw [if_pos hr]
        by_cases hji : j.toNat = i
        · rw [if_neg (by omega), if_pos hji]
        · rw [if_pos (by omega)]
      · rw [if_neg hr, if_neg (by omega), if_neg (by omega)]

/-- The owners once the frames of `pa` and `d` are the root and the descriptor of a new pmap. -/
def withPmap (own : ℕ → Owner) (pa d : Word) : ℕ → Owner :=
  Function.update (Function.update own (pageOf pa) (.table (.page d) [])) (pageOf d)
    (.desc (.page d))

theorem withPmap_desc (own : ℕ → Owner) (pa d : Word) :
    withPmap own pa d (pageOf d) = .desc (.page d) := Function.update_self ..

theorem withPmap_root (own : ℕ → Owner) {pa d : Word} (hne : pageOf pa ≠ pageOf d) :
    withPmap own pa d (pageOf pa) = .table (.page d) [] := by
  rw [withPmap, Function.update_of_ne hne, Function.update_self]

theorem withPmap_cases (own : ℕ → Owner) (pa d : Word) (n : ℕ) :
    n = pageOf d ∨ n = pageOf pa ∨ withPmap own pa d n = own n := by
  by_cases h1 : n = pageOf d
  · exact Or.inl h1
  by_cases h2 : n = pageOf pa
  · exact Or.inr (Or.inl h2)
  · exact Or.inr (Or.inr (by rw [withPmap, Function.update_of_ne h1, Function.update_of_ne h2]))

/-- What was in use stays with its owner. -/
theorem withPmap_used {pa d : Word} (hoa : own (pageOf pa) = .other)
    (hod : own (pageOf d) = .other) {n : ℕ} {o : Owner} (hn : own n = o) (ho : o ≠ .other) :
    withPmap own pa d n = o := by
  rw [withPmap, Function.update_of_ne, Function.update_of_ne, hn]
  · rintro rfl
    exact ho (hn.symm.trans hoa)
  · rintro rfl
    exact ho (hn.symm.trans hod)

theorem tableLab_withPmap {pa d t : Word} (hoa : own (pageOf pa) = .other)
    (hod : own (pageOf d) = .other) {p : PmapPtr} {q : List Idx}
    (ht : tableLab own t = some (p, q)) : tableLab (withPmap own pa d) t = some (p, q) := by
  obtain ⟨hta, hto⟩ := tableLab_some.mp ht
  exact tableLab_some.mpr ⟨hta, withPmap_used hoa hod hto (by simp)⟩

/-- The only new table is the root. -/
theorem tableLab_of_withPmap {pa d t : Word} (ha : PageAligned pa)
    (hne : pageOf pa ≠ pageOf d) {p : PmapPtr} {q : List Idx}
    (ht : tableLab (withPmap own pa d) t = some (p, q)) :
    t = pa ∧ q = [] ∨ tableLab own t = some (p, q) := by
  obtain ⟨hta, hto⟩ := tableLab_some.mp ht
  rcases withPmap_cases own pa d (pageOf t) with h1 | h1 | h1
  · rw [h1, withPmap_desc] at hto
    cases hto
  · rw [h1, withPmap_root own hne] at hto
    exact Or.inl ⟨eq_of_pageOf hta ha h1, (Owner.table.inj hto).2.symm⟩
  · rw [h1] at hto
    exact Or.inr (tableLab_some.mpr ⟨hta, hto⟩)

/-- A descriptor that is not in use yet is no pmap. -/
theorem PmapInv.not_live (hI : PmapInv h own s live) {d : Word}
    (hod : own (pageOf d) = .other) : .page d ∉ live := by
  intro hl
  obtain ⟨pd, h1, _, h3⟩ := hI.desc _ hl
  cases h1
  rw [hod] at h3
  cases h3

/-- Two frames taken for it, an empty lower half and the kernel's upper half make a new
pmap. -/
theorem PmapInv.add (hI : PmapInv h own s live) {pa d : Word} (ha : PageAligned pa)
    (hd : PageAligned d) (hoa : own (pageOf pa) = .other) (hod : own (pageOf d) = .other)
    (hne : pageOf pa ≠ pageOf d) (hpa : 0 < pageOf pa ∧ pageOf pa < pmmMaxPages)
    (hpd : 0 < pageOf d ∧ pageOf d < pmmMaxPages)
    (hlow : ∀ i : Idx, i.toNat < 256 → pteAt h s.kmem.mem pa i = 0)
    (hup : ∀ i : Idx, 256 ≤ i.toNat →
      pteAt h s.kmem.mem pa i = pteAt h s.kmem.mem (s.pmaps .kernel).pml4Phys i) :
    PmapInv h (withPmap own pa d)
      { s with pmaps := Function.update s.pmaps (.page d) ⟨pa, 1⟩ } (insert (.page d) live) := by
  have hpm (p : PmapPtr) (hp : p ∈ live) :
      Function.update s.pmaps (.page d) ⟨pa, 1⟩ p = s.pmaps p := by
    refine Function.update_of_ne ?_ _ _
    rintro rfl
    exact hI.not_live hod hp
  have hkern : Function.update s.pmaps (.page d) ⟨pa, 1⟩ .kernel = s.pmaps .kernel :=
    Function.update_of_ne (by simp) _ _
  have hself : Function.update s.pmaps (.page d) ⟨pa, 1⟩ (.page d) = ⟨pa, 1⟩ :=
    Function.update_self ..
  generalize Function.update s.pmaps (.page d) ⟨pa, 1⟩ = pmaps at hpm hkern hself ⊢
  -- the new root has no entries in its lower half, and every other table was one before
  have htab (t : Word) (p : PmapPtr) (q : List Idx) (i : Idx)
      (ht : tableLab (withPmap own pa d) t = some (p, q)) (hi : lowerDom q i) :
      pteAt h s.kmem.mem t i = 0 ∨ tableLab own t = some (p, q) := by
    rcases tableLab_of_withPmap ha hne ht with ⟨rfl, rfl⟩ | ht
    · exact Or.inl (hlow i (hi.2 rfl))
    · exact Or.inr ht
  have hfree (n : ℕ) : s.kmem.pmm.Free n ↔ withPmap own pa d n = .free := by
    rw [hI.free]
    rcases withPmap_cases own pa d n with rfl | rfl | hn
    · rw [hod, withPmap_desc]
      simp
    · rw [hoa, withPmap_root own hne]
      simp
    · rw [hn]
  have hforest : Forest pteTable (pteAt h s.kmem.mem) lowerDom (tableLab (withPmap own pa d)) := by
    intro t p q i c ht hi hc
    rcases htab t p q i ht hi with hz | ht
    · rw [hz, pteTable_zero] at hc
      cases hc
    · exact tableLab_withPmap hoa hod (hI.forest t p q i c ht hi hc)
  have hsmall (t : Word) (p : PmapPtr) (q : List Idx) (i : Idx)
      (ht : tableLab (withPmap own pa d) t = some (p, q)) (hi : lowerDom q i) :
      pteAt h s.kmem.mem t i &&& ptePS = 0 := by
    rcases htab t p q i ht hi with hz | ht
    · rw [hz]
      rfl
    · exact hI.small t p q i ht hi
  refine ⟨hI.pageZero, hfree, hforest, hsmall, fun p hp => ?_, fun p hp => ?_,
    fun n p q hn => ?_, fun n p hn => ?_, ?_⟩
  · dsimp only
    rcases hp with rfl | hp
    · rw [hself, tableLab_some]
      exact ⟨ha, withPmap_root own hne⟩
    · rw [hpm p hp]
      exact tableLab_withPmap hoa hod (hI.root p hp)
  · rcases hp with rfl | hp
    · exact ⟨d, rfl, hd, withPmap_desc own pa d⟩
    · obtain ⟨pd, h1, h2, h3⟩ := hI.desc p hp
      exact ⟨pd, h1, h2, withPmap_used hoa hod h3 (by simp)⟩
  · dsimp only
    rcases withPmap_cases own pa d n with rfl | rfl | h1
    · rw [withPmap_desc] at hn
      cases hn
    · rw [withPmap_root own hne] at hn
      obtain ⟨rfl, rfl⟩ := Owner.table.inj hn
      refine ⟨hpa.1, hpa.2, Set.mem_insert _ _, trivial, pa, ha, rfl, ?_⟩
      rw [hself]
      rfl
    · rw [h1] at hn
      obtain ⟨h2, h3, h4, h5, t, h6, h7, h8⟩ := hI.table n p q hn
      refine ⟨h2, h3, Set.mem_insert_of_mem _ h4, h5, t, h6, h7, ?_⟩
      rw [hpm p h4]
      exact h8
  · rcases withPmap_cases own pa d n with rfl | rfl | h1
    · rw [withPmap_desc] at hn
      obtain rfl := Owner.desc.inj hn
      exact ⟨hpd.1, hpd.2, Set.mem_insert _ _, d, rfl, rfl⟩
    · rw [withPmap_root own hne] at hn
      cases hn
    · rw [h1] at hn
      obtain ⟨h2, h3, h4, h5⟩ := hI.descPage n p hn
      exact ⟨h2, h3, Set.mem_insert_of_mem _ h4, h5⟩
  · have hk := hI.kernel
    refine ⟨?_, ?_, fun p hp i hi => ?_⟩ <;> dsimp only <;> rw [hkern]
    · exact hk.aligned
    · exact withPmap_used hoa hod hk.root (by simp)
    · rcases hp with rfl | hp
      · rw [hself]
        exact hup i hi
      · rw [hpm p hp]
        exact hk.copied p hp i hi

/-- `pmap_create` makes an empty pmap of two free frames, or fails and changes nothing
that is in use. -/
theorem pmapCreate_spec (hI : PmapInv h own s live) :
    ∃ own' s', (∀ x, own (frameOf h x) ≠ .free → s'.kmem.mem x = s.kmem.mem x) ∧
      SameEntries h s s' live ∧
      ((pmapCreate h s = (none, s') ∧ own' = own ∧ PmapInv h own s' live ∧ s'.pmaps = s.pmaps) ∨
      ∃ d, pmapCreate h s = (some (.page d), s') ∧ .page d ∉ live ∧
        PmapInv h own' s' (insert (.page d) live) ∧
        (∀ p, p ≠ .page d → s'.pmaps p = s.pmaps p) ∧ (s'.pmaps (.page d)).refCount = 1 ∧
        (∀ va, LowerHalf va → pteOf h s' (.page d) va = none) ∧
        ∀ n, own' n = own n ∨ own n = .free ∧
          (own' n = .table (.page d) [] ∨ own' n = .desc (.page d))) := by
  obtain ⟨pa, pmm, d, pmm', mem, hpa, hd, hmem, hcases⟩ := pmapCreate_cases h s
  by_cases hnull : pa = pmmNull
  · have hpmm := pmmAllocPage_none hI.pageZero (hnull ▸ hpa)
    have hres := (hcases.resolve_right (by simp [hnull])).2
    rw [hpmm] at hres
    exact ⟨own, s, fun _ _ => rfl, fun _ _ _ _ _ _ => rfl, Or.inl ⟨hres, rfl, hI, rfl⟩⟩
  have hcases := hcases.resolve_left fun hc => hnull hc.1
  obtain ⟨ha, hfree, hpos, hlt, hiff⟩ := hI.alloc hpa hnull
  have hkne : (s.pmaps .kernel).pml4Phys ≠ pa := by
    intro he
    have := hI.kernel.root
    rw [he, hfree] at this
    cases this
  obtain ⟨hcopy, hpte⟩ := pmapCopyKernel_spec h pa (s.pmaps .kernel).pml4Phys ha
    hI.kernel.aligned hkne 256 256 le_rfl (zeroPage h s.kmem.mem pa)
  have hother (x : Word) (hx : frameOf h x ≠ pageOf pa) : mem x = s.kmem.mem x := by
    rw [hmem, hcopy x hx, zeroPage_apply h _ pa x ha, if_neg hx]
  have hused (x : Word) (hx : own (frameOf h x) ≠ .free) : mem x = s.kmem.mem x :=
    hother x fun he => hx (he ▸ hfree)
  obtain ⟨hI1, hsame1⟩ := hI.take (o := .other) hpa hnull (by simp) (by simp) (by simp) hother
  rcases hcases with ⟨_, hdn, hres⟩ | ⟨_, hdn, hres⟩
  · have hpmm' := pmmAllocPage_none hI1.pageZero (hdn ▸ hd)
    obtain ⟨hI2, hsame2⟩ := hI1.give hpos hlt (by simp) (by simp) (by simp)
    rw [Function.update_idem, ← hfree, Function.update_eq_self] at hI2
    rw [hpmm'] at hres
    exact ⟨own, _, hused, hsame1.trans hsame2, Or.inl ⟨hres, rfl, hI2, rfl⟩⟩
  · obtain ⟨hda, hdfree, hdpos, hdlt, _⟩ := hI1.alloc hd hdn
    obtain ⟨hI2, hsame2⟩ := hI1.take (o := .other) hd hdn (by simp) (by simp) (by simp)
      (fun _ _ => rfl)
    have hne : pageOf pa ≠ pageOf d := by
      intro he
      rw [← he, Function.update_self] at hdfree
      cases hdfree
    have hzero (j : Idx) : pteAt h (zeroPage h s.kmem.mem pa) pa j = 0 := by
      rw [pteAt_zeroPage h _ pa pa j ha ha, if_pos rfl]
    have hkern (j : Idx) : pteAt h (zeroPage h s.kmem.mem pa) (s.pmaps .kernel).pml4Phys j =
        pteAt h mem (s.pmaps .kernel).pml4Phys j := by
      refine pteAt_congr h _ _ _ j hI.kernel.aligned fun x hx => ?_
      rw [hmem, hcopy]
      rw [hx]
      exact fun he => hkne (eq_of_pageOf hI.kernel.aligned ha he)
    have hlow (i : Idx) (hi : i.toNat < 256) : pteAt h mem pa i = 0 := by
      rw [hmem, hpte, if_neg (by omega), hzero]
    have hup (i : Idx) (hi : 256 ≤ i.toNat) :
        pteAt h mem pa i = pteAt h mem (s.pmaps .kernel).pml4Phys i := by
      have hi' := i.isLt
      rw [← hkern, hmem, hpte, if_pos (by omega)]
    have hod := Function.update_self (pageOf d) Owner.other
      (Function.update own (pageOf pa) .other)
    have hnew := hI2.not_live hod
    have hI3 := hI2.add ha hda (by rw [Function.update_of_ne hne, Function.update_self]) hod hne
      ⟨hpos, hlt⟩ ⟨hdpos, hdlt⟩ hlow hup
    refine ⟨_, _, hused, fun p hp q i hq hi => ?_, Or.inr ⟨d, hres, hnew, hI3, fun p hp =>
      Function.update_of_ne hp _ _, ?_, fun va hva => ?_, fun n => ?_⟩⟩
    · have hpd : p ≠ .page d := by
        rintro rfl
        exact hnew hp
      dsimp only
      rw [Function.update_of_ne hpd]
      exact (hsame1.trans hsame2) p hp q i hq hi
    · dsimp only
      rw [Function.update_self]
    · rw [pteOf_eq]
      dsimp only
      rw [Function.update_self, tableAt, vaPath, node_cons, hlow _ hva, pteTable_zero]
      rfl
    · by_cases hn : n = pageOf d
      · rw [Function.update_of_ne hne.symm] at hdfree
        rw [hn]
        exact Or.inr ⟨hdfree, Or.inr (withPmap_desc _ pa d)⟩
      by_cases hn' : n = pageOf pa
      · rw [hn']
        exact Or.inr ⟨hfree, Or.inl (withPmap_root _ hne)⟩
      · left
        rw [withPmap, Function.update_of_ne hn, Function.update_of_ne hn',
          Function.update_of_ne hn, Function.update_of_ne hn']

end Write

end Dana
