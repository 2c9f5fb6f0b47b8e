import Dana.PmapHw
import Dana.VmMap
import Dana.Zones

/-! The frames under the maps: page tables, data pages and the pages of the zones, through
every page that is mapped or unmapped and every entry that is allocated or freed. -/
namespace Dana
open ByteMem RadixTree AddrLoop

/-- Who owns each frame, the pmaps in use, and the pages and live elements of the zones. -/
structure VmGhost where
  own : ℕ → Owner
  live : Set PmapPtr
  pages : ℕ → Set ℕ
  elems : ℕ → Set Word

/-- The frame that a leaf entry points to. -/
def pteFrame (e : Word) : Word := e &&& pteAddrMask

/-- The leaf `e` of the page of `va` points to a data page that is its alone. -/
structure DataPage (own : ℕ → Owner) (data : List ℕ) (p : PmapPtr) (va e : Word) : Prop where
  owner : own (pageOf (pteFrame e)) = .leaf p (vaPath va) (ptIdx va)
  mappable : Mappable (pteFrame e)
  lt : pageOf (pteFrame e) < pmmMaxPages
  mem : pageOf (pteFrame e) ∈ data

structure VmMemInv (h : Hhdm) (g : VmGhost) (pm : PmapState) (store : ZoneStore)
    (data : List ℕ) : Prop where
  pmap : PmapInv h g.own pm g.live
  zones : ZonesInv h pm.kmem store g.pages g.elems
  zonePage : ∀ z n, n ∈ g.pages z ↔ g.own n = .zone z
  leaf : ∀ p ∈ g.live, ∀ va e, UserVa va → pteOf h pm p va = some e → DataPage g.own data p va e
  dataLeaf : ∀ n, n ∈ data ↔ ∃ p q i, g.own n = .leaf p q i
  nodup : data.Nodup
  kernelTables : KernelTables h g.own pm.kmem.mem (pm.pmaps .kernel).pml4Phys

/-- What a call on the pmap `p` can have done to the data pages: it takes and gives back
pages of `p` only, and zeroes what it takes. -/
structure Paged (h : Hhdm) (p : PmapPtr) (live : Set PmapPtr) (own own' : ℕ → Owner)
    (pm pm' : PmapState) (data data' : List ℕ) : Prop where
  pmaps : pm'.pmaps = pm.pmaps
  keep : ∀ n p' q i, p' ≠ p → own n = .leaf p' q i → own' n = .leaf p' q i
  kept : ∀ n p' q i, p' ≠ p → own n = .leaf p' q i → n ∈ data → n ∈ data'
  fresh : ∀ n p' q i, own' n = .leaf p' q i → p' = p ∨ own n = .leaf p' q i
  entry : ∀ p' ∈ live, p' ≠ p → ∀ q i, Path lowerDom [] q → ¬ lowerDom q i →
    entryAt h pm'.kmem.mem (pm'.pmaps p').pml4Phys q i =
      entryAt h pm.kmem.mem (pm.pmaps p').pml4Phys q i
  mem : ∀ x, frameOf h x ∈ data' →
    frameOf h x ∈ data ∧ pm'.kmem.mem x = pm.kmem.mem x ∨ pm'.kmem.mem x = 0
  kernel : ∀ n, own n = .kernel → own' n = .kernel
  rest : ∀ n, own' n = .kernel ∨ own' n = .other → own n = own' n
  kernelMem : ∀ x, own (frameOf h x) = .kernel → pm'.kmem.mem x = pm.kmem.mem x

/-- What a call can have done that takes frames for tables or zones: the data pages and the
translations of the pmaps `live` are what they were. -/
structure Kept (h : Hhdm) (live : Set PmapPtr) (own own' : ℕ → Owner) (pm pm' : PmapState)
    (data : List ℕ) : Prop where
  leaf : ∀ n p q i, own' n = .leaf p q i ↔ own n = .leaf p q i
  mem : ∀ x, frameOf h x ∈ data → pm'.kmem.mem x = pm.kmem.mem x
  same : SameEntries h pm pm' live
  kernel : ∀ n, own n = .kernel → own' n = .kernel
  rest : ∀ n, own' n = .kernel ∨ own' n = .other → own n = own' n
  kernelMem : ∀ x, own (frameOf h x) = .kernel → pm'.kmem.mem x = pm.kmem.mem x

section Paged
variable {h : Hhdm} {p : PmapPtr} {live : Set PmapPtr} {own own' own'' : ℕ → Owner}
  {pm pm' pm'' : PmapState} {data data' data'' : List ℕ}

theorem Paged.refl : Paged h p live own own pm pm data data :=
  ⟨rfl, fun _ _ _ _ _ h => h, fun _ _ _ _ _ _ h => h, fun _ _ _ _ h => Or.inr h,
    fun _ _ _ _ _ _ _ => rfl, fun _ hx => Or.inl ⟨hx, rfl⟩, fun _ h => h, fun _ _ => rfl,
    fun _ _ => rfl⟩

theorem Paged.trans (h1 : Paged h p live own own' pm pm' data data')
    (h2 : Paged h p live own' own'' pm' pm'' data' data'') :
    Paged h p live own own'' pm pm'' data data'' := by
  refine ⟨h2.pmaps.trans h1.pmaps, fun n p' q i hp hn => h2.keep n p' q i hp (h1.keep n p' q i hp hn),
    fun n p' q i hp hn hd => h2.kept n p' q i hp (h1.keep n p' q i hp hn) (h1.kept n p' q i hp hn hd),
    fun n p' q i hn => ?_, fun p' hp' hne q i hq hi => ?_, fun x hx => ?_,
    fun n hn => h2.kernel n (h1.kernel n hn), fun n hn => ?_, fun x hx =>
      (h2.kernelMem x (h1.kernel _ hx)).trans (h1.kernelMem x hx)⟩
  · rcases h2.fresh n p' q i hn with he | hn'
    · exact Or.inl he
    · exact h1.fresh n p' q i hn'
  · exact (h2.entry p' hp' hne q i hq hi).trans (h1.entry p' hp' hne q i hq hi)
  · rcases h2.mem x hx with ⟨hd, he⟩ | hz
    · rcases h1.mem x hd with ⟨hd', he'⟩ | hz
      · exact Or.inl ⟨hd', he.trans he'⟩
      · exact Or.inr (he.trans hz)
    · exact Or.inr hz
  · have he := h2.rest n hn
    rw [← he] at hn ⊢
    exact h1.rest n hn

theorem Kept.paged (hk : Kept h live own own' pm pm' data) (hpm : pm'.pmaps = pm.pmaps) :
    Paged h p live own own' pm pm' data data :=
  ⟨hpm, fun n p' q i _ => (hk.leaf n p' q i).mpr, fun _ _ _ _ _ _ hn => hn, fun n p' q i hn =>
    Or.inr ((hk.leaf n p' q i).mp hn), fun p' hp' _ => hk.same p' hp', fun x hx =>
    Or.inl ⟨hx, hk.mem x hx⟩, hk.kernel, hk.rest, hk.kernelMem⟩

end Paged

section Mem
variable {h : Hhdm} {g : VmGhost} {pm pm' : PmapState} {store : ZoneStore} {data data' : List ℕ}
  {own' : ℕ → Owner} {s : VmState} {p : PmapPtr} {a : Word}

theorem VmMemInv.data_used (hI : VmMemInv h g pm store data) {n : ℕ} (hn : n ∈ data) :
    ¬ pm.kmem.pmm.Free n := by
  obtain ⟨p, q, i, ho⟩ := (hI.dataLeaf n).mp hn
  rw [hI.pmap.free, ho]
  simp

/-- Tables and data pages may change; the pages of the zones and the kernel's may not. -/
theorem VmMemInv.step (hI : VmMemInv h g pm store data) {live' : Set PmapPtr}
    (hP : PmapInv h own' pm' live')
    (hown : ∀ n, (∃ z, g.own n = .zone z) ∨ g.own n = .kernel → own' n = g.own n)
    (hzone : ∀ n z, own' n = .zone z → g.own n = .zone z)
    (hmem : ∀ x, (∃ z, g.own (frameOf h x) = .zone z) ∨ g.own (frameOf h x) = .kernel →
      pm'.kmem.mem x = pm.kmem.mem x)
    (hker : pm'.pmaps .kernel = pm.pmaps .kernel)
    (hleaf : ∀ p ∈ live', ∀ va e, UserVa va → pteOf h pm' p va = some e →
      DataPage own' data' p va e)
    (hdata : ∀ n, n ∈ data' ↔ ∃ p q i, own' n = .leaf p q i) (hnd : data'.Nodup) :
    VmMemInv h { g with own := own', live := live' } pm' store data' := by
  have hpage (z : ℕ) (n : ℕ) (hn : n ∈ g.pages z) : own' n = .zone z := by
    have ho := (hI.zonePage z n).mp hn
    rw [hown n (Or.inl ⟨z, ho⟩), ho]
  have hkernel (n : ℕ) (hn : g.own n = .kernel) : own' n = .kernel := by
    rw [hown n (Or.inr hn), hn]
  refine ⟨hP, hI.zones.congr hP.pageZero (fun z n hn hf => ?_) (fun z x hx hne => ?_), fun z n =>
    ⟨hpage z n, fun hn => (hI.zonePage z n).mpr (hzone n z hn)⟩, hleaf, hdata, hnd, ?_⟩
  · rw [hP.free, hpage z n hn] at hf
    cases hf
  · exact absurd (hmem x (Or.inl ⟨z, (hI.zonePage z _).mp hx⟩)) hne
  · rw [hker]
    exact hI.kernelTables.congr hI.pmap.kernel.aligned hI.pmap.kernel.root hkernel
      fun x hx => hmem x (Or.inr hx)

theorem pteFrame_mapEntry {pa : Word} (hpa : Mappable pa) (flags : Word) :
    pteFrame (mapEntry pa flags) = pa := mapEntry_frame hpa flags

/-- A page that the PMM hands out can be mapped. -/
theorem PmapInv.mappable {own : ℕ → Owner} {live : Set PmapPtr} (hI : PmapInv h own pm live) {pa : Word} {pmm : Pmm}
    (hp : pmmAllocPage pm.kmem.pmm = (pa, pmm)) (hpa : pa ≠ pmmNull) : Mappable pa := by
  obtain ⟨ha, _, _, hlt, _⟩ := hI.alloc hp hpa
  exact ⟨ha, hpa, (toNat_lt_of_page hlt).trans (by decide)⟩

/-- What the translations of a pmap and the data pages tell of its leaves. -/
theorem VmMemInv.leaf_set (hI : VmMemInv h g pm store data) (hp : p ∈ g.live) (hva : UserVa a)
    {v : Option Word} (hset : SetsEntry h pm pm' g.live p (vaPath a) (ptIdx a) v)
    (hold : ∀ p' va e, UserVa va → ¬ (p' = p ∧ pageOf va = pageOf a) → pteOf h pm p' va = some e →
      DataPage g.own data p' va e → DataPage own' data' p' va e)
    (hnew : ∀ va e, vaPath va = vaPath a → ptIdx va = ptIdx a → v = some e →
      DataPage own' data' p va e) :
    ∀ p' ∈ g.live, ∀ va e, UserVa va → pteOf h pm' p' va = some e → DataPage own' data' p' va e := by
  intro p' hp' va e hva' he
  rw [pteOf, hset p' hp' _ _ (vaPath_path hva'.lower) (vaPath_leaf va)] at he
  split_ifs at he with hc
  · obtain ⟨rfl, hq, hi⟩ := hc
    exact hnew va e hq hi he
  · refine hold p' va e hva' (fun hx => hc ⟨hx.1, ?_⟩) he (hI.leaf p' hp' va e hva' he)
    exact (vaPath_eq_iff hva hva').mpr hx.2

theorem SameEntries.leaf (hI : VmMemInv h g pm store data) (hsame : SameEntries h pm pm' g.live)
    (hold : ∀ n p q i, g.own n = .leaf p q i → n ∈ data → own' n = .leaf p q i ∧ n ∈ data') :
    ∀ p' ∈ g.live, ∀ va e, UserVa va → pteOf h pm' p' va = some e → DataPage own' data' p' va e := by
  intro p' hp' va e hva he
  rw [pteOf, hsame p' hp' _ _ (vaPath_path hva.lower) (vaPath_leaf va)] at he
  obtain ⟨h1, h2, h3, h4⟩ := hI.leaf p' hp' va e hva he
  obtain ⟨h5, h6⟩ := hold _ _ _ _ h1 h4
  exact ⟨h5, h2, h3, h6⟩

/-- `vmPageIn` with the page that the PMM hands out. -/
theorem vmPageIn_eq {pa : Word} {pmm : Pmm} (hpa : pmmAllocPage s.pm.kmem.pmm = (pa, pmm))
    (hnull : pa ≠ pmmNull) (flags : Word) : vmPageIn h s p a flags =
      let r := pmapMap h { s.pm with kmem := ⟨pmm, zeroPage h s.pm.kmem.mem pa⟩ } p a pa flags
      if r.1 ≠ 0 then
        (false, VmState.freePage { s with pm := r.2, data := pageOf pa :: s.data } pa)
      else (true, { s with pm := r.2, data := pageOf pa :: s.data }) := by
  simp only [vmPageIn, VmState.allocPage, VmState.zeroPage, hpa, hnull, ↓reduceIte]

/-- A frame `pa` has been taken and zeroed for the page at `a`, and the tables of `p` walked:
what that changes. -/
structure PageTaken (h : Hhdm) (g : VmGhost) (p : PmapPtr) (a pa : Word) (pm pm' : PmapState)
    (own' : ℕ → Owner) : Prop where
  inv : PmapInv h own' pm' g.live
  pmaps : pm'.pmaps = pm.pmaps
  new : own' (pageOf pa) = .leaf p (vaPath a) (ptIdx a)
  old : ∀ n, g.own n ≠ .free → own' n = g.own n
  leaf : ∀ n p' q i, own' n = .leaf p' q i → n = pageOf pa ∧ p' = p ∨ g.own n = .leaf p' q i
  back : ∀ n, (∀ q, own' n ≠ .table p q) → own' n ≠ .leaf p (vaPath a) (ptIdx a) →
    g.own n = own' n
  keep : ∀ x, g.own (frameOf h x) ≠ .free → (∀ q, g.own (frameOf h x) ≠ .table p q) →
    pm'.kmem.mem x = pm.kmem.mem x
  zero : ∀ x, frameOf h x = pageOf pa → pm'.kmem.mem x = 0

/-- The walk for a page that has a frame finds its tables and sets the entry, or gives the frame
back and leaves every entry as it was. -/
theorem vmPageIn_taken (hI : VmMemInv h g s.pm s.zoneStore s.data) (hp : p ∈ g.live)
    (hva : UserVa a) {pa : Word} {pmm : Pmm} (hpa : pmmAllocPage s.pm.kmem.pmm = (pa, pmm))
    (hnull : pa ≠ pmmNull) (flags : Word) : ∃ own' pm', PageTaken h g p a pa s.pm pm' own' ∧
      ((vmPageIn h s p a flags =
          (false, VmState.freePage { s with pm := pm', data := pageOf pa :: s.data } pa) ∧
        SameEntries h s.pm pm' g.live) ∨
      (vmPageIn h s p a flags = (true, { s with pm := pm', data := pageOf pa :: s.data }) ∧
        SetsEntry h s.pm pm' g.live p (vaPath a) (ptIdx a) (some (mapEntry pa flags)))) := by
  obtain ⟨ha, hfree, _⟩ := hI.pmap.alloc hpa hnull
  have hzero (x : Word) (hx : frameOf h x ≠ pageOf pa) :
      zeroPage h s.pm.kmem.mem pa x = s.pm.kmem.mem x := by
    rw [zeroPage_apply h _ pa x ha, if_neg hx]
  obtain ⟨hI1, hsame1⟩ := hI.pmap.take (o := .leaf p (vaPath a) (ptIdx a)) hpa hnull (by simp)
    (by simp) (by simp) hzero
  obtain ⟨own1, hown1⟩ : ∃ own1, own1 =
    Function.update g.own (pageOf pa) (.leaf p (vaPath a) (ptIdx a)) := ⟨_, rfl⟩
  obtain ⟨pm1, hpm1⟩ : ∃ pm1 : PmapState, pm1 =
    { s.pm with kmem := ⟨pmm, zeroPage h s.pm.kmem.mem pa⟩ } := ⟨_, rfl⟩
  rw [← hown1, ← hpm1] at hI1
  rw [← hpm1] at hsame1
  have hnew1 : own1 (pageOf pa) = .leaf p (vaPath a) (ptIdx a) := by
    rw [hown1, Function.update_self]
  have hold1 (n : ℕ) (hn : g.own n ≠ .free) : own1 n = g.own n := by
    rw [hown1, Function.update_of_ne]
    rintro rfl
    exact hn hfree
  obtain ⟨pm2, own2, hI2, ht2, hpm2, hres⟩ := pmapMap_spec hI1 hp hva.lower pa flags
  have hpm1s : pm1.pmaps = s.pm.pmaps := by rw [hpm1]
  have hnew2 : own2 (pageOf pa) = .leaf p (vaPath a) (ptIdx a) := by
    rw [ht2.old (by rw [hnew1]; simp), hnew1]
  -- the walk writes frames that were free and tables of `p` only
  have hmem2 (x : Word) (hx : own1 (frameOf h x) ≠ .free)
      (ht : ∀ q, own1 (frameOf h x) ≠ .table p q) :
      pm2.kmem.mem x = zeroPage h s.pm.kmem.mem pa x := by
    rw [ht2.mem x hx ht, hpm1]
  have hrun := vmPageIn_eq (h := h) (p := p) (a := a) hpa hnull flags
  rw [← hpm1] at hrun
  refine ⟨own2, pm2, ⟨hI2, hpm2.trans hpm1s, hnew2, fun n hn => ?_, fun n p' q i hn => ?_,
    fun n ht hl => ?_, fun x hx ht => ?_, fun x hx => ?_⟩, ?_⟩
  · rw [ht2.old (by rwa [hold1 n hn]), hold1 n hn]
  · by_cases hnp : n = pageOf pa
    · rw [hnp, hnew2] at hn
      exact Or.inl ⟨hnp, (Owner.leaf.inj hn).1.symm⟩
    · rcases ht2.new n with h1 | ⟨_, q', h1⟩
      · rw [hn, hown1, Function.update_of_ne hnp] at h1
        exact Or.inr h1.symm
      · rw [hn] at h1
        cases h1
  · have hnp : n ≠ pageOf pa := by
      rintro rfl
      exact hl hnew2
    rcases ht2.new n with h1 | ⟨_, q, h1⟩
    · rw [h1, hown1, Function.update_of_ne hnp]
    · exact absurd h1 (ht q)
  · rw [hmem2 x (by rwa [hold1 _ hx]) (by rwa [hold1 _ hx]), zeroPage_apply h _ pa x ha, if_neg]
    intro hc
    exact hx (hc ▸ hfree)
  · rw [hmem2 x (by rw [hx, hnew1]; simp) (by rw [hx, hnew1]; simp), zeroPage_apply h _ pa x ha,
      if_pos hx]
  · rcases hres with ⟨he, _, hsame⟩ | ⟨he, hset⟩
    · refine Or.inl ⟨?_, hsame1.trans hsame⟩
      rw [hrun, he, if_pos (by simp)]
    · refine Or.inr ⟨?_, fun p' hp' q i hq hi => ?_⟩
      · rw [hrun, he, if_neg (by simp)]
      · rw [hset p' hp' q i hq hi]
        split_ifs with hc
        · rfl
        · exact hsame1 p' hp' q i hq hi

/-- A frame of the kernel or of nobody known has been so before. -/
theorem PageTaken.rest {pa : Word} (hT : PageTaken h g p a pa pm pm' own') (n : ℕ)
    (hn : own' n = .kernel ∨ own' n = .other) : g.own n = own' n := by
  refine hT.back n (fun q hc => ?_) fun hc => ?_
  · rw [hc] at hn
    simp at hn
  · rw [hc] at hn
    simp at hn

theorem PageTaken.zone {pa : Word} (hT : PageTaken h g p a pa pm pm' own') (n z : ℕ)
    (hn : own' n = .zone z) : g.own n = .zone z :=
  (hT.back n (by rw [hn]; simp) (by rw [hn]; simp)).trans hn

/-- Memory of the zones and of the kernel stays. -/
theorem PageTaken.fixed {pa : Word} (hT : PageTaken h g p a pa pm pm' own') (x : Word)
    (hx : (∃ z, g.own (frameOf h x) = .zone z) ∨ g.own (frameOf h x) = .kernel) :
    pm'.kmem.mem x = pm.kmem.mem x := by
  rcases hx with ⟨z, hx⟩ | hx
  · exact hT.keep x (by rw [hx]; simp) (by rw [hx]; simp)
  · exact hT.keep x (by rw [hx]; simp) (by rw [hx]; simp)

theorem PageTaken.owned {pa : Word} (hT : PageTaken h g p a pa pm pm' own') (n : ℕ)
    (hn : (∃ z, g.own n = .zone z) ∨ g.own n = .kernel) : own' n = g.own n := by
  rcases hn with ⟨z, hn⟩ | hn
  · exact hT.old n (by rw [hn]; simp)
  · exact hT.old n (by rw [hn]; simp)

/-- Bytes of the data pages stay. -/
theorem PageTaken.dataMem {pa : Word} (hT : PageTaken h g p a pa pm pm' own')
    (hI : VmMemInv h g pm store data) (x : Word) (hx : frameOf h x ∈ data) :
    pm'.kmem.mem x = pm.kmem.mem x := by
  obtain ⟨p', q, i, ho⟩ := (hI.dataLeaf _).mp hx
  exact hT.keep x (by rw [ho]; simp) (by rw [ho]; simp)

/-- No frame for a table: the page goes back. -/
theorem PageTaken.release {pa : Word} (hT : PageTaken h g p a pa pm pm' own')
    (hI : VmMemInv h g pm store data) (hfree : g.own (pageOf pa) = .free) (hpos : 0 < pageOf pa)
    (hlt : pageOf pa < pmmMaxPages) (hsame : SameEntries h pm pm' g.live) :
    let pm3 : PmapState := { pm' with kmem := { pm'.kmem with pmm := pmmFreePage pm'.kmem.pmm pa } }
    VmMemInv h { g with own := Function.update own' (pageOf pa) .free } pm3 store data ∧
      Paged h p g.live g.own (Function.update own' (pageOf pa) .free) pm pm3 data data ∧
      SameEntries h pm pm3 g.live := by
  intro pm3
  obtain ⟨hI3, hsame3⟩ := hT.inv.give hpos hlt (by rw [hT.new]; simp) (by rw [hT.new]; simp)
    (by rw [hT.new]; simp)
  have hall : SameEntries h pm pm3 g.live := hsame.trans hsame3
  have hold (n : ℕ) (hn : g.own n ≠ .free) : Function.update own' (pageOf pa) .free n = g.own n := by
    rw [Function.update_of_ne, hT.old n hn]
    rintro rfl
    exact hn hfree
  have hleaf (n : ℕ) (p' : PmapPtr) (q : List Idx) (i : Idx) :
      Function.update own' (pageOf pa) .free n = .leaf p' q i ↔ g.own n = .leaf p' q i := by
    refine ⟨fun hn => ?_, fun hn => by rw [hold n (by rw [hn]; simp), hn]⟩
    rw [Function.update_apply] at hn
    split_ifs at hn with hc
    rcases hT.leaf n p' q i hn with ⟨h1, _⟩ | h1
    · exact absurd h1 hc
    · exact h1
  have hkept : Kept h g.live g.own (Function.update own' (pageOf pa) .free) pm pm3 data := by
    refine ⟨hleaf, hT.dataMem hI, hall, fun n hn => ?_, fun n hn => ?_, fun x hx =>
      hT.fixed x (Or.inr hx)⟩
    · rw [hold n (by rw [hn]; simp), hn]
    · rw [Function.update_apply] at hn ⊢
      split_ifs at hn ⊢ with hc
      · simp at hn
      · exact hT.rest n hn
  refine ⟨hI.step hI3 (fun n hn => ?_) (fun n z hn => ?_) hT.fixed (congrFun hT.pmaps .kernel) ?_
    (fun n => ?_) hI.nodup, hkept.paged hT.pmaps, hall⟩
  · rcases hn with ⟨z, hn⟩ | hn
    · exact hold n (by rw [hn]; simp)
    · exact hold n (by rw [hn]; simp)
  · rw [Function.update_apply] at hn
    split_ifs at hn
    exact hT.zone n z hn
  · exact hall.leaf hI fun n p' q i hn hd => ⟨(hleaf n p' q i).mpr hn, hd⟩
  · simp only [hleaf]
    exact hI.dataLeaf n

/-- The page is mapped, and is one more data page. -/
theorem PageTaken.mapped {pa : Word} (hT : PageTaken h g p a pa pm pm' own')
    (hI : VmMemInv h g pm store data) (hp : p ∈ g.live) (hva : UserVa a)
    (hfree : pm.kmem.pmm.Free (pageOf pa)) (hmap : Mappable pa) {flags : Word}
    (hset : SetsEntry h pm pm' g.live p (vaPath a) (ptIdx a) (some (mapEntry pa flags))) :
    VmMemInv h { g with own := own' } pm' store (pageOf pa :: data) ∧
      Paged h p g.live g.own own' pm pm' data (pageOf pa :: data) := by
  have hnotmem : pageOf pa ∉ data := fun hn => hI.data_used hn hfree
  have hother (p' : PmapPtr) (hp' : p' ∈ g.live) (hne : p' ≠ p) (q : List Idx) (i : Idx)
      (hq : Path lowerDom [] q) (hi : ¬ lowerDom q i) :
      entryAt h pm'.kmem.mem (pm'.pmaps p').pml4Phys q i =
        entryAt h pm.kmem.mem (pm.pmaps p').pml4Phys q i := by
    rw [hset p' hp' q i hq hi, if_neg fun hc => hne hc.1]
  refine ⟨hI.step hT.inv hT.owned hT.zone hT.fixed (congrFun hT.pmaps .kernel) ?_
    (fun n => ⟨fun hn => ?_, fun hn => ?_⟩) (List.nodup_cons.mpr ⟨hnotmem, hI.nodup⟩),
    ⟨hT.pmaps, fun n p' q i _ hn => ?_, fun _ _ _ _ _ _ hn => List.mem_cons_of_mem _ hn,
      fun n p' q i hn => ?_, hother, fun x hx => ?_, fun n hn => ?_, hT.rest, fun x hx =>
        hT.fixed x (Or.inr hx)⟩⟩
  · refine hI.leaf_set hp hva hset (fun p' va e _ _ _ hd => ?_) fun va e hq hi hv => ?_
    · exact ⟨by rw [hT.old _ (by rw [hd.owner]; simp), hd.owner], hd.mappable, hd.lt,
        List.mem_cons_of_mem _ hd.mem⟩
    · obtain rfl := Option.some.inj hv
      have hframe := pteFrame_mapEntry hmap flags
      exact ⟨by rw [hframe, hT.new, hq, hi], by rwa [hframe], by rw [hframe]; exact hfree.1,
        by rw [hframe]; exact List.mem_cons_self⟩
  · rcases List.mem_cons.mp hn with rfl | hn
    · exact ⟨_, _, _, hT.new⟩
    · obtain ⟨p', q, i, ho⟩ := (hI.dataLeaf n).mp hn
      exact ⟨p', q, i, by rw [hT.old n (by rw [ho]; simp), ho]⟩
  · obtain ⟨p', q, i, hn⟩ := hn
    rcases hT.leaf n p' q i hn with ⟨h1, _⟩ | h1
    · exact List.mem_cons.mpr (Or.inl h1)
    · exact List.mem_cons_of_mem _ ((hI.dataLeaf n).mpr ⟨p', q, i, h1⟩)
  · rw [hT.old n (by rw [hn]; simp), hn]
  · rcases hT.leaf n p' q i hn with ⟨_, h1⟩ | h1
    · exact Or.inl h1
    · exact Or.inr h1
  · rcases List.mem_cons.mp hx with hx | hx
    · exact Or.inr (hT.zero x hx)
    · exact Or.inl ⟨hx, hT.dataMem hI x hx⟩
  · rw [hT.old n (by rw [hn]; simp), hn]

/-- A page is taken, zeroed and mapped; or there is no frame for it or for a table, and no
translation and no data page has changed. -/
theorem vmPageIn_spec (hI : VmMemInv h g s.pm s.zoneStore s.data) (hp : p ∈ g.live)
    (hva : UserVa a) (flags : Word) : ∃ own' pm' data',
      VmMemInv h { g with own := own' } pm' s.zoneStore data' ∧
      Paged h p g.live g.own own' s.pm pm' s.data data' ∧
      ((vmPageIn h s p a flags = (false, { s with pm := pm', data := data' }) ∧
        data' = s.data ∧ SameEntries h s.pm pm' g.live) ∨
      ∃ pa, vmPageIn h s p a flags = (true, { s with pm := pm', data := data' }) ∧
        data' = pageOf pa :: s.data ∧ s.pm.kmem.pmm.Free (pageOf pa) ∧ Mappable pa ∧
        SetsEntry h s.pm pm' g.live p (vaPath a) (ptIdx a) (some (mapEntry pa flags))) := by
  obtain ⟨pa, pmm, hpa⟩ : ∃ pa pmm, pmmAllocPage s.pm.kmem.pmm = (pa, pmm) := ⟨_, _, rfl⟩
  by_cases hnull : pa = pmmNull
  · have hpmm := pmmAllocPage_none hI.pmap.pageZero (hnull ▸ hpa)
    refine ⟨g.own, s.pm, s.data, hI, Paged.refl, Or.inl ⟨?_, rfl, fun _ _ _ _ _ _ => rfl⟩⟩
    simp only [vmPageIn, VmState.allocPage, hpa, hnull, hpmm, ↓reduceIte]
  obtain ⟨_, hfree, hpos, hlt, _⟩ := hI.pmap.alloc hpa hnull
  have hpf : s.pm.kmem.pmm.Free (pageOf pa) := (hI.pmap.free _).mpr hfree
  have hmap := hI.pmap.mappable hpa hnull
  obtain ⟨own', pm', hT, ⟨hrun, hsame⟩ | ⟨hrun, hset⟩⟩ := vmPageIn_taken hI hp hva hpa hnull flags
  · obtain ⟨hI3, hpaged, hall⟩ := hT.release hI hfree hpos hlt hsame
    refine ⟨_, _, s.data, hI3, hpaged, Or.inl ⟨?_, rfl, hall⟩⟩
    rw [hrun]
    simp only [VmState.freePage, List.erase_cons_head]
  · obtain ⟨hI2, hpaged⟩ := hT.mapped hI hp hva hpf hmap hset
    exact ⟨own', pm', pageOf pa :: s.data, hI2, hpaged, Or.inr ⟨pa, hrun, rfl, hpf, hmap, hset⟩⟩

/-- What `pmap_query` returns is an address in the frame of the page. -/
theorem DataPage.query {own : ℕ → Owner} {va e : Word} (hd : DataPage own data p va e) :
    (e &&& pteAddrMask) ||| (va &&& (pmmPageSize-1)) ≠ 0 ∧
      pageOf ((e &&& pteAddrMask) ||| (va &&& (pmmPageSize-1))) = pageOf (pteFrame e) := by
  have hal : (pteFrame e).toNat%4096 = 0 := hd.mappable.1
  have hne : (pteFrame e).toNat ≠ 0 := fun hz => hd.mappable.2.1 (BitVec.eq_of_toNat_eq hz)
  have hlt := hd.mappable.2.2
  have hor : (e &&& pteAddrMask) ||| (va &&& (pmmPageSize-1)) = pteFrame e+(va &&& 0xfff) :=
    or_offset hd.mappable.1 va
  have hoff : (va &&& 0xfff).toNat < 4096 := by
    have h4 : (0xfff : Word).toNat = 2^12-1 := rfl
    rw [BitVec.toNat_and, h4, Nat.and_two_pow_sub_one_eq_mod]
    exact Nat.mod_lt _ (by decide)
  have hsum : (pteFrame e+(va &&& 0xfff)).toNat = (pteFrame e).toNat+(va &&& 0xfff).toNat := by
    rw [BitVec.toNat_add]
    omega
  rw [hor]
  constructor
  · intro hz
    have h0 : (pteFrame e+(va &&& 0xfff)).toNat = 0 := congrArg BitVec.toNat hz
    omega
  · rw [pageOf_eq, pageOf_eq, hsum]
    omega

theorem DataPage.pos {own : ℕ → Owner} {va e : Word} (hd : DataPage own data p va e) :
    0 < pageOf (pteFrame e) := by
  have hal : (pteFrame e).toNat%4096 = 0 := hd.mappable.1
  have hne : (pteFrame e).toNat ≠ 0 := fun hz => hd.mappable.2.1 (BitVec.eq_of_toNat_eq hz)
  rw [pageOf_eq]
  omega

/-- A page that is mapped is unmapped and its frame given back. -/
theorem vmPageOut_spec (hI : VmMemInv h g s.pm s.zoneStore s.data) (hp : p ∈ g.live)
    (hva : UserVa a) :
    (vmPageOut h s p a = s ∧ pteOf h s.pm p a = none) ∨
    ∃ own' pm' e, pteOf h s.pm p a = some e ∧
      vmPageOut h s p a = { s with pm := pm', data := s.data.erase (pageOf (pteFrame e)) } ∧
      VmMemInv h { g with own := own' } pm' s.zoneStore (s.data.erase (pageOf (pteFrame e))) ∧
      Paged h p g.live g.own own' s.pm pm' s.data (s.data.erase (pageOf (pteFrame e))) ∧
      SetsEntry h s.pm pm' g.live p (vaPath a) (ptIdx a) none := by
  have hquery := pmapQuery_eq h s.pm p a
  rcases pmapUnmap_spec hI.pmap hp hva.lower with ⟨_, hnone⟩ |
    ⟨pm1, e, he, hsome, hI1, ht1, hpm1, hpmm1, hset⟩
  · left
    rw [hnone] at hquery
    simp only [vmPageOut, hquery, ↓reduceIte]
    exact ⟨trivial, hnone⟩
  right
  have hd := hI.leaf p hp a e hva hsome
  obtain ⟨hq0, hqp⟩ := hd.query
  simp only [hsome] at hquery
  obtain ⟨pa, hpa⟩ : ∃ pa, pa = (e &&& pteAddrMask) ||| (a &&& (pmmPageSize-1)) := ⟨_, rfl⟩
  rw [← hpa] at hq0 hqp hquery
  have ho := hd.owner
  rw [← hqp] at ho
  obtain ⟨hI2, hsame2⟩ := hI1.give (hqp ▸ hd.pos) (hqp ▸ hd.lt) (by rw [ho]; simp) (by rw [ho]; simp)
    (by rw [ho]; simp)
  have hset2 : SetsEntry h s.pm { pm1 with kmem := { pm1.kmem with
      pmm := pmmFreePage pm1.kmem.pmm pa } } g.live p (vaPath a) (ptIdx a) none := by
    intro p' hp' q i hq hi
    rw [hsame2 p' hp' q i hq hi]
    exact hset p' hp' q i hq hi
  have hmem (x : Word) (hf : g.own (frameOf h x) ≠ .free)
      (ht : ∀ q, g.own (frameOf h x) ≠ .table p q) : pm1.kmem.mem x = s.pm.kmem.mem x :=
    ht1.mem x hf ht
  have hold (n : ℕ) (hn : n ≠ pageOf pa) :
      Function.update g.own (pageOf pa) .free n = g.own n := Function.update_of_ne hn _ _
  have hne {n : ℕ} {o : Owner} (hn : g.own n = o) (hno : o ≠ .leaf p (vaPath a) (ptIdx a)) :
      n ≠ pageOf pa := by
    rintro rfl
    exact hno (hn.symm.trans ho)
  have hzone (n z : ℕ) (hn : Function.update g.own (pageOf pa) .free n = .zone z) :
      g.own n = .zone z := by
    rw [Function.update_apply] at hn
    split_ifs at hn
    exact hn
  refine ⟨_, _, e, hsome, ?_, hI.step hI2 (fun n hn => ?_) hzone (fun x hx => ?_)
    (congrFun hpm1 _) ?_ (fun n => ⟨fun hn => ?_, fun hn => ?_⟩) (hI.nodup.erase _),
    ⟨hpm1, fun n p' q i hp' hn => ?_,
      fun n p' q i hp' hn hm => ?_, fun n p' q i hn => ?_, fun p' hp' hne' q i hq hi => ?_,
      fun x hx => ?_, fun n hn => ?_, fun n hn => ?_, fun x hx => hmem x (by rw [hx]; simp) (by rw [hx]; simp)⟩,
    hset2⟩
  · simp only [vmPageOut, hquery, hq0, ↓reduceIte, VmState.freePage, he, hqp]
  · rcases hn with ⟨z, hn⟩ | hn
    · exact hold n (hne hn (by simp))
    · exact hold n (hne hn (by simp))
  · rcases hx with ⟨z, hx⟩ | hx
    · exact hmem x (by rw [hx]; simp) (by rw [hx]; simp)
    · exact hmem x (by rw [hx]; simp) (by rw [hx]; simp)
  · refine hI.leaf_set hp hva hset2 (fun p' va e' hva' hc he' hd' => ?_) (by simp)
    have hn' : pageOf (pteFrame e') ≠ pageOf pa := by
      intro hpage
      have hsame := hd'.owner.symm.trans (hpage ▸ ho)
      obtain ⟨h1, h2, h3⟩ := Owner.leaf.inj hsame
      exact hc ⟨h1, (vaPath_eq_iff hva hva').mp ⟨h2, h3⟩⟩
    exact ⟨by rw [hold _ hn', hd'.owner], hd'.mappable, hd'.lt,
      (List.mem_erase_of_ne (hqp ▸ hn')).mpr hd'.mem⟩
  · obtain ⟨p', q, i, ho'⟩ := (hI.dataLeaf n).mp (List.mem_of_mem_erase hn)
    refine ⟨p', q, i, ?_⟩
    rw [hold n, ho']
    rw [hqp]
    exact fun hc => hI.nodup.not_mem_erase (hc ▸ hn)
  · obtain ⟨p', q, i, ho'⟩ := hn
    rw [Function.update_apply] at ho'
    split_ifs at ho' with hc
    exact (List.mem_erase_of_ne (hqp ▸ hc)).mpr ((hI.dataLeaf n).mpr ⟨p', q, i, ho'⟩)
  · rw [hold n (hne hn fun hc => hp' (Owner.leaf.inj hc).1), hn]
  · exact (List.mem_erase_of_ne (hqp ▸ hne hn fun hc => hp' (Owner.leaf.inj hc).1)).mpr hm
  · rw [Function.update_apply] at hn
    split_ifs at hn
    exact Or.inr hn
  · rw [hset2 p' hp' q i hq hi, if_neg fun hc => hne' hc.1]
  · have hx' := List.mem_of_mem_erase hx
    obtain ⟨p', q, i, ho'⟩ := (hI.dataLeaf _).mp hx'
    exact Or.inl ⟨hx', hmem x (by rw [ho']; simp) (by rw [ho']; simp)⟩
  · rw [hold n (hne hn (by simp)), hn]
  · rw [Function.update_apply] at hn ⊢
    split_ifs at hn ⊢
    · simp at hn
    · rfl

/-- Setting the entry of `a` sets the page of `a` in `p`. -/
theorem SetsEntry.pte {live : Set PmapPtr} {v : Option Word} {va : Word}
    (hset : SetsEntry h pm pm' live p (vaPath a) (ptIdx a) v) (hp : p ∈ live)
    (hva : UserVa a) (hva' : UserVa va) :
    pteOf h pm' p va = if pageOf a = pageOf va then v else pteOf h pm p va := by
  rw [pteOf, hset p hp _ _ (vaPath_path hva'.lower) (vaPath_leaf va)]
  by_cases hc : pageOf a = pageOf va
  · rw [if_pos hc, if_pos ⟨rfl, (vaPath_eq_iff hva hva').mpr hc.symm⟩]
  · rw [if_neg hc, if_neg fun hx => hc ((vaPath_eq_iff hva hva').mp hx.2).symm]
    rfl

end Mem

/-- The pages of the addresses `as` have been mapped in `p`, each to a frame of its own. -/
structure MappedIn (h : Hhdm) (live : Set PmapPtr) (p : PmapPtr) (flags : Word) (as : List Word)
    (own own' : ℕ → Owner) (pm pm' : PmapState) (data data' : List ℕ) : Prop where
  paged : Paged h p live own own' pm pm' data data'
  frames : ∃ frames : List ℕ, data' = frames ++ data ∧ frames.length = as.length
  target : (as.map pageOf).Nodup → ∀ n ∈ data', n ∈ data ∨ ∃ a ∈ as, ∃ e,
    pteOf h pm' p a = some e ∧ pageOf (pteFrame e) = n
  mapped : ∀ va, UserVa va → (∃ a ∈ as, pageOf a = pageOf va) →
    ∃ pa, Mappable pa ∧ pageOf pa ∉ data ∧ pteOf h pm' p va = some (mapEntry pa flags)
  other : ∀ va, UserVa va → (∀ a ∈ as, pageOf a ≠ pageOf va) →
    pteOf h pm' p va = pteOf h pm p va

/-- The pages of the addresses `as` have been unmapped in `p`, and their frames given back. -/
structure MappedOut (h : Hhdm) (live : Set PmapPtr) (p : PmapPtr) (as : List Word)
    (own own' : ℕ → Owner) (pm pm' : PmapState) (data data' : List ℕ) : Prop where
  paged : Paged h p live own own' pm pm' data data'
  mem_data : ∀ n, n ∈ data' ↔ n ∈ data ∧ ∀ va e, UserVa va → (∃ a ∈ as, pageOf a = pageOf va) →
    pteOf h pm p va = some e → pageOf (pteFrame e) ≠ n
  gone : ∀ va, UserVa va → (∃ a ∈ as, pageOf a = pageOf va) → pteOf h pm' p va = none
  other : ∀ va, UserVa va → (∀ a ∈ as, pageOf a ≠ pageOf va) →
    pteOf h pm' p va = pteOf h pm p va

section Loops
variable {h : Hhdm} {g : VmGhost} {live : Set PmapPtr} {pm pm' pm'' : PmapState}
  {data data' data'' : List ℕ} {own own' own'' : ℕ → Owner} {s : VmState} {p : PmapPtr}
  {a start stop flags : Word} {as bs : List Word}

theorem MappedIn.refl : MappedIn h live p flags [] own own pm pm data data :=
  ⟨Paged.refl, ⟨[], rfl, rfl⟩, fun _ _ hn => Or.inl hn, by simp, fun _ _ _ => rfl⟩

theorem MappedIn.same (hp : p ∈ live) (hpg : Paged h p live own own' pm pm' data data')
    (hd : data' = data) (hsame : SameEntries h pm pm' live) :
    MappedIn h live p flags [] own own' pm pm' data data' :=
  ⟨hpg, ⟨[], hd, rfl⟩, fun _ _ hn => Or.inl (hd ▸ hn), by simp, fun va hva _ =>
    hsame p hp _ _ (vaPath_path hva.lower) (vaPath_leaf va)⟩

/-- One page, and then the others. -/
theorem MappedIn.cons {pa : Word} (hp : p ∈ live) (hva : UserVa a)
    (hpg : Paged h p live own own' pm pm' data (pageOf pa :: data)) (hpa : Mappable pa)
    (hnew : pageOf pa ∉ data)
    (hset : SetsEntry h pm pm' live p (vaPath a) (ptIdx a) (some (mapEntry pa flags)))
    (hm : MappedIn h live p flags as own' own'' pm' pm'' (pageOf pa :: data) data'') :
    MappedIn h live p flags (a :: as) own own'' pm pm'' data data'' := by
  obtain ⟨frames, hf, hlen⟩ := hm.frames
  refine ⟨hpg.trans hm.paged, ⟨frames ++ [pageOf pa], by simp [hf], by simp [hlen]⟩,
    fun hnd n hn => ?_, fun va hva' hin => ?_, fun va hva' hout => ?_⟩
  · obtain ⟨hout, hnd⟩ := List.nodup_cons.mp hnd
    rcases hm.target hnd n hn with hn | ⟨b, hb, e, he, hen⟩
    · rcases List.mem_cons.mp hn with rfl | hn
      · -- no later page is the page of `a`, which still has its entry
        refine Or.inr ⟨a, List.mem_cons_self, mapEntry pa flags, ?_, ?_⟩
        · rw [hm.other a hva fun b hb hc => hout (hc ▸ List.mem_map_of_mem hb), hset.pte hp hva hva,
            if_pos rfl]
        · rw [pteFrame_mapEntry hpa]
      · exact Or.inl hn
    · exact Or.inr ⟨b, List.mem_cons_of_mem _ hb, e, he, hen⟩
  · by_cases has : ∃ b ∈ as, pageOf b = pageOf va
    · obtain ⟨pb, hpb, hnew', he⟩ := hm.mapped va hva' has
      exact ⟨pb, hpb, fun hc => hnew' (List.mem_cons_of_mem _ hc), he⟩
    · have hpage : pageOf a = pageOf va := by
        obtain ⟨b, hb, hbv⟩ := hin
        rcases List.mem_cons.mp hb with rfl | hb
        · exact hbv
        · exact absurd ⟨b, hb, hbv⟩ has
      push Not at has
      refine ⟨pa, hpa, hnew, ?_⟩
      rw [hm.other va hva' has, hset.pte hp hva hva', if_pos hpage]
  · rw [hm.other va hva' fun b hb => hout b (List.mem_cons_of_mem _ hb), hset.pte hp hva hva',
      if_neg (hout a List.mem_cons_self)]

/-- The loop maps the pages in order, and where it stops the pages before are mapped. -/
theorem pagesIn_foldlM (hp : p ∈ g.live) (flags : Word) (as : List Word)
    (has : ∀ a ∈ as, UserVa a) (s : VmState) (hI : VmMemInv h g s.pm s.zoneStore s.data) :
    ∃ own' pm' data', VmMemInv h { g with own := own' } pm' s.zoneStore data' ∧
      ((as.foldlM (fun s a => match vmPageIn h s p a flags with
          | (true, s) => Except.ok s
          | (false, s) => .error (a, s)) s = .ok { s with pm := pm', data := data' } ∧
        MappedIn h g.live p flags as g.own own' s.pm pm' s.data data') ∨
      ∃ done a rest, as = done ++ a :: rest ∧
        as.foldlM (fun s a => match vmPageIn h s p a flags with
          | (true, s) => Except.ok s
          | (false, s) => .error (a, s)) s = .error (a, { s with pm := pm', data := data' }) ∧
        MappedIn h g.live p flags done g.own own' s.pm pm' s.data data') := by
  induction as generalizing s g with
  | nil => exact ⟨g.own, s.pm, s.data, hI, Or.inl ⟨rfl, MappedIn.refl⟩⟩
  | cons a as ih =>
    have hva := has a List.mem_cons_self
    obtain ⟨own1, pm1, data1, hI1, hpg, ⟨he, hd, hsame⟩ | ⟨pa, he, hd, hfree, hpa, hset⟩⟩ :=
      vmPageIn_spec hI hp hva flags
    · refine ⟨own1, pm1, data1, hI1, Or.inr ⟨[], a, as, rfl, ?_,
        MappedIn.same hp hpg hd hsame⟩⟩
      rw [List.foldlM_cons, he]
      rfl
    · subst hd
      have hnew : pageOf pa ∉ s.data := fun hn => hI.data_used hn hfree
      obtain ⟨own2, pm2, data2, hI2, hres⟩ := ih (g := { g with own := own1 }) hp
        (fun b hb => has b (List.mem_cons_of_mem _ hb))
        { s with pm := pm1, data := pageOf pa :: s.data } hI1
      refine ⟨own2, pm2, data2, hI2, ?_⟩
      rcases hres with ⟨hf, hm⟩ | ⟨done, b, rest, hsplit, hf, hm⟩
      · refine Or.inl ⟨?_, hm.cons hp hva hpg hpa hnew hset⟩
        rw [List.foldlM_cons, he]
        exact hf
      · refine Or.inr ⟨a :: done, b, rest, by simp [hsplit], ?_, hm.cons hp hva hpg hpa hnew hset⟩
        rw [List.foldlM_cons, he]
        exact hf

/-- The addresses that a page loop from `start` to `stop` goes through. -/
def pageAddrs (start stop : Word) : List Word := addrs pmmPageSize stop addrFuel start

theorem mem_pageAddrs (hstop : stop.toNat ≤ 2^47) {x : Word} : x ∈ pageAddrs start stop ↔
    x < stop ∧ ∃ k : ℕ, x.toNat = start.toNat+k*4096 := by
  have h4 : pmmPageSize.toNat = 4096 := rfl
  have hf : addrFuel = 2^64 := rfl
  exact mem_addrs (by omega) (by rw [h4, hf]; omega)

/-- They are in different pages. -/
theorem pageAddrs_nodup (hstop : stop.toNat ≤ 2^47) :
    ((pageAddrs start stop).map pageOf).Nodup := by
  have h4 : pmmPageSize.toNat = 4096 := rfl
  have hwrap : stop.toNat+pmmPageSize.toNat ≤ 2^64 := by omega
  have hpair := addrs_pairwise hwrap addrFuel start
  rw [List.Nodup, List.pairwise_map]
  refine hpair.imp fun {x y} hxy => ?_
  rw [pageOf_eq, pageOf_eq]
  omega

theorem user_of_pageAddrs (hstop : stop.toNat ≤ 2^47) {x : Word} (hx : x ∈ pageAddrs start stop) :
    UserVa x := by
  have hlt := ((mem_pageAddrs hstop).mp hx).1
  rw [BitVec.lt_def] at hlt
  exact hlt.trans_le hstop

theorem forPages_eq {σ ρ : Type*} (hstop : stop.toNat ≤ 2^47) (body : Word → σ → Except ρ σ)
    (s : σ) : forAddr pmmPageSize stop body addrFuel start s =
      some ((pageAddrs start stop).foldlM (fun s a => body a s) s) := by
  have h4 : pmmPageSize.toNat = 4096 := rfl
  have hf : addrFuel = 2^64 := rfl
  exact forAddr_eq_foldlM _ _ _ (by omega) _ _ _ (by rw [h4, hf]; omega)

/-- The page loop of `vm_map_enter` and `vm_map_page_range` ends, and has mapped all pages or
those before the one it stops at. -/
theorem vmPagesIn_spec (hI : VmMemInv h g s.pm s.zoneStore s.data) (hp : p ∈ g.live)
    (hstop : stop.toNat ≤ 2^47) (start flags : Word) : ∃ own' pm' data',
      VmMemInv h { g with own := own' } pm' s.zoneStore data' ∧
      ((vmPagesIn h p flags stop start s = some (.ok { s with pm := pm', data := data' }) ∧
        MappedIn h g.live p flags (pageAddrs start stop) g.own own' s.pm pm' s.data data') ∨
      ∃ done a rest, pageAddrs start stop = done ++ a :: rest ∧
        vmPagesIn h p flags stop start s =
          some (.error (a, { s with pm := pm', data := data' })) ∧
        MappedIn h g.live p flags done g.own own' s.pm pm' s.data data') := by
  obtain ⟨own', pm', data', hI', hres⟩ := pagesIn_foldlM hp flags (pageAddrs start stop)
    (fun a ha => user_of_pageAddrs hstop ha) s hI
  refine ⟨own', pm', data', hI', ?_⟩
  rw [vmPagesIn, forPages_eq hstop]
  rcases hres with ⟨hf, hm⟩ | ⟨done, a, rest, hsplit, hf, hm⟩
  · exact Or.inl ⟨congrArg some hf, hm⟩
  · exact Or.inr ⟨done, a, rest, hsplit, congrArg some hf, hm⟩

theorem MappedOut.refl : MappedOut h live p [] own own pm pm data data :=
  ⟨Paged.refl, by simp, by simp, fun _ _ _ => rfl⟩

/-- Translations and data pages that stay. -/
theorem MappedOut.same (hp : p ∈ live) (hpg : Paged h p live own own' pm pm' data data)
    (hsame : SameEntries h pm pm' live) : MappedOut h live p [] own own' pm pm' data data :=
  ⟨hpg, by simp, by simp, fun va hva _ =>
    hsame p hp _ _ (vaPath_path hva.lower) (vaPath_leaf va)⟩

theorem MappedOut.trans (h1 : MappedOut h live p as own own' pm pm' data data')
    (h2 : MappedOut h live p bs own' own'' pm' pm'' data' data'') :
    MappedOut h live p (as ++ bs) own own'' pm pm'' data data'' := by
  refine ⟨h1.paged.trans h2.paged, fun n => ?_, fun va hva hin => ?_, fun va hva hout => ?_⟩
  · rw [h2.mem_data, h1.mem_data]
    constructor
    · rintro ⟨⟨hn, hall1⟩, hall2⟩
      refine ⟨hn, fun va e hva hin he => ?_⟩
      by_cases has : ∃ a ∈ as, pageOf a = pageOf va
      · exact hall1 va e hva has he
      · obtain ⟨b, hb, hbv⟩ := hin
        rcases List.mem_append.mp hb with hb | hb
        · exact absurd ⟨b, hb, hbv⟩ has
        · push Not at has
          exact hall2 va e hva ⟨b, hb, hbv⟩ (by rw [h1.other va hva has, he])
    · rintro ⟨hn, hall⟩
      refine ⟨⟨hn, fun va e hva hin he => ?_⟩, fun va e hva hin he => ?_⟩
      · obtain ⟨b, hb, hbv⟩ := hin
        exact hall va e hva ⟨b, List.mem_append_left _ hb, hbv⟩ he
      · by_cases has : ∃ a ∈ as, pageOf a = pageOf va
        · rw [h1.gone va hva has] at he
          cases he
        · obtain ⟨b, hb, hbv⟩ := hin
          push Not at has
          rw [h1.other va hva has] at he
          exact hall va e hva ⟨b, List.mem_append_right _ hb, hbv⟩ he
  · by_cases hbs : ∃ b ∈ bs, pageOf b = pageOf va
    · exact h2.gone va hva hbs
    · obtain ⟨b, hb, hbv⟩ := hin
      rcases List.mem_append.mp hb with hb | hb
      · push Not at hbs
        rw [h2.other va hva hbs]
        exact h1.gone va hva ⟨b, hb, hbv⟩
      · exact absurd ⟨b, hb, hbv⟩ hbs
  · rw [h2.other va hva fun b hb => hout b (List.mem_append_right _ hb),
      h1.other va hva fun b hb => hout b (List.mem_append_left _ hb)]

/-- One page. -/
theorem vmPageOut_mapped (hI : VmMemInv h g s.pm s.zoneStore s.data) (hp : p ∈ g.live)
    (hva : UserVa a) : ∃ own' pm' data',
      vmPageOut h s p a = { s with pm := pm', data := data' } ∧
      VmMemInv h { g with own := own' } pm' s.zoneStore data' ∧
      MappedOut h g.live p [a] g.own own' s.pm pm' s.data data' := by
  have hpage {va : Word} (hva' : UserVa va) (hc : pageOf a = pageOf va) :
      pteOf h s.pm p va = pteOf h s.pm p a := by
    obtain ⟨hq, hi⟩ := (vaPath_eq_iff hva hva').mpr hc.symm
    rw [pteOf, hq, hi]
    rfl
  rcases vmPageOut_spec hI hp hva with ⟨he, hnone⟩ | ⟨own1, pm1, e, he, hrun, hI1, hpg, hset⟩
  · refine ⟨g.own, s.pm, s.data, he, hI, Paged.refl, fun n => ?_, fun va hva' hin => ?_,
      fun _ _ _ => rfl⟩
    · refine (and_iff_left fun va e hva' hin he' => ?_).symm
      rw [hpage hva' (by simpa using hin), hnone] at he'
      cases he'
    · rw [hpage hva' (by simpa using hin), hnone]
  · refine ⟨own1, pm1, _, hrun, hI1, hpg, fun n => ?_, fun va hva' hin => ?_, fun va hva' hout => ?_⟩
    · rw [hI.nodup.mem_erase_iff, and_comm]
      refine and_congr_right fun _ => ⟨fun hne va e' hva' hin he' => ?_, fun hall => ?_⟩
      · rw [hpage hva' (by simpa using hin), he] at he'
        obtain rfl := Option.some.inj he'
        exact hne.symm
      · exact (hall a e hva ⟨a, List.mem_singleton_self a, rfl⟩ he).symm
    · rw [hset.pte hp hva hva', if_pos (by simpa using hin)]
    · rw [hset.pte hp hva hva', if_neg (hout a (List.mem_singleton_self a))]

theorem pagesOut_foldlM (hp : p ∈ g.live) (as : List Word) (has : ∀ a ∈ as, UserVa a)
    (s : VmState) (hI : VmMemInv h g s.pm s.zoneStore s.data) : ∃ own' pm' data',
      as.foldlM (fun s a => Except.ok (ε := VmState) (vmPageOut h s p a)) s =
        .ok { s with pm := pm', data := data' } ∧
      VmMemInv h { g with own := own' } pm' s.zoneStore data' ∧
      MappedOut h g.live p as g.own own' s.pm pm' s.data data' := by
  induction as generalizing s g with
  | nil => exact ⟨g.own, s.pm, s.data, rfl, hI, MappedOut.refl⟩
  | cons a as ih =>
    obtain ⟨own1, pm1, data1, hrun, hI1, hm1⟩ := vmPageOut_mapped hI hp (has a List.mem_cons_self)
    obtain ⟨own2, pm2, data2, hf, hI2, hm⟩ := ih (g := { g with own := own1 }) hp
      (fun b hb => has b (List.mem_cons_of_mem _ hb)) { s with pm := pm1, data := data1 } hI1
    refine ⟨own2, pm2, data2, ?_, hI2, hm1.trans hm⟩
    rw [List.foldlM_cons, hrun]
    exact hf

/-- The page loop of `vm_map_remove` ends, and has unmapped its pages. -/
theorem vmPagesOut_spec (hI : VmMemInv h g s.pm s.zoneStore s.data) (hp : p ∈ g.live)
    (hstop : stop.toNat ≤ 2^47) (start : Word) : ∃ own' pm' data',
      vmPagesOut h p stop start s = some { s with pm := pm', data := data' } ∧
      VmMemInv h { g with own := own' } pm' s.zoneStore data' ∧
      MappedOut h g.live p (pageAddrs start stop) g.own own' s.pm pm' s.data data' := by
  obtain ⟨own', pm', data', hf, hI', hm⟩ := pagesOut_foldlM hp (pageAddrs start stop)
    (fun a ha => user_of_pageAddrs hstop ha) s hI
  refine ⟨own', pm', data', ?_, hI', hm⟩
  rw [vmPagesOut, forPages_eq hstop]
  exact congrArg (fun r => (some r).map stateOf) hf

end Loops

section Zones
variable {h : Hhdm} {g : VmGhost} {pm : PmapState} {store : ZoneStore} {data : List ℕ}
  {z : ℕ} {e : Word} {zone : Zone} {k : Kmem} {own' : ℕ → Owner}

/-- The zones take frames that were free, and nothing else sees it. -/
theorem VmMemInv.of_zones (hI : VmMemInv h g pm store data) {store' : ZoneStore}
    {pages' : ℕ → Set ℕ} {elems' : ℕ → Set Word} (hz : ZonesInv h k store' pages' elems')
    (hfree : ∀ n, k.pmm.Free n ↔ own' n = .free)
    (hnew : ∀ n, own' n = g.own n ∨ g.own n = .free ∧ ∃ z, own' n = .zone z)
    (hpage : ∀ z n, n ∈ pages' z ↔ own' n = .zone z)
    (hmem : ∀ x, g.own (frameOf h x) ≠ .free → (∀ z, g.own (frameOf h x) ≠ .zone z) →
      k.mem x = pm.kmem.mem x) :
    VmMemInv h ⟨own', g.live, pages', elems'⟩ { pm with kmem := k } store' data ∧
      Kept h g.live g.own own' pm { pm with kmem := k } data := by
  have hold (n : ℕ) (o : Owner) (ho : o ≠ .free) (hoz : ∀ z, o ≠ .zone z) :
      own' n = o ↔ g.own n = o := by
    rcases hnew n with h1 | ⟨h1, z, h2⟩
    · rw [h1]
    · rw [h1, h2]
      exact iff_of_false (hoz z).symm ho.symm
  have htable (n : ℕ) (p : PmapPtr) (q : List Idx) : own' n = .table p q ↔ g.own n = .table p q :=
    hold n _ (by simp) (by simp)
  obtain ⟨hP, hsame⟩ := hI.pmap.congr hz.pageZero hfree htable (fun n p => hold n _ (by simp) (by simp))
    (fun n hn => (hold n _ (by simp) (by simp)).mpr hn) fun x hx => by
      rcases hx with ⟨p, q, hx⟩ | hx
      · exact hmem x (by rw [hx]; simp) (by rw [hx]; simp)
      · exact hmem x (by rw [hx]; simp) (by rw [hx]; simp)
  have hleaf (n : ℕ) (p : PmapPtr) (q : List Idx) (i : Idx) :
      own' n = .leaf p q i ↔ g.own n = .leaf p q i := hold n _ (by simp) (by simp)
  have hpte : ∀ p ∈ g.live, ∀ va e, UserVa va → pteOf h { pm with kmem := k } p va = some e →
      DataPage own' data p va e :=
    hsame.leaf hI fun n p q i hn hd => ⟨(hleaf n p q i).mpr hn, hd⟩
  have hker (n : ℕ) (hn : g.own n = .kernel) : own' n = .kernel :=
    (hold n _ (by simp) (by simp)).mpr hn
  have hkerMem (x : Word) (hx : g.own (frameOf h x) = .kernel) : k.mem x = pm.kmem.mem x :=
    hmem x (by rw [hx]; simp) (by rw [hx]; simp)
  refine ⟨⟨hP, hz, hpage, hpte, fun n => ?_, hI.nodup,
    hI.kernelTables.congr hI.pmap.kernel.aligned hI.pmap.kernel.root hker hkerMem⟩,
    hleaf, fun x hx => ?_, hsame, hker, fun n hn => ?_, hkerMem⟩
  · simp only [hleaf]
    exact hI.dataLeaf n
  · obtain ⟨p', q, i, ho⟩ := (hI.dataLeaf _).mp hx
    exact hmem x (by rw [ho]; simp) (by rw [ho]; simp)
  · rcases hnew n with h1 | ⟨_, z, h1⟩
    · exact h1.symm
    · rw [h1] at hn
      simp at hn

open Classical in
theorem VmMemInv.zalloc (hI : VmMemInv h g pm store data) (hz : z < store.zoneCount)
    (ha : zalloc h (store.zones z) pm.kmem = (e, zone, k)) :
    (e = 0 ∧ zone = store.zones z ∧ k = pm.kmem) ∨
    (e ≠ 0 ∧ e ∉ g.elems z ∧ ∃ own' pages',
      VmMemInv h ⟨own', g.live, pages', Function.update g.elems z (insert e (g.elems z))⟩
        { pm with kmem := k } (store.set z zone) data ∧
      Kept h g.live g.own own' pm { pm with kmem := k } data) := by
  rcases hI.zones.zalloc hz ha with hfail | ⟨hne, hnl, _, _, pages', hz', hgr⟩
  · exact Or.inl hfail
  have hfresh (n : ℕ) (hn : n ∈ pages') : g.own n = .zone z ∨ g.own n = .free := by
    rcases hgr.fresh n hn with hold | hf
    · exact Or.inl ((hI.zonePage z n).mp hold)
    · exact Or.inr ((hI.pmap.free n).mp hf)
  refine Or.inr ⟨hne, hnl, fun n => if n ∈ pages' then .zone z else g.own n, _,
    hI.of_zones hz' (fun n => ?_) (fun n => ?_) (fun z' n => ?_) fun x hf hnz => ?_⟩
  · rw [hgr.free]
    split_ifs with hn
    · exact iff_of_false (fun hc => hc.2 hn) (by simp)
    · rw [hI.pmap.free]
      exact and_iff_left hn
  · split_ifs with hn
    · rcases hfresh n hn with h1 | h1
      · exact Or.inl h1.symm
      · exact Or.inr ⟨h1, z, rfl⟩
    · exact Or.inl rfl
  · by_cases hzz : z' = z
    · rw [hzz, Function.update_self]
      split_ifs with hn
      · exact iff_of_true hn rfl
      · exact iff_of_false hn fun ho => hn (hgr.sub ((hI.zonePage z n).mpr ho))
    · rw [Function.update_of_ne hzz, hI.zonePage]
      split_ifs with hn
      · refine iff_of_false (fun ho => ?_) fun hc => hzz (Owner.zone.inj hc).symm
        rcases hfresh n hn with h1 | h1
        · exact hzz (Owner.zone.inj (ho.symm.trans h1))
        · rw [ho] at h1
          cases h1
      · rfl
  · refine hgr.mem x fun hc => ?_
    rcases hfresh _ hc with h1 | h1
    · exact hnz z h1
    · exact hf h1

theorem VmMemInv.zfree (hI : VmMemInv h g pm store data) (he : e ∈ g.elems z)
    (hf : zfree (store.zones z) e pm.kmem = (zone, k)) :
    VmMemInv h { g with elems := Function.update g.elems z (g.elems z \ {e}) }
        { pm with kmem := k } (store.set z zone) data ∧
      Kept h g.live g.own g.own pm { pm with kmem := k } data := by
  obtain ⟨_, hpmm, hmem, hz⟩ := hI.zones.zfree he hf
  refine hI.of_zones hz (fun n => ?_) (fun n => Or.inl rfl) hI.zonePage fun x _ hnz => ?_
  · rw [hpmm]
    exact hI.pmap.free n
  · exact hmem x fun hc => hnz z ((hI.zonePage z _).mp hc)

end Zones

end Dana
