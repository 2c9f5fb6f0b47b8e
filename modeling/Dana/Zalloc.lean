import Dana.Hhdm
import Mathlib.Data.Set.Card

/-! The zone allocator of vm/zalloc.c: pools of same-sized elements in pages of the
PMM, whose free elements are linked through their first word. -/
namespace Dana
open ByteMem

def zoneMax : ℕ := 32

structure Zone where
  elemSize : Word
  maxSize : Word
  curSize : Word
  freeList : Word
  countFree : BitVec 32
  countAlloc : BitVec 32

/-- `zone_store` and `zone_count`; a `zone_t` is an index into the store. -/
structure ZoneStore where
  zones : ℕ → Zone
  zoneCount : ℕ

def ZoneStore.set (s : ZoneStore) (z : ℕ) (zone : Zone) : ZoneStore :=
  { s with zones := Function.update s.zones z zone }

/-- `none` is `ZONE_NULL`. -/
def zinit (s : ZoneStore) (elemSize maxSize : Word) : Option ℕ × ZoneStore :=
  if zoneMax ≤ s.zoneCount then (none, s)
  else
    let elemSize := if elemSize < 8 then 8 else elemSize
    let elemSize := (elemSize+(8-1)) &&& ~~~(8-1)
    (some s.zoneCount,
      { zones := Function.update s.zones s.zoneCount
          { elemSize := elemSize, maxSize := maxSize, curSize := 0, freeList := 0,
            countFree := 0, countAlloc := 0 }
        zoneCount := s.zoneCount+1 })

/-- `r` more rounds of the loop of `zone_grow`, from element `i` of the page on. -/
def zoneGrowLoop (page : Word) : ℕ → ℕ → Zone → Mem → Zone × Mem
  | 0, _, z, m => (z, m)
  | r+1, i, z, m =>
    let elem := page+BitVec.ofNat 64 i*z.elemSize
    zoneGrowLoop page r (i+1)
      { z with freeList := elem, countFree := z.countFree+1 } (store64 m elem z.freeList)

def zoneGrow (h : Hhdm) (z : Zone) (k : Kmem) : Int × Zone × Kmem :=
  if z.maxSize ≠ 0 ∧ z.maxSize ≤ z.curSize then (-1, z, k)
  else
    let (paddr, pmm) := pmmAllocPage k.pmm
    if paddr = pmmNull then (-1, z, { k with pmm := pmm })
    else
      let n := pmmPageSize/z.elemSize
      let (z, mem) := zoneGrowLoop (physToVirt h paddr) n.toNat 0 z k.mem
      (0, { z with curSize := z.curSize+pmmPageSize }, { pmm := pmm, mem := mem })

/-- Take the head of the free list, and `kmemset` it to 0. -/
def zallocPop (z : Zone) (k : Kmem) : Word × Zone × Kmem :=
  (z.freeList,
    { z with
      freeList := load64 k.mem z.freeList
      countFree := z.countFree-1
      countAlloc := z.countAlloc+1 },
    { k with mem := fill k.mem z.freeList 0 z.elemSize })

def zalloc (h : Hhdm) (z : Zone) (k : Kmem) : Word × Zone × Kmem :=
  if z.freeList = 0 then
    match zoneGrow h z k with
    | (r, z, k) => if r ≠ 0 then (0, z, k) else zallocPop z k
  else zallocPop z k

def zfree (z : Zone) (elem : Word) (k : Kmem) : Zone × Kmem :=
  ({ z with
      freeList := elem
      countFree := z.countFree+1
      countAlloc := z.countAlloc-1 },
    { k with mem := store64 k.mem elem z.freeList })

/-- Element `i` of page `n`. -/
def slotAt (h : Hhdm) (size : Word) (n i : ℕ) : Word :=
  physToVirt h (frameAddr n)+BitVec.ofNat 64 (i*size.toNat)

def IsSlot (h : Hhdm) (size : Word) (pages : Set ℕ) (e : Word) : Prop :=
  ∃ n ∈ pages, ∃ i, (i+1)*size.toNat ≤ 4096 ∧ e = slotAt h size n i

/-- The free list from `p` on, read through the memory, is `es`. -/
def FreeChain (m : Mem) : Word → List Word → Prop
  | p, [] => p = 0
  | p, e :: es => p = e ∧ FreeChain m (load64 m e) es

/-- A zone that owns `pages`, with free list `free` and elements `live` handed out. -/
structure ZoneOk (h : Hhdm) (k : Kmem) (pages : Set ℕ) (z : Zone) (free : List Word)
    (live : Set Word) : Prop where
  size_lb : 8 ≤ z.elemSize.toNat
  size_ub : z.elemSize.toNat ≤ 4096
  pages_used : ∀ n ∈ pages, 0 < n ∧ n < pmmMaxPages ∧ ¬ k.pmm.Free n
  chain : FreeChain k.mem z.freeList free
  free_slot : ∀ e ∈ free, IsSlot h z.elemSize pages e
  live_slot : ∀ e ∈ live, IsSlot h z.elemSize pages e
  nodup : free.Nodup
  apart : ∀ e ∈ free, e ∉ live

/-- The counters of a zone agree with its pages and elements. -/
structure ZoneCounts (pages : Set ℕ) (z : Zone) (free : List Word) (live : Set Word) : Prop where
  cur : z.curSize.toNat = 4096*pages.ncard
  fin : live.Finite
  total : free.length+live.ncard = pages.ncard*(4096/z.elemSize.toNat)
  free : z.countFree = BitVec.ofNat 32 free.length
  alloc : z.countAlloc = BitVec.ofNat 32 live.ncard
  max : z.maxSize ≠ 0 → z.curSize.toNat < z.maxSize.toNat+4096

@[simp] theorem ZoneStore.set_zones (s : ZoneStore) (z : ℕ) (zone : Zone) :
    (s.set z zone).zones z = zone := Function.update_self ..

theorem ZoneStore.set_zones_of_ne (s : ZoneStore) {z z' : ℕ} (zone : Zone) (hne : z' ≠ z) :
    (s.set z zone).zones z' = s.zones z' := Function.update_of_ne hne ..

theorem FreeChain.congr {m m' : Mem} {p : Word} {es : List Word} (hc : FreeChain m p es)
    (hm : ∀ e ∈ es, load64 m' e = load64 m e) : FreeChain m' p es := by
  induction es generalizing p with
  | nil => exact hc
  | cons e es ih =>
    refine ⟨hc.1, ?_⟩
    rw [hm e (by simp)]
    exact ih hc.2 fun e' he' => hm e' (by simp [he'])

section Slots
variable {h : Hhdm} {size : Word} {pages : Set ℕ}

theorem slotAt_phys (h : Hhdm) (size : Word) (n i : ℕ) (hn : n < pmmMaxPages) (hi : i*size.toNat ≤ 4096) :
    (virtToPhys h (slotAt h size n i)).toNat = 4096*n+i*size.toNat := by
  have he : virtToPhys h (slotAt h size n i) = frameAddr n+BitVec.ofNat 64 (i*size.toNat) := by
    rw [slotAt, virtToPhys, physToVirt]
    bv_omega
  have hf : (frameAddr n).toNat = 4096*n := toNat_shift n hn
  have hn' : n < 2^20 := hn
  rw [he, BitVec.toNat_add, BitVec.toNat_ofNat, hf]
  omega

/-- The bytes of a slot, as offsets into its page. -/
theorem slot_byte {n i : ℕ} (hn : n < pmmMaxPages) (hi : (i+1)*size.toNat ≤ 4096) (x : Word)
    (hx : x-slotAt h size n i < size) :
    ∃ d < size.toNat, (virtToPhys h x).toNat = 4096*n+i*size.toNat+d := by
  have hsucc : (i+1)*size.toNat = i*size.toNat+size.toNat := by rw [Nat.add_mul, one_mul]
  have hp := slotAt_phys h size n i hn (by omega)
  have hn' : n < 2^20 := hn
  refine ⟨(x-slotAt h size n i).toNat, hx, ?_⟩
  have he : virtToPhys h x = virtToPhys h (slotAt h size n i)+(x-slotAt h size n i) := by
    rw [virtToPhys, virtToPhys]
    bv_omega
  rw [he, BitVec.toNat_add, hp]
  have hlt : (x-slotAt h size n i).toNat < size.toNat := hx
  omega

theorem slot_frame (hp : ∀ n ∈ pages, n < pmmMaxPages) {e x : Word}
    (he : IsSlot h size pages e) (hx : x-e < size) : frameOf h x ∈ pages := by
  obtain ⟨n, hn, i, hi, rfl⟩ := he
  have hsucc : (i+1)*size.toNat = i*size.toNat+size.toNat := by rw [Nat.add_mul, one_mul]
  obtain ⟨d, hd, hv⟩ := slot_byte (hp n hn) hi x hx
  have hf : frameOf h x = n := by
    rw [frameOf, pageOf_eq, hv]
    omega
  rwa [hf]

theorem frameOf_slotAt {n i : ℕ} (hn : n < pmmMaxPages) (hsize : 0 < size.toNat)
    (hi : (i+1)*size.toNat ≤ 4096) : frameOf h (slotAt h size n i) = n := by
  have hsucc : (i+1)*size.toNat = i*size.toNat+size.toNat := by rw [Nat.add_mul, one_mul]
  rw [frameOf, pageOf_eq, slotAt_phys h size n i hn (by omega)]
  omega

theorem slot_frame_self (hp : ∀ n ∈ pages, n < pmmMaxPages) (hsize : 0 < size.toNat) {e : Word}
    (he : IsSlot h size pages e) : frameOf h e ∈ pages := by
  obtain ⟨n, hn, i, hi, rfl⟩ := he
  rwa [frameOf_slotAt (hp n hn) hsize hi]

/-- Two slots that share a byte are the same slot. -/
theorem slot_unique (hp : ∀ n ∈ pages, n < pmmMaxPages) {e e' x : Word}
    (he : IsSlot h size pages e) (he' : IsSlot h size pages e') (hx : x-e < size)
    (hx' : x-e' < size) : e = e' := by
  obtain ⟨n, hn, i, hi, rfl⟩ := he
  obtain ⟨n', hn', i', hi', rfl⟩ := he'
  obtain ⟨d, hd, hv⟩ := slot_byte (hp n hn) hi x hx
  obtain ⟨d', hd', hv'⟩ := slot_byte (hp n' hn') hi' x hx'
  have h1 : (i+1)*size.toNat = i*size.toNat+size.toNat := by rw [Nat.add_mul, one_mul]
  have h2 : (i'+1)*size.toNat = i'*size.toNat+size.toNat := by rw [Nat.add_mul, one_mul]
  obtain rfl : n = n' := by omega
  have hq : i*size.toNat+d = i'*size.toNat+d' := by omega
  have hi1 : (i*size.toNat+d)/size.toNat = i := by
    rw [Nat.mul_comm, Nat.mul_add_div (by omega), Nat.div_eq_of_lt hd, add_zero]
  have hi2 : (i'*size.toNat+d')/size.toNat = i' := by
    rw [Nat.mul_comm, Nat.mul_add_div (by omega), Nat.div_eq_of_lt hd', add_zero]
  rw [← hi1, ← hi2, hq]

/-- What is written inside one slot does not change the link of another. -/
theorem slot_load {m m' : Mem} (hsize : 8 ≤ size.toNat) (hp : ∀ n ∈ pages, n < pmmMaxPages)
    {e e' : Word} (he : IsSlot h size pages e) (he' : IsSlot h size pages e') (hne : e' ≠ e)
    (hm : ∀ x, ¬ x-e < size → m' x = m x) : load64 m' e' = load64 m e' := by
  apply load64_congr
  intro x hx
  apply hm
  intro hxe
  apply hne
  have hx' : x-e' < size := by
    rw [BitVec.lt_def] at hx ⊢
    have : (8 : Word).toNat = 8 := rfl
    omega
  exact (slot_unique hp he he' hxe hx').symm

theorem slot_ne_zero (hp : ∀ n ∈ pages, 0 < n ∧ n < pmmMaxPages) {e : Word}
    (hsize : 8 ≤ size.toNat) (he : IsSlot h size pages e) : e ≠ 0 := by
  obtain ⟨n, hn, i, hi, rfl⟩ := he
  have hsucc : (i+1)*size.toNat = i*size.toNat+size.toNat := by rw [Nat.add_mul, one_mul]
  have hv := slotAt_phys h size n i (hp n hn).2 (by omega)
  have hn' : n < 2^20 := (hp n hn).2
  have hpos := (hp n hn).1
  have hback : slotAt h size n i = physToVirt h (virtToPhys h (slotAt h size n i)) := by
    rw [physToVirt, virtToPhys]
    bv_omega
  rw [hback]
  apply physToVirt_ne_zero
  · intro hz
    rw [hz] at hv
    have : (0 : Word).toNat = 0 := rfl
    omega
  · omega

/-- There are fewer slots than a 32-bit counter can count. -/
theorem slots_length (hp : ∀ n ∈ pages, 0 < n ∧ n < pmmMaxPages) (hsize : 8 ≤ size.toNat)
    {l : List Word} (hnd : l.Nodup) (hl : ∀ e ∈ l, IsSlot h size pages e) :
    l.length < 2^32 := by
  have hinj : (l.map fun e => (virtToPhys h e).toNat).Nodup := by
    refine hnd.map fun a b hab => ?_
    have := BitVec.eq_of_toNat_eq hab
    rw [virtToPhys, virtToPhys] at this
    bv_omega
  have hsub : (l.map fun e => (virtToPhys h e).toNat) ⊆ List.range' 1 (2^32-1) := by
    intro v hv
    obtain ⟨e, he, rfl⟩ := List.mem_map.mp hv
    obtain ⟨n, hn, i, hi, rfl⟩ := hl e he
    have hsucc : (i+1)*size.toNat = i*size.toNat+size.toNat := by rw [Nat.add_mul, one_mul]
    have hv := slotAt_phys h size n i (hp n hn).2 (by omega)
    have hn' : n < 2^20 := (hp n hn).2
    have hpos := (hp n hn).1
    rw [List.mem_range'_1]
    omega
  have hlen := (List.subperm_of_subset hinj hsub).length_le
  rw [List.length_map, List.length_range'] at hlen
  omega

theorem slotAt_eq (n i : ℕ) :
    physToVirt h (frameAddr n)+BitVec.ofNat 64 i*size = slotAt h size n i := by
  have : BitVec.ofNat 64 (i*size.toNat) = BitVec.ofNat 64 i*size := by
    rw [BitVec.ofNat_mul, BitVec.ofNat_toNat, BitVec.setWidth_eq]
  rw [slotAt, this]

theorem slotAt_inj {n i j : ℕ} (hn : n < pmmMaxPages) (hsize : 8 ≤ size.toNat)
    (hi : (i+1)*size.toNat ≤ 4096) (hj : (j+1)*size.toNat ≤ 4096)
    (he : slotAt h size n i = slotAt h size n j) : i = j := by
  have h1 : (i+1)*size.toNat = i*size.toNat+size.toNat := by rw [Nat.add_mul, one_mul]
  have h2 : (j+1)*size.toNat = j*size.toNat+size.toNat := by rw [Nat.add_mul, one_mul]
  have hv := slotAt_phys h size n i hn (by omega)
  rw [he, slotAt_phys h size n j hn (by omega)] at hv
  exact Nat.eq_of_mul_eq_mul_right (by omega : 0 < size.toNat) (by omega)

end Slots

section Spec
variable {h : Hhdm} {k k' : Kmem} {pages : Set ℕ} {z z' : Zone} {free : List Word}
  {live : Set Word}

theorem ZoneOk.pages_lt (hz : ZoneOk h k pages z free live) : ∀ n ∈ pages, n < pmmMaxPages :=
  fun n hn => (hz.pages_used n hn).2.1

theorem ZoneOk.live_ne_zero (hz : ZoneOk h k pages z free live) {e : Word} (he : e ∈ live) :
    e ≠ 0 :=
  slot_ne_zero (fun n hn => ⟨(hz.pages_used n hn).1, (hz.pages_used n hn).2.1⟩) hz.size_lb
    (hz.live_slot e he)

theorem ZoneOk.pages_finite (hz : ZoneOk h k pages z free live) : pages.Finite :=
  (Set.finite_lt_nat pmmMaxPages).subset hz.pages_lt

theorem ZoneOk.ncard_le (hz : ZoneOk h k pages z free live) : pages.ncard ≤ pmmMaxPages := by
  have hsub := Set.ncard_le_ncard (show pages ⊆ (Finset.range pmmMaxPages : Set ℕ) from
    fun n hn => Finset.mem_coe.mpr (Finset.mem_range.mpr (hz.pages_lt n hn))) (Finset.finite_toSet _)
  rwa [Set.ncard_coe_finset, Finset.card_range] at hsub

theorem zoneCounts_new (z : Zone) (hcur : z.curSize = 0) (hfree : z.countFree = 0)
    (halloc : z.countAlloc = 0) : ZoneCounts ∅ z [] ∅ := by
  refine ⟨by simp [hcur], Set.finite_empty, by simp, by simpa using hfree,
    by simpa using halloc, fun _ => ?_⟩
  rw [hcur]
  exact Nat.add_pos_right _ (by decide)

theorem zoneOk_new (k : Kmem) (z : Zone) (h1 : 8 ≤ z.elemSize.toNat) (h2 : z.elemSize.toNat ≤ 4096)
    (hf : z.freeList = 0) : ZoneOk h k ∅ z [] ∅ :=
  ⟨h1, h2, by simp, hf, by simp, by simp, List.nodup_nil, by simp⟩

/-- Fewer elements are live than a 32-bit counter can count. -/
theorem ZoneOk.live_length (hz : ZoneOk h k pages z free live) {l : List Word} (hnd : l.Nodup)
    (hl : ∀ e ∈ l, e ∈ live) : l.length < 2^32 :=
  slots_length (fun n hn => ⟨(hz.pages_used n hn).1, (hz.pages_used n hn).2.1⟩) hz.size_lb hnd
    fun e he => hz.live_slot e (hl e he)

/-- The zone that `zinit` makes is empty, its element size a multiple of 8 from 8 on. -/
theorem zinit_zone {s : ZoneStore} {size max : Word} {z : ℕ} (hz : (zinit s size max).1 = some z) :
    (zinit s size max).2.zones z =
      { elemSize := ((if size < 8 then 8 else size)+(8-1)) &&& ~~~(8-1), maxSize := max,
        curSize := 0, freeList := 0, countFree := 0, countAlloc := 0 } := by
  unfold zinit at hz ⊢
  by_cases hmax : zoneMax ≤ s.zoneCount
  · simp [hmax] at hz
  · simp only [hmax, ↓reduceIte, Option.some.injEq] at hz ⊢
    rw [← hz, Function.update_self]

/-- A zone depends on its own pages only. -/
theorem ZoneOk.congr (hz : ZoneOk h k pages z free live)
    (hf : ∀ n ∈ pages, k'.pmm.Free n → k.pmm.Free n)
    (hm : ∀ x, frameOf h x ∈ pages → k'.mem x = k.mem x) : ZoneOk h k' pages z free live := by
  refine { hz with pages_used := fun n hn => ?_, chain := ?_ }
  · obtain ⟨h1, h2, h3⟩ := hz.pages_used n hn
    exact ⟨h1, h2, fun hfree => h3 (hf n hn hfree)⟩
  · refine hz.chain.congr fun e he => load64_congr _ _ _ fun x hx => hm x ?_
    refine slot_frame hz.pages_lt (hz.free_slot e he) ?_
    have h8 : (8 : Word).toNat = 8 := rfl
    have := hz.size_lb
    rw [BitVec.lt_def] at hx ⊢
    omega

/-- The free list grows by the slots of the new page. -/
theorem zoneGrowLoop_spec (h : Hhdm) (pages : Set ℕ) (n r i : ℕ) (z : Zone) (m : Mem) (free : List Word)
    (hp : ∀ n ∈ pages, n < pmmMaxPages) (hn : n ∈ pages) (hsize : 8 ≤ z.elemSize.toNat)
    (hr : (i+r)*z.elemSize.toNat ≤ 4096) (hc : FreeChain m z.freeList free)
    (hs : ∀ e ∈ free, IsSlot h z.elemSize pages e) (hnd : free.Nodup)
    (hnew : ∀ j, i ≤ j → (j+1)*z.elemSize.toNat ≤ 4096 → slotAt h z.elemSize n j ∉ free) :
    ∃ z' m' added, zoneGrowLoop (physToVirt h (frameAddr n)) r i z m = (z', m') ∧
      z'.elemSize = z.elemSize ∧ FreeChain m' z'.freeList (added ++ free) ∧
      added.length = r ∧ (added ++ free).Nodup ∧
      (∀ e ∈ added, ∃ j, (j+1)*z.elemSize.toNat ≤ 4096 ∧ e = slotAt h z.elemSize n j) ∧
      ∀ x, frameOf h x ≠ n → m' x = m x := by
  induction r generalizing i z m free with
  | zero => exact ⟨z, m, [], rfl, rfl, hc, rfl, hnd, by simp, fun _ _ => rfl⟩
  | succ r ih =>
    have hi : (i+1)*z.elemSize.toNat ≤ 4096 :=
      (Nat.mul_le_mul_right _ (by omega)).trans hr
    have hslot : IsSlot h z.elemSize pages (slotAt h z.elemSize n i) := ⟨n, hn, i, hi, rfl⟩
    have hfresh := hnew i le_rfl hi
    have hstore (x : Word) (hx : ¬ x-slotAt h z.elemSize n i < z.elemSize) :
        store64 m (slotAt h z.elemSize n i) z.freeList x = m x := by
      have hx8 : ¬ x-slotAt h z.elemSize n i < 8 := by
        have h8 : (8 : Word).toNat = 8 := rfl
        rw [BitVec.lt_def] at hx ⊢
        omega
      simp only [store64, hx8, ↓reduceIte]
    have hc' : FreeChain (store64 m (slotAt h z.elemSize n i) z.freeList)
        (slotAt h z.elemSize n i) (slotAt h z.elemSize n i :: free) := by
      refine ⟨rfl, ?_⟩
      rw [load64_store64_same]
      refine hc.congr fun e he => slot_load hsize hp hslot (hs e he) ?_ hstore
      rintro rfl
      exact hfresh he
    obtain ⟨z', m', added, he, hez, hch, hlen, hnd', hadd, hfr⟩ :=
      ih (i+1) { z with freeList := slotAt h z.elemSize n i, countFree := z.countFree+1 }
        (store64 m (slotAt h z.elemSize n i) z.freeList) (slotAt h z.elemSize n i :: free)
        hsize (by rwa [Nat.add_right_comm, Nat.add_assoc] ) hc'
        (by simpa [hslot] using hs) (List.nodup_cons.mpr ⟨hfresh, hnd⟩) (by
          intro j hj hj'
          rw [List.mem_cons, not_or]
          refine ⟨fun heq => ?_, hnew j (by omega) hj'⟩
          have := slotAt_inj (hp n hn) hsize hj' hi heq
          omega)
    refine ⟨z', m', added ++ [slotAt h z.elemSize n i], ?_, hez, ?_, by simp [hlen], ?_, ?_, ?_⟩
    · simp only [zoneGrowLoop, slotAt_eq]
      exact he
    · simpa using hch
    · simpa using hnd'
    · intro e he
      rcases List.mem_append.mp he with he | he
      · exact hadd e he
      · exact ⟨i, hi, by simpa using he⟩
    · intro x hx
      rw [hfr x hx]
      apply hstore
      intro hlt
      obtain ⟨d, hd, hv⟩ := slot_byte (hp n hn) hi x hlt
      have hsucc : (i+1)*z.elemSize.toNat = i*z.elemSize.toNat+z.elemSize.toNat := by
        rw [Nat.add_mul, one_mul]
      apply hx
      rw [frameOf, pageOf_eq, hv]
      omega

/-- The loop counts what it adds and leaves the other counters alone. -/
theorem zoneGrowLoop_counts (page : Word) (r i : ℕ) (z : Zone) (m : Mem) :
    (zoneGrowLoop page r i z m).1.countFree = z.countFree+BitVec.ofNat 32 r ∧
    (zoneGrowLoop page r i z m).1.countAlloc = z.countAlloc ∧
    (zoneGrowLoop page r i z m).1.curSize = z.curSize ∧
    (zoneGrowLoop page r i z m).1.maxSize = z.maxSize := by
  induction r generalizing i z m with
  | zero => exact ⟨(BitVec.add_zero _).symm, rfl, rfl, rfl⟩
  | succ r ih =>
    obtain ⟨h1, h2, h3, h4⟩ := ih (i+1)
      { z with freeList := page+BitVec.ofNat 64 i*z.elemSize, countFree := z.countFree+1 }
      (store64 m (page+BitVec.ofNat 64 i*z.elemSize) z.freeList)
    refine ⟨?_, h2, h3, h4⟩
    rw [zoneGrowLoop, h1, BitVec.add_assoc, BitVec.add_comm 1, BitVec.ofNat_add]
    rfl

/-- How the allocator and the memory change when a zone may have taken new pages. -/
structure Grown (h : Hhdm) (k k' : Kmem) (pages pages' : Set ℕ) : Prop where
  sub : pages ⊆ pages'
  fresh : ∀ n ∈ pages', n ∈ pages ∨ k.pmm.Free n
  free : ∀ n, k'.pmm.Free n ↔ k.pmm.Free n ∧ n ∉ pages'
  mem : ∀ x, frameOf h x ∉ pages' → k'.mem x = k.mem x

/-- A new page of elements is counted whole. -/
theorem ZoneCounts.grow (hc : ZoneCounts pages z [] live) (hz : ZoneOk h k pages z [] live)
    (hmax : ¬ (z.maxSize ≠ 0 ∧ z.maxSize ≤ z.curSize)) {n : ℕ} (hn : n ∉ pages) {added : List Word}
    (hlen : added.length = 4096/z.elemSize.toNat) (hsize : z'.elemSize = z.elemSize)
    (hfree : z'.countFree = z.countFree+BitVec.ofNat 32 (4096/z.elemSize.toNat))
    (halloc : z'.countAlloc = z.countAlloc) (hcur : z'.curSize = z.curSize+pmmPageSize)
    (hms : z'.maxSize = z.maxSize) : ZoneCounts (insert n pages) z' added live := by
  have hcard := hz.ncard_le
  have hpm : pmmMaxPages = 2^20 := rfl
  have hps : pmmPageSize.toNat = 4096 := rfl
  have hins : (insert n pages).ncard = pages.ncard+1 :=
    Set.ncard_insert_of_notMem hn hz.pages_finite
  have hcur' : z'.curSize.toNat = z.curSize.toNat+4096 := by
    have := hc.cur
    rw [hcur, BitVec.toNat_add]
    omega
  refine ⟨?_, hc.fin, ?_, ?_, halloc.trans hc.alloc, fun hne => ?_⟩
  · rw [hcur', hc.cur, hins]
    omega
  · have ht := hc.total
    rw [List.length_nil, zero_add] at ht
    rw [hlen, ht, hins, hsize, Nat.add_mul, one_mul, Nat.add_comm]
  · rw [hfree, hc.free, hlen, List.length_nil, BitVec.zero_add]
  · rw [hms] at hne ⊢
    have hlt : ¬ z.maxSize.toNat ≤ z.curSize.toNat := fun hle => hmax ⟨hne, hle⟩
    omega

/-- A zone takes a free page whole: its slots are apart from the live ones. -/
theorem ZoneOk.grow (hz : ZoneOk h k pages z [] live) {n : ℕ} (hn : 0 < n) (hfree : k.pmm.Free n)
    {pmm : Pmm} (hiff : ∀ m, pmm.Free m ↔ k.pmm.Free m ∧ m ≠ n) {m : Mem} {added : List Word}
    (hsz : z'.elemSize = z.elemSize) (hchain : FreeChain m z'.freeList added)
    (hadd : ∀ e ∈ added, ∃ j, (j+1)*z.elemSize.toNat ≤ 4096 ∧ e = slotAt h z.elemSize n j)
    (hnd : added.Nodup) : ZoneOk h ⟨pmm, m⟩ (insert n pages) z' added live := by
  have hsize := hz.size_lb
  refine ⟨hsz ▸ hz.size_lb, hsz ▸ hz.size_ub, ?_, hchain, ?_, ?_, hnd, ?_⟩
  · rintro i (rfl | hi)
    · exact ⟨hn, hfree.1, fun hf => ((hiff _).mp hf).2 rfl⟩
    · obtain ⟨h1, h2, h3⟩ := hz.pages_used i hi
      exact ⟨h1, h2, fun hf => h3 ((hiff i).mp hf).1⟩
  · intro e he
    obtain ⟨j, hj, rfl⟩ := hadd e he
    exact ⟨n, Set.mem_insert _ _, j, hsz ▸ hj, by rw [hsz]⟩
  · intro e he
    obtain ⟨i, hi, j, hj, rfl⟩ := hz.live_slot e he
    exact ⟨i, Set.mem_insert_of_mem _ hi, j, hsz ▸ hj, by rw [hsz]⟩
  · -- live slots lie in the old pages, the new ones in a page that was free
    intro e he hl
    obtain ⟨j, hj, rfl⟩ := hadd e he
    have hold := slot_frame_self hz.pages_lt (by omega) (hz.live_slot _ hl)
    rw [frameOf_slotAt hfree.1 (by omega) hj] at hold
    exact (hz.pages_used _ hold).2.2 hfree

theorem ZoneOk.grown (hz : ZoneOk h k pages z free live) {n : ℕ} (hfree : k.pmm.Free n)
    {pmm : Pmm} (hiff : ∀ m, pmm.Free m ↔ k.pmm.Free m ∧ m ≠ n) {m : Mem}
    (hm : ∀ x, frameOf h x ≠ n → m x = k.mem x) : Grown h k ⟨pmm, m⟩ pages (insert n pages) := by
  refine ⟨fun i hi => Set.mem_insert_of_mem _ hi, ?_, fun i => ?_, ?_⟩
  · rintro i (rfl | hi)
    · exact Or.inr hfree
    · exact Or.inl hi
  · rw [hiff]
    constructor
    · rintro ⟨hf, hne⟩
      refine ⟨hf, ?_⟩
      rintro (rfl | hi)
      · exact hne rfl
      · exact (hz.pages_used i hi).2.2 hf
    · rintro ⟨hf, hni⟩
      exact ⟨hf, fun heq => hni (heq ▸ Set.mem_insert _ _)⟩
  · intro x hx
    exact hm x fun heq => hx (heq ▸ Set.mem_insert _ _)

theorem zoneGrow_spec (hz : ZoneOk h k pages z [] live) (h0 : ¬ k.pmm.Free 0) {r : Int}
    (hg : zoneGrow h z k = (r, z', k')) :
    (r ≠ 0 ∧ z' = z ∧ k' = k) ∨
    r = 0 ∧ z'.elemSize = z.elemSize ∧ ∃ pages' e es, ZoneOk h k' pages' z' (e :: es) live ∧
      Grown h k k' pages pages' ∧
      (ZoneCounts pages z [] live → ZoneCounts pages' z' (e :: es) live) := by
  unfold zoneGrow at hg
  split_ifs at hg with hmax
  · cases hg
    exact Or.inl ⟨by decide, rfl, rfl⟩
  cases ha : pmmAllocPage k.pmm with
  | mk paddr pmm =>
    simp only [ha] at hg
    split_ifs at hg with hnull
    · cases hg
      have hp := pmmAllocPage_none h0 (hnull ▸ ha)
      exact Or.inl ⟨by decide, rfl, by rw [hp]⟩
    obtain ⟨hal, hfree, hiff⟩ := pmmAllocPage_some h0 ha hnull
    have hpaddr : paddr = frameAddr (pageOf paddr) := (frameAddr_pageOf paddr hal hfree.1).symm
    have hpos : 0 < pageOf paddr := by
      rcases Nat.eq_zero_or_pos (pageOf paddr) with hz0 | hpos
      · exact absurd (hz0 ▸ hfree) h0
      · exact hpos
    have hp' : ∀ n ∈ insert (pageOf paddr) pages, n < pmmMaxPages := by
      rintro n (rfl | hn)
      · exact hfree.1
      · exact hz.pages_lt n hn
    have hdiv : (pmmPageSize/z.elemSize).toNat = 4096/z.elemSize.toNat := BitVec.toNat_udiv
    have hn1 : 0 < 4096/z.elemSize.toNat := by
      have := hz.size_lb
      exact Nat.div_pos hz.size_ub (by omega)
    obtain ⟨z1, m1, added, he, hsz, hch, hlen, hnd, hadd, hfr⟩ :=
      zoneGrowLoop_spec h (insert (pageOf paddr) pages) (pageOf paddr)
        (4096/z.elemSize.toNat) 0 z k.mem [] hp' (Set.mem_insert _ _) hz.size_lb
        (by rw [zero_add]; exact Nat.div_mul_le_self _ _) hz.chain (by simp) List.nodup_nil
        (by simp)
    rw [hdiv] at hg
    rw [hpaddr, he] at hg
    cases hg
    right
    refine ⟨rfl, hsz, insert (pageOf paddr) pages, ?_⟩
    rw [List.append_nil] at hch hnd
    have hok : ZoneOk h ⟨pmm, m1⟩ (insert (pageOf paddr) pages)
        { z1 with curSize := z1.curSize+pmmPageSize } added live :=
      hz.grow hpos hfree hiff hsz hch hadd hnd
    cases added with
    | nil =>
      rw [List.length_nil] at hlen
      omega
    | cons e es =>
      obtain ⟨hc1, hc2, hc3, hc4⟩ :=
        zoneGrowLoop_counts (physToVirt h (frameAddr (pageOf paddr))) (4096/z.elemSize.toNat) 0 z k.mem
      rw [he] at hc1 hc2 hc3 hc4
      refine ⟨e, es, hok, hz.grown hfree hiff hfr, fun hc => ?_⟩
      exact hc.grow hz hmax (fun hn => (hz.pages_used _ hn).2.2 hfree) hlen hsz hc1 hc2
        (congrArg (· +pmmPageSize) hc3) hc4

theorem zallocPop_spec {e : Word} {es : List Word} (hz : ZoneOk h k pages z (e :: es) live)
    {e' : Word} (hp : zallocPop z k = (e', z', k')) :
    e' = e ∧ e ≠ 0 ∧ e ∉ live ∧ z'.elemSize = z.elemSize ∧ k'.pmm = k.pmm ∧
      ZoneOk h k' pages z' es (insert e live) ∧
      (∀ x, frameOf h x ∉ pages → k'.mem x = k.mem x) ∧
      (∀ x, x-e < z.elemSize → k'.mem x = 0) ∧
      (ZoneCounts pages z (e :: es) live → ZoneCounts pages z' es (insert e live)) := by
  have he : z.freeList = e := hz.chain.1
  have hslot := hz.free_slot e (by simp)
  have hnd := List.nodup_cons.mp hz.nodup
  have hout (x : Word) (hx : ¬ x-e < z.elemSize) :
      fill k.mem e 0 z.elemSize x = k.mem x := by
    simp only [fill, hx, ↓reduceIte]
  rw [zallocPop, he] at hp
  cases hp
  refine ⟨rfl, ?_, hz.apart e (by simp), rfl, rfl, ?_, fun x hx => hout x fun hlt => hx ?_, ?_, ?_⟩
  · exact slot_ne_zero (fun n hn => ⟨(hz.pages_used n hn).1, (hz.pages_used n hn).2.1⟩)
      hz.size_lb hslot
  · refine ⟨hz.size_lb, hz.size_ub, hz.pages_used, ?_, ?_, ?_, hnd.2, ?_⟩
    · refine hz.chain.2.congr fun e1 he1 => ?_
      refine slot_load hz.size_lb hz.pages_lt hslot (hz.free_slot e1 (by simp [he1])) ?_ hout
      rintro rfl
      exact hnd.1 he1
    · exact fun e1 he1 => hz.free_slot e1 (by simp [he1])
    · rintro e1 (rfl | he1)
      · exact hslot
      · exact hz.live_slot e1 he1
    · rintro e1 he1 (rfl | hl)
      · exact hnd.1 he1
      · exact hz.apart e1 (by simp [he1]) hl
  · exact slot_frame hz.pages_lt hslot hlt
  · intro x hx
    simp only [fill, hx, ↓reduceIte]
  · intro hc
    have hins : (insert e live).ncard = live.ncard+1 :=
      Set.ncard_insert_of_notMem (hz.apart e (by simp)) hc.fin
    have ht : es.length+(insert e live).ncard = pages.ncard*(4096/z.elemSize.toNat) := by
      have := hc.total
      rw [List.length_cons] at this
      omega
    refine ⟨hc.cur, hc.fin.insert e, ht, ?_, ?_, hc.max⟩
    · rw [hc.free, List.length_cons, BitVec.ofNat_add]
      exact BitVec.add_sub_cancel _ _
    · rw [hc.alloc, hins, BitVec.ofNat_add]
      rfl

/-- `zalloc` fails and changes nothing, or hands out an element that was not live. -/
theorem zalloc_spec (hz : ZoneOk h k pages z free live) (h0 : ¬ k.pmm.Free 0) {e : Word}
    (he : zalloc h z k = (e, z', k')) :
    (e = 0 ∧ z' = z ∧ k' = k) ∨
    (e ≠ 0 ∧ e ∉ live ∧ z'.elemSize = z.elemSize ∧ (∀ x, x-e < z.elemSize → k'.mem x = 0) ∧
      ∃ pages' free', ZoneOk h k' pages' z' free' (insert e live) ∧ Grown h k k' pages pages' ∧
        (ZoneCounts pages z free live → ZoneCounts pages' z' free' (insert e live))) := by
  unfold zalloc at he
  cases free with
  | nil =>
    have hnull : z.freeList = 0 := hz.chain
    rw [if_pos hnull] at he
    cases hg : zoneGrow h z k with
    | mk r zk =>
      obtain ⟨z1, k1⟩ := zk
      simp only [hg] at he
      rcases zoneGrow_spec hz h0 hg with
        ⟨hr, rfl, rfl⟩ | ⟨rfl, hsz, pages', e1, es, hz1, hgr, hcg⟩
      · rw [if_pos hr] at he
        cases he
        exact Or.inl ⟨rfl, rfl, rfl⟩
      · rw [if_neg (by decide)] at he
        obtain ⟨rfl, hne, hnl, hsz', hpmm, hz2, hfr, hzero, hcp⟩ := zallocPop_spec hz1 he
        refine Or.inr ⟨hne, hnl, hsz'.trans hsz, hsz ▸ hzero, pages', es, hz2,
          ⟨hgr.sub, hgr.fresh, ?_, ?_⟩, fun hc => hcp (hcg hc)⟩
        · exact fun n => by rw [hpmm]; exact hgr.free n
        · exact fun x hx => (hfr x hx).trans (hgr.mem x hx)
  | cons e1 es =>
    have hne : z.freeList ≠ 0 := by
      rw [hz.chain.1]
      exact slot_ne_zero (fun n hn => ⟨(hz.pages_used n hn).1, (hz.pages_used n hn).2.1⟩)
        hz.size_lb (hz.free_slot e1 (by simp))
    rw [if_neg hne] at he
    obtain ⟨rfl, hne, hnl, hsz, hpmm, hz2, hfr, hzero, hcp⟩ := zallocPop_spec hz he
    refine Or.inr ⟨hne, hnl, hsz, hzero, pages, es, hz2,
      ⟨subset_rfl, fun n hn => Or.inl hn, ?_, hfr⟩, hcp⟩
    intro n
    rw [hpmm]
    exact ⟨fun hf => ⟨hf, fun hn => (hz.pages_used n hn).2.2 hf⟩, And.left⟩

/-- `zfree` puts a live element at the head of the free list. -/
theorem zfree_spec (hz : ZoneOk h k pages z free live) {e : Word} (hl : e ∈ live)
    (he : zfree z e k = (z', k')) :
    z'.elemSize = z.elemSize ∧ k'.pmm = k.pmm ∧ ZoneOk h k' pages z' (e :: free) (live \ {e}) ∧
      ∀ x, frameOf h x ∉ pages → k'.mem x = k.mem x := by
  have hslot := hz.live_slot e hl
  have hnf : e ∉ free := fun hf => hz.apart e hf hl
  have hout (x : Word) (hx : ¬ x-e < z.elemSize) :
      store64 k.mem e z.freeList x = k.mem x := by
    have hx8 : ¬ x-e < 8 := by
      have h8 : (8 : Word).toNat = 8 := rfl
      have := hz.size_lb
      rw [BitVec.lt_def] at hx ⊢
      omega
    simp only [store64, hx8, ↓reduceIte]
  cases he
  refine ⟨rfl, rfl, ?_, fun x hx => hout x fun hlt => hx (slot_frame hz.pages_lt hslot hlt)⟩
  refine ⟨hz.size_lb, hz.size_ub, hz.pages_used, ⟨rfl, ?_⟩, ?_, ?_, List.nodup_cons.mpr ⟨hnf, hz.nodup⟩, ?_⟩
  · rw [load64_store64_same]
    refine hz.chain.congr fun e1 he1 => ?_
    refine slot_load hz.size_lb hz.pages_lt hslot (hz.free_slot e1 he1) ?_ hout
    rintro rfl
    exact hnf he1
  · simpa [hslot] using hz.free_slot
  · exact fun e1 he1 => hz.live_slot e1 he1.1
  · intro e1 he1 hl1
    rcases List.mem_cons.mp he1 with rfl | he1
    · exact hl1.2 rfl
    · exact hz.apart e1 he1 hl1.1

theorem ZoneCounts.zfree (hc : ZoneCounts pages z free live) {e : Word} (hl : e ∈ live)
    (he : zfree z e k = (z', k')) : ZoneCounts pages z' (e :: free) (live \ {e}) := by
  cases he
  have hcard : (live \ {e}).ncard+1 = live.ncard := Set.ncard_sdiff_singleton_add_one hl hc.fin
  have ht : (e :: free).length+(live \ {e}).ncard = pages.ncard*(4096/z.elemSize.toNat) := by
    have := hc.total
    rw [List.length_cons]
    omega
  refine ⟨hc.cur, hc.fin.subset Set.sdiff_subset, ht, ?_, ?_, hc.max⟩
  · rw [hc.free, List.length_cons, BitVec.ofNat_add]
    rfl
  · rw [hc.alloc, ← hcard, BitVec.ofNat_add]
    exact BitVec.add_sub_cancel _ _

end Spec

end Dana
