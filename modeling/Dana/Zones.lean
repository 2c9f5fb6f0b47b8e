import Dana.Transition
import Dana.Zalloc
import Mathlib.Data.Set.Pairwise.Basic

/-! Many zones over one PMM: what every run of `zinit`, `zalloc` and `zfree` keeps, with
other users of the PMM and the owners of the elements running in between. -/
namespace Dana
open ByteMem Transition

/-- The zones made so far, each with its own pages and live elements. -/
structure ZonesInv (h : Hhdm) (k : Kmem) (s : ZoneStore) (pages : ℕ → Set ℕ)
    (live : ℕ → Set Word) : Prop where
  pageZero : ¬ k.pmm.Free 0
  zone : ∀ z < s.zoneCount, ∃ free, ZoneOk h k (pages z) (s.zones z) free (live z) ∧
    ZoneCounts (pages z) (s.zones z) free (live z)
  unmade : ∀ z, s.zoneCount ≤ z → pages z = ∅ ∧ live z = ∅
  apart : ∀ z z', z ≠ z' → ∀ n ∈ pages z, n ∉ pages z'

section Inv
variable {h : Hhdm} {k k' : Kmem} {s : ZoneStore} {pages : ℕ → Set ℕ} {live : ℕ → Set Word}

theorem ZonesInv.lt_of_live (hI : ZonesInv h k s pages live) {z : ℕ} {e : Word}
    (he : e ∈ live z) : z < s.zoneCount := by
  by_contra hz
  rw [(hI.unmade z (by omega)).2] at he
  exact he

theorem ZonesInv.page_used (hI : ZonesInv h k s pages live) {z n : ℕ} (hn : n ∈ pages z) :
    0 < n ∧ n < pmmMaxPages ∧ ¬ k.pmm.Free n := by
  by_cases hz : z < s.zoneCount
  · obtain ⟨free, hok, _⟩ := hI.zone z hz
    exact hok.pages_used n hn
  · rw [(hI.unmade z (by omega)).1] at hn
    exact hn.elim

/-- Rounding up to a multiple of 8 wraps around in 64 bits. -/
theorem roundUp_toNat (v : Word) :
    ((v+7#64) &&& ~~~7#64).toNat = (v.toNat+7)%2^64/8*8 := by
  have hmask : (v+7#64) &&& ~~~7#64 = (v+7#64) >>> 3 <<< 3 := by
    apply BitVec.eq_of_getLsbD_eq
    intro i hi
    have hbit : (7#64).getLsbD i = decide (i < 3) := by
      rcases Nat.lt_or_ge i 3 with h3 | h3
      · obtain rfl | rfl | rfl : i = 0 ∨ i = 1 ∨ i = 2 := by omega
        all_goals rfl
      · rw [BitVec.getLsbD_ofNat, Nat.testBit_lt_two_pow (Nat.lt_of_lt_of_le (by decide : 7 < 2^3) (Nat.pow_le_pow_right (by decide) h3))]
        simp [h3]
    rw [BitVec.getLsbD_and, BitVec.getLsbD_not, BitVec.getLsbD_shiftLeft,
      BitVec.getLsbD_ushiftRight, hbit]
    by_cases h3 : i < 3
    · simp [h3]
    · have : 3+(i-3) = i := by omega
      simp [h3, hi, this]
  have h7 : (7#64).toNat = 7 := rfl
  rw [hmask, BitVec.toNat_shiftLeft, BitVec.toNat_ushiftRight, BitVec.toNat_add, h7,
    Nat.shiftLeft_eq, Nat.shiftRight_eq_div_pow]
  omega

/-- Rounding up to a multiple of 8 stays between 8 and a page. -/
theorem roundUp_bounds {v : Word} (hlo : 8 ≤ v.toNat) (hhi : v.toNat ≤ 4096) :
    8 ≤ ((v+7#64) &&& ~~~7#64).toNat ∧ ((v+7#64) &&& ~~~7#64).toNat ≤ 4096 := by
  rw [roundUp_toNat]
  omega

/-- The element size of a zone is at least 8 and at most a page. -/
theorem zinit_size {s : ZoneStore} {size max : Word} {z : ℕ} (hsize : size.toNat ≤ 4096)
    (hz : (zinit s size max).1 = some z) :
    8 ≤ ((zinit s size max).2.zones z).elemSize.toNat ∧
      ((zinit s size max).2.zones z).elemSize.toNat ≤ 4096 := by
  have h8 : (8 : Word).toNat = 8 := rfl
  rw [zinit_zone hz]
  apply roundUp_bounds
  all_goals
    split_ifs with hlt
    · decide
    · rw [BitVec.lt_def] at hlt
      omega

theorem ZonesInv.zinit (hI : ZonesInv h k s pages live) {size : Word} (max : Word)
    (hsize : size.toNat ≤ 4096) : ZonesInv h k (zinit s size max).2 pages live := by
  by_cases hfull : zoneMax ≤ s.zoneCount
  · rw [Dana.zinit, if_pos hfull]
    exact hI
  · have hr : (Dana.zinit s size max).1 = some s.zoneCount := by
      rw [Dana.zinit, if_neg hfull]
    have hc : (Dana.zinit s size max).2.zoneCount = s.zoneCount+1 := by
      rw [Dana.zinit, if_neg hfull]
    have hother (z : ℕ) (hz : z ≠ s.zoneCount) :
        (Dana.zinit s size max).2.zones z = s.zones z := by
      rw [Dana.zinit, if_neg hfull]
      exact Function.update_of_ne hz _ _
    have hsz := zinit_size hsize hr
    have hnew := zinit_zone hr
    obtain ⟨s', hs'⟩ : ∃ s', (Dana.zinit s size max).2 = s' := ⟨_, rfl⟩
    rw [hs'] at hc hother hsz hnew ⊢
    refine ⟨hI.pageZero, fun z hz => ?_, fun z hz => hI.unmade z (by omega), hI.apart⟩
    by_cases hzc : z = s.zoneCount
    · obtain ⟨hp, hl⟩ := hI.unmade z (by omega)
      rw [hp, hl, hzc]
      exact ⟨[], zoneOk_new k _ hsz.1 hsz.2 (by rw [hnew]),
        zoneCounts_new _ (by rw [hnew]) (by rw [hnew]) (by rw [hnew])⟩
    · rw [hother z hzc]
      exact hI.zone z (by omega)

/-- The zones depend on the memory of their pages outside their live elements only. -/
theorem ZonesInv.congr (hI : ZonesInv h k s pages live) (h0 : ¬ k'.pmm.Free 0)
    (hf : ∀ z, ∀ n ∈ pages z, k'.pmm.Free n → k.pmm.Free n)
    (hm : ∀ z, ∀ x, frameOf h x ∈ pages z → k'.mem x ≠ k.mem x →
      ∃ e ∈ live z, x-e < (s.zones z).elemSize) : ZonesInv h k' s pages live := by
  refine ⟨h0, fun z hz => ?_, hI.unmade, hI.apart⟩
  obtain ⟨free, hok, hct⟩ := hI.zone z hz
  refine ⟨free, { hok with pages_used := fun n hn => ?_, chain := ?_ }, hct⟩
  · obtain ⟨h1, h2, h3⟩ := hok.pages_used n hn
    exact ⟨h1, h2, fun hfree => h3 (hf z n hn hfree)⟩
  · -- a free element's link shares no byte with a live element
    refine hok.chain.congr fun e he => load64_congr _ _ _ fun x hx => ?_
    have hxe : x-e < (s.zones z).elemSize := by
      have h8 : (8 : Word).toNat = 8 := rfl
      have := hok.size_lb
      rw [BitVec.lt_def] at hx ⊢
      omega
    by_contra hne
    obtain ⟨e', he', hxe'⟩ := hm z x (slot_frame hok.pages_lt (hok.free_slot e he) hxe) hne
    obtain rfl := slot_unique hok.pages_lt (hok.free_slot e he) (hok.live_slot e' he') hxe hxe'
    exact hok.apart e he he'

/-- `zalloc` on one zone: the others are not touched. -/
theorem ZonesInv.zalloc (hI : ZonesInv h k s pages live) {z : ℕ} (hz : z < s.zoneCount)
    {e : Word} {zone : Zone} (ha : zalloc h (s.zones z) k = (e, zone, k')) :
    (e = 0 ∧ zone = s.zones z ∧ k' = k) ∨
    (e ≠ 0 ∧ e ∉ live z ∧ zone.elemSize = (s.zones z).elemSize ∧
      (∀ x, x-e < (s.zones z).elemSize → k'.mem x = 0) ∧
      ∃ pages', ZonesInv h k' (s.set z zone) (Function.update pages z pages')
          (Function.update live z (insert e (live z))) ∧ Grown h k k' (pages z) pages') := by
  obtain ⟨free, hok, hct⟩ := hI.zone z hz
  rcases zalloc_spec hok hI.pageZero ha with
    hfail | ⟨hne, hnl, hsize, hzero, pages', free', hok', hgr, hct'⟩
  · exact Or.inl hfail
  refine Or.inr ⟨hne, hnl, hsize, hzero, pages', ⟨?_, fun z' hz' => ?_, fun z' hz' => ?_, ?_⟩, hgr⟩
  · exact fun hf => hI.pageZero ((hgr.free 0).mp hf).1
  · by_cases heq : z' = z
    · subst heq
      rw [Function.update_self, Function.update_self, ZoneStore.set_zones]
      exact ⟨free', hok', hct' hct⟩
    · rw [Function.update_of_ne heq, Function.update_of_ne heq, ZoneStore.set_zones_of_ne _ _ heq]
      obtain ⟨free1, hok1, hct1⟩ := hI.zone z' hz'
      refine ⟨free1, hok1.congr (fun n _ hf => ((hgr.free n).mp hf).1) fun x hx => ?_, hct1⟩
      apply hgr.mem
      intro hx'
      rcases hgr.fresh _ hx' with hold | hfree
      · exact hI.apart z' z heq _ hx hold
      · exact (hok1.pages_used _ hx).2.2 hfree
  · have hne : z' ≠ z := by
      rintro rfl
      exact absurd hz (by have : s.zoneCount ≤ z' := hz'; omega)
    rw [Function.update_of_ne hne, Function.update_of_ne hne]
    exact hI.unmade z' hz'
  · have hdis (z' : ℕ) (heq : z' ≠ z) (n : ℕ) (hn : n ∈ pages z') : n ∉ pages' := by
      intro hn'
      rcases hgr.fresh n hn' with hold | hfree
      · exact hI.apart z' z heq _ hn hold
      · exact (hI.page_used hn).2.2 hfree
    intro z1 z2 hne
    by_cases h1 : z1 = z
    · have h2 : z2 ≠ z := fun h2 => hne (h1.trans h2.symm)
      rw [h1, Function.update_self, Function.update_of_ne h2]
      exact fun n hn hn' => hdis z2 h2 n hn' hn
    · rw [Function.update_of_ne h1]
      by_cases h2 : z2 = z
      · rw [h2, Function.update_self]
        exact hdis z1 h1
      · rw [Function.update_of_ne h2]
        exact hI.apart z1 z2 hne

theorem ZonesInv.zfree (hI : ZonesInv h k s pages live) {z : ℕ} {e : Word} (hl : e ∈ live z)
    {zone : Zone} (hf : zfree (s.zones z) e k = (zone, k')) :
    zone.elemSize = (s.zones z).elemSize ∧ k'.pmm = k.pmm ∧
      (∀ x, frameOf h x ∉ pages z → k'.mem x = k.mem x) ∧
      ZonesInv h k' (s.set z zone) pages (Function.update live z (live z \ {e})) := by
  have hz := hI.lt_of_live hl
  obtain ⟨free, hok, hct⟩ := hI.zone z hz
  obtain ⟨hsize, hpmm, hok', hmem⟩ := zfree_spec hok hl hf
  refine ⟨hsize, hpmm, hmem, hpmm ▸ hI.pageZero, fun z' hz' => ?_, fun z' hz' => ?_, hI.apart⟩
  · by_cases heq : z' = z
    · subst heq
      rw [Function.update_self, ZoneStore.set_zones]
      exact ⟨e :: free, hok', hct.zfree hl hf⟩
    · rw [Function.update_of_ne heq, ZoneStore.set_zones_of_ne _ _ heq]
      obtain ⟨free1, hok1, hct1⟩ := hI.zone z' hz'
      refine ⟨free1, hok1.congr (fun n _ hf => hpmm ▸ hf) fun x hx => ?_, hct1⟩
      exact hmem x (hI.apart z' z heq _ hx)
  · have hne : z' ≠ z := by
      rintro rfl
      exact absurd hz (by have : s.zoneCount ≤ z' := hz'; omega)
    rw [Function.update_of_ne hne]
    exact hI.unmade z' hz'

end Inv

/-- The zones with the memory they use. `live`, `pages` and `taken` record what calls gave
out: the elements and the PMM's pages of each zone, and the pages of other users. -/
structure ZoneWorld where
  store : ZoneStore
  kmem : Kmem
  live : ℕ → Set Word
  pages : ℕ → Set ℕ
  taken : Set ℕ

inductive ZoneOp
  | zinit (elemSize maxSize : Word)
  | zalloc (z : ℕ) (elem : Word)
  | zfree (z : ℕ) (elem : Word)
  | other

/-- One call on a zone, or one step of another user of the PMM or of the owners of live
elements, who write outside the zones' pages or into live elements. -/
inductive ZoneStep (h : Hhdm) : ZoneWorld → ZoneOp → ZoneWorld → Prop
  | zinit (w : ZoneWorld) {size : Word} (max : Word) (h1 : 1 ≤ size.toNat)
    (h2 : size.toNat ≤ 4096) :
    ZoneStep h w (.zinit size max) { w with store := (zinit w.store size max).2 }
  | zalloc (w : ZoneWorld) {z : ℕ} (hz : z < w.store.zoneCount) {e : Word} {zone : Zone}
    {k : Kmem} (ha : zalloc h (w.store.zones z) w.kmem = (e, zone, k)) :
    ZoneStep h w (.zalloc z e) { w with
      store := w.store.set z zone
      kmem := k
      live := Function.update w.live z (w.live z ∪ {x | x = e ∧ e ≠ 0})
      pages := Function.update w.pages z
        (w.pages z ∪ {n | w.kmem.pmm.Free n ∧ ¬ k.pmm.Free n}) }
  | zfree (w : ZoneWorld) {z : ℕ} {e : Word} (he : e ∈ w.live z) {zone : Zone} {k : Kmem}
    (hf : zfree (w.store.zones z) e w.kmem = (zone, k)) :
    ZoneStep h w (.zfree z e) { w with
      store := w.store.set z zone
      kmem := k
      live := Function.update w.live z (w.live z \ {e}) }
  | alloc (w : ZoneWorld) {pa : Word} {pmm : Pmm} (ha : pmmAllocPage w.kmem.pmm = (pa, pmm))
    (hpa : pa ≠ pmmNull) :
    ZoneStep h w .other { w with
      kmem := { w.kmem with pmm := pmm }
      taken := insert (pageOf pa) w.taken }
  | free (w : ZoneWorld) {pa : Word} (hpa : pageOf pa ∈ w.taken) :
    ZoneStep h w .other { w with
      kmem := { w.kmem with pmm := pmmFreePage w.kmem.pmm pa }
      taken := w.taken \ {pageOf pa} }
  | write (w : ZoneWorld) {m : Mem} (hm : ∀ z x, frameOf h x ∈ w.pages z → m x ≠ w.kmem.mem x →
      ∃ e ∈ w.live z, x-e < (w.store.zones z).elemSize) :
    ZoneStep h w .other { w with kmem := { w.kmem with mem := m } }

/-- No zone has been made, page 0 is in use, and so is every page of another user. -/
structure ZoneBoot (w : ZoneWorld) : Prop where
  none : w.store.zoneCount = 0
  live : w.live = fun _ => ∅
  pages : w.pages = fun _ => ∅
  pageZero : ¬ w.kmem.pmm.Free 0
  taken : ∀ n ∈ w.taken, ¬ w.kmem.pmm.Free n

/-- What callers of the zones rely on. -/
structure ZonesGood (h : Hhdm) (w : ZoneWorld) : Prop where
  inside : ∀ z, ∀ e ∈ w.live z, ∀ x, x-e < (w.store.zones z).elemSize → frameOf h x ∈ w.pages z
  given : ∀ z, ∀ n ∈ w.pages z, ¬ w.kmem.pmm.Free n ∧ n ∉ w.taken
  apart : ∀ z z', z ≠ z' → ∀ n ∈ w.pages z, n ∉ w.pages z'
  disjoint : ∀ z z', ∀ e ∈ w.live z, ∀ e' ∈ w.live z', z ≠ z' ∨ e ≠ e' →
    ∀ x, x-e < (w.store.zones z).elemSize → ¬ x-e' < (w.store.zones z').elemSize
  freeList : ∀ z < w.store.zoneCount, ∃ free : List Word, free.Nodup ∧
    FreeChain w.kmem.mem (w.store.zones z).freeList free ∧
    (w.store.zones z).countFree.toNat = free.length ∧ ∀ e ∈ free, ∀ z', e ∉ w.live z'
  countAlloc : ∀ z < w.store.zoneCount, (w.live z).Finite ∧
    (w.store.zones z).countAlloc.toNat = (w.live z).ncard
  total : ∀ z < w.store.zoneCount,
    (w.store.zones z).countFree.toNat+(w.store.zones z).countAlloc.toNat =
      (w.store.zones z).curSize.toNat/4096*(4096/(w.store.zones z).elemSize.toNat)
  max : ∀ z < w.store.zoneCount, (w.store.zones z).maxSize ≠ 0 →
    (w.store.zones z).curSize.toNat < (w.store.zones z).maxSize.toNat+4096

structure ZoneWorldInv (h : Hhdm) (w : ZoneWorld) : Prop where
  zones : ZonesInv h w.kmem w.store w.pages w.live
  taken : ∀ n ∈ w.taken, ¬ w.kmem.pmm.Free n ∧ ∀ z, n ∉ w.pages z

section Run
variable {h : Hhdm} {w w' : ZoneWorld}

theorem ZoneBoot.inv (hb : ZoneBoot w) : ZoneWorldInv h w := by
  refine ⟨⟨hb.pageZero, fun z hz => ?_, fun z _ => ?_, fun z z' _ => ?_⟩, fun n hn => ⟨hb.taken n hn, ?_⟩⟩
  · rw [hb.none] at hz
    omega
  · rw [hb.pages, hb.live]
    exact ⟨rfl, rfl⟩
  · rw [hb.pages]
    exact fun n _ => Set.notMem_empty n
  · intro z
    rw [hb.pages]
    exact Set.notMem_empty n

/-- The pages a zone has taken are those that were free before and are no longer. -/
theorem Grown.pages_eq {k k' : Kmem} {pages pages' : Set ℕ} (hg : Grown h k k' pages pages') :
    pages' = pages ∪ {n | k.pmm.Free n ∧ ¬ k'.pmm.Free n} := by
  ext n
  rw [Set.mem_union, Set.mem_ofPred_eq, hg.free]
  constructor
  · intro hn
    rcases hg.fresh n hn with hold | hfree
    · exact Or.inl hold
    · exact Or.inr ⟨hfree, fun hf => hf.2 hn⟩
  · rintro (hold | ⟨hfree, hn⟩)
    · exact hg.sub hold
    · by_contra hne
      exact hn ⟨hfree, hne⟩

theorem ZoneWorldInv.step (hI : ZoneWorldInv h w) {l : ZoneOp} (hs : ZoneStep h w l w') :
    ZoneWorldInv h w' := by
  have hz := hI.zones
  cases hs with
  | zinit max h1 h2 => exact ⟨hz.zinit max h2, hI.taken⟩
  | zalloc hlt ha =>
    rename_i z e zone k
    rcases hz.zalloc hlt ha with ⟨rfl, rfl, rfl⟩ | ⟨hne, _, _, _, pages', hz', hgr⟩
    · have hl : w.live z ∪ {x | x = 0 ∧ (0 : Word) ≠ 0} = w.live z := by simp
      have hp : w.pages z ∪ {n | w.kmem.pmm.Free n ∧ ¬ w.kmem.pmm.Free n} = w.pages z := by simp
      have hst : w.store.set z (w.store.zones z) = w.store := by simp [ZoneStore.set]
      rw [hl, hp, hst, Function.update_eq_self, Function.update_eq_self]
      exact hI
    · have hl : w.live z ∪ {x | x = e ∧ e ≠ 0} = insert e (w.live z) := by
        have hne' : ¬ e = 0#64 := hne
        ext x
        simp [hne']
      rw [hl, ← hgr.pages_eq]
      refine ⟨hz', fun n hn => ?_⟩
      obtain ⟨hnf, hnp⟩ := hI.taken n hn
      refine ⟨fun hf => hnf ((hgr.free n).mp hf).1, fun z' => ?_⟩
      show n ∉ Function.update w.pages z pages' z'
      by_cases heq : z' = z
      · rw [heq, Function.update_self]
        intro hn'
        rcases hgr.fresh n hn' with hold | hfree
        · exact hnp z hold
        · exact hnf hfree
      · rw [Function.update_of_ne heq]
        exact hnp z'
  | zfree he hf =>
    obtain ⟨_, hpmm, _, hz'⟩ := hz.zfree he hf
    refine ⟨hz', fun n hn => ?_⟩
    rw [hpmm]
    exact hI.taken n hn
  | alloc ha hpa =>
    obtain ⟨_, hfree, hiff⟩ := pmmAllocPage_some hz.pageZero ha hpa
    refine ⟨hz.congr ?_ (fun z n _ hf => ((hiff n).mp hf).1) fun z x _ hne => absurd rfl hne, ?_⟩
    · exact fun hf => hz.pageZero ((hiff 0).mp hf).1
    · rintro n (rfl | hn)
      · exact ⟨fun hf => ((hiff _).mp hf).2 rfl, fun z hn => (hz.page_used hn).2.2 hfree⟩
      · exact ⟨fun hf => (hI.taken n hn).1 ((hiff n).mp hf).1, (hI.taken n hn).2⟩
  | free hpa =>
    have hfree := pmmFreePage_free w.kmem.pmm
    refine ⟨hz.congr ?_ (fun z n hn hf => ?_) fun z x _ hne => absurd rfl hne, ?_⟩
    · rw [hfree]
      rintro (hf | ⟨hp, h0, _⟩)
      · exact hz.pageZero hf
      · omega
    · rcases (hfree _ n).mp hf with hf | ⟨rfl, _⟩
      · exact hf
      · exact absurd hn ((hI.taken _ hpa).2 z)
    · rintro n ⟨hn, hne⟩
      refine ⟨fun hf => ?_, (hI.taken n hn).2⟩
      rcases (hfree _ n).mp hf with hf | ⟨heq, _⟩
      · exact (hI.taken n hn).1 hf
      · exact hne heq
  | write hm => exact ⟨hz.congr hz.pageZero (fun z n _ hf => hf) hm, hI.taken⟩

theorem ZoneWorldInv.good (hI : ZoneWorldInv h w) : ZonesGood h w := by
  have hz := hI.zones
  have hin : ∀ z, ∀ e ∈ w.live z, ∀ x, x-e < (w.store.zones z).elemSize →
      frameOf h x ∈ w.pages z := by
    intro z e he x hx
    obtain ⟨free, hok, _⟩ := hz.zone z (hz.lt_of_live he)
    exact slot_frame hok.pages_lt (hok.live_slot e he) hx
  have hcount (z : ℕ) (hlt : z < w.store.zoneCount) : ∃ free,
      ZoneOk h w.kmem (w.pages z) (w.store.zones z) free (w.live z) ∧
      ZoneCounts (w.pages z) (w.store.zones z) free (w.live z) ∧
      (w.store.zones z).countFree.toNat = free.length ∧
      (w.store.zones z).countAlloc.toNat = (w.live z).ncard := by
    obtain ⟨free, hok, hct⟩ := hz.zone z hlt
    have hle : free.length+(w.live z).ncard ≤ 2^20*512 := by
      rw [hct.total]
      refine Nat.mul_le_mul hok.ncard_le ?_
      exact (Nat.div_le_div_left hok.size_lb (by decide)).trans (by decide)
    refine ⟨free, hok, hct, ?_, ?_⟩
    · rw [hct.free, BitVec.toNat_ofNat]
      omega
    · rw [hct.alloc, BitVec.toNat_ofNat]
      omega
  refine ⟨hin, fun z n hn => ⟨(hz.page_used hn).2.2, fun ht => (hI.taken n ht).2 z hn⟩, hz.apart,
    ?_, fun z hlt => ?_, fun z hlt => ?_, fun z hlt => ?_, fun z hlt => ?_⟩
  · intro z z' e he e' he' hne x hx hx'
    by_cases heq : z = z'
    · subst heq
      obtain ⟨free, hok, _⟩ := hz.zone z (hz.lt_of_live he)
      rcases hne with hne | hne
      · exact hne rfl
      · exact hne (slot_unique hok.pages_lt (hok.live_slot e he) (hok.live_slot e' he') hx hx')
    · exact hz.apart z z' heq _ (hin z e he x hx) (hin z' e' he' x hx')
  · obtain ⟨free, hok, _, hf, _⟩ := hcount z hlt
    refine ⟨free, hok.nodup, hok.chain, hf, fun e he z' hl => ?_⟩
    by_cases heq : z' = z
    · exact hok.apart e he (heq ▸ hl)
    · have h0 : e-e < (w.store.zones z').elemSize := by
        obtain ⟨free', hok', _⟩ := hz.zone z' (hz.lt_of_live hl)
        have := hok'.size_lb
        rw [BitVec.sub_self, BitVec.lt_def]
        exact Nat.lt_of_lt_of_le (by decide) this
      refine hz.apart z' z heq _ (hin z' e hl e h0) ?_
      exact slot_frame_self hok.pages_lt (by have := hok.size_lb; omega) (hok.free_slot e he)
  · obtain ⟨free, _, hct, _, ha⟩ := hcount z hlt
    exact ⟨hct.fin, ha⟩
  · obtain ⟨free, _, hct, hf, ha⟩ := hcount z hlt
    rw [hf, ha, hct.total, hct.cur, Nat.mul_div_cancel_left _ (by decide)]
  · obtain ⟨free, _, hct, _⟩ := hcount z hlt
    exact hct.max

/-- In every run of the zones what their callers rely on holds, and each element is
zero-filled at the moment it is handed out. -/
theorem zone_run (h : Hhdm) (w₀ w : ZoneWorld) (ops : List ZoneOp) (hb : ZoneBoot w₀)
    (hr : Run (ZoneStep h) w₀ ops w) :
    ZonesGood h w ∧ ∀ z e w', ZoneStep h w (.zalloc z e) w' → e ≠ 0 → e ∈ w'.live z ∧
      ∀ x, x-e < (w'.store.zones z).elemSize → w'.kmem.mem x = 0 := by
  have hI : ZoneWorldInv h w := hr.inv (fun _ _ _ hs hI => hI.step hs) hb.inv
  refine ⟨hI.good, fun z e w' hs hne => ?_⟩
  cases hs with
  | zalloc hz ha =>
    rcases hI.zones.zalloc hz ha with ⟨he, _⟩ | ⟨_, _, hsize, hzero, _⟩
    · exact absurd he hne
    · refine ⟨?_, fun x hx => hzero x ?_⟩
      · show e ∈ Function.update w.live z _ z
        rw [Function.update_self]
        exact Or.inr ⟨rfl, hne⟩
      · rwa [ZoneStore.set_zones, hsize] at hx

end Run

def zoneBoot : ZoneWorld where
  store := ⟨fun _ => ⟨0, 0, 0, 0, 0, 0⟩, 0⟩
  kmem := ⟨pmmBoot, fun _ => 0⟩
  live := fun _ => ∅
  pages := fun _ => ∅
  taken := ∅

/-- A zone of pages hands out page 1 and takes it back. -/
theorem zone_run_reuse : ∃ w, Run (ZoneStep higherHalf) zoneBoot
    [.zinit 4096 0, .zalloc 0 0xffff800000001000, .zfree 0 0xffff800000001000] w ∧
      ZonesGood higherHalf w := by
  have hb : ZoneBoot zoneBoot := ⟨rfl, rfl, rfl, by decide, fun n hn => hn.elim⟩
  obtain ⟨w1, hw1⟩ : ∃ w1, w1 = { zoneBoot with store := (zinit zoneBoot.store 4096 0).2 } := ⟨_, rfl⟩
  have hs1 : ZoneStep higherHalf zoneBoot (.zinit 4096 0) w1 := by
    rw [hw1]
    exact .zinit zoneBoot 0 (by decide) (by decide)
  have he : (zalloc higherHalf (w1.store.zones 0) w1.kmem).1 = 0xffff800000001000 := by
    rw [hw1]
    decide +kernel
  have hlt : 0 < w1.store.zoneCount := by
    rw [hw1]
    decide
  obtain ⟨e, zone, k, ha⟩ : ∃ e zone k,
    zalloc higherHalf (w1.store.zones 0) w1.kmem = (e, zone, k) := ⟨_, _, _, rfl⟩
  rw [ha] at he
  obtain rfl : e = 0xffff800000001000 := he
  have hr2 := (Run.start.snoc hs1).snoc (ZoneStep.zalloc w1 hlt ha)
  have hlive := (zone_run higherHalf zoneBoot w1 _ hb (Run.start.snoc hs1)).2 0 _ _
    (ZoneStep.zalloc w1 hlt ha) (by decide)
  have hr3 := hr2.snoc (ZoneStep.zfree _ hlive.1 rfl)
  exact ⟨_, hr3, (zone_run higherHalf zoneBoot _ _ hb hr3).1⟩

end Dana
