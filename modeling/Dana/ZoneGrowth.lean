import Dana.Ipc
import Dana.PagesLeft

/-! Zones of elements of any size: `zone_grow` succeeds with a page that is too small for an
element, and leaves the free list empty. -/
namespace Dana
open ByteMem Transition

/-- A call of `zalloc` on a zone that was made for elements of `size` makes progress: `zone_grow`
does not divide by 0 and fills the free list, and the element is in pages of the zone. -/
structure ZoneProgress (h : Hhdm) (z : Zone) (k : Kmem) (pages : Set ℕ) (size : Word) : Prop where
  divides : z.freeList = 0 → (zoneGrow h z k).1 = 0 → z.elemSize ≠ 0
  grows : z.freeList = 0 → (zoneGrow h z k).1 = 0 → (zoneGrow h z k).2.1.freeList ≠ 0
  element : (zalloc h z k).1 = 0 ∨ ∀ x, x-(zalloc h z k).1 < size →
    frameOf h x ∈ pages ∪ {n | k.pmm.Free n ∧ ¬ (zalloc h z k).2.2.pmm.Free n}

/-- `zalloc` comes back: it does not divide by 0, and does not follow a null pointer. -/
def ZallocReturns (h : Hhdm) (z : Zone) (k : Kmem) : Prop :=
  z.freeList ≠ 0 ∨ (zoneGrow h z k).1 ≠ 0 ∨
    z.elemSize ≠ 0 ∧ (zoneGrow h z k).2.1.freeList ≠ 0

/-- A zone of elements that do not fit in a page, as if it had been made for small ones. -/
def tameZone (size : Word) (z : Zone) : Zone :=
  if size.toNat ≤ 4096 then z else { z with elemSize := 8 }

/-- The zones, with the `elem_size` that each was made with. -/
structure SizedZones where
  world : ZoneWorld
  size : ℕ → Word

namespace SizedZones

def zinit (s : SizedZones) (size max : Word) : SizedZones where
  world := { s.world with store := (Dana.zinit s.world.store size max).2 }
  size := ((Dana.zinit s.world.store size max).1.map fun z => Function.update s.size z size).getD s.size

/-- The zone holds elements that fit in a page. -/
def Small (s : SizedZones) (z : ℕ) : Prop := (s.size z).toNat ≤ 4096

instance (s : SizedZones) (z : ℕ) : Decidable (s.Small z) := inferInstanceAs (Decidable (_ ≤ _))

/-- The same zones, with those of large elements made for small ones: these stay empty. -/
def tame (s : SizedZones) : ZoneWorld :=
  { s.world with
    store := { s.world.store with
      zones := fun z => tameZone (s.size z) (s.world.store.zones z) } }

end SizedZones

/-- One call on a zone made with any size, up to the first that does not come back, or one step of
another user of the PMM or of the owners of live elements. -/
inductive SizedStep (h : Hhdm) : SizedZones → ZoneOp → SizedZones → Prop
  | zinit (s : SizedZones) (size max : Word) : SizedStep h s (.zinit size max) (s.zinit size max)
  | zalloc (s : SizedZones) {z : ℕ} {e : Word} {w : ZoneWorld}
    (hs : ZoneStep h s.world (.zalloc z e) w)
    (hr : ZallocReturns h (s.world.store.zones z) s.world.kmem) :
    SizedStep h s (.zalloc z e) { s with world := w }
  | zfree (s : SizedZones) {z : ℕ} {e : Word} {w : ZoneWorld}
    (hs : ZoneStep h s.world (.zfree z e) w) : SizedStep h s (.zfree z e) { s with world := w }
  | other (s : SizedZones) {w : ZoneWorld} (hs : ZoneStep h s.world .other w) :
    SizedStep h s .other { s with world := w }

/-- The zones of small elements are as if they were alone, and the others are empty. -/
structure SizedInv (h : Hhdm) (s : SizedZones) : Prop where
  tame : ZoneWorldInv h s.tame
  small : ∀ z < s.world.store.zoneCount, s.Small z →
    (s.size z).toNat ≤ (s.world.store.zones z).elemSize.toNat
  large : ∀ z < s.world.store.zoneCount, ¬ s.Small z → (s.world.store.zones z).freeList = 0 ∧
    (s.world.store.zones z).curSize = 0 ∧ s.world.pages z = ∅ ∧ s.world.live z = ∅ ∧
    ¬ (0 < (s.world.store.zones z).elemSize ∧ (s.world.store.zones z).elemSize ≤ pmmPageSize)

section Grow
variable {h : Hhdm} {k k' : Kmem} {z z' : Zone} {pages : Set ℕ} {free : List Word} {live : Set Word}
  {size : Word}

/-- An element size up to a page is rounded to one that has room for it. -/
theorem zinit_room (hsize : size.toNat ≤ 4096) :
    size.toNat ≤ (((if size < 8 then 8 else size)+(8-1)) &&& ~~~(8-1)).toNat := by
  have hround := roundUp_toNat (if size < 8 then 8 else size)
  have h8 : (8 : Word).toNat = 8 := rfl
  change (((if size < 8 then 8 else size)+(8-1)) &&& ~~~(8-1)).toNat = _ at hround
  rw [hround]
  split_ifs with hlt
  · rw [BitVec.lt_def] at hlt
    omega
  · omega

/-- A larger one is rounded to more than a page, or wraps around to 0. -/
theorem zinit_large (hsize : ¬ size.toNat ≤ 4096) :
    ¬ (0 < (((if size < 8 then 8 else size)+(8-1)) &&& ~~~(8-1)) ∧
      (((if size < 8 then 8 else size)+(8-1)) &&& ~~~(8-1)) ≤ pmmPageSize) := by
  have hround := roundUp_toNat (if size < 8 then 8 else size)
  have h8 : (8 : Word).toNat = 8 := rfl
  have hpage : pmmPageSize.toNat = 4096 := rfl
  have hzero : (0 : Word).toNat = 0 := rfl
  change (((if size < 8 then 8 else size)+(8-1)) &&& ~~~(8-1)).toNat = _ at hround
  rw [BitVec.lt_def, BitVec.le_def, hround, hpage, hzero]
  split_ifs with hlt
  · rw [BitVec.lt_def] at hlt
    omega
  · have := size.isLt
    omega

/-- `zone_grow` fails and changes nothing, or takes a page. -/
theorem zoneGrow_cases (h : Hhdm) (z : Zone) (h0 : ¬ k.pmm.Free 0) :
    ((z.maxSize ≠ 0 ∧ z.maxSize ≤ z.curSize ∨ ∀ n, ¬ k.pmm.Free n) ∧ zoneGrow h z k = (-1, z, k)) ∨
    ¬ (z.maxSize ≠ 0 ∧ z.maxSize ≤ z.curSize) ∧ (∃ n, k.pmm.Free n) ∧ (zoneGrow h z k).1 = 0 ∧
      (z.freeList = 0 → ((zoneGrow h z k).2.1.freeList ≠ 0 ↔
        0 < z.elemSize ∧ z.elemSize ≤ pmmPageSize)) := by
  unfold zoneGrow
  by_cases hmax : z.maxSize ≠ 0 ∧ z.maxSize ≤ z.curSize
  · rw [if_pos hmax]
    exact Or.inl ⟨Or.inl hmax, rfl⟩
  rw [if_neg hmax]
  rcases pmmAllocPage_spec k.pmm with ⟨n, hfree, _, _⟩ | ⟨hnone, he⟩
  · have hne : (pmmAllocPage k.pmm).1 ≠ pmmNull := by
      rcases pmmAllocPage_cases k.pmm h0 with ⟨hne, _⟩ | ⟨_, hnone, _⟩
      · exact hne
      · exact absurd hfree (hnone n)
    obtain ⟨hpos, hlt⟩ := pmmAllocPage_range hne
    refine Or.inr ⟨hmax, ⟨n, hfree⟩, ?_⟩
    dsimp only
    rw [if_neg hne]
    have hsome := zoneGrowLoop_some (h := h) hpos hlt z k.mem
    exact ⟨rfl, hsome⟩
  · rw [he]
    exact Or.inl ⟨Or.inr hnone, rfl⟩

/-- A zone of small elements makes progress. -/
theorem ZoneOk.progress (hz : ZoneOk h k pages z free live) (h0 : ¬ k.pmm.Free 0)
    (hsize : size.toNat ≤ z.elemSize.toNat) : ZoneProgress h z k pages size := by
  have hlb := hz.size_lb
  have hub := hz.size_ub
  have hfit : 0 < z.elemSize ∧ z.elemSize ≤ pmmPageSize := by
    have hpage : pmmPageSize.toNat = 4096 := rfl
    have hzero : (0 : Word).toNat = 0 := rfl
    rw [BitVec.lt_def, BitVec.le_def, hpage, hzero]
    omega
  refine ⟨fun _ _ hc => ?_, fun hnull hr => ?_, ?_⟩
  · rw [hc] at hlb
    exact absurd hlb (by decide)
  · rcases zoneGrow_cases h z h0 with ⟨_, hg⟩ | ⟨_, _, _, hgrows⟩
    · have hr' : (-1 : Int) = 0 := (congrArg Prod.fst hg).symm.trans hr
      exact absurd hr' (by decide)
    · exact (hgrows hnull).mpr hfit
  · obtain ⟨e, zone, k', ha⟩ : ∃ e zone k', zalloc h z k = (e, zone, k') := ⟨_, _, _, rfl⟩
    rw [ha]
    rcases zalloc_spec hz h0 ha with ⟨he, _⟩ | ⟨_, _, hsz, _, pages', free', hok, hgr, _⟩
    · exact Or.inl he
    · refine Or.inr fun x hx => ?_
      rw [← hgr.pages_eq]
      refine slot_frame hok.pages_lt (hok.live_slot e (Set.mem_insert _ _)) ?_
      rw [hsz]
      change x-e < size at hx
      rw [BitVec.lt_def] at hx ⊢
      omega

/-- A zone of large elements takes a page and has no element, if there is a page. -/
theorem zoneGrow_large (h0 : ¬ k.pmm.Free 0) (hfree : z.freeList = 0) (hcur : z.curSize = 0)
    (hlarge : ¬ (0 < z.elemSize ∧ z.elemSize ≤ pmmPageSize)) :
    ((∀ n, ¬ k.pmm.Free n) ∧ zoneGrow h z k = (-1, z, k)) ∨
      (∃ n, k.pmm.Free n) ∧ (zoneGrow h z k).1 = 0 ∧ (zoneGrow h z k).2.1.freeList = 0 := by
  rcases zoneGrow_cases h z h0 with ⟨hmax | hnone, hg⟩ | ⟨_, hn, hr, hgrows⟩
  · rw [hcur] at hmax
    exact absurd (BitVec.le_zero_iff.mp hmax.2) hmax.1
  · exact Or.inl ⟨hnone, hg⟩
  · exact Or.inr ⟨hn, hr, not_not.mp fun hne => hlarge ((hgrows hfree).mp hne)⟩

end Grow

section Sized
variable {h : Hhdm} {s s' : SizedZones} {z : ℕ} {zone : Zone} {l : ZoneOp}

theorem SizedZones.tame_small (hz : s.Small z) : s.tame.store.zones z = s.world.store.zones z :=
  if_pos hz

/-- A change of a zone of small elements is one of the tame zones. -/
theorem SizedZones.tame_set (hz : s.Small z) (w : ZoneWorld)
    (hw : w.store = s.world.store.set z zone) :
    ({ s with world := w } : SizedZones).tame = { w with store := s.tame.store.set z zone } := by
  have hzones : ({ s with world := w } : SizedZones).tame.store = s.tame.store.set z zone := by
    rw [tame, hw]
    refine congrArg (fun f => (⟨f, s.world.store.zoneCount⟩ : ZoneStore)) (funext fun z' => ?_)
    change tameZone (s.size z') ((s.world.store.set z zone).zones z') =
      (s.tame.store.set z zone).zones z'
    by_cases heq : z' = z
    · subst heq
      rw [ZoneStore.set_zones, ZoneStore.set_zones]
      exact if_pos hz
    · rw [ZoneStore.set_zones_of_ne _ _ heq, ZoneStore.set_zones_of_ne _ _ heq]
      rfl
  rw [← hzones]
  rfl

theorem SizedZones.zinit_full (hfull : zoneMax ≤ s.world.store.zoneCount) (size max : Word) :
    s.zinit size max = s := by
  rw [SizedZones.zinit, Dana.zinit, if_pos hfull]
  rfl

theorem SizedZones.zinit_next (hfull : ¬ zoneMax ≤ s.world.store.zoneCount) (size max : Word) :
    s.zinit size max = ⟨{ s.world with store := (Dana.zinit s.world.store size max).2 },
      Function.update s.size s.world.store.zoneCount size⟩ := by
  rw [SizedZones.zinit, Dana.zinit, if_neg hfull]
  rfl

/-- `zinit` of large elements is, of the tame zones, one of small elements. -/
theorem SizedZones.tame_zinit (s : SizedZones) (size max : Word) :
    (s.zinit size max).tame = { s.tame with
      store := (Dana.zinit s.tame.store (if size.toNat ≤ 4096 then size else 8) max).2 } := by
  by_cases hfull : zoneMax ≤ s.world.store.zoneCount
  · have hfull' : zoneMax ≤ s.tame.store.zoneCount := hfull
    rw [SizedZones.zinit_full hfull, Dana.zinit, if_pos hfull']
  have hfull' : ¬ zoneMax ≤ s.tame.store.zoneCount := hfull
  rw [SizedZones.zinit_next hfull, SizedZones.tame]
  dsimp only
  rw [Dana.zinit, if_neg hfull, Dana.zinit, if_neg hfull']
  refine congrArg (fun f => ({ s.world with store := ⟨f, s.world.store.zoneCount+1⟩ } : ZoneWorld))
    (funext fun z => ?_)
  change tameZone (Function.update s.size s.world.store.zoneCount size z)
    (Function.update s.world.store.zones s.world.store.zoneCount _ z) =
      Function.update s.tame.store.zones s.world.store.zoneCount _ z
  by_cases heq : z = s.world.store.zoneCount
  · rw [heq, Function.update_self, Function.update_self, Function.update_self, tameZone]
    by_cases hle : size.toNat ≤ 4096
    · rw [if_pos hle, if_pos hle]
    · rw [if_neg hle, if_neg hle]
      rfl
  · rw [Function.update_of_ne heq, Function.update_of_ne heq, Function.update_of_ne heq]
    rfl

theorem SizedInv.boot (hb : ZoneBoot s.world) : SizedInv h s := by
  have hnone {z : ℕ} (hz : z < s.world.store.zoneCount) : False := by
    rw [hb.none] at hz
    omega
  exact ⟨ZoneBoot.inv ⟨hb.none, hb.live, hb.pages, hb.pageZero, hb.taken⟩,
    fun z hz => (hnone hz).elim, fun z hz => (hnone hz).elim⟩

theorem SizedInv.zinit (hI : SizedInv h s) (size max : Word) : SizedInv h (s.zinit size max) := by
  have hsize : (if size.toNat ≤ 4096 then size else 8).toNat ≤ 4096 := by
    split_ifs with hle
    · exact hle
    · decide
  have htame : ZoneWorldInv h (s.zinit size max).tame := by
    rw [s.tame_zinit size max]
    exact ⟨hI.tame.zones.zinit max hsize, hI.tame.taken⟩
  by_cases hfull : zoneMax ≤ s.world.store.zoneCount
  · rw [SizedZones.zinit_full hfull]
    exact hI
  have hr : (Dana.zinit s.world.store size max).1 = some s.world.store.zoneCount := by
    rw [Dana.zinit, if_neg hfull]
  have hcount : (s.zinit size max).world.store.zoneCount = s.world.store.zoneCount+1 := by
    rw [SizedZones.zinit, Dana.zinit, if_neg hfull]
  have hnew := zinit_zone hr
  have hsz : (s.zinit size max).size = Function.update s.size s.world.store.zoneCount size := by
    rw [SizedZones.zinit_next hfull]
  have hold (z : ℕ) (hz : z ≠ s.world.store.zoneCount) :
      (s.zinit size max).world.store.zones z = s.world.store.zones z ∧
        ((s.zinit size max).Small z ↔ s.Small z) ∧ (s.zinit size max).size z = s.size z := by
    have hsame : (s.zinit size max).size z = s.size z := by
      rw [hsz, Function.update_of_ne hz]
    refine ⟨?_, ?_, hsame⟩
    · rw [SizedZones.zinit, Dana.zinit, if_neg hfull]
      exact Function.update_of_ne hz _ _
    · rw [SizedZones.Small, SizedZones.Small, hsame]
  have hself : (s.zinit size max).size s.world.store.zoneCount = size := by
    rw [hsz, Function.update_self]
  refine ⟨htame, fun z hz hsmall => ?_, fun z hz hlarge => ?_⟩
  · by_cases heq : z = s.world.store.zoneCount
    · rw [SizedZones.Small, heq, hself] at hsmall
      rw [heq, hself]
      change _ ≤ ((Dana.zinit s.world.store size max).2.zones s.world.store.zoneCount).elemSize.toNat
      rw [hnew]
      exact zinit_room hsmall
    · obtain ⟨hzone, hiff, hsame⟩ := hold z heq
      rw [hzone, hsame]
      exact hI.small z (by omega) (hiff.mp hsmall)
  · by_cases heq : z = s.world.store.zoneCount
    · rw [SizedZones.Small, heq, hself] at hlarge
      obtain ⟨hp, hl⟩ := hI.tame.zones.unmade z heq.ge
      refine ⟨?_, ?_, hp, hl, ?_⟩ <;> rw [heq]
      · exact congrArg Zone.freeList hnew
      · exact congrArg Zone.curSize hnew
      · change ¬ (0 < ((Dana.zinit s.world.store size max).2.zones s.world.store.zoneCount).elemSize ∧
          ((Dana.zinit s.world.store size max).2.zones s.world.store.zoneCount).elemSize ≤ pmmPageSize)
        rw [hnew]
        exact zinit_large hlarge
    · obtain ⟨hzone, hiff, _⟩ := hold z heq
      rw [hzone]
      exact hI.large z (by omega) fun hc => hlarge (hiff.mpr hc)

/-- A call on a zone of small elements is a call on the tame zones. -/
theorem SizedInv.set (hI : SizedInv h s) (hz : s.Small z) {w : ZoneWorld}
    (hw : w.store = s.world.store.set z zone) (hsize : zone.elemSize = (s.world.store.zones z).elemSize)
    (hlive : ∀ z', z' ≠ z → w.live z' = s.world.live z')
    (hpages : ∀ z', z' ≠ z → w.pages z' = s.world.pages z')
    (hs : ZoneStep h s.tame l { w with store := s.tame.store.set z zone }) :
    SizedInv h { s with world := w } := by
  have htame := hI.tame.step hs
  rw [← SizedZones.tame_set hz w hw] at htame
  refine ⟨htame, fun z' hz' hsmall => ?_, fun z' hz' hlarge => ?_⟩
  · change (s.size z').toNat ≤ (w.store.zones z').elemSize.toNat
    change z' < w.store.zoneCount at hz'
    rw [hw] at hz' ⊢
    by_cases heq : z' = z
    · rw [heq, ZoneStore.set_zones, hsize]
      exact hI.small z (heq ▸ hz') (heq ▸ hsmall)
    · rw [ZoneStore.set_zones_of_ne _ _ heq]
      exact hI.small z' hz' hsmall
  · have hne : z' ≠ z := fun heq => hlarge (heq ▸ hz)
    change z' < w.store.zoneCount at hz'
    have hold : w.store.zones z' = s.world.store.zones z' := by
      rw [hw, ZoneStore.set_zones_of_ne _ _ hne]
    rw [hw] at hz'
    change (w.store.zones z').freeList = 0 ∧ (w.store.zones z').curSize = 0 ∧ w.pages z' = ∅ ∧
      w.live z' = ∅ ∧ _
    rw [hlive z' hne, hpages z' hne, hold]
    exact hI.large z' hz' hlarge

/-- Steps that are not calls on a zone leave the zones as they are. -/
theorem SizedInv.world (hI : SizedInv h s) {w : ZoneWorld} (hstore : w.store = s.world.store)
    (hlive : w.live = s.world.live) (hpages : w.pages = s.world.pages)
    (hs : ZoneStep h s.tame l { w with store := s.tame.store }) : SizedInv h { s with world := w } := by
  have htame : ({ s with world := w } : SizedZones).tame = { w with store := s.tame.store } := by
    rw [SizedZones.tame, SizedZones.tame]
    dsimp only
    rw [hstore]
  refine ⟨htame ▸ hI.tame.step hs, fun z hz => ?_, fun z hz => ?_⟩
  · dsimp only at hz ⊢
    rw [hstore] at hz ⊢
    exact hI.small z hz
  · dsimp only at hz ⊢
    rw [hstore] at hz
    rw [hstore, hlive, hpages]
    exact hI.large z hz

/-- `zalloc` on a zone of large elements comes back only if there is no page: it fails. -/
theorem SizedInv.zalloc_large (hI : SizedInv h s) (hz : z < s.world.store.zoneCount)
    (hlarge : ¬ s.Small z) (hr : ZallocReturns h (s.world.store.zones z) s.world.kmem) :
    zalloc h (s.world.store.zones z) s.world.kmem = (0, s.world.store.zones z, s.world.kmem) := by
  obtain ⟨hfree, hcur, _, _, hfit⟩ := hI.large z hz hlarge
  rcases zoneGrow_large (h := h) hI.tame.zones.pageZero hfree hcur hfit with ⟨_, hg⟩ | ⟨_, hgr, hnull⟩
  · have hg' : zoneGrow h (s.world.store.zones z) s.world.kmem = (-1, s.world.store.zones z,
        s.world.kmem) := hg
    rw [zalloc, if_pos hfree, hg']
    rfl
  · rcases hr with hne | hne | ⟨_, hne⟩
    · exact absurd hfree hne
    · exact absurd hgr hne
    · exact absurd hnull hne

theorem SizedInv.step (hI : SizedInv h s) (hs : SizedStep h s l s') : SizedInv h s' := by
  cases hs with
  | zinit size max => exact hI.zinit size max
  | @zalloc z e w hs hr =>
    cases hs with
    | @zalloc _ hz _ zone k ha =>
      by_cases hsmall : s.Small z
      · have ha' : zalloc h (s.tame.store.zones z) s.tame.kmem = (e, zone, k) := by
          rw [SizedZones.tame_small hsmall]
          exact ha
        have hsize : zone.elemSize = (s.world.store.zones z).elemSize := by
          rw [← SizedZones.tame_small hsmall]
          rcases hI.tame.zones.zalloc hz ha' with ⟨_, hzone, _⟩ | ⟨_, _, hsize, _⟩
          · rw [hzone]
          · exact hsize
        refine hI.set hsmall rfl hsize (fun z' hne => Function.update_of_ne hne _ _)
          (fun z' hne => Function.update_of_ne hne _ _) (ZoneStep.zalloc s.tame hz ha')
      · -- it has failed, and nothing has changed
        rw [hI.zalloc_large hz hsmall hr] at ha
        obtain ⟨rfl, hrest⟩ := Prod.mk.inj ha
        obtain ⟨rfl, rfl⟩ := Prod.mk.inj hrest
        have hsame : s.world.store.set z (s.world.store.zones z) = s.world.store := by
          simp [ZoneStore.set]
        have hl : s.world.live z ∪ {x | x = 0 ∧ (0 : Word) ≠ 0} = s.world.live z := by simp
        have hp : s.world.pages z ∪ {n | s.world.kmem.pmm.Free n ∧ ¬ s.world.kmem.pmm.Free n} =
            s.world.pages z := by simp
        rw [hsame, hl, hp, Function.update_eq_self, Function.update_eq_self]
        exact hI
  | @zfree z e w hs =>
    cases hs with
    | @zfree _ _ he zone k hf =>
      have hz : z < s.world.store.zoneCount := hI.tame.zones.lt_of_live he
      have hsmall : s.Small z := by
        by_contra hlarge
        rw [(hI.large z hz hlarge).2.2.2.1] at he
        exact he
      have hf' : zfree (s.tame.store.zones z) e s.tame.kmem = (zone, k) := by
        rw [SizedZones.tame_small hsmall]
        exact hf
      have hsize : zone.elemSize = (s.world.store.zones z).elemSize := by
        rw [← (Prod.mk.inj hf).1]
      exact hI.set hsmall rfl hsize (fun z' hne => Function.update_of_ne hne _ _) (fun _ _ => rfl)
        (ZoneStep.zfree s.tame he hf')
  | other hs =>
    cases hs with
    | alloc ha hpa => exact hI.world rfl rfl rfl (ZoneStep.alloc s.tame ha hpa)
    | free hpa => exact hI.world rfl rfl rfl (ZoneStep.free s.tame hpa)
    | @write m hm =>
      refine hI.world rfl rfl rfl (ZoneStep.write s.tame fun z x hx hne => ?_)
      by_cases hsmall : s.Small z
      · rw [SizedZones.tame_small hsmall]
        exact hm z x hx hne
      · have hnone : s.world.pages z = ∅ := by
          by_cases hz : z < s.world.store.zoneCount
          · exact (hI.large z hz hsmall).2.2.1
          · exact (hI.tame.zones.unmade z (Nat.le_of_not_lt hz)).1
        change frameOf h x ∈ s.world.pages z at hx
        rw [hnone] at hx
        exact hx.elim

/-- A zone makes progress if its elements fit in a page, or there is no page to take. -/
theorem SizedInv.progress (hI : SizedInv h s) (hz : z < s.world.store.zoneCount) :
    ZoneProgress h (s.world.store.zones z) s.world.kmem (s.world.pages z) (s.size z) ↔
      (s.size z).toNat ≤ 4096 ∨ ∀ n, ¬ s.world.kmem.pmm.Free n := by
  have h0 : ¬ s.world.kmem.pmm.Free 0 := hI.tame.zones.pageZero
  by_cases hsmall : s.Small z
  · obtain ⟨free, hok, _⟩ := hI.tame.zones.zone z hz
    rw [SizedZones.tame_small hsmall] at hok
    exact iff_of_true (hok.progress h0 (hI.small z hz hsmall)) (Or.inl hsmall)
  obtain ⟨hfree, hcur, _, _, hfit⟩ := hI.large z hz hsmall
  rcases zoneGrow_large (h := h) h0 hfree hcur hfit with ⟨hnone, hg⟩ | ⟨hn, hgr, hnull⟩
  · have hr : (zoneGrow h (s.world.store.zones z) s.world.kmem).1 ≠ 0 := by
      rw [hg]
      show (-1 : Int) ≠ 0
      decide
    refine iff_of_true ⟨fun _ hc => absurd hc hr, fun _ hc => absurd hc hr, Or.inl ?_⟩ (Or.inr hnone)
    rw [hI.zalloc_large hz hsmall (Or.inr (Or.inl hr))]
  · refine iff_of_false (fun hp => hp.grows hfree hgr hnull) ?_
    rintro (hle | hnone)
    · exact hsmall hle
    · exact hn.elim hnone

/-- In every state that a run of the zones reaches, a call of `zalloc` on a zone makes progress if
and only if the zone was made for elements of at most a page, or there is no page to take. -/
theorem zone_progress {s₀ : SizedZones} {ops : List ZoneOp} (hb : ZoneBoot s₀.world)
    (hr : Run (SizedStep h) s₀ ops s) (hz : z < s.world.store.zoneCount) :
    ZoneProgress h (s.world.store.zones z) s.world.kmem (s.world.pages z) (s.size z) ↔
      (s.size z).toNat ≤ 4096 ∨ ∀ n, ¬ s.world.kmem.pmm.Free n :=
  (hr.inv (fun _ _ _ hs hI => SizedInv.step hI hs) (SizedInv.boot hb)).progress hz

end Sized

def sizedBoot : SizedZones := ⟨zoneBoot, fun _ => 0⟩

theorem sizedBoot_boot : ZoneBoot sizedBoot.world := ⟨rfl, rfl, rfl, by decide, fun _ hn => hn.elim⟩

theorem sizedBoot_zinit (size : Word) : Run (SizedStep higherHalf) sizedBoot [.zinit size 0]
    (sizedBoot.zinit size 0) := Run.start.snoc (SizedStep.zinit sizedBoot size 0)

theorem zone_progress_page :
    let s := sizedBoot.zinit 4096 0
    ZoneProgress higherHalf (s.world.store.zones 0) s.world.kmem (s.world.pages 0) (s.size 0) ↔
      (s.size 0).toNat ≤ 4096 ∨ ∀ n, ¬ s.world.kmem.pmm.Free n :=
  zone_progress sizedBoot_boot (sizedBoot_zinit 4096) (by decide)

/-- The zone of port spaces: with pages free, `zone_grow` succeeds and leaves its list empty. -/
theorem zone_progress_ipc_space :
    let s := sizedBoot.zinit sizeofIpcSpace 0
    Run (SizedStep higherHalf) sizedBoot [.zinit sizeofIpcSpace 0] s ∧ 0 < s.world.store.zoneCount ∧
      s.size 0 = sizeofIpcSpace ∧ (∃ n, s.world.kmem.pmm.Free n) ∧
      ¬ ZoneProgress higherHalf (s.world.store.zones 0) s.world.kmem (s.world.pages 0) (s.size 0) := by
  intro s
  have hI : SizedInv higherHalf s := (SizedInv.boot sizedBoot_boot).zinit sizeofIpcSpace 0
  have hz : 0 < s.world.store.zoneCount := by decide
  have hfree : s.world.kmem.pmm.Free 1 := by decide
  have hlarge : ¬ (s.size 0).toNat ≤ 4096 := by decide
  refine ⟨sizedBoot_zinit sizeofIpcSpace, hz, rfl, ⟨1, hfree⟩, fun hp => ?_⟩
  rcases (hI.progress hz).mp hp with hle | hnone
  · exact hlarge hle
  · exact hnone 1 hfree

end Dana
