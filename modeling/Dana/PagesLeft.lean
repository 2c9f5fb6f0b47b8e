import Dana.ExecMap
import Dana.VmOrphans
import Dana.Syscall

/-! When there is memory for a zone's element, a thread, a kmsg or a pmap: exactly, in any
state of the allocators. -/
namespace Dana
open ByteMem

/-- The next `n` calls of `pmm_alloc_page` succeed. -/
def PagesLeft (p : Pmm) (n : ℕ) : Prop := n = 0 ∨ ¬ p.Free 0 ∧ n ≤ p.frames.card

/-- `zalloc` on zone `z` succeeds, and so do `spare` calls of `pmm_alloc_page` after it. -/
def ZoneServes (z : Zone) (p : Pmm) (spare : ℕ) : Prop :=
  (z.freeList ≠ 0 ∧ PagesLeft p spare) ∨
  (z.freeList = 0 ∧ (z.maxSize = 0 ∨ z.curSize < z.maxSize) ∧ 0 < z.elemSize ∧
    z.elemSize ≤ pmmPageSize ∧ PagesLeft p (spare+1))

/-- The same of a zone that is kept in a static variable, and made at its first use. -/
def ZoneReady (s : ZoneStore) (zone : Option ℕ) (p : Pmm) (spare : ℕ) : Prop :=
  (∃ z, zone = some z ∧ ZoneServes (s.zones z) p spare) ∨
  (zone = none ∧ s.zoneCount < zoneMax ∧ PagesLeft p (spare+1))

section Pages
variable {h : Hhdm} {p : Pmm} {n : ℕ}

/-- A free page 0 is taken for `PMM_NULL`. -/
theorem pmmAllocPage_zero (h0 : p.Free 0) : (pmmAllocPage p).1 = pmmNull := by
  rcases pmmAllocPage_spec p with ⟨m, _, hmin, he⟩ | ⟨_, he⟩
  · have hm : m = 0 := by
      by_contra hm
      exact hmin 0 (Nat.pos_of_ne_zero hm) h0
    rw [he, hm]
    rfl
  · rw [he]

/-- Each call takes one page of those that are left. -/
theorem pmmAllocPage_left :
    ((pmmAllocPage p).1 ≠ pmmNull ∧ PagesLeft (pmmAllocPage p).2 n) ↔ PagesLeft p (n+1) := by
  by_cases h0 : p.Free 0
  · constructor
    · intro hp
      exact absurd (pmmAllocPage_zero h0) hp.1
    · intro hp
      exact absurd h0 (hp.resolve_left (by omega)).1
  rcases pmmAllocPage_frames h0 with ⟨hnull, hc⟩ | ⟨hne, hc, h1⟩
  · constructor
    · intro hp
      exact absurd hnull hp.1
    · intro hp
      have := (hp.resolve_left (by omega)).2
      omega
  · constructor
    · rintro ⟨_, hn | ⟨_, hn⟩⟩ <;> exact Or.inr ⟨h0, by omega⟩
    · intro hp
      have := (hp.resolve_left (by omega)).2
      exact ⟨hne, Or.inr ⟨h1, by omega⟩⟩

/-- The page that a call hands out is one of the 4 GB, and not the first. -/
theorem pmmAllocPage_range (hne : (pmmAllocPage p).1 ≠ pmmNull) :
    0 < (pmmAllocPage p).1.toNat ∧ (pmmAllocPage p).1.toNat+4096 ≤ 2^32 := by
  have hpos : 0 < (pmmAllocPage p).1.toNat := by
    apply Nat.pos_of_ne_zero
    intro hz
    exact hne (BitVec.eq_of_toNat_eq hz)
  refine ⟨hpos, ?_⟩
  rcases pmmAllocPage_spec p with ⟨m, hm, _, he⟩ | ⟨_, he⟩
  · have hlt : m < 2^20 := hm.1
    have hnat := toNat_shift m hm.1
    rw [he]
    dsimp only
    omega
  · rw [he] at hne
    exact absurd rfl hne

/-- The loop of `zone_grow` leaves the last element at the head of the free list. -/
theorem zoneGrowLoop_freeList (page : Word) (r i : ℕ) (z : Zone) (m : Mem) :
    (zoneGrowLoop page (r+1) i z m).1.freeList = page+BitVec.ofNat 64 (i+r)*z.elemSize := by
  induction r generalizing i z m with
  | zero => rfl
  | succ r ih =>
    rw [zoneGrowLoop, ih (i+1)]
    dsimp only
    rw [show i+1+r = i+(r+1) from by omega]

/-- The elements that fit in a page give a new zone a free one, unless they are of size 0
or larger than the page. -/
theorem zoneGrowLoop_some {pa : Word} (hpos : 0 < pa.toNat) (hlt : pa.toNat+4096 ≤ 2^32) (z : Zone)
    (m : Mem) (hfree : z.freeList = 0) :
    (zoneGrowLoop (physToVirt h pa) (pmmPageSize/z.elemSize).toNat 0 z m).1.freeList ≠ 0 ↔
      0 < z.elemSize ∧ z.elemSize ≤ pmmPageSize := by
  have hpage : pmmPageSize.toNat = 4096 := rfl
  have hzero : (0 : Word).toNat = 0 := rfl
  have hdiv : (pmmPageSize/z.elemSize).toNat = 4096/z.elemSize.toNat := BitVec.toNat_udiv
  rw [hdiv, BitVec.lt_def, BitVec.le_def, hpage, hzero]
  by_cases hfit : 0 < z.elemSize.toNat ∧ z.elemSize.toNat ≤ 4096
  swap
  · have hnone : 4096/z.elemSize.toNat = 0 := by
      rw [Nat.div_eq_zero_iff]
      omega
    rw [hnone]
    exact ⟨fun hne => absurd hfree hne, fun hc => absurd hc hfit⟩
  obtain ⟨r, hr⟩ : ∃ r, 4096/z.elemSize.toNat = r+1 :=
    Nat.exists_eq_succ_of_ne_zero (Nat.div_pos hfit.2 hfit.1).ne'
  have hlast : (r+1)*z.elemSize.toNat ≤ 4096 := hr ▸ Nat.div_mul_le_self 4096 z.elemSize.toNat
  have hsucc : (r+1)*z.elemSize.toNat = r*z.elemSize.toNat+z.elemSize.toNat := by
    rw [Nat.add_mul, one_mul]
  rw [hr, zoneGrowLoop_freeList]
  refine ⟨fun _ => hfit, fun _ hz => ?_⟩
  have hnat := congrArg BitVec.toNat hz
  have hmul : (BitVec.ofNat 64 (0+r)*z.elemSize).toNat = r*z.elemSize.toNat := by
    rw [BitVec.toNat_mul, BitVec.toNat_ofNat, Nat.zero_add,
      Nat.mod_eq_of_lt (show r < 2^64 by have := Nat.div_le_self 4096 z.elemSize.toNat; omega)]
    exact Nat.mod_eq_of_lt (by omega)
  have hoff := h.fits
  rw [BitVec.toNat_add, hmul, physToVirt, BitVec.toNat_add, hzero] at hnat
  omega

/-- `zalloc` and the pages it leaves. -/
theorem zalloc_left {k : Kmem} {z : Zone} :
    ((zalloc h z k).1 ≠ 0 ∧ PagesLeft (zalloc h z k).2.2.pmm n) ↔ ZoneServes z k.pmm n := by
  unfold zalloc ZoneServes
  by_cases hfree : z.freeList = 0
  swap
  · rw [if_neg hfree]
    simp only [hfree, ne_eq, not_false_eq_true, true_and, false_and, or_false]
    exact ⟨fun hp => hp.2, fun hp => ⟨hfree, hp⟩⟩
  rw [if_pos hfree]
  simp only [hfree, ne_eq, not_true_eq_false, false_and, true_and, false_or]
  unfold zoneGrow
  by_cases hmax : z.maxSize ≠ 0 ∧ z.maxSize ≤ z.curSize
  · rw [if_pos hmax]
    have hfull : ¬ (z.maxSize = 0 ∨ z.curSize < z.maxSize) := by
      rw [not_or, BitVec.not_lt]
      exact hmax
    constructor
    · intro hp
      exact absurd rfl hp.1
    · intro hp
      exact absurd hp.1 hfull
  have hroom : z.maxSize = 0 ∨ z.curSize < z.maxSize := by
    by_contra hroom
    rw [not_or, BitVec.not_lt] at hroom
    exact hmax hroom
  rw [if_neg hmax]
  simp only [hroom, true_and, ← pmmAllocPage_left (n := n)]
  by_cases hnull : (pmmAllocPage k.pmm).1 = pmmNull
  · simp [hnull]
  obtain ⟨hpos, hlt⟩ := pmmAllocPage_range hnull
  have hsome := zoneGrowLoop_some (h := h) hpos hlt z k.mem hfree
  simp only [hnull, ↓reduceIte, ne_eq, not_true_eq_false, not_false_eq_true, true_and, zallocPop]
  rw [← ne_eq, hsome, and_assoc]

/-- `pmap_create` takes a page for the tables and one for the pmap. -/
theorem pmapCreate_left {pm : PmapState} :
    (pmapCreate h pm).1 ≠ none ↔ PagesLeft pm.kmem.pmm 2 := by
  rw [← pmmAllocPage_left (n := 1), ← pmmAllocPage_left (n := 0)]
  obtain ⟨pa, pmm, d, pmm', mem, hpa, hd, -, hcases⟩ := pmapCreate_cases h pm
  rw [hpa, hd]
  rcases hcases with ⟨hn, hres⟩ | ⟨_, hdn, hres⟩ | ⟨hn, hdn, hres⟩
  · rw [hres]
    exact iff_of_false (fun hc => hc rfl) fun hc => hc.1 hn
  · rw [hres]
    exact iff_of_false (fun hc => hc rfl) fun hc => hc.2.1 hdn
  · rw [hres]
    exact iff_of_true (by simp) ⟨hn, hdn, Or.inl rfl⟩

end Pages

section Objects
variable {h : Hhdm} {p : Pmm} {size : Word} {spare : ℕ}

/-- A zone that has just been made is empty and may grow. -/
theorem zinit_serves {s : ZoneStore}
    (hlo : 0 < ((if size < 8 then 8 else size)+(8-1)) &&& ~~~(8-1))
    (hhi : ((if size < 8 then 8 else size)+(8-1)) &&& ~~~(8-1) ≤ pmmPageSize) :
    (∃ z, (zinit s size 0).1 = some z ∧ ZoneServes ((zinit s size 0).2.zones z) p spare) ↔
      s.zoneCount < zoneMax ∧ PagesLeft p (spare+1) := by
  constructor
  · rintro ⟨z, hz, hserves⟩
    rw [zinit_zone hz] at hserves
    have hcount : s.zoneCount < zoneMax := by
      by_contra hc
      rw [zinit, if_pos (Nat.le_of_not_lt hc)] at hz
      cases hz
    rcases hserves with ⟨hne, _⟩ | ⟨_, _, _, _, hp⟩
    · exact absurd rfl hne
    · exact ⟨hcount, hp⟩
  · rintro ⟨hcount, hp⟩
    have hz : (zinit s size 0).1 = some s.zoneCount := by
      rw [zinit, if_neg (Nat.not_le_of_lt hcount)]
    refine ⟨s.zoneCount, hz, ?_⟩
    rw [zinit_zone hz]
    exact Or.inr ⟨rfl, Or.inl rfl, hlo, hhi, hp⟩

theorem getThreadZone_ready {k : Kern} :
    (∃ z, (getThreadZone k).1 = some z ∧
        ZoneServes ((getThreadZone k).2.zoneStore.zones z) p spare) ↔
      ZoneReady k.zoneStore k.threadZone p spare := by
  unfold getThreadZone ZoneReady
  cases k.threadZone with
  | some z => simp
  | none =>
    simp only [reduceCtorEq, false_and, exists_false, true_and, false_or]
    exact zinit_serves (by decide) (by decide)

theorem getKmsgZone_ready {s : Ipc} :
    (∃ z, (getKmsgZone s).1 = some z ∧
        ZoneServes ((getKmsgZone s).2.kern.zoneStore.zones z) p spare) ↔
      ZoneReady s.kern.zoneStore s.kmsgZone p spare := by
  unfold getKmsgZone Ipc.getZone ZoneReady
  cases s.kmsgZone with
  | some z => simp
  | none =>
    simp only [reduceCtorEq, false_and, exists_false, true_and, false_or]
    exact zinit_serves (by decide) (by decide)

/-- `thread_create` takes an element of the thread zone, and a page for the stack. -/
theorem threadCreate_left {trampoline task entry arg : Word} {k : Kern} :
    (threadCreate h trampoline task entry arg k).1 = .success ↔
      ZoneReady k.zoneStore k.threadZone k.kmem.pmm 1 := by
  rw [← getThreadZone_ready]
  have hkmem : (getThreadZone k).2.kmem = k.kmem := by
    unfold getThreadZone
    cases k.threadZone <;> rfl
  cases hg : getThreadZone k with
  | mk zone k1 =>
    rw [hg] at hkmem
    cases zone with
    | none => simp [threadCreate, hg]
    | some z =>
      obtain ⟨t, zn, kmem, ha⟩ : ∃ t zn kmem, zalloc h (k1.zoneStore.zones z) k1.kmem =
        (t, zn, kmem) := ⟨_, _, _, rfl⟩
      obtain ⟨pa, pmm, hp⟩ : ∃ pa pmm, pmmAllocPage kmem.pmm = (pa, pmm) := ⟨_, _, rfl⟩
      have hleft := zalloc_left (h := h) (n := 1) (k := k1.kmem) (z := k1.zoneStore.zones z)
      rw [← pmmAllocPage_left, ha, hp] at hleft
      rw [threadCreate_eq hg ha hp rfl]
      simp only [Option.some.injEq, exists_eq_left']
      rw [← hkmem, ← hleft]
      by_cases ht : t = threadNull
      · simp [ht, threadNull]
      by_cases hpa : pa = pmmNull
      · simp [ht, hpa]
      · simp only [ht, hpa, ↓reduceIte, PagesLeft, true_or, ne_eq, not_false_eq_true, and_true,
          true_iff]
        exact ht

/-- `ipc_kmsg_alloc` takes an element of the kmsg zone. -/
theorem ipcKmsgAlloc_left {s : Ipc} : (ipcKmsgAlloc h s size).1 ≠ ipcKmsgNull ↔
    size ≤ kmsgZoneSize ∧ ZoneReady s.kern.zoneStore s.kmsgZone s.kern.kmem.pmm 0 := by
  rw [← getKmsgZone_ready]
  have hkmem : (getKmsgZone s).2.kern.kmem = s.kern.kmem := by
    unfold getKmsgZone Ipc.getZone
    cases s.kmsgZone <;> rfl
  unfold ipcKmsgAlloc
  cases hg : getKmsgZone s with
  | mk zone s1 =>
    rw [hg] at hkmem
    cases zone with
    | none => simp
    | some z =>
      simp only [Option.some.injEq, exists_eq_left']
      by_cases hsize : kmsgZoneSize < size
      · simp [hsize, BitVec.not_le.mpr hsize]
      have hleft := zalloc_left (h := h) (n := 0) (k := s1.kern.kmem)
        (z := s1.kern.zoneStore.zones z)
      simp only [BitVec.not_lt.mp hsize, hsize, ↓reduceIte, Ipc.zalloc, true_and]
      rw [← hkmem, ← hleft]
      simp only [PagesLeft, true_or, and_true]
      by_cases hm : (zalloc h (s1.kern.zoneStore.zones z) s1.kern.kmem).1 = ipcKmsgNull
      · simp [hm, ipcKmsgNull]
      · simp only [hm, ↓reduceIte]
        rfl

end Objects

end Dana
