import Dana.PmapRefine

/-! The tables as the processor reads them: an entry with PS set ends the walk, and the upper
half of every pmap goes through the tables of the kernel. -/
namespace Dana
open ByteMem RadixTree

/-- The table below an entry, if the entry does not map a large page. -/
def pteNext (e : Word) : Option Word := if e &&& ptePS = 0 then pteTable e else none

/-- The table at the end of a path. -/
def hwTable (h : Hhdm) (m : Mem) (pml4 : Word) (q : List Idx) : Option Word :=
  node pteNext (pteAt h m) pml4 q

/-- The present entry that maps `va`, with the number of levels that it leaves out: 0 for a
page, 1 and 2 for a large one. -/
def hwWalk (h : Hhdm) (m : Mem) (pml4 va : Word) : Option (ℕ × Word) :=
  (pteNext (pteAt h m pml4 (pml4Idx va))).bind fun pdpt =>
    let e3 := pteAt h m pdpt (pdptIdx va)
    if e3 &&& pteP ≠ 0 ∧ e3 &&& ptePS ≠ 0 then some (2, e3)
    else (pteNext e3).bind fun pd =>
      let e2 := pteAt h m pd (pdIdx va)
      if e2 &&& pteP ≠ 0 ∧ e2 &&& ptePS ≠ 0 then some (1, e2)
      else (pteNext e2).bind fun pt => (ptePresent (pteAt h m pt (ptIdx va))).map fun e => (0, e)

/-- The addresses that the processor translates: bits 47 to 63 are the same. -/
def Canonical (va : Word) : Prop := va.toNat < 2^47 ∨ 2^64-2^47 ≤ va.toNat

instance (va : Word) : Decidable (Canonical va) := inferInstanceAs (Decidable (_ ∨ _))

/-- The translation of `va` in a pmap. -/
def pmapTranslation (h : Hhdm) (s : PmapState) (p : PmapPtr) (va : Word) : Option (ℕ × Word) :=
  if Canonical va then hwWalk h s.kmem.mem (s.pmaps p).pml4Phys va else none

theorem pteNext_aligned {e t : Word} (h : pteNext e = some t) : PageAligned t := by
  unfold pteNext at h
  split_ifs at h
  exact pteTable_aligned h

section Walk
variable {h : Hhdm} {m m' : Mem} {r r' va : Word}

/-- In memory that is zero there is no table below the PML4. -/
theorem hwTable_blank {q : List Idx} {t : Word} (ht : hwTable h (fun _ => 0) r q = some t) :
    q = [] ∧ t = r := by
  cases q with
  | nil => exact ⟨rfl, (Option.some.inj ht).symm⟩
  | cons i q =>
    rw [hwTable, node_cons, pteAt_blank] at ht
    cases ht

/-- Walks that read the same entries end at the same one. -/
theorem hwWalk_congr (hr : pteAt h m' r' (pml4Idx va) = pteAt h m r (pml4Idx va))
    (hT : ∀ q t, q ≠ [] → q <+: vaPath va → hwTable h m r q = some t →
      ∀ i, pteAt h m' t i = pteAt h m t i) : hwWalk h m' r' va = hwWalk h m r va := by
  unfold hwWalk
  rw [hr]
  refine Option.bind_congr fun pdpt h1 => ?_
  have hn1 : hwTable h m r [pml4Idx va] = some pdpt := by
    rw [hwTable, node_cons, h1]
    rfl
  rw [hT _ pdpt (by simp) ⟨_, rfl⟩ hn1]
  dsimp only
  split_ifs
  · rfl
  refine Option.bind_congr fun pd h2 => ?_
  have hn2 : hwTable h m r [pml4Idx va, pdptIdx va] = some pd := node_pair.mpr ⟨_, h1, h2⟩
  rw [hT _ pd (by simp) ⟨[pdIdx va], rfl⟩ hn2]
  split_ifs
  · rfl
  refine Option.bind_congr fun pt h3 => ?_
  have hn3 : hwTable h m r (vaPath va) = some pt := node_triple.mpr ⟨_, h1, _, h2, h3⟩
  rw [hT _ pt (by simp [vaPath]) (List.prefix_refl _) hn3]

end Walk

section Lower
variable {h : Hhdm} {own : ℕ → Owner} {s : PmapState} {live : Set PmapPtr} {p : PmapPtr} {va : Word}

/-- In the lower half there are no large pages, and the processor and `pmap_walk` agree. -/
theorem PmapInv.translation (hI : PmapInv h own s live) (hp : p ∈ live) (hva : UserVa va) :
    pmapTranslation h s p va = (pteOf h s p va).map fun e => (0, e) := by
  obtain ⟨hd1, hd2, hd3, _⟩ := vaPath_path hva.lower
  have hnext {t : Word} {q : List Idx} {i : Idx} (ht : tableLab own t = some (p, q))
      (hd : lowerDom q i) : pteNext (pteAt h s.kmem.mem t i) = pteTable (pteAt h s.kmem.mem t i) ∧
        ¬ (pteAt h s.kmem.mem t i &&& pteP ≠ 0 ∧ pteAt h s.kmem.mem t i &&& ptePS ≠ 0) := by
    have hs := hI.small t p q i ht hd
    exact ⟨if_pos hs, fun hc => hc.2 hs⟩
  have ht1 := hI.root p hp
  rw [pmapTranslation, if_pos (show Canonical va from Or.inl hva), hwWalk, pteOf_eq, tableAt, vaPath, node_cons,
    (hnext ht1 hd1).1]
  cases h1 : pteTable (pteAt h s.kmem.mem (s.pmaps p).pml4Phys (pml4Idx va)) with
  | none => rfl
  | some pdpt =>
  have ht2 := hI.forest _ p [] _ pdpt ht1 hd1 h1
  simp only [Option.bind_some, node_cons]
  rw [if_neg (hnext ht2 hd2).2, (hnext ht2 hd2).1]
  cases h2 : pteTable (pteAt h s.kmem.mem pdpt (pdptIdx va)) with
  | none => rfl
  | some pd =>
  have ht3 := hI.forest _ p _ _ pd ht2 hd2 h2
  simp only [Option.bind_some]
  rw [if_neg (hnext ht3 hd3).2, (hnext ht3 hd3).1]
  cases h3 : pteTable (pteAt h s.kmem.mem pd (pdIdx va)) with
  | none => rfl
  | some pt => rfl

end Lower

/-- The tables below the PML4 `r` are in frames of the kernel. -/
def KernelTables (h : Hhdm) (own : ℕ → Owner) (m : Mem) (r : Word) : Prop :=
  ∀ q t, q ≠ [] → q.length ≤ 3 → hwTable h m r q = some t → own (pageOf t) = .kernel

section Kernel
variable {h : Hhdm} {own own' : ℕ → Owner} {m m' : Mem} {r r' va : Word}

theorem hwTable_concat (q : List Idx) (i : Idx) : hwTable h m r (q ++ [i]) =
    (hwTable h m r q).bind fun t => pteNext (pteAt h m t i) := node_concat r q i

theorem hwTable_aligned (hr : PageAligned r) {q : List Idx} {t : Word}
    (ht : hwTable h m r q = some t) : PageAligned t := by
  rcases List.eq_nil_or_concat' q with rfl | ⟨q, i, rfl⟩
  · obtain rfl := Option.some.inj ht
    exact hr
  · rw [hwTable_concat, Option.bind_eq_some_iff] at ht
    obtain ⟨t', _, ht⟩ := ht
    exact pteNext_aligned ht

/-- Memory that leaves the frames of the kernel alone has the same tables in them. -/
theorem KernelTables.same (hk : KernelTables h own m r) (hr : PageAligned r)
    (hroot : own (pageOf r) = .kernel)
    (hm : ∀ x, own (frameOf h x) = .kernel → m' x = m x) {q : List Idx} (hq : q.length ≤ 3) :
    hwTable h m' r q = hwTable h m r q := by
  refine node_congr r q fun q' i s hs t ht => ?_
  have hlen : q'.length ≤ 3 := by
    rw [hs, List.length_append] at hq
    omega
  have hown : own (pageOf t) = .kernel := by
    by_cases hnil : q' = []
    · rw [hnil] at ht
      obtain rfl := Option.some.inj ht
      exact hroot
    · exact hk q' t hnil hlen ht
  rw [pteAt_congr h m m' t i (hwTable_aligned hr ht) fun x hx => hm x (hx ▸ hown)]

theorem KernelTables.congr (hk : KernelTables h own m r) (hr : PageAligned r)
    (hroot : own (pageOf r) = .kernel) (ho : ∀ n, own n = .kernel → own' n = .kernel)
    (hm : ∀ x, own (frameOf h x) = .kernel → m' x = m x) : KernelTables h own' m' r := by
  intro q t hne hq ht
  rw [hk.same hr hroot hm hq] at ht
  exact ho _ (hk q t hne hq ht)

/-- A walk through the tables of the kernel ends where it did, as long as the kernel's frames
stay as they are. -/
theorem KernelTables.walk (hk : KernelTables h own m r) (hr : PageAligned r)
    (hm : ∀ x, own (frameOf h x) = .kernel → m' x = m x)
    (hslot : pteAt h m' r' (pml4Idx va) = pteAt h m r (pml4Idx va)) :
    hwWalk h m' r' va = hwWalk h m r va := by
  refine hwWalk_congr hslot fun q t hne hpre ht i => ?_
  have hown := hk q t hne hpre.length_le ht
  exact pteAt_congr h m m' t i (hwTable_aligned hr ht) fun x hx => hm x (hx ▸ hown)

end Kernel

end Dana
