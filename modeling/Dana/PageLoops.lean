import Dana.VmFrames
import Dana.VmShape

/-! How far the page loops of vm_map.c run. The address goes up in steps of a page in 64 bits,
so a loop that has an address of the last page below its end goes on at the bottom. -/
namespace Dana
open ByteMem AddrLoop LinkedRing IntervalList

/-- The addresses that a page loop visits, and whether it ends. -/
structure PageLoop where
  visited : List Word
  ends : Bool

/-- The loop ends after `size/4096 + 1` rounds, at pages that have an address in the range. -/
structure PageLoop.Inside (start size : Word) (loop : PageLoop) : Prop where
  ends : loop.ends = true
  rounds : loop.visited.length ≤ size.toNat/4096+1
  pages : ∀ a ∈ loop.visited, ∃ x, start.toNat ≤ x ∧ x < start.toNat+size.toNat ∧ x/4096 = a.toNat/4096

/-- The loop of `vm_map_enter` and `vm_map_page_range`. -/
def vmPagesInLoop (h : Hhdm) (p : PmapPtr) (flags stop start : Word) (s : VmState) : PageLoop :=
  ⟨visited pmmPageSize stop (fun a s => vmPageStep h p flags s a) addrFuel start s,
    (vmPagesIn h p flags stop start s).isSome⟩

/-- The loop of `vm_map_remove` over the pages of an entry. -/
def vmPagesOutLoop (h : Hhdm) (p : PmapPtr) (stop start : Word) (s : VmState) : PageLoop :=
  ⟨visited pmmPageSize stop (fun a s => Except.ok (ε := VmState) (vmPageOut h s p a)) addrFuel start s,
    (vmPagesOut h p stop start s).isSome⟩

def unmapStart (s : VmState) (start : Word) (e : EntryPtr) : Word :=
  if start < (s.entries e).start then (s.entries e).start else start

def unmapEnd (s : VmState) (stop : Word) (e : EntryPtr) : Word :=
  if (s.entries e).stop < stop then (s.entries e).stop else stop

/-- The page loops of the last `n` rounds of `vm_map_remove`. -/
def vmMapRemoveLoops (h : Hhdm) (m : VmMapPtr) (start stop : Word) :
    ℕ → EntryPtr → VmState → List PageLoop
  | 0, _, _ => []
  | n+1, e, s =>
    if e = .header m then []
    else
      (if stop ≤ (s.entries e).start ∨ (s.entries e).stop ≤ start then []
        else [vmPagesOutLoop h (s.maps m).pmap (unmapEnd s stop e) (unmapStart s start e) s]) ++
      match vmRemoveEntry h m start stop e s with
      | .ok (s', e') => vmMapRemoveLoops h m start stop n e' s'
      | .error _ => []

/-- No address that a loop from `start` comes to before `stop` is in the last page. -/
def EndsBelowTop (start stop : Word) : Prop := stop.toNat ≤ 2^64-4096+start.toNat%4096

instance (start stop : Word) : Decidable (EndsBelowTop start stop) :=
  inferInstanceAs (Decidable (_ ≤ _))

/-- The addresses that a loop from `start` to `stop` comes to before it wraps. -/
def pagesToTop (start stop : Word) : List Word := addrs pmmPageSize stop (2^52-start.toNat/4096) start

/-- All these pages can be mapped, one after the other. -/
def PagesFit (h : Hhdm) (p : PmapPtr) (flags : Word) (s : VmState) (as : List Word) : Prop :=
  ∃ s', as.foldlM (vmPageStep h p flags) s = .ok s'

section Loops
variable {h : Hhdm} {s s' : VmState} {p : PmapPtr} {m : VmMapPtr} {l : List EntryPtr}
  {start stop size lo hi flags : Word}

/-- A loop over a part of the range that ends below the top stays in it. -/
theorem forPages_inside {σ ρ : Type*} (body : Word → σ → Except ρ σ) (x : σ)
    (hbelow : EndsBelowTop lo hi) (hlo : start.toNat ≤ lo.toNat)
    (hhi : hi.toNat ≤ start.toNat+size.toNat) :
    (∃ r, forAddr pmmPageSize hi body addrFuel lo x = some r) ∧
    (visited pmmPageSize hi body addrFuel lo x).length ≤ size.toNat/4096+1 ∧
    ∀ a ∈ visited pmmPageSize hi body addrFuel lo x,
      ∃ y, start.toNat ≤ y ∧ y < start.toNat+size.toNat ∧ y/4096 = a.toNat/4096 := by
  have h4 : pmmPageSize.toNat = 4096 := rfl
  have hf : addrFuel = 2^64 := rfl
  have hlt := hi.isLt
  rw [EndsBelowTop] at hbelow
  obtain ⟨n, hn⟩ : ∃ n, n = (hi.toNat-lo.toNat+4095)/4096 := ⟨_, rfl⟩
  have hfuel : n ≤ addrFuel := by omega
  obtain ⟨hr, hlen, hin⟩ := visited_bounded pmmPageSize hi body hfuel (a := lo) x
    (by rw [h4]; omega) (by rw [h4]; omega)
  refine ⟨hr, by omega, fun a ha => ?_⟩
  obtain ⟨h1, h2⟩ := hin a ha
  exact ⟨a.toNat, by omega, by omega, rfl⟩

/-- The steps up to the last page do not wrap, and the next one comes to the first page. -/
theorem step_toNat {k : ℕ} (hk : k < 2^52-start.toNat/4096) :
    (start+BitVec.ofNat 64 k*pmmPageSize).toNat = start.toNat+k*4096 := by
  have hlt := start.isLt
  have h4 : pmmPageSize.toNat = 4096 := rfl
  rw [BitVec.toNat_add, BitVec.toNat_mul, BitVec.toNat_ofNat, h4]
  omega

theorem step_wraps :
    (start+BitVec.ofNat 64 (2^52-start.toNat/4096)*pmmPageSize).toNat = start.toNat%4096 := by
  have hlt := start.isLt
  have h4 : pmmPageSize.toNat = 4096 := rfl
  rw [BitVec.toNat_add, BitVec.toNat_mul, BitVec.toNat_ofNat, h4]
  omega

theorem step_below (hover : ¬ EndsBelowTop start stop) {k : ℕ} (hk : k < 2^52-start.toNat/4096) :
    start+BitVec.ofNat 64 k*pmmPageSize < stop := by
  rw [EndsBelowTop] at hover
  rw [BitVec.lt_def, step_toNat hk]
  omega

/-- A loop over pages that are unmapped that has an address of the last page below its end never
ends. -/
theorem vmPagesOut_diverges (h : Hhdm) (p : PmapPtr) (s : VmState) (hover : ¬ EndsBelowTop lo hi) :
    vmPagesOut h p hi lo s = none := by
  have h4 : pmmPageSize.toNat = 4096 := rfl
  rw [EndsBelowTop] at hover
  have hnone : forAddr pmmPageSize hi (fun a s => Except.ok (ε := VmState) (vmPageOut h s p a))
      addrFuel lo s = none := by
    refine forAddr_diverges _ _ _ (fun a => a.toNat%4096 = lo.toNat%4096) (fun a ha => ?_)
      (fun a t => ⟨_, rfl⟩) _ _ _ rfl
    rw [BitVec.lt_def, BitVec.toNat_add, h4]
    have := a.isLt
    omega
  rw [vmPagesOut, hnone]
  rfl

/-- The loop over pages that are unmapped stays in the range exactly if it ends below the top. -/
theorem vmPagesOutLoop_inside (s : VmState) (hlo : start.toNat ≤ lo.toNat)
    (hhi : hi.toNat ≤ start.toNat+size.toNat) :
    (vmPagesOutLoop h p hi lo s).Inside start size ↔ EndsBelowTop lo hi := by
  constructor
  · intro hin
    by_contra hover
    have hends : (vmPagesOut h p hi lo s).isSome = true := hin.ends
    rw [vmPagesOut_diverges h p s hover] at hends
    cases hends
  · intro hbelow
    obtain ⟨⟨r, hr⟩, hlen, hpages⟩ := forPages_inside
      (fun a s => Except.ok (ε := VmState) (vmPageOut h s p a)) s hbelow hlo hhi
    refine ⟨?_, hlen, hpages⟩
    show (vmPagesOut h p hi lo s).isSome = true
    rw [vmPagesOut, hr]
    rfl

/-- The loop over pages that are mapped stays in the range exactly if it ends below the top, or
the frames run out before the top. -/
theorem vmPagesInLoop_inside (s : VmState) (hstop : (start+size).toNat = start.toNat+size.toNat) :
    (vmPagesInLoop h p flags (start+size) start s).Inside start size ↔
      EndsBelowTop start (start+size) ∨
        ¬ PagesFit h p flags s (pagesToTop start (start+size)) := by
  have hf : addrFuel = 2^64 := rfl
  have hlt := start.isLt
  have hslt := (start+size).isLt
  have hle : 2^52-start.toNat/4096 ≤ addrFuel := by omega
  by_cases hbelow : EndsBelowTop start (start+size)
  · refine iff_of_true ?_ (Or.inl hbelow)
    obtain ⟨⟨r, hr⟩, hlen, hpages⟩ := forPages_inside (fun a s => vmPageStep h p flags s a) s
      hbelow le_rfl hstop.le
    exact ⟨Option.isSome_iff_exists.mpr ⟨r, hr⟩, hlen, hpages⟩
  have htop := hbelow
  rw [EndsBelowTop] at htop
  cases hfold : (pagesToTop start (start+size)).foldlM (vmPageStep h p flags) s with
  | error r =>
    refine iff_of_true ?_ (Or.inr fun hfit => ?_)
    swap
    · obtain ⟨s', hs'⟩ := hfit
      cases hfold.symm.trans hs'
    obtain ⟨hr, hpre⟩ := visited_error hle hfold
    refine ⟨Option.isSome_iff_exists.mpr ⟨_, hr⟩, ?_, fun a ha => ?_⟩
    · have hlen := hpre.length_le.trans (addrs_length_le _ _ _ _)
      exact hlen.trans (by omega)
    · obtain ⟨halt, k, hk, rfl⟩ := addrs_stride (hpre.subset ha)
      rw [BitVec.lt_def, step_toNat hk] at halt
      rw [step_toNat hk]
      exact ⟨start.toNat+k*4096, by omega, by omega, rfl⟩
  | ok s' =>
    refine iff_of_false (fun hin => ?_) (fun hc => hc.elim hbelow fun hno => hno ⟨s', hfold⟩)
    -- all pages to the top are mapped, and the loop goes on at the bottom
    obtain ⟨k, hk⟩ : ∃ k, addrFuel = 2^52-start.toNat/4096+(k+1) :=
      ⟨addrFuel-(2^52-start.toNat/4096)-1, by omega⟩
    have hgo := visited_ok (2^52-start.toNat/4096) (m := k+1) (fun k hk => step_below hbelow hk) hfold
    have hbottom : start+BitVec.ofNat 64 (2^52-start.toNat/4096)*pmmPageSize < start+size := by
      rw [BitVec.lt_def, step_wraps]
      omega
    rw [← hk, visited, if_pos hbottom] at hgo
    have hrounds := hin.rounds
    have hpages := hin.pages
    rw [vmPagesInLoop] at hrounds hpages
    dsimp only at hrounds hpages
    rw [hgo] at hrounds hpages
    rw [List.length_append, List.length_cons, addrs_length fun k hk => step_below hbelow hk] at hrounds
    obtain ⟨y, h1, _, hy⟩ := hpages _ (List.mem_append_right _ List.mem_cons_self)
    rw [step_wraps] at hy
    omega

theorem vmPagesOut_of_ends (hends : (vmPagesOutLoop h p hi lo s).ends = true) :
    ∃ s', vmPagesOut h p hi lo s = some s' := Option.isSome_iff_exists.mp hends

/-- What `vm_map_remove` unmaps of an entry that overlaps the range lies in both. -/
theorem unmap_range {e : EntryPtr} (hstop : (start+size).toNat = start.toNat+size.toNat) :
    start.toNat ≤ (unmapStart s start e).toNat ∧
      (unmapEnd s (start+size) e).toNat ≤ start.toNat+size.toNat := by
  rw [unmapStart, unmapEnd]
  constructor
  · split_ifs with hc
    · exact BitVec.le_def.mp (BitVec.le_of_lt hc)
    · exact le_rfl
  · split_ifs with hc
    · rw [BitVec.lt_def] at hc
      omega
    · omega

/-- The loops of `vm_map_remove` from a member of the list on. -/
theorem vmMapRemoveLoops_inside (hstop : (start+size).toNat = start.toNat+size.toNat)
    {done es : List EntryPtr} {n : ℕ} (hn : es.length ≤ n) {s₁ : VmState} {first : EntryPtr}
    (hfirst : first = (es ++ [EntryPtr.header m]).head (by simp))
    (hm : VmMapInv s₁ m (done ++ es)) (hbody : ∀ e ∈ es, s₁.body e = s.body e) :
    (∀ loop ∈ vmMapRemoveLoops h m start (start+size) n first s₁, loop.Inside start size) ↔
      ∀ e ∈ es, (s.entries e).start < start+size → start < (s.entries e).stop →
        EndsBelowTop (unmapStart s start e) (unmapEnd s (start+size) e) := by
  induction es generalizing done n s₁ first with
  | nil =>
    obtain rfl : first = .header m := hfirst
    cases n <;> simp [vmMapRemoveLoops]
  | cons e es ih =>
    obtain rfl : first = e := hfirst
    obtain ⟨n, rfl⟩ : ∃ k, n = k+1 := ⟨n-1, by simp only [List.length_cons] at hn; omega⟩
    have hlen : es.length ≤ n := Nat.le_of_succ_le_succ hn
    have hne : first ≠ .header m := fun hc => hm.not_header (by simp [hc])
    have hnext : (s₁.entries first).next = (es ++ [EntryPtr.header m]).head (by simp) :=
      hm.neighbours.2.1
    have hrest (x : EntryPtr) (hx : x ∈ es) : s₁.body x = s.body x :=
      hbody x (List.mem_cons_of_mem _ hx)
    obtain ⟨hst, hsp⟩ := vmDrops_of_body (hbody first List.mem_cons_self)
    rw [List.forall_mem_cons, vmMapRemoveLoops, if_neg hne]
    by_cases hskip : start+size ≤ (s₁.entries first).start ∨ (s₁.entries first).stop ≤ start
    · have hrun : vmRemoveEntry h m start (start+size) first s₁ = .ok (s₁, (s₁.entries first).next) :=
        if_pos hskip
      rw [if_pos hskip, List.nil_append, hrun]
      dsimp only
      have hm1 : VmMapInv s₁ m (done ++ [first] ++ es) := by simpa using hm
      rw [ih hlen hnext hm1 hrest]
      rw [hst, hsp] at hskip
      refine ⟨fun hall => ⟨fun h1 h2 => ?_, hall⟩, fun hall => hall.2⟩
      rcases hskip with hc | hc
      · exact absurd h1 (BitVec.not_lt.mpr hc)
      · exact absurd h2 (BitVec.not_lt.mpr hc)
    have hu : unmapStart s₁ start first = unmapStart s start first := by
      rw [unmapStart, hst, unmapStart]
    have hv : unmapEnd s₁ (start+size) first = unmapEnd s (start+size) first := by
      rw [unmapEnd, hsp, unmapEnd]
    have hover : (s.entries first).start < start+size ∧ start < (s.entries first).stop := by
      rw [hst, hsp, not_or, BitVec.not_le, BitVec.not_le] at hskip
      exact hskip
    obtain ⟨hlo, hhi⟩ := unmap_range (s := s₁) (e := first) hstop
    have hloop := vmPagesOutLoop_inside (h := h) (p := (s₁.maps m).pmap) s₁ hlo hhi
    rw [if_neg hskip, List.singleton_append, List.forall_mem_cons, hloop, hu, hv]
    have hand {q r : Prop} (hqr : EndsBelowTop (unmapStart s start first)
        (unmapEnd s (start+size) first) → (q ↔ r)) :
        EndsBelowTop (unmapStart s start first) (unmapEnd s (start+size) first) ∧ q ↔
          ((s.entries first).start < start+size → start < (s.entries first).stop →
            EndsBelowTop (unmapStart s start first) (unmapEnd s (start+size) first)) ∧ r :=
      ⟨fun hc => ⟨fun _ _ => hc.1, (hqr hc.1).mp hc.2⟩, fun hc =>
        ⟨hc.1 hover.1 hover.2, (hqr (hc.1 hover.1 hover.2)).mpr hc.2⟩⟩
    apply hand
    intro hbelow
    rw [← hu, ← hv] at hbelow
    obtain ⟨s₂, hs₂⟩ := vmPagesOut_of_ends (hloop.mpr hbelow).ends
    have hpages := vmPagesOut_only hs₂
    have hrun : vmRemoveEntry h m start (start+size) first s₁ =
        .ok (vmMapDropEntry s₂ m first, (s₁.entries first).next) := by
      rw [unmapEnd, unmapStart] at hs₂
      rw [vmRemoveEntry, if_neg hskip, hs₂]
    rw [hrun]
    dsimp only
    have hnot (x : EntryPtr) (hx : x ∈ es) : x ≠ first := by
      rintro rfl
      have hnd := hm.nodup.sublist (List.sublist_append_right done (x :: es))
      exact (List.nodup_cons.mp hnd).1 hx
    refine ih hlen hnext (hpages.mapInv hm).drop fun x hx => ?_
    rw [vmMapDropEntry_body (hnot x hx), VmState.body, hpages.entries]
    exact hrest x hx

end Loops

end Dana
