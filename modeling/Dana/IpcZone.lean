import Dana.IpcInv

/-! A zone made at its first use and kept in a static variable: which of its elements are
handed out in a run, and that memory written elsewhere is no part of it. -/
namespace Dana
open ByteMem

/-- `zone` has handed out `live`, in pages that were free in `k₀`; `other` is not that zone. -/
structure StaticZone (h : Hhdm) (k₀ : Kmem) (s : Ipc) (zone other : Option ℕ) (live : List Word) :
    Prop where
  pageZero : ¬ s.kern.kmem.pmm.Free 0
  used : ∀ n, s.kern.kmem.pmm.Free n → k₀.pmm.Free n
  apart : ∀ z, other = some z → z < s.kern.zoneStore.zoneCount
  nodup : live.Nodup
  zone : (zone = none ∧ live = []) ∨ ∃ z pages free, zone = some z ∧
    z < s.kern.zoneStore.zoneCount ∧ other ≠ some z ∧
    ZoneOk h s.kern.kmem pages (s.kern.zoneStore.zones z) free {m | m ∈ live} ∧
    ∀ n ∈ pages, k₀.pmm.Free n

section Zone
variable {h : Hhdm} {k₀ : Kmem} {s s' : Ipc} {zone other : Option ℕ} {live : List Word}

/-- It depends on the memory and the zones only. -/
theorem StaticZone.congr (hz : StaticZone h k₀ s zone other live)
    (hk : s'.kern.kmem = s.kern.kmem) (hst : s'.kern.zoneStore = s.kern.zoneStore) :
    StaticZone h k₀ s' zone other live := by
  refine ⟨hk ▸ hz.pageZero, hk ▸ hz.used, ?_, hz.nodup, ?_⟩
  · rw [hst]
    exact hz.apart
  · rw [hk, hst]
    exact hz.zone

theorem Ipc.getZone_frame {size : Word} {z : Option ℕ} (hg : s.getZone zone size = (z, s')) :
    ∃ st, s' = { s with kern := { s.kern with zoneStore := st } } := by
  unfold Ipc.getZone at hg
  cases zone with
  | some z1 =>
    cases hg
    exact ⟨_, rfl⟩
  | none =>
    cases hg
    exact ⟨_, rfl⟩

/-- What `zinit` leaves alone: the zones that exist, and how many more there are. -/
theorem zinit_old {st st' : ZoneStore} {size max : Word} {z : Option ℕ}
    (hi : zinit st size max = (z, st')) : st.zoneCount ≤ st'.zoneCount ∧
      (∀ n, n < st.zoneCount → st'.zones n = st.zones n) ∧
      ∀ n, z = some n → n = st.zoneCount ∧ n < st'.zoneCount := by
  by_cases hmax : zoneMax ≤ st.zoneCount
  · rw [zinit, if_pos hmax] at hi
    cases hi
    exact ⟨Nat.le_refl _, fun _ _ => rfl, fun n hn => by cases hn⟩
  · rw [zinit, if_neg hmax] at hi
    cases hi
    refine ⟨Nat.le_succ _, fun n hn => Function.update_of_ne (Nat.ne_of_lt hn) _ _, fun n hn => ?_⟩
    cases hn
    exact ⟨rfl, Nat.lt_succ_self _⟩

/-- The first use makes the zone, with nothing handed out. -/
theorem StaticZone.get (hz : StaticZone h k₀ s zone other live) {size : Word} {z : Option ℕ}
    (h8 : 8 ≤ (((if size < 8 then 8 else size)+(8-1)) &&& ~~~(8-1) : Word).toNat)
    (h4096 : (((if size < 8 then 8 else size)+(8-1)) &&& ~~~(8-1) : Word).toNat ≤ 4096)
    (hg : s.getZone zone size = (z, s')) : StaticZone h k₀ s' z other live := by
  unfold Ipc.getZone at hg
  cases zone with
  | some z1 =>
    cases hg
    exact hz
  | none =>
    have hlive : live = [] := by
      rcases hz.zone with ⟨_, hl⟩ | ⟨z1, _, _, h1, _⟩
      · exact hl
      · cases h1
    obtain ⟨r, st, hi⟩ : ∃ r st, zinit s.kern.zoneStore size 0 = (r, st) := ⟨_, _, rfl⟩
    simp only [hi] at hg
    cases hg
    obtain ⟨hle, hold, hnew⟩ := zinit_old hi
    refine ⟨hz.pageZero, hz.used, fun n hn => (hz.apart n hn).trans_le hle, hz.nodup, ?_⟩
    cases z with
    | none => exact Or.inl ⟨rfl, hlive⟩
    | some z =>
      obtain ⟨hzc, hlt⟩ := hnew z rfl
      refine Or.inr ⟨z, ∅, [], rfl, hlt, fun ho => ?_, ?_, by simp⟩
      · have := hz.apart z ho
        omega
      · have hzone := zinit_zone (congrArg Prod.fst hi)
        rw [hi] at hzone
        change st.zones z = _ at hzone
        have hset : {m | m ∈ live} = (∅ : Set Word) := by simp [hlive]
        rw [hset]
        change ZoneOk h s.kern.kmem ∅ (st.zones z) [] ∅
        rw [hzone]
        exact zoneOk_new _ _ h8 h4096 rfl

/-- The first use of another zone. -/
theorem StaticZone.getOther (hz : StaticZone h k₀ s zone other live) {size : Word} {z : Option ℕ}
    (hg : s.getZone other size = (z, s')) : StaticZone h k₀ s' zone z live := by
  unfold Ipc.getZone at hg
  cases other with
  | some z1 =>
    cases hg
    exact hz
  | none =>
    obtain ⟨r, st, hi⟩ : ∃ r st, zinit s.kern.zoneStore size 0 = (r, st) := ⟨_, _, rfl⟩
    simp only [hi] at hg
    cases hg
    obtain ⟨hle, hold, hnew⟩ := zinit_old hi
    refine ⟨hz.pageZero, hz.used, fun n hn => (hnew n hn).2, hz.nodup, ?_⟩
    rcases hz.zone with hnone | ⟨z1, pages, free, hz1, hlt, _, hok, hp⟩
    · exact Or.inl hnone
    refine Or.inr ⟨z1, pages, free, hz1, hlt.trans_le hle, fun ho => ?_, ?_, hp⟩
    · have := (hnew z1 ho).1
      omega
    · change ZoneOk h s.kern.kmem pages (st.zones z1) free _
      rw [hold z1 hlt]
      exact hok

/-- An element handed out was not in use before. -/
theorem StaticZone.alloc {z : ℕ} (hz : StaticZone h k₀ s (some z) other live) {e : Word}
    (ha : s.zalloc h z = (e, s')) :
    (e = 0 ∧ StaticZone h k₀ s' (some z) other live) ∨
    (e ≠ 0 ∧ e ∉ live ∧ StaticZone h k₀ s' (some z) other (e :: live)) := by
  rcases hz.zone with ⟨hnone, _⟩ | ⟨z1, pages, free, hz1, hlt, hne, hok, hpages⟩
  · cases hnone
  obtain rfl : z = z1 := Option.some.inj hz1
  obtain ⟨e1, zone, kmem, he⟩ : ∃ e1 zone kmem,
    zalloc h (s.kern.zoneStore.zones z) s.kern.kmem = (e1, zone, kmem) := ⟨_, _, _, rfl⟩
  simp only [Ipc.zalloc, he] at ha
  cases ha
  rcases zalloc_spec hok hz.pageZero he with
    ⟨rfl, rfl, rfl⟩ | ⟨he0, hel, _, _, pages', free', hok', hgr, _⟩
  · refine Or.inl ⟨rfl, hz.congr rfl ?_⟩
    simp [Ipc.setZone, ZoneStore.set]
  · refine Or.inr ⟨he0, hel, fun hf => hz.pageZero ((hgr.free 0).mp hf).1,
      fun n hn => hz.used n ((hgr.free n).mp hn).1, hz.apart, List.nodup_cons.mpr ⟨hel, hz.nodup⟩,
      Or.inr ⟨z, pages', free', rfl, hlt, hne, ?_, fun n hn => ?_⟩⟩
    · have hset : {x | x ∈ e :: live} = insert e {x | x ∈ live} := by
        ext x
        simp
      rw [hset]
      change ZoneOk h kmem pages' ((s.kern.zoneStore.set z zone).zones z) free' _
      rw [ZoneStore.set_zones]
      exact hok'
    · rcases hgr.fresh n hn with hold | hfree
      · exact hpages n hold
      · exact hz.used n hfree

/-- An element in use is taken back. -/
theorem StaticZone.free {z : ℕ} (hz : StaticZone h k₀ s (some z) other live) {e : Word}
    (he : e ∈ live) : e ≠ 0 ∧ StaticZone h k₀ (s.zfree z e) (some z) other (live.erase e) := by
  rcases hz.zone with ⟨hnone, _⟩ | ⟨z1, pages, free, hz1, hlt, hne, hok, hpages⟩
  · cases hnone
  obtain rfl : z = z1 := Option.some.inj hz1
  obtain ⟨zone, kmem, hf⟩ : ∃ zone kmem,
    zfree (s.kern.zoneStore.zones z) e s.kern.kmem = (zone, kmem) := ⟨_, _, rfl⟩
  obtain ⟨_, hpmm, hok', _⟩ := zfree_spec hok he hf
  have hs : s.zfree z e = s.setZone z zone kmem := by
    simp only [Ipc.zfree, hf]
  rw [hs]
  refine ⟨hok.live_ne_zero he, ?_, fun n hn => ?_, hz.apart, hz.nodup.erase e,
    Or.inr ⟨z, pages, e :: free, rfl, hlt, hne, ?_, hpages⟩⟩
  · change ¬ kmem.pmm.Free 0
    rw [hpmm]
    exact hz.pageZero
  · change kmem.pmm.Free n at hn
    rw [hpmm] at hn
    exact hz.used n hn
  · have hset : {x | x ∈ live.erase e} = {x | x ∈ live} \ {e} := by
      ext x
      simp [hz.nodup.mem_erase_iff, and_comm]
    rw [hset]
    change ZoneOk h kmem pages ((s.kern.zoneStore.set z zone).zones z) _ _
    rw [ZoneStore.set_zones]
    exact hok'

/-- An element returned to the other zone is linked through memory outside this one. -/
theorem StaticZone.freeOther {z : ℕ} (hz : StaticZone h k₀ s zone (some z) live) {e : Word}
    (hmem : ∀ x, x-e < 8 → ¬ k₀.pmm.Free (frameOf h x)) :
    StaticZone h k₀ (s.zfree z e) zone (some z) live := by
  have hstore (x : Word) (hx : ¬ x-e < 8) :
      (s.zfree z e).kern.kmem.mem x = s.kern.kmem.mem x := by
    change store64 s.kern.kmem.mem e _ x = _
    simp only [store64, hx, ↓reduceIte]
  refine ⟨hz.pageZero, hz.used, hz.apart, hz.nodup, ?_⟩
  rcases hz.zone with hnone | ⟨z1, pages, free, hz1, hlt, hne, hok, hpages⟩
  · exact Or.inl hnone
  refine Or.inr ⟨z1, pages, free, hz1, hlt, hne, ?_, hpages⟩
  have hzz : z1 ≠ z := by
    rintro rfl
    exact hne rfl
  have hzone : (s.zfree z e).kern.zoneStore.zones z1 = s.kern.zoneStore.zones z1 :=
    ZoneStore.set_zones_of_ne _ _ hzz
  rw [hzone]
  refine hok.congr (fun n _ hf => hf) fun x hx => hstore x fun hlt => ?_
  exact hmem x hlt (hpages _ hx)

end Zone
end Dana
