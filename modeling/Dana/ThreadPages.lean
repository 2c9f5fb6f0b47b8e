import Dana.ThreadLife
import Dana.VmRest

/-! The pages that threads hold, in a kernel where others take and give back pages too. -/
namespace Dana
open ByteMem Sched Transition

/-- The physical page of a thread's kernel stack. -/
def stackFrame (s : Sched) (t : Word) : ℕ := pageOf (s.threads t).kernelStackPhys

/-- The zone of threads has `pages` and has handed out `live`; or there is none yet. -/
def ThreadZone (h : Hhdm) (pages : Set ℕ) (k : Kern) (live : Set Word) : Prop :=
  (k.threadZone = none ∧ live = ∅ ∧ pages = ∅) ∨
    ∃ z free, k.threadZone = some z ∧ z < k.zoneStore.zoneCount ∧
      (k.zoneStore.zones z).elemSize = sizeofThread ∧
      ZoneOk h k.kmem pages (k.zoneStore.zones z) free live

/-- Each thread has one reference and a page of its own for a stack, none of `pages`. -/
structure StackPages (pages : Set ℕ) (k : Kern) (threads : List Word) : Prop where
  nodup : threads.Nodup
  ref : ∀ t ∈ threads, (k.sched.threads t).refCount = 1
  stack : ∀ t ∈ threads, 0 < stackFrame k.sched t ∧ stackFrame k.sched t < pmmMaxPages ∧
    ¬ k.kmem.pmm.Free (stackFrame k.sched t) ∧ stackFrame k.sched t ∉ pages
  apart : ∀ t ∈ threads, ∀ u ∈ threads, stackFrame k.sched t = stackFrame k.sched u → t = u

structure ThreadPages (h : Hhdm) (pages : Set ℕ) (k : Kern) (threads : List Word) : Prop where
  pageZero : ¬ k.kmem.pmm.Free 0
  zone : ThreadZone h pages k {t | t ∈ threads}
  owned : StackPages pages k threads

/-- The thread has its stack page still, with the same bytes in it, and the scheduler alone has
changed its fields. -/
structure StackKept (h : Hhdm) (k k' : Kern) (t : Word) : Prop where
  body : k'.sched.body t = k.sched.body t
  mem : ∀ x, frameOf h x = stackFrame k.sched t → k'.kmem.mem x = k.kmem.mem x

/-- The zones that are not of threads are as before, and the zone of threads stays, or is new. -/
structure ThreadZoneOnly (k k' : Kern) : Prop where
  count : k.zoneStore.zoneCount ≤ k'.zoneStore.zoneCount
  zones : ∀ z < k.zoneStore.zoneCount, k.threadZone ≠ some z →
    k'.zoneStore.zones z = k.zoneStore.zones z
  zone : ∀ z, k'.threadZone = some z → k.threadZone = some z ∨ k.zoneStore.zoneCount ≤ z

/-- What a call on threads does to the rest of the kernel. -/
structure ThreadMove (h : Hhdm) (pages pages' : Set ℕ) (k k' : Kern) (threads threads' : List Word) :
    Prop where
  inv : ThreadPages h pages' k' threads'
  rest : RestStep h (heldPages pages k.sched threads) (heldPages pages' k'.sched threads') k.kmem k'.kmem
  zones : ThreadZoneOnly k k'
  kept : ∀ t ∈ threads, t ∈ threads' → StackKept h k k' t

section Pages
variable {h : Hhdm} {pages pages' : Set ℕ} {k k' : Kern} {threads : List Word} {t : Word}

theorem body_savedRsp {s : Sched} : (s.body t).savedRsp = (s.threads t).savedRsp := rfl

theorem stackFrame_body {s s' : Sched} (hb : s'.body t = s.body t) :
    stackFrame s' t = stackFrame s t := by
  rw [stackFrame, stackFrame, ← body_kernelStackPhys, hb, body_kernelStackPhys]

theorem StackKept.frame (hk : StackKept h k k' t) : stackFrame k'.sched t = stackFrame k.sched t :=
  stackFrame_body hk.body

theorem ThreadZoneOnly.refl (k : Kern) : ThreadZoneOnly k k :=
  ⟨Nat.le_refl _, fun _ _ _ => rfl, fun _ hz => Or.inl hz⟩

theorem ThreadZone.ne_null {live : Set Word} (hZ : ThreadZone h pages k live) (ht : t ∈ live) :
    t ≠ threadNull := by
  rcases hZ with ⟨_, hnil, _⟩ | ⟨z, free, _, _, _, hok⟩
  · rw [hnil] at ht
    exact ht.elim
  · exact hok.live_ne_zero ht

theorem ThreadZone.used {live : Set Word} (hZ : ThreadZone h pages k live) {n : ℕ} (hn : n ∈ pages) :
    ¬ k.kmem.pmm.Free n := by
  rcases hZ with ⟨_, _, hnil⟩ | ⟨z, free, _, _, _, hok⟩
  · rw [hnil] at hn
    exact hn.elim
  · exact (hok.pages_used n hn).2.2

/-- All the pages are in use. -/
theorem ThreadPages.used (hT : ThreadPages h pages k threads) :
    ∀ n ∈ heldPages pages k.sched threads, ¬ k.kmem.pmm.Free n := by
  rintro n (hn | ⟨t, ht, rfl⟩)
  · exact hT.zone.used hn
  · exact (hT.owned.stack t ht).2.2.1

/-- The bytes of a thread are in pages of the zone. -/
theorem ThreadPages.thread_frame (hT : ThreadPages h pages k threads) (ht : t ∈ threads) {x : Word}
    (hx : x-t < sizeofThread) : frameOf h x ∈ pages := by
  rcases hT.zone with ⟨_, hnil, _⟩ | ⟨z, free, _, _, hsize, hok⟩
  · have : t ∈ {t | t ∈ threads} := ht
    rw [hnil] at this
    exact this.elim
  · exact slot_frame hok.pages_lt (hok.live_slot t ht) (hsize ▸ hx)

/-- Two threads share no byte. -/
theorem ThreadPages.thread_apart (hT : ThreadPages h pages k threads) (ht : t ∈ threads) {u x : Word}
    (hu : u ∈ threads) (hx : x-t < sizeofThread) (hx' : x-u < sizeofThread) : t = u := by
  rcases hT.zone with ⟨_, hnil, _⟩ | ⟨z, free, _, _, hsize, hok⟩
  · have : t ∈ {t | t ∈ threads} := ht
    rw [hnil] at this
    exact this.elim
  · exact slot_unique hok.pages_lt (hok.live_slot t ht) (hok.live_slot u hu) (hsize ▸ hx) (hsize ▸ hx')

/-- Others have taken and given back pages and have written to theirs, and the zones of others
have changed. -/
theorem ThreadPages.congr (hT : ThreadPages h pages k threads) {kmem : Kmem} {st : ZoneStore}
    (hfree : ∀ n, n = 0 ∨ n ∈ heldPages pages k.sched threads → ¬ kmem.pmm.Free n)
    (hmem : ∀ x, frameOf h x ∈ pages → kmem.mem x = k.kmem.mem x)
    (hcount : k.zoneStore.zoneCount ≤ st.zoneCount)
    (hzone : ∀ z, k.threadZone = some z → st.zones z = k.zoneStore.zones z) :
    ThreadPages h pages { k with kmem := kmem, zoneStore := st } threads := by
  obtain ⟨hnodup, href, hstack, hapart⟩ := hT.owned
  refine ⟨hfree 0 (Or.inl rfl), ?_, hnodup, href, fun t ht => ?_, hapart⟩
  · rcases hT.zone with hnone | ⟨z, free, hz, hlt, hsize, hok⟩
    · exact Or.inl hnone
    · refine Or.inr ⟨z, free, hz, hlt.trans_le hcount, ?_, ?_⟩
      · change (st.zones z).elemSize = _
        rw [hzone z hz, hsize]
      · change ZoneOk h kmem pages (st.zones z) free _
        rw [hzone z hz]
        exact hok.congr (fun n hn hf => absurd hf (hfree n (Or.inr (Or.inl hn)))) hmem
  · obtain ⟨hpos, hlt, _, hout⟩ := hstack t ht
    exact ⟨hpos, hlt, hfree _ (Or.inr (Or.inr ⟨t, ht, rfl⟩)), hout⟩

/-- The zone has grown, and the threads are as before. -/
theorem StackPages.regrown (hS : StackPages pages k threads)
    (hfresh : ∀ n ∈ pages', n ∈ pages ∨ k.kmem.pmm.Free n)
    (hfree : ∀ n, k'.kmem.pmm.Free n → k.kmem.pmm.Free n)
    (hbody : ∀ t ∈ threads, k'.sched.body t = k.sched.body t) : StackPages pages' k' threads := by
  have hframe (t : Word) (ht : t ∈ threads) : stackFrame k'.sched t = stackFrame k.sched t :=
    stackFrame_body (hbody t ht)
  refine ⟨hS.nodup, fun t ht => ?_, fun t ht => ?_, fun t ht u hu he => ?_⟩
  · rw [← hS.ref t ht, ← body_refCount, ← body_refCount, hbody t ht]
  · obtain ⟨hpos, hlt, hused, hout⟩ := hS.stack t ht
    rw [hframe t ht]
    exact ⟨hpos, hlt, fun hf => hused (hfree _ hf), fun hn => (hfresh _ hn).elim hout hused⟩
  · rw [hframe t ht, hframe u hu] at he
    exact hS.apart t ht u hu he

/-- One more thread, with a page nobody has. -/
theorem StackPages.cons (hS : StackPages pages k threads) (ht : t ∉ threads)
    (href : (k.sched.threads t).refCount = 1)
    (hstack : 0 < stackFrame k.sched t ∧ stackFrame k.sched t < pmmMaxPages ∧
      ¬ k.kmem.pmm.Free (stackFrame k.sched t) ∧ stackFrame k.sched t ∉ pages)
    (hnew : ∀ u ∈ threads, stackFrame k.sched u ≠ stackFrame k.sched t) :
    StackPages pages k (t :: threads) := by
  refine ⟨List.nodup_cons.mpr ⟨ht, hS.nodup⟩, fun u hu => ?_, fun u hu => ?_, fun u hu v hv he => ?_⟩
  · rcases List.mem_cons.mp hu with rfl | hu
    · exact href
    · exact hS.ref u hu
  · rcases List.mem_cons.mp hu with rfl | hu
    · exact hstack
    · exact hS.stack u hu
  · rcases List.mem_cons.mp hu with rfl | hu
    · rcases List.mem_cons.mp hv with rfl | hv
      · rfl
      · exact absurd he.symm (hnew v hv)
    · rcases List.mem_cons.mp hv with hvt | hv
      · exact absurd (hvt ▸ he) (hnew u hu)
      · exact hS.apart u hu v hv he

/-- One thread less. Its page may be free. -/
theorem StackPages.erase (hS : StackPages pages k threads) (ht : t ∈ threads)
    (hfree : ∀ n, n ≠ stackFrame k.sched t → k'.kmem.pmm.Free n → k.kmem.pmm.Free n)
    (hbody : ∀ x, x ≠ t → k'.sched.body x = k.sched.body x) :
    StackPages pages k' (threads.erase t) := by
  have hmem (x : Word) : x ∈ threads.erase t ↔ x ≠ t ∧ x ∈ threads := hS.nodup.mem_erase_iff
  have hframe (x : Word) (hx : x ≠ t) : stackFrame k'.sched x = stackFrame k.sched x :=
    stackFrame_body (hbody x hx)
  refine ⟨hS.nodup.erase t, fun x hx => ?_, fun x hx => ?_, fun x hx u hu he => ?_⟩
  · obtain ⟨hxt, hx⟩ := (hmem x).mp hx
    rw [← hS.ref x hx, ← body_refCount, ← body_refCount, hbody x hxt]
  · obtain ⟨hxt, hx⟩ := (hmem x).mp hx
    obtain ⟨hpos, hlt, hused, hout⟩ := hS.stack x hx
    have hne : stackFrame k.sched x ≠ stackFrame k.sched t := fun hc => hxt (hS.apart x hx t ht hc)
    rw [hframe x hxt]
    exact ⟨hpos, hlt, fun hf => hused (hfree _ hne hf), hout⟩
  · obtain ⟨hxt, hx⟩ := (hmem x).mp hx
    obtain ⟨hut, hu⟩ := (hmem u).mp hu
    rw [hframe x hxt, hframe u hut] at he
    exact hS.apart x hx u hu he

/-- The scheduler moves threads about. -/
theorem ThreadPages.withSched (hT : ThreadPages h pages k threads) {s : Sched}
    (hb : s.body = k.sched.body) :
    ThreadMove h pages pages k { k with sched := s } threads threads := by
  refine ⟨⟨hT.pageZero, hT.zone, hT.owned.regrown (fun n hn => Or.inl hn) (fun n hf => hf)
    fun t _ => congrFun hb t⟩, ?_, ⟨Nat.le_refl _, fun _ _ _ => rfl, fun _ hz => Or.inl hz⟩,
    fun t _ _ => ⟨congrFun hb t, fun _ _ => rfl⟩⟩
  change RestStep h _ (heldPages pages s threads) k.kmem k.kmem
  rw [heldPages_body hb]
  exact RestStep.refl hT.used

/-- A thread writes to its stack. -/
theorem ThreadPages.write (hT : ThreadPages h pages k threads) (ht : t ∈ threads) {m : Mem}
    (hm : ∀ x, frameOf h x ≠ stackFrame k.sched t → m x = k.kmem.mem x) :
    ThreadPages h pages { k with kmem := { k.kmem with mem := m } } threads ∧
    RestStep h (heldPages pages k.sched threads) (heldPages pages k.sched threads) k.kmem
      { k.kmem with mem := m } ∧
    ∀ u ∈ threads, u ≠ t → StackKept h k { k with kmem := { k.kmem with mem := m } } u := by
  refine ⟨hT.congr ?_ (fun x hx => hm x ?_) (Nat.le_refl _) fun _ _ => rfl,
    RestStep.write hT.used fun x hx => hm x ?_, fun u hu hne => ⟨rfl, fun x hx => hm x ?_⟩⟩
  · rintro n (rfl | hn)
    · exact hT.pageZero
    · exact hT.used n hn
  · intro hc
    exact (hT.owned.stack t ht).2.2.2 (hc ▸ hx)
  · intro hc
    exact hx (Or.inr ⟨t, ht, hc.symm⟩)
  · intro hc
    exact hne (hT.owned.apart u hu t ht (hx.symm.trans hc))

/-- The zone of threads is there, or made now, or cannot be made. -/
theorem ThreadPages.getZone (hT : ThreadPages h pages k threads) {o : Option ℕ} {k1 : Kern}
    (hg : getThreadZone k = (o, k1)) :
    ThreadPages h pages k1 threads ∧ ThreadZoneOnly k k1 ∧ k1.threadZone = o ∧ k1.kmem = k.kmem ∧
      k1.sched = k.sched := by
  unfold getThreadZone at hg
  cases hz : k.threadZone with
  | some z =>
    rw [hz] at hg
    obtain ⟨rfl, rfl⟩ := Prod.mk.inj hg
    exact ⟨hT, ThreadZoneOnly.refl k, hz, rfl, rfl⟩
  | none =>
    obtain ⟨r, st, hi⟩ : ∃ r st, zinit k.zoneStore sizeofThread 0 = (r, st) := ⟨_, _, rfl⟩
    rw [hz] at hg
    simp only [hi] at hg
    obtain ⟨rfl, rfl⟩ := Prod.mk.inj hg
    obtain ⟨hle, hold, hnew⟩ := zinit_old hi
    -- without a zone no element has been handed out, so there is no thread
    obtain ⟨hlive, hpages⟩ : {t | t ∈ threads} = ∅ ∧ pages = ∅ := by
      rcases hT.zone with ⟨_, h1, h2⟩ | ⟨z, free, hz', _⟩
      · exact ⟨h1, h2⟩
      · rw [hz] at hz'
        cases hz'
    obtain ⟨hnodup, href, hstack, hapart⟩ := hT.owned
    refine ⟨⟨hT.pageZero, ?_, hnodup, href, hstack, hapart⟩,
      ⟨hle, fun z hlt _ => hold z hlt, fun z hz' => Or.inr (hnew z hz').1.ge⟩, rfl, rfl, rfl⟩
    cases r with
    | none => exact Or.inl ⟨rfl, hlive, hpages⟩
    | some z =>
      have hzone := zinit_zone (congrArg Prod.fst hi)
      rw [hi] at hzone
      refine Or.inr ⟨z, [], rfl, (hnew z rfl).2, ?_, ?_⟩
      · change (st.zones z).elemSize = _
        rw [hzone]
        rfl
      · rw [hlive, hpages]
        change ZoneOk h k.kmem ∅ (st.zones z) [] ∅
        rw [hzone]
        exact zoneOk_new _ _ (by decide) (by decide) rfl

/-- An element that the zone hands out and takes back, or keeps handed out. -/
theorem ThreadZoneOnly.set {k1 : Kern} (hz : ThreadZoneOnly k k1) {z : ℕ}
    (ho : k1.threadZone = some z) {k2 : Kern} (zone : Zone) (hst : k2.zoneStore = k1.zoneStore.set z zone)
    (hz2 : k2.threadZone = k1.threadZone) : ThreadZoneOnly k k2 := by
  refine ⟨?_, fun z' hlt hne => ?_, fun z' hz' => hz.zone z' (hz2 ▸ hz')⟩
  · rw [hst]
    exact hz.count
  · rw [hst, ZoneStore.set_zones_of_ne]
    · exact hz.zones z' hlt hne
    · rintro rfl
      rcases hz.zone _ ho with hc | hc
      · exact hne hc
      · omega

/-- The frames of the stacks, with one new thread. -/
theorem heldPages_cons {s s' : Sched} {pa : Word} (hphys : (s'.threads t).kernelStackPhys = pa)
    (hbody : ∀ x ∈ threads, s'.body x = s.body x) :
    heldPages pages s' (t :: threads) = insert (pageOf pa) (heldPages pages s threads) := by
  have hpx (x : Word) (hx : x ∈ threads) : stackFrame s' x = stackFrame s x :=
    stackFrame_body (hbody x hx)
  ext n
  constructor
  · rintro (hn | ⟨u, hu, rfl⟩)
    · exact Or.inr (Or.inl hn)
    · rcases List.mem_cons.mp hu with rfl | hu
      · exact Or.inl (by rw [hphys])
      · exact Or.inr (Or.inr ⟨u, hu, (hpx u hu).symm⟩)
  · rintro (rfl | hn | ⟨u, hu, rfl⟩)
    · exact Or.inr ⟨t, List.mem_cons_self, by rw [hphys]⟩
    · exact Or.inl hn
    · exact Or.inr ⟨u, List.mem_cons_of_mem _ hu, hpx u hu⟩

/-- The frames of the stacks, with one thread gone. -/
theorem heldPages_drop (hT : ThreadPages h pages k threads) (ht : t ∈ threads) {s : Sched}
    (hbody : ∀ x, x ≠ t → s.body x = k.sched.body x) :
    heldPages pages s (threads.erase t) = heldPages pages k.sched threads \ {stackFrame k.sched t} := by
  have hmem (x : Word) : x ∈ threads.erase t ↔ x ≠ t ∧ x ∈ threads := hT.owned.nodup.mem_erase_iff
  ext n
  constructor
  · rintro (hn | ⟨u, hu, rfl⟩)
    · refine ⟨Or.inl hn, ?_⟩
      rintro rfl
      exact (hT.owned.stack t ht).2.2.2 hn
    · obtain ⟨hut, hu⟩ := (hmem u).mp hu
      have hf := stackFrame_body (hbody u hut)
      exact ⟨Or.inr ⟨u, hu, hf.symm⟩, fun he => hut (hT.owned.apart u hu t ht (hf.symm.trans he))⟩
  · rintro ⟨hn | ⟨u, hu, rfl⟩, hne⟩
    · exact Or.inl hn
    · have hut : u ≠ t := by
        rintro rfl
        exact hne rfl
      exact Or.inr ⟨u, (hmem u).mpr ⟨hut, hu⟩, stackFrame_body (hbody u hut)⟩

theorem ThreadZoneOnly.trans {k1 : Kern} (h1 : ThreadZoneOnly k k1) (h2 : ThreadZoneOnly k1 k') :
    ThreadZoneOnly k k' := by
  refine ⟨h1.count.trans h2.count, fun z hlt hne => ?_, fun z hz => ?_⟩
  · rw [h2.zones z (hlt.trans_le h1.count), h1.zones z hlt hne]
    intro hz
    rcases h1.zone z hz with hc | hc
    · exact hne hc
    · omega
  · rcases h2.zone z hz with hz | hle
    · exact h1.zone z hz
    · exact Or.inr (h1.count.trans hle)

/-- A call that first looks for the zone. -/
theorem ThreadMove.of_zone {k1 : Kern} {threads' : List Word} (hz : ThreadZoneOnly k k1)
    (hkmem : k1.kmem = k.kmem) (hsched : k1.sched = k.sched)
    (hM : ThreadMove h pages pages' k1 k' threads threads') :
    ThreadMove h pages pages' k k' threads threads' := by
  refine ⟨hM.inv, ?_, hz.trans hM.zones, fun t ht ht' => ?_⟩
  · rw [← hkmem, ← hsched]
    exact hM.rest
  · obtain ⟨hbody, hmem⟩ := hM.kept t ht ht'
    rw [hsched] at hbody hmem
    rw [hkmem] at hmem
    exact ⟨hbody, hmem⟩

theorem StackKept.trans {k1 : Kern} (h1 : StackKept h k k1 t) (h2 : StackKept h k1 k' t) :
    StackKept h k k' t := by
  refine ⟨h2.body.trans h1.body, fun x hx => ?_⟩
  exact (h2.mem x (hx.trans h1.frame.symm)).trans (h1.mem x hx)

/-- After the call, one that makes and frees no thread. -/
theorem ThreadMove.then {k1 : Kern} {pages1 : Set ℕ} {threads' : List Word}
    (h1 : ThreadMove h pages pages1 k k1 threads threads')
    (h2 : ThreadMove h pages1 pages' k1 k' threads' threads') :
    ThreadMove h pages pages' k k' threads threads' :=
  ⟨h2.inv, h1.rest.trans h2.rest, h1.zones.trans h2.zones,
    fun t ht ht' => (h1.kept t ht ht').trans (h2.kept t ht' ht')⟩

/-- What `zalloc` does to the zone of threads. -/
theorem ThreadPages.zalloc (hT : ThreadPages h pages k threads) {z : ℕ} (hz : k.threadZone = some z)
    {zone : Zone} {kmem : Kmem} (ha : zalloc h (k.zoneStore.zones z) k.kmem = (t, zone, kmem)) :
    z < k.zoneStore.zoneCount ∧
    ((t = 0 ∧ zone = k.zoneStore.zones z ∧ kmem = k.kmem) ∨
    (t ≠ threadNull ∧ t ∉ threads ∧ zone.elemSize = sizeofThread ∧ ∃ pages' free,
      ZoneOk h kmem pages' zone free (insert t {t | t ∈ threads}) ∧ Grown h k.kmem kmem pages pages')) := by
  rcases hT.zone with ⟨hnone, _⟩ | ⟨z', free, hz', hlt, hsize, hok⟩
  · cases hz.symm.trans hnone
  obtain rfl := Option.some.inj (hz.symm.trans hz')
  refine ⟨hlt, ?_⟩
  rcases zalloc_spec hok hT.pageZero ha with hfail | ⟨h1, h2, h3, _, pages', free', h4, h5, _⟩
  · exact Or.inl hfail
  · exact Or.inr ⟨h1, h2, h3.trans hsize, pages', free', h4, h5⟩

/-- The pages of the zone have grown, and a stack is none of them. -/
theorem ThreadPages.not_grown (hT : ThreadPages h pages k threads) {kmem : Kmem}
    (hg : Grown h k.kmem kmem pages pages') (ht : t ∈ threads) : stackFrame k.sched t ∉ pages' := by
  obtain ⟨_, _, hused, hout⟩ := hT.owned.stack t ht
  exact fun hn => (hg.fresh _ hn).elim hout hused

/-- There is no page for a stack: the zone keeps what it has taken, and the element. -/
theorem ThreadPages.create_none (hT : ThreadPages h pages k threads) {z : ℕ} (hz : k.threadZone = some z)
    {zone : Zone} {kmem : Kmem} (hlt : z < k.zoneStore.zoneCount) (hnew : t ∉ threads)
    (hsize : zone.elemSize = sizeofThread) {free : List Word}
    (hok : ZoneOk h kmem pages' zone free (insert t {t | t ∈ threads}))
    (hg : Grown h k.kmem kmem pages pages') {zone' : Zone} {kmem' : Kmem} {s : Sched}
    (hf : zfree zone t kmem = (zone', kmem')) (hs : ∀ x ∈ threads, s.threads x = k.sched.threads x)
    (hk : k' = { k with kmem := kmem', zoneStore := k.zoneStore.set z zone', sched := s }) :
    ThreadMove h pages pages' k k' threads threads := by
  obtain ⟨hsize', hpmm, hok', hmem⟩ := zfree_spec hok (Set.mem_insert _ _) hf
  -- the element was nobody's, so without it the live ones are the threads that there were
  have hlive : insert t {x | x ∈ threads} \ {t} = {x | x ∈ threads} := by
    rw [Set.insert_sdiff_of_mem _ (Set.mem_singleton t)]
    exact Set.sdiff_singleton_eq_self hnew
  have hbody (x : Word) (hx : x ∈ threads) : s.body x = k.sched.body x := congrArg Thread.body (hs x hx)
  have hfree (n : ℕ) : kmem'.pmm.Free n ↔ k.kmem.pmm.Free n ∧ n ∉ pages' := by
    rw [hpmm]
    exact hg.free n
  have hS : StackPages pages' k' threads := by
    rw [hk]
    exact hT.owned.regrown hg.fresh (fun n hf => ((hfree n).mp hf).1) hbody
  have hheld : heldPages pages' k'.sched threads = heldPages pages' k.sched threads := by
    unfold heldPages
    congr 1
    ext n
    refine exists_congr fun x => and_congr_right fun hx => ?_
    rw [hk, hs x hx]
  rw [hlive] at hok'
  rw [hk] at hS hheld ⊢
  refine ⟨⟨fun hf => hT.pageZero ((hfree 0).mp hf).1, ?_, hS⟩, ?_, ?_, fun x hx _ => ?_⟩
  · refine Or.inr ⟨z, t :: free, hz, hlt, ?_, ?_⟩
    · rw [ZoneStore.set_zones, hsize', hsize]
    · rw [ZoneStore.set_zones]
      exact hok'
  · rw [hheld]
    -- the pages that the zone grew by are held, and the free list is written into them
    have h1 := RestStep.grown hg hT.used
    refine h1.trans ?_
    have hpmm' : kmem' = { kmem with mem := kmem'.mem } := by rw [← hpmm]
    rw [hpmm']
    exact RestStep.write h1.used fun x hx => hmem x fun hn => hx (Or.inl hn)
  · exact (ThreadZoneOnly.refl k).set hz zone' rfl rfl
  · refine ⟨hbody x hx, fun y hy => ?_⟩
    have hout : frameOf h y ∉ pages' := hy ▸ hT.not_grown hg hx
    exact (hmem y hout).trans (hg.mem y hout)

/-- The new thread gets the page `pa` for its stack. -/
theorem ThreadPages.create_some (hT : ThreadPages h pages k threads) {z : ℕ} (hz : k.threadZone = some z)
    {zone : Zone} {kmem : Kmem} (hlt : z < k.zoneStore.zoneCount) (hnew : t ∉ threads)
    (hsize : zone.elemSize = sizeofThread) {free : List Word}
    (hok : ZoneOk h kmem pages' zone free (insert t {t | t ∈ threads}))
    (hg : Grown h k.kmem kmem pages pages') {pa : Word} {pmm : Pmm} {m : Mem}
    (hp : pmmAllocPage kmem.pmm = (pa, pmm)) (hpa : pa ≠ pmmNull)
    (hm : ∀ x, frameOf h x ≠ pageOf pa → m x = kmem.mem x)
    (hs : ∀ x ∈ threads, k'.sched.body x = k.sched.body x) (href : (k'.sched.threads t).refCount = 1)
    (hphys : (k'.sched.threads t).kernelStackPhys = pa) (hk : k'.kmem = ⟨pmm, m⟩)
    (hst : k'.zoneStore = k.zoneStore.set z zone) (htz : k'.threadZone = k.threadZone) :
    ThreadMove h pages pages' k k' threads (t :: threads) := by
  obtain ⟨kmem', st, tz, id, tasks, s⟩ := k'
  dsimp only at hs href hphys hk hst htz
  obtain rfl := hk
  obtain rfl := hst
  obtain rfl := htz
  have h0 : ¬ kmem.pmm.Free 0 := fun hf => hT.pageZero ((hg.free 0).mp hf).1
  obtain ⟨hal, hfp, hiff⟩ := pmmAllocPage_some h0 hp hpa
  -- `pa` was free, so it is no page of the zone and no other stack
  obtain ⟨hkp, hout⟩ := (hg.free _).mp hfp
  have hold (n : ℕ) (hf : pmm.Free n) : k.kmem.pmm.Free n := ((hg.free n).mp ((hiff n).mp hf).1).1
  have hframe : stackFrame s t = pageOf pa := by rw [stackFrame, hphys]
  have hlive : {x | x ∈ t :: threads} = insert t {x | x ∈ threads} := by
    ext x
    simp
  have h1 : RestStep h (heldPages pages k.sched threads) (heldPages pages' k.sched threads) k.kmem kmem :=
    RestStep.grown hg hT.used
  have h2 := RestStep.take (h := h) h1.used h0 hp hpa
  refine ⟨⟨fun hf => hT.pageZero (hold 0 hf), ?_, ?_⟩, ?_, ?_, fun x hx _ => ?_⟩
  · refine Or.inr ⟨z, free, hz, hlt, ?_, ?_⟩
    · rw [ZoneStore.set_zones, hsize]
    · rw [ZoneStore.set_zones, hlive]
      refine hok.congr (fun n _ hf => ((hiff n).mp hf).1) fun x hx => hm x ?_
      intro he
      exact hout (he ▸ hx)
  · refine StackPages.cons (hT.owned.regrown hg.fresh hold hs) hnew href ?_ fun u hu he => ?_
    · dsimp only
      rw [hframe]
      refine ⟨?_, hkp.1, fun hf => ((hiff _).mp hf).2 rfl, hout⟩
      by_contra hc
      obtain hc : pageOf pa = 0 := by omega
      exact h0 (hc ▸ hfp)
    · dsimp only at he
      rw [hframe, stackFrame_body (hs u hu)] at he
      exact (hT.owned.stack u hu).2.2.1 (he ▸ hkp)
  · dsimp only
    rw [heldPages_cons hphys hs]
    exact h1.trans (h2.trans (RestStep.write h2.used fun x hx => hm x fun he => hx (Or.inl he)))
  · exact (ThreadZoneOnly.refl k).set hz zone rfl rfl
  · refine ⟨hs x hx, fun y hy => ?_⟩
    refine (hm y fun he => ?_).trans (hg.mem y (hy ▸ hT.not_grown hg hx))
    exact (hT.owned.stack x hx).2.2.1 (hy ▸ he ▸ hkp)

theorem ThreadPages.create (hT : ThreadPages h pages k threads) {trampoline task entry arg : Word}
    {kr : KernReturn} {r : Option Word}
    (he : threadCreate h trampoline task entry arg k = (kr, r, k')) :
    ∃ pages', ThreadMove h pages pages' k k' threads (r.toList ++ threads) := by
  obtain ⟨o, k1, hg⟩ : ∃ o k1, getThreadZone k = (o, k1) := ⟨_, _, rfl⟩
  obtain ⟨hT1, hzone, ho, hkmem, hsched⟩ := hT.getZone hg
  cases o with
  | none =>
    rw [threadCreate, hg] at he
    cases he
    exact ⟨pages, ThreadMove.of_zone hzone hkmem hsched (hT1.withSched rfl)⟩
  | some z =>
    obtain ⟨t, zone, kmem, ha⟩ : ∃ t zone kmem,
      Dana.zalloc h (k1.zoneStore.zones z) k1.kmem = (t, zone, kmem) := ⟨_, _, _, rfl⟩
    obtain ⟨pa, pmm, hp⟩ : ∃ pa pmm, pmmAllocPage kmem.pmm = (pa, pmm) := ⟨_, _, rfl⟩
    obtain ⟨k2, hk2⟩ : ∃ k2, k2 = Kern.setThread { k1 with
      kmem := { kmem with pmm := pmm }, zoneStore := k1.zoneStore.set z zone } t Thread.zero :=
      ⟨_, rfl⟩
    rw [threadCreate_eq hg ha hp hk2] at he
    obtain ⟨hlt, ⟨rfl, rfl, rfl⟩ | ⟨ht0, hnew, hsize, pages', free, hok, hgrown⟩⟩ := hT1.zalloc ho ha
    · rw [if_pos (show (0 : Word) = threadNull from rfl)] at he
      cases he
      have hstore : k1.zoneStore.set z (k1.zoneStore.zones z) = k1.zoneStore := by
        simp [ZoneStore.set]
      rw [hstore]
      exact ⟨pages, ThreadMove.of_zone hzone hkmem hsched (hT1.withSched rfl)⟩
    rw [if_neg ht0] at he
    by_cases hpa : pa = pmmNull
    · -- no stack: the element goes back to the zone
      have hpmm : pmm = kmem.pmm := pmmAllocPage_none (fun hf =>
        hT1.pageZero ((hgrown.free 0).mp hf).1) (hpa ▸ hp)
      rw [if_pos hpa] at he
      cases he
      refine ⟨pages', ThreadMove.of_zone hzone hkmem hsched (hT1.create_none ho hlt hnew hsize hok
        hgrown (s := k2.sched) rfl (fun x hx => ?_) ?_)⟩
      · rw [hk2]
        refine Function.update_of_ne ?_ _ _
        rintro rfl
        exact hnew hx
      · rw [hk2, hpmm]
        simp only [Kern.setThread, ZoneStore.set_zones, ZoneStore.set_set]
        rfl
    · rw [if_neg hpa] at he
      cases he
      obtain ⟨v, _, href, _, _, hphys, hset⟩ := threadSetup_eq h trampoline task entry arg t pa k2
      have hal := (pmmAllocPage_some (fun hf => hT1.pageZero ((hgrown.free 0).mp hf).1) hp hpa).1
      have hb : (threadSetup h trampoline task entry arg t pa k2).sched.body = Sched.body { k2.sched with
          threads := Function.update k2.sched.threads t v } := by
        rw [hset, schedEnqueue_body]
      have hbt : (threadSetup h trampoline task entry arg t pa k2).sched.body t = v.body := by
        rw [hb]
        exact congrArg Thread.body (Function.update_self ..)
      refine ⟨pages', ThreadMove.of_zone hzone hkmem hsched (hT1.create_some ho hlt hnew hsize hok
        hgrown hp hpa (fun x hx => threadInitStack_frame_of h _ pa trampoline entry arg x hal hx)
        (fun x hx => ?_) ?_ ?_ ?_ ?_ ?_)⟩
      · have hne : x ≠ t := by
          rintro rfl
          exact hnew hx
        rw [hb, hk2]
        simp only [Sched.body, Kern.setThread, Function.update_of_ne hne]
      · rw [← body_refCount, hbt]
        exact href
      · rw [← body_kernelStackPhys, hbt]
        exact hphys
      all_goals
        rw [hset, hk2]
        rfl

theorem ThreadPages.createIdle (hT : ThreadPages h pages k threads) {trampoline entry : Word}
    {kr : KernReturn} {r : Option Word} (he : schedCreateIdle h trampoline entry k = (kr, r, k')) :
    ∃ pages', ThreadMove h pages pages' k k' threads (r.toList ++ threads) := by
  obtain ⟨kr1, r1, k1, hc⟩ : ∃ kr1 r1 k1,
    threadCreate h trampoline taskNull entry threadNull k = (kr1, r1, k1) := ⟨_, _, _, rfl⟩
  obtain ⟨pages1, hM⟩ := hT.create hc
  rw [schedCreateIdle, hc] at he
  split at he
  · rename_i idle k2 heq
    cases heq
    cases he
    exact ⟨pages1, hM.then (hM.inv.withSched (schedSetState_body { k1.sched with
      cpuIdleThread := idle, cpuCurrentThread := idle } idle .running))⟩
  · cases he
    exact ⟨pages1, hM⟩

/-- The last reference to a thread goes: its stack page is free, its element in the zone. -/
theorem ThreadPages.destroy (hT : ThreadPages h pages k threads) (ht : t ∈ threads) {kr : KernReturn}
    (he : threadDestroy t k = (kr, k')) : ThreadMove h pages pages k k' threads (threads.erase t) := by
  obtain ⟨hpos, hltp, hused, hout⟩ := hT.owned.stack t ht
  have hphys : (k.sched.threads t).kernelStackPhys ≠ 0 := by
    intro hc
    rw [stackFrame, hc] at hpos
    exact absurd hpos (by decide)
  rcases hT.zone with ⟨_, hnil, _⟩ | ⟨z, free, hz, hlt, hsize, hok⟩
  · have : t ∈ {t | t ∈ threads} := ht
    rw [hnil] at this
    exact this.elim
  obtain ⟨zone, kmem, hf⟩ : ∃ zone kmem, zfree (k.zoneStore.zones z) t { k.kmem with
    pmm := pmmFreePage k.kmem.pmm (k.sched.threads t).kernelStackPhys } = (zone, kmem) := ⟨_, _, rfl⟩
  obtain ⟨s, hd, _, hbody, _⟩ := threadDestroy_last (hT.zone.ne_null ht) (hT.owned.ref t ht) hz hphys hf
  obtain ⟨-, rfl⟩ := Prod.mk.inj (he.symm.trans hd)
  have hmem (x : Word) : x ∈ threads.erase t ↔ x ≠ t ∧ x ∈ threads := hT.owned.nodup.mem_erase_iff
  -- the page given back is a stack, so the zone has lost none of its own
  have hok1 : ZoneOk h { k.kmem with
      pmm := pmmFreePage k.kmem.pmm (k.sched.threads t).kernelStackPhys } pages (k.zoneStore.zones z)
      free {t | t ∈ threads} := by
    refine hok.congr (fun n hn hfn => ?_) fun _ _ => rfl
    rcases (pmmFreePage_free _ _ _).mp hfn with hfn | ⟨rfl, _⟩
    · exact hfn
    · exact absurd hn hout
  obtain ⟨hsize', hpmm, hok', hm⟩ := zfree_spec hok1 ht hf
  have hgive := RestStep.give (h := h) hT.used (Or.inr ⟨t, ht, rfl⟩) hpos hltp
  have hfree (n : ℕ) (hne : n ≠ stackFrame k.sched t) (hfn : kmem.pmm.Free n) : k.kmem.pmm.Free n := by
    rw [hpmm] at hfn
    exact ((pmmFreePage_free _ _ _).mp hfn).resolve_right fun hc => hne hc.1
  refine ⟨⟨fun hf0 => hT.pageZero (hfree 0 hpos.ne hf0), ?_, hT.owned.erase ht hfree hbody⟩, ?_,
    (ThreadZoneOnly.refl k).set hz zone rfl rfl,
    fun x hx hx' => ⟨hbody x ((hmem x).mp hx').1, fun y hy => hm y ?_⟩⟩
  · refine Or.inr ⟨z, t :: free, hz, hlt, ?_, ?_⟩
    · rw [ZoneStore.set_zones, hsize', hsize]
    · rw [ZoneStore.set_zones, ← erase_set hT.owned.nodup]
      exact hok'
  · dsimp only
    -- first the page goes, then the element is written into a page of the zone
    rw [heldPages_drop hT ht hbody]
    refine hgive.trans ?_
    have hpmm' : kmem = ⟨pmmFreePage k.kmem.pmm (k.sched.threads t).kernelStackPhys, kmem.mem⟩ :=
      congrArg (fun p : Pmm => (⟨p, kmem.mem⟩ : Kmem)) hpmm
    rw [hpmm']
    refine RestStep.write hgive.used fun x hx => hm x fun hn => hx ⟨Or.inl hn, fun hc => ?_⟩
    rw [Set.mem_singleton_iff.mp hc] at hn
    exact hout hn
  · intro hn
    exact (hT.owned.stack x hx).2.2.2 (hy ▸ hn)

end Pages

end Dana
