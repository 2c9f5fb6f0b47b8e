import Dana.LoadReads

/-! Which bytes a load stores: a segment is mapped up to its `vmsize`, and its `filesize` bytes
are copied whether they fit in it or not. -/
namespace Dana
open ByteMem AddrLoop

/-- The address is in the segment. -/
def InSegment (img : Mem) (seg va : Word) : Prop :=
  (segVmaddr img seg).toNat ≤ va.toNat ∧
    va.toNat < (segVmaddr img seg).toNat+(segVmsize img seg).toNat

instance (img : Mem) (seg va : Word) : Decidable (InSegment img seg va) :=
  inferInstanceAs (Decidable (_ ∧ _))

/-- The stores of a load since `s`, the last first. -/
def Loader.storesSince (s t : Loader) : List (PmapPtr × Word × Word) :=
  t.stores.take (t.stores.length-s.stores.length)

/-- The stores of the last `n` rounds of `macho_parse_segments`, each with the segment it is
made for. -/
def segmentStores (h : Hhdm) (img : Mem) (header imageData : Word) (map : VmMapPtr) :
    ℕ → Word → Loader → List (Word × PmapPtr × Word × Word)
  | 0, _, _ => []
  | n+1, lc, s =>
    match if lcCmd img lc = lcSegment64 then
        machoSegment h img imageData map lc (s.readCommand header lc)
      else (some .success, s.readCommand header lc) with
    | (some .success, t) =>
      segmentStores h img header imageData map n (lcNext img lc) (t.read (lc+4) 4) ++
        (s.storesSince t).map fun x => (lc, x)
    | (_, t) => (s.storesSince t).map fun x => (lc, x)

def StoresInSegments (img : Mem) (stores : List (Word × PmapPtr × Word × Word)) : Prop :=
  ∀ x ∈ stores, InSegment img x.1 x.2.2.1

instance (img : Mem) (stores : List (Word × PmapPtr × Word × Word)) :
    Decidable (StoresInSegments img stores) :=
  List.decidableBAll (fun x : Word × PmapPtr × Word × Word => InSegment img x.1 x.2.2.1) stores

/-- The bytes of the file fit in their segments, up to the first segment that is rejected. -/
def CommandsFit (v : VmMap) (img : Mem) : ℕ → Word → Prop
  | 0, _ => True
  | n+1, lc => SegRejected v img lc ∨
    (lcCmd img lc = lcSegment64 → segVmsize img lc ≠ 0 → segFilesize img lc ≤ segVmsize img lc) ∧
    CommandsFit v img n (lcNext img lc)

section Stores
variable {h : Hhdm} {img : Mem} {header imageData : Word} {s s' t : Loader} {map : VmMapPtr}
  {v : VmMap} {lc seg : Word} {P Q : Word → Prop}

/-- The stores since `s` are at addresses with `P`. -/
def StoresIn (P : Word → Prop) (s t : Loader) : Prop :=
  ∃ new, t.stores = new ++ s.stores ∧ ∀ x ∈ new, P x.2.1

theorem StoresIn.refl : StoresIn P s s := ⟨[], rfl, by simp⟩

theorem StoresIn.of_eq (he : t.stores = s.stores) : StoresIn P s t := ⟨[], he, by simp⟩

theorem StoresIn.trans (h1 : StoresIn P s s') (h2 : StoresIn P s' t) : StoresIn P s t := by
  obtain ⟨new, he, hP⟩ := h1
  obtain ⟨new', he', hP'⟩ := h2
  refine ⟨new' ++ new, by rw [he', he, List.append_assoc], fun x hx => ?_⟩
  rcases List.mem_append.mp hx with hx | hx
  · exact hP' x hx
  · exact hP x hx

theorem StoresIn.storeByte (hs : StoresIn P s t) {va : Word} (hva : P va) (b : Byte) :
    StoresIn P s (stateOf (t.storeByte h va b)) := by
  refine hs.trans ?_
  unfold Loader.storeByte
  split
  · exact StoresIn.refl
  · exact ⟨[_], rfl, by simpa using hva⟩

theorem storesSince_append {new : List (PmapPtr × Word × Word)} (he : t.stores = new ++ s.stores) :
    s.storesSince t = new := by
  rw [Loader.storesSince, he, List.length_append, Nat.add_sub_cancel, List.take_left]

theorem StoresIn.since (hs : StoresIn P s t) : ∀ x ∈ s.storesSince t, P x.2.1 := by
  obtain ⟨new, he, hP⟩ := hs
  rw [storesSince_append he]
  exact hP

theorem storesSince_frame (hf : LoadFrame s t) : t.stores = s.storesSince t ++ s.stores := by
  obtain ⟨new, he⟩ := hf.stores
  rw [storesSince_append he.symm, he]

/-- A round of the loop with the stores of its segment. -/
theorem segmentStores_cases (h : Hhdm) (img : Mem) (header imageData : Word) (map : VmMapPtr)
    (n : ℕ) (lc : Word) (s : Loader) :
    (∃ t, (lcCmd img lc ≠ lcSegment64 ∧ t = s.readCommand header lc ∨
        lcCmd img lc = lcSegment64 ∧
          machoSegment h img imageData map lc (s.readCommand header lc) = (some .success, t)) ∧
      machoParseSegments h img header imageData map (n+1) lc s =
        machoParseSegments h img header imageData map n (lcNext img lc) (t.read (lc+4) 4) ∧
      segmentStores h img header imageData map (n+1) lc s =
        segmentStores h img header imageData map n (lcNext img lc) (t.read (lc+4) 4) ++
          (s.storesSince t).map fun x => (lc, x)) ∨
    lcCmd img lc = lcSegment64 ∧ ∃ r t, r ≠ some .success ∧
      machoSegment h img imageData map lc (s.readCommand header lc) = (r, t) ∧
      machoParseSegments h img header imageData map (n+1) lc s = (r, t) ∧
      segmentStores h img header imageData map (n+1) lc s =
        (s.storesSince t).map fun x => (lc, x) := by
  rcases machoParseSegments_cases h img header imageData map n lc s with
    ⟨t, ⟨hcmd, rfl⟩ | ⟨hcmd, ht⟩, hr⟩ | ⟨hcmd, hne, hr⟩
  · refine Or.inl ⟨_, Or.inl ⟨hcmd, rfl⟩, hr, ?_⟩
    rw [segmentStores, if_neg hcmd]
  · refine Or.inl ⟨t, Or.inr ⟨hcmd, ht⟩, hr, ?_⟩
    rw [segmentStores, if_pos hcmd, ht]
  · obtain ⟨⟨r, t⟩, ht⟩ : ∃ x, machoSegment h img imageData map lc (s.readCommand header lc) = x :=
      ⟨_, rfl⟩
    rw [ht] at hne hr
    refine Or.inr ⟨hcmd, r, t, hne, ht, hr, ?_⟩
    rw [segmentStores, if_pos hcmd, ht]
    split
    · rename_i heq
      exact absurd (Prod.mk.inj heq).1 hne
    · rename_i heq
      obtain ⟨_, rfl⟩ := Prod.mk.inj heq
      rfl

/-- The stores that are told apart by segment are the stores of the load. -/
theorem segmentStores_stores (h : Hhdm) (img : Mem) (header imageData : Word) (map : VmMapPtr)
    (n : ℕ) (lc : Word) (s : Loader) :
    (machoParseSegments h img header imageData map n lc s).2.stores =
      (segmentStores h img header imageData map n lc s).map Prod.snd ++ s.stores := by
  have hsnd (lc : Word) (l : List (PmapPtr × Word × Word)) : (l.map fun x => (lc, x)).map Prod.snd = l := by
    rw [List.map_map]
    exact List.map_id l
  induction n generalizing lc s with
  | zero => rfl
  | succ n ih =>
    have h0 : LoadFrame s (s.readCommand header lc) := LoadFrame.refl.readCommand header lc
    have h1 := h0.trans (machoSegment_frame h img imageData map lc _)
    rcases segmentStores_cases h img header imageData map n lc s with
      ⟨t, ht, hr, hstores⟩ | ⟨_, r, t, _, ht, hr, hstores⟩
    · have hf : LoadFrame s t := by
        rcases ht with ⟨_, rfl⟩ | ⟨_, ht⟩
        · exact h0
        · rw [ht] at h1
          exact h1
      rw [hr, ih, hstores, List.map_append, hsnd, List.append_assoc, ← storesSince_frame hf]
      rfl
    · rw [ht] at h1
      rw [hr, hstores, hsnd, ← storesSince_frame h1]

/-- The copy of a segment stores at its addresses, if the bytes of the file fit in it. -/
theorem machoCopy_storesIn (hok : vmRangeOk v (segVmaddr img seg) (segVmsize img seg) = true)
    (hfit : segFilesize img seg ≤ segVmsize img seg) :
    StoresIn (InSegment img seg) s (stateOf (machoCopy h img imageData seg s)) := by
  have hstop := vmRange_stop hok
  have hwrap : (segVmaddr img seg).toNat+(segVmsize img seg).toNat < 2^64 := by
    rw [← hstop]
    exact BitVec.isLt _
  rw [BitVec.le_def] at hfit
  have hin {i : ℕ} (hi : i < (segVmsize img seg).toNat) :
      InSegment img seg (segVmaddr img seg+BitVec.ofNat 64 i) := by
    rw [InSegment, BitVec.toNat_add, BitVec.toNat_ofNat]
    omega
  refine machoCopy_rule (StoresIn.of_eq rfl) (fun _ => ?_) fun t ht _ => ?_
  · refine forBytes_inv _ _ (fun i hi t ht => ?_) (StoresIn.of_eq rfl)
    refine StoresIn.storeByte (t := t.read _ 1) ?_ (hin (by omega)) _
    exact ht.trans (StoresIn.of_eq rfl)
  · refine forBytes_inv _ _ (fun i hi t ht => ht.storeByte ?_ _) ht
    have hsum : segFilesize img seg+BitVec.ofNat 64 i =
        BitVec.ofNat 64 ((segFilesize img seg).toNat+i) := by
      rw [BitVec.ofNat_add, BitVec.ofNat_toNat, BitVec.setWidth_eq]
    rw [BitVec.toNat_sub] at hi
    rw [BitVec.add_assoc, hsum]
    exact hin (by omega)

theorem storeByte_ok {va : Word} {b : Byte} (hr : s.storeByte h va b = .ok s') :
    s'.vm.active = s.vm.active ∧
      ∃ x, x.1 = s.vm.active ∧ x.2.1 = va ∧ s'.stores = x :: s.stores := by
  unfold Loader.storeByte at hr
  split at hr
  · cases hr
  · obtain rfl := Except.ok.inj hr
    exact ⟨rfl, _, rfl, rfl, rfl⟩

theorem kmemcpy_stored {dst src n : Word} (hr : kmemcpy h img dst src n s = .ok s') :
    ∃ new, s'.stores = new ++ s.stores ∧
      ∀ i < n.toNat, ∃ x ∈ new, x.1 = s.vm.active ∧ x.2.1 = dst+BitVec.ofNat 64 i := by
  refine (forBytes_ok (I := fun k t => t.vm.active = s.vm.active ∧ ∃ new,
      t.stores = new ++ s.stores ∧ ∀ i < k, ∃ x ∈ new, x.1 = s.vm.active ∧
        x.2.1 = dst+BitVec.ofNat 64 i) _ _ (fun k _ t t' ht hb => ?_)
    ⟨rfl, [], rfl, fun i hi => absurd hi i.not_lt_zero⟩ hr).2
  obtain ⟨hact, new, hnew, hall⟩ := ht
  obtain ⟨hact', x, hxa, hx, hstores⟩ := storeByte_ok hb
  refine ⟨hact'.trans hact, x :: new, hstores.trans (congrArg (x :: ·) hnew), fun i hi => ?_⟩
  by_cases hik : i = k
  · exact ⟨x, List.mem_cons_self, hxa.trans hact, by rw [hx, hik]⟩
  · obtain ⟨y, hy, hyi⟩ := hall i (by omega)
    exact ⟨y, List.mem_cons_of_mem _ hy, hyi⟩

/-- A copy that ends has stored every byte of the file. -/
theorem machoCopy_stored (hr : machoCopy h img imageData seg s = .ok s') :
    ∃ new, s'.stores = new ++ s.stores ∧ ∀ i < (segFilesize img seg).toNat,
      ∃ x ∈ new, x.1 = s.vm.active ∧ x.2.1 = segVmaddr img seg+BitVec.ofNat 64 i := by
  have hf := machoCopy_frame h img imageData seg s
  rw [hr] at hf
  obtain ⟨hz, _⟩ | ⟨_, t, hk, hset⟩ := machoCopy_done hr
  · refine ⟨_, storesSince_frame hf, fun i hi => absurd hi ?_⟩
    rw [hz]
    exact i.not_lt_zero
  obtain ⟨new, hnew, hall⟩ := kmemcpy_stored hk
  -- what is zeroed comes on top
  have hmore : StoresIn (fun _ => True) t s' := by
    rcases hset with ⟨_, hset⟩ | ⟨_, rfl⟩
    · have hin : StoresIn (fun _ => True) t (stateOf (kmemset h
          (segVmaddr img seg+segFilesize img seg) 0 (segVmsize img seg-segFilesize img seg) t)) :=
        forBytes_inv _ _ (fun i _ t ht => ht.storeByte trivial _) StoresIn.refl
      rw [hset] at hin
      exact hin
    · exact StoresIn.refl
  obtain ⟨more, hmore, _⟩ := hmore
  refine ⟨more ++ new, by rw [hmore, hnew, List.append_assoc]; rfl, fun i hi => ?_⟩
  obtain ⟨x, hx, hxi⟩ := hall i hi
  exact ⟨x, List.mem_append_right _ hx, hxi⟩

/-- A segment stores at its addresses, if it is out of range or the bytes of the file fit. -/
theorem machoSegment_storesIn (hv : (s.vm.maps map).fixed = v.fixed)
    (hfit : vmRangeOk v (segVmaddr img seg) (segVmsize img seg) = true →
      segVmsize img seg ≠ 0 → segFilesize img seg ≤ segVmsize img seg) :
    StoresIn (InSegment img seg) s (machoSegment h img imageData map seg s).2 := by
  have hcopy (hz : segVmsize img seg ≠ 0)
      (hok : vmRangeOk (s.vm.maps map) (segVmaddr img seg) (segVmsize img seg) = true)
      (vm : VmState) : StoresIn (InSegment img seg) s
        (stateOf (machoCopy h img imageData seg (s.mapped img seg vm))) := by
    rw [vmRangeOk_fixed hv] at hok
    have hmapped : (s.mapped img seg vm).stores = s.stores := machoBase_stores seg
    exact (StoresIn.of_eq hmapped).trans (machoCopy_storesIn hok (hfit hok hz))
  rcases machoSegment_cases h img imageData map seg s with ⟨_, hr⟩ | ⟨hz, ⟨_, hr⟩ |
    ⟨hok, hr | ⟨vm, _, hr⟩ | ⟨vm, _, ⟨t, ht, hr⟩ | ⟨t, ht, hr⟩⟩⟩⟩
  · exact hr ▸ StoresIn.of_eq rfl
  · exact hr ▸ StoresIn.of_eq rfl
  · exact hr ▸ StoresIn.of_eq rfl
  · exact hr ▸ StoresIn.of_eq rfl
  · have hin := hcopy hz hok vm
    rw [ht] at hin
    exact hr ▸ hin
  · have hin := hcopy hz hok vm
    rw [ht] at hin
    exact hr ▸ hin

/-- A segment that has been mapped and copied, with its stores in it, has the bytes of the file
fit. -/
theorem machoSegment_fits (hv : (s.vm.maps map).fixed = v.fixed)
    (hr : machoSegment h img imageData map seg s = (some .success, t))
    (hin : ∀ x ∈ s.storesSince t, InSegment img seg x.2.1) :
    segVmsize img seg ≠ 0 → segFilesize img seg ≤ segVmsize img seg := by
  intro hz
  obtain ⟨hz', _⟩ | ⟨_, hok, vm, _, ht⟩ := machoSegment_done hr
  · exact absurd hz' hz
  rw [vmRangeOk_fixed hv] at hok
  obtain ⟨new, hnew, hall⟩ := machoCopy_stored ht
  have hmapped : (s.mapped img seg vm).stores = s.stores := machoBase_stores seg
  rw [hmapped] at hnew
  rw [storesSince_append hnew] at hin
  by_contra hlt
  rw [BitVec.not_le, BitVec.lt_def] at hlt
  -- the byte at the end of the segment has been stored
  obtain ⟨x, hx, _, hxa⟩ := hall _ hlt
  have hlast := (hin x hx).2
  rw [hxa, BitVec.ofNat_toNat, BitVec.setWidth_eq, vmRange_stop hok] at hlast
  exact absurd hlast (lt_irrefl _)

theorem storesInSegments_append {xs ys : List (Word × PmapPtr × Word × Word)} :
    StoresInSegments img (xs ++ ys) ↔ StoresInSegments img xs ∧ StoresInSegments img ys :=
  List.forall_mem_append

theorem storesInSegments_map {xs : List (PmapPtr × Word × Word)} :
    StoresInSegments img (xs.map fun x => (lc, x)) ↔ ∀ x ∈ xs, InSegment img lc x.2.1 :=
  List.forall_mem_map

theorem segmentStores_fit (n : ℕ) (hv : (s.vm.maps map).fixed = v.fixed)
    (hc : CommandsFit v img n lc) :
    StoresInSegments img (segmentStores h img header imageData map n lc s) := by
  induction n generalizing lc s with
  | zero => exact fun x hx => absurd hx List.not_mem_nil
  | succ n ih =>
    have h0 : StoresIn (InSegment img lc) s (s.readCommand header lc) := StoresIn.of_eq rfl
    have h1 (hcmd : lcCmd img lc = lcSegment64) : StoresIn (InSegment img lc) s
        (machoSegment h img imageData map lc (s.readCommand header lc)).2 := by
      refine h0.trans (machoSegment_storesIn (s := s.readCommand header lc) hv fun hok hz => ?_)
      rcases hc with hrej | ⟨hfit, _⟩
      · cases hok.symm.trans hrej.2.2
      · exact hfit hcmd hz
    rcases segmentStores_cases h img header imageData map n lc s with
      ⟨t, ⟨hcmd, rfl⟩ | ⟨hcmd, ht⟩, _, hstores⟩ | ⟨hcmd, r, t, _, ht, _, hstores⟩
    · rw [hstores, storesInSegments_append, storesInSegments_map]
      rcases hc with hrej | ⟨_, hrest⟩
      · exact absurd hrej.1 hcmd
      · exact ⟨ih (s := (s.readCommand header lc).read (lc+4) 4) hv hrest, h0.since⟩
    · have hin := h1 hcmd
      have hf := machoSegment_frame h img imageData map lc (s.readCommand header lc)
      rw [ht] at hin hf
      rw [hstores, storesInSegments_append, storesInSegments_map]
      refine ⟨ih (s := t.read (lc+4) 4) ((hf.vm.fixed map).trans hv) ?_, hin.since⟩
      rcases hc with hrej | ⟨_, hrest⟩
      · have hno := (machoSegment_accepted (s := s.readCommand header lc) hv ht)
        exact absurd ⟨hrej.2.1, hrej.2.2⟩ hno
      · exact hrest
    · have hin := h1 hcmd
      rw [ht] at hin
      rw [hstores, storesInSegments_map]
      exact hin.since

/-- A walk that neither runs out of memory nor faults has mapped and copied every segment up to
the first that is rejected. -/
theorem segmentStores_fits (n : ℕ) (hv : (s.vm.maps map).fixed = v.fixed) {kr : KernReturn}
    (hr : machoParseSegments h img header imageData map n lc s = (some kr, s'))
    (hkr : kr ≠ .noSpace)
    (hin : StoresInSegments img (segmentStores h img header imageData map n lc s)) :
    CommandsFit v img n lc := by
  induction n generalizing lc s with
  | zero => trivial
  | succ n ih =>
    rcases segmentStores_cases h img header imageData map n lc s with
      ⟨t, ⟨hcmd, rfl⟩ | ⟨hcmd, ht⟩, hr', hstores⟩ | ⟨hcmd, r, t, hne, ht, hr', hstores⟩
    · rw [hstores, storesInSegments_append] at hin
      rw [hr'] at hr
      exact Or.inr ⟨fun hc => absurd hc hcmd,
        ih (s := (s.readCommand header lc).read (lc+4) 4) hv hr hin.1⟩
    · rw [hstores, storesInSegments_append, storesInSegments_map] at hin
      rw [hr'] at hr
      have hf := machoSegment_frame h img imageData map lc (s.readCommand header lc)
      rw [ht] at hf
      have hfit := machoSegment_fits (s := s.readCommand header lc) hv ht hin.2
      exact Or.inr ⟨fun _ => hfit, ih (s := t.read (lc+4) 4) ((hf.vm.fixed map).trans hv) hr hin.1⟩
    · obtain ⟨rfl, rfl⟩ := Prod.mk.inj (hr'.symm.trans hr)
      refine Or.inl ⟨hcmd, ?_⟩
      rw [← vmRangeOk_fixed hv]
      rcases machoSegment_cases h img imageData map lc (s.readCommand header lc) with ⟨_, hs⟩ |
        ⟨hz, ⟨hbad, _⟩ | ⟨_, hs | ⟨_, _, hs⟩ | ⟨_, _, ⟨_, _, hs⟩ | ⟨_, _, hs⟩⟩⟩⟩
      · exact absurd (Prod.mk.inj (ht.symm.trans hs)).1 hne
      · exact ⟨hz, hbad⟩
      · cases (Prod.mk.inj (ht.symm.trans hs)).1
      · exact absurd (Option.some.inj (Prod.mk.inj (ht.symm.trans hs)).1) hkr
      · cases (Prod.mk.inj (ht.symm.trans hs)).1
      · exact absurd (Prod.mk.inj (ht.symm.trans hs)).1 hne

/-- Every byte stored for a segment is in it if the bytes of the file fit in their segments, up
to the first segment that is rejected; and only then, unless a segment runs out of memory or a
store faults. -/
theorem macho_stores_in_segments (h : Hhdm) (img : Mem) (header imageData : Word) (map : VmMapPtr)
    (n : ℕ) (lc : Word) (s : Loader) :
    (CommandsFit (s.vm.maps map) img n lc →
      StoresInSegments img (segmentStores h img header imageData map n lc s)) ∧
    ((machoParseSegments h img header imageData map n lc s).1 ≠ none →
      (machoParseSegments h img header imageData map n lc s).1 ≠ some .noSpace →
      (StoresInSegments img (segmentStores h img header imageData map n lc s) ↔
        CommandsFit (s.vm.maps map) img n lc)) := by
  refine ⟨segmentStores_fit n rfl, fun hsome hspace => ⟨fun hin => ?_, segmentStores_fit n rfl⟩⟩
  obtain ⟨kr, hkr⟩ := Option.ne_none_iff_exists'.mp hsome
  rw [hkr] at hspace
  exact segmentStores_fits n rfl (Prod.ext hkr rfl) (fun hc => hspace (congrArg some hc)) hin

/-- One segment of one byte, with two bytes in the file. -/
def longImage : Mem := imageAt 0x100000
  (machHeader 1 72 ++ segmentCommand 0x10000 1 0x68 2 3 ++ leBytes 2 0x2a2a)

/-- The second byte of the file is stored past the end of the segment. -/
theorem macho_stores_past_segment :
    let s : Loader := ⟨vmFirst.pmapSwitch (.page 0x4000), ⟨0, 0, 0, 0⟩, [], []⟩
    let r := machoParseSegments higherHalf longImage 0x100000 0x100000 vmFirstMap 1 0x100020 s
    let stores := segmentStores higherHalf longImage 0x100000 0x100000 vmFirstMap 1 0x100020 s
    ReadsInside 0x100000 0x6a r.2 ∧ r.1 = some .success ∧
      stores.map (fun x => (x.1, x.2.2.1)) = [(0x100020, 0x10001), (0x100020, 0x10000)] ∧
      ¬ StoresInSegments longImage stores := by
  decide +kernel

end Stores

end Dana
