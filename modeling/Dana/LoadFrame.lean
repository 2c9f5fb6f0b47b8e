import Dana.Exec
import Dana.VmShape

/-! What every part of a load leaves alone, in every state and for every image. -/
namespace Dana
open ByteMem AddrLoop

/-- The records of a load grow, and the maps and CR3 stay. -/
structure LoadFrame (s s' : Loader) : Prop where
  reads : s.reads <:+ s'.reads
  stores : s.stores <:+ s'.stores
  vm : SameMaps s.vm s'.vm

/-- A segment that is not inside the bounds of the map `v`. -/
def SegRejected (v : VmMap) (img : Mem) (lc : Word) : Prop :=
  lcCmd img lc = lcSegment64 ∧ segVmsize img lc ≠ 0 ∧
    vmRangeOk v (segVmaddr img lc) (segVmsize img lc) = false

def CommandsAccepted (v : VmMap) (img : Mem) : ℕ → Word → Prop
  | 0, _ => True
  | n+1, lc => ¬ SegRejected v img lc ∧ CommandsAccepted v img n (lcNext img lc)

/-- The arguments and the header that `macho_load` accepts. -/
structure HeaderAccepted (img : Mem) (map : VmMapPtr) (imageData imageSize imageOut : Word) :
    Prop where
  map_ne : map ≠ vmMapNull
  data_ne : imageData ≠ 0
  out_ne : imageOut ≠ 0
  size : 32 ≤ imageSize.toNat
  magic : mhMagic img imageData = mhMagic64
  filetype : mhFiletype img imageData = mhExecute ∨ mhFiletype img imageData = mhObject
  cputype : mhCputype img imageData = cpuTypeX8664

/-- The loader after the header has been accepted. -/
def Loader.start (s : Loader) (imageData imageSize : Word) : Loader :=
  (((s.read imageData 4).read (imageData+12) 4).read (imageData+4) 4).setImage imageData imageSize

section Frame
variable {h : Hhdm} {img : Mem} {s s' s'' t : Loader} {map : VmMapPtr} {imageData lc seg : Word}
  {v : VmMap}

theorem LoadFrame.refl : LoadFrame s s := ⟨List.suffix_refl _, List.suffix_refl _, SameMaps.refl⟩

theorem LoadFrame.trans (h1 : LoadFrame s s') (h2 : LoadFrame s' s'') : LoadFrame s s'' :=
  ⟨h1.reads.trans h2.reads, h1.stores.trans h2.stores, h1.vm.trans h2.vm⟩

theorem LoadFrame.read (hf : LoadFrame s s') (a n : Word) : LoadFrame s (s'.read a n) :=
  ⟨hf.reads.trans (List.suffix_cons _ _), hf.stores, hf.vm⟩

theorem storeByte_frame (va : Word) (b : Byte) : LoadFrame s (stateOf (s.storeByte h va b)) := by
  unfold Loader.storeByte
  split
  · exact LoadFrame.refl
  · exact ⟨List.suffix_refl _, List.suffix_cons _ _, rfl, fun _ => rfl, rfl⟩

theorem add_one_add (p : Word) (i : ℕ) : p+1+BitVec.ofNat 64 i = p+BitVec.ofNat 64 (i+1) := by
  rw [BitVec.add_assoc, BitVec.add_comm 1, BitVec.ofNat_add]
  rfl

/-- What the body of a loop over bytes keeps, the loop keeps. -/
theorem forBytes_inv {body : Word → Loader → Except Loader Loader} {I : Loader → Prop}
    (n : ℕ) (p : Word)
    (hstep : ∀ i < n, ∀ s, I s → I (stateOf (body (p+BitVec.ofNat 64 i) s))) (hI : I s) :
    I (stateOf (forBytes body n p s)) := by
  induction n generalizing p s with
  | zero => exact hI
  | succ n ih =>
    have hhead := hstep 0 n.succ_pos s hI
    rw [BitVec.add_zero] at hhead
    rw [forBytes]
    cases hb : body p s with
    | error t =>
      rw [hb] at hhead
      exact hhead
    | ok t =>
      rw [hb] at hhead
      refine ih (p+1) (fun i hi s hs => ?_) hhead
      rw [add_one_add]
      exact hstep (i+1) (by omega) s hs

/-- A loop over bytes that no fault ends has been through all of them. -/
theorem forBytes_ok {body : Word → Loader → Except Loader Loader} {I : ℕ → Loader → Prop}
    (n : ℕ) (p : Word)
    (hstep : ∀ i < n, ∀ s s', I i s → body (p+BitVec.ofNat 64 i) s = .ok s' → I (i+1) s')
    (hI : I 0 s) (hr : forBytes body n p s = .ok s') : I n s' := by
  induction n generalizing p s I with
  | zero =>
    obtain rfl := Except.ok.inj hr
    exact hI
  | succ n ih =>
    rw [forBytes] at hr
    cases hb : body p s with
    | error t =>
      rw [hb] at hr
      cases hr
    | ok t =>
      rw [hb] at hr
      have hhead := hstep 0 n.succ_pos s t hI (by rw [BitVec.add_zero, hb])
      refine ih (I := fun i s => I (i+1) s) (p+1) (fun i hi s s' hs hb => ?_) hhead hr
      rw [add_one_add] at hb
      exact hstep (i+1) (by omega) s s' hs hb

theorem kmemcpy_frame (h : Hhdm) (img : Mem) (dst src n : Word) (s : Loader) :
    LoadFrame s (stateOf (kmemcpy h img dst src n s)) := by
  refine forBytes_inv _ _ (fun i _ t ht => ?_) LoadFrame.refl
  exact (ht.read _ _).trans (storeByte_frame _ _)

/-- A copy that ends has done nothing, or stored the bytes of the file and then zeros. -/
theorem machoCopy_done {seg : Word} (hr : machoCopy h img imageData seg s = .ok s') :
    (segFilesize img seg = 0 ∧ s' = s.read (seg+48) 8) ∨
    segFilesize img seg ≠ 0 ∧ ∃ t, kmemcpy h img (segVmaddr img seg)
        (imageData+segFileoff img seg) (segFilesize img seg) (s.read (seg+48) 8) = .ok t ∧
      (segFilesize img seg < segVmsize img seg ∧ kmemset h (segVmaddr img seg+segFilesize img seg)
          0 (segVmsize img seg-segFilesize img seg) t = .ok s' ∨
        ¬ segFilesize img seg < segVmsize img seg ∧ s' = t) := by
  rw [machoCopy] at hr
  by_cases hz : segFilesize img seg = 0
  · rw [if_pos hz] at hr
    exact Or.inl ⟨hz, (Except.ok.inj hr).symm⟩
  rw [if_neg hz] at hr
  cases hk : kmemcpy h img (segVmaddr img seg) (imageData+segFileoff img seg) (segFilesize img seg)
      (s.read (seg+48) 8) with
  | error t =>
    rw [hk] at hr
    cases hr
  | ok t =>
    rw [hk, Except.bind] at hr
    refine Or.inr ⟨hz, t, rfl, ?_⟩
    split_ifs at hr with hlt
    · exact Or.inl ⟨hlt, hr⟩
    · exact Or.inr ⟨hlt, (Except.ok.inj hr).symm⟩

/-- The copy of a segment, whether it ends or faults: the bytes of the file, then zeros. -/
theorem machoCopy_rule {I : Loader → Prop} {seg : Word} (hread : I (s.read (seg+48) 8))
    (hcopy : segFilesize img seg ≠ 0 → I (stateOf (kmemcpy h img (segVmaddr img seg)
      (imageData+segFileoff img seg) (segFilesize img seg) (s.read (seg+48) 8))))
    (hset : ∀ t, I t → segFilesize img seg < segVmsize img seg →
      I (stateOf (kmemset h (segVmaddr img seg+segFilesize img seg) 0
        (segVmsize img seg-segFilesize img seg) t))) :
    I (stateOf (machoCopy h img imageData seg s)) := by
  unfold machoCopy
  dsimp only
  by_cases hz : segFilesize img seg = 0
  · rw [if_pos hz]
    exact hread
  rw [if_neg hz]
  have h1 := hcopy hz
  cases hk : kmemcpy h img (segVmaddr img seg) (imageData+segFileoff img seg) (segFilesize img seg)
      (s.read (seg+48) 8) with
  | error t =>
    rw [hk] at h1
    exact h1
  | ok t =>
    rw [hk] at h1
    rw [Except.bind]
    split_ifs with hlt
    · exact hset t h1 hlt
    · exact h1

/-- What every read and every store keeps, the copy of a segment keeps. -/
theorem machoCopy_inv {I : Loader → Prop} (hread : ∀ t a n, I t → I (Loader.read t a n))
    (hstore : ∀ t va b, I t → I (stateOf (Loader.storeByte h t va b))) (hI : I s) (seg : Word) :
    I (stateOf (machoCopy h img imageData seg s)) := by
  have h0 : I (s.read (seg+48) 8) := hread _ _ _ hI
  refine machoCopy_rule h0 (fun _ => ?_) fun t ht _ => ?_
  · exact forBytes_inv _ _ (fun i _ t ht => hstore _ _ _ (hread _ _ _ ht)) h0
  · exact forBytes_inv _ _ (fun i _ t ht => hstore _ _ _ ht) ht

theorem machoCopy_frame (h : Hhdm) (img : Mem) (imageData seg : Word) (s : Loader) :
    LoadFrame s (stateOf (machoCopy h img imageData seg s)) :=
  machoCopy_inv (fun _ _ _ ht => ht.read _ _) (fun _ _ _ ht => ht.trans (storeByte_frame _ _))
    LoadFrame.refl seg

theorem machoBase_reads (seg : Word) : (machoBase img seg s).reads = s.reads := by
  unfold machoBase
  split_ifs <;> rfl

theorem machoBase_stores (seg : Word) : (machoBase img seg s).stores = s.stores := by
  unfold machoBase
  split_ifs <;> rfl

theorem machoBase_vm (seg : Word) : (machoBase img seg s).vm = s.vm := by
  unfold machoBase
  split_ifs <;> rfl

theorem LoadFrame.base (hf : LoadFrame s s') (img : Mem) (seg : Word) :
    LoadFrame s (machoBase img seg s') := by
  refine ⟨?_, ?_, ?_⟩
  · rw [machoBase_reads]
    exact hf.reads
  · rw [machoBase_stores]
    exact hf.stores
  · rw [machoBase_vm]
    exact hf.vm

/-- The reads of a segment before its pages are mapped. -/
def Loader.readRange (s : Loader) (seg : Word) : Loader :=
  ((s.read (seg+32) 8).read (seg+24) 8).read (seg+60) 4

/-- The loader after the pages of a segment have been mapped, before its bytes are copied. -/
def Loader.mapped (img : Mem) (s : Loader) (seg : Word) (vm : VmState) : Loader :=
  machoBase img seg ({ s.readRange seg with vm := vm }.read (seg+40) 8)

theorem machoSegment_eq (h : Hhdm) (img : Mem) (imageData : Word) (map : VmMapPtr) (seg : Word)
    (s : Loader) (hz : segVmsize img seg ≠ 0) : machoSegment h img imageData map seg s =
    match vmMapPageRange h s.vm map (segVmaddr img seg) (segVmsize img seg)
        (machoProt (segInitprot img seg)) with
    | none => (none, s.readRange seg)
    | some (kr, vm) =>
      if kr ≠ .success then (some kr, { s.readRange seg with vm := vm })
      else
        match machoCopy h img imageData seg (s.mapped img seg vm) with
        | .error t => (none, t)
        | .ok t => (some .success, t) := by
  rw [machoSegment, if_neg hz]
  rfl

/-- A segment is skipped, is out of range, has no memory, or is mapped and copied. -/
theorem machoSegment_cases (h : Hhdm) (img : Mem) (imageData : Word) (map : VmMapPtr) (seg : Word)
    (s : Loader) :
    (segVmsize img seg = 0 ∧
      machoSegment h img imageData map seg s = (some .success, s.read (seg+32) 8)) ∨
    segVmsize img seg ≠ 0 ∧
    ((vmRangeOk (s.vm.maps map) (segVmaddr img seg) (segVmsize img seg) = false ∧
        machoSegment h img imageData map seg s = (some .invalidArgument, s.readRange seg)) ∨
      vmRangeOk (s.vm.maps map) (segVmaddr img seg) (segVmsize img seg) = true ∧
      (machoSegment h img imageData map seg s = (none, s.readRange seg) ∨
        (∃ vm, vmMapPageRange h s.vm map (segVmaddr img seg) (segVmsize img seg)
            (machoProt (segInitprot img seg)) = some (.noSpace, vm) ∧
          machoSegment h img imageData map seg s =
            (some .noSpace, { s.readRange seg with vm := vm })) ∨
        ∃ vm, vmMapPageRange h s.vm map (segVmaddr img seg) (segVmsize img seg)
            (machoProt (segInitprot img seg)) = some (.success, vm) ∧
          ((∃ t, machoCopy h img imageData seg (s.mapped img seg vm) = .error t ∧
              machoSegment h img imageData map seg s = (none, t)) ∨
            ∃ t, machoCopy h img imageData seg (s.mapped img seg vm) = .ok t ∧
              machoSegment h img imageData map seg s = (some .success, t)))) := by
  by_cases hz : segVmsize img seg = 0
  · refine Or.inl ⟨hz, ?_⟩
    rw [machoSegment, if_pos hz]
  refine Or.inr ⟨hz, ?_⟩
  rw [machoSegment_eq h img imageData map seg s hz]
  cases hvm : vmMapPageRange h s.vm map (segVmaddr img seg) (segVmsize img seg)
      (machoProt (segInitprot img seg)) with
  | none =>
    refine Or.inr ⟨?_, Or.inl rfl⟩
    by_contra hok
    rw [Bool.not_eq_true] at hok
    rw [vmMapPageRange, hok] at hvm
    cases hvm
  | some x =>
    obtain ⟨kr, vm⟩ := x
    dsimp only
    rcases vmMapPageRange_result hvm with ⟨hok, rfl, rfl⟩ | ⟨hok, rfl | rfl⟩
    · exact Or.inl ⟨hok, rfl⟩
    · refine Or.inr ⟨hok, Or.inr (Or.inr ⟨vm, rfl, ?_⟩)⟩
      rw [if_neg (by simp)]
      cases machoCopy h img imageData seg (s.mapped img seg vm) with
      | error t => exact Or.inl ⟨t, rfl, rfl⟩
      | ok t => exact Or.inr ⟨t, rfl, rfl⟩
    · exact Or.inr ⟨hok, Or.inr (Or.inl ⟨vm, rfl, rfl⟩)⟩

/-- A segment that is loaded with success is skipped, or its pages are mapped and its bytes
copied. -/
theorem machoSegment_done (hr : machoSegment h img imageData map seg s = (some .success, t)) :
    (segVmsize img seg = 0 ∧ t = s.read (seg+32) 8) ∨ segVmsize img seg ≠ 0 ∧
      vmRangeOk (s.vm.maps map) (segVmaddr img seg) (segVmsize img seg) = true ∧
      ∃ vm, vmMapPageRange h s.vm map (segVmaddr img seg) (segVmsize img seg)
          (machoProt (segInitprot img seg)) = some (.success, vm) ∧
        machoCopy h img imageData seg (s.mapped img seg vm) = .ok t := by
  rcases machoSegment_cases h img imageData map seg s with ⟨hz, hr'⟩ | ⟨hz, ⟨_, hr'⟩ |
    ⟨hok, hr' | ⟨vm, _, hr'⟩ | ⟨vm, hvm, ⟨t', _, hr'⟩ | ⟨t', ht, hr'⟩⟩⟩⟩
  · exact Or.inl ⟨hz, (Prod.mk.inj (hr.symm.trans hr')).2⟩
  · cases (Prod.mk.inj (hr.symm.trans hr')).1
  · cases (Prod.mk.inj (hr.symm.trans hr')).1
  · cases (Prod.mk.inj (hr.symm.trans hr')).1
  · cases (Prod.mk.inj (hr.symm.trans hr')).1
  · obtain ⟨_, rfl⟩ := Prod.mk.inj (hr.symm.trans hr')
    exact Or.inr ⟨hz, hok, vm, hvm, ht⟩

theorem machoSegment_frame (h : Hhdm) (img : Mem) (imageData : Word) (map : VmMapPtr) (seg : Word)
    (s : Loader) :
    LoadFrame s (machoSegment h img imageData map seg s).2 := by
  have h0 : LoadFrame s (s.read (seg+32) 8) := LoadFrame.refl.read _ _
  have h1 : LoadFrame s (s.readRange seg) := (h0.read (seg+24) 8).read (seg+60) 4
  have h2 {kr : KernReturn} {vm : VmState} (hvm : vmMapPageRange h s.vm map (segVmaddr img seg)
      (segVmsize img seg) (machoProt (segInitprot img seg)) = some (kr, vm)) :
      LoadFrame s { s.readRange seg with vm := vm } :=
    ⟨h1.reads, h1.stores, vmMapPageRange_same hvm⟩
  rcases machoSegment_cases h img imageData map seg s with ⟨_, hr⟩ | ⟨_, ⟨_, hr⟩ |
    ⟨_, hr | ⟨vm, hvm, hr⟩ | ⟨vm, hvm, ⟨t, ht, hr⟩ | ⟨t, ht, hr⟩⟩⟩⟩
  · exact hr ▸ h0
  · exact hr ▸ h1
  · exact hr ▸ h1
  · exact hr ▸ h2 hvm
  · have h3 := (((h2 hvm).read (seg+40) 8).base img seg).trans
      (machoCopy_frame h img imageData seg _)
    rw [hr]
    rw [← Loader.mapped, ht] at h3
    exact h3
  · have h3 := (((h2 hvm).read (seg+40) 8).base img seg).trans
      (machoCopy_frame h img imageData seg _)
    rw [hr]
    rw [← Loader.mapped, ht] at h3
    exact h3

/-- The reads at the head of a round of the loops over the commands. -/
def Loader.readCommand (s : Loader) (header lc : Word) : Loader := (s.read (header+16) 4).read lc 4

theorem LoadFrame.readCommand (hf : LoadFrame s s') (header lc : Word) :
    LoadFrame s (s'.readCommand header lc) := (hf.read _ _).read _ _

/-- A round of the loop goes on to the next command, or ends where a segment fails. -/
theorem machoParseSegments_cases (h : Hhdm) (img : Mem) (header imageData : Word) (map : VmMapPtr)
    (n : ℕ) (lc : Word) (s : Loader) :
    (∃ t, (lcCmd img lc ≠ lcSegment64 ∧ t = s.readCommand header lc ∨
        lcCmd img lc = lcSegment64 ∧
          machoSegment h img imageData map lc (s.readCommand header lc) = (some .success, t)) ∧
      machoParseSegments h img header imageData map (n+1) lc s =
        machoParseSegments h img header imageData map n (lcNext img lc) (t.read (lc+4) 4)) ∨
    lcCmd img lc = lcSegment64 ∧
    (machoSegment h img imageData map lc (s.readCommand header lc)).1 ≠ some .success ∧
    machoParseSegments h img header imageData map (n+1) lc s =
      machoSegment h img imageData map lc (s.readCommand header lc) := by
  rw [machoParseSegments]
  by_cases hc : lcCmd img lc = lcSegment64
  · simp only [if_pos hc]
    cases hseg : machoSegment h img imageData map lc (s.readCommand header lc) with
    | mk r t =>
      by_cases hr : r = some .success
      · subst hr
        refine Or.inl ⟨t, Or.inr ⟨hc, rfl⟩, ?_⟩
        rw [Loader.readCommand] at hseg
        rw [hseg]
      · refine Or.inr ⟨hc, hr, ?_⟩
        rw [Loader.readCommand] at hseg
        rw [hseg]
        split
        · rename_i heq
          exact absurd (Prod.mk.inj heq).1 hr
        · rfl
  · simp only [if_neg hc]
    exact Or.inl ⟨s.readCommand header lc, Or.inl ⟨hc, rfl⟩, rfl⟩

theorem machoParseSegments_frame (h : Hhdm) (img : Mem) (header imageData : Word) (map : VmMapPtr)
    (n : ℕ) (lc : Word) (s : Loader) :
    LoadFrame s (machoParseSegments h img header imageData map n lc s).2 := by
  induction n generalizing lc s with
  | zero => exact LoadFrame.refl.read _ _
  | succ n ih =>
    have h0 : LoadFrame s (s.readCommand header lc) := LoadFrame.refl.readCommand header lc
    have h1 := h0.trans (machoSegment_frame h img imageData map lc _)
    rcases machoParseSegments_cases h img header imageData map n lc s with
      ⟨t, ⟨_, rfl⟩ | ⟨_, ht⟩, hr⟩ | ⟨_, _, hr⟩
    · rw [hr]
      exact (h0.read _ _).trans (ih _ _)
    · rw [ht] at h1
      rw [hr]
      exact (h1.read _ _).trans (ih _ _)
    · rw [hr]
      exact h1

theorem machoSegment_accepted (hv : (s.vm.maps map).fixed = v.fixed)
    (hr : machoSegment h img imageData map seg s = (some .success, s')) :
    ¬ (segVmsize img seg ≠ 0 ∧ vmRangeOk v (segVmaddr img seg) (segVmsize img seg) = false) := by
  rintro ⟨hz, hbad⟩
  rcases machoSegment_done hr with ⟨hz', _⟩ | ⟨_, hok, _⟩
  · exact hz hz'
  · rw [vmRangeOk_fixed hv] at hok
    cases hok.symm.trans hbad

/-- A walk that succeeds has met no segment that is out of range. -/
theorem machoParseSegments_accepted (header : Word) (n : ℕ)
    (hv : (s.vm.maps map).fixed = v.fixed)
    (hr : machoParseSegments h img header imageData map n lc s = (some .success, s')) :
    CommandsAccepted v img n lc := by
  induction n generalizing lc s with
  | zero => trivial
  | succ n ih =>
    rcases machoParseSegments_cases h img header imageData map n lc s with
      ⟨t, ⟨hcmd, rfl⟩ | ⟨_, ht⟩, hr'⟩ | ⟨_, hne, hr'⟩
    · exact ⟨fun hrej => hcmd hrej.1,
        ih (s := (s.readCommand header lc).read (lc+4) 4) hv (hr'.symm.trans hr)⟩
    · have hf := machoSegment_frame h img imageData map lc (s.readCommand header lc)
      rw [ht] at hf
      exact ⟨fun hrej => machoSegment_accepted (s := s.readCommand header lc) hv ht hrej.2,
        ih (s := t.read (lc+4) 4) ((hf.vm.fixed map).trans hv) (hr'.symm.trans hr)⟩
    · exact absurd (congrArg Prod.fst (hr'.symm.trans hr)) hne

theorem machoLoad_accepted {imageSize imageOut : Word}
    (ha : HeaderAccepted img map imageData imageSize imageOut) :
    (∃ t, machoParseSegments h img imageData imageData map (mhNcmds img imageData).toNat
        (imageData+sizeofMachHeader64) (s.start imageData imageSize) = (some .success, t) ∧
      machoLoad h img map imageData imageSize imageOut s = (some .success, machoFindEntry img
        imageData (mhNcmds img imageData).toNat (imageData+sizeofMachHeader64) t)) ∨
    ∃ r t, machoParseSegments h img imageData imageData map (mhNcmds img imageData).toNat
        (imageData+sizeofMachHeader64) (s.start imageData imageSize) = (r, t) ∧
      r ≠ some .success ∧ machoLoad h img map imageData imageSize imageOut s = (r, t) := by
  have hsize : ¬ imageSize < sizeofMachHeader64 := by
    rw [BitVec.lt_def]
    exact Nat.not_lt.mpr ha.size
  have hnull : ¬ (map = vmMapNull ∨ imageData = 0 ∨ imageOut = 0) := by
    rintro (hc | hc | hc)
    · exact ha.map_ne hc
    · exact ha.data_ne hc
    · exact ha.out_ne hc
  have htype : ¬ (mhFiletype img imageData ≠ mhExecute ∧ mhFiletype img imageData ≠ mhObject) :=
    fun hc => ha.filetype.elim hc.1 hc.2
  have hval : machoValidate img imageData s =
      (.success, ((s.read imageData 4).read (imageData+12) 4).read (imageData+4) 4) := by
    rw [machoValidate, if_neg ha.data_ne, if_neg (not_not.mpr ha.magic), if_neg htype,
      if_neg (not_not.mpr ha.cputype)]
  rw [machoLoad, if_neg hnull, if_neg hsize, hval]
  dsimp only
  cases hp : machoParseSegments h img imageData imageData map (mhNcmds img imageData).toNat
      (imageData+sizeofMachHeader64) (s.start imageData imageSize) with
  | mk r t =>
    rw [Loader.start] at hp
    rw [hp]
    by_cases hr : r = some .success
    · subst hr
      exact Or.inl ⟨t, rfl, rfl⟩
    · refine Or.inr ⟨r, t, rfl, hr, ?_⟩
      split
      · rename_i heq
        exact absurd (Prod.mk.inj heq).1 hr
      · rfl

/-- A header that is not accepted ends the load before anything is mapped or stored. -/
theorem machoLoad_rejected {imageSize imageOut : Word}
    (hn : ¬ HeaderAccepted img map imageData imageSize imageOut) :
    ∃ kr rs, machoLoad h img map imageData imageSize imageOut s =
        (some kr, { s with reads := rs ++ s.reads }) ∧ kr ≠ .success ∧ kr ≠ .noSpace ∧
      (∀ r ∈ rs, 32 ≤ imageSize.toNat ∧ r.2 = 4 ∧
        (r.1 = imageData ∨ r.1 = imageData+12 ∨ r.1 = imageData+4)) := by
  unfold machoLoad
  by_cases hnull : map = vmMapNull ∨ imageData = 0 ∨ imageOut = 0
  · rw [if_pos hnull]
    exact ⟨_, [], rfl, by simp, by simp, by simp⟩
  rw [if_neg hnull]
  push Not at hnull
  by_cases hsize : imageSize < sizeofMachHeader64
  · rw [if_pos hsize]
    exact ⟨_, [], rfl, by simp, by simp, by simp⟩
  rw [if_neg hsize, machoValidate, if_neg hnull.2.1]
  have h32 : 32 ≤ imageSize.toNat := by
    rw [BitVec.lt_def] at hsize
    exact Nat.not_lt.mp hsize
  by_cases hmagic : mhMagic img imageData = mhMagic64
  swap
  · rw [if_pos hmagic]
    exact ⟨_, [(imageData, 4)], rfl, by simp, by simp, by simp [h32]⟩
  by_cases htype : mhFiletype img imageData ≠ mhExecute ∧ mhFiletype img imageData ≠ mhObject
  · simp only [if_neg (not_not.mpr hmagic), if_pos htype]
    exact ⟨_, [(imageData+12, 4), (imageData, 4)], rfl, by simp, by simp, by simp [h32]⟩
  by_cases hcpu : mhCputype img imageData = cpuTypeX8664
  · refine absurd ⟨hnull.1, hnull.2.1, hnull.2.2, h32, hmagic, ?_, hcpu⟩ hn
    by_contra hc
    push Not at hc
    exact htype hc
  · simp only [if_neg (not_not.mpr hmagic), if_neg htype, if_pos hcpu]
    exact ⟨_, [(imageData+4, 4), (imageData+12, 4), (imageData, 4)], rfl, by simp, by simp,
      by simp [h32]⟩

theorem storeByte_image (va : Word) (b : Byte) :
    (stateOf (s.storeByte h va b)).image = s.image := by
  unfold Loader.storeByte
  split <;> rfl

theorem machoBase_header (seg : Word) : (machoBase img seg s).image.header = s.image.header := by
  unfold machoBase
  split_ifs <;> rfl

theorem machoSegment_header (h : Hhdm) (img : Mem) (imageData : Word) (map : VmMapPtr) (seg : Word)
    (s : Loader) : (machoSegment h img imageData map seg s).2.image.header = s.image.header := by
  have hcopy (vm : VmState) : (stateOf (machoCopy h img imageData seg (s.mapped img seg vm))).image.header =
      s.image.header := by
    have hbase : (s.mapped img seg vm).image.header = s.image.header := machoBase_header seg
    exact machoCopy_inv (I := fun t => t.image.header = s.image.header) (fun _ _ _ ht => ht)
      (fun t va b ht => (congrArg MachoImage.header (storeByte_image va b)).trans ht) hbase seg
  rcases machoSegment_cases h img imageData map seg s with ⟨_, hr⟩ | ⟨_, ⟨_, hr⟩ |
    ⟨_, hr | ⟨vm, _, hr⟩ | ⟨vm, _, ⟨t, ht, hr⟩ | ⟨t, ht, hr⟩⟩⟩⟩
  · rw [hr]
    rfl
  · rw [hr]
    rfl
  · rw [hr]
    rfl
  · rw [hr]
    rfl
  · rw [hr, ← hcopy vm, ht]
    rfl
  · rw [hr, ← hcopy vm, ht]
    rfl

theorem machoParseSegments_header (h : Hhdm) (img : Mem) (header imageData : Word) (map : VmMapPtr)
    (n : ℕ) (lc : Word) (s : Loader) :
    (machoParseSegments h img header imageData map n lc s).2.image.header = s.image.header := by
  induction n generalizing lc s with
  | zero => rfl
  | succ n ih =>
    have hseg := machoSegment_header h img imageData map lc (s.readCommand header lc)
    rcases machoParseSegments_cases h img header imageData map n lc s with
      ⟨t, ⟨_, rfl⟩ | ⟨_, ht⟩, hr⟩ | ⟨_, _, hr⟩
    · rw [hr, ih]
      rfl
    · rw [ht] at hseg
      rw [hr, ih]
      exact hseg
    · rw [hr]
      exact hseg

theorem machoFindEntry_keeps (img : Mem) (header : Word) (n : ℕ) (lc : Word) (s : Loader) :
    (machoFindEntry img header n lc s).vm = s.vm ∧
      (machoFindEntry img header n lc s).stores = s.stores ∧
      (machoFindEntry img header n lc s).image.header = s.image.header := by
  induction n generalizing lc s with
  | zero => exact ⟨rfl, rfl, rfl⟩
  | succ n ih =>
    rw [machoFindEntry]
    dsimp only
    split_ifs
    · exact ⟨rfl, rfl, rfl⟩
    · exact ih _ _

/-- A load that succeeds has accepted the header and parsed the segments, and ends in
`macho_find_entry`. -/
theorem machoLoad_found {imageSize imageOut : Word}
    (hl : machoLoad h img map imageData imageSize imageOut s = (some .success, t)) :
    HeaderAccepted img map imageData imageSize imageOut ∧
    ∃ t', machoParseSegments h img imageData imageData map (mhNcmds img imageData).toNat
        (imageData+sizeofMachHeader64) (s.start imageData imageSize) = (some .success, t') ∧
      t = machoFindEntry img imageData (mhNcmds img imageData).toNat
        (imageData+sizeofMachHeader64) t' := by
  by_cases ha : HeaderAccepted img map imageData imageSize imageOut
  swap
  · obtain ⟨kr, rs, hl', hne, _⟩ := machoLoad_rejected (h := h) (s := s) ha
    exact absurd (Option.some.inj (Prod.mk.inj (hl'.symm.trans hl)).1) hne
  rcases machoLoad_accepted (h := h) (s := s) ha with ⟨t', ht, hl'⟩ | ⟨r, t', _, hne, hl'⟩
  · exact ⟨ha, t', ht, (Prod.mk.inj (hl.symm.trans hl')).2⟩
  · exact absurd (Prod.mk.inj (hl'.symm.trans hl)).1 hne

/-- A load that succeeds has parsed the segments, and leaves the header in the image. -/
theorem machoLoad_success {imageSize imageOut : Word}
    (hl : machoLoad h img map imageData imageSize imageOut s = (some .success, t)) :
    imageOut ≠ 0 ∧ imageData ≠ 0 ∧ t.image.header = imageData ∧
    ∃ t', machoParseSegments h img imageData imageData map (mhNcmds img imageData).toNat
        (imageData+sizeofMachHeader64) (s.start imageData imageSize) = (some .success, t') ∧
      t.vm = t'.vm ∧ t.stores = t'.stores := by
  obtain ⟨ha, t', ht, rfl⟩ := machoLoad_found hl
  obtain ⟨hvm, hstores, hheader⟩ := machoFindEntry_keeps img imageData (mhNcmds img imageData).toNat
    (imageData+sizeofMachHeader64) t'
  have hparse := machoParseSegments_header h img imageData imageData map
    (mhNcmds img imageData).toNat (imageData+sizeofMachHeader64) (s.start imageData imageSize)
  rw [ht] at hparse
  exact ⟨ha.out_ne, ha.data_ne, hheader.trans hparse, t', ht, hvm, hstores⟩

end Frame

end Dana
