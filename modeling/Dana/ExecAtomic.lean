import Dana.ExecMap
import Dana.LoadReads
import Dana.VmRollback

/-! What `exec_load` leaves behind when it fails: everything from the first segment that is
mapped on. -/
namespace Dana
open ByteMem AddrLoop LinkedRing Transition

/-- The map of the task, its entries and its translations, and the data pages are the same. -/
structure ExecUnchanged (h : Hhdm) (task : Word) (s s' : ExecState) : Prop where
  map : s'.taskMap task = s.taskMap task
  entries : s.taskMap task ≠ vmMapNull →
    s'.load.vm.maps (s.taskMap task) = s.load.vm.maps (s.taskMap task) ∧
    vmEntries s'.load.vm (s.taskMap task) = vmEntries s.load.vm (s.taskMap task) ∧
    ∀ l, vmEntries s.load.vm (s.taskMap task) = some l → ∀ e ∈ l,
      s'.load.vm.body e = s.load.vm.body e
  translations : s.taskMap task ≠ vmMapNull → ∀ va, UserVa va →
    pmapTranslation h s'.load.vm.pm (s.load.vm.maps (s.taskMap task)).pmap va =
      pmapTranslation h s.load.vm.pm (s.load.vm.maps (s.taskMap task)).pmap va
  data : ∀ n, n ∈ s'.load.vm.data ↔ n ∈ s.load.vm.data

/-- The first segment of the `n` commands from `lc` on that has pages. -/
def firstSegment (img : Mem) : ℕ → Word → Option Word
  | 0, _ => none
  | n+1, lc =>
    if lcCmd img lc = lcSegment64 ∧ segVmsize img lc ≠ 0 then some lc
    else firstSegment img n (lcNext img lc)

/-- A segment that fails before it has done anything: it is out of range, or there is no frame
for its first page and no entry straddles its start. -/
def SegFailsClean (h : Hhdm) (s : VmState) (m : VmMapPtr) (img : Mem) (seg : Word) : Prop :=
  vmRangeOk (s.maps m) (segVmaddr img seg) (segVmsize img seg) = false ∨
  s.pm.kmem.pmm.frames.card < framesFor h s.pm (s.maps m).pmap [segVmaddr img seg] ∧
    ∀ l, vmEntries s m = some l → ∀ e ∈ l, ¬ s.Straddles e (segVmaddr img seg)

/-- `exec_load` fails before it has done anything. -/
def ExecFailsClean (h : Hhdm) (img : Mem) (task imageData imageSize entryPoint : Word)
    (s : ExecState) : Prop :=
  (task = 0 ∨ imageData = 0 ∨ entryPoint = 0) ∨
  (s.taskMap task = vmMapNull ∧ NoMapMemory s.load.vm) ∨
  s.taskMap task ≠ vmMapNull ∧
    (¬ HeaderAccepted img (s.taskMap task) imageData imageSize localPtr ∨
      ∃ seg, firstSegment img (mhNcmds img imageData).toNat (imageData+sizeofMachHeader64) = some seg ∧
        SegFailsClean h s.load.vm (s.taskMap task) img seg)

section Spoiled
variable {h : Hhdm} {img : Mem} {l₀ l : List EntryPtr} {d₀ : List ℕ} {m : VmMapPtr}
  {s s' : VmState} {t t' : Loader} {start size : Word} {prot : BitVec 32} {kr : KernReturn}

theorem storeByte_only (va : Word) (b : Byte) :
    PagesOnly t.vm (stateOf (t.storeByte h va b)).vm ∧
      (stateOf (t.storeByte h va b)).vm.data = t.vm.data := by
  unfold Loader.storeByte
  split
  · exact ⟨PagesOnly.refl, rfl⟩
  · exact ⟨⟨rfl, rfl⟩, rfl⟩

theorem machoCopy_only (h : Hhdm) (img : Mem) (imageData seg : Word) (t : Loader) :
    PagesOnly t.vm (stateOf (machoCopy h img imageData seg t)).vm ∧
      (stateOf (machoCopy h img imageData seg t)).vm.data = t.vm.data := by
  refine machoCopy_inv (I := fun t' => PagesOnly t.vm t'.vm ∧ t'.vm.data = t.vm.data)
    (fun _ _ _ ht => ht) (fun t' va b ht => ?_) ⟨PagesOnly.refl, rfl⟩ seg
  obtain ⟨honly, hdata⟩ := storeByte_only (h := h) (t := t') va b
  exact ⟨ht.1.trans honly, hdata.trans ht.2⟩

theorem Spoiled.copy {vm : VmState} (hs : Spoiled l₀ d₀ m l vm) (h : Hhdm) (img : Mem)
    (imageData seg : Word) (t : Loader) :
    Spoiled l₀ d₀ m l (stateOf (machoCopy h img imageData seg (t.mapped img seg vm))).vm := by
  obtain ⟨honly, hdata⟩ := machoCopy_only h img imageData seg (t.mapped img seg vm)
  have hvm : (t.mapped img seg vm).vm = vm := machoBase_vm seg
  rw [hvm] at honly hdata
  exact hs.pages honly (hdata ▸ List.Subset.refl _)

/-- Once spoiled, the map stays so to the end of the load. -/
theorem Spoiled.segment (hs : Spoiled l₀ d₀ m l t.vm) (h : Hhdm)
    (img : Mem) (imageData seg : Word) :
    ∃ l', Spoiled l₀ d₀ m l' (machoSegment h img imageData m seg t).2.vm := by
  rcases machoSegment_cases h img imageData m seg t with ⟨_, hr⟩ | ⟨_, ⟨_, hr⟩ |
    ⟨_, hr | ⟨vm, hvm, hr⟩ | ⟨vm, hvm, ⟨t', ht, hr⟩ | ⟨t', ht, hr⟩⟩⟩⟩
  · exact ⟨l, hr ▸ hs⟩
  · exact ⟨l, hr ▸ hs⟩
  · exact ⟨l, hr ▸ hs⟩
  · obtain ⟨l', hs'⟩ := hs.pageRange hvm
    exact ⟨l', hr ▸ hs'⟩
  · obtain ⟨l', hs'⟩ := hs.pageRange hvm
    have hc := hs'.copy h img imageData seg t
    rw [ht] at hc
    exact ⟨l', hr ▸ hc⟩
  · obtain ⟨l', hs'⟩ := hs.pageRange hvm
    have hc := hs'.copy h img imageData seg t
    rw [ht] at hc
    exact ⟨l', hr ▸ hc⟩

theorem Spoiled.parse (hs : Spoiled l₀ d₀ m l t.vm) (h : Hhdm)
    (img : Mem) (header imageData : Word) (n : ℕ) (lc : Word) :
    ∃ l', Spoiled l₀ d₀ m l' (machoParseSegments h img header imageData m n lc t).2.vm := by
  induction n generalizing lc t l with
  | zero => exact ⟨l, hs⟩
  | succ n ih =>
    obtain ⟨l', hs'⟩ := Spoiled.segment (t := t.readCommand header lc) hs h img imageData lc
    rcases machoParseSegments_cases h img header imageData m n lc t with
      ⟨t', ⟨_, rfl⟩ | ⟨_, ht⟩, hr⟩ | ⟨_, _, hr⟩
    · rw [hr]
      exact ih (t := (t.readCommand header lc).read (lc+4) 4) hs _
    · rw [ht] at hs'
      rw [hr]
      exact ih (t := t'.read (lc+4) 4) hs' _
    · exact ⟨l', hr ▸ hs'⟩

/-- The walk comes to the first segment that has pages without having done anything. -/
theorem machoParseSegments_first (h : Hhdm) (img : Mem) (header imageData : Word) (m : VmMapPtr)
    (n : ℕ) (lc : Word) (t : Loader) :
    (firstSegment img n lc = none ∧
      ∃ t', t'.vm = t.vm ∧ machoParseSegments h img header imageData m n lc t = (some .success, t')) ∨
    ∃ seg k t', firstSegment img n lc = some seg ∧ lcCmd img seg = lcSegment64 ∧
      segVmsize img seg ≠ 0 ∧ t'.vm = t.vm ∧
      machoParseSegments h img header imageData m n lc t =
        machoParseSegments h img header imageData m (k+1) seg t' := by
  induction n generalizing lc t with
  | zero => exact Or.inl ⟨rfl, t.read (header+16) 4, rfl, rfl⟩
  | succ n ih =>
    rw [firstSegment]
    by_cases hc : lcCmd img lc = lcSegment64 ∧ segVmsize img lc ≠ 0
    · rw [if_pos hc]
      exact Or.inr ⟨lc, n, t, rfl, hc.1, hc.2, rfl, rfl⟩
    rw [if_neg hc]
    have hnext {t' : Loader} (hr : machoParseSegments h img header imageData m (n+1) lc t =
          machoParseSegments h img header imageData m n (lcNext img lc) t') (hvm : t'.vm = t.vm) :
        (firstSegment img n (lcNext img lc) = none ∧
          ∃ t', t'.vm = t.vm ∧
            machoParseSegments h img header imageData m (n+1) lc t = (some .success, t')) ∨
        ∃ seg k t', firstSegment img n (lcNext img lc) = some seg ∧ lcCmd img seg = lcSegment64 ∧
          segVmsize img seg ≠ 0 ∧ t'.vm = t.vm ∧
          machoParseSegments h img header imageData m (n+1) lc t =
            machoParseSegments h img header imageData m (k+1) seg t' := by
      rw [hr, ← hvm]
      exact ih _ _
    have hskip (hcmd : lcCmd img lc = lcSegment64) (t' : Loader) :
        machoSegment h img imageData m lc t' = (some .success, t'.read (lc+32) 8) := by
      have hz : segVmsize img lc = 0 := by
        by_contra hz
        exact hc ⟨hcmd, hz⟩
      rw [machoSegment, if_pos hz]
    rcases machoParseSegments_cases h img header imageData m n lc t with
      ⟨t', ⟨_, rfl⟩ | ⟨hcmd, ht⟩, hr⟩ | ⟨hcmd, hne, _⟩
    · exact hnext hr rfl
    · rw [hskip hcmd] at ht
      obtain ⟨_, rfl⟩ := Prod.mk.inj ht
      exact hnext hr rfl
    · rw [hskip hcmd] at hne
      exact absurd rfl hne

end Spoiled

section First
variable {h : Hhdm} {g g' : VmGhost} {maps : Set VmMapPtr} {lists : VmMapPtr → List EntryPtr}
  {s s' : VmState} {m : VmMapPtr} {start size stop flags : Word} {prot : BitVec 32} {kr : KernReturn}
  {img : Mem} {seg : Word} {t t' : Loader}

theorem segFailsClean_iff (hI : VmInv h g maps lists s) (hm : m ∈ maps) :
    SegFailsClean h s m img seg ↔
      vmRangeOk (s.maps m) (segVmaddr img seg) (segVmsize img seg) = false ∨
      s.pm.kmem.pmm.frames.card < framesFor h s.pm (s.maps m).pmap [segVmaddr img seg] ∧
        ∀ e ∈ lists m, ¬ s.Straddles e (segVmaddr img seg) := by
  have hl : vmEntries s m = some (lists m) := (hI.map m hm).ring.follow_next _ (hI.length_le hm)
  rw [SegFailsClean, hl]
  simp only [Option.some.injEq, forall_eq']

/-- A load that fails at the first segment that has pages, or after it. -/
theorem machoParseSegments_fails {imageData header : Word} {n : ℕ}
    (hI : VmInv h g maps lists t.vm) (hm : m ∈ maps) (hcmd : lcCmd img seg = lcSegment64)
    (hz : segVmsize img seg ≠ 0)
    (hr : machoParseSegments h img header imageData m (n+1) seg t = (some kr, t')) :
    (SegFailsClean h t.vm m img seg ∧ MapUnchanged h m t.vm t'.vm) ∨
    (¬ SegFailsClean h t.vm m img seg ∧ ∃ l, Spoiled (lists m) t.vm.data m l t'.vm) := by
  rw [segFailsClean_iff hI hm]
  have hrange {k : KernReturn} {vm : VmState} (hvm : vmMapPageRange h t.vm m (segVmaddr img seg)
      (segVmsize img seg) (machoProt (segInitprot img seg)) = some (k, vm)) :=
    vmMapPageRange_first hI hm hvm
  rcases machoParseSegments_cases h img header imageData m n seg t with
    ⟨t1, ⟨hc, _⟩ | ⟨_, ht1⟩, hr'⟩ | ⟨_, hne, hr'⟩
  · exact absurd hcmd hc
  · -- the segment has been mapped, and a later one fails
    obtain ⟨hz', _⟩ | ⟨_, hok, vm, hvm, ht2⟩ := machoSegment_done ht1
    · exact absurd hz' hz
    rcases hrange hvm with ⟨hbad, _⟩ | ⟨_, ⟨hfit, l, hsp⟩ | ⟨_, hk, _⟩⟩
    · cases hok.symm.trans hbad
    · refine Or.inr ⟨fun hclean => ?_, ?_⟩
      · rcases hclean with hbad | ⟨hlow, _⟩
        · cases hok.symm.trans hbad
        · omega
      · have hcopy := hsp.copy h img imageData seg (t.readCommand header seg)
        rw [ht2] at hcopy
        have hend := Spoiled.parse (t := t1.read (seg+4) 4) hcopy h img header
          imageData n (lcNext img seg)
        rw [← hr', hr] at hend
        exact hend
    · cases hk
  · rw [hr'] at hr
    rcases machoSegment_cases h img imageData m seg (t.readCommand header seg) with ⟨hz', _⟩ |
      ⟨_, ⟨hok, hs⟩ | ⟨hok, hs | ⟨vm, hvm, hs⟩ | ⟨vm, _, ⟨t2, _, hs⟩ | ⟨t2, _, hs⟩⟩⟩⟩
    · exact absurd hz' hz
    · obtain ⟨_, rfl⟩ := Prod.mk.inj (hr.symm.trans hs)
      exact Or.inl ⟨Or.inl hok, MapUnchanged.refl⟩
    · cases (Prod.mk.inj (hr.symm.trans hs)).1
    · obtain ⟨_, rfl⟩ := Prod.mk.inj (hr.symm.trans hs)
      rcases hrange hvm with ⟨hbad, _⟩ | ⟨_, ⟨hfit, hsp⟩ | ⟨hlow, _, ⟨hno, hun⟩ | ⟨⟨e, he, hst⟩, hsp⟩⟩⟩
      · cases hok.symm.trans hbad
      · refine Or.inr ⟨fun hclean => ?_, hsp⟩
        rcases hclean with hbad | ⟨hlow, _⟩
        · cases hok.symm.trans hbad
        · omega
      · exact Or.inl ⟨Or.inr ⟨hlow, hno⟩, hun⟩
      · refine Or.inr ⟨fun hclean => ?_, hsp⟩
        rcases hclean with hbad | ⟨_, hno⟩
        · cases hok.symm.trans hbad
        · exact hno e he hst
    · cases (Prod.mk.inj (hr.symm.trans hs)).1
    · rw [hs] at hne
      exact absurd rfl hne

end First

section Exec
variable {h : Hhdm} {img : Mem} {w : VmWorld} {s s' : ExecState} {kr : KernReturn}
  {task imageData imageSize entryPoint : Word}

/-- When `exec_load` fails, the map, its entries and translations and the data pages are what
they were if and only if it fails before it has mapped a page or made a map. -/
theorem exec_load_atomic {s₀ vm₀ : VmState} (hb : VmBoot h s₀) (hs : vmMapInit s₀ = some vm₀)
    {trace : List VmOp} (hr : Run (VmStep h) (VmWorld.boot vm₀) trace w) (ho : ExecOver w s)
    (hrun : execLoad h img task imageData imageSize entryPoint s = (some kr, s'))
    (hkr : kr ≠ .success) :
    ExecUnchanged h task s s' ↔ ExecFailsClean h img task imageData imageSize entryPoint s := by
  obtain ⟨g, lists, hW⟩ := VmWorldInv.run hb hs hr
  have hI := ho.inv hW
  have hsame : ExecUnchanged h task s s :=
    ⟨rfl, fun _ => ⟨rfl, rfl, fun _ _ _ _ => rfl⟩, fun _ _ _ => rfl, fun _ => Iff.rfl⟩
  rcases execLoad_cases h img task imageData imageSize entryPoint s with ⟨hnull, hrun'⟩ |
    ⟨hnull, ⟨s₁, hm, hrun'⟩ | ⟨s₁, hm, ⟨l, _, hrun'⟩ | ⟨r, l, hl, hne, hrun'⟩⟩⟩
  · obtain ⟨_, rfl⟩ := Prod.mk.inj (hrun.symm.trans hrun')
    exact ⟨fun _ => Or.inl hnull, fun _ => hsame⟩
  · obtain ⟨_, rfl⟩ := Prod.mk.inj (hrun.symm.trans hrun')
    obtain ⟨htask, hmem, htask', hdata⟩ := execMap_false hI hm
    refine ⟨fun _ => Or.inr (Or.inl ⟨htask, hmem⟩), fun _ => ⟨htask'.trans htask.symm,
      fun hne => absurd htask hne, fun hne => absurd htask hne, fun n => by rw [hdata]⟩⟩
  · obtain ⟨hk, _⟩ := Prod.mk.inj (hrun.symm.trans hrun')
    exact absurd (Option.some.inj hk) hkr
  obtain ⟨rfl, rfl⟩ := Prod.mk.inj (hrun.symm.trans hrun')
  rcases execMap_true hm with ⟨rfl, htask⟩ | ⟨htask, p, pm, m, vm, _, _, hmne, rfl⟩
  swap
  · -- a new map stays when the load fails
    refine ⟨fun hu => ?_, fun hc => ?_⟩
    · have hmap := hu.map
      dsimp only at hmap
      rw [Function.update_self, htask] at hmap
      exact absurd hmap hmne
    · rcases hc with hc | ⟨_, hc⟩ | ⟨hc, _⟩
      · exact absurd hc hnull
      · exact absurd hc (execMap_memory hI hm htask)
      · exact absurd htask hc
  have hmap := (ho.tasks task).resolve_left htask
  have hclean : ExecFailsClean h img task imageData imageSize entryPoint s₁ ↔
      ¬ HeaderAccepted img (s₁.taskMap task) imageData imageSize localPtr ∨
      ∃ seg, firstSegment img (mhNcmds img imageData).toNat (imageData+sizeofMachHeader64) = some seg ∧
        SegFailsClean h s₁.load.vm (s₁.taskMap task) img seg := by
    rw [ExecFailsClean]
    constructor
    · rintro (hc | ⟨hc, _⟩ | ⟨_, hc⟩)
      · exact absurd hc hnull
      · exact absurd hc htask
      · exact hc
    · exact fun hc => Or.inr (Or.inr ⟨htask, hc⟩)
  rw [hclean]
  by_cases ha : HeaderAccepted img (s₁.taskMap task) imageData imageSize localPtr
  swap
  · obtain ⟨k, rs, hl', _⟩ := machoLoad_rejected (h := h) (s := s₁.load) ha
    obtain ⟨_, rfl⟩ := Prod.mk.inj (hl.symm.trans hl')
    exact ⟨fun _ => Or.inl ha, fun _ => ⟨rfl, fun _ => ⟨rfl, rfl, fun _ _ _ _ => rfl⟩,
      fun _ _ _ => rfl, fun _ => Iff.rfl⟩⟩
  rcases machoLoad_accepted (h := h) (s := s₁.load) ha with ⟨t, _, hl'⟩ | ⟨r, t, hp, _, hl'⟩
  · exact absurd (Prod.mk.inj (hl.symm.trans hl')).1 hne
  obtain ⟨rfl, rfl⟩ := Prod.mk.inj (hl.symm.trans hl')
  rcases machoParseSegments_first h img imageData imageData (s₁.taskMap task)
    (mhNcmds img imageData).toNat (imageData+sizeofMachHeader64) (s₁.load.start imageData imageSize)
    with ⟨_, t', _, ht'⟩ | ⟨seg, k, t', hseg, hcmd, hz, hvm, ht'⟩
  · exact absurd (Prod.mk.inj (hp.symm.trans ht')).1 hne
  have hvm' : t'.vm = s₁.load.vm := hvm
  have hfail := machoParseSegments_fails (t := t') (hvm' ▸ hI) hmap hcmd hz (ht'.symm.trans hp)
  rw [hvm'] at hfail
  rcases hfail with ⟨hc, hun⟩ | ⟨hc, l', hsp⟩
  · refine ⟨fun _ => Or.inr ⟨seg, hseg, hc⟩, fun _ => ⟨rfl, fun _ => ⟨hun.map, hun.entries,
      fun _ _ e _ => hun.body e⟩, fun _ => hun.translation, hun.data⟩⟩
  · refine ⟨fun hu => absurd ⟨(hu.entries htask).2.1, hu.data⟩
      (hsp.changed (hI.map _ hmap)), fun hc' => ?_⟩
    rcases hc' with hc' | ⟨seg', hseg', hc'⟩
    · exact absurd ha hc'
    · obtain rfl := Option.some.inj (hseg.symm.trans hseg')
      exact absurd hc' hc

end Exec

/-- A segment that is mapped and one that is out of range. -/
def secondBadImage : Mem := imageAt 0x100000
  (machHeader 2 144 ++ segmentCommand 0x10000 0x1000 0 0 3 ++ segmentCommand 0 0x1000 0 0 3)

/-- The state of `exec_load` over `vmFirst`, with its map for the task at 0x2000. -/
def execMapped : ExecState := ⟨⟨vmFirst, ⟨0, 0, 0, 0⟩, [], []⟩,
  fun task => if task = 0x2000 then vmFirstMap else vmMapNull, 0⟩

theorem execMapped_over : ExecOver vmFirstWorld execMapped := by
  refine ⟨rfl, fun task => ?_⟩
  by_cases hc : task = 0x2000
  · exact Or.inr (if_pos hc)
  · exact Or.inl (if_neg hc)

theorem execMapped_second : execLoad higherHalf secondBadImage 0x2000 0x100000 0xb0 0x3000 execMapped =
    (some .invalidArgument,
      (execLoad higherHalf secondBadImage 0x2000 0x100000 0xb0 0x3000 execMapped).2) := by
  have hkr : (execLoad higherHalf secondBadImage 0x2000 0x100000 0xb0 0x3000 execMapped).1 =
      some .invalidArgument := by decide +kernel
  rw [← hkr]

theorem exec_load_atomic_second :
    ExecUnchanged higherHalf 0x2000 execMapped
      (execLoad higherHalf secondBadImage 0x2000 0x100000 0xb0 0x3000 execMapped).2 ↔
    ExecFailsClean higherHalf secondBadImage 0x2000 0x100000 0xb0 0x3000 execMapped :=
  exec_load_atomic vmBootState_boot vmBooted_init vmFirst_run execMapped_over execMapped_second
    (by decide)

/-- The first segment stays in the map of the task. -/
theorem exec_load_leaves_segment :
    ReadsInside 0x100000 0xb0
      (execLoad higherHalf secondBadImage 0x2000 0x100000 0xb0 0x3000 execMapped).2.load ∧
    (execLoad higherHalf secondBadImage 0x2000 0x100000 0xb0 0x3000 execMapped).1 =
      some .invalidArgument ∧
    ¬ ExecUnchanged higherHalf 0x2000 execMapped
      (execLoad higherHalf secondBadImage 0x2000 0x100000 0xb0 0x3000 execMapped).2 := by
  refine ⟨by decide +kernel, by decide +kernel, fun hu => ?_⟩
  have hdata : (execLoad higherHalf secondBadImage 0x2000 0x100000 0xb0 0x3000
      execMapped).2.load.vm.data = [6] := by decide +kernel
  have hn := (hu.data 6).mp (by rw [hdata]; simp)
  exact absurd hn (by decide)

end Dana
