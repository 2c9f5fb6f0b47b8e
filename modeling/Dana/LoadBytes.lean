import Dana.ExecDarwin
import Dana.LoadStores
import Dana.VmBytes

/-! The bytes that a load gives an address space: the pages of a segment are zeroed, and the
bytes of the file are laid over them, if the stores go through the tables of the target. -/
namespace Dana
open ByteMem RadixTree AddrLoop

/-- The bytes `F` are laid over those of `p`; the other address spaces, the user bytes of the
pmaps in `live` included, are what they were. -/
structure Overlaid (h : Hhdm) (live : Set PmapPtr) (p : PmapPtr) (F : Word → Option Byte)
    (s s' : VmState) : Prop where
  bytes : ∀ va, UserVa va → s'.byteAt h p va = (F va).or (s.byteAt h p va)
  user : ∀ q ∈ live, q ≠ p → ∀ va, UserVa va → s'.byteAt h q va = s.byteAt h q va
  others : ∀ q, q = .kernel ∨ q ∈ live → q ≠ p → ∀ va,
    pmapTranslation h s'.pm q va = pmapTranslation h s.pm q va

/-- The bytes of a segment: `filesize` from the image, and then 0 up to `vmsize`. -/
def segByte (img : Mem) (imageData seg va : Word) : Option Byte :=
  if InSegment img seg va then
    if (va-segVmaddr img seg).toNat < (segFilesize img seg).toNat then
      some (img (imageData+segFileoff img seg+(va-segVmaddr img seg)))
    else some 0
  else none

/-- The segments with pages among the `n` commands from `lc` on. -/
def segmentsOf (img : Mem) : ℕ → Word → List Word
  | 0, _ => []
  | n+1, lc =>
    if lcCmd img lc = lcSegment64 ∧ segVmsize img lc ≠ 0 then
      lc :: segmentsOf img n (lcNext img lc)
    else segmentsOf img n (lcNext img lc)

/-- The bytes of the segments, those of a later one over those of an earlier one. -/
def segsByte (img : Mem) (imageData : Word) (segs : List Word) (va : Word) : Option Byte :=
  match segs with
  | [] => none
  | seg :: segs => (segsByte img imageData segs va).or (segByte img imageData seg va)

section Overlay
variable {h : Hhdm} {live : Set PmapPtr} {p : PmapPtr} {F F' : Word → Option Byte}
  {s s' s'' : VmState}

theorem Overlaid.refl : Overlaid h live p (fun _ => none) s s :=
  ⟨fun _ _ => rfl, fun _ _ _ _ _ => rfl, fun _ _ _ _ => rfl⟩

theorem Overlaid.trans (h1 : Overlaid h live p F s s') (h2 : Overlaid h live p F' s' s'') :
    Overlaid h live p (fun va => (F' va).or (F va)) s s'' := by
  refine ⟨fun va hva => ?_, fun q hq hne va hva => ?_, fun q hq hne va => ?_⟩
  · rw [h2.bytes va hva, h1.bytes va hva, Option.or_assoc]
  · rw [h2.user q hq hne va hva, h1.user q hq hne va hva]
  · rw [h2.others q hq hne va, h1.others q hq hne va]

theorem Overlaid.congr (ho : Overlaid h live p F s s') (hF : ∀ va, UserVa va → F' va = F va) :
    Overlaid h live p F' s s' :=
  ⟨fun va hva => by rw [ho.bytes va hva, hF va hva], ho.user, ho.others⟩

end Overlay

section Load
variable {h : Hhdm} {g : VmGhost} {maps : Set VmMapPtr} {lists : VmMapPtr → List EntryPtr}
  {s s' t : Loader} {vm vm' : VmState} {m : VmMapPtr} {p : PmapPtr} {img : Mem}
  {imageData seg va start stop flags : Word} {F : Word → Option Byte}

/-- A store through the tables of `p` lays one byte over those of `p`. -/
theorem storeByte_overlaid (hI : VmInv h g maps lists s.vm) (hp : p ∈ g.live)
    (hact : s.vm.active = p) (hva : UserVa va) {b : Byte} (hr : s.storeByte h va b = .ok s') :
    VmInv h g maps lists s'.vm ∧ s'.vm.active = p ∧
      Overlaid h g.live p (fun x => if x = va then some b else none) s.vm s'.vm ∧
      ∃ e, s'.stores = (p, va, e) :: s.stores ∧ e &&& pteP ≠ 0 ∧ e &&& pteW ≠ 0 := by
  unfold Loader.storeByte at hr
  cases hx : hwStore h s.vm.pm.kmem.mem s.vm.cr3 va with
  | none =>
    rw [hx] at hr
    cases hr
  | some x =>
    rw [VmState.cr3, hact] at hx
    obtain ⟨e, rfl, he, hP, hW⟩ := hI.mem.pmap.store_leaf hp hva hx
    rw [VmState.cr3, hact, hx] at hr
    obtain rfl := Except.ok.inj hr
    have hframe := (hI.mem.leaf p hp va e hva he).leafByte (h := h)
    have hdata : frameOf h (leafByte h e va) ∈ s.vm.data :=
      hframe ▸ (hI.mem.leaf p hp va e hva he).mem
    obtain ⟨hI', hsame⟩ := hI.writeByte hdata b
    have hsame' := hsame
    rw [← hwByte_page] at hI' hsame
    have hbyte {q : PmapPtr} (hq : q ∈ g.live) {x : Word} (hx : UserVa x) :=
      hI.mem.byteAt_store hp hva he b hsame' hq hx
    rw [← hwByte_page] at hbyte
    refine ⟨hI', hact, ⟨fun x hx => ?_, fun q hq hne x hx => ?_, fun q hq _ x => ?_⟩, e, ?_, hP, hW⟩
    · rw [hbyte hp hx]
      split_ifs with h1 h2 h2
      · rfl
      · exact absurd h1.2 h2
      · exact absurd ⟨rfl, h2⟩ h1
      · rfl
    · rw [hbyte hq hx, if_neg fun hc => hne hc.1]
    · refine hI.mem.translation_same hI'.mem rfl (fun y hy => Function.update_of_ne ?_ _ _)
        (Set.Subset.refl _) hq
        fun hq hx => hsame q hq _ _ (vaPath_path hx.lower) (vaPath_leaf x)
      rintro rfl
      rw [hwByte_page, hframe, (hI.mem.leaf p hp va e hva he).owner] at hy
      cases hy
    · rfl

/-- Pages that are mapped are zeros laid over the bytes of their map. -/
theorem vmMapPageRange_overlaid {size : Word} {prot : BitVec 32} (hI : VmInv h g maps lists vm)
    (hm : m ∈ maps) (ha : PageAligned start) (hs : PageAligned size)
    (hr : vmMapPageRange h vm m start size prot = some (.success, vm')) :
    ∃ own', VmInv h { g with own := own' } maps lists vm' ∧
      Overlaid h g.live (vm.maps m).pmap (fun va => if start.toNat ≤ va.toNat ∧
        va.toNat < start.toNat+size.toNat then some 0 else none) vm vm' := by
  rcases vmMapPageRange_spec hI hm start size prot with ⟨_, hrun⟩ |
    ⟨hok, own', pm', data', hI', ⟨hrun, _, hmap⟩ | ⟨_, _, _, _, _, _, _, hrun, _⟩⟩
  · cases (Prod.mk.inj (Option.some.inj (hr.symm.trans hrun))).1
  swap
  · cases (Prod.mk.inj (Option.some.inj (hr.symm.trans hrun))).1
  have hp := hI.pmap m hm
  have hstop := hI.stop_le hm hok
  have hmem (x : Word) (hx : frameOf h x ∈ vm.data) : vm'.pm.kmem.mem x = vm.pm.kmem.mem x :=
    vmPagesIn_mem hI.mem hp hstop (vmMapPageRange_success hr).2 hx
  obtain ⟨_, rfl⟩ := Prod.mk.inj (Option.some.inj (hr.symm.trans hrun))
  have hsum := vmRange_stop hok
  have hstop4 : (start+size).toNat%4096 = 0 := by
    rw [PageAligned] at ha hs
    omega
  have hother (q : PmapPtr) (hq : q ∈ g.live) (hne : q ≠ (vm.maps m).pmap) (va : Word)
      (hva : UserVa va) : pteOf h pm' q va = pteOf h vm.pm q va :=
    hmap.paged.entry q hq hne _ _ (vaPath_path hva.lower) (vaPath_leaf va)
  refine ⟨own', hI', fun va hva => ?_, fun q hq hne va hva => ?_, fun q hq hne va => ?_⟩
  · have hiff : (∃ a ∈ pageAddrs start (start+size), pageOf a = pageOf va) ↔
        start ≤ va ∧ va < start+size := page_iff_range ha hstop4 hstop
    rw [BitVec.le_def, BitVec.lt_def, hsum] at hiff
    split_ifs with hc
    · have hzero := hmap.byteAt_in hI'.mem hp hva (hiff.mpr hc)
      exact hzero
    · refine hI.mem.byteAt_congr hp hva ?_ hmem
      exact hmap.other va hva fun a ha hpage => hc (hiff.mp ⟨a, ha, hpage⟩)
  · exact hI.mem.byteAt_congr hq hva (hother q hq hne va hva) hmem
  · exact hmap.paged.translation hI.mem hI'.mem rfl hq fun hqp => absurd hqp hne

/-- The stores since `s` went through present, writable leaves of `p`. -/
def StoresThrough (p : PmapPtr) (s t : Loader) : Prop :=
  ∃ new, t.stores = new ++ s.stores ∧ ∀ x ∈ new, x.1 = p ∧ x.2.2 &&& pteP ≠ 0 ∧ x.2.2 &&& pteW ≠ 0

theorem StoresThrough.refl : StoresThrough p s s := ⟨[], rfl, by simp⟩

theorem StoresThrough.trans (h1 : StoresThrough p s s') (h2 : StoresThrough p s' t) :
    StoresThrough p s t := by
  obtain ⟨new, he, hnew⟩ := h1
  obtain ⟨new', he', hnew'⟩ := h2
  refine ⟨new' ++ new, by rw [he', he, List.append_assoc], fun x hx => ?_⟩
  rcases List.mem_append.mp hx with hx | hx
  · exact hnew' x hx
  · exact hnew x hx

/-- What a part of a load has done: the bytes `F` are laid over those of `p`, through `p`. -/
structure Loaded (h : Hhdm) (g : VmGhost) (maps : Set VmMapPtr) (lists : VmMapPtr → List EntryPtr)
    (p : PmapPtr) (F : Word → Option Byte) (s t : Loader) : Prop where
  inv : ∃ own', VmInv h { g with own := own' } maps lists t.vm
  overlay : Overlaid h g.live p F s.vm t.vm
  stores : StoresThrough p s t

theorem Loaded.refl (hI : VmInv h g maps lists s.vm) :
    Loaded h g maps lists p (fun _ => none) s s := ⟨⟨g.own, hI⟩, Overlaid.refl, StoresThrough.refl⟩

/-- A part of a load that only reads. -/
theorem Loaded.of_read (hvm : s'.vm = s.vm) (hst : s'.stores = s.stores)
    (hl : Loaded h g maps lists p F s' t) : Loaded h g maps lists p F s t := by
  refine ⟨hl.inv, hvm ▸ hl.overlay, ?_⟩
  have hthrough := hl.stores
  rwa [StoresThrough, hst] at hthrough

theorem Loaded.trans {F' : Word → Option Byte} (h1 : Loaded h g maps lists p F s s')
    (h2 : ∀ own', VmInv h { g with own := own' } maps lists s'.vm →
      Loaded h { g with own := own' } maps lists p F' s' t) :
    Loaded h g maps lists p (fun va => (F' va).or (F va)) s t := by
  obtain ⟨own', hI⟩ := h1.inv
  have h2 := h2 own' hI
  exact ⟨h2.inv, h1.overlay.trans h2.overlay, h1.stores.trans h2.stores⟩

theorem Loaded.congr {F' : Word → Option Byte} (hl : Loaded h g maps lists p F s t)
    (hF : ∀ va, UserVa va → F' va = F va) : Loaded h g maps lists p F' s t :=
  ⟨hl.inv, hl.overlay.congr hF, hl.stores⟩

/-- A loop of stores lays its bytes over those of `p`. -/
theorem forBytes_loaded {body : Word → Loader → Except Loader Loader} {f : Word → Byte} {n : ℕ}
    {dst : Word} (hI : VmInv h g maps lists s.vm) (hp : p ∈ g.live) (hact : s.vm.active = p)
    (huser : dst.toNat+n ≤ 2^47)
    (hbody : ∀ d t t', body d t = .ok t' → ∃ t1 : Loader, t1.vm = t.vm ∧ t1.stores = t.stores ∧
      t1.storeByte h d (f d) = .ok t')
    (hr : forBytes body n dst s = .ok t) :
    VmInv h g maps lists t.vm ∧
      Loaded h g maps lists p (fun va => if (va-dst).toNat < n then some (f va) else none) s t := by
  have hend := forBytes_ok (I := fun i t => VmInv h g maps lists t.vm ∧ t.vm.active = p ∧
      Overlaid h g.live p (fun va => if (va-dst).toNat < i then some (f va) else none) s.vm t.vm ∧
      StoresThrough p s t) n dst (fun i hi t t' ht hb => ?_) ⟨hI, hact, ?_, StoresThrough.refl⟩ hr
  · exact ⟨hend.1, ⟨g.own, hend.1⟩, hend.2.2.1, hend.2.2.2⟩
  · obtain ⟨hIt, hactt, hover, hstores⟩ := ht
    obtain ⟨t1, hvm, hst, hb⟩ := hbody _ _ _ hb
    have hd : (dst+BitVec.ofNat 64 i).toNat = dst.toNat+i := by
      rw [BitVec.toNat_add, BitVec.toNat_ofNat]
      omega
    have hva : UserVa (dst+BitVec.ofNat 64 i) := by
      rw [UserVa, hd]
      omega
    rw [← hvm] at hIt hactt hover
    obtain ⟨hI', hact', hover', e, hst', hPW⟩ := storeByte_overlaid hIt hp hactt hva hb
    refine ⟨hI', hact', (hover.trans hover').congr fun va _ => ?_, hstores.trans ⟨[_],
      hst'.trans (congrArg (_ :: ·) hst), ?_⟩⟩
    · by_cases hc : va = dst+BitVec.ofNat 64 i
      · rw [if_pos hc, hc, add_sub_cancel_left, if_pos]
        · rfl
        · rw [BitVec.toNat_ofNat]
          omega
      · have hne : (va-dst).toNat ≠ i := by
          intro he
          refine hc ?_
          rw [← he, BitVec.ofNat_toNat, BitVec.setWidth_eq, BitVec.add_comm, BitVec.sub_add_cancel]
        rw [if_neg hc, Option.none_or]
        exact if_congr (by omega) rfl rfl
    · simpa using hPW
  · exact Overlaid.refl.congr fun _ _ => if_neg (Nat.not_lt_zero _)

/-- The copy of a segment: the file and then zeros. -/
theorem machoCopy_loaded {filesize vmsize : ℕ} (hI : VmInv h g maps lists s.vm) (hp : p ∈ g.live)
    (hact : segFilesize img seg = 0 ∨ s.vm.active = p)
    (hsize : (segVmsize img seg).toNat = vmsize) (hfile : (segFilesize img seg).toNat = filesize)
    (hfit : filesize ≤ vmsize) (huser : (segVmaddr img seg).toNat+vmsize ≤ 2^47)
    (hr : machoCopy h img imageData seg s = .ok t) :
    Loaded h g maps lists p (fun va => if filesize = 0 then none
      else if (va-segVmaddr img seg).toNat < filesize then
        some (img (imageData+segFileoff img seg+(va-segVmaddr img seg)))
      else if (va-segVmaddr img seg).toNat < vmsize then some 0 else none) s t := by
  have hzero : segFilesize img seg = 0 ↔ filesize = 0 := by
    rw [← hfile]
    exact ⟨fun hz => congrArg BitVec.toNat hz, fun hz => BitVec.eq_of_toNat_eq hz⟩
  obtain ⟨hz, rfl⟩ | ⟨hz, t1, hk, hset⟩ := machoCopy_done hr
  · refine Loaded.of_read (s := s) ?_ ?_ (Loaded.congr (Loaded.refl hI) fun _ _ => if_pos (hzero.mp hz))
    · rfl
    · rfl
  have hact := hact.resolve_left hz
  have hz' := fun hc => hz (hzero.mpr hc)
  rw [kmemcpy, hfile] at hk
  obtain ⟨hI1, h1⟩ := forBytes_loaded (s := s.read (seg+48) 8) (f := fun d =>
    img (imageData+segFileoff img seg+(d-segVmaddr img seg))) hI hp hact (by omega)
    (fun d t t' hb => ⟨t.read _ 1, rfl, rfl, hb⟩) hk
  have h1 : Loaded h g maps lists p _ s t1 := ⟨h1.inv, h1.overlay, h1.stores⟩
  rcases hset with ⟨hlt, hset⟩ | ⟨hlt, rfl⟩
  · have hf := kmemcpy_frame h img (segVmaddr img seg) (imageData+segFileoff img seg)
      (segFilesize img seg) (s.read (seg+48) 8)
    rw [kmemcpy, hfile, hk] at hf
    have hact1 : t1.vm.active = p := hf.vm.active.trans hact
    have hsub : (segVmsize img seg-segFilesize img seg).toNat = vmsize-filesize := by
      rw [BitVec.toNat_sub]
      have := (segVmsize img seg).isLt
      omega
    have hdst : (segVmaddr img seg+segFilesize img seg).toNat =
        (segVmaddr img seg).toNat+filesize := by
      rw [BitVec.toNat_add]
      omega
    rw [kmemset, hsub] at hset
    have h2 := h1.trans fun own' hI' => (forBytes_loaded (f := fun _ => 0) hI' hp hact1
      (by omega) (fun d t t' hb => ⟨t, rfl, rfl, hb⟩) hset).2
    refine h2.congr fun va _ => ?_
    -- the zeros start where the bytes of the file end, modulo the wrap of the distance
    have hva : (va-(segVmaddr img seg+segFilesize img seg)).toNat =
        ((va-segVmaddr img seg).toNat+(2^64-filesize))%2^64 := by
      rw [← BitVec.sub_sub, BitVec.toNat_sub, hfile, Nat.add_comm]
    have hd := (va-segVmaddr img seg).isLt
    rw [if_neg hz', hva]
    split_ifs
    · omega
    · rfl
    · rfl
    · omega
    · omega
    · rfl
  · rw [BitVec.lt_def, hfile, hsize] at hlt
    refine h1.congr fun va _ => ?_
    rw [if_neg hz']
    split_ifs
    · rfl
    · omega
    · rfl

/-- A segment that is loaded with success, with no bytes in the file or through the tables of the
target. -/
theorem machoSegment_loaded {imageSize : Word} (hI : VmInv h g maps lists s.vm) (hm : m ∈ maps)
    (hfit : SegmentFits img imageSize seg) (hz : segVmsize img seg ≠ 0)
    (hact : segFilesize img seg = 0 ∨ s.vm.active = (s.vm.maps m).pmap)
    (hr : machoSegment h img imageData m seg s = (some .success, t)) :
    Loaded h g maps lists (s.vm.maps m).pmap (segByte img imageData seg) s t := by
  obtain ⟨hz', _⟩ | ⟨_, _, vm, hvm, ht⟩ := machoSegment_done hr
  · exact absurd hz' hz
  obtain ⟨own', hI', hover⟩ := vmMapPageRange_overlaid hI hm hfit.aligned hfit.sized hvm
  have hmapped : (s.mapped img seg vm).vm = vm := machoBase_vm seg
  have hstores : (s.mapped img seg vm).stores = s.stores := machoBase_stores seg
  have h1 : Loaded h g maps lists (s.vm.maps m).pmap
      (fun va => if InSegment img seg va then some 0 else none) s (s.mapped img seg vm) := by
    rw [← hmapped] at hI' hover
    exact ⟨⟨own', hI'⟩, hover, [], hstores, by simp⟩
  have hhigh := hfit.high
  have hmax : userMapMax.toNat = 2^47-1 := rfl
  have hact' : segFilesize img seg = 0 ∨ (s.mapped img seg vm).vm.active = (s.vm.maps m).pmap := by
    rw [hmapped, (vmMapPageRange_same hvm).active]
    exact hact
  refine (h1.trans fun own' hI' => machoCopy_loaded hI' (hI.pmap m hm) hact' rfl rfl hfit.filesize
    (by omega) ht).congr fun va hva => ?_
  have hd : (va-segVmaddr img seg).toNat = (va.toNat+(2^64-(segVmaddr img seg).toNat))%2^64 := by
    rw [BitVec.toNat_sub, Nat.add_comm]
  have hva : va.toNat < 2^47 := hva
  have hsize := hfit.filesize
  rw [segByte, hd]
  by_cases hin : InSegment img seg va
  · rw [if_pos hin, if_pos hin]
    obtain ⟨hge, hlt⟩ := hin
    split_ifs
    · omega
    · rfl
    · rfl
    · rfl
    · rfl
  · rw [if_neg hin, if_neg hin]
    rw [InSegment, not_and] at hin
    split_ifs
    · rfl
    · omega
    · omega
    · rfl

/-- A walk that succeeds is a chain of loads of the segments with pages. What a load of a
segment extends to the front of such a chain, and no read spoils, holds of the walk. -/
theorem machoParseSegments_chain {P : List Word → Loader → Prop} {header lc : Word} (n : ℕ)
    (hr : machoParseSegments h img header imageData m n lc s = (some .success, t))
    (hread : ∀ segs s rs, P segs { s with reads := rs } → P segs s) (hend : P [] t)
    (hload : ∀ seg segs s t', segVmsize img seg ≠ 0 →
      machoSegment h img imageData m seg s = (some .success, t') → P segs t' →
      P (seg :: segs) s) : P (segmentsOf img n lc) s := by
  induction n generalizing lc s with
  | zero =>
    obtain ⟨_, rfl⟩ := Prod.mk.inj hr
    exact hread _ _ _ hend
  | succ n ih =>
    rw [segmentsOf]
    rcases machoParseSegments_cases h img header imageData m n lc s with
      ⟨t', ⟨hcmd, rfl⟩ | ⟨hcmd, ht⟩, hr'⟩ | ⟨_, hne, hr'⟩
    · rw [if_neg fun hc => hcmd hc.1]
      exact hread _ _ _ (ih (hr'.symm.trans hr))
    · have hrest := hread _ t' _ (ih (hr'.symm.trans hr))
      by_cases hz : segVmsize img lc = 0
      · rw [machoSegment, if_pos hz] at ht
        obtain ⟨_, rfl⟩ := Prod.mk.inj ht
        rw [if_neg fun hc => hc.2 hz]
        exact hread _ _ _ hrest
      · rw [if_pos ⟨hcmd, hz⟩]
        exact hread _ _ _ (hload lc _ _ t' hz ht hrest)
    · exact absurd (congrArg Prod.fst (hr'.symm.trans hr)) hne

/-- A walk over the commands that succeeds has laid the bytes of all segments. -/
theorem machoParseSegments_loaded {header imageSize lc : Word} (n : ℕ)
    (hI : VmInv h g maps lists s.vm) (hm : m ∈ maps) (hp : (s.vm.maps m).pmap = p)
    (hfit : ∀ seg ∈ segmentsOf img n lc, SegmentFits img imageSize seg)
    (hact : ∀ seg ∈ segmentsOf img n lc, segFilesize img seg = 0 ∨ s.vm.active = p)
    (hr : machoParseSegments h img header imageData m n lc s = (some .success, t)) :
    Loaded h g maps lists p (segsByte img imageData (segmentsOf img n lc)) s t := by
  refine machoParseSegments_chain (P := fun segs s => ∀ g, VmInv h g maps lists s.vm →
    (s.vm.maps m).pmap = p → (∀ seg ∈ segs, SegmentFits img imageSize seg) →
    (∀ seg ∈ segs, segFilesize img seg = 0 ∨ s.vm.active = p) →
    Loaded h g maps lists p (segsByte img imageData segs) s t) n hr ?_ ?_ ?_ g hI hp hfit hact
  · intro segs s rs hP g hI hp hfit hact
    refine Loaded.of_read ?_ ?_ (hP g hI hp hfit hact)
    · rfl
    · rfl
  · intro g hI _ _ _
    exact (Loaded.refl hI).congr fun _ _ => rfl
  · intro seg segs s t' hz ht hP g hI hp hfit hact
    have hframe := machoSegment_frame h img imageData m seg s
    rw [ht] at hframe
    have hhead := machoSegment_loaded hI hm (hfit seg List.mem_cons_self) hz
      (hp.symm ▸ hact seg List.mem_cons_self) ht
    rw [hp] at hhead
    have hrest (own' : ℕ → Owner) (hI' : VmInv h { g with own := own' } maps lists t'.vm) :=
      hP _ hI' ((fixed_pmap (hframe.vm.fixed m)).trans hp)
        (fun seg hseg => hfit seg (List.mem_cons_of_mem _ hseg))
        (fun seg hseg => (hact seg (List.mem_cons_of_mem _ hseg)).imp_right hframe.vm.active.trans)
    exact (hhead.trans hrest).congr fun _ _ => rfl

theorem segsByte_none {segs : List Word} (hn : ∀ seg ∈ segs, segByte img imageData seg va = none) :
    segsByte img imageData segs va = none := by
  induction segs with
  | nil => rfl
  | cons seg segs ih =>
    rw [segsByte, ih fun x hx => hn x (List.mem_cons_of_mem _ hx), hn seg List.mem_cons_self]
    rfl

/-- Where segments are apart, each has its bytes. -/
theorem segsByte_apart {segs : List Word} (ha : segs.Pairwise (SegmentsApart img)) (hseg : seg ∈ segs)
    (hin : InSegment img seg va) : segsByte img imageData segs va = segByte img imageData seg va := by
  have hapart {seg' : Word} (h : SegmentsApart img seg seg' ∨ SegmentsApart img seg' seg) :
      segByte img imageData seg' va = none := by
    refine if_neg fun hin' => ?_
    obtain ⟨h1, h2⟩ := hin
    obtain ⟨h3, h4⟩ := hin'
    rcases h with (h | h) | (h | h) <;> omega
  induction segs with
  | nil => cases hseg
  | cons first segs ih =>
    rw [List.pairwise_cons] at ha
    rw [segsByte]
    rcases List.mem_cons.mp hseg with rfl | hseg
    · rw [segsByte_none fun x hx => hapart (Or.inl (ha.1 x hx)), Option.none_or]
    · rw [ih ha.2 hseg, hapart (Or.inr (ha.1 seg hseg)), Option.or_none]

/-- A store where there is a writable page does not fault, and moves no page. -/
theorem storeByte_returns (hI : VmInv h g maps lists s.vm) (hp : p ∈ g.live)
    (hact : s.vm.active = p) (hva : UserVa va)
    (hok : hwStore h s.vm.pm.kmem.mem s.vm.cr3 va ≠ none) (b : Byte) :
    ∃ s', s.storeByte h va b = .ok s' ∧ VmInv h g maps lists s'.vm ∧ s'.vm.active = p ∧
      ∀ x, UserVa x → hwStore h s'.vm.pm.kmem.mem s'.vm.cr3 x =
        hwStore h s.vm.pm.kmem.mem s.vm.cr3 x := by
  obtain ⟨⟨k, e⟩, hx⟩ := Option.ne_none_iff_exists'.mp hok
  have hr : s.storeByte h va b = .ok { s with
      vm := s.vm.writeByte (hwByte h k e va) b, stores := (s.vm.active, va, e) :: s.stores } := by
    rw [Loader.storeByte, hx]
  obtain ⟨hI', hact', _⟩ := storeByte_overlaid hI hp hact hva hr
  refine ⟨_, hr, hI', hact', fun x hxu => ?_⟩
  rw [VmState.cr3, hact] at hx
  obtain ⟨e, he, hpte, _⟩ := hI.mem.pmap.store_leaf hp hva hx
  obtain ⟨rfl, rfl⟩ := Prod.mk.inj he
  rw [VmState.cr3, VmState.cr3, hact', hact]
  refine hI.mem.pmap.hwStore_congr hp hxu fun y q hy => Function.update_of_ne ?_ _ _
  rintro rfl
  have hleaf := hI.mem.leaf p hp va e hva hpte
  rw [hwByte_page, hleaf.leafByte (h := h), hleaf.owner] at hy
  cases hy

theorem forBytes_returns {body : Word → Loader → Except Loader Loader} {I : Loader → Prop}
    (n : ℕ) (dst : Word)
    (hstep : ∀ i < n, ∀ s, I s → ∃ s', body (dst+BitVec.ofNat 64 i) s = .ok s' ∧ I s') (hI : I s) :
    ∃ s', forBytes body n dst s = .ok s' ∧ I s' := by
  induction n generalizing dst s with
  | zero => exact ⟨s, rfl, hI⟩
  | succ n ih =>
    obtain ⟨s1, hb, hI1⟩ := hstep 0 n.succ_pos s hI
    rw [BitVec.add_zero] at hb
    rw [forBytes, hb]
    refine ih (dst+1) (fun i hi s hs => ?_) hI1
    rw [add_one_add]
    exact hstep (i+1) (by omega) s hs

/-- The copy of a segment returns, if there is a writable page wherever it stores. -/
theorem machoCopy_returns (imageData : Word) {imageSize : Word} (hI : VmInv h g maps lists s.vm) (hp : p ∈ g.live)
    (hact : s.vm.active = p) (hfit : SegmentFits img imageSize seg)
    (hok : ∀ va, InSegment img seg va → hwStore h s.vm.pm.kmem.mem s.vm.cr3 va ≠ none) :
    ∃ t, machoCopy h img imageData seg s = .ok t := by
  obtain ⟨I, hI'⟩ : ∃ I : Loader → Prop, I = fun t => VmInv h g maps lists t.vm ∧
      t.vm.active = p ∧ ∀ x, UserVa x → hwStore h t.vm.pm.kmem.mem t.vm.cr3 x =
        hwStore h s.vm.pm.kmem.mem s.vm.cr3 x := ⟨_, rfl⟩
  have hhigh := hfit.high
  have hsize := hfit.filesize
  have hmax : userMapMax.toNat = 2^47-1 := rfl
  have hstore (i : ℕ) (hi : i < (segVmsize img seg).toNat) (b : Byte) (t : Loader) (ht : I t) :
      ∃ t', t.storeByte h (segVmaddr img seg+BitVec.ofNat 64 i) b = .ok t' ∧ I t' := by
    rw [hI'] at ht ⊢
    obtain ⟨hIt, hactt, hsame⟩ := ht
    have hadd : (segVmaddr img seg+BitVec.ofNat 64 i).toNat = (segVmaddr img seg).toNat+i := by
      rw [BitVec.toNat_add, BitVec.toNat_ofNat]
      omega
    have hva : UserVa (segVmaddr img seg+BitVec.ofNat 64 i) := by
      rw [UserVa, hadd]
      omega
    have hin : InSegment img seg (segVmaddr img seg+BitVec.ofNat 64 i) := by
      rw [InSegment, hadd]
      omega
    obtain ⟨t', hr, hIt', hact', hsame'⟩ := storeByte_returns hIt hp hactt hva
      (by rw [hsame _ hva]; exact hok _ hin) b
    exact ⟨t', hr, hIt', hact', fun x hx => (hsame' x hx).trans (hsame x hx)⟩
  rw [machoCopy]
  by_cases hz : segFilesize img seg = 0
  · rw [if_pos hz]
    exact ⟨_, rfl⟩
  rw [if_neg hz]
  have hbase : I (s.read (seg+48) 8) := by
    rw [hI']
    exact ⟨hI, hact, fun _ _ => rfl⟩
  obtain ⟨t1, ht1, hI1⟩ : ∃ t1, kmemcpy h img (segVmaddr img seg) (imageData+segFileoff img seg)
      (segFilesize img seg) (s.read (seg+48) 8) = .ok t1 ∧ I t1 := by
    refine forBytes_returns _ _ (fun i hi t ht => ?_) hbase
    refine hstore i (by omega) _ (t.read _ 1) ?_
    rw [hI'] at ht ⊢
    exact ht
  rw [ht1]
  dsimp only [Except.bind]
  split_ifs with hlt
  · obtain ⟨t2, ht2, _⟩ : ∃ t2, kmemset h (segVmaddr img seg+segFilesize img seg) 0
        (segVmsize img seg-segFilesize img seg) t1 = .ok t2 ∧ I t2 := by
      refine forBytes_returns _ _ (fun i hi t ht => ?_) hI1
      have hsum : segFilesize img seg+BitVec.ofNat 64 i =
          BitVec.ofNat 64 ((segFilesize img seg).toNat+i) := by
        rw [BitVec.ofNat_add, BitVec.ofNat_toNat, BitVec.setWidth_eq]
      rw [BitVec.toNat_sub] at hi
      rw [BitVec.add_assoc, hsum]
      exact hstore _ (by omega) _ t ht
    exact ⟨t2, ht2⟩
  · exact ⟨t1, rfl⟩

/-- A segment is loaded, if its pages are mapped and there is a writable page in the tables of
CR3 wherever it stores. -/
theorem machoSegment_returns {imageSize : Word} (hI : VmInv h g maps lists s.vm) (hm : m ∈ maps)
    (hp : p ∈ g.live) (hact : s.vm.active = p) (hfit : SegmentFits img imageSize seg)
    (hz : segVmsize img seg ≠ 0)
    (hvm : vmMapPageRange h s.vm m (segVmaddr img seg) (segVmsize img seg)
      (machoProt (segInitprot img seg)) = some (.success, vm))
    (hok : ∀ va, InSegment img seg va → hwStore h vm.pm.kmem.mem vm.cr3 va ≠ none) :
    ∃ t, machoSegment h img imageData m seg s = (some .success, t) := by
  obtain ⟨own', hI', _⟩ := vmMapPageRange_overlaid hI hm hfit.aligned hfit.sized hvm
  have hmapped : (s.mapped img seg vm).vm = vm := machoBase_vm seg
  have hact' : vm.active = p := (vmMapPageRange_same hvm).active.trans hact
  rw [← hmapped] at hI' hact' hok
  obtain ⟨t, ht⟩ := machoCopy_returns imageData hI' hp hact' hfit hok
  refine ⟨t, ?_⟩
  rw [machoSegment_eq h img imageData m seg s hz, hvm]
  dsimp only
  rw [if_neg (by simp), ht]

end Load

end Dana
