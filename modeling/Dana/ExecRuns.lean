import Dana.ExecMap
import Dana.LoadBytes
import Dana.PageFaults

/-! Programs in tasks. In a kernel whose boot loader left the lower half of the address space
empty, `exec_load` is a run of calls on maps that ends, in any state and for any image, before it
has stored a byte. -/
namespace Dana
open ByteMem Transition

/-- `exec_unload`. -/
def execUnload (h : Hhdm) (task : Word) (s : ExecState) : Option (KernReturn × ExecState) :=
  if task = 0 then some (.invalidArgument, s)
  else if s.taskMap task ≠ vmMapNull then
    (vmMapDestroy h s.load.vm (s.taskMap task)).map fun vm =>
      (.success, { s.withVm vm with taskMap := Function.update s.taskMap task vmMapNull })
  else some (.success, s)

/-- The boot loader's PML4 has nothing in its lower half. -/
def LowerEmpty (h : Hhdm) (s₀ : VmState) : Prop := ∀ i : Idx, i.toNat < 256 →
  pteAt h s₀.pm.kmem.mem (s₀.pm.pmaps .kernel).pml4Phys i &&& pteP = 0

/-- A run of operations on the maps of `m` leads to `w`, and no pmap but the kernel's has ever
been switched to. -/
structure Reaches (h : Hhdm) (s₀ : VmState) (m : Machine) (w : VmWorld) : Prop where
  run : ∃ trace, Run (VmLifeStep h) m.world trace w
  inv : MachineInv h s₀ { m with world := w }
  active : w.vm.active = .kernel

section Active
variable {h : Hhdm} {w w' : VmWorld}

theorem VmKeeps.active (m : VmMapPtr) (p : PmapPtr) :
    VmKeeps m (fun t => t.active = p) fun _ => True where
  header := trivial
  elem _ := trivial
  links _ _ _ _ := ⟨trivial, trivial⟩
  pages _ _ hs hI := hs.same.active.trans hI
  zone _ _ _ _ hI := hI
  pm _ _ hI := hI
  map _ _ hI := hI
  entry _ _ _ hI _ _ := hI
  insert _ _ _ hI _ := hI
  remove _ _ hI _ := hI

theorem vmMapCreate_active {s s' : VmState} {p : PmapPtr} {min max : Word} {m : VmMapPtr}
    (hr : vmMapCreate h s p min max = (m, s')) : s'.active = s.active := by
  obtain rfl : (vmMapCreate h s p min max).2 = s' := congrArg Prod.snd hr
  rw [vmMapCreate]
  dsimp only
  split_ifs <;> rfl

theorem VmLifeStep.active {l : VmLifeOp} (hs : VmLifeStep h w l w') :
    w'.vm.active = w.vm.active := by
  cases hs with
  | op hs =>
    cases hs with
    | pmapCreate hr => rfl
    | mapCreate hp hr => exact vmMapCreate_active hr
    | mapCreated hp hr hm => exact vmMapCreate_active hr
    | @call m c s1 hm hr => exact (VmKeeps.active m w.vm.active).run rfl hr
    | write b hm hva he => rfl
  | @destroy m s1 hm hr => exact (VmKeeps.active m w.vm.active).mapDestroy rfl hr
  | drop hp => rfl

end Active

section Load
variable {h : Hhdm} {s₀ : VmState} {m : Machine} {w w' : VmWorld} {img : Mem} {map : VmMapPtr}
  {imageData header seg lc : Word} {s t : Loader} {r : Option KernReturn}

theorem Reaches.step (hb : VmBoot h s₀) (hR : Reaches h s₀ m w) {l : VmLifeOp}
    (hl : l.retires = true → SafeToRetire h s₀.pm) (hs : VmLifeStep h w l w') : Reaches h s₀ m w' := by
  obtain ⟨trace, hr⟩ := hR.run
  refine ⟨⟨_, hr.snoc hs⟩, ?_, hs.active.trans hR.active⟩
  exact (hR.inv.step hb (l := .vm l) hl (MachineStep.vm { m with world := w } hs : MachineStep h 0 _ _ _)).1

theorem MachineInv.bounds (hI : MachineInv h s₀ m) (hm : map ∈ m.world.maps) :
    (m.world.vm.maps map).maxOffset = userMapMax := by
  obtain ⟨pages, n, g, lists, hI⟩ := hI
  exact (hI.vm.inv.user map hm).2

/-- Stores to the user half fault. -/
theorem Reaches.store (hb : VmBoot h s₀) (hlow : LowerEmpty h s₀) (hR : Reaches h s₀ m w) {va : Word}
    (hva : UserVa va) : hwStore h w.vm.pm.kmem.mem w.vm.cr3 va = none := by
  obtain ⟨pages, n, g, lists, hI⟩ := hR.inv
  have hslot : pteAt h w.vm.pm.kmem.mem (w.vm.pm.pmaps .kernel).pml4Phys (pml4Idx va) = _ :=
    (hI.vm.kernel_walk hb va).1
  have hno : pteStorable (pteAt h w.vm.pm.kmem.mem (w.vm.pm.pmaps .kernel).pml4Phys (pml4Idx va)) = none := by
    rw [hslot, pteStorable, if_neg fun hc => hc.1 (hlow _ hva.lower)]
  rw [hwStore, if_pos (show Canonical va from Or.inl hva), hwStoreWalk, VmState.cr3, hR.active, hno]
  rfl

/-- The first byte of a segment that cannot be stored ends the copying. -/
theorem machoCopy_fault (h : Hhdm) (img : Mem) (imageData : Word) (hfile : segFilesize img seg ≠ 0)
    (hno : hwStore h s.vm.pm.kmem.mem s.vm.cr3 (segVmaddr img seg) = none) :
    ∃ t, machoCopy h img imageData seg s = .error t ∧ t.vm = s.vm ∧ t.stores = s.stores := by
  obtain ⟨n, hn⟩ : ∃ n, (segFilesize img seg).toNat = n+1 := by
    refine ⟨(segFilesize img seg).toNat-1, ?_⟩
    have hne : (segFilesize img seg).toNat ≠ 0 := fun hc => hfile (BitVec.eq_of_toNat_eq hc)
    omega
  refine ⟨(s.read (seg+48) 8).read (imageData+segFileoff img seg+
    (segVmaddr img seg-segVmaddr img seg)) 1, ?_, rfl, rfl⟩
  have hstore (l : Loader) (hl : l.vm = s.vm) (b : Byte) :
      l.storeByte h (segVmaddr img seg) b = .error l := by
    rw [Loader.storeByte, hl, hno]
  rw [machoCopy, if_neg hfile, kmemcpy, hn, forBytes]
  dsimp only
  rw [hstore ((s.read (seg+48) 8).read _ 1) rfl]
  rfl

/-- A segment maps pages or does nothing, and if it has bytes it does not get past the first. -/
theorem machoSegment_reaches (hb : VmBoot h s₀) (hlow : LowerEmpty h s₀) (hR : Reaches h s₀ m w)
    (hmap : map ∈ w.maps) (hv : s.vm = w.vm) (hr : machoSegment h img imageData map seg s = (r, t)) :
    ∃ w', Reaches h s₀ m w' ∧ w'.vm = t.vm ∧ w'.maps = w.maps ∧ t.stores = s.stores ∧
      (r = some .success → segVmsize img seg = 0 ∨ segFilesize img seg = 0) := by
  have hcall {kr : KernReturn} {vm : VmState} (hvm : vmMapPageRange h s.vm map (segVmaddr img seg)
      (segVmsize img seg) (machoProt (segInitprot img seg)) = some (kr, vm)) :
      ∃ w', Reaches h s₀ m w' ∧ w'.vm = vm ∧ w'.maps = w.maps := by
    rw [hv] at hvm
    refine ⟨_, hR.step hb (l := .op (.call map (.pageRange (segVmaddr img seg) (segVmsize img seg)
      (machoProt (segInitprot img seg))))) (fun hc => by cases hc)
      (.op (VmStep.call w hmap (by rw [VmCall.run, hvm, Option.map_some]))), rfl, rfl⟩
  rcases machoSegment_cases h img imageData map seg s with ⟨hz, hc⟩ | ⟨_, ⟨_, hc⟩ |
    ⟨hok, hc | ⟨vm, hvm, hc⟩ | ⟨vm, hvm, hcopy⟩⟩⟩
  · obtain ⟨rfl, rfl⟩ := Prod.mk.inj (hr.symm.trans hc)
    exact ⟨w, hR, hv.symm, rfl, rfl, fun _ => Or.inl hz⟩
  · obtain ⟨rfl, rfl⟩ := Prod.mk.inj (hr.symm.trans hc)
    exact ⟨w, hR, hv.symm, rfl, rfl, fun hc => by cases hc⟩
  · obtain ⟨rfl, rfl⟩ := Prod.mk.inj (hr.symm.trans hc)
    exact ⟨w, hR, hv.symm, rfl, rfl, fun hc => by cases hc⟩
  · obtain ⟨rfl, rfl⟩ := Prod.mk.inj (hr.symm.trans hc)
    obtain ⟨w', hR', hvm', hmaps⟩ := hcall hvm
    exact ⟨w', hR', hvm', hmaps, rfl, fun hc => by cases hc⟩
  · obtain ⟨w', hR', hvm', hmaps⟩ := hcall hvm
    have hm : (s.mapped img seg vm).vm = w'.vm := (machoBase_vm seg).trans hvm'.symm
    have hst : (s.mapped img seg vm).stores = s.stores := machoBase_stores seg
    -- what `vm_map_page_range` accepts in a map of a task is in the user half
    have hva : UserVa (segVmaddr img seg) := by
      have hmax := hR.inv.bounds hmap
      change (w.vm.maps map).maxOffset = userMapMax at hmax
      obtain ⟨hpos, -, hstop⟩ := vmRangeOk_iff.mp hok
      rw [hv, hmax] at hstop
      have htop : userMapMax.toNat < 2^47 := by decide
      rw [UserVa]
      omega
    -- without bytes in the file the copying is over at once, with some it ends at the first
    by_cases hfile : segFilesize img seg = 0
    · have hdone : machoCopy h img imageData seg (s.mapped img seg vm) =
          .ok ((s.mapped img seg vm).read (seg+48) 8) := by
        rw [machoCopy]
        exact if_pos hfile
      rcases hcopy with ⟨t', ht, -⟩ | ⟨t', ht, hc⟩
      · cases ht.symm.trans hdone
      · obtain rfl := Except.ok.inj (ht.symm.trans hdone)
        obtain ⟨rfl, rfl⟩ := Prod.mk.inj (hr.symm.trans hc)
        exact ⟨w', hR', hm.symm, hmaps, hst, fun _ => Or.inr hfile⟩
    · obtain ⟨t₁, ht₁, hvm₁, hst₁⟩ := machoCopy_fault h img imageData (s := s.mapped img seg vm) hfile
        (by rw [hm]; exact hR'.store hb hlow hva)
      rcases hcopy with ⟨t', ht, hc⟩ | ⟨t', ht, -⟩
      · obtain rfl := Except.error.inj (ht.symm.trans ht₁)
        obtain ⟨rfl, rfl⟩ := Prod.mk.inj (hr.symm.trans hc)
        exact ⟨w', hR', (hvm₁.trans hm).symm, hmaps, hst₁.trans hst, fun hc => by cases hc⟩
      · cases ht.symm.trans ht₁

/-- And so is the loop over the commands. -/
theorem machoParseSegments_reaches (hb : VmBoot h s₀) (hlow : LowerEmpty h s₀) (n : ℕ)
    (hR : Reaches h s₀ m w) (hmap : map ∈ w.maps) (hv : s.vm = w.vm)
    (hr : machoParseSegments h img header imageData map n lc s = (r, t)) :
    ∃ w', Reaches h s₀ m w' ∧ w'.vm = t.vm ∧ w'.maps = w.maps ∧ t.stores = s.stores ∧
      (r = some .success → ∀ seg ∈ segmentsOf img n lc, segFilesize img seg = 0) := by
  induction n generalizing w s lc with
  | zero =>
    obtain ⟨rfl, rfl⟩ := Prod.mk.inj hr
    exact ⟨w, hR, hv.symm, rfl, rfl, fun _ seg hs => absurd hs List.not_mem_nil⟩
  | succ n ih =>
    rcases machoParseSegments_cases h img header imageData map n lc s with
      ⟨t', ⟨hcmd, rfl⟩ | ⟨hcmd, hseg⟩, hnext⟩ | ⟨_, hne, hstop⟩
    · rw [hnext] at hr
      obtain ⟨w', hR', hvm, hmaps, hst, hno⟩ := ih hR hmap (s := (s.readCommand header lc).read (lc+4) 4) hv hr
      refine ⟨w', hR', hvm, hmaps, hst, fun hc seg hs => hno hc seg ?_⟩
      rwa [segmentsOf, if_neg fun hc' => hcmd hc'.1] at hs
    · rw [hnext] at hr
      obtain ⟨w₁, hR₁, hvm₁, hmaps₁, hst₁, hno₁⟩ := machoSegment_reaches hb hlow hR hmap
        (s := s.readCommand header lc) hv hseg
      obtain ⟨w', hR', hvm, hmaps, hst, hno⟩ := ih hR₁ (hmaps₁ ▸ hmap) (s := t'.read (lc+4) 4)
        hvm₁.symm hr
      refine ⟨w', hR', hvm, hmaps.trans hmaps₁, hst.trans hst₁, fun hc seg hs => ?_⟩
      rw [segmentsOf] at hs
      -- a segment without pages is skipped, one with pages has no bytes
      by_cases hpages : segVmsize img lc = 0
      · rw [if_neg fun hc' => hc'.2 hpages] at hs
        exact hno hc seg hs
      · rw [if_pos ⟨hcmd, hpages⟩] at hs
        rcases List.mem_cons.mp hs with rfl | hs
        · exact (hno₁ rfl).resolve_left hpages
        · exact hno hc seg hs
    · rw [hstop] at hr
      rw [hr] at hne
      obtain ⟨w', hR', hvm, hmaps, hst, -⟩ := machoSegment_reaches hb hlow hR hmap
        (s := s.readCommand header lc) hv hr
      exact ⟨w', hR', hvm, hmaps, hst, fun hc => absurd hc hne⟩

theorem machoLoad_reaches (hb : VmBoot h s₀) (hlow : LowerEmpty h s₀) (hR : Reaches h s₀ m w)
    (hmap : map ∈ w.maps) (hv : s.vm = w.vm) {imageSize imageOut : Word}
    (hr : machoLoad h img map imageData imageSize imageOut s = (r, t)) :
    ∃ w', Reaches h s₀ m w' ∧ w'.vm = t.vm ∧ w'.maps = w.maps ∧ t.stores = s.stores ∧
      (r = some .success → ∀ seg ∈ segmentsOf img (mhNcmds img imageData).toNat
        (imageData+sizeofMachHeader64), segFilesize img seg = 0) := by
  by_cases ha : HeaderAccepted img map imageData imageSize imageOut
  · rcases machoLoad_accepted (h := h) (s := s) ha with ⟨t', hp, hc⟩ | ⟨r', t', hp, hne, hc⟩
    · obtain ⟨w', hR', hvm, hmaps, hst, hno⟩ := machoParseSegments_reaches hb hlow _ hR hmap
        (s := s.start imageData imageSize) hv hp
      obtain ⟨hvm', hst', -⟩ := machoFindEntry_keeps img imageData (mhNcmds img imageData).toNat
        (imageData+sizeofMachHeader64) t'
      obtain ⟨rfl, rfl⟩ := Prod.mk.inj (hr.symm.trans hc)
      exact ⟨w', hR', hvm.trans hvm'.symm, hmaps, hst'.trans hst, hno⟩
    · obtain ⟨w', hR', hvm, hmaps, hst, hno⟩ := machoParseSegments_reaches hb hlow _ hR hmap
        (s := s.start imageData imageSize) hv hp
      obtain ⟨rfl, rfl⟩ := Prod.mk.inj (hr.symm.trans hc)
      exact ⟨w', hR', hvm, hmaps, hst, hno⟩
  · obtain ⟨kr, rs, hc, hne, -⟩ := machoLoad_rejected (h := h) (s := s) ha
    obtain ⟨rfl, rfl⟩ := Prod.mk.inj (hr.symm.trans hc)
    exact ⟨w, hR, hv.symm, rfl, rfl, fun hc => absurd (Option.some.inj hc) hne⟩

/-- A new map is none of those that there are. -/
theorem MachineInv.fresh (hI : MachineInv h s₀ m) {p : PmapPtr} (hp : p ∈ m.world.pmaps) {vm : VmState}
    (hr : vmMapCreate h m.world.vm p userMapMin userMapMax = (map, vm)) (hne : map ≠ vmMapNull) :
    map ∉ m.world.maps := by
  obtain ⟨pages, n, g, lists, hI⟩ := hI
  have hon := vmMapCreate_onStore h m.world.vm ⟨fun _ => blankZone, m.world.vm.zoneStore.zoneCount⟩ p
    userMapMin userMapMax
  rw [hr] at hon
  obtain ⟨hlive, hfree, -⟩ := hI.vm.spare p hp
  rcases vmMapCreate_spec hI.vm.inv hlive hfree with he | ⟨a, vm', g', he, -, hout, -⟩
  · exact absurd (congrArg Prod.fst (hon.symm.trans he)) hne
  · rw [show map = .elem a from congrArg Prod.fst (hon.symm.trans he)]
    exact hout

end Load

section Exec
variable {h : Hhdm} {s₀ : VmState} {m : Machine} {w w₁ w' : VmWorld} {img : Mem} {task : Word}
  {e e₁ e' : ExecState}

/-- What `exec_load` does to the maps and to the tasks, on the way from `w` to `w'`. -/
structure ExecMoves (task : Word) (w w' : VmWorld) (e e' : ExecState) : Prop where
  maps : ∀ p, p ∈ w'.maps ↔ p ∈ w.maps ∨ p = e'.taskMap task ∧ p ≠ vmMapNull
  others : ∀ t, t ≠ task → e'.taskMap t = e.taskMap t
  keeps : e.taskMap task ≠ vmMapNull → e'.taskMap task = e.taskMap task
  fresh : e.taskMap task = vmMapNull → e'.taskMap task ≠ vmMapNull → e'.taskMap task ∉ w.maps
  stores : e'.load.stores = e.load.stores

theorem ExecMoves.start (htask : e.taskMap task = vmMapNull ∨ e.taskMap task ∈ w.maps) :
    ExecMoves task w w e e := by
  refine ⟨fun p => ⟨Or.inl, fun hp => hp.elim id fun hc => ?_⟩, fun _ _ => rfl, fun _ => rfl,
    fun hc hc' => absurd hc hc', rfl⟩
  rw [hc.1]
  exact htask.resolve_left (hc.1 ▸ hc.2)

/-- What leaves the maps and the tasks alone may follow. -/
theorem ExecMoves.extend (hmoves : ExecMoves task w w₁ e e₁) (hmaps : w'.maps = w₁.maps)
    (ht : e'.taskMap = e₁.taskMap) (hst : e'.load.stores = e₁.load.stores) :
    ExecMoves task w w' e e' := by
  refine ⟨fun p => ?_, fun t hne => ?_, fun hc => ?_, fun hc hc' => ?_, hst.trans hmoves.stores⟩
  · rw [hmaps, ht]
    exact hmoves.maps p
  · rw [ht]
    exact hmoves.others t hne
  · rw [ht]
    exact hmoves.keeps hc
  · rw [ht] at hc' ⊢
    exact hmoves.fresh hc hc'

/-- A task that had no map gets a new one. -/
theorem ExecMoves.created {map : VmMapPtr} (hnull : e.taskMap task = vmMapNull) (hne : map ≠ vmMapNull)
    (hout : map ∉ w.maps) (hmaps : w'.maps = insert map w.maps)
    (ht : e'.taskMap = Function.update e.taskMap task map) (hst : e'.load.stores = e.load.stores) :
    ExecMoves task w w' e e' := by
  have hset : e'.taskMap task = map := by rw [ht, Function.update_self]
  refine ⟨fun p => ?_, fun t hne => ?_, fun hc => absurd hnull hc, fun _ _ => hset.symm ▸ hout, hst⟩
  · rw [hmaps, hset, Set.mem_insert_iff]
    constructor
    · rintro (rfl | hp)
      · exact Or.inr ⟨rfl, hne⟩
      · exact Or.inl hp
    · rintro (hp | ⟨rfl, -⟩)
      · exact Or.inr hp
      · exact Or.inl rfl
  · rw [ht]
    exact Function.update_of_ne hne _ _

/-- The task has a map, or there is no memory for one and the new pmap is given back. -/
theorem execMap_reaches (hb : VmBoot h s₀) (hsafe : SafeToRetire h s₀.pm) (hR : Reaches h s₀ m w)
    (hv : e.load.vm = w.vm) (htask : e.taskMap task = vmMapNull ∨ e.taskMap task ∈ w.maps) {ok : Bool}
    (hr : execMap h task e = (ok, e')) :
    ∃ w', Reaches h s₀ m w' ∧ w'.vm = e'.load.vm ∧ ExecMoves task w w' e e' ∧
      (ok = true → e'.taskMap task ∈ w'.maps) := by
  rw [execMap] at hr
  by_cases hnull : e.taskMap task = vmMapNull
  swap
  · rw [if_neg hnull] at hr
    obtain ⟨-, rfl⟩ := Prod.mk.inj hr
    exact ⟨w, hR, hv.symm, .start htask, fun _ => htask.resolve_left hnull⟩
  rw [if_pos hnull, hv] at hr
  cases hp : pmapCreate h w.vm.pm with
  | mk r pm =>
    rw [hp] at hr
    have hR₁ := hR.step hb (fun hc => by cases hc) (.op (VmStep.pmapCreate w hp))
    cases r with
    | none =>
      obtain ⟨rfl, rfl⟩ := Prod.mk.inj hr
      exact ⟨_, hR₁, rfl, (ExecMoves.start htask).extend rfl rfl rfl, fun hc => by cases hc⟩
    | some p =>
      dsimp only at hr
      have hp₁ : p ∈ ({q | some p = some q} ∪ w.pmaps : Set PmapPtr) := Or.inl rfl
      cases hm : vmMapCreate h { w.vm with pm := pm } p userMapMin userMapMax with
      | mk map vm =>
        rw [hm] at hr
        dsimp only at hr
        -- without memory for the map the new pmap is destroyed again
        by_cases hne : map = vmMapNull
        · subst hne
          rw [if_pos rfl] at hr
          obtain ⟨rfl, rfl⟩ := Prod.mk.inj hr
          have hR₂ := hR₁.step hb (fun hc => by cases hc) (.op (VmStep.mapCreate _ hp₁ hm))
          have hR₃ := hR₂.step hb (fun _ => hsafe) (VmLifeStep.drop _ hp₁)
          have hsame : Function.update e.taskMap task vmMapNull = e.taskMap := by
            rw [← hnull]
            exact Function.update_eq_self _ _
          exact ⟨_, hR₃, rfl, (ExecMoves.start htask).extend rfl hsame rfl, fun hc => by cases hc⟩
        · rw [if_neg hne] at hr
          obtain ⟨rfl, rfl⟩ := Prod.mk.inj hr
          have hR₂ := hR₁.step hb (fun hc => by cases hc) (.op (VmStep.mapCreated _ hp₁ hm hne))
          refine ⟨_, hR₂, rfl, .created hnull hne (hR₁.inv.fresh hp₁ hm hne) rfl rfl rfl, fun _ => ?_⟩
          change Function.update e.taskMap task map task ∈ insert map w.maps
          rw [Function.update_self]
          exact Set.mem_insert _ _

/-- `exec_load` is a run of operations on maps, which stores nothing. It succeeds only if there is
nothing to store. -/
theorem execLoad_reaches (hb : VmBoot h s₀) (hsafe : SafeToRetire h s₀.pm) (hlow : LowerEmpty h s₀)
    (hR : Reaches h s₀ m w) (hv : e.load.vm = w.vm)
    (htask : e.taskMap task = vmMapNull ∨ e.taskMap task ∈ w.maps)
    {imageData imageSize entryPoint : Word} {r : Option KernReturn}
    (hr : execLoad h img task imageData imageSize entryPoint e = (r, e')) :
    ∃ w', Reaches h s₀ m w' ∧ w'.vm = e'.load.vm ∧ ExecMoves task w w' e e' ∧
      (r = some .success → ∀ seg ∈ segmentsOf img (mhNcmds img imageData).toNat
        (imageData+sizeofMachHeader64), segFilesize img seg = 0) := by
  rw [execLoad] at hr
  by_cases harg : task = 0 ∨ imageData = 0 ∨ entryPoint = 0
  · rw [if_pos harg] at hr
    obtain ⟨rfl, rfl⟩ := Prod.mk.inj hr
    exact ⟨w, hR, hv.symm, .start htask, fun hc => by cases hc⟩
  rw [if_neg harg] at hr
  cases hm : execMap h task e with
  | mk ok e₁ =>
    rw [hm] at hr
    obtain ⟨w₁, hR₁, hv₁, hmoves, hin⟩ := execMap_reaches hb hsafe hR hv htask hm
    cases ok with
    | false =>
      obtain ⟨rfl, rfl⟩ := Prod.mk.inj hr
      exact ⟨w₁, hR₁, hv₁, hmoves, fun hc => by cases hc⟩
    | true =>
      dsimp only at hr
      cases hl : machoLoad h img (e₁.taskMap task) imageData imageSize localPtr e₁.load with
      | mk r' load =>
        rw [hl] at hr
        obtain ⟨w', hR', hv', hmaps, hst, hno⟩ := machoLoad_reaches hb hlow hR₁ (hin rfl) hv₁.symm hl
        split at hr
        · rename_i load' hx
          obtain ⟨rfl, rfl⟩ := Prod.mk.inj hx
          obtain ⟨rfl, rfl⟩ := Prod.mk.inj hr
          exact ⟨w', hR', hv', hmoves.extend hmaps rfl hst, fun _ => hno rfl⟩
        · rename_i r₂ load' hx hne
          obtain ⟨rfl, rfl⟩ := Prod.mk.inj hne
          obtain ⟨rfl, rfl⟩ := Prod.mk.inj hr
          exact ⟨w', hR', hv', hmoves.extend hmaps rfl hst, hno⟩

end Exec

end Dana
