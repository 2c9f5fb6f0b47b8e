import Dana.Exec
import Dana.VmAttrs

/-! The map that `exec_load` makes for a task that has none, and exactly when there is memory
for it. -/
namespace Dana
open ByteMem Transition

/-- The state of `exec_load` over a world: any pmap may be active, and the tasks have maps that
were made for them or none. -/
structure ExecOver (w : VmWorld) (s : ExecState) : Prop where
  vm : s.load.vm = w.vm.pmapSwitch s.load.vm.active
  tasks : ∀ task, s.taskMap task = vmMapNull ∨ s.taskMap task ∈ w.maps

/-- There is no memory for a pmap, or none for a map after it. -/
def NoMapMemory (s : VmState) : Prop :=
  s.pm.kmem.pmm.frames.card < 2 ∨ (s.zoneStore.zones s.vmMapZone).freeList = 0 ∧
    (s.pm.kmem.pmm.frames.card < 3 ∨ (s.zoneStore.zones s.vmMapZone).maxSize ≠ 0 ∧
      (s.zoneStore.zones s.vmMapZone).maxSize ≤ (s.zoneStore.zones s.vmMapZone).curSize)

section Map
variable {h : Hhdm} {g : VmGhost} {lists : VmMapPtr → List EntryPtr} {w : VmWorld} {task : Word}
  {s s' : ExecState} {vm vm' : VmState} {p : PmapPtr} {m : VmMapPtr}

/-- The bounds of a map that has just been made. -/
theorem vmMapCreate_bounds {min max : Word}
    (hr : vmMapCreate h vm p min max = (m, vm')) (hm : m ≠ vmMapNull) :
    (vm'.maps m).minOffset = min ∧ (vm'.maps m).maxOffset = max := by
  unfold vmMapCreate at hr
  dsimp only at hr
  split_ifs at hr with ha
  · exact absurd (Prod.mk.inj hr).1.symm hm
  · obtain ⟨rfl, rfl⟩ := Prod.mk.inj hr
    simp only [mapListInit, VmState.setEntry, VmState.setMap, Function.update_self, and_self]

/-- A task that goes on to `macho_load` has a map, which it had or which was made for it. -/
theorem execMap_true (hr : execMap h task s = (true, s')) :
    (s' = s ∧ s.taskMap task ≠ vmMapNull) ∨
    s.taskMap task = vmMapNull ∧ ∃ p pm m vm, pmapCreate h s.load.vm.pm = (some p, pm) ∧
      vmMapCreate h { s.load.vm with pm := pm } p userMapMin userMapMax = (m, vm) ∧ m ≠ vmMapNull ∧
      s' = { s.withVm vm with taskMap := Function.update s.taskMap task m } := by
  unfold execMap at hr
  by_cases hnull : s.taskMap task = vmMapNull
  swap
  · rw [if_neg hnull] at hr
    exact Or.inl ⟨(Prod.mk.inj hr).2.symm, hnull⟩
  rw [if_pos hnull] at hr
  refine Or.inr ⟨hnull, ?_⟩
  cases hp : pmapCreate h s.load.vm.pm with
  | mk r pm =>
    rw [hp] at hr
    cases r with
    | none => cases (Prod.mk.inj hr).1
    | some p =>
      cases hm : vmMapCreate h { s.load.vm with pm := pm } p userMapMin userMapMax with
      | mk m vm =>
        simp only [hm] at hr
        split_ifs at hr with hmn
        · cases (Prod.mk.inj hr).1
        · exact ⟨p, pm, m, vm, rfl, hm, hmn, (Prod.mk.inj hr).2.symm⟩

theorem VmInv.pmapSwitch {maps : Set VmMapPtr} (hI : VmInv h g maps lists vm) (q : PmapPtr) :
    VmInv h g maps lists (vm.pmapSwitch q) :=
  ⟨hI.mem, hI.mapZone, hI.entryZone, hI.zones, fun m hm => (hI.map m hm).congr rfl fun _ _ => rfl,
    hI.user, hI.pmap, hI.pmaps, hI.elem, hI.entry, hI.apart⟩

theorem ExecOver.inv (ho : ExecOver w s) (hI : VmWorldInv h g lists w) :
    VmInv h g w.maps lists s.load.vm := by
  rw [ho.vm]
  exact hI.inv.pmapSwitch _

theorem ExecOver.bounds (ho : ExecOver w s) (hI : VmWorldInv h g lists w) (hm : s.taskMap task ≠ vmMapNull) :
    (s.load.vm.maps (s.taskMap task)).minOffset = userMapMin ∧
      (s.load.vm.maps (s.taskMap task)).maxOffset = userMapMax := by
  rw [ho.vm]
  exact hI.inv.user _ ((ho.tasks task).resolve_left hm)

/-- `pmm_alloc_page` takes a frame while there is one. -/
theorem pmmAllocPage_frames {p : Pmm} (h0 : ¬ p.Free 0) :
    ((pmmAllocPage p).1 = pmmNull ∧ p.frames.card = 0) ∨
    ((pmmAllocPage p).1 ≠ pmmNull ∧ p.frames.card = (pmmAllocPage p).2.frames.card+1 ∧
      ¬ (pmmAllocPage p).2.Free 0) := by
  rcases pmmAllocPage_cases p h0 with ⟨hne, hf, _, _, hiff⟩ | ⟨he, hnone, _⟩
  · exact Or.inr ⟨hne, Pmm.frames_take hf hiff, fun hc => h0 ((hiff 0).mp hc).1⟩
  · exact Or.inl ⟨he, Pmm.frames_empty hnone⟩

/-- `pmap_create` takes two frames, or there are fewer. -/
theorem pmapCreate_frames {pm : PmapState} (h0 : ¬ pm.kmem.pmm.Free 0) :
    ((pmapCreate h pm).1 = none ∧ pm.kmem.pmm.frames.card < 2) ∨
    ∃ p pm', pmapCreate h pm = (some p, pm') ∧
      pm.kmem.pmm.frames.card = pm'.kmem.pmm.frames.card+2 := by
  obtain ⟨pa, pmm, d, pmm', mem, hpa, hd, -, hcases⟩ := pmapCreate_cases h pm
  have hfirst := pmmAllocPage_frames h0
  rw [hpa] at hfirst
  rcases hcases with ⟨hn, hres⟩ | ⟨hn, hdn, hres⟩ | ⟨hn, hdn, hres⟩
  · obtain ⟨_, hc⟩ := hfirst.resolve_right fun hc => hc.1 hn
    exact Or.inl ⟨by rw [hres], by omega⟩
  all_goals
    obtain ⟨_, hc, h1⟩ := hfirst.resolve_left fun hc => hn hc.1
    have hsecond := pmmAllocPage_frames h1
    rw [hd] at hsecond
  · obtain ⟨_, hc'⟩ := hsecond.resolve_right fun hc => hc.1 hdn
    exact Or.inl ⟨by rw [hres], by omega⟩
  · obtain ⟨_, hc', _⟩ := hsecond.resolve_left fun hc => hdn hc.1
    dsimp only at hc hc'
    exact Or.inr ⟨_, _, hres, by dsimp only; omega⟩

/-- `zalloc` fails where the zone has no free element and cannot grow. -/
theorem zalloc_null {k : Kmem} {z : Zone} {pages : Set ℕ} {free : List Word} {live : Set Word}
    (hz : ZoneOk h k pages z free live) (h0 : ¬ k.pmm.Free 0) : (zalloc h z k).1 = 0 ↔
      z.freeList = 0 ∧ (k.pmm.frames.card = 0 ∨ z.maxSize ≠ 0 ∧ z.maxSize ≤ z.curSize) := by
  obtain ⟨r, hr⟩ : ∃ r, zalloc h z k = r := ⟨_, rfl⟩
  have hspec := zalloc_spec hz h0 hr
  rw [hr]
  unfold zalloc zoneGrow at hr
  by_cases hfree : z.freeList = 0
  swap
  · rw [if_neg hfree] at hr
    rw [← hr]
    exact ⟨fun hc => absurd hc hfree, fun hc => absurd hc.1 hfree⟩
  rw [if_pos hfree] at hr
  by_cases hfull : z.maxSize ≠ 0 ∧ z.maxSize ≤ z.curSize
  · rw [if_pos hfull] at hr
    rw [← hr]
    exact ⟨fun _ => ⟨hfree, Or.inr hfull⟩, fun _ => rfl⟩
  rw [if_neg hfull] at hr
  rcases pmmAllocPage_frames h0 with ⟨hn, hc⟩ | ⟨hn, hc, _⟩
  · simp only [hn, ↓reduceIte] at hr
    rw [← hr]
    exact ⟨fun _ => ⟨hfree, Or.inl hc⟩, fun _ => rfl⟩
  · simp only [if_neg hn] at hr
    constructor
    · intro he
      rcases hspec with ⟨_, _, hk⟩ | ⟨hne, _⟩
      · -- a zone that grows has taken a frame
        have hpmm : r.2.2.pmm = (pmmAllocPage k.pmm).2 := by
          rw [← hr]
          rfl
        rw [hk] at hpmm
        rw [← hpmm] at hc
        omega
      · exact absurd he hne
    · rintro ⟨_, hc' | hc'⟩
      · omega
      · exact absurd hc' hfull

theorem vmMapCreate_null {maps : Set VmMapPtr} (hI : VmInv h g maps lists vm) (min max : Word) :
    (vmMapCreate h vm p min max).1 = vmMapNull ↔
      (vm.zoneStore.zones vm.vmMapZone).freeList = 0 ∧
      (vm.pm.kmem.pmm.frames.card = 0 ∨ (vm.zoneStore.zones vm.vmMapZone).maxSize ≠ 0 ∧
        (vm.zoneStore.zones vm.vmMapZone).maxSize ≤ (vm.zoneStore.zones vm.vmMapZone).curSize) := by
  obtain ⟨free, hok, _⟩ := hI.mem.zones.zone _ hI.mapZone
  rw [← zalloc_null hok hI.mem.pmap.pageZero]
  unfold vmMapCreate VmState.zalloc
  dsimp only
  split_ifs with ha
  · exact ⟨fun _ => ha, fun _ => rfl⟩
  · exact ⟨fun hc => absurd (VmMapPtr.elem.inj hc) ha, fun hc => absurd hc ha⟩

theorem vmMapCreate_data (min max : Word) : (vmMapCreate h vm p min max).2.data = vm.data := by
  unfold vmMapCreate
  dsimp only
  split_ifs <;> rfl

/-- The map of a task is what it was where it was not made, and no data page is touched. -/
theorem execMap_false (hI : VmInv h g w.maps lists s.load.vm) (hr : execMap h task s = (false, s')) :
    s.taskMap task = vmMapNull ∧ NoMapMemory s.load.vm ∧ s'.taskMap task = vmMapNull ∧
      s'.load.vm.data = s.load.vm.data := by
  unfold execMap at hr
  by_cases hnull : s.taskMap task = vmMapNull
  swap
  · rw [if_neg hnull] at hr
    cases (Prod.mk.inj hr).1
  rw [if_pos hnull] at hr
  refine ⟨hnull, ?_⟩
  rcases pmapCreate_frames (h := h) hI.mem.pmap.pageZero with ⟨hn, hc⟩ | ⟨p, pm, hp, hc⟩
  · cases hpm : pmapCreate h s.load.vm.pm with
    | mk r pm =>
      rw [hpm] at hn hr
      obtain rfl : r = none := hn
      obtain ⟨_, rfl⟩ := Prod.mk.inj hr
      exact ⟨Or.inl hc, hnull, rfl⟩
  · rw [hp] at hr
    obtain ⟨g1, hI1, _⟩ := hI.pmapCreate hp
    have hiff := vmMapCreate_null (p := p) hI1 userMapMin userMapMax
    cases hm : vmMapCreate h { s.load.vm with pm := pm } p userMapMin userMapMax with
    | mk m vm =>
      rw [hm] at hiff
      simp only [hm] at hr
      split_ifs at hr with hmn
      · obtain ⟨_, rfl⟩ := Prod.mk.inj hr
        obtain ⟨hfree, hfull⟩ := hiff.mp hmn
        refine ⟨Or.inr ⟨hfree, hfull.imp_left fun hz => ?_⟩, ?_, ?_⟩
        · dsimp only at hz
          omega
        · rw [hmn]
          exact Function.update_self _ _ _
        · have hdata := @vmMapCreate_data h { s.load.vm with pm := pm } p
            userMapMin userMapMax
          rw [hm] at hdata
          exact hdata
      · cases (Prod.mk.inj hr).1

/-- A map is made only where there is memory for it. -/
theorem execMap_memory (hI : VmInv h g w.maps lists s.load.vm)
    (hr : execMap h task s = (true, s')) (hnull : s.taskMap task = vmMapNull) :
    ¬ NoMapMemory s.load.vm := by
  rcases execMap_true hr with ⟨_, hne⟩ | ⟨_, p, pm, m, vm, hp, hm, hne, _⟩
  · exact absurd hnull hne
  rcases pmapCreate_frames (h := h) hI.mem.pmap.pageZero with ⟨hn, _⟩ | ⟨p', pm', hp', hc⟩
  · rw [hp] at hn
    cases hn
  obtain ⟨_, rfl⟩ := Prod.mk.inj (hp.symm.trans hp')
  obtain ⟨g1, hI1, _⟩ := hI.pmapCreate hp
  have hiff := vmMapCreate_null (p := p) hI1 userMapMin userMapMax
  rw [hm] at hiff
  rintro (hlow | ⟨hfree, hlow⟩)
  · omega
  · refine hne (hiff.mpr ⟨hfree, hlow.imp_left fun hz => ?_⟩)
    dsimp only
    omega

/-- `exec_load` rejects its arguments, has no memory for a map, or loads into the map. -/
theorem execLoad_cases (h : Hhdm) (img : Mem) (task imageData imageSize entryPoint : Word)
    (s : ExecState) :
    ((task = 0 ∨ imageData = 0 ∨ entryPoint = 0) ∧
      execLoad h img task imageData imageSize entryPoint s = (some .invalidArgument, s)) ∨
    ¬ (task = 0 ∨ imageData = 0 ∨ entryPoint = 0) ∧
    ((∃ s₁, execMap h task s = (false, s₁) ∧
        execLoad h img task imageData imageSize entryPoint s = (some .noSpace, s₁)) ∨
      ∃ s₁, execMap h task s = (true, s₁) ∧
      ((∃ l, machoLoad h img (s₁.taskMap task) imageData imageSize localPtr s₁.load =
            (some .success, l) ∧
          execLoad h img task imageData imageSize entryPoint s =
            (some .success, { s₁ with load := l, entryPoint := l.image.entryPoint })) ∨
        ∃ r l, machoLoad h img (s₁.taskMap task) imageData imageSize localPtr s₁.load = (r, l) ∧
          r ≠ some .success ∧
          execLoad h img task imageData imageSize entryPoint s = (r, { s₁ with load := l }))) := by
  unfold execLoad
  by_cases hnull : task = 0 ∨ imageData = 0 ∨ entryPoint = 0
  · rw [if_pos hnull]
    exact Or.inl ⟨hnull, rfl⟩
  rw [if_neg hnull]
  refine Or.inr ⟨hnull, ?_⟩
  cases hm : execMap h task s with
  | mk ok s₁ =>
    cases ok with
    | false => exact Or.inl ⟨s₁, rfl, rfl⟩
    | true =>
      refine Or.inr ⟨s₁, rfl, ?_⟩
      dsimp only
      cases hl : machoLoad h img (s₁.taskMap task) imageData imageSize localPtr s₁.load with
      | mk r l =>
        by_cases hsucc : r = some .success
        · subst hsucc
          exact Or.inl ⟨l, rfl, rfl⟩
        · refine Or.inr ⟨r, l, rfl, hsucc, ?_⟩
          split
          · rename_i heq
            exact absurd (Prod.mk.inj heq).1 hsucc
          · rename_i heq
            obtain ⟨rfl, rfl⟩ := Prod.mk.inj heq
            rfl

end Map

end Dana
