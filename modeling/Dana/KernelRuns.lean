import Dana.ExecRuns
import Dana.ExecTarget

/-! The kernel as a whole: the threads and the maps of a machine, and the programs that are loaded
into tasks and unloaded again. Its runs are runs of the machine. -/
namespace Dana
open ByteMem Transition

/-- The machine, and the `map` field of each task. -/
structure SystemWorld where
  machine : Machine
  taskMap : Word → VmMapPtr

inductive SystemOp
  | machine (l : MachineOp)
  | load (task : Word) (r : Option KernReturn)
  | unload (task : Word)

/-- One step. System calls run with interrupts off, so `exec_load` and `exec_unload` are a step
each. They leave the virtual memory as the code does; what the world notes beside it follows a run
of operations that leads to the same memory. The map of a task is destroyed by `exec_unload`
only. -/
inductive SystemStep (h : Hhdm) (threadTrampoline : Word) : SystemWorld → SystemOp → SystemWorld → Prop
  | machine (k : SystemWorld) {l : MachineOp} {m : Machine}
    (hs : MachineStep h threadTrampoline k.machine l m)
    (ho : ∀ t, k.taskMap t ≠ vmMapNull → l ≠ .vm (.destroy (k.taskMap t))) :
    SystemStep h threadTrampoline k (.machine l) ⟨m, k.taskMap⟩
  | load (k : SystemWorld) {img : Mem} {task imageData imageSize entryPoint : Word} {e e' : ExecState}
    {r : Option KernReturn} {trace : List VmLifeOp} {w : VmWorld} (hv : e.load.vm = k.machine.world.vm)
    (ht : e.taskMap = k.taskMap) (hr : execLoad h img task imageData imageSize entryPoint e = (r, e'))
    (hw : Run (VmLifeStep h) k.machine.world trace w) (hvm : w.vm = e'.load.vm)
    (hmaps : ∀ p, p ∈ w.maps ↔ p ∈ k.machine.world.maps ∨ p = e'.taskMap task ∧ p ≠ vmMapNull) :
    SystemStep h threadTrampoline k (.load task r) ⟨{ k.machine with world := w }, e'.taskMap⟩
  | unload (k : SystemWorld) {task : Word} {e e' : ExecState} {kr : KernReturn} {trace : List VmLifeOp}
    {w : VmWorld} (hv : e.load.vm = k.machine.world.vm) (ht : e.taskMap = k.taskMap)
    (hr : execUnload h task e = some (kr, e')) (hw : Run (VmLifeStep h) k.machine.world trace w)
    (hvm : w.vm = e'.load.vm) (hmaps : ∀ p, p ∈ w.maps ↔ p ∈ k.machine.world.maps ∧
      ¬ (task ≠ 0 ∧ p = k.taskMap task ∧ p ≠ vmMapNull)) :
    SystemStep h threadTrampoline k (.unload task) ⟨{ k.machine with world := w }, e'.taskMap⟩

/-- What every state of a run keeps. -/
structure SystemInv (h : Hhdm) (trampoline : Word) (s₀ : VmState) (m₀ : Machine) (k : SystemWorld) :
    Prop where
  run : ∃ ops, Run (MachineStep h trampoline) m₀ ops k.machine
  inv : MachineInv h s₀ k.machine
  active : k.machine.world.vm.active = .kernel
  live : ∀ t, k.taskMap t = vmMapNull ∨ k.taskMap t ∈ k.machine.world.maps
  own : ∀ t u, k.taskMap t ≠ vmMapNull → k.taskMap u = k.taskMap t → u = t

section Machine
variable {h : Hhdm} {trampoline : Word} {s₀ : VmState} {m m' : Machine} {w w' : VmWorld}

theorem VmLifeStep.maps_kept {l : VmLifeOp} (hs : VmLifeStep h w l w') {p : VmMapPtr} (hp : p ∈ w.maps)
    (hne : l ≠ .destroy p) : p ∈ w'.maps := by
  cases hs with
  | op hs =>
    cases hs with
    | pmapCreate hr => exact hp
    | mapCreate hq hr => exact hp
    | mapCreated hq hr hm => exact Or.inr hp
    | call hm hr => exact hp
    | write b hm hva he => exact hp
  | destroy hm hr => exact ⟨hp, fun hc => hne (hc ▸ rfl)⟩
  | drop hq => exact hp

theorem MachineStep.maps_kept {l : MachineOp} (hs : MachineStep h trampoline m l m') {p : VmMapPtr}
    (hp : p ∈ m.world.maps) (hne : l ≠ .vm (.destroy p)) : p ∈ m'.world.maps := by
  cases hs with
  | vm hs => exact hs.maps_kept hp fun hc => hne (congrArg MachineOp.vm hc)
  | sched hs => exact hp
  | idle he => exact hp
  | destroy ht he => exact hp
  | exit ht he => exact hp
  | stack b ht hx => exact hp

theorem MachineStep.active {l : MachineOp} (hs : MachineStep h trampoline m l m') :
    m'.world.vm.active = m.world.vm.active := by
  cases hs with
  | vm hs => exact hs.active
  | sched hs => rfl
  | idle he => rfl
  | destroy ht he => rfl
  | exit ht he => rfl
  | stack b ht hx => rfl

/-- A run of the maps is a run of the machine. -/
theorem VmLifeStep.machine {trace : List VmLifeOp} (hr : Run (VmLifeStep h) m.world trace w) :
    Run (MachineStep h trampoline) m (trace.map MachineOp.vm) { m with world := w } := by
  induction hr with
  | start => exact Run.start
  | @snoc trace l w₁ w₂ hr hs ih =>
    rw [List.map_append]
    exact ih.snoc (MachineStep.vm { m with world := w₁ } hs)

/-- `vm_map_destroy` returns. -/
theorem MachineInv.destroys (hb : VmBoot h s₀) (hsafe : SafeToRetire h s₀.pm) (hI : MachineInv h s₀ m)
    {p : VmMapPtr} (hp : p ∈ m.world.maps) : ∃ vm, vmMapDestroy h m.world.vm p = some vm := by
  obtain ⟨pages, n, g, lists, hI⟩ := hI
  obtain ⟨vm', g', hrun, -⟩ := hI.vm.destroy hb hsafe.1 hsafe.2 hp
  have hon := vmMapDestroy_onStore h m.world.vm ⟨fun _ => blankZone, m.world.vm.zoneStore.zoneCount⟩ p
  obtain ⟨vm, hvm, -⟩ := Option.map_eq_some_iff.mp (hon.symm.trans hrun)
  exact ⟨vm, hvm⟩

end Machine

section Kernel
variable {h : Hhdm} {trampoline : Word} {s₀ : VmState} {m₀ : Machine} {k k' : SystemWorld} {w : VmWorld}
  {img : Mem} {task imageData imageSize entryPoint : Word} {e e' : ExecState} {r : Option KernReturn}

theorem SystemInv.reaches (hK : SystemInv h trampoline s₀ m₀ k) :
    Reaches h s₀ k.machine k.machine.world := ⟨⟨[], Run.start⟩, hK.inv, hK.active⟩

/-- The machine after a run of its maps. -/
theorem SystemInv.moved (hb : VmBoot h s₀) (hsafe : SafeToRetire h s₀.pm)
    (hK : SystemInv h trampoline s₀ m₀ k) {trace : List VmLifeOp}
    (hw : Run (VmLifeStep h) k.machine.world trace w) :
    (∃ ops, Run (MachineStep h trampoline) m₀ ops { k.machine with world := w }) ∧
    MachineInv h s₀ { k.machine with world := w } ∧ w.vm.active = .kernel := by
  obtain ⟨ops, hr⟩ := hK.run
  have hm : Run (MachineStep h trampoline) k.machine _ { k.machine with world := w } :=
    VmLifeStep.machine hw
  refine ⟨⟨_, hr.trans hm⟩, hK.inv.run hb (fun _ _ _ => hsafe) hm, ?_⟩
  exact hw.inv (I := fun w => w.vm.active = .kernel) (fun _ _ _ hs ha => hs.active.trans ha) hK.active

theorem SystemInv.load (hb : VmBoot h s₀) (hsafe : SafeToRetire h s₀.pm)
    (hK : SystemInv h trampoline s₀ m₀ k) (ht : e.taskMap = k.taskMap)
    {w₁ : VmWorld} (hmoves : ExecMoves task k.machine.world w₁ e e')
    {trace : List VmLifeOp} (hw : Run (VmLifeStep h) k.machine.world trace w)
    (hmaps : ∀ p, p ∈ w.maps ↔ p ∈ k.machine.world.maps ∨ p = e'.taskMap task ∧ p ≠ vmMapNull) :
    SystemInv h trampoline s₀ m₀ ⟨{ k.machine with world := w }, e'.taskMap⟩ := by
  obtain ⟨hrun, hinv, hact⟩ := hK.moved hb hsafe hw
  have hold (t : Word) (hne : t ≠ task) : e'.taskMap t = k.taskMap t := by
    rw [hmoves.others t hne, ht]
  have hin (t : Word) (hn : k.taskMap t ≠ vmMapNull) : k.taskMap t ∈ k.machine.world.maps :=
    (hK.live t).resolve_left hn
  -- the map of the task is a new one, or it was its own before
  have hclash (u : Word) (hu : u ≠ task) (hn : e'.taskMap task ≠ vmMapNull) :
      e'.taskMap u ≠ e'.taskMap task := by
    intro hc
    rw [hold u hu] at hc
    by_cases hnull : e.taskMap task = vmMapNull
    · exact hmoves.fresh hnull hn (hc ▸ hin u (hc.symm ▸ hn))
    · rw [hmoves.keeps hnull, ht] at hc
      rw [ht] at hnull
      exact hu (hK.own task u hnull hc)
  refine ⟨hrun, hinv, hact, fun t => ?_, fun t u hn heq => ?_⟩
  · change e'.taskMap t = vmMapNull ∨ e'.taskMap t ∈ w.maps
    by_cases hn : e'.taskMap t = vmMapNull
    · exact Or.inl hn
    · refine Or.inr ((hmaps _).mpr ?_)
      by_cases hne : t = task
      · exact Or.inr ⟨by rw [hne], hn⟩
      · rw [hold t hne] at hn ⊢
        exact Or.inl (hin t hn)
  · change e'.taskMap t ≠ vmMapNull at hn
    change e'.taskMap u = e'.taskMap t at heq
    by_cases hu : u = task
    · by_cases hne : t = task
      · rw [hu, hne]
      · rw [hu] at heq
        exact absurd heq.symm (hclash t hne (heq ▸ hn))
    · by_cases hne : t = task
      · rw [hne] at heq hn
        exact absurd heq (hclash u hu hn)
      · rw [hold t hne] at hn heq
        rw [hold u hu] at heq
        exact hK.own t u hn heq

theorem SystemInv.unload (hb : VmBoot h s₀) (hsafe : SafeToRetire h s₀.pm)
    (hK : SystemInv h trampoline s₀ m₀ k) (ht : e.taskMap = k.taskMap) {kr : KernReturn}
    (hr : execUnload h task e = some (kr, e'))
    {trace : List VmLifeOp} (hw : Run (VmLifeStep h) k.machine.world trace w)
    (hmaps : ∀ p, p ∈ w.maps ↔ p ∈ k.machine.world.maps ∧
      ¬ (task ≠ 0 ∧ p = k.taskMap task ∧ p ≠ vmMapNull)) :
    SystemInv h trampoline s₀ m₀ ⟨{ k.machine with world := w }, e'.taskMap⟩ := by
  obtain ⟨hrun, hinv, hact⟩ := hK.moved hb hsafe hw
  -- a task keeps its map unless it is the one unloaded, which then has none
  have hsame (t : Word) (hn : e'.taskMap t ≠ vmMapNull) :
      e'.taskMap t = k.taskMap t ∧ (t = task → task = 0) := by
    rw [execUnload, ht] at hr
    split_ifs at hr with h0 hmap
    · obtain ⟨-, rfl⟩ := Prod.mk.inj (Option.some.inj hr)
      exact ⟨congrFun ht t, fun _ => h0⟩
    · obtain ⟨vm, -, hr⟩ := Option.map_eq_some_iff.mp hr
      obtain ⟨-, rfl⟩ := Prod.mk.inj hr
      change Function.update k.taskMap task vmMapNull t ≠ _ at hn
      by_cases hne : t = task
      · rw [hne, Function.update_self] at hn
        exact absurd rfl hn
      · exact ⟨Function.update_of_ne hne _ _, fun hc => absurd hc hne⟩
    · obtain ⟨-, rfl⟩ := Prod.mk.inj (Option.some.inj hr)
      rw [ht] at hn
      refine ⟨congrFun ht t, ?_⟩
      rintro rfl
      exact absurd hn hmap
  refine ⟨hrun, hinv, hact, fun t => ?_, fun t u hn heq => ?_⟩
  · change e'.taskMap t = vmMapNull ∨ e'.taskMap t ∈ w.maps
    by_cases hn : e'.taskMap t = vmMapNull
    · exact Or.inl hn
    · obtain ⟨hold, hz⟩ := hsame t hn
      rw [hold] at hn ⊢
      refine Or.inr ((hmaps _).mpr ⟨(hK.live t).resolve_left hn, fun hc => ?_⟩)
      exact hc.1 (hz (hK.own task t (hc.2.1 ▸ hn) hc.2.1))
  · change e'.taskMap t ≠ vmMapNull at hn
    change e'.taskMap u = e'.taskMap t at heq
    have hold := (hsame t hn).1
    have hold' := (hsame u (heq ▸ hn)).1
    rw [hold] at hn heq
    rw [hold'] at heq
    exact hK.own t u hn heq

theorem SystemInv.step (hb : VmBoot h s₀) (hsafe : SafeToRetire h s₀.pm) (hlow : LowerEmpty h s₀)
    (hK : SystemInv h trampoline s₀ m₀ k) {l : SystemOp} (hs : SystemStep h trampoline k l k') :
    SystemInv h trampoline s₀ m₀ k' := by
  cases hs with
  | machine hs ho =>
    obtain ⟨ops, hr⟩ := hK.run
    refine ⟨⟨_, hr.snoc hs⟩, (hK.inv.step hb (fun _ => hsafe) hs).1, hs.active.trans hK.active,
      fun t => ?_, hK.own⟩
    by_cases hn : k.taskMap t = vmMapNull
    · exact Or.inl hn
    · exact Or.inr (hs.maps_kept ((hK.live t).resolve_left hn) (ho t hn))
  | load hv ht hr hw hvm hmaps =>
    obtain ⟨w₁, -, -, hmoves, -⟩ := execLoad_reaches hb hsafe hlow hK.reaches hv (ht ▸ hK.live _) hr
    exact hK.load hb hsafe ht hmoves hw hmaps
  | unload hv ht hr hw hvm hmaps => exact hK.unload hb hsafe ht hr hw hmaps

theorem SystemInv.runs (hb : VmBoot h s₀) (hsafe : SafeToRetire h s₀.pm) (hlow : LowerEmpty h s₀)
    (hK : SystemInv h trampoline s₀ m₀ k) {trace : List SystemOp}
    (hr : Run (SystemStep h trampoline) k trace k') : SystemInv h trampoline s₀ m₀ k' :=
  hr.inv (I := SystemInv h trampoline s₀ m₀) (fun _ _ _ hs hK => hK.step hb hsafe hlow hs) hK

/-- Every `exec_load` is a step. -/
theorem SystemInv.can_load (hb : VmBoot h s₀) (hsafe : SafeToRetire h s₀.pm) (hlow : LowerEmpty h s₀)
    (hK : SystemInv h trampoline s₀ m₀ k) (hv : e.load.vm = k.machine.world.vm)
    (ht : e.taskMap = k.taskMap) (hr : execLoad h img task imageData imageSize entryPoint e = (r, e')) :
    (∃ k', SystemStep h trampoline k (.load task r) k' ∧ k'.machine.world.vm = e'.load.vm ∧
      k'.taskMap = e'.taskMap) ∧
    e'.load.stores = e.load.stores ∧ (r = some .success →
      ∀ seg ∈ segmentsOf img (mhNcmds img imageData).toNat (imageData+sizeofMachHeader64),
        segFilesize img seg = 0) := by
  obtain ⟨w, hR, hvm, hmoves, hno⟩ := execLoad_reaches hb hsafe hlow hK.reaches hv (ht ▸ hK.live _) hr
  obtain ⟨trace, hw⟩ := hR.run
  exact ⟨⟨_, SystemStep.load k hv ht hr hw hvm hmoves.maps, hvm, rfl⟩, hmoves.stores, hno⟩

/-- And so is every `exec_unload`. -/
theorem SystemInv.can_unload (hb : VmBoot h s₀) (hsafe : SafeToRetire h s₀.pm)
    (hK : SystemInv h trampoline s₀ m₀ k) (hv : e.load.vm = k.machine.world.vm)
    (ht : e.taskMap = k.taskMap) (task : Word) : ∃ kr e' k', execUnload h task e = some (kr, e') ∧
      SystemStep h trampoline k (.unload task) k' ∧ k'.machine.world.vm = e'.load.vm ∧
      k'.taskMap = e'.taskMap ∧ (task ≠ 0 → kr = .success ∧ k'.taskMap task = vmMapNull) := by
  have hstay (p : VmMapPtr) (hc : ¬ (task ≠ 0 ∧ k.taskMap task ≠ vmMapNull)) :
      p ∈ k.machine.world.maps ↔ p ∈ k.machine.world.maps ∧
        ¬ (task ≠ 0 ∧ p = k.taskMap task ∧ p ≠ vmMapNull) :=
    ⟨fun hp => ⟨hp, fun hn => hc ⟨hn.1, hn.2.1 ▸ hn.2.2⟩⟩, fun hp => hp.1⟩
  by_cases h0 : task = 0
  · have hr : execUnload h task e = some (.invalidArgument, e) := by
      rw [execUnload]
      exact if_pos h0
    exact ⟨_, _, _, hr, SystemStep.unload k hv ht hr Run.start hv.symm fun p =>
      hstay p fun hc => hc.1 h0, hv.symm, rfl, fun hc => absurd h0 hc⟩
  by_cases hn : k.taskMap task = vmMapNull
  · have hr : execUnload h task e = some (.success, e) := by
      rw [execUnload, if_neg h0, ht]
      exact if_neg (not_not.mpr hn)
    refine ⟨_, _, _, hr, SystemStep.unload k hv ht hr Run.start hv.symm fun p =>
      hstay p fun hc => hc.2 hn, hv.symm, rfl, fun _ => ⟨rfl, ?_⟩⟩
    exact (congrFun ht task).trans hn
  · have hin := (hK.live task).resolve_left hn
    obtain ⟨vm, hd⟩ := hK.inv.destroys hb hsafe hin
    have hr : execUnload h task e = some (.success, { e.withVm vm with
        taskMap := Function.update e.taskMap task vmMapNull }) := by
      rw [execUnload, if_neg h0, ht, hv, if_pos hn, hd]
      rfl
    refine ⟨_, _, _, hr, SystemStep.unload k hv ht hr
      (Run.start.snoc (VmLifeStep.destroy k.machine.world hin hd)) rfl fun p => ?_, rfl, rfl,
      fun _ => ⟨rfl, Function.update_self _ _ _⟩⟩
    -- only the map of the task goes
    constructor
    · rintro ⟨hp, hne⟩
      exact ⟨hp, fun hc => hne hc.2.1⟩
    · rintro ⟨hp, hnot⟩
      exact ⟨hp, fun hc => hnot ⟨h0, hc, fun hz => hn (hc ▸ hz)⟩⟩

end Kernel

section Boot
variable {b : Handover} {h : Hhdm} {mmap : List MemmapEntry}

theorem kmain_active {trampoline idle : Word} {m : Machine} (hm : kmain trampoline idle b = some m) :
    m.world.vm.active = .kernel := by
  obtain ⟨⟨h, s⟩, hmem, hm⟩ := Option.bind_eq_some_iff.mp hm
  obtain ⟨s', hs', rfl⟩ := Option.map_eq_some_iff.mp hm
  obtain ⟨pmm, rfl⟩ := kmainMemory_state hmem
  change s'.active = .kernel
  rw [vmMapInit] at hs'
  split at hs'
  · cases hs'
  · split at hs'
    · cases hs'
    · rw [← Option.some.inj hs']
      rfl

/-- What `kmain` leaves, with no program in any task. -/
theorem kmain_system (hok : b.Ok h mmap) (trampoline idle : Word) : ∃ s₀ m₀,
    kmainMemory b = some (h, s₀) ∧ kmain trampoline idle b = some m₀ ∧ VmBoot h s₀ ∧
    SystemInv h trampoline s₀ m₀ ⟨m₀, fun _ => vmMapNull⟩ := by
  obtain ⟨s₀, m₀, hmem, hb, hrun, hI, -⟩ := kmain_inv hok trampoline idle
  exact ⟨s₀, m₀, hmem, hrun, hb, ⟨[], Run.start⟩, hI, kmain_active hrun, fun _ => Or.inl rfl,
    fun _ _ hn => absurd rfl hn⟩

end Boot

/-- The boot loader of the plain machine leaves no table at all. -/
theorem plainHandover_safe {s₀ : VmState} (hm : kmainMemory plainHandover = some (higherHalf, s₀)) :
    SafeToRetire higherHalf s₀.pm ∧ LowerEmpty higherHalf s₀ := by
  obtain ⟨pmm, rfl⟩ := kmainMemory_state hm
  refine ⟨⟨higherHalf_high, ?_⟩, fun i _ => ?_⟩
  · rintro n ⟨i, q, t, -, -, ht, rfl⟩
    cases (loopTable_blank higherHalf _ i q).symm.trans ht
  · exact (congrArg (· &&& pteP) (pteAt_blank _ _ i)).trans (by decide)

end Dana
