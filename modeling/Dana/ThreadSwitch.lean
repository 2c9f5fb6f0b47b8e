import Dana.X86
import Mathlib.Tactic.IntervalCases

/-! Context switches: the initial frame of kern/thread.c, `machine_switch_context`
of hal/x86_64/thread_switch.S, and threads that switch among themselves. -/
namespace Dana
open ByteMem X86

/-- The registers `machine_switch_context` pushes, in order. -/
def calleeSaved : List Reg := [.rbp, .rbx, .r12, .r13, .r14, .r15]

def machineSwitchContext : List Instr :=
  [.push .rbp, .push .rbx, .push .r12, .push .r13, .push .r14, .push .r15,
   .store .rdi .rsp,
   .mov .rsp .rsi,
   .pop .r15, .pop .r14, .pop .r13, .pop .r12, .pop .rbx, .pop .rbp,
   .ret]

/-- The stack that `thread_create` builds below `kernel_stack_top`: the guard word,
the return address, rbp, rbx, r12, r13, r14 and r15. -/
def threadInitStack (m : Mem) (kernelStackTop threadTrampoline entry arg : Word) : Mem × Word :=
  pushAll [0, threadTrampoline, 0, 0, 0, 0, arg, entry] (m, kernelStackTop)

def kstackSize : Word := 4096

/-- The offset of `saved_state.rsp` in `struct thread`. -/
def savedStateRsp : Word := 24

/-- `thread_switch` from its call of `machine_switch_context` on, `next` being the
address that the call returns to. -/
def threadSwitch (oldThread newThread switchContext next : Word) (s : State) : State :=
  run machineSwitchContext (exec (.call switchContext next)
    ((s.set .rdi (oldThread+savedStateRsp)).set .rsi (load64 s.mem (newThread+savedStateRsp))))

/-- What a call of `machine_switch_context` has to give back. -/
structure Snapshot where
  rsp : Word
  rip : Word
  reg : Reg → Word

def Snapshot.Matches (c : Snapshot) (s : State) : Prop :=
  s.reg .rsp = c.rsp ∧ s.rip = c.rip ∧ ∀ r ∈ calleeSaved, s.reg r = c.reg r

/-- The caller's side of a call of `machine_switch_context`. -/
def callSnapshot (next : Word) (s : State) : Snapshot := ⟨s.reg .rsp, next, s.reg⟩

/-- The state a fresh thread starts in. -/
def freshSnapshot (kernelStackTop threadTrampoline entry arg : Word) : Snapshot where
  rsp := below kernelStackTop 1
  rip := threadTrampoline
  reg := fun r => if r = .r15 then entry else if r = .r14 then arg else 0

/-- The quadwords of a switch frame. -/
def Snapshot.InFrame (c : Snapshot) (x : Word) : Prop := ∃ i < 7, x-below c.rsp (i+1) < 8

/-- A switch frame of `c`: the return address and the registers lie below its stack
pointer, and `sp` points at the last of them. -/
structure FrameAt (m : Mem) (sp : Word) (c : Snapshot) : Prop where
  sp_eq : sp = below c.rsp 7
  ret : load64 m (below c.rsp 1) = c.rip
  saved : ∀ (i : ℕ) (hi : i < calleeSaved.length),
    load64 m (below c.rsp (i+2)) = c.reg calleeSaved[i]

theorem FrameAt.congr {m m' : Mem} {sp : Word} {c : Snapshot} (h : FrameAt m sp c)
    (hm : ∀ x, c.InFrame x → m' x = m x) : FrameAt m' sp c := by
  have hload (i : ℕ) (hi : i < 7) : load64 m' (below c.rsp (i+1)) = load64 m (below c.rsp (i+1)) :=
    load64_congr _ _ _ fun x hx => hm x ⟨i, hi, hx⟩
  refine ⟨h.sp_eq, (hload 0 (by decide)).trans h.ret, fun i hi => ?_⟩
  have hi' : i < 6 := hi
  exact (hload (i+1) (by omega)).trans (h.saved i hi)

theorem threadInitStack_frame (m : Mem) (top trampoline entry arg : Word) :
    FrameAt (threadInitStack m top trampoline entry arg).1
      (threadInitStack m top trampoline entry arg).2
      (freshSnapshot top trampoline entry arg) := by
  have hload (k : ℕ) (hk : k < 8) :
      load64 (threadInitStack m top trampoline entry arg).1 (below top (k+1)) =
        [0, trampoline, 0, 0, 0, 0, arg, entry][k] :=
    pushAll_load [0, trampoline, 0, 0, 0, 0, arg, entry] m top (by simp) k hk
  refine ⟨?_, ?_, fun i hi => ?_⟩
  · simp only [threadInitStack, pushAll_sp, freshSnapshot, below_below]
    rfl
  · simp only [freshSnapshot, below_below]
    exact hload 1 (by decide)
  · have hi' : i < 6 := hi
    have h := hload (i+2) (by omega)
    simp only [freshSnapshot, below_below, Nat.add_comm 1]
    rw [h]
    interval_cases i <;> simp [calleeSaved]

/-- The memory after a switch has saved the old thread's registers. -/
def switchMem (oldThread next : Word) (s : State) : Mem :=
  store64 (pushAll (next :: calleeSaved.map s.reg) (s.mem, s.reg .rsp)).1
    (oldThread+savedStateRsp) (below (s.reg .rsp) 7)

/-- A switch onto a frame resumes what the frame has saved. -/
theorem threadSwitch_spec (old new switchContext next : Word) (s : State) (c : Snapshot)
    (hf : FrameAt (switchMem old next s) (load64 s.mem (new+savedStateRsp)) c) :
    c.Matches (threadSwitch old new switchContext next s) ∧
      (threadSwitch old new switchContext next s).mem = switchMem old next s := by
  obtain ⟨s2, hs2⟩ : ∃ s2, s2 = exec (.call switchContext next)
    ((s.set .rdi (old+savedStateRsp)).set .rsi (load64 s.mem (new+savedStateRsp))) := ⟨_, rfl⟩
  have hsp2 : s2.reg .rsp = below (s.reg .rsp) 1 := by
    simp [hs2, exec, pushWord_reg, set_reg, below]
  have hreg2 : calleeSaved.map s2.reg = calleeSaved.map s.reg := by
    simp [hs2, exec, pushWord_reg, set_reg, calleeSaved]
  have hrdi : s2.reg .rdi = old+savedStateRsp := by
    simp [hs2, exec, pushWord_reg, set_reg]
  have hrsi : s2.reg .rsi = below c.rsp 7 := by
    simp [hs2, exec, pushWord_reg, set_reg, hf.sp_eq]
  have hmem2 : s2.mem = store64 s.mem (below (s.reg .rsp) 1) next := by
    simp [hs2, exec, set_reg, below]
  obtain ⟨t, ht⟩ : ∃ t, t = run (calleeSaved.map .push) s2 := ⟨_, rfl⟩
  obtain ⟨u, hu⟩ : ∃ u, u = run [.store .rdi .rsp, .mov .rsp .rsi] t := ⟨_, rfl⟩
  have hswitch : threadSwitch old new switchContext next s =
      exec .ret (run (calleeSaved.reverse.map .pop) u) := by
    rw [hu, ht, hs2]
    rfl
  rw [pushes_eq _ _ (by decide)] at ht
  have hlen : calleeSaved.length = 6 := rfl
  have humem : u.mem = switchMem old next s := by
    simp [hu, exec, ht, hrdi, hsp2, hmem2, hreg2, hlen, below_below, switchMem, pushAll_cons]
  have husp : u.reg .rsp = below c.rsp (1+calleeSaved.reverse.length) := by
    simp [hu, exec, ht, hrsi, calleeSaved]
  obtain ⟨h1, h2, _, h4⟩ := pops_spec calleeSaved.reverse c.rsp 1 u (by decide) (by decide) husp
  rw [hswitch]
  refine ⟨⟨?_, ?_, fun r hr => ?_⟩, ?_⟩
  · simp only [exec, set_self, h1]
    rw [below_succ_add, below_zero]
  · simp only [exec, h1, h2, humem]
    exact hf.ret
  · have hne : r ≠ .rsp := by rintro rfl; revert hr; decide
    simp only [exec]
    rw [set_of_ne _ _ _ _ hne]
    obtain ⟨i, hi, rfl⟩ := List.getElem_of_mem hr
    have hi' : i < 6 := hi
    have h := h4 (5-i) (by simp [calleeSaved]; omega)
    rw [List.getElem_reverse] at h
    have hidx : calleeSaved.length-1-(5-i) = i := by simp [calleeSaved]; omega
    have hoff : 1+calleeSaved.reverse.length-(5-i) = i+2 := by simp [calleeSaved]; omega
    simp only [hidx, hoff, humem] at h
    rw [h]
    exact hf.saved i hi
  · simp only [exec, set_mem, h2, humem]

/-- What a thread owns, where it starts, and its last call of
`machine_switch_context` (none before the first). -/
structure KThread where
  stackLo : Word
  stackLen : Word
  entry : Word
  arg : Word
  call : Option Snapshot

def KThread.InStack (k : KThread) (x : Word) : Prop := x-k.stackLo < k.stackLen

/-- The quadword of a thread's `saved_state.rsp`. -/
def InSlot (t x : Word) : Prop := x-(t+savedStateRsp) < 8

structure SwitchState where
  cpu : State
  rsp0 : Word
  current : Word
  threads : Word → Option KThread

/-- Two threads share no stack byte, and neither has its saved rsp in the stack of
the other or in that of the other's saved rsp. -/
def Disjoint (t : Word) (k : KThread) (t' : Word) (k' : KThread) : Prop :=
  ∀ x, ¬ (k.InStack x ∧ k'.InStack x) ∧ ¬ (InSlot t x ∧ k'.InStack x) ∧
    ¬ (k.InStack x ∧ InSlot t' x) ∧ ¬ (InSlot t x ∧ InSlot t' x)

/-- The thread `thread_create` makes on a fresh stack page. -/
def createdThread (stackLo entry arg : Word) : KThread := ⟨stackLo, kstackSize, entry, arg, none⟩

inductive SwitchStep (threadTrampoline switchContext : Word) : SwitchState → SwitchState → Prop
  /-- Code between switches: any registers, but no store outside its own stack. -/
  | code {s : SwitchState} {k : KThread} (cpu : State) (hk : s.threads s.current = some k)
      (hmem : ∀ x, ¬ k.InStack x → cpu.mem x = s.cpu.mem x) :
      SwitchStep threadTrampoline switchContext s { s with cpu := cpu }
  /-- `thread_create`, whose page and structure are apart from those in use. -/
  | create {s : SwitchState} (t stackLo entry arg : Word) (ht : s.threads t = none)
      (hown : ∀ x, ¬ (InSlot t x ∧ (createdThread stackLo entry arg).InStack x))
      (hdisj : ∀ t' k', s.threads t' = some k' →
        Disjoint t (createdThread stackLo entry arg) t' k') :
      SwitchStep threadTrampoline switchContext s
        (let init := threadInitStack s.cpu.mem (stackLo+kstackSize) threadTrampoline entry arg
        { s with
          cpu := { s.cpu with mem := store64 init.1 (t+savedStateRsp) init.2 }
          threads := Function.update s.threads t (some (createdThread stackLo entry arg)) })
  /-- `thread_switch` to another thread, as `sched_run` calls it; the frame it
  pushes fits the current stack. -/
  | switch {s : SwitchState} {k k' : KThread} (new next : Word) (hne : new ≠ s.current)
      (hk : s.threads s.current = some k) (hk' : s.threads new = some k')
      (hroom : ∀ x, (callSnapshot next s.cpu).InFrame x → k.InStack x) :
      SwitchStep threadTrampoline switchContext s
        { cpu := threadSwitch s.current new switchContext next s.cpu
          rsp0 := k'.stackLo+k'.stackLen
          current := new
          threads := Function.update s.threads s.current
            (some { k with call := some (callSnapshot next s.cpu) }) }

/-- The machine before any switch: one thread, running on its own stack. -/
def SwitchInit (s : SwitchState) : Prop :=
  ∃ k, s.threads = Function.update (fun _ => none) s.current (some k) ∧
    ∀ x, ¬ (InSlot s.current x ∧ k.InStack x)

inductive SwitchRun (threadTrampoline switchContext : Word) : SwitchState → Prop
  | init {s : SwitchState} (h : SwitchInit s) : SwitchRun threadTrampoline switchContext s
  | step {s s' : SwitchState} (h : SwitchRun threadTrampoline switchContext s)
      (hs : SwitchStep threadTrampoline switchContext s s') :
      SwitchRun threadTrampoline switchContext s'

/-- What a switch to the thread has to bring back. -/
def KThread.expected (threadTrampoline : Word) (k : KThread) : Snapshot :=
  k.call.getD (freshSnapshot (k.stackLo+k.stackLen) threadTrampoline k.entry k.arg)

/-- Every thread but the current one has its switch frame on its own stack. -/
structure SwitchInv (threadTrampoline : Word) (s : SwitchState) : Prop where
  current : ∃ k, s.threads s.current = some k
  own : ∀ t k, s.threads t = some k → ∀ x, ¬ (InSlot t x ∧ k.InStack x)
  disjoint : ∀ t k t' k', s.threads t = some k → s.threads t' = some k' → t ≠ t' →
    Disjoint t k t' k'
  frame : ∀ t k, s.threads t = some k → t ≠ s.current →
    FrameAt s.cpu.mem (load64 s.cpu.mem (t+savedStateRsp)) (k.expected threadTrampoline) ∧
    ∀ x, (k.expected threadTrampoline).InFrame x → k.InStack x

/-- A frame survives every store outside the stack and the slot of its thread. -/
theorem SwitchInv.frame_congr {trampoline : Word} {s : SwitchState}
    (h : SwitchInv trampoline s) (m : Mem) (t : Word) (k : KThread) (ht : s.threads t = some k)
    (hne : t ≠ s.current) (hm : ∀ x, k.InStack x ∨ InSlot t x → m x = s.cpu.mem x) :
    FrameAt m (load64 m (t+savedStateRsp)) (k.expected trampoline) ∧
    ∀ x, (k.expected trampoline).InFrame x → k.InStack x := by
  obtain ⟨hf, hin⟩ := h.frame t k ht hne
  have hslot : load64 m (t+savedStateRsp) = load64 s.cpu.mem (t+savedStateRsp) :=
    load64_congr _ _ _ fun x hx => hm x (Or.inr hx)
  rw [hslot]
  exact ⟨hf.congr fun x hx => hm x (Or.inl (hin x hx)), hin⟩

/-- What one thread may write is not the stack or the slot of a thread apart from it. -/
theorem Disjoint.outside {t t' : Word} {k k' : KThread} (h : Disjoint t k t' k') {m m' : Mem}
    (hm : ∀ x, ¬ k.InStack x → ¬ InSlot t x → m' x = m x) (x : Word)
    (hx : k'.InStack x ∨ InSlot t' x) : m' x = m x := by
  obtain ⟨h1, h2, h3, h4⟩ := h x
  rcases hx with hx | hx
  · exact hm x (fun hc => h1 ⟨hc, hx⟩) fun hc => h2 ⟨hc, hx⟩
  · exact hm x (fun hc => h3 ⟨hc, hx⟩) fun hc => h4 ⟨hc, hx⟩

theorem SwitchInit.inv {trampoline : Word} {s : SwitchState} (h : SwitchInit s) :
    SwitchInv trampoline s := by
  obtain ⟨k, hk, hown⟩ := h
  have honly (t : Word) (k' : KThread) (ht : s.threads t = some k') : t = s.current ∧ k' = k := by
    rw [hk, Function.update_apply] at ht
    split_ifs at ht with hc
    exact ⟨hc, (Option.some.inj ht).symm⟩
  refine ⟨⟨k, by rw [hk, Function.update_self]⟩, ?_, ?_, ?_⟩
  · rintro t k' ht
    obtain ⟨rfl, rfl⟩ := honly t k' ht
    exact hown
  · rintro t k1 t' k2 h1 h2 hne
    exact absurd ((honly t k1 h1).1.trans (honly t' k2 h2).1.symm) hne
  · rintro t k' ht hne
    exact absurd (honly t k' ht).1 hne

/-- The memory a switch leaves differs on the old thread's stack and slot only. -/
theorem switchMem_eq (t next : Word) (s : State) (k : KThread) (x : Word)
    (hroom : ∀ x, (callSnapshot next s).InFrame x → k.InStack x)
    (hx : ¬ k.InStack x ∧ ¬ InSlot t x) : switchMem t next s x = s.mem x := by
  have hslot : ¬ x-(t+savedStateRsp) < 8 := hx.2
  simp only [switchMem, store64, hslot, ↓reduceIte]
  exact pushAll_byte _ _ _ _ fun i hi hin => hx.1 (hroom x ⟨i, hi, hin⟩)

/-- The saved frame of the thread that switches away. -/
theorem switchMem_frame (t next : Word) (s : State) (k : KThread)
    (hown : ∀ x, ¬ (InSlot t x ∧ k.InStack x))
    (hroom : ∀ x, (callSnapshot next s).InFrame x → k.InStack x) :
    FrameAt (switchMem t next s) (load64 (switchMem t next s) (t+savedStateRsp))
      (callSnapshot next s) := by
  have hload (i : ℕ) (hi : i < 7) : load64 (switchMem t next s) (below (s.reg .rsp) (i+1)) =
      (next :: calleeSaved.map s.reg)[i] := by
    rw [← pushAll_load (next :: calleeSaved.map s.reg) s.mem (s.reg .rsp)
      (by simp [calleeSaved]) i hi]
    apply load64_congr
    intro x hx
    have hx' : ¬ x-(t+savedStateRsp) < 8 := fun hs => hown x ⟨hs, hroom x ⟨i, hi, hx⟩⟩
    simp only [switchMem, store64, hx', ↓reduceIte]
  refine ⟨load64_store64_same .., hload 0 (by decide), fun i hi => ?_⟩
  have hi' : i < 6 := hi
  exact (hload (i+1) (by omega)).trans (List.getElem_map ..)

/-- A switch reaches its new thread as that thread expects. -/
theorem SwitchInv.switch_matches {trampoline : Word} {s : SwitchState}
    (h : SwitchInv trampoline s) (switchContext new next : Word) (k k' : KThread)
    (hne : new ≠ s.current) (hk : s.threads s.current = some k) (hk' : s.threads new = some k')
    (hroom : ∀ x, (callSnapshot next s.cpu).InFrame x → k.InStack x) :
    (k'.expected trampoline).Matches
      (threadSwitch s.current new switchContext next s.cpu) ∧
    (threadSwitch s.current new switchContext next s.cpu).mem =
      switchMem s.current next s.cpu := by
  apply threadSwitch_spec
  have hmem (x : Word) (hx : k'.InStack x ∨ InSlot new x) :
      switchMem s.current next s.cpu x = s.cpu.mem x := by
    apply (h.disjoint _ _ _ _ hk hk' (Ne.symm hne)).outside ?_ x hx
    exact fun x hs ht => switchMem_eq s.current next s.cpu k x hroom ⟨hs, ht⟩
  have hf := (h.frame_congr _ new k' hk' hne hmem).1
  have hslot : load64 (switchMem s.current next s.cpu) (new+savedStateRsp) =
      load64 s.cpu.mem (new+savedStateRsp) :=
    load64_congr _ _ _ fun x hx => hmem x (Or.inr hx)
  rwa [hslot] at hf

theorem Disjoint.symm {t t' : Word} {k k' : KThread} (h : Disjoint t k t' k') :
    Disjoint t' k' t k := by
  intro x
  obtain ⟨h1, h2, h3, h4⟩ := h x
  exact ⟨fun hc => h1 hc.symm, fun hc => h3 hc.symm, fun hc => h2 hc.symm,
    fun hc => h4 hc.symm⟩

/-- The frame that `thread_create` builds lies in the new stack page. -/
theorem createdThread_frame (m : Mem) (t stackLo trampoline entry arg : Word)
    (hown : ∀ x, ¬ (InSlot t x ∧ (createdThread stackLo entry arg).InStack x)) :
    let init := threadInitStack m (stackLo+kstackSize) trampoline entry arg
    let m' := store64 init.1 (t+savedStateRsp) init.2
    (FrameAt m' (load64 m' (t+savedStateRsp))
      ((createdThread stackLo entry arg).expected trampoline) ∧
    ∀ x, ((createdThread stackLo entry arg).expected trampoline).InFrame x →
      (createdThread stackLo entry arg).InStack x) ∧
    ∀ x, ¬ (createdThread stackLo entry arg).InStack x → ¬ InSlot t x → m' x = m x := by
  intro init m'
  have hin (x : Word) (i : ℕ) (hi : i < 8) (hx : x-below (stackLo+kstackSize) (i+1) < 8) :
      (createdThread stackLo entry arg).InStack x := by
    simp only [createdThread, KThread.InStack, below, kstackSize] at hx ⊢
    bv_omega
  have hframe (x : Word) (hx : ((createdThread stackLo entry arg).expected trampoline).InFrame x) :
      (createdThread stackLo entry arg).InStack x := by
    obtain ⟨i, hi, hx⟩ := hx
    apply hin x (i+1) (by omega)
    have hx' : x-below (below (stackLo+kstackSize) 1) (i+1) < 8 := hx
    rwa [below_below, Nat.add_comm 1] at hx'
  refine ⟨⟨?_, hframe⟩, fun x hx hs => ?_⟩
  · have hsp : load64 m' (t+savedStateRsp) = init.2 := load64_store64_same ..
    rw [hsp]
    apply (threadInitStack_frame m (stackLo+kstackSize) trampoline entry arg).congr
    intro x hx
    have hslot : ¬ x-(t+savedStateRsp) < 8 := fun hs => hown x ⟨hs, hframe x hx⟩
    simp only [m', store64, hslot, ↓reduceIte]
    rfl
  · have hslot : ¬ x-(t+savedStateRsp) < 8 := hs
    simp only [m', store64, hslot, ↓reduceIte]
    exact pushAll_byte _ _ _ _ fun i hi h8 => hx (hin x i hi h8)

section Threads
variable {threads : Word → Option KThread} {t : Word} {k : KThread}

/-- A thread that is added, or changed, has its slot outside its own stack like the others. -/
theorem own_update (hown : ∀ t k, threads t = some k → ∀ x, ¬ (InSlot t x ∧ k.InStack x))
    (hnew : ∀ x, ¬ (InSlot t x ∧ k.InStack x)) (t' : Word) (k' : KThread)
    (ht' : Function.update threads t (some k) t' = some k') (x : Word) :
    ¬ (InSlot t' x ∧ k'.InStack x) := by
  rw [Function.update_apply] at ht'
  split_ifs at ht' with hc
  · obtain rfl := Option.some.inj ht'
    rw [hc]
    exact hnew x
  · exact hown t' k' ht' x

/-- It is apart from the others, which are apart already. -/
theorem disjoint_update (hdisj : ∀ t k t' k', threads t = some k → threads t' = some k' →
      t ≠ t' → Disjoint t k t' k')
    (hnew : ∀ t' k', threads t' = some k' → t' ≠ t → Disjoint t k t' k') (t1 : Word)
    (k1 : KThread) (t2 : Word) (k2 : KThread)
    (h1 : Function.update threads t (some k) t1 = some k1)
    (h2 : Function.update threads t (some k) t2 = some k2) (hne : t1 ≠ t2) :
    Disjoint t1 k1 t2 k2 := by
  rw [Function.update_apply] at h1 h2
  split_ifs at h1 h2 with hc1 hc2 hc2
  · exact absurd (hc1.trans hc2.symm) hne
  · obtain rfl := Option.some.inj h1
    rw [hc1]
    exact hnew t2 k2 h2 hc2
  · obtain rfl := Option.some.inj h2
    rw [hc2]
    exact (hnew t1 k1 h1 hc1).symm
  · exact hdisj t1 k1 t2 k2 h1 h2 hne

end Threads

/-- One step keeps every suspended frame. -/
theorem SwitchInv.step {trampoline switchContext : Word} {s s' : SwitchState}
    (h : SwitchInv trampoline s) (hs : SwitchStep trampoline switchContext s s') :
    SwitchInv trampoline s' := by
  cases hs with
  | @code k cpu hk hmem =>
    refine ⟨h.current, h.own, h.disjoint, fun t k' ht hne => ?_⟩
    apply h.frame_congr cpu.mem t k' ht hne
    exact (h.disjoint _ _ _ _ hk ht (Ne.symm hne)).outside fun x hx _ => hmem x hx
  | create t stackLo entry arg ht hown hdisj =>
    obtain ⟨hnew, hold⟩ := createdThread_frame s.cpu.mem t stackLo trampoline entry arg hown
    obtain ⟨k, hk⟩ := h.current
    have hcur : s.current ≠ t := by
      rintro rfl
      rw [ht] at hk
      cases hk
    refine ⟨⟨k, by simp only [Function.update_of_ne hcur, hk]⟩, own_update h.own hown,
      disjoint_update h.disjoint fun t' k' ht' _ => hdisj t' k' ht', fun t' k' ht' hne => ?_⟩
    simp only [Function.update_apply] at ht'
    split_ifs at ht' with hc
    · obtain rfl := Option.some.inj ht'
      rw [hc]
      exact hnew
    · apply h.frame_congr _ t' k' ht' hne
      exact (hdisj t' k' ht').outside hold
  | @switch k k' new next hne hk hk' hroom =>
    obtain ⟨_, hmem⟩ := h.switch_matches switchContext new next k k' hne hk hk' hroom
    refine ⟨⟨k', by simp only [Function.update_of_ne hne, hk']⟩, own_update h.own (h.own _ k hk),
      disjoint_update h.disjoint fun t' k' ht' hnt => h.disjoint _ k t' k' hk ht' (Ne.symm hnt),
      fun t kt ht hnt => ?_⟩
    simp only [hmem, Function.update_apply] at ht ⊢
    split_ifs at ht with hc
    · obtain rfl := Option.some.inj ht
      rw [hc]
      exact ⟨switchMem_frame _ _ _ k (h.own _ k hk) hroom, hroom⟩
    · apply h.frame_congr _ t kt ht hc
      apply (h.disjoint _ _ _ _ hk ht (Ne.symm hc)).outside
      exact fun x hs ht => switchMem_eq s.current next s.cpu k x hroom ⟨hs, ht⟩

theorem SwitchRun.inv {trampoline switchContext : Word} {s : SwitchState}
    (h : SwitchRun trampoline switchContext s) : SwitchInv trampoline s := by
  induction h with
  | init h => exact h.inv
  | step _ hs ih => exact ih.step hs

/-- In every run, a switch to a thread that has called `machine_switch_context`
returns with what the thread had at that call; the first switch into a created
thread arrives at `thread_trampoline`. -/
theorem thread_switch_transparent (trampoline switchContext : Word) (s : SwitchState)
    (h : SwitchRun trampoline switchContext s) (k k' : KThread) (new next : Word)
    (hne : new ≠ s.current) (hk : s.threads s.current = some k) (hk' : s.threads new = some k')
    (hroom : ∀ x, (callSnapshot next s.cpu).InFrame x → k.InStack x) :
    let cpu := threadSwitch s.current new switchContext next s.cpu
    (∀ c, k'.call = some c → cpu.reg .rsp = c.rsp ∧ cpu.rip = c.rip ∧
      cpu.reg .rbx = c.reg .rbx ∧ cpu.reg .rbp = c.reg .rbp ∧ cpu.reg .r12 = c.reg .r12 ∧
      cpu.reg .r13 = c.reg .r13 ∧ cpu.reg .r14 = c.reg .r14 ∧ cpu.reg .r15 = c.reg .r15) ∧
    (k'.call = none → cpu.rip = trampoline ∧ cpu.reg .r15 = k'.entry ∧ cpu.reg .r14 = k'.arg ∧
      cpu.reg .rbx = 0 ∧ cpu.reg .rbp = 0 ∧ cpu.reg .r12 = 0 ∧ cpu.reg .r13 = 0) := by
  intro cpu
  obtain ⟨⟨hsp, hip, hreg⟩, _⟩ := h.inv.switch_matches switchContext new next k k' hne hk hk' hroom
  refine ⟨fun c hc => ?_, fun hc => ?_⟩
  · simp only [KThread.expected, hc, Option.getD_some] at hsp hip hreg
    exact ⟨hsp, hip, hreg .rbx (by decide), hreg .rbp (by decide), hreg .r12 (by decide),
      hreg .r13 (by decide), hreg .r14 (by decide), hreg .r15 (by decide)⟩
  · simp only [KThread.expected, hc, Option.getD_none, freshSnapshot] at hsp hip hreg
    refine ⟨hip, ?_, ?_, ?_, ?_, ?_, ?_⟩
    · exact (hreg .r15 (by decide)).trans (by simp)
    · exact (hreg .r14 (by decide)).trans (by simp)
    · exact (hreg .rbx (by decide)).trans (by simp)
    · exact (hreg .rbp (by decide)).trans (by simp)
    · exact (hreg .r12 (by decide)).trans (by simp)
    · exact (hreg .r13 (by decide)).trans (by simp)

/-- A thread created by the running one is entered at the trampoline. -/
theorem thread_switch_first : ∃ s, SwitchRun 0x9000 0x9100 s ∧ s.current = 0x1000 ∧
    (threadSwitch 0x1000 0x2000 0x9100 0x9200 s.cpu).rip = 0x9000 ∧
    (threadSwitch 0x1000 0x2000 0x9100 0x9200 s.cpu).reg .r15 = 0x5000 ∧
    (threadSwitch 0x1000 0x2000 0x9100 0x9200 s.cpu).reg .r14 = 7 := by
  let main : KThread := ⟨0x10000, 0x1000, 0, 0, none⟩
  let s0 : SwitchState :=
    { cpu := ⟨fun _ => 0x10800, 0, 0, fun _ => 0⟩
      rsp0 := 0
      current := 0x1000
      threads := Function.update (fun _ => none) 0x1000 (some main) }
  have hinit : SwitchRun 0x9000 0x9100 s0 := by
    refine .init ⟨main, rfl, fun x hx => ?_⟩
    simp only [InSlot, savedStateRsp, KThread.InStack, s0, main] at hx
    bv_omega
  have hrun := hinit.step (.create 0x2000 0x20000 0x5000 7 rfl (fun x hx => by
      simp only [InSlot, savedStateRsp, KThread.InStack, createdThread, kstackSize] at hx
      bv_omega) fun t' k' ht' x => by
      simp only [s0, Function.update_apply] at ht'
      split_ifs at ht' with hc
      obtain rfl := Option.some.inj ht'
      simp only [InSlot, savedStateRsp, KThread.InStack, createdThread, kstackSize, main, hc]
      refine ⟨?_, ?_, ?_, ?_⟩ <;> bv_omega)
  refine ⟨_, hrun, rfl, ?_⟩
  have h := (thread_switch_transparent 0x9000 0x9100 _ hrun main (createdThread 0x20000 0x5000 7)
    0x2000 0x9200 (by decide) rfl rfl (by
      rintro x ⟨i, hi, hx⟩
      simp only [callSnapshot, below, KThread.InStack, main, s0] at hx ⊢
      bv_omega)).2 rfl
  exact ⟨h.1, h.2.1, h.2.2.1⟩

end Dana
