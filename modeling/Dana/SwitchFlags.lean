import Dana.Thread
import Dana.Transition

/-! The interrupt-enable flag across context switches: threads that switch by
`thread_yield`, by a receive that blocks, or from the timer interrupt of
hal/x86_64/idt.c, with the scheduler that picks who is next. -/
namespace Dana
open ByteMem X86 Transition

/-- `struct idt_entry`, its reserved quarter apart. -/
structure IdtEntry where
  offsetLo : BitVec 16
  selector : BitVec 16
  ist : BitVec 8
  typeAttr : BitVec 8
  offsetMid : BitVec 16
  offsetHi : BitVec 32

def gdtKernelCode : BitVec 16 := 0x08

def gateInt : BitVec 8 := 0x8e

def idtSet (handler : Word) (typeAttr : BitVec 8) : IdtEntry where
  offsetLo := handler.extractLsb' 0 16
  selector := gdtKernelCode
  ist := 0
  typeAttr := typeAttr
  offsetMid := handler.extractLsb' 16 16
  offsetHi := handler.extractLsb' 32 32

/-- The address that the CPU puts together from a descriptor. -/
def IdtEntry.offset (g : IdtEntry) : Word := g.offsetHi ++ g.offsetMid ++ g.offsetLo

theorem idtSet_offset (handler : Word) (typeAttr : BitVec 8) :
    (idtSet handler typeAttr).offset = handler := by
  ext i
  simp only [IdtEntry.offset, idtSet]
  grind

/-- The flags that delivery through a descriptor clears: TF, NT and RF, and for an
interrupt gate (not for a trap gate) the interrupt-enable flag. -/
def IdtEntry.clears (g : IdtEntry) : Word :=
  if g.typeAttr &&& 0xf = 0xe then 0x14100 ||| interruptFlag else 0x14100

/-- What the CPU pushes for an interrupt: `struct interrupt_frame`, last field first. -/
def interruptFrame (cs ss : Word) (s : State) : List Word :=
  [ss, s.reg .rsp, s.rflags, cs, s.rip]

/-- Delivery of an interrupt, its frame going below `sp`. -/
def IdtEntry.deliver (g : IdtEntry) (sp cs ss : Word) (s : State) : State where
  reg := Function.update s.reg .rsp (pushAll (interruptFrame cs ss s) (s.mem, sp)).2
  rip := g.offset
  rflags := s.rflags &&& ~~~g.clears
  mem := (pushAll (interruptFrame cs ss s) (s.mem, sp)).1

/-- The interrupt-enable flag as it stands in `rflags`. -/
def interrupts (s : State) : Word := s.rflags &&& interruptFlag

/-- How a thread came to call `thread_switch`. -/
inductive SwitchEntry
  | yield | receive | timer
  deriving DecidableEq

/-- Called directly, not from the timer interrupt. -/
def SwitchEntry.direct : SwitchEntry → Bool
  | .yield | .receive => true
  | .timer => false

/-- `irq_0`, its tick count apart. -/
def irq0 (s : Sched) : Option (Word × Word) × Sched := threadYield s

/-- The scheduler's part of each entry, up to its call of `thread_switch`, if any. -/
def SwitchEntry.dispatch : SwitchEntry → Sched → Option (Word × Word) × Sched
  | .yield, s => threadYield s
  | .receive, s => schedRun (schedBlock s s.cpuCurrentThread)
  | .timer, s => irq0 s

structure SwitchCall where
  entry : SwitchEntry
  next : Word
  cpu : State

def SwitchCall.snapshot (c : SwitchCall) : Snapshot := callSnapshot c.next c.cpu

/-- The return of a thread's call, with the entry of the switch that resumed it. -/
structure SwitchReturn where
  thread : Word
  call : SwitchCall
  resumedBy : SwitchEntry
  cpu : State

/-- The machine, the run queue, each thread's last call of `thread_switch`, and the
calls that have returned. -/
structure SwitchWorld where
  machine : SwitchState
  sched : Sched
  lastCall : Word → Option SwitchCall
  returned : List SwitchReturn

/-- The memory of every thread but the current one is as before. -/
def SwitchState.KeepsOthers (s : SwitchState) (m : Mem) : Prop :=
  ∀ t k, s.threads t = some k → t ≠ s.current → ∀ x, k.InStack x ∨ InSlot t x → m x = s.cpu.mem x

/-- Where the frame of an interrupt goes: in user mode below `rsp0`, else below the
stack pointer, on a multiple of 16. -/
def SwitchState.interruptStack (s : SwitchState) (user : Bool) : Word :=
  (if user then s.rsp0 else s.cpu.reg .rsp) &&& ~~~0xf

/-- `cpu` is what the current thread `k` has at the call of `thread_switch`. A direct
entry calls with interrupts enabled. The timer interrupt comes when they are enabled,
and nothing in `irq_0` up to the call changes the flag. -/
def SwitchEntry.Reaches (irq0Handler : Word) (s : SwitchState) (k : KThread) (cpu : State) :
    SwitchEntry → Prop
  | .yield | .receive => cpu = s.cpu ∧ interrupts cpu = interruptFlag
  | .timer => interrupts s.cpu = interruptFlag ∧ ∃ user cs ss,
    let sp := s.interruptStack user
    let entered := { s with cpu := (idtSet irq0Handler gateInt).deliver sp cs ss s.cpu }
    (∀ x, (∃ i < 5, x-below sp (i+1) < 8) → k.InStack x) ∧
    interrupts cpu = interrupts entered.cpu ∧ entered.KeepsOthers cpu.mem

/-- `thread_switch(current, new)`, called by the entry `e` in the state `cpu`. -/
def SwitchWorld.switch (w : SwitchWorld) (switchContext : Word) (k k' : KThread) (new : Word)
    (c : SwitchCall) (sched : Sched) : SwitchWorld :=
  let cpu := threadSwitch w.machine.current new switchContext c.next c.cpu
  { machine :=
      { cpu := cpu
        rsp0 := k'.stackLo+k'.stackLen
        current := new
        threads := Function.update w.machine.threads w.machine.current
          (some { k with call := some c.snapshot }) }
    sched := sched
    lastCall := Function.update w.lastCall w.machine.current (some c)
    returned := w.returned ++ ((w.lastCall new).map fun p => ⟨new, p, c.entry, cpu⟩).toList }

inductive SwitchOp
  | code
  | create (t : Word)
  | block (t : Word)
  | unblock (t : Word)
  | switch (e : SwitchEntry)

inductive SwitchWorldStep (threadTrampoline switchContext irq0Handler : Word) :
    SwitchWorld → SwitchOp → SwitchWorld → Prop
  /-- Code between switches: any registers and flags. -/
  | code {w : SwitchWorld} (cpu : State) (hmem : w.machine.KeepsOthers cpu.mem) :
      SwitchWorldStep threadTrampoline switchContext irq0Handler w .code
        { w with machine := { w.machine with cpu := cpu } }
  | create {w : SwitchWorld} (t stackLo entry arg : Word) (v : Thread)
      (ht : w.machine.threads t = none)
      (hown : ∀ x, ¬ (InSlot t x ∧ (createdThread stackLo entry arg).InStack x))
      (hdisj : ∀ t' k', w.machine.threads t' = some k' →
        Disjoint t (createdThread stackLo entry arg) t' k')
      (hv : v.state = .runnable ∧ v.next = threadNull ∧ v.prev = threadNull) :
      SwitchWorldStep threadTrampoline switchContext irq0Handler w (.create t)
        (let init := threadInitStack w.machine.cpu.mem (stackLo+kstackSize) threadTrampoline entry arg
        { w with
          machine := { w.machine with
            cpu := { w.machine.cpu with mem := store64 init.1 (t+savedStateRsp) init.2 }
            threads := Function.update w.machine.threads t
              (some (createdThread stackLo entry arg)) }
          sched := (schedEnqueue { w.sched with
            threads := Function.update w.sched.threads t v } t).2 })
  | block {w : SwitchWorld} (t : Word) :
      SwitchWorldStep threadTrampoline switchContext irq0Handler w (.block t)
        { w with sched := schedBlock w.sched t }
  | unblock {w : SwitchWorld} (t : Word) :
      SwitchWorldStep threadTrampoline switchContext irq0Handler w (.unblock t)
        { w with sched := schedUnblock w.sched t }
  | switch {w : SwitchWorld} {k k' : KThread} {sched : Sched} {new : Word} (c : SwitchCall)
      (hd : c.entry.dispatch w.sched = (some (w.machine.current, new), sched))
      (hk : w.machine.threads w.machine.current = some k) (hk' : w.machine.threads new = some k')
      (hc : c.entry.Reaches irq0Handler w.machine k c.cpu)
      (hroom : ∀ x, c.snapshot.InFrame x → k.InStack x) :
      SwitchWorldStep threadTrampoline switchContext irq0Handler w (.switch c.entry)
        (w.switch switchContext k k' new c sched)

/-- The system has booted: one thread, current, that has not called `thread_switch`. -/
structure SwitchWorld.Boot (w : SwitchWorld) : Prop where
  init : SwitchInit w.machine
  current : w.sched.cpuCurrentThread = w.machine.current
  calls : ∀ t, (w.machine.threads t).bind KThread.call = none
  lastCall : ∀ t, w.lastCall t = none
  returned : w.returned = []

/-- The interrupt-enable flag that an entry calls `thread_switch` with. -/
def SwitchEntry.flag (e : SwitchEntry) : Word := if e.direct then interruptFlag else 0

theorem SwitchEntry.flag_eq_iff (e e' : SwitchEntry) : e.flag = e'.flag ↔ e.direct = e'.direct := by
  unfold SwitchEntry.flag
  cases e.direct <;> cases e'.direct <;> decide

/-- Delivery through an interrupt gate turns interrupts off. -/
theorem deliver_interrupts (irq0Handler sp cs ss : Word) (s : State) :
    interrupts ((idtSet irq0Handler gateInt).deliver sp cs ss s) = 0 := by
  have htype : gateInt &&& 0xf = 0xe := by decide
  have hclears : (idtSet irq0Handler gateInt).clears = 0x14300 := if_pos htype
  have hoff : ~~~(0x14300 : Word) &&& interruptFlag = 0 := by decide
  simp only [interrupts, IdtEntry.deliver, hclears]
  rw [BitVec.and_assoc, hoff]
  exact BitVec.and_zero

/-- The flag at a call of `thread_switch` is that of its entry. -/
theorem SwitchEntry.Reaches.flag {irq0Handler : Word} {s : SwitchState} {k : KThread}
    {cpu : State} {e : SwitchEntry} (h : e.Reaches irq0Handler s k cpu) :
    interrupts cpu = e.flag := by
  cases e with
  | yield => exact h.2
  | receive => exact h.2
  | timer =>
    obtain ⟨_, user, cs, ss, _, hflag, _⟩ := h
    rw [hflag, deliver_interrupts]
    rfl

/-- On its way to `thread_switch` an entry stores nothing that another thread owns. -/
theorem SwitchEntry.Reaches.keepsOthers {trampoline irq0Handler : Word} {s : SwitchState}
    {k : KThread} {cpu : State} {e : SwitchEntry} (h : e.Reaches irq0Handler s k cpu)
    (hI : SwitchInv trampoline s) (hk : s.threads s.current = some k) :
    s.KeepsOthers cpu.mem := by
  cases e with
  | yield => exact fun _ _ _ _ _ _ => by rw [h.1]
  | receive => exact fun _ _ _ _ _ _ => by rw [h.1]
  | timer =>
    obtain ⟨_, user, cs, ss, hroom, _, hkeeps⟩ := h
    intro t k' ht hne x hx
    rw [hkeeps t k' ht hne x hx]
    -- The interrupt frame lies on the current stack.
    apply (hI.disjoint _ _ _ _ hk ht (Ne.symm hne)).outside ?_ x hx
    intro x hs _
    apply pushAll_byte (interruptFrame cs ss s.cpu) s.cpu.mem (s.interruptStack user) x
    exact fun i hi hin => hs (hroom x ⟨i, hi, hin⟩)

/-- Code that stores nothing another thread owns keeps every suspended frame. -/
theorem SwitchInv.code {trampoline : Word} {s : SwitchState} (hI : SwitchInv trampoline s)
    {cpu : State} (hmem : s.KeepsOthers cpu.mem) : SwitchInv trampoline { s with cpu := cpu } := by
  refine ⟨hI.current, hI.own, hI.disjoint, fun t k ht hne => ?_⟩
  exact hI.frame_congr cpu.mem t k ht hne (hmem t k ht hne)

theorem SwitchEntry.dispatch_pair {e : SwitchEntry} {s s' : Sched} {old new : Word}
    (h : e.dispatch s = (some (old, new), s')) :
    old = s.cpuCurrentThread ∧ new ≠ old ∧ s'.cpuCurrentThread = new := by
  cases e with
  | yield => exact schedRun_pair ((threadYield_eq s).symm.trans h)
  | receive =>
    have hb := schedRun_pair h
    rwa [schedBlock_current] at hb
  | timer => exact schedRun_pair ((threadYield_eq s).symm.trans h)

/-- The return brings back the stack, the return address and the registers of its call;
the flag is that of the entry that made the switch. -/
structure SwitchReturn.Resumes (r : SwitchReturn) : Prop where
  snapshot : r.call.snapshot.Matches r.cpu
  called : interrupts r.call.cpu = r.call.entry.flag
  resumed : interrupts r.cpu = r.resumedBy.flag

structure SwitchWorldInv (threadTrampoline : Word) (w : SwitchWorld) : Prop where
  machine : SwitchInv threadTrampoline w.machine
  current : w.sched.cpuCurrentThread = w.machine.current
  calls : ∀ t, (w.machine.threads t).bind KThread.call = (w.lastCall t).map SwitchCall.snapshot
  flag : ∀ t c, w.lastCall t = some c → interrupts c.cpu = c.entry.flag
  returned : ∀ r ∈ w.returned, r.Resumes

theorem SwitchWorld.Boot.inv {trampoline : Word} {w : SwitchWorld} (h : w.Boot) :
    SwitchWorldInv trampoline w where
  machine := h.init.inv
  current := h.current
  calls t := by rw [h.calls, h.lastCall, Option.map_none]
  flag t c hc := by simp [h.lastCall] at hc
  returned r hr := by simp [h.returned] at hr

/-- One switch: the thread that is resumed gets the flag of this switch's entry. -/
theorem SwitchWorldInv.switch {trampoline switchContext irq0Handler : Word} {w : SwitchWorld}
    (hI : SwitchWorldInv trampoline w) {k k' : KThread} {sched : Sched} {new : Word}
    (c : SwitchCall) (hd : c.entry.dispatch w.sched = (some (w.machine.current, new), sched))
    (hk : w.machine.threads w.machine.current = some k) (hk' : w.machine.threads new = some k')
    (hc : c.entry.Reaches irq0Handler w.machine k c.cpu)
    (hroom : ∀ x, c.snapshot.InFrame x → k.InStack x) :
    SwitchWorldInv trampoline (w.switch switchContext k k' new c sched) := by
  obtain ⟨_, hne, hcur⟩ := SwitchEntry.dispatch_pair hd
  have hcode := hI.machine.code (hc.keepsOthers hI.machine hk)
  obtain ⟨hmatch, _⟩ := hcode.switch_matches switchContext new c.next k k' hne hk hk' hroom
  refine ⟨hcode.step (.switch new c.next hne hk hk' hroom), hcur, fun t => ?_, fun t c' ht => ?_,
    fun r hr => ?_⟩
  · simp only [SwitchWorld.switch, Function.update_apply]
    split_ifs with h
    · rfl
    · exact hI.calls t
  · simp only [SwitchWorld.switch, Function.update_apply] at ht
    split_ifs at ht with h
    · obtain rfl := Option.some.inj ht
      exact hc.flag
    · exact hI.flag t c' ht
  · simp only [SwitchWorld.switch, List.mem_append, Option.mem_toList, Option.map_eq_some_iff] at hr
    rcases hr with hr | ⟨p, hp, rfl⟩
    · exact hI.returned r hr
    · have hcall : k'.call = some p.snapshot := by
        have h := hI.calls new
        rwa [hk', hp] at h
      refine ⟨?_, hI.flag new p hp, hc.flag⟩
      rw [KThread.expected, hcall] at hmatch
      exact hmatch

theorem SwitchWorldInv.step {trampoline switchContext irq0Handler : Word} {w w' : SwitchWorld}
    {op : SwitchOp} (hI : SwitchWorldInv trampoline w)
    (hs : SwitchWorldStep trampoline switchContext irq0Handler w op w') :
    SwitchWorldInv trampoline w' := by
  cases hs with
  | code cpu hmem => exact ⟨hI.machine.code hmem, hI.current, hI.calls, hI.flag, hI.returned⟩
  | create t stackLo entry arg v ht hown hdisj hv =>
    have hcreate : SwitchStep trampoline switchContext w.machine _ :=
      .create t stackLo entry arg ht hown hdisj
    refine ⟨hI.machine.step hcreate, ?_, fun t' => ?_, hI.flag, hI.returned⟩
    · exact (schedEnqueue_current _ t).trans hI.current
    · simp only [Function.update_apply]
      split_ifs with h
      · -- A thread that did not exist has made no call.
        rw [h, ← hI.calls t, ht]
        rfl
      · exact hI.calls t'
  | block t =>
    exact ⟨hI.machine, (schedBlock_current _ t).trans hI.current, hI.calls, hI.flag, hI.returned⟩
  | unblock t =>
    exact ⟨hI.machine, (schedUnblock_current _ t).trans hI.current, hI.calls, hI.flag, hI.returned⟩
  | switch c hd hk hk' hc hroom => exact hI.switch c hd hk hk' hc hroom

theorem switch_run_inv {trampoline switchContext irq0Handler : Word} {w w' : SwitchWorld}
    {ops : List SwitchOp} (hb : w.Boot)
    (hr : Run (SwitchWorldStep trampoline switchContext irq0Handler) w ops w') :
    SwitchWorldInv trampoline w' :=
  hr.inv (fun _ _ _ hs hI => hI.step hs) hb.inv

/-- The start of `thread_trampoline`: `sti` and `mov rdi, r14`, before it calls `r15`. -/
def trampolineStart (s : State) : State :=
  exec (.mov .rdi .r14) { s with rflags := s.rflags ||| interruptFlag }

/-- A thread that has made no call starts with interrupts enabled, whichever entry
switched to it. -/
theorem SwitchWorldInv.first_switch {trampoline irq0Handler : Word} {w : SwitchWorld}
    (hI : SwitchWorldInv trampoline w) {k k' : KThread} {sched : Sched} {new : Word}
    (switchContext : Word) (c : SwitchCall)
    (hd : c.entry.dispatch w.sched = (some (w.machine.current, new), sched))
    (hk : w.machine.threads w.machine.current = some k) (hk' : w.machine.threads new = some k')
    (hc : c.entry.Reaches irq0Handler w.machine k c.cpu)
    (hroom : ∀ x, c.snapshot.InFrame x → k.InStack x) (hnew : w.lastCall new = none) :
    let cpu := threadSwitch w.machine.current new switchContext c.next c.cpu
    cpu.rip = trampoline ∧ interrupts (trampolineStart cpu) = interruptFlag ∧
    (trampolineStart cpu).reg .rdi = k'.arg ∧ (trampolineStart cpu).reg .r15 = k'.entry := by
  intro cpu
  obtain ⟨_, hne, _⟩ := SwitchEntry.dispatch_pair hd
  have hcode := hI.machine.code (hc.keepsOthers hI.machine hk)
  obtain ⟨⟨_, hrip, hreg⟩, _⟩ :=
    hcode.switch_matches switchContext new c.next k k' hne hk hk' hroom
  have hcall : k'.call = none := by
    have h := hI.calls new
    rwa [hk', hnew] at h
  rw [KThread.expected, hcall] at hrip hreg
  have h14 : cpu.reg .r14 = k'.arg := hreg .r14 (by decide)
  have h15 : cpu.reg .r15 = k'.entry := hreg .r15 (by decide)
  refine ⟨hrip, ?_, ?_, ?_⟩
  · change (cpu.rflags ||| interruptFlag) &&& interruptFlag = interruptFlag
    grind
  · simp only [trampolineStart, exec, set_self, h14]
  · simp only [trampolineStart, exec]
    rw [set_of_ne _ _ _ _ (by decide), h15]

/-- In every run, a call of `thread_switch` returns to its caller, on its stack and with
its registers, and the interrupt-enable flag is as it was at the call if and only if both
switches, the one away and the one back, were direct or both came from the timer. -/
theorem thread_switch_interrupts {trampoline switchContext irq0Handler : Word}
    {w w' : SwitchWorld} {ops : List SwitchOp} (hb : w.Boot)
    (hr : Run (SwitchWorldStep trampoline switchContext irq0Handler) w ops w')
    (r : SwitchReturn) (hret : r ∈ w'.returned) :
    r.call.snapshot.Matches r.cpu ∧
    (interrupts r.cpu = interrupts r.call.cpu ↔ r.resumedBy.direct = r.call.entry.direct) := by
  obtain ⟨hmatch, hcalled, hresumed⟩ := (switch_run_inv hb hr).returned r hret
  refine ⟨hmatch, ?_⟩
  rw [hcalled, hresumed]
  exact SwitchEntry.flag_eq_iff _ _

/-- The twelve quadwords below `sp`, an interrupt frame and a switch frame, are on the
stack of `k`. -/
structure KThread.Room (k : KThread) (sp : Word) : Prop where
  aligned : sp &&& ~~~0xf = sp
  fits : ∀ i < 12, ∀ x, x-below sp (i+1) < 8 → k.InStack x

/-- A thread that runs with interrupts enabled and has room can come to call
`thread_switch` by every entry. -/
theorem SwitchEntry.exists_reaches (irq0Handler : Word) {s : SwitchState} {k : KThread} {sp : Word}
    (hsp : s.cpu.reg .rsp = sp) (hroom : k.Room sp) (hflag : interrupts s.cpu = interruptFlag)
    (e : SwitchEntry) : ∃ cpu, e.Reaches irq0Handler s k cpu ∧
      ∀ next x, (callSnapshot next cpu).InFrame x → k.InStack x := by
  have hdirect (next x : Word) (hx : (callSnapshot next s.cpu).InFrame x) : k.InStack x := by
    obtain ⟨i, hi, hx⟩ := hx
    rw [callSnapshot, hsp] at hx
    exact hroom.fits i (by omega) x hx
  cases e with
  | yield => exact ⟨s.cpu, ⟨rfl, hflag⟩, hdirect⟩
  | receive => exact ⟨s.cpu, ⟨rfl, hflag⟩, hdirect⟩
  | timer =>
    have hstack : s.interruptStack false = sp := by
      rw [SwitchState.interruptStack, if_neg (by decide), hsp]
      exact hroom.aligned
    refine ⟨(idtSet irq0Handler gateInt).deliver sp 0 0 s.cpu, ⟨hflag, false, 0, 0, ?_⟩, ?_⟩
    · rw [hstack]
      refine ⟨fun x hx => ?_, rfl, fun _ _ _ _ _ _ => rfl⟩
      obtain ⟨i, hi, hx⟩ := hx
      exact hroom.fits i (by omega) x hx
    · intro next x hx
      obtain ⟨i, hi, hx⟩ := hx
      have hrsp : ((idtSet irq0Handler gateInt).deliver sp 0 0 s.cpu).reg .rsp = below sp 5 := by
        simp only [IdtEntry.deliver, Function.update_self, pushAll_sp]
        rfl
      rw [callSnapshot, hrsp, below_below] at hx
      exact hroom.fits (5+i) (by omega) x hx

/-- A run can go on with a switch to the thread that the scheduler picks. -/
theorem SwitchWorld.extend {trampoline switchContext irq0Handler : Word} {w w' : SwitchWorld}
    {ops : List SwitchOp} (hr : Run (SwitchWorldStep trampoline switchContext irq0Handler) w ops w')
    {k k' : KThread} {sched : Sched} {new sp : Word} (e : SwitchEntry)
    (hd : e.dispatch w'.sched = (some (w'.machine.current, new), sched))
    (hk : w'.machine.threads w'.machine.current = some k)
    (hk' : w'.machine.threads new = some k') (hroom : k.Room sp) :
    ∃ c w'', Run (SwitchWorldStep trampoline switchContext irq0Handler) w
      (ops ++ [.code] ++ [.switch e]) w'' ∧ c.entry = e ∧ w''.machine.current = new ∧
      w''.machine.threads = Function.update w'.machine.threads w'.machine.current
        (some { k with call := some c.snapshot }) ∧
      w''.sched = sched ∧
      w''.lastCall = Function.update w'.lastCall w'.machine.current (some c) ∧
      w''.returned = w'.returned ++
        ((w'.lastCall new).map fun p => ⟨new, p, e, w''.machine.cpu⟩).toList := by
  obtain ⟨cpu, hcpu⟩ : ∃ cpu : State, cpu = ⟨fun _ => sp, 0, interruptFlag, w'.machine.cpu.mem⟩ :=
    ⟨_, rfl⟩
  have hsp : cpu.reg .rsp = sp := by rw [hcpu]
  have hflag : interrupts cpu = interruptFlag := by
    simp only [hcpu, interrupts, BitVec.and_self]
  have hcode := hr.snoc (.code cpu fun _ _ _ _ _ _ => by rw [hcpu])
  obtain ⟨called, hreach, hframe⟩ := SwitchEntry.exists_reaches irq0Handler
    (s := { w'.machine with cpu := cpu }) hsp hroom hflag e
  exact ⟨⟨e, 0, called⟩, _, hcode.snoc (.switch ⟨e, 0, called⟩ hd hk hk' hreach (hframe 0)),
    rfl, rfl, rfl, rfl, rfl, rfl⟩

/-- The middle of a fresh stack has room on both sides. -/
theorem createdThread_room (stackLo entry arg : Word)
    (ha : (stackLo+0x800) &&& ~~~0xf = stackLo+0x800) :
    (createdThread stackLo entry arg).Room (stackLo+0x800) := by
  refine ⟨ha, fun i hi x hx => ?_⟩
  simp only [createdThread, KThread.InStack, below, kstackSize] at hx ⊢
  bv_omega

/-- The machine after boot: the idle thread alone, queued and running. -/
def idleWorld : SwitchWorld where
  machine :=
    { cpu := ⟨fun _ => 0x10800, 0, 0, fun _ => 0⟩
      rsp0 := 0
      current := 0x1000
      threads := Function.update (fun _ => none) 0x1000 (some (createdThread 0x10000 0 0)) }
  sched := schedSetState (schedEnqueue ⟨⟨threadNull, threadNull, 0⟩, fun _ => Thread.zero,
    0x1000, 0x1000⟩ 0x1000).2 0x1000 .running
  lastCall _ := none
  returned := []

theorem idleWorld_boot : idleWorld.Boot where
  init := by
    refine ⟨createdThread 0x10000 0 0, rfl, fun x hx => ?_⟩
    simp only [InSlot, savedStateRsp, KThread.InStack, idleWorld, createdThread, kstackSize] at hx
    bv_omega
  current := rfl
  calls t := by
    simp only [idleWorld, Function.update_apply]
    split_ifs <;> rfl
  lastCall _ := rfl
  returned := rfl

/-- The run queue when `thread_create` has added `t`. -/
def madeSched (s : Sched) (t : Word) : Sched :=
  (schedEnqueue { s with threads := Function.update s.threads t Thread.zero } t).2

/-- With two threads made, a receive that blocks, a yield and a yield go through them. -/
theorem idleWorld_picks : ∃ s1 s2 s3,
    SwitchEntry.receive.dispatch (madeSched (madeSched idleWorld.sched 0x2000) 0x3000) =
      (some (0x1000, 0x2000), s1) ∧
    threadYield s1 = (some (0x2000, 0x3000), s2) ∧
    threadYield s2 = (some (0x3000, 0x2000), s3) := by
  have h : let r := SwitchEntry.receive.dispatch (madeSched (madeSched idleWorld.sched 0x2000) 0x3000)
      r.1 = some (0x1000, 0x2000) ∧ (threadYield r.2).1 = some (0x2000, 0x3000) ∧
      (threadYield (threadYield r.2).2).1 = some (0x3000, 0x2000) := by
    decide
  exact ⟨_, _, _, Prod.ext h.1 rfl, Prod.ext h.2.1 rfl, Prod.ext h.2.2 rfl⟩

/-- The idle thread makes two threads, each with its own stack. -/
theorem idleWorld_made : ∃ w, Run (SwitchWorldStep 0x9000 0x9100 0x9200) idleWorld
    [.create 0x2000, .create 0x3000] w ∧ w.machine.current = 0x1000 ∧
    w.machine.threads 0x1000 = some (createdThread 0x10000 0 0) ∧
    w.machine.threads 0x2000 = some (createdThread 0x20000 0x5000 0) ∧
    w.machine.threads 0x3000 = some (createdThread 0x30000 0x5000 0) ∧
    w.sched = madeSched (madeSched idleWorld.sched 0x2000) 0x3000 ∧
    (∀ t, w.lastCall t = none) ∧ w.returned = [] := by
  have hown (t stackLo : Word) (h : stackLo = 0x20000 ∧ t = 0x2000 ∨ stackLo = 0x30000 ∧ t = 0x3000)
      (x : Word) : ¬ (InSlot t x ∧ (createdThread stackLo 0x5000 0).InStack x) := by
    simp only [InSlot, savedStateRsp, KThread.InStack, createdThread, kstackSize]
    rcases h with ⟨rfl, rfl⟩ | ⟨rfl, rfl⟩ <;> bv_omega
  have h1 := (@Run.start SwitchWorld SwitchOp (SwitchWorldStep 0x9000 0x9100 0x9200) idleWorld).snoc
    (.create 0x2000 0x20000 0x5000 0 Thread.zero rfl (hown _ _ (Or.inl ⟨rfl, rfl⟩))
      (fun t' k' ht' x => by
        simp only [idleWorld, Function.update_apply] at ht'
        split_ifs at ht' with hc
        obtain rfl := Option.some.inj ht'
        simp only [InSlot, savedStateRsp, KThread.InStack, createdThread, kstackSize, hc]
        refine ⟨?_, ?_, ?_, ?_⟩ <;> bv_omega) ⟨rfl, rfl, rfl⟩)
  have h2 := h1.snoc
    (.create 0x3000 0x30000 0x5000 0 Thread.zero rfl (hown _ _ (Or.inr ⟨rfl, rfl⟩))
      (fun t' k' ht' x => by
        simp only [idleWorld, Function.update_apply] at ht'
        split_ifs at ht' with hc hc'
        all_goals
          obtain rfl := Option.some.inj ht'
          simp only [InSlot, savedStateRsp, KThread.InStack, createdThread, kstackSize, *]
          refine ⟨?_, ?_, ?_, ?_⟩ <;> bv_omega) ⟨rfl, rfl, rfl⟩)
  exact ⟨_, h2, rfl, rfl, rfl, rfl, rfl, fun _ => rfl, rfl⟩

/-- The idle thread blocks in a receive, the first thread switches away by `e`, and the
second back to it by `e'`. -/
theorem idleWorld_switches (e e' : SwitchEntry) (he : e ≠ .receive) (he' : e' ≠ .receive) :
    ∃ w r, Run (SwitchWorldStep 0x9000 0x9100 0x9200) idleWorld [.create 0x2000, .create 0x3000,
      .code, .switch .receive, .code, .switch e, .code, .switch e'] w ∧
      w.returned = [r] ∧ r.thread = 0x2000 ∧ r.call.entry = e ∧ r.resumedBy = e' := by
  have hyield (e : SwitchEntry) (he : e ≠ .receive) (s : Sched) : e.dispatch s = threadYield s := by
    cases e with
    | yield => rfl
    | receive => exact absurd rfl he
    | timer => rfl
  obtain ⟨s1, s2, s3, hp1, hp2, hp3⟩ := idleWorld_picks
  obtain ⟨w1, hr1, hcur1, hidle1, ha1, hb1, hs1, hl1, hret1⟩ := idleWorld_made
  rw [← hs1, ← hcur1] at hp1
  obtain ⟨c1, w2, hr2, _, hcur2, hth2, hs2, hl2, hret2⟩ := SwitchWorld.extend hr1 .receive hp1
    (hcur1 ▸ hidle1) ha1 (createdThread_room 0x10000 0 0 (by decide))
  have hkept (t : Word) (ht : t ≠ 0x1000) : w2.machine.threads t = w1.machine.threads t := by
    rw [hth2, hcur1, Function.update_of_ne ht]
  rw [← hs2, ← hyield e he, ← hcur2] at hp2
  have ha2 := (hkept 0x2000 (by decide)).trans ha1
  have hb2 := (hkept 0x3000 (by decide)).trans hb1
  obtain ⟨c2, w3, hr3, he2, hcur3, hth3, hs3, hl3, hret3⟩ := SwitchWorld.extend hr2 e hp2
    (hcur2 ▸ ha2) hb2 (createdThread_room 0x20000 0x5000 0 (by decide))
  rw [← hs3, ← hyield e' he', ← hcur3] at hp3
  have ha3 : w3.machine.threads 0x2000 =
      some { createdThread 0x20000 0x5000 0 with call := some c2.snapshot } := by
    rw [hth3, hcur2, Function.update_self]
  have hb3 : w3.machine.threads 0x3000 = some (createdThread 0x30000 0x5000 0) := by
    rw [hth3, hcur2, Function.update_of_ne (by decide), hb2]
  obtain ⟨c3, w4, hr4, _, _, _, _, _, hret4⟩ := SwitchWorld.extend hr3 e' hp3
    (hcur3 ▸ hb3) ha3 (createdThread_room 0x30000 0x5000 0 (by decide))
  -- The second thread is new when the first switches to it: only the last switch returns.
  have hlast : w3.lastCall 0x2000 = some c2 := by rw [hl3, hcur2, Function.update_self]
  have hnew : w2.lastCall 0x3000 = none := by
    rw [hl2, hcur1, Function.update_of_ne (by decide), hl1]
  refine ⟨w4, ⟨0x2000, c2, e', w4.machine.cpu⟩, hr4, ?_, rfl, he2, rfl⟩
  rw [hret4, hret3, hret2, hret1, hl1, hnew, hlast]
  rfl

/-- Two threads that are both switched by the timer keep the flag. -/
theorem thread_switch_interrupts_timer : ∃ w ops w' r, SwitchWorld.Boot w ∧
    Run (SwitchWorldStep 0x9000 0x9100 0x9200) w ops w' ∧ r ∈ w'.returned ∧
    r.call.snapshot.Matches r.cpu ∧ r.call.entry = .timer ∧
    (interrupts r.cpu = interrupts r.call.cpu ↔ r.resumedBy.direct = r.call.entry.direct) := by
  obtain ⟨w, r, hr, hret, _, he, _⟩ := idleWorld_switches .timer .timer (by decide) (by decide)
  have hmem : r ∈ w.returned := by rw [hret]; exact List.mem_singleton_self r
  obtain ⟨hmatch, hflag⟩ := thread_switch_interrupts idleWorld_boot hr r hmem
  exact ⟨idleWorld, _, w, r, idleWorld_boot, hr, hmem, hmatch, he, hflag⟩

/-- The idle thread waits for a message, the first thread yields with interrupts enabled,
and the timer takes the CPU from the second: `thread_yield` returns with them disabled. -/
theorem thread_yield_loses_interrupts : ∃ w r, idleWorld.Boot ∧
    Run (SwitchWorldStep 0x9000 0x9100 0x9200) idleWorld [.create 0x2000, .create 0x3000,
      .code, .switch .receive, .code, .switch .yield, .code, .switch .timer] w ∧
    r ∈ w.returned ∧ r.thread = 0x2000 ∧ r.call.entry = .yield ∧ r.resumedBy = .timer ∧
    interrupts r.call.cpu = interruptFlag ∧ interrupts r.cpu = 0 := by
  obtain ⟨w, r, hr, hret, ht, he, he'⟩ := idleWorld_switches .yield .timer (by decide) (by decide)
  have hmem : r ∈ w.returned := by rw [hret]; exact List.mem_singleton_self r
  obtain ⟨_, hcalled, hresumed⟩ := (switch_run_inv idleWorld_boot hr).returned r hmem
  rw [he] at hcalled
  rw [he'] at hresumed
  exact ⟨w, r, idleWorld_boot, hr, hmem, ht, he, he', hcalled, hresumed⟩

end Dana
