import Dana.IpcMsg
import Dana.Transition

/-! Runs of threads that exchange messages: the current thread makes a call, or resumes
inside one; every other thread waits for the scheduler. -/
namespace Dana
open ByteMem Sched

/-- A thread inside `mach_msg_receive`, switched away from by its `sched_run`. -/
structure Wait where
  port : Word
  msg : Word
  size : Option Word
  deriving DecidableEq

structure IpcWorld where
  ipc : Ipc
  waits : Word → Option Wait

inductive IpcOp
  | yield
  | send (msg size : Word) (kr : KernReturn)
  | receive (msg : Word) (size : Option Word) (r : MsgResult)
  | resume (kr : KernReturn) (size : Option Word)
  | remove (space name : Word)
  | release (port : Word)
  | user

/-- Latest call first, the elements handed out and not taken back. -/
def liveOf : List ZoneEvent → List Word
  | [] => []
  | .alloc e :: l => e :: liveOf l
  | .free e :: l => (liveOf l).erase e

namespace IpcWorld

def sched (w : IpcWorld) : Sched := w.ipc.kern.sched

def current (w : IpcWorld) : Word := w.sched.cpuCurrentThread

def port (w : IpcWorld) (p : Word) : IpcPort := w.ipc.ports p

/-- The ports allocated and not returned to their zone. -/
def livePorts (w : IpcWorld) : List Word := liveOf w.ipc.portLog

/-- What a name of the current task resolves to. -/
def lookup (w : IpcWorld) (name : Word) : Option Word :=
  if currentTask w.ipc = taskNull then none
  else (ipcSpaceLookup w.ipc (w.ipc.itkSpace (currentTask w.ipc)) name).2

/-- `t` is blocked inside `mach_msg_receive` on `p`. -/
def BlockedOn (w : IpcWorld) (t p : Word) : Prop :=
  w.sched.state t = .blocked ∧ ∃ wt, w.waits t = some wt ∧ wt.port = p

/-- `t` has been woken inside `mach_msg_receive` on `p` and has not resumed yet. -/
def WokenOn (w : IpcWorld) (t p : Word) : Prop :=
  w.sched.state t ≠ .blocked ∧ ∃ wt, w.waits t = some wt ∧ wt.port = p

end IpcWorld

/-- One step of the machine. A port is released directly by a holder of a live one; the
memory of message buffers changes at any time. -/
inductive IpcStep (h : Hhdm) : IpcWorld → IpcOp → IpcWorld → Prop
  | yield (w : IpcWorld) (hw : w.waits w.current = none) :
    IpcStep h w .yield { w with ipc := { w.ipc with
      kern := { w.ipc.kern with sched := (threadYield w.sched).2 } } }
  | send (w : IpcWorld) {msg size : Word} {kr : KernReturn} {s : Ipc}
    (hw : w.waits w.current = none) (he : machMsgSend h w.ipc msg size = (kr, s)) :
    IpcStep h w (.send msg size kr) { w with ipc := s }
  | receive (w : IpcWorld) {msg : Word} {size size' : Option Word} {kr : KernReturn} {s : Ipc}
    (hw : w.waits w.current = none) (he : machMsgReceive w.ipc msg size = (.done kr size', s)) :
    IpcStep h w (.receive msg size (.done kr size')) { w with ipc := s }
  | block (w : IpcWorld) {msg port : Word} {size : Option Word} {s : Ipc}
    (hw : w.waits w.current = none) (he : machMsgReceive w.ipc msg size = (.blocked port, s)) :
    IpcStep h w (.receive msg size (.blocked port))
      ⟨s, Function.update w.waits w.current (some ⟨port, msg, size⟩)⟩
  | resume (w : IpcWorld) {wt : Wait} {size' : Option Word} {kr : KernReturn} {s : Ipc}
    (hw : w.waits w.current = some wt)
    (he : machMsgReceiveResume w.ipc wt.port wt.msg wt.size = (kr, size', s)) :
    IpcStep h w (.resume kr size') ⟨s, Function.update w.waits w.current none⟩
  | remove (w : IpcWorld) (space name : Word) (hw : w.waits w.current = none) :
    IpcStep h w (.remove space name) { w with ipc := (ipcSpaceRemove w.ipc space name).2 }
  | release (w : IpcWorld) {port : Word} (hw : w.waits w.current = none)
    (hp : port ∈ w.livePorts) :
    IpcStep h w (.release port) { w with ipc := ipcPortRelease w.ipc port }
  | user (w : IpcWorld) (m : Mem) : IpcStep h w .user { w with ipc := { w.ipc with user := m } }

/-- Threads `created` under the scheduler, the idle one of no task; ports that hold nothing
yet, in memory that is in use, with every name of a port that is allocated. -/
structure IpcBoot (h : Hhdm) (w : IpcWorld) (created : List Word) : Prop where
  sched : ∃ qs, SchedInv w.sched created qs
  current : w.current ∈ created ∧ w.sched.state w.current = .running
  idle : w.sched.cpuIdleThread ≠ threadNull ∧
    (w.sched.threads w.sched.cpuIdleThread).task = taskNull
  waits : w.waits = fun _ => none
  empty : ∀ p, (w.port p).waitingThread = 0 ∧ (w.port p).msgCount = 0 ∧
    (w.port p).msgLast = (w.port p).msgFirst ∧ (w.port p).msgFirst.toNat < ipcPortQueueMax
  pageZero : ¬ w.ipc.kern.kmem.pmm.Free 0
  kmsgs : w.ipc.kmsgZone = none ∧ w.ipc.kmsgLog = []
  portZone : ∃ z, w.ipc.portZone = some z ∧ z < w.ipc.kern.zoneStore.zoneCount
  nodup : w.livePorts.Nodup
  portMem : ∀ p ∈ w.livePorts, p ≠ ipcPortNull ∧
    ∀ x, x-p < 8 → ¬ w.ipc.kern.kmem.pmm.Free (frameOf h x)
  names : ∀ space name port, ipcSpaceLookup w.ipc space name = (.success, some port) →
    port ∈ w.livePorts

end Dana
