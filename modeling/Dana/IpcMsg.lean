import Dana.Ipc

/-! `mach_msg_send` and `mach_msg_receive` of kern/ipc_msg.c. A receive that has to block
is cut where `sched_run` switches away, and resumed when its thread runs again. -/
namespace Dana
open ByteMem

def msghRemotePort : Word := 16
def msghLocalPort : Word := 24

/-- `sched_current()->task`. -/
def currentTask (s : Ipc) : Word := (s.kern.sched.threads s.kern.sched.cpuCurrentThread).task

def machMsgSend (h : Hhdm) (s : Ipc) (msg size : Word) : KernReturn × Ipc :=
  if msg = 0 ∨ size < sizeofMachMsgHeader then (.invalidArgument, s)
  else
    let remotePort := load64 s.user (msg+msghRemotePort)
    if remotePort = machPortNull then (.invalidArgument, s)
    else if currentTask s = taskNull ∨ s.itkSpace (currentTask s) = ipcSpaceNull then
      (.invalidArgument, s)
    else
      let (kr, port) := ipcSpaceLookup s (s.itkSpace (currentTask s)) remotePort
      if kr ≠ .success then (kr, s)
      else
        let port := port.getD ipcPortNull
        let (kmsg, s) := ipcKmsgAlloc h s size
        if kmsg = ipcKmsgNull then (.noSpace, s)
        else
          let (kr, s) := ipcKmsgCopyin s kmsg msg size
          if kr ≠ .success then (kr, ipcKmsgFree s kmsg)
          else
            let s := s.setKmsg kmsg { s.kmsgs kmsg with port := port }
            let (kr, s) := ipcPortEnqueue s port kmsg
            if kr ≠ .success then (kr, ipcKmsgFree s kmsg)
            else (.success, s)

/-- The end of `mach_msg_receive`: its result, what `*size` is then, and the new state. -/
def machMsgReceiveMessage (s : Ipc) (port msg : Word) (size : Option Word) :
    KernReturn × Option Word × Ipc :=
  let (kmsg, s) := ipcPortDequeue s port
  if kmsg = ipcKmsgNull then (.failure, size, s)
  else
    let (kr, size, s) := ipcKmsgCopyout s kmsg msg size
    (kr, size, ipcKmsgFree s kmsg)

/-- `mach_msg_receive` from the return of `sched_run` on. -/
def machMsgReceiveResume (s : Ipc) (port msg : Word) (size : Option Word) :
    KernReturn × Option Word × Ipc :=
  if (s.ports port).msgCount = 0 then (.failure, size, s)
  else machMsgReceiveMessage s port msg size

/-- A call that has returned, with what `*size` is then, or one switched away from inside
`sched_run` that has yet to resume on `port`. -/
inductive MsgResult
  | done (kr : KernReturn) (size : Option Word)
  | blocked (port : Word)
  deriving DecidableEq, Repr

def machMsgReceive (s : Ipc) (msg : Word) (size : Option Word) : MsgResult × Ipc :=
  if msg = 0 ∨ size = none then (.done .invalidArgument size, s)
  else
    let localPort := load64 s.user (msg+msghLocalPort)
    if localPort = machPortNull then (.done .invalidArgument size, s)
    else if currentTask s = taskNull ∨ s.itkSpace (currentTask s) = ipcSpaceNull then
      (.done .invalidArgument size, s)
    else
      let (kr, port) := ipcSpaceLookup s (s.itkSpace (currentTask s)) localPort
      if kr ≠ .success then (.done kr size, s)
      else
        let port := port.getD ipcPortNull
        if (s.ports port).msgCount = 0 then
          let thread := s.kern.sched.cpuCurrentThread
          let s := s.setPort port { s.ports port with waitingThread := thread }
          let (switch, sched) := schedRun (schedBlock s.kern.sched thread)
          let s := { s with kern := { s.kern with sched := sched } }
          match switch with
          | some _ => (.blocked port, s)
          | none =>
            let (kr, size, s) := machMsgReceiveResume s port msg size
            (.done kr size, s)
        else
          let (kr, size, s) := machMsgReceiveMessage s port msg size
          (.done kr size, s)

/-- `timeout` and `notify` are not read. A blocked receive passes its own result on when
it resumes. -/
def machMsg (h : Hhdm) (s : Ipc) (msg option sendSize rcvSize rcvName rcvMsg : Word) :
    MsgResult × Ipc :=
  let (kr, s) := if option &&& 1 ≠ 0 then machMsgSend h s msg sendSize else (.success, s)
  if kr ≠ .success then (.done kr (some rcvSize), s)
  else if option &&& 2 ≠ 0 then
    let s := if rcvMsg ≠ 0 then { s with user := store64 s.user (rcvMsg+msghLocalPort) rcvName }
      else s
    machMsgReceive s (if rcvMsg ≠ 0 then rcvMsg else msg) (some rcvSize)
  else (.done .success (some rcvSize), s)

end Dana
