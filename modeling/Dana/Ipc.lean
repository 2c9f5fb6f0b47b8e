import Dana.RingBuffer
import Dana.Thread

/-! Ports, messages and port spaces: kern/ipc_kmsg.c, kern/ipc_port.c, kern/ipc_space.c. -/
namespace Dana
open ByteMem

def ipcPortQueueMax : ℕ := 32
def ipcSpaceMaxPorts : BitVec 32 := 1024
def kmsgZoneSize : Word := 512
def sizeofMachMsgHeader : Word := 48
def sizeofIpcKmsg : Word := 80
def sizeofIpcPort : Word := 312
def sizeofIpcSpace : Word := 24584

def machPortNull : Word := 0
def ipcKmsgNull : Word := 0
def ipcSpaceNull : Word := 0

inductive IpcPortType
  | none | send | receive | dead
  deriving DecidableEq, Repr

/-- `struct ipc_port`; an `ipc_port_t` is its address, 0 for `IPC_PORT_NULL`. -/
structure IpcPort where
  ipType : IpcPortType
  refCount : BitVec 32
  waitingThread : Word
  messages : ℕ → Word
  msgCount : BitVec 32
  msgFirst : BitVec 32
  msgLast : BitVec 32

/-- `struct ipc_kmsg`, with the bytes of `ikm_header` and of `ikm_data` from offset 0 on. -/
structure IpcKmsg where
  next : Word
  port : Word
  size : Word
  headerSize : Word
  header : Mem
  data : Mem

structure IpcEntry where
  port : Word
  name : Word
  rights : BitVec 32

structure IpcSpace where
  portCount : BitVec 32
  entries : ℕ → IpcEntry

/-- A call on a zone that handed an element out or took one back. -/
inductive ZoneEvent
  | alloc (elem : Word)
  | free (elem : Word)
  deriving DecidableEq, Repr

/-- The state of the IPC code over that of threads: its objects by address, its zones, the
`itk_space` of each task, and the memory behind message buffers. The logs, latest call
first, are what the calls on two of the zones did; no function reads them. -/
structure Ipc where
  kern : Kern
  itkSpace : Word → Word
  ports : Word → IpcPort
  kmsgs : Word → IpcKmsg
  spaces : Word → IpcSpace
  portZone : Option ℕ
  kmsgZone : Option ℕ
  spaceZone : Option ℕ
  user : Mem
  portLog : List ZoneEvent
  kmsgLog : List ZoneEvent

namespace Ipc

def setPort (s : Ipc) (p : Word) (v : IpcPort) : Ipc :=
  { s with ports := Function.update s.ports p v }

def setKmsg (s : Ipc) (m : Word) (v : IpcKmsg) : Ipc :=
  { s with kmsgs := Function.update s.kmsgs m v }

def setSpace (s : Ipc) (sp : Word) (v : IpcSpace) : Ipc :=
  { s with spaces := Function.update s.spaces sp v }

def setZone (s : Ipc) (z : ℕ) (zone : Zone) (kmem : Kmem) : Ipc :=
  { s with kern := { s.kern with kmem := kmem, zoneStore := s.kern.zoneStore.set z zone } }

/-- `zalloc` on zone `z` of the store. -/
def zalloc (h : Hhdm) (s : Ipc) (z : ℕ) : Word × Ipc :=
  let (e, zone, kmem) := Dana.zalloc h (s.kern.zoneStore.zones z) s.kern.kmem
  (e, s.setZone z zone kmem)

def zfree (s : Ipc) (z : ℕ) (e : Word) : Ipc :=
  let (zone, kmem) := Dana.zfree (s.kern.zoneStore.zones z) e s.kern.kmem
  s.setZone z zone kmem

/-- The zone kept in a static variable, made by `zinit` at its first use. -/
def getZone (s : Ipc) (zone : Option ℕ) (size : Word) : Option ℕ × Ipc :=
  match zone with
  | some z => (some z, s)
  | none =>
    let (z, zoneStore) := zinit s.kern.zoneStore size 0
    (z, { s with kern := { s.kern with zoneStore := zoneStore } })

end Ipc

def getKmsgZone (s : Ipc) : Option ℕ × Ipc :=
  let (z, s) := s.getZone s.kmsgZone (sizeofIpcKmsg+kmsgZoneSize)
  (z, { s with kmsgZone := z })

def getIpcPortZone (s : Ipc) : Option ℕ × Ipc :=
  let (z, s) := s.getZone s.portZone sizeofIpcPort
  (z, { s with portZone := z })

def getIpcSpaceZone (s : Ipc) : Option ℕ × Ipc :=
  let (z, s) := s.getZone s.spaceZone sizeofIpcSpace
  (z, { s with spaceZone := z })

def ipcKmsgAlloc (h : Hhdm) (s : Ipc) (size : Word) : Word × Ipc :=
  match getKmsgZone s with
  | (none, s) => (ipcKmsgNull, s)
  | (some z, s) =>
    if kmsgZoneSize < size then (ipcKmsgNull, s)
    else
      let (kmsg, s) := s.zalloc h z
      if kmsg = ipcKmsgNull then (ipcKmsgNull, s)
      else
        (kmsg, { s.setKmsg kmsg
            { next := ipcKmsgNull, port := ipcPortNull, size := size,
              headerSize := sizeofMachMsgHeader, header := fun _ => 0, data := fun _ => 0 } with
          kmsgLog := .alloc kmsg :: s.kmsgLog })

/-- A zone that cannot be made is a null pointer to `zfree`; no kmsg exists then. -/
def ipcKmsgFree (s : Ipc) (kmsg : Word) : Ipc :=
  if kmsg = ipcKmsgNull then s
  else
    match getKmsgZone s with
    | (none, s) => s
    | (some z, s) => { s.zfree z kmsg with kmsgLog := .free kmsg :: s.kmsgLog }

def ipcKmsgCopyin (s : Ipc) (kmsg userMsg size : Word) : KernReturn × Ipc :=
  if kmsg = ipcKmsgNull ∨ userMsg = 0 then (.invalidArgument, s)
  else if size < sizeofMachMsgHeader then (.invalidArgument, s)
  else
    let k := s.kmsgs kmsg
    let k := { k with
      header := copy k.header 0 s.user userMsg sizeofMachMsgHeader
      headerSize := sizeofMachMsgHeader }
    let dataSize := size-sizeofMachMsgHeader
    let k := if 0 < dataSize then
        { k with data := copy k.data 0 s.user (userMsg+sizeofMachMsgHeader) dataSize }
      else k
    (.success, s.setKmsg kmsg k)

/-- The result, what `*size` is then (`none` is a null `size`), and the new state. -/
def ipcKmsgCopyout (s : Ipc) (kmsg userMsg : Word) (size : Option Word) :
    KernReturn × Option Word × Ipc :=
  match size with
  | none => (.invalidArgument, none, s)
  | some n =>
    if kmsg = ipcKmsgNull ∨ userMsg = 0 then (.invalidArgument, some n, s)
    else
      let k := s.kmsgs kmsg
      if n < k.size then (.noSpace, some n, s)
      else
        let user := copy s.user userMsg k.header 0 sizeofMachMsgHeader
        let dataSize := k.size-sizeofMachMsgHeader
        let user := if 0 < dataSize then
            copy user (userMsg+sizeofMachMsgHeader) k.data 0 dataSize
          else user
        (.success, some k.size, { s with user := user })

/-- A port whose bytes are all 0. -/
def IpcPort.zero : IpcPort := ⟨.none, 0, 0, fun _ => 0, 0, 0, 0⟩

/-- The result, the port stored through `port_out` (if any), and the new state. -/
def ipcPortAlloc (h : Hhdm) (s : Ipc) : KernReturn × Option Word × Ipc :=
  match getIpcPortZone s with
  | (none, s) => (.noSpace, none, s)
  | (some z, s) =>
    let (port, s) := s.zalloc h z
    if port = 0 then (.noSpace, none, s)
    else
      (.success, some port,
        { s.setPort port { IpcPort.zero with ipType := .receive, refCount := 1 } with
          portLog := .alloc port :: s.portLog })

def ipcPortEnqueue (s : Ipc) (port kmsg : Word) : KernReturn × Ipc :=
  if port = ipcPortNull ∨ kmsg = ipcKmsgNull then (.invalidArgument, s)
  else
    let v := s.ports port
    if ipcPortQueueMax ≤ v.msgCount.toNat then (.noSpace, s)
    else
      let v := { v with
        messages := Function.update v.messages v.msgLast.toNat kmsg
        msgLast := (v.msgLast+1)%BitVec.ofNat 32 ipcPortQueueMax
        msgCount := v.msgCount+1 }
      if v.waitingThread ≠ 0 then
        let waiter := v.waitingThread
        let s := s.setPort port { v with waitingThread := 0 }
        (.success,
          { s with kern := { s.kern with sched := schedUnblock s.kern.sched waiter } })
      else (.success, s.setPort port v)

def ipcPortDequeue (s : Ipc) (port : Word) : Word × Ipc :=
  if port = ipcPortNull ∨ (s.ports port).msgCount = 0 then (ipcKmsgNull, s)
  else
    let v := s.ports port
    (v.messages v.msgFirst.toNat, s.setPort port { v with
      messages := Function.update v.messages v.msgFirst.toNat ipcKmsgNull
      msgFirst := (v.msgFirst+1)%BitVec.ofNat 32 ipcPortQueueMax
      msgCount := v.msgCount-1 })

/-- `n` more rounds of the loop of `ipc_port_release`, which ends when no message is left. -/
def ipcPortDrain (port : Word) : ℕ → Ipc → Ipc
  | 0, s => s
  | n+1, s =>
    if 0 < (s.ports port).msgCount then
      let (kmsg, s) := ipcPortDequeue s port
      ipcPortDrain port n (if kmsg ≠ ipcKmsgNull then ipcKmsgFree s kmsg else s)
    else s

def ipcPortRelease (s : Ipc) (port : Word) : Ipc :=
  if port = ipcPortNull then s
  else
    let v := s.ports port
    let s := s.setPort port { v with refCount := v.refCount-1 }
    if 0 < (s.ports port).refCount then s
    else
      let s := ipcPortDrain port (s.ports port).msgCount.toNat s
      match getIpcPortZone s with
      | (none, s) => s
      | (some z, s) => { s.zfree z port with portLog := .free port :: s.portLog }

/-- The result, the name stored through `name_out` (if any), and the new state. -/
def ipcSpaceInsert (s : Ipc) (space port : Word) : KernReturn × Option Word × Ipc :=
  if space = ipcSpaceNull ∨ port = ipcPortNull then (.invalidArgument, none, s)
  else
    let v := s.spaces space
    if ipcSpaceMaxPorts ≤ v.portCount then (.noSpace, none, s)
    else
      let name := (v.portCount+1).setWidth 64
      (.success, some name, s.setSpace space {
        portCount := v.portCount+1
        entries := Function.update v.entries v.portCount.toNat ⟨port, name, 1⟩ })

/-- The result, and the port stored through `port_out` (if any). -/
def ipcSpaceLookup (s : Ipc) (space name : Word) : KernReturn × Option Word :=
  if space = ipcSpaceNull then (.invalidArgument, none)
  else if name = machPortNull ∨ (s.spaces space).portCount.setWidth 64 < name then
    (.invalidArgument, none)
  else
    let entry := (s.spaces space).entries (name-1).toNat
    if entry.port = ipcPortNull then (.invalidArgument, none)
    else (.success, some entry.port)

def ipcSpaceRemove (s : Ipc) (space name : Word) : KernReturn × Ipc :=
  if space = ipcSpaceNull then (.invalidArgument, s)
  else if name = machPortNull ∨ (s.spaces space).portCount.setWidth 64 < name then
    (.invalidArgument, s)
  else
    let entry := (s.spaces space).entries (name-1).toNat
    if entry.port ≠ ipcPortNull then
      let s := ipcPortRelease s entry.port
      let v := s.spaces space
      let entry := v.entries (name-1).toNat
      (.success, s.setSpace space { v with
        entries := Function.update v.entries (name-1).toNat
          { entry with port := ipcPortNull, rights := 0 } })
    else (.success, s)

/-- `n` more rounds of the loop of `ipc_space_destroy`, from entry `i` on. -/
def ipcSpaceReleaseAll (space : Word) : ℕ → ℕ → Ipc → Ipc
  | 0, _, s => s
  | n+1, i, s =>
    let entry := (s.spaces space).entries i
    ipcSpaceReleaseAll space n (i+1)
      (if entry.port ≠ ipcPortNull then ipcPortRelease s entry.port else s)

/-- `zfree` links the space through its first word, where `is_port_count` is. -/
def ipcSpaceDestroy (s : Ipc) (space : Word) : Ipc :=
  if space = ipcSpaceNull then s
  else
    let s := ipcSpaceReleaseAll space (s.spaces space).portCount.toNat 0 s
    match getIpcSpaceZone s with
    | (none, s) => s
    | (some z, s) =>
      (s.zfree z space).setSpace space { s.spaces space with
        portCount := (s.kern.zoneStore.zones z).freeList.setWidth 32 }

end Dana
