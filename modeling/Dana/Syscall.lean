import Dana.IpcLedger
import Dana.ThreadDestroy

/-! The system calls of kern/syscall.c: the table of handlers, and `mach_msg` through it. -/
namespace Dana
open ByteMem Sched

def maxSyscall : ℕ := 64
def syscallMachMsgNum : ℕ := 1
def syscallThreadCreateNum : ℕ := 2
def syscallThreadExitNum : ℕ := 3
def syscallExecNum : ℕ := 7

/-- A call that has returned, or one switched away from while it waits on `port`. -/
inductive SyscallResult
  | done (kr : KernReturn)
  | blocked (port : Word)
  deriving DecidableEq, Repr

/-- `syscall_handler_t`, over the six arguments. -/
abbrev SyscallHandler := Word → Word → Word → Word → Word → Word → Ipc → SyscallResult × Ipc

/-- What a caller of the receive sees of its result. -/
def MsgResult.syscall : MsgResult → SyscallResult
  | .done kr _ => .done kr
  | .blocked port => .blocked port

/-- `timeout` and `notify` are not read. -/
def syscallMachMsg (h : Hhdm) (msg : Word) (option sendSize rcvSize : BitVec 32)
    (rcvName : Word) (s : Ipc) : SyscallResult × Ipc :=
  let (r, s) := machMsg h s msg (option.setWidth 64) (sendSize.setWidth 64)
    (rcvSize.setWidth 64) rcvName msg
  (r.syscall, s)

/-- The last two arguments are dropped, and the receive name is 0. -/
def sysMachMsgWrapper (h : Hhdm) : SyscallHandler := fun arg1 arg2 arg3 arg4 _ _ s =>
  syscallMachMsg h arg1 (arg2.setWidth 32) (arg3.setWidth 32) (arg4.setWidth 32) 0 s

def sysThreadCreateWrapper (h : Hhdm) (threadTrampoline : Word) : SyscallHandler :=
  fun arg1 _ arg3 arg4 _ _ s =>
    let (kr, _, k) := threadCreate h threadTrampoline arg1 arg3 arg4 s.kern
    (.done kr, { s with kern := k })

def sysThreadExit : SyscallHandler := fun _ _ _ _ _ _ s =>
  let (kr, k) := sysThreadExitWrapper s.kern
  (.done kr, { s with kern := k })

/-- `syscall_table` after `syscall_init`, with the handler of `SYSCALL_EXEC` given. -/
def syscallInit (h : Hhdm) (threadTrampoline : Word) (sysExecWrapper : SyscallHandler) :
    ℕ → Option SyscallHandler :=
  let table : ℕ → Option SyscallHandler := fun _ => none
  let table := Function.update table syscallMachMsgNum (sysMachMsgWrapper h)
  let table := Function.update table syscallThreadCreateNum
    (sysThreadCreateWrapper h threadTrampoline)
  let table := Function.update table syscallThreadExitNum sysThreadExit
  Function.update table syscallExecNum sysExecWrapper

def syscallDispatch (table : ℕ → Option SyscallHandler) (syscallNum : ℤ)
    (arg1 arg2 arg3 arg4 arg5 arg6 : Word) (s : Ipc) : SyscallResult × Ipc :=
  if syscallNum < 0 ∨ (maxSyscall : ℤ) ≤ syscallNum then (.done .notSupported, s)
  else
    match table syscallNum.toNat with
    | none => (.done .notSupported, s)
    | some handler => handler arg1 arg2 arg3 arg4 arg5 arg6 s

/-- Which numbers reach a handler. -/
theorem syscallDispatch_unsupported (h : Hhdm) (trampoline : Word) (exec : SyscallHandler)
    (n : ℤ) (hn : n ≠ 1 ∧ n ≠ 2 ∧ n ≠ 3 ∧ n ≠ 7) (a b c d e f : Word) (s : Ipc) :
    syscallDispatch (syscallInit h trampoline exec) n a b c d e f s =
      (.done .notSupported, s) := by
  unfold syscallDispatch
  split_ifs with hrange
  · rfl
  have hne (m : ℕ) (hm : n ≠ m) : n.toNat ≠ m := by omega
  have htable : syscallInit h trampoline exec n.toNat = none := by
    simp only [syscallInit, syscallMachMsgNum, syscallThreadCreateNum, syscallThreadExitNum,
      syscallExecNum]
    rw [Function.update_of_ne (hne 7 hn.2.2.2), Function.update_of_ne (hne 3 hn.2.2.1),
      Function.update_of_ne (hne 2 hn.2.1), Function.update_of_ne (hne 1 hn.1)]
  rw [htable]

/-- What `SYSCALL_MACH_MSG` with the receive name `n` leaves the caller with, against what
`mach_msg_receive` on the same buffer would: result, memory of messages, and port. -/
structure TrapAgrees (h : Hhdm) (threadTrampoline : Word) (sysExecWrapper : SyscallHandler)
    (s : Ipc) (msg option sendSize rcvSize n arg6 port : Word) : Prop where
  result : (syscallDispatch (syscallInit h threadTrampoline sysExecWrapper) syscallMachMsgNum
    msg option sendSize rcvSize n arg6 s).1 = (machMsgReceive s msg (some rcvSize)).1.syscall
  user : (syscallDispatch (syscallInit h threadTrampoline sysExecWrapper) syscallMachMsgNum
    msg option sendSize rcvSize n arg6 s).2.user = (machMsgReceive s msg (some rcvSize)).2.user
  port : (syscallDispatch (syscallInit h threadTrampoline sysExecWrapper) syscallMachMsgNum
    msg option sendSize rcvSize n arg6 s).2.ports port =
      (machMsgReceive s msg (some rcvSize)).2.ports port

theorem syscallDispatch_machMsg (h : Hhdm) (trampoline : Word) (exec : SyscallHandler)
    (msg option sendSize rcvSize e f : Word) (s : Ipc) :
    syscallDispatch (syscallInit h trampoline exec) 1 msg option sendSize rcvSize e f s =
      syscallMachMsg h msg (option.setWidth 32) (sendSize.setWidth 32) (rcvSize.setWidth 32) 0
        s := rfl

/-- The option bits that `mach_msg` reads are not lost in 32 bits. -/
theorem option_bit (option : Word) {b : Word} (hb : b.toNat < 2^32) :
    (option.setWidth 32).setWidth 64 &&& b = option &&& b := by
  apply BitVec.eq_of_getLsbD_eq
  intro i hi
  rw [BitVec.getLsbD_and, BitVec.getLsbD_and, BitVec.getLsbD_setWidth, BitVec.getLsbD_setWidth]
  by_cases h32 : i < 32
  · simp [hi, h32]
  · have hbit : b.getLsbD i = false := by
      have hlt : b.toNat < 2^i := hb.trans_le (Nat.pow_le_pow_right (by decide) (by omega))
      exact Nat.testBit_lt_two_pow hlt
    simp [hbit]

/-- A receive by a name that resolves to a port with a message is not refused. -/
theorem machMsgReceive_queued {s : Ipc} {msg n name port : Word} (hmsg : msg ≠ 0)
    (hname : load64 s.user (msg+msghLocalPort) = name) (ht : currentTask s ≠ taskNull)
    (hl : ipcSpaceLookup s (s.itkSpace (currentTask s)) name = (.success, some port))
    (hc : (s.ports port).msgCount ≠ 0) :
    (machMsgReceive s msg (some n)).1.syscall ≠ .done .invalidArgument := by
  have hsp : s.itkSpace (currentTask s) ≠ ipcSpaceNull := by
    intro hnull
    rw [hnull, ipcSpaceLookup, if_pos rfl] at hl
    cases hl
  have h0 : name ≠ machPortNull := by
    intro h0
    rw [ipcSpaceLookup, if_neg hsp, if_pos (Or.inl h0)] at hl
    cases hl
  obtain ⟨kmsg, s1, hd⟩ : ∃ kmsg s1, ipcPortDequeue s port = (kmsg, s1) := ⟨_, _, rfl⟩
  unfold machMsgReceive
  simp only [hmsg, hname, h0, ht, hsp, hl, hc, or_self, reduceCtorEq, ↓reduceIte, ne_eq,
    not_true_eq_false, Option.getD_some, machMsgReceiveMessage, hd]
  by_cases hnull : kmsg = ipcKmsgNull
  · simp [hnull, MsgResult.syscall]
  · simp only [hnull, ↓reduceIte, ipcKmsgCopyout, hmsg, or_self]
    split_ifs <;> simp [MsgResult.syscall]

/-- A receive through the trap looks up the name 0, which `sys_mach_msg_wrapper` passed
on and `mach_msg` stored in the buffer. -/
theorem syscallMachMsg_receive {h : Hhdm} {s : Ipc} {msg option : Word} (sendSize rcvSize : Word)
    (hmsg : msg ≠ 0) (hrcv : option &&& 2 ≠ 0) (hsend : option &&& 1 = 0) :
    syscallMachMsg h msg (option.setWidth 32) (sendSize.setWidth 32) (rcvSize.setWidth 32) 0 s =
      (.done .invalidArgument, { s with user := store64 s.user (msg+msghLocalPort) 0 }) := by
  have h1 : ((option.setWidth 32).setWidth 64) &&& (1 : Word) = 0 :=
    (option_bit option (by decide)).trans hsend
  have h2 : ((option.setWidth 32).setWidth 64) &&& (2 : Word) ≠ 0 := by
    rw [option_bit option (by decide)]
    exact hrcv
  have hload : load64 (store64 s.user (msg+msghLocalPort) 0) (msg+msghLocalPort) = machPortNull :=
    load64_store64_same ..
  unfold syscallMachMsg machMsg
  simp only [h1, h2, hmsg, machMsgReceive, hload, ne_eq, not_true_eq_false, not_false_eq_true,
    ↓reduceIte, or_self, reduceCtorEq, MsgResult.syscall]

/-- No receive through the trap agrees with the direct one: it fails, and the message
stays in the queue. -/
theorem syscall_mach_msg_receive_never (h : Hhdm) (threadTrampoline : Word)
    (sysExecWrapper : SyscallHandler) (s : Ipc)
    (msg option sendSize rcvSize n arg6 port : Word) (hmsg : msg ≠ 0)
    (hname : load64 s.user (msg+msghLocalPort) = n) (ht : currentTask s ≠ taskNull)
    (hl : ipcSpaceLookup s (s.itkSpace (currentTask s)) n = (.success, some port))
    (hc : (s.ports port).msgCount ≠ 0) (hrcv : option &&& 2 ≠ 0) (hsend : option &&& 1 = 0) :
    ¬ TrapAgrees h threadTrampoline sysExecWrapper s msg option sendSize rcvSize n arg6 port ∧
      syscallDispatch (syscallInit h threadTrampoline sysExecWrapper) syscallMachMsgNum
        msg option sendSize rcvSize n arg6 s =
      (.done .invalidArgument, { s with user := store64 s.user (msg+msghLocalPort) 0 }) := by
  have htrap : syscallDispatch (syscallInit h threadTrampoline sysExecWrapper) syscallMachMsgNum
      msg option sendSize rcvSize n arg6 s =
      (.done .invalidArgument, { s with user := store64 s.user (msg+msghLocalPort) 0 }) :=
    (syscallDispatch_machMsg ..).trans (syscallMachMsg_receive _ _ hmsg hrcv hsend)
  refine ⟨fun hA => ?_, htrap⟩
  apply machMsgReceive_queued (n := rcvSize) hmsg hname ht hl hc
  rw [← hA.result, htrap]

/-- A `SYSCALL_EXEC` handler that refuses. -/
def noExec : SyscallHandler := fun _ _ _ _ _ _ s => (.done .notSupported, s)

/-- The thread that has sent itself a message asks for it through the trap. -/
theorem syscall_mach_msg_receive_never_sent :
    ¬ TrapAgrees higherHalf 0x1000 noExec ipcSent.ipc 0x100 2 0 512 1 0 0x30 :=
  (syscall_mach_msg_receive_never higherHalf 0x1000 noExec ipcSent.ipc 0x100 2 0 512 1 0 0x30
    (by decide) (by decide +kernel) (by decide +kernel) (by decide +kernel) (by decide +kernel)
    (by decide) (by decide)).1

/-- It is there for `mach_msg_receive`, and the trap does not deliver it. -/
theorem syscall_mach_msg_loses_name :
    (machMsgReceive ipcSent.ipc 0x100 (some 512)).1 = .done .success (some 48) ∧
    (syscallDispatch (syscallInit higherHalf 0x1000 noExec) syscallMachMsgNum
      0x100 2 0 512 1 0 ipcSent.ipc).1 = .done .invalidArgument ∧
    ¬ TrapAgrees higherHalf 0x1000 noExec ipcSent.ipc 0x100 2 0 512 1 0 0x30 := by
  have hdirect : (machMsgReceive ipcSent.ipc 0x100 (some 512)).1 = .done .success (some 48) := by
    decide +kernel
  have htrap : (syscallDispatch (syscallInit higherHalf 0x1000 noExec) syscallMachMsgNum
      0x100 2 0 512 1 0 ipcSent.ipc).1 = .done .invalidArgument := by
    decide +kernel
  refine ⟨hdirect, htrap, fun hA => ?_⟩
  have hresult := hA.result
  rw [htrap, hdirect] at hresult
  cases hresult

end Dana
