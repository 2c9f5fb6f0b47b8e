import Dana.X86

/-! The system-call stub of hal/x86_64/syscall.S. -/
namespace Dana
open ByteMem X86

/-- The user registers the stub pushes, in order. -/
def syscallSaved : List Reg := [.rax, .rcx, .r11, .rbp, .rdi, .rsi, .rdx, .r10, .r8, .r9]

/-- The rest of `syscall_entry` up to its call: the stack is aligned, and the
arguments are read back from the stack. `next` is the address after the call. -/
def syscallSetup (syscallDispatch next : Word) : List Instr :=
  [.subImm .rsp 8,
   .mov .rdi .rax,
   .load .rsi .rsp 56,
   .load .rdx .rsp 64,
   .load .rcx .rsp 72,
   .load .r8 .rsp 80,
   .load .r9 .rsp 88,
   .pushMem .rsp 96,
   .call syscallDispatch next]

/-- The seven words a SysV callee finds in its argument places on entry. -/
def sysvArgs (s : State) : List Word :=
  [s.reg .rdi, s.reg .rsi, s.reg .rdx, s.reg .rcx, s.reg .r8, s.reg .r9,
   load64 s.mem (s.reg .rsp+8)]

/-- The number and the six arguments of the register convention. -/
def syscallArgs (u : State) : List Word :=
  [u.reg .rax, u.reg .rdi, u.reg .rsi, u.reg .rdx, u.reg .r10, u.reg .r8, u.reg .r9]

/-- The machine as `syscall_dispatch` is entered, for the user state at `syscall`. -/
def atDispatch (lstar fmask syscallDispatch next : Word) (u : State) : State :=
  run (syscallSetup syscallDispatch next)
    (run (syscallSaved.map .push) (syscallInsn lstar fmask u))

/-- The arguments in terms of the state after the pushes. -/
theorem syscallSetup_args (dispatch next : Word) (t : State) :
    (run (syscallSetup dispatch next) t).rip = dispatch ∧
    sysvArgs (run (syscallSetup dispatch next) t) =
      [t.reg .rax, load64 t.mem (t.reg .rsp-8+56), load64 t.mem (t.reg .rsp-8+64),
       load64 t.mem (t.reg .rsp-8+72), load64 t.mem (t.reg .rsp-8+80),
       load64 t.mem (t.reg .rsp-8+88), load64 t.mem (t.reg .rsp-8+96)] := by
  refine ⟨rfl, ?_⟩
  simp -implicitDefEqProofs only [syscallSetup, sysvArgs, run_cons, run_nil, exec, set_reg, set_mem, pushWord_reg,
    pushWord_mem, reduceCtorEq, ↓reduceIte]
  have hback : t.reg .rsp-8-8-8+8 = t.reg .rsp-8-8 := by bv_omega
  rw [hback, load64_store64_apart, load64_store64_same]
  constructor <;> bv_omega

/-- What the stub hands over: each load reads three places above the saved
argument it is meant for, the last two above the saved registers. -/
theorem atDispatch_args (lstar fmask dispatch next : Word) (u : State) :
    (atDispatch lstar fmask dispatch next u).rip = dispatch ∧
    sysvArgs (atDispatch lstar fmask dispatch next u) =
      [u.reg .rax, u.reg .rbp, u.rflags, u.rip, u.reg .rax,
       load64 u.mem (u.reg .rsp), load64 u.mem (u.reg .rsp+8)] := by
  obtain ⟨s, hs⟩ : ∃ s, s = syscallInsn lstar fmask u := ⟨_, rfl⟩
  obtain ⟨t, ht⟩ : ∃ t, t = run (syscallSaved.map .push) s := ⟨_, rfl⟩
  have hat : atDispatch lstar fmask dispatch next u = run (syscallSetup dispatch next) t := by
    rw [atDispatch, ht, hs]
  rw [pushes_eq _ _ (by decide)] at ht
  have hreg (r : Reg) (h1 : r ≠ .rcx) (h2 : r ≠ .r11) : s.reg r = u.reg r := by
    rw [hs, syscallInsn, set_of_ne _ _ _ _ h2, set_of_ne _ _ _ _ h1]
  have hrcx : s.reg .rcx = u.rip := by simp [hs, syscallInsn, set_of_ne]
  have hr11 : s.reg .r11 = u.rflags := by simp [hs, syscallInsn]
  have hmem : s.mem = u.mem := by simp [hs, syscallInsn]
  have hR : s.reg .rsp = u.reg .rsp := hreg .rsp (by decide) (by decide)
  have hsp : t.reg .rsp = below (u.reg .rsp) 10 := by
    simp [ht, hR, syscallSaved]
  have hmt : t.mem = (pushAll (syscallSaved.map s.reg) (s.mem, u.reg .rsp)).1 := by
    rw [ht, hR]
  have hoff (k m : ℕ) (h : k < 10) (hm : 8*(10-k) = m) :
      t.reg .rsp-8+BitVec.ofNat 64 m = below (u.reg .rsp) (k+1) := by
    rw [hsp, below_sub, ← hm, below_add _ _ _ (by omega)]
    congr 1
    omega
  have hsaved (k m : ℕ) (r : Reg) (hk : syscallSaved[k]? = some r) (hm : 8*(10-k) = m) :
      load64 t.mem (t.reg .rsp-8+BitVec.ofNat 64 m) = s.reg r := by
    obtain ⟨hlt, hget⟩ := List.getElem?_eq_some_iff.mp hk
    have h := pushAll_load (syscallSaved.map s.reg) s.mem (u.reg .rsp) (by simp [syscallSaved])
      k (by simpa using hlt)
    rw [hoff k m hlt hm, hmt, h, List.getElem_map, hget]
  have habove (d : Word) (hd : d.toNat+8+8*10 ≤ 2^64) :
      load64 t.mem (u.reg .rsp+d) = load64 u.mem (u.reg .rsp+d) := by
    have hclear : Clear (u.reg .rsp) (syscallSaved.map s.reg).length (u.reg .rsp+d) := by
      simpa [syscallSaved] using clear_above (u.reg .rsp) d 10 hd
    rw [hmt, pushAll_clear _ _ _ _ hclear, hmem]
  have hrax : t.reg .rax = u.reg .rax := by
    simp [ht, hreg]
  have h88 : t.reg .rsp-8+88 = u.reg .rsp+0 := by
    have h := below_add (u.reg .rsp) 11 11 le_rfl
    rwa [Nat.sub_self, below_zero, ← below_sub, ← hsp, ← BitVec.add_zero (u.reg .rsp)] at h
  have h96 : t.reg .rsp-8+96 = u.reg .rsp+8 := by
    have h : t.reg .rsp-8+96 = t.reg .rsp-8+88+8 := by rw [BitVec.add_assoc]; rfl
    rw [h, h88]
    exact congrArg (·+8) (BitVec.add_zero _)
  obtain ⟨hrip, hargs⟩ := syscallSetup_args dispatch next t
  rw [hat]
  refine ⟨hrip, ?_⟩
  have h56 : load64 t.mem (t.reg .rsp-8+56) = s.reg .rbp := hsaved 3 56 .rbp rfl rfl
  have h64 : load64 t.mem (t.reg .rsp-8+64) = s.reg .r11 := hsaved 2 64 .r11 rfl rfl
  have h72 : load64 t.mem (t.reg .rsp-8+72) = s.reg .rcx := hsaved 1 72 .rcx rfl rfl
  have h80 : load64 t.mem (t.reg .rsp-8+80) = s.reg .rax := hsaved 0 80 .rax rfl rfl
  rw [hargs, hrax, h56, h64, h72, h80, h88, h96, habove 0 (by decide), habove 8 (by decide),
    hrcx, hr11, hreg .rbp (by decide) (by decide), hreg .rax (by decide) (by decide),
    show u.reg .rsp+0 = u.reg .rsp from BitVec.add_zero _]

/-- The stub delivers the arguments of the convention exactly when the registers
and the user stack happen to agree with them. -/
theorem syscallEntry_args_iff (lstar fmask dispatch next : Word) (u : State) :
    (atDispatch lstar fmask dispatch next u).rip = dispatch ∧
      sysvArgs (atDispatch lstar fmask dispatch next u) = syscallArgs u ↔
    u.reg .rdi = u.reg .rbp ∧ u.reg .rsi = u.rflags ∧ u.reg .rdx = u.rip ∧
      u.reg .r10 = u.reg .rax ∧ u.reg .r8 = load64 u.mem (u.reg .rsp) ∧
      u.reg .r9 = load64 u.mem (u.reg .rsp+8) := by
  obtain ⟨hrip, hargs⟩ := atDispatch_args lstar fmask dispatch next u
  rw [hargs, syscallArgs]
  simp only [hrip, true_and, List.cons.injEq, and_true]
  constructor <;> rintro ⟨h1, h2, h3, h4, h5, h6⟩ <;>
    exact ⟨h1.symm, h2.symm, h3.symm, h4.symm, h5.symm, h6.symm⟩

/-- A caller with 1 in rdi and 0 in rbp: the handler is given 0 as its first argument. -/
theorem syscallEntry_wrong_arg1 : ¬ ∀ (lstar fmask dispatch next : Word) (u : State),
    sysvArgs (atDispatch lstar fmask dispatch next u) = syscallArgs u := by
  intro h
  let u : State :=
    { reg := fun r => if r = .rdi then 1 else 0, rip := 0, rflags := 0, mem := fun _ => 0 }
  have hargs := (atDispatch_args 0 0 0 0 u).2
  rw [h 0 0 0 0 u, syscallArgs] at hargs
  have h1 := congrArg (fun l : List Word => l.getD 1 0) hargs
  revert h1
  decide

end Dana
