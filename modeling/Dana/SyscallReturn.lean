import Dana.SyscallEntry

/-! The way back from a system call: what `syscall_entry` restores before `sysret`. -/
namespace Dana
open ByteMem X86

def syscallRestored : List Reg := [.r9, .r8, .r10, .rdx, .rsi, .rdi, .rbp, .r11, .rcx, .rax]

/-- From the return of `syscall_dispatch` up to the `sysret`. -/
def syscallExit : List Instr := .addImm .rsp 16 :: syscallRestored.map .pop

/-- The registers that a SysV callee preserves, besides `rsp`. -/
def sysvSaved : List Reg := [.rbx, .rbp, .r12, .r13, .r14, .r15]

/-- A SysV function entered in state `d`, with one word of arguments on the stack,
returns `v` in state `r`: the caller's frame above that word, `n` bytes of it, is as it was. -/
structure SysvReturn (n : Word) (d r : State) (v : Word) : Prop where
  rip : r.rip = load64 d.mem (d.reg .rsp)
  rsp : r.reg .rsp = d.reg .rsp+8
  rax : r.reg .rax = v
  saved : ∀ q ∈ sysvSaved, r.reg q = d.reg q
  frame : ∀ x, x-(d.reg .rsp+16) < n → r.mem x = d.mem x

/-- The pad and the ten registers that `syscall_entry` has on the stack. -/
def syscallFrame : Word := 88

/-- The machine at the `sysret`, for the state `r` at the return of `syscall_dispatch`. -/
def atSysret (r : State) : State := run syscallExit r

/-- The contract of the stub's exit. -/
structure SyscallReturn (u s : State) (v : Word) : Prop where
  rax : s.reg .rax = v
  rcx : s.reg .rcx = u.rip
  r11 : s.reg .r11 = u.rflags
  rsp : s.reg .rsp = u.reg .rsp
  other : ∀ q ∈ [.rdi, .rsi, .r10, .r8, .r9, .rbp, .rbx, .r12, .r13, .r14, .r15],
    s.reg q = u.reg q

section Entry
variable (lstar fmask dispatch next : Word) (u : State)

/-- The stub pushes two more words before it calls, and keeps the callee's registers. -/
theorem syscallSetup_frame (t : State) :
    (run (syscallSetup dispatch next) t).reg .rsp = t.reg .rsp-8-8-8 ∧
    (∀ q ∈ sysvSaved, (run (syscallSetup dispatch next) t).reg q = t.reg q) ∧
    ∃ w, (run (syscallSetup dispatch next) t).mem =
      store64 (store64 t.mem (t.reg .rsp-8-8) w) (t.reg .rsp-8-8-8) next := by
  simp -implicitDefEqProofs only [syscallSetup, run_cons, run_nil, exec, set_reg, set_mem,
    pushWord_reg, pushWord_mem, reduceCtorEq, ↓reduceIte]
  refine ⟨trivial, fun q hq => ?_, _, rfl⟩
  have hne : q ≠ .rsp ∧ q ≠ .r9 ∧ q ≠ .r8 ∧ q ≠ .rcx ∧ q ≠ .rdx ∧ q ≠ .rsi ∧ q ≠ .rdi := by
    revert q
    decide
  simp only [hne, ↓reduceIte]

/-- Where `syscall_dispatch` is entered: the saved registers lie above the stack pointer. -/
theorem atDispatch_stack :
    (atDispatch lstar fmask dispatch next u).reg .rsp = below (u.reg .rsp) 13 ∧
    (∀ q ∈ sysvSaved, (atDispatch lstar fmask dispatch next u).reg q = u.reg q) ∧
    load64 (atDispatch lstar fmask dispatch next u).mem (below (u.reg .rsp) 13) = next ∧
    ∀ (k : ℕ) (hk : k < syscallSaved.length),
      load64 (atDispatch lstar fmask dispatch next u).mem (below (u.reg .rsp) (k+1)) =
        (syscallInsn lstar fmask u).reg syscallSaved[k] := by
  obtain ⟨s, hs⟩ : ∃ s, s = syscallInsn lstar fmask u := ⟨_, rfl⟩
  obtain ⟨t, ht⟩ : ∃ t, t = run (syscallSaved.map .push) s := ⟨_, rfl⟩
  have hat : atDispatch lstar fmask dispatch next u = run (syscallSetup dispatch next) t := by
    rw [atDispatch, ht, hs]
  rw [pushes_eq _ _ (by decide)] at ht
  have hreg (r : Reg) (h1 : r ≠ .rcx) (h2 : r ≠ .r11) : s.reg r = u.reg r := by
    rw [hs, syscallInsn, set_of_ne _ _ _ _ h2, set_of_ne _ _ _ _ h1]
  have hR : s.reg .rsp = u.reg .rsp := hreg .rsp (by decide) (by decide)
  have hsp : t.reg .rsp = below (u.reg .rsp) 10 := by simp [ht, hR, syscallSaved]
  have hmt : t.mem = (pushAll (syscallSaved.map s.reg) (s.mem, u.reg .rsp)).1 := by rw [ht, hR]
  have hkept (q : Reg) (hq : q ∈ sysvSaved) : t.reg q = u.reg q := by
    have hne : q ≠ .rsp ∧ q ≠ .rcx ∧ q ≠ .r11 := by
      revert q
      decide
    simp [ht, hne.1, hreg q hne.2.1 hne.2.2]
  have h12 : t.reg .rsp-8-8 = below (u.reg .rsp) 12 := by rw [hsp, below_sub, below_sub]
  have h13 : t.reg .rsp-8-8-8 = below (u.reg .rsp) 13 := by rw [h12, below_sub]
  obtain ⟨hrsp, hcallee, w, hmem⟩ := syscallSetup_frame dispatch next t
  rw [hat, hrsp, hmem, h13, h12]
  refine ⟨rfl, fun q hq => ?_, load64_store64_same .., fun k hk => ?_⟩
  · rw [hcallee q hq, hkept q hq]
  · have hk10 : k < 10 := hk
    rw [load64_store64_apart _ _ _ _ (below_apart _ _ _ (by omega) (by omega) (by omega)),
      load64_store64_apart _ _ _ _ (below_apart _ _ _ (by omega) (by omega) (by omega)), hmt,
      pushAll_load (syscallSaved.map s.reg) s.mem (u.reg .rsp) (by simp [syscallSaved]) k
        (by simpa using hk), List.getElem_map, hs]

end Entry

/-- The frame of the stub holds the saved registers until the pops. -/
theorem SysvReturn.saved_load {d r : State} {v a : Word} (h : SysvReturn syscallFrame d r v)
    (hd : d.reg .rsp = below a 13) (k : ℕ) (hk : k < 10) :
    load64 r.mem (below a (k+1)) = load64 d.mem (below a (k+1)) := by
  refine load64_congr _ _ _ fun x hx => h.frame x ?_
  rw [hd]
  simp only [below, syscallFrame] at *
  bv_omega

theorem syscallRestored_rev : ∀ k < 10, syscallRestored[k]? = syscallSaved[9-k]? := by decide

/-- What the pops leave: every register that was pushed, `rax` among them. -/
theorem atSysret_regs (lstar fmask dispatch next v : Word) (u r : State)
    (h : SysvReturn syscallFrame (atDispatch lstar fmask dispatch next u) r v) :
    (atSysret r).reg .rsp = u.reg .rsp ∧
    (∀ q ∈ syscallRestored, (atSysret r).reg q = (syscallInsn lstar fmask u).reg q) ∧
    ∀ q ∈ sysvSaved, q ∉ syscallRestored → (atSysret r).reg q = u.reg q := by
  obtain ⟨hsp, hcallee, _, hload⟩ := atDispatch_stack lstar fmask dispatch next u
  obtain ⟨s, hs⟩ : ∃ s, s = exec (.addImm .rsp 16) r := ⟨_, rfl⟩
  have hmem : s.mem = r.mem := by rw [hs]; rfl
  have hreg (q : Reg) (hq : q ≠ .rsp) : s.reg q = r.reg q := by
    rw [hs]
    exact set_of_ne _ _ _ _ hq
  have hrsp : s.reg .rsp = below (u.reg .rsp) (0+syscallRestored.length) := by
    have h16 : (r.set .rsp (r.reg .rsp+16)).reg .rsp = r.reg .rsp+16 := set_self ..
    rw [hs, exec, h16, h.rsp, hsp]
    simp only [below, syscallRestored, List.length_cons, List.length_nil]
    bv_omega
  have hat : atSysret r = run (syscallRestored.map .pop) s := by
    rw [hs, atSysret, syscallExit, run_cons]
  obtain ⟨h1, _, h3, h4⟩ := pops_spec syscallRestored (u.reg .rsp) 0 s (by decide) (by decide) hrsp
  rw [hat]
  refine ⟨by rw [h1, below_zero], fun q hq => ?_, fun q hq hnot => ?_⟩
  · obtain ⟨k, hk, rfl⟩ := List.mem_iff_getElem.mp hq
    have hk10 : k < 10 := hk
    have hget := (syscallRestored_rev k hk10).symm.trans (List.getElem?_eq_getElem hk)
    obtain ⟨hlt, hsame⟩ := List.getElem?_eq_some_iff.mp hget
    have hpos : 0+syscallRestored.length-k = (9-k)+1 := by
      have : syscallRestored.length = 10 := rfl
      omega
    rw [h4 k hk, hpos, hmem, h.saved_load hsp (9-k) (by omega), hload (9-k) hlt, hsame]
  · have hne : q ≠ .rsp := by
      revert q
      decide
    rw [h3 q hnot hne, hreg q hne, h.saved q hq, hcallee q hq]

/-- The stub keeps its exit contract exactly when the value returned is the system call
number: it pops the number it had pushed over the result in `rax`. -/
theorem syscallEntry_return_iff (lstar fmask dispatch next v : Word) (u r : State)
    (h : SysvReturn syscallFrame (atDispatch lstar fmask dispatch next u) r v) :
    SyscallReturn u (atSysret r) v ↔ v = u.reg .rax := by
  obtain ⟨h1, h2, h3⟩ := atSysret_regs lstar fmask dispatch next v u r h
  have hsame (q : Reg) (hq : q ∈ syscallRestored) (hc : q ≠ .rcx) (h11 : q ≠ .r11) :
      (atSysret r).reg q = u.reg q := by
    rw [h2 q hq, syscallInsn, set_of_ne _ _ _ _ h11, set_of_ne _ _ _ _ hc]
  have hrax : (atSysret r).reg .rax = u.reg .rax := hsame .rax (by decide) (by decide) (by decide)
  constructor
  · exact fun hret => hret.rax.symm.trans hrax
  · intro hv
    refine ⟨hrax.trans hv.symm, ?_, ?_, h1, fun q hq => ?_⟩
    · rw [h2 .rcx (by decide)]
      simp [syscallInsn, set_of_ne]
    · rw [h2 .r11 (by decide)]
      simp [syscallInsn]
    · by_cases hmem : q ∈ syscallRestored
      · have hne : q ≠ .rcx ∧ q ≠ .r11 := by
          revert q
          decide
        exact hsame q hmem hne.1 hne.2
      · have hsaved : q ∈ sysvSaved := by
          revert q
          decide
        exact h3 q hsaved hmem

/-- A function that returns at once. -/
def sysvReturn (d : State) (v : Word) : State :=
  { (d.set .rsp (d.reg .rsp+8)).set .rax v with rip := load64 d.mem (d.reg .rsp) }

theorem sysvReturn_sysv (n : Word) (d : State) (v : Word) : SysvReturn n d (sysvReturn d v) v := by
  have hreg (q : Reg) :
      (sysvReturn d v).reg q = ((d.set .rsp (d.reg .rsp+8)).set .rax v).reg q := rfl
  refine ⟨rfl, ?_, ?_, fun q hq => ?_, fun _ _ => rfl⟩
  · rw [hreg, set_of_ne _ _ _ _ (by decide), set_self]
  · rw [hreg, set_self]
  · have hne : q ≠ .rax ∧ q ≠ .rsp := by
      revert q
      decide
    rw [hreg, set_of_ne _ _ _ _ hne.1, set_of_ne _ _ _ _ hne.2]

/-- All registers 0 at a system call. -/
def zeroUser : State := ⟨fun _ => 0, 0, 0, fun _ => 0⟩

/-- Call 0 that returns 0 keeps the contract. -/
theorem syscallEntry_return_zero :
    SyscallReturn zeroUser (atSysret (sysvReturn (atDispatch 0 0 0 0 zeroUser) 0)) 0 :=
  (syscallEntry_return_iff 0 0 0 0 0 zeroUser _ (sysvReturn_sysv _ _ _)).mpr rfl

/-- Call 0 that returns 46, as every call without a handler does: the user reads 0 in `rax`. -/
theorem syscallEntry_return_lost :
    SysvReturn syscallFrame (atDispatch 0 0 0 0 zeroUser)
      (sysvReturn (atDispatch 0 0 0 0 zeroUser) 46) 46 ∧
    ¬ SyscallReturn zeroUser (atSysret (sysvReturn (atDispatch 0 0 0 0 zeroUser) 46)) 46 := by
  have hr := sysvReturn_sysv syscallFrame (atDispatch 0 0 0 0 zeroUser) 46
  refine ⟨hr, fun hc => ?_⟩
  obtain ⟨_, h2, _⟩ := atSysret_regs 0 0 0 0 46 zeroUser _ hr
  have h46 := hc.rax.symm.trans (h2 .rax (by decide))
  revert h46
  decide

end Dana
