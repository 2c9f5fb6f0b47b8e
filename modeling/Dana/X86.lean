import Dana.ByteMem
import Mathlib.Data.List.Nodup

/-! The fragment of the x86-64 integer instructions that stack switching and
system-call stubs use, over a byte memory. Arithmetic flags are not tracked. -/
namespace X86
open ByteMem

inductive Reg
  | rax | rbx | rcx | rdx | rsi | rdi | rbp | rsp
  | r8 | r9 | r10 | r11 | r12 | r13 | r14 | r15
  deriving DecidableEq

structure State where
  reg : Reg → Word
  rip : Word
  rflags : Word
  mem : Mem

/-- `call` carries the address of the instruction after it, which it pushes. -/
inductive Instr
  | push (r : Reg)
  | pushMem (base : Reg) (disp : Word)
  | pop (r : Reg)
  | mov (dst src : Reg)
  | load (dst base : Reg) (disp : Word)
  | store (base src : Reg)
  | addImm (dst : Reg) (n : Word)
  | subImm (dst : Reg) (n : Word)
  | call (target next : Word)
  | ret
  | sysret

def State.set (s : State) (r : Reg) (v : Word) : State :=
  { s with reg := Function.update s.reg r v }

def State.pushWord (s : State) (v : Word) : State :=
  { s with
    reg := Function.update s.reg .rsp (s.reg .rsp-8)
    mem := store64 s.mem (s.reg .rsp-8) v }

/-- The interrupt-enable flag of `rflags`. -/
def interruptFlag : Word := 0x200

def exec : Instr → State → State
  | .push r, s => s.pushWord (s.reg r)
  | .pushMem b d, s => s.pushWord (load64 s.mem (s.reg b+d))
  | .pop r, s => (s.set .rsp (s.reg .rsp+8)).set r (load64 s.mem (s.reg .rsp))
  | .mov d b, s => s.set d (s.reg b)
  | .load d b disp, s => s.set d (load64 s.mem (s.reg b+disp))
  | .store b r, s => { s with mem := store64 s.mem (s.reg b) (s.reg r) }
  | .addImm d n, s => s.set d (s.reg d+n)
  | .subImm d n, s => s.set d (s.reg d-n)
  | .call t next, s => { s.pushWord next with rip := t }
  | .ret, s => { s.set .rsp (s.reg .rsp+8) with rip := load64 s.mem (s.reg .rsp) }
  | .sysret, s =>
    { s with rip := s.reg .rcx, rflags := (s.reg .r11 &&& 0x3c7fd7) ||| 2 }

/-- Straight-line code. -/
def run (is : List Instr) (s : State) : State := is.foldl (fun s i => exec i s) s

/-- The `syscall` instruction, `rip` being the address of the next one. -/
def syscallInsn (lstar fmask : Word) (s : State) : State :=
  { (s.set .rcx s.rip).set .r11 s.rflags with
    rip := lstar, rflags := s.rflags &&& ~~~fmask }

@[simp] theorem run_nil (s : State) : run [] s = s := rfl
@[simp] theorem run_cons (i : Instr) (is : List Instr) (s : State) :
    run (i :: is) s = run is (exec i s) := rfl

@[simp] theorem set_self (s : State) (r : Reg) (v : Word) : (s.set r v).reg r = v :=
  Function.update_self ..
theorem set_of_ne (s : State) (r q : Reg) (v : Word) (h : q ≠ r) : (s.set r v).reg q = s.reg q :=
  Function.update_of_ne h ..
theorem set_reg (s : State) (r q : Reg) (v : Word) :
    (s.set r v).reg q = if q = r then v else s.reg q := Function.update_apply ..
theorem pushWord_reg (s : State) (q : Reg) (v : Word) :
    (s.pushWord v).reg q = if q = .rsp then s.reg .rsp-8 else s.reg q := Function.update_apply ..
@[simp] theorem pushWord_mem (s : State) (v : Word) :
    (s.pushWord v).mem = store64 s.mem (s.reg .rsp-8) v := rfl
@[simp] theorem set_mem (s : State) (r : Reg) (v : Word) : (s.set r v).mem = s.mem := rfl

/-- The quadword `n` places below (for `n` pushes) an address. -/
def below (a : Word) (n : ℕ) : Word := a-BitVec.ofNat 64 (8*n)

theorem below_zero (a : Word) : below a 0 = a := by simp [below]

theorem below_below (a : Word) (m n : ℕ) : below (below a m) n = below a (m+n) := by
  simp only [below]
  rw [Nat.mul_add, BitVec.ofNat_add]
  bv_omega

theorem below_sub (a : Word) (n : ℕ) : below a n-8 = below a (n+1) := by
  simp only [below, Nat.mul_add, BitVec.ofNat_add]
  bv_omega

theorem below_add (a : Word) (m n : ℕ) (h : n ≤ m) :
    below a m+BitVec.ofNat 64 (8*n) = below a (m-n) := by
  obtain ⟨k, rfl⟩ := Nat.exists_eq_add_of_le h
  rw [Nat.add_sub_cancel_left, Nat.add_comm, ← below_below]
  simp only [below]
  bv_omega

theorem below_apart (a : Word) (m n : ℕ) (h : m ≠ n) (hm : m < 2^32) (hn : n < 2^32) :
    Apart (below a m) (below a n) := by
  constructor <;> simp only [below] <;> bv_omega

/-- A quadword that does not meet the `n` quadwords below `a`. -/
def Clear (a : Word) (n : ℕ) (b : Word) : Prop := ∀ i < n, Apart b (below a (i+1))

/-- What lies above the pushed quadwords is clear of them. -/
theorem clear_above (a d : Word) (n : ℕ) (h : d.toNat+8+8*n ≤ 2^64) : Clear a n (a+d) := by
  intro i hi
  have hd := d.isLt
  constructor <;> simp only [below] <;> bv_omega

/-- `*--sp = v`, on a memory and a stack pointer. -/
def pushOne (ms : Mem × Word) (v : Word) : Mem × Word := (store64 ms.1 (ms.2-8) v, ms.2-8)

def pushAll (vs : List Word) (ms : Mem × Word) : Mem × Word := vs.foldl pushOne ms

@[simp] theorem pushAll_nil (ms : Mem × Word) : pushAll [] ms = ms := rfl
theorem pushAll_cons (v : Word) (vs : List Word) (m : Mem) (a : Word) :
    pushAll (v :: vs) (m, a) = pushAll vs (store64 m (below a 1) v, below a 1) := rfl

theorem pushAll_sp (vs : List Word) (m : Mem) (a : Word) :
    (pushAll vs (m, a)).2 = below a vs.length := by
  induction vs generalizing m a with
  | nil => exact (below_zero a).symm
  | cons v vs ih => rw [pushAll_cons, ih, below_below, List.length_cons, Nat.add_comm]

/-- Pushes write only the quadwords below the stack pointer. -/
theorem pushAll_byte (vs : List Word) (m : Mem) (a x : Word)
    (hx : ∀ i < vs.length, ¬ x-below a (i+1) < 8) : (pushAll vs (m, a)).1 x = m x := by
  induction vs generalizing m a with
  | nil => rfl
  | cons v vs ih =>
    rw [pushAll_cons, ih]
    · simp only [store64, hx 0 (by simp), ↓reduceIte]
    · intro i hi
      rw [below_below, Nat.add_comm 1]
      exact hx (i+1) (by simpa using hi)

theorem pushAll_clear (vs : List Word) (m : Mem) (a b : Word) (hb : Clear a vs.length b) :
    load64 (pushAll vs (m, a)).1 b = load64 m b := by
  apply load64_congr
  intro x hx
  apply pushAll_byte
  intro i hi
  obtain ⟨h1, h2⟩ := hb i hi
  bv_omega

/-- The k-th pushed word lies k+1 quadwords below the first stack pointer. -/
theorem pushAll_load (vs : List Word) (m : Mem) (a : Word) (hlen : vs.length < 2^31)
    (k : ℕ) (hk : k < vs.length) : load64 (pushAll vs (m, a)).1 (below a (k+1)) = vs[k] := by
  induction vs generalizing m a k with
  | nil => simp at hk
  | cons v vs ih =>
    simp only [List.length_cons] at hk hlen
    rw [pushAll_cons]
    cases k with
    | zero =>
      rw [pushAll_clear]
      · exact load64_store64_same ..
      · intro i hi
        rw [below_below]
        exact below_apart _ _ _ (by omega) (by omega) (by omega)
    | succ k =>
      have h := ih (store64 m (below a 1) v) (below a 1) (by omega) k (by omega)
      rwa [below_below, Nat.add_comm 1] at h

/-- Push instructions push the values their registers had at the start. -/
theorem pushes_eq (rs : List Reg) (s : State) (hrs : .rsp ∉ rs) :
    run (rs.map .push) s = { s with
      reg := Function.update s.reg .rsp (below (s.reg .rsp) rs.length)
      mem := (pushAll (rs.map s.reg) (s.mem, s.reg .rsp)).1 } := by
  induction rs generalizing s with
  | nil => simp [below_zero]
  | cons q rs ih =>
    simp only [List.mem_cons, not_or] at hrs
    have hq (r : Reg) (hr : r ∈ rs) : (exec (.push q) s).reg r = s.reg r := by
      have hne : r ≠ .rsp := fun h => hrs.2 (h ▸ hr)
      simp only [exec, pushWord_reg, hne, ↓reduceIte]
    have hsp : (exec (.push q) s).reg .rsp = below (s.reg .rsp) 1 := by
      simp [exec, State.pushWord, below]
    rw [List.map_cons, run_cons, ih _ hrs.2, hsp, List.map_congr_left hq, List.map_cons,
      pushAll_cons, List.length_cons, below_below, Nat.add_comm 1]
    simp only [exec, State.pushWord, Function.update_idem]
    rfl

theorem below_succ_add (a : Word) (n : ℕ) : below a (n+1)+8 = below a n := by
  simp only [below, Nat.mul_add, BitVec.ofNat_add]
  bv_omega

/-- Popping `rs` from `n + rs.length` quadwords below `a` reads them in order. -/
theorem pops_spec (rs : List Reg) (a : Word) (n : ℕ) (s : State) (hrs : .rsp ∉ rs)
    (hnd : rs.Nodup) (hsp : s.reg .rsp = below a (n+rs.length)) :
    (run (rs.map .pop) s).reg .rsp = below a n ∧ (run (rs.map .pop) s).mem = s.mem ∧
    (∀ r ∉ rs, r ≠ .rsp → (run (rs.map .pop) s).reg r = s.reg r) ∧
    ∀ (k : ℕ) (hk : k < rs.length),
      (run (rs.map .pop) s).reg rs[k] = load64 s.mem (below a (n+rs.length-k)) := by
  induction rs generalizing s with
  | nil => simpa using hsp
  | cons q rs ih =>
    simp only [List.mem_cons, not_or] at hrs
    obtain ⟨hq, hnd⟩ := List.nodup_cons.mp hnd
    have hsp' : (exec (.pop q) s).reg .rsp = below a (n+rs.length) := by
      have h : (exec (.pop q) s).reg .rsp = s.reg .rsp+8 := by
        simp only [exec]
        rw [set_of_ne _ _ _ _ hrs.1, set_self]
      rw [h, hsp, List.length_cons, ← Nat.add_assoc, below_succ_add]
    obtain ⟨h1, h2, h3, h4⟩ := ih (exec (.pop q) s) hrs.2 hnd hsp'
    simp only [List.map_cons, run_cons]
    refine ⟨h1, h2, fun r hr hne => ?_, fun k hk => ?_⟩
    · simp only [List.mem_cons, not_or] at hr
      rw [h3 r hr.2 hne]
      simp only [exec]
      rw [set_of_ne _ _ _ _ hr.1, set_of_ne _ _ _ _ hne]
    · cases k with
      | zero =>
        rw [List.getElem_cons_zero, h3 q hq (Ne.symm hrs.1)]
        simp only [exec, set_self, hsp, Nat.sub_zero]
      | succ k =>
        rw [List.getElem_cons_succ, h4 k (by simpa using hk)]
        have he : n+(q :: rs).length-(k+1) = n+rs.length-k := by
          simp only [List.length_cons]
          omega
        rw [he]
        rfl

end X86
