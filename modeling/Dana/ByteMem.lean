import Mathlib.Data.BitVec
import Mathlib.Logic.Function.Basic

/-! A flat little-endian memory of bytes at 64-bit addresses, with quadword
accesses, block fills and block copies, and their frame rules. -/
namespace ByteMem

abbrev Word := BitVec 64
abbrev Byte := BitVec 8
abbrev Mem := Word → Byte

def load64 (m : Mem) (a : Word) : Word :=
  m (a+7) ++ m (a+6) ++ m (a+5) ++ m (a+4) ++ m (a+3) ++ m (a+2) ++ m (a+1) ++ m a

def load32 (m : Mem) (a : Word) : BitVec 32 := m (a+3) ++ m (a+2) ++ m (a+1) ++ m a

def store64 (m : Mem) (a v : Word) : Mem := fun x =>
  if x-a < 8 then v.extractLsb' (8*(x-a).toNat) 8 else m x

/-- `n` bytes from `a` on become `c`. -/
def fill (m : Mem) (a : Word) (c : Byte) (n : Word) : Mem := fun x =>
  if x-a < n then c else m x

/-- `n` bytes from `a` on are copied from `src`, where they start at `b`. -/
def copy (m : Mem) (a : Word) (src : Mem) (b n : Word) : Mem := fun x =>
  if x-a < n then src (b+(x-a)) else m x

/-- The `n` bytes from `a` on. -/
def bytes (m : Mem) (a n : Word) : List Byte :=
  (List.range n.toNat).map fun i => m (a+BitVec.ofNat 64 i)

theorem load64_congr (m m' : Mem) (a : Word) (h : ∀ x, x-a < 8 → m x = m' x) :
    load64 m a = load64 m' a := by
  have hoff (i : Word) (hi : i < 8) : m (a+i) = m' (a+i) := by
    apply h
    have ha : a+i-a = i := by rw [BitVec.add_comm]; exact BitVec.add_sub_cancel i a
    rwa [ha]
  have h0 : m a = m' a := by simpa using hoff 0 (by decide)
  simp only [load64, hoff 1 (by decide), hoff 2 (by decide), hoff 3 (by decide),
    hoff 4 (by decide), hoff 5 (by decide), hoff 6 (by decide), hoff 7 (by decide), h0]

theorem load64_store64_same (m : Mem) (a v : Word) : load64 (store64 m a v) a = v := by
  have hoff (i : Word) (hi : i < 8) :
      store64 m a v (a+i) = v.extractLsb' (8*i.toNat) 8 := by
    have ha : a+i-a = i := by rw [BitVec.add_comm]; exact BitVec.add_sub_cancel i a
    simp only [store64, ha, hi, ↓reduceIte]
  have h0 : store64 m a v a = v.extractLsb' 0 8 := by simpa using hoff 0 (by decide)
  simp only [load64, hoff 1 (by decide), hoff 2 (by decide), hoff 3 (by decide),
    hoff 4 (by decide), hoff 5 (by decide), hoff 6 (by decide), hoff 7 (by decide), h0]
  apply BitVec.eq_of_getLsbD_eq
  intro i hi
  simp only [BitVec.getLsbD_append, BitVec.getLsbD_extractLsb']
  grind

/-- Two quadwords that do not overlap. -/
def Apart (a b : Word) : Prop := 8 ≤ a-b ∧ 8 ≤ b-a

theorem load64_store64_apart (m : Mem) (a b v : Word) (h : Apart a b) :
    load64 (store64 m b v) a = load64 m a := by
  apply load64_congr
  intro x hx
  have hb : ¬ x-b < 8 := by
    obtain ⟨h1, h2⟩ := h
    bv_omega
  simp only [store64, hb, ↓reduceIte]

/-- The first `k` bytes and the `n` after them. -/
theorem bytes_add (m : Mem) (a k n : Word) (h : k.toNat+n.toNat < 2^64) :
    bytes m a (k+n) = bytes m a k ++ bytes m (a+k) n := by
  have hlen : (k+n).toNat = k.toNat+n.toNat := by
    rw [BitVec.toNat_add, Nat.mod_eq_of_lt h]
  rw [bytes, hlen, List.range_add, List.map_append, List.map_map]
  refine congrArg _ (List.map_congr_left fun i _ => ?_)
  have hk : BitVec.ofNat 64 (k.toNat+i) = k+BitVec.ofNat 64 i := by
    rw [BitVec.ofNat_add, BitVec.ofNat_toNat, BitVec.setWidth_eq]
  simp only [Function.comp, hk, BitVec.add_assoc]

theorem bytes_congr (m m' : Mem) (a b n : Word)
    (h : ∀ i : Word, i < n → m (a+i) = m' (b+i)) : bytes m a n = bytes m' b n := by
  refine List.map_congr_left fun i hi => h _ ?_
  have hi := List.mem_range.mp hi
  have hn := n.isLt
  rw [BitVec.lt_def, BitVec.toNat_ofNat, Nat.mod_eq_of_lt (hi.trans hn)]
  exact hi

theorem bytes_copy_same (m src : Mem) (a b n : Word) : bytes (copy m a src b n) a n = bytes src b n := by
  refine bytes_congr _ _ _ _ _ fun i hi => ?_
  have ha : a+i-a = i := by rw [BitVec.add_comm]; exact BitVec.add_sub_cancel i a
  simp only [copy, ha, hi, ↓reduceIte]

/-- Bytes that a copy does not reach. -/
theorem bytes_copy_apart (m src : Mem) (a b n c k : Word) (h : ∀ i : Word, i < k → ¬ c+i-a < n) :
    bytes (copy m a src b n) c k = bytes m c k := by
  refine bytes_congr _ _ _ _ _ fun i hi => ?_
  simp only [copy, h i hi, ↓reduceIte]

end ByteMem
