import Dana.ByteMem
import Dana.Numerals

/-! The formatted output of libkern/printf.c: the characters that it gives to
`hal_console_putc`, in order. -/
namespace Dana
open ByteMem Numerals

def chr (c : Char) : Byte := BitVec.ofNat 8 c.toNat

def digitsLo : List Byte := ['0', '1', '2', '3', '4', '5', '6', '7', '8', '9', 'a', 'b', 'c', 'd',
  'e', 'f'].map chr

def digitsHi : List Byte := ['0', '1', '2', '3', '4', '5', '6', '7', '8', '9', 'A', 'B', 'C', 'D',
  'E', 'F'].map chr

def digitChar (upper : Bool) (d : ℕ) : Byte := (if upper then digitsHi else digitsLo).getD d 0

/-- The loop that fills `buf` from index `i` on, last digit first; `none` when `fuel` rounds do
not end it. -/
def printUintLoop (digit : ℕ → Byte) (base : Word) : ℕ → Word → (ℕ → Byte) → ℕ →
    Option ((ℕ → Byte) × ℕ)
  | 0, _, _, _ => none
  | fuel+1, val, buf, i =>
    if val = 0 then some (buf, i)
    else printUintLoop digit base fuel (val/base)
      (Function.update buf i (digit (val%base).toNat)) (i+1)

/-- `while (i--) hal_console_putc(buf[i])`. -/
def printUintOut (buf : ℕ → Byte) : ℕ → List Byte
  | 0 => []
  | i+1 => buf i :: printUintOut buf i

/-- `buf` and `i` after the digits; a value has at most 64 of them. -/
def printUintDigits (val : Word) (base : BitVec 32) (upper : Bool) : Option ((ℕ → Byte) × ℕ) :=
  printUintLoop (digitChar upper) (base.setWidth 64) 65 val (fun _ => 0) 0

def printUint (val : Word) (base : BitVec 32) (upper : Bool) : Option (List Byte) :=
  if val = 0 then some [chr '0']
  else (printUintDigits val base upper).map fun r => printUintOut r.1 r.2

/-- The `long long` argument as its 64 bits, negated modulo 2^64. -/
def printInt (val : Word) : Option (List Byte) :=
  if val.slt 0 then (printUint (-val) 10 false).map fun s => chr '-' :: s
  else printUint val 10 false

/-- The value of an ASCII digit, a letter of either case from 10 on. -/
def digitValue (c : Byte) : Option ℕ :=
  if chr '0' ≤ c ∧ c ≤ chr '9' then some (c.toNat-48)
  else if chr 'a' ≤ c ∧ c ≤ chr 'f' then some (c.toNat-87)
  else if chr 'A' ≤ c ∧ c ≤ chr 'F' then some (c.toNat-55)
  else none

section Uint
variable {digit : ℕ → Byte} {base val : Word} {buf : ℕ → Byte} {i : ℕ}

theorem printUintOut_update {j : ℕ} (hij : i ≤ j) (c : Byte) :
    printUintOut (Function.update buf j c) i = printUintOut buf i := by
  induction i with
  | zero => rfl
  | succ i ih => rw [printUintOut, printUintOut, Function.update_of_ne (by omega), ih (by omega)]

/-- With fuel for the digits, the loop adds them to the buffer, and they come out before what
was there. -/
theorem printUintLoop_spec (hb : 1 < base.toNat) {fuel : ℕ}
    (hfuel : (base.toNat.digits val.toNat).length < fuel) :
    ∃ buf', printUintLoop digit base fuel val buf i =
        some (buf', i+(base.toNat.digits val.toNat).length) ∧
      printUintOut buf' (i+(base.toNat.digits val.toNat).length) =
        numeral digit base.toNat val.toNat ++ printUintOut buf i := by
  induction fuel generalizing val buf i with
  | zero => omega
  | succ fuel ih =>
    rw [printUintLoop]
    split_ifs with hz
    · rw [hz]
      exact ⟨buf, by simp, by simp [numeral]⟩
    have hpos : 0 < val.toNat := Nat.pos_of_ne_zero fun hc => hz (BitVec.eq_of_toNat_eq hc)
    have hlen : (base.toNat.digits val.toNat).length =
        (base.toNat.digits (val/base).toNat).length+1 := by
      rw [Nat.digits_def' hb hpos, List.length_cons, BitVec.toNat_udiv]
    rw [hlen] at hfuel ⊢
    obtain ⟨buf', hrun, hout⟩ := @ih (val/base)
      (Function.update buf i (digit (val%base).toNat)) (i+1) (by omega)
    have hsum : i+1+(base.toNat.digits (val/base).toNat).length =
        i+((base.toNat.digits (val/base).toNat).length+1) := by omega
    rw [hsum] at hrun hout
    refine ⟨buf', hrun, hout.trans ?_⟩
    rw [printUintOut, Function.update_self, printUintOut_update le_rfl, numeral_step hb hpos,
      BitVec.toNat_udiv, BitVec.toNat_umod, List.append_assoc]
    rfl

end Uint

section Number
variable {base : BitVec 32}

theorem digitChar_reads (upper : Bool) {b : ℕ} (hb : b ≤ 16) :
    Reads digitValue (digitChar upper) b := by
  have hall : ∀ d < 16, digitValue (digitChar upper d) = some d := by
    cases upper <;> decide
  exact fun d hd => hall d (by omega)

theorem digits_length_le {b : ℕ} (hb : 1 < b) (val : Word) : (b.digits val.toNat).length ≤ 64 := by
  have hpow : 2^64 ≤ b^64 := Nat.pow_le_pow_left hb 64
  exact (Nat.digits_length_le_iff hb _).mpr (val.isLt.trans_le hpow)

/-- The digits fit `buf`, and come out as the numeral of the value. -/
theorem printUintDigits_spec (hb : 1 < base.toNat) (val : Word) (upper : Bool) : ∃ buf i,
    printUintDigits val base upper = some (buf, i) ∧ i ≤ 64 ∧
      printUintOut buf i = numeral (digitChar upper) base.toNat val.toNat := by
  have hwide : (base.setWidth 64).toNat = base.toNat := by
    rw [BitVec.toNat_setWidth, Nat.mod_eq_of_lt (base.isLt.trans (by decide))]
  have hlen := digits_length_le hb val
  rw [← hwide] at hb hlen ⊢
  obtain ⟨buf, hrun, hout⟩ := @printUintLoop_spec (digitChar upper) _ val (fun _ => 0) 0 hb 65
    (by omega)
  rw [Nat.zero_add] at hrun hout
  refine ⟨buf, _, hrun, hlen, hout.trans ?_⟩
  rw [printUintOut, List.append_nil]

theorem printUint_numeral (hb : 1 < base.toNat) {val : Word} (hz : val ≠ 0) (upper : Bool) :
    printUint val base upper = some (numeral (digitChar upper) base.toNat val.toNat) := by
  obtain ⟨buf, i, hrun, _, hout⟩ := printUintDigits_spec hb val upper
  rw [printUint, if_neg hz, hrun, Option.map_some, hout]

/-- What `print_uint` emits reads back as the value. -/
theorem printUint_parse (hb : 1 < base.toNat) (hb16 : base.toNat ≤ 16) (val : Word)
    (upper : Bool) : ∃ s, printUint val base upper = some s ∧
      parse digitValue base.toNat s = some val.toNat ∧
      (val ≠ 0 → s.head? ≠ some (chr '0')) := by
  have hreads := digitChar_reads upper hb16
  by_cases hz : val = 0
  · refine ⟨[chr '0'], by rw [printUint, if_pos hz], ?_, fun hne => absurd hz hne⟩
    rw [hz]
    exact parse_singleton (by omega) (by decide)
  · have hnat : val.toNat ≠ 0 := fun hc => hz (BitVec.eq_of_toNat_eq hc)
    have hzero : digitChar upper 0 = chr '0' := by cases upper <;> rfl
    refine ⟨_, printUint_numeral hb hz upper, parse_numeral hb hreads hnat, fun _ => ?_⟩
    rw [← hzero]
    exact numeral_head hb hreads hnat

/-- What `print_int` emits reads back as the signed value. -/
theorem printInt_parse (v : Word) :
    ∃ s, printInt v = some s ∧ parseSigned (chr '-') digitValue 10 s = some v.toInt := by
  have hten : (10 : BitVec 32).toNat = 10 := rfl
  by_cases hneg : v.slt 0 = true
  · obtain ⟨s, hs, hparse, _⟩ := @printUint_parse 10 (by decide) (by decide) (-v) false
    refine ⟨chr '-' :: s, by rw [printInt, if_pos hneg, hs, Option.map_some], ?_⟩
    rw [hten] at hparse
    rw [parseSigned_minus hparse, BitVec.toNat_neg]
    -- the least value is its own negation, and 2^63 is what is printed
    have hlt : v.toInt < 0 := by simpa [BitVec.slt] using hneg
    have hv := BitVec.toInt_eq_toNat_cond v
    congr 1
    split_ifs at hv <;> omega
  · obtain ⟨s, hs, hparse, _⟩ := @printUint_parse 10 (by decide) (by decide) v false
    refine ⟨s, by rw [printInt, if_neg hneg, hs], ?_⟩
    rw [hten] at hparse
    rw [parseSigned_plain (by decide) hparse]
    have hle : 0 ≤ v.toInt := by simpa [BitVec.slt] using hneg
    have hv := BitVec.toInt_eq_toNat_cond v
    congr 1
    split_ifs at hv <;> omega

/-- `print_uint` in base 10 or 16 emits the value's numeral, which fits its buffer, and
`print_int` the signed one of every `long long`. -/
theorem print_number_exact :
    (∀ (val : Word) (base : BitVec 32) (upper : Bool), base = 10 ∨ base = 16 →
      ∃ s, printUint val base upper = some s ∧ parse digitValue base.toNat s = some val.toNat ∧
        (val ≠ 0 → s.head? ≠ some (chr '0')) ∧
        ∃ buf i, printUintDigits val base upper = some (buf, i) ∧ i ≤ 64) ∧
    ∀ v : Word, ∃ s, printInt v = some s ∧
      parseSigned (chr '-') digitValue 10 s = some v.toInt := by
  refine ⟨fun val base upper hbase => ?_, printInt_parse⟩
  have hb : 1 < base.toNat ∧ base.toNat ≤ 16 := by
    rcases hbase with rfl | rfl <;> decide
  obtain ⟨s, hs, hparse, hhead⟩ := printUint_parse hb.1 hb.2 val upper
  obtain ⟨buf, i, hrun, hi, _⟩ := printUintDigits_spec hb.1 val upper
  exact ⟨s, hs, hparse, hhead, buf, i, hrun, hi⟩

/-- 0xdeadbeef in both bases, and the least `long long`. -/
theorem print_number_exact_least :
    (∃ s, printUint 0xdeadbeef 16 true = some s ∧ parse digitValue 16 s = some 0xdeadbeef ∧
      s.head? ≠ some (chr '0')) ∧
    (∃ s, printUint 0xdeadbeef 10 false = some s ∧ parse digitValue 10 s = some 3735928559 ∧
      s.head? ≠ some (chr '0')) ∧
    ∃ s, printInt 0x8000000000000000 = some s ∧
      parseSigned (chr '-') digitValue 10 s = some (-9223372036854775808) := by
  obtain ⟨s, hs, hparse, hhead, _⟩ := print_number_exact.1 0xdeadbeef 16 true (Or.inr rfl)
  obtain ⟨t, ht, htparse, hthead, _⟩ := print_number_exact.1 0xdeadbeef 10 false (Or.inl rfl)
  obtain ⟨u, hu, huparse⟩ := print_number_exact.2 0x8000000000000000
  exact ⟨⟨s, hs, hparse, hhead (by decide)⟩, ⟨t, ht, htparse, hthead (by decide)⟩, u, hu, huparse⟩

end Number

example : printInt 0x8000000000000000 =
    some (['-', '9', '2', '2', '3', '3', '7', '2', '0', '3', '6', '8', '5', '4', '7', '7', '5',
      '8', '0', '8'].map chr) := by decide +kernel

end Dana
