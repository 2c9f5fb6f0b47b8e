import Mathlib.Data.Nat.Digits.Lemmas

/-! Positional numerals over any characters: `char` writes a digit, `digit` reads one, and a
numeral is read from its most significant digit on. -/
namespace Numerals

variable {C : Type*} {digit : C → Option ℕ} {char : ℕ → C} {b n : ℕ}

/-- Read on after characters of value `acc`. -/
def parseFrom (digit : C → Option ℕ) (b : ℕ) : ℕ → List C → Option ℕ
  | acc, [] => some acc
  | acc, c :: cs => (digit c).bind fun d =>
    if d < b then parseFrom digit b (b*acc+d) cs else none

/-- The value of a numeral, which has at least one digit. -/
def parse (digit : C → Option ℕ) (b : ℕ) (s : List C) : Option ℕ :=
  if s.isEmpty then none else parseFrom digit b 0 s

/-- The value of a numeral that may have a sign. -/
def parseSigned [DecidableEq C] (minus : C) (digit : C → Option ℕ) (b : ℕ) : List C → Option ℤ
  | [] => none
  | c :: cs => if c = minus then (parse digit b cs).map fun n : ℕ => -(n : ℤ)
    else (parse digit b (c :: cs)).map fun n : ℕ => (n : ℤ)

/-- The digits of `n` without leading zeros, so none for 0. -/
def numeral (char : ℕ → C) (b n : ℕ) : List C := ((b.digits n).map char).reverse

/-- `digit` reads what `char` writes. -/
def Reads (digit : C → Option ℕ) (char : ℕ → C) (b : ℕ) : Prop :=
  ∀ d < b, digit (char d) = some d

theorem parseFrom_append (acc : ℕ) (s t : List C) : parseFrom digit b acc (s ++ t) =
    (parseFrom digit b acc s).bind fun v => parseFrom digit b v t := by
  induction s generalizing acc with
  | nil => rfl
  | cons c s ih =>
    rw [List.cons_append, parseFrom, parseFrom]
    cases hd : digit c with
    | none => rfl
    | some d =>
      rw [Option.bind_some, Option.bind_some]
      split_ifs
      · exact ih _
      · rfl

theorem parseFrom_digits (hr : Reads digit char b) (acc : ℕ) {l : List ℕ} (hl : ∀ d ∈ l, d < b) :
    parseFrom digit b acc (l.map char).reverse = some (b^l.length*acc+Nat.ofDigits b l) := by
  induction l with
  | nil => simp [parseFrom, Nat.ofDigits]
  | cons d l ih =>
    have hd : d < b := hl d List.mem_cons_self
    have hsum : b*(b^l.length*acc+Nat.ofDigits b l)+d =
        b^(l.length+1)*acc+(d+b*Nat.ofDigits b l) := by ring
    rw [List.map_cons, List.reverse_cons, parseFrom_append,
      ih fun x hx => hl x (List.mem_cons_of_mem _ hx), Option.bind_some, parseFrom, hr d hd,
      Option.bind_some, if_pos hd, parseFrom, hsum]
    rfl

theorem numeral_ne_nil (hn : n ≠ 0) : numeral char b n ≠ [] := by
  have hdigits := Nat.digits_ne_nil_iff_ne_zero (b := b).mpr hn
  simpa [numeral] using hdigits

/-- Repeated division gives the digits from the last on. -/
theorem numeral_step (hb : 1 < b) (hn : 0 < n) :
    numeral char b n = numeral char b (n/b) ++ [char (n%b)] := by
  rw [numeral, Nat.digits_def' hb hn, List.map_cons, List.reverse_cons]
  rfl

/-- A numeral reads back as its number. -/
theorem parse_numeral (hb : 1 < b) (hr : Reads digit char b) (hn : n ≠ 0) :
    parse digit b (numeral char b n) = some n := by
  have hne : (numeral char b n).isEmpty = false := by
    simpa using numeral_ne_nil hn
  rw [parse, hne, if_neg Bool.false_ne_true, numeral,
    parseFrom_digits hr 0 fun d hd => Nat.digits_lt_base hb hd, Nat.ofDigits_digits, Nat.mul_zero,
    Nat.zero_add]

/-- It does not begin with the digit 0. -/
theorem numeral_head (hb : 1 < b) (hr : Reads digit char b) (hn : n ≠ 0) :
    (numeral char b n).head? ≠ some (char 0) := by
  have hne := Nat.digits_ne_nil_iff_ne_zero (b := b).mpr hn
  have hlast := Nat.getLast_digit_ne_zero b hn
  have hlt := Nat.digits_lt_base hb (List.getLast_mem hne)
  intro hhead
  rw [numeral, List.head?_reverse, List.getLast?_map, List.getLast?_eq_some_getLast hne,
    Option.map_some] at hhead
  have hread := hr _ hlt
  rw [Option.some.inj hhead, hr 0 (by omega)] at hread
  exact hlast (Option.some.inj hread).symm

theorem parse_singleton (hb : 0 < b) {c : C} (hc : digit c = some 0) :
    parse digit b [c] = some 0 := by
  rw [parse, List.isEmpty_cons, if_neg Bool.false_ne_true, parseFrom, hc, Option.bind_some,
    if_pos hb]
  rfl

section Signed
variable [DecidableEq C] {minus : C} {s : List C}

theorem parseSigned_minus (hs : parse digit b s = some n) :
    parseSigned minus digit b (minus :: s) = some (-(n : ℤ)) := by
  rw [parseSigned, if_pos rfl, hs, Option.map_some]

theorem parseSigned_plain (hm : digit minus = none) (hs : parse digit b s = some n) :
    parseSigned minus digit b s = some (n : ℤ) := by
  cases s with
  | nil => cases hs
  | cons c cs =>
    have hc : c ≠ minus := by
      rintro rfl
      rw [parse, List.isEmpty_cons, if_neg Bool.false_ne_true, parseFrom, hm] at hs
      cases hs
    rw [parseSigned, if_neg hc, hs, Option.map_some]

end Signed

end Numerals
