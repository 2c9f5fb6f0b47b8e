import Dana.FormatScan

/-! What kvprintf of libkern/printf.c prints: a format is a list of pieces, and the output is what
the pieces mean for the arguments, one after the other. -/
namespace Dana
open ByteMem Numerals

/-- The characters from `s` up to the first NUL. -/
noncomputable def stringAt (mem : Mem) (s : Word) : List Byte :=
  ((List.range (2^64)).map fun i => mem (s+BitVec.ofNat 64 i)).takeWhile (· ≠ 0)

/-- A number as it is written, with "0" for 0. -/
def natText (upper : Bool) (b n : ℕ) : List Byte :=
  if n = 0 then [chr '0'] else numeral (digitChar upper) b n

def intText (v : ℤ) : List Byte :=
  if v < 0 then chr '-' :: natText false 10 v.natAbs else natText false 10 v.toNat

/-- What stands in a format; `wide` arguments are taken in all their 64 bits. -/
inductive Piece
  | text (c : Byte)
  | char
  | string
  | signed (wide : Bool)
  | unsigned (wide : Bool)
  | hex (wide : Bool)
  | hexUpper
  | pointer
  | percent
  | other (c : Byte)
  | skipped

/-- The spellings of the pieces. An unknown conversion stands for itself, an unknown long one for
nothing. -/
inductive Piece.Form : Piece → List Byte → Prop
  | text {c : Byte} (hc : c ≠ chr '%') (h0 : c ≠ 0) : Form (.text c) [c]
  | char : Form .char [chr '%', chr 'c']
  | string : Form .string [chr '%', chr 's']
  | int {c : Byte} (hc : c = chr 'd' ∨ c = chr 'i') : Form (.signed false) [chr '%', c]
  | long {c : Byte} (hc : c = chr 'd' ∨ c = chr 'i') : Form (.signed true) [chr '%', chr 'l', c]
  | longLong {c : Byte} (hc : c = chr 'd' ∨ c = chr 'i') :
    Form (.signed true) [chr '%', chr 'l', chr 'l', c]
  | unsigned : Form (.unsigned false) [chr '%', chr 'u']
  | unsignedLong : Form (.unsigned true) [chr '%', chr 'l', chr 'u']
  | unsignedLongLong : Form (.unsigned true) [chr '%', chr 'l', chr 'l', chr 'u']
  | hex : Form (.hex false) [chr '%', chr 'x']
  | hexLong : Form (.hex true) [chr '%', chr 'l', chr 'x']
  | hexLongLong : Form (.hex true) [chr '%', chr 'l', chr 'l', chr 'x']
  | hexUpper : Form .hexUpper [chr '%', chr 'X']
  | pointer : Form .pointer [chr '%', chr 'p']
  | percent : Form .percent [chr '%', chr '%']
  | other {c : Byte} (hc : c ∉ ['c', 's', 'd', 'i', 'u', 'x', 'X', 'p', 'l', '%'].map chr)
    (h0 : c ≠ 0) : Form (.other c) [chr '%', c]
  | otherLong {c : Byte} (hc : c ∉ ['d', 'i', 'u', 'x', 'l'].map chr) (h0 : c ≠ 0) :
    Form .skipped [chr '%', chr 'l', c]
  | otherLongLong {c : Byte} (hc : c ∉ ['d', 'i', 'u', 'x'].map chr) (h0 : c ≠ 0) :
    Form .skipped [chr '%', chr 'l', chr 'l', c]

/-- A format without its NUL. -/
inductive Forms : List Piece → List Byte → Prop
  | nil : Forms [] []
  | cons {p : Piece} {ps : List Piece} {u s : List Byte} (hu : p.Form u) (hs : Forms ps s) :
    Forms (p :: ps) (u ++ s)

/-- The pieces that take an argument. -/
def Piece.takes : Piece → Bool
  | .text _ | .percent | .other _ | .skipped => false
  | _ => true

/-- What a piece prints when the next argument is `a`. -/
noncomputable def Piece.print (mem : Mem) (a : Word) : Piece → List Byte
  | .text c => [c]
  | .char => [a.setWidth 8]
  | .string => if a = 0 then ['(', 'n', 'u', 'l', 'l', ')'].map chr else stringAt mem a
  | .signed wide => intText (if wide then a.toInt else (a.setWidth 32).toInt)
  | .unsigned wide => natText false 10 (if wide then a.toNat else (a.setWidth 32).toNat)
  | .hex wide => natText false 16 (if wide then a.toNat else (a.setWidth 32).toNat)
  | .hexUpper => natText true 16 (a.setWidth 32).toNat
  | .pointer => ['0', 'x'].map chr ++ natText false 16 a.toNat
  | .percent => [chr '%']
  | .other c => [chr '%', c]
  | .skipped => []

/-- The pieces in order, with the arguments from number `k` on. -/
noncomputable def meaning (mem : Mem) (args : ℕ → Word) : ℕ → List Piece → List Byte
  | _, [] => []
  | k, p :: ps => p.print mem (args k) ++ meaning mem args (if p.takes then k+1 else k) ps

section Print
variable {mem : Mem}

theorem printUint_text {base : BitVec 32} (hb : 1 < base.toNat) (val : Word) (upper : Bool) :
    printUint val base upper = some (natText upper base.toNat val.toNat) := by
  by_cases hz : val = 0
  · rw [hz, printUint, if_pos rfl]
    rfl
  · have hnat : val.toNat ≠ 0 := fun hc => hz (BitVec.eq_of_toNat_eq hc)
    rw [printUint_numeral hb hz, natText, if_neg hnat]

theorem printInt_text (val : Word) : printInt val = some (intText val.toInt) := by
  have hv := BitVec.toInt_eq_toNat_cond val
  have hneg : val.slt 0 = true ↔ val.toInt < 0 := by simp [BitVec.slt]
  rw [printInt, intText]
  split_ifs with hs h h
  · rw [printUint_text (by decide), Option.map_some]
    have habs : (-val).toNat = val.toInt.natAbs := by
      rw [BitVec.toNat_neg]
      split_ifs at hv <;> omega
    rw [habs]
    rfl
  · exact absurd (hneg.mp hs) h
  · exact absurd (hneg.mpr h) hs
  · rw [printUint_text (by decide)]
    have hpos : val.toNat = val.toInt.toNat := by
      split_ifs at hv <;> omega
    rw [hpos]
    rfl

/-- The loop of `print_str` goes to the first NUL. -/
theorem printStrLoop_takeWhile {fuel n : ℕ} {s : Word} (hn : n < fuel)
    (hz : mem (s+BitVec.ofNat 64 n) = 0) : printStrLoop mem fuel s =
      some (((List.range fuel).map fun i => mem (s+BitVec.ofNat 64 i)).takeWhile (· ≠ 0)) := by
  induction fuel generalizing n s with
  | zero => omega
  | succ fuel ih =>
    have hnext (i : ℕ) : s+BitVec.ofNat 64 (i+1) = s+1+BitVec.ofNat 64 i := by
      rw [Nat.add_comm, BitVec.ofNat_add, ← BitVec.add_assoc]
      rfl
    have hlist : (List.range (fuel+1)).map (fun i => mem (s+BitVec.ofNat 64 i)) =
        mem s :: (List.range fuel).map fun i => mem (s+1+BitVec.ofNat 64 i) := by
      rw [List.range_succ_eq_map, List.map_cons, List.map_map]
      congr 1
      · exact congrArg mem (BitVec.add_zero s)
      · exact List.map_congr_left fun i _ => congrArg mem (hnext i)
    rw [hlist, printStrLoop]
    split_ifs with h0
    · rw [List.takeWhile_cons_of_neg (by simpa using h0)]
    · rw [List.takeWhile_cons_of_pos (by simpa using h0)]
      cases n with
      | zero => exact absurd ((congrArg mem (BitVec.add_zero s)).symm.trans hz) h0
      | succ n =>
        rw [hnext] at hz
        rw [ih (by omega) hz, Option.map_some]

theorem printStr_text {z : Word} (hz : mem z = 0) (a : Word) :
    printStr mem a = some (Piece.string.print mem a) := by
  rw [printStr, Piece.print]
  split_ifs
  · rfl
  · apply printStrLoop_takeWhile (z-a).isLt
    rw [BitVec.ofNat_toNat, BitVec.setWidth_eq, BitVec.add_comm, BitVec.sub_add_cancel]
    exact hz

end Print

section Scan
variable {mem : Mem} {fmt : Word} {args : ℕ → Word} {i : ℕ} {u : List Byte}

/-- A piece has been gone over: `st'` has its output and its argument. -/
def PieceDone (mem : Mem) (args : ℕ → Word) (p : Piece) (st st' : Formatted) : Prop :=
  st'.out = st.out ++ p.print mem (args st.arg) ∧
    st'.arg = if p.takes then st.arg+1 else st.arg

theorem Formatted.take_done (st : Formatted) {p : Piece} {s : Option (List Byte)}
    (hp : p.takes = true) (hs : s = some (p.print mem (args st.arg))) :
    ∃ st', st.take s = some st' ∧ PieceDone mem args p st st' := by
  rw [hs]
  exact ⟨_, rfl, rfl, by rw [hp]; rfl⟩

theorem Formatted.put_done (st : Formatted) {p : Piece} {s : Option (List Byte)}
    (hp : p.takes = false) (hs : s = some (p.print mem (args st.arg))) :
    ∃ st', st.put s = some st' ∧ PieceDone mem args p st st' := by
  rw [hs]
  exact ⟨_, rfl, rfl, by rw [hp]; rfl⟩

/-- The conversions of one character. -/
theorem kvprintfOne_piece {z : Word} (hz : mem z = 0) (args : ℕ → Word) {p : Piece} {c : Byte}
    (hl : c ≠ chr 'l') (hp : p.Form [chr '%', c]) (st : Formatted) :
    ∃ st', kvprintfOne mem args c st = some st' ∧ PieceDone mem args p st st' := by
  have hten : 1 < (10 : BitVec 32).toNat := by decide
  have hsixteen : 1 < (16 : BitVec 32).toNat := by decide
  have hlow (a : Word) : ((a.setWidth 32).setWidth 64 : Word).toNat = (a.setWidth 32).toNat := by
    rw [BitVec.toNat_setWidth, Nat.mod_eq_of_lt ((a.setWidth 32).isLt.trans (by decide))]
  cases hp with
  | char =>
    simp +decide only [kvprintfOne, ↓reduceIte]
    exact st.take_done rfl rfl
  | string =>
    simp +decide only [kvprintfOne, ↓reduceIte]
    exact st.take_done rfl (printStr_text hz _)
  | int hc =>
    have hprint : kvprintfOne mem args c st =
        st.take (printInt (((args st.arg).setWidth 32).signExtend 64)) := by
      rcases hc with rfl | rfl <;> simp +decide only [kvprintfOne, ↓reduceIte]
    rw [hprint]
    exact st.take_done rfl (by rw [printInt_text, BitVec.toInt_signExtend_of_le (by decide)]; rfl)
  | unsigned =>
    simp +decide only [kvprintfOne, ↓reduceIte]
    exact st.take_done rfl (by rw [printUint_text hten, hlow]; rfl)
  | hex =>
    simp +decide only [kvprintfOne, ↓reduceIte]
    exact st.take_done rfl (by rw [printUint_text hsixteen, hlow]; rfl)
  | hexUpper =>
    simp +decide only [kvprintfOne, ↓reduceIte]
    exact st.take_done rfl (by rw [printUint_text hsixteen, hlow]; rfl)
  | pointer =>
    simp +decide only [kvprintfOne, ↓reduceIte]
    exact st.take_done rfl (by rw [printUint_text hsixteen]; rfl)
  | percent =>
    simp +decide only [kvprintfOne, ↓reduceIte]
    exact st.put_done rfl rfl
  | other hc h0 =>
    simp only [List.map_cons, List.map_nil, List.mem_cons, List.not_mem_nil, or_false, not_or] at hc
    simp only [kvprintfOne, hc, or_self, if_false]
    exact st.put_done rfl rfl

/-- The conversions after 'l' and after 'll', which are the same. -/
theorem kvprintfLong_piece (mem : Mem) (args : ℕ → Word) {p : Piece} {c : Byte}
    (hp : p.Form [chr '%', chr 'l', chr 'l', c]) (st : Formatted) :
    ∃ st', kvprintfLong args c st = some st' ∧ PieceDone mem args p st st' := by
  have hten : 1 < (10 : BitVec 32).toNat := by decide
  have hsixteen : 1 < (16 : BitVec 32).toNat := by decide
  cases hp with
  | longLong hc =>
    rw [kvprintfLong, if_pos hc]
    exact st.take_done rfl (printInt_text _)
  | unsignedLongLong =>
    simp +decide only [kvprintfLong, ↓reduceIte]
    exact st.take_done rfl (printUint_text hten _ _)
  | hexLongLong =>
    simp +decide only [kvprintfLong, ↓reduceIte]
    exact st.take_done rfl (printUint_text hsixteen _ _)
  | otherLongLong hc h0 =>
    simp only [List.map_cons, List.map_nil, List.mem_cons, List.not_mem_nil, or_false, not_or] at hc
    simp only [kvprintfLong, hc, or_self, if_false]
    exact ⟨st, rfl, (List.append_nil _).symm, rfl⟩

/-- A piece is a character, or a conversion with none, one or two 'l'; those with one mean the
same with two. -/
theorem Piece.Form.shape {p : Piece} (hp : p.Form u) :
    (∃ c, u = [c] ∧ p = .text c ∧ c ≠ chr '%' ∧ c ≠ 0) ∨
    (∃ c, u = [chr '%', c] ∧ c ≠ chr 'l') ∨
    (∃ c, u = [chr '%', chr 'l', c] ∧ c ≠ chr 'l' ∧ p.Form [chr '%', chr 'l', chr 'l', c]) ∨
    ∃ c, u = [chr '%', chr 'l', chr 'l', c] := by
  have hne : ∀ {c}, (c = chr 'd' ∨ c = chr 'i') → c ≠ chr 'l' := by
    rintro c (rfl | rfl) <;> decide
  cases hp with
  | text hc h0 => exact Or.inl ⟨_, rfl, rfl, hc, h0⟩
  | int hc => exact Or.inr (Or.inl ⟨_, rfl, hne hc⟩)
  | other hc h0 =>
    exact Or.inr (Or.inl ⟨_, rfl, fun he => hc (he ▸ List.mem_map_of_mem (by decide))⟩)
  | long hc => exact Or.inr (Or.inr (Or.inl ⟨_, rfl, hne hc, .longLong hc⟩))
  | unsignedLong => exact Or.inr (Or.inr (Or.inl ⟨_, rfl, by decide, .unsignedLongLong⟩))
  | hexLong => exact Or.inr (Or.inr (Or.inl ⟨_, rfl, by decide, .hexLongLong⟩))
  | @otherLong c hc h0 =>
    have hl : c ≠ chr 'l' := fun he => hc (he ▸ List.mem_map_of_mem (by decide))
    have hsub : ['d', 'i', 'u', 'x'].map chr ⊆ ['d', 'i', 'u', 'x', 'l'].map chr :=
      List.map_subset chr (by decide)
    have hin := fun hmem => hc (hsub hmem)
    exact Or.inr (Or.inr (Or.inl ⟨_, rfl, hl, .otherLongLong hin h0⟩))
  | longLong _ | unsignedLongLong | hexLongLong | otherLongLong _ _ =>
    exact Or.inr (Or.inr (Or.inr ⟨_, rfl⟩))
  | char | string | unsigned | hex | hexUpper | pointer | percent =>
    exact Or.inr (Or.inl ⟨_, rfl, by decide⟩)

/-- A round of the loop goes over a piece. -/
theorem kvprintfLoop_piece {z : Word} (hz : mem z = 0) (args : ℕ → Word) {p : Piece}
    (hp : p.Form u) (hs : Spells mem fmt i u) (st : Formatted) :
    ∃ st', (∀ fuel, kvprintfLoop mem fmt args (fuel+1) i st =
      kvprintfLoop mem fmt args fuel (i+u.length) st') ∧ PieceDone mem args p st st' := by
  have hpercent : chr '%' ≠ 0 := by decide
  rcases hp.shape with ⟨c, rfl, rfl, hc, h0⟩ | ⟨c, rfl, hc⟩ | ⟨c, rfl, hc, hlong⟩ | ⟨c, rfl⟩
  · obtain ⟨hi, -⟩ := hs
    refine ⟨{st.read i with out := st.out ++ [c]}, fun fuel => ?_, rfl, rfl⟩
    rw [kvprintfLoop, hi, if_neg h0, if_neg hc]
    rfl
  · obtain ⟨hi, h1, -⟩ := hs
    obtain ⟨st', hrun, hdone⟩ := kvprintfOne_piece hz args hc hp ((st.read i).read (i+1))
    refine ⟨st', fun fuel => ?_, hdone⟩
    rw [kvprintfLoop, hi, if_neg hpercent, if_pos rfl, kvprintfConv, h1, if_neg hc, hrun]
    rfl
  · obtain ⟨hi, h1, h2, -⟩ := hs
    obtain ⟨st', hrun, hdone⟩ := kvprintfLong_piece mem args hlong
      (((st.read i).read (i+1)).read (i+2))
    refine ⟨st', fun fuel => ?_, hdone⟩
    rw [kvprintfLoop, hi, if_neg hpercent, if_pos rfl, kvprintfConv, h1, if_pos rfl, h2, if_neg hc,
      hrun]
    rfl
  · obtain ⟨hi, h1, h2, h3, -⟩ := hs
    obtain ⟨st', hrun, hdone⟩ := kvprintfLong_piece mem args hp
      ((((st.read i).read (i+1)).read (i+2)).read (i+3))
    refine ⟨st', fun fuel => ?_, hdone⟩
    rw [kvprintfLoop, hi, if_neg hpercent, if_pos rfl, kvprintfConv, h1, if_pos rfl, h2, if_pos rfl,
      h3, hrun]
    rfl

/-- The loop goes over a format piece by piece. -/
theorem kvprintfLoop_forms {z : Word} (hz : mem z = 0) (args : ℕ → Word) {ps : List Piece}
    (hps : Forms ps u) (hs : Spells mem fmt i u) (st : Formatted) :
    ∃ k st', (∀ fuel, kvprintfLoop mem fmt args (fuel+k) i st =
        kvprintfLoop mem fmt args fuel (i+u.length) st') ∧
      st'.out = st.out ++ meaning mem args st.arg ps ∧ st'.arg = st.arg+ps.countP Piece.takes := by
  induction hps generalizing i st with
  | nil => exact ⟨0, st, fun _ => rfl, (List.append_nil _).symm, rfl⟩
  | @cons p ps u s hu _ ih =>
    obtain ⟨hsu, hss⟩ := spells_append.mp hs
    obtain ⟨t, hstep, hout, harg⟩ := kvprintfLoop_piece hz args hu hsu st
    obtain ⟨k, st', hrun, hout', harg'⟩ := ih hss t
    refine ⟨k+1, st', fun fuel => ?_, ?_, ?_⟩
    · rw [← Nat.add_assoc, hstep, hrun, List.length_append, Nat.add_assoc]
    · rw [hout', hout, harg, meaning, List.append_assoc]
    · rw [harg', harg, List.countP_cons]
      split_ifs <;> omega

/-- Every conversion is one of the pieces. -/
theorem Conversion.form (hu : Conversion u) (hu0 : 0 ∉ u) : ∃ p : Piece, p.Form u := by
  cases hu with
  | @one c hl =>
    have hc0 : c ≠ 0 := fun he => hu0 (by simp [he])
    by_cases hc : c ∈ ['c', 's', 'd', 'i', 'u', 'x', 'X', 'p', 'l', '%'].map chr
    · simp only [List.map_cons, List.map_nil, List.mem_cons, List.not_mem_nil, or_false] at hc
      rcases hc with rfl | rfl | rfl | rfl | rfl | rfl | rfl | rfl | rfl | rfl
      · exact ⟨_, .char⟩
      · exact ⟨_, .string⟩
      · exact ⟨_, .int (Or.inl rfl)⟩
      · exact ⟨_, .int (Or.inr rfl)⟩
      · exact ⟨_, .unsigned⟩
      · exact ⟨_, .hex⟩
      · exact ⟨_, .hexUpper⟩
      · exact ⟨_, .pointer⟩
      · exact absurd rfl hl
      · exact ⟨_, .percent⟩
    · exact ⟨_, .other hc hc0⟩
  | @long c hl =>
    have hc0 : c ≠ 0 := fun he => hu0 (by simp [he])
    by_cases hc : c ∈ ['d', 'i', 'u', 'x', 'l'].map chr
    · simp only [List.map_cons, List.map_nil, List.mem_cons, List.not_mem_nil, or_false] at hc
      rcases hc with rfl | rfl | rfl | rfl | rfl
      · exact ⟨_, .long (Or.inl rfl)⟩
      · exact ⟨_, .long (Or.inr rfl)⟩
      · exact ⟨_, .unsignedLong⟩
      · exact ⟨_, .hexLong⟩
      · exact absurd rfl hl
    · exact ⟨_, .otherLong hc hc0⟩
  | longLong c =>
    have hc0 : c ≠ 0 := fun he => hu0 (by simp [he])
    by_cases hc : c ∈ ['d', 'i', 'u', 'x'].map chr
    · simp only [List.map_cons, List.map_nil, List.mem_cons, List.not_mem_nil, or_false] at hc
      rcases hc with rfl | rfl | rfl | rfl
      · exact ⟨_, .longLong (Or.inl rfl)⟩
      · exact ⟨_, .longLong (Or.inr rfl)⟩
      · exact ⟨_, .unsignedLongLong⟩
      · exact ⟨_, .hexLongLong⟩
    · exact ⟨_, .otherLongLong hc hc0⟩

/-- Every whole format is spelled by pieces. -/
theorem Whole.forms {s : List Byte} (hs : Whole s) (h0 : 0 ∉ s) : ∃ ps, Forms ps s := by
  induction hs with
  | nil => exact ⟨[], .nil⟩
  | @plain c s hc _ ih =>
    obtain ⟨ps, hps⟩ := ih fun he => h0 (List.mem_cons_of_mem _ he)
    exact ⟨_, .cons (.text hc fun he => h0 (he ▸ List.mem_cons_self)) hps⟩
  | @conv u s hu _ ih =>
    obtain ⟨ps, hps⟩ := ih fun he => h0 (List.mem_append_right _ he)
    have hu0 : 0 ∉ u := fun he => h0 (List.mem_append_left _ he)
    obtain ⟨p, hp⟩ := hu.form hu0
    exact ⟨_, .cons hp hps⟩

theorem Piece.Form.no_nul {p : Piece} (hp : p.Form u) : 0 ∉ u := by
  have hdi : ∀ {c}, (c = chr 'd' ∨ c = chr 'i') → c ≠ 0 := by
    rintro c (rfl | rfl) <;> decide
  cases hp with
  | text _ h0 => simpa using Ne.symm h0
  | int hc => simpa +decide using Ne.symm (hdi hc)
  | long hc => simpa +decide using Ne.symm (hdi hc)
  | longLong hc => simpa +decide using Ne.symm (hdi hc)
  | other _ h0 => simpa +decide using Ne.symm h0
  | otherLong _ h0 => simpa +decide using Ne.symm h0
  | otherLongLong _ h0 => simpa +decide using Ne.symm h0
  | _ => decide

theorem Forms.no_nul {ps : List Piece} (hps : Forms ps u) : 0 ∉ u := by
  induction hps with
  | nil => exact List.not_mem_nil
  | cons hu _ ih =>
    intro hmem
    rcases List.mem_append.mp hmem with h | h
    · exact hu.no_nul h
    · exact ih h

theorem Forms.whole {ps : List Piece} (hps : Forms ps u) : Whole u := by
  induction hps with
  | nil => exact .nil
  | cons hu _ ih =>
    rcases hu.shape with ⟨c, rfl, -, hc, -⟩ | ⟨c, rfl, hc⟩ | ⟨c, rfl, hc, -⟩ | ⟨c, rfl⟩
    · exact .plain hc ih
    · exact .conv (.one hc) ih
    · exact .conv (.long hc) ih
    · exact .conv (.longLong c) ih

end Scan

/-- A format that does not end inside a conversion is spelled by pieces, and however it is, kvprintf
prints what they mean for the arguments in order and takes as many as they need. -/
theorem kvprintf_prints (mem : Mem) (fmt : Word) {n : ℕ} (hend : fmtAt mem fmt n = 0)
    (hin : ∀ i < n, fmtAt mem fmt i ≠ 0) (hw : Whole ((List.range n).map (fmtAt mem fmt))) :
    (∃ ps, Forms ps ((List.range n).map (fmtAt mem fmt))) ∧
    ∀ ps, Forms ps ((List.range n).map (fmtAt mem fmt)) → ∀ args, ∃ fuel st,
      kvprintf mem fmt args fuel = some st ∧ st.out = meaning mem args 0 ps ∧
        st.arg = ps.countP Piece.takes := by
  have h0 : 0 ∉ (List.range n).map (fmtAt mem fmt) := by
    intro hmem
    obtain ⟨i, hi, hz⟩ := List.mem_map.mp hmem
    exact hin i (List.mem_range.mp hi) hz
  have hs : Spells mem fmt 0 ((List.range n).map (fmtAt mem fmt)) := by
    rw [List.range_eq_range']
    exact spells_range n
  refine ⟨hw.forms h0, fun ps hps args => ?_⟩
  obtain ⟨k, st, hrun, hout, harg⟩ := kvprintfLoop_forms hend args hps hs ⟨[], 0, []⟩
  rw [List.length_map, List.length_range, Nat.zero_add] at hrun
  refine ⟨1+k, st.read n, (hrun 1).trans (kvprintfLoop_end hend args st 0), hout, ?_⟩
  exact harg.trans (Nat.zero_add _)

/-- "x%d%%" prints an 'x', the number and a '%'. -/
theorem kvprintf_prints_int : ∃ fuel st,
    kvprintf (stringMem ['x', '%', 'd', '%', '%']) 0x1000 (fun _ => 0xfffffff4) fuel = some st ∧
      st.out = ['x', '-', '1', '2', '%'].map chr ∧ st.arg = 1 := by
  have hform : Forms [.text (chr 'x'), .signed false, .percent]
      (['x', '%', 'd', '%', '%'].map chr) :=
    .cons (.text (by decide) (by decide)) (.cons (.int (Or.inl rfl)) (.cons .percent .nil))
  have hp : Conversion [chr '%', chr '%'] := Conversion.one (by decide)
  have hw : Whole (['x', '%', 'd', '%', '%'].map chr) := Whole.plain (by decide)
    (Whole.conv (Conversion.one (c := chr 'd') (by decide)) (Whole.conv hp Whole.nil))
  obtain ⟨fuel, st, hrun, hout, harg⟩ := (kvprintf_prints
    (stringMem ['x', '%', 'd', '%', '%']) 0x1000 (n := 5) (by decide) (by decide) hw).2 _ hform
    (fun _ => 0xfffffff4)
  refine ⟨fuel, st, hrun, hout.trans ?_, harg⟩
  have hval : ((0xfffffff4 : Word).setWidth 32).toInt = -12 := by decide
  have hint : intText (-12) = ['-', '1', '2'].map chr := by decide
  change [chr 'x'] ++ (intText ((0xfffffff4 : Word).setWidth 32).toInt ++ ([chr '%'] ++ [])) = _
  rw [hval, hint]
  rfl

end Dana
