import Dana.Printf

/-! The scan of a format by kvprintf of libkern/printf.c. Its index is a place in `fmt`, and each
place where the code looks at a new character is recorded. -/
namespace Dana
open ByteMem

/-- The character `fmt[i]`. -/
def fmtAt (mem : Mem) (fmt : Word) (i : ℕ) : Byte := mem (fmt+BitVec.ofNat 64 i)

/-- What has been emitted, how many arguments have been taken, and the indices of the format
that have been read. -/
structure Formatted where
  out : List Byte
  arg : ℕ
  reads : List ℕ
deriving DecidableEq

def Formatted.read (st : Formatted) (i : ℕ) : Formatted := {st with reads := st.reads ++ [i]}

def Formatted.put (st : Formatted) (s : Option (List Byte)) : Option Formatted :=
  s.map fun s => {st with out := st.out ++ s}

/-- `s` is printed from the next argument. -/
def Formatted.take (st : Formatted) (s : Option (List Byte)) : Option Formatted :=
  {st with arg := st.arg+1}.put s

def printStrLoop (mem : Mem) : ℕ → Word → Option (List Byte)
  | 0, _ => none
  | fuel+1, s => if mem s = 0 then some [] else (printStrLoop mem fuel (s+1)).map (mem s :: ·)

def printStr (mem : Mem) (s : Word) : Option (List Byte) :=
  if s = 0 then some (['(', 'n', 'u', 'l', 'l', ')'].map chr) else printStrLoop mem (2^64) s

/-- The conversions of one character `c` after '%'. An argument is a 64-bit slot, of which an
`int` is the low half. -/
def kvprintfOne (mem : Mem) (args : ℕ → Word) (c : Byte) (st : Formatted) : Option Formatted :=
  let a := args st.arg
  if c = chr 'c' then st.take (some [a.setWidth 8])
  else if c = chr 's' then st.take (printStr mem a)
  else if c = chr 'd' ∨ c = chr 'i' then st.take (printInt ((a.setWidth 32).signExtend 64))
  else if c = chr 'u' then st.take (printUint ((a.setWidth 32).setWidth 64) 10 false)
  else if c = chr 'x' then st.take (printUint ((a.setWidth 32).setWidth 64) 16 false)
  else if c = chr 'X' then st.take (printUint ((a.setWidth 32).setWidth 64) 16 true)
  else if c = chr 'p' then
    st.take ((printUint a 16 false).map fun s => ['0', 'x'].map chr ++ s)
  else if c = chr '%' then st.put (some [chr '%'])
  else st.put (some [chr '%', c])

/-- The conversions after 'l' and after 'll', where `long` and `long long` are both 64 bits. -/
def kvprintfLong (args : ℕ → Word) (c : Byte) (st : Formatted) : Option Formatted :=
  let a := args st.arg
  if c = chr 'd' ∨ c = chr 'i' then st.take (printInt a)
  else if c = chr 'u' then st.take (printUint a 10 false)
  else if c = chr 'x' then st.take (printUint a 16 false)
  else some st

/-- From the '%' at `i`: the index where the `switch` leaves `fmt`, and the state there. -/
def kvprintfConv (mem : Mem) (fmt : Word) (args : ℕ → Word) (i : ℕ) (st : Formatted) :
    Option (ℕ × Formatted) :=
  if fmtAt mem fmt (i+1) = chr 'l' then
    if fmtAt mem fmt (i+2) = chr 'l' then
      (kvprintfLong args (fmtAt mem fmt (i+3)) (((st.read (i+1)).read (i+2)).read (i+3))).map
        fun st => (i+3, st)
    else
      (kvprintfLong args (fmtAt mem fmt (i+2)) ((st.read (i+1)).read (i+2))).map
        fun st => (i+2, st)
  else (kvprintfOne mem args (fmtAt mem fmt (i+1)) (st.read (i+1))).map fun st => (i+1, st)

/-- `for (; *fmt; fmt++)`; `none` when `fuel` rounds do not end it. -/
def kvprintfLoop (mem : Mem) (fmt : Word) (args : ℕ → Word) : ℕ → ℕ → Formatted → Option Formatted
  | 0, _, _ => none
  | fuel+1, i, st =>
    if fmtAt mem fmt i = 0 then some (st.read i)
    else if fmtAt mem fmt i = chr '%' then
      (kvprintfConv mem fmt args i (st.read i)).bind fun r =>
        kvprintfLoop mem fmt args fuel (r.1+1) r.2
    else
      ((st.read i).put (some [fmtAt mem fmt i])).bind fun st =>
        kvprintfLoop mem fmt args fuel (i+1) st

def kvprintf (mem : Mem) (fmt : Word) (args : ℕ → Word) (fuel : ℕ) : Option Formatted :=
  kvprintfLoop mem fmt args fuel 0 ⟨[], 0, []⟩

/-- A conversion with all its characters; any character may be its last. -/
inductive Conversion : List Byte → Prop
  | one {c : Byte} (hc : c ≠ chr 'l') : Conversion [chr '%', c]
  | long {c : Byte} (hc : c ≠ chr 'l') : Conversion [chr '%', chr 'l', c]
  | longLong (c : Byte) : Conversion [chr '%', chr 'l', chr 'l', c]

/-- A format that does not end inside a conversion. -/
inductive Whole : List Byte → Prop
  | nil : Whole []
  | plain {c : Byte} {s : List Byte} (hc : c ≠ chr '%') (hs : Whole s) : Whole (c :: s)
  | conv {u s : List Byte} (hu : Conversion u) (hs : Whole s) : Whole (u ++ s)

/-- The ways in which the end of a format can cut a conversion off. -/
def cutOffs : List (List Byte) := [['%'], ['%', 'l'], ['%', 'l', 'l']].map fun u => u.map chr

/-- `s` stands in the format from `i` on. -/
def Spells (mem : Mem) (fmt : Word) : ℕ → List Byte → Prop
  | _, [] => True
  | i, c :: s => fmtAt mem fmt i = c ∧ Spells mem fmt (i+1) s

section Formatted
variable {s : Option (List Byte)}

theorem Formatted.put_keeps (st : Formatted) (hs : ∃ t, s = some t) :
    ∃ st', st.put s = some st' ∧ st'.reads = st.reads := by
  obtain ⟨t, rfl⟩ := hs
  exact ⟨_, rfl, rfl⟩

theorem Formatted.take_keeps (st : Formatted) (hs : ∃ t, s = some t) :
    ∃ st', st.take s = some st' ∧ st'.reads = st.reads :=
  put_keeps _ hs

end Formatted

section Emit
variable {mem : Mem}

theorem printStrLoop_some {z : Word} (hz : mem z = 0) {fuel : ℕ} {s : Word}
    (hfuel : (z-s).toNat < fuel) : ∃ t, printStrLoop mem fuel s = some t := by
  induction fuel generalizing s with
  | zero => omega
  | succ fuel ih =>
    rw [printStrLoop]
    split_ifs with hs
    · exact ⟨[], rfl⟩
    have hne : z ≠ s := by
      rintro rfl
      exact hs hz
    obtain ⟨t, ht⟩ := ih (s := s+1) (by bv_omega)
    exact ⟨mem s :: t, by rw [ht, Option.map_some]⟩

/-- A memory that has a NUL ends every string. -/
theorem printStr_some {z : Word} (hz : mem z = 0) (s : Word) : ∃ t, printStr mem s = some t := by
  rw [printStr]
  split_ifs
  · exact ⟨_, rfl⟩
  · exact printStrLoop_some hz (z-s).isLt

theorem printUint_some (val : Word) {base : BitVec 32} (hbase : base = 10 ∨ base = 16)
    (upper : Bool) : ∃ s, printUint val base upper = some s := by
  have hb : 1 < base.toNat ∧ base.toNat ≤ 16 := by
    rcases hbase with rfl | rfl <;> decide
  obtain ⟨s, hs, _⟩ := printUint_parse hb.1 hb.2 val upper
  exact ⟨s, hs⟩

theorem printInt_some (v : Word) : ∃ s, printInt v = some s := by
  obtain ⟨s, hs, _⟩ := printInt_parse v
  exact ⟨s, hs⟩

theorem kvprintfOne_keeps {z : Word} (hz : mem z = 0) (args : ℕ → Word) (c : Byte)
    (st : Formatted) :
    ∃ st', kvprintfOne mem args c st = some st' ∧ st'.reads = st.reads := by
  rw [kvprintfOne]
  split_ifs
  · exact st.take_keeps ⟨_, rfl⟩
  · exact st.take_keeps (printStr_some hz _)
  · exact st.take_keeps (printInt_some _)
  · exact st.take_keeps (printUint_some _ (Or.inl rfl) _)
  · exact st.take_keeps (printUint_some _ (Or.inr rfl) _)
  · exact st.take_keeps (printUint_some _ (Or.inr rfl) _)
  · obtain ⟨s, hs⟩ := printUint_some (args st.arg) (Or.inr rfl) false
    rw [hs]
    exact st.take_keeps ⟨_, rfl⟩
  · exact st.put_keeps ⟨_, rfl⟩
  · exact st.put_keeps ⟨_, rfl⟩

theorem kvprintfLong_keeps (args : ℕ → Word) (c : Byte) (st : Formatted) :
    ∃ st', kvprintfLong args c st = some st' ∧ st'.reads = st.reads := by
  rw [kvprintfLong]
  split_ifs
  · exact st.take_keeps (printInt_some _)
  · exact st.take_keeps (printUint_some _ (Or.inl rfl) _)
  · exact st.take_keeps (printUint_some _ (Or.inr rfl) _)
  · exact ⟨st, rfl, rfl⟩

end Emit

section Scan
variable {mem : Mem} {fmt : Word} {i : ℕ} {u s : List Byte}

/-- The characters that the conversion at `i` takes after its '%'. -/
def convLength (mem : Mem) (fmt : Word) (i : ℕ) : ℕ :=
  if fmtAt mem fmt (i+1) = chr 'l' then if fmtAt mem fmt (i+2) = chr 'l' then 3 else 2 else 1

/-- A conversion always ends, and has read all the characters up to its last. -/
theorem kvprintfConv_spec {z : Word} (hz : mem z = 0) (fmt : Word) (args : ℕ → Word) (i : ℕ)
    (st : Formatted) :
    ∃ st', kvprintfConv mem fmt args i st = some (i+convLength mem fmt i, st') ∧
      st'.reads = st.reads ++ List.range' (i+1) (convLength mem fmt i) := by
  rw [kvprintfConv, convLength]
  split_ifs
  · obtain ⟨st', hst, hreads⟩ := kvprintfLong_keeps args (fmtAt mem fmt (i+3))
      (((st.read (i+1)).read (i+2)).read (i+3))
    refine ⟨st', by rw [hst, Option.map_some], hreads.trans ?_⟩
    simp [Formatted.read, List.range'_succ]
  · obtain ⟨st', hst, hreads⟩ := kvprintfLong_keeps args (fmtAt mem fmt (i+2))
      ((st.read (i+1)).read (i+2))
    refine ⟨st', by rw [hst, Option.map_some], hreads.trans ?_⟩
    simp [Formatted.read, List.range'_succ]
  · obtain ⟨st', hst, hreads⟩ := kvprintfOne_keeps hz args (fmtAt mem fmt (i+1)) (st.read (i+1))
    exact ⟨st', by rw [hst, Option.map_some], hreads⟩

theorem kvprintfLoop_end (hi : fmtAt mem fmt i = 0) (args : ℕ → Word) (st : Formatted)
    (fuel : ℕ) :
    kvprintfLoop mem fmt args (fuel+1) i st = some (st.read i) := by
  rw [kvprintfLoop, if_pos hi]

/-- A round at a '%' goes on after the conversion. -/
theorem kvprintfLoop_conv {z : Word} (hz : mem z = 0) (hi : fmtAt mem fmt i = chr '%')
    (args : ℕ → Word) (st : Formatted) :
    ∃ st', (∀ fuel, kvprintfLoop mem fmt args (fuel+1) i st =
        kvprintfLoop mem fmt args fuel (i+(convLength mem fmt i+1)) st') ∧
      st'.reads = st.reads ++ List.range' i (convLength mem fmt i+1) := by
  have hne : chr '%' ≠ 0 := by decide
  obtain ⟨st', hst, hreads⟩ := kvprintfConv_spec hz fmt args i (st.read i)
  refine ⟨st', fun fuel => ?_, hreads.trans ?_⟩
  · rw [kvprintfLoop, hi, if_neg hne, if_pos rfl, hst, Option.bind_some, Nat.add_assoc]
  · rw [List.range'_succ, Formatted.read, List.append_assoc]
    rfl

/-- A round at another character goes on at the next. -/
theorem kvprintfLoop_plain (h0 : fmtAt mem fmt i ≠ 0) (hi : fmtAt mem fmt i ≠ chr '%')
    (args : ℕ → Word) (st : Formatted) :
    ∃ st', (∀ fuel, kvprintfLoop mem fmt args (fuel+1) i st =
        kvprintfLoop mem fmt args fuel (i+1) st') ∧ st'.reads = st.reads ++ [i] :=
  ⟨_, fun fuel => by rw [kvprintfLoop, if_neg h0, if_neg hi, Formatted.put, Option.map_some,
    Option.bind_some], rfl⟩

/-- The index read by a round is read in every run that ends, and reads are never forgotten. -/
theorem kvprintfLoop_reads {z : Word} (hz : mem z = 0) {args : ℕ → Word} {fuel : ℕ}
    {st st' : Formatted}
    (hrun : kvprintfLoop mem fmt args fuel i st = some st') :
    i ∈ st'.reads ∧ st.reads ⊆ st'.reads := by
  induction fuel generalizing i st with
  | zero => cases hrun
  | succ fuel ih =>
    -- what the round has read by its end is kept by the rounds after it
    have hround : ∀ {j : ℕ} {t : Formatted} {r : List ℕ}, t.reads = st.reads ++ r → i ∈ r →
        kvprintfLoop mem fmt args fuel j t = some st' → i ∈ st'.reads ∧ st.reads ⊆ st'.reads := by
      intro j t r ht hir hrun
      have hsub := (ih hrun).2
      rw [ht] at hsub
      exact ⟨hsub (List.mem_append_right _ hir), fun x hx => hsub (List.mem_append_left _ hx)⟩
    by_cases h0 : fmtAt mem fmt i = 0
    · rw [kvprintfLoop_end h0] at hrun
      obtain rfl := Option.some.inj hrun
      exact ⟨List.mem_append_right _ List.mem_cons_self, List.subset_append_left _ _⟩
    by_cases hi : fmtAt mem fmt i = chr '%'
    · obtain ⟨t, hstep, ht⟩ := kvprintfLoop_conv hz hi args st
      rw [hstep] at hrun
      exact hround ht (List.mem_range'_1.mpr ⟨le_rfl, by omega⟩) hrun
    · obtain ⟨t, hstep, ht⟩ := kvprintfLoop_plain h0 hi args st
      rw [hstep] at hrun
      exact hround ht List.mem_cons_self hrun

/-- More fuel changes nothing in a run that ends. -/
theorem kvprintfLoop_mono {args : ℕ → Word} {fuel : ℕ} {st st' : Formatted}
    (hrun : kvprintfLoop mem fmt args fuel i st = some st') (k : ℕ) :
    kvprintfLoop mem fmt args (fuel+k) i st = some st' := by
  induction fuel generalizing i st with
  | zero => cases hrun
  | succ fuel ih =>
    rw [Nat.succ_add, kvprintfLoop]
    rw [kvprintfLoop] at hrun
    split_ifs at hrun ⊢ with h0 hi
    · exact hrun
    · obtain ⟨r, hr, hrun⟩ := Option.bind_eq_some_iff.mp hrun
      rw [hr, Option.bind_some]
      exact ih hrun
    · obtain ⟨t, ht, hrun⟩ := Option.bind_eq_some_iff.mp hrun
      rw [ht, Option.bind_some]
      exact ih hrun

theorem spells_append : Spells mem fmt i (u ++ s) ↔
    Spells mem fmt i u ∧ Spells mem fmt (i+u.length) s := by
  induction u generalizing i with
  | nil => simp [Spells]
  | cons c u ih =>
    rw [List.cons_append, Spells, Spells, ih, List.length_cons, and_assoc, Nat.add_assoc,
      Nat.add_comm 1]

theorem spells_range (n : ℕ) : Spells mem fmt i ((List.range' i n).map (fmtAt mem fmt)) := by
  induction n generalizing i with
  | zero => trivial
  | succ n ih => exact ⟨rfl, ih⟩

theorem Conversion.length_eq (hu : Conversion u) (hs : Spells mem fmt i u) :
    fmtAt mem fmt i = chr '%' ∧ convLength mem fmt i+1 = u.length := by
  cases hu with
  | one hc =>
    obtain ⟨h0, h1, -⟩ := hs
    exact ⟨h0, by rw [convLength, h1, if_neg hc]; rfl⟩
  | long hc =>
    obtain ⟨h0, h1, h2, -⟩ := hs
    exact ⟨h0, by rw [convLength, h1, h2, if_pos rfl, if_neg hc]; rfl⟩
  | longLong c =>
    obtain ⟨h0, h1, h2, -⟩ := hs
    exact ⟨h0, by rw [convLength, h1, h2, if_pos rfl, if_pos rfl]; rfl⟩

/-- Where the NUL cuts a conversion off, the conversion takes the NUL as its last character. -/
theorem cutOff_length (hu : u ∈ cutOffs) (hs : Spells mem fmt i u)
    (hend : fmtAt mem fmt (i+u.length) = 0) :
    fmtAt mem fmt i = chr '%' ∧ convLength mem fmt i = u.length := by
  have hne : (0 : Byte) ≠ chr 'l' := by decide
  simp only [cutOffs, List.map_cons, List.map_nil, List.mem_cons, List.not_mem_nil, or_false] at hu
  rcases hu with rfl | rfl | rfl <;>
    simp only [List.length_cons, List.length_nil, Nat.zero_add, Nat.reduceAdd] at hend
  · exact ⟨hs.1, by rw [convLength, hend, if_neg hne]; rfl⟩
  · obtain ⟨h0, h1, -⟩ := hs
    exact ⟨h0, by rw [convLength, h1, hend, if_pos rfl, if_neg hne]; rfl⟩
  · obtain ⟨h0, h1, h2, -⟩ := hs
    exact ⟨h0, by rw [convLength, h1, h2, if_pos rfl, if_pos rfl]; rfl⟩

/-- The loop goes over a whole format to the character after it, and reads every character of
it once. -/
theorem kvprintfLoop_whole {z : Word} (hz : mem z = 0) (hu : Whole u)
    (hs : Spells mem fmt i u) (h0 : 0 ∉ u) (args : ℕ → Word) (st : Formatted) :
    ∃ k st', (∀ fuel, kvprintfLoop mem fmt args (fuel+k) i st =
        kvprintfLoop mem fmt args fuel (i+u.length) st') ∧
      st'.reads = st.reads ++ List.range' i u.length := by
  induction hu generalizing i st with
  | nil => exact ⟨0, st, fun _ => rfl, (List.append_nil _).symm⟩
  | @plain c s hc _ ih =>
    obtain ⟨hi, hs⟩ := hs
    have hc0 : c ≠ 0 := fun hc => h0 (hc ▸ List.mem_cons_self)
    obtain ⟨t, hstep, ht⟩ := kvprintfLoop_plain (by rw [hi]; exact hc0) (by rw [hi]; exact hc)
      args st
    obtain ⟨k, st', hrun, hreads⟩ := ih hs (fun hc => h0 (List.mem_cons_of_mem _ hc)) t
    refine ⟨k+1, st', fun fuel => ?_, ?_⟩
    · rw [← Nat.add_assoc, hstep, hrun, List.length_cons, Nat.add_assoc, Nat.add_comm 1]
    · rw [hreads, ht, List.append_assoc, List.length_cons, List.range'_succ]
      rfl
  | @conv u s hu _ ih =>
    obtain ⟨hsu, hss⟩ := spells_append.mp hs
    obtain ⟨hi, hlen⟩ := hu.length_eq hsu
    obtain ⟨t, hstep, ht⟩ := kvprintfLoop_conv hz hi args st
    rw [hlen] at hstep ht
    obtain ⟨k, st', hrun, hreads⟩ := ih hss (fun hc => h0 (List.mem_append_right _ hc)) t
    refine ⟨k+1, st', fun fuel => ?_, ?_⟩
    · rw [← Nat.add_assoc, hstep, hrun, List.length_append, Nat.add_assoc]
    · rw [hreads, ht, List.append_assoc, List.length_append, List.range'_append_1]

/-- Every format is whole up to a conversion that its end cuts off, or whole. -/
theorem whole_or_cutOff (s : List Byte) : Whole s ∨ ∃ u, ∃ t ∈ cutOffs, Whole u ∧ s = u ++ t := by
  -- what follows a conversion or a plain character is split first
  have hconv {v s : List Byte} (hv : Conversion v)
      (hs : Whole s ∨ ∃ u, ∃ t ∈ cutOffs, Whole u ∧ s = u ++ t) :
      Whole (v ++ s) ∨ ∃ u, ∃ t ∈ cutOffs, Whole u ∧ v ++ s = u ++ t := by
    rcases hs with hs | ⟨u, t, ht, hu, rfl⟩
    · exact Or.inl (Whole.conv hv hs)
    · exact Or.inr ⟨v ++ u, t, ht, Whole.conv hv hu, (List.append_assoc v u t).symm⟩
  induction hn : s.length using Nat.strong_induction_on generalizing s with
  | _ n ih =>
    subst hn
    rcases s with _ | ⟨c, s⟩
    · exact Or.inl Whole.nil
    by_cases hc : c = chr '%'
    swap
    · rcases ih s.length (by simp) s rfl with hs | ⟨u, t, ht, hu, rfl⟩
      · exact Or.inl (Whole.plain hc hs)
      · exact Or.inr ⟨c :: u, t, ht, Whole.plain hc hu, rfl⟩
    subst hc
    rcases s with _ | ⟨c, s⟩
    · exact Or.inr ⟨[], _, List.mem_cons_self, Whole.nil, rfl⟩
    by_cases hc : c = chr 'l'
    swap
    · exact hconv (Conversion.one hc) (ih s.length (by simp) s rfl)
    subst hc
    rcases s with _ | ⟨c, s⟩
    · exact Or.inr ⟨[], _, List.mem_cons_of_mem _ List.mem_cons_self, Whole.nil, rfl⟩
    by_cases hc : c = chr 'l'
    swap
    · exact hconv (Conversion.long hc) (ih s.length (by simp; omega) s rfl)
    subst hc
    rcases s with _ | ⟨c, s⟩
    · exact Or.inr ⟨[], _, List.mem_cons_of_mem _ (List.mem_cons_of_mem _ List.mem_cons_self),
        Whole.nil, rfl⟩
    · exact hconv (Conversion.longLong c) (ih s.length (by simp; omega) s rfl)

/-- Over a whole format the scan ends and reads up to the NUL. -/
theorem kvprintfLoop_inside (hu : Whole u) (hs : Spells mem fmt i u) (h0 : 0 ∉ u)
    (hend : fmtAt mem fmt (i+u.length) = 0) (args : ℕ → Word) (st : Formatted) :
    ∃ fuel st', kvprintfLoop mem fmt args fuel i st = some st' ∧
      st'.reads = st.reads ++ List.range' i (u.length+1) := by
  obtain ⟨k, t, hrun, ht⟩ := kvprintfLoop_whole hend hu hs h0 args st
  refine ⟨0+1+k, _, (hrun _).trans (kvprintfLoop_end hend args t 0), ?_⟩
  rw [Formatted.read, ht, List.append_assoc, List.range'_concat, Nat.one_mul]

/-- A conversion that is cut off has the scan read the character after the NUL. -/
theorem kvprintfLoop_past {t : List Byte} (ht : t ∈ cutOffs) (hu : Whole u)
    (hs : Spells mem fmt i (u ++ t)) (h0 : 0 ∉ u) (hend : fmtAt mem fmt (i+(u ++ t).length) = 0)
    {args : ℕ → Word} {st st' : Formatted} {fuel : ℕ}
    (hrun : kvprintfLoop mem fmt args fuel i st = some st') :
    i+(u ++ t).length+1 ∈ st'.reads := by
  obtain ⟨hsu, hst⟩ := spells_append.mp hs
  rw [List.length_append, ← Nat.add_assoc] at hend ⊢
  obtain ⟨hi, hlen⟩ := cutOff_length ht hst hend
  obtain ⟨k, v, hwhole, -⟩ := kvprintfLoop_whole hend hu hsu h0 args st
  obtain ⟨w, hcut, -⟩ := kvprintfLoop_conv hend hi args v
  -- with more fuel the same run goes over the whole part and through the cut conversion
  have hlong := kvprintfLoop_mono hrun (1+k)
  rw [← Nat.add_assoc, hwhole, hcut, hlen] at hlong
  exact (kvprintfLoop_reads hend hlong).1

end Scan

/-- `kvprintf` returns and reads nothing past the NUL of its format exactly when the format does
not end inside a conversion. -/
theorem kvprintf_inside_iff (mem : Mem) (fmt : Word) (args : ℕ → Word) (n : ℕ)
    (hend : fmtAt mem fmt n = 0) (hin : ∀ i < n, fmtAt mem fmt i ≠ 0) :
    (∃ fuel st, kvprintf mem fmt args fuel = some st ∧ ∀ i ∈ st.reads, i ≤ n) ↔
      Whole ((List.range n).map (fmtAt mem fmt)) := by
  have hlen : ((List.range n).map (fmtAt mem fmt)).length = n := by simp
  have hs : Spells mem fmt 0 ((List.range n).map (fmtAt mem fmt)) := by
    rw [List.range_eq_range']
    exact spells_range n
  have h0 : 0 ∉ (List.range n).map (fmtAt mem fmt) := by
    intro hmem
    obtain ⟨i, hi, hz⟩ := List.mem_map.mp hmem
    exact hin i (List.mem_range.mp hi) hz
  generalize (List.range n).map (fmtAt mem fmt) = s at hlen hs h0 ⊢
  subst hlen
  rw [← Nat.zero_add s.length] at hend
  constructor
  · rintro ⟨fuel, st, hrun, hreads⟩
    rcases whole_or_cutOff s with hw | ⟨u, t, ht, hu, rfl⟩
    · exact hw
    · have hpast := kvprintfLoop_past ht hu hs (fun hc => h0 (List.mem_append_left _ hc)) hend hrun
      have hle := hreads _ hpast
      omega
  · intro hw
    obtain ⟨fuel, st, hrun, hreads⟩ := kvprintfLoop_inside hw hs h0 hend args ⟨[], 0, []⟩
    refine ⟨fuel, st, hrun, fun i hi => ?_⟩
    rw [hreads, List.nil_append, List.mem_range'_1] at hi
    omega

/-- A memory with a string at 0x1000 and NULs after it. -/
def stringMem (s : List Char) : Mem := fun a => (s.map chr).getD (a-0x1000).toNat 0

/-- "r%cx%llx%%" with its two arguments. -/
theorem kvprintf_inside_iff_hex : ∃ fuel st,
    kvprintf (stringMem ['r', '%', 'c', 'x', '%', 'l', 'l', 'x', '%', '%']) 0x1000 (fun _ => 97) fuel
      = some st ∧ ∀ i ∈ st.reads, i ≤ 10 := by
  refine (kvprintf_inside_iff _ 0x1000 _ 10 (by decide) (by decide)).mpr ?_
  have hc : Conversion [chr '%', chr 'c'] := Conversion.one (by decide)
  have hp : Conversion [chr '%', chr '%'] := Conversion.one (by decide)
  exact Whole.plain (by decide) (Whole.conv hc (Whole.plain (by decide)
    (Whole.conv (Conversion.longLong (chr 'x')) (Whole.conv hp Whole.nil))))

/-- "100%" with other characters after its NUL: the run prints the NUL and what follows it. -/
theorem kvprintf_cut_percent :
    let m := stringMem ['1', '0', '0', '%', '\x00', 'A']
    fmtAt m 0x1000 4 = 0 ∧ (∀ i < 4, fmtAt m 0x1000 i ≠ 0) ∧
    kvprintf m 0x1000 (fun _ => 0) 10 =
      some ⟨['1', '0', '0', '%', '\x00', 'A'].map chr, 0, [0, 1, 2, 3, 4, 5, 6]⟩ ∧
    ¬ ∃ fuel st, kvprintf m 0x1000 (fun _ => 0) fuel = some st ∧ ∀ i ∈ st.reads, i ≤ 4 := by
  refine ⟨by decide, by decide, by decide +kernel, ?_⟩
  rintro ⟨fuel, st, hrun, hreads⟩
  have hu : Whole (['1', '0', '0'].map chr) :=
    Whole.plain (by decide) (Whole.plain (by decide) (Whole.plain (by decide) Whole.nil))
  have hpast := kvprintfLoop_past (t := [chr '%']) List.mem_cons_self hu ⟨rfl, rfl, rfl, rfl, trivial⟩
    (by decide) (by decide) hrun
  exact absurd (hreads _ hpast) (by decide)

end Dana
