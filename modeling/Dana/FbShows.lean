import Dana.Fb
import Dana.Typewriter
import Mathlib.Data.List.GetD

/-! What the framebuffer shows: whatever is written, its bytes are the picture of the last rows of
the page that the text is typed on. -/
namespace Dana
open ByteMem Transition Typewriter

/-- The key of a typewriter that a character strikes. -/
def keyOf (c : Byte) : Key Byte :=
  if c = chr '\n' then .newline
  else if c = chr '\r' then .ret
  else if c = chr '\t' then .tab
  else if c = 8 then .back
  else .char c

/-- The color of a dot of a character. -/
def dotColor (c : Byte) (gy gx : ℕ) : BitVec 32 :=
  if ((font.getD ((if c < 0x20 ∨ 0x7F < c then chr '?' else c)-0x20).toNat []).getD gy 0).getLsbD gx
  then fg else bg

/-- Byte `k` of a pixel. -/
def colorByte (bpp : Byte) (color : BitVec 32) (k : ℕ) : Byte :=
  if bpp = 16 then
    let c : BitVec 16 := (((color>>>19) &&& 0x1f)<<<11 ||| ((color>>>10) &&& 0x3f)<<<5 |||
      ((color>>>3) &&& 0x1f)).setWidth 16
    if k = 0 then c.setWidth 8 else (c>>>8).setWidth 8
  else if k = 0 then color.setWidth 8
  else if k = 1 then (color>>>8).setWidth 8
  else if k = 2 then (color>>>16).setWidth 8
  else 0

/-- The page that a text is typed on from the top, on rows as wide as the screen. -/
def Geometry.typed (g : Geometry) (text : List Byte) : Page Byte :=
  (Page.empty (chr ' ')).type (g.width.toNat/8) 8 (text.map keyOf)

/-- The byte at offset `o` of a framebuffer that shows the rows of a page from `top` on. -/
def Geometry.picture (g : Geometry) (page : Page Byte) (top o : ℕ) : Byte :=
  let y := o/g.pitch.toNat
  let x := o%g.pitch.toNat/(g.bpp.toNat/8)
  if x/8 < g.width.toNat/8 ∧ y/8 < g.height.toNat/8 then
    colorByte g.bpp (dotColor (page.cell (top+y/8) (x/8)) (y%8) (x%8))
      (o%g.pitch.toNat%(g.bpp.toNat/8))
  else 0

/-- The byte at offset `o` of the framebuffer. -/
def Geometry.byteAt (g : Geometry) (st : Fb) (o : ℕ) : Byte := st.mem (g.addr+BitVec.ofNat 64 o)

section Bytes
variable {g : Geometry} {st : Fb} {a n o : ℕ}

theorem Geometry.byteAt_store (g : Geometry) (st : Fb) (ha : a < 2^32) (ho : o < 2^32) (b : Byte) :
    g.byteAt (st.store (g.addr+BitVec.ofNat 64 a) b) o = if o = a then b else g.byteAt st o := by
  have haddr : g.addr+BitVec.ofNat 64 o = g.addr+BitVec.ofNat 64 a ↔ o = a := by
    constructor
    · intro h
      bv_omega
    · exact congrArg fun o => g.addr+BitVec.ofNat 64 o
  rw [Geometry.byteAt, Fb.store]
  change Function.update st.mem _ b _ = _
  rw [Function.update_apply]
  exact if_congr haddr rfl rfl

/-- A loop whose turn `i` writes what is r only where `j` is `i`. -/
theorem foldl_range_read {S B : Type*} {f : S → ℕ → S} {P : S → Prop} {r : S → B} {Q : Prop}
    [Decidable Q] {j : ℕ} {v : ℕ → B} (n : ℕ) (hP : ∀ s i, i < n → P s → P (f s i))
    (hf : ∀ s i, i < n → P s → r (f s i) = if Q ∧ j = i then v i else r s) {s : S}
    (hs : P s) : P ((List.range n).foldl f s) ∧
      r ((List.range n).foldl f s) = if Q ∧ j < n then v j else r s := by
  induction n with
  | zero => exact ⟨hs, by simp⟩
  | succ n ih =>
    obtain ⟨hPn, hread⟩ := ih (fun s i hi => hP s i (by omega)) (fun s i hi => hf s i (by omega))
    rw [List.range_succ, List.foldl_append]
    refine ⟨hP _ n (by omega) hPn, ?_⟩
    rw [List.foldl_cons, List.foldl_nil, hf _ n (by omega) hPn, hread]
    by_cases hQ : Q
    · rcases Nat.lt_trichotomy j n with hlt | rfl | hgt
      · rw [if_neg (by omega), if_pos ⟨hQ, hlt⟩, if_pos ⟨hQ, by omega⟩]
      · rw [if_pos ⟨hQ, rfl⟩, if_pos ⟨hQ, by omega⟩]
      · rw [if_neg (by omega), if_neg (by omega), if_neg (by omega)]
    · rw [if_neg fun h => hQ h.1, if_neg fun h => hQ h.1, if_neg fun h => hQ h.1]

/-- `p[i] = v` for `i` below `n`. -/
theorem Geometry.byteAt_clear {l : BitVec 32} (g : Geometry) (st : Fb) (v : Byte)
    (ha : a+l.toNat < 2^32) (ho : o < 2^32) :
    g.byteAt (st.storeLoop (g.addr+BitVec.ofNat 64 a) (fun _ _ => v) l) o =
      if a ≤ o ∧ o-a < l.toNat then v else g.byteAt st o := by
  rw [Fb.storeLoop]
  refine (foldl_range_read (P := fun _ => True) (r := fun s => g.byteAt s o) (Q := a ≤ o)
    (j := o-a) (v := fun _ => v) l.toNat (fun _ _ _ _ => trivial) ?_ trivial).2
  intro s i hi _
  have hoff : g.addr+BitVec.ofNat 64 a+BitVec.ofNat 64 i = g.addr+BitVec.ofNat 64 (a+i) := by
    rw [BitVec.add_assoc, BitVec.ofNat_add]
  rw [hoff, g.byteAt_store s (by omega) ho]
  exact if_congr (by omega) rfl rfl

/-- `dst[i] = src[i]` for `i` below `n`, in this order, where `src` is ahead by `d`. -/
theorem Geometry.byteAt_copy {len : BitVec 32} {d : ℕ} (g : Geometry) (st : Fb) (hd : 0 < d)
    (hlen : len.toNat+d < 2^32) (ho : o < 2^32) :
    g.byteAt (st.storeLoop g.addr (fun m i => m (g.addr+BitVec.ofNat 64 d+i)) len) o =
      if o < len.toNat then g.byteAt st (o+d) else g.byteAt st o := by
  rw [Fb.storeLoop]
  generalize hn : len.toNat = n at hlen
  clear hn
  induction n generalizing o with
  | zero => rfl
  | succ n ih =>
    rw [List.range_succ, List.foldl_append, List.foldl_cons, List.foldl_nil]
    have hsrc : g.addr+BitVec.ofNat 64 d+BitVec.ofNat 64 n = g.addr+BitVec.ofNat 64 (n+d) := by
      rw [BitVec.add_assoc, ← BitVec.ofNat_add, Nat.add_comm]
    rw [hsrc, g.byteAt_store _ (by omega) ho]
    rcases Nat.lt_trichotomy o n with hlt | rfl | hgt
    · rw [if_neg (by omega), ih ho (by omega), if_pos hlt, if_pos (by omega)]
    · -- the byte ahead has not been written yet
      rw [if_pos rfl, if_pos (by omega)]
      exact (ih (by omega) (by omega)).trans (if_neg (by omega))
    · rw [if_neg (by omega), ih ho (by omega), if_neg (by omega), if_neg (by omega)]

end Bytes

section Dots
variable {g : Geometry} {st : Fb} {x y col row : BitVec 32} {c : Byte} {o : ℕ}

theorem FbGeom.pixelAddr_eq {v : FbVars} (h : FbGeom g v) (hx : x < g.width) (hy : y < g.height) :
    pixelAddr v x y = g.addr+BitVec.ofNat 64 (y.toNat*g.pitch.toNat+x.toNat*(g.bpp.toNat/8)) ∧
      y.toNat*g.pitch.toNat+(x.toNat+1)*(g.bpp.toNat/8) ≤ g.height.toNat*g.pitch.toNat := by
  have hsize := g.size_lt
  have hbytes : y.toNat*g.pitch.toNat+(x.toNat+1)*(g.bpp.toNat/8) ≤
      g.height.toNat*g.pitch.toNat := by
    calc y.toNat*g.pitch.toNat+(x.toNat+1)*(g.bpp.toNat/8)
        ≤ y.toNat*g.pitch.toNat+g.pitch.toNat := Nat.add_le_add_left (g.pixel_le hx) _
      _ = (y.toNat+1)*g.pitch.toNat := (Nat.succ_mul _ _).symm
      _ ≤ g.height.toNat*g.pitch.toNat := Nat.mul_le_mul_right _ hy
  refine ⟨?_, hbytes⟩
  rw [Nat.succ_mul] at hbytes
  have hyp : (y*g.pitch).toNat = y.toNat*g.pitch.toNat := by
    rw [BitVec.toNat_mul, Nat.mod_eq_of_lt (by omega)]
  have hbpp : ((g.bpp/8).setWidth 32).toNat = g.bpp.toNat/8 := by
    have hlt := g.bpp.isLt
    rw [BitVec.toNat_setWidth, BitVec.toNat_udiv]
    change g.bpp.toNat/8%2^32 = g.bpp.toNat/8
    omega
  have hxb : (x*(g.bpp/8).setWidth 32).toNat = x.toNat*(g.bpp.toNat/8) := by
    rw [BitVec.toNat_mul, hbpp, Nat.mod_eq_of_lt (by omega)]
  rw [pixelAddr, h.addr, h.pitch, h.bpp, BitVec.ofNat_add, ← BitVec.add_assoc, ← hyp, ← hxb,
    BitVec.ofNat_toNat, BitVec.ofNat_toNat]

/-- The offsets of the bytes of a pixel. -/
theorem Geometry.offset_iff (g : Geometry) {px py k : ℕ} (hx : px < g.width.toNat)
    (hk : k < g.bpp.toNat/8) :
    o = py*g.pitch.toNat+px*(g.bpp.toNat/8)+k ↔
      (o/g.pitch.toNat = py ∧ o%g.pitch.toNat/(g.bpp.toNat/8) = px) ∧
        o%g.pitch.toNat%(g.bpp.toNat/8) = k := by
  have hin : px*(g.bpp.toNat/8)+k < g.pitch.toNat := by
    have hle := g.pixel_le hx
    rw [Nat.succ_mul] at hle
    omega
  have hrow := Nat.div_mod_unique (a := o) (c := px*(g.bpp.toNat/8)+k) (d := py)
    (Nat.zero_lt_of_lt hin)
  have hcol := Nat.div_mod_unique (a := o%g.pitch.toNat) (c := k) (d := px) (Nat.zero_lt_of_lt hk)
  constructor
  · intro ho
    obtain ⟨hy, hr⟩ := hrow.mpr ⟨by rw [ho, Nat.mul_comm g.pitch.toNat]; omega, hin⟩
    obtain ⟨hx', hk'⟩ := hcol.mpr ⟨by rw [hr, Nat.mul_comm px]; omega, hk⟩
    exact ⟨⟨hy, hx'⟩, hk'⟩
  · rintro ⟨⟨hy, hx'⟩, hk'⟩
    have hmod : px*(g.bpp.toNat/8)+k = o%g.pitch.toNat := by
      rw [← (hcol.mp ⟨hx', hk'⟩).1, Nat.mul_comm px]
      omega
    have ho := (hrow.mp ⟨hy, hmod.symm⟩).1
    rw [← ho, Nat.mul_comm g.pitch.toNat]
    omega

/-- A pixel has its color, and no other byte changes. -/
theorem FbGeom.byteAt_putPixel (h : FbGeom g st.vars) (hx : x < g.width) (hy : y < g.height)
    (color : BitVec 32) (ho : o < 2^32) :
    g.byteAt (putPixel st x y color) o =
      if o/g.pitch.toNat = y.toNat ∧ o%g.pitch.toNat/(g.bpp.toNat/8) = x.toNat then
        colorByte g.bpp color (o%g.pitch.toNat%(g.bpp.toNat/8)) else g.byteAt st o := by
  have hsize := g.size_lt
  obtain ⟨haddr, hbytes⟩ := h.pixelAddr_eq hx hy
  rw [Nat.succ_mul, ← Nat.add_assoc] at hbytes
  have hoff := fun k => @Geometry.offset_iff o g x.toNat y.toNat k (BitVec.lt_def.mp hx)
  rw [putPixel, h.bpp, haddr]
  generalize y.toNat*g.pitch.toNat+x.toNat*(g.bpp.toNat/8) = p at hoff hbytes
  -- the address of byte `k` in the two ways that it is written
  have hstore (s : Fb) (q : Word) (k : ℕ) (hq : q = g.addr+BitVec.ofNat 64 p+BitVec.ofNat 64 k)
      (hk : k < g.bpp.toNat/8) (b : Byte) : g.byteAt (s.store q b) o =
        if (o/g.pitch.toNat = y.toNat ∧ o%g.pitch.toNat/(g.bpp.toNat/8) = x.toNat) ∧
          o%g.pitch.toNat%(g.bpp.toNat/8) = k then b else g.byteAt s o := by
    rw [hq, BitVec.add_assoc, ← BitVec.ofNat_add, g.byteAt_store s (by omega) ho]
    exact if_congr (hoff k hk) rfl rfl
  have hbase : g.addr+BitVec.ofNat 64 p = g.addr+BitVec.ofNat 64 p+BitVec.ofNat 64 0 :=
    (BitVec.add_zero _).symm
  have hk : 0 < g.bpp.toNat/8 → o%g.pitch.toNat%(g.bpp.toNat/8) < g.bpp.toNat/8 := Nat.mod_lt _
  generalize g.addr+BitVec.ofNat 64 p = q at hstore hbase ⊢
  generalize hp : ({st with pixels := (x, y) :: st.pixels} : Fb) = st'
  have hmem : g.byteAt st' o = g.byteAt st o := by
    rw [← hp]
    rfl
  by_cases hC : o/g.pitch.toNat = y.toNat ∧ o%g.pitch.toNat/(g.bpp.toNat/8) = x.toNat
  · rw [if_pos hC]
    simp only [hC, and_self, true_and] at hstore
    generalize o%g.pitch.toNat%(g.bpp.toNat/8) = k at hstore hk ⊢
    rcases g.bpp_eq with hb | hb | hb <;> rw [hb] at hstore hk ⊢
    · rw [if_neg (by decide), if_neg (by decide), if_pos rfl, hstore _ (q+1) 1 rfl (by decide),
        hstore _ q 0 hbase (by decide)]
      have hk : k = 0 ∨ k = 1 := by
        have hlt : k < 2 := hk (by decide)
        omega
      rcases hk with rfl | rfl <;> rfl
    · rw [if_neg (by decide), if_pos rfl, hstore _ (q+2) 2 rfl (by decide),
        hstore _ (q+1) 1 rfl (by decide), hstore _ q 0 hbase (by decide)]
      have hk : k = 0 ∨ k = 1 ∨ k = 2 := by
        have hlt : k < 3 := hk (by decide)
        omega
      rcases hk with rfl | rfl | rfl <;> rfl
    · rw [if_pos rfl, hstore _ (q+3) 3 rfl (by decide), hstore _ (q+2) 2 rfl (by decide),
        hstore _ (q+1) 1 rfl (by decide), hstore _ q 0 hbase (by decide)]
      have hk : k = 0 ∨ k = 1 ∨ k = 2 ∨ k = 3 := by
        have hlt : k < 4 := hk (by decide)
        omega
      rcases hk with rfl | rfl | rfl | rfl <;> rfl
  · rw [if_neg hC]
    simp only [hC, false_and, if_false] at hstore
    rcases g.bpp_eq with hb | hb | hb <;> rw [hb] at hstore ⊢
    · rw [if_neg (by decide), if_neg (by decide), if_pos rfl, hstore _ (q+1) 1 rfl (by decide),
        hstore _ q 0 hbase (by decide), hmem]
    · rw [if_neg (by decide), if_pos rfl, hstore _ (q+2) 2 rfl (by decide),
        hstore _ (q+1) 1 rfl (by decide), hstore _ q 0 hbase (by decide), hmem]
    · rw [if_pos rfl, hstore _ (q+3) 3 rfl (by decide), hstore _ (q+2) 2 rfl (by decide),
        hstore _ (q+1) 1 rfl (by decide), hstore _ q 0 hbase (by decide), hmem]

/-- A character is drawn in its cell. -/
theorem FbGeom.byteAt_drawChar (h : FbGeom g st.vars) (hcol : col < st.vars.cols)
    (hrow : row < st.vars.rows) (ho : o < 2^32) :
    g.byteAt (drawChar st col row c) o =
      if o%g.pitch.toNat/(g.bpp.toNat/8)/8 = col.toNat ∧ o/g.pitch.toNat/8 = row.toNat then
        colorByte g.bpp (dotColor c (o/g.pitch.toNat%8) (o%g.pitch.toNat/(g.bpp.toNat/8)%8))
          (o%g.pitch.toNat%(g.bpp.toNat/8))
      else g.byteAt st o := by
  rw [BitVec.lt_def, h.cols_toNat] at hcol
  rw [BitVec.lt_def, h.rows_toNat] at hrow
  have hpixel (s : Fb) (hs : s.vars = st.vars) (gy gx : ℕ) (hgy : gy < 8) (hgx : gx < 8) :=
    (hs ▸ h : FbGeom g s.vars).byteAt_putPixel (o := o) (x := col*fontW+BitVec.ofNat 32 gx)
      (y := row*fontH+BitVec.ofNat 32 gy)
      (by rw [BitVec.lt_def, cell_toNat col hgx]; omega)
      (by rw [BitVec.lt_def, fontH, ← fontW, cell_toNat row hgy]; omega) (dotColor c gy gx) ho
  rw [drawChar]
  generalize o/g.pitch.toNat = py at hpixel ⊢
  generalize o%g.pitch.toNat/(g.bpp.toNat/8) = px at hpixel ⊢
  -- a row of the glyph, then its rows
  have hinner (s : Fb) (gy : ℕ) (hgy : gy < 8) (hs : s.vars = st.vars) :=
    foldl_range_read (P := fun s : Fb => s.vars = st.vars) (r := fun s => g.byteAt s o)
      (Q := px/8 = col.toNat ∧ py = row.toNat*8+gy) (j := px%8)
      (v := fun gx => colorByte g.bpp (dotColor c gy gx) (o%g.pitch.toNat%(g.bpp.toNat/8)))
      (f := fun s gx => putPixel s (col*fontW+BitVec.ofNat 32 gx) (row*fontH+BitVec.ofNat 32 gy)
        (dotColor c gy gx)) 8 (fun _ _ _ h => (putPixel_vars _).trans h)
      (fun s gx hgx hs => (hpixel s hs gy gx hgy hgx).trans (if_congr (by
        rw [cell_toNat col hgx, fontH, ← fontW, cell_toNat row hgy]
        omega) rfl rfl)) hs
  refine (foldl_range_read (P := fun s : Fb => s.vars = st.vars) (r := fun s => g.byteAt s o)
    (Q := px/8 = col.toNat ∧ py/8 = row.toNat) (j := py%8)
    (v := fun gy => colorByte g.bpp (dotColor c gy (px%8)) (o%g.pitch.toNat%(g.bpp.toNat/8))) 8
    (fun s gy hgy hs => (hinner s gy hgy hs).1) (fun s gy hgy hs => (hinner s gy hgy hs).2.trans
      (if_congr (by omega) rfl rfl)) rfl).2.trans (if_congr (by omega) rfl rfl)

/-- Each row of cells takes what is in the next one, and the last one is cleared. -/
theorem FbGeom.byteAt_scrollUp (h : FbGeom g st.vars) (ho : o < 2^32) :
    g.byteAt (scrollUp st) o =
      if o < 8*g.pitch.toNat*(g.height.toNat/8-1) then g.byteAt st (o+8*g.pitch.toNat)
      else if o < 8*g.pitch.toNat*(g.height.toNat/8) then 0 else g.byteAt st o := by
  have hsize := g.size_lt
  have hheight : 8 ≤ g.height.toNat := g.height_ge
  have hrows := h.rows_toNat
  have hpitch : 0 < g.pitch.toNat := by
    have hwidth : 8 ≤ g.width.toNat := g.width_ge
    have hle := g.pixel_le (x := 0) (by omega)
    rcases g.bpp_eq with hb | hb | hb <;> rw [hb] at hle <;> simp at hle <;> omega
  have hall : 8*g.pitch.toNat*(g.height.toNat/8) ≤ g.height.toNat*g.pitch.toNat := by
    calc 8*g.pitch.toNat*(g.height.toNat/8)
        = g.height.toNat/8*8*g.pitch.toNat := by ring
      _ ≤ g.height.toNat*g.pitch.toNat := Nat.mul_le_mul_right _ (Nat.div_mul_le_self _ 8)
  have hone : 8*g.pitch.toNat*1 ≤ 8*g.pitch.toNat*(g.height.toNat/8) :=
    Nat.mul_le_mul_left _ (by omega)
  have hsplit : 8*g.pitch.toNat*(g.height.toNat/8-1)+8*g.pitch.toNat =
      8*g.pitch.toNat*(g.height.toNat/8) := by
    rw [Nat.mul_sub, Nat.mul_one]
    omega
  have hrow : (g.pitch*fontH).toNat = 8*g.pitch.toNat := by
    rw [fontH]
    bv_omega
  have hcopy : (g.pitch*fontH*(st.vars.rows-1)).toNat = 8*g.pitch.toNat*(g.height.toNat/8-1) := by
    have hpred : (st.vars.rows-1).toNat = g.height.toNat/8-1 := by bv_omega
    rw [BitVec.toNat_mul, hrow, hpred, Nat.mod_eq_of_lt (by omega)]
  rw [scrollUp, h.pitch, h.addr]
  change g.byteAt ((st.storeLoop g.addr (fun m i => m (g.addr+(g.pitch*fontH).setWidth 64+i))
    (g.pitch*fontH*(st.vars.rows-1))).storeLoop (g.addr+(g.pitch*fontH*(st.vars.rows-1)).setWidth 64)
    (fun _ _ => 0) (g.pitch*fontH)) o = _
  rw [← BitVec.ofNat_toNat 64 (g.pitch*fontH*(st.vars.rows-1)), ← BitVec.ofNat_toNat 64 (g.pitch*fontH),
    g.byteAt_clear _ 0 (by omega) ho, hrow, hcopy, g.byteAt_copy st (by omega) (by omega) ho, hcopy]
  generalize 8*g.pitch.toNat*(g.height.toNat/8-1) = n at hsplit ⊢
  rw [← hsplit]
  split_ifs <;> first | rfl | omega

end Dots

/-- The framebuffer shows the rows of `page` from `top` on, and the cursor is at its carriage. -/
structure Geometry.Shows (g : Geometry) (page : Page Byte) (top : ℕ) (st : Fb) : Prop where
  geom : FbGeom g st.vars
  col : st.vars.curCol.toNat = page.col
  row : top+st.vars.curRow.toNat = page.row
  bytes : ∀ o < g.height.toNat*g.pitch.toNat, g.byteAt st o = g.picture page top o

/-- There is a column on the screen for a character that is drawn. -/
def Geometry.Room (g : Geometry) (page : Page Byte) (c : Byte) : Prop :=
  page.col+8 < 2^32 ∧ (Printing c → page.col < g.width.toNat/8)

section Shows
variable {g : Geometry} {page : Page Byte} {top : ℕ} {st : Fb} {c : Byte}

/-- The next tab stop. -/
theorem tab_toNat (col : BitVec 32) (h : col.toNat+8 < 2^32) :
    ((col+8) &&& ~~~7 : BitVec 32).toNat = (col.toNat/8+1)*8 := by
  have hmask (a : BitVec 32) : (a &&& ~~~7 : BitVec 32) = (a>>>3)<<<3 := by
    apply BitVec.eq_of_getLsbD_eq
    intro i hi
    have hseven : (7 : BitVec 32).getLsbD i = decide (i < 3) := by
      change (BitVec.ofNat 32 (2^3-1)).getLsbD i = _
      rw [BitVec.getLsbD_ofNat, Nat.testBit_two_pow_sub_one, decide_eq_true hi, Bool.true_and]
    rw [BitVec.getLsbD_and, BitVec.getLsbD_not, hseven, BitVec.getLsbD_shiftLeft,
      BitVec.getLsbD_ushiftRight, decide_eq_true hi, Bool.true_and]
    by_cases h3 : i < 3
    · simp [h3]
    · simp [h3, Nat.add_sub_cancel' (Nat.not_lt.mp h3)]
  rw [hmask]
  bv_omega

/-- Moving the cursor shows the page with its carriage moved. -/
theorem Geometry.Shows.moveTo (h : g.Shows page top st) {q : Page Byte}
    (hcell : q.cell = page.cell) {col row : BitVec 32} (hcol : col.toNat = q.col)
    (hrow : top+row.toNat = q.row) : g.Shows q top (st.moveTo col row) := by
  refine ⟨h.geom.moveTo col row, hcol, hrow, fun o ho => ?_⟩
  rw [Geometry.picture, hcell]
  exact h.bytes o ho

/-- A character is shown where it has been put. -/
theorem Geometry.picture_put (hrow : top+st.vars.curRow.toNat = page.row)
    (hcol : st.vars.curCol.toNat = page.col) (hlt : page.col < g.width.toNat/8)
    (hbot : st.vars.curRow.toNat < g.height.toNat/8) (o : ℕ) :
    g.picture (page.put c) top o =
      if o%g.pitch.toNat/(g.bpp.toNat/8)/8 = st.vars.curCol.toNat ∧
          o/g.pitch.toNat/8 = st.vars.curRow.toNat then
        colorByte g.bpp (dotColor c (o/g.pitch.toNat%8) (o%g.pitch.toNat/(g.bpp.toNat/8)%8))
          (o%g.pitch.toNat%(g.bpp.toNat/8))
      else g.picture page top o := by
  rw [Geometry.picture, Geometry.picture, Page.put]
  simp only
  generalize o/g.pitch.toNat = y
  generalize o%g.pitch.toNat/(g.bpp.toNat/8) = x
  by_cases hat : x/8 = st.vars.curCol.toNat ∧ y/8 = st.vars.curRow.toNat
  · rw [if_pos hat, if_pos (by omega), if_pos (by omega)]
  · rw [if_neg hat]
    have hne : ¬ (top+y/8 = page.row ∧ x/8 = page.col) := by omega
    rw [if_neg hne]

/-- A character moves the cursor and draws as its key moves the carriage and types. -/
theorem Geometry.Shows.move (h : g.Shows page top st) (hbot : st.vars.curRow < st.vars.rows)
    (hroom : g.Room page c) :
    g.Shows (page.press (g.width.toNat/8) 8 (keyOf c)) top (fbPutcMove st c) := by
  have hrows := h.geom.rows_toNat
  have hrow := h.row
  have hcol := h.col
  have hnext : top+(st.vars.curRow+1).toNat = page.row+1 := by bv_omega
  have hfits := hroom.2
  rw [fbPutcMove, keyOf]
  split_ifs with hn hr ht hb hleft
  · exact h.moveTo (q := page.down) rfl rfl hnext
  · exact h.moveTo (q := {page with col := 0}) rfl rfl hrow
  · apply h.moveTo (q := {page with col := (page.col/8+1)*8}) rfl _ hrow
    rw [tab_toNat _ (hcol ▸ hroom.1), hcol]
  · apply h.moveTo (q := {page with col := page.col-1}) rfl _ hrow
    change _ = page.col-1
    bv_omega
  · have hzero : page.col = 0 := by bv_omega
    refine ⟨h.geom, ?_, hrow, h.bytes⟩
    change _ = page.col-1
    omega
  · have hlt := hfits ⟨hn, hr, ht, hb⟩
    have hdrawn : g.Shows (page.put c) top (drawChar st st.vars.curCol st.vars.curRow c) := by
      have hcell : st.vars.curCol < st.vars.cols := by
        rw [BitVec.lt_def, h.geom.cols_toNat, hcol]
        exact hlt
      have hsize := g.size_lt
      refine ⟨by rw [drawChar_vars]; exact h.geom, by rw [drawChar_vars]; exact hcol,
        by rw [drawChar_vars]; exact hrow, fun o ho => ?_⟩
      rw [h.geom.byteAt_drawChar hcell hbot (by omega),
        Geometry.picture_put hrow hcol hlt (by rw [← hrows]; exact hbot), h.bytes o ho]
    have hcols := h.geom.cols_toNat
    rw [fbAdvance, drawChar_vars]
    change g.Shows (if g.width.toNat/8 ≤ page.col+1 then (page.put c).down
      else {page.put c with col := page.col+1}) top _
    by_cases hlast : g.width.toNat/8 ≤ page.col+1
    · rw [if_pos hlast, if_pos (by bv_omega)]
      exact hdrawn.moveTo (q := (page.put c).down) rfl rfl hnext
    · rw [if_neg hlast, if_neg (by bv_omega)]
      apply hdrawn.moveTo (q := {page.put c with col := page.col+1}) rfl _ hrow
      change _ = page.col+1
      bv_omega

/-- A blank has no dots. -/
theorem colorByte_blank (bpp : Byte) (gy gx k : ℕ) :
    colorByte bpp (dotColor (chr ' ') gy gx) k = 0 := by
  have hrow : (font.getD 0 []).getD gy 0 = 0 := by
    rcases Nat.lt_or_ge gy 8 with hlt | hge
    · interval_cases gy <;> rfl
    · exact List.getD_eq_default _ _ hge
  have hdot : dotColor (chr ' ') gy gx = bg := by
    change (if ((font.getD 0 []).getD gy 0).getLsbD gx then fg else bg) = bg
    rw [hrow]
    exact if_neg (by simp)
  rw [hdot, colorByte]
  split_ifs <;> rfl

/-- Scrolling shows the page from the next row on, where the row that comes in is blank. -/
theorem Geometry.picture_scroll (hst : FbGeom g st.vars)
    (hbytes : ∀ o < g.height.toNat*g.pitch.toNat, g.byteAt st o = g.picture page top o)
    (hblank : ∀ c, page.cell (top+g.height.toNat/8) c = chr ' ') {o : ℕ}
    (ho : o < g.height.toNat*g.pitch.toNat) :
    g.byteAt (scrollUp st) o = g.picture page (top+1) o := by
  have hsize := g.size_lt
  have hheight : 8 ≤ g.height.toNat := g.height_ge
  have hpitch : 0 < g.pitch.toNat := by
    apply Nat.pos_of_ne_zero
    intro h0
    rw [h0, Nat.mul_zero] at ho
    exact absurd ho (Nat.not_lt_zero o)
  have hbelow (n : ℕ) : o < 8*g.pitch.toNat*n ↔ o/g.pitch.toNat/8 < n := by
    rw [Nat.div_div_eq_div_mul, Nat.div_lt_iff_lt_mul (by omega), Nat.mul_comm n,
      Nat.mul_comm g.pitch.toNat]
  have hup : (o+8*g.pitch.toNat)/g.pitch.toNat = o/g.pitch.toNat+8 :=
    Nat.add_mul_div_right _ _ hpitch
  have hcol : (o+8*g.pitch.toNat)%g.pitch.toNat = o%g.pitch.toNat := Nat.add_mul_mod_self_right _ _ _
  rw [hst.byteAt_scrollUp (by omega)]
  simp only [hbelow]
  split_ifs with hcopy hlast
  · have hin : o+8*g.pitch.toNat < g.height.toNat*g.pitch.toNat := by
      rw [← Nat.div_lt_iff_lt_mul hpitch, hup]
      omega
    have hrow : top+(o/g.pitch.toNat+8)/8 = top+1+o/g.pitch.toNat/8 := by omega
    rw [hbytes _ hin, Geometry.picture, Geometry.picture, hup, hcol, hrow, Nat.add_mod_right]
    exact if_congr (by omega) rfl rfl
  · have hrow : top+1+o/g.pitch.toNat/8 = top+g.height.toNat/8 := by omega
    rw [Geometry.picture, hrow, hblank, colorByte_blank, ite_self]
  · rw [hbytes o ho, Geometry.picture, Geometry.picture, if_neg fun h => hlast h.2,
      if_neg fun h => hlast h.2]

theorem Geometry.Shows.scroll (h : g.Shows page top st)
    (hbot : st.vars.curRow.toNat ≤ g.height.toNat/8)
    (hblank : g.height.toNat/8 ≤ page.row-top → ∀ c, page.cell page.row c = chr ' ') :
    g.Shows page (if g.height.toNat/8 ≤ page.row-top then top+1 else top) (fbPutcScroll st) := by
  have hheight : 8 ≤ g.height.toNat := g.height_ge
  have hrows := h.geom.rows_toNat
  have hrow := h.row
  rw [fbPutcScroll]
  by_cases hfull : g.height.toNat/8 ≤ page.row-top
  · rw [if_pos hfull, if_pos (by bv_omega)]
    have hlast : top+g.height.toNat/8 = page.row := by omega
    have hgeom : FbGeom g (scrollUp st).vars := by
      rw [scrollUp_vars]
      exact h.geom
    refine ⟨hgeom.moveTo _ _, h.col, ?_, fun o ho => ?_⟩
    · change top+1+(st.vars.rows-1).toNat = page.row
      bv_omega
    · exact Geometry.picture_scroll h.geom h.bytes (fun c => hlast ▸ hblank hfull c) ho
  · rw [if_neg hfull, if_neg (by bv_omega)]
    exact h

/-- A character that finds a column shows the page with its key struck. -/
theorem Geometry.Shows.putc (h : g.Shows page (page.top (g.height.toNat/8)) st)
    (hbot : st.vars.curRow < st.vars.rows) (hblank : page.BlankBelow (chr ' '))
    (hroom : g.Room page c) :
    g.Shows (page.press (g.width.toNat/8) 8 (keyOf c))
      ((page.press (g.width.toNat/8) 8 (keyOf c)).top (g.height.toNat/8)) (fbPutc st c) := by
  have hheight : 8 ≤ g.height.toNat := g.height_ge
  have hmoved := h.move hbot hroom
  have hrows := h.geom.rows_toNat
  have hrow := h.row
  have hstep := @Page.press_row _ (g.width.toNat/8) 8 page (keyOf c)
  have hrow' := hmoved.row
  rw [BitVec.lt_def] at hbot
  rw [fbPutc, if_pos h.geom.ready, Page.top_press (by omega)]
  apply hmoved.scroll
  · omega
  · intro hfull
    exact hblank.press_row (by omega)

end Shows

section Text
variable {g : Geometry}

theorem Geometry.typed_snoc (text : List Byte) (c : Byte) :
    g.typed (text ++ [c]) = (g.typed text).press (g.width.toNat/8) 8 (keyOf c) := by
  rw [Geometry.typed, List.map_append, List.map_singleton, Page.type_snoc]
  rfl

/-- `fb_init` leaves a screen of zeros, which shows an empty page. -/
theorem Geometry.shows_screen (g : Geometry) (v : FbVars) (mem : Mem) :
    g.Shows (g.typed []) ((g.typed []).top (g.height.toNat/8)) (g.screen v mem) := by
  have hheight : 8 ≤ g.height.toNat := g.height_ge
  have hsize := g.size_lt
  have hinv := fbInv_screen g v mem
  have harea : (g.height*g.pitch).toNat = g.height.toNat*g.pitch.toNat := by
    rw [BitVec.toNat_mul, Nat.mod_eq_of_lt hsize]
  have htop : (g.typed []).top (g.height.toNat/8) = 0 := by
    change 0+1-g.height.toNat/8 = 0
    omega
  have hvars : (g.screen v mem).vars = ⟨g.addr, g.width, g.height, g.pitch, g.bpp, g.width/fontW,
      g.height/fontH, 0, 0, true⟩ := Fb.storeLoop_vars
  refine ⟨hinv.toFbGeom, by rw [hvars]; rfl, by rw [htop, hvars]; rfl, fun o ho => ?_⟩
  have hpage : g.picture (g.typed []) 0 o = 0 := by
    rw [Geometry.picture]
    change (if _ then colorByte g.bpp (dotColor (chr ' ') _ _) _ else 0) = (0 : Byte)
    rw [colorByte_blank, ite_self]
  have hclear := g.byteAt_clear (a := 0) (l := g.height*g.pitch)
    ⟨⟨g.addr, g.width, g.height, g.pitch, g.bpp, g.width/fontW, g.height/fontH, 0, 0, true⟩,
      mem, [], []⟩ 0 (by omega) (o := o) (by omega)
  rw [if_pos ⟨Nat.zero_le o, by omega⟩] at hclear
  rw [htop, hpage, ← hclear]
  exact congrArg (fun p => g.byteAt (Fb.storeLoop _ p _ _) o) (BitVec.add_zero g.addr).symm

/-- What has been written is shown, as long as each character found a column. -/
theorem Geometry.shows_typed (v : FbVars) (mem : Mem) {text : List Byte}
    (hroom : ∀ pre c, pre ++ [c] <+: text → g.Room (g.typed pre) c) :
    g.Shows (g.typed text) ((g.typed text).top (g.height.toNat/8))
      (text.foldl fbPutc (g.screen v mem)) ∧
    FbInv g (text.foldl fbPutc (g.screen v mem)).vars := by
  induction text using List.reverseRecOn with
  | nil => exact ⟨g.shows_screen v mem, fbInv_screen g v mem⟩
  | append_singleton text c ih =>
    obtain ⟨hshows, hinv⟩ := ih fun pre c' hpre => hroom pre c' (hpre.trans (List.prefix_append _ _))
    rw [List.foldl_append, List.foldl_cons, List.foldl_nil, Geometry.typed_snoc]
    have hblank : (g.typed text).BlankBelow (chr ' ') := Page.blankBelow_empty.type _
    exact ⟨hshows.putc hinv.row hblank (hroom text c (List.prefix_refl _)), hinv.fbPutc c⟩

theorem keyOf_ne_tab {c : Byte} (hc : c ≠ chr '\t') : keyOf c ≠ .tab := by
  rw [keyOf]
  split_ifs <;> simp

/-- A text without tabs keeps to the columns of the screen. -/
theorem Geometry.typed_col_lt (g : Geometry) {text : List Byte} (htab : chr '\t' ∉ text) :
    (g.typed text).col < g.width.toNat/8 := by
  have hwidth : 8 ≤ g.width.toNat := g.width_ge
  apply Page.type_col_lt
  · intro hmem
    obtain ⟨c, hc, hkey⟩ := List.mem_map.mp hmem
    exact keyOf_ne_tab (fun he => htab (he ▸ hc)) hkey
  · change 0 < g.width.toNat/8
    omega

theorem Geometry.room_of_no_tab (g : Geometry) {text : List Byte} (htab : chr '\t' ∉ text)
    (pre : List Byte) (c : Byte) (hpre : pre ++ [c] <+: text) : g.Room (g.typed pre) c := by
  have hlt := g.typed_col_lt fun hmem => htab (hpre.subset (List.mem_append_left [c] hmem))
  have hwidth := g.width.isLt
  exact ⟨by omega, fun _ => hlt⟩

/-- The page of a text that is drawn as it stands. -/
theorem Geometry.typed_printing (g : Geometry) {text : List Byte} (h : ∀ c ∈ text, Printing c) :
    g.typed text = (Page.empty (chr ' ')).type (g.width.toNat/8) 8 (text.map .char) := by
  rw [Geometry.typed]
  congr 1
  apply List.map_congr_left
  intro c hc
  obtain ⟨hn, hr, ht, hb⟩ := h c hc
  rw [keyOf, if_neg hn, if_neg hr, if_neg ht, if_neg hb]

end Text

/-- Whatever is written after `fb_init`, as long as each character that is drawn finds a column
on the screen: every byte of the framebuffer is the picture of the last rows of the page that the
text is typed on, and the cursor is at the carriage. -/
theorem fb_shows_page (g : Geometry) (v : FbVars) (mem : Mem) (text : List Byte)
    (hroom : ∀ pre c, pre ++ [c] <+: text → g.Room (g.typed pre) c) :
    let st := text.foldl fbPutc (g.screen v mem)
    let page := g.typed text
    let top := page.top (g.height.toNat/8)
    (∀ o < g.height.toNat*g.pitch.toNat, g.byteAt st o = g.picture page top o) ∧
      st.vars.curCol.toNat = page.col ∧ top+st.vars.curRow.toNat = page.row := by
  obtain ⟨hshows, -⟩ := Geometry.shows_typed v mem hroom
  exact ⟨hshows.bytes, hshows.col, hshows.row⟩

/-- Two columns and two rows of 24-bit pixels. -/
def fourCells : Geometry := ⟨0xfd000000, 16, 16, 64, 24, by decide, by decide, by decide, by decide,
  by decide⟩

/-- Four lines on two rows: the third and the last are seen. -/
theorem fb_shows_page_lines :
    let text := [chr 'A', chr '\n', chr 'B', chr '\n', chr 'C', chr '\n', chr 'D']
    let st := text.foldl fbPutc (fourCells.screen ⟨0, 0, 0, 0, 0, 0, 0, 0, 0, false⟩ (fun _ => 0))
    ∀ o < 1024, fourCells.byteAt st o = fourCells.picture (fourCells.typed text) 2 o :=
  (fb_shows_page fourCells _ _ _ (fourCells.room_of_no_tab (by decide))).1

/-- Text that is drawn as it stands fills the rows one after the other, and the screen shows the
last of them. -/
theorem fb_shows_text (g : Geometry) (v : FbVars) (mem : Mem) (text : List Byte)
    (hprint : ∀ c ∈ text, Printing c) {o : ℕ} (ho : o < g.height.toNat*g.pitch.toNat) :
    let cols := g.width.toNat/8
    let rows := g.height.toNat/8
    let y := o/g.pitch.toNat
    let x := o%g.pitch.toNat/(g.bpp.toNat/8)
    g.byteAt (text.foldl fbPutc (g.screen v mem)) o =
      if x/8 < cols ∧ y/8 < rows then
        colorByte g.bpp (dotColor (text.getD ((text.length/cols+1-rows+y/8)*cols+x/8) (chr ' '))
          (y%8) (x%8)) (o%g.pitch.toNat%(g.bpp.toNat/8))
      else 0 := by
  intro cols rows y x
  have hwidth : 8 ≤ g.width.toNat := g.width_ge
  have htab : chr '\t' ∉ text := fun hmem => (hprint _ hmem).2.2.1 rfl
  obtain ⟨hshows, -⟩ := Geometry.shows_typed v mem (g.room_of_no_tab htab)
  rw [hshows.bytes o ho, Geometry.picture, g.typed_printing hprint]
  obtain ⟨hcol, hpassed, hcell⟩ := @Page.type_chars _ cols 8 (by omega) (chr ' ') text
  have hrow : ((Page.empty (chr ' ')).type cols 8 (text.map .char)).row = text.length/cols := by
    rw [← hpassed, Page.passed, Nat.mul_comm, Nat.mul_add_div (by omega), Nat.div_eq_of_lt hcol,
      Nat.add_zero]
  by_cases hin : x/8 < cols ∧ y/8 < rows
  · rw [if_pos hin, Page.top, hrow, hcell _ _ hin.1]
    exact (if_pos hin).symm
  · rw [if_neg hin]
    exact (if_neg hin).symm

/-- The first line has scrolled away, and the fourth character ends the top row. -/
theorem fb_shows_text_fourth :
    let text := [chr 'A', chr 'B', chr 'C', chr 'D', chr 'E']
    let st := text.foldl fbPutc (fourCells.screen ⟨0, 0, 0, 0, 0, 0, 0, 0, 0, false⟩ (fun _ => 0))
    fourCells.byteAt st 27 = colorByte 24 (dotColor (chr 'D') 0 1) 0 :=
  fb_shows_text fourCells _ _ _ (by unfold Printing; decide) (by decide)

end Dana
