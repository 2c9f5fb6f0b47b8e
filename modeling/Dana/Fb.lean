import Dana.Printf
import Dana.Transition

/-! The framebuffer console of hal/x86_64/fb.c. Pixels and stores are recorded, the last first. -/
namespace Dana
open ByteMem Transition

def fontW : BitVec 32 := 8
def fontH : BitVec 32 := 8
def fg : BitVec 32 := 0x00E8E8E8
def bg : BitVec 32 := 0x00000000

/-- ASCII 0x20 to 0x7F, a byte for each row of a glyph. -/
def font : List (List Byte) := [
  [0x00, 0x00, 0x00, 0x00, 0x00, 0x00, 0x00, 0x00],
  [0x18, 0x3C, 0x3C, 0x18, 0x18, 0x00, 0x18, 0x00],
  [0x36, 0x36, 0x00, 0x00, 0x00, 0x00, 0x00, 0x00],
  [0x36, 0x36, 0x7F, 0x36, 0x7F, 0x36, 0x36, 0x00],
  [0x0C, 0x3E, 0x03, 0x1E, 0x30, 0x1F, 0x0C, 0x00],
  [0x00, 0x63, 0x33, 0x18, 0x0C, 0x66, 0x63, 0x00],
  [0x1C, 0x36, 0x1C, 0x6E, 0x3B, 0x33, 0x6E, 0x00],
  [0x06, 0x06, 0x03, 0x00, 0x00, 0x00, 0x00, 0x00],
  [0x18, 0x0C, 0x06, 0x06, 0x06, 0x0C, 0x18, 0x00],
  [0x06, 0x0C, 0x18, 0x18, 0x18, 0x0C, 0x06, 0x00],
  [0x00, 0x66, 0x3C, 0xFF, 0x3C, 0x66, 0x00, 0x00],
  [0x00, 0x0C, 0x0C, 0x3F, 0x0C, 0x0C, 0x00, 0x00],
  [0x00, 0x00, 0x00, 0x00, 0x00, 0x0C, 0x0C, 0x06],
  [0x00, 0x00, 0x00, 0x3F, 0x00, 0x00, 0x00, 0x00],
  [0x00, 0x00, 0x00, 0x00, 0x00, 0x0C, 0x0C, 0x00],
  [0x60, 0x30, 0x18, 0x0C, 0x06, 0x03, 0x01, 0x00],
  [0x3E, 0x63, 0x73, 0x7B, 0x6F, 0x67, 0x3E, 0x00],
  [0x0C, 0x0E, 0x0C, 0x0C, 0x0C, 0x0C, 0x3F, 0x00],
  [0x1E, 0x33, 0x30, 0x1C, 0x06, 0x33, 0x3F, 0x00],
  [0x1E, 0x33, 0x30, 0x1C, 0x30, 0x33, 0x1E, 0x00],
  [0x38, 0x3C, 0x36, 0x33, 0x7F, 0x30, 0x78, 0x00],
  [0x3F, 0x03, 0x1F, 0x30, 0x30, 0x33, 0x1E, 0x00],
  [0x1C, 0x06, 0x03, 0x1F, 0x33, 0x33, 0x1E, 0x00],
  [0x3F, 0x33, 0x30, 0x18, 0x0C, 0x0C, 0x0C, 0x00],
  [0x1E, 0x33, 0x33, 0x1E, 0x33, 0x33, 0x1E, 0x00],
  [0x1E, 0x33, 0x33, 0x3E, 0x30, 0x18, 0x0E, 0x00],
  [0x00, 0x0C, 0x0C, 0x00, 0x00, 0x0C, 0x0C, 0x00],
  [0x00, 0x0C, 0x0C, 0x00, 0x00, 0x0C, 0x0C, 0x06],
  [0x18, 0x0C, 0x06, 0x03, 0x06, 0x0C, 0x18, 0x00],
  [0x00, 0x00, 0x3F, 0x00, 0x00, 0x3F, 0x00, 0x00],
  [0x06, 0x0C, 0x18, 0x30, 0x18, 0x0C, 0x06, 0x00],
  [0x1E, 0x33, 0x30, 0x18, 0x0C, 0x00, 0x0C, 0x00],
  [0x3E, 0x63, 0x7B, 0x7B, 0x7B, 0x03, 0x1E, 0x00],
  [0x0C, 0x1E, 0x33, 0x33, 0x3F, 0x33, 0x33, 0x00],
  [0x3F, 0x66, 0x66, 0x3E, 0x66, 0x66, 0x3F, 0x00],
  [0x3C, 0x66, 0x03, 0x03, 0x03, 0x66, 0x3C, 0x00],
  [0x1F, 0x36, 0x66, 0x66, 0x66, 0x36, 0x1F, 0x00],
  [0x7F, 0x46, 0x16, 0x1E, 0x16, 0x46, 0x7F, 0x00],
  [0x7F, 0x46, 0x16, 0x1E, 0x16, 0x06, 0x0F, 0x00],
  [0x3C, 0x66, 0x03, 0x03, 0x73, 0x66, 0x7C, 0x00],
  [0x33, 0x33, 0x33, 0x3F, 0x33, 0x33, 0x33, 0x00],
  [0x1E, 0x0C, 0x0C, 0x0C, 0x0C, 0x0C, 0x1E, 0x00],
  [0x78, 0x30, 0x30, 0x30, 0x33, 0x33, 0x1E, 0x00],
  [0x67, 0x66, 0x36, 0x1E, 0x36, 0x66, 0x67, 0x00],
  [0x0F, 0x06, 0x06, 0x06, 0x46, 0x66, 0x7F, 0x00],
  [0x63, 0x77, 0x7F, 0x7F, 0x6B, 0x63, 0x63, 0x00],
  [0x63, 0x67, 0x6F, 0x7B, 0x73, 0x63, 0x63, 0x00],
  [0x1C, 0x36, 0x63, 0x63, 0x63, 0x36, 0x1C, 0x00],
  [0x3F, 0x66, 0x66, 0x3E, 0x06, 0x06, 0x0F, 0x00],
  [0x1E, 0x33, 0x33, 0x33, 0x3B, 0x1E, 0x38, 0x00],
  [0x3F, 0x66, 0x66, 0x3E, 0x36, 0x66, 0x67, 0x00],
  [0x1E, 0x33, 0x07, 0x0E, 0x38, 0x33, 0x1E, 0x00],
  [0x3F, 0x2D, 0x0C, 0x0C, 0x0C, 0x0C, 0x1E, 0x00],
  [0x33, 0x33, 0x33, 0x33, 0x33, 0x33, 0x3F, 0x00],
  [0x33, 0x33, 0x33, 0x33, 0x33, 0x1E, 0x0C, 0x00],
  [0x63, 0x63, 0x63, 0x6B, 0x7F, 0x77, 0x63, 0x00],
  [0x63, 0x63, 0x36, 0x1C, 0x1C, 0x36, 0x63, 0x00],
  [0x33, 0x33, 0x33, 0x1E, 0x0C, 0x0C, 0x1E, 0x00],
  [0x7F, 0x63, 0x31, 0x18, 0x4C, 0x66, 0x7F, 0x00],
  [0x1E, 0x06, 0x06, 0x06, 0x06, 0x06, 0x1E, 0x00],
  [0x03, 0x06, 0x0C, 0x18, 0x30, 0x60, 0x40, 0x00],
  [0x1E, 0x18, 0x18, 0x18, 0x18, 0x18, 0x1E, 0x00],
  [0x08, 0x1C, 0x36, 0x63, 0x00, 0x00, 0x00, 0x00],
  [0x00, 0x00, 0x00, 0x00, 0x00, 0x00, 0x00, 0xFF],
  [0x0C, 0x0C, 0x18, 0x00, 0x00, 0x00, 0x00, 0x00],
  [0x00, 0x00, 0x1E, 0x30, 0x3E, 0x33, 0x6E, 0x00],
  [0x07, 0x06, 0x06, 0x3E, 0x66, 0x66, 0x3B, 0x00],
  [0x00, 0x00, 0x1E, 0x33, 0x03, 0x33, 0x1E, 0x00],
  [0x38, 0x30, 0x30, 0x3E, 0x33, 0x33, 0x6E, 0x00],
  [0x00, 0x00, 0x1E, 0x33, 0x3F, 0x03, 0x1E, 0x00],
  [0x1C, 0x36, 0x06, 0x0F, 0x06, 0x06, 0x0F, 0x00],
  [0x00, 0x00, 0x6E, 0x33, 0x33, 0x3E, 0x30, 0x1F],
  [0x07, 0x06, 0x36, 0x6E, 0x66, 0x66, 0x67, 0x00],
  [0x0C, 0x00, 0x0E, 0x0C, 0x0C, 0x0C, 0x1E, 0x00],
  [0x30, 0x00, 0x30, 0x30, 0x30, 0x33, 0x33, 0x1E],
  [0x07, 0x06, 0x66, 0x36, 0x1E, 0x36, 0x67, 0x00],
  [0x0E, 0x0C, 0x0C, 0x0C, 0x0C, 0x0C, 0x1E, 0x00],
  [0x00, 0x00, 0x33, 0x7F, 0x7F, 0x6B, 0x63, 0x00],
  [0x00, 0x00, 0x1F, 0x33, 0x33, 0x33, 0x33, 0x00],
  [0x00, 0x00, 0x1E, 0x33, 0x33, 0x33, 0x1E, 0x00],
  [0x00, 0x00, 0x3B, 0x66, 0x66, 0x3E, 0x06, 0x0F],
  [0x00, 0x00, 0x6E, 0x33, 0x33, 0x3E, 0x30, 0x78],
  [0x00, 0x00, 0x3B, 0x6E, 0x66, 0x06, 0x0F, 0x00],
  [0x00, 0x00, 0x3E, 0x03, 0x1E, 0x30, 0x1F, 0x00],
  [0x08, 0x0C, 0x3E, 0x0C, 0x0C, 0x2C, 0x18, 0x00],
  [0x00, 0x00, 0x33, 0x33, 0x33, 0x33, 0x6E, 0x00],
  [0x00, 0x00, 0x33, 0x33, 0x33, 0x1E, 0x0C, 0x00],
  [0x00, 0x00, 0x63, 0x6B, 0x7F, 0x7F, 0x36, 0x00],
  [0x00, 0x00, 0x63, 0x36, 0x1C, 0x36, 0x63, 0x00],
  [0x00, 0x00, 0x33, 0x33, 0x33, 0x3E, 0x30, 0x1F],
  [0x00, 0x00, 0x3F, 0x19, 0x0C, 0x26, 0x3F, 0x00],
  [0x38, 0x0C, 0x0C, 0x07, 0x0C, 0x0C, 0x38, 0x00],
  [0x18, 0x18, 0x18, 0x00, 0x18, 0x18, 0x18, 0x00],
  [0x07, 0x0C, 0x0C, 0x38, 0x0C, 0x0C, 0x07, 0x00],
  [0x6E, 0x3B, 0x00, 0x00, 0x00, 0x00, 0x00, 0x00],
  [0x00, 0x00, 0x00, 0x00, 0x00, 0x00, 0x00, 0x00]]

/-- The static variables of fb.c. -/
structure FbVars where
  addr : Word
  width : BitVec 32
  height : BitVec 32
  pitch : BitVec 32
  bpp : Byte
  cols : BitVec 32
  rows : BitVec 32
  curCol : BitVec 32
  curRow : BitVec 32
  ready : Bool

structure Fb where
  vars : FbVars
  mem : Mem
  pixels : List (BitVec 32 × BitVec 32)
  stores : List Word

def Fb.store (st : Fb) (a : Word) (v : Byte) : Fb :=
  {st with mem := Function.update st.mem a v, stores := a :: st.stores}

/-- `for (uint32_t i = 0; i < n; i++) p[i] = v(i)`, where `v` may look at the memory. -/
def Fb.storeLoop (st : Fb) (p : Word) (v : Mem → Word → Byte) (n : BitVec 32) : Fb :=
  (List.range n.toNat).foldl (fun st i =>
    st.store (p+BitVec.ofNat 64 i) (v st.mem (BitVec.ofNat 64 i))) st

def pixelAddr (v : FbVars) (x y : BitVec 32) : Word :=
  v.addr+(y*v.pitch).setWidth 64+(x*(v.bpp/8).setWidth 32).setWidth 64

def putPixel (st : Fb) (x y color : BitVec 32) : Fb :=
  let p := pixelAddr st.vars x y
  let st : Fb := {st with pixels := (x, y) :: st.pixels}
  if st.vars.bpp = 32 then
    (((st.store p (color.setWidth 8)).store (p+1) ((color>>>8).setWidth 8)).store (p+2)
      ((color>>>16).setWidth 8)).store (p+3) 0
  else if st.vars.bpp = 24 then
    ((st.store p (color.setWidth 8)).store (p+1) ((color>>>8).setWidth 8)).store (p+2)
      ((color>>>16).setWidth 8)
  else if st.vars.bpp = 16 then
    let c : BitVec 16 := (((color>>>19) &&& 0x1f)<<<11 ||| ((color>>>10) &&& 0x3f)<<<5 |||
      ((color>>>3) &&& 0x1f)).setWidth 16
    (st.store p (c.setWidth 8)).store (p+1) ((c>>>8).setWidth 8)
  else st

/-- A glyph has '?' for what is not ASCII from 0x20 on; the low bit of a row is its left end. -/
def drawChar (st : Fb) (col row : BitVec 32) (c : Byte) : Fb :=
  let c := if c < 0x20 ∨ 0x7F < c then chr '?' else c
  let glyph := font.getD (c-0x20).toNat []
  (List.range 8).foldl (fun st gy => (List.range 8).foldl (fun st gx =>
    putPixel st (col*fontW+BitVec.ofNat 32 gx) (row*fontH+BitVec.ofNat 32 gy)
      (if (glyph.getD gy 0).getLsbD gx then fg else bg)) st) st

def scrollUp (st : Fb) : Fb :=
  let rowBytes := st.vars.pitch*fontH
  let src := st.vars.addr+rowBytes.setWidth 64
  let copyBytes := rowBytes*(st.vars.rows-1)
  let st' := st.storeLoop st.vars.addr (fun m i => m (src+i)) copyBytes
  st'.storeLoop (st.vars.addr+copyBytes.setWidth 64) (fun _ _ => 0) rowBytes

def fbInit (st : Fb) (addr : Word) (width height pitch : BitVec 32) (bpp : Byte) : Fb :=
  {st with vars := ⟨addr, width, height, pitch, bpp, width/fontW, height/fontH, 0, 0, true⟩}.storeLoop
    addr (fun _ _ => 0) (height*pitch)

/-- A character that is drawn. -/
def Printing (c : Byte) : Prop := c ≠ chr '\n' ∧ c ≠ chr '\r' ∧ c ≠ chr '\t' ∧ c ≠ 8

def Fb.moveTo (st : Fb) (col row : BitVec 32) : Fb :=
  {st with vars := {st.vars with curCol := col, curRow := row}}

/-- The cursor after a drawn character. -/
def fbAdvance (st : Fb) : Fb :=
  if st.vars.cols ≤ st.vars.curCol+1 then st.moveTo 0 (st.vars.curRow+1)
  else st.moveTo (st.vars.curCol+1) st.vars.curRow

/-- The first half of `fb_putc`: the character is drawn, or moves the cursor. -/
def fbPutcMove (st : Fb) (c : Byte) : Fb :=
  let col := st.vars.curCol
  let row := st.vars.curRow
  if c = chr '\n' then st.moveTo 0 (row+1)
  else if c = chr '\r' then st.moveTo 0 row
  else if c = chr '\t' then st.moveTo ((col+8) &&& ~~~7) row
  else if c = 8 then if 0 < col then st.moveTo (col-1) row else st
  else fbAdvance (drawChar st col row c)

/-- The second half: the screen scrolls when the cursor has left it at the bottom. -/
def fbPutcScroll (st : Fb) : Fb :=
  if st.vars.rows ≤ st.vars.curRow then
    (scrollUp st).moveTo st.vars.curCol (st.vars.rows-1)
  else st

def fbPutc (st : Fb) (c : Byte) : Fb :=
  if st.vars.ready then fbPutcScroll (fbPutcMove st c) else st

/-- A framebuffer as the bootloader reports it. -/
structure Geometry where
  addr : Word
  width : BitVec 32
  height : BitVec 32
  pitch : BitVec 32
  bpp : Byte
  width_ge : 8 ≤ width
  height_ge : 8 ≤ height
  bpp_eq : bpp = 16 ∨ bpp = 24 ∨ bpp = 32
  row_le : width.toNat*bpp.toNat/8 ≤ pitch.toNat
  size_lt : height.toNat*pitch.toNat < 2^32

/-- Every pixel is on the screen and every store in the framebuffer. -/
def Geometry.OnScreen (g : Geometry) (st : Fb) : Prop :=
  (∀ p ∈ st.pixels, p.1 < g.width ∧ p.2 < g.height) ∧
    ∀ a ∈ st.stores, (a-g.addr).toNat < g.height.toNat*g.pitch.toNat

/-- The console after `fb_init`. -/
def Geometry.screen (g : Geometry) (v : FbVars) (mem : Mem) : Fb :=
  fbInit ⟨v, mem, [], []⟩ g.addr g.width g.height g.pitch g.bpp

/-- The variables that `fb_init` sets for `g` and nothing changes. -/
structure FbGeom (g : Geometry) (v : FbVars) : Prop where
  addr : v.addr = g.addr
  pitch : v.pitch = g.pitch
  bpp : v.bpp = g.bpp
  cols : v.cols = g.width/8
  rows : v.rows = g.height/8
  ready : v.ready = true

/-- Between two characters the cursor is in a row of the screen. -/
structure FbInv (g : Geometry) (v : FbVars) : Prop extends FbGeom g v where
  row : v.curRow < v.rows

/-- A character that is drawn finds the cursor in a column of the screen; the code takes eight
times the column modulo 2^32. -/
def Fb.Fits (st : Fb) (c : Byte) : Prop :=
  Printing c → st.vars.curCol.toNat%2^29 < st.vars.cols.toNat

section Store
variable {g : Geometry} {st : Fb} {p : Word} {v : Mem → Word → Byte} {n : BitVec 32}

theorem Geometry.OnScreen.store (h : g.OnScreen st) {a : Word}
    (ha : (a-g.addr).toNat < g.height.toNat*g.pitch.toNat) (b : Byte) :
    g.OnScreen (st.store a b) := by
  refine ⟨h.1, ?_⟩
  intro x hx
  rcases List.mem_cons.mp hx with rfl | hx
  · exact ha
  · exact h.2 x hx

theorem Fb.storeLoop_vars : (st.storeLoop p v n).vars = st.vars :=
  List.foldlRecOn (motive := fun s : Fb => s.vars = st.vars) _ _ rfl fun _ h _ _ => h

theorem Fb.storeLoop_pixels : (st.storeLoop p v n).pixels = st.pixels :=
  List.foldlRecOn (motive := fun s : Fb => s.pixels = st.pixels) _ _ rfl fun _ h _ _ => h

theorem Geometry.OnScreen.storeLoop (h : g.OnScreen st) {k : ℕ}
    (hp : (p-g.addr).toNat = k) (hk : k+n.toNat ≤ g.height.toNat*g.pitch.toNat) :
    g.OnScreen (st.storeLoop p v n) := by
  have hsize := g.size_lt
  apply List.foldlRecOn (motive := fun s : Fb => g.OnScreen s) _ _ h
  intro s hs i hi
  have hi : i < n.toNat := List.mem_range.mp hi
  apply hs.store
  bv_omega

end Store

section Draw

theorem FbGeom.cols_toNat {g : Geometry} {v : FbVars} (h : FbGeom g v) :
    v.cols.toNat = g.width.toNat/8 := by
  rw [h.cols, BitVec.toNat_udiv]
  rfl

theorem FbGeom.rows_toNat {g : Geometry} {v : FbVars} (h : FbGeom g v) :
    v.rows.toNat = g.height.toNat/8 := by
  rw [h.rows, BitVec.toNat_udiv]
  rfl

variable {g : Geometry} {st : Fb} {x y col row : BitVec 32} {c : Byte}

/-- The pixel bytes of a row of the screen are in its pitch. -/
theorem Geometry.pixel_le (g : Geometry) {x : ℕ} (hx : x < g.width.toNat) :
    (x+1)*(g.bpp.toNat/8) ≤ g.pitch.toNat := by
  have hrow := g.row_le
  rcases g.bpp_eq with hb | hb | hb <;> rw [hb] at hrow ⊢ <;>
    simp only [BitVec.reduceToNat, Nat.reduceDiv] at hrow ⊢ <;> omega

/-- The bytes of a pixel on the screen are in the framebuffer. -/
theorem FbGeom.pixel_lt {v : FbVars} (h : FbGeom g v) (hx : x < g.width) (hy : y < g.height)
    {k : ℕ} (hk : k < g.bpp.toNat/8) :
    (pixelAddr v x y+BitVec.ofNat 64 k-g.addr).toNat < g.height.toNat*g.pitch.toNat := by
  have hsize := g.size_lt
  have hbytes : y.toNat*g.pitch.toNat+x.toNat*(g.bpp.toNat/8)+k < g.height.toNat*g.pitch.toNat := by
    calc y.toNat*g.pitch.toNat+x.toNat*(g.bpp.toNat/8)+k
        < y.toNat*g.pitch.toNat+(x.toNat+1)*(g.bpp.toNat/8) := by
          rw [Nat.add_mul x.toNat]
          omega
      _ ≤ y.toNat*g.pitch.toNat+g.pitch.toNat := Nat.add_le_add_left (g.pixel_le hx) _
      _ = (y.toNat+1)*g.pitch.toNat := (Nat.succ_mul _ _).symm
      _ ≤ g.height.toNat*g.pitch.toNat := Nat.mul_le_mul_right _ hy
  have hyp : (y*g.pitch).toNat = y.toNat*g.pitch.toNat := by
    rw [BitVec.toNat_mul, Nat.mod_eq_of_lt (by omega)]
  have hbpp : ((g.bpp/8).setWidth 32).toNat = g.bpp.toNat/8 := by
    have hlt := g.bpp.isLt
    rw [BitVec.toNat_setWidth, BitVec.toNat_udiv]
    change g.bpp.toNat/8%2^32 = g.bpp.toNat/8
    omega
  have hxb : (x*(g.bpp/8).setWidth 32).toNat = x.toNat*(g.bpp.toNat/8) := by
    rw [BitVec.toNat_mul, hbpp, Nat.mod_eq_of_lt (by omega)]
  rw [pixelAddr, h.addr, h.pitch, h.bpp]
  generalize y*g.pitch = a at hyp
  generalize x*(g.bpp/8).setWidth 32 = b at hxb
  bv_omega

theorem putPixel_vars (color : BitVec 32) : (putPixel st x y color).vars = st.vars := by
  rw [putPixel]
  split_ifs <;> rfl

theorem putPixel_pixels (color : BitVec 32) :
    (putPixel st x y color).pixels = (x, y) :: st.pixels := by
  rw [putPixel]
  split_ifs <;> rfl

/-- A pixel on the screen is drawn there. -/
theorem Geometry.OnScreen.putPixel (h : g.OnScreen st) (hv : FbGeom g st.vars)
    (hx : x < g.width) (hy : y < g.height) (color : BitVec 32) :
    g.OnScreen (putPixel st x y color) := by
  have hoff (k : ℕ) (hk : k < g.bpp.toNat/8) := hv.pixel_lt hx hy hk
  have hpix : g.OnScreen {st with pixels := (x, y) :: st.pixels} := by
    refine ⟨?_, h.2⟩
    intro p hp
    rcases List.mem_cons.mp hp with rfl | hp
    · exact ⟨hx, hy⟩
    · exact h.1 p hp
  have h0 : 0 < g.bpp.toNat/8 →
      (pixelAddr st.vars x y-g.addr).toNat < g.height.toNat*g.pitch.toNat := by
    intro hk
    simpa using hoff 0 hk
  rw [Dana.putPixel]
  split_ifs with h1 h2 h3 <;> rw [hv.bpp] at *
  · rw [h1] at hoff h0
    exact (((hpix.store (h0 (by decide)) _).store (hoff 1 (by decide)) _).store
      (hoff 2 (by decide)) _).store (hoff 3 (by decide)) _
  · rw [h2] at hoff h0
    exact ((hpix.store (h0 (by decide)) _).store (hoff 1 (by decide)) _).store
      (hoff 2 (by decide)) _
  · rw [h3] at hoff h0
    exact (hpix.store (h0 (by decide)) _).store (hoff 1 (by decide)) _
  · exact hpix

theorem mem_foldl_pixels {A : Type*} {f : Fb → A → Fb} {Q : A → BitVec 32 × BitVec 32 → Prop}
    (hf : ∀ st a p, p ∈ (f st a).pixels ↔ p ∈ st.pixels ∨ Q a p) (l : List A) (st : Fb)
    (p : BitVec 32 × BitVec 32) :
    p ∈ (l.foldl f st).pixels ↔ p ∈ st.pixels ∨ ∃ a ∈ l, Q a p := by
  induction l generalizing st with
  | nil => simp
  | cons a l ih => rw [List.foldl_cons, ih, hf, List.exists_mem_cons_iff, or_assoc]

/-- The pixels of a glyph. -/
theorem drawChar_pixels (p : BitVec 32 × BitVec 32) : p ∈ (drawChar st col row c).pixels ↔
    p ∈ st.pixels ∨ ∃ gy ∈ List.range 8, ∃ gx ∈ List.range 8,
      p = (col*fontW+BitVec.ofNat 32 gx, row*fontH+BitVec.ofNat 32 gy) := by
  rw [drawChar]
  apply mem_foldl_pixels (Q := fun gy p => ∃ gx ∈ List.range 8,
    p = (col*fontW+BitVec.ofNat 32 gx, row*fontH+BitVec.ofNat 32 gy))
  intro st gy p
  apply mem_foldl_pixels (Q := fun gx p =>
    p = (col*fontW+BitVec.ofNat 32 gx, row*fontH+BitVec.ofNat 32 gy))
  intro st gx p
  rw [putPixel_pixels, List.mem_cons, or_comm]

theorem drawChar_vars : (drawChar st col row c).vars = st.vars := by
  rw [drawChar]
  apply List.foldlRecOn (motive := fun s : Fb => s.vars = st.vars) _ _ rfl
  intro s hs gy _
  apply List.foldlRecOn (motive := fun s : Fb => s.vars = st.vars) _ _ hs
  intro s hs gx _
  exact (putPixel_vars _).trans hs

theorem cell_toNat (col : BitVec 32) {k : ℕ} (hk : k < 8) :
    (col*fontW+BitVec.ofNat 32 k).toNat = col.toNat%2^29*8+k := by
  rw [fontW]
  bv_omega

/-- The character at a column and row of the screen is drawn on it. -/
theorem Geometry.OnScreen.drawChar (h : g.OnScreen st) (hv : FbGeom g st.vars)
    (hcol : col.toNat%2^29 < st.vars.cols.toNat) (hrow : row < st.vars.rows) :
    g.OnScreen (drawChar st col row c) := by
  rw [hv.cols_toNat] at hcol
  rw [BitVec.lt_def, hv.rows_toNat] at hrow
  rw [Dana.drawChar]
  apply And.right (a := Fb.vars _ = st.vars)
  apply List.foldlRecOn (motive := fun s : Fb => s.vars = st.vars ∧ g.OnScreen s) _ _ ⟨rfl, h⟩
  intro s hs gy hgy
  apply List.foldlRecOn (motive := fun s : Fb => s.vars = st.vars ∧ g.OnScreen s) _ _ hs
  intro s hs gx hgx
  have hgx := List.mem_range.mp hgx
  have hgy := List.mem_range.mp hgy
  refine ⟨(putPixel_vars _).trans hs.1, hs.2.putPixel (hs.1 ▸ hv) ?_ ?_ _⟩
  · rw [BitVec.lt_def, cell_toNat col hgx]
    omega
  · rw [BitVec.lt_def, fontH, ← fontW, cell_toNat row hgy]
    omega

/-- A character at another column is drawn past the right edge. -/
theorem drawChar_fits (hv : FbGeom g st.vars)
    (hp : ∀ p ∈ (drawChar st col row c).pixels, p.1 < g.width) :
    col.toNat%2^29 < st.vars.cols.toNat := by
  -- the right end of the glyph's last row
  have hedge := hp _ ((drawChar_pixels _).mpr (Or.inr ⟨7, by decide, 7, by decide, rfl⟩))
  rw [BitVec.lt_def, cell_toNat col (by decide)] at hedge
  rw [hv.cols_toNat]
  omega

end Draw

section Cursor
variable {g : Geometry} {st : Fb} {c : Byte}

theorem scrollUp_vars : (scrollUp st).vars = st.vars :=
  Fb.storeLoop_vars.trans Fb.storeLoop_vars

theorem scrollUp_pixels : (scrollUp st).pixels = st.pixels :=
  Fb.storeLoop_pixels.trans Fb.storeLoop_pixels

/-- Scrolling stores to the rows of the screen only. -/
theorem Geometry.OnScreen.scrollUp (h : g.OnScreen st) (hv : FbGeom g st.vars) :
    g.OnScreen (scrollUp st) := by
  have hsize := g.size_lt
  have hheight : 8 ≤ g.height.toNat := g.height_ge
  have hrows := hv.rows_toNat
  have hall : 8*g.pitch.toNat*(g.height.toNat/8) ≤ g.height.toNat*g.pitch.toNat := by
    calc 8*g.pitch.toNat*(g.height.toNat/8)
        = g.height.toNat/8*8*g.pitch.toNat := by ring
      _ ≤ g.height.toNat*g.pitch.toNat := Nat.mul_le_mul_right _ (Nat.div_mul_le_self _ 8)
  have hone : 8*g.pitch.toNat*1 ≤ 8*g.pitch.toNat*(g.height.toNat/8) :=
    Nat.mul_le_mul_left _ (by omega)
  -- the copied rows and the last one are the rows
  have hsplit : 8*g.pitch.toNat*(g.height.toNat/8-1)+8*g.pitch.toNat =
      8*g.pitch.toNat*(g.height.toNat/8) := by
    rw [Nat.mul_sub, Nat.mul_one]
    omega
  have hrow : (g.pitch*fontH).toNat = 8*g.pitch.toNat := by
    rw [fontH]
    bv_omega
  have hcopy : (g.pitch*fontH*(st.vars.rows-1)).toNat = 8*g.pitch.toNat*(g.height.toNat/8-1) := by
    have hpred : (st.vars.rows-1).toNat = g.height.toNat/8-1 := by bv_omega
    rw [BitVec.toNat_mul, hrow, hpred, Nat.mod_eq_of_lt (by omega)]
  rw [Dana.scrollUp, hv.pitch, hv.addr]
  refine (h.storeLoop (k := 0) ?_ ?_).storeLoop (k := (g.pitch*fontH*(st.vars.rows-1)).toNat) ?_ ?_
  · simp
  · omega
  · generalize g.pitch*fontH*(st.vars.rows-1) = n
    bv_omega
  · omega

/-- The cursor may be anywhere. -/
theorem FbGeom.moveTo (h : FbGeom g st.vars) (col row : BitVec 32) :
    FbGeom g (st.moveTo col row).vars :=
  ⟨h.addr, h.pitch, h.bpp, h.cols, h.rows, h.ready⟩

/-- `st'` has the variables of `st`, but for the cursor, which is down a row at most. -/
def Fb.Moved (st st' : Fb) : Prop := ∃ col row, st'.vars = (st.moveTo col row).vars ∧
  (row = st.vars.curRow ∨ row = st.vars.curRow+1)

theorem Fb.moved_refl (st : Fb) : st.Moved st := ⟨_, _, rfl, Or.inl rfl⟩

theorem Fb.moved_same (st : Fb) (col : BitVec 32) : st.Moved (st.moveTo col st.vars.curRow) :=
  ⟨_, _, rfl, Or.inl rfl⟩

theorem Fb.moved_down (st : Fb) (col : BitVec 32) :
    st.Moved (st.moveTo col (st.vars.curRow+1)) :=
  ⟨_, _, rfl, Or.inr rfl⟩

theorem fbAdvance_moved (st : Fb) : st.Moved (fbAdvance st) := by
  rw [fbAdvance]
  split_ifs
  · exact st.moved_down 0
  · exact st.moved_same _

theorem fbAdvance_pixels : (fbAdvance st).pixels = st.pixels := by
  rw [fbAdvance]
  split_ifs <;> rfl

theorem fbAdvance_onScreen : g.OnScreen (fbAdvance st) ↔ g.OnScreen st := by
  rw [fbAdvance]
  split_ifs <;> rfl

theorem fbPutcMove_moved (st : Fb) (c : Byte) : st.Moved (fbPutcMove st c) := by
  rw [fbPutcMove]
  split_ifs
  · exact st.moved_down 0
  · exact st.moved_same 0
  · exact st.moved_same _
  · exact st.moved_same _
  · exact st.moved_refl
  · obtain ⟨col, row, hvars, hrow⟩ :=
      fbAdvance_moved (drawChar st st.vars.curCol st.vars.curRow c)
    rw [Fb.moveTo, drawChar_vars] at hvars
    rw [drawChar_vars] at hrow
    exact ⟨col, row, hvars, hrow⟩

/-- After each character the cursor is in a row of the screen again. -/
theorem FbInv.fbPutc (h : FbInv g st.vars) (c : Byte) : FbInv g (fbPutc st c).vars := by
  obtain ⟨col, row, hvars, hrow⟩ := fbPutcMove_moved st c
  have hgeom := h.toFbGeom.moveTo col row
  rw [← hvars] at hgeom
  have hheight : 8 ≤ g.height.toNat := g.height_ge
  have hrows := hgeom.rows_toNat
  rw [Dana.fbPutc, if_pos h.ready, fbPutcScroll]
  split_ifs with hbottom
  · rw [← scrollUp_vars] at hgeom
    refine ⟨hgeom.moveTo _ _, ?_⟩
    change (Dana.fbPutcMove st c).vars.rows-1 < (Dana.scrollUp (Dana.fbPutcMove st c)).vars.rows
    rw [scrollUp_vars]
    bv_omega
  · exact ⟨hgeom, BitVec.not_le.mp hbottom⟩

theorem fbPutcScroll_pixels : (fbPutcScroll st).pixels = st.pixels := by
  rw [fbPutcScroll]
  split_ifs
  · exact scrollUp_pixels
  · rfl

theorem Geometry.OnScreen.fbPutcScroll (h : g.OnScreen st) (hv : FbGeom g st.vars) :
    g.OnScreen (fbPutcScroll st) := by
  rw [Dana.fbPutcScroll]
  split_ifs
  · exact h.scrollUp hv
  · exact h

/-- A character that fits stays on the screen. -/
theorem Geometry.OnScreen.fbPutcMove (h : g.OnScreen st) (hv : FbInv g st.vars)
    (hfits : st.Fits c) : g.OnScreen (fbPutcMove st c) := by
  rw [Dana.fbPutcMove]
  split_ifs with hn hr ht hb
  · exact h
  · exact h
  · exact h
  · exact h
  · exact h
  · exact fbAdvance_onScreen.mpr (h.drawChar hv.toFbGeom (hfits ⟨hn, hr, ht, hb⟩) hv.row)

/-- A character that does not fit draws a pixel outside of it. -/
theorem fits_of_pixels (hv : FbInv g st.vars)
    (hp : ∀ p ∈ (fbPutcMove st c).pixels, p.1 < g.width) : st.Fits c := by
  rintro ⟨hn, hr, ht, hb⟩
  rw [fbPutcMove, if_neg hn, if_neg hr, if_neg ht, if_neg hb, fbAdvance_pixels] at hp
  exact drawChar_fits hv.toFbGeom hp

theorem fbPutc_onScreen (hv : FbInv g st.vars) (h : g.OnScreen st) :
    g.OnScreen (fbPutc st c) ↔ st.Fits c := by
  obtain ⟨col, row, hvars, -⟩ := fbPutcMove_moved st c
  have hgeom := hv.toFbGeom.moveTo col row
  rw [← hvars] at hgeom
  rw [fbPutc, if_pos hv.ready]
  constructor
  · rintro ⟨hp, -⟩
    rw [fbPutcScroll_pixels] at hp
    exact fits_of_pixels hv fun p hmem => (hp p hmem).1
  · exact fun hfits => (h.fbPutcMove hv hfits).fbPutcScroll hgeom

/-- `fb_init` clears the framebuffer and puts the cursor at its start. -/
theorem fbInv_screen (g : Geometry) (v : FbVars) (mem : Mem) : FbInv g (g.screen v mem).vars := by
  have hheight : 8 ≤ g.height := g.height_ge
  have hrows : (0 : BitVec 32) < g.height/8 := by
    rw [BitVec.lt_def, BitVec.toNat_udiv]
    change 0 < g.height.toNat/8
    bv_omega
  rw [Geometry.screen, fbInit, Fb.storeLoop_vars]
  exact ⟨⟨rfl, rfl, rfl, rfl, rfl, rfl⟩, hrows⟩

theorem onScreen_screen (g : Geometry) (v : FbVars) (mem : Mem) : g.OnScreen (g.screen v mem) := by
  have hsize := g.size_lt
  have harea : (g.height*g.pitch).toNat = g.height.toNat*g.pitch.toNat := by
    rw [BitVec.toNat_mul, Nat.mod_eq_of_lt hsize]
  rw [Geometry.screen, fbInit]
  refine Geometry.OnScreen.storeLoop (k := 0) ⟨?_, ?_⟩ (by simp) (by omega)
  · exact fun p hp => absurd hp List.not_mem_nil
  · exact fun a ha => absurd ha List.not_mem_nil

/-- Only a tab moves the cursor past the last column. -/
theorem fbPutc_col_lt (hv : FbInv g st.vars) (hc : c ≠ chr '\t')
    (hcol : st.vars.curCol < st.vars.cols) :
    (fbPutc st c).vars.curCol < (fbPutc st c).vars.cols := by
  have hpos : 0 < st.vars.cols := by bv_omega
  have hadvance : ∀ {s : Fb}, s.vars = st.vars →
      (fbAdvance s).vars.curCol < (fbAdvance s).vars.cols := by
    intro s hs
    rw [← hs] at hpos
    rw [fbAdvance]
    split_ifs with hlast
    · exact hpos
    · exact BitVec.not_le.mp hlast
  have hmove : (fbPutcMove st c).vars.curCol < (fbPutcMove st c).vars.cols := by
    rw [fbPutcMove, if_neg hc]
    split_ifs with hn hr hb hleft
    · exact hpos
    · exact hpos
    · change st.vars.curCol-1 < st.vars.cols
      bv_omega
    · exact hcol
    · exact hadvance drawChar_vars
  rw [fbPutc, if_pos hv.ready, fbPutcScroll]
  split_ifs
  · change (fbPutcMove st c).vars.curCol < (scrollUp (fbPutcMove st c)).vars.cols
    rw [scrollUp_vars]
    exact hmove
  · exact hmove

theorem Fb.fits_of_lt (hv : FbInv g st.vars) (hcol : st.vars.curCol < st.vars.cols) :
    st.Fits c := by
  have hcols := hv.cols_toNat
  intro _
  bv_omega

/-- A text without tabs stays on the screen. -/
theorem onScreen_of_no_tab {text : List Byte} (htab : chr '\t' ∉ text) (hv : FbInv g st.vars)
    (h : g.OnScreen st) (hcol : st.vars.curCol < st.vars.cols) :
    g.OnScreen (text.foldl fbPutc st) := by
  induction text generalizing st with
  | nil => exact h
  | cons c text ih =>
    have hc : c ≠ chr '\t' := fun he => htab (he ▸ List.mem_cons_self)
    exact ih (fun he => htab (List.mem_cons_of_mem _ he)) (hv.fbPutc c)
      ((fbPutc_onScreen hv h).mpr (Fb.fits_of_lt hv hcol)) (fbPutc_col_lt hv hc hcol)

end Cursor

/-- Whatever is written after `fb_init`, the console stays on the screen exactly as long as each
character that is drawn finds the cursor in a column of it. -/
theorem fb_on_screen_iff (g : Geometry) (v : FbVars) (mem : Mem) (text : List Byte) :
    (∀ pre, pre <+: text → g.OnScreen (pre.foldl fbPutc (g.screen v mem))) ↔
      ∀ pre c, pre ++ [c] <+: text → (pre.foldl fbPutc (g.screen v mem)).Fits c := by
  rw [foldl_always_iff (I := fun st : Fb => FbInv g st.vars) (fbInv_screen g v mem)
    (fun _ c h => h.fbPutc c) (fun _ _ hv h => fbPutc_onScreen hv h) text]
  exact and_iff_right (onScreen_screen g v mem)

/-- One column and one row of 32-bit pixels. -/
def oneCell : Geometry := ⟨0xfd000000, 8, 8, 32, 32, by decide, by decide, by decide, by decide,
  by decide⟩

/-- A tab and a letter: the letter is drawn at x 64, and its first byte is stored right after
the framebuffer's 256. -/
theorem fb_tab_leaves_screen :
    let text := [chr '\t', chr 'A']
    let start := oneCell.screen ⟨0, 0, 0, 0, 0, 0, 0, 0, 0, false⟩ (fun _ => 0)
    (64, 0) ∈ (text.foldl fbPutc start).pixels ∧
      0xfd000100 ∈ (text.foldl fbPutc start).stores ∧
      ¬ ∀ pre, pre <+: text → oneCell.OnScreen (pre.foldl fbPutc start) := by
  intro text start
  have hpixel : (64, 0) ∈ (text.foldl fbPutc start).pixels := by decide +kernel
  refine ⟨hpixel, by decide +kernel, fun hall => ?_⟩
  exact absurd ((hall text (List.prefix_refl _)).1 _ hpixel).1 (by decide)

end Dana
