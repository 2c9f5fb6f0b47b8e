import Dana.HwStore

/-! The Mach-O loader of kern/macho.c. The image is `img`, the memory from `image_data` on:
past the end of the image it is whatever lies there, and a load leaves it alone. -/
namespace Dana
open ByteMem

def mhMagic64 : BitVec 32 := 0xfeedfacf
def mhObject : BitVec 32 := 0x1
def mhExecute : BitVec 32 := 0x2
def lcSegment64 : BitVec 32 := 0x19
def lcMain : BitVec 32 := 0x80000028
def cpuTypeX8664 : BitVec 32 := 0x01000007

def sizeofMachHeader64 : Word := 32

/-- `struct macho_image`. -/
structure MachoImage where
  header : Word
  entryPoint : Word
  baseAddress : Word
  size : Word

/-- A load with the `image_out` it fills. `reads` has the address and the length of every read
of the image, and `stores` the pmap, the address and the leaf entry of every byte stored, the
last first; no function reads them. -/
structure Loader where
  vm : VmState
  image : MachoImage
  reads : List (Word × Word)
  stores : List (PmapPtr × Word × Word)

namespace Loader

def setImage (s : Loader) (header size : Word) : Loader :=
  { s with image := { s.image with header := header, size := size, baseAddress := 0 } }

def read (s : Loader) (a n : Word) : Loader := { s with reads := (a, n) :: s.reads }

/-- `*(char *)va = b` through CR3. A store that faults, `.error`, does not return: `isr_14`
asks `vm_fault` for `va` in `kernel_map`, which has no entry in the user half, and then halts,
or returns to the store, which faults again. -/
def storeByte (h : Hhdm) (s : Loader) (va : Word) (b : Byte) : Except Loader Loader :=
  match hwStore h s.vm.pm.kmem.mem s.vm.cr3 va with
  | none => .error s
  | some (k, e) => .ok { s with
    vm := s.vm.writeByte (hwByte h k e va) b
    stores := (s.vm.active, va, e) :: s.stores }

end Loader

/-- `while (n--) body(p++)`. -/
def forBytes (body : Word → Loader → Except Loader Loader) :
    ℕ → Word → Loader → Except Loader Loader
  | 0, _, s => .ok s
  | n+1, p, s => (body p s).bind (forBytes body n (p+1))

/-- `kmemcpy` out of the image. -/
def kmemcpy (h : Hhdm) (img : Mem) (dst src n : Word) (s : Loader) : Except Loader Loader :=
  forBytes (fun d s =>
    let p := src+(d-dst)
    (s.read p 1).storeByte h d (img p)) n.toNat dst s

def kmemset (h : Hhdm) (dst : Word) (c : Byte) (n : Word) (s : Loader) : Except Loader Loader :=
  forBytes (fun d s => s.storeByte h d c) n.toNat dst s

/-- The protection of a segment. -/
def machoProt (initprot : BitVec 32) : BitVec 32 :=
  let prot : BitVec 32 := 0
  let prot := if initprot &&& vmProtRead ≠ 0 then prot ||| vmProtRead else prot
  let prot := if initprot &&& vmProtWrite ≠ 0 then prot ||| vmProtWrite else prot
  if initprot &&& vmProtExecute ≠ 0 then prot ||| vmProtExecute else prot

section Fields
variable (img : Mem) (p : Word)

def mhMagic : BitVec 32 := load32 img p
def mhCputype : BitVec 32 := load32 img (p+4)
def mhFiletype : BitVec 32 := load32 img (p+12)
def mhNcmds : BitVec 32 := load32 img (p+16)
def lcCmd : BitVec 32 := load32 img p
def lcCmdsize : BitVec 32 := load32 img (p+4)
def segVmaddr : Word := load64 img (p+24)
def segVmsize : Word := load64 img (p+32)
def segFileoff : Word := load64 img (p+40)
def segFilesize : Word := load64 img (p+48)
def segInitprot : BitVec 32 := load32 img (p+60)
def epEntryoff : Word := load64 img (p+8)

/-- `lc = (struct load_command *)((uint8_t *)lc + lc->cmdsize)`. -/
def lcNext : Word := p+(lcCmdsize img p).setWidth 64

end Fields

def machoValidate (img : Mem) (header : Word) (s : Loader) : KernReturn × Loader :=
  if header = 0 then (.invalidArgument, s)
  else
    let s := s.read header 4
    if mhMagic img header ≠ mhMagic64 then (.invalidArgument, s)
    else
      let s := s.read (header+12) 4
      if mhFiletype img header ≠ mhExecute ∧ mhFiletype img header ≠ mhObject then
        (.invalidArgument, s)
      else
        let s := s.read (header+4) 4
        if mhCputype img header ≠ cpuTypeX8664 then (.notSupported, s) else (.success, s)

/-- The bytes of a segment: `filesize` from the image, and then 0 up to `vmsize`. -/
def machoCopy (h : Hhdm) (img : Mem) (imageData seg : Word) (s : Loader) : Except Loader Loader :=
  let dst := segVmaddr img seg
  let filesize := segFilesize img seg
  let s := s.read (seg+48) 8
  if filesize = 0 then .ok s
  else
    (kmemcpy h img dst (imageData+segFileoff img seg) filesize s).bind fun s =>
      if filesize < segVmsize img seg then
        kmemset h (dst+filesize) 0 (segVmsize img seg-filesize) s
      else .ok s

/-- The first segment that maps offset 0 of the file gives the base address. -/
def machoBase (img : Mem) (seg : Word) (s : Loader) : Loader :=
  if segFileoff img seg = 0 ∧ s.image.baseAddress = 0 then
    { s with image := { s.image with baseAddress := segVmaddr img seg } }
  else s

/-- `none` is no return: a store has faulted. -/
def machoSegment (h : Hhdm) (img : Mem) (imageData : Word) (map : VmMapPtr) (seg : Word)
    (s : Loader) : Option KernReturn × Loader :=
  let s := s.read (seg+32) 8
  if segVmsize img seg = 0 then (some .success, s)
  else
    let s := (s.read (seg+24) 8).read (seg+60) 4
    match vmMapPageRange h s.vm map (segVmaddr img seg) (segVmsize img seg)
        (machoProt (segInitprot img seg)) with
    | none => (none, s)
    | some (kr, vm) =>
      let s := { s with vm := vm }
      if kr ≠ .success then (some kr, s)
      else
        match machoCopy h img imageData seg (machoBase img seg (s.read (seg+40) 8)) with
        | .error s => (none, s)
        | .ok s => (some .success, s)

/-- The last `n` rounds of the loop of `macho_parse_segments`. -/
def machoParseSegments (h : Hhdm) (img : Mem) (header imageData : Word) (map : VmMapPtr) :
    ℕ → Word → Loader → Option KernReturn × Loader
  | 0, _, s => (some .success, s.read (header+16) 4)
  | n+1, lc, s =>
    let s := (s.read (header+16) 4).read lc 4
    match if lcCmd img lc = lcSegment64 then machoSegment h img imageData map lc s
      else (some .success, s) with
    | (some .success, s) =>
      machoParseSegments h img header imageData map n (lcNext img lc) (s.read (lc+4) 4)
    | r => r

/-- The last `n` rounds of the loop of `macho_find_entry`. -/
def machoFindEntry (img : Mem) (header : Word) : ℕ → Word → Loader → Loader
  | 0, _, s =>
    let s := s.read (header+16) 4
    { s with image := { s.image with entryPoint := 0 } }
  | n+1, lc, s =>
    let s := (s.read (header+16) 4).read lc 4
    if lcCmd img lc = lcMain then
      let s := s.read (lc+8) 8
      { s with image := { s.image with entryPoint := s.image.baseAddress+epEntryoff img lc } }
    else machoFindEntry img header n (lcNext img lc) (s.read (lc+4) 4)

/-- `imageOut` is the pointer; what it points to is in the loader. -/
def machoLoad (h : Hhdm) (img : Mem) (map : VmMapPtr) (imageData imageSize imageOut : Word)
    (s : Loader) : Option KernReturn × Loader :=
  if map = vmMapNull ∨ imageData = 0 ∨ imageOut = 0 then (some .invalidArgument, s)
  else if imageSize < sizeofMachHeader64 then (some .invalidArgument, s)
  else
    match machoValidate img imageData s with
    | (.success, s) =>
      let s := s.setImage imageData imageSize
      let ncmds := (mhNcmds img imageData).toNat
      let lc := imageData+sizeofMachHeader64
      match machoParseSegments h img imageData imageData map ncmds lc s with
      | (some .success, s) => (some .success, machoFindEntry img imageData ncmds lc s)
      | r => r
    | (kr, s) => (some kr, s)

/-- The last `n` rounds of the loop of `macho_unload`. `none` when a `vm_deallocate` does not end. -/
def machoUnloadSegments (h : Hhdm) (img : Mem) (header : Word) : ℕ → Word → Loader → Option Loader
  | 0, _, s => some (s.read (header+16) 4)
  | n+1, lc, s =>
    let s := (s.read (header+16) 4).read lc 4
    (if lcCmd img lc = lcSegment64 then
      let s := s.read (lc+32) 8
      if segVmsize img lc = 0 then some s
      else
        let s := (s.read (lc+24) 8).read (lc+32) 8
        (vmDeallocate h s.vm .kernel (segVmaddr img lc) (segVmsize img lc)).map fun r =>
          { s with vm := r.2 }
    else some s).bind fun s =>
      machoUnloadSegments h img header n (lcNext img lc) (s.read (lc+4) 4)

/-- `image` is the pointer; what it points to is in the loader. -/
def machoUnload (h : Hhdm) (img : Mem) (image : Word) (s : Loader) : Option (KernReturn × Loader) :=
  if image = 0 ∨ s.image.header = 0 then some (.invalidArgument, s)
  else
    let header := s.image.header
    (machoUnloadSegments h img header (mhNcmds img header).toNat (header+sizeofMachHeader64) s).map
      fun s => (.success,
        { s with image := { s.image with header := 0, entryPoint := 0, size := 0 } })

/-- `n` little-endian bytes. -/
def leBytes (n v : ℕ) : List Byte := (List.range n).map fun i => BitVec.ofNat 8 (v/256^i)

def machHeader (ncmds sizeofcmds : ℕ) : List Byte :=
  leBytes 4 0xfeedfacf ++ leBytes 4 0x01000007 ++ leBytes 4 3 ++ leBytes 4 2 ++ leBytes 4 ncmds ++
    leBytes 4 sizeofcmds ++ leBytes 8 0

def segmentCommand (vmaddr vmsize fileoff filesize initprot : ℕ) : List Byte :=
  leBytes 4 0x19 ++ leBytes 4 72 ++ leBytes 16 0 ++ leBytes 8 vmaddr ++ leBytes 8 vmsize ++
    leBytes 8 fileoff ++ leBytes 8 filesize ++ leBytes 4 7 ++ leBytes 4 initprot ++ leBytes 8 0

def entryPointCommand (entryoff : ℕ) : List Byte :=
  leBytes 4 0x80000028 ++ leBytes 4 24 ++ leBytes 8 entryoff ++ leBytes 8 0

/-- The memory that holds an image at `imageData`. -/
def imageAt (imageData : Word) (bytes : List Byte) : Mem := fun a => bytes.getD (a-imageData).toNat 0

end Dana
