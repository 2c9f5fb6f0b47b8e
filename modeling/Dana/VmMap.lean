import Dana.PmapRefine
import Dana.PmmInit
import Dana.Sched
import Dana.Zalloc

/-! Address spaces: the maps of vm/vm_map.c with their lists of entries, and the faults of
vm/vm_fault.c. -/
namespace Dana
open ByteMem AddrLoop

def vmProtRead : BitVec 32 := 1
def vmProtWrite : BitVec 32 := 2
def vmProtExecute : BitVec 32 := 4
def vmeWired : BitVec 32 := 1

def kernMapMin : Word := 0xffff800000000000
def kernMapMax : Word := 0xffffffffffffffff

def sizeofVmMapEntry : Word := 48
def sizeofVmMap : Word := 80

/-- A `vm_map_t`: `kernel_map`, or an element of `vm_map_zone`, 0 for `VM_MAP_NULL`. -/
inductive VmMapPtr
  | kernel
  | elem (a : Word)
  deriving DecidableEq

def vmMapNull : VmMapPtr := .elem 0

/-- A `struct vm_map_entry *`: the header inside a map, or an element of
`vm_map_entry_zone`, 0 for `NULL`. -/
inductive EntryPtr
  | header (map : VmMapPtr)
  | elem (a : Word)
  deriving DecidableEq

structure VmMapEntry where
  start : Word
  stop : Word
  prot : BitVec 32
  maxProt : BitVec 32
  flags : BitVec 32
  prev : EntryPtr
  next : EntryPtr

structure VmMap where
  minOffset : Word
  maxOffset : Word
  refCount : BitVec 32
  nentries : BitVec 32
  pmap : PmapPtr

/-- The maps and entries with the memory under them. `active` is the pmap whose PML4 CR3
holds. `data` records the frames that the calls below took for data pages and have not
given back; no function reads it. -/
structure VmState where
  pm : PmapState
  zoneStore : ZoneStore
  vmMapZone : ℕ
  vmMapEntryZone : ℕ
  maps : VmMapPtr → VmMap
  entries : EntryPtr → VmMapEntry
  active : PmapPtr
  data : List ℕ

inductive VmFaultReturn
  | success | badAddress | protection | oom
  deriving DecidableEq, Repr

def vmFaultRead : BitVec 32 := 0
def vmFaultWrite : BitVec 32 := 1
def vmFaultExecute : BitVec 32 := 2

namespace VmState

def setMap (s : VmState) (m : VmMapPtr) (v : VmMap) : VmState :=
  { s with maps := Function.update s.maps m v }

def setEntry (s : VmState) (e : EntryPtr) (v : VmMapEntry) : VmState :=
  { s with entries := Function.update s.entries e v }

/-- `zalloc` on zone `z` of the store. -/
def zalloc (h : Hhdm) (s : VmState) (z : ℕ) : Word × VmState :=
  let (e, zone, kmem) := Dana.zalloc h (s.zoneStore.zones z) s.pm.kmem
  (e, { s with pm := { s.pm with kmem := kmem }, zoneStore := s.zoneStore.set z zone })

def zfree (s : VmState) (z : ℕ) (e : Word) : VmState :=
  let (zone, kmem) := Dana.zfree (s.zoneStore.zones z) e s.pm.kmem
  { s with pm := { s.pm with kmem := kmem }, zoneStore := s.zoneStore.set z zone }

/-- `pmm_alloc_page` for a data page. -/
def allocPage (s : VmState) : Word × VmState :=
  let (pa, pmm) := pmmAllocPage s.pm.kmem.pmm
  (pa, { s with
    pm := { s.pm with kmem := { s.pm.kmem with pmm := pmm } }
    data := if pa = pmmNull then s.data else pageOf pa :: s.data })

/-- `pmm_free_page` of a data page. -/
def freePage (s : VmState) (pa : Word) : VmState :=
  { s with
    pm := { s.pm with kmem := { s.pm.kmem with pmm := pmmFreePage s.pm.kmem.pmm pa } }
    data := s.data.erase (pageOf pa) }

/-- `kmemset(PHYS_TO_VIRT(pa), 0, PMM_PAGE_SIZE)`. -/
def zeroPage (h : Hhdm) (s : VmState) (pa : Word) : VmState :=
  { s with pm := { s.pm with kmem := { s.pm.kmem with mem := Dana.zeroPage h s.pm.kmem.mem pa } } }

end VmState

/-- What `zalloc` leaves of a map or an entry: all bytes 0. -/
def vmMapZero : VmMap := ⟨0, 0, 0, 0, .page 0⟩
def vmMapEntryZero : VmMapEntry := ⟨0, 0, 0, 0, 0, .elem 0, .elem 0⟩

def mapListInit (s : VmState) (map : VmMapPtr) : VmState :=
  s.setEntry (.header map)
    { s.entries (.header map) with next := .header map, prev := .header map }

def mapListInsertAfter (s : VmState) (pos ne : EntryPtr) : VmState :=
  let next := (s.entries pos).next
  let s := s.setEntry ne { s.entries ne with prev := pos, next := next }
  let s := s.setEntry next { s.entries next with prev := ne }
  s.setEntry pos { s.entries pos with next := ne }

def mapListRemove (s : VmState) (e : EntryPtr) : VmState :=
  let prev := (s.entries e).prev
  let s := s.setEntry prev { s.entries prev with next := (s.entries e).next }
  let next := (s.entries e).next
  s.setEntry next { s.entries next with prev := (s.entries e).prev }

def protToPte (prot : BitVec 32) : Word :=
  let f : Word := 0
  let f := if prot &&& vmProtWrite ≠ 0 then f ||| pteW else f
  if prot &&& vmProtExecute = 0 then f ||| pteNX else f

/-- `none` when `zinit` has no zone left to give. -/
def vmMapInit (s : VmState) : Option VmState :=
  match zinit s.zoneStore sizeofVmMapEntry 0 with
  | (none, _) => none
  | (some entryZone, store) =>
    match zinit store sizeofVmMap 0 with
    | (none, _) => none
    | (some mapZone, store) =>
      let s := { s with zoneStore := store, vmMapEntryZone := entryZone, vmMapZone := mapZone }
      let s := s.setMap .kernel
        { vmMapZero with
          minOffset := kernMapMin, maxOffset := kernMapMax, refCount := 1, pmap := .kernel }
      some (mapListInit (s.setEntry (.header .kernel) vmMapEntryZero) .kernel)

/-- `zalloc(vm_map_entry_zone)`, which zeroes the entry; 0 is `NULL`. -/
def vmMapEntryAlloc (h : Hhdm) (s : VmState) : Word × VmState :=
  let (e, s) := s.zalloc h s.vmMapEntryZone
  if e = 0 then (0, s) else (e, s.setEntry (.elem e) vmMapEntryZero)

/-- `zfree(vm_map_entry_zone, e)`: the link of the free list lies over `start`. -/
def vmMapEntryFree (s : VmState) (e : EntryPtr) : VmState :=
  match e with
  | .header _ => s
  | .elem a =>
    (s.zfree s.vmMapEntryZone a).setEntry (.elem a)
      { s.entries (.elem a) with start := (s.zoneStore.zones s.vmMapEntryZone).freeList }

def vmMapCreate (h : Hhdm) (s : VmState) (pmap : PmapPtr) (min max : Word) : VmMapPtr × VmState :=
  let (a, s) := s.zalloc h s.vmMapZone
  if a = 0 then (vmMapNull, s)
  else
    let map := VmMapPtr.elem a
    let s := s.setMap map
      { vmMapZero with minOffset := min, maxOffset := max, refCount := 1, pmap := pmap }
    (map, mapListInit (s.setEntry (.header map) vmMapEntryZero) map)

/-- Take a zeroed frame and map it at `a`: the body that the page loops of `vm_map_enter`
and `vm_map_page_range` share, and the end of `vm_fault`. -/
def vmPageIn (h : Hhdm) (s : VmState) (pmap : PmapPtr) (a pteFlags : Word) : Bool × VmState :=
  let (pa, s) := s.allocPage
  if pa = pmmNull then (false, s)
  else
    let s := s.zeroPage h pa
    let (r, pm) := pmapMap h s.pm pmap a pa pteFlags
    if r ≠ 0 then (false, { s with pm := pm }.freePage pa) else (true, { s with pm := pm })

/-- Unmap the page at `a` and give its frame back, if it is mapped. -/
def vmPageOut (h : Hhdm) (s : VmState) (pmap : PmapPtr) (a : Word) : VmState :=
  let pa := pmapQuery h s.pm pmap a
  if pa = 0 then s else { s with pm := (pmapUnmap h s.pm pmap a).2 }.freePage pa

/-- `for (a = start; a < end; a += PMM_PAGE_SIZE)` over pages that are mapped; where a page
has no frame the loop is left at that `a`. `none` when the loop does not end. -/
def vmPagesIn (h : Hhdm) (pmap : PmapPtr) (pteFlags stop : Word) (start : Word) (s : VmState) :
    Option (Except (Word × VmState) VmState) :=
  forAddr pmmPageSize stop (fun a s =>
    match vmPageIn h s pmap a pteFlags with
    | (true, s) => .ok s
    | (false, s) => .error (a, s)) addrFuel start s

/-- The same loop over pages that are unmapped. -/
def vmPagesOut (h : Hhdm) (pmap : PmapPtr) (stop : Word) (start : Word) (s : VmState) :
    Option VmState :=
  (forAddr pmmPageSize stop (fun a s => Except.ok (ε := VmState) (vmPageOut h s pmap a)) addrFuel
    start s).map stateOf

/-- `map_list_remove(e)`, `zfree(vm_map_entry_zone, e)` and `map->nentries--`. -/
def vmMapDropEntry (s : VmState) (map : VmMapPtr) (e : EntryPtr) : VmState :=
  let s := vmMapEntryFree (mapListRemove s e) e
  s.setMap map { s.maps map with nentries := (s.maps map).nentries-1 }

/-- `none` when the list or a page loop does not end. -/
def vmMapRemove (h : Hhdm) (s : VmState) (map : VmMapPtr) (start size : Word) :
    Option (KernReturn × VmState) :=
  let stop := start+size
  let body (e : EntryPtr) (s : VmState) : Except Unit (VmState × EntryPtr) :=
    let entry := s.entries e
    if stop ≤ entry.start ∨ entry.stop ≤ start then .ok (s, entry.next)
    else
      let unmapStart := if start < entry.start then entry.start else start
      let unmapEnd := if entry.stop < stop then entry.stop else stop
      match vmPagesOut h (s.maps map).pmap unmapEnd unmapStart s with
      | none => .error ()
      | some s => .ok (vmMapDropEntry s map e, entry.next)
  match forNodes (.header map) body addrFuel (s.entries (.header map)).next s with
  | some (.ok s) => some (.success, s)
  | _ => none

def vmDeallocate (h : Hhdm) (s : VmState) (map : VmMapPtr) (start size : Word) :
    Option (KernReturn × VmState) := vmMapRemove h s map start size

/-- The first entry of the list that `p` holds of, the header if there is none: the loops of
`vm_map_lookup_entry` and `vm_map_enter` over the list. -/
def vmMapFind (s : VmState) (map : VmMapPtr) (p : VmMapEntry → Bool) : Option EntryPtr :=
  (forNodes (.header map) (fun e (_ : Unit) =>
    if p (s.entries e) then .error e else .ok ((), (s.entries e).next)) addrFuel
    (s.entries (.header map)).next ()).map fun
      | .ok _ => .header map
      | .error e => e

/-- The inner `none` is `NULL`. -/
def vmMapLookupEntry (s : VmState) (map : VmMapPtr) (addr : Word) : Option (Option EntryPtr) :=
  (vmMapFind s map fun e => decide (e.start ≤ addr ∧ addr < e.stop)).map fun e =>
    if e = .header map then none else some e

/-- The entry after which one that starts at `start` goes: the last of those that start
before it at the head of the list. -/
def vmMapFindPos (s : VmState) (map : VmMapPtr) (start : Word) : Option EntryPtr :=
  (forNodes (.header map) (fun e (pos : EntryPtr) =>
    if (s.entries e).start < start then .ok (e, (s.entries e).next) else .error pos) addrFuel
    (s.entries (.header map)).next (.header map)).map stateOf

/-- The bounds that `vm_map_enter` and `vm_map_page_range` check. -/
def vmRangeOk (map : VmMap) (start size : Word) : Bool :=
  !(size = 0 ∨ start < map.minOffset) && !(map.maxOffset < start+size ∨ start+size < start)

def vmMapEnter (h : Hhdm) (s : VmState) (map : VmMapPtr) (start size : Word)
    (prot maxProt flags : BitVec 32) : Option (KernReturn × VmState) :=
  if !vmRangeOk (s.maps map) start size then some (.invalidArgument, s)
  else
    let stop := start+size
    (vmMapFind s map fun e => decide (start < e.stop ∧ e.start < stop)).bind fun e =>
    if e ≠ .header map then some (.noSpace, s)
    else
      let (a, s) := vmMapEntryAlloc h s
      if a = 0 then some (.noSpace, s)
      else
        let ne := EntryPtr.elem a
        let s := s.setEntry ne { s.entries ne with
          start := start, stop := stop, prot := prot, maxProt := maxProt, flags := flags }
        (vmMapFindPos s map start).bind fun pos =>
        let s := mapListInsertAfter s pos ne
        let s := s.setMap map { s.maps map with nentries := (s.maps map).nentries+1 }
        if flags &&& vmeWired ≠ 0 then
          (vmPagesIn h (s.maps map).pmap (protToPte prot) stop start s).bind fun
          | .ok s => some (.success, s)
          | .error (_, s) => (vmMapRemove h s map start size).map fun r => (.noSpace, r.2)
        else some (.success, s)

def vmMapPageRange (h : Hhdm) (s : VmState) (map : VmMapPtr) (start size : Word)
    (prot : BitVec 32) : Option (KernReturn × VmState) :=
  if !vmRangeOk (s.maps map) start size then some (.invalidArgument, s)
  else
    (vmPagesIn h (s.maps map).pmap (protToPte prot) (start+size) start s).bind fun
    | .ok s => some (.success, s)
    | .error (a, s) => (vmMapRemove h s map start (a-start)).map fun r => (.noSpace, r.2)

def vmFault (h : Hhdm) (s : VmState) (map : VmMapPtr) (addr : Word) (faultType : BitVec 32) :
    Option (VmFaultReturn × VmState) :=
  let pageAddr := addr &&& ~~~(pmmPageSize-1)
  if pmapQuery h s.pm (s.maps map).pmap pageAddr ≠ 0 then some (.success, s)
  else
    (vmMapLookupEntry s map addr).map fun
    | none => (.badAddress, s)
    | some e =>
      let prot := (s.entries e).prot
      if faultType = vmFaultWrite ∧ prot &&& vmProtWrite = 0 then (.protection, s)
      else if faultType = vmFaultExecute ∧ prot &&& vmProtExecute = 0 then (.protection, s)
      else
        match vmPageIn h s (s.maps map).pmap pageAddr (protToPte prot) with
        | (true, s) => (.success, s)
        | (false, s) => (.oom, s)

/-- Free the pages and the entries of the list, which is left as it is. -/
def vmMapFreeEntries (h : Hhdm) (s : VmState) (map : VmMapPtr) : Option VmState :=
  let body (e : EntryPtr) (s : VmState) : Except Unit (VmState × EntryPtr) :=
    let entry := s.entries e
    match vmPagesOut h (s.maps map).pmap entry.stop entry.start s with
    | none => .error ()
    | some s => .ok (vmMapEntryFree s e, entry.next)
  match forNodes (.header map) body addrFuel (s.entries (.header map)).next s with
  | some (.ok s) => some s
  | _ => none

/-- `kernel_map` is never destroyed. -/
def vmMapDestroy (h : Hhdm) (s : VmState) : VmMapPtr → Option VmState
  | .kernel => some s
  | .elem a =>
    let map := VmMapPtr.elem a
    let s := s.setMap map { s.maps map with refCount := (s.maps map).refCount-1 }
    if 0 < (s.maps map).refCount then some s
    else (vmMapFreeEntries h s map).map fun s =>
      { s with pm := pmapDestroy h s.pm (s.maps map).pmap }.zfree s.vmMapZone a

end Dana
