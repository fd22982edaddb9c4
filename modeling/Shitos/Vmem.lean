import Mathlib.Logic.Function.Basic
import Shitos.Bitmap
import Shitos.Heap
import Shitos.Paging
import Shitos.Prog

/-!
# Frames, page tables and the kernel heap

The paging code of the kernel together with the kernel heap it calls and is
called by. The state `Vm` holds the two bitsets, the page tables by their
physical frame, the mapping window with its cache, and the heap. A table is
reached through a window page, as in the source: writing through the pointer
writes the frame the window page maps.

`kmalloc`, `vmem_heap_expand`, `vmem_get_page`, `vmem_map_vaddr` and
`hashmap_set` call each other. The functions are written over a parameter
`malloc` for the call back into the heap, and `kmalloc` ties the knot with a
bound on the depth.

`chosen` records the calls of `vmem_frame_find_first`: the frame, and the
bitset at that moment. No code reads it.
-/

namespace Shitos

namespace Vmem

open Paging

/-! ## State -/

/-- Where the entries of a page table are accessed: the static `kernel_pts`,
or a page of the mapping window. -/
inductive Table where
  | kernelPts
  | window (page : Nat)
deriving DecidableEq, Repr

/-- `page_directory_t`. -/
structure Dir where
  paddr : Nat
  pts : Table
deriving DecidableEq, Repr

/-- A `page_t *`: into a table, or into `map_pages_pt`. -/
inductive PagePtr where
  | entry (t : Table) (i : Nat)
  | mapEntry (i : Nat)
deriving DecidableEq, Repr

structure Vm where
  frames : Mem
  frameCount : Nat
  mapPages : Mem
  mapPt : Nat → Page
  kernelPts : Nat → Page
  phys : Nat → Nat → Page
  cache : Nat → List (Nat × Nat)
  heap : Heap.St
  kernelPd : Dir
  current : Dir
  dirs : List Dir
  chosen : List (Nat × Mem)

/-- The bits of the 2048 words of `map_pages`. -/
def mapPagesBits : Nat := 2048 * 32

/-- `map->sz` of `map_pages_index`. -/
def cacheSz : Nat := 128

/-! ## Bitsets -/

/-- `vmem_frame_test_internal`. -/
def testBit (bits : Mem) (n : Nat) : Bool := bitAt bits n

/-- `vmem_frame_set_internal`. -/
def setBit (bits : Mem) (n : Nat) : Mem := orBit bits (n / 32) (n % 32)

/-- `vmem_frame_find_first_internal`; `none` is `UINTPTR_MAX`. -/
def findFirst (bits : Mem) (lo hi : Nat) : Option Nat :=
  (List.range' (lo / 32) (hi / 32 - lo / 32)).findSome? fun i =>
    let x := ffsl (not32 (wordAt bits i))
    if x = 0 then none else some (i * 32 + x - 1)

/-- `vmem_frame_set`. -/
def frameSet (addr : Nat) (s : Vm) : Vm := { s with frames := setBit s.frames (addr / 4096) }

/-- `vmem_frame_find_first`. -/
def frameFindFirst : Prog Vm Nat := fun s =>
  match findFirst s.frames 0x100 s.frameCount with
  | some frame => .done frame { s with chosen := (frame, s.frames) :: s.chosen }
  | none => .halted s

/-- `vmem_map_page_set`. -/
def mapPageSet (addr : Nat) (s : Vm) : Vm :=
  { s with mapPages := setBit s.mapPages ((addr - mapPagesMemory) / 4096) }

/-- `vmem_map_page_find_first`. A search that runs off the end of `map_pages`
stops here; in the source it goes on through the memory behind. -/
def mapPageFindFirst : Prog Vm Nat := fun s =>
  match findFirst s.mapPages 0 mapPagesBits with
  | some idx => .done (mapPagesMemory + idx * 4096) s
  | none => .halted s

/-! ## Entries -/

/-- `*page`. -/
def readPage (s : Vm) : PagePtr → Page
  | .entry .kernelPts i => s.kernelPts i
  | .entry (.window w) i => s.phys (s.mapPt w).frame i
  | .mapEntry i => s.mapPt i

/-- Change entries of a table. -/
def mapTable (t : Table) (f : Nat → Page → Page) (s : Vm) : Vm :=
  match t with
  | .kernelPts => { s with kernelPts := fun i => f i (s.kernelPts i) }
  | .window w =>
      let frame := (s.mapPt w).frame
      { s with phys := Function.update s.phys frame fun i => f i (s.phys frame i) }

/-- `*page = v`. -/
def writePage (p : PagePtr) (v : Page) (s : Vm) : Vm :=
  match p with
  | .entry t i => mapTable t (fun j old => if j = i then v else old) s
  | .mapEntry i => { s with mapPt := Function.update s.mapPt i v }

/-- The table at a window address. -/
def tableAt (vaddr : Nat) : Table := .window ((vaddr - mapPagesMemory) / 4096)

/-- `raw = paddr | PD_FLAGS_KERNELMODE` or `PD_FLAGS_USERMODE`. -/
def pdEntry (paddr : Nat) (kernel : Bool) : Page :=
  { Page.zero with present := true, write := true, user := !kernel, frame := paddr / 4096 }

/-- The `VMEM_FLAG_*` of an allocation. -/
structure Flags where
  write : Bool
  kernel : Bool
  writethrough : Bool
  nocache : Bool
  pat : Bool
  global : Bool

/-- `VMEM_FLAG_WRITE`, and `VMEM_FLAG_KERNEL` if asked for. -/
def Flags.rw (kernel : Bool) : Flags := ⟨true, kernel, false, false, false, false⟩

/-- The assignments at the end of `vmem_frame_alloc`. -/
def Page.withFlags (p : Page) (flags : Flags) : Page :=
  { p with
    present := true
    write := flags.write
    user := !flags.kernel
    writethrough := flags.writethrough
    nocache := flags.nocache
    pat := flags.pat
    global := flags.global }

/-- The first block of `vmem_frame_alloc`: a frame for an empty entry. -/
def fillFrame (p : PagePtr) : Prog Vm Unit := do
  let page ← Prog.gets (readPage · p)
  if page.frame ≠ 0 then pure ()
  else do
    let frame ← frameFindFirst
    Prog.modify (frameSet (frame * 4096))
    Prog.modify fun s => writePage p { readPage s p with frame := frame } s

/-- `vmem_frame_alloc`. -/
def frameAlloc (p : PagePtr) (flags : Flags) : Prog Vm Unit := do
  fillFrame p
  Prog.modify fun s => writePage p (Page.withFlags (readPage s p) flags) s

/-- `vmem_frame_map_addr`. -/
def frameMapAddr (p : PagePtr) (flags : Flags) (paddr : Nat) : Prog Vm Unit := do
  Prog.modify (frameSet paddr)
  Prog.modify fun s => writePage p { readPage s p with frame := paddr / 4096 } s
  frameAlloc p flags

/-- The page of an address in the mapping window. -/
def windowPage (vaddr : Nat) : PagePtr := .mapEntry ((vaddr - mapPagesMemory) / 4096)

/-- The part of `vmem_map_vaddr` that maps a new window page to a frame. -/
def mapWindow (paddr : Nat) : Prog Vm Nat := do
  let vaddr ← mapPageFindFirst
  Prog.modify (mapPageSet vaddr)
  frameMapAddr (windowPage vaddr) (Flags.rw true) paddr
  pure vaddr

/-! ## The cache of mapped frames -/

/-- `hashmap_get(map_pages_index, key)`. -/
def hashmapGet (s : Vm) (key : Nat) : Nat :=
  match (s.cache (key % cacheSz)).find? fun e => e.1 = key with
  | some e => e.2
  | none => 0

/-- `map->entries[b] = l`. -/
def putChain (b : Nat) (l : List (Nat × Nat)) (s : Vm) : Vm :=
  { s with cache := Function.update s.cache b l }

/-- The chain with the value of an existing key replaced. -/
def chainSet (key val : Nat) : List (Nat × Nat) → Option (List (Nat × Nat))
  | [] => none
  | e :: l => if e.1 = key then some ((e.1, val) :: l) else (chainSet key val l).map (e :: ·)

section Recursion

variable (malloc : Nat → Nat → Prog Vm Nat)

/-- `hashmap_set(map_pages_index, key, val)`. The end of the chain is found
before the entry is allocated: what the allocation itself has appended to
this chain is cut off. -/
def hashmapSet (key val : Nat) : Prog Vm Unit := do
  let chain ← Prog.gets fun s => s.cache (key % cacheSz)
  match chainSet key val chain with
  | some chain => Prog.modify (putChain (key % cacheSz) chain)
  | none => do
      let _ ← malloc 12 0
      Prog.modify fun s =>
        putChain (key % cacheSz) ((s.cache (key % cacheSz)).take chain.length ++ [(key, val)]) s

/-- `vmem_map_vaddr`. -/
def mapVaddr (paddr : Nat) : Prog Vm Nat := do
  let cached ← Prog.gets (hashmapGet · (paddr / 4096 * 4096))
  if cached ≠ 0 then pure (cached + paddr % 4096)
  else do
    let vaddr ← mapWindow (paddr / 4096 * 4096)
    hashmapSet malloc (paddr / 4096 * 4096) vaddr
    pure (vaddr + paddr % 4096)

/-- The statements by which `vmem_get_page_other` and `vmem_clone_dir` put a
new, empty table into entry `i` of a directory. -/
def newTable (dir : Dir) (i : Nat) (kernel : Bool) : Prog Vm Nat := do
  let frame ← frameFindFirst
  Prog.modify (frameSet (frame * 4096))
  let table ← mapVaddr malloc (frame * 4096)
  Prog.modify (mapTable (tableAt table) fun _ _ => Page.zero)
  Prog.modify (writePage (.entry dir.pts i) (pdEntry (frame * 4096) kernel))
  pure table

/-- The block of `vmem_get_page_other` for an entry without a table. -/
def createTable (dir : Dir) (i : Nat) (kernel : Bool) : Prog Vm Unit := do
  let pde ← Prog.gets (readPage · (.entry dir.pts i))
  if pde.present then pure ()
  else do
    let _ ← newTable malloc dir i kernel
    pure ()

/-- `vmem_get_page_other`; the flags are `VMEM_GET_CREATE` and
`VMEM_GET_KERNEL`. -/
def getPageOther (dir : Dir) (vaddr : Nat) (create kernel : Bool) :
    Prog Vm (Option PagePtr) :=
  if vaddr ≥ mapPagesMemory then pure (some (windowPage vaddr))
  else do
    let pde ← Prog.gets (readPage · (.entry dir.pts (pdi vaddr)))
    if !pde.present && !create then pure none
    else do
      createTable malloc dir (pdi vaddr) kernel
      let pde ← Prog.gets (readPage · (.entry dir.pts (pdi vaddr)))
      let pt ← mapVaddr malloc (pde.frame * 4096)
      pure (some (.entry (tableAt pt) (pti vaddr)))

/-- `vmem_get_page`. -/
def getPage (vaddr : Nat) (create kernel : Bool) : Prog Vm (Option PagePtr) := do
  let dir ← Prog.gets Vm.current
  getPageOther malloc dir vaddr create kernel

/-! ## The heap -/

/-- `heap->end - heap->start`. -/
def heapSz (s : Vm) : Nat := sub32 s.heap.heap.stop s.heap.heap.start

/-- One step of the loop of `vmem_heap_expand`. -/
def expandPage (start : Nat) (kernel : Bool) (oldSz : Nat) : Prog Vm Unit := do
  match ← getPage malloc (start + oldSz) true kernel with
  | some p => frameAlloc p (Flags.rw kernel)
  | none => Prog.halt

/-- `vmem_heap_expand`. -/
def heapExpand (newSz : Nat) : Prog Vm Unit := do
  let newSz := Heap.pageUp newSz
  Prog.assert fun s => newSz > heapSz s
  Prog.assert fun s => s.heap.heap.start + newSz ≤ s.heap.heap.max
  let start ← Prog.gets fun s => s.heap.heap.start
  let kernel ← Prog.gets fun s => s.heap.heap.kernel
  let oldSz ← Prog.gets heapSz
  Prog.each (List.range ((newSz - oldSz + 4095) / 4096)) fun j =>
    expandPage malloc start kernel (oldSz + 4096 * j)
  Prog.modify fun s =>
    { s with heap := { s.heap with heap := { s.heap.heap with stop := start + newSz } } }

/-- Serve a request from a hole of the heap. -/
def serve (hole realSize align : Nat) : Prog Vm Nat := fun s =>
  match Heap.allocHole s.heap hole realSize align with
  | some (p, h) => .done p { s with heap := h }
  | none => .halted s

/-- `vmem_heap_alloc(&kheap, size, align)`. -/
def heapAlloc (size align : Nat) : Prog Vm Nat := do
  let realSize := Heap.realSize size
  let hole ← Prog.gets fun s => Heap.holeFind s.heap realSize align
  match hole with
  | some hole => serve hole realSize align
  | none => do
      let oldSz ← Prog.gets heapSz
      let oldEnd ← Prog.gets fun s => s.heap.heap.stop
      heapExpand malloc ((oldSz + realSize) % 2 ^ 32)
      Prog.modify fun s => { s with heap := Heap.growHole s.heap oldSz oldEnd }
      malloc size align

/-! ## Directories -/

/-- One step of the loop of `vmem_clone_dir`. -/
def clonePage (src dst : Dir) (i : Nat) : Prog Vm Unit := do
  let pde ← Prog.gets (readPage · (.entry src.pts i))
  if !pde.present then pure ()
  else do
    let srcPt ← mapVaddr malloc (pde.frame * 4096)
    let dstPt ← newTable malloc dst i false
    Prog.modify fun s => mapTable (tableAt dstPt) (fun j old =>
      if (readPage s (.entry (tableAt srcPt) j)).present then
        readPage s (.entry (tableAt srcPt) j) else old) s

/-- `vmem_clone_dir` from the first `memset` on. -/
def fillDir (src dst : Dir) : Prog Vm Dir := do
  Prog.modify (mapTable dst.pts fun i old => if i < 0x300 then Page.zero else old)
  Prog.modify fun s => mapTable dst.pts (fun i old =>
    if 0x300 ≤ i ∧ i < 0x400 then readPage s (.entry src.pts i) else old) s
  Prog.each (List.range 0x300) (clonePage malloc src dst)
  Prog.modify fun s => { s with dirs := s.dirs ++ [dst] }
  pure dst

/-- `vmem_clone_dir`. -/
def cloneDir (src : Option Dir) : Prog Vm Dir := do
  let kernelPd ← Prog.gets Vm.kernelPd
  let _ ← malloc 8 0
  let frame ← frameFindFirst
  let pts ← mapVaddr malloc (frame * 4096)
  fillDir malloc (src.getD kernelPd) ⟨frame * 4096, tableAt pts⟩

end Recursion

/-- `kmalloc_i` on the kernel heap, to a depth of `n` nested calls. -/
def kmalloc : Nat → Nat → Nat → Prog Vm Nat
  | 0 => fun _ _ => Prog.tooDeep
  | n + 1 => heapAlloc (kmalloc n)

end Vmem

end Shitos
