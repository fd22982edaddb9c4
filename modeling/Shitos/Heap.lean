import Shitos.OrdArr

/-!
# The boundary-tag heap

`vmem_heap_t` and the functions of `heap.c`. Headers, footers and the index
of holes all live in memory, so a heap is a record of addresses and every
operation maps a memory and a record to new ones; `none` is a failed
assertion. Header and footer fields are accessors at the offsets of
`vmem_header_t` and `vmem_footer_t`.

`vmem_heap_alloc` is cut at its recursion: `allocHole` is the part that
serves a request from a hole, `growHole` the part that makes room after the
heap has been extended. Extending it allocates frames and page tables, which
may allocate on the same heap, so that part stands with the paging code.
-/

namespace Shitos

namespace Heap

/-- `VMEM_HEAP_MAGIC`. -/
def magic : Nat := 0x0dedbeef

/-- `sizeof(vmem_header_t)`. -/
def headerSz : Nat := 12

/-- `sizeof(vmem_footer_t)`. -/
def footerSz : Nat := 8

/-! ## Tags -/

/-- `hdr->magic`, and `ftr->magic`. -/
def tagMagic (m : Mem) (p : Nat) : Nat := rd32 m p

/-- `hdr->hole`. -/
def hdrHole (m : Mem) (p : Nat) : Nat := rd8 m (p + 5)

/-- `hdr->size`. -/
def hdrSize (m : Mem) (p : Nat) : Nat := rd32 m (p + 8)

/-- `ftr->hdr`. -/
def ftrHdr (m : Mem) (p : Nat) : Nat := rd32 m (p + 4)

def setSize (m : Mem) (p v : Nat) : Mem := wr32 m (p + 8) v

def setHole (m : Mem) (p v : Nat) : Mem := wr8 m (p + 5) v

def setAlign (m : Mem) (p v : Nat) : Mem := wr8 m (p + 4) v

def setMagic (m : Mem) (p : Nat) : Mem := wr32 m p magic

def setFtrHdr (m : Mem) (p hdr : Nat) : Mem := wr32 m (p + 4) hdr

/-- The four assignments that fill in a header. -/
def putHeader (m : Mem) (p size hole align : Nat) : Mem :=
  setAlign (setHole (setMagic (setSize m p size) p) p hole) p align

/-- The two assignments that fill in a footer. -/
def putFooter (m : Mem) (p hdr : Nat) : Mem := setFtrHdr (setMagic m p) p hdr

/-! ## The heap -/

/-- `vmem_heap_t`. -/
structure VmemHeap where
  index : OrdArr
  start : Nat
  stop : Nat
  max : Nat
  kernel : Bool
deriving DecidableEq, Repr

/-- A heap and the memory it lives in. -/
structure St where
  mem : Mem
  heap : VmemHeap

/-- `vmem_header_compar`. -/
def headerCompar (m : Mem) (a b : Nat) : Bool := hdrSize m a < hdrSize m b

namespace St

/-- `ord_arr_get(&heap->index, i)`. -/
def get (s : St) (i : Nat) : Option Nat := s.heap.index.get s.mem i

/-- `ord_arr_insert(&heap->index, el)`. -/
def insert (s : St) (el : Nat) : St :=
  let r := s.heap.index.insert s.mem (headerCompar s.mem) el
  ⟨r.1, { s.heap with index := r.2 }⟩

/-- `ord_arr_remove(&heap->index, i)`. -/
def remove (s : St) (i : Nat) : Option St := do
  let r ← s.heap.index.remove s.mem i
  return ⟨r.1, { s.heap with index := r.2 }⟩

/-- The headers the index lists. -/
def holes (s : St) : List Nat := s.heap.index.elems s.mem

end St

/-- Round up to a page, as `(x + PAGE_SIZE-1) & ~(PAGE_SIZE-1)` does. -/
def pageUp (x : Nat) : Nat := (x + 4095) % 2 ^ 32 / 4096 * 4096

/-- `vmem_heap_create`. -/
def create (m : Mem) (start stop max indexSz : Nat) (kernel : Bool) : Option St :=
  if start % 4096 = 0 ∧ stop % 4096 = 0 then
    let r := OrdArr.place m start indexSz
    let first := pageUp ((start + 4 * indexSz) % 2 ^ 32)
    let m := putHeader r.1 first (sub32 stop first) 1 0
    let m := putFooter m (sub32 stop footerSz) first
    some (St.insert ⟨m, ⟨r.2, first, stop, max, kernel⟩⟩ first)
  else none

/-- The test of `vmem_heap_hole_find` on one hole. -/
def holeFits (m : Mem) (header size align : Nat) : Bool :=
  if align = 0 then size ≤ hdrSize m header
  else
    let loc := header + headerSz
    let off := if loc % 2 ^ align ≠ 0 then 2 ^ align - loc % 2 ^ align else 0
    let off := if off < headerSz then off + 2 ^ align else off
    if off > hdrSize m header then false else size ≤ hdrSize m header - off

/-- `vmem_heap_hole_find`; `none` is `SIZE_MAX`. -/
def holeFind (s : St) (size align : Nat) : Option Nat :=
  (List.range s.heap.index.size).find? fun iter =>
    holeFits s.mem (s.heap.index.elem s.mem iter) size align

/-- The request with its two tags. -/
def realSize (size : Nat) : Nat := (size + headerSz + footerSz) % 2 ^ 32

/-- Cut the front of an aligned allocation off as a hole of its own; what is
left is the hole's size and its new header. -/
def alignHole (m : Mem) (orig align : Nat) : Mem × Nat × Nat :=
  let off := 2 ^ align - orig % 2 ^ align
  let off := if off < headerSz then off + 2 ^ align else off
  let newLoc := orig + off - headerSz
  let holeSize := hdrSize m orig
  let m := putHeader m orig (off - headerSz) 1 0
  (putFooter m (newLoc - footerSz) orig, sub32 holeSize (off - headerSz), newLoc)

/-- `vmem_heap_alloc` once a hole has been found. -/
def allocHole (s : St) (hole realSize align : Nat) : Option (Nat × St) := do
  let orig ← s.get hole
  let holeSize := hdrSize s.mem orig
  let realSize :=
    if sub32 holeSize realSize < headerSz + footerSz then holeSize else realSize
  let (s, holeSize, orig) ←
    if align ≠ 0 then
      let (m, holeSize, orig) := alignHole s.mem orig align
      pure (⟨m, s.heap⟩, holeSize, orig)
    else do
      let s ← s.remove hole
      pure (s, holeSize, orig)
  let m := putHeader s.mem orig realSize 0 align
  let m := putFooter m (orig + realSize - footerSz) orig
  if sub32 holeSize realSize > 0 then
    let header := orig + hdrSize m orig
    let m := putHeader m header (sub32 holeSize realSize) 1 0
    let footer := header + hdrSize m header - footerSz
    let m := if footer < s.heap.stop then putFooter m footer header else m
    pure (orig + headerSz, St.insert ⟨m, s.heap⟩ header)
  else pure (orig + headerSz, ⟨m, s.heap⟩)

/-- `vmem_heap_alloc` on a request that some hole serves. -/
def allocServed (s : St) (size align : Nat) : Option (Nat × St) := do
  let hole ← holeFind s (realSize size) align
  allocHole s hole (realSize size) align

/-- The loop after an expansion: position and header of the highest hole. -/
def highestHole (s : St) : Option Nat × Nat :=
  (List.range s.heap.index.size).foldl (fun acc i =>
    if s.heap.index.elem s.mem i > acc.2 then (some i, s.heap.index.elem s.mem i) else acc)
    (none, 0)

/-- What `vmem_heap_alloc` does with the room `vmem_heap_expand` has made. -/
def growHole (s : St) (oldSz oldEnd : Nat) : St :=
  let newSz := sub32 s.heap.stop s.heap.start
  match highestHole s with
  | (none, _) =>
      let m := putHeader s.mem oldEnd (sub32 newSz oldSz) 1 0
      let m := putFooter m (oldEnd + hdrSize m oldEnd - footerSz) oldEnd
      St.insert ⟨m, s.heap⟩ oldEnd
  | (some _, hdr) =>
      let m := setMagic s.mem hdr
      let m := setSize m hdr ((hdrSize m hdr + sub32 newSz oldSz) % 2 ^ 32)
      ⟨putFooter m (hdr + hdrSize m hdr - footerSz) hdr, s.heap⟩

/-- The test for a hole that ends where `hdr` starts. -/
def LeftHole (m : Mem) (hdr : Nat) : Prop :=
  tagMagic m (sub32 hdr footerSz) = magic ∧ hdrHole m (ftrHdr m (sub32 hdr footerSz)) ≠ 0

/-- The test for a hole at `rhdr`. -/
def RightHole (m : Mem) (rhdr : Nat) : Prop := tagMagic m rhdr = magic ∧ hdrHole m rhdr ≠ 0

instance (m : Mem) (hdr : Nat) : Decidable (LeftHole m hdr) := inferInstanceAs (Decidable (_ ∧ _))

instance (m : Mem) (rhdr : Nat) : Decidable (RightHole m rhdr) :=
  inferInstanceAs (Decidable (_ ∧ _))

/-- Merge the freed segment `hdr` (footer `ftr`) into a hole on its left:
the header of the segment from now on, and whether it still has to be listed. -/
def unifyLeft (m : Mem) (hdr ftr : Nat) : Mem × Nat × Bool :=
  if LeftHole m hdr then
    let l := ftrHdr m (sub32 hdr footerSz)
    let m := setSize m l ((hdrSize m l + hdrSize m hdr) % 2 ^ 32)
    (setFtrHdr m ftr l, l, false)
  else (m, hdr, true)

/-- Merge a hole on the right of the footer `ftr` into segment `hdr`. -/
def unifyRight (s : St) (hdr ftr : Nat) : Option St :=
  let rhdr := ftr + footerSz
  if RightHole s.mem rhdr then do
    let m := setSize s.mem hdr ((hdrSize s.mem hdr + hdrSize s.mem rhdr) % 2 ^ 32)
    let m := setFtrHdr m (rhdr + hdrSize m rhdr - footerSz) hdr
    let s : St := ⟨m, s.heap⟩
    let idx ← s.heap.index.index s.mem rhdr
    s.remove idx
  else some s

/-- `vmem_heap_free`. -/
def free (s : St) (p : Nat) : Option St :=
  if p = 0 then some s
  else
    let hdr := sub32 p headerSz
    let ftr := hdr + hdrSize s.mem hdr - footerSz
    if tagMagic s.mem hdr = magic ∧ tagMagic s.mem ftr = magic ∧ hdrHole s.mem hdr = 0 then do
      let m := setAlign (setHole s.mem hdr 1) hdr 0
      let (m, hdr, addHole) := unifyLeft m hdr ftr
      let s ← unifyRight ⟨m, s.heap⟩ hdr ftr
      return if addHole then s.insert hdr else s
    else none

end Heap

end Shitos
