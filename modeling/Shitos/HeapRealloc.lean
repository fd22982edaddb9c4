import Shitos.HeapSlots

/-!
# Changing the size of a block

`vmem_heap_realloc`, cut where it branches: `shrink` gives the end of the block to the
hole behind it, or makes a hole of it; `extendEnd` lets the last block grow into new
pages, `extendHole` into the hole behind it, and `extendMove` gives it a new place. All
sizes are words, and the code compares and subtracts them as such.

`Resized` is what a caller expects. A heap is determined by its blocks
(`segs_unique`), so a result that is not the one expected can be told from the tags
alone.
-/

namespace Shitos

namespace Heap

/-- `a + b` on 32-bit words. -/
def add32 (a b : Nat) : Nat := (a + b) % 2 ^ 32

theorem add32_of_lt {a b : Nat} (h : a + b < 2 ^ 32) : add32 a b = a + b := Nat.mod_eq_of_lt h

/-- `hdr->align`. -/
def hdrAlign (m : Mem) (p : Nat) : Nat := rd8 m (p + 4)

/-- The footer of the segment at `hdr`. -/
def ftrOf (m : Mem) (hdr : Nat) : Nat := sub32 (add32 hdr (hdrSize m hdr)) footerSz

/-- The header behind the segment at `hdr`. -/
def nextOf (m : Mem) (hdr : Nat) : Nat := add32 (ftrOf m hdr) footerSz

/-- The four assignments that fill in the header of a hole. -/
def putHole (m : Mem) (p size : Nat) : Mem :=
  setAlign (setSize (setHole (setMagic m p) p 1) p size) p 0

/-- A new size, and the footer that goes with it. -/
def resize (m : Mem) (hdr size : Nat) : Mem :=
  let m := setSize m hdr size
  putFooter m (ftrOf m hdr) hdr

/-- The block gives its end to the hole `rhdr`. -/
def shrinkRight (s : St) (hdr rhdr size : Nat) : Option St := do
  let i ← s.heap.index.index s.mem rhdr
  let s ← s.remove i
  let newRhdr := add32 hdr size
  let m := setAlign (setMagic s.mem newRhdr) newRhdr 0
  let m := setSize m newRhdr (add32 (hdrSize m rhdr) (sub32 size (hdrSize m hdr)))
  let m := setHole m newRhdr 1
  let m := setFtrHdr m (ftrOf m rhdr) newRhdr
  return St.insert ⟨m, s.heap⟩ newRhdr

/-- The end of the block becomes a hole. -/
def shrinkHole (s : St) (hdr size : Nat) : St :=
  let hole := add32 hdr size
  let m := setHole (setMagic s.mem hole) hole 1
  let m := setAlign (setSize m hole (sub32 size (hdrSize m hdr))) hole 0
  let m := putFooter m (ftrOf m hole) hole
  St.insert ⟨m, s.heap⟩ hole

/-- `vmem_heap_realloc` to a smaller size. -/
def shrink (s : St) (hdr size : Nat) : Option St :=
  let rhdr := nextOf s.mem hdr
  if add32 rhdr headerSz ≤ s.heap.stop ∧ hdrHole s.mem rhdr ≠ 0 then do
    let s ← shrinkRight s hdr rhdr size
    return ⟨resize s.mem hdr size, s.heap⟩
  else if sub32 size (hdrSize s.mem hdr) ≥ headerSz + footerSz then
    let s := shrinkHole s hdr size
    some ⟨resize s.mem hdr size, s.heap⟩
  else some s

/-- The last block grows into new pages, and what is left of them becomes a hole. -/
def extendEnd (P : Pages) (s : St) (hdr size : Nat) : Option St := do
  let s ← expand P s (add32 (sub32 s.heap.stop s.heap.start) size)
  let m := setSize s.mem hdr size
  let newFtr := ftrOf m hdr
  let m := putFooter m newFtr hdr
  let hole := add32 newFtr footerSz
  let m := putHole m hole (sub32 s.heap.stop hole)
  let m := putFooter m (ftrOf m hole) hole
  return St.insert ⟨m, s.heap⟩ hole

/-- The block grows into the hole `rhdr`; the result says whether that was not enough. -/
def extendHole (s : St) (hdr rhdr size : Nat) : Option (St × Bool) := do
  let rftr := ftrOf s.mem rhdr
  let extraSize := sub32 size (hdrSize s.mem hdr)
  let i ← s.heap.index.index s.mem rhdr
  let s ← s.remove i
  let claimed := setFtrHdr (setSize s.mem hdr (add32 (hdrSize s.mem hdr) (hdrSize s.mem rhdr)))
    rftr hdr
  if hdrSize s.mem rhdr < extraSize then
    return (⟨claimed, s.heap⟩, true)
  else if hdrSize s.mem rhdr - extraSize ≥ headerSz + footerSz then
    let m := setSize s.mem hdr size
    let newFtr := ftrOf m hdr
    let m := putFooter m newFtr hdr
    let hole := add32 newFtr footerSz
    let m := putHole m hole (sub32 (add32 rftr footerSz) hole)
    let m := setFtrHdr m rftr hole
    return (St.insert ⟨m, s.heap⟩ hole, false)
  else return (⟨claimed, s.heap⟩, false)

/-- A new block, and what is in the old one; `n` bounds the depth of `vmem_heap_alloc`. -/
def moveOut (P : Pages) (n : Nat) (s : St) (old hdr size : Nat) : Option (Nat × St) := do
  let (newAlloc, s) ← alloc P n s (sub32 (sub32 size headerSz) footerSz) (hdrAlign s.mem hdr)
  let m := copy s.mem newAlloc s.mem old (sub32 (sub32 (hdrSize s.mem hdr) headerSz) footerSz)
  return (newAlloc, ⟨m, s.heap⟩)

/-- The block gets a new place. -/
def extendMove (P : Pages) (n : Nat) (s : St) (old hdr size : Nat) : Option (Nat × St) := do
  let (newAlloc, s) ← moveOut P n s old hdr size
  let s ← free s old
  return (newAlloc, s)

/-- `vmem_heap_realloc`, to a depth of as many calls as its fuel. -/
def realloc (P : Pages) (n : Nat) : Nat → St → Nat → Nat → Option (Nat × St)
  | 0, _, _, _ => none
  | k + 1, s, old, size =>
      if old = 0 then alloc P n s size 0
      else if size = 0 then (free s old).map fun s => (0, s)
      else
        -- from here on the size includes the two tags
        let size := realSize size
        let hdr := sub32 old headerSz
        let rhdr := nextOf s.mem hdr
        if tagMagic s.mem hdr = magic ∧ tagMagic s.mem (ftrOf s.mem hdr) = magic
            ∧ hdrHole s.mem hdr = 0 then
          if hdrSize s.mem hdr = size then some (old, s)
          else if hdrSize s.mem hdr > size then (shrink s hdr size).map fun s => (old, s)
          else if add32 rhdr headerSz > s.heap.stop then
            (extendEnd P s hdr size).map fun s => (old, s)
          else if hdrHole s.mem rhdr ≠ 0 then
            match extendHole s hdr rhdr size with
            | none => none
            | some (s, true) => realloc P n k s old size
            | some (s, false) => some (old, s)
          else extendMove P n s old hdr size
        else none

/-! ## What a caller expects -/

/-- The block `q` has room for `size` bytes, the first `keep` of them are those of the
block `g`, which it replaces; the other blocks are where they were, with the same
bytes, and the heap is well formed. -/
def Resized (s : St) (l₁ : List Seg) (g : Seg) (l₂ : List Seg) (size keep q : Nat) (s' : St) :
    Prop :=
  ∃ segs' k, WellFormed s' segs' ∧ Placed s' ∧ k.hole = false ∧ q = k.addr + 12
    ∧ size + 20 ≤ k.size ∧ (liveSegs segs').Perm (k :: (liveSegs l₁ ++ liveSegs l₂))
    ∧ (∀ x < keep, s'.mem (q + x) = s.mem (g.addr + 12 + x))
    ∧ ∀ b ∈ liveSegs l₁ ++ liveSegs l₂, ∀ x, b.addr ≤ x → x < b.addr + b.size →
      s'.mem x = s.mem x

/-! ## A heap is determined by its blocks -/

section Unique

/-- Behind a hole there is a block or nothing. -/
theorem head_live {x : Seg} {l : List Seg} (hchain : (x :: l).IsChain Apart) (hx : x.hole = true) :
    l = [] ∨ ∃ y t, l = y :: t ∧ y.hole = false := by
  cases l with
  | nil => exact Or.inl rfl
  | cons y t =>
      rw [List.isChain_cons] at hchain
      refine Or.inr ⟨y, t, rfl, Bool.eq_false_iff.mpr fun hy => ?_⟩
      exact hchain.1 y rfl ⟨hx, hy⟩

theorem segs_unique : ∀ {l l' : List Seg} {a b : Nat}, Tiles Seg.addr Seg.size a l b →
    Tiles Seg.addr Seg.size a l' b → l.IsChain Apart → l'.IsChain Apart →
    liveSegs l = liveSegs l' → l = l' := by
  intro l
  induction l with
  | nil =>
      intro l' a b h h' _ _ _
      cases l' with
      | nil => rfl
      | cons y t' =>
          obtain rfl : a = b := h
          obtain ⟨-, hpos, hrest⟩ := h'
          have := hrest.le
          omega
  | cons x t ih =>
      intro l' a b h h' hc hc' hlive
      obtain ⟨hx, hpos, hrest⟩ := h
      have hle := hrest.le
      cases l' with
      | nil =>
          obtain rfl : a = b := h'
          omega
      | cons y t' =>
          obtain ⟨hy, hpos', hrest'⟩ := h'
          have hle' := hrest'.le
          have htail := hc.tail
          have htail' := hc'.tail
          -- it is enough that the first segments are of one kind and of one size
          have hdone : x.hole = y.hole → x.size = y.size → liveSegs t = liveSegs t' →
              x :: t = y :: t' := by
            intro hhole hsize hrestLive
            have hxy : x = y := by
              cases x
              cases y
              simp only at hx hy hhole hsize
              rw [hx, hy, hhole, hsize]
            rw [hsize] at hrest
            rw [hxy, ih hrest hrest' htail htail' hrestLive]
          rw [liveSegs_cons, liveSegs_cons] at hlive
          cases hxh : x.hole <;> cases hyh : y.hole <;>
            simp only [hxh, hyh, Bool.false_eq_true, if_false, if_true] at hlive
          · obtain ⟨rfl, hrestLive⟩ := List.cons.inj hlive
            exact hdone rfl rfl hrestLive
          · have hmem : x ∈ t' := (mem_liveSegs.mp (hlive ▸ List.mem_cons_self)).1
            have := (hrest'.bounds hmem).1
            omega
          · have hmem : y ∈ t := (mem_liveSegs.mp (hlive ▸ List.mem_cons_self)).1
            have := (hrest.bounds hmem).1
            omega
          · -- both are holes: the next block, or the end, says how long they are
            refine hdone (hxh.trans hyh.symm) ?_ hlive
            rcases head_live hc hxh with rfl | ⟨z, u, rfl, hz⟩
            · rcases head_live hc' hyh with rfl | ⟨z', u', rfl, hz'⟩
              · have h1 : a + x.size = b := hrest
                have h2 : a + y.size = b := hrest'
                omega
              · rw [liveSegs_cons, if_neg (by rw [hz']; decide)] at hlive
                exact absurd hlive.symm (List.cons_ne_nil _ _)
            · rcases head_live hc' hyh with rfl | ⟨z', u', rfl, hz'⟩
              · rw [liveSegs_cons, if_neg (by rw [hz]; decide)] at hlive
                exact absurd hlive (List.cons_ne_nil _ _)
              · rw [liveSegs_cons, liveSegs_cons, if_neg (by rw [hz]; decide),
                  if_neg (by rw [hz']; decide)] at hlive
                obtain ⟨rfl, -⟩ := List.cons.inj hlive
                have h1 : z.addr = a + x.size := hrest.1
                have h2 : z.addr = a + y.size := hrest'.1
                omega

/-- Blocks in the order of their addresses. -/
theorem live_sorted {l : List Seg} {a b : Nat} (h : Tiles Seg.addr Seg.size a l b) :
    (liveSegs l).Pairwise fun x y => x.addr < y.addr := by
  refine (h.pairwise.imp_of_mem fun {x y} hx _ hxy => ?_).sublist List.filter_sublist
  have := h.pos hx
  omega

theorem live_perm_eq {l l' : List Seg} (h : l.Pairwise fun x y => x.addr < y.addr)
    (h' : l'.Pairwise fun x y => x.addr < y.addr) (hperm : l.Perm l') : l = l' :=
  hperm.eq_of_pairwise (fun x y _ _ hxy hyx => by omega) h h'

end Unique

/-! ## Tags as the code finds them -/

section Tags

variable {m : Mem} {s : St} {l₁ l₂ : List Seg} {g : Seg}

theorem ftrOf_eq (htag : Tagged m g) (h20 : 20 ≤ g.size) (hend : g.addr + g.size < 2 ^ 32) :
    ftrOf m g.addr = g.addr + g.size - 8 := by
  rw [ftrOf, htag.size, add32_of_lt hend, footerSz, sub32_of_le (by omega)]

theorem nextOf_eq (htag : Tagged m g) (h20 : 20 ≤ g.size) (hend : g.addr + g.size < 2 ^ 32) :
    nextOf m g.addr = g.addr + g.size := by
  rw [nextOf, ftrOf_eq htag h20 hend, footerSz]
  have hsum : g.addr + g.size - 8 + 8 = g.addr + g.size := by omega
  rw [add32_of_lt (by omega), hsum]

theorem setSize_apply {p v x : Nat} (hx : x < p + 8 ∨ p + 12 ≤ x) : setSize m p v x = m x :=
  wr32_apply_of_ne (by omega)

theorem setFtrHdr_apply {p v x : Nat} (hx : x < p + 4 ∨ p + 8 ≤ x) : setFtrHdr m p v x = m x :=
  wr32_apply_of_ne (by omega)

theorem putHole_apply {p v x : Nat} (hx : x < p ∨ p + 12 ≤ x) : putHole m p v x = m x := by
  simp only [putHole, setAlign, setHole, setMagic, setSize]
  rw [wr8_apply_of_ne (by omega), wr32_apply_of_ne (by omega), wr8_apply_of_ne (by omega),
    wr32_apply_of_ne (by omega)]

theorem hdrSize_putHole {p v : Nat} (hv : v < 2 ^ 32) : hdrSize (putHole m p v) p = v := by
  simp only [hdrSize, putHole, setAlign, setSize]
  rw [rd32_wr8_of_disjoint (by omega), rd32_wr32_same _ hv]

/-- The fields of a header do not overlap: the order in which they are filled in does
not matter. -/
theorem putHole_eq (m : Mem) (p v : Nat) : putHole m p v = putHeader m p v 1 0 := by
  funext x
  simp only [putHole, putHeader, setAlign, setHole, setMagic, setSize]
  by_cases h4 : x = p + 4
  · subst h4
    simp only [wr8, if_true]
  rw [wr8_apply_of_ne h4, wr8_apply_of_ne h4]
  by_cases h5 : x = p + 5
  · subst h5
    rw [wr32_apply_of_ne (by omega)]
    simp only [wr8, if_true]
  rw [wr8_apply_of_ne h5]
  by_cases hmagic : x < p ∨ p + 4 ≤ x
  · rw [wr32_apply_of_ne hmagic]
    by_cases hsize : x < p + 8 ∨ p + 8 + 4 ≤ x
    · rw [wr32_apply_of_ne hsize, wr32_apply_of_ne hsize, wr8_apply_of_ne h5,
        wr32_apply_of_ne hmagic]
    · simp only [wr32, wr16, wr8]
      split <;> try rfl
      split <;> try rfl
      split <;> try rfl
      split <;> try rfl
      omega
  · rw [wr32_apply_of_ne (by omega), wr8_apply_of_ne h5]
    simp only [wr32, wr16, wr8]
    split <;> try rfl
    split <;> try rfl
    split <;> try rfl
    split <;> try rfl
    omega

theorem hdrSize_resize {hdr n : Nat} (h20 : 20 ≤ n) (hend : hdr + n < 2 ^ 32) :
    hdrSize (resize m hdr n) hdr = n := by
  have hsize : hdrSize (setSize m hdr n) hdr = n := hdrSize_setSize (by omega)
  have hftr : ftrOf (setSize m hdr n) hdr = hdr + n - 8 := by
    rw [ftrOf, hsize, add32_of_lt hend, footerSz, sub32_of_le (by omega)]
  unfold resize
  dsimp only
  rw [hftr]
  exact (hdrSize_congr fun x h1 h2 => putFooter_apply (by omega)).trans hsize

theorem resize_apply {hdr n x : Nat} (h20 : 20 ≤ n) (hend : hdr + n < 2 ^ 32)
    (hx : x < hdr + 8 ∨ hdr + 12 ≤ x) (hx' : x < hdr + n - 8 ∨ hdr + n ≤ x) :
    resize m hdr n x = m x := by
  have hsize : hdrSize (setSize m hdr n) hdr = n := hdrSize_setSize (by omega)
  have hftr : ftrOf (setSize m hdr n) hdr = hdr + n - 8 := by
    rw [ftrOf, hsize, add32_of_lt hend, footerSz, sub32_of_le (by omega)]
  unfold resize
  rw [hftr, putFooter_apply (by omega), setSize_apply hx]

theorem resize_tagged {hdr n : Nat} {hole : Bool} (hmagic : tagMagic m hdr = magic)
    (hhole : hdrHole m hdr = hole.toNat) (h20 : 20 ≤ n) (hend : hdr + n < 2 ^ 32) :
    Tagged (resize m hdr n) ⟨hdr, n, hole⟩ where
  magic := by
    rw [← hmagic]
    dsimp only
    exact rd32_congr fun x h1 h2 => resize_apply h20 hend (by omega) (by omega)
  hole := by
    rw [← hhole]
    dsimp only
    rw [hdrHole, hdrHole, rd8, rd8, resize_apply h20 hend (by omega) (by omega)]
  size := hdrSize_resize h20 hend
  ftrMagic := by
    have hsize : hdrSize (setSize m hdr n) hdr = n := hdrSize_setSize (by omega)
    simp only [tagMagic, resize, ftrOf, hsize, add32_of_lt hend, footerSz, putFooter, setFtrHdr,
      Heap.setMagic]
    rw [sub32_of_le (by omega), rd32_wr32_of_disjoint (by omega), rd32_wr32_same _ magic_lt]
  ftrHdr := by
    have hsize : hdrSize (setSize m hdr n) hdr = n := hdrSize_setSize (by omega)
    simp only [Heap.ftrHdr, resize, ftrOf, hsize, add32_of_lt hend, footerSz, putFooter, setFtrHdr]
    rw [sub32_of_le (by omega), rd32_wr32_same _ (by omega)]

end Tags

/-! ## Which branch is taken -/

/-- A heap of whole pages, as `vmem_heap_create` asserts and `vmem_heap_expand`
preserves. -/
structure Paged (s : St) : Prop extends Placed s where
  ends : s.heap.stop % 4096 = 0

instance (s : St) : Decidable (Paged s) :=
  decidable_of_iff (Placed s ∧ s.heap.stop % 4096 = 0)
    ⟨fun ⟨h₁, h₂⟩ => ⟨h₁, h₂⟩, fun h => ⟨h.toPlaced, h.ends⟩⟩

section Branches

variable {P : Pages} {n : Nat} {s : St} {l₁ l₂ : List Seg} {g : Seg}

/-- The pointers of a live block, and the assertions on it. -/
theorem live_asserts (W : WellFormed s (l₁ ++ g :: l₂)) (hstop : s.heap.stop < 2 ^ 32)
    (hlive : g.hole = false) :
    sub32 (g.addr + 12) headerSz = g.addr ∧ ftrOf s.mem g.addr = g.addr + g.size - 8
      ∧ nextOf s.mem g.addr = g.addr + g.size
      ∧ tagMagic s.mem g.addr = magic ∧ tagMagic s.mem (ftrOf s.mem g.addr) = magic
      ∧ hdrHole s.mem g.addr = 0 := by
  have hmem : g ∈ l₁ ++ g :: l₂ := List.mem_append_right _ List.mem_cons_self
  have g20 := W.min g hmem
  have htag := W.tagged g hmem
  have hb := W.tiles.bounds hmem
  have hftr := ftrOf_eq htag g20 (by omega)
  refine ⟨?_, hftr, nextOf_eq htag g20 (by omega), htag.magic, ?_, ?_⟩
  · rw [headerSz, sub32_of_le (Nat.le_add_left ..), Nat.add_sub_cancel]
  · rw [hftr]
    exact htag.ftrMagic
  · rw [htag.hole, hlive]
    rfl

/-- `vmem_heap_realloc` on a live block. -/
theorem realloc_live (W : WellFormed s (l₁ ++ g :: l₂)) (hstop : s.heap.stop < 2 ^ 32)
    (hlive : g.hole = false) {size : Nat} (hpos : 0 < size) (hsize : size + 20 < 2 ^ 32) (k : Nat) :
    realloc P n (k + 1) s (g.addr + 12) size =
      if g.size = size + 20 then some (g.addr + 12, s)
      else if g.size > size + 20 then
        (shrink s g.addr (size + 20)).map fun s => (g.addr + 12, s)
      else if add32 (g.addr + g.size) headerSz > s.heap.stop then
        (extendEnd P s g.addr (size + 20)).map fun s => (g.addr + 12, s)
      else if hdrHole s.mem (g.addr + g.size) ≠ 0 then
        match extendHole s g.addr (g.addr + g.size) (size + 20) with
        | none => none
        | some (s, true) => realloc P n k s (g.addr + 12) (size + 20)
        | some (s, false) => some (g.addr + 12, s)
      else extendMove P n s (g.addr + 12) g.addr (size + 20) := by
  obtain ⟨hhdr, hftr, hnext, hasserts⟩ := live_asserts W hstop hlive
  have hreal : realSize size = size + 20 := Nat.mod_eq_of_lt hsize
  have hgsize := (W.tagged g (List.mem_append_right _ List.mem_cons_self)).size
  have hp : ¬g.addr + 12 = 0 := by omega
  have hs : ¬size = 0 := by omega
  rw [realloc, if_neg hp, if_neg hs]
  simp only [hhdr, hreal, hnext, hgsize]
  rw [if_pos hasserts]

/-- Whether there is room for a header behind the block. -/
theorem next_inside (W : WellFormed s (l₁ ++ g :: l₂)) (hP : Paged s) :
    add32 (g.addr + g.size) headerSz ≤ s.heap.stop ↔ l₂ ≠ [] := by
  obtain ⟨-, -, hrest⟩ := tiles_split.mp W.tiles
  have hstop := hP.stop
  have hends := hP.ends
  have hle := hrest.le
  rw [headerSz, add32_of_lt (by omega)]
  cases l₂ with
  | nil =>
      have hend : g.addr + g.size = s.heap.stop := hrest
      exact ⟨fun h => by omega, fun h => absurd rfl h⟩
  | cons r l₃ =>
      have r20 := W.min r (List.mem_append_right _ (List.mem_cons_of_mem _ List.mem_cons_self))
      have hlast := hrest.2.2.le
      exact ⟨fun _ => List.cons_ne_nil _ _, fun _ => by omega⟩

theorem next_hole {r : Seg} {l₃ : List Seg} (W : WellFormed s (l₁ ++ g :: r :: l₃)) :
    r.addr = g.addr + g.size ∧ (hdrHole s.mem (g.addr + g.size) ≠ 0 ↔ r.hole = true) := by
  obtain ⟨-, -, haddr, -⟩ := tiles_split.mp W.tiles
  have hmem : r ∈ l₁ ++ g :: r :: l₃ :=
    List.mem_append_right _ (List.mem_cons_of_mem _ List.mem_cons_self)
  refine ⟨haddr, ?_⟩
  rw [← haddr, (W.tagged r hmem).hole, toNat_ne_zero]

/-- The state once the hole at `a` is off the index. -/
structure Unlisted (s : St) (a : Nat) (s₁ : St) : Prop where
  same : SameHeap s s₁
  size : s₁.heap.index.size + 1 = s.heap.index.size
  holes : (a :: s₁.holes).Perm s.holes
  mem : ∀ x, s.heap.start ≤ x → s₁.mem x = s.mem x
  beside : ∀ x, Beside s x → s₁.mem x = s.mem x

theorem WellFormed.unlist {segs : List Seg} (W : WellFormed s segs) (hP : Placed s) {r : Seg}
    (hr : r ∈ segs) (hhole : r.hole = true) : ∃ i s₁,
    s.heap.index.index s.mem r.addr = some i ∧ s.remove i = some s₁ ∧ Unlisted s r.addr s₁ := by
  have hroom := hP.room
  obtain ⟨i, hi, hindex, helem⟩ := OrdArr.index_of_mem
    (W.listed.symm.subset (mem_holeAddrs.mpr ⟨r, hr, hhole, rfl⟩))
  obtain ⟨s₁, hrem, hsame, hsize, hperm, hkeep⟩ := remove_spec hi
  rw [helem] at hperm
  exact ⟨i, s₁, hindex, hrem, hsame, hsize, hperm, fun x hx =>
    hkeep x (by unfold Room at hroom; omega), fun x hx => hx.remove hP hrem⟩

theorem Unlisted.placed {a : Nat} {s₁ : St} (U : Unlisted s a s₁) (hP : Placed s) (m : Mem) :
    Placed ⟨m, s₁.heap⟩ ∧ s₁.heap.index.size < s₁.heap.index.maxSize := by
  have hsize := U.size
  have hmax := hP.size
  rw [U.same.maxSize]
  refine ⟨hP.of_same (U.same.trans (SameHeap.of_mem s₁ m)) ?_, by omega⟩
  dsimp only
  rw [U.same.maxSize]
  omega

/-- What is still listed when the hole behind a block is not. -/
theorem Unlisted.listed {r : Seg} {l₃ : List Seg} {s₁ : St} (U : Unlisted s r.addr s₁)
    (W : WellFormed s (l₁ ++ g :: r :: l₃)) (hlive : g.hole = false) (hr : r.hole = true) :
    s₁.holes.Perm (holeAddrs l₁ ++ holeAddrs l₃) := by
  have hlist := W.listed_around hlive
  rw [holeAddrs_cons, if_pos hr] at hlist
  exact ((U.holes.trans hlist).trans List.perm_middle).cons_inv

end Branches

end Heap

end Shitos
