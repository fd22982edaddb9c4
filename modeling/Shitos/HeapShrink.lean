import Shitos.HeapRealloc

/-!
# Shrinking a block

`vmem_heap_realloc` to a smaller size computes the bytes that become free as
`size - hdr->size`, which is the negative of their number: the hole that is made of
them, or the one that gets them, has a size of `2^32` minus what it should be, or that
much too little. Where the two agree, at `2^31`, the heap comes out as it should
(`shrink_iff`).
-/

namespace Shitos

namespace Heap

/-! ## The writes -/

/-- The memory in which the hole `r` has got the end of `g`. -/
def rightMem (m : Mem) (g r : Seg) (n : Nat) : Mem :=
  let m := setAlign (setMagic m (g.addr + n)) (g.addr + n) 0
  let m := setHole (setSize m (g.addr + n) (add32 r.size (sub32 n g.size))) (g.addr + n) 1
  setFtrHdr m (ftrOf m r.addr) (g.addr + n)

/-- The memory in which the end of `g` is a hole. -/
def tailMem (m : Mem) (g : Seg) (n : Nat) : Mem :=
  let m := putHole m (g.addr + n) (sub32 n g.size)
  putFooter m (ftrOf m (g.addr + n)) (g.addr + n)

section Right

variable {m : Mem} {g r : Seg} {n : Nat}

/-- The memory before the footer of `r` is written. -/
def rightHdrMem (m : Mem) (g r : Seg) (n : Nat) : Mem :=
  setHole (setSize (setAlign (setMagic m (g.addr + n)) (g.addr + n) 0) (g.addr + n)
    (add32 r.size (sub32 n g.size))) (g.addr + n) 1

theorem rightMem_eq : rightMem m g r n
    = setFtrHdr (rightHdrMem m g r n) (ftrOf (rightHdrMem m g r n) r.addr) (g.addr + n) := rfl

theorem rightHdrMem_apply {x : Nat} (hx : x < g.addr + n ∨ g.addr + n + 12 ≤ x) :
    rightHdrMem m g r n x = m x := by
  simp only [rightHdrMem, setAlign, setHole, setMagic, setSize]
  rw [wr8_apply_of_ne (by omega), wr32_apply_of_ne (by omega), wr8_apply_of_ne (by omega),
    wr32_apply_of_ne (by omega)]

/-- The sizes that the code reads once the new header has its magic. -/
theorem newHdr_sizes (hg : Tagged m g) (hr : Tagged m r) (hnext : r.addr = g.addr + g.size)
    (h12 : 12 ≤ n) (hn : n < g.size) :
    hdrSize (setAlign (setMagic m (g.addr + n)) (g.addr + n) 0) g.addr = g.size
      ∧ hdrSize (setAlign (setMagic m (g.addr + n)) (g.addr + n) 0) r.addr = r.size := by
  have hput : ∀ x, g.addr + n + 5 ≤ x ∨ x < g.addr + n →
      setAlign (setMagic m (g.addr + n)) (g.addr + n) 0 x = m x := fun x hx => by
    simp only [setAlign, setMagic]
    rw [wr8_apply_of_ne (by omega), wr32_apply_of_ne (by omega)]
  exact ⟨(rd32_congr fun x h1 h2 => hput x (by omega)).trans hg.size,
    (rd32_congr fun x h1 h2 => hput x (by omega)).trans hr.size⟩

theorem hdrSize_rightHdrMem : hdrSize (rightHdrMem m g r n) (g.addr + n)
    = add32 r.size (sub32 n g.size) := by
  have hlt : add32 r.size (sub32 n g.size) < 2 ^ 32 := Nat.mod_lt _ (by decide)
  simp only [hdrSize, rightHdrMem, setHole, setSize]
  rw [rd32_wr8_of_disjoint (by omega), rd32_wr32_same _ hlt]

/-- With four bytes or more between the two headers the old one is still intact, and
the right footer is found. -/
theorem ftrOf_rightHdrMem (htag : Tagged m r) (r20 : 20 ≤ r.size) (hnext : r.addr = g.addr + g.size)
    (hn : n + 4 ≤ g.size) (hend : r.addr + r.size < 2 ^ 32) :
    ftrOf (rightHdrMem m g r n) r.addr = r.addr + r.size - 8 := by
  have hsize : hdrSize (rightHdrMem m g r n) r.addr = r.size := by
    rw [← htag.size]
    exact rd32_congr fun x h1 h2 => rightHdrMem_apply (by omega)
  rw [ftrOf, hsize, add32_of_lt hend, footerSz, sub32_of_le (by omega)]

/-- The tags that the hole should have are there only if the two differences agree. -/
theorem rightMem_tagged_imp (htag : Tagged m r) (r20 : 20 ≤ r.size)
    (hnext : r.addr = g.addr + g.size) (h20 : 20 ≤ n) (hn : n < g.size)
    (hend : r.addr + r.size < 2 ^ 32)
    (h : Tagged (rightMem m g r n) ⟨g.addr + n, g.size - n + r.size, true⟩) :
    g.size - n = 2 ^ 31 := by
  have hsize : hdrSize (rightMem m g r n) (g.addr + n) = g.size - n + r.size := h.size
  have hftr : ftrHdr (rightMem m g r n) (r.addr + r.size - 8) = g.addr + n := by
    have := h.ftrHdr
    dsimp only at this
    rwa [show g.addr + n + (g.size - n + r.size) - 8 = r.addr + r.size - 8 by omega] at this
  rw [rightMem_eq] at hsize hftr
  generalize hB : ftrOf (rightHdrMem m g r n) r.addr = B at hsize hftr
  by_cases hoff : B + 8 ≤ g.addr + n + 8 ∨ g.addr + n + 12 ≤ B + 4
  · -- the size is the one that has been written
    have hkeep : hdrSize (setFtrHdr (rightHdrMem m g r n) B (g.addr + n)) (g.addr + n)
        = hdrSize (rightHdrMem m g r n) (g.addr + n) :=
      rd32_congr fun x h1 h2 => setFtrHdr_apply (by omega)
    rw [hkeep, hdrSize_rightHdrMem] at hsize
    unfold add32 sub32 at hsize
    split at hsize <;> omega
  · -- the footer has been written over the size, so it is not where it should be
    have hclose : ¬n + 4 ≤ g.size := fun h4 => by
      have := ftrOf_rightHdrMem htag r20 hnext h4 hend
      omega
    have hold : ftrHdr (setFtrHdr (rightHdrMem m g r n) B (g.addr + n)) (r.addr + r.size - 8)
        = r.addr := by
      refine Eq.trans (rd32_congr fun x h1 h2 => ?_) htag.ftrHdr
      rw [setFtrHdr_apply (by omega), rightHdrMem_apply (by omega)]
    omega

theorem rightMem_apply (htag : Tagged m r) (r20 : 20 ≤ r.size) (hnext : r.addr = g.addr + g.size)
    (hn : n + 4 ≤ g.size) (hend : r.addr + r.size < 2 ^ 32) {x : Nat}
    (hx : x < g.addr + n ∨ r.addr + r.size ≤ x) : rightMem m g r n x = m x := by
  rw [rightMem_eq, ftrOf_rightHdrMem htag r20 hnext hn hend, setFtrHdr_apply (by omega),
    rightHdrMem_apply (by omega)]

theorem rightMem_tagged (htag : Tagged m r) (r20 : 20 ≤ r.size) (hnext : r.addr = g.addr + g.size)
    (hn : g.size - n = 2 ^ 31) (hend : r.addr + r.size < 2 ^ 32) :
    Tagged (rightMem m g r n) ⟨g.addr + n, g.size - n + r.size, true⟩ := by
  have hftr := ftrOf_rightHdrMem (m := m) htag r20 hnext (show n + 4 ≤ g.size by omega) hend
  have hstop : g.addr + n + (g.size - n + r.size) - 8 = r.addr + r.size - 8 := by omega
  have hhdr : ∀ x, x < r.addr + r.size - 4 ∨ r.addr + r.size ≤ x →
      rightMem m g r n x = rightHdrMem m g r n x := fun x hx => by
    rw [rightMem_eq, hftr, setFtrHdr_apply (by omega)]
  refine ⟨?_, ?_, ?_, ?_, ?_⟩
  · have hkeep : tagMagic (rightMem m g r n) (g.addr + n)
        = tagMagic (rightHdrMem m g r n) (g.addr + n) :=
      rd32_congr fun x h1 h2 => hhdr x (by omega)
    dsimp only
    rw [hkeep]
    simp only [tagMagic, rightHdrMem, setAlign, setHole, setMagic, setSize]
    rw [rd32_wr8_of_disjoint (by omega), rd32_wr32_of_disjoint (by omega),
      rd32_wr8_of_disjoint (by omega), rd32_wr32_same _ magic_lt]
  · have hkeep : hdrHole (rightMem m g r n) (g.addr + n)
        = hdrHole (rightHdrMem m g r n) (g.addr + n) := by
      rw [hdrHole, hdrHole, rd8, rd8, hhdr _ (by omega)]
    dsimp only
    rw [hkeep]
    exact rd8_wr8_same _ (by decide)
  · have hkeep : hdrSize (rightMem m g r n) (g.addr + n)
        = hdrSize (rightHdrMem m g r n) (g.addr + n) :=
      rd32_congr fun x h1 h2 => hhdr x (by omega)
    dsimp only
    rw [hkeep, hdrSize_rightHdrMem]
    unfold add32 sub32
    split <;> omega
  · dsimp only
    rw [hstop, ← htag.ftrMagic]
    refine rd32_congr fun x h1 h2 => ?_
    rw [hhdr x (by omega), rightHdrMem_apply (by omega)]
  · dsimp only
    rw [hstop, rightMem_eq, hftr]
    exact rd32_wr32_same _ (by omega)

end Right

section Tail

variable {m : Mem} {g : Seg} {n : Nat}

theorem tailMem_tagged_imp (h20 : 20 ≤ n) (hn : n < g.size) (hend : g.addr + g.size < 2 ^ 32)
    (h : Tagged (tailMem m g n) ⟨g.addr + n, g.size - n, true⟩) : g.size - n = 2 ^ 31 := by
  have hneg : sub32 n g.size = 2 ^ 32 - (g.size - n) := if_neg (by omega)
  have hput : hdrSize (putHole m (g.addr + n) (sub32 n g.size)) (g.addr + n) = sub32 n g.size :=
    hdrSize_putHole (by omega)
  have hsize : hdrSize (tailMem m g n) (g.addr + n) = g.size - n := h.size
  have hkeep : hdrSize (tailMem m g n) (g.addr + n)
      = hdrSize (putHole m (g.addr + n) (sub32 n g.size)) (g.addr + n) := by
    refine rd32_congr fun x h1 h2 => putFooter_apply ?_
    -- the footer is in front of the hole, or past the top of the words
    rw [ftrOf, hput, hneg]
    unfold add32 sub32 footerSz
    split <;> omega
  omega

theorem tailMem_eq (hn : g.size - n = 2 ^ 31) (hend : g.addr + g.size < 2 ^ 32) :
    tailMem m g n = holeMem m (g.addr + n) (g.size - n) := by
  have hneg : sub32 n g.size = g.size - n := (if_neg (by omega)).trans (by omega)
  have hput : hdrSize (putHole m (g.addr + n) (sub32 n g.size)) (g.addr + n) = g.size - n :=
    (hdrSize_putHole (by omega)).trans hneg
  have hftr : ftrOf (putHole m (g.addr + n) (sub32 n g.size)) (g.addr + n)
      = g.addr + n + (g.size - n) - 8 := by
    rw [ftrOf, hput, add32_of_lt (by omega), footerSz, sub32_of_le (by omega)]
  unfold tailMem holeMem
  dsimp only
  rw [hftr, hneg, putHole_eq]

end Tail

/-! ## The branches of `shrink` -/

section Shrink

variable {s s' : St} {l₁ l₂ l₃ : List Seg} {g r : Seg} {n : Nat}

/-- The state once the hole `g.addr + n` is listed and the block has its new size. -/
def finish (m : Mem) (heap : VmemHeap) (g : Seg) (n : Nat) : St :=
  let s := St.insert ⟨m, heap⟩ (g.addr + n)
  ⟨resize s.mem g.addr n, s.heap⟩

theorem finish_same (m : Mem) (heap : VmemHeap) (g : Seg) (n : Nat) :
    SameHeap ⟨m, heap⟩ (finish m heap g n) :=
  (insert_same ⟨m, heap⟩ (g.addr + n)).trans (SameHeap.of_mem _ _)

theorem finish_size (m : Mem) (heap : VmemHeap) (g : Seg) (n : Nat) :
    (finish m heap g n).heap.index.size = heap.index.size + 1 := insert_index_size ⟨m, heap⟩ _

theorem finish_mem {m : Mem} {heap : VmemHeap} (hroom : Room ⟨m, heap⟩ 1) (h20 : 20 ≤ n)
    (hend : g.addr + n < 2 ^ 32) {x : Nat} (hlow : heap.start ≤ x)
    (hx : x < g.addr + 8 ∨ g.addr + 12 ≤ x) (hx' : x < g.addr + n - 8 ∨ g.addr + n ≤ x) :
    (finish m heap g n).mem x = m x :=
  (resize_apply h20 hend hx hx').trans (insert_mem hroom hlow)

/-- With a hole behind the block. -/
theorem shrink_right (W : WellFormed s (l₁ ++ g :: r :: l₃)) (hP : Paged s)
    (hr : r.hole = true) (h20 : 20 ≤ n) (hn : n < g.size) : ∃ s₁, Unlisted s r.addr s₁
      ∧ shrink s g.addr n = some (finish (rightMem s₁.mem g r n) s₁.heap g n) := by
  have hgmem : g ∈ l₁ ++ g :: r :: l₃ := List.mem_append_right _ List.mem_cons_self
  have hrmem : r ∈ l₁ ++ g :: r :: l₃ :=
    List.mem_append_right _ (List.mem_cons_of_mem _ List.mem_cons_self)
  have hb := W.tiles.bounds hgmem
  have hrb := W.tiles.bounds hrmem
  have hstop := hP.stop
  have g20 := W.min g hgmem
  obtain ⟨haddr, hhole⟩ := next_hole W
  have hnext := nextOf_eq (W.tagged g hgmem) g20 (by omega)
  obtain ⟨i, s₁, hindex, hrem, U⟩ := W.unlist hP.toPlaced hrmem hr
  have hkeep' := U.mem
  refine ⟨s₁, U, ?_⟩
  have hbranch : add32 (g.addr + g.size) headerSz ≤ s.heap.stop
      ∧ hdrHole s.mem (g.addr + g.size) ≠ 0 :=
    ⟨(next_inside W hP).mpr (List.cons_ne_nil _ _), hhole.mpr hr⟩
  obtain ⟨hgsize, hrsize⟩ := newHdr_sizes
    ((W.tagged g hgmem).congr g20 fun x h1 _ => hkeep' x (by omega))
    ((W.tagged r hrmem).congr (W.min r hrmem) fun x h1 _ => hkeep' x (by omega)) haddr
    (by omega) hn
  unfold shrink
  dsimp only
  rw [hnext, if_pos hbranch, ← haddr]
  unfold shrinkRight
  simp only [hindex, Option.bind_eq_bind, Option.bind_some, hrem]
  rw [add32_of_lt (by omega), hrsize, hgsize]
  rfl

/-- With a block, or nothing, behind the block. -/
theorem shrink_tail (W : WellFormed s (l₁ ++ g :: l₂)) (hP : Paged s)
    (hno : ∀ r l₃, l₂ = r :: l₃ → r.hole = false) (h20 : 20 ≤ n) (hn : n < g.size) :
    shrink s g.addr n = some (finish (tailMem s.mem g n) s.heap g n) := by
  have hgmem : g ∈ l₁ ++ g :: l₂ := List.mem_append_right _ List.mem_cons_self
  have hb := W.tiles.bounds hgmem
  have hstop := hP.stop
  have g20 := W.min g hgmem
  have hnext := nextOf_eq (W.tagged g hgmem) g20 (by omega)
  have hbranch : ¬(add32 (g.addr + g.size) headerSz ≤ s.heap.stop
      ∧ hdrHole s.mem (g.addr + g.size) ≠ 0) := by
    rintro ⟨hin, hhole⟩
    cases l₂ with
    | nil => exact (next_inside W hP).mp hin rfl
    | cons r l₃ =>
        have := (next_hole W).2.mp hhole
        rw [hno r l₃ rfl] at this
        cases this
  have hgsize := (W.tagged g hgmem).size
  have hput : hdrSize (setHole (setMagic s.mem (g.addr + n)) (g.addr + n) 1) g.addr = g.size := by
    refine Eq.trans (rd32_congr fun x h1 h2 => ?_) hgsize
    simp only [setHole, setMagic]
    rw [wr8_apply_of_ne (by omega), wr32_apply_of_ne (by omega)]
  have hneg : sub32 n g.size = 2 ^ 32 - (g.size - n) := if_neg (by omega)
  have hfits : sub32 n (hdrSize s.mem g.addr) ≥ headerSz + footerSz := by
    rw [hgsize, hneg]
    unfold headerSz footerSz
    omega
  unfold shrink
  dsimp only
  rw [hnext, if_neg hbranch, if_pos hfits]
  unfold shrinkHole
  dsimp only
  rw [add32_of_lt (by omega), hput]
  rfl

end Shrink

/-! ## The heap with the smaller block -/

/-- Behind a block there is a hole of `R` bytes and then `l₃`, or `l₃` at once, with
`R = 0`. -/
def Behind (l₂ : List Seg) (R : Nat) (l₃ : List Seg) : Prop :=
  (∃ r, l₂ = r :: l₃ ∧ r.hole = true ∧ R = r.size)
    ∨ l₂ = l₃ ∧ R = 0 ∧ ∀ r t, l₂ = r :: t → r.hole = false

/-- The segments with `n` bytes left to the block `g`. -/
def shrunkSegs (l₁ : List Seg) (g : Seg) (R : Nat) (l₃ : List Seg) (n : Nat) : List Seg :=
  l₁ ++ ⟨g.addr, n, false⟩ :: ⟨g.addr + n, g.size - n + R, true⟩ :: l₃

section Shrunk

variable {s s' : St} {l₁ l₂ l₃ : List Seg} {g : Seg} {n R : Nat}

theorem exists_behind (l₂ : List Seg) : ∃ R l₃, Behind l₂ R l₃ := by
  cases l₂ with
  | nil => exact ⟨0, [], Or.inr ⟨rfl, rfl, fun r t h => nomatch h⟩⟩
  | cons r t =>
      cases hr : r.hole with
      | true => exact ⟨r.size, t, Or.inl ⟨r, rfl, hr, rfl⟩⟩
      | false =>
          refine ⟨0, r :: t, Or.inr ⟨rfl, rfl, fun r' t' h => ?_⟩⟩
          obtain ⟨rfl, -⟩ := List.cons.inj h
          exact hr

theorem Behind.tiles (h : Behind l₂ R l₃) (W : WellFormed s (l₁ ++ g :: l₂)) :
    Tiles Seg.addr Seg.size (g.addr + g.size + R) l₃ s.heap.stop := by
  obtain ⟨-, -, hrest⟩ := tiles_split.mp W.tiles
  rcases h with ⟨r, rfl, -, rfl⟩ | ⟨rfl, rfl, -⟩
  · obtain ⟨-, -, htail⟩ := hrest
    exact htail
  · exact hrest

theorem Behind.apart (h : Behind l₂ R l₃) (W : WellFormed s (l₁ ++ g :: l₂)) :
    l₃.IsChain Apart ∧ ∀ y ∈ l₃.head?, y.hole = false := by
  obtain ⟨-, hchain, -⟩ := List.isChain_append.mp W.apart
  have htail := hchain.tail
  rcases h with ⟨r, rfl, hr, -⟩ | ⟨rfl, -, hno⟩
  · refine ⟨htail.tail, fun y hy => ?_⟩
    have hry : Apart r y := (List.isChain_cons.mp htail).1 y hy
    exact Bool.eq_false_iff.mpr fun hyh => hry ⟨hr, hyh⟩
  · refine ⟨htail, fun y hy => ?_⟩
    cases l₂ with
    | nil => cases hy
    | cons r t =>
        cases hy
        exact hno _ t rfl

theorem Behind.live (h : Behind l₂ R l₃) : liveSegs l₃ = liveSegs l₂ := by
  rcases h with ⟨r, rfl, hr, -⟩ | ⟨rfl, -, -⟩
  · rw [liveSegs_cons, if_pos hr]
  · rfl

theorem Behind.min (h : Behind l₂ R l₃) (W : WellFormed s (l₁ ++ g :: l₂)) :
    g.addr + g.size + R ≤ s.heap.stop ∧ ∀ k ∈ l₃, k ∈ l₁ ++ g :: l₂ := by
  refine ⟨(h.tiles W).le, fun k hk => List.mem_append_right _ (List.mem_cons_of_mem _ ?_)⟩
  rcases h with ⟨r, rfl, -, -⟩ | ⟨rfl, -, -⟩
  · exact List.mem_cons_of_mem _ hk
  · exact hk

theorem shrunkSegs_tiles (h : Behind l₂ R l₃) (W : WellFormed s (l₁ ++ g :: l₂)) (h20 : 20 ≤ n)
    (hn : n < g.size) :
    Tiles Seg.addr Seg.size s.heap.start (shrunkSegs l₁ g R l₃ n) s.heap.stop := by
  refine tiles_split.mpr ⟨(tiles_split.mp W.tiles).1, by dsimp only; omega, rfl,
    by dsimp only; omega, ?_⟩
  have hend : g.addr + n + (g.size - n + R) = g.addr + g.size + R := by omega
  dsimp only
  rw [hend]
  exact h.tiles W

theorem shrunkSegs_apart (h : Behind l₂ R l₃) (W : WellFormed s (l₁ ++ g :: l₂)) :
    (shrunkSegs l₁ g R l₃ n).IsChain Apart := by
  obtain ⟨h₁, -, hleft⟩ := List.isChain_append.mp W.apart
  obtain ⟨h₃, hhead⟩ := h.apart W
  refine List.isChain_append.mpr ⟨h₁, ?_, fun x hx y hy => ?_⟩
  · rw [List.isChain_cons, List.isChain_cons]
    exact ⟨fun y hy => Apart.of_not_left rfl, fun y hy => Apart.of_not_right (hhead y hy), h₃⟩
  · cases hy
    exact Apart.of_not_right rfl

theorem liveSegs_shrunkSegs (h : Behind l₂ R l₃) :
    liveSegs (shrunkSegs l₁ g R l₃ n) = liveSegs l₁ ++ ⟨g.addr, n, false⟩ :: liveSegs l₂ := by
  rw [shrunkSegs, liveSegs_append, liveSegs_cons, liveSegs_cons, h.live]
  rfl

/-- A heap as the caller expects it, in which the block has `n` bytes, consists of
these segments. -/
theorem Resized.segs (h : Behind l₂ R l₃) (W : WellFormed s (l₁ ++ g :: l₂)) {size keep : Nat}
    (hres : Resized s l₁ g l₂ size keep (g.addr + 12) s') (hsame : SameHeap s s')
    (hsize : hdrSize s'.mem g.addr = n) (h20 : 20 ≤ n) (hn : n < g.size) :
    WellFormed s' (shrunkSegs l₁ g R l₃ n) ∧ Placed s' := by
  obtain ⟨segs', k, W', hP', hlive, haddr, -, hperm, -⟩ := hres
  have hkmem : k ∈ segs' := by
    have hk : k ∈ liveSegs segs' := hperm.symm.subset List.mem_cons_self
    exact (mem_liveSegs.mp hk).1
  have hkaddr : k.addr = g.addr := by omega
  have hk : k = ⟨g.addr, n, false⟩ := by
    have hksize := (W'.tagged k hkmem).size
    rw [hkaddr, hsize] at hksize
    cases k
    simp only at hkaddr hksize hlive
    rw [hkaddr, hksize, hlive]
  subst hk
  have htiles := shrunkSegs_tiles h W h20 hn
  have htiles' := W'.tiles
  rw [hsame.start, hsame.stop] at htiles'
  have hlive' : liveSegs segs' = liveSegs (shrunkSegs l₁ g R l₃ n) := by
    refine live_perm_eq (live_sorted W'.tiles) (live_sorted htiles) (hperm.trans ?_)
    rw [liveSegs_shrunkSegs h]
    exact List.perm_middle.symm
  rw [← segs_unique htiles' htiles W'.apart (shrunkSegs_apart h W) hlive']
  exact ⟨W', hP'⟩

/-- The outcome, once the hole is tagged. -/
theorem finish_resized {m : Mem} {heap : VmemHeap} (h : Behind l₂ R l₃)
    (W : WellFormed s (l₁ ++ g :: l₂)) (hP : Placed s) (hsame : SameHeap s ⟨m, heap⟩)
    (hslot : heap.index.size < heap.index.maxSize) {size : Nat} (hlive : g.hole = false)
    (hless : size + 40 ≤ g.size)
    (htag : Tagged m ⟨g.addr + (size + 20), g.size - (size + 20) + R, true⟩)
    (hmem : ∀ x, s.heap.start ≤ x → x < g.addr + (size + 20) ∨ g.addr + g.size + R ≤ x →
      m x = s.mem x)
    (hholes : (St.holes ⟨m, heap⟩).Perm (holeAddrs l₁ ++ holeAddrs l₃)) :
    Resized s l₁ g l₂ size size (g.addr + 12) (finish m heap g (size + 20)) := by
  have hgmem : g ∈ l₁ ++ g :: l₂ := List.mem_append_right _ List.mem_cons_self
  have hb := W.tiles.bounds hgmem
  have hgtag := W.tagged g hgmem
  have hstop := hP.stop
  obtain ⟨hend, hin⟩ := h.min W
  have hstart : heap.start = s.heap.start := hsame.start
  have harray : heap.index.array = s.heap.index.array := hsame.array
  have hmax : heap.index.maxSize = s.heap.index.maxSize := hsame.maxSize
  have hbelow := hP.below
  have hroom : Room ⟨m, heap⟩ 1 := by
    unfold Room
    dsimp only
    rw [harray, hstart]
    omega
  have hsame' := hsame.trans (finish_same m heap g (size + 20))
  have hfin : ∀ x, s.heap.start ≤ x → x < g.addr + 8 ∨ g.addr + 12 ≤ x →
      x < g.addr + (size + 20) - 8 ∨ g.addr + (size + 20) ≤ x →
      (finish m heap g (size + 20)).mem x = m x := fun x h1 h2 h3 =>
    finish_mem hroom (by omega) (by omega) (by rw [hstart]; exact h1) h2 h3
  -- outside of the block and of the hole nothing has changed
  have hout : ∀ x, s.heap.start ≤ x → x < g.addr ∨ g.addr + g.size + R ≤ x →
      (finish m heap g (size + 20)).mem x = s.mem x := fun x h1 h2 => by
    rw [hfin x h1 (by omega) (by omega), hmem x h1 (by omega)]
  have hblock : Tagged (finish m heap g (size + 20)).mem ⟨g.addr, size + 20, false⟩ := by
    have hins : ∀ x, s.heap.start ≤ x → x < g.addr + (size + 20) →
        (St.insert ⟨m, heap⟩ (g.addr + (size + 20))).mem x = s.mem x := fun x h1 h2 => by
      exact (insert_mem hroom (by dsimp only; rw [hstart]; exact h1)).trans (hmem x h1 (Or.inl h2))
    refine resize_tagged ?_ ?_ (by omega) (by omega)
    · rw [← hgtag.magic]
      exact rd32_congr fun x h1 h2 => hins x (by omega) (by omega)
    · have hhole := hgtag.hole
      rw [hlive] at hhole
      rw [← hhole, hdrHole, hdrHole, rd8, rd8, hins _ (by omega) (by omega)]
  have hhole : Tagged (finish m heap g (size + 20)).mem
      ⟨g.addr + (size + 20), g.size - (size + 20) + R, true⟩ := by
    refine htag.congr (by dsimp only; omega) fun x h1 h2 => ?_
    dsimp only at h1 h2
    exact hfin x (by omega) (by omega) (by omega)
  have hkept : ∀ k ∈ l₁ ++ l₃, (k ∈ l₁ ++ g :: l₂)
      ∧ (k.addr + k.size ≤ g.addr ∨ g.addr + g.size + R ≤ k.addr) := by
    intro k hk
    rcases List.mem_append.mp hk with hk | hk
    · exact ⟨List.mem_append_left _ hk, Or.inl ((tiles_split.mp W.tiles).1.bounds hk).2⟩
    · exact ⟨hin k hk, Or.inr ((h.tiles W).bounds hk).1⟩
  refine ⟨shrunkSegs l₁ g R l₃ (size + 20), ⟨g.addr, size + 20, false⟩,
    ⟨⟨?_, fun k hk => ?_, fun k hk => ?_⟩, shrunkSegs_apart h W, ?_⟩, ?_, rfl, rfl, Nat.le_refl _,
    ?_, fun x hx => ?_, fun b hb' x h1 h2 => ?_⟩
  · rw [hsame'.start, hsame'.stop]
    exact shrunkSegs_tiles h W (by omega) (by omega)
  · rcases List.mem_append.mp hk with hk | hk
    · exact W.min k (hkept k (List.mem_append_left _ hk)).1
    · rcases List.mem_cons.mp hk with rfl | hk
      · dsimp only
        omega
      rcases List.mem_cons.mp hk with rfl | hk
      · dsimp only
        omega
      · exact W.min k (hkept k (List.mem_append_right _ hk)).1
  · have hkeep : ∀ k ∈ l₁ ++ l₃, Tagged (finish m heap g (size + 20)).mem k := by
      intro k hk
      obtain ⟨hkmem, hoff⟩ := hkept k hk
      have hkb := W.tiles.bounds hkmem
      exact (W.tagged k hkmem).congr (W.min k hkmem) fun x h1 h2 => hout x (by omega) (by omega)
    rcases List.mem_append.mp hk with hk | hk
    · exact hkeep k (List.mem_append_left _ hk)
    · rcases List.mem_cons.mp hk with rfl | hk
      · exact hblock
      rcases List.mem_cons.mp hk with rfl | hk
      · exact hhole
      · exact hkeep k (List.mem_append_right _ hk)
  · -- the index
    have hlist : (finish m heap g (size + 20)).holes
        = (St.insert ⟨m, heap⟩ (g.addr + (size + 20))).holes := by
      refine holes_of_low rfl ?_ fun x hx => ?_
      · unfold Room
        rw [(insert_same _ _).array, (insert_same _ _).start, insert_index_size]
        unfold Room at hroom
        exact hroom
      · rw [(insert_same _ _).start] at hx
        dsimp only at hx
        exact resize_apply (by omega) (by omega) (by omega) (by omega)
    rw [hlist, shrunkSegs, holeAddrs_append, holeAddrs_cons, holeAddrs_cons]
    refine (insert_holes (by omega)).trans ((hholes.cons _).trans ?_)
    exact List.perm_middle.symm
  · have hsz := finish_size m heap g (size + 20)
    refine ⟨by rw [hsame'.start]; exact hP.aligned, ?_, ?_, by rw [hsame'.stop]; exact hstop⟩
    · rw [hsz, hsame'.maxSize]
      omega
    · rw [hsame'.array, hsame'.maxSize, hsame'.start]
      exact hbelow
  · rw [liveSegs_shrunkSegs h]
    exact List.perm_middle
  · rw [hfin _ (by omega) (by omega) (by omega), hmem _ (by omega) (by omega)]
  · have hb'' : b ∈ l₁ ++ l₃ := by
      rcases List.mem_append.mp hb' with hb' | hb'
      · exact List.mem_append_left _ (mem_liveSegs.mp hb').1
      · rw [← h.live] at hb'
        exact List.mem_append_right _ (mem_liveSegs.mp hb').1
    obtain ⟨hbmem, hoff⟩ := hkept b hb''
    have hbb := W.tiles.bounds hbmem
    exact hout x (by omega) (by omega)

/-! ## When the heap comes out right -/

theorem shrink_right_iff {r : Seg} (W : WellFormed s (l₁ ++ g :: r :: l₃)) (hP : Paged s)
    (hlive : g.hole = false) (hr : r.hole = true) {size : Nat} (hless : size + 20 < g.size) :
    (∃ s', shrink s g.addr (size + 20) = some s'
        ∧ Resized s l₁ g (r :: l₃) size size (g.addr + 12) s')
      ↔ g.size - (size + 20) = 2 ^ 31 := by
  have hgmem : g ∈ l₁ ++ g :: r :: l₃ := List.mem_append_right _ List.mem_cons_self
  have hrmem : r ∈ l₁ ++ g :: r :: l₃ :=
    List.mem_append_right _ (List.mem_cons_of_mem _ List.mem_cons_self)
  have hb := W.tiles.bounds hgmem
  have hrb := W.tiles.bounds hrmem
  have r20 := W.min r hrmem
  have hstop := hP.stop
  have hnext := (next_hole W).1
  have hbehind : Behind (r :: l₃) r.size l₃ := Or.inl ⟨r, rfl, hr, rfl⟩
  obtain ⟨s₁, U, hshrink⟩ := shrink_right W hP hr (show 20 ≤ size + 20 by omega) hless
  obtain ⟨hP₁, hslot⟩ := U.placed hP.toPlaced (rightMem s₁.mem g r (size + 20))
  have hsame := U.same
  have hkeep := U.mem
  have htag : Tagged s₁.mem r := (W.tagged r hrmem).congr r20 fun x h1 _ => hkeep x (by omega)
  have hsame' : SameHeap s ⟨rightMem s₁.mem g r (size + 20), s₁.heap⟩ :=
    hsame.trans (SameHeap.of_mem s₁ _)
  rw [hshrink]
  constructor
  · rintro ⟨s', hs', hres⟩
    obtain rfl := Option.some.inj hs'
    obtain ⟨W', -⟩ := hres.segs hbehind W (hsame'.trans (finish_same _ _ g _))
      (hdrSize_resize (by omega) (by omega)) (by omega) hless
    have hroom : Room ⟨rightMem s₁.mem g r (size + 20), s₁.heap⟩ 1 := hP₁.room_one hslot
    have hhole := W'.tagged _ (List.mem_append_right _ (List.mem_cons_of_mem _ List.mem_cons_self))
    refine rightMem_tagged_imp htag r20 hnext (by omega) hless (by omega)
      (hhole.congr (by dsimp only; omega) fun x h1 h2 => ?_)
    dsimp only at h1 h2
    exact (finish_mem hroom (by omega) (by omega) (by rw [hsame.start]; omega) (by omega)
      (by omega)).symm
  · intro hd
    refine ⟨_, rfl, finish_resized hbehind W hP.toPlaced hsame' hslot hlive (by omega)
      (rightMem_tagged htag r20 hnext hd (by omega)) (fun x h1 h2 => ?_) ?_⟩
    · rw [rightMem_apply htag r20 hnext (by omega) (by omega) (by omega)]
      exact hkeep x h1
    · have hlow : St.holes ⟨rightMem s₁.mem g r (size + 20), s₁.heap⟩ = s₁.holes := by
        refine holes_of_low rfl hP₁.room fun x hx => ?_
        rw [hsame.start] at hx
        exact rightMem_apply htag r20 hnext (by omega) (by omega) (by omega)
      rw [hlow]
      exact U.listed W hlive hr

theorem shrink_tail_iff (W : WellFormed s (l₁ ++ g :: l₂)) (hP : Paged s)
    (hlive : g.hole = false) (hno : ∀ r l₃, l₂ = r :: l₃ → r.hole = false) {size : Nat}
    (hless : size + 20 < g.size) :
    (∃ s', shrink s g.addr (size + 20) = some s'
        ∧ Resized s l₁ g l₂ size size (g.addr + 12) s')
      ↔ g.size - (size + 20) = 2 ^ 31 ∧ s.heap.index.size < s.heap.index.maxSize := by
  have hgmem : g ∈ l₁ ++ g :: l₂ := List.mem_append_right _ List.mem_cons_self
  have hb := W.tiles.bounds hgmem
  have hstop := hP.stop
  have hbehind : Behind l₂ 0 l₂ := Or.inr ⟨rfl, rfl, hno⟩
  have hsame : SameHeap s ⟨tailMem s.mem g (size + 20), s.heap⟩ := SameHeap.of_mem s _
  rw [shrink_tail W hP hno (show 20 ≤ size + 20 by omega) hless]
  constructor
  · rintro ⟨s', hs', hres⟩
    obtain rfl := Option.some.inj hs'
    obtain ⟨W', hP'⟩ := hres.segs hbehind W (hsame.trans (finish_same _ _ g _))
      (hdrSize_resize (by omega) (by omega)) (by omega) hless
    have hslot : s.heap.index.size < s.heap.index.maxSize := by
      have hsz := hP'.size
      rw [finish_size, (finish_same _ _ _ _).maxSize] at hsz
      exact hsz
    have hroom : Room ⟨tailMem s.mem g (size + 20), s.heap⟩ 1 := hP.toPlaced.room_one hslot
    have hmem : (⟨g.addr + (size + 20), g.size - (size + 20) + 0, true⟩ : Seg)
        ∈ shrunkSegs l₁ g 0 l₂ (size + 20) :=
      List.mem_append_right _ (List.mem_cons_of_mem _ List.mem_cons_self)
    refine ⟨@tailMem_tagged_imp s.mem g _ (by omega) hless (by omega)
      ((W'.tagged _ hmem).congr (W'.min _ hmem) fun x h1 h2 => ?_), hslot⟩
    dsimp only at h1 h2
    exact (finish_mem hroom (by omega) (by omega) (by omega) (by omega) (by omega)).symm
  · rintro ⟨hd, hslot⟩
    have hmem : ∀ x, x < g.addr + (size + 20) ∨ g.addr + g.size ≤ x →
        tailMem s.mem g (size + 20) x = s.mem x := fun x hx => by
      rw [tailMem_eq hd (by omega), holeMem_apply (by omega) (by omega)]
    refine ⟨_, rfl, finish_resized hbehind W hP.toPlaced hsame hslot hlive (by omega) ?_
      (fun x _ h2 => hmem x (by omega)) ?_⟩
    · rw [tailMem_eq hd (by omega)]
      exact holeMem_tagged (by omega) (by omega)
    · have hlow : St.holes ⟨tailMem s.mem g (size + 20), s.heap⟩ = s.holes :=
        holes_of_low rfl hP.toPlaced.room fun x hx => hmem x (by omega)
      rw [hlow]
      exact W.listed_around hlive

/-- Both branches. -/
theorem shrink_resized_iff (W : WellFormed s (l₁ ++ g :: l₂)) (hP : Paged s)
    (hlive : g.hole = false) {size : Nat} (hless : size + 20 < g.size) :
    (∃ s', shrink s g.addr (size + 20) = some s'
        ∧ Resized s l₁ g l₂ size size (g.addr + 12) s')
      ↔ g.size - (size + 20) = 2 ^ 31 ∧ ((∃ r l₃, l₂ = r :: l₃ ∧ r.hole = true)
        ∨ s.heap.index.size < s.heap.index.maxSize) := by
  by_cases hhole : ∃ r l₃, l₂ = r :: l₃ ∧ r.hole = true
  · obtain ⟨r, l₃, rfl, hr⟩ := hhole
    rw [shrink_right_iff W hP hlive hr hless]
    exact ⟨fun h => ⟨h, Or.inl ⟨r, l₃, rfl, hr⟩⟩, fun h => h.1⟩
  · have hno : ∀ r l₃, l₂ = r :: l₃ → r.hole = false := fun r l₃ h =>
      Bool.eq_false_iff.mpr fun hr => hhole ⟨r, l₃, h, hr⟩
    rw [shrink_tail_iff W hP hlive hno hless]
    exact ⟨fun h => ⟨h.1, Or.inr h.2⟩, fun h => ⟨h.1, h.2.resolve_left hhole⟩⟩

end Shrunk

/-- The call is the branch that it takes. -/
theorem realloc_shrink {P : Pages} {s s' : St} {l₁ l₂ : List Seg} {g : Seg}
    (W : WellFormed s (l₁ ++ g :: l₂)) (hP : Paged s) (hlive : g.hole = false) {size : Nat}
    (hpos : 0 < size) (hless : size + 20 < g.size) (n k : Nat) :
    realloc P n (k + 1) s (g.addr + 12) size = some (g.addr + 12, s')
      ↔ shrink s g.addr (size + 20) = some s' := by
  have hb := W.tiles.bounds (List.mem_append_right l₁ (List.mem_cons_self (l := l₂)))
  have hstop := hP.stop
  rw [realloc_live W hstop hlive hpos (by omega) k, if_neg (by omega), if_pos hless,
    Option.map_eq_some_iff]
  constructor
  · rintro ⟨t, ht, heq⟩
    rw [ht, (Prod.mk.inj heq).2]
  · exact fun h => ⟨s', h, rfl⟩

/-- **A block is shrunk soundly** exactly if it gets smaller by `2^31` bytes and there
is a hole behind it, or a free slot in the index for the new one. -/
theorem shrink_iff {P : Pages} {s : St} {l₁ l₂ : List Seg} {g : Seg}
    (W : WellFormed s (l₁ ++ g :: l₂)) (hP : Paged s) (hlive : g.hole = false) {size : Nat}
    (hpos : 0 < size) (hless : size + 20 < g.size) (n k : Nat) :
    (∃ s', realloc P n (k + 1) s (g.addr + 12) size = some (g.addr + 12, s')
        ∧ Resized s l₁ g l₂ size size (g.addr + 12) s')
      ↔ g.size - (size + 20) = 2 ^ 31 ∧ ((∃ r l₃, l₂ = r :: l₃ ∧ r.hole = true)
        ∨ s.heap.index.size < s.heap.index.maxSize) := by
  simp only [realloc_shrink W hP hlive hpos hless]
  exact shrink_resized_iff W hP hlive hless

/-- A heap of almost four gigabytes. -/
def hugeHeap : St := (create (fun _ => 0) 0x1000 0xF0000000 0xF0000000 8 false).get rfl

/-- A block of `2^31 + 100` bytes on it. -/
def hugeRun : Run := (Run.run ⟨hugeHeap, []⟩ [.alloc (2 ^ 31 + 100)]).get (by decide +kernel)

theorem shrink_iff_hugeRun : ∃ s', realloc samePages 1 1 hugeRun.st 0x200c 100 = some (0x200c, s')
    ∧ Resized hugeRun.st [] ⟨0x2000, 2 ^ 31 + 120, false⟩
      [⟨0x80002078, 0x6fffdf88, true⟩] 100 100 0x200c s' := by
  have W : WellFormed hugeRun.st
      ([] ++ ⟨0x2000, 2 ^ 31 + 120, false⟩ :: [⟨0x80002078, 0x6fffdf88, true⟩]) := by
    decide +kernel
  exact (@shrink_iff samePages hugeRun.st [] _ _ W (by decide +kernel) rfl 100 (by decide)
    (by decide) 1 0).mpr ⟨by decide, Or.inl ⟨_, _, rfl, rfl⟩⟩

/-- A block of 100 bytes in front of a hole. -/
def hundredRun : Run := (Run.run ⟨smallHeap, []⟩ [.alloc 100]).get (by decide +kernel)

/-- With 92 bytes less for the block, the hole behind it gets 92 bytes too little
instead of 92 more. -/
theorem shrink_breaks :
    WellFormed hundredRun.st ([] ++ ⟨0x2000, 120, false⟩ :: [⟨0x2078, 8072, true⟩])
      ∧ Paged hundredRun.st
      ∧ ((realloc samePages 1 1 hundredRun.st 0x200c 8).map fun r =>
        (r.1, hdrSize r.2.mem 0x201c)) = some (0x200c, 8072 - 92)
      ∧ ¬∃ s', realloc samePages 1 1 hundredRun.st 0x200c 8 = some (0x200c, s')
        ∧ Resized hundredRun.st [] ⟨0x2000, 120, false⟩ [⟨0x2078, 8072, true⟩] 8 8 0x200c s' := by
  have W : WellFormed hundredRun.st ([] ++ ⟨0x2000, 120, false⟩ :: [⟨0x2078, 8072, true⟩]) := by
    decide +kernel
  have hP : Paged hundredRun.st := by decide +kernel
  refine ⟨W, hP, by decide +kernel, ?_⟩
  rintro ⟨s', hcall, hres⟩
  have hshrink := (@realloc_shrink samePages _ s' _ _ _ W hP rfl 8 (by decide) (by decide) 1 0).mp hcall
  have hhalf := (@shrink_right_iff _ _ _ _ _ W hP rfl rfl 8 (by decide)).mp ⟨s', hshrink, hres⟩
  exact absurd hhalf (by decide)

end Heap

end Shitos
