import Shitos.HeapGrow

/-!
# Aligned allocation

With `PAGE_BITS` as its alignment, `vmem_heap_alloc` cuts the front of the hole
off, so that the payload starts a page. The front stays in the hole's place as a
smaller hole, and what is left behind the segment becomes another one.
`vmem_heap_hole_find` leaves room for the front, but nothing asks whether it can
hold a header and a footer, and the rest is not joined to the segment where it is
too small. `aligned_iff` says for which holes the pieces tile the hole.
-/

namespace Shitos

namespace Heap

/-- `PAGE_BITS`. -/
def pageBits : Nat := 12

/-- A heap as `vmem_heap_create` places it: it starts a page, and the slots of its
index lie below it. -/
structure Placed (s : St) : Prop where
  aligned : s.heap.start % 4096 = 0
  size : s.heap.index.size ≤ s.heap.index.maxSize
  below : s.heap.index.array + 4 * s.heap.index.maxSize ≤ s.heap.start
  stop : s.heap.stop < 2 ^ 32

instance (s : St) : Decidable (Placed s) :=
  decidable_of_iff (s.heap.start % 4096 = 0 ∧ s.heap.index.size ≤ s.heap.index.maxSize
      ∧ s.heap.index.array + 4 * s.heap.index.maxSize ≤ s.heap.start ∧ s.heap.stop < 2 ^ 32)
    ⟨fun ⟨h₁, h₂, h₃, h₄⟩ => ⟨h₁, h₂, h₃, h₄⟩, fun h => ⟨h.aligned, h.size, h.below, h.stop⟩⟩

theorem Placed.room {s : St} (h : Placed s) : Room s 0 := by
  have := h.size
  have := h.below
  unfold Room
  omega

theorem Placed.room_one {s : St} (h : Placed s)
    (hfree : s.heap.index.size < s.heap.index.maxSize) : Room s 1 := by
  have := h.below
  unfold Room
  omega

theorem Placed.of_same {s t : St} (h : Placed s) (hsame : SameHeap s t)
    (hsize : t.heap.index.size ≤ t.heap.index.maxSize) : Placed t where
  aligned := by rw [hsame.start]; exact h.aligned
  size := hsize
  below := by rw [hsame.array, hsame.maxSize, hsame.start]; exact h.below
  stop := by rw [hsame.stop]; exact h.stop

/-- Neither in the heap nor in the slots of its index. -/
def Beside (s : St) (x : Nat) : Prop :=
  x < s.heap.index.array ∨ s.heap.index.array + 4 * s.heap.index.maxSize ≤ x
    ∧ (x < s.heap.start ∨ s.heap.stop ≤ x)

section Beside

variable {s t : St} {x : Nat}

theorem SameHeap.beside (h : SameHeap s t) : Beside t x ↔ Beside s x := by
  rw [Beside, Beside, h.array, h.maxSize, h.start, h.stop]

theorem Beside.insert (hx : Beside s x) (hslot : s.heap.index.size < s.heap.index.maxSize)
    (el : Nat) : (s.insert el).mem x = s.mem x := by
  unfold Beside at hx
  exact OrdArr.insert_frame (by omega)

theorem Beside.remove (hx : Beside s x) (hP : Placed s) {i : Nat} (h : s.remove i = some t) :
    t.mem x = s.mem x := by
  have hsize := hP.size
  unfold Beside at hx
  exact remove_mem h (by omega)

/-- A segment of the heap is not beside it. -/
theorem Beside.off {segs : List Seg} (hx : Beside s x) (W : WellFormed s segs) (hP : Placed s)
    {g : Seg} (hg : g ∈ segs) : x < g.addr ∨ g.addr + g.size ≤ x := by
  have hb := W.tiles.bounds hg
  have hbelow := hP.below
  unfold Beside at hx
  omega

end Beside

/-- The hole in front of an aligned segment that is cut from a hole at `addr`. -/
def leadSz (addr : Nat) : Nat :=
  (if 4096 - addr % 4096 < headerSz then 4096 - addr % 4096 + 4096
    else 4096 - addr % 4096) - headerSz

/-- Behind the front and the header a page starts. -/
theorem leadSz_mod (addr : Nat) : (addr + leadSz addr + 12) % 4096 = 0 := by
  unfold leadSz headerSz
  split <;> omega

/-- The front that `vmem_heap_hole_find` leaves room for. -/
def frontSz (addr : Nat) : Nat := if leadSz addr < headerSz then leadSz addr + 4096 else leadSz addr

theorem frontSz_eq (addr : Nat) :
    (if (if (addr + 12) % 4096 ≠ 0 then 4096 - (addr + 12) % 4096 else 0) < 12 then
        (if (addr + 12) % 4096 ≠ 0 then 4096 - (addr + 12) % 4096 else 0) + 4096
      else if (addr + 12) % 4096 ≠ 0 then 4096 - (addr + 12) % 4096 else 0) = frontSz addr := by
  unfold frontSz leadSz headerSz
  by_cases h0 : (addr + 12) % 4096 ≠ 0
  · rw [if_pos h0]
    split <;> split <;> split <;> omega
  · rw [if_neg h0]
    split <;> split <;> split <;> omega

theorem holeFits_page {m : Mem} {addr n : Nat} :
    holeFits m addr n pageBits = true ↔ frontSz addr + n ≤ hdrSize m addr := by
  have hfits : holeFits m addr n pageBits
      = if frontSz addr > hdrSize m addr then false
        else decide (n ≤ hdrSize m addr - frontSz addr) := by
    rw [← frontSz_eq]
    rfl
  rw [hfits]
  split
  · exact ⟨fun h => (nomatch h), fun h => by omega⟩
  · rw [decide_eq_true_iff]
    omega

/-! ## The writes -/

/-- The memory with the front tagged as a hole, and the segment behind it. -/
def alignedMem (m : Mem) (a lead n : Nat) : Mem :=
  putFooter (putHeader (putFooter (putHeader m a lead 1 0) (a + lead - 8) a)
    (a + lead) n 0 pageBits) (a + lead + n - 8) (a + lead)

/-- The memory with `z` bytes at `a` tagged as a hole. -/
def holeMem (m : Mem) (a z : Nat) : Mem := putFooter (putHeader m a z 1 0) (a + z - 8) a

theorem alignHole_eq (m : Mem) (a : Nat) : alignHole m a pageBits
    = (putFooter (putHeader m a (leadSz a) 1 0) (a + leadSz a - 8) a,
      sub32 (hdrSize m a) (leadSz a), a + leadSz a) := by
  have hoff : (if 4096 - a % 4096 < headerSz then 4096 - a % 4096 + 4096
      else 4096 - a % 4096) = leadSz a + 12 := by
    unfold leadSz headerSz
    split <;> omega
  have hpage : 2 ^ pageBits = 4096 := rfl
  have hloc : a + (leadSz a + 12) - headerSz = a + leadSz a := by
    unfold headerSz
    omega
  rw [alignHole, hpage, hoff, hloc]
  rfl

theorem hdrSize_alignedMem {m : Mem} {a lead n : Nat} (h20 : 20 ≤ n) (hn : n < 2 ^ 32) :
    hdrSize (alignedMem m a lead n) (a + lead) = n := by
  have hkeep : hdrSize (alignedMem m a lead n) (a + lead)
      = hdrSize (putHeader (putFooter (putHeader m a lead 1 0) (a + lead - 8) a)
        (a + lead) n 0 pageBits) (a + lead) :=
    rd32_congr fun x h1 h2 => putFooter_apply (by omega)
  exact hkeep.trans (hdrSize_putHeader hn)

section Serve

variable {s : St} {i a size n : Nat}

/-- The segment is placed behind the front, whatever becomes of the hole. -/
theorem allocHole_pointer (hget : s.get i = some a) :
    ∃ s', allocHole s i n pageBits = some (a + leadSz a + 12, s') := by
  have halign : pageBits ≠ 0 := by decide
  simp only [allocHole, hget, alignHole_eq, if_pos halign, Option.bind_eq_bind, Option.bind_some,
    Option.pure_def]
  generalize (if sub32 (hdrSize s.mem a) n < headerSz + footerSz then hdrSize s.mem a else n) = r
  by_cases hrest : sub32 (sub32 (hdrSize s.mem a) (leadSz a)) r > 0
  · exact ⟨_, if_pos hrest⟩
  · exact ⟨_, if_neg hrest⟩

/-- The outcome where the block is not rounded up. -/
theorem allocHole_aligned (hget : s.get i = some a) (hsize : hdrSize s.mem a = size)
    (hfits : frontSz a + n ≤ size) (hlead : leadSz a < 12 ∨ 20 ≤ leadSz a) (h20 : 20 ≤ n)
    (hstop : a + size ≤ s.heap.stop) :
    allocHole s i n pageBits = some (a + leadSz a + 12,
      if leadSz a + n = size then ⟨alignedMem s.mem a (leadSz a) n, s.heap⟩
      else St.insert ⟨holeMem (alignedMem s.mem a (leadSz a) n) (a + leadSz a + n)
        (size - leadSz a - n), s.heap⟩ (a + leadSz a + n)) := by
  have halign : pageBits ≠ 0 := by decide
  have hlt : size < 2 ^ 32 := by rw [← hsize]; exact rd32_lt _ _
  have hroom : leadSz a + n ≤ size ∧ ¬ size - n < 20 := by
    unfold frontSz headerSz at hfits
    split at hfits <;> omega
  have hround : (if sub32 size n < headerSz + footerSz then size else n) = n := by
    rw [sub32_of_le (by omega)]
    exact if_neg hroom.2
  have hrest : sub32 (sub32 size (leadSz a)) n = size - leadSz a - n := by
    have hlead : leadSz a ≤ size := by omega
    rw [sub32_of_le hlead, sub32_of_le (by omega)]
  simp only [allocHole, hget, hsize, alignHole_eq, if_pos halign, Option.bind_eq_bind,
    Option.bind_some, Option.pure_def]
  rw [hround, hrest]
  have hseg := @hdrSize_alignedMem s.mem a (leadSz a) n h20 (by omega)
  by_cases hexact : leadSz a + n = size
  · rw [if_neg (by omega), if_pos hexact]
    rfl
  · have hmem : putFooter (putHeader (putFooter (putHeader s.mem a (leadSz a) 1 0)
        (a + leadSz a - 8) a) (a + leadSz a) n 0 pageBits) (a + leadSz a + n - footerSz)
        (a + leadSz a) = alignedMem s.mem a (leadSz a) n := rfl
    have hrestSize : hdrSize (putHeader (alignedMem s.mem a (leadSz a) n) (a + leadSz a + n)
        (size - leadSz a - n) 1 0) (a + leadSz a + n) = size - leadSz a - n :=
      hdrSize_putHeader (by omega)
    rw [if_pos (by omega), if_neg hexact, hmem, hseg, hrestSize, if_pos (by unfold footerSz; omega)]
    rfl

end Serve

/-! ## Tags of the pieces -/

section Pieces

variable {m : Mem} {a lead n z : Nat}

theorem holeMem_apply {x : Nat} (h20 : 20 ≤ z) (hx : x < a ∨ a + z ≤ x) :
    holeMem m a z x = m x := by
  rw [holeMem, putFooter_apply (by omega), putHeader_apply (by omega)]

theorem holeMem_tagged (h20 : 20 ≤ z) (hend : a + z < 2 ^ 32) :
    Tagged (holeMem m a z) ⟨a, z, true⟩ := @tagged_put m a z 0 true h20 (by omega) (by omega)

theorem alignedMem_apply {x : Nat} (hlead : 20 ≤ lead) (h20 : 20 ≤ n)
    (hx : x < a ∨ a + lead + n ≤ x) : alignedMem m a lead n x = m x := by
  rw [alignedMem, putFooter_apply (by omega), putHeader_apply (by omega),
    putFooter_apply (by omega), putHeader_apply (by omega)]

theorem alignedMem_front (hlead : 20 ≤ lead) (h20 : 20 ≤ n) (hend : a + lead + n < 2 ^ 32) :
    Tagged (alignedMem m a lead n) ⟨a, lead, true⟩ := by
  refine (@holeMem_tagged m a lead hlead (by omega)).congr hlead fun x h1 h2 => ?_
  dsimp only at h1 h2
  rw [alignedMem, putFooter_apply (by omega), putHeader_apply (by omega)]
  rfl

theorem alignedMem_segment (h20 : 20 ≤ n) (hend : a + lead + n < 2 ^ 32) :
    Tagged (alignedMem m a lead n) ⟨a + lead, n, false⟩ :=
  @tagged_put _ (a + lead) n pageBits false h20 (by omega) (by omega)

end Pieces

/-! ## The pieces of the hole -/

/-- What is made of the hole `g` for `n` bytes. -/
def alignPieces (g : Seg) (n : Nat) : List Seg :=
  ⟨g.addr, leadSz g.addr, true⟩ :: ⟨g.addr + leadSz g.addr, n, false⟩ ::
    if leadSz g.addr + n = g.size then []
    else [⟨g.addr + leadSz g.addr + n, g.size - leadSz g.addr - n, true⟩]

/-- The hole can be cut into a front, a segment and a rest that all hold their
tags, and the index has a slot for the rest. -/
def AlignFits (s : St) (g : Seg) (n : Nat) : Prop :=
  20 ≤ leadSz g.addr ∧ (leadSz g.addr + n = g.size
    ∨ leadSz g.addr + n + 20 ≤ g.size ∧ s.heap.index.size < s.heap.index.maxSize)

/-- The block `p` starts a page, in a piece of the hole `g`, which it tiles together
with the holes around it; the heap is well formed, its index keeps to its slots,
and no other byte has changed. -/
def TilesHole (s : St) (l₁ : List Seg) (g : Seg) (l₂ : List Seg) (p : Nat) (s' : St) : Prop :=
  p % 4096 = 0 ∧ ∃ mid k, Tiles Seg.addr Seg.size g.addr mid (g.addr + g.size)
    ∧ (∀ x ∈ mid, 20 ≤ x.size) ∧ liveSegs mid = [k] ∧ p = k.addr + 12
    ∧ WellFormed s' (l₁ ++ (mid ++ l₂)) ∧ s'.heap.index.size ≤ s'.heap.index.maxSize
    ∧ ∀ x, x < g.addr ∨ g.addr + g.size ≤ x →
      x < s.heap.index.array ∨ s.heap.index.array + 4 * s.heap.index.maxSize ≤ x →
      s'.mem x = s.mem x

section Tile

variable {s : St} {l₁ l₂ : List Seg} {g : Seg} {n : Nat}

theorem alignPieces_tiles (h20 : 20 ≤ n) (hfits : AlignFits s g n) :
    Tiles Seg.addr Seg.size g.addr (alignPieces g n) (g.addr + g.size)
      ∧ ∀ k ∈ alignPieces g n, 20 ≤ k.size := by
  obtain ⟨hlead, hrest⟩ := hfits
  unfold alignPieces
  by_cases hexact : leadSz g.addr + n = g.size
  · rw [if_pos hexact]
    refine ⟨⟨rfl, by dsimp only; omega, rfl, by dsimp only; omega, ?_⟩, ?_⟩
    · dsimp only [Tiles]
      omega
    · intro k hk
      rcases List.mem_cons.mp hk with rfl | hk
      · exact hlead
      · rw [List.mem_singleton.mp hk]
        exact h20
  · have hroom := hrest.resolve_left hexact
    rw [if_neg hexact]
    refine ⟨⟨rfl, by dsimp only; omega, rfl, by dsimp only; omega, rfl, by dsimp only; omega, ?_⟩, ?_⟩
    · dsimp only [Tiles]
      omega
    · intro k hk
      rcases List.mem_cons.mp hk with rfl | hk
      · exact hlead
      rcases List.mem_cons.mp hk with rfl | hk
      · exact h20
      · rw [List.mem_singleton.mp hk]
        dsimp only
        omega

theorem isChain_alignPieces (hg : g.hole = true) (h : (l₁ ++ g :: l₂).IsChain Apart) :
    (l₁ ++ (alignPieces g n ++ l₂)).IsChain Apart := by
  rw [List.isChain_append] at h
  obtain ⟨h₁, hgl, hleft⟩ := h
  rw [List.isChain_cons] at hgl
  obtain ⟨hright, h₂⟩ := hgl
  rw [List.isChain_append]
  refine ⟨h₁, ?_, fun x hx y hy => ?_⟩
  · rw [alignPieces, List.cons_append, List.cons_append, List.isChain_cons, List.isChain_cons]
    refine ⟨fun y hy => Apart.of_not_right ?_, fun y _ => Apart.of_not_left rfl, ?_⟩
    · cases hy
      rfl
    · split
      · exact h₂
      · rw [List.singleton_append, List.isChain_cons]
        exact ⟨fun y hy hh => hright y hy ⟨hg, hh.2⟩, h₂⟩
  · cases hy
    exact fun hh => hleft x hx g rfl ⟨hh.1, hg⟩

theorem holeAddrs_alignPieces : holeAddrs (alignPieces g n)
    = g.addr :: if leadSz g.addr + n = g.size then [] else [g.addr + leadSz g.addr + n] := by
  unfold alignPieces
  split <;> rfl

theorem liveSegs_alignPieces : liveSegs (alignPieces g n) = [⟨g.addr + leadSz g.addr, n, false⟩] := by
  unfold alignPieces
  split <;> rfl

/-- The state in which the pieces are tagged and the rest is not listed yet. -/
def piecesMem (m : Mem) (g : Seg) (n : Nat) : Mem :=
  if leadSz g.addr + n = g.size then alignedMem m g.addr (leadSz g.addr) n
  else holeMem (alignedMem m g.addr (leadSz g.addr) n) (g.addr + leadSz g.addr + n)
    (g.size - leadSz g.addr - n)

theorem piecesMem_apply (h20 : 20 ≤ n) (hfits : AlignFits s g n) (m : Mem) {x : Nat}
    (hx : x < g.addr ∨ g.addr + g.size ≤ x) : piecesMem m g n x = m x := by
  obtain ⟨hlead, hrest⟩ := hfits
  unfold piecesMem
  split
  · exact alignedMem_apply hlead h20 (by omega)
  · rw [holeMem_apply (by omega) (by omega), alignedMem_apply hlead h20 (by omega)]

theorem piecesMem_tagged (h20 : 20 ≤ n) (hfits : AlignFits s g n) (hend : g.addr + g.size < 2 ^ 32)
    (m : Mem) : ∀ k ∈ alignPieces g n, Tagged (piecesMem m g n) k := by
  obtain ⟨hlead, hrest⟩ := hfits
  unfold piecesMem alignPieces
  by_cases hexact : leadSz g.addr + n = g.size
  · rw [if_pos hexact, if_pos hexact]
    intro k hk
    rcases List.mem_cons.mp hk with rfl | hk
    · exact alignedMem_front hlead h20 (by omega)
    · rw [List.mem_singleton.mp hk]
      exact alignedMem_segment h20 (by omega)
  · rw [if_neg hexact, if_neg hexact]
    intro k hk
    rcases List.mem_cons.mp hk with rfl | hk
    · refine (alignedMem_front (m := m) hlead h20 (by omega)).congr hlead fun x h1 h2 => ?_
      dsimp only at h1 h2
      exact holeMem_apply (by omega) (by omega)
    rcases List.mem_cons.mp hk with rfl | hk
    · refine (alignedMem_segment (m := m) h20 (by omega)).congr h20 fun x h1 h2 => ?_
      dsimp only at h1 h2
      exact holeMem_apply (by omega) (by omega)
    · rw [List.mem_singleton.mp hk]
      exact holeMem_tagged (by omega) (by omega)

/-- The state after the allocation. -/
def alignedSt (s : St) (g : Seg) (n : Nat) : St :=
  if leadSz g.addr + n = g.size then ⟨piecesMem s.mem g n, s.heap⟩
  else St.insert ⟨piecesMem s.mem g n, s.heap⟩ (g.addr + leadSz g.addr + n)

theorem alignedSt_same (s : St) (g : Seg) (n : Nat) : SameHeap s (alignedSt s g n) := by
  unfold alignedSt
  split
  · exact SameHeap.of_mem s _
  · exact (SameHeap.of_mem s _).trans (insert_same _ _)

/-- The rest is listed in a slot of its own. -/
theorem alignedSt_slots (s : St) (g : Seg) (n : Nat) :
    (alignedSt s g n).heap.index.size
      = if leadSz g.addr + n = g.size then s.heap.index.size else s.heap.index.size + 1 := by
  unfold alignedSt
  split
  · rfl
  · rw [insert_index_size]

/-- Outside the slots of the index the memory is that of the pieces. -/
theorem alignedSt_mem (hslots : (alignedSt s g n).heap.index.size ≤ s.heap.index.maxSize) {x : Nat}
    (hx : x < s.heap.index.array ∨ s.heap.index.array + 4 * s.heap.index.maxSize ≤ x) :
    (alignedSt s g n).mem x = piecesMem s.mem g n x := by
  rw [alignedSt_slots] at hslots
  unfold alignedSt
  split
  · rfl
  · rename_i hrest
    rw [if_neg hrest] at hslots
    exact OrdArr.insert_frame (by dsimp only; omega)

theorem AlignFits.slots (hP : Placed s) (hfits : AlignFits s g n) :
    (alignedSt s g n).heap.index.size ≤ s.heap.index.maxSize := by
  rw [alignedSt_slots]
  split
  · exact hP.size
  · rename_i hrest
    exact (hfits.2.resolve_left hrest).2

/-- Pieces that all hold their tags tile the hole. -/
theorem AlignFits.tilesHole (W : WellFormed s (l₁ ++ g :: l₂)) (hP : Placed s)
    (hg : g.hole = true) (h20 : 20 ≤ n) (hfits : AlignFits s g n) :
    TilesHole s l₁ g l₂ (g.addr + leadSz g.addr + 12) (alignedSt s g n) := by
  have hmem : g ∈ l₁ ++ g :: l₂ := List.mem_append_right _ List.mem_cons_self
  have hb := W.tiles.bounds hmem
  have hend : g.addr + g.size < 2 ^ 32 := Nat.lt_of_le_of_lt hb.2 hP.stop
  obtain ⟨htiles, hmin⟩ := alignPieces_tiles h20 hfits
  have hsize := hP.size
  have hbelow := hP.below
  have hslots := hfits.slots hP
  have hroom : leadSz g.addr + n ≤ g.size := by
    have := hfits.2
    omega
  have hhigh : ∀ x, s.heap.start ≤ x → (alignedSt s g n).mem x = piecesMem s.mem g n x :=
    fun x hx => alignedSt_mem hslots (Or.inr (by omega))
  have hlow : St.holes ⟨piecesMem s.mem g n, s.heap⟩ = s.holes :=
    holes_of_low rfl hP.room fun x hx => piecesMem_apply h20 hfits s.mem (Or.inl (by omega))
  refine ⟨leadSz_mod g.addr, alignPieces g n, _, htiles, hmin, liveSegs_alignPieces, rfl, ⟨?_, ?_, ?_⟩,
    ?_, fun x hx hout => ?_⟩
  · refine @Segmented.splice s _ l₁ [g] _ l₂ g.addr (g.addr + g.size) W.toSegmented
      (alignedSt_same s g n) ⟨rfl, W.tiles.pos hmem, rfl⟩ (List.cons_ne_nil _ _) htiles hmin
      (fun k hk => ?_) fun x h1 h2 => ?_
    · refine (piecesMem_tagged h20 hfits hend s.mem k hk).congr (hmin k hk) fun x h1 _ => hhigh x ?_
      have := htiles.bounds hk
      omega
    · rw [hhigh x h1, piecesMem_apply h20 hfits s.mem h2]
  · exact isChain_alignPieces hg W.apart
  · have hlisted := W.listed
    rw [holeAddrs_append, holeAddrs_cons, if_pos hg] at hlisted
    rw [holeAddrs_append, holeAddrs_append, holeAddrs_alignPieces]
    unfold alignedSt
    split
    · rw [hlow]
      exact hlisted
    · refine (insert_holes (by omega)).trans ?_
      rw [hlow]
      refine (hlisted.cons _).trans ?_
      exact (List.perm_middle.symm.trans ((List.Perm.swap _ _ _).append_left _))
  · rw [(alignedSt_same s g n).maxSize]
    exact hslots
  · rw [alignedSt_mem hslots hout, piecesMem_apply h20 hfits s.mem hx]

/-! ## Pieces that do not fit -/

theorem ftrHdr_putFooter {p hdr : Nat} {m : Mem} (h : hdr < 2 ^ 32) :
    ftrHdr (putFooter m p hdr) p = hdr := rd32_wr32_same _ h

/-- The allocation, unless the front is cut so short that the block is rounded up. -/
theorem allocHole_alignedSt {i : Nat} (W : WellFormed s (l₁ ++ g :: l₂))
    (hget : s.get i = some g.addr) (hfront : frontSz g.addr + n ≤ g.size)
    (hlead : leadSz g.addr < 12 ∨ 20 ≤ leadSz g.addr) (h20 : 20 ≤ n) :
    allocHole s i n pageBits = some (g.addr + leadSz g.addr + 12, alignedSt s g n) := by
  have hmem : g ∈ l₁ ++ g :: l₂ := List.mem_append_right _ List.mem_cons_self
  rw [allocHole_aligned hget (W.tagged g hmem).size hfront hlead h20 (W.tiles.bounds hmem).2]
  unfold alignedSt piecesMem
  split <;> rfl

/-- Without a front, its footer lands in front of the hole. -/
theorem ftrHdr_noFront {m : Mem} {a z : Nat} (h8 : 8 ≤ a) (ha : a < 2 ^ 32) (h20 : 20 ≤ n)
    (hz : 20 ≤ z) : ftrHdr (holeMem (alignedMem m a 0 n) (a + n) z) (a - 8) = a
      ∧ ftrHdr (alignedMem m a 0 n) (a - 8) = a := by
  have hfirst : ftrHdr (alignedMem m a 0 n) (a - 8) = a := by
    refine Eq.trans (rd32_congr fun x h1 h2 => ?_)
      (@ftrHdr_putFooter (a - 8) a (putHeader m a 0 1 0) ha)
    rw [alignedMem, putFooter_apply (by omega), putHeader_apply (by omega)]
    rfl
  refine ⟨Eq.trans (rd32_congr fun x h1 h2 => ?_) hfirst, hfirst⟩
  exact holeMem_apply hz (by omega)

/-- The list around a hole, with other pieces in its place. -/
theorem tiles_inside {s' : St} {mid : List Seg} (W : WellFormed s (l₁ ++ g :: l₂))
    (W' : WellFormed s' (l₁ ++ (mid ++ l₂))) (hsame : s'.heap.start = s.heap.start)
    (hmid : Tiles Seg.addr Seg.size g.addr mid (g.addr + g.size)) {k : Seg}
    (hk : k ∈ l₁ ++ (mid ++ l₂)) (h1 : g.addr ≤ k.addr) (h2 : k.addr < g.addr + g.size) :
    k ∈ mid := by
  have hl₁ := (tiles_split.mp W.tiles).1
  obtain ⟨c, hc, hrest⟩ := tiles_append.mp W'.tiles
  obtain ⟨d, hd, hl₂⟩ := tiles_append.mp hrest
  rw [hsame] at hc
  obtain rfl := hl₁.stop_unique hc
  obtain rfl := hmid.stop_unique hd
  rcases List.mem_append.mp hk with hk | hk
  · have := hl₁.bounds hk
    have := hl₁.pos hk
    omega
  rcases List.mem_append.mp hk with hk | hk
  · exact hk
  · have := hl₂.bounds hk
    omega

/-- A segment that is not the first one leaves a piece in front of it. -/
theorem tiles_front {mid : List Seg} {a b : Nat} (h : Tiles Seg.addr Seg.size a mid b)
    (hmin : ∀ x ∈ mid, 20 ≤ x.size) {k : Seg} (hk : k ∈ mid) : k.addr = a ∨ a + 20 ≤ k.addr := by
  cases mid with
  | nil => exact absurd hk List.not_mem_nil
  | cons x mid =>
      obtain ⟨haddr, -, hrest⟩ := h
      rcases List.mem_cons.mp hk with rfl | hk
      · exact Or.inl haddr
      · have := hrest.bounds hk
        have := hmin x List.mem_cons_self
        omega

/-- The pieces tile the hole only if they all hold their tags. -/
theorem AlignFits.of_tilesHole {s' : St} {i p : Nat} (W : WellFormed s (l₁ ++ g :: l₂))
    (hP : Placed s) (h20 : 20 ≤ n) (hfront : frontSz g.addr + n ≤ g.size)
    (hget : s.get i = some g.addr) (halloc : allocHole s i n pageBits = some (p, s'))
    (h : TilesHole s l₁ g l₂ p s') : AlignFits s g n := by
  have hmem : g ∈ l₁ ++ g :: l₂ := List.mem_append_right _ List.mem_cons_self
  have hb := W.tiles.bounds hmem
  have hstop := hP.stop
  have hsize := hP.size
  have hbelow := hP.below
  obtain ⟨-, mid, k, htiles, hmin, hlive, hk, W', hslots, hframe⟩ := h
  obtain ⟨s'', hpointer⟩ := allocHole_pointer (n := n) hget
  have hp : p = g.addr + leadSz g.addr + 12 := by
    rw [halloc] at hpointer
    exact (Prod.mk.inj (Option.some.inj hpointer)).1
  have hkmem : k ∈ mid := (mem_liveSegs.mp (hlive ▸ List.mem_singleton_self k)).1
  have hfar := tiles_front htiles hmin hkmem
  have hroom : leadSz g.addr + n ≤ g.size ∧ (leadSz g.addr < 12 →
      leadSz g.addr + n + 4096 ≤ g.size) := by
    unfold frontSz headerSz at hfront
    split at hfront <;> omega
  have hlead : leadSz g.addr = 0 ∨ 20 ≤ leadSz g.addr := by omega
  obtain rfl : s' = alignedSt s g n := by
    rw [halloc] at hpointer
    have heq := allocHole_alignedSt W hget hfront (by omega) h20
    rw [halloc] at heq
    exact (Prod.mk.inj (Option.some.inj heq)).2
  rw [(alignedSt_same s g n).maxSize] at hslots
  rcases hlead with hzero | hlead
  · -- the footer of the segment in front of the hole has been overwritten
    exfalso
    rcases List.eq_nil_or_concat l₁ with rfl | ⟨l, h, rfl⟩
    · have hstart : s.heap.start = g.addr := (tiles_split.mp W.tiles).1
      have haligned := hP.aligned
      rw [hstart] at haligned
      unfold leadSz headerSz at hzero
      split at hzero <;> omega
    · rw [List.concat_eq_append, List.append_assoc, List.singleton_append] at W
      obtain ⟨hl, hpos, hnext, -⟩ := tiles_split.mp W.tiles
      have hh : h ∈ l ++ h :: g :: l₂ := List.mem_append_right _ List.mem_cons_self
      have hh20 := W.min h hh
      have hle := hl.le
      have hkeep : ftrHdr (alignedSt s g n).mem (g.addr - 8) = ftrHdr s.mem (g.addr - 8) :=
        rd32_congr fun x h1 h2 => hframe x (Or.inl (by omega)) (Or.inr (by omega))
      have hold : ftrHdr s.mem (g.addr - 8) = h.addr := by
        rw [hnext]
        exact (W.tagged h hh).ftrHdr
      have hnew : ftrHdr (alignedSt s g n).mem (g.addr - 8) = g.addr := by
        refine Eq.trans (rd32_congr fun x h1 h2 =>
          alignedSt_mem hslots (Or.inr (by omega))) ?_
        obtain ⟨hrest, hexact⟩ := @ftrHdr_noFront n s.mem g.addr (g.size - n) (by omega) (by omega)
          h20 (by omega)
        unfold piecesMem
        rw [hzero, if_neg (by omega)]
        exact hrest
      omega
  · refine ⟨hlead, ?_⟩
    by_cases hexact : leadSz g.addr + n = g.size
    · exact Or.inl hexact
    · rw [alignedSt_slots, if_neg hexact] at hslots
      have hlisted : g.addr + leadSz g.addr + n ∈ (alignedSt s g n).holes := by
        unfold alignedSt
        rw [if_neg hexact]
        exact (insert_holes (by omega)).symm.subset List.mem_cons_self
      obtain ⟨t, ht, -, htaddr⟩ := mem_holeAddrs.mp (W'.listed.subset hlisted)
      have htmid := tiles_inside W W' (alignedSt_same s g n).start htiles ht (by omega) (by omega)
      have := htiles.bounds htmid
      have := hmin t htmid
      exact Or.inr ⟨by omega, hslots⟩

end Tile

/-- **An aligned allocation tiles the hole** that it is served from exactly if the
front and the rest can hold their tags, and the index has a slot for the rest. -/
theorem aligned_iff {P : Pages} {s : St} {segs : List Seg} (W : WellFormed s segs) (hP : Placed s)
    {size i : Nat} (hsize : size + 20 < 2 ^ 32)
    (hfind : holeFind s (realSize size) pageBits = some i) (d : Nat) :
    ∃ l₁ g l₂ p s', segs = l₁ ++ g :: l₂ ∧ g.hole = true ∧ s.get i = some g.addr
      ∧ alloc P (d + 1) s size pageBits = some (p, s')
      ∧ (TilesHole s l₁ g l₂ p s' ↔ AlignFits s g (size + 20)) := by
  have hreal : realSize size = size + 20 := Nat.mod_eq_of_lt hsize
  have hfits := List.find?_some hfind
  have hi : i < s.heap.index.size := List.mem_range.mp (List.mem_of_find?_eq_some hfind)
  obtain ⟨g, hg, hhole, haddr⟩ := mem_holeAddrs.mp (W.listed.subset (OrdArr.elem_mem hi))
  have hget : s.get i = some g.addr := by rw [haddr]; exact if_pos hi
  rw [← haddr, holeFits_page, (W.tagged g hg).size, hreal] at hfits
  obtain ⟨l₁, l₂, rfl⟩ := List.append_of_mem hg
  obtain ⟨s', halloc⟩ := @allocHole_pointer s i g.addr (size + 20) hget
  refine ⟨l₁, g, l₂, g.addr + leadSz g.addr + 12, s', rfl, hhole, hget, ?_, ?_⟩
  · rw [alloc, hfind]
    dsimp only
    rw [hreal, halloc]
  · refine ⟨fun h => AlignFits.of_tilesHole W hP (by omega) hfits hget halloc h, fun h => ?_⟩
    have heq := allocHole_alignedSt W hget hfits (Or.inr h.1) (by omega)
    obtain rfl : s' = alignedSt s g (size + 20) := by
      rw [halloc] at heq
      exact (Prod.mk.inj (Option.some.inj heq)).2
    exact h.tilesHole W hP hhole (by omega)

theorem intact_smallHeap : Intact ⟨smallHeap, []⟩ [⟨0x2000, 0x2000, true⟩] :=
  @create_spec (fun _ => 0) 0x1000 0x4000 0x4000 1 false smallHeap rfl (by decide) (by decide)
    (by decide) (by decide)

theorem placed_smallHeap : Placed smallHeap := by decide +kernel

theorem aligned_iff_smallHeap : ∃ l₁ g l₂ p s', [⟨0x2000, 0x2000, true⟩] = l₁ ++ g :: l₂
    ∧ alloc samePages 1 smallHeap 4088 pageBits = some (p, s') ∧ TilesHole smallHeap l₁ g l₂ p s' := by
  obtain ⟨l₁, g, l₂, p, s', hsegs, -, -, halloc, hiff⟩ :=
    @aligned_iff samePages smallHeap _ intact_smallHeap.wellFormed placed_smallHeap 4088 0
      (by decide) (by decide +kernel) 0
  have hg : g ∈ [⟨0x2000, 0x2000, true⟩] := hsegs ▸ List.mem_append_right _ List.mem_cons_self
  have hfits : AlignFits smallHeap g 4108 := by
    rw [List.mem_singleton.mp hg]
    exact ⟨by decide, Or.inl (by decide)⟩
  exact ⟨l₁, g, l₂, p, s', hsegs, halloc, hiff.mpr hfits⟩

/-- A block that ends 26 bytes in front of a page. -/
def nearPage : Run := (Run.run ⟨smallHeap, []⟩ [.alloc 4050]).get (by decide +kernel)

/-- The front of the next hole would have 14 bytes. -/
theorem aligned_overlaps : ∃ segs, WellFormed nearPage.st segs ∧ Placed nearPage.st
    ∧ (alloc samePages 1 nearPage.st 8 pageBits).map Prod.fst = some 0x3000
    ∧ ∀ l₁ g l₂ p s', segs = l₁ ++ g :: l₂ → nearPage.st.get 0 = some g.addr →
        alloc samePages 1 nearPage.st 8 pageBits = some (p, s') →
        ¬TilesHole nearPage.st l₁ g l₂ p s' := by
  have hallowed : Allowed ⟨smallHeap, []⟩ [.alloc 4050] := by decide +kernel
  obtain ⟨r, segs, hrun, I⟩ := intact_smallHeap.run hallowed
  obtain rfl : nearPage = r := by
    rw [nearPage, Option.get_of_eq_some _ hrun]
  have halloc : (alloc samePages 1 nearPage.st 8 pageBits).map Prod.fst = some 0x3000 := by
    decide +kernel
  have hget : nearPage.st.get 0 = some 0x2fe6 := by decide +kernel
  refine ⟨segs, I.wellFormed, by decide +kernel, halloc, fun l₁ g l₂ p s' hsegs hg hp h => ?_⟩
  rw [hp] at halloc
  obtain rfl : p = 0x3000 := Option.some.inj halloc
  obtain ⟨-, mid, k, htiles, hmin, hlive, hk, -⟩ := h
  rw [hget] at hg
  have haddr : 0x2fe6 = g.addr := Option.some.inj hg
  have hfar := tiles_front htiles hmin (mem_liveSegs.mp (hlive ▸ List.mem_singleton_self k)).1
  omega

end Heap

end Shitos
