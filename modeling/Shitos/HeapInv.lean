import Mathlib.Data.List.Chain
import Shitos.Heap
import Shitos.Tiling

/-!
# Well-formed heaps

A heap is well formed when its segments tile `[start, end)`, every segment
carries its two boundary tags, no two neighbours are both holes, and the
index lists each hole once. `WellFormed s segs` states this of a memory
state and the list of its segments; the list is what a walk from
`heap->start` by `hdr->size` visits.

The operations are specified on the list: `allocHole` carves the front off a
hole, `free` turns a segment into a hole and joins it with the holes beside
it. `Segmented` is the part of the invariant that also holds half way
through an operation, and `Segmented.splice` is the one place where tiling,
tags and frame are put together.
-/

namespace Shitos

namespace Heap

/-- A segment, tags included. -/
structure Seg where
  addr : Nat
  size : Nat
  hole : Bool
deriving DecidableEq, Repr

/-- The header and the footer of a segment are in place. -/
structure Tagged (m : Mem) (g : Seg) : Prop where
  magic : tagMagic m g.addr = magic
  hole : hdrHole m g.addr = g.hole.toNat
  size : hdrSize m g.addr = g.size
  ftrMagic : tagMagic m (g.addr + g.size - 8) = Heap.magic
  ftrHdr : ftrHdr m (g.addr + g.size - 8) = g.addr

/-- Neighbours that `free` would not have left unmerged. -/
def Apart (g g' : Seg) : Prop := ¬(g.hole = true ∧ g'.hole = true)

/-- The headers of the holes. -/
def holeAddrs (segs : List Seg) : List Nat := (segs.filter Seg.hole).map Seg.addr

/-- The segments tile the heap and are tagged. -/
structure Segmented (s : St) (segs : List Seg) : Prop where
  tiles : Tiles Seg.addr Seg.size s.heap.start segs s.heap.stop
  min : ∀ g ∈ segs, 20 ≤ g.size
  tagged : ∀ g ∈ segs, Tagged s.mem g

structure WellFormed (s : St) (segs : List Seg) : Prop extends Segmented s segs where
  apart : segs.IsChain Apart
  listed : s.holes.Perm (holeAddrs segs)

instance (m : Mem) (g : Seg) : Decidable (Tagged m g) :=
  decidable_of_iff (tagMagic m g.addr = Heap.magic ∧ hdrHole m g.addr = g.hole.toNat
      ∧ hdrSize m g.addr = g.size ∧ tagMagic m (g.addr + g.size - 8) = Heap.magic
      ∧ ftrHdr m (g.addr + g.size - 8) = g.addr)
    ⟨fun ⟨h₁, h₂, h₃, h₄, h₅⟩ => ⟨h₁, h₂, h₃, h₄, h₅⟩,
      fun h => ⟨h.magic, h.hole, h.size, h.ftrMagic, h.ftrHdr⟩⟩

instance : DecidableRel Apart := fun g g' =>
  inferInstanceAs (Decidable (¬(g.hole = true ∧ g'.hole = true)))

/-- Whether a state is well formed can be read off its tags and its index. -/
instance (s : St) (segs : List Seg) : Decidable (WellFormed s segs) :=
  decidable_of_iff (Tiles Seg.addr Seg.size s.heap.start segs s.heap.stop
      ∧ (∀ g ∈ segs, 20 ≤ g.size) ∧ (∀ g ∈ segs, Tagged s.mem g) ∧ segs.IsChain Apart
      ∧ s.holes.Perm (holeAddrs segs))
    ⟨fun ⟨h₁, h₂, h₃, h₄, h₅⟩ => ⟨⟨h₁, h₂, h₃⟩, h₄, h₅⟩,
      fun W => ⟨W.tiles, W.min, W.tagged, W.apart, W.listed⟩⟩

/-- The index lies below the heap, and so do `n` more slots of it. -/
def Room (s : St) (n : Nat) : Prop :=
  s.heap.index.array + 4 * (s.heap.index.size + n) ≤ s.heap.start

/-- The heap record after an operation: only the number of holes may differ. -/
structure SameHeap (s s' : St) : Prop where
  start : s'.heap.start = s.heap.start
  stop : s'.heap.stop = s.heap.stop
  max : s'.heap.max = s.heap.max
  kernel : s'.heap.kernel = s.heap.kernel
  array : s'.heap.index.array = s.heap.index.array
  maxSize : s'.heap.index.maxSize = s.heap.index.maxSize

theorem SameHeap.refl (s : St) : SameHeap s s := ⟨rfl, rfl, rfl, rfl, rfl, rfl⟩

theorem SameHeap.trans {s₁ s₂ s₃ : St} (h : SameHeap s₁ s₂) (h' : SameHeap s₂ s₃) :
    SameHeap s₁ s₃ :=
  ⟨h'.start.trans h.start, h'.stop.trans h.stop, h'.max.trans h.max,
    h'.kernel.trans h.kernel, h'.array.trans h.array, h'.maxSize.trans h.maxSize⟩

theorem SameHeap.of_mem (s : St) (m : Mem) : SameHeap s ⟨m, s.heap⟩ :=
  ⟨rfl, rfl, rfl, rfl, rfl, rfl⟩

/-! ## Tags in memory -/

/-- Only the bytes of the two tags count. -/
theorem Tagged.congr_tags {m m' : Mem} {g : Seg} (h : Tagged m g)
    (hm : ∀ x, g.addr ≤ x ∧ x < g.addr + 12 ∨ g.addr + g.size ≤ x + 8 ∧ x < g.addr + g.size →
      m' x = m x) (hg : 20 ≤ g.size) : Tagged m' g where
  magic := Eq.trans (rd32_congr fun x h1 h2 => hm x (by omega)) h.magic
  hole := by
    rw [← h.hole, hdrHole, hdrHole, rd8, rd8, hm _ (by omega)]
  size := Eq.trans (rd32_congr fun x h1 h2 => hm x (by omega)) h.size
  ftrMagic := Eq.trans (rd32_congr fun x h1 h2 => hm x (by omega)) h.ftrMagic
  ftrHdr := Eq.trans (rd32_congr fun x h1 h2 => hm x (by omega)) h.ftrHdr

theorem Tagged.congr {m m' : Mem} {g : Seg} (h : Tagged m g) (hg : 20 ≤ g.size)
    (hm : ∀ x, g.addr ≤ x → x < g.addr + g.size → m' x = m x) : Tagged m' g :=
  h.congr_tags (fun x hx => hm x (by omega) (by omega)) hg

theorem Tagged.size_lt {m : Mem} {g : Seg} (h : Tagged m g) : g.size < 2 ^ 32 := by
  rw [← h.size]; exact rd32_lt _ _

theorem Tagged.addr_lt {m : Mem} {g : Seg} (h : Tagged m g) : g.addr < 2 ^ 32 := by
  rw [← h.ftrHdr]; exact rd32_lt _ _

theorem putHeader_apply {m : Mem} {p size hole align x : Nat} (h : x < p ∨ p + 12 ≤ x) :
    putHeader m p size hole align x = m x := by
  simp only [putHeader, setAlign, setHole, setMagic, setSize]
  rw [wr8_apply_of_ne (by omega), wr8_apply_of_ne (by omega), wr32_apply_of_ne (by omega),
    wr32_apply_of_ne (by omega)]

theorem putFooter_apply {m : Mem} {p hdr x : Nat} (h : x < p ∨ p + 8 ≤ x) :
    putFooter m p hdr x = m x := by
  simp only [putFooter, setFtrHdr, setMagic]
  rw [wr32_apply_of_ne (by omega), wr32_apply_of_ne (by omega)]

theorem magic_lt : magic < 2 ^ 32 := by decide

theorem hdrSize_putHeader {m : Mem} {p size hole align : Nat} (hsize : size < 2 ^ 32) :
    hdrSize (putHeader m p size hole align) p = size := by
  simp only [hdrSize, putHeader, setAlign, setHole, setMagic, setSize]
  rw [rd32_wr8_of_disjoint (by omega), rd32_wr8_of_disjoint (by omega),
    rd32_wr32_of_disjoint (by omega), rd32_wr32_same _ hsize]

/-- Writing both tags of a segment. -/
theorem tagged_put {m : Mem} {p size align : Nat} {hole : Bool} (h20 : 20 ≤ size)
    (hsize : size < 2 ^ 32) (hp : p < 2 ^ 32) :
    Tagged (putFooter (putHeader m p size hole.toNat align) (p + size - 8) p) ⟨p, size, hole⟩ where
  magic := by
    simp only [tagMagic, putFooter, putHeader, setFtrHdr, setAlign, setHole, setMagic, setSize]
    rw [rd32_wr32_of_disjoint (by omega), rd32_wr32_of_disjoint (by omega),
      rd32_wr8_of_disjoint (by omega), rd32_wr8_of_disjoint (by omega),
      rd32_wr32_same _ magic_lt]
  hole := by
    simp only [hdrHole, putFooter, putHeader, setFtrHdr, setAlign, setHole, setMagic, setSize]
    rw [rd8_wr32_of_disjoint (by omega), rd8_wr32_of_disjoint (by omega),
      rd8_wr8_of_ne (by omega), rd8_wr8_same _ (by cases hole <;> decide)]
  size := by
    have hfooter : hdrSize (putFooter (putHeader m p size hole.toNat align) (p + size - 8) p) p
        = hdrSize (putHeader m p size hole.toNat align) p :=
      rd32_congr fun x h1 h2 => putFooter_apply (by omega)
    exact hfooter.trans (hdrSize_putHeader hsize)
  ftrMagic := by
    simp only [tagMagic, putFooter, setFtrHdr, setMagic]
    rw [rd32_wr32_of_disjoint (by omega), rd32_wr32_same _ magic_lt]
  ftrHdr := by
    simp only [ftrHdr, putFooter, setFtrHdr, setMagic]
    rw [rd32_wr32_same _ hp]

/-! ## The index -/

theorem holes_of_low {s s' : St} (hidx : s'.heap.index = s.heap.index) (hroom : Room s 0)
    (hmem : ∀ x < s.heap.start, s'.mem x = s.mem x) : s'.holes = s.holes := by
  unfold Room at hroom
  rw [St.holes, St.holes, hidx]
  exact OrdArr.elems_congr fun x _ h2 => hmem x (by omega)

theorem insert_holes {s : St} {el : Nat} (hel : el < 2 ^ 32) :
    (s.insert el).holes.Perm (el :: s.holes) := OrdArr.insert_perm hel

theorem insert_same (s : St) (el : Nat) : SameHeap s (s.insert el) := by
  refine ⟨rfl, rfl, rfl, rfl, ?_, ?_⟩
  · simp only [St.insert, OrdArr.insert_size]
  · simp only [St.insert, OrdArr.insert_size]

theorem growHole_same (s : St) (oldSz oldEnd : Nat) : SameHeap s (growHole s oldSz oldEnd) := by
  unfold growHole
  split
  · exact (SameHeap.of_mem s _).trans (insert_same _ _)
  · exact SameHeap.of_mem s _

theorem insert_index_size (s : St) (el : Nat) :
    (s.insert el).heap.index.size = s.heap.index.size + 1 := by
  simp only [St.insert, OrdArr.insert_size]

theorem insert_mem {s : St} {el x : Nat} (hroom : Room s 1) (hx : s.heap.start ≤ x) :
    (s.insert el).mem x = s.mem x :=
  OrdArr.insert_frame (Or.inr (by unfold Room at hroom; omega))

theorem remove_spec {s : St} {i : Nat} (hi : i < s.heap.index.size) : ∃ s',
    s.remove i = some s' ∧ SameHeap s s' ∧ s'.heap.index.size + 1 = s.heap.index.size
      ∧ (s.heap.index.elem s.mem i :: s'.holes).Perm s.holes
      ∧ ∀ x, s.heap.index.array + 4 * s.heap.index.size ≤ x → s'.mem x = s.mem x := by
  obtain ⟨m, hm⟩ := @OrdArr.remove_eq_some s.mem s.heap.index i hi
  refine ⟨⟨m, { s.heap with index := { s.heap.index with size := s.heap.index.size - 1 } }⟩,
    ?_, ⟨rfl, rfl, rfl, rfl, rfl, rfl⟩, ?_, OrdArr.remove_perm hm, ?_⟩
  · simp only [St.remove, hm, Option.bind_eq_bind, Option.bind_some]
    rfl
  · simp only; omega
  · intro x hx
    exact OrdArr.remove_frame hm (Or.inr hx)

/-! ## Replacing segments -/

/-- Memory above the index may change inside the replaced part only. -/
theorem Segmented.splice {s s' : St} {l₁ mid mid' l₂ : List Seg} {c d : Nat}
    (S : Segmented s (l₁ ++ (mid ++ l₂))) (hsame : SameHeap s s')
    (hmid : Tiles Seg.addr Seg.size c mid d) (hne : mid ≠ [])
    (hmid' : Tiles Seg.addr Seg.size c mid' d) (hmin : ∀ g ∈ mid', 20 ≤ g.size)
    (htag : ∀ g ∈ mid', Tagged s'.mem g)
    (hmem : ∀ x, s.heap.start ≤ x → x < c ∨ d ≤ x → s'.mem x = s.mem x) :
    Segmented s' (l₁ ++ (mid' ++ l₂)) := by
  have htiles := tiles_middle S.tiles hmid hne hmid'
  have hall := S.tiles
  rw [tiles_append] at hall
  obtain ⟨c', h₁, hrest⟩ := hall
  rw [tiles_append] at hrest
  obtain ⟨d', hm, h₂⟩ := hrest
  obtain rfl : c' = c := by
    obtain ⟨x, t, rfl⟩ := List.exists_cons_of_ne_nil hne
    exact hm.1.symm.trans hmid.1
  obtain rfl := hm.stop_unique hmid
  have hlow := h₁.le
  have hmidle := hm.le
  refine ⟨by rw [hsame.start, hsame.stop]; exact htiles, fun g hg => ?_, fun g hg => ?_⟩
  · rcases List.mem_append.mp hg with hg | hg
    · exact S.min g (List.mem_append_left _ hg)
    · rcases List.mem_append.mp hg with hg | hg
      · exact hmin g hg
      · exact S.min g (List.mem_append_right _ (List.mem_append_right _ hg))
  · rcases List.mem_append.mp hg with hg | hg
    · have hg' : g ∈ l₁ ++ (mid ++ l₂) := List.mem_append_left _ hg
      have hb := h₁.bounds hg
      refine (S.tagged g hg').congr (S.min g hg') fun x h1 h2 => ?_
      exact hmem x (by omega) (Or.inl (by omega))
    · rcases List.mem_append.mp hg with hg | hg
      · exact htag g hg
      · have hg' : g ∈ l₁ ++ (mid ++ l₂) := List.mem_append_right _ (List.mem_append_right _ hg)
        have hb := h₂.bounds hg
        refine (S.tagged g hg').congr (S.min g hg') fun x h1 h2 => ?_
        exact hmem x (by omega) (Or.inr (by omega))

/-- A change below the heap leaves the segments alone. -/
theorem Segmented.of_low {s s' : St} {segs : List Seg} (S : Segmented s segs)
    (hsame : SameHeap s s') (hmem : ∀ x, s.heap.start ≤ x → s'.mem x = s.mem x) :
    Segmented s' segs := by
  refine ⟨by rw [hsame.start, hsame.stop]; exact S.tiles, S.min, fun g hg => ?_⟩
  have hb := S.tiles.bounds hg
  exact (S.tagged g hg).congr (S.min g hg) fun x h1 _ => hmem x (by omega)

theorem holeAddrs_append (l₁ l₂ : List Seg) :
    holeAddrs (l₁ ++ l₂) = holeAddrs l₁ ++ holeAddrs l₂ := by
  rw [holeAddrs, List.filter_append, List.map_append, holeAddrs, holeAddrs]

theorem holeAddrs_cons (g : Seg) (l : List Seg) :
    holeAddrs (g :: l) = if g.hole then g.addr :: holeAddrs l else holeAddrs l := by
  rw [holeAddrs, List.filter_cons]
  split <;> rfl

theorem mem_holeAddrs {segs : List Seg} {a : Nat} :
    a ∈ holeAddrs segs ↔ ∃ g ∈ segs, g.hole = true ∧ g.addr = a := by
  simp only [holeAddrs, List.mem_map, List.mem_filter, and_assoc]

/-! ## Listed holes -/

section Listed

variable {s t : St} {segs : List Seg}

theorem WellFormed.hole_bounds (W : WellFormed s segs) {b : Nat} (hb : b ∈ s.holes) :
    ∃ k ∈ segs, k.hole = true ∧ k.addr = b ∧ s.heap.start ≤ b ∧ b + 20 ≤ s.heap.stop := by
  obtain ⟨k, hk, hhole, rfl⟩ := mem_holeAddrs.mp (W.listed.subset hb)
  have hb := W.tiles.bounds hk
  have := W.min k hk
  exact ⟨k, hk, hhole, rfl, hb.1, by omega⟩

theorem WellFormed.nodup_holes (W : WellFormed s segs) : s.holes.Nodup := by
  refine W.listed.nodup_iff.mpr ?_
  exact W.tiles.nodup_addr.sublist (List.filter_sublist.map _)

/-- The size of a hole only depends on its header. -/
theorem hdrSize_congr {m m' : Mem} {b : Nat} (h : ∀ x, b ≤ x → x < b + 12 → m' x = m x) :
    hdrSize m' b = hdrSize m b := rd32_congr fun x h1 h2 => h x (by omega) (by omega)

/-- Two headers of a heap do not overlap. -/
theorem WellFormed.hole_off (W : WellFormed s segs) {g : Seg} (hg : g ∈ segs) {b : Nat}
    (hb : b ∈ s.holes) (hne : b ≠ g.addr) : b + 12 ≤ g.addr ∨ g.addr + g.size ≤ b := by
  obtain ⟨k, hk, -, rfl, -⟩ := W.hole_bounds hb
  have hoff := W.tiles.disjoint hk hg fun heq => hne (by rw [heq])
  have := W.min k hk
  omega

theorem remove_holes_eq {i : Nat} (h : s.remove i = some t) : t.holes = s.holes.eraseIdx i := by
  obtain ⟨⟨m, a⟩, hrem, hdone⟩ := Option.bind_eq_some_iff.mp h
  obtain rfl := Option.some.inj hdone
  exact OrdArr.remove_elems hrem

theorem remove_holes {i : Nat} (h : s.remove i = some t) : t.holes.Sublist s.holes := by
  rw [remove_holes_eq h]
  exact List.eraseIdx_sublist _ _

theorem remove_mem {i x : Nat} (h : s.remove i = some t)
    (hx : x < s.heap.index.array ∨ s.heap.index.array + 4 * s.heap.index.size ≤ x) :
    t.mem x = s.mem x := by
  obtain ⟨⟨m, a⟩, hrem, hdone⟩ := Option.bind_eq_some_iff.mp h
  obtain rfl := Option.some.inj hdone
  exact OrdArr.remove_frame hrem hx

end Listed

/-! ## Allocation -/

/-- What is left of a hole after `n` bytes have been allocated from it. -/
def carve (g : Seg) (n : Nat) : List Seg :=
  if g.size - n < 20 then [⟨g.addr, g.size, false⟩]
  else [⟨g.addr, n, false⟩, ⟨g.addr + n, g.size - n, true⟩]

theorem carve_tiles {g : Seg} {n : Nat} (hn : n ≤ g.size) (h20 : 20 ≤ n) :
    Tiles Seg.addr Seg.size g.addr (carve g n) (g.addr + g.size) := by
  unfold carve
  split
  · exact ⟨rfl, by simp only; omega, rfl⟩
  · refine ⟨rfl, by simp only; omega, rfl, by simp only; omega, ?_⟩
    simp only [Tiles]; omega

theorem carve_min {g : Seg} {n : Nat} (hg : 20 ≤ g.size) (h20 : 20 ≤ n) :
    ∀ x ∈ carve g n, 20 ≤ x.size := by
  unfold carve
  split
  · intro x hx
    rw [List.mem_singleton.mp hx]
    exact hg
  · intro x hx
    rcases List.mem_cons.mp hx with rfl | hx
    · exact h20
    · rw [List.mem_singleton.mp hx]
      simp only; omega

theorem holeFind_spec {s : St} {n i : Nat} (h : holeFind s n 0 = some i) :
    i < s.heap.index.size ∧ n ≤ hdrSize s.mem (s.heap.index.elem s.mem i) := by
  have hmem := List.mem_of_find?_eq_some h
  have hfit := List.find?_some h
  rw [List.mem_range] at hmem
  simp only [holeFits, if_pos, decide_eq_true_eq] at hfit
  exact ⟨hmem, hfit⟩

/-- The memory once the front of a segment has been tagged as allocated and
the rest of it, if it is large enough, as a hole. -/
def carveMem (m : Mem) (orig size n : Nat) : Mem :=
  if size - n < 20 then putFooter (putHeader m orig size 0 0) (orig + size - 8) orig
  else
    putFooter (putHeader (putFooter (putHeader m orig n 0 0) (orig + n - 8) orig)
      (orig + n) (size - n) 1 0) (orig + size - 8) (orig + n)

theorem carveMem_apply {m : Mem} {orig size n x : Nat} (h20 : 20 ≤ n) (hn : n ≤ size)
    (hx : x < orig ∨ orig + size ≤ x) : carveMem m orig size n x = m x := by
  unfold carveMem
  split
  · rw [putFooter_apply (by omega), putHeader_apply (by omega)]
  · rw [putFooter_apply (by omega), putHeader_apply (by omega), putFooter_apply (by omega),
      putHeader_apply (by omega)]

theorem carveMem_tagged {m : Mem} {g : Seg} {n : Nat} (h20 : 20 ≤ n) (hn : n ≤ g.size)
    (hend : g.addr + g.size < 2 ^ 32) : ∀ x ∈ carve g n, Tagged (carveMem m g.addr g.size n) x := by
  unfold carve carveMem
  by_cases hsmall : g.size - n < 20
  · rw [if_pos hsmall, if_pos hsmall]
    intro x hx
    rw [List.mem_singleton.mp hx]
    exact @tagged_put _ _ _ 0 false (by omega) (by omega) (by omega)
  · rw [if_neg hsmall, if_neg hsmall]
    intro x hx
    rcases List.mem_cons.mp hx with rfl | hx
    · refine (@tagged_put m g.addr n 0 false h20 (by omega) (by omega)).congr h20 fun x h1 h2 => ?_
      simp only at h1 h2
      rw [putFooter_apply (by omega), putHeader_apply (by omega)]
      rfl
    · rw [List.mem_singleton.mp hx]
      have htag := @tagged_put (putFooter (putHeader m g.addr n 0 0) (g.addr + n - 8) g.addr)
        (g.addr + n) (g.size - n) 0 true (by omega) (by omega) (by omega)
      rw [show g.addr + n + (g.size - n) = g.addr + g.size by omega] at htag
      exact htag

/-- `vmem_heap_alloc` without alignment, once a hole has been found. -/
theorem allocHole_eq {s s₁ : St} {i n orig size : Nat} (hget : s.get i = some orig)
    (hrem : s.remove i = some s₁) (hsize : hdrSize s.mem orig = size) (hn : n ≤ size)
    (h20 : 20 ≤ n) (hstop : orig + size ≤ s₁.heap.stop) :
    allocHole s i n 0 = some (orig + 12,
      if size - n < 20 then ⟨carveMem s₁.mem orig size n, s₁.heap⟩
      else St.insert ⟨carveMem s₁.mem orig size n, s₁.heap⟩ (orig + n)) := by
  have hlt : size < 2 ^ 32 := by rw [← hsize]; exact rd32_lt _ _
  simp only [allocHole, hget, hrem, hsize, sub32_of_le hn, headerSz, footerSz, Nat.reduceAdd,
    Option.bind_eq_bind, Option.bind_some, Option.pure_def, ne_eq, not_true_eq_false, if_false]
  by_cases hsmall : size - n < 20
  · rw [if_pos hsmall, if_pos hsmall, sub32_of_le (Nat.le_refl _), Nat.sub_self,
      if_neg (Nat.lt_irrefl 0), carveMem, if_pos hsmall]
  · have hfooter : hdrSize (putFooter (putHeader s₁.mem orig n 0 0) (orig + n - 8) orig) orig
        = n := by
      have hkeep : hdrSize (putFooter (putHeader s₁.mem orig n 0 0) (orig + n - 8) orig) orig
          = hdrSize (putHeader s₁.mem orig n 0 0) orig :=
        rd32_congr fun x h1 h2 => putFooter_apply (by omega)
      exact hkeep.trans (hdrSize_putHeader (by omega))
    rw [if_neg hsmall, if_neg hsmall, sub32_of_le hn, if_pos (by omega), hfooter,
      hdrSize_putHeader (by omega), if_pos (by omega), carveMem, if_neg hsmall,
      show orig + n + (size - n) = orig + size by omega]

/-- The outcome of serving a request from the hole `g`. -/
structure Carved (s : St) (l₁ : List Seg) (g : Seg) (l₂ : List Seg) (n : Nat) (s' : St) :
    Prop where
  wellFormed : WellFormed s' (l₁ ++ (carve g n ++ l₂))
  same : SameHeap s s'
  size_le : s'.heap.index.size ≤ s.heap.index.size
  frame : ∀ x, s.heap.start ≤ x → x < g.addr ∨ g.addr + g.size ≤ x → s'.mem x = s.mem x

theorem Apart.of_not_left {g g' : Seg} (h : g.hole = false) : Apart g g' := by
  rw [Apart, h]; exact fun hh => nomatch hh.1

theorem Apart.of_not_right {g g' : Seg} (h : g'.hole = false) : Apart g g' := by
  rw [Apart, h]; exact fun hh => nomatch hh.2

/-- A hole may be replaced by an allocated segment and a smaller hole. -/
theorem isChain_carve {l₁ l₂ : List Seg} {g : Seg} {n : Nat} (hg : g.hole = true)
    (h : (l₁ ++ g :: l₂).IsChain Apart) : (l₁ ++ (carve g n ++ l₂)).IsChain Apart := by
  rw [List.isChain_append] at h
  obtain ⟨h₁, hgl, -⟩ := h
  rw [List.isChain_cons] at hgl
  obtain ⟨hg₂, h₂⟩ := hgl
  rw [List.isChain_append]
  refine ⟨h₁, ?_, ?_⟩
  · unfold carve
    split
    · rw [List.singleton_append, List.isChain_cons]
      exact ⟨fun y _ => Apart.of_not_left rfl, h₂⟩
    · rw [List.cons_append, List.isChain_cons, List.singleton_append, List.isChain_cons]
      refine ⟨fun y _ => Apart.of_not_left rfl, fun y hy => ?_, h₂⟩
      exact fun hh => hg₂ y hy ⟨hg, hh.2⟩
  · intro x _ y hy
    refine Apart.of_not_right ?_
    unfold carve at hy
    split at hy
    · cases hy; rfl
    · cases hy; rfl

theorem holeAddrs_carve {g : Seg} {n : Nat} :
    holeAddrs (carve g n) = if g.size - n < 20 then [] else [g.addr + n] := by
  unfold carve
  split <;> rfl

theorem allocHole_spec {s : St} {segs : List Seg} (W : WellFormed s segs) (hroom : Room s 0)
    (hstop : s.heap.stop < 2 ^ 32) {n i : Nat} (h20 : 20 ≤ n) (hfind : holeFind s n 0 = some i) :
    ∃ l₁ g l₂ s', segs = l₁ ++ g :: l₂ ∧ g.hole = true ∧ n ≤ g.size
      ∧ allocHole s i n 0 = some (g.addr + 12, s') ∧ Carved s l₁ g l₂ n s' := by
  obtain ⟨hi, hfit⟩ := holeFind_spec hfind
  obtain ⟨g, hg, hhole, haddr⟩ := mem_holeAddrs.mp (W.listed.subset (OrdArr.elem_mem hi))
  have htag := W.tagged g hg
  have hb := W.tiles.bounds hg
  rw [← haddr, htag.size] at hfit
  obtain ⟨l₁, l₂, rfl⟩ := List.append_of_mem hg
  obtain ⟨s₁, hrem, hsame, hsize, hperm, hkeep⟩ := remove_spec hi
  have hget : s.get i = some g.addr := by rw [haddr]; exact if_pos hi
  have hkeep' : ∀ x, s.heap.start ≤ x → s₁.mem x = s.mem x := fun x hx =>
    hkeep x (by unfold Room at hroom; omega)
  -- the state before the rest of the hole is listed
  have hS : ∀ s' : St, SameHeap s₁ s' →
      (∀ x, s.heap.start ≤ x → s'.mem x = carveMem s₁.mem g.addr g.size n x) →
      Segmented s' (l₁ ++ (carve g n ++ l₂)) := by
    intro s' hsame' hmem
    refine @Segmented.splice s s' l₁ [g] _ l₂ g.addr (g.addr + g.size) W.toSegmented
      (hsame.trans hsame') ⟨rfl, by have := W.min g hg; omega, rfl⟩ (List.cons_ne_nil _ _)
      (carve_tiles hfit h20) (carve_min (W.min g hg) h20) (fun x hx => ?_) fun x h1 h2 => ?_
    · refine (carveMem_tagged h20 hfit (by omega) x hx).congr
        (carve_min (W.min g hg) h20 x hx) fun y h1 _ => hmem y ?_
      have := (carve_tiles hfit h20).bounds hx
      omega
    · rw [hmem x h1, carveMem_apply h20 hfit h2, hkeep' x h1]
  have hholes : (g.addr :: s₁.holes).Perm (holeAddrs (l₁ ++ g :: l₂)) := by
    rw [haddr]; exact hperm.trans W.listed
  have hholes₁ : s₁.holes.Perm (holeAddrs l₁ ++ holeAddrs l₂) := by
    rw [holeAddrs_append, holeAddrs_cons, if_pos hhole] at hholes
    exact (List.perm_cons g.addr).mp (hholes.trans List.perm_middle)
  have hroom₁ : Room s₁ 1 := by
    unfold Room at hroom ⊢
    rw [hsame.array, hsame.start]
    omega
  have heq := allocHole_eq hget hrem htag.size hfit h20 (by rw [hsame.stop]; omega)
  have hlow : ∀ x < s₁.heap.start, carveMem s₁.mem g.addr g.size n x = s₁.mem x := by
    intro x hx
    rw [hsame.start] at hx
    exact carveMem_apply h20 hfit (Or.inl (by omega))
  have hcarved : St.holes ⟨carveMem s₁.mem g.addr g.size n, s₁.heap⟩ = s₁.holes :=
    holes_of_low rfl (by unfold Room at hroom₁ ⊢; omega) hlow
  refine ⟨l₁, g, l₂, _, rfl, hhole, hfit, heq, ?_⟩
  by_cases hsmall : g.size - n < 20
  · rw [if_pos hsmall]
    refine ⟨⟨hS _ (SameHeap.of_mem s₁ _) fun _ _ => rfl, isChain_carve hhole W.apart, ?_⟩,
      hsame.trans (SameHeap.of_mem s₁ _), by simp only; omega, fun x h1 h2 => ?_⟩
    · rw [hcarved, holeAddrs_append, holeAddrs_append, holeAddrs_carve, if_pos hsmall]
      exact hholes₁
    · rw [← hkeep' x h1]
      exact carveMem_apply h20 hfit h2
  · rw [if_neg hsmall]
    have hins := (SameHeap.of_mem s₁ (carveMem s₁.mem g.addr g.size n)).trans
      (insert_same _ (g.addr + n))
    have hmem : ∀ x, s.heap.start ≤ x →
        (St.insert ⟨carveMem s₁.mem g.addr g.size n, s₁.heap⟩ (g.addr + n)).mem x
          = carveMem s₁.mem g.addr g.size n x := fun x hx =>
      insert_mem hroom₁ (by simp only; rw [hsame.start]; exact hx)
    refine ⟨⟨hS _ hins hmem,
      isChain_carve hhole W.apart, ?_⟩,
      hsame.trans hins, ?_, fun x h1 h2 => ?_⟩
    · refine (insert_holes (by omega)).trans ?_
      rw [hcarved, holeAddrs_append, holeAddrs_append, holeAddrs_carve, if_neg hsmall]
      exact (hholes₁.cons _).trans List.perm_middle.symm
    · rw [insert_index_size]
      simp only; omega
    · rw [hmem x h1, carveMem_apply h20 hfit h2, hkeep' x h1]

end Heap

end Shitos
