import Shitos.HeapRun

/-!
# Expansion of a heap

`vmem_heap_alloc` on a request that no hole serves: the heap is extended by
pages, the new room is given to the hole with the highest address, or becomes
a hole of its own if there is none, and the request is made again. The highest
hole need not be the last segment. `expansion_iff` says that the heap comes out
well formed, with its live blocks as they were, exactly if the highest hole is
the last segment or there is no hole.

The heap is one that the paging code does not allocate from, so that mapping
pages leaves its segments and its index alone; what the new pages hold is left
open.
-/

namespace Shitos

namespace Heap

/-- Mapping the pages that extend a heap to a new size. -/
structure Pages where
  map : VmemHeap → Nat → Mem → Mem
  keeps : ∀ h newSz m x, h.index.array ≤ x → x < h.stop → map h newSz m x = m x

/-- `vmem_heap_expand`; `none` is a failed assertion. -/
def expand (P : Pages) (s : St) (newSz : Nat) : Option St :=
  let newSz := pageUp newSz
  if newSz > sub32 s.heap.stop s.heap.start
      ∧ (s.heap.start + newSz) % 2 ^ 32 ≤ s.heap.max then
    some ⟨P.map s.heap newSz s.mem, { s.heap with stop := (s.heap.start + newSz) % 2 ^ 32 }⟩
  else none

/-- `vmem_heap_alloc`, to a depth of `n` calls. -/
def alloc (P : Pages) : Nat → St → Nat → Nat → Option (Nat × St)
  | 0, _, _, _ => none
  | n + 1, s, size, align =>
      match holeFind s (realSize size) align with
      | some hole => allocHole s hole (realSize size) align
      | none => do
          let oldSz := sub32 s.heap.stop s.heap.start
          let oldEnd := s.heap.stop
          let s ← expand P s ((oldSz + realSize size) % 2 ^ 32)
          alloc P n (growHole s oldSz oldEnd) size align

/-- The size of the heap after an expansion. -/
def grownSz (s : St) (size : Nat) : Nat :=
  (s.heap.stop - s.heap.start + (size + 20) + 4095) / 4096 * 4096

/-- A request that no hole serves, and for which the heap can grow. The index
has at least the slot of the first hole. -/
structure Outgrown (s : St) (size : Nat) : Prop where
  room : Room s 0
  slot : s.heap.index.array + 4 ≤ s.heap.start
  max : s.heap.max < 2 ^ 32
  below : s.heap.start + grownSz s size ≤ s.heap.max
  noHole : holeFind s (size + 20) 0 = none

/-- The block `p` is a segment of its own in a heap that is well formed, and the
live blocks are where they were, with the same bytes, tags included. -/
def Served (s : St) (segs : List Seg) (size p : Nat) (s' : St) : Prop :=
  ∃ segs', WellFormed s' segs' ∧ ∃ g ∈ segs', g.hole = false ∧ p = g.addr + 12
    ∧ size + 20 ≤ g.size ∧ ∀ k ∈ segs, k.hole = false →
      k ∈ segs' ∧ (k.addr + k.size ≤ g.addr ∨ g.addr + g.size ≤ k.addr)
        ∧ ∀ x, k.addr ≤ x → x < k.addr + k.size → s'.mem x = s.mem x

/-- The highest hole, if there is one, is the last segment. -/
def EndsInHole (segs : List Seg) : Prop :=
  (∀ g ∈ segs, g.hole = false) ∨ ∃ l g, segs = l ++ [g] ∧ g.hole = true

/-! ## The highest hole -/

section Highest

/-- The loop over any indices: it ends with the highest value, or as it began. -/
theorem highest_foldl (f : Nat → Nat) : ∀ (l : List Nat) (acc : Option Nat × Nat),
    let r := l.foldl (fun acc i => if f i > acc.2 then (some i, f i) else acc) acc
    acc.2 ≤ r.2 ∧ (∀ i ∈ l, f i ≤ r.2) ∧ (r = acc ∨ ∃ i ∈ l, r = (some i, f i)) := by
  intro l
  induction l with
  | nil =>
      intro acc
      exact ⟨Nat.le_refl _, fun i hi => absurd hi List.not_mem_nil, Or.inl rfl⟩
  | cons j l ih =>
      intro acc
      rw [List.foldl_cons]
      by_cases hj : f j > acc.2
      · rw [if_pos hj]
        obtain ⟨hle, hall, hres⟩ := ih (some j, f j)
        refine ⟨Nat.le_trans (Nat.le_of_lt hj) hle, List.forall_mem_cons.mpr ⟨hle, hall⟩, ?_⟩
        rcases hres with hres | ⟨i, hi, hres⟩
        · exact Or.inr ⟨j, List.mem_cons_self, hres⟩
        · exact Or.inr ⟨i, List.mem_cons_of_mem _ hi, hres⟩
      · rw [if_neg hj]
        obtain ⟨hle, hall, hres⟩ := ih acc
        refine ⟨hle, List.forall_mem_cons.mpr ⟨Nat.le_trans (Nat.not_lt.mp hj) hle, hall⟩, ?_⟩
        rcases hres with hres | ⟨i, hi, hres⟩
        · exact Or.inl hres
        · exact Or.inr ⟨i, List.mem_cons_of_mem _ hi, hres⟩

theorem highestHole_none {s : St} (h : s.holes = []) : highestHole s = (none, 0) := by
  have hsize : s.heap.index.size = 0 := by
    rw [← OrdArr.length_elems s.mem s.heap.index]
    exact List.length_eq_zero_iff.mpr h
  rw [highestHole, hsize]
  rfl

theorem highestHole_some {s : St} {a : Nat} (hmem : a ∈ s.holes) (hpos : 0 < a)
    (hmax : ∀ b ∈ s.holes, b ≤ a) : ∃ i, highestHole s = (some i, a) := by
  obtain ⟨-, hall, hres⟩ := highest_foldl (s.heap.index.elem s.mem)
    (List.range s.heap.index.size) (none, 0)
  obtain ⟨j, hj, rfl⟩ := OrdArr.mem_elems.mp hmem
  have hge := hall j (List.mem_range.mpr hj)
  rcases hres with hres | ⟨i, hi, hres⟩
  · rw [hres] at hge
    exact absurd hpos (Nat.not_lt.mpr hge)
  · have hle := hmax _ (OrdArr.elem_mem (List.mem_range.mp hi))
    rw [hres] at hge
    refine ⟨i, ?_⟩
    rw [highestHole, hres, Nat.le_antisymm hle hge]

end Highest

/-! ## The hole that is stretched -/

/-- The header and the new footer of a hole that gets `d` more bytes. -/
def stretch (m : Mem) (hdr d : Nat) : Mem :=
  putFooter (setSize (setMagic m hdr) hdr ((hdrSize m hdr + d) % 2 ^ 32))
    (hdr + (hdrSize m hdr + d) % 2 ^ 32 - 8) hdr

theorem hdrSize_setSize {m : Mem} {p v : Nat} (h : v < 2 ^ 32) : hdrSize (setSize m p v) p = v :=
  rd32_wr32_same _ h

theorem hdrSize_setMagic {m : Mem} {p : Nat} : hdrSize (setMagic m p) p = hdrSize m p :=
  rd32_wr32_of_disjoint (by omega)

theorem growHole_of_highest {s : St} {oldSz oldEnd i hdr : Nat}
    (h : highestHole s = (some i, hdr)) : growHole s oldSz oldEnd
      = ⟨stretch s.mem hdr (sub32 (sub32 s.heap.stop s.heap.start) oldSz), s.heap⟩ := by
  have hlt : ∀ x, (x % 2 ^ 32) < 2 ^ 32 := fun x => Nat.mod_lt x (by decide)
  rw [growHole, h]
  simp only [hdrSize_setMagic, hdrSize_setSize (hlt _)]
  rfl

theorem stretch_apply {m : Mem} {hdr d x : Nat}
    (hx : x < hdr ∨ hdr + 12 ≤ x)
    (hx' : x < hdr + (hdrSize m hdr + d) % 2 ^ 32 - 8 ∨ hdr + (hdrSize m hdr + d) % 2 ^ 32 ≤ x)
    (h20 : 20 ≤ (hdrSize m hdr + d) % 2 ^ 32) : stretch m hdr d x = m x := by
  rw [stretch, putFooter_apply (by omega), setSize, wr32_apply_of_ne (by omega), setMagic,
    wr32_apply_of_ne (by omega)]

theorem stretch_tagged {m : Mem} {a z d : Nat} (h : Tagged m ⟨a, z, true⟩) (h20 : 20 ≤ z)
    (hlt : z + d < 2 ^ 32) : Tagged (stretch m a d) ⟨a, z + d, true⟩ := by
  have hsize : hdrSize m a = z := h.size
  have hmod : (z + d) % 2 ^ 32 = z + d := Nat.mod_eq_of_lt hlt
  have ha : a < 2 ^ 32 := h.addr_lt
  unfold stretch
  rw [hsize, hmod]
  refine ⟨?_, ?_, ?_, ?_, ?_⟩
  · simp only [tagMagic, putFooter, setFtrHdr, setMagic, setSize]
    rw [rd32_wr32_of_disjoint (by omega), rd32_wr32_of_disjoint (by omega),
      rd32_wr32_of_disjoint (by omega), rd32_wr32_same _ magic_lt]
  · rw [← h.hole]
    simp only [hdrHole, putFooter, setFtrHdr, setMagic, setSize]
    rw [rd8_wr32_of_disjoint (by omega), rd8_wr32_of_disjoint (by omega),
      rd8_wr32_of_disjoint (by omega), rd8_wr32_of_disjoint (by omega)]
  · have hkeep : hdrSize (putFooter (setSize (setMagic m a) a (z + d)) (a + (z + d) - 8) a) a
        = hdrSize (setSize (setMagic m a) a (z + d)) a :=
      rd32_congr fun x h1 h2 => putFooter_apply (by omega)
    exact hkeep.trans (hdrSize_setSize hlt)
  · simp only [tagMagic, putFooter, setFtrHdr, setMagic]
    rw [rd32_wr32_of_disjoint (by omega), rd32_wr32_same _ magic_lt]
  · simp only [ftrHdr, putFooter, setFtrHdr]
    exact rd32_wr32_same _ ha

/-! ## The state after the expansion -/

section Outgrown

variable {P : Pages} {s : St} {segs : List Seg} {size : Nat}

/-- The heap with the new pages, before they belong to a segment. -/
def extended (P : Pages) (s : St) (newSz : Nat) : St :=
  ⟨P.map s.heap newSz s.mem, { s.heap with stop := s.heap.start + newSz }⟩

/-- The new size holds the old heap and the request, and does not wrap. -/
theorem grownSz_spec (hmax : s.heap.max < 2 ^ 32)
    (hbelow : s.heap.start + grownSz s size ≤ s.heap.max) :
    s.heap.stop - s.heap.start + (size + 20) ≤ grownSz s size
      ∧ s.heap.start + grownSz s size < 2 ^ 32 := by
  unfold grownSz at *
  omega

theorem expand_grown (hmax : s.heap.max < 2 ^ 32)
    (hbelow : s.heap.start + grownSz s size ≤ s.heap.max) (hle : s.heap.start ≤ s.heap.stop) :
    expand P s ((sub32 s.heap.stop s.heap.start + (size + 20)) % 2 ^ 32)
      = some (extended P s (grownSz s size)) := by
  obtain ⟨hmore, hlt⟩ := grownSz_spec hmax hbelow
  have hmod : (s.heap.start + grownSz s size) % 2 ^ 32 = s.heap.start + grownSz s size :=
    Nat.mod_eq_of_lt hlt
  have hpage : pageUp ((s.heap.stop - s.heap.start + (size + 20)) % 2 ^ 32) = grownSz s size := by
    unfold pageUp grownSz at *
    omega
  rw [sub32_of_le hle, expand, hpage, hmod, sub32_of_le hle, if_pos ⟨by omega, hbelow⟩, extended]

theorem Outgrown.extra (G : Outgrown s size) :
    s.heap.stop - s.heap.start + (size + 20) ≤ grownSz s size
      ∧ s.heap.start + grownSz s size < 2 ^ 32 := grownSz_spec G.max G.below

theorem Outgrown.realSize_eq (G : Outgrown s size) : realSize size = size + 20 := by
  have hextra := G.extra
  have hlt : size + 20 < 2 ^ 32 := by omega
  exact Nat.mod_eq_of_lt hlt

theorem Outgrown.expand_eq (G : Outgrown s size) (hle : s.heap.start ≤ s.heap.stop) :
    expand P s ((sub32 s.heap.stop s.heap.start + realSize size) % 2 ^ 32)
      = some (extended P s (grownSz s size)) := by
  rw [G.realSize_eq]
  exact expand_grown G.max G.below hle

/-- The request is made again once the room belongs to a hole. -/
theorem Outgrown.alloc_eq (G : Outgrown s size) (hle : s.heap.start ≤ s.heap.stop) (n : Nat) :
    alloc P (n + 1) s size 0 = alloc P n
      (growHole (extended P s (grownSz s size)) (s.heap.stop - s.heap.start) s.heap.stop) size 0 := by
  have hexpand := G.expand_eq (P := P) hle
  have hnone := G.noHole
  rw [G.realSize_eq, sub32_of_le hle] at hexpand
  rw [alloc, G.realSize_eq, hnone]
  simp only [sub32_of_le hle, hexpand, Option.bind_eq_bind, Option.bind_some]

theorem extended_mem {newSz x : Nat} (h1 : s.heap.index.array ≤ x) (h2 : x < s.heap.stop) :
    (extended P s newSz).mem x = s.mem x := P.keeps _ _ _ _ h1 h2

theorem extended_holes {newSz : Nat} (hroom : Room s 0) (hle : s.heap.start ≤ s.heap.stop) :
    (extended P s newSz).holes = s.holes := by
  unfold Room at hroom
  have hbound : s.heap.index.array + 4 * s.heap.index.size ≤ s.heap.stop := by omega
  exact OrdArr.elems_congr fun x h1 h2 => extended_mem h1 (Nat.lt_of_lt_of_le h2 hbound)

theorem extended_sub {newSz oldSz : Nat} (hle : oldSz ≤ newSz) :
    sub32 (sub32 (extended P s newSz).heap.stop (extended P s newSz).heap.start) oldSz
      = newSz - oldSz := by
  have hstop : (extended P s newSz).heap.stop = s.heap.start + newSz := rfl
  have hstart : (extended P s newSz).heap.start = s.heap.start := rfl
  rw [hstop, hstart, sub32_of_le (Nat.le_add_right _ _), Nat.add_sub_cancel_left,
    sub32_of_le hle]

/-- What the expansion has made of the heap: a well-formed one with a hole that
serves the request, in which the live blocks are as they were. -/
structure Extended (s : St) (segs : List Seg) (size : Nat) (s' : St) (segs' : List Seg) :
    Prop where
  wellFormed : WellFormed s' segs'
  room : Room s' 0
  stop : s'.heap.stop < 2 ^ 32
  fits : ∃ g ∈ segs', g.hole = true ∧ size + 20 ≤ g.size
  live : ∀ k ∈ segs, k.hole = false → k ∈ segs' ∧
    ∀ x, k.addr ≤ x → x < k.addr + k.size → s'.mem x = s.mem x

theorem holeFind_of_fits {s : St} {n a : Nat} (hmem : a ∈ s.holes) (hfit : n ≤ hdrSize s.mem a) :
    ∃ i, holeFind s n 0 = some i := by
  obtain ⟨i, hi, rfl⟩ := OrdArr.mem_elems.mp hmem
  refine Option.isSome_iff_exists.mp (List.find?_isSome.mpr ⟨i, List.mem_range.mpr hi, ?_⟩)
  rw [holeFits, if_pos rfl]
  exact decide_eq_true hfit

theorem Extended.find {s' : St} {segs' : List Seg} (X : Extended s segs size s' segs') :
    ∃ i, holeFind s' (size + 20) 0 = some i := by
  obtain ⟨g, hg, hhole, hfit⟩ := X.fits
  have hlisted : g.addr ∈ s'.holes :=
    X.wellFormed.listed.symm.subset (mem_holeAddrs.mpr ⟨g, hg, hhole, rfl⟩)
  refine holeFind_of_fits hlisted ?_
  rw [(X.wellFormed.tagged g hg).size]
  exact hfit

/-- The request that is made again is served from a hole. -/
theorem Extended.serve {s' : St} {segs' : List Seg} (X : Extended s segs size s' segs')
    (hreal : realSize size = size + 20) (n : Nat) :
    ∃ p s'', alloc P (n + 1) s' size 0 = some (p, s'') ∧ Served s segs size p s'' := by
  obtain ⟨i, hfind⟩ := X.find
  obtain ⟨l₁, g, l₂, s'', rfl, hhole, hfit, halloc, hC⟩ :=
    allocHole_spec X.wellFormed X.room X.stop (by omega) hfind
  refine ⟨g.addr + 12, s'', ?_, l₁ ++ (carve g (size + 20) ++ l₂), hC.wellFormed, ?_⟩
  · rw [alloc, hreal, hfind]
    exact halloc
  obtain ⟨b, hb, haddr, hsize⟩ := liveSegs_carve hfit
  have hbmem : b ∈ liveSegs (carve g (size + 20)) := by
    rw [hb]
    exact List.mem_cons_self
  obtain ⟨hbcarve, hblive⟩ := mem_liveSegs.mp hbmem
  have hball : b ∈ l₁ ++ (carve g (size + 20) ++ l₂) :=
    List.mem_append_right _ (List.mem_append_left _ hbcarve)
  have hgall : g ∈ l₁ ++ g :: l₂ := List.mem_append_right _ List.mem_cons_self
  refine ⟨b, hball, hblive, by rw [haddr], hsize, fun k hk hlive => ?_⟩
  obtain ⟨hk', hmem⟩ := X.live k hk hlive
  have hne : k ≠ g := by
    rintro rfl
    rw [hlive] at hhole
    cases hhole
  have hkall : k ∈ l₁ ++ (carve g (size + 20) ++ l₂) := by
    rcases List.mem_append.mp hk' with h | h
    · exact List.mem_append_left _ h
    · exact List.mem_append_right _ (List.mem_append_right _ ((List.mem_cons.mp h).resolve_left hne))
  have hkb : k ≠ b := fun h =>
    hne (X.wellFormed.tiles.eq_of_addr hk' hgall (by rw [h, haddr]))
  refine ⟨hkall, hC.wellFormed.tiles.disjoint hkall hball hkb, fun x h1 h2 => ?_⟩
  have hoff := X.wellFormed.tiles.disjoint hk' hgall hne
  have hlow := (X.wellFormed.tiles.bounds hk').1
  rw [hC.frame x (by omega) (by omega), hmem x h1 h2]

theorem extended_tagged {newSz : Nat} (hroom : Room s 0) {g : Seg} (htag : Tagged s.mem g)
    (h20 : 20 ≤ g.size) (hlow : s.heap.start ≤ g.addr) (hend : g.addr + g.size ≤ s.heap.stop) :
    Tagged (extended P s newSz).mem g := by
  unfold Room at hroom
  exact htag.congr h20 fun x h1 h2 => extended_mem (by omega) (by omega)

theorem holeAddrs_nil {segs : List Seg} (h : ∀ g ∈ segs, g.hole = false) : holeAddrs segs = [] := by
  rw [holeAddrs, List.filter_eq_nil_iff.mpr fun g hg => by rw [h g hg]; decide]
  rfl

/-- The hole with the highest address gets the new room; below it nothing
changes. -/
theorem growHole_eq {newSz : Nat} {l₁ l₂ : List Seg} {g : Seg} (W : WellFormed s (l₁ ++ g :: l₂))
    (hhole : g.hole = true) (hlive : ∀ k ∈ l₂, k.hole = false) (hroom : Room s 0)
    (hslot : s.heap.index.array + 4 ≤ s.heap.start)
    (hmore : s.heap.stop - s.heap.start + (size + 20) ≤ newSz)
    (hlt : s.heap.start + newSz < 2 ^ 32) :
    growHole (extended P s newSz) (s.heap.stop - s.heap.start) s.heap.stop
        = ⟨stretch (extended P s newSz).mem g.addr (newSz - (s.heap.stop - s.heap.start)),
          (extended P s newSz).heap⟩
      ∧ Tagged (extended P s newSz).mem g
      ∧ ∀ x < g.addr, stretch (extended P s newSz).mem g.addr
          (newSz - (s.heap.stop - s.heap.start)) x = (extended P s newSz).mem x := by
  obtain ⟨htiles, hgpos, hrest⟩ := tiles_split.mp W.tiles
  have hlow := htiles.le
  have hend := hrest.le
  have hgmem : g ∈ l₁ ++ g :: l₂ := List.mem_append_right _ List.mem_cons_self
  have hg20 := W.min g hgmem
  have htag := @extended_tagged P s newSz hroom _ (W.tagged g hgmem) hg20 hlow hend
  have hholes : (extended P s newSz).holes = s.holes := extended_holes hroom (by omega)
  obtain ⟨i, hhigh⟩ := @highestHole_some (extended P s newSz) g.addr
    (by
      rw [hholes]
      exact W.listed.symm.subset (mem_holeAddrs.mpr ⟨g, hgmem, hhole, rfl⟩))
    (by omega)
    (fun b hb => by
      rw [hholes] at hb
      obtain ⟨k, hk, hkhole, rfl⟩ := mem_holeAddrs.mp (W.listed.subset hb)
      rcases List.mem_append.mp hk with hk | hk
      · have := htiles.bounds hk
        omega
      · rcases List.mem_cons.mp hk with rfl | hk
        · exact Nat.le_refl _
        · rw [hlive k hk] at hkhole
          cases hkhole)
  rw [growHole_of_highest hhigh, extended_sub (by omega)]
  refine ⟨rfl, htag, fun x hx => ?_⟩
  generalize hd : newSz - (s.heap.stop - s.heap.start) = d
  have hmod : (hdrSize (extended P s newSz).mem g.addr + d) % 2 ^ 32 = g.size + d := by
    rw [htag.size]
    have hfit : g.size + d < 2 ^ 32 := by omega
    exact Nat.mod_eq_of_lt hfit
  refine stretch_apply (Or.inl hx) (Or.inl ?_) ?_
  · rw [hmod]
    omega
  · rw [hmod]
    omega

/-- The last segment is a hole: it gets the new room. -/
theorem Extended.of_last {newSz : Nat} {l : List Seg} {g : Seg} (W : WellFormed s (l ++ [g]))
    (hhole : g.hole = true) (hroom : Room s 0) (hslot : s.heap.index.array + 4 ≤ s.heap.start)
    (hmore : s.heap.stop - s.heap.start + (size + 20) ≤ newSz)
    (hlt : s.heap.start + newSz < 2 ^ 32) :
    Extended s (l ++ [g]) size
      (growHole (extended P s newSz) (s.heap.stop - s.heap.start) s.heap.stop)
      (l ++ [⟨g.addr, g.size + (newSz - (s.heap.stop - s.heap.start)), true⟩]) := by
  have hroom' := hroom
  unfold Room at hroom'
  obtain ⟨htiles, hgpos, hgend⟩ := tiles_split.mp W.tiles
  have hgend' : g.addr + g.size = s.heap.stop := hgend
  have hlow := htiles.le
  have hg20 := W.min g (List.mem_append_right _ List.mem_cons_self)
  have hholes : (extended P s newSz).holes = s.holes := extended_holes hroom (by omega)
  obtain ⟨hgrow, hgtag, hkeep⟩ := growHole_eq (P := P) W hhole
    (fun k hk => absurd hk List.not_mem_nil) hroom hslot hmore hlt
  rw [hgrow]
  generalize hd : newSz - (s.heap.stop - s.heap.start) = d at *
  have hrest : ∀ k ∈ l, s.heap.start ≤ k.addr ∧ k.addr + k.size ≤ g.addr := fun k hk =>
    htiles.bounds hk
  refine ⟨⟨⟨?_, ?_, ?_⟩, ?_, ?_⟩, hroom, hlt, ?_, ?_⟩
  · refine tiles_split.mpr ⟨htiles, by show 0 < g.size + d; omega, ?_⟩
    show g.addr + (g.size + d) = s.heap.start + newSz
    omega
  · intro k hk
    rcases List.mem_append.mp hk with hk | hk
    · exact W.min k (List.mem_append_left _ hk)
    · rw [List.mem_singleton.mp hk]
      show 20 ≤ g.size + d
      omega
  · intro k hk
    rcases List.mem_append.mp hk with hk | hk
    · have hk' : k ∈ l ++ [g] := List.mem_append_left _ hk
      have hb := hrest k hk
      refine (@extended_tagged P s newSz hroom _ (W.tagged k hk') (W.min k hk') hb.1
        (by omega)).congr (W.min k hk') fun x h1 h2 => hkeep x (by omega)
    · rw [List.mem_singleton.mp hk]
      have hgtag' : Tagged (extended P s newSz).mem ⟨g.addr, g.size, true⟩ := by
        rw [← hhole]
        exact hgtag
      exact stretch_tagged hgtag' hg20 (by omega)
  · have hchain := W.apart
    rw [List.isChain_append] at hchain ⊢
    obtain ⟨hl, -, hjoin⟩ := hchain
    refine ⟨hl, List.isChain_singleton _, fun x hx y hy => ?_⟩
    cases hy
    rintro ⟨hx', -⟩
    exact hjoin x hx g rfl ⟨hx', hhole⟩
  · have hsame : St.holes ⟨stretch (extended P s newSz).mem g.addr d, (extended P s newSz).heap⟩
        = (extended P s newSz).holes :=
      holes_of_low rfl hroom fun x hx => hkeep x (Nat.lt_of_lt_of_le hx hlow)
    have hlist := W.listed
    rw [hsame, hholes]
    rw [holeAddrs_append, holeAddrs_cons, if_pos hhole] at hlist
    rw [holeAddrs_append]
    exact hlist
  · exact ⟨_, List.mem_append_right _ List.mem_cons_self, rfl, by show size + 20 ≤ g.size + d; omega⟩
  · intro k hk hlive
    rcases List.mem_append.mp hk with hk | hk
    · have hb := hrest k hk
      refine ⟨List.mem_append_left _ hk, fun x h1 h2 => ?_⟩
      exact (hkeep x (by omega)).trans (extended_mem (by omega) (by omega))
    · rw [List.mem_singleton.mp hk, hhole] at hlive
      cases hlive

/-- There is no hole: the new room becomes one. -/
theorem Extended.of_none {newSz : Nat} (W : WellFormed s segs) (hnone : ∀ g ∈ segs, g.hole = false)
    (hroom : Room s 0) (hslot : s.heap.index.array + 4 ≤ s.heap.start)
    (hmore : s.heap.stop - s.heap.start + (size + 20) ≤ newSz)
    (hlt : s.heap.start + newSz < 2 ^ 32) :
    Extended s segs size
      (growHole (extended P s newSz) (s.heap.stop - s.heap.start) s.heap.stop)
      (segs ++ [⟨s.heap.stop, newSz - (s.heap.stop - s.heap.start), true⟩]) := by
  have hle := W.tiles.le
  have hempty : s.holes = [] := by
    have hlist := W.listed
    rw [holeAddrs_nil hnone] at hlist
    exact hlist.eq_nil
  have hholes : (extended P s newSz).holes = [] := by rw [extended_holes hroom hle, hempty]
  have hindex : s.heap.index.size = 0 := by
    rw [← OrdArr.length_elems s.mem s.heap.index]
    exact List.length_eq_zero_iff.mpr hempty
  rw [growHole, highestHole_none hholes]
  simp only [extended_sub (s := s) (P := P) (show s.heap.stop - s.heap.start ≤ newSz by omega)]
  generalize hd : newSz - (s.heap.stop - s.heap.start) = d
  rw [hdrSize_putHeader (by omega), footerSz]
  obtain ⟨m, hm⟩ : ∃ m, m = putFooter (putHeader (extended P s newSz).mem s.heap.stop d 1 0)
    (s.heap.stop + d - 8) s.heap.stop := ⟨_, rfl⟩
  rw [← hm]
  have hkeep : ∀ x, x < s.heap.stop → m x = (extended P s newSz).mem x := fun x hx => by
    rw [hm, putFooter_apply (by omega), putHeader_apply (by omega)]
  have hroom₁ : Room ⟨m, (extended P s newSz).heap⟩ 1 := by
    show s.heap.index.array + 4 * (s.heap.index.size + 1) ≤ s.heap.start
    rw [hindex]
    exact hslot
  have hins : ∀ x, s.heap.start ≤ x →
      (St.insert ⟨m, (extended P s newSz).heap⟩ s.heap.stop).mem x = m x := fun x hx =>
    insert_mem hroom₁ hx
  have hsame := insert_same ⟨m, (extended P s newSz).heap⟩ s.heap.stop
  have hstart : (St.insert ⟨m, (extended P s newSz).heap⟩ s.heap.stop).heap.start = s.heap.start :=
    hsame.start
  have hstop : (St.insert ⟨m, (extended P s newSz).heap⟩ s.heap.stop).heap.stop
      = s.heap.start + newSz := hsame.stop
  refine ⟨⟨⟨?_, ?_, ?_⟩, ?_, ?_⟩, ?_, ?_, ?_, ?_⟩
  · rw [hstart, hstop]
    refine tiles_append.mpr ⟨s.heap.stop, W.tiles, rfl, by show 0 < d; omega, ?_⟩
    show s.heap.stop + d = s.heap.start + newSz
    omega
  · intro k hk
    rcases List.mem_append.mp hk with hk | hk
    · exact W.min k hk
    · rw [List.mem_singleton.mp hk]
      show 20 ≤ d
      omega
  · intro k hk
    rcases List.mem_append.mp hk with hk | hk
    · have hb := W.tiles.bounds hk
      refine (@extended_tagged P s newSz hroom _ (W.tagged k hk) (W.min k hk) hb.1
        hb.2).congr (W.min k hk) fun x h1 h2 => ?_
      rw [hins x (by omega), hkeep x (by omega)]
    · rw [List.mem_singleton.mp hk]
      have hput := @tagged_put (extended P s newSz).mem s.heap.stop d 0 true (by omega) (by omega)
        (by omega)
      rw [Bool.toNat_true, ← hm] at hput
      exact hput.congr (by show 20 ≤ d; omega) fun x h1 _ => hins x (Nat.le_trans hle h1)
  · rw [List.isChain_append]
    refine ⟨W.apart, List.isChain_singleton _, fun x hx y _ => ?_⟩
    exact Apart.of_not_left (hnone x (List.mem_of_getLast? hx))
  · have hlow : St.holes ⟨m, (extended P s newSz).heap⟩ = (extended P s newSz).holes :=
      holes_of_low rfl hroom fun x hx => hkeep x (Nat.lt_of_lt_of_le hx hle)
    refine (insert_holes (by omega)).trans ?_
    rw [hlow, hholes, holeAddrs_append, holeAddrs_nil hnone]
    exact List.Perm.refl _
  · unfold Room
    rw [hsame.array, hstart, insert_index_size]
    show s.heap.index.array + 4 * (s.heap.index.size + 1 + 0) ≤ s.heap.start
    rw [hindex]
    exact hslot
  · rw [hstop]
    exact hlt
  · exact ⟨_, List.mem_append_right _ List.mem_cons_self, rfl, by show size + 20 ≤ d; omega⟩
  · intro k hk _
    have hb := W.tiles.bounds hk
    refine ⟨List.mem_append_left _ hk, fun x h1 h2 => ?_⟩
    unfold Room at hroom
    rw [hins x (by omega), hkeep x (by omega)]
    exact extended_mem (by omega) (by omega)

/-! ## Which heaps can be expanded -/

/-- The hole that ends last. -/
theorem last_hole : ∀ segs : List Seg, (∀ g ∈ segs, g.hole = false)
    ∨ ∃ l₁ g l₂, segs = l₁ ++ g :: l₂ ∧ g.hole = true ∧ ∀ k ∈ l₂, k.hole = false := by
  intro segs
  induction segs with
  | nil => exact Or.inl fun g hg => absurd hg List.not_mem_nil
  | cons a segs ih =>
      rcases ih with hnone | ⟨l₁, g, l₂, rfl, hhole, hlive⟩
      · cases ha : a.hole with
        | false => exact Or.inl (List.forall_mem_cons.mpr ⟨ha, hnone⟩)
        | true => exact Or.inr ⟨[], a, segs, rfl, ha, hnone⟩
      · exact Or.inr ⟨a :: l₁, g, l₂, rfl, hhole, hlive⟩

/-- A hole that the request did not fit is too small for it. -/
theorem size_lt_of_none {n : Nat} (W : WellFormed s segs) (hnone : holeFind s n 0 = none) {k : Seg}
    (hk : k ∈ segs) (hhole : k.hole = true) : k.size < n := by
  by_contra hge
  have hlisted : k.addr ∈ s.holes :=
    W.listed.symm.subset (mem_holeAddrs.mpr ⟨k, hk, hhole, rfl⟩)
  obtain ⟨i, hi⟩ := holeFind_of_fits (n := n) hlisted (by
    rw [(W.tagged k hk).size]
    exact Nat.not_lt.mp hge)
  rw [hnone] at hi
  cases hi

/-- After the expansion the block is cut from the start of the highest hole: no
other is large enough. -/
theorem allocHole_highest {newSz : Nat} {l₁ l₂ : List Seg} {g : Seg}
    (W : WellFormed s (l₁ ++ g :: l₂)) (hhole : g.hole = true) (hlive : ∀ k ∈ l₂, k.hole = false)
    (hroom : Room s 0) (hslot : s.heap.index.array + 4 ≤ s.heap.start)
    (hnone : holeFind s (size + 20) 0 = none)
    (hmore : s.heap.stop - s.heap.start + (size + 20) ≤ newSz)
    (hlt : s.heap.start + newSz < 2 ^ 32) :
    let s₁ := growHole (extended P s newSz) (s.heap.stop - s.heap.start) s.heap.stop
    ∃ i s', holeFind s₁ (size + 20) 0 = some i
      ∧ allocHole s₁ i (size + 20) 0 = some (g.addr + 12, s') := by
  have hle := W.tiles.le
  obtain ⟨htiles, hgpos, hrest⟩ := tiles_split.mp W.tiles
  have hlow := htiles.le
  have hend := hrest.le
  have hgmem : g ∈ l₁ ++ g :: l₂ := List.mem_append_right _ List.mem_cons_self
  have hg20 := W.min g hgmem
  obtain ⟨hgrow, hgtag, hkeep⟩ := growHole_eq (P := P) W hhole hlive hroom hslot hmore hlt
  rw [hgrow]
  have hholes : (extended P s newSz).holes = s.holes := extended_holes hroom hle
  generalize hd : newSz - (s.heap.stop - s.heap.start) = d at *
  obtain ⟨s₁, hs₁⟩ : ∃ s₁ : St, s₁ = ⟨stretch (extended P s newSz).mem g.addr d,
    (extended P s newSz).heap⟩ := ⟨_, rfl⟩
  have hmem : s₁.mem = stretch (extended P s newSz).mem g.addr d := by rw [hs₁]
  have hholes₁ : s₁.holes = s.holes := by
    rw [← hholes, hs₁]
    exact holes_of_low rfl hroom fun x hx => hkeep x (Nat.lt_of_lt_of_le hx hlow)
  have hgtag' : Tagged s₁.mem ⟨g.addr, g.size + d, true⟩ := by
    have hgtag₀ : Tagged (extended P s newSz).mem ⟨g.addr, g.size, true⟩ := by
      rw [← hhole]
      exact hgtag
    rw [hmem]
    exact stretch_tagged hgtag₀ hg20 (by omega)
  have hgsize : hdrSize s₁.mem g.addr = g.size + d := hgtag'.size
  have hlisted : g.addr ∈ s₁.holes := by
    rw [hholes₁]
    exact W.listed.symm.subset (mem_holeAddrs.mpr ⟨g, hgmem, hhole, rfl⟩)
  obtain ⟨i, hfind⟩ := holeFind_of_fits (n := size + 20) hlisted (by
    rw [hgsize]
    omega)
  obtain ⟨hi, hfit⟩ := holeFind_spec hfind
  have helem : s₁.heap.index.elem s₁.mem i = g.addr := by
    have hin : s₁.heap.index.elem s₁.mem i ∈ s.holes := by
      rw [← hholes₁]
      exact OrdArr.elem_mem hi
    obtain ⟨k, hk, hkhole, hkaddr⟩ := mem_holeAddrs.mp (W.listed.subset hin)
    rw [← hkaddr] at hfit ⊢
    rcases List.mem_append.mp hk with hk' | hk'
    · -- a lower hole has its old size, which is too small
      have hb := htiles.bounds hk'
      have hktag : Tagged s₁.mem k := by
        rw [hmem]
        refine (@extended_tagged P s newSz hroom _ (W.tagged k hk) (W.min k hk) hb.1
          (by omega)).congr (W.min k hk) fun x h1 h2 => hkeep x (by omega)
      rw [hktag.size] at hfit
      exact absurd hfit (Nat.not_le.mpr (size_lt_of_none W hnone hk hkhole))
    · rcases List.mem_cons.mp hk' with rfl | hk'
      · rfl
      · rw [hlive k hk'] at hkhole
        cases hkhole
  obtain ⟨s₂, hrem, hsame, -⟩ := remove_spec hi
  have hget : s₁.get i = some g.addr := by
    rw [← helem]
    exact if_pos hi
  have hstop : s₂.heap.stop = s.heap.start + newSz := by
    rw [hsame.stop, hs₁]
    rfl
  rw [← hs₁]
  exact ⟨i, _, hfind, allocHole_eq hget hrem hgsize (by omega) (by omega) (by rw [hstop]; omega)⟩

/-- A block that is cut from the highest hole ends behind it: the hole is the last
segment, or the block overlaps the next one. -/
theorem Outgrown.endsInHole (W : WellFormed s segs) (G : Outgrown s size) {n p : Nat} {s' : St}
    (halloc : alloc P (n + 2) s size 0 = some (p, s')) (hserved : Served s segs size p s') :
    EndsInHole segs := by
  obtain ⟨hmore, hlt⟩ := G.extra
  rcases last_hole segs with hnone | ⟨l₁, g, l₂, rfl, hhole, hlive⟩
  · exact Or.inl hnone
  have hsmall := size_lt_of_none W G.noHole (List.mem_append_right l₁ List.mem_cons_self) hhole
  obtain ⟨i, s'', hfind, hcut⟩ :=
    allocHole_highest (P := P) W hhole hlive G.room G.slot G.noHole hmore hlt
  rw [G.alloc_eq W.tiles.le (n + 1), alloc, G.realSize_eq, hfind] at halloc
  obtain ⟨rfl, -⟩ := Prod.mk.inj (Option.some.inj (hcut.symm.trans halloc))
  cases l₂ with
  | nil => exact Or.inr ⟨l₁, g, rfl, hhole⟩
  | cons k l₃ =>
      obtain ⟨segs', -, b, -, -, haddr, hsize, hall⟩ := hserved
      obtain ⟨-, hoff, -⟩ := hall k (by simp) (hlive k List.mem_cons_self)
      obtain ⟨-, -, hnext, hpos, -⟩ := tiles_split.mp W.tiles
      omega

/-- **A heap is expanded soundly** exactly if its last segment is a hole or it
has no hole at all. -/
theorem expansion_iff (W : WellFormed s segs) (G : Outgrown s size) (n : Nat) :
    (∃ p s', alloc P (n + 2) s size 0 = some (p, s') ∧ Served s segs size p s')
      ↔ EndsInHole segs := by
  obtain ⟨hmore, hlt⟩ := G.extra
  refine ⟨fun ⟨p, s', halloc, hserved⟩ => G.endsInHole W halloc hserved, fun hends => ?_⟩
  rw [G.alloc_eq W.tiles.le (n + 1)]
  rcases hends with hnone | ⟨l, g, rfl, hhole⟩
  · exact (Extended.of_none W hnone G.room G.slot hmore hlt).serve G.realSize_eq n
  · exact (Extended.of_last W hhole G.room G.slot hmore hlt).serve G.realSize_eq n

end Outgrown

/-- Pages that hold what was there before. -/
def samePages : Pages := ⟨fun _ _ m => m, fun _ _ _ _ _ _ => rfl⟩

/-- A heap of one page that may grow to four. -/
def pageHeap : St := (create (fun _ => 0) 0x1000 0x3000 0x6000 1 false).get rfl

theorem intact_pageHeap : Intact ⟨pageHeap, []⟩ [⟨0x2000, 0x1000, true⟩] :=
  @create_spec (fun _ => 0) 0x1000 0x3000 0x6000 1 false pageHeap rfl (by decide) (by decide)
    (by decide) (by decide)

theorem expansion_iff_pageHeap : ∃ p s', alloc samePages 2 pageHeap 5000 0 = some (p, s')
    ∧ Served pageHeap [⟨0x2000, 0x1000, true⟩] 5000 p s' :=
  (expansion_iff intact_pageHeap.wellFormed
    { room := intact_pageHeap.room
      slot := by decide
      max := by decide
      below := by decide
      noHole := by decide +kernel } 0).mpr (Or.inr ⟨[], _, rfl, rfl⟩)

/-- The first block is freed, the second one goes up to the end of the heap. -/
def fullOps : List Op := [.alloc 8, .alloc 4048, .free 0x200c]

def fullHeap : Run := (Run.run ⟨pageHeap, []⟩ fullOps).get (by decide +kernel)

/-- The small hole in front of the live block is stretched over it. -/
theorem expansion_overlaps : ∃ segs, WellFormed fullHeap.st segs ∧ Outgrown fullHeap.st 100
    ∧ (alloc samePages 2 fullHeap.st 100 0).map Prod.fst = some 0x200c
    ∧ (0x2028, 4048) ∈ fullHeap.live
    ∧ ∀ p s', alloc samePages 2 fullHeap.st 100 0 = some (p, s') →
        ¬Served fullHeap.st segs 100 p s' := by
  have hallowed : Allowed ⟨pageHeap, []⟩ fullOps := by decide +kernel
  obtain ⟨r, segs, hrun, I⟩ := intact_pageHeap.run hallowed
  obtain rfl : fullHeap = r := by
    rw [fullHeap, Option.get_of_eq_some _ hrun]
  have halloc : (alloc samePages 2 fullHeap.st 100 0).map Prod.fst = some 0x200c := by
    decide +kernel
  have hlive : (0x2028, 4048) ∈ fullHeap.live := by decide +kernel
  refine ⟨segs, I.wellFormed, ?_, halloc, hlive, fun p s' hp hserved => ?_⟩
  · exact
      { room := I.room
        slot := by decide +kernel
        max := by decide +kernel
        below := by decide +kernel
        noHole := by decide +kernel }
  · rw [hp] at halloc
    obtain rfl : p = 0x200c := Option.some.inj halloc
    obtain ⟨segs', -, b, -, -, haddr, hsize, hall⟩ := hserved
    obtain ⟨k, hk, hkaddr, hksize⟩ := I.seg _ hlive
    obtain ⟨hkmem, hklive⟩ := mem_liveSegs.mp hk
    obtain ⟨-, hoff, -⟩ := hall k hkmem hklive
    simp only at hkaddr hksize
    omega

end Heap

end Shitos
