import Shitos.HeapExtend

/-!
# Requests of any size

The size of a request is a word that the caller chooses. `vmem_heap_alloc` and
`vmem_heap_realloc` add the room for the tags to it, and from `2^32 - 20` on that sum
wraps: the block is then too small for its own tags. The end of the heap is a word as
well, and an expansion may wrap it. `request_sound` puts these conditions together with
those of the branches that a request takes.
-/

namespace Shitos

namespace Heap

/-! ## What a request leaves alone -/

/-- Only the heap and the slots of its index have been written. -/
structure Kept (s t : St) : Prop where
  same : SameHeap s t
  mem : ∀ x, Beside s x → t.mem x = s.mem x

/-- Only the heap, the slots of its index and new pages behind the heap have been
written. -/
def Contained (P : Pages) (s t : St) : Prop :=
  Kept s t ∨ ∃ u Z, Kept s u ∧ u.heap.stop ≤ u.heap.start + Z ∧ Kept (extended P u Z) t

section Kept

variable {P : Pages} {s t u : St}

theorem Kept.refl (s : St) : Kept s s := ⟨SameHeap.refl s, fun _ _ => rfl⟩

theorem Kept.trans (h : Kept s t) (h' : Kept t u) : Kept s u where
  same := h.same.trans h'.same
  mem x hx := (h'.mem x (h.same.beside.mpr hx)).trans (h.mem x hx)

theorem Kept.contained (h : Kept s t) (h' : Contained P t u) : Contained P s u := by
  rcases h' with h' | ⟨v, Z, hv, hstop, hu⟩
  · exact Or.inl (h.trans h')
  · exact Or.inr ⟨v, Z, h.trans hv, hstop, hu⟩

theorem Contained.kept (h : Contained P s t) (h' : Kept t u) : Contained P s u := by
  rcases h with h | ⟨v, Z, hv, hstop, ht⟩
  · exact Or.inl (h.trans h')
  · exact Or.inr ⟨v, Z, hv, hstop, ht.trans h'⟩

theorem Contained.index (h : Contained P s t) : SameIndex s t := by
  rcases h with h | ⟨v, Z, hv, -, ht⟩
  · exact h.same.index
  · exact hv.same.index.trans ⟨ht.same.start, ht.same.array, ht.same.maxSize⟩

end Kept

/-! ## An end that has wrapped -/

section Wrapped

variable {P : Pages} {s t : St} {size align q : Nat}

/-- The end stays in front of the start: an expansion to a larger size, as words, moves
it by less than it has wrapped. -/
theorem expand_wrapped {n : Nat} (hwrap : s.heap.stop < s.heap.start)
    (hstart : s.heap.start < 2 ^ 32) (h : expand P s n = some t) :
    t.heap.start = s.heap.start ∧ t.heap.stop < t.heap.start := by
  unfold expand at h
  dsimp only at h
  split at h
  · rename_i hpass
    obtain rfl := Option.some.inj h
    have hlt : pageUp n < 2 ^ 32 := by
      unfold pageUp
      omega
    have hmore := hpass.1
    have hsub : sub32 s.heap.stop s.heap.start = 2 ^ 32 - (s.heap.start - s.heap.stop) := by
      rw [sub32, if_neg (by omega)]
    rw [hsub] at hmore
    dsimp only
    omega
  · exact nomatch h

theorem alloc_wrapped : ∀ (n : Nat) {s : St}, s.heap.stop < s.heap.start →
    s.heap.start < 2 ^ 32 → alloc P n s size align = some (q, t) → t.heap.stop < t.heap.start := by
  intro n
  induction n with
  | zero => exact fun _ _ h => nomatch h
  | succ n ih =>
      intro s hwrap hstart h
      rw [alloc] at h
      split at h
      · have hsame := allocHole_same h
        rw [hsame.stop, hsame.start]
        exact hwrap
      · obtain ⟨u, hexpand, hrest⟩ := Option.bind_eq_some_iff.mp h
        obtain ⟨hustart, hu⟩ := expand_wrapped hwrap hstart hexpand
        have hsame := growHole_same u (sub32 s.heap.stop s.heap.start) s.heap.stop
        exact ih (by rw [hsame.stop, hsame.start]; exact hu)
          (by rw [hsame.start, hustart]; exact hstart) hrest

end Wrapped

/-! ## An expansion -/

section Expand

variable {P : Pages} {s t : St} {segs l₁ l₃ : List Seg} {g r : Seg} {size q Z : Nat}

theorem extended_placed (hP : Placed s) (hlt : s.heap.start + Z < 2 ^ 32) :
    Placed (extended P s Z) := ⟨hP.aligned, hP.size, hP.below, hlt⟩

/-- The hole that gets the new room is written, and nothing beside the heap. -/
theorem kept_of_last {l : List Seg} (W : WellFormed s (l ++ [g])) (hP : Placed s)
    (hhole : g.hole = true) (hslot : s.heap.index.array + 4 ≤ s.heap.start)
    (hmore : s.heap.stop - s.heap.start + (size + 20) ≤ Z) (hlt : s.heap.start + Z < 2 ^ 32) :
    Kept (extended P s Z) (growHole (extended P s Z) (s.heap.stop - s.heap.start) s.heap.stop)
      ∧ Placed (growHole (extended P s Z) (s.heap.stop - s.heap.start) s.heap.stop) := by
  obtain ⟨htiles, -, hend⟩ := tiles_split.mp W.tiles
  have hend : g.addr + g.size = s.heap.stop := hend
  have hlow := htiles.le
  have g20 := W.min g (List.mem_append_right _ List.mem_cons_self)
  obtain ⟨hgrow, htag, -⟩ := growHole_eq (P := P) W hhole (fun _ hk => absurd hk List.not_mem_nil)
    hP.room hslot hmore hlt
  have hplaced : Placed (extended P s Z) := extended_placed hP hlt
  have hbelow := hP.below
  rw [hgrow]
  generalize hd : Z - (s.heap.stop - s.heap.start) = d
  have hmod : (hdrSize (extended P s Z).mem g.addr + d) % 2 ^ 32 = g.size + d := by
    rw [htag.size]
    exact Nat.mod_eq_of_lt (by omega)
  have hsame : SameHeap (extended P s Z) ⟨stretch (extended P s Z).mem g.addr d,
    (extended P s Z).heap⟩ := SameHeap.of_mem _ _
  refine ⟨⟨hsame, fun x hx => ?_⟩, hplaced.of_same hsame hplaced.size⟩
  unfold Beside extended at hx
  dsimp only at hx
  refine stretch_apply ?_ ?_ ?_
  · omega
  · rw [hmod]
    omega
  · rw [hmod]
    omega

/-- The new room becomes the only hole. -/
theorem kept_of_none (W : WellFormed s segs) (hP : Placed s) (hnone : ∀ g ∈ segs, g.hole = false)
    (hindex : 0 < s.heap.index.maxSize)
    (hmore : s.heap.stop - s.heap.start + (size + 20) ≤ Z) (hlt : s.heap.start + Z < 2 ^ 32) :
    Kept (extended P s Z) (growHole (extended P s Z) (s.heap.stop - s.heap.start) s.heap.stop)
      ∧ Placed (growHole (extended P s Z) (s.heap.stop - s.heap.start) s.heap.stop) := by
  have hle := W.tiles.le
  have hempty : s.holes = [] := by
    have hlist := W.listed
    rw [holeAddrs_nil hnone] at hlist
    exact hlist.eq_nil
  have hholes : (extended P s Z).holes = [] := by rw [extended_holes hP.room hle, hempty]
  have hsize : s.heap.index.size = 0 := by
    rw [W.length_holes, holeAddrs_nil hnone]
    rfl
  have hplaced : Placed (extended P s Z) := extended_placed hP hlt
  have hbelow := hP.below
  rw [growHole, highestHole_none hholes]
  simp only [extended_sub (s := s) (P := P) (show s.heap.stop - s.heap.start ≤ Z by omega)]
  generalize hd : Z - (s.heap.stop - s.heap.start) = d
  rw [hdrSize_putHeader (by omega), footerSz]
  generalize hm : putFooter (putHeader (extended P s Z).mem s.heap.stop d 1 0)
    (s.heap.stop + d - 8) s.heap.stop = m
  have hmem : SameHeap (extended P s Z) ⟨m, (extended P s Z).heap⟩ := SameHeap.of_mem _ m
  have hsame := hmem.trans (insert_same ⟨m, (extended P s Z).heap⟩ s.heap.stop)
  have hslot : (extended P s Z).heap.index.size < (extended P s Z).heap.index.maxSize := by
    unfold extended
    dsimp only
    omega
  refine ⟨⟨hsame, fun x hx => ?_⟩, hplaced.of_same hsame ?_⟩
  · have hx' : Beside ⟨m, (extended P s Z).heap⟩ x := hx
    rw [hx'.insert hslot]
    unfold Beside extended at hx
    dsimp only at hx ⊢
    rw [← hm, putFooter_apply (by omega), putHeader_apply (by omega)]
  · rw [insert_index_size, (insert_same _ _).maxSize]
    exact hslot

/-- The heap once it has been extended for the request. -/
def grown (P : Pages) (s : St) (size : Nat) : St :=
  growHole (extended P s (grownSz s size)) (s.heap.stop - s.heap.start) s.heap.stop

theorem Outgrown.grown_kept (W : WellFormed s segs) (G : Outgrown s size) (hP : Placed s)
    (hindex : 0 < s.heap.index.maxSize) (hends : EndsInHole segs) :
    Contained P s (grown P s size) ∧ Placed (grown P s size) := by
  obtain ⟨hmore, hlt⟩ := G.extra
  have hkept : Kept (extended P s (grownSz s size)) (grown P s size)
      ∧ Placed (grown P s size) := by
    rcases hends with hnone | ⟨l, z, rfl, hhole⟩
    · exact kept_of_none W hP hnone hindex hmore hlt
    · exact kept_of_last W hP hhole G.slot hmore hlt
  exact ⟨Or.inr ⟨s, _, Kept.refl s, by omega, hkept.1⟩, hkept.2⟩

/-- The last hole has grown, or there is one more. -/
theorem Outgrown.grown_extended (W : WellFormed s segs) (G : Outgrown s size)
    (hends : EndsInHole segs) : ∃ l z, z.hole = true
      ∧ (segs = l ∨ ∃ y, segs = l ++ [y] ∧ y.hole = true)
      ∧ Extended s segs size (grown P s size) (l ++ [z]) := by
  obtain ⟨hmore, hlt⟩ := G.extra
  rcases hends with hnone | ⟨l, y, rfl, hhole⟩
  · exact ⟨segs, _, rfl, Or.inl rfl, Extended.of_none W hnone G.room G.slot hmore hlt⟩
  · exact ⟨l, _, rfl, Or.inr ⟨y, rfl, hhole⟩, Extended.of_last W hhole G.room G.slot hmore hlt⟩

/-- Two blocks that are neighbours stay so. -/
theorem Outgrown.grown_around (W : WellFormed s (l₁ ++ g :: r :: l₃)) (G : Outgrown s size)
    (hr : r.hole = false) (hends : EndsInHole (l₁ ++ g :: r :: l₃)) :
    ∃ l₃', Extended s (l₁ ++ g :: r :: l₃) size (grown P s size) (l₁ ++ g :: r :: l₃')
      ∧ liveSegs l₃' = liveSegs l₃ := by
  obtain ⟨l, z, hz, hl, X⟩ := G.grown_extended (P := P) W hends
  have hlast : ∀ l₄ : List Seg, liveSegs (l₄ ++ [z]) = liveSegs l₄ := fun l₄ => by
    rw [liveSegs_append, liveSegs_cons, if_pos hz]
    exact List.append_nil _
  rcases hl with rfl | ⟨y, hy, hhole⟩
  · rw [List.append_assoc, List.cons_append, List.cons_append] at X
    exact ⟨l₃ ++ [z], X, hlast l₃⟩
  · rcases List.eq_nil_or_concat' l₃ with rfl | ⟨l₄, x, rfl⟩
    · -- the last segment is the block `r`
      rw [List.append_cons] at hy
      obtain ⟨-, hry⟩ := List.append_inj' hy rfl
      rw [← (List.cons.inj hry).1, hr] at hhole
      exact nomatch hhole
    · have hassoc : l₁ ++ g :: r :: (l₄ ++ [x]) = (l₁ ++ g :: r :: l₄) ++ [x] := by
        rw [List.append_assoc, List.cons_append, List.cons_append]
      rw [hassoc] at hy
      obtain ⟨rfl, hxy⟩ := List.append_inj' hy rfl
      obtain rfl := (List.cons.inj hxy).1
      rw [List.append_assoc, List.cons_append, List.cons_append] at X
      refine ⟨l₄ ++ [z], X, ?_⟩
      rw [hlast, liveSegs_append, liveSegs_cons, if_pos hhole]
      exact (List.append_nil _).symm

end Expand

/-! ## An allocation -/

/-- The block is a segment of its own with room for `size` bytes, in a heap that is well
formed; the blocks are as they were, and nothing beside the heap is written. -/
def AllocSound (P : Pages) (s : St) (segs : List Seg) (size q : Nat) (t : St) : Prop :=
  Served s segs size q t ∧ Contained P s t

/-- The size with the two tags is a word; and if no hole serves it, the heap grows without
a wrap of its end, and into a hole at its end or the first one. -/
structure AllocFits (s : St) (segs : List Seg) (size : Nat) : Prop where
  word : size + 20 < 2 ^ 32
  grow : holeFind s (size + 20) 0 = none →
    s.heap.start + grownSz s size < 2 ^ 32 ∧ EndsInHole segs

section Alloc

variable {P : Pages} {s t : St} {segs l₁ l₃ : List Seg} {g r : Seg} {size q n : Nat}

theorem realSize_of_lt (hword : size + 20 < 2 ^ 32) : realSize size = size + 20 := by
  unfold realSize headerSz footerSz
  rw [Nat.mod_eq_of_lt (by omega)]

/-- An expansion for a request, with an end that is an address or one that has wrapped. -/
theorem expand_grows (hP : Paged s) (hle : s.heap.start ≤ s.heap.stop) (hword : size + 20 < 2 ^ 32)
    (h : expand P s (add32 (sub32 s.heap.stop s.heap.start) (size + 20)) = some t) :
    s.heap.start + grownSz s size < 2 ^ 32 ∧ s.heap.start + grownSz s size ≤ s.heap.max
        ∧ t = extended P s (grownSz s size)
      ∨ 2 ^ 32 ≤ s.heap.start + grownSz s size ∧ t.heap.start = s.heap.start
        ∧ t.heap.stop < t.heap.start := by
  obtain ⟨Z, hZ, hlt, hmax, rfl⟩ := expand_some hP hle hword h
  have hgrown : grownSz s size = Z := hZ.symm
  have hstart : s.heap.start < 2 ^ 32 := Nat.lt_of_le_of_lt hle hP.stop
  rw [hgrown]
  by_cases hwrap : s.heap.start + Z < 2 ^ 32
  · rw [Nat.mod_eq_of_lt hwrap] at hmax ⊢
    exact Or.inl ⟨hwrap, hmax, rfl⟩
  · refine Or.inr ⟨by omega, rfl, ?_⟩
    dsimp only
    omega

/-- The ways in which a request is served. -/
theorem alloc_cases (hP : Paged s) (hle : s.heap.start ≤ s.heap.stop) (hword : size + 20 < 2 ^ 32)
    (h : alloc P (n + 1) s size 0 = some (q, t)) :
    (∃ i, holeFind s (size + 20) 0 = some i ∧ allocHole s i (size + 20) 0 = some (q, t))
      ∨ holeFind s (size + 20) 0 = none ∧ (s.heap.start + grownSz s size < 2 ^ 32
          ∧ s.heap.start + grownSz s size ≤ s.heap.max
          ∧ alloc P n (grown P s size) size 0 = some (q, t)
        ∨ 2 ^ 32 ≤ s.heap.start + grownSz s size ∧ t.heap.stop < t.heap.start) := by
  rw [alloc, realSize_of_lt hword] at h
  split at h
  · rename_i i hfind
    exact Or.inl ⟨i, hfind, h⟩
  · rename_i hnone
    refine Or.inr ⟨hnone, ?_⟩
    obtain ⟨u, hexpand, hrest⟩ := Option.bind_eq_some_iff.mp h
    rcases expand_grows hP hle hword hexpand with ⟨hlt, hmax, rfl⟩ | ⟨hwrap, hstart, hstop⟩
    · rw [sub32_of_le hle] at hrest
      exact Or.inl ⟨hlt, hmax, hrest⟩
    · have hsame := growHole_same u (sub32 s.heap.stop s.heap.start) s.heap.stop
      refine Or.inr ⟨hwrap, alloc_wrapped n ?_ ?_ hrest⟩
      · rw [hsame.stop, hsame.start]
        exact hstop
      · rw [hsame.start, hstart]
        exact Nat.lt_of_le_of_lt hle hP.stop

theorem allocHole_kept {i m : Nat} (W : WellFormed s segs) (hP : Placed s) (h20 : 20 ≤ m)
    (hfind : holeFind s m 0 = some i) (h : allocHole s i m 0 = some (q, t)) : Kept s t :=
  ⟨allocHole_same h, fun _ hx => allocHole_beside W hP h20 hfind h hx⟩

/-- A heap with a hole that is large enough needs no expansion. -/
theorem Extended.refl {i : Nat} (W : WellFormed s segs) (hP : Placed s)
    (hfind : holeFind s (size + 20) 0 = some i) : Extended s segs size s segs where
  wellFormed := W
  room := hP.room
  stop := hP.stop
  fits := by
    obtain ⟨hi, hfit⟩ := holeFind_spec hfind
    obtain ⟨k, hk, hhole, haddr⟩ := mem_holeAddrs.mp (W.listed.subset (OrdArr.elem_mem hi))
    rw [← haddr, (W.tagged k hk).size] at hfit
    exact ⟨k, hk, hhole, hfit⟩
  live k hk _ := ⟨hk, fun _ _ _ => rfl⟩

/-- The request is served from a hole. -/
theorem Extended.served {e : St} {segs' : List Seg} (X : Extended s segs size e segs')
    (hP : Placed e) (hword : size + 20 < 2 ^ 32) (h : alloc P n e size 0 = some (q, t)) :
    Served s segs size q t ∧ Kept e t := by
  cases n with
  | zero => exact nomatch h
  | succ n =>
      obtain ⟨p, u, hserve, hserved⟩ := X.serve (P := P) (realSize_of_lt hword) n
      obtain ⟨rfl, rfl⟩ := Prod.mk.inj (Option.some.inj (h.symm.trans hserve))
      obtain ⟨i, hfind⟩ := X.find
      rw [alloc, realSize_of_lt hword, hfind] at h
      exact ⟨hserved, allocHole_kept X.wellFormed hP (by omega) hfind h⟩

theorem alloc_sound_iff (W : WellFormed s segs) (hP : Paged s) (hmax : s.heap.max < 2 ^ 32)
    (hindex : 0 < s.heap.index.maxSize) (h : alloc P n s size 0 = some (q, t)) :
    AllocSound P s segs size q t ↔ AllocFits s segs size := by
  by_cases hword : size + 20 < 2 ^ 32
  swap
  · refine iff_of_false (fun ⟨⟨segs', W', b, hb, _, _, hsize, _⟩, _⟩ => ?_) fun F => hword F.word
    have hlt := (W'.tagged b hb).size_lt
    omega
  cases n with
  | zero => exact nomatch h
  | succ n =>
      rcases alloc_cases hP W.tiles.le hword h with
        ⟨i, hfind, hserve⟩ | ⟨hnone, ⟨hlt, hbelow, hagain⟩ | ⟨hwrap, hstop⟩⟩
      · obtain ⟨hserved, hkept⟩ := (Extended.refl W hP.toPlaced hfind).served hP.toPlaced hword h
        refine iff_of_true ⟨hserved, Or.inl hkept⟩ ⟨hword, fun hnone => ?_⟩
        rw [hfind] at hnone
        exact nomatch hnone
      · have hbelow' := hP.below
        have G : Outgrown s size := ⟨hP.toPlaced.room, by omega, hmax, hbelow, hnone⟩
        refine ⟨fun hsound => ⟨hword, fun _ => ⟨hlt, ?_⟩⟩, fun F => ?_⟩
        · cases n with
          | zero => exact nomatch hagain
          | succ n => exact G.endsInHole W h hsound.1
        · have hends := (F.grow hnone).2
          obtain ⟨l, z, -, -, X⟩ := G.grown_extended (P := P) W hends
          obtain ⟨hcont, hplaced⟩ := G.grown_kept (P := P) W hP.toPlaced hindex hends
          obtain ⟨hserved, hkept⟩ := X.served hplaced hword hagain
          exact ⟨hserved, hcont.kept hkept⟩
      · -- the end lies in front of the start
        refine iff_of_false (fun ⟨⟨segs', W', _⟩, _⟩ => ?_) fun F => ?_
        · have hle := W'.tiles.le
          omega
        · have hlt := (F.grow hnone).1
          omega

end Alloc

/-! ## A smaller block -/

section Shrink

variable {P : Pages} {s t : St} {l₁ l₂ l₃ : List Seg} {g r : Seg} {size n : Nat}

theorem finish_kept {m : Mem} {heap : VmemHeap} (hP : Placed ⟨m, heap⟩)
    (hslot : heap.index.size < heap.index.maxSize) (h20 : 20 ≤ n) (hlow : heap.start ≤ g.addr)
    (hend : g.addr + n ≤ heap.stop) : Kept ⟨m, heap⟩ (finish m heap g n) where
  same := finish_same m heap g n
  mem x hx := by
    have hbelow := hP.below
    have hstop := hP.stop
    dsimp only at hbelow hstop
    have hoff : x < g.addr ∨ g.addr + n ≤ x := by
      unfold Beside at hx
      dsimp only at hx
      omega
    unfold finish
    dsimp only
    rw [resize_apply h20 (by omega) (by omega) (by omega)]
    exact hx.insert hslot _

theorem shrink_kept (W : WellFormed s (l₁ ++ g :: l₂)) (hP : Paged s) (h20 : 20 ≤ n)
    (hn : g.size - n = 2 ^ 31) (hslot : (∃ r l₃, l₂ = r :: l₃ ∧ r.hole = true)
      ∨ s.heap.index.size < s.heap.index.maxSize) (h : shrink s g.addr n = some t) : Kept s t := by
  have hgmem : g ∈ l₁ ++ g :: l₂ := List.mem_append_right _ List.mem_cons_self
  have hlow := (W.tiles.bounds hgmem).1
  have hend := (W.tiles.bounds hgmem).2
  have hstop := hP.stop
  by_cases hright : ∃ r l₃, l₂ = r :: l₃ ∧ r.hole = true
  · obtain ⟨r, l₃, rfl, hr⟩ := hright
    obtain ⟨s₁, U, hshrink⟩ := shrink_right W hP hr h20 (by omega)
    obtain rfl := Option.some.inj (h.symm.trans hshrink)
    obtain ⟨-, hnext, hrend, g20, r20, -, hrtag⟩ := pair_bounds W
    have htag : Tagged s₁.mem r := hrtag.congr r20 fun x h1 _ => U.mem x (by omega)
    obtain ⟨hP₁, hfree⟩ := U.placed hP.toPlaced (rightMem s₁.mem g r n)
    have hkept : Kept s ⟨rightMem s₁.mem g r n, s₁.heap⟩ := by
      refine ⟨U.same.trans (SameHeap.of_mem s₁ _), fun x hx => ?_⟩
      have hg := hx.off W hP.toPlaced hgmem
      have hr := hx.off W hP.toPlaced
        (List.mem_append_right _ (List.mem_cons_of_mem _ List.mem_cons_self))
      dsimp only
      rw [rightMem_apply htag r20 hnext (by omega) (by omega) (by omega), U.beside x hx]
    refine hkept.trans (finish_kept hP₁ hfree h20 ?_ ?_)
    · rw [U.same.start]
      exact hlow
    · rw [U.same.stop]
      omega
  · have hno : ∀ r l₃, l₂ = r :: l₃ → r.hole = false := fun r l₃ heq =>
      Bool.eq_false_iff.mpr fun hr => hright ⟨r, l₃, heq, hr⟩
    have hfree := hslot.resolve_left hright
    obtain rfl := Option.some.inj (h.symm.trans (shrink_tail W hP hno h20 (by omega)))
    have hsame := SameHeap.of_mem s (tailMem s.mem g n)
    have hkept : Kept s ⟨tailMem s.mem g n, s.heap⟩ := by
      refine ⟨hsame, fun x hx => ?_⟩
      have hg := hx.off W hP.toPlaced hgmem
      dsimp only
      rw [tailMem_eq hn (by omega), holeMem_apply (by omega) (by omega)]
    exact hkept.trans (finish_kept (hP.toPlaced.of_same hsame hP.toPlaced.size) hfree h20 hlow
      (by omega))

theorem shrink_returns (W : WellFormed s (l₁ ++ g :: l₂)) (hP : Paged s) (hlive : g.hole = false)
    (hless : size + 20 < g.size) (h : shrink s g.addr (size + 20) = some t) :
    Resized s l₁ g l₂ size size (g.addr + 12) t ↔ g.size - (size + 20) = 2 ^ 31
      ∧ ((∃ r l₃, l₂ = r :: l₃ ∧ r.hole = true)
        ∨ s.heap.index.size < s.heap.index.maxSize) := by
  rw [← shrink_resized_iff W hP hlive hless]
  refine ⟨fun hres => ⟨t, h, hres⟩, fun ⟨u, hu, hres⟩ => ?_⟩
  rw [Option.some.inj (h.symm.trans hu)]
  exact hres

end Shrink

/-! ## A block with no hole behind it -/

/-- The heap from which the request is served: the one that is there, if a hole is large
enough, or the one that has grown. -/
def roomy (P : Pages) (s : St) (size : Nat) : St :=
  match holeFind s (size + 20) 0 with
  | some _ => s
  | none => grown P s size

/-- What a block with no hole behind it needs for `size` bytes: the last one an end that
does not wrap, and a slot for the hole in the new pages; any other one, which is not
aligned, an allocation, and then a free. -/
def RoomFits (P : Pages) (s : St) (l₁ : List Seg) (g : Seg) (l₂ : List Seg) (size : Nat) : Prop :=
  match l₂ with
  | [] => s.heap.start + grownSz s size < 2 ^ 32 ∧ s.heap.index.size < s.heap.index.maxSize
  | r :: l₃ => hdrAlign s.mem g.addr = 0 ∧ AllocFits s (l₁ ++ g :: r :: l₃) size
      ∧ MoveFits P (roomy P s size) l₁ g (size + 20)

section Room

variable {P : Pages} {s t e : St} {l₁ l₂ l₃ : List Seg} {g r : Seg} {size q n : Nat}

theorem sub32_tags (hword : size + 20 < 2 ^ 32) :
    sub32 (sub32 (size + 20) headerSz) footerSz = size := by
  have hinner : sub32 (size + 20) headerSz = size + 8 := sub32_of_le (by unfold headerSz; omega)
  rw [hinner, footerSz, sub32_of_le (by omega)]
  omega

/-- A move starts with an allocation. -/
theorem extendMove_alloc (hword : size + 20 < 2 ^ 32)
    (h : extendMove P n s (g.addr + 12) g.addr (size + 20) = some (q, t)) :
    ∃ q₁ t₁, alloc P n s size (hdrAlign s.mem g.addr) = some (q₁, t₁) := by
  obtain ⟨⟨q₂, t₂⟩, hmove, -⟩ := Option.bind_eq_some_iff.mp h
  obtain ⟨⟨q₁, t₁⟩, halloc, -⟩ := Option.bind_eq_some_iff.mp hmove
  rw [sub32_tags hword] at halloc
  exact ⟨q₁, t₁, halloc⟩

/-- The rest of it only depends on the outcome of that. -/
theorem extendMove_congr {n' : Nat} (hword : size + 20 < 2 ^ 32)
    (h : alloc P n s size (hdrAlign s.mem g.addr) = alloc P n' e size (hdrAlign e.mem g.addr)) :
    extendMove P n s (g.addr + 12) g.addr (size + 20)
      = extendMove P n' e (g.addr + 12) g.addr (size + 20) := by
  unfold extendMove moveOut
  rw [sub32_tags hword, h]

/-- A hole that is large enough serves the request, at any depth. -/
theorem alloc_of_find {i : Nat} (hword : size + 20 < 2 ^ 32)
    (hfind : holeFind s (size + 20) 0 = some i) :
    alloc P (n + 1) s size 0 = allocHole s i (size + 20) 0 := by
  rw [alloc, realSize_of_lt hword, hfind]

/-- A move within the heap as it is. -/
theorem move_sound_of_find {i : Nat} (W : WellFormed s (l₁ ++ g :: r :: l₃)) (hP : Placed s)
    (hlive : g.hole = false) (hr : r.hole = false) (halign : hdrAlign s.mem g.addr = 0)
    (hless : g.size < size + 20) (hword : size + 20 < 2 ^ 32)
    (hfind : holeFind s (size + 20) 0 = some i) (hfits : MoveFits P s l₁ g (size + 20))
    (hcall : extendMove P (n + 1) s (g.addr + 12) g.addr (size + 20) = some (q, t)) :
    Resized s l₁ g (r :: l₃) size (g.size - 20) q t ∧ Kept s t := by
  have hone : extendMove P (n + 1) s (g.addr + 12) g.addr (size + 20)
      = extendMove P (0 + 1) s (g.addr + 12) g.addr (size + 20) :=
    extendMove_congr hword (by rw [halign, alloc_of_find hword hfind, alloc_of_find hword hfind])
  rw [hone] at hcall
  obtain ⟨hres, hsame, hbeside⟩ := move_resized W hP hlive hr halign hless hword hcall hfits
  rw [Nat.add_sub_cancel] at hres
  exact ⟨hres, hsame, hbeside⟩

/-- The expansion has left the payload and the other blocks as they were. -/
theorem Extended.resized {l₃' : List Seg} {keep : Nat} (W : WellFormed s (l₁ ++ g :: r :: l₃))
    (X : Extended s (l₁ ++ g :: r :: l₃) size e (l₁ ++ g :: r :: l₃'))
    (hl : liveSegs l₃' = liveSegs l₃) (hlive : g.hole = false) (hkeep : keep ≤ g.size - 20)
    (h : Resized e l₁ g (r :: l₃') size keep q t) : Resized s l₁ g (r :: l₃) size keep q t := by
  have hgmem : g ∈ l₁ ++ g :: r :: l₃ := List.mem_append_right _ List.mem_cons_self
  have g20 := W.min g hgmem
  have hl' : liveSegs (r :: l₃) = liveSegs (r :: l₃') := by
    rw [liveSegs_cons, liveSegs_cons, hl]
  refine h.congr rfl hl' (fun x hx => ?_) fun b hb x h1 h2 => ?_
  · exact ((X.live g hgmem hlive).2 _ (by omega) (by omega)).symm
  · rw [← hl', ← liveSegs_append] at hb
    obtain ⟨hb, hbl⟩ := mem_liveSegs.mp hb
    have hbmem : b ∈ l₁ ++ g :: r :: l₃ := by
      rcases List.mem_append.mp hb with hb | hb
      · exact List.mem_append_left _ hb
      · exact List.mem_append_right _ (List.mem_cons_of_mem _ hb)
    exact ((X.live b hbmem hbl).2 x h1 h2).symm

theorem move_sound (W : WellFormed s (l₁ ++ g :: r :: l₃)) (hP : Paged s)
    (hmax : s.heap.max < 2 ^ 32) (hindex : 0 < s.heap.index.maxSize) (hlive : g.hole = false)
    (hr : r.hole = false) (hless : g.size < size + 20)
    (hfits : RoomFits P s l₁ g (r :: l₃) size)
    (hcall : extendMove P n s (g.addr + 12) g.addr (size + 20) = some (q, t)) :
    Resized s l₁ g (r :: l₃) size (g.size - 20) q t ∧ Contained P s t := by
  obtain ⟨halign, F, hmove⟩ := hfits
  have hword := F.word
  cases n with
  | zero =>
      obtain ⟨q₁, t₁, halloc⟩ := extendMove_alloc hword hcall
      cases halloc
  | succ n =>
      unfold roomy at hmove
      split at hmove
      · rename_i i hfind
        obtain ⟨hres, hkept⟩ := move_sound_of_find W hP.toPlaced hlive hr halign hless hword hfind
          hmove hcall
        exact ⟨hres, Or.inl hkept⟩
      · rename_i hnone
        obtain ⟨hlt, hends⟩ := F.grow hnone
        obtain ⟨q₁, t₁, halloc⟩ := extendMove_alloc hword hcall
        rw [halign] at halloc
        have hbelow := hP.below
        have hmaxed : s.heap.start + grownSz s size ≤ s.heap.max := by
          rcases alloc_cases hP W.tiles.le hword halloc with ⟨i, hfind, -⟩ | ⟨-, h | ⟨hwrap, -⟩⟩
          · rw [hnone] at hfind
            cases hfind
          · exact h.2.1
          · omega
        have G : Outgrown s size := ⟨hP.toPlaced.room, by omega, hmax, hmaxed, hnone⟩
        obtain ⟨l₃', X, hl⟩ := G.grown_around (P := P) W hr hends
        obtain ⟨hcont, hplaced⟩ := G.grown_kept (P := P) W hP.toPlaced hindex hends
        have hgmem : g ∈ l₁ ++ g :: r :: l₃ := List.mem_append_right _ List.mem_cons_self
        have g20 := W.min g hgmem
        have halign' : hdrAlign (grown P s size).mem g.addr = 0 := by
          rw [← halign, hdrAlign, hdrAlign, rd8, rd8,
            (X.live g hgmem hlive).2 (g.addr + 4) (by omega) (by omega)]
        -- the second call of `vmem_heap_alloc` finds the room
        have hagain : extendMove P (n + 1) s (g.addr + 12) g.addr (size + 20)
            = extendMove P n (grown P s size) (g.addr + 12) g.addr (size + 20) :=
          extendMove_congr hword (by rw [halign, halign']; exact G.alloc_eq W.tiles.le n)
        rw [hagain] at hcall
        obtain ⟨i, hfind⟩ := X.find
        cases n with
        | zero =>
            obtain ⟨q₂, t₂, halloc₂⟩ := extendMove_alloc hword hcall
            cases halloc₂
        | succ n =>
            obtain ⟨hres, hkept⟩ := move_sound_of_find X.wellFormed hplaced hlive hr halign' hless
              hword hfind hmove hcall
            exact ⟨X.resized W hl hlive (Nat.le_refl _) hres, hcont.kept hkept⟩

/-- Only the block and the new pages are written. -/
theorem ended_kept {Z : Nat} (W : WellFormed s (l₁ ++ [g])) (hP : Paged s)
    (hslot : s.heap.index.size < s.heap.index.maxSize) (hn : g.size ≤ n)
    (hend : g.addr + n + 20 ≤ s.heap.start + Z) (hlt : s.heap.start + Z < 2 ^ 32) :
    Kept (extended P s Z) ((ended P s g n Z).insert (g.addr + n)) := by
  have hgmem : g ∈ l₁ ++ [g] := List.mem_append_right _ List.mem_cons_self
  have hlow := (W.tiles.bounds hgmem).1
  have g20 := W.min g hgmem
  have hbelow := hP.below
  have hsame : SameHeap (extended P s Z) (ended P s g n Z) := SameHeap.of_mem _ _
  refine ⟨hsame.trans (insert_same _ _), fun x hx => ?_⟩
  have hoff : x < g.addr ∨ s.heap.start + Z ≤ x := by
    unfold Beside extended at hx
    dsimp only at hx
    omega
  rw [(hsame.beside.mpr hx).insert hslot]
  unfold ended
  dsimp only
  rw [holeMem_apply (by omega) (by omega), resize_apply (by omega) (by omega) (by omega) (by omega)]

theorem end_sound (W : WellFormed s (l₁ ++ [g])) (hP : Paged s) (hlive : g.hole = false)
    (hless : g.size < size + 20) (hword : size + 20 < 2 ^ 32)
    (h : extendEnd P s g.addr (size + 20) = some t) :
    (RoomFits P s l₁ g [] size →
        Resized s l₁ g [] size (g.size - 20) (g.addr + 12) t ∧ Contained P s t)
      ∧ ∀ size₀ keep q, Resized s l₁ g [] size₀ keep q t → RoomFits P s l₁ g [] size := by
  obtain ⟨u, hexpand, hrest⟩ := Option.bind_eq_some_iff.mp h
  rcases expand_grows hP W.tiles.le hword hexpand with ⟨hlt, hmax, rfl⟩ | ⟨hwrap, -, hstop⟩
  · have hmore : s.heap.stop - s.heap.start + (size + 20) ≤ grownSz s size := by
      unfold grownSz
      omega
    obtain ⟨hfits, hplaced⟩ := extendEnd_of_expand W hP hlive hless hexpand hmore hlt h
    have hgend : g.addr + g.size = s.heap.stop := (tiles_split.mp W.tiles).2.2
    have hle := W.tiles.le
    have g20 := W.min g (List.mem_append_right _ List.mem_cons_self)
    refine ⟨fun ⟨_, hslot⟩ => ⟨hfits hslot, ?_⟩, fun size₀ keep q hres => ⟨hlt, ?_⟩⟩
    · rw [extendEnd_eq hexpand (by omega) (by omega) hlt] at h
      obtain rfl := Option.some.inj h
      exact Or.inr ⟨s, grownSz s size, Kept.refl s, by omega,
        ended_kept W hP hslot (by omega) (by omega) hlt⟩
    · obtain ⟨_, _, -, hP', -⟩ := hres
      exact hplaced hP'
  · -- the end lies in front of the start
    refine ⟨fun ⟨hlt, _⟩ => by omega, fun size₀ keep q hres => ?_⟩
    obtain ⟨_, _, W', -⟩ := hres
    have hle := W'.tiles.le
    obtain rfl := Option.some.inj hrest
    rw [(insert_same _ _).stop, (insert_same _ _).start] at hle
    dsimp only at hle
    omega

/-- With no hole behind the block. -/
theorem room_sound (W : WellFormed s (l₁ ++ g :: l₂)) (hP : Paged s) (hmax : s.heap.max < 2 ^ 32)
    (hindex : 0 < s.heap.index.maxSize) (hlive : g.hole = false)
    (hno : ∀ r l₃, l₂ = r :: l₃ → r.hole = false) (hless : g.size < size + 20)
    (hword : size + 20 < 2 ^ 32) {k : Nat}
    (hcall : realloc P n (k + 1) s (g.addr + 12) size = some (q, t)) :
    (RoomFits P s l₁ g l₂ size → Resized s l₁ g l₂ size (g.size - 20) q t ∧ Contained P s t)
      ∧ (n = 1 → hdrAlign s.mem g.addr = 0 → ∀ size₀ keep, Resized s l₁ g l₂ size₀ keep q t →
        RoomFits P s l₁ g l₂ size) := by
  rw [realloc_extend W hP hlive hless hword n k] at hcall
  cases l₂ with
  | nil =>
      obtain ⟨u, hend, heq⟩ := Option.map_eq_some_iff.mp hcall
      obtain ⟨rfl, rfl⟩ := Prod.mk.inj heq
      obtain ⟨hfits, hres⟩ := end_sound W hP hlive hless hword hend
      exact ⟨hfits, fun _ _ size₀ keep h => hres size₀ keep _ h⟩
  | cons r l₃ =>
      have hr := hno r l₃ rfl
      have hcall : extendMove P n s (g.addr + 12) g.addr (size + 20) = some (q, t) := by
        rw [← hcall]
        dsimp only
        rw [hr, if_neg Bool.false_ne_true]
      refine ⟨fun hfits => move_sound W hP hmax hindex hlive hr hless hfits hcall,
        fun hn halign size₀ keep hres => ?_⟩
      subst hn
      obtain ⟨q₁, t₁, halloc⟩ := extendMove_alloc hword hcall
      obtain ⟨i, hfind⟩ : ∃ i, holeFind s (size + 20) 0 = some i := by
        rw [halign] at halloc
        rcases alloc_cases hP W.tiles.le hword halloc with ⟨i, hfind, -⟩ | ⟨hnone, -⟩
        · exact ⟨i, hfind⟩
        · -- the only call finds a hole
          rw [alloc, realSize_of_lt hword, hnone] at halloc
          obtain ⟨_, -, hagain⟩ := Option.bind_eq_some_iff.mp halloc
          cases hagain
      have hroomy : roomy P s size = s := by
        rw [roomy, hfind]
      refine ⟨halign, ⟨hword, fun hnone => ?_⟩, ?_⟩
      · rw [hfind] at hnone
        cases hnone
      · rw [hroomy]
        exact MoveFits.of_resized W hP.toPlaced hlive hr halign hless hword hcall hres

end Room

/-! ## A size of zero -/

/-- The block is gone, and the others are as they were. -/
def Released (s : St) (l₁ l₂ : List Seg) (t : St) : Prop :=
  ∃ segs', WellFormed t segs' ∧ Placed t ∧ liveSegs segs' = liveSegs l₁ ++ liveSegs l₂
    ∧ ∀ b ∈ liveSegs segs', ∀ x, b.addr ≤ x → x < b.addr + b.size → t.mem x = s.mem x

/-- What a free takes: no word in front of the heap is taken for the footer of a hole, and
a hole that is not joined to another one finds a slot. -/
structure FreeFits (s : St) (l₁ : List Seg) (g : Seg) : Prop where
  first : l₁ = [] → ¬JoinsLeft s (g.addr + 12)
  slot : ¬JoinsLeft s (g.addr + 12) → ¬RightHole s.mem (g.addr + g.size) →
    s.heap.index.size < s.heap.index.maxSize

section Free

variable {s t : St} {l₁ l₂ l₃ : List Seg} {g r : Seg} {R : Nat}

/-- Behind the last segment nothing is joined: what is there is not listed. -/
theorem free_last (W : WellFormed s (l₁ ++ [g])) (hP : Placed s) (hlive : g.hole = false)
    (hfirst : l₁ = [] → ¬LeftHole (markHole s g).mem g.addr)
    (hfree : free s (g.addr + 12) = some t) : ¬RightHole s.mem (g.addr + g.size) := by
  have hgmem : g ∈ l₁ ++ [g] := List.mem_append_right _ List.mem_cons_self
  have g20 := W.min g hgmem
  have hend : g.addr + g.size = s.heap.stop := (tiles_split.mp W.tiles).2.2
  have hstop := hP.stop
  have hroom := hP.room
  unfold Room at hroom
  obtain ⟨m, l₁', g', add, hunify, -, hdone⟩ := unifyLeft_spec (markHole_segmented W.toSegmented)
    rfl (List.isChain_append.mp W.apart).1 hP.stop hfirst
  have hlow : s.heap.start ≤ g'.addr :=
    (hdone.segmented.tiles.bounds (List.mem_append_right _ List.mem_cons_self)).1
  have hle : g'.addr ≤ g.addr := hdone.le
  have hg' : g'.addr + g'.size = g.addr + g.size := hdone.stop
  have g'20 : 20 ≤ g'.size :=
    hdone.segmented.min g' (List.mem_append_right _ List.mem_cons_self)
  -- the left phase has only written the segment
  have hmem : ∀ x, x < g'.addr ∨ g.addr + g.size ≤ x → m x = s.mem x := fun x hx => by
    have hx' : x < g'.addr ∨ (⟨g.addr, g.size, true⟩ : Seg).addr + g.size ≤ x := hx
    rw [hdone.frame x hx']
    exact markHole_mem (by omega)
  rw [free_live (W.tagged g hgmem) hlive (by omega) hunify, Option.map_eq_some_iff] at hfree
  obtain ⟨u, hright, -⟩ := hfree
  intro hhole
  have hrhdr : g.addr + g.size - 8 + 8 = s.heap.stop := by omega
  unfold unifyRight at hright
  simp only [footerSz, hrhdr] at hright
  rw [hend] at hhole
  have hhole' : RightHole m s.heap.stop := by
    have hmagic : tagMagic m s.heap.stop = tagMagic s.mem s.heap.stop :=
      rd32_congr fun x h1 _ => hmem x (by omega)
    rw [RightHole, hmagic, hdrHole, rd8, hmem _ (by omega)]
    exact hhole
  rw [if_pos hhole'] at hright
  obtain ⟨i, hindex, -⟩ := Option.bind_eq_some_iff.mp hright
  have hlisted := OrdArr.mem_of_index hindex
  rw [OrdArr.elems_congr fun x h1 h2 => ?_] at hlisted
  · obtain ⟨-, -, -, -, -, hbound⟩ := W.hole_bounds hlisted
    omega
  · rw [setFtrHdr_apply (by omega), setSize_apply (by omega), hmem x (by omega)]

/-- `free_first` with nothing behind the block. -/
theorem free_first_last (W : WellFormed s [g]) (hP : Placed s) (hlive : g.hole = false)
    (hleft : LeftHole (markHole s g).mem g.addr) (hfree : free s (g.addr + 12) = some t) :
    ¬Tagged t.mem ⟨g.addr, g.size, true⟩ := by
  have g20 := W.min g List.mem_cons_self
  have hend := (W.tiles.bounds List.mem_cons_self).2
  have hstop := hP.stop
  have htag := W.tagged g List.mem_cons_self
  obtain ⟨l, hl, hright⟩ := free_joined htag g20 hlive (by omega) hleft hfree
  unfold unifyRight at hright
  dsimp only at hright
  split at hright
  · -- the index is empty
    obtain ⟨i, hindex, -⟩ := Option.bind_eq_some_iff.mp hright
    have hempty : s.heap.index.size = 0 := by
      rw [W.length_holes, holeAddrs_cons, hlive, if_neg Bool.false_ne_true]
      rfl
    obtain ⟨j, hj, -⟩ := OrdArr.mem_elems.mp (OrdArr.mem_of_index hindex)
    omega
  · rw [← Option.some.inj hright]
    exact joinedMem_not_tagged htag g20 hl

/-- `free_first` with a hole behind the block. -/
theorem free_first_hole (W : WellFormed s (g :: r :: l₃)) (hP : Placed s) (hlive : g.hole = false)
    (hr : r.hole = true) (hleft : LeftHole (markHole s g).mem g.addr)
    (hfree : free s (g.addr + 12) = some t) : ¬Tagged t.mem ⟨g.addr, g.size + r.size, true⟩ := by
  obtain ⟨hlow, hnext, hend, g20, r20, htag, hrtag⟩ := @pair_bounds _ [] _ _ _ W
  have hstop := hP.stop
  have hroom := hP.room
  unfold Room at hroom
  have hsize := hdrSize_markHole htag g20
  obtain ⟨l, hl, hright⟩ := free_joined htag g20 hlive (by omega) hleft hfree
  have hrhdr : g.addr + g.size - 8 + 8 = r.addr := by omega
  unfold unifyRight at hright
  simp only [footerSz, hrhdr] at hright
  intro h
  have hsum : hdrSize t.mem g.addr = g.size + r.size := h.size
  -- the size of the first header is only written if `l` is that header, or next to it
  have hkeep : l + 12 ≤ g.addr + 8 ∨ g.addr + 12 ≤ l + 8 →
      hdrSize (joinedMem s g l) g.addr = g.size := fun hout => by
    refine Eq.trans (rd32_congr fun x h1 h2 => ?_) hsize
    unfold joinedMem
    rw [setFtrHdr_apply (by omega), setSize_apply (by omega)]
  split at hright
  case isFalse hno =>
    obtain rfl := Option.some.inj hright
    have hnear : ¬(l + 12 ≤ g.addr + 8 ∨ g.addr + 12 ≤ l + 8) := fun hout => by
      have := hkeep hout
      dsimp only at hsum
      omega
    refine hno ⟨?_, ?_⟩
    · refine Eq.trans (rd32_congr fun x h1 h2 => ?_) hrtag.magic
      exact joinedMem_apply (by omega) (by omega) (by omega)
    · have hhole : hdrHole (joinedMem s g l) r.addr = hdrHole s.mem r.addr := by
        rw [hdrHole, hdrHole, rd8, rd8, joinedMem_apply (by omega) (by omega) (by omega)]
      rw [hhole, hrtag.hole, hr]
      decide
  case isTrue =>
    obtain ⟨i, -, hrem⟩ := Option.bind_eq_some_iff.mp hright
    generalize hm : setSize (joinedMem s g l) l
      ((hdrSize (joinedMem s g l) l + hdrSize (joinedMem s g l) r.addr) % 2 ^ 32) = m at hrem
    have hmem : ∀ x, s.heap.start ≤ x →
        t.mem x = setFtrHdr m (r.addr + hdrSize m r.addr - 8) l x := fun x hx =>
      remove_mem hrem (Or.inr (by dsimp only; omega))
    have hfirst : hdrSize t.mem g.addr = hdrSize m g.addr := rd32_congr fun x h1 h2 => by
      rw [hmem x (by omega), setFtrHdr_apply (by omega)]
    have hnear : ¬(l + 12 ≤ g.addr + 8 ∨ g.addr + 12 ≤ l + 8) := fun hout => by
      have hold := hkeep hout
      have hnew : hdrSize m g.addr = hdrSize (joinedMem s g l) g.addr :=
        rd32_congr fun x h1 h2 => by rw [← hm, setSize_apply (by omega)]
      omega
    -- then the second header is as it was, and its footer names `l`
    have hsecond : ∀ x, r.addr ≤ x → x < r.addr + 12 → joinedMem s g l x = s.mem x :=
      fun x h1 h2 => joinedMem_apply (by omega) (by omega) (by omega)
    have hrsize : hdrSize (joinedMem s g l) r.addr = r.size :=
      (hdrSize_congr hsecond).trans hrtag.size
    have hrsize' : hdrSize m r.addr = r.size := by
      refine Eq.trans (hdrSize_congr fun x h1 h2 => ?_) hrsize
      rw [← hm, setSize_apply (by omega)]
    have hftr : ftrHdr t.mem (r.addr + r.size - 8) = l := by
      refine Eq.trans (rd32_congr fun x h1 h2 => hmem x (by omega)) ?_
      rw [hrsize']
      exact rd32_wr32_same _ hl
    have hlg : l = g.addr := by
      rw [← hftr, ← h.ftrHdr]
      dsimp only
      rw [show g.addr + (g.size + r.size) - 8 = r.addr + r.size - 8 by omega]
    subst hlg
    have hdouble : hdrSize (joinedMem s g g.addr) g.addr = (g.size + g.size) % 2 ^ 32 := by
      rw [joinedMem, hsize]
      refine Eq.trans (hdrSize_congr fun x h1 h2 => setFtrHdr_apply (by omega)) ?_
      exact hdrSize_setSize (Nat.mod_lt _ (by decide))
    have hfinal : hdrSize m g.addr = ((g.size + g.size) % 2 ^ 32 + r.size) % 2 ^ 32 := by
      rw [← hm, hdrSize_setSize (Nat.mod_lt _ (by decide)), hdouble, hrsize]
    omega

/-- The first block, once it is free, is one hole with the one behind it. -/
theorem Released.first_hole (hfreed : Released s [] l₂ t) (hsame : SameHeap s t)
    (W : WellFormed s (g :: l₂)) (hbehind : Behind l₂ R l₃) :
    Tagged t.mem ⟨g.addr, g.size + R, true⟩ := by
  obtain ⟨segs', W', -, hlive, -⟩ := hfreed
  have W₁ : WellFormed s ([] ++ g :: l₂) := W
  obtain ⟨hchain, hhead⟩ := hbehind.apart W₁
  have hstart : g.addr = s.heap.start := W.tiles.1
  have g20 := W.min g List.mem_cons_self
  have htiles : Tiles Seg.addr Seg.size t.heap.start
      ((⟨g.addr, g.size + R, true⟩ : Seg) :: l₃) t.heap.stop := by
    rw [hsame.start, hsame.stop, ← hstart]
    refine ⟨rfl, by dsimp only; omega, ?_⟩
    have hrest := hbehind.tiles W₁
    rw [Nat.add_assoc] at hrest
    exact hrest
  have hsegs : segs' = (⟨g.addr, g.size + R, true⟩ : Seg) :: l₃ := by
    refine segs_unique W'.tiles htiles W'.apart ?_ ?_
    · exact List.isChain_cons.mpr ⟨fun y hy => Apart.of_not_right (hhead y hy), hchain⟩
    · rw [hlive, liveSegs_cons, if_pos rfl, hbehind.live]
      rfl
  rw [hsegs] at W'
  exact W'.tagged _ List.mem_cons_self

/-- A free is sound exactly if `FreeFits`. -/
theorem released_iff (W : WellFormed s (l₁ ++ g :: l₂)) (hP : Placed s) (hlive : g.hole = false)
    (hfree : free s (g.addr + 12) = some t) : Released s l₁ l₂ t ∧ Kept s t ↔ FreeFits s l₁ g := by
  constructor
  · rintro ⟨hfreed, hkept⟩
    refine ⟨?_, fun hleft hright => ?_⟩
    · rintro rfl hleft
      rw [joinsLeft_iff] at hleft
      obtain ⟨R, l₃, hbehind⟩ := exists_behind l₂
      have htag := hfreed.first_hole hkept.same W hbehind
      rcases hbehind with ⟨r, rfl, hr, rfl⟩ | ⟨rfl, rfl, hno⟩
      · exact free_first_hole W hP hlive hr hleft hfree htag
      · cases l₂ with
        | nil => exact free_first_last W hP hlive hleft hfree htag
        | cons r l₃ => exact free_first W hP (hno r l₃ rfl) hlive hleft hfree htag
    · obtain ⟨_, -, hP', -⟩ := hfreed
      have hadds : AddsEntry s (.free (g.addr + 12)) :=
        ⟨by omega, hleft, (joinsRight_iff W hleft).not.mpr hright⟩
      exact ((counted_free (P := samePages) hfree).slots_iff hP.size).mp hP'.size hadds
  · intro F
    have hfirst : l₁ = [] → ¬LeftHole (markHole s g).mem g.addr := fun hnil =>
      (joinsLeft_iff s g).not.mp (F.first hnil)
    have hcalm : Calm s l₁ g l₂ := ⟨hfirst, fun hnil => by
      subst hnil
      exact free_last W hP hlive hfirst hfree⟩
    obtain ⟨segs', W', hP', hsegs, hmem, hbeside, hsame⟩ :=
      free_sound W hP hlive hcalm F.slot hfree
    exact ⟨⟨segs', W', hP', hsegs, hmem⟩, hsame, hbeside⟩

end Free

/-! ## A larger block -/

/-- A hole behind the block is enough if it is large enough; one that is not is claimed,
and the call is made again, with the room for the tags added once more. -/
def StretchFits (P : Pages) (s : St) (l₁ : List Seg) (g : Seg) (l₂ : List Seg) (size : Nat) :
    Prop :=
  match l₂ with
  | [] => RoomFits P s l₁ g [] size
  | r :: l₃ =>
      if r.hole then g.size + r.size < size + 20 →
        ∀ c, extendHole s g.addr r.addr (size + 20) = some (c, true) → size + 40 < 2 ^ 32
          ∧ RoomFits P c l₁ ⟨g.addr, g.size + r.size, false⟩ l₃ (size + 20)
      else RoomFits P s l₁ g (r :: l₃) size

section Stretch

variable {P : Pages} {s t s₁ : St} {l₁ l₂ l₃ : List Seg} {g r : Seg} {size q n k : Nat}

/-- The block and the hole are written, and the index. -/
theorem claim_kept (W : WellFormed s (l₁ ++ g :: r :: l₃)) (hP : Placed s)
    (U : Unlisted s r.addr s₁) : Kept s ⟨mergeMem s₁.mem g r, s₁.heap⟩ := by
  obtain ⟨-, hnext, -, g20, r20, -, -⟩ := pair_bounds W
  refine ⟨U.same.trans (SameHeap.of_mem s₁ _), fun x hx => ?_⟩
  have hg := hx.off W hP (List.mem_append_right _ List.mem_cons_self)
  have hr := hx.off W hP
    (List.mem_append_right _ (List.mem_cons_of_mem _ List.mem_cons_self))
  exact (mergeMem_apply g20 r20 hnext.symm (by omega)).trans (U.beside x hx)

theorem split_kept (W : WellFormed s (l₁ ++ g :: r :: l₃)) (hP : Placed s)
    (U : Unlisted s r.addr s₁) (hn : g.size < n) (hrest : 20 ≤ r.size - (n - g.size)) :
    Kept s (St.insert ⟨splitMem s₁.mem g r n, s₁.heap⟩ (g.addr + n)) := by
  obtain ⟨-, hnext, hend, g20, -, -, -⟩ := pair_bounds W
  have hstop := hP.stop
  have hsame := U.same.trans (SameHeap.of_mem s₁ (splitMem s₁.mem g r n))
  refine ⟨hsame.trans (insert_same _ _), fun x hx => ?_⟩
  have hg := hx.off W hP (List.mem_append_right _ List.mem_cons_self)
  have hr := hx.off W hP
    (List.mem_append_right _ (List.mem_cons_of_mem _ List.mem_cons_self))
  rw [(hsame.beside.mpr hx).insert (U.placed hP (splitMem s₁.mem g r n)).2]
  exact (splitMem_apply g20 hnext hn hrest (by omega) (by omega) (by omega)).trans (U.beside x hx)

/-- A block that starts in the heap and has room for `size` bytes leaves more than a page
to the words. -/
theorem Resized.word (h : Resized s l₁ g l₂ size k q t) (hP : Placed s)
    (hindex : 0 < s.heap.index.maxSize) (hstart : t.heap.start = s.heap.start) :
    size + 40 < 2 ^ 32 := by
  obtain ⟨segs', b, W', hP', -, -, hsize, hperm, -⟩ := h
  have hb := W'.tiles.bounds (mem_liveSegs.mp (hperm.symm.subset List.mem_cons_self)).1
  have haligned := hP.aligned
  have hbelow := hP.below
  have hstop := hP'.stop
  omega

theorem stretch_sound (W : WellFormed s (l₁ ++ g :: l₂)) (hP : Paged s) (hmax : s.heap.max < 2 ^ 32)
    (hindex : 0 < s.heap.index.maxSize) (hlive : g.hole = false) (hless : g.size < size + 20)
    (hword : size + 20 < 2 ^ 32) (hcall : realloc P n (k + 1) s (g.addr + 12) size = some (q, t)) :
    (StretchFits P s l₁ g l₂ size →
        Resized s l₁ g l₂ size (g.size - 20) q t ∧ Contained P s t)
      ∧ (n = 1 → hdrAlign s.mem g.addr = 0 → t.heap.start = s.heap.start →
        Resized s l₁ g l₂ size (g.size - 20) q t → StretchFits P s l₁ g l₂ size) := by
  have hroom := fun hno => room_sound W hP hmax hindex hlive hno hless hword hcall
  cases l₂ with
  | nil =>
      obtain ⟨hfits, hres⟩ := hroom fun _ _ h => nomatch h
      exact ⟨hfits, fun hn halign _ => hres hn halign _ _⟩
  | cons r l₃ =>
      cases hr : r.hole with
      | false =>
          obtain ⟨hfits, hres⟩ := hroom fun y t h => (List.cons.inj h).1 ▸ hr
          simp only [StretchFits, hr, if_neg Bool.false_ne_true]
          exact ⟨hfits, fun hn halign _ => hres hn halign _ _⟩
      | true =>
          obtain ⟨s₁, U, hextend⟩ := extendHole_eq (n := size + 20) W hP hr hless hword
          obtain ⟨-, -, -, g20, r20, -, -⟩ := pair_bounds W
          rw [realloc_extend W hP hlive hless hword n k] at hcall
          dsimp only at hcall
          rw [if_pos hr, hextend] at hcall
          simp only [StretchFits, if_pos hr, hextend]
          by_cases hshort : g.size + r.size < size + 20
          · have hcmp : r.size < size + 20 - g.size := by omega
            rw [if_pos hcmp] at hcall ⊢
            dsimp only at hcall
            -- the second call, on the block with the hole
            obtain ⟨W', hP'⟩ := claim_wellFormed W hP hlive hr U
            have hkept := claim_kept W hP.toPlaced U
            have hno : ∀ y l₄, l₃ = y :: l₄ → y.hole = false := fun y l₄ heq => by
              obtain ⟨-, hhead⟩ := Behind.apart (Or.inl ⟨r, rfl, hr, rfl⟩) W
              exact hhead y (by rw [heq]; rfl)
            have hsecond : size + 40 < 2 ^ 32 → _ := fun hword' => by
              cases k with
              | zero => exact nomatch hcall
              | succ k =>
                  exact room_sound W' hP' (by rw [hkept.same.max]; exact hmax)
                    (by rw [hkept.same.maxSize]; exact hindex) rfl hno (by dsimp only; omega)
                    (by omega) hcall
            refine ⟨fun h => ?_, fun hn halign hstart hres _ c hc => ?_⟩
            · obtain ⟨hword', hfits⟩ := h hshort _ rfl
              obtain ⟨hres, hcont⟩ := (hsecond hword').1 hfits
              refine ⟨(claimed_iff W hr U (Nat.le_refl _)).mp ?_, hkept.contained hcont⟩
              exact hres.mono (by omega) (by dsimp only; omega)
            · obtain rfl := (Prod.mk.inj (Option.some.inj hc)).1
              have hword' := hres.word hP.toPlaced hindex hstart
              refine ⟨hword', (hsecond hword').2 hn ?_ size (g.size - 20) ?_⟩
              · exact (claim_align W U).trans halign
              · exact (claimed_iff W hr U (Nat.le_refl _)).mpr hres
          · have hcmp : ¬r.size < size + 20 - g.size := by omega
            rw [if_neg hcmp] at hcall
            refine ⟨fun _ => ?_, fun _ _ _ _ h => absurd h hshort⟩
            by_cases hrest : 20 ≤ r.size - (size + 20 - g.size)
            · rw [if_pos hrest] at hcall
              obtain ⟨rfl, rfl⟩ := Prod.mk.inj (Option.some.inj hcall)
              exact ⟨split_resized W hP hlive hr U hless hrest,
                Or.inl (split_kept W hP.toPlaced U hless hrest)⟩
            · rw [if_neg hrest] at hcall
              obtain ⟨rfl, rfl⟩ := Prod.mk.inj (Option.some.inj hcall)
              exact ⟨claim_resized W hP hlive hr U (by omega), Or.inl (claim_kept W hP.toPlaced U)⟩

end Stretch

/-! ## Any request -/

/-- The outcome of `vmem_heap_realloc`: a block with room for `size` bytes that keeps what
was in the old one, or for a size of zero no block at all. -/
def ReallocSound (P : Pages) (s : St) (l₁ : List Seg) (g : Seg) (l₂ : List Seg) (size q : Nat)
    (t : St) : Prop :=
  if size = 0 then q = 0 ∧ Released s l₁ l₂ t ∧ Kept s t
  else Resized s l₁ g l₂ size (min size (g.size - 20)) q t ∧ Contained P s t

/-- What the branch of `vmem_heap_realloc` takes that the request leads to. -/
def ReallocFits (P : Pages) (s : St) (l₁ : List Seg) (g : Seg) (l₂ : List Seg) (size : Nat) :
    Prop :=
  if size = 0 then FreeFits s l₁ g
  else size + 20 < 2 ^ 32 ∧
    if g.size = size + 20 then True
    else if size + 20 < g.size then g.size - (size + 20) = 2 ^ 31
      ∧ ((∃ r l₃, l₂ = r :: l₃ ∧ r.hole = true) ∨ s.heap.index.size < s.heap.index.maxSize)
    else StretchFits P s l₁ g l₂ size

section Request

variable {P : Pages} {s t : St} {l₁ l₂ : List Seg} {g : Seg} {size q n k : Nat}

/-- The block has the size already. -/
theorem resized_same (W : WellFormed s (l₁ ++ g :: l₂)) (hP : Placed s) (hlive : g.hole = false)
    (hsize : g.size = size + 20) {keep : Nat} : Resized s l₁ g l₂ size keep (g.addr + 12) s := by
  refine ⟨_, g, W, hP, hlive, rfl, by omega, ?_, fun _ _ => rfl, fun _ _ _ _ _ => rfl⟩
  rw [liveSegs_append, liveSegs_cons, hlive, if_neg Bool.false_ne_true]
  exact List.perm_middle

theorem realloc_sound (W : WellFormed s (l₁ ++ g :: l₂)) (hP : Paged s) (hmax : s.heap.max < 2 ^ 32)
    (hindex : 0 < s.heap.index.maxSize) (hlive : g.hole = false)
    (hcall : realloc P n k s (g.addr + 12) size = some (q, t)) :
    (ReallocFits P s l₁ g l₂ size → ReallocSound P s l₁ g l₂ size q t)
      ∧ (n = 1 → hdrAlign s.mem g.addr = 0 → ReallocSound P s l₁ g l₂ size q t →
        ReallocFits P s l₁ g l₂ size) := by
  cases k with
  | zero => exact nomatch hcall
  | succ k =>
      unfold ReallocFits ReallocSound
      by_cases hzero : size = 0
      · subst hzero
        rw [if_pos rfl, if_pos rfl]
        rw [realloc, if_neg (Nat.succ_ne_zero _), if_pos rfl] at hcall
        obtain ⟨u, hfree, heq⟩ := Option.map_eq_some_iff.mp hcall
        obtain ⟨rfl, rfl⟩ := Prod.mk.inj heq
        have hiff := released_iff W hP.toPlaced hlive hfree
        exact ⟨fun F => ⟨rfl, hiff.mpr F⟩, fun _ _ h => hiff.mp h.2⟩
      rw [if_neg hzero, if_neg hzero]
      by_cases hword : size + 20 < 2 ^ 32
      swap
      · refine ⟨fun h => absurd h.1 hword, fun _ _ h => ?_⟩
        obtain ⟨⟨segs', b, W', -, -, -, hsize, hperm, -⟩, -⟩ := h
        have hb := mem_liveSegs.mp (hperm.symm.subset List.mem_cons_self)
        have hlt := (W'.tagged b hb.1).size_lt
        omega
      rw [and_iff_right hword]
      by_cases hsame : g.size = size + 20
      · rw [if_pos hsame]
        rw [realloc_live W hP.stop hlive (Nat.pos_of_ne_zero hzero) hword, if_pos hsame] at hcall
        obtain ⟨rfl, rfl⟩ := Prod.mk.inj (Option.some.inj hcall)
        exact ⟨fun _ => ⟨resized_same W hP.toPlaced hlive hsame, Or.inl (Kept.refl s)⟩,
          fun _ _ _ => trivial⟩
      rw [if_neg hsame]
      by_cases hless : size + 20 < g.size
      · rw [if_pos hless, Nat.min_eq_left (by omega)]
        rw [realloc_live W hP.stop hlive (Nat.pos_of_ne_zero hzero) hword, if_neg hsame,
          if_pos hless] at hcall
        obtain ⟨u, hshrink, heq⟩ := Option.map_eq_some_iff.mp hcall
        obtain ⟨rfl, rfl⟩ := Prod.mk.inj heq
        have hiff := shrink_returns W hP hlive hless hshrink
        exact ⟨fun F => ⟨hiff.mpr F, Or.inl (shrink_kept W hP (by omega) F.1 F.2 hshrink)⟩,
          fun _ _ h => hiff.mp h.1⟩
      · rw [if_neg hless, Nat.min_eq_right (by omega)]
        obtain ⟨hfits, hres⟩ := stretch_sound W hP hmax hindex hlive (by omega) hword hcall
        exact ⟨hfits, fun hn halign h => hres hn halign h.2.index.start h.1⟩

end Request

end Heap

end Shitos
